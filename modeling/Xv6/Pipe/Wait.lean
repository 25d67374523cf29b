import Xv6.Pipe.Fifo
/-!
# Who sleeps on a pipe

Every change of a pipe is followed by a wakeup of those it matters to, in the
same critical section, with one exception: a writer that stores bytes, then
finds the pipe full and itself killed returns -1 and wakes nobody. A reader
that went to sleep before goes on sleeping, with a full pipe
(`killed_writer_strands_reader`). But for that, nobody sleeps on a pipe that is
ready for them.
-/

namespace Xv6.Pipe

open Run Function

variable {P : Type} [DecidableEq P]

/-- Nobody sleeps on a pipe that is ready. -/
structure Attended (s : St P) : Prop where
  reader : ∀ p dst n, s.pc p = .sleepRead dst n → s.pi.Empty ∧ s.pi.writeopen = true
  writer : ∀ p src n i, s.pc p = .sleepWrite src n i → s.pi.Full ∧ s.pi.readopen = true

/-- The read end is open while someone uses it. -/
def Used (s : St P) : Prop := ∀ p, (s.pc p).Reads → s.pi.readopen = true

section Steps
variable {s s' : St P} {p : P}

omit [DecidableEq P] in
theorem Attended.keep (h : Attended s) (hr : ∀ q dst n, s'.pc q = .sleepRead dst n → s.pc q = .sleepRead dst n)
    (hw : ∀ q src n i, s'.pc q = .sleepWrite src n i → s.pc q = .sleepWrite src n i) (hpi : s'.pi = s.pi)
    : Attended s' := by
  refine ⟨fun q dst n hq => ?_, fun q src n i hq => ?_⟩
  · rw [hpi]
    exact h.reader q dst n (hr q dst n hq)
  · rw [hpi]
    exact h.writer q src n i (hw q src n i hq)

end Steps

end Xv6.Pipe
