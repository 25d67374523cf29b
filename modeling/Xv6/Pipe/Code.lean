import Mathlib.Algebra.Group.Nat.Defs
import Xv6.Lib.Ring
import Xv6.Lib.Run
/-!
# Pipes

`pipewrite`, `piperead` and `pipeclose` of `kernel/pipe.c`, for any number of
processes. The lock `pi->lock` is held except where a process sleeps, so what a
call does from `acquire`, or from the return of `sleep`, to the next `sleep` or
to `release` is one step.

An end of the pipe is closed when the last descriptor of it goes (`fileclose`),
so while no call uses that end. The fields from `calls` on are not in the code:
they record which call inserted and removed which byte, and what calls returned.
-/

namespace Xv6.Pipe

open Function

def PIPESIZE : Nat := 512

structure Pipe where
  data : Nat → UInt8
  nread : Nat
  nwrite : Nat
  readopen : Bool
  writeopen : Bool

/-- `pi->nwrite == pi->nread + PIPESIZE`, on `uint`s -/
def Pipe.Full (pi : Pipe) : Prop := pi.nwrite = (pi.nread + PIPESIZE) % 2 ^ 32

def Pipe.Empty (pi : Pipe) : Prop := pi.nread = pi.nwrite

instance (pi : Pipe) : Decidable pi.Full := inferInstanceAs (Decidable (_ = _))
instance (pi : Pipe) : Decidable pi.Empty := inferInstanceAs (Decidable (_ = _))

/-- `pi->data[pi->nwrite++ % PIPESIZE] = ch` -/
def Pipe.put (pi : Pipe) (ch : UInt8) : Pipe :=
  { pi with data := update pi.data (pi.nwrite % PIPESIZE) ch, nwrite := (pi.nwrite + 1) % 2 ^ 32 }

/-- `pi->data[pi->nread++ % PIPESIZE]`: the byte -/
def Pipe.next (pi : Pipe) : UInt8 := pi.data (pi.nread % PIPESIZE)

/-- The pipe without that byte. -/
def Pipe.drop (pi : Pipe) : Pipe := { pi with nread := (pi.nread + 1) % 2 ^ 32 }

/-- How a critical section of `pipewrite` ends. -/
inductive How where
  /-- `sleep(&pi->nwrite, &pi->lock)` -/
  | sleep
  /-- `return -1` -/
  | fail
  /-- `return i` -/
  | done
  deriving DecidableEq

/-- The loop of `pipewrite` from byte `i` on, with `rem` bytes to go, up to where it sleeps or
returns. `src i` is the user's byte at `addr + i`, if that is mapped. -/
def pipewrite (killed : Bool) (src : Nat → Option UInt8) : Nat → Nat → Pipe → Pipe × Nat × How
  | 0, i, pi => (pi, i, .done)
  | rem + 1, i, pi =>
    if pi.Full then
      if !pi.readopen || killed then (pi, i, .fail) else (pi, i, .sleep)
    else
      match src i with
      | none => (pi, i, .done)
      | some ch => pipewrite killed src rem (i + 1) (pi.put ch)

/-- The copy loop of `piperead`: how far it got, and the bytes it took out. `dst i` says whether
`addr + i` is mapped. -/
def pipereadCopy (dst : Nat → Bool) : Nat → Nat → Pipe → Pipe × Nat × List UInt8
  | 0, i, pi => (pi, i, [])
  | rem + 1, i, pi =>
    if pi.Empty then (pi, i, [])
    else if dst i then
      let r := pipereadCopy dst rem (i + 1) pi.drop
      (r.1, r.2.1, pi.next :: r.2.2)
    else (pi.drop, i, [pi.next])

inductive Pc where
  | user
  /-- In `pipewrite` at byte `i`, about to run with the lock. -/
  | writing (src : Nat → Option UInt8) (n : Int) (i : Nat)
  /-- `SLEEPING` on `&pi->nwrite` -/
  | sleepWrite (src : Nat → Option UInt8) (n : Int) (i : Nat)
  /-- In `piperead`, about to run with the lock. -/
  | reading (dst : Nat → Bool) (n : Int)
  /-- `SLEEPING` on `&pi->nread` -/
  | sleepRead (dst : Nat → Bool) (n : Int)

def Pc.wakeRead : Pc → Pc
  | .sleepRead dst n => .reading dst n
  | c => c

def Pc.wakeWrite : Pc → Pc
  | .sleepWrite src n i => .writing src n i
  | c => c

/-- The call that a process is in, whether it sleeps or not. -/
def Pc.awake (c : Pc) : Pc := c.wakeRead.wakeWrite

/-- The call uses the write end. -/
def Pc.Writes : Pc → Prop
  | .writing .. | .sleepWrite .. => True
  | _ => False

/-- The call uses the read end. -/
def Pc.Reads : Pc → Prop
  | .reading .. | .sleepRead .. => True
  | _ => False

/-- A call, by its process and its number among the calls of that process. -/
abbrev Tag (P : Type) := P × Nat

/-- What a call returned; a `piperead` also what it stored at `addr`. -/
inductive Ret (P : Type) where
  | write (c : Tag P) (src : Nat → Option UInt8) (n r : Int)
  | read (c : Tag P) (dst : Nat → Bool) (n r : Int) (buf : List UInt8)

structure St (P : Type) where
  pi : Pipe
  pc : P → Pc
  killed : P → Bool
  /-- How many calls each process has made. -/
  calls : P → Nat
  /-- The bytes inserted, oldest first, and by which call; by none if they were there at the start. -/
  sent : List (Option (Tag P) × UInt8)
  /-- The bytes removed. -/
  got : List (Option (Tag P) × UInt8)
  rets : List (Ret P)

inductive Event (P : Type) where
  /-- `p` calls `pipewrite`. -/
  | callWrite (p : P) (src : Nat → Option UInt8) (n : Int)
  /-- `p` calls `piperead`. -/
  | callRead (p : P) (dst : Nat → Bool) (n : Int)
  /-- A critical section of `pipewrite`. -/
  | write (p : P)
  /-- A critical section of `piperead`. -/
  | read (p : P)
  /-- `pipeclose(pi, 1)` -/
  | closeWrite
  /-- `pipeclose(pi, 0)` -/
  | closeRead
  /-- `kill` of `p`, by any process. -/
  | kill (p : P)

variable {P : Type} [DecidableEq P]

/-- The tag of the call that `p` is in. -/
def St.tag (s : St P) (p : P) : Tag P := (p, s.calls p)

/-- Byte `i` of the user's buffer. -/
def byte (src : Nat → Option UInt8) (i : Nat) : UInt8 := (src i).getD 0

/-- The bytes `i .. j - 1` of the user's buffer, as inserted by call `c`. -/
def stamped (c : Tag P) (src : Nat → Option UInt8) (i j : Nat) : List (Option (Tag P) × UInt8) :=
  (List.range' i (j - i)).map fun k => (some c, byte src k)

/-- `p` moves to `c`, after the others have been woken by `wake`. -/
abbrev St.goto (s : St P) (wake : Pc → Pc) (p : P) (c : Pc) : P → Pc := update (fun q => wake (s.pc q)) p c

inductive Step : St P → Event P → St P → Prop
  | callWrite {s p src n} : s.pc p = .user → s.pi.writeopen = true →
      Step s (.callWrite p src n) { s with
        pc := s.goto id p (.writing src n 0)
        calls := update s.calls p (s.calls p + 1) }
  | callRead {s p dst n} : s.pc p = .user → s.pi.readopen = true →
      Step s (.callRead p dst n) { s with
        pc := s.goto id p (.reading dst n)
        calls := update s.calls p (s.calls p + 1) }
  | writeSleep {s p src n i pi j} : s.pc p = .writing src n i →
      pipewrite (s.killed p) src (n.toNat - i) i s.pi = (pi, j, .sleep) →
      Step s (.write p) { s with
        pi := pi
        sent := s.sent ++ stamped (s.tag p) src i j
        pc := s.goto Pc.wakeRead p (.sleepWrite src n j) }
  | writeFail {s p src n i pi j} : s.pc p = .writing src n i →
      pipewrite (s.killed p) src (n.toNat - i) i s.pi = (pi, j, .fail) →
      Step s (.write p) { s with
        pi := pi
        sent := s.sent ++ stamped (s.tag p) src i j
        pc := s.goto id p .user
        rets := s.rets ++ [.write (s.tag p) src n (-1)] }
  | writeDone {s p src n i pi j} : s.pc p = .writing src n i →
      pipewrite (s.killed p) src (n.toNat - i) i s.pi = (pi, j, .done) →
      Step s (.write p) { s with
        pi := pi
        sent := s.sent ++ stamped (s.tag p) src i j
        pc := s.goto Pc.wakeRead p .user
        rets := s.rets ++ [.write (s.tag p) src n j] }
  | readFail {s p dst n} : s.pc p = .reading dst n → s.pi.Empty ∧ s.pi.writeopen = true → s.killed p = true →
      Step s (.read p) { s with
        pc := s.goto id p .user
        rets := s.rets ++ [.read (s.tag p) dst n (-1) []] }
  | readSleep {s p dst n} : s.pc p = .reading dst n → s.pi.Empty ∧ s.pi.writeopen = true → s.killed p = false →
      Step s (.read p) { s with pc := s.goto id p (.sleepRead dst n) }
  | readDone {s p dst n pi i l} : s.pc p = .reading dst n → ¬ (s.pi.Empty ∧ s.pi.writeopen = true) →
      pipereadCopy dst n.toNat 0 s.pi = (pi, i, l) →
      Step s (.read p) { s with
        pi := pi
        got := s.got ++ l.map fun ch => (some (s.tag p), ch)
        pc := s.goto Pc.wakeWrite p .user
        rets := s.rets ++ [.read (s.tag p) dst n i (l.take i)] }
  | closeWrite {s} : s.pi.writeopen = true → (∀ q, ¬ (s.pc q).Writes) →
      Step s .closeWrite { s with pi := { s.pi with writeopen := false }, pc := fun q => (s.pc q).wakeRead }
  | closeRead {s} : s.pi.readopen = true → (∀ q, ¬ (s.pc q).Reads) →
      Step s .closeRead { s with pi := { s.pi with readopen := false }, pc := fun q => (s.pc q).wakeWrite }
  | kill {s p} :
      Step s (.kill p) { s with
        killed := update s.killed p true
        pc := update s.pc p (s.pc p).awake }

/-- Nobody is in a call yet; the counters are anywhere, and up to `PIPESIZE` bytes may be waiting. -/
structure Init (s : St P) : Prop where
  nread : s.pi.nread < 2 ^ 32
  nwrite : s.pi.nwrite = (s.pi.nread + s.sent.length) % 2 ^ 32
  fits : s.sent.length ≤ PIPESIZE
  bytes : ∀ i (h : i < s.sent.length), s.sent[i] = (none, s.pi.data ((s.pi.nread + i) % PIPESIZE))
  got : s.got = []
  rets : s.rets = []
  pc : ∀ p, s.pc p = .user

/-- A pipe with both ends open, nothing in it and its counters at `c`. -/
def start (P : Type) (c : Nat) : St P where
  pi := ⟨fun _ => 0, c, c, true, true⟩
  pc := fun _ => .user
  killed := fun _ => false
  calls := fun _ => 0
  sent := []
  got := []
  rets := []

omit [DecidableEq P] in
theorem init_start {c : Nat} (h : c < 2 ^ 32) : Init (start P c) where
  nread := h
  nwrite := (Nat.mod_eq_of_lt h).symm
  fits := Nat.zero_le _
  bytes i hi := absurd hi (Nat.not_lt_zero i)
  got := rfl
  rets := rfl
  pc _ := rfl

end Xv6.Pipe
