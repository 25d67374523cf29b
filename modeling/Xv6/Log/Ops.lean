import Mathlib.Data.Finset.Card
import Xv6.Lib.Run
import Xv6.Param
/-!
# Operations on the log, interleaved

`begin_op`, `log_write`, `end_op` and `commit` of `kernel/log.c`, for any
number of processes. The code between `acquire(&log.lock)` and `release` is one
step; the tests of `log_write` and the body of `commit` run without the lock,
so each of their accesses to `log` is a step of its own.

The fields from `cur` on are not in the code: they record which operation
logged which block, which operations have called `end_op`, and what each
`commit` wrote. No step looks at them.
-/

namespace Xv6.Ops

inductive Pc where
  /-- Outside the file system. -/
  | user
  /-- In `begin_op`, about to test under the lock. -/
  | beginOp
  /-- In `begin_op`, `SLEEPING` on `&log`. -/
  | asleep
  /-- Between `begin_op` and `end_op`. -/
  | op
  /-- In `log_write` of block `b`, past the test of `lh.n`. -/
  | sized (b : Nat)
  /-- In `log_write` of block `b`, past both tests. -/
  | logging (b : Nat)
  /-- At `if (log.lh.n > 0)` of `commit`, called by `end_op`. -/
  | commit
  /-- In the loop of `write_log`. -/
  | writeLog (tail : Nat)
  /-- At the `write_head` that commits. -/
  | writeHead
  /-- In the loop of `install_trans`. -/
  | install (tail : Nat)
  /-- At `log.lh.n = 0`. -/
  | clear
  /-- At the `write_head` that erases the transaction. -/
  | erase
  /-- `commit` has returned to `end_op`. -/
  | done
  deriving DecidableEq

def Pc.InOp : Pc → Prop
  | .op | .sized _ | .logging _ => True
  | _ => False

/-- In `commit`, or back from it with `log.committing` still set. -/
def Pc.InCommit : Pc → Prop
  | .commit | .writeLog _ | .writeHead | .install _ | .clear | .erase | .done => True
  | _ => False

/-- The panics of `kernel/log.c` that these functions can reach. -/
inductive Panic where
  /-- "too big a transaction" -/
  | tooBig
  /-- "log_write outside of trans" -/
  | outsideTrans
  /-- "log.committing" -/
  | committing
  deriving DecidableEq

/-- One `begin_op` .. `end_op` section and the blocks it logged, newest first. -/
structure Op where
  id : Nat
  blocks : List Nat
  deriving DecidableEq

/-- What one call of `commit` did: for which operations, the home blocks
`write_log` copied, the block list `write_head` stored, the blocks
`install_trans` wrote. -/
structure Commit where
  ops : List Op
  copied : List Nat
  head : List Nat
  installed : List Nat

structure St (P : Type) where
  outstanding : Int
  committing : Bool
  /-- `log.lh.block[0 .. log.lh.n)` -/
  lh : List Nat
  pc : P → Pc
  panic : Option Panic
  /-- The operation each process is in. -/
  cur : P → Op
  /-- The id of the next operation. -/
  next : Nat
  /-- Every operation that has called `end_op`. -/
  finished : List Op
  /-- Those of them no commit has started for. -/
  ended : List Op
  /-- The commit that runs, if one does. -/
  now : Commit
  /-- The commits that have finished. -/
  commits : List Commit

/-- The log after boot, every process outside the file system. -/
def init (P : Type) : St P where
  outstanding := 0
  committing := false
  lh := []
  pc := fun _ => .user
  panic := none
  cur := fun _ => ⟨0, []⟩
  next := 0
  finished := []
  ended := []
  now := ⟨[], [], [], []⟩
  commits := []

/-- The critical section of `log_write`: find `b` or the end of the list, store
`b` there, and count it if it is new. -/
def absorb (lh : List Nat) (b : Nat) : List Nat :=
  let i := lh.idxOf b
  if i = lh.length then lh ++ [b] else lh.set i b

def wakeup {P : Type} (pc : P → Pc) : P → Pc := fun p => if pc p = .asleep then .beginOp else pc p

inductive Event (P : Type) where
  /-- `p` calls `begin_op`. -/
  | call (p : P)
  /-- `begin_op` goes to sleep. -/
  | sleep (p : P)
  /-- A sleeping process is made runnable by something else, such as `kill`. -/
  | kick (p : P)
  /-- `begin_op` returns. -/
  | begun (p : P)
  /-- `log_write` of block `b` is called and tests `lh.n`. -/
  | size (p : P) (b : Nat)
  /-- `log_write` tests `outstanding`. -/
  | trans (p : P)
  /-- `log_write` records its block. -/
  | logged (p : P)
  /-- The critical section of `end_op`. -/
  | ended (p : P)
  /-- A step of `commit`. -/
  | commit (p : P)
  /-- `end_op` clears `log.committing`. -/
  | cleared (p : P)

variable {P : Type} [DecidableEq P]

abbrev St.goto (s : St P) (p : P) (c : Pc) : P → Pc := Function.update s.pc p c

/-- The steps of the system; `size` is `log.size`. -/
inductive Step (size : Int) : St P → Event P → St P → Prop
  | call {s p} : s.panic = none → s.pc p = .user → Step size s (.call p) { s with pc := s.goto p .beginOp }
  | sleepCommitting {s p} : s.panic = none → s.pc p = .beginOp → s.committing = true →
      Step size s (.sleep p) { s with pc := s.goto p .asleep }
  | sleepSpace {s p} : s.panic = none → s.pc p = .beginOp → s.committing = false →
      (s.lh.length : Int) + (s.outstanding + 1) * MAXOPBLOCKS > LOGSIZE →
      Step size s (.sleep p) { s with pc := s.goto p .asleep }
  | kick {s p} : s.panic = none → s.pc p = .asleep → Step size s (.kick p) { s with pc := s.goto p .beginOp }
  | begun {s p} : s.panic = none → s.pc p = .beginOp → s.committing = false →
      ¬ (s.lh.length : Int) + (s.outstanding + 1) * MAXOPBLOCKS > LOGSIZE →
      Step size s (.begun p) { s with
        outstanding := s.outstanding + 1
        pc := s.goto p .op
        cur := Function.update s.cur p ⟨s.next, []⟩
        next := s.next + 1 }
  | tooBig {s p b} : s.panic = none → s.pc p = .op → (s.lh.length ≥ LOGSIZE ∨ (s.lh.length : Int) ≥ size - 1) →
      Step size s (.size p b) { s with panic := some .tooBig }
  | size {s p b} : s.panic = none → s.pc p = .op → ¬ (s.lh.length ≥ LOGSIZE ∨ (s.lh.length : Int) ≥ size - 1) →
      Step size s (.size p b) { s with pc := s.goto p (.sized b) }
  | outsideTrans {s p b} : s.panic = none → s.pc p = .sized b → s.outstanding < 1 →
      Step size s (.trans p) { s with panic := some .outsideTrans }
  | trans {s p b} : s.panic = none → s.pc p = .sized b → ¬ s.outstanding < 1 →
      Step size s (.trans p) { s with pc := s.goto p (.logging b) }
  | logged {s p b} : s.panic = none → s.pc p = .logging b →
      Step size s (.logged p) { s with
        lh := absorb s.lh b
        pc := s.goto p .op
        cur := Function.update s.cur p ⟨(s.cur p).id, b :: (s.cur p).blocks⟩ }
  | endPanic {s p} : s.panic = none → s.pc p = .op → s.committing = true →
      Step size s (.ended p) { s with outstanding := s.outstanding - 1, panic := some .committing }
  | ended {s p} : s.panic = none → s.pc p = .op → s.committing = false → s.outstanding - 1 ≠ 0 →
      Step size s (.ended p) { s with
        outstanding := s.outstanding - 1
        pc := wakeup (s.goto p .user)
        finished := s.finished ++ [s.cur p]
        ended := s.ended ++ [s.cur p] }
  | endLast {s p} : s.panic = none → s.pc p = .op → s.committing = false → s.outstanding - 1 = 0 →
      Step size s (.ended p) { s with
        outstanding := s.outstanding - 1
        committing := true
        pc := s.goto p .commit
        finished := s.finished ++ [s.cur p]
        ended := []
        now := ⟨s.ended ++ [s.cur p], [], [], []⟩ }
  | commitNone {s p} : s.panic = none → s.pc p = .commit → ¬ s.lh.length > 0 →
      Step size s (.commit p) { s with pc := s.goto p .done }
  | commitSome {s p} : s.panic = none → s.pc p = .commit → s.lh.length > 0 →
      Step size s (.commit p) { s with pc := s.goto p (.writeLog 0) }
  | writeLog {s p tail} (h : tail < s.lh.length) : s.panic = none → s.pc p = .writeLog tail →
      Step size s (.commit p) { s with
        pc := s.goto p (.writeLog (tail + 1))
        now := { s.now with copied := s.now.copied ++ [s.lh[tail]] } }
  | writeLogEnd {s p tail} : s.panic = none → s.pc p = .writeLog tail → ¬ tail < s.lh.length →
      Step size s (.commit p) { s with pc := s.goto p .writeHead }
  | writeHead {s p} : s.panic = none → s.pc p = .writeHead →
      Step size s (.commit p) { s with pc := s.goto p (.install 0), now := { s.now with head := s.lh } }
  | install {s p tail} (h : tail < s.lh.length) : s.panic = none → s.pc p = .install tail →
      Step size s (.commit p) { s with
        pc := s.goto p (.install (tail + 1))
        now := { s.now with installed := s.now.installed ++ [s.lh[tail]] } }
  | installEnd {s p tail} : s.panic = none → s.pc p = .install tail → ¬ tail < s.lh.length →
      Step size s (.commit p) { s with pc := s.goto p .clear }
  | clear {s p} : s.panic = none → s.pc p = .clear →
      Step size s (.commit p) { s with pc := s.goto p .erase, lh := [] }
  | erase {s p} : s.panic = none → s.pc p = .erase → Step size s (.commit p) { s with pc := s.goto p .done }
  | cleared {s p} : s.panic = none → s.pc p = .done →
      Step size s (.cleared p) { s with
        committing := false
        pc := wakeup (s.goto p .user)
        commits := s.commits ++ [s.now] }

def Reachable (size : Int) (s : St P) : Prop := Run.Reach (· = init P) (Step size) s

end Xv6.Ops
