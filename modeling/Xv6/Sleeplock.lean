import Mathlib.Logic.Function.Basic
import Xv6.Lib.Run
/-!
# Sleep locks

`kernel/sleeplock.c`. `lk->lk` is held from a test of `lk->locked` to the return or
the sleep after it, and over all of `releasesleep`, so these are single steps.
-/

namespace Xv6.Sleeplock

open Function Run

/-- Where a process is: asleep in `acquiresleep`, woken up there, or elsewhere. -/
inductive Pc where
  | out
  | asleep
  | woken
deriving DecidableEq

structure St where
  locked : Bool
  pid : Nat
  pc : Nat → Pc
  /-- Who has returned from `acquiresleep`, and not called `releasesleep` since. -/
  held : List Nat

/-- A round of the loop: the process sleeps, or it goes on and returns. -/
def acquiresleep (s : St) (p : Nat) : St :=
  if s.locked then { s with pc := update s.pc p .asleep }
  else ⟨true, p, update s.pc p .out, p :: s.held⟩

def wakeup (pc : Nat → Pc) (q : Nat) : Pc := if pc q = .asleep then .woken else pc q

def releasesleep (s : St) (p : Nat) : St := ⟨false, 0, wakeup s.pc, s.held.erase p⟩

def holdingsleep (s : St) (p : Nat) : Bool := s.locked && s.pid == p

inductive Step (s : St) (p : Nat) : St → Prop
  | acquire : s.pc p ≠ .asleep → Step s p (acquiresleep s p)
  -- `brelse` and `iunlock` panic otherwise
  | release : s.pc p = .out → holdingsleep s p = true → Step s p (releasesleep s p)
  | kill : s.pc p = .asleep → Step s p { s with pc := update s.pc p .woken }

structure Ok (s : St) : Prop where
  held : s.held = if s.locked then [s.pid] else []
  awake : s.locked = false → ∀ p, s.pc p ≠ .asleep

theorem Ok.step {s s' : St} {p : Nat} (h : Ok s) (hs : Step s p s') : Ok s' := by
  cases hs with
  | acquire =>
    cases hl : s.locked with
    | true => exact ⟨by simpa [acquiresleep, hl] using h.held, by simp [acquiresleep, hl]⟩
    | false => exact ⟨by simp [acquiresleep, hl, h.held], by simp [acquiresleep, hl]⟩
  | release _ hp =>
    obtain ⟨hl, rfl⟩ : s.locked = true ∧ s.pid = p := by simpa [holdingsleep] using hp
    refine ⟨by simp [releasesleep, h.held, hl], fun _ q => ?_⟩
    simp only [releasesleep, wakeup]
    split <;> simp_all
  | kill hp => exact ⟨h.held, fun hl => absurd hp (h.awake hl p)⟩

end Xv6.Sleeplock
