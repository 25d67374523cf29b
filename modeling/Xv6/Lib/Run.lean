import Mathlib.Init
/-!
# Runs of a labelled transition system

`Reach init step s`: some run that starts in a state of `init` is now in `s`.
`When step ok` keeps the steps that meet a condition on the state they start
from and on their label, so `Reach init (When step ok)` is about the runs all
of whose steps meet it.
-/

namespace Xv6.Run

variable {S E : Type}

inductive Reach (init : S → Prop) (step : S → E → S → Prop) : S → Prop
  | init {s} : init s → Reach init step s
  | step {s e s'} : Reach init step s → step s e s' → Reach init step s'

def When (step : S → E → S → Prop) (ok : S → E → Prop) (s : S) (e : E) (s' : S) : Prop := ok s e ∧ step s e s'

variable {init : S → Prop} {step : S → E → S → Prop}

/-- What holds at the start and is kept by every step holds in every state reached. -/
theorem Reach.inv (I : S → Prop) (h0 : ∀ s, init s → I s) (hs : ∀ s e s', I s → step s e s' → I s') {s : S}
    (h : Reach init step s) : I s := by
  induction h with
  | init hi => exact h0 _ hi
  | step _ hst ih => exact hs _ _ _ ih hst

theorem Reach.mono {step' : S → E → S → Prop} (hm : ∀ s e s', step s e s' → step' s e s') {s : S}
    (h : Reach init step s) : Reach init step' s := by
  induction h with
  | init hi => exact .init hi
  | step _ hst ih => exact .step ih (hm _ _ _ hst)

theorem Reach.of_when {ok : S → E → Prop} {s : S} (h : Reach init (When step ok) s) : Reach init step s :=
  h.mono fun _ _ _ hst => hst.2

theorem Reach.next {ok : S → E → Prop} {s s' : S} {e : E} (h : Reach init (When step ok) s) (hs : step s e s')
    (hok : ok s e) : Reach init (When step ok) s' :=
  .step h ⟨hok, hs⟩

/-! ## Enough rounds -/

/-- A function with a bound `k` on its rounds, each of which leaves less to do, has one result for every bound that is
enough. -/
theorem rounds_enough {α β : Type} {f : Nat → α → β} (size : α → Nat) (h0 : ∀ k x, size x = 0 → f k x = f 0 x)
    (hs : ∀ k k' x, (∀ y, size y < size x → f k y = f k' y) → f (k + 1) x = f (k' + 1) x) (n : Nat) :
    ∀ (x : α) {k k' : Nat}, size x ≤ n → size x ≤ k → size x ≤ k' → f k x = f k' x := by
  induction n with
  | zero =>
    intro x k k' hn _ _
    rw [h0 k x (Nat.le_zero.1 hn), h0 k' x (Nat.le_zero.1 hn)]
  | succ n ih =>
    intro x k k' hn hk hk'
    by_cases hz : size x = 0
    · rw [h0 k x hz, h0 k' x hz]
    · obtain ⟨k, rfl⟩ := Nat.exists_eq_succ_of_ne_zero (show k ≠ 0 by omega)
      obtain ⟨k', rfl⟩ := Nat.exists_eq_succ_of_ne_zero (show k' ≠ 0 by omega)
      exact hs k k' x fun y hy => ih y (by omega) (by omega) (by omega)

end Xv6.Run
