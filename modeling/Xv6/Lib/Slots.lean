import Mathlib.Algebra.BigOperators.Group.Finset.Basic
import Mathlib.Algebra.Order.BigOperators.Group.Finset
import Mathlib.Tactic.Abel
/-!
# Counting references from a table

A table `t` has `m` slots in each of `n` rows. `refs n m t x` is the number of
slots that hold `x`; setting a slot changes it by what the slot held and by what
it holds now.
-/

open Function

namespace Xv6.Slots

variable {X : Type} [DecidableEq X] {n m p i : Nat} {t : Nat → Nat → Option X} {x : X}

omit [DecidableEq X] in
theorem sum_update {M : Type} [AddCommMonoid M] (hp : p < n) (f : Nat → X) (v : X) (g : X → M) :
    (∑ q ∈ Finset.range n, g (update f p v q)) + g (f p) = (∑ q ∈ Finset.range n, g (f q)) + g v := by
  have hmem : p ∈ Finset.range n := Finset.mem_range.2 hp
  have hrest : ∑ q ∈ (Finset.range n).erase p, g (update f p v q) = ∑ q ∈ (Finset.range n).erase p, g (f q) :=
    Finset.sum_congr rfl fun q hq => by rw [update_of_ne (Finset.ne_of_mem_erase hq)]
  rw [← Finset.add_sum_erase _ _ hmem, ← Finset.add_sum_erase _ (fun q => g (f q)) hmem, hrest, update_self]
  abel

def refs (n m : Nat) (t : Nat → Nat → Option X) (x : X) : Nat :=
  ∑ q ∈ Finset.range n ×ˢ Finset.range m, if t q.1 q.2 = some x then 1 else 0

omit [DecidableEq X] in
def put (t : Nat → Nat → Option X) (p i : Nat) (v : Option X) : Nat → Nat → Option X :=
  Function.update t p (Function.update (t p) i v)

omit [DecidableEq X] in
theorem put_self (v : Option X) : put t p i v p i = v := by simp [put]

omit [DecidableEq X] in
theorem put_other {q j : Nat} (v : Option X) (h : (q, j) ≠ (p, i)) : put t p i v q j = t q j := by
  unfold put
  by_cases hq : q = p
  · subst hq
    have hj : j ≠ i := fun hj => h (by rw [hj])
    rw [update_self, update_of_ne hj]
  · rw [update_of_ne hq]

omit [DecidableEq X] in
theorem put_same {v : Option X} (h : t p i = v) : put t p i v = t := by
  unfold put
  rw [← h, update_eq_self, update_eq_self]

omit [DecidableEq X] in
theorem put_restore (v : Option X) (h : t p i = none) : put (put t p i v) p i none = t := by
  funext q j
  by_cases e : (q, j) = (p, i)
  · cases e
    rw [put_self, h]
  · rw [put_other _ e, put_other _ e]

omit [DecidableEq X] in
theorem put_comm {j : Nat} (v w : Option X) (h : i ≠ j) : put (put t p i v) p j w = put (put t p j w) p i v := by
  have hij : (p, i) ≠ (p, j) := fun e => h (congrArg Prod.snd e)
  funext q k
  by_cases e : (q, k) = (p, i)
  · cases e
    rw [put_other _ hij, put_self, put_self]
  · by_cases e' : (q, k) = (p, j)
    · cases e'
      rw [put_self, put_other _ e, put_self]
    · rw [put_other _ e', put_other _ e, put_other _ e, put_other _ e']

theorem refs_put (hp : p < n) (hi : i < m) (v : Option X) :
    refs n m (put t p i v) x + (if t p i = some x then 1 else 0) = refs n m t x + if v = some x then 1 else 0 := by
  have hmem : (p, i) ∈ Finset.range n ×ˢ Finset.range m := by simp [hp, hi]
  have hrest : ∑ q ∈ (Finset.range n ×ˢ Finset.range m).erase (p, i), (if put t p i v q.1 q.2 = some x then 1 else 0) =
      ∑ q ∈ (Finset.range n ×ˢ Finset.range m).erase (p, i), if t q.1 q.2 = some x then 1 else 0 := by
    refine Finset.sum_congr rfl fun q hq => ?_
    rw [put_other v (Finset.ne_of_mem_erase hq)]
  unfold refs
  rw [← Finset.add_sum_erase _ _ hmem, ← Finset.add_sum_erase _ (fun q => if t q.1 q.2 = some x then 1 else 0) hmem,
    hrest, put_self]
  dsimp only
  omega

theorem refs_pos (hp : p < n) (hi : i < m) (h : t p i = some x) : 0 < refs n m t x := by
  have := refs_put (t := t) (x := x) hp hi none
  rw [if_pos h, if_neg (by simp)] at this
  omega

theorem exists_slot (h : 0 < refs n m t x) : ∃ p i, t p i = some x := by
  obtain ⟨q, -, hq⟩ := Finset.exists_ne_zero_of_sum_ne_zero (Nat.ne_of_gt h)
  refine ⟨q.1, q.2, ?_⟩
  by_contra hne
  exact hq (if_neg hne)

end Xv6.Slots
