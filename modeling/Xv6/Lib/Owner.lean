import Mathlib.Logic.Function.Basic
/-!
# Numbered units and the places that refer to them

A place refers to a unit by its number, or to none by 0. `Own f used lo hi`
says that the places refer to units of `lo .. hi`, no two to the same one, and
that the units in use are exactly those referred to. Taking an unused unit for
an empty place keeps this, and so does giving a unit back.
-/

open Function

namespace Xv6.Owner

variable {ι : Type} [DecidableEq ι] {f : ι → Nat} {used used' : Nat → Prop} {lo hi b : Nat} {x y : ι}

structure Own (f : ι → Nat) (used : Nat → Prop) (lo hi : Nat) : Prop where
  range : ∀ x, f x ≠ 0 → lo ≤ f x ∧ f x < hi
  inj : ∀ x y, f x ≠ 0 → f x = f y → x = y
  exact : ∀ b, lo ≤ b → b < hi → (used b ↔ ∃ x, f x = b)

section
variable (h : Own f used lo hi)
include h

omit [DecidableEq ι] in
theorem Own.inUse (hx : f x ≠ 0) : used (f x) :=
  (h.exact _ (h.range x hx).1 (h.range x hx).2).2 ⟨x, rfl⟩

omit [DecidableEq ι] in
theorem Own.fresh (h1 : lo ≤ b) (h2 : b < hi) (hb : ¬ used b) (y : ι) : f y ≠ b :=
  fun hy => hb ((h.exact b h1 h2).2 ⟨y, hy⟩)

theorem Own.alloc (h0 : 0 < lo) (hx : f x = 0) (h1 : lo ≤ b) (h2 : b < hi) (hb : ¬ used b)
    (hu : ∀ c, lo ≤ c → c < hi → (used' c ↔ used c ∨ c = b)) : Own (update f x b) used' lo hi where
  range y hy := by
    by_cases hyx : y = x
    · subst hyx
      rw [update_self]
      exact ⟨h1, h2⟩
    · rw [update_of_ne hyx] at hy ⊢
      exact h.range y hy
  inj y z hy hyz := by
    by_cases hyx : y = x
    · subst hyx
      by_contra hzy
      rw [update_self, update_of_ne (Ne.symm hzy)] at hyz
      exact h.fresh h1 h2 hb z hyz.symm
    · rw [update_of_ne hyx] at hy hyz
      by_cases hzx : z = x
      · subst hzx
        rw [update_self] at hyz
        exact absurd hyz (h.fresh h1 h2 hb y)
      · rw [update_of_ne hzx] at hyz
        exact h.inj y z hy hyz
  exact c hc1 hc2 := by
    rw [hu c hc1 hc2, h.exact c hc1 hc2]
    constructor
    · rintro (⟨y, hy⟩ | rfl)
      · refine ⟨y, ?_⟩
        -- The empty place refers to 0, which is no unit.
        have hyx : y ≠ x := fun e => by
          rw [e, hx] at hy
          omega
        rwa [update_of_ne hyx]
      · exact ⟨x, update_self ..⟩
    · rintro ⟨y, hy⟩
      by_cases hyx : y = x
      · subst hyx
        rw [update_self] at hy
        exact .inr hy.symm
      · rw [update_of_ne hyx] at hy
        exact .inl ⟨y, hy⟩

theorem Own.free (h0 : 0 < lo) (hx : f x ≠ 0)
    (hu : ∀ c, lo ≤ c → c < hi → (used' c ↔ used c ∧ c ≠ f x)) : Own (update f x 0) used' lo hi where
  range y hy := by
    by_cases hyx : y = x
    · subst hyx
      rw [update_self] at hy
      exact absurd rfl hy
    · rw [update_of_ne hyx] at hy ⊢
      exact h.range y hy
  inj y z hy hyz := by
    by_cases hyx : y = x
    · subst hyx
      rw [update_self] at hy
      exact absurd rfl hy
    · rw [update_of_ne hyx] at hy hyz
      by_cases hzx : z = x
      · subst hzx
        rw [update_self] at hyz
        exact absurd hyz hy
      · rw [update_of_ne hzx] at hyz
        exact h.inj y z hy hyz
  exact c hc1 hc2 := by
    rw [hu c hc1 hc2, h.exact c hc1 hc2]
    constructor
    · rintro ⟨⟨y, hy⟩, hc⟩
      refine ⟨y, ?_⟩
      have hyx : y ≠ x := fun e => hc (e ▸ hy).symm
      rwa [update_of_ne hyx]
    · rintro ⟨y, hy⟩
      by_cases hyx : y = x
      · subst hyx
        rw [update_self] at hy
        omega
      · rw [update_of_ne hyx] at hy
        refine ⟨⟨y, hy⟩, fun hc => hyx (h.inj y x ?_ (hy.trans hc))⟩
        rw [hy]
        omega

omit [DecidableEq ι] in
theorem Own.congr (hu : ∀ c, lo ≤ c → c < hi → (used' c ↔ used c)) : Own f used' lo hi :=
  { h with exact := fun c h1 h2 => (hu c h1 h2).trans (h.exact c h1 h2) }

end

end Xv6.Owner
