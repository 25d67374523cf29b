import Mathlib.Logic.Function.Basic
/-!
# Forests with one keeper

Nodes are free, live or dead, and point to a parent. A free node becomes a live
child of a live node; a live node that has no child dies; a dead one becomes
free; and a node's children may be handed to the keeper, who never dies. Under
these operations every node in use has a live parent.
-/

open Function

namespace Xv6.Forest

inductive Kind where
  | free | live | dead
  deriving DecidableEq

structure Node (α : Type) where
  parent : Option α
  kind : Kind

variable {α : Type} [DecidableEq α] {r : α} {t t' : α → Node α}

/-- One change of the forest with keeper `r`. -/
inductive Op (r : α) (t : α → Node α) : (α → Node α) → Prop
  | born {i p : α} : (t i).kind = .free → (t p).kind = .live → Op r t (update t i ⟨some p, .live⟩)
  | adopt {i p : α} : (t i).parent = some p → Op r t (update t i ⟨some r, (t i).kind⟩)
  | die {p : α} : p ≠ r → (t p).kind = .live → (∀ j, (t j).parent ≠ some p) →
      Op r t (update t p ⟨(t p).parent, .dead⟩)
  | reap {i : α} : (t i).kind ≠ .live → Op r t (update t i ⟨none, .free⟩)

structure Rooted (r : α) (t : α → Node α) : Prop where
  free : ∀ i, (t i).kind = .free → (t i).parent = none
  root : t r = ⟨none, .live⟩
  kin : ∀ i, i ≠ r → (t i).kind ≠ .free → ∃ q, (t i).parent = some q ∧ (t q).kind = .live

namespace Rooted

omit [DecidableEq α] in
theorem live (h : Rooted r t) {i q : α} (hp : (t i).parent = some q) : (t q).kind = .live := by
  have hr : i ≠ r := by
    rintro rfl
    rw [h.root] at hp
    cases hp
  have hf : (t i).kind ≠ .free := fun hf => by simp [h.free i hf] at hp
  obtain ⟨q', hq', hl⟩ := h.kin i hr hf
  cases hp.symm.trans hq'
  exact hl

theorem update (h : Rooted r t) {i : α} {x : Node α} (hi : i ≠ r) (hx : x.kind = .free → x.parent = none)
    (hkin : x.kind ≠ .free → ∃ q, q ≠ i ∧ x.parent = some q ∧ (t q).kind = .live)
    (hlive : x.kind = .live ∨ ∀ j, (t j).parent ≠ some i) : Rooted r (update t i x) where
  free j := by
    rw [update_apply]
    split
    · exact hx
    · exact h.free j
  root := by rw [update_of_ne hi.symm, h.root]
  kin j hj := by
    rw [update_apply]
    split
    · intro hf
      obtain ⟨q, hq, hp, hl⟩ := hkin hf
      exact ⟨q, hp, by rw [update_of_ne hq]; exact hl⟩
    · intro hf
      obtain ⟨q, hp, hl⟩ := h.kin j hj hf
      refine ⟨q, hp, ?_⟩
      rw [update_apply]
      split
      · next hq =>
        rcases hlive with hlive | hlive
        · exact hlive
        · exact absurd (hq ▸ hp) (hlive j)
      · exact hl

theorem step (h : Rooted r t) (ho : Op r t t') : Rooted r t' := by
  cases ho with
  | @born i p hf hp =>
    have hip : p ≠ i := by
      rintro rfl
      simp [hf] at hp
    have hir : i ≠ r := by
      rintro rfl
      simp [h.root] at hf
    exact h.update hir (fun hk => by cases hk) (fun _ => ⟨p, hip, rfl, hp⟩) (.inl rfl)
  | @adopt i p hp =>
    have hir : i ≠ r := by
      rintro rfl
      simp [h.root] at hp
    have hf : (t i).kind ≠ .free := fun hf => by simp [h.free i hf] at hp
    refine h.update hir (fun hk => absurd hk hf) (fun _ => ⟨r, hir.symm, rfl, by rw [h.root]⟩) ?_
    by_cases hl : (t i).kind = .live
    · exact .inl hl
    · exact .inr fun j hj => hl (h.live hj)
  | @die p hpr hl hno =>
    refine h.update hpr (fun hk => by cases hk) (fun _ => ?_) (.inr hno)
    obtain ⟨q, hq, hql⟩ := h.kin p hpr (by simp [hl])
    have hqp : q ≠ p := by
      rintro rfl
      exact hno q hq
    exact ⟨q, hqp, hq, hql⟩
  | @reap i hk =>
    have hir : i ≠ r := by
      rintro rfl
      simp [h.root] at hk
    exact h.update hir (fun _ => rfl) (fun hn => absurd rfl hn) (.inr fun j hj => hk (h.live hj))

end Rooted

end Xv6.Forest
