import Mathlib.Logic.Function.Basic
/-!
# A map kept in slots

A list of slots, each free or with a key and a value, as a finite map. An
insertion takes the first free slot, or a new one at the end. As long as no two
slots have one key, an insertion and a removal each change the map at one key.
-/

open List Function Option

namespace Xv6.SlotMap

variable {κ ν : Type} [DecidableEq κ] {l : List (Option (κ × ν))} {k : κ} {v : ν} {i : Nat}

def hasKey (k : κ) (x : Option (κ × ν)) : Bool := x.any fun p => decide (p.1 = k)

/-- The first slot with the key, or the number of slots. -/
def index (l : List (Option (κ × ν))) (k : κ) : Nat := l.findIdx (hasKey k)

/-- The value in the first slot with the key. -/
def lookup (l : List (Option (κ × ν))) (k : κ) : Option ν := (l[index l k]?.join).map Prod.snd

/-- No two slots have one key. -/
def Unique (l : List (Option (κ × ν))) : Prop :=
  ∀ (i j : Nat) (k : κ) (v w : ν), l[i]? = some (some (k, v)) → l[j]? = some (some (k, w)) → i = j

/-- The first free slot, or the number of slots. -/
def free (l : List (Option (κ × ν))) : Nat := l.findIdx Option.isNone

/-- Slot `i`, or a new slot at the end, gets `x`. -/
def put (l : List (Option (κ × ν))) (i : Nat) (x : Option (κ × ν)) : List (Option (κ × ν)) :=
  if i < l.length then l.set i x else l ++ [x]

omit [DecidableEq κ] in
theorem unique_of_forall
    (h : ∀ i < l.length, ∀ j < l.length, ∀ p ∈ l[i]?.join, ∀ q ∈ l[j]?.join, p.1 = q.1 → i = j) : Unique l := by
  intro i j k v w hi hj
  refine h i (List.getElem?_eq_some_iff.1 hi).1 j (List.getElem?_eq_some_iff.1 hj).1 (k, v) ?_ (k, w) ?_ rfl
  · rw [hi]
    rfl
  · rw [hj]
    rfl

theorem hasKey_iff {x : Option (κ × ν)} : hasKey k x = true ↔ ∃ v, x = some (k, v) := by
  cases x with
  | none => simp [hasKey]
  | some p =>
    obtain ⟨k', v⟩ := p
    simp only [hasKey, any_some, decide_eq_true_eq, Option.some.injEq, Prod.mk.injEq]
    constructor
    · rintro rfl
      exact ⟨v, rfl, rfl⟩
    · rintro ⟨_, rfl, _⟩
      rfl

theorem getElem?_index (h : l[i]? = some (some (k, v))) : ∃ w, l[index l k]? = some (some (k, w)) := by
  obtain ⟨hi, he⟩ := List.getElem?_eq_some_iff.1 h
  have hlt : index l k < l.length := findIdx_lt_length_of_exists
    ⟨_, mem_of_getElem? h, hasKey_iff.2 ⟨v, rfl⟩⟩
  obtain ⟨w, hw⟩ := hasKey_iff.1 (findIdx_getElem (p := hasKey k) (w := hlt))
  exact ⟨w, by rw [getElem?_eq_getElem hlt]; exact congrArg some hw⟩

theorem lookup_of_index (h : l[index l k]? = some (some (k, v))) : lookup l k = some v := by
  rw [lookup, h]
  rfl

theorem index_of_lookup (h : lookup l k = some v) : l[index l k]? = some (some (k, v)) := by
  obtain ⟨⟨k', v'⟩, hj, rfl⟩ := map_eq_some_iff.1 h
  have hx : l[index l k]? = some (some (k', v')) := by
    rw [join_eq_some_iff] at hj
    exact hj
  obtain ⟨hlt, he⟩ := List.getElem?_eq_some_iff.1 hx
  have hkey := findIdx_getElem (p := hasKey k) (w := hlt)
  obtain ⟨w, hw⟩ := hasKey_iff.1 hkey
  cases he.symm.trans hw
  exact hx

theorem Unique.lookup_iff (h : Unique l) : lookup l k = some v ↔ ∃ i : Nat, l[i]? = some (some (k, v)) := by
  constructor
  · exact fun he => ⟨_, index_of_lookup he⟩
  · rintro ⟨i, hi⟩
    obtain ⟨w, hw⟩ := getElem?_index hi
    rw [h i _ k v w hi hw] at hi
    exact lookup_of_index hi

theorem lookup_eq_none : lookup l k = none ↔ ∀ (i : Nat) (v : ν), l[i]? ≠ some (some (k, v)) := by
  constructor
  · intro h i v hi
    obtain ⟨w, hw⟩ := getElem?_index hi
    rw [lookup_of_index hw] at h
    cases h
  · intro h
    by_contra hne
    obtain ⟨v, hv⟩ := ne_none_iff_exists'.1 hne
    exact h _ v (index_of_lookup hv)

theorem index_of_none (h : lookup l k = none) : index l k = l.length := by
  by_contra hne
  have hlt : index l k < l.length := Nat.lt_of_le_of_ne findIdx_le_length hne
  obtain ⟨v, hv⟩ := hasKey_iff.1 (findIdx_getElem (p := hasKey k) (w := hlt))
  exact lookup_eq_none.1 h (index l k) v ((getElem?_eq_getElem hlt).trans (congrArg some hv))

omit [DecidableEq κ] in
theorem free_le (l : List (Option (κ × ν))) : free l ≤ l.length := findIdx_le_length

omit [DecidableEq κ] in
theorem getElem?_free (h : free l < l.length) : l[free l]? = some none := by
  have hnone := findIdx_getElem (p := Option.isNone) (w := h)
  rw [getElem?_eq_getElem h]
  exact congrArg some (isNone_iff_eq_none.1 hnone)

omit [DecidableEq κ] in
theorem getElem?_put (hi : i ≤ l.length) (x : Option (κ × ν)) (j : Nat) :
    (put l i x)[j]? = if j = i then some x else l[j]? := by
  unfold put
  split
  · next hlt =>
    rw [getElem?_set]
    by_cases hj : j = i
    · rw [if_pos hj.symm, if_pos hj, if_pos hlt]
    · rw [if_neg (Ne.symm hj), if_neg hj]
  · next hge =>
    have hlen : i = l.length := by omega
    rw [getElem?_append, hlen]
    by_cases hj : j = l.length
    · rw [if_pos hj, hj, if_neg (Nat.lt_irrefl _), Nat.sub_self]
      rfl
    · rw [if_neg hj]
      split
      · rfl
      · rw [getElem?_eq_none (by simp; omega), getElem?_eq_none (by omega)]

section Insert

theorem mem_insert (hk : lookup l k = none) {k' : κ} {w : ν} {j : Nat} :
    (put l (free l) (some (k, v)))[j]? = some (some (k', w)) ↔
      j = free l ∧ k' = k ∧ w = v ∨ k' ≠ k ∧ l[j]? = some (some (k', w)) := by
  rw [getElem?_put (free_le l)]
  by_cases hj : j = free l
  · rw [if_pos hj]
    constructor
    · intro h
      cases h
      exact .inl ⟨hj, rfl, rfl⟩
    · rintro (⟨-, rfl, rfl⟩ | ⟨-, h⟩)
      · rfl
      · rw [hj, getElem?_free (hj ▸ (List.getElem?_eq_some_iff.1 h).1)] at h
        cases h
  · rw [if_neg hj]
    constructor
    · intro h
      refine .inr ⟨fun he => ?_, h⟩
      exact lookup_eq_none.1 hk j w (he ▸ h)
    · rintro (⟨h, -⟩ | ⟨-, h⟩)
      · exact absurd h hj
      · exact h

theorem Unique.insert (h : Unique l) (hk : lookup l k = none) (v : ν) : Unique (put l (free l) (some (k, v))) := by
  intro i j k' w w' hi hj
  rcases (mem_insert hk).1 hi with ⟨hif, he, -⟩ | ⟨hne, hi⟩ <;> rcases (mem_insert hk).1 hj with ⟨hjf, he', -⟩ | ⟨hne', hj⟩
  · rw [hif, hjf]
  · exact absurd he hne'
  · exact absurd he' hne
  · exact h i j k' w w' hi hj

theorem Unique.lookup_insert (h : Unique l) (hk : lookup l k = none) (v : ν) :
    lookup (put l (free l) (some (k, v))) = update (lookup l) k (some v) := by
  funext k'
  ext w
  rw [(h.insert hk v).lookup_iff, update_apply]
  split
  · next he =>
    rw [Option.some.injEq]
    constructor
    · rintro ⟨j, hj⟩
      rcases (mem_insert hk).1 hj with ⟨-, -, rfl⟩ | ⟨hne, -⟩
      · rfl
      · exact absurd he hne
    · rintro rfl
      exact ⟨free l, (mem_insert hk).2 (.inl ⟨rfl, he, rfl⟩)⟩
  · next hne =>
    rw [h.lookup_iff]
    constructor
    · rintro ⟨j, hj⟩
      rcases (mem_insert hk).1 hj with ⟨-, he, -⟩ | ⟨-, hj⟩
      · exact absurd he hne
      · exact ⟨j, hj⟩
    · rintro ⟨j, hj⟩
      exact ⟨j, (mem_insert hk).2 (.inr ⟨hne, hj⟩)⟩

end Insert

section Remove

section
variable (h : Unique l) (hi : l[i]? = some (some (k, v)))
include h hi

omit [DecidableEq κ] in
theorem mem_remove {k' : κ} {w : ν} {j : Nat} :
    (put l i none)[j]? = some (some (k', w)) ↔ k' ≠ k ∧ l[j]? = some (some (k', w)) := by
  rw [getElem?_put (Nat.le_of_lt (List.getElem?_eq_some_iff.1 hi).1)]
  by_cases hj : j = i
  · rw [if_pos hj, hj, hi]
    constructor
    · intro he
      cases he
    · rintro ⟨hne, he⟩
      cases he
      exact absurd rfl hne
  · rw [if_neg hj]
    refine ⟨fun he => ⟨?_, he⟩, And.right⟩
    rintro rfl
    exact hj (h j i k' w v he hi)

omit [DecidableEq κ] in
theorem Unique.remove : Unique (put l i none) := by
  intro a b k' w w' ha hb
  exact h a b k' w w' ((mem_remove h hi).1 ha).2 ((mem_remove h hi).1 hb).2

theorem Unique.lookup_remove :
    lookup (put l i none) = update (lookup l) k none := by
  funext k'
  ext w
  rw [(h.remove hi).lookup_iff, update_apply]
  split
  · next he =>
    constructor
    · rintro ⟨j, hj⟩
      exact absurd he ((mem_remove h hi).1 hj).1
    · intro hw
      cases hw
  · next hne =>
    rw [h.lookup_iff]
    constructor
    · rintro ⟨j, hj⟩
      exact ⟨j, ((mem_remove h hi).1 hj).2⟩
    · rintro ⟨j, hj⟩
      exact ⟨j, (mem_remove h hi).2 ⟨hne, hj⟩⟩

end

end Remove

section Count
variable {κ ν : Type} [DecidableEq ν] {l : List (Option (κ × ν))} {k : κ} {v : ν} {i : Nat}

def hasValue (v : ν) (x : Option (κ × ν)) : Bool := x.any fun p => decide (p.2 = v)

/-- The number of slots with the value. -/
def count (l : List (Option (κ × ν))) (v : ν) : Nat := l.countP (hasValue v)

theorem hasValue_iff {x : Option (κ × ν)} : hasValue v x = true ↔ ∃ k, x = some (k, v) := by
  cases x with
  | none => simp [hasValue]
  | some p =>
    obtain ⟨k, w⟩ := p
    simp [hasValue, eq_comm]

theorem count_pos : 0 < count l v ↔ ∃ (i : Nat) (k : κ), l[i]? = some (some (k, v)) := by
  rw [count, countP_pos_iff]
  constructor
  · rintro ⟨x, hx, hv⟩
    obtain ⟨k, rfl⟩ := hasValue_iff.1 hv
    obtain ⟨i, hi⟩ := mem_iff_getElem?.1 hx
    exact ⟨i, k, hi⟩
  · rintro ⟨i, k, hi⟩
    exact ⟨_, mem_of_getElem? hi, hasValue_iff.2 ⟨k, rfl⟩⟩

theorem count_insert (l : List (Option (κ × ν))) (k : κ) (v : ν) :
    count (put l (free l) (some (k, v))) v = count l v + 1 := by
  have hv : hasValue v (some (k, v)) = true := hasValue_iff.2 ⟨k, rfl⟩
  unfold count put
  split
  · next hlt =>
    have hfree := getElem?_free hlt
    rw [getElem?_eq_getElem hlt, Option.some.injEq] at hfree
    have hnone : ¬ hasValue v (none : Option (κ × ν)) = true := fun h => by cases h
    rw [countP_set hlt, hfree, if_neg hnone, if_pos hv]
    rfl
  · rw [countP_append, countP_singleton, if_pos hv]

theorem count_remove (hi : l[i]? = some (some (k, v))) : count (put l i none) v + 1 = count l v := by
  obtain ⟨hlt, he⟩ := List.getElem?_eq_some_iff.1 hi
  have hv : hasValue v (some (k, v)) = true := hasValue_iff.2 ⟨k, rfl⟩
  have hnone : ¬ hasValue v (none : Option (κ × ν)) = true := fun h => by cases h
  have hpos : 0 < count l v := count_pos.2 ⟨i, k, hi⟩
  unfold count at hpos ⊢
  unfold put
  rw [if_pos hlt, countP_set hlt, he, if_pos hv, if_neg hnone]
  omega

end Count

end Xv6.SlotMap
