import Mathlib.Data.List.Nodup
import Mathlib.Data.List.Pairwise
import Mathlib.Data.List.Perm.Basic
/-!
# Radix trees in memory

A tree of depth `d` over nodes that are tables of words. `m r i` is word `i` of
node `r`, and `next w` is the node a word of an inner table points to, if any.
`nodes` lists the tables of a tree and `find` follows a path of indices `ix` to a
bottom table. Both read the inner tables only, so storing into a bottom table
changes neither (`nodes_congr`, `find_congr`), and hanging an empty table into
a free word adds exactly that table (`nodes_empty`, `nodes_below`).
-/

open List Option

namespace Xv6.Radix

variable (next : Nat → Option Nat) (F : Nat)

/-- The tables of the tree of depth `d` at `r`. -/
def nodes (m : Nat → Nat → Nat) : Nat → Nat → List Nat
  | 0, r => [r]
  | d + 1, r => r :: (List.range F).flatMap fun i => ((next (m r i)).map (nodes m d)).getD []

/-- The tables of the tree except the bottom ones. -/
def inner (m : Nat → Nat → Nat) : Nat → Nat → List Nat
  | 0, _ => []
  | d + 1, r => r :: (List.range F).flatMap fun i => ((next (m r i)).map (inner m d)).getD []

/-- The bottom table on the path `ix`, where `ix d` is the index at depth `d`. -/
def find (m : Nat → Nat → Nat) (ix : Nat → Nat) : Nat → Nat → Option Nat
  | 0, r => some r
  | d + 1, r => (next (m r (ix (d + 1)))).bind (find m ix d)

variable {next F} {m m' : Nat → Nat → Nat} {ix : Nat → Nat}

theorem mem_nodes_self (d r : Nat) : r ∈ nodes next F m d r := by
  cases d <;> simp [nodes]

theorem mem_nodes_succ {d r x : Nat} :
    x ∈ nodes next F m (d + 1) r ↔ x = r ∨ ∃ i < F, ∃ c, next (m r i) = some c ∧ x ∈ nodes next F m d c := by
  simp only [nodes, mem_cons, mem_flatMap, mem_range]
  refine or_congr_right (exists_congr fun i => and_congr_right fun _ => ?_)
  cases next (m r i) <;> simp

theorem mem_inner_succ {d r x : Nat} :
    x ∈ inner next F m (d + 1) r ↔ x = r ∨ ∃ i < F, ∃ c, next (m r i) = some c ∧ x ∈ inner next F m d c := by
  simp only [inner, mem_cons, mem_flatMap, mem_range]
  refine or_congr_right (exists_congr fun i => and_congr_right fun _ => ?_)
  cases next (m r i) <;> simp

theorem find_mem (hix : ∀ d, ix d < F) : ∀ {d r n : Nat}, find next m ix d r = some n → n ∈ nodes next F m d r
  | 0, r, n, h => by
    cases h
    exact mem_nodes_self 0 r
  | d + 1, r, n, h => by
    obtain ⟨c, hc, hn⟩ := bind_eq_some_iff.1 h
    exact mem_nodes_succ.2 (.inr ⟨ix (d + 1), hix _, c, hc, find_mem hix hn⟩)

theorem nodes_congr : ∀ {d r : Nat}, (∀ n ∈ inner next F m d r, ∀ i < F, m' n i = m n i) →
    nodes next F m' d r = nodes next F m d r
  | 0, _, _ => rfl
  | d + 1, r, h => by
    have hr : ∀ i < F, m' r i = m r i := h r (mem_inner_succ.2 (.inl rfl))
    simp only [nodes, List.cons.injEq, true_and]
    refine flatMap_congr fun i hi => ?_
    have hi := mem_range.1 hi
    rw [hr i hi]
    cases hc : next (m r i) with
    | none => rfl
    | some c =>
      exact nodes_congr (d := d) (r := c) fun n hn => h n (mem_inner_succ.2 (.inr ⟨i, hi, c, hc, hn⟩))

theorem inner_congr : ∀ {d r : Nat}, (∀ n ∈ inner next F m d r, ∀ i < F, m' n i = m n i) →
    inner next F m' d r = inner next F m d r
  | 0, _, _ => rfl
  | d + 1, r, h => by
    have hr : ∀ i < F, m' r i = m r i := h r (mem_inner_succ.2 (.inl rfl))
    simp only [inner, List.cons.injEq, true_and]
    refine flatMap_congr fun i hi => ?_
    have hi := mem_range.1 hi
    rw [hr i hi]
    cases hc : next (m r i) with
    | none => rfl
    | some c =>
      exact inner_congr (d := d) (r := c) fun n hn => h n (mem_inner_succ.2 (.inr ⟨i, hi, c, hc, hn⟩))

theorem find_congr (hix : ∀ d, ix d < F) : ∀ {d r : Nat}, (∀ n ∈ inner next F m d r, ∀ i < F, m' n i = m n i) →
    find next m' ix d r = find next m ix d r
  | 0, _, _ => rfl
  | d + 1, r, h => by
    have hr := h r (mem_inner_succ.2 (.inl rfl)) _ (hix (d + 1))
    simp only [find, hr]
    cases hc : next (m r (ix (d + 1))) with
    | none => rfl
    | some c =>
      exact find_congr hix (d := d) (r := c) fun n hn =>
        h n (mem_inner_succ.2 (.inr ⟨_, hix _, c, hc, hn⟩))

theorem find_ix {ix' : Nat → Nat} : ∀ {d r : Nat}, (∀ k, 0 < k → k ≤ d → ix k = ix' k) →
    find next m ix d r = find next m ix' d r
  | 0, _, _ => rfl
  | d + 1, r, h => by
    simp only [find, h (d + 1) (Nat.succ_pos d) (Nat.le_refl _)]
    cases next (m r (ix' (d + 1))) with
    | none => rfl
    | some c => exact find_ix fun k h0 hk => h k h0 (Nat.le_succ_of_le hk)

theorem inner_sub_nodes : ∀ {d r x : Nat}, x ∈ inner next F m d r → x ∈ nodes next F m d r
  | 0, _, _, h => by cases h
  | d + 1, r, x, h => by
    rcases mem_inner_succ.1 h with rfl | ⟨i, hi, c, hc, hx⟩
    · exact mem_nodes_self ..
    · exact mem_nodes_succ.2 (.inr ⟨i, hi, c, hc, inner_sub_nodes hx⟩)

/-! ## Distinct tables -/

theorem nodup_child {d r i c : Nat} (hn : (nodes next F m (d + 1) r).Nodup) (hi : i < F) (hc : next (m r i) = some c) :
    (nodes next F m d c).Nodup ∧ r ∉ nodes next F m d c := by
  obtain ⟨hr, hn⟩ := nodup_cons.1 hn
  have hsub := (nodup_flatMap.1 hn).1 i (mem_range.2 hi)
  rw [hc] at hsub
  exact ⟨hsub, fun hm => hr (mem_flatMap.2 ⟨i, mem_range.2 hi, by rw [hc]; exact hm⟩)⟩

theorem child_disjoint {d r i j c c' x : Nat} (hn : (nodes next F m (d + 1) r).Nodup) (hi : i < F) (hj : j < F)
    (hc : next (m r i) = some c) (hc' : next (m r j) = some c') (hx : x ∈ nodes next F m d c)
    (hx' : x ∈ nodes next F m d c') : i = j := by
  by_contra hne
  have hp := (nodup_flatMap.1 (nodup_cons.1 hn).2).2
  have hs : Std.Symm (Function.onFun List.Disjoint fun i => ((next (m r i)).map (nodes next F m d)).getD []) :=
    ⟨fun _ _ h _ ha hb => h hb ha⟩
  have hd := hp.forall (mem_range.2 hi) (mem_range.2 hj) hne
  simp only [Function.onFun, hc, hc', map_some, getD_some] at hd
  exact hd hx hx'

theorem find_inj {ix' : Nat → Nat} (hix : ∀ d, ix d < F) (hix' : ∀ d, ix' d < F) : ∀ {d r n : Nat},
    (nodes next F m d r).Nodup → find next m ix d r = some n → find next m ix' d r = some n →
      ∀ k, 0 < k → k ≤ d → ix k = ix' k
  | 0, _, _, _, _, _, k, h0, hk => by omega
  | d + 1, r, n, hn, h, h', k, h0, hk => by
    obtain ⟨c, hc, hf⟩ := bind_eq_some_iff.1 h
    obtain ⟨c', hc', hf'⟩ := bind_eq_some_iff.1 h'
    have he := child_disjoint hn (hix _) (hix' _) hc hc' (find_mem hix hf) (find_mem hix' hf')
    rcases Nat.lt_or_eq_of_le hk with hlt | rfl
    · rw [← he, hc] at hc'
      cases hc'
      exact find_inj hix hix' (nodup_child hn (hix _) hc).1 hf hf' k h0 (by omega)
    · exact he

theorem find_not_inner (hix : ∀ d, ix d < F) : ∀ {d r n : Nat}, (nodes next F m d r).Nodup →
    find next m ix d r = some n → n ∉ inner next F m d r
  | 0, _, _, _, _ => by simp [inner]
  | d + 1, r, n, hn, h => by
    obtain ⟨c, hc, hf⟩ := bind_eq_some_iff.1 h
    obtain ⟨hnc, hr⟩ := nodup_child hn (hix _) hc
    have hnm := find_mem hix hf
    intro hm
    rcases mem_inner_succ.1 hm with rfl | ⟨i, hi, c', hc', hx⟩
    · exact hr hnm
    · have he := child_disjoint hn hi (hix _) hc' hc (inner_sub_nodes hx) hnm
      rw [he, hc] at hc'
      cases hc'
      exact find_not_inner hix hnc hf hx

/-! ## Growth -/

theorem flatMap_perm_append {f f' : Nat → List Nat} {i : Nat} {new : List Nat} : ∀ {l : List Nat}, l.Nodup → i ∈ l →
    (∀ j ∈ l, j ≠ i → f' j = f j) → (f' i).Perm (new ++ f i) → (l.flatMap f').Perm (new ++ l.flatMap f)
  | [], _, hi, _, _ => by cases hi
  | j :: l, hn, hi, ho, hp => by
    obtain ⟨hj, hn⟩ := nodup_cons.1 hn
    simp only [flatMap_cons]
    by_cases hji : j = i
    · subst hji
      have hrest : l.flatMap f' = l.flatMap f :=
        flatMap_congr fun k hk => ho k (mem_cons_of_mem _ hk) fun he => hj (he ▸ hk)
      rw [hrest, ← append_assoc]
      exact hp.append_right _
    · have hil : i ∈ l := (mem_cons.1 hi).resolve_left fun he => hji he.symm
      rw [ho j (by simp) hji]
      have ih := flatMap_perm_append hn hil (fun k hk => ho k (mem_cons_of_mem _ hk)) hp
      refine (ih.append_left (f j)).trans ?_
      rw [← append_assoc, ← append_assoc]
      exact perm_append_comm.append_right _

theorem nodes_empty {d c : Nat} (h : ∀ i < F, next (m c i) = none) : nodes next F m d c = [c] := by
  cases d with
  | zero => rfl
  | succ d =>
    simp only [nodes, List.cons.injEq, true_and, flatMap_eq_nil_iff, mem_range]
    intro i hi
    rw [h i hi]
    rfl

theorem nodes_first {d r c : Nat} (hF : 0 < F) (hc : next (m r 0) = some c)
    (hn : ∀ i, 0 < i → i < F → next (m r i) = none) : nodes next F m (d + 1) r = r :: nodes next F m d c := by
  obtain ⟨k, rfl⟩ := Nat.exists_eq_succ_of_ne_zero (Nat.ne_of_gt hF)
  have hrest : ((List.range k).map Nat.succ).flatMap
      (fun i => ((next (m r i)).map (nodes next (k + 1) m d)).getD []) = [] := by
    refine flatMap_eq_nil_iff.2 fun i hi => ?_
    obtain ⟨j, hj, rfl⟩ := mem_map.1 hi
    rw [hn _ (Nat.succ_pos j) (Nat.succ_lt_succ (mem_range.1 hj)), map_none, getD_none]
  rw [nodes, range_succ_eq_map, flatMap_cons, hrest, hc, map_some, getD_some, append_nil]

theorem nodes_below {d r i : Nat} {new : List Nat} (hi : i < F)
    (ho : ∀ j < F, j ≠ i → ((next (m' r j)).map (nodes next F m' d)).getD [] =
      ((next (m r j)).map (nodes next F m d)).getD [])
    (hx : (((next (m' r i)).map (nodes next F m' d)).getD []).Perm
      (new ++ ((next (m r i)).map (nodes next F m d)).getD [])) :
    (nodes next F m' (d + 1) r).Perm (new ++ nodes next F m (d + 1) r) := by
  have hp := flatMap_perm_append (nodup_range (n := F)) (mem_range.2 hi)
    (fun j hj => ho j (mem_range.1 hj)) hx
  exact (hp.cons r).trans perm_middle.symm

end Xv6.Radix
