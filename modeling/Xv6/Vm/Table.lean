import Xv6.Lib.Radix
import Xv6.Vm.Pages
/-!
# Page tables

A page table is a radix tree of depth 2 in physical memory: `tablesAt` are its
pages and `tableFor` is the bottom table that `walk` finds for a virtual address.
`walk` may add tables that translate nothing, and does nothing else (`Grown`).
-/

namespace Xv6.Vm

open Bytes Hoare Radix List Option

/-! ## Entries -/

theorem pte2pa_eq (pte : Nat) : pte2pa pte = pte / 2 ^ 10 * 2 ^ 12 % 2 ^ 64 := by
  rw [pte2pa, Nat.shiftLeft_eq, Nat.shiftRight_eq_div_pow]

theorem pteFlags_eq (pte : Nat) : pteFlags pte = pte % 2 ^ 10 := Nat.and_two_pow_sub_one_eq_mod pte 10

theorem px_eq (level va : Nat) : px level va = va / 2 ^ (12 + 9 * level) % 2 ^ 9 := by
  rw [px, Nat.shiftRight_eq_div_pow]
  exact Nat.and_two_pow_sub_one_eq_mod _ 9

theorem px_lt (level va : Nat) : px level va < 512 := by
  rw [px_eq]
  exact Nat.mod_lt _ (by decide)

theorem valid_iff (pte : Nat) : pte &&& PTE_V ≠ 0 ↔ pte % 2 = 1 := by
  rw [PTE_V, Nat.and_one_is_mod]
  omega

theorem entry_eq {pa perm : Nat} (hp : perm < 2 ^ 10) :
    pa2pte pa ||| perm ||| PTE_V = pa / 2 ^ 12 * 2 ^ 10 + (perm ||| PTE_V) := by
  have hlt : perm ||| PTE_V < 2 ^ 10 := Nat.or_lt_two_pow hp (by decide)
  rw [Nat.or_assoc, pa2pte, Nat.shiftRight_eq_div_pow, ← Nat.shiftLeft_add_eq_or_of_lt hlt, Nat.shiftLeft_eq]

theorem entry_decode {pa : Nat} (perm : Nat) (hp : perm < 2 ^ 10) (ha : pa % PGSIZE = 0) (hb : pa < 2 ^ 64) :
    pte2pa (pa2pte pa ||| perm ||| PTE_V) = pa ∧ pteFlags (pa2pte pa ||| perm ||| PTE_V) = perm ||| PTE_V ∧
      (pa2pte pa ||| perm ||| PTE_V) % 2 = 1 ∧ pa2pte pa ||| perm ||| PTE_V < 2 ^ 64 := by
  have hlt : perm ||| PTE_V < 2 ^ 10 := Nat.or_lt_two_pow hp (by decide)
  have hodd : (perm ||| PTE_V) % 2 = 1 := by
    rw [PTE_V, ← Nat.and_one_is_mod, Nat.and_or_distrib_right]
    rcases Nat.mod_two_eq_zero_or_one perm with h | h <;> rw [Nat.and_one_is_mod, h] <;> rfl
  rw [entry_eq hp, pte2pa_eq, pteFlags_eq]
  simp only [PGSIZE] at ha
  refine ⟨?_, ?_, ?_, ?_⟩ <;> omega

/-- The table an entry points to, if it is valid. -/
def child (pte : Nat) : Option Nat := if pte &&& PTE_V ≠ 0 then some (pte2pa pte) else none

/-- Entry `i` of the table at `r`. -/
def entries (b : Arr) (r i : Nat) : Nat := le64 b (r + 8 * i)

/-! ## walk -/

theorem entries_same {b b' : Arr} {t : Nat} (h : SamePage b b' t) {i : Nat} (hi : i < 512) :
    entries b' t i = entries b t i :=
  h.le64 (by omega) (by simp only [PGSIZE]; omega)

theorem entries_zero {b : Arr} {t i : Nat} (hi : i < 512) : entries (fill b t PGSIZE 0) t i = 0 :=
  le64_fill_zero (by omega) (by simp only [PGSIZE]; omega)

theorem child_zero : child 0 = none := by decide

theorem child_valid {pte : Nat} (h : pte &&& PTE_V ≠ 0) : child pte = some (pte2pa pte) := if_pos h

theorem child_invalid {pte : Nat} (h : ¬ pte &&& PTE_V ≠ 0) : child pte = none := if_neg h

theorem child_new {kend pa : Nat} (h : IsPage kend pa) :
    child (pa2pte pa ||| PTE_V) = some pa ∧ pa2pte pa ||| PTE_V < 2 ^ 64 ∧ pteFlags (pa2pte pa ||| PTE_V) = PTE_V := by
  obtain ⟨ha, -, hlt⟩ := h
  have hb : pa < 2 ^ 64 := Nat.lt_trans hlt (by decide)
  obtain ⟨h1, h2, h3, h4⟩ := entry_decode 0 (by decide) ha hb
  rw [Nat.or_zero] at h1 h2 h3 h4
  exact ⟨by rw [child_valid ((valid_iff _).2 h3), h1], h4, h2.trans (Nat.zero_or _)⟩

/-- The tables of the tree of depth `d` at `r`, and the inner ones. -/
abbrev tablesAt (b : Arr) (d r : Nat) : List Nat := nodes child 512 (entries b) d r
abbrev innerAt (b : Arr) (d r : Nat) : List Nat := inner child 512 (entries b) d r
abbrev tableFor (b : Arr) (va d r : Nat) : Option Nat := find child (entries b) (fun l => px l va) d r

/-- The valid entries of the inner tables have flags with `ok`. -/
def Inner (ok : Nat → Prop) (b : Arr) (d r : Nat) : Prop :=
  ∀ q ∈ innerAt b d r, ∀ i < 512, entries b q i % 2 = 1 → ok (pteFlags (entries b q i))

/-- The entries of the inner tables have no permission bits: they point to tables. -/
def Plain (b : Arr) (d r : Nat) : Prop :=
  ∀ q ∈ innerAt b d r, ∀ i < 512, entries b q i % 2 = 1 → pteFlags (entries b q i) = PTE_V

/-- The tree at `r` has got the tables `new`, which translate nothing yet; everything in use but its inner tables is as
it was. -/
structure Grown (s s' : Mem) (L : List Nat) (d r : Nat) (new : List Nat) : Prop where
  img : s'.img = s.img
  fails : s.fails = [] → s'.fails = []
  heap : Heap s' (new ++ L)
  same : ∀ q ∈ L, q ∉ innerAt s.bytes d r → SamePage s.bytes s'.bytes q
  tables : (tablesAt s'.bytes d r).Perm (new ++ tablesAt s.bytes d r)
  inner : ∀ q ∈ innerAt s'.bytes d r, q ∈ innerAt s.bytes d r ∨ q ∈ new
  flags : ∀ ok : Nat → Prop, ok PTE_V → Inner ok s.bytes d r → Inner ok s'.bytes d r
  old : ∀ va t, tableFor s.bytes va d r = some t → tableFor s'.bytes va d r = some t
  fresh : ∀ va t, tableFor s'.bytes va d r = some t →
    tableFor s.bytes va d r = some t ∨ t ∈ new ∧ ∀ i < 512, entries s'.bytes t i = 0

theorem Grown.refl {s : Mem} {L : List Nat} (h : Heap s L) (d r : Nat) : Grown s s L d r [] :=
  ⟨rfl, id, h, fun _ _ _ => .refl _ _, .refl _, fun _ h => .inl h, fun _ _ => id, fun _ _ h => h,
    fun _ _ h => .inl h⟩

theorem tablesAt_same {b b' : Arr} {d r : Nat} (h : ∀ q ∈ innerAt b d r, SamePage b b' q) :
    tablesAt b' d r = tablesAt b d r :=
  nodes_congr fun n hn _ hi => entries_same (h n hn) hi

theorem tableFor_same {b b' : Arr} {d r va : Nat} (h : ∀ q ∈ innerAt b d r, SamePage b b' q) :
    tableFor b' va d r = tableFor b va d r :=
  find_congr (fun _ => px_lt _ _) fun n hn _ hi => entries_same (h n hn) hi

theorem innerAt_same {b b' : Arr} {d r : Nat} (h : ∀ q ∈ innerAt b d r, SamePage b b' q) :
    innerAt b' d r = innerAt b d r :=
  inner_congr fun n hn _ hi => entries_same (h n hn) hi

theorem Inner.same {ok : Nat → Prop} {b b' : Arr} {d r : Nat} (hp : Inner ok b d r)
    (h : ∀ q ∈ innerAt b d r, SamePage b b' q) : Inner ok b' d r := by
  intro q hq i hi
  rw [innerAt_same h] at hq
  rw [entries_same (h q hq) hi]
  exact hp q hq i hi

theorem Inner.child {ok : Nat → Prop} {b : Arr} {d r i c : Nat} (hp : Inner ok b (d + 1) r) (hi : i < 512)
    (hc : Vm.child (entries b r i) = some c) : Inner ok b d c :=
  fun q hq => hp q (mem_inner_succ.2 (.inr ⟨i, hi, c, hc, hq⟩))

theorem Plain.same {b b' : Arr} {d r : Nat} (hp : Plain b d r) (h : ∀ q ∈ innerAt b d r, SamePage b b' q) :
    Plain b' d r := fun q hq => Inner.same (show Inner (· = PTE_V) b d r from hp) h q hq

theorem Grown.trans {s s' s'' : Mem} {L new new' : List Nat} {d r : Nat} (hL : ∀ q ∈ tablesAt s.bytes d r, q ∈ L)
    (hn : (tablesAt s.bytes d r).Nodup) (h : Grown s s' L d r new) (h' : Grown s' s'' (new ++ L) d r new') :
    Grown s s'' L d r (new' ++ new) := by
  have hnew := nodup_append.1 h.heap.nodup
  have hn' : (tablesAt s'.bytes d r).Nodup := by
    refine h.tables.nodup_iff.2 (nodup_append.2 ⟨hnew.1, hn, fun a ha b hb => ?_⟩)
    exact hnew.2.2 a ha b (hL b hb)
  refine ⟨h'.img.trans h.img, fun hf => h'.fails (h.fails hf), by rw [append_assoc]; exact h'.heap,
    fun q hq hi => ?_, ?_, fun q hq => ?_, fun ok hv hp => h'.flags ok hv (h.flags ok hv hp),
    fun va t ht => h'.old va t (h.old va t ht), fun va t ht => ?_⟩
  · refine (h.same q hq hi).trans (h'.same q (mem_append_right _ hq) fun hi' => ?_)
    rcases h.inner q hi' with hi' | hm
    · exact hi hi'
    · exact hnew.2.2 q hm q hq rfl
  · refine h'.tables.trans ?_
    rw [append_assoc]
    exact h.tables.append_left new'
  · rcases h'.inner q hq with hq | hq
    · exact (h.inner q hq).imp_right (mem_append_right _)
    · exact .inr (mem_append_left _ hq)
  · rcases h'.fresh va t ht with ht' | ⟨hm, hz⟩
    · rcases h.fresh va t ht' with ht | ⟨hm, hz⟩
      · exact .inl ht
      · -- a bottom table is no inner table, so the second growth left it empty
        have hs := h'.same t (mem_append_left _ hm) (find_not_inner (fun _ => px_lt _ _) hn' ht')
        exact .inr ⟨mem_append_right _ hm, fun i hi => by rw [entries_same hs hi, hz i hi]⟩
    · exact .inr ⟨mem_append_left _ hm, hz⟩

theorem tableFor_succ (b : Arr) (va d r : Nat) :
    tableFor b va (d + 1) r = (child (entries b r (px (d + 1) va))).bind (tableFor b va d) := rfl

theorem Grown.lift {s s' : Mem} {L new : List Nat} {d r i c : Nat} (hL : ∀ q ∈ tablesAt s.bytes (d + 1) r, q ∈ L)
    (hn : (tablesAt s.bytes (d + 1) r).Nodup) (hi : i < 512) (hc : child (entries s.bytes r i) = some c)
    (h : Grown s s' L d c new) : Grown s s' L (d + 1) r new := by
  obtain ⟨-, hrc⟩ := nodup_child hn hi hc
  have hr : SamePage s.bytes s'.bytes r :=
    h.same r (hL r (mem_nodes_self ..)) fun hm => hrc (inner_sub_nodes hm)
  have hent : ∀ j < 512, entries s'.bytes r j = entries s.bytes r j := fun j hj => entries_same hr hj
  -- the other subtrees share no table with the one that grew
  have hoth : ∀ j < 512, j ≠ i → ∀ c', child (entries s.bytes r j) = some c' →
      ∀ q ∈ innerAt s.bytes d c', SamePage s.bytes s'.bytes q := by
    intro j hj hji c' hc' q hq
    have hq' := inner_sub_nodes hq
    refine h.same q (hL q (mem_nodes_succ.2 (.inr ⟨j, hj, c', hc', hq'⟩))) fun hm => hji ?_
    exact child_disjoint hn hj hi hc' hc hq' (inner_sub_nodes hm)
  have hfind : ∀ va, px (d + 1) va ≠ i → tableFor s'.bytes va (d + 1) r = tableFor s.bytes va (d + 1) r := by
    intro va hne
    rw [tableFor_succ, tableFor_succ, hent _ (px_lt _ _)]
    cases hc' : child (entries s.bytes r (px (d + 1) va)) with
    | none => simp only [bind_none]
    | some c' =>
      simp only [bind_some]
      exact tableFor_same (hoth _ (px_lt _ _) hne c' hc')
  have hdown : ∀ va, px (d + 1) va = i → tableFor s.bytes va (d + 1) r = tableFor s.bytes va d c ∧
      tableFor s'.bytes va (d + 1) r = tableFor s'.bytes va d c := by
    intro va he
    rw [tableFor_succ, tableFor_succ, hent _ (px_lt _ _), he, hc]
    simp only [bind_some, and_self]
  refine ⟨h.img, h.fails, h.heap, fun q hq hni => h.same q hq fun hm => hni ?_,
    nodes_below hi (fun j hj hji => ?_) ?_, fun q hq => ?_, fun ok hv hp q hq k hk => ?_, fun va t ht => ?_,
    fun va t ht => ?_⟩
  · exact mem_inner_succ.2 (.inr ⟨i, hi, c, hc, hm⟩)
  · rw [hent j hj]
    cases hc' : child (entries s.bytes r j) with
    | none => simp only [map_none]
    | some c' =>
      simp only [map_some, getD_some]
      exact tablesAt_same (hoth j hj hji c' hc')
  · rw [hent i hi, hc]
    simp only [map_some, getD_some]
    exact h.tables
  · rcases mem_inner_succ.1 hq with rfl | ⟨j, hj, c', hc', hq⟩
    · exact .inl (mem_inner_succ.2 (.inl rfl))
    · rw [hent j hj] at hc'
      by_cases hji : j = i
      · rw [hji, hc] at hc'
        cases hc'
        exact (h.inner q hq).imp_left fun hq => mem_inner_succ.2 (.inr ⟨i, hi, c, hc, hq⟩)
      · have hsame := innerAt_same (hoth j hj hji c' hc')
        have hq : q ∈ innerAt s.bytes d c' := hsame ▸ hq
        exact .inl (mem_inner_succ.2 (.inr ⟨j, hj, c', hc', hq⟩))
  · rcases mem_inner_succ.1 hq with rfl | ⟨j, hj, c', hc', hq⟩
    · rw [hent k hk]
      exact hp q (mem_inner_succ.2 (.inl rfl)) k hk
    · rw [hent j hj] at hc'
      by_cases hji : j = i
      · rw [hji, hc] at hc'
        cases hc'
        exact h.flags ok hv (hp.child hi hc) q hq k hk
      · exact (hp.child hj hc').same (hoth j hj hji c' hc') q hq k hk
  · by_cases he : px (d + 1) va = i
    · rw [(hdown va he).1] at ht
      rw [(hdown va he).2]
      exact h.old va t ht
    · rw [hfind va he]
      exact ht
  · by_cases he : px (d + 1) va = i
    · rw [(hdown va he).2] at ht
      rw [(hdown va he).1]
      exact h.fresh va t ht
    · rw [hfind va he] at ht
      exact .inl ht

/-- The memory after `walk` has hung the new table `c` into entry `i` of `r`. -/
def hung (b : Arr) (r i c : Nat) : Arr := put64 (fill b c PGSIZE 0) (r + 8 * i) (pa2pte c ||| PTE_V)

section Hung
variable {b : Arr} {kend r i c q : Nat}

theorem same_hung (hr : r % PGSIZE = 0) (hc : c % PGSIZE = 0) (hq : q % PGSIZE = 0) (hi : i < 512) (hqr : q ≠ r)
    (hqc : q ≠ c) : SamePage b (hung b r i c) q :=
  (same_fill hc hq hqc).trans (same_put64 hr hq hqr (by omega) (by simp only [PGSIZE]; omega))

theorem entries_hung_self (hc : IsPage kend c) : entries (hung b r i c) r i = pa2pte c ||| PTE_V := by
  unfold entries hung
  rw [le64_put64, Nat.mod_eq_of_lt (child_new hc).2.1]

theorem entries_hung_other (hr : r % PGSIZE = 0) (hc : c % PGSIZE = 0) (hrc : r ≠ c) {j : Nat} (hj : j < 512)
    (hji : j ≠ i) : entries (hung b r i c) r j = entries b r j := by
  have h1 : entries (hung b r i c) r j = entries (fill b c PGSIZE 0) r j := by
    unfold entries hung
    exact le64_put64_other (by omega)
  rw [h1, entries_same (same_fill hc hr hrc) hj]

theorem entries_hung_new (hr : r % PGSIZE = 0) (hc : c % PGSIZE = 0) (hrc : r ≠ c) (hi : i < 512) {j : Nat}
    (hj : j < 512) : entries (hung b r i c) c j = 0 := by
  have hs : SamePage (fill b c PGSIZE 0) (hung b r i c) c :=
    same_put64 hr hc (Ne.symm hrc) (by omega) (by simp only [PGSIZE]; omega)
  rw [entries_same hs hj, entries_zero hj]

end Hung

theorem Grown.hang {s s₁ : Mem} {L : List Nat} {d r i c : Nat} (hL : ∀ q ∈ tablesAt s.bytes (d + 1) r, q ∈ L)
    (hn : (tablesAt s.bytes (d + 1) r).Nodup) (hi : i < 512) (hfree : child (entries s.bytes r i) = none)
    (hs : Heap s L) (hf : Frame s s₁ L) (hc : IsPage s.img.kend c) (hcL : c ∉ L) (h₁ : Heap s₁ (c :: L)) :
    Grown s { s₁ with bytes := hung s₁.bytes r i c } L (d + 1) r [c] := by
  have hrL : r ∈ L := hL r (mem_nodes_self ..)
  have hr := (hs.isPage hrL).1
  have hrc : r ≠ c := fun he => hcL (he ▸ hrL)
  have hsame : ∀ q ∈ L, q ≠ r → SamePage s.bytes (hung s₁.bytes r i c) q := fun q hq hqr =>
    (hf.same q hq).trans (same_hung hr hc.1 (hs.isPage hq).1 hi hqr fun he => hcL (he ▸ hq))
  have hself : child (entries (hung s₁.bytes r i c) r i) = some c := by
    rw [entries_hung_self hc]
    exact (child_new hc).1
  have hent : ∀ j < 512, j ≠ i → entries (hung s₁.bytes r i c) r j = entries s.bytes r j := fun j hj hji => by
    rw [entries_hung_other hr hc.1 hrc hj hji, entries_same (hf.same r hrL) hj]
  have hnew : ∀ j < 512, entries (hung s₁.bytes r i c) c j = 0 := fun j hj => entries_hung_new hr hc.1 hrc hi hj
  have hempty : tablesAt (hung s₁.bytes r i c) d c = [c] :=
    nodes_empty fun j hj => by rw [hnew j hj]; exact child_zero
  have hoth : ∀ j < 512, ∀ c', child (entries s.bytes r j) = some c' →
      ∀ q ∈ innerAt s.bytes d c', SamePage s.bytes (hung s₁.bytes r i c) q := by
    intro j hj c' hc' q hq
    have hq' := inner_sub_nodes hq
    refine hsame q (hL q (mem_nodes_succ.2 (.inr ⟨j, hj, c', hc', hq'⟩))) fun he => ?_
    exact (nodup_child hn hj hc').2 (he ▸ hq')
  have hfind : ∀ va, px (d + 1) va ≠ i →
      tableFor (hung s₁.bytes r i c) va (d + 1) r = tableFor s.bytes va (d + 1) r := by
    intro va hne
    rw [tableFor_succ, tableFor_succ, hent _ (px_lt _ _) hne]
    cases hc' : child (entries s.bytes r (px (d + 1) va)) with
    | none => simp only [bind_none]
    | some c' =>
      simp only [bind_some]
      exact tableFor_same (hoth _ (px_lt _ _) c' hc')
  refine ⟨hf.img, hf.fails, h₁.write fun q hq hm => ?_, fun q hq hni => hsame q hq fun he => hni ?_,
    nodes_below hi (fun j hj hji => ?_) ?_, fun q hq => ?_, fun ok hv hp q hq k hk => ?_, fun va t ht => ?_,
    fun va t ht => ?_⟩
  · rw [mem_cons, not_or] at hm
    exact same_hung hr hc.1 hq.1 hi (fun he => hm.2 (he ▸ hrL)) hm.1
  · exact mem_inner_succ.2 (.inl he)
  · rw [hent j hj hji]
    cases hc' : child (entries s.bytes r j) with
    | none => simp only [map_none]
    | some c' =>
      simp only [map_some, getD_some]
      exact tablesAt_same (hoth j hj c' hc')
  · rw [hself, hfree]
    simp only [map_some, map_none, getD_some, getD_none, append_nil]
    rw [show nodes child 512 (entries (hung s₁.bytes r i c)) d c = [c] from hempty]
  · rcases mem_inner_succ.1 hq with rfl | ⟨j, hj, c', hc', hq⟩
    · exact .inl (mem_inner_succ.2 (.inl rfl))
    · by_cases hji : j = i
      · subst hji
        rw [hself] at hc'
        cases hc'
        have hq : q ∈ tablesAt (hung s₁.bytes r j c) d c := inner_sub_nodes hq
        rw [hempty] at hq
        exact .inr hq
      · rw [hent j hj hji] at hc'
        have he := innerAt_same (hoth j hj c' hc')
        have hq : q ∈ innerAt s.bytes d c' := he ▸ hq
        exact .inl (mem_inner_succ.2 (.inr ⟨j, hj, c', hc', hq⟩))
  · rcases mem_inner_succ.1 hq with rfl | ⟨j, hj, c', hc', hq⟩
    · by_cases hki : k = i
      · subst hki
        dsimp only
        rw [entries_hung_self hc, (child_new hc).2.2]
        exact fun _ => hv
      · dsimp only
        rw [hent k hk hki]
        exact hp q (mem_inner_succ.2 (.inl rfl)) k hk
    · by_cases hji : j = i
      · subst hji
        rw [hself] at hc'
        cases hc'
        have hq : q ∈ tablesAt (hung s₁.bytes r j c) d c := inner_sub_nodes hq
        rw [hempty, mem_singleton] at hq
        subst hq
        dsimp only
        rw [hnew k hk]
        exact fun h => absurd h (by decide)
      · rw [hent j hj hji] at hc'
        exact (hp.child hj hc').same (hoth j hj c' hc') q hq k hk
  · by_cases he : px (d + 1) va = i
    · rw [tableFor_succ, he, hfree] at ht
      cases ht
    · rw [hfind va he]
      exact ht
  · by_cases he : px (d + 1) va = i
    · rw [tableFor_succ, he, hself, bind_some] at ht
      have hm : t ∈ tablesAt (hung s₁.bytes r i c) d c := find_mem (fun _ => px_lt _ _) ht
      rw [hempty] at hm
      refine .inr ⟨hm, fun j hj => ?_⟩
      rw [mem_singleton.1 hm]
      exact hnew j hj
    · rw [hfind va he] at ht
      exact .inl ht

/-- `walk` has returned `a`: 0, or the PTE of `va`. -/
structure Walked (s : Mem) (L : List Nat) (va : Nat) (alloc : Bool) (d r a : Nat) (s' : Mem) (new : List Nat) : Prop where
  grown : Grown s s' L d r new
  /-- Without `alloc` nothing changes. -/
  pure : alloc = false → s' = s
  /-- A table is made for a level that has none. -/
  few : new.length ≤ d
  kept : ∀ t, tableFor s.bytes va d r = some t → new = []
  found : a = 0 ∧ tableFor s.bytes va d r = none ∧ (alloc = true → Short s L d) ∨
    ∃ t, tableFor s'.bytes va d r = some t ∧ a = t + 8 * px 0 va

section Walked
variable {s s₂ s₃ : Mem} {L new : List Nat} {va d r c a : Nat} {alloc : Bool}

section
variable (hL : ∀ q ∈ tablesAt s.bytes (d + 1) r, q ∈ L) (hn : (tablesAt s.bytes (d + 1) r).Nodup)
include hL hn

theorem Grown.tableFor_child (hc : child (entries s.bytes r (px (d + 1) va)) = some c) (g : Grown s s₃ L d c new) :
    tableFor s₃.bytes va (d + 1) r = tableFor s₃.bytes va d c := by
  have hi := px_lt (d + 1) va
  have hr : SamePage s.bytes s₃.bytes r := g.same r (hL r (mem_nodes_self ..)) fun hm =>
    (nodup_child hn hi hc).2 (inner_sub_nodes hm)
  rw [tableFor_succ, entries_same hr hi, hc, bind_some]

theorem Walked.lift (hc : child (entries s.bytes r (px (d + 1) va)) = some c) (w : Walked s L va alloc d c a s₃ new) :
    Walked s L va alloc (d + 1) r a s₃ new := by
  have hi := px_lt (d + 1) va
  have hdown : tableFor s.bytes va (d + 1) r = tableFor s.bytes va d c := by
    rw [tableFor_succ, hc, bind_some]
  refine ⟨w.grown.lift hL hn hi hc, w.pure, Nat.le_succ_of_le w.few, fun t ht => w.kept t (hdown ▸ ht), ?_⟩
  rw [hdown, w.grown.tableFor_child hL hn hc]
  rcases w.found with ⟨h0, hnone, hs⟩ | ht
  · exact .inl ⟨h0, hnone, fun ha => (hs ha).mono (Nat.le_succ d)⟩
  · exact .inr ht

theorem Walked.hang (ha : alloc = true) (hfree : child (entries s.bytes r (px (d + 1) va)) = none) (hcL : c ∉ L)
    (g : Grown s s₂ L (d + 1) r [c])
    (hself : child (entries s₂.bytes r (px (d + 1) va)) = some c) (w : Walked s₂ ([c] ++ L) va alloc d c a s₃ new) :
    Walked s L va alloc (d + 1) r a s₃ (new ++ [c]) := by
  have hna : alloc ≠ false := by rw [ha]; decide
  have hL₂ : ∀ q ∈ tablesAt s₂.bytes (d + 1) r, q ∈ [c] ++ L := fun q hq =>
    (mem_append.1 (g.tables.subset hq)).elim (mem_append_left _) fun hq => mem_append_right _ (hL q hq)
  have hn₂ : (tablesAt s₂.bytes (d + 1) r).Nodup :=
    g.tables.nodup_iff.2 (nodup_cons.2 ⟨fun hm => hcL (hL c hm), hn⟩)
  have w' := Walked.lift hL₂ hn₂ hself w
  have hnone : tableFor s.bytes va (d + 1) r = none := by rw [tableFor_succ, hfree, bind_none]
  refine ⟨Grown.trans hL hn g w'.grown, fun h => absurd h hna, ?_, fun t ht => ?_, ?_⟩
  · rw [length_append, length_singleton]
    exact Nat.succ_le_succ w.few
  · rw [hnone] at ht
    cases ht
  · rw [w.grown.tableFor_child hL₂ hn₂ hself]
    rcases w.found with ⟨h0, -, hs⟩ | ht
    · refine .inl ⟨h0, hnone, fun _ hf => ?_⟩
      have hs := hs ha (g.fails hf)
      rw [g.img, length_append, length_singleton] at hs
      omega
    · exact .inr ht

end

theorem Grown.failed (hL : ∀ q ∈ tablesAt s.bytes d r, q ∈ L) (hf : Frame s s₂ L) (h : Heap s₂ L) :
    Grown s s₂ L d r [] := by
  have hin : ∀ q ∈ innerAt s.bytes d r, SamePage s.bytes s₂.bytes q := fun q hq =>
    hf.same q (hL q (inner_sub_nodes hq))
  refine ⟨hf.img, hf.fails, h, fun q hq _ => hf.same q hq, ?_, fun q hq => .inl ?_, fun _ _ hp => hp.same hin,
    fun va t ht => ?_, fun va t ht => .inl ?_⟩
  · rw [tablesAt_same hin]; exact .refl _
  · rw [← innerAt_same hin]; exact hq
  · rw [tableFor_same hin]; exact ht
  · rw [← tableFor_same hin]; exact ht

end Walked

theorem walkFrom_spec (va : Nat) (alloc : Bool) : ∀ (d r : Nat) {s : Mem} {L : List Nat}, Heap s L →
    (∀ q ∈ tablesAt s.bytes d r, q ∈ L) → (tablesAt s.bytes d r).Nodup →
      wp (walkFrom va alloc d r) (fun a s' => ∃ new, Walked s L va alloc d r a s' new) (fun _ _ => False) s
  | 0, r, s, L, hs, _, _ =>
    (wp_pure _).2 ⟨[], .refl hs 0 r, fun _ => rfl, Nat.le_refl 0, fun _ _ => rfl, .inr ⟨r, rfl, rfl⟩⟩
  | d + 1, r, s, L, hs, hL, hn => by
    have hi := px_lt (d + 1) va
    unfold walkFrom load
    simp only [wp_bind, wp_get, wp_pure, wp_ite]
    refine ⟨fun hv => ?_, fun hv => ⟨fun ha => ?_, fun ha => ?_⟩⟩
    · -- the table below is there
      have hc : child (entries s.bytes r (px (d + 1) va)) = some (pte2pa (entries s.bytes r (px (d + 1) va))) :=
        child_valid hv
      refine (walkFrom_spec va alloc d _ hs (fun q hq => hL q (mem_nodes_succ.2 (.inr ⟨_, hi, _, hc, hq⟩)))
        (nodup_child hn hi hc).1).imp fun a s' hw => ?_
      obtain ⟨new, w⟩ := hw
      exact ⟨new, w.lift hL hn hc⟩
    · have hfree : child (entries s.bytes r (px (d + 1) va)) = none := child_invalid hv
      refine ⟨[], .refl hs _ _, fun _ => rfl, Nat.zero_le _, fun _ _ => rfl, .inl ⟨rfl, ?_, fun h => ?_⟩⟩
      · rw [tableFor_succ, hfree, bind_none]
      · rw [h] at ha
        exact absurd ha (by decide)
    · have ha : alloc = true := by simpa using ha
      have hna : alloc ≠ false := by rw [ha]; decide
      have hfree : child (entries s.bytes r (px (d + 1) va)) = none := child_invalid hv
      refine (kalloc_spec hs).imp ?_
      rintro c s₁ ⟨hf, hk⟩
      rcases hk with ⟨rfl, h₁, hshort⟩ | ⟨hc0, hc, hcL, h₁⟩
      · refine ⟨fun _ => ⟨[], .failed hL hf h₁, fun h => absurd h hna, Nat.zero_le _, fun _ _ => rfl,
          .inl ⟨rfl, ?_, fun _ => hshort.mono (Nat.le_add_left 1 d)⟩⟩, fun h => absurd rfl h⟩
        rw [tableFor_succ, hfree, bind_none]
      refine ⟨fun h => absurd h hc0, fun _ => ?_⟩
      have hrL : r ∈ L := hL r (mem_nodes_self ..)
      have hr := (hs.isPage hrL).1
      have hrc : r ≠ c := fun he => hcL (he ▸ hrL)
      have g := Grown.hang hL hn hi hfree hs hf hc hcL h₁
      have hempty : tablesAt (hung s₁.bytes r (px (d + 1) va) c) d c = [c] :=
        nodes_empty fun j hj => by rw [entries_hung_new hr hc.1 hrc hi hj]; exact child_zero
      have hself : child (entries (hung s₁.bytes r (px (d + 1) va) c) r (px (d + 1) va)) = some c := by
        rw [entries_hung_self hc]
        exact (child_new hc).1
      unfold memset store
      simp only [wp_modify]
      -- from here on only what `g`, `hempty` and `hself` say of the new memory counts
      change wp _ _ _ { s₁ with bytes := hung s₁.bytes r (px (d + 1) va) c }
      generalize hs₂ : ({ s₁ with bytes := hung s₁.bytes r (px (d + 1) va) c } : Mem) = s₂ at g ⊢
      have hb : s₂.bytes = hung s₁.bytes r (px (d + 1) va) c := by rw [← hs₂]
      rw [← hb] at hempty hself
      have hL₂ : ∀ q ∈ tablesAt s₂.bytes d c, q ∈ [c] ++ L := fun q hq => by
        rw [hempty] at hq
        exact mem_append_left _ hq
      refine (walkFrom_spec va alloc d c g.heap hL₂ (by rw [hempty]; simp)).imp ?_
      rintro a s₃ ⟨new, w⟩
      exact ⟨new ++ [c], w.hang hL hn ha hfree hcL g hself⟩

end Xv6.Vm
