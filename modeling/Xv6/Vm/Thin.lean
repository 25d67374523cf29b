import Xv6.Vm.Refines
import Xv6.Vm.User
/-!
# Page tables with one table at each level

The smallest page tables that map anything: the root and the table below it have
only their first entry in use, and the bottom table translates the first 512 pages.
-/

namespace Xv6.Vm

open Bytes Hoare Radix

structure Thin (kend : Nat) (b : Arr) (r t₁ t₀ : Nat) : Prop where
  page₁ : IsPage kend t₁
  page₀ : IsPage kend t₀
  root : ∀ i < 512, entries b r i = if i = 0 then pa2pte t₁ ||| PTE_V else 0
  middle : ∀ i < 512, entries b t₁ i = if i = 0 then pa2pte t₀ ||| PTE_V else 0

namespace Thin
variable {kend : Nat} {b : Arr} {r t₁ t₀ : Nat}

section
variable (h : Thin kend b r t₁ t₀)
include h

theorem child_root {i : Nat} (hi : i < 512) :
    child (entries b r i) = if i = 0 then some t₁ else none := by
  rw [h.root i hi]
  split
  · exact (child_new h.page₁).1
  · exact child_zero

theorem child_middle {i : Nat} (hi : i < 512) :
    child (entries b t₁ i) = if i = 0 then some t₀ else none := by
  rw [h.middle i hi]
  split
  · exact (child_new h.page₀).1
  · exact child_zero

theorem tables : tables b r = [r, t₁, t₀] := by
  have h1 : tablesAt b 1 t₁ = t₁ :: tablesAt b 0 t₀ := nodes_first (by decide) (h.child_middle (by decide))
    fun i h0 hi => by rw [h.child_middle hi, if_neg (Nat.ne_of_gt h0)]
  have h2 : tablesAt b 2 r = r :: tablesAt b 1 t₁ := nodes_first (by decide) (h.child_root (by decide))
    fun i h0 hi => by rw [h.child_root hi, if_neg (Nat.ne_of_gt h0)]
  show tablesAt b 2 r = _
  rw [h2, h1]
  rfl

theorem tableFor {v : Nat} (hv : v < VPAGES) :
    tableFor b (v * PGSIZE) 2 r = if v < 512 then some t₀ else none := by
  have hp : px 1 (v * PGSIZE) = v / 512 % 512 ∧ px 2 (v * PGSIZE) = v / 512 / 512 := by
    simp only [px_eq, PGSIZE, VPAGES] at *
    omega
  rw [tableFor_succ, h.child_root (px_lt _ _), hp.2]
  by_cases hz : v / 512 / 512 = 0
  · rw [if_pos hz, Option.bind_some, tableFor_succ, h.child_middle (px_lt _ _), hp.1]
    by_cases hlt : v < 512
    · rw [if_pos (by omega), if_pos hlt]
      rfl
    · rw [if_neg (by omega), if_neg hlt]
      rfl
  · rw [if_neg hz, if_neg (by omega)]
    rfl

theorem look {v : Nat} (hv : v < VPAGES) :
    look b r v = if v < 512 then entries b t₀ v else 0 := by
  have hfor := h.tableFor hv
  by_cases hlt : v < 512
  · have hp : px 0 (v * PGSIZE) = v := by
      simp only [px_eq, PGSIZE]
      omega
    rw [if_pos hlt] at hfor ⊢
    rw [look_some hfor, hp]
  · rw [if_neg hlt] at hfor ⊢
    exact look_none hfor

theorem plain : Plain b 2 r := by
  intro q hq i hi he
  rcases mem_inner_succ.1 hq with rfl | ⟨j, hj, c, hc, hq⟩
  · rw [h.root i hi] at he ⊢
    split at he
    · next h0 =>
      rw [if_pos h0]
      exact (child_new h.page₁).2.2
    · cases he
  rw [h.child_root hj] at hc
  split at hc
  · cases hc
    rcases mem_inner_succ.1 hq with rfl | ⟨_, _, _, _, hq⟩
    · rw [h.middle i hi] at he ⊢
      split at he
      · next h0 =>
        rw [if_pos h0]
        exact (child_new h.page₀).2.2
      · cases he
    · cases hq
  · cases hc

end

end Thin

/-- The upper two levels of such a page table, stored in `b`. -/
def thin (b : Arr) (r t₁ t₀ : Nat) : Arr := put64 (put64 b r (pa2pte t₁ ||| PTE_V)) t₁ (pa2pte t₀ ||| PTE_V)

theorem entries_put {b : Arr} {t e i : Nat} (he : e < 2 ^ 64) (hz : ∀ i < 512, entries b t i = 0) (hi : i < 512) :
    entries (put64 b t e) t i = if i = 0 then e else 0 := by
  by_cases h0 : i = 0
  · rw [if_pos h0, h0, entries, Nat.mul_zero, Nat.add_zero, le64_put64, Nat.mod_eq_of_lt he]
  · rw [if_neg h0, entries, le64_put64_other (by omega)]
    exact hz i hi

theorem entries_put_other {b : Arr} {t q e i : Nat} (ht : t % PGSIZE = 0) (hq : q % PGSIZE = 0) (hne : q ≠ t)
    (hi : i < 512) : entries (put64 b t e) q i = entries b q i :=
  entries_same (same_put64 ht hq hne (Nat.le_refl t) (by simp only [PGSIZE]; omega)) hi

theorem entries_thin {b : Arr} {r t₁ t₀ q i : Nat} (hr : r % PGSIZE = 0) (h1 : t₁ % PGSIZE = 0) (hq : q % PGSIZE = 0)
    (hqr : q ≠ r) (hq1 : q ≠ t₁) (hi : i < 512) : entries (thin b r t₁ t₀) q i = entries b q i := by
  rw [thin, entries_put_other h1 hq hq1 hi, entries_put_other hr hq hqr hi]

/-- Stored into zeros, they are such a table, whatever is stored into other pages then. -/
theorem thin_isThin {kend : Nat} {b b' : Arr} {r t₁ t₀ : Nat} (hr : r % PGSIZE = 0) (h1 : IsPage kend t₁)
    (h0 : IsPage kend t₀) (hne : r ≠ t₁) (hzr : ∀ i < 512, entries b r i = 0) (hz1 : ∀ i < 512, entries b t₁ i = 0)
    (hsr : SamePage (thin b r t₁ t₀) b' r) (hs1 : SamePage (thin b r t₁ t₀) b' t₁) : Thin kend b' r t₁ t₀ := by
  refine ⟨h1, h0, fun i hi => ?_, fun i hi => ?_⟩
  · rw [entries_same hsr hi, thin, entries_put_other h1.1 hr hne hi]
    exact entries_put (child_new h1).2.1 hzr hi
  · rw [entries_same hs1 hi, thin]
    refine entries_put (child_new h0).2.1 (fun j hj => ?_) hi
    rw [entries_put_other hr h1.1 hne.symm hj]
    exact hz1 j hj

/-! ## A machine with six pages -/

/-- The kernel ends six pages before `PHYSTOP`. -/
def sixImage : Image :=
  { smallImage with kend := PHYSTOP - 6 * PGSIZE, text := by decide, fits := by decide }

/-- Page `i` of the six. -/
def sixPage (i : Nat) : Nat := sixImage.kend + i * PGSIZE

theorem sixPage_isPage {i : Nat} (hi : i < 6) : IsPage sixImage.kend (sixPage i) := by
  have hk : sixImage.kend = 2281676800 := rfl
  have hp : PHYSTOP = 2281701376 := rfl
  rw [IsPage, sixPage, hk, hp]
  simp only [PGSIZE]
  omega

theorem sixPage_inj {i j : Nat} (h : sixPage i = sixPage j) : i = j := by
  simp only [sixPage, PGSIZE] at h
  omega

theorem sixPage_ne {i j : Nat} (h : i ≠ j) : sixPage i ≠ sixPage j := fun he => h (sixPage_inj he)

theorem pageList_six : ((List.range 6).map sixPage).Perm (pageList sixImage.kend) := by
  rw [List.perm_ext_iff_of_nodup (List.nodup_range.map fun i j => sixPage_inj) (nodup_pageList _)]
  intro p
  rw [mem_pageList, List.mem_map]
  constructor
  · rintro ⟨i, hi, rfl⟩
    exact sixPage_isPage (List.mem_range.1 hi)
  · intro h
    have hk : sixImage.kend = 2281676800 := rfl
    have hp : PHYSTOP = 2281701376 := rfl
    simp only [IsPage, hk, hp, PGSIZE] at h
    refine ⟨(p - 2281676800) / 4096, List.mem_range.2 (by omega), ?_⟩
    simp only [sixPage, hk, PGSIZE]
    omega

/-- The first three pages are a page table that maps its first page to `q`, the others hold zeros and the last is
free. -/
def oneMem (q : Nat) : Mem where
  bytes := put64 (thin (fun _ => 0) (sixPage 0) (sixPage 1) (sixPage 2)) (sixPage 2)
    (leaf q (PTE_W ||| PTE_X ||| PTE_R ||| PTE_U))
  freelist := sixPage 5
  img := sixImage
  fails := []

theorem sixPage_aligned {i : Nat} (hi : i < 6) : sixPage i % PGSIZE = 0 := (sixPage_isPage hi).1

theorem oneMem_thin (q : Nat) : Thin sixImage.kend (oneMem q).bytes (sixPage 0) (sixPage 1) (sixPage 2) := by
  have hz : ∀ p, ∀ i < 512, entries (fun _ => 0) p i = 0 := fun _ _ _ => rfl
  have hend : sixPage 2 + 8 ≤ sixPage 2 + PGSIZE := Nat.add_le_add_left (by decide) _
  have hal := @sixPage_aligned
  refine thin_isThin (hal (by decide)) (sixPage_isPage (by decide)) (sixPage_isPage (by decide))
    (sixPage_ne (by decide)) (hz _) (hz _) ?_ ?_
  · exact same_put64 (hal (by decide)) (hal (by decide)) (sixPage_ne (by decide)) (Nat.le_refl _) hend
  · exact same_put64 (hal (by decide)) (hal (by decide)) (sixPage_ne (by decide)) (Nat.le_refl _) hend

theorem oneMem_look {q v : Nat} (hq : IsPage sixImage.kend q) (hv : v < VPAGES) : look (oneMem q).bytes (sixPage 0) v =
    if v = 0 then leaf q (PTE_W ||| PTE_X ||| PTE_R ||| PTE_U) else 0 := by
  have hal := @sixPage_aligned
  have hlt : leaf q (PTE_W ||| PTE_X ||| PTE_R ||| PTE_U) < 2 ^ 64 :=
    leaf_lt (by decide) hq.1 (Nat.lt_trans hq.2.2 (by decide))
  rw [(oneMem_thin q).look hv]
  by_cases h512 : v < 512
  · rw [if_pos h512]
    refine entries_put hlt (fun i hi => ?_) h512
    rw [entries_thin (hal (by decide)) (hal (by decide)) (hal (by decide)) (sixPage_ne (by decide))
      (sixPage_ne (by decide)) hi]
    rfl
  · rw [if_neg h512, if_neg (by omega)]

theorem oneMem_zero {q i j : Nat} (h2 : 2 < i) (h6 : i < 6) (hj : j < 512) :
    entries (oneMem q).bytes (sixPage i) j = 0 := by
  have hal := @sixPage_aligned
  rw [oneMem, entries_put_other (hal (by decide)) (hal h6) (sixPage_ne (by omega)) hj,
    entries_thin (hal (by decide)) (hal (by decide)) (hal h6) (sixPage_ne (by omega)) (sixPage_ne (by omega)) hj]
  rfl

end Xv6.Vm
