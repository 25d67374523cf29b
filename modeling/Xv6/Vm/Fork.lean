import Xv6.Vm.Copy
/-!
# Parent and child

`Pair` is two address spaces in one physical memory: each is part of the other's
surroundings, so that no page belongs to both. `uvmcopy` makes the child's pages
copies of the parent's, and from then on a store through one page table does not
show through the other, however many have gone before.
-/

namespace Xv6.Vm

open Bytes Hoare Radix Run

/-- `old` has `n` pages and `new` has `k`. -/
structure Pair (s : Mem) (old new n k : Nat) (top top' : Nat → Nat) (R : List Nat) : Prop where
  parent : Space s old n top (tables s.bytes new ++ (mapped s.bytes new 0 k ++ R))
  child : Space s new k top' (tables s.bytes old ++ (mapped s.bytes old 0 n ++ R))

/-- What is seen through `r` is as it was. -/
structure Unseen (s s' : Mem) (r n : Nat) : Prop where
  look : ∀ v, look s'.bytes r v = Vm.look s.bytes r v
  same : Same s s' r n

/-- `copyout`s through one of the two page tables. -/
def Copyout (old new : Nat) (t : Mem) (r : Nat) (t' : Mem) : Prop :=
  (r = old ∨ r = new) ∧ ∃ dstva src ok, exec (copyout r dstva src) t = (.ok ok, t')

section
variable {s s' : Mem} {old new n k sz : Nat} {top top' : Nat → Nat} {R : List Nat}

theorem Pair.symm (h : Pair s old new n k top top' R) : Pair s new old k n top' top R := ⟨h.child, h.parent⟩

theorem pair_perm (A B C D R : List Nat) : (A ++ (B ++ (C ++ (D ++ R)))).Perm (C ++ (D ++ (A ++ (B ++ R)))) := by
  have h := List.perm_append_comm_assoc (A ++ B) (C ++ D) R
  simpa only [List.append_assoc] using h

section
variable (h : Pair s old new n k top top' R)
include h

/-- The other space, when this one's tables are the same and its pages have been stored to. -/
theorem Pair.of_parent (hf : Frame s s' (tables s.bytes old ++ (tables s.bytes new ++ (mapped s.bytes new 0 k ++ R))))
    (hs : Space s' old n top (tables s.bytes new ++ (mapped s.bytes new 0 k ++ R))) :
    Pair s' old new n k top top' R ∧ Unseen s s' new k := by
  have hold : ∀ v, look s'.bytes old v = look s.bytes old v := look_same hf.left.same
  have hnew : ∀ v, look s'.bytes new v = look s.bytes new v := look_same hf.right.left.same
  have htold : tables s'.bytes old = tables s.bytes old := tables_same hf.left.same
  have htnew : tables s'.bytes new = tables s.bytes new := tables_same hf.right.left.same
  have hmold : mapped s'.bytes old 0 n = mapped s.bytes old 0 n := mapped_congr fun w _ _ => hold w
  have hmnew : mapped s'.bytes new 0 k = mapped s.bytes new 0 k := mapped_congr fun w _ _ => hnew w
  refine ⟨⟨?_, ?_⟩, hnew, .of_untouched hf.right⟩
  · rw [htnew, hmnew]
    exact hs
  · rw [htold, hmold]
    refine h.child.frame hf.right.left ?_
    have hheap := hs.owns.heap
    rw [htold, hmold] at hheap
    exact hheap.perm (pair_perm _ _ _ _ _)

theorem Pair.copyout (hg : Guarded top) (dstva : Nat) (src : List UInt8) :
    wp (copyout old dstva src) (fun _ s' => Pair s' old new n k top top' R ∧ Unseen s s' new k) (fun _ _ => False) s :=
  (copyout_spec hg h.parent).imp fun _ _ hs => h.of_parent hs.1 hs.2.1

theorem Pair.reach (hg : Guarded top) (hg' : Guarded top') {t : Mem}
    (ht : Reach (· = s) (Copyout old new) t) : Pair t old new n k top top' R := by
  refine ht.inv (fun t => Pair t old new n k top top' R) (fun t (ht : t = s) => ht ▸ h) ?_
  rintro t r t' ih ⟨rfl | rfl, dstva, src, ok, he⟩
  · exact ((ih.copyout hg dstva src).ok he).1
  · exact ((ih.symm.copyout hg' dstva src).ok he).1.symm

theorem Pair.source (hlow : Low top) :
    Source s old n (tables s.bytes old ++ (mapped s.bytes old 0 n ++ R)) := by
  have hp := npages_lt
  have hn := h.parent.small
  refine ⟨fun q hq => List.mem_append_left _ hq, h.parent.owns.heap.tables_nodup, h.parent.owns.plain, h.parent.user,
    fun v hv => ?_, ?_⟩
  · exact List.mem_append_right _ (List.mem_append_left _ (mem_mapped hv))
  · rw [h.parent.rest n (Nat.le_refl n) (page_lt (by omega)).2, hlow n (by omega)]

end

theorem Pair.of_child (h : Pair s old new n 0 top top' R)
    (hf : Frame s s' (tables s.bytes old ++ (mapped s.bytes old 0 n ++ R)))
    (hs : Space s' new k top' (tables s.bytes old ++ (mapped s.bytes old 0 n ++ R))) :
    Pair s' old new n k top top' R := by
  have hold : ∀ v, look s'.bytes old v = look s.bytes old v := look_same hf.left.same
  have htold : tables s'.bytes old = tables s.bytes old := tables_same hf.left.same
  have hmold : mapped s'.bytes old 0 n = mapped s.bytes old 0 n := mapped_congr fun w _ _ => hold w
  refine ⟨h.parent.frame hf.left ?_, ?_⟩
  · exact hs.owns.heap.perm (pair_perm _ _ _ _ _)
  · rw [htold, hmold]
    exact hs

theorem Pair.apart (h : Pair s old new n k top top' R) {v w : Nat} (hv : v < n) (hw : w < k) :
    pte2pa (look s.bytes new w) ≠ pte2pa (look s.bytes old v) := by
  have hn := (List.nodup_append.1 (List.nodup_append.1 h.child.owns.heap.nodup).2.1).2.2
  exact hn _ (mem_mapped hw) _ (List.mem_append_right _ (List.mem_append_left _ (mem_mapped hv)))

/-- The first `k` pages of the child are copies of the parent's, and from then on neither sees what is stored through
the other's table. -/
structure Forked (s : Mem) (old new n k : Nat) (top top' : Nat → Nat) (R : List Nat) : Prop where
  within : k ≤ n
  pair : Pair s old new n k top top' R
  copies : ∀ v < k, CopyOf s old new v
  apart : ∀ v < k, pte2pa (look s.bytes new v) ≠ pte2pa (look s.bytes old v)
  unseen : ∀ t, Reach (· = s) (Copyout old new) t → ∀ dstva src,
    wp (Vm.copyout old dstva src) (fun _ t' => Unseen t t' new k) (fun _ _ => False) t ∧
      wp (Vm.copyout new dstva src) (fun _ t' => Unseen t t' old n) (fun _ _ => False) t

theorem Pair.forked (h : Pair s old new n k top top' R) (hg : Guarded top) (hg' : Guarded top') (hk : k ≤ n)
    (hc : ∀ v < k, CopyOf s old new v) : Forked s old new n k top top' R := by
  refine ⟨hk, h, hc, fun v hv => h.apart (Nat.lt_of_lt_of_le hv hk) hv, fun t ht dstva src => ?_⟩
  have ht := h.reach hg hg' ht
  exact ⟨(ht.copyout hg dstva src).mono (fun _ _ hu => hu.2) fun _ _ hf => hf,
    (ht.symm.copyout hg' dstva src).mono (fun _ _ hu => hu.2) fun _ _ hf => hf⟩

/-- `uvmcopy` of `sz` bytes does not change the parent, and gives the child all the pages or none, with every page
taken for it free again. It panics only if `sz` is more than the parent has. -/
theorem uvmcopy_forks (h : Pair s old new n 0 top top' R) (hlow : Low top) (hlow' : Low top') (hg : Guarded top)
    (hg' : Guarded top') :
    wp (uvmcopy old new sz)
      (fun ok s' => Unseen s s' old n ∧ Frame s s' (tables s.bytes old ++ (mapped s.bytes old 0 n ++ R)) ∧
        if ok then Forked s' old new n (up sz) top top' R else Pair s' old new n 0 top top' R)
      (fun _ _ => n < up sz) s := by
  have hp := npages_lt
  have hn := h.parent.small
  have hsrc := h.source hlow
  refine (uvmcopy_spec hlow' (show n < MAXVP by omega) h.child hsrc).imp fun ok s' c => ?_
  have hpair := h.of_child c.frame c.space
  refine ⟨⟨hsrc.look_eq c.frame, hsrc.same c.frame⟩, c.frame, ?_⟩
  cases ok with
  | false =>
    rw [if_neg (by decide)]
    exact hpair
  | true =>
    rw [if_pos rfl, Nat.zero_add] at hpair
    have hle := c.within rfl
    have hcopies := c.copies rfl
    rw [Nat.zero_add] at hle hcopies
    rw [if_pos rfl]
    exact hpair.forked hg hg' hle fun v hv => hcopies v (Nat.zero_le v) hv

end

/-! ## A parent with one page -/

theorem childMem_entries : ∀ i < 512, entries (oneMem (sixPage 3)).bytes (sixPage 4) i = 0 := fun _ hi =>
  oneMem_zero (by decide) (by decide) hi

theorem oneMem_heap : Heap (oneMem (sixPage 3))
    (sixPage 4 :: ([sixPage 0, sixPage 1, sixPage 2] ++ ([sixPage 3] ++ []))) := by
  have hlast : entries (oneMem (sixPage 3)).bytes (sixPage 5) 0 = 0 :=
    oneMem_zero (by decide) (by decide) (by decide)
  refine ⟨[sixPage 5], ⟨rfl, hlast⟩, List.Perm.trans ?_ pageList_six⟩
  exact List.Perm.map sixPage (show [5, 4, 0, 1, 2, 3].Perm (List.range 6) by decide)

theorem oneMem_pair : Pair (oneMem (sixPage 3)) (sixPage 0) (sixPage 4) 1 0 (fun _ => 0) (fun _ => 0) [] := by
  have hpage := sixPage_isPage (show 3 < 6 by decide)
  have htab := (oneMem_thin (sixPage 3)).tables
  have hmap : mapped (oneMem (sixPage 3)).bytes (sixPage 0) 0 1 = [sixPage 3] := by
    rw [mapped_succ, oneMem_look hpage (by decide), if_pos rfl, (leaf_page hpage (by decide)).1]
    rfl
  have hnone : ∀ i < 512, child (entries (oneMem (sixPage 3)).bytes (sixPage 4) i) = none := fun i hi => by
    rw [childMem_entries i hi]
    exact child_zero
  have htab4 : tables (oneMem (sixPage 3)).bytes (sixPage 4) = [sixPage 4] := nodes_empty hnone
  refine ⟨⟨⟨?_, (oneMem_thin _).plain⟩, fun v hv => ?_, fun v h1 h2 => ?_⟩, ?_⟩
  · rw [htab, hmap, htab4]
    exact oneMem_heap.perm (List.Perm.map sixPage (show [4, 0, 1, 2, 3].Perm [0, 1, 2, 3, 4] by decide))
  · rw [oneMem_look hpage (Nat.lt_trans hv (by decide)), if_pos (Nat.lt_one_iff.1 hv)]
    exact leaf_isLeaf hpage (by decide) (by decide)
  · rw [oneMem_look hpage h2, if_neg (Nat.ne_of_gt h1)]
  · rw [htab, hmap]
    exact space_empty oneMem_heap childMem_entries

theorem uvmcopy_forks_one : Pair (oneMem (sixPage 3)) (sixPage 0) (sixPage 4) 1 0 (fun _ => 0) (fun _ => 0) [] ∧
    wp (uvmcopy (sixPage 0) (sixPage 4) 1)
      (fun ok s' => Unseen (oneMem (sixPage 3)) s' (sixPage 0) 1 ∧
        Frame (oneMem (sixPage 3)) s' (tables (oneMem (sixPage 3)).bytes (sixPage 0) ++ (mapped (oneMem (sixPage 3)).bytes (sixPage 0) 0 1 ++ [])) ∧
        if ok then Forked s' (sixPage 0) (sixPage 4) 1 (up 1) (fun _ => 0) (fun _ => 0) []
        else Pair s' (sixPage 0) (sixPage 4) 1 0 (fun _ => 0) (fun _ => 0) [])
      (fun _ _ => 1 < up 1) (oneMem (sixPage 3)) := by
  refine ⟨oneMem_pair, uvmcopy_forks oneMem_pair ?_ ?_ ?_ ?_⟩
  · exact fun _ _ => rfl
  · exact fun _ _ => rfl
  · exact fun _ => rfl
  · exact fun _ => rfl

end Xv6.Vm
