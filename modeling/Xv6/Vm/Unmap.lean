import Xv6.Vm.Map
/-!
# Taking mappings away

`uvmunmap` clears PTEs and, if asked to, frees the pages they map.
-/

namespace Xv6.Vm

open Bytes Hoare Radix

/-- A valid PTE of a mapped page. -/
def IsLeaf (e : Nat) : Prop := e % 2 = 1 ∧ e &&& (PTE_R ||| PTE_W ||| PTE_X) ≠ 0

theorem and_flags (e : Nat) {m : Nat} (hm : m = 0x3FF &&& m) : e &&& m = pteFlags e &&& m := by
  rw [pteFlags, Nat.and_assoc, ← hm]

theorem plain_flags {e : Nat} (h : pteFlags e = PTE_V) : e &&& (PTE_R ||| PTE_W ||| PTE_X) = 0 := by
  rw [and_flags e (by decide), h]
  decide

theorem IsLeaf.flags {e : Nat} (h : IsLeaf e) : pteFlags e ≠ PTE_V := fun he => h.2 (plain_flags he)

/-- What `uvmunmap` takes for the PTE of a mapped page. -/
def Mapping (e : Nat) : Prop := e % 2 = 1 ∧ pteFlags e ≠ PTE_V

theorem IsLeaf.mapping {e : Nat} (h : IsLeaf e) : Mapping e := ⟨h.1, h.flags⟩

/-- The pages that `n` virtual pages from `v` on are mapped to. -/
def mapped (b : Arr) (r v n : Nat) : List Nat := (List.range' v n).map fun w => pte2pa (look b r w)

theorem mapped_succ (b : Arr) (r v n : Nat) : mapped b r v (n + 1) = pte2pa (look b r v) :: mapped b r (v + 1) n := by
  rw [mapped, List.range'_succ, List.map_cons]
  rfl

theorem mapped_congr {b b' : Arr} {r v n : Nat} (h : ∀ w, v ≤ w → w < v + n → look b' r w = look b r w) :
    mapped b' r v n = mapped b r v n := by
  refine List.map_congr_left fun w hw => ?_
  obtain ⟨h1, h2⟩ := List.mem_range'_1.1 hw
  rw [h w h1 h2]

/-! ## uvmunmap -/

section Unmap
variable {s : Mem} {r v n : Nat} {R : List Nat} {doFree : Bool}

/-- The pages that go with the mappings. -/
def freed (doFree : Bool) (b : Arr) (r v n : Nat) : List Nat := if doFree then mapped b r v n else []

theorem unmapPage_spec (h : Heap s (tables s.bytes r ++ (freed doFree s.bytes r v 1 ++ R))) (hv : v < MAXVP)
    (hleaf : Mapping (look s.bytes r v)) :
    wp (unmapPage r doFree (v * PGSIZE)) (fun _ s' => Put s s' r v 0 R) (fun _ _ => False) s := by
  unfold unmapPage
  refine (walk_find h hv).seq ?_
  rintro a s' ⟨rfl, ⟨-, h0⟩ | ⟨ha, t, ht, rfl⟩⟩
  · rw [h0] at hleaf
    exact absurd hleaf.1 (by decide)
  have hold : le64 s'.bytes (t + 8 * px 0 (v * PGSIZE)) = look s'.bytes r v := by
    rw [look_some ht]
    rfl
  have hvalid : look s'.bytes r v &&& PTE_V ≠ 0 := (valid_iff _).2 hleaf.1
  unfold load store
  simp only [wp_bind, wp_ite, wp_pure, wp_get, wp_throw, wp_modify, hold]
  refine ⟨fun h0 => absurd h0 ha, fun _ => ⟨fun h0 => absurd h0 hvalid, fun _ =>
    ⟨fun h0 => absurd h0 hleaf.2, fun _ => ?_⟩⟩⟩
  cases doFree with
  | false => exact ⟨fun h => absurd h (by decide), fun _ => h.put (page_lt hv).2 (by decide) ht⟩
  | true =>
    refine ⟨fun _ => ?_, fun h => absurd rfl h⟩
    have hheap : Heap s' (pte2pa (look s'.bytes r v) :: (tables s'.bytes r ++ R)) := h.perm List.perm_middle
    refine (kfree_spec hheap).imp ?_
    rintro _ s₁ ⟨hf, h₁⟩
    have htab : tables s₁.bytes r = tables s'.bytes r := tables_same hf.left.same
    have ho : Heap s₁ (tables s₁.bytes r ++ R) := by rwa [htab]
    have ht₁ : tableFor s₁.bytes (v * PGSIZE) 2 r = some t := by
      rw [← ht]
      exact tableFor_same fun q hq => hf.left.same q (inner_sub_nodes hq)
    have p := ho.put (page_lt hv).2 (show 0 < 2 ^ 64 by decide) ht₁
    refine ⟨hf.right.trans p.frame, ⟨p.kept.heap, fun ok hv hi => p.kept.flags ok hv (hi.same fun q hq => ?_)⟩,
      p.tables.trans htab, fun va => ?_, fun w hw => ?_⟩
    · exact hf.left.same q (inner_sub_nodes hq)
    · rw [p.tableFor]
      exact tableFor_same fun q hq => hf.left.same q (inner_sub_nodes hq)
    · rw [p.look w hw, look_same hf.left.same]

/-- The `n` pages from `v` on are not mapped any more; nothing else has changed. -/
structure Unmapped (s s' : Mem) (r v n : Nat) (R : List Nat) : Prop where
  frame : Frame s s' R
  kept : Kept s s' r R
  tables : tables s'.bytes r = Vm.tables s.bytes r
  look : ∀ w < VPAGES, look s'.bytes r w = if v ≤ w ∧ w < v + n then 0 else Vm.look s.bytes r w

theorem freed_succ (doFree : Bool) (b : Arr) (r v n : Nat) :
    freed doFree b r v (n + 1) = freed doFree b r v 1 ++ freed doFree b r (v + 1) n := by
  cases doFree with
  | false => rfl
  | true =>
    show mapped b r v (n + 1) = mapped b r v 1 ++ mapped b r (v + 1) n
    rw [mapped_succ, mapped_succ]
    rfl

theorem freed_congr {b b' : Arr} (h : ∀ w, v ≤ w → w < v + n → look b' r w = look b r w) :
    freed doFree b' r v n = freed doFree b r v n := by
  rw [freed, freed, mapped_congr h]

theorem unmapFrom_spec : ∀ (n v : Nat) {s : Mem}, Heap s (tables s.bytes r ++ (freed doFree s.bytes r v n ++ R)) →
    v + n ≤ MAXVP → (∀ w, v ≤ w → w < v + n → Mapping (look s.bytes r w)) →
      wp (unmapFrom r doFree n (v * PGSIZE)) (fun _ s' => Unmapped s s' r v n R) (fun _ _ => False) s := by
  intro n
  induction n with
  | zero =>
    intro v s h hv hleaf
    have h : Heap s (tables s.bytes r ++ R) := by
      cases doFree <;> exact h
    refine (wp_pure _).2 ⟨.refl _ _, ⟨h, fun _ _ => id⟩, rfl, fun w _ => ?_⟩
    rw [if_neg (by omega)]
  | succ n ih =>
    intro v s h hv hleaf
    rw [freed_succ, List.append_assoc] at h
    unfold unmapFrom
    refine (unmapPage_spec h (by omega) (hleaf v (Nat.le_refl _) (by omega))).seq fun _ s₁ p => ?_
    have hlook : ∀ w, v + 1 ≤ w → w < v + 1 + n → look s₁.bytes r w = look s.bytes r w := fun w h1 h2 => by
      rw [p.look w (page_lt (by omega)).2, if_neg (by omega)]
    have hheap := p.kept.heap
    rw [← freed_congr hlook] at hheap
    rw [← Nat.add_one_mul]
    refine (ih (v + 1) hheap (by omega) fun w h1 h2 => ?_).imp fun _ s' u => ?_
    · rw [hlook w h1 h2]
      exact hleaf w (by omega) (by omega)
    · refine ⟨p.frame.right.trans u.frame, p.kept.trans u.kept, u.tables.trans p.tables, fun w hw => ?_⟩
      rw [u.look w hw, p.look w hw]
      by_cases h1 : v + 1 ≤ w ∧ w < v + 1 + n
      · rw [if_pos h1, if_pos (by omega)]
      · rw [if_neg h1]
        by_cases h2 : w = v
        · rw [if_pos h2, if_pos (by omega)]
        · rw [if_neg h2, if_neg (by omega)]

theorem unmap_rounds {v n : Nat} (hv : v + n ≤ MAXVP) :
    ((v * PGSIZE + n * PGSIZE) % 2 ^ 64 - v * PGSIZE) / PGSIZE = n := by
  simp only [PGSIZE, MAXVP] at *
  omega

theorem uvmunmap_spec (h : Heap s (tables s.bytes r ++ (freed doFree s.bytes r v n ++ R))) (hv : v + n ≤ MAXVP)
    (hleaf : ∀ w, v ≤ w → w < v + n → Mapping (look s.bytes r w)) :
    wp (uvmunmap r (v * PGSIZE) n doFree) (fun _ s' => Unmapped s s' r v n R) (fun _ _ => False) s := by
  unfold uvmunmap
  simp only [wp_bind, wp_ite, wp_throw]
  refine ⟨fun hne => absurd (Nat.mul_mod_left v PGSIZE) hne, fun _ => ?_⟩
  rw [unmap_rounds hv]
  exact unmapFrom_spec n v h hv hleaf

end Unmap

end Xv6.Vm
