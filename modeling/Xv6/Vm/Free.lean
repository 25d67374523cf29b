import Xv6.Vm.User
/-!
# Giving a page table back

`freewalk` frees the tables below a table entry by entry, and then the table. It
panics if a page is still mapped; `uvmfree` unmaps the user's pages first.
-/

namespace Xv6.Vm

open Bytes Hoare Radix List

/-- No page is mapped in the tree at `r`: the valid entries point to tables. -/
def Clear (b : Arr) : Nat → Nat → Prop
  | 0, r => ∀ i < 512, child (entries b r i) = none
  | d + 1, r => ∀ i < 512, ∀ c, child (entries b r i) = some c → pteFlags (entries b r i) = PTE_V ∧ Clear b d c

theorem child_some {e c : Nat} (h : child e = some c) : e &&& PTE_V ≠ 0 ∧ c = pte2pa e := by
  by_cases hv : e &&& PTE_V ≠ 0
  · rw [child_valid hv] at h
    exact ⟨hv, (Option.some.inj h).symm⟩
  · rw [child_invalid hv] at h
    cases h

theorem Clear.same {b b' : Arr} {d r : Nat} (h : Clear b d r) (hs : ∀ q ∈ tablesAt b d r, SamePage b b' q) :
    Clear b' d r := by
  induction d generalizing r with
  | zero =>
    intro i hi
    rw [entries_same (hs r (mem_nodes_self 0 r)) hi]
    exact h i hi
  | succ d ih =>
    intro i hi c hc
    rw [entries_same (hs r (mem_nodes_self _ r)) hi] at hc ⊢
    obtain ⟨hf, hd⟩ := h i hi c hc
    exact ⟨hf, ih hd fun q hq => hs q (mem_nodes_succ.2 (.inr ⟨i, hi, c, hc, hq⟩))⟩

/-- A page table that translates nothing. -/
theorem clear_of_look {b : Arr} {r : Nat} (hp : Plain b 2 r) (h : ∀ v < VPAGES, look b r v = 0) : Clear b 2 r := by
  intro i hi c hc
  refine ⟨hp r (mem_inner_succ.2 (.inl rfl)) i hi ((valid_iff _).1 (child_some hc).1), fun j hj t ht => ⟨?_, ?_⟩⟩
  · exact hp c (mem_inner_succ.2 (.inr ⟨i, hi, c, hc, mem_inner_succ.2 (.inl rfl)⟩)) j hj
      ((valid_iff _).1 (child_some ht).1)
  -- the page that the three indices lead to
  intro k hk
  obtain ⟨v, hv⟩ : ∃ v, v = (i * 512 + j) * 512 + k := ⟨_, rfl⟩
  obtain ⟨h0, h1, h2⟩ : px 0 (v * PGSIZE) = k ∧ px 1 (v * PGSIZE) = j ∧ px 2 (v * PGSIZE) = i := by
    simp only [px_eq, PGSIZE]
    omega
  have hfor : tableFor b (v * PGSIZE) 2 r = some t := by simp [find, h1, h2, hc, ht]
  have hl := h v (by simp only [VPAGES]; omega)
  rw [look_some hfor, h0] at hl
  rw [hl, child_zero]

/-! ## freewalk -/

/-- `free` frees the tables of trees of depth `d` in which no page is mapped. -/
def Frees (free : Nat → M Unit) (d : Nat) : Prop :=
  ∀ {c : Nat} {s : Mem} {R : List Nat}, Heap s (tablesAt s.bytes d c ++ R) → Clear s.bytes d c →
    wp (free c) (fun _ s' => Frame s s' R ∧ Heap s' R) (fun _ _ => False) s

section
variable {free : Nat → M Unit} {s : Mem} {d r i c : Nat} {R : List Nat}

theorem freeEntry_none (h : child (entries s.bytes r i) = none) :
    wp (freeEntry free r i) (fun _ s' => s' = s) (fun _ _ => False) s := by
  have hv : ¬ le64 s.bytes (r + 8 * i) &&& PTE_V ≠ 0 := fun hv => by
    rw [entries, child_valid hv] at h
    cases h
  unfold freeEntry load
  simp only [wp_bind, wp_get, wp_pure, wp_ite]
  exact ⟨fun h => absurd h.1 hv, fun _ => ⟨fun h => absurd h hv, fun _ => trivial⟩⟩

theorem freeEntry_table (hfree : Frees free d) (hi : i < 512) (hc : child (entries s.bytes r i) = some c)
    (hflags : pteFlags (entries s.bytes r i) = PTE_V) (hz : Clear s.bytes d c)
    (h : Heap s (tablesAt s.bytes d c ++ r :: R)) :
    wp (freeEntry free r i) (fun _ s' => Frame s s' R ∧ Heap s' (r :: R) ∧
      ∀ j < 512, j ≠ i → entries s'.bytes r j = entries s.bytes r j) (fun _ _ => False) s := by
  obtain ⟨hv, rfl⟩ := child_some hc
  unfold freeEntry load store
  simp only [wp_bind, wp_get, wp_pure, wp_ite, wp_throw, wp_modify]
  refine ⟨fun _ => (hfree h hz).imp ?_, fun hn => absurd ⟨hv, plain_flags hflags⟩ hn⟩
  rintro _ s₁ ⟨hf, h₁⟩
  have hr := mem_cons_self (a := r) (l := R)
  have hput : ∀ q, IsPage s₁.img.kend q → q ≠ r → SamePage s₁.bytes (put64 s₁.bytes (r + 8 * i) 0) q :=
    fun q hq hne => same_put64 (h₁.isPage hr).1 hq.1 hne (Nat.le_add_right _ _) (by simp only [PGSIZE]; omega)
  refine ⟨⟨hf.img, hf.fails, fun q hq => ?_⟩, h₁.write fun q hq hm => hput q hq fun he => hm (he ▸ hr),
    fun j hj hne => ?_⟩
  · have hq' : q ∈ r :: R := mem_cons_of_mem _ hq
    exact (hf.same q hq').trans (hput q (h₁.isPage hq') fun he => (nodup_cons.1 h₁.nodup).1 (he ▸ hq))
  · exact (le64_put64_other (by omega)).trans (entries_same (hf.same r hr) hj)

/-- The tables below entry `i` of `r`. -/
def below (b : Arr) (d r i : Nat) : List Nat := ((child (entries b r i)).map (tablesAt b d)).getD []

theorem below_none {b : Arr} (h : child (entries b r i) = none) : below b d r i = [] := by
  rw [below, h, Option.map_none, Option.getD_none]

theorem below_some {b : Arr} (h : child (entries b r i) = some c) : below b d r i = tablesAt b d c := by
  rw [below, h, Option.map_some, Option.getD_some]

theorem freeEntries_spec (hfree : Frees free d) {is : List Nat} (hn : is.Nodup) (hi : ∀ i ∈ is, i < 512)
    (hz : ∀ i ∈ is, ∀ c, child (entries s.bytes r i) = some c → pteFlags (entries s.bytes r i) = PTE_V ∧ Clear s.bytes d c)
    (h : Heap s (r :: (is.flatMap (below s.bytes d r) ++ R))) :
    wp (is.forM (freeEntry free r)) (fun _ s' => Frame s s' R ∧ Heap s' (r :: R)) (fun _ _ => False) s := by
  induction is generalizing s with
  | nil => exact (wp_pure _).2 ⟨.refl _ _, h⟩
  | cons i is ih =>
    obtain ⟨hni, hn⟩ := nodup_cons.1 hn
    rw [forall_mem_cons] at hi hz
    rw [flatMap_cons, append_assoc] at h
    show wp (freeEntry free r i >>= fun _ => is.forM (freeEntry free r)) _ _ s
    cases hc : child (entries s.bytes r i) with
    | none =>
      refine (freeEntry_none hc).seq ?_
      rintro _ _ rfl
      rw [below_none hc, nil_append] at h
      exact ih hn hi.2 hz.2 h
    | some c =>
      obtain ⟨hflags, hcl⟩ := hz.1 c hc
      rw [below_some hc] at h
      refine (freeEntry_table hfree hi.1 hc hflags hcl (h.perm perm_middle.symm)).seq ?_
      rintro _ s₁ ⟨hf, h₁, he⟩
      -- the other entries are as they were, and so are the tables below them
      have he : ∀ j ∈ is, entries s₁.bytes r j = entries s.bytes r j := fun j hj =>
        he j (hi.2 j hj) fun hji => hni (hji ▸ hj)
      have hsame : ∀ j ∈ is, ∀ c, child (entries s.bytes r j) = some c →
          ∀ q ∈ tablesAt s.bytes d c, SamePage s.bytes s₁.bytes q := fun j hj c hc q hq =>
        hf.left.same q (mem_flatMap.2 ⟨j, hj, by rwa [below_some hc]⟩)
      have hbelow : is.flatMap (below s₁.bytes d r) = is.flatMap (below s.bytes d r) := by
        refine flatMap_congr fun j hj => ?_
        have hj' := congrArg child (he j hj)
        cases hc : child (entries s.bytes r j) with
        | none => rw [below_none hc, below_none (hj'.trans hc)]
        | some c =>
          rw [below_some hc, below_some (hj'.trans hc)]
          exact tablesAt_same fun q hq => hsame j hj c hc q (inner_sub_nodes hq)
      refine (ih hn hi.2 (fun j hj c hc => ?_) (hbelow ▸ h₁)).imp fun _ s' hk => ⟨hf.right.trans hk.1, hk.2⟩
      rw [he j hj] at hc ⊢
      obtain ⟨hfl, hcl⟩ := hz.2 j hj c hc
      exact ⟨hfl, hcl.same (hsame j hj c hc)⟩

end

theorem freewalk_spec (d : Nat) : Frees (freewalk (d + 1)) d := by
  induction d with
  | zero =>
    intro r s R h hz
    unfold freewalk
    refine (wp_forM_range (I := fun _ t => t = s) rfl ?_).seq ?_
    · rintro i hi _ rfl
      exact freeEntry_none (hz i hi)
    · rintro _ _ rfl
      exact kfree_spec h
  | succ d ih =>
    intro r s R h hz
    unfold freewalk
    refine (freeEntries_spec ih nodup_range (fun i => mem_range.1) (fun i hi => hz i (mem_range.1 hi)) h).seq ?_
    rintro _ s₁ ⟨hf, h₁⟩
    exact (kfree_spec h₁).imp fun _ s' hk => ⟨hf.trans hk.1, hk.2⟩

theorem uvmfree_spec {s : Mem} {r sz : Nat} {R : List Nat} (h : Space s r (up sz) (fun _ => 0) R) (hsz : sz < 2 ^ 63) :
    wp (uvmfree r sz) (fun _ s' => Frame s s' R ∧ Heap s' R) (fun _ _ => False) s := by
  have hfree : ∀ s', Frame s s' R → Space s' r 0 (fun _ => 0) R →
      wp (freewalk 3 r) (fun _ s' => Frame s s' R ∧ Heap s' R) (fun _ _ => False) s' := by
    intro s' hf hs
    have hz := clear_of_look hs.owns.plain fun v hv => hs.rest v (Nat.zero_le v) hv
    exact (freewalk_spec 2 hs.owns.heap hz).imp fun _ t ht => ⟨hf.trans ht.1, ht.2⟩
  unfold uvmfree
  by_cases h0 : sz > 0
  · rw [if_pos h0, pgroundup_eq hsz, Nat.mul_div_cancel _ (by decide)]
    have hs := h.shrink (Nat.zero_le _) fun _ _ _ => rfl
    rw [Nat.zero_mul, Nat.sub_zero] at hs
    exact hs.seq fun _ s' ht => hfree s' ht.1 ht.2.1
  · obtain rfl : sz = 0 := by omega
    exact hfree s (.refl _ _) h

end Xv6.Vm
