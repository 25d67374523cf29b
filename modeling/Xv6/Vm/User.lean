import Xv6.Vm.Unmap
/-!
# User address spaces

`Space s r n top R` is the page table `r` of an address space in its surroundings:
the pages below `n` are mapped, each to a page of its own, and `top` gives the
PTEs of the others, which are 0 below `TRAPFRAME`. The functions of `vm.c` that
grow, shrink and copy user memory take one such space to another, whether or
not the allocator runs out of pages on the way.
-/

namespace Xv6.Vm

open Bytes Hoare Radix List

/-! ## Sizes -/

/-- The number of pages that `sz` bytes take. -/
def up (sz : Nat) : Nat := (sz + PGSIZE - 1) / PGSIZE

theorem pgroundup_eq {sz : Nat} (h : sz < 2 ^ 63) : pgroundup sz = up sz * PGSIZE := by
  unfold pgroundup up
  rw [Nat.mod_eq_of_lt (by simp only [PGSIZE]; omega)]

theorem up_mono {a b : Nat} (h : a ≤ b) : up a ≤ up b :=
  Nat.div_le_div_right (by omega)

theorem up_mul (n : Nat) : up (n * PGSIZE) = n := by
  simp only [up, PGSIZE]
  omega

/-- There are no more pages than `PHYSTOP` has room for. -/
def NPAGES : Nat := PHYSTOP / PGSIZE

theorem pageList_length (kend : Nat) : (pageList kend).length ≤ NPAGES := by
  unfold pageList NPAGES
  refine (length_filter_le _ _).trans ?_
  rw [length_map, length_range]

theorem Heap.length_le {s : Mem} {L : List Nat} (h : Heap s L) : L.length ≤ NPAGES := by
  obtain ⟨fl, -, hp⟩ := h
  have hlen := hp.length_eq
  rw [length_append] at hlen
  exact Nat.le_trans (by omega) (pageList_length s.img.kend)

theorem size_small {n : Nat} (h : n ≤ NPAGES) : n * PGSIZE < 2 ^ 63 :=
  Nat.lt_of_le_of_lt (Nat.mul_le_mul_right _ h) (by decide)

def TFPAGE : Nat := TRAPFRAME / PGSIZE

theorem npages_lt : NPAGES + 2 < TFPAGE ∧ TFPAGE < MAXVP := by decide

/-! ## Address spaces -/

structure Space (s : Mem) (r n : Nat) (top : Nat → Nat) (R : List Nat) : Prop where
  owns : Owns s r (mapped s.bytes r 0 n ++ R)
  user : ∀ v < n, IsLeaf (look s.bytes r v)
  rest : ∀ v, n ≤ v → v < VPAGES → look s.bytes r v = top v

theorem mapped_length (b : Arr) (r v n : Nat) : (mapped b r v n).length = n := by
  rw [mapped, length_map, length_range']

theorem mapped_append (b : Arr) (r v n k : Nat) : mapped b r v (n + k) = mapped b r v n ++ mapped b r (v + n) k := by
  rw [mapped, mapped, mapped, ← map_append, range'_append_1]

theorem mem_mapped {b : Arr} {r n v : Nat} (h : v < n) : pte2pa (look b r v) ∈ mapped b r 0 n :=
  mem_map.2 ⟨v, mem_range'_1.2 ⟨Nat.zero_le v, by omega⟩, rfl⟩

/-- The first `n` pages of the page table `r` are mapped as they were, to the same bytes. -/
def Same (s s' : Mem) (r n : Nat) : Prop :=
  ∀ v < n, look s'.bytes r v = look s.bytes r v ∧ SamePage s.bytes s'.bytes (pte2pa (look s.bytes r v))

theorem Same.refl (s : Mem) (r n : Nat) : Same s s r n := fun _ _ => ⟨rfl, .refl _ _⟩

theorem Same.mono {s s' : Mem} {r n k : Nat} (h : Same s s' r n) (hk : k ≤ n) : Same s s' r k := fun v hv =>
  h v (Nat.lt_of_lt_of_le hv hk)

theorem Same.trans {s s' s'' : Mem} {r n : Nat} (h : Same s s' r n) (h' : Same s' s'' r n) : Same s s'' r n := by
  intro v hv
  obtain ⟨h1, h2⟩ := h v hv
  obtain ⟨h3, h4⟩ := h' v hv
  rw [h1] at h4
  exact ⟨h3.trans h1, h2.trans h4⟩

theorem Same.of_frame {s s' : Mem} {r n : Nat} {R : List Nat} (hf : Frame s s' (mapped s.bytes r 0 n ++ R))
    (hl : ∀ v < n, look s'.bytes r v = look s.bytes r v) : Same s s' r n := fun v hv =>
  ⟨hl v hv, hf.same _ (mem_append_left _ (mem_mapped hv))⟩

/-- Neither the tables nor the pages of the space are touched. -/
theorem Same.of_untouched {s s' : Mem} {r n : Nat} {R : List Nat}
    (hf : Frame s s' (tables s.bytes r ++ (mapped s.bytes r 0 n ++ R))) : Same s s' r n :=
  .of_frame hf.right fun v _ => look_same hf.left.same v

/-- The page `v` of user memory is new: the user may do with it what they like, and it holds zeros. -/
def Fresh (s : Mem) (r v : Nat) : Prop :=
  pteFlags (look s.bytes r v) = PTE_W ||| PTE_X ||| PTE_R ||| PTE_U ||| PTE_V ∧
    ∀ i < PGSIZE, s.bytes (pte2pa (look s.bytes r v) + i) = 0

theorem Same.fresh {s s' : Mem} {r n v : Nat} (h : Same s s' r n) (hv : v < n) (hz : Fresh s r v) : Fresh s' r v := by
  obtain ⟨hl, hp⟩ := h v hv
  unfold Fresh
  rw [hl]
  refine ⟨hz.1, fun i hi => ?_⟩
  rw [hp _ (Nat.le_add_right _ _) (Nat.add_lt_add_left hi _)]
  exact hz.2 i hi

namespace Space
variable {s s' : Mem} {r n k : Nat} {top : Nat → Nat} {R R' : List Nat}

section
variable (h : Space s r n top R)
include h

theorem small : n ≤ NPAGES := by
  have hl := h.owns.heap.length_le
  rw [length_append, length_append, mapped_length] at hl
  omega

theorem frame (hf : Frame s s' (tables s.bytes r))
    (hs : Heap s' (tables s.bytes r ++ (mapped s.bytes r 0 n ++ R'))) : Space s' r n top R' := by
  have hlook := look_same hf.same
  refine ⟨h.owns.frame hf ?_, fun v hv => ?_, fun v h1 h2 => ?_⟩
  · rw [mapped_congr fun w _ _ => hlook w]
    exact hs
  · rw [hlook]
    exact h.user v hv
  · rw [hlook]
    exact h.rest v h1 h2

theorem unmapped (hk : k ≤ n) (htop : ∀ v, k ≤ v → v < n → top v = 0)
    (u : Unmapped s s' r k (n - k) (mapped s.bytes r 0 k ++ R)) : Space s' r k top R := by
  have hn := h.small
  have hp := npages_lt
  have hsame : ∀ w < k, look s'.bytes r w = look s.bytes r w := fun w hw => by
    rw [u.look w (page_lt (by omega)).2, if_neg (by omega)]
  refine ⟨?_, fun v hv => ?_, fun v h1 h2 => ?_⟩
  · rw [mapped_congr fun w _ hw => hsame w (by omega)]
    exact u.kept.owns h.owns
  · rw [hsame v hv]
    exact h.user v (by omega)
  · rw [u.look v h2]
    by_cases hv : v < n
    · rw [if_pos (by omega), htop v h1 hv]
    · rw [if_neg (by omega)]
      exact h.rest v (by omega) h2

theorem shrink (hk : k ≤ n) (htop : ∀ v, k ≤ v → v < n → top v = 0) :
    wp (uvmunmap r (k * PGSIZE) (n - k) true) (fun _ s' => Frame s s' R ∧ Space s' r k top R ∧ Same s s' r k)
      (fun _ _ => False) s := by
  have hn := h.small
  have hp := npages_lt
  have hsplit : mapped s.bytes r 0 n = mapped s.bytes r 0 k ++ mapped s.bytes r k (n - k) := by
    have := mapped_append s.bytes r 0 k (n - k)
    rwa [Nat.add_sub_cancel' hk, Nat.zero_add] at this
  have ho : Owns s r (freed true s.bytes r k (n - k) ++ (mapped s.bytes r 0 k ++ R)) := by
    refine h.owns.perm ?_
    rw [hsplit, ← append_assoc]
    exact perm_append_comm.append_right R
  refine (uvmunmap_spec ho.heap (by omega) fun w _ h2 => (h.user w (by omega)).mapping).imp fun _ s' u => ?_
  refine ⟨u.frame.right, h.unmapped hk htop u, .of_frame u.frame fun v hv => ?_⟩
  rw [u.look v (page_lt (by omega)).2, if_neg (by omega)]

theorem alloc :
    wp kalloc (fun mem s' => Frame s s' (tables s.bytes r ++ (mapped s.bytes r 0 n ++ R)) ∧
      (mem = 0 ∧ Space s' r n top R ∨ mem ≠ 0 ∧ Space s' r n top (mem :: R))) (fun _ _ => False) s := by
  refine (kalloc_spec h.owns.heap).imp ?_
  rintro mem s' ⟨hf, ⟨h0, hs, -⟩ | ⟨h0, -, -, hs⟩⟩
  · exact ⟨hf, .inl ⟨h0, h.frame hf.left hs⟩⟩
  · refine ⟨hf, .inr ⟨h0, h.frame hf.left (hs.perm ?_)⟩⟩
    rw [← append_assoc, ← append_assoc]
    exact perm_middle.symm

end

theorem heap_cons {mem : Nat} (h : Space s r n top (mem :: R)) :
    Heap s (mem :: (tables s.bytes r ++ (mapped s.bytes r 0 n ++ R))) := by
  refine h.owns.heap.perm ?_
  rw [← append_assoc, ← append_assoc]
  exact perm_middle

theorem release {mem : Nat} (h : Space s r n top (mem :: R)) :
    wp (kfree mem) (fun _ s' => Frame s s' (tables s.bytes r ++ (mapped s.bytes r 0 n ++ R)) ∧ Space s' r n top R)
      (fun _ _ => False) s := by
  refine (kfree_spec h.heap_cons).imp fun _ s' hk => ?_
  exact ⟨hk.1, h.frame hk.1.left hk.2⟩

theorem write {q : Nat} {b' : Arr} (h : Space s r n top R) (hq : q ∈ R)
    (hb : ∀ p, IsPage s.img.kend p → p ≠ q → SamePage s.bytes b' p) : Space { s with bytes := b' } r n top R := by
  have hL : q ∈ tables s.bytes r ++ (mapped s.bytes r 0 n ++ R) :=
    mem_append_right _ (mem_append_right _ hq)
  refine h.frame ⟨rfl, id, fun p hp => hb p (h.owns.heap.isPage (mem_append_left _ hp)) fun he => ?_⟩ ?_
  · exact h.owns.heap.apart (mem_append_right _ hq) (he ▸ hp)
  · exact h.owns.heap.write fun p hp hm => hb p hp fun he => hm (he ▸ hL)

theorem head_page {mem : Nat} (h : Space s r n top (mem :: R)) : IsPage s.img.kend mem :=
  h.heap_cons.isPage (mem_cons_self ..)

theorem fill {mem : Nat} {b' : Arr} (h : Space s r n top (mem :: R))
    (hb : ∀ p, p % PGSIZE = 0 → p ≠ mem → SamePage s.bytes b' p) :
    Frame s { s with bytes := b' } (tables s.bytes r ++ (mapped s.bytes r 0 n ++ R)) ∧
      Space { s with bytes := b' } r n top (mem :: R) := by
  have hn := (nodup_cons.1 h.heap_cons.nodup).1
  refine ⟨⟨rfl, id, fun q hq => hb q ?_ fun he => hn (he ▸ hq)⟩, h.write (mem_cons_self ..) fun p hp => hb p hp.1⟩
  exact (h.heap_cons.isPage (mem_cons_of_mem _ hq)).1

end Space

/-! ## uvmdealloc and uvmalloc -/

/-- No page is mapped between the user's and `TRAPFRAME`. -/
def Low (top : Nat → Nat) : Prop := ∀ v < TFPAGE, top v = 0

section Alloc
variable {s : Mem} {r n oldsz newsz : Nat} {top : Nat → Nat} {R : List Nat}

theorem sext32_small {n : Nat} (h : n ≤ NPAGES) : sext32 n = n := by
  have hp : NPAGES < 2 ^ 31 := by decide
  rw [sext32, Nat.mod_eq_of_lt (by omega), if_pos (by omega)]

theorem uvmdealloc_spec (h : Space s r (up oldsz) top R) (hlow : Low top) (hold : oldsz < 2 ^ 63) :
    wp (uvmdealloc r oldsz newsz)
      (fun res s' => res = min oldsz newsz ∧ Frame s s' R ∧ Space s' r (up res) top R ∧ Same s s' r (up res))
      (fun _ _ => False) s := by
  have hsmall := h.small
  have hp := npages_lt
  unfold uvmdealloc
  simp only [wp_bind, wp_ite, wp_pure]
  refine ⟨fun hge => ⟨(Nat.min_eq_left hge).symm, .refl _ _, h, .refl _ _ _⟩, fun hlt => ?_⟩
  have hlt : newsz < oldsz := Nat.lt_of_not_le hlt
  have hmin : newsz = min oldsz newsz := (Nat.min_eq_right (Nat.le_of_lt hlt)).symm
  have hle : up newsz ≤ up oldsz := up_mono (Nat.le_of_lt hlt)
  rw [pgroundup_eq hold, pgroundup_eq (Nat.lt_trans hlt hold)]
  refine ⟨fun _ => ?_, fun hge => ⟨hmin, .refl _ _, ?_, .refl _ _ _⟩⟩
  · rw [← Nat.sub_mul, Nat.mul_div_cancel _ (by decide), sext32_small (Nat.le_trans (Nat.sub_le _ _) hsmall)]
    refine (h.shrink hle fun v _ hv => hlow v (by omega)).imp fun _ s' hs => ?_
    exact ⟨hmin, hs⟩
  · have hge : up oldsz ≤ up newsz := by
      simp only [PGSIZE] at hge
      omega
    rw [Nat.le_antisymm hle hge]
    exact h

theorem leaf_page {kend pa perm : Nat} (hpa : IsPage kend pa) (hperm : perm < 2 ^ 10) :
    pte2pa (leaf pa perm) = pa ∧ pteFlags (leaf pa perm) = perm ||| PTE_V ∧ leaf pa perm % 2 = 1 := by
  obtain ⟨ha, -, hlt⟩ := hpa
  obtain ⟨h1, h2, h3, -⟩ := entry_decode perm hperm ha (Nat.lt_trans hlt (by decide))
  exact ⟨h1, h2, h3⟩

theorem leaf_isLeaf {kend pa perm : Nat} (hpa : IsPage kend pa) (hperm : perm < 2 ^ 10)
    (hrwx : perm &&& (PTE_R ||| PTE_W ||| PTE_X) ≠ 0) : IsLeaf (leaf pa perm) := by
  obtain ⟨-, h2, h3⟩ := leaf_page hpa hperm
  refine ⟨h3, ?_⟩
  rw [and_flags _ (by decide), h2, Nat.and_or_distrib_right]
  intro h0
  exact hrwx (Nat.or_eq_zero_iff.1 h0).1

theorem Space.map {mem perm : Nat} (h : Space s r n top (mem :: R)) (hlow : Low top) (hperm : perm < 2 ^ 10)
    (hrwx : perm &&& (PTE_R ||| PTE_W ||| PTE_X) ≠ 0) :
    wp (mappages r (n * PGSIZE) PGSIZE mem perm) (fun ok s' => Frame s s' (mapped s.bytes r 0 n ++ mem :: R) ∧
      (if ok then Space s' r (n + 1) top R ∧ look s'.bytes r n = leaf mem perm else Space s' r n top (mem :: R)) ∧
      Same s s' r n) (fun _ _ => False) s := by
  have hsmall := h.small
  have hp := npages_lt
  have hmem := h.head_page
  obtain ⟨ha, -, hlt⟩ := id hmem
  have hb : mem < 2 ^ 64 := Nat.lt_trans hlt (by decide)
  have hfree : ∀ w, n ≤ w → w ≤ n + 0 → look s.bytes r w % 2 = 0 := fun w h1 h2 => by
    rw [h.rest w h1 (page_lt (by omega)).2, hlow w (by omega)]
  have hspec := mappages_spec hperm h.owns.heap (show n + 0 < MAXVP by omega) ha hb hfree
  rw [Nat.zero_add, Nat.one_mul] at hspec
  refine hspec.imp fun ok s' m => ?_
  obtain ⟨k, hk, hlook⟩ := m.look
  have hbelow : ∀ v < n, look s'.bytes r v = look s.bytes r v := fun v hv => by
    rw [hlook v (page_lt (by omega)).2, if_neg (by omega)]
  have hmap : mapped s'.bytes r 0 n = mapped s.bytes r 0 n := mapped_congr fun w _ hw => hbelow w (by omega)
  refine ⟨m.frame, ?_, .of_frame m.frame hbelow⟩
  cases ok with
  | false =>
    obtain rfl : k = 0 := Nat.le_zero.1 hk
    have hsame : ∀ v < VPAGES, look s'.bytes r v = look s.bytes r v := fun v hv => by
      rw [hlook v hv, if_neg (by omega)]
    refine ⟨?_, fun v hv => ?_, fun v h1 h2 => ?_⟩
    · rw [hmap]
      exact m.kept.owns h.owns
    · rw [hbelow v hv]
      exact h.user v hv
    · rw [hsame v h2]
      exact h.rest v h1 h2
  | true =>
    obtain rfl : k = 0 + 1 := hk
    have hself : look s'.bytes r n = leaf mem perm := by
      rw [hlook n (page_lt (by omega)).2, if_pos (by omega), Nat.sub_self, Nat.zero_mul, Nat.add_zero,
        Nat.mod_eq_of_lt hb]
    refine ⟨⟨?_, fun v hv => ?_, fun v h1 h2 => ?_⟩, hself⟩
    · rw [mapped_append, hmap, Nat.zero_add, mapped_succ, hself, (leaf_page hmem hperm).1, append_assoc]
      exact m.kept.owns h.owns
    · rcases Nat.lt_succ_iff_lt_or_eq.1 hv with hv | rfl
      · rw [hbelow v hv]
        exact h.user v hv
      · rw [hself]
        exact leaf_isLeaf hmem hperm hrwx
    · rw [hlook v h2, if_neg (by omega)]
      exact h.rest v (by omega) h2

theorem Fresh.of_leaf {s' : Mem} {mem : Nat} (hmem : IsPage s.img.kend mem) (hz : ∀ i < PGSIZE, s.bytes (mem + i) = 0)
    (hsame : SamePage s.bytes s'.bytes mem)
    (hl : look s'.bytes r n = leaf mem (PTE_W ||| PTE_X ||| PTE_R ||| PTE_U)) : Fresh s' r n := by
  obtain ⟨h1, h2, -⟩ := leaf_page hmem (show PTE_W ||| PTE_X ||| PTE_R ||| PTE_U < 2 ^ 10 by decide)
  unfold Fresh
  rw [hl, h1, h2]
  refine ⟨rfl, fun i hi => ?_⟩
  rw [hsame _ (Nat.le_add_right _ _) (Nat.add_lt_add_left hi _)]
  exact hz i hi

/-- What `k` rounds of `uvmalloc` from page `m` on leave; the space had `n` pages before the first round. -/
structure Allocated (s s' : Mem) (r n m k : Nat) (top : Nat → Nat) (R : List Nat) (ok : Bool) : Prop where
  frame : Frame s s' R
  space : Space s' r (if ok then m + k else n) top R
  same : Same s s' r (if ok then m else n)
  fresh : ok = true → ∀ v, m ≤ v → v < m + k → Fresh s' r v

theorem Allocated.cons {s' s'' : Mem} {m k : Nat} {ok : Bool} (a : Allocated s' s'' r n (m + 1) k top R ok) (hm : n ≤ m)
    (hf : Frame s s' R) (hsame : Same s s' r m) (hz : Fresh s' r m) : Allocated s s'' r n m (k + 1) top R ok := by
  have hspace := a.space
  rw [Nat.add_right_comm, Nat.add_assoc] at hspace
  refine ⟨hf.trans a.frame, hspace, ?_, fun hok v h1 h2 => ?_⟩
  · cases ok with
    | true => exact hsame.trans (a.same.mono (Nat.le_succ m))
    | false => exact (hsame.mono hm).trans a.same
  · subst hok
    rcases Nat.eq_or_lt_of_le h1 with rfl | hlt
    · exact a.same.fresh (Nat.lt_succ_self _) hz
    · exact a.fresh rfl v hlt (by omega)

/-- The rounds of `uvmalloc`: all of them, or the space is as large as before. -/
theorem allocFrom_spec (hlow : Low top) : ∀ (k m : Nat) {s : Mem}, Space s r m top R → n ≤ m →
    wp (allocFrom r (n * PGSIZE) k (m * PGSIZE)) (fun ok s' => Allocated s s' r n m k top R ok)
      (fun _ _ => False) s := by
  intro k
  induction k with
  | zero =>
    intro m s h _
    exact (wp_pure _).2 ⟨.refl _ _, h, .refl _ _ _, fun _ v h1 h2 => absurd h2 (Nat.not_lt_of_le h1)⟩
  | succ k ih =>
    intro m s h hm
    have hp := npages_lt
    -- every way out without memory shrinks the space to what it was
    have hback : ∀ s', Frame s s' R → Same s s' r m → Space s' r m top R →
        wp (do let _ ← uvmdealloc r (m * PGSIZE) (n * PGSIZE); return false : M Bool)
          (fun ok t => Allocated s t r n m (k + 1) top R ok) (fun _ _ => False) s' := by
      intro s' hf hsame hs
      rw [wp_bind]
      have hs' : Space s' r (up (m * PGSIZE)) top R := by rw [up_mul]; exact hs
      refine (uvmdealloc_spec hs' hlow (size_small hs.small)).imp ?_
      rintro res t ⟨hres, hft, ht, hst⟩
      rw [Nat.min_eq_right (Nat.mul_le_mul_right _ hm)] at hres
      rw [hres, up_mul] at ht hst
      exact (wp_pure _).2 ⟨hf.trans hft, ht, (hsame.mono hm).trans hst, fun h => absurd h (by decide)⟩
    unfold allocFrom
    refine h.alloc.seq ?_
    rintro mem s₁ ⟨hf₁, ⟨rfl, h₁⟩ | ⟨h0, h₁⟩⟩
    · rw [if_pos rfl]
      exact hback s₁ hf₁.right.right (.of_untouched hf₁) h₁
    obtain ⟨hf₂, h₂⟩ := h₁.fill fun p hp hne => same_fill h₁.head_page.1 hp hne
    rw [if_neg h0, wp_bind, memset, wp_modify]
    refine (h₂.map hlow (by decide) (by decide)).seq ?_
    rintro ok s₃ ⟨hf₃, h₃, hsame₃⟩
    have hf := (hf₁.right.right.trans hf₂.right.right).trans (hf₃.sub fun q hq => by simp [hq])
    have hsame := (Same.of_untouched hf₁).trans ((Same.of_untouched hf₂).trans hsame₃)
    cases ok with
    | true =>
      have hz : Fresh s₃ r m := by
        refine .of_leaf h₂.head_page (fun i hi => ?_) (hf₃.same _ (by simp)) h₃.2
        exact if_pos ⟨Nat.le_add_right _ _, Nat.add_lt_add_left hi _⟩
      rw [if_pos rfl, ← Nat.add_one_mul]
      exact (ih (m + 1) h₃.1 (by omega)).imp fun ok s' a => a.cons hm hf hsame hz
    | false =>
      rw [if_neg (by decide)]
      refine h₃.release.seq fun _ s₄ hk => ?_
      exact hback s₄ (hf.trans hk.1.right.right) (hsame.trans (.of_untouched hk.1)) hk.2

theorem uvmalloc_spec (h : Space s r (up oldsz) top R) (hlow : Low top) (hold : oldsz < 2 ^ 63) :
    wp (uvmalloc r oldsz newsz)
      (fun res s' => Frame s s' R ∧ Same s s' r (up oldsz) ∧
        (res = max oldsz newsz ∧ Space s' r (up res) top R ∧ (∀ v, up oldsz ≤ v → v < up res → Fresh s' r v) ∨
          res = 0 ∧ Space s' r (up oldsz) top R))
      (fun _ _ => False) s := by
  unfold uvmalloc
  rw [wp_ite, wp_pure]
  refine ⟨fun hlt => ⟨.refl _ _, .refl _ _ _, .inl ⟨(Nat.max_eq_left (Nat.le_of_lt hlt)).symm, h, ?_⟩⟩, fun hge => ?_⟩
  · exact fun v h1 h2 => absurd h2 (Nat.not_lt_of_le h1)
  have hge : oldsz ≤ newsz := Nat.le_of_not_lt hge
  have hup := up_mono hge
  have hrounds : (newsz - up oldsz * PGSIZE + PGSIZE - 1) / PGSIZE = up newsz - up oldsz := by
    simp only [up, PGSIZE]
    omega
  rw [pgroundup_eq hold]
  dsimp only
  rw [hrounds]
  refine (allocFrom_spec hlow (up newsz - up oldsz) (up oldsz) h (Nat.le_refl _)).seq fun ok s' a => ?_
  cases ok with
  | true =>
    have hs := a.space
    have hz := a.fresh rfl
    rw [if_pos rfl, Nat.add_sub_cancel' hup] at hs
    rw [Nat.add_sub_cancel' hup] at hz
    rw [if_pos rfl, wp_pure]
    exact ⟨a.frame, a.same, .inl ⟨(Nat.max_eq_right hge).symm, hs, hz⟩⟩
  | false => exact (wp_pure _).2 ⟨a.frame, a.same, .inr ⟨rfl, a.space⟩⟩

end Alloc

/-! ## uvmcreate and uvmfree -/

theorem space_empty {s : Mem} {r : Nat} {R : List Nat} (h : Heap s (r :: R))
    (hz : ∀ i < 512, entries s.bytes r i = 0) : Space s r 0 (fun _ => 0) R := by
  have hnone : ∀ i < 512, child (entries s.bytes r i) = none := fun i hi => by
    rw [hz i hi]
    exact child_zero
  have htab : tables s.bytes r = [r] := nodes_empty hnone
  refine ⟨⟨?_, fun q hq i hi he => ?_⟩, fun v hv => absurd hv (Nat.not_lt_zero v), fun v _ _ => look_none ?_⟩
  · rw [htab]
    exact h
  · have hq : q ∈ tables s.bytes r := inner_sub_nodes hq
    rw [htab, mem_singleton] at hq
    rw [hq, hz i hi] at he
    exact absurd he (by decide)
  · rw [tableFor_succ, hnone _ (px_lt _ _), Option.bind_none]

theorem uvmcreate_spec {s : Mem} {R : List Nat} (h : Heap s R) :
    wp uvmcreate (fun r s' => Frame s s' R ∧ (r = 0 ∧ Heap s' R ∨ r ≠ 0 ∧ Space s' r 0 (fun _ => 0) R))
      (fun _ _ => False) s := by
  unfold uvmcreate
  refine (kalloc_spec h).seq ?_
  rintro r s₁ ⟨hf, ⟨rfl, h₁, -⟩ | ⟨h0, hr, hrR, h₁⟩⟩
  · exact (wp_pure _).2 ⟨hf, .inl ⟨rfl, h₁⟩⟩
  rw [if_neg h0, wp_bind, memset, wp_modify, wp_pure]
  have hsame : ∀ q, q % PGSIZE = 0 → q ≠ r → SamePage s₁.bytes (fill s₁.bytes r PGSIZE 0) q := fun q hq hne =>
    same_fill hr.1 hq hne
  refine ⟨hf.trans ⟨rfl, id, fun q hq => hsame q (h.isPage hq).1 fun he => hrR (he ▸ hq)⟩, .inr ⟨h0, ?_⟩⟩
  refine space_empty (h₁.write fun q hq hm => ?_) fun i hi => entries_zero hi
  exact hsame q hq.1 fun he => hm (he ▸ mem_cons_self ..)

/-! ## uvmcopy -/

theorem same_move {b : Arr} {p q : Nat} (src : Nat) (hp : p % PGSIZE = 0) (hq : q % PGSIZE = 0) (hne : q ≠ p) :
    SamePage b (move b p src PGSIZE) q := by
  intro i h1 h2
  have := pages_apart hp hq (Ne.symm hne)
  exact move_other (by omega)

section Copy
variable {old new : Nat} {top : Nat → Nat} {R : List Nat}

/-- The page table that is copied from: it is part of the surroundings, and has the first `n` pages mapped but not
the next one. -/
structure Source (s : Mem) (old n : Nat) (R : List Nat) : Prop where
  tables : ∀ q ∈ tables s.bytes old, q ∈ R
  nodup : (Vm.tables s.bytes old).Nodup
  plain : Plain s.bytes 2 old
  leaves : ∀ v < n, IsLeaf (look s.bytes old v)
  pages : ∀ v < n, pte2pa (look s.bytes old v) ∈ R
  stop : look s.bytes old n = 0

section
variable {s s' : Mem} {n v : Nat}

theorem Source.look_eq (h : Source s old n R) (hf : Frame s s' R) (v : Nat) : look s'.bytes old v = look s.bytes old v :=
  look_same (fun q hq => hf.same q (h.tables q hq)) v

theorem Source.same (h : Source s old n R) (hf : Frame s s' R) : Same s s' old n := fun v hv =>
  ⟨h.look_eq hf v, hf.same _ (h.pages v hv)⟩

theorem Source.frame (h : Source s old n R) (hf : Frame s s' R) : Source s' old n R := by
  have hsame : ∀ q ∈ Vm.tables s.bytes old, SamePage s.bytes s'.bytes q := fun q hq => hf.same q (h.tables q hq)
  refine ⟨fun q hq => ?_, ?_, plain_same hsame h.plain, fun v hv => ?_, fun v hv => ?_, ?_⟩
  · rw [tables_same hsame] at hq
    exact h.tables q hq
  · rw [tables_same hsame]
    exact h.nodup
  · rw [h.look_eq hf]
    exact h.leaves v hv
  · rw [h.look_eq hf]
    exact h.pages v hv
  · rw [h.look_eq hf]
    exact h.stop

theorem Source.owns {L : List Nat} (h : Source s old n R) (hL : Heap s L) (hR : ∀ q ∈ R, q ∈ L) :
    ∃ L', Owns s old L' := by
  obtain ⟨l, hl, hsub⟩ := subperm_of_subset h.nodup fun q hq => hR q (h.tables q hq)
  obtain ⟨L', hp⟩ := hsub.exists_perm_append
  exact ⟨L', hL.perm (hp.trans (hl.append_right L')), h.plain⟩

/-- The page `v` of one table has the flags and the bytes of the other's. -/
def CopyOf (s : Mem) (old new v : Nat) : Prop :=
  pteFlags (look s.bytes new v) = pteFlags (look s.bytes old v) ∧
    ∀ i < PGSIZE, s.bytes (pte2pa (look s.bytes new v) + i) = s.bytes (pte2pa (look s.bytes old v) + i)

theorem CopyOf.same {k : Nat} (h : CopyOf s old new v) (ho : Same s s' old n) (hn : Same s s' new k) (hv : v < n)
    (hk : v < k) : CopyOf s' old new v := by
  obtain ⟨ho, hpo⟩ := ho v hv
  obtain ⟨hn, hpn⟩ := hn v hk
  unfold CopyOf
  rw [ho, hn]
  refine ⟨h.1, fun i hi => ?_⟩
  rw [hpo _ (Nat.le_add_right _ _) (Nat.add_lt_add_left hi _), hpn _ (Nat.le_add_right _ _) (Nat.add_lt_add_left hi _)]
  exact h.2 i hi

theorem flags_valid {e : Nat} (h : e % 2 = 1) : pteFlags e ||| PTE_V = pteFlags e := by
  rw [pteFlags_eq]
  refine Nat.eq_of_testBit_eq fun i => ?_
  rw [Nat.testBit_or, show PTE_V = 2 ^ 0 from rfl, Nat.testBit_two_pow]
  by_cases hi : i = 0
  · subst hi
    have hbit : (e % 2 ^ 10).testBit 0 = true := by
      rw [Nat.testBit_zero, decide_eq_true_iff]
      omega
    rw [hbit, Bool.true_or]
  · rw [decide_eq_false fun h => hi h.symm, Bool.or_false]

theorem CopyOf.of_leaf {mem : Nat} (hmem : IsPage s.img.kend mem) (hv : look s'.bytes old v % 2 = 1)
    (hc : ∀ i < PGSIZE, s'.bytes (mem + i) = s'.bytes (pte2pa (look s'.bytes old v) + i))
    (hl : look s'.bytes new v = leaf mem (pteFlags (look s'.bytes old v))) : CopyOf s' old new v := by
  have hflags : pteFlags (look s'.bytes old v) < 2 ^ 10 := by
    rw [pteFlags_eq]
    exact Nat.mod_lt _ (by decide)
  obtain ⟨h1, h2, -⟩ := leaf_page hmem hflags
  unfold CopyOf
  rw [hl, h1, h2, flags_valid hv]
  exact ⟨rfl, hc⟩

/-- What `k` rounds of `uvmcopy` from page `m` on leave, of `n` pages to copy from. -/
structure Copied (s s' : Mem) (old new n m k : Nat) (top : Nat → Nat) (R : List Nat) (ok : Bool) : Prop where
  frame : Frame s s' R
  space : Space s' new (if ok then m + k else 0) top R
  same : ok = true → Same s s' new m
  within : ok = true → m + k ≤ n
  copies : ok = true → ∀ v, m ≤ v → v < m + k → CopyOf s' old new v

theorem Copied.cons {s'' : Mem} {m k : Nat} {ok : Bool} (c : Copied s' s'' old new n (m + 1) k top R ok)
    (hsrc : Source s' old n R) (hf : Frame s s' R) (hsame : Same s s' new m) (hm : m < n) (hz : CopyOf s' old new m) :
    Copied s s'' old new n m (k + 1) top R ok := by
  have hspace := c.space
  rw [Nat.add_right_comm, Nat.add_assoc] at hspace
  refine ⟨hf.trans c.frame, hspace, fun hok => ?_, fun hok => ?_, fun hok v h1 h2 => ?_⟩
  · exact hsame.trans ((c.same hok).mono (Nat.le_succ m))
  · have := c.within hok
    omega
  · rcases Nat.eq_or_lt_of_le h1 with rfl | hlt
    · exact hz.same (hsrc.same c.frame) (c.same hok) hm (Nat.lt_succ_self _)
    · exact c.copies hok v hlt (by omega)

end

/-- The rounds of `uvmcopy`: all of them, or the new space is empty again. It panics only if it is told to copy more
pages than there are. -/
theorem copyFrom_spec {n : Nat} (hlow : Low top) (hn : n < MAXVP) : ∀ (k m : Nat) {s : Mem}, Space s new m top R →
    Source s old n R → m ≤ n →
    wp (copyFrom old new k (m * PGSIZE)) (fun ok s' => Copied s s' old new n m k top R ok) (fun _ _ => n < m + k) s := by
  intro k
  induction k with
  | zero =>
    intro m s h _ hm
    exact (wp_pure _).2 ⟨.refl _ _, h, fun _ => .refl _ _ _, fun _ => hm, fun _ v h1 h2 =>
      absurd h2 (Nat.not_lt_of_le h1)⟩
  | succ k ih =>
    intro m s h hsrc hm
    have hp := npages_lt
    have hsmall := h.small
    -- every way out without memory unmaps what has been copied
    have hback : ∀ s', Frame s s' R → Space s' new m top R →
        wp (do uvmunmap new 0 (m * PGSIZE / PGSIZE) true; return false : M Bool)
          (fun ok t => Copied s t old new n m (k + 1) top R ok) (fun _ _ => n < m + (k + 1)) s' := by
      intro s' hf hs
      have hsh := hs.shrink (Nat.zero_le _) fun v _ hv => hlow v (by omega)
      rw [Nat.zero_mul, Nat.sub_zero] at hsh
      rw [wp_bind, Nat.mul_div_cancel _ (by decide)]
      refine hsh.total fun _ t ht => (wp_pure _).2 ⟨hf.trans ht.1, ht.2.1, ?_, ?_, ?_⟩
      · exact fun h => absurd h (by decide)
      · exact fun h => absurd h (by decide)
      · exact fun h => absurd h (by decide)
    obtain ⟨L, hown⟩ := hsrc.owns h.owns.heap fun q hq => mem_append_right _ (mem_append_right _ hq)
    unfold copyFrom
    rw [wp_bind]
    refine (walk_find hown.heap (show m < MAXVP by omega)).total ?_
    rintro a s' ⟨rfl, hw⟩
    rcases Nat.eq_or_lt_of_le hm with rfl | hmn
    · -- the parent has no such page
      have hend : m < m + (k + 1) := by omega
      obtain ⟨rfl, -⟩ | ⟨ha, t, ht, rfl⟩ := hw
      · rw [if_pos rfl, wp_bind, wp_throw]
        exact hend
      · have he : le64 s'.bytes (t + 8 * px 0 (m * PGSIZE)) = 0 := by
          have := hsrc.stop
          rwa [look_some ht] at this
        dsimp only
        rw [if_neg ha, wp_bind, load, wp_bind, wp_get, wp_pure, he, if_pos (by decide), wp_bind, wp_throw]
        exact hend
    have hleaf := hsrc.leaves m hmn
    obtain ⟨-, h0⟩ | ⟨ha, t, ht, rfl⟩ := hw
    · rw [h0] at hleaf
      exact absurd hleaf.1 (by decide)
    have he : le64 s'.bytes (t + 8 * px 0 (m * PGSIZE)) = look s'.bytes old m := by
      rw [look_some ht]
      rfl
    have hvalid : look s'.bytes old m &&& PTE_V ≠ 0 := (valid_iff _).2 hleaf.1
    dsimp only
    rw [if_neg ha, wp_bind, load, wp_bind, wp_get, wp_pure, he, if_neg hvalid, wp_bind]
    refine h.alloc.total ?_
    rintro mem s₁ ⟨hf₁, ⟨rfl, h₁⟩ | ⟨hmem, h₁⟩⟩
    · rw [if_pos rfl]
      exact hback s₁ hf₁.right.right h₁
    obtain ⟨hf₂, h₂⟩ := h₁.fill fun p hp hne =>
      same_move (pte2pa (look s'.bytes old m)) h₁.head_page.1 hp hne
    have hflags : pteFlags (look s'.bytes old m) < 2 ^ 10 := by
      rw [pteFlags_eq]
      exact Nat.mod_lt _ (by decide)
    have hrwx := hleaf.2
    rw [and_flags _ (by decide)] at hrwx
    rw [if_neg hmem, wp_bind, memmove, wp_modify, wp_bind]
    refine (h₂.map hlow hflags hrwx).total ?_
    rintro ok s₃ ⟨hf₃, h₃, hsame₃⟩
    have hf₃R : Frame _ s₃ R := hf₃.sub fun q hq => by simp [hq]
    have hf := (hf₁.right.right.trans hf₂.right.right).trans hf₃R
    cases ok with
    | true =>
      have hsrc₃ := hsrc.frame hf
      have hsame := (Same.of_untouched hf₁).trans ((Same.of_untouched hf₂).trans hsame₃)
      have hpa := hsrc.pages m hmn
      have hz : CopyOf s₃ old new m := by
        refine .of_leaf h₂.head_page (hsrc₃.leaves m hmn).1 (fun i hi => ?_) ?_
        · rw [hsrc.look_eq hf, hf₃.same mem (by simp) _ (Nat.le_add_right _ _) (Nat.add_lt_add_left hi _),
            hf₃R.same _ hpa _ (Nat.le_add_right _ _) (Nat.add_lt_add_left hi _),
            hf₂.right.right.same _ hpa _ (Nat.le_add_right _ _) (Nat.add_lt_add_left hi _)]
          exact move_self hi
        · rw [hsrc.look_eq hf]
          exact h₃.2
      rw [if_pos rfl, ← Nat.add_one_mul]
      refine (ih (m + 1) h₃.1 hsrc₃ hmn).mono (fun ok s₄ c => c.cons hsrc₃ hf hsame hmn hz) fun _ _ he => ?_
      omega
    | false =>
      rw [if_neg (by decide), wp_bind]
      refine h₃.release.total fun _ s₄ hk => ?_
      exact hback s₄ (hf.trans hk.1.right.right) hk.2

theorem uvmcopy_spec {s : Mem} {n sz : Nat} (hlow : Low top) (hn : n < MAXVP) (h : Space s new 0 top R)
    (hsrc : Source s old n R) :
    wp (uvmcopy old new sz) (fun ok s' => Copied s s' old new n 0 (up sz) top R ok) (fun _ _ => n < up sz) s := by
  have hs := copyFrom_spec hlow hn (up sz) 0 h hsrc (Nat.zero_le n)
  rw [Nat.zero_mul] at hs
  exact hs.mono (fun _ _ c => c) fun _ _ he => by omega

end Copy

/-! ## Access to user memory -/

section Access
variable {s : Mem} {r n : Nat} {top : Nat → Nat} {R : List Nat}

/-- The user has no access to the pages above. -/
def Guarded (top : Nat → Nat) : Prop := ∀ v, top v &&& PTE_U = 0

theorem same_blit {b : Arr} {p q off : Nat} {src : List UInt8} (hp : p % PGSIZE = 0) (hq : q % PGSIZE = 0) (hne : q ≠ p)
    (hend : off + src.length ≤ PGSIZE) : SamePage b (blit b (p + off) src) q := by
  intro i h1 h2
  have := pages_apart hp hq (Ne.symm hne)
  exact blit_other (by omega)

theorem pgrounddown_eq (a : Nat) : pgrounddown a = a / PGSIZE * PGSIZE := rfl

end Access

end Xv6.Vm
