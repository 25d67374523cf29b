import Xv6.Vm.Unmap
/-!
# A page table refines a finite map

`translation s r` is the map that the page table `r` stands for, read off by
following `walk` without allocation. `walk` with allocation does not change it,
`mappages` adds a range to it or an initial part of the range, and `uvmunmap`
takes a range away.
-/

namespace Xv6.Vm

open Bytes Hoare Radix List

/-- What a PTE says: the physical page and the flags, if it is valid. -/
def decode (pte : Nat) : Option (Nat × Nat) :=
  if pte &&& PTE_V = 0 then none else some (pte2pa pte, pteFlags pte)

/-- The translation of a virtual address, found by `walk` without allocation. -/
def translation (s : Mem) (r va : Nat) : Option (Nat × Nat) :=
  match exec (walk r va false) s with
  | (.ok pte, s') => if pte = 0 then none else decode (le64 s'.bytes pte)
  | (.error _, _) => none

/-- The addresses the map is about. -/
def IsVpage (va : Nat) : Prop := va % PGSIZE = 0 ∧ va < MAXVA

/-- The nodes of the tree at `r` are pages, pairwise distinct and apart from the free pages and from those in `R`, the
other pages in use. Its inner entries have none of R, W and X. -/
structure WellFormed (s : Mem) (r : Nat) (R : List Nat) : Prop where
  heap : Heap s (tables s.bytes r ++ R)
  inner : Inner (fun flags => flags &&& (PTE_R ||| PTE_W ||| PTE_X) = 0) s.bytes 2 r

/-- The physical pages of the `n` virtual pages from `va` on. -/
def physical (s : Mem) (r va n : Nat) : List Nat :=
  (List.range n).filterMap fun i => (translation s r (va + i * PGSIZE)).map Prod.fst

/-- `va` is mapped to a page: with V alone the entry would point to a table, and there is none below the last level. -/
def IsMapped (s : Mem) (r va : Nat) : Prop := ∃ pa flags, translation s r va = some (pa, flags) ∧ flags ≠ PTE_V

/-- `walk` with allocation leaves the map alone. It returns 0 if it has run out of pages, and otherwise the entry that
`walk` without allocation finds from then on. -/
def WalkKeeps (s : Mem) (r : Nat) (R : List Nat) (va : Nat) : Prop :=
  wp (walk r va true)
    (fun a s' => WellFormed s' r R ∧ (∀ p, IsVpage p → translation s' r p = translation s r p) ∧
      (a = 0 ∧ Short s (tables s.bytes r ++ R) 2 ∨ a ≠ 0 ∧ exec (walk r va false) s' = (.ok a, s')))
    (fun _ _ => False) s

/-- `mappages` adds the pages from `PGROUNDDOWN(va)` to `PGROUNDDOWN(va+size-1)`, or on failure those of them below
some `stop`. -/
def MappagesAdds (s : Mem) (r : Nat) (R : List Nat) (va size pa perm : Nat) : Prop :=
  wp (mappages r va size pa perm)
    (fun ok s' => WellFormed s' r R ∧
      ∃ stop, (if ok then stop = pgrounddown (va + size - 1) + PGSIZE else stop ≤ pgrounddown (va + size - 1)) ∧
        ∀ p, IsVpage p → translation s' r p =
          if pgrounddown va ≤ p ∧ p < stop then some ((pa + (p - pgrounddown va)) % 2 ^ 64, perm ||| PTE_V)
          else translation s r p)
    (fun _ _ => False) s

/-- `uvmunmap` takes the mappings of the pages from `va` on away; the pages in `R` are in use after it. -/
def UvmunmapRemoves (s : Mem) (r : Nat) (R : List Nat) (va npages : Nat) (doFree : Bool) : Prop :=
  wp (uvmunmap r va npages doFree)
    (fun _ s' => WellFormed s' r R ∧ ∀ p, IsVpage p → translation s' r p =
      if va ≤ p ∧ p < va + npages * PGSIZE then none else translation s r p)
    (fun _ _ => False) s

section Decode
variable {e : Nat}

theorem decode_zero : decode 0 = none := by decide

theorem decode_valid (h : e % 2 = 1) : decode e = some (pte2pa e, pteFlags e) :=
  if_neg ((valid_iff e).2 h)

theorem decode_eq_none : decode e = none ↔ e % 2 = 0 := by
  have hv := valid_iff e
  unfold decode
  split <;> simp only [reduceCtorEq, true_iff, false_iff] <;> omega

theorem decode_leaf {pa perm : Nat} (hp : perm < 2 ^ 10) (ha : pa % PGSIZE = 0) (hb : pa < 2 ^ 64) :
    decode (leaf pa perm) = some (pa, perm ||| PTE_V) := by
  obtain ⟨h1, h2, h3, -⟩ := entry_decode perm hp ha hb
  rw [leaf, decode_valid h3, h1, h2]

theorem pte_round_trip {pa flags : Nat} (hf : flags < 2 ^ 10) (ha : pa % PGSIZE = 0) (hb : pa < 2 ^ 64) :
    pte2pa (pa2pte pa ||| flags) = pa ∧ pteFlags (pa2pte pa ||| flags) = flags := by
  have he : pa2pte pa ||| flags = pa / 2 ^ 12 * 2 ^ 10 + flags := by
    rw [pa2pte, Nat.shiftRight_eq_div_pow, ← Nat.shiftLeft_add_eq_or_of_lt hf, Nat.shiftLeft_eq]
  rw [he, pte2pa_eq, pteFlags_eq]
  simp only [PGSIZE] at ha
  constructor <;> omega

end Decode

section Pages
variable {s : Mem} {r : Nat} {R : List Nat}

theorem IsVpage.page {p : Nat} (h : IsVpage p) : p / PGSIZE < MAXVP ∧ p / PGSIZE * PGSIZE = p := by
  obtain ⟨h1, h2⟩ := h
  simp only [PGSIZE, MAXVA, MAXVP] at *
  omega

theorem isVpage_mul {v : Nat} (h : v < MAXVP) : IsVpage (v * PGSIZE) := ⟨Nat.mul_mod_left v PGSIZE, (page_lt h).1⟩

theorem translation_page (h : Heap s (tables s.bytes r ++ R)) {v : Nat} (hv : v < MAXVP) :
    translation s r (v * PGSIZE) = decode (look s.bytes r v) := by
  obtain ⟨a, s', he, rfl, hw⟩ := (walk_find h hv).returns
  unfold translation
  rw [he]
  dsimp only
  rcases hw with ⟨rfl, h0⟩ | ⟨ha, t, ht, rfl⟩
  · rw [if_pos rfl, h0, decode_zero]
  · rw [if_neg ha, look_some ht]
    rfl

theorem translation_eq (h : Heap s (tables s.bytes r ++ R)) {p : Nat} (hp : IsVpage p) :
    translation s r p = decode (look s.bytes r (p / PGSIZE)) := by
  rw [← translation_page h hp.page.1, hp.page.2]

theorem translation_congr {s' : Mem} {R' : List Nat} (h : Heap s (tables s.bytes r ++ R))
    (h' : Heap s' (tables s'.bytes r ++ R')) {p : Nat} (hp : IsVpage p)
    (hl : look s'.bytes r (p / PGSIZE) = look s.bytes r (p / PGSIZE)) : translation s' r p = translation s r p := by
  rw [translation_eq h' hp, translation_eq h hp, hl]

theorem translation_outside {va : Nat} (h : MAXVA ≤ va) (s : Mem) (r : Nat) : translation s r va = none := by
  have he : exec (walk r va false) s = (.error .walk, s) := by
    unfold walk
    rw [if_pos h]
    rfl
  unfold translation
  rw [he]

end Pages

/-! ## walk -/

theorem px_page (level va : Nat) : px level (va / PGSIZE * PGSIZE) = px level va := by
  have hd : va / PGSIZE * PGSIZE / 2 ^ 12 = va / 2 ^ 12 := Nat.mul_div_cancel _ (by decide)
  rw [px_eq, px_eq, Nat.pow_add, ← Nat.div_div_eq_div_mul, ← Nat.div_div_eq_div_mul, hd]

theorem walkFrom_page (va : Nat) (alloc : Bool) (level pagetable : Nat) :
    walkFrom (va / PGSIZE * PGSIZE) alloc level pagetable = walkFrom va alloc level pagetable := by
  induction level generalizing pagetable with
  | zero => simp only [walkFrom, px_page]
  | succ level ih => simp only [walkFrom, px_page, ih]

theorem walk_page {va : Nat} (h : va < MAXVA) (pagetable : Nat) (alloc : Bool) :
    walk pagetable va alloc = walk pagetable (va / PGSIZE * PGSIZE) alloc := by
  have hle : va / PGSIZE * PGSIZE ≤ va := Nat.div_mul_le_self va PGSIZE
  unfold walk
  rw [if_neg (Nat.not_le_of_lt h), if_neg (Nat.not_le_of_lt (Nat.lt_of_le_of_lt hle h)), walkFrom_page]

section Walk
variable {s : Mem} {r : Nat} {R : List Nat}

theorem WellFormed.kept {s' : Mem} {R' : List Nat} (h : WellFormed s r R) (k : Kept s s' r R') : WellFormed s' r R' :=
  ⟨k.heap, k.flags _ (by decide) h.inner⟩

theorem walk_found (h : Heap s (tables s.bytes r ++ R)) {v t : Nat} (hv : v < MAXVP)
    (ht : tableFor s.bytes (v * PGSIZE) 2 r = some t) :
    exec (walk r (v * PGSIZE) false) s = (.ok (t + 8 * px 0 (v * PGSIZE)), s) := by
  have hspec := walkFrom_spec (v * PGSIZE) false 2 r h (fun q => mem_append_left R) h.tables_nodup
  obtain ⟨a, s', he, new, w⟩ := hspec.returns
  obtain rfl := w.pure rfl
  unfold walk
  rw [if_neg (Nat.not_le_of_lt (page_lt hv).1)]
  refine he.trans ?_
  rcases w.found with ⟨-, hnone, -⟩ | ⟨t', ht', ha⟩
  · rw [ht] at hnone
    cases hnone
  · rw [ht] at ht'
    cases ht'
    rw [ha]

theorem walk_keeps (h : WellFormed s r R) {va : Nat} (hva : va < MAXVA) : WalkKeeps s r R va := by
  have hv : va / PGSIZE < MAXVP := by
    simp only [PGSIZE, MAXVA, MAXVP] at *
    omega
  unfold WalkKeeps
  rw [walk_page hva, walk_page hva]
  refine (walk_alloc h.heap hv).imp ?_
  rintro a s' ⟨w, hw⟩
  refine ⟨h.kept w.kept, fun p hp => translation_congr h.heap w.kept.heap hp (w.look _), ?_⟩
  rcases hw with ⟨h0, hs⟩ | ⟨ha, t, ht, rfl⟩
  · exact .inl ⟨h0, hs.mono (missing_le _ _ _)⟩
  · exact .inr ⟨ha, walk_found w.kept.heap hv ht⟩

end Walk

/-! ## mappages -/

section Mappages
variable {s : Mem} {r va size pa perm : Nat} {R : List Nat}

theorem pgrounddown_end (hsize : 1 ≤ size) (hend : va + size ≤ MAXVA) :
    pgrounddown ((va + size + 2 ^ 64 - 1) % 2 ^ 64) = pgrounddown (va + size - 1) := by
  simp only [MAXVA] at hend
  rw [show va + size + 2 ^ 64 - 1 = va + size - 1 + 2 ^ 64 by omega, Nat.add_mod_right, Nat.mod_eq_of_lt (by omega)]

theorem mappages_pages (hsize : 1 ≤ size) (hend : va + size ≤ MAXVA) : mappages r va size pa perm =
    mapFrom r perm ((va + size - 1) / PGSIZE - va / PGSIZE) (va / PGSIZE * PGSIZE) pa := by
  unfold mappages
  simp only [pgrounddown_end hsize hend]
  have hn : (pgrounddown (va + size - 1) + 2 ^ 64 - pgrounddown va) % 2 ^ 64 / PGSIZE =
      (va + size - 1) / PGSIZE - va / PGSIZE := by
    simp only [pgrounddown, PGSIZE, MAXVA] at *
    omega
  rw [hn]
  rfl

theorem in_pages {p v k : Nat} (hp : IsVpage p) :
    (v ≤ p / PGSIZE ∧ p / PGSIZE < v + k) ↔ (v * PGSIZE ≤ p ∧ p < v * PGSIZE + k * PGSIZE) := by
  obtain ⟨h1, -⟩ := hp
  simp only [PGSIZE] at *
  omega

theorem mappages_adds (h : WellFormed s r R) (hsize : 1 ≤ size) (hend : va + size ≤ MAXVA) (ha : pa % PGSIZE = 0)
    (hb : pa < 2 ^ 64) (hperm : perm < 2 ^ 10)
    (hfree : ∀ p, IsVpage p → pgrounddown va ≤ p → p ≤ pgrounddown (va + size - 1) → translation s r p = none) :
    MappagesAdds s r R va size pa perm := by
  have hv : va / PGSIZE + ((va + size - 1) / PGSIZE - va / PGSIZE) < MAXVP := by
    simp only [PGSIZE, MAXVA, MAXVP] at *
    omega
  have hunmapped : ∀ w, va / PGSIZE ≤ w → w ≤ va / PGSIZE + ((va + size - 1) / PGSIZE - va / PGSIZE) →
      look s.bytes r w % 2 = 0 := by
    intro w h1 h2
    have hw : w < MAXVP := by omega
    rw [← decode_eq_none, ← translation_page h.heap hw]
    have hle : w ≤ (va + size - 1) / PGSIZE := by
      have : va / PGSIZE ≤ (va + size - 1) / PGSIZE := Nat.div_le_div_right (by omega)
      omega
    exact hfree _ (isVpage_mul hw) (Nat.mul_le_mul_right _ h1) (Nat.mul_le_mul_right _ hle)
  unfold MappagesAdds
  rw [mappages_pages hsize hend]
  refine (mapFrom_spec hperm _ _ pa h.heap hv ha hb hunmapped).imp fun ok s' m => ?_
  obtain ⟨k, hk, hlook⟩ := m.look
  refine ⟨h.kept m.kept, pgrounddown va + k * PGSIZE, ?_, fun p hp => ?_⟩
  · cases ok with
    | true =>
      obtain rfl : k = _ := hk
      simp only [if_true, pgrounddown, PGSIZE]
      omega
    | false =>
      have hk : k ≤ _ := hk
      simp only [Bool.false_eq_true, if_false, pgrounddown, PGSIZE] at *
      omega
  · have hpage := (page_lt hp.page.1).2
    rw [translation_eq m.kept.heap hp, translation_eq h.heap hp, hlook _ hpage]
    have hiff : (va / PGSIZE ≤ p / PGSIZE ∧ p / PGSIZE < va / PGSIZE + k) ↔
        (pgrounddown va ≤ p ∧ p < pgrounddown va + k * PGSIZE) := in_pages hp
    by_cases hin : va / PGSIZE ≤ p / PGSIZE ∧ p / PGSIZE < va / PGSIZE + k
    · have hoff : (p / PGSIZE - va / PGSIZE) * PGSIZE = p - pgrounddown va := by
        rw [Nat.sub_mul, hp.page.2]
        rfl
      have hal : (pa + (p / PGSIZE - va / PGSIZE) * PGSIZE) % 2 ^ 64 % PGSIZE = 0 := by
        rw [Nat.mod_mod_of_dvd _ (by decide : PGSIZE ∣ 2 ^ 64), Nat.add_mul_mod_self_right, ha]
      rw [if_pos hin, if_pos (hiff.1 hin), decode_leaf hperm hal (Nat.mod_lt _ (by decide)), hoff]
    · rw [if_neg hin, if_neg fun hc => hin (hiff.2 hc)]

end Mappages

/-! ## uvmunmap -/

section Uvmunmap
variable {s : Mem} {r va n : Nat} {R : List Nat} {doFree : Bool}

theorem IsMapped.lt (h : IsMapped s r va) : va < MAXVA := by
  by_contra hge
  obtain ⟨pa, flags, ht, -⟩ := h
  rw [translation_outside (Nat.le_of_not_lt hge)] at ht
  cases ht

theorem IsMapped.look {v : Nat} (h : Heap s (tables s.bytes r ++ R)) (hm : IsMapped s r (v * PGSIZE)) :
    Mapping (look s.bytes r v) ∧ translation s r (v * PGSIZE) = some (pte2pa (look s.bytes r v), pteFlags (look s.bytes r v)) := by
  have hv : v < MAXVP := by
    have hlt := hm.lt
    simp only [PGSIZE, MAXVA, MAXVP] at *
    omega
  obtain ⟨pa, flags, ht, hf⟩ := hm
  have hvalid : Vm.look s.bytes r v % 2 = 1 := by
    by_contra hne
    rw [translation_page h hv, decode_eq_none.2 (by omega)] at ht
    cases ht
  rw [translation_page h hv, decode_valid hvalid] at ht ⊢
  cases ht
  exact ⟨⟨hvalid, hf⟩, rfl⟩

theorem physical_succ (s : Mem) (r v n : Nat) : physical s r (v * PGSIZE) (n + 1) =
    ((translation s r (v * PGSIZE)).map Prod.fst).toList ++ physical s r ((v + 1) * PGSIZE) n := by
  have hshift : ∀ i, v * PGSIZE + (i + 1) * PGSIZE = (v + 1) * PGSIZE + i * PGSIZE := fun i => by
    rw [Nat.add_one_mul, Nat.add_one_mul, Nat.add_assoc, Nat.add_comm PGSIZE]
  unfold physical
  rw [range_succ_eq_map, filterMap_cons, filterMap_map, Nat.zero_mul, Nat.add_zero]
  cases translation s r (v * PGSIZE) <;> simp [hshift]

theorem physical_eq (h : Heap s (tables s.bytes r ++ R)) : ∀ (n v : Nat),
    (∀ w, v ≤ w → w < v + n → IsMapped s r (w * PGSIZE)) → physical s r (v * PGSIZE) n = mapped s.bytes r v n := by
  intro n
  induction n with
  | zero => intro v _; rfl
  | succ n ih =>
    intro v hm
    have hv := (hm v (Nat.le_refl v) (by omega)).look h
    rw [physical_succ, mapped_succ, hv.2, ih (v + 1) fun w h1 h2 => hm w (by omega) (by omega)]
    rfl

theorem uvmunmap_removes (h : WellFormed s r ((if doFree then physical s r va n else []) ++ R)) (hal : va % PGSIZE = 0)
    (hva : va < MAXVA) (hm : ∀ i < n, IsMapped s r (va + i * PGSIZE)) : UvmunmapRemoves s r R va n doFree := by
  obtain ⟨hv, hmul⟩ := IsVpage.page ⟨hal, hva⟩
  unfold UvmunmapRemoves
  rw [← hmul] at hm h ⊢
  generalize va / PGSIZE = v at hv hm h ⊢
  have hm : ∀ w, v ≤ w → w < v + n → IsMapped s r (w * PGSIZE) := fun w h1 h2 => by
    have := hm (w - v) (by omega)
    rwa [← Nat.add_mul, Nat.add_sub_cancel' h1] at this
  have hfit : v + n ≤ MAXVP := by
    cases n with
    | zero => exact Nat.le_of_lt hv
    | succ n =>
      have hlt := (hm (v + n) (by omega) (by omega)).lt
      simp only [PGSIZE, MAXVA, MAXVP] at *
      omega
  rw [physical_eq h.heap n v hm] at h
  refine (uvmunmap_spec h.heap hfit fun w h1 h2 => ((hm w h1 h2).look h.heap).1).imp fun _ s' u => ?_
  refine ⟨h.kept u.kept, fun p hp => ?_⟩
  rw [translation_eq u.kept.heap hp, translation_eq h.heap hp, u.look _ (page_lt hp.page.1).2]
  have hiff : (v ≤ p / PGSIZE ∧ p / PGSIZE < v + n) ↔ _ := in_pages hp
  by_cases hin : v ≤ p / PGSIZE ∧ p / PGSIZE < v + n
  · rw [if_pos hin, if_pos (hiff.1 hin), decode_zero]
  · rw [if_neg hin, if_neg fun hc => hin (hiff.2 hc)]

end Uvmunmap

/-! ## The map -/

theorem page_table_refines_map (s : Mem) (r : Nat) (R : List Nat) (h : WellFormed s r R) :
    (∀ va < MAXVA, WalkKeeps s r R va) ∧
    (∀ va size pa perm, 1 ≤ size → va + size ≤ MAXVA → pa % PGSIZE = 0 → pa < 2 ^ 64 → perm < 2 ^ 10 →
      perm &&& (PTE_R ||| PTE_W ||| PTE_X) ≠ 0 →
      (∀ p, IsVpage p → pgrounddown va ≤ p → p ≤ pgrounddown (va + size - 1) → translation s r p = none) →
      MappagesAdds s r R va size pa perm) ∧
    (∀ va npages doFree R', va % PGSIZE = 0 → va < MAXVA → (∀ i < npages, IsMapped s r (va + i * PGSIZE)) →
      R.Perm ((if doFree then physical s r va npages else []) ++ R') → UvmunmapRemoves s r R' va npages doFree) ∧
    (∀ pa flags, pa % PGSIZE = 0 → pa < 2 ^ 56 → flags < 2 ^ 10 →
      pte2pa (pa2pte pa ||| flags) = pa ∧ pteFlags (pa2pte pa ||| flags) = flags) := by
  refine ⟨fun va hva => walk_keeps h hva, ?_, ?_, ?_⟩
  · intro va size pa perm hsize hend ha hb hperm _ hfree
    exact mappages_adds h hsize hend ha hb hperm hfree
  · intro va npages doFree R' hal hva hm hR
    exact uvmunmap_removes ⟨h.heap.perm (hR.append_left _), h.inner⟩ hal hva hm
  · intro pa flags ha hb hf
    exact pte_round_trip hf ha (Nat.lt_trans hb (by decide))

/-! ## A small machine -/

/-- The kernel ends three pages before `PHYSTOP`. -/
def smallImage : Image where
  trampoline := KERNBASE
  kend := PHYSTOP - 3 * PGSIZE
  aligned := by decide
  base := by decide
  text := by decide
  fits := by decide

/-- The first page is an empty page table `root`, the two after it are free. -/
def smallMem (root : Nat) : Mem where
  bytes := put64 (fun _ => 0) (root + PGSIZE) (root + 2 * PGSIZE)
  freelist := root + PGSIZE
  img := smallImage
  fails := []

theorem le64_zeros (a : Nat) : le64 (fun _ => 0) a = 0 := rfl

theorem entries_smallMem (root : Nat) {i : Nat} (hi : i < 512) : entries (smallMem root).bytes root i = 0 := by
  rw [entries, smallMem, le64_put64_other, le64_zeros]
  left
  simp only [PGSIZE]
  omega

theorem tables_smallMem (root : Nat) : tables (smallMem root).bytes root = [root] :=
  nodes_empty fun i hi => by rw [entries_smallMem root hi]; exact child_zero

theorem wellFormed_smallMem {root : Nat} (h : root = smallImage.kend) : WellFormed (smallMem root) root [] := by
  have hroot : root = 2281689088 := h
  refine ⟨⟨[root + PGSIZE, root + 2 * PGSIZE], ⟨rfl, ?_, ?_⟩, ?_⟩, fun q hq i hi he => ?_⟩
  · rw [smallMem, le64_put64]
    simp only [PGSIZE]
    omega
  · show le64 (smallMem root).bytes (root + 2 * PGSIZE) = 0
    rw [smallMem, le64_put64_other, le64_zeros]
    right
    simp only [PGSIZE]
    omega
  · have hk : (smallMem root).img.kend = root := h.symm
    have hp : PHYSTOP = root + 3 * PGSIZE := by
      rw [hroot]
      rfl
    rw [tables_smallMem, hk, perm_ext_iff_of_nodup ?_ (nodup_pageList _)]
    · intro p
      rw [mem_pageList, IsPage, hp]
      simp only [PGSIZE, append_nil, cons_append, nil_append, mem_cons, not_mem_nil, or_false]
      omega
    · simp only [PGSIZE, append_nil, cons_append, nil_append, nodup_cons, mem_cons,
        not_mem_nil, or_false, not_false_eq_true, nodup_nil, and_true, not_or]
      omega
  · have hm : q ∈ tables (smallMem root).bytes root := inner_sub_nodes hq
    rw [tables_smallMem, mem_singleton] at hm
    rw [hm, entries_smallMem root hi] at he
    cases he

theorem page_table_refines_map_small : WellFormed (smallMem smallImage.kend) smallImage.kend [] ∧
    MappagesAdds (smallMem smallImage.kend) smallImage.kend [] 5000 1 0 PTE_R := by
  have hw := wellFormed_smallMem rfl
  have h := page_table_refines_map (smallMem smallImage.kend) smallImage.kend [] hw
  refine ⟨hw, h.2.1 5000 1 0 PTE_R (by decide) (by decide) (by decide) (by decide) (by decide) (by decide) ?_⟩
  intro p hp _ _
  rw [translation_eq hw.heap hp, decode_eq_none, look]
  cases ht : tableFor (smallMem smallImage.kend).bytes (p / PGSIZE * PGSIZE) 2 smallImage.kend with
  | none => rfl
  | some t =>
    have hm : t ∈ tables (smallMem smallImage.kend).bytes smallImage.kend := find_mem (fun _ => px_lt _ _) ht
    rw [tables_smallMem, mem_singleton] at hm
    rw [hm, Option.map_some, Option.getD_some, entries_smallMem _ (px_lt _ _)]

end Xv6.Vm
