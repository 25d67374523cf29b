import Mathlib.Data.List.Perm.Basic
import Mathlib.Data.List.Nodup
import Xv6.Vm.Code
/-!
# Who has a page

`Heap s L` says that every whole page between the end of the kernel and
`PHYSTOP` is either on the free list or in `L`, the pages in use, and in one of
them only once. `kalloc` moves a page to `L` and `kfree` moves one back; neither
touches a byte of any other page in use.
-/

namespace Xv6.Vm

open Bytes Hoare List

/-- A whole page between the end of the kernel and `PHYSTOP`. -/
def IsPage (kend pa : Nat) : Prop := pa % PGSIZE = 0 ∧ kend ≤ pa ∧ pa < PHYSTOP

instance (kend pa : Nat) : Decidable (IsPage kend pa) := inferInstanceAs (Decidable (_ ∧ _ ∧ _))

def pageList (kend : Nat) : List Nat :=
  ((List.range (PHYSTOP / PGSIZE)).map (· * PGSIZE)).filter fun pa => decide (IsPage kend pa)

theorem mem_pageList {kend pa : Nat} : pa ∈ pageList kend ↔ IsPage kend pa := by
  simp only [pageList, mem_filter, mem_map, mem_range, decide_eq_true_eq]
  constructor
  · exact And.right
  · intro h
    obtain ⟨h1, h2, h3⟩ := h
    have hmul : pa / PGSIZE * PGSIZE = pa := Nat.div_mul_cancel (Nat.dvd_of_mod_eq_zero h1)
    have hlt : pa / PGSIZE < PHYSTOP / PGSIZE := by
      rw [Nat.div_lt_iff_lt_mul (by decide), Nat.div_mul_cancel (by decide)]
      exact h3
    exact ⟨⟨pa / PGSIZE, hlt, hmul⟩, h1, h2, h3⟩

theorem nodup_pageList (kend : Nat) : (pageList kend).Nodup := by
  refine List.Nodup.filter _ (List.Nodup.map (fun a b h => ?_) nodup_range)
  simp only [PGSIZE] at h
  omega

/-- The page at `pa` has the same bytes in both. -/
def SamePage (b b' : Arr) (pa : Nat) : Prop := ∀ i, pa ≤ i → i < pa + PGSIZE → b' i = b i

theorem SamePage.refl (b : Arr) (pa : Nat) : SamePage b b pa := fun _ _ _ => rfl

theorem SamePage.trans {b b' b'' : Arr} {pa : Nat} (h : SamePage b b' pa) (h' : SamePage b' b'' pa) :
    SamePage b b'' pa := fun i h1 h2 => (h' i h1 h2).trans (h i h1 h2)

theorem SamePage.le64 {b b' : Arr} {pa a : Nat} (h : SamePage b b' pa) (h1 : pa ≤ a) (h2 : a + 8 ≤ pa + PGSIZE) :
    le64 b' a = le64 b a :=
  le64_congr fun i h3 h4 => h i (by omega) (by omega)

theorem pages_apart {p q : Nat} (hp : p % PGSIZE = 0) (hq : q % PGSIZE = 0) (hne : p ≠ q) :
    p + PGSIZE ≤ q ∨ q + PGSIZE ≤ p := by
  simp only [PGSIZE] at *
  omega

theorem same_fill {b : Arr} {c : UInt8} {p q : Nat} (hp : p % PGSIZE = 0) (hq : q % PGSIZE = 0) (hne : q ≠ p) :
    SamePage b (fill b p PGSIZE c) q := by
  intro i h1 h2
  have := pages_apart hp hq (Ne.symm hne)
  exact fill_other (by omega)

theorem same_put64 {b : Arr} {p q a v : Nat} (hp : p % PGSIZE = 0) (hq : q % PGSIZE = 0) (hne : q ≠ p) (h1 : p ≤ a)
    (h2 : a + 8 ≤ p + PGSIZE) : SamePage b (put64 b a v) q := by
  intro i h3 h4
  have := pages_apart hp hq (Ne.symm hne)
  exact put64_other (by omega)

/-! ## The free list -/

/-- The list at `head`, threaded through the first word of each page. -/
def Chain (b : Arr) : Nat → List Nat → Prop
  | head, [] => head = 0
  | head, x :: l => head = x ∧ Chain b (le64 b x) l

theorem Chain.frame {b b' : Arr} : ∀ {head : Nat} {l : List Nat}, Chain b head l → (∀ x ∈ l, SamePage b b' x) →
    Chain b' head l
  | _, [], h, _ => h
  | _, x :: l, h, hs => by
    refine ⟨h.1, ?_⟩
    rw [(hs x (by simp)).le64 (Nat.le_refl _) (by simp only [PGSIZE]; omega)]
    exact h.2.frame fun y hy => hs y (mem_cons_of_mem _ hy)

def Heap (s : Mem) (L : List Nat) : Prop :=
  ∃ fl, Chain s.bytes s.freelist fl ∧ (fl ++ L).Perm (pageList s.img.kend)

namespace Heap
variable {s : Mem} {L : List Nat}

theorem isPage (h : Heap s L) {pa : Nat} (hm : pa ∈ L) : IsPage s.img.kend pa := by
  obtain ⟨fl, -, hp⟩ := h
  exact mem_pageList.1 (hp.subset (mem_append_right _ hm))

theorem nodup (h : Heap s L) : L.Nodup := by
  obtain ⟨fl, -, hp⟩ := h
  exact (nodup_append.1 (hp.nodup_iff.2 (nodup_pageList _))).2.1

theorem perm {L' : List Nat} (h : Heap s L) (hp : L.Perm L') : Heap s L' := by
  obtain ⟨fl, hc, hq⟩ := h
  exact ⟨fl, hc, (hp.symm.append_left fl).trans hq⟩

theorem write (h : Heap s L) {b' : Arr} (hs : ∀ q, IsPage s.img.kend q → q ∉ L → SamePage s.bytes b' q) :
    Heap { s with bytes := b' } L := by
  obtain ⟨fl, hc, hp⟩ := h
  refine ⟨fl, hc.frame fun x hx => hs x (mem_pageList.1 (hp.subset (mem_append_left _ hx))) ?_, hp⟩
  have hn := nodup_append.1 (hp.nodup_iff.2 (nodup_pageList _))
  exact fun hm => hn.2.2 x hx x hm rfl

end Heap

/-! ## kalloc.c -/

/-- What an allocator call leaves alone. -/
structure Frame (s s' : Mem) (L : List Nat) : Prop where
  img : s'.img = s.img
  fails : s.fails = [] → s'.fails = []
  same : ∀ q ∈ L, SamePage s.bytes s'.bytes q

theorem Frame.refl (s : Mem) (L : List Nat) : Frame s s L := ⟨rfl, id, fun _ _ => .refl _ _⟩

/-- Unless a call is one that fails, fewer than `k` pages are free. -/
def Short (s : Mem) (L : List Nat) (k : Nat) : Prop := s.fails = [] → (pageList s.img.kend).length < L.length + k

theorem Short.mono {s : Mem} {L : List Nat} {k k' : Nat} (h : Short s L k) (hk : k ≤ k') : Short s L k' :=
  fun hf => Nat.lt_of_lt_of_le (h hf) (Nat.add_le_add_left hk _)

/-- No page has the address 0, so an empty list is the only one that starts there. -/
theorem Heap.short {s : Mem} {L : List Nat} (h : Heap s L) (h0 : s.fails.headD false = true ∨ s.freelist = 0) :
    Short s L 1 := by
  intro hf
  obtain ⟨fl, hc, hp⟩ := h
  rw [hf, headD_nil] at h0
  have h0 : s.freelist = 0 := h0.resolve_left (by decide)
  cases fl with
  | nil =>
    rw [← hp.length_eq]
    exact Nat.lt_succ_self _
  | cons x fl =>
    obtain ⟨-, hle, -⟩ := mem_pageList.1 (hp.subset (mem_cons_self ..))
    have hb := s.img.base
    have ht := s.img.text
    rw [h0] at hc
    rw [← hc.1] at hle
    simp only [KERNBASE, PGSIZE] at hb ht
    omega

theorem kalloc_spec {s : Mem} {L : List Nat} (h : Heap s L) :
    wp kalloc
      (fun pa s' => Frame s s' L ∧
        (pa = 0 ∧ Heap s' L ∧ Short s L 1 ∨ pa ≠ 0 ∧ IsPage s.img.kend pa ∧ pa ∉ L ∧ Heap s' (pa :: L)))
      (fun _ _ => False) s := by
  have htail : s.fails = [] → s.fails.tail = [] := fun he => by rw [he, tail_nil]
  unfold kalloc load memset
  simp only [wp_bind, wp_get, wp_set, wp_ite, wp_pure, wp_modify]
  refine ⟨fun h0 => ⟨⟨rfl, htail, fun _ _ => .refl _ _⟩, .inl ⟨trivial, h, h.short h0⟩⟩, fun hf => ?_⟩
  simp only [not_or] at hf
  obtain ⟨fl, hc, hp⟩ := h
  cases fl with
  | nil => exact absurd hc hf.2
  | cons x fl =>
    obtain ⟨hx, hc⟩ := hc
    have hall := hp.nodup_iff.2 (nodup_pageList s.img.kend)
    rw [cons_append, nodup_cons, mem_append, not_or] at hall
    have hpage : ∀ q ∈ x :: fl ++ L, IsPage s.img.kend q := fun q hq => mem_pageList.1 (hp.subset hq)
    have hxp := hpage x (by simp)
    have hother : ∀ q, q ∈ fl ++ L → q ≠ x := fun q hq he => by
      rcases mem_append.1 hq with hq | hq
      · exact hall.1.1 (he ▸ hq)
      · exact hall.1.2 (he ▸ hq)
    have hsame : ∀ q ∈ fl ++ L, SamePage s.bytes (fill s.bytes x PGSIZE 5) q := fun q hq =>
      same_fill hxp.1 (hpage q (mem_cons_of_mem _ hq)).1 (hother q hq)
    rw [hx]
    refine ⟨⟨rfl, htail, fun q hq => hsame q (mem_append_right _ hq)⟩,
      .inr ⟨hx ▸ hf.2, hxp, hall.1.2, fl, ?_, ?_⟩⟩
    · exact hc.frame fun q hq => hsame q (mem_append_left _ hq)
    · exact perm_middle.trans hp

theorem kfree_spec {s : Mem} {L : List Nat} {pa : Nat} (h : Heap s (pa :: L)) :
    wp (kfree pa) (fun _ s' => Frame s s' L ∧ Heap s' L) (fun _ _ => False) s := by
  have hpa := h.isPage (mem_cons_self ..)
  have hn := nodup_cons.1 h.nodup
  obtain ⟨fl, hc, hp⟩ := h
  have hall := hp.nodup_iff.2 (nodup_pageList s.img.kend)
  have hfl : pa ∉ fl := fun hm => (nodup_append.1 hall).2.2 pa hm pa (by simp) rfl
  have hpage : ∀ q ∈ fl ++ pa :: L, IsPage s.img.kend q := fun q hq => mem_pageList.1 (hp.subset hq)
  have hsame : ∀ q, IsPage s.img.kend q → q ≠ pa →
      SamePage s.bytes (put64 (fill s.bytes pa PGSIZE 1) pa s.freelist) q := fun q hq hne =>
    (same_fill hpa.1 hq.1 hne).trans (same_put64 hpa.1 hq.1 hne (Nat.le_refl _) (by simp only [PGSIZE]; omega))
  unfold kfree memset store
  simp only [wp_bind, wp_get, wp_ite, wp_throw, wp_modify]
  refine ⟨fun hb => ?_, fun _ => ⟨⟨rfl, id, fun q hq => ?_⟩, pa :: fl, ⟨rfl, ?_⟩, ?_⟩⟩
  · obtain ⟨h1, h2, h3⟩ := hpa
    rcases hb with hb | hb | hb
    · exact hb h1
    · exact absurd h2 (Nat.not_le_of_lt hb)
    · exact absurd h3 (Nat.not_lt_of_le hb)
  · exact hsame q (hpage q (by simp [hq])) fun he => hn.1 (he ▸ hq)
  · -- the first word of the freed page is the old head, an address below 2⁶⁴
    have hhead : s.freelist < 2 ^ 64 := by
      cases fl with
      | nil => rw [show s.freelist = 0 from hc]; decide
      | cons x fl =>
        obtain ⟨-, -, hlt⟩ := hpage x (by simp)
        rw [hc.1]
        exact Nat.lt_trans hlt (by decide)
    dsimp only
    rw [le64_put64, Nat.mod_eq_of_lt hhead]
    exact hc.frame fun q hq => hsame q (hpage q (mem_append_left _ hq)) fun he => hfl (he ▸ hq)
  · exact perm_middle.symm.trans hp

end Xv6.Vm
