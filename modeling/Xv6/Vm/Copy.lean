import Xv6.Lib.Run
import Xv6.Vm.Thin
/-!
# Copies between user and kernel memory

What `copyin`, `copyout` and `copyinstr` do, for any page table whose user pages
are pages of physical memory, each mapped once. `Open b r a n` says that the user
may access the `n` bytes from `a` on, and `view b r a n` is what they read there.
The copies go page by page; each round is a split of the range at the end of the
page it starts in (`split_page`), so what one round does and what the others do
add up.
-/

namespace Xv6.Vm

open Bytes Hoare Radix Run List

/-- The page `v` is mapped for the user. -/
def UserLeaf (b : Arr) (r v : Nat) : Prop := v < MAXVP ∧ look b r v &&& PTE_V ≠ 0 ∧ look b r v &&& PTE_U ≠ 0

instance (b : Arr) (r v : Nat) : Decidable (UserLeaf b r v) := inferInstanceAs (Decidable (_ ∧ _ ∧ _))

/-- A page table in physical memory whose user pages are pages of physical memory, each mapped once. -/
structure UserTable (b : Arr) (r : Nat) : Prop where
  tables : ∀ q ∈ tables b r, IsPage KERNBASE q
  leaves : ∀ v, UserLeaf b r v → IsPage KERNBASE (pte2pa (look b r v))
  distinct : ∀ v w, UserLeaf b r v → UserLeaf b r w → pte2pa (look b r v) = pte2pa (look b r w) → v = w

/-- None of the user's pages is one of the page table's own. -/
def Apart (b : Arr) (r : Nat) : Prop := ∀ v, UserLeaf b r v → pte2pa (look b r v) ∉ tables b r

/-- Where the byte at `va` is in physical memory. -/
def phys (b : Arr) (r va : Nat) : Nat := pte2pa (look b r (va / PGSIZE)) + va % PGSIZE

/-- The `n` bytes from `a` on. -/
def view (b : Arr) (r a n : Nat) : List UInt8 := (List.range n).map fun i => b (phys b r (a + i))

/-- The user may access the `n` bytes from `a` on. -/
def Open (b : Arr) (r a n : Nat) : Prop := ∀ i < n, UserLeaf b r ((a + i) / PGSIZE)

/-! ## walkaddr -/

theorem walkFrom_read (s : Mem) (va : Nat) : ∀ d r : Nat, wp (walkFrom va false d r)
    (fun a s' => s' = s ∧ a = ((tableFor s.bytes va d r).map (· + 8 * px 0 va)).getD 0) (fun _ _ => False) s := by
  intro d
  induction d with
  | zero =>
    intro r
    exact (wp_pure _).2 ⟨rfl, rfl⟩
  | succ d ih =>
    intro r
    unfold walkFrom
    dsimp only
    rw [tableFor_succ, wp_bind, load, wp_bind, wp_get, wp_pure]
    by_cases hv : le64 s.bytes (r + 8 * px (d + 1) va) &&& PTE_V ≠ 0
    · have hc : child (entries s.bytes r (px (d + 1) va)) = some _ := child_valid hv
      rw [if_pos hv, hc]
      exact ih _
    · have hc : child (entries s.bytes r (px (d + 1) va)) = none := child_invalid hv
      rw [if_neg hv, if_pos (by decide), hc]
      exact (wp_pure _).2 ⟨rfl, rfl⟩

variable {i len : Nat} {src : List UInt8}

section
variable {s : Mem} {b b' : Arr} {r v a n m : Nat}

/-- `walkaddr` of a page of a table in physical memory: where it is, or 0 if the user has no access to it. -/
theorem walkaddr_read (h : ∀ q ∈ tables s.bytes r, IsPage KERNBASE q) :
    wp (walkaddr r (v * PGSIZE)) (fun pa s' => s' = s ∧
      pa = if UserLeaf s.bytes r v then pte2pa (look s.bytes r v) else 0) (fun _ _ => False) s := by
  unfold walkaddr
  by_cases hv : v * PGSIZE ≥ MAXVA
  · have hn : ¬ UserLeaf s.bytes r v := fun hu => Nat.not_le_of_lt (page_lt hu.1).1 hv
    rw [if_pos hv, if_neg hn, wp_pure]
    exact ⟨rfl, rfl⟩
  have hlt : v < MAXVP := by
    simp only [PGSIZE, MAXVA, MAXVP] at *
    omega
  rw [if_neg hv, walk, if_neg hv]
  refine (walkFrom_read s _ 2 r).seq ?_
  rintro a s' ⟨rfl, rfl⟩
  cases ht : tableFor s'.bytes (v * PGSIZE) 2 r with
  | none =>
    have hn : ¬ UserLeaf s'.bytes r v := fun hu => by
      have := hu.2.1
      rw [look_none ht] at this
      exact this (by decide)
    rw [Option.map_none, Option.getD_none, if_pos rfl, if_neg hn]
    exact (wp_pure _).2 ⟨rfl, rfl⟩
  | some t =>
    obtain ⟨-, hle, -⟩ := h t (find_mem (fun _ => px_lt _ _) ht)
    have h0 : t + 8 * px 0 (v * PGSIZE) ≠ 0 := by
      simp only [KERNBASE] at hle
      omega
    have he : le64 s'.bytes (t + 8 * px 0 (v * PGSIZE)) = look s'.bytes r v := by
      rw [look_some ht]
      rfl
    rw [Option.map_some, Option.getD_some, if_neg h0, wp_bind, load, wp_bind, wp_get, wp_pure, he]
    by_cases hV : look s'.bytes r v &&& PTE_V = 0
    · rw [if_pos hV, if_neg fun hu => hu.2.1 hV]
      exact (wp_pure _).2 ⟨rfl, rfl⟩
    by_cases hU : look s'.bytes r v &&& PTE_U = 0
    · rw [if_neg hV, if_pos hU, if_neg fun hu => hu.2.2 hU]
      exact (wp_pure _).2 ⟨rfl, rfl⟩
    · rw [if_neg hV, if_neg hU, if_pos ⟨hlt, hV, hU⟩]
      exact (wp_pure _).2 ⟨rfl, rfl⟩

theorem UserTable.page_ne (h : UserTable b r) (hu : UserLeaf b r v) : pte2pa (look b r v) ≠ 0 := by
  obtain ⟨-, hle, -⟩ := h.leaves v hu
  simp only [KERNBASE] at hle
  omega

/-! ## Ranges -/

theorem open_add : Open b r a (n + m) ↔ Open b r a n ∧ Open b r (a + n) m := by
  constructor
  · intro h
    refine ⟨fun i hi => h i (Nat.lt_add_right m hi), fun i hi => ?_⟩
    rw [Nat.add_assoc]
    exact h (n + i) (Nat.add_lt_add_left hi n)
  · rintro ⟨h1, h2⟩ i hi
    by_cases hn : i < n
    · exact h1 i hn
    · have := h2 (i - n) (by omega)
      rwa [Nat.add_assoc, Nat.add_sub_cancel' (Nat.le_of_not_lt hn)] at this

theorem view_add (b : Arr) (r a n m : Nat) : view b r a (n + m) = view b r a n ++ view b r (a + n) m := by
  rw [view, view, view, range_add, map_append, map_map]
  refine congrArg (_ ++ ·) (map_congr_left fun i _ => ?_)
  rw [Function.comp_apply, Nat.add_assoc]

theorem view_zero (b : Arr) (r a : Nat) : view b r a 0 = [] := rfl

theorem open_zero (b : Arr) (r a : Nat) : Open b r a 0 := fun i hi => absurd hi (Nat.not_lt_zero i)

@[simp] theorem length_view (b : Arr) (r a n : Nat) : (view b r a n).length = n := by
  rw [view, length_map, length_range]

theorem same_page (h : a % PGSIZE + i < PGSIZE) :
    (a + i) / PGSIZE = a / PGSIZE ∧ (a + i) % PGSIZE = a % PGSIZE + i := by
  simp only [PGSIZE] at *
  omega

theorem phys_add (h : a % PGSIZE + i < PGSIZE) : phys b r (a + i) = phys b r a + i := by
  obtain ⟨h1, h2⟩ := same_page h
  rw [phys, phys, h1, h2, Nat.add_assoc]

theorem open_page (h0 : 0 < n) (h : a % PGSIZE + n ≤ PGSIZE) : Open b r a n ↔ UserLeaf b r (a / PGSIZE) := by
  refine ⟨fun ho => ho 0 h0, fun hu i hi => ?_⟩
  rw [(same_page (by omega)).1]
  exact hu

theorem view_page (h : a % PGSIZE + n ≤ PGSIZE) : view b r a n = grab b (phys b r a) n := by
  refine map_congr_left fun i hi => ?_
  rw [phys_add (by have := mem_range.1 hi; omega)]

/-- The first round of a copy: `n` of `len` bytes, to the end of the page or to the end. -/
theorem split_page (h0 : 0 < len) (hv : a / PGSIZE < MAXVP) :
    ∃ n m, min (PGSIZE - (a - a / PGSIZE * PGSIZE)) len = n ∧ len = n + m ∧ 0 < n ∧ a % PGSIZE + n ≤ PGSIZE ∧
      (m = 0 ∨ (a / PGSIZE * PGSIZE + PGSIZE) % 2 ^ 64 = a + n) := by
  refine ⟨_, len - min (PGSIZE - (a - a / PGSIZE * PGSIZE)) len, rfl, ?_⟩
  simp only [PGSIZE, MAXVP] at *
  omega

theorem off_eq (a : Nat) : a - a / PGSIZE * PGSIZE = a % PGSIZE := by
  simp only [PGSIZE]
  omega

variable {x max : Nat}

theorem next_range {y : Nat} (h : m = 0 ∨ x = y) :
    (Open b r x m ↔ Open b r y m) ∧ view b r x m = view b r y m := by
  rcases h with rfl | rfl
  · rw [view_zero, view_zero]
    exact ⟨iff_of_true (open_zero b r x) (open_zero b r y), rfl⟩
  · exact ⟨Iff.rfl, rfl⟩

/-! ## copyin -/

theorem copyinFrom_view (h : UserTable s.bytes r) : ∀ k a len : Nat, len ≤ k →
    wp (copyinFrom r k a len) (fun res s' => s' = s ∧ (res.2 = true ↔ Open s.bytes r a len) ∧
      (res.2 = true → res.1 = view s.bytes r a len)) (fun _ _ => False) s := by
  intro k
  induction k with
  | zero =>
    intro a len hk
    obtain rfl := Nat.le_zero.1 hk
    exact (wp_pure _).2 ⟨rfl, iff_of_true rfl (open_zero _ _ _), fun _ => rfl⟩
  | succ k ih =>
    intro a len hk
    unfold copyinFrom
    dsimp only
    by_cases hlen : len = 0
    · rw [if_pos hlen, hlen]
      exact (wp_pure _).2 ⟨rfl, iff_of_true rfl (open_zero _ _ _), fun _ => rfl⟩
    have hpos := Nat.pos_of_ne_zero hlen
    rw [if_neg hlen, pgrounddown_eq]
    refine (walkaddr_read h.tables).seq ?_
    rintro pa s' ⟨rfl, rfl⟩
    by_cases hu : UserLeaf s'.bytes r (a / PGSIZE)
    · obtain ⟨n, m, hn, rfl, hn0, hpage, hnext⟩ := split_page hpos hu.1
      rw [if_pos hu, if_neg (h.page_ne hu), wp_bind, wp_get, hn, Nat.add_sub_cancel_left, wp_bind, off_eq]
      refine (ih _ m (by omega)).imp fun res s₁ hr => ?_
      obtain ⟨rest, ok⟩ := res
      obtain ⟨rfl, hok, hrest⟩ := hr
      obtain ⟨hopen, hview⟩ := next_range (b := s₁.bytes) (r := r) hnext
      refine (wp_pure _).2 ⟨rfl, ?_, fun hok => ?_⟩
      · rw [open_add, open_page hn0 hpage, ← hopen, ← hok]
        exact ⟨fun h => ⟨hu, h⟩, fun h => h.2⟩
      · rw [view_add, view_page hpage, ← hview, ← hrest hok]
        rfl
    · rw [if_neg hu, if_pos rfl]
      refine (wp_pure _).2 ⟨rfl, ⟨fun h => absurd h (by decide), fun ho => absurd (ho 0 hpos) hu⟩, fun h =>
        absurd h (by decide)⟩

/-! ## copyout -/

theorem userLeaf_same (h : ∀ q ∈ tables b r, SamePage b b' q) : UserLeaf b' r v ↔ UserLeaf b r v := by
  rw [UserLeaf, UserLeaf, look_same h]

theorem phys_same (h : ∀ q ∈ tables b r, SamePage b b' q) (a : Nat) : phys b' r a = phys b r a := by
  rw [phys, phys, look_same h]

theorem open_same (h : ∀ q ∈ tables b r, SamePage b b' q) : Open b' r a n ↔ Open b r a n :=
  forall_congr' fun _ => imp_congr_right fun _ => userLeaf_same h

theorem UserTable.same (hu : UserTable b r) (h : ∀ q ∈ Vm.tables b r, SamePage b b' q) : UserTable b' r := by
  refine ⟨fun q hq => ?_, fun v hv => ?_, fun v w hv hw he => ?_⟩
  · rw [tables_same h] at hq
    exact hu.tables q hq
  · rw [look_same h]
    exact hu.leaves v ((userLeaf_same h).1 hv)
  · rw [look_same h, look_same h] at he
    exact hu.distinct v w ((userLeaf_same h).1 hv) ((userLeaf_same h).1 hw) he

theorem Apart.same (ha : Apart b r) (h : ∀ q ∈ tables b r, SamePage b b' q) : Apart b' r := by
  intro v hv
  rw [look_same h, tables_same h]
  exact ha v ((userLeaf_same h).1 hv)

theorem UserTable.phys_inj (h : UserTable b r) {y : Nat} (hx : UserLeaf b r (x / PGSIZE))
    (hy : UserLeaf b r (y / PGSIZE)) (he : phys b r x = phys b r y) : x = y := by
  have h1 := (h.leaves _ hx).1
  have h2 := (h.leaves _ hy).1
  have hpage : pte2pa (look b r (x / PGSIZE)) = pte2pa (look b r (y / PGSIZE)) ∧ x % PGSIZE = y % PGSIZE := by
    simp only [phys, PGSIZE] at *
    omega
  have hv := h.distinct _ _ hx hy hpage.1
  have := Nat.div_add_mod x PGSIZE
  rw [hv, hpage.2, Nat.div_add_mod] at this
  exact this.symm

/-- What `copyout` of `src` to `a` leaves. -/
structure Out (s s' : Mem) (r a : Nat) (src : List UInt8) (ok : Bool) : Prop where
  rest : s' = { s with bytes := s'.bytes }
  tables : ∀ q ∈ tables s.bytes r, SamePage s.bytes s'.bytes q
  ok_iff : ok = true ↔ Open s.bytes r a src.length
  stored : ok = true → view s'.bytes r a src.length = src
  only : ∀ p, s'.bytes p ≠ s.bytes p →
    ∃ i < src.length, UserLeaf s.bytes r ((a + i) / PGSIZE) ∧ p = phys s.bytes r (a + i)

theorem Out.nothing (s : Mem) (r a : Nat) : Out s s r a [] true :=
  ⟨rfl, fun _ _ => .refl _ _, iff_of_true rfl (open_zero _ _ _), fun _ => rfl, fun _ hp => absurd rfl hp⟩

theorem Out.page (h : UserTable s.bytes r) (ha : Apart s.bytes r) (hu : UserLeaf s.bytes r (a / PGSIZE))
    (hpage : a % PGSIZE + src.length ≤ PGSIZE) :
    Out s { s with bytes := blit s.bytes (phys s.bytes r a) src } r a src true := by
  have hin : ∀ i < src.length, phys s.bytes r (a + i) = phys s.bytes r a + i := fun i hi => phys_add (by omega)
  have hsame : ∀ q ∈ Vm.tables s.bytes r, SamePage s.bytes (blit s.bytes (phys s.bytes r a) src) q := fun q hq =>
    same_blit (h.leaves _ hu).1 (h.tables q hq).1 (fun he => ha _ hu (he ▸ hq)) hpage
  refine ⟨rfl, hsame, iff_of_true rfl fun i hi => ?_, fun _ => ?_, fun p hp => ?_⟩
  · rw [(same_page (by omega)).1]
    exact hu
  · refine ext_getElem (length_view _ _ _ _) fun i h1 h2 => ?_
    simp only [view, getElem_map, getElem_range, phys_same hsame, hin i h2, blit]
    rw [if_pos ⟨Nat.le_add_right _ _, Nat.add_lt_add_left h2 _⟩, Nat.add_sub_cancel_left,
      getD_eq_getElem?_getD, getElem?_eq_getElem h2, Option.getD_some]
  · have hlt : phys s.bytes r a ≤ p ∧ p < phys s.bytes r a + src.length :=
      Decidable.byContradiction fun hn => hp (if_neg hn)
    have hi : p - phys s.bytes r a < src.length := by omega
    refine ⟨p - phys s.bytes r a, hi, ?_, ?_⟩
    · rw [(same_page (by omega)).1]
      exact hu
    · rw [hin _ hi]
      omega

theorem Out.append {s₁ s' : Mem} {src₁ src₂ : List UInt8} {ok : Bool} (h : UserTable s.bytes r)
    (o₁ : Out s s₁ r a src₁ true) (o₂ : Out s₁ s' r x src₂ ok) (hx : src₂.length = 0 ∨ x = a + src₁.length) :
    Out s s' r a (src₁ ++ src₂) ok := by
  have hopen₁ := o₁.ok_iff.1 rfl
  have htab : ∀ q ∈ Vm.tables s.bytes r, SamePage s.bytes s'.bytes q := fun q hq =>
    (o₁.tables q hq).trans (o₂.tables q (by rw [tables_same o₁.tables]; exact hq))
  -- what the second stores to, in terms of the first range's start
  have honly : ∀ p, s'.bytes p ≠ s₁.bytes p → ∃ j < src₂.length,
      UserLeaf s.bytes r ((a + src₁.length + j) / PGSIZE) ∧ p = phys s.bytes r (a + src₁.length + j) := by
    intro p hp
    obtain ⟨j, hj, hl, he⟩ := o₂.only p hp
    rw [hx.resolve_left (by omega)] at hl he
    exact ⟨j, hj, (userLeaf_same o₁.tables).1 hl, he.trans (phys_same o₁.tables _)⟩
  refine ⟨?_, htab, ?_, fun hok => ?_, fun p hp => ?_⟩
  · rw [o₂.rest, o₁.rest]
  · rw [o₂.ok_iff, length_append, open_add, open_same o₁.tables, (next_range hx).1]
    exact ⟨fun h => ⟨hopen₁, h⟩, fun h => h.2⟩
  · have hkept : view s'.bytes r a src₁.length = view s₁.bytes r a src₁.length := by
      refine map_congr_left fun i hi => ?_
      rw [phys_same htab, phys_same o₁.tables]
      by_contra hne
      obtain ⟨j, -, hl, he⟩ := honly _ hne
      have := h.phys_inj (hopen₁ i (mem_range.1 hi)) hl he
      have := mem_range.1 hi
      omega
    rw [length_append, view_add, hkept, o₁.stored rfl, ← (next_range hx).2, o₂.stored hok]
  · by_cases hp₂ : s'.bytes p = s₁.bytes p
    · rw [hp₂] at hp
      obtain ⟨i, hi, hl, he⟩ := o₁.only p hp
      exact ⟨i, by rw [length_append]; omega, hl, he⟩
    · obtain ⟨j, hj, hl, he⟩ := honly p hp₂
      rw [Nat.add_assoc] at hl he
      exact ⟨src₁.length + j, by rw [length_append]; omega, hl, he⟩

theorem copyoutFrom_out : ∀ (k a : Nat) (src : List UInt8) {s : Mem}, UserTable s.bytes r → Apart s.bytes r →
    src.length ≤ k → wp (copyoutFrom r k a src) (fun ok s' => Out s s' r a src ok) (fun _ _ => False) s := by
  intro k
  induction k with
  | zero =>
    intro a src s _ _ hk
    obtain rfl := length_eq_zero_iff.1 (Nat.le_zero.1 hk)
    exact (wp_pure _).2 (.nothing s r a)
  | succ k ih =>
    intro a src s h ha hk
    unfold copyoutFrom
    dsimp only
    by_cases hsrc : src = []
    · rw [if_pos hsrc, hsrc]
      exact (wp_pure _).2 (.nothing s r a)
    have hpos := length_pos_iff.2 hsrc
    rw [if_neg hsrc, pgrounddown_eq]
    refine (walkaddr_read h.tables).seq ?_
    rintro pa s' ⟨rfl, rfl⟩
    by_cases hu : UserLeaf s'.bytes r (a / PGSIZE)
    · obtain ⟨n, m, hn, hlen, hn0, hpage, hnext⟩ := split_page hpos hu.1
      have htake : (src.take (PGSIZE - (a - a / PGSIZE * PGSIZE))).length = n := by rw [length_take, hn]
      have hdrop : (src.drop (PGSIZE - (a - a / PGSIZE * PGSIZE))).length = m := by
        rw [length_drop]
        omega
      have o := Out.page h ha hu (htake ▸ hpage)
      rw [if_pos hu, if_neg (h.page_ne hu), wp_bind, memput, wp_modify, off_eq]
      rw [off_eq] at htake hdrop o
      refine (ih _ _ (h.same o.tables) (ha.same o.tables) (by omega)).imp fun ok s₂ o₂ => ?_
      have happ := o.append h o₂ (by rw [hdrop, htake]; exact hnext)
      rwa [take_append_drop] at happ
    · rw [if_neg hu, if_pos rfl]
      refine (wp_pure _).2 ⟨rfl, fun _ _ => .refl _ _, ?_, fun h => absurd h (by decide), fun _ hp => absurd rfl hp⟩
      exact iff_of_false (by decide) fun ho => hu (ho 0 hpos)

/-! ## copyinstr -/

/-- A NUL comes within `max` bytes of `a`, and the user may access everything up to it. -/
def Terminated (b : Arr) (r a max : Nat) : Prop := ∃ k < max, Open b r a (k + 1) ∧ b (phys b r (a + k)) = 0

/-- `str` is the string at `a` with its NUL. -/
def IsString (b : Arr) (r a max : Nat) (str : List UInt8) : Prop :=
  ∃ k < max, Open b r a (k + 1) ∧ b (phys b r (a + k)) = 0 ∧ 0 ∉ view b r a k ∧ str = view b r a k ++ [0]

theorem IsString.terminated {str : List UInt8} (h : IsString b r a max str) : Terminated b r a max := by
  obtain ⟨k, hk, ho, hz, -⟩ := h
  exact ⟨k, hk, ho, hz⟩

theorem IsString.length_le {str : List UInt8} (h : IsString b r a max str) : str.length ≤ max := by
  obtain ⟨k, hk, -, -, -, rfl⟩ := h
  rw [length_append, length_view]
  exact hk

theorem takeWhile_nul {l : List UInt8} (h : 0 ∈ l) :
    ∃ k, l.takeWhile (· ≠ 0) = l.take k ∧ 0 ∉ l.take k ∧ l[k]? = some 0 := by
  induction l with
  | nil => cases h
  | cons c l ih =>
    by_cases hc : c = 0
    · subst hc
      exact ⟨0, by simp, by simp, rfl⟩
    · obtain ⟨k, h1, h2, h3⟩ := ih ((mem_cons.1 h).resolve_left (Ne.symm hc))
      refine ⟨k + 1, ?_, ?_, h3⟩
      · rw [takeWhile_cons_of_pos (by simpa using hc), h1, take_succ_cons]
      · rw [take_succ_cons, mem_cons, not_or]
        exact ⟨Ne.symm hc, h2⟩

theorem view_getElem? {k : Nat} (hk : k < n) : (view b r a n)[k]? = some (b (phys b r (a + k))) := by
  rw [view, getElem?_map, getElem?_range hk, Option.map_some]

theorem take_view {k : Nat} (hk : k ≤ n) : (view b r a n).take k = view b r a k := by
  obtain ⟨m, rfl⟩ := Nat.exists_eq_add_of_le hk
  rw [view_add]
  exact take_left' (length_view _ _ _ _)

theorem IsString.of_page (hopen : Open b r a n) (hn : n ≤ max) (hnul : 0 ∈ view b r a n) :
    IsString b r a max ((view b r a n).takeWhile (· ≠ 0) ++ [0]) := by
  obtain ⟨k, h1, h2, h3⟩ := takeWhile_nul hnul
  have hk : k < n := by
    have := (List.getElem?_eq_some_iff.1 h3).1
    rwa [length_view] at this
  rw [view_getElem? hk, Option.some.injEq] at h3
  rw [take_view (Nat.le_of_lt hk)] at h1 h2
  exact ⟨k, by omega, fun i hi => hopen i (by omega), h3, h2, by rw [h1]⟩

theorem IsString.append {rest : List UInt8} (hopen : Open b r a n) (hnul : 0 ∉ view b r a n)
    (hx : m = 0 ∨ x = a + n) (h : IsString b r x m rest) : IsString b r a (n + m) (view b r a n ++ rest) := by
  obtain ⟨k, hk, ho, hz, hnz, rfl⟩ := h
  obtain rfl := hx.resolve_left (by omega)
  refine ⟨n + k, by omega, ?_, ?_, ?_, ?_⟩
  · rw [Nat.add_assoc, open_add]
    exact ⟨hopen, ho⟩
  · rw [← Nat.add_assoc]
    exact hz
  · rw [view_add, mem_append, not_or]
    exact ⟨hnul, hnz⟩
  · rw [view_add, append_assoc]

theorem not_terminated_add (hnul : 0 ∉ view b r a n) (hx : m = 0 ∨ x = a + n) (h : ¬ Terminated b r x m) :
    ¬ Terminated b r a (n + m) := by
  rintro ⟨k, hk, ho, hz⟩
  by_cases hkn : k < n
  · exact hnul (mem_of_getElem? ((view_getElem? hkn).trans (congrArg some hz)))
  · obtain ⟨j, rfl⟩ := Nat.exists_eq_add_of_le (Nat.le_of_not_lt hkn)
    obtain rfl := hx.resolve_left (by omega)
    rw [Nat.add_assoc, open_add] at ho
    rw [← Nat.add_assoc] at hz
    exact h ⟨j, by omega, ho.2, hz⟩

theorem copyinstrFrom_string (h : UserTable s.bytes r) : ∀ k a max : Nat, max ≤ k →
    wp (copyinstrFrom r k a max) (fun res s' => s' = s ∧ res.1.length ≤ max ∧
      if res.2 then IsString s.bytes r a max res.1 else ¬ Terminated s.bytes r a max) (fun _ _ => False) s := by
  have hnone : ∀ a, ¬ Terminated s.bytes r a 0 := fun a ht => by
    obtain ⟨k, hk, -⟩ := ht
    exact Nat.not_lt_zero k hk
  intro k
  induction k with
  | zero =>
    intro a max hk
    obtain rfl := Nat.le_zero.1 hk
    exact (wp_pure _).2 ⟨rfl, Nat.zero_le _, hnone a⟩
  | succ k ih =>
    intro a max hk
    unfold copyinstrFrom
    dsimp only
    by_cases hmax : max = 0
    · rw [if_pos hmax, hmax]
      exact (wp_pure _).2 ⟨rfl, Nat.zero_le _, hnone a⟩
    rw [if_neg hmax, pgrounddown_eq]
    refine (walkaddr_read h.tables).seq ?_
    rintro pa s' ⟨rfl, rfl⟩
    by_cases hu : UserLeaf s'.bytes r (a / PGSIZE)
    · obtain ⟨n, m, hn, rfl, hn0, hpage, hnext⟩ := split_page (Nat.pos_of_ne_zero hmax) hu.1
      have hopen : Open s'.bytes r a n := (open_page hn0 hpage).2 hu
      have hgrab : grab s'.bytes (pte2pa (look s'.bytes r (a / PGSIZE)) + a % PGSIZE) n = view s'.bytes r a n :=
        (view_page hpage).symm
      rw [if_pos hu, if_neg (h.page_ne hu), wp_bind, wp_get, hn, Nat.add_sub_cancel_left, off_eq, hgrab]
      by_cases hnul : 0 ∈ view s'.bytes r a n
      · rw [if_pos hnul]
        have hstr := IsString.of_page hopen (Nat.le_add_right n m) hnul
        exact (wp_pure _).2 ⟨rfl, hstr.length_le, hstr⟩
      · rw [if_neg hnul]
        refine (ih _ m (by omega)).seq fun res s₁ hr => ?_
        obtain ⟨rest, ok⟩ := res
        obtain ⟨rfl, hle, hr⟩ := hr
        refine (wp_pure _).2 ⟨rfl, ?_, ?_⟩
        · rw [length_append, length_view]
          exact Nat.add_le_add_left hle n
        cases ok with
        | true => exact IsString.append hopen hnul hnext hr
        | false => exact not_terminated_add hnul hnext hr
    · rw [if_neg hu, if_pos rfl]
      refine (wp_pure _).2 ⟨rfl, Nat.zero_le _, ?_⟩
      rintro ⟨j, -, ho, -⟩
      exact hu (ho 0 (Nat.succ_pos j))

/-! ## Rounds

Each round moves at least one byte, so that as many rounds as bytes are enough. -/

theorem round_shorter (h : len ≠ 0) : len - min (PGSIZE - (a - a / PGSIZE * PGSIZE)) len < len := by
  rw [off_eq]
  have := Nat.mod_lt a (show 0 < PGSIZE by decide)
  omega

theorem copyinFrom_rounds (r k a len : Nat) (hk : len ≤ k) : copyinFrom r k a len = copyin r a len := by
  refine rounds_enough (f := fun k (x : Nat × Nat) => copyinFrom r k x.1 x.2) Prod.snd (fun k x hx => ?_)
    (fun k k' x ih => ?_) len (a, len) (Nat.le_refl len) hk (Nat.le_refl len)
  · cases k with
    | zero => rfl
    | succ k => exact if_pos hx
  · unfold copyinFrom
    dsimp only
    by_cases h0 : x.2 = 0
    · rw [if_pos h0, if_pos h0]
    · rw [if_neg h0, if_neg h0]
      have ih := fun y => ih (y, _) (round_shorter (a := x.1) h0)
      simp only [pgrounddown_eq, ih]

theorem copyoutFrom_rounds (r k a : Nat) (src : List UInt8) (hk : src.length ≤ k) :
    copyoutFrom r k a src = copyout r a src := by
  refine rounds_enough (f := fun k (x : Nat × List UInt8) => copyoutFrom r k x.1 x.2) (fun x => x.2.length)
    (fun k x hx => ?_) (fun k k' x ih => ?_) src.length (a, src) (Nat.le_refl _) hk (Nat.le_refl _)
  · cases k with
    | zero => rfl
    | succ k => exact if_pos (length_eq_zero_iff.1 hx)
  · unfold copyoutFrom
    dsimp only
    by_cases h0 : x.2 = []
    · rw [if_pos h0, if_pos h0]
    · have hlen : x.2.length ≠ 0 := fun h => h0 (length_eq_zero_iff.1 h)
      have hlt : (x.2.drop (PGSIZE - (x.1 - x.1 / PGSIZE * PGSIZE))).length < x.2.length := by
        have := round_shorter (a := x.1) hlen
        rw [length_drop]
        omega
      rw [if_neg h0, if_neg h0]
      have ih := fun y => ih (y, _) hlt
      simp only [pgrounddown_eq, ih]

theorem copyinstrFrom_rounds (r k a max : Nat) (hk : max ≤ k) : copyinstrFrom r k a max = copyinstr r a max := by
  refine rounds_enough (f := fun k (x : Nat × Nat) => copyinstrFrom r k x.1 x.2) Prod.snd (fun k x hx => ?_)
    (fun k k' x ih => ?_) max (a, max) (Nat.le_refl max) hk (Nat.le_refl max)
  · cases k with
    | zero => rfl
    | succ k => exact if_pos hx
  · unfold copyinstrFrom
    dsimp only
    by_cases h0 : x.2 = 0
    · rw [if_pos h0, if_pos h0]
    · rw [if_neg h0, if_neg h0]
      have ih := fun y => ih (y, _) (round_shorter (a := x.1) h0)
      simp only [pgrounddown_eq, ih]
      rfl

end

/-- `copyin`, `copyout` and `copyinstr` succeed on what the user may access and on nothing else; they move exactly the
bytes there, and `copyout` touches no others. -/
theorem user_copies (s : Mem) (r : Nat) (h : UserTable s.bytes r) (ha : Apart s.bytes r) :
    (∀ a len, wp (copyin r a len) (fun res s' => s' = s ∧ (res.2 = true ↔ Open s.bytes r a len) ∧
      (res.2 = true → res.1 = view s.bytes r a len)) (fun _ _ => False) s) ∧
    (∀ a src, wp (copyout r a src) (fun ok s' => Out s s' r a src ok ∧
      (ok = true → wp (copyin r a src.length) (fun res s'' => s'' = s' ∧ res = (src, true)) (fun _ _ => False) s'))
      (fun _ _ => False) s) ∧
    (∀ a max, wp (copyinstr r a max) (fun res s' => s' = s ∧ res.1.length ≤ max ∧
      (res.2 = true ↔ Terminated s.bytes r a max) ∧ (res.2 = true → IsString s.bytes r a max res.1))
      (fun _ _ => False) s) ∧
    (∀ k a len, len ≤ k → copyinFrom r k a len = copyin r a len) ∧
    (∀ k a src, src.length ≤ k → copyoutFrom r k a src = copyout r a src) ∧
    (∀ k a max, max ≤ k → copyinstrFrom r k a max = copyinstr r a max) := by
  refine ⟨fun a len => copyinFrom_view h len a len (Nat.le_refl len), fun a src => ?_, fun a max => ?_,
    copyinFrom_rounds r, copyoutFrom_rounds r, copyinstrFrom_rounds r⟩
  · refine (copyoutFrom_out src.length a src h ha (Nat.le_refl _)).imp fun ok s' o => ⟨o, fun hok => ?_⟩
    have hin := copyinFrom_view (h.same o.tables) src.length a src.length (Nat.le_refl _)
    refine hin.imp fun res s'' hr => ?_
    obtain ⟨dst, ok'⟩ := res
    obtain ⟨rfl, hiff, hview⟩ := hr
    have hok' : ok' = true := hiff.2 ((open_same o.tables).2 (o.ok_iff.1 hok))
    have hdst : dst = src := (hview hok').trans (o.stored hok)
    exact ⟨rfl, by rw [hok', hdst]⟩
  · refine (copyinstrFrom_string h max a max (Nat.le_refl max)).imp fun res s' hr => ?_
    obtain ⟨str, ok⟩ := res
    obtain ⟨rfl, hle, hr⟩ := hr
    refine ⟨rfl, hle, ?_⟩
    cases ok with
    | true => exact ⟨iff_of_true rfl (IsString.terminated hr), fun _ => hr⟩
    | false => exact ⟨iff_of_false Bool.false_ne_true hr, fun h => absurd h Bool.false_ne_true⟩

theorem oneMem_user {q v : Nat} (hq : IsPage sixImage.kend q) (hu : UserLeaf (oneMem q).bytes (sixPage 0) v) :
    v = 0 ∧ pte2pa (look (oneMem q).bytes (sixPage 0) v) = q := by
  have hl := oneMem_look hq (page_lt hu.1).2
  by_cases h0 : v = 0
  · rw [if_pos h0] at hl
    exact ⟨h0, by rw [hl, (leaf_page hq (by decide)).1]⟩
  · have hv := hu.2.1
    rw [hl, if_neg h0] at hv
    exact absurd rfl hv

theorem sixPage_ram (hi : i < 6) : IsPage KERNBASE (sixPage i) :=
  ⟨(sixPage_isPage hi).1, Nat.le_trans (by decide) (sixPage_isPage hi).2.1, (sixPage_isPage hi).2.2⟩

theorem Thin.ram {b : Arr} (h : Thin sixImage.kend b (sixPage 0) (sixPage 1) (sixPage 2)) :
    ∀ q ∈ Vm.tables b (sixPage 0), IsPage KERNBASE q := by
  intro q hq
  rw [h.tables] at hq
  simp only [mem_cons, not_mem_nil, or_false] at hq
  rcases hq with rfl | rfl | rfl
  · exact sixPage_ram (by decide)
  · exact sixPage_ram (by decide)
  · exact sixPage_ram (by decide)

theorem oneMem_userTable {q : Nat} (hq : IsPage sixImage.kend q) : UserTable (oneMem q).bytes (sixPage 0) := by
  refine ⟨(oneMem_thin q).ram, fun v hu => ?_, fun v w hv hw _ => ?_⟩
  · rw [(oneMem_user hq hu).2]
    exact ⟨hq.1, Nat.le_trans (by decide) hq.2.1, hq.2.2⟩
  · rw [(oneMem_user hq hv).1, (oneMem_user hq hw).1]

theorem oneMem_apart : Apart (oneMem (sixPage 3)).bytes (sixPage 0) := by
  intro v hu
  rw [(oneMem_user (sixPage_isPage (by decide)) hu).2, (oneMem_thin _).tables]
  simp only [mem_cons, not_mem_nil, or_false, not_or]
  exact ⟨sixPage_ne (by decide), sixPage_ne (by decide), sixPage_ne (by decide)⟩

/-- A machine with one user page. -/
theorem user_copies_one : wp (copyin (sixPage 0) 5 3)
    (fun res s' => s' = oneMem (sixPage 3) ∧
      (res.2 = true ↔ Open (oneMem (sixPage 3)).bytes (sixPage 0) 5 3) ∧
      (res.2 = true → res.1 = view (oneMem (sixPage 3)).bytes (sixPage 0) 5 3))
    (fun _ _ => False) (oneMem (sixPage 3)) :=
  (user_copies _ _ (oneMem_userTable (sixPage_isPage (by decide))) oneMem_apart).1 5 3

theorem copyout_page {s : Mem} {r a : Nat} (h : UserTable s.bytes r)
    (hu : UserLeaf s.bytes r (a / PGSIZE)) (h0 : src ≠ []) (hpage : a % PGSIZE + src.length ≤ PGSIZE) :
    wp (copyout r a src) (fun ok s' => ok = true ∧ s' = { s with bytes := blit s.bytes (phys s.bytes r a) src })
      (fun _ _ => False) s := by
  obtain ⟨k, hk⟩ := Nat.exists_eq_succ_of_ne_zero (fun h => h0 (length_eq_zero_iff.1 h))
  unfold copyout
  rw [hk]
  unfold copyoutFrom
  dsimp only
  rw [if_neg h0, pgrounddown_eq]
  refine (walkaddr_read h.tables).seq ?_
  rintro pa t ⟨rfl, rfl⟩
  have htake : src.length ≤ PGSIZE - a % PGSIZE := by omega
  rw [if_pos hu, if_neg (h.page_ne hu), wp_bind, memput, wp_modify, off_eq, take_of_length_le htake,
    drop_of_length_le htake]
  cases k with
  | zero => exact (wp_pure _).2 ⟨rfl, rfl⟩
  | succ k =>
    unfold copyoutFrom
    rw [if_pos rfl]
    exact (wp_pure _).2 ⟨rfl, rfl⟩

theorem copyin_closed {s : Mem} {r a : Nat} (h : ∀ q ∈ tables s.bytes r, IsPage KERNBASE q)
    (hu : ¬ UserLeaf s.bytes r (a / PGSIZE)) (h0 : len ≠ 0) :
    wp (copyin r a len) (fun res s' => res = ([], false) ∧ s' = s) (fun _ _ => False) s := by
  obtain ⟨k, rfl⟩ := Nat.exists_eq_succ_of_ne_zero h0
  unfold copyin copyinFrom
  dsimp only
  rw [if_neg h0, pgrounddown_eq]
  refine (walkaddr_read h).seq ?_
  rintro pa t ⟨rfl, rfl⟩
  rw [if_neg hu, if_pos rfl]
  exact (wp_pure _).2 ⟨rfl, rfl⟩

/-- The user's page is the table that maps it, and they overwrite its entry: it cannot be read back. -/
theorem copyout_own_table : UserTable (oneMem (sixPage 2)).bytes (sixPage 0) ∧
    ∃ s', exec (copyout (sixPage 0) 0 (List.replicate 8 0)) (oneMem (sixPage 2)) = (.ok true, s') ∧
      ∃ dst, exec (copyin (sixPage 0) 0 8) s' = (.ok (dst, false), s') := by
  have hq := sixPage_isPage (show 2 < 6 by decide)
  have h := oneMem_userTable hq
  have hu : UserLeaf (oneMem (sixPage 2)).bytes (sixPage 0) (0 / PGSIZE) := by
    rw [UserLeaf, oneMem_look hq (by decide), if_pos (by decide)]
    decide
  have hphys : phys (oneMem (sixPage 2)).bytes (sixPage 0) 0 = sixPage 2 := (oneMem_user hq hu).2
  obtain ⟨ok, s', he, rfl, hs'⟩ :=
    (copyout_page h hu (show List.replicate 8 0 ≠ [] by decide) (by decide)).returns
  rw [hphys] at hs'
  have hb : s'.bytes = blit (oneMem (sixPage 2)).bytes (sixPage 2 + 0) (List.replicate 8 0) := by
    rw [hs', Nat.add_zero]
  have hsame : ∀ {i : Nat}, i < 6 → i ≠ 2 → SamePage (oneMem (sixPage 2)).bytes s'.bytes (sixPage i) := by
    intro i hi hne
    rw [hb]
    exact same_blit hq.1 (sixPage_aligned hi) (sixPage_ne hne) (by decide)
  have hthin : Thin sixImage.kend s'.bytes (sixPage 0) (sixPage 1) (sixPage 2) := by
    obtain ⟨h1, h0, hr, hm⟩ := oneMem_thin (sixPage 2)
    refine ⟨h1, h0, fun i hi => ?_, fun i hi => ?_⟩
    · rw [entries_same (hsame (by decide) (by decide)) hi, hr i hi]
    · rw [entries_same (hsame (by decide) (by decide)) hi, hm i hi]
  have hclosed : ¬ UserLeaf s'.bytes (sixPage 0) (0 / PGSIZE) := by
    have hz : le64 s'.bytes (sixPage 2 + 8 * (0 / PGSIZE)) = le64 (fun _ => 0) (sixPage 2 + 8 * (0 / PGSIZE)) := by
      refine le64_congr fun i h1 h2 => ?_
      rw [hb, blit, if_pos ⟨h1, h2⟩, getD_eq_getElem?_getD, getElem?_replicate]
      split <;> rfl
    intro hu
    have hv := hu.2.1
    rw [hthin.look (by decide), if_pos (by decide), entries, hz] at hv
    exact hv rfl
  obtain ⟨res, s'', he', rfl, rfl⟩ := (copyin_closed hthin.ram hclosed (show 8 ≠ 0 by decide)).returns
  exact ⟨h, s'', he, [], he'⟩

/-! ## Address spaces -/

section
variable {s s' : Mem} {r n a : Nat} {top : Nat → Nat} {R : List Nat}

theorem IsPage.ram {p : Nat} (h : IsPage s.img.kend p) : IsPage KERNBASE p :=
  ⟨h.1, Nat.le_trans s.img.base (Nat.le_trans (Nat.le_of_add_right_le s.img.text) h.2.1), h.2.2⟩

theorem Space.user_lt {v : Nat} (h : Space s r n top R) (hg : Guarded top) (hu : UserLeaf s.bytes r v) : v < n := by
  by_contra hn
  have hU := hu.2.2
  rw [h.rest v (Nat.le_of_not_lt hn) (page_lt hu.1).2] at hU
  exact hU (hg v)

theorem Space.userTable (h : Space s r n top R) (hg : Guarded top) : UserTable s.bytes r := by
  refine ⟨fun q hq => (h.owns.heap.isPage (mem_append_left _ hq)).ram, fun v hu => ?_, fun v w hv hw he => ?_⟩
  · have hm := mem_mapped (b := s.bytes) (r := r) (h.user_lt hg hu)
    exact (h.owns.heap.isPage (mem_append_right _ (mem_append_left _ hm))).ram
  · have hnd := (nodup_append.1 (nodup_append.1 h.owns.heap.nodup).2.1).1
    refine inj_on_of_nodup_map hnd (mem_range'_1.2 ⟨Nat.zero_le v, ?_⟩)
      (mem_range'_1.2 ⟨Nat.zero_le w, ?_⟩) he
    · rw [Nat.zero_add]
      exact h.user_lt hg hv
    · rw [Nat.zero_add]
      exact h.user_lt hg hw

theorem Space.apart (h : Space s r n top R) (hg : Guarded top) : Apart s.bytes r := fun _ hu =>
  h.owns.heap.apart (mem_append_left _ (mem_mapped (h.user_lt hg hu)))

theorem Out.space {ok : Bool} (o : Out s s' r a src ok) (h : Space s r n top R) (hg : Guarded top) :
    Frame s s' (Vm.tables s.bytes r ++ R) ∧ Space s' r n top R := by
  have hL : ∀ q, IsPage s.img.kend q → q ∉ mapped s.bytes r 0 n → SamePage s.bytes s'.bytes q := by
    intro q hq hm i h1 h2
    by_contra hne
    obtain ⟨j, -, hu, rfl⟩ := o.only i hne
    have hp := mem_mapped (b := s.bytes) (r := r) (h.user_lt hg hu)
    have hpq : pte2pa (look s.bytes r ((a + j) / PGSIZE)) ≠ q := fun he => hm (he ▸ hp)
    have hap := pages_apart (h.owns.heap.isPage (mem_append_right _ (mem_append_left _ hp))).1 hq.1 hpq
    have := Nat.mod_lt (a + j) (show 0 < PGSIZE by decide)
    simp only [phys] at h1 h2
    omega
  have hnd := nodup_append.1 h.owns.heap.nodup
  have hnd' := nodup_append.1 hnd.2.1
  have hf : Frame s s' (Vm.tables s.bytes r ++ R) := by
    refine ⟨by rw [o.rest], fun hf => by rw [o.rest]; exact hf, fun q hq => ?_⟩
    rcases mem_append.1 hq with hq | hq
    · exact o.tables q hq
    · refine hL q (h.owns.heap.isPage (mem_append_right _ (mem_append_right _ hq))) fun hm => ?_
      exact hnd'.2.2 q hm q hq rfl
  refine ⟨hf, h.frame hf.left ?_⟩
  rw [o.rest]
  refine h.owns.heap.write fun q hq hm => hL q hq fun hq' => hm ?_
  exact mem_append_right _ (mem_append_left _ hq')

theorem copyout_spec {dstva : Nat} (hg : Guarded top) (h : Space s r n top R) :
    wp (copyout r dstva src)
      (fun ok s' => Frame s s' (tables s.bytes r ++ R) ∧ Space s' r n top R ∧ Out s s' r dstva src ok)
      (fun _ _ => False) s := by
  have ho := copyoutFrom_out src.length dstva src (h.userTable hg) (h.apart hg) (Nat.le_refl _)
  refine ho.imp fun ok s' o => ?_
  obtain ⟨hf, hs⟩ := o.space h hg
  exact ⟨hf, hs, o⟩

end

end Xv6.Vm
