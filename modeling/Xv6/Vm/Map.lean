import Xv6.Vm.Table
/-!
# A page table as a map

`look b r v` is the PTE that the page table `r` has for the virtual page `v`, 0
if the tables above it are missing. Storing into the entry that `walk` returned
changes this map at one page and nothing else; `walk` itself does not change it.

The specifications are about a page table in its surroundings: the pages in use
are the tables of `r` and those in `R`, and the pages in `R` keep their bytes.
-/

namespace Xv6.Vm

open Bytes Hoare Radix List Option

/-- The number of virtual pages that three levels of tables translate. -/
def VPAGES : Nat := 2 ^ 27

/-- The number of virtual pages below `MAXVA`. -/
def MAXVP : Nat := 2 ^ 26

theorem page_lt {v : Nat} (h : v < MAXVP) : v * PGSIZE < MAXVA ∧ v < VPAGES := by
  simp only [MAXVP, PGSIZE, MAXVA, VPAGES] at *
  omega

/-- The pages that make up the page table `r`. -/
abbrev tables (b : Arr) (r : Nat) : List Nat := tablesAt b 2 r

def look (b : Arr) (r v : Nat) : Nat :=
  ((tableFor b (v * PGSIZE) 2 r).map fun t => entries b t (px 0 (v * PGSIZE))).getD 0

section Look
variable {b b' : Arr} {r v w t : Nat}

theorem look_some (h : tableFor b (v * PGSIZE) 2 r = some t) : look b r v = entries b t (px 0 (v * PGSIZE)) := by
  rw [look, h, map_some, getD_some]

theorem look_none (h : tableFor b (v * PGSIZE) 2 r = none) : look b r v = 0 := by
  rw [look, h, map_none, getD_none]

theorem page_eq_of_px (hv : v < VPAGES) (hw : w < VPAGES) (h0 : px 0 (v * PGSIZE) = px 0 (w * PGSIZE))
    (h1 : px 1 (v * PGSIZE) = px 1 (w * PGSIZE)) (h2 : px 2 (v * PGSIZE) = px 2 (w * PGSIZE)) : v = w := by
  simp only [px_eq, VPAGES, PGSIZE] at *
  omega

theorem tables_same (h : ∀ q ∈ tables b r, SamePage b b' q) : tables b' r = tables b r :=
  tablesAt_same fun q hq => h q (inner_sub_nodes hq)

theorem plain_same (h : ∀ q ∈ tables b r, SamePage b b' q) (hp : Plain b 2 r) : Plain b' 2 r :=
  hp.same fun q hq => h q (inner_sub_nodes hq)

theorem look_same (h : ∀ q ∈ tables b r, SamePage b b' q) (v : Nat) : look b' r v = look b r v := by
  have hfor : tableFor b' (v * PGSIZE) 2 r = tableFor b (v * PGSIZE) 2 r :=
    tableFor_same fun q hq => h q (inner_sub_nodes hq)
  cases ht : tableFor b (v * PGSIZE) 2 r with
  | none => rw [look_none ht, look_none (hfor.trans ht)]
  | some t =>
    rw [look_some ht, look_some (hfor.trans ht), entries_same (h t (find_mem (fun _ => px_lt _ _) ht)) (px_lt _ _)]

theorem slot_le (t l va : Nat) : t + 8 * px l va + 8 ≤ t + PGSIZE := by
  have hi := px_lt l va
  have hp : PGSIZE = 4096 := rfl
  omega

theorem look_store {e : Nat} (hv : v < VPAGES) (he : e < 2 ^ 64) (hn : (tables b r).Nodup)
    (hal : ∀ q ∈ tables b r, q % PGSIZE = 0) (ht : tableFor b (v * PGSIZE) 2 r = some t)
    (hb : b' = put64 b (t + 8 * px 0 (v * PGSIZE)) e) :
    tables b' r = tables b r ∧ (∀ ok, Inner ok b 2 r → Inner ok b' 2 r) ∧
      (∀ va, tableFor b' va 2 r = tableFor b va 2 r) ∧
      ∀ w < VPAGES, look b' r w = if w = v then e else look b r w := by
  subst hb
  have hi := px_lt 0 (v * PGSIZE)
  have htm : t ∈ tables b r := find_mem (fun _ => px_lt _ _) ht
  have hsame : ∀ q ∈ tables b r, q ≠ t → SamePage b (put64 b (t + 8 * px 0 (v * PGSIZE)) e) q := fun q hq hne =>
    same_put64 (hal t htm) (hal q hq) hne (Nat.le_add_right _ _) (slot_le _ _ _)
  have hin : ∀ q ∈ innerAt b 2 r, SamePage b (put64 b (t + 8 * px 0 (v * PGSIZE)) e) q := fun q hq =>
    hsame q (inner_sub_nodes hq) fun he => find_not_inner (fun _ => px_lt _ _) hn ht (he ▸ hq)
  have hfor : ∀ va, tableFor (put64 b (t + 8 * px 0 (v * PGSIZE)) e) va 2 r = tableFor b va 2 r :=
    fun va => tableFor_same hin
  refine ⟨tablesAt_same hin, fun _ hp => hp.same hin, hfor, fun w hw => ?_⟩
  split
  · next hwv =>
    subst hwv
    rw [look_some ((hfor _).trans ht), entries, le64_put64, Nat.mod_eq_of_lt he]
  · next hwv =>
    cases h : tableFor b (w * PGSIZE) 2 r with
    | none => rw [look_none h, look_none ((hfor _).trans h)]
    | some t' =>
      rw [look_some h, look_some ((hfor _).trans h)]
      by_cases htt : t' = t
      · -- one table: the pages differ in the last index
        subst htt
        have hix := find_inj (fun _ => px_lt _ _) (fun _ => px_lt _ _) hn h ht
        have h0 : px 0 (w * PGSIZE) ≠ px 0 (v * PGSIZE) := fun h0 =>
          hwv (page_eq_of_px hw hv h0 (hix 1 (by decide) (by decide)) (hix 2 (by decide) (by decide)))
        exact le64_put64_other (by omega)
      · exact entries_same (hsame t' (find_mem (fun _ => px_lt _ _) h) htt) (px_lt _ _)

end Look

/-- The page table `r` and the pages in `R` are what is in use. -/
structure Owns (s : Mem) (r : Nat) (R : List Nat) : Prop where
  heap : Heap s (tables s.bytes r ++ R)
  plain : Plain s.bytes 2 r

namespace Heap
variable {s : Mem} {r : Nat} {R : List Nat}

section
variable (h : Heap s (tables s.bytes r ++ R))
include h

theorem tables_nodup : (tables s.bytes r).Nodup :=
  (nodup_append.1 h.nodup).1

theorem aligned : ∀ q ∈ tables s.bytes r, q % PGSIZE = 0 := fun _ hq =>
  (h.isPage (mem_append_left _ hq)).1

theorem apart {q : Nat} (hq : q ∈ R) : q ∉ tables s.bytes r := fun hm =>
  (nodup_append.1 h.nodup).2.2 q hm q hq rfl

theorem slot_ne {t va : Nat} (ht : tableFor s.bytes va 2 r = some t) :
    t + 8 * px 0 va ≠ 0 := by
  obtain ⟨-, hle, -⟩ := h.isPage (mem_append_left _ (find_mem (fun _ => px_lt _ _) ht))
  have hb := s.img.base
  have hx := s.img.text
  simp only [KERNBASE] at hb
  omega

end

end Heap

namespace Owns
variable {s s' : Mem} {r : Nat} {R R' : List Nat}

theorem perm (h : Owns s r R) (hp : R.Perm R') : Owns s r R' := ⟨h.heap.perm (hp.append_left _), h.plain⟩

theorem frame (h : Owns s r R) (hf : Frame s s' (tables s.bytes r)) (hs : Heap s' (tables s.bytes r ++ R')) :
    Owns s' r R' :=
  ⟨by rw [tables_same hf.same]; exact hs, plain_same hf.same h.plain⟩

end Owns

/-- After a change `r` is a page table over the pages in `R` still, and what its inner entries had in common, which a
new one has too, they have. -/
structure Kept (s s' : Mem) (r : Nat) (R : List Nat) : Prop where
  heap : Heap s' (tables s'.bytes r ++ R)
  flags : ∀ ok : Nat → Prop, ok PTE_V → Inner ok s.bytes 2 r → Inner ok s'.bytes 2 r

theorem Kept.owns {s s' : Mem} {r : Nat} {R R' : List Nat} (k : Kept s s' r R) (h : Owns s r R') : Owns s' r R :=
  ⟨k.heap, k.flags (· = PTE_V) rfl h.plain⟩

theorem Kept.trans {s s' s'' : Mem} {r : Nat} {R R' : List Nat} (k : Kept s s' r R') (k' : Kept s' s'' r R) :
    Kept s s'' r R :=
  ⟨k'.heap, fun ok hv hi => k'.flags ok hv (k.flags ok hv hi)⟩

theorem Frame.trans {s s' s'' : Mem} {L : List Nat} (h : Frame s s' L) (h' : Frame s' s'' L) : Frame s s'' L :=
  ⟨h'.img.trans h.img, fun hf => h'.fails (h.fails hf), fun q hq => (h.same q hq).trans (h'.same q hq)⟩

theorem Frame.sub {s s' : Mem} {L L' : List Nat} (h : Frame s s' L) (hs : ∀ q ∈ L', q ∈ L) : Frame s s' L' :=
  ⟨h.img, h.fails, fun q hq => h.same q (hs q hq)⟩

theorem Frame.left {s s' : Mem} {L L' : List Nat} (h : Frame s s' (L ++ L')) : Frame s s' L :=
  h.sub fun _ => mem_append_left _

theorem Frame.right {s s' : Mem} {L L' : List Nat} (h : Frame s s' (L ++ L')) : Frame s s' L' :=
  h.sub fun _ => mem_append_right _

/-! ## walk -/

theorem look_grown {s s' : Mem} {r : Nat} {L new : List Nat} (hL : ∀ q ∈ tables s.bytes r, q ∈ L)
    (hn : (tables s.bytes r).Nodup) (g : Grown s s' L 2 r new) (v : Nat) : look s'.bytes r v = look s.bytes r v := by
  cases h : tableFor s.bytes (v * PGSIZE) 2 r with
  | some t =>
    have hs : SamePage s.bytes s'.bytes t :=
      g.same t (hL t (find_mem (fun _ => px_lt _ _) h)) (find_not_inner (fun _ => px_lt _ _) hn h)
    rw [look_some h, look_some (g.old _ t h), entries_same hs (px_lt _ _)]
  | none =>
    rw [look_none h]
    cases h' : tableFor s'.bytes (v * PGSIZE) 2 r with
    | none => exact look_none h'
    | some t =>
      rcases g.fresh _ t h' with ht | ⟨-, hz⟩
      · rw [h] at ht
        cases ht
      · rw [look_some h', hz _ (px_lt _ _)]

/-- The number of tables that `walk` may have to make for page `v`. -/
def missing (b : Arr) (r v : Nat) : Nat := if (tableFor b (v * PGSIZE) 2 r).isSome then 0 else 2

/-- What `walk` does to the page table and its surroundings. -/
structure Walk (s s' : Mem) (r v : Nat) (R : List Nat) : Prop where
  frame : Frame s s' R
  kept : Kept s s' r R
  look : ∀ w, look s'.bytes r w = Vm.look s.bytes r w
  count : (tables s'.bytes r).length ≤ (tables s.bytes r).length + missing s.bytes r v

theorem walk_alloc {s : Mem} {r v : Nat} {R : List Nat} (h : Heap s (tables s.bytes r ++ R)) (hv : v < MAXVP) :
    wp (walk r (v * PGSIZE) true) (fun a s' => Walk s s' r v R ∧
      (a = 0 ∧ Short s (tables s.bytes r ++ R) (missing s.bytes r v) ∨
        a ≠ 0 ∧ ∃ t, tableFor s'.bytes (v * PGSIZE) 2 r = some t ∧ a = t + 8 * px 0 (v * PGSIZE)))
      (fun _ _ => False) s := by
  have hsub : ∀ q ∈ tables s.bytes r, q ∈ tables s.bytes r ++ R := fun q => mem_append_left _
  unfold walk
  simp only [wp_bind, wp_ite, wp_throw]
  refine ⟨fun hge => absurd (page_lt hv).1 (Nat.not_lt_of_le hge), fun _ => ?_⟩
  refine (walkFrom_spec _ true 2 r h hsub h.tables_nodup).imp ?_
  rintro a s' ⟨new, w⟩
  have g := w.grown
  have hheap : Heap s' (tables s'.bytes r ++ R) := by
    refine g.heap.perm ?_
    rw [← append_assoc]
    exact g.tables.symm.append_right R
  refine ⟨⟨⟨g.img, g.fails, fun q hq => ?_⟩, ⟨hheap, g.flags⟩, look_grown hsub h.tables_nodup g, ?_⟩, ?_⟩
  · exact g.same q (mem_append_right _ hq) fun hm => h.apart hq (inner_sub_nodes hm)
  · rw [g.tables.length_eq, length_append, Nat.add_comm]
    refine Nat.add_le_add_left ?_ _
    unfold missing
    split
    · next hsome =>
      obtain ⟨t, ht⟩ := isSome_iff_exists.1 hsome
      rw [w.kept t ht, length_nil]
    · exact w.few
  · rcases w.found with ⟨h0, hnone, hs⟩ | ⟨t, ht, ha⟩
    · refine .inl ⟨h0, ?_⟩
      rw [missing, hnone]
      exact hs rfl
    · exact .inr ⟨ha ▸ hheap.slot_ne ht, t, ht, ha⟩

theorem walk_find {s : Mem} {r v : Nat} {R : List Nat} (h : Heap s (tables s.bytes r ++ R)) (hv : v < MAXVP) :
    wp (walk r (v * PGSIZE) false) (fun a s' => s' = s ∧
      (a = 0 ∧ look s.bytes r v = 0 ∨
        a ≠ 0 ∧ ∃ t, tableFor s.bytes (v * PGSIZE) 2 r = some t ∧ a = t + 8 * px 0 (v * PGSIZE)))
      (fun _ _ => False) s := by
  have hsub : ∀ q ∈ tables s.bytes r, q ∈ tables s.bytes r ++ R := fun q => mem_append_left _
  unfold walk
  simp only [wp_bind, wp_ite, wp_throw]
  refine ⟨fun hge => absurd (page_lt hv).1 (Nat.not_lt_of_le hge), fun _ => ?_⟩
  refine (walkFrom_spec _ false 2 r h hsub h.tables_nodup).imp ?_
  rintro a s' ⟨new, w⟩
  obtain rfl := w.pure rfl
  refine ⟨rfl, ?_⟩
  rcases w.found with ⟨h0, hnone, -⟩ | ⟨t, ht, ha⟩
  · exact .inl ⟨h0, look_none hnone⟩
  · exact .inr ⟨ha ▸ h.slot_ne ht, t, ht, ha⟩

/-! ## Stores into entries -/

/-- `s'` is `s` with `e` stored as the PTE of `v`. -/
structure Put (s s' : Mem) (r v e : Nat) (R : List Nat) : Prop where
  frame : Frame s s' R
  kept : Kept s s' r R
  tables : tables s'.bytes r = Vm.tables s.bytes r
  tableFor : ∀ va, tableFor s'.bytes va 2 r = Vm.tableFor s.bytes va 2 r
  look : ∀ w < VPAGES, look s'.bytes r w = if w = v then e else Vm.look s.bytes r w

theorem Heap.put {s : Mem} {r v t e : Nat} {R : List Nat} (h : Heap s (tables s.bytes r ++ R)) (hv : v < VPAGES)
    (he : e < 2 ^ 64) (ht : tableFor s.bytes (v * PGSIZE) 2 r = some t) :
    Put s { s with bytes := put64 s.bytes (t + 8 * px 0 (v * PGSIZE)) e } r v e R := by
  have htm : t ∈ tables s.bytes r := find_mem (fun _ => px_lt _ _) ht
  have hsame : ∀ q, IsPage s.img.kend q → q ≠ t →
      SamePage s.bytes (put64 s.bytes (t + 8 * px 0 (v * PGSIZE)) e) q := fun q hq hne =>
    same_put64 (h.aligned t htm) hq.1 hne (Nat.le_add_right _ _) (slot_le _ _ _)
  obtain ⟨htab, hflags, hfor, hlook⟩ := look_store hv he h.tables_nodup h.aligned ht rfl
  refine ⟨⟨rfl, id, fun q hq => ?_⟩, ⟨?_, fun ok _ => hflags ok⟩, htab, hfor, hlook⟩
  · exact hsame q (h.isPage (mem_append_right _ hq)) fun he => h.apart hq (he ▸ htm)
  · rw [htab]
    exact h.write fun q hq hm => hsame q hq fun he => hm (mem_append_left _ (he ▸ htm))

/-! ## mappages -/

/-- The PTE that `mappages` makes. -/
def leaf (pa perm : Nat) : Nat := pa2pte pa ||| perm ||| PTE_V

/-- A bound for the tables that mapping the pages from `v` to `v + n` makes: one pair for the first page, and one for
each start of a bottom table after it. -/
def cost (b : Arr) (r v n : Nat) : Nat := missing b r v + 2 * ((v % 512 + n) / 512)

theorem missing_le (b : Arr) (r v : Nat) : missing b r v ≤ 2 := by
  unfold missing
  split <;> omega

theorem missing_next {b : Arr} {r v t n : Nat} (ht : tableFor b (v * PGSIZE) 2 r = some t) :
    cost b r (v + 1) n ≤ 2 * ((v % 512 + (n + 1)) / 512) := by
  by_cases h : (v + 1) % 512 = 0
  · have := missing_le b r (v + 1)
    unfold cost
    omega
  · have hnext : tableFor b ((v + 1) * PGSIZE) 2 r = some t := by
      rw [← ht]
      refine find_ix fun k h0 hk => ?_
      simp only [px_eq, PGSIZE]
      obtain rfl | rfl : k = 1 ∨ k = 2 := by omega
      · omega
      · omega
    rw [cost, missing, hnext, isSome_some, if_pos rfl]
    omega

/-- The pages from `v` to `v + n` have been mapped to those from `pa` on, or only some of them. -/
structure Mapped (s s' : Mem) (r v pa perm n : Nat) (R : List Nat) (ok : Bool) : Prop where
  frame : Frame s s' R
  kept : Kept s s' r R
  count : (tables s'.bytes r).length ≤ (tables s.bytes r).length + cost s.bytes r v n
  look : ∃ k, (if ok then k = n + 1 else k ≤ n) ∧
    ∀ w < VPAGES, look s'.bytes r w =
      if v ≤ w ∧ w < v + k then leaf ((pa + (w - v) * PGSIZE) % 2 ^ 64) perm else Vm.look s.bytes r w
  short : ok = false → Short s (tables s.bytes r ++ R) (cost s.bytes r v n)

theorem cost_zero (b : Arr) (r v : Nat) : cost b r v 0 = missing b r v := by
  have := Nat.mod_lt v (show 0 < 512 by decide)
  unfold cost
  omega

theorem Mapped.step {s s₂ s' : Mem} {r v t pa perm n : Nat} {R : List Nat} {ok : Bool}
    (h : Mapped s s₂ r v pa perm 0 R true) (ht : tableFor s₂.bytes (v * PGSIZE) 2 r = some t)
    (hm : Mapped s₂ s' r (v + 1) ((pa + PGSIZE) % 2 ^ 64) perm n R ok) : Mapped s s' r v pa perm (n + 1) R ok := by
  have hnext : cost s₂.bytes r (v + 1) n ≤ 2 * ((v % 512 + (n + 1)) / 512) := missing_next ht
  have hcount := h.count
  rw [cost_zero] at hcount
  have hcost : cost s.bytes r v (n + 1) = missing s.bytes r v + 2 * ((v % 512 + (n + 1)) / 512) := rfl
  obtain ⟨_, rfl, hlook₂⟩ := h.look
  obtain ⟨k, hk, hlook⟩ := hm.look
  refine ⟨h.frame.trans hm.frame, h.kept.trans hm.kept, ?_, ⟨k + 1, ?_, fun w hwv => ?_⟩, fun hok hf => ?_⟩
  · have := hm.count
    omega
  · cases ok with
    | true => exact congrArg (· + 1) hk
    | false => exact Nat.succ_le_succ hk
  · rw [hlook w hwv, hlook₂ w hwv]
    by_cases hlt : v + 1 ≤ w ∧ w < v + 1 + k
    · rw [if_pos hlt, if_pos (by omega), show w - v = w - (v + 1) + 1 by omega, Nat.add_one_mul, Nat.mod_add_mod,
        Nat.add_assoc, Nat.add_comm PGSIZE]
    · rw [if_neg hlt]
      by_cases hwe : w = v
      · subst hwe
        rw [if_pos (by omega), if_pos (by omega)]
      · rw [if_neg (by omega), if_neg (by omega)]
  · have hs := hm.short hok (h.frame.fails hf)
    rw [h.frame.img, length_append] at hs
    rw [length_append]
    omega

theorem Mapped.stop {s s' : Mem} {r v pa perm : Nat} {R : List Nat} (h : Mapped s s' r v pa perm 0 R false) (n : Nat) :
    Mapped s s' r v pa perm n R false := by
  have hcost : cost s.bytes r v 0 ≤ cost s.bytes r v n := by
    rw [cost_zero]
    exact Nat.le_add_right _ _
  obtain ⟨k, hk, hlook⟩ := h.look
  exact ⟨h.frame, h.kept, Nat.le_trans h.count (Nat.add_le_add_left hcost _), ⟨k, Nat.le_trans hk (Nat.zero_le n), hlook⟩,
    fun hok => (h.short hok).mono hcost⟩

theorem leaf_lt {pa perm : Nat} (hperm : perm < 2 ^ 10) (ha : pa % PGSIZE = 0) (hb : pa < 2 ^ 64) :
    leaf pa perm < 2 ^ 64 := (entry_decode perm hperm ha hb).2.2.2

theorem mapPage_spec {s : Mem} {r v pa perm : Nat} {R : List Nat} (hperm : perm < 2 ^ 10)
    (h : Heap s (tables s.bytes r ++ R)) (hv : v < MAXVP) (ha : pa % PGSIZE = 0) (hb : pa < 2 ^ 64)
    (hfree : look s.bytes r v % 2 = 0) :
    wp (mapPage r perm (v * PGSIZE) pa)
      (fun ok s' => Mapped s s' r v pa perm 0 R ok ∧ (ok = true → ∃ t, tableFor s'.bytes (v * PGSIZE) 2 r = some t))
      (fun _ _ => False) s := by
  unfold mapPage
  refine (walk_alloc h hv).seq ?_
  rintro a s₁ ⟨w, hw⟩
  unfold load store
  simp only [wp_bind, wp_ite, wp_pure, wp_get, wp_throw, wp_modify]
  rcases hw with ⟨rfl, hs⟩ | ⟨ha0, t, ht, rfl⟩
  · refine ⟨fun _ => ⟨⟨w.frame, w.kept, ?_, ⟨0, Nat.le_refl 0, fun x _ => ?_⟩, fun _ => ?_⟩,
      fun h => absurd h (by decide)⟩, fun h0 => absurd rfl h0⟩
    · rw [cost_zero]
      exact w.count
    · rw [if_neg (by omega), w.look x]
    · rw [cost_zero]
      exact hs
  · have hold : le64 s₁.bytes (t + 8 * px 0 (v * PGSIZE)) = look s.bytes r v := by
      rw [← w.look v, look_some ht]
      rfl
    refine ⟨fun h0 => absurd h0 ha0, fun _ => ⟨fun hval => ?_, fun _ => ?_⟩⟩
    · rw [hold, valid_iff] at hval
      omega
    · have p : Put s₁ { s₁ with bytes := put64 s₁.bytes (t + 8 * px 0 (v * PGSIZE)) (pa2pte pa ||| perm ||| PTE_V) } r v
          (leaf pa perm) R := w.kept.heap.put (page_lt hv).2 (leaf_lt hperm ha hb) ht
      refine ⟨⟨w.frame.trans p.frame, w.kept.trans p.kept, ?_, ⟨1, rfl, fun x hx => ?_⟩, fun h => absurd h (by decide)⟩,
        fun _ => ⟨t, (p.tableFor _).trans ht⟩⟩
      · rw [p.tables, cost_zero]
        exact w.count
      · rw [p.look x hx, w.look x]
        by_cases hxv : x = v
        · subst hxv
          rw [if_pos rfl, if_pos (by omega), Nat.sub_self, Nat.zero_mul, Nat.add_zero, Nat.mod_eq_of_lt hb]
        · rw [if_neg hxv, if_neg (by omega)]

theorem mapFrom_spec {r perm : Nat} {R : List Nat} (hperm : perm < 2 ^ 10) : ∀ (n v pa : Nat) {s : Mem},
    Heap s (tables s.bytes r ++ R) → v + n < MAXVP → pa % PGSIZE = 0 → pa < 2 ^ 64 →
    (∀ w, v ≤ w → w ≤ v + n → look s.bytes r w % 2 = 0) →
      wp (mapFrom r perm n (v * PGSIZE) pa) (fun ok s' => Mapped s s' r v pa perm n R ok) (fun _ _ => False) s := by
  intro n
  induction n with
  | zero =>
    intro v pa s h hv ha hb hfree
    exact (mapPage_spec hperm h hv ha hb (hfree v (Nat.le_refl _) (Nat.le_refl _))).imp fun _ _ hm => hm.1
  | succ n ih =>
    intro v pa s h hv ha hb hfree
    have hv' : v * PGSIZE + PGSIZE < 2 ^ 64 := by
      simp only [PGSIZE, MAXVP] at *
      omega
    have hb' : (pa + PGSIZE) % 2 ^ 64 < 2 ^ 64 := Nat.mod_lt _ (by decide)
    have ha' : (pa + PGSIZE) % 2 ^ 64 % PGSIZE = 0 := by
      rw [Nat.mod_mod_of_dvd _ (by decide : PGSIZE ∣ 2 ^ 64), Nat.add_mod_right]
      exact ha
    unfold mapFrom
    rw [wp_bind]
    refine (mapPage_spec hperm h (Nat.lt_of_le_of_lt (Nat.le_add_right _ _) hv) ha hb
      (hfree v (Nat.le_refl _) (Nat.le_add_right _ _))).imp fun ok s₂ hm => ?_
    obtain ⟨hm, ht⟩ := hm
    cases ok with
    | false => exact (wp_pure _).2 (hm.stop (n + 1))
    | true =>
      obtain ⟨t, ht⟩ := ht rfl
      obtain ⟨_, rfl, hlook⟩ := hm.look
      rw [if_pos rfl, Nat.mod_eq_of_lt hv', ← Nat.add_one_mul]
      refine (ih (v + 1) ((pa + PGSIZE) % 2 ^ 64) hm.kept.heap (by omega) ha' hb' fun w h1 h2 => ?_).imp fun ok s' hm' => hm.step ht hm'
      rw [hlook w (page_lt (by omega)).2, if_neg (by omega)]
      exact hfree w (by omega) (by omega)

theorem pgrounddown_page (v : Nat) : pgrounddown (v * PGSIZE) = v * PGSIZE := by
  rw [pgrounddown, Nat.mul_div_cancel _ (by decide)]

theorem pgrounddown_last {v n : Nat} (hv : v + n < MAXVP) :
    pgrounddown ((v * PGSIZE + (n + 1) * PGSIZE + 2 ^ 64 - 1) % 2 ^ 64) = (v + n) * PGSIZE := by
  simp only [pgrounddown, PGSIZE, MAXVP] at *
  omega

theorem map_rounds {v n : Nat} (hv : v + n < MAXVP) :
    ((v + n) * PGSIZE + 2 ^ 64 - v * PGSIZE) % 2 ^ 64 / PGSIZE = n := by
  simp only [PGSIZE, MAXVP] at *
  omega

theorem mappages_spec {s : Mem} {r v n pa perm : Nat} {R : List Nat} (hperm : perm < 2 ^ 10)
    (h : Heap s (tables s.bytes r ++ R)) (hv : v + n < MAXVP) (ha : pa % PGSIZE = 0) (hb : pa < 2 ^ 64)
    (hfree : ∀ w, v ≤ w → w ≤ v + n → look s.bytes r w % 2 = 0) :
    wp (mappages r (v * PGSIZE) ((n + 1) * PGSIZE) pa perm) (fun ok s' => Mapped s s' r v pa perm n R ok)
      (fun _ _ => False) s := by
  unfold mappages
  simp only [pgrounddown_page, pgrounddown_last hv, map_rounds hv]
  exact mapFrom_spec hperm n v pa h hv ha hb hfree

end Xv6.Vm
