import Mathlib.Data.Multiset.AddSub
import Mathlib.Data.Finset.Basic
import Xv6.Fs.Cache
import Xv6.Fs.DirMap
/-!
# What a system call holds

`Holds sb t s₀ held locked s`: since `s₀` only the inode cache has changed. The
caller has the references `held`, of which those in `locked` are locked, and
every other count and lock is as it was. The operations on inodes take references
and locks and give them back, and this says all of it.
-/

namespace Xv6.Fs

open Bytes Hoare SlotMap Function

structure Holds (sb : Superblock) (t : Table) (s₀ : St) (held : Multiset Nat) (locked : Finset Nat) (s : St) : Prop where
  base : Inv sb none t s₀
  inv : Inv sb none t s
  rest : s = { s₀ with icache := s.icache }
  refs : ∀ j, (s.icache j).ref = (s₀.icache j).ref + held.count j
  locks : ∀ j, (s.icache j).lock = if j ∈ locked then some s₀.myproc else (s₀.icache j).lock
  stays : Stays (InUse s₀) t s₀ t s
  lt : ∀ j ∈ held, j < NINODE
  sub : ∀ j ∈ locked, j ∈ held ∨ InUse s₀ j
  open' : ∀ j ∈ locked, (s₀.icache j).lock = none
  valid : ∀ j ∈ locked, (s.icache j).valid = true

/-! ## What changes -/

section Exact
variable {sb : Superblock} {s : St} {k dev inum : Nat} {E : Stop → St → Prop}

/-- Only the cache changes, and no lock in it. -/
structure SameLocks (s s' : St) : Prop where
  rest : s' = { s with icache := s'.icache }
  locks : ∀ j, (s'.icache j).lock = (s.icache j).lock

theorem sameLocks_update {x : Inode} (h : x.lock = (s.icache k).lock) :
    SameLocks s { s with icache := update s.icache k x } := by
  refine ⟨rfl, fun j => ?_⟩
  show (update s.icache k x j).lock = _
  by_cases e : j = k
  · rw [e, update_self, h]
  · rw [update_of_ne e]

theorem iget_sameLocks (hE : (∀ j < NINODE, (s.icache j).ref ≠ 0) → E .igetNone s) :
    wp (iget dev inum) (fun _ => SameLocks s) E s := by
  unfold iget
  rw [wp_bind, wp_get]
  split
  · rw [wp_bind, wp_setInode, wp_pure]
    exact sameLocks_update rfl
  · split
    · rw [wp_bind, wp_setInode, wp_pure]
      exact sameLocks_update rfl
    · next hf =>
      rw [wp_throw]
      refine hE fun j hj h0 => ?_
      exact List.find?_eq_none.1 hf j (List.mem_range.2 hj) (decide_eq_true h0)

/-- The entry `k` after `ilock`. -/
def lockedAs (t : Table) (s : St) (k : Nat) : Inode :=
  { s.icache k with lock := some s.myproc, valid := true, di := t (s.icache k).inum }

theorem ilock_exact {t : Table} (hr : 0 < (s.icache k).ref)
    (hd : dinode sb s.blk (s.icache k).inum = t (s.icache k).inum)
    (hv : (s.icache k).valid = true → (s.icache k).di = t (s.icache k).inum) (hT : (t (s.icache k).inum).type ≠ 0)
    (hE : (s.icache k).lock ≠ none → E .blocked s) :
    wp (ilock sb k) (fun _ s' => (s.icache k).lock = none ∧
      s' = { s with icache := update s.icache k (lockedAs t s k) }) E s := by
  unfold ilock acquiresleep
  simp only [wp_bind, wp_get, wp_ite, wp_throw, wp_setInode, wp_pure]
  refine ⟨fun h => absurd hr (by omega), fun _ => ⟨fun hl => hE (Option.isSome_iff_ne_none.1 hl), fun hl => ?_⟩⟩
  have hl : (s.icache k).lock = none := by simpa using hl
  refine ⟨fun _ => ⟨fun h0 => ?_, fun _ => ⟨hl, ?_⟩⟩, fun h => ⟨hl, ?_⟩⟩
  · rw [update_self, update_self] at h0
    rw [← hd] at hT
    exact absurd h0 hT
  · rw [update_self, update_idem, hd]
    rfl
  · have hvalid : (s.icache k).valid = true := by simpa using h
    have hx : lockedAs t s k = { s.icache k with lock := some s.myproc } := by
      rw [lockedAs, ← hv hvalid, ← hvalid]
    rw [hx]

theorem iunlock_exact (hr : 0 < (s.icache k).ref) (hl : (s.icache k).lock = some s.myproc) :
    wp (iunlock k) (fun _ s' => s' = { s with icache := update s.icache k { s.icache k with lock := none } }) E
      s := by
  unfold iunlock releasesleep
  simp only [wp_bind, wp_get, wp_ite, wp_throw, wp_setInode]
  exact ⟨fun h => absurd h (not_or.2 ⟨not_not.2 hl, by omega⟩), fun _ => trivial⟩

theorem iput_exact (hk : ¬ ((s.icache k).ref = 1 ∧ (s.icache k).valid = true ∧ (s.icache k).di.nlink = 0)) :
    wp (iput sb k) (fun _ s' => s' =
      { s with icache := update s.icache k { s.icache k with ref := (s.icache k).ref - 1 } }) E s := by
  unfold iput
  rw [wp_bind, wp_get]
  dsimp only
  rw [if_neg hk, wp_setInode]

end Exact

/-! ## Trees -/

theorem Inv.isDir {sb : Superblock} {D : Option Nat} {t : Table} {s : St} {k : Nat} (h : Inv sb D t s) (hk : Live s k)
    (hT : (t (s.icache k).inum).type = T_DIR) (hw : (t (s.icache k).inum).size % DESIZE = 0) : IsDir sb t s k where
  own := h.files.toOwned
  lt := h.inum hk
  di := h.di hk
  ok := (h.files.each _ (h.inum hk)).ok
  type := hT
  full := (h.files.each _ (h.inum hk)).full
  whole := hw
  held := hk.ref

/-- The map that the directory `i` is. -/
def dirMap (sb : Superblock) (t : Table) (blk : Nat → Arr) (i : Nat) (name : List UInt8) : Option Nat :=
  lookup (dirSlots (content sb t blk i)) (cut name)

/-- Directories are made of whole entries, and what they name is there and has links; so has the root. -/
structure Tree (sb : Superblock) (t : Table) (blk : Nat → Arr) : Prop where
  whole : ∀ i < sb.ninodes, (t i).type = T_DIR → (t i).size % DESIZE = 0
  named : ∀ i < sb.ninodes, (t i).type = T_DIR → ∀ name i', dirMap sb t blk i name = some i' →
    i' < sb.ninodes ∧ (t i').type ≠ 0 ∧ (t i').nlink ≠ 0
  root : ROOTINO < sb.ninodes ∧ (t ROOTINO).type ≠ 0 ∧ (t ROOTINO).nlink ≠ 0

/-- The inode has links, or someone else has a reference to it: `iput` does not free it. -/
def Alive (t : Table) (s₀ s : St) (k : Nat) : Prop := (t (s.icache k).inum).nlink ≠ 0 ∨ InUse s₀ k

/-- The name is not there, or there is one more reference, to the inode it names. -/
def Looked (sb : Superblock) (t : Table) (s₀ : St) (held : Multiset Nat) (locked : Finset Nat) (s : St)
    (found : Option Nat) (r : Option (Nat × Nat)) (s' : St) : Prop :=
  found = none ∧ r = none ∧ s' = s ∨
    ∃ i ip off, found = some i ∧ r = some (ip, off) ∧ Holds sb t s₀ (ip ::ₘ held) locked s' ∧ (s'.icache ip).inum = i ∧
      Stays (InUse s) t s t s'

namespace Holds
variable {sb : Superblock} {t : Table} {s₀ s : St} {held : Multiset Nat} {locked : Finset Nat} {k inum : Nat}
  {E : Stop → St → Prop}

theorem start (h : Inv sb none t s) : Holds sb t s 0 ∅ s where
  base := h
  inv := h
  rest := rfl
  refs _ := by rw [Multiset.count_zero]; exact (Int.add_zero _).symm
  locks _ := by rw [if_neg (Finset.notMem_empty _)]
  stays := .refl t s
  lt _ hj := absurd hj (Multiset.notMem_zero _)
  sub _ hj := absurd hj (Finset.notMem_empty _)
  open' _ hj := absurd hj (Finset.notMem_empty _)
  valid _ hj := absurd hj (Finset.notMem_empty _)

section
variable (h : Holds sb t s₀ held locked s)
include h

theorem blk : s.blk = s₀.blk := by rw [h.rest]

theorem myproc : s.myproc = s₀.myproc := by rw [h.rest]

theorem inUse (hk : k ∈ held ∨ InUse s₀ k) : InUse s k := by
  rcases hk with hk | hk
  · refine ⟨h.lt k hk, ?_⟩
    have h0 := h.base.nonneg k
    have hc := Multiset.count_pos.2 hk
    rw [h.refs k]
    omega
  · exact h.stays.inUse hk

theorem live (hk : k ∈ locked) : Live s k :=
  ⟨(h.inUse (h.sub k hk)).1, (h.inUse (h.sub k hk)).2, h.valid k hk⟩

theorem inum_lt (hk : k ∈ held ∨ InUse s₀ k) : (s.icache k).inum < sb.ninodes :=
  (h.inv.cached k (h.inUse hk).1 (h.inUse hk).2).2

theorem di (hk : k ∈ locked) : (s.icache k).di = t (s.icache k).inum :=
  h.inv.di (h.live hk)

theorem took {s' : St} (ht : Took sb none t s k s') (hs : SameLocks s s') :
    Holds sb t s₀ (k ::ₘ held) locked s' where
  base := h.base
  inv := ht.inv
  rest := by rw [hs.rest, h.rest]
  refs j := by
    rw [ht.counts j, h.refs j, Multiset.count_cons]
    split <;> omega
  locks j := (hs.locks j).trans (h.locks j)
  stays := h.stays.trans ht.stays fun j hj => h.stays.inUse hj
  lt j hj := by
    rcases Multiset.mem_cons.1 hj with rfl | hj
    · exact ht.lt
    · exact h.lt j hj
  sub j hj := (h.sub j hj).imp_left Multiset.mem_cons_of_mem
  open' := h.open'
  valid j hj := ht.stays.valid j (h.inUse (h.sub j hj)) (h.valid j hj)

theorem iget (hi : inum < sb.ninodes)
    (hE : (∀ j < NINODE, 0 < (s.icache j).ref) → E .igetNone s) :
    wp (iget ROOTDEV inum) (fun k s' => Holds sb t s₀ (k ::ₘ held) locked s' ∧ (s'.icache k).inum = inum ∧
      Stays (InUse s) t s t s') E s := by
  have hlocks : wp (Fs.iget ROOTDEV inum) (fun _ => SameLocks s) E s := by
    refine iget_sameLocks fun hall => hE fun j hj => ?_
    have h0 := h.inv.nonneg j
    have hne := hall j hj
    omega
  refine ((iget_spec h.inv hi).and hlocks).mono (fun k s' hk => ?_) fun _ _ he => he.2
  obtain ⟨⟨ht, hin⟩, hs⟩ := hk
  exact ⟨h.took ht hs, hin, ht.stays⟩

theorem idup (hk : InUse s k) :
    wp (idup k) (fun r s' => r = k ∧ Holds sb t s₀ (k ::ₘ held) locked s' ∧ Stays (InUse s) t s t s') E s := by
  unfold Fs.idup
  rw [wp_bind, wp_setInode, wp_pure]
  exact ⟨rfl, h.took (h.inv.took hk) (sameLocks_update rfl), (h.inv.took hk).stays⟩

theorem ilock (hk : k ∈ held ∨ InUse s₀ k) (hT : (t (s.icache k).inum).type ≠ 0)
    (hE : (s.icache k).lock ≠ none → E .blocked s) :
    wp (ilock sb k)
    (fun _ s' => Holds sb t s₀ held (insert k locked) s' ∧ Stays (InUse s) t s t s' ∧ k ∉ locked) E s := by
  obtain ⟨hlt, hr⟩ := h.inUse hk
  have hd : dinode sb s.blk (s.icache k).inum = t (s.icache k).inum := h.inv.disk _ (h.inum_lt hk) fun e => by cases e
  refine (ilock_exact hr hd (fun hv => (h.inv.copy k hlt hr hv).1) hT hE).imp ?_
  rintro _ s' ⟨hl, hs⟩
  have c : Calm sb t s s' := by
    rw [hs]
    exact h.inv.calm rfl rfl rfl (fun _ => rfl) fun _ => ⟨rfl, hT⟩
  have hself : s'.icache k = lockedAs t s k := by rw [hs]; exact update_self ..
  have hother : ∀ j, j ≠ k → s'.icache j = s.icache j := fun j hj => by rw [hs]; exact update_of_ne hj _ _
  have hlk : k ∉ locked := fun hm => by
    have := h.locks k
    rw [hl, if_pos hm] at this
    cases this
  refine ⟨⟨h.base, c.inv, by rw [hs, h.rest], fun j => (c.refs j).trans (h.refs j), fun j => ?_,
    h.stays.trans c.stays fun j hj => h.stays.inUse hj, h.lt, fun j hj => ?_, fun j hj => ?_, fun j hj => ?_⟩, c.stays, hlk⟩
  · by_cases e : j = k
    · rw [e, hself, if_pos (Finset.mem_insert_self ..), lockedAs, h.myproc]
    · rw [hother j e, h.locks j]
      simp only [Finset.mem_insert, e, false_or]
  · rcases Finset.mem_insert.1 hj with rfl | hj
    · exact hk
    · exact h.sub j hj
  · rcases Finset.mem_insert.1 hj with rfl | hj
    · have := h.locks j
      rwa [hl, if_neg hlk, eq_comm] at this
    · exact h.open' j hj
  · by_cases e : j = k
    · rw [e, hself]
      rfl
    · rw [hother j e]
      exact h.valid j ((Finset.mem_insert.1 hj).resolve_left e)

theorem iunlock (hk : k ∈ locked) :
    wp (iunlock k) (fun _ s' => Holds sb t s₀ held (locked.erase k) s' ∧ Stays (InUse s) t s t s') E s := by
  obtain ⟨hlt, hr, hv⟩ := h.live hk
  have hl : (s.icache k).lock = some s.myproc := by rw [h.locks k, if_pos hk, h.myproc]
  refine (iunlock_exact hr hl).imp fun _ s' hs => ?_
  have c : Calm sb t s s' := by
    rw [hs]
    exact h.inv.calm rfl rfl rfl id fun hv => h.inv.copy k hlt hr hv
  have hself : s'.icache k = { s.icache k with lock := none } := by rw [hs]; exact update_self ..
  have hother : ∀ j, j ≠ k → s'.icache j = s.icache j := fun j hj => by rw [hs]; exact update_of_ne hj _ _
  refine ⟨⟨h.base, c.inv, by rw [hs, h.rest], fun j => (c.refs j).trans (h.refs j), fun j => ?_,
    h.stays.trans c.stays fun j hj => h.stays.inUse hj, h.lt, fun j hj => h.sub j (Finset.mem_of_mem_erase hj),
    fun j hj => h.open' j (Finset.mem_of_mem_erase hj), fun j hj => ?_⟩, c.stays⟩
  · by_cases e : j = k
    · rw [e, hself, if_neg (Finset.notMem_erase k locked), h.open' k hk]
    · rw [hother j e, h.locks j]
      simp only [Finset.mem_erase, ne_eq, e, not_false_eq_true, true_and]
  · obtain ⟨e, hj⟩ := Finset.mem_erase.1 hj
    rw [hother j e]
    exact h.valid j hj

end

theorem iput (h : Holds sb t s₀ (k ::ₘ held) locked s) (hk : k ∈ locked → k ∈ held ∨ InUse s₀ k)
    (hn : Alive t s₀ s k ∨ k ∈ held) :
    wp (iput sb k) (fun _ s' => Holds sb t s₀ held locked s' ∧ Stays (fun j => j ∈ held ∨ InUse s₀ j) t s t s') E s := by
  obtain ⟨hlt, hr⟩ := h.inUse (.inl (Multiset.mem_cons_self k held))
  have href := h.refs k
  rw [Multiset.count_cons_self] at href
  have hmany : k ∈ held ∨ InUse s₀ k → 1 < (s.icache k).ref := by
    have h0 := h.base.nonneg k
    rintro (hm | hu)
    · have := Multiset.count_pos.2 hm
      omega
    · have := hu.2
      omega
  have hfree : ¬ ((s.icache k).ref = 1 ∧ (s.icache k).valid = true ∧ (t (s.icache k).inum).nlink = 0) := by
    rintro ⟨h1, -, h0⟩
    rcases hn with (hl | hu) | hm
    · exact hl h0
    · have := hmany (.inr hu)
      omega
    · have := hmany (.inl hm)
      omega
  have hfree' : ¬ ((s.icache k).ref = 1 ∧ (s.icache k).valid = true ∧ (s.icache k).di.nlink = 0) := by
    rintro ⟨h1, hv, h0⟩
    rw [(h.inv.copy k hlt hr hv).1] at h0
    exact hfree ⟨h1, hv, h0⟩
  refine (iput_exact hfree').imp fun _ s' hs => ?_
  have hself : s'.icache k = { s.icache k with ref := (s.icache k).ref - 1 } := by rw [hs]; exact update_self ..
  have hother : ∀ j, j ≠ k → s'.icache j = s.icache j := fun j hj => by rw [hs]; exact update_of_ne hj _ _
  have hblk : s'.blk = s.blk := by rw [hs]
  obtain ⟨hinv, hst⟩ := h.inv.dropped s' ⟨hlt, hr⟩ (by rw [hblk]; exact h.inv.files)
    (fun i hi => by rw [hblk]; exact h.inv.disk i hi fun e => by cases e) hother (by rw [hself]) (fun _ => ⟨hself, rfl⟩)
    fun _ _ => rfl
  have hst' : Stays (fun j => j ∈ held ∨ InUse s₀ j) t s t s' := hst.mono fun j hj => by
    exact ⟨h.inUse (hj.imp_left Multiset.mem_cons_of_mem), fun e => hmany (e ▸ hj)⟩
  have hlock : ∀ j, (s'.icache j).lock = (s.icache j).lock := fun j => by
    by_cases e : j = k
    · rw [e, hself]
    · rw [hother j e]
  refine ⟨⟨h.base, hinv, by rw [hs, h.rest], fun j => ?_, fun j => (hlock j).trans (h.locks j),
    h.stays.trans hst' fun j hj => .inr hj, fun j hj => h.lt j (Multiset.mem_cons_of_mem hj), fun j hj => ?_, h.open',
    fun j hj => ?_⟩, hst'⟩
  · by_cases e : j = k
    · rw [e, hself]
      dsimp only
      omega
    · rw [hother j e, h.refs j, Multiset.count_cons_of_ne e]
  · by_cases e : j = k
    · exact e ▸ hk (e ▸ hj)
    · exact (h.sub j hj).imp_left fun hm => (Multiset.mem_cons.1 hm).resolve_left e
  · by_cases e : j = k
    · rw [e, hself]
      exact h.valid k (e ▸ hj)
    · rw [hother j e]
      exact h.valid j hj

theorem iunlockput (h : Holds sb t s₀ (k ::ₘ held) locked s) (hk : k ∈ locked) (hn : Alive t s₀ s k ∨ k ∈ held) :
    wp (iunlockput sb k) (fun _ s' => Holds sb t s₀ held (locked.erase k) s' ∧
      Stays (fun j => j ∈ held ∨ InUse s₀ j) t s t s') E s := by
  unfold Fs.iunlockput
  refine (h.iunlock hk).seq ?_
  rintro _ s₁ ⟨h₁, hst⟩
  have hn₁ : Alive t s₀ s₁ k ∨ k ∈ held := by
    rw [Alive, hst.inum k (h.inUse (.inl (Multiset.mem_cons_self k held)))]
    exact hn
  refine (h₁.iput (fun hm => absurd hm (Finset.notMem_erase k locked)) hn₁).imp fun _ s₂ h₂ => ⟨h₂.1, ?_⟩
  exact (hst.mono fun j hj => h.inUse (hj.imp_left Multiset.mem_cons_of_mem)).trans h₂.2 fun j hj => hj

/-! ## Directories -/

theorem isDir (h : Holds sb t s₀ held locked s) (hk : k ∈ locked) (hT : (t (s.icache k).inum).type = T_DIR)
    (hw : (t (s.icache k).inum).size % DESIZE = 0) : IsDir sb t s k := h.inv.isDir (h.live hk) hT hw

section
variable (h : Holds sb t s₀ held locked s) (tree : Tree sb t s₀.blk) (hk : k ∈ locked) (hT : (t (s.icache k).inum).type = T_DIR)
include h tree hk hT

theorem dirlookup {name : List UInt8} (hE : (∀ j < NINODE, 0 < (s.icache j).ref) → E .igetNone s) :
    wp (dirlookup sb k name) (Looked sb t s₀ held locked s (dirMap sb t s₀.blk (s.icache k).inum name)) E s := by
  have hi := h.inum_lt (h.sub k hk)
  have d := h.isDir hk hT (tree.whole _ hi hT)
  have hslots : dirMap sb t s₀.blk (s.icache k).inum name = lookup (dirOf sb t s k) (cut name) := by
    rw [dirMap, dirOf, dirBytes, h.blk]
  cases hm : dirMap sb t s₀.blk (s.icache k).inum name with
  | none => exact d.dirlookup_none (hslots ▸ hm) (.inl ⟨rfl, rfl, rfl⟩)
  | some i =>
    have hdev : (s.icache k).dev = ROOTDEV := (h.inv.cached k (h.live hk).lt (h.live hk).ref).1
    refine d.dirlookup_some (hslots ▸ hm) ?_
    rw [hdev]
    refine (h.iget (tree.named _ hi hT name i hm).1 hE).imp fun ip s' hs => ?_
    exact .inr ⟨i, ip, _, rfl, rfl, hs⟩

theorem dirlink {name : List UInt8} (i : Nat) :
    wp (dirlink sb k name i) (fun r s' => r = -1 ∧ Holds sb t s₀ held locked s' ∧
      Stays (fun j => j ∈ held ∨ InUse s₀ j) t s t s' ∨ r = 0) (fun _ _ => True) s := by
  have hi := h.inum_lt (h.sub k hk)
  unfold Fs.dirlink
  refine (h.dirlookup tree hk hT fun _ => trivial).seq ?_
  rintro r s₁ (⟨-, rfl, rfl⟩ | ⟨i', ip, off, hm, rfl, h₁, hin, hst⟩)
  · have hzero : Always (· = 0) (do
        let size := ((← get).icache k).di.size
        let r ← scan sb k .dirlinkRead (fun de => de.inum = 0) (size / DESIZE + 1) 0
        let de : Dirent := ⟨i % 65536, strncpy name DIRSIZ⟩
        let w ← writei sb k (.kernel de.bytes) r.1 DESIZE
        if w ≠ DESIZE then throw Stop.dirlink
        return 0 : M Int) :=
      always_bind fun _ => always_bind fun _ => always_bind fun _ =>
        .ite (always_bind fun _ => always_pure rfl) (always_pure rfl)
    exact hzero.wp (fun _ _ h0 => .inr h0) _
  · have hn : (t i').nlink ≠ 0 := (tree.named _ hi hT name i' hm).2.2
    dsimp only
    refine (h₁.iput (h.sub ip) (.inl (.inl (hin ▸ hn)))).seq fun _ s₂ h₂ => ?_
    exact (wp_pure _).2 (.inl ⟨rfl, h₂.1, (hst.mono fun j hj => h.inUse hj).trans h₂.2 fun j hj => hj⟩)

end

end Holds

end Xv6.Fs
