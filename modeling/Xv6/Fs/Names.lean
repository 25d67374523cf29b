import Mathlib.Algebra.Order.BigOperators.Group.Finset
import Xv6.Fs.Undo
/-!
# The names of a file

`names` counts the directory entries that name an inode. `Links sb f c δ t s`
says that the link count of the file `f` is `δ` more than that, in a file system
whose directories name only what is there. An entry more, an entry less, a change
to the count and `iput` each keep it, for the right `δ`.
-/

namespace Xv6.Fs

open Bytes Hoare SlotMap Function

section Names
variable (sb : Superblock) (t : Table) (blk : Nat → Arr)

/-- The entries of directory `i`. -/
def slotsOf (i : Nat) : List (Option (List UInt8 × Nat)) := dirSlots (content sb t blk i)

/-- How many entries of inode `i` name `f`: none, if it is no directory. -/
def entriesFor (f i : Nat) : Nat := if (t i).type = T_DIR then count (slotsOf sb t blk i) f else 0

def names (f : Nat) : Nat := ∑ i ∈ Finset.range sb.ninodes, entriesFor sb t blk f i

/-- Directory `d` has an entry that names `f`. -/
def Named (d f : Nat) : Prop :=
  d < sb.ninodes ∧ (t d).type = T_DIR ∧ ∃ (j : Nat) (name : List UInt8), (slotsOf sb t blk d)[j]? = some (some (name, f))

/-- Directories have whole entries with distinct names, and what they name is there and has links. The root is a
directory. -/
structure WellNamed : Prop where
  whole : ∀ i < sb.ninodes, (t i).type = T_DIR → (t i).size % DESIZE = 0
  unique : ∀ i < sb.ninodes, (t i).type = T_DIR → Unique (slotsOf sb t blk i)
  named : ∀ d f, Named sb t blk d f → f < sb.ninodes ∧ (t f).type ≠ 0 ∧ 0 < (t f).nlink
  root : ROOTINO < sb.ninodes ∧ (t ROOTINO).type = T_DIR ∧ 0 < (t ROOTINO).nlink

end Names

/-! ## Counting -/

section Count
variable {sb : Superblock} {t t' : Table} {blk blk' : Nat → Arr} {f d : Nat}

theorem names_pos : 0 < names sb t blk f ↔ ∃ d, Named sb t blk d f := by
  rw [names, Finset.sum_pos_iff]
  refine exists_congr fun i => ?_
  rw [Finset.mem_range, entriesFor, Named]
  by_cases hT : (t i).type = T_DIR
  · rw [if_pos hT, count_pos, and_iff_right hT]
  · rw [if_neg hT]
    exact ⟨fun h => absurd h.2 (Nat.lt_irrefl 0), fun h => absurd h.2.1 hT⟩

theorem inum_of_slot {bytes name : List UInt8} {j : Nat} (h : (dirSlots bytes)[j]? = some (some (name, f))) :
    1 ≤ f ∧ f ≤ 65535 := by
  rw [dirSlots, List.getElem?_map, Option.map_eq_some_iff] at h
  obtain ⟨de, hde, hs⟩ := h
  rw [entries, List.getElem?_map, Option.map_eq_some_iff] at hde
  obtain ⟨n, -, rfl⟩ := hde
  rw [Dirent.slot] at hs
  split at hs
  · cases hs
  · next h0 =>
    obtain ⟨-, rfl⟩ := Prod.mk.inj (Option.some.inj hs)
    refine ⟨Nat.pos_of_ne_zero h0, ?_⟩
    have h1 := UInt8.toNat_lt (((bytes.drop (DESIZE * n)).take DESIZE).getD 0 0)
    have h2 := UInt8.toNat_lt (((bytes.drop (DESIZE * n)).take DESIZE).getD 1 0)
    show _ + 256 * _ ≤ 65535
    omega

end Count

/-! ## Directories that stay -/

/-- The same inodes are directories, with the same contents. -/
structure SameDirs (sb : Superblock) (t : Table) (blk : Nat → Arr) (t' : Table) (blk' : Nat → Arr) : Prop where
  type : ∀ i < sb.ninodes, ((t' i).type = T_DIR ↔ (t i).type = T_DIR)
  size : ∀ i < sb.ninodes, (t i).type = T_DIR → (t' i).size = (t i).size
  content : ∀ i < sb.ninodes, (t i).type = T_DIR → content sb t' blk' i = content sb t blk i

section SameDirs
variable {sb : Superblock} {t t' : Table} {blk blk' : Nat → Arr}

theorem SameDirs.named (h : SameDirs sb t blk t' blk') {d f : Nat} : Named sb t' blk' d f ↔ Named sb t blk d f := by
  unfold Named
  refine and_congr_right fun hd => ?_
  rw [h.type d hd]
  refine and_congr_right fun hT => ?_
  rw [slotsOf, slotsOf, h.content d hd hT]

theorem SameDirs.names_eq (h : SameDirs sb t blk t' blk') (f : Nat) : names sb t' blk' f = names sb t blk f := by
  refine Finset.sum_congr rfl fun i hi => ?_
  have hi := Finset.mem_range.1 hi
  unfold entriesFor
  by_cases hT : (t i).type = T_DIR
  · rw [if_pos hT, if_pos ((h.type i hi).2 hT), slotsOf, slotsOf, h.content i hi hT]
  · rw [if_neg hT, if_neg fun hT' => hT ((h.type i hi).1 hT')]

theorem sameDirs_of_eq (h : ∀ i < sb.ninodes, t' i = t i) : SameDirs sb t blk t' blk := by
  refine ⟨fun i hi => by rw [h i hi], fun i hi _ => by rw [h i hi], fun i hi _ => ?_⟩
  refine content_congr (by rw [h i hi]) (fun j => ?_) fun _ _ _ => rfl
  unfold ref
  rw [if_pos hi, if_pos hi, h i hi]

theorem WellNamed.same (h : WellNamed sb t blk) (hs : SameDirs sb t blk t' blk')
    (hn : ∀ i < sb.ninodes, i = ROOTINO ∨ (∃ d, Named sb t blk d i) → (t i).type ≠ 0 → 0 < (t i).nlink →
      (t' i).type ≠ 0 ∧ 0 < (t' i).nlink) : WellNamed sb t' blk' where
  whole i hi hT := by
    have hT := (hs.type i hi).1 hT
    rw [hs.size i hi hT]
    exact h.whole i hi hT
  unique i hi hT := by
    have hT := (hs.type i hi).1 hT
    rw [slotsOf, hs.content i hi hT]
    exact h.unique i hi hT
  named d f hd := by
    have hd := hs.named.1 hd
    obtain ⟨hlt, hT, hl⟩ := h.named d f hd
    exact ⟨hlt, hn f hlt (.inr ⟨d, hd⟩) hT hl⟩
  root := by
    obtain ⟨hlt, hT, hl⟩ := h.root
    have hne : (t ROOTINO).type ≠ 0 := fun h0 => absurd (h0.symm.trans hT) (by decide)
    exact ⟨hlt, (hs.type _ hlt).2 hT, (hn _ hlt (.inl rfl) hne hl).2⟩

theorem WellNamed.tree (h : WellNamed sb t blk) : Tree sb t blk where
  whole := h.whole
  named i hi hT name i' hm := by
    obtain ⟨hlt, hT', hl⟩ := h.named i i' ⟨hi, hT, _, _, index_of_lookup hm⟩
    exact ⟨hlt, hT', by omega⟩
  root := by
    obtain ⟨hlt, hT, hl⟩ := h.root
    exact ⟨hlt, fun h0 => absurd (h0.symm.trans hT) (by decide), by omega⟩

end SameDirs

/-! ## One entry more or less -/

section Edited
variable {sb : Superblock} {t t' : Table} {s s' : St} {k f : Nat} {l : List (Option (List UInt8 × Nat))}

section
variable (e : Edited sb t s k l t' s')
include e

theorem Edited.slotsOf_eq (i : Nat) :
    slotsOf sb t' s'.blk i = if i = (s.icache k).inum then l else slotsOf sb t s.blk i := by
  by_cases hi : i = (s.icache k).inum
  · rw [if_pos hi, hi, ← e.slots, ← e.inode]
    rfl
  · rw [if_neg hi, slotsOf, slotsOf, e.files i hi]

theorem Edited.table_ne {i : Nat} (hi : i ≠ (s.icache k).inum) : t' i = t i := by
  rw [e.table, update_of_ne hi]

theorem Edited.type_eq (hT : (t (s.icache k).inum).type = T_DIR) (i : Nat) :
    (t' i).type = (t i).type := by
  by_cases hi : i = (s.icache k).inum
  · rw [hi, hT, ← e.inode]
    exact e.dir.type
  · rw [e.table_ne hi]

theorem Edited.entriesFor_ne {i : Nat} (hi : i ≠ (s.icache k).inum) :
    entriesFor sb t' s'.blk f i = entriesFor sb t s.blk f i := by
  rw [entriesFor, entriesFor, e.slotsOf_eq, if_neg hi, e.table_ne hi]

theorem Edited.entriesFor_self (hT : (t (s.icache k).inum).type = T_DIR) :
    entriesFor sb t' s'.blk f (s.icache k).inum = count l f := by
  rw [entriesFor, e.slotsOf_eq, if_pos rfl, if_pos (by rw [e.type_eq hT, hT])]

theorem Edited.names_add (d : IsDir sb t s k) (f : Nat) :
    names sb t' s'.blk f + count (dirOf sb t s k) f = names sb t s.blk f + count l f := by
  have hmem : (s.icache k).inum ∈ Finset.range sb.ninodes := Finset.mem_range.2 d.lt
  have hself : entriesFor sb t s.blk f (s.icache k).inum = count (dirOf sb t s k) f := by
    rw [entriesFor, if_pos d.type]
    rfl
  have hrest : ∑ i ∈ (Finset.range sb.ninodes).erase (s.icache k).inum, entriesFor sb t' s'.blk f i =
      ∑ i ∈ (Finset.range sb.ninodes).erase (s.icache k).inum, entriesFor sb t s.blk f i :=
    Finset.sum_congr rfl fun i hi => e.entriesFor_ne (Finset.ne_of_mem_erase hi)
  rw [names, names, ← Finset.add_sum_erase _ _ hmem, ← Finset.add_sum_erase _ (entriesFor sb t s.blk f) hmem, hself,
    e.entriesFor_self d.type, hrest]
  omega

theorem Edited.wellNamed (h : WellNamed sb t s.blk) (d : IsDir sb t s k) (hu : Unique l)
    (hn : ∀ i, (t' i).nlink = (t i).nlink)
    (hnew : ∀ (j : Nat) name f, l[j]? = some (some (name, f)) → f < sb.ninodes ∧ (t f).type ≠ 0 ∧ 0 < (t f).nlink) :
    WellNamed sb t' s'.blk where
  whole i hi hT := by
    by_cases he : i = (s.icache k).inum
    · rw [he, ← e.inode]
      exact e.dir.whole
    · rw [e.table_ne he]
      exact h.whole i hi (by rwa [e.table_ne he] at hT)
  unique i hi hT := by
    rw [e.slotsOf_eq]
    split
    · exact hu
    · exact h.unique i hi (by rwa [e.type_eq d.type] at hT)
  named i f := by
    rintro ⟨hi, hT, j, name, hj⟩
    rw [e.type_eq d.type] at hT ⊢
    rw [hn]
    rw [e.slotsOf_eq] at hj
    split at hj
    · exact hnew j name f hj
    · exact h.named i f ⟨hi, hT, j, name, hj⟩
  root := by
    rw [e.type_eq d.type, hn]
    exact h.root

end

end Edited

/-! ## The link count -/

/-- The current directory is entry `c` of the cache. -/
structure Home (t : Table) (s : St) (c : Nat) : Prop where
  proc : (s.proc s.myproc).cwd = some c
  inUse : InUse s c
  type : (t (s.icache c).inum).type = T_DIR

/-- The file `f` has `δ` more links than names. -/
structure Links (sb : Superblock) (f c : Nat) (δ : Int) (t : Table) (s : St) : Prop where
  inv : Inv sb none t s
  tree : WellNamed sb t s.blk
  home : Home t s c
  lt : f < sb.ninodes
  file : (t f).type ≠ T_DIR
  count : (t f).nlink = names sb t s.blk f + δ

section Home
variable {t t' : Table} {s s' : St} {c n : Nat} {P : Nat → Prop}

theorem Home.cwd (h : Home t s c) : Cwd t s c :=
  ⟨h.proc, h.inUse, fun h0 => absurd (h0.symm.trans h.type) (by decide)⟩

theorem Home.frame (h : Home t s c) (w : Wrote P n s s') (hu : InUse s' c)
    (hin : (s'.icache c).inum = (s.icache c).inum) (hT : (t' (s.icache c).inum).type = T_DIR) : Home t' s' c :=
  ⟨by rw [w.proc, w.myproc, h.proc], hu, by rw [hin, hT]⟩

end Home

section Links
variable {sb : Superblock} {t t' : Table} {s s' s₀ : St} {f c k : Nat} {δ : Int}

theorem Links.began (h : Links sb f c δ t s) : Links sb f c δ t (began s) where
  inv := h.inv.blocks rfl h.inv.files fun _ _ => rfl
  tree := h.tree
  home := ⟨h.home.proc, h.home.inUse, h.home.type⟩
  lt := h.lt
  file := h.file
  count := h.count

theorem Links.ended (h : Links sb f c δ t s) : Links sb f c δ t (ended s) where
  inv := h.inv.blocks rfl h.inv.files fun _ _ => rfl
  tree := h.tree
  home := ⟨h.home.proc, h.home.inUse, h.home.type⟩
  lt := h.lt
  file := h.file
  count := h.count

theorem Links.holds {held : Multiset Nat} {locked : Finset Nat} (h : Links sb f c δ t s₀)
    (hh : Holds sb t s₀ held locked s) : Links sb f c δ t s where
  inv := hh.inv
  tree := by
    rw [hh.blk]
    exact h.tree
  home := h.home.frame hh.wrote (hh.stays.inUse h.home.inUse) (hh.stays.inum c h.home.inUse) h.home.type
  lt := h.lt
  file := h.file
  count := by
    rw [hh.blk]
    exact h.count

theorem Links.calm (h : Links sb f c δ t s) (hc : Calm sb t s s') : Links sb f c δ t s' where
  inv := hc.inv
  tree := by
    rw [hc.blk]
    exact h.tree
  home := h.home.frame hc.wrote (hc.stays.inUse h.home.inUse) (hc.stays.inum c h.home.inUse) h.home.type
  lt := h.lt
  file := h.file
  count := by
    rw [hc.blk]
    exact h.count

theorem Links.relink {d : Int} {n : Nat} {P : Nat → Prop} (h : Links sb f c δ t s)
    (hinv : Inv sb none (update t f ((t f).linked d)) s')
    (hcontent : ∀ j, content sb (update t f ((t f).linked d)) s'.blk j = content sb t s.blk j)
    (w : Wrote P n s s') (hu : InUse s' c) (hin : (s'.icache c).inum = (s.icache c).inum)
    (hd : 0 ≤ δ + d) (hmax : names sb t s.blk f + (δ + d) ≤ 32767) :
    Links sb f c (δ + d) (update t f ((t f).linked d)) s' := by
  have hsame : ∀ j, (t j).Same (update t f ((t f).linked d) j) := fun j => by
    by_cases e : j = f
    · rw [e, update_self]
      exact Dinode.same_linked _ d
    · rw [update_of_ne e]
      exact ⟨rfl, rfl, rfl⟩
  have hdirs : SameDirs sb t s.blk (update t f ((t f).linked d)) s'.blk :=
    ⟨fun i _ => by rw [(hsame i).type], fun i _ _ => (hsame i).size, fun i _ _ => hcontent i⟩
  have hlinks : (update t f ((t f).linked d) f).nlink = names sb t s.blk f + (δ + d) := by
    rw [update_self]
    show toShort ((t f).nlink + d) = _
    rw [h.count, Int.add_assoc, toShort, Int.bmod_def]
    split <;> omega
  refine ⟨hinv, h.tree.same hdirs fun i _ hi hT hl => ⟨by rwa [(hsame i).type], ?_⟩, ?_, h.lt, ?_, ?_⟩
  · by_cases e : i = f
    · -- the root is a directory, so `f` has a name
      have hname : 0 < names sb t s.blk f := by
        rcases hi with hroot | hname
        · exact absurd (hroot ▸ h.tree.root.2.1) (e ▸ h.file)
        · exact names_pos.2 (e ▸ hname)
      rw [e, hlinks]
      omega
    · rwa [update_of_ne e]
  · exact h.home.frame w hu hin (by rw [(hsame _).type, h.home.type])
  · rw [(hsame f).type]
    exact h.file
  · rw [hlinks, hdirs.names_eq]

theorem Links.edited {l : List (Option (List UInt8 × Nat))} {δ' : Int} (h : Links sb f c δ t s) (d : IsDir sb t s k)
    (e : Edited sb t s k l t' s') (w : EntryWritten sb t s k t' s') (tree : WellNamed sb t' s'.blk)
    (hδ : (SlotMap.count l f : Int) + δ' = SlotMap.count (dirOf sb t s k) f + δ) : Links sb f c δ' t' s' := by
  have hu : InUse s' c ∧ (s'.icache c).inum = (s.icache c).inum := by
    by_cases hc : c = k
    · rw [hc]
      exact ⟨⟨hc ▸ h.home.inUse.1, e.dir.held⟩, e.inode⟩
    · rw [InUse, e.cache c hc]
      exact ⟨h.home.inUse, rfl⟩
  have hnames := e.names_add d f
  refine ⟨w.inv, tree, h.home.frame w.wrote hu.1 hu.2 ?_, h.lt, ?_, ?_⟩
  · rw [e.type_eq d.type, h.home.type]
  · rw [e.type_eq d.type]
    exact h.file
  · rw [w.nlink, h.count]
    omega

theorem Links.insert {name : List UInt8} (h : Links sb f c 1 t s) (d : IsDir sb t s k)
    (hlk : lookup (dirOf sb t s k) name = none)
    (e : Edited sb t s k (put (dirOf sb t s k) (free (dirOf sb t s k)) (some (name, f))) t' s')
    (w : EntryWritten sb t s k t' s') (hT : (t f).type ≠ 0) : Links sb f c 0 t' s' := by
  have hu : Unique (dirOf sb t s k) := h.tree.unique _ d.lt d.type
  refine h.edited d e w (e.wellNamed h.tree d (hu.insert hlk f) w.nlink fun j name' f' hj => ?_) ?_
  · rcases (mem_insert hlk).1 hj with ⟨-, -, rfl⟩ | ⟨-, hj⟩
    · have hc := h.count
      exact ⟨h.lt, hT, by omega⟩
    · exact h.tree.named _ f' ⟨d.lt, d.type, j, name', hj⟩
  · rw [count_insert]
    omega

theorem Links.remove {name : List UInt8} {i : Nat} (h : Links sb f c 0 t s) (d : IsDir sb t s k)
    (hi : (dirOf sb t s k)[i]? = some (some (name, f))) (e : Edited sb t s k (put (dirOf sb t s k) i none) t' s')
    (w : EntryWritten sb t s k t' s') : Links sb f c 1 t' s' := by
  have hu : Unique (dirOf sb t s k) := h.tree.unique _ d.lt d.type
  refine h.edited d e w (e.wellNamed h.tree d (hu.remove hi) w.nlink fun j name' f' hj => ?_) ?_
  · exact h.tree.named _ f' ⟨d.lt, d.type, j, name', ((mem_remove hu hi).1 hj).2⟩
  · have := count_remove hi
    omega

end Links

/-! ## References given back -/

/-- A file without names is in memory if it is in use, and it is there as long as it has a name or is in use. -/
structure Present (sb : Superblock) (f : Nat) (t : Table) (s : St) : Prop where
  valid : names sb t s.blk f = 0 → ∀ k, InUse s k → (s.icache k).inum = f → (s.icache k).valid = true
  there : (t f).type ≠ 0 ↔ 0 < names sb t s.blk f ∨ ∃ k, InUse s k ∧ (s.icache k).inum = f

section Put
variable {sb : Superblock} {t t' : Table} {s s' : St} {f c k : Nat} {δ : Int}

theorem Files.content_data {blk blk' : Nat → Arr} {i : Nat} (h : Files sb t blk) (ht : t' i = t i)
    (hdata : ∀ b, sb.nmeta ≤ b → blk' b = blk b) : content sb t' blk' i = content sb t blk i := by
  have hrange : ∀ x, ref sb t blk x ≠ 0 → sb.nmeta ≤ ref sb t blk x := fun x hx => (h.own.range x hx).1
  refine content_congr (by rw [ht]) (fun j => ?_) fun j _ h0 => hdata _ (hrange _ h0)
  unfold ref
  dsimp only
  rw [ht]
  by_cases hi : i < sb.ninodes
  · have hind := hrange (i, NDIRECT)
    rw [ref_addr blk hi (Nat.le_refl _)] at hind
    rw [if_pos hi, if_pos hi]
    by_cases hc : (t i).addrs NDIRECT ≠ 0 ∧ j ≤ NDIRECT + NINDIRECT
    · rw [hdata _ (hind hc.1)]
    · rw [if_neg hc, if_neg hc]
  · rw [if_neg hi, if_neg hi]

theorem Links.cwd_ne (h : Links sb f c δ t s) (hin : (s.icache k).inum = f) : c ≠ k := fun e => by
  have := h.home.type
  rw [e, hin] at this
  exact h.file this

theorem Put.inUse (p : Put sb t s k t' s') {j : Nat} (hj : InUse s' j) : InUse s j ∧ (j = k → 1 < (s.icache k).ref) := by
  have hc := p.counts j
  have := hj.2
  refine ⟨⟨hj.1, ?_⟩, fun e => ?_⟩
  · split at hc <;> omega
  · rw [if_pos e] at hc
    rw [← e]
    omega

theorem Put.stops (p : Put sb t s k t' s') (hk : InUse s k) (h1 : (s.icache k).ref = 1) (h : Inv sb none t s) {j : Nat}
    (hj : InUse s' j) : (s'.icache j).inum ≠ (s.icache k).inum := fun he => by
  have hu := p.inUse hj
  rw [p.stays.inum j hu] at he
  have := hu.2 (h.uniq j hj.1 k hk.1 hu.1.2 hk.2 he)
  omega

theorem Links.iunlockput (hl : Layout sb) (h : Links sb f c δ t s) (hk : InUse s k) (hop : 1 ≤ s.outstanding)
    (hkeep : (t (s.icache k).inum).nlink ≠ 0 ∨ 1 < (s.icache k).ref) (hc : c = k → 1 < (s.icache k).ref) :
    wp (iunlockput sb k) (fun _ s' => Links sb f c δ t s' ∧ Wrote (fun _ => True) 0 s s' ∧
      Stays (fun j => InUse s j ∧ (j = k → 1 < (s.icache k).ref)) t s t s') (fun _ _ => True) s := by
  unfold Fs.iunlockput
  rw [wp_bind]
  refine (iunlock_spec h.inv hk).mono (fun _ s₁ c₁ => ?_) fun _ _ _ => trivial
  have hw₁ : Wrote (fun _ => True) 0 s s₁ := c₁.wrote.mono (fun _ _ => trivial) (Nat.le_refl 0)
  refine (iput_spec hl c₁.inv (c₁.stays.inUse hk) fun _ => hw₁.outstanding ▸ hop).mono (fun _ s₂ h₂ => ?_)
    fun _ _ _ => trivial
  obtain ⟨t₂, p⟩ := h₂
  obtain ⟨rfl, hblk, hw₂⟩ | ⟨hfr, -⟩ := p.done
  · have hw : Wrote (fun _ => True) 0 s s₂ := hw₁.trans (hw₂.mono (fun _ _ => trivial) (Nat.le_refl 0))
    have hst : Stays (fun j => InUse s j ∧ (j = k → 1 < (s.icache k).ref)) t₂ s t₂ s₂ :=
      (c₁.stays.mono fun j hj => hj.1).trans p.stays fun j hj => ⟨c₁.stays.inUse hj.1, c₁.refs k ▸ hj.2⟩
    have hcu : InUse s c ∧ (c = k → 1 < (s.icache k).ref) := ⟨h.home.inUse, hc⟩
    have h₁ := h.calm c₁
    refine ⟨⟨p.inv, hblk ▸ h₁.tree, ?_, h.lt, h.file, hblk ▸ h₁.count⟩, hw, hst⟩
    exact h.home.frame hw ⟨hcu.1.1, hst.ref c hcu⟩ (hst.inum c hcu) h.home.type
  · obtain ⟨h1, -, h0⟩ := hfr
    rw [c₁.refs] at h1
    rw [c₁.stays.inum k hk] at h0
    rcases hkeep with hn | hr
    · exact absurd h0 hn
    · omega

theorem Links.iput (hl : Layout sb) (h : Links sb f c 0 t s) (hk : InUse s k) (hin : (s.icache k).inum = f)
    (hT : (t f).type ≠ 0) (hv : names sb t s.blk f = 0 → (s.icache k).valid = true) (hop : 1 ≤ s.outstanding) :
    wp (iput sb k) (fun _ s' => ∃ t', Links sb f c 0 t' s' ∧ Present sb f t' s' ∧ Wrote (fun _ => True) 0 s s')
      (fun _ _ => True) s := by
  have hck := h.cwd_ne hin
  refine ((iput_spec hl h.inv hk fun _ => hop).and (iput_data hl h.inv hk hop)).mono (fun _ s' h' => ?_)
    fun _ _ _ => trivial
  obtain ⟨⟨t', p⟩, hdata, hfrees⟩ := h'
  have hcu : InUse s c ∧ (c = k → 1 < (s.icache k).ref) := ⟨h.home.inUse, fun e => absurd e hck⟩
  have hcu' : InUse s' c := ⟨h.home.inUse.1, p.stays.ref c hcu⟩
  have hcin : (s'.icache c).inum = (s.icache c).inum := p.stays.inum c hcu
  rw [hin] at hfrees
  obtain ⟨rfl, hblk, hw⟩ | ⟨hfr, ht', hw⟩ := p.done
  · -- a name or a reference is left
    have hnot : ¬ Frees t' s k := fun hfr => by
      rw [p.inv.disk f h.lt fun e => by cases e] at hfrees
      exact hT (hfrees hfr)
    have hnames : names sb t' s'.blk f = names sb t' s.blk f := by rw [hblk]
    refine ⟨t', ⟨p.inv, hblk ▸ h.tree, h.home.frame hw hcu' hcin h.home.type, h.lt, h.file, ?_⟩, ⟨fun h0 j hj hjf => ?_, ?_⟩,
      hw.mono (fun _ _ => trivial) (Nat.le_refl 0)⟩
    · rw [hnames]
      exact h.count
    · have hju := p.inUse hj
      rw [p.stays.inum j hju] at hjf
      have hjk : j = k := h.inv.uniq j hj.1 k hk.1 hju.1.2 hk.2 (hjf.trans hin.symm)
      exact p.stays.valid j hju (hjk ▸ hv (hnames ▸ h0))
    · refine iff_of_true hT ?_
      by_cases h0 : names sb t' s'.blk f = 0
      · rw [hnames] at h0
        have href : (s.icache k).ref ≠ 1 := fun h1 => by
          refine hnot ⟨h1, hv h0, ?_⟩
          rw [hin, h.count, h0]
          rfl
        have hkeep : InUse s k ∧ (k = k → 1 < (s.icache k).ref) := ⟨hk, fun _ => by
          have := hk.2
          omega⟩
        exact .inr ⟨k, ⟨hk.1, p.stays.ref k hkeep⟩, (p.stays.inum k hkeep).trans hin⟩
      · exact .inl (Nat.pos_of_ne_zero h0)
  · -- the last reference to a file without names
    obtain ⟨h1, -, hn0⟩ := hfr
    rw [hin] at hn0 ht'
    have h0 : names sb t s.blk f = 0 := by
      have := h.count
      omega
    have hself : t' f = (t f).freed := by rw [ht', update_self]
    have hother : ∀ i, i ≠ f → t' i = t i := fun i hi => by rw [ht', update_of_ne hi]
    have hdir : ∀ i, (t i).type = T_DIR → i ≠ f := fun i hi e => h.file (e ▸ hi)
    have hfree : ¬ (t' f).type = T_DIR := by
      rw [hself]
      exact fun h0 => absurd h0 (show ¬ (0 : Int) = T_DIR by decide)
    have hsame : SameDirs sb t s.blk t' s'.blk := by
      refine ⟨fun i _ => ?_, fun i _ hi => by rw [hother i (hdir i hi)], fun i _ hi => ?_⟩
      · by_cases e : i = f
        · rw [e]
          exact iff_of_false hfree h.file
        · rw [hother i e]
      · exact h.inv.files.content_data (hother i (hdir i hi)) hdata
    have hnone : ¬ ∃ d, Named sb t s.blk d f := fun hd => by
      have := names_pos.2 hd
      omega
    have hnames : names sb t' s'.blk f = 0 := (hsame.names_eq f).trans h0
    have hout : ∀ j, InUse s' j → (s'.icache j).inum ≠ f := fun j hj => hin ▸ p.stops hk h1 h.inv hj
    refine ⟨t', ⟨p.inv, h.tree.same hsame fun i _ hi hTi hli => ?_, h.home.frame hw hcu' hcin ?_, h.lt, hfree, ?_⟩,
      ⟨fun _ j hj hjf => absurd hjf (hout j hj), iff_of_false (fun hne => hne ?_) ?_⟩,
      hw.mono (fun _ _ => trivial) (Nat.le_refl 0)⟩
    · have hif : i ≠ f := by
        rintro rfl
        rcases hi with hroot | hd
        · exact h.file (hroot ▸ h.tree.root.2.1)
        · exact hnone hd
      rw [hother i hif]
      exact ⟨hTi, hli⟩
    · rw [hother _ (hdir _ h.home.type)]
      exact h.home.type
    · rw [hself, hnames]
      exact hn0
    · rw [hself]
      rfl
    · rw [hnames]
      rintro (h | ⟨j, hj, hjf⟩)
      · exact absurd h (Nat.lt_irrefl 0)
      · exact hout j hj hjf

end Put

end Xv6.Fs
