import Xv6.Fs.Code
import Xv6.Lib.Owner
/-!
# Block ownership

Who refers to which block: the direct slots and the indirect pointer of an
inode, and the slots of its indirect block. An inode table `t` says what the
inodes are; it is the disk's, except for an inode whose cached copy is newer.
What a write to one block does to the free map, to the disk's inodes and to
the references depends only on which kind of block it is.
-/

namespace Xv6.Fs

open Bytes Hoare Owner Function

def Superblock.nmeta (sb : Superblock) : Nat := sb.size - sb.nblocks

/-- Inode blocks come before the free map, and the free map before the data. -/
structure Layout (sb : Superblock) : Prop where
  inodes : ∀ i < sb.ninodes, sb.iblock i < sb.bmapstart
  bits : ∀ b < sb.size, sb.bblock b < sb.nmeta
  root : ROOTINO < sb.ninodes
  pos : 0 < sb.size
  small : sb.size < 2 ^ 31

abbrev Table := Nat → Dinode

section Views
variable (sb : Superblock)

/-- The block that inode `x.1` refers to in slot `x.2`: up to `NDIRECT` its `addrs`, then
the slots of the indirect block. -/
def ref (t : Table) (blk : Nat → Arr) (x : Nat × Nat) : Nat :=
  if x.1 < sb.ninodes then
    if x.2 ≤ NDIRECT then (t x.1).addrs x.2
    else if (t x.1).addrs NDIRECT ≠ 0 ∧ x.2 ≤ NDIRECT + NINDIRECT then
      le32 (blk ((t x.1).addrs NDIRECT)) (4 * (x.2 - NDIRECT - 1))
    else 0
  else 0

/-- The slot of the `bn`th block of a file. -/
def dataSlot (bn : Nat) : Nat := if bn < NDIRECT then bn else bn + 1

/-- The inode number in the entry at offset `o` of directory `i`. -/
def dirInum (t : Table) (blk : Nat → Arr) (i o : Nat) : Nat :=
  le16 (blk (ref sb t blk (i, dataSlot (o / BSIZE)))) (o % BSIZE)

/-- Every block has the references that the free map says it has, and the free map covers what is
not data. -/
structure Owned (t : Table) (blk : Nat → Arr) : Prop where
  own : Own (ref sb t blk) (fun b => used sb blk b = true) sb.nmeta sb.size
  below : ∀ b < sb.nmeta, used sb blk b = true

/-- The file has no holes; a free inode has no blocks, and a directory names inodes that exist. -/
structure FileOk (t : Table) (blk : Nat → Arr) (i : Nat) : Prop where
  ok : (t i).Ok
  size : (t i).size ≤ MAXFILE * BSIZE
  full : ∀ bn, bn * BSIZE < (t i).size → ref sb t blk (i, dataSlot bn) ≠ 0
  free : (t i).type = 0 → ∀ j, ref sb t blk (i, j) = 0
  dirs : (t i).type = T_DIR → ∀ o, o % DESIZE = 0 → o + DESIZE ≤ (t i).size → dirInum sb t blk i o < sb.ninodes

structure Files (t : Table) (blk : Nat → Arr) : Prop extends Owned sb t blk where
  each : ∀ i < sb.ninodes, FileOk sb t blk i

end Views

section Frames
variable {sb : Superblock} {t : Table} {blk : Nat → Arr} {i j b c : Nat} {a : Arr}

theorem meta_lt {c : Nat} (h : c < sb.nmeta) : c < sb.size := Nat.lt_of_lt_of_le h (Nat.sub_le _ _)

theorem Layout.meta_pos (h : Layout sb) : 0 < sb.nmeta := Nat.lt_of_le_of_lt (Nat.zero_le _) (h.bits 0 h.pos)

theorem Layout.bmap_le (h : Layout sb) : sb.bmapstart ≤ sb.nmeta :=
  Nat.le_trans (Nat.le_add_left _ _) (Nat.le_of_lt (h.bits 0 h.pos))

theorem le_bblock (sb : Superblock) (b : Nat) : sb.bmapstart ≤ sb.bblock b := Nat.le_add_left _ _

theorem used_update (h : Layout sb) (hc : c < sb.size) (hb : sb.nmeta ≤ b ∨ b < sb.bmapstart) :
    used sb (update blk b a) c = used sb blk c := by
  have h1 := h.bits c hc
  have h2 := le_bblock sb c
  unfold used
  rw [update_of_ne (by omega)]

theorem dinode_update (h : Layout sb) (hi : i < sb.ninodes) (hb : sb.bmapstart ≤ b) :
    dinode sb (update blk b a) i = dinode sb blk i := by
  have h1 := h.inodes i hi
  unfold dinode
  rw [update_of_ne (by omega)]

theorem ref_update (hb : ∀ i < sb.ninodes, (t i).addrs NDIRECT = b → b = 0) :
    ref sb t (update blk b a) = ref sb t blk := by
  funext x
  unfold ref
  split
  · split
    · rfl
    · split
      · next hi hj hn =>
        rw [update_of_ne fun e => hn.1 (e.trans (hb _ hi e))]
      · rfl
  · rfl

theorem ref_addr (blk : Nat → Arr) (hi : i < sb.ninodes) (hj : j ≤ NDIRECT) : ref sb t blk (i, j) = (t i).addrs j := by
  unfold ref
  rw [if_pos hi, if_pos hj]

theorem Owned.ref_meta (o : Owned sb t blk) (hb : b < sb.nmeta) : ref sb t (update blk b a) = ref sb t blk := by
  refine ref_update fun i hi e => ?_
  by_contra h0
  rw [← e, ← ref_addr blk hi (Nat.le_refl _)] at h0 hb
  have := (o.own.range _ h0).1
  omega

theorem Owned.ref_data (o : Owned sb t blk) {x : Nat × Nat} (hx : x.2 ≠ NDIRECT) (hb : ref sb t blk x = b) :
    ref sb t (update blk b a) = ref sb t blk := by
  refine ref_update fun i hi e => ?_
  by_contra h0
  rw [← ref_addr blk hi (Nat.le_refl _)] at e
  have hxi := o.own.inj x (i, NDIRECT) (by rw [hb]; exact h0) (hb.trans e.symm)
  exact hx (by rw [hxi])

theorem ref_fresh (hb : ∀ x, ref sb t blk x ≠ b) : ref sb t (update blk b a) = ref sb t blk := by
  refine ref_update fun i hi e => ?_
  rw [← ref_addr blk hi (Nat.le_refl _)] at e
  exact absurd e (hb _)

theorem bit_pos_inj {b c : Nat} (h1 : sb.bblock b = sb.bblock c) (h2 : b % BPB = c % BPB) : b = c := by
  have h3 : b / BPB = c / BPB := Nat.add_right_cancel h1
  rw [← Nat.div_add_mod b BPB, ← Nat.div_add_mod c BPB, h2, h3]

theorem used_set (b c : Nat) :
    used sb (update blk (sb.bblock b) (setBit (blk (sb.bblock b)) (b % BPB))) c =
      (used sb blk c || decide (c = b)) := by
  unfold used
  by_cases h : sb.bblock c = sb.bblock b
  · rw [h, update_self, bit_setBit]
    congr 1
    exact decide_eq_decide.2 ⟨fun e => bit_pos_inj h e, fun e => by rw [e]⟩
  · rw [update_of_ne h, decide_eq_false fun e => h (by rw [e]), Bool.or_false]

theorem used_clear (b c : Nat) :
    used sb (update blk (sb.bblock b) (clearBit (blk (sb.bblock b)) (b % BPB))) c =
      (used sb blk c && !decide (c = b)) := by
  unfold used
  by_cases h : sb.bblock c = sb.bblock b
  · rw [h, update_self, bit_clearBit]
    congr 2
    exact decide_eq_decide.2 ⟨fun e => bit_pos_inj h e, fun e => by rw [e]⟩
  · rw [update_of_ne h, decide_eq_false fun e => h (by rw [e]), Bool.not_false, Bool.and_true]

theorem dinode_put (i j : Nat) {x : Dinode} (hx : x.Ok) :
    dinode sb (update blk (sb.iblock i) (putDinode (blk (sb.iblock i)) (i % IPB) x)) j =
      if j = i then x else dinode sb blk j := by
  unfold dinode
  by_cases h : j = i
  · rw [if_pos h, h, update_self, getDinode_put hx]
  · rw [if_neg h]
    by_cases hb : sb.iblock j = sb.iblock i
    · have hne : j % IPB ≠ i % IPB := fun e => h <| by
        have h3 : j / IPB = i / IPB := Nat.add_right_cancel hb
        rw [← Nat.div_add_mod j IPB, ← Nat.div_add_mod i IPB, e, h3]
      rw [hb, update_self, getDinode_put_other hne]
    · rw [update_of_ne hb]

end Frames

/-! ## What allocation and writing keep -/

section Keeps
variable {sb : Superblock} {t t' : Table} {blk blk' : Nat → Arr} {i j b : Nat}

theorem dataSlot_ne (bn : Nat) : dataSlot bn ≠ NDIRECT := by
  unfold dataSlot
  by_cases h : bn < NDIRECT
  · rw [if_pos h]
    omega
  · rw [if_neg h]
    omega

theorem entry_block {o size : Nat} (h : o + DESIZE ≤ size) : o / BSIZE * BSIZE < size := by
  have : o / BSIZE * BSIZE ≤ o := Nat.div_mul_le_self o BSIZE
  simp only [DESIZE] at h
  omega

theorem FileOk.keeps (h : FileOk sb t blk i) (hok : (t' i).Ok) (htype : (t' i).type = (t i).type)
    (hsize : (t' i).size = (t i).size) (hfree : (t' i).type = 0 → ∀ j, ref sb t' blk' (i, j) = 0)
    (href : ∀ j, ref sb t blk (i, j) ≠ 0 → ref sb t' blk' (i, j) = ref sb t blk (i, j))
    (hdata : ∀ j, j ≠ NDIRECT → ref sb t blk (i, j) ≠ 0 → blk' (ref sb t blk (i, j)) = blk (ref sb t blk (i, j))) :
    FileOk sb t' blk' i where
  ok := hok
  size := by
    rw [hsize]
    exact h.size
  full bn hbn := by
    rw [hsize] at hbn
    have hr := h.full bn hbn
    rwa [href _ hr]
  free := hfree
  dirs ht o ho hos := by
    rw [htype] at ht
    rw [hsize] at hos
    have hr := h.full _ (entry_block hos)
    have hd : dirInum sb t' blk' i o = dirInum sb t blk i o := by
      unfold dirInum
      rw [href _ hr, hdata _ (dataSlot_ne _) hr]
    rw [hd]
    exact h.dirs ht o ho hos

theorem FileOk.same (h : FileOk sb t blk i) (ht : t' i = t i) (href : ∀ j, ref sb t' blk' (i, j) = ref sb t blk (i, j))
    (hdata : ∀ j, j ≠ NDIRECT → ref sb t blk (i, j) ≠ 0 → blk' (ref sb t blk (i, j)) = blk (ref sb t blk (i, j))) :
    FileOk sb t' blk' i :=
  h.keeps (ht ▸ h.ok) (by rw [ht]) (by rw [ht])
    (fun h0 j => by
      rw [href]
      exact h.free (by rw [← ht, h0]) j)
    (fun j _ => href j) hdata

/-- The blocks after `balloc` took `b`. -/
def zeroed (sb : Superblock) (blk : Nat → Arr) (b : Nat) : Nat → Arr :=
  let marked := Function.update blk (sb.bblock b) (setBit (blk (sb.bblock b)) (b % BPB))
  Function.update marked b (fill (marked b) 0 BSIZE 0)

/-- A block whose bit is clear is a data block that nothing refers to. -/
structure Spare (sb : Superblock) (t : Table) (blk : Nat → Arr) (b : Nat) : Prop where
  le : sb.nmeta ≤ b
  lt : b < sb.size
  clear : used sb blk b = false
  unref : ∀ x, ref sb t blk x ≠ b

theorem Owned.spare (o : Owned sb t blk) (hb : b < sb.size) (hu : used sb blk b = false) : Spare sb t blk b := by
  have hle : sb.nmeta ≤ b := by
    by_contra hlt
    rw [o.below b (Nat.lt_of_not_le hlt)] at hu
    exact absurd hu (by decide)
  refine ⟨hle, hb, hu, o.own.fresh hle hb ?_⟩
  rw [hu]
  decide

theorem Spare.ne_zero (h : Spare sb t blk b) (hl : Layout sb) : b ≠ 0 := by
  have := hl.meta_pos
  have := h.le
  omega

theorem used_zeroed (hl : Layout sb) (hs : Spare sb t blk b) {c : Nat} (hc : c < sb.size) :
    used sb (zeroed sb blk b) c = (used sb blk c || decide (c = b)) := by
  unfold zeroed
  rw [used_update hl hc (.inl hs.le), used_set]

theorem Owned.ref_zeroed (o : Owned sb t blk) (hl : Layout sb) (hs : Spare sb t blk b) :
    ref sb t (zeroed sb blk b) = ref sb t blk := by
  have h1 := o.ref_meta (a := setBit (blk (sb.bblock b)) (b % BPB)) (hl.bits b hs.lt)
  unfold zeroed
  rw [ref_fresh, h1]
  rw [h1]
  exact hs.unref

theorem zeroed_other {c : Nat} (hl : Layout sb) (hs : Spare sb t blk b) (hc : sb.nmeta ≤ c) (hne : c ≠ b) :
    zeroed sb blk b c = blk c := by
  have := hl.bits b hs.lt
  unfold zeroed
  rw [update_of_ne hne, update_of_ne (by omega)]

theorem zeroed_self {k : Nat} (hk : k < BSIZE) : zeroed sb blk b b k = 0 := by
  unfold zeroed
  rw [update_self]
  exact if_pos ⟨Nat.zero_le _, by omega⟩

theorem dinode_zeroed (hl : Layout sb) (hs : Spare sb t blk b) (hi : i < sb.ninodes) :
    dinode sb (zeroed sb blk b) i = dinode sb blk i := by
  unfold zeroed
  rw [dinode_update hl hi (Nat.le_trans hl.bmap_le hs.le), dinode_update hl hi (le_bblock sb b)]

/-- An inode with another block in slot `j` of its `addrs`. -/
def Dinode.setAddr (x : Dinode) (j b : Nat) : Dinode := { x with addrs := Function.update x.addrs j b }

theorem Dinode.Ok.setAddr {x : Dinode} (h : x.Ok) (hj : j ≤ NDIRECT) (hb : b < 2 ^ 32) : (x.setAddr j b).Ok where
  type := h.type
  major := h.major
  minor := h.minor
  nlink := h.nlink
  size := h.size
  addrs k := by
    show update x.addrs j b k < _
    by_cases hk : k = j
    · rw [hk, update_self]
      exact hb
    · rw [update_of_ne hk]
      exact h.addrs k
  last k hk := by
    show update x.addrs j b k = 0
    rw [update_of_ne (by omega)]
    exact h.last k hk

theorem ref_setAddr (hi : i < sb.ninodes) (hj : j ≤ NDIRECT)
    (hind : j = NDIRECT → (t i).addrs NDIRECT = 0 ∧ ∀ k < BSIZE, blk b k = 0) :
    ref sb (update t i ((t i).setAddr j b)) blk = update (ref sb t blk) (i, j) b := by
  funext ⟨i', j'⟩
  by_cases hii : i' = i
  · subst hii
    by_cases hjj : j' = j
    · subst hjj
      rw [update_self, ref_addr _ hi hj, update_self]
      exact update_self ..
    · rw [update_of_ne fun e => hjj (Prod.mk.inj e).2]
      unfold ref
      simp only [update_self, Dinode.setAddr]
      by_cases hle : j' ≤ NDIRECT
      · rw [if_pos hi, if_pos hle, if_pos hi, if_pos hle, update_of_ne hjj]
      · rw [if_pos hi, if_neg hle, if_pos hi, if_neg hle]
        by_cases hjn : j = NDIRECT
        · -- The new indirect block is all zero, so its slots are empty, as they were.
          obtain ⟨h0, hz⟩ := hind hjn
          rw [if_neg (c := (t i').addrs NDIRECT ≠ 0 ∧ _) fun h => h.1 h0, hjn, update_self]
          split
          · next hb =>
            have hlt : 4 * (j' - NDIRECT - 1) + 3 < BSIZE := by
              have := hb.2
              simp only [NDIRECT, NINDIRECT, BSIZE] at *
              omega
            exact le32_congr fun k _ hk => hz k (by omega)
          · rfl
        · rw [update_of_ne (Ne.symm hjn)]
  · rw [update_of_ne fun e => hii (Prod.mk.inj e).1]
    unfold ref
    simp only [update_of_ne hii]

theorem Owned.zeroed {ref' : Nat × Nat → Nat} {x : Nat × Nat} (o : Owned sb t blk) (hl : Layout sb)
    (hs : Spare sb t blk b) (hx : ref sb t blk x = 0) (hr : ref' = update (ref sb t blk) x b) :
    Own ref' (fun c => used sb (zeroed sb blk b) c = true) sb.nmeta sb.size ∧
      ∀ c < sb.nmeta, used sb (Fs.zeroed sb blk b) c = true := by
  subst hr
  refine ⟨o.own.alloc hl.meta_pos hx hs.le hs.lt ?_ fun c _ hc => ?_, fun c hc => ?_⟩
  · rw [hs.clear]
    decide
  · rw [used_zeroed hl hs hc, Bool.or_eq_true, decide_eq_true_eq]
  · rw [used_zeroed hl hs (meta_lt hc), o.below c hc, Bool.true_or]

theorem ref_update_keeps {x : Nat × Nat} (hx : ref sb t blk x = 0)
    (hr : ref sb t' blk' = update (ref sb t blk) x b) (y : Nat × Nat) (hy : ref sb t blk y ≠ 0) :
    ref sb t' blk' y = ref sb t blk y := by
  have hyx : y ≠ x := fun e => hy (e ▸ hx)
  rw [hr, update_of_ne hyx]

theorem Owned.alloc_addr (o : Owned sb t blk) (hl : Layout sb) (hs : Spare sb t blk b) (hi : i < sb.ninodes)
    (hj : j ≤ NDIRECT) (h0 : (t i).addrs j = 0) :
    Owned sb (update t i ((t i).setAddr j b)) (Fs.zeroed sb blk b) ∧
      ref sb (update t i ((t i).setAddr j b)) (Fs.zeroed sb blk b) = update (ref sb t blk) (i, j) b := by
  have hx : ref sb t blk (i, j) = 0 := by rw [ref_addr _ hi hj, h0]
  have hr : ref sb (update t i ((t i).setAddr j b)) (Fs.zeroed sb blk b) =
      update (ref sb t blk) (i, j) b := by
    rw [ref_setAddr hi hj fun e => ⟨e ▸ h0, fun k hk => zeroed_self hk⟩, o.ref_zeroed hl hs]
  obtain ⟨ho, hbelow⟩ := o.zeroed hl hs hx hr
  exact ⟨⟨ho, hbelow⟩, hr⟩

/-- The blocks after `bmap` put the new block `b` into slot `e` of the indirect block `ind`. -/
def slotted (sb : Superblock) (blk : Nat → Arr) (b ind e : Nat) : Nat → Arr :=
  Function.update (zeroed sb blk b) ind (put32 (zeroed sb blk b ind) (4 * e) b)

theorem ref_slotted {e : Nat} (h : Owned sb t blk) (hl : Layout sb) (hs : Spare sb t blk b) (hi : i < sb.ninodes)
    (hind : (t i).addrs NDIRECT ≠ 0) (he : e < NINDIRECT) :
    ref sb t (slotted sb blk b ((t i).addrs NDIRECT) e) =
      update (ref sb t blk) (i, NDIRECT + 1 + e) b := by
  have hz := h.ref_zeroed hl hs
  have hp : ref sb t blk (i, NDIRECT) = (t i).addrs NDIRECT := ref_addr _ hi (Nat.le_refl _)
  funext ⟨i', j'⟩
  by_cases hii : i' = i
  · subst hii
    unfold ref
    by_cases hle : j' ≤ NDIRECT
    · rw [update_of_ne fun e => absurd (Prod.mk.inj e).2 (by omega)]
      simp only [if_pos hi, if_pos hle]
    · simp only [if_pos hi, if_neg hle, slotted, update_self]
      by_cases hm : j' ≤ NDIRECT + NINDIRECT
      · rw [if_pos ⟨hind, hm⟩]
        by_cases hje : j' = NDIRECT + 1 + e
        · subst hje
          rw [update_self, show NDIRECT + 1 + e - NDIRECT - 1 = e by omega, le32_put32]
          have := hl.small
          have := hs.lt
          exact Nat.mod_eq_of_lt (by omega)
        · rw [update_of_ne fun e => hje (Prod.mk.inj e).2, if_pos hi, if_neg hle, if_pos ⟨hind, hm⟩,
            le32_put32_other (by omega), zeroed_other hl hs]
          · rw [← hp] at hind ⊢
            exact (h.own.range _ hind).1
          · rw [← hp]
            exact hs.unref _
      · rw [if_neg fun h => hm h.2, update_of_ne fun e => absurd (Prod.mk.inj e).2 (by omega), if_pos hi,
          if_neg hle, if_neg fun h => hm h.2]
  · rw [update_of_ne fun e => hii (Prod.mk.inj e).1, ← hz]
    unfold ref slotted
    by_cases hn : i' < sb.ninodes
    · simp only [if_pos hn]
      by_cases hne : (t i').addrs NDIRECT = (t i).addrs NDIRECT
      · -- No other inode has this indirect block.
        rw [← hp, ← ref_addr blk hn (Nat.le_refl _)] at hne
        have hx := h.own.inj (i', NDIRECT) (i, NDIRECT) (by rw [hne, hp]; exact hind) hne
        exact absurd (Prod.mk.inj hx).1 hii
      · rw [update_of_ne hne]
    · simp only [if_neg hn]

theorem Owned.alloc_slot {e : Nat} (o : Owned sb t blk) (hl : Layout sb) (hs : Spare sb t blk b) (hi : i < sb.ninodes)
    (hind : (t i).addrs NDIRECT ≠ 0) (he : e < NINDIRECT) (h0 : ref sb t blk (i, NDIRECT + 1 + e) = 0) :
    Owned sb t (slotted sb blk b ((t i).addrs NDIRECT) e) := by
  have hge : sb.nmeta ≤ (t i).addrs NDIRECT := by
    rw [← ref_addr blk hi (Nat.le_refl _)] at hind ⊢
    exact (o.own.range _ hind).1
  obtain ⟨ho, hbelow⟩ := o.zeroed hl hs h0 (ref_slotted o hl hs hi hind he)
  have hu : ∀ c < sb.size, used sb (slotted sb blk b ((t i).addrs NDIRECT) e) c = used sb (Fs.zeroed sb blk b) c :=
    fun c hc => used_update hl hc (.inl hge)
  refine ⟨ho.congr fun c _ hc => ?_, fun c hc => ?_⟩
  · rw [hu c hc]
  · rw [hu c (meta_lt hc)]
    exact hbelow c hc

theorem Owned.slotted_other {e : Nat} (o : Owned sb t blk) (hl : Layout sb) (hs : Spare sb t blk b) (hi : i < sb.ninodes)
    {x : Nat × Nat} (hx : x.2 ≠ NDIRECT) (hx0 : ref sb t blk x ≠ 0) :
    slotted sb blk b ((t i).addrs NDIRECT) e (ref sb t blk x) = blk (ref sb t blk x) := by
  have hne : ref sb t blk x ≠ (t i).addrs NDIRECT := fun e => by
    rw [← ref_addr blk hi (Nat.le_refl _)] at e
    exact hx (by rw [o.own.inj _ _ hx0 e])
  unfold slotted
  rw [update_of_ne hne]
  exact zeroed_other hl hs (o.own.range x hx0).1 (hs.unref x)

end Keeps

/-! ## Writes to data, changes of an inode, truncation -/

section Writes
variable {sb : Superblock} {t : Table} {blk : Nat → Arr} {i b : Nat} {a : Arr} {x : Dinode}

theorem dataSlot_inj {m n : Nat} (h : dataSlot m = dataSlot n) : m = n := by
  unfold dataSlot at h
  split at h <;> split at h <;> omega

theorem Owned.update (o : Owned sb t blk) (hl : Layout sb) (hb : sb.nmeta ≤ b ∨ b < sb.bmapstart)
    (hr : ref sb t (Function.update blk b a) = ref sb t blk) : Owned sb t (Function.update blk b a) := by
  have hu : ∀ c < sb.size, used sb (Function.update blk b a) c = used sb blk c := fun c hc => used_update hl hc hb
  refine ⟨?_, fun c hc => ?_⟩
  · rw [hr]
    exact o.own.congr fun c _ hc => by rw [hu c hc]
  · rw [hu c (meta_lt hc)]
    exact o.below c hc

theorem Owned.write {bn : Nat} (o : Owned sb t blk) (hl : Layout sb) (hb : ref sb t blk (i, dataSlot bn) = b)
    (h0 : b ≠ 0) : Owned sb t (Function.update blk b a) ∧ ref sb t (Function.update blk b a) = ref sb t blk := by
  have hr : ref sb t (Function.update blk b a) = ref sb t blk := o.ref_data (dataSlot_ne bn) hb
  have hge : sb.nmeta ≤ b := hb ▸ (o.own.range _ (hb ▸ h0)).1
  exact ⟨o.update hl (.inl hge) hr, hr⟩

theorem Owned.inodes (o : Owned sb t blk) (hl : Layout sb) (hb : b < sb.bmapstart) :
    Owned sb t (Function.update blk b a) ∧ ref sb t (Function.update blk b a) = ref sb t blk := by
  have hr : ref sb t (Function.update blk b a) = ref sb t blk := o.ref_meta (Nat.lt_of_lt_of_le hb hl.bmap_le)
  exact ⟨o.update hl (.inr hb) hr, hr⟩

theorem Files.inodes (h : Files sb t blk) (hl : Layout sb) (hb : b < sb.bmapstart) :
    Files sb t (update blk b a) ∧ ref sb t (update blk b a) = ref sb t blk := by
  obtain ⟨ho, hr⟩ := h.toOwned.inodes (a := a) hl hb
  refine ⟨⟨ho, fun j hj => (h.each j hj).same rfl (fun s => by rw [hr]) fun s _ hs => ?_⟩, hr⟩
  have := (h.own.range _ hs).1
  have := hl.bmap_le
  exact update_of_ne (by omega) _ _

theorem ref_set (hx : x.addrs = (t i).addrs) : ref sb (update t i x) blk = ref sb t blk := by
  have hg : ∀ j, (update t i x j).addrs = (t j).addrs := fun j => by
    by_cases e : j = i
    · rw [e, update_self, hx]
    · rw [update_of_ne e]
  funext y
  unfold ref
  rw [hg]

theorem Owned.set (o : Owned sb t blk) (hx : x.addrs = (t i).addrs) : Owned sb (Function.update t i x) blk :=
  ⟨by rw [ref_set hx]; exact o.own, o.below⟩

theorem Files.set (h : Owned sb t blk) (hrest : ∀ j < sb.ninodes, j ≠ i → FileOk sb t blk j)
    (hx : x.addrs = (t i).addrs) (hf : FileOk sb (update t i x) blk i) :
    Files sb (update t i x) blk := by
  have hr : ref sb (update t i x) blk = ref sb t blk := ref_set hx
  refine ⟨h.set hx, fun j hj => ?_⟩
  by_cases e : j = i
  · rw [e]
    exact hf
  · exact (hrest j hj e).same (update_of_ne e _ _) (fun s => by rw [hr]) fun _ _ _ => rfl

theorem FileOk.empty (hok : (t i).Ok) (hsize : (t i).size = 0) (href : ∀ j, ref sb t blk (i, j) = 0) :
    FileOk sb t blk i where
  ok := hok
  size := by
    rw [hsize]
    exact Nat.zero_le _
  full bn hbn := by
    rw [hsize] at hbn
    omega
  free _ := href
  dirs _ o _ hos := by
    rw [hsize] at hos
    simp only [DESIZE] at hos
    omega

end Writes

end Xv6.Fs
