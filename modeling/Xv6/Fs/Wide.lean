import Xv6.Fs.Nlink
/-!
# A file with many names

Two directories of 16385 entries each, nearly all of them names of one file, and
one more name in the root: as many as a `short` can count. `sys_link` makes one
more, and the link count becomes negative.
-/

namespace Xv6.Fs

open Bytes Hoare SlotMap

/-! ## The disk -/

def wideSb : Superblock := ⟨640, 594, 8, 30, 2, 32, 45⟩

def wideRoot : Dinode := ⟨T_DIR, 0, 0, 3, 80, fun j => if j = 0 then 46 else 0⟩

def wideFile : Dinode := ⟨T_FILE, 0, 0, 32767, 0, fun _ => 0⟩

/-- A directory with the blocks from `base` on. -/
def wideDir (base : Nat) : Dinode := ⟨T_DIR, 0, 0, 1, 262160, fun j => if j ≤ NDIRECT then base + j else 0⟩

/-- Four letters for a number. -/
def wideName (j : Nat) : List UInt8 :=
  [UInt8.ofNat (65 + j % 16), UInt8.ofNat (65 + j / 16 % 16), UInt8.ofNat (65 + j / 256 % 16),
    UInt8.ofNat (65 + j / 4096 % 16)]

def wideKey (j : Nat) : List UInt8 := if j = 0 then dot else if j = 1 then dotdot else wideName j

def wideInum (d j : Nat) : Nat := if j = 0 then d else if j = 1 then 1 else 2

/-- The entries of directory `d`: all but the first two name inode 2. -/
def wideEntry (d j : Nat) : Dirent := ⟨wideInum d j, strncpy (wideKey j) DIRSIZ⟩

/-- Block `bn` of the directory. -/
def widePart (d bn : Nat) : Arr := fun o => (wideEntry d ((1024 * bn + o) / 16)).bytes.getD (o % 16) 0

/-- The indirect block, for the slots up to 257. -/
def wideIndirect (base : Nat) : Arr := fun o =>
  if o / 4 < 245 then
    if o % 4 = 0 then UInt8.ofNat (base + 13 + o / 4)
    else if o % 4 = 1 then UInt8.ofNat ((base + 13 + o / 4) / 256) else 0
  else 0

def wideBlock (d base b : Nat) : Arr :=
  if b = base + 12 then wideIndirect base else widePart d (if b < base + 12 then b - base else b - base - 1)

def wideDisk (b : Nat) : Arr :=
  if b = 32 then
    putDinode (putDinode (putDinode (putDinode (fun _ => 0) 1 wideRoot) 2 wideFile) 3 (wideDir 47)) 4 (wideDir 305)
  else if b = 45 then fun j => if j < 70 then 255 else if j = 70 then 7 else 0
  else if b = 46 then
    blit (fun _ => 0) 0 (Dirent.bytes ⟨1, strncpy dot DIRSIZ⟩ ++ Dirent.bytes ⟨1, strncpy dotdot DIRSIZ⟩ ++
      Dirent.bytes ⟨2, strncpy [102] DIRSIZ⟩ ++ Dirent.bytes ⟨3, strncpy [97] DIRSIZ⟩ ++
      Dirent.bytes ⟨4, strncpy [98] DIRSIZ⟩)
  else if 47 ≤ b ∧ b < 305 then wideBlock 3 47 b
  else if 305 ≤ b ∧ b < 563 then wideBlock 4 305 b
  else fun _ => 0

/-- What the disk says, as far as it can be read off. -/
structure WideFacts : Prop where
  addrs : ∀ i < 8, ∀ j ≤ NDIRECT, (dinode wideSb wideDisk i).addrs j =
    if i = 1 ∧ j = 0 then 46 else if i = 3 then 47 + j else if i = 4 then 305 + j else 0
  size : ∀ i < 8, (dinode wideSb wideDisk i).size = if i = 1 then 80 else if i = 3 ∨ i = 4 then 262160 else 0
  type : ∀ i < 8, (dinode wideSb wideDisk i).type =
    if i = 1 ∨ i = 3 ∨ i = 4 then T_DIR else if i = 2 then T_FILE else 0
  nlink : (dinode wideSb wideDisk 2).nlink = 32767 ∧ ∀ i < 5, 1 ≤ i → 0 < (dinode wideSb wideDisk i).nlink
  inums : ∀ o ≤ 64, o % 16 = 0 → dirInum wideSb (dinode wideSb wideDisk) wideDisk 1 o < 8
  keys : ∀ i < (slotsOf wideSb (dinode wideSb wideDisk) wideDisk 1).length,
    ∀ j < (slotsOf wideSb (dinode wideSb wideDisk) wideDisk 1).length,
    ∀ p ∈ (slotsOf wideSb (dinode wideSb wideDisk) wideDisk 1)[i]?.join,
    ∀ q ∈ (slotsOf wideSb (dinode wideSb wideDisk) wideDisk 1)[j]?.join, p.1 = q.1 → i = j
  root : (∀ x ∈ slotsOf wideSb (dinode wideSb wideDisk) wideDisk 1, ∀ p ∈ x, p.2 < 5 ∧ 1 ≤ p.2) ∧
    count (slotsOf wideSb (dinode wideSb wideDisk) wideDisk 1) 2 = 1

theorem wideFacts : WideFacts where
  addrs := by decide +kernel
  size := by decide +kernel
  type := by decide +kernel
  nlink := by decide +kernel
  inums := by decide +kernel
  keys := by decide +kernel
  root := by decide +kernel

/-- Directory 3 has its blocks from 47 on, directory 4 from 305 on. -/
def WideAt (d base : Nat) : Prop := d = 3 ∧ base = 47 ∨ d = 4 ∧ base = 305

section Blocks
variable {d base e j bn : Nat}

theorem le32_wideIndirect (hb : base < 512) (e : Nat) :
    le32 (wideIndirect base) (4 * e) = if e < 245 then base + 13 + e else 0 := by
  have h0 : 4 * e % 4 = 0 ∧ 4 * e / 4 = e := by omega
  have h1 : (4 * e + 1) % 4 = 1 ∧ (4 * e + 1) / 4 = e := by omega
  have h2 : (4 * e + 2) % 4 = 2 ∧ (4 * e + 2) / 4 = e := by omega
  have h3 : (4 * e + 2 + 1) % 4 = 3 ∧ (4 * e + 2 + 1) / 4 = e := by omega
  unfold le32 le16 wideIndirect
  simp only [h0.1, h0.2, h1.1, h1.2, h2.1, h2.2, h3.1, h3.2]
  split
  · simp [UInt8.toNat_ofNat']
    omega
  · rfl

theorem wideDisk_block (h : WideAt d base) (hj : j ≤ 257) : wideDisk (base + j) = wideBlock d base (base + j) := by
  unfold wideDisk
  rcases h with ⟨rfl, rfl⟩ | ⟨rfl, rfl⟩
  · rw [if_neg (by omega), if_neg (by omega), if_neg (by omega), if_pos (by omega)]
  · rw [if_neg (by omega), if_neg (by omega), if_neg (by omega), if_neg (by omega), if_pos (by omega)]

theorem ref_dir (h : WideAt d base) (j : Nat) :
    ref wideSb (dinode wideSb wideDisk) wideDisk (d, j) = if j ≤ 257 then base + j else 0 := by
  have hd : d < wideSb.ninodes := by
    show d < 8
    rcases h with ⟨rfl, -⟩ | ⟨rfl, -⟩ <;> omega
  have haddr : ∀ j ≤ NDIRECT, (dinode wideSb wideDisk d).addrs j = base + j := fun j hj => by
    rw [wideFacts.addrs d hd j hj]
    rcases h with ⟨rfl, rfl⟩ | ⟨rfl, rfl⟩
    · rw [if_neg (by omega), if_pos rfl]
    · rw [if_neg (by omega), if_neg (by omega), if_pos rfl]
  have hbase : 0 < base ∧ base < 512 := by rcases h with ⟨-, rfl⟩ | ⟨-, rfl⟩ <;> omega
  have hnd : NDIRECT = 12 := rfl
  have hni : NINDIRECT = 256 := rfl
  unfold ref
  dsimp only
  rw [if_pos hd]
  by_cases hj : j ≤ NDIRECT
  · rw [if_pos hj, haddr j hj, if_pos (by omega)]
  · rw [if_neg hj, haddr NDIRECT (Nat.le_refl _), hnd, wideDisk_block h (by omega), wideBlock, if_pos rfl,
      le32_wideIndirect hbase.2]
    by_cases hc : j ≤ 257
    · rw [if_pos ⟨by omega, by omega⟩, if_pos (by omega), if_pos hc]
      omega
    · rw [if_neg (show ¬ j - 12 - 1 < 245 by omega), ite_self, if_neg hc]

theorem ref_root : ref wideSb (dinode wideSb wideDisk) wideDisk (1, 0) = 46 := by
  rw [ref_addr wideDisk (show 1 < wideSb.ninodes by decide) (Nat.zero_le _), wideFacts.addrs 1 (by decide) 0 (Nat.zero_le _)]
  rfl

theorem ref_wide {x : Nat × Nat} (hx : ref wideSb (dinode wideSb wideDisk) wideDisk x ≠ 0) :
    (x = (1, 0) ∧ ref wideSb (dinode wideSb wideDisk) wideDisk x = 46) ∨
      (x.1 = 3 ∧ x.2 ≤ 257 ∧ ref wideSb (dinode wideSb wideDisk) wideDisk x = 47 + x.2) ∨
      (x.1 = 4 ∧ x.2 ≤ 257 ∧ ref wideSb (dinode wideSb wideDisk) wideDisk x = 305 + x.2) := by
  obtain ⟨i, j⟩ := x
  by_cases h3 : i = 3
  · rw [h3, ref_dir (.inl ⟨rfl, rfl⟩) j] at hx ⊢
    have hj : j ≤ 257 := by
      by_contra hj
      exact hx (if_neg hj)
    rw [if_pos hj]
    exact .inr (.inl ⟨rfl, hj, rfl⟩)
  by_cases h4 : i = 4
  · rw [h4, ref_dir (.inr ⟨rfl, rfl⟩) j] at hx ⊢
    have hj : j ≤ 257 := by
      by_contra hj
      exact hx (if_neg hj)
    rw [if_pos hj]
    exact .inr (.inr ⟨rfl, hj, rfl⟩)
  have hij : i = 1 ∧ j = 0 := by
    by_contra hij
    refine hx ?_
    unfold ref
    dsimp only
    by_cases hi : i < wideSb.ninodes
    · have haddr := wideFacts.addrs i hi
      have hlast : (dinode wideSb wideDisk i).addrs NDIRECT = 0 := by
        rw [haddr NDIRECT (Nat.le_refl _), if_neg fun h => absurd h.2 (by decide), if_neg h3, if_neg h4]
      rw [if_pos hi]
      by_cases hj : j ≤ NDIRECT
      · rw [if_pos hj, haddr j hj, if_neg hij, if_neg h3, if_neg h4]
      · rw [if_neg hj, if_neg fun hc => hc.1 hlast]
    · rw [if_neg hi]
  rw [hij.1, hij.2]
  exact .inl ⟨rfl, ref_root⟩

theorem used_wide {b : Nat} (hb : b < 640) : used wideSb wideDisk b = true ↔ b < 563 := by
  have hbits : ∀ k < 8, Nat.testBit 255 k = true ∧ (Nat.testBit 7 k = true ↔ k < 3) ∧ Nat.testBit 0 k = false := by decide
  obtain ⟨h255, h7, h0⟩ := hbits (b % 8) (Nat.mod_lt _ (by decide))
  have hblock : wideSb.bblock b = 45 := by
    show b / 8192 + 45 = 45
    omega
  have hbyte : used wideSb wideDisk b = (if b / 8 < 70 then (255 : UInt8) else if b / 8 = 70 then 7 else 0).toNat.testBit
      (b % 8) := by
    have hmod : b % BPB = b := Nat.mod_eq_of_lt (Nat.lt_trans hb (by decide))
    rw [used, hblock, hmod]
    rfl
  rw [hbyte]
  by_cases h1 : b / 8 < 70
  · rw [if_pos h1]
    exact iff_of_true h255 (by omega)
  · rw [if_neg h1]
    by_cases h2 : b / 8 = 70
    · rw [if_pos h2]
      exact h7.trans (by omega)
    · rw [if_neg h2]
      refine iff_of_false ?_ (by omega)
      show ¬ Nat.testBit 0 (b % 8) = true
      rw [h0]
      decide

theorem owned_wide : Owned wideSb (dinode wideSb wideDisk) wideDisk := by
  have hu : ∀ b < 640, (used wideSb wideDisk b = true ↔ b < 563) := fun b hb => used_wide hb
  have hmeta : wideSb.nmeta = 46 := rfl
  have hsize : wideSb.size = 640 := rfl
  refine ⟨⟨fun x hx => ?_, fun x y hx hxy => ?_, fun b hlo hhi => ?_⟩, fun b hb => (hu b (by omega)).2 (by omega)⟩
  · rcases ref_wide hx with ⟨-, h⟩ | ⟨-, hj, h⟩ | ⟨-, hj, h⟩ <;> omega
  · rcases ref_wide hx with ⟨rfl, h⟩ | ⟨h1, h2, h⟩ | ⟨h1, h2, h⟩ <;>
      rcases ref_wide (hxy ▸ hx) with ⟨rfl, h'⟩ | ⟨h1', h2', h'⟩ | ⟨h1', h2', h'⟩
    · rfl
    all_goals exact Prod.ext (by omega) (by omega)
  · rw [hu b hhi]
    constructor
    · intro hb
      by_cases h1 : b = 46
      · exact ⟨(1, 0), ref_root.trans h1.symm⟩
      by_cases h2 : b < 305
      · refine ⟨(3, b - 47), ?_⟩
        rw [ref_dir (.inl ⟨rfl, rfl⟩), if_pos (by omega)]
        omega
      · refine ⟨(4, b - 305), ?_⟩
        rw [ref_dir (.inr ⟨rfl, rfl⟩), if_pos (by omega)]
        omega
    · rintro ⟨x, hx⟩
      rcases ref_wide (x := x) (by omega) with ⟨-, h⟩ | ⟨-, hj, h⟩ | ⟨-, hj, h⟩ <;> omega

end Blocks

/-! ## The directories -/

theorem dirSlots_range {n : Nat} {e : Nat → Dirent} (hlen : ∀ j, (e j).bytes.length = 16)
    (hin : ∀ j, (e j).inum < 65536) :
    dirSlots ((List.range (16 * n)).map fun o => (e (o / 16)).bytes.getD (o % 16) 0) =
      (List.range n).map fun j => (e j).slot := by
  have hcount : 16 * n / DESIZE = n := by
    rw [desize]
    omega
  rw [dirSlots, entries, List.length_map, List.length_range, hcount, List.map_map]
  refine List.map_congr_left fun j hj => ?_
  have hj := List.mem_range.1 hj
  rw [Function.comp_apply, entry]
  have hbytes : (((List.range (16 * n)).map fun o => (e (o / 16)).bytes.getD (o % 16) 0).drop (DESIZE * j)).take DESIZE =
      (e j).bytes := by
    apply List.ext_getElem?
    intro m
    rw [desize, List.getElem?_take, List.getElem?_drop, List.getElem?_map]
    by_cases hm : m < 16
    · have hdiv : (16 * j + m) / 16 = j ∧ (16 * j + m) % 16 = m := by omega
      rw [if_pos hm, List.getElem?_range (by omega), Option.map_some, hdiv.1, hdiv.2,
        List.getElem?_eq_getElem (by rw [hlen]; exact hm), List.getD_eq_getElem _ _ (by rw [hlen]; exact hm)]
    · rw [if_neg hm, List.getElem?_eq_none (by rw [hlen]; omega)]
  rw [hbytes, ofBytes_bytes (hin j)]

section Dirs
variable {d base : Nat}

theorem wideEntry_length (d j : Nat) : (wideEntry d j).bytes.length = 16 := by
  rw [wideEntry, Dirent.bytes, List.length_cons, List.length_cons, length_strncpy]
  rfl

theorem wideInum_cases (d j : Nat) : wideInum d j = d ∨ wideInum d j = 1 ∨ wideInum d j = 2 := by
  unfold wideInum
  split
  · exact .inl rfl
  · split
    · exact .inr (.inl rfl)
    · exact .inr (.inr rfl)

theorem WideAt.lt (h : WideAt d base) : d < 8 := by rcases h with ⟨rfl, -⟩ | ⟨rfl, -⟩ <;> decide

theorem WideAt.dinode (h : WideAt d base) :
    (dinode wideSb wideDisk d).type = T_DIR ∧ (Fs.dinode wideSb wideDisk d).size = 262160 := by
  rcases h with ⟨rfl, -⟩ | ⟨rfl, -⟩
  · exact ⟨wideFacts.type 3 (by decide), wideFacts.size 3 (by decide)⟩
  · exact ⟨wideFacts.type 4 (by decide), wideFacts.size 4 (by decide)⟩

theorem byteAt_wide (h : WideAt d base) {o : Nat} (ho : o < 262160) :
    ref wideSb (dinode wideSb wideDisk) wideDisk (d, dataSlot (o / BSIZE)) ≠ 0 ∧
      byteAt wideSb (dinode wideSb wideDisk) wideDisk d o = (wideEntry d (o / 16)).bytes.getD (o % 16) 0 := by
  have hb : BSIZE = 1024 := rfl
  have hnd : NDIRECT = 12 := rfl
  have hslot : dataSlot (o / 1024) ≤ 257 ∧ dataSlot (o / 1024) ≠ 12 ∧
      (if base + dataSlot (o / 1024) < base + 12 then base + dataSlot (o / 1024) - base
        else base + dataSlot (o / 1024) - base - 1) = o / 1024 := by
    unfold dataSlot
    by_cases hlt : o / 1024 < 12
    · rw [hnd, if_pos hlt, if_pos (by omega)]
      omega
    · rw [hnd, if_neg hlt, if_neg (by omega)]
      omega
  have hbase : 0 < base := by rcases h with ⟨-, rfl⟩ | ⟨-, rfl⟩ <;> decide
  have href := ref_dir h (dataSlot (o / 1024))
  rw [if_pos hslot.1] at href
  refine ⟨by rw [hb, href]; omega, ?_⟩
  rw [byteAt, hb, href, wideDisk_block h hslot.1, wideBlock, if_neg (by omega), hslot.2.2, widePart]
  have hdiv : (1024 * (o / 1024) + o % 1024) / 16 = o / 16 ∧ o % 1024 % 16 = o % 16 := by omega
  rw [hdiv.1, hdiv.2]

theorem slotsOf_wide (h : WideAt d base) : slotsOf wideSb (dinode wideSb wideDisk) wideDisk d =
    (List.range 16385).map fun j => (wideEntry d j).slot := by
  have hcontent : content wideSb (dinode wideSb wideDisk) wideDisk d =
      (List.range (16 * 16385)).map fun o => (wideEntry d (o / 16)).bytes.getD (o % 16) 0 := by
    rw [content, h.dinode.2]
    refine List.map_congr_left fun o ho => ?_
    obtain ⟨h0, he⟩ := byteAt_wide h (List.mem_range.1 ho)
    rw [if_neg h0, he]
  rw [slotsOf, hcontent]
  refine dirSlots_range (wideEntry_length d) fun j => ?_
  have hd := h.lt
  show wideInum d j < 65536
  rcases wideInum_cases d j with e | e | e <;> omega

theorem cut_wideKey (j : Nat) : cut (wideKey j) = wideKey j := by
  have hne : ∀ k < 16, UInt8.ofNat (65 + k) ≠ 0 := by decide
  unfold wideKey
  split
  · rfl
  · split
    · rfl
    · unfold cut wideName
      simp only [text_succ, List.headD_cons, List.tail_cons, show DIRSIZ = 14 from rfl]
      rw [if_neg (hne _ (Nat.mod_lt _ (by decide))), if_neg (hne _ (Nat.mod_lt _ (by decide))),
        if_neg (hne _ (Nat.mod_lt _ (by decide))), if_neg (hne _ (Nat.mod_lt _ (by decide)))]
      rfl

theorem slot_wide (hd : d ≠ 0) (j : Nat) : (wideEntry d j).slot = some (wideKey j, wideInum d j) := by
  have h0 : ¬ wideInum d j = 0 := by rcases wideInum_cases d j with e | e | e <;> omega
  rw [wideEntry, Dirent.slot, if_neg h0, cut, text_strncpy]
  exact congrArg (fun name => some (name, wideInum d j)) (cut_wideKey j)

theorem wideName_inj {j j' : Nat} (hj : j < 65536) (hj' : j' < 65536) (h : wideName j = wideName j') : j = j' := by
  have hdigit : ∀ k < 16, ∀ k' < 16, UInt8.ofNat (65 + k) = UInt8.ofNat (65 + k') → k = k' := by decide
  obtain ⟨h1, h⟩ := List.cons.inj h
  obtain ⟨h2, h⟩ := List.cons.inj h
  obtain ⟨h3, h⟩ := List.cons.inj h
  obtain ⟨h4, -⟩ := List.cons.inj h
  have e1 := hdigit _ (Nat.mod_lt _ (by decide)) _ (Nat.mod_lt _ (by decide)) h1
  have e2 := hdigit _ (Nat.mod_lt _ (by decide)) _ (Nat.mod_lt _ (by decide)) h2
  have e3 := hdigit _ (Nat.mod_lt _ (by decide)) _ (Nat.mod_lt _ (by decide)) h3
  have e4 := hdigit _ (Nat.mod_lt _ (by decide)) _ (Nat.mod_lt _ (by decide)) h4
  omega

theorem length_wideKey (j : Nat) : (wideKey j).length = if j = 0 then 1 else if j = 1 then 2 else 4 := by
  unfold wideKey
  split
  · rfl
  · split <;> rfl

theorem wideKey_inj {j j' : Nat} (hj : j < 65536) (hj' : j' < 65536) (h : wideKey j = wideKey j') : j = j' := by
  -- the first two are told by their length
  have hlen := congrArg List.length h
  rw [length_wideKey, length_wideKey] at hlen
  by_cases h2 : 2 ≤ j ∧ 2 ≤ j'
  · unfold wideKey at h
    rw [if_neg (by omega), if_neg (by omega), if_neg (by omega), if_neg (by omega)] at h
    exact wideName_inj hj hj' h
  · split at hlen <;> split at hlen <;> first | omega | (split at hlen <;> first | omega | (split at hlen <;> omega))

theorem getElem?_wide (h : WideAt d base) {j : Nat} {x : Option (List UInt8 × Nat)}
    (hj : (slotsOf wideSb (dinode wideSb wideDisk) wideDisk d)[j]? = some x) :
    j < 16385 ∧ x = some (wideKey j, wideInum d j) := by
  have hd : d ≠ 0 := by rcases h with ⟨rfl, -⟩ | ⟨rfl, -⟩ <;> decide
  rw [slotsOf_wide h, List.getElem?_map, Option.map_eq_some_iff] at hj
  obtain ⟨m, hm, hx⟩ := hj
  obtain ⟨hlt, rfl⟩ := List.getElem?_eq_some_iff.1 hm
  rw [List.length_range] at hlt
  rw [List.getElem_range, slot_wide hd] at hx
  exact ⟨hlt, hx.symm⟩

theorem unique_wide (h : WideAt d base) : Unique (slotsOf wideSb (dinode wideSb wideDisk) wideDisk d) := by
  intro i j name v w hi hj
  obtain ⟨hi, hx⟩ := getElem?_wide h hi
  obtain ⟨hj, hy⟩ := getElem?_wide h hj
  obtain ⟨rfl, -⟩ := Prod.mk.inj (Option.some.inj hx)
  exact wideKey_inj (by omega) (by omega) (Prod.mk.inj (Option.some.inj hy)).1

theorem count_wide (h : WideAt d base) : count (slotsOf wideSb (dinode wideSb wideDisk) wideDisk d) 2 = 16383 := by
  have hd : d ≠ 0 ∧ d ≠ 2 := by rcases h with ⟨rfl, -⟩ | ⟨rfl, -⟩ <;> decide
  have hfirst : (List.range 2).countP (hasValue 2 ∘ fun j => (wideEntry d j).slot) = 0 := by
    refine List.countP_eq_zero.2 fun j hj hv => ?_
    have hj := List.mem_range.1 hj
    rw [Function.comp_apply, slot_wide hd.1] at hv
    have hv : wideInum d j = 2 := of_decide_eq_true hv
    unfold wideInum at hv
    split at hv
    · exact hd.2 hv
    · rw [if_pos (by omega)] at hv
      exact absurd hv (by decide)
  have hrest : (List.range 16383).countP ((hasValue 2 ∘ fun j => (wideEntry d j).slot) ∘ fun j => 2 + j) = 16383 := by
    rw [List.countP_eq_length.2 fun j _ => ?_, List.length_range]
    rw [Function.comp_apply, Function.comp_apply, slot_wide hd.1]
    refine decide_eq_true ?_
    show wideInum d (2 + j) = 2
    rw [wideInum, if_neg (by omega), if_neg (by omega)]
  rw [slotsOf_wide h, count, List.countP_map, show 16385 = 2 + 16383 from rfl, List.range_add, List.countP_append,
    List.countP_map, hfirst, hrest]

end Dirs

/-! ## The file system -/

theorem dir_wide {i : Nat} (hi : i < 8) (hT : (dinode wideSb wideDisk i).type = T_DIR) :
    i = 1 ∨ ∃ base, WideAt i base := by
  rw [wideFacts.type i hi] at hT
  split at hT
  · next h =>
    rcases h with h | h | h
    · exact .inl h
    · exact .inr ⟨47, .inl ⟨h, rfl⟩⟩
    · exact .inr ⟨305, .inr ⟨h, rfl⟩⟩
  · split at hT
    · exact absurd hT (by decide)
    · exact absurd hT (by decide)

theorem dirInum_wide {d base o : Nat} (h : WideAt d base) (h0 : o % 16 = 0) (ho : o + 16 ≤ 262160) :
    dirInum wideSb (dinode wideSb wideDisk) wideDisk d o = wideInum d (o / 16) := by
  have hb : BSIZE = 1024 := rfl
  have hsame : (o + 1) / 1024 = o / 1024 ∧ (o + 1) % 1024 = o % 1024 + 1 ∧ (o + 1) / 16 = o / 16 ∧ (o + 1) % 16 = 1 := by
    omega
  obtain ⟨-, e₀⟩ := byteAt_wide h (show o < 262160 by omega)
  obtain ⟨-, e₁⟩ := byteAt_wide h (show o + 1 < 262160 by omega)
  rw [byteAt, hb] at e₀ e₁
  rw [hsame.1, hsame.2.1, hsame.2.2.1, hsame.2.2.2] at e₁
  rw [h0] at e₀
  rw [dirInum, hb, le16, e₀, e₁]
  show (UInt8.ofNat (wideInum d (o / 16))).toNat + 256 * (UInt8.ofNat (wideInum d (o / 16) / 256)).toNat = _
  have hd := h.lt
  rw [UInt8.toNat_ofNat', UInt8.toNat_ofNat']
  rcases wideInum_cases d (o / 16) with e | e | e <;> omega

theorem files_wide : Files wideSb (dinode wideSb wideDisk) wideDisk := by
  refine ⟨owned_wide, fun i hi => ⟨getDinode_ok _ _, ?_, fun bn hbn => ?_, fun h0 j => ?_, fun hT o ho hle => ?_⟩⟩
  · have hmax : MAXFILE * BSIZE = 274432 := rfl
    rw [wideFacts.size i hi]
    split
    · omega
    · split <;> omega
  · have hb : BSIZE = 1024 := rfl
    have hnd : NDIRECT = 12 := rfl
    rw [wideFacts.size i hi, hb] at hbn
    split at hbn
    · next h1 =>
      rw [h1, show bn = 0 by omega]
      exact ref_root ▸ by decide
    · split at hbn
      · next h34 =>
        have hslot : dataSlot bn ≤ 257 := by
          unfold dataSlot
          split <;> omega
        rcases h34 with rfl | rfl
        · rw [ref_dir (.inl ⟨rfl, rfl⟩), if_pos hslot]
          omega
        · rw [ref_dir (.inr ⟨rfl, rfl⟩), if_pos hslot]
          omega
      · omega
  · by_contra hne
    have htype := wideFacts.type i hi
    rw [h0] at htype
    have hdir : i = 1 ∨ i = 3 ∨ i = 4 := by
      rcases ref_wide hne with ⟨h, -⟩ | ⟨h, -⟩ | ⟨h, -⟩
      · exact .inl (congrArg Prod.fst h)
      · exact .inr (.inl h)
      · exact .inr (.inr h)
    rw [if_pos hdir] at htype
    exact absurd htype (by decide)
  · rw [desize] at ho hle
    rcases dir_wide hi hT with rfl | ⟨base, h⟩
    · rw [wideFacts.size 1 (by decide), if_pos rfl] at hle
      exact wideFacts.inums o (by omega) ho
    · rw [h.dinode.2] at hle
      rw [dirInum_wide h ho hle]
      have hd := h.lt
      show _ < 8
      rcases wideInum_cases i (o / 16) with e | e | e <;> omega

theorem wellNamed_wide : WellNamed wideSb (dinode wideSb wideDisk) wideDisk where
  whole i hi hT := by
    rcases dir_wide hi hT with rfl | ⟨base, h⟩
    · rw [wideFacts.size 1 hi]
      rfl
    · rw [h.dinode.2]
      rfl
  unique i hi hT := by
    rcases dir_wide hi hT with rfl | ⟨base, h⟩
    · exact unique_of_forall wideFacts.keys
    · exact unique_wide h
  named d f := by
    rintro ⟨hd, hT, j, name, hj⟩
    have hthere : ∀ i < 5, 1 ≤ i → i < 8 ∧ (dinode wideSb wideDisk i).type ≠ 0 ∧ 0 < (dinode wideSb wideDisk i).nlink := by
      intro i h5 h1
      refine ⟨by omega, ?_, wideFacts.nlink.2 i h5 h1⟩
      rw [wideFacts.type i (by omega)]
      split
      · decide
      · rw [if_pos (by omega)]
        decide
    rcases dir_wide hd hT with rfl | ⟨base, h⟩
    · obtain ⟨h5, h1⟩ := wideFacts.root.1 _ (List.mem_of_getElem? hj) _ rfl
      exact hthere f h5 h1
    · obtain ⟨-, hx⟩ := getElem?_wide h hj
      obtain ⟨-, rfl⟩ := Prod.mk.inj (Option.some.inj hx)
      have hd : d = 3 ∨ d = 4 := h.imp And.left And.left
      rcases wideInum_cases d j with e | e | e
      all_goals exact hthere _ (by omega) (by omega)
  root := ⟨by decide, wideFacts.type 1 (by decide), wideFacts.nlink.2 1 (by decide) (by decide)⟩

theorem names_wide : names wideSb (dinode wideSb wideDisk) wideDisk 2 = 32767 := by
  have heach : ∀ i ∈ Finset.range 8, entriesFor wideSb (dinode wideSb wideDisk) wideDisk 2 i =
      if i = 1 then 1 else if i = 3 ∨ i = 4 then 16383 else 0 := fun i hi => by
    have hi := Finset.mem_range.1 hi
    unfold entriesFor
    by_cases hT : (dinode wideSb wideDisk i).type = T_DIR
    · rw [if_pos hT]
      rcases dir_wide hi hT with rfl | ⟨base, h⟩
      · rw [wideFacts.root.2, if_pos rfl]
      · have hi : i = 3 ∨ i = 4 := h.imp And.left And.left
        rw [count_wide h, if_neg (by omega), if_pos hi]
    · have hnot : ¬ (i = 1 ∨ i = 3 ∨ i = 4) := fun h => hT ((wideFacts.type i hi).trans (if_pos h))
      rw [if_neg hT, if_neg (by omega), if_neg (by omega)]
  show ∑ i ∈ Finset.range 8, _ = _
  rw [Finset.sum_congr rfl heach]
  rfl

/-- The current directory is inode 3. -/
def wideSt : St where
  blk := wideDisk
  disk := wideDisk
  icache k := ⟨ROOTDEV, k + 3, if k = 0 then 1 else 0, none, false, dinode wideSb wideDisk 0⟩
  ftable _ := ⟨.none, 0, false, false, 0, 0, 0, 0⟩
  pipes _ := none
  proc _ := ⟨true, fun _ => none, some 0⟩
  myproc := 0
  outstanding := 0
  lh := []
  trace := []

theorem inv_wide : Inv wideSb none (dinode wideSb wideDisk) wideSt where
  files := files_wide
  disk _ _ _ := rfl
  nonneg k := by
    show (0 : Int) ≤ if k = 0 then 1 else 0
    split <;> decide
  cached k _ hr := by
    have h0 : k = 0 := by
      by_contra hne
      exact absurd hr (by show ¬ (0 : Int) < if k = 0 then 1 else 0; rw [if_neg hne]; decide)
    rw [h0]
    exact ⟨rfl, show 3 < 8 by decide⟩
  uniq k _ k' _ _ _ h := Nat.add_right_cancel h
  copy _ _ _ h := by cases h

theorem sound_wide : Sound wideSb 2 0 wideSt where
  links :=
    { inv := inv_wide
      tree := wellNamed_wide
      home := ⟨rfl, ⟨by decide, by decide⟩, (WideAt.dinode (.inl ⟨rfl, rfl⟩)).1⟩
      lt := by decide
      file := by
        show ¬ (dinode wideSb wideDisk 2).type = T_DIR
        rw [wideFacts.type 2 (by decide)]
        decide
      count := by
        show (dinode wideSb wideDisk 2).nlink = names wideSb (dinode wideSb wideDisk) wideDisk 2 + 0
        rw [names_wide, wideFacts.nlink.1]
        rfl }
  present := by
    have htype : (dinode wideSb wideDisk 2).type ≠ 0 := by
      rw [wideFacts.type 2 (by decide)]
      decide
    refine ⟨fun h0 => absurd (names_wide.symm.trans h0) (by decide), iff_of_true htype (.inl ?_)⟩
    show 0 < names wideSb (dinode wideSb wideDisk) wideDisk 2
    rw [names_wide]
    decide
  idle := Int.le_refl 0

/-- One name more than a `short` can count: `link` succeeds, the link count is negative, and the name cannot be
removed. -/
theorem nlink_wraps : Sound wideSb 2 0 wideSt ∧ ∃ s', fileStep wideSb 2 0 wideSt linkNew s' ∧
    (dinode wideSb s'.blk 2).nlink = -32768 ∧ (dinode wideSb s'.blk 2).nlink ≠ nnames wideSb s' 2 ∧
    (exec (sysUnlink wideSb (some homeG)) s').1 = .error .unlinkNlink := by
  have hon : linkNew.On wideSb 2 0 wideSt := by
    show inodeOf wideSb wideSt 0 homeF = some 2
    decide +kernel
  have hok : (exec (linkNew.run wideSb) wideSt).1 = .ok 0 := by decide +kernel
  have hlinks : (dinode wideSb (exec (linkNew.run wideSb) wideSt).2.blk 2).nlink = -32768 := by decide +kernel
  have hpanic : (exec (sysUnlink wideSb (some homeG))
      (exec (linkNew.run wideSb) wideSt).2).1 = .error .unlinkNlink := by decide +kernel
  generalize hp : exec (linkNew.run wideSb) wideSt = p at hok hlinks hpanic
  obtain ⟨r, s'⟩ := p
  subst hok
  refine ⟨sound_wide, s', ⟨hon, hp⟩, hlinks, fun he => ?_, hpanic⟩
  rw [hlinks] at he
  omega

end Xv6.Fs
