import Xv6.Fs.Inode
import Xv6.Fs.Calls
/-!
# A small file system

An image on which the invariants hold: fifty blocks, of which four are data, and
three inodes. The root directory has the block 46, and a file "f" has the block 47.
-/

namespace Xv6.Fs

open Bytes Hoare Owner

def tinySb : Superblock := ⟨50, 4, 3, 30, 2, 32, 45⟩

def tinyRoot : Dinode := ⟨T_DIR, 0, 0, 1, 48, fun j => if j = 0 then 46 else 0⟩

/-- Four bytes long. -/
def tinyFile : Dinode := ⟨T_FILE, 0, 0, 1, 4, fun j => if j = 0 then 47 else 0⟩

def tinyDisk (b : Nat) : Arr :=
  if b = 32 then putDinode (putDinode (fun _ => 0) 1 tinyRoot) 2 tinyFile
  else if b = 45 then fun j => if j < 6 then 255 else 0
  else if b = 46 then
    blit (fun _ => 0) 0 (Dirent.bytes ⟨1, strncpy dot DIRSIZ⟩ ++ Dirent.bytes ⟨1, strncpy dotdot DIRSIZ⟩ ++
      Dirent.bytes ⟨2, strncpy [102] DIRSIZ⟩)
  else fun _ => 0

theorem layout_tiny : Layout tinySb where
  inodes := by decide
  bits := by decide
  root := by decide
  pos := by decide
  small := by decide

/-! ## Files of one block -/

section Small
variable {sb : Superblock} {t : Table} {blk : Nat → Arr} {n : Nat}

/-- The inodes 1 to `n` have one block each, from block 46 on. -/
def OneBlock (sb : Superblock) (t : Table) (blk : Nat → Arr) (n : Nat) : Prop :=
  ∀ x : Nat × Nat, ref sb t blk x = if x.2 = 0 ∧ 1 ≤ x.1 ∧ x.1 ≤ n then 45 + x.1 else 0

theorem oneBlock_of (hn : n < sb.ninodes)
    (h : ∀ i < sb.ninodes, ∀ j ≤ NDIRECT, (t i).addrs j = if j = 0 ∧ 1 ≤ i ∧ i ≤ n then 45 + i else 0) :
    OneBlock sb t blk n := by
  rintro ⟨i, j⟩
  unfold ref
  dsimp only
  by_cases hi : i < sb.ninodes
  · rw [if_pos hi]
    by_cases hj : j ≤ NDIRECT
    · rw [if_pos hj]
      exact h i hi j hj
    · have hnone : (t i).addrs NDIRECT = 0 := by
        rw [h i hi NDIRECT (Nat.le_refl _), if_neg fun hc => absurd hc.1 (by decide)]
      rw [if_neg hj, if_neg fun hc => hc.1 hnone, if_neg fun hc => by omega]
  · rw [if_neg hi, if_neg fun hc => by omega]

theorem OneBlock.owned (h : OneBlock sb t blk n) (hm : sb.nmeta = 46) (hn : 46 + n ≤ sb.size)
    (hu : ∀ b < sb.size, (used sb blk b = true ↔ b < 46 + n)) : Owned sb t blk := by
  refine ⟨⟨fun x hx => ?_, fun x y hx hxy => ?_, fun b hlo hhi => ?_⟩, fun b hb => (hu b (by omega)).2 (by omega)⟩
  · rw [h] at hx ⊢
    split at hx
    · next hc =>
      rw [if_pos hc]
      omega
    · exact absurd rfl hx
  · rw [h] at hx
    rw [h, h] at hxy
    split at hx
    · next hc =>
      rw [if_pos hc] at hxy
      split at hxy
      · exact Prod.ext (by omega) (by omega)
      · omega
    · exact absurd rfl hx
  · rw [hu b hhi]
    constructor
    · intro hb
      refine ⟨(b - 45, 0), ?_⟩
      rw [h, if_pos ⟨rfl, by omega, by omega⟩]
      omega
    · rintro ⟨x, hx⟩
      rw [h] at hx
      split at hx
      · omega
      · omega

theorem OneBlock.files (h : OneBlock sb t blk n) (own : Owned sb t blk) (hok : ∀ i, (t i).Ok)
    (hsize : ∀ i < sb.ninodes, (t i).size ≤ 1024 ∧ ((t i).size ≠ 0 → 1 ≤ i ∧ i ≤ n))
    (htype : ∀ i < sb.ninodes, (t i).type = 0 → ¬ (1 ≤ i ∧ i ≤ n))
    (hdirs : ∀ i < sb.ninodes, (t i).type = T_DIR → ∀ o ≤ 1024, o % DESIZE = 0 → o + DESIZE ≤ (t i).size →
      dirInum sb t blk i o < sb.ninodes) : Files sb t blk := by
  refine ⟨own, fun i hi => ⟨hok i, ?_, fun bn hbn => ?_, fun h0 j => ?_, fun hd o ho hle => ?_⟩⟩
  · have hmax : MAXFILE * BSIZE = 274432 := rfl
    have := (hsize i hi).1
    omega
  · obtain ⟨hle, hin⟩ := hsize i hi
    have hb : BSIZE = 1024 := rfl
    have hbn0 : bn = 0 := by
      rw [hb] at hbn
      omega
    rw [h, hbn0, if_pos ⟨rfl, hin (by omega)⟩]
    omega
  · rw [h, if_neg fun hc => htype i hi h0 hc.2]
  · have := (hsize i hi).1
    exact hdirs i hi hd o (by omega) ho hle

end Small

/-- What can be read off a disk with `n` files of at most `m` bytes each. -/
structure Facts (sb : Superblock) (blk : Nat → Arr) (n m : Nat) : Prop where
  addrs : ∀ i < 16, i < sb.ninodes → ∀ j ≤ NDIRECT, (dinode sb blk i).addrs j = if j = 0 ∧ 1 ≤ i ∧ i ≤ n then 45 + i else 0
  used : ∀ b < sb.size, (used sb blk b = true ↔ b < 46 + n)
  size : ∀ i < sb.ninodes, (dinode sb blk i).size ≤ m ∧ ((dinode sb blk i).size ≠ 0 → 1 ≤ i ∧ i ≤ n)
  type : ∀ i < sb.ninodes, (dinode sb blk i).type = 0 ↔ ¬ (1 ≤ i ∧ i ≤ n)
  inums : ∀ i ≤ n, ∀ o < m, o % DESIZE = 0 → dirInum sb (dinode sb blk) blk i o < sb.ninodes

theorem Facts.files {sb : Superblock} {blk : Nat → Arr} {n m : Nat} (f : Facts sb blk n m) (hm : m ≤ 1024)
    (h : OneBlock sb (dinode sb blk) blk n) (own : Owned sb (dinode sb blk) blk) : Files sb (dinode sb blk) blk := by
  refine h.files own (fun _ => getDinode_ok _ _) (fun i hi => ?_) (fun i hi => (f.type i hi).1) fun i hi hT o _ ho hle => ?_
  · exact ⟨Nat.le_trans (f.size i hi).1 hm, (f.size i hi).2⟩
  · have hd : DESIZE = 16 := rfl
    have hsize := (f.size i hi).1
    have hin : i ≤ n := by
      by_contra hne
      have h0 := (f.type i hi).2 (by omega)
      rw [hT] at h0
      exact absurd h0 (by decide)
    exact f.inums i hin o (by omega) ho

theorem facts_tiny : Facts tinySb tinyDisk 2 48 where
  addrs := by decide +kernel
  used := by decide +kernel
  size := by decide +kernel
  type := by decide +kernel
  inums := by decide +kernel

theorem oneBlock_tiny : OneBlock tinySb (dinode tinySb tinyDisk) tinyDisk 2 :=
  oneBlock_of (by decide) fun i hi => facts_tiny.addrs i (Nat.lt_trans hi (by decide)) hi

theorem owned_tiny : Owned tinySb (dinode tinySb tinyDisk) tinyDisk :=
  oneBlock_tiny.owned (by decide) (by decide) facts_tiny.used

theorem files_tiny : Files tinySb (dinode tinySb tinyDisk) tinyDisk := facts_tiny.files (by decide) oneBlock_tiny owned_tiny

/-- The file "f" is open as file 0, at its end, and process 0 runs. -/
def tinySt : St where
  blk := tinyDisk
  disk := tinyDisk
  icache k := ⟨ROOTDEV, 2, if k = 0 then 1 else 0, none, true, dinode tinySb tinyDisk 2⟩
  ftable _ := ⟨.inode, 1, true, true, 0, 0, 4, 0⟩
  pipes _ := none
  proc _ := ⟨true, fun _ => some 0, none⟩
  myproc := 0
  outstanding := 0
  lh := []
  trace := []

/-! ## Two directories -/

/-- The same disk with sixty-four inodes, of which "d" in the root, inode 3, is a directory too. -/
def homeSb : Superblock := ⟨50, 4, 64, 30, 2, 32, 45⟩

def homeRoot : Dinode := ⟨T_DIR, 0, 0, 2, 64, fun j => if j = 0 then 46 else 0⟩

def homeDir : Dinode := ⟨T_DIR, 0, 0, 1, 32, fun j => if j = 0 then 48 else 0⟩

def homeDisk (b : Nat) : Arr :=
  if b = 32 then putDinode (putDinode (putDinode (fun _ => 0) 1 homeRoot) 2 tinyFile) 3 homeDir
  else if b = 45 then fun j => if j < 6 then 255 else if j = 6 then 1 else 0
  else if b = 46 then
    blit (fun _ => 0) 0 (Dirent.bytes ⟨1, strncpy dot DIRSIZ⟩ ++ Dirent.bytes ⟨1, strncpy dotdot DIRSIZ⟩ ++
      Dirent.bytes ⟨2, strncpy [102] DIRSIZ⟩ ++ Dirent.bytes ⟨3, strncpy [100] DIRSIZ⟩)
  else if b = 48 then
    blit (fun _ => 0) 0 (Dirent.bytes ⟨3, strncpy dot DIRSIZ⟩ ++ Dirent.bytes ⟨1, strncpy dotdot DIRSIZ⟩)
  else fun _ => 0

/-- "/f", "/d", and "/g", which is not there. -/
def homeF : Str := ⟨[47, 102], by decide +kernel, by decide +kernel⟩

def homeD : Str := ⟨[47, 100], by decide, by decide⟩

def homeG : Str := ⟨[47, 103], by decide, by decide⟩

theorem layout_home : Layout homeSb where
  inodes := by decide
  bits := by decide
  root := by decide
  pos := by decide
  small := by decide

theorem dinode_home {i : Nat} (h16 : 16 ≤ i) (hi : i < 64) : dinode homeSb homeDisk i = getDinode (fun _ => 0)
    (i % IPB) := by
  have hb : homeSb.iblock i = i / 16 + 32 := rfl
  rw [dinode, homeDisk, hb, if_neg (by omega), if_neg (by omega), if_neg (by omega), if_neg (by omega)]

theorem facts_home : Facts homeSb homeDisk 3 64 where
  addrs := by decide +kernel
  used := by decide +kernel
  size := by decide +kernel
  type := by decide +kernel
  inums := by decide +kernel

theorem oneBlock_home : OneBlock homeSb (dinode homeSb homeDisk) homeDisk 3 := by
  refine oneBlock_of (by decide) fun i hi j hj => ?_
  by_cases h16 : i < 16
  · exact facts_home.addrs i h16 hi j hj
  · rw [dinode_home (by omega) hi, if_neg (by omega)]
    show (if j ≤ NDIRECT then le32 (fun _ => 0) _ else 0) = 0
    rw [if_pos hj]
    rfl

theorem files_home : Files homeSb (dinode homeSb homeDisk) homeDisk :=
  facts_home.files (by decide) oneBlock_home (oneBlock_home.owned (by decide) (by decide) facts_home.used)

/-! ## An empty disk -/

/-- Ninety-six blocks, of which forty-eight are data. -/
def blankSb : Superblock := ⟨96, 48, 3, 30, 2, 32, 45⟩

def blankDisk (b : Nat) : Arr := if b = 45 then fun j => if j < 6 then 255 else 0 else fun _ => 0

theorem layout_blank : Layout blankSb where
  inodes := by decide
  bits := by decide
  root := by decide
  pos := by decide
  small := by decide

theorem facts_blank : (∀ i < 3, ∀ j ≤ NDIRECT, (dinode blankSb blankDisk i).addrs j = 0) ∧
    ∀ b < 96, (used blankSb blankDisk b = true ↔ b < 48) := by decide +kernel

theorem ref_blank (x : Nat × Nat) : ref blankSb (dinode blankSb blankDisk) blankDisk x = 0 := by
  obtain ⟨i, j⟩ := x
  have haddr := facts_blank.1
  unfold ref
  dsimp only
  split
  · next hi =>
    split
    · next hj => exact haddr i hi j hj
    · exact if_neg fun h => h.1 (haddr i hi NDIRECT (Nat.le_refl _))
  · rfl

theorem owned_blank : Owned blankSb (dinode blankSb blankDisk) blankDisk := by
  have hmeta : blankSb.nmeta = 48 := rfl
  refine ⟨⟨fun x hx => absurd (ref_blank x) hx, fun x y hx _ => absurd (ref_blank x) hx, fun b hlo hhi => ?_⟩,
    fun b hb => (facts_blank.2 b (by omega)).2 (by omega)⟩
  rw [facts_blank.2 b hhi]
  constructor
  · intro h
    omega
  · rintro ⟨x, hx⟩
    rw [ref_blank] at hx
    omega

/-- An empty inode, in a transaction. -/
def blankSt : St where
  blk := blankDisk
  disk := blankDisk
  icache k := ⟨ROOTDEV, 2, if k = 0 then 1 else 0, none, true, dinode blankSb blankDisk 2⟩
  ftable _ := ⟨.none, 0, false, false, 0, 0, 0, 0⟩
  pipes _ := none
  proc _ := ⟨true, fun _ => none, none⟩
  myproc := 0
  outstanding := 1
  lh := []
  trace := []

end Xv6.Fs
