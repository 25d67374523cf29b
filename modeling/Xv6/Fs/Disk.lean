import Mathlib.Data.Nat.Bitwise
import Xv6.Lib.Bytes
import Xv6.Param
/-!
# The disk format

`kernel/fs.h`: the layout that the superblock describes, the bits of the free
map, the inodes of an inode block and the entries of a directory, each as the
bytes of a block.
-/

namespace Xv6.Fs

open Bytes

def ROOTINO : Nat := 1
def NDIRECT : Nat := 12
def NINDIRECT : Nat := BSIZE / 4
def MAXFILE : Nat := NDIRECT + NINDIRECT
def IPB : Nat := BSIZE / 64
def BPB : Nat := BSIZE * 8
def DIRSIZ : Nat := 14

def T_DIR : Int := 1
def T_FILE : Int := 2
def T_DEVICE : Int := 3

structure Superblock where
  size : Nat
  nblocks : Nat
  ninodes : Nat
  nlog : Nat
  logstart : Nat
  inodestart : Nat
  bmapstart : Nat

/-- `IBLOCK(i, sb)` -/
def Superblock.iblock (sb : Superblock) (i : Nat) : Nat := i / IPB + sb.inodestart

/-- `BBLOCK(b, sb)` -/
def Superblock.bblock (sb : Superblock) (b : Nat) : Nat := b / BPB + sb.bmapstart

/-! ## The free map -/

/-- `data[i/8] & (1 << (i % 8))` -/
def bit (a : Arr) (i : Nat) : Bool := (a (i / 8)).toNat.testBit (i % 8)

/-- `data[i/8] |= 1 << (i % 8)` -/
def setBit (a : Arr) (i : Nat) : Arr := fun j =>
  if j = i / 8 then UInt8.ofNat ((a j).toNat ||| 2 ^ (i % 8)) else a j

/-- `data[i/8] &= ~(1 << (i % 8))` -/
def clearBit (a : Arr) (i : Nat) : Arr := fun j =>
  if j = i / 8 then UInt8.ofNat ((a j).toNat &&& (255 - 2 ^ (i % 8))) else a j

theorem byte_toNat {n : Nat} (h : n < 256) : (UInt8.ofNat n).toNat = n := by
  rw [UInt8.toNat_ofNat']
  exact Nat.mod_eq_of_lt h

theorem bit_setBit (a : Arr) (i j : Nat) : bit (setBit a i) j = (bit a j || decide (j = i)) := by
  unfold bit setBit
  by_cases hw : j / 8 = i / 8
  · have hlt : (a (j / 8)).toNat ||| 2 ^ (i % 8) < 2 ^ 8 :=
      Nat.or_lt_two_pow (a (j / 8)).toNat_lt (Nat.pow_lt_pow_right (by decide) (by omega))
    rw [if_pos hw, byte_toNat hlt, Nat.testBit_or, Nat.testBit_two_pow]
    congr 1
    exact decide_eq_decide.2 ⟨fun h => by omega, fun h => by omega⟩
  · have hne : j ≠ i := fun h => hw (h ▸ rfl)
    rw [if_neg hw, decide_eq_false hne, Bool.or_false]

theorem bit_clearBit (a : Arr) (i j : Nat) : bit (clearBit a i) j = (bit a j && !decide (j = i)) := by
  unfold bit clearBit
  by_cases hw : j / 8 = i / 8
  · have hlt : (a (j / 8)).toNat &&& (255 - 2 ^ (i % 8)) < 2 ^ 8 := Nat.and_lt_two_pow _ (Nat.lt_of_le_of_lt (Nat.sub_le _ _) (by decide))
    have hmask : 255 - 2 ^ (i % 8) = 2 ^ 8 - (2 ^ (i % 8) + 1) := by omega
    have hpow : 2 ^ (i % 8) < 2 ^ 8 := Nat.pow_lt_pow_right (by decide) (by omega)
    rw [if_pos hw, byte_toNat hlt, Nat.testBit_and, hmask, Nat.testBit_two_pow_sub_succ hpow, Nat.testBit_two_pow,
      decide_eq_true (show j % 8 < 8 by omega), Bool.true_and]
    congr 2
    exact decide_eq_decide.2 ⟨fun h => by omega, fun h => by omega⟩
  · have hne : j ≠ i := fun h => hw (h ▸ rfl)
    rw [if_neg hw, decide_eq_false hne, Bool.not_false, Bool.and_true]

/-! ## Inodes -/

/-- A number stored in a `short`. -/
def toShort (v : Int) : Int := Int.bmod v 65536

/-- `struct dinode`; in memory, the copy of it that `struct inode` keeps. -/
structure Dinode where
  type : Int
  major : Int
  minor : Int
  nlink : Int
  size : Nat
  addrs : Nat → Nat

/-- The values that the fields of a `struct dinode` can hold. -/
structure Dinode.Ok (x : Dinode) : Prop where
  type : toShort x.type = x.type
  major : toShort x.major = x.major
  minor : toShort x.minor = x.minor
  nlink : toShort x.nlink = x.nlink
  size : x.size < 2 ^ 32
  addrs : ∀ j, x.addrs j < 2 ^ 32
  last : ∀ j, NDIRECT < j → x.addrs j = 0

def Dinode.half (x : Dinode) : Nat → Int
  | 0 => x.type
  | 1 => x.major
  | 2 => x.minor
  | _ => x.nlink

/-- The byte of `struct dinode` at an offset. -/
def Dinode.byte (x : Dinode) (k : Nat) : UInt8 :=
  if k < 8 then UInt8.ofNat ((x.half (k / 2) % 65536).toNat / 256 ^ (k % 2))
  else if k < 12 then UInt8.ofNat (x.size / 256 ^ (k % 4))
  else UInt8.ofNat (x.addrs (k / 4 - 3) / 256 ^ (k % 4))

/-- The `k`th inode of a block. -/
def getDinode (a : Arr) (k : Nat) : Dinode where
  type := toShort (le16 a (64 * k))
  major := toShort (le16 a (64 * k + 2))
  minor := toShort (le16 a (64 * k + 4))
  nlink := toShort (le16 a (64 * k + 6))
  size := le32 a (64 * k + 8)
  addrs j := if j ≤ NDIRECT then le32 a (64 * k + 12 + 4 * j) else 0

def putDinode (a : Arr) (k : Nat) (x : Dinode) : Arr := fun j => if j / 64 = k then x.byte (j % 64) else a j

variable {a : Arr} {k h : Nat} {x : Dinode}

theorem le16_put {o : Nat} (ho : o + 1 < 64) :
    le16 (putDinode a k x) (64 * k + o) = (x.byte o).toNat + 256 * (x.byte (o + 1)).toNat := by
  simp only [le16, putDinode]
  rw [if_pos (by omega), if_pos (by omega), show (64 * k + o) % 64 = o by omega,
    show (64 * k + o + 1) % 64 = o + 1 by omega]

theorem le16_half (hh : h < 4) :
    le16 (putDinode a k x) (64 * k + 2 * h) = (x.half h % 65536).toNat := by
  rw [le16_put (by omega)]
  unfold Dinode.byte
  rw [if_pos (by omega), if_pos (by omega), show 2 * h / 2 = h by omega, show (2 * h + 1) / 2 = h by omega,
    show 2 * h % 2 = 0 by omega, show (2 * h + 1) % 2 = 1 by omega, UInt8.toNat_ofNat', UInt8.toNat_ofNat']
  omega

theorem toShort_half {v : Int} (h : toShort v = v) : toShort ((v % 65536).toNat : Int) = v := by
  rw [Int.toNat_of_nonneg (Int.emod_nonneg v (by decide))]
  exact (Int.emod_bmod v 65536).trans h

theorem le32_word {o v : Nat} (ho : o + 3 < 64) (hv : v < 2 ^ 32)
    (hb : ∀ t < 4, x.byte (o + t) = UInt8.ofNat (v / 256 ^ t)) : le32 (putDinode a k x) (64 * k + o) = v := by
  rw [le32, le16_put (by omega), show 64 * k + o + 2 = 64 * k + (o + 2) by omega, le16_put (by omega),
    show x.byte o = UInt8.ofNat (v / 256 ^ 0) from hb 0 (by decide), hb 1 (by decide), hb 2 (by decide), hb 3 (by decide)]
  simp only [UInt8.toNat_ofNat']
  omega

theorem getDinode_put (hx : x.Ok) (a : Arr) (k : Nat) : getDinode (putDinode a k x) k = x := by
  have hsize : le32 (putDinode a k x) (64 * k + 8) = x.size := by
    refine le32_word (by decide) hx.size fun t ht => ?_
    unfold Dinode.byte
    rw [if_neg (by omega), if_pos (by omega), show (8 + t) % 4 = t by omega]
  have haddr : ∀ j, j ≤ NDIRECT → le32 (putDinode a k x) (64 * k + 12 + 4 * j) = x.addrs j := fun j hj => by
    have hj : j ≤ 12 := hj
    rw [Nat.add_assoc]
    refine le32_word (by omega) (hx.addrs j) fun t ht => ?_
    unfold Dinode.byte
    rw [if_neg (by omega), if_neg (by omega), show (12 + 4 * j + t) % 4 = t by omega,
      show (12 + 4 * j + t) / 4 - 3 = j by omega]
  have haddrs : (fun j => if j ≤ NDIRECT then le32 (putDinode a k x) (64 * k + 12 + 4 * j) else 0) = x.addrs := by
    funext j
    by_cases hj : j ≤ NDIRECT
    · rw [if_pos hj, haddr j hj]
    · rw [if_neg hj, hx.last j (Nat.lt_of_not_le hj)]
  have h0 : le16 (putDinode a k x) (64 * k) = (x.type % 65536).toNat := le16_half (h := 0) (by decide)
  have h1 : le16 (putDinode a k x) (64 * k + 2) = (x.major % 65536).toNat := le16_half (h := 1) (by decide)
  have h2 : le16 (putDinode a k x) (64 * k + 4) = (x.minor % 65536).toNat := le16_half (h := 2) (by decide)
  have h3 : le16 (putDinode a k x) (64 * k + 6) = (x.nlink % 65536).toNat := le16_half (h := 3) (by decide)
  unfold getDinode
  rw [h0, h1, h2, h3, hsize, haddrs, toShort_half hx.type, toShort_half hx.major, toShort_half hx.minor,
    toShort_half hx.nlink]

theorem getDinode_congr {a' : Arr} (h : ∀ i, 64 * k ≤ i → i < 64 * k + 64 → a i = a' i) :
    getDinode a k = getDinode a' k := by
  have h16 : ∀ o, o + 1 < 64 → le16 a (64 * k + o) = le16 a' (64 * k + o) := fun o ho =>
    le16_congr fun i h1 h2 => h i (by omega) (by omega)
  have h32 : ∀ o, o + 3 < 64 → le32 a (64 * k + o) = le32 a' (64 * k + o) := fun o ho =>
    le32_congr fun i h1 h2 => h i (by omega) (by omega)
  unfold getDinode
  rw [h32 8 (by decide), h16 2 (by decide), h16 4 (by decide), h16 6 (by decide),
    show le16 a (64 * k) = le16 a' (64 * k) from h16 0 (by decide)]
  congr 1
  funext j
  by_cases hj : j ≤ NDIRECT
  · have hj' : j ≤ 12 := hj
    rw [if_pos hj, if_pos hj, Nat.add_assoc, h32 _ (by omega)]
  · rw [if_neg hj, if_neg hj]

theorem getDinode_put_other {k' : Nat} (h : k' ≠ k) :
    getDinode (putDinode a k x) k' = getDinode a k' := by
  refine getDinode_congr fun i h1 h2 => ?_
  unfold putDinode
  exact if_neg (by omega)

theorem toShort_toShort (v : Int) : toShort (toShort v) = toShort v := Int.bmod_bmod

theorem getDinode_ok (a : Arr) (k : Nat) : (getDinode a k).Ok := by
  constructor <;> simp only [getDinode, toShort_toShort, le32_lt]
  · intro j
    split
    · exact le32_lt _ _
    · decide
  · intro j hj
    exact if_neg (Nat.not_le_of_lt hj)

theorem putDinode_idem (a : Arr) (k : Nat) (x y : Dinode) : putDinode (putDinode a k x) k y = putDinode a k y := by
  funext j
  unfold putDinode
  split
  · rfl
  · rfl

theorem byte_le16 (a : Arr) (i : Nat) {r : Nat} (h : r < 2) : UInt8.ofNat (le16 a i / 256 ^ r) = a (i + r) := by
  have h0 := (a i).toNat_lt
  have h1 := (a (i + 1)).toNat_lt
  apply UInt8.toNat_inj.1
  rw [UInt8.toNat_ofNat', le16]
  obtain rfl | rfl : r = 0 ∨ r = 1 := by omega
  · simp only [Nat.pow_zero, Nat.div_one, Nat.add_zero]
    omega
  · rw [Nat.pow_one]
    omega

theorem byte_le32 (a : Arr) (i : Nat) {r : Nat} (h : r < 4) : UInt8.ofNat (le32 a i / 256 ^ r) = a (i + r) := by
  have h0 := (a i).toNat_lt
  have h1 := (a (i + 1)).toNat_lt
  have h2 := (a (i + 2)).toNat_lt
  have h3 := (a (i + 3)).toNat_lt
  apply UInt8.toNat_inj.1
  rw [UInt8.toNat_ofNat', le32, le16, le16, show i + 2 + 1 = i + 3 from rfl]
  obtain rfl | rfl | rfl | rfl : r = 0 ∨ r = 1 ∨ r = 2 ∨ r = 3 := by omega
  · simp only [Nat.pow_zero, Nat.div_one, Nat.add_zero]
    omega
  all_goals omega

theorem toShort_le16 (a : Arr) (i : Nat) : (toShort (le16 a i) % 65536).toNat = le16 a i := by
  have hlt := le16_lt a i
  rw [toShort, Int.bmod_def]
  split <;> omega

theorem Dinode.half_cases (x : Dinode) (hh : h < 4) : h = 0 ∧ x.half h = x.type ∨ h = 1 ∧ x.half h = x.major ∨
    h = 2 ∧ x.half h = x.minor ∨ h = 3 ∧ x.half h = x.nlink := by
  obtain rfl | rfl | rfl | rfl : h = 0 ∨ h = 1 ∨ h = 2 ∨ h = 3 := by omega
  · exact .inl ⟨rfl, rfl⟩
  · exact .inr (.inl ⟨rfl, rfl⟩)
  · exact .inr (.inr (.inl ⟨rfl, rfl⟩))
  · exact .inr (.inr (.inr ⟨rfl, rfl⟩))

theorem half_getDinode (a : Arr) (k : Nat) (hh : h < 4) :
    (getDinode a k).half h = toShort (le16 a (64 * k + 2 * h)) := by
  obtain ⟨rfl, he⟩ | ⟨rfl, he⟩ | ⟨rfl, he⟩ | ⟨rfl, he⟩ := (getDinode a k).half_cases hh
  all_goals
    rw [he]
    unfold getDinode
    dsimp only
  all_goals rfl

theorem putDinode_get (a : Arr) (k : Nat) : putDinode a k (getDinode a k) = a := by
  funext j
  unfold putDinode
  by_cases hj : j / 64 = k
  · rw [if_pos hj]
    unfold Dinode.byte
    by_cases h8 : j % 64 < 8
    · rw [if_pos h8, half_getDinode a k (by omega), toShort_le16, byte_le16 _ _ (Nat.mod_lt _ (by decide))]
      congr 1
      omega
    · rw [if_neg h8]
      by_cases h12 : j % 64 < 12
      · rw [if_pos h12, getDinode, byte_le32 _ _ (Nat.mod_lt _ (by decide))]
        congr 1
        omega
      · have hle : j % 64 / 4 - 3 ≤ NDIRECT := by
          have : NDIRECT = 12 := rfl
          omega
        rw [if_neg h12, getDinode]
        dsimp only
        rw [if_pos hle, byte_le32 _ _ (Nat.mod_lt _ (by decide))]
        congr 1
        omega
  · rw [if_neg hj]

/-! ## Directory entries -/

structure Dirent where
  inum : Nat
  name : List UInt8

def Dirent.ofBytes (l : List UInt8) : Dirent where
  inum := (l.getD 0 0).toNat + 256 * (l.getD 1 0).toNat
  name := l.drop 2

def Dirent.bytes (de : Dirent) : List UInt8 := UInt8.ofNat de.inum :: UInt8.ofNat (de.inum / 256) :: de.name

end Xv6.Fs
