import Mathlib.Data.Nat.Basic
import Mathlib.Logic.Function.Basic
import Mathlib.Tactic.Ring
/-!
# Little-endian words in a byte array

An array is a function from offsets to bytes. `le16`, `le32` and `le64` read a
word, `put16`, `put32` and `put64` store one. A read at a stored offset gives the value back,
reduced to the width of the word; a read that does not overlap the store is
unchanged.
-/

namespace Xv6.Bytes

/-- An array of bytes, by offset. -/
abbrev Arr := Nat → UInt8

def le16 (m : Arr) (a : Nat) : Nat := (m a).toNat + 256 * (m (a + 1)).toNat

def le32 (m : Arr) (a : Nat) : Nat := le16 m a + 65536 * le16 m (a + 2)

def put16 (m : Arr) (a v : Nat) : Arr :=
  fun i => if i = a then UInt8.ofNat v else if i = a + 1 then UInt8.ofNat (v / 256) else m i

def put32 (m : Arr) (a v : Nat) : Arr := put16 (put16 m a v) (a + 2) (v / 65536)

theorem le16_lt (m : Arr) (a : Nat) : le16 m a < 65536 := by
  have h1 := (m a).toNat_lt
  have h2 := (m (a + 1)).toNat_lt
  simp only [le16]
  omega

theorem le32_lt (m : Arr) (a : Nat) : le32 m a < 2 ^ 32 := by
  have h1 := le16_lt m a
  have h2 := le16_lt m (a + 2)
  simp only [le32]
  omega

variable {m m' : Arr} {a v i b n dst : Nat}

theorem put16_other (h1 : i ≠ a) (h2 : i ≠ a + 1) : put16 m a v i = m i := by
  simp [put16, h1, h2]

theorem put32_other (h : i < a ∨ a + 4 ≤ i) : put32 m a v i = m i := by
  rw [put32, put16_other (by omega) (by omega), put16_other (by omega) (by omega)]

theorem le16_put16 (m : Arr) (a v : Nat) : le16 (put16 m a v) a = v % 65536 := by
  simp only [le16, put16, if_true, show a + 1 ≠ a by omega, if_false, UInt8.toNat_ofNat']
  omega

theorem le16_congr (h : ∀ i, a ≤ i → i < a + 2 → m i = m' i) : le16 m a = le16 m' a := by
  simp only [le16]
  rw [h a (by omega) (by omega), h (a + 1) (by omega) (by omega)]

theorem le32_congr (h : ∀ i, a ≤ i → i < a + 4 → m i = m' i) : le32 m a = le32 m' a := by
  simp only [le32]
  rw [le16_congr (fun i h1 h2 => h i (by omega) (by omega)), le16_congr (fun i h1 h2 => h i (by omega) (by omega))]

theorem le32_put32 (m : Arr) (a v : Nat) : le32 (put32 m a v) a = v % 2 ^ 32 := by
  have h1 : le16 (put32 m a v) a = v % 65536 := by
    rw [← le16_put16 m a v]
    apply le16_congr
    intro i h1 h2
    exact put16_other (by omega) (by omega)
  have h2 : le16 (put32 m a v) (a + 2) = v / 65536 % 65536 := le16_put16 _ _ _
  simp only [le32, h1, h2]
  omega

theorem le32_put32_other (h : b + 4 ≤ a ∨ a + 4 ≤ b) : le32 (put32 m a v) b = le32 m b := by
  apply le32_congr
  intro i h1 h2
  exact put32_other (by omega)

/-! ## 64-bit words -/

def le64 (m : Arr) (a : Nat) : Nat := le32 m a + 2 ^ 32 * le32 m (a + 4)

def put64 (m : Arr) (a v : Nat) : Arr := put32 (put32 m a v) (a + 4) (v / 2 ^ 32)

theorem put64_other (h : i < a ∨ a + 8 ≤ i) : put64 m a v i = m i := by
  rw [put64, put32_other (by omega), put32_other (by omega)]

theorem le64_congr (h : ∀ i, a ≤ i → i < a + 8 → m i = m' i) : le64 m a = le64 m' a := by
  simp only [le64]
  rw [le32_congr (fun i h1 h2 => h i (by omega) (by omega)), le32_congr (fun i h1 h2 => h i (by omega) (by omega))]

theorem le64_put64 (m : Arr) (a v : Nat) : le64 (put64 m a v) a = v % 2 ^ 64 := by
  have h1 : le32 (put64 m a v) a = v % 2 ^ 32 := by
    rw [put64, le32_put32_other (by omega), le32_put32]
  have h2 : le32 (put64 m a v) (a + 4) = v / 2 ^ 32 % 2 ^ 32 := le32_put32 _ _ _
  simp only [le64, h1, h2]
  omega

theorem le64_put64_other (h : b + 8 ≤ a ∨ a + 8 ≤ b) : le64 (put64 m a v) b = le64 m b := by
  apply le64_congr
  intro i h1 h2
  exact put64_other (by omega)

/-- `memset(a, c, n)` -/
def fill (m : Arr) (a n : Nat) (c : UInt8) : Arr := fun i => if a ≤ i ∧ i < a + n then c else m i

theorem fill_other {c : UInt8} (h : i < a ∨ a + n ≤ i) : fill m a n c i = m i := by
  simp only [fill]
  rw [if_neg (by omega)]

theorem le64_fill_zero (h1 : a ≤ b) (h2 : b + 8 ≤ a + n) : le64 (fill m a n 0) b = 0 := by
  have h : ∀ i, b ≤ i → i < b + 8 → fill m a n 0 i = 0 := fun i h3 h4 => by
    simp only [fill]
    rw [if_pos (by omega)]
  have hz : le64 (fill m a n 0) b = le64 (fun _ => 0) b := le64_congr h
  rw [hz]
  rfl

/-- `memmove(dst, src, n)` -/
def move (m : Arr) (dst src n : Nat) : Arr := fun i => if dst ≤ i ∧ i < dst + n then m (src + (i - dst)) else m i

theorem move_other {src : Nat} (h : i < dst ∨ dst + n ≤ i) : move m dst src n i = m i := by
  simp only [move]
  rw [if_neg (by omega)]

theorem move_self {src : Nat} (h : i < n) : move m dst src n (dst + i) = m (src + i) := by
  simp only [move]
  rw [if_pos (by omega), Nat.add_sub_cancel_left]

/-- `src` written at `dst` -/
def blit (m : Arr) (dst : Nat) (src : List UInt8) : Arr := fun i =>
  if dst ≤ i ∧ i < dst + src.length then src.getD (i - dst) 0 else m i

theorem blit_other {src : List UInt8} (h : i < dst ∨ dst + src.length ≤ i) :
    blit m dst src i = m i := by
  unfold blit
  exact if_neg (by omega)

/-- The `n` bytes at `a` -/
def grab (m : Arr) (a n : Nat) : List UInt8 := (List.range n).map fun i => m (a + i)

/-! ## Strings of bytes -/

/-- `new` written over `old` at `off`, and beyond its end -/
def patch (old : List UInt8) (off : Nat) (new : List UInt8) : List UInt8 := old.take off ++ new ++ old.drop (off + new.length)

theorem getElem?_patch {old new : List UInt8} {off : Nat} (h : off ≤ old.length) (j : Nat) :
    (patch old off new)[j]? = if off ≤ j ∧ j < off + new.length then new[j - off]? else old[j]? := by
  have hlen : (old.take off).length = off := by rw [List.length_take, Nat.min_eq_left h]
  unfold patch
  by_cases h1 : j < off
  · rw [if_neg (by omega), List.append_assoc, List.getElem?_append_left (by omega), List.getElem?_take_of_lt h1]
  · by_cases h2 : j < off + new.length
    · rw [if_pos ⟨by omega, h2⟩, List.append_assoc, List.getElem?_append_right (by omega), hlen,
        List.getElem?_append_left (by omega)]
    · rw [if_neg (by omega), List.getElem?_append_right (by rw [List.length_append, hlen]; omega), List.length_append, hlen,
        List.getElem?_drop, Nat.add_sub_cancel' (by omega)]

end Xv6.Bytes
