import Mathlib.Algebra.Group.Nat.Defs
import Mathlib.Logic.Function.Basic
/-!
# The two `memmove`s

`memmove` of `kernel/string.c` and of `user/ulib.c`, byte by byte on a memory of
64-bit addresses; pointers are compared as unsigned numbers and wrap. Both copy
upwards or downwards in place. The kernel goes down only where going up would
overwrite bytes it has still to read, the library whenever the source is not
above the destination.
-/

open Function

namespace Xv6.Memmove

abbrev Addr := BitVec 64

abbrev Mem := Addr → UInt8

/-- `while(n-- > 0) *d++ = *s++` -/
def copyUp (m : Mem) (d s : Addr) : Nat → Mem
  | 0 => m
  | n + 1 => copyUp (Function.update m d (m s)) (d + 1) (s + 1) n

/-- `while(n-- > 0) *--d = *--s` -/
def copyDown (m : Mem) (d s : Addr) : Nat → Mem
  | 0 => m
  | n + 1 => copyDown (Function.update m (d - 1) (m (s - 1))) (d - 1) (s - 1) n

/-- `memmove` of the kernel, where `n` is a `uint`. -/
def kernelMemmove (m : Mem) (dst src : Addr) (n : BitVec 32) : Mem :=
  let k : Addr := n.zeroExtend 64
  if src < dst ∧ src + k > dst then copyDown m (dst + k) (src + k) n.toNat else copyUp m dst src n.toNat

/-- `memmove` of the user library, where `n` is an `int`. -/
def userMemmove (m : Mem) (dst src : Addr) (n : BitVec 32) : Mem :=
  let k : Addr := n.signExtend 64
  if src > dst then copyUp m dst src n.toInt.toNat else copyDown m (dst + k) (src + k) n.toInt.toNat

/-- The memory after a copy of `n` bytes through a second buffer. -/
def moved (m : Mem) (dst src : Addr) (n : Nat) : Mem :=
  fun a => if (a - dst).toNat < n then m (src + (a - dst)) else m a

section Loops
variable {n : Nat}

theorem copyUp_eq (m : Mem) (d s : Addr) (hn : n < 2 ^ 64) (h : d = s ∨ n ≤ (d - s).toNat) :
    copyUp m d s n = moved m d s n := by
  induction n generalizing m d s with
  | zero => exact funext fun a => (if_neg (Nat.not_lt_zero _)).symm
  | succ n ih =>
    rw [copyUp, ih _ _ _ (by omega) (by bv_omega)]
    funext a
    unfold moved
    by_cases ha : a = d
    · -- the byte just written is not written again
      subst ha
      rw [if_neg (by bv_omega), if_pos (by bv_omega), update_self]
      congr 1
      bv_omega
    · rw [update_of_ne ha]
      by_cases hin : (a - (d + 1)).toNat < n
      · rw [if_pos hin, if_pos (by bv_omega), update_of_ne (by bv_omega)]
        congr 1
        bv_omega
      · rw [if_neg hin, if_neg (by bv_omega)]

theorem copyDown_eq (m : Mem) (d s : Addr) (hn : n < 2 ^ 64) (h : d = s ∨ n ≤ (s - d).toNat) :
    copyDown m (d + BitVec.ofNat 64 n) (s + BitVec.ofNat 64 n) n = moved m d s n := by
  induction n generalizing m with
  | zero => exact funext fun a => (if_neg (Nat.not_lt_zero _)).symm
  | succ n ih =>
    have hlast : ∀ x : Addr, x + BitVec.ofNat 64 (n + 1) - 1 = x + BitVec.ofNat 64 n := fun x => by bv_omega
    rw [copyDown, hlast, hlast, ih _ (by omega) (h.imp_right Nat.le_of_succ_le)]
    funext a
    unfold moved
    by_cases ha : a = d + BitVec.ofNat 64 n
    · rw [if_neg (by bv_omega), if_pos (by bv_omega), ha, update_self]
      congr 1
      bv_omega
    · rw [update_of_ne ha]
      by_cases hin : (a - d).toNat < n
      · rw [if_pos hin, if_pos (by omega), update_of_ne (by bv_omega)]
      · rw [if_neg hin, if_neg (by bv_omega)]

end Loops

section Calls
variable (m : Mem) {dst src : Addr} {n : BitVec 32}

theorem kernelMemmove_eq (hs : src.toNat + n.toNat ≤ 2 ^ 64) (hd : dst.toNat + n.toNat ≤ 2 ^ 64) :
    kernelMemmove m dst src n = moved m dst src n.toNat := by
  have hk : n.zeroExtend 64 = BitVec.ofNat 64 n.toNat := by bv_omega
  unfold kernelMemmove
  dsimp only
  rw [hk]
  split
  · exact copyDown_eq m dst src (by omega) (.inr (by bv_omega))
  · exact copyUp_eq m dst src (by omega) (by bv_omega)

theorem userMemmove_eq (hn : n.toNat < 2 ^ 31) (hs : src.toNat + n.toNat ≤ 2 ^ 64)
    (hd : dst.toNat + n.toNat ≤ 2 ^ 64) : userMemmove m dst src n = moved m dst src n.toNat := by
  have hint : n.toInt = n.toNat := BitVec.toInt_eq_toNat_of_lt (by omega)
  have hk : n.signExtend 64 = BitVec.ofNat 64 n.toNat := by
    rw [BitVec.signExtend, hint, BitVec.ofInt_natCast]
  unfold userMemmove
  dsimp only
  rw [hk, hint, Int.toNat_natCast]
  split
  · exact copyUp_eq m dst src (by omega) (.inr (by bv_omega))
  · exact copyDown_eq m dst src (by omega) (by bv_omega)

/-- What `memmove` is for: the destination has the bytes of the source as they were, and nothing else changes. -/
structure Moves (m m' : Mem) (dst src : Addr) (n : Nat) : Prop where
  copied : ∀ i < n, m' (dst + BitVec.ofNat 64 i) = m (src + BitVec.ofNat 64 i)
  frame : ∀ a : Addr, a.toNat < dst.toNat ∨ dst.toNat + n ≤ a.toNat → m' a = m a

theorem moves_moved {k : Nat} (hd : dst.toNat + k ≤ 2 ^ 64) : Moves m (moved m dst src k) dst src k where
  copied i hi := by
    have hoff : dst + BitVec.ofNat 64 i - dst = BitVec.ofNat 64 i := by bv_omega
    rw [moved, hoff, if_pos (by bv_omega)]
  frame a ha := if_neg (by bv_omega)

end Calls

/-- **Both `memmove`s are right, however the ranges overlap, and give the same memory.** -/
theorem memmoves_agree (m : Mem) (dst src : Addr) (n : BitVec 32) (hn : n.toNat < 2 ^ 31)
    (hs : src.toNat + n.toNat ≤ 2 ^ 64) (hd : dst.toNat + n.toNat ≤ 2 ^ 64) :
    Moves m (kernelMemmove m dst src n) dst src n.toNat ∧ Moves m (userMemmove m dst src n) dst src n.toNat ∧
      kernelMemmove m dst src n = userMemmove m dst src n := by
  rw [kernelMemmove_eq m hs hd, userMemmove_eq m hn hs hd]
  exact ⟨moves_moved m hd, moves_moved m hd, rfl⟩

/-- Three bytes move up by one, over the end of the source and up to the last address. -/
theorem memmoves_agree_top : ∃ dst src : Addr, ∃ m m' : Mem,
    m' = kernelMemmove m dst src 3 ∧ Moves m m' dst src 3 ∧ m' = userMemmove m dst src 3 ∧ m' dst = 2 ∧
      dst.toNat + 3 = 2 ^ 64 ∧ src + 1 = dst := by
  refine ⟨BitVec.ofNat 64 (2 ^ 64 - 3), BitVec.ofNat 64 (2 ^ 64 - 4), fun a => if a.toNat = 2 ^ 64 - 4 then 2 else 5, _, rfl, ?_⟩
  have h := memmoves_agree (fun a => if a.toNat = 2 ^ 64 - 4 then 2 else 5) (BitVec.ofNat 64 (2 ^ 64 - 3))
    (BitVec.ofNat 64 (2 ^ 64 - 4)) 3 (by decide) (by decide) (by decide)
  refine ⟨h.1, h.2.2, ?_, by decide, by decide⟩
  exact (h.1.copied 0 (by decide)).trans (by decide)

end Xv6.Memmove
