import Mathlib.Data.List.Basic
/-!
# The user library

`strchr` and `memmove` of `user/ulib.c`. An object is the list of its bytes, a pointer
into it is an index or what is left of the list from there, and an access outside the
object ends the run with `none`.
-/

open List

namespace Xv6.Ulib

def store (a : List UInt8) (i : Nat) (c : UInt8) : Option (List UInt8) :=
  if i < a.length then some (a.set i c) else none

/-- The `n` bytes from `a + i`, as `write` reads them. -/
def load (a : List UInt8) (i n : Nat) : Option (List UInt8) :=
  if i + n ≤ a.length then some ((a.drop i).take n) else none

/-- `read` stores a piece of the input at `a + i`. -/
def fill (a : List UInt8) (i : Nat) (piece : List UInt8) : Option (List UInt8) :=
  if i + piece.length ≤ a.length then some (a.take i ++ piece ++ a.drop (i + piece.length)) else none

/-- How far behind `s` the first `c` is; a null pointer is `some none`. -/
def strchr (c : UInt8) : List UInt8 → Option (Option Nat)
  | [] => none
  | a :: s => if a = 0 then some none else if a = c then some (some 0) else (strchr c s).map (Option.map (· + 1))

/-- `while(n-- > 0) *dst++ = *src++` -/
def copyUp : Nat → List UInt8 → Nat → Nat → Option (List UInt8)
  | 0, a, _, _ => some a
  | n + 1, a, dst, src => do
    let a ← store a dst (← a[src]?)
    copyUp n a (dst + 1) (src + 1)

/-- `while(n-- > 0) *--dst = *--src`, from the ends `dst + n` and `src + n`. -/
def copyDown : Nat → List UInt8 → Nat → Nat → Option (List UInt8)
  | 0, a, _, _ => some a
  | n + 1, a, dst, src => do
    let a ← store a (dst + n) (← a[src + n]?)
    copyDown n a dst src

def memmove (a : List UInt8) (dst src n : Nat) : Option (List UInt8) :=
  if src > dst then copyUp n a dst src else copyDown n a dst src

section Spec
variable {a : List UInt8} {c : UInt8}

theorem store_eq {i : Nat} (h : i < a.length) : store a i c = some (a.set i c) := if_pos h

theorem load_eq {i n : Nat} (h : i + n ≤ a.length) : load a i n = some ((a.drop i).take n) := if_pos h

theorem fill_eq {i : Nat} {piece : List UInt8} (h : i + piece.length ≤ a.length) :
    fill a i piece = some (a.take i ++ piece ++ a.drop (i + piece.length)) := if_pos h

theorem strchr_none {s junk : List UInt8} (hs : 0 ∉ s) (hc : c ∉ s) : strchr c (s ++ 0 :: junk) = some none := by
  induction s with
  | nil => rfl
  | cons b s ih =>
    rw [mem_cons, not_or] at hs hc
    rw [cons_append, strchr, if_neg (Ne.symm hs.1), if_neg (Ne.symm hc.1), ih hs.2 hc.2]
    rfl

theorem strchr_some {s t : List UInt8} (hs : 0 ∉ s) (hc : c ∉ s) (hc0 : c ≠ 0) :
    strchr c (s ++ c :: t) = some (some s.length) := by
  induction s with
  | nil => simp [strchr, hc0]
  | cons b s ih =>
    rw [mem_cons, not_or] at hs hc
    rw [cons_append, strchr, if_neg (Ne.symm hs.1), if_neg (Ne.symm hc.1), ih hs.2 hc.2]
    rfl

/-- What a copy of `n` bytes leaves in the object. -/
def Copied (a a' : List UInt8) (dst src n : Nat) : Prop :=
  ∀ i, a'[i]? = if dst ≤ i ∧ i < dst + n then a[src + (i - dst)]? else a[i]?

theorem copyUp_spec {n dst src : Nat} (hlt : dst < src) (hsrc : src + n ≤ a.length) :
    ∃ a', copyUp n a dst src = some a' ∧ Copied a a' dst src n := by
  induction n generalizing a dst src with
  | zero => exact ⟨a, rfl, fun i => by rw [if_neg (by omega)]⟩
  | succ n ih =>
    have hget : a[src]? = some a[src] := getElem?_eq_getElem (by omega)
    obtain ⟨a', ha', hcopied⟩ := @ih (a.set dst a[src]) (dst + 1) (src + 1) (by omega)
      (by rw [length_set]; omega)
    refine ⟨a', ?_, fun i => ?_⟩
    · rw [copyUp, hget, Option.bind_eq_bind, Option.bind_some, store_eq (by omega)]
      exact ha'
    · -- the byte at `dst` is behind every byte still to be read
      rw [hcopied i, getElem?_set, getElem?_set]
      by_cases hi : dst = i
      · subst hi
        rw [if_neg (by omega), if_pos rfl, if_pos (by omega), if_pos (by omega), Nat.sub_self, Nat.add_zero, hget]
      · rw [if_neg hi]
        by_cases hin : dst + 1 ≤ i ∧ i < dst + 1 + n
        · rw [if_pos hin, if_neg (by omega), if_pos (by omega)]
          congr 1
          omega
        · rw [if_neg hin, if_neg (by omega)]

theorem copyDown_spec {n dst src : Nat} (hle : src ≤ dst) (hdst : dst + n ≤ a.length) :
    ∃ a', copyDown n a dst src = some a' ∧ Copied a a' dst src n := by
  induction n generalizing a with
  | zero => exact ⟨a, rfl, fun i => by rw [if_neg (by omega)]⟩
  | succ n ih =>
    have hget : a[src + n]? = some a[src + n] := getElem?_eq_getElem (by omega)
    obtain ⟨a', ha', hcopied⟩ := ih (a := a.set (dst + n) a[src + n]) (by rw [length_set]; omega)
    refine ⟨a', ?_, fun i => ?_⟩
    · rw [copyDown, hget, Option.bind_eq_bind, Option.bind_some, store_eq (by omega)]
      exact ha'
    · rw [hcopied i, getElem?_set, getElem?_set]
      by_cases hi : dst + n = i
      · subst hi
        rw [if_neg (by omega), if_pos rfl, if_pos (by omega), if_pos (by omega), Nat.add_sub_cancel_left, hget]
      · rw [if_neg hi]
        by_cases hin : dst ≤ i ∧ i < dst + n
        · rw [if_pos hin, if_neg (by omega), if_pos (by omega)]
        · rw [if_neg hin, if_neg (by omega)]

/-- `memmove` copies as if through a second buffer, whether or not the two parts overlap. -/
theorem memmove_spec {n dst src : Nat} (hdst : dst + n ≤ a.length) (hsrc : src + n ≤ a.length) :
    ∃ a', memmove a dst src n = some a' ∧ Copied a a' dst src n := by
  unfold memmove
  split
  · exact copyUp_spec ‹_› hsrc
  · exact copyDown_spec (by omega) hdst

theorem Copied.length_eq {a' : List UInt8} {dst src n : Nat} (h : Copied a a' dst src n) (hdst : dst + n ≤ a.length)
    (hsrc : src + n ≤ a.length) : a'.length = a.length := by
  have hnone : ∀ i : Nat, a'[i]? = none ↔ a[i]? = none := by
    intro i
    rw [h i]
    split
    · rw [getElem?_eq_none_iff, getElem?_eq_none_iff]
      omega
    · rfl
  have h1 := (hnone a.length).mpr (getElem?_eq_none_iff.mpr (Nat.le_refl _))
  have h2 := (hnone a'.length).mp (getElem?_eq_none_iff.mpr (Nat.le_refl _))
  rw [getElem?_eq_none_iff] at h1 h2
  omega

theorem Copied.front {a' : List UInt8} {src n : Nat} (h : Copied a a' 0 src n) :
    a'.take n = (a.drop src).take n := by
  refine ext_getElem? fun i => ?_
  rw [getElem?_take, getElem?_take]
  by_cases hi : i < n
  · rw [if_pos hi, if_pos hi, h i, if_pos (by omega), getElem?_drop, Nat.sub_zero]
  · rw [if_neg hi, if_neg hi]

end Spec

end Xv6.Ulib
