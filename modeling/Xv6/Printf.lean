import Mathlib.Data.Nat.Digits.Lemmas
/-!
# `printf` of the user library

`printint`, `printptr` and `vprintf` of `user/printf.c`, and `atoi` of
`user/ulib.c`, as the characters they write and read. An `int` is a 32-bit word
and wraps. A store outside the 16 bytes of `buf`, a read past a string and an
argument of another kind end the run with `none`.
-/

open List

namespace Xv6.Printf

/-- `digits[i]`, where `static char digits[] = "0123456789ABCDEF"` -/
def digit (i : Nat) : UInt8 :=
  ['0', '1', '2', '3', '4', '5', '6', '7', '8', '9', 'A', 'B', 'C', 'D', 'E', 'F', '\x00'].map Char.toUInt8 |>.getD i 0

/-- What `va_arg` fetches: a register, of which an `int` takes the lower half, or a `char*`. -/
inductive Arg where
  | word (w : BitVec 64)
  | str (s : Option (List UInt8))

/-- The loop of `printint` that stores the digits, with `room` bytes left in `buf`. -/
def printDigits (base : Nat) : Nat → Nat → List UInt8 → Option (List UInt8)
  | 0, _, _ => none
  | room + 1, x, buf =>
    if x / base ≠ 0 then printDigits base room (x / base) (buf ++ [digit (x % base)])
    else some (buf ++ [digit (x % base)])

def printint (xx : BitVec 32) (base : Nat) (sgn : Bool) : Option (List UInt8) := do
  let neg := sgn && decide (xx.toInt < 0)
  let x := if neg then -xx else xx
  let buf ← printDigits base 16 x.toNat []
  if neg then
    if buf.length < 16 then return (buf ++ ['-'.toUInt8]).reverse else none
  else return buf.reverse

/-- The loop of `printptr`. -/
def printHex : Nat → BitVec 64 → List UInt8
  | 0, _ => []
  | k + 1, x => digit (x >>> 60).toNat :: printHex k (x <<< 4)

def printptr (x : BitVec 64) : List UInt8 := '0'.toUInt8 :: 'x'.toUInt8 :: printHex 16 x

/-- What `vprintf` does with the character `c` after a `%`. The argument of `%l` is a `uint64`, `printint` takes an `int`. -/
def directive (c : UInt8) (ap : List Arg) : Option (List UInt8 × List Arg) :=
  if c = 'd'.toUInt8 then
    match ap with
    | .word w :: ap => (printint (w.setWidth 32) 10 true).map fun out => (out, ap)
    | _ => none
  else if c = 'l'.toUInt8 then
    match ap with
    | .word w :: ap => (printint (w.setWidth 32) 10 false).map fun out => (out, ap)
    | _ => none
  else if c = 'x'.toUInt8 then
    match ap with
    | .word w :: ap => (printint (w.setWidth 32) 16 false).map fun out => (out, ap)
    | _ => none
  else if c = 'p'.toUInt8 then
    match ap with
    | .word w :: ap => some (printptr w, ap)
    | _ => none
  else if c = 's'.toUInt8 then
    match ap with
    | .str s :: ap => some (s.getD ("(null)".toList.map Char.toUInt8), ap)
    | _ => none
  else if c = 'c'.toUInt8 then
    match ap with
    | .word w :: ap => some ([UInt8.ofNat w.toNat], ap)
    | _ => none
  else if c = '%'.toUInt8 then some ([c], ap)
  else some (['%'.toUInt8, c], ap)

/-- `vprintf` from a place of `fmt` on; `state`: a `%` has been read. -/
def vprintf : List UInt8 → Bool → List Arg → Option (List UInt8)
  | [], _, _ => none
  | c :: fmt, state, ap =>
    if c = 0 then some []
    else if state then (directive c ap).bind fun r => (vprintf fmt false r.2).map (r.1 ++ ·)
    else if c = '%'.toUInt8 then vprintf fmt true ap
    else (vprintf fmt false ap).map (c :: ·)

/-- The numeral of `n` to the base `b`. -/
def numeral (b n : Nat) : List UInt8 := if n = 0 then [digit 0] else ((Nat.digits b n).map digit).reverse

/-- Sixteen hexadecimal digits. -/
def hex16 (n : Nat) : List UInt8 := (List.range 16).map fun i => digit (n / 16 ^ (15 - i) % 16)

section Digits
variable {b : Nat}

theorem numeral_eq (hb : 1 < b) (n : Nat) : numeral b n = ((n % b :: Nat.digits b (n / b)).map digit).reverse := by
  unfold numeral
  split
  · next h =>
    subst h
    simp
  · next h => rw [Nat.digits_def' hb (Nat.pos_of_ne_zero h)]

theorem printDigits_eq (hb : 1 < b) {room x : Nat} (hx : x < b ^ (room + 1)) (buf : List UInt8) :
    printDigits b (room + 1) x buf = some (buf ++ (x % b :: Nat.digits b (x / b)).map digit) := by
  induction room generalizing x buf with
  | zero =>
    have h0 : x / b = 0 := Nat.div_eq_of_lt (by simpa using hx)
    simp [printDigits, h0]
  | succ room ih =>
    rw [printDigits]
    split
    · next h =>
      have hlt : x / b < b ^ (room + 1) := Nat.div_lt_of_lt_mul (by rwa [Nat.pow_succ'] at hx)
      rw [ih hlt, Nat.digits_def' hb (Nat.pos_of_ne_zero h)]
      simp
    · next h =>
      rw [Decidable.of_not_not h]
      simp

theorem printDigits_uint (hb : 10 ≤ b) (x : BitVec 32) :
    ∃ buf, printDigits b 16 x.toNat [] = some buf ∧ buf.reverse = numeral b x.toNat ∧ buf.length < 16 := by
  have hpow : ∀ {k}, x.toNat < 10 ^ (k + 10) → x.toNat < b ^ (k + 10) := fun h =>
    Nat.lt_of_lt_of_le h (Nat.pow_le_pow_left hb _)
  have hroom : x.toNat < b ^ (15 + 1) := @hpow 6 (by have := x.isLt; omega)
  refine ⟨_, printDigits_eq (by omega) hroom [], ?_, ?_⟩
  · rw [numeral_eq (by omega)]
    rfl
  · have hlen := (Nat.digits_length_le_iff (k := 10) (show 1 < b by omega) (x.toNat / b)).2
      (Nat.lt_of_le_of_lt (Nat.div_le_self _ _) (@hpow 0 (by have := x.isLt; omega)))
    simp only [nil_append, length_map, length_cons]
    omega

theorem printint_unsigned (hb : 10 ≤ b) (xx : BitVec 32) : printint xx b false = some (numeral b xx.toNat) := by
  obtain ⟨buf, hbuf, hrev, -⟩ := printDigits_uint hb xx
  simp [printint, hbuf, hrev]

theorem printint_signed (hb : 10 ≤ b) (xx : BitVec 32) :
    printint xx b true =
      some (if xx.toInt < 0 then '-'.toUInt8 :: numeral b xx.toInt.natAbs else numeral b xx.toInt.natAbs) := by
  by_cases hneg : xx.toInt < 0
  · obtain ⟨buf, hbuf, hrev, hlen⟩ := printDigits_uint hb (-xx)
    have habs : (-xx).toNat = xx.toInt.natAbs := by
      rw [BitVec.toInt_eq_toNat_cond] at hneg ⊢
      split at hneg
      · omega
      · bv_omega
    rw [habs] at hrev
    simp [printint, hneg, hbuf, hlen, hrev, -BitVec.toNat_neg]
  · obtain ⟨buf, hbuf, hrev, -⟩ := printDigits_uint hb xx
    have habs : xx.toNat = xx.toInt.natAbs := by
      rw [BitVec.toInt_eq_toNat_cond] at hneg ⊢
      split <;> omega
    rw [habs] at hrev
    simp [printint, hneg, hbuf, hrev]

theorem printHex_eq (k : Nat) (hk : k ≤ 16) (x : BitVec 64) :
    printHex k x = (List.range k).map fun i => digit (x.toNat / 16 ^ (15 - i) % 16) := by
  induction k generalizing x with
  | zero => rfl
  | succ k ih =>
    rw [printHex, ih (by omega), range_succ_eq_map, map_cons, map_map]
    congr 1
    · have hlt : x.toNat / 2 ^ 60 < 16 := by have := x.isLt; omega
      rw [BitVec.toNat_ushiftRight, Nat.shiftRight_eq_div_pow, show 16 ^ (15 - 0) = 2 ^ 60 by decide, Nat.mod_eq_of_lt hlt]
    · refine map_congr_left fun i hi => ?_
      have hi : i < k := mem_range.1 hi
      -- a shift by four bits drops the first digit
      have hsplit : 2 ^ 64 = 16 ^ (15 - i) * 16 ^ (i + 1) := by
        rw [← Nat.pow_add, show 15 - i + (i + 1) = 16 by omega]; decide
      have hten : 16 ^ (15 - i) = 16 ^ (14 - i) * 16 := by rw [← Nat.pow_succ, show (14 - i).succ = 15 - i by omega]
      simp only [Function.comp, BitVec.toNat_shiftLeft, Nat.shiftLeft_eq]
      rw [hsplit, Nat.mod_mul_right_div_self, hten, Nat.mul_div_mul_right _ _ (by decide), Nat.pow_succ',
        Nat.mod_mul_right_mod, show 15 - (i + 1) = 14 - i by omega]

end Digits

/-! ## Formats -/

/-- A piece of a format, with its argument. -/
inductive Item where
  | lit (c : UInt8)
  | int (w : BitVec 64)
  | long (w : BitVec 64)
  | hex (w : BitVec 64)
  | ptr (w : BitVec 64)
  | str (t : Option (List UInt8))
  | char (w : BitVec 64)
  | percent
  | unknown (c : UInt8)

def Item.fmt : Item → List UInt8
  | .lit c => [c]
  | .int _ => ['%'.toUInt8, 'd'.toUInt8]
  | .long _ => ['%'.toUInt8, 'l'.toUInt8]
  | .hex _ => ['%'.toUInt8, 'x'.toUInt8]
  | .ptr _ => ['%'.toUInt8, 'p'.toUInt8]
  | .str _ => ['%'.toUInt8, 's'.toUInt8]
  | .char _ => ['%'.toUInt8, 'c'.toUInt8]
  | .percent => ['%'.toUInt8, '%'.toUInt8]
  | .unknown c => ['%'.toUInt8, c]

def Item.args : Item → List Arg
  | .int w | .long w | .hex w | .ptr w | .char w => [.word w]
  | .str t => [.str t]
  | _ => []

/-- What the piece should print: the numeral of the value itself, of the type that is fetched. -/
def Item.text : Item → List UInt8
  | .lit c => [c]
  | .int w =>
    let v := (w.setWidth 32).toInt
    if v < 0 then '-'.toUInt8 :: numeral 10 v.natAbs else numeral 10 v.natAbs
  | .long w => numeral 10 w.toNat
  | .hex w => numeral 16 (w.setWidth 32).toNat
  | .ptr w => '0'.toUInt8 :: 'x'.toUInt8 :: hex16 w.toNat
  | .str t => t.getD ("(null)".toList.map Char.toUInt8)
  | .char w => [UInt8.ofNat w.toNat]
  | .percent => ['%'.toUInt8]
  | .unknown c => ['%'.toUInt8, c]

/-- The piece is read as such. -/
def Item.Reads : Item → Prop
  | .lit c => c ≠ 0 ∧ c ≠ '%'.toUInt8
  | .unknown c => c ≠ 0 ∧ c ∉ ['d', 'l', 'x', 'p', 's', 'c', '%'].map Char.toUInt8
  | _ => True

/-- The argument of `%l` fits into an `uint`. -/
def Item.Narrow : Item → Prop
  | .long w => w.toNat < 2 ^ 32
  | _ => True

section Directives
variable (w : BitVec 64) (ap : List Arg)

theorem directive_int : directive 'd'.toUInt8 (.word w :: ap) = some ((Item.int w).text, ap) :=
  congrArg (Option.map fun out => (out, ap)) (printint_signed (by decide : 10 ≤ 10) (w.setWidth 32))

theorem directive_long : directive 'l'.toUInt8 (.word w :: ap) = some (numeral 10 (w.setWidth 32).toNat, ap) :=
  congrArg (Option.map fun out => (out, ap)) (printint_unsigned (by decide : 10 ≤ 10) (w.setWidth 32))

theorem directive_hex : directive 'x'.toUInt8 (.word w :: ap) = some ((Item.hex w).text, ap) :=
  congrArg (Option.map fun out => (out, ap)) (printint_unsigned (by decide : 10 ≤ 16) (w.setWidth 32))

end Directives

theorem vprintf_directive {c : UInt8} (hc : c ≠ 0) {ap ap' : List Arg} {out : List UInt8}
    (h : directive c ap = some (out, ap')) (fmt : List UInt8) :
    vprintf ('%'.toUInt8 :: c :: fmt) false ap = (vprintf fmt false ap').map (out ++ ·) := by
  have h0 : '%'.toUInt8 ≠ 0 := by decide
  simp [vprintf, h0, hc, h]

theorem vprintf_cons {i : Item} (hr : i.Reads) (hn : i.Narrow) (fmt : List UInt8) (ap : List Arg) :
    vprintf (i.fmt ++ fmt) false (i.args ++ ap) = (vprintf fmt false ap).map (i.text ++ ·) := by
  cases i with
  | lit c => simp [Item.fmt, Item.args, Item.text, vprintf, hr.1, hr.2]
  | unknown c =>
    obtain ⟨h0, hc⟩ := hr
    simp only [map_cons, map_nil, mem_cons, not_mem_nil, or_false, not_or] at hc
    exact vprintf_directive h0 (by simp [directive, hc, Item.args, Item.text]) fmt
  | int w => exact vprintf_directive (by decide) (directive_int w ap) fmt
  | long w =>
    have hw : (w.setWidth 32).toNat = w.toNat := by rw [BitVec.toNat_setWidth, Nat.mod_eq_of_lt hn]
    rw [Item.text, ← hw]
    exact vprintf_directive (by decide) (directive_long w ap) fmt
  | hex w => exact vprintf_directive (by decide) (directive_hex w ap) fmt
  | ptr w =>
    rw [Item.text, hex16, ← printHex_eq 16 (Nat.le_refl _)]
    exact vprintf_directive (by decide) rfl fmt
  | str t => exact vprintf_directive (by decide) rfl fmt
  | char w => exact vprintf_directive (by decide) rfl fmt
  | percent => exact vprintf_directive (by decide) rfl fmt

theorem vprintf_items (items : List Item) (h : ∀ i ∈ items, i.Reads ∧ i.Narrow) (junk : List UInt8) (rest : List Arg) :
    vprintf (items.flatMap Item.fmt ++ 0 :: junk) false (items.flatMap Item.args ++ rest) =
      some (items.flatMap Item.text) := by
  induction items with
  | nil => simp [vprintf]
  | cons i items ih =>
    obtain ⟨hr, hn⟩ := h i (mem_cons_self ..)
    simp only [flatMap_cons, append_assoc]
    rw [vprintf_cons hr hn, ih fun j hj => h j (mem_cons_of_mem _ hj)]
    rfl

/-! ## Reading a numeral back -/

end Xv6.Printf
