import Xv6.Grep.Match
import Xv6.Lib.Split
import Xv6.Ulib
/-!
# grep's buffer

`grep` of `user/grep.c` reads its input piece by piece into a buffer of 1024 bytes,
prints the lines that match and moves what is left of the last line to the front. How
the input is cut into pieces is a `Reader`. The output is that of `grepped`, which
knows nothing of the buffer.
-/

namespace Xv6.Grep

open Ulib Split List

def BUFSZ : Nat := 1024

def newline : UInt8 := '\n'.toUInt8

/-- What `read` returns with `inp` left to read and room for `k` bytes. A read that takes
something leaves less to read, so a way to cut the input is a function of these two. -/
structure Reader where
  count : List UInt8 → Nat → Nat
  le_room : ∀ inp k, count inp k ≤ k
  le_length : ∀ inp k, count inp k ≤ inp.length
  pos : ∀ inp k, 0 < k → inp ≠ [] → 0 < count inp k

/-- At most `c` bytes at a time, as from a pipe that is filled that way. -/
def Reader.pieces (c : Nat) (hc : 0 < c) : Reader where
  count inp k := min c (min k inp.length)
  le_room inp k := by omega
  le_length inp k := by omega
  pos inp k hk hinp := by
    have := List.length_pos_of_ne_nil hinp
    omega

section Code
variable (re : List UInt8)

/-- `while((q = strchr(p, '\n')) != 0)`, with at most `n` rounds: the buffer, `p` and the
output after it. -/
def lines : Nat → List UInt8 → Nat → List UInt8 → Option (List UInt8 × Nat × List UInt8)
  | 0, _, _, _ => none
  | n + 1, buf, p, out => do
    match ← strchr newline (buf.drop p) with
    | none => return (buf, p, out)
    | some k =>
      let q := p + k
      let buf ← store buf q 0
      if ← matchRe re (buf.drop p) then
        let buf ← store buf q newline
        lines n buf (q + 1) (out ++ (← load buf p (q + 1 - p)))
      else
        lines n buf (q + 1) out

/-- `while((n = read(fd, buf+m, sizeof(buf)-m-1)) > 0)`, with at most `n` rounds. The room
is an unsigned number and `m` stays an `int` that is not negative. -/
def grepLoop (rd : Reader) : Nat → List UInt8 → Nat → List UInt8 → List UInt8 → Option (List UInt8)
  | 0, _, _, _, _ => none
  | n + 1, buf, m, inp, out => do
    if BUFSZ < m + 1 then none
    let k := rd.count inp (BUFSZ - m - 1)
    if k = 0 then return out
    let buf ← fill buf m (inp.take k)
    let m := m + k
    let buf ← store buf m 0
    let (buf, p, out) ← lines re BUFSZ buf 0 out
    if m > 0 then
      if m < p then none
      let m := m - p
      let buf ← memmove buf 0 p m
      grepLoop rd n buf m (inp.drop k) out
    else
      grepLoop rd n buf m (inp.drop k) out

/-- What `grep` writes, with `buf` as the last call has left it. Every round reads at
least a byte. -/
def grep (rd : Reader) (buf inp : List UInt8) : Option (List UInt8) :=
  grepLoop re rd (inp.length + 1) buf 0 inp []

/-- The lines of an input that end in a newline, without it. -/
def linesOf (inp : List UInt8) : List (List UInt8) := terminated (· = newline) inp

/-- The lines that match, up to the first one with more than 1022 characters. -/
def grepped (inp : List UInt8) : List UInt8 :=
  (((linesOf inp).takeWhile (·.length ≤ 1022)).filter (fun l => matchRe re (l ++ [0]) = some true)).flatMap
    (· ++ [newline])

end Code

/-! ## Lines -/

section Lines
variable {l : List UInt8}

theorem ne_newline (hl : newline ∉ l) : ∀ c ∈ l, decide (c = newline) = false := by
  intro c hc
  exact decide_eq_false fun h => hl (h ▸ hc)

theorem linesOf_line (hl : newline ∉ l) (t : List UInt8) : linesOf (l ++ newline :: t) = l :: linesOf t :=
  terminated_piece_cons (ne_newline hl) (decide_eq_true rfl) t

variable {re : List UInt8}

theorem grepped_rest (hl : newline ∉ l) : grepped re l = [] := by
  rw [grepped, linesOf, terminated_piece (ne_newline hl)]
  rfl

theorem grepped_long (hl : newline ∉ l) (hlen : 1022 < l.length) (t : List UInt8) : grepped re (l ++ t) = [] := by
  by_cases ht : newline ∈ t
  · obtain ⟨a, b, rfl, ha⟩ := eq_append_cons_of_mem ht
    have hla : newline ∉ l ++ a := by
      rw [mem_append]
      exact fun h => h.elim hl ha
    rw [← append_assoc, grepped, linesOf_line hla, takeWhile_cons_of_neg]
    · rfl
    · simp only [decide_eq_true_eq, length_append]
      omega
  · refine grepped_rest ?_
    rw [mem_append]
    exact fun h => h.elim hl ht

theorem grepped_line (hl : newline ∉ l) (hlen : l.length ≤ 1022) (t : List UInt8) :
    grepped re (l ++ newline :: t) =
      (if matchRe re (l ++ [0]) = some true then l ++ [newline] else []) ++ grepped re t := by
  rw [grepped, linesOf_line hl, takeWhile_cons_of_pos (by simpa using hlen), filter_cons]
  simp only [decide_eq_true_eq]
  split <;> rfl

end Lines

/-! ## The inner loop -/

section Loop
variable {p u : List UInt8}

theorem matchRe_text (hp : 0 ∉ p) {l : List UInt8} (hl : 0 ∉ l) (v : List UInt8) :
    ∃ b, matchRe (p ++ 0 :: u) (l ++ 0 :: v) = some b ∧ matchRe (p ++ 0 :: u) (l ++ [0]) = some b := by
  obtain ⟨b, hb, hiff⟩ := matchRe_spec (u := u) (v := v) p hp l hl
  obtain ⟨b', hb', hiff'⟩ := matchRe_spec (u := u) (v := []) p hp l hl
  have hbb : b = b' := Bool.eq_iff_iff.mpr (hiff.trans hiff'.symm)
  exact ⟨b, hb, hbb ▸ hb'⟩

section Text
variable {buf l t : List UInt8} {i : Nat} {c : UInt8}

theorem lt_length_of_text (h : buf.drop i = l ++ c :: t) : i + l.length < buf.length := by
  have hlen := congrArg List.length h
  rw [length_drop, length_append, length_cons] at hlen
  omega

theorem drop_set_text (h : buf.drop i = l ++ c :: t) (c' : UInt8) :
    (buf.set (i + l.length) c').drop i = l ++ c' :: t := by
  rw [drop_set, if_neg (by omega), h, Nat.add_sub_cancel_left, set_append_right _ _ (Nat.le_refl _),
    Nat.sub_self]
  rfl

theorem drop_past_text (h : buf.drop i = l ++ c :: t) : buf.drop (i + l.length + 1) = t := by
  rw [Nat.add_assoc, ← drop_drop, h, ← drop_drop, drop_left]
  rfl

end Text

/-- After the inner loop `rest` is behind `i'`, and printing goes on from there as it would
have from `s` behind `i`. -/
structure Scanned (re buf : List UInt8) (i : Nat) (s junk out buf' : List UInt8) (i' : Nat) (rest out' : List UInt8) :
    Prop where
  clean : newline ∉ rest
  nul : 0 ∉ rest
  text : buf'.drop i' = rest ++ 0 :: junk
  bound : i' + rest.length = i + s.length
  length : buf'.length = buf.length
  out : ∀ t, out' ++ grepped re (rest ++ t) = out ++ grepped re (s ++ t)

theorem lines_spec (hp : 0 ∉ p) {n i : Nat} {buf s junk : List UInt8} (out : List UInt8)
    (htext : buf.drop i = s ++ 0 :: junk)
    (hs : 0 ∉ s) (hlen : s.length ≤ 1023) (hn : s.length < n) :
    ∃ buf' i' rest out', lines (p ++ 0 :: u) n buf i out = some (buf', i', out') ∧
      Scanned (p ++ 0 :: u) buf i s junk out buf' i' rest out' := by
  induction n generalizing i buf s out with
  | zero => omega
  | succ n ih =>
    rw [lines, htext]
    by_cases hnl : newline ∈ s
    · obtain ⟨l, t, rfl, hl⟩ := eq_append_cons_of_mem hnl
      rw [append_assoc, cons_append] at htext ⊢
      rw [length_append, length_cons] at hlen hn
      rw [mem_append, mem_cons, not_or, not_or] at hs
      have hq := lt_length_of_text htext
      have hnul := drop_set_text htext 0
      obtain ⟨b, hb, hb'⟩ := matchRe_text (u := u) hp hs.1 (t ++ 0 :: junk)
      -- both branches go on behind the newline, with or without the line in the output
      have hnext : ∀ buf', buf'.length = buf.length → buf'.drop (i + l.length + 1) = t ++ 0 :: junk →
          ∃ buf'' i' rest out', lines (p ++ 0 :: u) n buf' (i + l.length + 1)
              (out ++ if b then l ++ [newline] else []) = some (buf'', i', out') ∧
            Scanned (p ++ 0 :: u) buf i (l ++ newline :: t) junk out buf'' i' rest out' := by
        intro buf' hlen' hdrop
        obtain ⟨buf'', i', rest, out', hrun, hscan⟩ := ih _ hdrop hs.2.2 (by omega) (by omega)
        refine ⟨buf'', i', rest, out', hrun, hscan.clean, hscan.nul, hscan.text, ?_, hscan.length.trans hlen',
          fun t' => ?_⟩
        · rw [hscan.bound, length_append, length_cons]
          omega
        · rw [hscan.out, append_assoc l, cons_append, grepped_line hl (by omega), hb', append_assoc]
          simp
      simp only [strchr_some hs.1 hl (by decide), Option.bind_eq_bind, Option.bind_some, store_eq hq, hnul, hb]
      cases b with
      | true =>
        have hset : (buf.set (i + l.length) 0).set (i + l.length) newline = buf.set (i + l.length) newline :=
          set_set ..
        have hwhole : l ++ newline :: (t ++ 0 :: junk) = (l ++ [newline]) ++ (t ++ 0 :: junk) := by simp
        have hload : load (buf.set (i + l.length) newline) i (i + l.length + 1 - i) = some (l ++ [newline]) := by
          rw [load_eq (by rw [length_set]; omega), drop_set_text htext, hwhole]
          refine congrArg some (take_left' ?_)
          rw [length_append, length_singleton]
          omega
        have hmore := hnext (buf.set (i + l.length) newline) (length_set ..) (drop_past_text (drop_set_text htext _))
        simpa [store_eq (show i + l.length < (buf.set (i + l.length) 0).length by rwa [length_set]), hset, hload]
          using hmore
      | false =>
        have hmore := hnext (buf.set (i + l.length) 0) (length_set ..) (drop_past_text hnul)
        simpa using hmore
    · rw [strchr_none hs hnl]
      exact ⟨buf, i, s, out, rfl, hnl, hs, htext, rfl, rfl, fun t => rfl⟩

theorem fill_text {m : Nat} {buf pend : List UInt8} (piece : List UInt8) (hpend : buf.take m = pend)
    (hm : pend.length = m)
    (hroom : m + piece.length < buf.length) :
    ∃ buf₁ buf₂ junk, fill buf m piece = some buf₁ ∧ store buf₁ (m + piece.length) 0 = some buf₂ ∧
      buf₂.length = buf.length ∧ buf₂.drop 0 = (pend ++ piece) ++ 0 :: junk := by
  have hdrop := drop_eq_getElem_cons hroom
  have hlen : (pend ++ piece).length = m + piece.length := by rw [length_append, hm]
  have hlen₁ : (pend ++ piece ++ buf.drop (m + piece.length)).length = buf.length := by
    rw [length_append, hlen, length_drop]
    omega
  have htext : (pend ++ piece ++ buf.drop (m + piece.length)).drop 0 =
      (pend ++ piece) ++ buf[m + piece.length] :: buf.drop (m + piece.length + 1) := by
    rw [drop_zero, hdrop]
  have hset := drop_set_text htext 0
  rw [Nat.zero_add, hlen] at hset
  refine ⟨_, _, _, fill_eq (by omega), ?_, ?_, hset⟩
  · rw [hpend]
    exact store_eq (by omega)
  · rw [length_set, hlen₁]

/-- One round of the outer loop has `pend`, the start of a line, in front of the buffer. -/
theorem grepLoop_spec (hp : 0 ∉ p) (rd : Reader) {n m : Nat} {buf inp out pend : List UInt8}
    (hbuf : buf.length = BUFSZ) (hpend : buf.take m = pend) (hm : pend.length = m) (hclean : newline ∉ pend)
    (hnul : 0 ∉ pend) (hinp : 0 ∉ inp) (hroom : m + 1 ≤ BUFSZ) (hn : inp.length < n) :
    grepLoop (p ++ 0 :: u) rd n buf m inp out = some (out ++ grepped (p ++ 0 :: u) (pend ++ inp)) := by
  induction n generalizing buf m inp out pend with
  | zero => omega
  | succ n ih =>
    rw [grepLoop, if_neg (by omega)]
    have hle := rd.le_room inp (BUFSZ - m - 1)
    have hlen := rd.le_length inp (BUFSZ - m - 1)
    have hpos := rd.pos inp (BUFSZ - m - 1)
    generalize rd.count inp (BUFSZ - m - 1) = k at hle hlen hpos
    by_cases hk : k = 0
    · -- the end of the input, or a line that fills the buffer
      have hnone : grepped (p ++ 0 :: u) (pend ++ inp) = [] := by
        by_cases hfull : BUFSZ - m - 1 = 0
        · exact grepped_long hclean (by rw [hm]; simp only [BUFSZ] at hfull; omega) _
        · have hnil : inp = [] := Classical.byContradiction fun h => by have := hpos (by omega) h; omega
          rw [hnil, append_nil]
          exact grepped_rest hclean
      rw [hnone, append_nil]
      simp [hk]
    · have hpiece : (inp.take k).length = k := length_take_of_le hlen
      obtain ⟨buf₁, buf₂, junk, hfill, hstore, hlen₂, htext⟩ :=
        fill_text (inp.take k) hpend hm (by rw [hpiece]; omega)
      rw [hpiece] at hstore
      have hs : 0 ∉ pend ++ inp.take k := by
        rw [mem_append]
        exact fun h => h.elim hnul fun h => hinp (mem_of_mem_take h)
      have hslen : (pend ++ inp.take k).length = m + k := by rw [length_append, hm, hpiece]
      simp only [BUFSZ] at hle hroom hbuf
      obtain ⟨buf₃, q, rest, out', hlines, hscan⟩ :=
        lines_spec (u := u) (n := BUFSZ) hp out htext hs (by omega) (by simp only [BUFSZ]; omega)
      have hbound := hscan.bound
      have hlen₃ := hscan.length
      rw [hslen] at hbound
      have hdst : 0 + rest.length ≤ buf₃.length := by omega
      have hsrc : q + rest.length ≤ buf₃.length := by omega
      obtain ⟨buf₄, hmove, hcopied⟩ := memmove_spec hdst hsrc
      have hrest : m + k - q = rest.length := by omega
      have hfront : buf₄.take rest.length = rest := by
        rw [hcopied.front, hscan.text]
        exact take_left
      have hdone : grepLoop (p ++ 0 :: u) rd n buf₄ rest.length (inp.drop k) out' =
          some (out' ++ grepped (p ++ 0 :: u) (rest ++ inp.drop k)) :=
        ih ((hcopied.length_eq hdst hsrc).trans (hlen₃.trans (hlen₂.trans hbuf))) hfront rfl hscan.clean hscan.nul
          (fun h => hinp (mem_of_mem_drop h)) (by simp only [BUFSZ]; omega) (by rw [length_drop]; omega)
      rw [hscan.out, append_assoc pend, take_append_drop] at hdone
      simpa [hk, hfill, hstore, hlines, show ¬(m + k < q) by omega, show 0 < m + k by omega, hrest, hmove] using hdone

/-- However the input arrives, the output is that of the whole input, and `buf` is never
left. -/
theorem grep_output (rd : Reader) (p u buf inp : List UInt8) (hp : 0 ∉ p) (hbuf : buf.length = BUFSZ)
    (hinp : 0 ∉ inp) : grep (p ++ 0 :: u) rd buf inp = some (grepped (p ++ 0 :: u) inp) :=
  grepLoop_spec hp rd hbuf rfl rfl (by simp) (by simp) hinp (by decide) (by omega)

end Loop

/-- The pattern `a` and two lines that arrive two bytes at a time. -/
theorem grep_output_pieces :
    grep ['a'.toUInt8, 0] (Reader.pieces 2 (by decide)) (List.replicate BUFSZ 0)
        ['b'.toUInt8, 'a'.toUInt8, newline, 'b'.toUInt8, newline] =
      some (grepped ['a'.toUInt8, 0] ['b'.toUInt8, 'a'.toUInt8, newline, 'b'.toUInt8, newline]) :=
  grep_output _ ['a'.toUInt8] [] _ _ (by decide) List.length_replicate (by decide)

end Xv6.Grep
