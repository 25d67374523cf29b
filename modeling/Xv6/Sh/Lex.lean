import Mathlib.Data.List.TakeWhile
import Xv6.Sh.Grammar
/-!
# Tokens in the buffer

`toks buf s` are the tokens from the index `s` to the end of the string. `peek`
tells what the first of them is and moves to it, `gettoken` takes it away.
-/

namespace Xv6.Sh

open Hoare List

section Text
variable (buf : List UInt8)

/-- The string from `s` on. -/
def rest (s : Nat) : List UInt8 := (buf.takeWhile (· ≠ 0)).drop s

def toks (s : Nat) : List Token := tokens (rest buf s)

variable {buf} {s : Nat}

theorem rest_end (h : strlen buf ≤ s) : rest buf s = [] := drop_eq_nil_of_le h

theorem length_rest (s : Nat) : (rest buf s).length = strlen buf - s := by
  rw [rest, length_drop]
  rfl

theorem rest_cons (h : s < strlen buf) : rest buf s = charAt buf s :: rest buf (s + 1) ∧ charAt buf s ≠ 0 := by
  have hlt : s < (buf.takeWhile (· ≠ 0)).length := h
  have hpre := takeWhile_prefix (fun c : UInt8 => decide (c ≠ 0)) (l := buf)
  have hget : (buf.takeWhile (· ≠ 0))[s] = charAt buf s := by
    rw [charAt, getD_eq_getElem?_getD, getElem?_eq_getElem (Nat.lt_of_lt_of_le hlt hpre.length_le),
      Option.getD_some]
    exact hpre.getElem hlt
  refine ⟨?_, ?_⟩
  · rw [rest, drop_eq_getElem_cons hlt, hget]
    rfl
  · rw [← hget]
    exact of_decide_eq_true (mem_takeWhile_imp (p := fun c : UInt8 => decide (c ≠ 0)) (getElem_mem hlt))

theorem charAt_end : charAt buf (strlen buf) = 0 := by
  have hdrop : buf.drop (strlen buf) = buf.dropWhile (· ≠ 0) := by
    have hsplit : (buf.takeWhile (· ≠ 0) ++ buf.dropWhile (· ≠ 0)).drop (strlen buf) = buf.dropWhile (· ≠ 0) :=
      drop_left
    rwa [takeWhile_append_dropWhile] at hsplit
  have hhead : (buf.dropWhile (· ≠ 0)).head? = buf[strlen buf]? := by rw [← hdrop, head?_drop]
  rw [charAt, getD_eq_getElem?_getD, ← hhead]
  cases hd : buf.dropWhile (· ≠ 0) with
  | nil => rfl
  | cons c l =>
    have hnot := head_dropWhile_not (fun c : UInt8 => decide (c ≠ 0)) (l := buf) (by rw [hd]; simp)
    simp only [hd, head_cons] at hnot
    simpa using hnot

end Text

/-! ## Skipping -/

section Scan
variable {buf : List UInt8} {p : UInt8 → Bool} {s : Nat}

/-- A loop that runs over characters with `p` takes the longest run of them. -/
theorem scan_spec (n : Nat) (hs : s ≤ strlen buf) (hn : strlen buf - s ≤ n) :
    s ≤ scan buf (strlen buf) p n s ∧ scan buf (strlen buf) p n s ≤ strlen buf ∧
      rest buf s = (rest buf s).takeWhile p ++ rest buf (scan buf (strlen buf) p n s) ∧
      rest buf (scan buf (strlen buf) p n s) = (rest buf s).dropWhile p := by
  induction n generalizing s with
  | zero =>
    have hend : rest buf s = [] := rest_end (by omega)
    rw [scan, hend]
    exact ⟨Nat.le_refl s, hs, rfl, rfl⟩
  | succ n ih =>
    unfold scan
    by_cases hlt : s < strlen buf
    · obtain ⟨hcons, -⟩ := rest_cons hlt
      by_cases hp : p (charAt buf s) = true
      · rw [if_pos ⟨hlt, hp⟩]
        obtain ⟨h1, h2, h3, h4⟩ := ih (s := s + 1) hlt (by omega)
        refine ⟨by omega, h2, ?_, ?_⟩
        · rw [hcons, takeWhile_cons_of_pos hp, cons_append, ← h3]
        · rw [hcons, dropWhile_cons_of_pos hp, h4]
      · rw [if_neg fun h => hp h.2]
        refine ⟨Nat.le_refl s, hs, ?_, ?_⟩
        · rw [hcons, takeWhile_cons_of_neg hp, nil_append]
        · rw [hcons, dropWhile_cons_of_neg hp]
    · have hend : rest buf s = [] := rest_end (by omega)
      rw [if_neg fun h => hlt h.1, hend]
      exact ⟨Nat.le_refl s, hs, rfl, rfl⟩

theorem tokens_dropWhile (l : List UInt8) : tokens (l.dropWhile isBlank) = tokens l := by
  induction l with
  | nil => rfl
  | cons c l ih =>
    by_cases hc : isBlank c = true
    · rw [dropWhile_cons_of_pos hc, ih, tokens, if_pos hc]
    · rw [dropWhile_cons_of_neg hc]

/-- The next token starts here, if there is one. -/
def AtToken (buf : List UInt8) (s : Nat) : Prop := s ≤ strlen buf ∧ ∀ c l, rest buf s = c :: l → isBlank c = false

theorem skip_spec (hs : s ≤ strlen buf) :
    s ≤ skip buf (strlen buf) s ∧ AtToken buf (skip buf (strlen buf) s) ∧
      toks buf (skip buf (strlen buf) s) = toks buf s := by
  obtain ⟨h0, h1, -, h3⟩ := scan_spec (p := isBlank) (strlen buf - s) hs (Nat.le_refl _)
  refine ⟨h0, ⟨h1, fun c l hc => ?_⟩, ?_⟩
  · rw [show rest buf (skip buf (strlen buf) s) = _ from h3] at hc
    have hnot := head_dropWhile_not isBlank (l := rest buf s) (by rw [hc]; simp)
    simpa only [hc, head_cons] using hnot
  · rw [toks, show rest buf (skip buf (strlen buf) s) = _ from h3, tokens_dropWhile, toks]

end Scan

/-! ## gettoken and peek -/

/-- What `gettoken` returns for a token. -/
def Token.code : Token → UInt8
  | .bar => ch '|'
  | .lparen => ch '('
  | .rparen => ch ')'
  | .semi => ch ';'
  | .amp => ch '&'
  | .lt => ch '<'
  | .gt => ch '>'
  | .gtgt => ch '+'
  | .word _ => ch 'a'

variable {t : Token} {c : UInt8} {set : List UInt8}

theorem Token.code_eq_a : t.code = ch 'a' ↔ ∃ w, t = .word w := by
  cases t <;> simp [Token.code] <;> decide

theorem Token.code_ne_zero (t : Token) : t.code ≠ 0 := by
  cases t <;> simp only [Token.code] <;> decide

/-- Whether the first token starts with one of some symbols. -/
def opens (set : List UInt8) : List Token → Bool
  | [] => false
  | .word _ :: _ => false
  | .gtgt :: _ => strchr set (ch '>')
  | t :: _ => strchr set t.code

/-- The string from `q` to `eq` is the word `w`. -/
structure Span.Spells (buf : List UInt8) (sp : Span) (w : List UInt8) : Prop where
  text : rest buf sp.q = w ++ rest buf sp.eq
  chars : ∀ c ∈ w, isWord c = true
  eq : sp.eq = sp.q + w.length
  le : sp.eq ≤ strlen buf
  stop : ∀ c l, rest buf sp.eq = c :: l → isWord c = false

section
variable (l : List UInt8)
include l

theorem tokens_bar : tokens (ch '|' :: l) = .bar :: tokens l := by rw [tokens]; rfl
theorem tokens_lparen : tokens (ch '(' :: l) = .lparen :: tokens l := by rw [tokens]; rfl
theorem tokens_rparen : tokens (ch ')' :: l) = .rparen :: tokens l := by rw [tokens]; rfl
theorem tokens_semi : tokens (ch ';' :: l) = .semi :: tokens l := by rw [tokens]; rfl
theorem tokens_amp : tokens (ch '&' :: l) = .amp :: tokens l := by rw [tokens]; rfl
theorem tokens_lt : tokens (ch '<' :: l) = .lt :: tokens l := by rw [tokens]; rfl

theorem tokens_gt : tokens (ch '>' :: l) =
    if l.head? = some (ch '>') then .gtgt :: tokens l.tail else .gt :: tokens l := by
  rw [tokens]
  rfl

end

def simple : List Token := [.bar, .lparen, .rparen, .semi, .amp, .lt]

theorem tokens_simple (h : t ∈ simple) (l : List UInt8) : tokens (t.code :: l) = t :: tokens l := by
  simp only [simple, mem_cons, not_mem_nil, or_false] at h
  rcases h with rfl | rfl | rfl | rfl | rfl | rfl
  · exact tokens_bar l
  · exact tokens_lparen l
  · exact tokens_rparen l
  · exact tokens_semi l
  · exact tokens_amp l
  · exact tokens_lt l

theorem char_cases (h : isBlank c = false) :
    (∃ t ∈ simple, c = t.code) ∨ c = ch '>' ∨ isWord c = true := by
  by_cases hc : c ∈ symbols
  · simp only [symbols, mem_cons, not_mem_nil, or_false] at hc
    rcases hc with rfl | rfl | rfl | rfl | rfl | rfl | rfl
    · exact .inl ⟨.lt, by decide, rfl⟩
    · exact .inl ⟨.bar, by decide, rfl⟩
    · exact .inr (.inl rfl)
    · exact .inl ⟨.amp, by decide, rfl⟩
    · exact .inl ⟨.semi, by decide, rfl⟩
    · exact .inl ⟨.lparen, by decide, rfl⟩
    · exact .inl ⟨.rparen, by decide, rfl⟩
  · refine .inr (.inr ?_)
    have hs : strchr symbols c = false := by simpa [strchr] using hc
    have hb : strchr whitespace c = false := h
    rw [isWord, hs, hb]
    rfl

theorem isWord_symbol (hw : isWord c = true) : c ∉ symbols ∧ isBlank c = false := by
  simp only [isWord, Bool.and_eq_true, Bool.not_eq_true'] at hw
  exact ⟨by simpa [strchr] using hw.2, hw.1⟩

theorem tokens_word (hw : isWord c = true) (l : List UInt8) :
    tokens (c :: l) = .word (c :: l.takeWhile isWord) :: tokens (l.dropWhile isWord) := by
  obtain ⟨hs, hb⟩ := isWord_symbol hw
  have hne : ∀ d ∈ symbols, c ≠ d := fun d hd he => hs (he ▸ hd)
  rw [tokens, if_neg (by simp [hb]), if_neg (hne _ (by decide)), if_neg (hne _ (by decide)), if_neg (hne _ (by decide)),
    if_neg (hne _ (by decide)), if_neg (hne _ (by decide)), if_neg (hne _ (by decide)), if_neg (hne _ (by decide))]

theorem opens_tokens (hset : set.all symbols.contains = true) (hc : isBlank c = false)
    (l : List UInt8) : opens set (tokens (c :: l)) = strchr set c := by
  rcases char_cases hc with ⟨t, ht, rfl⟩ | rfl | hw
  · rw [tokens_simple ht]
    simp only [simple, mem_cons, not_mem_nil, or_false] at ht
    rcases ht with rfl | rfl | rfl | rfl | rfl | rfl <;> rfl
  · rw [tokens_gt]
    split <;> rfl
  · rw [tokens_word hw]
    have hm : c ∉ set := fun hm => (isWord_symbol hw).1 (contains_iff_mem.1 (all_eq_true.1 hset c hm))
    simpa [opens, strchr] using hm

section Spec
variable {buf : List UInt8} {s : Nat}

theorem peek_spec (hset : set.all symbols.contains = true) (hs : s ≤ strlen buf) :
    wp (peek buf (strlen buf) set)
      (fun r j => AtToken buf j ∧ toks buf j = toks buf s ∧ r = opens set (toks buf s)) (fun _ _ => False) s := by
  obtain ⟨-, hat, htoks⟩ := skip_spec hs
  unfold peek
  simp only [wp_bind, wp_get, wp_set, wp_pure]
  refine ⟨hat, htoks, ?_⟩
  rw [← htoks, toks]
  generalize skip buf (strlen buf) s = j at hat
  rcases Nat.lt_or_ge j (strlen buf) with hj | hj
  · obtain ⟨hcons, h0⟩ := rest_cons hj
    rw [hcons, opens_tokens hset (hat.2 _ _ hcons)]
    simp [h0]
  · rw [rest_end hj, Nat.le_antisymm hat.1 hj, charAt_end, tokens]
    rfl

/-- `gettoken` takes the first token away. -/
structure Got (buf : List UInt8) (s : Nat) (r : UInt8 × Span) (j : Nat) (t : Token) (ts : List Token) : Prop where
  before : toks buf s = t :: ts
  code : r.1 = t.code
  after : toks buf j = ts
  spells : ∀ w, t = .word w → r.2.Spells buf w

theorem head_rest (hs : s ≤ strlen buf) (hc : c ≠ 0) : (rest buf s).head? = some c ↔ charAt buf s = c := by
  rcases Nat.lt_or_ge s (strlen buf) with h | h
  · rw [(rest_cons h).1, head?_cons, Option.some.injEq]
  · rw [rest_end h, Nat.le_antisymm hs h, charAt_end]
    simpa using hc.symm

theorem word_spec (hs : s < strlen buf) (hw : isWord (charAt buf s) = true) :
    ∃ w, toks buf s = .word w :: toks buf (word buf (strlen buf) s) ∧
      (Span.mk s (word buf (strlen buf) s)).Spells buf w := by
  obtain ⟨h0, h1, h2, h3⟩ := scan_spec (p := isWord) (strlen buf - s) (Nat.le_of_lt hs) (Nat.le_refl _)
  rw [show scan buf (strlen buf) isWord (strlen buf - s) s = word buf (strlen buf) s from rfl] at h0 h1 h2 h3
  obtain ⟨hcons, -⟩ := rest_cons hs
  have hlen := congrArg List.length h2
  rw [length_append, length_rest, length_rest] at hlen
  refine ⟨(rest buf s).takeWhile isWord, ?_, h2, fun c hc => mem_takeWhile_imp hc, ?_, h1, fun c l hc => ?_⟩
  · rw [toks, toks, h3, hcons, tokens_word hw, takeWhile_cons_of_pos hw, dropWhile_cons_of_pos hw]
  · dsimp only
    omega
  · dsimp only at hc
    rw [h3] at hc
    have hnot := head_dropWhile_not isWord (l := rest buf s) (by rw [hc]; simp)
    simpa only [hc, head_cons] using hnot

theorem gettoken_spec (hs : s ≤ strlen buf) :
    wp (gettoken buf (strlen buf)) (fun r j => j ≤ strlen buf ∧
      (toks buf s = [] ∧ r.1 = 0 ∧ toks buf j = [] ∨ ∃ t ts, Got buf s r j t ts)) (fun _ _ => False) s := by
  obtain ⟨-, hat, htoks⟩ := skip_spec hs
  unfold gettoken
  simp only [wp_bind, wp_get, wp_set, wp_pure]
  generalize skip buf (strlen buf) s = q at hat htoks
  rcases Nat.lt_or_ge q (strlen buf) with hq | hq
  · obtain ⟨hcons, h0⟩ := rest_cons hq
    have hnext := skip_spec (show q + 1 ≤ strlen buf from hq)
    rw [if_neg h0]
    rcases char_cases (hat.2 _ _ hcons) with ⟨t, ht, hc⟩ | hc | hw
    · have hif : charAt buf q = ch '|' ∨ charAt buf q = ch '(' ∨ charAt buf q = ch ')' ∨ charAt buf q = ch ';' ∨
          charAt buf q = ch '&' ∨ charAt buf q = ch '<' := by
        rw [hc]
        simp only [simple, mem_cons, not_mem_nil, or_false] at ht
        rcases ht with rfl | rfl | rfl | rfl | rfl | rfl <;> decide
      rw [if_pos hif]
      refine ⟨hnext.2.1.1, .inr ⟨t, toks buf (q + 1), ?_, hc, hnext.2.2, fun w hw => ?_⟩⟩
      · rw [← htoks, toks, hcons, hc, tokens_simple ht]
        rfl
      · subst hw
        simp [simple] at ht
    · rw [if_neg (by rw [hc]; decide), if_pos hc]
      have hhead : (rest buf (q + 1)).head? = some (ch '>') ↔ charAt buf (q + 1) = ch '>' := head_rest hq (by decide)
      by_cases hgt : charAt buf (q + 1) = ch '>'
      · -- the second `>` lies before the end
        have hlt : q + 1 < strlen buf := by
          rcases Nat.lt_or_ge (q + 1) (strlen buf) with h | h
          · exact h
          · rw [show q + 1 = strlen buf by omega, charAt_end] at hgt
            exact absurd hgt (by decide)
        have hnext := skip_spec (show q + 2 ≤ strlen buf from hlt)
        rw [if_pos hgt]
        refine ⟨hnext.2.1.1, .inr ⟨.gtgt, toks buf (q + 2), ?_, rfl, hnext.2.2, fun w hw => by cases hw⟩⟩
        rw [← htoks, toks, hcons, hc, tokens_gt, if_pos (hhead.2 hgt), (rest_cons hlt).1]
        rfl
      · rw [if_neg hgt]
        refine ⟨hnext.2.1.1, .inr ⟨.gt, toks buf (q + 1), ?_, hc, hnext.2.2, fun w hw => by cases hw⟩⟩
        rw [← htoks, toks, hcons, hc, tokens_gt, if_neg fun h => hgt (hhead.1 h)]
        rfl
    · have hne : ∀ d ∈ symbols, charAt buf q ≠ d := fun d hd he => (isWord_symbol hw).1 (he ▸ hd)
      have hif : ¬ (charAt buf q = ch '|' ∨ charAt buf q = ch '(' ∨ charAt buf q = ch ')' ∨ charAt buf q = ch ';' ∨
          charAt buf q = ch '&' ∨ charAt buf q = ch '<') := by
        rintro (h | h | h | h | h | h) <;> exact hne _ (by decide) h
      rw [if_neg hif, if_neg (hne _ (by decide))]
      obtain ⟨w, hw, hsp⟩ := word_spec hq hw
      have hnext := skip_spec hsp.le
      refine ⟨hnext.2.1.1, .inr ⟨.word w, _, htoks.symm.trans hw, rfl, hnext.2.2, fun w' he => ?_⟩⟩
      cases he
      exact hsp
  · have hend : q = strlen buf := Nat.le_antisymm hat.1 hq
    have hnil : toks buf q = [] := by rw [toks, rest_end hq, tokens]
    rw [hend, charAt_end, if_pos rfl]
    have hskip := skip_spec (Nat.le_refl (strlen buf))
    rw [hend] at hnil htoks
    exact ⟨hskip.2.1.1, .inl ⟨htoks.symm.trans hnil, rfl, hskip.2.2.trans hnil⟩⟩

/-! The rules for a parsing function that calls them. -/

variable {α : Type} {Q : α → Nat → Prop} {E : Panic → Nat → Prop}

theorem wp_peek {f : Bool → P α} (hset : set.all symbols.contains = true) (hs : s ≤ strlen buf)
    (h : ∀ j, j ≤ strlen buf → toks buf j = toks buf s → wp (f (opens set (toks buf s))) Q E j) :
    wp (peek buf (strlen buf) set >>= f) Q E s := by
  rw [wp_bind]
  refine (peek_spec hset hs).total ?_
  rintro r j ⟨hat, htoks, rfl⟩
  exact h j hat.1 htoks

theorem wp_gettoken_nil {f : UInt8 × Span → P α} (hs : s ≤ strlen buf) (hnil : toks buf s = [])
    (h : ∀ sp j, j ≤ strlen buf → toks buf j = [] → wp (f (0, sp)) Q E j) :
    wp (gettoken buf (strlen buf) >>= f) Q E s := by
  rw [wp_bind]
  refine (gettoken_spec hs).total fun r j hg => ?_
  obtain ⟨c, sp⟩ := r
  obtain ⟨hj, ⟨-, hc, hj'⟩ | ⟨t, ts, g⟩⟩ := hg
  · obtain rfl : c = 0 := hc
    exact h sp j hj hj'
  · exact absurd (hnil.symm.trans g.before) (cons_ne_nil _ _).symm

theorem wp_gettoken {f : UInt8 × Span → P α} {ts : List Token} (hs : s ≤ strlen buf)
    (hcons : toks buf s = t :: ts)
    (h : ∀ sp j, j ≤ strlen buf → toks buf j = ts → (∀ w, t = .word w → sp.Spells buf w) → wp (f (t.code, sp)) Q E j) :
    wp (gettoken buf (strlen buf) >>= f) Q E s := by
  rw [wp_bind]
  refine (gettoken_spec hs).total fun r j hg => ?_
  obtain ⟨c, sp⟩ := r
  obtain ⟨hj, ⟨hnil, -⟩ | ⟨t', ts', g⟩⟩ := hg
  · rw [hcons] at hnil
    cases hnil
  · obtain ⟨rfl, rfl⟩ := List.cons.inj (hcons.symm.trans g.before)
    obtain rfl : c = t.code := g.code
    exact h sp j hj g.after g.spells

end Spec

end Xv6.Sh
