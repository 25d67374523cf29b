import Mathlib.Data.List.GetD
import Xv6.Sh.Complete
/-!
# The parser and its grammar

`parsecmd` returns the tree that the grammar derives for the tokens of the
string, and panics where there is none. `nulterminate` ends the words: it
writes only over characters that are in no word, so every string of the tree is
the whole word.
-/

namespace Xv6.Sh

open Hoare List

/-! ## nulterminate -/

/-- Where `nulterminate` writes. -/
def Cmd.ends : Cmd Span → List Nat
  | .exec argv => (argv.takeWhile Option.isSome).map fun arg => arg.elim 0 Span.eq
  | .redir cmd file _ _ => cmd.ends ++ [file.eq]
  | .pipe left right => left.ends ++ right.ends
  | .list left right => left.ends ++ right.ends
  | .back cmd => cmd.ends

def zeroes (buf : List UInt8) (ends : List Nat) : List UInt8 := ends.foldl (fun b i => b.set i 0) buf

theorem nulterminate_eq (c : Cmd Span) (buf : List UInt8) : nulterminate c buf = zeroes buf c.ends := by
  induction c generalizing buf with
  | exec argv => rw [nulterminate, Cmd.ends, zeroes, foldl_map]
  | redir c f m d ih =>
    rw [nulterminate, ih, Cmd.ends, zeroes, zeroes, foldl_append]
    rfl
  | pipe c d ihc ihd => rw [nulterminate, ihc, ihd, Cmd.ends, zeroes, zeroes, zeroes, foldl_append]
  | list c d ihc ihd => rw [nulterminate, ihc, ihd, Cmd.ends, zeroes, zeroes, zeroes, foldl_append]
  | back c ih => rw [nulterminate, ih, Cmd.ends]

theorem charAt_zeroes (ends : List Nat) (buf : List UInt8) (j : Nat) :
    charAt (zeroes buf ends) j = if j ∈ ends then 0 else charAt buf j := by
  induction ends generalizing buf with
  | nil => simp [zeroes]
  | cons i ends ih =>
    have hset : charAt (buf.set i 0) j = if i = j then 0 else charAt buf j := by
      simp only [charAt, getD_eq_getElem?_getD, getElem?_set]
      by_cases hij : i = j
      · rw [if_pos hij, if_pos hij]
        split <;> rfl
      · rw [if_neg hij, if_neg hij]
    rw [show zeroes buf (i :: ends) = zeroes (buf.set i 0) ends from rfl, ih, hset]
    by_cases hj : j ∈ ends
    · simp [hj]
    · simp [hj, eq_comm]

theorem takeWhile_argv {σ : Type} (ws : List σ) : (argv ws).takeWhile Option.isSome = ws.map some := by
  rw [argv, takeWhile_append_of_pos (by simp), takeWhile_replicate, if_neg (by simp), append_nil]

theorem ends_exec (args : List Span) : (Cmd.exec (argv args)).ends = args.map Span.eq := by
  rw [Cmd.ends, takeWhile_argv, map_map]
  rfl

section Strings
variable {buf buf' : List UInt8} {q : Nat}

theorem cstring_nil (h : charAt buf q = 0) : cstring buf q = [] := by
  rcases Nat.lt_or_ge q buf.length with hq | hq
  · rw [charAt, getD_eq_getElem _ _ hq] at h
    rw [cstring, drop_eq_getElem_cons hq, takeWhile_cons_of_neg (by simp [h])]
  · rw [cstring, drop_eq_nil_of_le hq, takeWhile_nil]

theorem cstring_cons (h : charAt buf q ≠ 0) : cstring buf q = charAt buf q :: cstring buf (q + 1) := by
  have hq : q < buf.length := by
    by_contra hge
    exact h (by rw [charAt, getD_eq_default _ _ (by omega)])
  rw [charAt, getD_eq_getElem _ _ hq] at h ⊢
  rw [cstring, drop_eq_getElem_cons hq, takeWhile_cons_of_pos (by simpa using h), cstring]

/-- The end of a word is no character of a word. -/
def Stop (buf : List UInt8) (i : Nat) : Prop := charAt buf i = 0 ∨ isWord (charAt buf i) = false

theorem Span.Spells.stops {sp : Span} {w : List UInt8} (h : sp.Spells buf w) : Stop buf sp.eq := by
  rcases Nat.lt_or_ge sp.eq (strlen buf) with hlt | hge
  · exact .inr (h.stop _ _ (rest_cons hlt).1)
  · rw [Stop, Nat.le_antisymm h.le hge]
    exact .inl charAt_end

theorem Reads.stops {c : Cmd Span} {t : Tree} (h : Reads buf c t) : ∀ i ∈ c.ends, Stop buf i := by
  induction h with
  | exec hargs =>
    rw [ends_exec]
    induction hargs with
    | nil => exact fun i hi => by cases hi
    | cons hw _ ih =>
      intro i hi
      rcases mem_cons.1 hi with rfl | hi
      · exact hw.stops
      · exact ih i hi
  | redir _ hf ih =>
    intro i hi
    rcases mem_append.1 hi with hi | hi
    · exact ih i hi
    · rw [mem_singleton.1 hi]
      exact hf.stops
  | pipe _ _ ih ih' => exact fun i hi => (mem_append.1 hi).elim (ih i) (ih' i)
  | list _ _ ih ih' => exact fun i hi => (mem_append.1 hi).elim (ih i) (ih' i)
  | back _ ih => exact ih

theorem cstring_word (hkeep : ∀ i, ¬ Stop buf i → charAt buf' i = charAt buf i) {w : List UInt8} {e : Nat}
    (htext : rest buf q = w ++ rest buf e) (hchars : ∀ c ∈ w, isWord c = true) (he : e = q + w.length)
    (hend : charAt buf' e = 0) : cstring buf' q = w := by
  induction w generalizing q with
  | nil =>
    obtain rfl : e = q := he
    exact cstring_nil hend
  | cons c w ih =>
    have hlt : q < strlen buf := by
      by_contra hge
      rw [rest_end (by omega)] at htext
      cases htext
    obtain ⟨hcons, h0⟩ := rest_cons hlt
    obtain ⟨rfl, hrest⟩ := List.cons.inj (hcons.symm.trans htext)
    have hword := hchars _ mem_cons_self
    have hsame : charAt buf' q = charAt buf q := by
      refine hkeep q ?_
      rintro (h | h)
      · exact h0 h
      · rw [hword] at h
        cases h
    rw [cstring_cons (hsame ▸ h0), hsame,
      ih hrest (fun d hd => hchars d (mem_cons_of_mem _ hd)) (by rw [he, length_cons]; omega)]

theorem Span.Spells.cstring {sp : Span} {w : List UInt8} (h : sp.Spells buf w)
    (hkeep : ∀ i, ¬ Stop buf i → charAt buf' i = charAt buf i) (hend : charAt buf' sp.eq = 0) :
    cstring buf' sp.q = w :=
  cstring_word hkeep h.text h.chars h.eq hend

theorem argv_map {σ τ : Type} (f : σ → τ) (ws : List σ) : (argv ws).map (Option.map f) = argv (ws.map f) := by
  simp [argv]

theorem Reads.strings_eq {c : Cmd Span} {t : Tree} (h : Reads buf c t)
    (hkeep : ∀ i, ¬ Stop buf i → charAt buf' i = charAt buf i) (hends : ∀ i ∈ c.ends, charAt buf' i = 0) :
    c.strings buf' = t := by
  unfold Cmd.strings
  induction h with
  | @exec args ws hargs =>
    rw [ends_exec] at hends
    rw [Cmd.map, argv_map]
    congr 2
    induction hargs with
    | nil => rfl
    | cons hw _ ih =>
      rw [map_cons, hw.cstring hkeep (hends _ mem_cons_self),
        ih fun i hi => hends i (mem_cons_of_mem _ hi)]
  | redir _ hf ih =>
    rw [Cmd.map, ih fun i hi => hends i (mem_append_left _ hi),
      hf.cstring hkeep (hends _ (mem_append_right _ (mem_singleton_self _)))]
  | pipe _ _ ih ih' =>
    rw [Cmd.map, ih fun i hi => hends i (mem_append_left _ hi),
      ih' fun i hi => hends i (mem_append_right _ hi)]
  | list _ _ ih ih' =>
    rw [Cmd.map, ih fun i hi => hends i (mem_append_left _ hi),
      ih' fun i hi => hends i (mem_append_right _ hi)]
  | back _ ih => rw [Cmd.map, ih hends]

theorem Reads.nulterminate {c : Cmd Span} {t : Tree} (h : Reads buf c t) : c.strings (nulterminate c buf) = t := by
  rw [nulterminate_eq]
  refine h.strings_eq (fun i hi => ?_) fun i hi => ?_
  · rw [charAt_zeroes, if_neg fun hm => hi (h.stops i hm)]
  · rw [charAt_zeroes, if_pos hi]

end Strings

/-! ## parsecmd -/

section Parsecmd
variable {buf : List UInt8}

theorem length_tokens (l : List UInt8) : (tokens l).length ≤ l.length := by
  fun_induction tokens l with
  | case1 => exact Nat.le_refl 0
  | case2 c s _ ih => exact Nat.le_succ_of_le ih
  | case3 s _ ih | case4 s _ _ ih | case5 s _ _ _ ih | case6 s _ _ _ _ ih | case7 s _ _ _ _ _ ih
  | case8 s _ _ _ _ _ _ ih | case10 s _ _ _ _ _ _ _ _ ih => exact Nat.succ_le_succ ih
  | case9 s _ _ _ _ _ _ _ _ ih => exact Nat.succ_le_succ (ih.trans (by rw [length_tail]; omega))
  | case11 c s _ _ _ _ _ _ _ _ ih =>
    exact Nat.succ_le_succ (ih.trans (dropWhile_suffix isWord).length_le)

theorem AtToken.toks_eq_nil {s : Nat} (h : AtToken buf s) : toks buf s = [] ↔ s = strlen buf := by
  constructor
  · intro hnil
    by_contra hne
    obtain ⟨hcons, -⟩ := rest_cons (Nat.lt_of_le_of_ne h.1 hne)
    have hb := h.2 _ _ hcons
    rw [toks, hcons, tokens, if_neg (by rw [hb]; decide)] at hnil
    revert hnil
    split_ifs <;> simp
  · rintro rfl
    rw [toks, rest_end (Nat.le_refl _), tokens]

/-- The parse of a whole string, before `nulterminate`. -/
def parseall (buf : List UInt8) : P (Cmd Span) := do
  let cmd ← parseline buf (strlen buf) (strlen buf + 1)
  let _ ← peek buf (strlen buf) []
  if (← get) ≠ strlen buf then throw .leftovers
  return cmd

theorem parsecmd_eq (buf : List UInt8) :
    parsecmd buf = (exec (parseall buf) 0).1.map fun cmd => (cmd, nulterminate cmd buf) := rfl

theorem length_toks_zero : (toks buf 0).length < strlen buf + 1 := by
  have h := length_tokens (rest buf 0)
  rw [length_rest] at h
  exact Nat.lt_succ_of_le h

theorem parseall_sound (buf : List UInt8) :
    wp (parseall buf) (fun c _ => ∃ t, IsLine (toks buf 0) t ∧ Reads buf c t) (fun e _ => e ≠ .deep) 0 := by
  unfold parseall
  refine (parseline_sound _ (Nat.zero_le _) length_toks_zero).seq ?_
  rintro c j ⟨hj, ts, t, hcat, hts, hread⟩
  rw [wp_bind]
  refine (peek_spec (by simp) hj).total ?_
  rintro _ k ⟨hat, htoks, -⟩
  rw [wp_bind, wp_get]
  by_cases hend : k = strlen buf
  · rw [if_neg (not_not.2 hend)]
    refine (wp_pure c).2 ?_
    rw [← htoks, hat.toks_eq_nil.2 hend, append_nil] at hcat
    exact ⟨t, hcat ▸ hts, hread⟩
  · rw [if_pos hend, wp_bind, wp_throw]
    decide

theorem parseall_complete (buf : List UInt8) {t : Tree} (ht : IsLine (toks buf 0) t) :
    wp (parseall buf) (fun c _ => Reads buf c t) (fun _ _ => False) 0 := by
  have hnext : Next afterLine [] := fun _ _ h => by cases h
  unfold parseall
  refine (parseline_complete _ (Nat.zero_le _) length_toks_zero _ t [] (append_nil _).symm ht hnext).seq ?_
  rintro c j ⟨hj, hnil, hread⟩
  rw [wp_bind]
  refine (peek_spec (by simp) hj).total ?_
  rintro _ k ⟨hat, htoks, -⟩
  rw [wp_bind, wp_get, if_neg (not_not.2 (hat.toks_eq_nil.1 (htoks.trans hnil)))]
  exact (wp_pure c).2 hread

end Parsecmd

/-- The tree that `parsecmd` returns, with its strings. -/
def parsed (buf : List UInt8) : Except Panic Tree := (parsecmd buf).map fun r => r.1.strings r.2

/-- `parsecmd` returns a tree exactly if the grammar derives it for the tokens of the string. It comes to an end on
every string: the bound on its recursion is never reached. -/
theorem parsecmd_derives (buf : List UInt8) :
    (∀ t, parsed buf = .ok t ↔ IsLine (tokens (buf.takeWhile (· ≠ 0))) t) ∧ parsecmd buf ≠ .error .deep := by
  have htoks : tokens (buf.takeWhile (· ≠ 0)) = toks buf 0 := rfl
  have hsound := parseall_sound buf
  have hcomplete := fun t => parseall_complete buf (t := t)
  have hok : ∀ c s, exec (parseall buf) 0 = (.ok c, s) → ∀ t, Reads buf c t → parsed buf = .ok t := by
    intro c s he t ht
    rw [parsed, parsecmd_eq, he]
    exact congrArg Except.ok ht.nulterminate
  rw [htoks]
  rcases he : exec (parseall buf) 0 with ⟨e | c, s⟩
  · have herr : parsecmd buf = .error e := by
      rw [parsecmd_eq, he]
      rfl
    refine ⟨fun t => ⟨fun h => ?_, fun ht => ?_⟩, ?_⟩
    · rw [parsed, herr] at h
      cases h
    · exact ((hcomplete t ht).error he).elim
    · rw [herr]
      exact fun h => hsound.error he (Except.error.inj h)
  · obtain ⟨t, ht, hread⟩ := hsound.ok he
    refine ⟨fun t' => ⟨fun h => ?_, fun ht' => hok c s he t' ((hcomplete t' ht').ok he)⟩, ?_⟩
    · rw [hok c s he t hread] at h
      exact Except.ok.inj h ▸ ht
    · rw [parsecmd_eq, he]
      exact fun h => by cases h

/-- `a>x&` is a background command with its output to `x`. -/
example : parsed [ch 'a', ch '>', ch 'x', ch '&'] =
    .ok (.back (.redir (.exec (argv [[ch 'a']])) [ch 'x'] (O_WRONLY ||| O_CREATE ||| O_TRUNC) 1)) := by
  rfl

end Xv6.Sh
