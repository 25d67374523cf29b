import Xv6.Sh.Parse
/-!
# Words in the line buffer

Every pointer of a tree that `parsecmd` returns is a word token of the line, and
`nulterminate` ends each of them without touching another: an end is the place
of a blank, of a symbol or of the NUL, never of a character in a word.
-/

namespace Xv6.Sh

open Hoare List

/-- `argv[i]` of every `EXEC` node and `file` of every `REDIR` node, with their ends. -/
def Cmd.pointers : Cmd Span → List Span
  | .exec argv => argv.filterMap id
  | .redir cmd file _ _ => cmd.pointers ++ [file]
  | .pipe left right => left.pointers ++ right.pointers
  | .list left right => left.pointers ++ right.pointers
  | .back cmd => cmd.pointers

/-- The characters from `q` to `eq`. -/
def Span.text (buf : List UInt8) (sp : Span) : List UInt8 := (rest buf sp.q).take (sp.eq - sp.q)

/-- A word token of the string: a longest run of characters that are neither blank nor symbols. -/
structure WordToken (buf : List UInt8) (sp : Span) : Prop where
  nonempty : sp.q < sp.eq
  inside : sp.eq ≤ strlen buf
  chars : ∀ c ∈ sp.text buf, isWord c = true
  left : sp.q = 0 ∨ isWord (charAt buf (sp.q - 1)) = false
  right : sp.eq = strlen buf ∨ isWord (charAt buf sp.eq) = false

/-! ## Where the parser stands -/

/-- `s` is not inside a word. -/
def Boundary (buf : List UInt8) (s : Nat) : Prop :=
  s ≤ strlen buf ∧
    (s = 0 ∨ isWord (charAt buf (s - 1)) = false ∨ s = strlen buf ∨ isWord (charAt buf s) = false)

section Scanning
variable {buf : List UInt8} {s : Nat}

theorem boundary_zero : Boundary buf 0 := ⟨Nat.zero_le _, .inl rfl⟩

theorem scan_last {es : Nat} {p : UInt8 → Bool} (n : Nat) (h : s < scan buf es p n s) :
    p (charAt buf (scan buf es p n s - 1)) = true := by
  induction n generalizing s with
  | zero =>
    rw [scan] at h
    omega
  | succ n ih =>
    unfold scan at h ⊢
    by_cases hc : s < es ∧ p (charAt buf s) = true
    · rw [if_pos hc] at h ⊢
      rcases Nat.lt_or_ge (s + 1) (scan buf es p n (s + 1)) with hlt | hge
      · exact ih hlt
      · rw [show scan buf es p n (s + 1) - 1 = s by omega]
        exact hc.2
    · rw [if_neg hc] at h
      omega

theorem not_isWord_of_blank {c : UInt8} (h : isBlank c = true) : isWord c = false := by
  have hb : strchr whitespace c = true := h
  rw [isWord, hb]
  rfl

theorem not_isWord_of_symbol {c : UInt8} (h : c ∈ symbols) : isWord c = false := by
  rw [← Bool.not_eq_true]
  intro hw
  exact (isWord_symbol hw).1 h

theorem boundary_skip (h : Boundary buf s) : Boundary buf (skip buf (strlen buf) s) := by
  obtain ⟨hle, hat, -⟩ := skip_spec h.1
  refine ⟨hat.1, ?_⟩
  rcases Nat.lt_or_ge s (skip buf (strlen buf) s) with hlt | hge
  · exact .inr (.inl (not_isWord_of_blank (scan_last _ hlt)))
  · rw [Nat.le_antisymm hge hle]
    exact h.2

theorem boundary_symbol (h : s < strlen buf) (hc : charAt buf s ∈ symbols) : Boundary buf (s + 1) :=
  ⟨h, .inr (.inl (not_isWord_of_symbol hc))⟩

theorem Span.Spells.text_eq {sp : Span} {w : List UInt8} (h : sp.Spells buf w) : sp.text buf = w := by
  have hlen : sp.eq - sp.q = w.length := by
    have := h.eq
    omega
  rw [Span.text, h.text, hlen, take_left]

theorem Span.Spells.boundary {sp : Span} {w : List UInt8} (h : sp.Spells buf w) : Boundary buf sp.eq := by
  refine ⟨h.le, ?_⟩
  rcases Nat.lt_or_ge sp.eq (strlen buf) with hlt | hge
  · exact .inr (.inr (.inr (h.stop _ _ (rest_cons hlt).1)))
  · exact .inr (.inr (.inl (Nat.le_antisymm h.le hge)))

theorem Span.Spells.wordToken {sp : Span} {w : List UInt8} (h : sp.Spells buf w) (hne : w ≠ [])
    (hb : Boundary buf sp.q) (hq : sp.q < strlen buf) (hw : isWord (charAt buf sp.q) = true) : WordToken buf sp := by
  refine ⟨?_, h.le, ?_, ?_, ?_⟩
  · have := length_pos_iff.2 hne
    have := h.eq
    omega
  · rw [h.text_eq]
    exact h.chars
  · rcases hb.2 with hz | hl | he | hr
    · exact .inl hz
    · exact .inr hl
    · omega
    · rw [hw] at hr
      cases hr
  · rcases Nat.lt_or_ge sp.eq (strlen buf) with hlt | hge
    · exact .inr (h.stop _ _ (rest_cons hlt).1)
    · exact .inl (Nat.le_antisymm h.le hge)

/-- `gettoken` goes on to the end of a token, and what it returns as a word is one. -/
theorem gettoken_boundary (h : Boundary buf s) :
    wp (gettoken buf (strlen buf)) (fun r j => Boundary buf j ∧ (r.1 = ch 'a' → WordToken buf r.2))
      (fun _ _ => False) s := by
  have hb := boundary_skip h
  obtain ⟨-, hat, -⟩ := skip_spec h.1
  unfold gettoken
  simp only [wp_bind, wp_get, wp_set, wp_pure]
  generalize skip buf (strlen buf) s = q at hb hat
  rcases Nat.lt_or_ge q (strlen buf) with hq | hq
  · obtain ⟨hcons, h0⟩ := rest_cons hq
    rw [if_neg h0]
    by_cases hif : charAt buf q = ch '|' ∨ charAt buf q = ch '(' ∨ charAt buf q = ch ')' ∨ charAt buf q = ch ';' ∨
        charAt buf q = ch '&' ∨ charAt buf q = ch '<'
    · rw [if_pos hif]
      refine ⟨boundary_skip (boundary_symbol hq ?_), fun ha => ?_⟩
      · rcases hif with h | h | h | h | h | h <;> rw [h] <;> decide
      · dsimp only at ha
        rw [ha] at hif
        exact absurd hif (by decide)
    rw [if_neg hif]
    by_cases hgt : charAt buf q = ch '>'
    · rw [if_pos hgt]
      by_cases hgt' : charAt buf (q + 1) = ch '>'
      · have hlt : q + 1 < strlen buf := by
          rcases Nat.lt_or_ge (q + 1) (strlen buf) with h | h
          · exact h
          · rw [show q + 1 = strlen buf by omega, charAt_end] at hgt'
            exact absurd hgt' (by decide)
        rw [if_pos hgt']
        have hplus : ch '+' ≠ ch 'a' := by decide
        exact ⟨boundary_skip (boundary_symbol hlt (by rw [hgt']; decide)), fun ha => absurd ha hplus⟩
      · rw [if_neg hgt', hgt]
        have hgtne : ch '>' ≠ ch 'a' := by decide
        exact ⟨boundary_skip (boundary_symbol hq (by rw [hgt]; decide)), fun ha => absurd ha hgtne⟩
    · rw [if_neg hgt]
      have hw : isWord (charAt buf q) = true := by
        rcases char_cases (hat.2 _ _ hcons) with ⟨t, ht, hc⟩ | hc | hw
        · refine absurd ?_ hif
          rw [hc]
          simp only [simple, mem_cons, not_mem_nil, or_false] at ht
          rcases ht with rfl | rfl | rfl | rfl | rfl | rfl <;> decide
        · exact absurd hc hgt
        · exact hw
      obtain ⟨w, htoks, hsp⟩ := word_spec hq hw
      refine ⟨boundary_skip hsp.boundary, fun _ => hsp.wordToken ?_ hb hq hw⟩
      rintro rfl
      rw [toks, hcons, tokens_word hw] at htoks
      cases htoks
  · have hend : q = strlen buf := Nat.le_antisymm hat.1 hq
    rw [hend, charAt_end, if_pos rfl]
    have hne : (0 : UInt8) ≠ ch 'a' := by decide
    exact ⟨boundary_skip ⟨Nat.le_refl _, .inr (.inr (.inl rfl))⟩, fun ha => absurd ha hne⟩

variable {α : Type} {Q : α → Nat → Prop} {E : Panic → Nat → Prop}

theorem wp_peek_boundary {set : List UInt8} {f : Bool → P α} (h : Boundary buf s)
    (hf : ∀ b j, Boundary buf j → wp (f b) Q E j) : wp (peek buf (strlen buf) set >>= f) Q E s := by
  rw [wp_bind]
  unfold peek
  simp only [wp_bind, wp_get, wp_set, wp_pure]
  exact hf _ _ (boundary_skip h)

theorem wp_gettoken_boundary {f : UInt8 × Span → P α} (h : Boundary buf s)
    (hf : ∀ r j, Boundary buf j → (r.1 = ch 'a' → WordToken buf r.2) → wp (f r) Q E j) :
    wp (gettoken buf (strlen buf) >>= f) Q E s := by
  rw [wp_bind]
  exact (gettoken_boundary h).total fun r j hr => hf r j hr.1 hr.2

end Scanning

/-! ## The pointers of a tree -/

/-- Every pointer is a word token. -/
def Words (buf : List UInt8) (c : Cmd Span) : Prop := ∀ sp ∈ c.pointers, WordToken buf sp

section Words
variable {buf : List UInt8} {c c' : Cmd Span} {sp : Span}

theorem Words.redir (h : Words buf c) (hf : WordToken buf sp) (m d : Nat) : Words buf (.redir c sp m d) := by
  intro x hx
  rcases mem_append.1 hx with hx | hx
  · exact h x hx
  · rw [mem_singleton.1 hx]
    exact hf

theorem Words.pipe (h : Words buf c) (h' : Words buf c') : Words buf (.pipe c c') :=
  fun x hx => (mem_append.1 hx).elim (h x) (h' x)

theorem Words.list (h : Words buf c) (h' : Words buf c') : Words buf (.list c c') :=
  fun x hx => (mem_append.1 hx).elim (h x) (h' x)

theorem Words.back (h : Words buf c) : Words buf (.back c) := h

theorem words_execcmd : Words buf execcmd := by
  intro x hx
  cases hx

theorem words_redircmd (h : Words buf c) (hf : WordToken buf sp) (tok : UInt8) : Words buf (redircmd c sp tok) := by
  unfold redircmd
  split_ifs
  · exact h.redir hf _ _
  · exact h.redir hf _ _
  · exact h.redir hf _ _
  · exact h

theorem words_setArg (h : Words buf c) (argc : Nat) {arg : Option Span} (ha : ∀ sp, arg = some sp → WordToken buf sp) :
    Words buf (setArg argc arg c) := by
  induction c with
  | exec argv =>
    intro x hx
    obtain ⟨a, hmem, rfl⟩ : ∃ a ∈ argv.set argc arg, a = some x := by simpa [setArg, Cmd.pointers] using hx
    rcases mem_or_eq_of_mem_set hmem with hm | he
    · exact h x (by simpa [Cmd.pointers] using hm)
    · exact ha x he.symm
  | redir c f m d ih =>
    have hc : Words buf c := fun x hx => h x (mem_append_left _ hx)
    have hf : WordToken buf f := h f (mem_append_right _ (mem_singleton_self f))
    exact (ih hc).redir hf m d
  | pipe => exact h
  | list => exact h
  | back => exact h

end Words

/-- Between tokens, `m` returns a tree of word tokens, or panics. -/
def Safe (buf : List UInt8) (m : P (Cmd Span)) : Prop :=
  ∀ s, Boundary buf s → wp m (fun c j => Boundary buf j ∧ Words buf c) (fun _ _ => True) s

section Parser
variable {buf : List UInt8}

theorem safe_pure {c : Cmd Span} (h : Words buf c) : Safe buf (pure c) := fun _ hs => (wp_pure c).2 ⟨hs, h⟩

theorem safe_throw (e : Panic) : Safe buf (throw e) := fun _ _ => (wp_throw e).2 trivial

theorem safe_throw_bind {α : Type} (e : Panic) (f : α → P (Cmd Span)) : Safe buf (throw e >>= f) := fun _ _ => by
  rw [wp_bind, wp_throw]
  trivial

theorem Safe.bind {m : P (Cmd Span)} {f : Cmd Span → P (Cmd Span)} (hm : Safe buf m)
    (hf : ∀ c, Words buf c → Safe buf (f c)) : Safe buf (m >>= f) := by
  intro s hs
  rw [wp_bind]
  exact (hm s hs).mono (fun c j h => hf c h.2 j h.1) fun _ _ _ => trivial

theorem safe_peek {set : List UInt8} {f : Bool → P (Cmd Span)} (hf : ∀ b, Safe buf (f b)) :
    Safe buf (peek buf (strlen buf) set >>= f) :=
  fun _ hs => wp_peek_boundary hs fun b j hj => hf b j hj

theorem safe_gettoken {f : UInt8 × Span → P (Cmd Span)}
    (hf : ∀ r, (r.1 = ch 'a' → WordToken buf r.2) → Safe buf (f r)) :
    Safe buf (gettoken buf (strlen buf) >>= f) :=
  fun _ hs => wp_gettoken_boundary hs fun r j hj hr => hf r hr j hj

theorem safe_parseredirs (n : Nat) {c : Cmd Span} (h : Words buf c) : Safe buf (parseredirs buf (strlen buf) n c) := by
  induction n generalizing c with
  | zero => exact safe_throw _
  | succ n ih =>
    unfold parseredirs
    apply safe_peek
    intro b
    split
    · apply safe_gettoken
      rintro ⟨tok, sp⟩ -
      apply safe_gettoken
      rintro ⟨a, file⟩ hfile
      dsimp only
      split
      · exact safe_throw_bind _ _
      · next ha => exact ih (words_redircmd h (hfile (not_not.1 ha)) tok)
    · exact safe_pure h

theorem safe_parseargs (n : Nat) {ret : Cmd Span} (argc : Nat) (h : Words buf ret) :
    Safe buf (parseargs buf (strlen buf) n ret argc) := by
  induction n generalizing ret argc with
  | zero => exact safe_throw _
  | succ n ih =>
    have hnone : Words buf (setArg argc none ret) := words_setArg h argc fun _ he => by cases he
    unfold parseargs
    apply safe_peek
    intro b
    split
    · exact safe_pure hnone
    apply safe_gettoken
    rintro ⟨tok, arg⟩ harg
    dsimp only
    split
    · exact safe_pure hnone
    split
    · exact safe_throw_bind _ _
    next htok =>
    split
    · exact safe_throw_bind _ _
    have hsome : Words buf (setArg argc (some arg) ret) := by
      apply words_setArg h
      rintro sp ⟨⟩
      exact harg (not_not.1 htok)
    apply (safe_parseredirs n hsome).bind
    intro ret' hret'
    exact ih (argc + 1) hret'

theorem safe_parseblock {line : P (Cmd Span)} (hline : Safe buf line) (n : Nat) :
    Safe buf (parseblock buf (strlen buf) line n) := by
  unfold parseblock
  apply safe_peek
  intro b
  split
  · exact safe_throw_bind _ _
  apply safe_gettoken
  intro _ _
  apply hline.bind
  intro c hc
  apply safe_peek
  intro b
  split
  · exact safe_throw_bind _ _
  apply safe_gettoken
  intro _ _
  exact safe_parseredirs n hc

theorem safe_parseexec {line : P (Cmd Span)} (hline : Safe buf line) (n : Nat) :
    Safe buf (parseexec buf (strlen buf) line n) := by
  unfold parseexec
  apply safe_peek
  intro b
  split
  · exact safe_parseblock hline n
  · apply (safe_parseredirs n words_execcmd).bind
    intro ret hret
    exact safe_parseargs n 0 hret

theorem safe_parsepipe {line : P (Cmd Span)} (hline : Safe buf line) (n : Nat) :
    Safe buf (parsepipe buf (strlen buf) line n) := by
  induction n with
  | zero => exact safe_throw _
  | succ n ih =>
    unfold parsepipe
    apply (safe_parseexec hline (n + 1)).bind
    intro c hc
    apply safe_peek
    intro b
    split
    · apply safe_gettoken
      intro _ _
      apply ih.bind
      intro d hd
      exact safe_pure (hc.pipe hd)
    · exact safe_pure hc

theorem safe_parsebacks (n : Nat) {c : Cmd Span} (h : Words buf c) : Safe buf (parsebacks buf (strlen buf) n c) := by
  induction n generalizing c with
  | zero => exact safe_throw _
  | succ n ih =>
    unfold parsebacks
    apply safe_peek
    intro b
    split
    · apply safe_gettoken
      intro _ _
      exact ih h.back
    · exact safe_pure h

theorem safe_parseline (n : Nat) : Safe buf (parseline buf (strlen buf) n) := by
  induction n with
  | zero => exact safe_throw _
  | succ n ih =>
    unfold parseline
    apply (safe_parsepipe ih (n + 1)).bind
    intro c hc
    apply (safe_parsebacks (n + 1) hc).bind
    intro d hd
    apply safe_peek
    intro b
    split
    · apply safe_gettoken
      intro _ _
      apply ih.bind
      intro e he
      exact safe_pure (hd.list he)
    · exact safe_pure hd

theorem parseall_words (buf : List UInt8) : wp (parseall buf) (fun c _ => Words buf c) (fun _ _ => True) 0 := by
  unfold parseall
  rw [wp_bind]
  have hline : Safe buf (parseline buf (strlen buf) (strlen buf + 1)) := safe_parseline _
  refine (hline 0 boundary_zero).mono (fun c j h => ?_) fun _ _ _ => trivial
  apply wp_peek_boundary h.1
  intro b k _
  rw [wp_bind, wp_get]
  split
  · rw [wp_bind, wp_throw]
    trivial
  · exact (wp_pure c).2 h.2

end Parser

/-! ## nulterminate -/

section Nulterminate
variable {buf : List UInt8} {c : Cmd Span} {t : Tree}

theorem zeroes_perm {l l' : List Nat} (h : l.Perm l') (buf : List UInt8) : zeroes buf l = zeroes buf l' := by
  apply h.foldl_eq'
  intro i _ j _ b
  by_cases hij : i = j
  · rw [hij]
  · rw [set_comm _ _ hij]

theorem Reads.ends_eq (h : Reads buf c t) : c.ends = c.pointers.map Span.eq := by
  induction h with
  | @exec args ws _ =>
    rw [ends_exec, Cmd.pointers]
    simp [argv]
  | redir _ _ ih => rw [Cmd.ends, Cmd.pointers, ih, map_append, map_singleton]
  | pipe _ _ ih ih' => rw [Cmd.ends, Cmd.pointers, ih, ih', map_append]
  | list _ _ ih ih' => rw [Cmd.ends, Cmd.pointers, ih, ih', map_append]
  | back _ ih => rw [Cmd.ends, Cmd.pointers, ih]

theorem WordToken.spells {sp : Span} (h : WordToken buf sp) : sp.Spells buf (sp.text buf) := by
  have hlen : (sp.text buf).length = sp.eq - sp.q := by
    have := h.inside
    rw [Span.text, length_take, length_rest]
    omega
  have hsplit : rest buf sp.q = sp.text buf ++ rest buf sp.eq := by
    have hdrop : rest buf sp.eq = (rest buf sp.q).drop (sp.eq - sp.q) := by
      have := h.nonempty
      rw [rest, rest, drop_drop]
      congr 1
      omega
    rw [hdrop, Span.text, take_append_drop]
  refine ⟨hsplit, h.chars, ?_, h.inside, ?_⟩
  · have := h.nonempty
    omega
  · intro d l hd
    have hlt : sp.eq < strlen buf := by
      by_contra hge
      rw [rest_end (by omega)] at hd
      cases hd
    rw [(rest_cons hlt).1] at hd
    obtain ⟨rfl, -⟩ := List.cons.inj hd
    rcases h.right with he | hw
    · omega
    · exact hw

theorem Reads.cstring_pointer (h : Reads buf c t) (hw : Words buf c) {sp : Span} (hm : sp ∈ c.pointers) :
    cstring (zeroes buf c.ends) sp.q = sp.text buf := by
  apply (hw sp hm).spells.cstring
  · intro i hi
    rw [charAt_zeroes, if_neg]
    intro he
    exact hi (h.stops i he)
  · rw [charAt_zeroes, if_pos]
    rw [h.ends_eq]
    exact mem_map_of_mem hm

end Nulterminate

/-- After `nulterminate` every pointer of the tree reads as the word token it was made from. The zeroes can be written
in any order, and all of them lie in the string or on its NUL. -/
theorem nulterminate_words {buf buf' : List UInt8} {c : Cmd Span} (h : parsecmd buf = .ok (c, buf')) :
    (∀ sp ∈ c.pointers, WordToken buf sp ∧ cstring buf' sp.q = sp.text buf) ∧
      (∀ order, order.Perm c.ends → zeroes buf order = buf') ∧ ∀ i ∈ c.ends, i ≤ strlen buf := by
  rw [parsecmd_eq] at h
  rcases he : exec (parseall buf) 0 with ⟨e | d, s⟩
  · rw [he] at h
    cases h
  rw [he] at h
  obtain ⟨rfl, rfl⟩ := Prod.mk.inj (Except.ok.inj h)
  have hwords : Words buf d := (parseall_words buf).ok he
  obtain ⟨t, -, hread⟩ := (parseall_sound buf).ok he
  rw [nulterminate_eq]
  refine ⟨fun sp hsp => ⟨hwords sp hsp, hread.cstring_pointer hwords hsp⟩, fun order ho => zeroes_perm ho buf, ?_⟩
  intro i hi
  rw [hread.ends_eq] at hi
  obtain ⟨sp, hsp, rfl⟩ := mem_map.1 hi
  exact (hwords sp hsp).inside

/-- The line `a>b<c|d&`, in a larger buffer. -/
def adjacent : List UInt8 := [ch 'a', ch '>', ch 'b', ch '<', ch 'c', ch '|', ch 'd', ch '&', 0, ch 'z']

theorem nulterminate_words_adjacent :
    ∃ c buf', parsecmd adjacent = .ok (c, buf') ∧
      c.pointers.map (fun sp => cstring buf' sp.q) = [[ch 'a'], [ch 'b'], [ch 'c'], [ch 'd']] ∧
      (∀ sp ∈ c.pointers, WordToken adjacent sp ∧ cstring buf' sp.q = sp.text adjacent) ∧
      (∀ order, order.Perm c.ends → zeroes adjacent order = buf') ∧ ∀ i ∈ c.ends, i ≤ 8 :=
  ⟨_, _, rfl, by decide, nulterminate_words rfl⟩

end Xv6.Sh
