import Xv6.Sh.Sound
/-!
# What is derived is returned

If the grammar derives the tokens up to one that may follow, the parsing function
for it takes exactly those and returns their tree.
-/

namespace Xv6.Sh

open Hoare List

/-- The first of the tokens, if there is one, is among `l`. -/
def Next (l ts : List Token) : Prop := ∀ t us, ts = t :: us → t ∈ l

/-- What may follow a line, a pipe and a command. -/
def afterLine : List Token := [.rparen]
def afterPipe : List Token := [.amp, .semi, .rparen]
def afterCmd : List Token := [.bar, .amp, .semi, .rparen]

variable {l ts : List Token}

theorem Next.mono {l' : List Token} (h : Next l ts) (hl : ∀ t ∈ l, t ∈ l') : Next l' ts :=
  fun t us he => hl t (h t us he)

theorem next_cons {t : Token} (h : t ∈ l) (us : List Token) : Next l (t :: us) := by
  intro t' us' he
  rw [← (List.cons.inj he).1]
  exact h

section Complete
variable {buf : List UInt8} {s : Nat}

theorem opens_redir_after (h : Next afterCmd ts) : opens [ch '<', ch '>'] ts = false := by
  cases ts with
  | nil => rfl
  | cons t us =>
    have ht := h t us rfl
    rw [← Bool.not_eq_true, opens_redir]
    rintro (rfl | rfl | rfl) <;> exact absurd ht (by decide)

/-- A symbol that may not follow does not open what follows. -/
theorem opens_after (h : Next l ts) {t : Token} (ht : t ∈ simple) (hl : t ∉ l) :
    opens [t.code] ts = false := by
  cases ts with
  | nil => rfl
  | cons t' us =>
    rw [← Bool.not_eq_true, opens_one ht]
    intro he
    exact hl (he ▸ h t' us rfl)

variable {us vs : List Token} {rs : List (Redir (List UInt8))} {t : Tree} {line : P (Cmd Span)}

theorem parseredirs_complete (hrs : IsRedirs ts rs)
    (hus : opens [ch '<', ch '>'] us = false) (n : Nat) {c : Cmd Span} (hs : s ≤ strlen buf)
    (hcat : toks buf s = ts ++ us) (hn : (toks buf s).length < n) (hc : Reads buf c t) :
    wp (parseredirs buf (strlen buf) n c)
      (fun c' j => j ≤ strlen buf ∧ toks buf j = us ∧ Reads buf c' (wrap rs t)) (fun _ _ => False) s := by
  induction hrs generalizing n s c t with
  | nil =>
    obtain ⟨n, rfl⟩ : ∃ m, n = m + 1 := ⟨n - 1, by omega⟩
    unfold parseredirs
    refine wp_peek (by decide) hs fun j hj htoks => ?_
    rw [hcat, nil_append, hus, if_neg (by decide), wp_pure]
    exact ⟨hj, htoks.trans hcat, hc⟩
  | @cons ops vs r rs hr hrs ih =>
    obtain ⟨n, rfl⟩ : ∃ m, n = m + 1 := ⟨n - 1, by omega⟩
    -- an operator and a word
    obtain ⟨op, w, hop, rfl, hread⟩ : ∃ op w, (op = Token.lt ∨ op = .gt ∨ op = .gtgt) ∧ ops = [op, .word w] ∧
        ∀ f : Span, f.Spells buf w → Reads buf (redircmd c f op.code) (wrap [r] t) := by
      cases hr with
      | input w => exact ⟨.lt, w, .inl rfl, rfl, fun f hf => .redir hc hf⟩
      | output w => exact ⟨.gt, w, .inr (.inl rfl), rfl, fun f hf => .redir hc hf⟩
      | append w => exact ⟨.gtgt, w, .inr (.inr rfl), rfl, fun f hf => .redir hc hf⟩
    have hcons : toks buf s = op :: .word w :: (vs ++ us) := hcat
    unfold parseredirs
    refine wp_peek (by decide) hs fun j hj htoks => ?_
    rw [hcons, opens_redir.2 hop, if_pos rfl]
    refine wp_gettoken hj (htoks.trans hcons) fun _ j₁ hj₁ h₁ _ => ?_
    dsimp only
    refine wp_gettoken hj₁ h₁ fun sp j₂ hj₂ h₂ hsp => ?_
    dsimp only
    rw [if_neg fun hne => hne rfl]
    refine ih (n := n) hj₂ h₂ ?_ (hread sp (hsp w rfl))
    rw [hcons] at hn
    rw [h₂]
    simp only [length_cons] at hn
    omega

theorem opens_redir_words {ws : List (List UInt8)}
    (h : IsWords us ws rs) (hvs : Next afterCmd vs) : opens [ch '<', ch '>'] (us ++ vs) = false := by
  cases h with
  | nil => exact opens_redir_after hvs
  | cons _ _ => rfl

theorem parseargs_complete {ws' : List (List UInt8)} {rs' : List (Redir (List UInt8))}
    (hws : IsWords us ws' rs') (hvs : Next afterCmd vs) (n : Nat) (ws : List (List UInt8)) {ret : Cmd Span}
    (hs : s ≤ strlen buf) (hcat : toks buf s = us ++ vs)
    (hn : (toks buf s).length < n) (hlen : (ws ++ ws').length ≤ 9)
    (hret : Reads buf ret (wrap rs (.exec (argv ws)))) :
    wp (parseargs buf (strlen buf) n ret ws.length)
      (fun c j => j ≤ strlen buf ∧ toks buf j = vs ∧ Reads buf c (wrap (rs ++ rs') (.exec (argv (ws ++ ws')))))
      (fun _ _ => False) s := by
  induction hws generalizing n s ret rs ws with
  | nil =>
    obtain ⟨n, rfl⟩ : ∃ m, n = m + 1 := ⟨n - 1, by omega⟩
    rw [append_nil] at hlen
    rw [append_nil, append_nil]
    have hstop : Reads buf (setArg ws.length none ret) (wrap rs (.exec (argv ws))) :=
      hret.endArgs (Nat.lt_succ_of_le hlen) rs
    have hvs' : toks buf s = vs := hcat
    unfold parseargs
    refine wp_peek (by decide) hs fun j hj htoks => ?_
    rw [hvs'] at htoks ⊢
    cases hv : vs with
    | nil =>
      rw [show opens _ [] = false from rfl, if_neg (by decide)]
      refine wp_gettoken_nil hj (htoks.trans hv) fun sp k hk hnil => ?_
      dsimp only
      rw [if_pos rfl, wp_pure]
      exact ⟨hk, hnil, hstop⟩
    | cons t us =>
      have ht := hvs t us hv
      have hopen : t = .bar ∨ t = .rparen ∨ t = .amp ∨ t = .semi := by
        simp only [afterCmd, mem_cons, not_mem_nil, or_false] at ht
        rcases ht with h | h | h | h <;> simp [h]
      rw [opens_stop.2 hopen, if_pos rfl, wp_pure]
      exact ⟨hj, htoks.trans hv, hstop⟩
  | @cons w ts us rs₁ ws₁ rs₂ hrs hws ih =>
    obtain ⟨n, rfl⟩ : ∃ m, n = m + 1 := ⟨n - 1, by omega⟩
    have hcons : toks buf s = .word w :: (ts ++ (us ++ vs)) := by
      rw [hcat, cons_append, cons_append, append_assoc]
    rw [hcons, length_cons] at hn
    have hlen₁ : (ws ++ [w] ++ ws₁).length ≤ 9 := by
      rw [append_assoc]
      exact hlen
    have hmax : ¬ ws.length + 1 ≥ MAXARGS := by
      simp only [length_append, length_cons, MAXARGS] at hlen ⊢
      omega
    unfold parseargs
    refine wp_peek (by decide) hs fun j hj htoks => ?_
    rw [hcons, show opens _ (Token.word w :: _) = false from rfl, if_neg (by decide)]
    refine wp_gettoken hj (htoks.trans hcons) fun sp k hk hus hsp => ?_
    dsimp only
    rw [if_neg (Token.code_ne_zero _), if_neg fun hne => hne rfl, if_neg hmax, wp_bind]
    have hread := hret.addArg (hsp w rfl) (show ws.length < MAXARGS by omega) rs
    refine (parseredirs_complete hrs (opens_redir_words hws hvs) n hk hus (by rw [hus]; omega) hread).imp ?_
    rintro ret' k₁ ⟨hk₁, htoks₁, hread₁⟩
    rw [← wrap_append] at hread₁
    have hn₁ : (toks buf k₁).length < n := by
      rw [length_append] at hn
      rw [htoks₁]
      omega
    have hih := ih n (ws ++ [w]) hk₁ htoks₁ hn₁ hlen₁ hread₁
    rw [length_append, length_singleton, append_assoc, append_assoc] at hih
    exact hih

/-- If `G` derives the tokens from `s` up to one in `after`, then `m` takes them and returns their tree. -/
def Complete (buf : List UInt8) (G : List Token → Tree → Prop) (after : List Token) (m : P (Cmd Span)) (s : Nat) : Prop :=
  ∀ ts t us, toks buf s = ts ++ us → G ts t → Next after us →
    wp m (fun c j => j ≤ strlen buf ∧ toks buf j = us ∧ Reads buf c t) (fun _ _ => False) s

theorem parseblock_complete {n : Nat} (hs : s ≤ strlen buf) (hn : (toks buf s).length < n)
    (hline : ∀ j ≤ strlen buf, (toks buf j).length < (toks buf s).length → Complete buf IsLine afterLine line j)
    (hcat : toks buf s = .lparen :: (ts ++ .rparen :: (us ++ vs))) (hts : IsLine ts t) (hus : IsRedirs us rs)
    (hvs : Next afterCmd vs) :
    wp (parseblock buf (strlen buf) line n)
      (fun c j => j ≤ strlen buf ∧ toks buf j = vs ∧ Reads buf c (wrap rs t)) (fun _ _ => False) s := by
  unfold parseblock
  refine wp_peek (by decide) hs fun j hj htoks => ?_
  rw [hcat, show opens [ch '('] (Token.lparen :: _) = true from rfl, if_neg (by decide)]
  refine wp_gettoken hj (htoks.trans hcat) fun _ k hk h₁ _ => ?_
  have hlt : (toks buf k).length < (toks buf s).length := by
    rw [h₁, hcat]
    exact Nat.lt_succ_self _
  refine (hline k hk hlt ts t _ h₁ hts (next_cons (by decide) _)).seq ?_
  rintro c j₁ ⟨hj₁, h₂, hread⟩
  refine wp_peek (by decide) hj₁ fun j₂ hj₂ htoks₂ => ?_
  rw [h₂, show opens [ch ')'] (Token.rparen :: _) = true from rfl, if_neg (by decide)]
  refine wp_gettoken hj₂ (htoks₂.trans h₂) fun _ j₃ hj₃ h₃ _ => ?_
  refine parseredirs_complete hus (opens_redir_after hvs) n hj₃ h₃ ?_ hread
  rw [h₃]
  rw [hcat] at hn
  simp only [length_cons, length_append] at hn ⊢
  omega

/-- Redirections, words and what follows a command do not start with a parenthesis. -/
theorem opens_lparen_exec {rs' : List (Redir (List UInt8))} {ws : List (List UInt8)}
    (hts : IsRedirs ts rs) (hus : IsWords us ws rs') (hvs : Next afterCmd vs) :
    opens [ch '('] (ts ++ (us ++ vs)) = false := by
  cases hts with
  | nil =>
    cases hus with
    | nil => exact opens_after hvs (t := .lparen) (by decide) (by decide)
    | cons _ _ => rfl
  | cons hr _ => cases hr <;> rfl

theorem parseexec_complete {n : Nat} (hs : s ≤ strlen buf) (hn : (toks buf s).length < n)
    (hline : ∀ j ≤ strlen buf, (toks buf j).length < (toks buf s).length → Complete buf IsLine afterLine line j) :
    Complete buf IsCmd afterCmd (parseexec buf (strlen buf) line n) s := by
  intro ts t vs hcat hts hvs
  unfold parseexec
  refine wp_peek (by decide) hs fun j hj htoks => ?_
  cases hts with
  | @block ts c us rs hts hus =>
    have hcat : toks buf s = .lparen :: (ts ++ .rparen :: (us ++ vs)) := by
      rw [hcat]
      simp only [cons_append, append_assoc]
    rw [hcat, show opens [ch '('] (Token.lparen :: _) = true from rfl, if_pos rfl]
    rw [← htoks] at hn hline hcat
    exact parseblock_complete hj hn hline hcat hts hus hvs
  | @exec ts rs us ws rs' hrs hws hlen =>
    rw [append_assoc] at hcat
    rw [hcat, opens_lparen_exec hrs hws hvs, if_neg (by decide), wp_bind]
    rw [← htoks] at hn hcat
    refine (parseredirs_complete hrs (opens_redir_words hws hvs) n hj hcat hn reads_execcmd).imp ?_
    rintro ret k ⟨hk, h₁, hread⟩
    refine parseargs_complete hws hvs n [] hk h₁ ?_ hlen hread
    rw [hcat, length_append] at hn
    rw [h₁]
    omega

theorem parsepipe_complete (n : Nat) (hs : s ≤ strlen buf) (hn : (toks buf s).length < n)
    (hline : ∀ j ≤ strlen buf, (toks buf j).length < (toks buf s).length → Complete buf IsLine afterLine line j) :
    Complete buf IsPipe afterPipe (parsepipe buf (strlen buf) line n) s := by
  induction n generalizing s with
  | zero => omega
  | succ n ih =>
    intro ts t vs hcat hts hvs
    unfold parsepipe
    rw [wp_bind]
    cases hts with
    | one hts =>
      have hnext : Next afterCmd vs := hvs.mono (by decide)
      refine (parseexec_complete hs hn hline ts t vs hcat hts hnext).imp ?_
      rintro c j ⟨hj, h₁, hread⟩
      refine wp_peek (by decide) hj fun k hk htoks => ?_
      have hbar : opens [ch '|'] vs = false := opens_after hvs (t := .bar) (by decide) (by decide)
      rw [h₁, hbar, if_neg (by decide), wp_pure]
      exact ⟨hk, htoks.trans h₁, hread⟩
    | @more ts c us d hts hus =>
      rw [append_assoc, cons_append] at hcat
      refine (parseexec_complete hs hn hline ts c _ hcat hts (next_cons (by decide) _)).imp ?_
      rintro c' j ⟨hj, h₁, hread⟩
      refine wp_peek (by decide) hj fun k hk htoks => ?_
      rw [h₁, show opens [ch '|'] (Token.bar :: _) = true from rfl, if_pos rfl]
      refine wp_gettoken hk (htoks.trans h₁) fun _ k₁ hk₁ h₂ _ => ?_
      have hlt : (toks buf k₁).length < (toks buf s).length := by
        rw [h₂, hcat]
        simp only [length_append, length_cons]
        omega
      refine (ih hk₁ (by omega) (fun i hi h => hline i hi (by omega)) us d vs h₂ hus hvs).seq fun d' j₂ hd => ?_
      exact (wp_pure _).2 ⟨hd.1, hd.2.1, .pipe hread hd.2.2⟩

theorem parsebacks_complete (m : Nat) (hvs : Next [.semi, .rparen] vs) (n : Nat) {c : Cmd Span} (hs : s ≤ strlen buf)
    (hcat : toks buf s = List.replicate m .amp ++ vs) (hn : (toks buf s).length < n)
    (hc : Reads buf c t) :
    wp (parsebacks buf (strlen buf) n c)
      (fun c' j => j ≤ strlen buf ∧ toks buf j = vs ∧ Reads buf c' (backs m t)) (fun _ _ => False) s := by
  induction m generalizing s n c t with
  | zero =>
    obtain ⟨n, rfl⟩ : ∃ k, n = k + 1 := ⟨n - 1, by omega⟩
    have hcat : toks buf s = vs := hcat
    unfold parsebacks
    refine wp_peek (by decide) hs fun j hj htoks => ?_
    have hamp : opens [ch '&'] vs = false := opens_after hvs (t := .amp) (by decide) (by decide)
    rw [hcat, hamp, if_neg (by decide), wp_pure]
    exact ⟨hj, htoks.trans hcat, hc⟩
  | succ m ih =>
    obtain ⟨n, rfl⟩ : ∃ k, n = k + 1 := ⟨n - 1, by omega⟩
    have hcat : toks buf s = .amp :: (List.replicate m .amp ++ vs) := hcat
    unfold parsebacks
    refine wp_peek (by decide) hs fun j hj htoks => ?_
    rw [hcat, show opens [ch '&'] (Token.amp :: _) = true from rfl, if_pos rfl]
    refine wp_gettoken hj (htoks.trans hcat) fun _ k hk h₁ _ => ?_
    refine ih n hk h₁ ?_ (.back hc)
    rw [hcat, length_cons] at hn
    rw [h₁]
    omega

theorem parseline_complete (n : Nat) (hs : s ≤ strlen buf) (hn : (toks buf s).length < n) :
    Complete buf IsLine afterLine (parseline buf (strlen buf) n) s := by
  induction n generalizing s with
  | zero => omega
  | succ n ih =>
    intro ts t vs hcat hts hvs
    have hpipe : Complete buf IsPipe afterPipe (parsepipe buf (strlen buf) (parseline buf (strlen buf) n) (n + 1)) s :=
      parsepipe_complete (n + 1) hs hn fun j hj hlt => ih hj (by omega)
    unfold parseline
    rw [wp_bind]
    cases hts with
    | @last ts c m hts =>
      rw [append_assoc] at hcat
      have hnext : Next afterPipe (List.replicate m .amp ++ vs) := by
        cases m with
        | zero => exact hvs.mono (by decide)
        | succ m => exact next_cons (by decide) _
      refine (hpipe ts c _ hcat hts hnext).imp ?_
      rintro c' j ⟨hj, h₁, hread⟩
      refine (parsebacks_complete m (hvs.mono (by decide)) (n + 1) hj h₁ ?_ hread).seq fun d k hd => ?_
      · rw [hcat, length_append] at hn
        rw [h₁]
        omega
      obtain ⟨hk, h₂, hread₂⟩ := hd
      refine wp_peek (by decide) hk fun k₁ hk₁ htoks => ?_
      have hsemi : opens [ch ';'] vs = false := opens_after hvs (t := .semi) (by decide) (by decide)
      rw [h₂, hsemi, if_neg (by decide), wp_pure]
      exact ⟨hk₁, htoks.trans h₂, hread₂⟩
    | @seq ts c us d m hts hus =>
      rw [append_assoc, append_assoc, cons_append] at hcat
      have hnext : Next afterPipe (List.replicate m .amp ++ .semi :: (us ++ vs)) := by
        cases m with
        | zero => exact next_cons (by decide) _
        | succ m => exact next_cons (by decide) _
      refine (hpipe ts c _ hcat hts hnext).imp ?_
      rintro c' j ⟨hj, h₁, hread⟩
      have hn₁ : (toks buf j).length < n + 1 := by
        rw [hcat, length_append] at hn
        rw [h₁]
        omega
      refine (parsebacks_complete m (next_cons (by decide) _) (n + 1) hj h₁ hn₁ hread).seq ?_
      rintro c₂ k ⟨hk, h₂, hread₂⟩
      refine wp_peek (by decide) hk fun k₁ hk₁ htoks => ?_
      rw [h₂, show opens [ch ';'] (Token.semi :: _) = true from rfl, if_pos rfl]
      refine wp_gettoken hk₁ (htoks.trans h₂) fun _ k₂ hk₂ h₃ _ => ?_
      refine (ih hk₂ ?_ us d vs h₃ hus hvs).seq fun d' j₃ hd => ?_
      · rw [h₁] at hn₁
        simp only [length_append, length_cons] at hn₁
        rw [h₃, length_append]
        omega
      · exact (wp_pure _).2 ⟨hd.1, hd.2.1, .list hread₂ hd.2.2⟩

end Complete

end Xv6.Sh
