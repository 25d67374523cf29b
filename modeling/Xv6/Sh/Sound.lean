import Mathlib.Data.List.Forall2
import Mathlib.Data.List.Induction
import Xv6.Sh.Lex
/-!
# What the parser returns is derived

Each parsing function takes tokens that the grammar derives and returns the tree
of that derivation, or it panics. The number of tokens bounds the recursion.
-/

namespace Xv6.Sh

open Hoare List

/-- The tree whose strings the pointers of a command point to. -/
inductive Reads (buf : List UInt8) : Cmd Span → Tree → Prop
  | exec {args ws} : List.Forall₂ (Span.Spells buf) args ws → Reads buf (.exec (argv args)) (.exec (argv ws))
  | redir {c t f w m d} : Reads buf c t → f.Spells buf w → Reads buf (.redir c f m d) (.redir t w m d)
  | pipe {c t c' t'} : Reads buf c t → Reads buf c' t' → Reads buf (.pipe c c') (.pipe t t')
  | list {c t c' t'} : Reads buf c t → Reads buf c' t' → Reads buf (.list c c') (.list t t')
  | back {c t} : Reads buf c t → Reads buf (.back c) (.back t)

variable {c : Cmd Span} {t : Token} {ts : List Token}

section Reads
variable {buf : List UInt8}

variable {σ : Type} {ws : List (List UInt8)}

theorem wrap_append (rs rs' : List (Redir σ)) (c : Cmd σ) : wrap (rs ++ rs') c = wrap rs' (wrap rs c) :=
  foldl_append

theorem argv_inj {ws ws' : List σ} (h : argv ws = argv ws') : ws = ws' := by
  have hid : ∀ l : List σ, (argv l).filterMap id = l := fun l => by
    rw [argv, filterMap_append, filterMap_map]
    simp
  rw [← hid ws, h, hid]

theorem argv_set {ws : List σ} (h : ws.length < MAXARGS) (w : σ) :
    (argv ws).set ws.length (some w) = argv (ws ++ [w]) := by
  obtain ⟨k, hk⟩ : ∃ k, MAXARGS - ws.length = k + 1 := ⟨MAXARGS - ws.length - 1, by omega⟩
  have hk' : MAXARGS - (ws ++ [w]).length = k := by
    rw [length_append, length_singleton]
    omega
  rw [argv, argv, hk, hk', set_append_right _ _ (by simp), length_map, Nat.sub_self, replicate_succ,
    set_cons_zero, map_append, append_assoc]
  rfl

theorem argv_set_none {ws : List σ} (h : ws.length < MAXARGS) : (argv ws).set ws.length none = argv ws := by
  obtain ⟨k, hk⟩ : ∃ k, MAXARGS - ws.length = k + 1 := ⟨MAXARGS - ws.length - 1, by omega⟩
  rw [argv, hk, set_append_right _ _ (by simp), length_map, Nat.sub_self, replicate_succ,
    set_cons_zero]

theorem Reads.exec_inv (h : Reads buf c (.exec (argv ws))) :
    ∃ args, c = .exec (argv args) ∧ List.Forall₂ (Span.Spells buf) args ws := by
  generalize ht : Cmd.exec (argv ws) = t at h
  cases h with
  | exec hl =>
    rw [← argv_inj (Cmd.exec.inj ht)] at hl
    exact ⟨_, rfl, hl⟩
  | redir => cases ht
  | pipe => cases ht
  | list => cases ht
  | back => cases ht

/-- A change to the `EXEC` node is made through the redirections around it. -/
theorem Reads.setArg {ws' : List (List UInt8)} {i : Nat} {x : Option Span}
    (hx : ∀ args, List.Forall₂ (Span.Spells buf) args ws →
      ∃ args', (argv args).set i x = argv args' ∧ List.Forall₂ (Span.Spells buf) args' ws')
    (rs : List (Redir (List UInt8))) (h : Reads buf c (wrap rs (.exec (argv ws)))) :
    Reads buf (setArg i x c) (wrap rs (.exec (argv ws'))) := by
  induction rs using List.reverseRecOn generalizing c with
  | nil =>
    obtain ⟨args, rfl, hl⟩ := h.exec_inv
    obtain ⟨args', hset, hl'⟩ := hx args hl
    rw [Sh.setArg, hset]
    exact .exec hl'
  | append_singleton rs r ih =>
    rw [wrap_append] at h ⊢
    cases h with
    | redir hc hf => exact .redir (ih hc) hf

theorem Reads.addArg {w : List UInt8} {sp : Span} (hsp : sp.Spells buf w)
    (hlen : ws.length < MAXARGS) (rs : List (Redir (List UInt8)))
    (h : Reads buf c (wrap rs (.exec (argv ws)))) :
    Reads buf (Sh.setArg ws.length (some sp) c) (wrap rs (.exec (argv (ws ++ [w])))) := by
  refine h.setArg (fun args hl => ⟨args ++ [sp], ?_, rel_append hl (.cons hsp .nil)⟩) rs
  rw [← hl.length_eq, argv_set (by rw [hl.length_eq]; exact hlen)]

theorem Reads.endArgs (hlen : ws.length < MAXARGS) (rs : List (Redir (List UInt8)))
    (h : Reads buf c (wrap rs (.exec (argv ws)))) :
    Reads buf (Sh.setArg ws.length none c) (wrap rs (.exec (argv ws))) := by
  refine h.setArg (fun args hl => ⟨args, ?_, hl⟩) rs
  rw [← hl.length_eq, argv_set_none (by rw [hl.length_eq]; exact hlen)]

theorem reads_execcmd : Reads buf execcmd (.exec (argv [])) :=
  show Reads buf (.exec (argv [])) (.exec (argv [])) from .exec .nil

end Reads

/-! ## The loops -/

section Loops
variable {buf : List UInt8} {s : Nat}

theorem opens_redir :
    opens [ch '<', ch '>'] (t :: ts) = true ↔ t = .lt ∨ t = .gt ∨ t = .gtgt := by
  cases t <;> simp [opens, Token.code] <;> decide

theorem redircmd_spec (ht : t = .lt ∨ t = .gt ∨ t = .gtgt) {tree : Tree} {f : Span}
    {w : List UInt8} (hc : Reads buf c tree) (hf : f.Spells buf w) :
    ∃ r, IsRedir [t, .word w] r ∧ Reads buf (redircmd c f t.code) (wrap [r] tree) := by
  rcases ht with rfl | rfl | rfl
  · exact ⟨_, .input w, .redir hc hf⟩
  · exact ⟨_, .output w, .redir hc hf⟩
  · exact ⟨_, .append w, .redir hc hf⟩

theorem parseredirs_sound (n : Nat) {t : Tree} (hs : s ≤ strlen buf) (hn : (toks buf s).length < n)
    (hc : Reads buf c t) :
    wp (parseredirs buf (strlen buf) n c)
      (fun c' j => j ≤ strlen buf ∧ opens [ch '<', ch '>'] (toks buf j) = false ∧
        ∃ ts rs, toks buf s = ts ++ toks buf j ∧ IsRedirs ts rs ∧ Reads buf c' (wrap rs t))
      (fun e _ => e ≠ .deep) s := by
  induction n generalizing s c t with
  | zero => omega
  | succ n ih =>
    unfold parseredirs
    refine wp_peek (by decide) hs fun j hj htoks => ?_
    cases hts : toks buf s with
    | nil =>
      rw [show opens _ [] = false from rfl, if_neg (by decide), wp_pure, htoks, hts]
      exact ⟨hj, rfl, [], [], rfl, .nil, hc⟩
    | cons t₁ us =>
      by_cases ht₁ : t₁ = .lt ∨ t₁ = .gt ∨ t₁ = .gtgt
      · rw [opens_redir.2 ht₁, if_pos rfl]
        refine wp_gettoken hj (htoks.trans hts) fun sp₁ j₁ hj₁ h₁ _ => ?_
        dsimp only
        cases us with
        | nil =>
          refine wp_gettoken_nil hj₁ h₁ fun sp₂ j₂ _ _ => ?_
          dsimp only
          rw [if_pos (by decide), wp_bind, wp_throw]
          decide
        | cons t₂ us =>
          refine wp_gettoken hj₁ h₁ fun sp₂ j₂ hj₂ h₂ hsp => ?_
          dsimp only
          by_cases ha : t₂.code = ch 'a'
          · obtain ⟨w, rfl⟩ := Token.code_eq_a.1 ha
            obtain ⟨r, hr, hread⟩ := redircmd_spec ht₁ hc (hsp w rfl)
            rw [if_neg fun hne => hne ha]
            have hlen : (toks buf j₂).length < n := by
              rw [hts] at hn
              rw [h₂]
              simp only [length_cons] at hn
              omega
            refine (ih hj₂ hlen hread).imp ?_
            rintro c' k ⟨hk, ho, ts, rs, hcat, hrs, hc'⟩
            refine ⟨hk, ho, [t₁, .word w] ++ ts, r :: rs, ?_, .cons hr hrs, hc'⟩
            rw [← h₂, hcat]
            rfl
          · rw [if_pos ha, wp_bind, wp_throw]
            decide
      · have ho : opens [ch '<', ch '>'] (t₁ :: us) = false := by
          rw [← Bool.not_eq_true, opens_redir]
          exact ht₁
        rw [ho, if_neg (by decide), wp_pure, htoks, hts]
        exact ⟨hj, ho, [], [], rfl, .nil, hc⟩

theorem opens_stop : opens [ch '|', ch ')', ch '&', ch ';'] (t :: ts) = true ↔
    t = .bar ∨ t = .rparen ∨ t = .amp ∨ t = .semi := by
  cases t <;> simp [opens, Token.code] <;> decide

theorem parseargs_sound (n : Nat) (ws : List (List UInt8)) {ret : Cmd Span} {rs : List (Redir (List UInt8))}
    (hs : s ≤ strlen buf) (hn : (toks buf s).length < n) (hlen : ws.length ≤ 9)
    (hret : Reads buf ret (wrap rs (.exec (argv ws)))) :
    wp (parseargs buf (strlen buf) n ret ws.length)
      (fun c j => j ≤ strlen buf ∧ ∃ ts ws' rs', toks buf s = ts ++ toks buf j ∧ IsWords ts ws' rs' ∧
        (ws ++ ws').length ≤ 9 ∧ Reads buf c (wrap (rs ++ rs') (.exec (argv (ws ++ ws')))))
      (fun e _ => e ≠ .deep) s := by
  induction n generalizing s ret rs ws with
  | zero => omega
  | succ n ih =>
    have hstop : Reads buf (setArg ws.length none ret) (wrap rs (.exec (argv ws))) :=
      hret.endArgs (Nat.lt_succ_of_le hlen) rs
    unfold parseargs
    refine wp_peek (by decide) hs fun j hj htoks => ?_
    by_cases ho : opens [ch '|', ch ')', ch '&', ch ';'] (toks buf s) = true
    · rw [if_pos ho, wp_pure, htoks]
      refine ⟨hj, [], [], [], rfl, .nil, ?_, ?_⟩
      · rwa [append_nil]
      · rwa [append_nil, append_nil]
    rw [if_neg ho]
    cases hts : toks buf s with
    | nil =>
      refine wp_gettoken_nil hj (htoks.trans hts) fun sp k hk hnil => ?_
      dsimp only
      rw [if_pos rfl, wp_pure, hnil]
      refine ⟨hk, [], [], [], rfl, .nil, ?_, ?_⟩
      · rwa [append_nil]
      · rwa [append_nil, append_nil]
    | cons t us =>
      refine wp_gettoken hj (htoks.trans hts) fun sp k hk hus hsp => ?_
      dsimp only
      rw [if_neg t.code_ne_zero]
      by_cases ha : t.code = ch 'a'
      · obtain ⟨w, rfl⟩ := Token.code_eq_a.1 ha
        rw [if_neg fun hne => hne ha]
        by_cases hmax : ws.length + 1 ≥ MAXARGS
        · rw [if_pos hmax, wp_bind, wp_throw]
          decide
        rw [if_neg hmax, wp_bind]
        have hlen' : (ws ++ [w]).length ≤ 9 := by
          rw [length_append, length_singleton]
          simp only [MAXARGS] at hmax
          omega
        have hread := hret.addArg (hsp w rfl) (Nat.lt_succ_of_le hlen) rs
        have hk' : (toks buf k).length < n := by
          rw [hts, length_cons] at hn
          rw [hus]
          omega
        refine (parseredirs_sound n hk hk' hread).imp ?_
        rintro ret' k₁ ⟨hk₁, -, us₁, rs₁, hcat, hrs₁, hread₁⟩
        rw [← wrap_append] at hread₁
        have hk₁' : (toks buf k₁).length < n := by
          rw [hcat, length_append] at hk'
          omega
        have hih := ih (ws ++ [w]) hk₁ hk₁' hlen' hread₁
        rw [length_append, length_singleton] at hih
        refine hih.imp ?_
        rintro c j' ⟨hj', ts₂, ws₂, rs₂, hcat₂, hws₂, hlen₂, hread₂⟩
        rw [append_assoc] at hlen₂
        rw [append_assoc, append_assoc] at hread₂
        refine ⟨hj', .word w :: us₁ ++ ts₂, w :: ws₂, rs₁ ++ rs₂, ?_, .cons hrs₁ hws₂, hlen₂, hread₂⟩
        rw [← hus, hcat, hcat₂, cons_append, cons_append, append_assoc]
      · rw [if_pos ha, wp_bind, wp_throw]
        decide

end Loops

/-! ## The grammar -/

section Grammar
variable {buf : List UInt8} {s : Nat}

/-- From `s` on, `m` takes tokens that `G` derives and returns the tree, or panics. -/
def Sound (buf : List UInt8) (G : List Token → Tree → Prop) (m : P (Cmd Span)) (s : Nat) : Prop :=
  wp m (fun c j => j ≤ strlen buf ∧ ∃ ts t, toks buf s = ts ++ toks buf j ∧ G ts t ∧ Reads buf c t)
    (fun e _ => e ≠ .deep) s

theorem opens_one {t' : Token} (ht : t ∈ simple) : opens [t.code] (t' :: ts) = true ↔ t' = t := by
  simp only [simple, mem_cons, not_mem_nil, or_false] at ht
  rcases ht with rfl | rfl | rfl | rfl | rfl | rfl <;> cases t' <;> simp [opens, Token.code] <;> decide

theorem eq_cons_of_opens (ht : t ∈ simple) (h : opens [t.code] ts = true) :
    ∃ us, ts = t :: us := by
  cases ts with
  | nil => cases h
  | cons t' us => exact ⟨us, by rw [(opens_one ht).1 h]⟩

variable {line : P (Cmd Span)}

theorem parseblock_sound {n : Nat} (hs : s ≤ strlen buf) (hn : (toks buf s).length < n)
    (hline : ∀ j ≤ strlen buf, (toks buf j).length < (toks buf s).length → Sound buf IsLine line j)
    (hopen : opens [ch '('] (toks buf s) = true) :
    Sound buf IsCmd (parseblock buf (strlen buf) line n) s := by
  obtain ⟨us, hus⟩ := eq_cons_of_opens (t := .lparen) (by decide) hopen
  unfold Sound parseblock
  refine wp_peek (by decide) hs fun j hj htoks => ?_
  rw [hopen, if_neg (by decide)]
  refine wp_gettoken hj (htoks.trans hus) fun _ k hk hus' _ => ?_
  refine (hline k hk (by rw [hus', hus]; exact Nat.lt_succ_self _)).seq ?_
  rintro c j₁ ⟨hj₁, ts, t, hcat, hts, hread⟩
  refine wp_peek (by decide) hj₁ fun j₂ hj₂ htoks₂ => ?_
  by_cases hclose : opens [ch ')'] (toks buf j₁) = true
  · obtain ⟨vs, hvs⟩ := eq_cons_of_opens (t := .rparen) (by decide) hclose
    rw [hclose, if_neg (by decide)]
    refine wp_gettoken hj₂ (htoks₂.trans hvs) fun _ j₃ hj₃ hvs' _ => ?_
    have hlen : (toks buf j₃).length < n := by
      rw [hus, ← hus', hcat, hvs, ← hvs'] at hn
      simp only [length_cons, length_append] at hn
      omega
    refine (parseredirs_sound n hj₃ hlen hread).imp ?_
    rintro c' j₄ ⟨hj₄, -, rts, rs, hcat₄, hrs, hread₄⟩
    refine ⟨hj₄, _, _, ?_, .block hts hrs, hread₄⟩
    rw [hus, ← hus', hcat, hvs, ← hvs', hcat₄]
    simp only [cons_append, append_assoc]
  · rw [if_pos (by simpa using hclose), wp_bind, wp_throw]
    decide

theorem parseexec_sound {n : Nat} (hs : s ≤ strlen buf) (hn : (toks buf s).length < n)
    (hline : ∀ j ≤ strlen buf, (toks buf j).length < (toks buf s).length → Sound buf IsLine line j) :
    Sound buf IsCmd (parseexec buf (strlen buf) line n) s := by
  unfold Sound parseexec
  refine wp_peek (by decide) hs fun j hj htoks => ?_
  rw [← htoks] at hn hline ⊢
  by_cases hopen : opens [ch '('] (toks buf j) = true
  · rw [if_pos hopen]
    exact parseblock_sound hj hn hline hopen
  · rw [if_neg hopen]
    refine (parseredirs_sound n hj hn (t := .exec (argv [])) reads_execcmd).seq ?_
    rintro ret k ⟨hk, -, ts, rs, hcat, hrs, hread⟩
    have hlen : (toks buf k).length < n := by
      rw [hcat, length_append] at hn
      omega
    refine (parseargs_sound n [] hk hlen (Nat.zero_le 9) hread).imp ?_
    rintro c j₁ ⟨hj₁, us, ws, rs', hcat₁, hws, hlen₁, hread₁⟩
    refine ⟨hj₁, ts ++ us, _, ?_, .exec hrs hws hlen₁, hread₁⟩
    rw [hcat, hcat₁, append_assoc]

section
variable (n : Nat) (hs : s ≤ strlen buf) (hn : (toks buf s).length < n)
include n hs hn

theorem parsepipe_sound
    (hline : ∀ j ≤ strlen buf, (toks buf j).length < (toks buf s).length → Sound buf IsLine line j) :
    Sound buf IsPipe (parsepipe buf (strlen buf) line n) s := by
  induction n generalizing s with
  | zero => omega
  | succ n ih =>
    unfold Sound parsepipe
    refine (parseexec_sound hs hn hline).seq ?_
    rintro c j ⟨hj, ts, t, hcat, hts, hread⟩
    refine wp_peek (by decide) hj fun j₁ hj₁ htoks => ?_
    by_cases hbar : opens [ch '|'] (toks buf j) = true
    · obtain ⟨us, hus⟩ := eq_cons_of_opens (t := .bar) (by decide) hbar
      rw [if_pos hbar]
      refine wp_gettoken hj₁ (htoks.trans hus) fun _ k hk hus' _ => ?_
      have hlen : (toks buf k).length < (toks buf s).length := by
        rw [hcat, hus, hus', length_append, length_cons]
        omega
      refine (ih hk (by omega) fun i hi hlt => hline i hi (by omega)).seq ?_
      rintro d j₂ ⟨hj₂, vs, u, hcat₂, hvs, hread₂⟩
      rw [wp_pure]
      refine ⟨hj₂, ts ++ .bar :: vs, _, ?_, .more hts hvs, .pipe hread hread₂⟩
      rw [hcat, hus, ← hus', hcat₂, append_assoc, cons_append]
    · rw [if_neg hbar, wp_pure, htoks]
      exact ⟨hj₁, ts, t, hcat, .one hts, hread⟩

theorem parsebacks_sound {t : Tree}
    (hc : Reads buf c t) :
    wp (parsebacks buf (strlen buf) n c)
      (fun c' j => j ≤ strlen buf ∧ ∃ m, toks buf s = List.replicate m .amp ++ toks buf j ∧ Reads buf c' (backs m t))
      (fun e _ => e ≠ .deep) s := by
  induction n generalizing s c t with
  | zero => omega
  | succ n ih =>
    unfold parsebacks
    refine wp_peek (by decide) hs fun j hj htoks => ?_
    by_cases hamp : opens [ch '&'] (toks buf s) = true
    · obtain ⟨us, hus⟩ := eq_cons_of_opens (t := .amp) (by decide) hamp
      rw [if_pos hamp]
      refine wp_gettoken hj (htoks.trans hus) fun _ k hk hus' _ => ?_
      have hlen : (toks buf k).length < n := by
        rw [hus, length_cons] at hn
        rw [hus']
        omega
      refine (ih hk hlen (.back hc)).imp ?_
      rintro c' j₁ ⟨hj₁, m, hcat, hread⟩
      refine ⟨hj₁, m + 1, ?_, hread⟩
      rw [hus, ← hus', hcat, replicate_succ, cons_append]
    · rw [if_neg hamp, wp_pure, htoks]
      exact ⟨hj, 0, rfl, hc⟩

theorem parseline_sound :
    Sound buf IsLine (parseline buf (strlen buf) n) s := by
  induction n generalizing s with
  | zero => omega
  | succ n ih =>
    unfold Sound parseline
    refine (parsepipe_sound (n + 1) hs hn fun j hj hlt => ih hj (by omega)).seq ?_
    rintro c j ⟨hj, ts, t, hcat, hts, hread⟩
    have hlen : (toks buf j).length < n + 1 := by
      rw [hcat, length_append] at hn
      omega
    refine (parsebacks_sound (n + 1) hj hlen hread).seq ?_
    rintro c' k ⟨hk, m, hcat₂, hread₂⟩
    refine wp_peek (by decide) hk fun k₁ hk₁ htoks => ?_
    by_cases hsemi : opens [ch ';'] (toks buf k) = true
    · obtain ⟨us, hus⟩ := eq_cons_of_opens (t := .semi) (by decide) hsemi
      rw [if_pos hsemi]
      refine wp_gettoken hk₁ (htoks.trans hus) fun _ k₂ hk₂ hus' _ => ?_
      have hlen₂ : (toks buf k₂).length < n := by
        rw [hcat₂, hus, ← hus'] at hlen
        simp only [length_append, length_cons] at hlen
        omega
      refine (ih hk₂ hlen₂).seq ?_
      rintro d j₃ ⟨hj₃, vs, u, hcat₃, hvs, hread₃⟩
      rw [wp_pure]
      refine ⟨hj₃, _, _, ?_, .seq m hts hvs, .list hread₂ hread₃⟩
      rw [hcat, hcat₂, hus, ← hus', hcat₃]
      simp only [append_assoc, cons_append]
    · rw [if_neg hsemi, wp_pure, htoks]
      refine ⟨hk₁, _, _, ?_, .last m hts, hread₂⟩
      rw [hcat, hcat₂, append_assoc]

end

end Grammar

end Xv6.Sh
