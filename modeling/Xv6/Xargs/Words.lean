import Mathlib.Data.List.Forall2
import Mathlib.Data.List.TakeWhile
import Xv6.Lib.Split
import Xv6.Xargs.Code
/-!
# The words xargs passes

Without the buffer and the pointers, `xargs` keeps two lists of at most ten words and the
characters since the last separator: `Words`. The code does the same as long as the input
fits into its buffer, so it accesses nothing else; the words it passes are the pieces
that a separator ends, empty ones included.
-/

namespace Xv6.Xargs

open Ulib Split List

/-! ## Commands -/

/-- The first arguments are `ps`. -/
structure Cmd.Holds (cmd : Cmd) (ps : List Ptr) : Prop where
  size : cmd.args.length = Cmd_max_arg_cnt + 1
  cnt : cmd.arg_cnt = ps.length
  le : ps.length ≤ Cmd_max_arg_cnt
  front : cmd.args.take ps.length = ps

/-- The arguments are `ps`, and a null pointer ends them. -/
structure Cmd.Is (cmd : Cmd) (ps : List Ptr) : Prop extends cmd.Holds ps where
  null : cmd.args[ps.length]? = some .null

section Cmd
variable {cmd : Cmd} {ps : List Ptr}

theorem Cmd.Holds.lt (h : cmd.Holds ps) : cmd.arg_cnt < cmd.args.length := by
  have := h.le
  rw [h.cnt, h.size]
  omega

theorem Cmd.Holds.put_null (h : cmd.Holds ps) : ∃ cmd', cmd.put .null = some cmd' ∧ cmd'.Is ps := by
  have hlt := h.lt
  refine ⟨_, if_pos hlt, ⟨?_, h.cnt, h.le, ?_⟩, ?_⟩
  · rw [length_set, h.size]
  · rw [h.cnt, take_set_of_le (Nat.le_refl _), h.front]
  · rw [h.cnt] at hlt ⊢
    rw [getElem?_set_self hlt]

theorem Cmd.Holds.put (h : cmd.Holds ps) (hlt : ps.length < Cmd_max_arg_cnt) (p : Ptr) :
    ∃ cmd', cmd.put p = some cmd' ∧ Cmd.Holds { cmd' with arg_cnt := cmd'.arg_cnt + 1 } (ps ++ [p]) := by
  have hput := h.lt
  refine ⟨_, if_pos hput, ?_, ?_, ?_, ?_⟩
  · rw [length_set, h.size]
  · rw [length_append, ← h.cnt]
    rfl
  · rw [length_append]
    exact hlt
  · rw [h.cnt] at hput ⊢
    rw [length_append, length_singleton, take_add_one, take_set_of_le (Nat.le_refl _), h.front,
      getElem?_set_self hput]
    rfl

theorem Cmd.Holds.append (h : cmd.Holds ps) {qs : List Ptr} (hqs : .null ∉ qs) :
    ∃ cmd', Cmd_append_make cmd (qs ++ [.null]) = some cmd' ∧ cmd'.Is ((ps ++ qs).take Cmd_max_arg_cnt) := by
  induction qs generalizing cmd ps with
  | nil =>
    rw [append_nil, take_of_length_le h.le, nil_append, Cmd_append_make, if_neg (by simp)]
    exact h.put_null
  | cons q qs ih =>
    rw [mem_cons, not_or] at hqs
    rw [cons_append, Cmd_append_make]
    by_cases hlt : ps.length < Cmd_max_arg_cnt
    · obtain ⟨cmd₁, hput, h₁⟩ := h.put hlt q
      obtain ⟨cmd', hrun, his⟩ := ih h₁ hqs.2
      rw [if_pos ⟨h.cnt ▸ hlt, Ne.symm hqs.1⟩, hput]
      rw [append_assoc] at his
      exact ⟨cmd', hrun, his⟩
    · have hfull : ps.length = Cmd_max_arg_cnt := Nat.le_antisymm h.le (Nat.not_lt.mp hlt)
      rw [if_neg fun hand => hlt (h.cnt ▸ hand.1), ← hfull, take_left]
      exact h.put_null

end Cmd

/-! ## Strings -/

/-- A word as a C string: it ends at a NUL. -/
def cut (w : List UInt8) : List UInt8 := w.takeWhile (· ≠ 0)

theorem cstr_nul (w t : List UInt8) : cstr (w ++ 0 :: t) = some (cut w) := by
  induction w with
  | nil => rfl
  | cons c w ih =>
    rw [cons_append, cstr, cut, takeWhile_cons]
    by_cases hc : c = 0
    · simp [hc]
    · simp [hc, ih, cut]

/-- A command with one more word, if it has room. -/
def add (ws : List (List UInt8)) (w : List UInt8) : List (List UInt8) := (ws ++ [cut w]).take Cmd_max_arg_cnt

theorem add_ne_nil (ws : List (List UInt8)) (w : List UInt8) : add ws w ≠ [] := by
  simp [add, Cmd_max_arg_cnt]

variable {w : List UInt8} {ws : List (List UInt8)}

section Points
variable (argv : List (List UInt8)) (buff : List UInt8) (n : Nat)

/-- The string at `p` is `w`, whatever is stored behind the first `n` bytes. -/
def Points (p : Ptr) (w : List UInt8) : Prop :=
  ∀ buff', buff'.take n = buff.take n → p.str argv buff' = some w

/-- The command's arguments are the strings `ws`. -/
def Leads (cmd : Cmd) (ws : List (List UInt8)) : Prop := ∃ ps, cmd.Is ps ∧ List.Forall₂ (Points argv buff n) ps ws

variable {argv buff n}

variable {p : Ptr}

theorem Points.ne_null (h : Points argv buff n p w) : p ≠ .null := by
  rintro rfl
  exact absurd (h buff rfl) (by simp [Ptr.str])

theorem Points.store (h : Points argv buff n p w) (c : UInt8) :
    Points argv (buff.set n c) (n + 1) p w := by
  intro buff' hsame
  refine h buff' ?_
  have hn := congrArg (List.take n) hsame
  rwa [take_take, take_take, Nat.min_eq_left (Nat.le_succ n), take_set_of_le (Nat.le_refl n)] at hn

theorem Leads.store {cmd : Cmd} (h : Leads argv buff n cmd ws) (c : UInt8) :
    Leads argv (buff.set n c) (n + 1) cmd ws := by
  obtain ⟨ps, his, hall⟩ := h
  exact ⟨ps, his, hall.imp fun _ _ hp => hp.store c⟩

theorem points_buff {i : Nat} (hw : (buff.drop i).take w.length = w) (hn : i + w.length = n)
    (hlt : n < buff.length) : Points argv (buff.set n 0) (n + 1) (.buff i) (cut w) := by
  intro buff' hsame
  have hfront : (buff'.drop i).take (w.length + 1) = w ++ [0] := by
    have htake : (buff'.take (n + 1)).drop i = (buff'.drop i).take (w.length + 1) := by
      rw [drop_take]
      congr 1
      omega
    rw [← htake, hsame, drop_take, show n + 1 - i = w.length + 1 by omega, take_add_one, drop_set,
      if_neg (by omega), take_set_of_le (by omega), hw, show n - i = w.length by omega,
      getElem?_set_self (by rw [length_drop]; omega)]
    rfl
  have hsplit := take_append_drop (w.length + 1) (buff'.drop i)
  rw [hfront, append_assoc] at hsplit
  rw [Ptr.str, ← hsplit]
  exact cstr_nul w _

theorem Leads.append {cmd : Cmd} (h : Leads argv buff n cmd ws)
    (hp : Points argv buff n p (cut w)) :
    ∃ cmd', Cmd_append_one_make cmd p = some cmd' ∧ Leads argv buff n cmd' (add ws w) := by
  obtain ⟨ps, his, hall⟩ := h
  have hone : Ptr.null ∉ [p] := by simpa using hp.ne_null.symm
  obtain ⟨cmd', hrun, his'⟩ := his.toHolds.append hone
  exact ⟨cmd', hrun, _, his', List.forall₂_take _ (rel_append hall (.cons hp .nil))⟩

theorem execArgs_points {ps rest : List Ptr} (h : List.Forall₂ (Points argv buff n) ps ws) :
    execArgs argv buff (ps ++ .null :: rest) = some ws := by
  induction h with
  | nil => rfl
  | cons hp _ ih =>
    rw [cons_append, execArgs, if_neg hp.ne_null, hp buff rfl, ih]
    rfl

theorem Cmd.Is.args_eq {cmd : Cmd} {ps : List Ptr} (h : cmd.Is ps) :
    cmd.args = ps ++ .null :: cmd.args.drop (ps.length + 1) := by
  have hlt : ps.length < cmd.args.length := h.cnt ▸ h.lt
  have hsplit := take_append_drop ps.length cmd.args
  have hnull := h.null
  rw [getElem?_eq_getElem hlt, Option.some_inj] at hnull
  rw [h.front, drop_eq_getElem_cons hlt, hnull] at hsplit
  exact hsplit.symm

theorem Leads.exec {s : St} {cmd : Cmd} {ws : List (List UInt8)} (h : Leads argv s.buff n cmd ws) :
    Cmd_exec_in_child_process argv s cmd = some { s with execs := s.execs ++ if ws = [] then [] else [ws] } := by
  obtain ⟨ps, his, hall⟩ := h
  have hargs := his.args_eq
  have hexec : execArgs argv s.buff cmd.args = some ws := hargs ▸ execArgs_points hall
  rw [Cmd_exec_in_child_process, hexec, hargs]
  cases hall with
  | nil => simp
  | cons hp _ => simp [hp.ne_null]

end Points

/-! ## Without pointers -/

/-- The words of `cmd` and `cmd1`, the characters since the last separator, and what has
been given to `exec`. -/
structure Words where
  words : List (List UInt8)
  words1 : List (List UInt8)
  cur : List UInt8
  execs : List (List (List UInt8))

def Words.separate (mode : Mode) (a : Words) (c : UInt8) : Words :=
  match mode with
  | .eachLine =>
    if c = '\n'.toUInt8 ∨ c = '*'.toUInt8 then
      { a with words1 := a.words, execs := a.execs ++ [add a.words1 a.cur] }
    else if a.cur ≠ [] then { a with words1 := add a.words1 a.cur }
    else a
  | .oneShot => { a with words := add a.words a.cur }

def Words.step (mode : Mode) (a : Words) (c : UInt8) : Words :=
  if isSep c then { a.separate mode c with cur := [] } else { a with cur := a.cur ++ [c] }

/-- The variables of `xargs` stand for `a`. -/
structure Sim (argv : List (List UInt8)) (s : St) (a : Words) : Prop where
  size : s.buff.length = 512
  begin : s.begin + a.cur.length = s.vc_i
  cur : (s.buff.drop s.begin).take a.cur.length = a.cur
  cmd : Leads argv s.buff s.vc_i s.cmd a.words
  cmd1 : Leads argv s.buff s.vc_i s.cmd1 a.words1
  execs : s.execs = a.execs

section Sim
variable {argv : List (List UInt8)} {mode : Mode} {s : St} {a : Words}

/-- A separator, with its NUL in the buffer. -/
structure Sep (argv : List (List UInt8)) (s : St) (a : Words) : Prop where
  size : s.buff.length = 512
  word : Points argv s.buff s.vc_i (.buff s.begin) (cut a.cur)
  begin : s.vc_i - s.begin = a.cur.length + 1
  cmd : Leads argv s.buff s.vc_i s.cmd a.words
  cmd1 : Leads argv s.buff s.vc_i s.cmd1 a.words1
  execs : s.execs = a.execs

theorem Sep.separate (h : Sep argv s a) (mode : Mode) (c : UInt8) :
    ∃ s', separate argv mode s c = some s' ∧ s'.vc_i = s.vc_i ∧
      Sim argv { s' with begin := s'.vc_i } { a.separate mode c with cur := [] } := by
  cases mode with
  | oneShot =>
    obtain ⟨cmd, hcmd, hleads⟩ := h.cmd.append h.word
    refine ⟨{ s with cmd }, ?_, rfl, h.size, rfl, rfl, hleads, h.cmd1, h.execs⟩
    rw [Xargs.separate, hcmd]
    rfl
  | eachLine =>
    obtain ⟨cmd1, hcmd1, hleads⟩ := h.cmd1.append h.word
    simp only [Xargs.separate, Words.separate]
    split
    · have hexec := Leads.exec (s := { s with cmd1 }) hleads
      rw [if_neg (add_ne_nil a.words1 a.cur)] at hexec
      refine ⟨{ s with execs := s.execs ++ [add a.words1 a.cur], cmd1 := s.cmd }, ?_, rfl, h.size, rfl, rfl, h.cmd, h.cmd,
        congrArg (· ++ _) h.execs⟩
      simp only [Option.bind_eq_bind, Option.bind_some, hcmd1, hexec]
      rfl
    · rw [h.begin]
      by_cases hcur : a.cur = []
      · rw [if_neg (by simp [hcur]), if_neg (by simp [hcur])]
        exact ⟨s, rfl, rfl, h.size, rfl, rfl, h.cmd, h.cmd1, h.execs⟩
      · have hpos := length_pos_of_ne_nil hcur
        rw [if_pos (by omega), if_pos hcur, hcmd1]
        exact ⟨_, rfl, rfl, h.size, rfl, rfl, h.cmd, hleads, h.execs⟩

theorem Sim.step (h : Sim argv s a) (hlt : s.vc_i < 512) (mode : Mode) (c : UInt8) :
    ∃ s', step argv mode s c = some s' ∧ s'.vc_i = s.vc_i + 1 ∧ Sim argv s' (a.step mode c) := by
  have hroom : s.vc_i < s.buff.length := by rw [h.size]; exact hlt
  have hbegin := h.begin
  unfold Xargs.step Words.step
  split
  · have hsep : Sep argv { s with buff := s.buff.set s.vc_i 0, vc_i := s.vc_i + 1 } a :=
      ⟨by rw [length_set, h.size], points_buff h.cur h.begin hroom, by dsimp only; omega, h.cmd.store 0,
        h.cmd1.store 0, h.execs⟩
    obtain ⟨s', hrun, hi, hsim⟩ := hsep.separate mode c
    refine ⟨{ s' with begin := s'.vc_i }, ?_, hi, hsim⟩
    simp only [store_eq hroom, Option.bind_eq_bind, Option.bind_some, hrun]
    rfl
  · rw [store_eq hroom]
    refine ⟨_, rfl, rfl, by rw [length_set, h.size], ?_, ?_, h.cmd.store c, h.cmd1.store c, h.execs⟩
    · rw [length_append, length_singleton, ← Nat.add_assoc, h.begin]
    · show ((s.buff.set s.vc_i c).drop s.begin).take (a.cur ++ [c]).length = a.cur ++ [c]
      rw [length_append, length_singleton, take_add_one, drop_set, if_neg (by omega),
        show s.vc_i - s.begin = a.cur.length by omega, take_set_of_le (Nat.le_refl _), h.cur,
        getElem?_set_self (by rw [length_drop]; omega)]
      rfl

theorem Sim.run (h : Sim argv s a) (mode : Mode) (inp : List UInt8) (hlen : s.vc_i + inp.length ≤ 512) :
    ∃ s', inp.foldlM (Xargs.step argv mode) s = some s' ∧ s'.vc_i = s.vc_i + inp.length ∧
      Sim argv s' (inp.foldl (Words.step mode) a) := by
  induction inp generalizing s a with
  | nil => exact ⟨s, rfl, rfl, h⟩
  | cons c inp ih =>
    rw [length_cons] at hlen
    obtain ⟨s₁, hstep, hi, h₁⟩ := h.step (by omega) mode c
    obtain ⟨s', hrun, hi', h'⟩ := ih h₁ (by omega)
    refine ⟨s', ?_, by rw [hi', hi, length_cons]; omega, h'⟩
    rw [foldlM_cons, hstep]
    exact hrun

/-- What has been given to `exec` in the end. -/
def Words.done (mode : Mode) (a : Words) : List (List (List UInt8)) :=
  match mode with
  | .oneShot => a.execs ++ if a.words = [] then [] else [a.words]
  | .eachLine => a.execs

theorem points_argv (argv : List (List UInt8)) (buff : List UInt8) :
    List.Forall₂ (Points argv buff 0) ((List.range argv.length).map Ptr.argv) argv := by
  refine List.forall₂_iff_get.mpr ⟨by simp, fun i h₁ h₂ buff' _ => ?_⟩
  simp [Ptr.str, h₂]

theorem Cmd_make_leads (argv : List (List UInt8)) (buff : List UInt8) :
    ∃ cmd, Cmd_make ((List.range argv.length).map Ptr.argv ++ [.null]) = some cmd ∧
      Leads argv buff 0 cmd (argv.take Cmd_max_arg_cnt) := by
  have hempty : Cmd.Holds ⟨List.replicate (Cmd_max_arg_cnt + 1) .null, 0⟩ [] :=
    ⟨length_replicate, rfl, Nat.zero_le _, rfl⟩
  have hnull : Ptr.null ∉ (List.range argv.length).map Ptr.argv := by simp
  obtain ⟨cmd, hmake, his⟩ := hempty.append hnull
  exact ⟨cmd, hmake, _, his, List.forall₂_take _ (points_argv argv buff)⟩

theorem sim_start {buff : List UInt8} {cmd : Cmd} (hbuff : buff.length = 512)
    (h : Leads argv buff 0 cmd ws) : Sim argv ⟨buff, 0, 0, cmd, cmd, []⟩ ⟨ws, ws, [], []⟩ :=
  ⟨hbuff, rfl, rfl, h, h, rfl⟩

theorem main_eq {buff inp : List UInt8} (hbuff : buff.length = 512) (hinp : inp.length ≤ 512) :
    main argv mode buff inp =
      some ((inp.foldl (Words.step mode) ⟨argv.take Cmd_max_arg_cnt, argv.take Cmd_max_arg_cnt, [], []⟩).done mode) := by
  obtain ⟨cmd, hmake, hleads⟩ := Cmd_make_leads argv buff
  obtain ⟨s, hrun, -, hsim⟩ := (sim_start hbuff hleads).run mode inp (by simpa using hinp)
  simp only [main, hmake, xargs, Option.bind_eq_bind, Option.bind_some, hrun]
  cases mode with
  | oneShot =>
    simp only [hsim.cmd.exec, Option.bind_some, hsim.execs, Words.done]
    rfl
  | eachLine => exact congrArg some hsim.execs

theorem Sim.overrun (h : Sim argv s a) (hfull : s.vc_i = 512) (c : UInt8) : Xargs.step argv mode s c = none := by
  have hroom : ∀ c, store s.buff s.vc_i c = none := fun c => if_neg (by rw [h.size, hfull]; omega)
  unfold Xargs.step
  split <;> rw [hroom] <;> rfl

theorem main_overrun {buff inp : List UInt8} (hbuff : buff.length = 512) (hinp : 512 < inp.length) :
    main argv mode buff inp = none := by
  obtain ⟨cmd, hmake, hleads⟩ := Cmd_make_leads argv buff
  have hlen : (inp.take 512).length = 512 := length_take_of_le (by omega)
  obtain ⟨s, hrun, hi, hsim⟩ := (sim_start hbuff hleads).run mode (inp.take 512) (by rw [hlen])
  have hsplit : inp = inp.take 512 ++ inp[512] :: inp.drop 513 := by
    rw [← drop_eq_getElem_cons hinp, take_append_drop]
  have hnone : inp.foldlM (Xargs.step argv mode) ⟨buff, 0, 0, cmd, cmd, []⟩ = none := by
    rw [hsplit, foldlM_append, hrun]
    show List.foldlM _ _ (_ :: _) = none
    rw [foldlM_cons, hsim.overrun (by rw [hi, hlen])]
    rfl
  simp only [main, hmake, xargs, Option.bind_eq_bind, Option.bind_some, hnone, Option.bind_none]

/-- While the input fits into its buffer, `xargs` stores nowhere else, uses no place of
an array of arguments that does not exist, and gives `exec` only pointers to strings. -/
theorem xargs_in_bounds (argv : List (List UInt8)) (mode : Mode) (buff inp : List UInt8) (hbuff : buff.length = 512)
    (hinp : inp.length ≤ 512) : ∃ execs, main argv mode buff inp = some execs :=
  ⟨_, main_eq hbuff hinp⟩

theorem xargs_in_bounds_line : ∃ execs, main [['e'.toUInt8]] .eachLine (List.replicate 512 0) ['a'.toUInt8, '\n'.toUInt8] =
    some execs :=
  xargs_in_bounds _ _ _ _ List.length_replicate (by decide)

/-- The position in the buffer is never set back, not even after a line has been executed. -/
theorem xargs_leaves_buffer :
    main [['e'.toUInt8]] .oneShot (List.replicate 512 0) (List.replicate 513 'a'.toUInt8) = none ∧
      main [['e'.toUInt8]] .eachLine (List.replicate 512 0) (List.replicate 513 '\n'.toUInt8) = none :=
  ⟨main_overrun List.length_replicate (by rw [List.length_replicate]; omega),
    main_overrun List.length_replicate (by rw [List.length_replicate]; omega)⟩

end Sim

/-! ## Words -/

/-- The maximal runs of characters that are no separators. -/
def wordsOf (inp : List UInt8) : List (List UInt8) := (inp.splitOnP isSep).filter (· ≠ [])

theorem take_take_append {α : Type} (n : Nat) (l l' : List α) : (l.take n ++ l').take n = (l ++ l').take n := by
  rw [take_append, take_append, take_take, Nat.min_self, length_take]
  congr 2
  omega

/-- In one shot every piece that a separator ends is passed, as far as there is room. -/
theorem oneShot_words (inp : List UInt8) {a : Words} (hle : a.words.length ≤ Cmd_max_arg_cnt)
    (hcur : ∀ c ∈ a.cur, isSep c = false) :
    (inp.foldl (Words.step .oneShot) a).words =
        (a.words ++ (terminated isSep (a.cur ++ inp)).map cut).take Cmd_max_arg_cnt ∧
      (inp.foldl (Words.step .oneShot) a).execs = a.execs := by
  induction inp generalizing a with
  | nil =>
    rw [append_nil, terminated_piece hcur, map_nil, append_nil, take_of_length_le hle]
    exact ⟨rfl, rfl⟩
  | cons c inp ih =>
    rw [foldl_cons, Words.step]
    cases hc : isSep c with
    | true =>
      have hadd := ih (a := { a with words := add a.words a.cur, cur := [] })
        (by simp only [add, length_take]; omega) (by simp)
      rw [terminated_piece_cons hcur hc, map_cons]
      simpa [add, take_take_append, Words.separate] using hadd
    | false =>
      have hmore := ih (a := { a with cur := a.cur ++ [c] }) hle (by
        intro d hd
        rcases mem_append.mp hd with hd | hd
        · exact hcur d hd
        · rw [mem_singleton.mp hd, hc])
      simpa using hmore

theorem main_oneShot {argv : List (List UInt8)} {buff inp : List UInt8} (hbuff : buff.length = 512)
    (hinp : inp.length ≤ 512) :
    main argv .oneShot buff inp =
      some (if (argv ++ (terminated isSep inp).map cut).take Cmd_max_arg_cnt = [] then []
        else [(argv ++ (terminated isSep inp).map cut).take Cmd_max_arg_cnt]) := by
  rw [main_eq hbuff hinp, Words.done]
  have hwords := oneShot_words inp (a := ⟨argv.take Cmd_max_arg_cnt, argv.take Cmd_max_arg_cnt, [], []⟩)
    (length_take_le _ _) (by simp)
  rw [hwords.1, hwords.2, take_take_append]
  rfl

/-- With `n` initial arguments: the pieces there is room for are words without a NUL in
them, and after them there are only separators. -/
structure Plain (n : Nat) (inp : List UInt8) : Prop where
  words : ∀ w ∈ (terminated isSep inp).take (Cmd_max_arg_cnt - n), w ≠ [] ∧ 0 ∉ w
  more : ∀ w ∈ (terminated isSep inp).drop (Cmd_max_arg_cnt - n), w = []
  last : (inp.splitOnP isSep).getLast (List.splitOnP_ne_nil _ _) = []

theorem cut_eq_self_iff : cut w = w ↔ 0 ∉ w := by
  rw [cut, takeWhile_eq_self_iff]
  constructor
  · intro h h0
    simpa using h 0 h0
  · intro h c hc
    simpa using fun h0 : c = 0 => h (h0 ▸ hc)

section Plain
variable {argv : List (List UInt8)} {inp : List UInt8}

theorem take_passed (hargv : argv.length < Cmd_max_arg_cnt) (ws : List (List UInt8)) :
    (argv ++ ws).take Cmd_max_arg_cnt = argv ++ ws.take (Cmd_max_arg_cnt - argv.length) := by
  rw [take_append, take_of_length_le (Nat.le_of_lt hargv)]

/-- The words are those among the pieces there is room for and those behind them. -/
theorem wordsOf_eq (n : Nat) (inp : List UInt8) :
    wordsOf inp = ((terminated isSep inp).take n).filter (· ≠ []) ++ (((terminated isSep inp).drop n).filter (· ≠ []) ++
      [(inp.splitOnP isSep).getLast (splitOnP_ne_nil _ _)].filter (· ≠ [])) := by
  rw [← filter_append, ← filter_append, ← append_assoc, take_append_drop, ← splitOnP_eq, wordsOf]

theorem passed_iff (hargv : argv.length < Cmd_max_arg_cnt) :
    (argv ++ (terminated isSep inp).map cut).take Cmd_max_arg_cnt = argv ++ wordsOf inp ↔ Plain argv.length inp := by
  rw [take_passed hargv, append_cancel_left_eq, wordsOf_eq (Cmd_max_arg_cnt - argv.length), ← map_take]
  constructor
  · intro h
    -- no word is empty, so the pieces are all kept and nothing is left behind them
    have hne : ∀ w ∈ (terminated isSep inp).take (Cmd_max_arg_cnt - argv.length), w ≠ [] := by
      rintro w hw rfl
      have hmem := mem_map_of_mem (f := cut) hw
      rw [h, ← filter_append, ← filter_append] at hmem
      simpa [cut] using (mem_filter.mp hmem).2
    rw [filter_eq_self.mpr (by simpa using hne)] at h
    have hlen := congrArg List.length h
    rw [length_map, length_append] at hlen
    have hnil := append_eq_nil_iff.mp (length_eq_zero_iff.mp (by omega : (((terminated isSep inp).drop
      (Cmd_max_arg_cnt - argv.length)).filter (· ≠ []) ++
      [(inp.splitOnP isSep).getLast (splitOnP_ne_nil _ _)].filter (· ≠ [])).length = 0))
    rw [hnil.1, hnil.2, append_nil, append_nil] at h
    refine ⟨fun w hw => ⟨hne w hw, cut_eq_self_iff.mp ?_⟩, ?_, ?_⟩
    · exact map_inj_left.mp (h.trans (map_id _).symm) w hw
    · simpa using hnil.1
    · simpa using hnil.2
  · intro h
    have hcut : ∀ w ∈ (terminated isSep inp).take (Cmd_max_arg_cnt - argv.length), cut w = id w :=
      fun w hw => cut_eq_self_iff.mpr (h.words w hw).2
    rw [map_congr_left hcut, map_id, filter_eq_self.mpr (by simpa using fun w hw => (h.words w hw).1),
      filter_eq_nil_iff.mpr (by simpa using h.more), filter_eq_nil_iff.mpr (by simpa using h.last)]
    simp

/-- The words of the input are passed, all of them and nothing else. -/
theorem xargs_words (argv : List (List UInt8)) (buff inp : List UInt8) (hargv : argv.length < Cmd_max_arg_cnt)
    (hbuff : buff.length = 512) (hinp : inp.length < 512) (h : Plain argv.length inp) :
    main argv .oneShot buff inp = some (if argv ++ wordsOf inp = [] then [] else [argv ++ wordsOf inp]) := by
  rw [main_oneShot hbuff (Nat.le_of_lt hinp), (passed_iff hargv).mpr h]

end Plain

/-- The argument `e`, and on the input `ab c` with a newline. -/
theorem xargs_words_line :
    main [['e'.toUInt8]] .oneShot (List.replicate 512 0) ['a'.toUInt8, 'b'.toUInt8, ' '.toUInt8, 'c'.toUInt8, '\n'.toUInt8] =
      some [[['e'.toUInt8], ['a'.toUInt8, 'b'.toUInt8], ['c'.toUInt8]]] :=
  xargs_words [['e'.toUInt8]] (List.replicate 512 0) ['a'.toUInt8, 'b'.toUInt8, ' '.toUInt8, 'c'.toUInt8, '\n'.toUInt8]
    (by decide) List.length_replicate (by decide) ⟨by decide, by decide, by decide⟩

/-- A last word without a newline is not passed, two blanks pass an empty argument, and the
words after the tenth argument are dropped. -/
theorem xargs_loses_words :
    main [['e'.toUInt8]] .oneShot (List.replicate 512 0) ['a'.toUInt8] = some [[['e'.toUInt8]]] ∧
      wordsOf ['a'.toUInt8] = [['a'.toUInt8]] ∧
    main [['e'.toUInt8]] .oneShot (List.replicate 512 0) ['a'.toUInt8, ' '.toUInt8, ' '.toUInt8] =
        some [[['e'.toUInt8], ['a'.toUInt8], []]] ∧
      wordsOf ['a'.toUInt8, ' '.toUInt8, ' '.toUInt8] = [['a'.toUInt8]] ∧
    main (List.replicate 9 ['e'.toUInt8]) .oneShot (List.replicate 512 0)
        ['a'.toUInt8, ' '.toUInt8, 'b'.toUInt8, ' '.toUInt8] = some [List.replicate 9 ['e'.toUInt8] ++ [['a'.toUInt8]]] ∧
      wordsOf ['a'.toUInt8, ' '.toUInt8, 'b'.toUInt8, ' '.toUInt8] = [['a'.toUInt8], ['b'.toUInt8]] := by
  refine ⟨?_, by decide, ?_, by decide, ?_, by decide⟩
  · rw [main_oneShot length_replicate (by decide)]
    decide
  · rw [main_oneShot length_replicate (by decide)]
    decide
  · rw [main_oneShot length_replicate (by decide)]
    decide

end Xv6.Xargs
