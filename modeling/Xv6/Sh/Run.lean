import Mathlib.Logic.Function.Basic
import Xv6.Param
import Xv6.Sh.Grammar
/-!
# The shell's descriptors

`runcmd` of `user/sh.c`. It wires commands together by `close`, `dup`, `open` and
`pipe`, relying on each new descriptor being the lowest that is free. Every process
has a table of its own, so the processes may run in any order; the calls that can
fail (`fork`, `exec`, `open` and `pipe`) are numbered, and `ok n` says whether call
`n` succeeds.
-/

namespace Xv6.Sh

open Function

variable {σ : Type}

/-- What a descriptor refers to: what call `n` opened, or an end of the pipe that call `n` made. -/
inductive File (σ : Type) where
  | opened (file : σ) (mode n : Nat)
  | pipe (n : Nat) (write : Bool)

abbrev Table (σ : Type) := Nat → Option (File σ)

def fdalloc (f : File σ) (t : Table σ) : Option (Nat × Table σ) :=
  ((List.range NOFILE).find? fun fd => (t fd).isNone).map fun fd => (fd, update t fd (some f))

def close (fd : Nat) (t : Table σ) : Table σ := update t fd none

/-- The result of `dup` is not looked at. -/
def dup (fd : Nat) (t : Table σ) : Table σ := ((t fd).bind fun f => fdalloc f t).elim t Prod.snd

/-- `p[0]`, `p[1]` and the table with them. -/
def pipe (n : Nat) (t : Table σ) : Option (Nat × Nat × Table σ) := do
  let (p0, t) ← fdalloc (.pipe n false) t
  let (p1, t) ← fdalloc (.pipe n true) t
  return (p0, p1, t)

inductive Msg (σ : Type) where
  /-- "exec %s failed\n" -/
  | exec (path : σ)
  /-- "open %s failed\n" -/
  | open (file : σ)
  /-- "pipe\n" -/
  | pipe
  /-- "fork\n" -/
  | fork

/-- `exec` is called with these descriptors, or a message is written to descriptor 2. -/
inductive Event (σ : Type) where
  | exec (argv : List (Option σ)) (fds : Table σ)
  | prints (msg : Msg σ) (err : Option (File σ))

/-- What the process and its children do, and the number of the next call. -/
def runcmd (ok : Nat → Bool) : Cmd σ → Table σ → Nat → List (Event σ) × Nat
  | .exec argv, t, n =>
    match argv.head?.join with
    | none => ([], n)
    | some path => (.exec argv t :: if ok n then [] else [.prints (.exec path) (t 2)], n + 1)
  | .redir cmd file mode fd, t, n =>
    let t := close fd t
    match if ok n then fdalloc (.opened file mode n) t else none with
    | none => ([.prints (.open file) (t 2)], n + 1)
    | some (_, t) => runcmd ok cmd t (n + 1)
  | .list left right, t, n =>
    if ok n then
      let (out, n) := runcmd ok left t (n + 1)
      let (out', n) := runcmd ok right t n
      (out ++ out', n)
    else ([.prints .fork (t 2)], n + 1)
  | .pipe left right, t, n =>
    match if ok n then pipe n t else none with
    | none => ([.prints .pipe (t 2)], n + 1)
    | some (p0, p1, t) =>
      if ok (n + 1) then
        let (out, n) := runcmd ok left (close p1 (close p0 (dup p1 (close 1 t)))) (n + 2)
        if ok n then
          let (out', n) := runcmd ok right (close p1 (close p0 (dup p0 (close 0 t)))) (n + 1)
          (out ++ out', n)
        else (out ++ [.prints .fork (t 2)], n + 1)
      else ([.prints .fork (t 2)], n + 2)
  | .back cmd, t, n => if ok n then runcmd ok cmd t (n + 1) else ([.prints .fork (t 2)], n + 1)

/-! ## What it is for -/

structure Wires (σ : Type) where
  stdin : File σ
  stdout : File σ
  stderr : File σ

namespace Wires

def table (w : Wires σ) : Table σ
  | 0 => some w.stdin
  | 1 => some w.stdout
  | 2 => some w.stderr
  | _ => none

/-- `<` redirects descriptor 0, `>` and `>>` descriptor 1. -/
def redirect (w : Wires σ) (fd : Nat) (f : File σ) : Wires σ :=
  if fd = 0 then { w with stdin := f } else { w with stdout := f }

end Wires

/-- A command with three files: each redirection and each pipe replaces one of them. -/
def wired (ok : Nat → Bool) : Cmd σ → Wires σ → Nat → List (Event σ) × Nat
  | .exec argv, w, n =>
    match argv.head?.join with
    | none => ([], n)
    | some path => (.exec argv w.table :: if ok n then [] else [.prints (.exec path) w.stderr], n + 1)
  | .redir cmd file mode fd, w, n =>
    if ok n then wired ok cmd (w.redirect fd (.opened file mode n)) (n + 1)
    else ([.prints (.open file) w.stderr], n + 1)
  | .list left right, w, n =>
    if ok n then
      let (out, n) := wired ok left w (n + 1)
      let (out', n) := wired ok right w n
      (out ++ out', n)
    else ([.prints .fork w.stderr], n + 1)
  | .pipe left right, w, n =>
    if !ok n then ([.prints .pipe w.stderr], n + 1)
    else if !ok (n + 1) then ([.prints .fork w.stderr], n + 2)
    else
      let (out, m) := wired ok left { w with stdout := .pipe n true } (n + 2)
      if ok m then
        let (out', m) := wired ok right { w with stdin := .pipe n false } (m + 1)
        (out ++ out', m)
      else (out ++ [.prints .fork w.stderr], m + 1)
  | .back cmd, w, n => if ok n then wired ok cmd w (n + 1) else ([.prints .fork w.stderr], n + 1)

def Cmd.Std : Cmd σ → Prop
  | .exec _ => True
  | .redir cmd _ _ fd => fd < 2 ∧ cmd.Std
  | .pipe left right => left.Std ∧ right.Std
  | .list left right => left.Std ∧ right.Std
  | .back cmd => cmd.Std

/-! ## The lowest free descriptor -/

namespace Wires

variable (w : Wires σ)

theorem table_redirect {fd : Nat} (h : fd < 2) (f : File σ) :
    update (close fd w.table) fd (some f) = (w.redirect fd f).table := by
  funext i
  obtain rfl | rfl : fd = 0 ∨ fd = 1 := by omega
  all_goals rcases i with _ | _ | _ | i <;> rfl

theorem fdalloc_close {fd : Nat} (h : fd < 2) (f : File σ) :
    fdalloc f (close fd w.table) = some (fd, (w.redirect fd f).table) := by
  rw [← w.table_redirect h]
  obtain rfl | rfl : fd = 0 ∨ fd = 1 := by omega
  all_goals rfl

/-- The table after `pipe(p)`: the two ends are descriptors 3 and 4. -/
def piped (n : Nat) : Table σ := update (update w.table 3 (some (.pipe n false))) 4 (some (.pipe n true))

theorem pipe_eq (n : Nat) : pipe n w.table = some (3, 4, w.piped n) := rfl

/-- The left command has the write end instead of its descriptor 1, and nothing else of the pipe. -/
theorem left_eq (n : Nat) :
    close 4 (close 3 (dup 4 (close 1 (w.piped n)))) = { w with stdout := .pipe n true }.table := by
  have hdup : dup 4 (close 1 (w.piped n)) = update (close 1 (w.piped n)) 1 (some (.pipe n true)) := rfl
  rw [hdup]
  funext i
  rcases i with _ | _ | _ | _ | _ | i <;> rfl

theorem right_eq (n : Nat) :
    close 4 (close 3 (dup 3 (close 0 (w.piped n)))) = { w with stdin := .pipe n false }.table := by
  have hdup : dup 3 (close 0 (w.piped n)) = update (close 0 (w.piped n)) 0 (some (.pipe n false)) := rfl
  rw [hdup]
  funext i
  rcases i with _ | _ | _ | _ | _ | i <;> rfl

end Wires

theorem runcmd_eq (ok : Nat → Bool) {cmd : Cmd σ} (h : cmd.Std) (w : Wires σ) (n : Nat) :
    runcmd ok cmd w.table n = wired ok cmd w n := by
  induction cmd generalizing w n with
  | exec argv => rfl
  | redir cmd file mode fd ih =>
    have herr : close fd w.table 2 = some w.stderr := update_of_ne (by have := h.1; omega) _ _
    simp only [runcmd, wired, w.fdalloc_close h.1, herr, ← ih h.2]
    cases ok n <;> rfl
  | list left right ihl ihr => simp only [runcmd, wired, ihl h.1, ihr h.2]; rfl
  | back cmd ih => simp only [runcmd, wired, ih h]; rfl
  | pipe left right ihl ihr =>
    simp only [runcmd, wired]
    cases ok n with
    | false => rfl
    | true =>
      simp only [if_true, w.pipe_eq, w.left_eq, w.right_eq, ihl h.1, ihr h.2]
      cases ok (n + 1) <;> rfl

/-! ## Command lines -/

theorem std_wrap {rs : List (Redir σ)} (hr : ∀ r ∈ rs, r.fd < 2) {c : Cmd σ} (hc : c.Std) : (wrap rs c).Std := by
  induction rs generalizing c with
  | nil => exact hc
  | cons r rs ih =>
    rw [List.forall_mem_cons] at hr
    exact ih hr.2 ⟨hr.1, hc⟩

theorem std_backs (k : Nat) {c : Cmd σ} (h : c.Std) : (backs k c).Std := by
  induction k generalizing c with
  | zero => exact h
  | succ k ih => exact ih h

theorem IsRedirs.fd_lt {ts rs} (h : IsRedirs ts rs) : ∀ r ∈ rs, r.fd < 2 := by
  induction h with
  | nil => simp
  | cons hr _ ih =>
    refine List.forall_mem_cons.2 ⟨?_, ih⟩
    cases hr <;> simp

theorem IsWords.fd_lt {ts ws rs} (h : IsWords ts ws rs) : ∀ r ∈ rs, r.fd < 2 := by
  induction h with
  | nil => simp
  | cons hr _ ih => exact List.forall_mem_append.2 ⟨hr.fd_lt, ih⟩

theorem IsLine.std {ts c} (h : IsLine ts c) : c.Std := by
  refine @IsLine.rec (fun _ c _ => c.Std) (fun _ c _ => c.Std) (fun _ c _ => c.Std) ?_ ?_ ?_ ?_ ?_ ?_ _ _ h
  · exact fun n _ h => std_backs n h
  · exact fun n _ _ h h' => ⟨std_backs n h, h'⟩
  · exact fun _ h => h
  · exact fun _ _ h h' => ⟨h, h'⟩
  · exact fun _ hr h => std_wrap hr.fd_lt h
  · exact fun hr hw _ => std_wrap (List.forall_mem_append.2 ⟨hr.fd_lt, hw.fd_lt⟩) trivial

/-- Whatever line is run, and whichever calls fail, every command of it starts with three descriptors: those of the
shell, but for what its redirections and pipes replace. No other end of a pipe stays open in any of them. -/
theorem runcmd_wired (ok : Nat → Bool) {ts : List Token} {t : Tree} (h : IsLine ts t) (w : Wires (List UInt8)) (n : Nat) :
    runcmd ok t w.table n = wired ok t w n :=
  runcmd_eq ok h.std w n

/-- The three descriptors that `main` has opened. -/
def console : Wires (List UInt8) := ⟨.opened [] 2 0, .opened [] 2 0, .opened [] 2 0⟩

/-- `a <f | b` -/
theorem runcmd_wired_pipeline : runcmd (fun _ => true)
    (.pipe (.redir (.exec (argv [[ch 'a']])) [ch 'f'] O_RDONLY 0) (.exec (argv [[ch 'b']]))) console.table 1 =
    ([.exec (argv [[ch 'a']]) { console with stdin := .opened [ch 'f'] O_RDONLY 3, stdout := .pipe 1 true }.table,
      .exec (argv [[ch 'b']]) { console with stdin := .pipe 1 false }.table], 7) :=
  runcmd_wired _ (.last 0 (.more (.exec .nil (.cons (.cons (.input _) .nil) .nil) (by decide))
    (.one (.exec .nil (.cons .nil .nil) (by decide))))) console 1

end Xv6.Sh
