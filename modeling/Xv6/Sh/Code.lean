import Xv6.Lib.Hoare
/-!
# The shell's parser

`user/sh.c` from `gettoken` to `nulterminate`. The input is a buffer `buf` that
holds a NUL-terminated string; a `char *` is an index into it, and the state of
the parsing functions is `*ps`. Memory for the tree and the stack are not bounded
here; `n` bounds the recursion, and the depth is shown to be enough.
-/

namespace Xv6.Sh

open Hoare

def MAXARGS : Nat := 10

def O_RDONLY : Nat := 0x000
def O_WRONLY : Nat := 0x001
def O_CREATE : Nat := 0x200
def O_TRUNC : Nat := 0x400

def ch (c : Char) : UInt8 := UInt8.ofNat c.toNat

/-- `char whitespace[] = " \t\r\n\v"` -/
def whitespace : List UInt8 := [ch ' ', ch '\t', ch '\r', ch '\n', 11]

/-- `char symbols[] = "<|>&;()"` -/
def symbols : List UInt8 := [ch '<', ch '|', ch '>', ch '&', ch ';', ch '(', ch ')']

/-- The commands, with their strings in `σ`. An `argv` has `MAXARGS` places. -/
inductive Cmd (σ : Type) where
  | exec (argv : List (Option σ))
  | redir (cmd : Cmd σ) (file : σ) (mode fd : Nat)
  | pipe (left right : Cmd σ)
  | list (left right : Cmd σ)
  | back (cmd : Cmd σ)
  deriving DecidableEq

/-- The ends of a string: `q` and `eq`. -/
structure Span where
  q : Nat
  eq : Nat
  deriving DecidableEq

inductive Panic where
  /-- "missing file for redirection" -/
  | missingFile
  /-- "parseblock" -/
  | parseblock
  /-- "syntax - missing )" -/
  | missingParen
  /-- "syntax" -/
  | badToken
  /-- "too many args" -/
  | tooManyArgs
  /-- "syntax", after "leftovers: %s" -/
  | leftovers
  /-- The bound on the recursion has been reached; there is none in the code. -/
  | deep
  deriving DecidableEq

abbrev P := Prog Nat Panic

def charAt (buf : List UInt8) (s : Nat) : UInt8 := buf.getD s 0

def strlen (buf : List UInt8) : Nat := (buf.takeWhile (· ≠ 0)).length

/-- `strchr` as a truth value. The search ends at the NUL, so it never finds one. -/
def strchr (set : List UInt8) (c : UInt8) : Bool := set.contains c

section Parser
variable (buf : List UInt8) (es : Nat)

/-- `while(s < es && p(*s)) s++`, with at most `n` rounds. -/
def scan (p : UInt8 → Bool) : Nat → Nat → Nat
  | 0, s => s
  | n + 1, s => if s < es ∧ p (charAt buf s) then scan p n (s + 1) else s

/-- `while(s < es && strchr(whitespace, *s)) s++` -/
def skip (s : Nat) : Nat := scan buf es (strchr whitespace) (es - s) s

/-- `while(s < es && !strchr(whitespace, *s) && !strchr(symbols, *s)) s++` -/
def word (s : Nat) : Nat := scan buf es (fun c => !strchr whitespace c && !strchr symbols c) (es - s) s

/-- The token, and `*q` and `*eq`. -/
def gettoken : P (UInt8 × Span) := do
  let q := skip buf es (← get)
  let c := charAt buf q
  let (ret, eq) :=
    if c = 0 then (c, q)
    else if c = ch '|' ∨ c = ch '(' ∨ c = ch ')' ∨ c = ch ';' ∨ c = ch '&' ∨ c = ch '<' then (c, q + 1)
    else if c = ch '>' then if charAt buf (q + 1) = ch '>' then (ch '+', q + 2) else (c, q + 1)
    else (ch 'a', word buf es q)
  set (skip buf es eq)
  return (ret, ⟨q, eq⟩)

def peek (toks : List UInt8) : P Bool := do
  let s := skip buf es (← get)
  set s
  let c := charAt buf s
  return c ≠ 0 && strchr toks c

/-- The `switch` of `parseredirs`. -/
def redircmd (cmd : Cmd Span) (file : Span) (tok : UInt8) : Cmd Span :=
  if tok = ch '<' then .redir cmd file O_RDONLY 0
  else if tok = ch '>' then .redir cmd file (O_WRONLY ||| O_CREATE ||| O_TRUNC) 1
  else if tok = ch '+' then .redir cmd file (O_WRONLY ||| O_CREATE) 1
  else cmd

def parseredirs : Nat → Cmd Span → P (Cmd Span)
  | 0, _ => throw .deep
  | n + 1, cmd => do
    if ← peek buf es [ch '<', ch '>'] then
      let (tok, _) ← gettoken buf es
      let (a, file) ← gettoken buf es
      if a ≠ ch 'a' then throw .missingFile
      parseredirs n (redircmd cmd file tok)
    else
      return cmd

def execcmd : Cmd Span := .exec (List.replicate MAXARGS none)

/-- `cmd->argv[argc] = q; cmd->eargv[argc] = eq`, where `cmd` is the `EXEC` node inside of `ret`. -/
def setArg (argc : Nat) (arg : Option Span) : Cmd Span → Cmd Span
  | .exec argv => .exec (argv.set argc arg)
  | .redir cmd file mode fd => .redir (setArg argc arg cmd) file mode fd
  | ret => ret

/-- The loop of `parseexec` and what comes after it. -/
def parseargs : Nat → Cmd Span → Nat → P (Cmd Span)
  | 0, _, _ => throw .deep
  | n + 1, ret, argc => do
    if ← peek buf es [ch '|', ch ')', ch '&', ch ';'] then
      return setArg argc none ret
    let (tok, arg) ← gettoken buf es
    if tok = 0 then return setArg argc none ret
    if tok ≠ ch 'a' then throw .badToken
    if argc + 1 ≥ MAXARGS then throw .tooManyArgs
    let ret ← parseredirs buf es n (setArg argc (some arg) ret)
    parseargs n ret (argc + 1)

/-- `line` is the call of `parseline`. -/
def parseblock (line : P (Cmd Span)) (n : Nat) : P (Cmd Span) := do
  if !(← peek buf es [ch '(']) then throw .parseblock
  let _ ← gettoken buf es
  let cmd ← line
  if !(← peek buf es [ch ')']) then throw .missingParen
  let _ ← gettoken buf es
  parseredirs buf es n cmd

def parseexec (line : P (Cmd Span)) (n : Nat) : P (Cmd Span) := do
  if ← peek buf es [ch '('] then
    parseblock buf es line n
  else
    let ret ← parseredirs buf es n execcmd
    parseargs buf es n ret 0

def parsepipe (line : P (Cmd Span)) : Nat → P (Cmd Span)
  | 0 => throw .deep
  | n + 1 => do
    let cmd ← parseexec buf es line (n + 1)
    if ← peek buf es [ch '|'] then
      let _ ← gettoken buf es
      return .pipe cmd (← parsepipe line n)
    else
      return cmd

/-- The loop of `parseline`. -/
def parsebacks : Nat → Cmd Span → P (Cmd Span)
  | 0, _ => throw .deep
  | n + 1, cmd => do
    if ← peek buf es [ch '&'] then
      let _ ← gettoken buf es
      parsebacks n (.back cmd)
    else
      return cmd

def parseline : Nat → P (Cmd Span)
  | 0 => throw .deep
  | n + 1 => do
    let cmd ← parsepipe buf es (parseline n) (n + 1)
    let cmd ← parsebacks buf es (n + 1) cmd
    if ← peek buf es [ch ';'] then
      let _ ← gettoken buf es
      return .list cmd (← parseline n)
    else
      return cmd

end Parser

/-- `*eq = 0` for every string. -/
def nulterminate : Cmd Span → List UInt8 → List UInt8
  | .exec argv, buf => (argv.takeWhile Option.isSome).foldl (fun b arg => b.set (arg.elim 0 Span.eq) 0) buf
  | .redir cmd file _ _, buf => (nulterminate cmd buf).set file.eq 0
  | .pipe left right, buf => nulterminate right (nulterminate left buf)
  | .list left right, buf => nulterminate right (nulterminate left buf)
  | .back cmd, buf => nulterminate cmd buf

/-- The tree for the string at the start of `buf`, and the buffer after `nulterminate`. -/
def parsecmd (buf : List UInt8) : Except Panic (Cmd Span × List UInt8) :=
  let es := strlen buf
  let parse : P (Cmd Span) := do
    let cmd ← parseline buf es (es + 1)
    let _ ← peek buf es []
    if (← get) ≠ es then throw .leftovers
    return cmd
  (exec parse 0).1.map fun cmd => (cmd, nulterminate cmd buf)

/-- The C string at `s`. -/
def cstring (buf : List UInt8) (s : Nat) : List UInt8 := (buf.drop s).takeWhile (· ≠ 0)

def Cmd.map {σ τ : Type} (f : σ → τ) : Cmd σ → Cmd τ
  | .exec argv => .exec (argv.map (Option.map f))
  | .redir cmd file mode fd => .redir (cmd.map f) (f file) mode fd
  | .pipe left right => .pipe (left.map f) (right.map f)
  | .list left right => .list (left.map f) (right.map f)
  | .back cmd => .back (cmd.map f)

/-- The tree with the strings that its pointers point to. -/
def Cmd.strings (buf : List UInt8) (cmd : Cmd Span) : Cmd (List UInt8) := cmd.map fun arg => cstring buf arg.q

end Xv6.Sh
