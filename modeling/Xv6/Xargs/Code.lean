import Xv6.Ulib
/-!
# xargs

`user/xargs.c`: the input is copied byte by byte into a buffer of 512 bytes, with a NUL
for each separator, and the commands point into it. An access outside the buffer, outside
the array of arguments or past the end of a string ends the run with `none`.
-/

namespace Xv6.Xargs

open Ulib

inductive Mode where
  | oneShot
  | eachLine
  deriving DecidableEq

/-- A `char *`: null, an argument of the program, or a place in `vc.buff`. -/
inductive Ptr where
  | null
  | argv (i : Nat)
  | buff (i : Nat)
  deriving DecidableEq

def Cmd_max_arg_cnt : Nat := 10

/-- `args` has `Cmd_max_arg_cnt + 1` places. -/
structure Cmd where
  args : List Ptr
  arg_cnt : Nat
  deriving DecidableEq

/-- `cmd.args[cmd.arg_cnt] = p` -/
def Cmd.put (cmd : Cmd) (p : Ptr) : Option Cmd :=
  if cmd.arg_cnt < cmd.args.length then some { cmd with args := cmd.args.set cmd.arg_cnt p } else none

/-- The loop of `Cmd_make` and `Cmd_append_make` over a null-terminated array of pointers,
and the null pointer behind the arguments. -/
def Cmd_append_make : Cmd → List Ptr → Option Cmd
  | cmd, [] => if cmd.arg_cnt < Cmd_max_arg_cnt then none else cmd.put .null
  | cmd, p :: append =>
    if cmd.arg_cnt < Cmd_max_arg_cnt ∧ p ≠ .null then do
      let cmd ← cmd.put p
      Cmd_append_make { cmd with arg_cnt := cmd.arg_cnt + 1 } append
    else
      cmd.put .null

/-- `memset` has cleared the command, so that `args[cmd.arg_cnt]` starts with the first. -/
def Cmd_make (args : List Ptr) : Option Cmd :=
  Cmd_append_make ⟨List.replicate (Cmd_max_arg_cnt + 1) .null, 0⟩ args

def Cmd_append_one_make (cmd : Cmd) (append : Ptr) : Option Cmd := Cmd_append_make cmd [append, .null]

/-- A C string. -/
def cstr : List UInt8 → Option (List UInt8)
  | [] => none
  | c :: s => if c = 0 then some [] else (cstr s).map (c :: ·)

section Run
variable (argv : List (List UInt8)) (mode : Mode)

/-- The string a pointer leads to. -/
def Ptr.str (buff : List UInt8) : Ptr → Option (List UInt8)
  | .null => none
  | .argv i => argv[i]?
  | .buff i => cstr (buff.drop i)

/-- The arguments that `exec` takes from an array. -/
def execArgs (buff : List UInt8) : List Ptr → Option (List (List UInt8))
  | [] => none
  | p :: args => if p = .null then some [] else do return (← p.str argv buff) :: (← execArgs buff args)

/-- The variables of `xargs`, and the argument vectors that have been given to `exec`. -/
structure St where
  buff : List UInt8
  vc_i : Nat
  begin : Nat
  cmd : Cmd
  cmd1 : Cmd
  execs : List (List (List UInt8))

/-- The child calls `exec`; a command without a name is refused. -/
def Cmd_exec_in_child_process (s : St) (cmd : Cmd) : Option St := do
  if (← cmd.args.head?) = .null then return s
  return { s with execs := s.execs ++ [← execArgs argv s.buff cmd.args] }

def isSep (c : UInt8) : Bool := c = '\n'.toUInt8 || c = '*'.toUInt8 || c = ' '.toUInt8

/-- What a separator does, after its NUL has been stored. -/
def separate (s : St) (buf : UInt8) : Option St :=
  match mode with
  | .eachLine =>
    if buf = '\n'.toUInt8 ∨ buf = '*'.toUInt8 then do
      let cmd1 ← Cmd_append_one_make s.cmd1 (.buff s.begin)
      let s ← Cmd_exec_in_child_process argv { s with cmd1 } cmd1
      return { s with cmd1 := s.cmd }
    else if s.vc_i - s.begin > 1 then do
      return { s with cmd1 := ← Cmd_append_one_make s.cmd1 (.buff s.begin) }
    else
      return s
  | .oneShot => do return { s with cmd := ← Cmd_append_one_make s.cmd (.buff s.begin) }

/-- A round of the loop, for a byte that has been read. -/
def step (s : St) (buf : UInt8) : Option St := do
  if isSep buf then
    let buff ← store s.buff s.vc_i 0
    let s ← separate argv mode { s with buff, vc_i := s.vc_i + 1 } buf
    return { s with begin := s.vc_i }
  else
    let buff ← store s.buff s.vc_i buf
    return { s with buff, vc_i := s.vc_i + 1 }

/-- The vectors given to `exec` on the input `inp`, with `buff` from `Vec_char_malloc`. -/
def xargs (cmd : Cmd) (buff inp : List UInt8) : Option (List (List (List UInt8))) := do
  let s ← inp.foldlM (step argv mode) ⟨buff, 0, 0, cmd, cmd, []⟩
  match mode with
  | .oneShot => return (← Cmd_exec_in_child_process argv s s.cmd).execs
  | .eachLine => return s.execs

/-- `main`, where `argv` are the arguments after the program's name and `mode` is fixed. -/
def main (buff inp : List UInt8) : Option (List (List (List UInt8))) := do
  let cmd ← Cmd_make ((List.range argv.length).map Ptr.argv ++ [.null])
  xargs argv mode cmd buff inp

end Run

end Xv6.Xargs
