import Mathlib.Init
import Xv6.Sh.Code
/-!
# The shell's grammar

The tokens of a string, and the trees of the token sequences that the grammar
derives:

    line  ::= pipe '&'* [';' line]
    pipe  ::= cmd ['|' pipe]
    cmd   ::= '(' line ')' redir* | redir* (word redir*)*     with at most 9 words
    redir ::= ('<' | '>' | '>>') word
-/

namespace Xv6.Sh

inductive Token where
  | bar
  | lparen
  | rparen
  | semi
  | amp
  | lt
  | gt
  | gtgt
  | word (w : List UInt8)
  deriving DecidableEq

def isBlank (c : UInt8) : Bool := strchr whitespace c

/-- Neither whitespace nor a symbol. -/
def isWord (c : UInt8) : Bool := !strchr whitespace c && !strchr symbols c

/-- The tokens of a string: the symbols, `>>` as one, and the maximal runs of other characters that are not blank. -/
def tokens : List UInt8 → List Token
  | [] => []
  | c :: s =>
    if isBlank c then tokens s
    else if c = ch '|' then .bar :: tokens s
    else if c = ch '(' then .lparen :: tokens s
    else if c = ch ')' then .rparen :: tokens s
    else if c = ch ';' then .semi :: tokens s
    else if c = ch '&' then .amp :: tokens s
    else if c = ch '<' then .lt :: tokens s
    else if c = ch '>' then
      if s.head? = some (ch '>') then .gtgt :: tokens s.tail else .gt :: tokens s
    else .word (c :: s.takeWhile isWord) :: tokens (s.dropWhile isWord)
termination_by s => s.length
decreasing_by
  all_goals simp only [List.length_cons]
  all_goals
    have htail := List.length_tail (l := s)
    have hdrop := (List.dropWhile_suffix isWord (l := s)).length_le
    omega

/-- The trees of the grammar, with the words themselves. -/
abbrev Tree := Cmd (List UInt8)

/-- A redirection: the file, the mode and the descriptor. -/
structure Redir (σ : Type) where
  file : σ
  mode : Nat
  fd : Nat

/-- The redirections go around the command, the first one innermost. -/
def wrap {σ : Type} (rs : List (Redir σ)) (cmd : Cmd σ) : Cmd σ :=
  rs.foldl (fun c r => .redir c r.file r.mode r.fd) cmd

/-- The words in order, and 0 after them. -/
def argv {σ : Type} (ws : List σ) : List (Option σ) := ws.map some ++ List.replicate (MAXARGS - ws.length) none

/-- `cmd &` as often as there are `&`. -/
def backs {σ : Type} : Nat → Cmd σ → Cmd σ
  | 0, cmd => cmd
  | n + 1, cmd => backs n (.back cmd)

/-- redir -/
inductive IsRedir : List Token → Redir (List UInt8) → Prop
  | input (w) : IsRedir [.lt, .word w] ⟨w, O_RDONLY, 0⟩
  | output (w) : IsRedir [.gt, .word w] ⟨w, O_WRONLY ||| O_CREATE ||| O_TRUNC, 1⟩
  | append (w) : IsRedir [.gtgt, .word w] ⟨w, O_WRONLY ||| O_CREATE, 1⟩

/-- redir* -/
inductive IsRedirs : List Token → List (Redir (List UInt8)) → Prop
  | nil : IsRedirs [] []
  | cons {ts us r rs} : IsRedir ts r → IsRedirs us rs → IsRedirs (ts ++ us) (r :: rs)

/-- (word redir*)* -/
inductive IsWords : List Token → List (List UInt8) → List (Redir (List UInt8)) → Prop
  | nil : IsWords [] [] []
  | cons {w ts us rs ws rs'} : IsRedirs ts rs → IsWords us ws rs' → IsWords (.word w :: ts ++ us) (w :: ws) (rs ++ rs')

mutual

/-- line -/
inductive IsLine : List Token → Tree → Prop
  | last {ts c} (n) : IsPipe ts c → IsLine (ts ++ List.replicate n .amp) (backs n c)
  | seq {ts c us d} (n) : IsPipe ts c → IsLine us d →
      IsLine (ts ++ List.replicate n .amp ++ .semi :: us) (.list (backs n c) d)

/-- pipe -/
inductive IsPipe : List Token → Tree → Prop
  | one {ts c} : IsCmd ts c → IsPipe ts c
  | more {ts c us d} : IsCmd ts c → IsPipe us d → IsPipe (ts ++ .bar :: us) (.pipe c d)

/-- cmd -/
inductive IsCmd : List Token → Tree → Prop
  | block {ts c us rs} : IsLine ts c → IsRedirs us rs → IsCmd (.lparen :: ts ++ .rparen :: us) (wrap rs c)
  | exec {ts rs us ws rs'} : IsRedirs ts rs → IsWords us ws rs' → ws.length ≤ 9 →
      IsCmd (ts ++ us) (wrap (rs ++ rs') (.exec (argv ws)))

end

end Xv6.Sh
