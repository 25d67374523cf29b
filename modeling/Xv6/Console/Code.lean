import Mathlib.Algebra.Group.Nat.Defs
import Xv6.Lib.Ring
import Xv6.Lib.Run
/-!
# The console's input

`consoleintr` and `consoleread` of `kernel/console.c`, for any number of
processes. Both hold `cons.lock`, which a reader gives up only where it sleeps,
so an interrupt is one step, and so is what a reader does from `acquire`, or
from the return of `sleep`, to the next `sleep` or to `release`.

The fields of the state from `calls` on are not in the code: they record the
bytes that the write index and the read index have passed, and what the calls
returned.
-/

namespace Xv6.Console

open Function

def INPUT_BUF : Nat := 128
def BACKSPACE : Nat := 0x100

/-- `C(x)`, Control-x -/
def C (x : Char) : UInt8 := UInt8.ofNat (x.toNat - '@'.toNat)

def NEWLINE : UInt8 := 10
def RETURN : UInt8 := 13
def DELETE : UInt8 := 0x7f

/-- `cons`, without its lock; `echo` is what `consputc` has sent to the uart. -/
structure Cons where
  buf : Nat → UInt8
  r : Nat
  w : Nat
  e : Nat
  echo : List UInt8

/-- A difference of `uint`s. -/
@[irreducible] def sub32 (a b : Nat) : Nat := (a + 2 ^ 32 - b) % 2 ^ 32

def consputc (c : Nat) (s : Cons) : Cons :=
  { s with echo := s.echo ++ if c = BACKSPACE then [8, 32, 8] else [UInt8.ofNat c] }

/-- `cons.e--; consputc(BACKSPACE)` -/
def erase (s : Cons) : Cons := consputc BACKSPACE { s with e := sub32 s.e 1 }

/-- The loop for `C('U')`. It ends when `e` has come down to `w`, so it has as many rounds as lie between them. -/
def killLine : Nat → Cons → Cons
  | 0, s => s
  | n + 1, s => if s.e ≠ s.w ∧ s.buf (sub32 s.e 1 % INPUT_BUF) ≠ NEWLINE then killLine n (erase s) else s

/-- The `default` case: store `c`, and move the write index if a line is complete. -/
def store (c : UInt8) (s : Cons) : Cons × Bool :=
  let s := consputc c.toNat s
  let s := { s with buf := update s.buf (s.e % INPUT_BUF) c, e := (s.e + 1) % 2 ^ 32 }
  if c = NEWLINE ∨ c = C 'D' ∨ s.e = (s.r + INPUT_BUF) % 2 ^ 32 then ({ s with w := s.e }, true) else (s, false)

/-- The console after the character, and whether `wakeup(&cons.r)` has been called. What `procdump` prints for `C('P')`
is not modelled. -/
def consoleintr (c : UInt8) (s : Cons) : Cons × Bool :=
  if c = C 'P' then (s, false)
  else if c = C 'U' then (killLine (sub32 s.e s.w) s, false)
  else if c = C 'H' ∨ c = DELETE then (if s.e ≠ s.w then erase s else s, false)
  else if c ≠ 0 ∧ sub32 s.e s.r < INPUT_BUF then store (if c = RETURN then NEWLINE else c) s
  else (s, false)

/-- How a critical section of `consoleread` ends. -/
inductive How where
  /-- `sleep(&cons.r, &cons.lock)` -/
  | sleep
  /-- `return -1` -/
  | fail
  /-- `return target - n` -/
  | done
  deriving DecidableEq

structure Section where
  cons : Cons
  /-- `n` -/
  left : Nat
  /-- The bytes copied out. -/
  out : List UInt8
  how : How

/-- The loop of `consoleread` with `n` bytes to go, up to where it sleeps or returns. `dst i` says whether byte `i` of
the destination is mapped. -/
def consoleread (killed : Bool) (dst : Nat → Bool) (target : Nat) : Nat → Cons → Section
  | 0, s => ⟨s, 0, [], .done⟩
  | n + 1, s =>
    if s.r = s.w then
      ⟨s, n + 1, [], if killed then .fail else .sleep⟩
    else
      let c := s.buf (s.r % INPUT_BUF)
      let s := { s with r := (s.r + 1) % 2 ^ 32 }
      if c = C 'D' then
        ⟨if n + 1 < target then { s with r := sub32 s.r 1 } else s, n + 1, [], .done⟩
      else if !dst (target - (n + 1)) then
        ⟨s, n + 1, [], .done⟩
      else if c = NEWLINE then
        ⟨s, n, [c], .done⟩
      else
        let k := consoleread killed dst target n s
        { k with out := c :: k.out }

/-- A call of `consoleread` in progress, by its number among all calls: the destination, the size asked for, what is
left of it, and what has been copied out. -/
structure Call where
  id : Nat
  dst : Nat → Bool
  n : Int
  left : Nat
  out : List UInt8

/-- Where a process is. -/
inductive Pc where
  | user
  /-- In `consoleread`, about to run with the lock. -/
  | reading (c : Call)
  /-- `SLEEPING` on `&cons.r` -/
  | sleeping (c : Call)

/-- `wakeup(&cons.r)` -/
def Pc.wake : Pc → Pc
  | .sleeping c => .reading c
  | pc => pc

/-- The call that a process is in. -/
def Pc.call : Pc → Option Call
  | .user => none
  | .reading c | .sleeping c => some c

/-- A call that has returned, with its result and what it copied out. -/
structure Ret (P : Type) where
  proc : P
  id : Nat
  n : Int
  value : Int
  out : List UInt8

structure St (P : Type) where
  cons : Cons
  pc : P → Pc
  killed : P → Bool
  calls : Nat
  /-- The bytes committed, oldest first. -/
  stream : List UInt8
  /-- The bytes that have left the buffer, oldest first, and by which call. -/
  log : List (Nat × UInt8)
  rets : List (Ret P)

inductive Event (P : Type) where
  /-- `consoleintr(c)` -/
  | intr (c : UInt8)
  /-- `p` calls `consoleread`. -/
  | call (p : P) (dst : Nat → Bool) (n : Int)
  /-- A critical section of `consoleread`. -/
  | read (p : P)
  /-- `kill` of `p`, by any process. -/
  | kill (p : P)

/-- `n` bytes of the buffer from index `i` on. -/
def slice (buf : Nat → UInt8) (i n : Nat) : List UInt8 := (List.range n).map fun k => buf ((i + k) % INPUT_BUF)

variable {P : Type} [DecidableEq P]

/-- The state after a critical section of the call `c` of `p`. -/
def afterRead (s : St P) (p : P) (c : Call) (k : Section) : St P :=
  let c' := { c with left := k.left, out := c.out ++ k.out }
  let s' := { s with
    cons := k.cons
    log := s.log ++ (slice s.cons.buf s.cons.r (sub32 k.cons.r s.cons.r)).map fun b => (c.id, b) }
  match k.how with
  | .sleep => { s' with pc := update s.pc p (.sleeping c') }
  | .fail => { s' with pc := update s.pc p .user, rets := s.rets ++ [⟨p, c.id, c.n, -1, c'.out⟩] }
  | .done => { s' with
      pc := update s.pc p .user
      rets := s.rets ++ [⟨p, c.id, c.n, (c.n.toNat - k.left : Nat), c'.out⟩] }

/-- The state after an event, if it is possible. -/
def next (s : St P) : Event P → Option (St P)
  | .intr c =>
    let k := consoleintr c s.cons
    some { s with
      cons := k.1
      pc := if k.2 then fun q => (s.pc q).wake else s.pc
      stream := s.stream ++ slice k.1.buf s.cons.w (sub32 k.1.w s.cons.w) }
  | .call p dst n =>
    match s.pc p with
    | .user => some { s with
        pc := update s.pc p (.reading ⟨s.calls, dst, n, n.toNat, []⟩)
        calls := s.calls + 1 }
    | _ => none
  | .read p =>
    match s.pc p with
    | .reading c => some (afterRead s p c (consoleread (s.killed p) c.dst c.n.toNat c.left s.cons))
    | _ => none
  | .kill p => some { s with
      killed := update s.killed p true
      pc := update s.pc p (s.pc p).wake }

def Step (s : St P) (ev : Event P) (s' : St P) : Prop := next s ev = some s'

/-- The bytes that have been committed and not read: `buf[r..w)`. -/
def Cons.queue (s : Cons) : List UInt8 := slice s.buf s.r (sub32 s.w s.r)

/-- The bytes that can still be edited: `buf[w..e)`. -/
def Cons.pending (s : Cons) : List UInt8 := slice s.buf s.w (sub32 s.e s.w)

/-- The indices are in order, and no newline waits to be committed. -/
structure Valid (s : Cons) : Prop where
  r : s.r < 2 ^ 32
  w : s.w < 2 ^ 32
  e : s.e < 2 ^ 32
  order : sub32 s.w s.r ≤ sub32 s.e s.r
  fits : sub32 s.e s.r ≤ INPUT_BUF
  clean : NEWLINE ∉ s.pending

/-- Nobody is in a call yet; the indices are anywhere, and there may be input already. -/
structure Init (s : St P) : Prop where
  valid : Valid s.cons
  pc : ∀ p, s.pc p = .user
  stream : s.stream = s.cons.queue
  log : s.log = []
  rets : s.rets = []

/-- Calls ask for a positive number of bytes and have mapped destinations. -/
def Proper (_ : St P) : Event P → Prop
  | .call _ dst n => 0 < n ∧ ∀ i < n.toNat, dst i = true
  | _ => True

abbrev Reachable (s : St P) : Prop := Run.Reach Init (Run.When Step Proper) s

/-- An empty console with its indices at `i`. -/
def start (P : Type) (i : Nat) : St P where
  cons := ⟨fun _ => 0, i, i, i, []⟩
  pc := fun _ => .user
  killed := fun _ => false
  calls := 0
  stream := []
  log := []
  rets := []

end Xv6.Console
