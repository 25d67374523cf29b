import Mathlib.Init
import Xv6.Lib.Run
/-!
# The prime sieve

`concurrent_prime` and `concurrent_prime_recur` of `user/primes.c`, where `pipe`,
`fork`, `read`, `write` and `close` succeed. A pipe holds any number of values:
the runs in which a `write` waits for room are among those here. What a process
does on its own (`sleep`, closing an end that it does not use, `block_close` of
the pipe it has read to the end) is part of the step next to it.

A `read` of a pipe that is empty and has no writer any more returns 0 and leaves
the variable as it is. Here it may then have any value.
-/

namespace Xv6.Primes

open Run

/-- `concurrent_prime_recur` up to its `fork`. -/
inductive Alone where
  /-- `read(pip_read_fd,&elem,sizeof(int))` -/
  | first
  /-- `order_print("prime %d\n",elem)` -/
  | print (elem : Int)
  /-- `read(pip_read_fd,&elem2,sizeof(int))` -/
  | second (elem : Int)
  /-- `pipe(p)` and `fork()` -/
  | fork (elem elem2 : Int)
  | done

/-- `concurrent_prime_recur` in the parent, after `fork`. -/
inductive Parent where
  /-- `write(p[Pipe_Write_Id],&elem2,sizeof(elem2))` -/
  | send (elem elem2 : Int)
  /-- `__read` -/
  | loop (elem : Int)
  /-- `write(p[Pipe_Write_Id],&elem2,sizeof(int))` with the -1 -/
  | sendEnd
  /-- `block_close(p[Pipe_Write_Id])` -/
  | close
  | done

/-- The stages from one on: the contents of the pipe that it reads, how often it has read -1 and where it is. -/
inductive Chain where
  | last (q : List Int) (ends : Nat) (pc : Alone)
  | link (q : List Int) (ends : Nat) (pc : Parent) (next : Chain)

/-- `write` to the pipe of the first of the stages. -/
def Chain.push (x : Int) : Chain → Chain
  | .last q n pc => .last (q ++ [x]) n pc
  | .link q n pc c => .link (q ++ [x]) n pc c

/-- `read` from a pipe with contents `q`, which has no writer if `closed`. -/
def Takes (closed : Prop) (q : List Int) (x : Int) (q' : List Int) : Prop :=
  q = x :: q' ∨ closed ∧ q = [] ∧ q' = []

/-- A step of one of the stages, and the line that it prints. -/
inductive Chain.Step : Prop → Chain → Option Int → Chain → Prop
  | firstEnd {closed q n q'} : Takes closed q (-1) q' →
      Step closed (.last q n .first) none (.last q' (n + 1) .done)
  | first {closed q n x q'} : Takes closed q x q' → x ≠ -1 →
      Step closed (.last q n .first) none (.last q' n (.print x))
  | print {closed q n e} : Step closed (.last q n (.print e)) (some e) (.last q n (.second e))
  | secondEnd {closed q n e q'} : Takes closed q (-1) q' →
      Step closed (.last q n (.second e)) none (.last q' (n + 1) .done)
  | second {closed q n e x q'} : Takes closed q x q' → x ≠ -1 →
      Step closed (.last q n (.second e)) none (.last q' n (.fork e x))
  | fork {closed q n e x} :
      Step closed (.last q n (.fork e x)) none (.link q n (.send e x) (.last [] 0 .first))
  | send {closed q n e x c} : Step closed (.link q n (.send e x) c) none (.link q n (.loop e) (c.push x))
  | loopEnd {closed q n e q' c} : Takes closed q (-1) q' →
      Step closed (.link q n (.loop e) c) none (.link q' (n + 1) .sendEnd c)
  | keep {closed q n e x q' c} : Takes closed q x q' → x ≠ -1 → x.tmod e ≠ 0 →
      Step closed (.link q n (.loop e) c) none (.link q' n (.send e x) c)
  | drop {closed q n e x q' c} : Takes closed q x q' → x ≠ -1 → x.tmod e = 0 →
      Step closed (.link q n (.loop e) c) none (.link q' n (.loop e) c)
  | sendEnd {closed q n c} : Step closed (.link q n .sendEnd c) none (.link q n .close (c.push (-1)))
  | close {closed q n c} : Step closed (.link q n .close c) none (.link q n .done c)
  | next {closed q n pc c line c'} : Step (pc = .done) c line c' →
      Step closed (.link q n pc c) line (.link q n pc c')

/-- `concurrent_prime` in the parent. -/
inductive Gen where
  /-- `order_print("prime %d\n",2)` -/
  | print
  /-- The test of the `for` loop, and `i%elem!=0`. -/
  | loop (i : Int)
  /-- `write(p[Pipe_Write_Id],&i,sizeof(i))` -/
  | send (i : Int)
  /-- `write(p[Pipe_Write_Id],&elem,sizeof(int))` with the -1 -/
  | sendEnd
  /-- `block_close(p[Pipe_Write_Id])` -/
  | close
  | done

/-- `i++` on an `int` -/
def inc (i : Int) : Int := (i + 1).bmod 4294967296

structure St where
  gen : Gen
  chain : Chain
  /-- The numbers of the lines `prime p` printed so far. -/
  out : List Int

inductive Step (num : Int) : St → Option Int → St → Prop
  | print {c out} : Step num ⟨.print, c, out⟩ (some 2) ⟨.loop 3, c, out ++ [2]⟩
  | odd {i c out} : i ≤ num → i.tmod 2 ≠ 0 → Step num ⟨.loop i, c, out⟩ none ⟨.send i, c, out⟩
  | even {i c out} : i ≤ num → i.tmod 2 = 0 → Step num ⟨.loop i, c, out⟩ none ⟨.loop (inc i), c, out⟩
  | stop {i c out} : ¬ i ≤ num → Step num ⟨.loop i, c, out⟩ none ⟨.sendEnd, c, out⟩
  | send {i c out} : Step num ⟨.send i, c, out⟩ none ⟨.loop (inc i), c.push i, out⟩
  | sendEnd {c out} : Step num ⟨.sendEnd, c, out⟩ none ⟨.close, c.push (-1), out⟩
  | close {c out} : Step num ⟨.close, c, out⟩ none ⟨.done, c, out⟩
  | stage {g c out line c'} : Chain.Step (g = .done) c line c' →
      Step num ⟨g, c, out⟩ line ⟨g, c', out ++ line.toList⟩

def init : St := { gen := .print, chain := .last [] 0 .first, out := [] }

def Reachable (num : Int) (s : St) : Prop := Reach (· = init) (Step num) s

def Chain.Finished : Chain → Prop
  | .last _ _ pc => pc = .done
  | .link _ _ pc c => pc = .done ∧ c.Finished

def St.Finished (s : St) : Prop := s.gen = .done ∧ s.chain.Finished

/-- The stage will not read again. -/
def Alone.stopped : Alone → Bool
  | .done => true
  | .first | .print _ | .second _ | .fork _ _ => false

def Parent.stopped : Parent → Bool
  | .sendEnd | .close | .done => true
  | .send _ _ | .loop _ => false

/-- Every stage stops when it reads -1, and reads no second one. -/
def Chain.StopsOnce : Chain → Prop
  | .last _ n pc => n = if pc.stopped then 1 else 0
  | .link _ n pc c => (n = if pc.stopped then 1 else 0) ∧ c.StopsOnce

end Xv6.Primes
