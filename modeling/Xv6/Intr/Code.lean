import Xv6.Sched.Code
/-!
# `push_off`, `pop_off` and the scheduler

`kernel/spinlock.c`, and what `scheduler`, `sched` and `forkret` of
`kernel/proc.c` do to `noff`, `intena` and the interrupt flag of a CPU. Any
number of CPUs and processes are interleaved. `noff` and `intena` are only used
by their own CPU, and `push_off` and `pop_off` only touch them with interrupts
off, so `push_off` is two steps, before and after `intr_off()`, and `pop_off` is
one.

What threads do between the calls is left open: they take and release spinlocks
and call `push_off` and `pop_off` as they like, as long as they undo what they
have done, and change the interrupt flag while nothing is to be undone (so do
`usertrap` and `usertrapret`). `yield` and `sleep` are `acquire(&p->lock)`, a
`release` of the caller's lock, `sched()` and the way back. An interrupt strikes
wherever the flag is set, and its handler returns to where it struck.
-/

namespace Xv6.Intr

open Function

open Sched (Lock)

/-- `struct cpu`; `intr`: interrupts are enabled. -/
structure Cpu where
  noff : Nat
  intena : Bool
  intr : Bool

inductive Panic where
  /-- "pop_off - interruptible" -/
  | popOffInterruptible
  /-- "pop_off" -/
  | popOff
  /-- "sched locks" -/
  | schedLocks
  /-- "sched interruptible" -/
  | schedInterruptible

/-- `push_off` after `old = intr_get()` -/
def Cpu.pushOff (k : Cpu) (old : Bool) : Cpu :=
  { noff := k.noff + 1, intena := if k.noff = 0 then old else k.intena, intr := false }

def Cpu.popOff (k : Cpu) : Except Panic Cpu :=
  if k.intr = true then .error .popOffInterruptible
  else if k.noff < 1 then .error .popOff
  else if k.noff - 1 = 0 ∧ k.intena = true then .ok { k with noff := k.noff - 1, intr := true }
  else .ok { k with noff := k.noff - 1 }

/-- The tests of `sched` on the CPU. -/
def Cpu.schedTests (k : Cpu) : Except Panic Unit :=
  if k.noff ≠ 1 then .error .schedLocks else if k.intr = true then .error .schedInterruptible else .ok ()

/-- Where a thread is. An `e : Option Lock` says whether `push_off` or `pop_off` belongs to a spinlock. -/
inductive Pc where
  | run
  /-- `push_off` has read the flag. -/
  | push (e : Option Lock) (old : Bool)
  /-- `acquire`, after its `push_off`. -/
  | spin (l : Lock)
  /-- `release`, before its `pop_off`. -/
  | pop (l : Lock)
  /-- `sched`, back from `swtch`, at `mycpu()->intena = intena`. -/
  | sched (intena : Bool)

structure Thread where
  pc : Pc
  /-- Where interrupts have struck, the last one first. -/
  below : List Pc
  /-- The calls of `push_off` that have not been undone. -/
  offs : List (Option Lock)
  /-- Not in the code: whether interrupts were enabled at the outermost of them. Empty if that was not a call of the
  thread's, but one of the scheduler's that `forkret` undoes. -/
  was : Option Bool

inductive Ctx (C : Type) where
  | proc (t : Nat)
  | sched (c : C)
  deriving DecidableEq

structure St (C : Type) where
  cpu : C → Cpu
  /-- The process that a CPU executes; if none, it executes its scheduler. -/
  cur : C → Option Nat
  th : Ctx C → Thread
  /-- The registers of the process are in `p->context`. -/
  parked : Nat → Bool
  lock : Lock → Option C
  panic : Option Panic

/-- A process that begins at `forkret`, where it releases `p->lock`. -/
def Thread.fresh (t : Nat) : Thread := ⟨.run, [], [some (.proc t)], none⟩

/-- Where `acquire` or `push_off` goes on. -/
def afterPush : Option Lock → Pc
  | none => .run
  | some l => .spin l

/-- `push_off` has turned interrupts off on the CPU `k`. -/
def Thread.pushed (th : Thread) (k : Cpu) (e : Option Lock) : Thread :=
  { th with
    pc := afterPush e
    offs := e :: th.offs
    was := if th.offs = [] then some k.intr else th.was }

def Thread.popped (th : Thread) (e : Option Lock) : Thread := { th with pc := .run, offs := th.offs.erase e }

/-- The thread is at `pop_off`, on its own or in `release`. -/
def Thread.Pops (th : Thread) : Option Lock → Prop
  | none => th.pc = .run ∧ none ∈ th.offs
  | some l => th.pc = .pop l

variable {C : Type}

def St.on (s : St C) (c : C) : Ctx C := ((s.cur c).map Ctx.proc).getD (.sched c)

def St.now (s : St C) (c : C) : Thread := s.th (s.on c)

variable [DecidableEq C]

def St.put (s : St C) (c : C) (k : Cpu) (th : Thread) : St C :=
  { s with cpu := update s.cpu c k, th := update s.th (s.on c) th }

inductive Act where
  | intr (b : Bool)
  | trap
  | sret
  | call (e : Option Lock)
  | push
  | lock
  | release (l : Lock)
  | pop (e : Option Lock)
  | sched
  | resume (t : Nat)
  | restore
  | fork (t : Nat)

inductive Step (s : St C) : C × Act → St C → Prop
  /-- `intr_on()`, `intr_off()`, a trap from user space -/
  | intr {c b} : (s.now c).pc = .run → (s.now c).offs = [] →
      Step s (c, .intr b) (s.put c { s.cpu c with intr := b } (s.now c))
  | trap {c} : (s.cpu c).intr = true →
      Step s (c, .trap) (s.put c { s.cpu c with intr := false }
        { s.now c with pc := .run, below := (s.now c).pc :: (s.now c).below })
  | sret {c k ks} : (s.now c).pc = .run → (s.now c).offs = [] → (s.now c).below = k :: ks →
      Step s (c, .sret) (s.put c { s.cpu c with intr := true } { s.now c with pc := k, below := ks })
  /-- `old = intr_get()` of `push_off` -/
  | call {c e} : (s.now c).pc = .run →
      Step s (c, .call e) (s.put c (s.cpu c) { s.now c with pc := .push e (s.cpu c).intr })
  | push {c e old} : (s.now c).pc = .push e old →
      Step s (c, .push) (s.put c ((s.cpu c).pushOff old) ((s.now c).pushed (s.cpu c) e))
  | lock {c l} : (s.now c).pc = .spin l → s.lock l = none →
      Step s (c, .lock) { s.put c (s.cpu c) { s.now c with pc := .run } with lock := update s.lock l (some c) }
  | release {c l} : (s.now c).pc = .run → some l ∈ (s.now c).offs → s.lock l = some c →
      Step s (c, .release l) { s.put c (s.cpu c) { s.now c with pc := .pop l } with lock := update s.lock l none }
  | pop {c e k} : (s.now c).Pops e → (s.cpu c).popOff = .ok k → Step s (c, .pop e) (s.put c k ((s.now c).popped e))
  | popPanic {c e p} : (s.now c).Pops e → (s.cpu c).popOff = .error p → Step s (c, .pop e) { s with panic := some p }
  /-- `sched` of a process that holds only `p->lock`, up to `swtch` -/
  | sched {c t} : s.cur c = some t → (s.now c).pc = .run → (s.now c).offs = [some (.proc t)] →
      (s.cpu c).schedTests = .ok () →
      Step s (c, .sched) { s.put c (s.cpu c) { s.now c with pc := .sched (s.cpu c).intena } with
        cur := update s.cur c none
        parked := update s.parked t true }
  | schedPanic {c t p} : s.cur c = some t → (s.now c).pc = .run → (s.now c).offs = [some (.proc t)] →
      (s.cpu c).schedTests = .error p → Step s (c, .sched) { s with panic := some p }
  /-- `swtch` of `scheduler`, which holds `p->lock` -/
  | resume {c t} : s.cur c = none → (s.now c).pc = .run → (s.now c).below = [] →
      (s.now c).offs = [some (.proc t)] → s.parked t = true →
      Step s (c, .resume t) { s with
        cur := update s.cur c (some t)
        parked := update s.parked t false }
  /-- `mycpu()->intena = intena` of `sched` -/
  | restore {c b} : (s.now c).pc = .sched b →
      Step s (c, .restore) (s.put c { s.cpu c with intena := b } { s.now c with pc := .run })
  /-- The slot of a process that does not run is used for a new one. -/
  | fork {c t} : s.parked t = true →
      Step s (c, .fork t) { s with th := update s.th (.proc t) (Thread.fresh t) }

/-- Every CPU is at the start of `scheduler()`. -/
structure Init (s : St C) : Prop where
  noff : ∀ c, (s.cpu c).noff = 0
  cur : ∀ c, s.cur c = none
  sched : ∀ c, (s.th (.sched c)).pc = .run ∧ (s.th (.sched c)).below = [] ∧ (s.th (.sched c)).offs = []
  proc : ∀ t, s.th (.proc t) = Thread.fresh t
  parked : ∀ t, s.parked t = true
  panic : s.panic = none

def Reach (s : St C) : Prop := Run.Reach Init Step s

end Xv6.Intr
