import Mathlib.Logic.Function.Basic
import Xv6.Lib.Run
/-!
# Processes and CPUs, interleaved

`kernel/proc.c` for any number of CPUs and of slots in `proc[]`. A step is one
`acquire`, one `release`, one half of a `swtch`, or the code between two of
them; a field that the code reads without its lock is read by a step of its
own. A CPU executes its `scheduler()` or the kernel thread of one process, so
locks belong to CPUs, as in `kernel/spinlock.c`, and pass from one thread to
the other at a `swtch`.

What the rest of the kernel does is left open: a process holding no `p->lock`
may take and release other spinlocks, sleep, wake up, fork, wait, kill, fault
and exit in any order. Timer interrupts strike wherever no lock is held.

The lists `forks`, `exits`, `reaps` and `marks` are not in the code; no step looks at them.
-/

namespace Xv6.Sched

open Function

inductive State where
  | unused | sleeping | runnable | running | zombie
  deriving DecidableEq

/-- A sleep channel: the address of a `struct proc`, or any other one. -/
inductive Chan where
  | proc (i : Nat)
  | obj (a : Nat)
  deriving DecidableEq

/-- A spinlock: `proc[i].lock`, or any other one. -/
inductive Lock where
  | proc (i : Nat)
  | other (l : Nat)
  deriving DecidableEq

/-- The loops outside `wait` that test `p->killed` before they sleep. -/
inductive Loop where
  | piperead | pipewrite | consoleread | sysSleep
  deriving DecidableEq

/-- A call of `sleep`: on the address `ch` with the lock `lk`, made by one of
the loops or by other code; or `sleep(p, &p->lock)` of `wait`. -/
inductive Nap where
  | on (f : Option Loop) (ch lk : Nat)
  | wait
  deriving DecidableEq

/-- Where `wakeup` returns to. -/
inductive Caller where
  | kern (held : List Nat)
  | tested (f : Loop) (ch lk : Nat)
  deriving DecidableEq

inductive Kpc where
  /-- Code of the rest of the kernel, holding the other spinlocks `held`, or user code. -/
  | kern (held : List Nat)
  /-- At `acquire` or `release` of another spinlock. -/
  | kernLock (l : Nat) (held : List Nat)
  | kernUnlock (l : Nat) (held : List Nat)
  /-- In one of the loops, past a test that found `p->killed` zero. -/
  | tested (f : Loop) (ch lk : Nat)
  /-- `sleep(chan, lk)` with `lk != &p->lock`: at `acquire(&p->lock)`, at `release(lk)`. -/
  | sleepLock (f : Option Loop) (ch lk : Nat)
  | sleepDrop (f : Option Loop) (ch lk : Nat)
  /-- `sleep`: at `p->chan = chan`, at `p->state = SLEEPING`. -/
  | sleepChan (w : Nap)
  | sleepState (w : Nap)
  /-- `sleep`, woken up: at `release(&p->lock)`, at `acquire(lk)`. -/
  | sleepUnlock (lk : Nat)
  | sleepRelock (lk : Nat)
  /-- `wakeup(chan)`, at slot `i`. -/
  | wakeLock (ch : Chan) (i : Nat) (b : Caller)
  | wakeTest (ch : Chan) (i : Nat) (b : Caller)
  | wakeUnlock (ch : Chan) (i : Nat) (b : Caller)
  /-- `wakeup(chan)` returns. -/
  | woken (ch : Chan) (b : Caller)
  /-- `kill(pid)`, at slot `i`; `hit`: it is the one. -/
  | killLock (pid : Int) (i : Nat)
  | killTest (pid : Int) (i : Nat)
  | killUnlock (pid : Int) (i : Nat) (hit : Bool)
  /-- `kill(pid)` returns 0 or -1. -/
  | killed (pid : Int) (hit : Bool)
  /-- `fork`: the loop of `allocproc`, at slot `i`. -/
  | forkLock (i : Nat)
  | forkTest (i : Nat)
  | forkNext (i : Nat)
  /-- `fork`: slot `i` has its pid; what follows may fail. -/
  | forkAlloc (i : Nat)
  | forkUnlock (i : Nat)
  /-- `exit`: waking up `initproc`. -/
  | exitInit (st : Int)
  | exitInitWake (st : Int)
  | exitInitUnlock (st : Int)
  /-- `exit`: copying `p->parent`. -/
  | exitLock (st : Int)
  | exitCopy (st : Int)
  | exitUnlock (st : Int) (op : Nat)
  /-- `exit`: at `acquire(&original_parent->lock)`, at `acquire(&p->lock)`. -/
  | exitParent (st : Int) (op : Nat)
  | exitSelf (st : Int) (op : Nat)
  /-- `reparent`, at slot `i`. -/
  | reparent (st : Int) (op i : Nat)
  | reparentLock (st : Int) (op i : Nat)
  | reparentSet (st : Int) (op i : Nat)
  | reparentUnlock (st : Int) (op i : Nat)
  /-- `exit`: at `wakeup1(original_parent)`, at the assignments, at `release(&original_parent->lock)`. -/
  | exitWake (st : Int) (op : Nat)
  | exitZombie (st : Int) (op : Nat)
  | exitDrop (op : Nat)
  /-- `wait`: at `acquire(&p->lock)`. -/
  | waitLock
  /-- `wait`: the scan, at slot `i`. -/
  | waitScan (i : Nat) (havekids : Bool)
  | waitKid (i : Nat) (havekids : Bool)
  | waitTest (i : Nat)
  | waitNext (i : Nat)
  /-- `wait` is about to return `ret`: at `release(&np->lock)`, at `release(&p->lock)`. -/
  | waitDrop (i : Nat) (ret : Int)
  | waitUnlock (ret : Int)
  /-- `wait` returns. -/
  | waited (ret : Int)
  deriving DecidableEq

/-- The channel `sleep` gets. -/
def Nap.chan (p : Nat) : Nap → Chan
  | .on _ ch _ => .obj ch
  | .wait => .proc p

/-- What follows `p->chan = 0` at the end of `sleep`. -/
def Nap.after : Nap → Kpc
  | .on _ _ lk => .sleepUnlock lk
  | .wait => .waitScan 0 false

/-- The other spinlocks the caller of `wakeup` holds. -/
def Caller.held : Caller → List Lock
  | .kern h => h.map .other
  | .tested _ _ lk => [.other lk]

def Caller.pc : Caller → Kpc
  | .kern h => .kern h
  | .tested f ch lk => .tested f ch lk

/-- The locks the thread of slot `p` holds, newest first. -/
def Kpc.held (p : Nat) : Kpc → List Lock
  | .kern h | .kernLock _ h => h.map .other
  | .kernUnlock l h => .other l :: h.map .other
  | .tested _ _ lk | .sleepLock _ _ lk => [.other lk]
  | .sleepDrop _ _ lk => [.proc p, .other lk]
  | .sleepChan _ | .sleepState _ | .sleepUnlock _ => [.proc p]
  | .sleepRelock _ => []
  | .wakeLock _ _ b | .woken _ b => b.held
  | .wakeTest _ i b | .wakeUnlock _ i b => .proc i :: b.held
  | .killLock _ _ | .killed _ _ => []
  | .killTest _ i | .killUnlock _ i _ => [.proc i]
  | .forkLock _ => []
  | .forkTest i | .forkNext i | .forkAlloc i | .forkUnlock i => [.proc i]
  | .exitInit _ | .exitLock _ | .exitParent _ _ => []
  | .exitInitWake _ | .exitInitUnlock _ => [.proc 0]
  | .exitCopy _ | .exitUnlock _ _ => [.proc p]
  | .exitSelf _ op => [.proc op]
  | .reparent _ op _ | .reparentLock _ op _ | .exitWake _ op | .exitZombie _ op | .exitDrop op => [.proc p, .proc op]
  | .reparentSet _ op i | .reparentUnlock _ op i => [.proc i, .proc p, .proc op]
  | .waitLock | .waited _ => []
  | .waitScan _ _ | .waitKid _ _ | .waitUnlock _ => [.proc p]
  | .waitTest i | .waitNext i | .waitDrop i _ => [.proc i, .proc p]

/-- Where `p->context` resumes. -/
inductive Resume where
  /-- In `sleep`, after `sched()`. -/
  | slept (w : Nap)
  /-- In `yield`, called by the interrupt of code that holds no lock. -/
  | yielded (b : Kpc) (free : b.held 0 = [])
  /-- In `exit`, after `sched()`. -/
  | dead
  /-- At the start of `forkret`. -/
  | forkret
  deriving DecidableEq

/-- Where a CPU that executes a process is. -/
inductive Pc where
  | at (k : Kpc)
  /-- `yield`: at `acquire(&p->lock)`, at `p->state = RUNNABLE`. -/
  | yieldLock (b : Kpc) (free : b.held 0 = [])
  | yieldState (b : Kpc) (free : b.held 0 = [])
  /-- `swtch` of `sched`: storing the registers in `p->context`, loading those of the scheduler. -/
  | save (r : Resume)
  | load (r : Resume)
  /-- `swtch` of `scheduler` has loaded `p->context`. -/
  | resume (r : Resume)
  deriving DecidableEq

def Pc.held (p : Nat) : Pc → List Lock
  | .at k => k.held p
  | .yieldLock _ _ => []
  | .yieldState _ _ | .save _ | .load _ | .resume _ => [.proc p]

/-- Where `scheduler()` is, at slot `i`. -/
inductive Spc where
  | lock (i : Nat)
  | test (i : Nat)
  /-- At the half of `swtch` that loads `p->context`. -/
  | enter (i : Nat)
  /-- Back from `swtch`, at `c->proc = 0`. -/
  | back (i : Nat)
  | unlock (i : Nat)
  deriving DecidableEq

def Spc.held : Spc → List Lock
  | .lock _ => []
  | .test i | .enter i | .back i | .unlock i => [.proc i]

/-- What a CPU executes: its scheduler, or the thread of slot `p`. -/
inductive Cpu where
  | sched (k : Spc)
  | run (p : Nat) (pc : Pc)
  deriving DecidableEq

def Cpu.held : Cpu → List Lock
  | .sched k => k.held
  | .run p pc => pc.held p

/-- `struct proc`. `context` is empty while it is older than the thread it belongs to. -/
structure Proc where
  state : State
  chan : Option Chan
  killed : Bool
  xstate : Int
  pid : Int
  parent : Option Nat
  context : Option Resume
  deriving DecidableEq

/-- A successful `wait`: the child's pid and status, the slot and pid of the
process that waited, and the child's parent at that moment. -/
structure Reap where
  pid : Int
  status : Int
  slot : Nat
  waiter : Int
  parent : Option Nat

structure Data where
  proc : Nat → Proc
  nextpid : Int
  /-- The pids of each forked process and of its forker. -/
  forks : List (Int × Int)
  /-- The pid and the status of each call of `exit`. -/
  exits : List (Int × Int)
  reaps : List Reap
  /-- The pids of the processes that `kill` or a fatal trap has marked. -/
  marks : List Int

structure St (C : Type) where
  d : Data
  lock : Lock → Option C
  cpu : C → Cpu
  /-- `c->proc` -/
  cproc : C → Option Nat

/-- An entry of `proc[]` that was never used. -/
def Proc.empty : Proc := ⟨.unused, none, false, 0, 0, none, none⟩

/-- `userinit` has made `initproc` in the first slot, and every CPU has called `scheduler()`. -/
def init (C : Type) : St C where
  d := {
    proc := fun i => if i = 0 then { Proc.empty with state := .runnable, pid := 1, context := some .forkret } else .empty
    nextpid := 2
    forks := []
    exits := []
    reaps := []
    marks := [] }
  lock := fun _ => none
  cpu := fun _ => .sched (.lock 0)
  cproc := fun _ => none

/-- Assignments to fields of `proc[i]`. -/
def Data.set (d : Data) (i : Nat) (f : Proc → Proc) : Data :=
  { d with proc := update d.proc i (f (d.proc i)) }

/-- The same where `killed` is set. -/
def Data.mark (d : Data) (i : Nat) (f : Proc → Proc) : Data := Data.set { d with marks := (d.proc i).pid :: d.marks } i f

/-- `p->state = RUNNABLE` if `p` sleeps, and on `chan` if one is given. -/
def Proc.wake (chan : Option Chan) (q : Proc) : Proc :=
  if q.state = .sleeping ∧ (chan = none ∨ q.chan = chan) then { q with state := .runnable } else q

def Data.wakeup1 (d : Data) (i : Nat) : Data := d.set i (Proc.wake (some (.proc i)))

def Proc.free (q : Proc) : Proc :=
  { q with pid := 0, parent := none, chan := none, killed := false, xstate := 0, state := .unused }

/-- The choices left open: what the kernel calls next, whether an allocation or
a copy fails, when an interrupt strikes. -/
inductive Act where
  | go
  /-- `kalloc` of the trapframe, or `copyout` in `wait`, fails. -/
  | fail
  /-- The new page table or `uvmcopy` fails. -/
  | undo
  | intr
  | fault
  | acquire (l : Nat)
  | release (l : Nat)
  | sleep (ch lk : Nat)
  | test (f : Loop) (ch lk : Nat)
  | wakeup (ch : Chan)
  | kill (pid : Int)
  | fork
  | exit (st : Int)
  | wait
  deriving DecidableEq

section Thread

variable (n p : Nat)

/-- The lock a thread is about to acquire, and where it then is. -/
def Kpc.acq : Kpc → Option (Lock × Kpc)
  | .kernLock l h => some (.other l, .kern (l :: h))
  | .sleepLock f ch lk => some (.proc p, .sleepDrop f ch lk)
  | .sleepRelock lk => some (.other lk, .kern [lk])
  | .wakeLock ch i b => if i < n then some (.proc i, .wakeTest ch i b) else none
  | .killLock pid i => if i < n then some (.proc i, .killTest pid i) else none
  | .forkLock i => if i < n then some (.proc i, .forkTest i) else none
  | .exitInit st => some (.proc 0, .exitInitWake st)
  | .exitLock st => some (.proc p, .exitCopy st)
  | .exitParent st op => some (.proc op, .exitSelf st op)
  | .exitSelf st op => some (.proc p, .reparent st op 0)
  | .reparentLock st op i => some (.proc i, .reparentSet st op i)
  | .waitLock => some (.proc p, .waitScan 0 false)
  | .waitKid i _ => some (.proc i, .waitTest i)
  | _ => none

/-- The lock a thread is about to release, and where it then is. -/
def Kpc.rel : Kpc → Option (Lock × Pc)
  | .kernUnlock l h => some (.other l, .at (.kern h))
  | .sleepDrop f ch lk => some (.other lk, .at (.sleepChan (.on f ch lk)))
  | .sleepUnlock lk => some (.proc p, .at (.sleepRelock lk))
  | .wakeUnlock ch i b => some (.proc i, .at (.wakeLock ch (i + 1) b))
  | .killUnlock pid i hit => some (.proc i, .at (if hit then .killed pid true else .killLock pid (i + 1)))
  | .forkNext i => some (.proc i, .at (.forkLock (i + 1)))
  | .forkUnlock i => some (.proc i, .at (.kern []))
  | .exitInitUnlock st => some (.proc 0, .at (.exitLock st))
  | .exitUnlock st op => some (.proc p, .at (.exitParent st op))
  | .reparentUnlock st op i => some (.proc i, .at (.reparent st op (i + 1)))
  | .exitDrop op => some (.proc op, .save .dead)
  | .waitNext i => some (.proc i, .at (.waitScan (i + 1) true))
  | .waitDrop i ret => some (.proc i, .at (.waitUnlock ret))
  | .waitUnlock ret => some (.proc p, .at (.waited ret))
  | _ => none

/-- The calls that the rest of the kernel makes. `sched` panics unless `p->lock`
is the only lock held, `acquire` if the CPU holds the lock; `fork`, `exit`,
`wait` and `kill` are called with no lock held, and `initproc` does not exit. -/
def call (d : Data) (h : List Nat) : Act → Option (Data × Kpc)
  | .acquire l => if l ∈ h then none else some (d, .kernLock l h)
  | .release l => if l ∈ h then some (d, .kernUnlock l (h.erase l)) else none
  | .sleep ch lk => if h = [lk] then some (d, .sleepLock none ch lk) else none
  | .test f ch lk =>
    if h = [lk] then some (d, if (d.proc p).killed then .kern h else .tested f ch lk) else none
  | .wakeup ch => some (d, .wakeLock ch 0 (.kern h))
  | .fault => if h = [] then some (d.mark p fun q => { q with killed := true }, .kern []) else none
  | .kill pid => if h = [] then some (d, .killLock pid 0) else none
  | .fork => if h = [] then some (d, .forkLock 0) else none
  | .exit st =>
    if h = [] ∧ p ≠ 0 then some ({ d with exits := ((d.proc p).pid, st) :: d.exits }, .exitInit st) else none
  | .wait => if h = [] then some (d, .waitLock) else none
  | _ => none

/-- `fork`, from `allocpid` on. -/
def Data.fork (d : Data) (i : Nat) : Act → Option Data
  | .go => some (Data.set { d with forks := ((d.proc i).pid, (d.proc p).pid) :: d.forks } i fun q =>
      { q with parent := some p, context := some .forkret, state := .runnable })
  | .fail => some d
  | .undo => some (d.set i Proc.free)
  | _ => none

/-- `wait` has found its child `i` a `ZOMBIE`; what it returns. -/
def Data.reap (d : Data) (i : Nat) : Act → Option (Data × Int)
  | .go => some (Data.set { d with
      reaps := ⟨(d.proc i).pid, (d.proc i).xstate, p, (d.proc p).pid, (d.proc i).parent⟩ :: d.reaps } i Proc.free,
      (d.proc i).pid)
  | .fail => some (d, -1)
  | _ => none

/-- A step that neither acquires nor releases a lock. -/
def Kpc.exec (d : Data) (a : Act) : Kpc → Option (Data × Pc)
  | .kern h => (call p d h a).map fun x => (x.1, .at x.2)
  | .tested f ch lk =>
    match a with
    -- `pipewrite` wakes the readers up before it sleeps.
    | .wakeup ch' => some (d, .at (.wakeLock ch' 0 (.tested f ch lk)))
    | _ => some (d, .at (.sleepLock (some f) ch lk))
  | .sleepChan w => some (d.set p fun q => { q with chan := some (w.chan p) }, .at (.sleepState w))
  | .sleepState w => some (d.set p fun q => { q with state := .sleeping }, .save (.slept w))
  | .wakeLock ch _ b => some (d, .at (.woken ch b))
  | .wakeTest ch i b => some (d.set i (Proc.wake (some ch)), .at (.wakeUnlock ch i b))
  | .woken _ b => some (d, .at b.pc)
  | .killLock pid _ => some (d, .at (.killed pid false))
  | .killTest pid i =>
    if (d.proc i).pid = pid then
      some (d.mark i fun q => { q.wake none with killed := true }, .at (.killUnlock pid i true))
    else some (d, .at (.killUnlock pid i false))
  | .killed _ _ => some (d, .at (.kern []))
  | .forkLock _ => some (d, .at (.kern []))
  | .forkTest i =>
    if (d.proc i).state = .unused then
      some (Data.set { d with nextpid := d.nextpid + 1 } i fun q => { q with pid := d.nextpid }, .at (.forkAlloc i))
    else some (d, .at (.forkNext i))
  | .forkAlloc i => (d.fork p i a).map fun d' => (d', .at (.forkUnlock i))
  | .exitInitWake st => some (d.wakeup1 0, .at (.exitInitUnlock st))
  | .exitCopy st => (d.proc p).parent.map fun op => (d, .at (.exitUnlock st op))
  | .reparent st op i =>
    if i < n then
      some (d, .at (if (d.proc i).parent = some p then .reparentLock st op i else .reparent st op (i + 1)))
    else some (d, .at (.exitWake st op))
  | .reparentSet st op i => some (d.set i fun q => { q with parent := some 0 }, .at (.reparentUnlock st op i))
  | .exitWake st op => some (d.wakeup1 op, .at (.exitZombie st op))
  | .exitZombie st op => some (d.set p fun q => { q with xstate := st, state := .zombie }, .at (.exitDrop op))
  | .waitScan i havekids =>
    if i < n then
      some (d, .at (if (d.proc i).parent = some p then .waitKid i havekids else .waitScan (i + 1) havekids))
    else some (d, .at (if !havekids || (d.proc p).killed then .waitUnlock (-1) else .sleepChan .wait))
  | .waitTest i =>
    if (d.proc i).state = .zombie then (d.reap p i a).map fun x => (x.1, .at (.waitDrop i x.2))
    else some (d, .at (.waitNext i))
  | .waited _ => some (d, .at (.kern []))
  | _ => none

/-- The same for every place of a process. -/
def Pc.acq : Pc → Option (Lock × Pc)
  | .at k => (k.acq n p).map fun x => (x.1, .at x.2)
  | .yieldLock b free => some (.proc p, .yieldState b free)
  | _ => none

def Pc.rel : Pc → Option (Lock × Pc)
  | .at k => k.rel p
  | .resume (.yielded b _) => some (.proc p, .at b)
  | .resume .forkret => some (.proc p, .at (.kern []))
  | _ => none

def Pc.exec (d : Data) (a : Act) : Pc → Option (Data × Pc)
  | .at k => k.exec n p d a
  | .yieldState b free => some (d.set p fun q => { q with state := .runnable }, .save (.yielded b free))
  | .save r => some (d.set p fun q => { q with context := some r }, .load r)
  | .resume (.slept w) => some (d.set p fun q => { q with chan := none }, .at w.after)
  | _ => none

end Thread

section Step

variable {C : Type} [DecidableEq C] (n : Nat)

def St.goto (s : St C) (c : C) (k : Cpu) : St C := { s with cpu := update s.cpu c k }

/-- `acquire`: the CPU spins while the lock is taken. -/
def St.acquire (s : St C) (c : C) (l : Lock) (k : Cpu) : Option (St C) :=
  if s.lock l = none then some { s with cpu := update s.cpu c k, lock := update s.lock l (some c) } else none

/-- `release`, which panics if the CPU does not hold the lock. -/
def St.release (s : St C) (c : C) (l : Lock) (k : Cpu) : Option (St C) :=
  if s.lock l = some c then some { s with cpu := update s.cpu c k, lock := update s.lock l none } else none

def St.sched (s : St C) (c : C) : Spc → Option (St C)
  | .lock i => s.acquire c (.proc i) (.sched (.test i))
  | .test i =>
    if (s.d.proc i).state = .runnable then
      some { s with
        cpu := update s.cpu c (.sched (.enter i))
        d := s.d.set i fun q => { q with state := .running }
        cproc := update s.cproc c (some i) }
    else some (s.goto c (.sched (.unlock i)))
  | .enter i =>
    (s.d.proc i).context.map fun r =>
      { s with cpu := update s.cpu c (.run i (.resume r)), d := s.d.set i fun q => { q with context := none } }
  | .back i => some { s with cpu := update s.cpu c (.sched (.unlock i)), cproc := update s.cproc c none }
  | .unlock i => s.release c (.proc i) (.sched (.lock (if i + 1 < n then i + 1 else 0)))

/-- The thread of slot `p` goes on. -/
def St.run (s : St C) (c : C) (a : Act) (p : Nat) (pc : Pc) : Option (St C) :=
  match pc.acq n p with
  | some (l, pc') => s.acquire c l (.run p pc')
  | none =>
    match pc.rel p with
    | some (l, pc') => s.release c l (.run p pc')
    | none => (pc.exec n p s.d a).map fun x => { s with cpu := update s.cpu c (.run p x.2), d := x.1 }

def St.next (s : St C) (c : C) (a : Act) : Option (St C) :=
  match s.cpu c with
  | .sched k => s.sched n c k
  | .run p (.load _) => some (s.goto c (.sched (.back p)))
  | .run p (.at k) =>
    if a = .intr then (if h : k.held 0 = [] then some (s.goto c (.run p (.yieldLock k h))) else none)
    else s.run n c a p (.at k)
  | .run p pc => s.run n c a p pc

def Step (s : St C) (e : C × Act) (s' : St C) : Prop := s.next n e.1 e.2 = some s'

def Reach (s : St C) : Prop := Run.Reach (· = init C) (Step n) s

/-- The runs all of whose steps meet `ok`. -/
def ReachIf (ok : St C → C × Act → Prop) (s : St C) : Prop := Run.Reach (· = init C) (Run.When (Step n) ok) s

/-- A run, given by what the CPUs do one after the other, as long as `g` passes. -/
def St.steps (g : St C → C × Act → Bool) (s : St C) : List (C × Act) → Option (St C)
  | [] => some s
  | e :: es => if g s e then (s.next n e.1 e.2).bind fun s' => s'.steps g es else none

variable {n}

theorem reach_steps {ok : St C → C × Act → Prop} {g : St C → C × Act → Bool} (hg : ∀ s e, g s e = true → ok s e)
    {s s' : St C} (es : List (C × Act)) (h : ReachIf n ok s) (hs : s.steps n g es = some s') : ReachIf n ok s' := by
  induction es generalizing s with
  | nil => cases hs; exact h
  | cons e es ih =>
    rw [St.steps] at hs
    split at hs
    · next hge =>
      obtain ⟨s₁, h1, h2⟩ := Option.bind_eq_some_iff.1 hs
      exact ih (Run.Reach.next h h1 (hg s e hge)) h2
    · cases hs

theorem reachIf_of_steps (ok : St C → C × Act → Prop) {f : St C → Bool} (g : St C → C × Act → Bool)
    (hg : ∀ s e, g s e = true → ok s e) (es : List (C × Act)) (h : ((init C).steps n g es).any f = true) :
    ∃ s, ReachIf n ok s ∧ f s = true := by
  cases hs : (init C).steps n g es with
  | none => simp [hs] at h
  | some s => exact ⟨s, reach_steps hg es (.init rfl) hs, by simpa [hs] using h⟩

theorem reach_of_steps {f : St C → Bool} (es : List (C × Act))
    (h : ((init C).steps n (fun _ _ => true) es).any f = true) : ∃ s, Reach n s ∧ f s = true := by
  obtain ⟨s, hs, hf⟩ := reachIf_of_steps (fun _ _ => True) _ (fun _ _ _ => trivial) es h
  exact ⟨s, hs.of_when, hf⟩

end Step

/-- `initproc` runs on one CPU and has forked a child, which runs on the other. -/
def twoProcs : List (Bool × Act) :=
  .replicate 4 (false, .go) ++ (false, .fork) :: .replicate 7 (false, .go) ++ .replicate 7 (true, .go)

end Xv6.Sched
