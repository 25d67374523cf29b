import Xv6.Sched.Code
/-!
# The UART's output queue

`uartputc`, `uartstart` and `uartintr` of `kernel/uart.c`, with `sleep`, `wakeup`
and `scheduler` of `kernel/proc.c` as far as they deal with a process that waits
for a free slot. Any number of processes and of interrupt handlers are
interleaved; a step is one `acquire`, one `release`, or the code between two of
them, and what is read without a lock (`panicked`, the device's `LSR`) is read by
a step of its own.

Everything else is left open: outside `uartputc` a thread may hold any `p->lock`
and kill a process, and the state of a process is arbitrary, except that only
`uartputc` sleeps on `&uart_tx_r`. The lists `accepted` and `sent` are not in the
code; no step looks at them.
-/

namespace Xv6.Uart

open Function

def UART_TX_BUF_SIZE : Nat := 32

/-- A thread: that of one of `n` processes, or the interrupt handler of a CPU. -/
inductive Ctx (n : Nat) (C : Type) where
  | proc (i : Fin n)
  | intr (c : C)
  deriving DecidableEq

/-- `uart_tx_lock`, or `proc[i].lock`. -/
inductive Lock where
  | tx
  | proc (i : Nat)
  deriving DecidableEq

/-- `onTx`: `p->chan` is `&uart_tx_r`. -/
structure Proc where
  state : Sched.State
  onTx : Bool

structure Data where
  /-- `uart_tx_buf`, `uart_tx_w`, `uart_tx_r` -/
  buf : Nat → UInt8
  w : Nat
  r : Nat
  /-- `LSR_TX_IDLE` is set. -/
  idle : Bool
  panicked : Bool
  proc : Nat → Proc
  /-- The bytes that `uartputc` has put into the queue, oldest first. -/
  accepted : List UInt8
  /-- The bytes that `uartstart` has written to `THR`. -/
  sent : List UInt8

inductive Pc where
  /-- Outside the code of this module; with the lock of a process. -/
  | out
  | elsewhere (j : Nat)
  /-- `uartputc(c)`: at `acquire`, at the test of `panicked`, at the head of the loop. -/
  | putLock (c : UInt8)
  | putPanic (c : UInt8)
  | putTest (c : UInt8)
  /-- `sleep(&uart_tx_r, &uart_tx_lock)`: at `acquire(&p->lock)`, at `release(lk)`, at the two assignments. -/
  | sleepLock (c : UInt8)
  | sleepDrop (c : UInt8)
  | sleepChan (c : UInt8)
  | sleepState (c : UInt8)
  /-- In the scheduler, which still has `p->lock`; after its `release`. -/
  | swtch (c : UInt8)
  | slept (c : UInt8)
  /-- A scheduler has locked the process: at its test, at `release` if it does not run it. -/
  | picked (c : UInt8)
  | passed (c : UInt8)
  /-- Back in `sleep`: at `p->chan = 0`, at `release(&p->lock)`, at `acquire(lk)`. -/
  | resumed (c : UInt8)
  | sleepUnlock (c : UInt8)
  | sleepRelock (c : UInt8)
  /-- `uartstart`: at its tests. -/
  | start
  /-- `wakeup(&uart_tx_r)` at slot `j`, with the byte `b` to be written. -/
  | wakeLock (j : Nat) (b : UInt8)
  | wakeTest (j : Nat) (b : UInt8)
  | wakeUnlock (j : Nat) (b : UInt8)
  /-- At `WriteReg(THR, b)`. -/
  | startWrite (b : UInt8)
  /-- At `release(&uart_tx_lock)`, back in `uartputc` or `uartintr`. -/
  | unlock
  /-- `uartintr`: at `acquire(&uart_tx_lock)`. -/
  | intrLock

structure St (n : Nat) (C : Type) where
  d : Data
  lock : Lock → Option (Ctx n C)
  pc : Ctx n C → Pc

/-- `((uart_tx_w + 1) % UART_TX_BUF_SIZE) == uart_tx_r` -/
def Data.Full (d : Data) : Prop := (d.w + 1) % UART_TX_BUF_SIZE = d.r

instance (d : Data) : Decidable d.Full := inferInstanceAs (Decidable (_ = _))

def Data.set (d : Data) (i : Nat) (f : Proc → Proc) : Data :=
  { d with proc := update d.proc i (f (d.proc i)) }

/-- The body of `wakeup(&uart_tx_r)`, for one process. -/
def Proc.wake (p : Proc) : Proc := if p.state = .sleeping ∧ p.onTx = true then { p with state := .runnable } else p

/-- The body of `kill`, for the process it is for. -/
def Proc.kill (p : Proc) : Proc := if p.state = .sleeping then { p with state := .runnable } else p

variable {n : Nat} {C : Type}

inductive Acq : Ctx n C → Pc → Lock → Pc → Prop
  | put {x c} : Acq x (.putLock c) .tx (.putPanic c)
  | sleep {i : Fin n} {c} : Acq (.proc i) (.sleepLock c) (.proc i) (.sleepDrop c)
  | pick {i : Fin n} {c} : Acq (.proc i) (.slept c) (.proc i) (.picked c)
  | relock {x c} : Acq x (.sleepRelock c) .tx (.putTest c)
  | wake {x j b} : j < n → Acq x (.wakeLock j b) (.proc j) (.wakeTest j b)
  | intr {x} : Acq x .intrLock .tx .start
  | elsewhere {x j} : Acq x .out (.proc j) (.elsewhere j)

inductive Rel : Ctx n C → Pc → Lock → Pc → Prop
  | drop {x c} : Rel x (.sleepDrop c) .tx (.sleepChan c)
  | swtch {i : Fin n} {c} : Rel (.proc i) (.swtch c) (.proc i) (.slept c)
  | pass {i : Fin n} {c} : Rel (.proc i) (.passed c) (.proc i) (.slept c)
  | resume {i : Fin n} {c} : Rel (.proc i) (.sleepUnlock c) (.proc i) (.sleepRelock c)
  | wake {x j b} : Rel x (.wakeUnlock j b) (.proc j) (.wakeLock (j + 1) b)
  | unlock {x} : Rel x .unlock .tx .out
  | elsewhere {x j} : Rel x (.elsewhere j) (.proc j) .out

inductive Exec (d : Data) : Ctx n C → Pc → Data → Pc → Prop
  | call {i : Fin n} {c} : (d.proc i).state = .running → Exec d (.proc i) .out d (.putLock c)
  | intr {c} : Exec d (.intr c) .out d .intrLock
  | panic {x c} : d.panicked = false → Exec d x (.putPanic c) d (.putTest c)
  | full {x c} : d.Full → Exec d x (.putTest c) d (.sleepLock c)
  | store {x c} : ¬ d.Full →
      Exec d x (.putTest c)
        { d with
          buf := update d.buf d.w c
          w := (d.w + 1) % UART_TX_BUF_SIZE
          accepted := d.accepted ++ [c] } .start
  | chan {i : Fin n} {c} : Exec d (.proc i) (.sleepChan c) (d.set i fun p => { p with onTx := true }) (.sleepState c)
  | state {i : Fin n} {c} : Exec d (.proc i) (.sleepState c) (d.set i fun p => { p with state := .sleeping }) (.swtch c)
  | run {i : Fin n} {c} : (d.proc i).state = .runnable →
      Exec d (.proc i) (.picked c) (d.set i fun p => { p with state := .running }) (.resumed c)
  | skip {i : Fin n} {c} : (d.proc i).state ≠ .runnable → Exec d (.proc i) (.picked c) d (.passed c)
  | tidy {i : Fin n} {c} : Exec d (.proc i) (.resumed c) (d.set i fun p => { p with onTx := false }) (.sleepUnlock c)
  | empty {x} : d.w = d.r → Exec d x .start d .unlock
  | busy {x} : d.idle = false → Exec d x .start d .unlock
  | take {x} : d.w ≠ d.r → d.idle = true →
      Exec d x .start { d with r := (d.r + 1) % UART_TX_BUF_SIZE } (.wakeLock 0 (d.buf d.r))
  | woken {x j b} : n ≤ j → Exec d x (.wakeLock j b) d (.startWrite b)
  | wake {x j b} : Exec d x (.wakeTest j b) (d.set j Proc.wake) (.wakeUnlock j b)
  | write {x b} : Exec d x (.startWrite b) { d with sent := d.sent ++ [b] } .start
  | kill {x j} : Exec d x (.elsewhere j) (d.set j Proc.kill) (.elsewhere j)

/-- What happens without these threads: the device's flag changes, a CPU panics, a process that is not in `uartputc` goes
to sleep on something else, is woken up, exits or is scheduled. -/
inductive Env (d : Data) (outside : Fin n → Prop) : Data → Prop
  | idle {b} : Env d outside { d with idle := b }
  | panic : Env d outside { d with panicked := true }
  | proc {i : Fin n} {st} : outside i → Env d outside (d.set i fun _ => ⟨st, false⟩)

/-- A step of a thread, or of the rest. -/
inductive Step [DecidableEq C] (s : St n C) : Option (Ctx n C) → St n C → Prop
  | acq {x l k'} : Acq x (s.pc x) l k' → s.lock l = none →
      Step s (some x) { s with pc := update s.pc x k', lock := update s.lock l (some x) }
  | rel {x l k'} : Rel x (s.pc x) l k' → s.lock l = some x →
      Step s (some x) { s with pc := update s.pc x k', lock := update s.lock l none }
  | exec {x d' k'} : Exec s.d x (s.pc x) d' k' →
      Step s (some x) { s with pc := update s.pc x k', d := d' }
  | env {d'} : Env s.d (fun i => s.pc (.proc i) = .out) d' → Step s none { s with d := d' }

structure Init (s : St n C) : Prop where
  w : s.d.w = 0
  r : s.d.r = 0
  accepted : s.d.accepted = []
  sent : s.d.sent = []
  lock : ∀ l, s.lock l = none
  pc : ∀ x, s.pc x = .out
  onTx : ∀ i, (s.d.proc i).onTx = false

def Reach [DecidableEq C] (s : St n C) : Prop := Run.Reach Init Step s

end Xv6.Uart
