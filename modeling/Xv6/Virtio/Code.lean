import Mathlib.Algebra.Group.Nat.Defs
import Mathlib.Logic.Function.Basic
import Xv6.Lib.Hoare
/-!
# The disk driver

`kernel/virtio_disk.c` and the device it talks to. What `virtio_disk_rw` does
with `disk.vdisk_lock` held is one step. The interrupt handler keeps the lock
over its whole loop while the device goes on appending to the used ring, so
each round of that loop is a step.

The device takes chain heads from the avail ring, performs the requests it has
taken in any order, and appends their heads to the used ring in any order. The
handler may run at any time. The fields from `next` on are not in the code:
they name the calls of `virtio_disk_rw` and record what has become of them.
-/

namespace Xv6.Virtio

open Hoare Function

def NUM : Nat := 8

/-- What a descriptor points to. -/
inductive Addr (B : Type) where
  | zero
  /-- `buf0` on the kernel stack of call `serial`: the type and the sector -/
  | hdr (serial : Nat) (write : Bool) (sector : Nat)
  /-- `b->data` -/
  | data (b : B)
  /-- `disk.info[i].status` -/
  | status (i : Nat)

structure Desc (B : Type) where
  addr : Addr B
  len : Nat
  /-- `VRING_DESC_F_NEXT` -/
  more : Bool
  /-- `VRING_DESC_F_WRITE` -/
  write : Bool
  next : Nat

/-- A call of `virtio_disk_rw`. -/
structure Call (B : Type) where
  serial : Nat
  b : B
  write : Bool
  blockno : Nat

/-- `b->blockno * (BSIZE / 512)`, on `uint`s -/
def Call.sector {B : Type} (c : Call B) : Nat := c.blockno * 2 % 2 ^ 32

/-- What the device performed. -/
structure Done (B : Type) where
  serial : Nat
  write : Bool
  sector : Nat
  b : B

inductive Pc (B : Type) where
  /-- Not in `virtio_disk_rw`. -/
  | user
  /-- About to look for descriptors. -/
  | enter (c : Call B)
  /-- `SLEEPING` on `&disk.free[0]` -/
  | sleepFree (c : Call B)
  /-- With the descriptors `i0`, `i1`, `i2`, about to test `b->disk`. -/
  | wait (c : Call B) (i0 i1 i2 : Nat)
  /-- `SLEEPING` on `b` -/
  | sleepBuf (c : Call B) (i0 i1 i2 : Nat)

inductive Panic where
  /-- "virtio_disk_intr 1" -/
  | intr1
  /-- "virtio_disk_intr 2" -/
  | intr2
  /-- "virtio_disk_intr status" -/
  | status
  /-- `disk.info[id].b` is a null pointer. -/
  | nullBuf
  deriving DecidableEq

/-- A request whose descriptors have not been freed. -/
structure Req (P B : Type) where
  p : P
  c : Call B
  i0 : Nat
  i1 : Nat
  i2 : Nat

structure St (P B : Type) where
  free : Nat → Bool
  desc : Nat → Desc B
  /-- `disk.avail[2 ..]` -/
  avail : Nat → Nat
  /-- `disk.avail[1]` -/
  availIdx : Nat
  /-- `disk.used->elems[..].id` -/
  usedElems : Nat → Nat
  /-- `disk.used->id` -/
  usedId : Nat
  /-- `disk.used_idx` -/
  usedIdx : Nat
  infoB : Nat → Option B
  infoStatus : Nat → Nat
  /-- `b->disk` -/
  bdisk : B → Bool
  pc : P → Pc B
  /-- The interrupt handler runs and holds the lock. -/
  intr : Bool
  panic : Option Panic
  /-- How far the device has looked in the avail ring. -/
  devIdx : Nat
  /-- Heads that the device has taken and not performed yet. -/
  taken : List Nat
  /-- Heads that it has performed and not appended yet. -/
  executed : List (Nat × Done B)
  next : Nat
  live : List (Req P B)
  /-- What the device has performed. -/
  performed : List (Done B)
  /-- The completions in the order of the used ring. -/
  appended : List (Done B)
  /-- The buffers that the handler has cleared, one for each round. -/
  handled : List B
  /-- The calls that have returned. -/
  returned : List (Call B)

variable {P B : Type} [DecidableEq P] [DecidableEq B]

abbrev M (P B : Type) := Prog (St P B) Panic

def Pc.wakeFree : Pc B → Pc B
  | .sleepFree c => .enter c
  | x => x

def Pc.wakeBuf (b : B) : Pc B → Pc B
  | .sleepBuf c i0 i1 i2 => if c.b = b then .wait c i0 i1 i2 else .sleepBuf c i0 i1 i2
  | x => x

/-- Made runnable, from whatever it sleeps on. -/
def Pc.awake : Pc B → Pc B
  | .sleepFree c => .enter c
  | .sleepBuf c i0 i1 i2 => .wait c i0 i1 i2
  | x => x

/-- The call that a process is in. -/
def Pc.call : Pc B → Option (Call B)
  | .user => none
  | .enter c | .sleepFree c | .wait c .. | .sleepBuf c .. => some c

/-! ## Descriptors -/

def allocDesc : M P B (Option Nat) := do
  let s ← get
  match (List.range NUM).find? fun i => s.free i with
  | some i =>
    set { s with free := update s.free i false }
    return some i
  | none => return none

def freeDesc (i : Nat) : M P B Unit := do
  let s ← get
  if i ≥ NUM then throw .intr1
  if s.free i then throw .intr2
  set { s with
    desc := update s.desc i { s.desc i with addr := .zero }
    free := update s.free i true
    pc := fun q => (s.pc q).wakeFree }

/-- The loop of `free_chain`. It ends within `NUM` rounds, since `free_desc` frees nothing twice. -/
def freeChain : Nat → Nat → M P B Unit
  | 0, _ => return
  | fuel + 1, i => do
    freeDesc i
    let s ← get
    if (s.desc i).more then freeChain fuel (s.desc i).next

def alloc3Desc : M P B (Option (Nat × Nat × Nat)) := do
  match ← allocDesc with
  | none => return none
  | some i0 =>
    match ← allocDesc with
    | none =>
      freeDesc i0
      return none
    | some i1 =>
      match ← allocDesc with
      | none =>
        freeDesc i0
        freeDesc i1
        return none
      | some i2 => return some (i0, i1, i2)

/-! ## virtio_disk_rw -/

/-- The three descriptors of a request. -/
def Req.format (r : Req P B) (desc : Nat → Desc B) : Nat → Desc B :=
  let d0 := update desc r.i0 ⟨.hdr r.c.serial r.c.write r.c.sector, 16, true, false, r.i1⟩
  let d1 := update d0 r.i1 ⟨.data r.c.b, 1024, true, !r.c.write, r.i2⟩
  update d1 r.i2 ⟨.status r.i0, 1, false, true, 0⟩

/-- Format the descriptors and hand the request to the device. -/
def submit (r : Req P B) : M P B Unit :=
  modify fun s => { s with
    desc := r.format s.desc
    infoStatus := update s.infoStatus r.i0 0
    bdisk := update s.bdisk r.c.b true
    infoB := update s.infoB r.i0 (some r.c.b)
    avail := update s.avail (s.availIdx % NUM) r.i0
    availIdx := (s.availIdx + 1) % 2 ^ 16
    live := s.live ++ [r] }

/-- `while(b->disk == 1) sleep(b, ..)`, and what follows it. -/
def rwWait (r : Req P B) : M P B Unit := do
  let s ← get
  if s.bdisk r.c.b then
    set { s with pc := update s.pc r.p (.sleepBuf r.c r.i0 r.i1 r.i2) }
  else
    set { s with infoB := update s.infoB r.i0 none }
    freeChain (NUM + 1) r.i0
    modify fun s => { s with
      pc := update s.pc r.p .user
      live := s.live.filter fun x => x.p ≠ r.p
      returned := s.returned ++ [r.c] }

/-- `virtio_disk_rw` from the search for descriptors on. -/
def rwStart (p : P) (c : Call B) : M P B Unit := do
  match ← alloc3Desc with
  | none => modify fun s => { s with pc := update s.pc p (.sleepFree c) }
  | some (i0, i1, i2) =>
    submit ⟨p, c, i0, i1, i2⟩
    rwWait ⟨p, c, i0, i1, i2⟩

/-! ## virtio_disk_intr -/

def intrRound : M P B Unit := do
  let s ← get
  let id := s.usedElems s.usedIdx
  if s.infoStatus id ≠ 0 then throw .status
  match s.infoB id with
  | none => throw .nullBuf
  | some b =>
    set { s with
      bdisk := update s.bdisk b false
      pc := fun q => (s.pc q).wakeBuf b
      usedIdx := (s.usedIdx + 1) % NUM
      handled := s.handled ++ [b] }

/-! ## The device -/

/-- The request in the chain that starts at `h`. -/
def readChain (desc : Nat → Desc B) (h : Nat) : Option (Done B × Nat) :=
  match desc h, desc (desc h).next, desc (desc (desc h).next).next with
  | ⟨.hdr serial write sector, _, true, _, _⟩, ⟨.data b, _, true, _, _⟩, ⟨.status i, _, false, _, _⟩ =>
    some (⟨serial, write, sector, b⟩, i)
  | _, _, _ => none

/-! ## Steps -/

def St.after (s : St P B) (m : M P B Unit) : St P B :=
  match exec m s with
  | (.ok _, s') => s'
  | (.error e, s') => { s' with panic := some e }

inductive Event (P B : Type) where
  | call (p : P) (b : B) (write : Bool) (blockno : Nat)
  | run (p : P)
  /-- `p` is made runnable by something else, such as `kill`. -/
  | kick (p : P)
  | take
  | perform (h : Nat)
  | append (h : Nat)
  | intr
  | round
  | intrEnd

inductive Step : St P B → Event P B → St P B → Prop
  /-- The buffers of the calls in progress are distinct. -/
  | call {s p b write blockno} : s.panic = none → s.pc p = .user → (∀ q c, (s.pc q).call = some c → c.b ≠ b) →
      Step s (.call p b write blockno) { s with
        pc := update s.pc p (.enter ⟨s.next, b, write, blockno⟩)
        next := s.next + 1 }
  | start {s p c} : s.panic = none → s.intr = false → s.pc p = .enter c → Step s (.run p) (s.after (rwStart p c))
  | resume {s p c i0 i1 i2} : s.panic = none → s.intr = false → s.pc p = .wait c i0 i1 i2 →
      Step s (.run p) (s.after (rwWait ⟨p, c, i0, i1, i2⟩))
  | kick {s p} : s.panic = none → Step s (.kick p) { s with pc := update s.pc p (s.pc p).awake }
  | take {s} : s.panic = none → s.devIdx ≠ s.availIdx →
      Step s .take { s with
        devIdx := (s.devIdx + 1) % 2 ^ 16
        taken := s.taken ++ [s.avail (s.devIdx % NUM)] }
  | perform {s a h l d i} : s.panic = none → s.taken = a ++ h :: l → readChain s.desc h = some (d, i) →
      Step s (.perform h) { s with
        taken := a ++ l
        executed := s.executed ++ [(h, d)]
        infoStatus := update s.infoStatus i 0
        performed := s.performed ++ [d] }
  | append {s a h d l} : s.panic = none → s.executed = a ++ (h, d) :: l →
      Step s (.append h) { s with
        executed := a ++ l
        usedElems := update s.usedElems (s.usedId % NUM) h
        usedId := (s.usedId + 1) % 2 ^ 16
        appended := s.appended ++ [d] }
  | intr {s} : s.panic = none → s.intr = false → Step s .intr { s with intr := true }
  | round {s} : s.panic = none → s.intr = true → s.usedIdx % NUM ≠ s.usedId % NUM → Step s .round (s.after intrRound)
  | intrEnd {s} : s.panic = none → s.intr = true → s.usedIdx % NUM = s.usedId % NUM →
      Step s .intrEnd { s with intr := false }

structure Init (s : St P B) : Prop where
  free : ∀ i, s.free i = decide (i < NUM)
  availIdx : s.availIdx = 0
  usedId : s.usedId = 0
  usedIdx : s.usedIdx = 0
  pc : ∀ p, s.pc p = .user
  intr : s.intr = false
  panic : s.panic = none
  devIdx : s.devIdx = 0
  taken : s.taken = []
  executed : s.executed = []
  live : s.live = []
  performed : s.performed = []
  appended : s.appended = []
  handled : s.handled = []
  returned : s.returned = []

end Xv6.Virtio
