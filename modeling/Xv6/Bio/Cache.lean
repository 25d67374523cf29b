import Xv6.Lib.Hoare
import Xv6.Log.Disk
/-!
# The buffer cache

`kernel/bio.c`, and the functions of `kernel/log.c` as they use it. `buf k` is
`bcache.buf[k]` for `k < NBUF`; `bcache.head` is `buf NBUF`, and the `prev` and
`next` pointers are such indices. A call that has to sleep for a buffer's lock
stops with `sleeps`, and its process is then `waiting` for the buffer; a walk
along the list that does not come back to the head stops with `spins`; every
other stop is a panic.

`held` and `wrapped` are not in the code: who has a buffer from `bread` and has
not called `brelse`, and whether a reference count was ever decremented at 0.
-/

namespace Xv6.Bio

open Bytes Hoare Log Function

structure Buf where
  valid : Bool
  dev : Nat
  blockno : Nat
  /-- The process that holds `lock`. -/
  lock : Option Nat
  refcnt : UInt32
  prev : Nat
  next : Nat
  data : Block

structure St where
  buf : Nat → Buf
  disk : Nat → Block
  /-- `log.start`, `log.size`, `log.dev`, `log.outstanding` and `log.lh.block[0 .. log.lh.n)` -/
  start : Nat
  size : Int
  dev : Nat
  outstanding : Int
  lh : List Nat
  /-- The processes asleep in `acquiresleep`, each with its buffer. -/
  waiting : List (Nat × Nat)
  held : List (Nat × Nat)
  wrapped : Bool

inductive Stop where
  /-- "bget: no buffers" -/
  | noBuffers
  /-- "bwrite" -/
  | bwrite
  /-- "brelse" -/
  | brelse
  /-- "too big a transaction" -/
  | tooBig
  /-- "log_write outside of trans" -/
  | outsideTrans
  /-- "invalid file system" -/
  | invalidFs
  | sleeps
  | spins
  deriving DecidableEq

abbrev M := Prog St Stop

/-! ## The list -/

/-- Walk along `go` from `b` to the head and stop at the first buffer with `ok`. -/
def scan (c : Nat → Buf) (go : Buf → Nat) (ok : Buf → Bool) : Nat → Nat → Option (Option Nat)
  | 0, _ => none
  | fuel + 1, b =>
    if b = NBUF then some none else if ok (c b) then some (some b) else scan c go ok fuel (go (c b))

def setPrev (c : Nat → Buf) (k v : Nat) : Nat → Buf := update c k { c k with prev := v }

def setNext (c : Nat → Buf) (k v : Nat) : Nat → Buf := update c k { c k with next := v }

/-- `b->next->prev = b->prev; b->prev->next = b->next` -/
def unlink (c : Nat → Buf) (b : Nat) : Nat → Buf :=
  let c := setPrev c (c b).next (c b).prev
  setNext c (c b).prev (c b).next

/-- `b->next = head.next; b->prev = &head; head.next->prev = b; head.next = b` -/
def insertFront (c : Nat → Buf) (b : Nat) : Nat → Buf :=
  let c := setNext c b (c NBUF).next
  let c := setPrev c b NBUF
  let c := setPrev c (c NBUF).next b
  setNext c NBUF b

/-! ## bio.c -/

def setBuf (k : Nat) (f : Buf → Buf) : M Unit :=
  modify fun s => { s with buf := update s.buf k (f (s.buf k)) }

def decRef (k : Nat) : M Unit :=
  modify fun s => { s with
    buf := update s.buf k { s.buf k with refcnt := (s.buf k).refcnt - 1 }
    wrapped := s.wrapped || (s.buf k).refcnt == 0 }

def acquiresleep (p k : Nat) : M Unit := do
  let s ← get
  if (s.buf k).lock.isSome then
    set { s with waiting := (p, k) :: s.waiting }
    throw .sleeps
  setBuf k fun b => { b with lock := some p }

def bget (p dev blockno : Nat) : M Nat := do
  let s ← get
  match scan s.buf Buf.next (fun b => b.dev == dev && b.blockno == blockno) (NBUF + 1) (s.buf NBUF).next with
  | none => throw .spins
  | some (some k) =>
    setBuf k fun b => { b with refcnt := b.refcnt + 1 }
    acquiresleep p k
    return k
  | some none =>
    match scan s.buf Buf.prev (fun b => b.refcnt == 0) (NBUF + 1) (s.buf NBUF).prev with
    | none => throw .spins
    | some (some k) =>
      setBuf k fun b => { b with dev, blockno, valid := false, refcnt := 1 }
      acquiresleep p k
      return k
    | some none => throw .noBuffers

/-- The rest of `bread` once `bget` has returned buffer `k`. -/
def fill (p k : Nat) : M Unit := do
  let s ← get
  if ¬ (s.buf k).valid then
    setBuf k fun b => { b with data := s.disk b.blockno, valid := true }
  modify fun s => { s with held := (p, k) :: s.held }

def bread (p dev blockno : Nat) : M Nat := do
  let k ← bget p dev blockno
  fill p k
  return k

/-- A sleeping `bread` finds the lock free and goes on. -/
def wake (p k : Nat) : M Unit := do
  modify fun s => { s with waiting := s.waiting.erase (p, k) }
  acquiresleep p k
  fill p k

def bwrite (p k : Nat) : M Unit := do
  let s ← get
  if (s.buf k).lock ≠ some p then throw .bwrite
  set { s with disk := update s.disk (s.buf k).blockno (s.buf k).data }

def brelse (p k : Nat) : M Unit := do
  let s ← get
  if (s.buf k).lock ≠ some p then throw .brelse
  setBuf k fun b => { b with lock := none }
  decRef k
  modify fun s => { s with held := s.held.erase (p, k) }
  modify fun s => if (s.buf k).refcnt = 0 then { s with buf := insertFront (unlink s.buf k) k } else s

def bpin (k : Nat) : M Unit := setBuf k fun b => { b with refcnt := b.refcnt + 1 }

def bunpin (k : Nat) : M Unit := decRef k

/-- The caches of a booting kernel, all zero, linked by `binit`. -/
def binit : Nat → Buf :=
  let zero : Buf :=
    { valid := false, dev := 0, blockno := 0, lock := none, refcnt := 0, prev := 0, next := 0, data := fun _ => 0 }
  (List.range NBUF).foldl insertFront (update (fun _ => zero) NBUF { zero with prev := NBUF, next := NBUF })

/-! ## log.c -/

/-- `memmove(dst->data, src->data, BSIZE)` -/
def copyData (dst src : Nat) : M Unit := do
  let s ← get
  setBuf dst fun b => { b with data := (s.buf src).data }

def installFrom (p : Nat) : Nat → List Nat → M Unit
  | _, [] => pure ()
  | tail, b :: l => do
    let s ← get
    let lbuf ← bread p s.dev (s.start + tail + 1)
    let dbuf ← bread p s.dev b
    copyData dbuf lbuf
    bwrite p dbuf
    bunpin dbuf
    brelse p lbuf
    brelse p dbuf
    installFrom p (tail + 1) l

def installTrans (p : Nat) : M Unit := do
  let s ← get
  installFrom p 0 s.lh

def readHead (p : Nat) : M Unit := do
  let s ← get
  let k ← bread p s.dev s.start
  modify fun s => { s with lh := (headBlocks (s.buf k).data).map UInt32.toNat }
  brelse p k

def writeHead (p : Nat) : M Unit := do
  let s ← get
  let k ← bread p s.dev s.start
  setBuf k fun b => { b with data := putHead b.data (s.lh.map UInt32.ofNat) }
  bwrite p k
  brelse p k

def recoverFromLog (p : Nat) : M Unit := do
  readHead p
  installTrans p
  modify fun s => { s with lh := [] }
  writeHead p

def writeLogFrom (p : Nat) : Nat → List Nat → M Unit
  | _, [] => pure ()
  | tail, b :: l => do
    let s ← get
    let dst ← bread p s.dev (s.start + tail + 1)
    let src ← bread p s.dev b
    copyData dst src
    bwrite p dst
    brelse p src
    brelse p dst
    writeLogFrom p (tail + 1) l

def writeLog (p : Nat) : M Unit := do
  let s ← get
  writeLogFrom p 0 s.lh

def commit (p : Nat) : M Unit := do
  let s ← get
  if s.lh.length > 0 then
    writeLog p
    writeHead p
    installTrans p
    modify fun s => { s with lh := [] }
    writeHead p

def logWrite (k : Nat) : M Unit := do
  let s ← get
  if s.lh.length ≥ LOGSIZE ∨ (s.lh.length : Int) ≥ s.size - 1 then throw .tooBig
  if s.outstanding < 1 then throw .outsideTrans
  let b := (s.buf k).blockno
  let i := s.lh.idxOf b
  if i = s.lh.length then
    bpin k
    modify fun s => { s with lh := s.lh ++ [b] }
  else
    modify fun s => { s with lh := s.lh.set i b }

/-! ## Boot -/

def fsMagic : Nat := 0x10203040

/-- `fsinit`: read the superblock in block 1, then `initlog`. -/
def fsinit (p dev : Nat) : M Unit := do
  let k ← bread p dev 1
  let s ← get
  let sb := (s.buf k).data
  brelse p k
  if le32 sb 0 ≠ fsMagic then throw .invalidFs
  modify fun s => { s with start := le32 sb 20, size := (BitVec.ofNat 32 (le32 sb 16)).toInt, dev }
  recoverFromLog p

/-- The kernel before `fsinit`, on a disk. -/
def boot (disk : Nat → Block) : St :=
  { buf := binit, disk, start := 0, size := 0, dev := 0, outstanding := 0, lh := [], waiting := [],
    held := [], wrapped := false }

/-! ## Calls -/

inductive Call where
  | bread (p blockno : Nat)
  /-- A `bread` that went to sleep returns. -/
  | wake (p k : Nat)
  /-- The holder of a buffer changes its contents. -/
  | write (p k : Nat) (data : Block)
  | bwrite (p k : Nat)
  | brelse (p k : Nat)
  | logWrite (p k : Nat)
  | commit (p : Nat)
  /-- `begin_op` and `end_op` have left `log.outstanding` at `n`. -/
  | outstanding (n : Int)

def perform : Call → M Unit
  | .bread p b => do
    let _ ← bread p ROOTDEV b
    return ()
  | .wake p k => wake p k
  | .write _ k data => setBuf k fun b => { b with data }
  | .bwrite p k => bwrite p k
  | .brelse p k => brelse p k
  | .logWrite _ k => logWrite k
  | .commit p => commit p
  | .outstanding n => modify fun s => { s with outstanding := n }

/-- Process `p` is not asleep. -/
def Runs (s : St) (p : Nat) : Prop := p < NPROC ∧ ∀ k, (p, k) ∉ s.waiting

/-- A process that is not asleep makes the call, and passes a buffer it has from `bread`. -/
def Allowed (s : St) : Call → Prop
  | .bread p _ | .commit p => Runs s p
  | .wake p k => (p, k) ∈ s.waiting ∧ (s.buf k).lock = none
  | .bwrite p k | .brelse p k | .logWrite p k | .write p k _ => Runs s p ∧ (p, k) ∈ s.held
  | .outstanding _ => True

/-- A call returns, or it is a `bread` that goes to sleep. -/
def Step (s : St) (c : Call) (s' : St) : Prop :=
  Allowed s c ∧ (exec (perform c) s = (.ok (), s') ∨
    (∃ p b, c = .bread p b) ∧ exec (perform c) s = (.error .sleeps, s'))

end Xv6.Bio
