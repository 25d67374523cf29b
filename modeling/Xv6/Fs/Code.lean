import Xv6.Fs.Disk
import Xv6.Lib.Hoare
/-!
# Blocks, inodes, directories and paths

`kernel/fs.c`, with what it uses of `kernel/log.c`, `kernel/sleeplock.c` and
`kernel/string.c`, run by one process at a time. A block is its contents as
seen through the buffer cache; `trace` records the calls of `begin_op`,
`end_op` and `log_write`, which the code itself keeps no record of.
-/

namespace Xv6.Fs

open Bytes Hoare

/-- `struct inode`; `di` is the copy of the disk inode. -/
structure Inode where
  dev : Nat
  inum : Nat
  ref : Int
  /-- The process that holds `ip->lock`. -/
  lock : Option Nat
  valid : Bool
  di : Dinode

inductive FdType where
  | none | pipe | inode | device
  deriving DecidableEq

/-- `struct file`; `pipe` is the page of a pipe. -/
structure File where
  type : FdType
  ref : Int
  readable : Bool
  writable : Bool
  pipe : Nat
  ip : Nat
  off : Nat
  major : Int

/-- `struct pipe`, without its contents. -/
structure Pipe where
  readopen : Bool
  writeopen : Bool

/-- What `struct proc` says of files. -/
structure Proc where
  used : Bool
  ofile : Nat → Option Nat
  cwd : Option Nat

inductive Ev where
  | beginOp (p : Nat)
  | endOp (p : Nat)
  | logWrite (p b : Nat)
  deriving DecidableEq

structure St where
  blk : Nat → Arr
  /-- What a block reads as on the disk itself, once the log is installed. -/
  disk : Nat → Arr
  icache : Nat → Inode
  ftable : Nat → File
  /-- The pages that hold a pipe. -/
  pipes : Nat → Option Pipe
  proc : Nat → Proc
  /-- `myproc()` -/
  myproc : Nat
  /-- `log.outstanding` -/
  outstanding : Int
  /-- `log.lh.block`, the first `log.lh.n` of them -/
  lh : List Nat
  /-- Calls into the log, the last one first. -/
  trace : List Ev

inductive Stop where
  /-- "too big a transaction" -/
  | tooBig
  /-- "log_write outside of trans" -/
  | outsideTrans
  /-- "balloc: out of blocks" -/
  | outOfBlocks
  /-- "freeing free block" -/
  | freeingFree
  /-- "ialloc: no inodes" -/
  | iallocNone
  /-- "iget: no inodes" -/
  | igetNone
  /-- "ilock" -/
  | ilock
  /-- "ilock: no type" -/
  | ilockNoType
  /-- "iunlock" -/
  | iunlock
  /-- "bmap: out of range" -/
  | bmapRange
  /-- "dirlookup not DIR" -/
  | dirlookupNotDir
  /-- "dirlookup read" -/
  | dirlookupRead
  /-- "dirlink read" -/
  | dirlinkRead
  /-- "dirlink" -/
  | dirlink
  /-- "filedup" -/
  | filedup
  /-- "fileclose" -/
  | fileclose
  /-- "fileread" -/
  | fileread
  /-- "filewrite" -/
  | filewrite
  /-- "short filewrite" -/
  | shortFilewrite
  /-- "isdirempty: readi" -/
  | isdirempty
  /-- "unlink: nlink < 1" -/
  | unlinkNlink
  /-- "unlink: writei" -/
  | unlinkWritei
  /-- "create dots" -/
  | createDots
  /-- "create: dirlink" -/
  | createDirlink
  /-- "init exiting" -/
  | initExiting
  /-- The process waits for a sleep-lock or for log space, and no one else runs. -/
  | blocked
  /-- The process has no current directory: the kernel follows a null pointer. -/
  | noCwd
  /-- The page of a pipe has been freed: the kernel follows a dead pointer. -/
  | deadPipe
  deriving DecidableEq

abbrev M := Prog St Stop

def setBlk (b : Nat) (f : Arr → Arr) : M Unit :=
  modify fun s => { s with blk := Function.update s.blk b (f (s.blk b)) }

def setInode (k : Nat) (f : Inode → Inode) : M Unit :=
  modify fun s => { s with icache := Function.update s.icache k (f (s.icache k)) }

/-- A change to the copy of the disk inode. -/
def setDi (k : Nat) (f : Dinode → Dinode) : M Unit := setInode k fun ip => { ip with di := f ip.di }

variable (sb : Superblock)

/-! ## log.c -/

def record (f : Nat → Ev) : M Unit := modify fun s => { s with trace := f s.myproc :: s.trace }

def beginOp : M Unit := do
  record .beginOp
  let s ← get
  if s.lh.length + (s.outstanding + 1) * MAXOPBLOCKS > LOGSIZE then throw .blocked
  set { s with outstanding := s.outstanding + 1 }

/-- The last `end_op` commits: what is in the header goes to the disk, and the header is emptied. -/
def endOp : M Unit := do
  record .endOp
  modify fun s => { s with
    outstanding := s.outstanding - 1
    lh := if s.outstanding - 1 = 0 then [] else s.lh
    disk := if s.outstanding - 1 = 0 then fun b => if b ∈ s.lh then s.blk b else s.disk b else s.disk }

def logWrite (b : Nat) : M Unit := do
  record fun p => .logWrite p b
  let s ← get
  if s.lh.length ≥ LOGSIZE ∨ s.lh.length ≥ sb.nlog - 1 then throw .tooBig
  if s.outstanding < 1 then throw .outsideTrans
  set { s with lh := if b ∈ s.lh then s.lh else s.lh ++ [b] }

/-! ## sleeplock.c -/

def acquiresleep (k : Nat) : M Unit := do
  let s ← get
  if (s.icache k).lock.isSome then throw .blocked
  setInode k fun ip => { ip with lock := some s.myproc }

def releasesleep (k : Nat) : M Unit := setInode k fun ip => { ip with lock := none }

/-! ## Blocks -/

def bzero (bno : Nat) : M Unit := do
  setBlk bno fun a => fill a 0 BSIZE 0
  logWrite sb bno

/-- The bit of block `b` in the free map. -/
def used (blk : Nat → Arr) (b : Nat) : Bool := bit (blk (sb.bblock b)) (b % BPB)

/-- The two loops of `balloc` look at the bits of the blocks in order. -/
def balloc : M Nat := do
  let s ← get
  match (List.range sb.size).find? fun b => !used sb s.blk b with
  | some b =>
    setBlk (sb.bblock b) fun a => setBit a (b % BPB)
    logWrite sb (sb.bblock b)
    bzero sb b
    return b
  | none => throw .outOfBlocks

def bfree (b : Nat) : M Unit := do
  let s ← get
  if !used sb s.blk b then throw .freeingFree
  setBlk (sb.bblock b) fun a => clearBit a (b % BPB)
  logWrite sb (sb.bblock b)

/-! ## Inodes -/

/-- The disk inode with number `i`. -/
def dinode (blk : Nat → Arr) (i : Nat) : Dinode := getDinode (blk (sb.iblock i)) (i % IPB)

def iget (dev inum : Nat) : M Nat := do
  let s ← get
  match (List.range NINODE).find? fun k =>
      decide (0 < (s.icache k).ref ∧ (s.icache k).dev = dev ∧ (s.icache k).inum = inum) with
  | some k =>
    setInode k fun ip => { ip with ref := ip.ref + 1 }
    return k
  | none =>
    match (List.range NINODE).find? fun k => decide ((s.icache k).ref = 0) with
    | some k =>
      setInode k fun ip => { ip with dev := dev, inum := inum, ref := 1, valid := false }
      return k
    | none => throw .igetNone

/-- `memset(dip, 0, sizeof(*dip))`, then the type -/
def Dinode.fresh (type : Int) : Dinode := ⟨type, 0, 0, 0, 0, fun _ => 0⟩

def ialloc (dev : Nat) (type : Int) : M Nat := do
  let s ← get
  match (List.range' 1 (sb.ninodes - 1)).find? fun i => decide ((dinode sb s.blk i).type = 0) with
  | some i =>
    setBlk (sb.iblock i) fun a => putDinode a (i % IPB) (.fresh type)
    logWrite sb (sb.iblock i)
    iget dev i
  | none => throw .iallocNone

def iupdate (k : Nat) : M Unit := do
  let ip := (← get).icache k
  setBlk (sb.iblock ip.inum) fun a => putDinode a (ip.inum % IPB) ip.di
  logWrite sb (sb.iblock ip.inum)

def idup (k : Nat) : M Nat := do
  setInode k fun ip => { ip with ref := ip.ref + 1 }
  return k

def ilock (k : Nat) : M Unit := do
  let s ← get
  if (s.icache k).ref < 1 then throw .ilock
  acquiresleep k
  if !(s.icache k).valid then
    setInode k fun ip => { ip with di := dinode sb s.blk ip.inum, valid := true }
    if ((← get).icache k).di.type = 0 then throw .ilockNoType

def iunlock (k : Nat) : M Unit := do
  let s ← get
  if (s.icache k).lock ≠ some s.myproc ∨ (s.icache k).ref < 1 then throw .iunlock
  releasesleep k

/-! ## Inode content -/

def setAddr (k j b : Nat) : M Unit := setDi k fun x => { x with addrs := Function.update x.addrs j b }

def newAddr (k j : Nat) : M Nat := do
  let addr ← balloc sb
  setAddr k j addr
  return addr

/-- `bmap`, once there is an indirect block. -/
def bmapIndirect (k e : Nat) : M Nat := do
  let s ← get
  let ind := (s.icache k).di.addrs NDIRECT
  if le32 (s.blk ind) (4 * e) = 0 then
    let addr ← balloc sb
    setBlk ind fun a => put32 a (4 * e) addr
    logWrite sb ind
    return addr
  else return le32 (s.blk ind) (4 * e)

def bmap (k bn : Nat) : M Nat := do
  let x := ((← get).icache k).di
  if bn < NDIRECT then
    if x.addrs bn = 0 then newAddr sb k bn
    else return x.addrs bn
  else if bn - NDIRECT < NINDIRECT then
    if x.addrs NDIRECT = 0 then
      let _ ← newAddr sb k NDIRECT
    bmapIndirect sb k (bn - NDIRECT)
  else throw .bmapRange

/-- The loop of `itrunc` over the direct blocks. -/
def truncDirect (k : Nat) : M Unit :=
  (List.range NDIRECT).forM fun i => do
    let s ← get
    if (s.icache k).di.addrs i ≠ 0 then
      bfree sb ((s.icache k).di.addrs i)
      setAddr k i 0

/-- The loop of `itrunc` over the blocks listed in the indirect block `ind`. -/
def truncIndirect (ind : Nat) : M Unit :=
  (List.range NINDIRECT).forM fun j => do
    let s ← get
    if le32 (s.blk ind) (4 * j) ≠ 0 then bfree sb (le32 (s.blk ind) (4 * j))

def itrunc (k : Nat) : M Unit := do
  truncDirect sb k
  let s ← get
  let ind := (s.icache k).di.addrs NDIRECT
  if ind ≠ 0 then
    truncIndirect sb ind
    bfree sb ind
    setAddr k NDIRECT 0
  setDi k fun x => { x with size := 0 }
  iupdate sb k

/-- The part of `iput` for an inode that has no links and no other references. -/
def ifree (k : Nat) : M Unit := do
  acquiresleep k
  itrunc sb k
  setDi k fun x => { x with type := 0 }
  iupdate sb k
  setInode k fun ip => { ip with valid := false }
  releasesleep k

def iput (k : Nat) : M Unit := do
  let ip := (← get).icache k
  if ip.ref = 1 ∧ ip.valid ∧ ip.di.nlink = 0 then ifree sb k
  setInode k fun ip => { ip with ref := ip.ref - 1 }

def iunlockput (k : Nat) : M Unit := do
  iunlock k
  iput sb k

/-- Where `readi` puts its data: a kernel address, or a user address with the
addresses that are mapped. -/
inductive Dst where
  | kernel
  | user (mapped : Nat → Bool) (addr : Nat)

/-- `either_copyout` at `dst + tot`: the bytes that it stores before it fails, if it does. -/
def Dst.copyout (dst : Dst) (tot : Nat) (src : List UInt8) : List UInt8 :=
  match dst with
  | .kernel => src
  | .user mapped addr => src.take ((List.range src.length).takeWhile fun i => mapped ((addr + tot + i) % 2 ^ 64)).length

/-- Where `writei` takes its data from: kernel memory, or user memory by address. -/
inductive Src where
  | kernel (bytes : List UInt8)
  | user (mem : Nat → Option UInt8) (addr : Nat)

/-- `either_copyin` of `m` bytes at `src + tot`: the bytes that it gets before it fails, if it does. -/
def Src.copyin (src : Src) (tot m : Nat) : List UInt8 :=
  match src with
  | .kernel bytes => (bytes.drop tot).take m
  | .user mem addr =>
    (((List.range m).map fun i => mem ((addr + tot + i) % 2 ^ 64)).takeWhile Option.isSome).map (·.getD 0)

/-- The loop of `readi`: what it returns, and all bytes it stored. -/
def readiLoop (k : Nat) (dst : Dst) (n : Nat) : Nat → Nat → Nat → List UInt8 → M (Nat × List UInt8)
  | 0, tot, _, out => return (tot, out)
  | fuel + 1, tot, off, out => do
    if tot < n then
      let b ← bmap sb k (off / BSIZE)
      let s ← get
      let m := min (n - tot) (BSIZE - off % BSIZE)
      let stored := dst.copyout tot (grab (s.blk b) (off % BSIZE) m)
      if stored.length < m then return (tot, out ++ stored)
      readiLoop k dst n fuel (tot + m) (off + m) (out ++ stored)
    else return (tot, out)

def readi (k : Nat) (dst : Dst) (off n : Nat) : M (Nat × List UInt8) := do
  let size := ((← get).icache k).di.size
  if off > size ∨ (off + n) % 2 ^ 32 < off then return (0, [])
  let n := if (off + n) % 2 ^ 32 > size then size - off else n
  readiLoop sb k dst n (n / BSIZE + 2) 0 off []

def writeiLoop (k : Nat) (src : Src) (n : Nat) : Nat → Nat → Nat → M Nat
  | 0, _, off => return off
  | fuel + 1, tot, off => do
    if tot < n then
      let b ← bmap sb k (off / BSIZE)
      let m := min (n - tot) (BSIZE - off % BSIZE)
      let data := src.copyin tot m
      setBlk b fun a => blit a (off % BSIZE) data
      if data.length < m then return off
      logWrite sb b
      writeiLoop k src n fuel (tot + m) (off + m)
    else return off

def writei (k : Nat) (src : Src) (off n : Nat) : M Int := do
  let size := ((← get).icache k).di.size
  if off > size ∨ (off + n) % 2 ^ 32 < off then return -1
  if (off + n) % 2 ^ 32 > MAXFILE * BSIZE then return -1
  let off ← writeiLoop sb k src n (n / BSIZE + 2) 0 off
  if n > 0 then
    if off > size then setDi k fun x => { x with size := off }
    iupdate sb k
  return n

/-! ## Directories -/

/-- `strncmp` on arrays of characters; after the last one listed comes a NUL. -/
def strncmp : List UInt8 → List UInt8 → Nat → Int
  | _, _, 0 => 0
  | p, q, n + 1 =>
    if p.headD 0 ≠ 0 ∧ p.headD 0 = q.headD 0 then strncmp p.tail q.tail n
    else (p.headD 0).toNat - (q.headD 0).toNat

/-- The `n` characters that `strncpy` stores. -/
def strncpy : List UInt8 → Nat → List UInt8
  | _, 0 => []
  | t, n + 1 => if t.headD 0 = 0 then List.replicate (n + 1) 0 else t.headD 0 :: strncpy t.tail n

def namecmp (s t : List UInt8) : Int := strncmp s t DIRSIZ

def DESIZE : Nat := 16

/-- Read the entries of directory `k` from `off` on, up to one that `stop` accepts:
the offset reached, and the entry there. -/
def scan (k : Nat) (short : Stop) (stop : Dirent → Bool) : Nat → Nat → M (Nat × Option Dirent)
  | 0, off => return (off, none)
  | fuel + 1, off => do
    if off < ((← get).icache k).di.size then
      let r ← readi sb k .kernel off DESIZE
      if r.1 ≠ DESIZE then throw short
      let de := Dirent.ofBytes r.2
      if stop de then return (off, some de)
      scan k short stop fuel (off + DESIZE)
    else return (off, none)

/-- The inode named, and the offset of the entry. -/
def dirlookup (k : Nat) (name : List UInt8) : M (Option (Nat × Nat)) := do
  let dp := (← get).icache k
  if dp.di.type ≠ T_DIR then throw .dirlookupNotDir
  let r ← scan sb k .dirlookupRead (fun de => de.inum ≠ 0 ∧ namecmp name de.name = 0) (dp.di.size / DESIZE + 1) 0
  match r.2 with
  | some de =>
    let ip ← iget dp.dev de.inum
    return some (ip, r.1)
  | none => return none

def dirlink (k : Nat) (name : List UInt8) (inum : Nat) : M Int := do
  match ← dirlookup sb k name with
  | some ip =>
    iput sb ip.1
    return -1
  | none =>
    let size := ((← get).icache k).di.size
    let r ← scan sb k .dirlinkRead (fun de => de.inum = 0) (size / DESIZE + 1) 0
    let de : Dirent := ⟨inum % 65536, strncpy name DIRSIZ⟩
    let w ← writei sb k (.kernel de.bytes) r.1 DESIZE
    if w ≠ DESIZE then throw .dirlink
    return 0

/-! ## Paths -/

def slash : UInt8 := 47

/-- The next element of a path, cut to `DIRSIZ` characters, and the path after it. -/
def skipelem (path : List UInt8) : Option (List UInt8 × List UInt8) :=
  let s := path.dropWhile (· = slash)
  if s = [] then none
  else some ((s.takeWhile (· ≠ slash)).take DIRSIZ, (s.dropWhile (· ≠ slash)).dropWhile (· = slash))

/-- The elements that repeated calls of `skipelem` give. -/
def elems : Nat → List UInt8 → List (List UInt8)
  | 0, _ => []
  | fuel + 1, path =>
    match skipelem path with
    | none => []
    | some (name, rest) => name :: elems fuel rest

/-- The loop of `namex`, over the elements left. -/
def walk (nameiparent : Bool) : Nat → List (List UInt8) → M (Option (Nat × List UInt8))
  | ip, [] => do
    if nameiparent then
      iput sb ip
      return none
    else return some (ip, [])
  | ip, name :: rest => do
    ilock sb ip
    if ((← get).icache ip).di.type ≠ T_DIR then
      iunlockput sb ip
      return none
    else if nameiparent ∧ rest = [] then
      iunlock ip
      return some (ip, name)
    else
      match ← dirlookup sb ip name with
      | none =>
        iunlockput sb ip
        return none
      | some next =>
        iunlockput sb ip
        walk nameiparent next.1 rest

def namex (path : List UInt8) (nameiparent : Bool) : M (Option (Nat × List UInt8)) := do
  let s ← get
  if path.head? = some slash then
    let ip ← iget ROOTDEV ROOTINO
    walk sb nameiparent ip (elems (path.length + 1) path)
  else
    match (s.proc s.myproc).cwd with
    | none => throw .noCwd
    | some cwd =>
      let ip ← idup cwd
      walk sb nameiparent ip (elems (path.length + 1) path)

def namei (path : List UInt8) : M (Option Nat) := do
  return (← namex sb path false).map (·.1)

def nameiparent (path : List UInt8) : M (Option (Nat × List UInt8)) := namex sb path true

end Xv6.Fs
