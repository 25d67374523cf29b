import Xv6.Fs.Code
/-!
# System calls

`kernel/file.c`, `kernel/sysfile.c` and what `fork`, `exit` and `exec` do with
files, as called by the process `myproc`. Pipes and devices are kept apart
from the disk: what is read from and written to them is not part of the state,
but which pages hold pipes, and which of their ends are open, is.
-/

namespace Xv6.Fs

open Bytes Hoare Function

variable (sb : Superblock)

/-- What `argstr` leaves in a buffer of `MAXPATH` characters. -/
structure Str where
  chars : List UInt8
  nonul : 0 ∉ chars
  short : chars.length < MAXPATH

/-! ## file.c -/

def setFile (f : Nat) (g : File → File) : M Unit :=
  modify fun s => { s with ftable := update s.ftable f (g (s.ftable f)) }

def setProc (p : Nat) (g : Proc → Proc) : M Unit :=
  modify fun s => { s with proc := update s.proc p (g (s.proc p)) }

def filealloc : M (Option Nat) := do
  let s ← get
  match (List.range NFILE).find? fun f => decide ((s.ftable f).ref = 0) with
  | some f =>
    setFile f fun x => { x with ref := 1 }
    return some f
  | none => return none

def filedup (f : Nat) : M Nat := do
  if ((← get).ftable f).ref < 1 then throw .filedup
  setFile f fun x => { x with ref := x.ref + 1 }
  return f

def setPipe (pi : Nat) (x : Option Pipe) : M Unit := modify fun s => { s with pipes := update s.pipes pi x }

/-- One end of a pipe is closed, and with the second one its page is freed. -/
def pipeclose (pi : Nat) (writable : Bool) : M Unit := do
  match (← get).pipes pi with
  | none => throw .deadPipe
  | some x =>
    let x : Pipe := if writable then { x with writeopen := false } else { x with readopen := false }
    setPipe pi (if x.readopen ∨ x.writeopen then some x else none)

def fileclose (f : Nat) : M Unit := do
  let ff := (← get).ftable f
  if ff.ref < 1 then throw .fileclose
  if ff.ref - 1 > 0 then
    setFile f fun x => { x with ref := x.ref - 1 }
  else
    setFile f fun x => { x with ref := 0, type := .none }
    if ff.type = .pipe then pipeclose ff.pipe ff.writable
    else if ff.type = .inode ∨ ff.type = .device then
      beginOp
      iput sb ff.ip
      endOp

/-- `stati` and the copy to user memory, which fails or not. -/
def filestat (f : Nat) (copied : Bool) : M Int := do
  let ff := (← get).ftable f
  if ff.type = .inode ∨ ff.type = .device then
    ilock sb ff.ip
    iunlock ff.ip
    return if copied then 0 else -1
  else return -1

/-- A count that the C code keeps in an `int`, read as a `uint`. -/
def toUint (n : Int) : Nat := (n % 2 ^ 32).toNat

/-- Of a pipe or device the answer is `r`. -/
def fileread (f : Nat) (dst : Dst) (n r : Int) : M Int := do
  let ff := (← get).ftable f
  if !ff.readable then return -1
  match ff.type with
  | .pipe => return r
  | .device => if ff.major < 0 ∨ ff.major ≥ NDEV then return -1 else return r
  | .inode =>
    ilock sb ff.ip
    let got ← readi sb ff.ip dst ff.off (toUint n)
    if 0 < got.1 then setFile f fun x => { x with off := (x.off + got.1) % 2 ^ 32 }
    iunlock ff.ip
    return got.1
  | .none => throw .fileread

/-- The bytes that one transaction of `filewrite` writes. -/
def chunk : Nat := (MAXOPBLOCKS - 1 - 1 - 2) / 2 * BSIZE

/-- `src` from `i` on -/
def Src.from (src : Src) (i : Nat) : Src :=
  match src with
  | .kernel bytes => .kernel (bytes.drop i)
  | .user mem addr => .user mem (addr + i)

/-- One transaction of `filewrite`. -/
def writeChunk (f : Nat) (src : Src) (i n1 : Nat) : M Int := do
  let ff := (← get).ftable f
  beginOp
  ilock sb ff.ip
  let r ← writei sb ff.ip (src.from i) ff.off n1
  if 0 < r then setFile f fun x => { x with off := (x.off + r.toNat) % 2 ^ 32 }
  iunlock ff.ip
  endOp
  return r

/-- The loop of `filewrite`: the bytes written when it ends. -/
def writeLoop (f : Nat) (src : Src) (n : Nat) : Nat → Nat → M Nat
  | 0, i => return i
  | fuel + 1, i => do
    if i < n then
      let n1 := min (n - i) chunk
      let r ← writeChunk sb f src i n1
      if r < 0 then return i
      if r ≠ n1 then throw .shortFilewrite
      writeLoop f src n fuel (i + n1)
    else return i

def filewrite (f : Nat) (src : Src) (n r : Int) : M Int := do
  let ff := (← get).ftable f
  if !ff.writable then return -1
  match ff.type with
  | .pipe => return r
  | .device => if ff.major < 0 ∨ ff.major ≥ NDEV then return -1 else return r
  | .inode =>
    let i ← writeLoop sb f src n.toNat (n.toNat / chunk + 1) 0
    return if (i : Int) = n then n else -1
  | .none => throw .filewrite

/-! ## sysfile.c -/

/-- The file of a descriptor; `argfd` fails on the numbers that are none. -/
def argfd (fd : Int) : M (Option Nat) := do
  let s ← get
  return if fd < 0 ∨ fd ≥ NOFILE then none else (s.proc s.myproc).ofile fd.toNat

def fdalloc (f : Nat) : M (Option Nat) := do
  let s ← get
  match (List.range NOFILE).find? fun fd => ((s.proc s.myproc).ofile fd).isNone with
  | some fd =>
    setProc s.myproc fun p => { p with ofile := update p.ofile fd (some f) }
    return some fd
  | none => return none

def clearFd (fd : Nat) : M Unit := do
  let s ← get
  setProc s.myproc fun p => { p with ofile := update p.ofile fd none }

def sysDup (fd : Int) : M Int := do
  match ← argfd fd with
  | none => return -1
  | some f =>
    match ← fdalloc f with
    | none => return -1
    | some fd =>
      let _ ← filedup f
      return fd

def sysRead (fd : Int) (dst : Dst) (n r : Int) : M Int := do
  match ← argfd fd with
  | none => return -1
  | some f => fileread sb f dst n r

def sysWrite (fd : Int) (src : Src) (n r : Int) : M Int := do
  match ← argfd fd with
  | none => return -1
  | some f => filewrite sb f src n r

def sysClose (fd : Int) : M Int := do
  match ← argfd fd with
  | none => return -1
  | some f =>
    clearFd fd.toNat
    fileclose sb f
    return 0

def sysFstat (fd : Int) (copied : Bool) : M Int := do
  match ← argfd fd with
  | none => return -1
  | some f => filestat sb f copied

/-- A change of the link count, kept in a `short`. -/
def addLink (k : Nat) (d : Int) : M Unit := setDi k fun x => { x with nlink := toShort (x.nlink + d) }

/-- `bad:` of `sys_link` -/
def linkBad (ip : Nat) : M Int := do
  ilock sb ip
  addLink ip (-1)
  iupdate sb ip
  iunlockput sb ip
  endOp
  return -1

def sysLink (old new : Option Str) : M Int := do
  match old, new with
  | some old, some new =>
    beginOp
    match ← namei sb old.chars with
    | none =>
      endOp
      return -1
    | some ip =>
      ilock sb ip
      if ((← get).icache ip).di.type = T_DIR then
        iunlockput sb ip
        endOp
        return -1
      else
        addLink ip 1
        iupdate sb ip
        iunlock ip
        match ← nameiparent sb new.chars with
        | none => linkBad sb ip
        | some (dp, name) =>
          ilock sb dp
          let s ← get
          if (s.icache dp).dev ≠ (s.icache ip).dev then
            iunlockput sb dp
            linkBad sb ip
          else
            let r ← dirlink sb dp name (s.icache ip).inum
            if r < 0 then
              iunlockput sb dp
              linkBad sb ip
            else
              iunlockput sb dp
              iput sb ip
              endOp
              return 0
  | _, _ => return -1

def isdirempty (k : Nat) : M Bool := do
  let size := ((← get).icache k).di.size
  let r ← scan sb k .isdirempty (fun de => de.inum ≠ 0) (size / DESIZE + 1) (2 * DESIZE)
  return r.2.isNone

def dot : List UInt8 := [46]
def dotdot : List UInt8 := [46, 46]

/-- `bad:` of `sys_unlink` -/
def unlinkBad (dp : Nat) : M Int := do
  iunlockput sb dp
  endOp
  return -1

/-- `sys_unlink`, once the entry of `ip` at `off` may go. -/
def unlinkEntry (dp ip off : Nat) : M Int := do
  let w ← writei sb dp (.kernel (List.replicate DESIZE 0)) off DESIZE
  if w ≠ DESIZE then throw .unlinkWritei
  if ((← get).icache ip).di.type = T_DIR then
    addLink dp (-1)
    iupdate sb dp
  iunlockput sb dp
  addLink ip (-1)
  iupdate sb ip
  iunlockput sb ip
  endOp
  return 0

def sysUnlink (path : Option Str) : M Int := do
  match path with
  | none => return -1
  | some path =>
    beginOp
    match ← nameiparent sb path.chars with
    | none =>
      endOp
      return -1
    | some (dp, name) =>
      ilock sb dp
      if namecmp name dot = 0 ∨ namecmp name dotdot = 0 then unlinkBad sb dp
      else
        match ← dirlookup sb dp name with
        | none => unlinkBad sb dp
        | some (ip, off) =>
          ilock sb ip
          let x := ((← get).icache ip).di
          if x.nlink < 1 then throw .unlinkNlink
          if x.type = T_DIR then
            if ← isdirempty sb ip then unlinkEntry sb dp ip off
            else
              iunlockput sb ip
              unlinkBad sb dp
          else unlinkEntry sb dp ip off

/-- The entries "." and ".." of a new directory. -/
def createDots (dp ip : Nat) : M Unit := do
  addLink dp 1
  iupdate sb dp
  let s ← get
  let r ← dirlink sb ip dot (s.icache ip).inum
  if r < 0 then throw .createDots
  let r ← dirlink sb ip dotdot (s.icache dp).inum
  if r < 0 then throw .createDots

/-- The inode it returns is locked. -/
def create (path : List UInt8) (type major minor : Int) : M (Option Nat) := do
  match ← nameiparent sb path with
  | none => return none
  | some (dp, name) =>
    ilock sb dp
    match ← dirlookup sb dp name with
    | some (ip, _) =>
      iunlockput sb dp
      ilock sb ip
      let x := ((← get).icache ip).di
      if type = T_FILE ∧ (x.type = T_FILE ∨ x.type = T_DEVICE) then return some ip
      else
        iunlockput sb ip
        return none
    | none =>
      let ip ← ialloc sb ((← get).icache dp).dev type
      ilock sb ip
      setDi ip fun x => { x with major := toShort major, minor := toShort minor, nlink := 1 }
      iupdate sb ip
      if type = T_DIR then createDots sb dp ip
      let r ← dirlink sb dp name ((← get).icache ip).inum
      if r < 0 then throw .createDirlink
      iunlockput sb dp
      return some ip

def O_WRONLY : Nat := 0x001
def O_RDWR : Nat := 0x002
def O_CREATE : Nat := 0x200
def O_TRUNC : Nat := 0x400

/-- The inode that `sys_open` opens, locked. -/
def openInode (path : List UInt8) (omode : Nat) : M (Option Nat) := do
  if omode &&& O_CREATE ≠ 0 then create sb path T_FILE 0 0
  else
    match ← namei sb path with
    | none => return none
    | some ip =>
      ilock sb ip
      if ((← get).icache ip).di.type = T_DIR ∧ omode ≠ 0 then
        iunlockput sb ip
        return none
      else return some ip

/-- A file and a descriptor for it. -/
def openFile : M (Option (Nat × Nat)) := do
  match ← filealloc with
  | none => return none
  | some f =>
    match ← fdalloc f with
    | none =>
      fileclose sb f
      return none
    | some fd => return some (f, fd)

def Inode.opened (x : Inode) (ip omode : Nat) (f : File) : File :=
  { f with
    type := if x.di.type = T_DEVICE then .device else .inode
    major := if x.di.type = T_DEVICE then x.di.major else f.major
    off := if x.di.type = T_DEVICE then f.off else 0
    ip := ip
    readable := omode &&& O_WRONLY = 0
    writable := omode &&& O_WRONLY ≠ 0 ∨ omode &&& O_RDWR ≠ 0 }

def sysOpen (path : Option Str) (omode : Nat) : M Int := do
  match path with
  | none => return -1
  | some path =>
    beginOp
    match ← openInode sb path.chars omode with
    | none =>
      endOp
      return -1
    | some ip =>
      let x := (← get).icache ip
      if x.di.type = T_DEVICE ∧ (x.di.major < 0 ∨ x.di.major ≥ NDEV) then
        iunlockput sb ip
        endOp
        return -1
      else
        match ← openFile sb with
        | none =>
          iunlockput sb ip
          endOp
          return -1
        | some (f, fd) =>
          setFile f (x.opened ip omode)
          if omode &&& O_TRUNC ≠ 0 ∧ x.di.type = T_FILE then itrunc sb ip
          iunlock ip
          endOp
          return fd

/-- `sys_mkdir` and `sys_mknod` -/
def make (path : Option Str) (type major minor : Int) : M Int := do
  beginOp
  match path with
  | none =>
    endOp
    return -1
  | some path =>
    match ← create sb path.chars type major minor with
    | none =>
      endOp
      return -1
    | some ip =>
      iunlockput sb ip
      endOp
      return 0

def sysMkdir (path : Option Str) : M Int := make sb path T_DIR 0 0

def sysMknod (path : Option Str) (major minor : Int) : M Int := make sb path T_DEVICE major minor

def sysChdir (path : Option Str) : M Int := do
  let p := (← get).myproc
  beginOp
  match path with
  | none =>
    endOp
    return -1
  | some path =>
    match ← namei sb path.chars with
    | none =>
      endOp
      return -1
    | some ip =>
      ilock sb ip
      if ((← get).icache ip).di.type ≠ T_DIR then
        iunlockput sb ip
        endOp
        return -1
      else
        iunlock ip
        match ((← get).proc p).cwd with
        | none => throw .noCwd
        | some cwd =>
          iput sb cwd
          endOp
          setProc p fun x => { x with cwd := some ip }
          return 0

/-- The part of `exec` that reads the file: `reads` are the offsets and lengths of the
headers and segments it gets to before it succeeds or gives up. -/
def sysExec (path : Option Str) (reads : List (Nat × Nat)) : M Int := do
  match path with
  | none => return -1
  | some path =>
    beginOp
    match ← namei sb path.chars with
    | none =>
      endOp
      return -1
    | some ip =>
      ilock sb ip
      reads.forM fun r => do
        let _ ← readi sb ip .kernel (r.1 % 2 ^ 32) (r.2 % 2 ^ 32)
      iunlockput sb ip
      endOp
      return 0

/-- `kalloc` finds the page `page`, if any: never one that is in use. -/
def kalloc (page : Option Nat) : M (Option Nat) := do
  let s ← get
  return page.filter fun pi => (s.pipes pi).isNone

def pipealloc (page : Option Nat) : M (Option (Nat × Nat)) := do
  match ← filealloc with
  | none => return none
  | some f0 =>
    match ← filealloc with
    | none =>
      fileclose sb f0
      return none
    | some f1 =>
      match ← kalloc page with
      | some pi =>
        setPipe pi (some ⟨true, true⟩)
        setFile f0 fun x => { x with type := .pipe, readable := true, writable := false, pipe := pi }
        setFile f1 fun x => { x with type := .pipe, readable := false, writable := true, pipe := pi }
        return some (f0, f1)
      | none =>
        fileclose sb f0
        fileclose sb f1
        return none

/-- `copied` says whether both descriptors get to user memory. -/
def sysPipe (page : Option Nat) (copied : Bool) : M Int := do
  match ← pipealloc sb page with
  | none => return -1
  | some (rf, wf) =>
    match ← fdalloc rf with
    | none =>
      fileclose sb rf
      fileclose sb wf
      return -1
    | some fd0 =>
      match ← fdalloc wf with
      | none =>
        clearFd fd0
        fileclose sb rf
        fileclose sb wf
        return -1
      | some fd1 =>
        if copied then return 0
        else
          clearFd fd0
          clearFd fd1
          fileclose sb rf
          fileclose sb wf
          return -1

/-! ## proc.c -/

/-- The child's descriptors; `memory` says whether there is room for the child's memory. -/
def fork (memory : Bool) : M Int := do
  let s ← get
  match (List.range NPROC).find? fun p => !(s.proc p).used with
  | none => return -1
  | some np =>
    if memory then
      (List.range NOFILE).forM fun fd => do
        match (s.proc s.myproc).ofile fd with
        | none => pure ()
        | some f =>
          let _ ← filedup f
          setProc np fun x => { x with ofile := update x.ofile fd (some f) }
      match (s.proc s.myproc).cwd with
      | none => throw .noCwd
      | some cwd =>
        let cwd ← idup cwd
        setProc np fun x => { x with used := true, cwd := some cwd }
        return np
    else return -1

/-- Process 0 is `initproc`. -/
def exit : M Unit := do
  let s ← get
  if s.myproc = 0 then throw .initExiting
  (List.range NOFILE).forM fun fd => do
    match ((← get).proc s.myproc).ofile fd with
    | none => pure ()
    | some f =>
      fileclose sb f
      clearFd fd
  beginOp
  match ((← get).proc s.myproc).cwd with
  | none => throw .noCwd
  | some cwd =>
    iput sb cwd
    endOp
    setProc s.myproc fun x => { x with used := false, cwd := none }

/-! ## Sequences of calls -/

/-- A system call with its arguments. -/
inductive Call where
  | dup (fd : Int)
  | read (fd : Int) (dst : Dst) (n r : Int)
  | write (fd : Int) (mem : Nat → Option UInt8) (addr : Nat) (n r : Int)
  | close (fd : Int)
  | fstat (fd : Int) (copied : Bool)
  | link (old new : Option Str)
  | unlink (path : Option Str)
  | «open» (path : Option Str) (omode : Nat)
  | mkdir (path : Option Str)
  | mknod (path : Option Str) (major minor : Int)
  | chdir (path : Option Str)
  | exec (path : Option Str) (reads : List (Nat × Nat))
  | pipe (page : Option Nat) (copied : Bool)
  | fork (memory : Bool)
  | exit
  /-- `wait`, `sbrk` and the other calls that use no file. -/
  | other (r : Int)

def syscall : Call → M Int
  | .dup fd => sysDup fd
  | .read fd dst n r => sysRead sb fd dst n r
  | .write fd mem addr n r => sysWrite sb fd (.user mem addr) n r
  | .close fd => sysClose sb fd
  | .fstat fd copied => sysFstat sb fd copied
  | .link old new => sysLink sb old new
  | .unlink path => sysUnlink sb path
  | .open path omode => sysOpen sb path omode
  | .mkdir path => sysMkdir sb path
  | .mknod path major minor => sysMknod sb path major minor
  | .chdir path => sysChdir sb path
  | .exec path reads => sysExec sb path reads
  | .pipe page copied => sysPipe sb page copied
  | .fork memory => fork memory
  | .exit => do
    exit sb
    return 0
  | .other r => return r

end Xv6.Fs
