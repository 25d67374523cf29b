import Xv6.Fs.Path
import Xv6.Printf
/-!
# find

`user/find.c`, and the system calls as it sees them: a tree of files that nobody
changes meanwhile, the descriptors of the process, and what it prints. The file
table of the kernel always has room. Strings are lists without the NUL.
-/

namespace Xv6.Find

open Fs (Dirent cut components namecmp slash dot dotdot DIRSIZ ROOTINO)
open Printf (Arg vprintf)

/-- What an inode stands for. -/
inductive Node where
  | dir (entries : List Dirent)
  | file (size : Nat)
  | device (major : Int)

structure Files where
  node : Nat → Node
  cwd : Nat

def Files.entries (fs : Files) (i : Nat) : List Dirent :=
  match fs.node i with
  | .dir es => es
  | _ => []

def Node.isDir : Node → Bool
  | .dir _ => true
  | _ => false

/-- The test of `sys_open` on devices. -/
def Node.opens : Node → Bool
  | .device major => 0 ≤ major && major < NDEV
  | _ => true

/-- `dirlookup`, for any inode: `namex` asks for a directory. -/
def Files.dirlookup (fs : Files) (i : Nat) (name : List UInt8) : Option Nat :=
  ((fs.entries i).find? fun de => decide (de.inum ≠ 0 ∧ namecmp name de.name = 0)).map Dirent.inum

def Files.namei (fs : Files) (path : List UInt8) : Option Nat :=
  (components path).foldlM fs.dirlookup (if path.head? = some slash then ROOTINO else fs.cwd)

structure St where
  /-- The inode and the next entry, for each open descriptor. -/
  ofile : Nat → Option (Nat × Nat)
  out : List UInt8
  err : List UInt8

def fdalloc (s : St) : Option Nat := (List.range NOFILE).find? fun fd => (s.ofile fd).isNone

/-- `open` for reading; `none` is -1. -/
def Files.open (fs : Files) (path : List UInt8) (s : St) : Option (Nat × St) :=
  if path.length < MAXPATH then
    (fs.namei path).bind fun i =>
      if (fs.node i).opens then
        (fdalloc s).map fun fd => (fd, { s with ofile := Function.update s.ofile fd (some (i, 0)) })
      else none
  else none

def close (fd : Nat) (s : St) : St := { s with ofile := Function.update s.ofile fd none }

/-- The number of the inode, and what it stands for. -/
def Files.fstat (fs : Files) (fd : Nat) (s : St) : Option (Nat × Node) := (s.ofile fd).map fun x => (x.1, fs.node x.1)

/-- `read` of one entry; `none` at the end. -/
def Files.read (fs : Files) (fd : Nat) (s : St) : Option (Dirent × St) :=
  (s.ofile fd).bind fun x =>
    (fs.entries x.1)[x.2]?.map fun de => (de, { s with ofile := Function.update s.ofile fd (some (x.1, x.2 + 1)) })

def Files.stat (fs : Files) (n : List UInt8) (s : St) : Option (Nat × Node) × St :=
  match fs.open n s with
  | none => (none, s)
  | some (fd, s) => (fs.fstat fd s, close fd s)

def chars (s : String) : List UInt8 := s.toList.map Char.toUInt8

def printf (fmt : String) (ap : List Arg) (s : St) : Option St :=
  (vprintf (chars fmt ++ [0]) false ap).map fun out => { s with out := s.out ++ out }

def eprintf (fmt : String) (ap : List Arg) (s : St) : Option St :=
  (vprintf (chars fmt ++ [0]) false ap).map fun out => { s with err := s.err ++ out }

def fmtname (path : List UInt8) : List UInt8 :=
  let p := (path.reverse.takeWhile (· ≠ slash)).reverse
  if p.length ≥ DIRSIZ then p else (p ++ List.replicate (DIRSIZ - p.length) 0).takeWhile (· ≠ 0)

/-- `buf` after the entry's name is copied to it. -/
def sub (path : List UInt8) (de : Dirent) : List UInt8 := path ++ slash :: cut de.name

/-- What `find` prints of a file called `target`. -/
def report (st : Node) (buf : List UInt8) (s : St) : Option St :=
  match st with
  | .file _ => printf "file:%s\n" [.str (some buf)] s
  | .dir _ => printf "dir :%s\n" [.str (some buf)] s
  | .device _ => some s

/-- The body of the loop, with `find` for the call in it. -/
def visit (fs : Files) (target : List UInt8) (find : List UInt8 → St → Option St) (path : List UInt8) (de : Dirent)
    (s : St) : Option St :=
  if de.inum = 0 then some s
  else
    match fs.stat (sub path de) s with
    | (none, s) => printf "ls: cannot stat %s\n" [.str (some (sub path de))] s
    | (some st, s) =>
      (if fmtname (sub path de) = target then report st.2 (sub path de) s else some s).bind fun s =>
        if fmtname (sub path de) ≠ dotdot ∧ fmtname (sub path de) ≠ dot ∧ st.2.isDir then find (sub path de) s else some s

/-- The loop. Each round reads an entry, so it ends after one round more than there are. -/
def scan (fs : Files) (body : Dirent → St → Option St) (fd : Nat) : Nat → St → Option St
  | 0, _ => none
  | k + 1, s =>
    match fs.read fd s with
    | none => some s
    | some (de, s) => (body de s).bind (scan fs body fd k)

/-- `find`, for as many calls within each other as the first argument says. -/
def find (fs : Files) (target : List UInt8) : Nat → List UInt8 → St → Option St
  | 0, _, _ => none
  | n + 1, path, s =>
    match fs.open path s with
    | none => eprintf "ls: cannot open %s\n" [.str (some path)] s
    | some (fd, s) =>
      match fs.fstat fd s with
      | none => (eprintf "ls: cannot stat %s\n" [.str (some path)] s).map (close fd)
      | some (ino, .file size) =>
        (printf "%s %d %d %l\n" [.str (some (fmtname path)), .word 2, .word (.ofNat 64 ino), .word (.ofNat 64 size)] s).map
          (close fd)
      | some (_, .dir es) =>
        if path.length + 1 + DIRSIZ + 1 > 512 then (printf "ls: path too long\n" [] s).map (close fd)
        else (scan fs (visit fs target (find fs target n) path) fd (es.length + 1) s).map (close fd)
      | some (_, .device _) => some (close fd s)

def main (fs : Files) (n : Nat) (argv : List (List UInt8)) (s : St) : Option St :=
  if argv.length < 2 then find fs (chars "a") n (chars ".") s
  else (argv.drop 1).foldlM (fun s arg => find fs [] n arg s) s

end Xv6.Find
