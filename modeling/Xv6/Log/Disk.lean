import Xv6.Lib.Bytes
import Xv6.Lib.Redo
import Xv6.Param
/-!
# The log on disk

The functions of `kernel/log.c` that touch the disk, in the order in which
they issue their writes. A `Machine` is the disk, the buffer cache as a map
from block numbers to cached contents, and `log.lh`. `written` records every
`bwrite`, oldest first: a crash after `k` of them leaves the first `k` on the
disk and loses everything else.
-/

namespace Xv6.Log

open Bytes Redo

/-- The bytes of a disk block; offsets from `BSIZE` on are not used. -/
abbrev Block := Arr

structure Machine where
  disk : Nat → Block
  /-- The cached contents of a block, if a buffer holds it. -/
  cached : Nat → Option Block
  written : List (Nat × Block)
  /-- `log.start` -/
  start : Nat
  /-- `log.lh.block[0 .. log.lh.n)` -/
  lh : List UInt32

namespace Machine

/-- A buffer with the contents of block `b`. -/
def bread (s : Machine) (b : Nat) : Block × Machine :=
  match s.cached b with
  | some data => (data, s)
  | none => (s.disk b, { s with cached := Function.update s.cached b (some (s.disk b)) })

/-- Write the buffer of block `b`, whose contents are now `data`. -/
def bwrite (s : Machine) (b : Nat) (data : Block) : Machine :=
  { s with
    disk := Function.update s.disk b data
    cached := Function.update s.cached b (some data)
    written := s.written ++ [(b, data)] }

def block (s : Machine) (tail : Nat) : Nat := (s.lh.getD tail 0).toNat

end Machine

/-! ## The header block: `int n; int block[LOGSIZE]` -/

/-- `lh->n`; a negative `int` runs no loop. -/
def headN (b : Block) : Nat := if le32 b 0 < 2 ^ 31 then le32 b 0 else 0

/-- The entries `read_head` copies. -/
def headBlocks (b : Block) : List UInt32 := (List.range (headN b)).map fun i => UInt32.ofNat (le32 b (4 + 4 * i))

/-- The entries from position `i` on, as `write_head` stores them. -/
def putBlocks (b : Block) : Nat → List UInt32 → Block
  | _, [] => b
  | i, x :: l => putBlocks (put32 b (4 + 4 * i) x.toNat) (i + 1) l

/-- `write_head`'s update of the header buffer; bytes behind the entries stay. -/
def putHead (b : Block) (l : List UInt32) : Block := putBlocks (put32 b 0 l.length) 0 l

/-! ## log.c -/

def installAt (s : Machine) (tail : Nat) : Machine :=
  let (lbuf, s) := s.bread (s.start + tail + 1)
  let (_, s) := s.bread (s.block tail)
  s.bwrite (s.block tail) lbuf

def installTrans (s : Machine) : Machine := (List.range s.lh.length).foldl installAt s

def readHead (s : Machine) : Machine :=
  let (buf, s) := s.bread s.start
  { s with lh := headBlocks buf }

def writeHead (s : Machine) : Machine :=
  let (buf, s) := s.bread s.start
  s.bwrite s.start (putHead buf s.lh)

def recoverFromLog (s : Machine) : Machine :=
  let s := installTrans (readHead s)
  writeHead { s with lh := [] }

def writeLogAt (s : Machine) (tail : Nat) : Machine :=
  let (_, s) := s.bread (s.start + tail + 1)
  let (src, s) := s.bread (s.block tail)
  s.bwrite (s.start + tail + 1) src

def writeLog (s : Machine) : Machine := (List.range s.lh.length).foldl writeLogAt s

def commit (s : Machine) : Machine :=
  if 0 < s.lh.length then
    let s := installTrans (writeHead (writeLog s))
    writeHead { s with lh := [] }
  else s

/-! ## Crashes -/

/-- Block `b` is in the log region `log.start .. log.start + log.size - 1`. -/
def InLog (s : Machine) (size b : Nat) : Prop := s.start ≤ b ∧ b < s.start + size

instance (s : Machine) (size b : Nat) : Decidable (InLog s size b) := inferInstanceAs (Decidable (_ ∧ _))

/-- The disk after the first `k` writes of `commit`. -/
def commitCrash (s : Machine) (k : Nat) : Nat → Block :=
  applyWrites s.disk (((commit s).written.drop s.written.length).take k)

/-- The machine after a boot: an empty cache and nothing in memory. -/
def boot (start : Nat) (d : Nat → Block) : Machine :=
  { disk := d, cached := fun _ => none, written := [], start, lh := [] }

/-- The disk after the first `k` writes of a recovery of `d`. -/
def recoverCrash (start : Nat) (d : Nat → Block) (k : Nat) : Nat → Block :=
  applyWrites d ((recoverFromLog (boot start d)).written.take k)

/-- `d'` is left by any number of recoveries of `d`, each cut off after some write. -/
inductive Restarts (start : Nat) : (Nat → Block) → (Nat → Block) → Prop
  | none (d) : Restarts start d d
  | crash {d d'} (k : Nat) : Restarts start d d' → Restarts start d (recoverCrash start d' k)

/-- The disk after a recovery that runs to its end. -/
def recovered (start : Nat) (d : Nat → Block) : Nat → Block := (recoverFromLog (boot start d)).disk

end Xv6.Log
