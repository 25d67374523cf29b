import Xv6.Lib.Bytes
import Xv6.Lib.Hoare
import Xv6.Param
/-!
# Physical pages and page tables

`kernel/kalloc.c` and the page-table functions of `kernel/vm.c`, over physical
memory as an array of bytes: the free list is threaded through the free pages,
and a page table is a page of 64-bit entries. Addresses and sizes are the
source's `uint64`, as numbers below 2⁶⁴.

`fails` says which of the `kalloc` calls to come find no memory although the
list is not empty; a run for every such list is a run for every pattern of
failures.
-/

namespace Xv6.Vm

open Bytes Hoare

/-! ## memlayout.h, riscv.h -/

def PGSIZE : Nat := 4096
def KERNBASE : Nat := 0x80000000
def PHYSTOP : Nat := KERNBASE + 128 * 1024 * 1024
def MAXVA : Nat := 2 ^ 38
def TRAMPOLINE : Nat := MAXVA - PGSIZE
def TRAPFRAME : Nat := TRAMPOLINE - PGSIZE

/-- `PGROUNDUP`, in 64 bits -/
def pgroundup (sz : Nat) : Nat := (sz + PGSIZE - 1) % 2 ^ 64 / PGSIZE * PGSIZE
def pgrounddown (a : Nat) : Nat := a / PGSIZE * PGSIZE

def PTE_V : Nat := 1
def PTE_R : Nat := 2
def PTE_W : Nat := 4
def PTE_X : Nat := 8
def PTE_U : Nat := 16

def pa2pte (pa : Nat) : Nat := (pa >>> 12) <<< 10
def pte2pa (pte : Nat) : Nat := (pte >>> 10) <<< 12 % 2 ^ 64
def pteFlags (pte : Nat) : Nat := pte &&& 0x3FF
def px (level va : Nat) : Nat := va >>> (12 + 9 * level) &&& 0x1FF

/-- What `kernel.ld` says of the kernel's addresses. -/
structure Image where
  /-- `trampoline`, the last page of the kernel's text; `etext` comes right after it. -/
  trampoline : Nat
  /-- `end`, the first address after the kernel. -/
  kend : Nat
  aligned : trampoline % PGSIZE = 0
  base : KERNBASE ≤ trampoline
  text : trampoline + PGSIZE ≤ kend
  fits : kend ≤ PHYSTOP

structure Mem where
  bytes : Arr
  /-- `kmem.freelist` -/
  freelist : Nat
  img : Image
  fails : List Bool

inductive Panic where
  /-- "kfree" -/
  | kfree
  /-- "walk" -/
  | walk
  /-- "remap" -/
  | remap
  /-- "uvmunmap: not aligned" -/
  | unmapAligned
  /-- "uvmunmap: walk" -/
  | unmapWalk
  /-- "uvmunmap: not mapped" -/
  | unmapNotMapped
  /-- "uvmunmap: not a leaf" -/
  | unmapNotLeaf
  /-- "freewalk: leaf" -/
  | freewalkLeaf
  /-- The kernel stack runs over: `freewalk` calls itself below the last level of tables. -/
  | freewalkDeep
  /-- "uvmcopy: pte should exist" -/
  | copyNoPte
  /-- "uvmcopy: page not present" -/
  | copyNotPresent
  /-- "uvmclear" -/
  | uvmclear
  deriving DecidableEq

abbrev M := Prog Mem Panic

def load (a : Nat) : M Nat := do
  let s ← get
  return le64 s.bytes a

def store (a v : Nat) : M Unit := modify fun s => { s with bytes := put64 s.bytes a v }

def memset (a : Nat) (c : UInt8) : M Unit := modify fun s => { s with bytes := fill s.bytes a PGSIZE c }

def memmove (dst src n : Nat) : M Unit := modify fun s => { s with bytes := move s.bytes dst src n }

/-- `memmove` out of a buffer that is not a page of its own. -/
def memput (dst : Nat) (src : List UInt8) : M Unit := modify fun s => { s with bytes := blit s.bytes dst src }

/-! ## kalloc.c -/

def kfree (pa : Nat) : M Unit := do
  let s ← get
  if pa % PGSIZE ≠ 0 ∨ pa < s.img.kend ∨ pa ≥ PHYSTOP then throw .kfree
  memset pa 1
  store pa s.freelist
  modify fun s => { s with freelist := pa }

/-- 0 if there is no page, or if this call is one that fails. -/
def kalloc : M Nat := do
  let s ← get
  set { s with fails := s.fails.tail }
  if s.fails.headD false ∨ s.freelist = 0 then return 0
  let r := s.freelist
  let next ← load r
  modify fun s => { s with freelist := next }
  memset r 5
  return r

/-! ## vm.c -/

/-- The loop of `walk`, from `level` down. -/
def walkFrom (va : Nat) (alloc : Bool) : Nat → Nat → M Nat
  | 0, pagetable => return pagetable + 8 * px 0 va
  | level + 1, pagetable => do
    let a := pagetable + 8 * px (level + 1) va
    let pte ← load a
    if pte &&& PTE_V ≠ 0 then
      walkFrom va alloc level (pte2pa pte)
    else if !alloc then
      return 0
    else
      let child ← kalloc
      if child = 0 then return 0
      memset child 0
      store a (pa2pte child ||| PTE_V)
      walkFrom va alloc level child

/-- The address of the PTE for `va`, or 0. -/
def walk (pagetable va : Nat) (alloc : Bool) : M Nat := do
  if va ≥ MAXVA then throw .walk
  walkFrom va alloc 2 pagetable

def mapPage (pagetable perm a pa : Nat) : M Bool := do
  let pte ← walk pagetable a true
  if pte = 0 then return false
  let old ← load pte
  if old &&& PTE_V ≠ 0 then throw .remap
  store pte (pa2pte pa ||| perm ||| PTE_V)
  return true

/-- The rounds of `mappages` for `n + 1` pages from `a` on. -/
def mapFrom (pagetable perm : Nat) : Nat → Nat → Nat → M Bool
  | 0, a, pa => mapPage pagetable perm a pa
  | n + 1, a, pa => do
    if ← mapPage pagetable perm a pa then
      mapFrom pagetable perm n ((a + PGSIZE) % 2 ^ 64) ((pa + PGSIZE) % 2 ^ 64)
    else
      return false

/-- `true` for 0, `false` for -1. The loop leaves when `a` reaches `last`, which it does after the difference of the
two in pages. -/
def mappages (pagetable va size pa perm : Nat) : M Bool :=
  let a := pgrounddown va
  let last := pgrounddown ((va + size + 2 ^ 64 - 1) % 2 ^ 64)
  mapFrom pagetable perm ((last + 2 ^ 64 - a) % 2 ^ 64 / PGSIZE) a pa

def unmapPage (pagetable : Nat) (doFree : Bool) (a : Nat) : M Unit := do
  let pte ← walk pagetable a false
  if pte = 0 then throw .unmapWalk
  let old ← load pte
  if old &&& PTE_V = 0 then throw .unmapNotMapped
  if pteFlags old = PTE_V then throw .unmapNotLeaf
  if doFree then kfree (pte2pa old)
  store pte 0

/-- The rounds of `uvmunmap` from `a` on, `n` of them. -/
def unmapFrom (pagetable : Nat) (doFree : Bool) : Nat → Nat → M Unit
  | 0, _ => return ()
  | n + 1, a => do
    unmapPage pagetable doFree a
    unmapFrom pagetable doFree n (a + PGSIZE)

/-- `a` runs from `va` to `va + npages*PGSIZE`, which is a sum in 64 bits. -/
def uvmunmap (pagetable va npages : Nat) (doFree : Bool) : M Unit := do
  if va % PGSIZE ≠ 0 then throw .unmapAligned
  unmapFrom pagetable doFree (((va + npages * PGSIZE) % 2 ^ 64 - va) / PGSIZE) va

def uvmcreate : M Nat := do
  let pagetable ← kalloc
  if pagetable = 0 then return 0
  memset pagetable 0
  return pagetable

/-- An `int` passed as a `uint64`. -/
def sext32 (n : Nat) : Nat := if n % 2 ^ 32 < 2 ^ 31 then n % 2 ^ 32 else n % 2 ^ 32 + (2 ^ 64 - 2 ^ 32)

def uvmdealloc (pagetable oldsz newsz : Nat) : M Nat := do
  if newsz ≥ oldsz then return oldsz
  if pgroundup newsz < pgroundup oldsz then
    let npages := sext32 ((pgroundup oldsz - pgroundup newsz) / PGSIZE)
    uvmunmap pagetable (pgroundup newsz) npages true
  return newsz

/-- The rounds of `uvmalloc` from `a` on, `n` of them to go; `oldsz` is rounded up already. -/
def allocFrom (pagetable oldsz : Nat) : Nat → Nat → M Bool
  | 0, _ => return true
  | n + 1, a => do
    let mem ← kalloc
    if mem = 0 then
      let _ ← uvmdealloc pagetable a oldsz
      return false
    memset mem 0
    if ← mappages pagetable a PGSIZE mem (PTE_W ||| PTE_X ||| PTE_R ||| PTE_U) then
      allocFrom pagetable oldsz n (a + PGSIZE)
    else
      kfree mem
      let _ ← uvmdealloc pagetable a oldsz
      return false

/-- The new size, or 0. -/
def uvmalloc (pagetable oldsz newsz : Nat) : M Nat := do
  if newsz < oldsz then return oldsz
  let oldsz := pgroundup oldsz
  if ← allocFrom pagetable oldsz ((newsz - oldsz + PGSIZE - 1) / PGSIZE) oldsz then
    return newsz
  else
    return 0

/-- One round of `freewalk`; `free` is what it does with a lower-level page table. -/
def freeEntry (free : Nat → M Unit) (pagetable i : Nat) : M Unit := do
  let pte ← load (pagetable + 8 * i)
  if pte &&& PTE_V ≠ 0 ∧ pte &&& (PTE_R ||| PTE_W ||| PTE_X) = 0 then
    free (pte2pa pte)
    store (pagetable + 8 * i) 0
  else if pte &&& PTE_V ≠ 0 then
    throw .freewalkLeaf

/-- `level` bounds the recursion; a page table has three levels of tables. -/
def freewalk : Nat → Nat → M Unit
  | 0, _ => throw .freewalkDeep
  | level + 1, pagetable => do
    (List.range 512).forM (freeEntry (freewalk level) pagetable)
    kfree pagetable

def uvmfree (pagetable sz : Nat) : M Unit := do
  if sz > 0 then uvmunmap pagetable 0 (pgroundup sz / PGSIZE) true
  freewalk 3 pagetable

/-- The rounds of `uvmcopy` from `i` on, `n` of them to go. -/
def copyFrom (old new : Nat) : Nat → Nat → M Bool
  | 0, _ => return true
  | n + 1, i => do
    let pte ← walk old i false
    if pte = 0 then throw .copyNoPte
    let e ← load pte
    if e &&& PTE_V = 0 then throw .copyNotPresent
    let mem ← kalloc
    if mem = 0 then
      uvmunmap new 0 (i / PGSIZE) true
      return false
    memmove mem (pte2pa e) PGSIZE
    if ← mappages new i PGSIZE mem (pteFlags e) then
      copyFrom old new n (i + PGSIZE)
    else
      kfree mem
      uvmunmap new 0 (i / PGSIZE) true
      return false

/-- `true` for 0, `false` for -1. -/
def uvmcopy (old new sz : Nat) : M Bool := copyFrom old new ((sz + PGSIZE - 1) / PGSIZE) 0

def uvmclear (pagetable va : Nat) : M Unit := do
  let pte ← walk pagetable va false
  if pte = 0 then throw .uvmclear
  let e ← load pte
  store pte (e &&& (2 ^ 64 - 1 - PTE_U))

/-- The physical address of a user page, or 0. -/
def walkaddr (pagetable va : Nat) : M Nat := do
  if va ≥ MAXVA then return 0
  let pte ← walk pagetable va false
  if pte = 0 then return 0
  let e ← load pte
  if e &&& PTE_V = 0 then return 0
  if e &&& PTE_U = 0 then return 0
  return pte2pa e

/-- The rounds of `copyout`. Each moves at least one byte, so there are at most as many as bytes. -/
def copyoutFrom (pagetable : Nat) : Nat → Nat → List UInt8 → M Bool
  | 0, _, _ => return true
  | k + 1, dstva, src => do
    if src = [] then return true
    let va0 := pgrounddown dstva
    let pa0 ← walkaddr pagetable va0
    if pa0 = 0 then return false
    let n := PGSIZE - (dstva - va0)
    memput (pa0 + (dstva - va0)) (src.take n)
    copyoutFrom pagetable k ((va0 + PGSIZE) % 2 ^ 64) (src.drop n)

/-- `true` for 0, `false` for -1. -/
def copyout (pagetable dstva : Nat) (src : List UInt8) : M Bool := copyoutFrom pagetable src.length dstva src

def copyinFrom (pagetable : Nat) : Nat → Nat → Nat → M (List UInt8 × Bool)
  | 0, _, _ => return ([], true)
  | k + 1, srcva, len => do
    if len = 0 then return ([], true)
    let va0 := pgrounddown srcva
    let pa0 ← walkaddr pagetable va0
    if pa0 = 0 then return ([], false)
    let n := min (PGSIZE - (srcva - va0)) len
    let s ← get
    let (rest, ok) ← copyinFrom pagetable k ((va0 + PGSIZE) % 2 ^ 64) (len - n)
    return (grab s.bytes (pa0 + (srcva - va0)) n ++ rest, ok)

/-- What has been copied to `dst`, and whether that is all of it. -/
def copyin (pagetable srcva len : Nat) : M (List UInt8 × Bool) := copyinFrom pagetable len srcva len

def copyinstrFrom (pagetable : Nat) : Nat → Nat → Nat → M (List UInt8 × Bool)
  | 0, _, _ => return ([], false)
  | k + 1, srcva, max => do
    if max = 0 then return ([], false)
    let va0 := pgrounddown srcva
    let pa0 ← walkaddr pagetable va0
    if pa0 = 0 then return ([], false)
    let n := min (PGSIZE - (srcva - va0)) max
    let s ← get
    let str := grab s.bytes (pa0 + (srcva - va0)) n
    if 0 ∈ str then
      return (str.takeWhile (· ≠ 0) ++ [0], true)
    let (rest, ok) ← copyinstrFrom pagetable k ((va0 + PGSIZE) % 2 ^ 64) (max - n)
    return (str ++ rest, ok)

/-- What has been copied to `dst`, and whether it ends in a NUL. -/
def copyinstr (pagetable srcva max : Nat) : M (List UInt8 × Bool) := copyinstrFrom pagetable max srcva max

end Xv6.Vm
