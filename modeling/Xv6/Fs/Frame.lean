import Mathlib.Data.List.TakeWhile
import Xv6.Fs.Calls
/-!
# What all of fs.c keeps

`fs.c` changes the state in five ways: it writes to an inode in memory, it
changes a block and calls `log_write` for it, and it enters and leaves
transactions. A relation between states that allows these (`Frame`) holds
between the states before and after every function of `fs.c`, and of the
system calls that touch no descriptor.

`writei` is the exception. When the copy from user memory fails part of the way,
it has changed a block that it does not log; `Src.Whole` says when that does
not happen.
-/

namespace Xv6.Fs

open Bytes Hoare List

/-- A relation that allows what `fs.c` does. -/
class Frame (R : St → St → Prop) : Prop where
  refl : ∀ s, R s s
  trans : ∀ {s t u}, R s t → R t u → R s u
  record : ∀ s t, R s { s with trace := t }
  inode : ∀ s c, R s { s with icache := c }
  begin : ∀ s, R s { s with outstanding := s.outstanding + 1 }
  logged : ∀ s b a, R s { s with
    blk := Function.update s.blk b a
    lh := if b ∈ s.lh then s.lh else s.lh ++ [b] }
  «end» : ∀ s, R s { s with
    outstanding := s.outstanding - 1
    lh := if s.outstanding - 1 = 0 then [] else s.lh
    disk := if s.outstanding - 1 = 0 then fun b => if b ∈ s.lh then s.blk b else s.disk b else s.disk }

/-- The panics of `fs.c` and of the system calls, without those that tell of a wrong count of files or pipes. -/
def Stop.fs : Stop → Prop
  | .filedup | .fileclose | .deadPipe => False
  | _ => True

/-- Every panic of `fs.c` is allowed. -/
class Panics (P : Stop → Prop) : Prop where
  fs : ∀ {e : Stop}, e.fs → P e

instance : Panics Stop.fs := ⟨id⟩

instance : Panics fun _ => True := ⟨fun _ => trivial⟩

/-- The same panics without that of `sys_unlink` on a link count. -/
def Stop.inner : Stop → Prop
  | .unlinkNlink => False
  | e => e.fs

/-- Every panic of `fs.c` is allowed, but perhaps not that on a link count. -/
class Inner (P : Stop → Prop) : Prop where
  inner : ∀ {e : Stop}, e.inner → P e

instance {P : Stop → Prop} [Panics P] : Inner P := ⟨fun {e} h => Panics.fs (by cases e <;> first | exact h | trivial)⟩

variable (sb : Superblock) {R : St → St → Prop} {P : Stop → Prop} [Frame R] [Inner P]

instance : Std.Refl R := ⟨Frame.refl⟩

instance : Trans R R R := ⟨Frame.trans⟩

variable {α : Type} {src : Src} {k n off : Nat}

omit [Frame R] in
theorem keeps_panic {e : Stop} (h : e.inner) : Keeps R P (throw e : M α) := keeps_throw (Inner.inner h)

/-! ## log.c -/

omit [Inner P] in
theorem keeps_record (f : Nat → Ev) : Keeps R P (record f) := keeps_modify fun s => Frame.record s _

theorem keeps_beginOp : Keeps R P beginOp := by
  refine (keeps_record _).bind fun _ s => ?_
  simp only [wp_bind, wp_get, wp_ite, wp_throw, wp_set]
  exact ⟨fun _ => Inner.inner trivial, fun _ => Frame.begin s⟩

omit [Inner P] in
theorem keeps_endOp : Keeps R P endOp := (keeps_record _).bind fun _ => keeps_modify Frame.end

theorem keeps_logged (b : Nat) (f : Arr → Arr) : Keeps R P (do setBlk b f; logWrite sb b) := by
  intro s
  unfold setBlk logWrite record
  simp only [wp_bind, wp_get, wp_ite, wp_throw, wp_set, wp_modify]
  exact ⟨fun _ => Inner.inner trivial, fun _ => ⟨fun _ => Inner.inner trivial, fun _ =>
    Frame.trans (Frame.record s _) (Frame.logged { s with trace := .logWrite s.myproc b :: s.trace } b _)⟩⟩

theorem keeps_logged_bind (b : Nat) (f : Arr → Arr) {m : Unit → M α} (h : ∀ u, Keeps R P (m u)) :
    Keeps R P (setBlk b f >>= fun _ => logWrite sb b >>= m) := by
  have := (keeps_logged sb b f).bind h
  rw [bind_assoc] at this
  exact this

/-! ## Inodes and blocks -/

omit [Inner P] in
theorem keeps_setInode (k : Nat) (f : Inode → Inode) : Keeps R P (setInode k f) := keeps_modify fun s => Frame.inode s _

omit [Inner P] in
theorem keeps_setDi (k : Nat) (f : Dinode → Dinode) : Keeps R P (setDi k f) := keeps_setInode _ _

omit [Inner P] in
theorem keeps_setAddr (k j b : Nat) : Keeps R P (setAddr k j b) := keeps_setDi _ _

theorem keeps_acquiresleep (k : Nat) : Keeps R P (acquiresleep k) := by
  unfold acquiresleep
  exact keeps_get.bind fun _ => .ite ((keeps_panic (by exact trivial)).bind fun _ => keeps_setInode _ _) (keeps_setInode _ _)

theorem keeps_balloc : Keeps R P (balloc sb) := by
  unfold balloc
  refine keeps_get.bind fun s => ?_
  split
  · exact keeps_logged_bind sb _ _ fun _ => (keeps_logged sb _ _).bind fun _ => keeps_pure _
  · exact keeps_panic (by exact trivial)

theorem keeps_bfree (b : Nat) : Keeps R P (bfree sb b) := by
  unfold bfree
  exact keeps_get.bind fun s => .ite ((keeps_panic (by exact trivial)).bind fun _ => keeps_logged sb _ _) (keeps_logged sb _ _)

theorem keeps_iget (dev inum : Nat) : Keeps R P (iget dev inum) := by
  unfold iget
  refine keeps_get.bind fun s => ?_
  split
  · exact (keeps_setInode _ _).bind fun _ => keeps_pure _
  · split
    · exact (keeps_setInode _ _).bind fun _ => keeps_pure _
    · exact keeps_panic (by exact trivial)

theorem keeps_ialloc (dev : Nat) (type : Int) : Keeps R P (ialloc sb dev type) := by
  unfold ialloc
  refine keeps_get.bind fun s => ?_
  split
  · exact keeps_logged_bind sb _ _ fun _ => keeps_iget _ _
  · exact keeps_panic (by exact trivial)

theorem keeps_iupdate (k : Nat) : Keeps R P (iupdate sb k) := by
  unfold iupdate
  exact keeps_get.bind fun s => keeps_logged sb _ _

theorem keeps_ilock (k : Nat) : Keeps R P (ilock sb k) := by
  unfold ilock
  refine keeps_get.bind fun s => .ite ((keeps_panic (by exact trivial)).bind fun _ => ?_) ?_
  all_goals
    exact (keeps_acquiresleep _).bind fun _ => .ite
      ((keeps_setInode _ _).bind fun _ => keeps_get.bind fun _ => .ite (keeps_panic (by exact trivial)) (keeps_pure _)) (keeps_pure _)

theorem keeps_iunlock (k : Nat) : Keeps R P (iunlock k) := by
  unfold iunlock
  exact keeps_get.bind fun s => .ite ((keeps_panic (by exact trivial)).bind fun _ => keeps_setInode _ _) (keeps_setInode _ _)

theorem keeps_newAddr (k j : Nat) : Keeps R P (newAddr sb k j) := by
  unfold newAddr
  exact (keeps_balloc sb).bind fun _ => (keeps_setAddr _ _ _).bind fun _ => keeps_pure _

theorem keeps_bmapIndirect (k e : Nat) : Keeps R P (bmapIndirect sb k e) := by
  unfold bmapIndirect
  refine keeps_get.bind fun s => .ite ?_ (keeps_pure _)
  exact (keeps_balloc sb).bind fun _ => keeps_logged_bind sb _ _ fun _ => keeps_pure _

theorem keeps_bmap (k bn : Nat) : Keeps R P (bmap sb k bn) := by
  unfold bmap
  refine keeps_get.bind fun s => .ite (.ite (keeps_newAddr sb _ _) (keeps_pure _)) (.ite ?_ (keeps_panic (by exact trivial)))
  exact .ite ((keeps_newAddr sb _ _).bind fun _ => keeps_bmapIndirect sb _ _) (keeps_bmapIndirect sb _ _)

theorem keeps_itrunc (k : Nat) : Keeps R P (itrunc sb k) := by
  have hdirect : Keeps R P (truncDirect sb k) := keeps_forM _ fun i _ => keeps_get.bind fun s =>
    .ite ((keeps_bfree sb _).bind fun _ => keeps_setAddr _ _ _) (keeps_pure _)
  have hindirect : ∀ ind, Keeps R P (truncIndirect sb ind) := fun ind => keeps_forM _ fun j _ =>
    keeps_get.bind fun s => .ite (keeps_bfree sb _) (keeps_pure _)
  have hend : Keeps R P (do setDi k fun x => { x with size := 0 }; iupdate sb k) :=
    (keeps_setDi _ _).bind fun _ => keeps_iupdate sb k
  unfold itrunc
  refine hdirect.bind fun _ => keeps_get.bind fun s => .ite ?_ hend
  exact (hindirect _).bind fun _ => (keeps_bfree sb _).bind fun _ => (keeps_setAddr _ _ _).bind fun _ => hend

theorem keeps_iput (k : Nat) : Keeps R P (iput sb k) := by
  have hfree : Keeps R P (ifree sb k) := (keeps_acquiresleep _).bind fun _ => (keeps_itrunc sb _).bind fun _ =>
    (keeps_setDi _ _).bind fun _ => (keeps_iupdate sb _).bind fun _ => (keeps_setInode _ _).bind fun _ =>
    keeps_setInode _ _
  unfold iput
  exact keeps_get.bind fun s => .ite (hfree.bind fun _ => keeps_setInode _ _) (keeps_setInode _ _)

theorem keeps_iunlockput (k : Nat) : Keeps R P (iunlockput sb k) := (keeps_iunlock k).bind fun _ => keeps_iput sb k

/-! ## Contents -/

theorem keeps_readi (k : Nat) (dst : Dst) (off n : Nat) : Keeps R P (readi sb k dst off n) := by
  have hloop : ∀ n fuel tot off out, Keeps R P (readiLoop sb k dst n fuel tot off out) := by
    intro n fuel
    induction fuel with
    | zero => exact fun _ _ _ => keeps_pure _
    | succ fuel ih =>
      intro tot off out
      unfold readiLoop
      refine .ite ((keeps_bmap sb _ _).bind fun b => keeps_get.bind fun s => ?_) (keeps_pure _)
      exact .ite (keeps_pure _) (ih _ _ _)
  unfold readi
  exact keeps_get.bind fun s => .ite (keeps_pure _) (hloop _ _ _ _ _)

/-- The byte that is to be written at a position, if it can be read. -/
def Src.byte : Src → Nat → Option UInt8
  | .kernel bytes, t => bytes[t]?
  | .user mem addr, t => mem ((addr + t) % 2 ^ 64)

theorem takeWhile_isSome_get (l : List (Option α)) (h : (l.takeWhile Option.isSome).length < l.length) :
    l[(l.takeWhile Option.isSome).length]? = some none ∧
      ∀ j < (l.takeWhile Option.isSome).length, l[j]? ≠ some none := by
  induction l with
  | nil => exact absurd h (Nat.not_lt_zero _)
  | cons x l ih =>
    cases x with
    | none => simp
    | some x =>
      simp only [takeWhile_cons, Option.isSome_some, if_true, length_cons, Nat.add_lt_add_iff_right] at h ⊢
      obtain ⟨h1, h2⟩ := ih h
      refine ⟨by simpa using h1, fun j hj => ?_⟩
      cases j with
      | zero => simp
      | succ j => simpa using h2 j (by omega)

theorem Src.copyin_short {tot m : Nat} (h : (src.copyin tot m).length < m) :
    src.byte (tot + (src.copyin tot m).length) = none ∧
      ∀ j < (src.copyin tot m).length, src.byte (tot + j) ≠ none := by
  cases src with
  | kernel bytes =>
    simp only [Src.copyin, Src.byte, length_take, length_drop] at h ⊢
    have hmin : min m (bytes.length - tot) = bytes.length - tot := by omega
    rw [hmin]
    refine ⟨getElem?_eq_none (by omega), fun j hj => ?_⟩
    rw [getElem?_eq_getElem (by omega)]
    exact Option.some_ne_none _
  | user mem addr =>
    simp only [Src.copyin, Src.byte, length_map] at h ⊢
    obtain ⟨h1, h2⟩ := takeWhile_isSome_get ((List.range m).map fun i => mem ((addr + tot + i) % 2 ^ 64)) (by simpa using h)
    rw [getElem?_map, getElem?_range h] at h1
    refine ⟨by simpa [Nat.add_assoc] using h1, fun j hj => ?_⟩
    have := h2 j hj
    rw [getElem?_map, getElem?_range (Nat.lt_trans hj h)] at this
    simpa [Nat.add_assoc] using this

theorem Src.copyin_full {tot m : Nat} (h : ¬ (src.copyin tot m).length < m) {j : Nat} (hj : j < m) :
    src.byte (tot + j) ≠ none := by
  cases src with
  | kernel bytes =>
    simp only [Src.copyin, Src.byte, length_take, length_drop] at h ⊢
    rw [getElem?_eq_getElem (by omega)]
    exact Option.some_ne_none _
  | user mem addr =>
    simp only [Src.copyin, Src.byte, length_map] at h ⊢
    generalize hl : (List.range m).map (fun i => mem ((addr + tot + i) % 2 ^ 64)) = l at h
    have hlen : l.length = m := by rw [← hl, length_map, length_range]
    have hall : l.takeWhile Option.isSome = l :=
      (List.takeWhile_prefix _).eq_of_length_le (by omega)
    have hmem : mem ((addr + tot + j) % 2 ^ 64) ∈ l := by
      rw [← hl]
      exact mem_map.2 ⟨j, mem_range.2 hj, rfl⟩
    rw [← hall] at hmem
    have := mem_takeWhile_imp hmem
    rw [Nat.add_assoc] at this
    exact Option.isSome_iff_ne_none.1 this

/-- If the bytes for `writei` cannot all be read, the first that cannot is the first of a block. -/
def Src.Whole (src : Src) (off n : Nat) : Prop :=
  ∀ t < n, src.byte t = none → (∀ u < t, src.byte u ≠ none) → t = 0 ∨ (off + t) % BSIZE = 0

theorem keeps_writeiLoop {off₀ : Nat} (hw : src.Whole off₀ n) :
    ∀ fuel tot off, off = off₀ + tot → (tot = 0 ∨ off % BSIZE = 0 ∨ n ≤ tot) → (∀ u < tot, src.byte u ≠ none) →
      Keeps R P (writeiLoop sb k src n fuel tot off) := by
  intro fuel
  induction fuel with
  | zero => exact fun _ _ _ _ _ => keeps_pure _
  | succ fuel ih =>
    intro tot off hoff hstart hread
    unfold writeiLoop
    by_cases hlt : tot < n
    · rw [if_pos hlt]
      refine (keeps_bmap sb _ _).bind fun b => ?_
      generalize hm : min (n - tot) (BSIZE - off % BSIZE) = m
      have hmod : off % BSIZE < BSIZE := Nat.mod_lt _ (by decide)
      dsimp only
      by_cases hshort : (src.copyin tot m).length < m
      · rw [if_pos hshort]
        obtain ⟨h1, h2⟩ := Src.copyin_short hshort
        have hprefix : ∀ u < tot + (src.copyin tot m).length, src.byte u ≠ none := by
          intro u hu
          by_cases hut : u < tot
          · exact hread u hut
          · have := h2 (u - tot) (by omega)
            rwa [Nat.add_sub_cancel' (Nat.le_of_not_lt hut)] at this
        -- the copy stopped at the first byte of the block, so it has stored nothing
        have hnil : src.copyin tot m = [] := by
          rw [← length_eq_zero_iff]
          rcases hw _ (by omega) h1 hprefix with h | h
          · omega
          · have hin : off % BSIZE + (src.copyin tot m).length < BSIZE := by omega
            rw [← Nat.add_assoc, ← hoff, Nat.add_mod, Nat.mod_eq_of_lt (Nat.lt_of_le_of_lt (Nat.le_add_left _ _) hin),
              Nat.mod_eq_of_lt hin] at h
            omega
        refine (keeps_modify fun s => ?_).bind fun _ => keeps_pure _
        have hsame : Function.update s.blk b (blit (s.blk b) (off % BSIZE) (src.copyin tot m)) = s.blk := by
          rw [hnil, show blit (s.blk b) (off % BSIZE) [] = s.blk b from funext fun i => blit_other (by simp; omega),
            Function.update_eq_self]
        dsimp only
        rw [hsame]
        exact Frame.refl s
      · rw [if_neg hshort]
        refine keeps_logged_bind sb _ _ fun _ => ih _ _ (by omega) ?_ fun u hu => ?_
        · by_cases hend : n ≤ tot + m
          · exact .inr (.inr hend)
          · have hmb : m = BSIZE - off % BSIZE := by omega
            refine .inr (.inl ?_)
            have := Nat.div_add_mod off BSIZE
            rw [show off + m = BSIZE * (off / BSIZE + 1) by rw [Nat.mul_add]; omega]
            exact Nat.mul_mod_right _ _
        · by_cases hut : u < tot
          · exact hread u hut
          · have := Src.copyin_full hshort (j := u - tot) (by omega)
            rwa [Nat.add_sub_cancel' (Nat.le_of_not_lt hut)] at this
    · rw [if_neg hlt]
      exact keeps_pure _

theorem keeps_writei_of_loop (h : Keeps R P (writeiLoop sb k src n (n / BSIZE + 2) 0 off))
    : Keeps R P (writei sb k src off n) := by
  unfold writei
  refine keeps_get.bind fun s => .ite (keeps_pure _) (.ite (keeps_pure _) (h.bind fun off' => ?_))
  refine .ite (.ite ((keeps_setDi _ _).bind fun _ => ?_) ?_) (keeps_pure _)
  all_goals exact (keeps_iupdate sb _).bind fun _ => keeps_pure _

theorem keeps_writei (hw : src.Whole off n) : Keeps R P (writei sb k src off n) :=
  keeps_writei_of_loop sb (keeps_writeiLoop sb hw _ _ _ rfl (.inl rfl) fun _ hu => absurd hu (Nat.not_lt_zero _))

theorem keeps_writei_any (hraw : ∀ (s : St) b a, R s { s with blk := Function.update s.blk b a }) (k off n : Nat)
    (src : Src) : Keeps R P (writei sb k src off n) := by
  have hloop : ∀ fuel tot off, Keeps R P (writeiLoop sb k src n fuel tot off) := by
    intro fuel
    induction fuel with
    | zero => exact fun _ _ => keeps_pure _
    | succ fuel ih =>
      intro tot off
      unfold writeiLoop
      refine .ite ((keeps_bmap sb _ _).bind fun b => ?_) (keeps_pure _)
      dsimp only
      by_cases hshort : (src.copyin tot (min (n - tot) (BSIZE - off % BSIZE))).length < min (n - tot) (BSIZE - off % BSIZE)
      · rw [if_pos hshort]
        exact (keeps_modify fun s => hraw s _ _).bind fun _ => keeps_pure _
      · rw [if_neg hshort]
        exact keeps_logged_bind sb _ _ fun _ => ih _ _
  exact keeps_writei_of_loop sb (hloop _ _ _)

theorem Src.whole_kernel {bytes : List UInt8} (h : n ≤ bytes.length) : (Src.kernel bytes).Whole off n := by
  intro t ht hnone
  rw [show (Src.kernel bytes).byte t = bytes[t]? from rfl, getElem?_eq_getElem (by omega)] at hnone
  cases hnone

/-! ## Directories and paths -/

theorem keeps_scan (k : Nat) {short : Stop} (hs : short.inner) (stop : Dirent → Bool) :
    ∀ fuel off, Keeps R P (scan sb k short stop fuel off) := by
  intro fuel
  induction fuel with
  | zero => exact fun _ => keeps_pure _
  | succ fuel ih =>
    intro off
    unfold scan
    refine keeps_get.bind fun s => .ite ((keeps_readi sb _ _ _ _).bind fun r => ?_) (keeps_pure _)
    refine .ite ((keeps_panic hs).bind fun _ => ?_) ?_
    all_goals exact .ite (keeps_pure _) (ih _)

theorem keeps_dirlookup (k : Nat) (name : List UInt8) : Keeps R P (dirlookup sb k name) := by
  unfold dirlookup
  refine keeps_get.bind fun s => .ite ((keeps_panic (by exact trivial)).bind fun _ => ?_) ?_
  all_goals
    refine (keeps_scan sb _ (by exact trivial) _ _ _).bind fun r => ?_
    split
    · exact (keeps_iget _ _).bind fun _ => keeps_pure _
    · exact keeps_pure _

theorem length_strncpy (n : Nat) (name : List UInt8) : (strncpy name n).length = n := by
  induction n generalizing name with
  | zero => rfl
  | succ n ih =>
    unfold strncpy
    split
    · simp
    · simp [ih]

theorem keeps_dirlink (k : Nat) (name : List UInt8) (inum : Nat) : Keeps R P (dirlink sb k name inum) := by
  unfold dirlink
  refine (keeps_dirlookup sb _ _).bind fun r => ?_
  split
  · exact (keeps_iput sb _).bind fun _ => keeps_pure _
  · refine keeps_get.bind fun s => (keeps_scan sb _ (by exact trivial) _ _ _).bind fun r => ?_
    refine (keeps_writei sb (Src.whole_kernel ?_)).bind fun w => .ite ((keeps_panic (by exact trivial)).bind fun _ => ?_) ?_
    · simp [Dirent.bytes, length_strncpy, DESIZE, DIRSIZ]
    · exact keeps_pure _
    · exact keeps_pure _

theorem keeps_walk (nameiparent : Bool) : ∀ names ip, Keeps R P (walk sb nameiparent ip names) := by
  intro names
  induction names with
  | nil =>
    intro ip
    unfold walk
    exact .ite ((keeps_iput sb _).bind fun _ => keeps_pure _) (keeps_pure _)
  | cons name rest ih =>
    intro ip
    unfold walk
    refine (keeps_ilock sb _).bind fun _ => keeps_get.bind fun s => ?_
    refine .ite ((keeps_iunlockput sb _).bind fun _ => keeps_pure _) ?_
    refine .ite ((keeps_iunlock _).bind fun _ => keeps_pure _) ((keeps_dirlookup sb _ _).bind fun r => ?_)
    split
    · exact (keeps_iunlockput sb _).bind fun _ => keeps_pure _
    · exact (keeps_iunlockput sb _).bind fun _ => ih _

theorem keeps_namex (path : List UInt8) (nameiparent : Bool) : Keeps R P (namex sb path nameiparent) := by
  unfold namex
  refine keeps_get.bind fun s => .ite ((keeps_iget _ _).bind fun _ => keeps_walk sb _ _ _) ?_
  split
  · exact keeps_panic (by exact trivial)
  · exact ((keeps_setInode _ _).bind fun _ => keeps_pure _).bind fun _ => keeps_walk sb _ _ _

theorem keeps_namei (path : List UInt8) : Keeps R P (namei sb path) := (keeps_namex sb _ _).bind fun _ => keeps_pure _

/-! ## System calls -/

omit [Inner P] in
theorem keeps_argfd (fd : Int) : Keeps R P (argfd fd) :=
  keeps_get.bind fun _ => keeps_pure _

theorem keeps_sysFstat (fd : Int) (copied : Bool) : Keeps R P (sysFstat sb fd copied) := by
  unfold sysFstat
  refine (keeps_argfd fd).bind fun r => ?_
  split
  · exact keeps_pure _
  · refine keeps_get.bind fun s => .ite ?_ (keeps_pure _)
    exact (keeps_ilock sb _).bind fun _ => (keeps_iunlock _).bind fun _ => keeps_pure _

omit [Inner P] in
theorem keeps_addLink (k : Nat) (d : Int) : Keeps R P (addLink k d) := keeps_setDi _ _

omit [Inner P] in
theorem keeps_fail (a : α) : Keeps R P (do endOp; return a) := keeps_endOp.bind fun _ => keeps_pure _

theorem keeps_linkBad (ip : Nat) : Keeps R P (linkBad sb ip) :=
  (keeps_ilock sb _).bind fun _ => (keeps_addLink _ _).bind fun _ => (keeps_iupdate sb _).bind fun _ =>
    (keeps_iunlockput sb _).bind fun _ => keeps_fail _

theorem keeps_sysLink (old new : Option Str) : Keeps R P (sysLink sb old new) := by
  unfold sysLink
  split
  · refine keeps_beginOp.bind fun _ => (keeps_namei sb _).bind fun r => ?_
    split
    · exact keeps_fail _
    · refine (keeps_ilock sb _).bind fun _ => keeps_get.bind fun s => .ite ?_ ?_
      · exact (keeps_iunlockput sb _).bind fun _ => keeps_fail _
      · refine (keeps_addLink _ _).bind fun _ => (keeps_iupdate sb _).bind fun _ => (keeps_iunlock _).bind fun _ => ?_
        refine (keeps_namex sb _ _).bind fun r => ?_
        split
        · exact keeps_linkBad sb _
        · refine (keeps_ilock sb _).bind fun _ => keeps_get.bind fun s => .ite ?_ ?_
          · exact (keeps_iunlockput sb _).bind fun _ => keeps_linkBad sb _
          · refine (keeps_dirlink sb _ _ _).bind fun r => .ite ?_ ?_
            · exact (keeps_iunlockput sb _).bind fun _ => keeps_linkBad sb _
            · exact (keeps_iunlockput sb _).bind fun _ => (keeps_iput sb _).bind fun _ => keeps_fail _
  · exact keeps_pure _

theorem keeps_unlinkBad (dp : Nat) : Keeps R P (unlinkBad sb dp) :=
  (keeps_iunlockput sb _).bind fun _ => keeps_fail _

theorem keeps_unlinkEntry (dp ip off : Nat) : Keeps R P (unlinkEntry sb dp ip off) := by
  have hend : Keeps R P (do iunlockput sb dp; addLink ip (-1); iupdate sb ip; iunlockput sb ip; endOp; return (0 : Int)) :=
    (keeps_iunlockput sb _).bind fun _ => (keeps_addLink _ _).bind fun _ => (keeps_iupdate sb _).bind fun _ =>
      (keeps_iunlockput sb _).bind fun _ => keeps_fail _
  unfold unlinkEntry
  refine (keeps_writei sb (Src.whole_kernel (by simp))).bind fun w => .ite ((keeps_panic (by exact trivial)).bind fun _ => ?_) ?_
  all_goals
    refine keeps_get.bind fun s => .ite ?_ hend
    exact (keeps_addLink _ _).bind fun _ => (keeps_iupdate sb _).bind fun _ => hend

theorem keeps_isdirempty (k : Nat) : Keeps R P (isdirempty sb k) :=
  keeps_get.bind fun _ => (keeps_scan sb _ (by exact trivial) _ _ _).bind fun _ => keeps_pure _

omit [Inner P] in
theorem keeps_sysUnlink [Panics P] (path : Option Str) : Keeps R P (sysUnlink sb path) := by
  unfold sysUnlink
  split
  · exact keeps_pure _
  · refine keeps_beginOp.bind fun _ => (keeps_namex sb _ _).bind fun r => ?_
    split
    · exact keeps_fail _
    · refine (keeps_ilock sb _).bind fun _ => .ite (keeps_unlinkBad sb _) ((keeps_dirlookup sb _ _).bind fun r => ?_)
      split
      · exact keeps_unlinkBad sb _
      · refine (keeps_ilock sb _).bind fun _ => keeps_get.bind fun s =>
          .ite ((keeps_throw (Panics.fs (by exact trivial))).bind fun _ => ?_) ?_
        all_goals
          refine .ite ?_ (keeps_unlinkEntry sb _ _ _)
          exact (keeps_isdirempty sb _).bind fun e => .ite (keeps_unlinkEntry sb _ _ _)
            ((keeps_iunlockput sb _).bind fun _ => keeps_unlinkBad sb _)

theorem keeps_createDots (dp ip : Nat) : Keeps R P (createDots sb dp ip) := by
  unfold createDots
  refine (keeps_addLink _ _).bind fun _ => (keeps_iupdate sb _).bind fun _ => keeps_get.bind fun s => ?_
  refine (keeps_dirlink sb _ _ _).bind fun r => .ite ((keeps_panic (by exact trivial)).bind fun _ => ?_) ?_
  all_goals exact (keeps_dirlink sb _ _ _).bind fun r => .ite (keeps_panic (by exact trivial)) (keeps_pure _)

theorem keeps_create (path : List UInt8) (type major minor : Int) : Keeps R P (create sb path type major minor) := by
  unfold create
  refine (keeps_namex sb _ _).bind fun r => ?_
  split
  · exact keeps_pure _
  · refine (keeps_ilock sb _).bind fun _ => (keeps_dirlookup sb _ _).bind fun r => ?_
    split
    · refine (keeps_iunlockput sb _).bind fun _ => (keeps_ilock sb _).bind fun _ => keeps_get.bind fun s => ?_
      exact .ite (keeps_pure _) ((keeps_iunlockput sb _).bind fun _ => keeps_pure _)
    · refine keeps_get.bind fun s => (keeps_ialloc sb _ _).bind fun ip => (keeps_ilock sb _).bind fun _ => ?_
      refine (keeps_setDi _ _).bind fun _ => (keeps_iupdate sb _).bind fun _ => ?_
      refine .ite ((keeps_createDots sb _ _).bind fun _ => ?_) ?_
      all_goals
        refine keeps_get.bind fun s => (keeps_dirlink sb _ _ _).bind fun r => .ite ((keeps_panic (by exact trivial)).bind fun _ => ?_) ?_
        all_goals exact (keeps_iunlockput sb _).bind fun _ => keeps_pure _

theorem keeps_openInode (path : List UInt8) (omode : Nat) : Keeps R P (openInode sb path omode) := by
  unfold openInode
  refine .ite (keeps_create sb _ _ _ _) ((keeps_namei sb _).bind fun r => ?_)
  split
  · exact keeps_pure _
  · refine (keeps_ilock sb _).bind fun _ => keeps_get.bind fun s => .ite ?_ (keeps_pure _)
    exact (keeps_iunlockput sb _).bind fun _ => keeps_pure _

theorem keeps_make (path : Option Str) (type major minor : Int) : Keeps R P (make sb path type major minor) := by
  unfold make
  refine keeps_beginOp.bind fun _ => ?_
  split
  · exact keeps_fail _
  · refine (keeps_create sb _ _ _ _).bind fun r => ?_
    split
    · exact keeps_fail _
    · exact (keeps_iunlockput sb _).bind fun _ => keeps_fail _

theorem keeps_sysExec (path : Option Str) (reads : List (Nat × Nat)) : Keeps R P (sysExec sb path reads) := by
  unfold sysExec
  split
  · exact keeps_pure _
  · refine keeps_beginOp.bind fun _ => (keeps_namei sb _).bind fun r => ?_
    split
    · exact keeps_fail _
    · refine (keeps_ilock sb _).bind fun _ => (keeps_forM _ fun x _ => ?_).bind fun _ => ?_
      · exact (keeps_readi sb _ _ _ _).bind fun _ => keeps_pure _
      · exact (keeps_iunlockput sb _).bind fun _ => keeps_fail _

theorem keeps_sysRead (hoff : ∀ f (off : File → Nat), Keeps R P (setFile f fun x => { x with off := off x })) (fd : Int)
    (dst : Dst) (n r : Int) : Keeps R P (sysRead sb fd dst n r) := by
  unfold sysRead
  refine (keeps_argfd fd).bind fun r => ?_
  split
  · exact keeps_pure _
  · unfold fileread
    refine keeps_get.bind fun s => .ite (keeps_pure _) ?_
    split
    · exact keeps_pure _
    · exact .ite (keeps_pure _) (keeps_pure _)
    · refine (keeps_ilock sb _).bind fun _ => (keeps_readi sb _ _ _ _).bind fun got => ?_
      refine .ite ((hoff _ _).bind fun _ => ?_) ?_
      all_goals exact (keeps_iunlock _).bind fun _ => keeps_pure _
    · exact keeps_panic (by exact trivial)

theorem keeps_sysChdir (hcwd : ∀ p cwd, Keeps R P (setProc p fun x => { x with cwd := cwd })) (path : Option Str) :
    Keeps R P (sysChdir sb path) := by
  unfold sysChdir
  refine keeps_get.bind fun s => keeps_beginOp.bind fun _ => ?_
  split
  · exact keeps_fail _
  · refine (keeps_namei sb _).bind fun r => ?_
    split
    · exact keeps_fail _
    · refine (keeps_ilock sb _).bind fun _ => keeps_get.bind fun s => .ite ?_ ?_
      · exact (keeps_iunlockput sb _).bind fun _ => keeps_fail _
      · refine (keeps_iunlock _).bind fun _ => keeps_get.bind fun s => ?_
        split
        · exact keeps_panic (by exact trivial)
        · exact (keeps_iput sb _).bind fun _ => keeps_endOp.bind fun _ => (hcwd _ _).bind fun _ => keeps_pure _

end Xv6.Fs
