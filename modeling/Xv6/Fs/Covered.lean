import Xv6.Fs.Frame
import Xv6.Lib.Run
/-!
# Changes to cached blocks go through the log

`Covered`: a block that reads differently through the cache than on the disk is
in `log.lh`, so it is pinned in the cache and its change will be committed. All
of `fs.c` calls `log_write` for a block it has changed, except that `writei`
releases a buffer without it when the copy from user memory fails part of the
way (`Whole` says when that does not happen).
-/

namespace Xv6.Fs

open Bytes Hoare Run

variable (sb : Superblock)

/-- A block that differs from the disk is in the log. -/
def Covered (s : St) : Prop := ∀ b, s.blk b = s.disk b ∨ b ∈ s.lh

/-- `Covered` is kept, and no open file changes. -/
structure Safe (s s' : St) : Prop where
  ftable : s'.ftable = s.ftable
  covered : Covered s → Covered s'

theorem mem_logged {b c : Nat} {l : List Nat} : c ∈ (if b ∈ l then l else l ++ [b]) ↔ c ∈ l ∨ c = b := by
  split
  · next hb =>
    constructor
    · exact .inl
    · rintro (hc | rfl)
      · exact hc
      · exact hb
  · simp

instance : Frame Safe where
  refl _ := ⟨rfl, id⟩
  trans h h' := ⟨h'.ftable.trans h.ftable, fun hl => h'.covered (h.covered hl)⟩
  record _ _ := ⟨rfl, id⟩
  inode _ _ := ⟨rfl, id⟩
  begin _ := ⟨rfl, id⟩
  logged s b a := by
    refine ⟨rfl, fun h c => ?_⟩
    dsimp only
    rw [mem_logged]
    by_cases hc : c = b
    · exact .inr (.inr hc)
    · rw [Function.update_of_ne hc]
      exact (h c).imp_right .inl
  «end» s := by
    refine ⟨rfl, fun h b => ?_⟩
    dsimp only
    by_cases h0 : s.outstanding - 1 = 0
    · rw [if_pos h0]
      by_cases hb : b ∈ s.lh
      · exact .inl (if_pos hb).symm
      · exact .inl (((h b).resolve_right hb).trans (if_neg hb).symm)
    · rw [if_neg h0, if_neg h0]
      exact h b

/-! ## System calls -/

def Logs (s s' : St) : Prop := Covered s → Covered s'

instance : Frame Logs where
  refl _ := id
  trans h h' hl := h' (h hl)
  record s t := (Frame.record (R := Safe) s t).covered
  inode s c := (Frame.inode (R := Safe) s c).covered
  begin s := (Frame.begin (R := Safe) s).covered
  logged s b a := (Frame.logged (R := Safe) s b a).covered
  «end» s := (Frame.end (R := Safe) s).covered

theorem logs_setFile (f : Nat) (g : File → File) : Keeps Logs (fun _ => True) (setFile f g) := keeps_modify fun _ h => h

theorem logs_setProc (p : Nat) (g : Proc → Proc) : Keeps Logs (fun _ => True) (setProc p g) := keeps_modify fun _ h => h

theorem logs_setPipe (pi : Nat) (x : Option Pipe) : Keeps Logs (fun _ => True) (setPipe pi x)
    := keeps_modify fun _ h => h

theorem logs_pipeclose (pi : Nat) (writable : Bool) : Keeps Logs (fun _ => True) (pipeclose pi writable) := by
  unfold pipeclose
  refine keeps_get.bind fun s => ?_
  split
  · exact keeps_throw trivial
  · exact logs_setPipe _ _

theorem logs_fileclose (f : Nat) : Keeps Logs (fun _ => True) (fileclose sb f) := by
  unfold fileclose
  refine keeps_get.bind fun s => .ite ((keeps_throw trivial).bind fun _ => ?_) ?_
  all_goals
    refine .ite (logs_setFile _ _) ((logs_setFile _ _).bind fun _ => .ite (logs_pipeclose _ _) (.ite ?_ (keeps_pure _)))
    exact keeps_beginOp.bind fun _ => (keeps_iput sb _).bind fun _ => keeps_endOp

theorem logs_filealloc : Keeps Logs (fun _ => True) filealloc := by
  unfold filealloc
  refine keeps_get.bind fun s => ?_
  split
  · exact (logs_setFile _ _).bind fun _ => keeps_pure _
  · exact keeps_pure _

theorem logs_fdalloc (f : Nat) : Keeps Logs (fun _ => True) (fdalloc f) := by
  unfold fdalloc
  refine keeps_get.bind fun s => ?_
  split
  · exact (logs_setProc _ _).bind fun _ => keeps_pure _
  · exact keeps_pure _

theorem logs_filedup (f : Nat) : Keeps Logs (fun _ => True) (filedup f) := by
  unfold filedup
  refine keeps_get.bind fun s => .ite ((keeps_throw trivial).bind fun _ => ?_) ?_
  all_goals exact (logs_setFile _ _).bind fun _ => keeps_pure _

theorem logs_clearFd (fd : Nat) : Keeps Logs (fun _ => True) (clearFd fd) := keeps_get.bind fun _ => logs_setProc _ _

theorem logs_sysDup (fd : Int) : Keeps Logs (fun _ => True) (sysDup fd) := by
  unfold sysDup
  refine (keeps_argfd fd).bind fun r => ?_
  split
  · exact keeps_pure _
  · refine (logs_fdalloc _).bind fun r => ?_
    split
    · exact keeps_pure _
    · exact (logs_filedup _).bind fun _ => keeps_pure _

theorem logs_sysRead (fd : Int) (dst : Dst) (n r : Int) : Keeps Logs (fun _ => True) (sysRead sb fd dst n r) :=
  keeps_sysRead sb (fun _ _ => logs_setFile _ _) fd dst n r

theorem logs_sysClose (fd : Int) : Keeps Logs (fun _ => True) (sysClose sb fd) := by
  unfold sysClose
  refine (keeps_argfd fd).bind fun r => ?_
  split
  · exact keeps_pure _
  · exact (logs_clearFd _).bind fun _ => (logs_fileclose sb _).bind fun _ => keeps_pure _

theorem logs_openFile : Keeps Logs (fun _ => True) (openFile sb) := by
  unfold openFile
  refine logs_filealloc.bind fun r => ?_
  split
  · exact keeps_pure _
  · refine (logs_fdalloc _).bind fun r => ?_
    split
    · exact (logs_fileclose sb _).bind fun _ => keeps_pure _
    · exact keeps_pure _

theorem logs_sysOpen (path : Option Str) (omode : Nat) : Keeps Logs (fun _ => True) (sysOpen sb path omode) := by
  have hbad : ∀ ip, Keeps Logs (fun _ => True) (do iunlockput sb ip; endOp; return (-1 : Int)) := fun ip =>
    (keeps_iunlockput sb _).bind fun _ => keeps_fail _
  unfold sysOpen
  split
  · exact keeps_pure _
  · refine keeps_beginOp.bind fun _ => (keeps_openInode sb _ _).bind fun r => ?_
    split
    · exact keeps_fail _
    · refine keeps_get.bind fun s => .ite (hbad _) ((logs_openFile sb).bind fun r => ?_)
      split
      · exact hbad _
      · refine (logs_setFile _ _).bind fun _ => .ite ((keeps_itrunc sb _).bind fun _ => ?_) ?_
        all_goals exact (keeps_iunlock _).bind fun _ => keeps_fail _

theorem logs_sysChdir (path : Option Str) : Keeps Logs (fun _ => True) (sysChdir sb path) :=
  keeps_sysChdir sb (fun _ _ => logs_setProc _ _) path

theorem logs_sysPipe (page : Option Nat) (copied : Bool) : Keeps Logs (fun _ => True) (sysPipe sb page copied) := by
  have hclose : ∀ f g, Keeps Logs (fun _ => True) (do fileclose sb f; fileclose sb g; return (-1 : Int)) := fun f g =>
    (logs_fileclose sb _).bind fun _ => (logs_fileclose sb _).bind fun _ => keeps_pure _
  have halloc : Keeps Logs (fun _ => True) (pipealloc sb page) := by
    unfold pipealloc
    refine logs_filealloc.bind fun r => ?_
    split
    · exact keeps_pure _
    · refine logs_filealloc.bind fun r => ?_
      split
      · exact (logs_fileclose sb _).bind fun _ => keeps_pure _
      · refine (keeps_get.bind fun _ => keeps_pure _).bind fun r => ?_
        split
        · exact (logs_setPipe _ _).bind fun _ => (logs_setFile _ _).bind fun _ => (logs_setFile _ _).bind fun _ =>
            keeps_pure _
        · exact (logs_fileclose sb _).bind fun _ => (logs_fileclose sb _).bind fun _ => keeps_pure _
  unfold sysPipe
  refine halloc.bind fun r => ?_
  split
  · exact keeps_pure _
  · refine (logs_fdalloc _).bind fun r => ?_
    split
    · exact hclose _ _
    · refine (logs_fdalloc _).bind fun r => ?_
      split
      · exact (logs_clearFd _).bind fun _ => hclose _ _
      · exact .ite (keeps_pure _) ((logs_clearFd _).bind fun _ => (logs_clearFd _).bind fun _ => hclose _ _)

theorem logs_fork (memory : Bool) : Keeps Logs (fun _ => True) (fork memory) := by
  unfold fork
  refine keeps_get.bind fun s => ?_
  split
  · exact keeps_pure _
  · refine .ite ((keeps_forM _ fun fd _ => ?_).bind fun _ => ?_) (keeps_pure _)
    · split
      · exact keeps_pure _
      · exact (logs_filedup _).bind fun _ => logs_setProc _ _
    · split
      · exact keeps_throw trivial
      · refine ((keeps_setInode _ _).bind fun _ => keeps_pure _).bind fun _ => ?_
        exact (logs_setProc _ _).bind fun _ => keeps_pure _

theorem logs_exit : Keeps Logs (fun _ => True) (exit sb) := by
  unfold exit
  refine keeps_get.bind fun s => .ite ((keeps_throw trivial).bind fun _ => ?_) ?_
  all_goals
    refine (keeps_forM _ fun fd _ => keeps_get.bind fun s => ?_).bind fun _ => ?_
    · split
      · exact keeps_pure _
      · exact (logs_fileclose sb _).bind fun _ => logs_clearFd _
    · refine keeps_beginOp.bind fun _ => keeps_get.bind fun s => ?_
      split
      · exact keeps_throw trivial
      · exact (keeps_iput sb _).bind fun _ => keeps_endOp.bind fun _ => logs_setProc _ _

/-! ## write -/

theorem Src.Whole.congr {src : Src} {off off' n : Nat} (h : src.Whole off n) (he : off' % BSIZE = off % BSIZE) :
    src.Whole off' n := by
  intro t ht hnone hread
  refine (h t ht hnone hread).imp_right fun hmod => ?_
  rw [Nat.add_mod, he, ← Nat.add_mod]
  exact hmod

theorem mod_uint (n : Nat) : n % 2 ^ 32 % BSIZE = n % BSIZE := Nat.mod_mod_of_dvd n (by decide)

section Write
variable {f i n1 : Nat} {src : Src} {s : St}

theorem writeChunk_logs (hl : Covered s) (hw : (src.from i).Whole (s.ftable f).off n1) :
    wp (writeChunk sb f src i n1) (fun r s' => Covered s' ∧
      (r = n1 → (s'.ftable f).off % BSIZE = ((s.ftable f).off + n1) % BSIZE)) (fun _ _ => True) s := by
  unfold writeChunk
  simp only [wp_bind, wp_get]
  refine (keeps_beginOp (R := Safe) s).imp fun _ s₁ h₁ => ?_
  refine (keeps_ilock (R := Safe) sb _ s₁).imp fun _ s₂ h₂ => ?_
  refine (keeps_writei (R := Safe) sb hw s₂).imp fun r s₃ h₃ => ?_
  have h₀₃ : Safe s s₃ := Frame.trans (Frame.trans h₁ h₂) h₃
  have hend : ∀ s₄ : St, Covered s₄ → (r = n1 → (s₄.ftable f).off % BSIZE = ((s.ftable f).off + n1) % BSIZE) →
      wp (do iunlock (s.ftable f).ip; endOp; return r : M Int) (fun r s' => Covered s' ∧
        (r = n1 → (s'.ftable f).off % BSIZE = ((s.ftable f).off + n1) % BSIZE)) (fun _ _ => True) s₄ := by
    intro s₄ hl₄ hoff
    simp only [wp_bind]
    refine (keeps_iunlock (R := Safe) _ s₄).imp fun _ s₅ h₅ => ?_
    refine (keeps_endOp (R := Safe) s₅).imp fun _ s₆ h₆ => ?_
    rw [wp_pure, h₆.ftable, h₅.ftable]
    exact ⟨h₆.covered (h₅.covered hl₄), hoff⟩
  rw [wp_ite]
  refine ⟨fun hr => ?_, fun hr => ?_⟩
  · rw [wp_bind]
    unfold setFile
    rw [wp_modify]
    refine hend _ (h₀₃.covered hl) fun hn => ?_
    dsimp only
    rw [Function.update_self, h₀₃.ftable, hn, Int.toNat_natCast]
    exact mod_uint _
  · refine hend _ (h₀₃.covered hl) fun hn => ?_
    have hz : n1 = 0 := by omega
    rw [h₀₃.ftable, hz, Nat.add_zero]

theorem writeLoop_logs {n off₀ : Nat}
    (hw : ∀ i < n, i % chunk = 0 → (src.from i).Whole (off₀ + i) (min (n - i) chunk)) :
    ∀ fuel i s, Covered s → (i % chunk = 0 ∨ n ≤ i) → (s.ftable f).off % BSIZE = (off₀ + i) % BSIZE →
      wp (writeLoop sb f src n fuel i) (fun _ => Covered) (fun _ _ => True) s := by
  intro fuel
  induction fuel with
  | zero => exact fun i s hl _ _ => (wp_pure _).2 hl
  | succ fuel ih =>
    intro i s hl hi hoff
    unfold writeLoop
    by_cases hlt : i < n
    · rw [if_pos hlt, wp_bind]
      have hi0 : i % chunk = 0 := hi.resolve_right (Nat.not_le.2 hlt)
      refine (writeChunk_logs sb hl ((hw i hlt hi0).congr hoff)).imp fun r s' h => ?_
      simp only [wp_ite, wp_pure, wp_bind, wp_throw]
      refine ⟨fun _ => h.1, fun _ => ⟨fun _ => trivial, fun hr => ih _ _ h.1 ?_ ?_⟩⟩
      · by_cases hend : n ≤ i + min (n - i) chunk
        · exact .inr hend
        · have hm : min (n - i) chunk = chunk := by omega
          rw [hm, Nat.add_mod_right]
          exact .inl hi0
      · rw [h.2 (by simpa using hr), Nat.add_mod, hoff, ← Nat.add_mod, Nat.add_assoc]
    · rw [if_neg hlt]
      exact (wp_pure _).2 hl

end Write

/-- No copy from user memory that a `write` makes stops inside a block of the file. -/
def Whole (s : St) (e : Nat × Call) : Prop :=
  match e.2 with
  | .write fd mem addr n _ => ∀ f, (s.proc e.1).ofile fd.toNat = some f → ∀ i < n.toNat, i % chunk = 0 →
      ((Src.user mem addr).from i).Whole ((s.ftable f).off + i) (min (n.toNat - i) chunk)
  | _ => True

theorem sysWrite_logs {fd : Int} {mem : Nat → Option UInt8} {addr : Nat} {n r : Int} {s : St} (hl : Covered s)
    (hw : Whole s (s.myproc, .write fd mem addr n r)) :
    wp (sysWrite sb fd (.user mem addr) n r) (fun _ => Covered) (fun _ _ => True) s := by
  unfold sysWrite argfd
  simp only [wp_bind, wp_get, wp_pure]
  split
  · exact (wp_pure _).2 hl
  · next f hf =>
    have hfile : (s.proc s.myproc).ofile fd.toNat = some f := by
      split at hf
      · cases hf
      · exact hf
    unfold filewrite
    simp only [wp_bind, wp_get, wp_ite, wp_pure]
    refine ⟨fun _ => hl, fun _ => ?_⟩
    split
    · exact (wp_pure _).2 hl
    · rw [wp_ite]
      exact ⟨fun _ => (wp_pure _).2 hl, fun _ => (wp_pure _).2 hl⟩
    · exact (writeLoop_logs sb (hw f hfile) _ 0 s hl (.inl rfl) rfl).seq fun _ _ h => (wp_pure _).2 h
    · exact (wp_throw _).2 trivial

/-! ## Sequences of calls -/

/-- Process `e.1` makes the call `e.2`, which returns. -/
def Step (s : St) (e : Nat × Call) (s' : St) : Prop :=
  ∃ r, exec (syscall sb e.2) { s with myproc := e.1 } = (.ok r, s')

theorem syscall_logs {c : Call} {s : St} (hl : Covered s) (hw : Whole s (s.myproc, c)) :
    wp (syscall sb c) (fun _ => Covered) (fun _ _ => True) s := by
  have call : ∀ {m : M Int}, Keeps Logs (fun _ => True) m → wp m (fun _ => Covered) (fun _ _ => True) s := fun h =>
    (h s).imp fun _ _ h => h hl
  cases c with
  | dup => exact call (logs_sysDup _)
  | read => exact call (logs_sysRead sb _ _ _ _)
  | write => exact sysWrite_logs sb hl hw
  | close => exact call (logs_sysClose sb _)
  | fstat => exact call (keeps_sysFstat sb _ _)
  | link => exact call (keeps_sysLink sb _ _)
  | unlink => exact call (keeps_sysUnlink sb _)
  | «open» => exact call (logs_sysOpen sb _ _)
  | mkdir => exact call (keeps_make sb _ _ _ _)
  | mknod => exact call (keeps_make sb _ _ _ _)
  | chdir => exact call (logs_sysChdir sb _)
  | exec => exact call (keeps_sysExec sb _ _)
  | pipe => exact call (logs_sysPipe sb _ _)
  | fork => exact call (logs_fork _)
  | exit => exact call ((logs_exit sb).bind fun _ => keeps_pure _)
  | other => exact call (keeps_pure _)

/-- No change is waiting to be committed. -/
structure Clean (s : St) : Prop where
  blk : s.blk = s.disk
  lh : s.lh = []
  outstanding : s.outstanding = 0

/-- The cache drops what is not `kept` and not pinned by the log. -/
def St.evict (s : St) (kept : Nat → Bool) : St :=
  { s with blk := fun b => if kept b ∨ b ∈ s.lh then s.blk b else s.disk b }

theorem Covered.evict {s : St} (h : Covered s) (kept : Nat → Bool) : s.evict kept = s := by
  have hblk : (s.evict kept).blk = s.blk := by
    funext b
    show (if kept b ∨ b ∈ s.lh then s.blk b else s.disk b) = s.blk b
    split
    · rfl
    · next hb => exact ((h b).resolve_right fun hm => hb (.inr hm)).symm
  show { s with blk := (s.evict kept).blk } = s
  rw [hblk]

/-- After any calls whose copies from user memory stop at block boundaries, every change is in the log, and what is
cached makes no difference. -/
theorem changes_logged {s : St} (h : Reach Clean (When (Step sb) Whole) s) :
    (∀ b, s.blk b = s.disk b ∨ b ∈ s.lh) ∧ ∀ kept, s.evict kept = s := by
  have hl : Covered s := by
    refine Reach.inv Covered (fun s hi b => .inl (by rw [hi.blk])) (fun s e s' hi hs => ?_) h
    obtain ⟨hw, r, he⟩ := hs
    exact (syscall_logs sb (c := e.2) (s := { s with myproc := e.1 }) hi hw).ok he
  exact ⟨hl, hl.evict⟩

/-! ## A copy that stops inside a block -/

def smallSb : Superblock := ⟨1000, 954, 200, 30, 2, 32, 45⟩

def smallRoot : Dinode := ⟨T_DIR, 0, 0, 1, 48, fun j => if j = 0 then 46 else 0⟩

/-- The file "f", one block long. -/
def smallFile : Dinode := ⟨T_FILE, 0, 0, 1, 1024, fun j => if j = 0 then 47 else 0⟩

/-- A file system with one file. -/
def smallDisk (b : Nat) : Arr :=
  if b = smallSb.iblock 2 then putDinode (putDinode (fun _ => 0) 1 smallRoot) 2 smallFile
  else if b = 46 then
    blit (fun _ => 0) 0 (Dirent.bytes ⟨1, strncpy dot DIRSIZ⟩ ++ Dirent.bytes ⟨1, strncpy dotdot DIRSIZ⟩ ++
      Dirent.bytes ⟨2, strncpy [102] DIRSIZ⟩)
  else fun _ => 0

/-- The kernel has booted: process 1 is in the root directory and has no open file. -/
def booted : St where
  blk := smallDisk
  disk := smallDisk
  icache k := ⟨if k = 0 then ROOTDEV else 0, if k = 0 then 1 else 0, if k = 0 then 1 else 0, none, false, .fresh 0⟩
  ftable _ := ⟨.none, 0, false, false, 0, 0, 0, 0⟩
  pipes _ := none
  proc p := ⟨p = 1, fun _ => none, if p = 1 then some 0 else none⟩
  myproc := 1
  outstanding := 0
  lh := []
  trace := []

def openF : Call := .open (some ⟨[102], by decide, by decide⟩) O_RDWR

/-- The first page is mapped, and no other. -/
def onePage (a : Nat) : Option UInt8 := if a < 4096 then some 7 else none

/-- A write of two bytes, of which the second is not mapped. -/
def writeF : Call := .write 0 onePage 4095 2 0

/-- What a call of process 1 leaves. -/
def next (s : St) (c : Call) : St := (exec (syscall smallSb c) { s with myproc := 1 }).2

theorem step_next {s : St} {c : Call} {r : Int}
    (h : (exec (syscall smallSb c) { s with myproc := 1 }).1.toOption = some r) : Step smallSb s (1, c) (next s c) := by
  refine ⟨r, ?_⟩
  unfold next
  revert h
  rcases exec (syscall smallSb c) { s with myproc := 1 } with ⟨e | a, s'⟩
  · intro h
    cases h
  · intro h
    cases h
    rfl

theorem clean_booted : Clean booted := ⟨rfl, rfl, rfl⟩

/-- The first byte of the write stays in the cache only, and is lost when the block is evicted. -/
theorem short_write_unlogged : ∃ s, Reach Clean (Step smallSb) s ∧ ¬ (s.blk 47 = s.disk 47 ∨ 47 ∈ s.lh) ∧
    (s.evict fun _ => false).blk 47 ≠ s.blk 47 := by
  have h1 : Reach Clean (Step smallSb) (next booted openF) :=
    .step (.init clean_booted) (step_next (r := 0) (by decide +kernel))
  have h2 : Reach Clean (Step smallSb) (next (next booted openF) writeF) :=
    .step h1 (step_next (r := 2) (by decide +kernel))
  have hval : (next (next booted openF) writeF).lh = [] ∧ (next (next booted openF) writeF).blk 47 0 = 7 ∧
      (next (next booted openF) writeF).disk 47 0 = 0 := by decide +kernel
  generalize next (next booted openF) writeF = s at h2 hval
  obtain ⟨hlh, hblk, hdisk⟩ := hval
  have hne : s.disk 47 ≠ s.blk 47 := by
    intro he
    have := congrFun he 0
    rw [hblk, hdisk] at this
    cases this
  refine ⟨s, h2, ?_, ?_⟩
  · rintro (he | hm)
    · exact hne he.symm
    · rw [hlh] at hm
      cases hm
  · show (if _ then _ else _) ≠ _
    rw [hlh, if_neg (by simp)]
    exact hne

theorem changes_logged_open : Reach Clean (When (Step smallSb) Whole) (next booted openF) ∧
    Covered (next booted openF) := by
  have h : Reach Clean (When (Step smallSb) Whole) (next booted openF) :=
    .next (.init clean_booted) (step_next (r := 0) (by decide +kernel)) trivial
  exact ⟨h, (changes_logged smallSb h).1⟩

end Xv6.Fs
