import Xv6.Fs.Files
/-!
# Descriptors and open files, over runs of system calls

Every system call leaves the reference counts of the open files equal to the
number of descriptors that point to them, and the page of a pipe in use exactly
as long as a descriptor refers to one of its ends. A call that returns -1 leaves
all descriptors as they were.
-/

namespace Xv6.Fs

open Hoare Run Slots Function List

variable (sb : Superblock)

/-! ## One descriptor -/

/-- Process `p` gets another content of one descriptor, and nothing else changes. -/
structure Slot (p fd : Nat) (v : Option Nat) (s s' : St) : Prop where
  tables : tables s' = put (tables s) p fd v
  used : ∀ p, (s'.proc p).used = (s.proc p).used
  ftable : s'.ftable = s.ftable
  pipes : s'.pipes = s.pipes
  myproc : s'.myproc = s.myproc

section Slots
variable {s : St} {E : Stop → St → Prop}

theorem tables_setProc (p : Nat) (x : Proc) :
    tables { s with proc := update s.proc p x } = update (tables s) p x.ofile := by
  funext q fd
  unfold tables
  dsimp only
  by_cases e : q = p
  · rw [e, update_self, update_self]
  · rw [update_of_ne e, update_of_ne e]

theorem used_setProc {p : Nat} {x : Proc} (h : x.used = (s.proc p).used) (q : Nat) :
    (update s.proc p x q).used = (s.proc q).used := by
  by_cases e : q = p
  · rw [e, update_self, h]
  · rw [update_of_ne e]

theorem setFd_spec (p fd : Nat) (v : Option Nat) :
    wp (setProc p fun x => { x with ofile := update x.ofile fd v }) (fun _ s' => Slot p fd v s s') E s := by
  unfold setProc
  rw [wp_modify]
  exact ⟨tables_setProc _ _, used_setProc rfl, rfl, rfl, rfl⟩

theorem setUsed_spec (p : Nat) (b : Bool) (cwd : Option Nat) :
    wp (setProc p fun x => { x with used := b, cwd := cwd }) (fun _ s' => tables s' = tables s ∧ s'.ftable = s.ftable ∧
      s'.pipes = s.pipes ∧ (s'.proc p).used = b ∧ ∀ q, q ≠ p → (s'.proc q).used = (s.proc q).used) E s := by
  unfold setProc
  rw [wp_modify]
  refine ⟨?_, rfl, rfl, ?_, fun q hq => ?_⟩
  · rw [tables_setProc]
    exact update_eq_self p (tables s)
  · dsimp only
    rw [update_self]
  · dsimp only
    rw [update_of_ne hq]

theorem fdalloc_spec (f : Nat) :
    wp (fdalloc f) (fun r s' => match r with
      | none => s' = s
      | some fd => fd < NOFILE ∧ tables s s.myproc fd = none ∧ Slot s.myproc fd (some f) s s') E s := by
  unfold fdalloc
  rw [wp_bind, wp_get]
  split
  · next fd hfd =>
    refine (setFd_spec _ _ _).seq fun _ s' hslot => (wp_pure _).2 ?_
    refine ⟨mem_range.1 (mem_of_find?_eq_some hfd), ?_, hslot⟩
    simpa [tables] using find?_some hfd
  · exact (wp_pure _).2 rfl

theorem clearFd_spec (fd : Nat) : wp (clearFd fd) (fun _ s' => Slot s.myproc fd none s s') E s := by
  unfold clearFd
  rw [wp_bind, wp_get]
  exact setFd_spec _ _ _

theorem argfd_spec (fd : Int) :
    wp (argfd fd) (fun r s' => s' = s ∧ ∀ f, r = some f → tables s s.myproc fd.toNat = some f) E s := by
  unfold argfd
  rw [wp_bind, wp_get, wp_pure]
  refine ⟨rfl, fun f hf => ?_⟩
  split at hf
  · cases hf
  · exact hf

end Slots

/-! ## Between calls -/

/-- No call is in progress. -/
structure Settled (s : St) : Prop where
  refs : FileRefs (tables s) [] s
  procs : ∀ p, (s.proc p).used = true → p < NPROC
  empty : ∀ p, (s.proc p).used = false → ∀ fd, tables s p fd = none

/-- What a call does that changes descriptors of the running process only. -/
structure Mine (s s' : St) : Prop where
  used : ∀ p, (s'.proc p).used = (s.proc p).used
  other : ∀ p, p ≠ s.myproc → tables s' p = tables s p
  myproc : s'.myproc = s.myproc

/-- A call that returned `r` has kept the counts, and on failure the descriptors. -/
structure Kept (s : St) (r : Int) (s' : St) : Prop where
  refs : FileRefs (tables s') [] s'
  own : Mine s s'
  fail : r = -1 → tables s' = tables s

section Kept
variable {s s' : St} {r : Int}

theorem Mine.of_proc (h : s'.proc = s.proc) (hm : s'.myproc = s.myproc) : Mine s s' :=
  ⟨fun _ => by rw [h], fun _ _ => by rw [tables_congr h], hm⟩

theorem Slot.own {fd : Nat} {v : Option Nat} (h : Slot s.myproc fd v s s') : Mine s s' := by
  refine ⟨h.used, fun p hp => ?_, h.myproc⟩
  rw [h.tables]
  exact update_of_ne hp ..

theorem Mine.trans {t : St} (h : Mine s s') (h' : Mine s' t) : Mine s t :=
  ⟨fun p => (h'.used p).trans (h.used p), fun p hp => (h'.other p (h.myproc ▸ hp)).trans (h.other p hp),
    h'.myproc.trans h.myproc⟩

theorem Settled.own (h : Settled s) (hu : (s.proc s.myproc).used = true) (hr : FileRefs (tables s') [] s')
    (ho : Mine s s') :
    Settled s' := by
  refine ⟨hr, fun p hp => h.procs p (ho.used p ▸ hp), fun p hp fd => ?_⟩
  rw [ho.used p] at hp
  have hne : p ≠ s.myproc := by
    rintro rfl
    rw [hu] at hp
    cases hp
  rw [ho.other p hne]
  exact h.empty p hp fd

theorem Kept.of_proc (hr : FileRefs (tables s) [] s') (hp : s'.proc = s.proc) (hm : s'.myproc = s.myproc)
    : Kept s r s' := by
  have ht := tables_congr hp
  exact ⟨ht ▸ hr, .of_proc hp hm, fun _ => ht⟩

theorem Kept.of_apart (h : FileRefs (tables s) [] s) (ha : Apart s s') : Kept s r s' :=
  .of_proc (h.apart ha) ha.proc ha.myproc

end Kept

/-! ## Calls that change no descriptor -/

/-- Neither the descriptors change nor how the files go with them. -/
structure Quiet (s s' : St) : Prop where
  refs : ∀ t held, FileRefs t held s → FileRefs t held s'
  tables : tables s' = tables s
  used : ∀ p, (s'.proc p).used = (s.proc p).used
  myproc : s'.myproc = s.myproc

theorem Apart.quiet {s s' : St} (h : Apart s s') : Quiet s s' :=
  ⟨fun _ _ hr => hr.apart h, h.tables, fun _ => by rw [h.proc], h.myproc⟩

instance : Frame Quiet where
  refl s := (Frame.refl s : Apart s s).quiet
  trans h h' :=
    ⟨fun t held hr => h'.refs t held (h.refs t held hr), h'.tables.trans h.tables,
      fun p => (h'.used p).trans (h.used p), h'.myproc.trans h.myproc⟩
  record s t := (Frame.record (R := Apart) s t).quiet
  inode s c := (Frame.inode (R := Apart) s c).quiet
  begin s := (Frame.begin (R := Apart) s).quiet
  logged s b a := (Frame.logged (R := Apart) s b a).quiet
  «end» s := (Frame.end (R := Apart) s).quiet

theorem Kept.of_quiet {s s' : St} {r : Int} (h : FileRefs (tables s) [] s) (hq : Quiet s s') : Kept s r s' := by
  refine ⟨?_, ⟨hq.used, fun p _ => by rw [hq.tables], hq.myproc⟩, fun _ => hq.tables⟩
  rw [hq.tables]
  exact hq.refs _ _ h

theorem quiet_setOff (f : Nat) (off : File → Nat) : Keeps Quiet Stop.fs (setFile f fun x => { x with off := off x })
    := by
  refine keeps_modify fun s => ⟨fun t held h => ?_, rfl, fun _ => rfl, rfl⟩
  have hoff : ∀ g, ∃ o, update s.ftable f ({ s.ftable f with off := off (s.ftable f) }) g =
      { s.ftable g with off := o } := by
    intro g
    by_cases e : g = f
    · rw [e]
      exact ⟨_, update_self ..⟩
    · exact ⟨(s.ftable g).off, update_of_ne e ..⟩
  refine h.same (fun g => ?_) (fun g => ?_) (fun g pi w => ?_) rfl
  all_goals
    obtain ⟨o, ho⟩ := hoff g
    dsimp only
    rw [ho]
  apply File.end_congr <;> rfl

theorem quiet_sysRead (fd : Int) (dst : Dst) (n r : Int) : Keeps Quiet Stop.fs (sysRead sb fd dst n r) :=
  keeps_sysRead sb quiet_setOff fd dst n r

theorem quiet_writei (k off n : Nat) (src : Src) : Keeps Quiet Stop.fs (writei sb k src off n) :=
  keeps_writei_any sb (fun _ _ _ => Apart.quiet (by constructor <;> rfl)) k off n src

theorem quiet_writeLoop (f : Nat) (src : Src) (n : Nat) :
    ∀ fuel i, Keeps Quiet Stop.fs (writeLoop sb f src n fuel i) := by
  intro fuel
  induction fuel with
  | zero => exact fun i => keeps_pure i
  | succ fuel ih =>
    intro i
    have hchunk : Keeps Quiet Stop.fs (writeChunk sb f src i (min (n - i) chunk)) := by
      unfold writeChunk
      refine keeps_get.bind fun s => keeps_beginOp.bind fun _ => (keeps_ilock sb _).bind fun _ => ?_
      refine (quiet_writei sb _ _ _ _).bind fun r => .ite ((quiet_setOff _ _).bind fun _ => ?_) ?_
      all_goals exact (keeps_iunlock _).bind fun _ => keeps_fail _
    unfold writeLoop
    refine .ite (hchunk.bind fun r => .ite (keeps_pure _) (.ite ?_ (ih _))) (keeps_pure _)
    exact (keeps_panic (by exact trivial)).bind fun _ => ih _

theorem quiet_sysWrite (fd : Int) (src : Src) (n r : Int) : Keeps Quiet Stop.fs (sysWrite sb fd src n r) := by
  unfold sysWrite
  refine (keeps_argfd fd).bind fun r => ?_
  split
  · exact keeps_pure _
  · unfold filewrite
    refine keeps_get.bind fun s => .ite (keeps_pure _) ?_
    split
    · exact keeps_pure _
    · exact .ite (keeps_pure _) (keeps_pure _)
    · exact (quiet_writeLoop sb _ _ _ _ _).bind fun _ => keeps_pure _
    · exact keeps_panic (by exact trivial)

theorem quiet_setCwd (p : Nat) (cwd : Option Nat) : Keeps Quiet Stop.fs (setProc p fun x => { x with cwd := cwd }) := by
  refine keeps_modify fun s => ⟨fun t held h => h.congr rfl rfl, ?_, used_setProc rfl, rfl⟩
  rw [tables_setProc]
  exact update_eq_self p (tables s)

theorem quiet_idup (k : Nat) : Keeps Quiet Stop.fs (idup k) := (keeps_setInode _ _).bind fun _ => keeps_pure _

theorem quiet_sysChdir (path : Option Str) : Keeps Quiet Stop.fs (sysChdir sb path) :=
  keeps_sysChdir sb quiet_setCwd path

/-! ## sysfile.c -/

section Calls
variable {s : St}

theorem sysDup_spec (h : FileRefs (tables s) [] s) (hp : s.myproc < NPROC) (fd : Int) :
    wp (sysDup fd) (Kept s) (fun e _ => e.fs) s := by
  unfold sysDup
  refine (argfd_spec fd).seq ?_
  rintro r s' ⟨rfl, hr⟩
  split
  · exact (wp_pure _).2 (.of_proc h rfl rfl)
  · next f =>
    refine (fdalloc_spec f).seq ?_
    intro r s₁ hs₁
    split
    · obtain rfl := hs₁
      exact (wp_pure _).2 (.of_proc h rfl rfl)
    · next fd' =>
      obtain ⟨hlt, hnone, hslot⟩ := hs₁
      -- the counts still go with the descriptors from before
      refine (filedup_spec (h.congr hslot.ftable hslot.pipes) (.inr ⟨_, _, hr f rfl⟩)).seq ?_
      rintro - s₂ ⟨-, hrefs, hproc, hmy⟩
      have ht := (tables_congr hproc).trans hslot.tables
      refine (wp_pure _).2 ⟨ht ▸ hrefs.give hp hlt hnone, hslot.own.trans (.of_proc hproc hmy), fun hneg => ?_⟩
      omega

theorem sysClose_spec (h : FileRefs (tables s) [] s) (fd : Int) : wp (sysClose sb fd) (Kept s) (fun e _ => e.fs) s := by
  unfold sysClose
  refine (argfd_spec fd).seq ?_
  rintro r s' ⟨rfl, hr⟩
  split
  · exact (wp_pure _).2 (.of_proc h rfl rfl)
  · next f =>
    refine (clearFd_spec _).seq fun _ s₁ hslot => ?_
    have hrefs := ((h.take (hr f rfl)).congr hslot.ftable hslot.pipes)
    refine (fileclose_spec sb hrefs mem_cons_self).seq ?_
    rintro - s₂ ⟨hrefs₂, hproc, hmy, -⟩
    rw [erase_cons_head] at hrefs₂
    have ht := (tables_congr hproc).trans hslot.tables
    exact (wp_pure _).2 ⟨ht ▸ hrefs₂, hslot.own.trans (.of_proc hproc hmy), fun hneg => by omega⟩

/-- A new file with a descriptor; a failure leaves the files as they were, and the log alone. -/
theorem openFile_spec (h : FileRefs (tables s) [] s) (hp : s.myproc < NPROC) :
    wp (openFile sb) (fun r s' => match r with
      | none => FileRefs (tables s) [] s' ∧ s'.proc = s.proc ∧ s'.myproc = s.myproc ∧ s'.trace = s.trace
      | some (f, _) => FileRefs (tables s') [] s' ∧ Mine s s' ∧ f < NFILE ∧ 1 ≤ (s'.ftable f).ref ∧
        (s'.ftable f).type = .none) (fun e _ => e.fs) s := by
  unfold openFile
  refine (filealloc_spec h).seq ?_
  intro r s₁ hs₁
  split
  · obtain rfl := hs₁
    exact (wp_pure _).2 ⟨h, rfl, rfl, rfl⟩
  · next f =>
    obtain ⟨hrefs, htype, -, -, hproc₁, hmy₁, htrace₁⟩ := hs₁
    have ht₁ := tables_congr hproc₁
    refine (fdalloc_spec f).seq ?_
    intro r s₂ hs₂
    split
    · obtain rfl := hs₂
      refine (fileclose_spec sb hrefs mem_cons_self).seq ?_
      rintro - s₃ ⟨hrefs₃, hproc, hmy, htrace⟩
      rw [erase_cons_head] at hrefs₃
      exact (wp_pure _).2 ⟨hrefs₃, hproc.trans hproc₁, hmy.trans hmy₁, (htrace htype).trans htrace₁⟩
    · next fd =>
      obtain ⟨hlt, hnone, hslot⟩ := hs₂
      rw [ht₁, hmy₁] at hnone
      have hgiven := (hrefs.give hp hlt hnone).congr hslot.ftable hslot.pipes
      rw [← ht₁, ← hmy₁, ← hslot.tables] at hgiven
      obtain ⟨hf, hpos⟩ := hrefs.ref_pos (.inl mem_cons_self)
      refine (wp_pure _).2 ⟨hgiven, Mine.trans (.of_proc hproc₁ hmy₁) hslot.own, hf, ?_, ?_⟩
      · rw [hslot.ftable]
        exact hpos
      · rw [hslot.ftable]
        exact htype

theorem Kept.apart {r : Int} {s' t : St} (h : Kept s r s') (ha : Apart s' t) : Kept s r t := by
  refine ⟨?_, h.own.trans (.of_proc ha.proc ha.myproc), fun hr => ha.tables.trans (h.fail hr)⟩
  rw [ha.tables]
  exact h.refs.apart ha

theorem sysOpen_spec (h : FileRefs (tables s) [] s) (hp : s.myproc < NPROC) (path : Option Str) (omode : Nat) :
    wp (sysOpen sb path omode) (Kept s) (fun e _ => e.fs) s := by
  have hbad : ∀ ip, Keeps Apart Stop.fs (do iunlockput sb ip; endOp; return (-1 : Int)) := fun ip =>
    (keeps_iunlockput sb _).bind fun _ => keeps_fail _
  unfold sysOpen
  split
  · exact (wp_pure _).2 (.of_proc h rfl rfl)
  · next path =>
    have hlookup : Keeps Apart Stop.fs (do beginOp; openInode sb path.chars omode) :=
      keeps_beginOp.bind fun _ => keeps_openInode sb _ _
    rw [← bind_assoc]
    refine (hlookup s).seq fun r s₁ ha => ?_
    have h₁ : FileRefs (tables s₁) [] s₁ := ha.tables ▸ h.apart ha
    split
    · exact (keeps_fail (R := Apart) (P := Stop.fs) _ s₁).imp fun _ _ ha₂ => .of_apart h (Trans.trans ha ha₂)
    · next ip =>
      rw [wp_bind, wp_get]
      dsimp only
      rw [wp_ite]
      refine ⟨fun _ => (hbad ip s₁).mono (fun _ _ ha₂ => .of_apart h (Trans.trans ha ha₂)) fun _ _ => id, fun _ => ?_⟩
      refine (openFile_spec sb h₁ (ha.myproc ▸ hp)).seq fun r s₂ hs₂ => ?_
      split
      · obtain ⟨hrefs, hproc, hmy, -⟩ := hs₂
        rw [ha.tables] at hrefs
        exact (hbad ip s₂).imp fun _ _ ha₃ => (Kept.of_proc hrefs (hproc.trans ha.proc)
          (hmy.trans ha.myproc)).apart ha₃
      · next f fd =>
        obtain ⟨hrefs, hown, hf, hpos, hnone⟩ := hs₂
        have hset : FileRefs (tables s₂) []
            { s₂ with ftable := update s₂.ftable f ((s₁.icache ip).opened ip omode (s₂.ftable f)) } := by
          refine hrefs.setFile hf rfl hpos fun pi w => ⟨fun he => ?_, fun he => by cases hnone.symm.trans he.type⟩
          have := he.type
          unfold Inode.opened at this
          split at this <;> cases this
        have hkept : ∀ s₃, Apart { s₂ with
            ftable := update s₂.ftable f ((s₁.icache ip).opened ip omode (s₂.ftable f)) } s₃ → Kept s fd s₃ := by
          intro s₃ ha₃
          refine Kept.apart ⟨hset, ?_, fun hr => by omega⟩ ha₃
          exact (Mine.of_proc ha.proc ha.myproc).trans (hown.trans (.of_proc rfl rfl))
        have hclose : Keeps Apart Stop.fs (do iunlock ip; endOp) := (keeps_iunlock _).bind fun _ => keeps_endOp
        unfold setFile
        rw [wp_bind, wp_modify, wp_ite]
        refine ⟨fun _ => ?_, fun _ => ?_⟩
        · refine (keeps_itrunc (R := Apart) sb ip _).seq fun _ s₃ ha₃ => ?_
          rw [← bind_assoc]
          exact (hclose s₃).seq fun _ s₄ ha₄ => (wp_pure _).2 (hkept s₄ (Trans.trans ha₃ ha₄))
        · rw [← bind_assoc]
          exact (hclose _).seq fun _ s₃ ha₃ => (wp_pure _).2 (hkept s₃ ha₃)

theorem fileclose_both {t : Nat → Nat → Option Nat} {f g : Nat} (h : FileRefs t [f, g] s) {α : Type} (r : α) :
    wp (do fileclose sb f; fileclose sb g; return r)
      (fun r' s' => r' = r ∧ FileRefs t [] s' ∧ s'.proc = s.proc ∧ s'.myproc = s.myproc) (fun e _ => e.fs) s := by
  refine (fileclose_spec sb h mem_cons_self).seq ?_
  rintro - s₁ ⟨h₁, hproc₁, hmy₁, -⟩
  rw [erase_cons_head] at h₁
  refine (fileclose_spec sb h₁ mem_cons_self).seq ?_
  rintro - s₂ ⟨h₂, hproc₂, hmy₂, -⟩
  rw [erase_cons_head] at h₂
  exact (wp_pure _).2 ⟨rfl, h₂, hproc₂.trans hproc₁, hmy₂.trans hmy₁⟩

theorem pipealloc_spec {t : Nat → Nat → Option Nat} (h : FileRefs t [] s) (page : Option Nat) :
    wp (pipealloc sb page) (fun r s' => s'.proc = s.proc ∧ s'.myproc = s.myproc ∧ match r with
      | none => FileRefs t [] s'
      | some (rf, wf) => FileRefs t [rf, wf] s' ∧ rf ≠ wf) (fun e _ => e.fs) s := by
  unfold pipealloc
  refine (filealloc_spec h).seq ?_
  intro r s₁ hs₁
  split
  · obtain rfl := hs₁
    exact (wp_pure _).2 ⟨rfl, rfl, h⟩
  · next f0 =>
    obtain ⟨h₁, htype₁, -, -, hproc₁, hmy₁, -⟩ := hs₁
    refine (filealloc_spec h₁).seq ?_
    intro r s₂ hs₂
    split
    · obtain rfl := hs₂
      refine (fileclose_spec sb h₁ mem_cons_self).seq ?_
      rintro - s₃ ⟨h₃, hproc₃, hmy₃, -⟩
      rw [erase_cons_head] at h₃
      exact (wp_pure _).2 ⟨hproc₃.trans hproc₁, hmy₃.trans hmy₁, h₃⟩
    · next f1 =>
      obtain ⟨h₂, htype₂, hnot, hother, hproc₂, hmy₂, -⟩ := hs₂
      have hne : f0 ≠ f1 := fun e => hnot (e ▸ mem_cons_self)
      have h₂ := h₂.perm (List.Perm.swap f0 f1 [])
      unfold kalloc
      rw [wp_bind, wp_bind, wp_get, wp_pure]
      split
      · next pi hpi =>
        have hfree : s₂.pipes pi = none := by simpa using (Option.filter_eq_some_iff.1 hpi).2
        unfold setPipe setFile
        rw [wp_bind, wp_modify, wp_bind, wp_modify, wp_bind, wp_modify, wp_pure]
        refine ⟨hproc₂.trans hproc₁, hmy₂.trans hmy₁, ?_, hne⟩
        have hx1 : update s₂.ftable f0 { s₂.ftable f0 with type := .pipe, readable := true, writable := false, pipe := pi } f1 = s₂.ftable f1 :=
          update_of_ne hne.symm ..
        dsimp only
        rw [hx1]
        exact h₂.new_pipe mem_cons_self (mem_cons_of_mem _ mem_cons_self) hne
          ((congrArg File.type (hother f0 hne)).trans htype₁) htype₂ hfree ⟨rfl, rfl, rfl⟩ ⟨rfl, rfl, rfl⟩ rfl rfl
      · refine (fileclose_both sb h₂ none).imp ?_
        rintro r s₃ ⟨rfl, h₃, hproc₃, hmy₃⟩
        exact ⟨hproc₃.trans (hproc₂.trans hproc₁), hmy₃.trans (hmy₂.trans hmy₁), h₃⟩

theorem sysPipe_spec (h : FileRefs (tables s) [] s) (hp : s.myproc < NPROC) (page : Option Nat) (copied : Bool) :
    wp (sysPipe sb page copied) (Kept s) (fun e _ => e.fs) s := by
  -- closing both files ends the call, once the descriptors are as they were
  have hfail : ∀ (u : St) rf wf, FileRefs (tables s) [rf, wf] u → Mine s u → tables u = tables s →
      wp (do fileclose sb rf; fileclose sb wf; return (-1 : Int)) (Kept s) (fun e _ => e.fs) u := by
    intro u rf wf hu ho ht
    refine (fileclose_both sb hu _).imp ?_
    rintro r u' ⟨-, hrefs, hproc, hmy⟩
    have ht' : tables u' = tables s := (tables_congr hproc).trans ht
    exact ⟨ht' ▸ hrefs, ho.trans (.of_proc hproc hmy), fun _ => ht'⟩
  unfold sysPipe
  refine (pipealloc_spec sb h page).seq ?_
  rintro r s₁ ⟨hproc₁, hmy₁, hs₁⟩
  have ht₁ := tables_congr hproc₁
  have ho₁ : Mine s s₁ := .of_proc hproc₁ hmy₁
  split
  · exact (wp_pure _).2 (.of_proc hs₁ hproc₁ hmy₁)
  · next rf wf =>
    obtain ⟨h₁, -⟩ := hs₁
    refine (fdalloc_spec rf).seq fun r s₂ hs₂ => ?_
    split
    · obtain rfl := hs₂
      exact hfail _ _ _ h₁ ho₁ ht₁
    · next fd0 =>
      obtain ⟨hlt0, hnone0, hslot0⟩ := hs₂
      rw [ht₁, hmy₁] at hnone0
      have ht₂ : tables s₂ = put (tables s) s.myproc fd0 (some rf) := by rw [hslot0.tables, ht₁, hmy₁]
      have hmy₂ : s₂.myproc = s.myproc := hslot0.myproc.trans hmy₁
      have h₂ := h₁.congr hslot0.ftable hslot0.pipes
      have ho₂ := ho₁.trans hslot0.own
      refine (fdalloc_spec wf).seq fun r s₃ hs₃ => ?_
      split
      · obtain rfl := hs₃
        refine (clearFd_spec fd0).seq fun _ s₄ hslot => ?_
        refine hfail _ _ _ (h₂.congr hslot.ftable hslot.pipes) (ho₂.trans hslot.own) ?_
        rw [hslot.tables, ht₂, hmy₂, put_restore _ hnone0]
      · next fd1 =>
        obtain ⟨hlt1, hnone1, hslot1⟩ := hs₃
        rw [ht₂, hmy₂] at hnone1
        have ht₃ : tables s₃ = put (put (tables s) s.myproc fd0 (some rf)) s.myproc fd1 (some wf) := by
          rw [hslot1.tables, ht₂, hmy₂]
        have hmy₃ : s₃.myproc = s.myproc := hslot1.myproc.trans hmy₂
        have h₃ := h₂.congr hslot1.ftable hslot1.pipes
        have ho₃ := ho₂.trans hslot1.own
        rw [wp_ite]
        refine ⟨fun _ => (wp_pure _).2 ⟨?_, ho₃, fun hneg => by omega⟩, fun _ => ?_⟩
        · rw [ht₃]
          exact (h₃.give hp hlt0 hnone0).give hp hlt1 hnone1
        · have hne : fd0 ≠ fd1 := by
            rintro rfl
            rw [put_self] at hnone1
            cases hnone1
          rw [put_other _ fun e => hne (congrArg Prod.snd e).symm] at hnone1
          refine (clearFd_spec fd0).seq fun _ s₄ hslot4 => ?_
          refine (clearFd_spec fd1).seq fun _ s₅ hslot5 => ?_
          refine hfail _ _ _ ((h₃.congr hslot4.ftable hslot4.pipes).congr hslot5.ftable hslot5.pipes)
            ((ho₃.trans hslot4.own).trans hslot5.own) ?_
          rw [hslot5.tables, hslot4.tables, hslot4.myproc, ht₃, hmy₃, put_comm _ _ hne.symm, put_restore _ hnone0,
            put_restore _ hnone1]

/-! ## proc.c -/

/-- The descriptors, once the child `np` has a copy of the first `i` of the parent `p`. -/
def copied (t : Nat → Nat → Option Nat) (p np i : Nat) : Nat → Nat → Option Nat :=
  Function.update t np fun fd => if fd < i then t p fd else t np fd

theorem copied_zero (t : Nat → Nat → Option Nat) (p np : Nat) : copied t p np 0 = t := by
  unfold copied
  simp

theorem copied_succ (t : Nat → Nat → Option Nat) (p np i : Nat) :
    copied t p np (i + 1) = put (copied t p np i) np i (t p i) := by
  unfold copied put
  funext q fd
  by_cases hq : q = np
  · subst hq
    simp only [update_self, update_apply]
    by_cases hfd : fd = i
    · simp [hfd]
    · have : fd < i + 1 ↔ fd < i := by omega
      simp [hfd, this]
  · simp [hq]

theorem copied_other {t : Nat → Nat → Option Nat} {p np q : Nat} (i : Nat) (h : q ≠ np) : copied t p np i q = t q :=
  update_of_ne h ..

theorem copied_next (t : Nat → Nat → Option Nat) (p np i : Nat) : copied t p np i np i = t np i := by
  unfold copied
  simp

theorem fork_spec (h : Settled s) (hu : (s.proc s.myproc).used = true) (memory : Bool) :
    wp (fork memory) (fun r s' => Settled s' ∧ (r = -1 → tables s' = tables s)) (fun e _ => e.fs) s := by
  unfold fork
  rw [wp_bind, wp_get]
  split
  · exact (wp_pure _).2 ⟨h, fun _ => rfl⟩
  · next np hnp =>
    have hlt : np < NPROC := mem_range.1 (mem_of_find?_eq_some hnp)
    have hfree : (s.proc np).used = false := by simpa using find?_some hnp
    have hne : s.myproc ≠ np := by
      intro e
      rw [e, hfree] at hu
      cases hu
    rw [wp_ite]
    refine ⟨fun _ => ?_, fun _ => (wp_pure _).2 ⟨h, fun _ => rfl⟩⟩
    rw [wp_bind]
    refine (wp_forM_range (I := fun i u => tables u = copied (tables s) s.myproc np i ∧ FileRefs (tables u) [] u ∧
      ∀ p, (u.proc p).used = (s.proc p).used) ⟨(copied_zero ..).symm, h.refs, fun _ => rfl⟩ ?_).mono ?_ fun _ _ => id
    · rintro i hi u ⟨htab, hrefs, hused⟩
      have hempty : tables u np i = none := by rw [htab, copied_next, h.empty np hfree i]
      split
      · next hnone =>
        refine (wp_pure _).2 ⟨?_, hrefs, hused⟩
        rw [copied_succ, ← htab]
        exact (put_same (hempty.trans hnone.symm)).symm
      · next f hf =>
        have hmine : tables u s.myproc i = some f := by rw [htab, copied_other _ hne]; exact hf
        refine (filedup_spec hrefs (.inr ⟨_, _, hmine⟩)).seq ?_
        rintro - u₁ ⟨-, hrefs₁, hproc₁, -⟩
        have ht₁ := tables_congr hproc₁
        refine (setFd_spec np i (some f)).imp fun _ u₂ hslot => ?_
        have ht₂ : tables u₂ = put (tables u) np i (some f) := by rw [hslot.tables, ht₁]
        rw [ht₂]
        refine ⟨?_, (hrefs₁.give hlt hi hempty).congr hslot.ftable hslot.pipes, fun p => ?_⟩
        · rw [htab, copied_succ]
          exact congrArg _ hf.symm
        · rw [hslot.used, hproc₁, hused]
    · rintro - u ⟨htab, hrefs, hused⟩
      split
      · exact (wp_throw _).2 trivial
      · refine (quiet_idup _ u).seq fun _ u₁ hq => ?_
        refine (setUsed_spec np true _).seq ?_
        rintro - u₂ ⟨ht₂, hf₂, hp₂, hnew, hold⟩
        have hused₁ : ∀ p, p ≠ np → (u₂.proc p).used = (s.proc p).used := fun p hp => by rw [hold p hp, hq.used, hused]
        refine (wp_pure _).2 ⟨⟨?_, fun p hp => ?_, fun p hp fd => ?_⟩, fun hneg => by omega⟩
        · rw [ht₂, hq.tables]
          exact (hq.refs _ _ hrefs).congr hf₂ hp₂
        · by_cases e : p = np
          · exact e ▸ hlt
          · exact h.procs p (hused₁ p e ▸ hp)
        · have e : p ≠ np := by
            rintro rfl
            rw [hnew] at hp
            cases hp
          rw [ht₂, hq.tables, htab, copied_other _ e]
          exact h.empty p (hused₁ p e ▸ hp) fd

theorem exit_spec (h : Settled s) :
    wp (exit sb) (fun _ s' => Settled s') (fun e _ => e.fs) s := by
  unfold exit
  rw [wp_bind, wp_get]
  dsimp only
  rw [wp_ite]
  refine ⟨fun _ => (wp_throw _).2 trivial, fun _ => ?_⟩
  rw [wp_bind]
  refine (wp_forM_range (I := fun i u => FileRefs (tables u) [] u ∧ Mine s u ∧ ∀ j < i, tables u s.myproc j = none)
    ⟨h.refs, .of_proc rfl rfl, fun _ hj => absurd hj (Nat.not_lt_zero _)⟩ ?_).mono ?_ fun _ _ => id
  · rintro i hi u ⟨hrefs, hown, hdone⟩
    rw [wp_bind, wp_get]
    split
    · next hnone =>
      refine (wp_pure _).2 ⟨hrefs, hown, fun j hj => ?_⟩
      rcases Nat.lt_succ_iff_lt_or_eq.1 hj with hj | rfl
      · exact hdone j hj
      · exact hnone
    · next f hf =>
      -- the count goes down before the descriptor is cleared
      refine (fileclose_spec sb (hrefs.take hf) mem_cons_self).seq ?_
      rintro - u₁ ⟨hrefs₁, hproc₁, hmy₁, -⟩
      rw [erase_cons_head] at hrefs₁
      have ht₁ := tables_congr hproc₁
      refine (clearFd_spec i).imp fun _ u₂ hslot => ?_
      have ht₂ : tables u₂ = put (tables u) s.myproc i none := by rw [hslot.tables, ht₁, hmy₁, hown.myproc]
      rw [ht₂]
      refine ⟨hrefs₁.congr hslot.ftable hslot.pipes, (hown.trans (.of_proc hproc₁ hmy₁)).trans hslot.own, fun j hj => ?_⟩
      by_cases e : j = i
      · rw [e, put_self]
      · rw [put_other _ fun e' => e (congrArg Prod.snd e')]
        exact hdone j (by omega)
  · rintro - u ⟨hrefs, hown, hdone⟩
    refine (keeps_beginOp (R := Apart) (P := Stop.fs) u).seq fun _ u₁ ha₁ => ?_
    rw [wp_bind, wp_get]
    split
    · exact (wp_throw _).2 trivial
    · refine (keeps_iput (R := Apart) (P := Stop.fs) sb _ u₁).seq fun _ u₂ ha₂ => ?_
      refine (keeps_endOp (R := Apart) (P := Stop.fs) u₂).seq fun _ u₃ ha₃ => ?_
      have ha : Apart u u₃ := Trans.trans (Trans.trans ha₁ ha₂) ha₃
      refine (setUsed_spec s.myproc false none).imp ?_
      rintro - u₄ ⟨ht₄, hf₄, hp₄, hgone, hold⟩
      have ht : tables u₄ = tables u := ht₄.trans ha.tables
      have hused : ∀ p, p ≠ s.myproc → (u₄.proc p).used = (s.proc p).used := fun p hp => by
        rw [hold p hp, ha.proc, hown.used]
      refine ⟨?_, fun p hp => ?_, fun p hp fd => ?_⟩
      · rw [ht]
        exact (hrefs.apart ha).congr hf₄ hp₄
      · by_cases e : p = s.myproc
        · rw [e, hgone] at hp
          cases hp
        · exact h.procs p (hused p e ▸ hp)
      · rw [ht]
        by_cases e : p = s.myproc
        · rw [e]
          by_cases hfd : fd < NOFILE
          · exact hdone fd hfd
          · rcases hval : tables u s.myproc fd with - | f
            · rfl
            · exact absurd (hrefs.slots _ _ _ hval).2.1 hfd
        · rw [hown.other p e]
          exact h.empty p (hused p e ▸ hp) fd

/-! ## Runs -/

/-- Every call keeps the open files in order; the panics of `file.c` that tell of a wrong count are not reached. -/
theorem syscall_settled (h : Settled s) (hu : (s.proc s.myproc).used = true) (call : Call) :
    wp (syscall sb call) (fun r s' => Settled s' ∧ (r = -1 → tables s' = tables s)) (fun e _ => e.fs) s := by
  have hp := h.procs _ hu
  have hkept : ∀ {m : M Int}, wp m (Kept s) (fun e _ => e.fs) s →
      wp m (fun r s' => Settled s' ∧ (r = -1 → tables s' = tables s)) (fun e _ => e.fs) s := fun hm =>
    hm.imp fun _ _ hk => ⟨h.own hu hk.refs hk.own, hk.fail⟩
  have hquiet : ∀ {m : M Int}, Keeps Quiet Stop.fs m →
      wp m (fun r s' => Settled s' ∧ (r = -1 → tables s' = tables s)) (fun e _ => e.fs) s := fun hm =>
    hkept ((hm s).mono (fun _ _ hq => .of_quiet h.refs hq) fun _ _ => id)
  cases call with
  | dup fd => exact hkept (sysDup_spec h.refs hp fd)
  | read fd dst n r => exact hquiet (quiet_sysRead sb fd dst n r)
  | write fd mem addr n r => exact hquiet (quiet_sysWrite sb fd _ n r)
  | close fd => exact hkept (sysClose_spec sb h.refs fd)
  | fstat fd copied => exact hquiet (keeps_sysFstat sb fd copied)
  | link old new => exact hquiet (keeps_sysLink sb old new)
  | unlink path => exact hquiet (keeps_sysUnlink sb path)
  | «open» path omode => exact hkept (sysOpen_spec sb h.refs hp path omode)
  | mkdir path => exact hquiet (keeps_make sb path _ _ _)
  | mknod path major minor => exact hquiet (keeps_make sb path _ _ _)
  | chdir path => exact hquiet (quiet_sysChdir sb path)
  | exec path reads => exact hquiet (keeps_sysExec sb path reads)
  | pipe page copied => exact hkept (sysPipe_spec sb h.refs hp page copied)
  | fork memory => exact fork_spec h hu memory
  | exit =>
    refine (wp_bind _ _).2 ((exit_spec sb h).mono (fun _ s' hs' => (wp_pure _).2 ⟨hs', fun hneg => ?_⟩) fun _ _ => id)
    omega
  | other r => exact (wp_pure _).2 ⟨h, fun _ => rfl⟩

end Calls

/-- The kernel has started: no file is open. -/
structure NoFiles (s : St) : Prop where
  ftable : ∀ f, (s.ftable f).ref = 0 ∧ (s.ftable f).type = .none
  pipes : ∀ pi, s.pipes pi = none
  empty : ∀ p fd, tables s p fd = none
  procs : ∀ p, (s.proc p).used = true → p < NPROC

def Running (s : St) (e : Nat × Call) : Prop := (s.proc e.1).used = true

/-- What holds of the open files whenever no call is in progress. -/
structure OpenFiles (s : St) : Prop where
  refs : ∀ f < NFILE, (s.ftable f).ref = refs NPROC NOFILE (tables s) f
  slots : ∀ p fd f, tables s p fd = some f → p < NPROC ∧ fd < NOFILE ∧ f < NFILE
  free : ∀ f < NFILE, (s.ftable f).ref = 0 → (s.ftable f).type = .none
  /-- An end of a pipe is open as long as a descriptor refers to it, -/
  ends : ∀ pi w, (∃ x, s.pipes pi = some x ∧ x.isOpen w = true) ↔
    ∃ p fd f, tables s p fd = some f ∧ (s.ftable f).End pi w
  /-- and its page is in use as long as one of them is. -/
  page : ∀ pi, s.pipes pi ≠ none ↔ ∃ p fd f w, tables s p fd = some f ∧ (s.ftable f).End pi w
  /-- A call that returns -1 has changed no descriptor and no count. -/
  fails : ∀ p, (s.proc p).used = true → ∀ call s', exec (syscall sb call) { s with myproc := p } = (.ok (-1), s') →
    tables s' = tables s ∧ ∀ f < NFILE, (s'.ftable f).ref = (s.ftable f).ref
  /-- No call uses a count that is too low, or closes an end of a page that is free. -/
  safe : ∀ p, (s.proc p).used = true → ∀ call e s', exec (syscall sb call) { s with myproc := p } = (.error e, s') →
    e ≠ .filedup ∧ e ≠ .fileclose ∧ e ≠ .deadPipe
  /-- Where `sys_open` finds no room for a file or descriptor, what it closes starts no transaction. -/
  unnested : ∀ p, (s.proc p).used = true → ∀ path omode ip t,
    exec (do beginOp; openInode sb path omode) { s with myproc := p } = (.ok (some ip), t) →
    ∀ t', exec (openFile sb) t = (.ok none, t') → t'.trace = t.trace

section Runs
variable {sb} {s : St}

theorem NoFiles.settled (h : NoFiles s) : Settled s := by
  have hnot : ∀ f pi w, ¬ (s.ftable f).End pi w := fun f pi w he => by cases (h.ftable f).2.symm.trans he.type
  refine ⟨⟨fun f hf => ?_, fun f _ _ => (h.ftable f).2, fun p fd f hf => ?_, fun f hf => ?_, fun f _ pi w he => ?_,
    fun pi x hx => ?_, fun pi x hx => ?_, fun f _ g _ pi w he => ?_⟩, h.procs, fun p _ fd => h.empty p fd⟩
  · have h0 : refs NPROC NOFILE (tables s) f = 0 := by
      by_contra hne
      obtain ⟨p, fd, hf⟩ := exists_slot (Nat.pos_of_ne_zero hne)
      rw [h.empty] at hf
      cases hf
    rw [(h.ftable f).1, h0]
    rfl
  · rw [h.empty] at hf
    cases hf
  · cases hf
  · exact absurd he (hnot f pi w)
  · rw [h.pipes] at hx
    cases hx
  · rw [h.pipes] at hx
    cases hx
  · exact absurd he (hnot f pi w)

theorem Settled.end_slot (h : Settled s) {f pi : Nat} {w : Bool} (hf : f < NFILE) (he : (s.ftable f).End pi w) :
    ∃ p fd, tables s p fd = some f := by
  refine exists_slot (n := NPROC) (m := NOFILE) (Nat.pos_of_ne_zero fun h0 => ?_)
  have hr := h.refs.refs f hf
  rw [h0] at hr
  cases (h.refs.free f hf hr).symm.trans he.type

theorem Settled.openFiles (h : Settled s) : OpenFiles sb s := by
  have hends : ∀ pi w, (∃ x, s.pipes pi = some x ∧ x.isOpen w = true) ↔
      ∃ p fd f, tables s p fd = some f ∧ (s.ftable f).End pi w := by
    intro pi w
    constructor
    · rintro ⟨x, hx, hw⟩
      obtain ⟨f, hf, he⟩ := h.refs.ends pi x hx w hw
      obtain ⟨p, fd, hslot⟩ := h.end_slot hf he
      exact ⟨p, fd, f, hslot, he⟩
    · rintro ⟨p, fd, f, hslot, he⟩
      exact h.refs.opens f (h.refs.slots p fd f hslot).2.2 pi w he
  have hp : ∀ p, Settled { s with myproc := p } := fun p => ⟨h.refs.congr rfl rfl, h.procs, h.empty⟩
  have hrefs : ∀ f < NFILE, (s.ftable f).ref = (Slots.refs NPROC NOFILE (tables s) f : Nat) := fun f hf => by
    rw [h.refs.refs f hf, count_nil, Nat.add_zero]
  refine ⟨hrefs, h.refs.slots, h.refs.free, hends, fun pi => ?_, fun p hu call s' he => ?_,
    fun p hu call e s' he => ?_, fun p hu path omode ip t ht t' ht' => ?_⟩
  · constructor
    · intro hne
      obtain ⟨x, hx⟩ := Option.ne_none_iff_exists'.1 hne
      obtain ⟨w, hw⟩ := h.refs.inUse pi x hx
      obtain ⟨p, fd, f, hf⟩ := (hends pi w).1 ⟨x, hx, hw⟩
      exact ⟨p, fd, f, w, hf⟩
    · rintro ⟨p, fd, f, w, hf⟩
      obtain ⟨x, hx, -⟩ := (hends pi w).2 ⟨p, fd, f, hf⟩
      rw [hx]
      exact Option.some_ne_none x
  · obtain ⟨hs', hsame⟩ := (syscall_settled sb (hp p) hu call).ok he
    refine ⟨hsame rfl, fun f hf => ?_⟩
    rw [hs'.refs.refs f hf, hsame rfl]
    exact (h.refs.refs f hf).symm
  · refine ⟨?_, ?_, ?_⟩
    all_goals
      rintro rfl
      exact (syscall_settled sb (hp p) hu call).error he
  · have hlookup : Keeps Apart Stop.fs (do beginOp; openInode sb path omode) :=
      keeps_beginOp.bind fun _ => keeps_openInode sb _ _
    have ha := (hlookup { s with myproc := p }).ok ht
    have hrefs : FileRefs (tables t) [] t := ha.tables ▸ (hp p).refs.apart ha
    exact ((openFile_spec sb hrefs (ha.myproc ▸ h.procs p hu)).ok ht').2.2.2

/-- In every state reached by calls of any processes the open files go with the descriptors. -/
theorem open_files (h : Reach NoFiles (When (Step sb) Running) s) : OpenFiles sb s := by
  refine Settled.openFiles (h.inv Settled (fun _ => NoFiles.settled) ?_)
  rintro u ⟨p, call⟩ u' hset ⟨hrun, r, he⟩
  have := syscall_settled sb (s := { u with myproc := p }) ⟨hset.refs.congr rfl rfl, hset.procs, hset.empty⟩ hrun call
  exact (this.ok he).1

/-- `pipe`, with page 5 for it -/
def pipeCall : Call := .pipe (some 5) true

theorem noFiles_booted : NoFiles booted := by
  refine ⟨fun _ => ⟨rfl, rfl⟩, fun _ => rfl, fun _ _ => rfl, fun p hp => ?_⟩
  have : p = 1 := by simpa [booted] using hp
  rw [this]
  decide

theorem open_files_pipe : Reach NoFiles (When (Step smallSb) Running) (next booted pipeCall) ∧
    OpenFiles smallSb (next booted pipeCall) ∧ ((next booted pipeCall).pipes 5).isSome = true := by
  have h : Reach NoFiles (When (Step smallSb) Running) (next booted pipeCall) :=
    .next (.init noFiles_booted) (step_next (r := 0) (by decide +kernel)) rfl
  exact ⟨h, open_files h, by decide +kernel⟩

end Runs

end Xv6.Fs
