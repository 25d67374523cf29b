import Xv6.Intr.Code
/-!
# Interrupts are restored

`Fits` relates a CPU to the thread that it executes: `noff` counts the calls of
`push_off` to be undone, interrupts are off unless there are none, and `intena`
is the flag as the thread's outermost `push_off` found it. The scheduler and the
process that it runs hand `noff = 1` to each other, for the one lock that both
count. `intena` they overwrite for each other, and `sched` keeps a copy.
-/

namespace Xv6.Intr

open Run List Option
open Function (update update_self update_of_ne update_eq_self)

open Sched (Lock)

/-- Where an interrupt can strike. -/
def Pc.Open (k : Pc) : Prop := k = .run ∨ ∃ e, k = .push e true

/-- What the place says about the flag and the calls to be undone. -/
def Pc.Ok (intr : Bool) (offs : List (Option Lock)) : Pc → Prop
  | .run => True
  | .push _ old => old = intr
  | .spin l | .pop l => some l ∈ offs
  | .sched _ => offs ≠ []

/-- The copy of `intena` on the thread's stack, if that is the one that counts. -/
def Pc.saved : Pc → Option Bool
  | .sched b => some b
  | _ => none

/-- The CPU `k` executes `th`; `proc`: that is a process. -/
structure Fits (proc : Prop) (k : Cpu) (th : Thread) : Prop where
  noff : k.noff = th.offs.length
  off : k.intr = true → th.offs = []
  pc : th.pc.Ok k.intr th.offs
  below : ∀ f ∈ th.below, f.Open
  intena : proc → th.offs ≠ [] → ∀ b, th.was = some b → th.pc.saved.getD k.intena = b

/-- The process `t` can be run. -/
structure Off (t : Nat) (th : Thread) : Prop where
  offs : th.offs = [some (.proc t)]
  pc : th.pc = .run ∨ ∃ b, th.pc = .sched b
  below : ∀ f ∈ th.below, f.Open
  intena : ∀ b, th.was = some b → th.pc.saved = some b

variable {C : Type}

structure Inv (s : St C) : Prop where
  fits : ∀ c, Fits (s.cur c ≠ none) (s.cpu c) (s.now c)
  off : ∀ t, s.parked t = true → Off t (s.th (.proc t))
  sched : ∀ c t, s.cur c = some t →
    (s.th (.sched c)).pc = .run ∧ (s.th (.sched c)).below = [] ∧ (s.th (.sched c)).offs = [some (.proc t)]
  on : ∀ c t, s.cur c = some t → s.parked t = false
  one : ∀ c c' t, s.cur c = some t → s.cur c' = some t → c = c'
  panic : s.panic = none

/-! ## CPUs -/

section Cpu
variable {proc : Prop} {k k' : Cpu} {th : Thread}

theorem Fits.popOff {e : Option Lock} (h : Fits proc k th) (hp : th.Pops e) :
    e ∈ th.offs ∧ k.intr = false ∧ ∃ k', k.popOff = .ok k' := by
  have hmem : e ∈ th.offs := by
    cases e with
    | none => exact hp.2
    | some l =>
      have hpc := h.pc
      rw [show th.pc = .pop l from hp] at hpc
      exact hpc
  have hne : th.offs ≠ [] := ne_nil_of_mem hmem
  have hoff : k.intr = false := by
    by_contra hi
    exact hne (h.off (by simpa using hi))
  refine ⟨hmem, hoff, ?_⟩
  have hpos : ¬ k.noff < 1 := by
    have := length_pos_iff.2 hne
    have := h.noff
    omega
  unfold Cpu.popOff
  rw [hoff, if_neg Bool.false_ne_true, if_neg hpos]
  split
  · exact ⟨_, rfl⟩
  · exact ⟨_, rfl⟩

theorem popOff_ok (h : k.popOff = .ok k') (hoff : k.intr = false) :
    k'.noff = k.noff - 1 ∧ k'.intena = k.intena ∧ k'.intr = (decide (k.noff = 1) && k.intena) := by
  unfold Cpu.popOff at h
  rw [hoff, if_neg Bool.false_ne_true] at h
  split at h
  · cases h
  · next hpos =>
    have hone : k.noff - 1 = 0 ↔ k.noff = 1 := by omega
    split at h
    · next hr =>
      cases h
      simp [hone.1 hr.1, hr.2]
    · next hr =>
      cases h
      refine ⟨rfl, rfl, ?_⟩
      rw [hone] at hr
      by_cases h1 : k.noff = 1 <;> simp_all

section
variable (h : Fits proc k th)
include h

theorem Fits.schedTests {t : Nat} (ho : th.offs = [some (.proc t)]) : k.schedTests = .ok () := by
  have hn := h.noff
  have hi : k.intr ≠ true := fun hi => by simpa [ho] using h.off hi
  rw [ho] at hn
  simp [Cpu.schedTests, hn, hi]

theorem Fits.pushed {e : Option Lock} {old : Bool} (hpc : th.pc = .push e old) :
    Fits proc (k.pushOff old) (th.pushed k e) where
  noff := by simp [Cpu.pushOff, Thread.pushed, h.noff]
  off hi := by simp [Cpu.pushOff] at hi
  pc := by cases e <;> simp [Thread.pushed, afterPush, Pc.Ok]
  below := h.below
  intena hp _ b hb := by
    have hold := h.pc
    have hint := h.intena hp
    rw [hpc] at hold hint
    have hsaved : (afterPush e).saved = none := by cases e <;> rfl
    simp only [Thread.pushed, Cpu.pushOff, hsaved, getD_none] at hb ⊢
    by_cases ho : th.offs = []
    · rw [if_pos ho] at hb
      rw [if_pos (by rw [h.noff, ho]; rfl), show old = k.intr from hold]
      exact Option.some.inj hb
    · rw [if_neg ho] at hb
      rw [if_neg (by rw [h.noff, length_eq_zero_iff]; exact ho)]
      exact hint ho b hb

theorem Fits.popped {e : Option Lock} (hp : th.Pops e) (hk : k.popOff = .ok k') :
    Fits proc k' (th.popped e) := by
  obtain ⟨hmem, hoff, -⟩ := h.popOff hp
  obtain ⟨hn, hi, hr⟩ := popOff_ok hk hoff
  have hlen := length_erase_of_mem hmem
  have hsaved : th.pc.saved = none := by
    cases e with
    | none => rw [hp.1]; rfl
    | some l => rw [show th.pc = .pop l from hp]; rfl
  refine ⟨?_, fun hon => ?_, trivial, h.below, fun hproc hne b hb => ?_⟩
  · simp only [Thread.popped, hlen, hn, h.noff]
  · rw [hr, Bool.and_eq_true, decide_eq_true_eq, h.noff] at hon
    simp only [Thread.popped]
    rw [← length_eq_zero_iff, hlen, hon.1]
  · have hold := h.intena hproc (ne_nil_of_mem hmem) b hb
    rw [hsaved] at hold
    rw [hi]
    exact hold

/-- The outermost `pop_off` of a process gives back the flag that its `push_off` found. -/
theorem Fits.restored {e : Option Lock} {b : Bool} (hproc : proc) (hp : th.Pops e)
    (hk : k.popOff = .ok k') (ho : th.offs = [e]) (hb : th.was = some b) : k'.intr = b := by
  obtain ⟨hmem, hoff, -⟩ := h.popOff hp
  have hsaved : th.pc.saved = none := by
    cases e with
    | none => rw [hp.1]; rfl
    | some l => rw [show th.pc = .pop l from hp]; rfl
  have hold := h.intena hproc (ne_nil_of_mem hmem) b hb
  rw [hsaved] at hold
  rw [(popOff_ok hk hoff).2.2, h.noff, ho]
  simpa using hold

theorem Fits.goto {pc : Pc} (hok : pc.Ok k.intr th.offs) (hs : pc.saved = none)
    (hs' : th.pc.saved = none) : Fits proc k { th with pc := pc } where
  noff := h.noff
  off := h.off
  pc := hok
  below := h.below
  intena hp hne b hb := by
    have hold := h.intena hp hne b hb
    rw [hs'] at hold
    rw [hs]
    exact hold

theorem Fits.open (hi : k.intr = true) : th.pc.Open := by
  have hpc := h.pc
  rw [h.off hi, hi] at hpc
  cases hk : th.pc with
  | run => exact .inl rfl
  | push e old =>
    rw [hk] at hpc
    exact .inr ⟨e, by rw [show old = true from hpc]⟩
  | spin l | pop l | sched b =>
    rw [hk] at hpc
    simp [Pc.Ok] at hpc

end

end Cpu

/-! ## One step -/

section Step
variable [DecidableEq C] {s s' : St C} {c c' : C} {k : Cpu} {th : Thread} {t : Nat}

omit [DecidableEq C] in
theorem on_proc : s.on c = .proc t ↔ s.cur c = some t := by
  unfold St.on
  cases s.cur c <;> simp

omit [DecidableEq C] in
theorem on_sched : s.on c = .sched c' ↔ s.cur c = none ∧ c = c' := by
  unfold St.on
  cases s.cur c <;> simp

omit [DecidableEq C] in
theorem Inv.on_inj (h : Inv s) (ho : s.on c = s.on c') : c = c' := by
  cases hc : s.cur c with
  | some t =>
    rw [on_proc.2 hc, eq_comm, on_proc] at ho
    exact h.one c c' t hc ho
  | none =>
    rw [on_sched.2 ⟨hc, rfl⟩, eq_comm, on_sched] at ho
    exact ho.2.symm

/-- A step of `c` that changes `c`, the thread that it executes and the locks. -/
theorem Inv.put (h : Inv s) (hf : Fits (s.cur c ≠ none) k th) (lock : Lock → Option C) :
    Inv { s.put c k th with lock := lock } := by
  refine ⟨fun c' => ?_, fun t ht => ?_, fun c' t ht => ?_, h.on, h.one, h.panic⟩
  · show Fits (s.cur c' ≠ none) (update s.cpu c k c') (update s.th (s.on c) th (s.on c'))
    by_cases hc : c' = c
    · rw [hc, update_self, update_self]
      exact hf
    · rw [update_of_ne hc, update_of_ne fun ho => hc (h.on_inj ho)]
      exact h.fits c'
  · have hne : Ctx.proc t ≠ s.on c := fun ho => by
      cases (h.on c t (on_proc.1 ho.symm)).symm.trans ht
    simp only [St.put, update_of_ne hne]
    exact h.off t ht
  · have hne : Ctx.sched c' ≠ s.on c := fun ho => by
      obtain ⟨hnone, rfl⟩ := on_sched.1 ho.symm
      cases hnone.symm.trans ht
    simp only [St.put, update_of_ne hne]
    exact h.sched c' t ht

/-- `swtch`: what changes is the thread of `t`, whether it is parked, and what `c` executes, which is `t` or its
scheduler before and after. -/
theorem Inv.switch (h : Inv s) (hcpu : s'.cpu = s.cpu) (hcur : ∀ c', c' ≠ c → s'.cur c' = s.cur c' ∧ s.cur c' ≠ some t)
    (hth : ∀ x, x ≠ .proc t → s'.th x = s.th x) (hpark : ∀ t', t' ≠ t → s'.parked t' = s.parked t')
    (hpanic : s'.panic = s.panic) (hfits : Fits (s'.cur c ≠ none) (s.cpu c) (s'.now c))
    (hoff : s'.parked t = true → Off t (s'.th (.proc t)))
    (hon : ∀ t', s'.cur c = some t' → t' = t ∧ s'.parked t = false ∧ (s.th (.sched c)).pc = .run ∧
      (s.th (.sched c)).below = [] ∧ (s.th (.sched c)).offs = [some (.proc t)]) : Inv s' := by
  have hrest : ∀ {c' t'}, c' ≠ c → s'.cur c' = some t' → s.cur c' = some t' ∧ t' ≠ t := by
    intro c' t' hc ht'
    rw [(hcur c' hc).1] at ht'
    exact ⟨ht', fun he => (hcur c' hc).2 (he ▸ ht')⟩
  refine ⟨fun c' => ?_, fun t' ht' => ?_, fun c' t' ht' => ?_, fun c' t' ht' => ?_, fun c' c'' t' ht' ht'' => ?_,
    hpanic.trans h.panic⟩
  · rw [hcpu]
    by_cases hc : c' = c
    · rw [hc]
      exact hfits
    · obtain ⟨hsame, hne⟩ := hcur c' hc
      have hon' : s'.on c' = s.on c' := by
        rw [St.on, hsame]
        rfl
      rw [hsame, St.now, hon', hth _ fun he => hne (on_proc.1 he)]
      exact h.fits c'
  · by_cases he : t' = t
    · rw [he] at ht' ⊢
      exact hoff ht'
    · rw [hth _ (by simpa using he)]
      exact h.off t' (hpark t' he ▸ ht')
  · rw [hth _ (by simp)]
    by_cases hc : c' = c
    · subst hc
      obtain ⟨rfl, -, hs⟩ := hon t' ht'
      exact hs
    · exact h.sched c' t' (hrest hc ht').1
  · by_cases hc : c' = c
    · obtain ⟨rfl, hp, -⟩ := hon t' (hc ▸ ht')
      exact hp
    · rw [hpark t' (hrest hc ht').2]
      exact h.on c' t' (hrest hc ht').1
  · by_cases hc : c' = c <;> by_cases hc' : c'' = c
    · exact hc.trans hc'.symm
    · exact absurd (hon t' (hc ▸ ht')).1 (hrest hc' ht'').2
    · exact absurd (hon t' (hc' ▸ ht'')).1 (hrest hc ht').2
    · exact h.one c' c'' t' (hrest hc ht').1 (hrest hc' ht'').1

theorem Inv.parks (h : Inv s) (ht : s.cur c = some t) (hpc : (s.now c).pc = .run)
    (ho : (s.now c).offs = [some (.proc t)]) :
    Inv { s.put c (s.cpu c) { s.now c with pc := .sched (s.cpu c).intena } with
      cur := update s.cur c none
      parked := update s.parked t true } := by
  have hf := h.fits c
  have hon : s.on c = .proc t := on_proc.2 ht
  obtain ⟨hspc, hsb, hso⟩ := h.sched c t ht
  refine h.switch (c := c) (t := t) (update_eq_self ..)
    (fun c' hc => ⟨update_of_ne hc .., fun hc' => hc (h.one c' c t hc' ht)⟩)
    (fun x hx => update_of_ne (hon ▸ hx) ..) (fun t' ht' => update_of_ne ht' ..) rfl ?_ (fun _ => ?_)
    fun t' ht' => ?_
  · simp only [St.put, St.now, hon]
    simp only [St.on, update_self, map_none, getD_none]
    rw [update_of_ne (by simp)]
    refine ⟨?_, fun hi => absurd (ho.symm.trans (hf.off hi)) (by simp), ?_, by simp [hsb], fun hn => absurd rfl hn⟩
    · rw [hf.noff, ho, hso]
    · rw [hspc]
      trivial
  · simp only [St.put, hon, update_self]
    refine ⟨ho, .inr ⟨_, rfl⟩, hf.below, fun b hb => ?_⟩
    have hold := hf.intena (by simp [ht]) (by simp [ho]) b hb
    rw [hpc] at hold
    exact congrArg some hold
  · simp at ht'

theorem Inv.resumes (h : Inv s) (hnone : s.cur c = none) (hpc : (s.now c).pc = .run) (hb : (s.now c).below = [])
    (ho : (s.now c).offs = [some (.proc t)]) (ht : s.parked t = true) :
    Inv { s with
      cur := update s.cur c (some t)
      parked := update s.parked t false } := by
  have hf := h.fits c
  have hnow : s.now c = s.th (.sched c) := congrArg s.th (on_sched.2 ⟨hnone, rfl⟩)
  have hoff := h.off t ht
  refine h.switch (c := c) (t := t) rfl
    (fun c' hc => ⟨update_of_ne hc .., fun hc' => by cases (h.on c' t hc').symm.trans ht⟩) (fun _ _ => rfl)
    (fun t' ht' => update_of_ne ht' ..) rfl ?_ (fun ht' => ?_) fun t' ht' => ?_
  · simp only [St.now, St.on, update_self, map_some, getD_some]
    refine ⟨?_, fun hi => absurd (ho.symm.trans (hf.off hi)) (by simp), ?_, hoff.below, fun _ _ b hb => ?_⟩
    · rw [hf.noff, ho, hoff.offs]
    · rcases hoff.pc with hk | ⟨b, hk⟩
      · rw [hk]
        trivial
      · rw [hk, hoff.offs]
        simp [Pc.Ok]
    · rw [hoff.intena b hb]
      rfl
  · simp at ht'
  · rw [← hnow]
    exact ⟨by simpa using ht'.symm, update_self .., hpc, hb, ho⟩

theorem Inv.forks (h : Inv s) (ht : s.parked t = true) :
    Inv { s with th := update s.th (.proc t) (Thread.fresh t) } := by
  have hne : ∀ c, s.on c ≠ .proc t := fun c hc => by cases (h.on c t (on_proc.1 hc)).symm.trans ht
  refine ⟨fun c => ?_, fun t' ht' => ?_, fun c t' hc => ?_, h.on, h.one, h.panic⟩
  · show Fits _ _ (update s.th (.proc t) _ (s.on c))
    rw [update_of_ne (hne c)]
    exact h.fits c
  · by_cases he : t' = t
    · subst he
      simp only [update_self]
      exact ⟨rfl, .inl rfl, by simp [Thread.fresh], fun b hb => by cases hb⟩
    · dsimp only
      rw [update_of_ne (by simpa using he)]
      exact h.off t' ht'
  · dsimp only
    rw [update_of_ne (by simp)]
    exact h.sched c t' hc

theorem Inv.step {a : C × Act} (h : Inv s) (hs : Step s a s') : Inv s' := by
  cases hs with
  | @intr c b hpc ho =>
    have hf := h.fits c
    refine h.put ?_ s.lock
    refine ⟨hf.noff, fun _ => ho, ?_, hf.below, fun _ hne => absurd ho hne⟩
    rw [hpc]
    trivial
  | @trap c hi =>
    have hf := h.fits c
    refine h.put ?_ s.lock
    refine ⟨hf.noff, fun _ => hf.off hi, trivial, fun f hm => ?_, fun _ hne => absurd (hf.off hi) hne⟩
    rcases mem_cons.1 hm with rfl | hm
    · exact hf.open hi
    · exact hf.below f hm
  | @sret c k ks hpc ho hb =>
    have hf := h.fits c
    have hopen : ∀ f ∈ k :: ks, f.Open := hb ▸ hf.below
    refine h.put ?_ s.lock
    refine ⟨hf.noff, fun _ => ho, ?_, fun f hm => hopen f (mem_cons_of_mem _ hm), fun _ hne => absurd ho hne⟩
    rcases hopen k mem_cons_self with rfl | ⟨e, rfl⟩
    · trivial
    · rfl
  | @call c e hpc =>
    refine h.put ((h.fits c).goto ?_ rfl (by rw [hpc]; rfl)) s.lock
    rfl
  | @push c e old hpc => exact h.put ((h.fits c).pushed hpc) s.lock
  | @lock c l hpc _ =>
    refine h.put ((h.fits c).goto ?_ rfl (by rw [hpc]; rfl)) _
    trivial
  | @release c l hpc hm _ =>
    refine h.put ((h.fits c).goto ?_ rfl (by rw [hpc]; rfl)) _
    exact hm
  | @pop c e k hp hk => exact h.put ((h.fits c).popped hp hk) s.lock
  | @popPanic c e p hp hk =>
    obtain ⟨-, -, k, hok⟩ := (h.fits c).popOff hp
    cases hk.symm.trans hok
  | @sched c t ht hpc ho _ => exact h.parks ht hpc ho
  | @schedPanic c t p ht hpc ho hk => cases hk.symm.trans ((h.fits c).schedTests ho)
  | @resume c t hnone hpc hb ho ht => exact h.resumes hnone hpc hb ho ht
  | @restore c b hpc =>
    have hf := h.fits c
    refine h.put ?_ s.lock
    refine ⟨hf.noff, hf.off, trivial, hf.below, fun hp hne b' hb => ?_⟩
    have hold := hf.intena hp hne b' hb
    rw [hpc] at hold
    exact hold
  | @fork c t ht => exact h.forks ht

end Step

/-! ## Every run -/

section Runs
variable [DecidableEq C] {s : St C}

omit [DecidableEq C] in
theorem inv_init (h : Init s) : Inv s := by
  have hnow : ∀ c, s.now c = s.th (.sched c) := fun c => congrArg s.th (on_sched.2 ⟨h.cur c, rfl⟩)
  have hcur : ∀ {c t}, s.cur c ≠ some t := fun {c t} hc => by cases (h.cur c).symm.trans hc
  refine ⟨fun c => ?_, fun t _ => ?_, fun c t hc => absurd hc hcur, fun c t hc => absurd hc hcur,
    fun c c' t hc => absurd hc hcur, h.panic⟩
  · obtain ⟨hpc, hb, ho⟩ := h.sched c
    rw [hnow]
    refine ⟨by rw [h.noff, ho]; rfl, fun _ => ho, ?_, by simp [hb], fun _ hne => absurd ho hne⟩
    rw [hpc]
    trivial
  · rw [h.proc]
    exact ⟨rfl, .inl rfl, by simp [Thread.fresh], fun b hb => by cases hb⟩

theorem Reach.inv (h : Reach s) : Inv s := Run.Reach.inv Inv (fun _ => inv_init) (fun _ _ _ hi hs => hi.step hs) h

/-- Interrupts are off while a `push_off` is to be undone, `noff` counts those of the thread that runs, no test
fails, and the outermost `pop_off` of a process leaves interrupts as its `push_off` found them. -/
theorem interrupts_restored (h : Reach s) : (∀ c, 0 < (s.cpu c).noff → (s.cpu c).intr = false) ∧
    (∀ c, (s.cpu c).noff = (s.now c).offs.length) ∧ s.panic = none ∧
    ∀ c t e b s', s.cur c = some t → (s.now c).offs = [e] → (s.now c).was = some b → Step s (c, .pop e) s' →
      (s'.cpu c).intr = b := by
  have hi := h.inv
  refine ⟨fun c hpos => ?_, fun c => (hi.fits c).noff, hi.panic, fun c t e b s' hc ho hb hs => ?_⟩
  · by_contra hon
    have hn := (hi.fits c).noff
    rw [(hi.fits c).off (by simpa using hon)] at hn
    exact absurd hn (Nat.ne_of_gt hpos)
  · have hf := hi.fits c
    cases hs with
    | pop hp hk =>
      simp only [St.put, update_self]
      exact hf.restored (by simp [hc]) hp hk ho hb
    | popPanic hp hk =>
      obtain ⟨-, -, k, hok⟩ := hf.popOff hp
      cases hk.symm.trans hok

end Runs

def Ctx.start : Ctx C → Thread
  | .proc t => .fresh t
  | .sched _ => ⟨.run, [], [], none⟩

def start (C : Type) : St C := ⟨fun _ => ⟨0, false, false⟩, fun _ => none, Ctx.start, fun _ => true, fun _ => none, none⟩

/-- A process that has enabled interrupts yields on the first of two CPUs and goes on on the other. -/
theorem interrupts_restored_moved : ∃ s s' : St Bool, Reach s ∧ s.cur false = some 0 ∧ (s.now false).was = some true ∧
    Step s (false, .pop (some (.proc 0))) s' ∧ (s'.cpu false).intr = true := by
  have h : Reach (start Bool) := .init ⟨fun _ => rfl, fun _ => rfl, fun _ => ⟨rfl, rfl, rfl⟩, fun _ => rfl, fun _ => rfl, rfl⟩
  -- the scheduler of the first CPU runs the process, which comes from `forkret`
  have h := h.step (Step.call (c := true) (e := some (.proc 0)) rfl)
  have h := h.step (Step.push (c := true) rfl)
  have h := h.step (Step.lock (c := true) rfl rfl)
  have h := h.step (Step.resume (c := true) (t := 0) rfl rfl rfl rfl rfl)
  have h := h.step (Step.release (c := true) (l := .proc 0) rfl (.head _) rfl)
  have h := h.step (Step.pop (c := true) (e := some (.proc 0)) rfl rfl)
  have h := h.step (Step.intr (c := true) (b := true) rfl rfl)
  -- `yield`
  have h := h.step (Step.call (c := true) (e := some (.proc 0)) rfl)
  have h := h.step (Step.push (c := true) rfl)
  have h := h.step (Step.lock (c := true) rfl rfl)
  have h := h.step (Step.sched (c := true) rfl rfl rfl rfl)
  have h := h.step (Step.release (c := true) (l := .proc 0) rfl (.head _) rfl)
  have h := h.step (Step.pop (c := true) (e := some (.proc 0)) rfl rfl)
  -- the other CPU
  have h := h.step (Step.call (c := false) (e := some (.proc 0)) rfl)
  have h := h.step (Step.push (c := false) rfl)
  have h := h.step (Step.lock (c := false) rfl rfl)
  have h := h.step (Step.resume (c := false) (t := 0) rfl rfl rfl rfl rfl)
  have h := h.step (Step.restore (c := false) rfl)
  have h := h.step (Step.release (c := false) (l := .proc 0) rfl (.head _) rfl)
  exact ⟨_, _, h, rfl, rfl, .pop rfl rfl, (interrupts_restored h).2.2.2 false 0 _ true _ rfl rfl rfl (.pop rfl rfl)⟩

end Xv6.Intr
