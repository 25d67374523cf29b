import Xv6.Sched.Locks
/-!
# One CPU per process

`Ctl` says what `proc[p]` looks like while a CPU executes `p`, switches to or
from it, or while no CPU has anything to do with it.
-/

open Function

namespace Xv6.Sched

/-- No CPU executes the process: its registers are in `p->context`. -/
def Parked (p : Nat) (q : Proc) : Prop :=
  match q.state with
  | .unused => True
  | .running => False
  | .runnable => ∃ r, q.context = some r ∧ r ≠ .dead
  | .sleeping => ∃ w, q.context = some (.slept w) ∧ q.chan = some (w.chan p)
  | .zombie => q.context = some .dead

/-- The process while a CPU executes it. -/
def On (p : Nat) (q : Proc) : Pc → Prop
  | .at (.sleepState w) => q.state = .running ∧ q.chan = some (w.chan p)
  | .at (.exitDrop _) | .save .dead => q.state = .zombie
  | .save (.slept w) => q.state = .sleeping ∧ q.chan = some (w.chan p)
  | .save (.yielded _ _) => q.state = .runnable
  | .load r => Parked p q ∧ q.state ≠ .unused ∧ q.context = some r
  | .save .forkret | .resume .dead => False
  | _ => q.state = .running

/-- `allocproc` has taken a slot that is still marked `UNUSED`. -/
def Took (d : Data) : Pc → Prop
  | .at (.forkAlloc i) => (d.proc i).state = .unused
  | _ => True

/-- The process a CPU executes or switches to or from. -/
def Cpu.carries : Cpu → Option Nat
  | .run p _ | .sched (.enter p) | .sched (.back p) => some p
  | _ => none

def Fits (d : Data) : Cpu → Prop
  | .run p pc => On p (d.proc p) pc ∧ Took d pc
  | .sched (.enter p) => (d.proc p).state = .running ∧ ∃ r, (d.proc p).context = some r ∧ r ≠ .dead
  | .sched (.back p) => Parked p (d.proc p)
  | _ => True

/-! ## What a thread does to a slot -/

/-- What the thread of slot `p` does to slots, apart from its own sleeping, yielding and exiting. -/
inductive Touch (p : Nat) : Proc → Proc → Prop
  | same {q} : Touch p q q
  | wake {q} (ch : Option Chan) : Touch p q (q.wake ch)
  | kill {q} : Touch p q { q.wake none with killed := true }
  | alloc {q} (pid : Int) : q.state = .unused → Touch p q { q with pid := pid }
  | born {q} : q.state = .unused → Touch p q { q with parent := some p, context := some .forkret, state := .runnable }
  | free {q} : q.state = .unused ∨ q.state = .zombie → Touch p q q.free
  | adopt {q} : Touch p q { q with parent := some 0 }

variable {d d' : Data} {pc pc' : Pc} {q q' : Proc} {i : Nat} {k : Cpu}

theorem Data.set_touch {p : Nat} {f : Proc → Proc} (i : Nat) (hf : Touch p (d.proc i) (f (d.proc i)))
    (j : Nat) : Touch p (d.proc j) ((d.set i f).proc j) := by
  rw [Data.set_proc]
  split
  · next h => exact h ▸ hf
  · exact .same

/-- The places from which a thread writes its own slot as no other thread does. -/
def Pc.Own : Pc → Prop
  | .at (.kern _) | .at (.sleepChan _) | .at (.sleepState _) | .at (.exitZombie _ _)
  | .yieldState _ _ | .save _ | .resume _ => True
  | _ => False

theorem Exec.touch {n p : Nat} (h : Exec n p d pc d' pc') (ht : Took d pc) {j : Nat}
    (hj : j ≠ p ∨ ¬ pc.Own) : Touch p (d.proc j) (d'.proc j) := by
  cases h
  case sleepChan | sleepState | slept | exitZombie | yieldState | save =>
    rw [Data.set_other _ _ (hj.resolve_right fun h => h trivial)]
    exact .same
  case fault =>
    rw [Data.mark_other _ _ (hj.resolve_right fun h => h trivial)]
    exact .same
  case wakeTest ch i b => exact Data.set_touch i (.wake _) j
  case killHit pid i _ => exact Data.set_touch (d := { d with marks := (d.proc i).pid :: d.marks }) i .kill j
  case forkTake i hu => exact Data.set_touch (d := { d with nextpid := d.nextpid + 1 }) i (.alloc d.nextpid hu) j
  case forkDone i =>
    exact Data.set_touch (d := { d with forks := ((d.proc i).pid, (d.proc p).pid) :: d.forks }) i (.born ht) j
  case forkUndo i => exact Data.set_touch i (.free (.inl ht)) j
  case exitInitWake st => exact Data.set_touch 0 (.wake _) j
  case reparentSet st op i => exact Data.set_touch i .adopt j
  case exitWake st op => exact Data.set_touch op (.wake _) j
  case reap i hz => exact Data.set_touch i (.free (.inr hz)) j
  all_goals exact .same

/-- A slot whose lock the thread does not hold stays as it is, unless it is the thread's own. -/
theorem Exec.frame {n p : Nat} (h : Exec n p d pc d' pc') {j : Nat} (hj : j ≠ p)
    (hl : Lock.proc j ∉ pc.held p) : d'.proc j = d.proc j := by
  cases h <;> first
    | rfl
    | exact Data.set_other _ _ (by simp_all [Pc.held, Kpc.held])

theorem Proc.wake_state {ch : Option Chan} (h : q.state ≠ .sleeping) : q.wake ch = q := by
  simp [Proc.wake, h]

theorem Parked.wake {p : Nat} (h : Parked p q) (ch : Option Chan) : Parked p (q.wake ch) := by
  unfold Proc.wake
  split
  · next hs =>
    rw [Parked, hs.1] at h
    obtain ⟨w, hw, -⟩ := h
    exact ⟨.slept w, hw, Resume.noConfusion⟩
  · exact h

theorem Touch.parked {p p' : Nat} (h : Touch p' q q') (hq : Parked p q) : Parked p q' := by
  cases h with
  | same => exact hq
  | wake ch => exact hq.wake ch
  | kill => exact hq.wake none
  | alloc pid hu => simp_all [Parked]
  | born hu => exact ⟨.forkret, rfl, Resume.noConfusion⟩
  | free hu => trivial
  | adopt => exact hq

theorem Touch.running {p' : Nat} (h : Touch p' q q') (hq : q.state = .running) : q'.state = .running := by
  have hw : ∀ ch, q.wake ch = q := fun ch => Proc.wake_state (by simp [hq])
  cases h <;> simp_all

theorem on_iff_running {p : Nat} (hl : Lock.proc p ∉ pc.held p) :
    On p q pc ↔ q.state = .running := by
  cases pc with
  | «at» k => cases k <;> simp_all [On, Pc.held, Kpc.held]
  | yieldLock => rfl
  | yieldState | save | load | resume => simp [Pc.held] at hl

theorem On.used {p : Nat} (h : On p q pc) : q.state ≠ .unused := by
  cases pc with
  | «at» k => cases k <;> simp_all [On]
  | load r => exact h.2.1
  | save r | resume r => cases r <;> simp_all [On]
  | yieldLock | yieldState => simp_all [On]

theorem Took.mono (p : Nat) (ht : Took d pc)
    (h : ∀ j, Lock.proc j ∈ pc.held p → (d.proc j).state = .unused → (d'.proc j).state = .unused) : Took d' pc := by
  cases pc with
  | «at» k =>
    cases k <;> try trivial
    case forkAlloc i => exact h i (by simp [Pc.held, Kpc.held]) ht
  | yieldLock | yieldState | save | load | resume => trivial

/-! ## What a thread does to its own slot -/

theorem Kpc.free_on {p : Nat} {k : Kpc} (free : k.held 0 = []) : On p q (.at k) ↔ q.state = .running :=
  on_iff_running (by simp [Pc.held, Kpc.held_free free])

theorem Kpc.free_took {k : Kpc} (free : k.held 0 = []) : Took d (.at k) := by
  cases k <;> simp_all [Took, Kpc.held]

theorem Acq.fits {n p : Nat} {l : Lock} (h : Acq n p pc l pc') (hf : Fits d (.run p pc)) :
    Fits d (.run p pc') := by
  cases h <;> exact hf

theorem Rel.fits {p : Nat} {l : Lock} (h : Rel p pc l pc') (hf : Fits d (.run p pc)) :
    Fits d (.run p pc') := by
  cases h
  case yield free => exact ⟨(Kpc.free_on free).2 hf.1, Kpc.free_took free⟩
  all_goals exact hf

theorem Exec.fits {n p : Nat} (h : Exec n p d pc d' pc') (hf : Fits d (.run p pc)) :
    Fits d' (.run p pc') := by
  have ht : ¬ pc.Own → (d.proc p).state = .running → (d'.proc p).state = .running := fun ho hr =>
    (h.touch hf.2 (.inr ho)).running hr
  cases h
  case sleepChan | sleepState | exitZombie | yieldState => simp_all [Fits, On, Took, Data.set_same]
  case fault => simp_all [Fits, On, Took, Data.mark_same]
  case slept w =>
    have hr : ((d.set p fun q => { q with chan := none }).proc p).state = .running := by rw [Data.set_same]; exact hf.1
    cases w <;> exact ⟨hr, trivial⟩
  case save r =>
    refine ⟨?_, trivial⟩
    simp only [On, Data.set_same]
    cases r with
    | slept w => simp_all [Fits, On, Parked]
    | yielded b free => simp_all [Fits, On, Parked]
    | dead => simp_all [Fits, On, Parked]
    | forkret => exact hf.1.elim
  case woken ch b => cases b <;> exact hf
  case forkTake i hu => exact ⟨ht id hf.1, by rw [Took, Data.set_same]; exact hu⟩
  case forkDone | forkUndo | forkFail => exact ⟨ht id hf.1, trivial⟩
  case wakeTest | killHit | exitInitWake | reparentSet | exitWake | reap => exact ⟨ht id hf.1, trivial⟩
  all_goals exact hf

/-- A CPU does not look at a slot it does not carry, but for a slot it has taken. -/
theorem Fits.set {f : Proc → Proc} (hf : Fits d k) (hi : k.carries ≠ some i)
    (hu : (d.proc i).state = .unused → (f (d.proc i)).state = .unused) : Fits (d.set i f) k := by
  have hkeep : ∀ {j}, k.carries = some j → (d.set i f).proc j = d.proc j := fun hj =>
    Data.set_other d f fun h => hi (h ▸ hj)
  cases k with
  | sched k =>
    cases k with
    | enter j | back j => simp only [Fits] at hf ⊢; rwa [hkeep rfl]
    | lock | test | unlock => trivial
  | run j pc =>
    refine ⟨by rw [hkeep rfl]; exact hf.1, hf.2.mono j fun l _ hl => ?_⟩
    rw [Data.set_proc]
    split
    · next h => subst h; exact hu hl
    · exact hl

/-! ## The invariant -/

section Step

variable {C : Type} [DecidableEq C] {n : Nat}

structure Ctl (s : St C) : Prop where
  locks : Locks s
  cproc : ∀ c, s.cproc c = (s.cpu c).carries
  uniq : ∀ {c c' p}, (s.cpu c).carries = some p → (s.cpu c').carries = some p → c = c'
  fits : ∀ c, Fits s.d (s.cpu c)
  parked : ∀ {p}, (∀ c, (s.cpu c).carries ≠ some p) → Parked p (s.d.proc p)

namespace Ctl

variable {s s' : St C} {c : C} {p : Nat}

section
variable (h : Ctl s)
include h

omit [DecidableEq C] in
theorem run (hp : s.cpu c = .run p pc) : Fits s.d (.run p pc) := hp ▸ h.fits c

omit [DecidableEq C] in
/-- What a CPU needs to know is not disturbed by a thread on another CPU. -/
theorem fits_other (hp : s.cpu c = .run p pc) (he : Exec n p s.d pc d' pc')
    {c' : C} (hc : c' ≠ c) : Fits d' (s.cpu c') := by
  have hne : ∀ {j}, (s.cpu c').carries = some j → j ≠ p := by
    rintro j hj rfl
    exact hc (h.uniq hj (by rw [hp]; rfl))
  -- A slot whose lock `c'` holds is left alone.
  have hkeep : ∀ {j}, j ≠ p → Lock.proc j ∈ (s.cpu c').held → d'.proc j = s.d.proc j := fun hj hl =>
    he.frame hj fun hl' => hc (h.locks.excl hl (by rw [hp]; exact hl'))
  have hf := h.fits c'
  cases hk : s.cpu c' with
  | sched k =>
    rw [hk] at hne hkeep hf
    cases k with
    | enter j => simp only [Fits] at hf ⊢; rwa [hkeep (hne rfl) (by simp [Cpu.held, Spc.held])]
    | back j => simp only [Fits] at hf ⊢; rwa [hkeep (hne rfl) (by simp [Cpu.held, Spc.held])]
    | lock | test | unlock => trivial
  | run j pcj =>
    rw [hk] at hne hkeep hf
    have hj := hne rfl
    constructor
    · by_cases hl : Lock.proc j ∈ pcj.held j
      · rw [hkeep hj hl]
        exact hf.1
      · exact (on_iff_running hl).2 ((he.touch (h.run hp).2 (.inl hj)).running ((on_iff_running hl).1 hf.1))
    · refine hf.2.mono j fun i hi hu => ?_
      by_cases hip : i = p
      · subst hip
        exact absurd hu (h.run hp).1.used
      · rw [hkeep hip hi, hu]

/-- A step after which each CPU still has to do with the same process. -/
theorem put (hlocks : Locks s') (hcpu : s'.cpu = update s.cpu c k)
    (hcar : k.carries = (s.cpu c).carries) (hproc : s'.cproc = s.cproc) (hfit : Fits s'.d k)
    (hother : ∀ c', c' ≠ c → Fits s'.d (s.cpu c'))
    (hpark : ∀ p, (∀ c, (s.cpu c).carries ≠ some p) → Parked p (s'.d.proc p)) : Ctl s' := by
  have hsame : ∀ c', (s'.cpu c').carries = (s.cpu c').carries := by
    intro c'
    rw [hcpu, update_apply]
    split
    · next hc => rw [hcar, hc]
    · rfl
  refine ⟨hlocks, fun c' => by rw [hproc, hsame, h.cproc], fun h1 h2 => ?_, fun c' => ?_, fun hp => ?_⟩
  · rw [hsame] at h1 h2
    exact h.uniq h1 h2
  · rw [hcpu, update_apply]
    split
    · exact hfit
    · next hc => exact hother c' hc
  · exact hpark _ fun c' => hsame c' ▸ hp c'

theorem goto (f : Lock → Option C) (hlocks : Locks { s with cpu := update s.cpu c k, lock := f })
    (hcar : k.carries = (s.cpu c).carries) (hfit : Fits s.d k) : Ctl { s with cpu := update s.cpu c k, lock := f } :=
  h.put hlocks rfl hcar rfl hfit (fun c' _ => h.fits c') fun _ hp => h.parked hp

theorem exec {pc pc' : Pc} {d' : Data} (hlocks : Locks { s with cpu := update s.cpu c (.run p pc'), d := d' })
    (hp : s.cpu c = .run p pc) (he : Exec n p s.d pc d' pc') : Ctl { s with cpu := update s.cpu c (.run p pc'), d := d' } := by
  refine h.put hlocks rfl (by rw [hp]; rfl) rfl (he.fits (h.run hp)) (fun c' hc => h.fits_other hp he hc) fun j hj => ?_
  have hjp : j ≠ p := by
    rintro rfl
    exact hj c (by rw [hp]; rfl)
  exact (he.touch (h.run hp).2 (.inl hjp)).parked (h.parked hj)

omit [DecidableEq C] in
/-- The scheduler that holds the lock of a `RUNNABLE` process finds it on no CPU. -/
theorem runnable_parked (hp : s.cpu c = .sched (.test i))
    (hr : (s.d.proc i).state = .runnable) (c' : C) : (s.cpu c').carries ≠ some i := by
  intro hcar
  have hfree : Lock.proc i ∉ (s.cpu c').held := fun hl => by
    have hc := h.locks.excl hl (show Lock.proc i ∈ (s.cpu c).held by simp [hp, Cpu.held, Spc.held])
    rw [hc, hp] at hcar
    cases hcar
  have hf := h.fits c'
  cases hk : s.cpu c' with
  | sched k =>
    rw [hk] at hcar hfree hf
    cases k <;> simp only [Cpu.carries, Option.some.injEq, reduceCtorEq] at hcar <;> subst hcar
    case enter => simp [Fits, hr] at hf
    case back => simp [Cpu.held, Spc.held] at hfree
  | run j pc =>
    rw [hk] at hcar hfree hf
    cases hcar
    have := (on_iff_running hfree).1 hf.1
    simp [hr] at this

theorem take {i : Nat} {d' : Data} (hd : d' = s.d.set i fun q => { q with state := .running })
    (hlocks : Locks { s with cpu := update s.cpu c (.sched (.enter i)), d := d', cproc := update s.cproc c (some i) })
    (hp : s.cpu c = .sched (.test i)) (hr : (s.d.proc i).state = .runnable) :
    Ctl { s with cpu := update s.cpu c (.sched (.enter i)), d := d', cproc := update s.cproc c (some i) } := by
  have hfree := h.runnable_parked hp hr
  have hcar : ∀ c' j, (update s.cpu c (.sched (.enter i)) c').carries = some j →
      c' = c ∧ j = i ∨ c' ≠ c ∧ (s.cpu c').carries = some j := by
    intro c' j hj
    rw [update_apply] at hj
    split at hj
    · next hc => exact .inl ⟨hc, (Option.some.inj hj).symm⟩
    · next hc => exact .inr ⟨hc, hj⟩
  refine ⟨hlocks, fun c' => ?_, fun {c₁ c₂ j} h1 h2 => ?_, fun c' => ?_, fun {j} hj => ?_⟩
  · simp only [update_apply]
    split
    · rfl
    · exact h.cproc c'
  · obtain ⟨rfl, rfl⟩ | ⟨-, h1'⟩ := hcar c₁ j h1
    · obtain ⟨rfl, -⟩ | ⟨-, h2'⟩ := hcar c₂ j h2
      · rfl
      · exact absurd h2' (hfree c₂)
    · obtain ⟨rfl, rfl⟩ | ⟨-, h2'⟩ := hcar c₂ j h2
      · exact absurd h1' (hfree c₁)
      · exact h.uniq h1' h2'
  · simp only [update_apply, hd]
    split
    · have hpark := h.parked hfree
      rw [Parked, hr] at hpark
      exact ⟨by rw [Data.set_same], by rw [Data.set_same]; exact hpark⟩
    · exact (h.fits c').set (hfree c') fun hu => by simp [hr] at hu
  · have hji : j ≠ i := fun hji => hj c (by simp [Cpu.carries, hji])
    simp only [hd, Data.set_other _ _ hji]
    refine h.parked fun c' hc => hj c' ?_
    by_cases hcc : c' = c
    · rw [hcc, hp] at hc
      cases hc
    · simpa [hcc] using hc

theorem enter {i : Nat} {r : Resume} {d' : Data} (hd : d' = s.d.set i fun q => { q with context := none })
    (hlocks : Locks { s with cpu := update s.cpu c (.run i (.resume r)), d := d' }) (hp : s.cpu c = .sched (.enter i))
    (hr : (s.d.proc i).context = some r) : Ctl { s with cpu := update s.cpu c (.run i (.resume r)), d := d' } := by
  have hf : Fits s.d (.sched (.enter i)) := hp ▸ h.fits c
  obtain ⟨hs, r', hr', hdead⟩ := hf
  have hcar : (s.cpu c).carries = some i := by rw [hp]; rfl
  refine h.put hlocks rfl (by rw [hp]; rfl) rfl ⟨?_, trivial⟩ (fun c' hc => ?_) fun j hj => ?_
  · have hrun : (d'.proc i).state = .running := by rw [hd, Data.set_same]; exact hs
    cases r with
    | dead => exact hdead (Option.some.inj (hr'.symm.trans hr))
    | slept | yielded | forkret => exact hrun
  · subst hd
    exact Fits.set (h.fits c') (fun hi => hc (h.uniq hi hcar)) (f := fun q => { q with context := none }) fun hu => hu
  · have hji : j ≠ i := fun hji => hj c (hji ▸ hcar)
    simp only [hd, Data.set_other _ _ hji]
    exact h.parked hj

theorem back (hlocks : Locks { s with cpu := update s.cpu c (.sched (.unlock i)), cproc := update s.cproc c none })
    (hp : s.cpu c = .sched (.back i)) :
    Ctl { s with cpu := update s.cpu c (.sched (.unlock i)), cproc := update s.cproc c none } := by
  have hcar : (s.cpu c).carries = some i := by rw [hp]; rfl
  have hold : ∀ c' j, (update s.cpu c (.sched (.unlock i)) c').carries = some j → (s.cpu c').carries = some j := by
    intro c' j hj
    rw [update_apply] at hj
    split at hj
    · cases hj
    · exact hj
  refine ⟨hlocks, fun c' => ?_, fun h1 h2 => h.uniq (hold _ _ h1) (hold _ _ h2), fun c' => ?_, fun {j} hj => ?_⟩
  · simp only [update_apply]
    split
    · rfl
    · exact h.cproc c'
  · simp only [update_apply]
    split
    · trivial
    · exact h.fits c'
  · by_cases hji : j = i
    · subst hji
      have hf := h.fits c
      rw [hp] at hf
      exact hf
    · refine h.parked fun c' hc => hj c' ?_
      by_cases hcc : c' = c
      · rw [hcc, hcar] at hc
        exact absurd (Option.some.inj hc).symm hji
      · simpa [hcc] using hc

omit [DecidableEq C] in
theorem uncarried (hl : s.lock (.proc p) = none) (hr : (s.d.proc p).state ≠ .running) (c : C) :
    (s.cpu c).carries ≠ some p := by
  intro hcar
  have hfree : Lock.proc p ∉ (s.cpu c).held := fun hm => by simp [(h.locks.owner _ c).2 hm] at hl
  have hf := h.fits c
  cases hk : s.cpu c with
  | sched k =>
    rw [hk] at hcar hfree hf
    cases k <;> simp only [Cpu.carries, Option.some.injEq, reduceCtorEq] at hcar <;> subst hcar
    case enter => exact hr hf.1
    case back => simp [Cpu.held, Spc.held] at hfree
  | run j pc =>
    rw [hk] at hcar hfree hf
    cases hcar
    exact hr ((on_iff_running hfree).1 hf.1)

theorem step (hs : Move n s c s') : Ctl s' := by
  have hlocks := h.locks.step hs
  cases hs with
  | acq hp ha hl => exact h.goto _ hlocks (by rw [hp]; rfl) (ha.fits (h.run hp))
  | rel hp hr hl => exact h.goto _ hlocks (by rw [hp]; rfl) (hr.fits (h.run hp))
  | exec hp he => exact h.exec hlocks hp he
  | intr free hp => exact h.goto s.lock hlocks (by rw [hp]; rfl) ⟨(Kpc.free_on free).1 (h.run hp).1, trivial⟩
  | load hp => exact h.goto s.lock hlocks (by rw [hp]; rfl) (h.run hp).1.1
  | lock hp hl => exact h.goto _ hlocks (by rw [hp]; rfl) trivial
  | take hp hs => exact h.take rfl hlocks hp hs
  | skip hp hs => exact h.goto s.lock hlocks (by rw [hp]; rfl) trivial
  | enter hp hr => exact h.enter rfl hlocks hp hr
  | back hp => exact h.back hlocks hp
  | unlock hp hl => exact h.goto _ hlocks (by rw [hp]; rfl) trivial

end

end Ctl

omit [DecidableEq C] in
theorem ctl_init : Ctl (init C) where
  locks := locks_init
  cproc _ := rfl
  uniq h := by cases h
  fits _ := trivial
  parked {p} _ := by
    by_cases hp : p = 0
    · subst hp
      exact ⟨.forkret, rfl, Resume.noConfusion⟩
    · simp [init, hp, Parked, Proc.empty]

theorem Reach.ctl {s : St C} (h : Reach n s) : Ctl s :=
  Run.Reach.inv Ctl (fun _ hi => hi ▸ ctl_init) (fun _ _ _ hc hs => hc.step hs.move) h

/-! ## State changes -/

/-- The changes of `p->state`. -/
def State.Next : State → State → Prop
  | .unused, .runnable | .runnable, .running | .running, .runnable | .running, .sleeping | .running, .zombie
  | .sleeping, .runnable | .zombie, .unused => True
  | _, _ => False

theorem Touch.next {p : Nat} (h : Touch p q q') : q'.state = q.state ∨ State.Next q.state q'.state := by
  have hw : ∀ ch, (q.wake ch).state = q.state ∨ State.Next q.state (q.wake ch).state := by
    intro ch
    unfold Proc.wake
    split
    · next hs => exact .inr (by rw [hs.1]; trivial)
    · exact .inl rfl
  cases h with
  | same | alloc | adopt => exact .inl rfl
  | wake ch => exact hw ch
  | kill => exact hw none
  | born hu => exact .inr (by rw [hu]; trivial)
  | free hu =>
    rcases hu with hu | hu
    · exact .inl (by rw [hu]; rfl)
    · exact .inr (by rw [hu]; trivial)

theorem Exec.next {p : Nat} (h : Exec n p d pc d' pc') (hf : Fits d (.run p pc)) (j : Nat) :
    (d'.proc j).state = (d.proc j).state ∨ State.Next (d.proc j).state (d'.proc j).state := by
  by_cases hj : j ≠ p ∨ ¬ pc.Own
  · exact (h.touch hf.2 hj).next
  obtain ⟨rfl, hown⟩ : j = p ∧ pc.Own := by simpa using hj
  have hon := hf.1
  cases h
  case fault => exact .inl (by rw [Data.mark_same])
  case sleepChan | slept | save => exact .inl (by rw [Data.set_same])
  case sleepState => exact .inr (by rw [Data.set_same, hon.1]; trivial)
  case exitZombie => exact .inr (by rw [Data.set_same, show (d.proc j).state = .running from hon]; trivial)
  case yieldState => exact .inr (by rw [Data.set_same, show (d.proc j).state = .running from hon]; trivial)
  all_goals first | exact .inl rfl | exact hown.elim

theorem Move.next {s s' : St C} {c : C} (h : Move n s c s') (hc : Ctl s) (p : Nat) :
    (s'.d.proc p).state = (s.d.proc p).state ∨ State.Next (s.d.proc p).state (s'.d.proc p).state := by
  cases h with
  | exec hp he => exact he.next (hc.run hp) p
  | take hp hr =>
    simp only [Data.set_proc]
    split
    · next hpi => exact .inr (by rw [hpi, hr]; trivial)
    · exact .inl rfl
  | enter hp hr =>
    simp only [Data.set_proc]
    split <;> exact .inl rfl
  | _ => exact .inl rfl

/-- A `RUNNING` process is `c->proc` of exactly one CPU, and one in another
state whose lock is free of none. A CPU that is about to load `p->context`
finds the registers saved and `p` on no CPU. Only the transitions of
`State.Next` happen, and what is resumed is `RUNNING`. -/
theorem one_cpu_per_process {s : St C} (h : Reach n s) :
    (∀ p, (s.d.proc p).state = .running → ∃! c, s.cproc c = some p) ∧
    (∀ p, (s.d.proc p).state ≠ .running → s.lock (.proc p) = none → ∀ c, s.cproc c ≠ some p) ∧
    (∀ c p, s.cpu c = .sched (.enter p) →
      (∃ r, (s.d.proc p).context = some r) ∧ ∀ c' pc, s.cpu c' ≠ .run p pc) ∧
    (∀ e s', Step n s e s' → ∀ p,
      (s'.d.proc p).state = (s.d.proc p).state ∨ State.Next (s.d.proc p).state (s'.d.proc p).state) ∧
    ∀ c p r, s.cpu c = .run p (.resume r) → (s.d.proc p).state = .running := by
  have hc := h.ctl
  refine ⟨fun p hp => ?_, fun p hp hl c hcar => ?_, fun c p hk => ?_, fun e s' hs p => hs.move.next hc p,
    fun c p r hk => ?_⟩
  · obtain ⟨c, hcar⟩ : ∃ c, (s.cpu c).carries = some p := by
      by_contra hno
      have hpark := hc.parked fun c hcar => hno ⟨c, hcar⟩
      simp [Parked, hp] at hpark
    exact ⟨c, (hc.cproc c).trans hcar, fun c' hc' => hc.uniq ((hc.cproc c').symm.trans hc') hcar⟩
  · exact hc.uncarried hl hp c ((hc.cproc c).symm.trans hcar)
  · have hf : Fits s.d (.sched (.enter p)) := hk ▸ hc.fits c
    obtain ⟨-, r, hr, -⟩ := hf
    refine ⟨⟨r, hr⟩, fun c' pc hk' => ?_⟩
    have hcc : c' = c := hc.uniq (by rw [hk']; rfl) (by rw [hk]; rfl)
    rw [hcc, hk] at hk'
    cases hk'
  · have hon := (hc.run hk).1
    cases r with
    | dead => exact hon.elim
    | slept | yielded | forkret => exact hon

/-- `initproc`, taken by the first of two CPUs. -/
theorem one_cpu_per_process_boot : ∃ s : St Bool, Reach 64 s ∧ (s.d.proc 0).state = .running ∧ ∃! c, s.cproc c = some 0 := by
  obtain ⟨s, hs, hf⟩ := reach_of_steps (n := 64) (f := fun s => (s.d.proc 0).state = .running)
    [(false, .go), (false, .go)] (by decide)
  have hrun := of_decide_eq_true hf
  exact ⟨s, hs, hrun, (one_cpu_per_process hs).1 0 hrun⟩

end Step

end Xv6.Sched
