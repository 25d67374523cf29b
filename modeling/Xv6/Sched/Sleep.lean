import Xv6.Sched.Switch
/-!
# No lost wakeup

A process goes to sleep in `sleep(chan, lk)` by taking `p->lock` before it gives
up `lk`, so whoever then takes `lk` finds it asleep or on its way, with
`p->lock` held until it is.
-/

namespace Xv6.Sched

/-- The call of `sleep` a thread is in, from the release of `lk` until the registers are saved. -/
def Pc.nap : Pc → Option Nap
  | .at (.sleepChan w) | .at (.sleepState w) | .save (.slept w) | .load (.slept w) => some w
  | _ => none

variable {pc pc' : Pc} {l : Lock} {d d' : Data} {ch : Chan} {lk j q : Nat}

theorem Pc.nap_held {w : Nap} (h : pc.nap = some w) (p : Nat) : Lock.proc p ∈ pc.held p := by
  cases pc with
  | «at» k => cases k <;> simp_all [Pc.nap, Pc.held, Kpc.held]
  | save | load => simp [Pc.held]
  | yieldLock | yieldState | resume => simp [Pc.nap] at h

theorem Kpc.free_nap {k : Kpc} (free : k.held 0 = []) : (Pc.at k).nap = none := by
  cases k <;> simp_all [Pc.nap, Kpc.held]

theorem Acq.nap {n p : Nat} (h : Acq n p pc l pc') : pc'.nap = none := by
  cases h <;> rfl

theorem Rel.nap {p : Nat} {w : Nap} (h : Rel p pc l pc') (hw : pc'.nap = some w) :
    ∃ f ch lk, w = .on f ch lk ∧ pc = .at (.sleepDrop f ch lk) := by
  cases h
  case sleepDrop f ch lk => exact ⟨f, ch, lk, (Option.some.inj hw).symm, rfl⟩
  case yield free => simp [Kpc.free_nap free] at hw
  all_goals simp [Pc.nap] at hw

theorem Exec.nap {n p : Nat} {w : Nap} (h : Exec n p d pc d' pc') (hw : pc'.nap = some w) :
    pc.nap = some w ∨ w = .wait ∧ ∃ i, n ≤ i ∧ pc = .at (.waitScan i true) := by
  cases h
  case sleepChan | sleepState => exact .inl hw
  case save r => cases r <;> exact .inl hw
  case slept w => cases w <;> simp [Pc.nap, Nap.after] at hw
  case woken b => cases b <;> simp [Pc.nap, Caller.pc] at hw
  case waitSleep i kids hi hk _ => exact .inr ⟨(Option.some.inj hw).symm, i, hi, by rw [hk]⟩
  all_goals simp [Pc.nap] at hw

theorem Touch.sleeping {p : Nat} {q q' : Proc} (h : Touch p q q') (hs : q'.state = .sleeping) :
    q.state = .sleeping ∧ q'.context = q.context ∧ q'.chan = q.chan := by
  have hw : ∀ ch, (q.wake ch).state = .sleeping → q.wake ch = q := by
    intro ch
    unfold Proc.wake
    split
    · intro h; cases h
    · exact fun _ => rfl
  cases h with
  | same | adopt | alloc => exact ⟨hs, rfl, rfl⟩
  | wake ch =>
    have heq := hw ch hs
    rw [heq] at hs ⊢
    exact ⟨hs, rfl, rfl⟩
  | kill =>
    have heq := hw none hs
    exact ⟨heq ▸ hs, by rw [heq], by rw [heq]⟩
  | born hu => cases hs
  | free hu => cases hs

section Step

variable {C : Type} {n : Nat}

/-- `p` sleeps because of the call `w` of `sleep`, or will before `p->lock` is free. -/
def Dozing (s : St C) (p : Nat) (w : Nap) : Prop :=
  (∃ c pc, s.cpu c = .run p pc ∧ pc.nap = some w) ∨
    (s.d.proc p).state = .sleeping ∧ (s.d.proc p).context = some (.slept w) ∧ ∀ c pc, s.cpu c ≠ .run p pc

/-- The step with which a process is bound to sleep: it gives up `lk`, or it is
in `wait`, has seen every child and goes on to sleep. -/
def Nods (n : Nat) (s : St C) (c : C) (p : Nat) (w : Nap) : Prop :=
  (∃ f ch lk, w = .on f ch lk ∧ s.cpu c = .run p (.at (.sleepDrop f ch lk))) ∨
    w = .wait ∧ ∃ i, n ≤ i ∧ s.cpu c = .run p (.at (.waitScan i true))

variable [DecidableEq C] {s s' : St C} {c : C} {p : Nat} {w : Nap}

theorem Move.nap (h : Move n s c s') (hk : s'.cpu c = .run p pc) (hw : pc.nap = some w) :
    Dozing s p w ∨ Nods n s c p w := by
  obtain ⟨pc₀, l, hp, ha, -⟩ | ⟨pc₀, l, hp, hr, -⟩ | ⟨pc₀, hp, he⟩ | ⟨k, free, -, rfl, -⟩ | ⟨r, -, -, rfl, -⟩ := h.run hk
  · simp [ha.nap] at hw
  · obtain ⟨f, ch, lk, rfl, rfl⟩ := hr.nap hw
    exact .inr (.inl ⟨f, ch, lk, rfl, hp⟩)
  · rcases he.nap hw with hw | ⟨rfl, i, hi, rfl⟩
    · exact .inl (.inl ⟨c, pc₀, hp, hw⟩)
    · exact .inr (.inr ⟨rfl, i, hi, hp⟩)
  · cases hw
  · cases hw

theorem Move.left (h : Move n s c s') (hk : s.cpu c = .run p pc) (hno : ∀ pc', s'.cpu c ≠ .run p pc') :
    ∃ r, pc = .load r ∧ s' = s.goto c (.sched (.back p)) := by
  cases h with
  | acq hp _ _ | rel hp _ _ | exec hp _ =>
    rw [hp] at hk
    cases hk
    exact absurd (Function.update_self ..) (hno _)
  | intr free hp =>
    rw [hp] at hk
    cases hk
    exact absurd (Function.update_self ..) (hno _)
  | load hp =>
    rw [hp] at hk
    cases hk
    exact ⟨_, rfl, rfl⟩
  | lock hp | take hp | skip hp | enter hp | back hp | unlock hp => rw [hp] at hk; cases hk

theorem Move.idle (h : Move n s c s') (hc : Ctl s) (hno : ∀ pc, s.cpu c ≠ .run p pc)
    (hs : (s'.d.proc p).state = .sleeping) :
    (s.d.proc p).state = .sleeping ∧ (s'.d.proc p).context = (s.d.proc p).context ∧
      (s'.d.proc p).chan = (s.d.proc p).chan ∨ ∃ pc, s'.cpu c = .run p pc := by
  cases h with
  | @exec p' pc d' pc' hp he =>
    have hj : p ≠ p' := fun h => hno pc (h ▸ hp)
    exact .inl ((he.touch (hc.run hp).2 (.inl hj)).sleeping hs)
  | @take i hp hr =>
    by_cases hpi : p = i
    · subst hpi
      simp [Data.set_same] at hs
    · have heq := Data.set_other s.d (fun q => { q with state := .running }) hpi
      exact .inl ⟨heq ▸ hs, by rw [heq], by rw [heq]⟩
  | @enter i r hp hr =>
    by_cases hpi : p = i
    · subst hpi
      exact .inr ⟨_, Function.update_self ..⟩
    · have heq := Data.set_other s.d (fun q => { q with context := none }) hpi
      exact .inl ⟨heq ▸ hs, by rw [heq], by rw [heq]⟩
  | acq | rel | intr | load | lock | skip | back | unlock => exact .inl ⟨hs, rfl, rfl⟩

/-- A process that sleeps after a step, switched out, was asleep or about to be before. -/
theorem Move.asleep (h : Move n s c s') (hc : Ctl s) (hs : (s'.d.proc p).state = .sleeping)
    (hr : (s'.d.proc p).context = some (.slept w)) (hno : ∀ c pc, s'.cpu c ≠ .run p pc) : Dozing s p w := by
  by_cases hrun : ∃ pc, s.cpu c = .run p pc
  · obtain ⟨pc, hk⟩ := hrun
    obtain ⟨r, rfl, rfl⟩ := h.left hk fun pc' => hno c pc'
    have hon := (hc.run hk).1.2.2
    rw [show (s.d.proc p).context = some (.slept w) from hr] at hon
    cases hon
    exact .inl ⟨c, _, hk, rfl⟩
  · have hidle : ∀ pc, s.cpu c ≠ .run p pc := fun pc hk => hrun ⟨pc, hk⟩
    rcases h.idle hc hidle hs with ⟨h1, h2, -⟩ | ⟨pc, hk⟩
    · refine .inr ⟨h1, h2 ▸ hr, fun c' pc => ?_⟩
      by_cases hcc : c' = c
      · exact hcc ▸ hidle pc
      · rw [← h.cpu_other hcc]
        exact hno c' pc
    · exact absurd hk (hno c pc)

theorem Move.dozing (h : Move n s c s') (hc : Ctl s) (hd : Dozing s' p w) : Dozing s p w ∨ Nods n s c p w := by
  rcases hd with ⟨c', pc, hk, hw⟩ | ⟨hs, hr, hno⟩
  · by_cases hcc : c' = c
    · subst hcc
      exact h.nap hk hw
    · rw [h.cpu_other hcc] at hk
      exact .inl (.inl ⟨c', pc, hk, hw⟩)
  · exact .inl (h.asleep hc hs hr hno)

end Step

/-! ## The walk of `wakeup` -/

/-- In `wakeup(ch)`, called with `lk` held, past slot `j`. -/
def Pc.Woke (ch : Chan) (lk j : Nat) : Pc → Prop
  | .at (.wakeLock ch' i b) | .at (.wakeTest ch' i b) => ch' = ch ∧ .other lk ∈ b.held ∧ j < i
  | .at (.wakeUnlock ch' i b) => ch' = ch ∧ .other lk ∈ b.held ∧ j ≤ i
  | .at (.woken ch' b) => ch' = ch ∧ .other lk ∈ b.held
  | _ => False

theorem Pc.Woke.held (h : pc.Woke ch lk j) (q : Nat) : .other lk ∈ pc.held q := by
  cases pc with
  | «at» k => cases k <;> simp_all [Pc.Woke, Pc.held, Kpc.held]
  | yieldLock | yieldState | save | load | resume => exact h.elim

theorem Acq.woke {n : Nat} (h : Acq n q pc l pc')
    (hw : pc'.Woke ch lk j) : pc.Woke ch lk j := by
  cases h
  case wake => exact hw
  all_goals exact hw.elim

theorem Rel.woke (h : Rel q pc l pc')
    (hw : pc'.Woke ch lk j) : pc.Woke ch lk j := by
  cases h
  case wake => exact ⟨hw.1, hw.2.1, Nat.lt_succ_iff.1 hw.2.2⟩
  case yield free =>
    have hl := hw.held q
    simp [Pc.held, Kpc.held_free free] at hl
  all_goals exact hw.elim

theorem Exec.woke {n : Nat} (h : Exec n q d pc d' pc')
    (hw : pc'.Woke ch lk j) (hj : j < n) :
    pc.Woke ch lk j ∨
      ∃ b, pc = .at (.wakeTest ch j b) ∧ pc' = .at (.wakeUnlock ch j b) ∧ d' = d.set j (Proc.wake (some ch)) := by
  cases h
  case wakeup | testedWake => exact absurd hw.2.2 (Nat.not_lt_zero j)
  case wakeEnd hi => exact .inl ⟨hw.1, hw.2, Nat.lt_of_lt_of_le hj hi⟩
  case wakeTest ch' i b =>
    obtain ⟨rfl, hb, hji⟩ := hw
    rcases Nat.lt_or_eq_of_le hji with hji | rfl
    · exact .inl ⟨rfl, hb, hji⟩
    · exact .inr ⟨b, rfl, rfl, rfl⟩
  case slept w => cases w <;> exact hw.elim
  case woken b => cases b <;> exact hw.elim
  all_goals exact hw.elim

section Wakeup

variable {C : Type} [DecidableEq C] {n : Nat} {s s' : St C} {c : C}

theorem Move.woke (h : Move n s c s') (hk : s'.cpu c = .run q pc)
    (hw : pc.Woke ch lk j) (hj : j < n) :
    (∃ pc₀, s.cpu c = .run q pc₀ ∧ pc₀.Woke ch lk j) ∨
      ∃ b, s.cpu c = .run q (.at (.wakeTest ch j b)) ∧ pc = .at (.wakeUnlock ch j b) ∧
        s'.d = s.d.set j (Proc.wake (some ch)) := by
  obtain ⟨pc₀, l, hp, ha, -⟩ | ⟨pc₀, l, hp, hr, -⟩ | ⟨pc₀, hp, he⟩ | ⟨k, free, -, rfl, -⟩ | ⟨r, -, -, rfl, -⟩ := h.run hk
  · exact .inl ⟨pc₀, hp, ha.woke hw⟩
  · exact .inl ⟨pc₀, hp, hr.woke hw⟩
  · rcases he.woke hw hj with hw | ⟨b, rfl, rfl, hd⟩
    · exact .inl ⟨pc₀, hp, hw⟩
    · exact .inr ⟨b, hp, rfl, hd⟩
  · exact hw.elim
  · exact hw.elim

omit [DecidableEq C] in
/-- A process that is asleep or about to be, and whose lock a CPU holds on
another's behalf, is asleep on its channel. -/
theorem Dozing.asleep {w : Nap} (h : Dozing s j w) (hc : Ctl s) (hl : Lock.proc j ∈ (s.cpu c).held)
    (hk : ∀ pc, s.cpu c = .run j pc → pc.nap = none) (hb : s.cpu c ≠ .sched (.back j)) :
    (s.d.proc j).state = .sleeping ∧ (s.d.proc j).chan = some (w.chan j) := by
  rcases h with ⟨c', pc, hk', hw⟩ | ⟨hs, hr, hno⟩
  · have hcc : c' = c := hc.locks.excl (by rw [hk']; exact Pc.nap_held hw j) hl
    have hnone := hk pc (hcc ▸ hk')
    simp [hw] at hnone
  · have hpark : Parked j (s.d.proc j) := hc.parked fun c' hcar => by
      cases hk' : s.cpu c' with
      | run i pc =>
        rw [hk'] at hcar
        cases hcar
        exact hno c' pc hk'
      | sched k =>
        rw [hk'] at hcar
        cases k <;> simp only [Cpu.carries, Option.some.injEq, reduceCtorEq] at hcar <;> subst hcar
        case enter i =>
          have hf : Fits s.d (.sched (.enter i)) := hk' ▸ hc.fits c'
          simp [Fits, hs] at hf
        case back i =>
          have hcc : c' = c := hc.locks.excl (by simp [hk', Cpu.held, Spc.held]) hl
          exact hb (hcc ▸ hk')
    rw [Parked, hs] at hpark
    obtain ⟨w', hw', hch⟩ := hpark
    rw [hr] at hw'
    cases hw'
    exact ⟨hs, hch⟩

omit [DecidableEq C] in
theorem Dozing.asleep_held {w : Nap} (h : Dozing s j w) (hc : Ctl s) (hp : s.cpu c = .run q pc)
    (hl : Lock.proc j ∈ pc.held q) (hn : pc.nap = none) :
    (s.d.proc j).state = .sleeping ∧ (s.d.proc j).chan = some (w.chan j) := by
  refine h.asleep hc (c := c) (by rw [hp]; exact hl) (fun pc' hp' => ?_) (by simp [hp])
  rw [hp] at hp'
  cases hp'
  exact hn

omit [DecidableEq C] in
theorem roused_by {w : Nap} (hc : Ctl s) (hc' : Ctl s') (hp : s.cpu c = .run q pc)
    (hp' : s'.cpu c = .run q pc') (hl : Lock.proc j ∈ pc.held q) (hl' : Lock.proc j ∈ pc'.held q) (hn : pc.nap = none)
    (hn' : pc'.nap = none) (hd : s'.d = s.d.set j (Proc.wake (some (w.chan j)))) (h : Dozing s j w) :
    ¬ Dozing s' j w := by
  intro h'
  obtain ⟨hs, hchan⟩ := h.asleep_held hc hp hl hn
  obtain ⟨hs', -⟩ := h'.asleep_held hc' hp' hl' hn'
  rw [hd, Data.set_same, Proc.wake, if_pos ⟨hs, .inr hchan⟩] at hs'
  cases hs'

/-- `wakeup` leaves no one asleep behind. -/
def Roused (n : Nat) (s : St C) : Prop :=
  ∀ c q pc a lk j, s.cpu c = .run q pc → pc.Woke (.obj a) lk j → j < n → ∀ f, ¬ Dozing s j (.on f a lk)

theorem Roused.step (h : Roused n s) (hc : Ctl s) (hs : Move n s c s') : Roused n s' := by
  intro c' q pc a lk j hk hw hj f hd
  -- Nobody gives up `lk` while `wakeup` runs with it.
  have hd₀ : Dozing s j (.on f a lk) := by
    rcases hs.dozing hc hd with hd₀ | ⟨f', a', lk', hw', hp'⟩ | ⟨hw', -⟩
    · exact hd₀
    · cases hw'
      by_cases hcc : c' = c
      · subst hcc
        rcases hs.woke hk hw hj with ⟨pc₀, hp, hw₀⟩ | ⟨b, hp, -, -⟩ <;> rw [hp'] at hp <;> cases hp
        exact hw₀.elim
      · rw [hs.cpu_other hcc] at hk
        refine absurd (hc.locks.excl (l := .other lk) ?_ ?_) hcc
        · rw [hk]
          exact hw.held q
        · simp [hp', Cpu.held, Pc.held, Kpc.held]
    · cases hw'
  by_cases hcc : c' = c
  · subst hcc
    rcases hs.woke hk hw hj with ⟨pc₀, hp, hw₀⟩ | ⟨b, hp, rfl, hdata⟩
    · exact h c' q pc₀ a lk j hp hw₀ hj f hd₀
    · exact roused_by hc (hc.step hs) hp hk (by simp [Pc.held, Kpc.held]) (by simp [Pc.held, Kpc.held]) rfl rfl hdata
        hd₀ hd
  · rw [hs.cpu_other hcc] at hk
    exact h c' q pc a lk j hk hw hj f hd₀

theorem Reach.roused (h : Reach n s) : Roused n s :=
  (Run.Reach.inv (fun s => Ctl s ∧ Roused n s)
    (fun _ hi => hi ▸ ⟨ctl_init, fun _ _ _ _ _ _ hk => by cases hk⟩)
    (fun _ _ _ hi hs => ⟨hi.1.step hs.move, hi.2.step hi.1 hs.move⟩) h).2

/-! ## `wakeup1` -/

/-- The slot that the thread has called `wakeup1` on, with its lock held since. -/
def Pc.woke1 : Pc → Option Nat
  | .at (.exitInitUnlock _) => some 0
  | .at (.exitZombie _ op) => some op
  | _ => none

theorem Pc.woke1_held (h : pc.woke1 = some j) (q : Nat) : Lock.proc j ∈ pc.held q := by
  cases pc with
  | «at» k => cases k <;> simp_all [Pc.woke1, Pc.held, Kpc.held]
  | yieldLock | yieldState | save | load | resume => cases h

theorem Pc.woke1_nap (h : pc.woke1 = some j) : pc.nap = none := by
  cases pc with
  | «at» k => cases k <;> first | rfl | cases h
  | yieldLock | yieldState | save | load | resume => cases h

theorem Kpc.free_woke1 {k : Kpc} (free : k.held 0 = []) : (Pc.at k).woke1 = none := by
  cases k <;> simp_all [Pc.woke1, Kpc.held]

theorem Exec.woke1 (h : Exec n q d pc d' pc') (hw : pc'.woke1 = some j) :
    (∃ st, j = 0 ∧ pc = .at (.exitInitWake st) ∨ pc = .at (.exitWake st j)) ∧
      d' = d.set j (Proc.wake (some (.proc j))) := by
  cases h
  case exitInitWake st => cases hw; exact ⟨⟨st, .inl ⟨rfl, rfl⟩⟩, rfl⟩
  case exitWake st op => cases hw; exact ⟨⟨st, .inr rfl⟩, rfl⟩
  case slept w => cases w <;> cases hw
  case woken b => cases b <;> cases hw
  all_goals cases hw

theorem Move.woke1 (h : Move n s c s') (hk : s'.cpu c = .run q pc)
    (hw : pc.woke1 = some j) : ∃ pc₀, s.cpu c = .run q pc₀ ∧
      (∃ st, j = 0 ∧ pc₀ = .at (.exitInitWake st) ∨ pc₀ = .at (.exitWake st j)) ∧
      s'.d = s.d.set j (Proc.wake (some (.proc j))) := by
  obtain ⟨pc₀, l, hp, ha, -⟩ | ⟨pc₀, l, hp, hr, -⟩ | ⟨pc₀, hp, he⟩ | ⟨k, free, -, rfl, -⟩ | ⟨r, -, -, rfl, -⟩ := h.run hk
  · cases ha <;> cases hw
  · cases hr
    case yield free => simp [Kpc.free_woke1 free] at hw
    all_goals cases hw
  · exact ⟨pc₀, hp, he.woke1 hw⟩
  · cases hw
  · cases hw

/-- Once `wakeup1(&proc[j])` has returned, `j` is not asleep in `wait`. -/
def Roused1 (s : St C) : Prop :=
  ∀ c q pc j, s.cpu c = .run q pc → pc.woke1 = some j → ¬ Dozing s j .wait

theorem Roused1.step (h : Roused1 s) (hc : Ctl s) (hs : Move n s c s') : Roused1 s' := by
  intro c' q pc j hk hw hd
  have hd₀ : Dozing s j .wait := by
    rcases hs.dozing hc hd with hd₀ | ⟨f', a', lk', hw', -⟩ | ⟨-, i, -, hp'⟩
    · exact hd₀
    · cases hw'
    · -- A parent in `wait` holds its lock, and so does the caller of `wakeup1`.
      have hl : Lock.proc j ∈ (s.cpu c).held := by simp [hp', Cpu.held, Pc.held, Kpc.held]
      by_cases hcc : c' = c
      · subst hcc
        obtain ⟨pc₀, hp, ⟨st, hpc⟩, -⟩ := hs.woke1 hk hw
        rw [hp'] at hp
        cases hp
        rcases hpc with ⟨-, hpc⟩ | hpc <;> cases hpc
      · rw [hs.cpu_other hcc] at hk
        exact absurd (hc.locks.excl (by rw [hk]; exact Pc.woke1_held hw q) hl) hcc
  by_cases hcc : c' = c
  · subst hcc
    obtain ⟨pc₀, hp, ⟨st, hpc⟩, hdata⟩ := hs.woke1 hk hw
    have hl : Lock.proc j ∈ pc₀.held q := by rcases hpc with ⟨rfl, rfl⟩ | rfl <;> simp [Pc.held, Kpc.held]
    have hn : pc₀.nap = none := by rcases hpc with ⟨rfl, rfl⟩ | rfl <;> rfl
    exact roused_by (w := .wait) hc (hc.step hs) hp hk hl (Pc.woke1_held hw q) hn (Pc.woke1_nap hw) hdata hd₀ hd
  · rw [hs.cpu_other hcc] at hk
    exact h c' q pc j hk hw hd₀

theorem Reach.roused1 (h : Reach n s) : Roused1 s :=
  (Run.Reach.inv (fun s => Ctl s ∧ Roused1 s) (fun _ hi => hi ▸ ⟨ctl_init, fun _ _ _ _ hk => by cases hk⟩)
    (fun _ _ _ hi hs => ⟨hi.1.step hs.move, hi.2.step hi.1 hs.move⟩) h).2

/-- When `wakeup(a)`, called with `lk` held, returns, no process sleeps in a
call of `sleep(a, lk)`, or will sleep in one whose `lk` it has given up. When
`wakeup1` returns, its process does not sleep in `wait`. -/
theorem no_lost_wakeup (h : Reach n s) :
    (∀ c q a b lk, s.cpu c = .run q (.at (.woken (.obj a) b)) → .other lk ∈ b.held →
      ∀ p < n, ∀ f, ¬ Dozing s p (.on f a lk)) ∧
    (∀ c q st op, s.cpu c = .run q (.at (.exitZombie st op)) → ¬ Dozing s op .wait) ∧
    ∀ c q st, s.cpu c = .run q (.at (.exitInitUnlock st)) → ¬ Dozing s 0 .wait := by
  refine ⟨fun c q a b lk hk hb p hp f => ?_, fun c q st op hk => ?_, fun c q st hk => ?_⟩
  · exact h.roused c q _ a lk p hk ⟨rfl, hb⟩ hp f
  · exact h.roused1 c q _ op hk rfl
  · exact h.roused1 c q _ 0 hk rfl

/-- A child went to sleep on the address 5 with the lock 7, and `wakeup(5)` of its parent returns. -/
theorem no_lost_wakeup_two : ∃ s : St Bool, Reach 2 s ∧ s.cpu false = .run 0 (.at (.woken (.obj 5) (.kern [7]))) ∧
    (s.d.proc 1).state = .runnable ∧ ∀ f, ¬ Dozing s 1 (.on f 5 7) := by
  obtain ⟨s, hs, hf⟩ := reach_of_steps (n := 2)
    (f := fun s => s.cpu false = .run 0 (.at (.woken (.obj 5) (.kern [7]))) ∧ (s.d.proc 1).state = .runnable)
    (twoProcs ++ [(true, .acquire 7), (true, .go), (true, .sleep 5 7)] ++ .replicate 8 (true, .go) ++
      [(false, .acquire 7), (false, .go), (false, .wakeup (.obj 5))] ++ .replicate 7 (false, .go)) (by decide)
  obtain ⟨hk, hr⟩ := of_decide_eq_true hf
  exact ⟨s, hs, hk, hr, (no_lost_wakeup hs).1 false 0 5 (.kern [7]) 7 hk (by decide) 1 (by decide)⟩

end Wakeup

end Xv6.Sched
