import Xv6.Sched.Sleep
/-!
# Killed processes that sleep

`wait`, `piperead`, `pipewrite`, `consoleread` and `sys_sleep` test `p->killed`
before they sleep. `wait` holds `p->lock` from the test on, so `kill` comes
before the test or finds it asleep. The others hold a lock that `kill` does not
take: they sleep unheeding if `kill` comes between the test and the
`acquire(&p->lock)` of `sleep`.
-/

namespace Xv6.Sched

/-! ## From the test to the sleep -/

section Intent

-- The loops that are looked at, besides `wait`.
variable (fs : Loop → Prop)

def Nap.Heeds : Nap → Prop
  | .on f _ _ => ∃ g, f = some g ∧ fs g
  | .wait => True

def Caller.Heeds : Caller → Prop
  | .kern _ => False
  | .tested f _ _ => fs f

/-- Past a test that found `p->killed` zero, and bound to sleep. -/
def Pc.Intent : Pc → Prop
  | .at (.tested f _ _) => fs f
  | .at (.wakeLock _ _ b) | .at (.wakeTest _ _ b) | .at (.wakeUnlock _ _ b) | .at (.woken _ b) => b.Heeds fs
  | .at (.sleepLock f ch lk) | .at (.sleepDrop f ch lk) => (Nap.on f ch lk).Heeds fs
  | .at (.sleepChan w) | .at (.sleepState w) | .save (.slept w) | .load (.slept w) => w.Heeds fs
  | _ => False

variable {fs}

theorem Kpc.free_intent {k : Kpc} (free : k.held 0 = []) : ¬ (Pc.at k).Intent fs := by
  intro hi
  cases k <;> simp only [Kpc.held, Pc.Intent, reduceCtorEq] at free hi
  case wakeLock b | woken b => cases b <;> simp_all [Caller.held, Caller.Heeds]

theorem Pc.nap_intent {pc : Pc} {w : Nap} (h : pc.nap = some w) (hw : w.Heeds fs) : pc.Intent fs := by
  cases pc with
  | «at» k => cases k <;> simp_all [Pc.nap, Pc.Intent]
  | save r | load r => cases r <;> simp_all [Pc.nap, Pc.Intent]
  | yieldLock | yieldState | resume => cases h

theorem Acq.intent {n p : Nat} {pc pc' : Pc} {l : Lock} (h : Acq n p pc l pc') (hi : pc'.Intent fs) : pc.Intent fs := by
  cases h
  case sleep | wake => exact hi
  all_goals exact hi.elim

theorem Rel.intent {p : Nat} {pc pc' : Pc} {l : Lock} (h : Rel p pc l pc') (hi : pc'.Intent fs) : pc.Intent fs := by
  cases h
  case sleepDrop | wake => exact hi
  case yield free => exact absurd hi (Kpc.free_intent free)
  all_goals exact hi.elim

/-- A thread makes up its mind to sleep by a test of `p->killed`. -/
theorem Exec.intent {n p : Nat} {d d' : Data} {pc pc' : Pc} (h : Exec n p d pc d' pc') (hi : pc'.Intent fs) :
    pc.Intent fs ∨ (d.proc p).killed = false ∧ d' = d := by
  cases h
  case test hk => exact .inr ⟨hk, rfl⟩
  case waitSleep hk => exact .inr ⟨hk, rfl⟩
  case testedWake | sleepChan | sleepState | wakeEnd | wakeTest => exact .inl hi
  case testedSleep =>
    obtain ⟨g, hg, hf⟩ := hi
    cases hg
    exact .inl hf
  case save r => cases r <;> exact .inl hi
  case slept w => cases w <;> exact hi.elim
  case woken b => cases b <;> exact .inl hi
  case sleep =>
    obtain ⟨g, hg, -⟩ := hi
    cases hg
  all_goals exact hi.elim

end Intent

/-! ## Who sets `killed` -/

theorem Proc.wake_killed (ch : Option Chan) (q : Proc) : (q.wake ch).killed = q.killed := by
  unfold Proc.wake
  split <;> rfl

theorem Data.set_killed {d : Data} {i j : Nat} {f : Proc → Proc} (h : ((d.set i f).proc j).killed = true)
    (hf : ∀ q, (f q).killed = true → q.killed = true) : (d.proc j).killed = true := by
  rw [Data.set_proc] at h
  split at h
  · exact hf _ h
  · exact h

theorem Exec.marks {n p j : Nat} {d d' : Data} {pc pc' : Pc} (h : Exec n p d pc d' pc')
    (hk : (d'.proc j).killed = true) : (d.proc j).killed = true ∨ (d.proc j).pid ∈ d'.marks ∧
      (j = p ∧ pc = .at (.kern []) ∨
        ∃ pid, pc = .at (.killTest pid j) ∧ (d.proc j).pid = pid ∧ pc' = .at (.killUnlock pid j true) ∧
          d'.proc j = { (d.proc j).wake none with killed := true }) := by
  have hwake : ∀ ch q, (Proc.wake ch q).killed = true → q.killed = true := fun ch q h => Proc.wake_killed ch q ▸ h
  cases h
  case fault =>
    by_cases hj : j = p
    · exact .inr ⟨hj ▸ List.mem_cons_self .., .inl ⟨hj, rfl⟩⟩
    · rw [Data.mark_other _ _ hj] at hk
      exact .inl hk
  case killHit pid i hpid =>
    by_cases hj : j = i
    · subst hj
      exact .inr ⟨List.mem_cons_self .., .inr ⟨pid, rfl, hpid, rfl, Data.mark_same ..⟩⟩
    · rw [Data.mark_other _ _ hj] at hk
      exact .inl hk
  case wakeTest | exitInitWake | exitWake => exact .inl (Data.set_killed hk (hwake _))
  case forkUndo | reap => exact .inl (Data.set_killed hk fun q h => by cases h)
  case sleepChan | sleepState | slept | forkTake | forkDone | reparentSet | exitZombie | yieldState | save =>
    have hold := Data.set_killed hk fun q h => h
    exact .inl hold
  all_goals exact .inl hk

section Step

variable {C : Type} [DecidableEq C] {n : Nat} {s s' : St C} {c : C} {p : Nat} {fs : Loop → Prop}

/-- `p` has found `p->killed` zero and goes to sleep for it, or sleeps. -/
def Unaware (fs : Loop → Prop) (s : St C) (p : Nat) : Prop :=
  (∃ c pc, s.cpu c = .run p pc ∧ pc.Intent fs) ∨
    ∃ w, w.Heeds fs ∧ (s.d.proc p).state = .sleeping ∧ (s.d.proc p).context = some (.slept w) ∧
      ∀ c pc, s.cpu c ≠ .run p pc

omit [DecidableEq C] in
theorem Dozing.unaware {w : Nap} (h : Dozing s p w) (hw : w.Heeds fs) : Unaware fs s p := by
  rcases h with ⟨c, pc, hk, hn⟩ | hs
  · exact .inl ⟨c, pc, hk, Pc.nap_intent hn hw⟩
  · exact .inr ⟨w, hw, hs⟩

theorem Move.unaware (h : Move n s c s') (hc : Ctl s) (hu : Unaware fs s' p) :
    Unaware fs s p ∨ (s.d.proc p).killed = false ∧ s'.d = s.d := by
  rcases hu with ⟨c', pc, hk, hi⟩ | ⟨w, hw, hs, hr, hno⟩
  · by_cases hcc : c' = c
    · subst hcc
      obtain ⟨pc₀, l, hp, ha, -⟩ | ⟨pc₀, l, hp, hr, -⟩ | ⟨pc₀, hp, he⟩ | ⟨k, free, -, rfl, -⟩ | ⟨r, -, -, rfl, -⟩ := h.run hk
      · exact .inl (.inl ⟨c', pc₀, hp, ha.intent hi⟩)
      · exact .inl (.inl ⟨c', pc₀, hp, hr.intent hi⟩)
      · rcases he.intent hi with hi | hnew
        · exact .inl (.inl ⟨c', pc₀, hp, hi⟩)
        · exact .inr hnew
      · exact hi.elim
      · exact hi.elim
    · rw [h.cpu_other hcc] at hk
      exact .inl (.inl ⟨c', pc, hk, hi⟩)
  · exact .inl ((h.asleep hc hs hr hno).unaware hw)

/-- `kill` does not mark a process that has passed its test and has not yet
taken `p->lock` in `sleep`. -/
def Spares (fs : Loop → Prop) (s : St C) (e : C × Act) : Prop :=
  ∀ q pid i, s.cpu e.1 = .run q (.at (.killTest pid i)) → (s.d.proc i).pid = pid →
    ∀ c pc, s.cpu c = .run i pc → ¬ pc.Intent fs

/-- `killed` is set by a fatal trap of the process, or by `kill`, which then wakes it up. -/
theorem Move.killed (h : Move n s c s') (hk : (s'.d.proc p).killed = true) :
    (s.d.proc p).killed = true ∨ (s.d.proc p).pid ∈ s'.d.marks ∧
      (s.cpu c = .run p (.at (.kern [])) ∨
        ∃ q pid, s.cpu c = .run q (.at (.killTest pid p)) ∧ (s.d.proc p).pid = pid ∧
          s'.cpu c = .run q (.at (.killUnlock pid p true)) ∧
          s'.d.proc p = { (s.d.proc p).wake none with killed := true }) := by
  cases h with
  | exec hp he =>
    rcases he.marks hk with hk | ⟨hm, ⟨rfl, rfl⟩ | ⟨pid, rfl, hpid, rfl, hd⟩⟩
    · exact .inl hk
    · exact .inr ⟨hm, .inl hp⟩
    · exact .inr ⟨hm, .inr ⟨_, pid, hp, hpid, Function.update_self .., hd⟩⟩
  | take | enter =>
    dsimp only at hk
    have hold := Data.set_killed hk fun q h => h
    exact .inl hold
  | _ => exact .inl hk

theorem heeded_step (h : ∀ p, Unaware fs s p → (s.d.proc p).killed = false) (hc : Ctl s) (hs : Move n s c s') (a : Act)
    (hok : Spares fs s (c, a)) (p : Nat) (hu : Unaware fs s' p) : (s'.d.proc p).killed = false := by
  rcases hs.unaware hc hu with hu₀ | ⟨hk, hd⟩
  · by_contra hk
    rw [Bool.not_eq_false] at hk
    rcases hs.killed hk with hk₀ | ⟨-, hp | ⟨q, pid, hp, hpid, hp', hd⟩⟩
    · simp [h p hu₀] at hk₀
    · -- A process at a trap is not on its way to sleep.
      rcases hu₀ with ⟨c', pc, hk', hi⟩ | ⟨w, -, -, -, hno⟩
      · have hcc : c' = c := hc.uniq (p := p) (by rw [hk']; rfl) (by rw [hp]; rfl)
        rw [hcc, hp] at hk'
        cases hk'
        exact hi
      · exact hno c _ hp
    · -- `kill` found it asleep and has woken it up.
      rcases hu₀ with ⟨c', pc, hk', hi⟩ | ⟨w, -, hsleep, -, hno⟩
      · exact hok q pid p hp hpid c' pc hk' hi
      · have hrun : (s'.d.proc p).state = .runnable := by
          rw [hd]
          simp [Proc.wake, hsleep]
        rcases hu with ⟨c', pc, hk', hi⟩ | ⟨w', -, hs', -⟩
        · by_cases hcc : c' = c
          · subst hcc
            rw [hp'] at hk'
            cases hk'
            exact hi
          · rw [hs.cpu_other hcc] at hk'
            exact hno c' pc hk'
        · simp [hrun] at hs'
  · rw [hd, hk]

omit [DecidableEq C] in
/-- With no loop but `wait` looked at, `kill` spares everyone: `wait` holds `p->lock`. -/
theorem spares_wait (hc : Ctl s) (e : C × Act) : Spares (fun _ => False) s e := by
  intro q pid i hp hpid c pc hk hi
  have hl : Lock.proc i ∈ pc.held i := by
    cases pc with
    | «at» k =>
      cases k <;> simp_all [Pc.Intent, Pc.held, Kpc.held, Nap.Heeds]
      case wakeLock b | wakeTest b | wakeUnlock b | woken b => cases b <;> simp_all [Caller.Heeds]
    | save | load => simp [Pc.held]
    | yieldLock | yieldState | resume => exact hi.elim
  have hcc : c = e.1 := hc.locks.excl (l := .proc i) (by rw [hk]; exact hl) (by simp [hp, Cpu.held, Pc.held, Kpc.held])
  rw [hcc, hp] at hk
  cases hk
  exact hi

omit [DecidableEq C] in
theorem heeded_init (p : Nat) : Unaware fs (init C) p → ((init C).d.proc p).killed = false := by
  intro _
  by_cases hp : p = 0 <;> simp [init, hp, Proc.empty]

/-- No process sleeps killed in `wait`; nor in one of the four loops, in the
runs in which `kill` spares the processes between their test and `sleep`. -/
theorem killed_process_wakes :
    (∀ s : St C, Reach n s → ∀ p, Dozing s p .wait → (s.d.proc p).killed = false) ∧
    ∀ s : St C, ReachIf n (Spares fun _ => True) s →
      ∀ p f ch lk, Dozing s p (.on (some f) ch lk) → (s.d.proc p).killed = false := by
  constructor
  · intro s h p hd
    have hinv := Run.Reach.inv (fun s => Ctl s ∧ ∀ p, Unaware (fun _ => False) s p → (s.d.proc p).killed = false)
      (fun _ hi => hi ▸ ⟨ctl_init, heeded_init⟩)
      (fun s e s' hi hs => ⟨hi.1.step hs.move, heeded_step hi.2 hi.1 hs.move e.2 (spares_wait hi.1 e)⟩) h
    exact hinv.2 p (hd.unaware trivial)
  · intro s h p f ch lk hd
    have hinv := Run.Reach.inv (fun s => Ctl s ∧ ∀ p, Unaware (fun _ => True) s p → (s.d.proc p).killed = false)
      (fun _ hi => hi ▸ ⟨ctl_init, heeded_init⟩)
      (fun s e s' hi hs => ⟨hi.1.step hs.2.move, heeded_step hi.2 hi.1 hs.2.move e.2 hs.1⟩) h
    exact hinv.2 p (hd.unaware ⟨f, rfl, trivial⟩)

/-- The CPU is in `kill` and about to test a slot. -/
def Cpu.kills : Cpu → Option (Int × Nat)
  | .run _ (.at (.killTest pid i)) => some (pid, i)
  | _ => none

/-- A child that sleeps in `piperead` and that nobody has killed. -/
theorem killed_process_wakes_piperead : ∃ s : St Bool, ReachIf 2 (Spares fun _ => True) s ∧
    Dozing s 1 (.on (some .piperead) 5 7) ∧ (s.d.proc 1).killed = false := by
  obtain ⟨s, hs, hf⟩ := reachIf_of_steps (n := 2) (Spares fun _ => True)
    (f := fun s => s.cpu true = .run 1 (.load (.slept (.on (some .piperead) 5 7))))
    (fun s e => (s.cpu e.1).kills.isNone) (fun s e hg q pid i hp => by simp [hp, Cpu.kills] at hg)
    (twoProcs ++ [(true, .acquire 7), (true, .go), (true, .test .piperead 5 7)] ++ .replicate 6 (true, .go)) (by decide)
  have hd : Dozing s 1 (.on (some .piperead) 5 7) := .inl ⟨true, _, of_decide_eq_true hf, rfl⟩
  exact ⟨s, hs, hd, killed_process_wakes.2 s hs 1 .piperead 5 7 hd⟩

/-- The child of `initproc` sleeps killed in the loop `f`, `kill` having returned 0. -/
def SleepsKilled (f : Loop) : Prop :=
  ∃ s : St Bool, Reach 2 s ∧ s.cpu false = .run 0 (.at (.killed 2 true)) ∧ (s.d.proc 1).pid = 2 ∧
    (s.d.proc 1).state = .sleeping ∧ (s.d.proc 1).context = some (.slept (.on (some f) 5 7)) ∧ (s.d.proc 1).killed = true

theorem sleepsKilled (f : Loop) : SleepsKilled f := by
  obtain ⟨s, hs, hf⟩ := reach_of_steps (n := 2)
    (f := fun s => s.cpu false = .run 0 (.at (.killed 2 true)) ∧ (s.d.proc 1).pid = 2 ∧
      (s.d.proc 1).state = .sleeping ∧ (s.d.proc 1).context = some (.slept (.on (some f) 5 7)) ∧
      (s.d.proc 1).killed = true)
    (twoProcs ++ [(true, .acquire 7), (true, .go), (true, .test f 5 7), (false, .kill 2)] ++ .replicate 6 (false, .go) ++
      .replicate 9 (true, .go)) (by cases f <;> decide)
  exact ⟨s, hs, of_decide_eq_true hf⟩

/-- It does so in each of the four loops. -/
theorem killed_process_sleeps :
    SleepsKilled .piperead ∧ SleepsKilled .pipewrite ∧ SleepsKilled .consoleread ∧ SleepsKilled .sysSleep :=
  ⟨sleepsKilled .piperead, sleepsKilled .pipewrite, sleepsKilled .consoleread, sleepsKilled .sysSleep⟩

end Step

end Xv6.Sched
