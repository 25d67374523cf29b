import Xv6.Sched.Kill
import Xv6.Sched.Ledger
/-!
# No process is born killed

`allocproc` relies on `freeproc` for `killed = 0` in the slots it hands out.
`kill` looks at all slots, also at those that are not in use: one that was
freed has pid 0, and one that `allocproc` gave up for want of a trapframe has a
pid of its own. Where it finds its pid in such a slot, it marks a process that
is not yet born.
-/

namespace Xv6.Sched

open Census (Phase Sound)

section Step

variable {C : Type} [DecidableEq C] {n : Nat} {s s' : St C} {c : C} {p i : Nat}

theorem Move.freed (h : Move n s c s') (hc : Ctl s) (hu : (s'.d.proc i).state = .unused) :
    (s.d.proc i).state = .unused ∨
      (s.d.proc i).state = .zombie ∧ Lock.proc i ∈ (s.cpu c).held ∧ (s'.d.proc i).killed = false := by
  have hkind : (s.d.proc i).state.kind = .free → (s.d.proc i).state = .unused := by
    cases (s.d.proc i).state <;> simp [State.kind]
  have hrow : (s'.d.proc i).row = (s.d.proc i).row → (s.d.proc i).state = .unused := by
    intro hr
    have hn := congrArg (fun r => r.node.kind) hr
    simp only [Proc.row, hu] at hn
    exact hkind hn.symm
  rcases h.books hc with ⟨hd, -⟩ | ⟨p, pc, pc', hp, -, hb⟩
  · exact .inl (hrow (hd.row i))
  have hfits := hc.run hp
  generalize hd : s'.d = d' at hb hu hrow
  cases hb with
  | same hsame => exact .inl (hrow (hsame.row i))
  | fail | exit => exact .inl hu
  | @take j | @settle j | @adopt _ _ j =>
    rw [Data.set_proc] at hu
    split at hu
    · first | exact .inl hu | cases hu
    · exact .inl hu
  | die =>
    rw [Data.set_proc] at hu
    split at hu
    · cases hu
    · exact .inl hu
  | @undo j =>
    by_cases hij : i = j
    · exact .inl (hij ▸ hfits.2)
    · rw [Data.set_other _ _ hij] at hu
      exact .inl hu
  | @reap j hz =>
    by_cases hij : i = j
    · subst hij
      exact .inr ⟨hz, by simp [hp, Cpu.held, Pc.held, Kpc.held], by rw [Data.set_same]; rfl⟩
    · rw [Data.set_other _ _ hij] at hu
      exact .inl hu

/-- A pid is handed out by `allocproc` and taken back where the slot is freed. -/
theorem Move.pid (h : Move n s c s') (hc : Ctl s) :
    (s'.d.proc i).pid = (s.d.proc i).pid ∨
      (∃ p, s.cpu c = .run p (.at (.forkTest i))) ∧ (s.d.proc i).state = .unused ∧ (s'.d.proc i).pid = s.d.nextpid ∨
      (s'.d.proc i).state = .unused ∧ ¬ Taken s' i ∧ Lock.proc i ∈ (s.cpu c).held := by
  rcases h.books hc with ⟨hd, -⟩ | ⟨p, pc, pc', hp, hp', hb⟩
  · exact .inl (congrArg Row.pid (hd.row i))
  generalize hd : s'.d = d' at hb
  have hfree : ∀ {j}, Lock.proc j ∈ pc.held p → pc'.takes = none → ¬ Taken s' j ∧ Lock.proc j ∈ (s.cpu c).held := by
    intro j hl ht
    have hl' : Lock.proc j ∈ (s.cpu c).held := by rw [hp]; exact hl
    exact ⟨by simp [h.taken_held hc hl', hp', Cpu.takes, ht], hl'⟩
  cases hb with
  | same hsame => exact .inl (congrArg Row.pid (hsame.row i))
  | @take j hu =>
    by_cases hij : i = j
    · subst hij
      exact .inr (.inl ⟨⟨p, hp⟩, hu, by rw [Data.set_same]⟩)
    · exact .inl (by rw [Data.set_other _ _ hij])
  | @undo j =>
    by_cases hij : i = j
    · subst hij
      exact .inr (.inr ⟨by rw [Data.set_same]; rfl, hfree (by simp [Pc.held, Kpc.held]) rfl⟩)
    · exact .inl (by rw [Data.set_other _ _ hij])
  | @reap j hz =>
    by_cases hij : i = j
    · subst hij
      exact .inr (.inr ⟨by rw [Data.set_same]; rfl, hfree (by simp [Pc.held, Kpc.held]) rfl⟩)
    · exact .inl (by rw [Data.set_other _ _ hij])
  | fail | exit => exact .inl rfl
  | settle | adopt | die =>
    left
    rw [Data.set_proc]
    split <;> rfl

theorem Move.takes (h : Move n s c s') {pc' : Pc} (hk : s'.cpu c = .run p pc') (ht : pc'.takes = some i) :
    s.cpu c = .run p (.at (.forkTest i)) ∧ (s.d.proc i).state = .unused ∧ (s'.d.proc i).pid = s.d.nextpid ∧
      s'.d.marks = s.d.marks := by
  obtain ⟨pc, l, hp, ha, -⟩ | ⟨pc, l, hp, hr, -⟩ | ⟨pc, hp, he⟩ | ⟨k, free, -, rfl, -⟩ | ⟨r, -, -, rfl, -⟩ := h.run hk
  · cases ha <;> cases ht
  · cases hr
    case yield free => simp [Kpc.free_takes free] at ht
    all_goals cases ht
  · generalize s'.d = d' at he ⊢
    cases he
    case forkTake j hu =>
      cases ht
      exact ⟨hp, hu, by rw [Data.set_same], rfl⟩
    case slept w => cases w <;> cases ht
    case woken b => cases b <;> cases ht
    all_goals cases ht
  · cases ht
  · cases ht

theorem Move.took (h : Move n s c s') (ht : Taken s' i) :
    Taken s i ∨ (s'.d.proc i).pid = s.d.nextpid ∧ s'.d.marks = s.d.marks ∧ (s.d.proc i).state = .unused ∧
      ∃ p, s.cpu c = .run p (.at (.forkTest i)) := by
  obtain ⟨c', ht⟩ := ht
  by_cases hcc : c' = c
  · subst hcc
    cases hk : s'.cpu c' with
    | sched k => simp [hk, Cpu.takes] at ht
    | run p pc' =>
      rw [hk] at ht
      obtain ⟨hp, hu, hpid, hm⟩ := h.takes hk ht
      exact .inr ⟨hpid, hm, hu, p, hp⟩
  · rw [h.cpu_other hcc] at ht
    exact .inl ⟨c', ht⟩

theorem Move.nextpid_le (h : Move n s c s') (hc : Ctl s) : s.d.nextpid ≤ s'.d.nextpid := by
  rcases h.books hc with ⟨hd, -⟩ | ⟨p, pc, pc', -, -, hb⟩
  · exact Int.le_of_eq hd.nextpid.symm
  generalize s'.d = d' at hb ⊢
  cases hb with
  | same hsame => exact Int.le_of_eq hsame.nextpid.symm
  | take => exact Int.le_of_lt (Int.lt_succ _)
  | settle | fail | undo | exit | adopt | die | reap => exact Int.le_refl _

theorem Exec.marks_cons {d d' : Data} {pc pc' : Pc} (h : Exec n p d pc d' pc') :
    d'.marks = d.marks ∨ ∃ j, d'.marks = (d.proc j).pid :: d.marks ∧
      (j = p ∧ pc = .at (.kern []) ∨ pc = .at (.killTest (d.proc j).pid j)) := by
  cases h
  case fault => exact .inr ⟨p, rfl, .inl ⟨rfl, rfl⟩⟩
  case killHit pid i hpid => exact .inr ⟨i, rfl, .inr (by rw [hpid])⟩
  all_goals exact .inl rfl

/-- The marks are made by a fatal trap of the process and by `kill` with its pid. -/
theorem Move.marks (h : Move n s c s') : s'.d.marks = s.d.marks ∨ ∃ j, s'.d.marks = (s.d.proc j).pid :: s.d.marks ∧
    (s.cpu c = .run j (.at (.kern [])) ∨ ∃ q, s.cpu c = .run q (.at (.killTest (s.d.proc j).pid j))) := by
  cases h with
  | exec hp he =>
    rcases he.marks_cons with hm | ⟨j, hm, ⟨rfl, rfl⟩ | rfl⟩
    · exact .inl hm
    · exact .inr ⟨j, hm, .inl hp⟩
    · exact .inr ⟨j, hm, .inr ⟨_, hp⟩⟩
  | _ => exact .inl rfl

omit [DecidableEq C] in
theorem phase_id (hu : (s.d.proc i).state ≠ .unused) : (phase s i).id = some (s.d.proc i).pid := by
  rw [phase]
  cases hs : (s.d.proc i).state <;> simp [State.kind, hs] at hu ⊢
  case zombie => rfl
  all_goals split <;> rfl

omit [DecidableEq C] in
theorem Ctl.taken_unused (hc : Ctl s) (ht : Taken s i) : (s.d.proc i).state = .unused := by
  obtain ⟨c, ht⟩ := ht
  cases hk : s.cpu c with
  | sched k => simp [hk, Cpu.takes] at ht
  | run p pc =>
    rw [hk] at ht
    have htook := (hc.run hk).2
    cases pc with
    | «at» k =>
      cases k <;> simp [Cpu.takes, Pc.takes] at ht
      exact ht ▸ htook
    | yieldLock | yieldState | save | load | resume => cases ht

/-- `kill` does not find its pid in a slot that is not in use. -/
def KillsUsed (s : St C) (e : C × Act) : Prop :=
  ∀ q pid i, s.cpu e.1 = .run q (.at (.killTest pid i)) → (s.d.proc i).pid = pid → (s.d.proc i).state ≠ .unused

structure Clean (s : St C) : Prop where
  unused : ∀ i, (s.d.proc i).state = .unused → (s.d.proc i).killed = false
  marked : ∀ i, (s.d.proc i).state ≠ .unused → (s.d.proc i).killed = true → (s.d.proc i).pid ∈ s.d.marks
  fresh : ∀ i, Taken s i → (s.d.proc i).pid ∉ s.d.marks
  lt : ∀ m ∈ s.d.marks, m < s.d.nextpid

namespace Clean

theorem marks_used (hc : Ctl s) (hs : Move n s c s') {a : Act} (hok : KillsUsed s (c, a)) :
    s'.d.marks = s.d.marks ∨ ∃ j, s'.d.marks = (s.d.proc j).pid :: s.d.marks ∧ (s.d.proc j).state ≠ .unused := by
  rcases hs.marks with hm | ⟨j, hm, hp | ⟨q, hp⟩⟩
  · exact .inl hm
  · exact .inr ⟨j, hm, (hc.run hp).1.used⟩
  · exact .inr ⟨j, hm, hok q _ j hp rfl⟩

theorem step (h : Clean s) (hc : Ctl s) (hb : Sound 0 (census s)) (hs : Move n s c s') {a : Act}
    (hok : KillsUsed s (c, a)) : Clean s' where
  unused i hu := by
    rcases hs.freed hc hu with hu₀ | hk
    · by_contra hk
      rw [Bool.not_eq_false] at hk
      rcases hs.killed hk with hk₀ | ⟨-, hp | ⟨q, pid, hp, hpid, -⟩⟩
      · simp [h.unused i hu₀] at hk₀
      · exact (hc.run hp).1.used hu₀
      · exact hok q pid i hp hpid hu₀
    · exact hk.2.2
  marked i hu hk := by
    have hmem : (s.d.proc i).pid ∈ s'.d.marks := by
      rcases hs.killed hk with hk₀ | ⟨hm, -⟩
      · have hu₀ : (s.d.proc i).state ≠ .unused := fun hu₀ => by simp [h.unused i hu₀] at hk₀
        rcases hs.marks with hm | ⟨j, hm, -⟩
        · rw [hm]
          exact h.marked i hu₀ hk₀
        · rw [hm]
          exact List.mem_cons_of_mem _ (h.marked i hu₀ hk₀)
      · exact hm
    have hpid : (s'.d.proc i).pid = (s.d.proc i).pid := by
      rcases hs.pid hc (i := i) with hpid | ⟨⟨p, hp⟩, hu₀, -⟩ | ⟨hu', -⟩
      · exact hpid
      · -- A slot that `allocproc` is about to take is not killed.
        rcases hs.killed hk with hk₀ | ⟨-, hp' | ⟨q, pid, hp', -⟩⟩
        · simp [h.unused i hu₀] at hk₀
        · cases hp.symm.trans hp'
        · cases hp.symm.trans hp'
      · exact absurd hu' hu
    rw [hpid]
    exact hmem
  fresh i ht := by
    rcases hs.took ht with ht₀ | ⟨hpid, hm, -⟩
    · have hu := hc.taken_unused ht₀
      have hpid : (s'.d.proc i).pid = (s.d.proc i).pid := by
        rcases hs.pid hc (i := i) with hpid | ⟨⟨p, hp⟩, -⟩ | ⟨-, hno, -⟩
        · exact hpid
        · have htk := (hc.taken_held (c := c) (i := i) (by simp [hp, Cpu.held, Pc.held, Kpc.held])).1 ht₀
          simp [hp, Cpu.takes, Pc.takes] at htk
        · exact absurd ht hno
      rw [hpid]
      rcases marks_used hc hs hok with hm | ⟨j, hm, hj⟩
      · rw [hm]
        exact h.fresh i ht₀
      · rw [hm, List.mem_cons, not_or]
        refine ⟨fun heq => ?_, h.fresh i ht₀⟩
        -- Slot `i` has its pid for itself.
        have hid : (phase s i).id = some (s.d.proc i).pid := by
          rw [phase_taken (by rw [hu]; rfl) ht₀]
          rfl
        have hij : i = j := hb.uniq i j _ hid (heq ▸ phase_id hj)
        exact hj (hij ▸ hu)
    · rw [hpid, hm]
      exact fun hmem => Int.lt_irrefl _ (h.lt _ hmem)
  lt m hmem := by
    have hle := hs.nextpid_le hc
    rcases marks_used hc hs hok with hm | ⟨j, hm, hj⟩
    · exact Int.lt_of_lt_of_le (h.lt m (hm ▸ hmem)) hle
    · rw [hm] at hmem
      rcases List.mem_cons.1 hmem with rfl | hmem
      · exact Int.lt_of_lt_of_le (hb.lt j _ (phase_id hj)) hle
      · exact Int.lt_of_lt_of_le (h.lt m hmem) hle

end Clean

omit [DecidableEq C] in
theorem clean_init : Clean (init C) where
  unused i hu := by
    by_cases hi : i = 0 <;> simp_all [init, Proc.empty]
  marked i hu hk := by
    by_cases hi : i = 0 <;> simp [init, Proc.empty, hi] at hk
  fresh i ht := by
    obtain ⟨c, ht⟩ := ht
    cases ht
  lt m hm := by cases hm

theorem ReachIf.clean (h : ReachIf n KillsUsed s) : Clean s := by
  refine (Run.Reach.inv (fun s => Reach n s ∧ Clean s) (fun _ hi => ⟨.init hi, hi ▸ clean_init⟩) ?_ h).2
  rintro s₀ e s₁ ⟨hr, hcl⟩ ⟨hok, hst⟩
  exact ⟨.step hr hst, hcl.step hr.ctl hr.sound hst.move hok⟩

/-! ## What `kill` returns -/

/-- The thread is in `kill`. -/
def Kpc.kills : Kpc → Prop
  | .killLock _ _ | .killTest _ _ | .killUnlock _ _ _ | .killed _ _ => True
  | _ => False

theorem Exec.kills {d d' : Data} {k : Kpc} {pc' : Pc} (h : Exec n p d (.at k) d' pc') (hk : k.kills) :
    d' = d ∨ ∃ pid i, k = .killTest pid i ∧ (d.proc i).pid = pid ∧ pc' = .at (.killUnlock pid i true) := by
  cases h
  case killHit pid i hpid => exact .inr ⟨pid, i, rfl, hpid, rfl⟩
  case killEnd | killMiss | killed => exact .inl rfl
  all_goals exact hk.elim

theorem Exec.hit {d d' : Data} {pc pc' : Pc} {pid : Int} (h : Exec n p d pc d' pc')
    (hpc : pc' = .at (.killUnlock pid i true)) :
    pc = .at (.killTest pid i) ∧ (d.proc i).pid = pid ∧ d'.proc i = { (d.proc i).wake none with killed := true } := by
  cases h
  case killHit hpid => cases hpc; exact ⟨rfl, hpid, Data.mark_same ..⟩
  case slept w => cases w <;> cases hpc
  case woken b => cases b <;> cases hpc
  all_goals cases hpc

theorem Move.kills (h : Move n s c s') {q : Nat} {k : Kpc} (hp : s.cpu c = .run q (.at k)) (hk : k.kills) :
    s'.d = s.d ∨ ∃ pid i, k = .killTest pid i ∧ (s.d.proc i).pid = pid ∧ s'.cpu c = .run q (.at (.killUnlock pid i true)) := by
  cases h with
  | exec hp' he =>
    cases hp.symm.trans hp'
    rcases he.kills hk with rfl | ⟨pid, i, rfl, hpid, rfl⟩
    · exact .inl rfl
    · exact .inr ⟨pid, i, rfl, hpid, Function.update_self ..⟩
  | take hp' | enter hp' => cases hp.symm.trans hp'
  | acq | rel | intr | load | lock | skip | back | unlock => exact .inl rfl

theorem Move.kill_ends (h : Move n s c s') {q : Nat} {pid : Int} (hp : s.cpu c = .run q (.at (.killUnlock pid i true))) :
    s'.cpu c = .run q (.at (.killed pid true)) := by
  cases h with
  | acq hp' ha =>
    cases hp.symm.trans hp'
    cases ha
  | rel hp' hr =>
    cases hp.symm.trans hp'
    cases hr
    exact Function.update_self ..
  | exec hp' he =>
    cases hp.symm.trans hp'
    cases he
  | intr free hp' =>
    cases hp.symm.trans hp'
    simp [Kpc.held] at free
  | load hp' | lock hp' | take hp' | skip hp' | enter hp' | back hp' | unlock hp' => cases hp.symm.trans hp'

/-- `kill` is about to return 0 for slot `i`: it is in use and has the pid. -/
def Hits (s : St C) : Prop :=
  ∀ c q pid i, s.cpu c = .run q (.at (.killUnlock pid i true)) → (s.d.proc i).state ≠ .unused ∧ (s.d.proc i).pid = pid

theorem Hits.step (h : Hits s) (hc : Ctl s) (hs : Move n s c s') {a : Act} (hok : KillsUsed s (c, a)) : Hits s' := by
  intro c' q pid i hk
  by_cases hcc : c' = c
  · subst hcc
    obtain ⟨pc, l, hp, ha, -⟩ | ⟨pc, l, hp, hr, -⟩ | ⟨pc, hp, he⟩ | ⟨k, free, -, hpc, -⟩ | ⟨r, -, -, hpc, -⟩ := hs.run hk
    · cases ha
    · cases hr
      next free => simp [Kpc.held] at free
    · obtain ⟨rfl, hpid, hd⟩ := he.hit rfl
      have hw : ((s.d.proc i).wake none).row = (s.d.proc i).row := Proc.wake_row none _
      rw [hd]
      refine ⟨fun hu => hok q pid i hp hpid ?_, (congrArg Row.pid hw).trans hpid⟩
      have hu' : ((s.d.proc i).wake none).state = .unused := hu
      unfold Proc.wake at hu'
      split at hu'
      · cases hu'
      · exact hu'
    · cases hpc
    · cases hpc
  · rw [hs.cpu_other hcc] at hk
    obtain ⟨hu, hpid⟩ := h c' q pid i hk
    -- The lock keeps other CPUs from freeing the slot or giving it another pid.
    have hl : Lock.proc i ∉ (s.cpu c).held := fun hl =>
      hcc (hc.locks.excl (l := .proc i) (by simp [hk, Cpu.held, Pc.held, Kpc.held]) hl)
    refine ⟨fun hu' => ?_, ?_⟩
    · rcases hs.freed hc hu' with hu₀ | ⟨-, hl', -⟩
      · exact hu hu₀
      · exact hl hl'
    · rcases hs.pid hc (i := i) with hsame | ⟨⟨p, hp⟩, -⟩ | ⟨-, -, hl'⟩
      · exact hsame.trans hpid
      · exact absurd (by simp [hp, Cpu.held, Pc.held, Kpc.held]) hl
      · exact absurd hl' hl

theorem ReachIf.hits (h : ReachIf n KillsUsed s) : Hits s := by
  refine (Run.Reach.inv (fun s => Ctl s ∧ Hits s) (fun _ hi => hi ▸ ⟨ctl_init, fun _ _ _ _ hk => by cases hk⟩) ?_ h).2
  rintro s₀ e s₁ ⟨hc, hh⟩ ⟨hok, hst⟩
  exact ⟨hc.step hst.move, hh.step hc hst.move hok⟩

/-- In the runs in which `kill` finds its pid only in slots in use: a slot that
`allocproc` hands out is not killed and its pid was never marked; a process that
is killed was marked under its pid, by `kill` or its own trap; and `kill`
returns 0 for a process in use that has the pid, or changes nothing. -/
theorem newborn_not_killed (h : ReachIf n KillsUsed s) :
    (∀ c p i, s.cpu c = .run p (.at (.forkAlloc i)) → (s.d.proc i).killed = false ∧ (s.d.proc i).pid ∉ s.d.marks) ∧
    (∀ p, (s.d.proc p).state ≠ .unused → (s.d.proc p).killed = true → (s.d.proc p).pid ∈ s.d.marks) ∧
    (∀ e s', Step n s e s' → s'.d.marks = s.d.marks ∨ ∃ j, s'.d.marks = (s.d.proc j).pid :: s.d.marks ∧
      (s.cpu e.1 = .run j (.at (.kern [])) ∨ ∃ q, s.cpu e.1 = .run q (.at (.killTest (s.d.proc j).pid j)))) ∧
    (∀ c q pid i, s.cpu c = .run q (.at (.killUnlock pid i true)) →
      (s.d.proc i).state ≠ .unused ∧ (s.d.proc i).pid = pid) ∧
    (∀ e s', Step n s e s' → ∀ q k, s.cpu e.1 = .run q (.at k) → k.kills →
      s'.d = s.d ∨ ∃ pid i, k = .killTest pid i ∧ (s.d.proc i).pid = pid ∧
        s'.cpu e.1 = .run q (.at (.killUnlock pid i true))) ∧
    ∀ e s', Step n s e s' → ∀ q pid i, s.cpu e.1 = .run q (.at (.killUnlock pid i true)) →
      s'.cpu e.1 = .run q (.at (.killed pid true)) := by
  have hcl := h.clean
  have hr : Reach n s := h.of_when
  refine ⟨fun c p i hk => ?_, hcl.marked, fun e s' hst => hst.move.marks, h.hits,
    fun e s' hst q k hk hkill => hst.move.kills hk hkill, fun e s' hst q pid i hk => hst.move.kill_ends hk⟩
  have ht : Taken s i := ⟨c, by rw [hk]; rfl⟩
  exact ⟨hcl.unused i (hr.ctl.taken_unused ht), hcl.fresh i ht⟩

end Step

/-- `initproc` has killed its child and forks another one. -/
theorem newborn_not_killed_second : ∃ s : St Bool, ReachIf 3 KillsUsed s ∧ s.cpu false = .run 0 (.at (.forkAlloc 2)) ∧
    (s.d.proc 1).killed = true ∧ (s.d.proc 1).pid ∈ s.d.marks ∧ (s.d.proc 2).killed = false := by
  obtain ⟨s, hs, hf⟩ := reachIf_of_steps (n := 3) KillsUsed
    (f := fun s => s.cpu false = .run 0 (.at (.forkAlloc 2)) ∧ (s.d.proc 1).killed = true ∧ (s.d.proc 1).state ≠ .unused)
    (fun s e => (s.cpu e.1).kills.all fun x => decide ((s.d.proc x.2).pid = x.1 → (s.d.proc x.2).state ≠ .unused))
    (fun s e hg q pid i hp => by simpa [hp, Cpu.kills, imp_iff_not_or] using hg)
    (twoProcs ++ (false, .kill 2) :: .replicate 7 (false, .go) ++ (false, .fork) :: .replicate 8 (false, .go)) (by decide)
  obtain ⟨hk, hkill, hu⟩ := of_decide_eq_true hf
  have hn := newborn_not_killed hs
  exact ⟨s, hs, hk, hkill, hn.2.1 1 hu hkill, (hn.1 false 0 2 hk).1⟩

/-- `kill(0)` returns 0 though no process has pid 0, and the next child is born killed. -/
theorem newborn_killed :
    (∃ s : St Bool, Reach 2 s ∧ s.cpu false = .run 0 (.at (.killed 0 true)) ∧
      (s.d.proc 0).pid = 1 ∧ (s.d.proc 1).state = .unused) ∧
    ∃ s : St Bool, Reach 2 s ∧ (s.d.proc 1).state = .runnable ∧ (s.d.proc 1).pid = 2 ∧
      (s.d.proc 1).killed = true ∧ 2 ∉ s.d.marks := by
  constructor
  · obtain ⟨s, hs, hf⟩ := reach_of_steps (n := 2)
      (f := fun s => s.cpu false = .run 0 (.at (.killed 0 true)) ∧
        (s.d.proc 0).pid = 1 ∧ (s.d.proc 1).state = .unused)
      (.replicate 4 (false, .go) ++ (false, .kill 0) :: .replicate 6 (false, .go)) (by decide)
    exact ⟨s, hs, of_decide_eq_true hf⟩
  · obtain ⟨s, hs, hf⟩ := reach_of_steps (n := 2)
      (f := fun s => (s.d.proc 1).state = .runnable ∧ (s.d.proc 1).pid = 2 ∧ (s.d.proc 1).killed = true ∧ 2 ∉ s.d.marks)
      (.replicate 4 (false, .go) ++ (false, .kill 0) :: .replicate 7 (false, .go) ++ (false, .fork) :: .replicate 7 (false, .go))
      (by decide)
    exact ⟨s, hs, of_decide_eq_true hf⟩

end Xv6.Sched
