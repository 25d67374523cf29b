import Mathlib.Data.Int.Order.Basic
import Xv6.Lib.Deadlock
import Xv6.Sched.Born
/-!
# The order of the process locks

`exit` and `wait` acquire a `p->lock` while they hold another one: `exit` its
own after that of `original_parent`, both of them their children's after their
own. Pids grow from parent to child, so the locks are acquired in the order of
the pids. The exception is `original_parent`, which `exit` has copied and not
locked since: its slot may have been reaped and handed out again, to a process
younger than the one that exits.
-/

namespace Xv6.Sched

open Census (Sound)

variable {C : Type} {n : Nat} {s s' : St C} {c : C} {p i : Nat}

/-- The `p->lock` a CPU is about to acquire. -/
def Cpu.wants (n : Nat) : Cpu → Option Nat
  | .sched (.lock i) => some i
  | .sched _ => none
  | .run p pc =>
    match pc.acq n p with
    | some (.proc i, _) => some i
    | _ => none

/-- `c` spins for a `p->lock` that `c'` holds. -/
def Waits (n : Nat) (s : St C) : C → C → Prop :=
  Deadlock.Waits (fun c i => s.lock (.proc i) = some c) fun c => (s.cpu c).wants n

/-- The place of a slot in the order: its pid while it is in use. -/
def rank (d : Data) (i : Nat) : Int := if (d.proc i).state = .unused then 0 else (d.proc i).pid

theorem rank_used {d : Data} (h : (d.proc i).state ≠ .unused) : rank d i = (d.proc i).pid := if_neg h

theorem rank_unused {d : Data} (h : (d.proc i).state = .unused) : rank d i = 0 := if_pos h

section Step

variable [DecidableEq C]

section
variable (h : Move n s c s') (hc : Ctl s)
include h hc

theorem Move.settled (hu : (s.d.proc i).state = .unused)
    (hu' : (s'.d.proc i).state ≠ .unused) :
    ∃ p, s.cpu c = .run p (.at (.forkAlloc i)) ∧ (s'.d.proc i).pid = (s.d.proc i).pid ∧ (s'.d.proc i).parent = some p := by
  have hrow : (s'.d.proc i).row ≠ (s.d.proc i).row := by
    intro hr
    have hn := congrArg (fun r => r.node.kind) hr
    simp only [Proc.row, hu] at hn
    cases hs : (s'.d.proc i).state <;> simp [hs, State.kind] at hn hu'
  rcases h.books hc with ⟨hd, -⟩ | ⟨p, pc, pc', hp, -, hb⟩
  · exact absurd (hd.row i) hrow
  have hfits := hc.run hp
  generalize hd : s'.d = d' at hb hu' hrow ⊢
  have hset : ∀ {d : Data} {j : Nat} {f : Proc → Proc}, d.proc = s.d.proc → d' = d.set j f → i = j := by
    rintro d j f hproc rfl
    by_contra hij
    exact hrow (by rw [Data.set_other _ _ hij, hproc])
  cases hb with
  | same hsame => exact absurd (hsame.row i) hrow
  | fail | exit => exact absurd rfl hrow
  | @settle j =>
    cases hset (d := { s.d with forks := ((s.d.proc j).pid, (s.d.proc p).pid) :: s.d.forks }) rfl rfl
    exact ⟨p, hp, by rw [Data.set_same], by rw [Data.set_same]⟩
  | @take j =>
    cases hset (d := { s.d with nextpid := s.d.nextpid + 1 }) rfl rfl
    rw [Data.set_same] at hu'
    exact absurd hu hu'
  | undo | adopt =>
    cases hset rfl rfl
    rw [Data.set_same] at hu'
    first | exact absurd hu hu' | exact absurd rfl hu'
  | die =>
    cases hset rfl rfl
    exact absurd hu hfits.1.used
  | @reap j hz =>
    cases hset (d := { s.d with reaps := _ :: s.d.reaps }) rfl rfl
    simp [hu] at hz

theorem Move.pid_used (hu : (s.d.proc i).state ≠ .unused)
    (hu' : (s'.d.proc i).state ≠ .unused) : (s'.d.proc i).pid = (s.d.proc i).pid := by
  rcases h.pid hc (i := i) with hpid | ⟨-, hu₀, -⟩ | ⟨hu₀, -⟩
  · exact hpid
  · exact absurd hu₀ hu
  · exact absurd hu₀ hu'

/-- The place of a slot changes where it comes into use and where it is freed. -/
theorem Move.rank :
    rank s'.d i = rank s.d i ∨ Taken s i ∨ rank s'.d i = 0 ∧ (s.d.proc i).state = .zombie := by
  by_cases hu : (s.d.proc i).state = .unused <;> by_cases hu' : (s'.d.proc i).state = .unused
  · exact .inl (by rw [rank_unused hu, rank_unused hu'])
  · obtain ⟨p, hp, -⟩ := h.settled hc hu hu'
    exact .inr (.inl ⟨c, by rw [hp]; rfl⟩)
  · rcases h.freed hc hu' with hu₀ | ⟨hz, -⟩
    · exact absurd hu₀ hu
    · exact .inr (.inr ⟨rank_unused hu', hz⟩)
  · exact .inl (by rw [rank_used hu, rank_used hu', h.pid_used hc hu hu'])

theorem Move.rank_live (hl : (s.d.proc i).state.kind = .live) :
    Sched.rank s'.d i = Sched.rank s.d i := by
  rcases h.rank hc (i := i) with heq | ht | ⟨-, hz⟩
  · exact heq
  · simp [hc.taken_unused ht, State.kind] at hl
  · simp [hz, State.kind] at hl

end

/-- `allocproc` does not hand out a slot that a process in `exit` still takes for its parent. -/
def LeavesParents (s : St C) (e : C × Act) : Prop :=
  ∀ p i, s.cpu e.1 = .run p (.at (.forkTest i)) → (s.d.proc i).state = .unused → ∀ q k, Pos s q k → k.op ≠ some i

/-- Pids grow from parent to child. -/
structure Elders (s : St C) : Prop where
  init : (s.d.proc 0).pid = 1
  later : ∀ i, i ≠ 0 → (s.d.proc i).state ≠ .unused ∨ Taken s i → 1 < (s.d.proc i).pid
  next : 1 < s.d.nextpid
  taker : ∀ c p i, s.cpu c = .run p (.at (.forkAlloc i)) → (s.d.proc p).pid < (s.d.proc i).pid
  parent : ∀ i q, (s.d.proc i).parent = some q → rank s.d q < rank s.d i

namespace Elders

omit [DecidableEq C] in
theorem init_used (hf : Family n s) : (s.d.proc 0).state ≠ .unused := by
  intro hu
  have hr := congrArg Forest.Node.kind hf.rooted.root
  simp [Data.node, hu, State.kind] at hr

theorem later_step (h : Elders s) (hc : Ctl s) (hs : Move n s c s') (i : Nat) (hi : i ≠ 0)
    (hu : (s'.d.proc i).state ≠ .unused ∨ Taken s' i) : 1 < (s'.d.proc i).pid := by
  have hold : (s'.d.proc i).pid = (s.d.proc i).pid → (s.d.proc i).state ≠ .unused ∨ Taken s i →
      1 < (s'.d.proc i).pid := fun hpid hu₀ => hpid ▸ h.later i hi hu₀
  rcases hu with hu | ht
  · by_cases hu₀ : (s.d.proc i).state = .unused
    · obtain ⟨p, hp, hpid, -⟩ := hs.settled hc hu₀ hu
      exact hold hpid (.inr ⟨c, by rw [hp]; rfl⟩)
    · exact hold (hs.pid_used hc hu₀ hu) (.inl hu₀)
  · rcases hs.took ht with ht₀ | ⟨hpid, -⟩
    · rcases hs.pid hc (i := i) with hpid | ⟨-, -, hpid⟩ | ⟨-, hno, -⟩
      · exact hold hpid (.inr ht₀)
      · rw [hpid]
        exact h.next
      · exact absurd ht hno
    · rw [hpid]
      exact h.next

theorem taker_step (h : Elders s) (hc : Ctl s) (hb : Sound 0 (census s)) (hs : Move n s c s') (c' : C) (p i : Nat)
    (hk : s'.cpu c' = .run p (.at (.forkAlloc i))) : (s'.d.proc p).pid < (s'.d.proc i).pid := by
  have hc' := hc.step hs
  have hrun' : (s'.d.proc p).state ≠ .unused := (hc'.run hk).1.used
  by_cases hcc : c' = c
  · subst hcc
    obtain ⟨hp, -, hpid, -⟩ := hs.takes hk rfl
    have hrun : (s.d.proc p).state ≠ .unused := (hc.run hp).1.used
    rw [hpid, hs.pid_used hc hrun hrun']
    exact hb.lt p _ (phase_id hrun)
  · rw [hs.cpu_other hcc] at hk
    have hrun : (s.d.proc p).state ≠ .unused := (hc.run hk).1.used
    have hl : Lock.proc i ∉ (s.cpu c).held := fun hl =>
      hcc (hc.locks.excl (l := .proc i) (by simp [hk, Cpu.held, Pc.held, Kpc.held]) hl)
    have hpid : (s'.d.proc i).pid = (s.d.proc i).pid := by
      rcases hs.pid hc (i := i) with hpid | ⟨⟨q, hq⟩, -⟩ | ⟨-, -, hl'⟩
      · exact hpid
      · exact absurd (by simp [hq, Cpu.held, Pc.held, Kpc.held]) hl
      · exact absurd hl' hl
    rw [hs.pid_used hc hrun hrun', hpid]
    exact h.taker c' p i hk

theorem step (h : Elders s) (hc : Ctl s) (hf : Family n s) (hb : Sound 0 (census s)) (hs : Move n s c s')
    : Elders s' := by
  have hc' := hc.step hs
  have hf' := hf.step hc hs
  have hinit : (s'.d.proc 0).pid = 1 := (hs.pid_used hc (init_used hf) (init_used hf')).trans h.init
  have hlater := h.later_step hc hs
  have htaker := h.taker_step hc hb hs
  refine ⟨hinit, hlater, Int.lt_of_lt_of_le h.next (hs.nextpid_le hc), htaker, fun i q hp => ?_⟩
  -- A child is in use, and so is its parent.
  have hiu : ∀ {s : St C}, Family n s → ∀ {q}, (s.d.proc i).parent = some q → (s.d.proc i).state ≠ .unused := by
    intro s hf q hp hu
    have hnone : (s.d.proc i).parent = none := hf.rooted.free i (by simp [Data.node, hu, State.kind])
    simp [hnone] at hp
  have hlive : ∀ {q}, (s.d.proc i).parent = some q → (s.d.proc q).state.kind = .live := fun hp => hf.rooted.live hp
  rcases hf.parents hc hs i with hsame | ⟨p, pc, hk, ⟨hnone, hnew, rfl⟩ | ⟨hpar, -, hnew | ⟨hnew, -⟩⟩⟩
  · rw [hsame] at hp
    have hq := hs.rank_live hc (hlive hp)
    have hiu₀ := hiu hf hp
    rw [hq, rank_used (hiu hf' (hsame.trans hp)), hs.pid_used hc hiu₀ (hiu hf' (hsame.trans hp)), ← rank_used hiu₀]
    exact h.parent i q hp
  · obtain rfl : p = q := Option.some.inj (hnew.symm.trans hp)
    have hrun : (s.d.proc p).state = .running := (hc.run hk).1
    have hq := hs.rank_live hc (i := p) (by rw [hrun]; rfl)
    obtain ⟨p', hk', hpid, -⟩ := hs.settled hc (hc.run hk).2 (hiu hf' hp)
    rw [hq, rank_used (by simp [hrun]), rank_used (hiu hf' hp), hpid]
    exact h.taker c p i hk
  · cases hp.symm.trans hnew
    have hi : i ≠ 0 := by
      rintro rfl
      have hroot : (s'.d.proc 0).parent = none := congrArg Forest.Node.parent hf'.rooted.root
      simp [hroot] at hp
    rw [rank_used (init_used hf'), hinit, rank_used (hiu hf' hp)]
    exact hlater i hi (.inl (hiu hf' hp))
  · cases hp.symm.trans hnew

end Elders

omit [DecidableEq C] in
theorem elders_init : Elders (Sched.init C) where
  init := rfl
  later i hi hu := by
    rcases hu with hu | ⟨c, ht⟩
    · simp [Sched.init, hi, Proc.empty] at hu
    · cases ht
  next := Int.lt_succ 1
  taker c p i hk := by cases hk
  parent i q hp := by
    by_cases hi : i = 0 <;> simp [Sched.init, Proc.empty, hi] at hp

theorem Reach.elders (h : Reach n s) : Elders s := by
  refine (Run.Reach.inv (fun s => Reach n s ∧ Elders s) (fun _ hi => ⟨.init hi, hi ▸ elders_init⟩) ?_ h).2
  rintro s₀ e s₁ ⟨hr, he⟩ hst
  exact ⟨.step hr hst, he.step hr.ctl hr.family hr.sound hst.move⟩

/-! ## The process tree -/

omit [DecidableEq C] in
theorem Elders.rank_pos (h : Elders s) (hu : (s.d.proc i).state ≠ .unused) : 0 < rank s.d i := by
  rw [rank_used hu]
  by_cases hi : i = 0
  · rw [hi, h.init]
    exact Int.zero_lt_one
  · exact Int.lt_trans Int.zero_lt_one (h.later i hi (.inl hu))

/-- From every process in use, zombies as well, the parents lead to `initproc` through processes that have not exited:
there are no orphans and no circles, whatever `fork`, `exit` and `wait` do at the same time. -/
theorem descends_from_init (h : Reach n s) (hu : (s.d.proc i).state ≠ .unused) :
    Relation.ReflTransGen (fun p q => (s.d.proc p).parent = some q ∧ (s.d.proc q).state.kind = .live) i 0 := by
  have he := h.elders
  induction hk : (rank s.d i).toNat using Nat.strongRecOn generalizing i with
  | ind k ih =>
    by_cases hi : i = 0
    · rw [hi]
    have hkind : (s.d.node i).kind ≠ .free := by
      simp only [Data.node]
      cases hs : (s.d.proc i).state <;> simp_all [State.kind]
    obtain ⟨q, hq, hl⟩ := h.family.rooted.kin i hi hkind
    have huq : (s.d.proc q).state ≠ .unused := fun hu => by simp [Data.node, hu, State.kind] at hl
    -- The parent is older.
    have hlt := he.parent i q hq
    have hpos := he.rank_pos huq
    exact .head ⟨hq, hl⟩ (ih _ (by omega) huq rfl)

theorem descends_from_init_child : ∃ s : St Bool, Reach 2 s ∧ (s.d.proc 1).state ≠ .unused ∧
    Relation.ReflTransGen (fun p q => (s.d.proc p).parent = some q ∧ (s.d.proc q).state.kind = .live) 1 0 := by
  obtain ⟨s, hs, hf⟩ := reach_of_steps (n := 2) (f := fun s => (s.d.proc 1).state = .runnable)
    (.replicate 4 (false, .go) ++ (false, .fork) :: .replicate 7 (false, .go)) (by decide)
  have hu : (s.d.proc 1).state ≠ .unused := by simp [of_decide_eq_true hf]
  exact ⟨s, hs, hu, descends_from_init hs hu⟩

/-! ## The copy of the parent -/

/-- The slot that a process in `exit` takes for its parent was never handed out
again: it is free, or older than the process. -/
def Remembers (s : St C) : Prop :=
  ∀ p k op, Pos s p k → k.op = some op → rank s.d op < rank s.d p ∧ ¬ Taken s op

theorem Remembers.step (h : Remembers s) (hc : Ctl s) (hf : Family n s) (he : Elders s) (he' : Elders s')
    (hs : Move n s c s') {a : Act} (hok : LeavesParents s (c, a)) : Remembers s' := by
  intro p k op hp ho
  have hf' := hf.step hc hs
  rcases hs.op hc hp ho with ⟨k₀, hp₀, ho₀⟩ | hpar
  · obtain ⟨hlt, ht⟩ := h p k₀ op hp₀ ho₀
    have hl := Family.exiting_live hc hp₀ ho₀
    have hu : (s.d.proc p).state ≠ .unused := fun hu => by simp [hu, State.kind] at hl
    rw [hs.rank_live hc hl]
    constructor
    · rcases hs.rank hc (i := op) with heq | ht' | ⟨hzero, -⟩
      · rw [heq]
        exact hlt
      · exact absurd ht' ht
      · rw [hzero, rank_used hu]
        exact Int.lt_trans Int.zero_lt_one (he.later p (hf.exiting_ne_init hp₀ ho₀) (.inl hu))
    · intro ht'
      rcases hs.took ht' with ht₀ | ⟨-, -, hu', q, hq⟩
      · exact ht ht₀
      · exact hok q op hq hu' p k₀ hp₀ ho₀
  · refine ⟨he'.parent p op hpar, fun ht => ?_⟩
    have hl : (s'.d.proc op).state.kind = .live := hf'.rooted.live hpar
    simp [(hc.step hs).taken_unused ht, State.kind] at hl

omit [DecidableEq C] in
theorem remembers_init : Remembers (Sched.init C) := by
  intro p k op hp
  rcases hp with ⟨c, pc, hk, -⟩ | ⟨free, hr, -⟩
  · cases hk
  · by_cases h0 : p = 0 <;> simp [Sched.init, Proc.empty, h0] at hr

theorem ReachIf.remembers (h : ReachIf n LeavesParents s) : Remembers s := by
  refine (Run.Reach.inv (fun s => Reach n s ∧ Remembers s) (fun _ hi => ⟨.init hi, hi ▸ remembers_init⟩) ?_ h).2
  rintro s₀ e s₁ ⟨hr, hm⟩ ⟨hok, hst⟩
  have hr' : Reach n s₁ := .step hr hst
  exact ⟨hr', hm.step hr.ctl hr.family hr.elders hr'.elders hst.move hok⟩

/-! ## Who holds one process lock and wants another -/

omit [DecidableEq C] in
theorem lock_order (hc : Ctl s) (hf : Family n s) (he : Elders s) (hm : Remembers s) (c : C) (l l' : Nat)
    (hl : s.lock (.proc l) = some c) (hw : (s.cpu c).wants n = some l') : rank s.d l < rank s.d l' := by
  have hheld := (hc.locks.owner _ c).1 hl
  have hothers : ∀ b : Caller, Lock.proc l ∉ b.held := by
    intro b
    cases b <;> simp [Caller.held]
  cases hk : s.cpu c with
  | sched k => cases k <;> simp [hk, Cpu.wants, Cpu.held, Spc.held] at hw hheld
  | run p pc =>
    rw [hk] at hw hheld
    have hop : ∀ {k op}, pc = .at k → k.op = some op → rank s.d op < rank s.d p := fun hpc ho =>
      (hm p _ _ (.inl ⟨c, pc, hk, by rw [hpc]; rfl⟩) ho).1
    have hkid : ∀ {i}, pc.kid = some i → rank s.d p < rank s.d i := fun hi => he.parent _ p (hf.mine c p pc _ hk hi)
    cases pc with
    | «at» k =>
      cases k <;> simp [Cpu.wants, Pc.acq, Kpc.acq] at hw <;> simp [Cpu.held, Pc.held, Kpc.held] at hheld
      case exitSelf st op =>
        cases hheld
        cases hw
        exact hop rfl rfl
      case reparentLock st op i =>
        cases hw
        rcases hheld with rfl | rfl
        · exact hkid rfl
        · exact Int.lt_trans (hop rfl rfl) (hkid rfl)
      case waitKid i kids =>
        cases hw
        cases hheld
        exact hkid rfl
      case wakeLock b => exact absurd hheld (hothers b)
    | yieldLock => simp [Cpu.held, Pc.held] at hheld
    | yieldState | save | load | resume => simp [Cpu.wants, Pc.acq] at hw

/-- In the runs in which no slot that a process in `exit` still takes for its
parent is handed out again, no CPUs spin for each other's process locks in a circle. -/
theorem proc_locks_acyclic (h : ReachIf n LeavesParents s) (c : C) : ¬ Relation.TransGen (Waits n s) c c := by
  have hr : Reach n s := h.of_when
  exact Deadlock.no_cycle (rank s.d) (lock_order hr.ctl hr.family hr.elders h.remembers) c

end Step

/-- The CPU is in `allocproc` and about to test a slot. -/
def Cpu.allocates : Cpu → Bool
  | .run _ (.at (.forkTest _)) => true
  | _ => false

/-- One CPU in `kill` holds the lock of `initproc`; the scheduler of the other spins for it. -/
theorem proc_locks_acyclic_spin : ∃ s : St Bool, ReachIf 1 LeavesParents s ∧ Waits 1 s true false ∧
    ∀ c, ¬ Relation.TransGen (Waits 1 s) c c := by
  obtain ⟨s, hs, hf⟩ := reachIf_of_steps (n := 1) LeavesParents
    (f := fun s => (s.cpu true).wants 1 = some 0 ∧ s.lock (.proc 0) = some false)
    (fun s e => !(s.cpu e.1).allocates) (fun s e hg p i hp => by simp [hp, Cpu.allocates] at hg)
    (.replicate 4 (false, .go) ++ [(false, .kill 5), (false, .go)]) (by decide)
  obtain ⟨hw, hl⟩ := of_decide_eq_true hf
  exact ⟨s, hs, ⟨0, hw, hl⟩, fun c => proc_locks_acyclic hs c⟩

/-- Four CPUs: `initproc` forks a child, this one a second, this one a third. The
second is in `exit` and has copied its parent; the first exits and `initproc`
reaps it; the third forks a child into the slot that is free again, and waits. -/
def staleParent : List (Fin 4 × Act) := [
  .replicate 4 (0, .go), [(0, .fork)], .replicate 7 (0, .go),
  .replicate 7 (1, .go), [(1, .fork)], .replicate 10 (1, .go),
  .replicate 10 (2, .go), [(2, .fork)], .replicate 13 (2, .go), .replicate 13 (3, .go),
  -- The second is about to lock its parent; the first exits and is reaped.
  [(2, .exit 0)], .replicate 6 (2, .go), [(1, .exit 0)], .replicate 23 (1, .go), [(0, .wait)], .replicate 7 (0, .go),
  [(3, .fork)], .replicate 7 (3, .go), .replicate 6 (2, .go), [(3, .wait)], .replicate 3 (3, .go)].flatten

/-- The second process holds the lock of the slot handed out again and spins for
that of its child; this one holds it and spins for that of the slot. -/
theorem proc_locks_deadlock : ∃ s : St (Fin 4), Reach 4 s ∧ Waits 4 s 2 3 ∧ Waits 4 s 3 2 := by
  obtain ⟨s, hs, hf⟩ := reach_of_steps (n := 4)
    (f := fun s => ((s.cpu 2).wants 4 = some 3 ∧ s.lock (.proc 3) = some 3) ∧
      (s.cpu 3).wants 4 = some 1 ∧ s.lock (.proc 1) = some 2) staleParent (by decide +kernel)
  obtain ⟨⟨hw, hl⟩, hw', hl'⟩ := of_decide_eq_true hf
  exact ⟨s, hs, ⟨3, hw, hl⟩, ⟨1, hw', hl'⟩⟩

end Xv6.Sched
