import Xv6.Sched.Family
/-!
# `wait` does not sleep over a zombie

A child turns `ZOMBIE` with its parent's lock held, after it has woken the
parent up; the parent holds that lock from the first slot it looks at until it
is asleep.
-/

namespace Xv6.Sched

open Forest (Kind Node Op Rooted)

/-- The scan of `wait` is past slot `j`. -/
def Pc.Saw (j : Nat) : Pc → Prop
  | .at (.waitScan i _) | .at (.waitKid i _) | .at (.waitTest i) => j < i
  | .at (.waitNext i) => j ≤ i
  | _ => False

theorem Pc.Saw.held {pc : Pc} {j : Nat} (h : pc.Saw j) (q : Nat) : Lock.proc q ∈ pc.held q := by
  cases pc with
  | «at» k => cases k <;> simp_all [Pc.Saw, Pc.held, Kpc.held]
  | yieldLock | yieldState | save | load | resume => exact h.elim

theorem Acq.saw {n q j : Nat} {pc pc' : Pc} {l : Lock} (h : Acq n q pc l pc') (hw : pc'.Saw j) : pc.Saw j := by
  cases h
  case waitKid => exact hw
  case wait => exact absurd hw (Nat.not_lt_zero j)
  all_goals exact hw.elim

theorem Rel.saw {q j : Nat} {pc pc' : Pc} {l : Lock} (h : Rel q pc l pc') (hw : pc'.Saw j) : pc.Saw j := by
  cases h
  case waitNext => exact Nat.lt_succ_iff.1 hw
  case yield free =>
    have hl := hw.held q
    simp [Pc.held, Kpc.held_free free] at hl
  all_goals exact hw.elim

theorem Exec.saw {n q j : Nat} {d d' : Data} {pc pc' : Pc} (h : Exec n q d pc d' pc') (hw : pc'.Saw j) :
    pc.Saw j ∨ (d'.proc j).parent ≠ some q ∨ (d'.proc j).state ≠ .zombie := by
  cases h
  case waitHit => exact .inl hw
  case waitSkip i kids hi hp =>
    rcases Nat.lt_or_eq_of_le (Nat.lt_succ_iff.1 hw) with hw | rfl
    · exact .inl hw
    · exact .inr (.inl hp)
  case waitAlive i hz =>
    rcases Nat.lt_or_eq_of_le hw with hw | rfl
    · exact .inl hw
    · exact .inr (.inr hz)
  case slept w =>
    cases w with
    | on => exact hw.elim
    | wait => exact absurd hw (Nat.not_lt_zero j)
  case woken b => cases b <;> exact hw.elim
  all_goals exact hw.elim

section Step

variable {C : Type} [DecidableEq C] {n : Nat} {s s' : St C} {c : C}

/-- `j` is a dead child of `q`. -/
def Lost (s : St C) (q j : Nat) : Prop := (s.d.proc j).parent = some q ∧ (s.d.proc j).state = .zombie

omit [DecidableEq C] in
theorem zombie_iff {j : Nat} : (s.d.proc j).state = .zombie ↔ (s.d.node j).kind = .dead := by
  cases h : (s.d.proc j).state <;> simp [Data.node, State.kind, h]

theorem Move.dead (h : Move n s c s') (hc : Ctl s) {j : Nat} (hz : (s'.d.proc j).state = .zombie) :
    (s.d.proc j).state = .zombie ∨ ∃ st op, s.cpu c = .run j (.at (.exitZombie st op)) := by
  rw [zombie_iff] at hz ⊢
  rcases h.grow hc with hsame | ⟨p, pc, pc', hp, -, hg⟩
  · exact .inl (hsame ▸ hz)
  generalize s'.d.node = t' at hg hz
  cases hg with
  | same => exact .inl hz
  | @born i | @undo i | @reap i =>
    rw [Function.update_apply] at hz
    split at hz
    · cases hz
    · exact .inl hz
  | @adopt st op i =>
    rw [Function.update_apply] at hz
    split at hz
    · next hji => exact .inl (hji ▸ hz)
    · exact .inl hz
  | @die st op =>
    rw [Function.update_apply] at hz
    split at hz
    · next hjp => exact .inr ⟨st, op, hjp ▸ hp⟩
    · exact .inl hz

/-- A child is lost to `q` by its `exit`, with `q->lock` held. -/
theorem Move.lost (h : Move n s c s') (hc : Ctl s) (hf : Family n s) {q j : Nat} (hq : q ≠ 0) (hl : Lost s' q j) :
    Lost s q j ∨ ∃ st, s.cpu c = .run j (.at (.exitZombie st q)) := by
  have hpar : (s.d.proc j).parent = some q := by
    rcases hf.parents hc h j with hsame | ⟨p, pc, hp, ⟨hnone, hnew, rfl⟩ | ⟨-, -, hnew | ⟨hnew, -⟩⟩⟩
    · exact hsame.symm.trans hl.1
    · -- A new child is `RUNNABLE`.
      rcases h.dead hc hl.2 with hz | ⟨st, op, hp'⟩
      · have hfree := (hf.took_free hc hp).1
        rw [zombie_iff, hfree] at hz
        cases hz
      · rw [hp] at hp'
        cases hp'
    · cases hl.1.symm.trans hnew
      exact absurd rfl hq
    · cases hl.1.symm.trans hnew
  rcases h.dead hc hl.2 with hz | ⟨st, op, hp⟩
  · exact .inl ⟨hpar, hz⟩
  · rcases hf.copied j _ op (.inl ⟨c, _, hp, rfl⟩) rfl with ho | ho
    · cases hpar.symm.trans ho
      exact .inr ⟨st, hp⟩
    · cases hpar.symm.trans ho
      exact absurd rfl hq

/-- What `wait` of a process other than `initproc` has looked at holds no dead child, and it sleeps over none. -/
structure Vigil (n : Nat) (s : St C) : Prop where
  saw : ∀ c q pc j, s.cpu c = .run q pc → q ≠ 0 → pc.Saw j → ¬ Lost s q j
  doze : ∀ q j, Dozing s q .wait → q ≠ 0 → ¬ Lost s q j

theorem Vigil.step (h : Vigil n s) (hc : Ctl s) (hf : Family n s) (hr : Roused1 s) (hs : Move n s c s') :
    Vigil n s' where
  saw c' q pc j hk hq hw hl := by
    have hold : ∀ pc₀, s.cpu c' = .run q pc₀ → pc₀.Saw j → False := by
      intro pc₀ hp hw₀
      rcases hs.lost hc hf hq hl with hl₀ | ⟨st, hp'⟩
      · exact h.saw c' q pc₀ j hp hq hw₀ hl₀
      · -- Both CPUs would hold `q->lock`.
        have hcc : c' = c := hc.locks.excl (l := .proc q) (by rw [hp]; exact hw₀.held q)
          (by simp [hp', Cpu.held, Pc.held, Kpc.held])
        rw [hcc, hp'] at hp
        cases hp
        exact hw₀
    by_cases hcc : c' = c
    · subst hcc
      obtain ⟨pc₀, l, hp, ha, hd⟩ | ⟨pc₀, l, hp, hr, hd⟩ | ⟨pc₀, hp, he⟩ | ⟨k, free, -, rfl, -⟩ | ⟨r, -, -, rfl, -⟩ :=
        hs.run hk
      · exact hold pc₀ hp (ha.saw hw)
      · exact hold pc₀ hp (hr.saw hw)
      · rcases he.saw hw with hw₀ | hnp | hnz
        · exact hold pc₀ hp hw₀
        · exact hnp hl.1
        · exact hnz hl.2
      · exact hw
      · exact hw
    · rw [hs.cpu_other hcc] at hk
      exact hold pc hk hw
  doze q j hd hq hl := by
    rcases hs.dozing hc hd with hd₀ | ⟨f, ch, lk, hw, -⟩ | ⟨-, i, hi, hp⟩
    · rcases hs.lost hc hf hq hl with hl₀ | ⟨st, hp⟩
      · exact h.doze q j hd₀ hq hl₀
      · exact hr c j _ q hp rfl hd₀
    · cases hw
    · rcases hs.lost hc hf hq hl with hl₀ | ⟨st, hp'⟩
      · have hjn : j < n := hf.bound j (by simp [hl₀.1])
        exact h.saw c q _ j hp hq (Nat.lt_of_lt_of_le hjn hi) hl₀
      · rw [hp] at hp'
        cases hp'

omit [DecidableEq C] in
theorem vigil_init : Vigil n (init C) where
  saw _ _ _ _ hk := by cases hk
  doze q j _ _ hl := by
    by_cases h0 : j = 0 <;> simp [Lost, init, Proc.empty, h0] at hl

theorem Reach.vigil (h : Reach n s) : Vigil n s := by
  refine (Run.Reach.inv (fun s => Reach n s ∧ Vigil n s) (fun _ hi => ⟨.init hi, hi ▸ vigil_init⟩) ?_ h).2
  rintro s₀ e s₁ ⟨hr, hv⟩ hs
  exact ⟨.step hr hs, hv.step hr.ctl hr.family hr.roused1 hs.move⟩

omit [DecidableEq C] in
theorem Ctl.dozing_wait (h : Ctl s) {q : Nat} (hl : s.lock (.proc q) = none) (hs : (s.d.proc q).state = .sleeping)
    (hch : (s.d.proc q).chan = some (.proc q)) : Dozing s q .wait := by
  have hno : ∀ c, (s.cpu c).carries ≠ some q := h.uncarried hl (by simp [hs])
  have hpark := h.parked hno
  simp only [Parked, hs] at hpark
  obtain ⟨w, hr, hw⟩ := hpark
  rw [hch] at hw
  cases w with
  | on => cases hw
  | wait => exact .inr ⟨hs, hr, fun c pc hk => hno c (by rw [hk]; rfl)⟩

theorem no_sleep_over_zombie (h : Reach n s) {q : Nat} (hq : q ≠ 0) (hl : s.lock (.proc q) = none)
    (hs : (s.d.proc q).state = .sleeping) (hch : (s.d.proc q).chan = some (.proc q)) :
    ∀ j, (s.d.proc j).parent = some q → (s.d.proc j).state ≠ .zombie := by
  intro j hp hz
  exact h.vigil.doze q j (h.ctl.dozing_wait hl hs hch) hq ⟨hp, hz⟩

end Step

/-- `initproc` has forked a child, which has forked another one and waits for it. -/
def waiting : List (Bool × Act) :=
  twoProcs ++ (true, .fork) :: .replicate 10 (true, .go) ++ (true, .wait) :: .replicate 14 (true, .go)

theorem no_sleep_over_zombie_child : ∃ s : St Bool, Reach 3 s ∧ s.lock (.proc 1) = none ∧
    (s.d.proc 1).state = .sleeping ∧ (s.d.proc 1).chan = some (.proc 1) ∧ (s.d.proc 2).parent = some 1 ∧
    (s.d.proc 2).state ≠ .zombie := by
  obtain ⟨s, hs, hf⟩ := reach_of_steps (n := 3)
    (f := fun s => s.lock (.proc 1) = none ∧ (s.d.proc 1).state = .sleeping ∧ (s.d.proc 1).chan = some (.proc 1) ∧
      (s.d.proc 2).parent = some 1) waiting (by decide)
  obtain ⟨hl, hsl, hch, hp⟩ := of_decide_eq_true hf
  exact ⟨s, hs, hl, hsl, hch, hp, no_sleep_over_zombie hs (by decide) hl hsl hch 2 hp⟩

end Xv6.Sched
