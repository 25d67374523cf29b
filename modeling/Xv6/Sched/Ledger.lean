import Xv6.Lib.Census
import Xv6.Sched.Wait
/-!
# Every exited child is reaped once

The process table is a census: `census` reads off a state who is in which slot,
under which pid, and how far it has come. Each step of the code is one of the
census's operations or leaves the census as it is, so what is sound for the
census holds of `fork`, `exit` and `wait`.
-/

open Function

namespace Xv6.Sched

open Forest (Kind)
open Census (Phase Book Entry Op Sound)

variable {pc pc' : Pc} {l : Lock}

theorem Acq.status {n p : Nat} (h : Acq n p pc l pc') : pc'.status = pc.status := by
  cases h <;> rfl

theorem Rel.status {p : Nat} (h : Rel p pc l pc') : pc'.status = pc.status := by
  cases h <;> rfl

theorem Acq.takes {n p : Nat} (h : Acq n p pc l pc') : pc'.takes = pc.takes := by
  cases h <;> rfl

theorem Kpc.free_takes {k : Kpc} (free : k.held 0 = []) : (Pc.at k).takes = none := by
  cases k <;> simp_all [Pc.takes, Kpc.held]

theorem Rel.takes {p : Nat} (h : Rel p pc l pc') : pc'.takes = pc.takes := by
  cases h
  case yield free => exact Kpc.free_takes free
  all_goals rfl

theorem Pc.takes_held {i : Nat} (h : pc.takes = some i) (p : Nat) : Lock.proc i ∈ pc.held p := by
  cases pc with
  | «at» k => cases k <;> simp_all [Pc.takes, Pc.held, Kpc.held]
  | yieldLock | yieldState | save | load | resume => cases h

def Cpu.takes : Cpu → Option Nat
  | .run _ pc => pc.takes
  | .sched _ => none

theorem Cpu.takes_held {k : Cpu} {i : Nat} (h : k.takes = some i) : Lock.proc i ∈ k.held := by
  cases k with
  | run p pc => exact Pc.takes_held h p
  | sched => cases h

section Census

variable {C : Type} {n : Nat} {s s' : St C} {c : C} {p i : Nat} {st : Int}

/-- The thread of `p` is in `exit(st)` and its slot not yet `ZOMBIE`. -/
def Exiting (s : St C) (p : Nat) (st : Int) : Prop := ∃ k, Pos s p k ∧ k.status = some st

/-- Slot `i` has a pid and is still marked `UNUSED`. -/
def Taken (s : St C) (i : Nat) : Prop := ∃ c, (s.cpu c).takes = some i

open Classical in
noncomputable def phase (s : St C) (i : Nat) : Phase Int :=
  match (s.d.proc i).state.kind with
  | .free => if Taken s i then .taken (s.d.proc i).pid else .free
  | .live => if h : ∃ st, Exiting s i st then .leaving (s.d.proc i).pid h.choose else .live (s.d.proc i).pid
  | .dead => .dead (s.d.proc i).pid (s.d.proc i).xstate

def Reap.entry (r : Reap) : Entry Nat Int := ⟨r.pid, r.status, r.slot, r.waiter⟩

noncomputable def census (s : St C) : Book Nat Int where
  slot := phase s
  parent i := (s.d.proc i).parent
  next := s.d.nextpid
  forks := s.d.forks
  exits := s.d.exits
  reaps := s.d.reaps.map Reap.entry

theorem Exiting.on (h : Exiting s p st) (hc : Ctl s) (hk : s.cpu c = .run p pc) : pc.status = some st := by
  obtain ⟨k, ⟨c', pc', hk', hb⟩ | ⟨-, -, -, hno⟩, hst⟩ := h
  · have hcc : c' = c := hc.uniq (p := p) (by rw [hk']; rfl) (by rw [hk]; rfl)
    rw [hcc, hk] at hk'
    cases hk'
    rw [Pc.status, hb]
    exact hst
  · exact absurd hk (hno c pc)

theorem exiting_of_status (hk : s.cpu c = .run p pc) (hst : pc.status = some st) : Exiting s p st := by
  obtain ⟨k, hb, hst⟩ := Option.bind_eq_some_iff.1 hst
  exact ⟨k, .inl ⟨c, pc, hk, hb⟩, hst⟩

theorem Exiting.used (h : Exiting s p st) (hc : Ctl s) : (s.d.proc p).state ≠ .unused := by
  obtain ⟨k, ⟨c, pc, hk, -⟩ | ⟨-, -, hl, -⟩, -⟩ := h
  · exact (hc.run hk).1.used
  · intro hu
    simp [hu, State.kind] at hl

theorem phase_free (hk : (s.d.proc i).state.kind = .free) (ht : ¬ Taken s i) : phase s i = .free := by
  rw [phase, hk]
  exact if_neg ht

theorem phase_taken (hk : (s.d.proc i).state.kind = .free) (ht : Taken s i) : phase s i = .taken (s.d.proc i).pid := by
  rw [phase, hk]
  exact if_pos ht

theorem phase_dead (hk : (s.d.proc i).state = .zombie) : phase s i = .dead (s.d.proc i).pid (s.d.proc i).xstate := by
  rw [phase, hk]
  rfl

theorem phase_live (hk : (s.d.proc i).state.kind = .live) (he : ∀ st, ¬ Exiting s i st) :
    phase s i = .live (s.d.proc i).pid := by
  rw [phase, hk]
  exact dif_neg fun ⟨st, h⟩ => he st h

theorem phase_leaving (hc : Ctl s) (hk : (s.d.proc p).state.kind = .live) (hp : s.cpu c = .run p pc)
    (hst : pc.status = some st) : phase s p = .leaving (s.d.proc p).pid st := by
  have he : ∃ st, Exiting s p st := ⟨st, exiting_of_status hp hst⟩
  have hch : he.choose = st := Option.some.inj ((he.choose_spec.on hc hp).symm.trans hst)
  rw [phase, hk]
  simp only [dif_pos he, hch]

theorem phase_on (hc : Ctl s) (hr : (s.d.proc p).state = .running) (hp : s.cpu c = .run p pc)
    (hst : pc.status = none) : phase s p = .live (s.d.proc p).pid := by
  refine phase_live (by rw [hr]; rfl) fun st he => ?_
  have hst' := he.on hc hp
  rw [hst] at hst'
  cases hst'

theorem phase_congr (hpid : (s'.d.proc i).pid = (s.d.proc i).pid) (hx : (s'.d.proc i).xstate = (s.d.proc i).xstate)
    (hk : (s'.d.proc i).state.kind = (s.d.proc i).state.kind) (ht : Taken s' i ↔ Taken s i)
    (he : ∀ st, Exiting s' i st ↔ Exiting s i st) : phase s' i = phase s i := by
  have ht' : Taken s' i = Taken s i := propext ht
  have he' : Exiting s' i = Exiting s i := funext fun st => propext (he st)
  rw [phase, phase, hpid, hx, hk, ht', he']

theorem census_eq {slot : Nat → Phase Int} {parent : Nat → Option Nat} (hs : phase s = slot)
    (hp : (fun j => (s.d.proc j).parent) = parent) :
    census s = ⟨slot, parent, s.d.nextpid, s.d.forks, s.d.exits, s.d.reaps.map Reap.entry⟩ := by
  rw [census, hs, hp]

theorem parents_set (d : Data) (i : Nat) (f : Proc → Proc) : (fun j => ((d.set i f).proc j).parent) =
    update (fun j => (d.proc j).parent) i (f (d.proc i)).parent := by
  funext j
  rw [Data.set_proc, update_apply]
  split
  · next hj => rw [hj]
  · rfl

variable [DecidableEq C]

theorem Move.taken (h : Move n s c s') (hk : (s'.cpu c).takes = some i ↔ (s.cpu c).takes = some i) :
    Taken s' i ↔ Taken s i := by
  have hcpu : ∀ c', (s'.cpu c').takes = some i ↔ (s.cpu c').takes = some i := by
    intro c'
    by_cases hcc : c' = c
    · rw [hcc]
      exact hk
    · rw [h.cpu_other hcc]
  simp only [Taken, hcpu]

theorem Move.taken_held (h : Move n s c s') (hc : Ctl s) (hl : Lock.proc i ∈ (s.cpu c).held) :
    Taken s' i ↔ (s'.cpu c).takes = some i := by
  refine ⟨fun ⟨c', ht⟩ => ?_, fun ht => ⟨c, ht⟩⟩
  by_cases hcc : c' = c
  · rw [← hcc]
    exact ht
  · rw [h.cpu_other hcc] at ht
    exact absurd (hc.locks.excl (Cpu.takes_held ht) hl) hcc

omit [DecidableEq C] in
theorem Ctl.taken_held (hc : Ctl s) (hl : Lock.proc i ∈ (s.cpu c).held) : Taken s i ↔ (s.cpu c).takes = some i := by
  refine ⟨fun ⟨c', ht⟩ => ?_, fun ht => ⟨c, ht⟩⟩
  rw [← hc.locks.excl (Cpu.takes_held ht) hl]
  exact ht

theorem Move.exiting (h : Move n s c s') (hc : Ctl s)
    (hst : ∀ pc pc', s.cpu c = .run p pc → s'.cpu c = .run p pc' → pc'.status = pc.status) :
    Exiting s' p st ↔ Exiting s p st := by
  constructor
  · rintro ⟨k, hpos, hk⟩
    rcases h.pos hc hpos with hpos | ⟨pc, hp, hp', -⟩
    · exact ⟨k, hpos, hk⟩
    · exact exiting_of_status hp ((hst _ _ hp hp').symm.trans hk)
  · rintro ⟨k, hpos, hk⟩
    rcases h.stays hc hpos with hpos | ⟨pc', hp, hp', -⟩
    · exact ⟨k, hpos, hk⟩
    · exact exiting_of_status hp' ((hst _ _ hp hp').trans hk)

theorem Move.census_same (h : Move n s c s') (hc : Ctl s) (hd : s.d.Same s'.d) (ht : (s'.cpu c).takes = (s.cpu c).takes)
    (hst : ∀ p pc pc', s.cpu c = .run p pc → s'.cpu c = .run p pc' → pc'.status = pc.status) : census s' = census s := by
  have hrow : ∀ i, (s'.d.proc i).pid = (s.d.proc i).pid ∧ (s'.d.proc i).xstate = (s.d.proc i).xstate ∧
      (s'.d.proc i).parent = (s.d.proc i).parent ∧ (s'.d.proc i).state.kind = (s.d.proc i).state.kind := by
    intro i
    have hr := hd.row i
    simp only [Proc.row, Row.mk.injEq, Forest.Node.mk.injEq] at hr
    exact hr
  have hslot : phase s' = phase s := by
    funext i
    obtain ⟨hpid, hx, -, hk⟩ := hrow i
    exact phase_congr hpid hx hk (h.taken (by rw [ht])) fun st => h.exiting hc (hst i)
  simp only [census, hslot, hd.nextpid, hd.forks, hd.exits, hd.reaps, fun i => (hrow i).2.2.1]

/-- A step of the thread of `p` changes the phase of slot `i` at most. -/
theorem Move.slot_update (h : Move n s c s') (hc : Ctl s) {x : Phase Int} (hp : s.cpu c = .run p pc)
    (hp' : s'.cpu c = .run p pc') (hd : ∀ j, j ≠ i → s'.d.proc j = s.d.proc j)
    (ht : ∀ j, j ≠ i → (pc'.takes = some j ↔ pc.takes = some j)) (hst : p = i ∨ pc'.status = pc.status)
    (hx : phase s' i = x) : phase s' = update (phase s) i x := by
  funext j
  by_cases hj : j = i
  · rw [hj, update_self, hx]
  · rw [update_of_ne hj]
    refine phase_congr (by rw [hd j hj]) (by rw [hd j hj]) (by rw [hd j hj]) (h.taken ?_) fun st => h.exiting hc ?_
    · rw [hp, hp']
      exact ht j hj
    · intro pc₀ pc₁ hk hk'
      rw [hp] at hk
      rw [hp'] at hk'
      cases hk
      cases hk'
      exact hst.resolve_left fun hpi => hj hpi

section Ops

variable (h : Move n s c s') (hc : Ctl s)
include h hc

theorem Move.census_take (hf : Family n s) (hp : s.cpu c = .run p (.at (.forkTest i)))
    (hp' : s'.cpu c = .run p (.at (.forkAlloc i))) (hu : (s.d.proc i).state = .unused)
    (hd : s'.d = Data.set { s.d with nextpid := s.d.nextpid + 1 } i fun q => { q with pid := s.d.nextpid }) :
    Op 0 (census s) (census s') := by
  have hl : Lock.proc i ∈ (s.cpu c).held := by simp [hp, Cpu.held, Pc.held, Kpc.held]
  have hkind : (s.d.proc i).state.kind = .free := by rw [hu]; rfl
  have hfree : phase s i = .free := phase_free hkind (by simp [hc.taken_held hl, hp, Cpu.takes, Pc.takes])
  have htaken : phase s' i = .taken s.d.nextpid := by
    have ht : Taken s' i := (h.taken_held hc hl).2 (by rw [hp']; rfl)
    rw [phase_taken (by simpa [hd, Data.set_same] using hkind) ht, hd, Data.set_same]
  have hslot := h.slot_update hc hp hp' (fun j hj => by rw [hd, Data.set_other _ _ hj])
    (by simp [Pc.takes, eq_comm]) (.inr rfl) htaken
  have hpar : (fun j => (s'.d.proc j).parent) = fun j => (s.d.proc j).parent := by
    rw [hd, parents_set]
    exact update_eq_self ..
  rw [census_eq hslot hpar, hd]
  exact .take hfree (fun j hj => by simpa [Data.node, hkind] using hf.rooted.live hj) (hf.rooted.free i hkind)

theorem Move.census_drop (hf : Family n s) {f : Proc → Proc} (hp : s.cpu c = .run p (.at (.forkAlloc i)))
    (hp' : s'.cpu c = .run p (.at (.forkUnlock i))) (hd : s'.d = s.d.set i f)
    (hu : (f (s.d.proc i)).state = .unused) (hpar : (f (s.d.proc i)).parent = none) : Op 0 (census s) (census s') := by
  have hl : Lock.proc i ∈ (s.cpu c).held := by simp [hp, Cpu.held, Pc.held, Kpc.held]
  have hkind : (s.d.proc i).state.kind = .free := (hf.took_free hc hp).1
  have htaken : phase s i = .taken (s.d.proc i).pid := phase_taken hkind ⟨c, by rw [hp]; rfl⟩
  have hfree : phase s' i = .free := by
    refine phase_free ?_ ?_
    · rw [hd, Data.set_same, hu]
      rfl
    · simp [h.taken_held hc hl, hp', Cpu.takes, Pc.takes]
  have hslot := h.slot_update hc hp hp' (fun j hj => by rw [hd, Data.set_other _ _ hj])
    (fun j hj => by simpa [Pc.takes] using hj.symm) (.inr rfl) hfree
  have hpar : (fun j => (s'.d.proc j).parent) = fun j => (s.d.proc j).parent := by
    rw [hd, parents_set, hpar, ← (hf.took_free hc hp).2, update_eq_self]
  rw [census_eq hslot hpar, hd]
  exact .drop htaken

theorem Move.census_settle (hp : s.cpu c = .run p (.at (.forkAlloc i))) (hp' : s'.cpu c = .run p (.at (.forkUnlock i)))
    (hd : s'.d = Data.set { s.d with forks := ((s.d.proc i).pid, (s.d.proc p).pid) :: s.d.forks } i fun q =>
      { q with parent := some p, context := some .forkret, state := .runnable }) : Op 0 (census s) (census s') := by
  obtain ⟨hrun, hu⟩ : (s.d.proc p).state = .running ∧ (s.d.proc i).state = .unused := hc.run hp
  have hkind : (s.d.proc i).state.kind = .free := by rw [hu]; rfl
  have htaken : phase s i = .taken (s.d.proc i).pid := phase_taken hkind ⟨c, by rw [hp]; rfl⟩
  have hlive : phase s' i = .live (s.d.proc i).pid := by
    -- The slot had no thread, so its thread is not in `exit`.
    have hno : ∀ st, ¬ Exiting s' i st := by
      intro st he
      refine ((h.exiting hc ?_).1 he).used hc hu
      intro pc pc' hk hk'
      rw [hp] at hk
      rw [hp'] at hk'
      cases hk
      cases hk'
      rfl
    rw [phase_live (by rw [hd, Data.set_same]; rfl) hno, hd, Data.set_same]
  have hslot := h.slot_update hc hp hp' (fun j hj => by rw [hd, Data.set_other _ _ hj])
    (fun j hj => by simpa [Pc.takes] using hj.symm) (.inr rfl) hlive
  have hpar : (fun j => (s'.d.proc j).parent) = update (fun j => (s.d.proc j).parent) i (some p) := by
    rw [hd]
    exact parents_set ..
  rw [census_eq hslot hpar, hd]
  exact .settle htaken (phase_on hc hrun hp rfl)

theorem Move.census_adopt {st : Int} {op : Nat} (hp : s.cpu c = .run p (.at (.reparentSet st op i)))
    (hp' : s'.cpu c = .run p (.at (.reparentUnlock st op i)))
    (hd : s'.d = s.d.set i fun q => { q with parent := some 0 }) :
    Op 0 (census s) (census s') := by
  have hslot : phase s' = phase s := by
    funext j
    have hrow : (s'.d.proc j).pid = (s.d.proc j).pid ∧ (s'.d.proc j).xstate = (s.d.proc j).xstate ∧
        (s'.d.proc j).state = (s.d.proc j).state := by
      rw [hd, Data.set_proc]
      split <;> exact ⟨rfl, rfl, rfl⟩
    refine phase_congr hrow.1 hrow.2.1 (by rw [hrow.2.2]) (h.taken (by rw [hp, hp']; rfl)) fun st' => h.exiting hc ?_
    intro pc pc' hk hk'
    rw [hp] at hk
    rw [hp'] at hk'
    cases hk
    cases hk'
    rfl
  have hpar : (fun j => (s'.d.proc j).parent) = update (fun j => (s.d.proc j).parent) i (some 0) := by
    rw [hd]
    exact parents_set ..
  rw [census_eq hslot hpar, hd]
  exact .adopt

theorem Move.census_exit {st : Int} (hp : s.cpu c = .run p (.at (.kern [])))
    (hp' : s'.cpu c = .run p (.at (.exitInit st)))
    (hd : s'.d = { s.d with exits := ((s.d.proc p).pid, st) :: s.d.exits }) : Op 0 (census s) (census s') := by
  have hrun : (s.d.proc p).state = .running := (hc.run hp).1
  have hleave : phase s' p = .leaving (s.d.proc p).pid st := by
    rw [phase_leaving (hc.step h) (by rw [hd, hrun]; rfl) hp' rfl, hd]
  have hslot := h.slot_update hc hp hp' (fun j _ => by rw [hd]) (fun j _ => Iff.rfl) (.inl rfl) hleave
  rw [census_eq hslot rfl, hd]
  exact .exit st (phase_on hc hrun hp rfl)

theorem Move.census_die {st : Int} {op : Nat} (hp : s.cpu c = .run p (.at (.exitZombie st op)))
    (hp' : s'.cpu c = .run p (.at (.exitDrop op)))
    (hd : s'.d = s.d.set p fun q => { q with xstate := st, state := .zombie }) : Op 0 (census s) (census s') := by
  have hrun : (s.d.proc p).state = .running := (hc.run hp).1
  have hleave : phase s p = .leaving (s.d.proc p).pid st := phase_leaving hc (by rw [hrun]; rfl) hp rfl
  have hdead : phase s' p = .dead (s.d.proc p).pid st := by
    rw [phase_dead (by rw [hd, Data.set_same]), hd, Data.set_same]
  have hslot := h.slot_update hc hp hp' (fun j hj => by rw [hd, Data.set_other _ _ hj]) (fun j _ => Iff.rfl) (.inl rfl) hdead
  have hpar : (fun j => (s'.d.proc j).parent) = fun j => (s.d.proc j).parent := by
    rw [hd, parents_set]
    exact update_eq_self ..
  rw [census_eq hslot hpar, hd]
  exact .die hleave

theorem Move.census_reap (hf : Family n s) {ret : Int} (hp : s.cpu c = .run p (.at (.waitTest i)))
    (hp' : s'.cpu c = .run p (.at (.waitDrop i ret))) (hz : (s.d.proc i).state = .zombie)
    (hd : s'.d = Data.set { s.d with
      reaps := ⟨(s.d.proc i).pid, (s.d.proc i).xstate, p, (s.d.proc p).pid, (s.d.proc i).parent⟩ :: s.d.reaps } i Proc.free) :
    Op 0 (census s) (census s') := by
  have hrun : (s.d.proc p).state = .running := (hc.run hp).1
  have hl : Lock.proc i ∈ (s.cpu c).held := by simp [hp, Cpu.held, Pc.held, Kpc.held]
  have hfree : phase s' i = .free := by
    refine phase_free ?_ ?_
    · rw [hd, Data.set_same]
      rfl
    · simp [h.taken_held hc hl, hp', Cpu.takes, Pc.takes]
  have hslot := h.slot_update hc hp hp' (fun j hj => by rw [hd, Data.set_other _ _ hj]) (fun j _ => Iff.rfl) (.inr rfl) hfree
  have hpar : (fun j => (s'.d.proc j).parent) = update (fun j => (s.d.proc j).parent) i none := by
    rw [hd]
    exact parents_set ..
  rw [census_eq hslot hpar, hd]
  exact .reap (phase_dead hz) (hf.mine c p _ i hp rfl) (by show (phase s p).id = _; rw [phase_on hc hrun hp rfl]; rfl)

end Ops

/-- Each step enters nothing in the books, or it is one of those of `Books`. -/
theorem Move.books (h : Move n s c s') (hc : Ctl s) :
    (s.d.Same s'.d ∧ (s'.cpu c).takes = (s.cpu c).takes ∧
      ∀ p pc pc', s.cpu c = .run p pc → s'.cpu c = .run p pc' → pc'.status = pc.status) ∨
    ∃ p pc pc', s.cpu c = .run p pc ∧ s'.cpu c = .run p pc' ∧ Books p s.d pc s'.d pc' := by
  -- No step but those of a thread goes from one place of it to another.
  have hsched : ∀ {k}, s.cpu c = .sched k → ∀ p pc pc', s.cpu c = .run p pc → s'.cpu c = .run p pc' →
      pc'.status = pc.status := by
    intro k hk p pc pc' hp
    cases hk.symm.trans hp
  cases h with
  | @acq p pc l pc' hp ha =>
    refine .inl ⟨.rfl, by simp [hp, Cpu.takes, ha.takes], fun p₁ pc₁ pc₁' hk hk' => ?_⟩
    cases hp.symm.trans hk
    cases (update_self c _ s.cpu).symm.trans hk'
    exact ha.status
  | @rel p pc l pc' hp hr =>
    refine .inl ⟨.rfl, by simp [hp, Cpu.takes, hr.takes], fun p₁ pc₁ pc₁' hk hk' => ?_⟩
    cases hp.symm.trans hk
    cases (update_self c _ s.cpu).symm.trans hk'
    exact hr.status
  | @exec p pc d' pc' hp he => exact .inr ⟨p, pc, pc', hp, update_self .., he.books (hc.run hp)⟩
  | @intr p k free hp =>
    refine .inl ⟨.rfl, ?_, fun p₁ pc₁ pc₁' hk hk' => ?_⟩
    · rw [hp, show (Cpu.run p (.at k)).takes = none from Kpc.free_takes free]
      simp [St.goto, Cpu.takes, Pc.takes]
    · cases hp.symm.trans hk
      cases (update_self c _ s.cpu).symm.trans hk'
      rfl
  | @load p r hp =>
    refine .inl ⟨.rfl, by simp [St.goto, hp, Cpu.takes, Pc.takes], fun p₁ pc₁ pc₁' hk hk' => ?_⟩
    cases (update_self c _ s.cpu).symm.trans hk'
  | @take i hp hr =>
    have hrow : Data.Same s.d (s.d.set i fun q => { q with state := .running }) :=
      .set .rfl (by simp [Proc.row, hr, State.kind])
    exact .inl ⟨hrow, by simp [hp, Cpu.takes], hsched hp⟩
  | @enter i r hp hr =>
    have hrow : Data.Same s.d (s.d.set i fun q => { q with context := none }) := .set .rfl rfl
    exact .inl ⟨hrow, by simp [hp, Cpu.takes, Pc.takes], hsched hp⟩
  | lock hp | skip hp | back hp | unlock hp => exact .inl ⟨.rfl, by simp [St.goto, hp, Cpu.takes], hsched hp⟩

/-- Each step is one of the operations of the census, or leaves it as it is. -/
theorem Move.census (h : Move n s c s') (hc : Ctl s) (hf : Family n s) :
    census s' = census s ∨ Op 0 (census s) (census s') := by
  rcases h.books hc with ⟨hd, ht, hst⟩ | ⟨p, pc, pc', hp, hp', hb⟩
  · exact .inl (h.census_same hc hd ht hst)
  generalize hd : s'.d = d' at hb
  cases hb with
  | same hsame hst ht =>
    refine .inl (h.census_same hc (hd ▸ hsame) (by rw [hp, hp']; exact ht) fun p₁ pc₁ pc₁' hk hk' => ?_)
    cases hp.symm.trans hk
    cases hp'.symm.trans hk'
    exact hst
  | take hu => exact .inr (h.census_take hc hf hp hp' hu hd)
  | settle => exact .inr (h.census_settle hc hp hp' hd)
  | @fail i =>
    have hid : s'.d = s.d.set i id := by rw [hd, Data.set, id, update_eq_self]
    exact .inr (h.census_drop hc hf hp hp' hid (hc.run hp).2 (hf.took_free hc hp).2)
  | undo => exact .inr (h.census_drop hc hf hp hp' hd rfl rfl)
  | exit => exact .inr (h.census_exit hc hp hp' hd)
  | adopt => exact .inr (h.census_adopt hc hp hp' hd)
  | die => exact .inr (h.census_die hc hp hp' hd)
  | reap hz => exact .inr (h.census_reap hc hf hp hp' hz hd)

omit [DecidableEq C] in
theorem census_init : Sound 0 (census (init C)) := by
  have hphase : ∀ i x, (phase (init C) i).id = some x → i = 0 ∧ x = 1 ∧ (phase (init C) i).status = none := by
    intro i x hx
    by_cases hi : i = 0
    · subst hi
      have hl : phase (init C) 0 = .live 1 := phase_live rfl fun st he => by
        obtain ⟨k, ⟨c, pc, hk, -⟩ | ⟨free, hr, -⟩, -⟩ := he
        · cases hk
        · cases hr
      rw [hl] at hx ⊢
      cases hx
      exact ⟨rfl, rfl, rfl⟩
    · have hf : phase (init C) i = .free := by
        refine phase_free (by simp [init, hi, Proc.empty, State.kind]) ?_
        rintro ⟨c, ht⟩
        cases ht
      rw [hf] at hx
      cases hx
  exact {
    lt := fun i x hx => by rw [(hphase i x hx).2.1]; exact Int.lt_succ 1
    uniq := fun i j x hi hj => (hphase i x hi).1.trans (hphase j x hj).1.symm
    exits_lt := fun e he => by cases he
    exits_nodup := List.nodup_nil
    left := fun i x st _ he => by cases he
    noted := fun i x st hx hst => by cases hst.symm.trans (hphase i x hx).2.2
    kin := fun i q x y hp => by
      by_cases hi : i = 0 <;> simp [census, init, Proc.empty, hi] at hp
    gone := fun e he => by cases he
    reaps_nodup := List.nodup_nil
    struck := fun e he => by cases he }

theorem Reach.sound (h : Reach n s) : Sound 0 (census s) := by
  refine (Run.Reach.inv (fun s => Reach n s ∧ Sound 0 (census s)) (fun _ hi => ⟨.init hi, hi ▸ census_init⟩) ?_ h).2
  rintro s₀ e s₁ ⟨hr, hs⟩ hst
  refine ⟨.step hr hst, ?_⟩
  rcases hst.move.census hr.ctl hr.family with heq | hop
  · rw [heq]
    exact hs
  · exact hs.step hop

/-! ## A zombie stays until it is delivered -/

/-- Slot `i` is still the dead process it was. -/
def Kept (s s' : St C) (i : Nat) : Prop :=
  (s'.d.proc i).state = .zombie ∧ (s'.d.proc i).pid = (s.d.proc i).pid ∧ (s'.d.proc i).xstate = (s.d.proc i).xstate

omit [DecidableEq C] in
theorem kept_of_row (hz : (s.d.proc i).state = .zombie) (hr : (s'.d.proc i).row = (s.d.proc i).row) : Kept s s' i := by
  simp only [Proc.row, Row.mk.injEq, Forest.Node.mk.injEq, hz] at hr
  refine ⟨?_, hr.1, hr.2.1⟩
  cases hs : (s'.d.proc i).state <;> simp [hs, State.kind] at hr
  rfl

/-- A dead process changes by the `wait` of its parent that delivers it. -/
theorem Move.zombie (h : Move n s c s') (hc : Ctl s) (hz : (s.d.proc i).state = .zombie) :
    Kept s s' i ∨ ∃ p, s.cpu c = .run p (.at (.waitTest i)) ∧
      s'.d.reaps = ⟨(s.d.proc i).pid, (s.d.proc i).xstate, p, (s.d.proc p).pid, (s.d.proc i).parent⟩ :: s.d.reaps := by
  have hother : ∀ {d : Data} {j : Nat} {f : Proc → Proc}, d.proc = s.d.proc → s'.d = d.set j f →
      (s.d.proc j).state ≠ .zombie → Kept s s' i := by
    intro d j f hproc hd hj
    have hij : i ≠ j := fun hij => hj (hij ▸ hz)
    exact kept_of_row hz (by rw [hd, Data.set_other _ _ hij, hproc])
  rcases h.books hc with ⟨hd, -⟩ | ⟨p, pc, pc', hp, -, hb⟩
  · exact .inl (kept_of_row hz (hd.row i))
  have hfits := hc.run hp
  generalize hd : s'.d = d' at hb
  cases hb with
  | same hsame => exact .inl (kept_of_row hz (by rw [hd]; exact hsame.row i))
  | take hu => exact .inl (hother (d := { s.d with nextpid := s.d.nextpid + 1 }) rfl hd (by simp [hu]))
  | @settle j =>
    have hu : (s.d.proc j).state = .unused := hfits.2
    exact .inl (hother (d := { s.d with forks := ((s.d.proc j).pid, (s.d.proc p).pid) :: s.d.forks }) rfl hd (by simp [hu]))
  | fail => exact .inl (kept_of_row hz (by rw [hd]))
  | @undo j =>
    have hu : (s.d.proc j).state = .unused := hfits.2
    exact .inl (hother rfl hd (by simp [hu]))
  | exit => exact .inl (kept_of_row hz (by rw [hd]))
  | @adopt st op j =>
    have hrow : (s'.d.proc i).state = (s.d.proc i).state ∧ (s'.d.proc i).pid = (s.d.proc i).pid ∧
        (s'.d.proc i).xstate = (s.d.proc i).xstate := by
      rw [hd, Data.set_proc]
      split <;> exact ⟨rfl, rfl, rfl⟩
    exact .inl ⟨hrow.1.trans hz, hrow.2⟩
  | die =>
    have hrun : (s.d.proc p).state = .running := hfits.1
    exact .inl (hother rfl hd (by simp [hrun]))
  | @reap j hj =>
    by_cases hij : i = j
    · subst hij
      exact .inr ⟨p, hp, rfl⟩
    · exact .inl (kept_of_row hz (by rw [hd, Data.set_other _ _ hij]))

theorem Move.reaps (h : Move n s c s') (hc : Ctl s) (hf : Family n s) :
    s'.d.reaps = s.d.reaps ∨ ∃ r : Reap, r.parent = some r.slot ∧ s'.d.reaps = r :: s.d.reaps := by
  rcases h.books hc with ⟨hd, -⟩ | ⟨p, pc, pc', hp, -, hb⟩
  · exact .inl hd.reaps
  generalize hd : s'.d = d' at hb
  cases hb with
  | same hsame => exact .inl hsame.reaps
  | @reap j hj => exact .inr ⟨_, hf.mine c p _ j hp rfl, rfl⟩
  | take | settle | fail | undo | exit | adopt | die => exact .inl rfl

theorem Reach.reaper (h : Reach n s) : ∀ r ∈ s.d.reaps, r.parent = some r.slot := by
  refine (Run.Reach.inv (fun s => Reach n s ∧ ∀ r ∈ s.d.reaps, r.parent = some r.slot)
    (fun _ hi => ⟨.init hi, by rw [hi]; exact fun _ hr => by cases hr⟩) ?_ h).2
  rintro s₀ e s₁ ⟨hr, hs⟩ hst
  refine ⟨.step hr hst, fun r hmem => ?_⟩
  rcases hst.move.reaps hr.ctl hr.family with heq | ⟨r', hpar, heq⟩
  · exact hs r (heq ▸ hmem)
  · rw [heq] at hmem
    rcases List.mem_cons.1 hmem with rfl | hmem
    · exact hpar
    · exact hs r hmem

theorem Reach.trans (h : Reach n s) (hs : Run.Reach (· = s) (Step n) s') : Reach n s' := by
  induction hs with
  | init hi => exact hi ▸ h
  | step _ hst ih => exact .step ih hst

/-- A dead process stays as it is until a `wait` delivers its pid and status. -/
theorem Reach.zombie (h : Reach n s) (hs : Run.Reach (· = s) (Step n) s') (hz : (s.d.proc i).state = .zombie) :
    Kept s s' i ∨ ∃ r ∈ s'.d.reaps, r.pid = (s.d.proc i).pid ∧ r.status = (s.d.proc i).xstate := by
  induction hs with
  | init hi => exact .inl (by rw [hi]; exact ⟨hz, rfl, rfl⟩)
  | @step s₁ e s₂ hs₁ hst ih =>
    have hr := h.trans hs₁
    rcases ih with ⟨hz₁, hpid, hx⟩ | ⟨r, hmem, hr'⟩
    · rcases hst.move.zombie hr.ctl hz₁ with ⟨hz₂, hpid₂, hx₂⟩ | ⟨p, -, heq⟩
      · exact .inl ⟨hz₂, hpid₂.trans hpid, hx₂.trans hx⟩
      · exact .inr ⟨_, heq ▸ List.mem_cons_self .., hpid, hx⟩
    · rcases hst.move.reaps hr.ctl hr.family with heq | ⟨r₂, -, heq⟩
      · exact .inr ⟨r, heq ▸ hmem, hr'⟩
      · exact .inr ⟨r, heq ▸ List.mem_cons_of_mem _ hmem, hr'⟩

/-! ## A `wait` that comes to a zombie delivers it -/

/-- `wait` has not passed slot `i`. -/
def Pc.Seeks (i : Nat) : Pc → Prop
  | .at (.waitScan j _) | .at (.waitKid j _) | .at (.waitTest j) => j ≤ i
  | .at (.waitNext j) => j < i
  | _ => False

theorem Pc.Seeks.held (h : pc.Seeks i) (q : Nat) : Lock.proc q ∈ pc.held q := by
  cases pc with
  | «at» k => cases k <;> simp_all [Pc.Seeks, Pc.held, Kpc.held]
  | yieldLock | yieldState | save | load | resume => exact h.elim

/-- `wait` has come to a dead child not behind slot `i`. -/
def Pc.Found (i : Nat) (pc : Pc) : Prop := ∃ j ret, j ≤ i ∧ pc = .at (.waitDrop j ret)

variable {q : Nat}

theorem Acq.seeks (h : Acq n q pc l pc') (hs : pc.Seeks i) : pc'.Seeks i := by
  cases h
  case waitKid => exact hs
  all_goals exact hs.elim

theorem Rel.seeks (h : Rel q pc l pc') (hs : pc.Seeks i) : pc'.Seeks i := by
  cases h
  case waitNext => exact hs
  all_goals exact hs.elim

theorem Exec.seeks {d d' : Data} (h : Exec n q d pc d' pc') (hs : pc.Seeks i) (hi : i < n)
    (hp : (d.proc i).parent = some q) (hz : (d.proc i).state = .zombie) : pc'.Seeks i ∧ d' = d ∨ pc'.Found i := by
  cases h
  case waitHit => exact .inl ⟨hs, rfl⟩
  case waitSkip j kids hj hpar =>
    have hne : j ≠ i := fun hji => hpar (hji ▸ hp)
    exact .inl ⟨Nat.lt_of_le_of_ne hs hne, rfl⟩
  case waitNone j kids hj _ => exact absurd (Nat.le_trans hj hs) (Nat.not_le.2 hi)
  case waitSleep j kids hj _ _ => exact absurd (Nat.le_trans hj hs) (Nat.not_le.2 hi)
  case reap j hj => exact .inr ⟨j, _, hs, rfl⟩
  case reapFail j hj => exact .inr ⟨j, _, hs, rfl⟩
  case waitAlive j hj =>
    have hne : j ≠ i := fun hji => hj (hji ▸ hz)
    exact .inl ⟨Nat.lt_of_le_of_ne hs hne, rfl⟩
  all_goals exact hs.elim

/-- The scan of `wait` goes on towards a dead child, which nobody else takes away. -/
theorem Move.seeks (h : Move n s c s') (hc : Ctl s) (hf : Family n s) {c₀ : C}
    (hk : s.cpu c₀ = .run q pc) (hs : pc.Seeks i) (hp : (s.d.proc i).parent = some q)
    (hz : (s.d.proc i).state = .zombie) :
    ∃ pc', s'.cpu c₀ = .run q pc' ∧
      (pc'.Seeks i ∧ (s'.d.proc i).parent = some q ∧ (s'.d.proc i).state = .zombie ∨ pc'.Found i) := by
  by_cases hcc : c₀ = c
  · subst hcc
    cases h with
    | acq hp' ha =>
      cases hp'.symm.trans hk
      exact ⟨_, update_self .., .inl ⟨ha.seeks hs, hp, hz⟩⟩
    | rel hp' hr =>
      cases hp'.symm.trans hk
      exact ⟨_, update_self .., .inl ⟨hr.seeks hs, hp, hz⟩⟩
    | exec hp' he =>
      cases hp'.symm.trans hk
      refine ⟨_, update_self .., ?_⟩
      rcases he.seeks hs (hf.bound i (by simp [hp])) hp hz with ⟨hs', rfl⟩ | hfound
      · exact .inl ⟨hs', hp, hz⟩
      · exact .inr hfound
    | intr free hp' =>
      cases hp'.symm.trans hk
      have hl := hs.held q
      simp [Pc.held, Kpc.held_free free] at hl
    | load hp' =>
      cases hp'.symm.trans hk
      exact hs.elim
    | lock hp' | take hp' | skip hp' | enter hp' | back hp' | unlock hp' => cases hp'.symm.trans hk
  · have hother : ∀ pc', s.cpu c ≠ .run q pc' := fun pc' hk' =>
      hcc (hc.uniq (p := q) (by rw [hk]; rfl) (by rw [hk']; rfl))
    refine ⟨pc, by rw [h.cpu_other hcc]; exact hk, .inl ⟨hs, ?_, ?_⟩⟩
    · rcases hf.parents hc h i with hsame | ⟨p, pc', hp', ⟨hnone, -⟩ | ⟨hpar, -⟩⟩
      · exact hsame.trans hp
      · simp [hnone] at hp
      · cases hpar.symm.trans hp
        exact absurd hp' (hother pc')
    · rcases h.zombie hc hz with hkept | ⟨p, hp', -⟩
      · exact hkept.1
      · cases (hf.mine c p _ i hp' rfl).symm.trans hp
        exact absurd hp' (hother _)

/-- A `wait` that has begun with a dead child in slot `i` comes to it, or to one before it. -/
theorem Reach.seeks (h : Reach n s) {kids : Bool} (hk : s.cpu c = .run q (.at (.waitScan 0 kids)))
    (hp : (s.d.proc i).parent = some q) (hz : (s.d.proc i).state = .zombie)
    (hs : Run.Reach (· = s) (Run.When (Step n) fun s₁ _ => ∀ pc, s₁.cpu c = .run q pc → ¬ pc.Found i) s') :
    ∃ pc', s'.cpu c = .run q pc' ∧
      (pc'.Seeks i ∧ (s'.d.proc i).parent = some q ∧ (s'.d.proc i).state = .zombie ∨ pc'.Found i) := by
  induction hs with
  | init hi => exact hi ▸ ⟨_, hk, .inl ⟨Nat.zero_le i, hp, hz⟩⟩
  | @step s₁ e s₂ hs₁ hst ih =>
    have hr := h.trans hs₁.of_when
    obtain ⟨pc, hk₁, ⟨hseek, hp₁, hz₁⟩ | hfound⟩ := ih
    · exact hst.2.move.seeks hr.ctl hr.family hk₁ hseek hp₁ hz₁
    · exact absurd hfound (hst.1 pc hk₁)

theorem next_release {k : Kpc} (hk : s.cpu c = .run q (.at k)) (ha : k.acq n q = none)
    (hr : k.rel q = some (l, pc)) (hl : s.lock l = some c) :
    s.next n c .go =
      some { s with cpu := update s.cpu c (.run q pc), lock := update s.lock l none } := by
  simp [St.next, hk, St.run, Pc.acq, ha, Pc.rel, hr, St.release, hl]

theorem wait_returns (ret : Int) (hk : s.cpu c = .run q (.at (.waitDrop i ret))) (hi : s.lock (.proc i) = some c)
    (hq : s.lock (.proc q) = some c) (hne : q ≠ i) :
    ∃ s', s.steps n (fun _ _ => true)
    [(c, .go), (c, .go)] = some s' ∧ s'.cpu c = .run q (.at (.waited ret)) ∧ s'.d = s.d := by
  let s₁ : St C := { s with
    cpu := update s.cpu c (.run q (.at (.waitUnlock ret))), lock := update s.lock (.proc i) none }
  have h1 : s.next n c .go = some s₁ := next_release hk rfl rfl hi
  have h2 := next_release (n := n) (s := s₁) (update_self ..) rfl rfl (by simp [s₁, hne, hq])
  have hs : s.steps n (fun _ _ => true) [(c, .go), (c, .go)] = s₁.next n c .go := by simp [St.steps, h1]
  exact ⟨_, hs.trans h2, update_self .., rfl⟩

/-- What `wait` does once it has come to a dead child: the copy of the status fails, or it does not. -/
theorem Ctl.wait_ends (hc : Ctl s) (hk : s.cpu c = .run q (.at (.waitTest i))) (hz : (s.d.proc i).state = .zombie) :
    (∃ s', s.steps n (fun _ _ => true) [(c, .fail), (c, .go), (c, .go)] = some s' ∧
      s'.cpu c = .run q (.at (.waited (-1))) ∧ s'.d = s.d) ∧
    ∃ s', s.steps n (fun _ _ => true) [(c, .go), (c, .go), (c, .go)] = some s' ∧
      s'.cpu c = .run q (.at (.waited (s.d.proc i).pid)) ∧
      s'.d.reaps = ⟨(s.d.proc i).pid, (s.d.proc i).xstate, q, (s.d.proc q).pid, (s.d.proc i).parent⟩ :: s.d.reaps := by
  have hi : s.lock (.proc i) = some c := (hc.locks.owner _ c).2 (by simp [hk, Cpu.held, Pc.held, Kpc.held])
  have hq : s.lock (.proc q) = some c := (hc.locks.owner _ c).2 (by simp [hk, Cpu.held, Pc.held, Kpc.held])
  have hne : q ≠ i := by
    rintro rfl
    have hnd := hc.locks.nodup c
    simp [hk, Cpu.held, Pc.held, Kpc.held] at hnd
  have hnext : ∀ a x, a ≠ .intr → s.d.reap q i a = some x → s.next n c a =
      some { s with cpu := update s.cpu c (.run q (.at (.waitDrop i x.2))), d := x.1 } := by
    intro a x ha hx
    simp [St.next, hk, ha, St.run, Pc.acq, Kpc.acq, Pc.rel, Kpc.rel, Pc.exec, Kpc.exec, hz, hx]
  constructor
  · obtain ⟨s', hs', hret, hd⟩ := wait_returns (n := n) (q := q) (-1)
      (s := { s with cpu := update s.cpu c (.run q (.at (.waitDrop i (-1)))) }) (update_self ..) hi hq hne
    exact ⟨s', by rw [St.steps, if_pos rfl, hnext .fail _ (by decide) rfl]; exact hs', hret, hd⟩
  · obtain ⟨x, hx, hret, hreaps⟩ : ∃ x, s.d.reap q i .go = some x ∧ x.2 = (s.d.proc i).pid ∧ x.1.reaps =
        ⟨(s.d.proc i).pid, (s.d.proc i).xstate, q, (s.d.proc q).pid, (s.d.proc i).parent⟩ :: s.d.reaps :=
      ⟨_, rfl, rfl, rfl⟩
    obtain ⟨s', hs', hret', hd⟩ := wait_returns (n := n) (q := q) x.2
      (s := { s with cpu := update s.cpu c (.run q (.at (.waitDrop i x.2))), d := x.1 })
      (update_self ..) hi hq hne
    exact ⟨s', by rw [St.steps, if_pos rfl, hnext .go x (by decide) hx]; exact hs', hret ▸ hret', by rw [hd, hreaps]⟩

/-- Every process has a parent that lives, and every exit is delivered at most
once, with its status, to the parent; a `wait` that fails leaves the dead child
as it is, until a `wait` delivers it; and a `wait` comes to it. -/
theorem exited_child_reaped_once (h : Reach n s) :
    (∀ p, p ≠ 0 → (s.d.proc p).state ≠ .unused →
      ∃ q, (s.d.proc p).parent = some q ∧ (s.d.proc q).state ≠ .unused ∧ (s.d.proc q).state ≠ .zombie) ∧
    ((s.d.exits.map Prod.fst).Nodup ∧ (s.d.reaps.map Reap.pid).Nodup ∧
      ∀ r ∈ s.d.reaps, (r.pid, r.status) ∈ s.d.exits ∧ r.parent = some r.slot ∧
        ((r.pid, r.waiter) ∈ s.d.forks ∨ r.slot = 0)) ∧
    (∀ c q i, s.cpu c = .run q (.at (.waitTest i)) → (s.d.proc i).state = .zombie →
      (∃ s', s.steps n (fun _ _ => true) [(c, .fail), (c, .go), (c, .go)] = some s' ∧
        s'.cpu c = .run q (.at (.waited (-1))) ∧ s'.d = s.d) ∧
      ∃ s', s.steps n (fun _ _ => true) [(c, .go), (c, .go), (c, .go)] = some s' ∧
        s'.cpu c = .run q (.at (.waited (s.d.proc i).pid)) ∧
        s'.d.reaps = ⟨(s.d.proc i).pid, (s.d.proc i).xstate, q, (s.d.proc q).pid, (s.d.proc i).parent⟩ :: s.d.reaps) ∧
    (∀ i s', (s.d.proc i).state = .zombie → Run.Reach (· = s) (Step n) s' →
      Kept s s' i ∨ ∃ r ∈ s'.d.reaps, r.pid = (s.d.proc i).pid ∧ r.status = (s.d.proc i).xstate) ∧
    ∀ c q i kids s', s.cpu c = .run q (.at (.waitScan 0 kids)) → (s.d.proc i).parent = some q →
      (s.d.proc i).state = .zombie →
      Run.Reach (· = s) (Run.When (Step n) fun s₁ _ => ∀ pc, s₁.cpu c = .run q pc → ¬ pc.Found i) s' →
      ∃ pc, s'.cpu c = .run q pc ∧
        (pc.Seeks i ∧ (s'.d.proc i).parent = some q ∧ (s'.d.proc i).state = .zombie ∨ pc.Found i) := by
  have hs := h.sound
  refine ⟨fun p hp hu => ?_, ⟨hs.exits_nodup, ?_, fun r hr => ?_⟩, fun c q i hk hz => h.ctl.wait_ends hk hz,
    fun i s' hz hs' => h.zombie hs' hz, fun c q i kids s' hk hp hz hs' => h.seeks hk hp hz hs'⟩
  · have hkind : (s.d.node p).kind ≠ .free := by
      cases hst : (s.d.proc p).state <;> simp_all [Data.node, State.kind]
    obtain ⟨q, hq, hl⟩ := h.family.rooted.kin p hp hkind
    exact ⟨q, hq, fun hu => by simp [Data.node, hu, State.kind] at hl, fun hz => by simp [Data.node, hz, State.kind] at hl⟩
  · have hnd := hs.reaps_nodup
    rwa [census, List.map_map] at hnd
  · obtain ⟨hex, hby⟩ := hs.struck r.entry (List.mem_map_of_mem hr)
    exact ⟨hex, h.reaper r hr, hby⟩

end Census

/-- A grandchild of `initproc` has exited with status 7 and its parent has waited for it. -/
theorem exited_child_reaped_once_grandchild : ∃ s : St Bool, Reach 3 s ∧
    (s.d.reaps.map fun r => (r.pid, r.status, r.waiter)) = [(3, 7, 2)] ∧ (3, 7) ∈ s.d.exits ∧
    ∃ q, (s.d.proc 1).parent = some q ∧ (s.d.proc q).state ≠ .unused ∧ (s.d.proc q).state ≠ .zombie := by
  obtain ⟨s, hs, hf⟩ := reach_of_steps (n := 3)
    (f := fun s => (s.d.reaps.map fun r => (r.pid, r.status, r.waiter)) = [(3, 7, 2)] ∧ (s.d.proc 1).state ≠ .unused)
    (waiting ++ .replicate 4 (true, .go) ++ (true, .exit 7) :: .replicate 33 (true, .go)) (by decide)
  obtain ⟨hr, hu⟩ := of_decide_eq_true hf
  obtain ⟨hpar, ⟨-, -, hreaps⟩, -⟩ := exited_child_reaped_once hs
  have hmem : ((3 : Int), (7 : Int), (2 : Int)) ∈ s.d.reaps.map fun r => (r.pid, r.status, r.waiter) := by simp [hr]
  obtain ⟨r, hr', heq⟩ := List.mem_map.1 hmem
  simp only [Prod.mk.injEq] at heq
  refine ⟨s, hs, hr, ?_, hpar 1 (by decide) hu⟩
  rw [← heq.1, ← heq.2.1]
  exact (hreaps r hr').1

end Xv6.Sched
