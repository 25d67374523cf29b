import Xv6.Lib.Forest
import Xv6.Sched.Sleep
/-!
# Parents and children

The process table as a forest kept by `initproc`. `np->parent` is read without
`np->lock` in `wait` and `reparent`; what makes this sound is that only the
parent's own thread changes it.
-/

open Function

namespace Xv6.Sched

open Forest (Kind Node Op Rooted)

def State.kind : State → Kind
  | .unused => .free
  | .zombie => .dead
  | _ => .live

def Data.node (d : Data) (i : Nat) : Node Nat := ⟨(d.proc i).parent, (d.proc i).state.kind⟩

theorem Data.node_set (d : Data) (i : Nat) (f : Proc → Proc) :
    (d.set i f).node = update d.node i ⟨(f (d.proc i)).parent, (f (d.proc i)).state.kind⟩ := by
  funext j
  simp only [Data.node, Data.set_proc, update_apply]
  split
  · next h => rw [h]
  · rfl

variable {d : Data} {k : Kpc} {j : Nat} {l : Lock}

theorem Data.node_set_same {i : Nat} {f : Proc → Proc} (hp : (f (d.proc i)).parent = (d.proc i).parent)
    (hk : (f (d.proc i)).state.kind = (d.proc i).state.kind) : (d.set i f).node = d.node := by
  rw [Data.node_set, hp, hk]
  exact update_eq_self i d.node

/-! ## What a step does to the books -/

/-- What `fork`, `exit` and `wait` are about in a slot. -/
structure Row where
  pid : Int
  xstate : Int
  node : Node Nat

def Proc.row (q : Proc) : Row := ⟨q.pid, q.xstate, ⟨q.parent, q.state.kind⟩⟩

structure Data.Same (d d' : Data) : Prop where
  row : ∀ i, (d'.proc i).row = (d.proc i).row
  nextpid : d'.nextpid = d.nextpid
  forks : d'.forks = d.forks
  exits : d'.exits = d.exits
  reaps : d'.reaps = d.reaps

theorem Data.Same.rfl : d.Same d := ⟨fun _ => .refl _, .refl _, .refl _, .refl _, .refl _⟩

theorem Data.Same.set {d₀ : Data} {i : Nat} {f : Proc → Proc} (h : d.Same d₀)
    (hf : (f (d₀.proc i)).row = (d₀.proc i).row) :
    d.Same (d₀.set i f) where
  row j := by
    rw [Data.set_proc]
    split
    · next hj => rw [hj, hf, h.row]
    · exact h.row j
  nextpid := h.nextpid
  forks := h.forks
  exits := h.exits
  reaps := h.reaps

theorem Proc.wake_kind (ch : Option Chan) (q : Proc) : (q.wake ch).state.kind = q.state.kind := by
  unfold Proc.wake
  split
  · next h => rw [h.1]; rfl
  · rfl

theorem Proc.wake_row (ch : Option Chan) (q : Proc) : (q.wake ch).row = q.row := by
  rw [Proc.row, Proc.wake_kind]
  unfold Proc.wake
  split <;> rfl

/-- The place of the kernel code, also while `yield` runs for a timer interrupt. -/
def Pc.base : Pc → Option Kpc
  | .at k => some k
  | .yieldLock b _ | .yieldState b _ | .save (.yielded b _) | .load (.yielded b _) | .resume (.yielded b _) => some b
  | _ => none

/-- The status of the `exit` a thread is in. -/
def Kpc.status : Kpc → Option Int
  | .exitInit st | .exitInitWake st | .exitInitUnlock st | .exitLock st | .exitCopy st | .exitUnlock st _
  | .exitParent st _ | .exitSelf st _ | .reparent st _ _ | .reparentLock st _ _ | .reparentSet st _ _
  | .reparentUnlock st _ _ | .exitWake st _ | .exitZombie st _ => some st
  | _ => none

def Pc.status (pc : Pc) : Option Int := pc.base.bind Kpc.status

/-- The slot to which `allocproc` has given a pid. -/
def Pc.takes : Pc → Option Nat
  | .at (.forkAlloc i) => some i
  | _ => none

/-- What a step of the thread of slot `p` enters in the books. -/
inductive Books (p : Nat) (d : Data) : Pc → Data → Pc → Prop
  | same {pc d' pc'} : d.Same d' → pc'.status = pc.status → pc'.takes = pc.takes → Books p d pc d' pc'
  | take {i} : (d.proc i).state = .unused →
      Books p d (.at (.forkTest i))
        (Data.set { d with nextpid := d.nextpid + 1 } i fun q => { q with pid := d.nextpid }) (.at (.forkAlloc i))
  | settle {i} :
      Books p d (.at (.forkAlloc i))
        (Data.set { d with forks := ((d.proc i).pid, (d.proc p).pid) :: d.forks } i fun q =>
          { q with parent := some p, context := some .forkret, state := .runnable })
        (.at (.forkUnlock i))
  | fail {i} : Books p d (.at (.forkAlloc i)) d (.at (.forkUnlock i))
  | undo {i} : Books p d (.at (.forkAlloc i)) (d.set i Proc.free) (.at (.forkUnlock i))
  | exit {st} : Books p d (.at (.kern [])) { d with exits := ((d.proc p).pid, st) :: d.exits } (.at (.exitInit st))
  | adopt {st op i} :
      Books p d (.at (.reparentSet st op i)) (d.set i fun q => { q with parent := some 0 })
        (.at (.reparentUnlock st op i))
  | die {st op} :
      Books p d (.at (.exitZombie st op)) (d.set p fun q => { q with xstate := st, state := .zombie }) (.at (.exitDrop op))
  | reap {i} : (d.proc i).state = .zombie →
      Books p d (.at (.waitTest i))
        (Data.set { d with
          reaps := ⟨(d.proc i).pid, (d.proc i).xstate, p, (d.proc p).pid, (d.proc i).parent⟩ :: d.reaps } i Proc.free)
        (.at (.waitDrop i (d.proc i).pid))

theorem Exec.books {n p : Nat} {d' : Data} {pc pc' : Pc} (h : Exec n p d pc d' pc') (hf : Fits d (.run p pc)) :
    Books p d pc d' pc' := by
  have hon := hf.1
  have hmarks : ∀ l, d.Same { d with marks := l } := fun l => ⟨fun _ => rfl, rfl, rfl, rfl, rfl⟩
  cases h
  case forkTake hu => exact .take hu
  case forkDone => exact .settle
  case forkFail => exact .fail
  case forkUndo => exact .undo
  case exit => exact .exit
  case reparentSet => exact .adopt
  case exitZombie => exact .die
  case reap hz => exact .reap hz
  case wakeTest ch i b => exact .same (.set .rfl (Proc.wake_row (some ch) _)) rfl rfl
  case exitInitWake => exact .same (.set .rfl (Proc.wake_row _ _)) rfl rfl
  case exitWake => exact .same (.set .rfl (Proc.wake_row _ _)) rfl rfl
  case killHit pid i hpid => exact .same ((hmarks _).set (Proc.wake_row none (d.proc i))) rfl rfl
  case fault => exact .same ((hmarks _).set rfl) rfl rfl
  case sleepChan => exact .same (.set .rfl rfl) rfl rfl
  case slept w => cases w <;> exact .same (.set .rfl rfl) rfl rfl
  case save r => cases r <;> exact .same (.set .rfl rfl) rfl rfl
  case sleepState w => exact .same (.set .rfl (by simp [Proc.row, hon.1, State.kind])) rfl rfl
  case yieldState =>
    have hrun : (d.proc p).state = .running := hon
    exact .same (.set .rfl (by simp [Proc.row, hrun, State.kind])) rfl rfl
  case woken b => cases b <;> exact .same .rfl rfl rfl
  all_goals exact .same .rfl rfl rfl

/-! ## What a step does to the forest -/

inductive Grow (p : Nat) (t : Nat → Node Nat) : Pc → (Nat → Node Nat) → Pc → Prop
  | same {pc pc'} : Grow p t pc t pc'
  | born {i} : Grow p t (.at (.forkAlloc i)) (update t i ⟨some p, .live⟩) (.at (.forkUnlock i))
  | undo {i} : Grow p t (.at (.forkAlloc i)) (update t i ⟨none, .free⟩) (.at (.forkUnlock i))
  | adopt {st op i} : Grow p t (.at (.reparentSet st op i)) (update t i ⟨some 0, (t i).kind⟩)
      (.at (.reparentUnlock st op i))
  | die {st op} : Grow p t (.at (.exitZombie st op)) (update t p ⟨(t p).parent, .dead⟩) (.at (.exitDrop op))
  | reap {i ret} : (t i).kind = .dead →
      Grow p t (.at (.waitTest i)) (update t i ⟨none, .free⟩) (.at (.waitDrop i ret))

theorem Exec.grow {n p : Nat} {d' : Data} {pc pc' : Pc} (h : Exec n p d pc d' pc') (hf : Fits d (.run p pc)) :
    Grow p d.node pc d'.node pc' := by
  cases h.books hf with
  | same hs =>
    have hnode : d'.node = d.node := funext fun i => congrArg Row.node (hs.row i)
    rw [hnode]
    exact .same
  | take hu => rw [Data.node_set_same rfl rfl]; exact .same
  | fail | exit => exact .same
  | settle => rw [Data.node_set]; exact .born
  | undo => rw [Data.node_set]; exact .undo
  | adopt => rw [Data.node_set]; exact .adopt
  | die => rw [Data.node_set]; exact .die
  | @reap i hz => rw [Data.node_set]; exact .reap (by rw [Data.node, hz]; rfl)

section Step

variable {C : Type} [DecidableEq C] {n : Nat} {s s' : St C} {c : C} {p : Nat}

theorem Move.grow (h : Move n s c s') (hc : Ctl s) : s'.d.node = s.d.node ∨
    ∃ p pc pc', s.cpu c = .run p pc ∧ s'.cpu c = .run p pc' ∧ Grow p s.d.node pc s'.d.node pc' := by
  cases h with
  | exec hp he => exact .inr ⟨_, _, _, hp, update_self .., he.grow (hc.run hp)⟩
  | @take i hp hr =>
    have hsame : (s.d.set i fun q => { q with state := .running }).node = s.d.node :=
      Data.node_set_same rfl (by rw [hr]; rfl)
    exact .inl hsame
  | @enter i r hp hr =>
    have hsame : (s.d.set i fun q => { q with context := none }).node = s.d.node := Data.node_set_same rfl rfl
    exact .inl hsame
  | _ => exact .inl rfl

/-! ## Where a thread is, preempted or not -/

/-- The thread of `p` is at `k`, on a CPU or preempted there. -/
def Pos (s : St C) (p : Nat) (k : Kpc) : Prop :=
  (∃ c pc, s.cpu c = .run p pc ∧ pc.base = some k) ∨
    ∃ free, (s.d.proc p).context = some (.yielded k free) ∧ (s.d.proc p).state.kind = .live ∧ ∀ c pc, s.cpu c ≠ .run p pc

theorem Touch.yielded {p' : Nat} {q q' : Proc} {free} (h : Touch p' q q')
    (hr : q'.context = some (.yielded k free)) (hl : q'.state.kind = .live) :
    q.context = some (.yielded k free) ∧ q.state.kind = .live := by
  have hw : ∀ ch, (q.wake ch).context = q.context := by
    intro ch
    unfold Proc.wake
    split <;> rfl
  cases h with
  | same | adopt | alloc => exact ⟨hr, hl⟩
  | wake ch => exact ⟨hw ch ▸ hr, Proc.wake_kind ch q ▸ hl⟩
  | kill => exact ⟨hw none ▸ hr, Proc.wake_kind none q ▸ hl⟩
  | born => cases hr
  | free => cases hl

theorem Move.preempted (h : Move n s c s') (hc : Ctl s) {free}
    (hr : (s'.d.proc p).context = some (.yielded k free)) (hl : (s'.d.proc p).state.kind = .live)
    (hno : ∀ c pc, s'.cpu c ≠ .run p pc) : Pos s p k := by
  by_cases hrun : ∃ pc, s.cpu c = .run p pc
  · obtain ⟨pc, hk⟩ := hrun
    obtain ⟨r, rfl, rfl⟩ := h.left hk fun pc' => hno c pc'
    have hon := (hc.run hk).1.2.2
    rw [show (s.d.proc p).context = some (.yielded k free) from hr] at hon
    cases hon
    exact .inl ⟨c, _, hk, rfl⟩
  have hidle : ∀ c' pc, s.cpu c' ≠ .run p pc := by
    intro c' pc hk
    by_cases hcc : c' = c
    · exact hrun ⟨pc, hcc ▸ hk⟩
    · exact hno c' pc (by rw [h.cpu_other hcc]; exact hk)
  right
  cases h with
  | @exec p' pc d' pc' hp he =>
    have hj : p ≠ p' := fun h => hidle c pc (h ▸ hp)
    obtain ⟨h1, h2⟩ := (he.touch (hc.run hp).2 (.inl hj)).yielded hr hl
    exact ⟨free, h1, h2, hidle⟩
  | @take i hp hrun =>
    by_cases hpi : p = i
    · subst hpi
      simp only [Data.set_same] at hr
      exact ⟨free, hr, by rw [hrun]; rfl, hidle⟩
    · simp only [Data.set_other _ _ hpi] at hr hl
      exact ⟨free, hr, hl, hidle⟩
  | @enter i r hp hr' =>
    have hpi : p ≠ i := fun h => hno c (.resume r) (by simp [h])
    simp only [Data.set_other _ _ hpi] at hr hl
    exact ⟨free, hr, hl, hidle⟩
  | acq | rel | intr | load | lock | skip | back | unlock => exact ⟨free, hr, hl, hidle⟩

/-- A step of the thread of `p` to the place `k`. -/
def Arrives (n : Nat) (s : St C) (c : C) (s' : St C) (p : Nat) (k : Kpc) : Prop :=
  ∃ pc, s.cpu c = .run p pc ∧ s'.cpu c = .run p (.at k) ∧
    ((∃ l, Acq n p pc l (.at k) ∧ s'.d = s.d) ∨ (∃ l, Rel p pc l (.at k) ∧ s'.d = s.d) ∨ Exec n p s.d pc s'.d (.at k))

theorem Move.pos (h : Move n s c s') (hc : Ctl s) (hpos : Pos s' p k) : Pos s p k ∨ Arrives n s c s' p k := by
  rcases hpos with ⟨c', pc, hk, hb⟩ | ⟨free, hr, hl, hno⟩
  · by_cases hcc : c' = c
    · subst hcc
      obtain ⟨pc₀, l, hp, ha, hd⟩ | ⟨pc₀, l, hp, hr, hd⟩ | ⟨pc₀, hp, he⟩ | ⟨k', free, hp, rfl, -⟩ | ⟨r, hp, hr, rfl, -⟩ :=
        h.run hk
      · cases pc with
        | «at» k' => cases hb; exact .inr ⟨pc₀, hp, hk, .inl ⟨l, ha, hd⟩⟩
        | yieldState b free => cases ha; exact .inl (.inl ⟨c', _, hp, hb⟩)
        | yieldLock | save | load | resume => cases ha
      · cases pc with
        | «at» k' => cases hb; exact .inr ⟨pc₀, hp, hk, .inr (.inl ⟨l, hr, hd⟩)⟩
        | save r => cases hr; cases hb
        | yieldLock | yieldState | load | resume => cases hr
      · cases pc with
        | «at» k' => cases hb; exact .inr ⟨pc₀, hp, hk, .inr (.inr he)⟩
        | save r =>
          generalize s'.d = d' at he
          cases he
          case sleepState => cases hb
          case yieldState => exact .inl (.inl ⟨c', _, hp, hb⟩)
        | load r =>
          generalize s'.d = d' at he
          cases he
          exact .inl (.inl ⟨c', _, hp, by cases r <;> exact hb⟩)
        | yieldLock | yieldState | resume =>
          generalize s'.d = d' at he
          cases he
      · exact .inl (.inl ⟨c', _, hp, hb⟩)
      · cases r with
        | yielded b free =>
          cases hb
          have hf : Fits s.d (.sched (.enter p)) := hp ▸ hc.fits c'
          refine .inl (.inr ⟨free, hr, by rw [hf.1]; rfl, fun c₁ pc₁ hk₁ => ?_⟩)
          have hcc : c₁ = c' := hc.uniq (p := p) (by rw [hk₁]; rfl) (by rw [hp]; rfl)
          rw [hcc, hp] at hk₁
          cases hk₁
        | slept | dead | forkret => cases hb
    · rw [h.cpu_other hcc] at hk
      exact .inl (.inl ⟨c', pc, hk, hb⟩)
  · exact .inl (h.preempted hc hr hl hno)

/-- A step of the thread of `p` from the place `k`. -/
def Departs (n : Nat) (s : St C) (c : C) (s' : St C) (p : Nat) (k : Kpc) : Prop :=
  ∃ pc', s.cpu c = .run p (.at k) ∧ s'.cpu c = .run p pc' ∧
    ((∃ l, Acq n p (.at k) l pc' ∧ s'.d = s.d) ∨ (∃ l, Rel p (.at k) l pc' ∧ s'.d = s.d) ∨ Exec n p s.d (.at k) s'.d pc')

theorem Touch.stays {p' : Nat} {q q' : Proc} (h : Touch p' q q') (hl : q.state.kind = .live) :
    q'.context = q.context ∧ q'.state.kind = .live := by
  have hw : ∀ ch, (q.wake ch).context = q.context := by
    intro ch
    unfold Proc.wake
    split <;> rfl
  cases h with
  | same | adopt | alloc => exact ⟨rfl, hl⟩
  | wake ch => exact ⟨hw ch, (Proc.wake_kind ch q).trans hl⟩
  | kill => exact ⟨hw none, (Proc.wake_kind none q).trans hl⟩
  | born hu => simp [hu, State.kind] at hl
  | free hu => rcases hu with hu | hu <;> simp [hu, State.kind] at hl

/-- A preempted thread stays where it is, also when a CPU switches to it. -/
theorem Move.stays_off (h : Move n s c s') (hc : Ctl s) {free}
    (hr : (s.d.proc p).context = some (.yielded k free)) (hl : (s.d.proc p).state.kind = .live)
    (hno : ∀ c pc, s.cpu c ≠ .run p pc) : Pos s' p k := by
  by_cases hrun : ∃ pc, s'.cpu c = .run p pc
  · obtain ⟨pc, hk⟩ := hrun
    obtain ⟨pc₀, l, hp, -⟩ | ⟨pc₀, l, hp, -⟩ | ⟨pc₀, hp, -⟩ | ⟨k', free', hp, -⟩ | ⟨r, -, hr', rfl, -⟩ := h.run hk
    · exact absurd hp (hno c _)
    · exact absurd hp (hno c _)
    · exact absurd hp (hno c _)
    · exact absurd hp (hno c _)
    · cases hr'.symm.trans hr
      exact .inl ⟨c, _, hk, rfl⟩
  have hidle : ∀ c' pc, s'.cpu c' ≠ .run p pc := by
    intro c' pc hk
    by_cases hcc : c' = c
    · exact hrun ⟨pc, hcc ▸ hk⟩
    · exact hno c' pc (by rw [← h.cpu_other hcc]; exact hk)
  right
  cases h with
  | @exec p' pc d' pc' hp he =>
    have hj : p ≠ p' := fun h => hno c pc (h ▸ hp)
    obtain ⟨h1, h2⟩ := (he.touch (hc.run hp).2 (.inl hj)).stays hl
    exact ⟨free, h1.trans hr, h2, hidle⟩
  | @take i hp hrun' =>
    by_cases hpi : p = i
    · subst hpi
      exact ⟨free, by simp [Data.set_same, hr], by simp [Data.set_same, State.kind], hidle⟩
    · exact ⟨free, by simp [Data.set_other _ _ hpi, hr], by simp [Data.set_other _ _ hpi, hl], hidle⟩
  | @enter i r hp hr' =>
    have hpi : p ≠ i := fun h => hrun ⟨.resume r, by simp [h]⟩
    exact ⟨free, by simp [Data.set_other _ _ hpi, hr], by simp [Data.set_other _ _ hpi, hl], hidle⟩
  | acq | rel | intr | load | lock | skip | back | unlock => exact ⟨free, hr, hl, hidle⟩

theorem Move.stays (h : Move n s c s') (hc : Ctl s) (hpos : Pos s p k) : Pos s' p k ∨ Departs n s c s' p k := by
  rcases hpos with ⟨c', pc, hk, hb⟩ | ⟨free, hr, hl, hno⟩
  · by_cases hcc : c' = c
    · subst hcc
      cases h with
      | @acq _ _ l pc' hp ha =>
        cases hp.symm.trans hk
        cases pc with
        | «at» k' => cases hb; exact .inr ⟨pc', hp, update_self .., .inl ⟨l, ha, rfl⟩⟩
        | yieldLock b free => cases ha; exact .inl (.inl ⟨c', _, update_self .., hb⟩)
        | yieldState | save | load | resume => cases ha
      | @rel _ _ l pc' hp hr =>
        cases hp.symm.trans hk
        cases pc with
        | «at» k' => cases hb; exact .inr ⟨pc', hp, update_self .., .inr (.inl ⟨l, hr, rfl⟩)⟩
        | resume r =>
          cases hr
          case yield => exact .inl (.inl ⟨c', _, update_self .., hb⟩)
          case forkret => cases hb
        | yieldLock | yieldState | save | load => cases hr
      | @exec _ _ d' pc' hp he =>
        cases hp.symm.trans hk
        cases pc with
        | «at» k' => cases hb; exact .inr ⟨pc', hp, update_self .., .inr (.inr he)⟩
        | yieldState b free => cases he; exact .inl (.inl ⟨c', _, update_self .., hb⟩)
        | save r => cases he; exact .inl (.inl ⟨c', _, update_self .., by cases r <;> exact hb⟩)
        | resume r => cases he; cases hb
        | yieldLock | load => cases he
      | intr free hp =>
        cases hp.symm.trans hk
        exact .inl (.inl ⟨c', _, update_self .., hb⟩)
      | @load _ r hp =>
        cases hp.symm.trans hk
        cases r <;> cases hb
        obtain ⟨hpark, hu, hr⟩ := (hc.run hk).1
        refine .inl (.inr ⟨_, hr, ?_, fun c₁ pc₁ hk₁ => ?_⟩)
        · show (s.d.proc p).state.kind = .live
          cases hs : (s.d.proc p).state <;> simp_all [Parked, State.kind]
        · by_cases hc₁ : c₁ = c'
          · subst hc₁
            simp [St.goto] at hk₁
          · simp only [St.goto, update_of_ne hc₁] at hk₁
            exact hc₁ (hc.uniq (p := p) (by rw [hk₁]; rfl) (by rw [hk]; rfl))
      | lock hp | take hp | skip hp | enter hp | back hp | unlock hp => cases hp.symm.trans hk
    · exact .inl (.inl ⟨c', pc, by rw [h.cpu_other hcc]; exact hk, hb⟩)
  · exact .inl (h.stays_off hc hr hl hno)

end Step

/-! ## What the threads know about parents -/

/-- The slot a thread has found to be its child, in `wait` or `reparent`. -/
def Pc.kid : Pc → Option Nat
  | .at (.waitKid i _) | .at (.waitTest i) | .at (.reparentLock _ _ i) | .at (.reparentSet _ _ i) => some i
  | _ => none

/-- `reparent` is past slot `j`. -/
def Pc.Gave (j : Nat) : Pc → Prop
  | .at (.reparent _ _ i) | .at (.reparentLock _ _ i) | .at (.reparentSet _ _ i) => j < i
  | .at (.reparentUnlock _ _ i) => j ≤ i
  | .at (.exitWake _ _) | .at (.exitZombie _ _) => True
  | _ => False

/-- `original_parent`, in `exit`. -/
def Kpc.op : Kpc → Option Nat
  | .exitUnlock _ op | .exitParent _ op | .exitSelf _ op | .reparent _ op _ | .reparentLock _ op _
  | .reparentSet _ op _ | .reparentUnlock _ op _ | .exitWake _ op | .exitZombie _ op => some op
  | _ => none

/-- The slot whose lock `allocproc` holds. -/
def Pc.picks : Pc → Option Nat
  | .at (.forkTest i) | .at (.forkAlloc i) => some i
  | _ => none

theorem Kpc.free_picks (free : k.held 0 = []) : (Pc.at k).picks = none := by
  cases k <;> simp_all [Pc.picks, Kpc.held]

theorem Kpc.free_kid (free : k.held 0 = []) : (Pc.at k).kid = none := by
  cases k <;> simp_all [Pc.kid, Kpc.held]

theorem Kpc.free_gave (free : k.held 0 = []) (j : Nat) : ¬ (Pc.at k).Gave j := by
  cases k <;> simp_all [Pc.Gave, Kpc.held]

theorem Pc.Gave.op {pc : Pc} (h : pc.Gave j) : ∃ k op, pc = .at k ∧ k.op = some op := by
  cases pc with
  | «at» k => cases k <;> first | exact ⟨_, _, rfl, rfl⟩ | exact h.elim
  | yieldLock | yieldState | save | load | resume => exact h.elim

theorem Acq.picks {n p i : Nat} {pc pc' : Pc} (h : Acq n p pc l pc') (hk : pc'.picks = some i) : i < n := by
  cases h
  case fork hi => cases hk; exact hi
  all_goals cases hk

theorem Rel.picks {p : Nat} {pc pc' : Pc} (h : Rel p pc l pc') : pc'.picks = none := by
  cases h
  case yield free => exact Kpc.free_picks free
  all_goals rfl

theorem Exec.picks {n p i : Nat} {d' : Data} {pc pc' : Pc} (h : Exec n p d pc d' pc') (hk : pc'.picks = some i) :
    pc.picks = some i := by
  cases h
  case forkTake => exact hk
  case slept w => cases w <;> cases hk
  case woken b => cases b <;> cases hk
  all_goals cases hk

theorem Acq.kid {n p i : Nat} {pc pc' : Pc} (h : Acq n p pc l pc') (hk : pc'.kid = some i) : pc.kid = some i := by
  cases h
  case reparent | waitKid => exact hk
  all_goals cases hk

theorem Rel.kid {p : Nat} {pc pc' : Pc} (h : Rel p pc l pc') : pc'.kid = none := by
  cases h
  case yield free => exact Kpc.free_kid free
  all_goals rfl

theorem Exec.kid {n p i : Nat} {d' : Data} {pc pc' : Pc} (h : Exec n p d pc d' pc') (hk : pc'.kid = some i) :
    (d'.proc i).parent = some p := by
  cases h
  case waitHit hi => cases hk; exact hi
  case reparentHit hi => cases hk; exact hi
  case slept w => cases w <;> cases hk
  case woken b => cases b <;> cases hk
  all_goals cases hk

theorem Acq.gave {n p : Nat} {pc pc' : Pc} (h : Acq n p pc l pc') (hg : pc'.Gave j) : pc.Gave j := by
  cases h
  case reparent => exact hg
  case exitSelf => exact absurd hg (Nat.not_lt_zero j)
  all_goals exact hg.elim

theorem Rel.gave {p : Nat} {pc pc' : Pc} (h : Rel p pc l pc') (hg : pc'.Gave j) : pc.Gave j := by
  cases h
  case reparent => exact Nat.lt_succ_iff.1 hg
  case yield free => exact absurd hg (Kpc.free_gave free j)
  all_goals exact hg.elim

theorem Exec.gave {n p : Nat} {d' : Data} {pc pc' : Pc} (h : Exec n p d pc d' pc') (hg : pc'.Gave j) (hj : j < n) :
    pc.Gave j ∨ (d'.proc j).parent ≠ some p ∨
      (d'.proc j).parent = some 0 ∧ ∃ st op, pc = .at (.reparentSet st op j) := by
  cases h
  case reparentHit | exitWake => exact .inl hg
  case reparentSkip i hi hp =>
    rcases Nat.lt_or_eq_of_le (Nat.lt_succ_iff.1 hg) with hg | rfl
    · exact .inl hg
    · exact .inr (.inl hp)
  case reparentEnd hi => exact .inl (Nat.lt_of_lt_of_le hj hi)
  case reparentSet st op i =>
    rcases Nat.lt_or_eq_of_le hg with hg | rfl
    · exact .inl hg
    · exact .inr (.inr ⟨by rw [Data.set_same], st, op, rfl⟩)
  case slept w => cases w <;> exact hg.elim
  case woken b => cases b <;> exact hg.elim
  all_goals exact hg.elim

theorem Acq.op {n p op : Nat} {pc : Pc} (h : Acq n p pc l (.at k)) (ho : k.op = some op) :
    ∃ k₀, pc.base = some k₀ ∧ k₀.op = some op := by
  cases h
  case exitParent | exitSelf | reparent => exact ⟨_, rfl, ho⟩
  all_goals cases ho

theorem Rel.op {p op : Nat} {pc : Pc} (h : Rel p pc l (.at k)) (ho : k.op = some op) :
    ∃ k₀, pc.base = some k₀ ∧ k₀.op = some op := by
  cases h
  case exitCopy | reparent | yield => exact ⟨_, rfl, ho⟩
  all_goals cases ho

theorem Exec.op {n p op : Nat} {d' : Data} {pc pc' : Pc} (h : Exec n p d pc d' pc') (hk : pc' = .at k)
    (ho : k.op = some op) :
    (∃ k₀, pc.base = some k₀ ∧ k₀.op = some op) ∨ (d'.proc p).parent = some op := by
  cases h
  case exitCopy hp => cases hk; cases ho; exact .inr hp
  case reparentHit | reparentSkip | reparentEnd | reparentSet | exitWake => cases hk; exact .inl ⟨_, rfl, ho⟩
  case slept w => cases w <;> cases hk <;> cases ho
  case woken b => cases b <;> cases hk <;> cases ho
  all_goals first | (cases hk; cases ho) | cases hk

/-! ## The invariant -/

section Step

variable {C : Type} [DecidableEq C] {n : Nat} {s s' : St C} {c : C} {p : Nat}

/-- `original_parent` is the copy a thread had before, or is copied in this step. -/
theorem Move.op (h : Move n s c s') (hc : Ctl s) {op : Nat} (hp : Pos s' p k) (ho : k.op = some op) :
    (∃ k₀, Pos s p k₀ ∧ k₀.op = some op) ∨ (s'.d.proc p).parent = some op := by
  rcases h.pos hc hp with hp₀ | ⟨pc, hk, -, ⟨l, ha, -⟩ | ⟨l, hr, -⟩ | he⟩
  · exact .inl ⟨k, hp₀, ho⟩
  · obtain ⟨k₀, hb, ho₀⟩ := ha.op ho
    exact .inl ⟨k₀, .inl ⟨c, pc, hk, hb⟩, ho₀⟩
  · obtain ⟨k₀, hb, ho₀⟩ := hr.op ho
    exact .inl ⟨k₀, .inl ⟨c, pc, hk, hb⟩, ho₀⟩
  · rcases he.op rfl ho with ⟨k₀, hb, ho₀⟩ | hnew
    · exact .inl ⟨k₀, .inl ⟨c, pc, hk, hb⟩, ho₀⟩
    · exact .inr hnew

structure Family (n : Nat) (s : St C) : Prop where
  rooted : Rooted 0 s.d.node
  bound : ∀ i, (s.d.proc i).parent ≠ none → i < n
  slot : ∀ c p pc i, s.cpu c = .run p pc → pc.picks = some i → i < n
  mine : ∀ c p pc i, s.cpu c = .run p pc → pc.kid = some i → (s.d.proc i).parent = some p
  gave : ∀ c p pc j, s.cpu c = .run p pc → pc.Gave j → j < n → (s.d.proc j).parent ≠ some p
  copied : ∀ p k op, Pos s p k → k.op = some op → (s.d.proc p).parent = some op ∨ (s.d.proc p).parent = some 0

namespace Family

section
variable (h : Family n s)
include h

omit [DecidableEq C] in
theorem exiting_ne_init {op : Nat} (hp : Pos s p k) (ho : k.op = some op) : p ≠ 0 := by
  rintro rfl
  have hr : (s.d.proc 0).parent = none := congrArg Node.parent h.rooted.root
  rcases h.copied 0 k op hp ho with h' | h' <;> simp [hr] at h'

omit [DecidableEq C] in
theorem gave_ne_init {pc : Pc} (hp : s.cpu c = .run p pc) (hg : pc.Gave j) : p ≠ 0 := by
  obtain ⟨k, op, rfl, ho⟩ := hg.op
  exact h.exiting_ne_init (.inl ⟨c, _, hp, rfl⟩) ho

omit [DecidableEq C] in
theorem took_free (hc : Ctl s) {i : Nat} (hp : s.cpu c = .run p (.at (.forkAlloc i))) :
    (s.d.node i).kind = .free ∧ (s.d.proc i).parent = none := by
  have hu : (s.d.proc i).state = .unused := (hc.run hp).2
  have hf : (s.d.node i).kind = .free := by simp [Data.node, hu, State.kind]
  exact ⟨hf, h.rooted.free i hf⟩

/-- Each step is one of the operations on the forest, or leaves it alone. -/
theorem op (hc : Ctl s) (hs : Move n s c s') : s'.d.node = s.d.node ∨ Op 0 s.d.node s'.d.node := by
  rcases hs.grow hc with hsame | ⟨p, pc, pc', hp, -, hg⟩
  · exact .inl hsame
  have hon := (hc.run hp).1
  have hlive : (s.d.proc p).state = .running → (s.d.node p).kind = .live := fun hr => by
    simp [Data.node, hr, State.kind]
  generalize s'.d.node = t' at hg
  cases hg with
  | same => exact .inl rfl
  | born => exact .inr (.born (h.took_free hc hp).1 (hlive hon))
  | undo => exact .inr (.reap (by simp [(h.took_free hc hp).1]))
  | adopt => exact .inr (.adopt (h.mine c p _ _ hp rfl))
  | die =>
    refine .inr (.die (h.gave_ne_init hp (j := 0) trivial) (hlive hon) fun j hj => ?_)
    exact h.gave c p _ j hp trivial (h.bound j (by rw [show (s.d.proc j).parent = _ from hj]; simp)) hj
  | reap hd => exact .inr (.reap (by simp [hd]))

/-- A step changes the parent of a slot only by taking it for a child, or on its parent's behalf. -/
theorem parents (hc : Ctl s) (hs : Move n s c s') (j : Nat) :
    (s'.d.proc j).parent = (s.d.proc j).parent ∨ ∃ p pc, s.cpu c = .run p pc ∧
      ((s.d.proc j).parent = none ∧ (s'.d.proc j).parent = some p ∧ pc = .at (.forkAlloc j) ∨
        (s.d.proc j).parent = some p ∧ pc.kid = some j ∧
          ((s'.d.proc j).parent = some 0 ∨ (s'.d.proc j).parent = none ∧ (s.d.node j).kind = .dead)) := by
  have hpar : ∀ d : Data, (d.proc j).parent = (d.node j).parent := fun _ => rfl
  rcases hs.grow hc with hsame | ⟨p, pc, pc', hp, -, hg⟩
  · exact .inl (by rw [hpar, hpar, hsame])
  rw [hpar s'.d]
  generalize s'.d.node = t' at hg ⊢
  cases hg with
  | same => exact .inl rfl
  | @born i =>
    by_cases hj : j = i
    · subst hj
      exact .inr ⟨p, _, hp, .inl ⟨(h.took_free hc hp).2, by rw [update_self], rfl⟩⟩
    · exact .inl (by rw [update_of_ne hj]; rfl)
  | @undo i =>
    by_cases hj : j = i
    · subst hj
      exact .inl (by rw [update_self, (h.took_free hc hp).2])
    · exact .inl (by rw [update_of_ne hj]; rfl)
  | @adopt st op i =>
    by_cases hj : j = i
    · subst hj
      exact .inr ⟨p, _, hp, .inr ⟨h.mine c p _ _ hp rfl, rfl, .inl (by rw [update_self])⟩⟩
    · exact .inl (by rw [update_of_ne hj]; rfl)
  | die =>
    by_cases hj : j = p
    · subst hj
      exact .inl (by rw [update_self]; rfl)
    · exact .inl (by rw [update_of_ne hj]; rfl)
  | @reap i ret hd =>
    by_cases hj : j = i
    · subst hj
      exact .inr ⟨p, _, hp, .inr ⟨h.mine c p _ _ hp rfl, rfl, .inr ⟨by rw [update_self], hd⟩⟩⟩
    · exact .inl (by rw [update_of_ne hj]; rfl)

theorem bound_step (hc : Ctl s) (hs : Move n s c s') (i : Nat) (hi : (s'.d.proc i).parent ≠ none) :
    i < n := by
  rcases h.parents hc hs i with hsame | ⟨p, pc, hp, ⟨-, -, rfl⟩ | ⟨hpar, -, -⟩⟩
  · exact h.bound i (hsame ▸ hi)
  · exact h.slot c p _ i hp rfl
  · exact h.bound i (by simp [hpar])

theorem slot_step (hs : Move n s c s') (c' : C) (p : Nat) (pc : Pc) (i : Nat)
    (hk : s'.cpu c' = .run p pc) (hpick : pc.picks = some i) : i < n := by
  by_cases hcc : c' = c
  · subst hcc
    obtain ⟨pc₀, l, hp, ha, -⟩ | ⟨pc₀, l, hp, hr, -⟩ | ⟨pc₀, hp, he⟩ | ⟨k, free, -, rfl, -⟩ | ⟨r, -, -, rfl, -⟩ := hs.run hk
    · exact ha.picks hpick
    · simp [hr.picks] at hpick
    · exact h.slot c' p pc₀ i hp (he.picks hpick)
    · cases hpick
    · cases hpick
  · rw [hs.cpu_other hcc] at hk
    exact h.slot c' p pc i hk hpick

theorem mine_step (hc : Ctl s) (hs : Move n s c s') (c' : C) (p : Nat) (pc : Pc) (i : Nat)
    (hk : s'.cpu c' = .run p pc) (hkid : pc.kid = some i) : (s'.d.proc i).parent = some p := by
  by_cases hcc : c' = c
  · subst hcc
    obtain ⟨pc₀, l, hp, ha, hd⟩ | ⟨pc₀, l, hp, hr, -⟩ | ⟨pc₀, hp, he⟩ | ⟨k, free, -, rfl, -⟩ | ⟨r, -, -, rfl, -⟩ := hs.run hk
    · rw [hd]
      exact h.mine c' p pc₀ i hp (ha.kid hkid)
    · simp [hr.kid] at hkid
    · exact he.kid hkid
    · cases hkid
    · cases hkid
  · rw [hs.cpu_other hcc] at hk
    have hpar := h.mine c' p pc i hk hkid
    -- Another thread does not change the parent of a child of `p`.
    rcases h.parents hc hs i with hsame | ⟨q, pc', hq, ⟨hnone, -⟩ | ⟨hpar', -⟩⟩
    · exact hsame.trans hpar
    · simp [hnone] at hpar
    · rw [hpar] at hpar'
      cases hpar'
      exact absurd (hc.uniq (p := p) (by rw [hk]; rfl) (by rw [hq]; rfl)) hcc

theorem gave_step (hc : Ctl s) (hs : Move n s c s') (c' : C) (p : Nat) (pc : Pc) (j : Nat)
    (hk : s'.cpu c' = .run p pc) (hg : pc.Gave j) (hj : j < n) : (s'.d.proc j).parent ≠ some p := by
  by_cases hcc : c' = c
  · subst hcc
    obtain ⟨pc₀, l, hp, ha, hd⟩ | ⟨pc₀, l, hp, hr, hd⟩ | ⟨pc₀, hp, he⟩ | ⟨k, free, -, rfl, -⟩ | ⟨r, -, -, rfl, -⟩ := hs.run hk
    · rw [hd]
      exact h.gave c' p pc₀ j hp (ha.gave hg) hj
    · rw [hd]
      exact h.gave c' p pc₀ j hp (hr.gave hg) hj
    · rcases he.gave hg hj with hg₀ | hnew | ⟨hzero, st, op, rfl⟩
      · have hpar := h.gave c' p pc₀ j hp hg₀ hj
        rcases h.parents hc hs j with hsame | ⟨q, pc', hq, ⟨-, -, rfl⟩ | ⟨hpar', -⟩⟩
        · rw [hsame]
          exact hpar
        · rw [hp] at hq
          cases hq
          exact hg₀.elim
        · rw [hp] at hq
          cases hq
          exact absurd hpar' hpar
      · exact hnew
      · rw [hzero]
        have hp0 := h.exiting_ne_init (.inl ⟨c', _, hp, rfl⟩) rfl
        exact fun h0 => hp0 (Option.some.inj h0).symm
    · exact hg.elim
    · exact hg.elim
  · rw [hs.cpu_other hcc] at hk
    have hpar := h.gave c' p pc j hk hg hj
    have hp0 := h.gave_ne_init hk hg
    rcases h.parents hc hs j with hsame | ⟨q, pc', hq, ⟨-, hnew, -⟩ | ⟨-, -, hnew | ⟨hnew, -⟩⟩⟩
    · rw [hsame]
      exact hpar
    · rw [hnew]
      rintro ⟨⟩
      exact hcc (hc.uniq (p := p) (by rw [hk]; rfl) (by rw [hq]; rfl))
    · rw [hnew]
      exact fun h0 => hp0 (Option.some.inj h0).symm
    · simp [hnew]

end

omit [DecidableEq C] in
theorem exiting_live (hc : Ctl s) {op : Nat} (hp : Pos s p k) (ho : k.op = some op) :
    (s.d.proc p).state.kind = .live := by
  rcases hp with ⟨c, pc, hk, hb⟩ | ⟨free, -, hl, -⟩
  · have hon := (hc.run hk).1
    cases pc with
    | «at» k' => cases hb; cases k <;> simp_all [On, Kpc.op, State.kind]
    | yieldLock | yieldState => rw [show (s.d.proc p).state = .running from hon]; rfl
    | save r =>
      cases r <;> cases hb
      rw [show (s.d.proc p).state = .runnable from hon]; rfl
    | load r =>
      cases r <;> cases hb
      obtain ⟨hpark, hu, hr⟩ := hon
      cases hs : (s.d.proc p).state <;> simp_all [Parked, State.kind]
    | resume r =>
      cases r <;> cases hb
      rw [show (s.d.proc p).state = .running from hon]; rfl
  · exact hl

section
variable (h : Family n s) (hc : Ctl s) (hs : Move n s c s')
include h hc hs

theorem copied_keep {op : Nat} (hp : Pos s p k)
    (ho : k.op = some op) : (s'.d.proc p).parent = some op ∨ (s'.d.proc p).parent = some 0 := by
  have hpar := h.copied p k op hp ho
  rcases h.parents hc hs p with hsame | ⟨q, pc, hq, ⟨hnone, -⟩ | ⟨-, -, hnew | ⟨-, hdead⟩⟩⟩
  · rw [hsame]
    exact hpar
  · simp [hnone] at hpar
  · exact .inr hnew
  · have hl := exiting_live hc hp ho
    simp [Data.node, hl] at hdead

theorem copied_step (p : Nat) (k : Kpc) (op : Nat) (hp : Pos s' p k)
    (ho : k.op = some op) : (s'.d.proc p).parent = some op ∨ (s'.d.proc p).parent = some 0 := by
  rcases hs.op hc hp ho with ⟨k₀, hp₀, ho₀⟩ | hnew
  · exact h.copied_keep hc hs hp₀ ho₀
  · exact .inl hnew

theorem step : Family n s' where
  rooted := by
    rcases h.op hc hs with hsame | hop
    · rw [hsame]
      exact h.rooted
    · exact h.rooted.step hop
  bound := h.bound_step hc hs
  slot := h.slot_step hs
  mine := h.mine_step hc hs
  gave := h.gave_step hc hs
  copied := h.copied_step hc hs

end

end Family

omit [DecidableEq C] in
theorem family_init : Family n (init C) where
  rooted := {
    free := by
      intro i hi
      by_cases h0 : i = 0 <;> simp_all [init, Data.node, Proc.empty]
    root := rfl
    kin := by
      intro i hi hk
      simp [init, Data.node, Proc.empty, hi, State.kind] at hk }
  bound i hi := by
    by_cases h0 : i = 0 <;> simp [init, Proc.empty, h0] at hi
  slot _ _ _ _ hk := by cases hk
  mine _ _ _ _ hk := by cases hk
  gave _ _ _ _ hk := by cases hk
  copied p k op hp := by
    rcases hp with ⟨c, pc, hk, -⟩ | ⟨free, hr, -⟩
    · cases hk
    · by_cases h0 : p = 0 <;> simp [init, Proc.empty, h0] at hr

theorem Reach.family (h : Reach n s) : Family n s :=
  (Run.Reach.inv (fun s => Ctl s ∧ Family n s) (fun _ hi => hi ▸ ⟨ctl_init, family_init⟩)
    (fun _ _ _ hi hs => ⟨hi.1.step hs.move, hi.2.step hi.1 hs.move⟩) h).2

end Step

end Xv6.Sched
