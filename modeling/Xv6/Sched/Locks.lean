import Mathlib.Data.List.Nodup
import Mathlib.Tactic.Common
import Xv6.Lib.Locks
import Xv6.Sched.Code
/-!
# What a step can do, and who holds the locks

`Exec` and `Move` list what one step does, each with the tests it passed; all
invariants of the runs are proved by cases on them. The first of these is
`Locks`: the place where a CPU is says which locks it holds.
-/

open Function Option

namespace Xv6.Sched

/-! ## Assignments -/

theorem Data.set_same (d : Data) (i : Nat) (f : Proc → Proc) : (d.set i f).proc i = f (d.proc i) := by
  simp [Data.set]

theorem Data.set_other (d : Data) {i j : Nat} (f : Proc → Proc) (h : j ≠ i) : (d.set i f).proc j = d.proc j := by
  simp [Data.set, h]

theorem Data.set_proc (d : Data) (i j : Nat) (f : Proc → Proc) :
    (d.set i f).proc j = if j = i then f (d.proc j) else d.proc j := by
  by_cases h : j = i
  · subst h
    rw [if_pos rfl, Data.set_same]
  · rw [if_neg h, Data.set_other d f h]

theorem Data.mark_same (d : Data) (i : Nat) (f : Proc → Proc) : (d.mark i f).proc i = f (d.proc i) :=
  Data.set_same _ i f

theorem Data.mark_other (d : Data) {i j : Nat} (f : Proc → Proc) (h : j ≠ i) : (d.mark i f).proc j = d.proc j :=
  Data.set_other _ f h

/-! ## What a step can do -/

/-- What the thread of slot `p` may acquire. -/
inductive Acq (n p : Nat) : Pc → Lock → Pc → Prop
  | kern {l h} : Acq n p (.at (.kernLock l h)) (.other l) (.at (.kern (l :: h)))
  | sleep {f ch lk} : Acq n p (.at (.sleepLock f ch lk)) (.proc p) (.at (.sleepDrop f ch lk))
  | relock {lk} : Acq n p (.at (.sleepRelock lk)) (.other lk) (.at (.kern [lk]))
  | wake {ch i b} : i < n → Acq n p (.at (.wakeLock ch i b)) (.proc i) (.at (.wakeTest ch i b))
  | kill {pid i} : i < n → Acq n p (.at (.killLock pid i)) (.proc i) (.at (.killTest pid i))
  | fork {i} : i < n → Acq n p (.at (.forkLock i)) (.proc i) (.at (.forkTest i))
  | exitInit {st} : Acq n p (.at (.exitInit st)) (.proc 0) (.at (.exitInitWake st))
  | exitLock {st} : Acq n p (.at (.exitLock st)) (.proc p) (.at (.exitCopy st))
  | exitParent {st op} : Acq n p (.at (.exitParent st op)) (.proc op) (.at (.exitSelf st op))
  | exitSelf {st op} : Acq n p (.at (.exitSelf st op)) (.proc p) (.at (.reparent st op 0))
  | reparent {st op i} : Acq n p (.at (.reparentLock st op i)) (.proc i) (.at (.reparentSet st op i))
  | wait : Acq n p (.at .waitLock) (.proc p) (.at (.waitScan 0 false))
  | waitKid {i kids} : Acq n p (.at (.waitKid i kids)) (.proc i) (.at (.waitTest i))
  | yield {b free} : Acq n p (.yieldLock b free) (.proc p) (.yieldState b free)

/-- What the thread of slot `p` may release. -/
inductive Rel (p : Nat) : Pc → Lock → Pc → Prop
  | kern {l h} : Rel p (.at (.kernUnlock l h)) (.other l) (.at (.kern h))
  | sleepDrop {f ch lk} : Rel p (.at (.sleepDrop f ch lk)) (.other lk) (.at (.sleepChan (.on f ch lk)))
  | sleep {lk} : Rel p (.at (.sleepUnlock lk)) (.proc p) (.at (.sleepRelock lk))
  | wake {ch i b} : Rel p (.at (.wakeUnlock ch i b)) (.proc i) (.at (.wakeLock ch (i + 1) b))
  | killHit {pid i} : Rel p (.at (.killUnlock pid i true)) (.proc i) (.at (.killed pid true))
  | killMiss {pid i} : Rel p (.at (.killUnlock pid i false)) (.proc i) (.at (.killLock pid (i + 1)))
  | forkNext {i} : Rel p (.at (.forkNext i)) (.proc i) (.at (.forkLock (i + 1)))
  | fork {i} : Rel p (.at (.forkUnlock i)) (.proc i) (.at (.kern []))
  | exitInit {st} : Rel p (.at (.exitInitUnlock st)) (.proc 0) (.at (.exitLock st))
  | exitCopy {st op} : Rel p (.at (.exitUnlock st op)) (.proc p) (.at (.exitParent st op))
  | reparent {st op i} : Rel p (.at (.reparentUnlock st op i)) (.proc i) (.at (.reparent st op (i + 1)))
  | exitDrop {op} : Rel p (.at (.exitDrop op)) (.proc op) (.save .dead)
  | waitNext {i} : Rel p (.at (.waitNext i)) (.proc i) (.at (.waitScan (i + 1) true))
  | waitDrop {i ret} : Rel p (.at (.waitDrop i ret)) (.proc i) (.at (.waitUnlock ret))
  | wait {ret} : Rel p (.at (.waitUnlock ret)) (.proc p) (.at (.waited ret))
  | yield {b free} : Rel p (.resume (.yielded b free)) (.proc p) (.at b)
  | forkret : Rel p (.resume .forkret) (.proc p) (.at (.kern []))

/-- The steps of the thread of slot `p` that neither acquire nor release a lock. -/
inductive Exec (n p : Nat) (d : Data) : Pc → Data → Pc → Prop
  | kernLock {h l} : l ∉ h → Exec n p d (.at (.kern h)) d (.at (.kernLock l h))
  | kernUnlock {h l} : l ∈ h → Exec n p d (.at (.kern h)) d (.at (.kernUnlock l (h.erase l)))
  | sleep {ch lk} : Exec n p d (.at (.kern [lk])) d (.at (.sleepLock none ch lk))
  | test {f ch lk} : (d.proc p).killed = false → Exec n p d (.at (.kern [lk])) d (.at (.tested f ch lk))
  | leave {lk} : Exec n p d (.at (.kern [lk])) d (.at (.kern [lk]))
  | wakeup {h ch} : Exec n p d (.at (.kern h)) d (.at (.wakeLock ch 0 (.kern h)))
  | fault : Exec n p d (.at (.kern [])) (d.mark p fun q => { q with killed := true }) (.at (.kern []))
  | kill {pid} : Exec n p d (.at (.kern [])) d (.at (.killLock pid 0))
  | fork : Exec n p d (.at (.kern [])) d (.at (.forkLock 0))
  | exit {st} : p ≠ 0 →
      Exec n p d (.at (.kern [])) { d with exits := ((d.proc p).pid, st) :: d.exits } (.at (.exitInit st))
  | wait : Exec n p d (.at (.kern [])) d (.at .waitLock)
  | testedWake {f ch lk ch'} :
      Exec n p d (.at (.tested f ch lk)) d (.at (.wakeLock ch' 0 (.tested f ch lk)))
  | testedSleep {f ch lk} : Exec n p d (.at (.tested f ch lk)) d (.at (.sleepLock (some f) ch lk))
  | sleepChan {w} :
      Exec n p d (.at (.sleepChan w)) (d.set p fun q => { q with chan := some (w.chan p) }) (.at (.sleepState w))
  | sleepState {w} :
      Exec n p d (.at (.sleepState w)) (d.set p fun q => { q with state := .sleeping }) (.save (.slept w))
  | slept {w} : Exec n p d (.resume (.slept w)) (d.set p fun q => { q with chan := none }) (.at w.after)
  | wakeEnd {ch i b} : n ≤ i → Exec n p d (.at (.wakeLock ch i b)) d (.at (.woken ch b))
  | wakeTest {ch i b} :
      Exec n p d (.at (.wakeTest ch i b)) (d.set i (Proc.wake (some ch))) (.at (.wakeUnlock ch i b))
  | woken {ch b} : Exec n p d (.at (.woken ch b)) d (.at b.pc)
  | killEnd {pid i} : n ≤ i → Exec n p d (.at (.killLock pid i)) d (.at (.killed pid false))
  | killHit {pid i} : (d.proc i).pid = pid →
      Exec n p d (.at (.killTest pid i)) (d.mark i fun q => { q.wake none with killed := true })
        (.at (.killUnlock pid i true))
  | killMiss {pid i} : (d.proc i).pid ≠ pid →
      Exec n p d (.at (.killTest pid i)) d (.at (.killUnlock pid i false))
  | killed {pid hit} : Exec n p d (.at (.killed pid hit)) d (.at (.kern []))
  | forkEnd {i} : n ≤ i → Exec n p d (.at (.forkLock i)) d (.at (.kern []))
  | forkTake {i} : (d.proc i).state = .unused →
      Exec n p d (.at (.forkTest i))
        (Data.set { d with nextpid := d.nextpid + 1 } i fun q => { q with pid := d.nextpid }) (.at (.forkAlloc i))
  | forkSkip {i} : (d.proc i).state ≠ .unused → Exec n p d (.at (.forkTest i)) d (.at (.forkNext i))
  | forkDone {i} :
      Exec n p d (.at (.forkAlloc i))
        (Data.set { d with forks := ((d.proc i).pid, (d.proc p).pid) :: d.forks } i fun q =>
          { q with parent := some p, context := some .forkret, state := .runnable })
        (.at (.forkUnlock i))
  | forkFail {i} : Exec n p d (.at (.forkAlloc i)) d (.at (.forkUnlock i))
  | forkUndo {i} : Exec n p d (.at (.forkAlloc i)) (d.set i Proc.free) (.at (.forkUnlock i))
  | exitInitWake {st} : Exec n p d (.at (.exitInitWake st)) (d.wakeup1 0) (.at (.exitInitUnlock st))
  | exitCopy {st op} : (d.proc p).parent = some op → Exec n p d (.at (.exitCopy st)) d (.at (.exitUnlock st op))
  | reparentHit {st op i} : i < n → (d.proc i).parent = some p →
      Exec n p d (.at (.reparent st op i)) d (.at (.reparentLock st op i))
  | reparentSkip {st op i} : i < n → (d.proc i).parent ≠ some p →
      Exec n p d (.at (.reparent st op i)) d (.at (.reparent st op (i + 1)))
  | reparentEnd {st op i} : n ≤ i → Exec n p d (.at (.reparent st op i)) d (.at (.exitWake st op))
  | reparentSet {st op i} :
      Exec n p d (.at (.reparentSet st op i)) (d.set i fun q => { q with parent := some 0 })
        (.at (.reparentUnlock st op i))
  | exitWake {st op} : Exec n p d (.at (.exitWake st op)) (d.wakeup1 op) (.at (.exitZombie st op))
  | exitZombie {st op} :
      Exec n p d (.at (.exitZombie st op)) (d.set p fun q => { q with xstate := st, state := .zombie })
        (.at (.exitDrop op))
  | waitHit {i kids} : i < n → (d.proc i).parent = some p →
      Exec n p d (.at (.waitScan i kids)) d (.at (.waitKid i kids))
  | waitSkip {i kids} : i < n → (d.proc i).parent ≠ some p →
      Exec n p d (.at (.waitScan i kids)) d (.at (.waitScan (i + 1) kids))
  | waitNone {i kids} : n ≤ i → (kids = false ∨ (d.proc p).killed = true) →
      Exec n p d (.at (.waitScan i kids)) d (.at (.waitUnlock (-1)))
  | waitSleep {i kids} : n ≤ i → kids = true → (d.proc p).killed = false →
      Exec n p d (.at (.waitScan i kids)) d (.at (.sleepChan .wait))
  | reap {i} : (d.proc i).state = .zombie →
      Exec n p d (.at (.waitTest i))
        (Data.set { d with
          reaps := ⟨(d.proc i).pid, (d.proc i).xstate, p, (d.proc p).pid, (d.proc i).parent⟩ :: d.reaps } i Proc.free)
        (.at (.waitDrop i (d.proc i).pid))
  | reapFail {i} : (d.proc i).state = .zombie → Exec n p d (.at (.waitTest i)) d (.at (.waitDrop i (-1)))
  | waitAlive {i} : (d.proc i).state ≠ .zombie → Exec n p d (.at (.waitTest i)) d (.at (.waitNext i))
  | waited {ret} : Exec n p d (.at (.waited ret)) d (.at (.kern []))
  | yieldState {b free} :
      Exec n p d (.yieldState b free) (d.set p fun q => { q with state := .runnable }) (.save (.yielded b free))
  | save {r} : Exec n p d (.save r) (d.set p fun q => { q with context := some r }) (.load r)

theorem Pc.acq_cases {n p : Nat} {pc pc' : Pc} {l : Lock} (h : pc.acq n p = some (l, pc')) : Acq n p pc l pc' := by
  cases pc with
  | «at» k =>
    obtain ⟨x, hx, hd⟩ := map_eq_some_iff.1 h
    cases hd
    cases k <;> simp only [Kpc.acq, ite_none_right_eq_some, Option.some.injEq, reduceCtorEq] at hx
    case wakeLock | killLock | forkLock => rw [← hx.2]; constructor; exact hx.1
    all_goals rw [← hx]; constructor
  | yieldLock b free => cases h; exact .yield
  | yieldState | save | load | resume => cases h

theorem Pc.rel_cases {p : Nat} {pc pc' : Pc} {l : Lock} (h : pc.rel p = some (l, pc')) : Rel p pc l pc' := by
  cases pc with
  | «at» k =>
    cases k <;> simp only [Pc.rel, Kpc.rel, Option.some.injEq, Prod.mk.injEq, reduceCtorEq] at h <;>
      obtain ⟨rfl, rfl⟩ := h
    case killUnlock pid i hit => cases hit <;> constructor
    all_goals constructor
  | resume r =>
    cases r <;> simp only [Pc.rel, Option.some.injEq, Prod.mk.injEq, reduceCtorEq] at h <;> obtain ⟨rfl, rfl⟩ := h <;>
      constructor
  | yieldLock | yieldState | save | load => cases h

theorem call_exec {n p : Nat} {d d' : Data} {h : List Nat} {a : Act} {k : Kpc} (hc : call p d h a = some (d', k)) :
    Exec n p d (.at (.kern h)) d' (.at k) := by
  cases a <;> simp only [call, ite_none_left_eq_some, ite_none_right_eq_some, Option.some.injEq,
    Prod.mk.injEq, reduceCtorEq] at hc
  case acquire => obtain ⟨h, rfl, rfl⟩ := hc; exact .kernLock h
  case release => obtain ⟨h, rfl, rfl⟩ := hc; exact .kernUnlock h
  case sleep => obtain ⟨rfl, rfl, rfl⟩ := hc; exact .sleep
  case test =>
    obtain ⟨rfl, rfl, rfl⟩ := hc
    split
    · exact .leave
    · next hk => exact .test (Bool.not_eq_true _ ▸ hk)
  case wakeup => obtain ⟨rfl, rfl⟩ := hc; exact .wakeup
  case fault => obtain ⟨rfl, rfl, rfl⟩ := hc; exact .fault
  case kill => obtain ⟨rfl, rfl, rfl⟩ := hc; exact .kill
  case fork => obtain ⟨rfl, rfl, rfl⟩ := hc; exact .fork
  case exit => obtain ⟨⟨rfl, hp⟩, rfl, rfl⟩ := hc; exact .exit hp
  case wait => obtain ⟨rfl, rfl, rfl⟩ := hc; exact .wait

theorem fork_exec {n p i : Nat} {d d' : Data} {a : Act} (h : d.fork p i a = some d') :
    Exec n p d (.at (.forkAlloc i)) d' (.at (.forkUnlock i)) := by
  cases a <;> simp only [Data.fork, Option.some.injEq, reduceCtorEq] at h
  case go => exact h ▸ .forkDone
  case fail => exact h ▸ .forkFail
  case undo => exact h ▸ .forkUndo

theorem reap_exec {n p i : Nat} {d : Data} {a : Act} {x : Data × Int} (hz : (d.proc i).state = .zombie)
    (h : d.reap p i a = some x) : Exec n p d (.at (.waitTest i)) x.1 (.at (.waitDrop i x.2)) := by
  cases a <;> simp only [Data.reap, Option.some.injEq, reduceCtorEq] at h
  case go => exact h ▸ .reap hz
  case fail => exact h ▸ .reapFail hz

theorem Kpc.exec_cases {n p : Nat} {d d' : Data} {a : Act} {k : Kpc} {pc : Pc} (hacq : k.acq n p = none)
    (h : k.exec n p d a = some (d', pc)) : Exec n p d (.at k) d' pc := by
  cases k <;> simp only [Kpc.exec, reduceCtorEq] at h <;>
    simp only [Kpc.acq, ite_eq_right_iff, reduceCtorEq, imp_false, Nat.not_lt] at hacq
  case kern =>
    obtain ⟨x, hx, hd⟩ := map_eq_some_iff.1 h
    cases hd
    exact call_exec hx
  case tested => split at h <;> cases h <;> constructor
  case killTest => split at h <;> cases h <;> constructor <;> assumption
  case forkTest => split at h <;> cases h <;> constructor <;> assumption
  case forkAlloc =>
    obtain ⟨x, hx, hd⟩ := map_eq_some_iff.1 h
    cases hd
    exact fork_exec hx
  case exitCopy =>
    obtain ⟨x, hx, hd⟩ := map_eq_some_iff.1 h
    cases hd
    exact .exitCopy hx
  case reparent =>
    split at h
    · next hi =>
      cases h
      split
      · exact .reparentHit hi ‹_›
      · exact .reparentSkip hi ‹_›
    · cases h; exact .reparentEnd (Nat.le_of_not_lt ‹_›)
  case waitScan i kids =>
    split at h
    · next hi =>
      cases h
      split
      · exact .waitHit hi ‹_›
      · exact .waitSkip hi ‹_›
    · next hi =>
      cases h
      split
      · next hk => exact .waitNone (Nat.le_of_not_lt hi) (by simpa using hk)
      · next hk =>
        obtain ⟨hk, hl⟩ : kids = true ∧ (d.proc p).killed = false := by simpa using hk
        exact .waitSleep (Nat.le_of_not_lt hi) hk hl
  case waitTest =>
    split at h
    · next hz =>
      obtain ⟨x, hx, hd⟩ := map_eq_some_iff.1 h
      cases hd
      exact reap_exec hz hx
    · cases h; exact .waitAlive ‹_›
  all_goals
    cases h
    constructor
    try assumption

theorem Pc.exec_cases {n p : Nat} {d d' : Data} {a : Act} {pc pc' : Pc} (hacq : pc.acq n p = none)
    (h : pc.exec n p d a = some (d', pc')) : Exec n p d pc d' pc' := by
  cases pc with
  | «at» k => exact Kpc.exec_cases (by simpa [Pc.acq] using hacq) h
  | yieldState b free => cases h; exact .yieldState
  | save r => cases h; exact .save
  | resume r =>
    cases r <;> simp only [Pc.exec, reduceCtorEq] at h
    cases h
    exact .slept
  | yieldLock => cases h
  | load => cases h

section Step

variable {C : Type} [DecidableEq C] {n : Nat}

/-- The steps of the CPU `c`. -/
inductive Move (n : Nat) (s : St C) (c : C) : St C → Prop
  | acq {p pc l pc'} : s.cpu c = .run p pc → Acq n p pc l pc' → s.lock l = none →
      Move n s c { s with cpu := update s.cpu c (.run p pc'), lock := update s.lock l (some c) }
  | rel {p pc l pc'} : s.cpu c = .run p pc → Rel p pc l pc' → s.lock l = some c →
      Move n s c { s with cpu := update s.cpu c (.run p pc'), lock := update s.lock l none }
  | exec {p pc d' pc'} : s.cpu c = .run p pc → Exec n p s.d pc d' pc' →
      Move n s c { s with cpu := update s.cpu c (.run p pc'), d := d' }
  | intr {p k} (free : k.held 0 = []) : s.cpu c = .run p (.at k) → Move n s c (s.goto c (.run p (.yieldLock k free)))
  | load {p r} : s.cpu c = .run p (.load r) → Move n s c (s.goto c (.sched (.back p)))
  | lock {i} : s.cpu c = .sched (.lock i) → s.lock (.proc i) = none →
      Move n s c { s with cpu := update s.cpu c (.sched (.test i)), lock := update s.lock (.proc i) (some c) }
  | take {i} : s.cpu c = .sched (.test i) → (s.d.proc i).state = .runnable →
      Move n s c { s with
        cpu := update s.cpu c (.sched (.enter i))
        d := s.d.set i fun q => { q with state := .running }
        cproc := update s.cproc c (some i) }
  | skip {i} : s.cpu c = .sched (.test i) → (s.d.proc i).state ≠ .runnable →
      Move n s c (s.goto c (.sched (.unlock i)))
  | enter {i r} : s.cpu c = .sched (.enter i) → (s.d.proc i).context = some r →
      Move n s c { s with cpu := update s.cpu c (.run i (.resume r)), d := s.d.set i fun q => { q with context := none } }
  | back {i} : s.cpu c = .sched (.back i) →
      Move n s c { s with cpu := update s.cpu c (.sched (.unlock i)), cproc := update s.cproc c none }
  | unlock {i j} : s.cpu c = .sched (.unlock i) → s.lock (.proc i) = some c →
      Move n s c { s with cpu := update s.cpu c (.sched (.lock j)), lock := update s.lock (.proc i) none }

theorem St.run_cases {s s' : St C} {c : C} {a : Act} {p : Nat} {pc : Pc} (hp : s.cpu c = .run p pc)
    (h : s.run n c a p pc = some s') : Move n s c s' := by
  unfold St.run at h
  split at h
  · next l pc' ha =>
    unfold St.acquire at h
    split at h
    · next hl => cases h; exact .acq hp (Pc.acq_cases ha) hl
    · cases h
  · next ha =>
    split at h
    · next l pc' hr =>
      unfold St.release at h
      split at h
      · next hl => cases h; exact .rel hp (Pc.rel_cases hr) hl
      · cases h
    · next hr =>
      obtain ⟨x, hx, hd⟩ := map_eq_some_iff.1 h
      cases hd
      exact .exec hp (Pc.exec_cases ha hx)

theorem St.sched_cases {s s' : St C} {c : C} {k : Spc} (hp : s.cpu c = .sched k)
    (h : s.sched n c k = some s') : Move n s c s' := by
  cases k with
  | lock i =>
    simp only [St.sched, St.acquire] at h
    split at h
    · next hl => cases h; exact .lock hp hl
    · cases h
  | test i =>
    simp only [St.sched] at h
    split at h
    · next hs => cases h; exact .take hp hs
    · next hs => cases h; exact .skip hp hs
  | enter i =>
    obtain ⟨r, hr, hd⟩ := map_eq_some_iff.1 h
    cases hd
    exact .enter hp hr
  | back i => cases h; exact .back hp
  | unlock i =>
    simp only [St.sched, St.release] at h
    split at h
    · next hl => cases h; exact .unlock hp hl
    · cases h

theorem Step.move {s s' : St C} {e : C × Act} (h : Step n s e s') : Move n s e.1 s' := by
  obtain ⟨c, a⟩ := e
  unfold Step St.next at h
  split at h
  · next hp => exact St.sched_cases hp h
  · next hp => cases h; exact .load hp
  · next hp =>
    split at h
    · split at h
      · next hf => cases h; exact .intr hf hp
      · cases h
    · exact St.run_cases hp h
  · next hp => exact St.run_cases hp h

theorem Move.cpu_other {s s' : St C} {c c' : C} (h : Move n s c s') (hc : c' ≠ c) : s'.cpu c' = s.cpu c' := by
  cases h <;> simp [St.goto, hc]

theorem Move.run {s s' : St C} {c : C} {p : Nat} {pc' : Pc} (h : Move n s c s') (hk : s'.cpu c = .run p pc') :
    (∃ pc l, s.cpu c = .run p pc ∧ Acq n p pc l pc' ∧ s'.d = s.d) ∨
    (∃ pc l, s.cpu c = .run p pc ∧ Rel p pc l pc' ∧ s'.d = s.d) ∨
    (∃ pc, s.cpu c = .run p pc ∧ Exec n p s.d pc s'.d pc') ∨
    (∃ k free, s.cpu c = .run p (.at k) ∧ pc' = .yieldLock k free ∧ s'.d = s.d) ∨
    ∃ r, s.cpu c = .sched (.enter p) ∧ (s.d.proc p).context = some r ∧ pc' = .resume r ∧
      s'.d = s.d.set p fun q => { q with context := none } := by
  cases h with
  | acq hp ha hl =>
    simp only [update_self] at hk
    cases hk
    exact .inl ⟨_, _, hp, ha, rfl⟩
  | rel hp hr hl =>
    simp only [update_self] at hk
    cases hk
    exact .inr (.inl ⟨_, _, hp, hr, rfl⟩)
  | exec hp he =>
    simp only [update_self] at hk
    cases hk
    exact .inr (.inr (.inl ⟨_, hp, he⟩))
  | intr free hp =>
    simp only [St.goto, update_self] at hk
    cases hk
    exact .inr (.inr (.inr (.inl ⟨_, free, hp, rfl, rfl⟩)))
  | enter hp hr =>
    simp only [update_self] at hk
    cases hk
    exact .inr (.inr (.inr (.inr ⟨_, hp, hr, rfl, rfl⟩)))
  | load | lock | take | skip | back | unlock => simp [St.goto] at hk

/-! ## The locks a CPU holds -/

theorem Kpc.held_free {k : Kpc} (h : k.held 0 = []) (p : Nat) : k.held p = [] := by
  cases k <;> simp_all [Kpc.held]

theorem Acq.held {p : Nat} {pc pc' : Pc} {l : Lock} (h : Acq n p pc l pc') : pc'.held p = l :: pc.held p := by
  cases h <;> rfl

theorem Rel.held {p : Nat} {pc pc' : Pc} {l : Lock} (h : Rel p pc l pc') : (pc.held p).Perm (l :: pc'.held p) := by
  cases h
  case sleepDrop | exitDrop => exact .swap _ _ _
  case yield free => simp [Pc.held, Kpc.held_free free]
  all_goals exact .refl _

theorem Exec.held {p : Nat} {d d' : Data} {pc pc' : Pc} (h : Exec n p d pc d' pc') :
    (pc'.held p).Perm (pc.held p) := by
  cases h
  case kernUnlock h l hl => exact ((List.perm_cons_erase hl).map Lock.other).symm
  case slept w => cases w <;> exact .refl _
  case woken ch b => cases b <;> exact .refl _
  all_goals exact .refl _

/-- The place of each CPU says which locks it holds. -/
structure Locks (s : St C) : Prop where
  nodup : ∀ c, (s.cpu c).held.Nodup
  owner : ∀ l c, s.lock l = some c ↔ l ∈ (s.cpu c).held

namespace Locks

variable {s : St C} {c : C} {l : Lock} {k : Cpu}

omit [DecidableEq C] in
theorem owned (h : Locks s) : Locks.Owned (fun c => (s.cpu c).held) s.lock := ⟨h.nodup, h.owner⟩

omit [DecidableEq C] in
theorem excl (h : Locks s) {c' : C} (hc : l ∈ (s.cpu c).held) (hc' : l ∈ (s.cpu c').held) : c = c' := h.owned.excl hc hc'

theorem held_other {c' : C} (hc : c' ≠ c) : (update s.cpu c k c').held = (s.cpu c').held := by
  rw [update_of_ne hc]

theorem move (h : Locks s) (hk : k.held.Perm (s.cpu c).held) (d : Data) (f : C → Option Nat) :
    Locks { s with cpu := update s.cpu c k, d := d, cproc := f } := by
  have ho : Locks.Owned (fun c' => (update s.cpu c k c').held) s.lock :=
    h.owned.same (fun _ => held_other) (by simpa using hk)
  exact ⟨ho.nodup, ho.owner⟩

theorem acquire (h : Locks s) (hl : s.lock l = none) (hk : k.held = l :: (s.cpu c).held) :
    Locks { s with cpu := update s.cpu c k, lock := update s.lock l (some c) } := by
  have ho : Locks.Owned (fun c' => (update s.cpu c k c').held) (update s.lock l (some c)) :=
    h.owned.acquire hl (fun _ => held_other) (by simp [hk])
  exact ⟨ho.nodup, ho.owner⟩

theorem release (h : Locks s) (hk : (s.cpu c).held.Perm (l :: k.held)) :
    Locks { s with cpu := update s.cpu c k, lock := update s.lock l none } := by
  have ho : Locks.Owned (fun c' => (update s.cpu c k c').held) (update s.lock l none) :=
    h.owned.release (fun _ => held_other) (by simpa using hk)
  exact ⟨ho.nodup, ho.owner⟩

theorem step {s' : St C} (h : Locks s) (hs : Move n s c s') : Locks s' := by
  cases hs with
  | acq hp ha hl => exact h.acquire hl (by rw [hp]; exact ha.held)
  | rel hp hr hl => exact h.release (by rw [hp]; exact hr.held)
  | exec hp he => exact h.move (by rw [hp]; exact he.held) _ s.cproc
  | intr free hp => exact h.move (by rw [hp]; simp [Cpu.held, Pc.held, Kpc.held_free free]) s.d s.cproc
  | load hp => exact h.move (by rw [hp]; exact .refl _) s.d s.cproc
  | lock hp hl => exact h.acquire hl (by rw [hp]; rfl)
  | take hp hs => exact h.move (by rw [hp]; exact .refl _) _ _
  | skip hp hs => exact h.move (by rw [hp]; exact .refl _) s.d s.cproc
  | enter hp hr => exact h.move (by rw [hp]; exact .refl _) _ s.cproc
  | back hp => exact h.move (by rw [hp]; exact .refl _) s.d _
  | unlock hp hl => exact h.release (by rw [hp]; exact .refl _)

end Locks

omit [DecidableEq C] in
theorem locks_init : Locks (init C) := ⟨fun _ => List.nodup_nil, fun _ _ => by simp [init, Cpu.held, Spc.held]⟩

end Step

end Xv6.Sched
