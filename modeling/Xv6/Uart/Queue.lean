import Xv6.Lib.Locks
import Xv6.Lib.Ring
import Xv6.Uart.Code
/-!
# No byte and no wakeup is lost

The queue is a ring of 31 usable slots, and between taking a byte and writing it
to `THR` the holder of `uart_tx_lock` has it in hand. A process that has found
the queue full is on its way to sleep, or asleep, as long as the queue is full
or a `wakeup` is under way that has not passed it yet. It cannot slip through:
from the test on it holds `uart_tx_lock`, and from the `release` of that on
`p->lock`, which `wakeup` needs.
-/

namespace Xv6.Uart

open Run Function

variable {n : Nat} {C : Type}

/-- The lock of the process itself. -/
def Ctx.own : Ctx n C → List Lock
  | .proc i => [.proc i]
  | .intr _ => []

/-- The locks that a thread holds at a place. -/
def Pc.held (x : Ctx n C) : Pc → List Lock
  | .out | .putLock _ | .slept _ | .sleepRelock _ | .intrLock => []
  | .elsewhere j => [.proc j]
  | .putPanic _ | .putTest _ | .sleepLock _ | .start | .wakeLock _ _ | .startWrite _ | .unlock => [.tx]
  | .sleepDrop _ => .tx :: x.own
  | .sleepChan _ | .sleepState _ | .swtch _ | .picked _ | .passed _ | .resumed _ | .sleepUnlock _ => x.own
  | .wakeTest j _ | .wakeUnlock j _ => [.proc j, .tx]

/-- The byte that has left the queue and is not yet in `THR`. -/
def Pc.hand : Pc → List UInt8
  | .wakeLock _ b | .wakeTest _ b | .wakeUnlock _ b | .startWrite b => [b]
  | _ => []

/-- What is known of a process by the place where its thread is. -/
def Pc.Fits (p : Proc) : Pc → Prop
  | .out | .elsewhere _ => p.onTx = false
  | .swtch _ | .slept _ | .picked _ | .passed _ => p.onTx = true
  | .sleepState _ => p.state ≠ .sleeping ∧ p.onTx = true
  | .resumed _ => p.state ≠ .sleeping
  | _ => p.state ≠ .sleeping ∧ p.onTx = false

/-- The process is on its way to sleep, or asleep, because the queue was full. -/
def Pc.Waits (p : Proc) : Pc → Prop
  | .sleepLock _ | .sleepDrop _ | .sleepChan _ | .sleepState _ => True
  | .swtch _ | .slept _ | .picked _ | .passed _ => p.state = .sleeping
  | _ => False

/-- The thread is in `wakeup(&uart_tx_r)` and will still look at process `i`. -/
def Pc.Wakes (i : Nat) : Pc → Prop
  | .wakeLock j _ | .wakeTest j _ => j ≤ i
  | .wakeUnlock j _ => j < i
  | _ => False

/-- What the holder of `uart_tx_lock` has in hand. -/
def St.hand (s : St n C) : List UInt8 := ((s.lock .tx).map fun x => (s.pc x).hand).getD []

structure Inv (s : St n C) : Prop where
  locks : Locks.Owned (fun x => (s.pc x).held x) s.lock
  fits : ∀ i, (s.pc (.proc i)).Fits (s.d.proc i)
  waits : ∀ i, (s.pc (.proc i)).Waits (s.d.proc i) → s.d.Full ∨ ∃ x, (s.pc x).Wakes i
  queue : ∃ q, Ring.Holds UART_TX_BUF_SIZE UART_TX_BUF_SIZE s.d.buf s.d.r s.d.w q ∧ q.length < UART_TX_BUF_SIZE ∧
    s.d.accepted = s.d.sent ++ s.hand ++ q

/-! ## Places -/

section Places
variable {x : Ctx n C} {k k' : Pc} {l : Lock} {d d' : Data}

theorem Acq.held (h : Acq x k l k') : (k'.held x).Perm (l :: k.held x) := by
  cases h
  case sleep => exact .swap _ _ _
  all_goals exact .refl _

theorem Rel.held (h : Rel x k l k') : (k.held x).Perm (l :: k'.held x) := by
  cases h <;> exact .refl _

theorem Exec.held (h : Exec d x k d' k') : k'.held x = k.held x := by
  cases h <;> rfl

theorem Acq.hand (h : Acq x k l k') : k'.hand = k.hand := by
  cases h <;> rfl

theorem Rel.hand (h : Rel x k l k') : k'.hand = k.hand := by
  cases h <;> rfl

theorem Pc.hand_tx (h : Lock.tx ∉ k.held x) : k.hand = [] := by
  cases k <;> simp_all [Pc.hand, Pc.held]

theorem Pc.Wakes.tx {i : Nat} (h : k.Wakes i) : Lock.tx ∈ k.held x := by
  cases k <;> simp_all [Pc.Wakes, Pc.held]

theorem Acq.wakes {i : Nat} (h : Acq x k l k') (hk : k.Wakes i) : k'.Wakes i := by
  cases h <;> exact hk

theorem Rel.wakes {i : Nat} (h : Rel x k l k') (hk : k.Wakes i) : k'.Wakes i := by
  cases h <;> exact hk

theorem Acq.fits {p : Proc} (h : Acq x k l k') (hk : k.Fits p) : k'.Fits p := by
  cases h <;> exact hk

theorem Rel.fits {p : Proc} (h : Rel x k l k') (hk : k.Fits p) : k'.Fits p := by
  cases h
  case unlock => exact hk.2
  all_goals exact hk

theorem Acq.waits {p : Proc} (h : Acq x k l k') (hk : k'.Waits p) : k.Waits p := by
  cases h <;> exact hk

theorem Rel.waits {p : Proc} (h : Rel x k l k') (hk : k'.Waits p) : k.Waits p := by
  cases h <;> exact hk

end Places

/-! ## What a thread does to processes -/

/-- What other threads do to a process: they wake it up. -/
def Woken (p p' : Proc) : Prop := p' = p ∨ p' = { p with state := .runnable }

theorem Woken.fits {p p' : Proc} {k : Pc} (h : Woken p p') (hk : k.Fits p) : k.Fits p' := by
  rcases h with rfl | rfl
  · exact hk
  · cases k <;> simp_all [Pc.Fits]

theorem Woken.waits {p p' : Proc} {k : Pc} (h : Woken p p') (hk : k.Waits p') : k.Waits p := by
  rcases h with rfl | rfl
  · exact hk
  · cases k <;> simp_all [Pc.Waits]

theorem woken_wake (p : Proc) : Woken p p.wake := by
  unfold Proc.wake
  split
  · exact .inr rfl
  · exact .inl rfl

theorem woken_kill (p : Proc) : Woken p p.kill := by
  unfold Proc.kill
  split
  · exact .inr rfl
  · exact .inl rfl

theorem Data.set_proc (d : Data) (i j : Nat) (f : Proc → Proc) :
    (d.set i f).proc j = if j = i then f (d.proc j) else d.proc j := by
  by_cases h : j = i
  · subst h
    simp [Data.set]
  · simp [Data.set, h]

section Threads
variable {i : Fin n} {x : Ctx n C} {k k' : Pc} {d d' : Data}

theorem Exec.other (h : Exec d x k d' k') (hx : x ≠ .proc i) : Woken (d.proc i) (d'.proc i) := by
  cases h
  case chan j c | state j c | run j c _ | tidy j c =>
    rw [Data.set_proc, if_neg fun e => hx (congrArg Ctx.proc (Fin.ext e.symm))]
    exact .inl rfl
  case wake j b =>
    rw [Data.set_proc]
    split
    · exact woken_wake _
    · exact .inl rfl
  case kill j =>
    rw [Data.set_proc]
    split
    · exact woken_kill _
    · exact .inl rfl
  all_goals exact .inl rfl

theorem Exec.fits (h : Exec d (.proc i : Ctx n C) k d' k') (hk : k.Fits (d.proc i)) : k'.Fits (d'.proc i) := by
  cases h
  case call c hr => exact ⟨by rw [hr]; exact Sched.State.noConfusion, hk⟩
  case chan | state | run | tidy => simp_all [Data.set_proc, Pc.Fits]
  case wake j b =>
    rw [Data.set_proc]
    split
    · exact (woken_wake _).fits hk
    · exact hk
  case kill j =>
    rw [Data.set_proc]
    split
    · exact (woken_kill _).fits hk
    · exact hk
  all_goals exact hk

theorem Exec.waits (h : Exec d (.proc i : Ctx n C) k d' k') (hk : k'.Waits (d'.proc i)) :
    k.Waits (d.proc i) ∨ d'.Full ∧ ∃ c, k = .putTest c := by
  cases h
  case full c hf => exact .inr ⟨hf, c, rfl⟩
  case state => exact .inl trivial
  case chan => exact .inl trivial
  all_goals first
    | exact .inl hk
    | exact absurd hk id

/-- A `wakeup` ends when it has looked at all processes, and passes a process when it has looked at it. -/
theorem Exec.wakes (h : Exec d x k d' k') (hk : k.Wakes i) :
    k'.Wakes i ∨ ∃ b, k = .wakeTest i b ∧ d' = d.set i Proc.wake := by
  cases h
  case woken j b hj => exact absurd hk (by simp only [Pc.Wakes]; have := i.isLt; omega)
  case wake j b =>
    rcases Nat.lt_or_eq_of_le hk with hlt | rfl
    · exact .inl hlt
    · exact .inr ⟨b, rfl, rfl⟩
  all_goals exact absurd hk id

/-- A full queue stays full until a byte is taken, and then everybody will be woken up. -/
theorem Exec.stays_full (h : Exec d x k d' k') (hf : d.Full) : d'.Full ∨ k'.Wakes i := by
  cases h
  case store c hn => exact absurd hf hn
  case take => exact .inr (Nat.zero_le _)
  all_goals exact .inl hf

end Threads

/-! ## Steps -/

section Steps
variable [DecidableEq C] {s s' : St n C} {x : Ctx n C} {k' : Pc} {l : Lock}

omit [DecidableEq C] in
theorem St.hand_congr (hl : s'.lock .tx = s.lock .tx) (hp : ∀ y, (s'.pc y).hand = (s.pc y).hand) : s'.hand = s.hand := by
  simp only [St.hand, hl, hp]

omit [DecidableEq C] in
theorem St.hand_free (hl : s.lock .tx = none) : s.hand = [] := by
  simp [St.hand, hl]

omit [DecidableEq C] in
theorem Inv.hand_held (h : Inv s) (hx : Lock.tx ∈ (s.pc x).held x) : s.hand = (s.pc x).hand := by
  simp [St.hand, (h.locks.owner .tx x).2 hx]

theorem goto_other {y : Ctx n C} (hy : y ≠ x) : update s.pc x k' y = s.pc y := update_of_ne hy ..

theorem goto_hand (hk : k'.hand = (s.pc x).hand) (y : Ctx n C) : (update s.pc x k' y).hand = (s.pc y).hand := by
  by_cases hy : y = x
  · rw [hy, update_self, hk]
  · rw [goto_other hy]

theorem goto_held {y : Ctx n C} (hy : y ≠ x) : (update s.pc x k' y).held y = (s.pc y).held y := by
  rw [goto_other hy]

theorem Inv.goto_waits (h : Inv s) {d : Data} (hf : s.d.Full → d.Full) (hw : ∀ i : Fin n, (s.pc x).Wakes i → k'.Wakes i)
    (ho : ∀ i, x ≠ .proc i → Woken (s.d.proc i) (d.proc i))
    (hx : ∀ i, x = .proc i → k'.Waits (d.proc i) → (s.pc x).Waits (s.d.proc i)) (i : Fin n)
    (hi : (update s.pc x k' (.proc i)).Waits (d.proc i)) :
    d.Full ∨ ∃ y, (update s.pc x k' y).Wakes i := by
  have hold : (s.pc (.proc i)).Waits (s.d.proc i) := by
    by_cases hp : x = .proc i
    · subst hp
      rw [update_self] at hi
      exact hx i rfl hi
    · rw [goto_other (Ne.symm hp)] at hi
      exact (ho i hp).waits hi
  rcases h.waits i hold with hfull | ⟨y, hy⟩
  · exact .inl (hf hfull)
  · refine .inr ⟨y, ?_⟩
    by_cases hyx : y = x
    · rw [hyx, update_self]
      exact hw i (hyx ▸ hy)
    · rwa [goto_other hyx]

theorem Inv.goto_fits (h : Inv s) {d : Data} (ho : ∀ i, x ≠ .proc i → Woken (s.d.proc i) (d.proc i))
    (hx : ∀ i, x = .proc i → (s.pc x).Fits (s.d.proc i) → k'.Fits (d.proc i)) (i : Fin n) :
    (update s.pc x k' (.proc i)).Fits (d.proc i) := by
  by_cases hp : x = .proc i
  · have hfit := h.fits i
    rw [← hp] at hfit ⊢
    rw [update_self]
    exact hx i hp hfit
  · rw [goto_other (Ne.symm hp)]
    exact (ho i hp).fits (h.fits i)

theorem Inv.acq (h : Inv s) (ha : Acq x (s.pc x) l k') (hl : s.lock l = none) :
    Inv { s with pc := update s.pc x k', lock := update s.lock l (some x) } where
  locks := h.locks.acquire hl (fun y hy => goto_held hy) (by simpa using ha.held)
  fits := h.goto_fits (fun _ _ => .inl rfl) fun _ _ => ha.fits
  waits := h.goto_waits id (fun _ => ha.wakes) (fun _ _ => .inl rfl) fun _ _ => ha.waits
  queue := by
    obtain ⟨q, hq, hlen, hacc⟩ := h.queue
    refine ⟨q, hq, hlen, ?_⟩
    rw [hacc]
    congr 2
    by_cases htx : l = .tx
    · subst htx
      have hnone : (s.pc x).hand = [] := Pc.hand_tx (h.locks.none_of_free hl x)
      simp [St.hand, hl, ha.hand, hnone]
    · exact (St.hand_congr (update_of_ne (Ne.symm htx) ..) (goto_hand ha.hand)).symm

theorem Inv.rel (h : Inv s) (hr : Rel x (s.pc x) l k') :
    Inv { s with pc := update s.pc x k', lock := update s.lock l none } where
  locks := h.locks.release (fun y hy => goto_held hy) (by simpa using hr.held)
  fits := h.goto_fits (fun _ _ => .inl rfl) fun _ _ => hr.fits
  waits := h.goto_waits id (fun _ => hr.wakes) (fun _ _ => .inl rfl) fun _ _ => hr.waits
  queue := by
    obtain ⟨q, hq, hlen, hacc⟩ := h.queue
    refine ⟨q, hq, hlen, ?_⟩
    rw [hacc]
    congr 2
    by_cases htx : l = .tx
    · subst htx
      have hnodup := hr.held.nodup_iff.1 (h.locks.nodup x)
      have hnone : k'.hand = [] := Pc.hand_tx (List.nodup_cons.1 hnodup).1
      rw [h.hand_held (hr.held.mem_iff.2 (List.mem_cons_self ..)), ← hr.hand, hnone]
      simp [St.hand]
    · exact (St.hand_congr (update_of_ne (Ne.symm htx) ..) (goto_hand hr.hand)).symm

omit [DecidableEq C] in
/-- A process that `wakeup` has just looked at does not wait: had it `p->lock` or `uart_tx_lock`, the thread in `wakeup`
would not have them. -/
theorem Inv.waked (h : Inv s) {i : Fin n} {b : UInt8} (hx : s.pc x = .wakeTest i b) (hne : x ≠ .proc i) :
    ¬ (s.pc (.proc i)).Waits (s.d.proc i).wake := by
  intro hw
  have hlock : ∀ l ∈ [Lock.proc i, Lock.tx], l ∉ (s.pc (.proc i)).held (.proc i : Ctx n C) := by
    intro l hl hm
    refine hne (h.locks.excl ?_ hm)
    rw [hx]
    exact hl
  have hp := hlock (.proc i) (by simp)
  have ht := hlock .tx (by simp)
  have hfits := h.fits i
  cases hk : s.pc (.proc i) <;> rw [hk] at hw hp ht hfits <;> simp [Pc.held, Ctx.own, Pc.Waits] at hp ht hw
  -- left is a process that has been switched off
  simp only [Proc.wake] at hw
  split at hw
  · cases hw
  · next hn => exact hn ⟨hw, hfits⟩

theorem Inv.exec_waits (h : Inv s) {d' : Data} (he : Exec s.d x (s.pc x) d' k') (i : Fin n)
    (hi : (update s.pc x k' (.proc i)).Waits (d'.proc i)) :
    d'.Full ∨ ∃ y, (update s.pc x k' y).Wakes i := by
  have hold : (s.pc (.proc i)).Waits (s.d.proc i) ∨ d'.Full := by
    by_cases hp : x = .proc i
    · subst hp
      rw [update_self] at hi
      exact (he.waits hi).imp_right And.left
    · rw [goto_other (Ne.symm hp)] at hi
      exact .inl ((he.other hp).waits hi)
  rcases hold with hold | hfull
  · rcases h.waits i hold with hfull | ⟨y, hy⟩
    · refine (he.stays_full (i := i) hfull).imp_right fun hk => ⟨x, ?_⟩
      rw [update_self]
      exact hk
    · by_cases hyx : y = x
      · subst hyx
        rcases he.wakes hy with hk | ⟨b, hk, rfl⟩
        · refine .inr ⟨y, ?_⟩
          rwa [update_self]
        · -- the thread has passed the process, which therefore does not wait
          by_cases hp : y = .proc i
          · rw [← hp, hk] at hold
            exact absurd hold id
          · rw [goto_other (Ne.symm hp), Data.set_proc, if_pos rfl] at hi
            exact absurd hi (h.waked hk hp)
      · refine .inr ⟨y, ?_⟩
        rwa [goto_other hyx]
  · exact .inl hfull

theorem Inv.exec_queue (h : Inv s) {d' : Data} (he : Exec s.d x (s.pc x) d' k') :
    ∃ q, Ring.Holds UART_TX_BUF_SIZE UART_TX_BUF_SIZE d'.buf d'.r d'.w q ∧ q.length < UART_TX_BUF_SIZE ∧
      d'.accepted = d'.sent ++ St.hand { s with pc := update s.pc x k', d := d' } ++ q := by
  obtain ⟨q, hq, hlen, hacc⟩ := h.queue
  have hheld : Lock.tx ∈ (s.pc x).held x →
      s.hand = (s.pc x).hand ∧ St.hand { s with pc := update s.pc x k', d := d' } = k'.hand := by
    intro hx
    refine ⟨h.hand_held hx, ?_⟩
    simp [St.hand, (h.locks.owner .tx x).2 hx]
  have hsame : k'.hand = (s.pc x).hand → St.hand { s with pc := update s.pc x k', d := d' } = s.hand :=
    fun e => St.hand_congr rfl (goto_hand e)
  have hw : s.d.w < UART_TX_BUF_SIZE := hq.write ▸ Nat.mod_lt _ (Nat.zero_lt_of_lt hlen)
  generalize hk : s.pc x = k at he hheld hsame
  cases he
  case store c hnf =>
    obtain ⟨h1, h2⟩ := hheld (by simp [Pc.held])
    have hroom : q.length + 1 < UART_TX_BUF_SIZE := by
      have hfull : ¬ (s.d.w + 1) % UART_TX_BUF_SIZE = s.d.r := hnf
      have hlt := hq.lt
      rw [hq.write] at hfull
      simp only [UART_TX_BUF_SIZE] at *
      omega
    have hpush := hq.push (Nat.dvd_refl _) hlen c
    rw [Nat.mod_eq_of_lt hw] at hpush
    refine ⟨q ++ [c], hpush, by simpa using hroom, ?_⟩
    rw [h2]
    simp [hacc, h1, Pc.hand]
  case take hne hidle =>
    obtain ⟨h1, h2⟩ := hheld (by simp [Pc.held])
    cases q with
    | nil =>
      refine absurd hq.write ?_
      rw [List.length_nil, Nat.add_zero, Nat.mod_eq_of_lt hq.lt]
      exact hne
    | cons b q =>
      obtain ⟨hb, hpop⟩ := hq.pop (Nat.dvd_refl _)
      rw [Nat.mod_eq_of_lt hq.lt] at hb
      refine ⟨q, hpop, Nat.lt_of_succ_lt hlen, ?_⟩
      rw [h2]
      simp [hacc, h1, Pc.hand, hb]
  case write b =>
    obtain ⟨h1, h2⟩ := hheld (by simp [Pc.held])
    refine ⟨q, hq, hlen, ?_⟩
    rw [h2]
    simp [hacc, h1, Pc.hand]
  all_goals
    refine ⟨q, hq, hlen, ?_⟩
    rw [hsame rfl]
    exact hacc

theorem Inv.exec (h : Inv s) {d' : Data} (he : Exec s.d x (s.pc x) d' k') :
    Inv { s with pc := update s.pc x k', d := d' } where
  locks := h.locks.same (fun y hy => goto_held hy) (by simp [he.held])
  fits := h.goto_fits (fun _ hx => he.other hx) fun i hx hfit => by subst hx; exact he.fits hfit
  waits := h.exec_waits he
  queue := h.exec_queue he

omit [DecidableEq C] in
theorem Inv.env (h : Inv s) {d' : Data} (he : Env s.d (fun i => s.pc (.proc i) = .out) d') : Inv { s with d := d' } := by
  cases he with
  | idle => exact ⟨h.locks, h.fits, h.waits, h.queue⟩
  | panic => exact ⟨h.locks, h.fits, h.waits, h.queue⟩
  | @proc i st hout =>
    refine ⟨h.locks, fun j => ?_, fun j hj => h.waits j ?_, h.queue⟩
    · have hfit := h.fits j
      by_cases hji : j = i
      · subst hji
        rw [Data.set_proc, if_pos rfl, hout]
        rfl
      · rwa [Data.set_proc, if_neg fun e => hji (Fin.ext e)]
    · by_cases hji : j = i
      · subst hji
        rw [hout] at hj
        exact absurd hj id
      · rwa [Data.set_proc, if_neg fun e => hji (Fin.ext e)] at hj

theorem Inv.step {e : Option (Ctx n C)} (h : Inv s) (hs : Step s e s') : Inv s' := by
  cases hs with
  | acq ha hl => exact h.acq ha hl
  | rel hr _ => exact h.rel hr
  | exec he => exact h.exec he
  | env he => exact h.env he

end Steps

theorem inv_init {s : St n C} (h : Init s) : Inv s where
  locks := ⟨fun x => by rw [h.pc]; exact List.nodup_nil, fun l x => by simp [h.lock, h.pc, Pc.held]⟩
  fits i := by rw [h.pc]; exact h.onTx i
  waits i hi := by rw [h.pc] at hi; exact absurd hi id
  queue := by
    refine ⟨[], ⟨?_, Nat.zero_le _, ?_, fun i hi => absurd hi (Nat.not_lt_zero i)⟩, by decide, ?_⟩
    · rw [h.r]; decide
    · rw [h.r, h.w]; rfl
    · simp [h.accepted, h.sent, St.hand_free (h.lock .tx)]

variable [DecidableEq C]

theorem inv_reach {s : St n C} (h : Reach s) : Inv s := Run.Reach.inv Inv (fun _ => inv_init) (fun _ _ _ => Inv.step) h

/-- **The output queue**: its indices stay in range, the bytes written to `THR` are an initial part of the bytes accepted,
and while `uart_tx_lock` is free nobody sleeps on `&uart_tx_r` with a slot free. -/
theorem uart_queue {s : St n C} (h : Reach s) :
    s.d.r < UART_TX_BUF_SIZE ∧ s.d.w < UART_TX_BUF_SIZE ∧ s.d.sent <+: s.d.accepted ∧
      (s.lock .tx = none → ∀ i : Fin n, (s.d.proc i).state = .sleeping → (s.d.proc i).onTx = true → s.d.Full) := by
  have hi := inv_reach h
  obtain ⟨q, hq, hlen, hacc⟩ := hi.queue
  refine ⟨hq.lt, hq.write ▸ Nat.mod_lt _ (Nat.zero_lt_of_lt hlen), ?_, fun hfree i hs hon => ?_⟩
  · rw [hacc, List.append_assoc]
    exact List.prefix_append _ _
  · have hfits := hi.fits i
    have hwaits : (s.pc (.proc i)).Waits (s.d.proc i) := by
      cases hk : s.pc (.proc i) <;> rw [hk] at hfits <;> simp_all [Pc.Fits, Pc.Waits]
    refine (hi.waits i hwaits).resolve_right ?_
    rintro ⟨x, hx⟩
    exact hi.locks.none_of_free hfree x hx.tx

/-- Two processes and one CPU, before anything has been printed. -/
def boot : St 2 Unit where
  d := ⟨fun _ => 0, 0, 0, true, false, fun _ => ⟨.running, false⟩, [], []⟩
  lock := fun _ => none
  pc := fun _ => .out

/-- A process has put a byte into the queue and taken it out again, and is at the first slot of `wakeup`. -/
theorem uart_queue_one : ∃ s : St 2 Unit, s.d.accepted = [65] ∧ s.d.r = 1 ∧ s.d.w < UART_TX_BUF_SIZE ∧
    s.d.sent <+: s.d.accepted := by
  have h : Reach boot := .init ⟨rfl, rfl, rfl, rfl, fun _ => rfl, fun _ => rfl, fun _ => rfl⟩
  have h := h.step (.exec (.call (i := 0) (c := 65) rfl))
  have h := h.step (.acq (x := .proc 0) .put rfl)
  have h := h.step (.exec (x := .proc 0) (.panic rfl))
  have h := h.step (.exec (x := .proc 0) (.store (by decide)))
  have h := h.step (.exec (x := .proc 0) (.take (by decide) rfl))
  exact ⟨_, rfl, rfl, (uart_queue h).2.1, (uart_queue h).2.2.1⟩

end Xv6.Uart
