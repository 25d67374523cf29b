import Xv6.Console.Line
/-!
# What the readers get

The bytes that leave the queue are, in order, the bytes that were committed. A
`^D` leaves it with a call that has copied nothing, and that call returns 0; every
other byte is copied out by the call that took it.
-/

namespace Xv6.Console

open Ring Function List

/-! ## A critical section of consoleread -/

section Read
variable {s : Cons} {q p : List UInt8}

theorem Is.pop {b : UInt8} (h : Is s (b :: q) p) :
    s.buf (s.r % INPUT_BUF) = b ∧ Is { s with r := (s.r + 1) % 2 ^ 32 } q p := by
  obtain ⟨hb, hh⟩ := h.held.pop dvd32
  refine ⟨hb, hh, ?_, h.clean⟩
  have hw := h.w
  rw [length_cons] at hw
  dsimp only
  omega

theorem Is.none_iff (h : Is s q p) : s.r = s.w ↔ q = [] := by
  have hc := h.counts.1
  have hr := h.held.lt
  have hw := h.counts.2.2.2.1
  rw [← length_eq_zero_iff, ← hc]
  unfold sub32
  omega

theorem Is.slice_queue {l l' : List UInt8} (h : Is s (l ++ l') p) : slice s.buf s.r l.length = l := by
  refine slice_eq fun k hk => ?_
  have hl : k < (l ++ l').length := by
    rw [length_append]
    omega
  rw [h.held.items k (by rw [length_append]; omega), getElem_append_left hl, getElem_append_left hk]

/-- What a critical section of `consoleread` has done: the bytes `gone` have left the queue. -/
structure Took (s : Cons) (target n : Nat) (killed : Bool) (q p gone q' : List UInt8) (k : Section) : Prop where
  queue : q = gone ++ q'
  is : Is k.cons q' p
  r : k.cons.r = (s.r + gone.length) % 2 ^ 32
  left : k.left + k.out.length = n
  plain : C 'D' ∉ k.out
  /-- It waits for more, or it has copied something, or it has taken a `^D` and nothing else. -/
  how : k.how = (if killed then .fail else .sleep) ∧ gone = k.out ∧ q' = [] ∧ 0 < k.left ∧ NEWLINE ∉ k.out ∨
    k.how = .done ∧ gone = k.out ∧ k.left < target ∧ (∀ x y, k.out = x ++ NEWLINE :: y → y = []) ∨
    k.how = .done ∧ gone = [C 'D'] ∧ k.out = [] ∧ k.left = target

theorem consoleread_spec {target : Nat} (ht : 0 < target) {dst : Nat → Bool} (hd : ∀ i < target, dst i = true)
    (killed : Bool) (n : Nat) (hn : n ≤ target) (h : Is s q p) :
    ∃ gone q', Took s target n killed q p gone q' (consoleread killed dst target n s) := by
  induction n generalizing s q with
  | zero =>
    refine ⟨[], q, rfl, h, ?_, rfl, not_mem_nil, .inr (.inl ⟨rfl, rfl, ht, fun x y he => ?_⟩)⟩
    · exact (Nat.mod_eq_of_lt h.held.lt).symm
    · have he : [] = x ++ NEWLINE :: y := he
      simp at he
  | succ n ih =>
    unfold consoleread
    cases q with
    | nil =>
      rw [if_pos (h.none_iff.2 rfl)]
      refine ⟨[], [], rfl, h, ?_, rfl, not_mem_nil, .inl ⟨rfl, rfl, rfl, Nat.succ_pos n, not_mem_nil⟩⟩
      exact (Nat.mod_eq_of_lt h.held.lt).symm
    | cons b q =>
      rw [if_neg fun he => by simpa using h.none_iff.1 he]
      obtain ⟨hb, hpop⟩ := h.pop
      dsimp only
      rw [hb]
      by_cases heof : b = C 'D'
      · rw [if_pos heof]
        by_cases hlt : n + 1 < target
        · -- the index goes back to where it was
          have hback : sub32 ((s.r + 1) % 2 ^ 32) 1 = s.r := by
            have hr := h.held.lt
            unfold sub32
            omega
          rw [if_pos hlt, hback]
          refine ⟨[], b :: q, rfl, h, ?_, rfl, not_mem_nil, .inr (.inl ⟨rfl, rfl, hlt, fun x y he => ?_⟩)⟩
          · exact (Nat.mod_eq_of_lt h.held.lt).symm
          · simp at he
        · rw [if_neg hlt]
          exact ⟨[b], q, rfl, hpop, rfl, rfl, not_mem_nil,
            .inr (.inr ⟨rfl, by rw [heof], rfl, by dsimp only; omega⟩)⟩
      · have hmap : dst (target - (n + 1)) = true := hd _ (by omega)
        rw [if_neg heof, hmap, if_neg (by decide)]
        by_cases hnl : b = NEWLINE
        · rw [if_pos hnl]
          refine ⟨[b], q, rfl, hpop, rfl, rfl, by simpa using Ne.symm heof,
            .inr (.inl ⟨rfl, rfl, by dsimp only; omega, fun x y he => ?_⟩)⟩
          cases x with
          | nil => simpa using (List.cons.inj he).2.symm
          | cons z x => simp at he
        · rw [if_neg hnl]
          obtain ⟨gone, q', hk⟩ := ih (by omega) hpop
          generalize consoleread killed dst target n { s with r := (s.r + 1) % 2 ^ 32 } = k at hk
          have hleft := hk.left
          refine ⟨b :: gone, q', by rw [hk.queue]; rfl, hk.is, ?_, ?_, ?_, ?_⟩
          · rw [hk.r, Nat.mod_add_mod, length_cons, Nat.add_assoc, Nat.add_comm 1]
          · dsimp only
            rw [length_cons]
            omega
          · simpa [not_or] using ⟨Ne.symm heof, hk.plain⟩
          · rcases hk.how with ⟨h1, h2, h3, h4, h5⟩ | ⟨h1, h2, h3, h4⟩ | ⟨-, -, -, h4⟩
            · exact .inl ⟨h1, by rw [h2], h3, h4, by simpa [not_or] using ⟨Ne.symm hnl, h5⟩⟩
            · refine .inr (.inl ⟨h1, by rw [h2], h3, fun x y he => ?_⟩)
              cases x with
              | nil => exact absurd (List.cons.inj he).1 hnl
              | cons z x => exact h4 x y (List.cons.inj he).2
            · omega

end Read

/-! ## The committed bytes -/

theorem store_r (c : UInt8) (s : Cons) : (store c s).1.r = s.r := by
  unfold store consputc
  dsimp only
  split <;> rfl

theorem killLine_r (n : Nat) (s : Cons) : (killLine n s).r = s.r := by
  induction n generalizing s with
  | zero => rfl
  | succ n ih =>
    rw [killLine]
    split
    · rw [ih, erase_eq]
    · rfl

theorem consoleintr_r (c : UInt8) (s : Cons) : (consoleintr c s).1.r = s.r := by
  unfold consoleintr
  split
  · rfl
  split
  · exact killLine_r _ _
  split
  · dsimp only
    split
    · rw [erase_eq]
    · rfl
  split
  · exact store_r _ _
  · rfl

theorem Line.input_queue (l : Line) (c : UInt8) : ∃ new, (l.input c).queue = l.queue ++ new := by
  unfold Line.input
  by_cases h1 : c = C 'P' ∨ c = 0
  · exact ⟨[], by rw [if_pos h1, append_nil]⟩
  by_cases h2 : c = C 'U'
  · exact ⟨[], by rw [if_neg h1, if_pos h2, append_nil]⟩
  by_cases h3 : c = C 'H' ∨ c = DELETE
  · exact ⟨[], by rw [if_neg h1, if_neg h2, if_pos h3, append_nil]⟩
  by_cases h4 : l.queue.length + l.pending.length = INPUT_BUF
  · exact ⟨[], by rw [if_neg h1, if_neg h2, if_neg h3, if_pos h4, append_nil]⟩
  rw [if_neg h1, if_neg h2, if_neg h3, if_neg h4]
  dsimp only
  generalize (if c = RETURN then NEWLINE else c) = b
  split
  · exact ⟨_, append_assoc ..⟩
  · exact ⟨[], (append_nil _).symm⟩

theorem Is.slice_committed {s s' : Cons} {q p new p' : List UInt8} (h : Is s q p) (h' : Is s' (q ++ new) p')
    (hr : s'.r = s.r) : slice s'.buf s.w (sub32 s'.w s.w) = new := by
  have hlt := h.held.lt
  have hroom := h'.room
  simp only [length_append, INPUT_BUF] at hroom
  have hsub : sub32 s'.w s.w = new.length := by
    rw [h'.w, h.w, hr, length_append]
    unfold sub32
    omega
  rw [hsub, h.w]
  refine slice_eq fun k hk => ?_
  have hl : q.length + k < (q ++ new).length := by
    rw [length_append]
    omega
  rw [slot32, Nat.add_assoc, ← hr, h'.held.items (q.length + k) (by rw [length_append]; omega),
    getElem_append_left hl, getElem_append_right (Nat.le_add_right _ _)]
  simp only [Nat.add_sub_cancel_left]

/-! ## Runs -/

/-- The bytes that a call has taken. -/
def bytesOf (id : Nat) (log : List (Nat × UInt8)) : List UInt8 := (log.filter fun x => x.1 = id).map Prod.snd

variable {P : Type}

/-- A call in progress. -/
structure InCall (s : St P) (c : Call) : Prop where
  id : c.id < s.calls
  size : 0 < c.n
  mapped : ∀ i < c.n.toNat, c.dst i = true
  left : c.left + c.out.length = c.n.toNat
  some : 0 < c.left
  log : bytesOf c.id s.log = c.out
  line : NEWLINE ∉ c.out
  eof : C 'D' ∉ c.out
  running : ∀ r ∈ s.rets, r.id ≠ c.id

/-- A call that has returned: it has copied out the bytes it took, or it has taken a `^D` and returned 0. -/
structure Returned (s : St P) (r : Ret P) : Prop where
  id : r.id < s.calls
  log : r.value ≠ 0 ∧ bytesOf r.id s.log = r.out ∧ C 'D' ∉ r.out ∨ r.value = 0 ∧ r.out = [] ∧ bytesOf r.id s.log = [C 'D']
  value : r.value = r.out.length ∨ r.value = -1 ∧ s.killed r.proc = true
  line : ∀ x y, r.out = x ++ NEWLINE :: y → y = []

structure Inv (s : St P) : Prop where
  valid : Valid s.cons
  stream : s.stream = s.log.map Prod.snd ++ s.cons.queue
  fresh : ∀ x ∈ s.log, x.1 < s.calls
  calls : ∀ p c, (s.pc p).call = some c → InCall s c
  apart : ∀ p q c d, (s.pc p).call = some c → (s.pc q).call = some d → c.id = d.id → p = q
  rets : ∀ r ∈ s.rets, Returned s r
  once : (s.rets.map Ret.id).Nodup
  eof : (s.rets.filter fun r => r.value = 0).map Ret.id = (s.log.filter fun x => x.2 = C 'D').map Prod.fst
  asleep : ∀ p c, s.pc p = .sleeping c → s.cons.queue = []

theorem inv_init {s : St P} (h : Init s) : Inv s where
  valid := h.valid
  stream := by rw [h.stream, h.log, map_nil, nil_append]
  fresh := by simp [h.log]
  calls p c hc := by simp [h.pc, Pc.call] at hc
  apart p q c d hc := by simp [h.pc, Pc.call] at hc
  rets := by simp [h.rets]
  once := by simp [h.rets]
  eof := by rw [h.rets, h.log]; rfl
  asleep p c hc := by simp [h.pc] at hc

@[simp] theorem Pc.call_wake (pc : Pc) : pc.wake.call = pc.call := by cases pc <;> rfl

theorem Pc.wake_ne (pc : Pc) (c : Call) : pc.wake ≠ .sleeping c := by
  cases pc <;> simp [Pc.wake]

theorem bytesOf_append (id : Nat) (l l' : List (Nat × UInt8))
    : bytesOf id (l ++ l') = bytesOf id l ++ bytesOf id l' := by
  rw [bytesOf, filter_append, map_append]
  rfl

theorem bytesOf_self (id : Nat) (l : List UInt8) : bytesOf id (l.map fun b => (id, b)) = l := by
  simp [bytesOf, filter_map, comp_def]

theorem bytesOf_other {id id' : Nat} (h : id ≠ id') (l : List UInt8) : bytesOf id (l.map fun b => (id', b)) = [] := by
  simp [bytesOf, filter_map, comp_def, Ne.symm h]

theorem bytesOf_fresh {id : Nat} {log : List (Nat × UInt8)} (h : ∀ x ∈ log, x.1 < id) : bytesOf id log = [] := by
  rw [bytesOf, map_eq_nil_iff, filter_eq_nil_iff]
  intro x hx he
  have := h x hx
  simp only [decide_eq_true_eq] at he
  omega

theorem inv_intr {s : St P} (h : Inv s) (c : UInt8) : Inv { s with
    cons := (consoleintr c s.cons).1
    pc := if (consoleintr c s.cons).2 then fun q => (s.pc q).wake else s.pc
    stream := s.stream ++ slice (consoleintr c s.cons).1.buf s.cons.w (sub32 (consoleintr c s.cons).1.w s.cons.w) } := by
  obtain ⟨his, hwake⟩ := h.valid.is.consoleintr c
  obtain ⟨new, hnew⟩ := s.cons.line.input_queue c
  have hnew : ((Line.mk s.cons.queue s.cons.pending).input c).queue = s.cons.queue ++ new := hnew
  rw [hnew] at his hwake
  have hcall : ∀ q, ((if (consoleintr c s.cons).2 then fun q => (s.pc q).wake else s.pc) q).call = (s.pc q).call := by
    intro q
    split
    · exact Pc.call_wake _
    · rfl
  refine ⟨his.valid, ?_, h.fresh, fun p d hd => ?_, fun p q d d' hd hd' => ?_, fun r hr => ?_, h.once, h.eof,
    fun p d hd => ?_⟩
  · dsimp only
    rw [h.valid.is.slice_committed his (consoleintr_r c s.cons), his.queue_eq, h.stream, append_assoc]
  · obtain ⟨h1, h2, h3, h4, h5, h6, h7, h8, h9⟩ := h.calls p d (hcall p ▸ hd)
    exact ⟨h1, h2, h3, h4, h5, h6, h7, h8, h9⟩
  · exact h.apart p q d d' (hcall p ▸ hd) (hcall q ▸ hd')
  · obtain ⟨h1, h2, h3, h4⟩ := h.rets r hr
    exact ⟨h1, h2, h3, h4⟩
  · -- whoever sleeps still has not been woken, so nothing has been committed
    dsimp only at hd ⊢
    split at hd
    · exact absurd hd (Pc.wake_ne _ _)
    · next hf =>
      rw [his.queue_eq, hwake (by simpa using hf)]
      exact h.asleep p d hd

variable [DecidableEq P]

theorem inv_call {s : St P} (h : Inv s) {p : P} {dst : Nat → Bool} {n : Int} (hp : s.pc p = .user) (hn : 0 < n)
    (hd : ∀ i < n.toNat, dst i = true) : Inv { s with
      pc := update s.pc p (.reading ⟨s.calls, dst, n, n.toNat, []⟩)
      calls := s.calls + 1 } := by
  have hcall : ∀ q c, (update s.pc p (.reading ⟨s.calls, dst, n, n.toNat, []⟩) q).call = some c →
      q = p ∧ c = ⟨s.calls, dst, n, n.toNat, []⟩ ∨ q ≠ p ∧ (s.pc q).call = some c := by
    intro q c hc
    by_cases hq : q = p
    · subst hq
      rw [update_self] at hc
      exact .inl ⟨rfl, (Option.some.inj hc).symm⟩
    · rw [update_of_ne hq] at hc
      exact .inr ⟨hq, hc⟩
  refine ⟨h.valid, h.stream, fun x hx => Nat.lt_succ_of_lt (h.fresh x hx), fun q c hc => ?_, fun q q' c d hc hd' => ?_,
    fun r hr => ?_, h.once, h.eof, fun q c hc => ?_⟩
  · rcases hcall q c hc with ⟨-, rfl⟩ | ⟨-, hc⟩
    · refine ⟨Nat.lt_succ_self _, hn, hd, rfl, by dsimp only; omega, bytesOf_fresh h.fresh, not_mem_nil,
        not_mem_nil, fun r hr => Nat.ne_of_lt (h.rets r hr).id⟩
    · obtain ⟨h1, h2, h3, h4, h5, h6, h7, h8, h9⟩ := h.calls q c hc
      exact ⟨Nat.lt_succ_of_lt h1, h2, h3, h4, h5, h6, h7, h8, h9⟩
  · rcases hcall q c hc with ⟨hq, rfl⟩ | ⟨-, hc₁⟩ <;> rcases hcall q' d hd' with ⟨hq', rfl⟩ | ⟨-, hd₁⟩
    · exact fun _ => hq.trans hq'.symm
    · exact fun he => absurd he (Nat.ne_of_gt (h.calls q' d hd₁).id)
    · exact fun he => absurd he (Nat.ne_of_lt (h.calls q c hc₁).id)
    · exact h.apart q q' c d hc₁ hd₁
  · obtain ⟨h1, h2, h3, h4⟩ := h.rets r hr
    exact ⟨Nat.lt_succ_of_lt h1, h2, h3, h4⟩
  · by_cases hq : q = p
    · subst hq
      simp [update_self] at hc
    · dsimp only at hc
      rw [update_of_ne hq] at hc
      exact h.asleep q c hc

theorem inv_kill {s : St P} (h : Inv s) (p : P) : Inv { s with
    killed := update s.killed p true
    pc := update s.pc p (s.pc p).wake } := by
  have hcall : ∀ q, (update s.pc p (s.pc p).wake q).call = (s.pc q).call := by
    intro q
    by_cases hq : q = p
    · subst hq
      rw [update_self, Pc.call_wake]
    · rw [update_of_ne hq]
  refine ⟨h.valid, h.stream, h.fresh, fun q c hc => ?_, fun q q' c d hc hd => ?_, fun r hr => ?_, h.once, h.eof,
    fun q c hc => ?_⟩
  · obtain ⟨h1, h2, h3, h4, h5, h6, h7, h8, h9⟩ := h.calls q c (hcall q ▸ hc)
    exact ⟨h1, h2, h3, h4, h5, h6, h7, h8, h9⟩
  · exact h.apart q q' c d (hcall q ▸ hc) (hcall q' ▸ hd)
  · obtain ⟨h1, h2, h3, h4⟩ := h.rets r hr
    refine ⟨h1, h2, h3.imp_right fun hk => ⟨hk.1, ?_⟩, h4⟩
    by_cases hq : r.proc = p
    · dsimp only
      rw [hq, update_self]
    · dsimp only
      rw [update_of_ne hq]
      exact hk.2
  · by_cases hq : q = p
    · subst hq
      dsimp only at hc
      rw [update_self] at hc
      exact absurd hc (Pc.wake_ne _ _)
    · dsimp only at hc
      rw [update_of_ne hq] at hc
      exact h.asleep q c hc

theorem newline_last {l l' x y : List UInt8} (h : NEWLINE ∉ l) (h' : ∀ x y, l' = x ++ NEWLINE :: y → y = [])
    (he : l ++ l' = x ++ NEWLINE :: y) : y = [] := by
  induction l generalizing x with
  | nil => exact h' x y he
  | cons b l ih =>
    cases x with
    | nil => exact absurd (List.cons.inj he).1 fun hb => h (by simp [hb])
    | cons z x => exact ih (fun hm => h (mem_cons_of_mem _ hm)) (List.cons.inj he).2

/-- What a call takes from the queue concerns that call alone: it goes on with `pc'`, or it returns `new`. -/
theorem Inv.take {s : St P} (h : Inv s) {p : P} {c : Call} (hp : s.pc p = .reading c) {cons : Cons} {gone : List UInt8}
    (hv : Valid cons) (hq : s.cons.queue = gone ++ cons.queue) (pc' : Pc) (new : List (Ret P)) {s' : St P}
    (hs' : s' = { s with
      cons := cons
      log := s.log ++ gone.map fun b => (c.id, b)
      pc := update s.pc p pc'
      rets := s.rets ++ new })
    (hcall : ∀ d, pc'.call = some d → new = [] ∧ d.id = c.id ∧ InCall s' d)
    (hnew : new.length ≤ 1 ∧ ∀ r ∈ new, r.id = c.id ∧ Returned s' r)
    (heof : (new.filter fun r => r.value = 0).map Ret.id = (gone.filter fun b => b = C 'D').map fun _ => c.id)
    (hsleep : ∀ d, pc' = .sleeping d → cons.queue = []) : Inv s' := by
  have hc := h.calls p c (by rw [hp]; rfl)
  have hrest : ∀ id, id ≠ c.id → bytesOf id (s.log ++ gone.map fun b => (c.id, b)) = bytesOf id s.log := fun id hne => by
    rw [bytesOf_append, bytesOf_other hne, append_nil]
  have hother : ∀ q d, q ≠ p → (s.pc q).call = some d → d.id ≠ c.id := fun q d hne hd he =>
    hne (h.apart q p d c hd (by rw [hp]; rfl) he)
  have hpc : ∀ q d, (update s.pc p pc' q).call = some d →
      q = p ∧ pc'.call = some d ∨ q ≠ p ∧ (s.pc q).call = some d := by
    intro q d hd
    by_cases hqp : q = p
    · subst hqp
      rw [update_self] at hd
      exact .inl ⟨rfl, hd⟩
    · rw [update_of_ne hqp] at hd
      exact .inr ⟨hqp, hd⟩
  have hkeep : ∀ q d, q ≠ p → (s.pc q).call = some d → InCall s' d := by
    intro q d hne hd
    subst hs'
    obtain ⟨h1, h2, h3, h4, h5, h6, h7, h8, h9⟩ := h.calls q d hd
    refine ⟨h1, h2, h3, h4, h5, ?_, h7, h8, fun r hr => ?_⟩
    · rw [← h6]
      exact hrest d.id (hother q d hne hd)
    · rcases mem_append.1 hr with hr | hr
      · exact h9 r hr
      · rw [(hnew.2 r hr).1]
        exact Ne.symm (hother q d hne hd)
  refine ⟨?_, ?_, ?_, fun q d hd => ?_, fun q q' d d' hd hd' he => ?_, fun r hr => ?_, ?_, ?_, fun q d hd => ?_⟩
  · rw [hs']
    exact hv
  · rw [hs']
    dsimp only
    rw [h.stream, hq, map_append, map_map, append_assoc]
    congr 1
    simp [comp_def]
  · rw [hs']
    intro x hx
    rcases mem_append.1 hx with hx | hx
    · exact h.fresh x hx
    · obtain ⟨b, -, rfl⟩ := mem_map.1 hx
      exact hc.id
  · rw [hs'] at hd
    rcases hpc q d hd with ⟨-, hd⟩ | ⟨hne, hd⟩
    · exact (hcall d hd).2.2
    · exact hkeep q d hne hd
  · rw [hs'] at hd hd'
    rcases hpc q d hd with ⟨hqp, hd⟩ | ⟨hne, hd⟩ <;> rcases hpc q' d' hd' with ⟨hqp', hd'⟩ | ⟨hne', hd'⟩
    · rw [hqp, hqp']
    · exact absurd (he.symm.trans (hcall d hd).2.1) (hother q' d' hne' hd')
    · exact absurd (he.trans (hcall d' hd').2.1) (hother q d hne hd)
    · exact h.apart q q' d d' hd hd' he
  · rw [hs'] at hr
    rcases mem_append.1 hr with hr | hr
    · obtain ⟨h1, h2, h3, h4⟩ := h.rets r hr
      rw [hs']
      refine ⟨h1, ?_, h3, h4⟩
      have hb := hrest r.id (hc.running r hr)
      dsimp only at hb ⊢
      rw [hb]
      exact h2
    · exact (hnew.2 r hr).2
  · rw [hs']
    dsimp only
    rw [map_append, nodup_append]
    refine ⟨h.once, ?_, fun a ha b hb => ?_⟩
    · rcases new with _ | ⟨r, _ | ⟨r', l⟩⟩
      · exact nodup_nil
      · simp
      · simp at hnew
    · obtain ⟨r, hr, rfl⟩ := mem_map.1 ha
      obtain ⟨r', hr', rfl⟩ := mem_map.1 hb
      rw [(hnew.2 r' hr').1]
      exact hc.running r hr
  · rw [hs']
    dsimp only
    rw [filter_append, filter_append, map_append, map_append, h.eof, heof, filter_map,
      map_map]
    rfl
  · rw [hs'] at hd ⊢
    dsimp only at hd ⊢
    by_cases hqp : q = p
    · subst hqp
      rw [update_self] at hd
      exact hsleep d hd
    · rw [update_of_ne hqp] at hd
      have := h.asleep q d hd
      rw [hq] at this
      exact (append_eq_nil_iff.1 this).2

omit [DecidableEq P] in
/-- The bytes that the read index passes in a critical section are those that leave the queue. -/
theorem Inv.section_took {s : St P} (h : Inv s) {c : Call} (hc : InCall s c) (killed : Bool) :
    ∃ gone q', Took s.cons c.n.toNat c.left killed s.cons.queue s.cons.pending gone q'
        (consoleread killed c.dst c.n.toNat c.left s.cons) ∧
      slice s.cons.buf s.cons.r (sub32 (consoleread killed c.dst c.n.toNat c.left s.cons).cons.r s.cons.r) = gone := by
  have hsize := hc.size
  have hleft := hc.left
  obtain ⟨gone, q', hk⟩ := consoleread_spec (by omega) hc.mapped killed c.left (by omega) h.valid.is
  have hroom := h.valid.is.room
  have hlen := congrArg List.length hk.queue
  simp only [length_append, INPUT_BUF] at hlen hroom
  have his := h.valid.is
  rw [hk.queue] at his
  refine ⟨gone, q', hk, ?_⟩
  rw [hk.r, sub32_count his.held.lt (by omega)]
  exact his.slice_queue

theorem inv_read {s : St P} (h : Inv s) {p : P} {c : Call} (hp : s.pc p = .reading c) :
    Inv (afterRead s p c (consoleread (s.killed p) c.dst c.n.toNat c.left s.cons)) := by
  have hc := h.calls p c (by rw [hp]; rfl)
  have hsize := hc.size
  have hleft := hc.left
  obtain ⟨gone, q', hk, hslice⟩ := h.section_took hc (s.killed p)
  generalize consoleread (s.killed p) c.dst c.n.toNat c.left s.cons = k at hk hslice
  have hq : s.cons.queue = gone ++ k.cons.queue := by rw [hk.is.queue_eq]; exact hk.queue
  have hkl := hk.left
  -- all that the call has taken, and what of it is a `^D`
  have hbytes : bytesOf c.id (s.log ++ gone.map fun b => (c.id, b)) = c.out ++ gone := by
    rw [bytesOf_append, bytesOf_self, hc.log]
  have hnone : gone = k.out → (gone.filter fun b => b = C 'D') = [] := by
    intro he
    rw [filter_eq_nil_iff]
    intro b hb heq
    rw [he, of_decide_eq_true heq] at hb
    exact hk.plain hb
  have hplain : C 'D' ∉ c.out ++ k.out := by
    rw [mem_append, not_or]
    exact ⟨hc.eof, hk.plain⟩
  unfold afterRead
  dsimp only
  rw [hslice]
  rcases hk.how with ⟨hhow, hgone, hq', hpos, hnl⟩ | ⟨hhow, hgone, hlt, hline⟩ | ⟨hhow, hgone, hout, heq⟩
  · rw [hgone] at hbytes hnone
    cases hkilled : s.killed p with
    | true =>
      have hhow : k.how = .fail := by rw [hhow, hkilled]; rfl
      rw [hhow, hgone]
      refine h.take hp hk.is.valid (hgone ▸ hq) .user [_] rfl (fun d hd => by cases hd) ⟨Nat.le_refl 1, fun r hr => ?_⟩
        (by rw [hnone rfl]; rfl) fun d hd => by cases hd
      obtain rfl := mem_singleton.1 hr
      refine ⟨rfl, hc.id, .inl ⟨show (-1 : Int) ≠ 0 by decide, hbytes, hplain⟩, .inr ⟨rfl, hkilled⟩, fun x y he => ?_⟩
      have hm : NEWLINE ∈ c.out ++ k.out := by
        rw [show c.out ++ k.out = _ from he]
        simp
      exact absurd hm (by simpa using ⟨hc.line, hnl⟩)
    | false =>
      have hhow : k.how = .sleep := by rw [hhow, hkilled]; rfl
      rw [hhow, hgone]
      refine h.take hp hk.is.valid (hgone ▸ hq) (.sleeping _) [] (by rw [append_nil]) (fun d hd => ⟨rfl, ?_⟩)
        ⟨Nat.zero_le 1, fun r hr => absurd hr not_mem_nil⟩ (by rw [hnone rfl]; rfl) fun d hd => ?_
      · obtain rfl := Option.some.inj hd
        refine ⟨rfl, hc.id, hc.size, hc.mapped, ?_, hpos, hbytes, ?_, hplain, hc.running⟩
        · dsimp only
          rw [length_append]
          omega
        · simpa using ⟨hc.line, hnl⟩
      · rw [hk.is.queue_eq]
        exact hq'
  · rw [hgone] at hbytes hnone
    rw [hhow, hgone]
    refine h.take hp hk.is.valid (hgone ▸ hq) .user [_] rfl (fun d hd => by cases hd) ⟨Nat.le_refl 1, fun r hr => ?_⟩ ?_
      fun d hd => by cases hd
    · obtain rfl := mem_singleton.1 hr
      refine ⟨rfl, hc.id, .inl ⟨?_, hbytes, hplain⟩, .inl ?_, fun x y he => ?_⟩
      · dsimp only
        omega
      · dsimp only
        rw [length_append]
        omega
      · exact newline_last hc.line hline he
    · rw [hnone rfl, filter_cons_of_neg (by simp only [decide_eq_true_eq]; omega)]
      rfl
  · have hempty : c.out = [] := by
      rw [hout, length_nil] at hkl
      exact length_eq_zero_iff.1 (by omega)
    rw [hgone] at hbytes
    rw [hhow, hgone]
    refine h.take hp hk.is.valid (hgone ▸ hq) .user [_] rfl (fun d hd => by cases hd) ⟨Nat.le_refl 1, fun r hr => ?_⟩ ?_
      fun d hd => by cases hd
    · obtain rfl := mem_singleton.1 hr
      refine ⟨rfl, hc.id, .inr ⟨?_, ?_, ?_⟩, .inl ?_, fun x y he => ?_⟩
      · dsimp only
        omega
      · dsimp only
        rw [hempty, hout, append_nil]
      · rw [hempty] at hbytes
        exact hbytes
      · dsimp only
        rw [length_append, hempty, hout, heq]
        simp
      · dsimp only at he
        rw [hempty, hout] at he
        simp at he
    · rw [filter_cons_of_pos (by simp only [decide_eq_true_eq]; omega)]
      rfl

end Xv6.Console
