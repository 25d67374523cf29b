import Mathlib.Data.List.Perm.Basic
import Xv6.Console.Stream
/-!
# The line discipline

Over every run of interrupts and of readers that may sleep in the middle of a
call, the indices stay in order, the characters edit the pending bytes only, and
the readers get the committed bytes in order.

The bytes of two calls that overlap may alternate in the stream, so only of calls
that do not overlap is the stream the concatenation of what they return.
-/

namespace Xv6.Console

open Run Function List

variable {P : Type} [DecidableEq P]

variable {s s' : St P} {ev : Event P}

theorem step_cases (h : Step s ev s') :
    (∃ c, ev = .intr c ∧ s' = { s with
      cons := (consoleintr c s.cons).1
      pc := if (consoleintr c s.cons).2 then fun q => (s.pc q).wake else s.pc
      stream := s.stream ++
        slice (consoleintr c s.cons).1.buf s.cons.w (sub32 (consoleintr c s.cons).1.w s.cons.w) }) ∨
    (∃ p dst n, ev = .call p dst n ∧ s.pc p = .user ∧ s' = { s with
      pc := update s.pc p (.reading ⟨s.calls, dst, n, n.toNat, []⟩)
      calls := s.calls + 1 }) ∨
    (∃ p c, ev = .read p ∧ s.pc p = .reading c ∧
      s' = afterRead s p c (consoleread (s.killed p) c.dst c.n.toNat c.left s.cons)) ∨
    (∃ p, ev = .kill p ∧ s' = { s with
      killed := update s.killed p true
      pc := update s.pc p (s.pc p).wake }) := by
  cases ev with
  | intr c => exact .inl ⟨c, rfl, (Option.some.inj h).symm⟩
  | call p dst n =>
    simp only [Step, next] at h
    cases hp : s.pc p with
    | user =>
      rw [hp] at h
      exact .inr (.inl ⟨p, dst, n, rfl, hp, (Option.some.inj h).symm⟩)
    | reading c => simp [hp] at h
    | sleeping c => simp [hp] at h
  | read p =>
    simp only [Step, next] at h
    cases hp : s.pc p with
    | user => simp [hp] at h
    | reading c =>
      rw [hp] at h
      exact .inr (.inr (.inl ⟨p, c, rfl, hp, (Option.some.inj h).symm⟩))
    | sleeping c => simp [hp] at h
  | kill p => exact .inr (.inr (.inr ⟨p, rfl, (Option.some.inj h).symm⟩))

theorem inv_step (h : Inv s) (hok : Proper s ev) (hs : Step s ev s') : Inv s' := by
  rcases step_cases hs with ⟨c, rfl, rfl⟩ | ⟨p, dst, n, rfl, hp, rfl⟩ | ⟨p, c, rfl, hp, rfl⟩ | ⟨p, rfl, rfl⟩
  · exact inv_intr h c
  · exact inv_call h hp hok.1 hok.2
  · exact inv_read h hp
  · exact inv_kill h p

theorem Inv.reachable (h : Reachable s) : Inv s :=
  Reach.inv Inv (fun _ => inv_init) (fun _ _ _ hi hs => inv_step hi hs.1 hs.2) h

/-! ## Calls that do not overlap -/

def delivered (s : St P) : List UInt8 := (s.log.map Prod.snd).filter fun b => b ≠ C 'D'

/-- A call begins only when no process is in one. -/
def Alone (s : St P) (ev : Event P) : Prop :=
  Proper s ev ∧ ∀ p dst n, ev = .call p dst n → ∀ q, s.pc q = .user

/-- What has been copied out is what the calls have returned, and after it what the call in progress has got so far. -/
structure Sequential (s : St P) : Prop where
  one : ∀ p q c d, (s.pc p).call = some c → (s.pc q).call = some d → p = q
  busy : ∀ p c, (s.pc p).call = some c → delivered s = s.rets.flatMap Ret.out ++ c.out
  idle : (∀ p, (s.pc p).call = none) → delivered s = s.rets.flatMap Ret.out

omit [DecidableEq P] in
theorem Sequential.congr (h : Sequential s) (hpc : ∀ p, (s'.pc p).call = (s.pc p).call)
    (hlog : s'.log = s.log) (hrets : s'.rets = s.rets) : Sequential s' := by
  have hd : delivered s' = delivered s := by rw [delivered, hlog, delivered]
  refine ⟨fun p q c d hc hd' => ?_, fun p c hc => ?_, fun hn => ?_⟩
  · exact h.one p q c d (hpc p ▸ hc) (hpc q ▸ hd')
  · rw [hd, hrets]
    exact h.busy p c (hpc p ▸ hc)
  · rw [hd, hrets]
    exact h.idle fun p => hpc p ▸ hn p

theorem Took.copied {s : Cons} {target n : Nat} {killed : Bool} {q p gone q' : List UInt8} {k : Section}
    (h : Took s target n killed q p gone q' k) : (gone.filter fun b => b ≠ C 'D') = k.out := by
  have hout : (k.out.filter fun b => b ≠ C 'D') = k.out := by
    rw [filter_eq_self]
    intro b hb
    exact decide_eq_true fun he => h.plain (he ▸ hb)
  rcases h.how with ⟨-, hg, -⟩ | ⟨-, hg, -⟩ | ⟨-, hg, ho, -⟩
  · rw [hg, hout]
  · rw [hg, hout]
  · rw [hg, ho]
    rfl

theorem sequential_read (hi : Inv s) (h : Sequential s) {p : P} {c : Call} (hp : s.pc p = .reading c) :
    Sequential (afterRead s p c (consoleread (s.killed p) c.dst c.n.toNat c.left s.cons)) := by
  have hcall : (s.pc p).call = some c := by rw [hp]; rfl
  have hbusy := h.busy p c hcall
  obtain ⟨gone, q', hk, hslice⟩ := hi.section_took (hi.calls p c hcall) (s.killed p)
  generalize consoleread (s.killed p) c.dst c.n.toNat c.left s.cons = k at hk hslice
  have hlog : ((s.log ++ gone.map fun b => (c.id, b)).map Prod.snd).filter (fun b => b ≠ C 'D') =
      s.rets.flatMap Ret.out ++ (c.out ++ k.out) := by
    rw [map_append, filter_append, ← append_assoc, ← hbusy, ← hk.copied, delivered, map_map]
    simp [Function.comp_def]
  -- the other processes are not in a call
  have hothers : ∀ q, q ≠ p → (s.pc q).call = none := by
    intro q hne
    cases hq : (s.pc q).call with
    | none => rfl
    | some d => exact absurd (h.one q p d c hq hcall) hne
  have huser : ∀ q, (update s.pc p .user q).call = none := by
    intro q
    by_cases hqp : q = p
    · rw [hqp, update_self]
      rfl
    · rw [update_of_ne hqp]
      exact hothers q hqp
  have hret : ∀ r : Ret P, r.out = c.out ++ k.out → ∀ s' : St P, s'.pc = update s.pc p .user →
      delivered s' = s.rets.flatMap Ret.out ++ (c.out ++ k.out) → s'.rets = s.rets ++ [r] → Sequential s' := by
    intro r hr s' hpc hd hrets
    have hnone : ∀ q, (s'.pc q).call = none := fun q => by rw [hpc]; exact huser q
    refine ⟨fun q q' d d' hd => ?_, fun q d hd => ?_, fun _ => ?_⟩
    · rw [hnone q] at hd
      cases hd
    · rw [hnone q] at hd
      cases hd
    · rw [hd, hrets, flatMap_append, flatMap_singleton, hr]
  unfold afterRead
  dsimp only
  rw [hslice]
  cases hhow : k.how with
  | sleep =>
    have hpc : ∀ (d : Call) q d', (update s.pc p (.sleeping d) q).call = some d' → q = p ∧ d' = d := by
      intro d q d' hd
      by_cases hqp : q = p
      · rw [hqp, update_self] at hd
        exact ⟨hqp, (Option.some.inj hd).symm⟩
      · rw [update_of_ne hqp, hothers q hqp] at hd
        cases hd
    refine ⟨fun q q' d d' hd hd' => ?_, fun q d hd => ?_, fun hn => ?_⟩
    · rw [(hpc _ q d hd).1, (hpc _ q' d' hd').1]
    · rw [(hpc _ q d hd).2]
      exact hlog
    · have := hn p
      simp [update_self, Pc.call] at this
  | fail => exact hret _ rfl _ rfl hlog rfl
  | done => exact hret _ rfl _ rfl hlog rfl

theorem sequential_step (hi : Inv s) (h : Sequential s) (hok : Alone s ev)
    (hs : Step s ev s') : Sequential s' := by
  rcases step_cases hs with ⟨c, rfl, rfl⟩ | ⟨p, dst, n, rfl, hp, rfl⟩ | ⟨p, c, rfl, hp, rfl⟩ | ⟨p, rfl, rfl⟩
  · refine h.congr (fun q => ?_) rfl rfl
    dsimp only
    split
    · exact Pc.call_wake _
    · rfl
  · have huser := hok.2 p dst n rfl
    have hidle := h.idle fun q => by rw [huser q]; rfl
    have hpc : ∀ (d : Call) q d', (update s.pc p (.reading d) q).call = some d' → q = p ∧ d' = d := by
      intro d q d' hd
      by_cases hqp : q = p
      · rw [hqp, update_self] at hd
        exact ⟨hqp, (Option.some.inj hd).symm⟩
      · rw [update_of_ne hqp, huser q] at hd
        cases hd
    refine ⟨fun q q' d d' hd hd' => ?_, fun q d hd => ?_, fun _ => hidle⟩
    · rw [(hpc _ q d hd).1, (hpc _ q' d' hd').1]
    · rw [(hpc _ q d hd).2, append_nil]
      exact hidle
  · exact sequential_read hi h hp
  · refine h.congr (fun q => ?_) rfl rfl
    dsimp only
    by_cases hqp : q = p
    · rw [hqp, update_self, Pc.call_wake]
    · rw [update_of_ne hqp]

theorem Sequential.reachable (h : Reach Init (When Step Alone) s) : Inv s ∧ Sequential s := by
  refine Reach.inv (fun s => Inv s ∧ Sequential s) (fun s hs => ⟨inv_init hs, ?_⟩) (fun s ev s' hi hs => ?_) h
  · refine ⟨fun p q c d hc => ?_, fun p c hc => ?_, fun _ => ?_⟩
    · rw [hs.pc p] at hc
      cases hc
    · rw [hs.pc p] at hc
      cases hc
    · rw [delivered, hs.log, hs.rets]
      rfl
  · exact ⟨inv_step hi.1 hs.1.1 hs.2, sequential_step hi.1 hi.2 hs.1 hs.2⟩

/-! ## The result -/

/-- The console keeps the line discipline. -/
structure Discipline (s : St P) : Prop where
  /-- `0 <= w-r <= e-r <= INPUT_BUF`, on `uint`s -/
  indices : sub32 s.cons.w s.cons.r ≤ sub32 s.cons.e s.cons.r ∧ sub32 s.cons.e s.cons.r ≤ INPUT_BUF
  /-- A character does to `buf[r..w)` and `buf[w..e)` what it does to the two lists. -/
  edits : ∀ c, (consoleintr c s.cons).1.line = s.cons.line.input c
  /-- The bytes that have left the queue, and after them those in it, are the committed bytes. -/
  order : s.stream = s.log.map Prod.snd ++ s.cons.queue
  /-- A call has copied out the bytes it took, `^D` apart, and returns their number, or -1 if its process has been
  killed. -/
  returns : ∀ r ∈ s.rets, r.out = (bytesOf r.id s.log).filter (fun b => b ≠ C 'D') ∧
    (r.value = r.out.length ∨ r.value = -1 ∧ s.killed r.proc = true)
  /-- No call copies out a byte after a newline. -/
  line : ∀ r ∈ s.rets, ∀ x y, r.out = x ++ NEWLINE :: y → y = []
  /-- The calls that returned 0 are those that took a `^D`, one for each. -/
  eof : (s.rets.filter fun r => r.value = 0).map Ret.id = (s.log.filter fun x => x.2 = C 'D').map Prod.fst
  once : (s.rets.map Ret.id).Nodup

omit [DecidableEq P] in
theorem Inv.discipline (h : Inv s) : Discipline s := by
  refine ⟨⟨h.valid.order, h.valid.fits⟩, fun c => (line_consoleintr h.valid c).2, h.stream, fun r hr => ?_,
    fun r hr => (h.rets r hr).line, h.eof, h.once⟩
  have hr := h.rets r hr
  refine ⟨?_, hr.value⟩
  rcases hr.log with ⟨-, hlog, heof⟩ | ⟨-, hout, hlog⟩
  · have hne : ∀ b ∈ r.out, decide (b ≠ C 'D') = true := fun b hb => decide_eq_true fun he => heof (he ▸ hb)
    rw [hlog, filter_eq_self.2 hne]
  · rw [hlog, hout]
    rfl

/-- **The line discipline**, for any number of readers, any characters, any split into calls and any start of the
indices. If the calls do not overlap, what they return is the stream without its `^D`s. -/
theorem console_line_discipline {s : St P} (h : Reachable s) : Discipline s ∧
    (Reach Init (When Step Alone) s → (∀ p, s.pc p = .user) → s.cons.queue = [] →
      s.rets.flatMap Ret.out = s.stream.filter fun b => b ≠ C 'D') := by
  refine ⟨(Inv.reachable h).discipline, fun ha huser hq => ?_⟩
  obtain ⟨hi, hs⟩ := Sequential.reachable ha
  rw [hi.stream, hq, append_nil]
  exact (hs.idle fun p => by rw [huser p]; rfl).symm

/-! ## Two readers -/

/-- The state after some events. -/
def after (s : St P) (evs : List (Event P)) : Option (St P) := evs.foldlM next s

theorem Reachable.after (h : Reachable s) (evs : List (Event P)) (hok : ∀ ev ∈ evs, ∀ t : St P, Proper t ev)
    (hs : after s evs = some s') : Reachable s' := by
  induction evs generalizing s with
  | nil => exact Option.some.inj hs ▸ h
  | cons ev evs ih =>
    obtain ⟨t, ht, hs⟩ := Option.bind_eq_some_iff.1 hs
    exact ih (h.next ht (hok ev (mem_cons_self ..) s)) (fun e he => hok e (mem_cons_of_mem _ he)) hs

omit [DecidableEq P] in
theorem init_start {i : Nat} (h : i < 2 ^ 32) : Init (start P i) := by
  have hsub : sub32 i i = 0 := by
    unfold sub32
    omega
  refine ⟨⟨h, h, h, Nat.le_refl _, ?_, ?_⟩, fun _ => rfl, ?_, rfl, rfl⟩
  · show sub32 i i ≤ INPUT_BUF
    rw [hsub]
    exact Nat.zero_le _
  · show NEWLINE ∉ slice _ i (sub32 i i)
    rw [hsub]
    exact not_mem_nil
  · show [] = slice _ i (sub32 i i)
    rw [hsub]
    rfl

/-- A process reads "a\nb^D" and then an end of file, from a console whose indices wrap. -/
def oneReader : List (Event Unit) :=
  [.intr 97, .intr 13, .intr 98, .intr 120, .intr 8, .intr 4,
    .call () (fun _ => true) 10, .read (), .call () (fun _ => true) 10, .read (), .call () (fun _ => true) 10, .read ()]

theorem console_line_discipline_wraps : ∃ s : St Unit, s.rets.map Ret.value = [2, 1, 0] ∧ Discipline s := by
  have hrun : ((after (start Unit (2 ^ 32 - 2)) oneReader).map fun s => s.rets.map Ret.value) = some [2, 1, 0] := by
    decide +kernel
  obtain ⟨s, hs, hr⟩ := Option.map_eq_some_iff.1 hrun
  have h0 : Reachable (start Unit (2 ^ 32 - 2)) := .init (init_start (by decide))
  refine ⟨s, hr, (console_line_discipline (h0.after oneReader (fun ev hev t => ?_) hs)).1⟩
  simp only [oneReader, mem_cons, not_mem_nil, or_false] at hev
  rcases hev with rfl | rfl | rfl | rfl | rfl | rfl | rfl | rfl | rfl | rfl | rfl | rfl <;> simp [Proper]

/-- One reader takes a full buffer and waits for more; another one gets the next line, and the first the line after. -/
def twoReaders : List (Event Bool) :=
  List.replicate 128 (.intr 97) ++
    [.call true (fun _ => true) 200, .read true, .call false (fun _ => true) 200, .read false, .intr 98, .intr 10,
      .read false, .read true, .intr 99, .intr 10, .read true]

/-- What is to be seen of the state after a run. -/
def seen (s : St Bool) : List (List UInt8) × List UInt8 × List UInt8 × Bool × Bool :=
  (s.rets.map Ret.out, s.stream, s.cons.queue, (s.pc true).call.isNone, (s.pc false).call.isNone)

theorem after_twoReaders : (after (start Bool 0) twoReaders).map seen =
    some ([[98, 10], List.replicate 128 97 ++ [99, 10]], List.replicate 128 97 ++ [98, 10, 99, 10], [], true, true) := by
  decide +kernel

theorem perm_pair_cases {α : Type} {a b : α} {l : List α} (h : l.Perm [a, b]) : l = [a, b] ∨ l = [b, a] := by
  obtain ⟨x, y, rfl⟩ := length_eq_two.1 h.length_eq
  rcases mem_pair.1 (h.subset (mem_cons_self ..)) with rfl | rfl
  · have hy := perm_singleton.1 (List.Perm.cons_inv h)
    exact .inl (by rw [hy])
  · have hy := perm_singleton.1 (List.Perm.cons_inv (h.trans (List.Perm.swap ..)))
    exact .inr (by rw [hy])

/-- No order of two calls that overlap makes the stream out of what they returned. -/
theorem overlapping_reads_alternate : ¬ ∀ s : St Bool, Reachable s → (∀ p, s.pc p = .user) → s.cons.queue = [] →
    ∃ l : List (Ret Bool), l.Perm s.rets ∧ l.flatMap Ret.out = s.stream.filter fun b => b ≠ C 'D' := by
  intro hall
  obtain ⟨s, hs, hseen⟩ := Option.map_eq_some_iff.1 after_twoReaders
  simp only [seen, Prod.mk.injEq] at hseen
  obtain ⟨hrets, hstream, hqueue, htrue, hfalse⟩ := hseen
  have h0 : Reachable (start Bool 0) := .init (init_start (by decide))
  have hreach : Reachable s := by
    refine h0.after twoReaders (fun ev hev t => ?_) hs
    rcases mem_append.1 hev with hev | hev
    · rw [(mem_replicate.1 hev).2]
      trivial
    · simp only [mem_cons, not_mem_nil, or_false] at hev
      rcases hev with rfl | rfl | rfl | rfl | rfl | rfl | rfl | rfl | rfl | rfl | rfl <;> simp [Proper]
  have huser : ∀ p, s.pc p = .user := by
    intro p
    have hp : (s.pc p).call.isNone = true := by cases p <;> assumption
    cases hpc : s.pc p <;> rw [hpc] at hp <;> first | rfl | cases hp
  obtain ⟨l, hl, hcat⟩ := hall s hreach huser hqueue
  rw [flatMap_def, hstream] at hcat
  have hperm := hl.map Ret.out
  rw [hrets] at hperm
  rcases perm_pair_cases hperm with he | he
  · rw [he] at hcat
    revert hcat
    decide +kernel
  · rw [he] at hcat
    revert hcat
    decide +kernel

end Xv6.Console
