import Mathlib.Algebra.BigOperators.Group.Finset.Basic
import Mathlib.Algebra.Order.BigOperators.Group.Finset
import Xv6.Log.Group
/-!
# The space that `begin_op` reserves

`begin_op` admits an operation only if every running operation could still log
`MAXOPBLOCKS` blocks. `Space` is the account behind that test: the blocks in
the log and what the running operations may still add fit in `LOGSIZE`.

So the log never overflows, but `log_write` tests `lh.n` before it looks for
the block in the log: with the log full it panics even for a block that is
already there and needs no room.

`Attended` is about the processes that `begin_op` makes wait: one that will
wake them is always there.
-/

namespace Xv6.Ops

open Run Function

variable {P : Type} [DecidableEq P] {size : Int}

/-- The distinct blocks process `p`'s operation has logged. -/
def St.used (s : St P) (p : P) : Finset Nat := (s.cur p).blocks.toFinset

/-- `log_write` of block `b` by `p` keeps its operation within `MAXOPBLOCKS` distinct blocks. -/
def Budget (s : St P) : Event P → Prop
  | .size p b => (insert b (s.used p)).card ≤ MAXOPBLOCKS
  | _ => True

instance (s : St P) : ∀ e, Decidable (Budget s e)
  | .size _ _ => inferInstanceAs (Decidable (_ ≤ _))
  | .call _ | .sleep _ | .kick _ | .begun _ | .trans _ | .logged _ | .ended _ | .commit _ | .cleared _ => isTrue trivial

/-- Not a `log_write` of a block that is in the log already, with the log full. -/
def Room (s : St P) : Event P → Prop
  | .size _ b => ¬ (s.lh.length = LOGSIZE ∧ b ∈ s.lh)
  | _ => True

/-- What the running operations may still add fits. -/
structure Space (s : St P) : Prop where
  fits : ∃ r : Finset P, (∀ p, p ∈ r ↔ (s.pc p).InOp) ∧ s.lh.length + ∑ p ∈ r, (MAXOPBLOCKS - (s.used p).card) ≤ LOGSIZE
  budget : ∀ p b, s.pc p = .sized b ∨ s.pc p = .logging b → (insert b (s.used p)).card ≤ MAXOPBLOCKS

omit [DecidableEq P] in
theorem space_init : Space (init P) :=
  ⟨⟨∅, by simp [init, Pc.InOp], by simp [init]⟩, by simp [init]⟩

variable {s s' : St P} {p : P} {e : Event P}

omit [DecidableEq P] in
theorem Space.move (h : Space s) (hl : s'.lh.length ≤ s.lh.length) (hc : s'.cur = s.cur)
    (hop : ∀ q, (s'.pc q).InOp ↔ (s.pc q).InOp)
    (hb : ∀ q b, s'.pc q = .sized b ∨ s'.pc q = .logging b → (insert b (s.used q)).card ≤ MAXOPBLOCKS) : Space s' := by
  obtain ⟨r, hr, hn⟩ := h.fits
  have hu : s'.used = s.used := by funext q; simp [St.used, hc]
  refine ⟨⟨r, fun q => (hr q).trans (hop q).symm, ?_⟩, by rw [hu]; exact hb⟩
  rw [hu]
  omega

theorem budget_goto {c : Pc} (h : Space s) (hc : ∀ b, c ≠ .sized b ∧ c ≠ .logging b) (q : P) (b : Nat)
    (hq : s.goto p c q = .sized b ∨ s.goto p c q = .logging b) : (insert b (s.used q)).card ≤ MAXOPBLOCKS := by
  by_cases hqp : q = p
  · subst hqp
    simp only [St.goto, update_self] at hq
    exact absurd hq (by simp [hc b])
  · exact h.budget q b (by simpa [St.goto, hqp] using hq)

theorem space_begun (h : Space s) (hf : Flags s) (hpc : s.pc p = .beginOp)
    (hg : ¬ (s.lh.length : Int) + (s.outstanding + 1) * MAXOPBLOCKS > LOGSIZE) :
    Space { s with
      outstanding := s.outstanding + 1, pc := s.goto p .op, cur := update s.cur p ⟨s.next, []⟩,
      next := s.next + 1 } := by
  obtain ⟨r, hr, ho⟩ := hf.run
  have hp : p ∉ r := by rw [hr, hpc]; simp [Pc.InOp]
  refine ⟨⟨insert p r, fun q => ?_, ?_⟩, fun q b hq => ?_⟩
  · by_cases hq : q = p
    · subst hq; simp [St.goto, Pc.InOp]
    · simp [St.goto, hq, hr q]
  · -- every running operation may still log at most `MAXOPBLOCKS`
    rw [Finset.sum_insert hp]
    have hle := Finset.sum_le_card_nsmul r (fun q => MAXOPBLOCKS - (Finset.card (St.used { s with
      outstanding := s.outstanding + 1, pc := s.goto p .op, cur := update s.cur p ⟨s.next, []⟩,
      next := s.next + 1 } q))) MAXOPBLOCKS (fun q _ => Nat.sub_le _ _)
    rw [Nat.nsmul_eq_mul] at hle
    rw [ho] at hg
    simp only [LOGSIZE, MAXOPBLOCKS] at hle hg ⊢
    omega
  · by_cases hqp : q = p
    · subst hqp
      simp [St.goto] at hq
    · have := h.budget q b (by simpa [St.goto, hqp] using hq)
      simpa [St.used, hqp] using this

theorem space_logged {b : Nat} (h : Space s) (hf : Flags s) (hc : Contents s)
    (hpc : s.pc p = .logging b) :
    Space { s with
      lh := absorb s.lh b, pc := s.goto p .op,
      cur := update s.cur p ⟨(s.cur p).id, b :: (s.cur p).blocks⟩ } := by
  obtain ⟨r, hr, hn⟩ := h.fits
  have hin : (s.pc p).InOp := by rw [hpc]; trivial
  have hp : p ∈ r := (hr p).2 hin
  have hbud := h.budget p b (.inr hpc)
  have hused : ∀ q, St.used { s with
      lh := absorb s.lh b, pc := s.goto p .op,
      cur := update s.cur p ⟨(s.cur p).id, b :: (s.cur p).blocks⟩ } q =
      if q = p then insert b (s.used p) else s.used q := by
    intro q
    by_cases hq : q = p
    · subst hq; simp [St.used]
    · simp [St.used, hq]
  refine ⟨⟨r, fun q => (hr q).trans (goto_inOp (by simp [hpc, Pc.InOp]) q).symm, ?_⟩, fun q x hq => ?_⟩
  · simp only [hused]
    rw [← Finset.add_sum_erase _ _ hp] at hn ⊢
    have hsum : ∑ q ∈ r.erase p, (MAXOPBLOCKS - (if q = p then insert b (s.used p) else s.used q).card) =
        ∑ q ∈ r.erase p, (MAXOPBLOCKS - (s.used q).card) :=
      Finset.sum_congr rfl fun q hq => by rw [if_neg (Finset.ne_of_mem_erase hq)]
    rw [hsum, if_pos rfl]
    by_cases hb : b ∈ s.lh
    · rw [absorb_old hb]
      have := Finset.card_le_card (Finset.subset_insert b (s.used p))
      omega
    · -- a block new to the log is new to the operation, which pays for it
      have hnew : b ∉ s.used p := by
        intro hm
        exact hb ((hc.logged (hf.idle hin) b).2 (.inr ⟨p, hin, by simpa [St.used] using hm⟩))
      rw [Finset.card_insert_of_notMem hnew] at hbud ⊢
      rw [absorb_new hb, List.length_append, List.length_singleton]
      omega
  · rw [hused]
    by_cases hqp : q = p
    · subst hqp; simp [St.goto] at hq
    · rw [if_neg hqp]
      exact h.budget q x (by simpa [St.goto, hqp] using hq)

theorem Space.finish (h : Space s) (hl : s'.lh = s.lh) (hc : s'.cur = s.cur)
    (hop : ∀ q, (s'.pc q).InOp ↔ q ≠ p ∧ (s.pc q).InOp)
    (hb : ∀ q c, s'.pc q = c → c.InOp → s.pc q = c) : Space s' := by
  obtain ⟨r, hr, hn⟩ := h.fits
  have hu : s'.used = s.used := by funext q; simp [St.used, hc]
  refine ⟨⟨r.erase p, fun q => by rw [Finset.mem_erase, hr, hop], ?_⟩, fun q b hq => ?_⟩
  · rw [hl, hu]
    have := Finset.sum_le_sum_of_subset (f := fun q => MAXOPBLOCKS - (s.used q).card) (Finset.erase_subset p r)
    omega
  · rw [hu]
    exact h.budget q b (hq.imp (fun e => hb q _ e trivial) (fun e => hb q _ e trivial))

theorem space_step (h : Space s) (hf : Flags s) (hc : Contents s) (hb : Budget s e)
    (hs : Step size s e s') : Space s' := by
  cases hs with
  | call _ hpc | sleepCommitting _ hpc | sleepSpace _ hpc | kick _ hpc | commitNone _ hpc | commitSome _ hpc
  | writeLog _ _ hpc | writeLogEnd _ hpc | writeHead _ hpc | install _ _ hpc | installEnd _ hpc | erase _ hpc =>
    exact h.move (Nat.le_refl _) rfl (goto_inOp (by simp [hpc, Pc.InOp])) (budget_goto h (by simp))
  | clear _ hpc => exact h.move (Nat.zero_le _) rfl (goto_inOp (by simp [hpc, Pc.InOp])) (budget_goto h (by simp))
  | begun _ hpc _ hg => exact space_begun h hf hpc hg
  | tooBig | outsideTrans | endPanic => exact ⟨h.fits, h.budget⟩
  | @size p b _ hpc =>
    refine h.move (Nat.le_refl _) rfl (goto_inOp (by simp [hpc, Pc.InOp])) fun q x hq => ?_
    by_cases hqp : q = p
    · subst hqp
      obtain rfl : b = x := by simpa [St.goto] using hq
      exact hb
    · exact h.budget q x (by simpa [St.goto, hqp] using hq)
  | @trans p b _ hpc =>
    refine h.move (Nat.le_refl _) rfl (goto_inOp (by simp [hpc, Pc.InOp])) fun q x hq => ?_
    by_cases hqp : q = p
    · subst hqp
      obtain rfl : b = x := by simpa [St.goto] using hq
      exact h.budget q b (.inl hpc)
    · exact h.budget q x (by simpa [St.goto, hqp] using hq)
  | logged _ hpc => exact space_logged h hf hc hpc
  | @ended p _ hpc =>
    refine h.finish (p := p) rfl rfl (fun q => ?_) fun q c hq hop => ?_
    · rw [wakeup_inOp]
      by_cases hqp : q = p
      · subst hqp; simp [St.goto, Pc.InOp]
      · simp [St.goto, hqp]
    · dsimp only at hq
      have hin : (wakeup (s.goto p .user) q).InOp := by rw [hq]; exact hop
      rw [wakeup_inOp] at hin
      by_cases hqp : q = p
      · subst hqp; simp [St.goto, Pc.InOp] at hin
      · have : s.pc q ≠ .asleep := by
          intro ha
          simp [St.goto, hqp, ha, Pc.InOp] at hin
        simpa [wakeup, St.goto, hqp, this] using hq
  | @endLast p _ hpc =>
    refine h.finish (p := p) rfl rfl (fun q => ?_) fun q c hq hop => ?_
    · by_cases hqp : q = p
      · subst hqp; simp [St.goto, Pc.InOp]
      · simp [St.goto, hqp]
    · by_cases hqp : q = p
      · subst hqp
        simp only [St.goto, update_self] at hq
        subst hq
        exact absurd hop id
      · simpa [St.goto, hqp] using hq
  | @cleared p _ hpc =>
    have hno := hf.noOp (p := p) (by rw [hpc]; trivial)
    have hno' : ∀ q, ¬ (wakeup (s.goto p .user) q).InOp := by
      intro q
      rw [wakeup_inOp, goto_inOp (by simp [hpc, Pc.InOp])]
      exact hno q
    refine h.move (Nat.le_refl _) rfl (fun q => by simp [hno, hno']) fun q b hq => ?_
    dsimp only at hq
    rcases hq with hq | hq <;> exact absurd (show (wakeup (s.goto p .user) q).InOp by rw [hq]; trivial) (hno' q)

/-- In a run whose operations keep to their budget, `log_write` panics exactly
when it is called for a block of a full log. -/
theorem tooBig_iff (hsize : size ≥ LOGSIZE + 1) (h : Space s) (hf : Flags s) (hc : Contents s)
    (hb : Budget s e) (hs : Step size s e s') : s'.panic = some .tooBig ↔ ¬ Room s e := by
  obtain ⟨r, hr, hn⟩ := h.fits
  cases hs with
  | @tooBig p b _ hpc hfull =>
    have hin : (s.pc p).InOp := by rw [hpc]; trivial
    have hlen : s.lh.length = LOGSIZE := by omega
    have hone := Finset.single_le_sum (f := fun q => MAXOPBLOCKS - (s.used q).card) (fun _ _ => Nat.zero_le _) ((hr p).2 hin)
    have hmem : b ∈ s.used p := by
      -- the operation has nothing left to spend, so `b` is one of its blocks
      by_contra hnot
      simp only [Budget, Finset.card_insert_of_notMem hnot] at hb
      omega
    have hlog : b ∈ s.lh := (hc.logged (hf.idle hin) b).2 (.inr ⟨p, hin, by simpa [St.used] using hmem⟩)
    simp [Room, hlen, hlog]
  | @size p b hp hpc hroom => simp [Room, hp, show s.lh.length ≠ LOGSIZE by omega]
  | outsideTrans | endPanic => simp [Room]
  | _ => simp_all [Room]

theorem budget_inv (h : Reach (· = init P) (When (Step size) Budget) s) :
    Space s ∧ Flags s ∧ Contents s := by
  refine Reach.inv (fun s => Space s ∧ Flags s ∧ Contents s) ?_ ?_ h
  · rintro s rfl
    exact ⟨space_init, flags_init, contents_init⟩
  · rintro s e s' ⟨h, hf, hc⟩ ⟨hb, hs⟩
    exact ⟨space_step h hf hc hb hs, flags_step hf hs, contents_step hc hf hs⟩

/-- **The log has room.** With room for `LOGSIZE` blocks on disk and operations
that log at most `MAXOPBLOCKS` distinct blocks: the log never holds more than
`LOGSIZE` blocks; and if no `log_write` is called for a block that is already
in a full log, none panics. A step panics exactly when it is such a call. -/
theorem log_has_room (hsize : size ≥ LOGSIZE + 1) :
    (∀ s : St P, Reach (· = init P) (When (Step size) Budget) s → s.lh.length ≤ LOGSIZE) ∧
      (∀ s : St P, Reach (· = init P) (When (Step size) fun s e => Budget s e ∧ Room s e) s → s.panic ≠ some .tooBig) ∧
      ∀ (s s' : St P) e, Reach (· = init P) (When (Step size) Budget) s → Budget s e → Step size s e s' →
        (s'.panic = some .tooBig ↔ ¬ Room s e) := by
  refine ⟨fun s h => ?_, fun s h => ?_, fun s s' e h hb hs => ?_⟩
  · obtain ⟨⟨⟨r, -, hn⟩, -⟩, -⟩ := budget_inv h
    omega
  · have hbud : ∀ s : St P, Reach (· = init P) (When (Step size) fun s e => Budget s e ∧ Room s e) s →
        Reach (· = init P) (When (Step size) Budget) s :=
      fun s h => h.mono fun _ _ _ hs => ⟨hs.1.1, hs.2⟩
    cases h with
    | init h0 => subst h0; simp [init]
    | step hr hs =>
      obtain ⟨hsp, hf, hc⟩ := budget_inv (hbud _ hr)
      exact fun hp => (tooBig_iff hsize hsp hf hc hs.1.1 hs.2).1 hp hs.1.2
  · obtain ⟨hsp, hf, hc⟩ := budget_inv h
    exact tooBig_iff hsize hsp hf hc hb hs

theorem log_has_room_31 : (31 : Int) ≥ LOGSIZE + 1 ∧
    ∀ s : St Nat, Reach (· = init Nat) (When (Step 31) fun s e => Budget s e ∧ Room s e) s →
      s.lh.length ≤ LOGSIZE ∧ s.panic ≠ some .tooBig := by
  have hsize : (31 : Int) ≥ LOGSIZE + 1 := by decide
  have h := log_has_room (P := Nat) hsize
  exact ⟨hsize, fun s hs => ⟨h.1 s (hs.mono fun _ _ _ hst => ⟨hst.1.1, hst.2⟩), h.2.1 s hs⟩⟩

/-! ## A full log -/

/-- Process `p` has logged block `b`. -/
def St.log (s : St P) (p : P) (b : Nat) : St P :=
  { s with lh := absorb s.lh b, cur := Function.update s.cur p ⟨(s.cur p).id, b :: (s.cur p).blocks⟩ }

theorem length_absorb_le (lh : List Nat) (b : Nat) : (absorb lh b).length ≤ lh.length + 1 := by
  by_cases hb : b ∈ lh
  · rw [absorb_old hb]; omega
  · simp [absorb_new hb]

/-- An operation with enough budget left may log any blocks there is room for. -/
theorem reach_log (hsize : size ≥ LOGSIZE + 1) (bs : List Nat) :
    ∀ s : St P, Reach (· = init P) (When (Step size) Budget) s → s.panic = none → s.pc p = .op → 1 ≤ s.outstanding →
      (s.cur p).blocks.length + bs.length ≤ MAXOPBLOCKS → s.lh.length + bs.length ≤ LOGSIZE →
      Reach (· = init P) (When (Step size) Budget) (bs.foldl (fun s b => s.log p b) s) := by
  induction bs with
  | nil => intro s h _ _ _ _ _; exact h
  | cons b bs ih =>
    intro s h hp hpc ho hb hl
    simp only [List.length_cons] at hb hl
    have hbud : (insert b (s.used p)).card ≤ MAXOPBLOCKS := by
      have h1 := Finset.card_insert_le b (s.used p)
      have h2 := List.toFinset_card_le (s.cur p).blocks
      simp only [St.used] at h1 ⊢
      omega
    have h1 := h.next (.size (b := b) hp hpc (by omega)) hbud
    have h2 := h1.next (.trans (b := b) (p := p) hp (by simp [St.goto]) (by simpa using ho)) trivial
    have h3 := h2.next (.logged (b := b) (p := p) hp (by simp [St.goto])) trivial
    have he : St.log s p b = { s with
        lh := absorb s.lh b
        pc := update (update (update s.pc p (.sized b)) p (.logging b)) p .op
        cur := update s.cur p ⟨(s.cur p).id, b :: (s.cur p).blocks⟩ } := by
      simp [St.log, ← hpc]
    have hle := length_absorb_le s.lh b
    refine ih (s.log p b) (by rw [he]; exact h3) hp hpc ho ?_ ?_
    · simp only [St.log, update_self, List.length_cons]; omega
    · simp only [St.log]; omega

/-- Three processes fill the log with ten blocks each, all within their budget;
then process 0 logs its block 0 once more. -/
theorem full_log_panics :
    ¬ ∀ s : St Nat, Reach (· = init Nat) (When (Step 31) Budget) s → s.lh.length ≤ LOGSIZE ∧ s.panic ≠ some .tooBig := by
  intro hall
  have hsize : (31 : Int) ≥ LOGSIZE + 1 := by decide
  have h : Reach (· = init Nat) (When (Step 31) Budget) (init Nat) := .init rfl
  have h := h.next (.call (p := 0) rfl rfl) trivial
  have h := h.next (.begun (p := 0) rfl rfl rfl (by decide)) trivial
  have h := h.next (.call (p := 1) rfl rfl) trivial
  have h := h.next (.begun (p := 1) rfl rfl rfl (by decide)) trivial
  have h := h.next (.call (p := 2) rfl rfl) trivial
  have h := h.next (.begun (p := 2) rfl rfl rfl (by decide)) trivial
  have h := reach_log hsize (p := 0) [0, 1, 2, 3, 4, 5, 6, 7, 8, 9] _ h rfl rfl (by decide) (by decide) (by decide)
  have h := reach_log hsize (p := 1) [10, 11, 12, 13, 14, 15, 16, 17, 18, 19] _ h rfl rfl (by decide) (by decide)
    (by decide)
  have h := reach_log hsize (p := 2) [20, 21, 22, 23, 24, 25, 26, 27, 28, 29] _ h rfl rfl (by decide) (by decide)
    (by decide)
  have h := h.next (.tooBig (p := 0) (b := 0) rfl rfl (by decide)) (by decide)
  exact (hall _ h).2 rfl

/-! ## Waiting for space -/

/-- `begin_op` sleeps only while a commit runs or the space is reserved. -/
def Waits (s : St P) : Prop :=
  ∀ p, s.pc p = .asleep → s.committing = true ∨ (s.lh.length : Int) + (s.outstanding + 1) * MAXOPBLOCKS > LOGSIZE

omit [DecidableEq P] in
theorem wakeup_awake (pc : P → Pc) (p : P) : wakeup pc p ≠ .asleep := by
  intro h
  unfold wakeup at h
  split at h
  · cases h
  · next hne => exact hne h

/-- A process moves to a place where it does not sleep, and the condition gets no weaker. -/
theorem Waits.move {c : Pc} (h : Waits s) (hpc : s'.pc = s.goto p c) (hc : c ≠ .asleep)
    (hcm : s'.committing = s.committing) (hl : s.lh.length ≤ s'.lh.length) (ho : s.outstanding ≤ s'.outstanding) :
    Waits s' := by
  intro q hq
  have hne : q ≠ p := by
    rintro rfl
    rw [hpc, St.goto, update_self] at hq
    exact hc hq
  rw [hpc, St.goto, update_of_ne hne] at hq
  rw [hcm]
  refine (h q hq).imp_right fun hgt => ?_
  simp only [MAXOPBLOCKS, LOGSIZE] at hgt ⊢
  omega

theorem length_absorb_ge (lh : List Nat) (b : Nat) : lh.length ≤ (absorb lh b).length := by
  by_cases hb : b ∈ lh
  · rw [absorb_old hb]
  · rw [absorb_new hb, List.length_append]
    exact Nat.le_add_right _ _

theorem waits_step (h : Waits s) (hf : Flags s) (hs : Step size s e s') : Waits s' := by
  have hcommit : ∀ p, (s.pc p).InCommit → s.committing = true := fun p hp => hf.com.2 ⟨p, hp⟩
  cases hs with
  | call | kick | size | trans => exact h.move rfl (by simp) rfl (Nat.le_refl _) (Int.le_refl _)
  | begun => exact h.move rfl (by simp) rfl (Nat.le_refl _) (by simp)
  | logged => exact h.move rfl (by simp) rfl (length_absorb_ge _ _) (Int.le_refl _)
  | sleepCommitting _ _ hc => exact fun _ _ => .inl hc
  | sleepSpace _ _ _ hgt => exact fun _ _ => .inr hgt
  | tooBig | outsideTrans => exact h
  | endPanic _ _ hc => exact fun _ _ => .inl hc
  | endLast => exact fun _ _ => .inl rfl
  -- `end_op` wakes everyone when it gives back what it reserved, and after the commit
  | ended | cleared => exact fun q hq => absurd hq (wakeup_awake _ q)
  | commitNone _ hpc | commitSome _ hpc | writeLog _ _ hpc | writeLogEnd _ hpc | writeHead _ hpc | install _ _ hpc
  | installEnd _ hpc | clear _ hpc | erase _ hpc => exact fun _ _ => .inl (hcommit _ (by rw [hpc]; trivial))

omit [DecidableEq P] in
theorem log_empty (hf : Flags s) (hc : Contents s) (ho : s.outstanding = 0) (hcm : s.committing = false) :
    s.lh = [] := by
  have hnone : ∀ p, ¬ (s.pc p).InOp := fun p hp => by
    have := hf.pos hp
    omega
  refine List.eq_nil_iff_forall_not_mem.2 fun b hb => ?_
  rcases (hc.logged hcm b).1 hb with ⟨o, hmem, -⟩ | ⟨p, hp, -⟩
  · rw [hc.ended ho] at hmem
    cases hmem
  · exact hnone p hp

/-- Who sleeps in `begin_op` is going to be woken. -/
structure Attended (s : St P) : Prop where
  empty : s.outstanding = 0 → s.committing = false → s.lh.length = 0
  waits : ∀ p, s.pc p = .asleep → s.committing = true ∨
    (s.outstanding ≥ 1 ∧ (s.lh.length : Int) + (s.outstanding + 1) * MAXOPBLOCKS > LOGSIZE)
  /-- A process is in an operation or in a commit: it will call `wakeup(&log)`. -/
  waker : ∀ p, s.pc p = .asleep → ∃ q, (s.pc q).InOp ∨ (s.pc q).InCommit

/-- **Nobody is stranded in `begin_op`**, in any interleaving of any number of processes. -/
theorem begin_op_attended {s : St P} (h : Reachable size s) : Attended s := by
  obtain ⟨hf, hc, -⟩ := reachable_inv h
  have hw : Waits s := by
    have hboth := Reach.inv (fun s => Flags s ∧ Waits s) ?_ ?_ h
    · exact hboth.2
    · rintro s rfl
      exact ⟨flags_init, fun p hp => by simp [init] at hp⟩
    · rintro s e s' ⟨hf, hw⟩ hs
      exact ⟨flags_step hf hs, waits_step hw hf hs⟩
  have hempty : s.outstanding = 0 → s.committing = false → s.lh.length = 0 := fun ho hcm => by
    rw [log_empty hf hc ho hcm]
    rfl
  have hwaits : ∀ p, s.pc p = .asleep → s.committing = true ∨
      (s.outstanding ≥ 1 ∧ (s.lh.length : Int) + (s.outstanding + 1) * MAXOPBLOCKS > LOGSIZE) := fun p hp => by
    rcases hw p hp with hcm | hgt
    · exact .inl hcm
    · by_cases hcm : s.committing = true
      · exact .inl hcm
      · -- an idle log has room for one operation
        refine .inr ⟨?_, hgt⟩
        obtain ⟨r, -, hn⟩ := hf.run
        by_contra hlt
        have hz : s.outstanding = 0 := by omega
        have := hempty hz (by simpa using hcm)
        rw [hz, this] at hgt
        simp only [MAXOPBLOCKS, LOGSIZE] at hgt
        omega
  refine ⟨hempty, hwaits, fun p hp => ?_⟩
  rcases hwaits p hp with hcm | ⟨hge, -⟩
  · obtain ⟨q, hq⟩ := hf.com.1 hcm
    exact ⟨q, .inr hq⟩
  · obtain ⟨r, hr, hn⟩ := hf.run
    have hpos : 0 < r.card := by omega
    obtain ⟨q, hq⟩ := Finset.card_pos.1 hpos
    exact ⟨q, .inl ((hr q).1 hq)⟩

/-- One process sleeps while another commits. -/
theorem begin_op_attended_two : ∃ s : St Bool, s.pc true = .asleep ∧ s.committing = true ∧ Attended s := by
  have h : Reachable 31 (init Bool) := .init rfl
  have h := Reach.step h (.call (p := false) rfl rfl)
  have h := Reach.step h (.begun (p := false) rfl rfl rfl (by decide))
  have h := Reach.step h (.endLast (p := false) rfl rfl rfl (by decide))
  have h := Reach.step h (.call (p := true) rfl rfl)
  have h := Reach.step h (.sleepCommitting (p := true) rfl rfl rfl)
  exact ⟨_, rfl, rfl, begin_op_attended h⟩

end Xv6.Ops
