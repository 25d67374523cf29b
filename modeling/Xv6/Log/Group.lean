import Xv6.Log.Ops
/-!
# A commit contains whole operations only

`Flags` is what `outstanding` and `committing` say about where the processes
are: no process is in an operation while one is in `commit`. So `log.lh` is
stable during a commit, and `Phase` can follow what the commit has written so
far. `Contents` adds which operations the logged blocks belong to.
-/

namespace Xv6.Ops

open Run Function List

variable {P : Type} {size : Int}

/-! ## Where the processes are -/

structure Flags (s : St P) : Prop where
  run : ∃ r : Finset P, (∀ p, p ∈ r ↔ (s.pc p).InOp) ∧ s.outstanding = r.card
  one : ∀ p q, (s.pc p).InCommit → (s.pc q).InCommit → p = q
  com : s.committing = true ↔ ∃ p, (s.pc p).InCommit
  zero : s.committing = true → s.outstanding = 0
  panic : s.panic ≠ some .outsideTrans ∧ s.panic ≠ some .committing

variable {s s' : St P} {p : P} {c : Pc} {e : Event P} {lh : List Nat} {b : Nat}

theorem Flags.pos (h : Flags s) (hp : (s.pc p).InOp) : 0 < s.outstanding := by
  obtain ⟨r, hr, ho⟩ := h.run
  have : 0 < r.card := Finset.card_pos.2 ⟨p, (hr p).2 hp⟩
  omega

theorem Flags.idle (h : Flags s) (hp : (s.pc p).InOp) : s.committing = false := by
  have := h.pos hp
  by_contra hc
  have := h.zero (by simpa using hc)
  omega

theorem Flags.noCommit (h : Flags s) (hc : s.committing = false) (p : P) : ¬ (s.pc p).InCommit := by
  intro hp
  have := h.com.2 ⟨p, hp⟩
  simp [hc] at this

theorem Flags.noOp (h : Flags s) (hp : (s.pc p).InCommit) (q : P) : ¬ (s.pc q).InOp := by
  intro hq
  exact h.noCommit (h.idle hq) p hp

@[simp] theorem wakeup_inOp (pc : P → Pc) (p : P) : (wakeup pc p).InOp ↔ (pc p).InOp := by
  by_cases h : pc p = .asleep <;> simp [wakeup, h, Pc.InOp]

@[simp] theorem wakeup_inCommit (pc : P → Pc) (p : P) : (wakeup pc p).InCommit ↔ (pc p).InCommit := by
  by_cases h : pc p = .asleep <;> simp [wakeup, h, Pc.InCommit]

theorem Flags.move (h : Flags s) (ho : s'.outstanding = s.outstanding) (hc : s'.committing = s.committing)
    (hop : ∀ q, (s'.pc q).InOp ↔ (s.pc q).InOp) (hcm : ∀ q, (s'.pc q).InCommit ↔ (s.pc q).InCommit)
    (hp : s'.panic ≠ some .outsideTrans ∧ s'.panic ≠ some .committing) : Flags s' where
  run := by
    obtain ⟨r, hr, hn⟩ := h.run
    exact ⟨r, fun q => (hr q).trans (hop q).symm, by rw [ho, hn]⟩
  one p q hp hq := h.one p q ((hcm p).1 hp) ((hcm q).1 hq)
  com := by
    rw [hc, h.com]
    exact exists_congr fun q => (hcm q).symm
  zero := by rw [ho, hc]; exact h.zero
  panic := hp

theorem flags_init : Flags (init P) where
  run := ⟨∅, by simp [init, Pc.InOp], by simp [init]⟩
  one p q hp := by simp [init, Pc.InCommit] at hp
  com := by simp [init, Pc.InCommit]
  zero := by simp [init]
  panic := by simp [init]

variable [DecidableEq P]

theorem goto_inOp (h : c.InOp ↔ (s.pc p).InOp) (q : P) :
    (s.goto p c q).InOp ↔ (s.pc q).InOp := by
  by_cases hq : q = p
  · subst hq; simpa [St.goto] using h
  · simp [St.goto, update_of_ne hq]

theorem goto_inCommit (h : c.InCommit ↔ (s.pc p).InCommit) (q : P) :
    (s.goto p c q).InCommit ↔ (s.pc q).InCommit := by
  by_cases hq : q = p
  · subst hq; simpa [St.goto] using h
  · simp [St.goto, update_of_ne hq]

theorem flags_begun (h : Flags s) (hpc : s.pc p = .beginOp) (hc : s.committing = false)
    (ho : s'.outstanding = s.outstanding + 1) (hc' : s'.committing = s.committing) (hpc' : s'.pc = s.goto p .op)
    (hp : s'.panic = s.panic) : Flags s' := by
  obtain ⟨r, hr, hn⟩ := h.run
  have hcm : ∀ q, (s'.pc q).InCommit ↔ (s.pc q).InCommit := by
    rw [hpc']; exact goto_inCommit (by simp [hpc, Pc.InCommit])
  refine ⟨⟨insert p r, fun q => ?_, ?_⟩, fun q q' hq hq' => h.one q q' ((hcm q).1 hq) ((hcm q').1 hq'), ?_, ?_, ?_⟩
  · rw [hpc']
    by_cases hq : q = p
    · subst hq; simp [St.goto, Pc.InOp]
    · simp [St.goto, hq, hr q]
  · have : p ∉ r := by rw [hr, hpc]; simp [Pc.InOp]
    rw [ho, hn, Finset.card_insert_of_notMem this]
    rfl
  · rw [hc', h.com]; exact exists_congr fun q => (hcm q).symm
  · simp [hc', hc]
  · rw [hp]; exact h.panic

theorem flags_ended (h : Flags s) (hpc : s.pc p = .op) (hc : s.committing = false)
    (ho : s'.outstanding = s.outstanding - 1) (hp : s'.panic = s.panic)
    (hop : ∀ q, (s'.pc q).InOp ↔ q ≠ p ∧ (s.pc q).InOp)
    (hcm : (s'.committing = s.committing ∧ ∀ q, ¬ (s'.pc q).InCommit) ∨
      (s'.committing = true ∧ s.outstanding - 1 = 0 ∧ ∀ q, (s'.pc q).InCommit ↔ q = p)) : Flags s' := by
  obtain ⟨r, hr, hn⟩ := h.run
  have hmem : p ∈ r := by rw [hr, hpc]; trivial
  have hrun : ∃ r : Finset P, (∀ p, p ∈ r ↔ (s'.pc p).InOp) ∧ s'.outstanding = r.card := by
    refine ⟨r.erase p, fun q => by rw [Finset.mem_erase, hop q, hr q], ?_⟩
    have : 0 < r.card := Finset.card_pos.2 ⟨p, hmem⟩
    rw [ho, hn, Finset.card_erase_of_mem hmem]
    omega
  rcases hcm with ⟨hc', hno⟩ | ⟨hc', hz, hone⟩
  · refine ⟨hrun, fun q q' hq => absurd hq (hno q), ?_, ?_, by rw [hp]; exact h.panic⟩
    · simp [hc', hc, hno]
    · simp [hc', hc]
  · refine ⟨hrun, fun q q' hq hq' => ((hone q).1 hq).trans ((hone q').1 hq').symm, ?_, ?_, by rw [hp]; exact h.panic⟩
    · simp [hc', hone]
    · intro _; rw [ho, hz]

theorem flags_step (h : Flags s) (hs : Step size s e s') : Flags s' := by
  cases hs with
  | call _ hpc | sleepCommitting _ hpc | sleepSpace _ hpc | kick _ hpc | size _ hpc | trans _ hpc | logged _ hpc
  | commitNone _ hpc | commitSome _ hpc | writeLog _ _ hpc | writeLogEnd _ hpc | writeHead _ hpc | install _ _ hpc
  | installEnd _ hpc | clear _ hpc | erase _ hpc =>
    exact h.move rfl rfl (goto_inOp (by simp [hpc, Pc.InOp])) (goto_inCommit (by simp [hpc, Pc.InCommit])) h.panic
  | begun _ hpc hc => exact flags_begun h hpc hc rfl rfl rfl rfl
  | tooBig => exact h.move rfl rfl (fun _ => Iff.rfl) (fun _ => Iff.rfl) (by simp)
  | outsideTrans _ hpc hlt => have := h.pos (by rw [hpc]; trivial); omega
  | @endPanic p _ hpc hc => simp [h.idle (p := p) (by rw [hpc]; trivial)] at hc
  | @ended p _ hpc hc =>
    refine flags_ended h hpc hc rfl rfl ?_ (.inl ⟨rfl, ?_⟩) <;> intro q <;>
      simp only [wakeup_inOp, wakeup_inCommit] <;> by_cases hq : q = p
    · subst hq; simp [St.goto, Pc.InOp]
    · simp [St.goto, hq]
    · subst hq; simp [St.goto, Pc.InCommit]
    · simpa [St.goto, update_of_ne hq] using h.noCommit hc q
  | @endLast p _ hpc hc hz =>
    refine flags_ended h hpc hc rfl rfl ?_ (.inr ⟨rfl, hz, ?_⟩) <;> intro q <;> by_cases hq : q = p
    · subst hq; simp [St.goto, Pc.InOp]
    · simp [St.goto, hq]
    · subst hq; simp [St.goto, Pc.InCommit]
    · simpa [St.goto, hq] using h.noCommit hc q
  | @cleared p _ hpc =>
    have hin : (s.pc p).InCommit := by rw [hpc]; trivial
    have hno : ∀ q, ¬ (wakeup (s.goto p .user) q).InCommit := by
      intro q
      rw [wakeup_inCommit]
      by_cases hq : q = p
      · subst hq; simp [St.goto, Pc.InCommit]
      · simpa [St.goto, update_of_ne hq] using fun hc => hq (h.one q p hc hin)
    obtain ⟨r, hr, hn⟩ := h.run
    refine ⟨⟨r, fun q => ?_, hn⟩, fun q q' hq => absurd hq (hno q), ?_, by simp, h.panic⟩
    · rw [hr, wakeup_inOp]
      exact (goto_inOp (by simp [hpc, Pc.InOp]) q).symm
    · simpa using hno

/-! ## What the log contains -/

/-- `l` lists the blocks that the operations `ops` logged, each once. -/
def Union (ops : List Op) (l : List Nat) : Prop := l.Nodup ∧ ∀ b, b ∈ l ↔ ∃ o ∈ ops, b ∈ o.blocks

/-- A commit whose header, log and home blocks are those of its operations. -/
def Complete (c : Commit) : Prop := Union c.ops c.head ∧ c.copied = c.head ∧ c.installed = c.head

/-- How far a commit has come when its process is at a given place. -/
def Phase (lh : List Nat) (c : Commit) : Pc → Prop
  | .commit => Union c.ops lh ∧ c.copied = [] ∧ c.head = [] ∧ c.installed = []
  | .writeLog tail => Union c.ops lh ∧ tail ≤ lh.length ∧ c.copied = lh.take tail ∧ c.installed = []
  | .writeHead => Union c.ops lh ∧ c.copied = lh ∧ c.installed = []
  | .install tail => Union c.ops lh ∧ tail ≤ lh.length ∧ c.copied = lh ∧ c.head = lh ∧ c.installed = lh.take tail
  | .clear => Union c.ops lh ∧ c.copied = lh ∧ c.head = lh ∧ c.installed = lh
  | .erase | .done => lh = [] ∧ Complete c
  | _ => True

structure Contents (s : St P) : Prop where
  nodup : s.lh.Nodup
  logged : s.committing = false → ∀ b, b ∈ s.lh ↔
    (∃ o ∈ s.ended, b ∈ o.blocks) ∨ ∃ p, (s.pc p).InOp ∧ b ∈ (s.cur p).blocks
  ended : s.outstanding = 0 → s.ended = []
  phase : ∀ p, Phase s.lh s.now (s.pc p)
  commits : ∀ c ∈ s.commits, Complete c
  finished : s.finished = s.commits.flatMap Commit.ops ++ (if s.committing then s.now.ops else []) ++ s.ended

theorem phase_other (lh : List Nat) (c : Commit) {pc : Pc} (h : ¬ pc.InCommit) : Phase lh c pc := by
  cases pc <;> first | trivial | exact absurd trivial h

theorem Contents.move (h : Contents s) (hop : c.InOp ↔ (s.pc p).InOp) (hc : ¬ c.InCommit) :
    Contents { s with pc := s.goto p c } where
  nodup := h.nodup
  logged hz b := by
    rw [h.logged hz b]
    exact or_congr Iff.rfl (exists_congr fun q => and_congr (goto_inOp hop q).symm Iff.rfl)
  ended := h.ended
  phase q := by
    by_cases hq : q = p
    · subst hq; simpa [St.goto] using phase_other _ _ hc
    · simpa [St.goto, hq] using h.phase q
  commits := h.commits
  finished := h.finished

theorem Contents.commit {c' : Pc} {now : Commit} (h : Contents s) (hf : Flags s) (hpc : s.pc p = c) (hc : c.InCommit)
    (hn : lh.Nodup) (hops : now.ops = s.now.ops) (hph : Phase s.lh s.now c → Phase lh now c') :
    Contents { s with pc := s.goto p c', lh, now } where
  nodup := hn
  logged hz := absurd (hpc ▸ hc) (hf.noCommit hz p)
  ended := h.ended
  phase q := by
    by_cases hq : q = p
    · subst hq; simpa [St.goto] using hph (hpc ▸ h.phase q)
    · simpa [St.goto, hq] using phase_other _ _ fun hc' => hq (hf.one q p hc' (hpc ▸ hc))
  commits := h.commits
  finished := by
    dsimp only
    rw [hops]
    exact h.finished

theorem absorb_old (hb : b ∈ lh) : absorb lh b = lh := by
  have hi := idxOf_lt_length_of_mem hb
  simp only [absorb, Nat.ne_of_lt hi, if_false]
  apply ext_getElem (by simp)
  intro i h1 h2
  rw [getElem_set]
  split
  · rename_i he; subst he; simp
  · rfl

theorem absorb_new (hb : b ∉ lh) : absorb lh b = lh ++ [b] := by
  simp [absorb, idxOf_eq_length hb]

theorem mem_absorb {x : Nat} : x ∈ absorb lh b ↔ x ∈ lh ∨ x = b := by
  by_cases hb : b ∈ lh
  · rw [absorb_old hb]
    exact ⟨.inl, fun h => h.elim id fun e => e ▸ hb⟩
  · simp [absorb_new hb]

theorem nodup_absorb (h : lh.Nodup) (b : Nat) : (absorb lh b).Nodup := by
  by_cases hb : b ∈ lh
  · rw [absorb_old hb]; exact h
  · rw [absorb_new hb, nodup_append]
    refine ⟨h, by simp, ?_⟩
    intro a ha c hc
    rw [mem_singleton] at hc
    subst hc
    exact fun he => hb (he ▸ ha)

omit [DecidableEq P] in
theorem contents_init : Contents (init P) where
  nodup := by simp [init]
  logged := by simp [init, Pc.InOp]
  ended := by simp [init]
  phase := by simp [init, Phase]
  commits := by simp [init]
  finished := by simp [init]

section
variable (h : Contents s) (hf : Flags s)
include h hf

theorem contents_begun (hpc : s.pc p = .beginOp) :
    Contents { s with
      outstanding := s.outstanding + 1, pc := s.goto p .op, cur := update s.cur p ⟨s.next, []⟩,
      next := s.next + 1 } where
  nodup := h.nodup
  logged hz b := by
    -- the new operation has logged nothing yet
    have hnot : ¬ (s.pc p).InOp := by simp [hpc, Pc.InOp]
    rw [h.logged hz b]
    refine or_congr Iff.rfl (exists_congr fun q => ?_)
    by_cases hq : q = p
    · subst hq; simp [hnot]
    · simp [St.goto, hq]
  ended hz := by
    obtain ⟨r, -, hn⟩ := hf.run
    simp only [hn] at hz
    omega
  phase q := by
    by_cases hq : q = p
    · subst hq; simp [St.goto, Phase]
    · simpa [St.goto, hq] using h.phase q
  commits := h.commits
  finished := h.finished

theorem contents_logged (hpc : s.pc p = .logging b) :
    Contents { s with
      lh := absorb s.lh b, pc := s.goto p .op,
      cur := update s.cur p ⟨(s.cur p).id, b :: (s.cur p).blocks⟩ } where
  nodup := nodup_absorb h.nodup b
  logged hz x := by
    have hin : (s.pc p).InOp := by rw [hpc]; trivial
    rw [mem_absorb, h.logged hz x]
    constructor
    · rintro ((he | ⟨q, hq, hx⟩) | rfl)
      · exact .inl he
      · refine .inr ⟨q, (goto_inOp (by simp [hpc, Pc.InOp]) q).2 hq, ?_⟩
        by_cases hqp : q = p
        · subst hqp; simp [hx]
        · simpa [hqp] using hx
      · exact .inr ⟨p, by simp [St.goto, Pc.InOp], by simp⟩
    · rintro (he | ⟨q, hq, hx⟩)
      · exact .inl (.inl he)
      · by_cases hqp : q = p
        · subst hqp
          simp only [update_self, mem_cons] at hx
          exact hx.elim .inr fun hx => .inl (.inr ⟨q, hin, hx⟩)
        · simp only [ne_eq, hqp, not_false_eq_true, update_of_ne] at hq hx
          exact .inl (.inr ⟨q, hq, hx⟩)
  ended := h.ended
  phase q := by
    have hno := hf.noCommit (hf.idle (p := p) (by rw [hpc]; trivial)) q
    exact phase_other _ _ fun hc => hno ((goto_inCommit (by simp [hpc, Pc.InCommit]) q).1 hc)
  commits := h.commits
  finished := h.finished

omit [DecidableEq P] in
theorem union_ended (hpc : s.pc p = .op) (hc : s.committing = false)
    (hz : s.outstanding - 1 = 0) : Union (s.ended ++ [s.cur p]) s.lh := by
  obtain ⟨r, hr, hn⟩ := hf.run
  have hone : r = {p} := by
    obtain ⟨q, rfl⟩ := Finset.card_eq_one.1 (show r.card = 1 by omega)
    have : p ∈ ({q} : Finset P) := by rw [hr, hpc]; trivial
    rw [Finset.mem_singleton.1 this]
  refine ⟨h.nodup, fun b => ?_⟩
  rw [h.logged hc b]
  constructor
  · rintro (⟨o, ho, hb⟩ | ⟨q, hq, hb⟩)
    · exact ⟨o, mem_append_left _ ho, hb⟩
    · rw [← hr, hone, Finset.mem_singleton] at hq
      subst hq
      exact ⟨_, mem_append_right _ (mem_singleton_self _), hb⟩
  · rintro ⟨o, ho, hb⟩
    rcases mem_append.1 ho with ho | ho
    · exact .inl ⟨o, ho, hb⟩
    · rw [mem_singleton] at ho
      subst ho
      exact .inr ⟨p, by rw [hpc]; trivial, hb⟩

theorem contents_ended (hpc : s.pc p = .op) (hc : s.committing = false)
    (hz : s.outstanding - 1 ≠ 0) :
    Contents { s with
      outstanding := s.outstanding - 1, pc := wakeup (s.goto p .user), finished := s.finished ++ [s.cur p],
      ended := s.ended ++ [s.cur p] } where
  nodup := h.nodup
  logged _ b := by
    rw [h.logged hc b]
    constructor
    · rintro (⟨o, ho, hb⟩ | ⟨q, hq, hb⟩)
      · exact .inl ⟨o, mem_append_left _ ho, hb⟩
      · by_cases hqp : q = p
        · subst hqp
          exact .inl ⟨_, mem_append_right _ (mem_singleton_self _), hb⟩
        · exact .inr ⟨q, by rw [wakeup_inOp]; simpa [St.goto, hqp] using hq, hb⟩
    · rintro (⟨o, ho, hb⟩ | ⟨q, hq, hb⟩)
      · rcases mem_append.1 ho with ho | ho
        · exact .inl ⟨o, ho, hb⟩
        · rw [mem_singleton] at ho
          subst ho
          exact .inr ⟨p, by rw [hpc]; trivial, hb⟩
      · rw [wakeup_inOp] at hq
        by_cases hqp : q = p
        · subst hqp; simp [St.goto, Pc.InOp] at hq
        · exact .inr ⟨q, by simpa [St.goto, hqp] using hq, hb⟩
  ended hz' := absurd hz' hz
  phase q := by
    refine phase_other _ _ fun hcm => ?_
    rw [wakeup_inCommit] at hcm
    by_cases hq : q = p
    · subst hq; simp [St.goto, Pc.InCommit] at hcm
    · exact hf.noCommit hc q (by simpa [St.goto, hq] using hcm)
  commits := h.commits
  finished := by simp [h.finished, hc]

theorem contents_endLast (hpc : s.pc p = .op)
    (hc : s.committing = false) (hz : s.outstanding - 1 = 0) :
    Contents { s with
      outstanding := s.outstanding - 1, committing := true, pc := s.goto p .commit,
      finished := s.finished ++ [s.cur p], ended := [], now := ⟨s.ended ++ [s.cur p], [], [], []⟩ } where
  nodup := h.nodup
  logged := by simp
  ended := by simp
  phase q := by
    by_cases hq : q = p
    · subst hq; simpa [St.goto, Phase] using union_ended h hf hpc hc hz
    · simpa [St.goto, hq] using phase_other _ _ (hf.noCommit hc q)
  commits := h.commits
  finished := by simp [h.finished, hc]

theorem contents_cleared (hpc : s.pc p = .done) :
    Contents { s with
      committing := false, pc := wakeup (s.goto p .user), commits := s.commits ++ [s.now] } := by
  have hin : (s.pc p).InCommit := by rw [hpc]; trivial
  have hc : s.committing = true := hf.com.2 ⟨p, hin⟩
  have hph := h.phase p
  rw [hpc] at hph
  have hend := h.ended (hf.zero hc)
  refine ⟨h.nodup, fun _ b => ?_, h.ended, fun q => ?_, fun c hcm => ?_, ?_⟩
  · have hno : ∀ q, ¬ (wakeup (s.goto p .user) q).InOp := by
      intro q
      rw [wakeup_inOp, goto_inOp (by simp [hpc, Pc.InOp])]
      exact hf.noOp hin q
    simp [hph.1, hend, hno]
  · refine phase_other _ _ fun hcm => ?_
    rw [wakeup_inCommit] at hcm
    by_cases hq : q = p
    · subst hq; simp [St.goto, Pc.InCommit] at hcm
    · exact hq (hf.one q p (by simpa [St.goto, hq] using hcm) hin)
  · rcases mem_append.1 hcm with hcm | hcm
    · exact h.commits c hcm
    · rw [mem_singleton] at hcm
      subst hcm
      exact hph.2
  · simp [h.finished, hc]

theorem contents_step (hs : Step size s e s') :
    Contents s' := by
  cases hs with
  | call _ hpc | sleepCommitting _ hpc | sleepSpace _ hpc | kick _ hpc | size _ hpc | trans _ hpc =>
    exact h.move (by simp [hpc, Pc.InOp]) (by simp [Pc.InCommit])
  | begun _ hpc => exact contents_begun h hf hpc
  | tooBig | outsideTrans => exact ⟨h.nodup, h.logged, h.ended, h.phase, h.commits, h.finished⟩
  | logged _ hpc => exact contents_logged h hf hpc
  | @endPanic p _ hpc hc => simp [hf.idle (p := p) (by rw [hpc]; trivial)] at hc
  | ended _ hpc hc hz => exact contents_ended h hf hpc hc hz
  | endLast _ hpc hc hz => exact contents_endLast h hf hpc hc hz
  | cleared _ hpc => exact contents_cleared h hf hpc
  | commitNone _ hpc hn =>
    refine h.commit hf hpc trivial h.nodup rfl ?_
    rintro ⟨hu, h1, h2, h3⟩
    have hl : s.lh = [] := by simpa using hn
    rw [hl] at hu
    exact ⟨hl, by rw [h2]; exact hu, by rw [h1, h2], by rw [h3, h2]⟩
  | commitSome _ hpc hn =>
    refine h.commit hf hpc trivial h.nodup rfl fun hph => ?_
    exact ⟨hph.1, Nat.zero_le _, by simpa using hph.2.1, hph.2.2.2⟩
  | writeLog ht _ hpc =>
    refine h.commit hf hpc trivial h.nodup rfl ?_
    rintro ⟨hu, -, h1, h2⟩
    exact ⟨hu, ht, by simp [h1], h2⟩
  | writeLogEnd _ hpc ht =>
    refine h.commit hf hpc trivial h.nodup rfl ?_
    rintro ⟨hu, -, h1, h2⟩
    exact ⟨hu, by rw [h1, take_of_length_le (by omega)], h2⟩
  | writeHead _ hpc =>
    refine h.commit hf hpc trivial h.nodup rfl fun hph => ?_
    exact ⟨hph.1, Nat.zero_le _, hph.2.1, rfl, by simpa using hph.2.2⟩
  | install ht _ hpc =>
    refine h.commit hf hpc trivial h.nodup rfl ?_
    rintro ⟨hu, -, h1, h2, h3⟩
    exact ⟨hu, ht, h1, h2, by simp [h3]⟩
  | installEnd _ hpc ht =>
    refine h.commit hf hpc trivial h.nodup rfl ?_
    rintro ⟨hu, -, h1, h2, h3⟩
    exact ⟨hu, h1, h2, by rw [h3, take_of_length_le (by omega)]⟩
  | clear _ hpc =>
    refine h.commit hf hpc trivial nodup_nil rfl ?_
    rintro ⟨hu, h1, h2, h3⟩
    exact ⟨rfl, by rw [h2]; exact hu, by rw [h1, h2], by rw [h3, h2]⟩
  | erase _ hpc => exact h.commit hf hpc trivial h.nodup rfl id

end

/-! ## Every operation is counted once -/

structure Ids (s : St P) : Prop where
  nodup : (s.finished.map Op.id).Nodup
  old : ∀ o ∈ s.finished, o.id < s.next
  cur : ∀ p, (s.pc p).InOp → (s.cur p).id < s.next ∧ (s.cur p).id ∉ s.finished.map Op.id
  inj : ∀ p q, (s.pc p).InOp → (s.pc q).InOp → (s.cur p).id = (s.cur q).id → p = q

omit [DecidableEq P] in
theorem ids_init : Ids (init P) := ⟨by simp [init], by simp [init], by simp [init, Pc.InOp], by simp [init, Pc.InOp]⟩

omit [DecidableEq P] in
theorem Ids.move (h : Ids s) (hf : s'.finished = s.finished) (hn : s'.next = s.next)
    (hop : ∀ q, (s'.pc q).InOp ↔ (s.pc q).InOp) (hid : ∀ q, (s'.cur q).id = (s.cur q).id) : Ids s' where
  nodup := by rw [hf]; exact h.nodup
  old := by rw [hf, hn]; exact h.old
  cur p hp := by rw [hid, hn, hf]; exact h.cur p ((hop p).1 hp)
  inj p q hp hq he := h.inj p q ((hop p).1 hp) ((hop q).1 hq) (by rw [← hid, ← hid]; exact he)

omit [DecidableEq P] in
theorem Ids.finish (h : Ids s) (hp : (s.pc p).InOp) (hf : s'.finished = s.finished ++ [s.cur p])
    (hn : s'.next = s.next) (hop : ∀ q, (s'.pc q).InOp → q ≠ p ∧ (s.pc q).InOp) (hc : s'.cur = s.cur) : Ids s' where
  nodup := by
    rw [hf, map_append, nodup_append]
    refine ⟨h.nodup, by simp, ?_⟩
    intro a ha b hb
    simp only [map_cons, map_nil, mem_singleton] at hb
    subst hb
    exact fun he => (h.cur p hp).2 (he ▸ ha)
  old o ho := by
    rw [hn]
    rw [hf] at ho
    rcases mem_append.1 ho with ho | ho
    · exact h.old o ho
    · rw [mem_singleton] at ho; subst ho; exact (h.cur p hp).1
  cur q hq := by
    obtain ⟨hne, hq⟩ := hop q hq
    rw [hc, hn, hf]
    refine ⟨(h.cur q hq).1, ?_⟩
    simp only [map_append, map_cons, map_nil, mem_append, mem_singleton, not_or]
    exact ⟨(h.cur q hq).2, fun he => hne (h.inj q p hq hp he)⟩
  inj q q' hq hq' he := by
    rw [hc] at he
    exact h.inj q q' (hop q hq).2 (hop q' hq').2 he

theorem ids_begun (h : Ids s) (hpc : s.pc p = .beginOp) :
    Ids { s with
      outstanding := s.outstanding + 1, pc := s.goto p .op, cur := update s.cur p ⟨s.next, []⟩,
      next := s.next + 1 } where
  nodup := h.nodup
  old o ho := Nat.lt_succ_of_lt (h.old o ho)
  cur q hq := by
    by_cases hqp : q = p
    · subst hqp
      simp only [update_self, mem_map, not_exists, not_and]
      exact ⟨Nat.lt_succ_self _, fun o ho he => Nat.lt_irrefl _ (he ▸ h.old o ho)⟩
    · simp only [ne_eq, hqp, not_false_eq_true, update_of_ne] at hq ⊢
      exact ⟨Nat.lt_succ_of_lt (h.cur q hq).1, (h.cur q hq).2⟩
  inj q q' hq hq' he := by
    by_cases hqp : q = p <;> by_cases hqp' : q' = p
    · rw [hqp, hqp']
    · subst hqp
      simp only [update_self, ne_eq, hqp', not_false_eq_true, update_of_ne] at hq' he
      exact absurd (h.cur q' hq').1 (by omega)
    · subst hqp'
      simp only [update_self, ne_eq, hqp, not_false_eq_true, update_of_ne] at hq he
      exact absurd (h.cur q hq).1 (by omega)
    · simp only [ne_eq, hqp, hqp', not_false_eq_true, update_of_ne] at hq hq' he
      exact h.inj q q' hq hq' he

theorem ids_step (h : Ids s) (hs : Step size s e s') : Ids s' := by
  cases hs with
  | call _ hpc | sleepCommitting _ hpc | sleepSpace _ hpc | kick _ hpc | size _ hpc | trans _ hpc | commitNone _ hpc
  | commitSome _ hpc | writeLog _ _ hpc | writeLogEnd _ hpc | writeHead _ hpc | install _ _ hpc | installEnd _ hpc
  | clear _ hpc | erase _ hpc =>
    exact h.move rfl rfl (goto_inOp (by simp [hpc, Pc.InOp])) (fun _ => rfl)
  | begun _ hpc => exact ids_begun h hpc
  | tooBig | outsideTrans | endPanic => exact ⟨h.nodup, h.old, h.cur, h.inj⟩
  | @logged p b _ hpc =>
    refine h.move rfl rfl (goto_inOp (by simp [hpc, Pc.InOp])) fun q => ?_
    by_cases hq : q = p
    · subst hq; simp
    · simp [hq]
  | @ended p _ hpc =>
    refine h.finish (p := p) (by rw [hpc]; trivial) rfl rfl (fun q hq => ?_) rfl
    rw [wakeup_inOp] at hq
    by_cases hqp : q = p
    · subst hqp; simp [St.goto, Pc.InOp] at hq
    · exact ⟨hqp, by simpa [St.goto, hqp] using hq⟩
  | @endLast p _ hpc =>
    refine h.finish (p := p) (by rw [hpc]; trivial) rfl rfl (fun q hq => ?_) rfl
    by_cases hqp : q = p
    · subst hqp; simp [St.goto, Pc.InOp] at hq
    · exact ⟨hqp, by simpa [St.goto, hqp] using hq⟩
  | @cleared p _ hpc =>
    refine h.move rfl rfl (fun q => ?_) (fun _ => rfl)
    rw [wakeup_inOp]
    exact goto_inOp (by simp [hpc, Pc.InOp]) q

theorem reachable_inv (h : Reachable size s) : Flags s ∧ Contents s ∧ Ids s := by
  refine Reach.inv (fun s => Flags s ∧ Contents s ∧ Ids s) ?_ ?_ h
  · rintro s rfl
    exact ⟨flags_init, contents_init, ids_init⟩
  · rintro s e s' ⟨hf, hc, hi⟩ hs
    exact ⟨flags_step hf hs, contents_step hc hf hs, ids_step hi hs⟩

/-! ## Group commit -/

/-- The operations of every commit that has started, oldest commit first. -/
def St.groups (s : St P) : List (List Op) :=
  s.commits.map Commit.ops ++ if s.committing then [s.now.ops] else []

/-- `commit` is past the `write_head` that commits. -/
def Pc.HeadStored : Pc → Prop
  | .install _ | .clear | .erase | .done => True
  | _ => False

/-- No commit contains part of an operation. -/
structure Grouped (size : Int) (s : St P) : Prop where
  committing : s.committing = true → s.outstanding = 0
  /-- While `commit` runs, no `begin_op` returns and no `log_write` takes a step. -/
  quiet : ∀ p, (s.pc p).InCommit → ∀ e s', Step size s e s' →
    ∀ q b, e ≠ .begun q ∧ e ≠ .size q b ∧ e ≠ .trans q ∧ e ≠ .logged q
  panic : s.panic ≠ some .committing ∧ s.panic ≠ some .outsideTrans
  /-- What a finished commit wrote are the blocks of its operations, each once. -/
  commits : ∀ c ∈ s.commits, Union c.ops c.head ∧ c.copied = c.head ∧ c.installed = c.head
  /-- And so is the block list of the commit that runs, once it is on disk. -/
  running : ∀ p, (s.pc p).HeadStored → Union s.now.ops s.now.head
  /-- The operations of a commit have all called `end_op`. -/
  whole : ∀ g ∈ s.groups, ∀ o ∈ g, o ∈ s.finished
  /-- An operation that has called `end_op` is in exactly one commit, or no
  commit has started since and another operation is still running. -/
  once : ∀ o ∈ s.finished, (o ∈ s.ended ∧ 0 < s.outstanding ∧ ∀ g ∈ s.groups, o ∉ g) ∨
    (o ∉ s.ended ∧ ∃! i, ∃ h : i < s.groups.length, o ∈ s.groups[i])

omit [DecidableEq P] in
theorem Contents.finished_groups (h : Contents s) : s.finished = s.groups.flatten ++ s.ended := by
  rw [h.finished, St.groups]
  cases s.committing <;> simp [List.flatMap]

theorem existsUnique_of_nodup_flatten {α : Type} {gs : List (List α)} (hn : gs.flatten.Nodup) {x : α}
    (hx : x ∈ gs.flatten) : ∃! i, ∃ h : i < gs.length, x ∈ gs[i] := by
  obtain ⟨g, hg, hxg⟩ := mem_flatten.1 hx
  obtain ⟨i, hi, rfl⟩ := getElem_of_mem hg
  refine ⟨i, ⟨hi, hxg⟩, ?_⟩
  rintro j ⟨hj, hxj⟩
  have hp := pairwise_iff_getElem.1 (nodup_flatten.1 hn).2
  rcases Nat.lt_trichotomy i j with hij | hij | hij
  · exact absurd hxj (hp i j hi hj hij hxg)
  · exact hij.symm
  · exact absurd hxg (hp j i hj hi hij hxj)

/-- **Group commit.** In every state that any interleaving of any number of
processes reaches, commits consist of whole operations. -/
theorem group_commit {s : St P} (h : Reachable size s) : Grouped size s := by
  obtain ⟨hf, hc, hi⟩ := reachable_inv h
  have hn : (s.groups.flatten ++ s.ended).Nodup := by
    rw [← hc.finished_groups]; exact hi.nodup.of_map
  refine ⟨hf.zero, ?_, ⟨hf.panic.2, hf.panic.1⟩, hc.commits, ?_, ?_, ?_⟩
  · intro p hp e s' hs q b
    have hno := hf.noOp hp
    have hcm := hf.com.2 ⟨p, hp⟩
    have hin : ∀ r c, c.InOp → s.pc r ≠ c := fun r c hc he => hno r (he ▸ hc)
    cases hs with
    | begun _ _ hcf => simp [hcm] at hcf
    | tooBig _ hpc | size _ hpc | outsideTrans _ hpc | trans _ hpc | logged _ hpc => exact absurd hpc (hin _ _ trivial)
    | _ => simp
  · intro p hp
    have hph := hc.phase p
    cases hpc : s.pc p <;> rw [hpc] at hp hph <;> try exact absurd hp id
    · exact hph.2.2.2.1 ▸ hph.1
    · exact hph.2.2.1 ▸ hph.1
    · exact hph.2.1
    · exact hph.2.1
  · intro g hg o ho
    rw [hc.finished_groups]
    exact mem_append_left _ (mem_flatten.2 ⟨g, hg, ho⟩)
  · intro o ho
    rw [nodup_append] at hn
    by_cases he : o ∈ s.ended
    · refine .inl ⟨he, ?_, fun g hg hog => hn.2.2 o (mem_flatten.2 ⟨g, hg, hog⟩) o he rfl⟩
      obtain ⟨r, -, hr⟩ := hf.run
      have hz : s.outstanding ≠ 0 := fun hz => by rw [hc.ended hz] at he; cases he
      omega
    · rw [hc.finished_groups] at ho
      exact .inr ⟨he, existsUnique_of_nodup_flatten hn.1 ((mem_append.1 ho).resolve_right he)⟩

/-- One process logs block 7 twice and commits. -/
theorem group_commit_one : ∃ s : St Unit, s.commits.map Commit.head = [[7]] ∧ Grouped 31 s := by
  have h : Reachable 31 (init Unit) := .init rfl
  have h := Reach.step h (.call (p := ()) rfl rfl)
  have h := Reach.step h (.begun (p := ()) rfl rfl rfl (by decide))
  have h := Reach.step h (.size (p := ()) (b := 7) rfl rfl (by decide))
  have h := Reach.step h (.trans (p := ()) rfl rfl (by decide))
  have h := Reach.step h (.logged (p := ()) rfl rfl)
  have h := Reach.step h (.size (p := ()) (b := 7) rfl rfl (by decide))
  have h := Reach.step h (.trans (p := ()) rfl rfl (by decide))
  have h := Reach.step h (.logged (p := ()) rfl rfl)
  have h := Reach.step h (.endLast (p := ()) rfl rfl rfl (by decide))
  have h := Reach.step h (.commitSome (p := ()) rfl rfl (by decide))
  have h := Reach.step h (.writeLog (p := ()) (by decide) rfl rfl)
  have h := Reach.step h (.writeLogEnd (p := ()) rfl rfl (by decide))
  have h := Reach.step h (.writeHead (p := ()) rfl rfl)
  have h := Reach.step h (.install (p := ()) (by decide) rfl rfl)
  have h := Reach.step h (.installEnd (p := ()) rfl rfl (by decide))
  have h := Reach.step h (.clear (p := ()) rfl rfl)
  have h := Reach.step h (.erase (p := ()) rfl rfl)
  have h := Reach.step h (.cleared (p := ()) rfl rfl)
  exact ⟨_, by decide, group_commit h⟩

end Xv6.Ops
