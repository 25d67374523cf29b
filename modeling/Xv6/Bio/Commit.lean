import Mathlib.Data.Finset.Card
import Xv6.Bio.Boot
/-!
# Buffers for a commit

A block of a transaction keeps its buffer pinned until `install_trans` is done
with it, and `commit` reads the blocks of the log as well, one at a time. So it
needs one buffer more than the transaction has blocks. `begin_op` reserves
`LOGSIZE` blocks and `NBUF` is no larger: a transaction that fills the log
leaves no buffer for the first read of `write_log` (`commit_full`).
-/

namespace Xv6.Bio

open Bytes Hoare Log Run List

/-! ## Operations -/

/-- The cache and the operations that use it. -/
structure LogSt where
  st : St
  /-- `log.committing` -/
  committing : Bool
  /-- The distinct blocks that the operation of each process has logged. -/
  used : Nat → Option (Finset Nat)

inductive Act where
  | beginOp (p : Nat)
  /-- `end_op` up to its call of `commit`. -/
  | endOp (p : Nat)
  | call (c : Call)

/-- `log_write` is called in an operation, for at most `MAXOPBLOCKS` blocks, and `commit` by the last `end_op`. -/
def Within (o : LogSt) : Call → Prop
  | .logWrite p k => ∃ B, o.used p = some B ∧ (insert (o.st.buf k).blockno B).card ≤ MAXOPBLOCKS
  | .commit _ => o.committing = true
  | .outstanding _ => False
  | .bread _ _ | .wake _ _ | .write _ _ _ | .bwrite _ _ | .brelse _ _ => True

def committingAfter (o : LogSt) : Call → Bool
  | .commit _ => false
  | _ => o.committing

def usedAfter (o : LogSt) : Call → Nat → Option (Finset Nat)
  | .logWrite p k => Function.update o.used p ((o.used p).map (insert (o.st.buf k).blockno))
  | _ => o.used

def begun (o : LogSt) (p : Nat) : LogSt :=
  { o with st := { o.st with outstanding := o.st.outstanding + 1 }, used := Function.update o.used p (some ∅) }

def ended (o : LogSt) (p : Nat) : LogSt :=
  { st := { o.st with outstanding := o.st.outstanding - 1 }
    committing := decide (o.st.outstanding - 1 = 0)
    used := Function.update o.used p none }

inductive OpStep : LogSt → Act → LogSt → Prop
  | beginOp {o p} : o.committing = false →
      ¬ (o.st.lh.length : Int) + (o.st.outstanding + 1) * MAXOPBLOCKS > LOGSIZE → o.used p = none →
      OpStep o (.beginOp p) (begun o p)
  | endOp {o p} : o.committing = false → (o.used p).isSome = true → OpStep o (.endOp p) (ended o p)
  | call {o c s} : Within o c → Step o.st c s →
      OpStep o (.call c) { st := s, committing := committingAfter o c, used := usedAfter o c }

def Booted (disk : Nat → Block) (p : Nat) (o : LogSt) : Prop :=
  exec (fsinit p ROOTDEV) (boot disk) = (.ok (), o.st) ∧ o.committing = false ∧ o.used = fun _ => none

/-- The last operation of a transaction has ended and is about to call `commit`. The system was booted with an empty
log, the transaction's blocks are not those of the log, and nobody holds a buffer. -/
structure Committing (disk : Nat → Block) (o : LogSt) : Prop where
  fs : Committed disk
  empty : headN (disk (logstart disk)) = 0
  run : ∃ p, Reach (Booted disk p) OpStep o
  committing : o.committing = true
  size : LOGSIZE + 1 ≤ o.st.size
  outside : ∀ b ∈ o.st.lh, ¬ (o.st.start ≤ b ∧ (b : Int) < o.st.start + o.st.size)
  held : o.st.held = []
  waiting : o.st.waiting = []

variable {o : LogSt} {disk : Nat → Block} {n : Nat}

theorem opStep_ready {o' : LogSt} {a : Act} (h : Ready o.st) (hs : OpStep o a o') : Ready o'.st := by
  cases hs with
  | beginOp => exact ⟨h.inv.setLog, h.dev⟩
  | endOp => exact ⟨h.inv.setLog, h.dev⟩
  | call _ hs => exact step_ready h hs

theorem ops_ready {p : Nat} (hfs : Committed disk)
    (hempty : headN (disk (logstart disk)) = 0) (h : Reach (Booted disk p) OpStep o) : Ready o.st := by
  refine h.inv (fun o => Ready o.st) (fun o hb => ?_) fun _ _ _ hr hs => opStep_ready hr hs
  obtain ⟨inv, -, -, hlog⟩ := (fsinit_empty (p := p) (idle_boot disk) hfs hempty).ok hb.1
  exact ⟨hlog.lh ▸ inv, hlog.dev⟩

/-! ## One buffer to spare -/

section Room
variable {S : List Nat} {s : St} {p a b : Nat}

/-- With a buffer to spare, `p` can read a block of the log and then a pinned one. -/
theorem readsTwo_room (h : Inv S s) (hh : s.held = []) (hw : s.waiting = []) (hb : b ∈ S) (hne : a ≠ b)
    (hroom : S.length < NBUF) : ReadsTwo (fun _ _ => False) S p s a b := by
  constructor
  · apply bread_room h hw
    · simp [hh]
    · exact .inr (by simpa [hh] using hroom)
  · intro k s' g
    apply bread_room g.inv (g.waiting.trans hw)
    · intro q j hm
      rw [g.held, hh, mem_singleton] at hm
      cases hm
      rw [g.blockno]
      exact hne
    · exact .inl hb

theorem reads_room (h : Inv S s) (hh : s.held = []) (hw : s.waiting = []) (hroom : S.length < NBUF) :
    Reads (fun _ _ => False) S p s a := by
  apply bread_room h hw
  · simp [hh]
  · exact .inr (by simpa [hh] using hroom)

theorem commit_room (h : Ready s) (hh : s.held = []) (hw : s.waiting = []) (hsize : (LOGSIZE : Int) + 1 ≤ s.size)
    (hout : ∀ b ∈ s.lh, ¬ (s.start ≤ b ∧ (b : Int) < s.start + s.size)) (hroom : s.lh.length < NBUF) :
    wp (commit p) (fun _ _ => True) (fun _ _ => False) s := by
  -- block `i` of the log is not block `i` of the transaction
  have hne : ∀ i b, s.lh[i]? = some b → s.start + (0 + i) + 1 ≠ b := by
    intro i b hb he
    have hi : i < s.lh.length := (List.getElem?_eq_some_iff.1 hb).1
    apply hout b (mem_of_getElem? hb)
    simp only [NBUF, LOGSIZE, MAXOPBLOCKS] at hroom hsize
    omega
  unfold commit writeLog installTrans
  simp only [wp_bind, wp_get, wp_ite, wp_pure]
  refine ⟨fun _ => ?_, fun _ => trivial⟩
  refine (writeLogFrom_of_reads s.lh 0 h.inv h.dev fun i b t hb ht => ?_).imp fun _ s₁ r₁ => ?_
  · exact readsTwo_room ht.inv (ht.held.trans hh) (ht.waiting.trans hw) (mem_of_getElem? hb) (hne i b hb) hroom
  have hh₁ := r₁.held.trans hh
  have hw₁ := r₁.waiting.trans hw
  have d₁ : s₁.dev = ROOTDEV := r₁.log.dev.trans h.dev
  refine (writeHead_of_reads d₁ (reads_room r₁.inv hh₁ hw₁ hroom)).imp fun _ s₂ r₂ => ?_
  have hh₂ := r₂.held.trans hh₁
  have hw₂ := r₂.waiting.trans hw₁
  have d₂ : s₂.dev = ROOTDEV := r₂.log.dev.trans d₁
  rw [r₂.log.lh, r₁.log.lh]
  refine (installFrom_of_reads s.lh 0 r₂.inv d₂ fun i b t hb ht => ?_).imp fun _ s₃ r₃ => ?_
  · have hlen : (s.lh.drop i).length < NBUF := by
      rw [length_drop]
      omega
    have hmem : b ∈ s.lh.drop i := mem_of_getElem? (by rwa [getElem?_drop, Nat.add_zero] : (s.lh.drop i)[0]? = _)
    rw [r₂.log.start, r₁.log.start]
    exact readsTwo_room ht.inv (ht.held.trans hh₂) (ht.waiting.trans hw₂) hmem (hne i b hb) hlen
  simp only [wp_modify]
  have d₃ : St.dev { s₃ with lh := [] } = ROOTDEV := r₃.log.dev.trans d₂
  have i₃ : Inv [] { s₃ with lh := [] } := r₃.inv.setLog
  exact (writeHead_of_reads d₃ (reads_room i₃ (r₃.held.trans hh₂) (r₃.waiting.trans hw₂) (by decide))).imp fun _ _ _ => trivial

theorem commit_full (h : Ready s) (hfull : NBUF ≤ s.lh.length) (hlog : s.start + 1 ∉ s.lh) :
    wp (commit p) (fun _ _ => False) (fun e s' => e = .noBuffers ∧ s' = s) s := by
  unfold commit writeLog
  simp only [wp_bind, wp_get, wp_ite, wp_pure]
  have hpos : s.lh.length > 0 := Nat.lt_of_lt_of_le (by decide) hfull
  refine ⟨fun _ => ?_, fun hn => hn hpos⟩
  obtain ⟨b, L, hl⟩ := exists_cons_of_length_pos hpos
  rw [hl]
  unfold writeLogFrom
  simp only [wp_bind, wp_get, h.dev]
  exact (bread_full h.inv hfull hlog).imp fun _ _ hf => hf.elim

theorem commit_noBuffers (h : Ready s) (hfull : NBUF ≤ s.lh.length) (hlog : s.start + 1 ∉ s.lh) :
    exec (commit p) s = (.error .noBuffers, s) := by
  have hw := commit_full (p := p) h hfull hlog
  rcases he : exec (commit p) s with ⟨e | a, s'⟩
  · obtain ⟨rfl, rfl⟩ := hw.error he
    rfl
  · exact (hw.ok he).elim

end Room

theorem Committing.ready (h : Committing disk o) : Ready o.st := by
  obtain ⟨p, hrun⟩ := h.run
  exact ops_ready h.fs h.empty hrun

theorem Committing.log_notMem (h : Committing disk o) : o.st.start + 1 ∉ o.st.lh := by
  intro hm
  apply h.outside _ hm
  have := h.size
  simp only [LOGSIZE, MAXOPBLOCKS] at this
  omega

/-- `commit` returns exactly if the transaction has fewer blocks than the cache has buffers. -/
theorem commit_returns_iff {disk : Nat → Block} {o : LogSt} (h : Committing disk o) (p : Nat) :
    (∃ s, exec (commit p) o.st = (.ok (), s)) ↔ o.st.lh.length < NBUF := by
  constructor
  · rintro ⟨s, hs⟩
    by_contra hfull
    have hno := commit_noBuffers (p := p) h.ready (Nat.le_of_not_lt hfull) h.log_notMem
    rw [hs] at hno
    cases hno
  · intro hroom
    obtain ⟨_, s, hs, -⟩ := (commit_room (p := p) h.ready h.held h.waiting h.size h.outside hroom).returns
    exact ⟨s, hs⟩

/-! ## A transaction of any size up to `LOGSIZE` -/

/-- The disk of a file system with an empty log of 31 blocks from block 2 on. -/
def emptyDisk : Nat → Block := diskWith fun _ => 0

theorem committed_emptyDisk : Committed emptyDisk :=
  committed_diskWith (l := []) (by decide +kernel) (by decide +kernel) (by simp) (by simp)

theorem headN_emptyDisk : headN (emptyDisk (logstart emptyDisk)) = 0 := by decide +kernel

theorem initlog_emptyDisk : (initlog (boot emptyDisk)).start = 2 ∧ (initlog (boot emptyDisk)).size = 31 := by
  decide +kernel

/-- Three operations, of processes 1 to 3, have logged blocks 40 to `39 + n`, ten each. -/
structure Loading (n : Nat) (o : LogSt) : Prop where
  run : Reach (Booted emptyDisk 1) OpStep o
  committing : o.committing = false
  used : ∀ j < 3, ∃ B, o.used (j + 1) = some B ∧ B.card ≤ n - 10 * j
  lh : o.st.lh = (List.range n).map (· + 40)
  held : o.st.held = []
  waiting : o.st.waiting = []
  start : o.st.start = 2
  size : o.st.size = 31
  outstanding : o.st.outstanding = 3

theorem loading_zero : ∃ o, Loading 0 o := by
  obtain ⟨_, s, he, -, hheld, hwait, hlog⟩ :=
    (fsinit_empty (p := 1) (idle_boot emptyDisk) committed_emptyDisk headN_emptyDisk).returns
  have hlh : s.lh = [] := hlog.lh
  have hout : s.outstanding = 0 := hlog.outstanding
  let o : LogSt := { st := s, committing := false, used := fun _ => none }
  have r₀ : Reach (Booted emptyDisk 1) OpStep o := .init ⟨he, rfl, rfl⟩
  -- the log is empty, so `begin_op` admits three operations
  have r₁ : Reach (Booted emptyDisk 1) OpStep (begun o 1) :=
    .step r₀ (.beginOp rfl (by simp [o, hlh, hout, LOGSIZE, MAXOPBLOCKS]) rfl)
  have r₂ : Reach (Booted emptyDisk 1) OpStep (begun (begun o 1) 2) :=
    .step r₁ (.beginOp rfl (by simp [o, begun, hlh, hout, LOGSIZE, MAXOPBLOCKS]) rfl)
  have r₃ : Reach (Booted emptyDisk 1) OpStep (begun (begun (begun o 1) 2) 3) :=
    .step r₂ (.beginOp rfl (by simp [o, begun, hlh, hout, LOGSIZE, MAXOPBLOCKS]) rfl)
  refine ⟨_, r₃, rfl, ?_, hlh, hheld, hwait, hlog.start.trans initlog_emptyDisk.1,
    hlog.size.trans initlog_emptyDisk.2, by simp [o, begun, hout]⟩
  intro j hj
  refine ⟨∅, ?_, by simp⟩
  obtain rfl | rfl | rfl : j = 0 ∨ j = 1 ∨ j = 2 := by omega
  all_goals rfl

theorem logWrite_new {s : St} {k : Nat} (hlen : s.lh.length < LOGSIZE) (hsize : (s.lh.length : Int) < s.size - 1)
    (hout : 1 ≤ s.outstanding) (hb : (s.buf k).blockno ∉ s.lh) :
    wp (logWrite k) (fun _ s' => SameLog { s with lh := s.lh ++ [(s.buf k).blockno] } s' ∧ s'.held = s.held ∧
      s'.waiting = s.waiting) (fun _ _ => False) s := by
  unfold logWrite bpin setBuf
  simp only [wp_bind, wp_get, wp_ite, wp_throw, wp_modify]
  refine ⟨fun hf => by omega, fun _ => ⟨fun hf => by omega, fun _ => ⟨fun _ => ?_, fun hi => ?_⟩⟩⟩
  · exact ⟨⟨rfl, rfl, rfl, rfl, rfl⟩, trivial, trivial⟩
  · exact absurd (idxOf_eq_length_iff.2 hb) hi

theorem Loading.succ (h : Loading n o) (hn : n < 30) : ∃ o, Loading (n + 1) o := by
  have hr := ops_ready committed_emptyDisk headN_emptyDisk h.run
  have hlen : o.st.lh.length = n := by simp [h.lh]
  have hj : n / 10 < 3 := by omega
  obtain ⟨B, hB, hcard⟩ := h.used (n / 10) hj
  have hruns : ∀ s : St, s.waiting = [] → Runs s (n / 10 + 1) := by
    intro s hs
    exact ⟨by simp only [NPROC]; omega, by simp [hs]⟩
  -- bread
  obtain ⟨k, s₁, e₁, g⟩ := (bread_room (p := n / 10 + 1) (b := 40 + n) hr.inv h.waiting (by simp [h.held])
    (.inr (by simpa [h.held, hlen, NBUF, MAXOPBLOCKS] using hn))).returns
  have w₁ : s₁.waiting = [] := g.waiting.trans h.waiting
  have h₁ : s₁.held = [(n / 10 + 1, k)] := by rw [g.held, h.held]
  have x₁ : exec (perform (.bread (n / 10 + 1) (40 + n))) o.st = (.ok (), s₁) := by
    have hp : wp (perform (.bread (n / 10 + 1) (40 + n))) (fun _ s => s = s₁) (fun _ _ => False) o.st := by
      simp only [perform, wp_bind, wp_pure]
      unfold wp
      rw [e₁]
    obtain ⟨_, s, hs, rfl⟩ := hp.returns
    exact hs
  have r₁ : Reach (Booted emptyDisk 1) OpStep { o with st := s₁ } :=
    .step h.run (.call (c := .bread (n / 10 + 1) (40 + n)) trivial ⟨hruns _ h.waiting, .inl x₁⟩)
  have lh₁ : s₁.lh = (List.range n).map (· + 40) := g.log.lh.trans h.lh
  have len₁ : s₁.lh.length = n := by simp [lh₁]
  -- log_write
  have hnew : (s₁.buf k).blockno ∉ s₁.lh := by
    rw [g.blockno, lh₁]
    simp only [mem_map, mem_range, not_exists, not_and]
    omega
  have hlog := logWrite_new (by simpa [len₁, LOGSIZE, MAXOPBLOCKS] using hn)
    (by rw [len₁, g.log.size, h.size]; omega) (by rw [g.log.outstanding, h.outstanding]; decide) hnew
  obtain ⟨_, s₂, e₂, log₂, held₂, wait₂⟩ := hlog.returns
  have hB₁ : (insert (s₁.buf k).blockno B).card ≤ n + 1 - 10 * (n / 10) :=
    (Finset.card_insert_le _ _).trans (by omega)
  have r₂ : Reach (Booted emptyDisk 1) OpStep
      { o with st := s₂, used := usedAfter { o with st := s₁ } (.logWrite (n / 10 + 1) k) } :=
    .step r₁ (.call (c := .logWrite (n / 10 + 1) k) ⟨B, hB, hB₁.trans (by simp only [MAXOPBLOCKS]; omega)⟩
      ⟨⟨hruns _ w₁, by rw [h₁]; simp⟩, .inl e₂⟩)
  -- brelse
  have hm₂ : (n / 10 + 1, k) ∈ s₂.held := by rw [held₂, h₁]; simp
  have ready₂ : Ready s₂ := ops_ready committed_emptyDisk headN_emptyDisk r₂
  obtain ⟨_, s₃, e₃, d₃⟩ := (brelse_spec ready₂.inv hm₂).returns
  have r₃ : Reach (Booted emptyDisk 1) OpStep
      { o with st := s₃, used := usedAfter { o with st := s₁ } (.logWrite (n / 10 + 1) k) } :=
    .step r₂ (.call (c := .brelse (n / 10 + 1) k) trivial ⟨⟨hruns _ (wait₂.trans w₁), hm₂⟩, .inl e₃⟩)
  refine ⟨_, r₃, h.committing, fun j hj => ?_, ?_, ?_, ?_, ?_, ?_, ?_⟩
  · by_cases hjn : j = n / 10
    · subst hjn
      exact ⟨_, by simp [usedAfter, hB], hB₁⟩
    · obtain ⟨B', hB', hcard'⟩ := h.used j hj
      exact ⟨B', by simp [usedAfter, hjn, hB'], by omega⟩
  · rw [d₃.log.lh, log₂.lh, lh₁, g.blockno, range_succ, map_append, Nat.add_comm 40 n]
    rfl
  · rw [d₃.held, held₂, h₁, erase_cons_head]
  · rw [d₃.waiting, wait₂, w₁]
  · exact d₃.log.start.trans (log₂.start.trans (g.log.start.trans h.start))
  · exact d₃.log.size.trans (log₂.size.trans (g.log.size.trans h.size))
  · exact d₃.log.outstanding.trans (log₂.outstanding.trans (g.log.outstanding.trans h.outstanding))

theorem loading (hn : n ≤ 30) : ∃ o, Loading n o := by
  induction n with
  | zero => exact loading_zero
  | succ n ih =>
    obtain ⟨o, ho⟩ := ih (by omega)
    exact ho.succ (by omega)

theorem Loading.committing_of_end (h : Loading n o) :
    Committing emptyDisk (ended (ended (ended o 1) 2) 3) := by
  obtain ⟨B₁, u₁, -⟩ := h.used 0 (by decide)
  obtain ⟨B₂, u₂, -⟩ := h.used 1 (by decide)
  obtain ⟨B₃, u₃, -⟩ := h.used 2 (by decide)
  have r₁ : Reach (Booted emptyDisk 1) OpStep (ended o 1) :=
    .step h.run (.endOp h.committing (by simp [u₁]))
  have r₂ : Reach (Booted emptyDisk 1) OpStep (ended (ended o 1) 2) :=
    .step r₁ (.endOp (by simp [ended, h.outstanding]) (by simp [ended, u₂]))
  have r₃ : Reach (Booted emptyDisk 1) OpStep (ended (ended (ended o 1) 2) 3) :=
    .step r₂ (.endOp (by simp [ended, h.outstanding]) (by simp [ended, u₃]))
  refine ⟨committed_emptyDisk, headN_emptyDisk, ⟨1, r₃⟩, by simp [ended, h.outstanding], ?_, ?_, h.held, h.waiting⟩
  · simp [ended, h.size, LOGSIZE, MAXOPBLOCKS]
  · intro b hb
    have hb : b ∈ o.st.lh := hb
    rw [h.lh] at hb
    obtain ⟨i, -, rfl⟩ := mem_map.1 hb
    simp only [ended, h.start, h.size]
    omega

theorem exists_committing (hn : n ≤ 30) : ∃ o, Committing emptyDisk o ∧ o.st.lh.length = n := by
  obtain ⟨o, ho⟩ := loading hn
  refine ⟨_, ho.committing_of_end, ?_⟩
  simp [ended, ho.lh]

/-- A transaction of 29 blocks commits. -/
theorem commit_returns_most :
    ∃ o, Committing emptyDisk o ∧ o.st.lh.length = 29 ∧ ∃ s, exec (commit 1) o.st = (.ok (), s) := by
  obtain ⟨o, ho, hn⟩ := exists_committing (n := 29) (by decide)
  exact ⟨o, ho, hn, (commit_returns_iff ho 1).2 (by rw [hn]; decide)⟩

/-- Three operations log ten blocks each, and their commit panics. -/
theorem commit_panics :
    ∃ o, Committing emptyDisk o ∧ o.st.lh.length = LOGSIZE ∧ exec (commit 1) o.st = (.error .noBuffers, o.st) := by
  obtain ⟨o, ho, hn⟩ := exists_committing (n := 30) (by decide)
  exact ⟨o, ho, hn, commit_noBuffers ho.ready (by rw [hn]; decide) ho.log_notMem⟩

end Xv6.Bio
