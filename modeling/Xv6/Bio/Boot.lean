import Xv6.Bio.Refs
/-!
# Reference counts after a boot

One specification per function of `kernel/log.c`, then whole runs. `commit`
enters `install_trans` with every block of `log.lh` pinned, and each round drops
one pin. Recovery enters it with nothing pinned, so the same round takes a
buffer's count below 0 (`recovery_wraps`): the counts are right after a boot
exactly if there was nothing to recover.
-/

namespace Xv6.Bio

open Bytes Hoare Links Log Run Function List

/-- A call has returned; `hd` are now the holders. -/
structure Done (S : List Nat) (s : St) (hd : List (Nat × Nat)) (s' : St) : Prop where
  inv : Inv S s'
  log : SameLog s s'
  held : s'.held = hd
  waiting : s'.waiting = s.waiting

/-- A call has stopped with every count still right. -/
def Fine (_ : Stop) (s' : St) : Prop := s'.wrapped = false

theorem SameRefs.dev {s s' : St} (h : SameRefs s s') (k : Nat) : (s'.buf k).dev = (s.buf k).dev := by
  obtain ⟨v, d, he⟩ := h.buf k
  rw [he]

theorem SameRefs.blockno {s s' : St} (h : SameRefs s s') (k : Nat) : (s'.buf k).blockno = (s.buf k).blockno := by
  obtain ⟨v, d, he⟩ := h.buf k
  rw [he]

section Bio
variable {S : List Nat} {s : St} {p k : Nat}

theorem setData_spec (f : Block → Block) :
    wp (setBuf k fun b => { b with data := f b.data }) (fun _ s' => SameRefs s s' ∧ SameLog s s')
      (fun _ _ => False) s := by
  unfold setBuf
  rw [wp_modify]
  refine ⟨⟨fun j => ?_, rfl, rfl, rfl⟩, ⟨rfl, rfl, rfl, rfl, rfl⟩⟩
  by_cases hj : j = k
  · exact ⟨(s.buf j).valid, f (s.buf j).data, by simp [hj]⟩
  · exact ⟨(s.buf j).valid, (s.buf j).data, by simp [hj]⟩

theorem copyData_spec (dst src : Nat) :
    wp (copyData dst src) (fun _ s' => SameRefs s s' ∧ SameLog s s') (fun _ _ => False) s := by
  unfold copyData
  simp only [wp_bind, wp_get]
  exact setData_spec fun _ => (s.buf src).data

theorem bwrite_spec (h : Inv S s) (hm : (p, k) ∈ s.held) :
    wp (bwrite p k) (fun _ s' => SameRefs s s' ∧ SameLog s s') (fun _ _ => False) s := by
  unfold bwrite
  simp only [wp_bind, wp_get, wp_ite, wp_throw, wp_set, ((h.locks p k).1 hm).2]
  exact ⟨fun hn => hn rfl, fun _ => ⟨⟨fun j => ⟨_, _, rfl⟩, rfl, rfl, rfl⟩, ⟨rfl, rfl, rfl, rfl, rfl⟩⟩⟩

theorem not_wraps {r : UInt32} {w : Bool} (h : r ≠ 0) : (w || r == 0) = w := by simp [h]

/-- Buffer `k` unlocked and counted down. -/
def unused (b : Buf) : Buf := { b with lock := none, refcnt := b.refcnt - 1 }

/-- The state in which `brelse` returns. -/
def released (s : St) (p k : Nat) : St :=
  let c := Function.update s.buf k (unused (s.buf k))
  { s with
    buf := if (s.buf k).refcnt - 1 = 0 then insertFront (unlink c k) k else c
    held := s.held.erase (p, k)
    wrapped := s.wrapped || (s.buf k).refcnt == 0 }

theorem wp_brelse {Q : Unit → St → Prop} {E : Stop → St → Prop} :
    wp (brelse p k) Q E s ↔
      ((s.buf k).lock ≠ some p → E .brelse s) ∧ ((s.buf k).lock = some p → Q () (released s p k)) := by
  unfold brelse setBuf decRef released unused
  simp only [wp_bind, wp_get, wp_ite, wp_throw, wp_modify, update_self, update_idem, ne_eq,
    Decidable.not_not]
  refine and_congr_right fun _ => imp_congr_right fun _ => ?_
  split <;> exact Iff.rfl

theorem released_buf (s : St) (p k : Nat) :
    SameButLinks (update s.buf k (unused (s.buf k))) (released s p k).buf := by
  unfold released
  dsimp only
  split
  · exact (same_unlink _ k).trans (same_insertFront _ k)
  · exact fun _ => ⟨_, _, rfl⟩

theorem brelse_spec (h : Inv S s) (hm : (p, k) ∈ s.held) :
    wp (brelse p k) (fun _ s' => Done S s (s.held.erase (p, k)) s') (fun _ _ => False) s := by
  obtain ⟨hk, hl⟩ := (h.locks p k).1 hm
  have h0 : (s.buf k).refcnt ≠ 0 := h.refcnt_ne_zero hk (.inl (by rw [h.held_some hm]; decide))
  have hr := h.release hm
  refine wp_brelse.2 ⟨fun hn => hn hl, fun _ => ⟨?_, ⟨rfl, rfl, rfl, rfl, rfl⟩, rfl, rfl⟩⟩
  unfold released
  rw [not_wraps h0]
  dsimp only
  split
  · exact hr.relink hk
  · exact hr

theorem bunpin_spec {b : Nat} (h : Inv (b :: S) s) (hk : k < NBUF) (hdev : (s.buf k).dev = ROOTDEV)
    (hb : (s.buf k).blockno = b) : wp (bunpin k) (fun _ s' => Done S s s.held s') (fun _ _ => False) s := by
  have h0 : (s.buf k).refcnt ≠ 0 := h.refcnt_ne_zero hk (.inr (.inr ⟨hdev, by simp [hb]⟩))
  unfold bunpin decRef
  rw [wp_modify, not_wraps h0]
  exact ⟨h.bunpin hk hdev hb, ⟨rfl, rfl, rfl, rfl, rfl⟩, rfl, rfl⟩

theorem wake_spec (h : Inv S s) (hm : (p, k) ∈ s.waiting) (hl : (s.buf k).lock = none) :
    wp (wake p k) (fun _ s' => Inv S s' ∧ SameLog s s') (fun _ _ => False) s := by
  obtain ⟨-, hk⟩ := h.sleeps _ hm
  have he := refs_erase hm
  have hpos : refs s.waiting k ≠ 0 := by rw [he k, if_pos rfl]; omega
  have hd := h.dev k hk (h.refcnt_ne_zero hk (.inr (.inl hpos)))
  unfold wake acquiresleep setBuf
  simp only [wp_bind, wp_get, wp_ite, wp_throw, wp_modify, wp_set, hl, Option.isSome_none]
  refine ⟨fun hf => absurd hf (by simp), fun _ => fill_spec fun s' f => ?_⟩
  have ht := h.take (p := p) (b := (s.buf k).blockno) (w := s.waiting.erase (p, k))
    (B := { s.buf k with lock := some p }) hk hl hd rfl rfl rfl rfl
    (fun j hj hdj hbj => h.uniq j hj k hk hdj hd hbj) (fun _ => rfl) erase_sublist
    (fun j hj => by rw [he j, if_neg (fun e => hj e.symm), Nat.add_zero]) (by
      rw [h.count k hk, h.held_none hl, he k, if_pos rfl]
      simp only [pin, Pinned, hd, true_and]
      omega)
  exact ⟨ht.congr f.same, ⟨f.log.start, f.log.size, f.log.dev, f.log.outstanding, f.log.lh⟩⟩

end Bio

/-! ## log.c -/

section Log
variable {S : List Nat} {s : St} {p : Nat}

theorem erase_two {x y : Nat × Nat} (l : List (Nat × Nat)) (h : x ≠ y) : ((y :: x :: l).erase x).erase y = l := by
  rw [erase_cons_tail (by simpa using h.symm), erase_cons_head, erase_cons_head]

theorem Got.ne {s₁ s₂ : St} {a b l d : Nat} (g₁ : Got S s p a l s₁) (g₂ : Got S s₁ p b d s₂) : (p, l) ≠ (p, d) := by
  have hn := g₂.inv.once
  rw [g₂.held, g₁.held] at hn
  simp only [map_cons, nodup_cons, mem_cons, not_or] at hn
  intro he
  exact hn.1.1 (Prod.mk.inj he).2.symm

/-- A read of block `b` by `p` returns, or stops with `E`. -/
def Reads (E : Stop → St → Prop) (S : List Nat) (p : Nat) (s : St) (b : Nat) : Prop :=
  wp (bread p ROOTDEV b) (Got S s p b) E s

/-- So do the reads of `a` and, with its buffer held, of `b`. -/
def ReadsTwo (E : Stop → St → Prop) (S : List Nat) (p : Nat) (s : St) (a b : Nat) : Prop :=
  Reads E S p s a ∧ ∀ k s', Got S s p a k s' → Reads E S p s' b

theorem readsTwo_fine (h : Inv S s) (a b : Nat) : ReadsTwo Fine S p s a b :=
  ⟨(bread_spec h).mono (fun _ _ g => g) fun _ _ st => st.unwrapped,
    fun _ _ g => (bread_spec g.inv).mono (fun _ _ g => g) fun _ _ st => st.unwrapped⟩

section Stops
variable {E : Stop → St → Prop}

/-- The rounds of `install_trans` take the pins off, one each, as long as their reads return. -/
theorem installFrom_of_reads : ∀ (S : List Nat) (tail : Nat) {s : St}, Inv S s → s.dev = ROOTDEV →
    (∀ i b t, S[i]? = some b → Done (S.drop i) s s.held t → ReadsTwo E (S.drop i) p t (s.start + (tail + i) + 1) b) →
    wp (installFrom p tail S) (fun _ s' => Done [] s s.held s') E s
  | [], _, s, h, _, _ => (wp_pure _).2 ⟨h, .refl s, rfl, rfl⟩
  | b :: S, tail, s, h, hdev, hreads => by
    obtain ⟨hfirst, hsecond⟩ := hreads 0 b s rfl ⟨h, .refl s, rfl, rfl⟩
    unfold installFrom
    simp only [wp_bind, wp_get, hdev]
    refine hfirst.imp fun l s₁ g₁ => ?_
    refine (hsecond l s₁ g₁).imp fun d s₂ g₂ => ?_
    refine (copyData_spec d l).total fun _ s₃ c₃ => ?_
    have hd₃ : (p, d) ∈ s₃.held := by rw [c₃.1.held, g₂.held]; simp
    have i₃ := g₂.inv.congr c₃.1
    refine (bwrite_spec i₃ hd₃).total fun _ s₄ c₄ => ?_
    have i₄ := i₃.congr c₄.1
    have dev₄ : (s₄.buf d).dev = ROOTDEV := by rw [c₄.1.dev, c₃.1.dev, g₂.dev]
    have block₄ : (s₄.buf d).blockno = b := by rw [c₄.1.blockno, c₃.1.blockno, g₂.blockno]
    refine (bunpin_spec i₄ g₂.lt dev₄ block₄).total fun _ s₅ r₅ => ?_
    have hh : s₅.held = (p, d) :: (p, l) :: s.held := by
      rw [r₅.held, c₄.1.held, c₃.1.held, g₂.held, g₁.held]
    have hne := g₁.ne g₂
    refine (brelse_spec r₅.inv (by rw [hh]; simp)).total fun _ s₆ r₆ => ?_
    have h₆ : (p, d) ∈ s₆.held := by
      rw [r₆.held, hh, erase_cons_tail (by simpa using hne.symm)]
      simp
    refine (brelse_spec r₆.inv h₆).total fun _ s₇ r₇ => ?_
    have hlog : SameLog s s₇ :=
      g₁.log.trans (g₂.log.trans (c₃.2.trans (c₄.2.trans (r₅.log.trans (r₆.log.trans r₇.log)))))
    have hheld : s₇.held = s.held := by rw [r₇.held, r₆.held, hh, erase_two _ hne]
    have hwait : s₇.waiting = s.waiting := by
      rw [r₇.waiting, r₆.waiting, r₅.waiting, c₄.1.waiting, c₃.1.waiting, g₂.waiting, g₁.waiting]
    refine (installFrom_of_reads S (tail + 1) r₇.inv (by rw [hlog.dev, hdev]) fun i b' t hb' ht => ?_).imp
      fun _ s₈ r₈ => ⟨r₈.inv, hlog.trans r₈.log, r₈.held.trans hheld, r₈.waiting.trans hwait⟩
    have hnext := hreads (i + 1) b' t hb' ⟨ht.inv, hlog.trans ht.log, ht.held.trans hheld, ht.waiting.trans hwait⟩
    rwa [show tail + (i + 1) = tail + 1 + i by omega, ← hlog.start] at hnext

theorem writeLogFrom_of_reads : ∀ (L : List Nat) (tail : Nat) {s : St}, Inv S s → s.dev = ROOTDEV →
    (∀ i b t, L[i]? = some b → Done S s s.held t → ReadsTwo E S p t (s.start + (tail + i) + 1) b) →
    wp (writeLogFrom p tail L) (fun _ s' => Done S s s.held s') E s
  | [], _, s, h, _, _ => (wp_pure _).2 ⟨h, .refl s, rfl, rfl⟩
  | b :: L, tail, s, h, hdev, hreads => by
    obtain ⟨hfirst, hsecond⟩ := hreads 0 b s rfl ⟨h, .refl s, rfl, rfl⟩
    unfold writeLogFrom
    simp only [wp_bind, wp_get, hdev]
    refine hfirst.imp fun d s₁ g₁ => ?_
    refine (hsecond d s₁ g₁).imp fun r s₂ g₂ => ?_
    refine (copyData_spec d r).total fun _ s₃ c₃ => ?_
    have i₃ := g₂.inv.congr c₃.1
    refine (bwrite_spec i₃ (by rw [c₃.1.held, g₂.held, g₁.held]; simp)).total fun _ s₄ c₄ => ?_
    have hh : s₄.held = (p, r) :: (p, d) :: s.held := by rw [c₄.1.held, c₃.1.held, g₂.held, g₁.held]
    refine (brelse_spec (i₃.congr c₄.1) (by rw [hh]; simp)).total fun _ s₅ r₅ => ?_
    have h₅ : s₅.held = (p, d) :: s.held := by rw [r₅.held, hh, erase_cons_head]
    refine (brelse_spec r₅.inv (by rw [h₅]; simp)).total fun _ s₆ r₆ => ?_
    have hlog : SameLog s s₆ := g₁.log.trans (g₂.log.trans (c₃.2.trans (c₄.2.trans (r₅.log.trans r₆.log))))
    have hheld : s₆.held = s.held := by rw [r₆.held, h₅, erase_cons_head]
    have hwait : s₆.waiting = s.waiting := by
      rw [r₆.waiting, r₅.waiting, c₄.1.waiting, c₃.1.waiting, g₂.waiting, g₁.waiting]
    refine (writeLogFrom_of_reads L (tail + 1) r₆.inv (by rw [hlog.dev, hdev]) fun i b' t hb' ht => ?_).imp
      fun _ s₇ r₇ => ⟨r₇.inv, hlog.trans r₇.log, r₇.held.trans hheld, r₇.waiting.trans hwait⟩
    have hnext := hreads (i + 1) b' t hb' ⟨ht.inv, hlog.trans ht.log, ht.held.trans hheld, ht.waiting.trans hwait⟩
    rwa [show tail + (i + 1) = tail + 1 + i by omega, ← hlog.start] at hnext

theorem writeHead_of_reads (hdev : s.dev = ROOTDEV) (hread : Reads E S p s s.start) :
    wp (writeHead p) (fun _ s' => Done S s s.held s') E s := by
  unfold writeHead
  simp only [wp_bind, wp_get, hdev]
  refine hread.imp fun k s₁ g₁ => ?_
  refine (setData_spec fun d => putHead d (s.lh.map UInt32.ofNat)).total fun _ s₂ c₂ => ?_
  have i₂ := g₁.inv.congr c₂.1
  have h₂ : (p, k) ∈ s₂.held := by rw [c₂.1.held, g₁.held]; simp
  refine (bwrite_spec i₂ h₂).total fun _ s₃ c₃ => ?_
  have h₃ : s₃.held = (p, k) :: s.held := by rw [c₃.1.held, c₂.1.held, g₁.held]
  refine (brelse_spec (i₂.congr c₃.1) (by rw [h₃]; simp)).total fun _ s₄ r₄ => ?_
  exact ⟨r₄.inv, g₁.log.trans (c₂.2.trans (c₃.2.trans r₄.log)), by rw [r₄.held, h₃, erase_cons_head],
    by rw [r₄.waiting, c₃.1.waiting, c₂.1.waiting, g₁.waiting]⟩

end Stops

theorem installTrans_spec (h : Inv s.lh s) (hdev : s.dev = ROOTDEV) :
    wp (installTrans p) (fun _ s' => Done [] s s.held s') Fine s := by
  unfold installTrans
  simp only [wp_bind, wp_get]
  exact installFrom_of_reads s.lh 0 h hdev fun _ b _ _ ht => readsTwo_fine ht.inv _ b

theorem writeLogFrom_spec (L : List Nat) (tail : Nat) (h : Inv S s) (hdev : s.dev = ROOTDEV) :
    wp (writeLogFrom p tail L) (fun _ s' => Done S s s.held s') Fine s :=
  writeLogFrom_of_reads L tail h hdev fun _ b _ _ ht => readsTwo_fine ht.inv _ b

theorem writeHead_spec (h : Inv S s) (hdev : s.dev = ROOTDEV) :
    wp (writeHead p) (fun _ s' => Done S s s.held s') (Stuck S s p s.start) s :=
  writeHead_of_reads hdev (bread_spec h)

theorem Inv.setLog (h : Inv S s) {lh : List Nat} {start : Nat} {size outstanding : Int} {dev : Nat} :
    Inv S { s with lh, start, size, outstanding, dev } :=
  ⟨h.linked, h.uniq, h.dev, h.locks, h.once, h.sleeps, h.sleepers, h.cached, h.nodup, h.count, h.unwrapped⟩

/-- The invariant between calls. -/
structure Ready (s : St) : Prop where
  inv : Inv s.lh s
  dev : s.dev = ROOTDEV

theorem commit_spec (h : Ready s) : wp (commit p) (fun _ s' => Ready s') Fine s := by
  unfold commit writeLog
  simp only [wp_bind, wp_get, wp_ite, wp_pure]
  refine ⟨fun _ => ?_, fun _ => h⟩
  refine (writeLogFrom_spec s.lh 0 h.inv h.dev).imp fun _ s₁ r₁ => ?_
  have d₁ : s₁.dev = ROOTDEV := r₁.log.dev.trans h.dev
  refine (writeHead_spec r₁.inv d₁).mono (fun _ s₂ r₂ => ?_) fun _ _ st => st.unwrapped
  have d₂ : s₂.dev = ROOTDEV := r₂.log.dev.trans d₁
  have l₂ : s₂.lh = s.lh := r₂.log.lh.trans r₁.log.lh
  refine (installTrans_spec (l₂ ▸ r₂.inv) d₂).imp fun _ s₃ r₃ => ?_
  simp only [wp_modify]
  have d₃ : s₃.dev = ROOTDEV := r₃.log.dev.trans d₂
  have i₃ : Inv [] { s₃ with lh := [] } := r₃.inv.setLog
  refine (writeHead_spec i₃ d₃).mono (fun _ s₄ r₄ => ?_) fun _ _ st => st.unwrapped
  exact ⟨by rw [show s₄.lh = [] from r₄.log.lh]; exact r₄.inv, r₄.log.dev.trans d₃⟩

theorem set_idxOf (l : List Nat) (b : Nat) : l.set (l.idxOf b) b = l := by
  refine ext_getElem (by simp) fun i h1 h2 => ?_
  rw [getElem_set]
  split
  · next he => subst he; simp
  · rfl

theorem logWrite_spec {k : Nat} (h : Ready s) (hm : (p, k) ∈ s.held) :
    wp (logWrite k) (fun _ s' => Ready s') Fine s := by
  obtain ⟨hk, -⟩ := (h.inv.locks p k).1 hm
  have hd := h.inv.dev k hk (h.inv.refcnt_ne_zero hk (.inl (by rw [h.inv.held_some hm]; decide)))
  unfold logWrite bpin setBuf
  simp only [wp_bind, wp_get, wp_ite, wp_throw, wp_modify]
  refine ⟨fun _ => h.inv.unwrapped, fun _ => ⟨fun _ => h.inv.unwrapped, fun _ => ⟨fun hi => ?_, fun _ => ?_⟩⟩⟩
  · have hb : (s.buf k).blockno ∉ s.lh := fun hb => absurd hi (Nat.ne_of_lt (idxOf_lt_length_iff.2 hb))
    exact ⟨(h.inv.bpin hk hd hb).setLog, h.dev⟩
  · rw [set_idxOf]
    exact h

end Log

/-! ## Runs -/

section Runs
variable {s s' : St}

/-- A call that stops has wrapped nothing; a `bread` that goes to sleep leaves the counts right. -/
theorem perform_spec (h : Ready s) {c : Call} (ha : Allowed s c) :
    wp (perform c) (fun _ s' => Ready s')
      (fun e s' => s'.wrapped = false ∧ ((∃ p b, c = .bread p b) → e = .sleeps → Ready s')) s := by
  cases c with
  | bread p b =>
    simp only [perform, wp_bind, wp_pure]
    refine (bread_spec h.inv).mono (fun k s₁ g => ?_) fun e s₁ st => ⟨st.unwrapped, fun _ he => ?_⟩
    · exact ⟨g.log.lh ▸ g.inv, g.log.dev.trans h.dev⟩
    · rcases st.why with ⟨hn, -⟩ | ⟨-, hinv, -⟩
      · rw [he] at hn; cases hn
      · exact ⟨st.log.lh ▸ hinv ha, st.log.dev.trans h.dev⟩
  | wake p k =>
    exact (wake_spec h.inv ha.1 ha.2).total fun _ s₁ r => ⟨r.2.lh ▸ r.1, r.2.dev.trans h.dev⟩
  | write p k data =>
    exact (setData_spec fun _ => data).total fun _ s₁ c => ⟨c.2.lh ▸ h.inv.congr c.1, c.2.dev.trans h.dev⟩
  | bwrite p k =>
    exact (bwrite_spec h.inv ha.2).total fun _ s₁ c => ⟨c.2.lh ▸ h.inv.congr c.1, c.2.dev.trans h.dev⟩
  | brelse p k =>
    exact (brelse_spec h.inv ha.2).total fun _ s₁ r => ⟨r.log.lh ▸ r.inv, r.log.dev.trans h.dev⟩
  | logWrite p k =>
    refine (logWrite_spec h ha.2).mono (fun _ _ r => r) fun _ _ hf => ⟨hf, ?_⟩
    rintro ⟨_, _, hc⟩
    cases hc
  | commit p =>
    refine (commit_spec h).mono (fun _ _ r => r) fun _ _ hf => ⟨hf, ?_⟩
    rintro ⟨_, _, hc⟩
    cases hc
  | outstanding n => exact (wp_modify _).2 ⟨h.inv.setLog, h.dev⟩

theorem step_ready (h : Ready s) {c : Call} (hs : Step s c s') : Ready s' := by
  obtain ⟨ha, hs⟩ := hs
  rcases hs with hs | ⟨hc, hs⟩
  · exact (perform_spec h ha).ok hs
  · exact ((perform_spec h ha).error hs).2 hc rfl

theorem reach_ready {init : St → Prop} (h0 : ∀ s, init s → Ready s) (h : Reach init Step s) : Ready s :=
  h.inv Ready h0 fun _ _ _ hr hs => step_ready hr hs

end Runs

/-! ## Boot -/

theorem ring_foldl : ∀ (l : List Nat) {l₀ : List Nat} {c : Nat → Buf},
    LinkRing (fun k => (c k).next) (fun k => (c k).prev) NBUF l₀ → l.Nodup → (∀ x ∈ l, x ∉ NBUF :: l₀) →
      LinkRing (fun k => (l.foldl insertFront c k).next) (fun k => (l.foldl insertFront c k).prev) NBUF
        (l.reverse ++ l₀)
  | [], _, _, hr, _, _ => hr
  | x :: l, l₀, c, hr, hn, hx => by
    obtain ⟨hxl, hn⟩ := nodup_cons.1 hn
    have hx0 := hx x (by simp)
    have hne : x ≠ NBUF := fun he => hx0 (by simp [he])
    rw [foldl_cons, reverse_cons, append_assoc, singleton_append]
    refine ring_foldl l ?_ hn fun y hy hm => ?_
    · rw [(insertFront_links c hne).1, (insertFront_links c hne).2]
      exact hr.insert hx0
    · rcases mem_cons.1 hm with rfl | hm
      · exact hx _ (mem_cons_of_mem _ hy) (by simp)
      rcases mem_cons.1 hm with rfl | hm
      · exact hxl hy
      · exact hx y (mem_cons_of_mem _ hy) (mem_cons_of_mem _ hm)

theorem ring_binit :
    LinkRing (fun k => (binit k).next) (fun k => (binit k).prev) NBUF (List.range NBUF).reverse := by
  rw [← append_nil (List.range NBUF).reverse]
  refine ring_foldl _ ⟨?_, ?_, by simp⟩ nodup_range fun x hx => ?_
  · simp [Trail]
  · simp [Trail]
  · have := mem_range.1 hx
    simp only [mem_singleton]
    omega

theorem linked_binit : Linked binit := ⟨_, ring_binit, reverse_perm _⟩

theorem same_foldl : ∀ (l : List Nat) (c : Nat → Buf), SameButLinks c (l.foldl insertFront c)
  | [], _ => fun _ => ⟨_, _, rfl⟩
  | x :: l, c => (same_insertFront c x).trans (same_foldl l _)

theorem binit_zero (k : Nat) :
    (binit k).dev = 0 ∧ (binit k).lock = none ∧ (binit k).refcnt = 0 ∧ (binit k).valid = false := by
  obtain ⟨p, n, he⟩ := same_foldl (List.range NBUF) _ k
  unfold binit
  rw [he]
  by_cases hk : k = NBUF <;> simp [hk]

/-- Every cached block reads as it is on the disk. -/
def Clean (s : St) : Prop :=
  ∀ k < NBUF, (s.buf k).dev = ROOTDEV → (s.buf k).valid = true → (s.buf k).data = s.disk (s.buf k).blockno

/-- Nobody uses the cache. -/
structure Idle (s : St) : Prop where
  inv : Inv [] s
  held : s.held = []
  waiting : s.waiting = []
  clean : Clean s

theorem idle_boot (disk : Nat → Block) : Idle (boot disk) := by
  refine ⟨⟨linked_binit, ?_, ?_, ?_, by simp [boot], by simp [boot], by simp [boot], by simp, nodup_nil, ?_, rfl⟩,
    rfl, rfl, ?_⟩
  · intro j _ k _ hd
    rw [show (boot disk).buf j = binit j from rfl, (binit_zero j).1] at hd
    cases hd
  · intro k _ h
    exact absurd (binit_zero k).2.2.1 h
  · intro p k
    simp [boot, (binit_zero k).2.1]
  · intro k _
    simp [boot, (binit_zero k).2.2.1, pin, Pinned]
  · intro k _ hd
    rw [show (boot disk).buf k = binit k from rfl, (binit_zero k).1] at hd
    cases hd

section Recovery
variable {s : St} {p b k : Nat}

theorem Got.contents {S : List Nat} {s' : St} (g : Got S s p b k s') (hc : Clean s) :
    Clean s' ∧ (s'.buf k).data = s.disk b := by
  have hd : (s'.buf k).data = s.disk b := by
    rcases g.data with hd | ⟨h1, h2, h3, hd⟩
    · exact hd
    · rw [hd, hc k g.lt h1 h3, h2]
  refine ⟨fun j hj hdj hv => ?_, hd⟩
  rw [g.disk]
  by_cases hjk : j = k
  · subst hjk
    rw [hd, g.blockno]
  · rw [g.others j hjk] at hdj hv ⊢
    exact hc j hj hdj hv

theorem bread_returns (h : Inv [] s) (hw : s.waiting = []) (hlen : s.held.length ≤ 1)
    (hb : ∀ q k, (q, k) ∈ s.held → (s.buf k).blockno ≠ b) :
    wp (bread p ROOTDEV b) (Got [] s p b) (fun _ _ => False) s :=
  bread_room h hw hb (.inr (by simp only [length_nil, NBUF, MAXOPBLOCKS]; omega))

theorem Idle.bread (h : Idle s) : wp (bread p ROOTDEV b) (Got [] s p b) (fun _ _ => False) s :=
  bread_returns h.inv h.waiting (by simp [h.held]) (by simp [h.held])

theorem clean_released (hc : Clean s) (p k : Nat) : Clean (released s p k) := by
  intro j hj
  obtain ⟨q, n, he⟩ := released_buf s p k j
  rw [he]
  dsimp only [released]
  by_cases hjk : j = k
  · subst hjk
    rw [update_self]
    exact hc j hj
  · rw [update_of_ne hjk]
    exact hc j hj

theorem Idle.release {s' : St} (h : Idle s) (g : Got [] s p b k s') :
    wp (brelse p k) (fun _ s'' => Idle s'' ∧ SameLog s s'' ∧ s''.disk = s.disk) (fun _ _ => False) s' := by
  have hm : (p, k) ∈ s'.held := by rw [g.held]; simp
  have hl := ((g.inv.locks p k).1 hm).2
  obtain ⟨hf, hd⟩ := wp_brelse.1 (brelse_spec g.inv hm)
  have hd := hd hl
  refine wp_brelse.2 ⟨fun hn => hn hl, fun _ => ⟨⟨hd.inv, ?_, ?_, clean_released (g.contents h.clean).1 p k⟩,
    g.log.trans hd.log, g.disk⟩⟩
  · rw [hd.held, g.held, h.held, erase_cons_head]
  · rw [hd.waiting, g.waiting, h.waiting]

theorem Idle.setLog (h : Idle s) {lh : List Nat} {start : Nat} {size outstanding : Int} {dev : Nat} :
    Idle { s with lh, start, size, outstanding, dev } :=
  ⟨h.inv.setLog, h.held, h.waiting, h.clean⟩

theorem readHead_spec (h : Idle s) (hdev : s.dev = ROOTDEV) :
    wp (readHead p) (fun _ s' => Idle s' ∧ SameLog { s with lh := (headBlocks (s.disk s.start)).map UInt32.toNat } s')
      (fun _ _ => False) s := by
  unfold readHead
  simp only [wp_bind, wp_get, wp_modify, hdev]
  refine h.bread.imp fun k s₁ g => ?_
  have hr := h.release g
  rw [wp_brelse] at hr ⊢
  refine ⟨hr.1, fun hl => ?_⟩
  obtain ⟨hi, hlog, -⟩ := hr.2 hl
  refine ⟨hi.setLog, hlog.start, hlog.size, hlog.dev.trans hdev, hlog.outstanding, ?_⟩
  dsimp only [released]
  rw [(g.contents h.clean).2]

theorem recover_empty (h : Idle s) (hdev : s.dev = ROOTDEV) (hn : headN (s.disk s.start) = 0) :
    wp (recoverFromLog p) (fun _ s' => Inv [] s' ∧ s'.held = [] ∧ s'.waiting = [] ∧ SameLog { s with lh := [] } s')
      (fun _ _ => False) s := by
  unfold recoverFromLog installTrans
  simp only [wp_bind, wp_get, wp_modify]
  refine (readHead_spec h hdev).imp fun _ s₁ r => ?_
  obtain ⟨i₁, log₁⟩ := r
  have d₁ : s₁.dev = ROOTDEV := log₁.dev.trans hdev
  have hnil : s₁.lh = [] := by rw [log₁.lh, headBlocks, hn]; rfl
  rw [hnil]
  unfold installFrom
  rw [wp_pure]
  have i₂ : Idle { s₁ with lh := [] } := i₁.setLog
  have d₂ : St.dev { s₁ with lh := [] } = ROOTDEV := d₁
  refine (writeHead_of_reads d₂ i₂.bread).imp fun _ s₃ r₃ => ?_
  exact ⟨r₃.inv, r₃.held.trans i₁.held, r₃.waiting.trans i₁.waiting, r₃.log.start.trans log₁.start,
    r₃.log.size.trans log₁.size, r₃.log.dev.trans log₁.dev, r₃.log.outstanding.trans log₁.outstanding, r₃.log.lh⟩

/-! ### Wrapping -/

/-- Once a count has wrapped, it has. -/
def Wrapped {α : Type} (_ : α) (s : St) : Prop := s.wrapped = true

section
variable (h : s.wrapped = true)
include h

theorem bread_wrapped {dev : Nat} : wp (bread p dev b) Wrapped Wrapped s := by
  have ha : ∀ (s : St) (k : Nat), s.wrapped = true → wp (do acquiresleep p k; return k) Wrapped Wrapped s := by
    intro s k h
    unfold acquiresleep setBuf
    simp only [wp_bind, wp_get, wp_ite, wp_set, wp_throw, wp_modify, wp_pure]
    exact ⟨fun _ => h, fun _ => h⟩
  have hg : wp (bget p dev b) Wrapped Wrapped s := by
    unfold bget
    simp only [wp_bind, wp_get]
    split
    · exact (wp_throw _).2 h
    · rw [wp_bind, setBuf, wp_modify]
      exact ha _ _ h
    · split
      · exact (wp_throw _).2 h
      · rw [wp_bind, setBuf, wp_modify]
        exact ha _ _ h
      · exact (wp_throw _).2 h
  unfold bread
  refine hg.seq fun k s₁ h₁ => ?_
  rw [wp_bind]
  exact fill_spec fun s₂ f => (wp_pure _).2 (f.same.wrapped.trans h₁)

theorem brelse_wrapped : wp (brelse p k) Wrapped Wrapped s :=
  wp_brelse.2 ⟨fun _ => h, fun _ => by simp [Wrapped, released, h]⟩

theorem copyData_wrapped {dst src : Nat} : wp (copyData dst src) Wrapped Wrapped s :=
  (copyData_spec dst src).total fun _ _ c => c.1.wrapped.trans h

theorem bwrite_wrapped : wp (bwrite p k) Wrapped Wrapped s := by
  unfold bwrite
  simp only [wp_bind, wp_get, wp_ite, wp_throw, wp_set]
  exact ⟨fun _ => h, fun _ => h⟩

theorem bunpin_wrapped : wp (bunpin k) Wrapped Wrapped s := by
  unfold bunpin decRef
  rw [wp_modify]
  simp [Wrapped, h]

end

theorem installFrom_wrapped : ∀ (L : List Nat) (tail : Nat) {s : St}, s.wrapped = true →
    wp (installFrom p tail L) Wrapped Wrapped s
  | [], _, _, h => (wp_pure _).2 h
  | b :: L, tail, s, h => by
    unfold installFrom
    simp only [wp_bind, wp_get]
    refine (bread_wrapped h).imp fun l s₁ h => ?_
    refine (bread_wrapped h).imp fun d s₂ h => ?_
    refine (copyData_wrapped h).imp fun _ s₃ h => ?_
    refine (bwrite_wrapped h).imp fun _ s₄ h => ?_
    refine (bunpin_wrapped h).imp fun _ s₅ h => ?_
    refine (brelse_wrapped h).imp fun _ s₆ h => ?_
    refine (brelse_wrapped h).imp fun _ s₇ h => ?_
    exact installFrom_wrapped L (tail + 1) h

theorem writeHead_wrapped (h : s.wrapped = true) : wp (writeHead p) Wrapped Wrapped s := by
  unfold writeHead
  simp only [wp_bind, wp_get]
  refine (bread_wrapped h).imp fun k s₁ h => ?_
  refine (setData_spec fun d => putHead d (s.lh.map UInt32.ofNat)).total fun _ s₂ c => ?_
  refine (bwrite_wrapped (c.1.wrapped.trans h)).imp fun _ s₃ h => ?_
  exact brelse_wrapped h

theorem install_wraps (h : Idle s) (hdev : s.dev = ROOTDEV) {L : List Nat} (hb : b ≠ s.start + 1) :
    wp (installFrom p 0 (b :: L)) Wrapped Wrapped s := by
  unfold installFrom
  simp only [wp_bind, wp_get, hdev, Nat.add_zero]
  refine h.bread.total fun l s₁ g₁ => ?_
  have hl₁ : s₁.held = [(p, l)] := by rw [g₁.held, h.held]
  have hread : wp (bread p ROOTDEV b) (Got [] s₁ p b) (fun _ _ => False) s₁ := by
    refine bread_returns g₁.inv (g₁.waiting.trans h.waiting) (by simp [hl₁]) fun q k hm he => ?_
    rw [hl₁, mem_singleton] at hm
    cases hm
    exact hb (he.symm.trans g₁.blockno)
  refine hread.total fun d s₂ g₂ => ?_
  refine (copyData_spec d l).total fun _ s₃ c₃ => ?_
  have i₃ := g₂.inv.congr c₃.1
  have h₃ : s₃.held = [(p, d), (p, l)] := by rw [c₃.1.held, g₂.held, hl₁]
  refine (bwrite_spec i₃ (by rw [h₃]; simp)).total fun _ s₄ c₄ => ?_
  have i₄ := i₃.congr c₄.1
  have h₄ : s₄.held = [(p, d), (p, l)] := c₄.1.held.trans h₃
  have hne : d ≠ l := fun he => g₁.ne g₂ (by rw [he])
  obtain ⟨-, hlockd⟩ := (i₄.locks p d).1 (by rw [h₄]; simp)
  obtain ⟨-, hlockl⟩ := (i₄.locks p l).1 (by rw [h₄]; simp)
  -- one holder, no sleeper, no pin
  have hone : (s₄.buf d).refcnt = 1 := by
    have hc := i₄.count d g₂.lt
    rw [i₄.held_some (p := p) (by rw [h₄]; simp), c₄.1.waiting, c₃.1.waiting, g₂.waiting, g₁.waiting, h.waiting,
      pin_zero (fun hp => by simp [Pinned] at hp)] at hc
    exact UInt32.toNat_inj.1 (by simpa using hc)
  unfold bunpin decRef
  rw [wp_modify, hone]
  refine wp_brelse.2 ⟨fun hn => absurd ?_ hn, fun _ => ?_⟩
  · simpa [update_of_ne hne.symm] using hlockl
  · -- buffer `d` is still locked, with count 0
    obtain ⟨q, n, he⟩ := released_buf { s₄ with
      buf := update s₄.buf d { s₄.buf d with refcnt := 1 - 1 }
      wrapped := s₄.wrapped || (1 : UInt32) == 0 } p l d
    dsimp only at he
    rw [update_of_ne hne, update_self] at he
    refine wp_brelse.2 ⟨fun hn => absurd ?_ hn, fun _ => installFrom_wrapped L _ ?_⟩
    · rw [he]; exact hlockd
    · rw [released, he]
      simp

theorem recover_wraps (h : Idle s) (hdev : s.dev = ROOTDEV) {L : List UInt32} {x : UInt32}
    (hh : headBlocks (s.disk s.start) = x :: L) (hx : x.toNat ≠ s.start + 1) :
    wp (recoverFromLog p) Wrapped Wrapped s := by
  unfold recoverFromLog installTrans
  simp only [wp_bind, wp_get, wp_modify]
  refine (readHead_spec h hdev).total fun _ s₁ r => ?_
  obtain ⟨i₁, log₁⟩ := r
  rw [log₁.lh, hh, map_cons]
  refine (install_wraps i₁ (log₁.dev.trans hdev) (by rw [log₁.start]; exact hx)).imp fun _ s₂ h₂ => ?_
  exact writeHead_wrapped h₂

end Recovery

/-! ## The counts after a boot -/

/-- `sb.logstart`, on a disk -/
def logstart (disk : Nat → Block) : Nat := le32 (disk 1) 20

def nlog (disk : Nat → Block) : Nat := le32 (disk 1) 16

/-- A file system whose log holds a committed transaction: `n` distinct blocks outside the log, `n` from 0 to
`LOGSIZE`. -/
structure Committed (disk : Nat → Block) : Prop where
  magic : le32 (disk 1) 0 = fsMagic
  size : headN (disk (logstart disk)) ≤ LOGSIZE ∧ headN (disk (logstart disk)) < nlog disk
  distinct : (headBlocks (disk (logstart disk))).Nodup
  outside : ∀ b ∈ headBlocks (disk (logstart disk)), ¬ (logstart disk ≤ b.toNat ∧ b.toNat < logstart disk + nlog disk)

/-- Each count is the number of callers that hold the buffer, plus the callers whose `bread` sleeps for it, plus 1 if
its block is in `log.lh`. -/
def Counted (s : St) : Prop :=
  ∀ k < NBUF, (s.buf k).refcnt.toNat =
    refs s.held k + refs s.waiting k + if (s.buf k).dev = s.dev ∧ (s.buf k).blockno ∈ s.lh then 1 else 0

/-- `fsinit` by process `p` in state `s₀`, and every sequence of calls after it, keep the counts right. -/
structure RefsOk (p : Nat) (s₀ : St) : Prop where
  fsinit : (exec (fsinit p ROOTDEV) s₀).2.wrapped = false
  initlog : ∀ s, exec (Bio.fsinit p ROOTDEV) s₀ = (.ok (), s) → ∀ k < NBUF, (s.buf k).refcnt = 0
  calls : ∀ s, Reach (fun s => exec (Bio.fsinit p ROOTDEV) s₀ = (.ok (), s)) Step s →
    Counted s ∧ ∀ c, Allowed s c → (exec (perform c) s).2.wrapped = false

theorem ready_counted {s : St} (h : Ready s) : Counted s := by
  intro k hk
  rw [h.inv.count k hk, h.dev]
  rfl

section Fsinit
variable {s₀ : St} {p : Nat}

/-- What `initlog` takes from the superblock. -/
def initlog (s : St) : St :=
  { s with start := logstart s.disk, size := (BitVec.ofNat 32 (nlog s.disk)).toInt, dev := ROOTDEV }

theorem fsinit_wp {Q : Unit → St → Prop} {E : Stop → St → Prop} (h₀ : Idle s₀)
    (hmagic : le32 (s₀.disk 1) 0 = fsMagic)
    (h : ∀ s, Idle s → SameLog (initlog s₀) s → s.disk = s₀.disk → wp (recoverFromLog p) Q E s) :
    wp (fsinit p ROOTDEV) Q E s₀ := by
  unfold fsinit
  simp only [wp_bind, wp_get, wp_modify, wp_ite, wp_throw]
  refine h₀.bread.total fun k s₁ g => ?_
  have hsb : (s₁.buf k).data = s₀.disk 1 := (g.contents h₀.clean).2
  refine (h₀.release g).total fun _ s₂ r => ?_
  rw [hsb]
  exact ⟨fun hn => absurd hmagic hn, fun _ => h _ r.1.setLog ⟨rfl, rfl, rfl, r.2.1.outstanding, r.2.1.lh⟩ r.2.2⟩

section
variable (h₀ : Idle s₀) (h : Committed s₀.disk)
include h₀ h

theorem fsinit_empty (hn : headN (s₀.disk (logstart s₀.disk)) = 0) :
    wp (fsinit p ROOTDEV) (fun _ s => Inv [] s ∧ s.held = [] ∧ s.waiting = [] ∧ SameLog { initlog s₀ with lh := [] } s)
      (fun _ _ => False) s₀ := by
  refine fsinit_wp h₀ h.magic fun s hi hlog hd => ?_
  have hn' : headN (s.disk s.start) = 0 := by rw [hd, hlog.start]; exact hn
  refine (recover_empty hi hlog.dev hn').imp fun _ s₁ r => ?_
  obtain ⟨inv, hheld, hwait, log₁⟩ := r
  exact ⟨inv, hheld, hwait, log₁.start.trans hlog.start, log₁.size.trans hlog.size, log₁.dev.trans hlog.dev,
    log₁.outstanding.trans hlog.outstanding, log₁.lh⟩

theorem fsinit_wraps (hn : headN (s₀.disk (logstart s₀.disk)) ≠ 0) :
    wp (fsinit p ROOTDEV) Wrapped Wrapped s₀ := by
  refine fsinit_wp h₀ h.magic fun s hi hlog hd => ?_
  have hst : s.start = logstart s₀.disk := hlog.start
  rcases hh : headBlocks (s₀.disk (logstart s₀.disk)) with _ | ⟨x, L⟩
  · have := congrArg List.length hh
    simp [headBlocks] at this
    exact absurd this hn
  · refine recover_wraps hi hlog.dev (by rw [hd, hst]; exact hh) fun he => h.outside x (by rw [hh]; simp) ?_
    have := h.size.2
    rw [hst] at he
    omega

theorem refsOk_of_empty (hn : headN (s₀.disk (logstart s₀.disk)) = 0) :
    RefsOk p s₀ ∧ ∃ s, exec (fsinit p ROOTDEV) s₀ = (.ok (), s) := by
  obtain ⟨a, s, he, inv, hheld, hwait, hlog⟩ := (fsinit_empty (p := p) h₀ h hn).returns
  have hr : Ready s := ⟨hlog.lh ▸ inv, hlog.dev⟩
  have hz : ∀ k < NBUF, (s.buf k).refcnt = 0 := by
    intro k hk
    have hc := inv.count k hk
    rw [hheld, hwait, pin_zero (fun hp => by simp [Pinned] at hp)] at hc
    exact UInt32.toNat_inj.1 (by simpa using hc)
  refine ⟨⟨by rw [he]; exact hr.inv.unwrapped, fun s' hs' => ?_, fun s' hs' => ?_⟩, s, he⟩
  · cases he.symm.trans hs'
    exact hz
  · have hr' : Ready s' := reach_ready (fun s'' hs'' => by cases he.symm.trans hs''; exact hr) hs'
    refine ⟨ready_counted hr', fun c hc => ?_⟩
    exact wp.state ((perform_spec hr' hc).mono (fun _ _ h => h.inv.unwrapped) fun _ _ h => h.1)

theorem empty_of_refsOk (hok : RefsOk p s₀) :
    headN (s₀.disk (logstart s₀.disk)) = 0 := by
  by_contra hn
  have hw : (exec (fsinit p ROOTDEV) s₀).2.wrapped = true := wp.state (fsinit_wraps h₀ h hn)
  rw [hok.fsinit] at hw
  cases hw

end

end Fsinit

/-- The counts are right exactly if the log on disk is empty at boot, and then `fsinit` returns. -/
theorem refcnts_ok_iff {disk : Nat → Block} (h : Committed disk) (p : Nat) :
    (RefsOk p (boot disk) ↔ headN (disk (logstart disk)) = 0) ∧
      (headN (disk (logstart disk)) = 0 → ∃ s, exec (fsinit p ROOTDEV) (boot disk) = (.ok (), s)) := by
  have h₀ := idle_boot disk
  exact ⟨⟨fun hok => empty_of_refsOk h₀ h hok, fun hn => (refsOk_of_empty h₀ h hn).1⟩,
    fun hn => (refsOk_of_empty h₀ h hn).2⟩

/-- The superblock of a disk with 31 log blocks from block 2 on. -/
def superblock : Block := put32 (put32 (put32 (fun _ => 0) 0 fsMagic) 16 31) 20 2

/-- A disk with that superblock and the log header `head`. -/
def diskWith (head : Block) (b : Nat) : Block := if b = 1 then superblock else if b = 2 then head else fun _ => 0

theorem committed_diskWith {head : Block} {l : List UInt32} (hl : headBlocks head = l) (hn : headN head ≤ LOGSIZE)
    (hd : l.Nodup) (ho : l.all (fun b => decide (33 ≤ b.toNat))) : Committed (diskWith head) := by
  have hstart : logstart (diskWith head) = 2 := show le32 superblock 20 = 2 by decide +kernel
  have hnlog : nlog (diskWith head) = 31 := show le32 superblock 16 = 31 by decide +kernel
  have hhead : diskWith head (logstart (diskWith head)) = head := by rw [hstart]; rfl
  refine ⟨show le32 superblock 0 = fsMagic by decide +kernel, ?_, ?_, ?_⟩ <;> rw [hhead]
  · rw [hnlog]
    exact ⟨hn, by simp only [LOGSIZE, MAXOPBLOCKS] at hn; omega⟩
  · rw [hl]; exact hd
  · intro b hb
    rw [hl] at hb
    have := of_decide_eq_true (all_eq_true.1 ho b hb)
    rw [hstart, hnlog]
    omega

theorem refcnts_ok_clean : RefsOk 1 (boot (diskWith fun _ => 0)) :=
  (refcnts_ok_iff (committed_diskWith (l := []) (by decide +kernel) (by decide +kernel) (by simp) (by simp)) 1).1.2
    (by decide +kernel)

/-- Recovery of a one-block transaction for block 40 leaves a buffer with a count of 2³² - 1. -/
theorem recovery_wraps :
    ∃ disk, Committed disk ∧ (exec (fsinit 1 ROOTDEV) (boot disk)).1.toBool = true ∧
      (∃ k < NBUF, ((exec (fsinit 1 ROOTDEV) (boot disk)).2.buf k).blockno = 40 ∧
        ((exec (fsinit 1 ROOTDEV) (boot disk)).2.buf k).refcnt = 4294967295) ∧ ¬ RefsOk 1 (boot disk) := by
  have hc : Committed (diskWith (put32 (put32 (fun _ => 0) 0 1) 4 40)) :=
    committed_diskWith (l := [40]) (by decide +kernel) (by decide +kernel) (by simp) (by decide)
  refine ⟨_, hc, by decide +kernel, by decide +kernel, fun hok => ?_⟩
  have hb := hok.fsinit
  revert hb
  decide +kernel

end Xv6.Bio
