import Xv6.Fs.Budget
/-!
# filewrite

A long write is cut into chunks, one transaction each. Together they write
what one `writei` of all bytes would write; if the bytes go beyond the largest
file, they write the chunks that fit.
-/

namespace Xv6.Fs

open Bytes Hoare Owner Function List

/-! ## Free blocks -/

variable {m tot : Nat}

section Free
variable {sb : Superblock} {t t' : Table} {blk blk' : Nat → Arr} {i : Nat}

theorem nfree_le {A : List Nat} (h : ∀ c < sb.size, used sb blk' c = true → used sb blk c = true ∨ c ∈ A) :
    nfree sb blk ≤ nfree sb blk' + A.length := by
  have hsub : (List.range sb.size).filter (fun b => !used sb blk b) ⊆
      (List.range sb.size).filter (fun b => !used sb blk' b) ++ A := by
    intro b hb
    obtain ⟨hlt, hu⟩ := mem_filter.1 hb
    by_cases hu' : used sb blk' b = true
    · rcases h b (mem_range.1 hlt) hu' with h | h
      · rw [h] at hu
        cases hu
      · exact mem_append_right _ h
    · exact mem_append_left _ (mem_filter.2 ⟨hlt, by simpa using hu'⟩)
  have hle := ((nodup_range.filter _).subperm hsub).length_le
  rw [length_append] at hle
  unfold nfree
  rw [countP_eq_length_filter, countP_eq_length_filter]
  exact hle

/-- The blocks that a first part of a write has allocated need not be allocated for the rest. -/
theorem needs_after {a a' c c₁ c₂ : Nat} (hi : i < sb.ninodes)
    (hslot : ∀ x, ref sb t blk x ≠ 0 → ref sb t' blk' x = ref sb t blk x)
    (hhas : ∀ bn, a ≤ bn → bn < a + c₁ → ref sb t' blk' (i, dataSlot bn) ≠ 0) (hpos : 0 < c₁) (hc : c₁ ≤ c) (ha : a ≤ a')
    (ha' : a' ≤ a + c₁) (hend : a' + c₂ = a + c) :
    needs sb t blk i a c₁ + needs sb t' blk' i a' c₂ ≤ needs sb t blk i a c := by
  have hsplit : List.range' a c = List.range' a c₁ ++ List.range' (a + c₁) (c - c₁) := by
    rw [range'_append_1, Nat.add_sub_cancel' hc]
  have hsplit' : List.range' a' c₂ = List.range' a' (a + c₁ - a') ++ List.range' (a + c₁) (c - c₁) := by
    have := range'_append_1 (s := a') (m := a + c₁ - a') (n := c - c₁)
    rw [show a' + (a + c₁ - a') = a + c₁ by omega, show a + c₁ - a' + (c - c₁) = c₂ by omega] at this
    exact this.symm
  have hzero : (List.range' a' (a + c₁ - a')).countP (fun n => decide (ref sb t' blk' (i, dataSlot n) = 0)) = 0 := by
    refine countP_eq_zero.2 fun n hn => ?_
    have hn := mem_range'_1.1 hn
    simpa using hhas n (by omega) (by omega)
  have hmono : (List.range' (a + c₁) (c - c₁)).countP (fun n => decide (ref sb t' blk' (i, dataSlot n) = 0)) ≤
      (List.range' (a + c₁) (c - c₁)).countP (fun n => decide (ref sb t blk (i, dataSlot n) = 0)) := by
    refine countP_mono_left fun n _ hn => ?_
    by_contra h0
    have h0 : ref sb t blk (i, dataSlot n) ≠ 0 := by simpa using h0
    exact h0 ((hslot _ h0).symm.trans (by simpa using hn))
  -- An indirect block is counted in one of the two parts only.
  have hkeep : (t' i).addrs NDIRECT = 0 → (t i).addrs NDIRECT = 0 := by
    intro h
    by_contra hne
    have := hslot (i, NDIRECT) (by rwa [ref_addr blk hi (Nat.le_refl _)])
    rw [ref_addr blk hi (Nat.le_refl _), ref_addr blk' hi (Nat.le_refl _)] at this
    exact hne (this.symm.trans h)
  have hgot : NDIRECT < a + c₁ → (t' i).addrs NDIRECT ≠ 0 := by
    intro hlt h0
    refine hhas (a + c₁ - 1) (by omega) (by omega) ?_
    unfold ref dataSlot
    rw [if_pos hi, if_neg (show ¬ a + c₁ - 1 < NDIRECT by omega), if_neg (show ¬ a + c₁ - 1 + 1 ≤ NDIRECT by omega),
      if_neg fun h => h.1 h0]
  have hind : (if 0 < c₁ ∧ NDIRECT < a + c₁ ∧ (t i).addrs NDIRECT = 0 then 1 else 0) +
      (if 0 < c₂ ∧ NDIRECT < a' + c₂ ∧ (t' i).addrs NDIRECT = 0 then 1 else 0) ≤
      if 0 < c ∧ NDIRECT < a + c ∧ (t i).addrs NDIRECT = 0 then 1 else 0 := by
    by_cases h1 : NDIRECT < a + c₁
    · rw [if_neg fun h : 0 < c₂ ∧ NDIRECT < a' + c₂ ∧ (t' i).addrs NDIRECT = 0 => hgot h1 h.2.2]
      split
      · next h => rw [if_pos ⟨by omega, by omega, h.2.2⟩]
      · exact Nat.zero_le _
    · rw [if_neg fun h : 0 < c₁ ∧ NDIRECT < a + c₁ ∧ (t i).addrs NDIRECT = 0 => h1 h.2.1]
      split
      · next h => rw [if_pos ⟨by omega, by omega, hkeep h.2.2⟩]
      · exact Nat.zero_le _
  unfold needs
  rw [hsplit, hsplit', countP_append, countP_append, hzero]
  omega

theorem spans_end (off : Nat) {n : Nat} (hn : 0 < n) : off / BSIZE + spans off n = (off + n + BSIZE - 1) / BSIZE := by
  unfold spans
  rw [if_neg (by omega)]
  simp only [BSIZE]
  omega

theorem lacking_le (sb : Superblock) (t : Table) (blk : Nat → Arr) (i off : Nat) {m' : Nat} (h : m ≤ m')
    : lacking sb t blk i off m ≤ lacking sb t blk i off m' := by
  have hc : spans off m ≤ spans off m' := by
    unfold spans
    split
    · exact Nat.zero_le _
    · rw [if_neg (by omega)]
      exact Nat.div_le_div_right (by omega)
  unfold lacking needs
  refine Nat.add_le_add ?_ ?_
  · rw [← Nat.add_sub_cancel' hc, ← range'_append_1, countP_append]
    exact Nat.le_add_right _ _
  · split
    · next h1 => rw [if_pos ⟨by omega, by omega, h1.2.2⟩]
    · exact Nat.zero_le _

theorem Stored.lacking {src : Src} {off : Nat} (h : Stored sb src tot off m i t blk t' blk') (hi : i < sb.ninodes)
    (hm : 0 < m) (m' : Nat)
    : lacking sb t blk i off m + lacking sb t' blk' i (off + m) m' ≤ lacking sb t blk i off (m + m') := by
  unfold Fs.lacking
  by_cases hm' : m' = 0
  · rw [hm']
    exact Nat.le_refl _
  have h1 := spans_end off hm
  have h2 := spans_end (off + m) (show 0 < m' by omega)
  have h3 := spans_end off (show 0 < m + m' by omega)
  refine needs_after hi h.slot (fun bn _ hlt => h.has bn ?_) (spans_pos off hm) ?_ (Nat.div_le_div_right (by omega)) ?_ ?_
  all_goals simp only [BSIZE] at *
  all_goals omega

end Free

/-! ## One chunk -/

/-- Entry `k` is in use and unlocked, and its inode is that of the table, if only on the disk. -/
structure Ready (sb : Superblock) (t : Table) (s : St) (k : Nat) : Prop where
  own : Owned sb t s.blk
  lt : (s.icache k).inum < sb.ninodes
  ok : (t (s.icache k).inum).Ok
  ref : 1 ≤ (s.icache k).ref
  lock : (s.icache k).lock = none
  warm : (s.icache k).valid = true → (s.icache k).di = t (s.icache k).inum
  cold : (s.icache k).valid = false → dinode sb s.blk (s.icache k).inum = t (s.icache k).inum ∧ (t (s.icache k).inum).type ≠ 0

def Idle (s : St) : Prop := s.outstanding = 0 ∧ s.lh = []

/-- A transaction has begun, and entry `k` is locked. -/
structure Held (t : Table) (s : St) (k : Nat) (s' : St) : Prop where
  blk : s'.blk = s.blk
  icache : s'.icache = Function.update s.icache k
    { s.icache k with lock := some s.myproc, valid := true, di := t (s.icache k).inum }
  ftable : s'.ftable = s.ftable
  myproc : s'.myproc = s.myproc
  outstanding : s'.outstanding = s.outstanding + 1
  lh : s'.lh = s.lh

section Chunk
variable {sb : Superblock} {t t' : Table} {s s' : St} {k f n i : Nat} {src : Src}

theorem Held.self (h : Held t s k s') :
    s'.icache k = { s.icache k with lock := some s.myproc, valid := true, di := t (s.icache k).inum } := by
  rw [h.icache, update_self]

theorem begin_ilock (h : Ready sb t s k) : wp (do beginOp; ilock sb k) (fun _ s' => Held t s k s')
    (fun e _ => e = .blocked ∧ ¬ Idle s) s := by
  unfold beginOp record ilock acquiresleep setInode
  simp only [wp_bind, wp_modify, wp_get, wp_ite, wp_throw, wp_set, wp_pure]
  refine ⟨fun hfull => ⟨trivial, fun hidle => ?_⟩, fun _ => ⟨fun href => absurd h.ref (by omega), fun _ => ⟨fun hlock => ?_, fun _ => ?_⟩⟩⟩
  · rw [hidle.1, hidle.2] at hfull
    exact absurd hfull (by decide)
  · rw [h.lock] at hlock
    cases hlock
  · cases hv : (s.icache k).valid with
    | true =>
      refine ⟨fun hc => ?_, fun _ => ⟨rfl, ?_, rfl, rfl, rfl, rfl⟩⟩
      · cases hc
      · rw [← h.warm hv, ← hv]
    | false =>
      obtain ⟨hdi, htype⟩ := h.cold hv
      refine ⟨fun _ => ?_, fun hc => absurd rfl hc⟩
      simp only [update_self, update_idem, hdi]
      exact ⟨fun h0 => absurd h0 htype, fun _ => ⟨rfl, rfl, rfl, rfl, rfl, rfl⟩⟩

theorem Held.cached (h : Held t s k s') (hr : Ready sb t s k) : Cached sb t s' k := by
  have hk : s'.icache k = { s.icache k with lock := some s.myproc, valid := true, di := t (s.icache k).inum } := by
    rw [h.icache, update_self]
  refine ⟨h.blk ▸ hr.own, ?_, ?_, ?_⟩ <;> rw [hk]
  · exact hr.lt
  · exact hr.ok

theorem finish (r : Int) (hlock : (s.icache k).lock = some s.myproc) (href : 1 ≤ (s.icache k).ref) :
    wp (do
      if 0 < r then setFile f fun x => { x with off := (x.off + r.toNat) % 2 ^ 32 }
      iunlock k
      endOp
      return r) (fun r' s' => r' = r ∧ s'.blk = s.blk ∧ s'.outstanding = s.outstanding - 1 ∧
        s'.icache = update s.icache k { s.icache k with lock := none } ∧
        s'.lh = (if s.outstanding - 1 = 0 then [] else s.lh) ∧
        s'.ftable = if 0 < r then update s.ftable f { s.ftable f with off := ((s.ftable f).off + r.toNat) % 2 ^ 32 }
          else s.ftable) (fun _ _ => False) s := by
  unfold iunlock releasesleep setInode endOp record setFile
  simp only [wp_bind, wp_modify, wp_get, wp_ite, wp_throw, wp_pure]
  refine ⟨fun hr => ⟨fun hc => ?_, fun _ => ⟨trivial, trivial, trivial, trivial, trivial, by rw [if_pos hr]⟩⟩,
    fun hr => ⟨fun hc => ?_, fun _ => ⟨trivial, trivial, trivial, trivial, trivial, by rw [if_neg hr]⟩⟩⟩
  all_goals
    rcases hc with hc | hc
    · exact hc hlock
    · omega

/-- `m` bytes of file `f` were written, from byte `tot` of the source on; nothing else has changed. -/
structure Chunked (sb : Superblock) (src : Src) (tot m : Nat) (t : Table) (s : St) (k f : Nat) (t' : Table) (s' : St) :
    Prop where
  ready : Ready sb t' s' k
  outstanding : s'.outstanding = s.outstanding
  idle : Idle s → Idle s'
  inum : (s'.icache k).inum = (s.icache k).inum
  table : ∀ i, i ≠ (s.icache k).inum → t' i = t i
  ftable : s'.ftable = Function.update s.ftable f { s.ftable f with off := (s.ftable f).off + m }
  size : (t' (s.icache k).inum).size = max (t (s.icache k).inum).size ((s.ftable f).off + m)
  stored : Stored sb src tot (s.ftable f).off m (s.icache k).inum t s.blk t' s'.blk
  taken : ∃ A : List Nat, A.length ≤ lacking sb t s.blk (s.icache k).inum (s.ftable f).off m ∧
    ∀ c < sb.size, used sb s'.blk c = true → used sb s.blk c = true ∨ c ∈ A
  others : ∀ i, i ≠ (s.icache k).inum → content sb t' s'.blk i = content sb t s.blk i

theorem Src.byte_from (src : Src) (i j : Nat) : (src.from i).byte j = src.byte (i + j) := by
  cases src with
  | kernel bytes => exact getElem?_drop
  | user mem addr =>
    show mem ((addr + i + j) % 2 ^ 64) = mem ((addr + (i + j)) % 2 ^ 64)
    rw [Nat.add_assoc]

theorem Stored.from {off i : Nat} {blk blk' : Nat → Arr} (h : Stored sb (src.from tot) 0 off m i t blk t' blk') :
    Stored sb src tot off m i t blk t' blk' := by
  refine ⟨fun j hj => ?_, h.old, h.has, h.slot⟩
  rw [h.new j hj, Src.byte_from, Nat.zero_add]

variable {E : Stop → St → Prop} {new : List UInt8}

theorem writeChunk_wp (h : Ready sb t s k) (hip : (s.ftable f).ip = k) {r : Int} {P : Table → St → Prop}
    (hE : ∀ s', ¬ Idle s → E .blocked s')
    (hw : ∀ s₁, Held t s k s₁ → wp (writei sb k (src.from i) (s.ftable f).off n) (fun r' s₂ => r' = r ∧
      s₂.ftable = s₁.ftable ∧ s₂.myproc = s₁.myproc ∧ s₂.outstanding = s₁.outstanding ∧
      ∃ t', P t' s₂ ∧ s₂.icache k = { s₁.icache k with di := t' (s.icache k).inum }) E s₁) :
    wp (writeChunk sb f src i n) (fun r' s' => r' = r ∧ ∃ t' s₂, P t' s₂ ∧ s'.blk = s₂.blk ∧
      s'.outstanding = s.outstanding ∧ (Idle s → Idle s') ∧
      s'.icache k = { s.icache k with valid := true, di := t' (s.icache k).inum } ∧
      s'.ftable = if 0 < r then update s.ftable f
        { s.ftable f with off := ((s.ftable f).off + r.toNat) % 2 ^ 32 } else s.ftable) E s := by
  have hbegin := begin_ilock h
  rw [wp_bind] at hbegin
  unfold writeChunk
  rw [wp_bind, wp_get]
  dsimp only
  rw [hip, wp_bind]
  refine hbegin.mono (fun _ s₀ h₀ => ?_) fun e s' he => he.1 ▸ hE s' he.2
  rw [wp_bind]
  refine h₀.mono (fun _ s₁ h₁ => ?_) fun e s' he => he.1 ▸ hE s' he.2
  have hk₁ := h₁.self
  refine (hw s₁ h₁).seq ?_
  rintro r' s₂ ⟨rfl, hft, hmy, hout, t', hP, hk₂⟩
  rw [hk₁] at hk₂
  have hend := finish (f := f) r' (show (s₂.icache k).lock = some s₂.myproc by rw [hk₂, hmy, h₁.myproc])
    (show 1 ≤ (s₂.icache k).ref by rw [hk₂]; exact h.ref)
  refine hend.total ?_
  rintro r₃ s₃ ⟨rfl, hblk, hout₃, hic₃, hlh₃, hft₃⟩
  have hout' : s₂.outstanding - 1 = s.outstanding := by
    rw [hout, h₁.outstanding]
    omega
  refine ⟨rfl, t', s₂, hP, hblk, hout₃.trans hout', fun hidle => ⟨hout₃.trans (hout'.trans hidle.1), ?_⟩, ?_, ?_⟩
  · rw [hlh₃, if_pos (hout'.trans hidle.1)]
  · rw [hic₃, update_self, hk₂]
    simp only [h.lock]
  · rw [hft₃, hft, h₁.ftable, ← hip]

theorem Ready.after (h : Ready sb t s k)
    (hk : s'.icache k = { s.icache k with valid := true, di := t' (s.icache k).inum })
    (own : Owned sb t' s'.blk) (ok : (t' (s.icache k).inum).Ok) : Ready sb t' s' k := by
  have hi : (s'.icache k).inum = (s.icache k).inum := by rw [hk]
  refine ⟨own, hi ▸ h.lt, hi ▸ ok, ?_, ?_, fun _ => ?_, fun hv => ?_⟩ <;> rw [hk] at *
  · exact h.ref
  · exact h.lock
  · cases hv

theorem Lacks.ne_short {ind : Nat} {e : Stop} (h : Lacks sb ind n m s e s') : e ≠ .shortFilewrite := by
  rcases h.reason with ⟨rfl, -⟩ | ⟨rfl, -⟩ <;> decide

theorem writeChunk_fits (h : Ready sb t s k) (hl : Layout sb) (hfull : Full sb t s.blk (s.icache k).inum)
    (hip : (s.ftable f).ip = k) (hop : 0 ≤ s.outstanding) (hoff : (s.ftable f).off ≤ (t (s.icache k).inum).size)
    (hmax : (s.ftable f).off + n ≤ MAXFILE * BSIZE) (hpos : 0 < n) (hn : n ≤ chunk)
    (hread : ∀ j < n, src.byte (i + j) ≠ none) :
    wp (writeChunk sb f src i n) (fun r s' => r = n ∧ ∃ t', Chunked sb src i n t s k f t' s')
      (fun e _ => e ≠ .shortFilewrite ∧ ¬ (Idle s ∧ MAXOPBLOCKS < sb.nlog ∧
        lacking sb t s.blk (s.icache k).inum (s.ftable f).off n ≤ nfree sb s.blk)) s := by
  have hneeds := chunk_needs hfull hoff hn
  have hbig : MAXFILE * BSIZE = 274432 := rfl
  refine (writeChunk_wp h hip (r := n) (P := fun t' s₂ => ∃ s₁, Held t s k s₁ ∧ Rewrote sb t s₁ k t' s₂ ∧
    (∃ S A : List Nat, A.length ≤ lacking sb t s.blk (s.icache k).inum (s.ftable f).off n ∧ Spent sb S A s₁ s₂) ∧
    (t' (s.icache k).inum).size = max (t (s.icache k).inum).size ((s.ftable f).off + n) ∧
    Stored sb (src.from i) 0 (s.ftable f).off n (s.icache k).inum t s.blk t' s₂.blk)
    (fun _ hidle => ⟨by decide, fun hc => hidle hc.1⟩) fun s₁ h₁ => ?_).imp fun r s' h' => ?_
  · have hk₁ := h₁.self
    have hi₁ : (s₁.icache k).inum = (s.icache k).inum := by rw [hk₁]
    have hgrew := writei_grew (src.from i) hl (h₁.cached h) (by rw [h₁.outstanding]; omega)
      (by rw [hi₁]; exact hoff) hmax
    unfold WriteDone WriteStops at hgrew
    rw [hi₁, h₁.blk] at hgrew
    refine hgrew.mono (fun r s₂ h₂ => ?_) fun e s₂ h₂ => ⟨h₂.1.ne_short, fun hc => h₂.1.elim ?_ fun hlog => ?_⟩
    · obtain ⟨hr, t', hw, ⟨S, A, hS, hA, w⟩, -, hst⟩ := h₂
      obtain ⟨hsize, hst⟩ := hst (fun bn hb => hfull bn (by omega)) fun j hj => by
        rw [Src.byte_from]
        exact hread j hj
      refine ⟨hr, w.ftable, w.myproc, w.outstanding, t', ⟨s₁, h₁, hw, ⟨S, A, hA, w⟩, hsize, hst⟩, ?_⟩
      rw [hw.self, hi₁]
    · rw [h₁.blk]
      exact hc.2.2
    · obtain ⟨hidle, hnlog, -⟩ := hc
      have hlen : s₁.lh.length = 0 := by rw [h₁.lh, hidle.2]; rfl
      have := h₂.2
      unfold logNeeds at hneeds
      rcases hlog with hf | hf
      · simp only [LOGSIZE, MAXOPBLOCKS] at *
        omega
      · omega
  · obtain ⟨hr, t', s₂, ⟨s₁, h₁, hw, ⟨S, A, hA, w⟩, hsize, hst⟩, hblk, hout, hidle, hk, hft⟩ := h'
    have hi₁ : (s₁.icache k).inum = (s.icache k).inum := by rw [h₁.icache, update_self]
    have hc := hw.cached
    have hi₂ : (s₂.icache k).inum = (s.icache k).inum := by rw [hw.self, hi₁]
    refine ⟨hr, t', h.after hk (hblk ▸ hc.own) (hi₂ ▸ hc.ok), hout, hidle, by rw [hk], fun i hi => ?_, ?_, hsize, ?_, ⟨A, hA, ?_⟩, fun i hi => ?_⟩
    · exact hw.table i (hi₁ ▸ hi)
    · rw [hft, if_pos (by omega), Int.toNat_natCast, Nat.mod_eq_of_lt (by omega)]
    · rw [hblk]
      exact hst.from
    · rw [hblk]
      have := w.taken
      rwa [h₁.blk] at this
    · rw [hblk, hw.content (hi₁ ▸ hi), h₁.blk]

theorem writeChunk_refused (h : Ready sb t s k) (hfull : Full sb t s.blk (s.icache k).inum)
    (hip : (s.ftable f).ip = k) (hoff : (s.ftable f).off ≤ (t (s.icache k).inum).size)
    (hmax : MAXFILE * BSIZE < (s.ftable f).off + n) (hn : n ≤ chunk) :
    wp (writeChunk sb f src i n) (fun r s' => r = -1 ∧ ∃ t', Chunked sb src i 0 t s k f t' s')
      (fun e _ => e ≠ .shortFilewrite ∧ ¬ Idle s) s := by
  have hsize := h.ok.size
  have hchunk : chunk = 3072 := rfl
  refine (writeChunk_wp h hip (r := -1) (P := fun t' s₂ => t' = t ∧ s₂.blk = s.blk)
    (fun _ hidle => ⟨by decide, hidle⟩) fun s₁ h₁ => ?_).imp fun r s' h' => ?_
  · have hk₁ := h₁.self
    refine (writei_refuses (src.from i) (h₁.cached h) (by omega) (by omega) (.inr (.inr hmax))).total ?_
    rintro r s₂ ⟨hr, rfl⟩
    refine ⟨hr, rfl, rfl, rfl, t, ⟨rfl, h₁.blk⟩, ?_⟩
    rw [hk₁]
  · obtain ⟨hr, t', s₂, ⟨rfl, hblk₂⟩, hblk, hout, hidle, hk, hft⟩ := h'
    rw [hblk₂] at hblk
    refine ⟨hr, t', h.after hk (hblk ▸ h.own) h.ok, hout, hidle, by rw [hk], fun i hi => rfl, ?_, ?_, ?_, ⟨[], Nat.zero_le _, ?_⟩, fun i hi => ?_⟩
    · rw [hft, if_neg (by decide), Nat.add_zero]
      exact (update_eq_self f s.ftable).symm
    · rw [Nat.add_zero, Nat.max_eq_left hoff]
    · rw [hblk]
      exact .none fun bn hb => hfull bn (by omega)
    · rw [hblk]
      exact fun _ _ => .inl
    · rw [hblk]

/-! ## The loop -/

/-- The bytes of a write of `n` at `off` that are written: all of them, or the chunks that fit. -/
def fits (off n : Nat) : Nat := if off + n ≤ MAXFILE * BSIZE then n else (MAXFILE * BSIZE - off) / chunk * chunk

theorem fits_le (off n : Nat) : fits off n ≤ n := by
  unfold fits
  split
  · exact Nat.le_refl n
  · have := Nat.div_mul_le_self (MAXFILE * BSIZE - off) chunk
    omega

theorem fits_step {off n n₁ : Nat} (hn : n₁ = min n chunk) (hfit : off + n₁ ≤ MAXFILE * BSIZE) :
    fits off n = n₁ + fits (off + n₁) (n - n₁) := by
  unfold fits
  by_cases hall : off + n ≤ MAXFILE * BSIZE
  · rw [if_pos hall, if_pos (by omega)]
    omega
  · have hchunk : chunk = 3072 := rfl
    have hbig : MAXFILE * BSIZE = 274432 := rfl
    have hn₁ : n₁ = 3072 := by omega
    rw [if_neg hall, if_neg (by omega), hbig, hchunk, hn₁]
    omega

theorem fits_none {off n n₁ : Nat} (hn : n₁ = min n chunk) (hout : MAXFILE * BSIZE < off + n₁) : fits off n = 0 := by
  have hchunk : chunk = 3072 := rfl
  have hbig : MAXFILE * BSIZE = 274432 := rfl
  unfold fits
  rw [if_neg (by omega), Nat.div_eq_of_lt (by omega), Nat.zero_mul]

theorem Chunked.none (h : Ready sb t s k) (hfull : Full sb t s.blk (s.icache k).inum)
    (hoff : (s.ftable f).off ≤ (t (s.icache k).inum).size) : Chunked sb src tot 0 t s k f t s := by
  refine ⟨h, rfl, id, rfl, fun _ _ => rfl, ?_, ?_, .none fun bn hb => hfull bn (by omega),
    ⟨[], Nat.zero_le _, fun _ _ => .inl⟩, fun _ _ => rfl⟩
  · exact (update_eq_self f s.ftable).symm
  · rw [Nat.add_zero, Nat.max_eq_left hoff]

theorem Chunked.full (h : Chunked sb src tot m t s k f t' s') (hfull : Full sb t s.blk (s.icache k).inum) :
    Full sb t' s'.blk (s'.icache k).inum := by
  intro bn hbn
  rw [h.inum, h.size] at hbn
  rw [h.inum]
  by_cases hlt : bn * BSIZE < (t (s.icache k).inum).size
  · rw [h.stored.slot _ (hfull bn hlt)]
    exact hfull bn hlt
  · exact h.stored.has bn (by omega)

theorem Chunked.off (h : Chunked sb src tot m t s k f t' s') : (s'.ftable f).off = (s.ftable f).off + m := by
  rw [h.ftable, update_self]

theorem Chunked.trans {t₁ : Table} {s₁ : St} {tot m m' : Nat} (hi : (s.icache k).inum < sb.ninodes) (hm : 0 < m)
    (h₁ : Chunked sb src tot m t s k f t₁ s₁) (h₂ : Chunked sb src (tot + m) m' t₁ s₁ k f t' s') :
    Chunked sb src tot (m + m') t s k f t' s' := by
  have hoff := h₁.off
  obtain ⟨ready, out, idle, inum, table, ftable, size, stored, ⟨A', hA', taken⟩, others⟩ := h₂
  obtain ⟨A, hA, htaken⟩ := h₁.taken
  rw [h₁.inum] at table size stored hA' others
  rw [hoff] at size stored hA'
  have hlack := h₁.stored.lacking hi hm m'
  refine ⟨ready, out.trans h₁.outstanding, fun h => idle (h₁.idle h), inum.trans h₁.inum,
    fun i hi => (table i hi).trans (h₁.table i hi), ?_, ?_, h₁.stored.trans stored, ⟨A ++ A', ?_, fun c hc hu => ?_⟩,
    fun i hi => (others i hi).trans (h₁.others i hi)⟩
  · rw [ftable, hoff, h₁.ftable, update_idem, update_self, Nat.add_assoc]
  · rw [size, h₁.size]
    omega
  · rw [length_append]
    omega
  · rcases taken c hc hu with h | h
    · exact (htaken c hc h).imp_right (mem_append_left _)
    · exact .inr (mem_append_right _ h)

theorem writeLoop_fits (hl : Layout sb) (hnlog : MAXOPBLOCKS < sb.nlog) (hread : ∀ j < n, src.byte j ≠ Option.none) :
    ∀ fuel i (t : Table) (s : St), Ready sb t s k → Idle s → Full sb t s.blk (s.icache k).inum → (s.ftable f).ip = k →
    (s.ftable f).off ≤ (t (s.icache k).inum).size → i ≤ n → n - i ≤ fuel * chunk →
    wp (writeLoop sb f src n fuel i) (fun i' s' => i' = i + fits (s.ftable f).off (n - i) ∧
      ∃ t', Chunked sb src i (fits (s.ftable f).off (n - i)) t s k f t' s') (fun e _ => e ≠ .shortFilewrite ∧
        nfree sb s.blk < lacking sb t s.blk (s.icache k).inum (s.ftable f).off (fits (s.ftable f).off (n - i))) s := by
  have hchunk : chunk = 3072 := rfl
  have hdone : ∀ i (t : Table) (s : St), Ready sb t s k → Full sb t s.blk (s.icache k).inum →
      (s.ftable f).off ≤ (t (s.icache k).inum).size → n - i = 0 → i = i + fits (s.ftable f).off (n - i) ∧
      ∃ t', Chunked sb src i (fits (s.ftable f).off (n - i)) t s k f t' s := by
    intro i t s h hfull hoff hni
    have h0 : fits (s.ftable f).off (n - i) = 0 := by
      have := fits_le (s.ftable f).off (n - i)
      omega
    rw [h0]
    exact ⟨rfl, t, .none h hfull hoff⟩
  intro fuel
  induction fuel with
  | zero =>
    intro i t s h _ hfull _ hoff _ hfuel
    exact (wp_pure _).2 (hdone i t s h hfull hoff (by omega))
  | succ fuel ih =>
    intro i t s h hidle hfull hip hoff hi hfuel
    unfold writeLoop
    rw [wp_ite]
    refine ⟨fun hlt => ?_, fun hge => (wp_pure _).2 (hdone i t s h hfull hoff (by omega))⟩
    dsimp only
    generalize hn₁ : min (n - i) chunk = n₁
    rw [wp_bind]
    by_cases hfit : (s.ftable f).off + n₁ ≤ MAXFILE * BSIZE
    · have hstep := fits_step hn₁.symm hfit
      rw [hstep]
      refine (writeChunk_fits (i := i) h hl hfull hip (by rw [hidle.1]) hoff hfit (by omega) (by omega)
        fun j hj => hread _ (by omega)).mono (fun r s₁ h₁ => ?_) fun _ _ hc => ⟨hc.1, ?_⟩
      swap
      · have hle := lacking_le sb t s.blk (s.icache k).inum (s.ftable f).off
          (Nat.le_add_right n₁ (fits ((s.ftable f).off + n₁) (n - i - n₁)))
        have hlt : ¬ lacking sb t s.blk (s.icache k).inum (s.ftable f).off n₁ ≤ nfree sb s.blk :=
          fun hfree => hc.2 ⟨hidle, hnlog, hfree⟩
        omega
      obtain ⟨rfl, t₁, c₁⟩ := h₁
      have hlack := c₁.stored.lacking h.lt (by omega) (fits ((s.ftable f).off + n₁) (n - i - n₁))
      obtain ⟨A, hA, htaken⟩ := c₁.taken
      have hfree₁ := nfree_le htaken
      rw [if_neg (by omega)]
      rw [if_neg (fun hne => hne rfl)]
      have hih := ih (i + n₁) t₁ s₁ c₁.ready (c₁.idle hidle) (c₁.full hfull) (by rw [c₁.ftable, update_self]; exact hip)
        (by rw [c₁.off, c₁.inum, c₁.size]; omega) (by omega) (by rw [Nat.add_mul] at hfuel; omega)
      rw [c₁.inum, c₁.off, show n - (i + n₁) = n - i - n₁ by omega] at hih
      refine hih.mono (fun i' s₂ h₂ => ?_) fun _ _ hc => ⟨hc.1, by omega⟩
      obtain ⟨rfl, t₂, c₂⟩ := h₂
      exact ⟨by omega, t₂, c₁.trans h.lt (by omega) c₂⟩
    · rw [fits_none hn₁.symm (by omega)]
      refine (writeChunk_refused (i := i) h hfull hip hoff (by omega) (by omega)).mono (fun r s₁ h₁ => ?_)
        fun _ _ hc => absurd hidle hc.2
      obtain ⟨rfl, h₁⟩ := h₁
      rw [if_pos (by decide)]
      exact (wp_pure _).2 ⟨rfl, h₁⟩

theorem Chunked.content (h : Chunked sb src 0 m t s k f t' s')
    (hfull : Full sb t s.blk (s.icache k).inum) (hoff : (s.ftable f).off ≤ (t (s.icache k).inum).size)
    (hm : m ≤ new.length) (hsrc : ∀ j < new.length, src.byte j = new[j]?) :
    content sb t' s'.blk (s.icache k).inum =
      patch (content sb t s.blk (s.icache k).inum) (s.ftable f).off (new.take m) := by
  refine (h.stored.content hfull hoff h.size (by rw [length_take, Nat.min_eq_left hm]) fun j hj => ?_).1
  rw [hsrc j (by omega), getElem?_take_of_lt hj]

theorem src_readable (hsrc : ∀ j < new.length, src.byte j = new[j]?) :
    ∀ j < new.length, src.byte j ≠ none := by
  intro j hj
  rw [hsrc j hj, getElem?_eq_getElem hj]
  exact Option.some_ne_none _

theorem filewrite_wp {r : Int} {Q : Int → St → Prop} (hw : (s.ftable f).writable = true)
    (htype : (s.ftable f).type = .inode)
    (h : wp (writeLoop sb f src n (n / chunk + 1) 0) (fun i s' => Q (if i = n then n else -1) s') E s) :
    wp (filewrite sb f src n r) Q E s := by
  unfold filewrite
  rw [wp_bind, wp_get]
  simp only [hw, htype, Bool.not_true, Bool.false_eq_true, if_false, Int.toNat_natCast, wp_bind, wp_pure, Nat.cast_inj]
  exact h

/-- In chunks or at once, the same is written; beyond the largest file, the chunks that fit. -/
theorem filewrite_in_chunks {new : List UInt8} (r : Int) (hl : Layout sb) (hnlog : MAXOPBLOCKS < sb.nlog)
    (h : Ready sb t s k) (hidle : Idle s) (hfull : Full sb t s.blk (s.icache k).inum)
    (hw : (s.ftable f).writable = true) (htype : (s.ftable f).type = .inode) (hip : (s.ftable f).ip = k)
    (hoff : (s.ftable f).off ≤ (t (s.icache k).inum).size) (hsrc : ∀ j < new.length, src.byte j = new[j]?) :
    ((s.ftable f).off + new.length ≤ MAXFILE * BSIZE →
      lacking sb t s.blk (s.icache k).inum (s.ftable f).off new.length ≤ nfree sb s.blk →
      ∃ s' t', exec (filewrite sb f src new.length r) s = (.ok (new.length : Int), s') ∧ Ready sb t' s' k ∧
        (s'.icache k).inum = (s.icache k).inum ∧
        content sb t' s'.blk (s.icache k).inum = patch (content sb t s.blk (s.icache k).inum) (s.ftable f).off new ∧
        (t' (s.icache k).inum).size = max (t (s.icache k).inum).size ((s.ftable f).off + new.length) ∧
        (s'.ftable f).off = (s.ftable f).off + new.length ∧
        ∀ r₁ s₁, exec (do beginOp; ilock sb k; writei sb k src (s.ftable f).off new.length) s = (.ok r₁, s₁) →
          r₁ = new.length ∧ ∃ t₁, Cached sb t₁ s₁ k ∧
            content sb t' s'.blk (s.icache k).inum = content sb t₁ s₁.blk (s.icache k).inum ∧
            (t' (s.icache k).inum).size = (t₁ (s.icache k).inum).size ∧ (s'.ftable f).off = (s.ftable f).off + r₁) ∧
    (MAXFILE * BSIZE < (s.ftable f).off + new.length → ∀ m, m = (MAXFILE * BSIZE - (s.ftable f).off) / chunk * chunk →
      lacking sb t s.blk (s.icache k).inum (s.ftable f).off m ≤ nfree sb s.blk →
      ∃ s' t', exec (filewrite sb f src new.length r) s = (.ok (-1), s') ∧ Ready sb t' s' k ∧
        (s'.icache k).inum = (s.icache k).inum ∧
        content sb t' s'.blk (s.icache k).inum = patch (content sb t s.blk (s.icache k).inum) (s.ftable f).off (new.take m) ∧
        (t' (s.icache k).inum).size = max (t (s.icache k).inum).size ((s.ftable f).off + m) ∧
        (s'.ftable f).off = (s.ftable f).off + m) ∧
    ∀ s', exec (filewrite sb f src new.length r) s ≠ (.error .shortFilewrite, s') := by
  have hchunk : chunk = 3072 := rfl
  have hread := src_readable hsrc
  have hloop := writeLoop_fits hl hnlog hread (new.length / chunk + 1) 0 t s h hidle hfull hip hoff (Nat.zero_le _) (by
    rw [hchunk]
    omega)
  rw [Nat.sub_zero, Nat.zero_add] at hloop
  have hwrite : wp (filewrite sb f src new.length r) (fun x s' =>
      x = (if fits (s.ftable f).off new.length = new.length then (new.length : Int) else -1) ∧
        ∃ t', Chunked sb src 0 (fits (s.ftable f).off new.length) t s k f t' s') (fun e _ => e ≠ .shortFilewrite ∧
      nfree sb s.blk < lacking sb t s.blk (s.icache k).inum (s.ftable f).off (fits (s.ftable f).off new.length)) s :=
    filewrite_wp hw htype (hloop.mono (fun i s' h' => ⟨by rw [h'.1], h'.2⟩) fun _ _ => id)
  refine ⟨fun hmax hfree => ?_, fun hmax m hm hfree => ?_, fun s' he => (hwrite.error he).1 rfl⟩
  · have hfits : fits (s.ftable f).off new.length = new.length := if_pos hmax
    rw [hfits, if_pos rfl] at hwrite
    obtain ⟨x, s', he, rfl, t', c⟩ := (hwrite.mono (fun _ _ => id) fun _ _ hc => absurd hfree (by omega)).returns
    have hcontent := c.content hfull hoff (Nat.le_refl _) hsrc
    rw [take_length] at hcontent
    refine ⟨s', t', he, c.ready, c.inum, hcontent, c.size, c.off, fun r₁ s₁ h₁ => ?_⟩
    -- One `writei` leaves the same contents.
    have hone : wp (do beginOp; ilock sb k; writei sb k src (s.ftable f).off new.length) (fun r₁ s₁ => r₁ = new.length ∧
        ∃ t₁, Cached sb t₁ s₁ k ∧
          content sb t₁ s₁.blk (s.icache k).inum = patch (content sb t s.blk (s.icache k).inum) (s.ftable f).off new ∧
          (t₁ (s.icache k).inum).size = max (t (s.icache k).inum).size ((s.ftable f).off + new.length)) (fun _ _ => True) s := by
      have hbegin := begin_ilock h
      rw [wp_bind] at hbegin
      rw [wp_bind]
      refine hbegin.mono (fun _ s₀ h₀ => ?_) fun _ _ _ => trivial
      rw [wp_bind]
      refine h₀.mono (fun _ s₁ h₁ => ?_) fun _ _ _ => trivial
      have hi₁ : (s₁.icache k).inum = (s.icache k).inum := by rw [h₁.icache, update_self]
      have hgrew := writei_grew src hl (h₁.cached h) (by rw [h₁.outstanding, hidle.1]; decide) (by rw [hi₁]; exact hoff) hmax
      unfold WriteDone WriteStops at hgrew
      rw [hi₁, h₁.blk] at hgrew
      refine hgrew.mono (fun r₂ s₂ h₂ => ?_) fun _ _ _ => trivial
      obtain ⟨hr, t₂, hw, -, -, hst⟩ := h₂
      obtain ⟨hsize, hst⟩ := hst (fun bn hb => hfull bn (by omega)) hread
      exact ⟨hr, t₂, hw.cached, (hst.content hfull hoff hsize rfl hsrc).1, hsize⟩
    obtain ⟨rfl, t₁, c₁, hc₁, hs₁⟩ := hone.ok h₁
    exact ⟨rfl, t₁, c₁, hcontent.trans hc₁.symm, c.size.trans hs₁.symm, by rw [c.off]; rfl⟩
  · have hfits : fits (s.ftable f).off new.length = m := by
      rw [hm]
      exact if_neg (by omega)
    have hlt : m < new.length := by
      have := Nat.div_mul_le_self (MAXFILE * BSIZE - (s.ftable f).off) chunk
      have := hfull.size_le
      omega
    rw [hfits, if_neg (by omega)] at hwrite
    obtain ⟨x, s', he, rfl, t', c⟩ := (hwrite.mono (fun _ _ => id) fun _ _ hc => absurd hfree (by omega)).returns
    exact ⟨s', t', he, c.ready, c.inum, c.content hfull hoff (Nat.le_of_lt hlt) hsrc, c.size, c.off⟩

theorem ready_tiny : Ready tinySb (dinode tinySb tinyDisk) tinySt 0 :=
  ⟨owned_tiny, by decide, getDinode_ok _ _, by decide, rfl, fun _ => rfl, fun hv => by cases hv⟩

theorem full_tiny : Full tinySb (dinode tinySb tinyDisk) tinyDisk 2 := (files_tiny.each 2 (by decide)).full

/-- Three bytes at the end of the file of the small image. -/
theorem filewrite_tiny : ∃ s' t', exec (filewrite tinySb 0 (.kernel [1, 2, 3]) 3 0) tinySt = (.ok 3, s') ∧
    content tinySb t' s'.blk 2 = patch (content tinySb (dinode tinySb tinyDisk) tinyDisk 2) 4 [1, 2, 3] ∧
    (s'.ftable 0).off = 7 := by
  have hsrc : ∀ j < ([1, 2, 3] : List UInt8).length, (Src.kernel [1, 2, 3]).byte j = ([1, 2, 3] : List UInt8)[j]? :=
    fun _ _ => rfl
  obtain ⟨s', t', he, -, -, hc, -, hoff, -⟩ := (filewrite_in_chunks (k := 0) (f := 0) 0 layout_tiny (by decide) ready_tiny
    ⟨rfl, rfl⟩ full_tiny rfl rfl rfl (by decide +kernel) hsrc).1 (by decide) (by decide +kernel)
  exact ⟨s', t', he, hc, hoff⟩

end Chunk

end Xv6.Fs
