import Xv6.Fs.Bmap
import Xv6.Fs.Content
import Xv6.Fs.Data
/-!
# writei and readi, whatever the other inodes are like

The loops of `writei` and `readi` over `bmap`, for one inode whose blocks are
its own. What a `writei` gives to the log and takes from the free map is
bounded by the blocks that its bytes lie in and by those of them that are
missing.
-/

namespace Xv6.Fs

open Bytes Hoare Owner Function List

/-! ## What a write needs -/

/-- The blocks to allocate before `c` blocks from `bn` on can be written. -/
def needs (sb : Superblock) (t : Table) (blk : Nat → Arr) (i bn c : Nat) : Nat :=
  (List.range' bn c).countP (fun n => decide (ref sb t blk (i, dataSlot n) = 0)) +
    if 0 < c ∧ NDIRECT < bn + c ∧ (t i).addrs NDIRECT = 0 then 1 else 0

section Needs
variable {sb : Superblock} {t t₁ : Table} {s s₁ : St} {k bn b c i : Nat} {blk blk' : Nat → Arr}

theorem needs_zero : needs sb t blk i bn 0 = 0 := rfl

theorem Bmapped.needs (h : Bmapped sb t s k bn b t₁ s₁) :
    bmapCost sb t s.blk (s.icache k).inum bn + needs sb t₁ s₁.blk (s.icache k).inum (bn + 1) c ≤
      needs sb t s.blk (s.icache k).inum bn (c + 1) := by
  have hsame : (List.range' (bn + 1) c).countP (fun n => decide (ref sb t₁ s₁.blk ((s.icache k).inum, dataSlot n) = 0)) =
      (List.range' (bn + 1) c).countP (fun n => decide (ref sb t s.blk ((s.icache k).inum, dataSlot n) = 0)) := by
    refine countP_congr fun n hn => ?_
    have hn := mem_range'_1.1 hn
    rw [h.else' n (by omega)]
  have hind : (if NDIRECT ≤ bn ∧ (t (s.icache k).inum).addrs NDIRECT = 0 then 1 else 0) +
      (if 0 < c ∧ NDIRECT < bn + 1 + c ∧ (t₁ (s.icache k).inum).addrs NDIRECT = 0 then 1 else 0) ≤
      if 0 < c + 1 ∧ NDIRECT < bn + (c + 1) ∧ (t (s.icache k).inum).addrs NDIRECT = 0 then 1 else 0 := by
    by_cases hge : NDIRECT ≤ bn
    · -- An indirect block is there from now on.
      rw [if_neg (show ¬ (0 < c ∧ NDIRECT < bn + 1 + c ∧ (t₁ (s.icache k).inum).addrs NDIRECT = 0) from
        fun hc => h.reach hge hc.2.2)]
      split
      · next h1 => rw [if_pos ⟨by omega, by omega, h1.2⟩]
      · exact Nat.zero_le _
    · have hkeep : (t₁ (s.icache k).inum).addrs NDIRECT = (t (s.icache k).inum).addrs NDIRECT :=
        h.ind.resolve_right fun hc => hge hc.1
      rw [if_neg (show ¬ (NDIRECT ≤ bn ∧ (t (s.icache k).inum).addrs NDIRECT = 0) from fun hc => hge hc.1), hkeep]
      split
      · next h1 => rw [if_pos ⟨by omega, by omega, h1.2.2⟩]
      · exact Nat.zero_le _
  unfold Fs.needs bmapCost
  rw [hsame, range'_succ, countP_cons]
  simp only [decide_eq_true_eq]
  omega

theorem needs_congr (hr : ref sb t blk' = ref sb t blk) : needs sb t blk' i bn c = needs sb t blk i bn c := by
  unfold needs
  rw [hr]

theorem bmapCost_le_needs (sb : Superblock) (t : Table) (blk : Nat → Arr) (i bn c : Nat)
    : bmapCost sb t blk i bn ≤ needs sb t blk i bn (c + 1) := by
  unfold needs bmapCost
  rw [range'_succ, countP_cons]
  simp only [decide_eq_true_eq]
  split <;> split <;> split <;> omega

theorem spans_next (off : Nat) {n m : Nat} (hn : 0 < n) (hm : m = min n (BSIZE - off % BSIZE)) :
    spans off n = spans (off + m) (n - m) + 1 ∧
      (spans (off + m) (n - m) = 0 ∨ (off + m) / BSIZE = off / BSIZE + 1) := by
  have hlt : off % BSIZE < BSIZE := Nat.mod_lt _ (by decide)
  unfold spans
  rw [if_neg (show ¬ n = 0 by omega)]
  by_cases hle : n ≤ BSIZE - off % BSIZE
  · rw [Nat.min_eq_left hle] at hm
    rw [hm, Nat.sub_self, if_pos rfl]
    refine ⟨?_, .inl rfl⟩
    simp only [BSIZE] at *
    omega
  · have hle : BSIZE - off % BSIZE ≤ n := by omega
    rw [Nat.min_eq_right hle] at hm
    rw [if_neg (by omega)]
    simp only [BSIZE] at *
    omega

end Needs

/-! ## writei -/

/-- The cost of a change to the file of entry `k`: besides the indirect block, `n` blocks in the log,
and `m` blocks of the free map. -/
structure Paid (sb : Superblock) (n m : Nat) (t : Table) (s : St) (k : Nat) (t' : Table) (s' : St) : Prop where
  ind : (t (s.icache k).inum).addrs NDIRECT ≠ 0 →
    (t' (s.icache k).inum).addrs NDIRECT = (t (s.icache k).inum).addrs NDIRECT
  spent : ∃ L A : List Nat, L.length ≤ n ∧ A.length ≤ m ∧
    Spent sb (given ((t' (s.icache k).inum).addrs NDIRECT) ++ L) A s s'

section Writei
variable {sb : Superblock} {W : Nat × Nat → Prop} {t t₁ : Table} {s s₁ s₂ : St} {k n b off : Nat} {src : Src}

theorem Grew.write {bn : Nat} {a : Arr} (g : Grew sb W t s k t₁ s₁) (hl : Layout sb)
    (hr : ref sb t₁ s₁.blk ((s.icache k).inum, dataSlot bn) = b) (hb : b ≠ 0) (hW : W ((s.icache k).inum, dataSlot bn))
    (hblk : s₂.blk = update s₁.blk b a) (hic : s₂.icache = s₁.icache) :
    Grew sb W t s k t₁ s₂ ∧ ref sb t₁ s₂.blk = ref sb t₁ s₁.blk := by
  have hge : sb.nmeta ≤ b := hr ▸ (g.own.own.range _ (hr ▸ hb)).1
  obtain ⟨ho, href⟩ := g.own.write (a := a) hl hr hb
  rw [← hblk] at ho href
  refine ⟨⟨ho, g.ok, hic ▸ g.others, hic ▸ g.self, g.table, g.fields, fun i hi => ?_, href ▸ g.slot, href ▸ g.rest,
    fun x hx2 hw hx => ?_⟩, href⟩
  · rw [hblk, dinode_update hl hi (Nat.le_trans hl.bmap_le hge), g.disk i hi]
  · have hne : ref sb t s.blk x ≠ b := fun e => by
      have h1 := g.slot x hx
      refine hw (g.own.own.inj _ _ (by rw [hr]; exact hb) (hr.trans (h1.trans e).symm) ▸ hW)
    rw [hblk, update_of_ne hne, g.data x hx2 hw hx]

theorem Grew.byteAt {i o : Nat} (g : Grew sb (fun _ => False) t s k t₁ s₁)
    (h0 : ref sb t s.blk (i, dataSlot (o / BSIZE)) ≠ 0) : byteAt sb t₁ s₁.blk i o = byteAt sb t s.blk i o := by
  unfold Fs.byteAt
  rw [g.slot _ h0, g.data _ (dataSlot_ne _) id h0]

theorem Spent.data {S A : List Nat} {a : Arr} (h : Spent sb S A s s₁) (hl : Layout sb) (hb : sb.nmeta ≤ b) :
    Spent sb S A s { s₁ with blk := update s₁.blk b a } := by
  refine ⟨h.toToLog.congr (c := s.icache), fun c hc hu => h.taken c hc ?_⟩
  rw [← hu]
  exact (used_update hl hc (.inl hb)).symm

theorem Spent.join {S S' A A' : List Nat} {ind ind' : Nat} (h₁ : Spent sb (given ind ++ S) A s s₁)
    (hind : ind ≠ 0 → ind' = ind) (h₂ : Spent sb (given ind' ++ S') A' s₁ s₂) :
    Spent sb (given ind' ++ (S ++ S')) (A ++ A') s s₂ := by
  refine (h₁.trans h₂).mono (fun c hc => ?_) fun _ => id
  simp only [mem_append] at hc ⊢
  rcases hc with (hc | hc) | hc
  · by_cases h0 : ind = 0
    · rw [given, if_pos h0] at hc
      exact absurd hc not_mem_nil
    · rw [hind h0]
      exact .inl hc
  · exact .inr (.inl hc)
  · exact hc.imp_right .inr

theorem Spent.again {S A : List Nat} (h₁ : Spent sb S A s s₁) (hb : b ∈ S) (h₂ : ToLog [b] s₁ s₂)
    (hblk : s₂.blk = s₁.blk) : Spent sb S A s s₂ := by
  refine ⟨(h₁.toToLog.trans h₂).mono fun c hc => ?_, fun c hc hu => h₁.taken c hc (hblk ▸ hu)⟩
  rcases mem_append.1 hc with h | h
  · exact h
  · exact mem_singleton.1 h ▸ hb

/-- What the loop of `writei` has done from `tot` and `off` on. -/
def LoopDone (sb : Superblock) (src : Src) (n tot off : Nat) (t : Table) (s : St) (k off' : Nat) (s' : St) : Prop :=
  off ≤ off' ∧ off' ≤ off + (n - tot) ∧ ∃ t', Grew sb (fun x => x.1 = (s.icache k).inum) t s k t' s' ∧
    Paid sb (spans off (n - tot) + needs sb t s.blk (s.icache k).inum (off / BSIZE) (spans off (n - tot)))
      (needs sb t s.blk (s.icache k).inum (off / BSIZE) (spans off (n - tot))) t s k t' s' ∧
    ((∀ bn, bn * BSIZE < off → ref sb t s.blk ((s.icache k).inum, dataSlot bn) ≠ 0) → (∀ j < n, src.byte j ≠ none) →
      off' = off + (n - tot) ∧ Stored sb src tot off (n - tot) (s.icache k).inum t s.blk t' s'.blk)

theorem writeiLoop_grew (src : Src) (k n : Nat) (hl : Layout sb) : ∀ fuel tot off (t : Table) (s : St),
    Cached sb t s k → 1 ≤ s.outstanding → tot ≤ n → off + (n - tot) ≤ MAXFILE * BSIZE → spans off (n - tot) ≤ fuel →
    wp (writeiLoop sb k src n fuel tot off)
      (LoopDone sb src n tot off t s k)
      (Lacks sb ((t (s.icache k).inum).addrs NDIRECT)
        (spans off (n - tot) + needs sb t s.blk (s.icache k).inum (off / BSIZE) (spans off (n - tot)))
        (needs sb t s.blk (s.icache k).inum (off / BSIZE) (spans off (n - tot))) s) s := by
  intro fuel
  -- The loop ends when all is written.
  have hdone : ∀ tot off (t : Table) (s : St), Cached sb t s k → n - tot = 0 →
      LoopDone sb src n tot off t s k off s := by
    intro tot off t s c h0
    rw [LoopDone, h0]
    exact ⟨Nat.le_refl _, Nat.le_refl _, t, .refl c, ⟨fun _ => rfl, [], [], Nat.zero_le _, Nat.zero_le _,
      (Spent.refl s).mono (fun _ h => absurd h not_mem_nil) fun _ => id⟩, fun hcov _ => ⟨rfl, .none hcov⟩⟩
  unfold LoopDone at hdone ⊢
  induction fuel with
  | zero =>
    intro tot off t s c hop htot hmax hfuel
    refine (wp_pure _).2 (hdone tot off t s c ?_)
    by_contra hne
    have := spans_pos off (Nat.pos_of_ne_zero hne)
    omega
  | succ fuel ih =>
    intro tot off t s c hop htot hmax hfuel
    unfold writeiLoop
    rw [wp_ite]
    refine ⟨fun hlt => ?_, fun hge => (wp_pure _).2 (hdone tot off t s c (by omega))⟩
    generalize hm : min (n - tot) (BSIZE - off % BSIZE) = m
    obtain ⟨hspans, hnext⟩ := spans_next off (show 0 < n - tot by omega) hm.symm
    have hmle : m ≤ n - tot ∧ m ≤ BSIZE - off % BSIZE := by omega
    have hbn : off / BSIZE < MAXFILE := (Nat.div_lt_iff_lt_mul (by decide)).2 (by omega)
    have hrest : n - (tot + m) = n - tot - m := by omega
    generalize hc' : spans (off + m) (n - tot - m) = c' at hspans hnext
    rw [hspans]
    have hcost := bmapCost_le_needs sb t s.blk (s.icache k).inum (off / BSIZE) c'
    rw [wp_bind]
    refine (bmap_mapped hl c hop hbn).mono (fun b s₁ h₁ => ?_) fun _ _ h₁ => h₁.mono (by omega) hcost
    obtain ⟨t₁, h₁⟩ := h₁
    have hneeds := h₁.needs (c := c')
    obtain ⟨L₁, A₁, hL₁, hA₁, w₁⟩ := h₁.spent
    have hind₁ : (t (s.icache k).inum).addrs NDIRECT ≠ 0 →
        (t₁ (s.icache k).inum).addrs NDIRECT = (t (s.icache k).inum).addrs NDIRECT :=
      fun h => h₁.ind.resolve_right fun hc => h hc.2
    have g : Grew sb (fun x => x.1 = (s.icache k).inum) t s k t₁ s₁ := h₁.grew.mono fun _ => False.elim
    have hge : sb.nmeta ≤ b := h₁.here ▸ (g.own.own.range _ (h₁.here ▸ h₁.ne)).1
    dsimp only
    rw [wp_bind, wp_setBlk]
    have w₂ := w₁.data (a := blit (s₁.blk b) (off % BSIZE) (src.copyin tot m)) hl hge
    generalize hs₂ : { s₁ with blk := update s₁.blk b (blit (s₁.blk b) (off % BSIZE) (src.copyin tot m)) } = s₂ at w₂
    have hblk₂ : s₂.blk = update s₁.blk b (blit (s₁.blk b) (off % BSIZE) (src.copyin tot m)) := by rw [← hs₂]
    obtain ⟨g₂, href₂⟩ := g.write hl h₁.here h₁.ne rfl hblk₂ (by rw [← hs₂])
    rw [wp_ite]
    refine ⟨fun hshort => ?_, fun _ => ?_⟩
    · -- `either_copyin` fails: what it got is in the block, and the block is not logged.
      refine (wp_pure _).2 ⟨Nat.le_refl _, Nat.le_add_right _ _, t₁, g₂, ⟨hind₁, b :: L₁, A₁, ?_, ?_, w₂⟩, fun _ hsrc => ?_⟩
      · rw [length_cons]
        omega
      · omega
      · have : (src.copyin tot m).length = m := Src.length_copyin fun j hj => hsrc _ (by omega)
        omega
    · have hop₂ : 1 ≤ s₂.outstanding := w₂.outstanding ▸ hop
      rw [wp_bind]
      refine (logWrite_toLog b hop₂).mono (fun _ s₃ h₃ => ?_) fun _ s₃ h₃ => ?_
      · obtain ⟨l₃, hblk₃, hic₃⟩ := h₃
        have g₃ := g₂.log hblk₃ hic₃
        have hi₃ := g₃.inum
        have w₃ := w₂.again (mem_append_right _ mem_cons_self) l₃ hblk₃
        have hneeds₃ : needs sb t₁ s₃.blk (s.icache k).inum ((off + m) / BSIZE) c' ≤
            needs sb t₁ s₁.blk (s.icache k).inum (off / BSIZE + 1) c' := by
          rcases hnext with h0 | h1
          · rw [h0, needs_zero, needs_zero]
          · rw [h1, hblk₃, needs_congr href₂]
        have hih := ih (tot + m) (off + m) t₁ s₃ (g₃.cached c) (l₃.outstanding ▸ hop₂) (by omega) (by omega)
          (by rw [hrest]; omega)
        rw [hi₃, hrest, hc'] at hih
        refine hih.mono (fun off' s₄ h₄ => ?_) fun _ s₄ h₄ => ?_
        · obtain ⟨hlo, hhi, t₄, g₄, p₄, hst⟩ := h₄
          obtain ⟨hind₄, L₄, A₄, hL₄, hA₄, w₄⟩ := p₄
          rw [hi₃] at hind₄ w₄
          refine ⟨by omega, by omega, t₄, g₃.trans g₄, ⟨fun h => ?_, (b :: L₁) ++ L₄, A₁ ++ A₄, ?_, ?_, w₃.join hind₄ w₄⟩,
            fun hcov hsrc => ?_⟩
          · rw [← hind₁ h]
            exact hind₄ (hind₁ h ▸ h)
          · rw [length_append, length_cons]
            omega
          · rw [length_append]
            omega
          · have hone : Stored sb src tot off m (s.icache k).inum t s.blk t₁ s₃.blk := by
              rw [hblk₃, hblk₂]
              exact Stored.block g.own g.slot (fun o ho => h₁.grew.byteAt ho) hcov h₁.here h₁.ne hmle.2
                fun j hj => hsrc _ (by omega)
            obtain ⟨hoff, hst⟩ := hst hone.has hsrc
            have hall := hone.trans hst
            rw [show m + (n - tot - m) = n - tot by omega] at hall
            exact ⟨by omega, hall⟩
        · refine (Lacks.after w₃ hind₁ h₄).mono ?_ (by omega)
          rw [length_cons]
          omega
      · obtain ⟨l₃, -, he⟩ := h₃
        refine ⟨⟨_, b :: L₁, hind₁, ?_, (w₂.toToLog.trans l₃).mono fun c hc => ?_⟩, .inl he⟩
        · rw [length_cons]
          omega
        · rcases mem_append.1 hc with h | h
          · rcases mem_append.1 h with h | h
            · exact mem_cons.2 (.inl (mem_given h))
            · exact mem_cons_of_mem _ h
          · exact mem_cons_of_mem _ (mem_singleton.1 h ▸ mem_cons_self)

/-- What a `writei` of entry `k` leaves: a file that may be longer, and all others as they were. -/
structure Rewrote (sb : Superblock) (t : Table) (s : St) (k : Nat) (t' : Table) (s' : St) : Prop where
  cached : Cached sb t' s' k
  others : ∀ j, j ≠ k → s'.icache j = s.icache j
  self : s'.icache k = { s.icache k with di := t' (s.icache k).inum }
  table : ∀ i, i ≠ (s.icache k).inum → t' i = t i
  fields : t' (s.icache k).inum = { t (s.icache k).inum with
    size := (t' (s.icache k).inum).size, addrs := (t' (s.icache k).inum).addrs }
  disk : ∀ i < sb.ninodes, i ≠ (s.icache k).inum → dinode sb s'.blk i = dinode sb s.blk i
  slot : ∀ x, ref sb t s.blk x ≠ 0 → ref sb t' s'.blk x = ref sb t s.blk x
  rest : ∀ x, x.1 ≠ (s.icache k).inum → ref sb t' s'.blk x = ref sb t s.blk x
  data : ∀ x, x.2 ≠ NDIRECT → x.1 ≠ (s.icache k).inum → ref sb t s.blk x ≠ 0 →
    s'.blk (ref sb t s.blk x) = s.blk (ref sb t s.blk x)

theorem Rewrote.inum (r : Rewrote sb t s k t₁ s₁) : (s₁.icache k).inum = (s.icache k).inum := by rw [r.self]

theorem iupdate_toLog (sb : Superblock) (k : Nat) (hop : 1 ≤ s.outstanding) :
    wp (iupdate sb k) (fun _ s' => s'.icache = s.icache ∧
      s'.blk = update s.blk (sb.iblock (s.icache k).inum)
        (putDinode (s.blk (sb.iblock (s.icache k).inum)) ((s.icache k).inum % IPB) (s.icache k).di) ∧
      ToLog [sb.iblock (s.icache k).inum] s s')
      (fun e s' => ToLog [sb.iblock (s.icache k).inum] s s' ∧ s'.lh = s.lh ∧ e = .tooBig ∧ LogFull sb s') s := by
  unfold iupdate
  rw [wp_bind, wp_get]
  dsimp only
  rw [wp_bind, wp_setBlk]
  refine wp.mono (logWrite_toLog _ hop) (fun _ s' h' => ?_) fun _ s' h' => ?_
  · obtain ⟨w, hblk, hic⟩ := h'
    exact ⟨hic, hblk, w.congr (c := s.icache) (y := s'.blk) (d := s'.icache)⟩
  · exact ⟨h'.1.congr (c := s.icache) (y := s'.blk) (d := s'.icache), h'.2⟩

theorem Grew.rewrote {x : Dinode} (g : Grew sb (fun x => x.1 = (s.icache k).inum) t s k t₁ s₁) (hl : Layout sb)
    (hi : (s.icache k).inum < sb.ninodes) (hx : x = { t₁ (s.icache k).inum with size := x.size }) (hok : x.Ok)
    (hic : s₂.icache = update s₁.icache k { s₁.icache k with di := x })
    (hblk : s₂.blk = update s₁.blk (sb.iblock (s.icache k).inum)
      (putDinode (s₁.blk (sb.iblock (s.icache k).inum)) ((s.icache k).inum % IPB) x)) :
    Rewrote sb t s k (update t₁ (s.icache k).inum x) s₂ ∧ dinode sb s₂.blk (s.icache k).inum = x := by
  have hxa : x.addrs = (t₁ (s.icache k).inum).addrs := by rw [hx]
  have hin := hl.inodes _ hi
  obtain ⟨ho, href⟩ := (g.own.set hxa).inodes (a := putDinode (s₁.blk (sb.iblock (s.icache k).inum))
    ((s.icache k).inum % IPB) x) hl hin
  rw [← hblk] at ho href
  replace href := href.trans (ref_set hxa)
  have hself : s₂.icache k = { s.icache k with di := x } := by rw [hic, update_self, g.self]
  have hdisk : ∀ i, dinode sb s₂.blk i = if i = (s.icache k).inum then x else dinode sb s₁.blk i := by
    intro i
    rw [hblk, dinode_put _ _ hok]
  refine ⟨⟨⟨ho, ?_, ?_, ?_⟩, fun j hj => ?_, ?_, fun i hne => ?_, ?_, fun i hi hne => ?_, ?_, ?_, fun y hy2 hy1 hy => ?_⟩, ?_⟩
  · rw [hself]
    exact hi
  · rw [hself, update_self]
  · rw [hself, update_self]
    exact hok
  · rw [hic, update_of_ne hj, g.others j hj]
  · rw [hself, update_self]
  · rw [update_of_ne hne, g.table i hne]
  · rw [update_self, hx, g.fields]
  · rw [hdisk, if_neg hne, g.disk i hi]
  · rw [href]
    exact g.slot
  · rw [href]
    exact g.rest
  · have hlt : sb.iblock (s.icache k).inum < sb.nmeta := Nat.lt_of_lt_of_le hin hl.bmap_le
    have hge := (g.own.own.range y (by rw [g.slot y hy]; exact hy)).1
    rw [g.slot y hy] at hge
    rw [hblk, update_of_ne (by omega), g.data y hy2 (fun h => hy1 h) hy]
  · rw [hdisk, if_pos rfl]

/-- The blocks that a `writei` has to allocate. -/
def lacking (sb : Superblock) (t : Table) (blk : Nat → Arr) (i off n : Nat) : Nat :=
  needs sb t blk i (off / BSIZE) (spans off n)

/-- What a `writei` has done when it returns. -/
def WriteDone (sb : Superblock) (src : Src) (off n : Nat) (t : Table) (s : St) (k : Nat) (t' : Table) (s' : St) : Prop :=
  Rewrote sb t s k t' s' ∧
  (∃ S A : List Nat, S.length ≤ spans off n + lacking sb t s.blk (s.icache k).inum off n + 2 ∧
    A.length ≤ lacking sb t s.blk (s.icache k).inum off n ∧ Spent sb S A s s') ∧
  (0 < n → dinode sb s'.blk (s.icache k).inum = t' (s.icache k).inum) ∧
  ((∀ bn, bn * BSIZE < off → ref sb t s.blk ((s.icache k).inum, dataSlot bn) ≠ 0) → (∀ j < n, src.byte j ≠ none) →
    (t' (s.icache k).inum).size = max (t (s.icache k).inum).size (off + n) ∧
    Stored sb src 0 off n (s.icache k).inum t s.blk t' s'.blk)

/-- Where a `writei` stops. -/
def WriteStops (sb : Superblock) (off n : Nat) (t : Table) (s : St) (k : Nat) (e : Stop) (s' : St) : Prop :=
  Lacks sb ((t (s.icache k).inum).addrs NDIRECT) (spans off n + lacking sb t s.blk (s.icache k).inum off n + 1)
    (lacking sb t s.blk (s.icache k).inum off n) s e s' ∧
  s'.lh.length ≤ s.lh.length + (spans off n + lacking sb t s.blk (s.icache k).inum off n + 1)

/-- A `writei` within the limits. The last block that it gives to the log is that of the inode. -/
theorem writei_grew (src : Src) (hl : Layout sb) (c : Cached sb t s k) (hop : 1 ≤ s.outstanding)
    (hoff : off ≤ (t (s.icache k).inum).size) (hmax : off + n ≤ MAXFILE * BSIZE) :
    wp (writei sb k src off n) (fun r s' => r = n ∧ ∃ t', WriteDone sb src off n t s k t' s')
      (WriteStops sb off n t s k) s := by
  have hbig : MAXFILE * BSIZE = 274432 := rfl
  have hmod : (off + n) % 2 ^ 32 = off + n := Nat.mod_eq_of_lt (by omega)
  have hloop := writeiLoop_grew src k n hl (n / BSIZE + 2) 0 off t s c hop (Nat.zero_le n) (by omega) (spans_le off n)
  unfold LoopDone at hloop
  rw [Nat.sub_zero] at hloop
  unfold writei WriteDone WriteStops lacking
  simp only [wp_bind, wp_get, wp_ite, wp_pure, c.di, hmod]
  refine ⟨fun hc => absurd hc (by omega), fun _ => ⟨fun hc => absurd hc (by omega), fun _ => ?_⟩⟩
  refine hloop.mono (fun off' s₁ h₁ => ?_) fun _ _ h₁ => ⟨h₁.mono (Nat.le_succ _) (Nat.le_refl _), ?_⟩
  swap
  · obtain ⟨x, S, -, hS, hlog⟩ := h₁.calls
    have := hlog.length_le
    rw [length_cons] at this
    omega
  obtain ⟨hlo, hhi, t₁, g, ⟨hind, L, A, hL, hA, w⟩, hst⟩ := h₁
  have hi₁ := g.inum
  have hdi₁ : (s₁.icache k).di = t₁ (s.icache k).inum := by rw [g.self]
  have hsize₁ : (t₁ (s.icache k).inum).size = (t (s.icache k).inum).size := by rw [g.fields]
  -- The inode is written back, with whichever size.
  have hend : ∀ (x : Dinode) (s₂ : St), x = { t₁ (s.icache k).inum with size := x.size } → x.Ok →
      s₂ = { s₁ with icache := update s₁.icache k { s₁.icache k with di := x } } →
      (off' = off + n → x.size = max (t (s.icache k).inum).size (off + n)) →
      wp (iupdate sb k) (fun _ s' => ∃ t', WriteDone sb src off n t s k t' s') (WriteStops sb off n t s k) s₂ := by
    unfold WriteDone WriteStops lacking
    intro x s₂ hx hok hs₂ hsize
    have hic₂ : s₂.icache = update s₁.icache k { s₁.icache k with di := x } := by rw [hs₂]
    have hblk₂ : s₂.blk = s₁.blk := by rw [hs₂]
    have hk₂ : s₂.icache k = { s.icache k with di := x } := by rw [hic₂, update_self, g.self]
    have w₂ : Spent sb (given ((t₁ (s.icache k).inum).addrs NDIRECT) ++ L) A s s₂ := by
      rw [hs₂]
      exact w.icache
    have hup := iupdate_toLog (s := s₂) sb k (w₂.outstanding ▸ hop)
    rw [hk₂, hblk₂] at hup
    refine hup.mono (fun _ s₃ h₃ => ?_) fun _ s₃ h₃ => ?_
    · obtain ⟨hic₃, hblk₃, l₃⟩ := h₃
      obtain ⟨hrw, hdisk⟩ := g.rewrote hl c.lt hx hok (hic₃.trans hic₂) hblk₃
      refine ⟨_, hrw, ⟨given ((t₁ (s.icache k).inum).addrs NDIRECT) ++ L ++ [sb.iblock (s.icache k).inum], A, ?_, hA,
        w₂.toToLog.trans l₃, fun b hb hu => w₂.taken b hb ?_⟩, fun _ => ?_, fun hcov hsrc => ?_⟩
      · have hgiven := length_given ((t₁ (s.icache k).inum).addrs NDIRECT)
        rw [length_append, length_append, length_singleton]
        omega
      · rw [hblk₃, used_update hl hb (.inr (hl.inodes _ c.lt))] at hu
        rw [hblk₂]
        exact hu
      · rw [hdisk, update_self]
      · obtain ⟨hoff', hst⟩ := hst hcov hsrc
        have hxa : x.addrs = (t₁ (s.icache k).inum).addrs := by rw [hx]
        refine ⟨by rw [update_self]; exact hsize hoff', ?_⟩
        rw [hblk₃]
        exact (hst.set hxa).inodes hl (g.own.set hxa) (hl.inodes _ c.lt)
    · obtain ⟨l₃, hlh, he⟩ := h₃
      refine ⟨⟨⟨_, L ++ [sb.iblock (s.icache k).inum], hind, ?_, (w₂.toToLog.trans l₃).mono fun b hb => ?_⟩, .inl he⟩, ?_⟩
      · rw [length_append, length_singleton]
        omega
      · rw [append_assoc, mem_append] at hb
        exact mem_cons.2 (hb.imp_left mem_given)
      · have := w₂.toToLog.length_le
        have hgiven := length_given ((t₁ (s.icache k).inum).addrs NDIRECT)
        rw [length_append] at this
        rw [hlh]
        omega
  refine ⟨fun hn => ⟨fun hgt => ?_, fun hle => ?_⟩, fun h0 => ⟨trivial, t₁, ?_⟩⟩
  · rw [wp_setDi, hdi₁]
    refine (hend { t₁ (s.icache k).inum with size := off' } _ rfl ?_ rfl fun h => ?_).imp fun _ s₃ h₃ => ⟨trivial, h₃⟩
    · exact { g.ok with size := Nat.lt_of_le_of_lt hhi (by omega) }
    · dsimp only
      omega
  · refine (hend (t₁ (s.icache k).inum) s₁ rfl g.ok ?_ fun h => ?_).imp fun _ s₃ h₃ => ⟨trivial, h₃⟩
    · rw [← hdi₁, update_eq_self]
    · rw [hsize₁]
      omega
  · have hn : n = 0 := by omega
    subst hn
    have hc₁ := g.cached c
    refine ⟨⟨hc₁, g.others, g.self, g.table, ?_, fun i hi _ => g.disk i hi, g.slot, g.rest, fun x hx2 hx1 hx => g.data x hx2 hx1 hx⟩,
      ⟨_, A, ?_, hA, w⟩, fun h => absurd h (Nat.lt_irrefl 0), fun hcov hsrc => ⟨?_, (hst hcov hsrc).2⟩⟩
    · rw [g.fields]
    · have hgiven := length_given ((t₁ (s.icache k).inum).addrs NDIRECT)
      rw [length_append]
      omega
    · rw [hsize₁]
      omega

end Writei

/-! ## writei, with the inode cache -/

/-- A write of `n` bytes at `off` to a directory is one entry that names an inode. -/
def EntryOnly (sb : Superblock) (src : Src) (n off : Nat) : Prop :=
  ∃ l, src = .kernel l ∧ l.length = DESIZE ∧ n = DESIZE ∧ off % DESIZE = 0 ∧ (Dirent.ofBytes l).inum < sb.ninodes

section Cache
variable {sb : Superblock} {t t' : Table} {blk blk' : Nat → Arr} {s s' : St} {i k n o off : Nat} {src : Src}

theorem dirInum_byteAt (ho : o % DESIZE = 0) :
    dirInum sb t blk i o = (byteAt sb t blk i o).toNat + 256 * (byteAt sb t blk i (o + 1)).toNat := by
  have h1 : (o + 1) / BSIZE = o / BSIZE ∧ (o + 1) % BSIZE = o % BSIZE + 1 := by
    simp only [BSIZE, DESIZE] at *
    omega
  unfold dirInum le16 byteAt
  rw [h1.1, h1.2]

theorem Stored.dirInum_lt (h : Stored sb src 0 off n i t blk t' blk') (he : EntryOnly sb src n off) (ho : o % DESIZE = 0)
    (hold : o ≠ off → ref sb t blk (i, dataSlot (o / BSIZE)) ≠ 0 ∧ dirInum sb t blk i o < sb.ninodes) :
    dirInum sb t' blk' i o < sb.ninodes := by
  obtain ⟨l, rfl, hlen, rfl, hoff, hin⟩ := he
  have hD : DESIZE = 16 := rfl
  rw [dirInum_byteAt ho]
  by_cases e : o = off
  · have hnew : ∀ j < DESIZE, byteAt sb t' blk' i (off + j) = l.getD j 0 := fun j hj => by
      have := h.new j hj
      rw [Nat.zero_add, Src.byte, getElem?_eq_getElem (by omega)] at this
      rw [Option.some.inj this, getD_eq_getElem?_getD, getElem?_eq_getElem (by omega)]
      rfl
    rw [e, hnew 1 (by decide), ← Nat.add_zero off, hnew 0 (by decide)]
    exact hin
  · obtain ⟨hr, hlt⟩ := hold e
    have hblock : (o + 1) / BSIZE = o / BSIZE := by
      simp only [BSIZE, DESIZE] at *
      omega
    have hout : (o < off ∨ off + DESIZE ≤ o) ∧ (o + 1 < off ∨ off + DESIZE ≤ o + 1) := by
      rw [hD] at ho hoff ⊢
      omega
    rw [h.old o hr hout.1, h.old (o + 1) (hblock ▸ hr) hout.2, ← dirInum_byteAt ho]
    exact hlt

theorem Rewrote.written (r : Rewrote sb t s k t' s') (h : Inv sb none t s) (hk : Live s k)
    (hdisk : dinode sb s'.blk (s.icache k).inum = t' (s.icache k).inum)
    (hf : FileOk sb t' s'.blk (s.icache k).inum) : Written sb none t s k t' s' := by
  have hT : (t' (s.icache k).inum).type = (t (s.icache k).inum).type := by rw [r.fields]
  have ht : t' = update t (s.icache k).inum (t' (s.icache k).inum) := by
    funext i
    by_cases e : i = (s.icache k).inum
    · rw [e, update_self]
    · rw [update_of_ne e, r.table i e]
  have hic : s'.icache = update s.icache k { s.icache k with di := t' (s.icache k).inum } := by
    funext j
    by_cases e : j = k
    · rw [e, update_self, r.self]
    · rw [update_of_ne e, r.others j e]
  have hfiles : Files sb t' s'.blk := by
    refine ⟨r.cached.own, fun i hi => ?_⟩
    by_cases e : i = (s.icache k).inum
    · rw [e]
      exact hf
    · exact (h.files.each i hi).same (r.table i e) (fun j => r.rest (i, j) e) fun j hj => r.data (i, j) hj e
  have hinv : Inv sb (some (s.icache k).inum) t' s' := by
    have := h.change hk (fun _ e => by cases e) hic (ht ▸ hfiles) r.disk (by rw [hT]; exact h.type hk)
    rwa [← ht] at this
  exact ⟨hinv.settled hdisk, r.others, r.self, r.table, by rw [r.fields]⟩

/-- `writei`, of bytes that can be read and that do not go beyond the largest file. -/
theorem writei_stored (hl : Layout sb) (h : Inv sb none t s) (hk : Live s k) (hop : 1 ≤ s.outstanding) (hn : 0 < n)
    (hoff : off ≤ (t (s.icache k).inum).size) (hmax : off + n ≤ MAXFILE * BSIZE) (hsrc : ∀ j < n, src.byte j ≠ none)
    (hdir : (t (s.icache k).inum).type = T_DIR → EntryOnly sb src n off) :
    wp (writei sb k src off n) (fun r s' => r = n ∧ ∃ t', Rewrote sb t s k t' s' ∧ Written sb none t s k t' s' ∧
      (t' (s.icache k).inum).size = max (t (s.icache k).inum).size (off + n) ∧
      Stored sb src 0 off n (s.icache k).inum t s.blk t' s'.blk ∧ Wrote (fun _ => True) 0 s s') (fun _ _ => True) s := by
  have hf := h.files.each _ (h.inum hk)
  have c : Cached sb t s k := ⟨h.files.toOwned, h.inum hk, h.di hk, hf.ok⟩
  refine (writei_grew src hl c hop hoff hmax).mono (fun r s' h' => ?_) fun _ _ _ => trivial
  obtain ⟨rfl, t', hr, ⟨S, A, -, -, w⟩, hdisk, hst⟩ := h'
  obtain ⟨hsize, hst⟩ := hst (fun bn hbn => hf.full bn (by omega)) hsrc
  have hT : (t' (s.icache k).inum).type = (t (s.icache k).inum).type := by rw [hr.fields]
  have hf' : FileOk sb t' s'.blk (s.icache k).inum := by
    refine ⟨hr.inum ▸ hr.cached.ok, ?_, fun bn hbn => ?_, fun h0 => absurd (hT ▸ h0) (h.type hk), fun hd o ho hos => ?_⟩
    · have := hf.size
      omega
    · by_cases hlt : bn * BSIZE < (t (s.icache k).inum).size
      · rw [hst.slot _ (hf.full bn hlt)]
        exact hf.full bn hlt
      · exact hst.has bn (by omega)
    · have he := hdir (hT ▸ hd)
      refine hst.dirInum_lt he ho fun hne => ?_
      obtain ⟨l, -, -, hn16, hoff16, -⟩ := he
      have hold : o + DESIZE ≤ (t (s.icache k).inum).size := by
        rw [hsize] at hos
        simp only [DESIZE] at *
        omega
      exact ⟨hf.full _ (entry_block hold), hf.dirs (hT ▸ hd) o ho hold⟩
  exact ⟨rfl, t', hr, hr.written h hk (hdisk hn) hf', hsize, hst, w.toToLog.wrote⟩

end Cache

/-! ## readi -/

/-- Whether byte `j` of what is read can be stored. -/
def Dst.takes : Dst → Nat → Bool
  | .kernel, _ => true
  | .user mapped addr, j => mapped ((addr + j) % 2 ^ 64)

section Readi
variable {sb : Superblock} {t : Table} {s : St} {k n off : Nat} {dst : Dst}

theorem Dst.copyout_all {tot : Nat} {src : List UInt8} (h : ∀ j < src.length, dst.takes (tot + j) = true) :
    dst.copyout tot src = src := by
  cases dst with
  | kernel => rfl
  | user mapped addr =>
    have hall : ((List.range src.length).takeWhile fun i => mapped ((addr + tot + i) % 2 ^ 64)) = List.range src.length := by
      refine takeWhile_eq_self_iff.2 fun j hj => ?_
      have := h j (mem_range.1 hj)
      rwa [Dst.takes, ← Nat.add_assoc] at this
    rw [Dst.copyout, hall, length_range, take_length]

theorem grab_byteAt (sb : Superblock) (t : Table) (blk : Nat → Arr) (i : Nat) {m : Nat} (hm : m ≤ BSIZE - off % BSIZE) :
    grab (blk (ref sb t blk (i, dataSlot (off / BSIZE)))) (off % BSIZE) m =
      (List.range m).map fun j => byteAt sb t blk i (off + j) := by
  unfold grab byteAt
  refine map_congr_left fun j hj => ?_
  have hj := mem_range.1 hj
  have h1 : (off + j) / BSIZE = off / BSIZE ∧ (off + j) % BSIZE = off % BSIZE + j := by
    simp only [BSIZE] at *
    omega
  rw [h1.1, h1.2]

theorem readiLoop_bytes (c : Cached sb t s k)
    (hfull : ∀ bn, bn * BSIZE < (t (s.icache k).inum).size → ref sb t s.blk ((s.icache k).inum, dataSlot bn) ≠ 0)
    (hdst : ∀ j < n, dst.takes j = true) : ∀ fuel tot off out, tot ≤ n →
    off + (n - tot) ≤ (t (s.icache k).inum).size → spans off (n - tot) ≤ fuel →
      wp (readiLoop sb k dst n fuel tot off out) (fun r s' => s' = s ∧ r = (n, out ++
        (List.range (n - tot)).map fun j => byteAt sb t s.blk (s.icache k).inum (off + j))) (fun _ _ => False) s := by
  intro fuel
  induction fuel with
  | zero =>
    intro tot off out htot _ hfuel
    have h0 : n - tot = 0 := by
      by_contra hne
      have := spans_pos off (Nat.pos_of_ne_zero hne)
      omega
    refine (wp_pure _).2 ⟨rfl, ?_⟩
    rw [h0, show tot = n by omega]
    simp
  | succ fuel ih =>
    intro tot off out htot hle hfuel
    unfold readiLoop
    rw [wp_ite]
    refine ⟨fun hlt => ?_, fun hge => (wp_pure _).2 ⟨rfl, ?_⟩⟩
    · generalize hm : min (n - tot) (BSIZE - off % BSIZE) = m
      obtain ⟨hspans, -⟩ := spans_next off (show 0 < n - tot by omega) hm.symm
      have hmle : m ≤ n - tot ∧ m ≤ BSIZE - off % BSIZE := by omega
      refine (c.bmap_found (hfull _ (block_lt (show off < _ by omega)))).seq ?_
      rintro b s' ⟨rfl, rfl⟩
      rw [wp_bind, wp_get]
      dsimp only
      rw [grab_byteAt sb t s'.blk _ hmle.2, Dst.copyout_all (fun j hj => hdst _ (by
        rw [length_map, length_range] at hj
        omega)), length_map, length_range, if_neg (Nat.lt_irrefl m)]
      refine (ih (tot + m) (off + m) _ (by omega) (by omega) (by rw [show n - (tot + m) = n - tot - m by omega]; omega)).imp fun r s' hr => ⟨hr.1, ?_⟩
      rw [hr.2, append_assoc, show n - tot = m + (n - (tot + m)) by omega, range_add, map_append, map_map]
      simp only [Function.comp_def, Nat.add_assoc]
    · rw [show n - tot = 0 by omega, show tot = n by omega]
      simp

theorem readi_bytes (dst : Dst) (off : Nat) (c : Cached sb t s k)
    (hfull : ∀ bn, bn * BSIZE < (t (s.icache k).inum).size → ref sb t s.blk ((s.icache k).inum, dataSlot bn) ≠ 0)
    (hn : n < 2 ^ 32) (hdst : ∀ j < n, dst.takes j = true) :
    wp (readi sb k dst off n) (fun r s' => s' = s ∧ r =
      if (t (s.icache k).inum).size < off ∨ 2 ^ 32 ≤ off + n then (0, []) else
        (min n ((t (s.icache k).inum).size - off), (List.range (min n ((t (s.icache k).inum).size - off))).map fun j =>
          byteAt sb t s.blk (s.icache k).inum (off + j))) (fun _ _ => False) s := by
  have hsize := c.ok.size
  unfold readi
  simp only [wp_bind, wp_get, wp_ite, wp_pure, c.di]
  refine ⟨fun hc => ?_, fun hc => ?_⟩
  · rw [if_pos (by omega)]
    exact ⟨trivial, rfl⟩
  · have hsum : off + n < 2 ^ 32 := by
      by_contra hge
      omega
    have hcount : (if (off + n) % 2 ^ 32 > (t (s.icache k).inum).size then (t (s.icache k).inum).size - off else n) =
        min n ((t (s.icache k).inum).size - off) := by
      rw [Nat.mod_eq_of_lt hsum]
      split <;> omega
    rw [hcount, if_neg (by omega)]
    refine (readiLoop_bytes c hfull (fun j hj => hdst j (by omega)) _ 0 off [] (Nat.zero_le _) (by omega) ?_).imp fun r s' hr => hr
    rw [Nat.sub_zero]
    exact spans_le _ _

end Readi

end Xv6.Fs
