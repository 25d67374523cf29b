import Xv6.Fs.Content
/-!
# itrunc

`itrunc` gives the blocks of a file back one after the other. While it does,
the slots it has been to count as empty: those of the indirect block still
hold their numbers until the block itself is given back.
-/

namespace Xv6.Fs

open Bytes Hoare Owner Function

section Trunc
variable {sb : Superblock} {D : Option Nat} {t : Table} {s s' : St} {k i j b : Nat} {P : Nat → Bool}

/-- The references, but for the slots `P` of inode `i`. -/
def mask (i : Nat) (P : Nat → Bool) (f : Nat × Nat → Nat) (x : Nat × Nat) : Nat := if x.1 = i ∧ P x.2 then 0 else f x

/-- The slots `P` of inode `i` have been given back. -/
structure Freed (sb : Superblock) (t : Table) (s : St) (i : Nat) (P : Nat → Bool) (s' : St) : Prop where
  own : Own (mask i P (ref sb t s.blk)) (fun b => used sb s'.blk b = true) sb.nmeta sb.size
  below : ∀ b < sb.nmeta, used sb s'.blk b = true
  map : ∀ c, c < sb.bmapstart ∨ sb.nmeta ≤ c → s'.blk c = s.blk c
  wrote : Wrote (IsBitmap sb) 0 s s'

theorem mask_none (f : Nat × Nat → Nat) : mask i (fun _ => false) f = f := by
  funext x
  exact if_neg fun h => Bool.false_ne_true h.2

theorem Freed.start (h : Owned sb t s.blk) : Freed sb t s i (fun _ => false) s := by
  refine ⟨?_, h.below, fun _ _ => rfl, .refl _ s⟩
  rw [mask_none]
  exact h.own

theorem Freed.icache (f : Freed sb t s i P s') {x : Nat → Inode} : Freed sb t s i P { s' with icache := x } :=
  ⟨f.own, f.below, f.map, f.wrote.icache⟩

theorem Freed.skip {P' : Nat → Bool} (f : Freed sb t s i P s') (hP : ∀ j, P j = true → P' j = true)
    (h0 : ∀ j, P' j = true → P j = false → ref sb t s.blk (i, j) = 0) : Freed sb t s i P' s' := by
  have hm : mask i P' (ref sb t s.blk) = mask i P (ref sb t s.blk) := by
    funext ⟨i', j⟩
    unfold mask
    by_cases hi : i' = i
    · subst hi
      by_cases hp : P j = true
      · rw [if_pos ⟨rfl, hP j hp⟩, if_pos ⟨rfl, hp⟩]
      · by_cases hp' : P' j = true
        · rw [if_pos ⟨rfl, hp'⟩, if_neg fun h => hp h.2, h0 j hp' (Bool.eq_false_iff.2 hp)]
        · rw [if_neg fun h => hp' h.2, if_neg fun h => hp h.2]
    · rw [if_neg fun h => hi h.1, if_neg fun h => hi h.1]
  refine { f with own := ?_ }
  rw [hm]
  exact f.own

theorem Freed.free {P' : Nat → Bool} (hl : Layout sb) (f : Freed sb t s i P s') (hop : 1 ≤ s.outstanding)
    (hb : ref sb t s.blk (i, j) = b) (h0 : b ≠ 0) (hj : P j = false) (hP : ∀ j', P' j' = (P j' || decide (j' = j))) :
    wp (bfree sb b) (fun _ s₁ => Freed sb t s i P' s₁ ∧ s₁.icache = s'.icache) (Stopped (IsBitmap sb) 0 s) s' := by
  have hx : mask i P (ref sb t s.blk) (i, j) = b := by
    unfold mask
    rw [if_neg fun h => absurd (hj.symm.trans h.2) (by decide), hb]
  have hm : mask i P' (ref sb t s.blk) = update (mask i P (ref sb t s.blk)) (i, j) 0 := by
    funext ⟨i', j'⟩
    by_cases he : (i', j') = (i, j)
    · obtain ⟨rfl, rfl⟩ := Prod.mk.inj he
      rw [update_self]
      exact if_pos ⟨rfl, by rw [hP, decide_eq_true rfl, Bool.or_true]⟩
    · rw [update_of_ne he]
      unfold mask
      by_cases hi : i' = i
      · subst hi
        have hne : j' ≠ j := fun e => he (by rw [e])
        rw [hP, decide_eq_false hne, Bool.or_false]
      · rw [if_neg fun h => hi h.1, if_neg fun h => hi h.1]
  have hr := f.own.range (i, j) (by rw [hx]; exact h0)
  have hu := f.own.inUse (x := (i, j)) (by rw [hx]; exact h0)
  rw [hx] at hr hu
  refine (bfree_spec hr.2 hu (f.wrote.outstanding ▸ hop)).mono (fun _ s₁ h₁ => ?_) fun e s₁ h₁ => Stopped.after f.wrote h₁
  obtain ⟨hblk, hic, w⟩ := h₁
  have hused : ∀ c, used sb s₁.blk c = (used sb s'.blk c && !decide (c = b)) := fun c => by
    rw [hblk]
    exact used_clear b c
  refine ⟨⟨?_, fun c hc => ?_, fun c hc => ?_, f.wrote.trans w⟩, hic⟩
  · rw [hm]
    refine f.own.free hl.meta_pos (by rw [hx]; exact h0) fun c _ _ => ?_
    rw [hused, hx, Bool.and_eq_true, Bool.not_eq_true', decide_eq_false_iff_not]
  · rw [hused, f.below c hc, decide_eq_false (by omega)]
    rfl
  · have h1 := hl.bits b hr.2
    have h2 := le_bblock sb b
    rw [hblk, ← f.map c hc]
    exact update_of_ne (by omega) _ _

/-- The slots before `m`. -/
def upto (m : Nat) (j : Nat) : Bool := decide (j < m)

/-- The direct slots, and those of the first `e` of the indirect block. -/
def uptoInd (e : Nat) (j : Nat) : Bool := decide (j < NDIRECT ∨ NDIRECT < j ∧ j < NDIRECT + 1 + e)

/-- The cached inode in the loop over the direct blocks. -/
def Dinode.cut (x : Dinode) (m : Nat) : Dinode := { x with addrs := fun j => if j < m then 0 else x.addrs j }

theorem Dinode.cut_step (x : Dinode) (m : Nat) : (x.cut m).setAddr m 0 = x.cut (m + 1) := by
  unfold Dinode.cut Dinode.setAddr
  congr 1
  funext j
  by_cases he : j = m
  · rw [he, update_self, if_pos (Nat.lt_succ_self m)]
  · rw [update_of_ne he]
    dsimp only
    by_cases hlt : j < m
    · rw [if_pos hlt, if_pos (by omega)]
    · rw [if_neg hlt, if_neg (by omega)]

theorem Dinode.cut_addr (x : Dinode) (m : Nat) : (x.cut m).addrs m = x.addrs m := if_neg (Nat.lt_irrefl m)

theorem Dinode.setAddr_self {x : Dinode} {m b : Nat} (h : x.addrs m = b) : x.setAddr m b = x := by
  unfold Dinode.setAddr
  rw [← h, update_eq_self]

theorem truncDirect_spec (hl : Layout sb) (h : Inv sb D t s) (hk : Live s k) (hop : 1 ≤ s.outstanding) :
    wp (truncDirect sb k) (fun _ s' => Freed sb t s (s.icache k).inum (upto NDIRECT) s' ∧
      s'.icache = update s.icache k { s.icache k with di := (t (s.icache k).inum).cut NDIRECT })
      (Stopped (IsBitmap sb) 0 s) s := by
  have hi := h.inum hk
  unfold truncDirect
  refine wp_forM_range (I := fun m s' => Freed sb t s (s.icache k).inum (upto m) s' ∧
    s'.icache = update s.icache k { s.icache k with di := (t (s.icache k).inum).cut m }) ⟨?_, ?_⟩ ?_
  · exact (Freed.start h.files.toOwned).skip (fun _ h => h) fun j h1 _ => absurd (of_decide_eq_true h1) (Nat.not_lt_zero j)
  · have hcut : (t (s.icache k).inum).cut 0 = (s.icache k).di := by
      rw [h.di hk]
      rfl
    rw [hcut]
    exact (update_eq_self k s.icache).symm
  · rintro m hm s₁ ⟨hf, hic⟩
    have haddr : (s₁.icache k).di.addrs m = (t (s.icache k).inum).addrs m := by
      rw [hic, update_self]
      exact Dinode.cut_addr _ m
    have hslot : ref sb t s.blk ((s.icache k).inum, m) = (t (s.icache k).inum).addrs m := ref_addr _ hi (Nat.le_of_lt hm)
    have hstep : ∀ j, upto (m + 1) j = (upto m j || decide (j = m)) := fun j => by
      unfold upto
      rw [← Bool.decide_or]
      exact decide_eq_decide.2 (by omega)
    rw [wp_bind, wp_get]
    simp only [haddr]
    rw [wp_ite]
    refine ⟨fun hne => ?_, fun h0 => ?_⟩
    · refine (hf.free hl hop hslot hne (decide_eq_false (Nat.lt_irrefl m)) hstep).seq ?_
      rintro _ s₂ ⟨hf₂, hic₂⟩
      unfold setAddr
      rw [wp_setDi]
      refine ⟨hf₂.icache, ?_⟩
      show update s₂.icache k _ = _
      rw [hic₂, hic, update_self, update_idem, ← Dinode.cut_step]
      rfl
    · have h0 : (t (s.icache k).inum).addrs m = 0 := by
        by_contra hne
        exact h0 hne
      refine (wp_pure _).2 ⟨hf.skip (fun j hj => by rw [hstep, hj, Bool.true_or]) fun j h1 h2 => ?_, ?_⟩
      · rw [hstep, h2, Bool.false_or] at h1
        rw [of_decide_eq_true h1, hslot, h0]
      · have hcut : ((t (s.icache k).inum).cut m).addrs m = 0 := (Dinode.cut_addr _ m).trans h0
        rw [hic, ← Dinode.cut_step, Dinode.setAddr_self hcut]

theorem truncIndirect_spec {ind : Nat} (hl : Layout sb) (h : Inv sb D t s) (hi : i < sb.ninodes)
    (hop : 1 ≤ s.outstanding) (hind : (t i).addrs NDIRECT = ind) (h0 : ind ≠ 0) (hf : Freed sb t s i (upto NDIRECT) s') :
    wp (truncIndirect sb ind) (fun _ s₁ => Freed sb t s i (uptoInd NINDIRECT) s₁ ∧ s₁.icache = s'.icache)
      (Stopped (IsBitmap sb) 0 s) s' := by
  have hge : sb.nmeta ≤ ind := by
    rw [← hind, ← ref_addr s.blk hi (Nat.le_refl _)] at h0 ⊢
    exact (h.files.own.range _ h0).1
  unfold truncIndirect
  refine wp_forM_range (I := fun e s₁ => Freed sb t s i (uptoInd e) s₁ ∧ s₁.icache = s'.icache) ⟨?_, rfl⟩ ?_
  · refine hf.skip (fun j hj => ?_) fun j h1 h2 => ?_
    · have := of_decide_eq_true hj
      exact decide_eq_true (.inl this)
    · have h1 := of_decide_eq_true h1
      have h2 := of_decide_eq_false h2
      omega
  · rintro e he s₁ ⟨hf₁, hic₁⟩
    have hslot : ref sb t s.blk (i, NDIRECT + 1 + e) = le32 (s₁.blk ind) (4 * e) := by
      rw [hf₁.map ind (.inr hge)]
      unfold ref
      rw [if_pos hi, if_neg (by omega), hind, if_pos ⟨h0, by omega⟩, show NDIRECT + 1 + e - NDIRECT - 1 = e by omega]
    have hstep : ∀ j, uptoInd (e + 1) j = (uptoInd e j || decide (j = NDIRECT + 1 + e)) := fun j => by
      unfold uptoInd
      rw [← Bool.decide_or]
      exact decide_eq_decide.2 (by omega)
    rw [wp_bind, wp_get, wp_ite]
    refine ⟨fun hne => ?_, fun hz => ?_⟩
    · have hout : uptoInd e (NDIRECT + 1 + e) = false := decide_eq_false (by omega)
      refine (hf₁.free hl hop hslot hne hout hstep).imp fun _ s₂ h₂ => ?_
      exact ⟨h₂.1, h₂.2.trans hic₁⟩
    · have hz : le32 (s₁.blk ind) (4 * e) = 0 := by
        by_contra hne
        exact hz hne
      refine (wp_pure _).2 ⟨hf₁.skip (fun j hj => by rw [hstep, hj, Bool.true_or]) fun j h1 h2 => ?_, hic₁⟩
      rw [hstep, h2, Bool.false_or] at h1
      rw [of_decide_eq_true h1, hslot, hz]

/-- An inode without blocks. -/
def Dinode.emptied (x : Dinode) : Dinode := { x with size := 0, addrs := fun _ => 0 }

theorem ref_emptied (h : Files sb t s.blk) (hmap : ∀ c, c < sb.bmapstart ∨ sb.nmeta ≤ c → s'.blk c = s.blk c) :
    ref sb (update t i (t i).emptied) s'.blk = mask i (fun _ => true) (ref sb t s.blk) := by
  funext ⟨i', j⟩
  unfold mask
  by_cases hi : i' = i
  · subst hi
    rw [if_pos ⟨rfl, rfl⟩]
    unfold ref
    simp [Dinode.emptied]
  · rw [if_neg fun h => hi h.1]
    unfold ref
    simp only [update_of_ne hi]
    by_cases hn : i' < sb.ninodes
    · rw [if_pos hn, if_pos hn]
      by_cases hj : j ≤ NDIRECT
      · rw [if_pos hj, if_pos hj]
      · rw [if_neg hj, if_neg hj]
        by_cases hc : (t i').addrs NDIRECT ≠ 0 ∧ j ≤ NDIRECT + NINDIRECT
        · have hge : sb.nmeta ≤ (t i').addrs NDIRECT := by
            have h0 := hc.1
            rw [← ref_addr s.blk hn (Nat.le_refl _)] at h0 ⊢
            exact (h.own.range _ h0).1
          rw [if_pos hc, if_pos hc, hmap _ (.inr hge)]
        · rw [if_neg hc, if_neg hc]
    · rw [if_neg hn, if_neg hn]

theorem Freed.files {P : Nat → Bool} (h : Files sb t s.blk) (hi : i < sb.ninodes) (f : Freed sb t s i P s')
    (hP : ∀ j, P j = false → ref sb t s.blk (i, j) = 0) :
    Files sb (update t i (t i).emptied) s'.blk := by
  have f : Freed sb t s i (fun _ => true) s' := f.skip (fun _ _ => rfl) fun j _ => hP j
  have hr := ref_emptied (i := i) h f.map
  refine ⟨⟨?_, f.below⟩, fun j hj => ?_⟩
  · rw [hr]
    exact f.own
  · by_cases e : j = i
    · subst e
      refine .empty ?_ ?_ fun a => ?_
      · rw [update_self]
        exact { (h.each j hj).ok with size := Nat.two_pow_pos 32, addrs := fun _ => Nat.two_pow_pos 32, last := fun _ _ => rfl }
      · rw [update_self]
        rfl
      · rw [hr]
        exact if_pos ⟨rfl, rfl⟩
    · refine (h.each j hj).same (update_of_ne e _ _) (fun a => ?_) fun a _ ha => ?_
      · rw [hr]
        exact if_neg fun h => e h.1
      · exact f.map _ (.inr (h.own.range _ ha).1)

theorem ref_beyond (hi : i < sb.ninodes) (h0 : (t i).addrs NDIRECT = 0) (hj : NDIRECT ≤ j) (blk : Nat → Arr) :
    ref sb t blk (i, j) = 0 := by
  unfold ref
  rw [if_pos hi]
  by_cases he : j ≤ NDIRECT
  · rw [if_pos he, show j = NDIRECT by omega, h0]
  · rw [if_neg he, if_neg fun h => h.1 h0]

theorem ref_last (hj : NDIRECT + NINDIRECT < j) (t : Table) (blk : Nat → Arr) : ref sb t blk (i, j) = 0 := by
  unfold ref
  by_cases hi : i < sb.ninodes
  · rw [if_pos hi, if_neg (by omega), if_neg fun h => absurd h.2 (by omega)]
  · rw [if_neg hi]

theorem itrunc_spec (hl : Layout sb) (h : Inv sb D t s) (hk : Live s k) (hD : ∀ i, D = some i → i = (s.icache k).inum)
    (hop : 1 ≤ s.outstanding) :
    wp (itrunc sb k) (fun _ s' =>
      Written sb none t s k (update t (s.icache k).inum (t (s.icache k).inum).emptied) s' ∧
      Wrote (Meta sb (s.icache k).inum) 0 s s' ∧ ∀ c, sb.nmeta ≤ c → s'.blk c = s.blk c)
      (Stopped (Meta sb (s.icache k).inum) 0 s) s := by
  have hi := h.inum hk
  -- The end of `itrunc`: all slots are given back, and the size goes.
  have hend : ∀ (P : Nat → Bool) s₁ x, Freed sb t s (s.icache k).inum P s₁ →
      (∀ j, P j = false → ref sb t s.blk ((s.icache k).inum, j) = 0) →
      s₁.icache = update s.icache k { s.icache k with di := x } →
      { x with size := 0 } = (t (s.icache k).inum).emptied →
      wp (iupdate sb k)
        (fun _ s' => Written sb none t s k (update t (s.icache k).inum (t (s.icache k).inum).emptied) s' ∧
          Wrote (Meta sb (s.icache k).inum) 0 s s' ∧ ∀ c, sb.nmeta ≤ c → s'.blk c = s.blk c)
        (Stopped (Meta sb (s.icache k).inum) 0 s)
        { s₁ with icache := update s₁.icache k { s₁.icache k with di := { (s₁.icache k).di with size := 0 } } } := by
    intro P s₁ x hf hP hic hx
    generalize hs₂ : { s₁ with icache := update s₁.icache k { s₁.icache k with di := { (s₁.icache k).di with size := 0 } } } = s₂
    have hic₂ : s₂.icache = update s.icache k { s.icache k with di := (t (s.icache k).inum).emptied } := by
      rw [← hs₂]
      show update s₁.icache k _ = _
      rw [hic, update_self, update_idem, ← hx]
    have hblk₂ : s₂.blk = s₁.blk := by rw [← hs₂]
    have w₂ : Wrote (Meta sb (s.icache k).inum) 0 s s₂ := by
      rw [← hs₂]
      exact (hf.wrote.icache).mono (fun _ => .inl) (Nat.le_refl 0)
    have hfiles := hf.files h.files hi hP
    have hd : ∀ i < sb.ninodes, dinode sb s₂.blk i = dinode sb s.blk i := fun i hi => by
      unfold dinode
      rw [hblk₂, hf.map _ (.inl (hl.inodes i hi))]
    have hinv : Inv sb _ _ s₂ := h.change hk hD hic₂ (by rw [hblk₂]; exact hfiles) (fun i hi _ => hd i hi) (h.type hk)
    have hw : Written sb (some (s.icache k).inum) t s k
        (update t (s.icache k).inum (t (s.icache k).inum).emptied) s₂ := by
      refine ⟨hinv, fun j hj => ?_, ?_, fun i hne => update_of_ne hne _ _, ?_⟩
      · rw [hic₂, update_of_ne hj]
      · rw [hic₂, update_self, update_self]
      · rw [update_self]
        rfl
    have hin₂ : (s₂.icache k).inum = (s.icache k).inum := by rw [hic₂, update_self]
    have hop₂ : 1 ≤ s₂.outstanding := w₂.outstanding ▸ hop
    refine ((hw.iupdate hl hk hop₂).and (iupdate_spec sb k hop₂)).mono (fun _ s₃ h₃ => ?_) fun e s₃ h₃ => ?_
    · obtain ⟨⟨hw₃, w₃⟩, -, hblk₃, -⟩ := h₃
      refine ⟨hw₃, w₂.trans (w₃.mono (fun _ => .inr) (Nat.le_refl 0)), fun c hc => ?_⟩
      have h1 := hl.inodes _ hi
      have h2 := hl.bmap_le
      rw [hblk₃, hin₂, update_of_ne (by omega), hblk₂]
      exact hf.map c (.inr hc)
    · exact Stopped.after w₂ (h₃.1.mono (fun _ => .inr) (Nat.le_refl 0))
  unfold itrunc
  rw [wp_bind]
  refine (truncDirect_spec hl h hk hop).mono (fun _ s₁ h₁ => ?_) fun e s₁ h₁ => h₁.mono (fun _ => .inl) (Nat.le_refl 0)
  obtain ⟨hf₁, hic₁⟩ := h₁
  have hind : (s₁.icache k).di.addrs NDIRECT = (t (s.icache k).inum).addrs NDIRECT := by
    rw [hic₁, update_self]
    exact Dinode.cut_addr _ NDIRECT
  have hok := (h.files.each _ hi).ok
  simp only [wp_bind, wp_get, wp_ite, wp_setDi, hind]
  refine ⟨fun hne => ?_, fun h0 => ?_⟩
  · refine (truncIndirect_spec hl h hi hop rfl hne hf₁).mono (fun _ s₂ h₂ => ?_)
      fun e s₂ h₂ => h₂.mono (fun _ => .inl) (Nat.le_refl 0)
    obtain ⟨hf₂, hic₂⟩ := h₂
    have hstep : ∀ j, (fun j => decide (j < NDIRECT + 1 + NINDIRECT)) j = (uptoInd NINDIRECT j || decide (j = NDIRECT)) :=
      fun j => by
        unfold uptoInd
        rw [← Bool.decide_or]
        exact decide_eq_decide.2 (by omega)
    refine (hf₂.free hl hop (ref_addr _ hi (Nat.le_refl _)) hne (decide_eq_false (by omega)) hstep).mono
      (fun _ s₃ h₃ => ?_) fun e s₃ h₃ => h₃.mono (fun _ => .inl) (Nat.le_refl 0)
    obtain ⟨hf₃, hic₃⟩ := h₃
    unfold setAddr
    rw [wp_setDi]
    refine hend _ _ (((t (s.icache k).inum).cut NDIRECT).setAddr NDIRECT 0) hf₃.icache (fun j hj => ref_last ?_ t s.blk) ?_ ?_
    · have := of_decide_eq_false hj
      omega
    · show update s₃.icache k _ = _
      rw [hic₃, hic₂, hic₁, update_self, update_idem]
      rfl
    · rw [Dinode.cut_step]
      unfold Dinode.cut Dinode.emptied
      congr 1
      funext j
      by_cases hj : j < NDIRECT + 1
      · exact if_pos hj
      · exact (if_neg hj).trans (hok.last j (by omega))
  · have h0 : (t (s.icache k).inum).addrs NDIRECT = 0 := by
      by_contra hne
      exact h0 hne
    refine hend _ _ ((t (s.icache k).inum).cut NDIRECT) hf₁ (fun j hj => ref_beyond hi h0 ?_ s.blk) hic₁ ?_
    · have := of_decide_eq_false hj
      omega
    · unfold Dinode.cut Dinode.emptied
      congr 1
      funext j
      by_cases hj : j < NDIRECT
      · exact if_pos hj
      · refine (if_neg hj).trans ?_
        by_cases he : j = NDIRECT
        · rw [he, h0]
        · exact hok.last j (by omega)

end Trunc

end Xv6.Fs
