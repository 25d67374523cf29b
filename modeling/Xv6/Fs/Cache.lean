import Xv6.Fs.Trunc
/-!
# References and locks of cached inodes

What `iget`, `idup`, `ilock`, `iunlock`, `iput` and `ialloc` do to the
reference counts and to the inodes. `Stays P` is what a holder of a reference
relies on: the entry stays the same inode, of the same type. `Effect` is what
one piece of code does for its caller, and composes.
-/

namespace Xv6.Fs

open Bytes Hoare Owner Function

/-- The entries `P` stay in use, for the same inodes. -/
structure Stays (P : Nat → Prop) (t : Table) (s : St) (t' : Table) (s' : St) : Prop where
  ref : ∀ k, P k → 0 < (s'.icache k).ref
  dev : ∀ k, P k → (s'.icache k).dev = (s.icache k).dev
  inum : ∀ k, P k → (s'.icache k).inum = (s.icache k).inum
  valid : ∀ k, P k → (s.icache k).valid = true → (s'.icache k).valid = true
  type : ∀ k, P k → (t' (s.icache k).inum).type = (t (s.icache k).inum).type

/-- The entries in use. -/
def InUse (s : St) (k : Nat) : Prop := k < NINODE ∧ 0 < (s.icache k).ref

/-- The counts are the same, but for `d` more references to `k`. -/
def Counts (s : St) (k : Nat) (d : Int) (s' : St) : Prop :=
  ∀ j, (s'.icache j).ref = (s.icache j).ref + if j = k then d else 0

section Stays
variable {P Q : Nat → Prop} {t t₁ t₂ : Table} {s s₁ s₂ : St} {k : Nat}

theorem Stays.trans (h₁ : Stays P t s t₁ s₁) (h₂ : Stays Q t₁ s₁ t₂ s₂) (hPQ : ∀ k, P k → Q k) : Stays P t s t₂ s₂ where
  ref k hk := h₂.ref k (hPQ k hk)
  dev k hk := (h₂.dev k (hPQ k hk)).trans (h₁.dev k hk)
  inum k hk := (h₂.inum k (hPQ k hk)).trans (h₁.inum k hk)
  valid k hk hv := h₂.valid k (hPQ k hk) (h₁.valid k hk hv)
  type k hk := by
    have h := h₂.type k (hPQ k hk)
    rw [h₁.inum k hk] at h
    exact h.trans (h₁.type k hk)

theorem Stays.mono (h : Stays Q t s t₁ s₁) (hPQ : ∀ k, P k → Q k) : Stays P t s t₁ s₁ :=
  ⟨fun k hk => h.ref k (hPQ k hk), fun k hk => h.dev k (hPQ k hk), fun k hk => h.inum k (hPQ k hk),
    fun k hk => h.valid k (hPQ k hk), fun k hk => h.type k (hPQ k hk)⟩

theorem Stays.inUse (h : Stays (InUse s) t s t₁ s₁) (hk : InUse s k) : InUse s₁ k := ⟨hk.1, h.ref k hk⟩

theorem Stays.live (h : Stays (InUse s) t s t₁ s₁) (hk : Live s k) : Live s₁ k :=
  ⟨hk.lt, h.ref k ⟨hk.lt, hk.ref⟩, h.valid k ⟨hk.lt, hk.ref⟩ hk.valid⟩

theorem Stays.refl (t : Table) (s : St) : Stays (InUse s) t s t s :=
  ⟨fun _ hk => hk.2, fun _ _ => rfl, fun _ _ => rfl, fun _ _ h => h, fun _ _ => rfl⟩

end Stays

/-! ## iget, idup -/

section Iget
variable {sb : Superblock} {D : Option Nat} {t : Table} {s : St} {k inum : Nat} {E : Stop → St → Prop}

/-- Entry `k` has one more reference; that is all. -/
structure Took (sb : Superblock) (D : Option Nat) (t : Table) (s : St) (k : Nat) (s' : St) : Prop where
  inv : Inv sb D t s'
  lt : k < NINODE
  counts : Counts s k 1 s'
  stays : Stays (InUse s) t s t s'
  blk : s'.blk = s.blk
  wrote : Wrote (fun _ => False) 0 s s'

theorem counts_update {x : Inode} {d : Int} (h : x.ref = (s.icache k).ref + d) :
    Counts s k d { s with icache := update s.icache k x } := fun j => by
  show (update s.icache k x j).ref = _
  by_cases e : j = k
  · rw [e, update_self, if_pos rfl, h]
  · rw [update_of_ne e, if_neg e, Int.add_zero]

theorem wrote_icache (S : Nat → Prop) (s : St) (x : Nat → Inode) : Wrote S 0 s { s with icache := x } :=
  (Wrote.refl S s).icache

theorem Inv.took (h : Inv sb D t s) (hk : InUse s k) :
    Took sb D t s k { s with icache := update s.icache k { s.icache k with ref := (s.icache k).ref + 1 } } := by
  generalize hs : { s with icache := update s.icache k { s.icache k with ref := (s.icache k).ref + 1 } } = s'
  have hsame : ∀ j, (s'.icache j).dev = (s.icache j).dev ∧ (s'.icache j).inum = (s.icache j).inum ∧
      (s'.icache j).valid = (s.icache j).valid ∧ (s'.icache j).di = (s.icache j).di := fun j => by
    rw [← hs]
    show (update s.icache k _ j).dev = _ ∧ _
    by_cases e : j = k
    · rw [e]
      simp only [update_self, and_self]
    · simp only [update_of_ne e, and_self]
  have hcounts : Counts s k 1 s' := by
    rw [← hs]
    exact counts_update rfl
  have href : ∀ j, 0 < (s'.icache j).ref → 0 < (s.icache j).ref := fun j hj => by
    by_cases e : j = k
    · rw [e]
      exact hk.2
    · rwa [hcounts j, if_neg e, Int.add_zero] at hj
  refine ⟨⟨?_, ?_, fun j => ?_, fun j hj hr => ?_, fun j hj j' hj' hr hr' e => ?_, fun j hj hr hv => ?_⟩, hk.1, hcounts,
    ⟨fun j hj => ?_, fun j _ => (hsame j).1, fun j _ => (hsame j).2.1, fun j _ hv => (hsame j).2.2.1 ▸ hv, fun _ _ => rfl⟩, ?_, ?_⟩
  · rw [← hs]
    exact h.files
  · rw [← hs]
    exact h.disk
  · rw [hcounts j]
    have := h.nonneg j
    split <;> omega
  · rw [(hsame j).1, (hsame j).2.1]
    exact h.cached j hj (href j hr)
  · rw [(hsame j).2.1, (hsame j').2.1] at e
    exact h.uniq j hj j' hj' (href j hr) (href j' hr') e
  · rw [(hsame j).2.1, (hsame j).2.2.2]
    exact h.copy j hj (href j hr) ((hsame j).2.2.1 ▸ hv)
  · rw [hcounts j]
    have := hj.2
    split <;> omega
  · rw [← hs]
  · rw [← hs]
    exact wrote_icache _ s _

theorem Inv.recycled (h : Inv sb D t s) (hk : k < NINODE) (h0 : (s.icache k).ref = 0) (hi : inum < sb.ninodes)
    (hnone : ∀ j < NINODE, 0 < (s.icache j).ref → (s.icache j).inum ≠ inum) :
    Took sb D t s k { s with icache := update s.icache k (.mk ROOTDEV inum 1 (s.icache k).lock false (s.icache k).di) } := by
  generalize hs : { s with icache := update s.icache k (.mk ROOTDEV inum 1 (s.icache k).lock false (s.icache k).di) } = s'
  have hself : s'.icache k = .mk ROOTDEV inum 1 (s.icache k).lock false (s.icache k).di := by
    rw [← hs]
    exact update_self ..
  have hother : ∀ j, j ≠ k → s'.icache j = s.icache j := fun j hj => by
    rw [← hs]
    exact update_of_ne hj _ _
  have hcounts : Counts s k 1 s' := by
    rw [← hs]
    exact counts_update (by rw [h0]; rfl)
  have hne : ∀ j, 0 < (s.icache j).ref → j ≠ k := fun j hj e => by
    rw [e, h0] at hj
    exact absurd hj (Int.lt_irrefl 0)
  refine ⟨⟨?_, ?_, fun j => ?_, fun j hj hr => ?_, fun j hj j' hj' hr hr' e => ?_, fun j hj hr hv => ?_⟩, hk, hcounts,
    ⟨fun j hj => ?_, fun j hj => ?_, fun j hj => ?_, fun j hj hv => ?_, fun _ _ => rfl⟩, ?_, ?_⟩
  · rw [← hs]
    exact h.files
  · rw [← hs]
    exact h.disk
  · rw [hcounts j]
    have := h.nonneg j
    split <;> omega
  · by_cases e : j = k
    · rw [e, hself]
      exact ⟨rfl, hi⟩
    · rw [hother j e] at hr ⊢
      exact h.cached j hj hr
  · by_cases ej : j = k <;> by_cases ej' : j' = k
    · rw [ej, ej']
    · rw [ej, hself, hother j' ej'] at e
      rw [hother j' ej'] at hr'
      exact absurd e.symm (hnone j' hj' hr')
    · rw [ej', hself, hother j ej] at e
      rw [hother j ej] at hr
      exact absurd e (hnone j hj hr)
    · rw [hother j ej, hother j' ej'] at e
      rw [hother j ej] at hr
      rw [hother j' ej'] at hr'
      exact h.uniq j hj j' hj' hr hr' e
  · by_cases e : j = k
    · rw [e, hself] at hv
      exact absurd hv Bool.false_ne_true
    · rw [hother j e] at hr hv ⊢
      exact h.copy j hj hr hv
  · rw [hother j (hne j hj.2)]
    exact hj.2
  · rw [hother j (hne j hj.2)]
  · rw [hother j (hne j hj.2)]
  · rwa [hother j (hne j hj.2)]
  · rw [← hs]
  · rw [← hs]
    exact wrote_icache _ s _

theorem iget_spec (h : Inv sb D t s) (hi : inum < sb.ninodes) :
    wp (iget ROOTDEV inum) (fun k s' => Took sb D t s k s' ∧ (s'.icache k).inum = inum)
      (Stopped (fun _ => False) 0 s) s := by
  unfold iget
  rw [wp_bind, wp_get]
  split
  · next k hf =>
    have hlt : k < NINODE := List.mem_range.1 (List.mem_of_find?_eq_some hf)
    have hfound : 0 < (s.icache k).ref ∧ (s.icache k).dev = ROOTDEV ∧ (s.icache k).inum = inum := by
      simpa using List.find?_some hf
    obtain ⟨hr, -, hin⟩ := hfound
    rw [wp_bind, wp_setInode, wp_pure]
    refine ⟨h.took ⟨hlt, hr⟩, ?_⟩
    show (update s.icache k _ k).inum = inum
    rw [update_self]
    exact hin
  · next hf =>
    have hnone : ∀ j < NINODE, 0 < (s.icache j).ref → (s.icache j).inum ≠ inum := fun j hj hr e => by
      have := List.find?_eq_none.1 hf j (List.mem_range.2 hj)
      exact this (decide_eq_true ⟨hr, (h.cached j hj hr).1, e⟩)
    split
    · next k hf' =>
      have hlt : k < NINODE := List.mem_range.1 (List.mem_of_find?_eq_some hf')
      have h0 : (s.icache k).ref = 0 := by simpa using List.find?_some hf'
      rw [wp_bind, wp_setInode, wp_pure]
      refine ⟨h.recycled hlt h0 hi hnone, ?_⟩
      show (update s.icache k _ k).inum = inum
      rw [update_self]
    · rw [wp_throw]
      exact ⟨.refl _ s, by decide, by decide⟩

end Iget

/-! ## ilock, iunlock -/

section Ilock
variable {sb : Superblock} {t : Table} {s : St} {k : Nat}

/-- Sleep-locks apart, the references and the inodes are as before. -/
structure Calm (sb : Superblock) (t : Table) (s s' : St) : Prop where
  inv : Inv sb none t s'
  refs : ∀ j, (s'.icache j).ref = (s.icache j).ref
  stays : Stays (InUse s) t s t s'
  blk : s'.blk = s.blk
  wrote : Wrote (fun _ => False) 0 s s'

theorem Inv.calm {x : Inode} (h : Inv sb none t s) (hdev : x.dev = (s.icache k).dev)
    (hin : x.inum = (s.icache k).inum) (href : x.ref = (s.icache k).ref)
    (hv : (s.icache k).valid = true → x.valid = true)
    (hdi : x.valid = true → x.di = t x.inum ∧ (t x.inum).type ≠ 0) :
    Calm sb t s { s with icache := update s.icache k x } := by
  generalize hs : { s with icache := update s.icache k x } = s'
  have hself : s'.icache k = x := by
    rw [← hs]
    exact update_self ..
  have hother : ∀ j, j ≠ k → s'.icache j = s.icache j := fun j hj => by
    rw [← hs]
    exact update_of_ne hj _ _
  have hhead : ∀ j, (s'.icache j).ref = (s.icache j).ref ∧ (s'.icache j).dev = (s.icache j).dev ∧
      (s'.icache j).inum = (s.icache j).inum := fun j => by
    by_cases e : j = k
    · rw [e, hself]
      exact ⟨href, hdev, hin⟩
    · rw [hother j e]
      exact ⟨rfl, rfl, rfl⟩
  refine ⟨⟨?_, ?_, fun j => ?_, fun j hj hr => ?_, fun j hj j' hj' hr hr' e => ?_, fun j hj hr hv' => ?_⟩, fun j => (hhead j).1,
    ⟨fun j hj => ?_, fun j _ => (hhead j).2.1, fun j _ => (hhead j).2.2, fun j _ hv' => ?_, fun _ _ => rfl⟩, ?_, ?_⟩
  · rw [← hs]
    exact h.files
  · rw [← hs]
    exact h.disk
  · rw [(hhead j).1]
    exact h.nonneg j
  · rw [(hhead j).2.1, (hhead j).2.2]
    exact h.cached j hj ((hhead j).1 ▸ hr)
  · rw [(hhead j).2.2, (hhead j').2.2] at e
    exact h.uniq j hj j' hj' ((hhead j).1 ▸ hr) ((hhead j').1 ▸ hr') e
  · by_cases e : j = k
    · rw [e, hself] at hv' ⊢
      exact hdi hv'
    · rw [hother j e] at hr hv' ⊢
      exact h.copy j hj hr hv'
  · rw [(hhead j).1]
    exact hj.2
  · by_cases e : j = k
    · rw [e, hself]
      exact hv (e ▸ hv')
    · rwa [hother j e]
  · rw [← hs]
  · rw [← hs]
    exact wrote_icache _ s _

theorem iunlock_spec (h : Inv sb none t s) (hk : InUse s k) :
    wp (iunlock k) (fun _ => Calm sb t s) (Stopped (fun _ => False) 0 s) s := by
  unfold iunlock releasesleep
  simp only [wp_bind, wp_get, wp_ite, wp_throw, wp_setInode]
  refine ⟨fun _ => ⟨.refl _ s, by decide, by decide⟩, fun _ => ?_⟩
  exact h.calm rfl rfl rfl id fun hv => h.copy k hk.1 hk.2 hv

end Ilock

/-! ## iput -/

section Iput
variable {sb : Superblock} {t : Table} {s : St} {k : Nat}

/-- `iput` drops the last reference to an inode without links. -/
def Frees (t : Table) (s : St) (k : Nat) : Prop :=
  (s.icache k).ref = 1 ∧ (s.icache k).valid = true ∧ (t (s.icache k).inum).nlink = 0

def Dinode.freed (x : Dinode) : Dinode := { x.emptied with type := 0 }

/-- Entry `k` has one reference less; its inode may have been freed. -/
structure Put (sb : Superblock) (t : Table) (s : St) (k : Nat) (t' : Table) (s' : St) : Prop where
  inv : Inv sb none t' s'
  counts : Counts s k (-1) s'
  stays : Stays (fun j => InUse s j ∧ (j = k → 1 < (s.icache k).ref)) t s t' s'
  done : (t' = t ∧ s'.blk = s.blk ∧ Wrote (fun _ => False) 0 s s') ∨
    (Frees t s k ∧ t' = Function.update t (s.icache k).inum (t (s.icache k).inum).freed ∧
      Wrote (Meta sb (s.icache k).inum) 0 s s')

/-- An entry of the cache is dropped: its count goes down, or it goes out of use. -/
theorem Inv.dropped {t' : Table} (s' : St) (h : Inv sb none t s) (hk : InUse s k) (hf : Files sb t' s'.blk)
    (hd : ∀ i < sb.ninodes, dinode sb s'.blk i = t' i) (hother : ∀ j, j ≠ k → s'.icache j = s.icache j)
    (href : (s'.icache k).ref = (s.icache k).ref - 1)
    (hself : 1 < (s.icache k).ref → s'.icache k = { s.icache k with ref := (s.icache k).ref - 1 } ∧
      t' (s.icache k).inum = t (s.icache k).inum)
    (ht : ∀ i, i ≠ (s.icache k).inum → t' i = t i) :
    Inv sb none t' s' ∧ Stays (fun j => InUse s j ∧ (j = k → 1 < (s.icache k).ref)) t s t' s' := by
  have hpos : 0 < (s'.icache k).ref → 1 < (s.icache k).ref := by omega
  have hne : ∀ j < NINODE, j ≠ k → 0 < (s.icache j).ref → (s.icache j).inum ≠ (s.icache k).inum := fun j hj e hr he =>
    e (h.uniq j hj k hk.1 hr hk.2 he)
  have hkeep : ∀ j, InUse s j ∧ (j = k → 1 < (s.icache k).ref) → 0 < (s'.icache j).ref ∧
      (s'.icache j).dev = (s.icache j).dev ∧ (s'.icache j).inum = (s.icache j).inum ∧
      (s'.icache j).valid = (s.icache j).valid ∧ t' (s.icache j).inum = t (s.icache j).inum := fun j hj => by
    by_cases e : j = k
    · subst e
      have h1 := hj.2 rfl
      obtain ⟨he, hte⟩ := hself h1
      refine ⟨by omega, ?_, ?_, ?_, hte⟩ <;> rw [he]
    · rw [hother j e]
      exact ⟨hj.1.2, rfl, rfl, rfl, ht _ (hne j hj.1.1 e hj.1.2)⟩
  refine ⟨⟨hf, fun i hi _ => hd i hi, fun j => ?_, fun j hj hr => ?_, fun j hj j' hj' hr hr' e => ?_, fun j hj hr hv => ?_⟩,
    ⟨fun j hj => (hkeep j hj).1, fun j hj => (hkeep j hj).2.1, fun j hj => (hkeep j hj).2.2.1,
      fun j hj hv => (hkeep j hj).2.2.2.1 ▸ hv, fun j hj => by rw [(hkeep j hj).2.2.2.2]⟩⟩
  · by_cases e : j = k
    · have := hk.2
      rw [e, href]
      omega
    · rw [hother j e]
      exact h.nonneg j
  · by_cases e : j = k
    · subst e
      rw [(hself (hpos hr)).1]
      exact h.cached j hj hk.2
    · rw [hother j e] at hr ⊢
      exact h.cached j hj hr
  · by_cases ej : j = k <;> by_cases ej' : j' = k
    · rw [ej, ej']
    · subst ej
      rw [(hself (hpos hr)).1, hother j' ej'] at e
      rw [hother j' ej'] at hr'
      exact absurd e.symm (hne j' hj' ej' hr')
    · subst ej'
      rw [(hself (hpos hr')).1, hother j ej] at e
      rw [hother j ej] at hr
      exact absurd e (hne j hj ej hr)
    · rw [hother j ej, hother j' ej'] at e
      rw [hother j ej] at hr
      rw [hother j' ej'] at hr'
      exact h.uniq j hj j' hj' hr hr' e
  · by_cases e : j = k
    · subst e
      obtain ⟨he, hte⟩ := hself (hpos hr)
      rw [he] at hv ⊢
      dsimp only at hv ⊢
      rw [hte]
      exact h.copy j hj hk.2 hv
    · rw [hother j e] at hr hv ⊢
      rw [ht _ (hne j hj e hr)]
      exact h.copy j hj hr hv

theorem ref_none {i : Nat} {t : Table} (h : ∀ j, (t i).addrs j = 0) (blk : Nat → Arr) (j : Nat) :
    ref sb t blk (i, j) = 0 := by
  unfold ref
  simp [h]

theorem Files.freed {blk : Nat → Arr} {i : Nat} (h : Files sb (update t i (t i).emptied) blk)
    (hi : i < sb.ninodes) : Files sb (update t i (t i).freed) blk := by
  rw [← update_idem]
  have hf := h.each i hi
  refine Files.set h.toOwned (fun j hj _ => h.each j hj) ?_ (.empty ?_ ?_ fun j => ?_)
  · rw [update_self]
    rfl
  · rw [update_self]
    have hok := hf.ok
    rw [update_self] at hok
    exact { hok with type := rfl }
  · rw [update_self]
    rfl
  · refine ref_none (fun a => ?_) blk j
    rw [update_self]
    rfl

theorem ifree_spec (hl : Layout sb) (h : Inv sb none t s) (hk : Live s k) (hop : 1 ≤ s.outstanding) :
    wp (ifree sb k) (fun _ s' => Files sb (update t (s.icache k).inum (t (s.icache k).inum).freed) s'.blk ∧
      (∀ i < sb.ninodes, dinode sb s'.blk i = update t (s.icache k).inum (t (s.icache k).inum).freed i) ∧
      (∀ j, j ≠ k → s'.icache j = s.icache j) ∧ (s'.icache k).ref = (s.icache k).ref ∧
      Wrote (Meta sb (s.icache k).inum) 0 s s' ∧ ∀ c, sb.nmeta ≤ c → s'.blk c = s.blk c)
      (Stopped (Meta sb (s.icache k).inum) 0 s) s := by
  have hi := h.inum hk
  unfold ifree acquiresleep
  simp only [wp_bind, wp_get, wp_ite, wp_throw, wp_setInode]
  refine ⟨fun _ => ⟨.refl _ s, by decide, by decide⟩, fun _ => ?_⟩
  generalize hs₁ : { s with icache := update s.icache k { s.icache k with lock := some s.myproc } } = s₁
  have hcalm : Calm sb t s s₁ := by
    rw [← hs₁]
    exact h.calm rfl rfl rfl id fun hv => h.copy k hk.lt hk.ref hv
  have hself₁ : s₁.icache k = { s.icache k with lock := some s.myproc } := by
    rw [← hs₁]
    exact update_self ..
  have hother₁ : ∀ j, j ≠ k → s₁.icache j = s.icache j := fun j hj => by
    rw [← hs₁]
    exact update_of_ne hj _ _
  have hin₁ : (s₁.icache k).inum = (s.icache k).inum := by rw [hself₁]
  have w₁ : Wrote (Meta sb (s.icache k).inum) 0 s s₁ := hcalm.wrote.mono (fun _ => False.elim) (Nat.le_refl 0)
  have htrunc := itrunc_spec hl hcalm.inv (hcalm.stays.live hk) (fun i e => by cases e) (w₁.outstanding ▸ hop)
  rw [hin₁] at htrunc
  refine htrunc.mono (fun _ s₂ h₂ => ?_) fun e s₂ h₂ => Stopped.after w₁ h₂
  obtain ⟨hw, w₂, hdata⟩ := h₂
  have w₂ := w₁.trans w₂
  have hself₂ : s₂.icache k = { s₁.icache k with di := (t (s.icache k).inum).emptied } := by
    rw [hw.self, hin₁, update_self]
  rw [wp_setDi]
  generalize hs₃ : { s₂ with icache := update s₂.icache k { s₂.icache k with di := { (s₂.icache k).di with type := 0 } } } = s₃
  have hself₃ : s₃.icache k = { s₁.icache k with di := (t (s.icache k).inum).freed } := by
    rw [← hs₃]
    refine (update_self ..).trans ?_
    rw [hself₂]
    rfl
  have hother₃ : ∀ j, j ≠ k → s₃.icache j = s.icache j := fun j hj => by
    rw [← hs₃]
    exact (update_of_ne hj _ _).trans ((hw.others j hj).trans (hother₁ j hj))
  have hblk₃ : s₃.blk = s₂.blk := by rw [← hs₃]
  have w₃ : Wrote (Meta sb (s.icache k).inum) 0 s s₃ := by
    rw [← hs₃]
    exact w₂.icache
  have hin₃ : (s₃.icache k).inum = (s.icache k).inum := by rw [hself₃, hin₁]
  have hup := iupdate_spec sb k (w₃.outstanding ▸ hop)
  rw [hin₃] at hup
  refine hup.mono (fun _ s₄ h₄ => ?_) fun e s₄ h₄ => Stopped.after w₃ (h₄.mono (fun _ => .inr) (Nat.le_refl 0))
  obtain ⟨hic₄, hblk₄, w₄⟩ := h₄
  have hf := hw.inv.files.freed hi
  have hok : (t (s.icache k).inum).freed.Ok := by
    have := (hf.each _ hi).ok
    rwa [update_self] at this
  rw [hself₃, hblk₃] at hblk₄
  unfold releasesleep
  rw [wp_setInode]
  refine ⟨?_, fun i hi' => ?_, fun j hj => ?_, ?_, (w₃.trans (w₄.mono (fun _ => .inr) (Nat.le_refl 0))).icache.icache,
    fun c hc => ?_⟩
  · show Files sb _ s₄.blk
    rw [hblk₄]
    exact (hf.inodes hl (hl.inodes _ hi)).1
  · show dinode sb s₄.blk i = _
    rw [hblk₄, dinode_put _ _ hok]
    by_cases e : i = (s.icache k).inum
    · rw [if_pos e, e, update_self]
    · rw [if_neg e, update_of_ne e, hw.inv.disk i hi' (fun e => by cases e), update_of_ne e]
  · show update _ k _ j = _
    rw [update_of_ne hj]
    show update s₄.icache k _ j = _
    rw [update_of_ne hj, hic₄, hother₃ j hj]
  · simp only [update_self, hic₄, hself₃, hself₁]
  · show s₄.blk c = _
    have h1 := hl.inodes _ hi
    have h2 := hl.bmap_le
    rw [hblk₄, update_of_ne (by omega), hdata c hc, hcalm.blk]

theorem iput_spec (hl : Layout sb) (h : Inv sb none t s) (hk : InUse s k) (hop : Frees t s k → 1 ≤ s.outstanding) :
    wp (iput sb k) (fun _ s' => ∃ t', Put sb t s k t' s')
      (fun e s' => Frees t s k ∧ Stopped (Meta sb (s.icache k).inum) 0 s e s') s := by
  unfold iput
  simp only [wp_bind, wp_get, wp_ite, wp_setInode]
  refine ⟨fun hc => ?_, fun hc => ⟨t, ?_⟩⟩
  · obtain ⟨h1, hv, hn⟩ := hc
    rw [(h.copy k hk.1 hk.2 hv).1] at hn
    have hfr : Frees t s k := ⟨h1, hv, hn⟩
    refine (ifree_spec hl h ⟨hk.1, hk.2, hv⟩ (hop hfr)).mono (fun _ s' h' => ?_) fun e s' h' => ⟨hfr, h'⟩
    obtain ⟨hf, hd, hother, href, hw, -⟩ := h'
    have hdrop := h.dropped { s' with icache := update s'.icache k { s'.icache k with ref := (s'.icache k).ref - 1 } }
      hk hf hd (fun j hj => (update_of_ne hj _ _).trans (hother j hj)) ?_ (fun hlt => absurd hlt (by omega))
      (fun i hi => update_of_ne hi _ _)
    · refine ⟨_, hdrop.1, fun j => ?_, hdrop.2, .inr ⟨hfr, rfl, hw.icache⟩⟩
      rw [counts_update rfl j]
      by_cases e : j = k
      · rw [e, if_pos rfl, href]
      · rw [if_neg e, hother j e]
    · show Inode.ref (update s'.icache k _ k) = _
      rw [update_self, href]
  · have hdrop := h.dropped { s with icache := update s.icache k { s.icache k with ref := (s.icache k).ref - 1 } }
      hk h.files (fun i hi => h.disk i hi fun e => by cases e) (fun j hj => update_of_ne hj _ _) ?_
      (fun _ => ⟨update_self .., rfl⟩) (fun i _ => rfl)
    · exact ⟨hdrop.1, counts_update rfl, hdrop.2, .inl ⟨rfl, rfl, wrote_icache _ s _⟩⟩
    · show Inode.ref (update s.icache k _ k) = _
      rw [update_self]

theorem iput_data (hl : Layout sb) (h : Inv sb none t s) (hk : InUse s k) (hop : 1 ≤ s.outstanding) :
    wp (iput sb k) (fun _ s' => (∀ c, sb.nmeta ≤ c → s'.blk c = s.blk c) ∧
      (Frees t s k → (dinode sb s'.blk (s.icache k).inum).type = 0)) (fun _ _ => True) s := by
  unfold iput
  simp only [wp_bind, wp_get, wp_ite, wp_setInode]
  refine ⟨fun hc => ?_, fun hc => ⟨fun _ _ => trivial, fun hf => ?_⟩⟩
  · refine (ifree_spec hl h ⟨hk.1, hk.2, hc.2.1⟩ hop).mono (fun _ s' h' => ⟨h'.2.2.2.2.2, fun _ => ?_⟩) fun _ _ _ => trivial
    rw [h'.2.1 _ (h.cached k hk.1 hk.2).2, update_self]
    rfl
  · obtain ⟨h1, hv, h0⟩ := hf
    exact absurd ⟨h1, hv, (h.copy k hk.1 hk.2 hv).1 ▸ h0⟩ hc

end Iput

end Xv6.Fs
