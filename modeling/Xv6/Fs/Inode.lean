import Xv6.Fs.Alloc
/-!
# The inode cache

Cached inodes are copies of the disk's: `Inv sb D t s` says that the table `t`
of all inodes is what the cache and the disk show of it, and that its blocks
are in order. At most the inode `D` has a cached copy newer than the disk's.
-/

namespace Xv6.Fs

open Bytes Hoare Owner Function

structure Inv (sb : Superblock) (D : Option Nat) (t : Table) (s : St) : Prop where
  files : Files sb t s.blk
  disk : ∀ i < sb.ninodes, D ≠ some i → dinode sb s.blk i = t i
  nonneg : ∀ k, 0 ≤ (s.icache k).ref
  cached : ∀ k < NINODE, 0 < (s.icache k).ref → (s.icache k).dev = ROOTDEV ∧ (s.icache k).inum < sb.ninodes
  uniq : ∀ k < NINODE, ∀ k' < NINODE, 0 < (s.icache k).ref → 0 < (s.icache k').ref →
    (s.icache k).inum = (s.icache k').inum → k = k'
  copy : ∀ k < NINODE, 0 < (s.icache k).ref → (s.icache k).valid = true →
    (s.icache k).di = t (s.icache k).inum ∧ (t (s.icache k).inum).type ≠ 0

/-- A cache entry in use that has been read from disk. -/
structure Live (s : St) (k : Nat) : Prop where
  lt : k < NINODE
  ref : 0 < (s.icache k).ref
  valid : (s.icache k).valid = true

section Inv
variable {sb : Superblock} {D : Option Nat} {t t' : Table} {s s' : St} {k : Nat}

theorem Inv.inum (h : Inv sb D t s) (hk : Live s k) : (s.icache k).inum < sb.ninodes := (h.cached k hk.lt hk.ref).2

theorem Inv.di (h : Inv sb D t s) (hk : Live s k) : (s.icache k).di = t (s.icache k).inum :=
  (h.copy k hk.lt hk.ref hk.valid).1

theorem Inv.type (h : Inv sb D t s) (hk : Live s k) : (t (s.icache k).inum).type ≠ 0 :=
  (h.copy k hk.lt hk.ref hk.valid).2

theorem Inv.blocks (h : Inv sb D t s) (hic : s'.icache = s.icache) (hf : Files sb t s'.blk)
    (hd : ∀ i < sb.ninodes, dinode sb s'.blk i = dinode sb s.blk i) : Inv sb D t s' := by
  refine ⟨hf, fun i hi hD => (hd i hi).trans (h.disk i hi hD), ?_, ?_, ?_, ?_⟩
  all_goals rw [hic]
  · exact h.nonneg
  · exact h.cached
  · exact h.uniq
  · exact h.copy

theorem Inv.change {x : Dinode} (h : Inv sb D t s) (hk : Live s k) (hD : ∀ i, D = some i → i = (s.icache k).inum)
    (hic : s'.icache = update s.icache k { s.icache k with di := x })
    (hf : Files sb (update t (s.icache k).inum x) s'.blk)
    (hd : ∀ i < sb.ninodes, i ≠ (s.icache k).inum → dinode sb s'.blk i = dinode sb s.blk i) (hx : x.type ≠ 0) :
    Inv sb (some (s.icache k).inum) (update t (s.icache k).inum x) s' := by
  have hhead : ∀ j, (s'.icache j).ref = (s.icache j).ref ∧ (s'.icache j).dev = (s.icache j).dev ∧
      (s'.icache j).inum = (s.icache j).inum ∧ (s'.icache j).valid = (s.icache j).valid := fun j => by
    rw [hic]
    by_cases e : j = k
    · rw [e, update_self]
      exact ⟨rfl, rfl, rfl, rfl⟩
    · rw [update_of_ne e]
      exact ⟨rfl, rfl, rfl, rfl⟩
  refine ⟨hf, fun i hi hne => ?_, fun j => ?_, fun j hj hr => ?_, fun j hj j' hj' hr hr' e => ?_, fun j hj hr hv => ?_⟩
  · have hne : i ≠ (s.icache k).inum := fun e => hne (by rw [e])
    rw [hd i hi hne, update_of_ne hne]
    exact h.disk i hi fun e => hne (hD i e)
  · rw [(hhead j).1]
    exact h.nonneg j
  · rw [(hhead j).2.1, (hhead j).2.2.1]
    exact h.cached j hj ((hhead j).1 ▸ hr)
  · rw [(hhead j).2.2.1, (hhead j').2.2.1] at e
    exact h.uniq j hj j' hj' ((hhead j).1 ▸ hr) ((hhead j').1 ▸ hr') e
  · have hr : 0 < (s.icache j).ref := (hhead j).1 ▸ hr
    have hv : (s.icache j).valid = true := (hhead j).2.2.2 ▸ hv
    rw [(hhead j).2.2.1]
    by_cases e : j = k
    · rw [e, update_self, hic, update_self]
      exact ⟨rfl, hx⟩
    · have hne : (s.icache j).inum ≠ (s.icache k).inum := fun he => e (h.uniq j hj k hk.lt hr hk.ref he)
      rw [update_of_ne hne, hic, update_of_ne e]
      exact h.copy j hj hr hv

theorem Inv.settled {i : Nat} (h : Inv sb (some i) t s) (hd : dinode sb s.blk i = t i) : Inv sb none t s := by
  refine { h with disk := fun j hj _ => ?_ }
  by_cases e : i = j
  · rw [← e, hd]
  · exact h.disk j hj fun he => e (Option.some.inj he)

theorem Live.inode (h : Live s k) (h1 : (s'.icache k).ref = (s.icache k).ref)
    (h2 : (s'.icache k).valid = (s.icache k).valid) : Live s' k :=
  ⟨h.lt, h1 ▸ h.ref, h2 ▸ h.valid⟩

end Inv

end Xv6.Fs
