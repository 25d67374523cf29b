import Xv6.Fs.Inode
/-!
# Inode content

`writei` and `itrunc` give an inode another content and end with `iupdate`, which
leaves the disk's copy of the inode as new as the cached one.
-/

namespace Xv6.Fs

open Bytes Hoare Owner

/-! ## iupdate -/

section Iupdate
variable {sb : Superblock} {D : Option Nat} {t : Table} {s s' : St} {k : Nat}

theorem iupdate_spec (sb : Superblock) (k : Nat) (hop : 1 ≤ s.outstanding) :
    wp (iupdate sb k) (fun _ s' => s'.icache = s.icache ∧
      s'.blk = Function.update s.blk (sb.iblock (s.icache k).inum)
        (putDinode (s.blk (sb.iblock (s.icache k).inum)) ((s.icache k).inum % IPB) (s.icache k).di) ∧
      Wrote (· = sb.iblock (s.icache k).inum) 0 s s') (Stopped (· = sb.iblock (s.icache k).inum) 0 s) s := by
  unfold iupdate
  rw [wp_bind, wp_get]
  dsimp only
  rw [wp_bind, wp_setBlk]
  refine wp.mono (logWrite_spec _ hop) (fun _ s' h' => ?_) fun e s' h' => h'.of_blk
  obtain ⟨w, hblk, hic⟩ := h'
  exact ⟨hic, hblk, w.of_blk⟩

theorem Inv.updated (hl : Layout sb) (h : Inv sb D t s) (hk : Live s k)
    (hD : ∀ i, D = some i → i = (s.icache k).inum) (hic : s'.icache = s.icache)
    (hblk : s'.blk = Function.update s.blk (sb.iblock (s.icache k).inum)
      (putDinode (s.blk (sb.iblock (s.icache k).inum)) ((s.icache k).inum % IPB) (s.icache k).di)) :
    Inv sb none t s' := by
  have hi := h.inum hk
  have hok : (s.icache k).di.Ok := by
    rw [h.di hk]
    exact (h.files.each _ hi).ok
  obtain ⟨hf, -⟩ := h.files.inodes (a := putDinode (s.blk (sb.iblock (s.icache k).inum)) ((s.icache k).inum % IPB)
    (s.icache k).di) hl (hl.inodes _ hi)
  refine ⟨hblk ▸ hf, fun i hi _ => ?_, ?_, ?_, ?_, ?_⟩
  · rw [hblk, dinode_put _ _ hok]
    by_cases e : i = (s.icache k).inum
    · rw [if_pos e, e, h.di hk]
    · rw [if_neg e]
      exact h.disk i hi fun hd => e (hD i hd)
  all_goals rw [hic]
  · exact h.nonneg
  · exact h.cached
  · exact h.uniq
  · exact h.copy

end Iupdate

/-! ## A new content -/

section Written
variable {sb : Superblock} {D : Option Nat} {t : Table} {s : St} {k : Nat}

/-- The file of entry `k` has other blocks, size or data; no other inode has changed. -/
structure Written (sb : Superblock) (D : Option Nat) (t : Table) (s : St) (k : Nat) (t' : Table) (s' : St) : Prop where
  inv : Inv sb D t' s'
  others : ∀ j, j ≠ k → s'.icache j = s.icache j
  self : s'.icache k = { s.icache k with di := t' (s.icache k).inum }
  table : ∀ i, i ≠ (s.icache k).inum → t' i = t i
  fields : t' (s.icache k).inum = { t (s.icache k).inum with
    addrs := (t' (s.icache k).inum).addrs, size := (t' (s.icache k).inum).size }

theorem Written.live {t' : Table} {s' : St} (w : Written sb D t s k t' s') (hk : Live s k) : Live s' k :=
  hk.inode (by rw [w.self]) (by rw [w.self])

theorem Written.iupdate {t' : Table} {s' : St} (hl : Layout sb) (w : Written sb (some (s.icache k).inum) t s k t' s')
    (hk : Live s k) (hop : 1 ≤ s'.outstanding) :
    wp (iupdate sb k) (fun _ s₂ => Written sb none t s k t' s₂ ∧ Wrote (· = sb.iblock (s.icache k).inum) 0 s' s₂)
      (Stopped (· = sb.iblock (s.icache k).inum) 0 s') s' := by
  have hi : (s'.icache k).inum = (s.icache k).inum := by rw [w.self]
  have hspec := iupdate_spec sb k hop
  rw [hi] at hspec
  refine hspec.imp ?_
  rintro _ s₂ ⟨hic, hblk, w₂⟩
  rw [← hi] at hblk
  refine ⟨⟨w.inv.updated hl (w.live hk) (fun i e => by rw [hi]; exact (Option.some.inj e).symm) hic hblk, ?_, ?_, w.table,
    w.fields⟩, w₂⟩
  · rw [hic]
    exact w.others
  · rw [hic]
    exact w.self

/-- What may go to the log when file `i` is written: the free map and the inode. -/
def Meta (sb : Superblock) (i c : Nat) : Prop := IsBitmap sb c ∨ c = sb.iblock i

end Written

end Xv6.Fs
