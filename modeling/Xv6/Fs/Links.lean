import Xv6.Fs.Namei
/-!
# Fields of a locked inode

`sys_link`, `sys_unlink` and `create` change the link count or the device numbers
of an inode that they have locked, and write it back with `iupdate`. The blocks,
the directories and the other inodes stay as they are. `Shifted` is what such a
piece of code leaves of the references and locks.
-/

namespace Xv6.Fs

open Bytes Hoare Function

/-! ## Contents that stay -/

section Content
variable {sb : Superblock} {t t' : Table} {blk blk' : Nat → Arr} {i : Nat}

theorem content_congr (hsize : (t' i).size = (t i).size) (href : ∀ j, ref sb t' blk' (i, j) = ref sb t blk (i, j))
    (hdata : ∀ j, j ≠ NDIRECT → ref sb t blk (i, j) ≠ 0 → blk' (ref sb t blk (i, j)) = blk (ref sb t blk (i, j))) :
    content sb t' blk' i = content sb t blk i := by
  unfold content
  rw [hsize]
  refine List.map_congr_left fun o _ => ?_
  rw [href]
  split
  · rfl
  · next h0 => rw [byteAt, byteAt, href, hdata _ (dataSlot_ne _) h0]

theorem Files.data_inode (h : Files sb t blk) (hl : Layout sb) {b : Nat} (hb : b < sb.bmapstart) (a : Arr)
    {x : Nat × Nat}
    (hx : ref sb t blk x ≠ 0) : update blk b a (ref sb t blk x) = blk (ref sb t blk x) := by
  have := (h.own.range _ hx).1
  have := hl.bmap_le
  exact update_of_ne (by omega) _ _

end Content

/-! ## A field changes -/

/-- The same inode, but for the device numbers and the link count. -/
structure Dinode.Same (x y : Dinode) : Prop where
  type : y.type = x.type
  size : y.size = x.size
  addrs : y.addrs = x.addrs

/-- Entry `k` has the fields of `x`, in memory and on disk. -/
structure Retagged (sb : Superblock) (t : Table) (s : St) (k : Nat) (x : Dinode) (s' : St) : Prop where
  inv : Inv sb none (update t (s.icache k).inum x) s'
  icache : s'.icache = update s.icache k { s.icache k with di := x }
  blk : s'.blk = update s.blk (sb.iblock (s.icache k).inum)
    (putDinode (s.blk (sb.iblock (s.icache k).inum)) ((s.icache k).inum % IPB) x)
  wrote : Wrote (fun _ => True) 0 s s'

section Retag
variable {sb : Superblock} {t : Table} {s s' : St} {k : Nat} {x : Dinode}

theorem iupdate_exact : wp (iupdate sb k) (fun _ s' => s'.icache = s.icache ∧
    s'.blk = update s.blk (sb.iblock (s.icache k).inum)
      (putDinode (s.blk (sb.iblock (s.icache k).inum)) ((s.icache k).inum % IPB) (s.icache k).di) ∧
    Wrote (fun _ => True) 0 s s') (fun _ _ => True) s := by
  unfold iupdate logWrite record
  simp only [wp_bind, wp_get, wp_setBlk, wp_modify, wp_ite, wp_throw, wp_set]
  refine ⟨fun _ => trivial, fun _ => ⟨fun _ => trivial, fun _ => ⟨trivial, trivial, ⟨rfl, rfl, ?_⟩, rfl, rfl⟩⟩⟩
  exact ⟨[], [_], Nat.le_refl _, fun _ _ => .inl trivial, rfl⟩

theorem Dinode.Same.fileOk {i : Nat} (hx : (t i).Same x) (hok : x.Ok) {blk : Nat → Arr} (h : FileOk sb t blk i) :
    FileOk sb (update t i x) blk i := by
  have href : ref sb (update t i x) blk = ref sb t blk := ref_set hx.addrs
  refine h.keeps ?_ ?_ ?_ (fun h0 j => ?_) (fun j _ => by rw [href]) fun _ _ _ => rfl
  · rwa [update_self]
  · rw [update_self, hx.type]
  · rw [update_self, hx.size]
  · rw [update_self, hx.type] at h0
    rw [href]
    exact h.free h0 j

theorem retag {f : Dinode → Dinode} {Q : Unit → St → Prop} (hl : Layout sb) (h : Inv sb none t s) (hk : Live s k)
    (hf : f (t (s.icache k).inum) = x) (hx : (t (s.icache k).inum).Same x) (hok : x.Ok)
    (hq : ∀ s', Retagged sb t s k x s' → Q () s') :
    wp (do setDi k f; iupdate sb k) Q (fun _ _ => True) s := by
  rw [wp_bind, wp_setDi, h.di hk, hf]
  generalize hs : { s with icache := update s.icache k { s.icache k with di := x } } = s₁
  have hic : s₁.icache = update s.icache k { s.icache k with di := x } := by rw [← hs]
  have hblk : s₁.blk = s.blk := by rw [← hs]
  have hself : s₁.icache k = { s.icache k with di := x } := by rw [hic, update_self]
  have hi := h.inum hk
  have hfiles : Files sb (update t (s.icache k).inum x) s₁.blk := by
    rw [hblk]
    exact .set h.files.toOwned (fun j hj _ => h.files.each j hj) hx.addrs (hx.fileOk hok (h.files.each _ hi))
  have hinv : Inv sb (some (s.icache k).inum) (update t (s.icache k).inum x) s₁ :=
    h.change hk (fun i e => by cases e) hic hfiles (fun i _ _ => by rw [hblk]) (hx.type ▸ h.type hk)
  have hlive : Live s₁ k := hk.inode (by rw [hself]) (by rw [hself])
  refine iupdate_exact.imp fun _ s' h' => hq s' ?_
  obtain ⟨hic', hblk', hw⟩ := h'
  refine ⟨?_, hic'.trans hic, ?_, ?_⟩
  · refine hinv.updated hl hlive (fun i e => ?_) hic' hblk'
    rw [hself, ← Option.some.inj e]
  · rw [hblk', hblk, hself]
  · have hw₁ : Wrote (fun _ => True) 0 s s₁ := by
      rw [← hs]
      exact wrote_icache _ s _
    exact hw₁.trans hw

theorem Retagged.content (r : Retagged sb t s k x s') (hl : Layout sb) (h : Inv sb none t s) (hk : Live s k)
    (hx : (t (s.icache k).inum).Same x) (i : Nat) :
    content sb (update t (s.icache k).inum x) s'.blk i = content sb t s.blk i := by
  have hb : sb.iblock (s.icache k).inum < sb.bmapstart := hl.inodes _ (h.inum hk)
  have href : ref sb (update t (s.icache k).inum x) s'.blk = ref sb t s.blk := by
    rw [r.blk, ref_set hx.addrs, (h.files.inodes hl hb).2]
  refine content_congr ?_ (fun j => by rw [href]) fun j _ h0 => ?_
  · by_cases e : i = (s.icache k).inum
    · rw [e, update_self, hx.size]
    · rw [update_of_ne e]
  · rw [r.blk]
    exact h.files.data_inode hl hb _ h0

end Retag

/-! ## References and locks -/

/-- There are `d j` more references to each entry `j`; the locks, files and processes are as they were. -/
structure Shifted (d : Nat → Int) (s s' : St) : Prop where
  refs : ∀ j, (s'.icache j).ref = (s.icache j).ref + d j
  inum : ∀ j, InUse s j → (s'.icache j).inum = (s.icache j).inum
  locks : ∀ j, (s'.icache j).lock = (s.icache j).lock
  wrote : Wrote (fun _ => True) 0 s s'

theorem Shifted.trans {d₁ d₂ : Nat → Int} {s s₁ s₂ : St} (h₁ : Shifted d₁ s s₁) (h₂ : Shifted d₂ s₁ s₂)
    (hpos : ∀ j, 0 ≤ d₁ j) : Shifted (fun j => d₁ j + d₂ j) s s₂ where
  refs j := by rw [h₂.refs, h₁.refs, Int.add_assoc]
  inum j hj := by
    have hu : InUse s₁ j := ⟨hj.1, by
      have := hpos j
      have := hj.2
      rw [h₁.refs]
      omega⟩
    exact (h₂.inum j hu).trans (h₁.inum j hj)
  locks j := (h₂.locks j).trans (h₁.locks j)
  wrote := h₁.wrote.trans h₂.wrote

theorem Holds.wrote {sb : Superblock} {t : Table} {s₀ s : St} {held : Multiset Nat} {locked : Finset Nat}
    (h : Holds sb t s₀ held locked s) : Wrote (fun _ => True) 0 s₀ s := by
  rw [h.rest]
  exact wrote_icache _ s₀ _

theorem Holds.shifted {sb : Superblock} {t : Table} {s₀ s : St} {held : Multiset Nat} (h : Holds sb t s₀ held ∅ s) :
    Shifted (fun j => held.count j) s₀ s where
  refs := h.refs
  inum := h.stays.inum
  locks j := by rw [h.locks j, if_neg (Finset.notMem_empty j)]
  wrote := h.wrote

/-! ## Link counts -/

def Dinode.linked (x : Dinode) (d : Int) : Dinode := { x with nlink := toShort (x.nlink + d) }

theorem Dinode.same_linked (x : Dinode) (d : Int) : x.Same (x.linked d) := ⟨rfl, rfl, rfl⟩

theorem Dinode.Ok.linked {x : Dinode} (h : x.Ok) (d : Int) : (x.linked d).Ok := { h with nlink := toShort_toShort _ }

theorem Dinode.linked_back {x : Dinode} (h : x.Ok) : (x.linked 1).linked (-1) = x := by
  have hn : toShort (toShort (x.nlink + 1) + -1) = x.nlink := by
    have := h.nlink
    unfold toShort at this ⊢
    rw [Int.bmod_add_bmod, Int.add_assoc, Int.add_right_neg, Int.add_zero]
    exact this
  unfold Dinode.linked
  rw [hn]

/-- Entry `k`, which was locked, has been unlocked and has the fields of `x`; since `s₀` nothing else has changed but for
the references `held`. -/
structure Relinked (sb : Superblock) (t : Table) (s₀ : St) (held : Multiset Nat) (k i : Nat) (x : Dinode) (s' : St) :
    Prop where
  inv : Inv sb none (update t i x) s'
  shifted : Shifted (fun j => held.count j) s₀ s'
  blk : s'.blk = update s₀.blk (sb.iblock i) (putDinode (s₀.blk (sb.iblock i)) (i % IPB) x)
  content : ∀ j, content sb (update t i x) s'.blk j = content sb t s₀.blk j
  live : Live s' k
  inum : (s'.icache k).inum = i

theorem Holds.relink {sb : Superblock} {t : Table} {s₀ s : St} {held : Multiset Nat} {k : Nat} {Q : Unit → St → Prop}
    (hl : Layout sb) (h : Holds sb t s₀ held {k} s) (d : Int)
    (hq : ∀ s', Relinked sb t s₀ held k (s.icache k).inum ((t (s.icache k).inum).linked d) s' → Q () s') :
    wp (addLink k d) (fun _ s₁ => wp (iupdate sb k) (fun _ s₂ => wp (Fs.iunlock k) Q (fun _ _ => True) s₂)
      (fun _ _ => True) s₁) (fun _ _ => True) s := by
  have hk : k ∈ ({k} : Finset Nat) := Finset.mem_singleton_self k
  have hlive := h.live hk
  have hi := h.inv.inum hlive
  have hok := (h.inv.files.each _ hi).ok
  refine (wp_bind _ _).1 (retag (x := (t (s.icache k).inum).linked d) hl h.inv hlive rfl (Dinode.same_linked _ d)
    (hok.linked d) fun s₁ r => ?_)
  have hself : s₁.icache k = { s.icache k with di := (t (s.icache k).inum).linked d } := by
    rw [r.icache, update_self]
  have hother : ∀ j, j ≠ k → s₁.icache j = s.icache j := fun j hj => by rw [r.icache, update_of_ne hj]
  have hlive₁ : Live s₁ k := hlive.inode (by rw [hself]) (by rw [hself])
  have hlock : (s₁.icache k).lock = some s₁.myproc := by
    rw [hself, r.wrote.myproc, h.myproc]
    show (s.icache k).lock = _
    rw [h.locks k, if_pos hk]
  refine (iunlock_exact hlive₁.ref hlock).imp fun _ s' hs => hq s' ?_
  have hself' : s'.icache k = { s₁.icache k with lock := none } := by rw [hs]; exact update_self ..
  have hother' : ∀ j, j ≠ k → s'.icache j = s₁.icache j := fun j hj => by rw [hs]; exact update_of_ne hj _ _
  have hblk : s'.blk = s₁.blk := by rw [hs]
  have hcalm : Calm sb (update t (s.icache k).inum ((t (s.icache k).inum).linked d)) s₁ s' := by
    rw [hs]
    exact r.inv.calm rfl rfl rfl id fun hv => r.inv.copy k hlive₁.lt hlive₁.ref hv
  refine ⟨hcalm.inv, ⟨fun j => ?_, fun j hj => ?_, fun j => ?_, ?_⟩, ?_, fun j => ?_, ?_, ?_⟩
  · by_cases e : j = k
    · rw [e, hself', hself]
      exact h.refs k
    · rw [hother' j e, hother j e]
      exact h.refs j
  · by_cases e : j = k
    · rw [e, hself', hself]
      exact h.stays.inum k (e ▸ hj)
    · rw [hother' j e, hother j e]
      exact h.stays.inum j hj
  · by_cases e : j = k
    · rw [e, hself', h.open' k hk]
    · rw [hother' j e, hother j e, h.locks j, if_neg fun hm => e (Finset.mem_singleton.1 hm)]
  · exact (h.wrote.trans r.wrote).trans (hcalm.wrote.mono (fun _ _ => trivial) (Nat.le_refl 0))
  · rw [hblk, r.blk, h.blk]
  · rw [hblk, r.content hl h.inv hlive (Dinode.same_linked _ d), h.blk]
  · exact hlive₁.inode (by rw [hself']) (by rw [hself'])
  · rw [hself', hself]

end Xv6.Fs
