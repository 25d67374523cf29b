import Xv6.Fs.Dir
/-!
# A directory is a finite map

`dirlookup` looks a name up, `dirlink` inserts a pair, and zeros over an entry
remove its name. They stop only for lack of an entry in the inode cache, of
room in the log, or of a free block.
-/

namespace Xv6.Fs

open Bytes Hoare SlotMap Function

/-! ## References to the inodes named -/

/-- The inode has an entry in the cache, or there is one to spare. -/
def CanGet (s : St) (dev inum : Nat) : Prop :=
  ∃ j < NINODE, (s.icache j).ref = 0 ∨ 0 < (s.icache j).ref ∧ (s.icache j).dev = dev ∧ (s.icache j).inum = inum

/-- Entry `ip` is that of the inode and has one more reference. If it had none before, it is not valid. -/
structure Gets (s : St) (dev inum ip : Nat) (s' : St) : Prop where
  lt : ip < NINODE
  dev : (s'.icache ip).dev = dev
  inum : (s'.icache ip).inum = inum
  ref : (s'.icache ip).ref = (s.icache ip).ref + 1
  state : s' = { s with icache := Function.update s.icache ip (s'.icache ip) }
  was : 0 < (s.icache ip).ref ∧ s'.icache ip = { s.icache ip with ref := (s.icache ip).ref + 1 } ∨
    (s.icache ip).ref = 0 ∧ (s'.icache ip).valid = false

/-- The same state, but for entries of the inode cache that are not in use. -/
structure SameInUse (s s' : St) : Prop where
  rest : s' = { s with icache := s'.icache }
  inUse : ∀ j, 0 < (s.icache j).ref → s'.icache j = s.icache j
  refs : ∀ j, (s'.icache j).ref = (s.icache j).ref

section Refs
variable {sb : Superblock} {s s' : St} {dev inum ip : Nat} {E : Stop → St → Prop}

theorem iget_gets (h : CanGet s dev inum) : wp (iget dev inum) (fun ip => Gets s dev inum ip) E s := by
  unfold iget
  rw [wp_bind, wp_get]
  split
  · next k hf =>
    have hlt : k < NINODE := List.mem_range.1 (List.mem_of_find?_eq_some hf)
    obtain ⟨hr, hd, hin⟩ : 0 < (s.icache k).ref ∧ (s.icache k).dev = dev ∧ (s.icache k).inum = inum := by
      simpa using List.find?_some hf
    rw [wp_bind, wp_setInode, wp_pure]
    refine ⟨hlt, ?_, ?_, ?_, ?_, ?_⟩ <;> simp only [update_self]
    · exact hd
    · exact hin
    · exact .inl ⟨hr, trivial⟩
  · next hf =>
    split
    · next k hf' =>
      have hlt : k < NINODE := List.mem_range.1 (List.mem_of_find?_eq_some hf')
      have h0 : (s.icache k).ref = 0 := by simpa using List.find?_some hf'
      rw [wp_bind, wp_setInode, wp_pure]
      refine ⟨hlt, ?_, ?_, ?_, ?_, ?_⟩ <;> simp only [update_self]
      · rw [h0]
        rfl
      · exact .inr ⟨h0, trivial⟩
    · next hf' =>
      -- neither loop of `iget` finds an entry
      obtain ⟨j, hj, h0 | hin⟩ := h
      · exact absurd (decide_eq_true h0) (List.find?_eq_none.1 hf' j (List.mem_range.2 hj))
      · exact absurd (decide_eq_true hin) (List.find?_eq_none.1 hf j (List.mem_range.2 hj))

theorem Gets.iput (g : Gets s dev inum ip s') : wp (iput sb ip) (fun _ => SameInUse s) E s' := by
  have hkeep : ¬ ((s'.icache ip).ref = 1 ∧ (s'.icache ip).valid = true ∧ (s'.icache ip).di.nlink = 0) := by
    rintro ⟨h1, hv, -⟩
    rw [g.ref] at h1
    rcases g.was with ⟨hr, -⟩ | ⟨-, hv'⟩
    · omega
    · rw [hv] at hv'
      cases hv'
  have hone : ∀ j, j ≠ ip → s'.icache j = s.icache j := fun j hj => by
    rw [g.state]
    exact update_of_ne hj _ _
  unfold Fs.iput
  rw [wp_bind, wp_get]
  dsimp only
  rw [if_neg hkeep, wp_setInode]
  constructor
  · rw [g.state]
  · intro j hj
    dsimp only
    by_cases e : j = ip
    · subst e
      rcases g.was with ⟨-, he⟩ | ⟨h0, -⟩
      · rw [update_self, he]
        simp
      · omega
    · rw [update_of_ne e, hone j e]
  · intro j
    dsimp only
    by_cases e : j = ip
    · rw [e, update_self, g.ref]
      exact Int.add_sub_cancel _ _
    · rw [update_of_ne e, hone j e]

end Refs

/-! ## Writing an entry -/

/-- What a `writei` of one entry of directory `k` at `off` needs. -/
structure CanWrite (sb : Superblock) (t : Table) (s : St) (k off : Nat) : Prop where
  op : 1 ≤ s.outstanding
  free : lacking sb t s.blk (s.icache k).inum off DESIZE ≤ nfree sb s.blk
  log : LogRoom sb s (logNeeds sb t s.blk (s.icache k).inum off DESIZE)

/-- Directory `k` has the slots `l` now; the other files, and the other entries of the cache, are as they were. -/
structure Edited (sb : Superblock) (t : Table) (s : St) (k : Nat) (l : List (Option (List UInt8 × Nat))) (t' : Table)
    (s' : St) : Prop where
  dir : IsDir sb t' s' k
  inode : (s'.icache k).inum = (s.icache k).inum
  slots : dirOf sb t' s' k = l
  size : (t' (s.icache k).inum).size = DESIZE * l.length
  table : t' = Function.update t (s.icache k).inum (s'.icache k).di
  files : ∀ i, i ≠ (s.icache k).inum → content sb t' s'.blk i = content sb t s.blk i
  cache : ∀ j, j ≠ k → s'.icache j = s.icache j

/-- The invariants hold after a write to entry `k`, which is the same but for its inode. -/
structure EntryWritten (sb : Superblock) (t : Table) (s : St) (k : Nat) (t' : Table) (s' : St) : Prop where
  inv : Inv sb none t' s'
  nlink : ∀ i, (t' i).nlink = (t i).nlink
  self : s'.icache k = { s.icache k with di := t' (s.icache k).inum }
  wrote : Wrote (fun _ => True) 0 s s'

section Writing
variable {sb : Superblock} {t : Table} {s : St} {k i : Nat} {de : List UInt8} {E : Stop → St → Prop}

theorem length_dirOf (d : IsDir sb t s k) : DESIZE * (dirOf sb t s k).length = (t (s.icache k).inum).size := by
  have hwhole := d.whole
  rw [dirOf, dirSlots, List.length_map, length_entries, length_dirBytes]
  rw [desize] at hwhole ⊢
  omega

theorem IsDir.edited {t' : Table} {s' : St} (d : IsDir sb t s k) (hde : de.length = DESIZE)
    (hi : i ≤ (dirOf sb t s k).length) (hr : Rewrote sb t s k t' s')
    (hst : (∀ bn, bn * BSIZE < DESIZE * i → ref sb t s.blk ((s.icache k).inum, dataSlot bn) ≠ 0) →
      (∀ j < DESIZE, (Src.kernel de).byte j ≠ none) →
        (t' (s.icache k).inum).size = max (t (s.icache k).inum).size (DESIZE * i + DESIZE) ∧
        Stored sb (.kernel de) 0 (DESIZE * i) DESIZE (s.icache k).inum t s.blk t' s'.blk) :
    Edited sb t s k (put (dirOf sb t s k) i (Dirent.ofBytes de).slot) t' s' := by
  have hlen := length_dirOf d
  have hoff : DESIZE * i ≤ (t (s.icache k).inum).size := hlen ▸ Nat.mul_le_mul_left _ hi
  obtain ⟨hsize, hst⟩ := hst (fun bn hb => d.full bn (by omega)) fun j hj => by
    rw [Src.byte, List.getElem?_eq_getElem (hde ▸ hj)]
    exact Option.some_ne_none _
  obtain ⟨hcontent, hfull⟩ := hst.content d.full hoff hsize hde fun _ _ => rfl
  have hinum : (s'.icache k).inum = (s.icache k).inum := by rw [hr.self]
  have hwhole := d.whole
  refine ⟨⟨hr.cached, ?_, ?_, ?_, ?_⟩, hinum, ?_, ?_, hr.table_eq, fun i hi => hr.content hi, hr.others⟩
  · rw [hinum, hr.fields]
    exact d.type
  · rw [hinum]
    exact hfull
  · rw [hinum, hsize]
    rw [desize] at hwhole ⊢
    omega
  · rw [hr.self]
    exact d.held
  · rw [dirOf, dirBytes, hinum, hcontent]
    exact dirSlots_patch (by rw [length_content]; exact hwhole) (by rw [length_content]; exact hoff) hde
  · rw [hsize, put]
    split
    · next hlt =>
      rw [List.length_set, hlen]
      have := Nat.mul_le_mul_left DESIZE (Nat.succ_le_of_lt hlt)
      rw [hlen, Nat.mul_succ] at this
      omega
    · next hge =>
      rw [List.length_append, List.length_singleton, Nat.mul_add, Nat.mul_one, hlen]
      have : i = (dirOf sb t s k).length := by omega
      rw [this, hlen]
      omega

theorem IsDir.writei (hl : Layout sb) (d : IsDir sb t s k) (hde : de.length = DESIZE) (hi : i ≤ (dirOf sb t s k).length)
    (hmax : DESIZE * i + DESIZE ≤ MAXFILE * BSIZE) (hw : CanWrite sb t s k (DESIZE * i)) :
    wp (writei sb k (.kernel de) (DESIZE * i) DESIZE) (fun r s' => r = DESIZE ∧
      ∃ t', Edited sb t s k (put (dirOf sb t s k) i (Dirent.ofBytes de).slot) t' s') E s := by
  have hoff : DESIZE * i ≤ (t (s.icache k).inum).size := length_dirOf d ▸ Nat.mul_le_mul_left _ hi
  refine (writei_done (.kernel de) hl d.toCached hw.op hoff hmax hw.free hw.log).total ?_
  rintro r s' ⟨rfl, t', hr, -, -, hst⟩
  exact ⟨rfl, t', d.edited hde hi hr hst⟩

/-- The same without the resources: the call may stop, or refuse. -/
theorem IsDir.writei_edits (hl : Layout sb) (h : Inv sb none t s) (hk : Live s k) (d : IsDir sb t s k)
    (hop : 1 ≤ s.outstanding) (hde : de.length = DESIZE) (hi : i ≤ (dirOf sb t s k).length)
    (hin : (Dirent.ofBytes de).inum < sb.ninodes) :
    wp (Fs.writei sb k (.kernel de) (DESIZE * i) DESIZE) (fun r s' => r = -1 ∨ r = DESIZE ∧
      ∃ t', Edited sb t s k (put (dirOf sb t s k) i (Dirent.ofBytes de).slot) t' s' ∧ EntryWritten sb t s k t' s')
      (fun _ _ => True) s := by
  have hoff : DESIZE * i ≤ (t (s.icache k).inum).size := length_dirOf d ▸ Nat.mul_le_mul_left _ hi
  by_cases hmax : DESIZE * i + DESIZE ≤ MAXFILE * BSIZE
  · have hread : ∀ j < DESIZE, (Src.kernel de).byte j ≠ none := fun j hj => by
      rw [Src.byte, List.getElem?_eq_getElem (by omega)]
      exact Option.some_ne_none _
    refine (writei_stored hl h hk hop (by decide) hoff hmax hread fun _ =>
      ⟨de, rfl, hde, rfl, Nat.mul_mod_right _ _, hin⟩).imp fun r s' h' => ?_
    obtain ⟨rfl, t', hr, hw, hsize, hst, hlog⟩ := h'
    have hnlink : ∀ i, (t' i).nlink = (t i).nlink := fun j => by
      by_cases e : j = (s.icache k).inum
      · rw [e, hr.fields]
      · rw [hr.table j e]
    exact .inr ⟨rfl, t', d.edited hde hi hr fun _ _ => ⟨hsize, hst⟩, hw.inv, hnlink, hr.self, hlog⟩
  · have hsize : (t (s.icache k).inum).size ≤ MAXFILE * BSIZE := d.full.size_le
    have htop : MAXFILE * BSIZE = 274432 := rfl
    refine (writei_refuses (.kernel de) d.toCached (by omega) (by decide) (.inr (.inr (by omega)))).mono
      (fun r s' h' => .inl h'.1) fun _ _ _ => trivial

end Writing

/-! ## The map -/

section Map
variable {sb : Superblock} {t : Table} {s : St} {k : Nat} {name : List UInt8} {inum : Nat} {E : Stop → St → Prop}

theorem IsDir.dirlink_present (d : IsDir sb t s k) {old : Nat} (h : lookup (dirOf sb t s k) (cut name) = some old)
    (hget : CanGet s (s.icache k).dev old) (inum : Nat) :
    wp (dirlink sb k name inum) (fun r s' => r = -1 ∧ SameInUse s s') E s := by
  unfold dirlink
  rw [wp_bind]
  refine d.dirlookup_some h ((iget_gets hget).mono (fun ip s' g => ?_) fun _ _ => id)
  dsimp only
  rw [wp_bind]
  have hput : wp (iput sb ip) (fun _ => SameInUse s) E s' := g.iput
  exact hput.imp fun _ _ hs => (wp_pure _).2 ⟨rfl, hs⟩

/-- The bytes that `dirlink` writes. -/
def newEntry (name : List UInt8) (inum : Nat) : List UInt8 := Dirent.bytes ⟨inum % 65536, strncpy name DIRSIZ⟩

theorem length_newEntry (name : List UInt8) (inum : Nat) : (newEntry name inum).length = DESIZE := by
  rw [newEntry, Dirent.bytes, List.length_cons, List.length_cons, length_strncpy]
  rfl

theorem IsDir.dirlink_absent {Q : Int → St → Prop} (d : IsDir sb t s k) (h : lookup (dirOf sb t s k) (cut name) = none)
    (hw : wp (Fs.writei sb k (.kernel (newEntry name inum)) (DESIZE * free (dirOf sb t s k)) DESIZE)
      (fun r s' => if r ≠ DESIZE then E .dirlink s' else Q 0 s') E s) : wp (dirlink sb k name inum) Q E s := by
  unfold dirlink
  rw [wp_bind]
  refine d.dirlookup_none h ?_
  dsimp only
  rw [wp_bind, wp_get, d.di, wp_bind]
  refine d.scan_all _ _ ?_
  rw [← free_dirSlots]
  refine hw.seq fun r s' hr => ?_
  split at hr
  · next hne =>
    rw [if_pos hne]
    exact (wp_bind _ _).2 ((wp_throw _).2 hr)
  · next heq =>
    rw [if_neg heq]
    exact (wp_pure _).2 hr

theorem IsDir.dirlink_new (hl : Layout sb) (d : IsDir sb t s k) (h : lookup (dirOf sb t s k) (cut name) = none)
    (h1 : 1 ≤ inum) (h2 : inum ≤ 65535) (hmax : (t (s.icache k).inum).size < MAXFILE * BSIZE)
    (hw : CanWrite sb t s k (DESIZE * free (dirOf sb t s k))) :
    wp (dirlink sb k name inum) (fun r s' => r = 0 ∧
      ∃ t', Edited sb t s k (put (dirOf sb t s k) (free (dirOf sb t s k)) (some (cut name, inum))) t' s') E s := by
  have hfit : DESIZE * free (dirOf sb t s k) + DESIZE ≤ MAXFILE * BSIZE := by
    have hlen := length_dirOf d
    have hle := free_le (dirOf sb t s k)
    have htop : MAXFILE * BSIZE = 274432 := rfl
    rw [desize] at hlen ⊢
    omega
  refine d.dirlink_absent h ((d.writei hl (length_newEntry name inum) (free_le _) hfit hw).imp fun r s' hr => ?_)
  obtain ⟨rfl, t', he⟩ := hr
  rw [newEntry, slot_new name h1 h2] at he
  rw [if_neg (not_not.2 rfl)]
  exact ⟨rfl, t', he⟩

theorem IsDir.dirlink_edits (hl : Layout sb) (h : Inv sb none t s) (hk : Live s k) (d : IsDir sb t s k)
    (hop : 1 ≤ s.outstanding) (hin : inum < sb.ninodes) :
    wp (dirlink sb k name inum) (fun r s' => r = -1 ∨ r = 0 ∧ lookup (dirOf sb t s k) (cut name) = none ∧
      ∃ t', Edited sb t s k (put (dirOf sb t s k) (free (dirOf sb t s k)) (Dirent.ofBytes (newEntry name inum)).slot) t' s' ∧
        EntryWritten sb t s k t' s') (fun _ _ => True) s := by
  cases hlk : lookup (dirOf sb t s k) (cut name) with
  | none =>
    have hinum : (Dirent.ofBytes (newEntry name inum)).inum < sb.ninodes := by
      rw [newEntry, ofBytes_bytes (Nat.mod_lt _ (by decide))]
      exact Nat.lt_of_le_of_lt (Nat.mod_le _ _) hin
    refine d.dirlink_absent hlk ?_
    refine (d.writei_edits hl h hk hop (length_newEntry name inum) (free_le _) hinum).imp fun r s' hr => ?_
    rcases hr with rfl | ⟨rfl, hr⟩
    · rw [if_pos (by decide)]
      trivial
    · rw [if_neg (not_not.2 rfl)]
      exact .inr ⟨rfl, rfl, hr⟩
  | some old =>
    unfold dirlink
    rw [wp_bind]
    refine d.dirlookup_some hlk (wp_of_all (fun ip s' => ?_) fun _ _ => trivial)
    exact (always_bind fun _ => always_pure rfl : Always (· = (-1 : Int)) _).wp (fun _ _ h1 => .inl h1) s'

/-- `dirlookup`, `dirlink` and the removal of an entry look up, insert and erase in the finite map that the entries of
a directory are. -/
theorem directory_is_map (hl : Layout sb) (d : IsDir sb t s k) (hu : Unique (dirOf sb t s k)) (name : List UInt8) :
    (lookup (dirOf sb t s k) (cut name) = none → exec (dirlookup sb k name) s = (.ok none, s)) ∧
    (∀ inum, lookup (dirOf sb t s k) (cut name) = some inum → CanGet s (s.icache k).dev inum →
      ∃ ip j s', exec (dirlookup sb k name) s = (.ok (some (ip, DESIZE * j)), s') ∧
        (dirOf sb t s k)[j]? = some (some (cut name, inum)) ∧ Gets s (s.icache k).dev inum ip s') ∧
    (∀ inum, 1 ≤ inum → inum ≤ 65535 →
      (∀ old, lookup (dirOf sb t s k) (cut name) = some old → CanGet s (s.icache k).dev old →
        ∃ s', exec (dirlink sb k name inum) s = (.ok (-1), s') ∧ SameInUse s s') ∧
      (lookup (dirOf sb t s k) (cut name) = none → (t (s.icache k).inum).size < MAXFILE * BSIZE →
        CanWrite sb t s k (DESIZE * free (dirOf sb t s k)) →
        ∃ t' s', exec (dirlink sb k name inum) s = (.ok 0, s') ∧
          Edited sb t s k (put (dirOf sb t s k) (free (dirOf sb t s k)) (some (cut name, inum))) t' s' ∧
          lookup (dirOf sb t' s' k) = Function.update (lookup (dirOf sb t s k)) (cut name) (some inum) ∧
          Unique (dirOf sb t' s' k))) ∧
    ∀ ip off s₁, exec (dirlookup sb k name) s = (.ok (some (ip, off)), s₁) →
      ∀ t₂ s₂ k₂, IsDir sb t₂ s₂ k₂ → dirBytes sb t₂ s₂ k₂ = dirBytes sb t s k → CanWrite sb t₂ s₂ k₂ off →
        ∃ t' s', exec (writei sb k₂ (.kernel (List.replicate DESIZE 0)) off DESIZE) s₂ = (.ok (DESIZE : Int), s') ∧
          Edited sb t₂ s₂ k₂ (put (dirOf sb t s k) (off / DESIZE) none) t' s' ∧
          lookup (dirOf sb t' s' k₂) = Function.update (lookup (dirOf sb t s k)) (cut name) none ∧
          Unique (dirOf sb t' s' k₂) := by
  refine ⟨fun h => ?_, fun inum h hget => ?_, fun inum h1 h2 => ⟨fun old h hget => ?_, fun h hmax hw => ?_⟩, ?_⟩
  · obtain ⟨r, s', he, rfl, rfl⟩ :=
      (d.dirlookup_none (Q := fun r s' => r = none ∧ s' = s) (E := fun _ _ => False) h ⟨rfl, rfl⟩).returns
    exact he
  · have hlook : wp (dirlookup sb k name) (fun r s' => ∃ ip, r = some (ip, DESIZE * index (dirOf sb t s k) (cut name)) ∧
        Gets s (s.icache k).dev inum ip s') (fun _ _ => False) s :=
      d.dirlookup_some h ((iget_gets hget).mono (fun ip s' g => ⟨ip, rfl, g⟩) fun _ _ => id)
    obtain ⟨r, s', he, ip, rfl, g⟩ := hlook.returns
    exact ⟨ip, _, s', he, index_of_lookup h, g⟩
  · obtain ⟨r, s', he, rfl, hs⟩ := (d.dirlink_present (E := fun _ _ => False) h hget inum).returns
    exact ⟨s', he, hs⟩
  · obtain ⟨r, s', he, rfl, t', hed⟩ := (d.dirlink_new (E := fun _ _ => False) hl h h1 h2 hmax hw).returns
    refine ⟨t', s', he, hed, ?_, ?_⟩
    · rw [hed.slots, hu.lookup_insert h]
    · rw [hed.slots]
      exact hu.insert h inum
  · intro ip off s₁ he t₂ s₂ k₂ d₂ hbytes hw
    have hdir : dirOf sb t₂ s₂ k₂ = dirOf sb t s k := by rw [dirOf, dirOf, hbytes]
    -- the entry found is that of the name
    obtain ⟨inum, hfound, rfl⟩ : ∃ inum, lookup (dirOf sb t s k) (cut name) = some inum ∧
        off = DESIZE * index (dirOf sb t s k) (cut name) := by
      cases hlk : lookup (dirOf sb t s k) (cut name) with
      | none =>
        have hnone := d.dirlookup_none (Q := fun r _ => r = none) (E := fun _ _ => True) hlk rfl
        cases hnone.ok he
      | some inum =>
        refine ⟨inum, rfl, ?_⟩
        have hsome := d.dirlookup_some (E := fun _ _ => True) hlk
          (Q := fun r _ => ∃ ip, r = some (ip, DESIZE * index (dirOf sb t s k) (cut name)))
          (wp_of_all (fun ip _ => ⟨ip, rfl⟩) fun _ _ => trivial)
        obtain ⟨_, hr⟩ := hsome.ok he
        exact (Prod.mk.inj (Option.some.inj hr)).2
    have hslot := index_of_lookup hfound
    have hlt := (List.getElem?_eq_some_iff.1 hslot).1
    have hlen := length_dirOf d₂
    have hfit : DESIZE * index (dirOf sb t s k) (cut name) + DESIZE ≤ MAXFILE * BSIZE := by
      have hmax := d₂.full.size_le
      rw [hdir] at hlen
      rw [desize] at hlen ⊢
      omega
    obtain ⟨r, s', hx, rfl, t', hed⟩ := (d₂.writei (E := fun _ _ => False) hl List.length_replicate
      (by rw [hdir]; exact Nat.le_of_lt hlt) hfit hw).returns
    rw [hdir, slot_zero] at hed
    rw [Nat.mul_div_cancel_left _ (by decide)]
    refine ⟨t', s', hx, hed, ?_, ?_⟩
    · rw [hed.slots, hu.lookup_remove hslot]
    · rw [hed.slots]
      exact hu.remove hslot

end Map

/-! ## Small directories -/

/-- The small image, with the root directory in entry 0 of the cache, in a transaction. -/
def tinyDir : St := { tinySt with
  icache := fun k => ⟨ROOTDEV, 1, if k = 0 then 1 else 0, some 0, true, dinode tinySb tinyDisk 1⟩
  outstanding := 1 }

theorem isDir_tiny (s : St) (hblk : s.blk = tinyDisk)
    (h0 : s.icache 0 = ⟨ROOTDEV, 1, 1, some 0, true, dinode tinySb tinyDisk 1⟩) :
    IsDir tinySb (dinode tinySb tinyDisk) s 0 := by
  have hfile := files_tiny.each 1 (by decide)
  refine ⟨⟨?_, ?_, ?_, ?_⟩, ?_, ?_, ?_, ?_⟩
  · rw [hblk]
    exact owned_tiny
  all_goals rw [h0]
  · decide
  · exact getDinode_ok _ _
  · decide +kernel
  · rw [hblk]
    exact hfile.full
  · decide +kernel
  · decide

theorem dirOf_tiny (s : St) (hblk : s.blk = tinyDisk) (h0 : (s.icache 0).inum = 1) :
    dirOf tinySb (dinode tinySb tinyDisk) s 0 = [some ([46], 1), some ([46, 46], 1), some ([102], 2)] := by
  rw [dirOf, dirBytes, hblk, h0]
  decide +kernel

theorem unique_tiny : Unique [some (([46] : List UInt8), 1), some ([46, 46], 1), some ([102], 2)] := by
  intro i j k v w hi hj
  have hi3 := (List.getElem?_eq_some_iff.1 hi).1
  have hj3 := (List.getElem?_eq_some_iff.1 hj).1
  simp only [List.length_cons, List.length_nil] at hi3 hj3
  obtain rfl | rfl | rfl : i = 0 ∨ i = 1 ∨ i = 2 := by omega
  all_goals obtain rfl | rfl | rfl : j = 0 ∨ j = 1 ∨ j = 2 := by omega
  all_goals
    cases hi
    first
      | rfl
      | cases hj

/-- "g" is linked in the small image. -/
theorem directory_is_map_tiny : ∃ t' s', exec (dirlink tinySb 0 [103] 2) tinyDir = (.ok 0, s') ∧
    lookup (dirOf tinySb t' s' 0) [103] = some 2 ∧ lookup (dirOf tinySb t' s' 0) [102] = some 2 := by
  have hdir := dirOf_tiny tinyDir rfl rfl
  have hm := directory_is_map layout_tiny (isDir_tiny tinyDir rfl rfl) (hdir ▸ unique_tiny) [103]
  have hcan : CanWrite tinySb (dinode tinySb tinyDisk) tinyDir 0 (DESIZE * free (dirOf tinySb (dinode tinySb tinyDisk) tinyDir 0)) := by
    rw [hdir]
    refine ⟨by decide, by decide +kernel, ?_⟩
    unfold LogRoom
    decide +kernel
  obtain ⟨t', s', he, -, hl, -⟩ := (hm.2.2.1 2 (by decide) (by decide)).2 (hdir ▸ by decide) (by decide +kernel) hcan
  refine ⟨t', s', he, ?_, ?_⟩
  · rw [hl, hdir]
    decide
  · rw [hl, hdir]
    decide

/-- A disk without data blocks. -/
def fullSb : Superblock := ⟨48, 0, 3, 30, 2, 32, 45⟩

/-- Directories without entries. -/
def emptyDirs : Table := fun _ => ⟨T_DIR, 0, 0, 1, 0, fun _ => 0⟩

def fullSt : St := { blankSt with icache := fun k => ⟨ROOTDEV, 1, if k = 0 then 1 else 0, some 0, true, emptyDirs 1⟩ }

theorem ref_full (blk : Nat → Arr) (x : Nat × Nat) : ref fullSb emptyDirs blk x = 0 := by
  unfold ref emptyDirs
  simp

theorem isDir_full : IsDir fullSb emptyDirs fullSt 0 := by
  refine ⟨⟨⟨⟨fun x hx => absurd (ref_full _ x) hx, fun x y hx _ => absurd (ref_full _ x) hx, fun b hlo hhi => ?_⟩,
    by decide +kernel⟩, by decide, rfl, ⟨by decide, by decide, by decide, by decide, by decide, fun _ => Nat.two_pow_pos 32, fun _ _ => rfl⟩⟩,
    rfl, fun bn hbn => absurd hbn (Nat.not_lt_zero _), rfl, by decide⟩
  exact absurd hhi (Nat.not_lt.2 hlo)

/-- The small image with every entry of the inode cache in use. -/
def crowdedDir : St := { tinyDir with
  icache := fun k => if k = 0 then tinyDir.icache 0 else ⟨ROOTDEV, k + 1000, 1, none, false, dinode tinySb tinyDisk 0⟩ }

/-- The names of a directory do not say whether there is an entry of the inode cache for the inode found, a transaction
with room in the log, and a free block: without them the kernel stops. -/
theorem directory_lacks : (∃ s : St, IsDir tinySb (dinode tinySb tinyDisk) s 0 ∧
      Unique (dirOf tinySb (dinode tinySb tinyDisk) s 0) ∧
      lookup (dirOf tinySb (dinode tinySb tinyDisk) s 0) (cut [102]) = some 2 ∧
      (exec (dirlookup tinySb 0 [102]) s).1 = .error .igetNone) ∧
    (∃ s : St, IsDir tinySb (dinode tinySb tinyDisk) s 0 ∧ Unique (dirOf tinySb (dinode tinySb tinyDisk) s 0) ∧
      lookup (dirOf tinySb (dinode tinySb tinyDisk) s 0) (cut [103]) = none ∧
      (exec (dirlink tinySb 0 [103] 2) s).1 = .error .outsideTrans) ∧
    (∃ s : St, IsDir tinySb (dinode tinySb tinyDisk) s 0 ∧ Unique (dirOf tinySb (dinode tinySb tinyDisk) s 0) ∧
      lookup (dirOf tinySb (dinode tinySb tinyDisk) s 0) (cut [103]) = none ∧ 1 ≤ s.outstanding ∧
      (exec (dirlink tinySb 0 [103] 2) s).1 = .error .tooBig) ∧
    ∃ s : St, IsDir fullSb emptyDirs s 0 ∧ Unique (dirOf fullSb emptyDirs s 0) ∧
      lookup (dirOf fullSb emptyDirs s 0) (cut [103]) = none ∧ 1 ≤ s.outstanding ∧ s.lh = [] ∧
      (exec (dirlink fullSb 0 [103] 2) s).1 = .error .outOfBlocks := by
  have hnil : dirOf fullSb emptyDirs fullSt 0 = [] := rfl
  refine ⟨⟨crowdedDir, isDir_tiny _ rfl rfl, ?_, ?_, by decide +kernel⟩,
    ⟨{ tinyDir with outstanding := 0 }, isDir_tiny _ rfl rfl, ?_, ?_, by decide +kernel⟩,
    ⟨{ tinyDir with lh := List.range 30 }, isDir_tiny _ rfl rfl, ?_, ?_, by decide, by decide +kernel⟩,
    fullSt, isDir_full, ?_, ?_, by decide, rfl, by decide +kernel⟩
  all_goals first
    | rw [hnil]; exact fun _ _ _ _ _ h => by cases h
    | rw [hnil]; rfl
    | rw [dirOf_tiny _ rfl rfl]; exact unique_tiny
    | rw [dirOf_tiny _ rfl rfl]; decide

end Xv6.Fs
