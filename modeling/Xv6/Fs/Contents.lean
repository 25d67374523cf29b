import Xv6.Fs.Writei
import Xv6.Fs.Image
/-!
# A file is a string of bytes

The contents of a file are the bytes that its blocks hold. `writei` replaces
a part of them, or adds to them, and `readi` reads a part of them; the contents
of all other files stay. A call of `writei` needs free blocks and room in the log.
-/

namespace Xv6.Fs

open Bytes Hoare Owner List

/-- The bytes of file `i`; a block that is missing reads as zeros. -/
def content (sb : Superblock) (t : Table) (blk : Nat → Arr) (i : Nat) : List UInt8 :=
  (List.range (t i).size).map fun o => if ref sb t blk (i, dataSlot (o / BSIZE)) = 0 then 0 else byteAt sb t blk i o

/-- All blocks of file `i` up to its size are allocated. -/
def Full (sb : Superblock) (t : Table) (blk : Nat → Arr) (i : Nat) : Prop :=
  ∀ bn, bn * BSIZE < (t i).size → ref sb t blk (i, dataSlot bn) ≠ 0

/-- The number of free blocks. -/
def nfree (sb : Superblock) (blk : Nat → Arr) : Nat := (List.range sb.size).countP fun b => !used sb blk b

/-- The blocks that a `writei` gives to the log, at most: data, free map, indirect block, and inode. -/
def logNeeds (sb : Superblock) (t : Table) (blk : Nat → Arr) (i off n : Nat) : Nat :=
  spans off n + lacking sb t blk i off n + 2

/-- The log takes `n` more blocks. -/
def LogRoom (sb : Superblock) (s : St) (n : Nat) : Prop := s.lh.length + n ≤ LOGSIZE ∧ s.lh.length + n ≤ sb.nlog - 1

section Content
variable {sb : Superblock} {t t' : Table} {s s' : St} {blk blk' : Nat → Arr} {i k n m off : Nat} {src : Src}
  {new : List UInt8}

@[simp] theorem length_content (sb : Superblock) (t : Table) (blk : Nat → Arr) (i : Nat) :
    (content sb t blk i).length = (t i).size := by
  unfold content
  rw [length_map, length_range]

theorem content_getElem? (h : Full sb t blk i) (o : Nat) :
    (content sb t blk i)[o]? = if o < (t i).size then some (byteAt sb t blk i o) else none := by
  unfold content
  rw [getElem?_map]
  split
  · next hlt =>
    rw [getElem?_range hlt, Option.map_some, if_neg (h _ (block_lt hlt))]
  · next hge =>
    rw [getElem?_eq_none (by rw [length_range]; omega), Option.map_none]

theorem Full.size_le (h : Full sb t blk i) : (t i).size ≤ MAXFILE * BSIZE := by
  by_contra hgt
  refine h MAXFILE (by omega) ?_
  unfold ref dataSlot
  rw [if_neg (show ¬ MAXFILE < NDIRECT by decide)]
  split
  · rw [if_neg (show ¬ MAXFILE + 1 ≤ NDIRECT by decide)]
    exact if_neg fun h => absurd h.2 (show ¬ MAXFILE + 1 ≤ NDIRECT + NINDIRECT by decide)
  · rfl

theorem Stored.content (h : Stored sb src 0 off n i t blk t' blk') (hfull : Full sb t blk i) (hoff : off ≤ (t i).size)
    (hsize : (t' i).size = max (t i).size (off + n)) (hnew : new.length = n) (hsrc : ∀ j < n, src.byte j = new[j]?) :
    content sb t' blk' i = patch (content sb t blk i) off new ∧ Full sb t' blk' i := by
  have hfull' : Full sb t' blk' i := by
    intro bn hbn
    by_cases hlt : bn * BSIZE < (t i).size
    · rw [h.slot _ (hfull bn hlt)]
      exact hfull bn hlt
    · exact h.has bn (by omega)
  refine ⟨?_, hfull'⟩
  apply ext_getElem?
  intro j
  rw [getElem?_patch (by rw [length_content]; exact hoff), content_getElem? hfull, content_getElem? hfull', hsize, hnew]
  by_cases hin : off ≤ j ∧ j < off + n
  · have hbyte := h.new (j - off) (by omega)
    rw [Nat.add_sub_cancel' hin.1, Nat.zero_add, hsrc _ (by omega)] at hbyte
    rw [if_pos hin, if_pos (by omega), hbyte]
  · rw [if_neg hin]
    by_cases hlt : j < (t i).size
    · rw [if_pos hlt, if_pos (by omega), h.old j (hfull _ (block_lt hlt)) (by omega)]
    · rw [if_neg hlt, if_neg (by omega)]

theorem Rewrote.content (h : Rewrote sb t s k t' s') (hi : i ≠ (s.icache k).inum) :
    content sb t' s'.blk i = content sb t s.blk i := by
  unfold Fs.content byteAt
  rw [h.table i hi]
  refine map_congr_left fun o _ => ?_
  rw [h.rest (i, dataSlot (o / BSIZE)) hi]
  split
  · rfl
  · next h0 => rw [h.data (i, dataSlot (o / BSIZE)) (dataSlot_ne _) hi h0]

theorem Rewrote.table_eq (h : Rewrote sb t s k t' s') : t' = Function.update t (s.icache k).inum (s'.icache k).di := by
  funext i
  by_cases hi : i = (s.icache k).inum
  · rw [hi, Function.update_self, h.self]
  · rw [Function.update_of_ne hi, h.table i hi]

theorem Lacks.elim {e : Stop} {ind n : Nat} (h : Lacks sb ind n m s e s') (hfree : m ≤ nfree sb s.blk)
    (hlh : ¬ LogFull sb s') : False := by
  rcases h.reason with ⟨-, hfull⟩ | ⟨-, A, hA, hall⟩
  · exact hlh hfull
  · -- The free blocks are among those of `A`.
    have hsub : (List.range sb.size).filter (fun b => !used sb s.blk b) ⊆ A := by
      intro b hb
      obtain ⟨hlt, hu⟩ := mem_filter.1 hb
      rcases hall b (mem_range.1 hlt) with h | h
      · rw [h] at hu
        cases hu
      · exact h
    have hle := ((nodup_range.filter _).subperm hsub).length_le
    unfold nfree at hfree
    rw [countP_eq_length_filter] at hfree
    omega

theorem writei_done (src : Src) (hl : Layout sb) (c : Cached sb t s k) (hop : 1 ≤ s.outstanding)
    (hoff : off ≤ (t (s.icache k).inum).size) (hmax : off + n ≤ MAXFILE * BSIZE)
    (hfree : lacking sb t s.blk (s.icache k).inum off n ≤ nfree sb s.blk)
    (hlog : LogRoom sb s (logNeeds sb t s.blk (s.icache k).inum off n)) :
    wp (writei sb k src off n) (fun r s' => r = n ∧ ∃ t', WriteDone sb src off n t s k t' s') (fun _ _ => False) s := by
  refine (writei_grew src hl c hop hoff hmax).mono (fun _ _ => id) fun e s' h => h.1.elim hfree fun hfull => ?_
  unfold LogRoom logNeeds at hlog
  rcases hfull with hf | hf <;> have := h.2 <;> omega

theorem writei_refuses (src : Src) (c : Cached sb t s k) (hoff : off < 2 ^ 32) (hn : n < 2 ^ 32)
    (hout : (t (s.icache k).inum).size < off ∨ 2 ^ 32 ≤ off + n ∨ MAXFILE * BSIZE < off + n) :
    wp (writei sb k src off n) (fun r s' => r = -1 ∧ s' = s) (fun _ _ => False) s := by
  unfold writei
  simp only [wp_bind, wp_get, wp_ite, wp_pure, c.di]
  refine ⟨fun _ => ⟨trivial, trivial⟩, fun h1 => ⟨fun _ => ⟨trivial, trivial⟩, fun h2 => ?_⟩⟩
  exfalso
  have hsum : off + n < 2 ^ 32 := by omega
  rw [Nat.mod_eq_of_lt hsum] at h2
  omega

theorem content_part (h : Full sb t blk i) (off n : Nat) : ((content sb t blk i).drop off).take n =
    (List.range (min n ((t i).size - off))).map fun j => byteAt sb t blk i (off + j) := by
  apply ext_getElem?
  intro j
  rw [getElem?_take, getElem?_drop, content_getElem? h, getElem?_map]
  by_cases hj : j < min n ((t i).size - off)
  · rw [if_pos (by omega), if_pos (by omega), getElem?_range hj]
    rfl
  · rw [getElem?_eq_none (by rw [length_range]; omega), Option.map_none]
    split
    · rw [if_neg (by omega)]
    · rfl

/-- `writei` writes, and `readi` reads, the string of bytes that the file is. -/
theorem contents_written_and_read (hl : Layout sb) (c : Cached sb t s k) (hfull : Full sb t s.blk (s.icache k).inum) :
    (∀ (off n : Nat) (src : Src) (new : List UInt8), off ≤ (t (s.icache k).inum).size → off + n ≤ MAXFILE * BSIZE →
      new.length = n → (∀ j < n, src.byte j = new[j]?) → lacking sb t s.blk (s.icache k).inum off n ≤ nfree sb s.blk →
      1 ≤ s.outstanding → LogRoom sb s (logNeeds sb t s.blk (s.icache k).inum off n) →
      ∃ s' t', exec (writei sb k src off n) s = (.ok (n : Int), s') ∧
        t' = Function.update t (s.icache k).inum (s'.icache k).di ∧ Cached sb t' s' k ∧
        content sb t' s'.blk (s.icache k).inum = patch (content sb t s.blk (s.icache k).inum) off new ∧
        (t' (s.icache k).inum).size = max (t (s.icache k).inum).size (off + n) ∧
        Full sb t' s'.blk (s.icache k).inum ∧
        (∀ i, i ≠ (s.icache k).inum → content sb t' s'.blk i = content sb t s.blk i) ∧
        (∀ i < sb.ninodes, i ≠ (s.icache k).inum → dinode sb s'.blk i = dinode sb s.blk i) ∧
        ∀ j, j ≠ k → s'.icache j = s.icache j) ∧
    (∀ (off n : Nat) (src : Src), off < 2 ^ 32 → n < 2 ^ 32 →
      (t (s.icache k).inum).size < off ∨ 2 ^ 32 ≤ off + n ∨ MAXFILE * BSIZE < off + n →
      exec (writei sb k src off n) s = (.ok (-1), s)) ∧
    ∀ (off n : Nat) (dst : Dst), n < 2 ^ 32 → (∀ j < n, dst.takes j = true) →
      ∃ out, exec (readi sb k dst off n) s = (.ok (out.length, out), s) ∧
        out = if (t (s.icache k).inum).size < off ∨ 2 ^ 32 ≤ off + n then []
          else ((content sb t s.blk (s.icache k).inum).drop off).take n := by
  refine ⟨fun off n src new hoff hmax hnew hsrc hfree hop hlog => ?_, fun off n src hoff hn hout => ?_, fun off n dst hn hdst => ?_⟩
  · obtain ⟨r, s', he, rfl, t', hw, -, -, hst⟩ := (writei_done src hl c hop hoff hmax hfree hlog).returns
    obtain ⟨hsize, hst⟩ := hst (fun bn hb => hfull bn (by omega)) fun j hj => by
      rw [hsrc j hj, getElem?_eq_getElem (hnew ▸ hj)]
      exact Option.some_ne_none _
    obtain ⟨hcontent, hfull'⟩ := hst.content hfull hoff hsize hnew hsrc
    exact ⟨s', t', he, hw.table_eq, hw.cached, hcontent, hsize, hfull', fun i hi => hw.content hi, hw.disk, hw.others⟩
  · obtain ⟨r, s', he, rfl, rfl⟩ := (writei_refuses src c hoff hn hout).returns
    exact he
  · obtain ⟨r, s', he, hs, hr⟩ := (readi_bytes dst off c hfull hn hdst).returns
    rw [hs, hr] at he
    refine ⟨_, ?_, rfl⟩
    rw [he]
    split
    · rfl
    · rw [content_part hfull, length_map, length_range]

end Content

/-- Three bytes are added to the file of the small image. -/
theorem contents_tiny : ∃ s' t', exec (writei tinySb 0 (.kernel [1, 2, 3]) 4 3) { tinySt with outstanding := 1 } =
      (.ok 3, s') ∧ content tinySb t' s'.blk 2 = [0, 0, 0, 0, 1, 2, 3] := by
  have c : Cached tinySb (dinode tinySb tinyDisk) { tinySt with outstanding := 1 } 0 :=
    ⟨owned_tiny, by decide, rfl, getDinode_ok _ _⟩
  have hfull : Full tinySb (dinode tinySb tinyDisk) tinyDisk 2 := (files_tiny.each 2 (by decide)).full
  have h0 : content tinySb (dinode tinySb tinyDisk) tinyDisk 2 = [0, 0, 0, 0] := by decide +kernel
  obtain ⟨s', t', he, -, -, hc, -⟩ := (contents_written_and_read layout_tiny c hfull).1 4 3 (.kernel [1, 2, 3]) [1, 2, 3]
    (by decide +kernel) (by decide) rfl (fun _ _ => rfl) (by decide +kernel) (by decide) (by
      unfold LogRoom
      decide +kernel)
  refine ⟨s', t', he, hc.trans ?_⟩
  show patch (content tinySb (dinode tinySb tinyDisk) tinyDisk 2) 4 [1, 2, 3] = _
  rw [h0]
  rfl

/-- The log has no room for a long write, and bytes that cannot be stored are not read. -/
theorem contents_log_too_small : (∃ s : St, Layout blankSb ∧ Cached blankSb (dinode blankSb blankDisk) s 0 ∧
      Full blankSb (dinode blankSb blankDisk) s.blk (s.icache 0).inum ∧ 1 ≤ s.outstanding ∧ s.lh = [] ∧
      0 + 30720 ≤ MAXFILE * BSIZE ∧ (∀ j < 30720, (Src.user (fun _ => some 0) 0).byte j = some 0) ∧
      lacking blankSb (dinode blankSb blankDisk) s.blk (s.icache 0).inum 0 30720 ≤ nfree blankSb s.blk ∧
      (exec (writei blankSb 0 (.user (fun _ => some 0) 0) 0 30720) s).1 = .error .tooBig) ∧
    ∃ s : St, Cached tinySb (dinode tinySb tinyDisk) s 0 ∧ Full tinySb (dinode tinySb tinyDisk) s.blk (s.icache 0).inum ∧
      (dinode tinySb tinyDisk (s.icache 0).inum).size = 4 ∧
      (exec (readi tinySb 0 (.user (fun _ => false) 0) 0 4) s).1 = .ok (0, []) := by
  refine ⟨⟨blankSt, layout_blank, ⟨owned_blank, by decide, rfl, getDinode_ok _ _⟩, fun bn hbn => ?_, by decide, rfl, by decide,
    fun _ _ => rfl, by decide +kernel, by decide +kernel⟩, tinySt, ⟨owned_tiny, by decide, rfl, getDinode_ok _ _⟩,
    (files_tiny.each 2 (by decide)).full, by decide +kernel, by decide +kernel⟩
  have h0 : (dinode blankSb blankDisk 2).size = 0 := by decide +kernel
  exact absurd (h0 ▸ hbn) (Nat.not_lt_zero _)

end Xv6.Fs
