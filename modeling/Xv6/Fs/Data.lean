import Xv6.Fs.Blocks
import Xv6.Fs.Frame
/-!
# The bytes of a file

`byteAt` reads a file as `readi` does. `Stored` says that a part of a source is in
a file and that every other byte of the file is as it was; it is put together
block by block.
-/

namespace Xv6.Fs

open Bytes Hoare Owner Function List

def byteAt (sb : Superblock) (t : Table) (blk : Nat → Arr) (i o : Nat) : UInt8 :=
  blk (ref sb t blk (i, dataSlot (o / BSIZE))) (o % BSIZE)

/-- The blocks that `n` bytes from `off` on lie in. -/
def spans (off n : Nat) : Nat := if n = 0 then 0 else (off % BSIZE + n + BSIZE - 1) / BSIZE

section Bytes
variable {sb : Superblock} {t t' : Table} {blk : Nat → Arr} {i k n off o b : Nat} {src : Src}

theorem block_lt {o size : Nat} (h : o < size) : o / BSIZE * BSIZE < size :=
  Nat.lt_of_le_of_lt (Nat.div_mul_le_self o BSIZE) h

theorem same_block {off bn m : Nat} (hm : m ≤ BSIZE - off % BSIZE) (h1 : bn * BSIZE < off + m)
    (h2 : ¬ bn * BSIZE < off) :
    bn = off / BSIZE := by
  simp only [BSIZE] at *
  omega

theorem byteAt_blit {data : List UInt8} (h : Owned sb t blk) (hr : ref sb t blk (i, dataSlot (off / BSIZE)) = b)
    (hb : b ≠ 0)
    (hlen : data.length ≤ BSIZE - off % BSIZE) (o : Nat) :
    byteAt sb t (update blk b (blit (blk b) (off % BSIZE) data)) i o =
      if off ≤ o ∧ o < off + data.length then data.getD (o - off) 0 else byteAt sb t blk i o := by
  unfold byteAt
  rw [h.ref_data (dataSlot_ne _) hr]
  by_cases hob : o / BSIZE = off / BSIZE
  · rw [hob, hr, update_self]
    have h1 := Nat.div_add_mod o BSIZE
    have h2 := Nat.div_add_mod off BSIZE
    have hpos : off % BSIZE ≤ o % BSIZE ∧ o % BSIZE < off % BSIZE + data.length ↔ off ≤ o ∧ o < off + data.length := by
      rw [hob] at h1
      omega
    unfold blit
    by_cases hin : off ≤ o ∧ o < off + data.length
    · rw [if_pos (hpos.2 hin), if_pos hin]
      congr 1
      rw [hob] at h1
      omega
    · rw [if_neg fun hc => hin (hpos.1 hc), if_neg hin]
  · have hne : ref sb t blk (i, dataSlot (o / BSIZE)) ≠ b := fun e => by
      rw [← hr] at e hb
      exact hob (dataSlot_inj (Prod.mk.inj (h.own.inj _ _ (e ▸ hb) e)).2)
    have hout : ¬ (off ≤ o ∧ o < off + data.length) := by
      intro hc
      have h0 : 0 < BSIZE := by decide
      have hmod := Nat.mod_lt off h0
      have hend : o / BSIZE * BSIZE < off + data.length := Nat.lt_of_le_of_lt (Nat.div_mul_le_self o BSIZE) hc.2
      by_cases hlt : o / BSIZE * BSIZE < off
      · have hle : off / BSIZE ≤ o / BSIZE := Nat.div_le_div_right hc.1
        have hlt' : o / BSIZE ≤ off / BSIZE := (Nat.le_div_iff_mul_le h0).2 (Nat.le_of_lt hlt)
        exact hob (Nat.le_antisymm hlt' hle)
      · exact hob (same_block hlen hend hlt)
    rw [update_of_ne hne, if_neg hout]

theorem Src.copyin_get {tot m j : Nat} (h : ∀ j < m, src.byte (tot + j) ≠ none) (hj : j < m) :
    src.byte (tot + j) = some ((src.copyin tot m).getD j 0) := by
  cases src with
  | kernel bytes =>
    have hlt : tot + j < bytes.length := by
      by_contra hge
      exact h j hj (getElem?_eq_none (by omega))
    simp only [Src.byte, Src.copyin, getD_eq_getElem?_getD]
    rw [getElem?_take_of_lt hj, getElem?_drop, getElem?_eq_getElem hlt]
    rfl
  | user mem addr =>
    have hall : ((List.range m).map fun i => mem ((addr + tot + i) % 2 ^ 64)).takeWhile Option.isSome =
        (List.range m).map fun i => mem ((addr + tot + i) % 2 ^ 64) := by
      refine takeWhile_eq_self_iff.2 fun x hx => ?_
      obtain ⟨i, hi, rfl⟩ := mem_map.1 hx
      have := h i (mem_range.1 hi)
      rw [Src.byte, ← Nat.add_assoc] at this
      exact Option.isSome_iff_ne_none.2 this
    have hj' := h j hj
    obtain ⟨v, hv⟩ := Option.ne_none_iff_exists'.1 hj'
    rw [hv]
    simp only [Src.copyin, hall, getD_eq_getElem?_getD, getElem?_map, getElem?_range hj, Option.map_some]
    rw [Src.byte, ← Nat.add_assoc] at hv
    rw [hv]
    rfl

theorem Src.length_copyin {tot m : Nat} (h : ∀ j < m, src.byte (tot + j) ≠ none) : (src.copyin tot m).length = m := by
  have hle : (src.copyin tot m).length ≤ m := by
    cases src with
    | kernel bytes =>
      rw [Src.copyin, length_take]
      exact Nat.min_le_left _ _
    | user mem addr =>
      rw [Src.copyin, length_map]
      exact (List.takeWhile_prefix _).length_le.trans (by simp)
  by_contra hne
  have hlt : (src.copyin tot m).length < m := by omega
  exact h _ hlt (Src.copyin_short hlt).1

theorem spans_pos (off : Nat) (hn : 0 < n) : 0 < spans off n := by
  unfold spans
  rw [if_neg (by omega)]
  exact Nat.div_pos (by omega) (by decide)

theorem spans_le (off n : Nat) : spans off n ≤ n / BSIZE + 2 := by
  unfold spans
  split
  · exact Nat.zero_le _
  · have : off % BSIZE < BSIZE := Nat.mod_lt _ (by decide)
    simp only [BSIZE] at *
    omega

/-- The bytes `off ..` of the file come from `tot ..` of the source; the others stay. -/
structure Stored (sb : Superblock) (src : Src) (tot off m i : Nat) (t : Table) (blk : Nat → Arr) (t' : Table)
    (blk' : Nat → Arr) : Prop where
  new : ∀ j < m, some (byteAt sb t' blk' i (off + j)) = src.byte (tot + j)
  old : ∀ o, ref sb t blk (i, dataSlot (o / BSIZE)) ≠ 0 → o < off ∨ off + m ≤ o →
    byteAt sb t' blk' i o = byteAt sb t blk i o
  has : ∀ bn, bn * BSIZE < off + m → ref sb t' blk' (i, dataSlot bn) ≠ 0
  slot : ∀ x, ref sb t blk x ≠ 0 → ref sb t' blk' x = ref sb t blk x

theorem Stored.block {t₁ : Table} {blk₁ : Nat → Arr} {tot m : Nat} (h : Owned sb t₁ blk₁)
    (hslot : ∀ x, ref sb t blk x ≠ 0 → ref sb t₁ blk₁ x = ref sb t blk x)
    (hsame : ∀ o, ref sb t blk (i, dataSlot (o / BSIZE)) ≠ 0 → byteAt sb t₁ blk₁ i o = byteAt sb t blk i o)
    (hcov : ∀ bn, bn * BSIZE < off → ref sb t blk (i, dataSlot bn) ≠ 0)
    (hr : ref sb t₁ blk₁ (i, dataSlot (off / BSIZE)) = b) (hb : b ≠ 0) (hm : m ≤ BSIZE - off % BSIZE)
    (hread : ∀ j < m, src.byte (tot + j) ≠ none) :
    Stored sb src tot off m i t blk t₁ (update blk₁ b (blit (blk₁ b) (off % BSIZE) (src.copyin tot m))) := by
  have hlen := Src.length_copyin hread
  have hbyte := byteAt_blit h hr hb (show (src.copyin tot m).length ≤ BSIZE - off % BSIZE by omega)
  have href : ref sb t₁ (update blk₁ b (blit (blk₁ b) (off % BSIZE) (src.copyin tot m))) = ref sb t₁ blk₁ :=
    h.ref_data (dataSlot_ne _) hr
  rw [hlen] at hbyte
  refine ⟨fun j hj => ?_, fun o ho hout => ?_, fun bn hlt => ?_, fun x hx => ?_⟩
  · rw [hbyte, if_pos (by omega), Nat.add_sub_cancel_left]
    exact (Src.copyin_get hread hj).symm
  · rw [hbyte, if_neg (by omega), hsame o ho]
  · rw [href]
    by_cases he : bn * BSIZE < off
    · rw [hslot _ (hcov bn he)]
      exact hcov bn he
    · rw [same_block hm hlt he, hr]
      exact hb
  · rw [href, hslot x hx]

theorem Stored.trans {t₁ t₂ : Table} {blk₁ blk₂ : Nat → Arr} {tot m m' : Nat}
    (h₁ : Stored sb src tot off m i t blk t₁ blk₁)
    (h₂ : Stored sb src (tot + m) (off + m) m' i t₁ blk₁ t₂ blk₂) : Stored sb src tot off (m + m') i t blk t₂ blk₂ := by
  refine ⟨fun j hj => ?_, fun o ho hout => ?_, fun bn hbn => h₂.has bn (by omega), fun x hx => ?_⟩
  · by_cases hjm : j < m
    · have hne : ref sb t₁ blk₁ (i, dataSlot ((off + j) / BSIZE)) ≠ 0 :=
        h₁.has _ (Nat.lt_of_le_of_lt (Nat.div_mul_le_self _ _) (by omega))
      rw [h₂.old _ hne (.inl (by omega))]
      exact h₁.new j hjm
    · have := h₂.new (j - m) (by omega)
      rwa [show off + m + (j - m) = off + j by omega, show tot + m + (j - m) = tot + j by omega] at this
  · have hne : ref sb t₁ blk₁ (i, dataSlot (o / BSIZE)) ≠ 0 := by rw [h₁.slot _ ho]; exact ho
    rw [h₂.old o hne (by omega), h₁.old o ho (by omega)]
  · have h1 := h₁.slot x hx
    rw [h₂.slot x (h1 ▸ hx), h1]

theorem Stored.none {tot : Nat} (hcov : ∀ bn, bn * BSIZE < off → ref sb t blk (i, dataSlot bn) ≠ 0) :
    Stored sb src tot off 0 i t blk t blk :=
  ⟨fun _ hj => absurd hj (Nat.not_lt_zero _), fun _ _ _ => rfl, hcov, fun _ _ => rfl⟩

theorem byteAt_inodes {a : Arr} (h : Owned sb t blk) (hl : Layout sb) (hb : b < sb.bmapstart)
    (h0 : ref sb t blk (i, dataSlot (o / BSIZE)) ≠ 0) :
    byteAt sb t (update blk b a) i o = byteAt sb t blk i o := by
  have hlt : b < sb.nmeta := Nat.lt_of_lt_of_le hb hl.bmap_le
  unfold byteAt
  rw [h.ref_meta hlt, update_of_ne]
  have := (h.own.range _ h0).1
  omega

theorem byteAt_set {x : Dinode} (hx : x.addrs = (t k).addrs)
    : byteAt sb (update t k x) blk i o = byteAt sb t blk i o := by
  unfold byteAt
  rw [ref_set hx]

theorem Stored.set {tot m j : Nat} {blk' : Nat → Arr} {x : Dinode} (h : Stored sb src tot off m i t blk t' blk')
    (hx : x.addrs = (t' j).addrs) : Stored sb src tot off m i t blk (update t' j x) blk' := by
  refine ⟨fun j hj => ?_, fun o ho hout => ?_, fun bn hbn => ?_, fun y hy => ?_⟩
  · rw [byteAt_set hx]
    exact h.new j hj
  · rw [byteAt_set hx]
    exact h.old o ho hout
  · rw [ref_set hx]
    exact h.has bn hbn
  · rw [ref_set hx]
    exact h.slot y hy

theorem Stored.inodes {tot m : Nat} {blk' : Nat → Arr} {a : Arr} (h : Stored sb src tot off m i t blk t' blk')
    (hl : Layout sb) (hf : Owned sb t' blk') (hb : b < sb.bmapstart) :
    Stored sb src tot off m i t blk t' (update blk' b a) := by
  have hr := hf.ref_meta (a := a) (Nat.lt_of_lt_of_le hb hl.bmap_le)
  refine ⟨fun j hj => ?_, fun o ho hout => ?_, fun bn hbn => ?_, fun y hy => ?_⟩
  · rw [byteAt_inodes hf hl hb (h.has _ (Nat.lt_of_le_of_lt (Nat.div_mul_le_self _ _) (by omega)))]
    exact h.new j hj
  · rw [byteAt_inodes hf hl hb (by rw [h.slot _ ho]; exact ho)]
    exact h.old o ho hout
  · rw [hr]
    exact h.has bn hbn
  · rw [hr]
    exact h.slot y hy

end Bytes

end Xv6.Fs
