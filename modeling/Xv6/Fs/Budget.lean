import Mathlib.Data.List.Dedup
import Xv6.Fs.Contents
/-!
# The blocks of one transaction

What one `writei` of `filewrite` gives to the log is within `MAXOPBLOCKS`,
however many blocks the free map has and wherever it has free blocks. That the
free map counts block 0 as used is needed: the code takes 0 for "no block".
-/

namespace Xv6.Fs

open Bytes Hoare Owner Function List

section Budget
variable {sb : Superblock} {t : Table} {s s' : St} {k n off : Nat}

/-- A chunk of `filewrite` lies in four blocks at most, and then the first of them is there. -/
theorem chunk_needs (hfull : Full sb t s.blk (s.icache k).inum) (hoff : off ≤ (t (s.icache k).inum).size)
    (hn : n ≤ chunk) :
    logNeeds sb t s.blk (s.icache k).inum off n ≤ MAXOPBLOCKS := by
  have hchunk : chunk = 3072 := rfl
  have hcount := countP_le_length (p := fun n => decide (ref sb t s.blk ((s.icache k).inum, dataSlot n) = 0))
    (l := List.range' (off / BSIZE) (spans off n))
  rw [length_range'] at hcount
  have hle : spans off n ≤ 4 := by
    unfold spans
    split
    · exact Nat.zero_le 4
    · simp only [BSIZE] at *
      omega
  unfold logNeeds lacking needs
  have hind : (if 0 < spans off n ∧ NDIRECT < off / BSIZE + spans off n ∧ (t (s.icache k).inum).addrs NDIRECT = 0 then 1 else 0) ≤ 1 := by
    split <;> decide
  by_cases h4 : spans off n = 4
  · -- The write begins within a block.
    have hin : off / BSIZE * BSIZE < off := by
      unfold spans at h4
      split at h4
      · omega
      · simp only [BSIZE] at *
        omega
    have hfirst := hfull _ (Nat.lt_of_lt_of_le hin hoff)
    rw [h4] at hcount ⊢
    rw [range'_succ, countP_cons, if_neg (by simpa using hfirst)]
    have := countP_le_length (p := fun n => decide (ref sb t s.blk ((s.icache k).inum, dataSlot n) = 0))
      (l := List.range' (off / BSIZE + 1) 3)
    rw [length_range'] at this
    rw [h4] at hind
    simp only [MAXOPBLOCKS]
    omega
  · simp only [MAXOPBLOCKS]
    omega

end Budget

/-- Five blocks of free map. -/
def oddSb : Superblock := ⟨40960, 40910, 3, 30, 2, 32, 45⟩

theorem layout_odd : Layout oddSb where
  inodes := by decide
  bits b hb := by
    have : b < 40960 := hb
    show b / 8192 + 45 < 50
    omega
  root := by decide
  pos := by decide
  small := by decide

/-- The run so far: the blocks `taken` from the free map, and the calls of `log_write`, the last one first. -/
structure Odd (taken calls : List Nat) (s : St) : Prop where
  used : ∀ c < oddSb.size, used oddSb s.blk c = decide (c % 8192 ≠ 0 ∨ c ∈ taken)
  outstanding : s.outstanding = 1
  myproc : s.myproc = 0
  lh : s.lh.length ≤ calls.length
  trace : s.trace = calls.map (Ev.logWrite 0)

section Odd
variable {taken calls : List Nat} {s : St} {b : Nat}

theorem Odd.logWrite (h : Odd taken calls s) (hroom : calls.length < 29) :
    wp (logWrite oddSb b) (fun _ s' => Odd taken (b :: calls) s' ∧ s'.blk = s.blk ∧ s'.icache = s.icache)
      (fun _ _ => False) s := by
  have hlh := h.lh
  unfold Fs.logWrite record
  simp only [wp_bind, wp_modify, wp_get, wp_ite, wp_throw, wp_set]
  refine ⟨fun hfull => ?_, fun _ => ⟨fun hout => ?_, fun _ => ⟨⟨h.used, h.outstanding, h.myproc, ?_, ?_⟩, trivial, trivial⟩⟩⟩
  · simp only [LOGSIZE, MAXOPBLOCKS, oddSb] at hfull
    omega
  · rw [h.outstanding] at hout
    exact absurd hout (by decide)
  · dsimp only
    rw [length_cons]
    split
    · omega
    · rw [length_append, length_singleton]
      omega
  · dsimp only
    rw [h.trace, h.myproc]
    rfl

theorem Odd.setBlk {a : Arr} (h : Odd taken calls s) (hb : oddSb.nmeta ≤ b ∨ b < oddSb.bmapstart) :
    Odd taken calls { s with blk := update s.blk b a } :=
  { h with used := fun c hc => (used_update layout_odd hc hb).trans (h.used c hc) }

theorem Odd.balloc (h : Odd taken calls s) (hb : b < oddSb.size) (h0 : b % 8192 = 0) (hnew : b ∉ taken)
    (hbelow : ∀ c < b, c % 8192 = 0 → c ∈ taken) (hroom : calls.length < 28) :
    wp (balloc oddSb) (fun b' s' => b' = b ∧ Odd (b :: taken) (b :: oddSb.bblock b :: calls) s' ∧ s'.icache = s.icache ∧
      (∀ j < BSIZE, s'.blk b j = 0) ∧ ∀ c, oddSb.nmeta ≤ c → c ≠ b → s'.blk c = s.blk c) (fun _ _ => False) s := by
  have hsize : oddSb.size = 40960 := rfl
  have hfind : (List.range oddSb.size).find? (fun b => !Fs.used oddSb s.blk b) = some b := by
    rw [find?_range_eq_some]
    refine ⟨by rw [h.used b hb]; simpa [h0] using hnew, mem_range.2 hb, fun c hc => ?_⟩
    rw [h.used c (by omega)]
    by_cases hc0 : c % 8192 = 0
    · simp [hbelow c hc hc0]
    · simp [hc0]
  have hmeta : oddSb.bblock b < oddSb.nmeta := layout_odd.bits b hb
  have hside : oddSb.nmeta ≤ b ∨ b < oddSb.bmapstart := by
    show 50 ≤ b ∨ b < 45
    omega
  unfold Fs.balloc
  rw [wp_bind, wp_get, hfind]
  dsimp only
  rw [wp_bind, wp_setBlk, wp_bind]
  have h₁ : Odd (b :: taken) calls
      { s with blk := update s.blk (oddSb.bblock b) (setBit (s.blk (oddSb.bblock b)) (b % BPB)) } := by
    refine { h with used := fun c hc => ?_ }
    refine (used_set b c).trans ?_
    rw [h.used c hc, ← Bool.decide_or]
    exact decide_eq_decide.2 (by rw [mem_cons, or_assoc, or_comm (a := c ∈ taken)])
  refine (h₁.logWrite (by omega)).imp ?_
  rintro _ s₂ ⟨h₂, hblk₂, hic₂⟩
  unfold bzero
  rw [wp_bind, wp_bind, wp_setBlk]
  refine ((h₂.setBlk hside).logWrite (Nat.succ_lt_succ hroom)).imp ?_
  rintro _ s₃ ⟨h₃, hblk₃, hic₃⟩
  refine (wp_pure _).2 ⟨rfl, h₃, hic₃.trans hic₂, fun j hj => ?_, fun c hc hne => ?_⟩
  · rw [hblk₃]
    dsimp only
    rw [update_self]
    exact if_pos ⟨Nat.zero_le j, by omega⟩
  · rw [hblk₃]
    dsimp only
    rw [update_of_ne hne, hblk₂]
    dsimp only
    rw [update_of_ne (by omega)]

theorem Odd.round {n fuel tot off m : Nat} {Q : Nat → St → Prop} {E : Stop → St → Prop} (hlt : tot < n)
    (hm : m = min (n - tot) (BSIZE - off % BSIZE))
    (h : wp (bmap oddSb 0 (off / BSIZE)) (fun b s₁ => ∃ taken calls, Odd taken calls s₁ ∧ calls.length < 29 ∧
      (oddSb.nmeta ≤ b ∨ b < oddSb.bmapstart) ∧ ∀ s₂, Odd taken (b :: calls) s₂ → s₂.icache = s₁.icache →
        (∀ c, c ≠ b → s₂.blk c = s₁.blk c) →
        wp (writeiLoop oddSb 0 (.user (fun _ => some 0) 0) n fuel (tot + m) (off + m)) Q E s₂) E s) :
    wp (writeiLoop oddSb 0 (.user (fun _ => some 0) 0) n (fuel + 1) tot off) Q E s := by
  have hlen : (Src.copyin (.user (fun _ => some 0) 0) tot m).length = m := Src.length_copyin fun _ _ => Option.some_ne_none _
  unfold writeiLoop
  rw [if_pos hlt, ← hm]
  refine h.seq ?_
  rintro b s₁ ⟨taken, calls, h₁, hroom, hside, hnext⟩
  dsimp only
  rw [wp_bind, wp_setBlk, if_neg (by omega), wp_bind]
  refine ((h₁.setBlk hside).logWrite hroom).total ?_
  rintro _ s₂ ⟨h₂, hblk₂, hic₂⟩
  refine hnext s₂ h₂ hic₂ fun c hne => ?_
  rw [hblk₂]
  exact update_of_ne hne _ _

theorem Odd.indirect {e ind : Nat} (h : Odd taken calls s) (hind : (s.icache 0).di.addrs NDIRECT = ind)
    (hz : le32 (s.blk ind) (4 * e) = 0) (hside : oddSb.nmeta ≤ ind ∨ ind < oddSb.bmapstart)
    (hb : b < oddSb.size) (h0 : b % 8192 = 0) (hnew : b ∉ taken)
    (hbelow : ∀ c < b, c % 8192 = 0 → c ∈ taken) (hroom : calls.length < 27) :
    wp (bmapIndirect oddSb 0 e) (fun b' s' => b' = b ∧ Odd (b :: taken) (ind :: b :: oddSb.bblock b :: calls) s' ∧
      s'.icache = s.icache ∧ (oddSb.nmeta ≤ ind → ind ≠ b → s'.blk ind = put32 (s.blk ind) (4 * e) b))
      (fun _ _ => False) s := by
  unfold bmapIndirect
  rw [wp_bind, wp_get, hind]
  dsimp only
  rw [if_pos hz]
  refine (h.balloc hb h0 hnew hbelow (by omega)).seq ?_
  rintro b' s₁ ⟨rfl, h₁, hic₁, -, hother⟩
  rw [wp_bind, wp_setBlk]
  refine ((h₁.setBlk hside).logWrite (Nat.succ_lt_succ (Nat.succ_lt_succ hroom))).seq ?_
  rintro _ s₂ ⟨h₂, hblk₂, hic₂⟩
  refine (wp_pure _).2 ⟨rfl, h₂, hic₂.trans hic₁, fun hc hne => ?_⟩
  rw [hblk₂]
  dsimp only
  rw [update_self, hother ind hc hne]

theorem Odd.newAddr (h : Odd taken calls s) (hb : b < oddSb.size) (h0 : b % 8192 = 0) (hnew : b ∉ taken)
    (hbelow : ∀ c < b, c % 8192 = 0 → c ∈ taken) (hroom : calls.length < 28) :
    wp (newAddr oddSb 0 NDIRECT) (fun b' s' => b' = b ∧ Odd (b :: taken) (b :: oddSb.bblock b :: calls) s' ∧
      (s'.icache 0).inum = (s.icache 0).inum ∧ (s'.icache 0).di.addrs NDIRECT = b ∧ ∀ j < BSIZE, s'.blk b j = 0)
      (fun _ _ => False) s := by
  unfold Fs.newAddr setAddr
  refine (h.balloc hb h0 hnew hbelow hroom).seq ?_
  rintro b' s₁ ⟨rfl, h₁, hic₁, hz, -⟩
  rw [wp_bind, wp_setDi, wp_pure]
  refine ⟨rfl, ⟨h₁.used, h₁.outstanding, h₁.myproc, h₁.lh, h₁.trace⟩, ?_, ?_, hz⟩
  · dsimp only
    rw [update_self, hic₁]
  · dsimp only
    rw [update_self]
    show update (s₁.icache 0).di.addrs NDIRECT b' NDIRECT = b'
    rw [update_self]

theorem le32_zeros {m : Arr} {a : Nat} (h : ∀ j < BSIZE, m j = 0) (ha : a + 4 ≤ BSIZE) : le32 m a = 0 :=
  calc le32 m a = le32 (fun _ => 0) a := le32_congr fun j _ hj => h j (by omega)
    _ = 0 := rfl

theorem Odd.bmap {bn : Nat} (ind b : Nat) (h : Odd taken calls s) (haddr : (s.icache 0).di.addrs NDIRECT = 0)
    (hbn : NDIRECT ≤ bn)
    (hbn' : bn < MAXFILE) (hlt : ind < b) (hb : b < oddSb.size) (hi0 : ind % 8192 = 0) (h0 : b % 8192 = 0)
    (hinew : ind ∉ taken)
    (hnew : b ∉ taken) (hibelow : ∀ c < ind, c % 8192 = 0 → c ∈ taken)
    (hbelow : ∀ c < b, c % 8192 = 0 → c ∈ ind :: taken) (hroom : calls.length < 25) :
    wp (bmap oddSb 0 bn) (fun b' s' => b' = b ∧
      Odd (b :: ind :: taken) (ind :: b :: oddSb.bblock b :: ind :: oddSb.bblock ind :: calls) s' ∧
      (s'.icache 0).inum = (s.icache 0).inum ∧ (s'.icache 0).di.addrs NDIRECT = ind ∧
      ∀ e, e ≠ bn - NDIRECT → e < NINDIRECT → oddSb.nmeta ≤ ind → le32 (s'.blk ind)
    (4 * e) = 0) (fun _ _ => False) s := by
  have hN : NDIRECT = 12 ∧ NINDIRECT = 256 ∧ MAXFILE = 268 ∧ BSIZE = 1024 := ⟨rfl, rfl, rfl, rfl⟩
  unfold Fs.bmap
  rw [wp_bind, wp_get, if_neg (by omega), if_pos (by omega), if_pos haddr]
  refine (h.newAddr (by omega) hi0 hinew hibelow (by omega)).seq ?_
  rintro ind' s₁ ⟨rfl, h₁, hinum, hind, hz⟩
  have hside : oddSb.nmeta ≤ ind' ∨ ind' < oddSb.bmapstart := by
    show 50 ≤ ind' ∨ ind' < 45
    omega
  have hnew' : b ∉ ind' :: taken := fun hc => (mem_cons.1 hc).elim (fun e => by omega) hnew
  refine (h₁.indirect hind (le32_zeros hz (by omega)) hside hb h0 hnew' hbelow
    (Nat.succ_lt_succ (Nat.succ_lt_succ hroom))).imp fun b' s₂ h₂ => ?_
  obtain ⟨rfl, h₂, hic₂, hput⟩ := h₂
  refine ⟨rfl, h₂, by rw [hic₂, hinum], by rw [hic₂, hind], fun e hne he hge => ?_⟩
  rw [hput hge (by omega), le32_put32_other (by omega), le32_zeros hz (by omega)]

end Odd

end Xv6.Fs
