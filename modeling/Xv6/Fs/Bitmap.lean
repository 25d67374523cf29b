import Xv6.Fs.Contents
/-!
# The block allocator

The two loops of `balloc`, over the blocks of the free map and the bits of each, find
what a search of the whole map finds: `exec_ballocLoops`. What `balloc` and `bfree` do is
then stated for every free map that marks its own blocks.
-/

namespace Xv6.Fs

open Bytes Hoare Function

section Code
variable (sb : Superblock)

/-- `for(bi = 0; bi < BPB && b + bi < sb.size; bi++)` from `bi` on, with at most `n`
rounds: the first clear bit. The sum is an `int`, compared as an unsigned number. -/
def ballocBits (a : Arr) (b : Nat) : Nat → Nat → Option Nat
  | 0, _ => none
  | n + 1, bi =>
    if bi < BPB ∧ (b + bi) % 2 ^ 32 < sb.size then
      if bit a bi then ballocBits a b n (bi + 1) else some bi
    else none

/-- `for(b = 0; b < sb.size; b += BPB)` from `b` on. A loop that goes on after `n` rounds
counts as `blocked`. -/
def ballocBlocks : Nat → Nat → M Nat
  | 0, _ => throw .blocked
  | n + 1, b => do
    if b < sb.size then
      let s ← get
      match ballocBits sb (s.blk (sb.bblock b)) b BPB 0 with
      | some bi =>
        setBlk (sb.bblock b) fun a => setBit a bi
        logWrite sb (sb.bblock b)
        bzero sb ((b + bi) % 2 ^ 32)
        return (b + bi) % 2 ^ 32
      | none => ballocBlocks n ((b + BPB) % 2 ^ 32)
    else
      throw .outOfBlocks

/-- `balloc`, with its loops. -/
def ballocLoops : M Nat := ballocBlocks sb (sb.size / BPB + 2) 0

end Code

/-! ## The search -/

variable {b n : Nat} {a : Arr}

section Search
variable {sb : Superblock} {blk : Nat → Arr}

theorem BPB_eq : BPB = 8192 := rfl

variable {bi : Nat}

theorem used_add (sb : Superblock) (blk : Nat → Arr) (hb : b % BPB = 0) (hbi : bi < BPB) :
    sb.bblock (b + bi) = sb.bblock b ∧ (b + bi) % BPB = bi ∧ used sb blk (b + bi) = bit (blk (sb.bblock b)) bi := by
  rw [BPB_eq] at hb hbi
  have hblock : sb.bblock (b + bi) = sb.bblock b := by
    simp only [Superblock.bblock, BPB_eq]
    omega
  have hmod : (b + bi) % BPB = bi := by
    rw [BPB_eq]
    omega
  refine ⟨hblock, hmod, ?_⟩
  rw [used, hblock, hmod]

theorem used_upto {k : Nat} (hb : b % BPB = 0) (hk : k ≤ BPB) (hbelow : ∀ c < b, c < sb.size → used sb blk c = true)
    (hset : ∀ j < k, b + j < sb.size → bit (blk (sb.bblock b)) j = true) :
    ∀ c < b + k, c < sb.size → used sb blk c = true := by
  intro c hc hcs
  by_cases hcb : c < b
  · exact hbelow c hcb hcs
  · have hu := (used_add sb blk hb (show c - b < BPB by omega)).2.2
    rw [Nat.add_sub_cancel' (by omega)] at hu
    rw [hu]
    exact hset (c - b) (by omega) (by omega)

theorem ballocBits_some {k : Nat} (hsmall : b + BPB ≤ 2 ^ 32) (h : ballocBits sb a b n bi = some k) :
    bi ≤ k ∧ k < BPB ∧ b + k < sb.size ∧ bit a k = false ∧ ∀ j, bi ≤ j → j < k → bit a j = true := by
  induction n generalizing bi with
  | zero => cases h
  | succ n ih =>
    rw [ballocBits] at h
    split at h
    · next hin =>
      rw [Nat.mod_eq_of_lt (by omega)] at hin
      split at h
      · next hset =>
        obtain ⟨hle, hlt, hsize, hclear, hbelow⟩ := ih h
        refine ⟨by omega, hlt, hsize, hclear, ?_⟩
        intro j hj hjk
        by_cases hji : j = bi
        · rw [hji]
          exact hset
        · exact hbelow j (by omega) hjk
      · next hclear =>
        obtain rfl := Option.some.inj h
        exact ⟨Nat.le_refl _, hin.1, hin.2, by simpa using hclear, fun j hj hjk => by omega⟩
    · cases h

theorem ballocBits_none (hsmall : b + BPB ≤ 2 ^ 32) (hn : BPB ≤ bi + n)
    (h : ballocBits sb a b n bi = none) : ∀ j, bi ≤ j → j < BPB → b + j < sb.size → bit a j = true := by
  induction n generalizing bi with
  | zero => intro j hj hjB _; omega
  | succ n ih =>
    rw [ballocBits] at h
    intro j hj hjB hjs
    rw [if_pos ⟨by omega, by rw [Nat.mod_eq_of_lt (by omega)]; omega⟩] at h
    split at h
    · next hset =>
      by_cases hji : j = bi
      · rw [hji]
        exact hset
      · exact ih (by omega) h j (by omega) hjB hjs
    · cases h

/-- What `balloc` does with the block it has found. -/
def takeBlock (sb : Superblock) (b : Nat) : M Nat := do
  setBlk (sb.bblock b) fun a => setBit a (b % BPB)
  logWrite sb (sb.bblock b)
  bzero sb b
  return b

theorem exec_get_bind {s : St} (f : St → M Nat) : exec (get >>= f) s = exec (f s) s := exec_bind _ f s

theorem exec_balloc_some {s : St} (hb : b < sb.size) (hclear : used sb s.blk b = false)
    (hbelow : ∀ c < b, used sb s.blk c = true) : exec (balloc sb) s = exec (takeBlock sb b) s := by
  have hfind : (List.range sb.size).find? (fun b => !used sb s.blk b) = some b := by
    rw [List.find?_range_eq_some]
    refine ⟨by simp [hclear], List.mem_range.mpr hb, ?_⟩
    intro c hc
    simp [hbelow c hc]
  unfold balloc
  rw [exec_get_bind, hfind]
  rfl

theorem exec_balloc_none {s : St} (hall : ∀ c < sb.size, used sb s.blk c = true) :
    exec (balloc sb) s = (.error .outOfBlocks, s) := by
  have hfind : (List.range sb.size).find? (fun b => !used sb s.blk b) = none := by
    rw [List.find?_eq_none]
    intro c hc
    simp [hall c (List.mem_range.mp hc)]
  unfold balloc
  rw [exec_get_bind, hfind]
  rfl

/-- The loops and the search of the whole map are the same program, from a block of the
map on below which every bit is set. -/
theorem exec_ballocBlocks {s : St} (hsize : sb.size < 2 ^ 31) (hb : b % BPB = 0) (hlast : b < sb.size + BPB)
    (hn : sb.size + BPB ≤ b + n * BPB) (hbelow : ∀ c < b, c < sb.size → used sb s.blk c = true) :
    exec (ballocBlocks sb n b) s = exec (balloc sb) s := by
  induction n generalizing b with
  | zero => omega
  | succ n ih =>
    by_cases hin : b < sb.size
    · have hsmall : b + BPB ≤ 2 ^ 32 := by
        rw [BPB_eq]
        omega
      rw [ballocBlocks, if_pos hin, exec_get_bind]
      cases hbits : ballocBits sb (s.blk (sb.bblock b)) b BPB 0 with
      | some bi =>
        obtain ⟨-, hlt, hfree, hclear, hset⟩ := ballocBits_some hsmall hbits
        obtain ⟨hblock, hmod, hused⟩ := used_add sb s.blk hb hlt
        have hfirst := used_upto hb (Nat.le_of_lt hlt) hbelow fun j hj _ => hset j (Nat.zero_le _) hj
        rw [exec_balloc_some hfree (hused.trans hclear) fun c hc => hfirst c hc (by omega), takeBlock, hblock, hmod]
        simp only [Nat.mod_eq_of_lt (show b + bi < 2 ^ 32 by omega)]
      | none =>
        have hall := ballocBits_none hsmall (Nat.le_of_eq (Nat.zero_add _).symm) hbits
        simp only [Nat.mod_eq_of_lt (show b + BPB < 2 ^ 32 by rw [BPB_eq]; omega)]
        apply ih
        · rw [Nat.add_mod_right, hb]
        · omega
        · rw [Nat.succ_mul] at hn
          omega
        · exact used_upto hb (Nat.le_refl _) hbelow fun j => hall j (Nat.zero_le _)
    · rw [ballocBlocks, if_neg hin, exec_balloc_none fun c hc => hbelow c (by omega) hc]
      rfl

theorem exec_ballocLoops (hsize : sb.size < 2 ^ 31) (s : St) : exec (ballocLoops sb) s = exec (balloc sb) s := by
  apply exec_ballocBlocks hsize
  · rfl
  · simp only [BPB_eq]
    omega
  · simp only [BPB_eq]
    omega
  · intro c hc
    omega

end Search

/-! ## What they do -/

/-- The map's own blocks are blocks of the disk, and marked. -/
structure MapMarked (sb : Superblock) (blk : Nat → Arr) : Prop where
  inside : ∀ c < sb.size, sb.bblock c < sb.size
  marked : ∀ c < sb.size, used sb blk (sb.bblock c) = true

/-- A stop in `log_write`, outside of a transaction or without room for `n` blocks. -/
def LogStop (sb : Superblock) (s : St) (n : Nat) (e : Stop) : Prop :=
  (e = .tooBig ∨ e = .outsideTrans) ∧ ¬(1 ≤ s.outstanding ∧ LogRoom sb s n)

/-- `balloc` has taken `b`: the first block that was free, of which nothing is left. -/
structure Allocated (sb : Superblock) (s : St) (b : Nat) (s' : St) : Prop where
  lt : b < sb.size
  clear : used sb s.blk b = false
  first : ∀ c < b, used sb s.blk c = true
  bits : ∀ i, bit (s'.blk (sb.bblock b)) i = (bit (s.blk (sb.bblock b)) i || decide (i = b % BPB))
  zero : ∀ k < BSIZE, s'.blk b k = 0
  blocks : ∀ d, d ≠ b → d ≠ sb.bblock b → s'.blk d = s.blk d
  rest : s' = { s with blk := s'.blk, lh := s'.lh, trace := s'.trace }

/-- `bfree` has given back `b`. -/
structure Released (sb : Superblock) (s : St) (b : Nat) (s' : St) : Prop where
  bits : ∀ i, bit (s'.blk (sb.bblock b)) i = (bit (s.blk (sb.bblock b)) i && !decide (i = b % BPB))
  blocks : ∀ d, d ≠ sb.bblock b → s'.blk d = s.blk d
  rest : s' = { s with blk := s'.blk, lh := s'.lh, trace := s'.trace }

section Results
variable {sb : Superblock} {s : St}

theorem logWrite_room (b : Nat) :
    wp (logWrite sb b) (fun _ s' => s' = { s with lh := s'.lh, trace := s'.trace } ∧ s'.lh.length ≤ s.lh.length + 1)
      (fun e _ => LogStop sb s 1 e) s := by
  unfold logWrite record
  simp only [wp_bind, wp_modify, wp_get, wp_ite, wp_throw, wp_set]
  refine ⟨?_, fun _ => ⟨?_, fun _ => ⟨trivial, ?_⟩⟩⟩
  · intro hfull
    refine ⟨.inl rfl, fun h => ?_⟩
    unfold LogRoom at h
    omega
  · intro hout
    exact ⟨.inr rfl, fun h => by omega⟩
  · split
    · omega
    · simp

theorem LogStop.mono {e : Stop} {m : Nat} (h : LogStop sb s n e) (hle : n ≤ m) : LogStop sb s m e := by
  refine ⟨h.1, fun hroom => h.2 ⟨hroom.1, ?_⟩⟩
  unfold LogRoom at hroom ⊢
  omega

variable {s₁ : St} {c : Nat}

theorem LogStop.before {e : Stop} (h : LogStop sb s₁ n e) (hout : s₁.outstanding = s.outstanding)
    (hlh : s₁.lh.length ≤ s.lh.length + 1) : LogStop sb s (n + 1) e := by
  refine ⟨h.1, fun hroom => h.2 ⟨hout ▸ hroom.1, ?_⟩⟩
  have hr := hroom.2
  unfold LogRoom at hr ⊢
  omega

theorem takeBlock_spec (b : Nat) :
    wp (takeBlock sb b) (fun b' s' => b' = b ∧ s'.blk = zeroed sb s.blk b ∧
      s' = { s with blk := s'.blk, lh := s'.lh, trace := s'.trace }) (fun e _ => LogStop sb s 2 e) s := by
  unfold takeBlock bzero
  simp only [wp_bind, wp_setBlk, wp_pure]
  refine (logWrite_room _).mono (fun _ s₁ h₁ => ?_) fun e s₁ h₁ => LogStop.mono h₁ (by omega)
  refine (logWrite_room _).mono (fun _ s₂ h₂ => ⟨trivial, ?_, ?_⟩) fun e s₂ h₂ => LogStop.before h₂ (by rw [h₁.1]) h₁.2
  · rw [h₂.1, h₁.1]
    rfl
  · rw [h₂.1, h₁.1]

theorem MapMarked.ne_bblock (h : MapMarked sb s.blk) (hb : used sb s.blk b = false) (hc : c < sb.size) :
    b ≠ sb.bblock c := by
  rintro rfl
  rw [h.marked c hc] at hb
  cases hb

theorem allocated_of_zeroed (h : MapMarked sb s.blk) {s' : St} (hlt : b < sb.size)
    (hclear : used sb s.blk b = false) (hfirst : ∀ c < b, used sb s.blk c = true)
    (hblk : s'.blk = zeroed sb s.blk b) (hrest : s' = { s with blk := s'.blk, lh := s'.lh, trace := s'.trace }) :
    Allocated sb s b s' where
  lt := hlt
  clear := hclear
  first := hfirst
  bits i := by
    rw [hblk, zeroed, update_of_ne (h.ne_bblock hclear hlt).symm, update_self, bit_setBit]
  zero k hk := by
    rw [hblk]
    exact zeroed_self hk
  blocks d hd hmap := by
    rw [hblk, zeroed, update_of_ne hd, update_of_ne hmap]
  rest := hrest

theorem balloc_allocated (h : MapMarked sb s.blk) (hsize : sb.size < 2 ^ 31) :
    wp (ballocLoops sb) (Allocated sb s)
      (fun e s' => (e = .outOfBlocks ∧ s' = s ∧ ∀ c < sb.size, used sb s.blk c = true) ∨ LogStop sb s 2 e) s := by
  refine wp.of_exec ?_ (exec_ballocLoops hsize s)
  by_cases hall : ∀ c < sb.size, used sb s.blk c = true
  · exact wp.of_exec ((wp_throw Stop.outOfBlocks).mpr (.inl ⟨rfl, rfl, hall⟩)) (exec_balloc_none hall)
  · -- the least block that is free
    have hex : ∃ c, c < sb.size ∧ used sb s.blk c = false := by
      push Not at hall
      obtain ⟨c, hc, hu⟩ := hall
      exact ⟨c, hc, by simpa using hu⟩
    obtain ⟨hlt, hclear⟩ := Nat.find_spec hex
    have hfirst : ∀ c < Nat.find hex, used sb s.blk c = true := by
      intro c hc
      have hno := Nat.find_min hex hc
      by_contra hu
      exact hno ⟨by omega, by simpa using hu⟩
    refine wp.of_exec ?_ (exec_balloc_some hlt hclear hfirst)
    refine (takeBlock_spec _).mono ?_ fun _ _ he => .inr he
    rintro b s' ⟨rfl, hblk, hrest⟩
    exact allocated_of_zeroed h hlt hclear hfirst hblk hrest

theorem bfree_released (hu : used sb s.blk b = true) :
    wp (bfree sb b) (fun _ => Released sb s b) (fun e _ => LogStop sb s 1 e) s := by
  unfold bfree
  simp only [wp_bind, wp_get, wp_ite, wp_throw, wp_setBlk]
  refine ⟨fun h => by simp [hu] at h, fun _ => ?_⟩
  refine (logWrite_room _).mono (fun _ s₁ h₁ => ?_) fun _ _ he => he
  have hblk : s₁.blk = cleared sb s.blk b := by
    rw [h₁.1]
    rfl
  refine ⟨?_, ?_, ?_⟩
  · intro i
    rw [hblk, cleared, update_self, bit_clearBit]
  · intro d hd
    rw [hblk, cleared, update_of_ne hd]
  · rw [h₁.1]

theorem arr_ext {a' : Arr} (h : ∀ i, bit a i = bit a' i) : a = a' := by
  funext k
  apply UInt8.toNat_inj.mp
  apply Nat.eq_of_testBit_eq
  intro i
  by_cases hi : i < 8
  · have hbit := h (8 * k + i)
    unfold bit at hbit
    rwa [show (8 * k + i) / 8 = k by omega, show (8 * k + i) % 8 = i by omega] at hbit
  · have hpow : 2 ^ 8 ≤ 2 ^ i := Nat.pow_le_pow_right (by decide) (by omega)
    rw [Nat.testBit_lt_two_pow (Nat.lt_of_lt_of_le (a k).toNat_lt hpow),
      Nat.testBit_lt_two_pow (Nat.lt_of_lt_of_le (a' k).toNat_lt hpow)]

theorem Allocated.released {s₂ : St} (ha : Allocated sb s b s₁) (hr : Released sb s₁ b s₂)
    (h : MapMarked sb s.blk) (hc : c < sb.size) : s₂.blk (sb.bblock c) = s.blk (sb.bblock c) := by
  by_cases hbc : sb.bblock c = sb.bblock b
  · rw [hbc]
    apply arr_ext
    intro i
    rw [hr.bits, ha.bits]
    by_cases hi : i = b % BPB
    · have hclear : bit (s.blk (sb.bblock b)) (b % BPB) = false := ha.clear
      simp [hi, hclear]
    · simp [hi]
  · rw [hr.blocks _ hbc, ha.blocks _ (h.ne_bblock ha.clear hc).symm hbc]

theorem Allocated.used_self (ha : Allocated sb s b s₁) : used sb s₁.blk b = true := by
  rw [used, ha.bits]
  simp

/-- The place of a block's bit: map block, byte and bit. -/
def bitPos (sb : Superblock) (b : Nat) : Nat × Nat × Nat := (sb.bblock b, b % BPB / 8, b % BPB % 8)

theorem bitPos_inj (h : bitPos sb b = bitPos sb c) : b = c := by
  simp only [bitPos, Prod.mk.injEq] at h
  exact bit_pos_inj h.1 (by omega)

/-- The allocator: `balloc` takes the first free block and panics only when there is none,
`bfree` is its inverse on the map, and no two blocks share a bit. -/
theorem block_allocator (sb : Superblock) (s : St) (hsize : sb.size < 2 ^ 31) (hmap : MapMarked sb s.blk) :
    wp (ballocLoops sb) (Allocated sb s) (fun e _ => e = .outOfBlocks ∨ LogStop sb s 2 e) s ∧
    ((exec (ballocLoops sb) s).1 = .error .outOfBlocks ↔ ∀ c < sb.size, used sb s.blk c = true) ∧
    (∀ b < sb.size, used sb s.blk b = true → wp (bfree sb b) (fun _ => Released sb s b) (fun e _ => LogStop sb s 1 e) s) ∧
    (∀ b s₁, exec (ballocLoops sb) s = (.ok b, s₁) → wp (bfree sb b)
      (fun _ s₂ => ∀ c < sb.size, s₂.blk (sb.bblock c) = s.blk (sb.bblock c)) (fun e _ => LogStop sb s₁ 1 e) s₁) ∧
    ∀ b c, bitPos sb b = bitPos sb c → b = c := by
  have hrun := balloc_allocated hmap hsize
  refine ⟨hrun.mono (fun _ _ h => h) ?_, ⟨?_, ?_⟩, fun b _ hu => bfree_released hu, ?_, fun b c => bitPos_inj⟩
  · rintro e s' (h | h)
    · exact .inl h.1
    · exact .inr h
  · intro hpanic
    generalize hx : exec (ballocLoops sb) s = x at hpanic
    obtain ⟨r, s'⟩ := x
    subst hpanic
    rcases hrun.error hx with h | h
    · exact h.2.2
    · rcases h.1 with h | h <;> cases h
  · intro hall
    rw [exec_ballocLoops hsize, exec_balloc_none hall]
  · intro b s₁ hx
    have ha := hrun.ok hx
    exact (bfree_released ha.used_self).imp fun _ s₂ hr c hc => ha.released hr hmap hc

end Results

theorem mapMarked_tiny : MapMarked tinySb tinySt.blk where
  inside := by decide
  marked c hc := by
    have hblock : tinySb.bblock c = 45 := by
      have hc' : c < 50 := hc
      show c / 8192 + 45 = 45
      omega
    rw [hblock]
    exact (facts_tiny.used 45 (by decide)).mpr (by decide)

/-- On the image with fifty blocks, of which the last two are free. -/
theorem block_allocator_tiny :
    wp (ballocLoops tinySb) (Allocated tinySb tinySt) (fun e _ => e = .outOfBlocks ∨ LogStop tinySb tinySt 2 e) tinySt ∧
    ((exec (ballocLoops tinySb) tinySt).1 = .error .outOfBlocks ↔ ∀ c < tinySb.size, used tinySb tinySt.blk c = true) :=
  have h := block_allocator tinySb tinySt (by decide) mapMarked_tiny
  ⟨h.1, h.2.1⟩

end Xv6.Fs
