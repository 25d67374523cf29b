import Xv6.Fs.Blocks
/-!
# Allocating and freeing blocks

What `balloc`, `bfree`, `bmap` and `itrunc` do to the free map, to the inodes
and to the log. `Wrote S n` bounds what a piece of code gave to `log_write`:
blocks of `S`, and at most `n` others.
-/

namespace Xv6.Fs

open Bytes Hoare Owner Function

/-! ## What went to the log -/

/-- `log_write` was called on blocks of `S` and at most `n` others. -/
structure Logged (S : Nat → Prop) (n : Nat) (s s' : St) : Prop where
  myproc : s'.myproc = s.myproc
  outstanding : s'.outstanding = s.outstanding
  calls : ∃ L l : List Nat, L.length ≤ n ∧ (∀ b ∈ l, S b ∨ b ∈ L) ∧ s'.trace = l.map (Ev.logWrite s.myproc) ++ s.trace

/-- Besides, files and processes are left alone. -/
structure Wrote (S : Nat → Prop) (n : Nat) (s s' : St) : Prop extends Logged S n s s' where
  ftable : s'.ftable = s.ftable
  proc : s'.proc = s.proc

/-- A stop that ownership and transactions allow. -/
structure Stopped (S : Nat → Prop) (n : Nat) (s : St) (e : Stop) (s' : St) : Prop where
  wrote : Wrote S n s s'
  kind : e ≠ .freeingFree ∧ e ≠ .outsideTrans

section Wrote
variable {S S' : Nat → Prop} {n m : Nat} {s s₁ s₂ : St} {e : Stop}

theorem Logged.refl (S : Nat → Prop) (s : St) : Logged S 0 s s :=
  ⟨rfl, rfl, [], [], Nat.le_refl _, fun _ h => absurd h List.not_mem_nil, rfl⟩

theorem Logged.trans (h₁ : Logged S n s s₁) (h₂ : Logged S m s₁ s₂) : Logged S (n + m) s s₂ := by
  obtain ⟨L₁, l₁, hL₁, hl₁, ht₁⟩ := h₁.calls
  obtain ⟨L₂, l₂, hL₂, hl₂, ht₂⟩ := h₂.calls
  refine ⟨h₂.myproc.trans h₁.myproc, h₂.outstanding.trans h₁.outstanding, L₁ ++ L₂, l₂ ++ l₁, ?_, fun b hb => ?_, ?_⟩
  · rw [List.length_append]
    omega
  · rw [List.mem_append]
    rcases List.mem_append.1 hb with h | h
    · exact (hl₂ b h).imp_right .inr
    · exact (hl₁ b h).imp_right .inl
  · rw [ht₂, ht₁, h₁.myproc, List.map_append, List.append_assoc]

theorem Logged.mono (h : Logged S n s s₁) (hS : ∀ b, S b → S' b) (hn : n ≤ m) : Logged S' m s s₁ := by
  obtain ⟨L, l, hL, hl, ht⟩ := h.calls
  exact { h with calls := ⟨L, l, Nat.le_trans hL hn, fun b hb => (hl b hb).imp_left (hS b), ht⟩ }

theorem Wrote.refl (S : Nat → Prop) (s : St) : Wrote S 0 s s := ⟨.refl S s, rfl, rfl⟩

theorem Wrote.trans (h₁ : Wrote S n s s₁) (h₂ : Wrote S m s₁ s₂) : Wrote S (n + m) s s₂ :=
  ⟨h₁.toLogged.trans h₂.toLogged, h₂.ftable.trans h₁.ftable, h₂.proc.trans h₁.proc⟩

theorem Wrote.mono (h : Wrote S n s s₁) (hS : ∀ b, S b → S' b) (hn : n ≤ m) : Wrote S' m s s₁ :=
  { h with toLogged := h.toLogged.mono hS hn }

theorem Wrote.of_blk {x : Nat → Arr} (h : Wrote S n { s with blk := x } s₁) : Wrote S n s s₁ :=
  ⟨⟨h.myproc, h.outstanding, h.calls⟩, h.ftable, h.proc⟩

theorem Wrote.icache {x : Nat → Inode} (h : Wrote S n s s₁) : Wrote S n s { s₁ with icache := x } :=
  ⟨⟨h.myproc, h.outstanding, h.calls⟩, h.ftable, h.proc⟩

theorem Stopped.after (h₁ : Wrote S n s s₁) (h₂ : Stopped S m s₁ e s₂) : Stopped S (n + m) s e s₂ :=
  ⟨h₁.trans h₂.wrote, h₂.kind⟩

theorem Stopped.of_blk {x : Nat → Arr} (h : Stopped S n { s with blk := x } e s₁) : Stopped S n s e s₁ :=
  ⟨h.wrote.of_blk, h.kind⟩

theorem Stopped.mono (h : Stopped S n s e s₁) (hS : ∀ b, S b → S' b) (hn : n ≤ m) : Stopped S' m s e s₁ :=
  ⟨h.wrote.mono hS hn, h.kind⟩

end Wrote

section Steps
variable {sb : Superblock} {s : St} {E : Stop → St → Prop}

@[simp] theorem wp_setBlk {Q : Unit → St → Prop} (b : Nat) (f : Arr → Arr) :
    wp (setBlk b f) Q E s ↔ Q () { s with blk := update s.blk b (f (s.blk b)) } := wp_modify _

@[simp] theorem wp_setInode {Q : Unit → St → Prop} (k : Nat) (f : Inode → Inode) :
    wp (setInode k f) Q E s ↔ Q () { s with icache := update s.icache k (f (s.icache k)) } := wp_modify _

@[simp] theorem wp_setDi {Q : Unit → St → Prop} (k : Nat) (f : Dinode → Dinode) :
    wp (setDi k f) Q E s ↔
      Q () { s with icache := update s.icache k { s.icache k with di := f (s.icache k).di } } := wp_modify _

theorem logWrite_spec (b : Nat) (hop : 1 ≤ s.outstanding) :
    wp (logWrite sb b) (fun _ s' => Wrote (· = b) 0 s s' ∧ s'.blk = s.blk ∧ s'.icache = s.icache)
      (Stopped (· = b) 0 s) s := by
  unfold logWrite record
  simp only [wp_bind, wp_modify, wp_get, wp_ite, wp_throw, wp_set]
  have hcall : ∀ lh : List Nat, Wrote (· = b) 0 s { s with trace := .logWrite s.myproc b :: s.trace, lh := lh } := fun lh =>
    ⟨⟨rfl, rfl, [], [b], Nat.le_refl _, fun c hc => .inl (List.mem_singleton.1 hc), rfl⟩, rfl, rfl⟩
  refine ⟨fun _ => ⟨hcall s.lh, by decide, by decide⟩, fun _ => ⟨fun h0 => ?_, fun _ => ⟨hcall _, trivial, trivial⟩⟩⟩
  exact absurd h0 (Int.not_lt.2 hop)

/-- A block of the free map. -/
def IsBitmap (sb : Superblock) (c : Nat) : Prop := ∃ b < sb.size, c = sb.bblock b

/-- The blocks after `bfree` gave back `b`. -/
def cleared (sb : Superblock) (blk : Nat → Arr) (b : Nat) : Nat → Arr :=
  update blk (sb.bblock b) (clearBit (blk (sb.bblock b)) (b % BPB))

theorem bfree_spec {b : Nat} (hb : b < sb.size) (hu : used sb s.blk b = true) (hop : 1 ≤ s.outstanding) :
    wp (bfree sb b) (fun _ s' => s'.blk = cleared sb s.blk b ∧ s'.icache = s.icache ∧ Wrote (IsBitmap sb) 0 s s')
      (Stopped (IsBitmap sb) 0 s) s := by
  have hmap : ∀ c, c = sb.bblock b → IsBitmap sb c := fun c hc => ⟨b, hb, hc⟩
  unfold bfree
  simp only [wp_bind, wp_get, wp_ite, wp_throw, wp_setBlk]
  refine ⟨fun h => ?_, fun _ => ?_⟩
  · rw [hu] at h
    exact absurd h (by decide)
  · refine wp.mono (logWrite_spec _ hop) (fun _ s₁ h₁ => ?_) fun e s₁ h₁ => ?_
    · obtain ⟨w₁, hblk₁, hic₁⟩ := h₁
      exact ⟨hblk₁, hic₁, w₁.of_blk.mono hmap (Nat.le_refl 0)⟩
    · exact h₁.of_blk.mono hmap (Nat.le_refl 0)

end Steps

end Xv6.Fs
