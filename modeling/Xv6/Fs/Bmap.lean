import Mathlib.Data.List.Nodup
import Mathlib.Data.List.Perm.Subperm
import Xv6.Fs.Alloc
/-!
# bmap, whatever the other inodes are like

What `bmap` does to one inode needs of the rest of the disk only that blocks
are owned. Besides, it is counted here what a call costs: the blocks given to
the log and the blocks taken from the free map. It fails only if there are
too few of the one or the other.
-/

namespace Xv6.Fs

open Bytes Hoare Owner Function List

/-! ## What is spent -/

/-- `log_write` was called on blocks of `S` only; files and processes are left alone. -/
structure ToLog (S : List Nat) (s s' : St) : Prop where
  myproc : s'.myproc = s.myproc
  outstanding : s'.outstanding = s.outstanding
  ftable : s'.ftable = s.ftable
  proc : s'.proc = s.proc
  calls : ∃ l : List Nat, (∀ b ∈ l, b ∈ S) ∧ s'.trace = l.map (Ev.logWrite s.myproc) ++ s.trace
  lh : ∃ l : List Nat, s'.lh = s.lh ++ l ∧ l.Nodup ∧ ∀ b ∈ l, b ∈ S ∧ b ∉ s.lh

/-- Besides, only blocks of `A` were taken from the free map. -/
structure Spent (sb : Superblock) (S A : List Nat) (s s' : St) : Prop extends ToLog S s s' where
  taken : ∀ c < sb.size, used sb s'.blk c = true → used sb s.blk c = true ∨ c ∈ A

def LogFull (sb : Superblock) (s : St) : Prop := LOGSIZE ≤ s.lh.length ∨ sb.nlog - 1 ≤ s.lh.length

/-- The blocks that the address `x` stands for. -/
def given (x : Nat) : List Nat := if x = 0 then [] else [x]

/-- A stop for lack of room in the log, or of free blocks: there were fewer than `m`. Besides the indirect
block at most `n` blocks were given to the log; if there was an indirect block, `ind`, it is still the one. -/
structure Lacks (sb : Superblock) (ind n m : Nat) (s : St) (e : Stop) (s' : St) : Prop where
  calls : ∃ (x : Nat) (S : List Nat), (ind ≠ 0 → x = ind) ∧ S.length ≤ n ∧ ToLog (x :: S) s s'
  reason : e = .tooBig ∧ LogFull sb s' ∨
    e = .outOfBlocks ∧ ∃ A : List Nat, A.length < m ∧ ∀ b < sb.size, used sb s.blk b = true ∨ b ∈ A

section Spent
variable {sb : Superblock} {S S' A A' : List Nat} {n m n' m' ind : Nat} {s s₁ s₂ : St} {e : Stop}

theorem ToLog.refl (s : St) : ToLog [] s s :=
  ⟨rfl, rfl, rfl, rfl, ⟨[], fun _ h => h, rfl⟩, [], (append_nil _).symm, nodup_nil,
    fun _ h => absurd h not_mem_nil⟩

theorem ToLog.trans (h₁ : ToLog S s s₁) (h₂ : ToLog S' s₁ s₂) : ToLog (S ++ S') s s₂ := by
  obtain ⟨l₁, hl₁, ht₁⟩ := h₁.calls
  obtain ⟨l₂, hl₂, ht₂⟩ := h₂.calls
  obtain ⟨n₁, hn₁, hd₁, hm₁⟩ := h₁.lh
  obtain ⟨n₂, hn₂, hd₂, hm₂⟩ := h₂.lh
  rw [hn₁] at hm₂
  refine ⟨h₂.myproc.trans h₁.myproc, h₂.outstanding.trans h₁.outstanding, h₂.ftable.trans h₁.ftable,
    h₂.proc.trans h₁.proc, ⟨l₂ ++ l₁, fun b hb => ?_, ?_⟩, n₁ ++ n₂, ?_, ?_, fun b hb => ?_⟩
  · rcases mem_append.1 hb with h | h
    · exact mem_append_right _ (hl₂ b h)
    · exact mem_append_left _ (hl₁ b h)
  · rw [ht₂, ht₁, h₁.myproc, map_append, append_assoc]
  · rw [hn₂, hn₁, append_assoc]
  · exact nodup_append.2 ⟨hd₁, hd₂, fun b hb c hc e => (hm₂ c hc).2 (mem_append_right _ (e ▸ hb))⟩
  · rcases mem_append.1 hb with h | h
    · exact ⟨mem_append_left _ (hm₁ b h).1, (hm₁ b h).2⟩
    · exact ⟨mem_append_right _ (hm₂ b h).1, fun hb => (hm₂ b h).2 (mem_append_left _ hb)⟩

theorem ToLog.length_le (h : ToLog S s s₁) : s₁.lh.length ≤ s.lh.length + S.length := by
  obtain ⟨l, hl, hd, hm⟩ := h.lh
  have hle : l.length ≤ S.length := (hd.subperm fun b hb => (hm b hb).1).length_le
  rw [hl, length_append]
  omega

theorem ToLog.mono (h : ToLog S s s₁) (hS : ∀ b ∈ S, b ∈ S') : ToLog S' s s₁ := by
  obtain ⟨l, hl, ht⟩ := h.calls
  obtain ⟨n, hn, hd, hm⟩ := h.lh
  exact { h with
    calls := ⟨l, fun b hb => hS b (hl b hb), ht⟩
    lh := ⟨n, hn, hd, fun b hb => ⟨hS b (hm b hb).1, (hm b hb).2⟩⟩ }

theorem ToLog.congr {x y : Nat → Arr} {c d : Nat → Inode}
    (h : ToLog S { s with blk := x, icache := c } s₁) : ToLog S s { s₁ with blk := y, icache := d } :=
  ⟨h.myproc, h.outstanding, h.ftable, h.proc, h.calls, h.lh⟩

theorem ToLog.wrote (h : ToLog S s s₁) : Wrote (fun _ => True) 0 s s₁ := by
  obtain ⟨l, -, ht⟩ := h.calls
  exact ⟨⟨h.myproc, h.outstanding, [], l, Nat.le_refl 0, fun _ _ => .inl trivial, ht⟩, h.ftable, h.proc⟩

theorem Spent.refl (s : St) : Spent sb [] [] s s := ⟨.refl s, fun _ _ => .inl⟩

theorem Spent.trans (h₁ : Spent sb S A s s₁) (h₂ : Spent sb S' A' s₁ s₂) : Spent sb (S ++ S') (A ++ A') s s₂ := by
  refine ⟨h₁.toToLog.trans h₂.toToLog, fun c hc hu => ?_⟩
  rcases h₂.taken c hc hu with h | h
  · exact (h₁.taken c hc h).imp_right (mem_append_left _)
  · exact .inr (mem_append_right _ h)

theorem Spent.mono (h : Spent sb S A s s₁) (hS : ∀ b ∈ S, b ∈ S') (hA : ∀ b ∈ A, b ∈ A') : Spent sb S' A' s s₁ :=
  ⟨h.toToLog.mono hS, fun c hc hu => (h.taken c hc hu).imp_right (hA c)⟩

theorem Spent.icache {c : Nat → Inode} (h : Spent sb S A s s₁) : Spent sb S A s { s₁ with icache := c } :=
  ⟨h.toToLog.congr (c := s.icache), h.taken⟩

theorem length_given (x : Nat) : (given x).length ≤ 1 := by
  unfold given
  split
  · exact Nat.zero_le 1
  · exact Nat.le_refl 1

theorem mem_given {b x : Nat} (h : b ∈ given x) : b = x := by
  unfold given at h
  split at h
  · exact absurd h not_mem_nil
  · exact mem_singleton.1 h

theorem Lacks.mono (h : Lacks sb ind n m s e s₁) (hn : n ≤ n') (hm : m ≤ m') : Lacks sb ind n' m' s e s₁ := by
  obtain ⟨x, S, hx, hS, hl⟩ := h.calls
  refine ⟨⟨x, S, hx, Nat.le_trans hS hn, hl⟩, h.reason.imp_right fun hr => ?_⟩
  obtain ⟨he, A, hA, hu⟩ := hr
  exact ⟨he, A, Nat.lt_of_lt_of_le hA hm, hu⟩

theorem Lacks.after {ind₁ : Nat} (h₁ : Spent sb (given ind₁ ++ S) A s s₁) (hind : ind ≠ 0 → ind₁ = ind)
    (h₂ : Lacks sb ind₁ n m s₁ e s₂) : Lacks sb ind (S.length + n) (A.length + m) s e s₂ := by
  obtain ⟨x, S', hx, hS, hl⟩ := h₂.calls
  refine ⟨⟨x, S ++ S', fun h => ?_, ?_, (h₁.toToLog.trans hl).mono fun b hb => ?_⟩, h₂.reason.imp_right fun hr => ?_⟩
  · rw [hx (hind h ▸ h), hind h]
  · rw [length_append]
    omega
  · rw [mem_append, mem_append, mem_cons] at hb
    rw [mem_cons, mem_append]
    rcases hb with (hb | hb) | hb
    · by_cases h0 : ind₁ = 0
      · rw [given, if_pos h0] at hb
        exact absurd hb not_mem_nil
      · exact .inl ((mem_given hb).trans (hx h0).symm)
    · exact .inr (.inl hb)
    · exact hb.imp_right .inr
  · obtain ⟨he, A', hA, hu⟩ := hr
    refine ⟨he, A ++ A', ?_, fun b hb => ?_⟩
    · rw [length_append]
      omega
    · rcases hu b hb with h | h
      · exact (h₁.taken b hb h).imp_right (mem_append_left _)
      · exact .inr (mem_append_right _ h)

end Spent

section Steps
variable {sb : Superblock} {s : St}

theorem logWrite_toLog (b : Nat) (hop : 1 ≤ s.outstanding) :
    wp (logWrite sb b) (fun _ s' => ToLog [b] s s' ∧ s'.blk = s.blk ∧ s'.icache = s.icache)
      (fun e s' => ToLog [b] s s' ∧ s'.lh = s.lh ∧ e = .tooBig ∧ LogFull sb s') s := by
  unfold logWrite record
  simp only [wp_bind, wp_modify, wp_get, wp_ite, wp_throw, wp_set]
  have hcalls : ∃ l : List Nat, (∀ c ∈ l, c ∈ [b]) ∧
      Ev.logWrite s.myproc b :: s.trace = l.map (Ev.logWrite s.myproc) ++ s.trace := ⟨[b], fun _ => id, rfl⟩
  have hnone : ∃ l : List Nat, s.lh = s.lh ++ l ∧ l.Nodup ∧ ∀ c ∈ l, c ∈ [b] ∧ c ∉ s.lh :=
    ⟨[], (append_nil _).symm, nodup_nil, fun _ h => absurd h not_mem_nil⟩
  refine ⟨fun hfull => ⟨⟨rfl, rfl, rfl, rfl, hcalls, hnone⟩, trivial, trivial, hfull⟩,
    fun _ => ⟨fun h0 => absurd h0 (Int.not_lt.2 hop), fun _ => ⟨⟨rfl, rfl, rfl, rfl, hcalls, ?_⟩, trivial, trivial⟩⟩⟩
  split
  · exact hnone
  · next hb => exact ⟨[b], rfl, nodup_singleton b, fun c hc => ⟨hc, mem_singleton.1 hc ▸ hb⟩⟩

theorem balloc_spent {t : Table} (ind : Nat) (o : Owned sb t s.blk) (hl : Layout sb) (hop : 1 ≤ s.outstanding) :
    wp (balloc sb) (fun b s' => Spare sb t s.blk b ∧ s'.blk = zeroed sb s.blk b ∧ s'.icache = s.icache ∧
      Spent sb [sb.bblock b, b] [b] s s') (Lacks sb ind 2 1 s) s := by
  unfold balloc
  rw [wp_bind, wp_get]
  split
  · next b hf =>
    have hb : b < sb.size := mem_range.1 (mem_of_find?_eq_some hf)
    have hu : used sb s.blk b = false := by simpa using find?_some hf
    have hs := o.spare hb hu
    rw [wp_bind, wp_setBlk, wp_bind]
    refine wp.mono (logWrite_toLog _ hop) (fun _ s₁ h₁ => ?_) fun e s₁ h₁ => ?_
    · obtain ⟨w₁, hblk₁, hic₁⟩ := h₁
      have w₁ : ToLog [sb.bblock b] s s₁ := w₁.congr (c := s.icache) (y := s₁.blk) (d := s₁.icache)
      unfold bzero
      rw [wp_bind, wp_bind, wp_setBlk]
      refine wp.mono (logWrite_toLog b (w₁.outstanding ▸ hop)) (fun _ s₂ h₂ => ?_) fun e s₂ h₂ => ?_
      · obtain ⟨w₂, hblk₂, hic₂⟩ := h₂
        have w₂ : ToLog [b] s₁ s₂ := w₂.congr (c := s₁.icache) (y := s₂.blk) (d := s₂.icache)
        have hblk : s₂.blk = zeroed sb s.blk b := by
          rw [hblk₂, hblk₁]
          rfl
        refine (wp_pure _).2 ⟨hs, hblk, hic₂.trans hic₁, w₁.trans w₂, fun c hc hc' => ?_⟩
        rw [hblk, used_zeroed hl hs hc, Bool.or_eq_true, decide_eq_true_eq] at hc'
        exact hc'.imp_right mem_singleton.2
      · obtain ⟨w₂, -, he⟩ := h₂
        have w₂ : ToLog [b] s₁ s₂ := w₂.congr (c := s₁.icache) (y := s₂.blk) (d := s₂.icache)
        exact ⟨⟨ind, [sb.bblock b] ++ [b], fun _ => rfl, Nat.le_refl 2, (w₁.trans w₂).mono fun _ => mem_cons_of_mem _⟩, .inl he⟩
    · obtain ⟨w₁, -, he⟩ := h₁
      have w₁ : ToLog [sb.bblock b] s s₁ := w₁.congr (c := s.icache) (y := s₁.blk) (d := s₁.icache)
      exact ⟨⟨ind, [sb.bblock b], fun _ => rfl, Nat.le_succ 1, w₁.mono fun _ => mem_cons_of_mem _⟩, .inl he⟩
  · next hnone =>
    rw [wp_throw]
    refine ⟨⟨ind, [], fun _ => rfl, Nat.zero_le 2, (ToLog.refl s).mono fun _ => mem_cons_of_mem _⟩, .inr ⟨rfl, [], Nat.one_pos, fun b hb => .inl ?_⟩⟩
    have := find?_eq_none.1 hnone b (mem_range.2 hb)
    simpa using this

end Steps

/-! ## One inode -/

/-- Entry `k` caches an inode of the table `t`, and blocks are owned. -/
structure Cached (sb : Superblock) (t : Table) (s : St) (k : Nat) : Prop where
  own : Owned sb t s.blk
  lt : (s.icache k).inum < sb.ninodes
  di : (s.icache k).di = t (s.icache k).inum
  ok : (t (s.icache k).inum).Ok

/-- The file of entry `k` may have got more blocks, and the data of the slots `W` may be new; nothing
else has changed. -/
structure Grew (sb : Superblock) (W : Nat × Nat → Prop) (t : Table) (s : St) (k : Nat) (t' : Table) (s' : St) :
    Prop where
  own : Owned sb t' s'.blk
  ok : (t' (s.icache k).inum).Ok
  others : ∀ j, j ≠ k → s'.icache j = s.icache j
  self : s'.icache k = { s.icache k with di := t' (s.icache k).inum }
  table : ∀ i, i ≠ (s.icache k).inum → t' i = t i
  fields : t' (s.icache k).inum = { t (s.icache k).inum with addrs := (t' (s.icache k).inum).addrs }
  disk : ∀ i < sb.ninodes, dinode sb s'.blk i = dinode sb s.blk i
  slot : ∀ x, ref sb t s.blk x ≠ 0 → ref sb t' s'.blk x = ref sb t s.blk x
  rest : ∀ x, x.1 ≠ (s.icache k).inum → ref sb t' s'.blk x = ref sb t s.blk x
  data : ∀ x, x.2 ≠ NDIRECT → ¬ W x → ref sb t s.blk x ≠ 0 → s'.blk (ref sb t s.blk x) = s.blk (ref sb t s.blk x)

section Grew
variable {sb : Superblock} {W W' : Nat × Nat → Prop} {t t₁ t₂ : Table} {s s₁ s₂ : St} {k : Nat}

theorem Grew.inum (g : Grew sb W t s k t₁ s₁) : (s₁.icache k).inum = (s.icache k).inum := by rw [g.self]

theorem Grew.cached (g : Grew sb W t s k t₁ s₁) (c : Cached sb t s k) : Cached sb t₁ s₁ k := by
  refine ⟨g.own, ?_, ?_, ?_⟩ <;> rw [g.inum]
  · exact c.lt
  · rw [g.self]
  · exact g.ok

theorem Grew.refl (c : Cached sb t s k) : Grew sb W t s k t s :=
  ⟨c.own, c.ok, fun _ _ => rfl, by rw [← c.di], fun _ _ => rfl, rfl, fun _ _ => rfl, fun _ _ => rfl, fun _ _ => rfl,
    fun _ _ _ _ => rfl⟩

theorem Grew.mono (g : Grew sb W t s k t₁ s₁) (h : ∀ x, W x → W' x) : Grew sb W' t s k t₁ s₁ :=
  { g with data := fun x hx2 hw => g.data x hx2 fun hx => hw (h x hx) }

theorem Grew.trans (g₁ : Grew sb W t s k t₁ s₁) (g₂ : Grew sb W t₁ s₁ k t₂ s₂) : Grew sb W t s k t₂ s₂ := by
  have hi := g₁.inum
  obtain ⟨own, ok, others, self, table, fields, disk, slot, rest, data⟩ := g₂
  rw [hi] at ok self table fields rest
  refine ⟨own, ok, fun j hj => (others j hj).trans (g₁.others j hj), ?_, fun i hi => (table i hi).trans (g₁.table i hi), ?_,
    fun i hi => (disk i hi).trans (g₁.disk i hi), fun x hx => ?_, fun x hx => (rest x hx).trans (g₁.rest x hx),
    fun x hx2 hw hx => ?_⟩
  · rw [self, g₁.self]
  · rw [fields, g₁.fields]
  · have h1 := g₁.slot x hx
    rw [slot x (h1 ▸ hx), h1]
  · have h1 := g₁.slot x hx
    have h2 := data x hx2 hw (h1 ▸ hx)
    rw [h1] at h2
    rw [h2, g₁.data x hx2 hw hx]

theorem Grew.log (g : Grew sb W t s k t₁ s₁) (hblk : s₂.blk = s₁.blk) (hic : s₂.icache = s₁.icache) :
    Grew sb W t s k t₁ s₂ := by
  obtain ⟨own, ok, others, self, table, fields, disk, slot, rest, data⟩ := g
  rw [← hblk] at own disk slot rest data
  rw [← hic] at others self
  exact ⟨own, ok, others, self, table, fields, disk, slot, rest, data⟩

theorem Cached.bmap_found {bn : Nat} {E : Stop → St → Prop} (c : Cached sb t s k)
    (h0 : ref sb t s.blk ((s.icache k).inum, dataSlot bn) ≠ 0) :
    wp (bmap sb k bn) (fun b s' => b = ref sb t s.blk ((s.icache k).inum, dataSlot bn) ∧ s' = s) E s := by
  have hi := c.lt
  unfold bmap bmapIndirect
  simp only [wp_bind, wp_get, wp_ite, wp_pure, wp_throw, c.di]
  refine ⟨fun hd => ?_, fun hd => ?_⟩
  · rw [show dataSlot bn = bn from if_pos hd, ref_addr _ hi (Nat.le_of_lt hd)] at h0 ⊢
    exact ⟨fun h => absurd h h0, fun _ => ⟨rfl, trivial⟩⟩
  · rw [show dataSlot bn = bn + 1 from if_neg hd] at h0 ⊢
    have hslot : ref sb t s.blk ((s.icache k).inum, bn + 1) =
        if (t (s.icache k).inum).addrs NDIRECT ≠ 0 ∧ bn + 1 ≤ NDIRECT + NINDIRECT then
          le32 (s.blk ((t (s.icache k).inum).addrs NDIRECT)) (4 * (bn - NDIRECT)) else 0 := by
      unfold ref
      rw [if_pos hi, if_neg (by omega), show bn + 1 - NDIRECT - 1 = bn - NDIRECT by omega]
    by_cases hc : (t (s.icache k).inum).addrs NDIRECT ≠ 0 ∧ bn + 1 ≤ NDIRECT + NINDIRECT
    · rw [hslot, if_pos hc] at h0 ⊢
      exact ⟨fun _ => ⟨fun h => absurd h hc.1, fun _ => ⟨fun h => absurd h h0, fun _ => ⟨rfl, trivial⟩⟩⟩,
        fun hn => absurd hc.2 (by omega)⟩
    · rw [hslot, if_neg hc] at h0
      exact absurd rfl h0

theorem newAddr_grew {j : Nat} (ind : Nat) (hl : Layout sb) (c : Cached sb t s k) (hop : 1 ≤ s.outstanding)
    (hj : j ≤ NDIRECT)
    (h0 : (t (s.icache k).inum).addrs j = 0) :
    wp (newAddr sb k j) (fun b s' => ∃ t', Grew sb (fun _ => False) t s k t' s' ∧ b ≠ 0 ∧
      ref sb t' s'.blk = update (ref sb t s.blk) ((s.icache k).inum, j) b ∧
      Spent sb [sb.bblock b, b] [b] s s') (Lacks sb ind 2 1 s) s := by
  have hi := c.lt
  unfold newAddr setAddr
  refine (balloc_spent ind c.own hl hop).seq ?_
  rintro b s₁ ⟨hs, hblk, hic, w⟩
  obtain ⟨ho, hr⟩ := c.own.alloc_addr hl hs hi hj h0
  have hdi : (s₁.icache k).di = t (s.icache k).inum := by rw [hic, c.di]
  have hx : ref sb t s.blk ((s.icache k).inum, j) = 0 := by rw [ref_addr _ hi hj, h0]
  rw [← hblk] at ho hr
  rw [wp_bind, wp_setDi, wp_pure]
  refine ⟨update t (s.icache k).inum ((t (s.icache k).inum).setAddr j b), ?_, hs.ne_zero hl, hr, w.icache⟩
  refine ⟨ho, ?_, fun j' hj' => ?_, ?_, fun i hne => update_of_ne hne _ _, ?_, fun i hi => ?_, fun x hx0 => ?_,
    fun x hx1 => ?_, fun x _ _ hx0 => ?_⟩
  · rw [update_self]
    have := hl.small
    have := hs.lt
    exact c.ok.setAddr hj (by omega)
  · rw [hic]
    exact update_of_ne hj' _ _
  · refine (update_self ..).trans ?_
    rw [update_self, hdi, hic]
    rfl
  · rw [update_self]
    rfl
  · show dinode sb s₁.blk i = _
    rw [hblk]
    exact dinode_zeroed hl hs hi
  · exact ref_update_keeps hx hr x hx0
  · show ref sb _ s₁.blk x = _
    rw [hr, update_of_ne fun e => hx1 (by rw [e])]
  · show s₁.blk _ = _
    rw [hblk]
    exact zeroed_other hl hs (c.own.own.range x hx0).1 (hs.unref x)

theorem bmapIndirect_grew {e : Nat} (hl : Layout sb) (c : Cached sb t s k) (hop : 1 ≤ s.outstanding)
    (he : e < NINDIRECT) (hind : (t (s.icache k).inum).addrs NDIRECT ≠ 0)
    (h0 : ref sb t s.blk ((s.icache k).inum, NDIRECT + 1 + e) = 0) :
    wp (bmapIndirect sb k e) (fun b s' => Grew sb (fun _ => False) t s k t s' ∧ b ≠ 0 ∧
      ref sb t s'.blk = update (ref sb t s.blk) ((s.icache k).inum, NDIRECT + 1 + e) b ∧
      Spent sb ([sb.bblock b, b] ++ [(t (s.icache k).inum).addrs NDIRECT]) [b] s s')
      (Lacks sb ((t (s.icache k).inum).addrs NDIRECT) 2 1 s) s := by
  have hi := c.lt
  have hslot : ref sb t s.blk ((s.icache k).inum, NDIRECT + 1 + e) =
      le32 (s.blk ((t (s.icache k).inum).addrs NDIRECT)) (4 * e) := by
    unfold ref
    rw [if_pos hi, if_neg (by omega), if_pos ⟨hind, by omega⟩, show NDIRECT + 1 + e - NDIRECT - 1 = e by omega]
  have hge : sb.nmeta ≤ (t (s.icache k).inum).addrs NDIRECT := by
    have hind' := hind
    rw [← ref_addr s.blk hi (Nat.le_refl _)] at hind' ⊢
    exact (c.own.own.range _ hind').1
  unfold bmapIndirect
  rw [wp_bind, wp_get, c.di]
  dsimp only
  rw [← hslot, if_pos h0]
  refine (balloc_spent _ c.own hl hop).seq ?_
  rintro b s₁ ⟨hs, hblk, hic, w₁⟩
  have ho := c.own.alloc_slot hl hs hi hind he h0
  have hr := ref_slotted c.own hl hs hi hind he
  rw [wp_bind, wp_setBlk, wp_bind]
  refine wp.mono (logWrite_toLog _ (w₁.outstanding ▸ hop)) (fun _ s₂ h₂ => ?_) fun _ s₂ h₂ => ?_
  · obtain ⟨w₂, hblk₂, hic₂⟩ := h₂
    have hblk₂ : s₂.blk = slotted sb s.blk b ((t (s.icache k).inum).addrs NDIRECT) e := by
      rw [hblk₂, hblk]
      rfl
    have hic₂ : s₂.icache = s.icache := hic₂.trans hic
    have w₂ : ToLog [(t (s.icache k).inum).addrs NDIRECT] s₁ s₂ :=
      w₂.congr (c := s₁.icache) (y := s₂.blk) (d := s₂.icache)
    rw [← hblk₂] at ho hr
    refine (wp_pure _).2 ⟨⟨ho, c.ok, fun j _ => by rw [hic₂], ?_, fun _ _ => rfl, rfl, fun i hi => ?_, fun x hx => ?_,
      fun x hx1 => ?_, fun x hx2 _ hx => ?_⟩, hs.ne_zero hl, hr, w₁.toToLog.trans w₂, fun b' hb' hu => ?_⟩
    · rw [hic₂, ← c.di]
    · rw [hblk₂]
      exact (dinode_update hl hi (Nat.le_trans hl.bmap_le hge)).trans (dinode_zeroed hl hs hi)
    · exact ref_update_keeps h0 hr x hx
    · rw [hr, update_of_ne fun e => hx1 (by rw [e])]
    · rw [hblk₂]
      exact c.own.slotted_other hl hs hi hx2 hx
    · -- The indirect block is no part of the free map.
      refine w₁.taken b' hb' ?_
      rw [hblk₂] at hu
      rw [hblk, ← hu]
      exact (used_update hl hb' (.inl hge)).symm
  · obtain ⟨w₂, -, he⟩ := h₂
    have w₂ : ToLog [(t (s.icache k).inum).addrs NDIRECT] s₁ s₂ :=
      w₂.congr (c := s₁.icache) (y := s₂.blk) (d := s₂.icache)
    exact ⟨⟨_, [sb.bblock b, b], fun _ => rfl, Nat.le_refl 2,
      (w₁.toToLog.trans w₂).mono fun c hc => mem_cons.2 ((mem_append.1 hc).symm.imp_left mem_singleton.1)⟩, .inl he⟩

/-- The blocks that `bmap` has to allocate for block `bn` of file `i`. -/
def bmapCost (sb : Superblock) (t : Table) (blk : Nat → Arr) (i bn : Nat) : Nat :=
  (if ref sb t blk (i, dataSlot bn) = 0 then 1 else 0) + if NDIRECT ≤ bn ∧ (t i).addrs NDIRECT = 0 then 1 else 0

/-- `b` is block `bn` of the file of entry `k`, and no other block of it is new. -/
structure Bmapped (sb : Superblock) (t : Table) (s : St) (k bn b : Nat) (t' : Table) (s' : St) : Prop where
  grew : Grew sb (fun _ => False) t s k t' s'
  ne : b ≠ 0
  here : ref sb t' s'.blk ((s.icache k).inum, dataSlot bn) = b
  else' : ∀ n, n ≠ bn →
    ref sb t' s'.blk ((s.icache k).inum, dataSlot n) = ref sb t s.blk ((s.icache k).inum, dataSlot n)
  ind : (t' (s.icache k).inum).addrs NDIRECT = (t (s.icache k).inum).addrs NDIRECT ∨
    NDIRECT ≤ bn ∧ (t (s.icache k).inum).addrs NDIRECT = 0
  reach : NDIRECT ≤ bn → (t' (s.icache k).inum).addrs NDIRECT ≠ 0
  spent : ∃ L A : List Nat, L.length ≤ bmapCost sb t s.blk (s.icache k).inum bn ∧
    A.length ≤ bmapCost sb t s.blk (s.icache k).inum bn ∧
    Spent sb (given ((t' (s.icache k).inum).addrs NDIRECT) ++ b :: L) A s s'

theorem Bmapped.found {bn : Nat} (c : Cached sb t s k)
    (h0 : ref sb t s.blk ((s.icache k).inum, dataSlot bn) ≠ 0) :
    Bmapped sb t s k bn (ref sb t s.blk ((s.icache k).inum, dataSlot bn)) t s := by
  refine ⟨.refl c, h0, rfl, fun _ _ => rfl, .inl rfl, fun hn hz => h0 ?_,
    [], [], Nat.zero_le _, Nat.zero_le _, (Spent.refl s).mono (fun _ h => absurd h not_mem_nil) fun _ => id⟩
  unfold ref dataSlot
  rw [if_pos c.lt, if_neg (show ¬ bn < NDIRECT by omega), if_neg (show ¬ bn + 1 ≤ NDIRECT by omega),
    if_neg fun h => h.1 hz]

theorem dataSlot_direct {bn : Nat} (h : bn < NDIRECT) : dataSlot bn = bn := if_pos h

theorem dataSlot_indirect {bn : Nat} (h : ¬ bn < NDIRECT) : dataSlot bn = NDIRECT + 1 + (bn - NDIRECT) := by
  rw [show dataSlot bn = bn + 1 from if_neg h]
  omega

theorem bmapIndirect_mapped {bn : Nat} (hl : Layout sb) (c : Cached sb t s k) (hop : 1 ≤ s.outstanding)
    (hn : ¬ bn < NDIRECT) (hbn : bn < MAXFILE) (hind : (t (s.icache k).inum).addrs NDIRECT ≠ 0)
    (h0 : ref sb t s.blk ((s.icache k).inum, dataSlot bn) = 0) :
    wp (bmapIndirect sb k (bn - NDIRECT)) (fun b s' => Bmapped sb t s k bn b t s')
      (Lacks sb ((t (s.icache k).inum).addrs NDIRECT) 2 1 s) s := by
  have he : bn - NDIRECT < NINDIRECT := by
    simp only [MAXFILE] at hbn
    omega
  have h0' := h0
  rw [dataSlot_indirect hn] at h0'
  refine (bmapIndirect_grew hl c hop he hind h0').imp ?_
  rintro b s' ⟨g, hb, hr, w⟩
  rw [← dataSlot_indirect hn] at hr
  have hcost : bmapCost sb t s.blk (s.icache k).inum bn = 1 := by
    unfold bmapCost
    rw [if_pos h0, if_neg fun h => hind h.2]
  refine ⟨g, hb, by rw [hr, update_self], fun n hne => ?_, .inl rfl, fun _ => hind, [sb.bblock b], [b],
    by rw [hcost]; rfl, by rw [hcost]; rfl, w.mono (fun c hc => ?_) fun _ => id⟩
  · rw [hr, update_of_ne fun e => hne (dataSlot_inj (Prod.mk.inj e).2)]
  · rw [given, if_neg hind]
    simp only [cons_append, nil_append, mem_cons, not_mem_nil, or_false] at hc ⊢
    tauto

theorem bmap_mapped {bn : Nat} (hl : Layout sb) (c : Cached sb t s k) (hop : 1 ≤ s.outstanding) (hbn : bn < MAXFILE) :
    wp (bmap sb k bn) (fun b s' => ∃ t', Bmapped sb t s k bn b t' s')
      (Lacks sb ((t (s.icache k).inum).addrs NDIRECT) (bmapCost sb t s.blk (s.icache k).inum bn + 1) (bmapCost sb t s.blk (s.icache k).inum bn) s) s := by
  have hi := c.lt
  by_cases h0 : ref sb t s.blk ((s.icache k).inum, dataSlot bn) = 0
  swap
  · refine (c.bmap_found (E := fun _ _ => False) h0).total ?_
    rintro b s' ⟨rfl, rfl⟩
    exact ⟨t, .found c h0⟩
  unfold bmap
  simp only [wp_bind, wp_get, wp_ite, wp_pure, wp_throw, c.di]
  refine ⟨fun hd => ?_, fun hd => ⟨fun hn => ?_, fun hn => absurd hbn ?_⟩⟩
  · have hle : bn ≤ NDIRECT := Nat.le_of_lt hd
    have hcost : bmapCost sb t s.blk (s.icache k).inum bn = 1 := by
      unfold bmapCost
      rw [if_pos h0, if_neg fun h => absurd h.1 (by omega)]
    rw [hcost]
    have hz := h0
    rw [dataSlot_direct hd, ref_addr _ hi hle] at hz
    refine ⟨fun _ => ?_, fun hne => absurd hz hne⟩
    refine (newAddr_grew _ hl c hop hle hz).imp ?_
    rintro b s' ⟨t', g, hb, hr, w⟩
    have hind : (t' (s.icache k).inum).addrs NDIRECT = (t (s.icache k).inum).addrs NDIRECT := by
      rw [← ref_addr s'.blk hi (Nat.le_refl _), ← ref_addr s.blk hi (Nat.le_refl _), hr,
        update_of_ne fun e => absurd (Prod.mk.inj e).2 (by omega)]
    rw [← dataSlot_direct hd] at hr
    refine ⟨t', g, hb, by rw [hr, update_self], fun n hne => ?_, .inl hind, fun h => absurd h (by omega),
      [sb.bblock b], [b], by rw [hcost]; rfl, by rw [hcost]; rfl, w.mono (fun c hc => ?_) fun _ => id⟩
    · rw [hr, update_of_ne fun e => hne (dataSlot_inj (Prod.mk.inj e).2)]
    · refine mem_append_right _ ?_
      simp only [mem_cons, not_mem_nil, or_false] at hc ⊢
      tauto
  · refine ⟨fun hz => ?_, fun hind => ?_⟩
    · have hcost : bmapCost sb t s.blk (s.icache k).inum bn = 2 := by
        unfold bmapCost
        rw [if_pos h0, if_pos ⟨by omega, hz⟩]
      rw [hcost]
      refine (newAddr_grew _ hl c hop (Nat.le_refl _) hz).mono (fun ind s₁ h₁ => ?_) fun _ _ h₁ => h₁.mono (by decide) (by decide)
      obtain ⟨t₁, g₁, hne, hr₁, w₁⟩ := h₁
      have hi₁ := g₁.inum
      have hind : (t₁ (s.icache k).inum).addrs NDIRECT = ind := by
        rw [← ref_addr s₁.blk hi (Nat.le_refl _), hr₁, update_self]
      have hsame : ∀ n, ref sb t₁ s₁.blk ((s.icache k).inum, dataSlot n) = ref sb t s.blk ((s.icache k).inum, dataSlot n) :=
        fun n => by rw [hr₁, update_of_ne fun e => dataSlot_ne n (Prod.mk.inj e).2]
      have hspec := bmapIndirect_mapped hl (g₁.cached c) (w₁.outstanding ▸ hop) hd hbn (by rw [hi₁, hind]; exact hne)
        (by rw [hi₁, hsame]; exact h0)
      have w₁ : Spent sb (given ind ++ [sb.bblock ind]) [ind] s s₁ := w₁.mono (fun c hc => by
        rw [given, if_neg hne]
        simp only [cons_append, nil_append, mem_cons] at hc ⊢
        tauto) fun _ => id
      rw [hi₁, hind] at hspec
      refine hspec.mono (fun b s₂ h₂ => ?_) fun _ _ h₂ => Lacks.after w₁ (fun h => absurd hz h) h₂
      -- The new indirect block is the one that is written again.
      obtain ⟨g₂, hb, here, helse, -, -, L, A, hL, hA, w₂⟩ := h₂
      have hcost₁ : bmapCost sb t₁ s₁.blk (s.icache k).inum bn = 1 := by
        unfold bmapCost
        rw [hsame, if_pos h0, hind, if_neg fun h => hne h.2]
      rw [hi₁] at here helse hL hA w₂
      rw [hcost₁] at hL hA
      rw [hind] at w₂
      refine ⟨t₁, g₁.trans g₂, hb, here, fun n hn => (helse n hn).trans (hsame n), .inr ⟨by omega, hz⟩, fun _ => by rw [hind]; exact hne,
        sb.bblock ind :: L, [ind] ++ A, ?_, ?_, (w₁.trans w₂).mono (fun c hc => ?_) fun _ => id⟩
      · rw [hcost, length_cons]
        omega
      · rw [hcost, length_append, length_singleton]
        omega
      · rw [hind]
        simp only [mem_cons, mem_append, not_mem_nil, or_false] at hc ⊢
        tauto
    · have hcost : bmapCost sb t s.blk (s.icache k).inum bn = 1 := by
        unfold bmapCost
        rw [if_pos h0, if_neg fun h => hind h.2]
      rw [hcost]
      exact (bmapIndirect_mapped hl c hop hd hbn hind h0).imp fun b s' h' => ⟨t, h'⟩
  · simp only [MAXFILE]
    omega

end Grew

end Xv6.Fs
