import Xv6.Log.Disk
/-!
# A commit is atomic across crashes

`installTrans` and `writeHead` are followed write by write: `Keeps P s s'` says
that the machine went from `s` to `s'` and that the disk had `P` after every
write on the way. With the log as a `Redo.Log`, the disk a reader should see
changes at one write only, the one that stores the header (`commit_keeps`), and
a recovery leaves it alone (`recover_keeps`).
-/

namespace Xv6.Log

open Bytes Redo Function List

/-! ## The header -/

theorem le32_putBlocks_below (l : List UInt32) (b : Block) (i o : Nat) (h : o + 4 ≤ 4 + 4 * i) :
    le32 (putBlocks b i l) o = le32 b o := by
  induction l generalizing b i with
  | nil => rfl
  | cons x l ih => rw [putBlocks, ih _ _ (by omega), le32_put32_other (by omega)]

theorem le32_putBlocks (l : List UInt32) (b : Block) (i j : Nat) (h : j < l.length) :
    le32 (putBlocks b i l) (4 + 4 * (i + j)) = l[j].toNat := by
  induction l generalizing b i j with
  | nil => simp at h
  | cons x l ih =>
    rw [putBlocks]
    cases j with
    | zero =>
      rw [le32_putBlocks_below _ _ _ _ (by omega), Nat.add_zero, le32_put32]
      exact Nat.mod_eq_of_lt x.toNat_lt
    | succ j =>
      have := ih (put32 b (4 + 4 * i) x.toNat) (i + 1) j (by simpa using h)
      rw [show i + (j + 1) = i + 1 + j by omega, this]
      rfl

theorem length_lt {l : List UInt32} (h : l.length ≤ LOGSIZE) : l.length < 2 ^ 31 :=
  Nat.lt_of_le_of_lt h (by decide)

section
variable (b : Block) (l : List UInt32) (h : l.length ≤ LOGSIZE)
include b l h

theorem le32_putHead : le32 (putHead b l) 0 = l.length := by
  have hl := length_lt h
  rw [putHead, le32_putBlocks_below _ _ _ _ (by omega), le32_put32]
  omega

theorem headN_putHead : headN (putHead b l) = l.length := by
  rw [headN, le32_putHead b l h, if_pos (length_lt h)]

theorem headBlocks_putHead : headBlocks (putHead b l) = l := by
  apply ext_getElem
  · simp [headBlocks, headN_putHead b l h]
  · intro i h1 h2
    have := le32_putBlocks l (put32 b 0 l.length) 0 i h2
    simp only [Nat.zero_add] at this
    simp [headBlocks, putHead, this]

end

/-! ## The machine, write by write -/

/-- What `bread` returns for block `b`. -/
def Machine.view (s : Machine) (b : Nat) : Block := (s.cached b).getD (s.disk b)

section Bread
variable (s : Machine) (b : Nat)

@[simp] theorem bread_data : (s.bread b).1 = s.view b := by
  unfold Machine.bread Machine.view; split <;> simp_all
@[simp] theorem bread_disk : (s.bread b).2.disk = s.disk := by unfold Machine.bread; split <;> rfl
@[simp] theorem bread_written : (s.bread b).2.written = s.written := by unfold Machine.bread; split <;> rfl
@[simp] theorem bread_start : (s.bread b).2.start = s.start := by unfold Machine.bread; split <;> rfl
@[simp] theorem bread_lh : (s.bread b).2.lh = s.lh := by unfold Machine.bread; split <;> rfl
@[simp] theorem bread_block (i : Nat) : (s.bread b).2.block i = s.block i := by simp [Machine.block]
@[simp] theorem bread_view : (s.bread b).2.view = s.view := by
  funext x
  unfold Machine.bread
  split
  · rfl
  · rename_i h
    by_cases hx : x = b
    · subst hx; simp [Machine.view, h]
    · simp [Machine.view, update_of_ne hx]

end Bread

@[simp] theorem bwrite_view (s : Machine) (b : Nat) (v : Block) : (s.bwrite b v).view = update s.view b v := by
  funext x
  by_cases hx : x = b
  · subst hx; simp [Machine.view, Machine.bwrite]
  · simp [Machine.view, Machine.bwrite, update_of_ne hx]

/-- From `s` to `s'`, and the disk had `P` after every write on the way. -/
def Keeps (P : (Nat → Block) → Prop) (s s' : Machine) : Prop :=
  ∃ ws, s'.written = s.written ++ ws ∧ s'.disk = applyWrites s.disk ws ∧ Through P s.disk ws

variable {P : (Nat → Block) → Prop} {size start : Nat} {D : Nat → Block}

theorem Keeps.refl {s : Machine} (h : P s.disk) : Keeps P s s :=
  ⟨[], by simp, rfl, through_nil h⟩

theorem Keeps.trans {P : (Nat → Block) → Prop} {s s' s'' : Machine} (h : Keeps P s s') (h' : Keeps P s' s'') :
    Keeps P s s'' := by
  obtain ⟨ws, hw, hd, ht⟩ := h
  obtain ⟨vs, hw', hd', ht'⟩ := h'
  refine ⟨ws ++ vs, by rw [hw', hw, append_assoc], by rw [hd', hd, applyWrites_append], ht.append ?_⟩
  rw [← hd]; exact ht'

theorem Keeps.mono {Q : (Nat → Block) → Prop} {s s' : Machine} (h : Keeps P s s') (hpq : ∀ d, P d → Q d) :
    Keeps Q s s' := by
  obtain ⟨ws, hw, hd, ht⟩ := h
  exact ⟨ws, hw, hd, ht.mono hpq⟩

theorem Keeps.last {P : (Nat → Block) → Prop} {s s' : Machine} (h : Keeps P s s') : P s'.disk := by
  obtain ⟨ws, -, hd, ht⟩ := h
  rw [hd]; exact ht.last

theorem keeps_write {s s' : Machine} {b : Nat} {v : Block} (h : P s.disk)
    (hw : s'.written = s.written ++ [(b, v)]) (hd : s'.disk = update s.disk b v)
    (h' : P (update s.disk b v)) : Keeps P s s' :=
  ⟨[(b, v)], hw, by rw [hd]; rfl, through_cons h (through_nil h')⟩

/-! ## One round of each loop -/

section Rounds
variable (s : Machine) (tail : Nat)

theorem installAt_written :
    (installAt s tail).written = s.written ++ [(s.block tail, s.view (s.start + tail + 1))] := by
  simp [installAt, Machine.bwrite]
theorem installAt_disk :
    (installAt s tail).disk = update s.disk (s.block tail) (s.view (s.start + tail + 1)) := by
  simp [installAt, Machine.bwrite]
theorem installAt_view :
    (installAt s tail).view = update s.view (s.block tail) (s.view (s.start + tail + 1)) := by
  simp [installAt]
@[simp] theorem installAt_start : (installAt s tail).start = s.start := by simp [installAt, Machine.bwrite]
@[simp] theorem installAt_lh : (installAt s tail).lh = s.lh := by simp [installAt, Machine.bwrite]

theorem writeLogAt_written :
    (writeLogAt s tail).written = s.written ++ [(s.start + tail + 1, s.view (s.block tail))] := by
  simp [writeLogAt, Machine.bwrite]
theorem writeLogAt_disk :
    (writeLogAt s tail).disk = update s.disk (s.start + tail + 1) (s.view (s.block tail)) := by
  simp [writeLogAt, Machine.bwrite]
theorem writeLogAt_view :
    (writeLogAt s tail).view = update s.view (s.start + tail + 1) (s.view (s.block tail)) := by
  simp [writeLogAt]
@[simp] theorem writeLogAt_start : (writeLogAt s tail).start = s.start := by simp [writeLogAt, Machine.bwrite]
@[simp] theorem writeLogAt_lh : (writeLogAt s tail).lh = s.lh := by simp [writeLogAt, Machine.bwrite]

theorem writeHead_written :
    (writeHead s).written = s.written ++ [(s.start, putHead (s.view s.start) s.lh)] := by
  simp [writeHead, Machine.bwrite]
theorem writeHead_disk :
    (writeHead s).disk = update s.disk s.start (putHead (s.view s.start) s.lh) := by
  simp [writeHead, Machine.bwrite]
theorem writeHead_view :
    (writeHead s).view = update s.view s.start (putHead (s.view s.start) s.lh) := by
  simp [writeHead]
@[simp] theorem writeHead_start : (writeHead s).start = s.start := by simp [writeHead, Machine.bwrite]
@[simp] theorem writeHead_lh : (writeHead s).lh = s.lh := by simp [writeHead, Machine.bwrite]

end Rounds

/-! ## The loops -/

/-- The log as a redo log: `size` blocks from `start`, the header first. -/
def layout (start size : Nat) : Redo.Log Block :=
  { start, size, homes := fun b => (headBlocks b).map UInt32.toNat }

/-- `log.lh`'s block numbers, as block numbers of the disk. -/
def Machine.homes (s : Machine) : List Nat := s.lh.map UInt32.toNat

theorem block_eq {s : Machine} {i : Nat} (h : i < s.homes.length) : s.block i = s.homes[i] := by
  have h' : i < s.lh.length := by simpa [Machine.homes] using h
  simp [Machine.block, Machine.homes, getElem?_eq_getElem h']

/-- The header on disk lists `l`, and a reader sees `D`. -/
def Shows (L : Redo.Log Block) (l : List Nat) (D d : Nat → Block) : Prop :=
  L.homes (d L.start) = l ∧ L.Same (L.logical d) D

theorem foldl_range_succ {α : Type} (f : α → Nat → α) (a : α) (m : Nat) :
    (List.range (m + 1)).foldl f a = f ((List.range m).foldl f a) m := by
  rw [range_succ, foldl_append]; rfl

/-- After `m` rounds of `write_log` into an empty log: the first `m` log blocks
hold the cached contents of the first `m` homes, and no reader noticed. -/
theorem writeLog_rounds {s : Machine} (hf : (layout s.start size).Fits s.homes)
    (h : Shows (layout s.start size) [] D s.disk) (m : Nat) (hm : m ≤ s.homes.length) :
    let t := (List.range m).foldl writeLogAt s
    Keeps (Shows (layout s.start size) [] D) s t ∧ t.start = s.start ∧ t.lh = s.lh ∧
      (∀ b, ¬ (layout s.start size).Inside b → t.view b = s.view b) ∧
      ∀ i, i < m → t.view (s.start + 1 + i) = s.view (s.block i) ∧ t.disk (s.start + 1 + i) = s.view (s.block i) := by
  induction m with
  | zero => exact ⟨.refl h, rfl, rfl, fun _ _ => rfl, by simp⟩
  | succ m ih =>
    obtain ⟨hk, hs, hl, hv, hlog⟩ := ih (by omega)
    simp only [foldl_range_succ]
    generalize (List.range m).foldl writeLogAt s = t at hk hs hl hv hlog
    have hin := hf.inside (i := m) (by omega)
    have hblk : t.block m = s.block m := by simp [Machine.block, hl]
    have hout : ¬ (layout s.start size).Inside (s.block m) := by
      rw [block_eq (by omega)]; exact hf.outside _ (getElem_mem _)
    have hcur := hk.last
    have hne : s.start + m + 1 ≠ s.start := by omega
    refine ⟨hk.trans (keeps_write hcur (writeLogAt_written t m) (writeLogAt_disk t m) ?_), by simp [hs], by simp [hl],
      ?_, ?_⟩
    · rw [hs]
      refine ⟨?_, ?_⟩
      · show (layout s.start size).homes (update t.disk (s.start + m + 1) _ s.start) = []
        rw [update_of_ne hne.symm]; exact hcur.1
      · refine (same_logBlock hcur.1 ?_ hne).trans hcur.2
        rw [show s.start + m + 1 = s.start + 1 + m by omega]; exact hin
    · intro b hb
      rw [writeLogAt_view, update_of_ne, hv b hb]
      rintro rfl
      rw [hs, show s.start + m + 1 = s.start + 1 + m by omega] at hb
      exact hb hin
    · intro i hi
      rw [writeLogAt_view, writeLogAt_disk, hs, hblk, hv _ hout]
      by_cases him : i = m
      · subst him
        rw [show s.start + 1 + i = s.start + i + 1 by omega]
        simp
      · rw [update_of_ne (by omega), update_of_ne (by omega)]
        exact hlog i (by omega)

/-- After `m` rounds of `install_trans` for the transaction in the header: the
first `m` homes hold their log blocks, and no reader noticed. -/
theorem install_rounds {s : Machine} (hf : (layout s.start size).Fits s.homes)
    (h : Shows (layout s.start size) s.homes D s.disk)
    (hv : ∀ i, i < s.homes.length → s.view (s.start + 1 + i) = s.disk (s.start + 1 + i))
    (m : Nat) (hm : m ≤ s.homes.length) :
    let t := (List.range m).foldl installAt s
    Keeps (Shows (layout s.start size) s.homes D) s t ∧ t.start = s.start ∧ t.lh = s.lh ∧
      (∀ i, i < s.homes.length → t.view (s.start + 1 + i) = s.disk (s.start + 1 + i) ∧
        t.disk (s.start + 1 + i) = s.disk (s.start + 1 + i)) ∧
      ∀ i (hi : i < s.homes.length), i < m → t.disk s.homes[i] = s.disk (s.start + 1 + i) := by
  induction m with
  | zero => exact ⟨.refl h, rfl, rfl, fun i hi => ⟨hv i hi, rfl⟩, by simp⟩
  | succ m ih =>
    obtain ⟨hk, hs, hl, hlog, hhome⟩ := ih (by omega)
    simp only [foldl_range_succ]
    generalize (List.range m).foldl installAt s = t at hk hs hl hlog hhome
    have hm' : m < s.homes.length := by omega
    have hblk : t.block m = s.homes[m] := by rw [← block_eq hm']; simp [Machine.block, hl]
    have hsrc : t.view (t.start + m + 1) = s.disk (s.start + 1 + m) := by
      rw [hs, show s.start + m + 1 = s.start + 1 + m by omega]; exact (hlog m hm').1
    have hne : ∀ i, i < s.homes.length → s.start + 1 + i ≠ s.homes[m] := by
      intro i hi he
      exact hf.outside _ (getElem_mem hm') (he ▸ hf.inside hi)
    have hcur := hk.last
    refine ⟨hk.trans (keeps_write hcur (installAt_written t m) (installAt_disk t m) ?_), by simp [hs], by simp [hl],
      ?_, ?_⟩
    · rw [hsrc, hblk, ← (hlog m hm').2]
      refine ⟨?_, (same_install hcur.1 hf hm').trans hcur.2⟩
      rw [update_of_ne]
      · exact hcur.1
      · intro he
        exact hf.outside _ (getElem_mem hm') (he ▸ hf.start_inside)
    · intro i hi
      rw [installAt_view, installAt_disk, hblk, update_of_ne (hne i hi), update_of_ne (hne i hi)]
      exact hlog i hi
    · intro i hi him
      rw [installAt_disk, hblk, hsrc]
      by_cases he : i = m
      · subst he; simp
      · rw [update_of_ne]
        · exact hhome i hi (by omega)
        · exact fun h => he ((List.Nodup.getElem_inj_iff hf.nodup).1 h)

/-- `install_trans` followed by `write_head` with `n = 0`, for the transaction in the header. -/
theorem install_clear {s : Machine} {size : Nat} {D : Nat → Block} (hf : (layout s.start size).Fits s.homes)
    (h : Shows (layout s.start size) s.homes D s.disk)
    (hv : ∀ i, i < s.homes.length → s.view (s.start + 1 + i) = s.disk (s.start + 1 + i)) :
    let t := writeHead { installTrans s with lh := [] }
    Keeps (fun d => Shows (layout s.start size) s.homes D d ∨ Shows (layout s.start size) [] D d) s t ∧
      le32 (t.disk s.start) 0 = 0 ∧ (layout s.start size).Same t.disk D := by
  have hn : s.homes.length = s.lh.length := by simp [Machine.homes]
  have he : (List.range s.lh.length).foldl installAt s = installTrans s := rfl
  obtain ⟨hk, hs, -, hlog, hhome⟩ := install_rounds hf h hv s.lh.length hn.ge
  rw [he] at hk hs
  simp only [he] at hlog hhome
  have hcur := hk.last
  have hz : ∀ b, headBlocks (putHead b []) = [] := fun b => headBlocks_putHead b [] (by simp)
  have hclear : Shows (layout s.start size) [] D
      (update (installTrans s).disk s.start (putHead ((installTrans s).view s.start) [])) := by
    refine ⟨by simp [layout, hz], (same_clear hcur.1 hf ?_ (by simp [layout, hz])).trans hcur.2⟩
    intro i hi
    rw [hhome i hi (by omega)]
    exact (hlog i hi).2.symm
  have hd : (writeHead { installTrans s with lh := [] }).disk =
      update (installTrans s).disk s.start (putHead ((installTrans s).view s.start) []) := by
    rw [writeHead_disk]
    simp only [hs]
    rfl
  refine ⟨(hk.mono fun _ => .inl).trans (keeps_write (.inl hcur) (writeHead_written _) (writeHead_disk _) ?_), ?_, ?_⟩
  · simp only [hs]
    exact .inr hclear
  · rw [hd, update_self]
    exact le32_putHead _ _ (by simp)
  · rw [hd]
    exact fun b hb => by rw [← hclear.2 b hb, logical_empty hclear.1]

/-! ## Commit and recovery -/

/-- The contents a complete commit leaves: the cached blocks at their homes. -/
def Machine.after (s : Machine) (size : Nat) : Nat → Block :=
  (layout s.start size).logical (writeHead (writeLog s)).disk

/-- What every crash during a commit leaves: a log that can be replayed, and
one of the two contents for a reader. -/
def Either (start size : Nat) (D D' d : Nat → Block) : Prop :=
  (∃ l, Shows (layout start size) l D d ∧ (layout start size).Fits l) ∨
    ∃ l, Shows (layout start size) l D' d ∧ (layout start size).Fits l

theorem fits_nil (h : 0 < size) : (layout start size).Fits [] := ⟨by simp, by simp, h⟩

theorem commit_eq {s : Machine} (h : 0 < s.lh.length) :
    commit s = writeHead { installTrans (writeHead (writeLog s)) with lh := [] } := if_pos h

/-- The disk after every write of a commit shows the old contents or all of the new ones. -/
theorem commit_keeps {s : Machine} (hf : (layout s.start size).Fits s.homes) (hlen : s.lh.length ≤ LOGSIZE)
    (h0 : headN (s.disk s.start) = 0) (hpos : 0 < s.lh.length) :
    Keeps (Either s.start size s.disk (s.after size)) s (commit s) ∧
      (layout s.start size).Same (commit s).disk (s.after size) := by
  have hempty : (layout s.start size).homes (s.disk s.start) = [] := by simp [layout, headBlocks, h0]
  have hfn : (layout s.start size).Fits [] := fits_nil (Nat.lt_of_le_of_lt (Nat.zero_le _) hf.room)
  have hold : Shows (layout s.start size) [] s.disk s.disk := ⟨hempty, by rw [logical_empty hempty]; exact fun _ _ => rfl⟩
  have hn : s.homes.length = s.lh.length := by simp [Machine.homes]
  have he : (List.range s.lh.length).foldl writeLogAt s = writeLog s := rfl
  obtain ⟨hk, hs, hl, -, hlog⟩ := writeLog_rounds hf hold s.lh.length hn.ge
  rw [he] at hk hs hl
  simp only [he] at hlog
  -- the write of the header: from the old contents to the new ones
  have hh : (writeHead (writeLog s)).homes = s.homes := by simp [Machine.homes, hl]
  have hst : (writeHead (writeLog s)).start = s.start := by simp [hs]
  have hhead : (layout s.start size).homes ((writeHead (writeLog s)).disk s.start) = s.homes := by
    rw [writeHead_disk, hs, hl, update_self]
    simp [layout, headBlocks_putHead _ _ hlen, Machine.homes]
  have hnew : Shows (layout s.start size) s.homes (s.after size) (writeHead (writeLog s)).disk :=
    ⟨hhead, fun _ _ => rfl⟩
  have hview : ∀ i, i < s.homes.length →
      (writeHead (writeLog s)).view (s.start + 1 + i) = (writeHead (writeLog s)).disk (s.start + 1 + i) := by
    intro i hi
    rw [writeHead_view, writeHead_disk, hs, update_of_ne (by omega), update_of_ne (by omega)]
    obtain ⟨h1, h2⟩ := hlog i (by omega)
    rw [h1, h2]
  have key := @install_clear (writeHead (writeLog s)) size (s.after size)
  rw [hst, hh] at key
  obtain ⟨hk', -, hsame⟩ := key hf hnew hview
  rw [commit_eq hpos]
  refine ⟨((hk.mono fun d hd => .inl ⟨_, hd, hfn⟩).trans (keeps_write (.inl ⟨_, hk.last, hfn⟩) (writeHead_written _)
    (writeHead_disk _) ?_)).trans (hk'.mono ?_), hsame⟩
  · rw [← writeHead_disk]
    exact .inr ⟨_, hnew, hf⟩
  · rintro d (hd | hd)
    · exact .inr ⟨_, hd, hf⟩
    · exact .inr ⟨_, hd, hfn⟩

/-- A recovery shows the same contents after each of its writes, and clears the log. -/
theorem recover_keeps {l : List Nat} {d : Nat → Block} (h : Shows (layout start size) l D d)
    (hf : (layout start size).Fits l) :
    Keeps (fun d => ∃ l, Shows (layout start size) l D d ∧ (layout start size).Fits l) (boot start d)
        (recoverFromLog (boot start d)) ∧
      le32 (recovered start d start) 0 = 0 ∧ (layout start size).Same (recovered start d) D := by
  have hfn : (layout start size).Fits [] := fits_nil (Nat.lt_of_le_of_lt (Nat.zero_le _) hf.room)
  have hread : (readHead (boot start d)).disk = d ∧ (readHead (boot start d)).written = [] ∧
      (readHead (boot start d)).start = start ∧ (readHead (boot start d)).homes = l ∧
      (readHead (boot start d)).view = d := by
    refine ⟨rfl, rfl, rfl, h.1, ?_⟩
    funext b
    by_cases hb : b = start
    · subst hb; simp [readHead, boot, Machine.bread, Machine.view]
    · simp [readHead, boot, Machine.bread, Machine.view, update_of_ne hb]
  obtain ⟨hd, hw, hs, hl, hv⟩ := hread
  have key := @install_clear (readHead (boot start d)) size D
  rw [hs, hl, hd] at key
  obtain ⟨hk, hz, hsame⟩ := key hf h (fun i _ => by rw [hv])
  refine ⟨?_, hz, hsame⟩
  obtain ⟨ws, h1, h2, h3⟩ := hk
  rw [hw] at h1
  rw [hd] at h2 h3
  refine ⟨ws, h1, h2, h3.mono ?_⟩
  rintro d (hd | hd)
  · exact ⟨_, hd, hf⟩
  · exact ⟨_, hd, hfn⟩

theorem restarts_shows {d d' : Nat → Block} (hr : Restarts start d d')
    (h : ∃ l, Shows (layout start size) l D d ∧ (layout start size).Fits l) :
    ∃ l, Shows (layout start size) l D d' ∧ (layout start size).Fits l := by
  induction hr with
  | none => exact h
  | crash k _ ih =>
    obtain ⟨l, hl, hf⟩ := ih
    obtain ⟨⟨ws, hw, -, ht⟩, -⟩ := recover_keeps hl hf
    rw [recoverCrash, show (recoverFromLog _).written = ws by simpa [boot] using hw]
    exact ht k

/-- **A crash never leaves half a commit.** The on-disk log is empty; the
transaction in memory has at most `LOGSIZE` distinct blocks, none in the log,
and fits. Cut `commit` off after any of its writes and recover, where any
number of recoveries may be cut off as well: the log is empty again, and the
blocks outside it are all as they were, or all as a complete `commit` leaves
them. -/
theorem commit_crash_atomic (s : Machine) (size k : Nat) (d : Nat → Block) (h0 : le32 (s.disk s.start) 0 = 0)
    (hlen : s.lh.length ≤ LOGSIZE) (hroom : s.lh.length < size) (hnd : s.lh.Nodup)
    (hout : ∀ b ∈ s.lh, ¬ InLog s size b.toNat) (hr : Restarts s.start (commitCrash s k) d) :
    le32 (recovered s.start d s.start) 0 = 0 ∧
      ((∀ b, ¬ InLog s size b → recovered s.start d b = s.disk b) ∨
        ∀ b, ¬ InLog s size b → recovered s.start d b = (commit s).disk b) := by
  have hf : (layout s.start size).Fits s.homes := by
    refine ⟨hnd.map fun a b h => UInt32.toNat_inj.1 h, ?_, by simpa [Machine.homes, layout] using hroom⟩
    intro b hb
    obtain ⟨x, hx, rfl⟩ := mem_map.1 hb
    exact hout x hx
  have hn0 : headN (s.disk s.start) = 0 := by simp [headN, h0]
  -- it is enough that the crash shows the old contents or those of a complete commit
  have main : ∀ D, (∃ l, Shows (layout s.start size) l D (commitCrash s k) ∧ (layout s.start size).Fits l) →
      le32 (recovered s.start d s.start) 0 = 0 ∧ ∀ b, ¬ InLog s size b → recovered s.start d b = D b := by
    intro D h
    obtain ⟨l, hl, hfl⟩ := restarts_shows hr h
    obtain ⟨-, hz, hsame⟩ := recover_keeps hl hfl
    exact ⟨hz, hsame⟩
  by_cases hpos : 0 < s.lh.length
  · obtain ⟨⟨ws, hw, -, ht⟩, hsame⟩ := commit_keeps hf hlen hn0 hpos
    have hc : commitCrash s k = applyWrites s.disk (ws.take k) := by simp [commitCrash, hw]
    rcases ht k with h | h <;> rw [← hc] at h <;> obtain ⟨hz, hb⟩ := main _ h
    · exact ⟨hz, .inl hb⟩
    · exact ⟨hz, .inr fun b hn => (hb b hn).trans (hsame b hn).symm⟩
  · have hc : commitCrash s k = s.disk := by simp [commitCrash, commit, hpos]
    have hempty : (layout s.start size).homes (s.disk s.start) = [] := by simp [layout, headBlocks, hn0]
    obtain ⟨hz, hb⟩ := main s.disk ⟨[], by
      rw [hc]
      exact ⟨hempty, by rw [logical_empty hempty]; exact fun _ _ => rfl⟩, fits_nil (by omega)⟩
    exact ⟨hz, .inl hb⟩

/-- Two blocks in the log, the crash between the two installs, one recovery cut off after its first write. -/
theorem commit_crash_atomic_two :
    let s : Machine := { disk := fun _ _ => 0, cached := fun b => if b = 40 then some fun _ => 1 else none, written := [],
                         start := 2, lh := [40, 41] }
    let d := recoverCrash 2 (commitCrash s 4) 1
    le32 (recovered 2 d 2) 0 = 0 ∧
      ((∀ b, ¬ InLog s 31 b → recovered 2 d b = s.disk b) ∨ ∀ b, ¬ InLog s 31 b → recovered 2 d b = (commit s).disk b) := by
  intro s d
  refine commit_crash_atomic s 31 4 d (by decide) (by decide) (by decide) (by decide) ?_ (.crash 1 (.none _))
  intro b hb
  simp only [s, mem_cons, not_mem_nil, or_false] at hb
  rcases hb with rfl | rfl <;> decide

end Xv6.Log
