import Xv6.Pipe.Fifo
/-!
# What a read takes and what it reports

`piperead` moves `nread` past a byte before `copyout` stores it. If the byte
cannot be stored the loop ends, and the byte is neither in the pipe nor counted.
So a read conserves the bytes exactly if it can store all those it gets to.
-/

namespace Xv6.Pipe

open Run List

section Copy
variable {dst : Nat → Bool} {rem i j : Nat} {pi pi' : Pipe} {l out : List UInt8}

/-- The bytes that the copy loop gets to can be stored. -/
def Stores (dst : Nat → Bool) (i m : Nat) : Prop := ∀ k, i ≤ k → k < i + m → dst k = true

theorem stores_succ {m : Nat} : Stores dst i (m + 1) ↔ dst i = true ∧ Stores dst (i + 1) m := by
  constructor
  · intro h
    exact ⟨h i (Nat.le_refl i) (by omega), fun k h1 h2 => h k (by omega) (by omega)⟩
  · rintro ⟨h0, h⟩ k h1 h2
    rcases Nat.eq_or_lt_of_le h1 with rfl | hlt
    · exact h0
    · exact h k hlt (by omega)

theorem pipereadCopy_count (h : Holds pi l) (hr : pipereadCopy dst rem i pi = (pi', j, out)) :
    Stores dst i (min rem l.length) ∧ j = i + out.length ∨ ¬ Stores dst i (min rem l.length) ∧ j + 1 = i + out.length := by
  induction rem generalizing i pi l pi' j out with
  | zero =>
    simp only [pipereadCopy, Prod.mk.injEq] at hr
    obtain ⟨-, rfl, rfl⟩ := hr
    exact .inl ⟨fun k h1 h2 => by omega, rfl⟩
  | succ rem ih =>
    unfold pipereadCopy at hr
    by_cases he : pi.Empty
    · rw [if_pos he] at hr
      obtain ⟨-, rfl, rfl⟩ := by simpa only [Prod.mk.injEq] using hr
      rw [(Holds.empty_iff h).1 he]
      exact .inl ⟨fun k h1 h2 => by simp only [length_nil, Nat.min_zero] at h2; omega, rfl⟩
    · rw [if_neg he] at hr
      obtain ⟨l', rfl, h'⟩ := Holds.drop h he
      rw [length_cons, Nat.succ_min_succ, stores_succ]
      by_cases hd : dst i = true
      · rw [if_pos hd] at hr
        rcases hrec : pipereadCopy dst rem (i + 1) pi.drop with ⟨pi₁, j₁, out₁⟩
        rw [hrec] at hr
        obtain ⟨-, rfl, rfl⟩ := by simpa only [Prod.mk.injEq] using hr
        rw [length_cons]
        rcases ih h' hrec with ⟨hst, hj⟩ | ⟨hst, hj⟩
        · exact .inl ⟨⟨hd, hst⟩, by omega⟩
        · exact .inr ⟨fun hs => hst hs.2, by omega⟩
      · rw [if_neg hd] at hr
        obtain ⟨-, rfl, rfl⟩ := by simpa only [Prod.mk.injEq] using hr
        exact .inr ⟨fun hs => hd hs.1, rfl⟩

end Copy

variable {P : Type} [DecidableEq P] {s s' : St P} {p : P} {dst : Nat → Bool} {n : Int} {l : List UInt8}

/-- What a critical section of `piperead` does to the bytes that wait: nothing if it sleeps or fails; otherwise it takes
the bytes `out`, and returns their number if it could store them all, and one less if not. -/
theorem read_takes (h : Holds s.pi l) (hpc : s.pc p = .reading dst n) (hs : Step s (.read p) s') :
    s'.rets = s.rets ∧ s'.pi = s.pi ∨ s'.rets = s.rets ++ [.read (s.tag p) dst n (-1) []] ∧ s'.pi = s.pi ∨
    ∃ out l' i, s'.rets = s.rets ++ [.read (s.tag p) dst n (i : Nat) (out.take i)] ∧ Holds s'.pi l' ∧ l = out ++ l' ∧
      (Stores dst 0 (min n.toNat l.length) ∧ out.length = i ∨ ¬ Stores dst 0 (min n.toNat l.length) ∧ out.length = i + 1) := by
  cases hs with
  | readFail hpc' _ _ =>
    obtain ⟨rfl, rfl⟩ := Pc.reading.inj (hpc.symm.trans hpc')
    exact .inr (.inl ⟨rfl, rfl⟩)
  | readSleep => exact .inl ⟨rfl, rfl⟩
  | @readDone _ dst' n' pi i out hpc' hne hcopy =>
    obtain ⟨rfl, rfl⟩ := Pc.reading.inj (hpc.symm.trans hpc')
    obtain ⟨l', hl, hh⟩ := Holds.pipereadCopy h hcopy
    refine .inr (.inr ⟨out, l', i, rfl, hh, hl, ?_⟩)
    rcases pipereadCopy_count h hcopy with ⟨hst, hi⟩ | ⟨hst, hi⟩
    · exact .inl ⟨hst, by omega⟩
    · exact .inr ⟨hst, by omega⟩

/-- **A read conserves the bytes** if it can store those it gets to: what it does not report is still in the pipe, in order. -/
theorem piperead_conserves (h : Holds s.pi l) (hpc : s.pc p = .reading dst n)
    (hst : Stores dst 0 (min n.toNat l.length)) (hs : Step s (.read p) s') :
    s'.rets = s.rets ∧ Holds s'.pi l ∨
    ∃ (r : Int) (buf : List UInt8), s'.rets = s.rets ++ [.read (s.tag p) dst n r buf] ∧ (r = -1 ∧ buf = [] ∨ r = buf.length) ∧
      Holds s'.pi (l.drop r.toNat) ∧ buf = l.take r.toNat := by
  rcases read_takes h hpc hs with ⟨hr, hpi⟩ | ⟨hr, hpi⟩ | ⟨out, l', i, hr, hh, rfl, ⟨-, hi⟩ | ⟨hno, -⟩⟩
  · exact .inl ⟨hr, hpi ▸ h⟩
  · exact .inr ⟨-1, [], hr, .inl ⟨rfl, rfl⟩, hpi ▸ h, rfl⟩
  · subst hi
    refine .inr ⟨out.length, out, ?_, .inr rfl, ?_, ?_⟩
    · rw [hr, take_length]
    · rw [Int.toNat_natCast, drop_left]
      exact hh
    · rw [Int.toNat_natCast, take_left]
  · exact absurd hst hno

/-- The bytes `A` and `B` wait, and one byte is read to an address that is mapped or not. -/
def twoWait (ok : Bool) : St Unit where
  pi := ⟨fun i => if i = 0 then 65 else if i = 1 then 66 else 0, 0, 2, true, true⟩
  pc := fun _ => .reading (fun _ => ok) 1
  killed := fun _ => false
  calls := fun _ => 1
  sent := [(none, 65), (none, 66)]
  got := []
  rets := []

theorem holds_twoWait (ok : Bool) : Holds (twoWait ok).pi [65, 66] := by
  refine ⟨Nat.two_pow_pos 32, by decide, rfl, fun i hi => ?_⟩
  obtain rfl | rfl : i = 0 ∨ i = 1 := by
    simp only [length_cons, length_nil] at hi
    omega
  · rfl
  · rfl

theorem piperead_conserves_one : ∃ s' : St Unit, Step (twoWait true) (.read ()) s' ∧ Holds s'.pi [66] := by
  have hs : Step (twoWait true) (.read ()) _ := .readDone (p := ()) rfl (fun h => absurd h.1 (by decide)) rfl
  refine ⟨_, hs, ?_⟩
  rcases piperead_conserves (holds_twoWait true) rfl (fun _ _ _ => rfl) hs with ⟨hr, -⟩ | ⟨r, buf, hr, -, hh, -⟩
  · cases hr
  · obtain ⟨-, -, -, rfl, -⟩ := Ret.read.inj (head_eq_of_cons_eq (append_cancel_left hr))
    exact hh

/-- A read to an unmapped address returns 0 and takes a byte away: the next read gets `B`. -/
theorem piperead_loses : ∃ s' : St Unit, Holds (twoWait false).pi [65, 66] ∧ Step (twoWait false) (.read ()) s' ∧
    s'.rets = (twoWait false).rets ++ [.read ((), 1) (fun _ => false) 1 0 []] ∧ Holds s'.pi [66] ∧ s'.pi.next = 66 := by
  have hs : Step (twoWait false) (.read ()) _ := .readDone (p := ()) rfl (fun h => absurd h.1 (by decide)) rfl
  obtain ⟨l', hl, hh⟩ := Holds.drop (holds_twoWait false) (by decide)
  obtain ⟨-, rfl⟩ := List.cons.inj hl
  exact ⟨_, holds_twoWait false, hs, rfl, hh, rfl⟩

end Xv6.Pipe
