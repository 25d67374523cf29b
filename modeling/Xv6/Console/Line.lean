import Xv6.Console.Code
/-!
# The line editor

A console is a queue of committed bytes and a list of pending ones. `consoleintr`
does to the buffer and its indices what `Line.input` does to the two lists.
-/

namespace Xv6.Console

open Ring List

structure Line where
  queue : List UInt8
  pending : List UInt8

def Cons.line (s : Cons) : Line := ⟨s.queue, s.pending⟩

def Line.input (l : Line) (c : UInt8) : Line :=
  if c = C 'P' ∨ c = 0 then l
  else if c = C 'U' then { l with pending := [] }
  else if c = C 'H' ∨ c = DELETE then { l with pending := l.pending.dropLast }
  else if l.queue.length + l.pending.length = INPUT_BUF then l
  else
    let c := if c = RETURN then NEWLINE else c
    if c = NEWLINE ∨ c = C 'D' ∨ l.queue.length + l.pending.length + 1 = INPUT_BUF then
      ⟨l.queue ++ l.pending ++ [c], []⟩
    else
      ⟨l.queue, l.pending ++ [c]⟩

/-- The buffer holds the queue `q` and after it the pending bytes `p`. -/
structure Is (s : Cons) (q p : List UInt8) : Prop where
  held : Holds INPUT_BUF (2 ^ 32) s.buf s.r s.e (q ++ p)
  w : s.w = (s.r + q.length) % 2 ^ 32
  clean : NEWLINE ∉ p

theorem slice_length (buf : Nat → UInt8) (i n : Nat) : (slice buf i n).length = n := by
  rw [slice, length_map, length_range]

theorem slice_eq {buf : Nat → UInt8} {i : Nat} {l : List UInt8}
    (h : ∀ k (hk : k < l.length), buf ((i + k) % INPUT_BUF) = l[k]) : slice buf i l.length = l := by
  refine ext_getElem (slice_length _ _ _) fun k h1 h2 => ?_
  simp only [slice, getElem_map, getElem_range]
  exact h k h2

theorem dvd32 : INPUT_BUF ∣ 2 ^ 32 := by decide

theorem slot32 (i k : Nat) : (i % 2 ^ 32 + k) % INPUT_BUF = (i + k) % INPUT_BUF := slot_wrap dvd32 k

theorem sub32_count {i n : Nat} (hi : i < 2 ^ 32) (hn : n < 2 ^ 32) : sub32 ((i + n) % 2 ^ 32) i = n := by
  unfold sub32
  omega

section Is
variable {s : Cons} {q p : List UInt8}

theorem Is.room (h : Is s q p) : q.length + p.length ≤ INPUT_BUF := by
  rw [← length_append]
  exact h.held.fits

theorem Is.counts (h : Is s q p) : sub32 s.w s.r = q.length ∧ sub32 s.e s.r = q.length + p.length ∧
    sub32 s.e s.w = p.length ∧ s.w < 2 ^ 32 ∧ s.e < 2 ^ 32 := by
  have hr := h.held.lt
  have hroom := h.room
  have he := h.held.write
  rw [length_append] at he
  simp only [INPUT_BUF] at hroom
  rw [h.w, he]
  refine ⟨sub32_count hr (by omega), sub32_count hr (by omega), ?_, Nat.mod_lt _ (by decide), Nat.mod_lt _ (by decide)⟩
  unfold sub32
  omega

theorem Is.queue_eq (h : Is s q p) : s.queue = q := by
  rw [Cons.queue, h.counts.1]
  refine slice_eq fun k hk => ?_
  rw [h.held.items k (by rw [length_append]; omega), getElem_append_left hk]

theorem Is.pending_eq (h : Is s q p) : s.pending = p := by
  rw [Cons.pending, h.counts.2.2.1, h.w]
  refine slice_eq fun k hk => ?_
  rw [slot32, Nat.add_assoc, h.held.items (q.length + k) (by rw [length_append]; omega),
    getElem_append_right (Nat.le_add_right _ _)]
  simp only [Nat.add_sub_cancel_left]

theorem Is.line_eq (h : Is s q p) : s.line = ⟨q, p⟩ := by rw [Cons.line, h.queue_eq, h.pending_eq]

theorem Is.valid (h : Is s q p) : Valid s := by
  obtain ⟨h1, h2, -, h4, h5⟩ := h.counts
  refine ⟨h.held.lt, h4, h5, ?_, ?_, ?_⟩
  · rw [h1, h2]
    exact Nat.le_add_right _ _
  · rw [h2]
    exact h.room
  · rw [h.pending_eq]
    exact h.clean

theorem Valid.is (h : Valid s) : Is s s.queue s.pending := by
  have hr := h.r
  have hw := h.w
  have he := h.e
  have ho := h.order
  have hf := h.fits
  have hsum : sub32 s.w s.r + sub32 s.e s.w = sub32 s.e s.r := by
    simp only [sub32, INPUT_BUF] at *
    omega
  have hq : s.queue.length = sub32 s.w s.r := slice_length _ _ _
  have hp : s.pending.length = sub32 s.e s.w := slice_length _ _ _
  have hwr : s.w = (s.r + sub32 s.w s.r) % 2 ^ 32 := by
    simp only [sub32] at *
    omega
  refine ⟨⟨hr, ?_, ?_, fun k hk => ?_⟩, ?_, h.clean⟩
  · rw [length_append, hq, hp, hsum]
    exact hf
  · rw [length_append, hq, hp, hsum]
    simp only [sub32] at *
    omega
  · rw [getElem_append]
    split
    · simp only [Cons.queue, slice, getElem_map, getElem_range]
    · next hge =>
      simp only [Cons.pending, slice, getElem_map, getElem_range]
      rw [hwr, slot32]
      congr 2
      omega
  · rw [hq]
    exact hwr

theorem erase_eq (s : Cons) : erase s = { s with e := sub32 s.e 1, echo := s.echo ++ [8, 32, 8] } := by
  rw [erase, consputc, if_pos rfl]

theorem Is.erase {b : UInt8} (h : Is s q (p ++ [b])) : Is (erase s) q p ∧ s.buf (sub32 s.e 1 % INPUT_BUF) = b := by
  have hh := h.held
  rw [← append_assoc] at hh
  obtain ⟨hb, hh⟩ := hh.unpush dvd32
  have hsub : sub32 s.e 1 = (s.e + 2 ^ 32 - 1) % 2 ^ 32 := by rw [sub32]
  rw [← hsub] at hb hh
  rw [erase_eq]
  exact ⟨⟨hh, h.w, fun hm => h.clean (mem_append_left _ hm)⟩, hb⟩

theorem Is.empty_iff (h : Is s q p) : s.e = s.w ↔ p = [] := by
  have hc := h.counts.2.2.1
  have he := h.counts.2.2.2.2
  rw [← length_eq_zero_iff, ← hc]
  have hw := h.counts.2.2.2.1
  unfold sub32
  omega

theorem Is.killLine (h : Is s q p) : Is (killLine p.length s) q [] := by
  induction hn : p.length generalizing s p with
  | zero =>
    obtain rfl := length_eq_zero_iff.1 hn
    exact h
  | succ n ih =>
    obtain ⟨p', b, rfl⟩ : ∃ p' b, p = p' ++ [b] := by
      cases eq_nil_or_concat p with
      | inl he =>
        rw [he] at hn
        cases hn
      | inr he =>
        obtain ⟨p', b, rfl⟩ := he
        exact ⟨p', b, concat_eq_append ..⟩
    have hne : s.e ≠ s.w := fun he => by simpa using h.empty_iff.1 he
    obtain ⟨he, hb⟩ := h.erase
    have hnl : b ≠ NEWLINE := fun hb' => h.clean (by simp [hb'])
    rw [Console.killLine, if_pos ⟨hne, hb ▸ hnl⟩]
    exact ih he (by simpa using hn)

theorem Is.store (h : Is s q p) (hlt : q.length + p.length < INPUT_BUF) (c : UInt8) :
    if c = NEWLINE ∨ c = C 'D' ∨ q.length + p.length + 1 = INPUT_BUF then
      (store c s).2 = true ∧ Is (store c s).1 (q ++ p ++ [c]) []
    else (store c s).2 = false ∧ Is (store c s).1 q (p ++ [c]) := by
  have hh := h.held.push dvd32 (by rw [length_append]; exact hlt) c
  -- the test for a full buffer, on the indices
  have hfull : (s.e + 1) % 2 ^ 32 = (s.r + INPUT_BUF) % 2 ^ 32 ↔ q.length + p.length + 1 = INPUT_BUF := by
    rw [hh.full_iff (by decide)]
    simp only [length_append, length_singleton]
  have hif : (c = NEWLINE ∨ c = C 'D' ∨ (s.e + 1) % 2 ^ 32 = (s.r + INPUT_BUF) % 2 ^ 32) ↔
      (c = NEWLINE ∨ c = C 'D' ∨ q.length + p.length + 1 = INPUT_BUF) := by rw [hfull]
  unfold Console.store consputc
  dsimp only
  split
  · next hc =>
    rw [if_pos (hif.2 hc)]
    refine ⟨rfl, ⟨?_, ?_, not_mem_nil⟩⟩
    · rw [append_nil]
      exact hh
    · exact hh.write
  · next hc =>
    rw [if_neg fun hc' => hc (hif.1 hc')]
    refine ⟨rfl, ⟨?_, h.w, fun hm => ?_⟩⟩
    · rw [← append_assoc]
      exact hh
    · rcases mem_append.1 hm with hm | hm
      · exact h.clean hm
      · exact hc (.inl (mem_singleton.1 hm).symm)

/-- **The editor.** What a character does to the buffer it does to the two lists; the readers are woken if it commits. -/
theorem Is.consoleintr (h : Is s q p) (c : UInt8) :
    Is (consoleintr c s).1 ((Line.mk q p).input c).queue ((Line.mk q p).input c).pending ∧
      ((Console.consoleintr c s).2 = false → ((Line.mk q p).input c).queue = q) := by
  unfold Console.consoleintr Line.input
  by_cases h1 : c = C 'P'
  · rw [if_pos h1, if_pos (.inl h1)]
    exact ⟨h, fun _ => rfl⟩
  rw [if_neg h1]
  by_cases h2 : c = C 'U'
  · rw [if_pos h2, if_neg (by rw [h2]; decide), if_pos h2, h.counts.2.2.1]
    exact ⟨h.killLine, fun _ => rfl⟩
  rw [if_neg h2]
  by_cases h3 : c = C 'H' ∨ c = DELETE
  · have h0 : ¬ (c = C 'P' ∨ c = 0) := by rcases h3 with rfl | rfl <;> decide
    rw [if_pos h3, if_neg h0, if_neg h2, if_pos h3]
    refine ⟨?_, fun _ => rfl⟩
    cases eq_nil_or_concat p with
    | inl hp =>
      subst hp
      rw [if_neg fun hne => hne (h.empty_iff.2 rfl)]
      exact h
    | inr hp =>
      obtain ⟨p', b, rfl⟩ := hp
      rw [concat_eq_append] at h ⊢
      have hne : s.e ≠ s.w := fun he => by simpa using h.empty_iff.1 he
      dsimp only
      rw [if_pos hne, dropLast_concat]
      exact h.erase.1
  rw [if_neg h3]
  by_cases h0 : c = 0
  · rw [if_neg fun hc => hc.1 h0, if_pos (.inr h0)]
    exact ⟨h, fun _ => rfl⟩
  rw [if_neg (show ¬ (c = C 'P' ∨ c = 0) by simp [h1, h0]), if_neg h2, if_neg h3]
  have hroom := h.room
  by_cases hfull : q.length + p.length = INPUT_BUF
  · rw [if_pos hfull, if_neg fun hc => by rw [h.counts.2.1] at hc; omega]
    exact ⟨h, fun _ => rfl⟩
  · have hlt : q.length + p.length < INPUT_BUF := by omega
    rw [if_neg hfull, if_pos ⟨h0, by rw [h.counts.2.1]; exact hlt⟩]
    dsimp only
    generalize (if c = RETURN then NEWLINE else c) = b
    have hs := h.store hlt b
    by_cases hc : b = NEWLINE ∨ b = C 'D' ∨ q.length + p.length + 1 = INPUT_BUF
    · rw [if_pos hc] at hs ⊢
      exact ⟨hs.2, fun hf => absurd (hs.1.symm.trans hf) (by decide)⟩
    · rw [if_neg hc] at hs ⊢
      exact ⟨hs.2, fun _ => rfl⟩

end Is

theorem line_consoleintr {s : Cons} (h : Valid s) (c : UInt8) :
    Valid (consoleintr c s).1 ∧ (consoleintr c s).1.line = s.line.input c := by
  have hi := (h.is.consoleintr c).1
  exact ⟨hi.valid, hi.line_eq⟩

end Xv6.Console
