import Mathlib.Init
import Mathlib.Logic.Function.Basic
/-!
# Ring buffers with wrapping counters

A buffer of `N` slots is indexed by two counters that run modulo `M` and are
never reset; `N` divides `M`, so the slots come in order across a wrap.
`Holds N M data r w l`: from the read counter `r` to the write counter `w` the
buffer holds the items `l`, oldest first.
-/

open List

namespace Xv6.Ring

variable {α : Type}

structure Holds (N M : Nat) (data : Nat → α) (r w : Nat) (l : List α) : Prop where
  lt : r < M
  fits : l.length ≤ N
  write : w = (r + l.length) % M
  items : ∀ i (h : i < l.length), data ((r + i) % N) = l[i]

section Ring
variable {N M r w : Nat} {data : Nat → α} {l : List α}

theorem slot_ne {i n : Nat} (hi : i < n) (hn : n < N) : (r + i) % N ≠ (r + n) % N := by
  intro he
  have hd : N ∣ r + n - (r + i) := Nat.dvd_of_mod_eq_zero (Nat.sub_mod_eq_zero_of_mod_eq he.symm)
  have h0 : r + n - (r + i) = 0 := Nat.eq_zero_of_dvd_of_lt hd (by omega)
  omega

theorem slot_wrap (hd : N ∣ M) (i : Nat) : (r % M + i) % N = (r + i) % N := by
  rw [Nat.add_mod, Nat.mod_mod_of_dvd r hd, ← Nat.add_mod]

theorem count_inj {a b : Nat} (hr : r < M) (ha : a < M) (hb : b < M) (h : (r + a) % M = (r + b) % M) : a = b := by
  rcases Nat.lt_or_ge (r + a) M with h1 | h1 <;> rcases Nat.lt_or_ge (r + b) M with h2 | h2
  · rw [Nat.mod_eq_of_lt h1, Nat.mod_eq_of_lt h2] at h
    omega
  · rw [Nat.mod_eq_of_lt h1, Nat.mod_eq_sub_mod h2, Nat.mod_eq_of_lt (by omega)] at h
    omega
  · rw [Nat.mod_eq_sub_mod h1, Nat.mod_eq_of_lt h2, Nat.mod_eq_of_lt (by omega)] at h
    omega
  · rw [Nat.mod_eq_sub_mod h1, Nat.mod_eq_sub_mod h2, Nat.mod_eq_of_lt (by omega), Nat.mod_eq_of_lt (by omega)] at h
    omega

theorem Holds.full_iff (h : Holds N M data r w l) (hNM : N < M) : w = (r + N) % M ↔ l.length = N := by
  rw [h.write]
  constructor
  · exact fun e => count_inj h.lt (Nat.lt_of_le_of_lt h.fits hNM) hNM e
  · intro e
    rw [e]

theorem Holds.empty_iff (h : Holds N M data r w l) (hNM : N < M) : r = w ↔ l = [] := by
  rw [h.write, ← length_eq_zero_iff]
  constructor
  · intro e
    refine count_inj h.lt (Nat.lt_of_le_of_lt h.fits hNM) (Nat.zero_lt_of_lt hNM) ?_
    rw [← e, Nat.add_zero, Nat.mod_eq_of_lt h.lt]
  · intro e
    rw [e, Nat.add_zero, Nat.mod_eq_of_lt h.lt]

theorem Holds.push (h : Holds N M data r w l) (hd : N ∣ M) (hlt : l.length < N) (x : α) :
    Holds N M (Function.update data (w % N) x) r ((w + 1) % M) (l ++ [x]) where
  lt := h.lt
  fits := by
    rw [length_append]
    exact hlt
  write := by rw [h.write, length_append, Nat.mod_add_mod, Nat.add_assoc, length_singleton]
  items i hi := by
    have hslot : w % N = (r + l.length) % N := by rw [h.write, Nat.mod_mod_of_dvd _ hd]
    rw [length_append, length_singleton] at hi
    rcases Nat.lt_or_ge i l.length with hil | hil
    · rw [hslot, Function.update_of_ne (slot_ne hil hlt), h.items i hil, getElem_append_left hil]
    · have he : i = l.length := by omega
      subst he
      rw [hslot, Function.update_self]
      simp

theorem Holds.pop {x : α} (h : Holds N M data r w (x :: l)) (hd : N ∣ M) :
    data (r % N) = x ∧ Holds N M data ((r + 1) % M) w l := by
  refine ⟨h.items 0 (by simp), Nat.mod_lt _ (Nat.zero_lt_of_lt h.lt), ?_, ?_, fun i hi => ?_⟩
  · exact Nat.le_of_succ_le h.fits
  · rw [h.write, Nat.mod_add_mod, length_cons]
    congr 1
    omega
  · rw [slot_wrap hd, Nat.add_assoc, Nat.add_comm 1 i]
    exact h.items (i + 1) (by simpa using hi)

theorem Holds.unpush {x : α} (h : Holds N M data r w (l ++ [x])) (hd : N ∣ M) :
    data ((w + M - 1) % M % N) = x ∧ Holds N M data r ((w + M - 1) % M) l := by
  have hM : 0 < M := Nat.zero_lt_of_lt h.lt
  have hfits := h.fits
  rw [length_append, length_singleton] at hfits
  have hw : (w + M - 1) % M = (r + l.length) % M := by
    have hlast : (r + l.length + 1) % M + M - 1 = (r + l.length + 1) % M + (M - 1) := by omega
    rw [h.write, length_append, length_singleton, ← Nat.add_assoc, hlast, Nat.mod_add_mod, Nat.add_assoc,
      Nat.add_sub_cancel' hM, Nat.add_mod_right]
  refine ⟨?_, h.lt, by omega, hw, fun i hi => ?_⟩
  · rw [hw, Nat.mod_mod_of_dvd _ hd, h.items l.length (by simp)]
    simp
  · rw [h.items i (by simp; omega), getElem_append_left hi]

end Ring

end Xv6.Ring
