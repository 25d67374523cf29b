import Mathlib.Data.List.Range
import Mathlib.NumberTheory.Bertrand
/-!
# Numbers without small factors

`rough N p` are the numbers up to `N` with no prime factor up to `p`, in order.
The first is the next prime after `p`, and the second is not a multiple of it:
there is a prime between a number and its double.
-/

open List

namespace Xv6.Rough

def rough (N p : Nat) : List Nat := (List.range (N + 1)).filter fun n => 1 < n ∧ p < n.minFac

/-- The primes from `p + 1` to `N`, in order. -/
def primesFrom (N p : Nat) : List Nat := (List.range (N + 1)).filter fun n => p < n ∧ n.Prime

variable {N p q n : Nat}

@[simp] theorem mem_rough : n ∈ rough N p ↔ n ≤ N ∧ 1 < n ∧ p < n.minFac := by
  simp [rough]

@[simp] theorem mem_primesFrom : n ∈ primesFrom N p ↔ n ≤ N ∧ p < n ∧ n.Prime := by
  simp [primesFrom]

theorem pairwise_rough (N p : Nat) : (rough N p).Pairwise (· < ·) := pairwise_lt_range.filter _

theorem pairwise_primesFrom (N p : Nat) : (primesFrom N p).Pairwise (· < ·) := pairwise_lt_range.filter _

theorem ext_of_pairwise {l l' : List Nat} (h : l.Pairwise (· < ·)) (h' : l'.Pairwise (· < ·))
    (hm : ∀ n, n ∈ l ↔ n ∈ l') : l = l' := by
  have hp : l.Perm l' := (perm_ext_iff_of_nodup (h.imp Nat.ne_of_lt) (h'.imp Nat.ne_of_lt)).2 hm
  exact hp.eq_of_pairwise (fun _ _ _ _ hab hba => absurd hab (Nat.lt_asymm hba)) h h'

theorem prime_mem_rough (hn : n ≤ N) (hp : n.Prime) (hlt : p < n) : n ∈ rough N p := by
  rw [mem_rough, hp.minFac_eq]
  exact ⟨hn, hp.one_lt, hlt⟩

theorem head_prime {l : List Nat} (h : rough N p = q :: l) : q.Prime ∧ p < q := by
  obtain ⟨hq, hone, hlt⟩ := mem_rough.1 (h ▸ mem_cons_self : q ∈ rough N p)
  have hf : q.minFac.Prime := Nat.minFac_prime (by omega)
  have hle : q.minFac ≤ q := Nat.minFac_le (by omega)
  have hmem : q.minFac ∈ rough N p := prime_mem_rough (hle.trans hq) hf hlt
  have hord := pairwise_rough N p
  rw [h] at hmem hord
  rcases mem_cons.1 hmem with he | hm
  · exact ⟨he ▸ hf, by omega⟩
  · exact absurd (rel_of_pairwise_cons hord hm) (by omega)

theorem no_prime_between {l : List Nat} (h : rough N p = q :: l) (hn : n ≤ N) (hp : n.Prime) (hlt : p < n) : q ≤ n := by
  have hmem := prime_mem_rough hn hp hlt
  have hord := pairwise_rough N p
  rw [h] at hmem hord
  rcases mem_cons.1 hmem with rfl | hm
  · exact Nat.le_refl _
  · exact Nat.le_of_lt (rel_of_pairwise_cons hord hm)

theorem primesFrom_cons {l : List Nat} (h : rough N p = q :: l) : primesFrom N p = q :: primesFrom N q := by
  obtain ⟨hq, hpq⟩ := head_prime h
  obtain ⟨hqN, -⟩ := mem_rough.1 (h ▸ mem_cons_self : q ∈ rough N p)
  refine ext_of_pairwise (pairwise_primesFrom N p) (pairwise_cons.2 ⟨?_, pairwise_primesFrom N q⟩) fun n => ?_
  · intro n hn
    exact (mem_primesFrom.1 hn).2.1
  · rw [mem_cons, mem_primesFrom, mem_primesFrom]
    constructor
    · rintro ⟨hn, hlt, hp⟩
      rcases Nat.eq_or_lt_of_le (no_prime_between h hn hp hlt) with he | hgt
      · exact .inl he.symm
      · exact .inr ⟨hn, hgt, hp⟩
    · rintro (rfl | ⟨hn, hlt, hp⟩)
      · exact ⟨hqN, hpq, hq⟩
      · exact ⟨hn, hpq.trans hlt, hp⟩

theorem primesFrom_nil (h : rough N p = []) : primesFrom N p = [] := by
  rw [eq_nil_iff_forall_not_mem]
  intro n hn
  obtain ⟨hnN, hlt, hp⟩ := mem_primesFrom.1 hn
  have hmem := prime_mem_rough hnN hp hlt
  rw [h] at hmem
  cases hmem

theorem rough_tail {l : List Nat} (h : rough N p = q :: l) : rough N q = l.filter fun n => ¬ q ∣ n := by
  obtain ⟨hq, hpq⟩ := head_prime h
  have hord := pairwise_rough N p
  rw [h, pairwise_cons] at hord
  refine ext_of_pairwise (pairwise_rough N q) (hord.2.filter _) fun n => ?_
  have hmem : n ∈ rough N p ↔ n = q ∨ n ∈ l := by rw [h, mem_cons]
  rw [mem_rough] at hmem
  rw [mem_rough, mem_filter, decide_eq_true_eq]
  constructor
  · rintro ⟨hn, hone, hlt⟩
    have hnd : ¬ q ∣ n := fun hd => absurd (Nat.minFac_le_of_dvd hq.two_le hd) (by omega)
    rcases hmem.1 ⟨hn, hone, hpq.trans hlt⟩ with rfl | hl
    · exact absurd (Nat.dvd_refl _) hnd
    · exact ⟨hl, hnd⟩
  · rintro ⟨hl, hnd⟩
    obtain ⟨hn, hone, hlt⟩ := hmem.2 (.inr hl)
    refine ⟨hn, hone, ?_⟩
    -- the least factor of `n` is a prime after `p`, and not `q`
    have hf : n.minFac.Prime := Nat.minFac_prime (by omega)
    have hle : q ≤ n.minFac := no_prime_between h ((Nat.minFac_le (by omega)).trans hn) hf hlt
    exact lt_of_le_of_ne hle fun he => hnd (he ▸ Nat.minFac_dvd n)

theorem second_not_dvd {x : Nat} {l : List Nat} (h : rough N p = q :: x :: l) : ¬ q ∣ x := by
  rintro ⟨m, rfl⟩
  obtain ⟨hq, hpq⟩ := head_prime h
  have hord := pairwise_rough N p
  rw [h] at hord
  obtain ⟨hfirst, hord⟩ := pairwise_cons.1 hord
  obtain ⟨hxN, -⟩ := mem_rough.1 (by rw [h]; simp : q * m ∈ rough N p)
  have hm : 2 ≤ m := by
    have hlt := hfirst (q * m) mem_cons_self
    by_contra hm
    have : q * m ≤ q * 1 := Nat.mul_le_mul_left q (by omega)
    omega
  obtain ⟨r, hr, hqr, hr2⟩ := Nat.exists_prime_lt_and_le_two_mul q hq.ne_zero
  have hrx : r ≤ q * m := hr2.trans (by rw [Nat.mul_comm]; exact Nat.mul_le_mul_left q hm)
  have hmem := prime_mem_rough (hrx.trans hxN) hr (hpq.trans hqr)
  rw [h] at hmem
  rcases mem_cons.1 hmem with he | hmem
  · omega
  rcases mem_cons.1 hmem with he | hmem
  · -- a prime is no proper multiple of `q`
    rcases (Nat.dvd_prime hr).1 (he ▸ Nat.dvd_mul_right q m) with h1 | hrq
    · exact absurd h1 hq.one_lt.ne'
    · omega
  · exact absurd (rel_of_pairwise_cons hord hmem) (by omega)

/-- A composite number has a prime factor that is not the last prime before it. -/
theorem exists_factor (hn : 1 < n) (hc : ¬ n.Prime) : ∃ r, r.Prime ∧ n.minFac < r ∧ r < n := by
  have hf : n.minFac.Prime := Nat.minFac_prime (by omega)
  obtain ⟨r, hr, hlt, hr2⟩ := Nat.exists_prime_lt_and_le_two_mul n.minFac hf.ne_zero
  have hsq : n.minFac ^ 2 ≤ n := Nat.minFac_sq_le_self (by omega) hc
  have h2 : 2 * n.minFac ≤ n.minFac ^ 2 := by
    rw [pow_two]
    exact Nat.mul_le_mul_right _ hf.two_le
  refine ⟨r, hr, hlt, lt_of_le_of_ne (hr2.trans (h2.trans hsq)) ?_⟩
  rintro rfl
  exact hc hr

end Xv6.Rough
