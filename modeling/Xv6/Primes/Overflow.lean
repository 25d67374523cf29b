import Mathlib.NumberTheory.LucasLehmer
import Xv6.Primes.Sieve
/-!
# Runs of the sieve

In one kind of run every number goes through all stages before the next one is
written. It shows that the processes can finish, and what happens for the
largest `int`: `i <= num` always holds, `i++` wraps around, and the first odd
number after that passes every test and is printed.
-/

namespace Xv6.Primes

open Run Rough List

/-- Some steps of the stages, and what they print. -/
inductive Chain.Runs (closed : Prop) : Chain → List Int → Chain → Prop
  | refl {c} : Runs closed c [] c
  | step {c line c' out c''} : c.Step closed line c' → Runs closed c' out c'' → Runs closed c (line.toList ++ out) c''

section Runs
variable {closed : Prop} {c c' : Chain} {out : List Int}

theorem Chain.Runs.link {pc : Parent} (h : c.Runs (pc = .done) out c') (q : List Int) (n : Nat) :
    (Chain.link q n pc c).Runs closed out (.link q n pc c') := by
  induction h with
  | refl => exact .refl
  | step hs _ ih => exact .step (.next hs) ih

theorem Reachable.runs {num : Int} {g : Gen} {o : List Int} (h : Reachable num ⟨g, c, o⟩)
    (hr : c.Runs (g = .done) out c') : Reachable num ⟨g, c', o ++ out⟩ := by
  induction hr generalizing o with
  | refl => rwa [append_nil]
  | step hs _ ih =>
    rw [← append_assoc]
    exact ih (.step h (.stage hs))

end Runs

/-- Stages with the primes `e` and `es` that all wait for a number. -/
def quiet (e : Int) : List Int → Chain
  | [] => .last [] 0 (.second e)
  | e' :: es => .link [] 0 (.loop e) (quiet e' es)

/-- `x` passes the tests: the last stage makes none. -/
def passes (x e : Int) : List Int → Bool
  | [] => true
  | e' :: es => x.tmod e ≠ 0 && passes x e' es

theorem passes_iff {x e : Int} {es : List Int} :
    passes x e es = true ↔ ∀ d ∈ (e :: es).dropLast, x.tmod d ≠ 0 := by
  induction es generalizing e with
  | nil => simp [passes]
  | cons e' es ih => simp [passes, ih]

section Quiet
variable {x : Int} {closed : Prop}

theorem runs_push (hx : x ≠ -1) (e : Int) (es : List Int) :
    ((quiet e es).push x).Runs closed (if passes x e es then [x] else [])
      (quiet e (if passes x e es then es ++ [x] else es)) := by
  induction es generalizing e closed with
  | nil =>
    have hnew : (Chain.last [x] 0 .first).Runs (Parent.loop e = .done) [x] (quiet x []) :=
      .step (.first (.inl rfl) hx) (.step .print .refl)
    exact .step (.second (.inl rfl) hx) (.step .fork (.step .send (hnew.link [] 0)))
  | cons e' es ih =>
    by_cases hm : x.tmod e = 0
    · rw [show passes x e (e' :: es) = false by simp [passes, hm]]
      exact .step (.drop (.inl rfl) hx hm) .refl
    · rw [show passes x e (e' :: es) = passes x e' es by simp [passes, hm]]
      cases hp : passes x e' es with
      | true =>
        have hnext : ((quiet e' es).push x).Runs (Parent.loop e = .done) [x] (quiet e' (es ++ [x])) := by
          simpa [hp] using ih e'
        exact .step (.keep (.inl rfl) hx hm) (.step .send (hnext.link [] 0))
      | false =>
        have hnext : ((quiet e' es).push x).Runs (Parent.loop e = .done) [] (quiet e' es) := by
          simpa [hp] using ih e'
        exact .step (.keep (.inl rfl) hx hm) (.step .send (hnext.link [] 0))

theorem runs_end (e : Int) (es : List Int) : ∃ c, c.Finished ∧ ((quiet e es).push (-1)).Runs closed [] c := by
  induction es generalizing e closed with
  | nil => exact ⟨.last [] 1 .done, rfl, .step (.secondEnd (.inl rfl)) .refl⟩
  | cons e' es ih =>
    obtain ⟨c, hc, hr⟩ : ∃ c, c.Finished ∧ ((quiet e' es).push (-1)).Runs (Parent.done = .done) [] c := ih e'
    exact ⟨.link [] 1 .done c, ⟨rfl, hc⟩,
      .step (.loopEnd (.inl rfl)) (.step .sendEnd (.step .close (hr.link [] 1)))⟩

end Quiet

/-! ## The numbers in turn -/

/-- The primes from 5 to `n`. -/
def later (n : Nat) : List Int := (primesFrom n 3).map Int.ofNat

theorem later_succ {n : Nat} (h : 3 ≤ n)
    : later (n + 1) = if (n + 1).Prime then later n ++ [(n + 1 : Int)] else later n := by
  have hlt : 3 < n + 1 := by omega
  unfold later primesFrom
  rw [range_succ (n := n + 1), filter_append, map_append]
  by_cases hp : (n + 1).Prime <;> simp [hp, hlt]

theorem primesFrom_two {n : Nat} (h : 3 ≤ n) : primesFrom n 2 = 3 :: primesFrom n 3 := by
  refine ext_of_pairwise (pairwise_primesFrom _ _) (pairwise_cons.2 ⟨?_, pairwise_primesFrom _ _⟩) fun m => ?_
  · intro m hm
    exact (mem_primesFrom.1 hm).2.1
  · rw [mem_cons, mem_primesFrom, mem_primesFrom]
    constructor
    · rintro ⟨hm, hlt, hp⟩
      rcases Nat.eq_or_lt_of_le hlt with he | hlt
      · exact .inl he.symm
      · exact .inr ⟨hm, hlt, hp⟩
    · rintro (rfl | ⟨hm, hlt, hp⟩)
      · exact ⟨h, by decide, Nat.prime_three⟩
      · exact ⟨hm, by omega, hp⟩

theorem passes_later {n : Nat} (h : 3 ≤ n) (x : Int) :
    passes x 3 (later n) = true ↔ ∀ d ∈ (primesFrom n 2).dropLast, x.tmod d ≠ 0 := by
  have hcons : (3 : Int) :: later n = (primesFrom n 2).map Int.ofNat := by
    rw [primesFrom_two h]
    rfl
  rw [passes_iff, hcons, ← map_dropLast, forall_mem_map]
  rfl

theorem mem_dropLast_iff {l : List Nat} (h : l.Pairwise (· < ·)) {d : Nat} :
    d ∈ l.dropLast ↔ d ∈ l ∧ ∃ r ∈ l, d < r := by
  rcases eq_nil_or_concat l with rfl | ⟨k, m, rfl⟩
  · simp
  rw [concat_eq_append] at *
  rw [dropLast_concat]
  have hlast : ∀ r ∈ k, r < m := fun r hr => (pairwise_append.1 h).2.2 r hr m (by simp)
  constructor
  · intro hd
    exact ⟨by simp [hd], m, by simp, hlast d hd⟩
  · rintro ⟨hd, r, hr, hlt⟩
    rw [mem_append, mem_singleton] at hd hr
    rcases hd with hd | rfl
    · exact hd
    rcases hr with hr | rfl
    · exact absurd (hlast r hr) (by omega)
    · exact absurd hlt (Nat.lt_irrefl _)

theorem tmod_natCast {n d : Nat} : (n : Int).tmod d = 0 ↔ d ∣ n := by
  rw [← Int.natCast_dvd_natCast, Int.dvd_iff_tmod_eq_zero]

theorem passes_odd {n : Nat} (h : 3 ≤ n) (hodd : (n + 1) % 2 = 1) :
    passes (n + 1 : Int) 3 (later n) = true ↔ (n + 1).Prime := by
  rw [passes_later h]
  constructor
  · intro hall
    by_contra hc
    -- the least factor is not the last prime before `n + 1`
    obtain ⟨r, hr, hlt, hrn⟩ := exists_factor (n := n + 1) (by omega) hc
    have hf : (n + 1).minFac.Prime := Nat.minFac_prime (by omega)
    have hf2 : (n + 1).minFac ≠ 2 := by
      rw [Ne, Nat.minFac_eq_two_iff]
      omega
    have h3 : 2 < (n + 1).minFac := lt_of_le_of_ne hf.two_le hf2.symm
    refine hall (n + 1).minFac ((mem_dropLast_iff (pairwise_primesFrom n 2)).2 ⟨?_, r, ?_, hlt⟩) ?_
    · exact mem_primesFrom.2 ⟨by omega, h3, hf⟩
    · exact mem_primesFrom.2 ⟨by omega, by omega, hr⟩
    · exact tmod_natCast.2 (Nat.minFac_dvd (n + 1))
  · intro hp d hd
    obtain ⟨hdn, hd2, hdp⟩ := mem_primesFrom.1 (mem_of_mem_dropLast hd)
    intro hm
    have := (Nat.prime_dvd_prime_iff_eq hdp hp).1 (tmod_natCast.1 hm)
    omega

section Turns
variable {num : Int}

theorem Reachable.turn {i : Int} {es out : List Int} (h : Reachable num ⟨.loop i, quiet 3 es, out⟩) (hle : i ≤ num)
    (hodd : i.tmod 2 ≠ 0) (hi : i ≠ -1) :
    Reachable num ⟨.loop (inc i), quiet 3 (if passes i 3 es then es ++ [i] else es),
      out ++ if passes i 3 es then [i] else []⟩ :=
  Reachable.runs (.step (.step h (.odd hle hodd)) .send) (runs_push hi 3 es)

theorem reachable_turns {n : Nat} (h3 : 3 ≤ n) (hn : (n : Int) ≤ num) (hmax : (n : Int) < 2 ^ 31 - 1) :
    Reachable num ⟨.loop (n + 1), quiet 3 (later n), 2 :: 3 :: later n⟩ := by
  induction n, h3 using Nat.le_induction with
  | base =>
    have hfirst : (Chain.last [3] 0 .first).Runs (Gen.loop 4 = .done) [3] (quiet 3 []) :=
      .step (.first (.inl rfl) (by decide)) (.step .print .refl)
    have hstart : Reachable num ⟨.loop 3, .last [] 0 .first, [2]⟩ := .step (.init rfl) .print
    have hsent : Reachable num ⟨.loop 4, .last [3] 0 .first, [2]⟩ := .step (.step hstart (.odd hn (by decide))) .send
    have hnil : later 3 = [] := by decide
    rw [hnil]
    exact hsent.runs hfirst
  | succ n h3 ih =>
    have hle : ((n : Int) + 1) ≤ num := by simpa using hn
    have hlt : ((n : Int) + 1) < 2 ^ 31 - 1 := by simpa using hmax
    have hi := ih (by omega) (by omega)
    have hinc : inc (n + 1 : Int) = n + 1 + 1 := inc_eq (by omega) hlt
    rw [later_succ h3, Nat.cast_succ, ← hinc]
    have hpar : ((n : Int) + 1).tmod 2 = 0 ↔ (n + 1) % 2 = 0 := by
      rw [tmod_two (by omega)]
      omega
    by_cases heven : (n + 1) % 2 = 0
    · have hnp : ¬ (n + 1).Prime := by
        intro hp
        rcases hp.eq_two_or_odd with h | h <;> omega
      rw [if_neg hnp]
      exact .step hi (.even hle (hpar.2 heven))
    · have hturn := hi.turn hle (fun h => heven (hpar.1 h)) (by omega)
      have hpass := passes_odd h3 (by omega)
      by_cases hp : (n + 1).Prime
      · rw [hpass.2 hp] at hturn
        rw [if_pos hp]
        exact hturn
      · rw [show passes (n + 1 : Int) 3 (later n) = false by rwa [← Bool.not_eq_true, hpass]] at hturn
        rw [if_neg hp]
        simpa using hturn

theorem exists_finished (h3 : 3 ≤ num) (hmax : num < 2 ^ 31 - 1) : ∃ s, Reachable num s ∧ s.Finished := by
  obtain ⟨n, rfl⟩ := Int.eq_ofNat_of_zero_le (show 0 ≤ num by omega)
  have hloop := reachable_turns (n := n) (by omega) (Int.le_refl _) hmax
  obtain ⟨c, hc, hr⟩ : ∃ c, c.Finished ∧ ((quiet 3 (later n)).push (-1)).Runs (Gen.done = .done) [] c :=
    runs_end 3 (later n)
  have hend : Reachable n ⟨.done, (quiet 3 (later n)).push (-1), 2 :: 3 :: later n⟩ :=
    .step (.step (.step hloop (.stop (by omega))) .sendEnd) .close
  exact ⟨_, hend.runs hr, rfl, hc⟩

end Turns

/-- The largest argument that `main` passes on. -/
theorem prints_primes_35 :
    ∃ s, Reachable 35 s ∧ s.Finished ∧ s.out = [2, 3, 5, 7, 11, 13, 17, 19, 23, 29, 31] := by
  obtain ⟨s, hs, hf⟩ : ∃ s, Reachable 35 s ∧ s.Finished := exists_finished (by decide) (by decide)
  refine ⟨s, hs, hf, ?_⟩
  rw [(prints_primes (by decide) (by decide) hs).2.1 hf]
  decide

/-! ## The largest int -/

theorem prime_max : Nat.Prime (2 ^ 31 - 1) := lucas_lehmer_sufficiency 31 (by norm_num) (by norm_num)

theorem passes_wrapped {n : Nat} (hn : n = 2147483647) : passes (-2147483647) 3 (later n) = true := by
  rw [passes_later (by omega)]
  intro d hd hm
  obtain ⟨hmem, r, hr, hlt⟩ := (mem_dropLast_iff (pairwise_primesFrom _ _)).1 hd
  obtain ⟨-, hd2, hdp⟩ := mem_primesFrom.1 hmem
  obtain ⟨hrn, -⟩ := mem_primesFrom.1 hr
  have hdvd : d ∣ 2147483647 := by
    rw [Int.neg_tmod, Int.neg_eq_zero] at hm
    exact tmod_natCast.1 hm
  have := (Nat.prime_dvd_prime_iff_eq hdp prime_max).1 hdvd
  omega

theorem reachable_wrapped {n : Nat} (hn : n + 1 = 2147483647) :
    Reachable (2 ^ 31 - 1) ⟨.loop (-2147483648), quiet 3 (later (n + 1)), 2 :: 3 :: later (n + 1)⟩ := by
  have hp : (n + 1).Prime := hn ▸ prime_max
  have hloop : Reachable (2 ^ 31 - 1) ⟨.loop (n + 1), quiet 3 (later n), 2 :: 3 :: later n⟩ :=
    reachable_turns (by omega) (by omega) (by omega)
  have hodd : ((n : Int) + 1).tmod 2 ≠ 0 := by
    rw [Ne, tmod_two (by omega)]
    omega
  have hturn := hloop.turn (by omega) hodd (by omega)
  have hinc : inc ((n : Int) + 1) = -2147483648 := by
    rw [show (n : Int) + 1 = 2147483647 by omega]
    decide
  rw [(passes_odd (by omega) (by omega)).2 hp, hinc] at hturn
  rw [later_succ (by omega), if_pos hp]
  exact hturn

/-- For the largest `int`, a negative number is printed. -/
theorem prints_negative : ∃ s, Reachable (2 ^ 31 - 1) s ∧ ¬ s.out <+: primes (2 ^ 31 - 1) := by
  obtain ⟨n, hn⟩ : ∃ n, n + 1 = 2147483647 := ⟨2147483646, rfl⟩
  have hodd : Reachable (2 ^ 31 - 1) ⟨.loop (-2147483647), quiet 3 (later (n + 1)), 2 :: 3 :: later (n + 1)⟩ :=
    .step (reachable_wrapped hn) (.even (by decide) (by decide))
  have hturn := hodd.turn (by decide) (by decide) (by decide)
  rw [passes_wrapped hn] at hturn
  refine ⟨_, hturn, fun hpre => ?_⟩
  have hmem : (-2147483647 : Int) ∈ primes (2 ^ 31 - 1) := hpre.subset (by simp)
  rw [primes, mem_map] at hmem
  obtain ⟨m, -, hm⟩ := hmem
  cases hm

end Xv6.Primes
