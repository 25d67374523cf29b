import Xv6.Lib.Rough
import Xv6.Primes.Code
/-!
# The sieve prints the primes

The processes and their pipes compute one list, whatever the order of their
steps: `pending` is what they will still print, and a step prints the first
element of it or leaves it alone. At the start it is the list of the primes. A
stage does not test its second number; that this one is never a multiple of the
stage's prime is `Rough.second_not_dvd`.
-/

namespace Xv6.Primes

open Run Rough List

/-! ## What is still to come -/

/-- What a stage with the prime `e` writes for the input `l` from its loop on. -/
def forward (e : Int) : List Int → List Int
  | [] => []
  | x :: l => if x = -1 then [-1] else if x.tmod e = 0 then forward e l else x :: forward e l

theorem length_forward (e : Int) (l : List Int) : (forward e l).length ≤ l.length := by
  induction l with
  | nil => exact Nat.le_refl 0
  | cons x l ih =>
    unfold forward
    split_ifs
    · simp
    · exact Nat.le_succ_of_le ih
    · exact Nat.succ_le_succ ih

/-- What a new stage and those after it print for the input. -/
def sieve : List Int → List Int
  | [] => []
  | [p] => if p = -1 then [] else [p]
  | p :: x :: l => if p = -1 then [] else if x = -1 then [p] else p :: sieve (x :: forward p l)
termination_by l => l.length
decreasing_by
  have := length_forward p l
  simp only [List.length_cons]
  omega

/-- What they print after the first line, `e`. -/
def after (e : Int) : List Int → List Int
  | [] => []
  | x :: l => if x = -1 then [] else sieve (x :: forward e l)

theorem sieve_end (l : List Int) : sieve (-1 :: l) = [] := by
  cases l <;> simp [sieve]

theorem sieve_cons {p : Int} (hp : p ≠ -1) (l : List Int) : sieve (p :: l) = p :: after p l := by
  cases l with
  | nil => simp [sieve, after, hp]
  | cons x l => by_cases hx : x = -1 <;> simp [sieve, after, hp, hx]

def Alone.pending (l : List Int) : Alone → List Int
  | .first => sieve l
  | .print e => e :: after e l
  | .second e => after e l
  | .fork e x => sieve (x :: forward e l)
  | .done => []

/-- What the stage will still write. -/
def Parent.sends (l : List Int) : Parent → List Int
  | .send e x => x :: forward e l
  | .loop e => forward e l
  | .sendEnd => [-1]
  | .close => []
  | .done => []

/-- What the stages will still print if `f` is still written to the first one's pipe. -/
def Chain.pending (f : List Int) : Chain → List Int
  | .last q _ pc => pc.pending (q ++ f)
  | .link q _ pc c => c.pending (pc.sends (q ++ f))

/-! ## The end marks -/

/-- Exactly one -1, at the end. -/
def Ended (l : List Int) : Prop := ∃ k, l = k ++ [-1] ∧ -1 ∉ k

/-- A stage that has not stopped has its -1 still to read, and one that has stopped has read everything. -/
def Input (stopped : Bool) (n : Nat) (l : List Int) : Prop :=
  if stopped then n = 1 ∧ l = [] else n = 0 ∧ Ended l

def Alone.NoEnd : Alone → Prop
  | .fork _ x => x ≠ -1
  | .first | .print _ | .second _ | .done => True

def Parent.NoEnd : Parent → Prop
  | .send _ x => x ≠ -1
  | .loop _ | .sendEnd | .close | .done => True

/-- The invariant of the stages if `f` is still written to the first one's pipe. -/
def Chain.Ok (f : List Int) : Chain → Prop
  | .last q n pc => Input pc.stopped n (q ++ f) ∧ pc.NoEnd
  | .link q n pc c => Input pc.stopped n (q ++ f) ∧ pc.NoEnd ∧ c.Ok (pc.sends (q ++ f))

theorem ended_single : Ended [-1] := ⟨[], rfl, by simp⟩

theorem Ended.ne_nil {l : List Int} (h : Ended l) : l ≠ [] := by
  obtain ⟨k, rfl, -⟩ := h
  simp

theorem Ended.cons {l : List Int} {x : Int} (h : Ended l) (hx : x ≠ -1) : Ended (x :: l) := by
  obtain ⟨k, rfl, hk⟩ := h
  refine ⟨x :: k, rfl, ?_⟩
  simp only [mem_cons, not_or]
  exact ⟨hx.symm, hk⟩

theorem Ended.tail {l : List Int} {x : Int} (h : Ended (x :: l)) : if x = -1 then l = [] else Ended l := by
  obtain ⟨k, hl, hk⟩ := h
  cases k with
  | nil =>
    obtain ⟨rfl, rfl⟩ := List.cons.inj hl
    rfl
  | cons y k =>
    obtain ⟨rfl, rfl⟩ := List.cons.inj hl
    rw [mem_cons, not_or] at hk
    rw [if_neg fun he => hk.1 he.symm]
    exact ⟨k, rfl, hk.2⟩

theorem Ended.forward {l : List Int} (h : Ended l) (e : Int) : Ended (forward e l) := by
  induction l with
  | nil => exact absurd rfl h.ne_nil
  | cons x l ih =>
    unfold Primes.forward
    have ht := h.tail
    split_ifs at ht ⊢ with hx hm
    · exact ended_single
    · exact ih ht
    · exact (ih ht).cons hx

section Chain
variable {f q q' : List Int} {x : Int} {n : Nat} {closed : Prop}

/-- A stage that has not stopped never reads from a pipe without a writer that is empty. -/
theorem Takes.input (h : Takes closed q x q') (hc : closed → f = []) (hi : Input false n (q ++ f)) :
    q ++ f = x :: (q' ++ f) ∧ n = 0 ∧ Ended (x :: (q' ++ f)) := by
  obtain ⟨hn, he⟩ : n = 0 ∧ Ended (q ++ f) := hi
  rcases h with rfl | ⟨hcl, rfl, -⟩
  · exact ⟨rfl, hn, he⟩
  · rw [hc hcl] at he
    exact absurd rfl he.ne_nil

theorem Takes.ends (h : Takes closed q (-1) q') (hc : closed → f = []) (hi : Input false n (q ++ f)) :
    q ++ f = [-1] ∧ Input true (n + 1) (q' ++ f) := by
  obtain ⟨hq, hn, he⟩ := h.input hc hi
  have hnil : q' ++ f = [] := by simpa using he.tail
  rw [hq, hnil, hn]
  exact ⟨rfl, rfl, rfl⟩

theorem Takes.goes (h : Takes closed q x q') (hx : x ≠ -1) (hc : closed → f = []) (hi : Input false n (q ++ f)) :
    q ++ f = x :: (q' ++ f) ∧ Input false n (q' ++ f) := by
  obtain ⟨hq, hn, he⟩ := h.input hc hi
  have ht := he.tail
  rw [if_neg hx] at ht
  exact ⟨hq, hn, ht⟩

theorem ok_push (c : Chain) (x : Int) (f : List Int) : (c.push x).Ok f ↔ c.Ok (x :: f) := by
  cases c <;> simp [Chain.push, Chain.Ok]

theorem pending_push (c : Chain) (x : Int) (f : List Int) : (c.push x).pending f = c.pending (x :: f) := by
  cases c <;> simp [Chain.push, Chain.pending]

/-- A step prints the first of what is still to be printed, or leaves it alone. -/
theorem Chain.Step.keeps {c c' : Chain} {line : Option Int} (h : c.Step closed line c') (hc : closed → f = [])
    (hok : c.Ok f) : c'.Ok f ∧ c.pending f = line.toList ++ c'.pending f := by
  induction h generalizing f with
  | firstEnd ht =>
    obtain ⟨hq, hi⟩ := ht.ends hc hok.1
    refine ⟨⟨hi, trivial⟩, ?_⟩
    rw [Chain.pending, hq]
    exact sieve_end []
  | first ht hx =>
    obtain ⟨hq, hi⟩ := ht.goes hx hc hok.1
    refine ⟨⟨hi, trivial⟩, ?_⟩
    rw [Chain.pending, hq]
    exact sieve_cons hx _
  | print => exact ⟨⟨hok.1, trivial⟩, rfl⟩
  | secondEnd ht =>
    obtain ⟨hq, hi⟩ := ht.ends hc hok.1
    refine ⟨⟨hi, trivial⟩, ?_⟩
    rw [Chain.pending, hq]
    rfl
  | second ht hx =>
    obtain ⟨hq, hi⟩ := ht.goes hx hc hok.1
    refine ⟨⟨hi, hx⟩, ?_⟩
    rw [Chain.pending, hq]
    exact if_neg hx
  | @fork _ q _ e x =>
    obtain ⟨hi, hx⟩ := hok
    have he : Ended (x :: forward e (q ++ f)) := (hi.2.forward e).cons hx
    exact ⟨⟨hi, hx, ⟨rfl, he⟩, trivial⟩, rfl⟩
  | send =>
    obtain ⟨hi, -, hnext⟩ := hok
    exact ⟨⟨hi, trivial, (ok_push ..).2 hnext⟩, (pending_push ..).symm⟩
  | loopEnd ht =>
    obtain ⟨hi, -, hnext⟩ := hok
    obtain ⟨hq, hi⟩ := ht.ends hc hi
    rw [hq] at hnext
    refine ⟨⟨hi, trivial, hnext⟩, ?_⟩
    rw [Chain.pending, hq]
    rfl
  | keep ht hx hm =>
    obtain ⟨hi, -, hnext⟩ := hok
    obtain ⟨hq, hi⟩ := ht.goes hx hc hi
    rw [hq, Parent.sends, forward, if_neg hx, if_neg hm] at hnext
    refine ⟨⟨hi, hx, hnext⟩, ?_⟩
    rw [Chain.pending, hq, Parent.sends, forward, if_neg hx, if_neg hm]
    rfl
  | drop ht hx hm =>
    obtain ⟨hi, -, hnext⟩ := hok
    obtain ⟨hq, hi⟩ := ht.goes hx hc hi
    rw [hq, Parent.sends, forward, if_neg hx, if_pos hm] at hnext
    refine ⟨⟨hi, trivial, hnext⟩, ?_⟩
    rw [Chain.pending, hq, Parent.sends, forward, if_neg hx, if_pos hm]
    rfl
  | sendEnd =>
    obtain ⟨hi, -, hnext⟩ := hok
    exact ⟨⟨hi, trivial, (ok_push ..).2 hnext⟩, (pending_push ..).symm⟩
  | close => exact ⟨hok, rfl⟩
  | next _ ih =>
    obtain ⟨hi, hx, hnext⟩ := hok
    have hdone : ∀ {pc : Parent} {l : List Int}, pc = .done → pc.sends l = [] := by
      rintro _ _ rfl
      rfl
    obtain ⟨hnext', hp⟩ := ih hdone hnext
    exact ⟨⟨hi, hx, hnext'⟩, hp⟩

theorem Chain.Ok.stopsOnce {c : Chain} (h : c.Ok f) : c.StopsOnce := by
  have hends : ∀ {b : Bool} {n : Nat} {l : List Int}, Input b n l → n = if b then 1 else 0 := by
    intro b n l hi
    cases b <;> exact hi.1
  induction c generalizing f with
  | last q n pc => exact hends h.1
  | link q n pc c ih => exact ⟨hends h.1, ih h.2.2⟩

theorem pending_finished {c : Chain} (h : c.Finished) (f : List Int) : c.pending f = [] := by
  induction c generalizing f with
  | last q n pc =>
    obtain rfl : pc = .done := h
    rfl
  | link q n pc c ih => exact ih h.2 _

end Chain

/-! ## The numbers -/

def odds (N i : Nat) : List Nat := (List.range' i (N + 1 - i)).filter fun n => n % 2 = 1

theorem odds_succ {N i : Nat} (h : i ≤ N) :
    odds N i = if i % 2 = 1 then i :: odds N (i + 1) else odds N (i + 1) := by
  unfold odds
  rw [show N + 1 - i = (N + 1 - (i + 1)) + 1 by omega, range'_succ, filter_cons]
  simp only [decide_eq_true_eq]

theorem odds_nil {N i : Nat} (h : N < i) : odds N i = [] := by
  rw [odds, show N + 1 - i = 0 by omega]
  rfl

theorem odds_eq_rough (N : Nat) : odds N 3 = rough N 2 := by
  refine ext_of_pairwise (List.Pairwise.filter _ pairwise_lt_range') (pairwise_rough N 2) fun n => ?_
  rw [odds, mem_filter, mem_range'_1, decide_eq_true_eq, mem_rough]
  have hfac : n.minFac ≤ 2 ↔ n % 2 = 0 ∨ n = 1 := by
    constructor
    · intro hle
      by_cases hn : n = 1
      · exact .inr hn
      · have hp := Nat.minFac_prime hn
        have h2 : n.minFac = 2 := Nat.le_antisymm hle hp.two_le
        exact .inl (Nat.mod_eq_zero_of_dvd ((Nat.minFac_eq_two_iff n).1 h2))
    · rintro (h2 | rfl)
      · exact Nat.minFac_le_of_dvd (Nat.le_refl 2) (Nat.dvd_of_mod_eq_zero h2)
      · simp
  omega

/-- The numbers of the pipe, and the -1 after them. -/
def marked (l : List Nat) : List Int := l.map Int.ofNat ++ [-1]

theorem marked_cons (x : Nat) (l : List Nat) : marked (x :: l) = (x : Int) :: marked l := rfl

theorem forward_marked (q : Nat) (l : List Nat) : forward q (marked l) = marked (l.filter fun n => ¬ q ∣ n) := by
  induction l with
  | nil => rfl
  | cons x l ih =>
    have hx : (x : Int) ≠ -1 := by omega
    have hd : (x : Int).tmod q = 0 ↔ q ∣ x := by
      rw [← Int.natCast_dvd_natCast, Int.dvd_iff_tmod_eq_zero]
    rw [marked_cons, forward, if_neg hx, filter_cons]
    by_cases hq : q ∣ x
    · rw [if_pos (hd.2 hq), ih]
      simp [hq]
    · rw [if_neg fun h => hq (hd.1 h), ih]
      simp [hq, marked_cons]

/-- The stages print the primes of the rough numbers. -/
theorem sieve_rough (N p : Nat) : sieve (marked (rough N p)) = (primesFrom N p).map Int.ofNat := by
  -- by induction on the number of the rough numbers, of which every stage takes one away
  induction hk : (rough N p).length using Nat.strong_induction_on generalizing p with
  | _ k ih =>
    rcases hr : rough N p with _ | ⟨q, _ | ⟨x, l⟩⟩
    · rw [primesFrom_nil hr]
      exact sieve_end []
    · rw [primesFrom_cons hr, primesFrom_nil (rough_tail hr), marked_cons, sieve_cons (by omega)]
      rfl
    · have htail := rough_tail hr
      have hx := second_not_dvd hr
      rw [filter_cons_of_pos (by simpa using hx)] at htail
      have hlen : (rough N q).length < k := by
        have := length_filter_le (fun n => ¬ q ∣ n) l
        rw [← hk, htail, hr]
        simp only [length_cons]
        omega
      have hxe : (x : Int) ≠ -1 := by omega
      rw [primesFrom_cons hr, map_cons, ← ih _ hlen q rfl, htail, marked_cons, marked_cons, marked_cons,
        sieve_cons (by omega), after, if_neg hxe, forward_marked]
      rfl

/-- The primes up to `num`, in increasing order. -/
def primes (num : Int) : List Int := (primesFrom num.toNat 0).map Int.ofNat

theorem primes_eq {num : Int} (h : 2 ≤ num) : primes num = 2 :: sieve (marked (odds num.toNat 3)) := by
  have hcons : primesFrom num.toNat 0 = 2 :: primesFrom num.toNat 2 := by
    refine ext_of_pairwise (pairwise_primesFrom _ _) (pairwise_cons.2 ⟨?_, pairwise_primesFrom _ _⟩) fun n => ?_
    · intro n hn
      exact (mem_primesFrom.1 hn).2.1
    · rw [mem_cons, mem_primesFrom, mem_primesFrom]
      constructor
      · rintro ⟨hn, -, hp⟩
        rcases Nat.eq_or_lt_of_le hp.two_le with he | hlt
        · exact .inl he.symm
        · exact .inr ⟨hn, hlt, hp⟩
      · rintro (rfl | ⟨hn, -, hp⟩)
        · exact ⟨by omega, by decide, Nat.prime_two⟩
        · exact ⟨hn, hp.pos, hp⟩
  rw [primes, hcons, odds_eq_rough, sieve_rough]
  rfl

/-! ## Runs -/

def Gen.sends (num : Int) : Gen → List Int
  | .print => marked (odds num.toNat 3)
  | .loop i => marked (odds num.toNat i.toNat)
  | .send i => i :: marked (odds num.toNat (i.toNat + 1))
  | .sendEnd => [-1]
  | .close => []
  | .done => []

/-- Where `i` is. -/
def Gen.InRange (num : Int) : Gen → Prop
  | .loop i => 3 ≤ i ∧ i ≤ num + 1
  | .send i => 3 ≤ i ∧ i ≤ num
  | .print | .sendEnd | .close | .done => True

structure Inv (num : Int) (s : St) : Prop where
  range : s.gen.InRange num
  ok : s.chain.Ok (s.gen.sends num)
  fresh : s.gen = .print → s = init
  total : s.gen ≠ .print → s.out ++ s.chain.pending (s.gen.sends num) = primes num

section Runs
variable {num : Int} {s s' : St} {line : Option Int}

theorem ended_marked (l : List Nat) : Ended (marked l) := by
  refine ⟨l.map Int.ofNat, rfl, ?_⟩
  simp only [mem_map, not_exists, not_and]
  intro n _ hn
  have : (n : Int) = -1 := hn
  omega

theorem inv_init : Inv num init :=
  ⟨trivial, ⟨⟨rfl, ended_marked _⟩, trivial⟩, fun _ => rfl, fun h => absurd rfl h⟩

theorem inc_eq {i : Int} (h : 3 ≤ i) (hi : i < 2 ^ 31 - 1) : inc i = i + 1 := by
  rw [inc, Int.bmod_eq_of_le] <;> omega

theorem tmod_two {i : Int} (h : 0 ≤ i) : i.tmod 2 = 0 ↔ i.toNat % 2 = 0 := by
  rw [Int.tmod_eq_emod_of_nonneg h]
  omega

theorem step_inv (h2 : 2 ≤ num) (hmax : num < 2 ^ 31 - 1) (h : Inv num s) (hs : Step num s line s') : Inv num s' := by
  obtain ⟨hrange, hok, hfresh, htotal⟩ := h
  cases hs with
  | print =>
    cases hfresh rfl
    refine ⟨⟨by decide, by omega⟩, hok, fun he => (by cases he), fun _ => ?_⟩
    rw [primes_eq h2]
    rfl
  | @odd i c out hle hodd =>
    obtain ⟨h3, -⟩ := hrange
    have hsend : Gen.sends num (.loop i) = Gen.sends num (.send i) := by
      rw [Gen.sends, odds_succ (by omega), if_pos, marked_cons, Int.toNat_of_nonneg (by omega)]
      · rfl
      · rw [Ne, tmod_two (by omega)] at hodd
        omega
    refine ⟨⟨h3, hle⟩, hsend ▸ hok, fun he => (by cases he), fun _ => ?_⟩
    rw [← hsend]
    exact htotal fun he => by cases he
  | @even i c out hle heven =>
    obtain ⟨h3, -⟩ := hrange
    have hinc : inc i = i + 1 := inc_eq h3 (by omega)
    have hsend : Gen.sends num (.loop i) = Gen.sends num (.loop (inc i)) := by
      rw [Gen.sends, odds_succ (by omega), if_neg, hinc, Gen.sends, show (i + 1).toNat = i.toNat + 1 by omega]
      rw [tmod_two (by omega)] at heven
      omega
    refine ⟨?_, hsend ▸ hok, fun he => (by cases he), fun _ => ?_⟩
    · rw [hinc]
      exact ⟨by omega, by omega⟩
    · rw [← hsend]
      exact htotal fun he => by cases he
  | @stop i c out hle =>
    have hsend : Gen.sends num (.loop i) = Gen.sends num .sendEnd := by
      rw [Gen.sends, odds_nil (by omega)]
      rfl
    refine ⟨trivial, hsend ▸ hok, fun he => (by cases he), fun _ => ?_⟩
    rw [← hsend]
    exact htotal fun he => by cases he
  | @send i c out =>
    obtain ⟨h3, hle⟩ := hrange
    have hinc : inc i = i + 1 := inc_eq h3 (by omega)
    have hsend : Gen.sends num (.send i) = i :: Gen.sends num (.loop (inc i)) := by
      rw [Gen.sends, hinc, Gen.sends, show (i + 1).toNat = i.toNat + 1 by omega]
    rw [hsend] at hok htotal
    refine ⟨?_, (ok_push ..).2 hok, fun he => (by cases he), fun _ => ?_⟩
    · rw [hinc]
      exact ⟨by omega, by omega⟩
    · dsimp only
      rw [pending_push]
      exact htotal fun he => by cases he
  | sendEnd =>
    refine ⟨trivial, (ok_push ..).2 hok, fun he => (by cases he), fun _ => ?_⟩
    dsimp only
    rw [pending_push]
    exact htotal fun he => by cases he
  | close => exact ⟨trivial, hok, fun he => (by cases he), fun _ => htotal fun he => by cases he⟩
  | @stage g c out line c' hst =>
    have hclosed : g = .done → g.sends num = [] := by
      rintro rfl
      rfl
    obtain ⟨hok', hpend⟩ := hst.keeps hclosed hok
    have hg : g ≠ .print := by
      -- nothing has been written yet, so the first stage waits
      rintro rfl
      cases hfresh rfl
      cases hst with
      | firstEnd ht => rcases ht with ht | ⟨ht, -⟩ <;> cases ht
      | first ht => rcases ht with ht | ⟨ht, -⟩ <;> cases ht
    refine ⟨hrange, hok', fun he => absurd he hg, fun _ => ?_⟩
    have ht := htotal hg
    dsimp only at ht ⊢
    rw [append_assoc, ← hpend]
    exact ht

theorem reachable_inv (h2 : 2 ≤ num) (hmax : num < 2 ^ 31 - 1) (h : Reachable num s) : Inv num s := by
  refine h.inv (Inv num) ?_ fun _ _ _ hi hs => step_inv h2 hmax hi hs
  rintro _ rfl
  exact inv_init

end Runs

/-- At every moment the lines printed are the first primes up to `num`, and all of them once every process has
finished. Every stage stops when it has read exactly one -1. -/
theorem prints_primes {num : Int} (h2 : 2 ≤ num) (hmax : num < 2 ^ 31 - 1) {s : St} (h : Reachable num s) :
    s.out <+: primes num ∧ (s.Finished → s.out = primes num) ∧ s.chain.StopsOnce := by
  have hi := reachable_inv h2 hmax h
  refine ⟨?_, ?_, hi.ok.stopsOnce⟩
  · by_cases hg : s.gen = .print
    · rw [hi.fresh hg]
      exact nil_prefix
    · rw [← hi.total hg]
      exact prefix_append ..
  · rintro ⟨hg, hc⟩
    have ht := hi.total (by rw [hg]; exact fun he => by cases he)
    rwa [pending_finished hc, append_nil] at ht

/-! ## Pipes of bounded size -/

def Chain.queue : Chain → List Int
  | .last q .. | .link q .. => q

/-- No pipe holds more than `k` values. -/
def Chain.Within (k : Nat) : Chain → Prop
  | .last q .. => q.length ≤ k
  | .link q _ _ c => q.length ≤ k ∧ c.Within k

theorem Chain.Within.push {k : Nat} {c : Chain} (h : c.Within k) (hl : c.queue.length < k) (x : Int) :
    (c.push x).Within k := by
  cases c with
  | last => exact Nat.le_trans (Nat.le_of_eq length_append) hl
  | link => exact ⟨Nat.le_trans (Nat.le_of_eq length_append) hl, h.2⟩

/-- There is something to read for a stage if its pipe is not empty, or nothing more will be written to it. -/
theorem Input.takes {n : Nat} {q f : List Int} (h : Input false n (q ++ f)) (hf : f = [] ∨ q ≠ []) :
    ∃ x q', q = x :: q' := by
  refine exists_cons_of_ne_nil (hf.elim ?_ id)
  rintro rfl
  rw [append_nil] at h
  exact h.2.ne_nil

/-- A write waits only for a stage whose pipe is full, and then one of the stages from there on goes on. -/
theorem Chain.Ok.goes_on {c : Chain} {f : List Int} {k : Nat} (hk : 0 < k) (h : c.Ok f) (hw : c.Within k)
    (hf : f = [] ∧ ¬ c.Finished ∨ c.queue ≠ []) (closed : Prop) : ∃ line c', c.Step closed line c' ∧ c'.Within k := by
  induction c generalizing f closed with
  | last q n pc =>
    have hin := fun hi => Input.takes (n := n) (f := f) hi (hf.imp_left And.left)
    cases pc with
    | first =>
      obtain ⟨x, q', rfl⟩ := hin h.1
      by_cases hx : x = -1
      · exact ⟨_, _, .firstEnd (.inl (hx ▸ rfl)), Nat.le_of_succ_le hw⟩
      · exact ⟨_, _, .first (.inl rfl) hx, Nat.le_of_succ_le hw⟩
    | print e => exact ⟨_, _, .print, hw⟩
    | second e =>
      obtain ⟨x, q', rfl⟩ := hin h.1
      by_cases hx : x = -1
      · exact ⟨_, _, .secondEnd (.inl (hx ▸ rfl)), Nat.le_of_succ_le hw⟩
      · exact ⟨_, _, .second (.inl rfl) hx, Nat.le_of_succ_le hw⟩
    | fork e x => exact ⟨_, _, .fork, hw, Nat.zero_le k⟩
    | done => exact hf.elim (fun hf => absurd rfl hf.2) fun hq => absurd (append_eq_nil_iff.1 h.1.2).1 hq
  | link q n pc c ih =>
    have hin := fun hi => Input.takes (n := n) (f := f) hi (hf.imp_left And.left)
    have hsend : ∀ {pc' x}, (link q n pc c).Step closed none (link q n pc' (c.push x)) →
        ∃ line c', (link q n pc c).Step closed line c' ∧ c'.Within k := fun {_ x} hs => by
      by_cases hl : c.queue.length < k
      · exact ⟨_, _, hs, hw.1, hw.2.push hl x⟩
      · obtain ⟨line, c', hs, hw'⟩ := ih h.2.2 hw.2 (.inr fun h0 => hl (h0 ▸ hk)) _
        exact ⟨line, _, .next hs, hw.1, hw'⟩
    cases pc with
    | send e x => exact hsend .send
    | loop e =>
      obtain ⟨x, q', rfl⟩ := hin h.1
      have hw' := And.intro (Nat.le_of_succ_le hw.1) hw.2
      by_cases hx : x = -1
      · exact ⟨_, _, .loopEnd (.inl (hx ▸ rfl)), hw'⟩
      by_cases hm : x.tmod e = 0
      · exact ⟨_, _, .drop (.inl rfl) hx hm, hw'⟩
      · exact ⟨_, _, .keep (.inl rfl) hx hm, hw'⟩
    | sendEnd => exact hsend .sendEnd
    | close => exact ⟨_, _, .close, hw⟩
    | done =>
      obtain ⟨line, c', hs, hw'⟩ := ih h.2.2 hw.2 (.inl ⟨rfl, fun hc => hf.elim (fun hf => hf.2 ⟨rfl, hc⟩)
        fun hq => hq (append_eq_nil_iff.1 h.1.2).1⟩) _
      exact ⟨line, _, .next hs, hw.1, hw'⟩

/-- A run does not get stuck, whatever number `k` of values a pipe has room for: until all processes have finished, one
of them can go on. -/
theorem can_step {num : Int} (h2 : 2 ≤ num) (hmax : num < 2 ^ 31 - 1) {k : Nat} (hk : 0 < k) {s : St}
    (h : Reachable num s) (hw : s.chain.Within k) (hf : ¬ s.Finished) :
    ∃ line s', Step num s line s' ∧ s'.chain.Within k := by
  have hi := reachable_inv h2 hmax h
  have hstage : s.gen.sends num = [] ∧ ¬ s.chain.Finished ∨ s.chain.queue ≠ [] →
      ∃ line s', Step num s line s' ∧ s'.chain.Within k := fun hq => by
    obtain ⟨line, c', hs, hw'⟩ := hi.ok.goes_on hk hw hq (s.gen = .done)
    exact ⟨line, _, .stage hs, hw'⟩
  obtain ⟨g, c, out⟩ := s
  cases g with
  | print => exact ⟨_, _, .print, hw⟩
  | loop i =>
    by_cases hle : i ≤ num
    · by_cases hm : i.tmod 2 = 0
      · exact ⟨_, _, .even hle hm, hw⟩
      · exact ⟨_, _, .odd hle hm, hw⟩
    · exact ⟨_, _, .stop hle, hw⟩
  | send i =>
    by_cases hl : c.queue.length < k
    · exact ⟨_, _, .send, hw.push hl i⟩
    · exact hstage (.inr fun h0 => hl (h0 ▸ hk))
  | sendEnd =>
    by_cases hl : c.queue.length < k
    · exact ⟨_, _, .sendEnd, hw.push hl _⟩
    · exact hstage (.inr fun h0 => hl (h0 ▸ hk))
  | close => exact ⟨_, _, .close, hw⟩
  | done => exact hstage (.inl ⟨rfl, fun hc => hf ⟨rfl, hc⟩⟩)

theorem can_step_first : ¬ init.Finished ∧ ∃ line s', Step 35 init line s' ∧ s'.chain.Within 128 := by
  have hf : ¬ init.Finished := fun h => by cases h.1
  exact ⟨hf, can_step (by decide) (by decide) (by decide) (.init rfl) (Nat.zero_le 128) hf⟩

end Xv6.Primes
