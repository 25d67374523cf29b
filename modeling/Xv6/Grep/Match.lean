import Mathlib.Computability.Language
/-!
# grep's matcher

`match`, `matchhere` and `matchstar` of `user/grep.c`. A `char *` is the list of the
bytes from it to the end of its object: `*p` is the head, `p + 1` the tail, and a read
through the empty list leaves the object, which ends the run with `none`.

A pattern is read from the left into items; what the items match is a `Language`, and
the matcher decides whether the text has a part in their product.
-/
open Computability List

namespace Xv6.Grep

/-- The loop of `matchstar`, with `here` for `matchhere(re, ·)`. -/
def matchstar (here : List UInt8 → Option Bool) (c : UInt8) : List UInt8 → Option Bool
  | [] => do if ← here [] then return true else none
  | t :: text => do
    if ← here (t :: text) then return true
    else if t ≠ 0 ∧ (t = c ∨ c = '.'.toUInt8) then matchstar here c text
    else return false

def matchhere : List UInt8 → List UInt8 → Option Bool
  | [], _ => none
  | [c], _ => if c = 0 then some true else none
  | c :: d :: re, text =>
    if c = 0 then some true
    else if d = '*'.toUInt8 then matchstar (fun text => matchhere re text) c text
    else if c = '$'.toUInt8 ∧ d = 0 then do return (← text.head?) = 0
    else do
      let t ← text.head?
      if t ≠ 0 ∧ (c = '.'.toUInt8 ∨ c = t) then matchhere (d :: re) text.tail else return false

/-- The `do` loop of `match`. -/
def matchfrom (re : List UInt8) : List UInt8 → Option Bool
  | [] => do if ← matchhere re [] then return true else none
  | t :: text => do
    if ← matchhere re (t :: text) then return true
    else if t ≠ 0 then matchfrom re text
    else return false

def matchRe (re text : List UInt8) : Option Bool := do
  if (← re.head?) = '^'.toUInt8 then matchhere re.tail text else matchfrom re text

/-! ## Patterns -/

/-- `c` or `c*` -/
inductive Item where
  | one (c : UInt8)
  | many (c : UInt8)
  deriving DecidableEq

/-- A pattern, as it is read: `^` in front, the items, `$` at the end. -/
structure Pattern where
  anchored : Bool
  items : List Item
  final : Bool
  deriving DecidableEq

/-- The items of a pattern after its `^`, and whether it ends in an anchor. A `*` makes
an item of the character before it, whatever that is. -/
def readItems : List UInt8 → List Item × Bool
  | [] => ([], false)
  | [c] => if c = '$'.toUInt8 then ([], true) else ([.one c], false)
  | c :: d :: p =>
    if d = '*'.toUInt8 then (.many c :: (readItems p).1, (readItems p).2)
    else (.one c :: (readItems (d :: p)).1, (readItems (d :: p)).2)

def readPattern (p : List UInt8) : Pattern :=
  if p.head? = some '^'.toUInt8 then ⟨true, (readItems p.tail).1, (readItems p.tail).2⟩
  else ⟨false, (readItems p).1, (readItems p).2⟩

/-- `.` stands for any character, every other one for itself. -/
def Hits (c t : UInt8) : Prop := c = '.'.toUInt8 ∨ c = t

instance (c t : UInt8) : Decidable (Hits c t) := inferInstanceAs (Decidable (_ ∨ _))

def single (c : UInt8) : Language UInt8 := {w | ∃ t, Hits c t ∧ w = [t]}

/-- The strings an item matches. -/
def Item.language : Item → Language UInt8
  | .one c => single c
  | .many c => (single c)∗

theorem mem_single_mul {c : UInt8} {M : Language UInt8} {w : List UInt8} :
    w ∈ single c * M ↔ ∃ a t, w = a :: t ∧ Hits c a ∧ t ∈ M := by
  rw [Language.mem_mul]
  constructor
  · rintro ⟨_, ⟨a, ha, rfl⟩, t, ht, rfl⟩
    exact ⟨a, t, rfl, ha, ht⟩
  · rintro ⟨a, t, rfl, ha, ht⟩
    exact ⟨[a], ⟨a, ha, rfl⟩, t, ht, rfl⟩

theorem cons_mem_single_mul {c a : UInt8} {M : Language UInt8} {t : List UInt8} :
    a :: t ∈ single c * M ↔ Hits c a ∧ t ∈ M := by
  rw [mem_single_mul]
  constructor
  · rintro ⟨_, _, ⟨rfl, rfl⟩, h⟩
    exact h
  · rintro h
    exact ⟨a, t, rfl, h⟩

theorem kstar_mul (c : UInt8) (M : Language UInt8) :
    (single c)∗ * M = M + single c * ((single c)∗ * M) := by
  conv_lhs => rw [← Language.one_add_self_mul_kstar_eq_kstar]
  rw [add_mul, one_mul, mul_assoc]

theorem top_mul_cons {a : UInt8} {M : Language UInt8} {t : List UInt8} :
    a :: t ∈ (⊤ : Language UInt8) * M ↔ a :: t ∈ M ∨ t ∈ (⊤ : Language UInt8) * M := by
  simp only [Language.mem_mul]
  constructor
  · rintro ⟨pre, hpre, post, hpost, h⟩
    cases pre with
    | nil => exact .inl (h ▸ hpost)
    | cons b pre =>
      obtain ⟨rfl, rfl⟩ := List.cons.inj h
      exact .inr ⟨pre, trivial, post, hpost, rfl⟩
  · rintro (h | ⟨pre, _, post, hpost, rfl⟩)
    · exact ⟨[], trivial, _, h, rfl⟩
    · exact ⟨a :: pre, trivial, post, hpost, rfl⟩

theorem top_mul_nil {M : Language UInt8} : [] ∈ (⊤ : Language UInt8) * M ↔ [] ∈ M := by
  simp only [Language.mem_mul, append_eq_nil_iff]
  constructor
  · rintro ⟨_, _, _, h, rfl, rfl⟩
    exact h
  · intro h
    exact ⟨[], trivial, [], h, rfl, rfl⟩

/-! ## The matcher decides -/

/-- The run ends, inside its objects, and its answer is whether `P` holds. -/
def Decides (r : Option Bool) (P : Prop) : Prop := ∃ b, r = some b ∧ (b = true ↔ P)

section Decides
variable {r r' : Option Bool} {P Q : Prop}

theorem Decides.congr (h : Decides r P) (hPQ : P ↔ Q) : Decides r Q := by
  obtain ⟨b, hb, hP⟩ := h
  exact ⟨b, hb, hP.trans hPQ⟩

theorem decides_true (h : P) : Decides (some true) P := ⟨true, rfl, by simp [h]⟩

theorem decides_false (h : ¬P) : Decides (some false) P := ⟨false, rfl, by simp [h]⟩

theorem Decides.orElse (h : Decides r P) (h' : ¬P → Decides r' Q) (hQ : P → Q) :
    Decides (do if ← r then return true else r') Q := by
  obtain ⟨b, rfl, hP⟩ := h
  cases b with
  | true => exact decides_true (hQ (hP.mp rfl))
  | false => exact h' (fun hp => by simpa using hP.mpr hp)

end Decides

section Text
variable {v : List UInt8}

theorem matchstar_spec {here : List UInt8 → Option Bool} {L : Language UInt8} {c : UInt8}
    (hhere : ∀ t : List UInt8, 0 ∉ t → Decides (here (t ++ 0 :: v)) (t ∈ L)) (t : List UInt8) (ht : 0 ∉ t) :
    Decides (matchstar here c (t ++ 0 :: v)) (t ∈ (single c)∗ * L) := by
  rw [kstar_mul]
  induction t with
  | nil =>
    refine (hhere [] ht).orElse (fun h => ?_) .inl
    refine decides_false fun hmem => ?_
    rcases hmem with hmem | hmem
    · exact h hmem
    · obtain ⟨a, t, hnil, _⟩ := mem_single_mul.mp hmem
      exact cons_ne_nil _ _ hnil.symm
  | cons a t ih =>
    have ha : a ≠ 0 := fun h => ht (h ▸ mem_cons_self)
    rw [← kstar_mul] at ih
    refine (hhere (a :: t) ht).orElse (fun h => ?_) .inl
    by_cases hc : Hits c a
    · rw [if_pos ⟨ha, hc.symm.imp Eq.symm id⟩]
      refine (ih fun h => ht (mem_cons_of_mem _ h)).congr ?_
      rw [Language.mem_add, cons_mem_single_mul]
      simp [h, hc]
    · rw [if_neg fun hand => hc (hand.2.symm.imp id Eq.symm)]
      refine decides_false ?_
      rw [Language.mem_add, cons_mem_single_mul]
      simp [h, hc]

/-- The texts that start with what the items match, and end there if there is an anchor. -/
def here (r : List Item × Bool) : Language UInt8 := (r.1.map Item.language).prod * (if r.2 then 1 else ⊤)

theorem here_cons (i : Item) (l : List Item) (e : Bool) : here (i :: l, e) = i.language * here (l, e) := by
  simp [here, mul_assoc]

theorem here_nil : here ([], false) = ⊤ := by simp [here]

theorem matchhere_nul (u text : List UInt8) : matchhere (0 :: u) text = some true := by
  cases u <;> simp [matchhere]

/-- An ordinary character takes one character of the text, and the rest is matched after it. -/
theorem matchhere_char {c d : UInt8} {re : List UInt8} {L : Language UInt8} (hc : c ≠ 0) (hd : d ≠ '*'.toUInt8)
    (hend : ¬(c = '$'.toUInt8 ∧ d = 0))
    (hrest : ∀ t : List UInt8, 0 ∉ t → Decides (matchhere (d :: re) (t ++ 0 :: v)) (t ∈ L))
    (t : List UInt8) (ht : 0 ∉ t) :
    Decides (matchhere (c :: d :: re) (t ++ 0 :: v)) (t ∈ single c * L) := by
  rw [matchhere, if_neg hc, if_neg hd, if_neg hend]
  cases t with
  | nil =>
    refine decides_false fun hmem => ?_
    obtain ⟨a, t, hnil, _⟩ := mem_single_mul.mp hmem
    exact cons_ne_nil _ _ hnil.symm
  | cons a t =>
    have ha : a ≠ 0 := fun h => ht (h ▸ mem_cons_self)
    show Decides (if a ≠ 0 ∧ Hits c a then matchhere (d :: re) (t ++ 0 :: v) else some false) _
    by_cases hit : Hits c a
    · rw [if_pos ⟨ha, hit⟩]
      refine (hrest t fun h => ht (mem_cons_of_mem _ h)).congr ?_
      rw [cons_mem_single_mul]
      simp [hit]
    · rw [if_neg fun h => hit h.2]
      refine decides_false ?_
      rw [cons_mem_single_mul]
      simp [hit]

theorem matchhere_spec {u : List UInt8} (p : List UInt8) (hp : 0 ∉ p) (t : List UInt8) (ht : 0 ∉ t) :
    Decides (matchhere (p ++ 0 :: u) (t ++ 0 :: v)) (t ∈ here (readItems p)) := by
  -- the cases are those of the reading, which tests for '*' and '$' in the order of the code
  fun_induction readItems p generalizing t with
  | case1 =>
    rw [nil_append, matchhere_nul, here_nil]
    exact decides_true trivial
  | case2 =>
    show Decides (do return (← (t ++ 0 :: v).head?) = 0) _
    cases t with
    | nil => exact decides_true (by simp [here, Language.mem_one])
    | cons a t =>
      have ha : a ≠ 0 := fun h => ht (h ▸ mem_cons_self)
      exact ⟨decide (a = 0), rfl, by simp [here, ha, Language.mem_one]⟩
  | case3 c hc =>
    have hc0 : c ≠ 0 := fun h => hp (h ▸ mem_cons_self)
    rw [here_cons, here_nil]
    refine matchhere_char hc0 (by decide) (fun h => hc h.1) (fun t ht => ?_) t ht
    rw [matchhere_nul]
    exact decides_true trivial
  | case4 c p ih =>
    have hc0 : c ≠ 0 := fun h => hp (h ▸ mem_cons_self)
    rw [here_cons, cons_append, cons_append, matchhere, if_neg hc0, if_pos rfl]
    refine matchstar_spec (fun t ht => ?_) t ht
    exact ih (fun h => hp (mem_cons_of_mem _ (mem_cons_of_mem _ h))) t ht
  | case5 c d p hd ih =>
    have hc0 : c ≠ 0 := fun h => hp (h ▸ mem_cons_self)
    have hd0 : d ≠ 0 := fun h => hp (h ▸ mem_cons_of_mem _ mem_cons_self)
    rw [here_cons]
    refine matchhere_char hc0 hd (fun h => hd0 h.2) (fun t ht => ?_) t ht
    exact ih (fun h => hp (mem_cons_of_mem _ h)) t ht

theorem matchfrom_spec {u : List UInt8} (p : List UInt8) (hp : 0 ∉ p) (t : List UInt8) (ht : 0 ∉ t) :
    Decides (matchfrom (p ++ 0 :: u) (t ++ 0 :: v)) (t ∈ ⊤ * here (readItems p)) := by
  induction t with
  | nil =>
    refine (matchhere_spec p hp [] ht).orElse (fun h => ?_) top_mul_nil.mpr
    exact decides_false fun hmem => h (top_mul_nil.mp hmem)
  | cons a t ih =>
    have ha : a ≠ 0 := fun h => ht (h ▸ mem_cons_self)
    refine (matchhere_spec p hp (a :: t) ht).orElse (fun h => ?_) fun h => top_mul_cons.mpr (.inl h)
    rw [if_pos ha]
    refine (ih fun h => ht (mem_cons_of_mem _ h)).congr ?_
    rw [top_mul_cons]
    simp [h]

/-- A part of the text that the items match, at its start or at its end where the
pattern is anchored. -/
def Pattern.Matches (P : Pattern) (t : List UInt8) : Prop :=
  ∃ pre mid post, t = pre ++ mid ++ post ∧ (P.anchored = true → pre = []) ∧ (P.final = true → post = []) ∧
    mid ∈ (P.items.map Item.language).prod

theorem mem_ends {e : Bool} {w : List UInt8} : w ∈ (if e then 1 else ⊤ : Language UInt8) ↔ (e = true → w = []) := by
  cases e with
  | true => simp [Language.mem_one]
  | false => simp; trivial

theorem Pattern.matches_iff (P : Pattern) (t : List UInt8) :
    P.Matches t ↔ t ∈ (if P.anchored then 1 else ⊤ : Language UInt8) * here (P.items, P.final) := by
  simp only [here, Language.mem_mul, mem_ends]
  constructor
  · rintro ⟨pre, mid, post, rfl, hpre, hpost, hmid⟩
    exact ⟨pre, hpre, mid ++ post, ⟨mid, hmid, post, hpost, rfl⟩, (append_assoc ..).symm⟩
  · rintro ⟨pre, hpre, _, ⟨mid, hmid, post, hpost, rfl⟩, rfl⟩
    exact ⟨pre, mid, post, (append_assoc ..).symm, hpre, hpost, hmid⟩

theorem matchRe_spec {u : List UInt8} (p : List UInt8) (hp : 0 ∉ p) (t : List UInt8) (ht : 0 ∉ t) :
    Decides (matchRe (p ++ 0 :: u) (t ++ 0 :: v)) ((readPattern p).Matches t) := by
  by_cases hcaret : p.head? = some '^'.toUInt8
  · obtain ⟨q, rfl⟩ := head?_eq_some_iff.mp hcaret
    refine (matchhere_spec q (fun h => hp (mem_cons_of_mem _ h)) t ht).congr ?_
    rw [Pattern.matches_iff, readPattern, if_pos hcaret]
    simp
  · have hhead : matchRe (p ++ 0 :: u) (t ++ 0 :: v) = matchfrom (p ++ 0 :: u) (t ++ 0 :: v) := by
      cases p with
      | nil => rfl
      | cons c p =>
        show (if c = '^'.toUInt8 then _ else _) = _
        rw [if_neg fun h => hcaret (by rw [h]; rfl)]
    rw [hhead]
    refine (matchfrom_spec p hp t ht).congr ?_
    rw [Pattern.matches_iff, readPattern, if_neg hcaret]
    simp

end Text

/-- The matcher ends on every pattern and every text, without leaving either, and says
whether the pattern matches. -/
theorem matchRe_decides (p u t v : List UInt8) (hp : 0 ∉ p) (ht : 0 ∉ t) :
    ∃ b, matchRe (p ++ 0 :: u) (t ++ 0 :: v) = some b ∧ (b = true ↔ (readPattern p).Matches t) :=
  matchRe_spec p hp t ht

/-- The pattern `$*b` on the text `ab`: the `$` is starred and anchors nothing. -/
theorem matchRe_decides_dollar_star :
    ∃ b, matchRe ['$'.toUInt8, '*'.toUInt8, 'b'.toUInt8, 0] ['a'.toUInt8, 'b'.toUInt8, 0] = some b ∧
      (b = true ↔ (readPattern ['$'.toUInt8, '*'.toUInt8, 'b'.toUInt8]).Matches ['a'.toUInt8, 'b'.toUInt8]) :=
  matchRe_decides ['$'.toUInt8, '*'.toUInt8, 'b'.toUInt8] [] ['a'.toUInt8, 'b'.toUInt8] [] (by decide) (by decide)

example : readPattern ['$'.toUInt8, '*'.toUInt8, 'b'.toUInt8] =
    ⟨false, [.many '$'.toUInt8, .one 'b'.toUInt8], false⟩ := by decide

example : matchRe ['$'.toUInt8, '*'.toUInt8, 'b'.toUInt8, 0] ['a'.toUInt8, 'b'.toUInt8, 0] = some true := by decide

end Xv6.Grep
