import Mathlib.Init
/-!
# Pre- and postconditions of programs that may stop

A `Prog` reads and writes a state and may stop with an error; the state it
stops in is kept. `wp m Q E s` says that `m`, started in `s`, returns a value
and a state with `Q`, or stops with an error and a state with `E`. The rules
below take a program apart, and `wp.mono` puts a callee's postcondition to use.
-/

namespace Xv6.Hoare

variable {σ ε α β : Type}

abbrev Prog (σ ε α : Type) := ExceptT ε (StateM σ) α

/-- The outcome of `m` and the state it leaves. -/
def exec (m : Prog σ ε α) (s : σ) : Except ε α × σ := (ExceptT.run m).run s

def wp (m : Prog σ ε α) (Q : α → σ → Prop) (E : ε → σ → Prop) (s : σ) : Prop :=
  match exec m s with
  | (.ok a, s') => Q a s'
  | (.error e, s') => E e s'

variable {c : Prop} {m n : Prog σ ε α}

section Rules
variable {Q : α → σ → Prop} {E : ε → σ → Prop} {s : σ}

@[simp] theorem wp_pure (a : α) : wp (pure a : Prog σ ε α) Q E s ↔ Q a s := Iff.rfl

@[simp] theorem wp_throw (e : ε) : wp (throw e : Prog σ ε α) Q E s ↔ E e s := Iff.rfl

@[simp] theorem wp_get {Q : σ → σ → Prop} : wp (get : Prog σ ε σ) Q E s ↔ Q s s := Iff.rfl

@[simp] theorem wp_set {Q : PUnit → σ → Prop} (t : σ) : wp (set t : Prog σ ε PUnit) Q E s ↔ Q ⟨⟩ t := Iff.rfl

@[simp] theorem wp_modify {Q : PUnit → σ → Prop} (f : σ → σ) : wp (modify f : Prog σ ε PUnit) Q E s ↔ Q ⟨⟩ (f s) :=
  Iff.rfl

theorem exec_bind (m : Prog σ ε α) (f : α → Prog σ ε β) (s : σ) :
    exec (m >>= f) s = match exec m s with
      | (.ok a, s') => exec (f a) s'
      | (.error e, s') => (.error e, s') := by
  show (ExceptT.run (m >>= f)).run s = _
  rw [ExceptT.run_bind]
  show ((ExceptT.run m) >>= _ : StateM σ _).run s = _
  rw [StateT.run_bind]
  simp only [exec]
  rcases h : (ExceptT.run m).run s with ⟨a | a, s'⟩ <;> rfl

@[simp] theorem wp_bind {Q : β → σ → Prop} (m : Prog σ ε α) (f : α → Prog σ ε β) :
    wp (m >>= f) Q E s ↔ wp m (fun a s' => wp (f a) Q E s') E s := by
  unfold wp
  rw [exec_bind]
  rcases exec m s with ⟨e | a, s'⟩ <;> rfl

@[simp] theorem wp_ite [Decidable c] (m n : Prog σ ε α) :
    wp (if c then m else n) Q E s ↔ (c → wp m Q E s) ∧ (¬ c → wp n Q E s) := by
  by_cases h : c <;> simp [h]

variable {Q' : α → σ → Prop}

theorem wp.mono {E' : ε → σ → Prop} (h : wp m Q E s)
    (hq : ∀ a s', Q a s' → Q' a s') (he : ∀ e s', E e s' → E' e s') : wp m Q' E' s := by
  unfold wp at *
  revert h
  rcases exec m s with ⟨e | a, s'⟩
  · exact he e s'
  · exact hq a s'

theorem wp.imp (h : wp m Q E s) (hq : ∀ a s', Q a s' → Q' a s') : wp m Q' E s :=
  h.mono hq fun _ _ => id

theorem wp.total (h : wp m Q (fun _ _ => False) s) (hq : ∀ a s', Q a s' → Q' a s') : wp m Q' E s :=
  h.mono hq fun _ _ => False.elim

theorem wp.seq {m : Prog σ ε α} {f : α → Prog σ ε β} {Q' : β → σ → Prop} (h : wp m Q E s)
    (hf : ∀ a s', Q a s' → wp (f a) Q' E s') : wp (m >>= f) Q' E s :=
  (wp_bind m f).2 (h.imp hf)

theorem wp_of_all (hq : ∀ a s', Q a s') (he : ∀ e s', E e s') : wp m Q E s := by
  unfold wp
  rcases exec m s with ⟨e | a, s'⟩
  · exact he e s'
  · exact hq a s'

theorem wp.and {E' : ε → σ → Prop} (h : wp m Q E s) (h' : wp m Q' E' s) :
    wp m (fun a s' => Q a s' ∧ Q' a s') (fun e s' => E e s' ∧ E' e s') s := by
  unfold wp at *
  revert h h'
  rcases exec m s with ⟨e | a, s'⟩ <;> exact And.intro

theorem wp_forM_range {f : Nat → Prog σ ε PUnit} {I : Nat → σ → Prop} {n : Nat} (h0 : I 0 s)
    (hstep : ∀ i < n, ∀ t, I i t → wp (f i) (fun _ => I (i + 1)) E t) :
    wp ((List.range n).forM f) (fun _ => I n) E s := by
  have hrun : ∀ k a s, a + k = n → I a s → wp ((List.range' a k).forM f) (fun _ => I n) E s := by
    intro k
    induction k with
    | zero =>
      intro a s ha hi
      rw [← ha]
      exact hi
    | succ k ih =>
      intro a s ha hi
      rw [List.range'_succ]
      refine (wp_bind (f a) fun _ => (List.range' (a + 1) k).forM f).2 ?_
      exact (hstep a (by omega) s hi).mono (fun _ t ht => ih (a + 1) t (by omega) ht) fun _ _ he => he
  rw [List.range_eq_range']
  exact hrun n 0 s (Nat.zero_add n) h0

theorem wp.state {P : σ → Prop} (h : wp m (fun _ => P) (fun _ => P) s) : P (exec m s).2 := by
  unfold wp at h
  revert h
  rcases exec m s with ⟨e | a, s'⟩ <;> exact id

theorem wp.ok {a : α} {s' : σ} (h : wp m Q E s) (he : exec m s = (.ok a, s')) : Q a s' := by
  unfold wp at h
  rw [he] at h
  exact h

theorem wp.error {e : ε} {s' : σ} (h : wp m Q E s) (he : exec m s = (.error e, s')) : E e s' := by
  unfold wp at h
  rw [he] at h
  exact h

theorem wp.of_exec (h : wp n Q E s) (he : exec m s = exec n s) : wp m Q E s := by
  unfold wp at *
  rw [he]
  exact h

theorem wp.returns (h : wp m Q (fun _ _ => False) s) : ∃ a s', exec m s = (.ok a, s') ∧ Q a s' := by
  unfold wp at h
  revert h
  rcases exec m s with ⟨e | a, s'⟩
  · exact False.elim
  · exact fun h => ⟨a, s', rfl, h⟩

end Rules

-- From here on a program is taken apart by the rules only, never by running it.
attribute [irreducible] wp

/-! ## Programs that keep a relation -/

/-- Where `m` returns, the state is related to the one it started in; where it stops, the error has `P`. -/
def Keeps (R : σ → σ → Prop) (P : ε → Prop) (m : Prog σ ε α) : Prop := ∀ s, wp m (fun _ => R s) (fun e _ => P e) s

section Keeps
variable {R : σ → σ → Prop} {P : ε → Prop}

theorem keeps_pure [Std.Refl R] (a : α) : Keeps R P (pure a : Prog σ ε α) := fun s => (wp_pure a).2 (Std.Refl.refl s)

theorem keeps_throw {e : ε} (h : P e) : Keeps R P (throw e : Prog σ ε α) := fun _ => (wp_throw e).2 h

theorem keeps_get [Std.Refl R] : Keeps R P (get : Prog σ ε σ) := fun s => wp_get.2 (Std.Refl.refl s)

theorem keeps_modify {f : σ → σ} (h : ∀ s, R s (f s)) : Keeps R P (modify f : Prog σ ε PUnit) :=
  fun s => (wp_modify f).2 (h s)

theorem Keeps.bind [Trans R R R] {f : α → Prog σ ε β} (hm : Keeps R P m) (hf : ∀ a, Keeps R P (f a)) :
    Keeps R P (m >>= f) := by
  intro s
  rw [wp_bind]
  exact (hm s).mono (fun a s' h => (hf a s').mono (fun _ _ h2 => Trans.trans h h2) fun _ _ => id) fun _ _ => id

theorem Keeps.ite [Decidable c] (hm : Keeps R P m) (hn : Keeps R P n) :
    Keeps R P (if c then m else n) := by
  intro s
  rw [wp_ite]
  exact ⟨fun _ => hm s, fun _ => hn s⟩

theorem keeps_forM [Std.Refl R] [Trans R R R] {γ : Type} {f : γ → Prog σ ε PUnit} (l : List γ)
    (h : ∀ x ∈ l, Keeps R P (f x)) : Keeps R P (l.forM f) := by
  induction l with
  | nil => exact keeps_pure _
  | cons x l ih => exact (h x List.mem_cons_self).bind fun _ => ih fun y hy => h y (List.mem_cons_of_mem _ hy)

end Keeps

/-! ## What a program returns -/

/-- Where `m` returns, what it returns has `P`. -/
def Always (P : α → Prop) (m : Prog σ ε α) : Prop := ∀ s, wp m (fun a _ => P a) (fun _ _ => True) s

section Always
variable {P : α → Prop}

theorem always_pure {a : α} (h : P a) : Always P (pure a : Prog σ ε α) := fun _ => (wp_pure a).2 h

theorem always_throw (e : ε) : Always P (throw e : Prog σ ε α) := fun _ => (wp_throw e).2 trivial

theorem always_bind {m : Prog σ ε β} {f : β → Prog σ ε α} (h : ∀ b, Always P (f b)) : Always P (m >>= f) := fun _ =>
  (wp_bind m f).2 (wp_of_all (fun b s' => h b s') fun _ _ => trivial)

theorem Always.ite [Decidable c] (hm : Always P m) (hn : Always P n) :
    Always P (if c then m else n) := fun s => (wp_ite m n).2 ⟨fun _ => hm s, fun _ => hn s⟩

theorem Always.wp {Q : α → σ → Prop} (h : Always P m) (hq : ∀ a s', P a → Q a s') (s : σ) :
    Hoare.wp m Q (fun _ _ => True) s :=
  (h s).mono (fun a s' ha => hq a s' ha) fun _ _ he => he

end Always

end Xv6.Hoare
