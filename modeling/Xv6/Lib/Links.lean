import Mathlib.Data.List.Nodup
import Mathlib.Logic.Function.Basic
/-!
# Doubly linked rings

A ring through a head `h` is given by two maps, `next` and `prev`. `Trail f a l b`
says that following `f` from `a` visits the elements of `l` and then arrives at
`b`; a ring visits the same elements from `h` to `h` along `next` and, in the
opposite order, along `prev`. `LinkRing.unlink` takes an element out and
`LinkRing.insert` puts one in behind the head, by the usual pointer updates.
-/

open Function

namespace Xv6.Links

variable {α : Type}

/-- From `a`, following `f` visits `l` and then reaches `b`. -/
def Trail (f : α → α) : α → List α → α → Prop
  | a, [], b => f a = b
  | a, x :: l, b => f a = x ∧ Trail f x l b

theorem trail_append {f : α → α} {a b x : α} {l l' : List α} :
    Trail f a (l ++ x :: l') b ↔ Trail f a l x ∧ Trail f x l' b := by
  induction l generalizing a with
  | nil => rfl
  | cons y l ih => simp only [List.cons_append, Trail, ih, and_assoc]

theorem trail_congr {f g : α → α} {a b : α} {l : List α} (h : ∀ x ∈ a :: l, f x = g x) :
    Trail f a l b ↔ Trail g a l b := by
  induction l generalizing a with
  | nil => rw [Trail, Trail, h a List.mem_cons_self]
  | cons x l ih => rw [Trail, Trail, h a List.mem_cons_self, ih fun y hy => h y (List.mem_cons_of_mem _ hy)]

/-- The element from which the last step of a path is taken. -/
def last (a : α) (l : List α) : α := (a :: l).getLast (by simp)

theorem last_cons (a x : α) (l : List α) : last a (x :: l) = last x l := by simp [last]

theorem last_mem (a : α) (l : List α) : last a l ∈ a :: l := List.getLast_mem _

theorem trail_first {f : α → α} {a b : α} {l : List α} (h : Trail f a l b) : f a = (l ++ [b]).head (by simp) := by
  cases l with
  | nil => exact h
  | cons x l => exact h.1

theorem head_reverse (a : α) (l : List α) : (l.reverse ++ [a]).head (by simp) = last a l := by
  simp only [last, ← List.reverse_cons, List.head_reverse]

/-- The ring through `h` with elements `l`, in the order of `next`. -/
structure LinkRing (next prev : α → α) (h : α) (l : List α) : Prop where
  fwd : Trail next h l h
  bwd : Trail prev h l.reverse h
  nodup : (h :: l).Nodup

namespace LinkRing

variable {next prev : α → α} {h x : α} {l l' : List α}

theorem nodup_reverse (hr : LinkRing next prev h l) : (h :: l.reverse).Nodup := by
  have := hr.nodup
  simp only [List.nodup_cons, List.mem_reverse, List.nodup_reverse] at this ⊢
  exact this

theorem prev_eq (hr : LinkRing next prev h (l ++ x :: l')) : prev x = last h l := by
  have hb := hr.bwd
  rw [List.reverse_append, List.reverse_cons, List.append_assoc, List.singleton_append] at hb
  rw [trail_first (trail_append.1 hb).2, head_reverse]

theorem next_eq (hr : LinkRing next prev h (l ++ x :: l')) : next x = last h l'.reverse := by
  have hf := (trail_append.1 hr.fwd).2
  rw [trail_first hf, ← head_reverse]
  simp

end LinkRing

variable [DecidableEq α]

theorem trail_update {f : α → α} {z v a b : α} {l : List α} (hz : z ∉ a :: l) :
    Trail (update f z v) a l b ↔ Trail f a l b :=
  trail_congr fun x hx => update_of_ne (fun e : x = z => hz (e ▸ hx)) _ _

theorem trail_redirect {f : α → α} {a b c : α} {l : List α} (h : Trail f a l b) (hn : (a :: l).Nodup) :
    Trail (update f (last a l) c) a l c := by
  induction l generalizing a with
  | nil => simp [Trail, last]
  | cons x l ih =>
    have hn' := List.nodup_cons.1 hn
    rw [last_cons]
    refine ⟨?_, ih h.2 hn'.2⟩
    have hne : a ≠ last x l := fun he => hn'.1 (he ▸ last_mem x l)
    rw [update_of_ne hne]
    exact h.1

theorem trail_skip {f : α → α} {a x : α} {l l' : List α} (h : Trail f a (l ++ x :: l') a)
    (hn : (a :: (l ++ x :: l')).Nodup) : Trail (update f (last a l) (f x)) a (l ++ l') a := by
  obtain ⟨h1, h2⟩ := trail_append.1 h
  have hal : (a :: l).Nodup := hn.sublist (by simp)
  cases l' with
  | nil =>
    rw [List.append_nil, show f x = a from h2]
    exact trail_redirect h1 hal
  | cons y t =>
    rw [h2.1]
    refine trail_append.2 ⟨trail_redirect h1 hal, (trail_update ?_).2 h2.2⟩
    intro hm
    have hd := List.nodup_append.1 (show ((a :: l) ++ (x :: y :: t)).Nodup by simpa using hn)
    exact hd.2.2 _ (last_mem a l) _ (List.mem_cons_of_mem _ hm) rfl

namespace LinkRing

variable {next prev : α → α} {h x : α} {l l' : List α}

/-- `x->next->prev = x->prev; x->prev->next = x->next` -/
theorem unlink (hr : LinkRing next prev h (l ++ x :: l')) :
    LinkRing (update next (prev x) (next x)) (update prev (next x) (prev x)) h (l ++ l') where
  fwd := by rw [hr.prev_eq]; exact trail_skip hr.fwd hr.nodup
  bwd := by
    have hb := hr.bwd
    have hn := hr.nodup_reverse
    rw [List.reverse_append, List.reverse_cons, List.append_assoc, List.singleton_append] at hb hn
    rw [hr.next_eq, List.reverse_append]
    exact trail_skip hb hn
  nodup := hr.nodup.sublist (by simp)

/-- `x->next = h->next; x->prev = h; h->next->prev = x; h->next = x` -/
theorem insert (hr : LinkRing next prev h l) (hx : x ∉ h :: l) :
    LinkRing (update (update next x (next h)) h x)
      (update (update prev x h) (next h) x) h (x :: l) := by
  have hxh : x ≠ h := fun he => hx (by simp [he])
  have hnh := List.nodup_cons.1 hr.nodup
  have hfirst : next h = last h l.reverse := by
    rw [trail_first hr.fwd, ← head_reverse]; simp
  have hmem : next h ∈ h :: l := by
    have := last_mem h l.reverse
    rw [hfirst]
    simpa using this
  have hxn : x ≠ next h := fun he => hx (he ▸ hmem)
  refine ⟨⟨by simp, ?_⟩, ?_, ?_⟩
  · have hf := hr.fwd
    cases l with
    | nil => simp [Trail, update_of_ne hxh, show next h = h from hf]
    | cons y t =>
      refine ⟨?_, ?_⟩
      · rw [update_of_ne hxh, update_self]; exact hf.1
      · rw [trail_update hnh.1, trail_update fun hm => hx (List.mem_cons_of_mem _ hm)]
        exact hf.2
  · rw [List.reverse_cons]
    refine trail_append.2 ⟨?_, ?_⟩
    · rw [hfirst]
      refine trail_redirect ((trail_update ?_).2 hr.bwd) hr.nodup_reverse
      simpa using hx
    · simp [Trail, update_of_ne hxn]
  · simp only [List.nodup_cons, List.mem_cons, not_or] at hx hnh ⊢
    exact ⟨⟨hxh.symm, hnh.1⟩, hx.2, hnh.2⟩

end LinkRing

end Xv6.Links
