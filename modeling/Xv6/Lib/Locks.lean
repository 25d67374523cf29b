import Mathlib.Data.List.Nodup
import Mathlib.Logic.Function.Basic
/-!
# Who holds which spinlock

`held t` lists the locks that the thread `t` holds, by the place where it is, and
`lock l` is the owner that is written in the lock `l`. `Owned held lock`: the two
agree, and no thread holds a lock twice. So no lock has two holders.
-/

namespace Xv6.Locks

variable {T L : Type}

structure Owned (held : T → List L) (lock : L → Option T) : Prop where
  nodup : ∀ t, (held t).Nodup
  owner : ∀ l t, lock l = some t ↔ l ∈ held t

namespace Owned

variable {held held' : T → List L} {lock : L → Option T} {t u : T} {l : L}

theorem excl (h : Owned held lock) (ht : l ∈ held t) (hu : l ∈ held u) : t = u :=
  Option.some.inj (((h.owner l t).2 ht).symm.trans ((h.owner l u).2 hu))

theorem none_of_free (h : Owned held lock) (hl : lock l = none) (t : T) : l ∉ held t := by
  intro hm
  simp [(h.owner l t).2 hm] at hl

theorem same (h : Owned held lock) (ho : ∀ u, u ≠ t → held' u = held u) (ht : (held' t).Perm (held t)) :
    Owned held' lock where
  nodup u := by
    by_cases hu : u = t
    · rw [hu]
      exact ht.nodup_iff.2 (h.nodup t)
    · rw [ho u hu]
      exact h.nodup u
  owner l u := by
    by_cases hu : u = t
    · rw [hu, h.owner l t, ht.mem_iff]
    · rw [ho u hu, h.owner l u]

variable [DecidableEq L]

theorem acquire (h : Owned held lock) (hl : lock l = none) (ho : ∀ u, u ≠ t → held' u = held u)
    (ht : (held' t).Perm (l :: held t)) : Owned held' (Function.update lock l (some t)) where
  nodup u := by
    by_cases hu : u = t
    · rw [hu, ht.nodup_iff]
      exact List.nodup_cons.2 ⟨h.none_of_free hl t, h.nodup t⟩
    · rw [ho u hu]
      exact h.nodup u
  owner l' u := by
    have hown := h.owner l' u
    have hfree := h.none_of_free hl u
    by_cases hl' : l' = l
    · subst hl'
      by_cases hu : u = t
      · simp [hu, ht.mem_iff]
      · simpa [ho u hu, hfree] using Ne.symm hu
    · by_cases hu : u = t
      · subst hu
        simp [hl', ht.mem_iff, hown]
      · simp [hl', ho u hu, hown]

theorem release (h : Owned held lock) (ho : ∀ u, u ≠ t → held' u = held u) (ht : (held t).Perm (l :: held' t)) :
    Owned held' (Function.update lock l none) where
  nodup u := by
    by_cases hu : u = t
    · rw [hu]
      exact (List.nodup_cons.1 (ht.nodup_iff.1 (h.nodup t))).2
    · rw [ho u hu]
      exact h.nodup u
  owner l' u := by
    have hown := h.owner l' u
    have hgone := (List.nodup_cons.1 (ht.nodup_iff.1 (h.nodup t))).1
    by_cases hl' : l' = l
    · subst hl'
      by_cases hu : u = t
      · simp [hu, hgone]
      · have hnot : l' ∉ held u := fun hm => hu (h.excl hm (ht.mem_iff.2 (List.mem_cons_self ..)))
        simp [ho u hu, hnot]
    · by_cases hu : u = t
      · subst hu
        simp [hl', hown, ht.mem_iff]
      · simp [hl', ho u hu, hown]

end Owned

end Xv6.Locks
