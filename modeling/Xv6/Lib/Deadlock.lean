import Mathlib.Logic.Relation
import Mathlib.Order.Basic
/-!
# Waiting for locks

Threads hold locks and want at most one more. If every lock a thread holds
comes before the one it wants, in some ranking of the locks, then no threads
wait for each other in a circle.
-/

namespace Xv6.Deadlock

variable {T L ι : Type} (holds : T → L → Prop) (wants : T → Option L)

/-- `t` waits for a lock that `t'` holds. -/
def Waits (t t' : T) : Prop := ∃ l, wants t = some l ∧ holds t' l

variable {holds wants} [Preorder ι] {rank : L → ι}

/-- What a thread wants comes before what the last of a chain of waiting threads wants. -/
theorem rank_lt (h : ∀ t l l', holds t l → wants t = some l' → rank l < rank l') {t t' : T}
    (hw : Relation.TransGen (Waits holds wants) t t') {l l' : L} (hl : wants t = some l) (hl' : wants t' = some l') :
    rank l < rank l' := by
  induction hw generalizing l' with
  | single hw =>
    obtain ⟨l₁, hl₁, hh⟩ := hw
    cases hl.symm.trans hl₁
    exact h _ l l' hh hl'
  | tail _ hw ih =>
    obtain ⟨l₁, hl₁, hh⟩ := hw
    exact (ih hl₁).trans (h _ l₁ l' hh hl')

theorem no_cycle (rank : L → ι) (h : ∀ t l l', holds t l → wants t = some l' → rank l < rank l') (t : T) :
    ¬ Relation.TransGen (Waits holds wants) t t := by
  intro hw
  obtain ⟨t', ⟨l, hl, -⟩, -⟩ := Relation.TransGen.head'_iff.1 hw
  exact lt_irrefl _ (rank_lt h hw hl hl)

end Xv6.Deadlock
