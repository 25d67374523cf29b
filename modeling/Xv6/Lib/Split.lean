import Mathlib.Data.List.Basic
/-!
# Pieces of a list that a separator ends

`terminated p l` are the pieces of `l` between the elements with `p`, without the last
one, which no such element ends.
-/

namespace Xv6.Split

variable {α : Type} (p : α → Bool)

def terminated (l : List α) : List (List α) := (l.splitOnP p).dropLast

variable {p} {w : List α}

section
variable (hw : ∀ c ∈ w, p c = false)
include hw

theorem splitOnP_piece : w.splitOnP p = [w] :=
  List.splitOnP_eq_singleton hw

theorem splitOnP_piece_cons {c : α} (hc : p c = true) (l : List α) :
    (w ++ c :: l).splitOnP p = w :: l.splitOnP p :=
  List.splitOnP_append_cons_of_forall_mem hw c hc l

theorem terminated_piece : terminated p w = [] := by
  rw [terminated, splitOnP_piece hw]
  rfl

theorem terminated_piece_cons {c : α} (hc : p c = true) (l : List α) :
    terminated p (w ++ c :: l) = w :: terminated p l := by
  rw [terminated, splitOnP_piece_cons hw hc, List.dropLast_cons_of_ne_nil (List.splitOnP_ne_nil _ _), terminated]

end

theorem splitOnP_eq (l : List α) :
    l.splitOnP p = terminated p l ++ [(l.splitOnP p).getLast (List.splitOnP_ne_nil _ _)] :=
  (List.dropLast_concat_getLast _).symm

end Xv6.Split
