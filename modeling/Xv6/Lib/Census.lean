import Mathlib.Data.List.Nodup
import Mathlib.Logic.Function.Basic
import Mathlib.Tactic.Common
/-!
# Tenants of slots, by number

Slots are let to tenants that carry numbers, handed out in order and never
twice. A tenant is settled in its slot by another one, its parent; it gives
notice with a status, goes, and is then struck off by its parent, or by the
keeper to whom its parent has handed it. Under these operations every notice is
given once and struck off at most once, with the status it was given with.
-/

open Function List

namespace Xv6.Census

inductive Phase (σ : Type) where
  | free
  /-- Numbered, not yet settled. -/
  | taken (id : Int)
  | live (id : Int)
  | leaving (id : Int) (st : σ)
  | dead (id : Int) (st : σ)

variable {α σ : Type}

def Phase.id : Phase σ → Option Int
  | .free => none
  | .taken id | .live id | .leaving id _ | .dead id _ => some id

def Phase.status : Phase σ → Option σ
  | .leaving _ st | .dead _ st => some st
  | _ => none

/-- A tenant that was struck off, with its status, and by whom: slot and number. -/
structure Entry (α σ : Type) where
  id : Int
  status : σ
  slot : α
  waiter : Int

@[ext]
structure Book (α σ : Type) where
  slot : α → Phase σ
  parent : α → Option α
  next : Int
  /-- The numbers of each tenant and of the one who settled it. -/
  forks : List (Int × Int)
  /-- The notices. -/
  exits : List (Int × σ)
  reaps : List (Entry α σ)

variable [DecidableEq α]

/-- One change of the book with keeper `r`. -/
inductive Op (r : α) (b : Book α σ) : Book α σ → Prop
  | take {i} : b.slot i = .free → (∀ j, b.parent j ≠ some i) → b.parent i = none →
      Op r b { b with slot := update b.slot i (.taken b.next), next := b.next + 1 }
  | drop {i id} : b.slot i = .taken id → Op r b { b with slot := update b.slot i .free }
  | settle {i p id pid} : b.slot i = .taken id → b.slot p = .live pid →
      Op r b { b with
        slot := update b.slot i (.live id)
        parent := update b.parent i (some p)
        forks := (id, pid) :: b.forks }
  | adopt {i} : Op r b { b with parent := update b.parent i (some r) }
  | exit {p id} (st : σ) : b.slot p = .live id →
      Op r b { b with slot := update b.slot p (.leaving id st), exits := (id, st) :: b.exits }
  | die {p id st} : b.slot p = .leaving id st → Op r b { b with slot := update b.slot p (.dead id st) }
  | reap {i q id st qid} : b.slot i = .dead id st → b.parent i = some q → (b.slot q).id = some qid →
      Op r b { b with
        slot := update b.slot i .free
        parent := update b.parent i none
        reaps := ⟨id, st, q, qid⟩ :: b.reaps }

structure Sound (r : α) (b : Book α σ) : Prop where
  lt : ∀ i x, (b.slot i).id = some x → x < b.next
  uniq : ∀ i j x, (b.slot i).id = some x → (b.slot j).id = some x → i = j
  exits_lt : ∀ e ∈ b.exits, e.1 < b.next
  exits_nodup : (b.exits.map Prod.fst).Nodup
  left : ∀ i x st, (b.slot i).id = some x → (x, st) ∈ b.exits → (b.slot i).status = some st
  noted : ∀ i x st, (b.slot i).id = some x → (b.slot i).status = some st → (x, st) ∈ b.exits
  kin : ∀ i q x y, b.parent i = some q → (b.slot i).id = some x → (b.slot q).id = some y → (x, y) ∈ b.forks ∨ q = r
  gone : ∀ e ∈ b.reaps, ∀ i, (b.slot i).id ≠ some e.id
  reaps_nodup : (b.reaps.map Entry.id).Nodup
  struck : ∀ e ∈ b.reaps, (e.id, e.status) ∈ b.exits ∧ ((e.id, e.waiter) ∈ b.forks ∨ e.slot = r)

namespace Sound

variable {r : α} {b b' : Book α σ}

section
variable (h : Sound r b)
include h

theorem reslot {i : α} {x : Phase σ} (hid : x.id = (b.slot i).id)
    (hst : x.status = (b.slot i).status) : Sound r { b with slot := update b.slot i x } := by
  have hids : ∀ j, (update b.slot i x j).id = (b.slot j).id := by
    intro j
    rw [update_apply]
    split
    · next hj => rw [hj, hid]
    · rfl
  have hsts : ∀ j, (update b.slot i x j).status = (b.slot j).status := by
    intro j
    rw [update_apply]
    split
    · next hj => rw [hj, hst]
    · rfl
  exact { h with
    lt := by simpa only [hids] using h.lt
    uniq := by simpa only [hids] using h.uniq
    left := by simpa only [hids, hsts] using h.left
    noted := by simpa only [hids, hsts] using h.noted
    kin := by simpa only [hids] using h.kin
    gone := by simpa only [hids] using h.gone }

theorem vacate (i : α) : Sound r { b with slot := update b.slot i .free } := by
  have hold : ∀ j x, (update b.slot i .free j).id = some x → update b.slot i .free j = b.slot j := by
    intro j x hx
    rw [update_apply] at hx ⊢
    split at hx
    · cases hx
    · next hj => rw [if_neg hj]
  have hids : ∀ j x, (update b.slot i .free j).id = some x → (b.slot j).id = some x := by
    intro j x hx
    rw [← hold j x hx]
    exact hx
  exact { h with
    lt := fun j x hx => h.lt j x (hids j x hx)
    uniq := fun j k x hj hk => h.uniq j k x (hids j x hj) (hids k x hk)
    left := by
      intro j x st hx he
      dsimp only at hx ⊢
      rw [hold j x hx]
      exact h.left j x st (hids j x hx) he
    noted := by
      intro j x st hx hst
      dsimp only at hx hst
      rw [hold j x hx] at hst
      exact h.noted j x st (hids j x hx) hst
    kin := fun j q x y hp hx hy => h.kin j q x y hp (hids j x hx) (hids q y hy)
    gone := fun e he j hj => h.gone e he j (hids j e.id hj) }

/-- The next number is nobody's, and there is no notice under it. -/
theorem take {i : α} (hno : ∀ j, b.parent j ≠ some i) (hpar : b.parent i = none) :
    Sound r { b with slot := update b.slot i (.taken b.next), next := b.next + 1 } := by
  have hids : ∀ j x, (update b.slot i (.taken b.next) j).id = some x →
      j = i ∧ x = b.next ∨ j ≠ i ∧ (b.slot j).id = some x := by
    intro j x hx
    rw [update_apply] at hx
    split at hx
    · next hj => exact .inl ⟨hj, (Option.some.inj hx).symm⟩
    · next hj => exact .inr ⟨hj, hx⟩
  exact { h with
    lt := by
      intro j x hx
      rcases hids j x hx with ⟨-, rfl⟩ | ⟨-, hx⟩
      · exact Int.lt_succ _
      · exact Int.lt_add_one_iff.2 (Int.le_of_lt (h.lt j x hx))
    uniq := by
      intro j k x hj hk
      rcases hids j x hj with ⟨hji, hx⟩ | ⟨-, hj'⟩ <;> rcases hids k x hk with ⟨hki, hx'⟩ | ⟨-, hk'⟩
      · rw [hji, hki]
      · exact absurd (h.lt k x hk') (by omega)
      · exact absurd (h.lt j x hj') (by omega)
      · exact h.uniq j k x hj' hk'
    exits_lt := fun e he => Int.lt_add_one_iff.2 (Int.le_of_lt (h.exits_lt e he))
    left := by
      intro j x st hx he
      rcases hids j x hx with ⟨-, rfl⟩ | ⟨hj, hx⟩
      · exact absurd (h.exits_lt _ he) (Int.lt_irrefl _)
      · simpa only [update_of_ne hj] using h.left j x st hx he
    noted := by
      intro j x st hx hst
      rcases hids j x hx with ⟨rfl, -⟩ | ⟨hj, hx⟩
      · simp [Phase.status] at hst
      · simp only [update_of_ne hj] at hst
        exact h.noted j x st hx hst
    kin := by
      intro j q x y hp hx hy
      rcases hids j x hx with ⟨rfl, -⟩ | ⟨-, hx⟩
      · exact absurd hp (by simp [hpar])
      rcases hids q y hy with ⟨rfl, -⟩ | ⟨-, hy⟩
      · exact absurd hp (hno j)
      · exact h.kin j q x y hp hx hy
    gone := by
      intro e he j hj
      rcases hids j e.id hj with ⟨-, hx⟩ | ⟨-, hx⟩
      · exact absurd (h.exits_lt _ (h.struck e he).1) (by simp [hx])
      · exact h.gone e he j hx }

theorem settle {i p : α} {id pid : Int} (hi : (b.slot i).id = some id) (hp : (b.slot p).id = some pid) :
    Sound r { b with parent := update b.parent i (some p), forks := (id, pid) :: b.forks } :=
  { h with
    kin := by
      intro j q x y hq hx hy
      dsimp only at hq hx hy
      rw [update_apply] at hq
      split at hq
      · next hj =>
        cases hq
        rw [hj, hi] at hx
        rw [hp] at hy
        cases hx
        cases hy
        exact .inl (mem_cons_self ..)
      · exact (h.kin j q x y hq hx hy).imp_left (mem_cons_of_mem _)
    struck := fun e he =>
      ⟨(h.struck e he).1, (h.struck e he).2.imp_left (mem_cons_of_mem _)⟩ }

theorem adopt (i : α) : Sound r { b with parent := update b.parent i (some r) } :=
  { h with
    kin := by
      intro j q x y hq hx hy
      dsimp only at hq hx hy
      rw [update_apply] at hq
      split at hq
      · exact .inr (Option.some.inj hq).symm
      · exact h.kin j q x y hq hx hy }

theorem exit {p : α} {id : Int} (st : σ) (hl : b.slot p = .live id) :
    Sound r { b with slot := update b.slot p (.leaving id st), exits := (id, st) :: b.exits } := by
  have hpid : (b.slot p).id = some id := by rw [hl]; rfl
  have hids : ∀ j, (update b.slot p (.leaving id st) j).id = (b.slot j).id := by
    intro j
    rw [update_apply]
    split
    · next hj => rw [hj, hpid]; rfl
    · rfl
  -- Whoever is live has not given notice.
  have hnew : ∀ st', (id, st') ∉ b.exits := by
    intro st' he
    have hst := h.left p id st' hpid he
    rw [hl] at hst
    cases hst
  exact { h with
    lt := by simpa only [hids] using h.lt
    uniq := by simpa only [hids] using h.uniq
    exits_lt := by
      intro e he
      rcases mem_cons.1 he with rfl | he
      · exact h.lt p _ hpid
      · exact h.exits_lt e he
    exits_nodup := by
      refine nodup_cons.2 ⟨fun hm => ?_, h.exits_nodup⟩
      obtain ⟨⟨id', st'⟩, he, hid⟩ := mem_map.1 hm
      cases hid
      exact hnew st' he
    left := by
      intro j x st' hx he
      dsimp only at hx he ⊢
      rw [hids] at hx
      rcases mem_cons.1 he with heq | he
      · cases heq
        rw [h.uniq j p id hx hpid, update_self]
        rfl
      · have hj : j ≠ p := by
          rintro rfl
          cases hpid.symm.trans hx
          exact hnew st' he
        rw [update_of_ne hj]
        exact h.left j x st' hx he
    noted := by
      intro j x st' hx hst
      dsimp only at hx hst
      rw [hids] at hx
      by_cases hj : j = p
      · subst hj
        rw [update_self] at hst
        cases hst
        cases hpid.symm.trans hx
        exact mem_cons_self ..
      · rw [update_of_ne hj] at hst
        exact mem_cons_of_mem _ (h.noted j x st' hx hst)
    kin := by simpa only [hids] using h.kin
    gone := by simpa only [hids] using h.gone
    struck := fun e he => ⟨mem_cons_of_mem _ (h.struck e he).1, (h.struck e he).2⟩ }

theorem reap {i q : α} {id qid : Int} {st : σ} (hd : b.slot i = .dead id st)
    (hp : b.parent i = some q) (hq : (b.slot q).id = some qid) :
    Sound r { b with
      slot := update b.slot i .free
      parent := update b.parent i none
      reaps := ⟨id, st, q, qid⟩ :: b.reaps } := by
  have hid : (b.slot i).id = some id := by rw [hd]; rfl
  have hv := h.vacate i
  exact { hv with
    kin := by
      intro j q' x y hq' hx hy
      dsimp only at hq'
      rw [update_apply] at hq'
      split at hq'
      · cases hq'
      · exact hv.kin j q' x y hq' hx hy
    gone := by
      intro e he j hj
      dsimp only at hj
      rcases mem_cons.1 he with rfl | he
      · -- The number of the tenant was nobody else's.
        by_cases hji : j = i
        · simp [hji, Phase.id] at hj
        · rw [update_of_ne hji] at hj
          exact hji (h.uniq j i id hj hid)
      · exact hv.gone e he j hj
    reaps_nodup := by
      refine nodup_cons.2 ⟨fun hm => ?_, h.reaps_nodup⟩
      obtain ⟨e, he, heq⟩ := mem_map.1 hm
      exact h.gone e he i (by rw [hid, heq])
    struck := by
      intro e he
      rcases mem_cons.1 he with rfl | he
      · exact ⟨h.noted i id st hid (by rw [hd]; rfl), h.kin i q id qid hp hid hq⟩
      · exact h.struck e he }

theorem step (ho : Op r b b') : Sound r b' := by
  cases ho with
  | take hf hno hpar => exact h.take hno hpar
  | drop hf => exact h.vacate _
  | @settle i p id pid hi hp =>
    have hl := h.reslot (i := i) (x := .live id) (by rw [hi]; rfl) (by rw [hi]; rfl)
    have hne : p ≠ i := by
      rintro rfl
      cases hi.symm.trans hp
    refine hl.settle ?_ ?_
    · simp [Phase.id]
    · simp [update_of_ne hne, hp, Phase.id]
  | adopt => exact h.adopt _
  | exit st hl => exact h.exit st hl
  | die hl => exact h.reslot (by rw [hl]; rfl) (by rw [hl]; rfl)
  | reap hd hp hq => exact h.reap hd hp hq

end

end Sound

end Xv6.Census
