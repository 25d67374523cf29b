import Mathlib.Data.List.Perm.Subperm
import Xv6.Bio.Cache
import Xv6.Lib.Links
import Xv6.Lib.Run
/-!
# Reference counts of buffers

`Inv S` is what every call keeps: the list is a ring through all buffers, no two
of them carry the same block, a buffer is locked by whoever holds it, and its
`refcnt` counts the holders, the sleepers and one pin if its block is in `S`.
Between calls `S` is `log.lh`; while `install_trans` runs, it is what is left of it.
-/

namespace Xv6.Bio

open Bytes Hoare Links Log Run Function List

/-! ## The list -/

/-- `prev` and `next` form a ring with every buffer in it once. -/
def Linked (c : Nat → Buf) : Prop :=
  ∃ l, LinkRing (fun k => (c k).next) (fun k => (c k).prev) NBUF l ∧ l.Perm (List.range NBUF)

section
variable (c : Nat → Buf)
include c

theorem next_setNext (k v : Nat) :
    (fun j => (setNext c k v j).next) = update (fun j => (c j).next) k v := by
  funext j
  by_cases h : j = k <;> simp [setNext, h]

theorem prev_setNext (k v : Nat) : (fun j => (setNext c k v j).prev) = fun j => (c j).prev := by
  funext j
  by_cases h : j = k <;> simp [setNext, h]

theorem prev_setPrev (k v : Nat) :
    (fun j => (setPrev c k v j).prev) = update (fun j => (c j).prev) k v := by
  funext j
  by_cases h : j = k <;> simp [setPrev, h]

theorem next_setPrev (k v : Nat) : (fun j => (setPrev c k v j).next) = fun j => (c j).next := by
  funext j
  by_cases h : j = k <;> simp [setPrev, h]

theorem unlink_links (b : Nat) :
    (fun j => (unlink c b j).next) = update (fun j => (c j).next) (c b).prev (c b).next ∧
      (fun j => (unlink c b j).prev) = update (fun j => (c j).prev) (c b).next (c b).prev := by
  have hp : (setPrev c (c b).next (c b).prev b).prev = (c b).prev := by
    rw [show _ = _ from congrFun (prev_setPrev c (c b).next (c b).prev) b]
    by_cases h : b = (c b).next
    · rw [← h, update_self]
    · rw [update_of_ne h]
  have hn : (setPrev c (c b).next (c b).prev b).next = (c b).next := congrFun (next_setPrev _ _ _) b
  unfold unlink
  rw [hp, hn, next_setNext, prev_setNext, next_setPrev, prev_setPrev]
  exact ⟨rfl, rfl⟩

theorem insertFront_links {b : Nat} (hb : b ≠ NBUF) :
    (fun j => (insertFront c b j).next) =
        update (update (fun j => (c j).next) b (c NBUF).next) NBUF b ∧
      (fun j => (insertFront c b j).prev) =
        update (update (fun j => (c j).prev) b NBUF) (c NBUF).next b := by
  have hn : (setPrev (setNext c b (c NBUF).next) b NBUF NBUF).next = (c NBUF).next := by
    rw [show _ = _ from congrFun (next_setPrev _ b NBUF) NBUF, show _ = _ from congrFun (next_setNext c b _) NBUF,
      update_of_ne hb.symm]
  unfold insertFront
  simp only [hn, next_setNext, prev_setNext, next_setPrev, prev_setPrev]
  exact ⟨trivial, trivial⟩

end

/-- Only the links of a buffer differ. -/
def SameButLinks (c c' : Nat → Buf) : Prop := ∀ k, ∃ p n, c' k = { c k with prev := p, next := n }

theorem SameButLinks.trans {c c' c'' : Nat → Buf} (h : SameButLinks c c') (h' : SameButLinks c' c'') :
    SameButLinks c c'' := by
  intro k
  obtain ⟨p, n, hk⟩ := h k
  obtain ⟨p', n', hk'⟩ := h' k
  exact ⟨p', n', by rw [hk', hk]⟩

theorem same_setPrev (c : Nat → Buf) (k v : Nat) : SameButLinks c (setPrev c k v) := by
  intro j
  by_cases h : j = k
  · exact ⟨v, (c j).next, by simp [setPrev, h]⟩
  · exact ⟨(c j).prev, (c j).next, by simp [setPrev, h]⟩

theorem same_setNext (c : Nat → Buf) (k v : Nat) : SameButLinks c (setNext c k v) := by
  intro j
  by_cases h : j = k
  · exact ⟨(c j).prev, v, by simp [setNext, h]⟩
  · exact ⟨(c j).prev, (c j).next, by simp [setNext, h]⟩

theorem same_unlink (c : Nat → Buf) (b : Nat) : SameButLinks c (unlink c b) :=
  (same_setPrev _ _ _).trans (same_setNext _ _ _)

theorem same_insertFront (c : Nat → Buf) (b : Nat) : SameButLinks c (insertFront c b) :=
  (((same_setNext _ _ _).trans (same_setPrev _ _ _)).trans (same_setPrev _ _ _)).trans (same_setNext _ _ _)

theorem ring_toFront {c : Nat → Buf} {b : Nat} {l₁ l₂ : List Nat} (hb : b ≠ NBUF)
    (hr : LinkRing (fun k => (c k).next) (fun k => (c k).prev) NBUF (l₁ ++ b :: l₂)) :
    LinkRing (fun k => (insertFront (unlink c b) b k).next) (fun k => (insertFront (unlink c b) b k).prev) NBUF
      (b :: (l₁ ++ l₂)) := by
  have hu := hr.unlink
  rw [← (unlink_links c b).1, ← (unlink_links c b).2] at hu
  have hx : b ∉ NBUF :: (l₁ ++ l₂) := by
    have hn := (nodup_cons.1 hr.nodup).2
    rw [nodup_middle] at hn
    simpa [hb] using (nodup_cons.1 hn).1
  rw [(insertFront_links _ hb).1, (insertFront_links _ hb).2]
  exact hu.insert hx

theorem Linked.toFront {c : Nat → Buf} (h : Linked c) {b : Nat} (hb : b < NBUF) :
    Linked (insertFront (unlink c b) b) := by
  obtain ⟨l, hr, hl⟩ := h
  obtain ⟨l₁, l₂, rfl⟩ := append_of_mem (hl.mem_iff.2 (mem_range.2 hb))
  exact ⟨b :: (l₁ ++ l₂), ring_toFront (Nat.ne_of_lt hb) hr, perm_middle.symm.trans hl⟩

theorem scan_trail (c : Nat → Buf) (go : Buf → Nat) (ok : Buf → Bool) {l : List Nat} :
    ∀ {a fuel : Nat}, Trail (fun k => go (c k)) a l NBUF → NBUF ∉ l → l.length < fuel →
      scan c go ok fuel (go (c a)) = some (l.find? fun k => ok (c k)) := by
  induction l with
  | nil =>
    intro a fuel h _ hf
    obtain ⟨n, rfl⟩ : ∃ n, fuel = n + 1 := ⟨fuel - 1, by simp at hf; omega⟩
    simp [scan, show go (c a) = NBUF from h]
  | cons x l ih =>
    intro a fuel h hn hf
    obtain ⟨n, rfl⟩ : ∃ n, fuel = n + 1 := ⟨fuel - 1, by simp at hf; omega⟩
    have hx : go (c a) = x := h.1
    have hxn : x ≠ NBUF := fun he => hn (by simp [he])
    rw [hx, scan, if_neg hxn, find?_cons]
    cases hok : ok (c x) with
    | true => simp
    | false => simpa using ih h.2 (fun hm => hn (mem_cons_of_mem _ hm)) (by simpa using hf)

/-! ## The invariant -/

/-- How many entries of `l` are about buffer `k`. -/
def refs (l : List (Nat × Nat)) (k : Nat) : Nat := (l.map Prod.snd).count k

@[simp] theorem refs_nil (k : Nat) : refs [] k = 0 := rfl

theorem refs_cons (x : Nat × Nat) (l : List (Nat × Nat)) (k : Nat) :
    refs (x :: l) k = refs l k + if x.2 = k then 1 else 0 := by
  simp [refs, count_cons]

theorem refs_erase {x : Nat × Nat} {l : List (Nat × Nat)} (hx : x ∈ l) (k : Nat) :
    refs l k = refs (l.erase x) k + if x.2 = k then 1 else 0 := by
  rw [← refs_cons]
  exact ((perm_cons_erase hx).map Prod.snd).count_eq k

/-- Buffer `b` carries a block of `S`. -/
def Pinned (S : List Nat) (b : Buf) : Prop := b.dev = ROOTDEV ∧ b.blockno ∈ S

instance (S : List Nat) (b : Buf) : Decidable (Pinned S b) := inferInstanceAs (Decidable (_ ∧ _))

/-- The reference that a pin is. -/
def pin (S : List Nat) (b : Buf) : Nat := if Pinned S b then 1 else 0

theorem pin_pos {S : List Nat} {b : Buf} (h : Pinned S b) : pin S b = 1 := if_pos h

theorem pin_zero {S : List Nat} {b : Buf} (h : ¬ Pinned S b) : pin S b = 0 := if_neg h

theorem pin_le (S : List Nat) (b : Buf) : pin S b ≤ 1 := by
  unfold pin
  split <;> omega

structure Inv (S : List Nat) (s : St) : Prop where
  linked : Linked s.buf
  uniq : ∀ j < NBUF, ∀ k < NBUF, (s.buf j).dev = ROOTDEV → (s.buf k).dev = ROOTDEV →
    (s.buf j).blockno = (s.buf k).blockno → j = k
  dev : ∀ k < NBUF, (s.buf k).refcnt ≠ 0 → (s.buf k).dev = ROOTDEV
  locks : ∀ p k, (p, k) ∈ s.held ↔ k < NBUF ∧ (s.buf k).lock = some p
  once : (s.held.map Prod.snd).Nodup
  sleeps : ∀ x ∈ s.waiting, x.1 < NPROC ∧ x.2 < NBUF
  sleepers : (s.waiting.map Prod.fst).Nodup
  cached : ∀ b ∈ S, ∃ k < NBUF, (s.buf k).dev = ROOTDEV ∧ (s.buf k).blockno = b
  nodup : S.Nodup
  count : ∀ k < NBUF, (s.buf k).refcnt.toNat = refs s.held k + refs s.waiting k + pin S (s.buf k)
  unwrapped : s.wrapped = false

namespace Inv

variable {S : List Nat} {s : St}

theorem refs_held_le (h : Inv S s) (k : Nat) : refs s.held k ≤ 1 := nodup_iff_count_le_one.1 h.once k

theorem refs_waiting_le (h : Inv S s) (k : Nat) : refs s.waiting k ≤ NPROC := by
  have hsub : s.waiting.map Prod.fst ⊆ List.range NPROC := by
    intro p hp
    obtain ⟨x, hx, rfl⟩ := mem_map.1 hp
    exact mem_range.2 (h.sleeps x hx).1
  have hlen := (subperm_of_subset h.sleepers hsub).length_le
  have hc := count_le_length (l := s.waiting.map Prod.snd) (a := k)
  simp only [length_map, length_range] at hlen hc
  exact le_trans hc hlen

theorem refcnt_succ (h : Inv S s) {k : Nat} (hk : k < NBUF) :
    ((s.buf k).refcnt + 1).toNat = (s.buf k).refcnt.toNat + 1 := by
  have h1 := h.refs_held_le k
  have h2 := h.refs_waiting_le k
  have h3 := h.count k hk
  have h4 := pin_le S (s.buf k)
  rw [UInt32.toNat_add]
  simp only [NPROC] at h2
  simp only [UInt32.toNat_one]
  omega

theorem held_none (h : Inv S s) {k : Nat} (hl : (s.buf k).lock = none) : refs s.held k = 0 := by
  refine count_eq_zero.2 fun hm => ?_
  obtain ⟨⟨p, j⟩, hx, rfl⟩ := mem_map.1 hm
  rw [((h.locks p j).1 hx).2] at hl
  cases hl

theorem held_some (h : Inv S s) {p k : Nat} (hm : (p, k) ∈ s.held) : refs s.held k = 1 :=
  count_eq_one_of_mem h.once (mem_map.2 ⟨_, hm, rfl⟩)

theorem of_refcnt_zero (h : Inv S s) {k : Nat} (hk : k < NBUF) (h0 : (s.buf k).refcnt = 0) :
    refs s.held k = 0 ∧ refs s.waiting k = 0 ∧ ¬ Pinned S (s.buf k) ∧ (s.buf k).lock = none := by
  have hc := h.count k hk
  rw [h0] at hc
  have hp : ¬ Pinned S (s.buf k) := fun hp => by simp [pin_pos hp] at hc
  simp only [pin_zero hp, UInt32.toNat_zero] at hc
  refine ⟨by omega, by omega, hp, ?_⟩
  cases hl : (s.buf k).lock with
  | none => rfl
  | some p =>
    have := h.held_some ((h.locks p k).2 ⟨hk, hl⟩)
    omega

theorem refcnt_ne_zero (h : Inv S s) {k : Nat} (hk : k < NBUF)
    (hu : refs s.held k ≠ 0 ∨ refs s.waiting k ≠ 0 ∨ Pinned S (s.buf k)) : (s.buf k).refcnt ≠ 0 := by
  intro h0
  obtain ⟨h1, h2, h3, -⟩ := h.of_refcnt_zero hk h0
  rcases hu with hu | hu | hu
  · exact hu h1
  · exact hu h2
  · exact h3 hu

end Inv

theorem Linked.update {c : Nat → Buf} (h : Linked c) {k : Nat} {B : Buf} (hp : B.prev = (c k).prev)
    (hn : B.next = (c k).next) : Linked (Function.update c k B) := by
  have e1 : (fun j => (Function.update c k B j).next) = fun j => (c j).next := by
    funext j
    by_cases hj : j = k <;> simp [hj, hn]
  have e2 : (fun j => (Function.update c k B j).prev) = fun j => (c j).prev := by
    funext j
    by_cases hj : j = k <;> simp [hj, hp]
  unfold Linked
  rw [e1, e2]
  exact h

/-- Two states agree on everything `Inv` speaks of. -/
structure SameRefs (s s' : St) : Prop where
  buf : ∀ k, ∃ v d, s'.buf k = { s.buf k with valid := v, data := d }
  waiting : s'.waiting = s.waiting
  held : s'.held = s.held
  wrapped : s'.wrapped = s.wrapped

theorem Inv.congr {S : List Nat} {s s' : St} (h : Inv S s) (hs : SameRefs s s') : Inv S s' := by
  have hb := hs.buf
  have hd : ∀ k, (s'.buf k).dev = (s.buf k).dev ∧ (s'.buf k).blockno = (s.buf k).blockno ∧
      (s'.buf k).lock = (s.buf k).lock ∧ (s'.buf k).refcnt = (s.buf k).refcnt ∧
      (s'.buf k).next = (s.buf k).next ∧ (s'.buf k).prev = (s.buf k).prev := by
    intro k
    obtain ⟨v, d, he⟩ := hb k
    rw [he]
    exact ⟨rfl, rfl, rfl, rfl, rfl, rfl⟩
  have hp : ∀ k, Pinned S (s'.buf k) ↔ Pinned S (s.buf k) := fun k => by simp only [Pinned, (hd k).1, (hd k).2.1]
  constructor
  · have := h.linked
    simpa only [Linked, fun k => (hd k).2.2.2.2.1, fun k => (hd k).2.2.2.2.2] using this
  · simpa only [fun k => (hd k).1, fun k => (hd k).2.1] using h.uniq
  · simpa only [fun k => (hd k).1, fun k => (hd k).2.2.2.1] using h.dev
  · simpa only [hs.held, fun k => (hd k).2.2.1] using h.locks
  · rw [hs.held]; exact h.once
  · rw [hs.waiting]; exact h.sleeps
  · rw [hs.waiting]; exact h.sleepers
  · simpa only [fun k => (hd k).1, fun k => (hd k).2.1] using h.cached
  · exact h.nodup
  · simpa only [hs.held, hs.waiting, pin, hp, fun k => (hd k).2.2.2.1] using h.count
  · rw [hs.wrapped]; exact h.unwrapped

/-! ## Taking a buffer -/

/-- Process `p` gets the lock of buffer `k`, which now carries block `b`; `w` are the sleepers left. -/
theorem Inv.take {S : List Nat} {s : St} (h : Inv S s) {p k b : Nat} {B : Buf} {w : List (Nat × Nat)} (hk : k < NBUF)
    (hl : (s.buf k).lock = none) (hd : B.dev = ROOTDEV) (hb : B.blockno = b) (hlock : B.lock = some p)
    (hprev : B.prev = (s.buf k).prev) (hnext : B.next = (s.buf k).next)
    (huniq : ∀ j < NBUF, (s.buf j).dev = ROOTDEV → (s.buf j).blockno = b → j = k)
    (hpin : Pinned S (s.buf k) → (s.buf k).blockno = b)
    (hw : w.Sublist s.waiting) (hwr : ∀ j, j ≠ k → refs w j = refs s.waiting j)
    (hc : B.refcnt.toNat = refs w k + (if b ∈ S then 1 else 0) + 1) :
    Inv S { s with buf := update s.buf k B, waiting := w, held := (p, k) :: s.held } := by
  have hself : (update s.buf k B) k = B := update_self ..
  have hother : ∀ j, j ≠ k → (update s.buf k B) j = s.buf j := fun j hj => update_of_ne hj ..
  constructor
  · exact h.linked.update hprev hnext
  · intro i hi j hj hdi hdj he
    dsimp only at hdi hdj he
    by_cases hik : i = k <;> by_cases hjk : j = k
    · rw [hik, hjk]
    · subst hik
      rw [hself, hother j hjk] at he
      rw [hother j hjk] at hdj
      exact (huniq j hj hdj (he.symm.trans hb)).symm
    · subst hjk
      rw [hself, hother i hik] at he
      rw [hother i hik] at hdi
      exact huniq i hi hdi (he.trans hb)
    · rw [hother i hik, hother j hjk] at he
      rw [hother i hik] at hdi
      rw [hother j hjk] at hdj
      exact h.uniq i hi j hj hdi hdj he
  · intro j hj hr
    dsimp only at hr ⊢
    by_cases hjk : j = k
    · rw [hjk, hself]; exact hd
    · rw [hother j hjk] at hr ⊢; exact h.dev j hj hr
  · intro q j
    dsimp only
    rw [mem_cons]
    by_cases hjk : j = k
    · subst hjk
      have hno : (q, j) ∉ s.held := fun hm => by
        rw [((h.locks q j).1 hm).2] at hl
        cases hl
      rw [hself, hlock]
      simp [hno, hk, eq_comm]
    · rw [hother j hjk, ← h.locks q j]
      simp [hjk]
  · simp only [map_cons, nodup_cons]
    exact ⟨count_eq_zero.1 (h.held_none hl), h.once⟩
  · exact fun x hx => h.sleeps x (hw.subset hx)
  · exact h.sleepers.sublist (hw.map _)
  · intro b' hb'
    obtain ⟨j, hj, hdj, hbj⟩ := h.cached b' hb'
    dsimp only
    by_cases hjk : j = k
    · subst hjk
      exact ⟨j, hj, by rw [hself]; exact hd, by rw [hself, hb, ← hpin ⟨hdj, hbj ▸ hb'⟩, hbj]⟩
    · exact ⟨j, hj, by rw [hother j hjk]; exact hdj, by rw [hother j hjk]; exact hbj⟩
  · exact h.nodup
  · intro j hj
    dsimp only
    rw [refs_cons]
    by_cases hjk : j = k
    · subst hjk
      rw [hself, hc, h.held_none hl]
      simp only [pin, Pinned, hd, hb, true_and, if_true]
      omega
    · rw [hother j hjk, hwr j hjk, if_neg (fun he => hjk he.symm)]
      exact h.count j hj
  · exact h.unwrapped

/-! ## Counting up and down -/

theorem update_field {α : Type} (f : Buf → α) {c : Nat → Buf} {k : Nat} {B : Buf} (h : f B = f (c k)) (j : Nat) :
    f (update c k B j) = f (c j) := by
  by_cases hj : j = k
  · rw [hj, update_self, h]
  · rw [update_of_ne hj]

/-- Buffer `k` gets another count and lock, and the references are counted again. -/
theorem Inv.adjust {S S' : List Nat} {s : St} (h : Inv S s) {k : Nat} {r : UInt32} {l : Option Nat}
    {hd w : List (Nat × Nat)} (hdev : (s.buf k).dev = ROOTDEV)
    (hlocks : ∀ p j, (p, j) ∈ hd ↔ j < NBUF ∧ (if j = k then l else (s.buf j).lock) = some p)
    (honce : (hd.map Prod.snd).Nodup) (hsleeps : ∀ x ∈ w, x.1 < NPROC ∧ x.2 < NBUF)
    (hsleepers : (w.map Prod.fst).Nodup)
    (hcached : ∀ b ∈ S', ∃ j < NBUF, (s.buf j).dev = ROOTDEV ∧ (s.buf j).blockno = b) (hnodup : S'.Nodup)
    (hother : ∀ j < NBUF, j ≠ k →
      refs hd j + refs w j + pin S' (s.buf j) = refs s.held j + refs s.waiting j + pin S (s.buf j))
    (hcount : r.toNat = refs hd k + refs w k + pin S' (s.buf k)) :
    Inv S' { s with
      buf := update s.buf k { s.buf k with refcnt := r, lock := l }, waiting := w, held := hd } := by
  have hd' := update_field Buf.dev (c := s.buf) (k := k) (B := { s.buf k with refcnt := r, lock := l }) rfl
  have hb' := update_field Buf.blockno (c := s.buf) (k := k) (B := { s.buf k with refcnt := r, lock := l }) rfl
  constructor
  · exact h.linked.update rfl rfl
  · simpa only [hd', hb'] using h.uniq
  · intro j hj hr
    dsimp only at hr ⊢
    rw [hd']
    by_cases hjk : j = k
    · rw [hjk]; exact hdev
    · rw [update_of_ne hjk] at hr
      exact h.dev j hj hr
  · intro p j
    dsimp only
    rw [hlocks]
    by_cases hjk : j = k <;> simp [hjk]
  · exact honce
  · exact hsleeps
  · exact hsleepers
  · simpa only [hd', hb'] using hcached
  · exact hnodup
  · intro j hj
    dsimp only
    by_cases hjk : j = k
    · rw [hjk, update_self]; exact hcount
    · rw [update_of_ne hjk, hother j hj hjk]
      exact h.count j hj
  · exact h.unwrapped

section Adjust
variable {S : List Nat} {s : St}

theorem Inv.locks_if (h : Inv S s) (k : Nat) (p j : Nat) :
    (p, j) ∈ s.held ↔ j < NBUF ∧ (if j = k then (s.buf k).lock else (s.buf j).lock) = some p := by
  rw [h.locks]
  by_cases hjk : j = k <;> simp [hjk]

theorem Inv.sleep (h : Inv S s) {p k : Nat} (hp : Runs s p) (hk : k < NBUF) (hdev : (s.buf k).dev = ROOTDEV) :
    Inv S { s with
      buf := update s.buf k { s.buf k with refcnt := (s.buf k).refcnt + 1 }
      waiting := (p, k) :: s.waiting } := by
  refine h.adjust hdev (h.locks_if k) h.once ?_ ?_ h.cached h.nodup ?_ ?_
  · intro x hx
    rcases mem_cons.1 hx with rfl | hx
    · exact ⟨hp.1, hk⟩
    · exact h.sleeps x hx
  · rw [map_cons, nodup_cons]
    refine ⟨fun hm => ?_, h.sleepers⟩
    obtain ⟨⟨q, j⟩, hx, rfl⟩ := mem_map.1 hm
    exact hp.2 j hx
  · intro j _ hjk
    rw [refs_cons, if_neg (fun he => hjk he.symm), Nat.add_zero]
  · rw [h.refcnt_succ hk, h.count k hk, refs_cons, if_pos rfl]
    omega

theorem Inv.bpin (h : Inv S s) {k : Nat} (hk : k < NBUF) (hdev : (s.buf k).dev = ROOTDEV)
    (hb : (s.buf k).blockno ∉ S) :
    Inv (S ++ [(s.buf k).blockno]) { s with
      buf := update s.buf k { s.buf k with refcnt := (s.buf k).refcnt + 1 } } := by
  refine h.adjust hdev (h.locks_if k) h.once h.sleeps h.sleepers ?_ ?_ ?_ ?_
  · intro b hm
    rcases mem_append.1 hm with hm | hm
    · exact h.cached b hm
    · exact ⟨k, hk, hdev, (mem_singleton.1 hm).symm⟩
  · exact nodup_append.2 ⟨h.nodup, nodup_singleton _, fun a ha b hb' => by
      rw [mem_singleton.1 hb']; rintro rfl; exact hb ha⟩
  · intro j hj hjk
    have : Pinned (S ++ [(s.buf k).blockno]) (s.buf j) ↔ Pinned S (s.buf j) := by
      unfold Pinned
      rw [mem_append, mem_singleton]
      refine and_congr_right fun hdj => ⟨?_, .inl⟩
      rintro (hm | he)
      · exact hm
      · exact absurd (h.uniq j hj k hk hdj hdev he) hjk
    simp only [pin, this]
  · rw [h.refcnt_succ hk, h.count k hk, pin_zero (fun hp => hb hp.2), pin_pos ⟨hdev, by simp⟩]

theorem Inv.refcnt_pred (h : Inv S s) {k : Nat} (hk : k < NBUF) (h0 : (s.buf k).refcnt ≠ 0) :
    ((s.buf k).refcnt - 1).toNat = refs s.held k + refs s.waiting k + pin S (s.buf k) - 1 := by
  have hpos : 1 ≤ (s.buf k).refcnt := by
    rw [UInt32.le_iff_toNat_le]
    have : (s.buf k).refcnt.toNat ≠ 0 := fun he => h0 (UInt32.toNat_inj.1 (by simpa using he))
    simpa using Nat.one_le_iff_ne_zero.2 this
  rw [UInt32.toNat_sub_of_le _ _ hpos, h.count k hk]
  rfl

theorem Inv.bunpin {b : Nat} (h : Inv (b :: S) s) {k : Nat} (hk : k < NBUF) (hdev : (s.buf k).dev = ROOTDEV)
    (hb : (s.buf k).blockno = b) :
    Inv S { s with
      buf := update s.buf k { s.buf k with refcnt := (s.buf k).refcnt - 1 } } := by
  have hnb : b ∉ S := (nodup_cons.1 h.nodup).1
  have hp : Pinned (b :: S) (s.buf k) := ⟨hdev, by simp [hb]⟩
  refine h.adjust hdev (h.locks_if k) h.once h.sleeps h.sleepers ?_ (nodup_cons.1 h.nodup).2 ?_ ?_
  · exact fun b' hb' => h.cached b' (mem_cons_of_mem _ hb')
  · intro j hj hjk
    have : Pinned (b :: S) (s.buf j) ↔ Pinned S (s.buf j) := by
      unfold Pinned
      rw [mem_cons]
      refine and_congr_right fun hdj => ⟨?_, .inr⟩
      rintro (he | hm)
      · exact absurd (h.uniq j hj k hk hdj hdev (he.trans hb.symm)) hjk
      · exact hm
    simp only [pin, this]
  · rw [h.refcnt_pred hk (h.refcnt_ne_zero hk (.inr (.inr hp))), pin_pos hp, pin_zero fun hq => hnb (hb ▸ hq.2)]
    rfl

theorem Inv.release (h : Inv S s) {p k : Nat} (hm : (p, k) ∈ s.held) :
    Inv S { s with
      buf := update s.buf k { s.buf k with refcnt := (s.buf k).refcnt - 1, lock := none }
      held := s.held.erase (p, k) } := by
  obtain ⟨hk, hl⟩ := (h.locks p k).1 hm
  have hone := h.held_some hm
  have h0 : (s.buf k).refcnt ≠ 0 := h.refcnt_ne_zero hk (.inl (by omega))
  refine h.adjust (h.dev k hk h0) ?_ (h.once.sublist ((erase_sublist).map _)) h.sleeps h.sleepers
    h.cached h.nodup ?_ ?_
  · intro q j
    rw [h.once.of_map.mem_erase_iff, h.locks]
    by_cases hjk : j = k
    · subst hjk
      simp only [if_true, hl, reduceCtorEq, and_false, iff_false]
      rintro ⟨hne, -, he⟩
      cases he
      exact hne rfl
    · simp [hjk]
  · intro j _ hjk
    have := refs_erase hm j
    rw [if_neg (fun he => hjk he.symm)] at this
    omega
  · have := refs_erase hm k
    rw [if_pos rfl] at this
    rw [h.refcnt_pred hk h0]
    omega

theorem Inv.relink (h : Inv S s) {k : Nat} (hk : k < NBUF) :
    Inv S { s with buf := insertFront (unlink s.buf k) k } := by
  have hsame := (same_unlink s.buf k).trans (same_insertFront _ k)
  have hf : ∀ {α : Type} (f : Buf → α), (∀ b p n, f { b with prev := p, next := n } = f b) →
      ∀ j, f (insertFront (unlink s.buf k) k j) = f (s.buf j) := by
    intro α f hf j
    obtain ⟨p, n, hj⟩ := hsame j
    rw [hj, hf]
  have e1 := hf Buf.dev fun _ _ _ => rfl
  have e2 := hf Buf.blockno fun _ _ _ => rfl
  have e3 := hf Buf.lock fun _ _ _ => rfl
  have e4 := hf Buf.refcnt fun _ _ _ => rfl
  have e5 := hf (pin S) fun _ _ _ => rfl
  constructor
  · exact h.linked.toFront hk
  · simpa only [e1, e2] using h.uniq
  · simpa only [e1, e4] using h.dev
  · simpa only [e3] using h.locks
  · exact h.once
  · exact h.sleeps
  · exact h.sleepers
  · simpa only [e1, e2] using h.cached
  · exact h.nodup
  · simpa only [e4, e5] using h.count
  · exact h.unwrapped

end Adjust

/-! ## bio.c -/

theorem scan_ring {c : Nat → Buf} {go : Buf → Nat} {l : List Nat} (hp : Trail (fun k => go (c k)) NBUF l NBUF)
    (hl : l.Perm (List.range NBUF)) (ok : Buf → Bool) :
    (∃ k, scan c go ok (NBUF + 1) (go (c NBUF)) = some (some k) ∧ k < NBUF ∧ ok (c k) = true) ∨
      scan c go ok (NBUF + 1) (go (c NBUF)) = some none ∧ ∀ k < NBUF, ok (c k) = false := by
  have hmem : ∀ k, k ∈ l ↔ k < NBUF := fun k => by rw [hl.mem_iff, mem_range]
  have hlen : l.length = NBUF := by rw [hl.length_eq, length_range]
  rw [scan_trail c go ok hp (fun hm => Nat.lt_irrefl _ ((hmem _).1 hm)) (by omega)]
  cases hf : l.find? fun k => ok (c k) with
  | some k =>
    have hok : ok (c k) = true := by simpa using find?_some hf
    exact .inl ⟨k, rfl, (hmem k).1 (mem_of_find?_eq_some hf), hok⟩
  | none =>
    refine .inr ⟨rfl, fun k hk => ?_⟩
    simpa using find?_eq_none.1 hf k ((hmem k).2 hk)

/-- What a call on buffers leaves of `log`. -/
structure SameLog (s s' : St) : Prop where
  start : s'.start = s.start
  size : s'.size = s.size
  dev : s'.dev = s.dev
  outstanding : s'.outstanding = s.outstanding
  lh : s'.lh = s.lh

theorem SameLog.refl (s : St) : SameLog s s := ⟨rfl, rfl, rfl, rfl, rfl⟩

theorem SameLog.trans {s s' s'' : St} (h : SameLog s s') (h' : SameLog s' s'') : SameLog s s'' :=
  ⟨h'.start.trans h.start, h'.size.trans h.size, h'.dev.trans h.dev, h'.outstanding.trans h.outstanding,
    h'.lh.trans h.lh⟩

/-- `bread` by `p` of block `b` has returned buffer `k`. -/
structure Got (S : List Nat) (s : St) (p b k : Nat) (s' : St) : Prop where
  inv : Inv S s'
  log : SameLog s s'
  lt : k < NBUF
  dev : (s'.buf k).dev = ROOTDEV
  blockno : (s'.buf k).blockno = b
  held : s'.held = (p, k) :: s.held
  waiting : s'.waiting = s.waiting
  disk : s'.disk = s.disk
  others : ∀ j, j ≠ k → s'.buf j = s.buf j
  data : (s'.buf k).data = s.disk b ∨
    (s.buf k).dev = ROOTDEV ∧ (s.buf k).blockno = b ∧ (s.buf k).valid = true ∧ (s'.buf k).data = (s.buf k).data

/-- `bread` by `p` of block `b` has not returned: every buffer is in use, or somebody holds the block's. -/
structure Stuck (S : List Nat) (s : St) (p b : Nat) (e : Stop) (s' : St) : Prop where
  unwrapped : s'.wrapped = false
  log : SameLog s s'
  why : (e = .noBuffers ∧ s' = s ∧ ∀ k < NBUF, (s.buf k).refcnt ≠ 0) ∨
    e = .sleeps ∧ (Runs s p → Inv S s') ∧ ∃ q k, (q, k) ∈ s.held ∧ (s.buf k).blockno = b

section Calls
variable {S : List Nat} {s : St} {p k b : Nat}

/-- `fill` has read the contents of buffer `k` if it had none. -/
structure Filled (s : St) (p k : Nat) (s' : St) : Prop where
  same : SameRefs { s with held := (p, k) :: s.held } s'
  log : SameLog s s'
  disk : s'.disk = s.disk
  others : ∀ j, j ≠ k → s'.buf j = s.buf j
  data : (s'.buf k).data = if (s.buf k).valid then (s.buf k).data else s.disk (s.buf k).blockno

theorem fill_spec {Q : Unit → St → Prop} {E : Stop → St → Prop} (h : ∀ s', Filled s p k s' → Q () s') :
    wp (fill p k) Q E s := by
  unfold fill setBuf
  simp only [wp_bind, wp_get, wp_ite, wp_modify]
  refine ⟨fun hv => h _ ⟨⟨fun j => ?_, rfl, rfl, rfl⟩, ⟨rfl, rfl, rfl, rfl, rfl⟩, rfl, fun j hj => ?_, ?_⟩,
    fun hv => h _ ⟨⟨fun j => ⟨_, _, rfl⟩, rfl, rfl, rfl⟩, ⟨rfl, rfl, rfl, rfl, rfl⟩, rfl, fun _ _ => rfl, ?_⟩⟩
  · by_cases hj : j = k
    · exact ⟨true, s.disk (s.buf j).blockno, by simp [hj]⟩
    · exact ⟨(s.buf j).valid, (s.buf j).data, by simp [hj]⟩
  · exact update_of_ne hj ..
  · simp [hv]
  · simp only [Decidable.not_not] at hv
    simp [hv]

theorem bread_spec (h : Inv S s) : wp (bread p ROOTDEV b) (Got S s p b) (Stuck S s p b) s := by
  obtain ⟨l, hr, hl⟩ := h.linked
  unfold bread bget
  simp only [wp_bind, wp_get]
  rcases scan_ring hr.fwd hl fun x => x.dev == ROOTDEV && x.blockno == b with ⟨k, hs, hk, hok⟩ | ⟨hs, hno⟩
  · -- the block is cached
    obtain ⟨hd, hb⟩ : (s.buf k).dev = ROOTDEV ∧ (s.buf k).blockno = b := by simpa using hok
    rw [hs]
    simp only [setBuf, acquiresleep, wp_bind, wp_get, wp_ite, wp_modify, wp_set, wp_throw, wp_pure,
      update_self, update_idem]
    refine ⟨fun hl => ⟨h.unwrapped, ⟨rfl, rfl, rfl, rfl, rfl⟩, .inr ⟨rfl, fun hp => h.sleep hp hk hd, ?_⟩⟩,
      fun hl => fill_spec fun s' f => ?_⟩
    · obtain ⟨q, hq⟩ := Option.isSome_iff_exists.1 hl
      exact ⟨q, k, (h.locks q k).2 ⟨hk, hq⟩, hb⟩
    · have hlock : (s.buf k).lock = none := by simpa using hl
      have ht := h.take (p := p) (b := b) (w := s.waiting)
        (B := { s.buf k with refcnt := (s.buf k).refcnt + 1, lock := some p })
        hk hlock hd hb rfl rfl rfl
        (fun j hj hdj hbj => h.uniq j hj k hk hdj hd (hbj.trans hb.symm)) (fun _ => hb) (List.Sublist.refl _)
        (fun _ _ => rfl) (by
          rw [h.refcnt_succ hk, h.count k hk, h.held_none hlock]
          simp only [pin, Pinned, hd, hb, true_and]
          omega)
      have hdata := f.data
      obtain ⟨v, d, he⟩ := f.same.buf k
      simp only [update_self, hb] at hdata
      refine ⟨ht.congr f.same, ⟨f.log.start, f.log.size, f.log.dev, f.log.outstanding, f.log.lh⟩, hk,
        by rw [he]; simpa using hd, by rw [he]; simpa using hb, f.same.held, f.same.waiting, f.disk,
        fun j hj => (f.others j hj).trans (update_of_ne hj ..), ?_⟩
      by_cases hv : (s.buf k).valid = true
      · exact .inr ⟨hd, hb, hv, hdata.trans (if_pos hv)⟩
      · exact .inl (hdata.trans (if_neg hv))
  · rw [hs]
    have hnob : ∀ j < NBUF, (s.buf j).dev = ROOTDEV → (s.buf j).blockno ≠ b := by
      intro j hj hdj hbj
      have := hno j hj
      simp [hdj, hbj] at this
    rcases scan_ring hr.bwd (l.reverse_perm.trans hl) fun x => x.refcnt == 0 with ⟨k, hs, hk, hok⟩ | ⟨hs, hfull⟩
    · -- a free buffer is recycled
      obtain ⟨-, hw0, hnp, hlock⟩ := h.of_refcnt_zero hk (by simpa using hok)
      have hbS : b ∉ S := fun hb => by
        obtain ⟨j, hj, hdj, hbj⟩ := h.cached b hb
        exact hnob j hj hdj hbj
      simp only [hs, setBuf, acquiresleep, wp_bind, wp_get, wp_ite, wp_modify, wp_set, wp_throw, wp_pure,
        update_self, update_idem, hlock, Option.isSome_none]
      refine ⟨fun hf => absurd hf (by simp), fun _ => fill_spec fun s' f => ?_⟩
      have ht := h.take (p := p) (b := b) (w := s.waiting)
        (B := { s.buf k with dev := ROOTDEV, blockno := b, valid := false, refcnt := 1, lock := some p })
        hk hlock rfl rfl rfl rfl rfl (fun j hj hdj hbj => absurd hbj (hnob j hj hdj)) (fun hp => absurd hp hnp)
        (List.Sublist.refl _) (fun _ _ => rfl) (by simp [hw0, hbS])
      have hdata := f.data
      obtain ⟨v, d, he⟩ := f.same.buf k
      refine ⟨ht.congr f.same, ⟨f.log.start, f.log.size, f.log.dev, f.log.outstanding, f.log.lh⟩, hk,
        by rw [he]; simp, by rw [he]; simp, f.same.held, f.same.waiting, f.disk,
        fun j hj => (f.others j hj).trans (update_of_ne hj ..), .inl ?_⟩
      simpa using hdata
    · simp only [hs, wp_throw]
      exact ⟨h.unwrapped, .refl s, .inl ⟨rfl, rfl, fun k hk he => by simpa [he] using hfull k hk⟩⟩

/-! ### Room in the cache -/

/-- The pins and the holders use at most one buffer each. -/
theorem Inv.exists_free (h : Inv S s) (hw : s.waiting = []) (hroom : S.length + s.held.length < NBUF) :
    ∃ k < NBUF, (s.buf k).refcnt = 0 := by
  by_contra hfull
  push Not at hfull
  choose! f hf using h.cached
  have hsub : List.range NBUF ⊆ s.held.map Prod.snd ++ S.map f := by
    intro k hk
    rw [mem_range] at hk
    have hc := h.count k hk
    rw [hw, refs_nil] at hc
    by_cases hp : Pinned S (s.buf k)
    · obtain ⟨hlt, hdev, hb⟩ := hf _ hp.2
      have hfk : f (s.buf k).blockno = k := h.uniq _ hlt k hk hdev hp.1 hb
      exact mem_append_right _ (mem_map.2 ⟨_, hp.2, hfk⟩)
    · rw [pin_zero hp] at hc
      have hne : refs s.held k ≠ 0 := fun h0 => hfull k hk (UInt32.toNat_inj.1 (by simp [hc, h0]))
      exact mem_append_left _ (count_pos_iff.1 (Nat.pos_of_ne_zero hne))
  have hlen := (subperm_of_subset nodup_range hsub).length_le
  simp only [length_range, length_append, length_map] at hlen
  omega

theorem Inv.all_pinned (h : Inv S s) (hfull : NBUF ≤ S.length) {k : Nat} (hk : k < NBUF) : (s.buf k).blockno ∈ S := by
  choose! f hf using h.cached
  have hinj : ∀ b ∈ S, ∀ c ∈ S, f b = f c → b = c := by
    intro b hb c hc he
    rw [← (hf b hb).2.2, ← (hf c hc).2.2, he]
  have hnodup : (S.map f).Nodup := h.nodup.map_on hinj
  have hsub : S.map f ⊆ List.range NBUF := by
    intro j hj
    obtain ⟨b, hb, rfl⟩ := mem_map.1 hj
    exact mem_range.2 (hf b hb).1
  have hperm : (S.map f).Perm (List.range NBUF) :=
    (subperm_of_subset hnodup hsub).perm_of_length_le (by simpa using hfull)
  obtain ⟨b, hb, rfl⟩ := mem_map.1 (hperm.mem_iff.2 (mem_range.2 hk))
  rw [(hf b hb).2.2]
  exact hb

theorem bread_cached (h : Inv S s) (hk : k < NBUF) (hd : (s.buf k).dev = ROOTDEV) (hb : (s.buf k).blockno = b) :
    wp (bread p ROOTDEV b) (fun _ _ => True) (fun e _ => e ≠ .noBuffers) s := by
  obtain ⟨l, hr, hl⟩ := h.linked
  unfold bread bget
  simp only [wp_bind, wp_get]
  rcases scan_ring hr.fwd hl fun x => x.dev == ROOTDEV && x.blockno == b with ⟨j, hs, -, -⟩ | ⟨-, hno⟩
  · rw [hs]
    simp only [setBuf, acquiresleep, wp_bind, wp_get, wp_ite, wp_modify, wp_set, wp_throw, wp_pure]
    exact ⟨fun _ => by decide, fun _ => fill_spec fun _ _ => trivial⟩
  · have := hno k hk
    simp [hd, hb] at this

/-- A read returns if nobody holds the block and there is a buffer for it: one with the block, or a free one. -/
theorem bread_room (h : Inv S s) (hw : s.waiting = []) (hb : ∀ q k, (q, k) ∈ s.held → (s.buf k).blockno ≠ b)
    (hroom : b ∈ S ∨ S.length + s.held.length < NBUF) :
    wp (bread p ROOTDEV b) (Got S s p b) (fun _ _ => False) s := by
  rcases hroom with hm | hlen
  · obtain ⟨k, hk, hd, hbk⟩ := h.cached b hm
    refine ((bread_spec h).and (bread_cached h hk hd hbk)).mono (fun _ _ g => g.1) fun e s' ⟨st, hne⟩ => ?_
    rcases st.why with ⟨he, -, -⟩ | ⟨-, -, q, j, hm, hbj⟩
    · exact hne he
    · exact hb q j hm hbj
  · obtain ⟨k, hk, h0⟩ := h.exists_free hw hlen
    refine (bread_spec h).mono (fun _ _ g => g) fun e s' st => ?_
    rcases st.why with ⟨-, -, hfull⟩ | ⟨-, -, q, j, hm, hbj⟩
    · exact hfull k hk h0
    · exact hb q j hm hbj

theorem bread_full (h : Inv S s) (hfull : NBUF ≤ S.length) (hb : b ∉ S) :
    wp (bread p ROOTDEV b) (fun _ _ => False) (fun e s' => e = .noBuffers ∧ s' = s) s := by
  refine (bread_spec h).mono (fun k s' g => ?_) fun e s' st => ?_
  · exact hb (g.blockno ▸ g.inv.all_pinned hfull g.lt)
  · rcases st.why with ⟨he, hs, -⟩ | ⟨-, -, q, k, hm, hbk⟩
    · exact ⟨he, hs⟩
    · have hk := ((h.locks q k).1 hm).1
      exact absurd (hbk ▸ h.all_pinned hfull hk) hb

end Calls

end Xv6.Bio
