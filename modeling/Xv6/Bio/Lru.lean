import Xv6.Bio.Boot
/-!
# A transparent LRU cache

What `bio.c` gives to callers that follow its interface, whatever they use it
for: any devices, any number of pins. `Cache` is the kernel's state with a
record of the calls: what has been placed in each block, which buffers hold
something that is not on the disk yet, who has pinned what, and when a buffer
last lost its last reference by `brelse`.

The driver reads and writes `b->blockno` of the one disk, whatever `b->dev` is.
-/

namespace Xv6.Bio.Lru

open Bytes Hoare Links Log Run Function List

structure Cache where
  s : St
  /-- What was last placed in a block, by device and block number. -/
  content : Nat → Nat → Block
  /-- Modified and not written since. -/
  dirty : Nat → Bool
  pins : Nat → Nat
  /-- When `brelse` last took the last reference to a buffer. -/
  last : Nat → Option Nat
  now : Nat
  /-- What a process last asked `bread` for. -/
  want : Nat → Nat × Nat
  used : List (Nat × Nat)

inductive Op where
  | bread (p dev blockno : Nat)
  /-- A `bread` that went to sleep returns. -/
  | wake (p k : Nat)
  | write (p k : Nat) (data : Block)
  | bwrite (p k : Nat)
  | brelse (p k : Nat)
  | bpin (k : Nat)
  | bunpin (k : Nat)

def perform : Op → M Unit
  | .bread p dev b => do
    let _ ← bread p dev b
    return ()
  | .wake p k => wake p k
  | .write _ k data => setBuf k fun b => { b with data }
  | .bwrite p k => bwrite p k
  | .brelse p k => brelse p k
  | .bpin k => bpin k
  | .bunpin k => bunpin k

/-- The interface. A buffer that is dirty and not locked has a pin. -/
def Follows (c : Cache) : Op → Prop
  | .bread p dev _ => 1 ≤ dev ∧ ∀ k, (p, k) ∉ c.s.waiting
  | .wake p k => (p, k) ∈ c.s.waiting ∧ (c.s.buf k).lock = none
  | .write p k _ | .bwrite p k => (p, k) ∈ c.s.held
  | .brelse p k => (p, k) ∈ c.s.held ∧ (c.dirty k = true → 0 < c.pins k)
  | .bpin k => k < NBUF
  | .bunpin k => k < NBUF ∧ 0 < c.pins k ∧ (c.dirty k = true → (c.s.buf k).lock.isSome ∨ 1 < c.pins k)

/-- What is recorded of a call that leaves the kernel in `s'`. -/
def Cache.after (c : Cache) (s' : St) : Op → Cache
  | .bread p dev b => { c with s := s', want := update c.want p (dev, b), used := (dev, b) :: c.used }
  | .wake _ _ => { c with s := s' }
  | .write _ k data => { c with
      s := s'
      content := fun d b => if d = (c.s.buf k).dev ∧ b = (c.s.buf k).blockno then data else c.content d b
      dirty := update c.dirty k true }
  | .bwrite _ k => { c with s := s', dirty := update c.dirty k false }
  | .brelse _ k =>
    if (s'.buf k).refcnt = 0 then { c with s := s', last := update c.last k (some c.now), now := c.now + 1 }
    else { c with s := s' }
  | .bpin k => { c with s := s', pins := update c.pins k (c.pins k + 1) }
  | .bunpin k => { c with s := s', pins := update c.pins k (c.pins k - 1) }

/-- A call that follows the interface returns, or it is a `bread` that goes to sleep. -/
def Step (c : Cache) (o : Op) (c' : Cache) : Prop :=
  Follows c o ∧ ∃ s', c' = c.after s' o ∧ (exec (perform o) c.s = (.ok (), s') ∨
    (∃ p dev b, o = .bread p dev b) ∧ exec (perform o) c.s = (.error .sleeps, s'))

structure Init (c : Cache) : Prop where
  boot : ∃ disk, c.s = boot disk
  content : ∀ d b, c.content d b = c.s.disk b
  dirty : ∀ k, c.dirty k = false
  pins : ∀ k, c.pins k = 0
  last : ∀ k, c.last k = none
  used : c.used = []

/-- No block number is used with two devices, and no reference count is incremented at its maximum. -/
def Fits (c : Cache) : Op → Prop
  | .bread _ dev b => (∀ d, (d, b) ∈ c.used → d = dev) ∧
      ∀ k < NBUF, (c.s.buf k).dev = dev → (c.s.buf k).blockno = b → (c.s.buf k).refcnt.toNat + 1 < 2 ^ 32
  | .bpin k => (c.s.buf k).refcnt.toNat + 1 < 2 ^ 32
  | _ => True

/-- Released before, or never. -/
def Before : Option Nat → Option Nat → Prop
  | none, _ => True
  | some m, some n => m < n
  | some _, none => False

/-! ## The invariant -/

structure BufOk (c : Cache) (k : Nat) : Prop where
  count : (c.s.buf k).refcnt.toNat = refs c.s.held k + refs c.s.waiting k + c.pins k
  asked : 1 ≤ (c.s.buf k).dev → ((c.s.buf k).dev, (c.s.buf k).blockno) ∈ c.used
  valid : (c.s.buf k).valid = true →
    1 ≤ (c.s.buf k).dev ∧ (c.s.buf k).data = c.content (c.s.buf k).dev (c.s.buf k).blockno
  clean : (c.s.buf k).valid = true → c.dirty k = false → c.s.disk (c.s.buf k).blockno = (c.s.buf k).data
  dirty : c.dirty k = true → (c.s.buf k).valid = true ∧ ((c.s.buf k).lock.isSome ∨ 0 < c.pins k)
  held : ∀ p, (p, k) ∈ c.s.held ↔ (c.s.buf k).lock = some p
  locked : (c.s.buf k).lock.isSome → (c.s.buf k).valid = true

structure Ok (c : Cache) : Prop where
  ring : ∃ l, LinkRing (fun k => (c.s.buf k).next) (fun k => (c.s.buf k).prev) NBUF l ∧ l.Perm (List.range NBUF) ∧
    l.Pairwise fun a b => Before (c.last b) (c.last a)
  past : ∀ k t, c.last k = some t → t < c.now
  uniq : ∀ j < NBUF, ∀ k < NBUF, 1 ≤ (c.s.buf j).dev → (c.s.buf j).dev = (c.s.buf k).dev →
    (c.s.buf j).blockno = (c.s.buf k).blockno → j = k
  buf : ∀ k < NBUF, BufOk c k
  once : (c.s.held.map Prod.snd).Nodup
  lt : ∀ x ∈ c.s.held, x.2 < NBUF
  sleeps : ∀ x ∈ c.s.waiting, x.2 < NBUF ∧ 1 ≤ (c.s.buf x.2).dev ∧
    ((c.s.buf x.2).dev, (c.s.buf x.2).blockno) = c.want x.1
  known : ∀ d d' b, (d, b) ∈ c.used → (d', b) ∈ c.used → d = d'
  rest : ∀ d b, (∀ d', (d', b) ∈ c.used → d' = d) →
    (∀ k < NBUF, (c.s.buf k).dev = d → (c.s.buf k).blockno = b → (c.s.buf k).valid = false) →
    c.s.disk b = c.content d b

section Facts
variable {c c' : Cache} {k : Nat}

theorem BufOk.keep (h : BufOk c k) (hb : c'.s.buf k = c.s.buf k) (hh : ∀ p, (p, k) ∈ c'.s.held ↔ (p, k) ∈ c.s.held)
    (hrefs : refs c'.s.held k + refs c'.s.waiting k + c'.pins k = refs c.s.held k + refs c.s.waiting k + c.pins k)
    (hp : 0 < c.pins k → 0 < c'.pins k) (hd : c'.dirty k = c.dirty k)
    (hdisk : c'.s.disk (c.s.buf k).blockno = c.s.disk (c.s.buf k).blockno)
    (hc : c'.content (c.s.buf k).dev (c.s.buf k).blockno = c.content (c.s.buf k).dev (c.s.buf k).blockno)
    (hu : ∀ x ∈ c.used, x ∈ c'.used) : BufOk c' k := by
  constructor
  · rw [hb, hrefs]
    exact h.count
  · rw [hb]
    exact fun h1 => hu _ (h.asked h1)
  · rw [hb, hc]
    exact h.valid
  · rw [hb, hd, hdisk]
    exact h.clean
  · rw [hb, hd]
    exact fun h1 => ⟨(h.dirty h1).1, (h.dirty h1).2.imp_right hp⟩
  · intro p
    rw [hb, hh]
    exact h.held p
  · rw [hb]
    exact h.locked

theorem Ok.lock_of_held (h : Ok c) {p : Nat} (hm : (p, k) ∈ c.s.held) : k < NBUF ∧ (c.s.buf k).lock = some p :=
  ⟨h.lt _ hm, ((h.buf k (h.lt _ hm)).held p).1 hm⟩

theorem Ok.held_none (h : Ok c) (hk : k < NBUF) (hl : (c.s.buf k).lock = none) : refs c.s.held k = 0 := by
  refine count_eq_zero.2 fun hm => ?_
  obtain ⟨⟨p, j⟩, hx, rfl⟩ := mem_map.1 hm
  rw [((h.buf j hk).held p).1 hx] at hl
  cases hl

theorem Ok.held_some (h : Ok c) {p : Nat} (hm : (p, k) ∈ c.s.held) : refs c.s.held k = 1 :=
  count_eq_one_of_mem h.once (mem_map.2 ⟨_, hm, rfl⟩)

theorem Ok.of_refcnt_zero (h : Ok c) (hk : k < NBUF) (h0 : (c.s.buf k).refcnt = 0) :
    refs c.s.held k = 0 ∧ refs c.s.waiting k = 0 ∧ c.pins k = 0 ∧ (c.s.buf k).lock = none ∧ c.dirty k = false := by
  have hc := (h.buf k hk).count
  rw [h0, UInt32.toNat_zero] at hc
  have hl : (c.s.buf k).lock = none := by
    cases hl : (c.s.buf k).lock with
    | none => rfl
    | some p =>
      have := h.held_some (((h.buf k hk).held p).2 hl)
      omega
  refine ⟨by omega, by omega, by omega, hl, ?_⟩
  by_contra hd
  rcases ((h.buf k hk).dirty (by simpa using hd)).2 with hs | hp
  · rw [hl] at hs
    cases hs
  · omega

theorem refcnt_succ {r : UInt32} (h : r.toNat + 1 < 2 ^ 32) : (r + 1).toNat = r.toNat + 1 := by
  rw [UInt32.toNat_add, UInt32.toNat_one]
  exact Nat.mod_eq_of_lt h

theorem refcnt_pred {r : UInt32} (h : 0 < r.toNat) : (r - 1).toNat = r.toNat - 1 := by
  rw [UInt32.toNat_sub_of_le _ _ (by rw [UInt32.le_iff_toNat_le]; exact h)]
  rfl

theorem ring_update {s : Nat → Buf} {l : List Nat} {B : Buf} (hp : B.prev = (s k).prev) (hn : B.next = (s k).next)
    (h : LinkRing (fun k => (s k).next) (fun k => (s k).prev) NBUF l) :
    LinkRing (fun j => (update s k B j).next) (fun j => (update s k B j).prev) NBUF l := by
  simpa only [update_field Buf.next hn, update_field Buf.prev hp] using h

end Facts

/-! ## Taking a buffer -/

section Moves
variable {c : Cache} {p k dev b : Nat}

theorem Ok.ask (h : Ok c) (hp : ∀ k, (p, k) ∉ c.s.waiting) (hu : ∀ d, (d, b) ∈ c.used → d = dev) :
    Ok { c with want := update c.want p (dev, b), used := (dev, b) :: c.used } := by
  refine { h with
    buf := fun j hj => (h.buf j hj).keep rfl (fun _ => Iff.rfl) rfl id rfl rfl rfl fun x => mem_cons_of_mem _
    sleeps := fun x hx => ?_
    known := fun d d' e hd hd' => ?_
    rest := fun d e hd => h.rest d e fun d' hd' => hd d' (mem_cons_of_mem _ hd') }
  · have hne : x.1 ≠ p := fun he => hp x.2 (he ▸ hx)
    dsimp only
    rw [update_of_ne hne]
    exact h.sleeps x hx
  · rcases mem_cons.1 hd with he | hd <;> rcases mem_cons.1 hd' with he' | hd'
    · cases he
      cases he'
      rfl
    · cases he
      exact (hu d' hd').symm
    · cases he'
      exact hu d hd
    · exact h.known d d' e hd hd'

/-- `bget` finds the block, and counts the caller among those who wait for the buffer. -/
theorem Ok.join (h : Ok c) (hk : k < NBUF) (hdev : 1 ≤ (c.s.buf k).dev)
    (hw : ((c.s.buf k).dev, (c.s.buf k).blockno) = c.want p) (hlt : (c.s.buf k).refcnt.toNat + 1 < 2 ^ 32) :
    Ok { c with s := { c.s with
      buf := update c.s.buf k { c.s.buf k with refcnt := (c.s.buf k).refcnt + 1 }
      waiting := (p, k) :: c.s.waiting } } := by
  have hd := update_field Buf.dev (c := c.s.buf) (k := k) (B := { c.s.buf k with refcnt := (c.s.buf k).refcnt + 1 }) rfl
  have hb := update_field Buf.blockno (c := c.s.buf) (k := k)
    (B := { c.s.buf k with refcnt := (c.s.buf k).refcnt + 1 }) rfl
  have hv := update_field Buf.valid (c := c.s.buf) (k := k)
    (B := { c.s.buf k with refcnt := (c.s.buf k).refcnt + 1 }) rfl
  obtain ⟨l, hr, hl, hord⟩ := h.ring
  refine { h with
    ring := ⟨l, ring_update rfl rfl hr, hl, hord⟩
    uniq := by simpa only [hd, hb] using h.uniq
    buf := fun j hj => ?_
    sleeps := fun x hx => ?_
    rest := by simpa only [hd, hb, hv] using h.rest }
  · by_cases e : j = k
    · subst e
      have ho := h.buf j hj
      constructor
      · dsimp only
        rw [update_self, refcnt_succ hlt, ho.count, refs_cons, if_pos rfl]
        omega
      all_goals dsimp only; rw [update_self]
      · exact ho.asked
      · exact ho.valid
      · exact ho.clean
      · exact ho.dirty
      · exact ho.held
      · exact ho.locked
    · refine (h.buf j hj).keep (update_of_ne e _ _) (fun _ => Iff.rfl) ?_ id rfl rfl rfl fun _ => id
      dsimp only
      rw [refs_cons, if_neg (Ne.symm e), Nat.add_zero]
  · dsimp only
    rw [hd, hb]
    rcases mem_cons.1 hx with rfl | hx
    · exact ⟨hk, hdev, hw⟩
    · exact h.sleeps x hx

/-- `bget` recycles a buffer, and counts the caller among those who wait for it. -/
theorem Ok.recycle (h : Ok c) (hk : k < NBUF) (h0 : (c.s.buf k).refcnt = 0) (hdev : 1 ≤ dev)
    (hw : c.want p = (dev, b)) (hu : (dev, b) ∈ c.used)
    (hno : ∀ j < NBUF, (c.s.buf j).dev = dev → (c.s.buf j).blockno ≠ b) :
    Ok { c with s := { c.s with
      buf := update c.s.buf k { c.s.buf k with dev := dev, blockno := b, valid := false, refcnt := 1 }
      waiting := (p, k) :: c.s.waiting } } := by
  obtain ⟨hheld, hwait, hpins, hlock, hclean⟩ := h.of_refcnt_zero hk h0
  obtain ⟨l, hr, hl, hord⟩ := h.ring
  refine { h with
    ring := ⟨l, ring_update rfl rfl hr, hl, hord⟩
    uniq := fun i hi j hj => ?_
    buf := fun j hj => ?_
    sleeps := fun x hx => ?_
    rest := fun d e hd hno' => ?_ }
  · dsimp only
    by_cases ei : i = k <;> by_cases ej : j = k
    · exact fun _ _ _ => ei.trans ej.symm
    · subst ei
      rw [update_self, update_of_ne ej]
      exact fun _ h1 h2 => absurd h2.symm (hno j hj h1.symm)
    · subst ej
      rw [update_self, update_of_ne ei]
      exact fun _ h1 h2 => absurd h2 (hno i hi h1)
    · rw [update_of_ne ei, update_of_ne ej]
      exact h.uniq i hi j hj
  · by_cases e : j = k
    · subst e
      have ho := h.buf j hj
      constructor
      · dsimp only
        rw [update_self, refs_cons, if_pos rfl, hheld, hwait, hpins]
        rfl
      all_goals dsimp only; rw [update_self]
      · exact fun _ => hu
      · exact fun hv => by cases hv
      · exact fun hv => by cases hv
      · intro hd
        rw [hclean] at hd
        cases hd
      · exact ho.held
      · intro hs
        rw [show ({ c.s.buf j with dev := dev, blockno := b, valid := false, refcnt := 1 } : Buf).lock = none from hlock]
          at hs
        cases hs
    · refine (h.buf j hj).keep (update_of_ne e _ _) (fun _ => Iff.rfl) ?_ id rfl rfl rfl fun _ => id
      dsimp only
      rw [refs_cons, if_neg (Ne.symm e), Nat.add_zero]
  · dsimp only
    rcases mem_cons.1 hx with rfl | hx
    · rw [update_self]
      exact ⟨hk, hdev, hw.symm⟩
    · have hne : x.2 ≠ k := by
        intro he
        refine absurd hwait (Nat.ne_of_gt (count_pos_iff.2 ?_))
        exact mem_map.2 ⟨x, hx, he⟩
      rw [update_of_ne hne]
      exact h.sleeps x hx
  · dsimp only at hno'
    by_cases hck : (c.s.buf k).dev = d ∧ (c.s.buf k).blockno = e ∧ (c.s.buf k).valid = true
    · -- what is dropped from the cache is on the disk
      obtain ⟨rfl, rfl, hv⟩ := hck
      exact ((h.buf k hk).clean hv hclean).trans ((h.buf k hk).valid hv).2
    · refine h.rest d e hd fun j hj h1 h2 => ?_
      by_cases ej : j = k
      · subst ej
        by_contra hv
        exact hck ⟨h1, h2, by simpa using hv⟩
      · have := hno' j hj
        rw [update_of_ne ej] at this
        exact this h1 h2

theorem Ok.enter (h : Ok c) (hm : (p, k) ∈ c.s.waiting) (hlock : (c.s.buf k).lock = none) :
    Ok { c with s := { c.s with
      buf := update c.s.buf k { c.s.buf k with
        lock := some p
        data := if (c.s.buf k).valid then (c.s.buf k).data else c.s.disk (c.s.buf k).blockno
        valid := true }
      waiting := c.s.waiting.erase (p, k)
      held := (p, k) :: c.s.held } } := by
  obtain ⟨hk, hdev, -⟩ := h.sleeps _ hm
  have ho := h.buf k hk
  obtain ⟨l, hr, hl, hord⟩ := h.ring
  generalize hB : ({ c.s.buf k with
    lock := some p
    data := if (c.s.buf k).valid then (c.s.buf k).data else c.s.disk (c.s.buf k).blockno
    valid := true } : Buf) = B
  have hd : B.dev = (c.s.buf k).dev := by rw [← hB]
  have hb : B.blockno = (c.s.buf k).blockno := by rw [← hB]
  have hdata : B.data = c.content (c.s.buf k).dev (c.s.buf k).blockno := by
    rw [← hB]
    dsimp only
    split
    · next hv => exact (ho.valid hv).2
    · next hv =>
      refine h.rest _ _ (fun d' hd' => h.known _ _ _ hd' (ho.asked hdev)) fun j hj h1 h2 => ?_
      rw [h.uniq j hj k hk (h1 ▸ hdev) h1 h2]
      simpa using hv
  have hdisk : c.dirty k = false → c.s.disk (c.s.buf k).blockno = B.data := by
    intro hc
    rw [← hB]
    dsimp only
    split
    · next hv => exact ho.clean hv hc
    · rfl
  have hd' := update_field Buf.dev (c := c.s.buf) hd
  have hb' := update_field Buf.blockno (c := c.s.buf) hb
  refine { h with
    ring := ⟨l, ring_update (by rw [← hB]) (by rw [← hB]) hr, hl, hord⟩
    uniq := by simpa only [hd', hb'] using h.uniq
    buf := fun j hj => ?_
    once := ?_
    lt := fun x hx => ?_
    sleeps := fun x hx => ?_
    rest := fun d e hu hno => h.rest d e hu fun j hj h1 h2 => ?_ }
  · by_cases e : j = k
    · subst e
      constructor
      · have h1 := refs_erase hm j
        rw [if_pos rfl] at h1
        dsimp only
        rw [update_self, refs_cons, if_pos rfl, ← hB, ho.count, h1]
        omega
      all_goals dsimp only; rw [update_self]
      · rw [hd, hb]
        exact ho.asked
      · rw [hd, hb]
        exact fun _ => ⟨hdev, hdata⟩
      · rw [hb]
        exact fun _ => hdisk
      · rw [← hB]
        exact fun _ => ⟨rfl, .inl rfl⟩
      · intro q
        rw [← hB, mem_cons, ho.held q, hlock]
        simp [eq_comm]
      · rw [← hB]
        exact fun _ => rfl
    · refine (h.buf j hj).keep (update_of_ne e _ _) (fun q => ?_) ?_ id rfl rfl rfl fun _ => id
      · simp [e]
      · have h1 := refs_erase hm j
        rw [if_neg (Ne.symm e)] at h1
        dsimp only
        rw [refs_cons, if_neg (Ne.symm e), h1]
        rfl
  · rw [map_cons, nodup_cons]
    exact ⟨count_eq_zero.1 (h.held_none hk hlock), h.once⟩
  · rcases mem_cons.1 hx with rfl | hx
    · exact hk
    · exact h.lt x hx
  · dsimp only
    rw [hd', hb']
    exact h.sleeps x (mem_of_mem_erase hx)
  · have := hno j hj
    dsimp only at this
    rw [hd', hb'] at this
    have hv := this h1 h2
    by_cases e : j = k
    · rw [e, update_self, ← hB] at hv
      cases hv
    · rwa [update_of_ne e] at hv

end Moves

/-! ## Using it and giving it back -/

section Use
variable {c : Cache} {p k : Nat}

theorem Ok.write (h : Ok c) (hm : (p, k) ∈ c.s.held) (data : Block) :
    Ok (c.after { c.s with buf := update c.s.buf k { c.s.buf k with data := data } } (.write p k data)) := by
  obtain ⟨hk, hlock⟩ := h.lock_of_held hm
  have hv := (h.buf k hk).locked (by rw [hlock]; rfl)
  have hdev := ((h.buf k hk).valid hv).1
  have hd := update_field Buf.dev (c := c.s.buf) (k := k) (B := { c.s.buf k with data := data }) rfl
  have hb := update_field Buf.blockno (c := c.s.buf) (k := k) (B := { c.s.buf k with data := data }) rfl
  have hv' := update_field Buf.valid (c := c.s.buf) (k := k) (B := { c.s.buf k with data := data }) rfl
  obtain ⟨l, hr, hl, hord⟩ := h.ring
  refine { h with
    ring := ⟨l, ring_update rfl rfl hr, hl, hord⟩
    uniq := by simpa only [Cache.after, hd, hb] using h.uniq
    buf := fun j hj => ?_
    sleeps := by simpa only [Cache.after, hd, hb] using h.sleeps
    rest := fun d e hu hno => ?_ }
  · by_cases e : j = k
    · subst e
      have ho := h.buf j hj
      constructor
      all_goals dsimp only [Cache.after]; rw [update_self]
      · exact ho.count
      · exact ho.asked
      · exact fun _ => ⟨hdev, (if_pos ⟨rfl, rfl⟩).symm⟩
      · rw [update_self]
        exact fun _ hf => by cases hf
      · rw [update_self]
        exact fun _ => ⟨hv, .inl (by rw [hlock]; rfl)⟩
      · exact ho.held
      · exact ho.locked
    · refine (h.buf j hj).keep (update_of_ne e _ _) (fun _ => Iff.rfl) rfl id (update_of_ne e _ _) rfl
        (if_neg ?_) fun _ => id
      rintro ⟨h1, h2⟩
      exact e (h.uniq j hj k hk (h1 ▸ hdev) h1 h2)
  · simp only [Cache.after, hd, hb, hv'] at hno ⊢
    rw [if_neg]
    · exact h.rest d e hu hno
    · rintro ⟨rfl, rfl⟩
      have := hno k hk rfl rfl
      rw [hv] at this
      cases this

theorem Ok.bwrite (h : Ok c) (hm : (p, k) ∈ c.s.held) :
    Ok (c.after { c.s with disk := update c.s.disk (c.s.buf k).blockno (c.s.buf k).data } (.bwrite p k)) := by
  obtain ⟨hk, hlock⟩ := h.lock_of_held hm
  have ho := h.buf k hk
  have hv := ho.locked (by rw [hlock]; rfl)
  have hdev := (ho.valid hv).1
  refine { h with
    buf := fun j hj => ?_
    rest := fun d e hu hno => ?_ }
  · by_cases e : j = k
    · subst e
      refine ⟨ho.count, ho.asked, ho.valid, fun _ _ => update_self .., fun hd => ?_, ho.held, ho.locked⟩
      dsimp only [Cache.after] at hd
      rw [update_self] at hd
      cases hd
    · by_cases hv' : (c.s.buf j).valid = true
      · -- another buffer has another block number, for it has the same device if the numbers are the same
        have hne : (c.s.buf j).blockno ≠ (c.s.buf k).blockno := by
          intro he
          have hj1 := ((h.buf j hj).valid hv').1
          have ha := (h.buf j hj).asked hj1
          rw [he] at ha
          exact e (h.uniq j hj k hk hj1 (h.known _ _ _ ha (ho.asked hdev)) he)
        exact (h.buf j hj).keep rfl (fun _ => Iff.rfl) rfl id (update_of_ne e _ _)
          (update_of_ne hne _ _) rfl fun _ => id
      · have hj := h.buf j hj
        refine ⟨hj.count, hj.asked, hj.valid, fun hv => absurd hv hv', fun hd => ?_, hj.held, hj.locked⟩
        dsimp only [Cache.after] at hd
        rw [update_of_ne e] at hd
        exact hj.dirty hd
  · dsimp only [Cache.after]
    have hne : e ≠ (c.s.buf k).blockno := by
      rintro rfl
      have hv' : (c.s.buf k).valid = false := hno k hk (hu _ (ho.asked hdev)) rfl
      rw [hv] at hv'
      cases hv'
    rw [update_of_ne hne]
    exact h.rest d e hu hno

theorem Ok.recount (h : Ok c) (hk : k < NBUF) {r : UInt32} {n : Nat}
    (hr : r.toNat = refs c.s.held k + refs c.s.waiting k + n)
    (hd : c.dirty k = true → (c.s.buf k).lock.isSome ∨ 0 < n) :
    Ok { c with
      s := { c.s with buf := update c.s.buf k { c.s.buf k with refcnt := r } }
      pins := update c.pins k n } := by
  have hd' := update_field Buf.dev (c := c.s.buf) (k := k) (B := { c.s.buf k with refcnt := r }) rfl
  have hb := update_field Buf.blockno (c := c.s.buf) (k := k) (B := { c.s.buf k with refcnt := r }) rfl
  have hv := update_field Buf.valid (c := c.s.buf) (k := k) (B := { c.s.buf k with refcnt := r }) rfl
  obtain ⟨l, hring, hl, hord⟩ := h.ring
  refine { h with
    ring := ⟨l, ring_update rfl rfl hring, hl, hord⟩
    uniq := by simpa only [hd', hb] using h.uniq
    buf := fun j hj => ?_
    sleeps := by simpa only [hd', hb] using h.sleeps
    rest := by simpa only [hd', hb, hv] using h.rest }
  by_cases e : j = k
  · subst e
    have ho := h.buf j hj
    constructor
    all_goals dsimp only; rw [update_self]
    · rw [update_self]
      exact hr
    · exact ho.asked
    · exact ho.valid
    · exact ho.clean
    · rw [update_self]
      exact fun h1 => ⟨(ho.dirty h1).1, hd h1⟩
    · exact ho.held
    · exact ho.locked
  · refine (h.buf j hj).keep (update_of_ne e _ _) (fun _ => Iff.rfl) ?_ (fun hp => ?_) rfl rfl rfl fun _ => id
    · dsimp only
      rw [update_of_ne e]
    · dsimp only
      rw [update_of_ne e]
      exact hp

theorem Ok.bpin (h : Ok c) (hk : k < NBUF) (hlt : (c.s.buf k).refcnt.toNat + 1 < 2 ^ 32) :
    Ok (c.after { c.s with
      buf := update c.s.buf k { c.s.buf k with refcnt := (c.s.buf k).refcnt + 1 } } (.bpin k)) := by
  refine h.recount hk ?_ fun _ => .inr (Nat.succ_pos _)
  rw [refcnt_succ hlt, (h.buf k hk).count]
  rfl

theorem Ok.bunpin (h : Ok c) (hk : k < NBUF) (hp : 0 < c.pins k)
    (hd : c.dirty k = true → (c.s.buf k).lock.isSome ∨ 1 < c.pins k) {w : Bool} :
    Ok (c.after { c.s with
      buf := update c.s.buf k { c.s.buf k with refcnt := (c.s.buf k).refcnt - 1 }
      wrapped := w } (.bunpin k)) := by
  have hc := (h.buf k hk).count
  have := h.recount hk (r := (c.s.buf k).refcnt - 1) (n := c.pins k - 1)
    (by rw [refcnt_pred (by omega)]; omega) fun h1 => (hd h1).imp_right fun _ => by omega
  exact { this with buf := fun j hj => (this.buf j hj).keep rfl (fun _ => Iff.rfl) rfl id rfl rfl rfl fun _ => id }

theorem Ok.release (h : Ok c) (hm : (p, k) ∈ c.s.held) (hd : c.dirty k = true → 0 < c.pins k) {w : Bool} :
    Ok { c with s := { c.s with
      buf := update c.s.buf k { c.s.buf k with lock := none, refcnt := (c.s.buf k).refcnt - 1 }
      wrapped := w
      held := c.s.held.erase (p, k) } } := by
  obtain ⟨hk, hlock⟩ := h.lock_of_held hm
  have hd' := update_field Buf.dev (c := c.s.buf) (k := k)
    (B := { c.s.buf k with lock := none, refcnt := (c.s.buf k).refcnt - 1 }) rfl
  have hb := update_field Buf.blockno (c := c.s.buf) (k := k)
    (B := { c.s.buf k with lock := none, refcnt := (c.s.buf k).refcnt - 1 }) rfl
  have hv := update_field Buf.valid (c := c.s.buf) (k := k)
    (B := { c.s.buf k with lock := none, refcnt := (c.s.buf k).refcnt - 1 }) rfl
  have hmem : ∀ q j, (q, j) ∈ c.s.held.erase (p, k) ↔ (q, j) ∈ c.s.held ∧ j ≠ k := by
    intro q j
    rw [h.once.of_map.mem_erase_iff]
    constructor
    · rintro ⟨hne, hq⟩
      refine ⟨hq, fun he => hne ?_⟩
      subst he
      have := (h.lock_of_held hq).2
      rw [hlock] at this
      cases this
      rfl
    · rintro ⟨hq, hne⟩
      exact ⟨fun he => hne (by cases he; rfl), hq⟩
  obtain ⟨l, hring, hl, hord⟩ := h.ring
  refine { h with
    ring := ⟨l, ring_update rfl rfl hring, hl, hord⟩
    uniq := by simpa only [hd', hb] using h.uniq
    buf := fun j hj => ?_
    once := h.once.sublist (erase_sublist.map _)
    lt := fun x hx => h.lt x (mem_of_mem_erase hx)
    sleeps := by simpa only [hd', hb] using h.sleeps
    rest := by simpa only [hd', hb, hv] using h.rest }
  have hrefs := refs_erase hm j
  by_cases e : j = k
  · subst e
    have ho := h.buf j hj
    rw [if_pos rfl] at hrefs
    constructor
    · dsimp only
      rw [update_self, refcnt_pred (by rw [ho.count]; omega), ho.count]
      omega
    all_goals dsimp only; rw [update_self]
    · exact ho.asked
    · exact ho.valid
    · exact ho.clean
    · exact fun h1 => ⟨(ho.dirty h1).1, .inr (hd h1)⟩
    · intro q
      rw [hmem]
      simp
    · exact fun hs => by cases hs
  · rw [if_neg (Ne.symm e)] at hrefs
    refine (h.buf j hj).keep (update_of_ne e _ _) (fun q => ?_) ?_ id rfl rfl rfl fun _ => id
    · rw [hmem]
      exact and_iff_left e
    · dsimp only
      omega

theorem Ok.front (h : Ok c) (hk : k < NBUF) :
    Ok { c with
      s := { c.s with buf := insertFront (unlink c.s.buf k) k }
      last := update c.last k (some c.now)
      now := c.now + 1 } := by
  have hsame := (same_unlink c.s.buf k).trans (same_insertFront _ k)
  have hf : ∀ {α : Type} (f : Buf → α), (∀ b p n, f { b with prev := p, next := n } = f b) →
      ∀ j, f (insertFront (unlink c.s.buf k) k j) = f (c.s.buf j) := by
    intro α f hf j
    obtain ⟨p, n, hj⟩ := hsame j
    rw [hj, hf]
  have e1 := hf Buf.dev fun _ _ _ => rfl
  have e2 := hf Buf.blockno fun _ _ _ => rfl
  have e3 := hf Buf.lock fun _ _ _ => rfl
  have e4 := hf Buf.refcnt fun _ _ _ => rfl
  have e5 := hf Buf.valid fun _ _ _ => rfl
  have e6 := hf Buf.data fun _ _ _ => rfl
  obtain ⟨l, hring, hl, hord⟩ := h.ring
  obtain ⟨l₁, l₂, rfl⟩ := append_of_mem (hl.mem_iff.2 (mem_range.2 hk))
  have hnk : ∀ a ∈ l₁ ++ l₂, a ≠ k := by
    rintro a ha rfl
    have hn := (nodup_cons.1 hring.nodup).2
    rw [nodup_middle] at hn
    exact (nodup_cons.1 hn).1 ha
  constructor
  · refine ⟨k :: (l₁ ++ l₂), ring_toFront (Nat.ne_of_lt hk) hring, perm_middle.symm.trans hl, ?_⟩
    refine pairwise_cons.2 ⟨fun a ha => ?_, ?_⟩
    · dsimp only
      rw [update_self, update_of_ne (hnk a ha)]
      cases hla : c.last a with
      | none => trivial
      | some t => exact h.past a t hla
    · have hsub : (l₁ ++ l₂).Sublist (l₁ ++ k :: l₂) := (sublist_cons_self k l₂).append_left l₁
      refine (hord.sublist hsub).imp_of_mem fun {a b} ha hb hab => ?_
      dsimp only
      rwa [update_of_ne (hnk a ha), update_of_ne (hnk b hb)]
  · intro j t ht
    dsimp only at ht
    by_cases e : j = k
    · rw [e, update_self] at ht
      cases ht
      exact Nat.lt_succ_self _
    · rw [update_of_ne e] at ht
      exact Nat.lt_succ_of_lt (h.past j t ht)
  · simpa only [e1, e2] using h.uniq
  · intro j hj
    have ho := h.buf j hj
    constructor
    · simpa only [e4] using ho.count
    · simpa only [e1, e2] using ho.asked
    · simpa only [e1, e2, e5, e6] using ho.valid
    · simpa only [e2, e5, e6] using ho.clean
    · simpa only [e3, e5] using ho.dirty
    · simpa only [e3] using ho.held
    · simpa only [e3, e5] using ho.locked
  · exact h.once
  · exact h.lt
  · simpa only [e1, e2] using h.sleeps
  · exact h.known
  · simpa only [e1, e2, e5] using h.rest

end Use

/-! ## Calls -/

section Calls
variable {c : Cache} {p k dev b : Nat}

/-- Buffer `k` is locked by `p` and has what was last placed in the block. -/
structure Returned (c : Cache) (p d b k : Nat) (s' : St) : Prop where
  lt : k < NBUF
  lock : (s'.buf k).lock = some p
  dev : (s'.buf k).dev = d
  blockno : (s'.buf k).blockno = b
  data : (s'.buf k).data = c.content d b

/-- Buffer `k` is the one to recycle. -/
def Oldest (c : Cache) (k : Nat) : Prop :=
  (c.s.buf k).refcnt = 0 ∧ ∀ j < NBUF, (c.s.buf j).refcnt = 0 → j ≠ k → Before (c.last k) (c.last j)

theorem enter_spec {s : St} {Q : Unit → St → Prop} {E : Stop → St → Prop}
    (hsleep : (s.buf k).lock ≠ none → E .sleeps { s with waiting := (p, k) :: s.waiting })
    (hgo : (s.buf k).lock = none → Q () { s with
      buf := update s.buf k { s.buf k with
        lock := some p
        data := if (s.buf k).valid then (s.buf k).data else s.disk (s.buf k).blockno
        valid := true }
      held := (p, k) :: s.held }) :
    wp (acquiresleep p k) (fun _ s' => wp (fill p k) Q E s') E s := by
  unfold acquiresleep fill setBuf
  simp only [wp_bind, wp_get, wp_ite, wp_modify, wp_set, wp_throw, update_self, update_idem]
  refine ⟨fun hs => hsleep fun hn => by simp [hn] at hs, fun hs => ?_⟩
  have h := hgo (by simpa using hs)
  refine ⟨fun hv => ?_, fun hv => ?_⟩
  · rw [if_neg hv] at h
    exact h
  · have hv : (s.buf k).valid = true := by simpa using hv
    rw [if_pos hv] at h
    have he : ({ s.buf k with lock := some p } : Buf) =
        { s.buf k with lock := some p, data := (s.buf k).data, valid := true } := by
      rw [← hv]
    rw [he]
    exact h

/-- Of the buffers without references, the walk from the tail meets the oldest first. -/
theorem oldest_find {l : List Nat} (hl : l.Perm (List.range NBUF))
    (hord : l.Pairwise fun a b => Before (c.last b) (c.last a))
    (hf : l.reverse.find? (fun k => (c.s.buf k).refcnt == 0) = some k) : Oldest c k := by
  obtain ⟨h0, as, bs, hlist, has⟩ := find?_eq_some_iff_append.1 hf
  have hl' : l = bs.reverse ++ k :: as.reverse := by
    rw [← reverse_reverse l, hlist]
    simp
  refine ⟨by simpa using h0, fun j hj hj0 hne => ?_⟩
  have hmem : j ∈ l := hl.mem_iff.2 (mem_range.2 hj)
  rw [hl', mem_append, mem_cons, mem_reverse, mem_reverse] at hmem
  rcases hmem with hm | rfl | hm
  · rw [hl'] at hord
    exact (pairwise_append.1 hord).2.2 j (mem_reverse.2 hm) k mem_cons_self
  · exact absurd rfl hne
  · have := has j hm
    simp [hj0] at this

theorem scan_find {s : Nat → Buf} {go : Buf → Nat} {l : List Nat} (hp : Trail (fun k => go (s k)) NBUF l NBUF)
    (hl : l.Perm (List.range NBUF)) (ok : Buf → Bool) :
    scan s go ok (NBUF + 1) (go (s NBUF)) = some (l.find? fun k => ok (s k)) := by
  refine scan_trail s go ok hp (fun hm => ?_) ?_
  · exact Nat.lt_irrefl _ (mem_range.1 (hl.mem_iff.1 hm))
  · rw [hl.length_eq, length_range]
    exact Nat.lt_succ_self _

/-- `bread` finds the block, recycles the first free buffer from the tail, or finds every buffer in use. -/
theorem bread_cases {s : St} {Q : Nat → St → Prop} {E : Stop → St → Prop} {l : List Nat}
    (hr : LinkRing (fun k => (s.buf k).next) (fun k => (s.buf k).prev) NBUF l) (hl : l.Perm (List.range NBUF))
    (hit : ∀ k < NBUF, (s.buf k).dev = dev → (s.buf k).blockno = b →
      wp (acquiresleep p k) (fun _ s' => wp (fill p k) (fun _ => Q k) E s') E
        { s with buf := update s.buf k { s.buf k with refcnt := (s.buf k).refcnt + 1 } })
    (miss : (∀ j < NBUF, (s.buf j).dev = dev → (s.buf j).blockno ≠ b) →
      ∀ k < NBUF, l.reverse.find? (fun k => (s.buf k).refcnt == 0) = some k →
      wp (acquiresleep p k) (fun _ s' => wp (fill p k) (fun _ => Q k) E s') E
        { s with
          buf := update s.buf k { s.buf k with dev := dev, blockno := b, valid := false, refcnt := 1 } })
    (full : (∀ k < NBUF, (s.buf k).refcnt ≠ 0) → E .noBuffers s) : wp (bread p dev b) Q E s := by
  have hmem : ∀ k, k ∈ l ↔ k < NBUF := fun k => by rw [hl.mem_iff, mem_range]
  unfold bread bget
  simp only [wp_bind, wp_get]
  rw [scan_find hr.fwd hl]
  cases hf : l.find? fun k => (s.buf k).dev == dev && (s.buf k).blockno == b with
  | some k =>
    obtain ⟨hd, hb⟩ : (s.buf k).dev = dev ∧ (s.buf k).blockno = b := by simpa using find?_some hf
    simp only [setBuf, wp_bind, wp_modify, wp_pure]
    exact hit k ((hmem k).1 (mem_of_find?_eq_some hf)) hd hb
  | none =>
    have hno : ∀ j < NBUF, (s.buf j).dev = dev → (s.buf j).blockno ≠ b := by
      intro j hj h1 h2
      have := find?_eq_none.1 hf j ((hmem j).2 hj)
      simp [h1, h2] at this
    dsimp only
    rw [scan_find hr.bwd (l.reverse_perm.trans hl)]
    cases hf' : l.reverse.find? fun k => (s.buf k).refcnt == 0 with
    | some k =>
      simp only [setBuf, wp_bind, wp_modify, wp_pure]
      exact miss hno k ((hmem k).1 (mem_reverse.1 (mem_of_find?_eq_some hf'))) hf'
    | none =>
      rw [wp_throw]
      refine full fun k hk h0 => ?_
      have := find?_eq_none.1 hf' k (mem_reverse.2 ((hmem k).2 hk))
      simp [h0] at this

/-- `bread` returns the contents, goes to sleep for the lock, or finds every buffer in use. -/
theorem bread_returns (h : Ok c) (hp : Follows c (.bread p dev b)) (hfit : Fits c (.bread p dev b)) :
    wp (bread p dev b)
      (fun k s' => Ok (c.after s' (.bread p dev b)) ∧ Returned c p dev b k s' ∧
        ((c.s.buf k).dev = dev ∧ (c.s.buf k).blockno = b ∨
          (∀ j < NBUF, (c.s.buf j).dev = dev → (c.s.buf j).blockno ≠ b) ∧ Oldest c k))
      (fun e s' => e = .sleeps ∧ Ok (c.after s' (.bread p dev b)) ∨
        e = .noBuffers ∧ ∀ k < NBUF, (c.s.buf k).refcnt ≠ 0) c.s := by
  obtain ⟨hdev, hwait⟩ := hp
  obtain ⟨hu, hlt⟩ := hfit
  have hask := h.ask hwait hu
  obtain ⟨l, hr, hl, hord⟩ := h.ring
  refine bread_cases hr hl (fun k hk hd hb => ?_) (fun hno k hk hf => ?_) fun hfull => .inr ⟨rfl, hfull⟩
  · have hjoin := hask.join (p := p) hk (hd ▸ hdev) (by simp [hd, hb]) (hlt k hk hd hb)
    refine enter_spec (fun _ => .inl ⟨rfl, hjoin⟩) fun hlock => ?_
    have henter := hjoin.enter mem_cons_self hlock
    simp only [erase_cons_head] at henter
    refine ⟨henter, ⟨hk, by simp, by simpa using hd, by simpa using hb, ?_⟩, .inl ⟨hd, hb⟩⟩
    simpa [hd, hb] using ((henter.buf k hk).valid (by simp)).2
  · have hold := oldest_find hl hord hf
    have hrec := hask.recycle (p := p) hk hold.1 hdev (by simp) (by simp) hno
    refine enter_spec (fun hs => absurd ?_ hs) fun hlock => ?_
    · simpa using (h.of_refcnt_zero hk hold.1).2.2.2.1
    have henter := hrec.enter mem_cons_self hlock
    simp only [erase_cons_head] at henter
    refine ⟨henter, ⟨hk, by simp, by simp, by simp, ?_⟩, .inr ⟨hno, hold⟩⟩
    simpa using ((henter.buf k hk).valid (by simp)).2

theorem wake_returns (h : Ok c) (hm : (p, k) ∈ c.s.waiting) (hlock : (c.s.buf k).lock = none) :
    wp (wake p k) (fun _ s' => Ok { c with s := s' } ∧ Returned c p (c.want p).1 (c.want p).2 k s')
      (fun _ _ => False) c.s := by
  obtain ⟨hk, -, hw⟩ := h.sleeps _ hm
  have hd : (c.s.buf k).dev = (c.want p).1 := congrArg Prod.fst hw
  have hb : (c.s.buf k).blockno = (c.want p).2 := congrArg Prod.snd hw
  have henter := h.enter hm hlock
  unfold wake
  simp only [wp_bind, wp_modify]
  refine enter_spec (fun hs => absurd hlock hs) fun _ => ⟨henter, hk, by simp, by simpa using hd, by simpa using hb, ?_⟩
  simpa [hd, hb] using ((henter.buf k hk).valid (by simp)).2

theorem after_last {s' : St} (h : (s'.buf k).refcnt = 0) : c.after s' (.brelse p k) =
    { c with s := s', last := update c.last k (some c.now), now := c.now + 1 } :=
  if_pos h

theorem after_not_last {s' : St} (h : (s'.buf k).refcnt ≠ 0) : c.after s' (.brelse p k) = { c with s := s' } :=
  if_neg h

theorem brelse_spec (h : Ok c) (hf : Follows c (.brelse p k)) :
    wp (brelse p k) (fun _ s' => Ok (c.after s' (.brelse p k))) (fun _ _ => False) c.s := by
  obtain ⟨hm, hd⟩ := hf
  obtain ⟨hk, hlock⟩ := h.lock_of_held hm
  unfold brelse decRef setBuf
  simp only [wp_bind, wp_get, wp_ite, wp_throw, wp_modify, update_self, update_idem]
  refine ⟨fun hne => absurd hlock hne, fun _ => ?_⟩
  have hrel := h.release hm hd (w := c.s.wrapped || (c.s.buf k).refcnt == 0)
  by_cases h0 : (c.s.buf k).refcnt - 1 = 0
  · rw [if_pos h0]
    have hfront := hrel.front hk
    have href : ∀ s : Nat → Buf, (insertFront (unlink s k) k k).refcnt = (s k).refcnt := by
      intro s
      obtain ⟨p, n, he⟩ := ((same_unlink s k).trans (same_insertFront _ k)) k
      rw [he]
    rw [after_last (by dsimp only; rw [href, update_self]; exact h0)]
    exact hfront
  · rw [if_neg h0, after_not_last (by dsimp only; rw [update_self]; exact h0)]
    exact hrel

theorem perform_spec {o : Op} (h : Ok c) (hf : Follows c o) (hfit : Fits c o) :
    wp (perform o) (fun _ s' => Ok (c.after s' o))
      (fun e s' => ∃ p dev b, o = .bread p dev b ∧ (e = .sleeps ∧ Ok (c.after s' o) ∨
        e = .noBuffers ∧ ∀ k < NBUF, (c.s.buf k).refcnt ≠ 0)) c.s := by
  cases o with
  | bread p dev b =>
    unfold perform
    simp only [wp_bind, wp_pure]
    exact (bread_returns h hf hfit).mono (fun _ _ r => r.1) fun _ _ r => ⟨p, dev, b, rfl, r⟩
  | wake p k => exact (wake_returns h hf.1 hf.2).total fun _ _ r => r.1
  | write p k data =>
    unfold perform setBuf
    rw [wp_modify]
    exact h.write hf data
  | bwrite p k =>
    unfold perform Bio.bwrite
    simp only [wp_bind, wp_get, wp_ite, wp_throw, wp_set]
    exact ⟨fun hne => absurd (h.lock_of_held hf).2 hne, fun _ => h.bwrite hf⟩
  | brelse p k => exact (brelse_spec h hf).total fun _ _ r => r
  | bpin k =>
    unfold perform Bio.bpin setBuf
    rw [wp_modify]
    exact h.bpin hf hfit
  | bunpin k =>
    unfold perform Bio.bunpin decRef
    rw [wp_modify]
    exact h.bunpin hf.1 hf.2.1 hf.2.2

theorem ok_step {o : Op} {c' : Cache} (h : Ok c) (hs : When Step Fits c o c') : Ok c' := by
  obtain ⟨hfit, hf, s', rfl, he | ⟨-, he⟩⟩ := hs
  · exact (perform_spec h hf hfit).ok he
  · obtain ⟨p, dev, b, -, ⟨-, hok⟩ | ⟨hno, -⟩⟩ := (perform_spec h hf hfit).error he
    · exact hok
    · cases hno

theorem ok_init (h : Init c) : Ok c := by
  obtain ⟨disk, hs⟩ := h.boot
  have hbuf : ∀ k, c.s.buf k = binit k := fun k => by rw [hs]; rfl
  have hheld : c.s.held = [] := by rw [hs]; rfl
  have hwait : c.s.waiting = [] := by rw [hs]; rfl
  obtain ⟨l, hr, hl⟩ := linked_binit
  constructor
  · refine ⟨l, by simpa only [hbuf] using hr, hl, pairwise_of_forall fun a b => ?_⟩
    rw [h.last]
    trivial
  · intro k t ht
    rw [h.last] at ht
    cases ht
  · intro j _ k _ h1
    rw [hbuf, (binit_zero j).1] at h1
    cases h1
  · intro k _
    obtain ⟨h1, h2, h3, h4⟩ := binit_zero k
    constructor <;> simp [hbuf, h1, h2, h3, h4, hheld, hwait, h.pins, h.dirty]
  · simp [hheld]
  · simp [hheld]
  · simp [hwait]
  · simp [h.used]
  · exact fun d b _ _ => (h.content d b).symm

end Calls

/-! ## Runs -/

/-- What the cache does in a state `c`. -/
structure Transparent (c : Cache) : Prop where
  /-- The links form one ring through every buffer, in both directions. -/
  ring : ∃ l, LinkRing (fun k => (c.s.buf k).next) (fun k => (c.s.buf k).prev) NBUF l ∧ l.Perm (List.range NBUF)
  uniq : ∀ j < NBUF, ∀ k < NBUF, 1 ≤ (c.s.buf j).dev → (c.s.buf j).dev = (c.s.buf k).dev →
    (c.s.buf j).blockno = (c.s.buf k).blockno → j = k
  bread : ∀ p dev b k s', Follows c (.bread p dev b) → Fits c (.bread p dev b) →
    exec (bread p dev b) c.s = (.ok k, s') → Returned c p dev b k s'
  wake : ∀ p k s', Follows c (.wake p k) → exec (wake p k) c.s = (.ok (), s') →
    Returned c p (c.want p).1 (c.want p).2 k s'
  /-- A miss recycles the buffer that has been unused for longest. -/
  miss : ∀ p dev b k s', Follows c (.bread p dev b) → Fits c (.bread p dev b) →
    exec (Bio.bread p dev b) c.s = (.ok k, s') → (∀ j < NBUF, (c.s.buf j).dev = dev → (c.s.buf j).blockno ≠ b) →
    Oldest c k
  /-- No call stops, except a `bread` that sleeps or finds every buffer in use. -/
  stops : ∀ o e s', Follows c o → Fits c o → exec (perform o) c.s = (.error e, s') →
    (∃ p dev b, o = .bread p dev b) ∧ (e = .sleeps ∨ e = .noBuffers ∧ ∀ k < NBUF, (c.s.buf k).refcnt ≠ 0)

theorem bio_transparent {c : Cache} (h : Reach Init (When Step Fits) c) : Transparent c := by
  have hok : Ok c := Reach.inv Ok (fun _ => ok_init) (fun _ _ _ hi hs => ok_step hi hs) h
  obtain ⟨l, hr, hl, -⟩ := hok.ring
  refine ⟨⟨l, hr, hl⟩, hok.uniq, fun p dev b k s' hf hfit he => ?_, fun p k s' hf he => ?_,
    fun p dev b k s' hf hfit he hno => ?_, fun o e s' hf hfit he => ?_⟩
  · exact ((bread_returns hok hf hfit).ok he).2.1
  · exact ((wake_returns hok hf.1 hf.2).ok he).2
  · obtain ⟨-, hret, ⟨h1, h2⟩ | ⟨-, hold⟩⟩ := (bread_returns hok hf hfit).ok he
    · exact absurd h2 (hno k hret.lt h1)
    · exact hold
  · obtain ⟨p, dev, b, ho, ⟨h1, -⟩ | h2⟩ := (perform_spec hok hf hfit).error he
    · exact ⟨⟨p, dev, b, ho⟩, .inl h1⟩
    · exact ⟨⟨p, dev, b, ho⟩, .inr h2⟩

/-! ## Two devices, and too many pins -/

section Limits
variable {d : Nat → Block} {x y : Block} {r : UInt32}

def fresh (d : Nat → Block) : Cache :=
  { s := boot d, content := fun _ b => d b, dirty := fun _ => false, pins := fun _ => 0, last := fun _ => none, now := 0,
    want := fun _ => (0, 0), used := [] }

theorem init_fresh (d : Nat → Block) : Init (fresh d) :=
  ⟨⟨d, rfl⟩, fun _ _ => rfl, fun _ => rfl, fun _ => rfl, fun _ => rfl, rfl⟩

/-- Process 0 has block 5 of device 1 in buffer 0, with contents `x` and reference count `r`. -/
def taken (d : Nat → Block) (r : UInt32) (x : Block) : St :=
  { boot d with
    buf := update binit 0
      { binit 0 with valid := true, dev := 1, blockno := 5, lock := some 0, refcnt := r, data := x }
    held := [(0, 0)] }

theorem bread_boot : wp (perform (.bread 0 1 5)) (fun _ s' => s' = taken d 1 (d 5)) (fun _ _ => False) (boot d) := by
  have hdev : ∀ k, ((boot d).buf k).dev = 0 := fun k => (binit_zero k).1
  unfold perform
  simp only [wp_bind, wp_pure]
  refine bread_cases ring_binit (reverse_perm _) (fun k hk h1 => ?_) (fun _ k hk hf => ?_) fun hfull => ?_
  · rw [hdev] at h1
    cases h1
  · obtain rfl : k = 0 := by
      rw [reverse_reverse, show List.range NBUF = 0 :: List.range' 1 29 by decide, find?_cons] at hf
      simpa [boot, (binit_zero 0).2.2.1, eq_comm] using hf
    refine enter_spec (fun hs => absurd ?_ hs) fun _ => ?_
    · simpa [boot] using (binit_zero 0).2.1
    · simp [taken, boot]
  · exact hfull 0 (by decide) (binit_zero 0).2.2.1

theorem write_taken :
    exec (perform (.write 0 0 y)) (taken d r x) = (.ok (), taken d r y) := by
  show (Except.ok (), _) = _
  simp [taken, update_idem]

theorem bwrite_taken :
    wp (perform (.bwrite 0 0)) (fun _ s' => s' = taken (update d 5 x) r x) (fun _ _ => False) (taken d r x) := by
  unfold perform bwrite
  simp only [wp_bind, wp_get, wp_ite, wp_throw, wp_set]
  exact ⟨fun hne => absurd rfl hne, fun _ => rfl⟩

theorem bpin_taken : exec (perform (.bpin 0)) (taken d r x) = (.ok (), taken d (r + 1) x) := by
  show (Except.ok (), _) = _
  simp [taken, update_idem]

theorem bread_other {s : St} {B : Buf} {p dev b : Nat} (hs : s.buf = update binit 0 B)
    (hp : B.prev = (binit 0).prev) (hn : B.next = (binit 0).next) (hB : B.dev = dev → B.blockno ≠ b)
    (h0 : B.refcnt ≠ 0) (hdev : 1 ≤ dev) :
    wp (bread p dev b) (fun k s' => (s'.buf k).data = s.disk b) (fun _ _ => False) s := by
  have hother : ∀ k, k ≠ 0 → s.buf k = binit k := fun k hk => by rw [hs, update_of_ne hk]
  have hzero : s.buf 0 = B := by rw [hs, update_self]
  have hring : LinkRing (fun k => (s.buf k).next) (fun k => (s.buf k).prev) NBUF (List.range NBUF).reverse := by
    rw [hs]
    exact ring_update hp hn ring_binit
  refine bread_cases hring (reverse_perm _) (fun k hk h1 h2 => ?_) (fun _ k hk hf => ?_) fun hfull => ?_
  · by_cases e : k = 0
    · rw [e, hzero] at h1 h2
      exact absurd h2 (hB h1)
    · rw [hother k e, (binit_zero k).1] at h1
      omega
  · have hk0 : k ≠ 0 := by
      rintro rfl
      have := find?_some hf
      rw [hzero] at this
      exact h0 (by simpa using this)
    refine enter_spec (fun hs => absurd ?_ hs) fun _ => ?_
    · simpa [hother k hk0] using (binit_zero k).2.1
    · simp
  · refine hfull 1 (by decide) ?_
    rw [hother 1 (by decide)]
    exact (binit_zero 1).2.2.1

theorem bread_wrapped :
    wp (perform (.bread 1 1 6)) (fun _ _ => False)
      (fun e s' => e = .sleeps ∧ s'.disk = d ∧ s'.waiting = [(1, 0)] ∧
        s'.buf = update binit 0
          { binit 0 with valid := false, dev := 1, blockno := 6, lock := some 0, refcnt := 1, data := x })
      (taken d 0 x) := by
  have hring : LinkRing (fun k => ((taken d 0 x).buf k).next) (fun k => ((taken d 0 x).buf k).prev) NBUF
      (List.range NBUF).reverse := ring_update rfl rfl ring_binit
  unfold perform
  simp only [wp_bind, wp_pure]
  refine bread_cases hring (reverse_perm _) (fun k hk h1 h2 => ?_) (fun _ k hk hf => ?_) fun hfull => ?_
  · by_cases e : k = 0
    · subst e
      simp [taken] at h2
    · simp [taken, e, (binit_zero k).1] at h1
  · obtain rfl : k = 0 := by
      rw [reverse_reverse, show List.range NBUF = 0 :: List.range' 1 29 by decide, find?_cons] at hf
      simpa [taken, eq_comm] using hf
    refine enter_spec (fun _ => ⟨rfl, rfl, rfl, ?_⟩) fun hl => ?_
    · simp [taken]
    · simp [taken] at hl
  · exact absurd rfl (hfull 0 (by decide))

theorem Step.returns {c : Cache} {o : Op} {s' : St} (hf : Follows c o) (he : exec (perform o) c.s = (.ok (), s')) :
    Step c o (c.after s' o) :=
  ⟨hf, s', rfl, .inl he⟩

/-- Process 0 has written `x` to its buffer, which has been pinned `n` times. -/
def pinned (d : Nat → Block) (x : Block) (n : Nat) : Cache :=
  { s := taken d (UInt32.ofNat (n + 1)) x
    content := fun e b => if e = 1 ∧ b = 5 then x else d b
    dirty := update (fun _ => false) 0 true
    pins := update (fun _ => 0) 0 n
    last := fun _ => none
    now := 0
    want := update (fun _ => (0, 0)) 0 (1, 5)
    used := [(1, 5)] }

theorem reach_written : Reach Init (When Step Fits) (pinned d x 0) := by
  have h0 : Reach Init (When Step Fits) (fresh d) := .init (init_fresh d)
  obtain ⟨_, s₁, he, rfl⟩ := (bread_boot (d := d)).returns
  have hfits : Fits (fresh d) (.bread 0 1 5) := by
    refine ⟨fun _ hm => (by cases hm), fun k _ hd => ?_⟩
    rw [show ((fresh d).s.buf k).dev = 0 from (binit_zero k).1] at hd
    cases hd
  have h1 := h0.next (Step.returns (o := .bread 0 1 5) ⟨Nat.le_refl 1, fun _ hm => by cases hm⟩ he) hfits
  have h2 := h1.next (Step.returns (o := .write 0 0 x) (mem_singleton.2 rfl) write_taken) trivial
  unfold pinned
  rw [show update (fun _ => 0) 0 0 = fun _ : Nat => 0 from update_eq_self 0 _]
  exact h2

theorem reach_pinned (n : Nat) : Reach Init Step (pinned d x n) := by
  induction n with
  | zero => exact reach_written.of_when
  | succ n ih =>
    have h := ih.step (Step.returns (o := .bpin 0) (show 0 < NBUF by decide) bpin_taken)
    unfold Cache.after pinned at h
    dsimp only at h
    rw [update_idem, update_self] at h
    unfold pinned
    rw [UInt32.ofNat_add (n + 1)]
    exact h

/-- With the same block number on two devices, or when a reference count wraps, `bread` returns something else than
what was last placed in the block. -/
theorem bread_returns_other :
    (∃ c k s', Reach Init Step c ∧ Follows c (.bread 1 2 5) ∧ exec (bread 1 2 5) c.s = (.ok k, s') ∧
      (s'.buf k).data ≠ c.content 2 5) ∧
    ∃ c k s', Reach Init Step c ∧ (∀ y ∈ c.used, y.1 = 1) ∧ Follows c (.bread 2 1 5) ∧
      exec (bread 2 1 5) c.s = (.ok k, s') ∧ (s'.buf k).data ≠ c.content 1 5 := by
  have hne : (fun _ => 1 : Block) ≠ fun _ => 0 := fun he => absurd (congrFun he 0) (by decide)
  constructor
  · have h1 := reach_pinned (d := fun _ _ => 0) (x := fun _ => 1) 0
    obtain ⟨_, s₂, he, rfl⟩ := (bwrite_taken (d := fun _ _ => 0) (x := fun _ => 1) (r := 1)).returns
    have h2 := h1.step (Step.returns (o := .bwrite 0 0) (mem_singleton.2 rfl) he)
    obtain ⟨k, s', he', hk⟩ := (bread_other (p := 1) (b := 5)
      (s := taken (update (fun _ _ => 0) 5 fun _ => 1) 1 fun _ => 1) rfl rfl rfl (fun he => by cases he)
      (by decide) (Nat.le_succ 1)).returns
    refine ⟨_, k, s', h2, ⟨Nat.le_succ 1, fun _ hm => by cases hm⟩, he', ?_⟩
    rw [hk]
    exact hne
  · have h1 := reach_pinned (d := fun _ _ => 0) (x := fun _ => 1) (2 ^ 32 - 1)
    have hzero : (pinned (fun _ _ => 0) (fun _ => 1) (2 ^ 32 - 1)).s = taken (fun _ _ => 0) 0 fun _ => 1 := by
      show taken _ (UInt32.ofNat (2 ^ 32 - 1 + 1)) _ = _
      rw [show UInt32.ofNat (2 ^ 32 - 1 + 1) = 0 by decide]
    generalize hc : pinned (fun _ _ => 0) (fun _ => 1) (2 ^ 32 - 1) = c at h1 hzero
    have hcontent : c.content 1 5 = fun _ => 1 := by rw [← hc]; rfl
    have hused : c.used = [(1, 5)] := by rw [← hc]; rfl
    have hw := bread_wrapped (d := fun _ _ => 0) (x := fun _ => 1)
    rcases he : exec (perform (.bread 1 1 6)) (taken (fun _ _ => 0) 0 fun _ => 1) with ⟨e | a, s₂⟩
    · obtain ⟨rfl, hdisk, hwait, hbuf⟩ := hw.error he
      rw [← hzero] at he
      have hstep : Step c (.bread 1 1 6) (c.after s₂ (.bread 1 1 6)) :=
        ⟨⟨Nat.le_refl 1, fun _ hm => by rw [hzero] at hm; cases hm⟩, s₂, rfl, .inr ⟨⟨1, 1, 6, rfl⟩, he⟩⟩
      have h2 := h1.step hstep
      obtain ⟨k, s', he', hk⟩ := (bread_other (p := 2) (b := 5) hbuf rfl rfl (fun _ => by decide) (by decide)
        (Nat.le_refl 1)).returns
      refine ⟨_, k, s', h2, ?_, ⟨Nat.le_refl 1, fun j hm => ?_⟩, he', ?_⟩
      · intro y hy
        rcases mem_cons.1 hy with rfl | hy
        · rfl
        · rw [hused] at hy
          rw [mem_singleton.1 hy]
      · have hm : (2, j) ∈ s₂.waiting := hm
        rw [hwait] at hm
        simp at hm
      · rw [hk, hdisk]
        show _ ≠ c.content 1 5
        rw [hcontent]
        exact hne.symm
    · exact (hw.ok he).elim

theorem bio_transparent_written : Reach Init (When Step Fits) (pinned (fun _ _ => 0) (fun _ => 1) 0) ∧
    Transparent (pinned (fun _ _ => 0) (fun _ => 1) 0) :=
  ⟨reach_written, bio_transparent reach_written⟩

end Limits

end Xv6.Bio.Lru
