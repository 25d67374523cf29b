import Mathlib.Data.List.Nodup
import Mathlib.Data.List.Pairwise
import Mathlib.Data.List.Perm.Subperm
import Xv6.Lib.Ring
import Xv6.Virtio.Code
/-!
# Where the disk requests are

A request that has not been freed is in one place (`Places`): in the avail
ring, taken by the device, performed, in the used ring, or cleared by the
handler. `Inv` ties the two rings, the descriptors and `b->disk` to that.

Descriptors are claimed one at a time and given back when there are fewer than
three (`alloc3Desc_spec`). Freeing a chain whose descriptors are all taken
meets neither panic of `free_desc` (`freeChain_spec`).
-/

namespace Xv6.Virtio

open Hoare Function List

variable {P B : Type}

/-- What the device is asked to do. -/
def Call.done (c : Call B) : Done B := ⟨c.serial, c.write, c.sector, c.b⟩

def Req.idx (r : Req P B) : List Nat := [r.i0, r.i1, r.i2]

/-- The descriptors of a request are as it formatted them. -/
structure Chain (s : St P B) (r : Req P B) : Prop where
  head : s.desc r.i0 = ⟨.hdr r.c.serial r.c.write r.c.sector, 16, true, false, r.i1⟩
  data : s.desc r.i1 = ⟨.data r.c.b, 1024, true, !r.c.write, r.i2⟩
  last : s.desc r.i2 = ⟨.status r.i0, 1, false, true, 0⟩
  info : s.infoB r.i0 = some r.c.b
  status : s.infoStatus r.i0 = 0

/-- Where the requests are. -/
structure Places (P B : Type) where
  /-- In the avail ring. -/
  queued : List (Req P B)
  taken : List (Req P B)
  executed : List (Req P B)
  /-- In the used ring. -/
  used : List (Req P B)
  /-- `b->disk` is 0 again. -/
  cleared : List (Req P B)

structure Inv (s : St P B) (w : Places P B) : Prop where
  nodup : (s.live.flatMap Req.idx).Nodup
  lt : ∀ i ∈ s.live.flatMap Req.idx, i < NUM
  free : ∀ i, s.free i = true ↔ i < NUM ∧ i ∉ s.live.flatMap Req.idx
  chain : ∀ r ∈ s.live, Chain s r
  owner : ∀ r : Req P B, (s.pc r.p).awake = .wait r.c r.i0 r.i1 r.i2 ↔ r ∈ s.live
  buf : ∀ p q c c', (s.pc p).call = some c → (s.pc q).call = some c' → c.b = c'.b → p = q
  serial : ∀ p q c c', (s.pc p).call = some c → (s.pc q).call = some c' → c.serial = c'.serial → p = q
  fresh : ∀ p c, (s.pc p).call = some c → c.serial < s.next
  perm : s.live.Perm (w.queued ++ (w.taken ++ (w.executed ++ (w.used ++ w.cleared))))
  avail : Ring.Holds NUM (2 ^ 16) s.avail s.devIdx s.availIdx (w.queued.map Req.i0)
  taken : s.taken = w.taken.map Req.i0
  executed : s.executed = w.executed.map fun r => (r.i0, r.c.done)
  used : ∃ h, Ring.Holds NUM (2 ^ 16) s.usedElems h s.usedId (w.used.map Req.i0) ∧ s.usedIdx = h % NUM
  history : ∃ old, s.appended = old ++ w.used.map (·.c.done) ∧ s.handled = old.map Done.b
  busy : ∀ r ∈ w.queued ++ (w.taken ++ (w.executed ++ w.used)), s.bdisk r.c.b = true
  cleared : ∀ r ∈ w.cleared, s.bdisk r.c.b = false
  did : ∀ r ∈ w.executed ++ (w.used ++ w.cleared), r.c.done ∈ s.performed
  once : (s.performed.map Done.serial).Nodup
  old : ∀ d ∈ s.performed, d.serial < s.next
  todo : ∀ r ∈ w.queued ++ w.taken, ∀ d ∈ s.performed, d.serial ≠ r.c.serial
  waiting : ∀ p c, (s.pc p).awake = .enter c → ∀ d ∈ s.performed, d.serial ≠ c.serial
  returned : ∀ c ∈ s.returned, c.done ∈ s.performed
  panic : s.panic = none

section Pc

@[simp] theorem awake_awake (c : Pc B) : c.awake.awake = c.awake := by cases c <;> rfl

@[simp] theorem awake_wakeFree (c : Pc B) : c.wakeFree.awake = c.awake := by cases c <;> rfl

@[simp] theorem awake_wakeBuf [DecidableEq B] (b : B) (c : Pc B) : (c.wakeBuf b).awake = c.awake := by
  cases c with
  | sleepBuf c => by_cases h : c.b = b <;> simp [Pc.wakeBuf, Pc.awake, h]
  | _ => rfl

@[simp] theorem call_awake (c : Pc B) : c.awake.call = c.call := by cases c <;> rfl

theorem call_congr {c d : Pc B} (h : c.awake = d.awake) : c.call = d.call := by
  rw [← call_awake, h, call_awake]

end Pc

/-! ## Consequences -/

section Facts
variable {s : St P B} {w : Places P B} {r r' : Req P B}

theorem Inv.call_of_live (h : Inv s w) (hr : r ∈ s.live) : (s.pc r.p).call = some r.c := by
  rw [← call_awake, (h.owner r).2 hr]
  rfl

theorem Inv.unique (h : Inv s w) (hr : r ∈ s.live) (hr' : r' ∈ s.live) (hp : r.p = r'.p) : r = r' := by
  have h1 := (h.owner r).2 hr
  have h2 := (h.owner r').2 hr'
  rw [hp, h2] at h1
  simp only [Pc.wait.injEq] at h1
  obtain ⟨hc, h0, h1, h2⟩ := h1
  cases r
  cases r'
  simp_all

theorem Inv.buf_inj (h : Inv s w) (hr : r ∈ s.live) (hr' : r' ∈ s.live) (hb : r.c.b = r'.c.b) : r = r' :=
  h.unique hr hr' (h.buf _ _ _ _ (h.call_of_live hr) (h.call_of_live hr') hb)

theorem length_flatMap_idx (l : List (Req P B)) : (l.flatMap Req.idx).length = 3 * l.length := by
  induction l with
  | nil => rfl
  | cons r l ih =>
    rw [flatMap_cons, length_append, ih, length_cons]
    show 3 + _ = _
    omega

theorem Inv.length_le (h : Inv s w) : s.live.length ≤ 2 := by
  have hsub : (s.live.flatMap Req.idx).length ≤ (List.range NUM).length :=
    (subperm_of_subset h.nodup fun i hi => mem_range.2 (h.lt i hi)).length_le
  rw [length_flatMap_idx, length_range] at hsub
  have : NUM = 8 := rfl
  omega

theorem Inv.mem (h : Inv s w) (hr : r ∈ w.queued ∨ r ∈ w.taken ∨ r ∈ w.executed ∨ r ∈ w.used ∨ r ∈ w.cleared) :
    r ∈ s.live := by
  refine h.perm.mem_iff.2 ?_
  simp only [mem_append]
  exact hr

theorem Inv.places_le (h : Inv s w) :
    w.queued.length + (w.taken.length + (w.executed.length + (w.used.length + w.cleared.length))) ≤ 2 := by
  have := h.perm.length_eq
  simp only [length_append] at this
  have := h.length_le
  omega

theorem mem_idx : r.i0 ∈ r.idx ∧ r.i1 ∈ r.idx ∧ r.i2 ∈ r.idx := by simp [Req.idx]

theorem mem_flatMap_idx {l : List (Req P B)} {i : Nat} (hr : r ∈ l) (hi : i ∈ r.idx) : i ∈ l.flatMap Req.idx :=
  mem_flatMap.2 ⟨r, hr, hi⟩

theorem Inv.not_free (h : Inv s w) {i : Nat} (hr : r ∈ s.live) (hi : i ∈ r.idx) : s.free i = false := by
  by_contra hf
  exact ((h.free i).1 (by simpa using hf)).2 (mem_flatMap_idx hr hi)

theorem Inv.pairwise (h : Inv s w) : s.live.Pairwise fun a b => a.idx.Disjoint b.idx :=
  (nodup_flatMap.1 h.nodup).2

theorem Inv.nodup_live (h : Inv s w) : s.live.Nodup :=
  h.pairwise.imp fun {a b} hd (e : a = b) => hd mem_idx.1 (e ▸ mem_idx.1)

theorem Inv.idx_inj (h : Inv s w) {i : Nat} (hr : r ∈ s.live) (hr' : r' ∈ s.live) (hi : i ∈ r.idx) (hi' : i ∈ r'.idx) :
    r = r' := by
  have : Std.Symm fun a b : Req P B => a.idx.Disjoint b.idx := ⟨fun _ _ hd _ ha hb => hd hb ha⟩
  by_contra hne
  exact h.pairwise.forall hr hr' hne hi hi'

theorem Inv.not_enter (h : Inv s w) {c : Call B} (hr : r ∈ s.live) : (s.pc r.p).awake ≠ .enter c := by
  rw [(h.owner r).2 hr]
  intro he
  cases he

theorem Chain.keep {s' : St P B} (h : Chain s r) (hd : ∀ i ∈ r.idx, s'.desc i = s.desc i)
    (hb : s'.infoB r.i0 = s.infoB r.i0)
    (hs : s'.infoStatus r.i0 = s.infoStatus r.i0) : Chain s' r where
  head := (hd _ mem_idx.1).trans h.head
  data := (hd _ mem_idx.2.1).trans h.data
  last := (hd _ mem_idx.2.2).trans h.last
  info := hb.trans h.info
  status := hs.trans h.status

theorem Chain.read (h : Chain s r) : readChain s.desc r.i0 = some (r.c.done, r.i0) := by
  unfold readChain
  rw [h.head]
  dsimp only
  rw [h.data]
  dsimp only
  rw [h.last]
  rfl

end Facts

/-! ## Descriptors -/

section Descriptors
variable {s s₁ s₂ : St P B} {l : List Nat} {i : Nat} {E : Panic → St P B → Prop}

/-- The descriptors `l` have been freed. -/
def Freed (s : St P B) (l : List Nat) (s' : St P B) : Prop :=
  ∃ d f pc, s' = { s with desc := d, free := f, pc := pc } ∧ (∀ i, i ∉ l → d i = s.desc i) ∧
    (∀ i, (d i).more = (s.desc i).more ∧ (d i).next = (s.desc i).next) ∧
    (∀ i, f i = true ↔ s.free i = true ∨ i ∈ l) ∧ ∀ q, (pc q).awake = (s.pc q).awake

theorem Freed.refl (s : St P B) : Freed s [] s :=
  ⟨s.desc, s.free, s.pc, rfl, fun _ _ => rfl, fun _ => ⟨rfl, rfl⟩, fun i => by simp, fun _ => rfl⟩

theorem freeDesc_spec (h : Freed s l s₁) (hi : i < NUM) (hf : s.free i = false) (hl : i ∉ l) :
    wp (freeDesc i) (fun _ => Freed s (l ++ [i])) (fun _ _ => False) s₁ := by
  obtain ⟨d, f, pc, rfl, hd, hflags, hfree, hpc⟩ := h
  have hfi : f i = false := by
    by_contra hne
    rcases (hfree i).1 (by simpa using hne) with h | h
    · rw [hf] at h
      cases h
    · exact hl h
  unfold freeDesc
  simp only [wp_bind, wp_get, wp_ite, wp_throw, wp_set]
  refine ⟨fun hge => absurd hi (Nat.not_lt.2 hge), fun _ => ⟨fun ht => ?_, fun _ => ?_⟩⟩
  · rw [hfi] at ht
    cases ht
  · refine ⟨_, _, _, rfl, fun j hj => ?_, fun j => ?_, fun j => ?_, fun q => ?_⟩
    · have hne : j ≠ i := fun e => hj (by simp [e])
      rw [update_of_ne hne]
      exact hd j fun hm => hj (mem_append_left _ hm)
    · by_cases e : j = i
      · rw [e, update_self]
        exact hflags i
      · rw [update_of_ne e]
        exact hflags j
    · by_cases e : j = i
      · simp [e]
      · rw [update_of_ne e, hfree j]
        simp [e]
    · rw [awake_wakeFree]
      exact hpc q

theorem allocDesc_spec : wp allocDesc (fun r s' => match r with
    | some i => i < NUM ∧ s.free i = true ∧ s' = { s with free := update s.free i false }
    | none => s' = s) E s := by
  unfold allocDesc
  rw [wp_bind, wp_get]
  split
  · next i hf =>
    rw [wp_bind, wp_set, wp_pure]
    exact ⟨mem_range.1 (mem_of_find?_eq_some hf), find?_some hf, rfl⟩
  · rw [wp_pure]

/-- Descriptors that were claimed have been given back: only free ones have been written to. -/
def Rolled (s s' : St P B) : Prop :=
  ∃ d pc, s' = { s with desc := d, pc := pc } ∧ (∀ i, s.free i = false → d i = s.desc i) ∧
    ∀ q, (pc q).awake = (s.pc q).awake

theorem Freed.rolled {f : Nat → Bool} (h : Freed { s with free := f } l s₁)
    (hl : ∀ i, s.free i = true ↔ f i = true ∨ i ∈ l) : Rolled s s₁ := by
  obtain ⟨d, f', pc, rfl, hd, -, hfree, hpc⟩ := h
  have hff : f' = s.free := by
    funext i
    rw [Bool.eq_iff_iff, hfree i, hl i]
  refine ⟨d, pc, by rw [hff], fun i hi => hd i fun hm => ?_, hpc⟩
  rw [(hl i).2 (.inr hm)] at hi
  cases hi

theorem alloc3Desc_spec : wp alloc3Desc (fun r s' => match r with
    | some (i0, i1, i2) => [i0, i1, i2].Nodup ∧ (∀ i ∈ [i0, i1, i2], i < NUM ∧ s.free i = true) ∧
      s' = { s with free := fun i => s.free i && !decide (i ∈ [i0, i1, i2]) }
    | none => Rolled s s') (fun _ _ => False) s := by
  unfold alloc3Desc
  refine allocDesc_spec.seq fun r s₁ h₁ => ?_
  cases r with
  | none =>
    subst h₁
    rw [wp_pure]
    exact ⟨_, _, rfl, fun _ _ => rfl, fun _ => rfl⟩
  | some i0 =>
    obtain ⟨h0, hf0, rfl⟩ := h₁
    dsimp only
    refine allocDesc_spec.seq fun r s₂ h₂ => ?_
    cases r with
    | none =>
      subst h₂
      dsimp only
      refine (freeDesc_spec (.refl _) h0 (by simp) (by simp)).seq fun _ s₃ h₃ => ?_
      rw [wp_pure]
      refine h₃.rolled fun i => ?_
      by_cases e : i = i0
      · simp [e, hf0]
      · simp [e]
    | some i1 =>
      obtain ⟨h1, hf1, rfl⟩ := h₂
      have hne : i1 ≠ i0 := by
        rintro rfl
        simp at hf1
      have hf1 : s.free i1 = true := by simpa [hne] using hf1
      dsimp only
      refine allocDesc_spec.seq fun r s₃ h₃ => ?_
      cases r with
      | none =>
        subst h₃
        dsimp only
        refine (freeDesc_spec (.refl _) h0 ?_ (by simp)).seq fun _ s₄ h₄ => ?_
        · simp [Ne.symm hne]
        · refine (freeDesc_spec h₄ h1 (by simp) (by simp [hne])).seq fun _ s₅ h₅ => ?_
          rw [wp_pure]
          refine Freed.rolled (f := update (update s.free i0 false) i1 false) h₅ fun i => ?_
          by_cases e0 : i = i0
          · simp [e0, hf0]
          · by_cases e1 : i = i1
            · simp [e1, hf1]
            · simp [e0, e1]
      | some i2 =>
        obtain ⟨h2, hf2, rfl⟩ := h₃
        have hne1 : i2 ≠ i1 := by
          rintro rfl
          simp at hf2
        have hne0 : i2 ≠ i0 := by
          rintro rfl
          simp [hne1] at hf2
        have hf2 : s.free i2 = true := by simpa [hne0, hne1] using hf2
        rw [wp_pure]
        refine ⟨by simp [Ne.symm hne, Ne.symm hne0, Ne.symm hne1], by simp [h0, h1, h2, hf0, hf1, hf2], ?_⟩
        congr 1
        funext i
        simp only [update_apply, mem_cons, not_mem_nil, or_false]
        by_cases e0 : i = i0 <;> by_cases e1 : i = i1 <;> by_cases e2 : i = i2 <;> simp [e0, e1, e2]

theorem freeChain_spec {r : Req P B} (head : (s.desc r.i0).more = true ∧ (s.desc r.i0).next = r.i1)
    (data : (s.desc r.i1).more = true ∧ (s.desc r.i1).next = r.i2) (last : (s.desc r.i2).more = false)
    (hn : r.idx.Nodup) (hlt : ∀ i ∈ r.idx, i < NUM) (hf : ∀ i ∈ r.idx, s.free i = false) :
    wp (freeChain (NUM + 1) r.i0) (fun _ => Freed s r.idx) (fun _ _ => False) s := by
  obtain ⟨m0, m1, m2⟩ := mem_idx (r := r)
  have hne : (r.i0 ≠ r.i1 ∧ r.i0 ≠ r.i2) ∧ r.i1 ≠ r.i2 := by simpa [Req.idx] using hn
  obtain ⟨⟨h01, h02⟩, h12⟩ := hne
  -- no `free_desc` changes the flags or the link of a descriptor, so the walk meets all three
  have walk : ∀ {l s₁} (i : Nat), Freed s l s₁ →
      (s₁.desc i).more = (s.desc i).more ∧ (s₁.desc i).next = (s.desc i).next := by
    rintro l _ i ⟨d, f, pc, rfl, -, hflags, -⟩
    exact hflags i
  rw [show NUM + 1 = 6 + 1 + 1 + 1 from rfl]
  unfold freeChain
  refine (freeDesc_spec (.refl _) (hlt _ m0) (hf _ m0) (by simp)).seq fun _ s₁ h₁ => ?_
  rw [wp_bind, wp_get, (walk _ h₁).1, (walk _ h₁).2, if_pos head.1, head.2]
  unfold freeChain
  refine (freeDesc_spec h₁ (hlt _ m1) (hf _ m1) (by simpa using Ne.symm h01)).seq fun _ s₂ h₂ => ?_
  rw [wp_bind, wp_get, (walk _ h₂).1, (walk _ h₂).2, if_pos data.1, data.2]
  unfold freeChain
  refine (freeDesc_spec h₂ (hlt _ m2) (hf _ m2) (by simpa using ⟨Ne.symm h02, Ne.symm h12⟩)).seq fun _ s₃ h₃ => ?_
  rw [wp_bind, wp_get, (walk _ h₃).1, last, if_neg Bool.false_ne_true, wp_pure]
  exact h₃

end Descriptors

end Xv6.Virtio
