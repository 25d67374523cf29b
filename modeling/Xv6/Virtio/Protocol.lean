import Xv6.Lib.Run
import Xv6.Virtio.Invariant
/-!
# The protocol between driver and device

Each step moves one request from one place to the next, or leaves all where
they are. A request takes three of the `NUM` descriptors, so at most two are
outstanding, and the used ring's index, which the driver compares modulo `NUM`
only, tells whether anything is left to handle (`Protocol.caught_up`).
-/

namespace Xv6.Virtio

open Hoare Run Function List

variable {P B : Type}

/-! ## Steps -/

section Steps
variable {s : St P B} {w : Places P B} {r : Req P B}

theorem Inv.init (h : Init s) : Inv s ⟨[], [], [], [], []⟩ where
  nodup := by simp [h.live]
  lt := by simp [h.live]
  free i := by simp [h.live, h.free]
  chain := by simp [h.live]
  owner r := by simp [h.live, h.pc, Pc.awake]
  buf := by simp [h.pc, Pc.call]
  serial := by simp [h.pc, Pc.call]
  fresh := by simp [h.pc, Pc.call]
  perm := by simp [h.live]
  avail := ⟨by rw [h.devIdx]; decide, by simp, by rw [h.devIdx, h.availIdx]; rfl, by simp⟩
  taken := h.taken
  executed := h.executed
  used := ⟨0, ⟨by decide, by simp, by rw [h.usedId]; rfl, by simp⟩, h.usedIdx⟩
  history := ⟨[], h.appended, h.handled⟩
  busy := by simp
  cleared := by simp
  did := by simp
  once := by simp [h.performed]
  old := by simp [h.performed]
  todo := by simp
  waiting := by simp [h.performed]
  returned := by simp [h.returned]
  panic := h.panic

theorem Inv.wake (h : Inv s w) {d : Nat → Desc B} {pc : P → Pc B} (hd : ∀ i, s.free i = false → d i = s.desc i)
    (hpc : ∀ q, (pc q).awake = (s.pc q).awake) : Inv { s with desc := d, pc := pc } w :=
  have hcall : ∀ q, (pc q).call = (s.pc q).call := fun q => call_congr (hpc q)
  { h with
    chain := fun r hr => (h.chain r hr).keep (fun i hi => hd i (h.not_free hr hi)) rfl rfl
    owner := fun r => (hpc r.p).symm ▸ h.owner r
    buf := fun p q c c' hc hc' => h.buf p q c c' (hcall p ▸ hc) (hcall q ▸ hc')
    serial := fun p q c c' hc hc' => h.serial p q c c' (hcall p ▸ hc) (hcall q ▸ hc')
    fresh := fun p c hc => h.fresh p c (hcall p ▸ hc)
    waiting := fun p c hc => h.waiting p c (hpc p ▸ hc) }

theorem perm_move {α : Type} (a l m n : List α) (x : α) :
    ((a ++ x :: l) ++ (m ++ n)).Perm ((a ++ l) ++ ((m ++ [x]) ++ n)) := by
  have h1 : ((a ++ x :: l) ++ (m ++ n)).Perm (x :: ((a ++ l) ++ (m ++ n))) := perm_middle.append_right _
  have h2 : ((a ++ l) ++ ((m ++ [x]) ++ n)).Perm (x :: ((a ++ l) ++ (m ++ n))) := by
    rw [append_assoc m, singleton_append, ← append_assoc (a ++ l), ← append_assoc (a ++ l)]
    exact perm_middle
  exact h1.trans h2.symm

theorem Inv.take (h : Inv s w) (hne : s.devIdx ≠ s.availIdx) :
    ∃ w', Inv { s with
      devIdx := (s.devIdx + 1) % 2 ^ 16
      taken := s.taken ++ [s.avail (s.devIdx % NUM)] } w' := by
  cases hq : w.queued with
  | nil => exact absurd ((h.avail.empty_iff (by decide)).2 (by rw [hq]; rfl)) hne
  | cons r q =>
    have havail := h.avail
    rw [hq] at havail
    obtain ⟨hhead, hrest⟩ := havail.pop (by decide)
    refine ⟨{ w with queued := q, taken := w.taken ++ [r] }, { h with
      chain := fun x hx => (h.chain x hx).keep (fun _ _ => rfl) rfl rfl
      avail := hrest
      perm := ?_
      taken := ?_
      busy := fun x hx => h.busy x ?_
      todo := fun x hx => h.todo x ?_ }⟩
    · have hperm := h.perm
      rw [hq] at hperm
      exact hperm.trans (perm_move [] _ _ _ _)
    · rw [map_append, ← h.taken, hhead]
      rfl
    · rw [hq]
      simp only [mem_append, mem_cons, not_mem_nil, or_false] at hx ⊢
      tauto
    · rw [hq]
      simp only [mem_append, mem_cons, not_mem_nil, or_false] at hx ⊢
      tauto

theorem Inv.perform (h : Inv s w) {a l : List Nat} {k i : Nat} {d : Done B} (ht : s.taken = a ++ k :: l)
    (hd : readChain s.desc k = some (d, i)) :
    ∃ w', Inv { s with
      taken := a ++ l
      executed := s.executed ++ [(k, d)]
      infoStatus := update s.infoStatus i 0
      performed := s.performed ++ [d] } w' := by
  rw [h.taken] at ht
  obtain ⟨a', rest, hw, rfl, hrest⟩ := map_eq_append_iff.1 ht
  obtain ⟨r, l', rfl, rfl, rfl⟩ := map_eq_cons_iff.1 hrest
  have hr : r ∈ s.live := h.mem (.inr (.inl (by simp [hw])))
  rw [(h.chain r hr).read] at hd
  simp only [Option.some.injEq, Prod.mk.injEq] at hd
  obtain ⟨rfl, rfl⟩ := hd
  have hperm := h.perm
  rw [hw] at hperm
  have hperm' := hperm.trans ((perm_move a' l' w.executed _ r).append_left w.queued)
  have hr' : r ∉ w.queued ++ (a' ++ l') := by
    have hn := hperm.nodup_iff.1 h.nodup_live
    intro hm
    simp only [nodup_append, nodup_cons, mem_append, mem_cons] at hn hm
    grind
  have htodo := h.todo
  rw [hw] at htodo
  refine ⟨{ w with taken := a' ++ l', executed := w.executed ++ [r] }, { h with
    chain := fun x hx => ?_
    perm := hperm'
    taken := by simp
    executed := ?_
    busy := fun x hx => h.busy x ?_
    did := fun x hx => ?_
    once := ?_
    old := fun d hd => ?_
    todo := fun x hx d hd => ?_
    waiting := fun p c hc d hd => ?_
    returned := fun c hc => mem_append_left _ (h.returned c hc) }⟩
  · refine ⟨(h.chain x hx).head, (h.chain x hx).data, (h.chain x hx).last, (h.chain x hx).info, ?_⟩
    by_cases e : x.i0 = r.i0
    · simp [e]
    · simpa [e] using (h.chain x hx).status
  · rw [map_append, ← h.executed]
    rfl
  · rw [hw]
    simp only [mem_append, mem_cons, not_mem_nil, or_false] at hx ⊢
    tauto
  · simp only [mem_append, mem_cons, not_mem_nil, or_false] at hx ⊢
    rcases hx with (hx | rfl) | hx | hx
    · exact .inl (h.did x (by simp [hx]))
    · exact .inr rfl
    · exact .inl (h.did x (by simp [hx]))
    · exact .inl (h.did x (by simp [hx]))
  · rw [map_append, nodup_append]
    refine ⟨h.once, by simp, ?_⟩
    intro n hn m hm
    obtain ⟨d, hd, rfl⟩ := mem_map.1 hn
    obtain rfl : m = r.c.serial := by simpa [Call.done] using hm
    exact htodo r (by simp) d hd
  · rcases mem_append.1 hd with hd | hd
    · exact h.old d hd
    · obtain rfl := mem_singleton.1 hd
      exact h.fresh r.p r.c (h.call_of_live hr)
  · rcases mem_append.1 hd with hd | hd
    · refine htodo x ?_ d hd
      simp only [mem_append, mem_cons] at hx ⊢
      tauto
    · obtain rfl := mem_singleton.1 hd
      intro he
      have hx' : x ∈ s.live := by
        refine hperm.mem_iff.2 ?_
        simp only [mem_append, mem_cons] at hx ⊢
        tauto
      have hxr : r = x := h.unique hr hx' (h.serial _ _ _ _ (h.call_of_live hr) (h.call_of_live hx') he)
      exact hr' (hxr ▸ hx)
  · rcases mem_append.1 hd with hd | hd
    · exact h.waiting p c hc d hd
    · obtain rfl := mem_singleton.1 hd
      intro he
      have hcall : (s.pc p).call = some c := by
        rw [← call_awake, hc]
        rfl
      have hp : r.p = p := h.serial _ _ _ _ (h.call_of_live hr) hcall he
      exact h.not_enter hr (hp ▸ hc)

theorem Inv.append (h : Inv s w) {a l : List (Nat × Done B)} {k : Nat} {d : Done B}
    (he : s.executed = a ++ (k, d) :: l) :
    ∃ w', Inv { s with
      executed := a ++ l
      usedElems := update s.usedElems (s.usedId % NUM) k
      usedId := (s.usedId + 1) % 2 ^ 16
      appended := s.appended ++ [d] } w' := by
  rw [h.executed] at he
  obtain ⟨a', rest, hw, rfl, hrest⟩ := map_eq_append_iff.1 he
  obtain ⟨r, l', rfl, hkd, rfl⟩ := map_eq_cons_iff.1 hrest
  simp only [Prod.mk.injEq] at hkd
  obtain ⟨rfl, rfl⟩ := hkd
  have hperm := h.perm
  rw [hw] at hperm
  have hperm' := hperm.trans (((perm_move a' l' w.used _ r).append_left w.taken).append_left w.queued)
  have hlen : w.used.length < NUM := by
    have := h.places_le
    have : NUM = 8 := rfl
    omega
  obtain ⟨b, hb, hidx⟩ := h.used
  obtain ⟨old, happ, hold⟩ := h.history
  refine ⟨{ w with executed := a' ++ l', used := w.used ++ [r] }, { h with
    chain := fun x hx => (h.chain x hx).keep (fun _ _ => rfl) rfl rfl
    perm := hperm'
    executed := by simp
    used := ⟨b, ?_, hidx⟩
    history := ⟨old, ?_, hold⟩
    busy := fun x hx => h.busy x ?_
    did := fun x hx => h.did x ?_ }⟩
  · rw [map_append]
    exact hb.push (by decide) (by simpa using hlen) r.i0
  · rw [map_append, happ, append_assoc]
    rfl
  · rw [hw]
    simp only [mem_append, mem_cons, not_mem_nil, or_false] at hx ⊢
    tauto
  · rw [hw]
    simp only [mem_append, mem_cons, not_mem_nil, or_false] at hx ⊢
    tauto

end Steps

/-! ## Steps of the driver -/

section Driver
variable {s : St P B} {w : Places P B} {r : Req P B}

theorem after_of_wp {m : M P B Unit} {I : St P B → Prop} (h : wp m (fun _ => I) (fun _ _ => False) s) :
    I (s.after m) := by
  obtain ⟨a, s', he, hI⟩ := h.returns
  unfold St.after
  rw [he]
  exact hI

theorem Req.format_of_not_mem {d : Nat → Desc B} {i : Nat} (hi : i ∉ r.idx) : r.format d i = d i := by
  simp only [Req.idx, mem_cons, not_mem_nil, or_false, not_or] at hi
  simp [Req.format, hi]

/-- A request whose buffer is not the device's any more has been cleared by the handler. -/
theorem Inv.mem_cleared (h : Inv s w) (hr : r ∈ s.live) (hb : s.bdisk r.c.b = false) : r ∈ w.cleared := by
  have hm := h.perm.mem_iff.1 hr
  by_contra hno
  have := h.busy r (by simp only [mem_append] at hm ⊢; tauto)
  rw [hb] at this
  cases this

variable [DecidableEq P]

theorem Inv.call (h : Inv s w) {p : P} {c : Call B} (hp : s.pc p = .user) (hc : c.serial = s.next)
    (hb : ∀ q c', (s.pc q).call = some c' → c'.b ≠ c.b) :
    Inv { s with pc := update s.pc p (.enter c), next := s.next + 1 } w := by
  have hcalls : ∀ q c', (update s.pc p (.enter c) q).call = some c' →
      (q = p ∧ c' = c) ∨ (q ≠ p ∧ (s.pc q).call = some c') := by
    intro q c' hq
    by_cases e : q = p
    · subst e
      rw [update_self] at hq
      exact .inl ⟨rfl, (Option.some.inj hq).symm⟩
    · rw [update_of_ne e] at hq
      exact .inr ⟨e, hq⟩
  refine { h with
    chain := fun x hx => (h.chain x hx).keep (fun _ _ => rfl) rfl rfl
    owner := fun x => ?_
    buf := fun q q' d d' hd hd' he => ?_
    serial := fun q q' d d' hd hd' he => ?_
    fresh := fun q d hd => ?_
    old := fun d hd => Nat.lt_succ_of_lt (h.old d hd)
    waiting := fun q d hq x hx => ?_ }
  · by_cases e : x.p = p
    · have hno := h.owner x
      rw [e, hp] at hno
      dsimp only
      rw [e, update_self, ← hno]
      simp [Pc.awake]
    · dsimp only
      rw [update_of_ne e]
      exact h.owner x
  · rcases hcalls q d hd with ⟨rfl, rfl⟩ | ⟨-, hq⟩ <;> rcases hcalls q' d' hd' with ⟨rfl, rfl⟩ | ⟨-, hq'⟩
    · rfl
    · exact absurd he.symm (hb _ _ hq')
    · exact absurd he (hb _ _ hq)
    · exact h.buf _ _ _ _ hq hq' he
  · rcases hcalls q d hd with ⟨rfl, rfl⟩ | ⟨-, hq⟩ <;> rcases hcalls q' d' hd' with ⟨rfl, rfl⟩ | ⟨-, hq'⟩
    · rfl
    · have := h.fresh _ _ hq'
      omega
    · have := h.fresh _ _ hq
      omega
    · exact h.serial _ _ _ _ hq hq' he
  · rcases hcalls q d hd with ⟨rfl, rfl⟩ | ⟨-, hd⟩
    · exact hc ▸ Nat.lt_succ_self _
    · exact Nat.lt_succ_of_lt (h.fresh _ _ hd)
  · dsimp only at hq
    by_cases e : q = p
    · rw [e, update_self] at hq
      obtain rfl : c = d := by simpa [Pc.awake] using hq
      have := h.old x hx
      omega
    · rw [update_of_ne e] at hq
      exact h.waiting q d hq x hx

/-- A request with free descriptors is handed to the device, and its process sleeps. -/
theorem Inv.submit (h : Inv s w) (hp : s.pc r.p = .enter r.c) (hn : r.idx.Nodup)
    (hf : ∀ i ∈ r.idx, i < NUM ∧ s.free i = true) [DecidableEq B] :
    Inv { s with
      free := fun i => s.free i && !decide (i ∈ r.idx)
      desc := r.format s.desc
      infoStatus := update s.infoStatus r.i0 0
      bdisk := update s.bdisk r.c.b true
      infoB := update s.infoB r.i0 (some r.c.b)
      avail := update s.avail (s.availIdx % NUM) r.i0
      availIdx := (s.availIdx + 1) % 2 ^ 16
      live := s.live ++ [r]
      pc := update s.pc r.p (.sleepBuf r.c r.i0 r.i1 r.i2) } { w with queued := w.queued ++ [r] } := by
  have hout : ∀ i ∈ r.idx, i ∉ s.live.flatMap Req.idx := fun i hi => ((h.free i).1 (hf i hi).2).2
  have hout' : ∀ x ∈ s.live, ∀ i ∈ x.idx, i ∉ r.idx := fun x hx i hi hir => hout i hir (mem_flatMap_idx hx hi)
  have hflat : (s.live ++ [r]).flatMap Req.idx = s.live.flatMap Req.idx ++ r.idx := by simp
  have hcall : ∀ q, (update s.pc r.p (.sleepBuf r.c r.i0 r.i1 r.i2) q).call = (s.pc q).call := by
    intro q
    by_cases e : q = r.p
    · rw [e, update_self, hp]
      rfl
    · rw [update_of_ne e]
  -- the process was in no request, so the buffers of the others are different
  have hproc : ∀ x ∈ s.live, x.p ≠ r.p := by
    intro x hx e
    exact h.not_enter (c := r.c) hx (by rw [e, hp]; rfl)
  have hbuf : ∀ x ∈ s.live, x.c.b ≠ r.c.b := by
    intro x hx e
    exact hproc x hx (h.buf _ _ _ _ (h.call_of_live hx) (by rw [hp]; rfl) e)
  have hmem : ∀ x, x ∈ w.queued ∨ x ∈ w.taken ∨ x ∈ w.executed ∨ x ∈ w.used ∨ x ∈ w.cleared → x ∈ s.live :=
    fun x hx => h.mem hx
  obtain ⟨⟨h01, h02⟩, h12⟩ : (r.i0 ≠ r.i1 ∧ r.i0 ≠ r.i2) ∧ r.i1 ≠ r.i2 := by simpa [Req.idx] using hn
  refine { h with
    nodup := ?_
    lt := fun i hi => ?_
    free := fun i => ?_
    chain := fun x hx => ?_
    owner := fun x => ?_
    buf := fun p q c c' hc hc' => h.buf p q c c' (hcall p ▸ hc) (hcall q ▸ hc')
    serial := fun p q c c' hc hc' => h.serial p q c c' (hcall p ▸ hc) (hcall q ▸ hc')
    fresh := fun p c hc => h.fresh p c (hcall p ▸ hc)
    perm := ?_
    avail := ?_
    busy := fun x hx => ?_
    cleared := fun x hx => ?_
    todo := fun x hx => ?_
    waiting := fun p c hc => ?_ }
  · rw [hflat, nodup_append]
    exact ⟨h.nodup, hn, fun i hi j hj e => hout j hj (e ▸ hi)⟩
  · rw [hflat] at hi
    rcases mem_append.1 hi with hi | hi
    · exact h.lt i hi
    · exact (hf i hi).1
  · rw [hflat, mem_append, not_or, ← and_assoc, ← h.free i]
    simp
  · rcases mem_append.1 hx with hx | hx
    · have h0 : x.i0 ≠ r.i0 := fun e => hout' x hx _ mem_idx.1 (e ▸ mem_idx.1)
      refine (h.chain x hx).keep (fun i hi => Req.format_of_not_mem (hout' x hx i hi)) ?_ ?_
      · exact update_of_ne h0 _ _
      · exact update_of_ne h0 _ _
    · obtain rfl := mem_singleton.1 hx
      exact ⟨by simp [Req.format, h01, h02], by simp [Req.format, h12], by simp [Req.format], by simp, by simp⟩
  · by_cases e : x.p = r.p
    · dsimp only
      rw [e, update_self, mem_append, mem_singleton]
      constructor
      · intro hx
        refine .inr ?_
        cases x
        cases r
        simp only [Pc.awake, Pc.wait.injEq] at hx e
        simp [hx, e]
      · rintro (hx | rfl)
        · exact absurd e (hproc x hx)
        · rfl
    · dsimp only
      rw [update_of_ne e, h.owner x, mem_append, mem_singleton]
      exact ⟨.inl, fun hx => hx.resolve_right fun hxr => e (hxr ▸ rfl)⟩
  · have hcons : (s.live ++ [r]).Perm (r :: s.live) := perm_append_comm
    dsimp only
    rw [append_assoc, singleton_append]
    exact hcons.trans ((h.perm.cons r).trans perm_middle.symm)
  · have hlen : w.queued.length < NUM := by
      have := h.places_le
      have : NUM = 8 := rfl
      omega
    rw [map_append]
    exact h.avail.push (by decide) (by simpa using hlen) r.i0
  · dsimp only
    by_cases e : x.c.b = r.c.b
    · rw [e, update_self]
    · rw [update_of_ne e]
      refine h.busy x ?_
      have hxr : x ≠ r := fun hxr => e (hxr ▸ rfl)
      simp only [mem_append, mem_singleton] at hx ⊢
      tauto
  · dsimp only
    rw [update_of_ne (hbuf x (hmem x (by simp [hx])))]
    exact h.cleared x hx
  · simp only [mem_append, mem_singleton] at hx
    rcases hx with (hx | rfl) | hx
    · exact h.todo x (by simp [hx])
    · exact h.waiting x.p x.c (by rw [hp]; rfl)
    · exact h.todo x (by simp [hx])
  · by_cases e : p = r.p
    · dsimp only at hc
      rw [e, update_self] at hc
      cases hc
    · dsimp only at hc
      rw [update_of_ne e] at hc
      exact h.waiting p c hc

theorem Inv.finish (h : Inv s w) (hr : r ∈ s.live) (hb : s.bdisk r.c.b = false) {d : Nat → Desc B} {f : Nat → Bool}
    {pc : P → Pc B} (hd : ∀ i, i ∉ r.idx → d i = s.desc i) (hf : ∀ i, f i = true ↔ s.free i = true ∨ i ∈ r.idx)
    (hpc : ∀ q, (pc q).awake = (s.pc q).awake) :
    ∃ w', Inv { s with
      infoB := update s.infoB r.i0 none
      desc := d
      free := f
      pc := update pc r.p .user
      live := s.live.filter fun x => x.p ≠ r.p
      returned := s.returned ++ [r.c] } w' := by
  obtain ⟨a, l, hw⟩ := append_of_mem (h.mem_cleared hr hb)
  have hperm : s.live.Perm (r :: (w.queued ++ (w.taken ++ (w.executed ++ (w.used ++ (a ++ l)))))) := by
    refine h.perm.trans ?_
    rw [hw]
    simp only [← append_assoc]
    exact perm_middle
  have hlive : ∀ x, x ∈ s.live.filter (fun x => x.p ≠ r.p) ↔ x ∈ s.live ∧ x ≠ r := by
    intro x
    rw [mem_filter, decide_eq_true_iff]
    exact and_congr_right fun hx => ⟨fun hp e => hp (e ▸ rfl), fun hne hp => hne (h.unique hx hr hp)⟩
  have hflat : ∀ i, i ∈ (s.live.filter fun x => x.p ≠ r.p).flatMap Req.idx ↔
      i ∈ s.live.flatMap Req.idx ∧ i ∉ r.idx := by
    intro i
    simp only [mem_flatMap, hlive]
    constructor
    · rintro ⟨x, ⟨hx, hne⟩, hi⟩
      exact ⟨⟨x, hx, hi⟩, fun hir => hne (h.idx_inj hx hr hi hir)⟩
    · rintro ⟨⟨x, hx, hi⟩, hir⟩
      exact ⟨x, ⟨hx, fun e => hir (e ▸ hi)⟩, hi⟩
  have hcall : ∀ q c, (update pc r.p .user q).call = some c → q ≠ r.p ∧ (s.pc q).call = some c := by
    intro q c hq
    by_cases e : q = r.p
    · rw [e, update_self] at hq
      cases hq
    · rw [update_of_ne e, call_congr (hpc q)] at hq
      exact ⟨e, hq⟩
  refine ⟨{ w with cleared := a ++ l }, { h with
    nodup := ?_
    lt := fun i hi => h.lt i ((hflat i).1 hi).1
    free := fun i => ?_
    chain := fun x hx => ?_
    owner := fun x => ?_
    buf := fun p q c c' hc hc' => h.buf p q c c' (hcall p c hc).2 (hcall q c' hc').2
    serial := fun p q c c' hc hc' => h.serial p q c c' (hcall p c hc).2 (hcall q c' hc').2
    fresh := fun p c hc => h.fresh p c (hcall p c hc).2
    perm := ?_
    cleared := fun x hx => h.cleared x ?_
    did := fun x hx => h.did x ?_
    waiting := fun p c hc => ?_
    returned := fun c hc => ?_ }⟩
  · obtain ⟨hn, hpair⟩ := nodup_flatMap.1 h.nodup
    exact nodup_flatMap.2 ⟨fun x hx => hn x ((hlive x).1 hx).1, hpair.filter _⟩
  · rw [hf i, h.free i, hflat i]
    by_cases hi : i ∈ r.idx
    · simp [hi, h.lt i (mem_flatMap_idx hr hi)]
    · simp [hi]
  · obtain ⟨hx, hne⟩ := (hlive x).1 hx
    refine (h.chain x hx).keep (fun i hi => hd i fun hir => hne (h.idx_inj hx hr hi hir)) ?_ rfl
    refine update_of_ne (fun e : x.i0 = r.i0 => hne (h.idx_inj hx hr mem_idx.1 ?_)) _ _
    rw [e]
    exact mem_idx.1
  · by_cases e : x.p = r.p
    · dsimp only
      rw [e, update_self]
      constructor
      · intro hx
        cases hx
      · intro hx
        exact absurd e (of_decide_eq_true (mem_filter.1 hx).2)
    · dsimp only
      rw [update_of_ne e, hpc, h.owner x, hlive]
      exact ⟨fun hx => ⟨hx, fun hxr => e (hxr ▸ rfl)⟩, And.left⟩
  · refine (hperm.filter _).trans ?_
    have hno : ∀ x ∈ w.queued ++ (w.taken ++ (w.executed ++ (w.used ++ (a ++ l)))), x.p ≠ r.p := by
      have hn := hperm.nodup_iff.1 h.nodup_live
      intro x hx hp
      have hxr := h.unique (hperm.mem_iff.2 (mem_cons_of_mem _ hx)) hr hp
      exact (nodup_cons.1 hn).1 (hxr ▸ hx)
    rw [filter_cons_of_neg (by simp), filter_eq_self.2 fun x hx => decide_eq_true (hno x hx)]
  · rw [hw]
    simp only [mem_append, mem_cons] at hx ⊢
    tauto
  · rw [hw]
    simp only [mem_append, mem_cons] at hx ⊢
    tauto
  · by_cases e : p = r.p
    · dsimp only at hc
      rw [e, update_self] at hc
      cases hc
    · dsimp only at hc
      rw [update_of_ne e, hpc] at hc
      exact h.waiting p c hc
  · rcases mem_append.1 hc with hc | hc
    · exact h.returned c hc
    · obtain rfl := mem_singleton.1 hc
      exact h.did r (by simp [hw])

end Driver

/-! ## The handler -/

section Handler
variable [DecidableEq B] {s : St P B} {w : Places P B} {r : Req P B}

/-- After a round of the handler that finds the buffer `b`. -/
def St.clear (s : St P B) (b : B) : St P B :=
  { s with
    bdisk := Function.update s.bdisk b false
    pc := fun q => (s.pc q).wakeBuf b
    usedIdx := (s.usedIdx + 1) % NUM
    handled := s.handled ++ [b] }

theorem intrRound_spec (h : Chain s r) (hid : s.usedElems s.usedIdx = r.i0) {E : Panic → St P B → Prop} :
    wp intrRound (fun _ s' => s' = s.clear r.c.b) E s := by
  unfold intrRound
  simp only [wp_bind, wp_get, wp_ite, wp_throw, hid, h.status, h.info, wp_set]
  exact ⟨fun hne => absurd rfl hne, fun _ => rfl⟩

/-- When the indices differ modulo `NUM`, the next completion is that of a request, whose buffer is cleared. -/
theorem Inv.round (h : Inv s w) (hne : s.usedIdx % NUM ≠ s.usedId % NUM) :
    ∃ r ∈ s.live, s.appended[s.handled.length]? = some r.c.done ∧ s.after intrRound = s.clear r.c.b ∧
      ∃ w', Inv (s.clear r.c.b) w' := by
  obtain ⟨b, hused, hidx⟩ := h.used
  obtain ⟨old, happ, hold⟩ := h.history
  cases hw : w.used with
  | nil =>
    refine absurd ?_ hne
    have hb : b = s.usedId := (hused.empty_iff (by decide)).2 (by rw [hw]; rfl)
    rw [hidx, Nat.mod_mod, hb]
  | cons r l =>
    have hr : r ∈ s.live := h.mem (.inr (.inr (.inr (.inl (by simp [hw])))))
    rw [hw] at hused happ
    obtain ⟨hhead, hrest⟩ := hused.pop (by decide)
    have hid : s.usedElems s.usedIdx = r.i0 := by rw [hidx, hhead]
    have hperm := h.perm
    rw [hw] at hperm
    have hn := hperm.nodup_iff.1 h.nodup_live
    have hcall : ∀ q, ((s.pc q).wakeBuf r.c.b).call = (s.pc q).call := fun q => call_congr (awake_wakeBuf _ _)
    refine ⟨r, hr, ?_, after_of_wp (intrRound_spec (h.chain r hr) hid),
      { w with used := l, cleared := w.cleared ++ [r] }, { h with
        chain := fun x hx => (h.chain x hx).keep (fun _ _ => rfl) rfl rfl
        owner := fun x => (awake_wakeBuf r.c.b (s.pc x.p)).symm ▸ h.owner x
        buf := fun p q c c' hc hc' => h.buf p q c c' (hcall p ▸ hc) (hcall q ▸ hc')
        serial := fun p q c c' hc hc' => h.serial p q c c' (hcall p ▸ hc) (hcall q ▸ hc')
        fresh := fun p c hc => h.fresh p c (hcall p ▸ hc)
        perm := ?_
        used := ⟨_, hrest, ?_⟩
        history := ⟨old ++ [r.c.done], ?_, ?_⟩
        busy := fun x hx => ?_
        cleared := fun x hx => ?_
        did := fun x hx => h.did x ?_
        waiting := fun p c hc => h.waiting p c (awake_wakeBuf r.c.b (s.pc p) ▸ hc) }⟩
    · rw [happ, hold, length_map, getElem?_append_right (Nat.le_refl _), Nat.sub_self]
      rfl
    · refine hperm.trans ?_
      have := perm_move [] l w.cleared [] r
      simp only [nil_append, append_nil] at this
      exact ((this.append_left _).append_left _).append_left _
    · show (s.usedIdx + 1) % NUM = (b + 1) % 2 ^ 16 % NUM
      rw [hidx, Nat.mod_add_mod, Nat.mod_mod_of_dvd _ (by decide)]
    · show s.appended = _
      rw [happ, append_assoc]
      rfl
    · show s.handled ++ _ = _
      rw [hold, map_append]
      rfl
    · show update s.bdisk r.c.b false x.c.b = true
      have hx' : x ∈ s.live := by
        refine hperm.mem_iff.2 ?_
        simp only [mem_append, mem_cons] at hx ⊢
        tauto
      -- a request is in one place, so this is not the one that was cleared
      have hne : x ≠ r := by
        rintro rfl
        simp only [nodup_append, nodup_cons, mem_append, mem_cons] at hn hx
        grind
      rw [update_of_ne fun e => hne (h.buf_inj hx' hr e)]
      refine h.busy x ?_
      rw [hw]
      simp only [mem_append, mem_cons] at hx ⊢
      tauto
    · show update s.bdisk r.c.b false x.c.b = false
      by_cases e : x.c.b = r.c.b
      · rw [e, update_self]
      · rw [update_of_ne e]
        rcases mem_append.1 hx with hx | hx
        · exact h.cleared x hx
        · exact absurd (mem_singleton.1 hx ▸ rfl) e
    · rw [hw]
      simp only [mem_append, mem_cons, not_mem_nil, or_false] at hx ⊢
      tauto

end Handler

/-! ## Runs -/

variable [DecidableEq P] [DecidableEq B]

section Runs
variable {s s' : St P B} {w : Places P B}

/-- The invariant holds, and no buffer has been taken from the device. -/
def Keeps (s s' : St P B) : Prop := (∃ w, Inv s' w) ∧ ∀ b, s.bdisk b = true → s'.bdisk b = true

theorem Inv.start (h : Inv s w) {p : P} {c : Call B} (hp : s.pc p = .enter c) :
    wp (rwStart p c) (fun _ => Keeps s) (fun _ _ => False) s := by
  unfold rwStart
  refine alloc3Desc_spec.seq fun r s₁ h₁ => ?_
  cases r with
  | none =>
    obtain ⟨d, pc, rfl, hd, hpc⟩ := h₁
    dsimp only
    rw [wp_modify]
    refine ⟨⟨w, h.wake hd fun q => ?_⟩, fun _ hb => hb⟩
    by_cases e : q = p
    · rw [e, update_self, hp]
      rfl
    · rw [update_of_ne e]
      exact hpc q
  | some i =>
    obtain ⟨i0, i1, i2⟩ := i
    obtain ⟨hn, hf, rfl⟩ := h₁
    dsimp only
    rw [wp_bind]
    unfold Virtio.submit
    rw [wp_modify]
    unfold rwWait
    rw [wp_bind, wp_get, wp_ite, wp_set]
    refine ⟨fun _ => ⟨⟨_, h.submit (r := ⟨p, c, i0, i1, i2⟩) hp hn hf⟩, fun b hb => ?_⟩, fun hb => absurd ?_ hb⟩
    · show update s.bdisk c.b true b = true
      rw [update_apply, hb, ite_self]
    · exact update_self ..

omit [DecidableEq B] in
theorem Inv.resume (h : Inv s w) {p : P} {c : Call B} {i0 i1 i2 : Nat} (hp : s.pc p = .wait c i0 i1 i2) :
    wp (rwWait ⟨p, c, i0, i1, i2⟩) (fun _ => Keeps s) (fun _ _ => False) s := by
  generalize hr : (⟨p, c, i0, i1, i2⟩ : Req P B) = r
  have hlive : r ∈ s.live := by
    refine (h.owner r).1 ?_
    rw [← hr, hp]
    rfl
  have hidx : ∀ i ∈ r.idx, i < NUM := fun i hi => h.lt i (mem_flatMap_idx hlive hi)
  have hc := h.chain r hlive
  unfold rwWait
  simp only [wp_bind, wp_get, wp_ite, wp_set, wp_modify]
  refine ⟨fun _ => ⟨⟨w, h.wake (fun _ _ => rfl) fun q => ?_⟩, fun _ hb => hb⟩, fun hb => ?_⟩
  · by_cases e : q = r.p
    · rw [e, update_self, (h.owner r).2 hlive]
      rfl
    · rw [update_of_ne e]
  · refine (freeChain_spec (s := { s with infoB := update s.infoB r.i0 none }) (r := r) ?_ ?_ ?_
      ((nodup_flatMap.1 h.nodup).1 r hlive) hidx fun i hi => h.not_free hlive hi).imp fun _ s₁ h₁ => ?_
    · dsimp only
      rw [hc.head]
      exact ⟨rfl, rfl⟩
    · dsimp only
      rw [hc.data]
      exact ⟨rfl, rfl⟩
    · dsimp only
      rw [hc.last]
    · obtain ⟨d, f, pc, rfl, hd, -, hf, hpc⟩ := h₁
      exact ⟨h.finish hlive (by simpa using hb) hd hf hpc, fun _ hb => hb⟩

theorem keeps_step {e : Event P B} (h : Inv s w) (hs : Step s e s') (he : e ≠ .round) : Keeps s s' := by
  cases hs with
  | call _ hp hb => exact ⟨⟨w, h.call hp rfl hb⟩, fun _ hb => hb⟩
  | start _ _ hp => exact after_of_wp (h.start hp)
  | resume _ _ hp => exact after_of_wp (h.resume hp)
  | @kick p =>
    refine ⟨⟨w, h.wake (fun _ _ => rfl) fun q => ?_⟩, fun _ hb => hb⟩
    by_cases e : q = p
    · rw [e, update_self, awake_awake]
    · rw [update_of_ne e]
  | take _ hne => exact ⟨h.take hne, fun _ hb => hb⟩
  | perform _ ht hd => exact ⟨h.perform ht hd, fun _ hb => hb⟩
  | append _ ha => exact ⟨h.append ha, fun _ hb => hb⟩
  | intr => exact ⟨⟨w, { h with chain := fun x hx => (h.chain x hx).keep (fun _ _ => rfl) rfl rfl }⟩, fun _ hb => hb⟩
  | round => exact absurd rfl he
  | intrEnd => exact ⟨⟨w, { h with chain := fun x hx => (h.chain x hx).keep (fun _ _ => rfl) rfl rfl }⟩, fun _ hb => hb⟩

/-- A round handles the next completion, which is that of an outstanding request. -/
theorem round_step (h : Inv s w) (hs : Step s .round s') :
    (∃ w', Inv s' w') ∧ ∃ r ∈ s.live, s.appended[s.handled.length]? = some r.c.done ∧ s' = s.clear r.c.b := by
  cases hs with
  | round _ _ hne =>
    obtain ⟨r, hr, hnext, hafter, w', hw'⟩ := h.round hne
    exact ⟨⟨w', hafter ▸ hw'⟩, r, hr, hnext, hafter⟩

theorem inv_reach (h : Reach Init Step s) : ∃ w, Inv s w := by
  refine Reach.inv (fun s => ∃ w, Inv s w) (fun _ hi => ⟨_, .init hi⟩) (fun s e s' hi hs => ?_) h
  obtain ⟨w, hi⟩ := hi
  by_cases he : e = .round
  · exact (round_step hi (he ▸ hs)).1
  · exact (keeps_step hi hs he).1

/-- What holds between the processes, the device and the handler. -/
structure Protocol (s : St P B) : Prop where
  /-- A request is outstanding while its process is in the call and has descriptors. -/
  owner : ∀ r : Req P B, r ∈ s.live ↔ (s.pc r.p).awake = .wait r.c r.i0 r.i1 r.i2
  disjoint : s.live.Pairwise fun r r' => r.idx.Disjoint r'.idx
  free : ∀ i, s.free i = true ↔ i < NUM ∧ ∀ r ∈ s.live, i ∉ r.idx
  outstanding : s.live.length ≤ NUM / 3
  /-- The device finds the request that was formatted. -/
  taken : ∀ k ∈ s.taken, ∃ r ∈ s.live, r.i0 = k ∧ readChain s.desc k = some (r.c.done, r.i0)
  once : (s.performed.map Done.serial).Nodup
  /-- The completions are handled in the order of the used ring. -/
  handled : s.handled <+: s.appended.map Done.b
  caught_up : s.usedIdx % NUM = s.usedId % NUM → s.handled = s.appended.map Done.b
  round : ∀ s', Step s .round s' → ∃ r ∈ s.live, s.appended[s.handled.length]? = some r.c.done ∧ s' = s.clear r.c.b
  /-- Nothing else clears a `b->disk`. -/
  others : ∀ e s', Step s e s' → e ≠ .round → ∀ b, s.bdisk b = true → s'.bdisk b = true
  returned : ∀ c ∈ s.returned, c.done ∈ s.performed
  panic : s.panic = none

theorem disk_protocol (h : Reach Init Step s) : Protocol s := by
  obtain ⟨w, hi⟩ := inv_reach h
  obtain ⟨b, hused, hidx⟩ := hi.used
  obtain ⟨old, happ, hold⟩ := hi.history
  refine ⟨fun r => (hi.owner r).symm, hi.pairwise, fun i => ?_, hi.length_le, fun k hk => ?_, hi.once, ?_, fun he => ?_,
    fun s' hs => (round_step hi hs).2, fun e s' hs he => (keeps_step hi hs he).2, hi.returned, hi.panic⟩
  · rw [hi.free i]
    simp [mem_flatMap]
  · rw [hi.taken] at hk
    obtain ⟨r, hr, rfl⟩ := mem_map.1 hk
    have hlive := hi.mem (.inr (.inl hr))
    exact ⟨r, hlive, rfl, (hi.chain r hlive).read⟩
  · rw [happ, hold, map_append]
    exact prefix_append ..
  · -- fewer than `NUM` completions wait, so equal indices modulo `NUM` leave none
    have hlen : w.used.length < NUM := by
      have := hi.places_le
      have : NUM = 8 := rfl
      omega
    have hnil : w.used = [] := by
      by_contra hne
      have hpos : 0 < w.used.length := length_pos_of_ne_nil hne
      refine Ring.slot_ne (r := b) hpos hlen ?_
      rw [hidx, Nat.mod_mod, hused.write, length_map, Nat.mod_mod_of_dvd _ (by decide)] at he
      exact he
    rw [happ, hold, hnil]
    simp

end Runs

/-- No request has been made. -/
def idle : St Nat Nat where
  free i := decide (i < NUM)
  desc _ := ⟨.zero, 0, false, false, 0⟩
  avail _ := 0
  availIdx := 0
  usedElems _ := 0
  usedId := 0
  usedIdx := 0
  infoB _ := none
  infoStatus _ := 0
  bdisk _ := false
  pc _ := .user
  intr := false
  panic := none
  devIdx := 0
  taken := []
  executed := []
  next := 0
  live := []
  performed := []
  appended := []
  handled := []
  returned := []

/-- Process 0 writes block 7 from buffer 5, and waits for the device. -/
theorem disk_protocol_write :
    ∃ s : St Nat Nat, Reach Init Step s ∧ s.pc 0 = .sleepBuf ⟨0, 5, true, 7⟩ 0 1 2 ∧ s.live.length = 1 ∧ Protocol s := by
  have h0 : Reach Init Step idle :=
    .init ⟨fun _ => rfl, rfl, rfl, rfl, fun _ => rfl, rfl, rfl, rfl, rfl, rfl, rfl, rfl, rfl, rfl, rfl⟩
  have h1 := Reach.step (e := .call 0 5 true 7) h0 (.call rfl rfl (fun _ _ h => by cases h))
  have h2 := h1.step (.start (p := 0) rfl rfl rfl)
  exact ⟨_, h2, rfl, rfl, disk_protocol h2⟩

end Xv6.Virtio
