import Xv6.Pipe.Code
/-!
# A pipe is a lossless queue

The buffer and its two wrapping counters hold a list of at most `PIPESIZE`
bytes (`Holds`). A critical section of `pipewrite` appends to that list and one
of `piperead` takes from its front, so what has been removed is always a prefix
of what has been inserted.
-/

namespace Xv6.Pipe

open Run Function List

/-- The bytes that wait in the pipe, oldest first. -/
abbrev Holds (pi : Pipe) (l : List UInt8) : Prop := Ring.Holds PIPESIZE (2 ^ 32) pi.data pi.nread pi.nwrite l

theorem size_dvd : PIPESIZE ∣ 2 ^ 32 := by decide

theorem size_lt : PIPESIZE < 2 ^ 32 := by decide

section Holds
variable {pi : Pipe} {l : List UInt8}

theorem Holds.full_iff (h : Holds pi l) : pi.Full ↔ l.length = PIPESIZE := Ring.Holds.full_iff h size_lt

theorem Holds.empty_iff (h : Holds pi l) : pi.Empty ↔ l = [] := Ring.Holds.empty_iff h size_lt

theorem Holds.put (h : Holds pi l) (hf : ¬ pi.Full) (ch : UInt8) : Holds (pi.put ch) (l ++ [ch]) :=
  Ring.Holds.push h size_dvd (Nat.lt_of_le_of_ne h.fits fun e => hf ((Holds.full_iff h).2 e)) ch

theorem Holds.drop (h : Holds pi l) (he : ¬ pi.Empty) : ∃ l', l = pi.next :: l' ∧ Holds pi.drop l' := by
  cases l with
  | nil => exact absurd ((Holds.empty_iff h).2 rfl) he
  | cons ch l' =>
    obtain ⟨hch, hl⟩ := Ring.Holds.pop h size_dvd
    exact ⟨l', by rw [← hch]; rfl, hl⟩

end Holds

/-! ## One critical section -/

section Run
variable {killed : Bool} {src : Nat → Option UInt8} {dst : Nat → Bool} {rem i j : Nat} {pi pi' : Pipe} {how : How}
  {l out : List UInt8}

/-- What a critical section of `pipewrite` does. -/
structure Wrote (killed : Bool) (rem i : Nat) (pi pi' : Pipe) (j : Nat) (how : How) : Prop where
  le : i ≤ j
  le' : j ≤ i + rem
  readopen : pi'.readopen = pi.readopen
  writeopen : pi'.writeopen = pi.writeopen
  sleep : how = .sleep → pi'.Full ∧ pi.readopen = true ∧ killed = false
  fail : how = .fail → pi'.Full ∧ (pi.readopen = false ∨ killed = true)
  same : pi.Full ∨ j = i → pi' = pi

theorem pipewrite_spec (hr : pipewrite killed src rem i pi = (pi', j, how)) : Wrote killed rem i pi pi' j how := by
  induction rem generalizing i pi with
  | zero =>
    simp only [pipewrite, Prod.mk.injEq] at hr
    obtain ⟨rfl, rfl, rfl⟩ := hr
    exact ⟨Nat.le_refl _, Nat.le_refl _, rfl, rfl, by simp, by simp, fun _ => rfl⟩
  | succ rem ih =>
    unfold pipewrite at hr
    by_cases hf : pi.Full
    · rw [if_pos hf] at hr
      by_cases hc : (!pi.readopen || killed) = true
      · rw [if_pos hc] at hr
        obtain ⟨rfl, rfl, rfl⟩ := by simpa only [Prod.mk.injEq] using hr
        exact ⟨Nat.le_refl _, Nat.le_add_right _ _, rfl, rfl, by simp, fun _ => ⟨hf, by simpa using hc⟩, fun _ => rfl⟩
      · rw [if_neg hc] at hr
        obtain ⟨rfl, rfl, rfl⟩ := by simpa only [Prod.mk.injEq] using hr
        exact ⟨Nat.le_refl _, Nat.le_add_right _ _, rfl, rfl, fun _ => ⟨hf, by simpa using hc⟩, by simp, fun _ => rfl⟩
    · rw [if_neg hf] at hr
      cases hs : src i with
      | none =>
        rw [hs] at hr
        obtain ⟨rfl, rfl, rfl⟩ := by simpa only [Prod.mk.injEq] using hr
        exact ⟨Nat.le_refl _, Nat.le_add_right _ _, rfl, rfl, by simp, by simp, fun _ => rfl⟩
      | some ch =>
        rw [hs] at hr
        obtain ⟨hle, hle', hro, hwo, hsleep, hfail, -⟩ := ih hr
        refine ⟨by omega, by omega, hro, hwo, hsleep, hfail, fun h => ?_⟩
        rcases h with h | h
        · exact absurd h hf
        · omega

theorem Holds.pipewrite (h : Holds pi l) (hr : pipewrite killed src rem i pi = (pi', j, how)) :
    Holds pi' (l ++ (List.range' i (j - i)).map (byte src)) := by
  -- where the loop stops before it stores anything
  have hstop : ∀ {i : Nat} {pi : Pipe} {l : List UInt8}, Holds pi l → Holds pi (l ++ (List.range' i (i - i)).map (byte src)) :=
    fun h => by simpa using h
  induction rem generalizing i pi l with
  | zero =>
    simp only [Pipe.pipewrite, Prod.mk.injEq] at hr
    obtain ⟨rfl, rfl, -⟩ := hr
    exact hstop h
  | succ rem ih =>
    unfold Pipe.pipewrite at hr
    by_cases hf : pi.Full
    · rw [if_pos hf] at hr
      split at hr
      all_goals
        obtain ⟨rfl, rfl, -⟩ := by simpa only [Prod.mk.injEq] using hr
        exact hstop h
    · rw [if_neg hf] at hr
      cases hs : src i with
      | none =>
        rw [hs] at hr
        obtain ⟨rfl, rfl, -⟩ := by simpa only [Prod.mk.injEq] using hr
        exact hstop h
      | some ch =>
        rw [hs] at hr
        have hcons : (List.range' i (j - i)).map (byte src) = ch :: (List.range' (i + 1) (j - (i + 1))).map (byte src) := by
          have hle := (pipewrite_spec hr).le
          rw [show j - i = j - (i + 1) + 1 by omega, range'_succ, map_cons]
          congr 1
          rw [byte, hs, Option.getD_some]
        have hh := ih (Holds.put h hf ch) hr
        rwa [append_assoc, singleton_append, ← hcons] at hh

/-- What the copy loop of `piperead` does. -/
structure Copied (dst : Nat → Bool) (rem i : Nat) (pi pi' : Pipe) (j : Nat) (out : List UInt8) : Prop where
  le : out.length ≤ rem
  readopen : pi'.readopen = pi.readopen
  writeopen : pi'.writeopen = pi.writeopen
  /-- With the buffer mapped, every byte taken is stored. -/
  count : (∀ k, i ≤ k → k < i + rem → dst k = true) → j = i + out.length
  none : out = [] → pi' = pi ∧ (rem ≠ 0 → pi.Empty)

theorem pipereadCopy_spec (hr : pipereadCopy dst rem i pi = (pi', j, out)) : Copied dst rem i pi pi' j out := by
  induction rem generalizing i pi pi' j out with
  | zero =>
    simp only [pipereadCopy, Prod.mk.injEq] at hr
    obtain ⟨rfl, rfl, rfl⟩ := hr
    exact ⟨Nat.le_refl _, rfl, rfl, fun _ => rfl, fun _ => ⟨rfl, by simp⟩⟩
  | succ rem ih =>
    unfold pipereadCopy at hr
    by_cases he : pi.Empty
    · rw [if_pos he] at hr
      obtain ⟨rfl, rfl, rfl⟩ := by simpa only [Prod.mk.injEq] using hr
      exact ⟨Nat.zero_le _, rfl, rfl, fun _ => rfl, fun _ => ⟨rfl, fun _ => he⟩⟩
    · rw [if_neg he] at hr
      by_cases hd : dst i = true
      · rw [if_pos hd] at hr
        rcases hrec : pipereadCopy dst rem (i + 1) pi.drop with ⟨pi₁, j₁, out₁⟩
        rw [hrec] at hr
        obtain ⟨rfl, rfl, rfl⟩ := by simpa only [Prod.mk.injEq] using hr
        have hc := ih hrec
        refine ⟨Nat.succ_le_succ hc.le, hc.readopen, hc.writeopen, fun hm => ?_, by simp⟩
        rw [hc.count fun k h1 h2 => hm k (by omega) (by omega), length_cons]
        omega
      · rw [if_neg hd] at hr
        obtain ⟨rfl, rfl, rfl⟩ := by simpa only [Prod.mk.injEq] using hr
        refine ⟨Nat.succ_le_succ (Nat.zero_le _), rfl, rfl, fun hm => ?_, by simp⟩
        exact absurd (hm i (Nat.le_refl _) (by omega)) hd

theorem Holds.pipereadCopy (h : Holds pi l) (hr : pipereadCopy dst rem i pi = (pi', j, out)) :
    ∃ l', l = out ++ l' ∧ Holds pi' l' := by
  induction rem generalizing i pi l pi' j out with
  | zero =>
    simp only [Pipe.pipereadCopy, Prod.mk.injEq] at hr
    obtain ⟨rfl, -, rfl⟩ := hr
    exact ⟨l, rfl, h⟩
  | succ rem ih =>
    unfold Pipe.pipereadCopy at hr
    by_cases he : pi.Empty
    · rw [if_pos he] at hr
      obtain ⟨rfl, -, rfl⟩ := by simpa only [Prod.mk.injEq] using hr
      exact ⟨l, rfl, h⟩
    · rw [if_neg he] at hr
      obtain ⟨l', hl, h'⟩ := Holds.drop h he
      by_cases hd : dst i = true
      · rw [if_pos hd] at hr
        rcases hrec : Pipe.pipereadCopy dst rem (i + 1) pi.drop with ⟨pi₁, j₁, out₁⟩
        rw [hrec] at hr
        obtain ⟨rfl, -, rfl⟩ := by simpa only [Prod.mk.injEq] using hr
        obtain ⟨l₁, hl₁, hh₁⟩ := ih h' hrec
        exact ⟨l₁, by rw [hl, hl₁]; rfl, hh₁⟩
      · rw [if_neg hd] at hr
        obtain ⟨rfl, -, rfl⟩ := by simpa only [Prod.mk.injEq] using hr
        exact ⟨l', hl, h'⟩

end Run

/-! ## Which call inserted and removed what -/

variable {P : Type} [DecidableEq P]

/-- The bytes that call `c` inserted, or removed, in order. -/
def bytesOf (c : Tag P) (l : List (Option (Tag P) × UInt8)) : List UInt8 := (l.filter fun x => x.1 = some c).map Prod.snd

theorem bytesOf_append (c : Tag P) (l l' : List (Option (Tag P) × UInt8)) :
    bytesOf c (l ++ l') = bytesOf c l ++ bytesOf c l' := by
  unfold bytesOf
  rw [filter_append, map_append]

theorem bytesOf_map {β : Type} (c d : Tag P) (l : List β) (f : β → UInt8) :
    bytesOf c (l.map fun x => (some d, f x)) = if c = d then l.map f else [] := by
  unfold bytesOf
  by_cases h : c = d
  · rw [if_pos h, filter_eq_self.2]
    · simp
    · simp [h]
  · rw [if_neg h, filter_eq_nil_iff.2]
    · rfl
    · simp [Ne.symm h]

theorem bytesOf_stamped {c : Tag P} {src : Nat → Option UInt8} {i j : Nat} {l : List (Option (Tag P) × UInt8)}
    (h : bytesOf c l = (List.range i).map (byte src)) (hij : i ≤ j) :
    bytesOf c (l ++ stamped c src i j) = (List.range j).map (byte src) := by
  rw [bytesOf_append, h, stamped, bytesOf_map c c _ (byte src), if_pos rfl, ← map_append]
  congr 1
  rw [range_eq_range', range_eq_range']
  have := range'_append_1 (s := 0) (m := i) (n := j - i)
  rwa [Nat.zero_add, Nat.add_sub_cancel' hij] at this

/-- The call that a result is of. -/
def Ret.tag : Ret P → Tag P
  | .write c .. | .read c .. => c

/-- A result agrees with what its call inserted or removed. -/
def Ret.Ok (sent got : List (Option (Tag P) × UInt8)) : Ret P → Prop
  | .write c src n r => ∃ j ≤ n.toNat, bytesOf c sent = (List.range j).map (byte src) ∧ (r = -1 ∨ r = j)
  | .read c _ n r buf => bytesOf c got = buf ∧ buf.length ≤ n.toNat ∧ (r = -1 ∧ buf = [] ∨ r = buf.length)

@[simp] theorem awake_wakeRead (c : Pc) : c.wakeRead.awake = c.awake := by cases c <;> rfl

@[simp] theorem awake_wakeWrite (c : Pc) : c.wakeWrite.awake = c.awake := by cases c <;> rfl

@[simp] theorem awake_awake (c : Pc) : c.awake.awake = c.awake := by cases c <;> rfl

theorem awake_user {c : Pc} (h : c.awake = .user)
    : c = .user := by cases c <;> simp_all [Pc.awake, Pc.wakeRead, Pc.wakeWrite]

structure Inv (s : St P) : Prop where
  queue : ∃ l, Holds s.pi l ∧ s.sent.map Prod.snd = s.got.map Prod.snd ++ l
  writes : ∀ p src n i, (s.pc p).awake = .writing src n i →
    i ≤ n.toNat ∧ bytesOf (s.tag p) s.sent = (List.range i).map (byte src)
  reads : ∀ p dst n, (s.pc p).awake = .reading dst n → bytesOf (s.tag p) s.got = [] ∧ ∀ i < n.toNat, dst i = true
  fresh : ∀ p m, s.calls p < m → bytesOf (p, m) s.sent = [] ∧ bytesOf (p, m) s.got = []
  /-- A process makes its next call after the last one has returned. -/
  past : ∀ r ∈ s.rets, r.tag.2 ≤ s.calls r.tag.1 ∧ (r.tag.2 = s.calls r.tag.1 → s.pc r.tag.1 = .user)
  rets : ∀ r ∈ s.rets, r.Ok s.sent s.got

/-- All user addresses are mapped. -/
def Mapped (_ : St P) : Event P → Prop
  | .callWrite _ src n => ∀ i < n.toNat, (src i).isSome
  | .callRead _ dst n => ∀ i < n.toNat, dst i = true
  | _ => True

section Steps
variable {s s' : St P} {p : P}

theorem Inv.move (h : Inv s) (hdata : s'.pi.data = s.pi.data) (hr : s'.pi.nread = s.pi.nread)
    (hw : s'.pi.nwrite = s.pi.nwrite) (hsent : s'.sent = s.sent) (hgot : s'.got = s.got) (hrets : s'.rets = s.rets)
    (hcalls : s'.calls = s.calls) (hpc : ∀ q, (s'.pc q).awake = (s.pc q).awake) : Inv s' := by
  have htag : s'.tag = s.tag := by
    funext q
    unfold St.tag
    rw [hcalls]
  refine ⟨?_, fun q src n i hq => ?_, fun q dst n hq => ?_, fun q m hm => ?_, fun r hr => ?_, fun r hr => ?_⟩
  · obtain ⟨l, hl, hs⟩ := h.queue
    refine ⟨l, ?_, by rw [hsent, hgot, hs]⟩
    unfold Holds
    rw [hdata, hr, hw]
    exact hl
  · rw [htag, hsent]
    exact h.writes q src n i (by rw [← hpc, hq])
  · rw [htag, hgot]
    exact h.reads q dst n (by rw [← hpc, hq])
  · rw [hsent, hgot]
    exact h.fresh q m (hcalls ▸ hm)
  · rw [hrets] at hr
    rw [hcalls]
    refine ⟨(h.past r hr).1, fun e => awake_user ?_⟩
    rw [hpc, (h.past r hr).2 e]
    rfl
  · rw [hrets] at hr
    rw [hsent, hgot]
    exact h.rets r hr

theorem Inv.call (h : Inv s) (hp : s.pc p = .user) {c : Pc} (hc : c.awake = c)
    (hw : ∀ src n i, c = .writing src n i → i = 0)
    (hr : ∀ dst n, c = .reading dst n → ∀ i < n.toNat, dst i = true) :
    Inv { s with pc := s.goto id p c, calls := update s.calls p (s.calls p + 1) } := by
  have hnew := h.fresh p (s.calls p + 1) (Nat.lt_succ_self _)
  refine ⟨h.queue, fun q src n i hq => ?_, fun q dst n hq => ?_, fun q m hm => ?_, fun r hr => ?_, h.rets⟩
  · by_cases e : q = p
    · subst e
      have hq : c = .writing src n i := by simpa [St.goto, hc] using hq
      rw [hw src n i hq]
      refine ⟨Nat.zero_le _, ?_⟩
      rw [show St.tag { s with pc := s.goto id q c, calls := update s.calls q (s.calls q + 1) } q =
        (q, s.calls q + 1) by simp [St.tag]]
      exact hnew.1
    · have := h.writes q src n i (by simpa [St.goto, e] using hq)
      simpa [St.tag, e] using this
  · by_cases e : q = p
    · subst e
      have hq : c = .reading dst n := by simpa [St.goto, hc] using hq
      refine ⟨?_, hr dst n hq⟩
      rw [show St.tag { s with pc := s.goto id q c, calls := update s.calls q (s.calls q + 1) } q =
        (q, s.calls q + 1) by simp [St.tag]]
      exact hnew.2
    · have := h.reads q dst n (by simpa [St.goto, e] using hq)
      simpa [St.tag, e] using this
  · by_cases e : q = p
    · subst e
      have hm : s.calls q + 1 < m := by simpa using hm
      exact h.fresh q m (by omega)
    · exact h.fresh q m (by simpa [e] using hm)
  · obtain ⟨hle, heq⟩ := h.past r hr
    by_cases e : r.tag.1 = p
    · rw [e] at hle ⊢
      simp only [update_self]
      exact ⟨by omega, fun he => absurd he (by omega)⟩
    · simp only [update_of_ne e, St.goto, id]
      exact ⟨hle, heq⟩

/-- A result of another call is not touched by what `p`'s call inserts or removes. -/
theorem Inv.past_ne (h : Inv s) (hp : s.pc p ≠ .user) {r : Ret P} (hr : r ∈ s.rets) : r.tag ≠ s.tag p := fun e => by
  have h1 : r.tag.1 = p := by rw [e]; rfl
  have h2 : r.tag.2 = s.calls r.tag.1 := by
    rw [h1, e]
    rfl
  exact hp (h1 ▸ (h.past r hr).2 h2)

theorem Ret.Ok.frame {sent got sent' got' : List (Option (Tag P) × UInt8)} {r : Ret P} (h : r.Ok sent got)
    (hs : bytesOf r.tag sent' = bytesOf r.tag sent) (hg : bytesOf r.tag got' = bytesOf r.tag got) : r.Ok sent' got' := by
  cases r with
  | write c src n r =>
    obtain ⟨j, hj, hb, hr⟩ := h
    exact ⟨j, hj, hs.trans hb, hr⟩
  | read c dst n r buf => exact ⟨hg.trans h.1, h.2⟩

omit [DecidableEq P] in
theorem tag_ne {q : P} (h : q ≠ p) : s.tag q ≠ s.tag p := fun e => h (Prod.mk.inj e).1

/-- `p`'s call goes on or returns; nobody else enters or leaves one. -/
structure Turn (s : St P) (p : P) (s' : St P) (new old : List (Option (Tag P) × UInt8)) (ret : List (Ret P)) : Prop where
  sent : s'.sent = s.sent ++ new
  got : s'.got = s.got ++ old
  mine : ∀ c, c ≠ s.tag p → bytesOf c new = [] ∧ bytesOf c old = []
  calls : s'.calls = s.calls
  others : ∀ q, q ≠ p → (s'.pc q).awake = (s.pc q).awake
  rets : s'.rets = s.rets ++ ret
  back : ∀ r ∈ ret, r.tag = s.tag p ∧ s'.pc p = .user ∧ r.Ok s'.sent s'.got

theorem Inv.turn {new old : List (Option (Tag P) × UInt8)} {ret : List (Ret P)} (h : Inv s)
    (ht : Turn s p s' new old ret)
    (hin : s.pc p ≠ .user) (hq : ∃ l, Holds s'.pi l ∧ s'.sent.map Prod.snd = s'.got.map Prod.snd ++ l)
    (hw : ∀ src n i, (s'.pc p).awake = .writing src n i → i ≤ n.toNat ∧ bytesOf (s.tag p) s'.sent = (List.range i).map (byte src))
    (hr : ∀ dst n, (s'.pc p).awake = .reading dst n → bytesOf (s.tag p) s'.got = [] ∧ ∀ i < n.toNat, dst i = true) :
    Inv s' := by
  have htag : ∀ q, s'.tag q = s.tag q := fun q => by
    unfold St.tag
    rw [ht.calls]
  have hsent : ∀ c, c ≠ s.tag p → bytesOf c s'.sent = bytesOf c s.sent := fun c hc => by
    rw [ht.sent, bytesOf_append, (ht.mine c hc).1, append_nil]
  have hgot : ∀ c, c ≠ s.tag p → bytesOf c s'.got = bytesOf c s.got := fun c hc => by
    rw [ht.got, bytesOf_append, (ht.mine c hc).2, append_nil]
  refine ⟨hq, fun q src n i hq => ?_, fun q dst n hq => ?_, fun q m hm => ?_, fun r hmem => ?_, fun r hmem => ?_⟩
  · rw [htag]
    by_cases e : q = p
    · subst e
      exact hw src n i hq
    · rw [hsent _ (tag_ne e)]
      exact h.writes q src n i (ht.others q e ▸ hq)
  · rw [htag]
    by_cases e : q = p
    · subst e
      exact hr dst n hq
    · rw [hgot _ (tag_ne e)]
      exact h.reads q dst n (ht.others q e ▸ hq)
  · rw [ht.calls] at hm
    have hne : ((q, m) : Tag P) ≠ s.tag p := fun e => by
      obtain ⟨rfl, rfl⟩ := Prod.mk.inj e
      exact absurd hm (Nat.lt_irrefl _)
    rw [hsent _ hne, hgot _ hne]
    exact h.fresh q m hm
  · rw [ht.rets] at hmem
    rw [ht.calls]
    rcases mem_append.1 hmem with hold | hnew
    · refine ⟨(h.past r hold).1, fun e => ?_⟩
      have hne : r.tag.1 ≠ p := fun he => h.past_ne hin hold (Prod.ext he (by rw [e, he]; rfl))
      refine awake_user ?_
      rw [ht.others _ hne, (h.past r hold).2 e]
      rfl
    · obtain ⟨he, hu, -⟩ := ht.back r hnew
      rw [he]
      exact ⟨Nat.le_refl _, fun _ => hu⟩
  · rw [ht.rets] at hmem
    rcases mem_append.1 hmem with hold | hnew
    · have hne := h.past_ne hin hold
      exact (h.rets r hold).frame (hsent _ hne) (hgot _ hne)
    · exact (ht.back r hnew).2.2

theorem Inv.written {src : Nat → Option UInt8} {n : Int} {i j : Nat} {pi : Pipe} {how : How} (h : Inv s)
    (hpc : s.pc p = .writing src n i) (hrun : pipewrite (s.killed p) src (n.toNat - i) i s.pi = (pi, j, how))
    (hpi : s'.pi = pi) (hsent : s'.sent = s.sent ++ stamped (s.tag p) src i j) (hgot : s'.got = s.got)
    (hcalls : s'.calls = s.calls) (hothers : ∀ q, q ≠ p → (s'.pc q).awake = (s.pc q).awake)
    (hself : (s'.pc p).awake = .writing src n j ∧ s'.rets = s.rets ∨
      s'.pc p = .user ∧ ∃ r : Int, (r = -1 ∨ r = j) ∧ s'.rets = s.rets ++ [.write (s.tag p) src n r]) : Inv s' := by
  obtain ⟨l, hl, hs⟩ := h.queue
  have hw := pipewrite_spec hrun
  obtain ⟨hle, hb⟩ := h.writes p src n i (by rw [hpc]; rfl)
  have hj : j ≤ n.toNat := by
    have := hw.le'
    omega
  have hmine : bytesOf (s.tag p) s'.sent = (List.range j).map (byte src) := by
    rw [hsent]
    exact bytesOf_stamped hb hw.le
  have hother : ∀ c, c ≠ s.tag p → bytesOf c (stamped (s.tag p) src i j) = [] := fun c hc => by
    rw [stamped, bytesOf_map c (s.tag p) _ (byte src), if_neg hc]
  have hq : ∃ l, Holds s'.pi l ∧ s'.sent.map Prod.snd = s'.got.map Prod.snd ++ l := by
    refine ⟨_, hpi ▸ Holds.pipewrite hl hrun, ?_⟩
    rw [hsent, hgot, map_append, hs, append_assoc]
    congr 2
    simp [stamped, Function.comp_def]
  have hin : s.pc p ≠ .user := by simp [hpc]
  rcases hself with ⟨ha, hr⟩ | ⟨hu, r, hr, hrets⟩
  · refine h.turn ⟨hsent, by rw [hgot, append_nil], fun c hc => ⟨hother c hc, rfl⟩, hcalls, hothers,
      by rw [hr, append_nil], by simp⟩ hin hq (fun src' n' i' e => ?_) fun dst n' e => ?_
    · rw [ha] at e
      obtain ⟨rfl, rfl, rfl⟩ := by simpa using e
      exact ⟨hj, hmine⟩
    · rw [ha] at e
      cases e
  · refine h.turn ⟨hsent, by rw [hgot, append_nil], fun c hc => ⟨hother c hc, rfl⟩, hcalls, hothers, hrets, ?_⟩ hin hq
      (fun src' n' i' e => ?_) fun dst n' e => ?_
    · intro x hx
      rw [mem_singleton] at hx
      subst hx
      exact ⟨rfl, hu, j, hj, hmine, hr⟩
    · rw [hu] at e
      cases e
    · rw [hu] at e
      cases e

/-- A critical section of `piperead` that takes out the bytes `out` and returns. -/
theorem Inv.taken {dst : Nat → Bool} {n r : Int} (h : Inv s) (out : List UInt8) (hpc : s.pc p = .reading dst n)
    (hq : ∀ l, Holds s.pi l → ∃ l', l = out ++ l' ∧ Holds s'.pi l') (hsent : s'.sent = s.sent)
    (hgot : s'.got = s.got ++ out.map fun ch => (some (s.tag p), ch)) (hcalls : s'.calls = s.calls)
    (hothers : ∀ q, q ≠ p → (s'.pc q).awake = (s.pc q).awake) (hu : s'.pc p = .user)
    (hrets : s'.rets = s.rets ++ [.read (s.tag p) dst n r out]) (hlen : out.length ≤ n.toNat)
    (hr : r = -1 ∧ out = [] ∨ r = out.length) : Inv s' := by
  obtain ⟨l, hl, hs⟩ := h.queue
  obtain ⟨l', hll, hl'⟩ := hq l hl
  obtain ⟨hnone, -⟩ := h.reads p dst n (by rw [hpc]; rfl)
  have hmap : ∀ c, bytesOf c (out.map fun ch => (some (s.tag p), ch)) = if c = s.tag p then out else [] := fun c => by
    have := bytesOf_map c (s.tag p) out id
    rwa [map_id] at this
  refine h.turn ⟨by rw [hsent, append_nil], hgot, fun c hc => ⟨rfl, by rw [hmap, if_neg hc]⟩, hcalls, hothers, hrets, ?_⟩
    (by simp [hpc]) ⟨l', hl', ?_⟩ (fun src n i e => ?_) fun dst' n' e => ?_
  · intro x hx
    rw [mem_singleton] at hx
    subst hx
    refine ⟨rfl, hu, ?_, hlen, hr⟩
    rw [hgot, bytesOf_append, hnone, hmap, if_pos rfl, nil_append]
  · rw [hsent, hgot, hs, hll, map_append, append_assoc]
    simp [Function.comp_def]
  · rw [hu] at e
    cases e
  · rw [hu] at e
    cases e

theorem goto_others {wake : Pc → Pc} {c : Pc} (hwake : ∀ c, (wake c).awake = c.awake) (q : P) (h : q ≠ p) :
    (s.goto wake p c q).awake = (s.pc q).awake := by
  rw [St.goto, update_of_ne h, hwake]

theorem inv_step {e : Event P} (h : Inv s) (hm : Mapped s e) (hs : Step s e s') : Inv s' := by
  cases hs with
  | callWrite hu =>
    refine h.call hu rfl (fun src n i e => ?_) fun dst n e => by cases e
    simp only [Pc.writing.injEq] at e
    exact e.2.2.symm
  | callRead hu =>
    refine h.call hu rfl (fun src n i e => by cases e) fun dst n e => ?_
    simp only [Pc.reading.injEq] at e
    obtain ⟨rfl, rfl⟩ := e
    exact hm
  | writeSleep hpc hrun =>
    refine h.written hpc hrun rfl rfl rfl rfl (goto_others awake_wakeRead) (.inl ⟨?_, rfl⟩)
    simp [St.goto, Pc.awake, Pc.wakeRead, Pc.wakeWrite]
  | writeFail hpc hrun =>
    exact h.written hpc hrun rfl rfl rfl rfl (goto_others fun _ => rfl) (.inr ⟨by simp [St.goto], -1, .inl rfl, rfl⟩)
  | writeDone hpc hrun =>
    exact h.written hpc hrun rfl rfl rfl rfl (goto_others awake_wakeRead) (.inr ⟨by simp [St.goto], _, .inr rfl, rfl⟩)
  | readFail hpc =>
    exact h.taken [] hpc (fun l hl => ⟨l, rfl, hl⟩) rfl (by simp) rfl (goto_others fun _ => rfl) (by simp [St.goto]) rfl
      (Nat.zero_le _) (.inl ⟨rfl, rfl⟩)
  | @readSleep p dst n hpc =>
    refine h.move rfl rfl rfl rfl rfl rfl rfl fun q => ?_
    by_cases e : q = p
    · subst e
      simp [St.goto, hpc, Pc.awake, Pc.wakeRead, Pc.wakeWrite]
    · simp [St.goto, e]
  | @readDone p dst n pi i l hpc hne hcopy =>
    have hmap := (h.reads p dst n (by rw [hpc]; rfl)).2
    have hc := pipereadCopy_spec hcopy
    -- every byte taken out is stored, so the whole of `l` is
    have hi : i = l.length := by
      rw [hc.count fun k _ hk => hmap k (by omega), Nat.zero_add]
    subst hi
    refine h.taken l hpc (fun _ hl => Holds.pipereadCopy hl hcopy) rfl rfl rfl (goto_others awake_wakeWrite)
      (by simp [St.goto]) (by rw [take_length]) hc.le (.inr rfl)
  | closeWrite => exact h.move rfl rfl rfl rfl rfl rfl rfl fun q => awake_wakeRead _
  | closeRead => exact h.move rfl rfl rfl rfl rfl rfl rfl fun q => awake_wakeWrite _
  | @kill p =>
    refine h.move rfl rfl rfl rfl rfl rfl rfl fun q => ?_
    by_cases e : q = p
    · subst e
      simp
    · simp [e]

theorem inv_init (h : Init s) : Inv s := by
  have hnone : ∀ c, bytesOf c s.sent = [] := fun c => by
    refine map_eq_nil_iff.2 (filter_eq_nil_iff.2 fun x hx => ?_)
    obtain ⟨i, hi, rfl⟩ := getElem_of_mem hx
    rw [h.bytes i hi]
    simp
  refine ⟨⟨s.sent.map Prod.snd, ⟨h.nread, ?_, ?_, fun i hi => ?_⟩, ?_⟩, fun p src n i e => ?_, fun p dst n e => ?_,
    fun p m _ => ⟨hnone _, ?_⟩, fun r hr => ?_, fun r hr => ?_⟩
  · rw [length_map]
    exact h.fits
  · rw [length_map]
    exact h.nwrite
  · rw [getElem_map, h.bytes i (by simpa using hi)]
  · rw [h.got]
    rfl
  · rw [h.pc p] at e
    cases e
  · rw [h.pc p] at e
    cases e
  · rw [h.got]
    rfl
  · rw [h.rets] at hr
    cases hr
  · rw [h.rets] at hr
    cases hr

end Steps

/-! ## The queue -/

/-- The pipe is a lossless first-in first-out queue. -/
structure Fifo (s : St P) : Prop where
  /-- `nwrite - nread`, on `uint`s -/
  bounded : (s.pi.nwrite + 2 ^ 32 - s.pi.nread) % 2 ^ 32 ≤ PIPESIZE
  prefixed : s.got.map Prod.snd <+: s.sent.map Prod.snd
  /-- A `pipewrite` at byte `i` has inserted the bytes before it, in order. -/
  ordered : ∀ p src n i, (s.pc p).awake = .writing src n i → bytesOf (s.tag p) s.sent = (List.range i).map (byte src)
  /-- A `pipewrite` that has returned inserted the first bytes of its buffer, and returned how many unless it failed. -/
  wrote : ∀ c src n (r : Int), .write c src n r ∈ s.rets →
    ∃ j ≤ n.toNat, bytesOf c s.sent = (List.range j).map (byte src) ∧ (r = -1 ∨ r = j)
  /-- A `piperead` that has returned stored what it removed, in order, and returned how many, or failed and removed nothing. -/
  read : ∀ c dst n (r : Int) buf, .read c dst n r buf ∈ s.rets →
    bytesOf c s.got = buf ∧ buf.length ≤ n.toNat ∧ (r = -1 ∧ buf = [] ∨ r = buf.length)
  /-- A `piperead` of a positive length returns 0 only from an empty pipe whose write end is closed. -/
  zero : ∀ p s' c dst n buf, Step s (.read p) s' → s'.rets = s.rets ++ [.read c dst n 0 buf] → 0 < n →
    s'.pi.Empty ∧ s'.pi.writeopen = false

/-- The states that runs with mapped user memory reach. -/
abbrev Reachable (s : St P) : Prop := Reach Init (When Step Mapped) s

theorem Inv.reachable {s : St P} (h : Reachable s) : Inv s :=
  Reach.inv Inv (fun _ => inv_init) (fun _ _ _ hi hs => inv_step hi hs.1 hs.2) h

theorem Holds.count {pi : Pipe} {l : List UInt8} (h : Holds pi l)
    : (pi.nwrite + 2 ^ 32 - pi.nread) % 2 ^ 32 = l.length := by
  have h1 := h.lt
  have h2 := h.fits
  have h3 := h.write
  have h4 : PIPESIZE = 512 := rfl
  omega

theorem read_zero {s s' : St P} {p : P} {c : Tag P} {dst : Nat → Bool} {n : Int} {buf : List UInt8} (h : Inv s)
    (hs : Step s (.read p) s') (hr : s'.rets = s.rets ++ [.read c dst n 0 buf]) (hn : 0 < n) :
    s'.pi.Empty ∧ s'.pi.writeopen = false := by
  cases hs with
  | readFail =>
    have := append_cancel_left hr
    simp at this
  | readSleep =>
    have := congrArg List.length hr
    simp at this
  | @readDone _ dst' n' pi i l hpc hne hcopy =>
    have heq := append_cancel_left hr
    simp only [List.cons.injEq, Ret.read.injEq, and_true] at heq
    obtain ⟨-, rfl, rfl, hi, -⟩ := heq
    have hmap := (h.reads p _ _ (by rw [hpc]; rfl)).2
    have hc := pipereadCopy_spec hcopy
    have hlen := hc.count fun k _ hk => hmap k (by omega)
    have hl : l = [] := length_eq_zero_iff.1 (by omega)
    obtain ⟨rfl, hemp⟩ := hc.none hl
    have hempty := hemp (by omega)
    exact ⟨hempty, by simpa using fun hw => hne ⟨hempty, hw⟩⟩

/-- **A pipe is a lossless queue**, for any number of readers and writers, any lengths and any start of the counters. -/
theorem pipe_fifo {s : St P} (h : Reachable s) : Fifo s := by
  have hi := Inv.reachable h
  obtain ⟨l, hl, hs⟩ := hi.queue
  refine ⟨?_, ⟨l, hs.symm⟩, fun p src n i e => (hi.writes p src n i e).2, fun c src n r hr => hi.rets _ hr,
    fun c dst n r buf hr => hi.rets _ hr, fun p s' c dst n buf hstep hr hn => read_zero hi hstep hr hn⟩
  rw [Holds.count hl]
  exact hl.fits

/-- Two bytes go through a pipe whose counters are about to wrap. -/
theorem pipe_fifo_wraps : ∃ s : St Unit, s.got.map Prod.snd = [65, 66] ∧ s.pi.nread = 1 ∧ Fifo s := by
  have h : Reachable (start Unit (2 ^ 32 - 1)) := .init (init_start (by decide))
  have h := h.next (e := .callWrite () (fun i => some (UInt8.ofNat (65 + i))) 2) (.callWrite rfl rfl) (by intro _ _; rfl)
  have h := h.next (.writeDone (p := ()) rfl rfl) trivial
  have h := h.next (e := .callRead () (fun _ => true) 5) (.callRead rfl rfl) (by intro _ _; rfl)
  have h := h.next (.readDone (p := ()) rfl (by decide) rfl) trivial
  exact ⟨_, rfl, rfl, pipe_fifo h⟩

/-- A `piperead` whose process has been killed returns -1, which is not the number of bytes it removed. -/
theorem piperead_killed : ¬ ∀ s : St Unit, Reachable s → ∀ c dst n (r : Int) buf, .read c dst n r buf ∈ s.rets →
    r = (bytesOf c s.got).length := by
  intro hall
  have h : Reachable (start Unit 0) := .init (init_start (by decide))
  have h := h.next (.kill (p := ())) trivial
  have h := h.next (e := .callRead () (fun _ => true) 1) (.callRead rfl rfl) (by intro _ _; rfl)
  have h := h.next (.readFail (p := ()) rfl ⟨rfl, rfl⟩ rfl) trivial
  have := hall _ h _ _ _ _ _ (mem_append_right _ (mem_singleton_self _))
  exact absurd this (by decide)

end Xv6.Pipe
