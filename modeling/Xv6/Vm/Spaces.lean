import Xv6.Vm.Fork
import Xv6.Vm.Free
import Xv6.Vm.Grow
/-!
# Many address spaces

Any number of page tables in one physical memory, and any sequence of calls of
`vm.c` that makes, grows, shrinks, copies, writes to and frees them, whether or not
there is memory for what is asked. Every page is on the free list or belongs to one
of them, in one place; and what a call does is not seen through the other tables.
-/

namespace Xv6.Vm

open Hoare List Run

/-- A call, with the spaces that it is about. -/
inductive Call where
  | create
  | grow (p : Proc) (newsz : Nat)
  | shrink (p : Proc) (newsz : Nat)
  | copy (p q : Proc)
  | copyout (p : Proc) (dstva : Nat) (src : List UInt8)
  | free (p : Proc)

namespace Call

def uses : Call → List Proc
  | create => []
  | grow p _ | shrink p _ | copyout p _ _ | free p => [p]
  | copy p q => [p, q]

/-- The call, and what has become of its spaces, with the sizes that the callers in `proc.c` and `exec.c` keep. -/
def prog : Call → M (List Proc)
  | create => do
    let r ← uvmcreate
    return if r = 0 then [] else [⟨0, r⟩]
  | grow p newsz => do
    let sz ← uvmalloc p.pagetable p.sz newsz
    return [if sz = 0 then p else { p with sz }]
  | shrink p newsz => do
    let sz ← uvmdealloc p.pagetable p.sz newsz
    return [{ p with sz }]
  | copy p q => do
    let ok ← uvmcopy p.pagetable q.pagetable p.sz
    return [p, if ok then { q with sz := p.sz } else q]
  | copyout p dstva src => do
    let _ ← Vm.copyout p.pagetable dstva src
    return [p]
  | free p => do
    uvmfree p.pagetable p.sz
    return []

/-- Sizes do not overflow when they are rounded up, and a space that is copied to is new. -/
def Allowed : Call → Prop
  | grow _ newsz => newsz < 2 ^ 63
  | copy _ q => q.sz = 0
  | _ => True

end Call

def Step (m : Mem × List Proc) (c : Call) (m' : Mem × List Proc) : Prop :=
  c.Allowed ∧ ∃ ps rest, m.2.Perm (c.uses ++ rest) ∧ exec c.prog m.1 = (.ok ps, m'.1) ∧ m'.2 = ps ++ rest

/-- The tables of a space, and the pages that its first `sz` bytes are mapped to. -/
def Proc.pages (s : Mem) (p : Proc) : List Nat := tables s.bytes p.pagetable ++ mapped s.bytes p.pagetable 0 (up p.sz)

/-- User pages are mapped up to the size, and nothing else. -/
structure Proc.Good (s : Mem) (p : Proc) : Prop where
  small : p.sz < 2 ^ 63
  plain : Plain s.bytes 2 p.pagetable
  user : ∀ v < up p.sz, IsLeaf (look s.bytes p.pagetable v)
  rest : ∀ v, up p.sz ≤ v → v < VPAGES → look s.bytes p.pagetable v = 0

/-- The spaces in `ps`, next to the pages in `R`. -/
structure Fits (s : Mem) (ps : List Proc) (R : List Nat) : Prop where
  heap : Heap s (ps.flatMap (Proc.pages s) ++ R)
  good : ∀ p ∈ ps, p.Good s

section
variable {s s' : Mem} {p q : Proc} {ps l rest : List Proc} {R : List Nat}

theorem up_zero : up 0 = 0 := by decide

theorem fits_nil (h : Heap s R) : Fits s [] R := ⟨h, fun _ hp => by cases hp⟩

theorem fits_one (h : Space s p.pagetable (up p.sz) (fun _ => 0) R) (hsz : p.sz < 2 ^ 63) : Fits s [p] R := by
  refine ⟨?_, fun q hq => ?_⟩
  · simpa [Proc.pages] using h.owns.heap
  · cases mem_singleton.1 hq
    exact ⟨hsz, h.owns.plain, h.user, h.rest⟩

theorem Fits.space (h : Fits s (p :: ps) R) :
    Space s p.pagetable (up p.sz) (fun _ => 0) (ps.flatMap (Proc.pages s) ++ R) := by
  have hp := h.good p (mem_cons_self ..)
  refine ⟨⟨?_, hp.plain⟩, hp.user, hp.rest⟩
  simpa [Proc.pages] using h.heap

theorem Fits.perm (h : Fits s l R) (hp : l.Perm ps) : Fits s ps R :=
  ⟨h.heap.perm ((hp.flatMap_right _).append_right R), fun p hm => h.good p (hp.mem_iff.2 hm)⟩

theorem Proc.pages_same (hf : Frame s s' (p.pages s)) : p.pages s' = p.pages s := by
  rw [pages, pages, tables_same hf.left.same, mapped_congr fun v _ _ => look_same hf.left.same v]

theorem Proc.Good.frame (h : p.Good s) (hf : Frame s s' (p.pages s)) : p.Good s' := by
  have hl := look_same hf.left.same
  refine ⟨h.small, plain_same hf.left.same h.plain, fun v hv => ?_, fun v h1 h2 => ?_⟩
  · rw [hl]
    exact h.user v hv
  · rw [hl]
    exact h.rest v h1 h2

/-- The other spaces, when the pages of none of them have been touched. -/
theorem Fits.append (h : Fits s (l ++ rest) []) (hf : Frame s s' (rest.flatMap (Proc.pages s)))
    (hs : Fits s' ps (rest.flatMap (Proc.pages s))) :
    Fits s' (ps ++ rest) [] ∧ ∀ p ∈ rest, Unseen s s' p.pagetable (up p.sz) := by
  have hp : ∀ p ∈ rest, Frame s s' (p.pages s) := fun p hp => hf.sub fun q hq => mem_flatMap.2 ⟨p, hp, hq⟩
  have hrest : rest.flatMap (Proc.pages s') = rest.flatMap (Proc.pages s) :=
    flatMap_congr fun p hm => Proc.pages_same (hp p hm)
  refine ⟨⟨?_, fun p hm => ?_⟩, fun p hm => ⟨look_same (hp p hm).left.same, ?_⟩⟩
  · rw [append_nil, flatMap_append, hrest]
    exact hs.heap
  · rcases mem_append.1 hm with hm | hm
    · exact hs.good p hm
    · exact (h.good p (mem_append_right _ hm)).frame (hp p hm)
  · refine Same.of_untouched (R := []) ?_
    rw [append_nil]
    exact hp p hm

theorem fits_two (h : Pair s p.pagetable q.pagetable (up p.sz) (up q.sz) (fun _ => 0) (fun _ => 0) R)
    (hp : p.sz < 2 ^ 63) (hq : q.sz < 2 ^ 63) : Fits s [p, q] R := by
  refine ⟨?_, forall_mem_cons.2 ⟨?_, (fits_one h.child hq).good⟩⟩
  · simpa [Proc.pages] using h.parent.owns.heap
  · exact (fits_one h.parent hp).good p (mem_cons_self ..)

theorem Fits.copy (h : Fits s [p, q] R) (hq : q.sz = 0) :
    wp (Call.copy p q).prog (fun ps s' => Frame s s' R ∧ Fits s' ps R) (fun _ _ => False) s := by
  have hpair : Pair s p.pagetable q.pagetable (up p.sz) 0 (fun _ => 0) (fun _ => 0) R := by
    have hparent := h.space
    have hchild := (h.perm (.swap ..)).space
    rw [hq] at hchild
    simp only [Proc.pages, flatMap_cons, flatMap_nil, append_nil, append_assoc, hq] at hparent hchild
    exact ⟨hparent, hchild⟩
  have hn := npages_lt
  have hsmall := hpair.parent.small
  have hp := (h.good p (mem_cons_self ..)).small
  unfold Call.prog
  refine ((uvmcopy_spec (fun _ _ => rfl) (by omega) hpair.child (hpair.source fun _ _ => rfl)).mono
    (fun _ _ c => c) fun _ _ he => absurd he (Nat.lt_irrefl (up p.sz))).seq fun ok s' c => ?_
  refine (wp_pure _).2 ⟨c.frame.right.right, ?_⟩
  have hpair' := hpair.of_child c.frame c.space
  cases ok with
  | true => exact fits_two (by simpa using hpair') hp hp
  | false =>
    exact fits_two (by simpa [hq, up_zero] using hpair') hp (h.good q (by simp)).small

/-- Each call takes the spaces it is about from one good state to another, and does not panic. -/
theorem Fits.call {c : Call} (h : Fits s c.uses R) (hc : c.Allowed) :
    wp c.prog (fun ps s' => Frame s s' R ∧ Fits s' ps R) (fun _ _ => False) s := by
  have hlow : Low fun _ => 0 := fun _ _ => rfl
  cases c with
  | create =>
    have hheap : Heap s R := h.heap
    refine (uvmcreate_spec hheap).seq ?_
    rintro r s' ⟨hf, ⟨rfl, hs⟩ | ⟨h0, hs⟩⟩
    · exact (wp_pure _).2 ⟨hf, fits_nil hs⟩
    · rw [if_neg h0]
      rw [← up_zero] at hs
      exact (wp_pure _).2 ⟨hf, fits_one hs (Nat.two_pow_pos 63)⟩
  | grow p newsz =>
    have hp := (h.good p (mem_cons_self ..)).small
    refine (uvmalloc_spec h.space hlow hp).seq ?_
    rintro sz s' ⟨hf, -, ⟨rfl, hs, -⟩ | ⟨rfl, hs⟩⟩
    · refine (wp_pure _).2 ⟨hf, ?_⟩
      split
      · next h0 =>
        rw [show max p.sz newsz = p.sz by omega] at hs
        exact fits_one hs hp
      · exact fits_one hs (Nat.max_lt.2 ⟨hp, hc⟩)
    · exact (wp_pure _).2 ⟨hf, fits_one hs hp⟩
  | shrink p newsz =>
    have hp := (h.good p (mem_cons_self ..)).small
    refine (uvmdealloc_spec h.space hlow hp).seq ?_
    rintro sz s' ⟨rfl, hf, hs, -⟩
    exact (wp_pure _).2 ⟨hf, fits_one hs (Nat.lt_of_le_of_lt (Nat.min_le_left ..) hp)⟩
  | copy p q => exact h.copy hc
  | copyout p dstva src =>
    refine (copyout_spec (fun _ => rfl) h.space).seq ?_
    rintro ok s' ⟨hf, hs, -⟩
    exact (wp_pure _).2 ⟨hf.right, fits_one hs (h.good p (mem_cons_self ..)).small⟩
  | free p =>
    refine (uvmfree_spec h.space (h.good p (mem_cons_self ..)).small).seq ?_
    rintro _ s' ⟨hf, hs⟩
    exact (wp_pure _).2 ⟨hf, fits_nil hs⟩

theorem Fits.step {c : Call} (h : Fits s l []) (hl : l.Perm (c.uses ++ rest)) (hc : c.Allowed) :
    wp c.prog (fun ps s' => Fits s' (ps ++ rest) [] ∧ ∀ p ∈ rest, Unseen s s' p.pagetable (up p.sz))
      (fun _ _ => False) s := by
  have h := h.perm hl
  have hfits : Fits s c.uses (rest.flatMap (Proc.pages s)) := by
    refine ⟨?_, fun p hp => h.good p (mem_append_left _ hp)⟩
    have hheap := h.heap
    rwa [append_nil, flatMap_append] at hheap
  exact (hfits.call hc).imp fun ps s' hr => h.append hr.1 hr.2

end

end Xv6.Vm
