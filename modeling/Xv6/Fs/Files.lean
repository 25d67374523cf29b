import Xv6.Fs.Covered
import Xv6.Lib.Slots
/-!
# Open files and pipes

`FileRefs t held`: the reference count of each open file is the number of
descriptors in `t` that point to it, and of references that the call in progress
holds (`held`); a file that nobody refers to has no type; and the page of a pipe
is in use as long as one of its ends is an open file. Between calls `t` is what
the processes have; within a call the counts and the descriptors change at
different moments, and in either order.
-/

namespace Xv6.Fs

open Hoare Run Slots Function List

variable (sb : Superblock)

/-- The descriptors of all processes. -/
def tables (s : St) (p fd : Nat) : Option Nat := (s.proc p).ofile fd

theorem tables_congr {s s' : St} (h : s'.proc = s.proc) : tables s' = tables s := by
  unfold tables
  rw [h]

/-- Whether the end of a pipe is open that is for writing, or for reading. -/
def Pipe.isOpen (x : Pipe) (writable : Bool) : Bool := if writable then x.writeopen else x.readopen

/-- `f` is the end of pipe `pi` for writing, or for reading. -/
structure File.End (f : File) (pi : Nat) (writable : Bool) : Prop where
  type : f.type = .pipe
  page : f.pipe = pi
  mode : f.writable = writable

theorem File.end_congr {f g : File} (ht : g.type = f.type) (hp : g.pipe = f.pipe) (hw : g.writable = f.writable)
    (pi : Nat) (w : Bool) : g.End pi w ↔ f.End pi w :=
  ⟨fun h => ⟨ht ▸ h.type, hp ▸ h.page, hw ▸ h.mode⟩, fun h => ⟨ht.trans h.type, hp.trans h.page, hw.trans h.mode⟩⟩

/-- Open files and pipes agree with the descriptors `t` and the references `held`. -/
structure FileRefs (t : Nat → Nat → Option Nat) (held : List Nat) (s : St) : Prop where
  refs : ∀ f < NFILE, (s.ftable f).ref = (refs NPROC NOFILE t f + held.count f : Nat)
  free : ∀ f < NFILE, (s.ftable f).ref = 0 → (s.ftable f).type = .none
  slots : ∀ p fd f, t p fd = some f → p < NPROC ∧ fd < NOFILE ∧ f < NFILE
  mine : ∀ f ∈ held, f < NFILE
  opens : ∀ f < NFILE, ∀ pi w, (s.ftable f).End pi w → ∃ x, s.pipes pi = some x ∧ x.isOpen w = true
  ends : ∀ pi x, s.pipes pi = some x → ∀ w, x.isOpen w = true → ∃ f < NFILE, (s.ftable f).End pi w
  inUse : ∀ pi x, s.pipes pi = some x → ∃ w, x.isOpen w = true
  uniq : ∀ f < NFILE, ∀ g < NFILE, ∀ pi w, (s.ftable f).End pi w → (s.ftable g).End pi w → f = g

/-- Nothing changes that concerns files. -/
structure Apart (s s' : St) : Prop where
  ftable : s'.ftable = s.ftable
  pipes : s'.pipes = s.pipes
  proc : s'.proc = s.proc
  myproc : s'.myproc = s.myproc

instance : Frame Apart where
  refl _ := ⟨rfl, rfl, rfl, rfl⟩
  trans h h' := ⟨h'.ftable.trans h.ftable, h'.pipes.trans h.pipes, h'.proc.trans h.proc, h'.myproc.trans h.myproc⟩
  record _ _ := ⟨rfl, rfl, rfl, rfl⟩
  inode _ _ := ⟨rfl, rfl, rfl, rfl⟩
  begin _ := ⟨rfl, rfl, rfl, rfl⟩
  logged _ _ _ := ⟨rfl, rfl, rfl, rfl⟩
  «end» _ := ⟨rfl, rfl, rfl, rfl⟩

theorem Apart.tables {s s' : St} (h : Apart s s') : tables s' = tables s := by
  unfold Fs.tables
  rw [h.proc]

section Facts
variable {s s' : St} {t : Nat → Nat → Option Nat} {held : List Nat} {f p fd : Nat}

theorem FileRefs.same (h : FileRefs t held s) (hr : ∀ g, (s'.ftable g).ref = (s.ftable g).ref)
    (ht : ∀ g, (s'.ftable g).type = (s.ftable g).type) (he : ∀ g pi w, (s'.ftable g).End pi w ↔ (s.ftable g).End pi w)
    (hp : s'.pipes = s.pipes) : FileRefs t held s' := by
  constructor
  · simpa only [hr] using h.refs
  · simpa only [hr, ht] using h.free
  · exact h.slots
  · exact h.mine
  · simpa only [he, hp] using h.opens
  · simpa only [he, hp] using h.ends
  · simpa only [hp] using h.inUse
  · simpa only [he] using h.uniq

theorem FileRefs.congr (h : FileRefs t held s) (hf : s'.ftable = s.ftable) (hp : s'.pipes = s.pipes) :
    FileRefs t held s' :=
  h.same (fun _ => by rw [hf]) (fun _ => by rw [hf]) (fun _ _ _ => by rw [hf]) hp

theorem FileRefs.apart (h : FileRefs t held s) (ha : Apart s s') : FileRefs t held s' := h.congr ha.ftable ha.pipes

theorem FileRefs.ref_pos (h : FileRefs t held s) (hf : f ∈ held ∨ ∃ p fd, t p fd = some f) :
    f < NFILE ∧ 1 ≤ (s.ftable f).ref := by
  rcases hf with hf | ⟨p, fd, hf⟩
  · have hlt := h.mine f hf
    have := count_pos_iff.2 hf
    rw [h.refs f hlt]
    omega
  · obtain ⟨hp, hfd, hlt⟩ := h.slots p fd f hf
    have := refs_pos hp hfd hf
    rw [h.refs f hlt]
    omega

theorem FileRefs.give (h : FileRefs t (f :: held) s) (hp : p < NPROC) (hfd : fd < NOFILE) (hnone : t p fd = none) :
    FileRefs (put t p fd (some f)) held s := by
  refine { h with refs := fun g hg => ?_, slots := fun q i g hq => ?_, mine := fun g hg => ?_ }
  · have := refs_put (x := g) hp hfd (t := t) (some f)
    rw [hnone, if_neg (by simp)] at this
    rw [h.refs g hg, count_cons, Nat.cast_inj]
    simp only [Option.some.injEq, beq_iff_eq] at this ⊢
    omega
  · by_cases e : (q, i) = (p, fd)
    · cases e
      rw [put_self] at hq
      cases hq
      exact ⟨hp, hfd, h.mine _ mem_cons_self⟩
    · rw [put_other _ e] at hq
      exact h.slots q i g hq
  · exact h.mine g (mem_cons_of_mem _ hg)

section
variable (h : FileRefs t held s)
include h

theorem FileRefs.take (hf : t p fd = some f) : FileRefs (put t p fd none) (f :: held) s := by
  obtain ⟨hp, hfd, hlt⟩ := h.slots p fd f hf
  refine { h with refs := fun g hg => ?_, slots := fun q i g hq => ?_, mine := fun g hg => ?_ }
  · have := refs_put (x := g) hp hfd (t := t) none
    rw [hf, if_neg (c := none = some g) (by simp)] at this
    rw [h.refs g hg, count_cons, Nat.cast_inj]
    simp only [Option.some.injEq, beq_iff_eq] at this ⊢
    omega
  · by_cases e : (q, i) = (p, fd)
    · cases e
      rw [put_self] at hq
      cases hq
    · rw [put_other _ e] at hq
      exact h.slots q i g hq
  · rcases mem_cons.1 hg with rfl | hg
    · exact hlt
    · exact h.mine g hg

/-- Another count for a file, and references that go with it; it is an end of the same pipe, or of none. -/
theorem FileRefs.recount {held' : List Nat} {x : File} (hlt : f < NFILE)
    (hx : x.ref = (Slots.refs NPROC NOFILE t f + held'.count f : Nat)) (hpos : x.ref ≠ 0)
    (hsame : ∀ pi w, x.End pi w ↔ (s.ftable f).End pi w) (hother : ∀ g, g ≠ f → held'.count g = held.count g)
    (hf : s'.ftable = update s.ftable f x) (hp : s'.pipes = s.pipes) : FileRefs t held' s' := by
  have hend : ∀ g pi w, (s'.ftable g).End pi w ↔ (s.ftable g).End pi w := by
    intro g pi w
    rw [hf]
    by_cases e : g = f
    · subst e
      rw [update_self]
      exact hsame pi w
    · rw [update_of_ne e]
  constructor
  · intro g hg
    rw [hf]
    by_cases e : g = f
    · rw [e, update_self, hx]
    · rw [update_of_ne e, h.refs g hg, hother g e]
  · intro g hg
    rw [hf]
    by_cases e : g = f
    · rw [e, update_self]
      exact fun h0 => absurd h0 hpos
    · rw [update_of_ne e]
      exact h.free g hg
  · exact h.slots
  · intro g hg
    by_cases e : g = f
    · rw [e]
      exact hlt
    · have hc := count_pos_iff.2 hg
      rw [hother g e] at hc
      exact h.mine g (count_pos_iff.1 hc)
  · intro g hg pi w
    rw [hend, hp]
    exact h.opens g hg pi w
  · intro pi x hx w hw
    rw [hp] at hx
    obtain ⟨g, hg, he⟩ := h.ends pi x hx w hw
    exact ⟨g, hg, (hend g pi w).2 he⟩
  · rw [hp]; exact h.inUse
  · intro g hg k hk pi w
    rw [hend, hend]
    exact h.uniq g hg k hk pi w

theorem FileRefs.setFile {x : File} (hlt : f < NFILE) (hx : x.ref = (s.ftable f).ref)
    (hpos : 1 ≤ x.ref) (hsame : ∀ pi w, x.End pi w ↔ (s.ftable f).End pi w) :
    FileRefs t held { s with ftable := update s.ftable f x } :=
  h.recount hlt (hx.trans (h.refs f hlt)) (by omega) hsame (fun _ _ => rfl) rfl rfl

theorem FileRefs.perm {held' : List Nat} (hp : held.Perm held') : FileRefs t held' s :=
  { h with
    refs := fun g hg => by rw [h.refs g hg, hp.count_eq]
    mine := fun g hg => h.mine g (hp.mem_iff.2 hg) }

theorem FileRefs.new_pipe {f0 f1 pi : Nat} {x0 x1 : File} (h0 : f0 ∈ held) (h1 : f1 ∈ held)
    (hne : f0 ≠ f1) (hn0 : (s.ftable f0).type = .none) (hn1 : (s.ftable f1).type = .none) (hpi : s.pipes pi = none)
    (hx0 : x0.End pi false) (hx1 : x1.End pi true) (hr0 : x0.ref = (s.ftable f0).ref)
    (hr1 : x1.ref = (s.ftable f1).ref) :
    FileRefs t held
      { s with
        pipes := update s.pipes pi (some ⟨true, true⟩)
        ftable := update (update s.ftable f0 x0) f1 x1 } := by
  obtain ⟨hlt0, hpos0⟩ := h.ref_pos (.inl h0)
  obtain ⟨hlt1, hpos1⟩ := h.ref_pos (.inl h1)
  have hself0 : update (update s.ftable f0 x0) f1 x1 f0 = x0 := by
    rw [update_of_ne hne, update_self]
  have hself1 : update (update s.ftable f0 x0) f1 x1 f1 = x1 := update_self ..
  have hother : ∀ g, g ≠ f0 → g ≠ f1 → update (update s.ftable f0 x0) f1 x1 g = s.ftable g :=
    fun g e0 e1 => by rw [update_of_ne e1, update_of_ne e0]
  -- a file is an end of the new pipe, or it is an end of what it was before
  have hend : ∀ g < NFILE, ∀ pj w, (update (update s.ftable f0 x0) f1 x1 g).End pj w →
      (g = f0 ∧ pj = pi ∧ w = false) ∨ (g = f1 ∧ pj = pi ∧ w = true) ∨
        (g ≠ f0 ∧ g ≠ f1 ∧ pj ≠ pi ∧ (s.ftable g).End pj w) := by
    intro g hg pj w he
    by_cases e0 : g = f0
    · subst e0
      rw [hself0] at he
      exact .inl ⟨rfl, he.page.symm.trans hx0.page, he.mode.symm.trans hx0.mode⟩
    · by_cases e1 : g = f1
      · subst e1
        rw [hself1] at he
        exact .inr (.inl ⟨rfl, he.page.symm.trans hx1.page, he.mode.symm.trans hx1.mode⟩)
      · rw [hother g e0 e1] at he
        obtain ⟨x, hx, -⟩ := h.opens g hg pj w he
        have hpj : pj ≠ pi := by
          rintro rfl
          cases hpi.symm.trans hx
        exact .inr (.inr ⟨e0, e1, hpj, he⟩)
  have hkeep : ∀ g pj w, (s.ftable g).End pj w → g ≠ f0 ∧ g ≠ f1 := by
    intro g pj w he
    constructor
    · rintro rfl
      cases he.type.symm.trans hn0
    · rintro rfl
      cases he.type.symm.trans hn1
  refine { h with refs := ?_, free := ?_, opens := ?_, ends := ?_, inUse := ?_, uniq := ?_ }
  · intro g hg
    dsimp only
    by_cases e0 : g = f0
    · rw [e0, hself0, hr0, h.refs f0 hlt0]
    · by_cases e1 : g = f1
      · rw [e1, hself1, hr1, h.refs f1 hlt1]
      · rw [hother g e0 e1, h.refs g hg]
  · intro g hg
    dsimp only
    by_cases e0 : g = f0
    · rw [e0, hself0]
      omega
    · by_cases e1 : g = f1
      · rw [e1, hself1]
        omega
      · rw [hother g e0 e1]
        exact h.free g hg
  · intro g hg pj w he
    dsimp only
    obtain ⟨-, rfl, rfl⟩ | ⟨-, rfl, rfl⟩ | ⟨-, -, hpj, he⟩ := hend g hg pj w he
    · exact ⟨_, update_self .., rfl⟩
    · exact ⟨_, update_self .., rfl⟩
    · rw [update_of_ne hpj]
      exact h.opens g hg pj w he
  · intro pj y hy w hw
    dsimp only at hy ⊢
    by_cases e : pj = pi
    · subst e
      cases w
      · exact ⟨f0, hlt0, by rw [hself0]; exact hx0⟩
      · exact ⟨f1, hlt1, by rw [hself1]; exact hx1⟩
    · rw [update_of_ne e] at hy
      obtain ⟨g, hg, he⟩ := h.ends pj y hy w hw
      obtain ⟨e0, e1⟩ := hkeep g pj w he
      exact ⟨g, hg, by rw [hother g e0 e1]; exact he⟩
  · intro pj y hy
    dsimp only at hy
    by_cases e : pj = pi
    · rw [e, update_self] at hy
      cases hy
      exact ⟨true, rfl⟩
    · rw [update_of_ne e] at hy
      exact h.inUse pj y hy
  · intro g hg k hk pj w he he'
    obtain ⟨rfl, rfl, rfl⟩ | ⟨rfl, rfl, rfl⟩ | ⟨-, -, hpj, he⟩ := hend g hg pj w he
    · obtain ⟨rfl, -⟩ | ⟨-, -, hw⟩ | ⟨-, -, hpj, -⟩ := hend k hk _ _ he'
      · rfl
      · cases hw
      · exact absurd rfl hpj
    · obtain ⟨-, -, hw⟩ | ⟨rfl, -⟩ | ⟨-, -, hpj, -⟩ := hend k hk _ _ he'
      · cases hw
      · rfl
      · exact absurd rfl hpj
    · obtain ⟨-, e, -⟩ | ⟨-, e, -⟩ | ⟨-, -, -, he'⟩ := hend k hk _ _ he'
      · exact absurd e hpj
      · exact absurd e hpj
      · exact h.uniq g hg k hk pj w he he'

theorem FileRefs.drop (hm : f ∈ held) (h1 : (s.ftable f).ref ≤ 1)
    (hf : s'.ftable = update s.ftable f { s.ftable f with ref := 0, type := .none })
    (hopens : ∀ g < NFILE, g ≠ f → ∀ pi w, (s.ftable g).End pi w → ∃ x, s'.pipes pi = some x ∧ x.isOpen w = true)
    (hends : ∀ pi x, s'.pipes pi = some x → ∀ w, x.isOpen w = true → ∃ g < NFILE, g ≠ f ∧ (s.ftable g).End pi w)
    (hinUse : ∀ pi x, s'.pipes pi = some x → ∃ w, x.isOpen w = true) : FileRefs t (held.erase f) s' := by
  have hself : s'.ftable f = { s.ftable f with ref := 0, type := .none } := by rw [hf, update_self]
  have hother : ∀ g, g ≠ f → s'.ftable g = s.ftable g := fun g hg => by rw [hf, update_of_ne hg]
  have hne : ∀ g pi w, (s'.ftable g).End pi w → g ≠ f := by
    rintro g pi w he rfl
    have := he.type
    rw [hself] at this
    cases this
  constructor
  · intro g hg
    by_cases e : g = f
    · subst e
      have hr := h.refs g hg
      have hc : 1 ≤ held.count g := count_pos_iff.2 hm
      rw [hself, count_erase_self]
      dsimp only
      omega
    · rw [hother g e, count_erase_of_ne e, h.refs g hg]
  · intro g hg
    by_cases e : g = f
    · rw [e, hself]
      exact fun _ => rfl
    · rw [hother g e]
      exact h.free g hg
  · exact h.slots
  · exact fun g hg => h.mine g (mem_of_mem_erase hg)
  · intro g hg pi w he
    have e := hne g pi w he
    rw [hother g e] at he
    exact hopens g hg e pi w he
  · intro pi x hx w hw
    obtain ⟨g, hg, e, he⟩ := hends pi x hx w hw
    exact ⟨g, hg, by rw [hother g e]; exact he⟩
  · exact hinUse
  · intro g hg k hk pi w he he'
    have e := hne g pi w he
    have e' := hne k pi w he'
    rw [hother g e] at he
    rw [hother k e'] at he'
    exact h.uniq g hg k hk pi w he he'

theorem FileRefs.drop_file (hm : f ∈ held) (h1 : (s.ftable f).ref ≤ 1)
    (htype : (s.ftable f).type ≠ .pipe) :
    FileRefs t (held.erase f)
      { s with ftable := update s.ftable f { s.ftable f with ref := 0, type := .none } } := by
  refine h.drop hm h1 rfl (fun g hg _ pi w he => h.opens g hg pi w he) (fun pi x hx w hw => ?_) h.inUse
  obtain ⟨g, hg, he⟩ := h.ends pi x hx w hw
  exact ⟨g, hg, fun e => htype (e ▸ he.type), he⟩

end

/-- One end is closed. -/
def Pipe.shut (x : Pipe) (writable : Bool) : Pipe :=
  if writable then { x with writeopen := false } else { x with readopen := false }

theorem Pipe.isOpen_shut (x : Pipe) (w v : Bool) : (x.shut w).isOpen v = (x.isOpen v && v != w) := by
  cases w <;> cases v <;> simp [Pipe.shut, Pipe.isOpen]

theorem Pipe.isOpen_iff (x : Pipe) : (x.readopen = true ∨ x.writeopen = true) ↔ ∃ w, x.isOpen w = true := by
  simp [Pipe.isOpen]

/-- The last reference to an end of a pipe goes, and the page with the second end. -/
theorem FileRefs.drop_pipe (h : FileRefs t held s) (hm : f ∈ held) (h1 : (s.ftable f).ref ≤ 1) {pi : Nat} {w : Bool}
    {x : Pipe} (he : (s.ftable f).End pi w) (hx : s.pipes pi = some x) :
    FileRefs t (held.erase f)
      { s with
        ftable := update s.ftable f { s.ftable f with ref := 0, type := .none }
        pipes := update s.pipes pi
          (if (x.shut w).readopen ∨ (x.shut w).writeopen then some (x.shut w) else none) } := by
  have hlt := h.mine f hm
  refine h.drop hm h1 rfl (fun g hg hne pj v hv => ?_) (fun pj y hy v hv => ?_) (fun pj y hy => ?_)
  · dsimp only
    obtain ⟨y, hy, hopen⟩ := h.opens g hg pj v hv
    by_cases e : pj = pi
    · subst e
      -- the other end is another file
      have hvw : v ≠ w := fun e => hne (h.uniq g hg f hlt pj w (e ▸ hv) he)
      cases hx.symm.trans hy
      have hleft : (x.shut w).isOpen v = true := by simp [Pipe.isOpen_shut, hopen, hvw]
      rw [update_self, if_pos ((x.shut w).isOpen_iff.2 ⟨v, hleft⟩)]
      exact ⟨_, rfl, hleft⟩
    · rw [update_of_ne e]
      exact ⟨y, hy, hopen⟩
  · dsimp only at hy
    by_cases e : pj = pi
    · subst e
      rw [update_self] at hy
      split at hy
      · cases hy
        rw [Pipe.isOpen_shut, Bool.and_eq_true, bne_iff_ne] at hv
        obtain ⟨g, hg, hend⟩ := h.ends pj x hx v hv.1
        exact ⟨g, hg, fun e => hv.2 (hend.mode.symm.trans (e ▸ he.mode)), hend⟩
      · cases hy
    · rw [update_of_ne e] at hy
      obtain ⟨g, hg, hend⟩ := h.ends pj y hy v hv
      exact ⟨g, hg, fun e' => e (hend.page.symm.trans (e' ▸ he.page)), hend⟩
  · dsimp only at hy
    by_cases e : pj = pi
    · subst e
      rw [update_self] at hy
      split at hy
      · next hopen =>
        cases hy
        exact (x.shut w).isOpen_iff.1 hopen
      · cases hy
    · rw [update_of_ne e] at hy
      exact h.inUse pj y hy

end Facts

/-! ## file.c -/

section Calls
variable {s : St} {t : Nat → Nat → Option Nat} {held : List Nat} {f : Nat}

theorem filealloc_spec (h : FileRefs t held s) {E : Stop → St → Prop} :
    wp filealloc (fun r s' => match r with
      | none => s' = s
      | some f => FileRefs t (f :: held) s' ∧ (s'.ftable f).type = .none ∧ f ∉ held ∧
        (∀ g, g ≠ f → s'.ftable g = s.ftable g) ∧ s'.proc = s.proc ∧ s'.myproc = s.myproc ∧ s'.trace = s.trace) E s := by
  unfold filealloc
  rw [wp_bind, wp_get]
  split
  · next f hf =>
    have hlt : f < NFILE := mem_range.1 (mem_of_find?_eq_some hf)
    have h0 : (s.ftable f).ref = 0 := by simpa using find?_some hf
    have hr := h.refs f hlt
    have hnot : f ∉ held := by
      intro hm
      have := count_pos_iff.2 hm
      omega
    unfold setFile
    rw [wp_bind, wp_modify, wp_pure]
    refine ⟨h.recount hlt (x := { s.ftable f with ref := 1 }) ?_ Int.one_ne_zero (File.end_congr rfl rfl rfl) ?_ rfl rfl, ?_, hnot,
      fun g hne => update_of_ne hne .., rfl, rfl, rfl⟩
    · rw [count_cons_self]
      dsimp only
      omega
    · intro g hne
      rw [count_cons_of_ne (Ne.symm hne)]
    · dsimp only
      rw [update_self]
      exact h.free f hlt h0
  · exact (wp_pure _).2 rfl

theorem filedup_spec (h : FileRefs t held s) (hf : f ∈ held ∨ ∃ p fd, t p fd = some f) {E : Stop → St → Prop} :
    wp (filedup f) (fun r s' => r = f ∧ FileRefs t (f :: held) s' ∧ s'.proc = s.proc ∧ s'.myproc = s.myproc) E s := by
  obtain ⟨hlt, hpos⟩ := h.ref_pos hf
  have hgo : FileRefs t (f :: held)
      { s with ftable := update s.ftable f { s.ftable f with ref := (s.ftable f).ref + 1 } } := by
    refine h.recount hlt (x := { s.ftable f with ref := (s.ftable f).ref + 1 }) ?_ ?_ (File.end_congr rfl rfl rfl)
      (fun g hne => count_cons_of_ne (Ne.symm hne)) rfl rfl
    · rw [count_cons_self]
      dsimp only
      rw [h.refs f hlt]
      omega
    · dsimp only
      omega
  unfold filedup setFile
  rw [wp_bind, wp_get]
  dsimp only
  rw [wp_ite]
  refine ⟨fun hno => by omega, fun _ => ?_⟩
  rw [wp_bind, wp_modify, wp_pure]
  exact ⟨rfl, hgo, rfl, rfl⟩

theorem fileclose_spec (h : FileRefs t held s) (hm : f ∈ held) :
    wp (fileclose sb f) (fun _ s' => FileRefs t (held.erase f) s' ∧ s'.proc = s.proc ∧ s'.myproc = s.myproc ∧
      ((s.ftable f).type = .none → s'.trace = s.trace)) (fun e _ => e.fs) s := by
  obtain ⟨hlt, hpos⟩ := h.ref_pos (.inl hm)
  unfold fileclose setFile
  rw [wp_bind, wp_get]
  dsimp only
  rw [wp_ite]
  refine ⟨fun hno => by omega, fun _ => ?_⟩
  rw [wp_ite]
  refine ⟨fun hmore => ?_, fun hlast => ?_⟩
  · rw [wp_modify]
    refine ⟨h.recount hlt (x := { s.ftable f with ref := (s.ftable f).ref - 1 }) ?_ ?_ (File.end_congr rfl rfl rfl)
      (fun g hne => count_erase_of_ne hne) rfl rfl, rfl, rfl, fun _ => rfl⟩
    · have hc : 1 ≤ held.count f := count_pos_iff.2 hm
      rw [count_erase_self]
      dsimp only
      rw [h.refs f hlt]
      omega
    · dsimp only
      omega
  · have h1 : (s.ftable f).ref ≤ 1 := by omega
    rw [wp_bind, wp_modify, wp_ite]
    refine ⟨fun hpipe => ?_, fun hpipe => ?_⟩
    · obtain ⟨x, hx, -⟩ := h.opens f hlt _ _ ⟨hpipe, rfl, rfl⟩
      unfold pipeclose setPipe
      rw [wp_bind, wp_get]
      dsimp only
      rw [hx]
      dsimp only
      rw [wp_modify]
      exact ⟨h.drop_pipe hm h1 ⟨hpipe, rfl, rfl⟩ hx, rfl, rfl, fun hnone => by cases hpipe.symm.trans hnone⟩
    · have hgo := h.drop_file hm h1 hpipe
      rw [wp_ite]
      refine ⟨fun hinode => ?_, fun _ => ?_⟩
      · have hkeep : Keeps Apart Stop.fs (do beginOp; iput sb (s.ftable f).ip; endOp) :=
          keeps_beginOp.bind fun _ => (keeps_iput sb _).bind fun _ => keeps_endOp
        refine (hkeep _).imp fun _ s' ha => ⟨hgo.apart ha, ha.proc, ha.myproc, fun hnone => ?_⟩
        rw [hnone] at hinode
        rcases hinode with h | h <;> cases h
      · exact (wp_pure _).2 ⟨hgo, rfl, rfl, fun _ => rfl⟩

end Calls

end Xv6.Fs
