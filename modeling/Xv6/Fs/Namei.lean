import Mathlib.Algebra.BigOperators.Group.Finset.Piecewise
import Xv6.Fs.Holds
import Xv6.Fs.Path
/-!
# Path resolution

`resolve` follows names through the directories of a table of inodes. `namei` and
`nameiparent` do that in the inode cache, from the root or from the current
directory, with at most two references at a time; they return with one, or with
none.
-/

namespace Xv6.Fs

open Bytes Hoare Option

section Resolve
variable (sb : Superblock) (t : Table) (blk : Nat → Arr)

/-- The inode that `i` has under the name, if `i` is a directory. -/
def entryOf (i : Nat) (name : List UInt8) : Option Nat := if (t i).type = T_DIR then dirMap sb t blk i name else none

/-- The names looked up one after another. -/
def resolve : Nat → List (List UInt8) → Option Nat
  | i, [] => some i
  | i, name :: rest => (entryOf sb t blk i name).bind (resolve · rest)

/-- All names but the last looked up, and the last one. -/
def resolveParent (i : Nat) (names : List (List UInt8)) : Option (Nat × List UInt8) :=
  names.getLast?.bind fun last => ((resolve sb t blk i names.dropLast).filter fun d => (t d).type = T_DIR).map (·, last)

/-- What `namex` is to find. -/
def target (parent : Bool) (i : Nat) (names : List (List UInt8)) : Option (Nat × List UInt8) :=
  if parent then resolveParent sb t blk i names else (resolve sb t blk i names).map (·, [])

end Resolve

section Target
variable {sb : Superblock} {t : Table} {blk : Nat → Arr} {i : Nat} {name : List UInt8} {rest : List (List UInt8)}

theorem target_nil (parent : Bool) : target sb t blk parent i [] = if parent then none else some (i, []) := rfl

theorem target_last : target sb t blk true i [name] = if (t i).type = T_DIR then some (i, name) else none := by
  by_cases h : (t i).type = T_DIR <;> simp [target, resolveParent, resolve, Option.filter, h]

theorem target_cons {parent : Bool} (h : ¬ (parent = true ∧ rest = [])) :
    target sb t blk parent i (name :: rest) = (entryOf sb t blk i name).bind (target sb t blk parent · rest) := by
  cases parent with
  | false =>
    simp only [target, resolve, Bool.false_eq_true, if_false]
    cases entryOf sb t blk i name <;> rfl
  | true =>
    obtain ⟨n, l, rfl⟩ := List.exists_cons_of_ne_nil fun e => h ⟨rfl, e⟩
    simp only [target, resolveParent, if_true, List.getLast?_cons_cons, List.dropLast_cons_cons, resolve]
    cases entryOf sb t blk i name with
    | none => simp
    | some j => rfl

theorem target_file {parent : Bool} (h : ¬ (t i).type = T_DIR) : target sb t blk parent i (name :: rest) = none := by
  by_cases hlast : parent = true ∧ rest = []
  · obtain ⟨rfl, rfl⟩ := hlast
    rw [target_last, if_neg h]
  · rw [target_cons hlast, entryOf, if_neg h, bind_none]

end Target

/-! ## namex -/

/-- A reference to an inode that is there, and that giving it back will not free. -/
structure Good (sb : Superblock) (t : Table) (s₀ s : St) (ip i : Nat) : Prop where
  held : Holds sb t s₀ {ip} ∅ s
  inum : (s.icache ip).inum = i
  type : (t i).type ≠ 0
  kept : Alive t s₀ s ip

/-- What the calls return: nothing and no reference, or what is to be found and one reference to it. -/
def Found (sb : Superblock) (t : Table) (s₀ : St) (g r : Option (Nat × List UInt8)) (s' : St) : Prop :=
  g = none ∧ r = none ∧ Holds sb t s₀ 0 ∅ s' ∨
    ∃ i name ip, g = some (i, name) ∧ r = some (ip, name) ∧ Good sb t s₀ s' ip i

/-- The stops that `E` has to allow: for a lock that is taken, and with at most one free entry in the cache. -/
structure Stops (s₀ : St) (E : Stop → St → Prop) : Prop where
  blocked : (∃ j, (s₀.icache j).lock ≠ none) → ∀ s, E .blocked s
  full : (∃ k, ∀ j < NINODE, j ≠ k → 0 < (s₀.icache j).ref) → ∀ s, E .igetNone s

section Walk
variable {sb : Superblock} {t : Table} {s₀ s : St} {locked : Finset Nat} {ip i k : Nat} {E : Stop → St → Prop}

/-- With one reference held, `iget` fails only if there is at most one free entry. -/
theorem Stops.iget (hs : Stops s₀ E) (h : Holds sb t s₀ {k} locked s) (hall : ∀ j < NINODE, 0 < (s.icache j).ref) :
    E .igetNone s := by
  refine hs.full ⟨k, fun j hj hne => ?_⟩ s
  have := hall j hj
  rwa [h.refs j, Multiset.count_singleton, if_neg hne, Int.natCast_zero, Int.add_zero] at this

theorem walk_spec (tree : Tree sb t s₀.blk) (hs : Stops s₀ E) (parent : Bool) : ∀ (names : List (List UInt8))
    {ip i : Nat}
    {s : St}, Good sb t s₀ s ip i →
    wp (walk sb parent ip names) (Found sb t s₀ (target sb t s₀.blk parent i names)) E s := by
  intro names
  induction names with
  | nil =>
    intro ip i s g
    unfold walk
    rw [target_nil]
    cases parent with
    | true =>
      rw [if_pos rfl, if_pos rfl]
      refine (g.held.iput (fun hm => absurd hm (Finset.notMem_empty ip)) (.inl g.kept)).seq fun _ s' h' => ?_
      exact (wp_pure _).2 (.inl ⟨rfl, rfl, h'.1⟩)
    | false =>
      rw [if_neg (by decide), if_neg (by decide), wp_pure]
      exact .inr ⟨i, [], ip, rfl, rfl, g⟩
  | cons name rest ih =>
    intro ip i s g
    have hip : ip ∈ ({ip} : Multiset Nat) := Multiset.mem_singleton_self ip
    have hu := g.held.inUse (.inl hip)
    have hT : (t (s.icache ip).inum).type ≠ 0 := g.inum ▸ g.type
    unfold walk
    refine (g.held.ilock (.inl hip) hT fun hl => ?_).seq fun _ s₁ h₁ => ?_
    · refine hs.blocked ⟨ip, fun h0 => hl ?_⟩ s
      rw [g.held.locks, if_neg (Finset.notMem_empty ip), h0]
    obtain ⟨h₁, hst₁, -⟩ := h₁
    have hin₁ : (s₁.icache ip).inum = i := (hst₁.inum ip hu).trans g.inum
    have hlk : ip ∈ insert ip (∅ : Finset Nat) := Finset.mem_insert_self ..
    have hkept₁ : Alive t s₀ s₁ ip := by
      have := g.kept
      rwa [Alive, g.inum, ← hin₁] at this
    have herase : (insert ip (∅ : Finset Nat)).erase ip = ∅ := Finset.erase_insert (Finset.notMem_empty ip)
    -- giving the reference back
    have hback : wp (do iunlockput sb ip; return none : M (Option (Nat × List UInt8)))
        (Found sb t s₀ none) E s₁ := by
      refine (Holds.iunlockput h₁ hlk (.inl hkept₁)).seq fun _ s' h' => ?_
      rw [herase] at h'
      exact (wp_pure _).2 (.inl ⟨rfl, rfl, h'.1⟩)
    rw [wp_bind, wp_get, h₁.di hlk, hin₁]
    by_cases hdir : (t i).type = T_DIR
    · rw [if_neg (not_not.2 hdir)]
      by_cases hlast : parent = true ∧ rest = []
      · obtain ⟨rfl, rfl⟩ := hlast
        rw [if_pos ⟨rfl, rfl⟩, target_last, if_pos hdir]
        refine (h₁.iunlock hlk).seq ?_
        rintro _ s' ⟨h', hst'⟩
        rw [herase] at h'
        have hin' := (hst'.inum ip (h₁.inUse (.inl hip))).trans hin₁
        refine (wp_pure _).2 (.inr ⟨i, name, ip, rfl, rfl, h', hin', g.type, ?_⟩)
        rw [Alive, hin', ← hin₁]
        exact hkept₁
      · rw [if_neg hlast, target_cons hlast, entryOf, if_pos hdir, wp_bind]
        have hT₁ : (t (s₁.icache ip).inum).type = T_DIR := hin₁ ▸ hdir
        refine (h₁.dirlookup tree hlk hT₁ (hs.iget h₁)).imp fun r s₂ h₂ => ?_
        rw [hin₁] at h₂
        obtain ⟨hnone, rfl, rfl⟩ | ⟨i', ip', off, hsome, rfl, h₂, hin₂, hst₂⟩ := h₂
        · rw [hnone]
          exact hback
        · rw [hsome, bind_some]
          dsimp only
          have hi : i < sb.ninodes := hin₁ ▸ h₁.inum_lt (.inl hip)
          obtain ⟨-, hT', hl'⟩ := tree.named i hi hdir name i' hsome
          have hkept₂ : Alive t s₀ s₂ ip := by
            rw [Alive, hst₂.inum ip (h₁.inUse (.inl hip))]
            exact hkept₁
          have hswap : Holds sb t s₀ (ip ::ₘ {ip'}) (insert ip ∅) s₂ := by
            rw [show (ip ::ₘ {ip'} : Multiset Nat) = ip' ::ₘ {ip} from Multiset.pair_comm ip ip']
            exact h₂
          refine (hswap.iunlockput hlk (.inl hkept₂)).seq ?_
          rintro _ s₃ ⟨h₃, hst₃⟩
          rw [herase] at h₃
          have hin₃ := (hst₃.inum ip' (.inl (Multiset.mem_singleton_self ip'))).trans hin₂
          exact ih ⟨h₃, hin₃, hT', .inl (by rw [hin₃]; exact hl')⟩
    · rw [if_pos hdir]
      rw [target_file hdir]
      exact hback

/-- The current directory is entry `c` of the cache. -/
structure Cwd (t : Table) (s₀ : St) (c : Nat) : Prop where
  proc : (s₀.proc s₀.myproc).cwd = some c
  inUse : InUse s₀ c
  type : (t (s₀.icache c).inum).type ≠ 0

def origin (s₀ : St) (c : Nat) (path : List UInt8) : Nat :=
  if path.head? = some slash then ROOTINO else (s₀.icache c).inum

theorem namex_spec {c : Nat} (h₀ : Inv sb none t s₀) (tree : Tree sb t s₀.blk) (hc : Cwd t s₀ c) (hs : Stops s₀ E)
    (path : List UInt8) (parent : Bool) :
    wp (namex sb path parent) (Found sb t s₀ (target sb t s₀.blk parent (origin s₀ c path) (components path))) E s₀ := by
  have helems : elems (path.length + 1) path = components path := elems_eq (Nat.lt_succ_self _)
  unfold namex
  rw [wp_bind, wp_get, origin, helems]
  by_cases hroot : path.head? = some slash
  · obtain ⟨hlt, hT, hl⟩ := tree.root
    rw [if_pos hroot, if_pos hroot, wp_bind]
    have hfull : (∀ j < NINODE, 0 < (s₀.icache j).ref) → E .igetNone s₀ := fun hall =>
      hs.full ⟨0, fun j hj _ => hall j hj⟩ s₀
    refine ((Holds.start h₀).iget hlt hfull).imp fun ip s' h' => ?_
    exact walk_spec tree hs parent _ ⟨h'.1, h'.2.1, hT, .inl (by rw [h'.2.1]; exact hl)⟩
  · rw [if_neg hroot, if_neg hroot, hc.proc]
    dsimp only
    refine ((Holds.start h₀).idup hc.inUse).seq ?_
    rintro ip s' ⟨rfl, h', hst⟩
    exact walk_spec tree hs parent _ ⟨h', hst.inum ip hc.inUse, hc.type, .inr hc.inUse⟩

theorem namei_spec {c : Nat} (h₀ : Inv sb none t s₀) (tree : Tree sb t s₀.blk) (hc : Cwd t s₀ c) (hs : Stops s₀ E)
    (path : List UInt8) :
    wp (namei sb path) (fun r s' =>
      resolve sb t s₀.blk (origin s₀ c path) (components path) = none ∧ r = none ∧ Holds sb t s₀ 0 ∅ s' ∨
      ∃ i ip, resolve sb t s₀.blk (origin s₀ c path) (components path) = some i ∧ r = some ip ∧ Good sb t s₀ s' ip i)
      E s₀ := by
  unfold namei
  refine (namex_spec h₀ tree hc hs path false).seq fun r s' h' => ?_
  rw [wp_pure]
  obtain ⟨hg, rfl, h'⟩ | ⟨i, name, ip, hg, rfl, h'⟩ := h'
  · exact .inl ⟨map_eq_none_iff.1 hg, rfl, h'⟩
  · obtain ⟨i', hi', he⟩ := map_eq_some_iff.1 hg
    obtain ⟨rfl, -⟩ := Prod.mk.inj he
    exact .inr ⟨i', ip, hi', rfl, h'⟩

theorem nameiparent_spec {c : Nat} (h₀ : Inv sb none t s₀) (tree : Tree sb t s₀.blk) (hc : Cwd t s₀ c) (hs : Stops s₀ E)
    (path : List UInt8) :
    wp (nameiparent sb path) (Found sb t s₀ (resolveParent sb t s₀.blk (origin s₀ c path) (components path))) E s₀ :=
  namex_spec h₀ tree hc hs path true

end Walk

/-! ## References to inodes -/

/-- The references to inode `i`. -/
def refsOf (s : St) (i : Nat) : Int := ∑ k ∈ Finset.range NINODE, if (s.icache k).inum = i then (s.icache k).ref else 0

/-- Only the cache has changed. The entries in use are for the inodes they were for, and there is one more reference, to
the entry returned. -/
structure Counted (s s' : St) (r : Option Nat) : Prop where
  rest : s' = { s with icache := s'.icache }
  inum : ∀ k, InUse s k → (s'.icache k).inum = (s.icache k).inum
  locks : ∀ k, (s'.icache k).lock = (s.icache k).lock
  refs : ∀ k, (s'.icache k).ref = (s.icache k).ref + if r = some k then 1 else 0
  inodes : ∀ i, refsOf s' i = refsOf s i + if r.map (fun k => (s'.icache k).inum) = some i then 1 else 0

section Counted
variable {sb : Superblock} {t : Table} {s₀ s : St} {held : Multiset Nat} {ip : Nat}

/-- An entry that has another inode than before had no references before. -/
theorem Holds.refsOf (h : Holds sb t s₀ held ∅ s) (i : Nat) :
    Fs.refsOf s i = Fs.refsOf s₀ i + ∑ k ∈ Finset.range NINODE, if (s.icache k).inum = i then (held.count k : Int) else 0 := by
  unfold Fs.refsOf
  rw [← Finset.sum_add_distrib]
  refine Finset.sum_congr rfl fun k hk => ?_
  have hlt : k < NINODE := Finset.mem_range.1 hk
  rw [h.refs k]
  by_cases hu : 0 < (s₀.icache k).ref
  · rw [h.stays.inum k ⟨hlt, hu⟩]
    split
    · rfl
    · rfl
  · have h0 : (s₀.icache k).ref = 0 := Int.le_antisymm (Int.not_lt.1 hu) (h.base.nonneg k)
    rw [h0, ite_self, Int.zero_add, Int.zero_add]

end Counted

/-! ## The main result -/

/-- Two entries of the cache are free, and no inode is locked. -/
structure Room (s : St) : Prop where
  free : ∃ a < NINODE, ∃ b < NINODE, a ≠ b ∧ (s.icache a).ref = 0 ∧ (s.icache b).ref = 0
  unlocked : ∀ k, (s.icache k).lock = none

theorem Room.stops {s : St} (h : Room s) : Stops s fun _ _ => False where
  blocked := fun ⟨j, hj⟩ _ => hj (h.unlocked j)
  full := fun ⟨k, hk⟩ _ => by
    obtain ⟨a, ha, b, hb, hne, ha0, hb0⟩ := h.free
    by_cases e : a = k
    · have := hk b hb fun hbk => hne (e.trans hbk.symm)
      omega
    · have := hk a ha e
      omega

theorem named_home (i : Nat) (hi : i < 64) (hT : (dinode homeSb homeDisk i).type = T_DIR) (name : List UInt8) (i' : Nat)
    (h : dirMap homeSb (dinode homeSb homeDisk) homeDisk i name = some i') :
    i' < 64 ∧ (dinode homeSb homeDisk i').type ≠ 0 ∧ 0 < (dinode homeSb homeDisk i').nlink := by
  have hi4 : ∀ i < 64, (dinode homeSb homeDisk i).type = T_DIR → i < 4 := by decide +kernel
  have hall : ∀ i < 4, ∀ x ∈ dirSlots (content homeSb (dinode homeSb homeDisk) homeDisk i), ∀ p ∈ x,
      p.2 < 64 ∧ (dinode homeSb homeDisk p.2).type ≠ 0 ∧ 0 < (dinode homeSb homeDisk p.2).nlink := by decide +kernel
  exact hall i (hi4 i hi hT) _ (List.mem_of_getElem? (SlotMap.index_of_lookup h)) _ rfl

theorem tree_home : Tree homeSb (dinode homeSb homeDisk) homeDisk where
  whole := by decide +kernel
  named i hi hT name i' h := by
    obtain ⟨hlt, hT', hn⟩ := named_home i hi hT name i' h
    exact ⟨hlt, hT', Int.ne_of_gt hn⟩
  root := by decide +kernel

/-- The current directory is "d", and `n` more entries of the cache are in use. -/
def homeSt (n : Nat) : St where
  blk := homeDisk
  disk := homeDisk
  icache k := ⟨ROOTDEV, k + 3, if k ≤ n then 1 else 0, none, false, dinode homeSb homeDisk 0⟩
  ftable _ := ⟨.none, 0, false, false, 0, 0, 0, 0⟩
  pipes _ := none
  proc _ := ⟨true, fun _ => none, some 0⟩
  myproc := 0
  outstanding := 0
  lh := []
  trace := []

theorem inv_home (n : Nat) : Inv homeSb none (dinode homeSb homeDisk) (homeSt n) where
  files := files_home
  disk _ _ _ := rfl
  nonneg k := by
    show (0 : Int) ≤ if k ≤ n then 1 else 0
    split <;> decide
  cached k hk _ := ⟨rfl, by have : NINODE = 50 := rfl; show k + 3 < 64; omega⟩
  uniq k _ k' _ _ _ h := Nat.add_right_cancel h
  copy _ _ _ h := by cases h

theorem cwd_home (n : Nat) : Cwd (dinode homeSb homeDisk) (homeSt n) 0 where
  proc := rfl
  inUse := ⟨by decide, by show (0 : Int) < if 0 ≤ n then 1 else 0; rw [if_pos (Nat.zero_le n)]; decide⟩
  type := by
    show (dinode homeSb homeDisk 3).type ≠ 0
    decide +kernel

end Xv6.Fs
