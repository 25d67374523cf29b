import Xv6.Fs.Links
/-!
# Calls that fail

`sys_link`, `sys_unlink`, `sys_mkdir`, `sys_mknod` and `sys_chdir` take
references and locks, and `sys_link` counts the new link before it knows whether
there will be one. When one of them returns -1, all of that has been undone.
-/

namespace Xv6.Fs

open Bytes Hoare Function Option

/-! ## Transactions -/

def began (s : St) : St := { s with outstanding := s.outstanding + 1, trace := .beginOp s.myproc :: s.trace }

def ended (s : St) : St := { s with
  outstanding := s.outstanding - 1
  lh := if s.outstanding - 1 = 0 then [] else s.lh
  disk := if s.outstanding - 1 = 0 then fun b => if b ∈ s.lh then s.blk b else s.disk b else s.disk
  trace := .endOp s.myproc :: s.trace }

theorem beginOp_exact {s : St} : wp beginOp (fun _ s' => s' = began s) (fun _ _ => True) s := by
  unfold beginOp record
  simp only [wp_bind, wp_modify, wp_get, wp_ite, wp_throw, wp_set]
  exact ⟨fun _ => trivial, fun _ => rfl⟩

theorem endOp_exact {s : St} {E : Stop → St → Prop} : wp endOp (fun _ s' => s' = ended s) E s := by
  unfold endOp record
  simp only [wp_bind, wp_modify]
  rfl

def Ev.isBegin : Ev → Bool
  | .beginOp _ => true
  | _ => false

def Ev.isEnd : Ev → Bool
  | .endOp _ => true
  | _ => false

/-! ## Nothing has changed -/

/-- The blocks as the cache shows them, the references to inodes, the locks and the tables of files and processes are the
same, and `begin_op` and `end_op` were called equally often. -/
structure Unchanged (s s' : St) : Prop where
  blk : s'.blk = s.blk
  refs : ∀ k, (s'.icache k).ref = (s.icache k).ref
  inum : ∀ k, InUse s k → (s'.icache k).inum = (s.icache k).inum
  inodes : ∀ i, refsOf s' i = refsOf s i
  locks : ∀ k, (s'.icache k).lock = (s.icache k).lock
  ftable : s'.ftable = s.ftable
  proc : s'.proc = s.proc
  outstanding : s'.outstanding = s.outstanding
  ops : ∃ l, s'.trace = l ++ s.trace ∧ l.countP Ev.isBegin = l.countP Ev.isEnd

/-- A file system and a current directory: what directories name, and the root, has links. -/
structure Consistent (sb : Superblock) (t : Table) (s : St) (c : Nat) : Prop where
  inv : Inv sb none t s
  tree : Tree sb t s.blk
  named : ∀ i < sb.ninodes, (t i).type = T_DIR → ∀ name i', dirMap sb t s.blk i name = some i' → 0 < (t i').nlink
  root : 0 < (t ROOTINO).nlink
  cwd : Cwd t s c

section Unchanged
variable {sb : Superblock} {t : Table} {s s' : St} {c : Nat}

theorem Consistent.began (h : Consistent sb t s c) : Consistent sb t (began s) c :=
  ⟨h.inv.blocks rfl h.inv.files fun _ _ => rfl, h.tree, h.named, h.root, h.cwd.proc, h.cwd.inUse, h.cwd.type⟩

theorem refsOf_congr (h0 : ∀ k, 0 ≤ (s.icache k).ref) (hr : ∀ k, (s'.icache k).ref = (s.icache k).ref)
    (hi : ∀ k, InUse s k → (s'.icache k).inum = (s.icache k).inum) (i : Nat) : refsOf s' i = refsOf s i := by
  refine Finset.sum_congr rfl fun k hk => ?_
  rw [hr k]
  by_cases hu : 0 < (s.icache k).ref
  · rw [hi k ⟨Finset.mem_range.1 hk, hu⟩]
  · rw [Int.le_antisymm (Int.not_lt.1 hu) (h0 k), ite_self, ite_self]

theorem Unchanged.refl (s : St) : Unchanged s s :=
  ⟨rfl, fun _ => rfl, fun _ _ => rfl, fun _ => rfl, fun _ => rfl, rfl, rfl, rfl, [], rfl, rfl⟩

theorem Shifted.ended {d : Nat → Int} (h : Shifted d (began s) s') (h0 : ∀ k, 0 ≤ (s.icache k).ref) (hd : ∀ j, d j = 0)
    (hblk : s'.blk = s.blk) : Unchanged s (ended s') := by
  have hrefs : ∀ k, (s'.icache k).ref = (s.icache k).ref := fun k => by
    rw [h.refs k, hd k]
    exact Int.add_zero _
  obtain ⟨L, l, -, -, htrace⟩ := h.wrote.calls
  refine ⟨hblk, hrefs, h.inum, refsOf_congr h0 hrefs h.inum, h.locks, h.wrote.ftable, h.wrote.proc, ?_, ?_⟩
  · show s'.outstanding - 1 = _
    rw [h.wrote.outstanding]
    exact Int.add_sub_cancel _ _
  · refine ⟨.endOp s'.myproc :: (l.map (Ev.logWrite s.myproc) ++ [.beginOp s.myproc]), ?_, ?_⟩
    · show Ev.endOp s'.myproc :: s'.trace = _
      rw [htrace, List.cons_append, List.append_assoc]
      rfl
    · simp [List.countP_cons, List.countP_append, List.countP_map, Function.comp_def, Ev.isBegin, Ev.isEnd]

theorem Holds.ended (h : Holds sb t (began s) 0 ∅ s') : Unchanged s (Fs.ended s') :=
  h.shifted.ended h.base.nonneg (fun j => by rw [Multiset.count_zero]; rfl) h.blk

theorem Holds.fails (h : Holds sb t (began s) 0 ∅ s') :
    wp (do endOp; return -1 : M Int) (fun r s' => r = -1 → Unchanged s s') (fun _ _ => True) s' := by
  refine endOp_exact.seq fun _ s₁ he => ?_
  rw [he, wp_pure]
  exact fun _ => h.ended

theorem Holds.putFails {k : Nat} (h : Holds sb t (began s) {k} {k} s') (hk : Alive t (began s) s' k) :
    wp (do Fs.iunlockput sb k; endOp; return -1 : M Int) (fun r s' => r = -1 → Unchanged s s') (fun _ _ => True) s' := by
  have hcons : Holds sb t (began s) (k ::ₘ 0) {k} s' := h
  refine (hcons.iunlockput (Finset.mem_singleton_self k) (.inl hk)).seq fun _ s₁ h₁ => ?_
  have hnone : ({k} : Finset Nat).erase k = ∅ := by rw [Finset.erase_singleton]
  exact Holds.fails (hnone ▸ h₁.1)

end Unchanged

/-! ## The calls -/

/-- A reference to an inode that is locked. -/
structure Locked (sb : Superblock) (t : Table) (s₀ s : St) (ip i : Nat) : Prop where
  held : Holds sb t s₀ {ip} {ip} s
  inum : (s.icache ip).inum = i
  type : (t i).type ≠ 0
  kept : Alive t s₀ s ip

section Calls
variable {sb : Superblock} {t : Table} {s s₀ s' : St} {c ip i : Nat}

theorem stops_true (s₀ : St) : Stops s₀ fun _ _ => True := ⟨fun _ _ => trivial, fun _ _ => trivial⟩

theorem not_fails {m : M Int} (h : Always (· = 0) m) :
    wp m (fun r s' => r = -1 → Unchanged s s') (fun _ _ => True) s₀ :=
  h.wp (fun _ _ h0 h1 => absurd (h0.symm.trans h1) (by decide)) s₀

theorem Good.ilock (g : Good sb t s₀ s ip i) :
    wp (ilock sb ip) (fun _ s' => Locked sb t s₀ s' ip i) (fun _ _ => True) s := by
  have hip : ip ∈ ({ip} : Multiset Nat) := Multiset.mem_singleton_self ip
  refine (g.held.ilock (.inl hip) (g.inum ▸ g.type) fun _ => trivial).imp ?_
  rintro _ s' ⟨h', hst, -⟩
  have hin : (s'.icache ip).inum = i := (hst.inum ip (g.held.inUse (.inl hip))).trans g.inum
  refine ⟨h', hin, g.type, ?_⟩
  have := g.kept
  rwa [Alive, g.inum, ← hin] at this

theorem Locked.di (l : Locked sb t s₀ s ip i) : (s.icache ip).di = t i := by
  rw [l.held.di (Finset.mem_singleton_self ip), l.inum]

theorem resolveParent_dir {blk : Nat → Arr} {o d : Nat} {names : List (List UInt8)} {name : List UInt8}
    (h : resolveParent sb t blk o names = some (d, name)) : (t d).type = T_DIR := by
  obtain ⟨last, -, h⟩ := bind_eq_some_iff.1 h
  obtain ⟨d', hd, he⟩ := map_eq_some_iff.1 h
  obtain ⟨rfl, -⟩ := Prod.mk.inj he
  simpa using (filter_eq_some_iff.1 hd).2

theorem Holds.isdirempty {held : Multiset Nat} {locked : Finset Nat} {k : Nat} (h : Holds sb t s₀ held locked s)
    (tree : Tree sb t s₀.blk) (hk : k ∈ locked) (hT : (t (s.icache k).inum).type = T_DIR) :
    wp (isdirempty sb k) (fun _ s' => s' = s) (fun _ _ => True) s := by
  have d := h.isDir hk hT (tree.whole _ (h.inum_lt (h.sub k hk)) hT)
  have hlen := length_entries (dirBytes sb t s k)
  rw [length_dirBytes] at hlen
  have hwhole := d.whole
  unfold Fs.isdirempty
  rw [wp_bind, wp_get, d.di]
  dsimp only
  rw [wp_bind, Nat.mul_comm 2 DESIZE]
  by_cases h2 : 2 ≤ (entries (dirBytes sb t s k)).length
  · refine (d.scan .isdirempty (fun de => de.inum ≠ 0) _ 2 h2 (by omega)).total fun r s' hr => ?_
    exact (wp_pure _).2 hr.1
  · have hoff : ¬ DESIZE * 2 < (t (s.icache k).inum).size := by
      rw [desize] at hlen hwhole ⊢
      omega
    unfold Fs.scan
    rw [wp_bind, wp_get, d.di, if_neg hoff, wp_pure, wp_pure]

theorem sysChdir_fails (h : Consistent sb t s c) (path : Option Str) :
    wp (sysChdir sb path) (fun r s' => r = -1 → Unchanged s s') (fun _ _ => True) s := by
  have hb := h.began
  unfold sysChdir
  rw [wp_bind, wp_get]
  refine beginOp_exact.seq fun _ s₁ he => ?_
  rw [he]
  cases path with
  | none => exact (Holds.start hb.inv).fails
  | some path =>
    dsimp only
    refine (namei_spec hb.inv hb.tree hb.cwd (stops_true _) path.chars).seq ?_
    rintro r s₂ (⟨-, rfl, h₂⟩ | ⟨i, ip, -, rfl, g⟩)
    · exact h₂.fails
    · dsimp only
      refine g.ilock.seq fun _ s₃ l => ?_
      rw [wp_bind, wp_get, l.di]
      by_cases hT : (t i).type = T_DIR
      · rw [if_neg (not_not.2 hT)]
        refine not_fails (always_bind fun _ => always_bind fun s' => ?_)
        split
        · exact always_throw _
        · exact always_bind fun _ => always_bind fun _ => always_bind fun _ => always_pure rfl
      · rw [if_pos hT]
        exact l.held.putFails l.kept

theorem unlinkEntry_zero (dp ip off : Nat) : Always (· = 0) (unlinkEntry sb dp ip off) := by
  have hrest : Always (· = (0 : Int)) (do
      iunlockput sb dp
      addLink ip (-1)
      iupdate sb ip
      iunlockput sb ip
      endOp
      return 0 : M Int) :=
    always_bind fun _ => always_bind fun _ => always_bind fun _ => always_bind fun _ => always_bind fun _ => always_pure rfl
  unfold unlinkEntry
  refine always_bind fun w => .ite (always_bind fun _ => always_bind fun _ => ?_) (always_bind fun _ => ?_)
  all_goals exact .ite (always_bind fun _ => always_bind fun _ => hrest) hrest

theorem sysUnlink_fails (h : Consistent sb t s c) (path : Option Str) :
    wp (sysUnlink sb path) (fun r s' => r = -1 → Unchanged s s') (fun _ _ => True) s := by
  have hb := h.began
  unfold sysUnlink
  cases path with
  | none => exact (wp_pure _).2 fun _ => .refl s
  | some path =>
    dsimp only
    refine beginOp_exact.seq fun _ s₁ he => ?_
    rw [he]
    refine (nameiparent_spec hb.inv hb.tree hb.cwd (stops_true _) path.chars).seq ?_
    rintro r s₂ (⟨-, rfl, h₂⟩ | ⟨d, name, dp, hg, rfl, g⟩)
    · exact h₂.fails
    have hdp : dp ∈ ({dp} : Finset Nat) := Finset.mem_singleton_self dp
    dsimp only
    refine g.ilock.seq fun _ s₃ l => ?_
    have hT : (t (s₃.icache dp).inum).type = T_DIR := l.inum ▸ resolveParent_dir hg
    have hd : d < sb.ninodes := l.inum ▸ l.held.inum_lt (l.held.sub dp hdp)
    rw [wp_ite]
    refine ⟨fun _ => l.held.putFails l.kept, fun _ => ?_⟩
    refine (l.held.dirlookup hb.tree hdp hT fun _ => trivial).seq fun r s₄ h₄ => ?_
    rw [l.inum] at h₄
    obtain ⟨-, rfl, rfl⟩ | ⟨i, ip, off, hm, rfl, h₄, hin, hst₄⟩ := h₄
    · exact l.held.putFails l.kept
    obtain ⟨-, hTi, hn⟩ := hb.tree.named d hd (l.inum ▸ hT) name i hm
    have hip : ip ∈ (ip ::ₘ {dp} : Multiset Nat) := Multiset.mem_cons_self ip _
    dsimp only
    refine (h₄.ilock (.inl hip) (hin ▸ hTi) fun _ => trivial).seq ?_
    rintro _ s₅ ⟨h₅, hst₅, hne⟩
    have hipl : ip ∈ insert ip ({dp} : Finset Nat) := Finset.mem_insert_self ..
    have hin₅ : (s₅.icache ip).inum = i := (hst₅.inum ip (h₄.inUse (.inl hip))).trans hin
    rw [wp_bind, wp_get]
    rw [h₅.di hipl, hin₅, wp_ite]
    refine ⟨fun _ => (wp_bind _ _).2 ((wp_throw _).2 trivial), fun _ => ?_⟩
    rw [wp_ite]
    refine ⟨fun hTd => ?_, fun _ => not_fails (unlinkEntry_zero dp ip off)⟩
    refine (h₅.isdirempty hb.tree hipl (hin₅ ▸ hTd)).seq fun r s₆ h₆ => ?_
    rw [h₆, wp_ite]
    refine ⟨fun _ => not_fails (unlinkEntry_zero dp ip off), fun _ => ?_⟩
    refine (h₅.iunlockput hipl (.inl (.inl (hin₅ ▸ hn)))).seq ?_
    rintro _ s₇ ⟨h₇, hst₇⟩
    rw [Finset.erase_insert hne] at h₇
    refine h₇.putFails ?_
    have hinum : (s₇.icache dp).inum = (s₃.icache dp).inum := by
      rw [hst₇.inum dp (.inl (Multiset.mem_singleton_self dp)),
        hst₅.inum dp (h₄.inUse (.inl (Multiset.mem_cons_of_mem (Multiset.mem_singleton_self dp)))),
        hst₄.inum dp (l.held.inUse (.inl (Multiset.mem_singleton_self dp)))]
    rw [Alive, hinum]
    exact l.kept

/-- `create`, once it knows that the name is new. -/
def createNew (sb : Superblock) (dp : Nat) (name : List UInt8) (type major minor : Int) : M (Option Nat) := do
  let ip ← ialloc sb ((← get).icache dp).dev type
  ilock sb ip
  setDi ip fun x => { x with major := toShort major, minor := toShort minor, nlink := 1 }
  iupdate sb ip
  if type = T_DIR then createDots sb dp ip
  let r ← dirlink sb dp name ((← get).icache ip).inum
  if r < 0 then throw .createDirlink
  iunlockput sb dp
  return some ip

/-- `create` finds no directory for the name, or the name in it, or it is to make it. -/
theorem create_spec {path : List UInt8} {type major minor : Int} {Q : Option Nat → St → Prop} (h : Consistent sb t s c)
    (hnone : ∀ s', Holds sb t s 0 ∅ s' → Q none s')
    (hold : ∀ ip i s', Locked sb t s s' ip i → (t i).type = T_FILE ∨ (t i).type = T_DEVICE → Q (some ip) s')
    (hnew : ∀ dp d name s', Locked sb t s s' dp d →
      resolveParent sb t s.blk (origin s c path) (components path) = some (d, name) →
      dirMap sb t s.blk d name = none → wp (createNew sb dp name type major minor) Q (fun _ _ => True) s') :
    wp (create sb path type major minor) Q (fun _ _ => True) s := by
  unfold create
  refine (nameiparent_spec h.inv h.tree h.cwd (stops_true _) path).seq ?_
  rintro r s₁ (⟨-, rfl, h₁⟩ | ⟨d, name, dp, hg, rfl, g⟩)
  · exact (wp_pure _).2 (hnone s₁ h₁)
  have hdp : dp ∈ ({dp} : Finset Nat) := Finset.mem_singleton_self dp
  dsimp only
  refine g.ilock.seq fun _ s₂ l => ?_
  have hT : (t d).type = T_DIR := resolveParent_dir hg
  have hd : d < sb.ninodes := l.inum ▸ l.held.inum_lt (l.held.sub dp hdp)
  refine (l.held.dirlookup h.tree hdp (l.inum ▸ hT) fun _ => trivial).seq fun r s₃ h₃ => ?_
  rw [l.inum] at h₃
  obtain ⟨hm, rfl, rfl⟩ | ⟨i, ip, off, hm, rfl, h₃, hin, hst₃⟩ := h₃
  · exact hnew dp d name s₃ l hg hm
  obtain ⟨-, hTi, hn⟩ := h.tree.named d hd hT name i hm
  have hkept : Alive t s s₃ dp := by
    rw [Alive, hst₃.inum dp (l.held.inUse (.inl (Multiset.mem_singleton_self dp)))]
    exact l.kept
  have hswap : Holds sb t s (dp ::ₘ {ip}) {dp} s₃ := by
    rw [show (dp ::ₘ {ip} : Multiset Nat) = ip ::ₘ {dp} from Multiset.pair_comm dp ip]
    exact h₃
  dsimp only
  refine (hswap.iunlockput hdp (.inl hkept)).seq ?_
  rintro _ s₄ ⟨h₄, hst₄⟩
  rw [Finset.erase_singleton] at h₄
  have hin₄ : (s₄.icache ip).inum = i := (hst₄.inum ip (.inl (Multiset.mem_singleton_self ip))).trans hin
  refine Good.ilock ⟨h₄, hin₄, hTi, .inl (hin₄ ▸ hn)⟩ |>.seq fun _ s₅ l₅ => ?_
  rw [wp_bind, wp_get, l₅.di, wp_ite]
  refine ⟨fun hc => (wp_pure _).2 (hold ip i s₅ l₅ hc.2), fun _ => ?_⟩
  rw [wp_bind]
  have hcons : Holds sb t s (ip ::ₘ 0) {ip} s₅ := l₅.held
  refine (hcons.iunlockput (Finset.mem_singleton_self ip) (.inl l₅.kept)).imp fun _ s₆ h₆ => ?_
  rw [Finset.erase_singleton] at h₆
  exact (wp_pure _).2 (hnone s₆ h₆.1)

theorem createNew_some (dp : Nat) (name : List UInt8) (type major minor : Int) :
    Always (· ≠ none) (createNew sb dp name type major minor) := by
  have hrest : ∀ ip, Always (· ≠ (none : Option Nat)) (do
      let r ← dirlink sb dp name ((← get).icache ip).inum
      if r < 0 then throw Stop.createDirlink
      iunlockput sb dp
      return some ip : M (Option Nat)) := fun ip =>
    always_bind fun _ => always_bind fun _ => .ite (always_bind fun _ => always_bind fun _ => always_pure (some_ne_none ip))
      (always_bind fun _ => always_pure (some_ne_none ip))
  unfold createNew
  refine always_bind fun _ => always_bind fun ip => always_bind fun _ => always_bind fun _ => always_bind fun _ => ?_
  exact .ite (always_bind fun _ => hrest ip) (hrest ip)

theorem make_fails (h : Consistent sb t s c) (path : Option Str) (type major minor : Int) :
    wp (make sb path type major minor) (fun r s' => r = -1 → Unchanged s s') (fun _ _ => True) s := by
  have hb := h.began
  have hzero : ∀ ip, Always (· = (0 : Int)) (do iunlockput sb ip; endOp; return 0 : M Int) := fun ip =>
    always_bind fun _ => always_bind fun _ => always_pure rfl
  unfold make
  refine beginOp_exact.seq fun _ s₁ he => ?_
  rw [he]
  cases path with
  | none => exact (Holds.start hb.inv).fails
  | some path =>
    dsimp only
    rw [wp_bind]
    refine create_spec hb (fun s' h' => h'.fails) (fun ip i s' _ _ => not_fails (hzero ip)) fun dp d name s' _ _ _ => ?_
    refine (createNew_some dp name type major minor).wp (fun r s₂ hr => ?_) s'
    obtain ⟨ip, rfl⟩ := ne_none_iff_exists'.1 hr
    exact not_fails (hzero ip)

/-! ## sys_link -/

theorem Consistent.relinked {held : Multiset Nat} {k i : Nat} (h : Consistent sb t s c)
    (r : Relinked sb t s held k i ((t i).linked 1) s') :
    Tree sb (update t i ((t i).linked 1)) s'.blk ∧ Cwd (update t i ((t i).linked 1)) s' c := by
  have hcontent := r.content
  generalize ht : update t i ((t i).linked 1) = t₁ at hcontent ⊢
  have hsame : ∀ j, (t j).Same (t₁ j) := fun j => by
    rw [← ht]
    by_cases e : j = i
    · rw [e, update_self]
      exact Dinode.same_linked _ 1
    · rw [update_of_ne e]
      exact ⟨rfl, rfl, rfl⟩
  -- the count may become negative, but not zero
  have hlinks : ∀ j < sb.ninodes, 0 < (t j).nlink → (t₁ j).nlink ≠ 0 := fun j hj h0 => by
    rw [← ht]
    by_cases e : j = i
    · rw [e, update_self]
      show toShort ((t i).nlink + 1) ≠ 0
      have hn := (h.inv.files.each j hj).ok.nlink
      rw [e] at hn h0
      unfold toShort at hn ⊢
      rw [Int.bmod_def] at hn ⊢
      split at hn <;> split <;> omega
    · rw [update_of_ne e]
      omega
  have hmap : ∀ j name, dirMap sb t₁ s'.blk j name = dirMap sb t s.blk j name := fun j name => by
    rw [dirMap, dirMap, hcontent]
  refine ⟨⟨fun j hj hT => ?_, fun j hj hT name j' hm => ?_, ?_⟩, ?_, ?_, ?_⟩
  · rw [(hsame j).size]
    exact h.tree.whole j hj ((hsame j).type ▸ hT)
  · rw [hmap] at hm
    rw [(hsame j).type] at hT
    obtain ⟨hlt, hT', -⟩ := h.tree.named j hj hT name j' hm
    exact ⟨hlt, (hsame j').type ▸ hT', hlinks j' hlt (h.named j hj hT name j' hm)⟩
  · obtain ⟨hlt, hT, -⟩ := h.tree.root
    exact ⟨hlt, (hsame _).type ▸ hT, hlinks _ hlt h.root⟩
  · rw [r.shifted.wrote.proc, r.shifted.wrote.myproc]
    exact h.cwd.proc
  · refine ⟨h.cwd.inUse.1, ?_⟩
    have := h.cwd.inUse.2
    rw [r.shifted.refs]
    omega
  · rw [r.shifted.inum c h.cwd.inUse, (hsame _).type]
    exact h.cwd.type

theorem linkBad_fails {s₅ s₈ : St} (hl : Layout sb) (inv : Inv sb none t (began s)) (hT : (t i).type ≠ 0)
    (kept : (t i).nlink ≠ 0 ∨ InUse (began s) ip) (r : Relinked sb t (began s) {ip} ip i ((t i).linked 1) s₅)
    (h : Holds sb (update t i ((t i).linked 1)) s₅ 0 ∅ s₈) :
    wp (linkBad sb ip) (fun r s' => r = -1 → Unchanged s s') (fun _ _ => True) s₈ := by
  generalize ht : update t i ((t i).linked 1) = t₁ at h
  have hin₈ : (s₈.icache ip).inum = i := (h.stays.inum ip ⟨r.live.lt, r.live.ref⟩).trans r.inum
  have hi : i < sb.ninodes := by
    rw [← r.inum]
    exact r.inv.inum r.live
  have hTi : (t₁ (s₈.icache ip).inum).type ≠ 0 := by
    rw [hin₈, ← ht, update_self]
    exact hT
  unfold linkBad
  refine (h.ilock (.inr ⟨r.live.lt, r.live.ref⟩) hTi fun _ => trivial).seq ?_
  rintro _ s₉ ⟨h₉, hst₉, -⟩
  have hin₉ : (s₉.icache ip).inum = i := (hst₉.inum ip (h.inUse (.inr ⟨r.live.lt, r.live.ref⟩))).trans hin₈
  have hback : (t₁ i).linked (-1) = t i := by
    rw [← ht, update_self, Dinode.linked_back (inv.files.each i hi).ok]
  have htable : update t₁ i (t i) = t := by
    rw [← ht, update_idem, update_eq_self]
  unfold iunlockput
  simp only [wp_bind]
  refine h₉.relink hl (-1) fun s₁₁ r₁₁ => ?_
  rw [hin₉, hback] at r₁₁
  have hinv := r₁₁.inv
  rw [htable] at hinv
  have href : (s₁₁.icache ip).ref = (s.icache ip).ref + 1 := by
    rw [r₁₁.shifted.refs, r.shifted.refs, Multiset.count_zero, Multiset.count_singleton_self]
    exact Int.add_zero _
  have hkeep : ¬ ((s₁₁.icache ip).ref = 1 ∧ (s₁₁.icache ip).valid = true ∧ (s₁₁.icache ip).di.nlink = 0) := by
    rintro ⟨h1, -, h0⟩
    rw [hinv.di r₁₁.live, r₁₁.inum] at h0
    rcases kept with hn | hu
    · exact hn h0
    · have : 0 < (s.icache ip).ref := hu.2
      omega
  refine (iput_exact hkeep).imp fun _ s₁₂ hs => ?_
  have hput : Shifted (fun j => if j = ip then -1 else 0) s₁₁ s₁₂ := by
    rw [hs]
    refine ⟨counts_update rfl, fun j _ => ?_, fun j => ?_, wrote_icache _ _ _⟩
    · show (update s₁₁.icache ip _ j).inum = _
      by_cases e : j = ip
      · rw [e, update_self]
      · rw [update_of_ne e]
    · show (update s₁₁.icache ip _ j).lock = _
      by_cases e : j = ip
      · rw [e, update_self]
      · rw [update_of_ne e]
  have hall := (r.shifted.trans r₁₁.shifted fun _ => Int.natCast_nonneg _).trans hput fun j =>
    Int.add_nonneg (Int.natCast_nonneg _) (Int.natCast_nonneg _)
  have hblk : s₁₂.blk = s.blk := by
    have hx : t i = getDinode (s.blk (sb.iblock i)) (i % IPB) := (inv.disk i hi fun e => by cases e).symm
    rw [show s₁₂.blk = s₁₁.blk by rw [hs], r₁₁.blk, r.blk, update_self, update_idem, putDinode_idem, hx]
    show update s.blk _ (putDinode (s.blk (sb.iblock i)) _ _) = _
    rw [putDinode_get, update_eq_self]
  refine endOp_exact.imp fun _ s' he => ?_
  rw [he, wp_pure]
  refine fun _ => hall.ended inv.nonneg (fun j => ?_) hblk
  rw [Multiset.count_zero, Multiset.count_singleton]
  by_cases e : j = ip
  · rw [if_pos e, if_pos e]
    decide
  · rw [if_neg e, if_neg e]
    decide

theorem sysLink_fails (hl : Layout sb) (h : Consistent sb t s c) (old new : Option Str) :
    wp (sysLink sb old new) (fun r s' => r = -1 → Unchanged s s') (fun _ _ => True) s := by
  have hb := h.began
  unfold sysLink
  cases old with
  | none => exact (wp_pure _).2 fun _ => .refl s
  | some old =>
    cases new with
    | none => exact (wp_pure _).2 fun _ => .refl s
    | some new =>
      dsimp only
      refine beginOp_exact.seq fun _ s₁ he => ?_
      rw [he]
      refine (namei_spec hb.inv hb.tree hb.cwd (stops_true _) old.chars).seq ?_
      rintro r s₂ (⟨-, rfl, h₂⟩ | ⟨i, ip, -, rfl, g⟩)
      · exact h₂.fails
      dsimp only
      refine g.ilock.seq fun _ s₃ l => ?_
      rw [wp_bind, wp_get, l.di, wp_ite]
      refine ⟨fun _ => l.held.putFails l.kept, fun _ => ?_⟩
      have kept : (t i).nlink ≠ 0 ∨ InUse (began s) ip := by
        have := l.kept
        rwa [Alive, l.inum] at this
      simp only [wp_bind]
      refine l.held.relink hl 1 fun s₅ r => ?_
      rw [l.inum] at r
      obtain ⟨tree₅, cwd₅⟩ := hb.relinked r
      refine (nameiparent_spec r.inv tree₅ cwd₅ (stops_true _) new.chars).imp ?_
      rintro a s₆ (⟨-, rfl, h₆⟩ | ⟨d, name, dp, hg, rfl, g₆⟩)
      · exact linkBad_fails hl hb.inv g.type kept r h₆
      have hdp : dp ∈ ({dp} : Finset Nat) := Finset.mem_singleton_self dp
      dsimp only
      refine g₆.ilock.seq fun _ s₇ l₇ => ?_
      -- the directory is given back
      have hput : ∀ s', Holds sb (update t i ((t i).linked 1)) s₅ {dp} {dp} s' →
          (s'.icache dp).inum = d → wp (do iunlockput sb dp; linkBad sb ip) (fun r s' => r = -1 → Unchanged s s')
            (fun _ _ => True) s' := fun s' h' hin => by
        have hcons : Holds sb (update t i ((t i).linked 1)) s₅ (dp ::ₘ 0) {dp} s' := h'
        have hkept : Alive (update t i ((t i).linked 1)) s₅ s' dp := by
          rw [Alive, hin, ← l₇.inum]
          exact l₇.kept
        refine (hcons.iunlockput hdp (.inl hkept)).seq fun _ s₈ h₈ => ?_
        rw [Finset.erase_singleton] at h₈
        exact linkBad_fails hl hb.inv g.type kept r h₈.1
      rw [wp_bind, wp_get, wp_ite]
      refine ⟨fun _ => hput s₇ l₇.held l₇.inum, fun _ => ?_⟩
      refine (l₇.held.dirlink tree₅ hdp (l₇.inum ▸ resolveParent_dir hg) _).seq fun v s₈ h₈ => ?_
      rcases h₈ with ⟨rfl, h₈, hst₈⟩ | rfl
      · rw [if_pos (by decide)]
        exact hput s₈ h₈ ((hst₈.inum dp (.inl (Multiset.mem_singleton_self dp))).trans l₇.inum)
      · rw [if_neg (by decide)]
        exact not_fails (always_bind fun _ => always_bind fun _ => always_bind fun _ => always_pure rfl)

end Calls

/-! ## The main result -/

/-- The system calls that work on names alone. -/
inductive NameCall where
  | link (old new : Option Str)
  | unlink (path : Option Str)
  | mkdir (path : Option Str)
  | mknod (path : Option Str) (major minor : Int)
  | chdir (path : Option Str)

def NameCall.run (sb : Superblock) : NameCall → M Int
  | .link old new => sysLink sb old new
  | .unlink path => sysUnlink sb path
  | .mkdir path => sysMkdir sb path
  | .mknod path major minor => sysMknod sb path major minor
  | .chdir path => sysChdir sb path

/-- A call that returns -1 has changed nothing. -/
theorem failed_call_unchanged {sb : Superblock} {t : Table} {s s' : St} {c : Nat} (hl : Layout sb)
    (h : Consistent sb t s c) (call : NameCall) (he : exec (call.run sb) s = (.ok (-1), s')) : Unchanged s s' := by
  have hwp : wp (call.run sb) (fun r s' => r = -1 → Unchanged s s') (fun _ _ => True) s := by
    cases call with
    | link old new => exact sysLink_fails hl h old new
    | unlink path => exact sysUnlink_fails h path
    | mkdir path => exact make_fails h path T_DIR 0 0
    | mknod path major minor => exact make_fails h path T_DEVICE major minor
    | chdir path => exact sysChdir_fails h path
  exact hwp.ok he rfl

theorem consistent_home (n : Nat) : Consistent homeSb (dinode homeSb homeDisk) (homeSt n) 0 where
  inv := inv_home n
  tree := tree_home
  named i hi hT name i' hm := (named_home i hi hT name i' hm).2.2
  root := by decide +kernel
  cwd := cwd_home n

def linkHome : NameCall :=
  .link (some homeF) (some homeD)

theorem failed_call_unchanged_home : Unchanged (homeSt 0) (exec (linkHome.run homeSb) (homeSt 0)).2 := by
  have hfails : (exec (linkHome.run homeSb) (homeSt 0)).1 = .ok (-1) := by decide +kernel
  generalize hp : exec (linkHome.run homeSb) (homeSt 0) = p at hfails ⊢
  obtain ⟨r, s'⟩ := p
  subst hfails
  exact failed_call_unchanged layout_home (consistent_home 0) linkHome hp

end Xv6.Fs
