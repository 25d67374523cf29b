import Xv6.Fs.Names
import Xv6.Lib.Run
/-!
# Link counts

A run of successful `sys_link` and `sys_unlink` calls on one file, with references
to it given back in between. As long as the names of the file are no more than a
`short` can count, the link count is their number, `sys_unlink` does not panic on
it, and the inode is freed when the last name and the last reference are gone.
-/

namespace Xv6.Fs

open Bytes Hoare SlotMap Function Option

/-! ## Paths to a file -/

section Resolve
variable {sb : Superblock} {t : Table} {blk : Nat → Arr} {f : Nat}

theorem WellNamed.resolve_named (h : WellNamed sb t blk) (names : List (List UInt8)) :
    ∀ {o : Nat}, o < sb.ninodes → resolve sb t blk o names = some f → f = o ∨ ∃ d, Named sb t blk d f := by
  induction names with
  | nil =>
    intro o _ hr
    exact .inl (Option.some.inj hr).symm
  | cons name rest ih =>
    intro o ho hr
    obtain ⟨i, hi, hr⟩ := bind_eq_some_iff.1 hr
    have hT : (t o).type = T_DIR := by
      by_contra hne
      rw [entryOf, if_neg hne] at hi
      cases hi
    rw [entryOf, if_pos hT] at hi
    have hd : Named sb t blk o i := ⟨ho, hT, _, _, index_of_lookup hi⟩
    rcases ih (h.named o i hd).1 hr with rfl | hf
    · exact .inr ⟨o, hd⟩
    · exact .inr hf

theorem resolve_append (names names' : List (List UInt8)) :
    ∀ o, resolve sb t blk o (names ++ names') = (resolve sb t blk o names).bind (resolve sb t blk · names') := by
  induction names with
  | nil => exact fun o => rfl
  | cons name rest ih =>
    intro o
    show (entryOf sb t blk o name).bind _ = Option.bind (Option.bind _ _) _
    rw [bind_assoc]
    congr 1
    funext i
    exact ih i

/-- The parent of what a path leads to has it under the last name. -/
theorem resolveParent_entry {o d : Nat} {names : List (List UInt8)} {name : List UInt8}
    (hr : resolve sb t blk o names = some f) (hp : resolveParent sb t blk o names = some (d, name)) :
    dirMap sb t blk d name = some f := by
  have hT := resolveParent_dir hp
  obtain ⟨last, hlast, hp⟩ := bind_eq_some_iff.1 hp
  obtain ⟨d', hd', he⟩ := map_eq_some_iff.1 hp
  obtain ⟨rfl, rfl⟩ := Prod.mk.inj he
  have hd : resolve sb t blk o names.dropLast = some d' := (filter_eq_some_iff.1 hd').1
  rw [← List.dropLast_append_getLast? _ hlast, resolve_append, hd, bind_some] at hr
  obtain ⟨i, hi, hr⟩ := bind_eq_some_iff.1 hr
  rw [entryOf, if_pos hT] at hi
  rw [hi]
  exact hr

variable {s : St} {c : Nat} {δ : Int}

theorem Links.origin_dir (h : Links sb f c δ t s) (path : List UInt8) :
    origin s c path < sb.ninodes ∧ (t (origin s c path)).type = T_DIR := by
  unfold origin
  split
  · exact ⟨h.tree.root.1, h.tree.root.2.1⟩
  · exact ⟨(h.inv.cached c h.home.inUse.1 h.home.inUse.2).2, h.home.type⟩

theorem Links.named (h : Links sb f c δ t s) {path : List UInt8}
    (hr : resolve sb t s.blk (origin s c path) (components path) = some f) : ∃ d, Named sb t s.blk d f := by
  obtain ⟨ho, hT⟩ := h.origin_dir path
  refine (h.tree.resolve_named _ ho hr).resolve_left fun e => ?_
  exact h.file (e ▸ hT)

end Resolve

/-! ## The calls -/

section Calls
variable {sb : Superblock} {t t' : Table} {s s' s₀ : St} {f c k : Nat}

theorem toShort_le (v : Int) : toShort v ≤ 32767 := by
  rw [toShort, Int.bmod_def]
  split <;> omega

theorem not_succeeds {m : M Int} {Q : St → Prop} (h : Always (· = -1) m) :
    wp m (fun r s' => r = 0 → Q s') (fun _ _ => True) s₀ :=
  h.wp (fun _ _ h1 h0 => absurd (h1.symm.trans h0) (by decide)) s₀

theorem always_linkBad (ip : Nat) : Always (· = -1) (linkBad sb ip) :=
  always_bind fun _ => always_bind fun _ => always_bind fun _ => always_bind fun _ => always_bind fun _ => always_pure rfl

theorem always_unlinkBad (dp : Nat) : Always (· = -1) (unlinkBad sb dp) :=
  always_bind fun _ => always_bind fun _ => always_pure rfl

/-- The directory that an entry was written to can be given back, and is not freed by that. -/
theorem Holds.written {held : Multiset Nat} {locked : Finset Nat} (h : Holds sb t s₀ held locked s) (hk : k ∈ held)
    (ha : Alive t s₀ s k) (w : EntryWritten sb t s k t' s') :
    InUse s' k ∧ ((t' (s'.icache k).inum).nlink ≠ 0 ∨ 1 < (s'.icache k).ref) ∧ (InUse s₀ k → 1 < (s'.icache k).ref) := by
  have href : (s'.icache k).ref = (s₀.icache k).ref + held.count k := by
    rw [w.self]
    exact h.refs k
  have hcount := Multiset.count_pos.2 hk
  have hmany : InUse s₀ k → 1 < (s'.icache k).ref := fun hu => by
    have := hu.2
    omega
  have h0 := h.base.nonneg k
  refine ⟨⟨h.lt k hk, by omega⟩, ?_, hmany⟩
  rw [w.nlink, show (s'.icache k).inum = (s.icache k).inum by rw [w.self]]
  exact ha.imp_right hmany

/-- What a call leaves when it has succeeded. -/
def Settles (sb : Superblock) (f c : Nat) (s s' : St) : Prop :=
  ∃ t', Links sb f c 0 t' s' ∧ Present sb f t' s' ∧ s'.outstanding = s.outstanding

theorem Present.ended (h : Present sb f t s) : Present sb f t (ended s) := ⟨h.valid, h.there⟩

theorem settles_ended {n : Nat} {P : Nat → Prop} (h : Links sb f c 0 t' s') (hp : Present sb f t' s')
    (w : Wrote P n (began s) s') : Settles sb f c s (ended s') := by
  refine ⟨t', h.ended, hp.ended, ?_⟩
  show s'.outstanding - 1 = _
  rw [w.outstanding]
  exact Int.add_sub_cancel _ _

theorem sysLink_links (hl : Layout sb) (h : Links sb f c 0 t s) (h0 : 0 ≤ s.outstanding) (old new : Str)
    (hres : resolve sb t s.blk (origin s c old.chars) (components old.chars) = some f)
    (hmax : names sb t s.blk f < 32767) :
    wp (sysLink sb (some old) (some new)) (fun r s' => r = 0 → Settles sb f c s s') (fun _ _ => True) s := by
  have hb := h.began
  obtain ⟨d₀, hname⟩ := h.named hres
  obtain ⟨hf1, hf2⟩ : 1 ≤ f ∧ f ≤ 65535 := by
    obtain ⟨-, -, j, name, hj⟩ := hname
    exact inum_of_slot hj
  have hTf : (t f).type ≠ 0 := (h.tree.named d₀ f hname).2.1
  have hop : 1 ≤ (began s).outstanding := by
    show 1 ≤ s.outstanding + 1
    omega
  unfold sysLink
  dsimp only
  refine beginOp_exact.seq fun _ s₁ he => ?_
  rw [he]
  refine (namei_spec hb.inv hb.tree.tree hb.home.cwd (stops_true _) old.chars).seq ?_
  rintro r s₂ (⟨hnone, -⟩ | ⟨i, ip, hi, rfl, g⟩)
  · cases hres.symm.trans hnone
  obtain rfl : f = i := Option.some.inj (hres.symm.trans hi)
  dsimp only
  refine g.ilock.seq fun _ s₃ l => ?_
  rw [wp_bind, wp_get, l.di, if_neg h.file]
  simp only [wp_bind]
  refine l.held.relink hl 1 fun s₅ r => ?_
  rw [l.inum] at r
  have hcu₅ : InUse s₅ c := ⟨hb.home.inUse.1, by
    have := hb.home.inUse.2
    rw [r.shifted.refs]
    omega⟩
  have h₅ : Links sb f c 1 (update t f ((t f).linked 1)) s₅ :=
    hb.relink r.inv r.content r.shifted.wrote hcu₅ (r.shifted.inum c hb.home.inUse) (by decide) (by
      show (names sb t s.blk f : Int) + (0 + 1) ≤ 32767
      omega)
  refine (nameiparent_spec r.inv h₅.tree.tree h₅.home.cwd (stops_true _) new.chars).imp ?_
  rintro a s₆ (⟨-, rfl, -⟩ | ⟨d, name, dp, hg, rfl, g₆⟩)
  · exact not_succeeds (always_linkBad ip)
  have hdp : dp ∈ ({dp} : Finset Nat) := Finset.mem_singleton_self dp
  dsimp only
  refine g₆.ilock.seq fun _ s₇ l₇ => ?_
  rw [wp_bind, wp_get, wp_ite]
  refine ⟨fun _ => not_succeeds (always_bind fun _ => always_linkBad ip), fun _ => ?_⟩
  have h₇ := h₅.holds l₇.held
  have hlive₇ := l₇.held.live hdp
  have hTd := l₇.inum ▸ resolveParent_dir hg
  have dir₇ := l₇.held.isDir hdp hTd (h₇.tree.whole _ (h₇.inv.inum hlive₇) hTd)
  have hu₇ : InUse s₇ ip := l₇.held.stays.inUse ⟨r.live.lt, r.live.ref⟩
  have hin₇ : (s₇.icache ip).inum = f := (l₇.held.stays.inum ip ⟨r.live.lt, r.live.ref⟩).trans r.inum
  have hne : ip ≠ dp := fun e => by
    rw [← e, hin₇] at hTd
    exact h₅.file hTd
  have hT₅ : (update t f ((t f).linked 1) f).type ≠ 0 := by
    rw [update_self]
    exact hTf
  have w₇ : Wrote (fun _ => True) 0 (began s) s₇ := r.shifted.wrote.trans l₇.held.wrote
  rw [wp_bind, hin₇]
  refine (dir₇.dirlink_edits hl h₇.inv hlive₇ (w₇.outstanding ▸ hop) h.lt).imp fun v s₈ h₈ => ?_
  rcases h₈ with rfl | ⟨rfl, hlk, t₈, e, w₈⟩
  · rw [if_pos (by decide)]
    exact not_succeeds (always_bind fun _ => always_linkBad ip)
  rw [if_neg (by decide), wp_bind]
  rw [newEntry, slot_new _ hf1 hf2] at e
  have h₈ := h₇.insert dir₇ hlk e w₈ hT₅
  obtain ⟨hdu₈, hkeep₈, hmany₈⟩ := l₇.held.written (Multiset.mem_singleton_self dp) l₇.kept w₈
  have w₁₈ : Wrote (fun _ => True) 0 (began s) s₈ := w₇.trans w₈.wrote
  have hu₈ : InUse s₈ ip ∧ (s₈.icache ip).inum = f := by
    rw [InUse, e.cache ip hne]
    exact ⟨hu₇, hin₇⟩
  refine (h₈.iunlockput hl hdu₈ (w₁₈.outstanding ▸ hop) hkeep₈ fun hc => hmany₈ (hc ▸ h₅.home.inUse)).imp ?_
  rintro _ s₉ ⟨h₉, w₉, st₉⟩
  have w₁₉ : Wrote (fun _ => True) 0 (began s) s₉ := w₁₈.trans w₉
  have hstay : InUse s₈ ip ∧ (ip = dp → 1 < (s₈.icache dp).ref) := ⟨hu₈.1, fun hc => absurd hc hne⟩
  have hlinks : names sb t₈ s₉.blk f ≠ 0 := fun hz => by
    have h1 := h₉.count
    have h2 := h₇.count
    rw [w₈.nlink] at h1
    omega
  rw [wp_bind]
  refine (h₉.iput hl ⟨hu₈.1.1, st₉.ref ip hstay⟩ ((st₉.inum ip hstay).trans hu₈.2) ?_ (fun hz => absurd hz hlinks)
    (w₁₉.outstanding ▸ hop)).imp fun _ s₁₀ h₁₀ => ?_
  · rw [e.type_eq dir₇.type]
    exact hT₅
  obtain ⟨t₁₀, h₁₀, p₁₀, w₁₀⟩ := h₁₀
  refine endOp_exact.seq fun _ s' he => ?_
  rw [he, wp_pure]
  exact fun _ => settles_ended h₁₀ p₁₀ (w₁₉.trans w₁₀)

theorem IsDir.dirlookup_off {name : List UInt8} (d : IsDir sb t s k) :
    wp (Fs.dirlookup sb k name) (fun r _ => ∀ x, r = some x → x.2 = DESIZE * index (dirOf sb t s k) (cut name))
      (fun _ _ => True) s := by
  refine d.dirlookup (fun _ => fun x hx => by cases hx) fun de _ => wp_of_all (fun ip s' => ?_) fun _ _ => trivial
  intro x hx
  rw [← Option.some.inj hx]

theorem unlinkEntry_links {held : Multiset Nat} {locked : Finset Nat} {dp ip i : Nat} {name : List UInt8}
    (hl : Layout sb)
    (h : Links sb f c 0 t (began s)) (h0 : 0 ≤ s.outstanding) (hh : Holds sb t (began s) held locked s')
    (hdp : dp ∈ locked ∧ dp ∈ held) (hip : ip ∈ locked) (hin : (s'.icache ip).inum = f)
    (hT : (t (s'.icache dp).inum).type = T_DIR) (ha : Alive t (began s) s' dp)
    (hi : (dirOf sb t s' dp)[i]? = some (some (name, f))) :
    wp (unlinkEntry sb dp ip (DESIZE * i)) (fun _ => Settles sb f c s) (fun _ _ => True) s' := by
  have h₅ := h.holds hh
  have hlive := hh.live hdp.1
  have dir := hh.isDir hdp.1 hT (h₅.tree.whole _ (h₅.inv.inum hlive) hT)
  have hip₅ := hh.live hip
  have hTf : (t f).type ≠ 0 := hin ▸ h₅.inv.type hip₅
  have hop : 1 ≤ (began s).outstanding := by
    show 1 ≤ s.outstanding + 1
    omega
  have hne : ip ≠ dp := fun e => by
    rw [← e, hin] at hT
    exact h.file hT
  have hzero : (Dirent.ofBytes (List.replicate DESIZE 0)).inum < sb.ninodes := Nat.lt_of_le_of_lt (Nat.zero_le f) h.lt
  unfold unlinkEntry
  rw [wp_bind]
  refine (dir.writei_edits hl h₅.inv hlive (hh.wrote.outstanding ▸ hop) List.length_replicate
    (Nat.le_of_lt (List.getElem?_eq_some_iff.1 hi).1) hzero).imp fun w s₆ h₆ => ?_
  rw [wp_ite]
  refine ⟨fun _ => (wp_bind _ _).2 ((wp_throw _).2 trivial), fun hw => ?_⟩
  obtain ⟨t₆, e, w₆⟩ : ∃ t₆, Edited sb t s' dp (put (dirOf sb t s' dp) i none) t₆ s₆ ∧ EntryWritten sb t s' dp t₆ s₆ := by
    rcases h₆ with h₆ | ⟨-, h₆⟩
    · exact absurd (h₆.symm.trans (not_not.1 hw)) (by decide)
    · rwa [slot_zero] at h₆
  have h₆ := h₅.remove dir hi e w₆
  obtain ⟨hdu₆, hkeep₆, hmany₆⟩ := hh.written hdp.2 ha w₆
  have w₁₆ : Wrote (fun _ => True) 0 (began s) s₆ := hh.wrote.trans w₆.wrote
  have hip₆ : Live s₆ ip := hip₅.inode (by rw [e.cache ip hne]) (by rw [e.cache ip hne])
  have hin₆ : (s₆.icache ip).inum = f := by rw [e.cache ip hne, hin]
  rw [wp_bind, wp_get, h₆.inv.di hip₆, hin₆, if_neg h₆.file]
  refine (h₆.iunlockput hl hdu₆ (w₁₆.outstanding ▸ hop) hkeep₆ fun hc => hmany₆ (hc ▸ h.home.inUse)).seq ?_
  rintro _ s₇ ⟨h₇, w₇, st₇⟩
  have hstay : InUse s₆ ip ∧ (ip = dp → 1 < (s₆.icache dp).ref) := ⟨⟨hip₆.lt, hip₆.ref⟩, fun hc => absurd hc hne⟩
  have hip₇ : Live s₇ ip := ⟨hip₆.lt, st₇.ref ip hstay, st₇.valid ip hstay hip₆.valid⟩
  have hin₇ : (s₇.icache ip).inum = f := (st₇.inum ip hstay).trans hin₆
  have w₁₇ : Wrote (fun _ => True) 0 (began s) s₇ := w₁₆.trans w₇
  unfold iunlockput
  simp only [wp_bind]
  refine (wp_bind _ _).1 (retag (x := (t₆ f).linked (-1)) hl h₇.inv hip₇ (hin₇ ▸ rfl) (hin₇ ▸ Dinode.same_linked _ (-1))
    ((h₇.inv.files.each f h.lt).ok.linked (-1)) fun s₈ r => ?_)
  have hcontent := r.content hl h₇.inv hip₇ (hin₇ ▸ Dinode.same_linked _ (-1))
  have hinv := r.inv
  rw [hin₇] at hcontent hinv
  have hcu : s₈.icache c = s₇.icache c := by rw [r.icache, update_of_ne (h₇.cwd_ne hin₇)]
  have hself : s₈.icache ip = { s₇.icache ip with di := (t₆ f).linked (-1) } := by rw [r.icache, update_self]
  have h₈ : Links sb f c 0 (update t₆ f ((t₆ f).linked (-1))) s₈ := by
    refine h₇.relink hinv hcontent r.wrote ?_ (by rw [hcu]) (by decide) ?_
    · rw [InUse, hcu]
      exact h₇.home.inUse
    · have hn := h₇.count
      have hmax := toShort_le (t₆ f).nlink
      rw [(h₇.inv.files.each f h.lt).ok.nlink] at hmax
      omega
  have hip₈ : Live s₈ ip := hip₇.inode (by rw [hself]) (by rw [hself])
  refine (iunlock_spec h₈.inv ⟨hip₈.lt, hip₈.ref⟩).mono (fun _ s₉ c₉ => ?_) fun _ _ _ => trivial
  have h₉ := h₈.calm c₉
  have hip₉ : Live s₉ ip := c₉.stays.live hip₈
  have hin₉ : (s₉.icache ip).inum = f := by rw [c₉.stays.inum ip ⟨hip₈.lt, hip₈.ref⟩, hself, hin₇]
  have w₁₉ : Wrote (fun _ => True) 0 (began s) s₉ :=
    (w₁₇.trans r.wrote).trans (c₉.wrote.mono (fun _ _ => trivial) (Nat.le_refl 0))
  refine (h₉.iput hl ⟨hip₉.lt, hip₉.ref⟩ hin₉ ?_ (fun _ => hip₉.valid) (w₁₉.outstanding ▸ hop)).imp fun _ s₁₀ h₁₀ => ?_
  · rw [update_self]
    show (t₆ f).type ≠ 0
    rw [e.type_eq dir.type]
    exact hTf
  obtain ⟨t₁₀, h₁₀, p₁₀, w₁₀⟩ := h₁₀
  refine endOp_exact.imp fun _ s' he => ?_
  rw [he, wp_pure]
  exact settles_ended h₁₀ p₁₀ (w₁₉.trans w₁₀)

theorem sysUnlink_links (hl : Layout sb) (h : Links sb f c 0 t s) (h0 : 0 ≤ s.outstanding) (path : Str)
    (hres : resolve sb t s.blk (origin s c path.chars) (components path.chars) = some f) :
    wp (sysUnlink sb (some path)) (fun r s' => r = 0 → Settles sb f c s s') (fun _ _ => True) s := by
  have hb := h.began
  unfold sysUnlink
  dsimp only
  refine beginOp_exact.seq fun _ s₁ he => ?_
  rw [he]
  refine (nameiparent_spec hb.inv hb.tree.tree hb.home.cwd (stops_true _) path.chars).seq ?_
  rintro r s₂ (⟨-, rfl, -⟩ | ⟨d, name, dp, hg, rfl, g⟩)
  · exact not_succeeds (always_bind fun _ => always_pure rfl)
  have hdp : dp ∈ ({dp} : Finset Nat) := Finset.mem_singleton_self dp
  have hdp' : dp ∈ ({dp} : Multiset Nat) := Multiset.mem_singleton_self dp
  dsimp only
  refine g.ilock.seq fun _ s₃ l => ?_
  have hT : (t (s₃.icache dp).inum).type = T_DIR := l.inum ▸ resolveParent_dir hg
  have h₃ := hb.holds l.held
  have dir := l.held.isDir hdp hT (h₃.tree.whole _ (h₃.inv.inum (l.held.live hdp)) hT)
  have hmap : dirMap sb t (began s).blk d name = some f := resolveParent_entry hres hg
  rw [wp_ite]
  refine ⟨fun _ => not_succeeds (always_unlinkBad dp), fun _ => ?_⟩
  rw [wp_bind]
  have hlook : wp (dirlookup sb dp name) (Looked sb t (began s) {dp} {dp} s₃
      (dirMap sb t (began s).blk (s₃.icache dp).inum name)) (fun _ _ => True) s₃ :=
    l.held.dirlookup hb.tree.tree hdp hT fun _ => trivial
  refine (hlook.and dir.dirlookup_off).mono (fun r s₄ h₄ => ?_) fun _ _ _ => trivial
  obtain ⟨h₄, hoff⟩ := h₄
  rw [l.inum, hmap] at h₄
  obtain ⟨hnone, -, -⟩ | ⟨i, ip, off, hm, rfl, h₄, hin, hst₄⟩ := h₄
  · cases hnone
  obtain rfl : f = i := Option.some.inj hm
  have hoff : off = DESIZE * index (dirOf sb t s₃ dp) (cut name) := hoff _ rfl
  have hip : ip ∈ (ip ::ₘ {dp} : Multiset Nat) := Multiset.mem_cons_self ip _
  have hdu₄ : InUse s₄ dp := h₄.inUse (.inl (Multiset.mem_cons_of_mem hdp'))
  have hTf : (t f).type ≠ 0 := (hb.tree.tree.named d (l.inum ▸ h₃.inv.inum (l.held.live hdp)) (l.inum ▸ hT) name f hmap).2.1
  dsimp only
  refine (h₄.ilock (.inl hip) (hin ▸ hTf) fun _ => trivial).seq ?_
  rintro _ s₅ ⟨h₅, hst₅, -⟩
  have hipl : ip ∈ insert ip ({dp} : Finset Nat) := Finset.mem_insert_self ..
  have hin₅ : (s₅.icache ip).inum = f := (hst₅.inum ip (h₄.inUse (.inl hip))).trans hin
  have hind₅ : (s₅.icache dp).inum = (s₃.icache dp).inum :=
    (hst₅.inum dp hdu₄).trans (hst₄.inum dp (l.held.inUse (.inl hdp')))
  rw [wp_bind, wp_get, h₅.di hipl, hin₅, wp_ite]
  refine ⟨fun _ => (wp_bind _ _).2 ((wp_throw _).2 trivial), fun _ => ?_⟩
  have hslot : (dirOf sb t s₅ dp)[index (dirOf sb t s₃ dp) (cut name)]? = some (some (cut name, f)) := by
    rw [show dirOf sb t s₅ dp = dirOf sb t s₃ dp by rw [dirOf, dirOf, dirBytes, dirBytes, hind₅, h₅.blk, l.held.blk]]
    refine index_of_lookup ?_
    rw [dirOf, dirBytes, l.held.blk, l.inum]
    exact hmap
  rw [if_neg h.file, hoff]
  refine (unlinkEntry_links hl hb h0 h₅ ⟨Finset.mem_insert_of_mem hdp, Multiset.mem_cons_of_mem hdp'⟩ hipl hin₅ ?_ ?_
    hslot).imp fun _ _ hs _ => hs
  · rw [hind₅, hT]
  · rw [Alive, hind₅]
    exact l.kept

/-- A reference is given back, as `fileclose` does it. -/
def drop (sb : Superblock) (k : Nat) : M Int := do
  beginOp
  iput sb k
  endOp
  return 0

theorem drop_links (hl : Layout sb) (h : Links sb f c 0 t s) (hp : Present sb f t s) (h0 : 0 ≤ s.outstanding)
    (hk : InUse s k) (hin : (s.icache k).inum = f) :
    wp (drop sb k) (fun _ => Settles sb f c s) (fun _ _ => True) s := by
  have hb := h.began
  have hop : 1 ≤ (began s).outstanding := by
    show 1 ≤ s.outstanding + 1
    omega
  unfold drop
  refine beginOp_exact.seq fun _ s₁ he => ?_
  rw [he]
  refine (hb.iput hl hk hin (hp.there.2 (.inr ⟨k, hk, hin⟩)) (fun hz => hp.valid hz k hk hin) hop).seq ?_
  rintro _ s₂ ⟨t₂, h₂, p₂, w₂⟩
  refine endOp_exact.seq fun _ s' he => ?_
  rw [he, wp_pure]
  exact settles_ended h₂ p₂ w₂

/-! ## No panic -/

/-- Any change at all. -/
def Any (_ _ : St) : Prop := True

instance : Frame Any := ⟨fun _ => trivial, fun _ _ => trivial, fun _ _ => trivial, fun _ _ => trivial, fun _ => trivial,
  fun _ _ _ => trivial, fun _ => trivial⟩

/-- Not the panic of `sys_unlink` on a link count. -/
def Stop.notNlink (e : Stop) : Prop := e ≠ .unlinkNlink

instance : Inner Stop.notNlink := ⟨fun h => by rintro rfl; exact h⟩

theorem notNlink {α : Type} {m : M α} (h : Keeps Any Stop.notNlink m) (s : St) :
    Hoare.wp m (fun _ _ => True) (fun e _ => e.notNlink) s :=
  (h s).imp fun _ _ _ => trivial

theorem sysUnlink_notNlink (inv : Inv sb none t s) (tree : WellNamed sb t s.blk) (home : Home t s c)
    (path : Option Str) :
    Hoare.wp (sysUnlink sb path) (fun _ _ => True) (fun e _ => e.notNlink) s := by
  have inv₁ : Inv sb none t (began s) := inv.blocks rfl inv.files fun _ _ => rfl
  have home₁ : Home t (began s) c := ⟨home.proc, home.inUse, home.type⟩
  have hstops : Stops (began s) fun e _ => e.notNlink := ⟨fun _ _ h => (by cases h), fun _ _ h => (by cases h)⟩
  unfold sysUnlink
  cases path with
  | none => exact (wp_pure _).2 trivial
  | some path =>
    dsimp only
    rw [wp_bind]
    refine ((notNlink keeps_beginOp s).and beginOp_exact).mono (fun _ s₁ h₁ => ?_) fun _ _ he => he.1
    rw [h₁.2]
    refine (nameiparent_spec inv₁ tree.tree home₁.cwd hstops path.chars).seq ?_
    rintro r s₂ (⟨-, rfl, -⟩ | ⟨d, name, dp, hg, rfl, g⟩)
    · exact notNlink (keeps_fail _) s₂
    have hdp : dp ∈ ({dp} : Finset Nat) := Finset.mem_singleton_self dp
    dsimp only
    rw [wp_bind]
    refine ((notNlink (keeps_ilock sb dp) s₂).and g.ilock).mono (fun _ s₃ h₃ => ?_) fun _ _ he => he.1
    obtain ⟨-, l⟩ := h₃
    have hT : (t (s₃.icache dp).inum).type = T_DIR := l.inum ▸ resolveParent_dir hg
    rw [wp_ite]
    refine ⟨fun _ => notNlink (keeps_unlinkBad sb dp) s₃, fun _ => ?_⟩
    refine (l.held.dirlookup tree.tree hdp hT fun _ h => (by cases h)).seq fun r s₄ h₄ => ?_
    rw [l.inum] at h₄ hT
    obtain ⟨-, rfl, rfl⟩ | ⟨i, ip, off, hm, rfl, h₄, hin, -⟩ := h₄
    · exact notNlink (keeps_unlinkBad sb dp) s₄
    have hd : d < sb.ninodes := l.inum ▸ l.held.inum_lt (l.held.sub dp hdp)
    obtain ⟨-, hTi, hlinks⟩ := tree.named d i ⟨hd, hT, _, _, index_of_lookup hm⟩
    have hip : ip ∈ (ip ::ₘ {dp} : Multiset Nat) := Multiset.mem_cons_self ip _
    dsimp only
    refine (h₄.ilock (.inl hip) (hin ▸ hTi) fun _ h => (by cases h)).seq ?_
    rintro _ s₅ ⟨h₅, hst₅, -⟩
    have hin₅ : (s₅.icache ip).inum = i := (hst₅.inum ip (h₄.inUse (.inl hip))).trans hin
    rw [wp_bind, wp_get, h₅.di (Finset.mem_insert_self ..), hin₅, wp_ite]
    -- the inode has a link, because a directory names it
    refine ⟨fun h1 => absurd h1 (by omega), fun _ => ?_⟩
    rw [wp_ite]
    refine ⟨fun _ => ?_, fun _ => notNlink (keeps_unlinkEntry sb dp ip off) s₅⟩
    refine (notNlink (keeps_isdirempty sb ip) s₅).seq fun r s₆ _ => ?_
    rw [wp_ite]
    refine ⟨fun _ => notNlink (keeps_unlinkEntry sb dp ip off) s₆, fun _ => ?_⟩
    exact notNlink ((keeps_iunlockput sb ip).bind fun _ => keeps_unlinkBad sb dp) s₆

end Calls

/-! ## Runs -/

section Table
variable {sb : Superblock} {t t' : Table} {s : St} {f c : Nat} {δ : Int}

theorem ref_table (h : ∀ i < sb.ninodes, t' i = t i) (blk : Nat → Arr) : ref sb t' blk = ref sb t blk := by
  funext ⟨i, j⟩
  unfold ref
  dsimp only
  by_cases hi : i < sb.ninodes
  · rw [h i hi]
  · rw [if_neg hi, if_neg hi]

theorem Inv.table (h : Inv sb none t s) (ht : ∀ i < sb.ninodes, t' i = t i) : Inv sb none t' s where
  files := ⟨⟨ref_table ht s.blk ▸ h.files.own, h.files.below⟩, fun i hi =>
    (h.files.each i hi).same (ht i hi) (fun j => by rw [ref_table ht]) fun _ _ _ => rfl⟩
  disk i hi hD := by rw [ht i hi, h.disk i hi hD]
  nonneg := h.nonneg
  cached := h.cached
  uniq := h.uniq
  copy k hk hr hv := by
    rw [ht _ (h.cached k hk hr).2]
    exact h.copy k hk hr hv

theorem Links.table (h : Links sb f c δ t s) (ht : ∀ i < sb.ninodes, t' i = t i) : Links sb f c δ t' s where
  inv := h.inv.table ht
  tree := h.tree.same (sameDirs_of_eq ht) fun i hi _ hT hl => by
    rw [ht i hi]
    exact ⟨hT, hl⟩
  home := ⟨h.home.proc, h.home.inUse, by
    rw [ht _ (h.inv.cached c h.home.inUse.1 h.home.inUse.2).2]
    exact h.home.type⟩
  lt := h.lt
  file := by
    rw [ht f h.lt]
    exact h.file
  count := by
    rw [ht f h.lt, (sameDirs_of_eq ht).names_eq]
    exact h.count

theorem Present.table (h : Present sb f t s) (ht : ∀ i < sb.ninodes, t' i = t i) (hf : f < sb.ninodes) :
    Present sb f t' s := by
  refine ⟨?_, ?_⟩
  · rw [(sameDirs_of_eq ht).names_eq]
    exact h.valid
  · rw [(sameDirs_of_eq ht).names_eq, ht f hf]
    exact h.there

end Table

/-- The names of `f` on the disk. -/
def nnames (sb : Superblock) (s : St) (f : Nat) : Nat := names sb (dinode sb s.blk) s.blk f

def inodeOf (sb : Superblock) (s : St) (c : Nat) (path : Str) : Option Nat :=
  resolve sb (dinode sb s.blk) s.blk (origin s c path.chars) (components path.chars)

/-- A file system in which the link count of the file `f` is the number of its names. -/
structure Sound (sb : Superblock) (f c : Nat) (s : St) : Prop where
  links : Links sb f c 0 (dinode sb s.blk) s
  present : Present sb f (dinode sb s.blk) s
  idle : 0 ≤ s.outstanding

/-- What happens to a file. -/
inductive FileCall where
  | link (old new : Str)
  | unlink (path : Str)
  | drop (k : Nat)

def FileCall.run (sb : Superblock) : FileCall → M Int
  | .link old new => sysLink sb (some old) (some new)
  | .unlink path => sysUnlink sb (some path)
  | .drop k => Fs.drop sb k

/-- The call is on the file `f`. -/
def FileCall.On (sb : Superblock) (f c : Nat) (s : St) : FileCall → Prop
  | .link old _ => inodeOf sb s c old = some f
  | .unlink path => inodeOf sb s c path = some f
  | .drop k => InUse s k ∧ (s.icache k).inum = f

/-- A call on `f` succeeds. -/
def fileStep (sb : Superblock) (f c : Nat) (s : St) (e : FileCall) (s' : St) : Prop :=
  e.On sb f c s ∧ Hoare.exec (e.run sb) s = (.ok 0, s')

/-- A `short` can count one name more. -/
def Fits (sb : Superblock) (f : Nat) (s : St) : FileCall → Prop
  | .link _ _ => nnames sb s f < 32767
  | _ => True

section Runs
variable {sb : Superblock} {s s' : St} {f c : Nat}

theorem Settles.sound (h : Settles sb f c s s') (h0 : 0 ≤ s.outstanding) : Sound sb f c s' := by
  obtain ⟨t', hl, hp, ho⟩ := h
  have ht : ∀ i < sb.ninodes, dinode sb s'.blk i = t' i := fun i hi => hl.inv.disk i hi fun e => by cases e
  exact ⟨hl.table ht, hp.table ht hl.lt, by omega⟩

theorem Sound.step (hl : Layout sb) (h : Sound sb f c s) {e : FileCall} (he : fileStep sb f c s e s')
    (hfit : Fits sb f s e) :
    Sound sb f c s' := by
  obtain ⟨hon, he⟩ := he
  cases e with
  | link old new => exact ((sysLink_links hl h.links h.idle old new hon hfit).ok he rfl).sound h.idle
  | unlink path => exact ((sysUnlink_links hl h.links h.idle path hon).ok he rfl).sound h.idle
  | drop k => exact ((drop_links hl h.links h.present h.idle hon.1 hon.2).ok he).sound h.idle

theorem refsOf_zero (h : Inv sb none t s) (f : Nat) : refsOf s f = 0 ↔ ¬ ∃ k, InUse s k ∧ (s.icache k).inum = f := by
  rw [refsOf, Finset.sum_eq_zero_iff_of_nonneg fun k _ => by
    split
    · exact h.nonneg k
    · exact Int.le_refl 0]
  constructor
  · rintro hz ⟨k, hk, hin⟩
    have := hz k (Finset.mem_range.2 hk.1)
    rw [if_pos hin] at this
    have := hk.2
    omega
  · intro hnone k hk
    split
    · next hin =>
      by_contra hne
      have := h.nonneg k
      exact hnone ⟨k, ⟨Finset.mem_range.1 hk, by omega⟩, hin⟩
    · rfl

/-- While a `short` can count the names of a file, its link count is their number, no `sys_unlink` panics on a link count,
and the inode is free exactly when the file has neither a name nor a reference. -/
theorem nlink_eq_names (hl : Layout sb) (hr : Run.Reach (Sound sb f c) (Run.When (fileStep sb f c) (Fits sb f)) s) :
    (dinode sb s.blk f).nlink = nnames sb s f ∧
      (∀ path, (Hoare.exec (sysUnlink sb path) s).1 ≠ .error .unlinkNlink) ∧
      ((dinode sb s.blk f).type = 0 ↔ nnames sb s f = 0 ∧ refsOf s f = 0) := by
  have hs : Sound sb f c s := hr.inv (Sound sb f c) (fun _ h => h) fun _ _ _ h hst => h.step hl hst.2 hst.1
  have h := hs.links
  refine ⟨?_, fun path he => ?_, ?_⟩
  · rw [h.count, Int.add_zero]
    rfl
  · have hwp := sysUnlink_notNlink h.inv h.tree h.home path
    generalize hp : Hoare.exec (sysUnlink sb path) s = p at he
    obtain ⟨r, s'⟩ := p
    dsimp only at he
    subst he
    exact hwp.error hp rfl
  · have hthere := not_congr hs.present.there
    rw [not_not, not_or, ← refsOf_zero h.inv, Nat.pos_iff_ne_zero, not_not] at hthere
    exact hthere

end Runs

/-! ## A file with one name -/

theorem wellNamed_home : WellNamed homeSb (dinode homeSb homeDisk) homeDisk where
  whole := tree_home.whole
  unique i hi hT := by
    have hi4 : ∀ i < 64, (dinode homeSb homeDisk i).type = T_DIR → i < 4 := by decide +kernel
    have hall : ∀ i < 4, ∀ a < (slotsOf homeSb (dinode homeSb homeDisk) homeDisk i).length,
        ∀ b < (slotsOf homeSb (dinode homeSb homeDisk) homeDisk i).length,
        ∀ p ∈ (slotsOf homeSb (dinode homeSb homeDisk) homeDisk i)[a]?.join,
        ∀ q ∈ (slotsOf homeSb (dinode homeSb homeDisk) homeDisk i)[b]?.join, p.1 = q.1 → a = b := by decide +kernel
    exact unique_of_forall (hall i (hi4 i hi hT))
  named d f := by
    rintro ⟨hd, hT, j, name, hj⟩
    have hd4 : ∀ i < 64, (dinode homeSb homeDisk i).type = T_DIR → i < 4 := by decide +kernel
    have hall : ∀ i < 4, ∀ x ∈ slotsOf homeSb (dinode homeSb homeDisk) homeDisk i, ∀ p ∈ x,
        p.2 < 64 ∧ (dinode homeSb homeDisk p.2).type ≠ 0 ∧ 0 < (dinode homeSb homeDisk p.2).nlink := by decide +kernel
    exact hall d (hd4 d hd hT) _ (List.mem_of_getElem? hj) _ rfl
  root := by decide +kernel

theorem sound_home : Sound homeSb 2 0 (homeSt 0) where
  links :=
    { inv := inv_home 0
      tree := wellNamed_home
      home := ⟨rfl, (cwd_home 0).inUse, by show (dinode homeSb homeDisk 3).type = T_DIR; decide +kernel⟩
      lt := by decide
      file := by show ¬ (dinode homeSb homeDisk 2).type = T_DIR; decide +kernel
      count := by
        show (dinode homeSb homeDisk 2).nlink = names homeSb (dinode homeSb homeDisk) homeDisk 2 + 0
        decide +kernel }
  present := by
    have hnames : names homeSb (dinode homeSb homeDisk) homeDisk 2 = 1 := by decide +kernel
    have htype : (dinode homeSb homeDisk 2).type ≠ 0 := by decide +kernel
    refine ⟨fun h0 => absurd (hnames.symm.trans h0) (by decide), iff_of_true htype (.inl ?_)⟩
    exact hnames ▸ Nat.one_pos
  idle := Int.le_refl 0

/-- `link("/f", "/g")`. -/
def linkNew : FileCall := .link homeF homeG

theorem nlink_eq_names_home : ∃ s', fileStep homeSb 2 0 (homeSt 0) linkNew s' ∧
    (dinode homeSb s'.blk 2).nlink = nnames homeSb s' 2 ∧ (dinode homeSb s'.blk 2).nlink = 2 := by
  have hon : linkNew.On homeSb 2 0 (homeSt 0) := by
    show inodeOf homeSb (homeSt 0) 0 homeF = some 2
    decide +kernel
  have hfit : Fits homeSb 2 (homeSt 0) linkNew := by
    show names homeSb (dinode homeSb homeDisk) homeDisk 2 < 32767
    decide +kernel
  have hok : (exec (linkNew.run homeSb) (homeSt 0)).1 = .ok 0 := by decide +kernel
  have hlinks : (dinode homeSb (exec (linkNew.run homeSb) (homeSt 0)).2.blk 2).nlink = 2 := by decide +kernel
  generalize hp : exec (linkNew.run homeSb) (homeSt 0) = p at hok hlinks
  obtain ⟨r, s'⟩ := p
  subst hok
  have hstep : fileStep homeSb 2 0 (homeSt 0) linkNew s' := ⟨hon, hp⟩
  exact ⟨s', hstep, (nlink_eq_names layout_home ((Run.Reach.init sound_home).step ⟨hfit, hstep⟩)).1, hlinks⟩

end Xv6.Fs
