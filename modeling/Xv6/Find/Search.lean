import Xv6.Find.Code
/-!
# What find finds

`below` lists what is strictly below a directory. `find` prints the lines of
those that are called as its target, in this order, and closes what it has
opened, as long as the directories are nested at most twelve deep: `find` holds a
descriptor for each, and `stat` needs another. `main` never passes the name on.
-/

namespace Xv6.Find

open Fs (Dirent cut components namecmp slash dot dotdot DIRSIZ ROOTINO)
open Printf (Arg vprintf)
open Function List

/-! ## The tree -/

/-- The entry is in use and neither `.` nor `..`. -/
def Proper (de : Dirent) : Prop := de.inum ≠ 0 ∧ cut de.name ≠ dot ∧ cut de.name ≠ dotdot

instance (de : Dirent) : Decidable (Proper de) := inferInstanceAs (Decidable (_ ∧ _))

/-- From the directory `i`, through the directories `dirs`, one comes to `j`, which is called `name` there. -/
inductive Below (fs : Files) : Nat → List (List UInt8) → List UInt8 → Nat → Prop
  | here {i de} : de ∈ fs.entries i → Proper de → Below fs i [] (cut de.name) de.inum
  | deeper {i de dirs name j} : de ∈ fs.entries i → Proper de → Below fs de.inum dirs name j →
      Below fs i (cut de.name :: dirs) name j

/-- An entry that can be opened. -/
structure Entry (fs : Files) (path : List UInt8) (de : Dirent) : Prop where
  name : cut de.name ≠ [] ∧ slash ∉ cut de.name
  fits : (sub path de).length < MAXPATH
  opens : (fs.node de.inum).opens = true

instance (fs : Files) (path : List UInt8) (de : Dirent) : Decidable (Entry fs path de) :=
  decidable_of_iff ((cut de.name ≠ [] ∧ slash ∉ cut de.name) ∧ (sub path de).length < MAXPATH ∧
    (fs.node de.inum).opens = true) ⟨fun h => ⟨h.1, h.2.1, h.2.2⟩, fun h => ⟨h.1, h.2, h.3⟩⟩

/-- A tree of at most `n` directories on top of each other, with `path` for the first. -/
def Tree (fs : Files) : Nat → List UInt8 → Nat → Prop
  | 0, _, _ => False
  | n + 1, path, i => (fs.node i).isDir = true ∧
    (((fs.entries i).filter fun de => de.inum ≠ 0).map fun de => cut de.name).Nodup ∧
    ∀ de ∈ fs.entries i, de.inum ≠ 0 → Entry fs path de ∧
      (Proper de → (fs.node de.inum).isDir = true → Tree fs n (sub path de) de.inum)

instance decidableTree (fs : Files) : ∀ n path i, Decidable (Tree fs n path i)
  | 0, _, _ => inferInstanceAs (Decidable False)
  | n + 1, _, _ =>
    have := decidableTree fs n
    inferInstanceAs (Decidable (_ ∧ _ ∧ _))

/-- What is strictly below the directory `i`: the directories on the way, the name and the inode. -/
def below (fs : Files) : Nat → Nat → List (List (List UInt8) × List UInt8 × Nat)
  | 0, _ => []
  | n + 1, i => ((fs.entries i).filter fun de => Proper de).flatMap fun de =>
    ([], cut de.name, de.inum) :: (below fs n de.inum).map (Prod.map (cut de.name :: ·) id)

/-- The line for one of them. -/
def line (fs : Files) (path : List UInt8) (x : List (List UInt8) × List UInt8 × Nat) : List UInt8 :=
  let buf := (x.1 ++ [x.2.1]).foldl (fun p name => p ++ slash :: name) path
  match fs.node x.2.2 with
  | .dir _ => chars "dir :" ++ buf ++ chars "\n"
  | .file _ => chars "file:" ++ buf ++ chars "\n"
  | .device _ => []

section Tree
variable {fs : Files} {n i : Nat} {path target : List UInt8}

theorem entries_nil (h : (fs.node i).isDir ≠ true) : fs.entries i = [] := by
  unfold Files.entries
  split
  · next hi => simp [hi, Node.isDir] at h
  · rfl

theorem Below.isDir {dirs : List (List UInt8)} {name : List UInt8} {j : Nat} (h : Below fs i dirs name j) :
    (fs.node i).isDir = true := by
  by_contra hi
  cases h <;> simp_all [entries_nil hi]

theorem mem_below_succ {dirs : List (List UInt8)} {name : List UInt8} {j : Nat} :
    (dirs, name, j) ∈ below fs (n + 1) i ↔ ∃ de ∈ fs.entries i, Proper de ∧
      (dirs = [] ∧ name = cut de.name ∧ j = de.inum ∨
        ∃ dirs', (dirs', name, j) ∈ below fs n de.inum ∧ dirs = cut de.name :: dirs') := by
  simp [below, and_assoc, eq_comm]

theorem mem_below (h : Tree fs n path i) {dirs : List (List UInt8)} {name : List UInt8} {j : Nat} :
    (dirs, name, j) ∈ below fs n i ↔ Below fs i dirs name j := by
  constructor
  · clear h
    induction n generalizing i dirs with
    | zero => exact fun hm => by cases hm
    | succ n ih =>
      rw [mem_below_succ]
      rintro ⟨de, hde, hp, ⟨rfl, rfl, rfl⟩ | ⟨dirs', hm, rfl⟩⟩
      · exact .here hde hp
      · exact .deeper hde hp (ih hm)
  · intro hb
    induction hb generalizing n path with
    | @here i de hde hp =>
      cases n with
      | zero => exact h.elim
      | succ n => exact mem_below_succ.2 ⟨de, hde, hp, .inl ⟨rfl, rfl, rfl⟩⟩
    | @deeper i de dirs name j hde hp hb ih =>
      cases n with
      | zero => exact h.elim
      | succ n => exact mem_below_succ.2 ⟨de, hde, hp, .inr ⟨dirs, ih ((h.2.2 de hde hp.1).2 hp hb.isDir), rfl⟩⟩

end Tree

/-! ## Paths -/

section Paths
variable {fs : Files} {n i : Nat} {path : List UInt8} {de : Dirent}

theorem cut_nonzero {c : UInt8} (hc : c ∈ cut de.name) : decide (c ≠ 0) = true :=
  mem_takeWhile_imp (p := fun c => decide (c ≠ 0)) hc

theorem length_cut (name : List UInt8) : (cut name).length ≤ DIRSIZ :=
  Nat.le_trans (takeWhile_sublist _).length_le (length_take_le ..)

theorem cut_cut : cut (cut de.name) = cut de.name := by
  rw [cut, Fs.text, take_of_length_le (length_cut _), takeWhile_eq_self_iff]
  exact fun c hc => cut_nonzero hc

theorem fmtname_sub (h : slash ∉ cut de.name) : fmtname (sub path de) = cut de.name := by
  have hlast : ((sub path de).reverse.takeWhile (· ≠ slash)).reverse = cut de.name := by
    rw [sub, reverse_append, reverse_cons, append_assoc, takeWhile_append_of_pos]
    · simp
    · intro c hc
      simp only [decide_eq_true_eq]
      rintro rfl
      exact h (mem_reverse.1 hc)
  unfold fmtname
  rw [hlast]
  dsimp only
  split
  · rfl
  · rw [takeWhile_append_of_pos fun c => cut_nonzero]
    cases DIRSIZ - (cut de.name).length <;> simp [replicate_succ]

theorem components_sub (h : cut de.name ≠ [] ∧ slash ∉ cut de.name) :
    components (sub path de) = components path ++ [cut de.name] := by
  have hno : ∀ c ∈ cut de.name, decide (c = slash) = false := fun c hc => decide_eq_false fun hs => h.2 (hs ▸ hc)
  rw [components, sub, splitOnP_append_cons _ _ (by simp), filter_append, map_append,
    splitOnP_eq_singleton hno, filter_cons_of_pos (by simpa using h.1)]
  simp [components, take_of_length_le (length_cut _)]

theorem Tree.dirlookup (h : Tree fs (n + 1) path i) (hde : de ∈ fs.entries i) (h0 : de.inum ≠ 0) :
    fs.dirlookup i (cut de.name) = some de.inum := by
  unfold Files.dirlookup
  cases hf : (fs.entries i).find? fun de' => decide (de'.inum ≠ 0 ∧ namecmp (cut de.name) de'.name = 0) with
  | none =>
    have hno := List.find?_eq_none.1 hf de hde
    simp [h0, Fs.namecmp_eq_zero, cut_cut] at hno
  | some de' =>
    obtain ⟨h0', hname⟩ : de'.inum ≠ 0 ∧ namecmp (cut de.name) de'.name = 0 := by simpa using find?_some hf
    rw [Fs.namecmp_eq_zero, cut_cut] at hname
    have heq : de = de' := inj_on_of_nodup_map h.2.1 (mem_filter.2 ⟨hde, decide_eq_true h0⟩)
      (mem_filter.2 ⟨mem_of_find?_eq_some hf, decide_eq_true h0'⟩) hname
    rw [heq]
    rfl

theorem Tree.namei_sub (h : Tree fs (n + 1) path i) (hp : path ≠ []) (hi : fs.namei path = some i)
    (hde : de ∈ fs.entries i) (h0 : de.inum ≠ 0) : fs.namei (sub path de) = some de.inum := by
  have hhead : (sub path de).head? = path.head? := head?_append_of_ne_nil _ hp
  rw [Files.namei, components_sub (h.2.2 de hde h0).1.name, hhead, foldlM_append, ← Files.namei, hi]
  simpa using h.dirlookup hde h0

end Paths

/-! ## Descriptors -/

section Descriptors
variable {fs : Files} {s : St} {path : List UInt8} {i k : Nat}

/-- The first `k` descriptors are open. -/
def Used (s : St) (k : Nat) : Prop := ∀ fd < NOFILE, s.ofile fd = none ↔ k ≤ fd

theorem Used.fdalloc (h : Used s k) (hk : k < NOFILE) : fdalloc s = some k := by
  unfold Find.fdalloc
  rw [find?_range_eq_some]
  refine ⟨by simp [(h k hk).2], mem_range.2 hk, fun fd hfd => ?_⟩
  have hne : s.ofile fd ≠ none := fun h0 => by
    have := (h fd (by omega)).1 h0
    omega
  simpa [Option.isSome_iff_ne_none] using hne

theorem Used.push (h : Used s k) (x : Nat × Nat) : Used { s with ofile := update s.ofile k (some x) } (k + 1) := by
  intro fd hfd
  by_cases e : fd = k
  · simp [e]
  · have := h fd hfd
    simp [e, this]
    omega

theorem Used.move (h : Used s (k + 1)) (x : Nat × Nat) : Used { s with ofile := update s.ofile k (some x) } (k + 1) := by
  intro fd hfd
  by_cases e : fd = k
  · simp [e]
  · simpa [e] using h fd hfd

theorem open_eq (hlen : path.length < MAXPATH) (hi : fs.namei path = some i) (ho : (fs.node i).opens = true)
    (hs : Used s k) (hk : k < NOFILE) :
    fs.open path s = some (k, { s with ofile := update s.ofile k (some (i, 0)) }) := by
  simp [Files.open, hlen, hi, ho, hs.fdalloc hk]

theorem of_open {r : Nat × St} (h : fs.open path s = some r) :
    ∃ i, path.length < MAXPATH ∧ fs.namei path = some i ∧ (fs.node i).opens = true := by
  simp only [Files.open, Option.ite_none_right_eq_some, Option.bind_eq_some_iff] at h
  obtain ⟨hlen, i, hi, ho, -⟩ := h
  exact ⟨i, hlen, hi, ho⟩

theorem Used.pop (h : Used s k) (hk : k < NOFILE) (x : Option (Nat × Nat)) :
    update (update s.ofile k x) k none = s.ofile := by
  rw [update_idem, ← (h k hk).2 (Nat.le_refl k), update_eq_self]

theorem stat_eq (hlen : path.length < MAXPATH) (hi : fs.namei path = some i) (ho : (fs.node i).opens = true)
    (hs : Used s k) (hk : k < NOFILE) : fs.stat path s = (some (i, fs.node i), s) := by
  simp [Files.stat, open_eq hlen hi ho hs hk, Files.fstat, close, hs.pop hk]

end Descriptors

/-! ## What is printed -/

/-- The lines of what is below `i` and called `target`. -/
def lines (fs : Files) (target : List UInt8) (n : Nat) (path : List UInt8) (i : Nat) : List UInt8 :=
  ((below fs n i).filter fun x => x.2.1 = target).flatMap (line fs path)

def part (fs : Files) (target : List UInt8) (n : Nat) (path : List UInt8) (de : Dirent) : List UInt8 :=
  if Proper de then
    (if cut de.name = target then line fs path ([], cut de.name, de.inum) else []) ++
      lines fs target n (sub path de) de.inum
  else []

section Lines
variable {fs : Files} {target path buf : List UInt8} {n i : Nat}

theorem lines_succ : lines fs target (n + 1) path i = (fs.entries i).flatMap (part fs target n path) := by
  unfold lines below
  induction fs.entries i with
  | nil => rfl
  | cons de es ih =>
    rw [flatMap_cons, ← ih, part]
    by_cases hp : Proper de
    · have hrest : (((below fs n de.inum).map (Prod.map (cut de.name :: ·) id)).filter fun x => decide (x.2.1 = target)).flatMap
          (line fs path) = lines fs target n (sub path de) de.inum := by
        rw [filter_map, flatMap_map]
        rfl
      rw [if_pos hp, filter_cons_of_pos (by simpa using hp), flatMap_cons, filter_append, flatMap_append,
        filter_cons]
      congr 1
      by_cases ht : cut de.name = target
      · rw [if_pos (by simpa using ht), if_pos ht, flatMap_cons, hrest]
      · rw [if_neg (by simpa using ht), if_neg ht, hrest, nil_append]
    · simp [hp]

theorem lines_file (h : (fs.node i).isDir ≠ true) : lines fs target n path i = [] := by
  cases n <;> simp [lines, below, entries_nil h]

theorem vprintf_str {fmt : String} (pre : String) (hf : chars fmt = chars pre ++ chars "%s\n")
    (hp : ((chars pre).all fun c => c ≠ 0 ∧ c ≠ '%'.toUInt8) = true) :
    vprintf (chars fmt ++ [0]) false [.str (some buf)] = some (chars pre ++ buf ++ chars "\n") := by
  have hfmt : chars fmt ++ [0] = chars pre ++ ['%'.toUInt8, 's'.toUInt8, 10, 0] := by
    rw [hf, append_assoc]
    exact congrArg (chars pre ++ ·) (by decide)
  have hargs : (chars pre).flatMap (fun _ => ([] : List Arg)) = [] := flatMap_eq_nil_iff.2 fun _ _ => rfl
  have hv := Printf.vprintf_items ((chars pre).map .lit ++ [.str (some buf), .lit 10]) (fun i hi => ?_) [] []
  · simp [Printf.Item.fmt, Printf.Item.args, Printf.Item.text, flatMap_map, hargs] at hv
    rw [hfmt, hv, append_assoc]
    rfl
  · simp only [mem_append, mem_map, mem_cons, not_mem_nil, or_false] at hi
    rcases hi with ⟨c, hc, rfl⟩ | rfl | rfl
    · have hc' : c ≠ 0 ∧ c ≠ '%'.toUInt8 := by simpa using all_eq_true.1 hp c hc
      exact ⟨hc', trivial⟩
    · exact ⟨trivial, trivial⟩
    · exact ⟨⟨by decide, by decide⟩, trivial⟩

theorem report_eq (name : List UInt8) (i : Nat) (s : St) :
    report (fs.node i) (path ++ slash :: name) s = some { s with out := s.out ++ line fs path ([], name, i) } := by
  unfold report line
  dsimp only [nil_append, foldl_cons, foldl_nil]
  cases fs.node i with
  | dir es =>
    dsimp only
    rw [printf, vprintf_str "dir :" (by decide) (by decide), Option.map_some]
  | file size =>
    dsimp only
    rw [printf, vprintf_str "file:" (by decide) (by decide), Option.map_some]
  | device major =>
    dsimp only
    rw [append_nil]

end Lines

/-! ## The search -/

section Search
variable {fs : Files} {target path : List UInt8} {n i k : Nat} {s : St}

theorem visit_eq (ht : target ≠ dot ∧ target ≠ dotdot) (h : Tree fs (n + 1) path i) (hp : path ≠ [])
    (hi : fs.namei path = some i) {de : Dirent} (hde : de ∈ fs.entries i) {f : List UInt8 → St → Option St}
    (hf : Proper de → (fs.node de.inum).isDir = true → ∀ s, Used s k →
      f (sub path de) s = some { s with out := s.out ++ lines fs target n (sub path de) de.inum })
    (hs : Used s k) (hk : k < NOFILE) :
    visit fs target f path de s = some { s with out := s.out ++ part fs target n path de } := by
  by_cases h0 : de.inum = 0
  · have hno : ¬ Proper de := fun hp => hp.1 h0
    simp [visit, h0, part, hno]
  · obtain ⟨hname, hfits, hopens⟩ := (h.2.2 de hde h0).1
    rw [visit, if_neg h0, stat_eq hfits (h.namei_sub hp hi hde h0) hopens hs hk, fmtname_sub hname.2]
    dsimp only
    by_cases hdot : cut de.name = dot ∨ cut de.name = dotdot
    · have hno : ¬ Proper de := fun hp => hdot.elim hp.2.1 hp.2.2
      have hne : cut de.name ≠ target := fun he => hdot.elim (fun h => ht.1 (he ▸ h)) fun h => ht.2 (he ▸ h)
      have hstop : ¬ (cut de.name ≠ dotdot ∧ cut de.name ≠ dot ∧ (fs.node de.inum).isDir = true) := fun hc =>
        hdot.elim hc.2.1 hc.1
      simp [part, hno, hne, hstop]
    · rw [not_or] at hdot
      have hproper : Proper de := ⟨h0, hdot⟩
      have hprint : (if cut de.name = target then report (fs.node de.inum) (sub path de) s else some s) = some { s with
          out := s.out ++ if cut de.name = target then line fs path ([], cut de.name, de.inum) else [] } := by
        split
        · exact report_eq ..
        · rw [append_nil]
      rw [part, if_pos hproper, hprint, Option.bind_some]
      by_cases hd : (fs.node de.inum).isDir = true
      · rw [if_pos ⟨hdot.2, hdot.1, hd⟩, ← append_assoc]
        exact hf hproper hd _ hs
      · rw [if_neg fun hc => hd hc.2.2, lines_file hd, append_nil]

theorem scan_eq {body : Dirent → St → Option St} {text : Dirent → List UInt8} {rest : List Dirent}
    (hbody : ∀ de ∈ rest, ∀ s, Used s (k + 1) → body de s = some { s with out := s.out ++ text de }) :
    ∀ (pre : List Dirent) (s : St), fs.entries i = pre ++ rest → s.ofile k = some (i, pre.length) → Used s (k + 1) →
      scan fs body k (rest.length + 1) s = some { s with
        ofile := update s.ofile k (some (i, pre.length + rest.length))
        out := s.out ++ rest.flatMap text } := by
  induction rest with
  | nil =>
    intro pre s hes hk _
    have hread : fs.read k s = none := by simp [Files.read, hk, hes]
    have hsame : update s.ofile k (some (i, pre.length)) = s.ofile := by rw [← hk, update_eq_self]
    simp [scan, hread, hsame]
  | cons de rest ih =>
    intro pre s hes hk hu
    have hread : fs.read k s = some (de, { s with ofile := update s.ofile k (some (i, pre.length + 1)) }) := by
      simp [Files.read, hk, hes]
    have hnext := ih (fun de' hde' => hbody de' (mem_cons_of_mem _ hde')) (pre ++ [de])
      { s with ofile := update s.ofile k (some (i, pre.length + 1)), out := s.out ++ text de }
      (by simp [hes]) (by simp) (hu.move _)
    rw [length_cons, scan, hread]
    dsimp only
    rw [hbody de mem_cons_self _ (hu.move _), Option.bind_some, hnext]
    simp [Nat.add_comm, Nat.add_left_comm]

theorem find_eq (ht : target ≠ dot ∧ target ≠ dotdot) (h : Tree fs n path i) (hp : path ≠ []) (hlen : path.length < MAXPATH)
    (hi : fs.namei path = some i) (hs : Used s k) (hk : k + n < NOFILE) {m : Nat} (hm : n ≤ m) :
    find fs target m path s = some { s with out := s.out ++ lines fs target n path i } := by
  induction n generalizing path i s k m with
  | zero => exact h.elim
  | succ n ih =>
    obtain ⟨m, rfl⟩ := Nat.exists_eq_add_of_le' (Nat.le_trans (Nat.le_add_left 1 n) hm)
    obtain ⟨es, hes⟩ : ∃ es, fs.node i = .dir es := by
      cases hn : fs.node i with
      | dir es => exact ⟨es, rfl⟩
      | file _ | device _ => simpa [hn, Node.isDir] using h.1
    have hent : fs.entries i = es := by rw [Files.entries, hes]
    have hk' : k + 1 < NOFILE := by omega
    have hround : ∀ de ∈ es, ∀ s, Used s (k + 1) → visit fs target (find fs target m) path de s =
        some { s with out := s.out ++ part fs target n path de } := by
      intro de hde s hs
      rw [← hent] at hde
      refine visit_eq ht h hp hi hde (fun hd hdir s hs => ?_) hs hk'
      obtain ⟨hentry, hsub⟩ := h.2.2 de hde hd.1
      exact ih (hsub hd hdir) (by simp [sub]) hentry.fits (h.namei_sub hp hi hde hd.1) hs (by omega) (by omega)
    have hscan := scan_eq hround [] { s with ofile := update s.ofile k (some (i, 0)) } hent
      (update_self ..) (hs.push _)
    rw [find, open_eq hlen hi (by rw [hes]; rfl) hs (by omega)]
    have hbuf : ¬ path.length + 1 + DIRSIZ + 1 > 512 := by
      simp only [MAXPATH, DIRSIZ] at *
      omega
    simp only [Files.fstat, update_self, Option.map_some, hes, if_neg hbuf, hscan, close, update_idem]
    rw [lines_succ, hent, ← (hs k (by omega)).2 (Nat.le_refl k), update_eq_self]

theorem Below.name_ne {dirs : List (List UInt8)} {name : List UInt8} {j : Nat} (hb : Below fs i dirs name j)
    (h : Tree fs n path i) : name ≠ [] := by
  induction hb generalizing n path with
  | @here i de hde hp =>
    cases n with
    | zero => exact h.elim
    | succ n => exact (h.2.2 de hde hp.1).1.name.1
  | @deeper i de dirs name j hde hp hb ih =>
    cases n with
    | zero => exact h.elim
    | succ n => exact ih ((h.2.2 de hde hp.1).2 hp hb.isDir)

theorem find_empty (h : Tree fs n path i) (hn : n ≤ 10) (hp : path ≠ []) (hlen : path.length < MAXPATH)
    (hi : fs.namei path = some i) (hs : Used s 3) {m : Nat} (hm : n ≤ m) : find fs [] m path s = some s := by
  have hnone : (below fs n i).filter (fun x => x.2.1 = []) = [] := by
    refine filter_eq_nil_iff.2 fun x hx => ?_
    simpa using ((mem_below h).1 hx).name_ne h
  rw [find_eq (by decide) h hp hlen hi hs (Nat.lt_of_le_of_lt (Nat.add_le_add_left hn 3) (by decide)) hm, lines, hnone]
  simp

theorem find_nothing (hp : path ≠ []) (hs : Used s 3) (hfile : ∀ j size, fs.namei path = some j → fs.node j ≠ .file size)
    (hdir : ∀ j, fs.namei path = some j → (fs.node j).isDir = true → ∃ n ≤ 10, Tree fs n path j) {m : Nat} (hm : 10 ≤ m) :
    ∃ s', find fs [] m path s = some s' ∧ s'.out = s.out := by
  cases ho : fs.open path s with
  | none =>
    obtain ⟨m, rfl⟩ := Nat.exists_eq_add_of_le' (Nat.le_trans (by decide : 1 ≤ 10) hm)
    rw [find, ho]
    dsimp only
    rw [eprintf, vprintf_str "ls: cannot open " (by decide) (by decide), Option.map_some]
    exact ⟨_, rfl, rfl⟩
  | some r =>
    obtain ⟨j, hlen, hj, hopens⟩ := of_open ho
    cases hnode : fs.node j with
    | file size => exact absurd hnode (hfile j size hj)
    | dir es =>
      obtain ⟨n, hn, ht⟩ := hdir j hj (by rw [hnode]; rfl)
      exact ⟨s, find_empty ht hn hp hlen hj hs (Nat.le_trans hn hm), rfl⟩
    | device major =>
      obtain ⟨m, rfl⟩ := Nat.exists_eq_add_of_le' (Nat.le_trans (by decide : 1 ≤ 10) hm)
      rw [find, open_eq hlen hj hopens hs (by decide)]
      simp [Files.fstat, hnode, close]

/-- **The command searches for the name** only if there is nothing to be found, and if the name itself is no file. -/
theorem main_finds {dir name : List UInt8} (h : Tree fs n dir i) (hn : n ≤ 10) (hp : dir ≠ []) (hlen : dir.length < MAXPATH)
    (hi : fs.namei dir = some i) (hs : Used s 3) (hnone : ∀ dirs j, ¬ Below fs i dirs name j) (hne : name ≠ [])
    (hfile : ∀ j size, fs.namei name = some j → fs.node j ≠ .file size)
    (hdir : ∀ j, fs.namei name = some j → (fs.node j).isDir = true → ∃ n ≤ 10, Tree fs n name j) :
    ∃ l : List (List (List UInt8) × List UInt8 × Nat),
      (∀ dirs x j, (dirs, x, j) ∈ l ↔ Below fs i dirs x j ∧ x = name) ∧
      ∀ prog m, 10 ≤ m → ∃ s', main fs m [prog, dir, name] s = some s' ∧ s'.out = s.out ++ l.flatMap (line fs dir) := by
  refine ⟨[], fun dirs x j => ?_, fun prog m hm => ?_⟩
  · refine iff_of_false not_mem_nil ?_
    rintro ⟨hb, rfl⟩
    exact hnone dirs j hb
  · obtain ⟨s', hs', hout⟩ := find_nothing hne hs hfile hdir hm
    refine ⟨s', ?_, by simpa using hout⟩
    simp [main, find_empty h hn hp hlen hi hs (Nat.le_trans hn hm), hs']

end Search

/-! ## A chain of directories -/

/-- `k` directories, each but the last with the next one under the name `d`, and the file `f` in the last. -/
def chain (k : Nat) : Files where
  node i :=
    if 1 ≤ i ∧ i ≤ k then .dir [⟨i, dot⟩, ⟨max 1 (i - 1), dotdot⟩, ⟨i + 1, chars (if i < k then "d" else "f")⟩]
    else .file 0
  cwd := 1

/-- Descriptors 0, 1 and 2 are open. -/
def start : St := ⟨fun fd => if fd < 3 then some (0, 0) else none, [], []⟩

theorem used_start : Used start 3 := fun fd _ => by simp [start]

/-- There is no `x` in `d`. -/
theorem main_finds_chain : ∃ l : List (List (List UInt8) × List UInt8 × Nat),
    (∀ dirs x j, (dirs, x, j) ∈ l ↔ Below (chain 2) 2 dirs x j ∧ x = chars "x") ∧
    ∀ prog m, 10 ≤ m → ∃ s', main (chain 2) m [prog, chars "d", chars "x"] start = some s' ∧
      s'.out = start.out ++ l.flatMap (line (chain 2) (chars "d")) := by
  have ht : Tree (chain 2) 1 (chars "d") 2 := by decide +kernel
  have hnames : ∀ x ∈ below (chain 2) 1 2, x.2.1 ≠ chars "x" := by decide +kernel
  have hx : (chain 2).namei (chars "x") = none := by decide +kernel
  apply main_finds ht (by decide) (by decide) (by decide) (by decide +kernel) used_start
  · exact fun dirs j hb => hnames _ ((mem_below ht).2 hb) rfl
  · decide
  · intro j size hj
    simp [hx] at hj
  · intro j hj
    simp [hx] at hj

/-- `find d f` prints nothing. -/
theorem main_misses : Tree (chain 2) 1 (chars "d") 2 ∧ (chain 2).namei (chars "d") = some 2 ∧ Used start 3 ∧
    Below (chain 2) 2 [] (chars "f") 3 ∧
    ∃ s', main (chain 2) 10 [chars "find", chars "d", chars "f"] start = some s' ∧ s'.out = [] := by
  have ht : Tree (chain 2) 1 (chars "d") 2 := by decide +kernel
  refine ⟨ht, by decide +kernel, used_start, (mem_below ht).1 (by decide +kernel), ?_⟩
  exact Option.map_eq_some_iff.1
    (by decide +kernel : (main (chain 2) 10 [chars "find", chars "d", chars "f"] start).map St.out = some [])

end Xv6.Find
