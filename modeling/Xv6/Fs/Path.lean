import Xv6.Fs.Dir
/-!
# Paths

The components of a path are its maximal runs of characters other than '/', cut
to `DIRSIZ`, and `skipelem` gives them one after another. `Path.skipelem` is the
same function on C strings, with the array of characters that the element is
copied to.
-/

open List

namespace Xv6.Fs

/-- The maximal runs of characters other than '/', cut to `DIRSIZ`. -/
def components (path : List UInt8) : List (List UInt8) :=
  ((path.splitOnP (· = slash)).filter (· ≠ [])).map (List.take DIRSIZ)

section Components
variable {path w : List UInt8}

theorem components_slash (path : List UInt8) : components (slash :: path) = components path := by
  rw [components, splitOnP_cons_eq_if_modifyHead, if_pos (by decide), filter_cons_of_neg (by decide), components]

theorem components_slashes (path : List UInt8) : components (path.dropWhile (· = slash)) = components path := by
  induction path with
  | nil => rfl
  | cons c path ih =>
    by_cases hc : c = slash
    · rw [dropWhile_cons_of_pos (by simpa using hc), ih, hc, components_slash]
    · rw [dropWhile_cons_of_neg (by simpa using hc)]

theorem components_last (hw : w ≠ []) (h : ∀ c ∈ w, c ≠ slash) : components w = [w.take DIRSIZ] := by
  rw [components, splitOnP_eq_singleton (by simpa using h), filter_cons_of_pos (by simpa using hw)]
  rfl

theorem components_first (hw : w ≠ []) (h : ∀ c ∈ w, c ≠ slash) (path : List UInt8) :
    components (w ++ slash :: path) = w.take DIRSIZ :: components path := by
  rw [components, splitOnP_append_cons_of_forall_mem (by simpa using h) _ (by decide),
    filter_cons_of_pos (by simpa using hw)]
  rfl

theorem components_run (h : w ≠ []) (hw : w.head? ≠ some slash) :
    components w = (w.takeWhile (· ≠ slash)).take DIRSIZ :: components (w.dropWhile (· ≠ slash)) := by
  have hrun : w.takeWhile (· ≠ slash) ≠ [] := by
    cases w with
    | nil => exact absurd rfl h
    | cons c w =>
      rw [takeWhile_cons_of_pos (by simpa using hw)]
      exact cons_ne_nil _ _
  have hall : ∀ c ∈ w.takeWhile (· ≠ slash), c ≠ slash := fun c hc => by simpa using mem_takeWhile_imp hc
  have hsplit := takeWhile_append_dropWhile (p := (· ≠ slash)) (l := w)
  cases hd : w.dropWhile (· ≠ slash) with
  | nil =>
    rw [hd, append_nil] at hsplit
    rw [hsplit] at hrun hall ⊢
    exact components_last hrun hall
  | cons c rest =>
    have hc : c = slash := by
      have := head?_dropWhile_not (· ≠ slash) w
      rw [hd] at this
      simpa using this
    rw [hd, hc] at hsplit
    rw [hc, components_slash]
    conv_lhs => rw [← hsplit]
    exact components_first hrun hall rest

theorem shorter_dropWhile (h : w ≠ []) (hw : w.head? ≠ some slash) : (w.dropWhile (· ≠ slash)).length < w.length := by
  cases w with
  | nil => exact absurd rfl h
  | cons c w =>
    rw [dropWhile_cons_of_pos (by simpa using hw), length_cons]
    exact Nat.lt_succ_of_le (dropWhile_sublist _).length_le

theorem skipelem_some {name rest : List UInt8} (h : skipelem path = some (name, rest)) :
    components path = name :: components rest ∧ rest.length < path.length := by
  unfold skipelem at h
  dsimp only at h
  split at h
  · cases h
  · next hs =>
    obtain ⟨rfl, rfl⟩ := Prod.mk.inj (Option.some.inj h)
    have hhead : (path.dropWhile (· = slash)).head? ≠ some slash := by
      intro he
      have hd := head_dropWhile_not (· = slash) hs
      rw [head?_eq_some_head hs, Option.some.injEq] at he
      rw [he] at hd
      exact absurd hd (by decide)
    refine ⟨?_, ?_⟩
    · rw [components_slashes, ← components_slashes path]
      exact components_run hs hhead
    · have h1 := (dropWhile_sublist (l := path) (· = slash)).length_le
      have h2 := (dropWhile_sublist (l := (path.dropWhile (· = slash)).dropWhile (· ≠ slash)) (· = slash)).length_le
      have h3 := shorter_dropWhile hs hhead
      omega

theorem skipelem_none (h : skipelem path = none) : components path = [] := by
  unfold skipelem at h
  dsimp only at h
  split at h
  · next hs =>
    rw [← components_slashes, hs]
    rfl
  · cases h

theorem elems_eq {n : Nat} (h : path.length < n) : elems n path = components path := by
  induction n generalizing path with
  | zero => exact absurd h (Nat.not_lt_zero _)
  | succ n ih =>
    unfold elems
    cases hs : skipelem path with
    | none => exact (skipelem_none hs).symm
    | some r =>
      obtain ⟨name, rest⟩ := r
      obtain ⟨hc, hlt⟩ := skipelem_some hs
      dsimp only
      rw [hc, ih (by omega)]

end Components

/-! ## C strings -/

namespace Path

/-- The rest of the path, and the array after the element is copied to it. -/
def skipelem (path name : List UInt8) : Option (List UInt8 × List UInt8) :=
  let s := path.dropWhile (· = slash)
  if s.headD 0 = 0 then none
  else
    let elem := s.takeWhile fun c => c ≠ slash ∧ c ≠ 0
    let path := s.dropWhile fun c => c ≠ slash ∧ c ≠ 0
    let name := if elem.length ≥ DIRSIZ then elem.take DIRSIZ else elem ++ 0 :: name.drop (elem.length + 1)
    some (path.dropWhile (· = slash), name)

/-- The arrays after each of `n` calls of `skipelem`, and whether the last one has returned 0. -/
def elems : Nat → List UInt8 → List UInt8 → List (List UInt8) × Bool
  | 0, _, _ => ([], false)
  | n + 1, path, name =>
    match skipelem path name with
    | none => ([], true)
    | some (path, name) => (name :: (elems n path name).1, (elems n path name).2)

section
variable {path name junk : List UInt8}

theorem while_nul {p q : UInt8 → Bool} (hp : p 0 = false) (hq : ∀ c, c ≠ 0 → p c = q c) (h0 : 0 ∉ path) :
    (path ++ 0 :: junk).takeWhile p = path.takeWhile q ∧ (path ++ 0 :: junk).dropWhile p = path.dropWhile q ++ 0 :: junk := by
  induction path with
  | nil =>
    have hn : ¬ p 0 = true := by rw [hp]; exact Bool.false_ne_true
    rw [nil_append, takeWhile_cons_of_neg hn, dropWhile_cons_of_neg hn]
    exact ⟨rfl, rfl⟩
  | cons c path ih =>
    obtain ⟨hc, h0⟩ := not_or.1 (mem_cons.not.1 h0)
    rw [cons_append, takeWhile_cons, dropWhile_cons, takeWhile_cons, dropWhile_cons,
      hq c (Ne.symm hc), (ih h0).1, (ih h0).2]
    split
    · exact ⟨rfl, rfl⟩
    · exact ⟨rfl, rfl⟩

theorem cut_elem {elem : List UInt8} (h0 : 0 ∉ elem) :
    cut (if elem.length ≥ DIRSIZ then elem.take DIRSIZ else elem ++ 0 :: name.drop (elem.length + 1)) =
      elem.take DIRSIZ := by
  have hall : ∀ c ∈ elem, (c ≠ 0) := fun c hc he => h0 (he ▸ hc)
  unfold cut text
  split
  · rw [take_take, Nat.min_self, takeWhile_eq_self_iff]
    intro c hc
    simpa using hall c (mem_of_mem_take hc)
  · next hlt =>
    have hlt : elem.length < DIRSIZ := Nat.lt_of_not_le hlt
    rw [take_append, take_of_length_le (Nat.le_of_lt hlt)]
    obtain ⟨n, hn⟩ := Nat.exists_eq_succ_of_ne_zero (show DIRSIZ - elem.length ≠ 0 by omega)
    rw [hn, take_succ_cons, takeWhile_append_of_pos (by simpa using hall),
      takeWhile_cons_of_neg (by simp), append_nil]

theorem skipelem_none (h0 : 0 ∉ path) (h : Fs.skipelem path = none) : skipelem (path ++ 0 :: junk) name = none := by
  unfold Fs.skipelem at h
  unfold skipelem
  dsimp only at h ⊢
  rw [(while_nul (by decide) (fun _ _ => rfl) h0).2]
  split at h
  · next hs => rw [hs, nil_append, headD_cons, if_pos rfl]
  · cases h

theorem skipelem_some {elem rest : List UInt8} (h0 : 0 ∉ path) (h : Fs.skipelem path = some (elem, rest)) :
    ∃ name', skipelem (path ++ 0 :: junk) name = some (rest ++ 0 :: junk, name') ∧ cut name' = elem ∧ 0 ∉ rest := by
  unfold Fs.skipelem at h
  unfold skipelem
  dsimp only at h ⊢
  rw [(while_nul (by decide) (fun _ _ => rfl) h0).2]
  generalize hs : path.dropWhile (fun c => decide (c = slash)) = s at h ⊢
  have h0 : 0 ∉ s := fun h => h0 ((dropWhile_sublist _).subset (hs ▸ h))
  split at h
  · cases h
  · next hne =>
    obtain ⟨rfl, rfl⟩ := Prod.mk.inj (Option.some.inj h)
    obtain ⟨c, s, rfl⟩ := exists_cons_of_ne_nil hne
    have hc : c ≠ 0 := fun he => h0 (he ▸ mem_cons_self ..)
    have hagree : ∀ c : UInt8, c ≠ 0 → decide (c ≠ slash ∧ c ≠ 0) = decide (c ≠ slash) := fun c hc => by
      simp [hc]
    obtain ⟨htake, hdrop⟩ := @while_nul (c :: s) junk _ _ (by decide) hagree h0
    have h1 : 0 ∉ (c :: s).takeWhile (· ≠ slash) := fun h => h0 ((takeWhile_sublist _).subset h)
    have h2 : 0 ∉ (c :: s).dropWhile (· ≠ slash) := fun h => h0 ((dropWhile_sublist _).subset h)
    rw [cons_append, headD_cons, if_neg hc, ← cons_append, htake, hdrop,
      (while_nul (by decide) (fun _ _ => rfl) h2).2]
    exact ⟨_, rfl, cut_elem h1, fun h => h2 ((dropWhile_sublist _).subset h)⟩

/-- The calls end after as many as there are components, and each leaves the next one in the array. -/
theorem elems_eq {n : Nat} (h0 : 0 ∉ path) (h : path.length < n) :
    (elems n (path ++ 0 :: junk) name).1.map cut = components path ∧ (elems n (path ++ 0 :: junk) name).2 = true := by
  induction n generalizing path name with
  | zero => exact absurd h (Nat.not_lt_zero _)
  | succ n ih =>
    unfold elems
    cases hs : Fs.skipelem path with
    | none =>
      rw [skipelem_none h0 hs, Fs.skipelem_none hs]
      exact ⟨rfl, rfl⟩
    | some r =>
      obtain ⟨elem, rest⟩ := r
      obtain ⟨hc, hlt⟩ := Fs.skipelem_some hs
      obtain ⟨name', he, hcut, h0'⟩ := @skipelem_some path name junk elem rest h0 hs
      obtain ⟨h1, h2⟩ := @ih rest name' h0' (by omega)
      rw [he]
      dsimp only
      rw [map_cons, h1, hcut, hc]
      exact ⟨rfl, h2⟩

end

end Path

end Xv6.Fs
