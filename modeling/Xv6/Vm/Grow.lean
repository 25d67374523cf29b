import Xv6.Vm.Refines
import Xv6.Vm.User
/-!
# sbrk

`growproc` of `kernel/proc.c`. The size is cut to a `uint` and the
signed argument is added to it there, so a shrink below 0 comes out as a huge new
size; `uvmdealloc` then does nothing, and `growproc` reports success.
-/

namespace Xv6.Vm

open Bytes Hoare

/-- The fields of `struct proc` that `growproc` uses. -/
structure Proc where
  /-- A `uint64` -/
  sz : Nat
  pagetable : Nat

def uint (i : Int) : Nat := (i % 2 ^ 32).toNat

/-- The result, and the process afterwards. -/
def growproc (p : Proc) (n : Int) : M (Int × Proc) := do
  let sz := uint p.sz
  if n > 0 then
    let sz ← uvmalloc p.pagetable sz (uint (sz + n))
    if uint sz = 0 then return (-1, p)
    return (0, { p with sz := uint sz })
  else if n < 0 then
    let sz ← uvmdealloc p.pagetable sz (uint (sz + n))
    return (0, { p with sz := uint sz })
  else
    return (0, { p with sz := sz })

def IsInt (n : Int) : Prop := -2 ^ 31 ≤ n ∧ n < 2 ^ 31

instance (n : Int) : Decidable (IsInt n) := inferInstanceAs (Decidable (_ ∧ _))

/-- The break of `p` has moved by `n`: what both sizes have is as it was, what only the new one has is zero. -/
structure Moved (s s' : Mem) (p p' : Proc) (n : Int) (top : Nat → Nat) (R : List Nat) : Prop where
  sz : (p'.sz : Int) = p.sz + n
  pagetable : p'.pagetable = p.pagetable
  frame : Frame s s' R
  space : Space s' p.pagetable (up p'.sz) top R
  same : Same s s' p.pagetable (up (min p.sz p'.sz))
  fresh : ∀ v, up p.sz ≤ v → v < up p'.sz → Fresh s' p.pagetable v

/-- The process has the size and the memory it had. -/
structure Unmoved (s s' : Mem) (p p' : Proc) (top : Nat → Nat) (R : List Nat) : Prop where
  proc : p' = p
  frame : Frame s s' R
  space : Space s' p.pagetable (up p.sz) top R
  same : Same s s' p.pagetable (up p.sz)

theorem uint_of_lt {i : Int} {n : Nat} (h : i = n) (hn : n < 2 ^ 32) : uint i = n := by
  simp only [uint]
  omega

section
variable {s : Mem} {p : Proc} {n : Int} {top : Nat → Nat} {R : List Nat}

theorem sz_small (hsz : p.sz < PHYSTOP - KERNBASE) : p.sz < 2 ^ 27 := hsz

theorem growproc_pos (h : Space s p.pagetable (up p.sz) top R) (hlow : Low top) (hsz : p.sz < PHYSTOP - KERNBASE)
    (hn : IsInt n) (hpos : 0 < n) :
    wp (growproc p n) (fun res s' => res.1 = 0 ∧ Moved s s' p res.2 n top R ∨
      res.1 = -1 ∧ Unmoved s s' p res.2 top R) (fun _ _ => False) s := by
  have hsz := sz_small hsz
  obtain ⟨m, rfl⟩ := Int.eq_ofNat_of_zero_le (Int.le_of_lt hpos)
  obtain ⟨-, hm⟩ := hn
  have hm : m < 2 ^ 31 := by omega
  have hm0 : 0 < m := by omega
  have hsum : uint ((p.sz : Int) + (m : Int)) = p.sz + m := uint_of_lt (by omega) (by omega)
  have hmax : max p.sz (p.sz + m) = p.sz + m := Nat.max_eq_right (Nat.le_add_right _ _)
  unfold growproc
  dsimp only
  rw [if_pos hpos, uint_of_lt rfl (by omega), hsum]
  refine (uvmalloc_spec h hlow (by omega)).seq ?_
  rintro res s' ⟨hf, hsame, ⟨rfl, hs, hz⟩ | ⟨rfl, hs⟩⟩
  · rw [hmax] at hs hz ⊢
    rw [uint_of_lt rfl (by omega), if_neg (by omega)]
    refine (wp_pure _).2 (.inl ⟨rfl, ⟨?_, rfl, hf, hs, ?_, hz⟩⟩)
    · exact Int.natCast_add p.sz m
    · exact hsame.mono (up_mono (Nat.min_le_left _ _))
  · rw [if_pos (by decide)]
    exact (wp_pure _).2 (.inr ⟨rfl, rfl, hf, hs, hsame⟩)

theorem growproc_neg (h : Space s p.pagetable (up p.sz) top R) (hlow : Low top) (hsz : p.sz < PHYSTOP - KERNBASE)
    (hneg : n < 0) (hroom : 0 ≤ p.sz + n) :
    wp (growproc p n) (fun res s' => res.1 = 0 ∧ Moved s s' p res.2 n top R) (fun _ _ => False) s := by
  have hsz := sz_small hsz
  obtain ⟨m, hm⟩ := Int.eq_ofNat_of_zero_le hroom
  have hlt : m < p.sz := by omega
  have hsum : uint ((p.sz : Int) + n) = m := uint_of_lt hm (by omega)
  have hmin : min p.sz m = m := Nat.min_eq_right (Nat.le_of_lt hlt)
  unfold growproc
  dsimp only
  rw [if_neg (by omega), if_pos hneg, uint_of_lt rfl (by omega), hsum]
  refine (uvmdealloc_spec h hlow (by omega)).seq ?_
  rintro res s' ⟨rfl, hf, hs, hsame⟩
  rw [hmin] at hs hsame ⊢
  rw [uint_of_lt rfl (by omega)]
  refine (wp_pure _).2 ⟨rfl, ⟨hm.symm, rfl, hf, hs, ?_, fun v h1 h2 => ?_⟩⟩
  · rw [hmin]
    exact hsame
  · exact absurd (Nat.lt_of_lt_of_le h2 (up_mono (Nat.le_of_lt hlt))) (Nat.not_lt_of_le h1)

/-- A shrink below 0 does nothing, and is reported as done. -/
theorem growproc_below (hsz : p.sz < PHYSTOP - KERNBASE) (hn : IsInt n) (hbelow : p.sz + n < 0) :
    exec (growproc p n) s = (.ok (0, p), s) := by
  have hsz := sz_small hsz
  obtain ⟨hn, -⟩ := hn
  have hsum : uint ((p.sz : Int) + n) ≥ p.sz := by
    simp only [uint]
    omega
  unfold growproc uvmdealloc
  dsimp only
  rw [if_neg (by omega), if_pos (by omega), uint_of_lt rfl (by omega), if_pos hsum]
  show (Except.ok ((0 : Int), ({ p with sz := uint p.sz } : Proc)), s) = _
  rw [uint_of_lt rfl (by omega)]

/-- `growproc` moves the break by `n`, or leaves the process as it is and says so, unless the new size would be below
0. -/
theorem growproc_moves (h : Space s p.pagetable (up p.sz) top R) (hlow : Low top) (hsz : p.sz < PHYSTOP - KERNBASE)
    (hn : IsInt n) (hroom : 0 ≤ p.sz + n) :
    wp (growproc p n) (fun res s' => res.1 = 0 ∧ Moved s s' p res.2 n top R ∨
      res.1 = -1 ∧ Unmoved s s' p res.2 top R) (fun _ _ => False) s := by
  rcases Int.lt_trichotomy n 0 with hneg | rfl | hpos
  · exact (growproc_neg h hlow hsz hneg hroom).imp fun _ _ hr => .inl hr
  · have hsz := sz_small hsz
    have hp : uint (p.sz : Int) = p.sz := uint_of_lt rfl (by omega)
    unfold growproc
    dsimp only
    rw [if_neg (by decide), if_neg (by decide), hp, wp_pure]
    refine .inl ⟨rfl, ⟨(Int.add_zero _).symm, rfl, .refl _ _, h, ?_, fun v h1 h2 => absurd h2 (Nat.not_lt_of_le h1)⟩⟩
    exact .refl _ _ _
  · exact growproc_pos h hlow hsz hn hpos

end

theorem space_smallMem : Space (smallMem smallImage.kend) smallImage.kend 0 (fun _ => 0) [] := by
  have hheap := (wellFormed_smallMem rfl).heap
  rw [tables_smallMem] at hheap
  exact space_empty hheap fun i hi => entries_smallMem _ hi

/-- There is no memory for the first page and the tables that map it. -/
theorem growproc_moves_small : wp (growproc ⟨0, smallImage.kend⟩ 1)
    (fun res s' =>
      res.1 = 0 ∧ Moved (smallMem smallImage.kend) s' ⟨0, smallImage.kend⟩ res.2 1 (fun _ => 0) [] ∨
        res.1 = -1 ∧ Unmoved (smallMem smallImage.kend) s' ⟨0, smallImage.kend⟩ res.2 (fun _ => 0) [])
    (fun _ _ => False) (smallMem smallImage.kend) :=
  growproc_moves space_smallMem (fun _ _ => rfl) (by decide) (by decide) (by decide)

/-- `sbrk(-1)` of a process of size 0 succeeds. -/
theorem growproc_stays : Space (smallMem smallImage.kend) smallImage.kend (up 0) (fun _ => 0) [] ∧
    IsInt (-1) ∧ exec (growproc ⟨0, smallImage.kend⟩ (-1)) (smallMem smallImage.kend) =
      (.ok (0, ⟨0, smallImage.kend⟩), smallMem smallImage.kend) :=
  ⟨space_smallMem, by decide, growproc_below (by decide) (by decide) (by decide)⟩

end Xv6.Vm
