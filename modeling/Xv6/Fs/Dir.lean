import Xv6.Lib.SlotMap
import Xv6.Fs.Contents
/-!
# Directories

The contents of a directory are entries of `DESIZE` bytes, each a slot of a map
from names to inode numbers. A name is what comes before a NUL or the `DIRSIZ`th
character: `strncmp` compares names, and `strncpy` stores one.
-/

namespace Xv6.Fs

open Bytes Hoare SlotMap List

/-! ## Names -/

/-- The characters before a NUL, `n` at most. -/
def text (n : Nat) (l : List UInt8) : List UInt8 := (l.take n).takeWhile (· ≠ 0)

/-- The name that an array of characters stands for. -/
def cut (name : List UInt8) : List UInt8 := text DIRSIZ name

theorem text_succ (n : Nat) (l : List UInt8) :
    text (n + 1) l = if l.headD 0 = 0 then [] else l.headD 0 :: text n l.tail := by
  cases l with
  | nil => rfl
  | cons c l =>
    rw [text, take_succ_cons, headD_cons, tail_cons]
    by_cases hc : c = 0
    · rw [if_pos hc, takeWhile_cons_of_neg (by simpa using hc)]
    · rw [if_neg hc, takeWhile_cons_of_pos (by simpa using hc), text]

theorem strncmp_eq_zero (n : Nat) (p q : List UInt8) : strncmp p q n = 0 ↔ text n p = text n q := by
  induction n generalizing p q with
  | zero => simp [strncmp, text]
  | succ n ih =>
    rw [text_succ, text_succ, strncmp]
    by_cases heq : p.headD 0 = q.headD 0
    · by_cases h0 : p.headD 0 = 0
      · rw [if_neg fun h => h.1 h0, if_pos h0, if_pos (heq ▸ h0), heq, Int.sub_self]
        simp
      · rw [if_pos ⟨h0, heq⟩, if_neg h0, if_neg (heq ▸ h0), ih, heq, List.cons.injEq]
        simp
    · have hdiff : ((p.headD 0).toNat : Int) - (q.headD 0).toNat ≠ 0 := by
        intro h
        exact heq (UInt8.toNat_inj.1 (by omega))
      rw [if_neg fun h => heq h.2]
      refine ⟨fun h => absurd h hdiff, fun h => absurd h ?_⟩
      split <;> split
      · next hp hq => exact absurd (hp.trans hq.symm) heq
      · simp
      · simp
      · exact fun h => heq (List.cons.inj h).1

theorem namecmp_eq_zero (s t : List UInt8) : namecmp s t = 0 ↔ cut s = cut t := strncmp_eq_zero DIRSIZ s t

theorem text_strncpy (n : Nat) (t : List UInt8) : text n (strncpy t n) = text n t := by
  induction n generalizing t with
  | zero => rfl
  | succ n ih =>
    rw [text_succ, text_succ, strncpy]
    by_cases h0 : t.headD 0 = 0
    · rw [if_pos h0, if_pos h0, replicate_succ, headD_cons, if_pos rfl]
    · rw [if_neg h0, if_neg h0, headD_cons, tail_cons, if_neg h0, ih]

/-! ## Entries -/

/-- The pair that an entry stands for. -/
def Dirent.slot (de : Dirent) : Option (List UInt8 × Nat) := if de.inum = 0 then none else some (cut de.name, de.inum)

def entry (bytes : List UInt8) (j : Nat) : Dirent := .ofBytes ((bytes.drop (DESIZE * j)).take DESIZE)

def entries (bytes : List UInt8) : List Dirent := (List.range (bytes.length / DESIZE)).map (entry bytes)

/-- The slots of a directory with the contents `bytes`. -/
def dirSlots (bytes : List UInt8) : List (Option (List UInt8 × Nat)) := (entries bytes).map Dirent.slot

theorem desize : DESIZE = 16 := rfl

section Entries
variable {bytes de : List UInt8} {i j : Nat}

theorem length_entries (bytes : List UInt8) : (entries bytes).length = bytes.length / DESIZE := by
  rw [entries, length_map, length_range]

theorem getElem?_entries (bytes : List UInt8) (j : Nat) :
    (entries bytes)[j]? = if j < bytes.length / DESIZE then some (entry bytes j) else none := by
  rw [entries, getElem?_map]
  split
  · next h => rw [getElem?_range h, Option.map_some]
  · next h => rw [getElem?_eq_none (by rw [length_range]; omega), Option.map_none]

theorem length_patch (h : i ≤ bytes.length) : (patch bytes i de).length = max bytes.length (i + de.length) := by
  rw [patch, length_append, length_append, length_take, length_drop]
  omega

theorem entry_patch (hi : DESIZE * i ≤ bytes.length) (hde : de.length = DESIZE) (j : Nat) :
    entry (patch bytes (DESIZE * i) de) j = if j = i then .ofBytes de else entry bytes j := by
  have hpart : ((patch bytes (DESIZE * i) de).drop (DESIZE * j)).take DESIZE =
      if j = i then de else (bytes.drop (DESIZE * j)).take DESIZE := by
    apply ext_getElem?
    intro m
    rw [getElem?_take, getElem?_drop, getElem?_patch hi, hde]
    rw [desize] at hde ⊢
    by_cases hm : m < 16
    · rw [if_pos hm]
      by_cases hj : j = i
      · rw [if_pos hj, if_pos (by omega), hj, Nat.add_sub_cancel_left]
      · rw [if_neg hj, if_neg (by omega), getElem?_take, if_pos hm, getElem?_drop]
    · rw [if_neg hm]
      split
      · rw [getElem?_eq_none (by omega)]
      · rw [getElem?_take, if_neg hm]
  rw [entry, hpart]
  split
  · rfl
  · rfl

theorem dirSlots_patch (hlen : bytes.length % DESIZE = 0) (hi : DESIZE * i ≤ bytes.length) (hde : de.length = DESIZE) :
    dirSlots (patch bytes (DESIZE * i) de) = put (dirSlots bytes) i (Dirent.ofBytes de).slot := by
  have hle : i ≤ (dirSlots bytes).length := by
    rw [dirSlots, length_map, length_entries]
    exact (Nat.le_div_iff_mul_le (by decide)).2 (Nat.mul_comm _ _ ▸ hi)
  apply ext_getElem?
  intro j
  rw [getElem?_put hle, dirSlots, dirSlots, getElem?_map, getElem?_map, getElem?_entries, getElem?_entries,
    length_patch hi, entry_patch hi hde, hde]
  rw [desize] at hlen hi ⊢
  by_cases hj : j = i
  · rw [if_pos hj, if_pos hj, if_pos (by omega), Option.map_some]
  · rw [if_neg hj, if_neg hj]
    by_cases hlt : j < bytes.length / 16
    · rw [if_pos hlt, if_pos (by omega)]
    · rw [if_neg hlt, if_neg (by omega)]

theorem ofBytes_bytes {d : Dirent} (h : d.inum < 65536) : Dirent.ofBytes d.bytes = d := by
  obtain ⟨inum, name⟩ := d
  have hsum : (UInt8.ofNat inum).toNat + 256 * (UInt8.ofNat (inum / 256)).toNat = inum := by
    rw [UInt8.toNat_ofNat', UInt8.toNat_ofNat']
    dsimp only at h
    omega
  rw [Dirent.ofBytes, Dirent.bytes]
  exact congrArg (Dirent.mk · name) hsum

theorem slot_new (name : List UInt8) {inum : Nat} (h1 : 1 ≤ inum) (h2 : inum ≤ 65535) :
    (Dirent.ofBytes (Dirent.bytes ⟨inum % 65536, strncpy name DIRSIZ⟩)).slot = some (cut name, inum) := by
  have hmod : inum % 65536 = inum := Nat.mod_eq_of_lt (by omega)
  rw [hmod, ofBytes_bytes (Nat.lt_succ_of_le h2), Dirent.slot, if_neg (by dsimp only; omega), cut, text_strncpy]
  rfl

theorem slot_zero : (Dirent.ofBytes (List.replicate DESIZE 0)).slot = none := rfl

theorem index_dirSlots (bytes name : List UInt8) :
    index (dirSlots bytes) (cut name) =
      (entries bytes).findIdx fun de => decide (de.inum ≠ 0 ∧ namecmp name de.name = 0) := by
  rw [index, dirSlots, findIdx_map]
  congr 1
  funext de
  rw [Function.comp_apply, Dirent.slot, Bool.eq_iff_iff, hasKey_iff, decide_eq_true_iff, namecmp_eq_zero]
  by_cases h0 : de.inum = 0
  · simp [h0]
  · simp [h0, eq_comm]

theorem free_dirSlots (bytes : List UInt8)
    : free (dirSlots bytes) = (entries bytes).findIdx fun de => decide (de.inum = 0) := by
  rw [free, dirSlots, findIdx_map]
  congr 1
  funext de
  rw [Function.comp_apply, Dirent.slot]
  by_cases h0 : de.inum = 0 <;> simp [h0]

end Entries

/-! ## Reading a directory -/

/-- The directory in entry `k` of the inode cache: whole entries, in blocks that are all there. -/
structure IsDir (sb : Superblock) (t : Table) (s : St) (k : Nat) : Prop extends Cached sb t s k where
  type : (t (s.icache k).inum).type = T_DIR
  full : Full sb t s.blk (s.icache k).inum
  whole : (t (s.icache k).inum).size % DESIZE = 0
  held : 0 < (s.icache k).ref

def dirBytes (sb : Superblock) (t : Table) (s : St) (k : Nat) : List UInt8 := content sb t s.blk (s.icache k).inum

def dirOf (sb : Superblock) (t : Table) (s : St) (k : Nat) : List (Option (List UInt8 × Nat)) :=
  dirSlots (dirBytes sb t s k)

section Reading
variable {sb : Superblock} {t : Table} {s : St} {k : Nat} {E : Stop → St → Prop}

theorem length_dirBytes : (dirBytes sb t s k).length = (t (s.icache k).inum).size := length_content _ _ _ _

theorem IsDir.readi (d : IsDir sb t s k) {j : Nat} (hj : j < (entries (dirBytes sb t s k)).length) :
    wp (readi sb k .kernel (DESIZE * j) DESIZE)
      (fun r s' => s' = s ∧ r.1 = DESIZE ∧ Dirent.ofBytes r.2 = entry (dirBytes sb t s k) j) (fun _ _ => False) s := by
  have hmax := d.full.size_le
  rw [length_entries, length_dirBytes] at hj
  have hle : DESIZE * j + DESIZE ≤ (t (s.icache k).inum).size := by
    rw [desize] at hj ⊢
    omega
  have hsmall : MAXFILE * BSIZE < 2 ^ 32 := by decide
  refine (readi_bytes .kernel (DESIZE * j) d.toCached d.full (by decide) fun _ _ => rfl).imp ?_
  rintro r s' ⟨hs, rfl⟩
  rw [if_neg (by omega)]
  refine ⟨hs, ?_, ?_⟩
  · dsimp only
    omega
  · rw [entry, dirBytes, content_part d.full]

/-- A scan from entry `j` on stops at the first entry that `stop` accepts, or at the end. -/
theorem IsDir.scan (d : IsDir sb t s k) (short : Stop) (stop : Dirent → Bool) (fuel j : Nat)
    (hj : j ≤ (entries (dirBytes sb t s k)).length) (hfuel : (entries (dirBytes sb t s k)).length - j < fuel) :
    wp (scan sb k short stop fuel (DESIZE * j))
      (fun r s' => s' = s ∧ ∃ i, i = j + ((entries (dirBytes sb t s k)).drop j).findIdx stop ∧
        r = (DESIZE * i, (entries (dirBytes sb t s k))[i]?)) (fun _ _ => False) s := by
  induction fuel generalizing j with
  | zero => omega
  | succ fuel ih =>
    have hlen := length_entries (dirBytes sb t s k)
    rw [length_dirBytes] at hlen
    have hwhole := d.whole
    unfold Fs.scan
    rw [wp_bind, wp_get, d.di]
    by_cases hlt : j < (entries (dirBytes sb t s k)).length
    · have hoff : DESIZE * j < (t (s.icache k).inum).size := by
        rw [desize] at hlen hwhole ⊢
        omega
      have hget : (entries (dirBytes sb t s k))[j] = entry (dirBytes sb t s k) j := by
        have h := getElem?_entries (dirBytes sb t s k) j
        rw [← length_entries, if_pos hlt, getElem?_eq_getElem hlt] at h
        exact Option.some.inj h
      rw [if_pos hoff, wp_bind]
      refine (d.readi hlt).total ?_
      rintro r s' ⟨rfl, hr1, hr2⟩
      rw [if_neg (not_not.2 hr1)]
      dsimp only
      rw [hr2]
      by_cases hstop : stop (entry (dirBytes sb t s' k) j) = true
      · rw [if_pos hstop]
        refine (wp_pure _).2 ⟨rfl, j, ?_, ?_⟩
        · rw [drop_eq_getElem_cons hlt, findIdx_cons, hget, hstop]
          rfl
        · rw [getElem?_eq_getElem hlt, hget]
      · rw [if_neg hstop]
        refine (ih (j + 1) hlt (by omega)).imp ?_
        rintro r' s₁ ⟨hs, i, hi, hr'⟩
        refine ⟨hs, i, ?_, hr'⟩
        rw [hi, drop_eq_getElem_cons hlt, findIdx_cons, hget, Bool.eq_false_of_not_eq_true hstop, cond_false]
        omega
    · have hoff : ¬ DESIZE * j < (t (s.icache k).inum).size := by
        rw [desize] at hlen hwhole ⊢
        omega
      have hend : j = (entries (dirBytes sb t s k)).length := by omega
      rw [if_neg hoff, wp_pure]
      refine ⟨rfl, j, ?_, ?_⟩
      · rw [drop_eq_nil_of_le (by omega)]
        rfl
      · rw [getElem?_eq_none (by omega)]

theorem IsDir.scan_all (d : IsDir sb t s k) (short : Stop) (stop : Dirent → Bool) {Q : Nat × Option Dirent → St → Prop}
    (h : Q (DESIZE * (entries (dirBytes sb t s k)).findIdx stop,
      (entries (dirBytes sb t s k))[(entries (dirBytes sb t s k)).findIdx stop]?) s) :
    wp (Fs.scan sb k short stop ((t (s.icache k).inum).size / DESIZE + 1) 0) Q E s := by
  have hlen := length_entries (dirBytes sb t s k)
  rw [length_dirBytes] at hlen
  refine (d.scan short stop ((t (s.icache k).inum).size / DESIZE + 1) 0 (Nat.zero_le _) (by omega)).total ?_
  rintro r s' ⟨rfl, i, hi, rfl⟩
  rw [drop_zero, Nat.zero_add] at hi
  rw [hi]
  exact h

variable {Q : Option (Nat × Nat) → St → Prop} {name : List UInt8}

theorem IsDir.dirlookup (d : IsDir sb t s k)
    (hnone : (entries (dirBytes sb t s k))[index (dirOf sb t s k) (cut name)]? = none → Q none s)
    (hsome : ∀ de, (entries (dirBytes sb t s k))[index (dirOf sb t s k) (cut name)]? = some de →
      wp (iget (s.icache k).dev de.inum) (fun ip => Q (some (ip, DESIZE * index (dirOf sb t s k) (cut name)))) E s) :
    wp (dirlookup sb k name) Q E s := by
  rw [dirOf] at hnone hsome
  unfold Fs.dirlookup
  rw [wp_bind, wp_get]
  dsimp only
  rw [d.di, if_neg (not_not.2 d.type), wp_bind]
  refine d.scan_all _ _ ?_
  rw [← index_dirSlots]
  dsimp only
  split
  · next de he =>
    simp only [wp_bind, wp_pure]
    exact hsome de he
  · next he => exact (wp_pure _).2 (hnone he)

theorem IsDir.dirlookup_none (d : IsDir sb t s k) (h : lookup (dirOf sb t s k) (cut name) = none) (hQ : Q none s) :
    wp (Fs.dirlookup sb k name) Q E s := by
  have hend : (entries (dirBytes sb t s k))[index (dirOf sb t s k) (cut name)]? = none := by
    rw [index_of_none h, dirOf, dirSlots, length_map, getElem?_eq_none (Nat.le_refl _)]
  refine d.dirlookup (fun _ => hQ) fun de hde => ?_
  rw [hend] at hde
  cases hde

theorem IsDir.dirlookup_some (d : IsDir sb t s k) {inum : Nat} (h : lookup (dirOf sb t s k) (cut name) = some inum)
    (hQ : wp (iget (s.icache k).dev inum) (fun ip => Q (some (ip, DESIZE * index (dirOf sb t s k) (cut name)))) E s) :
    wp (Fs.dirlookup sb k name) Q E s := by
  have hslot := index_of_lookup h
  generalize hi : index (dirOf sb t s k) (cut name) = i at hslot hQ
  rw [dirOf, dirSlots, getElem?_map, Option.map_eq_some_iff] at hslot
  obtain ⟨de, hde, hslot⟩ := hslot
  have hinum : de.inum = inum := by
    rw [Dirent.slot] at hslot
    split at hslot
    · cases hslot
    · exact (Prod.mk.inj (Option.some.inj hslot)).2
  refine d.dirlookup (fun hnone => ?_) fun de' hde' => ?_
  · rw [hi, hde] at hnone
    cases hnone
  · rw [hi, hde] at hde'
    rw [← Option.some.inj hde', hinum, hi]
    exact hQ

end Reading

end Xv6.Fs
