import Xv6.Fs.Cache
import Xv6.Fs.Writei
import Xv6.Fs.Image
import Xv6.Lib.Run
import Xv6.Lib.Slots
/-!
# Writers that share an open file

`filewrite` of `kernel/file.c`, run by any number of processes on one
`struct file`. A step of a process is what it does up to the next lock it takes
or gives back; between `ilock` and `iunlock` the others can only start and end
transactions. The offset is read and advanced under the inode's lock, so chunks
of different calls are appended one after the other.
-/

namespace Xv6.Fs.Shared

open Bytes Hoare Owner Run Slots Function List

/-! ## The code -/

/-- A call of `filewrite` with `n` bytes at `addr`. -/
structure Write where
  mem : Nat → Option UInt8
  addr : Nat
  n : Nat

/-- Where a process is in `filewrite`. -/
inductive Pc where
  /-- not in a call -/
  | start
  /-- `while(i < n)` -/
  | test
  | ilock
  | writei
  /-- `writei` has returned `r`, -/
  | advance (r : Int)
  | iunlock (r : Int)
  | endOp (r : Int)
  /-- "short filewrite" -/
  | panic
  deriving DecidableEq

/-- A process: the calls it makes, the first of which is in progress, and what calls have returned. -/
structure Writer where
  calls : List Write
  pc : Pc
  i : Nat
  rets : List Int

structure Sys where
  st : St
  proc : Nat → Writer

variable (sb : Superblock)

/-- Process `p` runs `m`, and goes on as `next` says. A process that has to wait, or panics, makes no step. -/
def Sys.run {α : Type} (y : Sys) (p : Nat) (m : M α) (next : α → Writer) : Option Sys :=
  match exec m { y.st with myproc := p } with
  | (.ok a, st) => some ⟨st, update y.proc p (next a)⟩
  | (.error _, _) => none

/-- The call in progress returns. -/
def Writer.ret (w : Writer) (rest : List Write) (r : Int) : Writer := ⟨rest, .start, 0, w.rets ++ [r]⟩

/-- The bytes that are written next. -/
def Write.n1 (c : Write) (i : Nat) : Nat := min (c.n - i) chunk

/-- The next step of process `p`, in a call on file `f`. -/
def step (f p : Nat) (y : Sys) : Option Sys :=
  let w := y.proc p
  match w.calls with
  | [] => none
  | c :: rest =>
    match w.pc with
    | .start => y.run p get fun s =>
      if !(s.ftable f).writable then w.ret rest (-1)
      else if (s.ftable f).type = .inode then { w with pc := .test, i := 0 }
      else { w with pc := .panic }
    | .test =>
      if w.i < c.n then y.run p beginOp fun _ => { w with pc := .ilock }
      else y.run p (pure ()) fun _ => w.ret rest (if w.i = c.n then c.n else -1)
    | .ilock => y.run p (do Fs.ilock sb ((← get).ftable f).ip) fun _ => { w with pc := .writei }
    | .writei =>
      y.run p (do
        let ff := (← get).ftable f
        Fs.writei sb ff.ip ((Src.user c.mem c.addr).from w.i) ff.off (c.n1 w.i)) fun r => { w with pc := .advance r }
    | .advance r =>
      y.run p (do if 0 < r then setFile f fun x => { x with off := (x.off + r.toNat) % 2 ^ 32 })
        fun _ => { w with pc := .iunlock r }
    | .iunlock r => y.run p (do Fs.iunlock ((← get).ftable f).ip) fun _ => { w with pc := .endOp r }
    | .endOp r =>
      y.run p Fs.endOp fun _ =>
        if r < 0 then w.ret rest (if w.i = c.n then c.n else -1)
        else if r ≠ c.n1 w.i then { w with pc := .panic }
        else { w with pc := .test, i := w.i + c.n1 w.i }
    | .panic => none

/-! ## What the calls are to write -/

/-- The bytes of the transaction that starts at `j`. -/
def Write.piece (c : Write) (j : Nat) : List UInt8 :=
  (List.range (c.n1 j)).map fun m => (c.mem ((c.addr + j + m) % 2 ^ 64)).getD 0

/-- The transactions from `j` on. -/
def Write.pieces (c : Write) (j : Nat) : List (List UInt8) :=
  (List.range ((c.n - j + chunk - 1) / chunk)).map fun m => c.piece (j + m * chunk)

section Pieces
variable (c : Write) {j : Nat}

theorem chunk_pos : 0 < chunk := by decide

theorem pieces_end (h : c.n ≤ j) : c.pieces j = [] := by
  unfold Write.pieces
  rw [Nat.sub_eq_zero_of_le h, Nat.zero_add, Nat.div_eq_of_lt (Nat.sub_lt chunk_pos Nat.one_pos)]
  rfl

theorem pieces_cons (h : j < c.n) : c.pieces j = c.piece j :: c.pieces (j + c.n1 j) := by
  have hpos := chunk_pos
  by_cases hle : chunk ≤ c.n - j
  · have h1 : c.n1 j = chunk := Nat.min_eq_right hle
    have hcount : (c.n - j + chunk - 1) / chunk = (c.n - (j + chunk) + chunk - 1) / chunk + 1 := by
      rw [← Nat.add_div_right _ hpos]
      congr 1
      omega
    unfold Write.pieces
    rw [h1, hcount, range_succ_eq_map, map_cons, map_map, Nat.zero_mul, Nat.add_zero]
    congr 1
    refine map_congr_left fun m _ => ?_
    show c.piece (j + (m + 1) * chunk) = c.piece (j + chunk + m * chunk)
    congr 1
    rw [Nat.add_mul]
    omega
  · have h1 : c.n1 j = c.n - j := Nat.min_eq_left (by omega)
    have hcount : (c.n - j + chunk - 1) / chunk = 1 := by
      rw [show c.n - j + chunk - 1 = c.n - j - 1 + chunk by omega, Nat.add_div_right _ hpos,
        Nat.div_eq_of_lt (by omega)]
    rw [pieces_end c (j := j + c.n1 j) (by omega)]
    unfold Write.pieces
    rw [hcount]
    simp

theorem length_piece : (c.piece j).length = c.n1 j := by simp [Write.piece]

theorem length_pieces (j : Nat) : (c.pieces j).flatten.length = c.n - j := by
  generalize hd : c.n - j = d
  induction d using Nat.strongRecOn generalizing j with
  | ind d ih =>
    by_cases hlt : j < c.n
    · have h1 : 0 < c.n1 j := Nat.lt_min.2 ⟨by omega, chunk_pos⟩
      have h2 : c.n1 j ≤ c.n - j := Nat.min_le_left _ _
      rw [pieces_cons c hlt, flatten_cons, length_append, length_piece, ih (c.n - (j + c.n1 j)) (by omega) _ rfl]
      omega
    · rw [pieces_end c (by omega)]
      simp
      omega

end Pieces

/-! ## The file -/

/-- The file of entry `k`, which `f` is open on, has `data` after its first `old` bytes. -/
structure Has (f k old : Nat) (base : Nat → UInt8) (t : Table) (s : St) (data : List UInt8) : Prop where
  inv : Inv sb none t s
  live : Live s k
  regular : (t (s.icache k).inum).type ≠ T_DIR
  ip : (s.ftable f).ip = k
  type : (s.ftable f).type = .inode
  writable : (s.ftable f).writable = true
  size : (t (s.icache k).inum).size = old + data.length
  before : ∀ o < old, byteAt sb t s.blk (s.icache k).inum o = base o
  after : ∀ o < data.length, byteAt sb t s.blk (s.icache k).inum (old + o) = data.getD o 0

section Has
variable {sb} {f k old : Nat} {base : Nat → UInt8} {t : Table} {s s' : St} {data : List UInt8}

section
variable (h : Has sb f k old base t s data)
include h

theorem Has.frame (hinv : Inv sb none t s') (hblk : s'.blk = s.blk)
    (hnum : (s'.icache k).inum = (s.icache k).inum) (href : (s'.icache k).ref = (s.icache k).ref)
    (hvalid : (s'.icache k).valid = (s.icache k).valid) (hip : (s'.ftable f).ip = (s.ftable f).ip)
    (htype : (s'.ftable f).type = (s.ftable f).type) (hw : (s'.ftable f).writable = (s.ftable f).writable) :
    Has sb f k old base t s' data := by
  refine ⟨hinv, h.live.inode href hvalid, ?_, hip.trans h.ip, htype.trans h.type, hw.trans h.writable, ?_, ?_, ?_⟩
  all_goals rw [hnum]
  · exact h.regular
  · exact h.size
  · rw [hblk]
    exact h.before
  · rw [hblk]
    exact h.after

theorem Has.myproc (p : Nat) : Has sb f k old base t { s with myproc := p } data :=
  h.frame (h.inv.blocks rfl h.inv.files fun _ _ => rfl) rfl rfl rfl rfl rfl rfl rfl

theorem beginOp_has :
    wp beginOp (fun _ s' => Has sb f k old base t s' data ∧ s'.outstanding = s.outstanding + 1 ∧ s'.icache = s.icache ∧
      s'.ftable = s.ftable) (fun _ _ => True) s := by
  unfold beginOp record
  rw [wp_bind, wp_modify, wp_bind, wp_get]
  dsimp only
  rw [wp_ite]
  refine ⟨fun _ => (wp_throw _).2 trivial, fun _ => ?_⟩
  rw [wp_set]
  exact ⟨h.frame (h.inv.blocks rfl h.inv.files fun _ _ => rfl) rfl rfl rfl rfl rfl rfl rfl, rfl, rfl, rfl⟩

theorem endOp_has :
    wp endOp (fun _ s' => Has sb f k old base t s' data ∧ s'.outstanding = s.outstanding - 1 ∧ s'.icache = s.icache ∧
      s'.ftable = s.ftable) (fun _ _ => True) s := by
  unfold endOp record
  rw [wp_bind, wp_modify, wp_modify]
  exact ⟨h.frame (h.inv.blocks rfl h.inv.files fun _ _ => rfl) rfl rfl rfl rfl rfl rfl rfl, rfl, rfl, rfl⟩

theorem Has.lock (l : Option Nat) :
    Has sb f k old base t { s with icache := update s.icache k { s.icache k with lock := l } } data := by
  have hcopy := h.inv.copy k h.live.lt h.live.ref
  refine h.frame (h.inv.calm (x := { s.icache k with lock := l }) rfl rfl rfl id hcopy).inv rfl ?_ ?_ ?_ rfl rfl rfl
  all_goals
    dsimp only
    rw [update_self]

theorem ilock_has :
    wp (Fs.ilock sb k) (fun _ s' => Has sb f k old base t s' data ∧ (s.icache k).lock = none ∧
      (s'.icache k).lock = some s.myproc ∧ s'.outstanding = s.outstanding ∧ s'.ftable = s.ftable) (fun _ _ => True) s := by
  unfold Fs.ilock acquiresleep
  simp only [wp_bind, wp_get, wp_ite, wp_throw, wp_setInode, wp_pure]
  refine ⟨fun _ => trivial, fun _ => ⟨fun _ => trivial, fun hfree => ⟨fun hv => ?_, fun _ => ?_⟩⟩⟩
  · rw [h.live.valid] at hv
    cases hv
  · refine ⟨h.lock _, by simpa using hfree, ?_, trivial, trivial⟩
    rw [update_self]

theorem iunlock_has :
    wp (Fs.iunlock k) (fun _ s' => Has sb f k old base t s' data ∧ s'.outstanding = s.outstanding ∧
      s'.ftable = s.ftable) (fun _ _ => True) s := by
  unfold Fs.iunlock releasesleep
  simp only [wp_bind, wp_get, wp_ite, wp_throw, wp_setInode]
  exact ⟨fun _ => trivial, fun _ => ⟨h.lock none, trivial, trivial⟩⟩

end

theorem writei_has {src : Src} {n : Nat} (hl : Layout sb) (h : Has sb f k old base t s data) (hop : 1 ≤ s.outstanding)
    (hn : 0 < n) (hmax : old + data.length + n ≤ MAXFILE * BSIZE) (hsrc : ∀ j < n, src.byte j ≠ none) :
    wp (Fs.writei sb k src (old + data.length) n) (fun r s' => r = n ∧
      (∃ t', Has sb f k old base t' s' (data ++ (List.range n).map fun j => (src.byte j).getD 0)) ∧
      s'.outstanding = s.outstanding ∧ s'.ftable = s.ftable ∧ (s'.icache k).lock = (s.icache k).lock)
      (fun _ _ => True) s := by
  have hstored := writei_stored hl h.inv h.live hop hn (Nat.le_of_eq h.size.symm) hmax hsrc fun hd => absurd hd h.regular
  refine hstored.imp ?_
  rintro r s' ⟨hret, t', -, hw, hsize, hst, hlog⟩
  have hft := hlog.ftable
  have hnum : (s'.icache k).inum = (s.icache k).inum := by rw [hw.self]
  have hfull : ∀ o < old + data.length, ref sb t s.blk ((s.icache k).inum, dataSlot (o / BSIZE)) ≠ 0 := fun o ho =>
    (h.inv.files.each _ (h.inv.inum h.live)).full _ (by rw [h.size]; exact block_lt ho)
  refine ⟨hret, ⟨t', hw.inv, hw.live h.live, ?_, hft ▸ h.ip, hft ▸ h.type, hft ▸ h.writable, ?_, fun o ho => ?_,
    fun o ho => ?_⟩, hlog.outstanding, hft, by rw [hw.self]⟩
  all_goals rw [hnum]
  · rw [hw.fields]
    exact h.regular
  · rw [hsize, h.size]
    simp
    omega
  · rw [hst.old o (hfull o (by omega)) (.inl (by omega))]
    exact h.before o ho
  · rw [length_append, length_map, length_range] at ho
    rw [getD_eq_getElem?_getD, getElem?_append]
    by_cases hlt : o < data.length
    · rw [if_pos hlt, hst.old _ (hfull _ (by omega)) (.inl (by omega)), h.after o hlt, getD_eq_getElem?_getD]
    · have hj : o - data.length < n := by omega
      have hnew := hst.new (o - data.length) hj
      rw [show old + data.length + (o - data.length) = old + o by omega, Nat.zero_add] at hnew
      rw [if_neg hlt, getElem?_map, getElem?_range hj, Option.map_some, ← hnew]
      rfl

end Has

/-! ## The processes -/

/-- Within `begin_op` and `end_op`. -/
def Pc.inTx : Pc → Bool
  | .ilock | .writei | .advance _ | .iunlock _ | .endOp _ => true
  | _ => false

/-- Holding the lock of the inode. -/
def Pc.locks : Pc → Bool
  | .writei | .advance _ | .iunlock _ => true
  | _ => false

/-- By how much the offset lags behind the size. -/
def Pc.lag : Pc → Nat
  | .advance r => r.toNat
  | _ => 0

/-- The bytes of the call in progress that are in the file. -/
def Writer.done (w : Writer) (c : Write) : Nat :=
  match w.pc with
  | .advance _ | .iunlock _ | .endOp _ => w.i + c.n1 w.i
  | _ => w.i

/-- The transactions that are still to come. -/
def Writer.todo (w : Writer) : List (List UInt8) :=
  match w.calls with
  | [] => []
  | c :: rest => c.pieces (w.done c) ++ rest.flatMap (·.pieces 0)

/-- What the process knows of the call in progress. -/
def Writer.Ok (w : Writer) : Prop :=
  match w.calls, w.pc with
  | [], pc => pc = .start
  | _, .start => w.i = 0
  | c :: _, .test => w.i ≤ c.n
  | c :: _, .ilock | c :: _, .writei => w.i < c.n
  | c :: _, .advance r | c :: _, .iunlock r | c :: _, .endOp r => w.i < c.n ∧ r = c.n1 w.i
  | _, .panic => False

/-- The memory that a call writes from is mapped. -/
def Write.Mapped (c : Write) : Prop := ∀ j < c.n, c.mem ((c.addr + j) % 2 ^ 64) ≠ none

/-- `l` are the transactions so far, with the processes that made them. -/
structure Ok (sb : Superblock) (N f k old : Nat) (base : Nat → UInt8) (total : Nat) (y₀ y : Sys) (t : Table)
    (l : List (Nat × List UInt8)) : Prop where
  has : Has sb f k old base t y.st (l.flatMap (·.2))
  room : old + (l.flatMap (·.2)).length + ∑ p ∈ Finset.range N, (y.proc p).todo.flatten.length = total
  tx : y.st.outstanding = ∑ p ∈ Finset.range N, if (y.proc p).pc.inTx then 1 else 0
  off : (y.st.ftable f).off + ∑ p ∈ Finset.range N, (y.proc p).pc.lag = old + (l.flatMap (·.2)).length
  lock : ∀ p, (y.proc p).pc.locks = true → (y.st.icache k).lock = some p
  each : ∀ p, (y.proc p).Ok
  few : ∀ p, N ≤ p → (y.proc p).calls = []
  mapped : ∀ p, ∀ c ∈ (y.proc p).calls, c.Mapped
  order : ∀ p, (l.filter (·.1 = p)).map (·.2) ++ (y.proc p).todo = (y₀.proc p).todo
  small : ∀ c ∈ l, c.2.length ≤ chunk
  rets : ∀ p, (y.proc p).rets ++ (y.proc p).calls.map (fun c => (c.n : Int)) =
    (y₀.proc p).rets ++ (y₀.proc p).calls.map fun c => (c.n : Int)

section Ok
variable {sb} {N f k old total p : Nat} {base : Nat → UInt8} {y₀ y y' : Sys} {t t' : Table} {l l' : List (Nat × List UInt8)}
  {st : St} {w : Writer}

theorem Ok.move (h : Ok sb N f k old base total y₀ y t l) (hp : p < N) (d : List (List UInt8))
    (hl' : l' = l ++ d.map fun x => (p, x)) (hhas : Has sb f k old base t' st (l'.flatMap (·.2)))
    (htx : st.outstanding + (if (y.proc p).pc.inTx then 1 else 0) = y.st.outstanding + if w.pc.inTx then 1 else 0)
    (hoff : (st.ftable f).off + w.pc.lag = (y.st.ftable f).off + (y.proc p).pc.lag + d.flatten.length)
    (hlock : ∀ q, (update y.proc p w q).pc.locks = true → (st.icache k).lock = some q)
    (hok : w.Ok) (htodo : d ++ w.todo = (y.proc p).todo) (hsmall : ∀ x ∈ d, x.length ≤ chunk)
    (hmap : ∀ c ∈ w.calls, c ∈ (y.proc p).calls)
    (hrets : w.rets ++ w.calls.map (fun c => (c.n : Int)) =
      (y.proc p).rets ++ (y.proc p).calls.map fun c => (c.n : Int)) :
    Ok sb N f k old base total y₀ ⟨st, update y.proc p w⟩ t' l' := by
  have hflat : (l'.flatMap (·.2)).length = (l.flatMap (·.2)).length + d.flatten.length := by
    rw [hl', flatMap_append, length_append, flatMap_map]
    simp [List.flatMap]
  refine ⟨hhas, ?_, ?_, ?_, hlock, fun q => ?_, fun q hq => ?_, fun q => ?_, fun q => ?_, fun c hc => ?_, fun q => ?_⟩
  · have hs := sum_update hp y.proc w fun w => w.todo.flatten.length
    have hd : (y.proc p).todo.flatten.length = d.flatten.length + w.todo.flatten.length := by
      rw [← htodo, flatten_append, length_append]
    have := h.room
    dsimp only at hs ⊢
    omega
  · have hs := sum_update hp y.proc w fun w => if w.pc.inTx then (1 : Int) else 0
    have := h.tx
    dsimp only at hs ⊢
    omega
  · have hs := sum_update hp y.proc w fun w => w.pc.lag
    have := h.off
    dsimp only at hs ⊢
    omega
  · dsimp only
    by_cases e : q = p
    · rw [e, update_self]
      exact hok
    · rw [update_of_ne e]
      exact h.each q
  · dsimp only
    rw [update_of_ne (show q ≠ p by omega)]
    exact h.few q hq
  · dsimp only
    by_cases e : q = p
    · rw [e, update_self]
      exact fun c hc => h.mapped p c (hmap c hc)
    · rw [update_of_ne e]
      exact h.mapped q
  · have ho := h.order q
    dsimp only
    rw [hl', filter_append, map_append]
    by_cases e : q = p
    · subst e
      rw [update_self, append_assoc, ← ho, ← htodo]
      simp [filter_map, comp_def]
    · have hnone : (d.map fun x => (p, x)).filter (·.1 = q) = [] := by
        simp [filter_map, comp_def, Ne.symm e]
      rw [update_of_ne e, hnone, map_nil, append_nil, ho]
  · rw [hl', mem_append] at hc
    rcases hc with hc | hc
    · exact h.small c hc
    · obtain ⟨x, hx, rfl⟩ := mem_map.1 hc
      exact hsmall x hx
  · dsimp only
    by_cases e : q = p
    · subst e
      rw [update_self, hrets]
      exact h.rets q
    · rw [update_of_ne e]
      exact h.rets q

theorem Ok.still (h : Ok sb N f k old base total y₀ y t l) (hp : p < N)
    (hhas : Has sb f k old base t st (l.flatMap (·.2)))
    (htx : st.outstanding + (if (y.proc p).pc.inTx then 1 else 0) = y.st.outstanding + if w.pc.inTx then 1 else 0)
    (hoff : (st.ftable f).off + w.pc.lag = (y.st.ftable f).off + (y.proc p).pc.lag)
    (hlock : ∀ q, (update y.proc p w q).pc.locks = true → (st.icache k).lock = some q)
    (hok : w.Ok) (htodo : w.todo = (y.proc p).todo) (hmap : ∀ c ∈ w.calls, c ∈ (y.proc p).calls)
    (hrets : w.rets ++ w.calls.map (fun c => (c.n : Int)) =
      (y.proc p).rets ++ (y.proc p).calls.map fun c => (c.n : Int)) :
    ∃ t l, Ok sb N f k old base total y₀ ⟨st, update y.proc p w⟩ t l :=
  ⟨t, l, h.move hp [] (by simp) hhas htx hoff hlock hok htodo (fun _ hx => by cases hx) hmap hrets⟩

theorem run_some {α : Type} {m : M α} {next : α → Writer} (h : y.run p m next = some y') :
    ∃ a st, exec m { y.st with myproc := p } = (.ok a, st) ∧ y' = ⟨st, update y.proc p (next a)⟩ := by
  unfold Sys.run at h
  split at h
  · next a st he => exact ⟨a, st, he, (Option.some.inj h).symm⟩
  · cases h

theorem Ok.lock_same (h : Ok sb N f k old base total y₀ y t l) (hlock : (st.icache k).lock = (y.st.icache k).lock)
    (hw : w.pc.locks = true → (y.proc p).pc.locks = true) :
    ∀ q, (update y.proc p w q).pc.locks = true → (st.icache k).lock = some q := by
  intro q hq
  rw [hlock]
  by_cases e : q = p
  · rw [e, update_self] at hq
    rw [e]
    exact h.lock p (hw hq)
  · rw [update_of_ne e] at hq
    exact h.lock q hq

/-- A process that is about to write holds the lock, so no one is about to move the offset. -/
theorem Ok.off_eq (h : Ok sb N f k old base total y₀ y t l) (hp : (y.proc p).pc = .writei) :
    (y.st.ftable f).off = old + (l.flatMap (·.2)).length := by
  have hzero : ∑ q ∈ Finset.range N, (y.proc q).pc.lag = 0 := by
    refine Finset.sum_eq_zero fun q _ => ?_
    cases hq : (y.proc q).pc with
    | advance r =>
      have h1 := h.lock q (by rw [hq]; rfl)
      have h2 := h.lock p (by rw [hp]; rfl)
      have e : q = p := Option.some.inj (h1.symm.trans h2)
      rw [e, hp] at hq
      cases hq
    | _ => rfl
  have := h.off
  omega

theorem Ok.outstanding_pos (h : Ok sb N f k old base total y₀ y t l) (hp : p < N) (htx : (y.proc p).pc.inTx = true) :
    1 ≤ y.st.outstanding := by
  rw [h.tx]
  have hone : (if (y.proc p).pc.inTx then (1 : Int) else 0) ≤ _ :=
    Finset.single_le_sum (f := fun q => if (y.proc q).pc.inTx then (1 : Int) else 0)
      (fun q _ => by split <;> omega) (Finset.mem_range.2 hp)
  rwa [if_pos htx] at hone

theorem todo_start (calls : List Write) (rets : List Int) :
    (Writer.mk calls .start 0 rets).todo = calls.flatMap (·.pieces 0) := by
  cases calls <;> rfl

theorem get_ok {s st s' : St} (h : exec (get : M St) s = (.ok st, s')) : st = s ∧ s' = s :=
  wp.ok (Q := fun a s' => a = s ∧ s' = s) (E := fun _ _ => True) (wp_get.2 ⟨rfl, rfl⟩) h

theorem step_ok (hl : Layout sb) (htotal : total ≤ MAXFILE * BSIZE) (h : Ok sb N f k old base total y₀ y t l)
    (hs : step sb f p y = some y') : ∃ t l, Ok sb N f k old base total y₀ y' t l := by
  have hmine := h.each p
  have hhas := h.has.myproc p
  unfold step at hs
  rcases hw : y.proc p with ⟨calls, pc, i, rets⟩
  rw [hw] at hs hmine
  dsimp only at hs
  rcases calls with - | ⟨c, rest⟩
  · cases hs
  have hp : p < N := by
    by_contra hge
    have := h.few p (by omega)
    rw [hw] at this
    cases this
  cases pc with
  | start =>
    obtain ⟨s, st, he, rfl⟩ := run_some hs
    obtain ⟨rfl, rfl⟩ := get_ok he
    have h0 : i = 0 := hmine
    dsimp only
    rw [h.has.writable, h.has.type]
    refine h.still hp hhas ?_ ?_ (h.lock_same rfl ?_) (Nat.zero_le _) ?_ ?_ ?_
    all_goals simp [hw, Pc.inTx, Pc.lag, Pc.locks, Writer.todo, Writer.done, h0]
  | test =>
    have hle : i ≤ c.n := hmine
    dsimp only at hs
    split at hs
    · next hlt =>
      obtain ⟨_, st, he, rfl⟩ := run_some hs
      obtain ⟨hhas', ho, hic, hft⟩ := (beginOp_has hhas).ok he
      refine h.still hp hhas' ?_ ?_ (h.lock_same (by rw [hic]) ?_) hlt ?_ ?_ ?_
      all_goals simp [hw, ho, hft, Pc.inTx, Pc.lag, Pc.locks, Writer.todo, Writer.done]
    · obtain ⟨_, st, he, rfl⟩ := run_some hs
      have hst : st = { y.st with myproc := p } :=
        wp.ok (Q := fun _ s' => s' = { y.st with myproc := p }) (E := fun _ _ => True) ((wp_pure _).2 rfl) he
      subst hst
      have hn : i = c.n := by omega
      unfold Writer.ret
      refine h.still hp hhas ?_ ?_ (h.lock_same rfl ?_) ?_ ?_ ?_ ?_
      · simp [hw, Pc.inTx]
      · simp [hw, Pc.lag]
      · simp [Pc.locks]
      · cases rest <;> rfl
      · rw [todo_start, hw, Writer.todo]
        simp [Writer.done, hn, pieces_end]
      · intro c' hc'
        rw [hw]
        exact mem_cons_of_mem _ hc'
      · simp [hw, hn]
  | ilock =>
    have hlt : i < c.n := hmine
    obtain ⟨_, st, he, rfl⟩ := run_some hs
    have hlock : wp (do Fs.ilock sb ((← get).ftable f).ip) _ _ { y.st with myproc := p } :=
      (wp_bind _ _).2 (wp_get.2 (by rw [hhas.ip]; exact ilock_has hhas))
    obtain ⟨hhas', hfree, hmy, ho, hft⟩ := hlock.ok he
    refine h.still hp hhas' ?_ ?_ (fun q hq => ?_) hlt ?_ ?_ ?_
    case refine_3 =>
      by_cases e : q = p
      · rw [e]
        exact hmy
      · rw [update_of_ne e] at hq
        cases (h.lock q hq).symm.trans hfree
    all_goals simp [hw, ho, hft, Pc.inTx, Pc.lag, Writer.todo, Writer.done]
  | writei =>
    have hlt : i < c.n := hmine
    have hpos : 0 < c.n1 i := Nat.lt_min.2 ⟨by omega, chunk_pos⟩
    have hn1 : c.n1 i ≤ c.n - i := Nat.min_le_left _ _
    have hoff := h.off_eq (p := p) (by rw [hw])
    have hop : 1 ≤ y.st.outstanding := h.outstanding_pos hp (by rw [hw]; rfl)
    have hroom : old + (l.flatMap (·.2)).length + c.n1 i ≤ total := by
      have htodo : c.n1 i ≤ (y.proc p).todo.flatten.length := by
        rw [hw, Writer.todo]
        dsimp only [Writer.done]
        rw [pieces_cons c hlt, cons_append, flatten_cons, length_append, length_piece]
        omega
      have := Finset.single_le_sum (f := fun q => (y.proc q).todo.flatten.length) (fun _ _ => Nat.zero_le _)
        (Finset.mem_range.2 hp)
      have := h.room
      dsimp only at *
      omega
    have hsrc : ∀ j < c.n1 i, ((Src.user c.mem c.addr).from i).byte j ≠ none := by
      intro j hj
      have := h.mapped p c (by rw [hw]; exact mem_cons_self) (i + j) (by omega)
      rwa [← Nat.add_assoc] at this
    obtain ⟨r, st, he, rfl⟩ := run_some hs
    have hwrite := writei_has (s := { y.st with myproc := p }) hl hhas hop hpos (by omega) hsrc
    have hprog : wp (do
        let ff := (← get).ftable f
        Fs.writei sb ff.ip ((Src.user c.mem c.addr).from i) ff.off (c.n1 i)) _ _ { y.st with myproc := p } :=
      (wp_bind _ _).2 (wp_get.2 (by dsimp only; rw [h.has.ip, hoff]; exact hwrite))
    obtain ⟨rfl, ⟨t', hhas'⟩, ho, hft, hlk⟩ := hprog.ok he
    refine ⟨t', _, h.move hp [c.piece i] rfl ?_ ?_ ?_ (h.lock_same hlk fun _ => by rw [hw]; rfl) ⟨hlt, rfl⟩ ?_ ?_ ?_ ?_⟩
    · rw [show (l ++ [c.piece i].map fun x => (p, x)).flatMap (·.2) = l.flatMap (·.2) ++ c.piece i by simp]
      exact hhas'
    · simp [hw, ho, Pc.inTx]
    · simp [hw, hft, Pc.lag, length_piece]
    · simp [hw, Writer.todo, Writer.done, pieces_cons c hlt]
    · simp [length_piece, Write.n1]
    · simp [hw]
    · simp [hw]
  | advance r =>
    obtain ⟨hlt, rfl⟩ : i < c.n ∧ r = c.n1 i := hmine
    have hpos : 0 < c.n1 i := Nat.lt_min.2 ⟨by omega, chunk_pos⟩
    have hlag : (y.st.ftable f).off + c.n1 i ≤ total := by
      have hone : (y.proc p).pc.lag ≤ ∑ q ∈ Finset.range N, (y.proc q).pc.lag :=
        Finset.single_le_sum (f := fun q => (y.proc q).pc.lag) (fun _ _ => Nat.zero_le _) (Finset.mem_range.2 hp)
      have hl : (y.proc p).pc.lag = c.n1 i := by rw [hw]; rfl
      have := h.off
      have := h.room
      omega
    have hbig : MAXFILE * BSIZE = 274432 := rfl
    obtain ⟨_, st, he, rfl⟩ := run_some hs
    have hst : st = { y.st with
        myproc := p
        ftable := update y.st.ftable f { y.st.ftable f with off := (y.st.ftable f).off + c.n1 i } } := by
      refine wp.ok (Q := fun _ s' => s' = _) (E := fun _ _ => True) ?_ he
      rw [if_pos (by omega)]
      unfold setFile
      rw [wp_modify]
      simp only [Int.toNat_natCast]
      rw [Nat.mod_eq_of_lt (by omega)]
    subst hst
    refine h.still hp (hhas.frame (hhas.inv.blocks rfl hhas.inv.files fun _ _ => rfl) rfl rfl rfl rfl ?_ ?_ ?_) ?_ ?_
      (h.lock_same rfl ?_) ⟨hlt, rfl⟩ ?_ ?_ ?_
    all_goals simp [hw, Pc.inTx, Pc.lag, Pc.locks, Writer.todo, Writer.done]
  | iunlock r =>
    obtain ⟨hlt, hr⟩ : i < c.n ∧ r = c.n1 i := hmine
    obtain ⟨_, st, he, rfl⟩ := run_some hs
    have hunlock : wp (do Fs.iunlock ((← get).ftable f).ip) _ _ { y.st with myproc := p } :=
      (wp_bind _ _).2 (wp_get.2 (by rw [hhas.ip]; exact iunlock_has hhas))
    obtain ⟨hhas', ho, hft⟩ := hunlock.ok he
    refine h.still hp hhas' ?_ ?_ (fun q hq => ?_) ⟨hlt, hr⟩ ?_ ?_ ?_
    case refine_3 =>
      -- only the process itself holds the lock
      have hp := h.lock p (by rw [hw]; rfl)
      by_cases e : q = p
      · rw [e, update_self] at hq
        cases hq
      · rw [update_of_ne e] at hq
        exact absurd (Option.some.inj ((h.lock q hq).symm.trans hp)) e
    all_goals simp [hw, ho, hft, Pc.inTx, Pc.lag, Writer.todo, Writer.done]
  | endOp r =>
    obtain ⟨hlt, rfl⟩ : i < c.n ∧ r = c.n1 i := hmine
    obtain ⟨_, st, he, rfl⟩ := run_some hs
    obtain ⟨hhas', ho, hic, hft⟩ := (endOp_has hhas).ok he
    have hle : i + c.n1 i ≤ c.n := by
      have : c.n1 i ≤ c.n - i := Nat.min_le_left _ _
      omega
    rw [if_neg (by omega), if_neg (by simp)]
    refine h.still hp hhas' ?_ ?_ (h.lock_same (by rw [hic]) ?_) hle ?_ ?_ ?_
    all_goals simp [hw, ho, hft, Pc.inTx, Pc.lag, Pc.locks, Writer.todo, Writer.done]
  | panic => cases hs

end Ok

/-! ## Runs -/

def size (y : Sys) (k : Nat) : Nat := (y.st.icache k).di.size

def byte (y : Sys) (k o : Nat) : UInt8 := byteAt sb (fun _ => (y.st.icache k).di) y.st.blk (y.st.icache k).inum o

/-- The processes `0 .. N - 1` are to make calls of `filewrite` on file `f`, whose offset is at the end of the file. -/
structure Start (N f k : Nat) (y : Sys) : Prop where
  layout : Layout sb
  inv : ∃ t, Inv sb none t y.st
  live : Live y.st k
  regular : (y.st.icache k).di.type ≠ T_DIR
  ip : (y.st.ftable f).ip = k
  type : (y.st.ftable f).type = .inode
  writable : (y.st.ftable f).writable = true
  off : (y.st.ftable f).off = size y k
  idle : ∀ p, (y.proc p).pc = .start ∧ (y.proc p).i = 0 ∧ (y.proc p).rets = []
  outside : y.st.outstanding = 0
  few : ∀ p, N ≤ p → (y.proc p).calls = []
  mapped : ∀ p, ∀ c ∈ (y.proc p).calls, c.Mapped
  room : size y k + ∑ p ∈ Finset.range N, ((y.proc p).calls.map (·.n)).sum ≤ MAXFILE * BSIZE

/-- The file in `y` is the one in `y₀`, with the transactions `l` appended. -/
structure Appended (N f k : Nat) (y₀ y : Sys) (l : List (Nat × List UInt8)) : Prop where
  size : size y k = size y₀ k + (l.flatMap (·.2)).length
  kept : ∀ o < Shared.size y₀ k, byte sb y k o = byte sb y₀ k o
  bytes : ∀ o < (l.flatMap (·.2)).length, byte sb y k (Shared.size y₀ k + o) = (l.flatMap (·.2)).getD o 0
  small : ∀ c ∈ l, c.2.length ≤ 3 * BSIZE
  /-- The transactions of a process are those of its calls, in order. -/
  order : ∀ p, (l.filter (·.1 = p)).map (·.2) ++ (y.proc p).todo = (y₀.proc p).calls.flatMap (·.pieces 0)
  alive : ∀ p, (y.proc p).pc ≠ .panic
  /-- Once all calls have returned, everything is in the file and the offset is at its end. -/
  final : (∀ p, (y.proc p).calls = []) →
    Shared.size y k = Shared.size y₀ k + ∑ p ∈ Finset.range N, ((y₀.proc p).calls.map (·.n)).sum ∧
    (y.st.ftable f).off = Shared.size y k ∧
    ∀ p, (y.proc p).rets = (y₀.proc p).calls.map (fun c => (c.n : Int)) ∧
      (l.filter (·.1 = p)).map (·.2) = (y₀.proc p).calls.flatMap (·.pieces 0)

section Runs
variable {sb} {N f k : Nat} {y₀ y : Sys}

theorem byteAt_table {t t' : Table} {blk : Nat → Arr} {i o : Nat} (h : t i = t' i) :
    byteAt sb t blk i o = byteAt sb t' blk i o := by
  unfold byteAt ref
  rw [h]

theorem length_calls (calls : List Write) : (calls.flatMap (·.pieces 0)).flatten.length = (calls.map (·.n)).sum := by
  induction calls with
  | nil => rfl
  | cons c calls ih =>
    rw [flatMap_cons, flatten_append, length_append, ih, length_pieces, map_cons, sum_cons,
      Nat.sub_zero]

theorem Start.ok (h : Start sb N f k y₀) :
    ∃ t, Ok sb N f k (size y₀ k) (byte sb y₀ k)
      (size y₀ k + ∑ p ∈ Finset.range N, ((y₀.proc p).calls.map (·.n)).sum) y₀ y₀ t [] := by
  obtain ⟨t, hinv⟩ := h.inv
  have hdi := hinv.di h.live
  have hproc : ∀ p, y₀.proc p = ⟨(y₀.proc p).calls, .start, 0, []⟩ := by
    intro p
    obtain ⟨h1, h2, h3⟩ := h.idle p
    rw [← h1, ← h2, ← h3]
  refine ⟨t, ⟨hinv, h.live, hdi ▸ h.regular, h.ip, h.type, h.writable, ?_, fun o _ => ?_, fun o ho => ?_⟩, ?_, ?_, ?_,
    fun p hp => ?_, fun p => ?_, h.few, h.mapped, fun p => rfl, fun c hc => ?_, fun p => rfl⟩
  · rw [← hdi]
    rfl
  · exact byteAt_table hdi.symm
  · cases ho
  · rw [flatMap_nil, length_nil, Nat.add_zero]
    refine congrArg _ (Finset.sum_congr rfl fun p _ => ?_)
    rw [hproc p, todo_start, length_calls]
  · rw [h.outside]
    refine (Finset.sum_eq_zero fun p _ => ?_).symm
    rw [(h.idle p).1]
    rfl
  · rw [h.off, Finset.sum_eq_zero fun p _ => by rw [(h.idle p).1]; rfl]
    rfl
  · rw [(h.idle p).1] at hp
    cases hp
  · rw [hproc p]
    unfold Writer.Ok
    cases (y₀.proc p).calls <;> rfl
  · cases hc

/-- Whatever the interleaving, the chunks of the calls are appended one after the other, each process's in order. -/
theorem shared_writes (h₀ : Start sb N f k y₀) (h : Reach (· = y₀) (fun y p y' => step sb f p y = some y') y) :
    ∃ l, Appended sb N f k y₀ y l := by
  obtain ⟨t₀, hok₀⟩ := h₀.ok
  obtain ⟨t, l, hok⟩ := h.inv (fun y => ∃ t l, Ok sb N f k (size y₀ k) (byte sb y₀ k)
      (size y₀ k + ∑ p ∈ Finset.range N, ((y₀.proc p).calls.map (·.n)).sum) y₀ y t l)
    (fun y hy => by rw [hy]; exact ⟨t₀, [], hok₀⟩) (fun y p y' ⟨t, l, hy⟩ hs => step_ok h₀.layout h₀.room hy hs)
  have hdi := hok.has.inv.di hok.has.live
  have hsize : size y k = size y₀ k + (l.flatMap (·.2)).length := by
    rw [← hok.has.size, ← hdi]
    rfl
  have hbyte : ∀ o, byte sb y k o = byteAt sb t y.st.blk (y.st.icache k).inum o := fun o => byteAt_table hdi
  have hstart : ∀ p, (y₀.proc p).todo = (y₀.proc p).calls.flatMap (·.pieces 0) := by
    intro p
    obtain ⟨h1, h2, h3⟩ := h₀.idle p
    rw [← todo_start _ (y₀.proc p).rets, ← h1, ← h2]
  have horder : ∀ p, (l.filter (·.1 = p)).map (·.2) ++ (y.proc p).todo = (y₀.proc p).calls.flatMap (·.pieces 0) := by
    intro p
    rw [← hstart]
    exact hok.order p
  refine ⟨l, hsize, fun o ho => ?_, fun o ho => ?_, hok.small, horder, fun p hp => ?_, fun hdone => ?_⟩
  · rw [hbyte]
    exact hok.has.before o ho
  · rw [hbyte]
    exact hok.has.after o ho
  · have := hok.each p
    unfold Writer.Ok at this
    rw [hp] at this
    cases hc : (y.proc p).calls <;> simp [hc] at this
  · have htodo : ∀ p, (y.proc p).todo = [] := fun p => by unfold Writer.todo; rw [hdone p]
    have hlag : ∀ p, (y.proc p).pc.lag = 0 := by
      intro p
      have := hok.each p
      unfold Writer.Ok at this
      rw [hdone p] at this
      rw [this]
      rfl
    have hroom := hok.room
    have hoff := hok.off
    rw [Finset.sum_eq_zero fun p _ => by rw [htodo p]; rfl] at hroom
    rw [Finset.sum_eq_zero fun p _ => hlag p] at hoff
    refine ⟨by omega, by omega, fun p => ⟨?_, ?_⟩⟩
    · have := hok.rets p
      rwa [hdone p, (h₀.idle p).2.2, map_nil, append_nil, nil_append] at this
    · have := horder p
      rwa [htodo p, append_nil] at this

end Runs

/-! ## Two writers -/

/-- The processes take the steps of a schedule. -/
def runs (f : Nat) : List Nat → Sys → Option Sys
  | [], y => some y
  | p :: ps, y => (step sb f p y).bind (runs f ps)

variable {sb} in
theorem reach_runs {f : Nat} {y₀ : Sys} : ∀ (ps : List Nat) {y y' : Sys},
    Reach (· = y₀) (fun y p y' => step sb f p y = some y') y → runs sb f ps y = some y' →
    Reach (· = y₀) (fun y p y' => step sb f p y = some y') y' := by
  intro ps
  induction ps with
  | nil =>
    intro y y' h hr
    rwa [← Option.some.inj hr]
  | cons p ps ih =>
    intro y y' h hr
    obtain ⟨y₁, h₁, h₂⟩ := Option.bind_eq_some_iff.1 hr
    exact ih (.step h h₁) h₂

/-- The file "f" is open; process 0 is to write two bytes, and process 1 three. -/
def twoWriters : Sys where
  st :=
    { blk := tinyDisk
      disk := tinyDisk
      icache := fun k => ⟨ROOTDEV, 2, if k = 0 then 1 else 0, none, true, dinode tinySb tinyDisk 2⟩
      ftable := fun _ => ⟨.inode, 2, true, true, 0, 0, 4, 0⟩
      pipes := fun _ => none
      proc := fun _ => ⟨true, fun _ => some 0, none⟩
      myproc := 0
      outstanding := 0
      lh := []
      trace := [] }
  proc p := ⟨if p = 0 then [⟨fun _ => some 7, 0, 2⟩] else if p = 1 then [⟨fun _ => some 9, 0, 3⟩] else [], .start, 0, []⟩

theorem start_twoWriters : Start tinySb 2 0 0 twoWriters := by
  have href : ∀ k, 0 < (twoWriters.st.icache k).ref → k = 0 := by
    intro k hk
    by_contra hne
    simp [twoWriters, hne] at hk
  refine ⟨layout_tiny, ⟨dinode tinySb tinyDisk, files_tiny, fun _ _ _ => rfl, fun k => ?_, fun k _ _ => ⟨rfl, (by decide : 2 < 3)⟩,
    fun k _ k' _ hk hk' _ => ?_, fun k _ _ _ => ⟨rfl, ?_⟩⟩, ⟨by decide, by decide, rfl⟩, by decide +kernel, rfl, rfl, rfl,
    by decide +kernel, fun p => ⟨rfl, rfl, rfl⟩, rfl, fun p hp => ?_, fun p c hc j hj => ?_, by decide +kernel⟩
  · show (0 : Int) ≤ if k = 0 then 1 else 0
    split <;> omega
  · rw [href k hk, href k' hk']
  · show (dinode tinySb tinyDisk 2).type ≠ 0
    decide +kernel
  · show (if p = 0 then _ else if p = 1 then _ else _) = []
    rw [if_neg (by omega), if_neg (by omega)]
  · have : c = ⟨fun _ => some 7, 0, 2⟩ ∨ c = ⟨fun _ => some 9, 0, 3⟩ := by
      simp only [twoWriters] at hc
      split at hc
      · exact .inl (mem_singleton.1 hc)
      · split at hc
        · exact .inr (mem_singleton.1 hc)
        · cases hc
    rcases this with rfl | rfl <;> simp

/-- Process 1 has to wait for the lock, and writes after process 0. -/
def schedule : List Nat := [0, 1, 0, 1, 0, 0, 0, 0, 1, 0, 1, 1, 1, 1, 0, 1]

theorem shared_writes_two : ∃ y, runs tinySb 0 schedule twoWriters = some y ∧ (∃ l, Appended tinySb 2 0 0 twoWriters y l) ∧
    size y 0 = 9 := by
  have hsome : ((runs tinySb 0 schedule twoWriters).map fun y => size y 0) = some 9 := by decide +kernel
  obtain ⟨y, hy, hsize⟩ := Option.map_eq_some_iff.1 hsome
  exact ⟨y, hy, shared_writes start_twoWriters (reach_runs schedule (.init rfl) hy), hsize⟩

end Xv6.Fs.Shared
