import Xv6.Console.Stream
import Xv6.Fs.Contents
import Xv6.Pipe.Code
/-!
# How much a read stores

`fileread` gives its `int n` to `piperead` and to `consoleread`, which take it as it is,
and to `readi`, which takes it as a `uint`. The three back ends are bounded alike; for a
file a negative `n` has to be stopped by the tests of `readi`.
-/

namespace Xv6.Fs

open Bytes Hoare Run Function List

/-- No more than was asked for. -/
def AtMost (n : Int) (r : Int × List UInt8) : Prop := r.1 ≤ max n 0 ∧ (r.2.length : Int) ≤ max n 0

/-! ## Pipes -/

section Pipe
open Xv6.Pipe
variable {P : Type} [DecidableEq P]

end Pipe

/-! ## The console -/

section Console
open Xv6.Console
variable {P : Type} [DecidableEq P]

theorem consoleread_le {killed : Bool} {dst : Nat → Bool} {target n : Nat} {s : Cons} :
    (consoleread killed dst target n s).out.length + (consoleread killed dst target n s).left ≤ n := by
  induction n generalizing s with
  | zero => exact Nat.le_refl _
  | succ n ih =>
    unfold consoleread
    split
    · simp
    · dsimp only
      split
      · simp
      · split
        · simp
        · split
          · simp only [length_cons, length_nil]
            omega
          · have hle := @ih { s with r := (s.r + 1) % 2 ^ 32 }
            simp only [length_cons]
            omega

/-- What a call has copied out and what is left of it are what it was asked for, or less. -/
structure ConsBounded (s : Console.St P) : Prop where
  calls : ∀ p c, (s.pc p).call = some c → c.out.length + c.left ≤ c.n.toNat
  rets : ∀ r ∈ s.rets, AtMost r.n (r.value, r.out)

theorem ConsBounded.goto {s : Console.St P} (h : ConsBounded s) {p : P} {pc : Console.Pc} {cons : Cons}
    {log : List (Nat × UInt8)} {rets : List (Console.Ret P)} {calls : Nat}
    (hpc : ∀ c, pc.call = some c → c.out.length + c.left ≤ c.n.toNat) (hrets : ∀ r ∈ rets, AtMost r.n (r.value, r.out)) :
    ConsBounded { s with cons, log, rets, calls, pc := update s.pc p pc } where
  calls q c hc := by
    dsimp only at hc
    by_cases hq : q = p
    · subst hq
      rw [update_self] at hc
      exact hpc c hc
    · rw [update_of_ne hq] at hc
      exact h.calls q c hc
  rets := hrets

theorem ConsBounded.afterRead {s : Console.St P} (h : ConsBounded s) {p : P} {c : Console.Call} {k : Section}
    (hc : c.out.length + c.left ≤ c.n.toNat) (hk : k.out.length + k.left ≤ c.left) :
    ConsBounded (afterRead s p c k) := by
  have hnew : (c.out ++ k.out).length + k.left ≤ c.n.toNat := by
    rw [length_append]
    omega
  have hret : ∀ v : Int, v ≤ max c.n 0 → ∀ r ∈ s.rets ++ [⟨p, c.id, c.n, v, c.out ++ k.out⟩],
      AtMost r.n (r.value, r.out) := by
    intro v hv r hr
    rcases mem_append.mp hr with hr | hr
    · exact h.rets r hr
    · rw [mem_singleton.mp hr]
      refine ⟨hv, ?_⟩
      dsimp only
      omega
  unfold Console.afterRead
  cases k.how with
  | sleep =>
    refine h.goto ?_ h.rets
    rintro c' ⟨⟩
    exact hnew
  | fail =>
    refine h.goto ?_ (hret _ (by omega))
    rintro c' ⟨⟩
  | done =>
    refine h.goto ?_ (hret _ (by omega))
    rintro c' ⟨⟩

theorem ConsBounded.next {s s' : Console.St P} {e : Console.Event P} (h : ConsBounded s) (hs : Console.Step s e s') :
    ConsBounded s' := by
  cases e with
  | intr ch =>
    obtain rfl := Option.some.inj hs
    refine ⟨?_, h.rets⟩
    intro p c hc
    apply h.calls p c
    dsimp only at hc
    split at hc
    · rwa [Pc.call_wake] at hc
    · exact hc
  | call p dst n =>
    simp only [Console.Step, Console.next] at hs
    split at hs
    · obtain rfl := Option.some.inj hs
      refine h.goto ?_ h.rets
      rintro c ⟨⟩
      simp
    · cases hs
  | read p =>
    simp only [Console.Step, Console.next] at hs
    split at hs
    · next c hpc =>
      obtain rfl := Option.some.inj hs
      refine h.afterRead (h.calls p c ?_) consoleread_le
      rw [hpc]
      rfl
    · cases hs
  | kill p =>
    obtain rfl := Option.some.inj hs
    refine ⟨?_, h.rets⟩
    intro q c hc
    apply h.calls q c
    by_cases hq : q = p
    · subst hq
      simpa using hc
    · simpa [update_of_ne hq] using hc

end Console

/-! ## Files -/

section Files
variable {sb : Superblock} {s : St} {k n off : Nat} {dst : Dst}

end Files

end Xv6.Fs
