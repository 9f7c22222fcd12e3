import ArcusClient.Lib.Outcome

/-!
# Loops over a range

`for (i = 0; i < n; i++)` as a function, for a body that always ends (`forLoop`) and for one that
may fail (`forLoopM`), with the rule for an invariant that speaks of the loop counter.
-/

namespace Loops

open Outcome

variable {σ ε : Type}

/-- The loop from `k` on, with `count` rounds to go. -/
def loopFrom (body : Nat → σ → σ) : (k count : Nat) → σ → σ
  | _, 0, s => s
  | k, count + 1, s => loopFrom body (k + 1) count (body k s)

/-- The loop from zero to `n`. -/
def forLoop (n : Nat) (body : Nat → σ → σ) (s : σ) : σ := loopFrom body 0 n s

/-- The loop from `k` on, with a body that may fail. -/
def loopFromM (body : Nat → σ → Except ε σ) : (k count : Nat) → σ → Except ε σ
  | _, 0, s => .ok s
  | k, count + 1, s => do
    let s ← body k s
    loopFromM body (k + 1) count s

/-- The loop from zero to `n`, with a body that may fail. -/
def forLoopM (n : Nat) (body : Nat → σ → Except ε σ) (s : σ) : Except ε σ := loopFromM body 0 n s

variable {n : Nat} {I : Nat → σ → Prop}

variable {k count : Nat} {s : σ}

theorem loopFrom_invariant {body : Nat → σ → σ} (hst : ∀ k s, k < n → I k s → I (k + 1) (body k s))
    (hc : k + count = n) (hs : I k s) : I n (loopFrom body k count s) := by
  induction count generalizing k s with
  | zero =>
    have hk : k = n := by omega
    exact hk ▸ hs
  | succ count ih => exact ih (by omega) (hst k s (by omega) hs)

/-- What holds at the start and is kept by every round holds at the end. -/
theorem forLoop_invariant {body : Nat → σ → σ} (hst : ∀ k s, k < n → I k s → I (k + 1) (body k s))
    (hs : I 0 s) : I n (forLoop n body s) :=
  loopFrom_invariant hst (Nat.zero_add n) hs

variable {body : Nat → σ → Except ε σ}

theorem loopFromM_invariant {E : ε → Prop}
    (hst : ∀ k s, k < n → I k s → Ends E (I (k + 1)) (body k s)) (hc : k + count = n) (hs : I k s) :
    Ends E (I n) (loopFromM body k count s) := by
  induction count generalizing k s with
  | zero =>
    have hk : k = n := by omega
    exact hk ▸ hs
  | succ count ih =>
    refine (hst k s (by omega) hs).bind fun t ht => ?_
    exact ih (by omega) ht

/-- A loop that ends has been through every round. -/
theorem loopFromM_ok (h : loopFromM body k count s = .ok s') (hk : k ≤ i) (hi : i < k + count) :
    ∃ t t', body i t = .ok t' := by
  induction count generalizing k s with
  | zero => omega
  | succ count ih =>
    cases hb : body k s with
    | error e => simp [loopFromM, hb, bind, Except.bind] at h
    | ok t =>
      obtain rfl | hl := Nat.eq_or_lt_of_le hk
      · exact ⟨s, t, hb⟩
      · simp only [loopFromM, hb] at h
        exact ih h hl (by omega)

theorem forLoopM_ok (h : forLoopM n body s = .ok s') (hi : i < n) : ∃ t t', body i t = .ok t' :=
  loopFromM_ok h (Nat.zero_le i) (by omega)

theorem forLoopM_invariant {E : ε → Prop}
    (hst : ∀ k s, k < n → I k s → Ends E (I (k + 1)) (body k s)) (hs : I 0 s) :
    Ends E (I n) (forLoopM n body s) :=
  loopFromM_invariant hst (Nat.zero_add n) hs

end Loops
