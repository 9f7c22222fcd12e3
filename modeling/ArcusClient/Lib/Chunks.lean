import Mathlib.Tactic

/-!
# Chunks in a row

A stream that is written chunk by chunk (`concat`).  If each chunk can be told from another one by
how the stream begins, the chunks can be read off the stream (`concat_inj`).
-/

namespace Chunks

open List

variable {α : Type} {f g : Nat → List α}

/-- The first `n` chunks. -/
def concat (f : Nat → List α) (n : Nat) : List α := (List.range n).flatMap f

@[simp] theorem concat_zero : concat f 0 = [] := rfl

theorem concat_succ (f : Nat → List α) (n : Nat) : concat f (n + 1) = concat f n ++ f n := by
  rw [concat, range_succ, flatMap_append, flatMap_singleton]
  rfl

/-- The first chunk and the others. -/
theorem concat_first (f : Nat → List α) (n : Nat) :
    concat f (n + 1) = f 0 ++ concat (fun k => f (k + 1)) n := by
  rw [concat, range_succ_eq_map, flatMap_cons, flatMap_map]
  rfl

theorem concat_congr (h : ∀ k < n, f k = g k) : concat f n = concat g n :=
  flatMap_congr fun k hk => h k (mem_range.1 hk)

/-- Two streams are equal only if their chunks are. -/
theorem concat_inj (hd : ∀ k a b, f k ++ a = g k ++ b → f k = g k) (hf : ∀ k, f k ≠ [])
    (hg : ∀ k, g k ≠ []) (h : concat f m = concat g n) : m = n ∧ ∀ k < m, f k = g k := by
  induction m generalizing n f g with
  | zero =>
    cases n with
    | zero => exact ⟨rfl, fun k hk => absurd hk (Nat.not_lt_zero k)⟩
    | succ n =>
      rw [concat_first] at h
      exact absurd (append_eq_nil_iff.1 h.symm).1 (hg 0)
  | succ m ih =>
    cases n with
    | zero =>
      rw [concat_first] at h
      exact absurd (append_eq_nil_iff.1 h).1 (hf 0)
    | succ n =>
      rw [concat_first, concat_first] at h
      have hfi := hd 0 _ _ h
      rw [hfi, append_cancel_left_eq] at h
      obtain ⟨hm, hr⟩ := ih (fun k => hd (k + 1)) (fun k => hf (k + 1))
        (fun k => hg (k + 1)) h
      refine ⟨congrArg (· + 1) hm, fun k hk => ?_⟩
      cases k with
      | zero => exact hfi
      | succ k => exact hr k (by omega)

end Chunks
