import Mathlib.Tactic

/-!
# Memory

A buffer is a function from its indices to its cells.  Nothing is said about where it ends.

* `slice m p n` are the `n` cells from index `p` on, as a list.
* `store m p l` writes a list from index `p` on, as `memcpy`, `memmove` and a read from a socket do.
-/

namespace Memory

open List

variable {α : Type}

/-- The `n` cells from index `p` on. -/
def slice (m : Nat → α) (p n : Nat) : List α := (List.range n).map fun i => m (p + i)

/-- The cells from index `p` on become those of the list. -/
def store (m : Nat → α) (p : Nat) (l : List α) (i : Nat) : α :=
  if p ≤ i then (l[i - p]?).getD (m i) else m i

@[simp] theorem length_slice (m : Nat → α) (p n : Nat) : (slice m p n).length = n := by
  simp [slice]

@[simp] theorem slice_zero (m : Nat → α) (p : Nat) : slice m p 0 = [] := rfl

theorem slice_add (m : Nat → α) (p a b : Nat) :
    slice m p (a + b) = slice m p a ++ slice m (p + a) b := by
  simp [slice, range_add, Nat.add_assoc]

/-- A slice is told from its cells. -/
theorem slice_congr {m m' : Nat → α} (h : ∀ i < n, m (p + i) = m' (q + i)) :
    slice m p n = slice m' q n :=
  map_congr_left fun i hi => h i (mem_range.1 hi)

/-- What was stored is there. -/
theorem slice_store (m : Nat → α) (p : Nat) (l : List α) : slice (store m p l) p l.length = l := by
  refine ext_getElem (length_slice ..) fun i _ hi => ?_
  simp [slice, store, hi]

/-- The cells before are as they were. -/
theorem slice_store_of_le (m : Nat → α) (l : List α) (h : q + n ≤ p) :
    slice (store m p l) q n = slice m q n := by
  refine slice_congr fun i hi => ?_
  rw [store, if_neg (by omega)]

/-- A list is stored behind other cells. -/
theorem slice_store_append (m : Nat → α) (p n : Nat) (l : List α) :
    slice (store m (p + n) l) p (n + l.length) = slice m p n ++ l := by
  rw [slice_add, slice_store_of_le m l (le_refl _), slice_store]

end Memory
