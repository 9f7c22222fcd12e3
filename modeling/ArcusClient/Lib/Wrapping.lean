import Mathlib.Data.List.Basic
import Mathlib.Tactic

/-!
# An array that is written round and round

A counter that wraps around at `m` is the index of the next write.  Entries that are written again have
their last value.  So after more than `m` writes the array begins with the values of the last lap
(`take_wrapped`), and at the end of a lap it is that lap (`head?_wrapped`).
-/

namespace Wrapping

open List

variable {α : Type}

/-- A write to an entry of the array, or to the one behind its end. -/
def rewrite (a : List α) (w : Nat × α) : List α :=
  if w.1 < a.length then a.set w.1 w.2 else a ++ [w.2]

/-- The array after these writes. -/
def rewrites (writes : List (Nat × α)) : List α := writes.foldl rewrite []

/-- Writes to entries that follow each other. -/
theorem foldl_rewrite {a l : List α} {i : Nat} (hi : i ≤ a.length) :
    ((range' i l.length).zip l).foldl rewrite a = a.take i ++ l ++ a.drop (i + l.length) := by
  induction l generalizing a i with
  | nil => simp
  | cons x l ih =>
    rw [length_cons, range'_succ, zip_cons_cons, foldl_cons, rewrite]
    split_ifs with hl
    · have ht : (a.set i x).take (i + 1) = a.take i ++ [x] := by
        rw [take_succ_eq_append_getElem (by simpa using hl), take_set_of_le (le_refl i)]
        simp
      rw [ih (by simpa using hl), ht, drop_set_of_lt (by omega)]
      simp [Nat.add_comm, Nat.add_left_comm]
    · obtain rfl : i = a.length := by simp at hl; omega
      rw [ih (by simp), take_of_length_le (by simp), drop_of_length_le (by simp)]
      simp

theorem rewrites_range (l : List α) : rewrites ((range l.length).zip l) = l := by
  rw [rewrites, range_eq_range', foldl_rewrite (Nat.zero_le _)]
  simp

variable {m : Nat}

theorem map_mod_range_add (q n : Nat) : (range (q * m + n)).map (· % m) =
    (range (q * m)).map (· % m) ++ (range n).map (· % m) := by
  rw [range_add, map_append, map_map]
  congr 1
  exact map_congr_left fun k _ => Nat.mul_add_mod_self_right q m k

theorem map_mod_range_of_le {n : Nat} (hn : n ≤ m) : (range n).map (· % m) = range n := by
  refine (map_congr_left fun k hk => ?_).trans (map_id _)
  exact Nat.mod_eq_of_lt ((mem_range.1 hk).trans_le hn)

/-- What is written to the front of the array after whole laps. -/
theorem rewrites_append {l r : List α} (hl : l.length = q * m) (hr : r.length ≤ m) :
    rewrites (((range (q * m + r.length)).map (· % m)).zip (l ++ r)) =
      r ++ (rewrites (((range (q * m)).map (· % m)).zip l)).drop r.length := by
  have hf (a : List α) : ((range r.length).zip r).foldl rewrite a = r ++ a.drop r.length := by
    rw [range_eq_range', foldl_rewrite (Nat.zero_le _)]
    simp
  rw [map_mod_range_add, zip_append (by simp [hl]), rewrites, foldl_append, map_mod_range_of_le hr, hf,
    rewrites]

/-- After whole laps the array is the last one. -/
theorem rewrites_laps (q : Nat) {l : List α} (hl : l.length = q * m) :
    rewrites (((range (q * m)).map (· % m)).zip l) = l.drop ((q - 1) * m) := by
  induction q generalizing l with
  | zero => simp_all [rewrites]
  | succ q ih =>
    rw [Nat.add_mul, Nat.one_mul] at hl
    have ht : (l.take (q * m)).length = q * m := by rw [length_take]; omega
    have hd : (l.drop (q * m)).length = m := by rw [length_drop]; omega
    have hr := rewrites_append ht hd.le
    rw [take_append_drop, hd, ih ht] at hr
    have hz : ((l.take (q * m)).drop ((q - 1) * m)).drop m = [] := by
      rw [drop_drop, ← Nat.succ_mul]
      refine drop_of_length_le (ht.trans_le (Nat.mul_le_mul_right m ?_))
      omega
    rw [Nat.add_mul, Nat.one_mul, hr, hz, append_nil, Nat.add_sub_cancel]

variable (l : List α)

/-- The array after the values of the list. -/
def wrapped (m : Nat) (l : List α) : List α := rewrites (((range l.length).map (· % m)).zip l)

theorem wrapped_eq (hm : 0 < m) : wrapped m l =
    l.drop (l.length / m * m) ++ ((l.take (l.length / m * m)).drop ((l.length / m - 1) * m)).drop
      (l.length % m) := by
  have hle : l.length / m * m ≤ l.length := Nat.div_mul_le_self _ _
  have ht : (l.take (l.length / m * m)).length = l.length / m * m := by rw [length_take]; omega
  have hd : (l.drop (l.length / m * m)).length = l.length % m := by
    have := Nat.div_add_mod' l.length m
    rw [length_drop]
    omega
  have hr := rewrites_append ht (hd.trans_lt (Nat.mod_lt _ hm)).le
  rwa [take_append_drop, hd, Nat.div_add_mod', rewrites_laps _ ht] at hr

/-- The values of the last lap are in front. -/
theorem take_wrapped (hm : 0 < m) : (wrapped m l).take (l.length % m) = l.drop (l.length / m * m) := by
  have hd : (l.drop (l.length / m * m)).length = l.length % m := by
    have := Nat.div_add_mod' l.length m
    rw [length_drop]
    omega
  rw [wrapped_eq l hm, take_left' hd]

/-- At the end of a lap its first value is in front. -/
theorem head?_wrapped (hm : 0 < m) (hl : l.length % m = 0) : (wrapped m l).head? = l[l.length - m]? := by
  have hn := Nat.div_add_mod' l.length m
  rw [hl, Nat.add_zero] at hn
  rw [wrapped_eq l hm, hl, hn, drop_length, take_length, nil_append, drop_zero, head?_drop, Nat.sub_mul, hn,
    Nat.one_mul]

theorem wrapped_of_lt (hl : l.length < m) : wrapped m l = l := by
  rw [wrapped, map_mod_range_of_le hl.le, rewrites_range]

end Wrapping
