import Mathlib.Logic.Function.Basic
import Mathlib.Tactic

/-!
# Items spread over places

`routed place items i` are the items that go to the place `i`, in their order.

* An array with an entry for each place that is added to item by item holds the sum over the items of
  the place (`tally_eq_foldl`).
* The items of all places together are the items, in another order (`flatMap_routed_perm`).
* A text with a separator between its parts grows by a separator and a part (`intercalate_concat`,
  `length_intercalate`).
-/

namespace Scatter

open List

section Routed

variable {α ι M : Type} [DecidableEq ι] (place : α → ι)

def routed (items : List α) (i : ι) : List α := items.filter fun a => decide (place a = i)

variable {place} {items : List α} {a : α} {i : ι}

@[simp] theorem routed_nil : routed place [] i = [] := rfl

theorem routed_concat_self : routed place (items ++ [a]) (place a) = routed place items
    (place a) ++ [a] := by
  simp [routed]

theorem routed_concat_of_ne (h : place a ≠ i) :
    routed place (items ++ [a]) i = routed place items i := by
  simp [routed, h]

theorem mem_routed : a ∈ routed place items i ↔ a ∈ items ∧ place a = i := by
  simp [routed]

def tally [Add M] [Zero M] (place : α → ι) (weight : α → M) (items : List α) : ι → M :=
  items.foldl (fun array a => Function.update array (place a) (array (place a) + weight a))
    fun _ => 0

theorem foldl_update_eq [Add M] (weight : α → M) (array : ι → M) (i : ι) :
    items.foldl (fun array a => Function.update array (place a) (array (place a) + weight a)) array i =
      ((routed place items i).map weight).foldl (· + ·) (array i) := by
  induction items generalizing array with
  | nil => rfl
  | cons a rest ih =>
    rw [foldl_cons, ih]
    by_cases h : place a = i
    · subst h
      simp [routed]
    · have hn : i ≠ place a := fun e => h e.symm
      simp [routed, h, hn]

theorem tally_eq_foldl [Add M] [Zero M] (weight : α → M) :
    tally place weight items i = ((routed place items i).map weight).foldl (· + ·) 0 :=
  foldl_update_eq weight _ i

/-- Every item goes to one place. -/
theorem flatMap_routed_perm {is : List ι} (hn : is.Nodup) (ha : ∀ a ∈ items, place a ∈ is) :
    (is.flatMap (routed place items)).Perm items := by
  classical
  refine perm_iff_count.2 fun a => ?_
  rw [count_flatMap]
  by_cases hm : a ∈ items
  · -- the item is counted at its own place only
    have ho : ∀ i ≠ place a, i ∈ is → (count a ∘ routed place items) i = 0 := fun i hi _ =>
      count_eq_zero.2 fun h => hi (mem_routed.1 h).2.symm
    have hs : (count a ∘ routed place items) (place a) = items.count a := by
      simp [routed]
    rw [sum_map_eq_nsmul_single (place a) _ ho, hs, count_eq_one_of_mem hn (ha a hm), one_nsmul]
  · have hz : ∀ i, count a (routed place items i) = 0 := fun i =>
      count_eq_zero.2 fun h => hm (mem_routed.1 h).1
    simp [Function.comp_def, hz, count_eq_zero.2 hm]

end Routed

section Intercalate

variable {α : Type} {sep part : List α} {parts : List (List α)}

theorem intercalate_concat (h : parts ≠ []) :
    sep.intercalate (parts ++ [part]) = sep.intercalate parts ++ sep ++ part := by
  induction parts with
  | nil => exact absurd rfl h
  | cons first rest ih =>
    cases rest with
    | nil => simp
    | cons second rest =>
      have ht := ih (cons_ne_nil second rest)
      simp only [cons_append, intercalate_cons_cons] at ht ⊢
      rw [ht]
      simp only [append_assoc]

theorem length_intercalate (h : parts ≠ []) : (sep.intercalate parts).length + sep.length =
      (parts.map fun part => part.length + sep.length).sum := by
  induction parts with
  | nil => exact absurd rfl h
  | cons first rest ih =>
    cases rest with
    | nil => simp
    | cons second rest =>
      have ht := ih (cons_ne_nil second rest)
      rw [intercalate_cons_cons, map_cons, sum_cons]
      simp only [length_append]
      omega

theorem map_intercalate {β : Type} (f : α → β) :
    (sep.intercalate parts).map f = (sep.map f).intercalate (parts.map (List.map f)) := by
  induction parts with
  | nil => rfl
  | cons first rest ih =>
    cases rest with
    | nil => simp
    | cons second rest =>
      rw [map_cons] at ih
      rw [intercalate_cons_cons, map_cons, map_cons, intercalate_cons_cons,
        map_append, map_append, ih]

theorem mem_intercalate (hp : part ∈ parts) (ha : a ∈ part) : a ∈ sep.intercalate parts := by
  induction parts with
  | nil => exact absurd hp not_mem_nil
  | cons first rest ih =>
    cases rest with
    | nil =>
      obtain rfl := mem_singleton.1 hp
      simpa using ha
    | cons second rest =>
      rw [intercalate_cons_cons, mem_append, mem_append]
      rcases mem_cons.1 hp with rfl | hm
      · exact Or.inl (Or.inl ha)
      · exact Or.inr (ih hm)

end Intercalate

end Scatter
