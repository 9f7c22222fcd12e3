import Mathlib.Data.List.Basic
import Mathlib.Logic.Function.Basic

/-!
# Linked lists

A pointer leads to a list of nodes if following the next pointers visits just these, and ends
(`Chain`).  A write to a node that is not visited changes nothing, and a write to one that is visited
once replaces what comes behind it (`Chain.splice`).
-/

namespace LinkedList

open List Function

variable {ι : Type*} [DecidableEq ι] {next : ι → Option ι} {p q : Option ι} {a : ι} {l l₁ l₂ l₃ : List ι}

/-- Following the next pointers from `p` visits the nodes of the list and ends. -/
def Chain (next : ι → Option ι) : Option ι → List ι → Prop
  | p, [] => p = none
  | p, a :: l => p = some a ∧ Chain next (next a) l

omit [DecidableEq ι] in
theorem Chain.head (h : Chain next p l) : p = l.head? := by
  cases l with
  | nil => exact h
  | cons a l => exact h.1

theorem Chain.update_of_notMem (h : Chain next p l) (ha : a ∉ l) : Chain
    (Function.update next a q) p l := by
  induction l generalizing p with
  | nil => exact h
  | cons b l ih =>
    have hb : b ≠ a := fun hb => ha (hb ▸ mem_cons_self)
    refine ⟨h.1, ?_⟩
    rw [update_of_ne hb]
    exact ih h.2 fun hm => ha (mem_cons_of_mem b hm)

/-- A node gets another list behind it. -/
theorem Chain.splice (h : Chain next p (l₁ ++ a :: l₂)) (hq : Chain next q l₃) (h₁ : a ∉ l₁)
    (h₃ : a ∉ l₃) :
    Chain (Function.update next a q) p (l₁ ++ a :: l₃) := by
  induction l₁ generalizing p with
  | nil =>
    refine ⟨h.1, ?_⟩
    rw [update_self]
    exact hq.update_of_notMem h₃
  | cons b l₁ ih =>
    have hb : b ≠ a := fun hb => h₁ (hb ▸ mem_cons_self)
    refine ⟨h.1, ?_⟩
    rw [update_of_ne hb]
    exact ih h.2 fun hm => h₁ (mem_cons_of_mem b hm)

end LinkedList
