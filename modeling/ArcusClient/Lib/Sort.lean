import Mathlib.Data.List.Sort
import Mathlib.Order.Lex
import Mathlib.Tactic

/-!
# Sorting and searching as the C library does them

`qsort` is known by its contract: it returns a rearrangement of the array, which is sorted when the
comparison function is consistent.  `Qsort` is the structure of all functions that keep the contract,
so a statement over every `Qsort` covers every implementation, stable or not.  The entries that none
of them moves are those of `Qsort.leading_run_iff`.

`lowerBound` is the binary search that narrows a half-open interval.
-/

/-! ## Comparison functions -/

/-- A comparison function that sorts by a key: it is at most zero exactly when
the first key is not above the second. -/
def CmpByKey {α K : Type} [LE K] (cmp : α → α → Int) (key : α → K) : Prop :=
  ∀ a b, cmp a b ≤ 0 ↔ key a ≤ key b

/-- Any two elements compare one way or the other. -/
def CmpTotal {α : Type} (cmp : α → α → Int) : Prop :=
  ∀ a b, cmp a b ≤ 0 ∨ cmp b a ≤ 0

def CmpTrans {α : Type} (cmp : α → α → Int) : Prop :=
  ∀ a b c, cmp a b ≤ 0 → cmp b c ≤ 0 → cmp a c ≤ 0

/-- `qsort`, known by its contract. -/
structure Qsort where
  /-- The array after the call. -/
  run : {α : Type} → (α → α → Int) → List α → List α
  /-- Nothing is lost or added. -/
  perm : ∀ {α : Type} (cmp : α → α → Int) (l : List α), (run cmp l).Perm l
  /-- A consistent comparison function yields a sorted array. -/
  sorted : ∀ {α : Type} (cmp : α → α → Int) (l : List α), CmpTotal cmp → CmpTrans cmp →
    (run cmp l).Pairwise fun a b => cmp a b ≤ 0

namespace Qsort

open List

variable {α K : Type}

variable {cmp : α → α → Int} {key : α → K}

/-- Sorting by a comparison of keys orders the keys. -/
theorem sorted_key [LinearOrder K] (q : Qsort) (h : CmpByKey cmp key) (l : List α) :
    (q.run cmp l).Pairwise fun a b => key a ≤ key b := by
  have ht : CmpTotal cmp := fun a b => by
    rw [h a b, h b a]
    exact le_total _ _
  have htr : CmpTrans cmp := fun a b c ha hb => by
    rw [h] at ha hb ⊢
    exact le_trans ha hb
  exact (q.sorted cmp l ht htr).imp fun ha => (h _ _).1 ha

variable {l : List α}

/-- An array whose keys are in order keeps its keys. -/
theorem map_run_of_sorted [LinearOrder K] (q : Qsort)
    (h : CmpByKey cmp key) (hl : l.Pairwise fun a b => cmp a b ≤ 0) :
    (q.run cmp l).map key = l.map key := by
  have hk : (l.map key).Pairwise (· ≤ ·) := by
    rw [pairwise_map]
    exact hl.imp fun ha => (h _ _).1 ha
  have hr : ((q.run cmp l).map key).Pairwise (· ≤ ·) := by
    rw [pairwise_map]
    exact q.sorted_key h l
  exact ((q.perm cmp l).map key).eq_of_pairwise' hr hk

/-- An array whose keys are in order without repetition stays as it is. -/
theorem run_of_strictly_sorted [LinearOrder K] (q : Qsort)
    (h : CmpByKey cmp key) (hl : l.Pairwise fun a b => key a < key b) : q.run cmp l = l := by
  have hn : (l.map key).Nodup := by
    rw [Nodup, pairwise_map]
    exact hl.imp fun hab => hab.ne
  refine (q.perm cmp l).eq_of_pairwise (fun a b ha hb hab hba => ?_) (q.sorted_key h l)
    (hl.imp fun hab => hab.le)
  exact inj_on_of_nodup_map hn ((q.perm cmp l).mem_iff.1 ha) hb (le_antisymm hab hba)

theorem mem_run (q : Qsort) (cmp : α → α → Int) : a ∈ q.run cmp l ↔ a ∈ l :=
  (q.perm cmp l).mem_iff

@[simp] theorem length_run (q : Qsort) (cmp : α → α → Int) (l : List α) :
    (q.run cmp l).length = l.length :=
  (q.perm cmp l).length_eq

/-- Insertion sort keeps the contract.  It is structurally recursive, so that a
model that sorts with it can be run. -/
def insertion : Qsort where
  run cmp l := l.insertionSort fun a b => cmp a b ≤ 0
  perm cmp l := List.perm_insertionSort (fun a b => cmp a b ≤ 0) l
  sorted cmp l htotal htrans := by
    have : Std.Total fun a b => cmp a b ≤ 0 := ⟨htotal⟩
    have : IsTrans _ fun a b => cmp a b ≤ 0 := ⟨htrans⟩
    exact List.pairwise_insertionSort (fun a b => cmp a b ≤ 0) l

open scoped List

/-- In a list without repetition no two elements come in both orders. -/
theorem not_pair_sublist : ∀ {l : List α}, l.Nodup → [a, b] <+ l → ¬[b, a] <+ l
  | [], _, h => by simp at h
  | x :: l, hl, h => by
    intro h'
    obtain ⟨hx, hl⟩ := nodup_cons.1 hl
    cases h with
    | cons _ h =>
      cases h' with
      | cons _ h' => exact not_pair_sublist hl h h'
      | cons_cons _ _ => exact hx (h.subset (by simp))
    | cons_cons _ h =>
      cases h' with
      | cons _ h' => exact hx (h'.subset (by simp))
      | cons_cons _ _ => exact hx (h.subset (by simp))

/-- The insertion sort of the reversed array.  Of elements that compare equal, the
last comes first. -/
def reversing : Qsort where
  run cmp l := insertion.run cmp l.reverse
  perm cmp l := (insertion.perm cmp l.reverse).trans l.reverse_perm
  sorted cmp l := insertion.sorted cmp l.reverse

theorem lt_of_reversing [LinearOrder K] (h : CmpByKey cmp key) {a b : α} {l m : List α}
    (hl : l.Nodup) (hr : reversing.run cmp l = m) (ha : [a, b] <+ l) (hm : [a, b] <+ m) :
    key a < key b := by
  rw [← not_le, ← h b a]
  intro hle
  have hs : [b, a] <+ l.reverse := by simpa using ha.reverse
  have hn : m.Nodup := by rwa [← hr, (reversing.perm cmp l).nodup_iff]
  have hre : [b, a] <+ m := by
    rw [← hr]
    exact pair_sublist_insertionSort (r := fun a b => cmp a b ≤ 0) hle hs
  exact not_pair_sublist hn hm hre

theorem leading_of_lt [LinearOrder K] : ∀ {l₁ l₂ m : List α}, m.Perm (l₁ ++ l₂) →
    (m.Pairwise fun a b => key a ≤ key b) → (l₁.Pairwise fun a b => key a < key b) →
    (∀ a ∈ l₁, ∀ b ∈ l₂, key a < key b) → l₁ <+: m
  | [], _, _, _, _, _, _ => by simp
  | a :: l₁, l₂, [], hp, _, _, _ => by simp at hp
  | a :: l₁, l₂, x :: m, hp, hm, hl, hlo => by
    obtain ⟨ha, hl'⟩ := pairwise_cons.1 hl
    obtain ⟨hx, hm⟩ := pairwise_cons.1 hm
    have hf : x = a := by
      by_contra hne
      have hme : a ∈ m := by
        have := hp.mem_iff (a := a)
        simpa [Ne.symm hne] using this
      have ho : x ∈ l₁ ++ l₂ := by
        have := hp.mem_iff (a := x)
        simpa [hne] using this
      rcases mem_append.1 ho with h₁ | h₂
      · exact absurd (hx a hme) (not_le.2 (ha x h₁))
      · exact absurd (hx a hme) (not_le.2 (hlo a (by simp) x h₂))
    subst hf
    rw [prefix_cons_inj]
    exact leading_of_lt hp.cons_inv hm hl' fun b hb => hlo b (by simp [hb])

/-- Which entries no `qsort` moves: those at the front whose keys are in order without
repetition, and below the keys of the rest. -/
theorem leading_run_iff [LinearOrder K] (h : CmpByKey cmp key) {l₁ l₂ : List α}
    (hl : (l₁ ++ l₂).Nodup) : (∀ q : Qsort, l₁ <+: q.run cmp (l₁ ++ l₂)) ↔
      (l₁.Pairwise fun a b => key a < key b) ∧ ∀ a ∈ l₁, ∀ b ∈ l₂, key a < key b := by
  constructor
  · intro hk
    obtain ⟨m, hm⟩ := hk reversing
    have hr : m.Perm l₂ := by
      have hp := reversing.perm cmp (l₁ ++ l₂)
      rwa [← hm, perm_append_left_iff] at hp
    constructor
    · rw [pairwise_iff_forall_sublist]
      intro a b hab
      exact lt_of_reversing h hl hm.symm (hab.trans (sublist_append_left ..))
        (hab.trans (sublist_append_left ..))
    · intro a ha b hb
      have hs : ∀ l : List α, b ∈ l → [a, b] <+ l₁ ++ l := fun l hbl =>
        (singleton_sublist.2 ha).append (singleton_sublist.2 hbl)
      exact lt_of_reversing h hl hm.symm (hs l₂ hb) (hs m (hr.mem_iff.2 hb))
  · rintro ⟨hlt, hlo⟩ q
    exact leading_of_lt (q.perm cmp _) (q.sorted_key h _) hlt hlo

end Qsort

/-! ## Lower bound -/

/-- Binary search over the interval from `left` to `right`.  `below i` says that
the element at `i` lies before the place searched for. -/
def lowerBound (below : Nat → Bool) : (fuel left right : Nat) → Nat
  | 0, _, right => right
  | fuel + 1, left, right =>
    if left < right then
      let middle := left + (right - left) / 2
      if below middle then lowerBound below fuel (middle + 1) right
      else lowerBound below fuel left middle
    else right

/-- With a round for each element the search ends at the first element that is
not below: all before it are below, none from it on. -/
theorem lowerBound_spec {below : Nat → Bool}
    (hmo : ∀ i j, i ≤ j → j < n → below j = true → below i = true) :
    ∀ {fuel left right : Nat}, left ≤ right → right ≤ n → right - left ≤ fuel →
      (∀ i < left, below i = true) → (∀ i, right ≤ i → i < n → below i = false) →
      lowerBound below fuel left right ≤ n ∧
        (∀ i < lowerBound below fuel left right, below i = true) ∧
        ∀ i, lowerBound below fuel left right ≤ i → i < n → below i = false
  | 0, left, right, hl, hr, hf, hlo, hh => by
    have he : left = right := by omega
    exact ⟨hr, he ▸ hlo, hh⟩
  | fuel + 1, left, right, hl, hr, hf, hlo, hh => by
    rw [lowerBound]
    by_cases hlt : left < right
    · have hm : left + (right - left) / 2 < right := by omega
      rw [if_pos hlt]
      by_cases hb : below (left + (right - left) / 2) = true
      · simp only [hb]
        refine lowerBound_spec hmo (by omega) hr (by omega) (fun i hi => ?_) hh
        exact hmo i _ (Nat.le_of_lt_succ hi) (by omega) hb
      · simp only [hb]
        refine lowerBound_spec hmo (by omega) (by omega) (by omega) hlo fun i hi hin => ?_
        by_contra hbi
        exact hb (hmo _ i hi hin (by simpa using hbi))
    · rw [if_neg hlt]
      have he : left = right := by omega
      exact ⟨hr, he ▸ hlo, hh⟩

/-- One round of the search. -/
def searchRound (below : Nat → Bool) (bounds : Nat × Nat) : Nat × Nat :=
  let middle := bounds.1 + (bounds.2 - bounds.1) / 2
  if below middle then (middle + 1, bounds.2) else (bounds.1, middle)

/-- The rounds of the search end, with both bounds at the place that is found. -/
theorem lowerBound_ends (below : Nat → Bool) : ∀ {fuel left right : Nat}, left ≤ right →
    right - left ≤ fuel → ∃ rounds ≤ right - left, (searchRound below)^[rounds] (left, right) =
        (lowerBound below fuel left right, lowerBound below fuel left right)
  | 0, left, right, hl, hf => ⟨0, Nat.zero_le _, by simp [lowerBound]; omega⟩
  | fuel + 1, left, right, hl, hf => by
    rw [lowerBound]
    by_cases hlt : left < right
    · rw [if_pos hlt]
      by_cases hb : below (left + (right - left) / 2) = true
      · obtain ⟨rounds, hr, he⟩ := @lowerBound_ends below fuel
          (left + (right - left) / 2 + 1) right (by omega) (by omega)
        refine ⟨rounds + 1, by omega, ?_⟩
        rw [Function.iterate_succ_apply, searchRound]
        simp only [hb, if_true, he]
      · obtain ⟨rounds, hr, he⟩ := @lowerBound_ends below fuel left
          (left + (right - left) / 2) (by omega) (by omega)
        refine ⟨rounds + 1, by omega, ?_⟩
        rw [Function.iterate_succ_apply, searchRound]
        simp only [hb, Bool.false_eq_true, if_false, he]
    · rw [if_neg hlt]
      exact ⟨0, Nat.zero_le _, by simp; omega⟩
