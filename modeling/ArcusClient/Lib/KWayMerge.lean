import Mathlib.Data.List.Sort
import Mathlib.Logic.Function.Basic
import Mathlib.Tactic

/-!
# Merging several queues

A merge takes the best of the queues' heads again and again.

* `best` is the search for the best candidate below a bound (`best_spec`, `exists_best`), and
  `foremost` this search over the heads of queues, in one of two directions.
* `ahead` is what cursors into the queues have not passed (`ahead_update`).
* `Merging` says how far a merge of sorted queues has come.  Taking the best head keeps it
  (`Merging.take`), so what was taken is the beginning of the sorted union (`Merging.exists_union`).
* `takeForemost` is the beginning of a merge, of any queues.
* `Renumbers` gives the queues other numbers (`Renumbers.foremost_head`).
* `firstOfEach` keeps the first entry of each key.
-/

namespace KWayMerge

open List Function

/-! ## A direction -/

section Direction

variable {ρ : Type} [LinearOrder ρ] {descending : Bool} {a b c : ρ}

def Before (descending : Bool) (a b : ρ) : Prop := if descending then b < a else a < b

/-- The order in a direction, or equal. -/
def NotAfter (descending : Bool) (a b : ρ) : Prop := if descending then b ≤ a else a ≤ b

instance instDecidableBefore : Decidable (Before descending a b) :=
  inferInstanceAs (Decidable (if descending then b < a else a < b))

instance instDecidableNotAfter : Decidable (NotAfter descending a b) :=
  inferInstanceAs (Decidable (if descending then b ≤ a else a ≤ b))

theorem not_before : ¬ Before descending a b ↔ NotAfter descending b a := by
  cases descending <;> simp [Before, NotAfter]

theorem Before.notAfter (h : Before descending a b) : NotAfter descending a b := by
  cases descending
  · exact le_of_lt (show a < b from h)
  · exact le_of_lt (show b < a from h)

theorem Before.trans (ha : Before descending a b) (hb : Before descending b c) :
    Before descending a c := by
  cases descending
  · exact lt_trans (show a < b from ha) hb
  · exact lt_trans (show c < b from hb) ha

theorem Before.trans_notAfter (ha : Before descending a b) (hb : NotAfter descending b c) :
    Before descending a c := by
  cases descending
  · exact lt_of_lt_of_le (show a < b from ha) hb
  · exact lt_of_le_of_lt (show c ≤ b from hb) ha

theorem NotAfter.antisymm (ha : NotAfter descending a b) (hb : NotAfter descending b a) :
    a = b := by
  cases descending
  · exact le_antisymm (show a ≤ b from ha) hb
  · exact le_antisymm (show a ≤ b from hb) ha

theorem NotAfter.refl (a : ρ) : NotAfter descending a a := by
  cases descending <;> exact le_refl a

instance isTrans_notAfter : IsTrans ρ (NotAfter descending) where
  trans a b c hab hbc := by
    cases descending
    · exact le_trans (show a ≤ b from hab) hbc
    · exact le_trans (show c ≤ b from hbc) hab

instance total_notAfter : Std.Total (@NotAfter ρ _ descending) where
  total a b := by
    cases descending
    · exact le_total a b
    · exact le_total b a

end Direction

/-! ## The search -/

section Search

/-- One candidate is compared with the best so far. -/
def better (candidate : Nat → Bool) (beats : Nat → Nat → Bool) (j : Nat) (best : Option Nat) :
    Option Nat :=
  if candidate j then
    match best with
    | none => some j
    | some b => some (if beats j b then j else b)
  else best

/-- The best of the candidates from `j` on, with `left` of them to look at. -/
def bestFrom (candidate : Nat → Bool) (beats : Nat → Nat → Bool) :
    (left j : Nat) → Option Nat → Option Nat
  | 0, _, best => best
  | left + 1, j, best => bestFrom candidate beats left (j + 1) (better candidate beats j best)

/-- The best of the candidates below `n`. -/
def best (candidate : Nat → Bool) (beats : Nat → Nat → Bool) (n : Nat) : Option Nat :=
  bestFrom candidate beats n 0 none

variable {candidate : Nat → Bool} {beats : Nat → Nat → Bool} {n : Nat}

/-- The best of the candidates below `n`, by what is said about it. -/
structure IsBest (candidate : Nat → Bool) (beats : Nat → Nat → Bool) (n b : Nat) : Prop where
  lt : b < n
  isCandidate : candidate b = true
  unbeaten : ∀ i < n, candidate i = true → beats i b = false
  first : ∀ i < b, candidate i = true → beats b i = true

/-- What the search knows when the candidates below `k` were looked at. -/
def Searched (candidate : Nat → Bool) (beats : Nat → Nat → Bool) (k : Nat) : Option Nat → Prop
  | none => ∀ i < k, candidate i = false
  | some b => IsBest candidate beats k b

/-- No candidate beats itself, beating is transitive on candidates, and so is not beating. -/
structure StrictOn (candidate : Nat → Bool) (beats : Nat → Nat → Bool) : Prop where
  irrefl : ∀ i, candidate i = true → beats i i = false
  trans : ∀ i j k, candidate i = true → candidate j = true → candidate k = true →
    beats i j = true → beats j k = true → beats i k = true
  cotrans : ∀ i j k, candidate i = true → candidate j = true → candidate k = true →
    beats i j = true → beats k j = false → beats i k = true

theorem Searched.better (h : StrictOn candidate beats) (hb : Searched candidate beats k b) :
    Searched candidate beats (k + 1) (better candidate beats k b) := by
  unfold KWayMerge.better
  cases hk : candidate k with
  | false =>
    cases b with
    | none =>
      intro i hi
      obtain hl | rfl := Nat.lt_succ_iff_lt_or_eq.1 hi
      · exact hb i hl
      · exact hk
    | some b =>
      refine ⟨Nat.lt_succ_of_lt hb.lt, hb.isCandidate, fun i hi hc => ?_, hb.first⟩
      obtain hl | rfl := Nat.lt_succ_iff_lt_or_eq.1 hi
      · exact hb.unbeaten i hl hc
      · exact absurd hc (by simp [hk])
  | true =>
    cases b with
    | none =>
      refine ⟨k.lt_succ_self, hk, fun i hi hc => ?_, fun i hi hc => absurd hc (by simp [hb i hi])⟩
      obtain hl | rfl := Nat.lt_succ_iff_lt_or_eq.1 hi
      · exact absurd hc (by simp [hb i hl])
      · exact h.irrefl i hk
    | some b =>
      cases hbe : beats k b with
      | false =>
        simp only [hbe]
        refine ⟨Nat.lt_succ_of_lt hb.lt, hb.isCandidate, fun i hi hc => ?_, hb.first⟩
        obtain hl | rfl := Nat.lt_succ_iff_lt_or_eq.1 hi
        · exact hb.unbeaten i hl hc
        · exact hbe
      | true =>
        -- whoever beat the new one would have beaten the old one
        simp only [hbe]
        refine ⟨k.lt_succ_self, hk, fun i hi hc => ?_, fun i hi hc =>
          h.cotrans k b i hk hb.isCandidate hc hbe (hb.unbeaten i hi hc)⟩
        obtain hl | rfl := Nat.lt_succ_iff_lt_or_eq.1 hi
        · refine Bool.eq_false_iff.2 fun hik => ?_
          have hib := h.trans i k b hc hk hb.isCandidate hik hbe
          simp [hb.unbeaten i hl hc] at hib
        · exact h.irrefl i hk

theorem searched_bestFrom (h : StrictOn candidate beats) (left : Nat)
    (hb : Searched candidate beats k b) :
    Searched candidate beats (k + left) (bestFrom candidate beats left k b) := by
  induction left generalizing k b with
  | zero => exact hb
  | succ left ih =>
    have hn := ih (hb.better h)
    rwa [Nat.add_right_comm, Nat.add_assoc] at hn

theorem searched_best (h : StrictOn candidate beats) (n : Nat) :
    Searched candidate beats n (best candidate beats n) := by
  have hn : Searched candidate beats 0 none := fun i hi => absurd hi i.not_lt_zero
  have ha := searched_bestFrom h n hn
  rwa [Nat.zero_add] at ha

theorem best_spec (h : StrictOn candidate beats) (hb : best candidate beats n = some b) :
    IsBest candidate beats n b := by
  have ha := searched_best h n
  rwa [hb] at ha

theorem exists_best (h : StrictOn candidate beats) (hj : j < n) (hc : candidate j = true) :
    ∃ b, best candidate beats n = some b ∧ IsBest candidate beats n b := by
  have ha := searched_best h n
  cases hb : best candidate beats n with
  | none =>
    rw [hb] at ha
    exact absurd hc (by simp [ha j hj])
  | some b => exact ⟨b, rfl, best_spec h hb⟩

def headBeats {ρ : Type} [LinearOrder ρ] (descending : Bool) (heads : Nat → Option ρ) (i j : Nat) :
    Bool :=
  match heads i, heads j with
  | some a, some b => decide (Before descending a b)
  | _, _ => false

/-- The queue of which the head comes first, among the queues below `n` that have one. -/
def foremost {ρ : Type} [LinearOrder ρ] (descending : Bool) (heads : Nat → Option ρ) (n : Nat) :
    Option Nat :=
  best (fun j => (heads j).isSome) (headBeats descending heads) n

section Foremost

variable {ρ : Type} [LinearOrder ρ] {descending : Bool} {heads : Nat → Option ρ} {n b : Nat}

theorem strictOn_headBeats : StrictOn (fun j => (heads j).isSome) (headBeats descending heads) where
  irrefl i hi := by
    obtain ⟨a, ha⟩ := Option.isSome_iff_exists.1 hi
    simp [headBeats, ha, not_before.2 (NotAfter.refl a)]
  trans i j k hi hj hk hij hjk := by
    obtain ⟨a, ha⟩ := Option.isSome_iff_exists.1 hi
    obtain ⟨b, hb⟩ := Option.isSome_iff_exists.1 hj
    obtain ⟨c, hc⟩ := Option.isSome_iff_exists.1 hk
    simp only [headBeats, ha, hb, hc, decide_eq_true_eq] at hij hjk ⊢
    exact hij.trans hjk
  cotrans i j k hi hj hk hij hkj := by
    obtain ⟨a, ha⟩ := Option.isSome_iff_exists.1 hi
    obtain ⟨b, hb⟩ := Option.isSome_iff_exists.1 hj
    obtain ⟨c, hc⟩ := Option.isSome_iff_exists.1 hk
    simp only [headBeats, ha, hb, hc, decide_eq_true_eq, decide_eq_false_iff_not] at hij hkj ⊢
    exact hij.trans_notAfter (not_before.1 hkj)

/-- The foremost head stands before all heads, or equals them. -/
theorem foremost_spec (h : foremost descending heads n = some b) :
    ∃ a, heads b = some a ∧ b < n ∧ ∀ i < n, ∀ c ∈ heads i, NotAfter descending a c := by
  have hb := best_spec strictOn_headBeats h
  obtain ⟨a, ha⟩ := Option.isSome_iff_exists.1 hb.isCandidate
  refine ⟨a, ha, hb.lt, fun i hi c hc => ?_⟩
  have hn := hb.unbeaten i hi (Option.isSome_iff_exists.2 ⟨c, hc⟩)
  have hc' : heads i = some c := hc
  simp only [headBeats, ha, hc', decide_eq_false_iff_not] at hn
  exact not_before.1 hn

theorem exists_foremost (hj : j < n) (hc : heads j = some c) :
    ∃ b, foremost descending heads n = some b := by
  have hs : StrictOn (fun j => (heads j).isSome) (headBeats descending heads) :=
    strictOn_headBeats
  obtain ⟨b, hb, -⟩ := exists_best hs hj (Option.isSome_iff_exists.2 ⟨c, hc⟩)
  exact ⟨b, hb⟩

end Foremost

end Search

/-! ## The merge -/

section Merge

variable {α : Type} {r : α → α → Prop} {n : Nat} {start queues : Nat → List α} {done : List α}

/-- What is left in the queues below `n`. -/
def remaining (n : Nat) (queues : Nat → List α) : List α := (List.range n).flatMap queues

theorem mem_remaining : a ∈ remaining n queues ↔ ∃ j < n, a ∈ queues j := by
  simp [remaining]

theorem remaining_eq_flatMap {β : Type} {l : List β} {f : β → List α}
    (h : ∀ j, queues j = (l[j]?.map f).getD []) : remaining l.length queues = l.flatMap f := by
  have hm : (range l.length).map queues = l.map f := by
    refine ext_getElem (by simp) fun i hi _ => ?_
    have hl : i < l.length := by simpa using hi
    simp [h, hl]
  rw [remaining, flatMap_def, hm, flatMap_def]

/-- Where nothing occurs twice, nothing occurs in two queues. -/
theorem not_mem_two_queues (h : (remaining n queues).Nodup) (hi : i < n) (hj : j < n)
    (hij : i ≠ j) (ha : a ∈ queues i) : a ∉ queues j := by
  have hp := pairwise_iff_getElem.1 (nodup_flatMap.1 h).2
  have hd : ∀ i j, i < j → j < n → Disjoint (queues i) (queues j) := by
    intro i j hl hj
    have hg := hp i j (by simp; omega) (by simpa using hj) hl
    simpa using hg
  obtain hl | hl := Nat.lt_or_gt_of_ne hij
  · exact fun hb => hd i j hl hj ha hb
  · exact fun hb => hd j i hl hi hb ha

/-- The queue of which the head is taken loses it, the others stay. -/
theorem remaining_update (hj : j < n) (hq : queues j = a :: rest) :
    (remaining n queues).Perm (a :: remaining n (Function.update queues j rest)) := by
  induction n with
  | zero => exact absurd hj j.not_lt_zero
  | succ n ih =>
    simp only [remaining, range_succ, flatMap_append, flatMap_cons] at ih ⊢
    obtain hl | rfl := Nat.lt_succ_iff_lt_or_eq.1 hj
    · rw [update_of_ne (Nat.ne_of_gt hl)]
      exact (ih hl).append_right _
    · have ho : (range j).flatMap (update queues j rest) =
          (range j).flatMap queues := by
        refine flatMap_congr fun i hi => ?_
        exact update_of_ne (Nat.ne_of_lt (mem_range.1 hi)) _ _
      rw [ho, update_self, hq]
      exact perm_middle

/-- How far a merge of sorted queues has come. -/
structure Merging (r : α → α → Prop) (n : Nat) (start : Nat → List α) (done : List α)
    (queues : Nat → List α) : Prop where
  perm : (done ++ remaining n queues).Perm (remaining n start)
  sorted : done.Pairwise r
  before : ∀ a ∈ done, ∀ b ∈ remaining n queues, r a b
  queue : ∀ j < n, (queues j).Pairwise r

theorem Merging.nothing_taken (h : ∀ j < n, (start j).Pairwise r) : Merging r n start [] start where
  perm := Perm.refl _
  sorted := Pairwise.nil
  before := by simp
  queue := h

/-- A head that stands before every head is taken. -/
theorem Merging.take [IsTrans α r] (h : Merging r n start done queues) {j : Nat} (hj : j < n)
    {a : α}
    {rest : List α} (hq : queues j = a :: rest)
    (hh : ∀ i < n, ∀ b ∈ (queues i).head?, i ≠ j → r a b) :
    Merging r n start (done ++ [a]) (Function.update queues j rest) := by
  have hp := remaining_update hj hq
  have hs : (a :: rest).Pairwise r := hq ▸ h.queue j hj
  have hm : a ∈ remaining n queues := mem_remaining.2 ⟨j, hj, by simp [hq]⟩
  -- the head stands before its own queue and, by their heads, before the others
  have hl : ∀ b ∈ remaining n (update queues j rest), r a b := by
    intro b hb
    obtain ⟨i, hi, hbi⟩ := mem_remaining.1 hb
    by_cases hij : i = j
    · rw [hij, update_self] at hbi
      exact rel_of_pairwise_cons hs hbi
    · rw [update_of_ne hij] at hbi
      cases hqi : queues i with
      | nil => simp [hqi] at hbi
      | cons head tail =>
        have ha : r a head := hh i hi head (by simp [hqi]) hij
        have ht := h.queue i hi
        rw [hqi] at ht hbi
        obtain rfl | hbt := mem_cons.1 hbi
        · exact ha
        · exact IsTrans.trans a head b ha (rel_of_pairwise_cons ht hbt)
  refine ⟨?_, ?_, ?_, ?_⟩
  · rw [append_assoc]
    exact (hp.symm.append_left done).trans h.perm
  · refine pairwise_append.2 ⟨h.sorted, pairwise_singleton r a, fun b hb c hc => ?_⟩
    rw [mem_singleton.1 hc]
    exact h.before b hb a hm
  · intro b hb c hc
    obtain hb | hb := mem_append.1 hb
    · exact h.before b hb c (hp.mem_iff.2 (mem_cons_of_mem a hc))
    · rw [mem_singleton.1 hb]
      exact hl c hc
  · intro i hi
    by_cases hij : i = j
    · rw [hij, update_self]
      exact hs.of_cons
    · rw [update_of_ne hij]
      exact h.queue i hi

/-- What was taken is the beginning of the sorted union. -/
theorem Merging.exists_union [IsTrans α r] [Std.Total r] (h : Merging r n start done queues) :
    ∃ rest, (done ++ rest).Perm (remaining n start) ∧ (done ++ rest).Pairwise r := by
  classical
  refine ⟨(remaining n queues).insertionSort r, ?_, ?_⟩
  · exact ((perm_insertionSort r _).append_left done).trans h.perm
  · refine pairwise_append.2 ⟨h.sorted, pairwise_insertionSort r _, fun a ha b hb => ?_⟩
    exact h.before a ha b ((perm_insertionSort r _).mem_iff.1 hb)

end Merge

/-! ## Cursors -/

section Cursors

variable {α : Type} {start : Nat → List α} {cursor : Nat → Nat} {j : Nat} {a : α} {rest : List α}

def ahead (start : Nat → List α) (cursor : Nat → Nat) (j : Nat) : List α := (start j).drop (cursor j)

theorem getElem?_of_ahead (h : ahead start cursor j = a :: rest) :
    (start j)[cursor j]? = some a := by
  have hh := congrArg head? h
  rwa [ahead, head?_drop] at hh

theorem cursor_lt_of_ahead (h : ahead start cursor j = a :: rest) : cursor j < (start j).length :=
  (List.getElem?_eq_some_iff.1 (getElem?_of_ahead h)).1

/-- A cursor passes an entry. -/
theorem ahead_update (h : ahead start cursor j = a :: rest) :
    ahead start (Function.update cursor j (cursor j + 1)) =
      Function.update (ahead start cursor) j rest := by
  funext i
  by_cases hij : i = j
  · subst hij
    have hn := congrArg tail h
    rw [ahead, tail_drop] at hn
    rw [update_self, ahead, update_self]
    exact hn
  · rw [update_of_ne hij, ahead, update_of_ne hij]
    rfl

end Cursors

/-! ## The foremost heads of queues -/

section Heads

variable {α ρ : Type} {descending : Bool} {rank : Nat → α → ρ} {n j : Nat} {queues : Nat → List α}
  {a : α} {rest : List α}

/-- The heads by what they are compared by, which may depend on the queue. -/
def headsBy (rank : Nat → α → ρ) (queues : Nat → List α) (j : Nat) : Option ρ :=
  (queues j).head?.map (rank j)

theorem headsBy_eq_some :
    headsBy rank queues j = some c ↔ ∃ a, (queues j).head? = some a ∧ rank j a = c :=
  Option.map_eq_some_iff

variable [LinearOrder ρ]

/-- Where something is left, there is a foremost head. -/
theorem exists_foremost_head (h : remaining n queues ≠ []) :
    ∃ j a rest, foremost descending (headsBy rank queues) n = some j ∧ j < n ∧
      queues j = a :: rest := by
  obtain ⟨b, hb⟩ := exists_mem_of_ne_nil _ h
  obtain ⟨i, hi, hbi⟩ := mem_remaining.1 hb
  obtain ⟨c, hc⟩ : ∃ c, (queues i).head? = some c :=
    Option.isSome_iff_exists.1 (isSome_head?.2 (ne_nil_of_mem hbi))
  obtain ⟨j, hj⟩ : ∃ j, foremost descending (headsBy rank queues) n = some j :=
    exists_foremost hi (headsBy_eq_some.2 ⟨c, hc, rfl⟩)
  obtain ⟨r, hr, hjn, -⟩ := foremost_spec hj
  obtain ⟨a, ha, -⟩ := headsBy_eq_some.1 hr
  obtain ⟨rest, hre⟩ := head?_eq_some_iff.1 ha
  exact ⟨j, a, rest, hj, hjn, hre⟩

/-- No head comes before the foremost one. -/
theorem foremost_notAfter (hj : foremost descending (headsBy rank queues) n = some j)
    (hq : queues j = a :: rest) (hi : i < n) (hb : (queues i).head? = some b) :
    NotAfter descending (rank j a) (rank i b) := by
  obtain ⟨r, hr, -, ha⟩ := foremost_spec hj
  have hs : headsBy rank queues j = some (rank j a) := headsBy_eq_some.2 ⟨a, by rw [hq]; rfl, rfl⟩
  obtain rfl := Option.some.inj (hs.symm.trans hr)
  exact ha i hi _ (headsBy_eq_some.2 ⟨b, hb, rfl⟩)

/-- The first entries that a merge takes, `left` of them. -/
def takeForemost (descending : Bool) (rank : Nat → α → ρ) (n : Nat) :
    (left : Nat) → (queues : Nat → List α) → List α
  | 0, _ => []
  | left + 1, queues =>
    match foremost descending (headsBy rank queues) n with
    | none => []
    | some j =>
      match queues j with
      | [] => []
      | a :: rest => a :: takeForemost descending rank n left (Function.update queues j rest)

theorem takeForemost_succ (hj : foremost descending (headsBy rank queues) n = some j)
    (hq : queues j = a :: rest) (left : Nat) : takeForemost descending rank n (left + 1) queues =
      a :: takeForemost descending rank n left (Function.update queues j rest) := by
  rw [takeForemost, hj]
  simp only [hq]

theorem takeForemost_of_remaining_eq_nil (h : remaining n queues = []) (left : Nat) :
    takeForemost descending rank n left queues = [] := by
  cases left with
  | zero => rfl
  | succ left =>
    have hn : foremost descending (headsBy rank queues) n = none := by
      refine Option.eq_none_iff_forall_not_mem.2 fun j hj => ?_
      obtain ⟨r, hr, hjn, -⟩ := foremost_spec hj
      obtain ⟨a, ha, -⟩ := headsBy_eq_some.1 hr
      have hm := mem_remaining.2 ⟨j, hjn, mem_of_head? ha⟩
      rw [h] at hm
      exact absurd hm not_mem_nil
    rw [takeForemost, hn]

end Heads

/-! ## Other numbers -/

/-- The queues below `n` get other numbers. -/
structure Renumbers (n : Nat) (number : Nat → Nat) : Prop where
  lt : ∀ j < n, number j < n
  inj : ∀ i < n, ∀ j < n, number i = number j → i = j
  surj : ∀ i < n, ∃ j < n, number j = i

theorem renumbers_id (n : Nat) : Renumbers n id where
  lt _ hj := hj
  inj _ _ _ _ h := h
  surj i hi := ⟨i, hi, rfl⟩

section Renumbered

variable {n : Nat} {number : Nat → Nat}

/-- Cursors that are moved together stay together. -/
theorem Renumbers.update_cursor (h : Renumbers n number) {cursor cursor' : Nat → Nat}
    (hc : ∀ i < n, cursor' (number i) = cursor i) (hj : j < n) :
    ∀ i < n, Function.update cursor' (number j) (cursor' (number j) + 1) (number i) =
      Function.update cursor j (cursor j + 1) i := by
  intro i hi
  by_cases hij : i = j
  · rw [hij, update_self, update_self, hc j hj]
  · rw [update_of_ne fun he => hij (h.inj i hi j hj he), update_of_ne hij, hc i hi]

variable {α β ρ : Type} [LinearOrder ρ] {queues : Nat → List α} {queues' : Nat → List β} {f : α → β}

/-- Where something is left of the queues, something is left of the renumbered ones. -/
theorem Renumbers.remaining_ne_nil (h : Renumbers n number)
    (hq : ∀ j < n, queues' (number j) = (queues j).map f) (hn : remaining n queues ≠ []) :
    remaining n queues' ≠ [] := by
  obtain ⟨a, ha⟩ := exists_mem_of_ne_nil _ hn
  obtain ⟨j, hj, haj⟩ := mem_remaining.1 ha
  refine ne_nil_of_mem (a := f a) (mem_remaining.2 ⟨number j, h.lt j hj, ?_⟩)
  rw [hq j hj]
  exact mem_map_of_mem haj

/-- The foremost heads correspond if no two heads are equal and the order of the heads is kept. -/
theorem Renumbers.foremost_head (h : Renumbers n number) {rank : Nat → α → ρ}
    {rank' : Nat → β → ρ} (hqu : ∀ j < n, queues' (number j) = (queues j).map f)
    (ho : ∀ i < n, ∀ j < n, i ≠ j → ∀ a ∈ (queues i).head?, ∀ b ∈ (queues j).head?,
      NotAfter d (rank i a) (rank j b) →
        Before d' (rank' (number i) (f a)) (rank' (number j) (f b)))
    (hj : foremost d (headsBy rank queues) n = some j) (hq : queues j = a :: rest)
    (hj' : foremost d' (headsBy rank' queues') n = some j') (hq' : queues' j' = a' :: rest') :
    j' = number j ∧ a' = f a := by
  obtain ⟨-, -, hjn, -⟩ := foremost_spec hj
  obtain ⟨-, -, hjn', -⟩ := foremost_spec hj'
  obtain ⟨i, hi, rfl⟩ := h.surj j' hjn'
  have hs : queues' (number j) = f a :: rest.map f := by rw [hqu j hjn, hq]; rfl
  have hij : i = j := by
    by_contra hij
    -- the other head would come before the foremost one
    obtain ⟨b, tail, hb, hf, -⟩ := map_eq_cons_iff.1 ((hqu i hi).symm.trans hq')
    have ha := foremost_notAfter hj hq hi (show (queues i).head? = some b by rw [hb]; rfl)
    have hbe := ho j hjn i hi (Ne.symm hij) a (by simp [hq]) b (by simp [hb]) ha
    rw [hf] at hbe
    have hba := foremost_notAfter hj' hq' (h.lt j hjn)
      (show (queues' (number j)).head? = some (f a) by rw [hs]; rfl)
    exact not_before.2 hba hbe
  subst hij
  exact ⟨rfl, (cons.inj (hq'.symm.trans hs)).1⟩

end Renumbered

/-! ## The first of each key -/

section FirstOfEach

variable {α κ : Type} [DecidableEq κ] (key : α → κ)

/-- The entries of which the key did not occur before. -/
def firstOfEach : List α → List α
  | [] => []
  | a :: rest => a :: (firstOfEach rest).filter fun b => decide (key b ≠ key a)

variable {key}

theorem firstOfEach_append (l l' : List α) : firstOfEach key (l ++ l') =
      firstOfEach key l ++ (firstOfEach key l').filter fun b => decide (key b ∉ l.map key) := by
  induction l with
  | nil => simp [firstOfEach]
  | cons a rest ih =>
    rw [cons_append, firstOfEach, ih, firstOfEach, filter_append, filter_filter]
    congr 2
    simp

theorem firstOfEach_concat (l : List α) (a : α) : firstOfEach key (l ++ [a]) =
      firstOfEach key l ++ (if key a ∈ l.map key then [] else [a]) := by
  rw [firstOfEach_append]
  by_cases h : key a ∈ l.map key
  · simp only [firstOfEach, filter_cons, filter_nil, h, not_true, decide_false, if_true,
      Bool.false_eq_true, if_false]
  · simp only [firstOfEach, filter_cons, filter_nil, h, not_false_iff, decide_true,
      if_true, if_false]

end FirstOfEach

end KWayMerge
