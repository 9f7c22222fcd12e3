import ArcusClient.Smget.Sorted

/-!
# The storage of the elements

A merge moves the storage of an element to a slot of the merged result, or releases it.  An element
that is skipped because its `bkey` was just seen is neither moved nor released.  Elements are skipped
in `UNIQUE` mode only, and only if two neighbours among the first `count` elements in the order of the
merge have the same `bkey` (`storage_settled_iff`).
-/

namespace ArcusClient.Smget

open CString Coll KWayMerge List Function

variable {kind : BkeyKind} {m : Merged} {results : List (SmgetResult kind)} {st st' : ValueSt kind}
  {stop : Bool} {j : Nat} {e : SmgetElement kind} {rest : List (SmgetElement kind)}

/-! ## Accounting -/

/-- Every element of every result was moved to one slot, or released once, and not both. -/
def Settled (results : List (SmgetResult kind)) (result : MergeResult kind) : Prop :=
  ∀ j < results.length, ∀ x < (elementsOf results j).length,
    ((result.slots.map Slot.source).count (j, x) = 1 ∧ result.freed.count (j, x) = 0) ∨
      ((result.slots.map Slot.source).count (j, x) = 0 ∧ result.freed.count (j, x) = 1)

/-- How often a place was moved, released or passed. -/
def uses (st : ValueSt kind) (place : Place) : Nat :=
  (st.slots.map Slot.source).count place + st.freed.count place + st.passed.count place

/-- The places before the cursors were used once, those behind them not. -/
structure Accounted (results : List (SmgetResult kind)) (st : ValueSt kind) : Prop where
  cursor_le : ∀ i, st.resultIdx i ≤ (elementsOf results i).length
  used : ∀ i x, uses st (i, x) = if x < st.resultIdx i then 1 else 0

theorem uses_taken (h : Taken m st slot st' stop) (place : Place) :
    uses st' place = uses st place + if slot.source = place then 1 else 0 := by
  cases h <;>
  · simp only [uses, ValueSt.advance, map_append, map_cons, map_nil,
      count_append, count_singleton, beq_iff_eq]
    omega

theorem Accounted.round (h : Accounted results st) (hr : Round m results st st' stop j e rest) :
    Accounted results st' := by
  have hid := hr.taken.resultIdx_eq
  refine ⟨fun i => ?_, fun i x => ?_⟩
  · rw [hid]
    by_cases hij : i = j
    · subst hij
      rw [update_self]
      exact hr.cursor_lt
    · rw [update_of_ne hij]
      exact h.cursor_le i
  · rw [uses_taken hr.taken, h.used, hid]
    by_cases hij : i = j
    · subst hij
      by_cases hx : st.resultIdx i = x
      · simp [hx]
      · have hs : x < st.resultIdx i + 1 ↔ x < st.resultIdx i := by omega
        simp [hx, hs]
    · have hn : (j, st.resultIdx j) ≠ (i, x) := fun he => hij (congrArg Prod.fst he).symm
      rw [update_of_ne hij, if_neg hn, Nat.add_zero]

theorem mem_placesLeft {resultIdx : Nat → Nat} : place ∈ placesLeft results resultIdx i ↔
      place.1 = i ∧ resultIdx i ≤ place.2 ∧ place.2 < (elementsOf results i).length := by
  obtain ⟨i', x⟩ := place
  simp only [placesLeft, mem_map, mem_range'_1, Prod.mk.injEq]
  constructor
  · rintro ⟨y, hy, rfl, rfl⟩
    exact ⟨rfl, hy.1, by omega⟩
  · rintro ⟨rfl, hl, hlt⟩
    exact ⟨x, ⟨hl, by omega⟩, rfl, rfl⟩

theorem nodup_placesLeft (n : Nat) (resultIdx : Nat → Nat) :
    (remaining n (placesLeft results resultIdx)).Nodup := by
  refine nodup_flatMap.2 ⟨fun i _ => ?_, nodup_range.imp fun hn => ?_⟩
  · exact Nodup.map (fun x y h => (Prod.mk.inj h).2) nodup_range'
  · intro place hm hm'
    exact hn ((mem_placesLeft.1 hm).1.symm.trans (mem_placesLeft.1 hm').1)

theorem Accounted.uses_at_end (h : Accounted results st) (hj : j < results.length)
    (hx : x < (elementsOf results j).length) : uses (restFreed results st) (j, x) = 1 := by
  have hb : uses (restFreed results st) (j, x) =
      uses st (j, x) + (remaining results.length (placesLeft results st.resultIdx)).count (j, x) := by
    simp only [uses, restFreed, count_append]
    omega
  rw [hb, h.used]
  by_cases hl : x < st.resultIdx j
  · have hn : (j, x) ∉ remaining results.length (placesLeft results st.resultIdx) := by
      intro hm
      obtain ⟨i, -, hi⟩ := mem_remaining.1 hm
      obtain ⟨rfl, hle, -⟩ := mem_placesLeft.1 hi
      exact absurd hl (Nat.not_lt.2 hle)
    rw [if_pos hl, count_eq_zero.2 hn]
  · have hm : (j, x) ∈ remaining results.length (placesLeft results st.resultIdx) :=
      mem_remaining.2 ⟨j, hj, mem_placesLeft.2 ⟨rfl, Nat.not_lt.1 hl, hx⟩⟩
    rw [if_neg hl, count_eq_one_of_mem (nodup_placesLeft _ _) hm]

def PassedPlaces (results : List (SmgetResult kind)) (st : ValueSt kind) : Prop :=
  ∀ place ∈ st.passed, place.1 < results.length ∧ place.2 < (elementsOf results place.1).length

theorem PassedPlaces.round (h : PassedPlaces results st)
    (hr : Round m results st st' stop j e rest) : PassedPlaces results st' := by
  cases hr.taken with
  | skipped =>
    intro place hm
    obtain hm | hm := mem_append.1 hm
    · exact h place hm
    · rw [mem_singleton.1 hm]
      exact ⟨hr.lt, hr.cursor_lt⟩
  | merged | released => exact h

theorem mergeBkeys_accounted (hn : results.length ≤ resultIdxLength)
    (hv : m.valueCount = (results.map fun r => r.elements.length).sum) :
    ∃ st, mergeBkeys m results = .ok st ∧ PassedPlaces results st ∧
      ∀ j < results.length, ∀ x < (elementsOf results j).length, uses st (j, x) = 1 := by
  obtain ⟨st, ⟨hs, hp⟩, hru⟩ := mergeBkeys_rule hn hv
    (I := fun _ st => Accounted results st ∧ PassedPlaces results st)
    (Q := fun st => Accounted results st ∧ PassedPlaces results st)
    (fun left st st' stop j e rest hI hr => by
      have hne : Accounted results st' ∧ PassedPlaces results st' :=
        ⟨hI.1.round hr, hI.2.round hr⟩
      cases stop <;> exact hne)
    (fun st _ hI => hI)
    ⟨⟨fun i => Nat.zero_le _, fun i x => by simp [uses, ValueSt.init]⟩,
      by simp [PassedPlaces, ValueSt.init]⟩
  exact ⟨_, hru, hp, fun j hj x hx => hs.uses_at_end hj hx⟩

/-! ## Skipped elements -/

/-- The first `count` elements in the order of the merge. -/
def firstElements (m : Merged) (results : List (SmgetResult kind)) : List (SmgetElement kind) :=
  takeForemost m.isDescending (fun _ => SmgetElement.rank) results.length m.count (elementsOf results)

/-- What is still to be taken of the first `count` elements. -/
def upcoming (m : Merged) (results : List (SmgetResult kind)) (st : ValueSt kind) :
    List (SmgetElement kind) :=
  takeForemost m.isDescending (fun _ => SmgetElement.rank) results.length
    (m.count - st.slots.length) (elementsLeft results st.resultIdx)

theorem Round.upcoming_eq (hr : Round m results st st' stop j e rest)
    (hl : st.slots.length < m.count) :
    upcoming m results st = e :: takeForemost m.isDescending (fun _ => SmgetElement.rank)
      results.length (m.count - (st.slots.length + 1)) (elementsLeft results st'.resultIdx) := by
  rw [upcoming, hr.elementsLeft_eq,
    show m.count - st.slots.length = m.count - (st.slots.length + 1) + 1 by omega]
  exact takeForemost_succ hr.foremost hr.left _

structure NoDuplicateYet (m : Merged) (st : ValueSt kind) : Prop where
  passed : st.passed = []
  found : st.foundCount = st.slots.length
  below : st.slots.length < m.count

theorem Taken.passed_ne_nil (h : Taken m st slot st' stop) (hn : st.passed ≠ []) :
    st'.passed ≠ [] := by
  cases h with
  | skipped => simp
  | merged | released => exact hn

/-- An element that is not a duplicate begins a chain of its own. -/
theorem isChain_after {prev : Option (Bkey kind)} (h : prev ≠ some bkey) (more : List (Bkey kind)) :
    (prev.toList ++ bkey :: more).IsChain (· ≠ ·) ↔ (bkey :: more).IsChain (· ≠ ·) := by
  cases prev with
  | none => exact Iff.rfl
  | some prev =>
    have hn : prev ≠ bkey := fun he => h (congrArg some he)
    exact isChain_cons_cons.trans (and_iff_right hn)

/-- The loop passes nothing if no neighbours among the elements to come have the same `bkey`. -/
theorem passed_iff (hn : results.length ≤ resultIdxLength) (ho : m.offset = 0)
    (hun : m.smgmode = .unique) (left : Nat) (st : ValueSt kind)
    (hl : (remaining results.length (elementsLeft results st.resultIdx)).length = left)
    (hro : st.slots.length + left ≤ m.valueCount) (hs : NoDuplicateYet m st) :
    ∃ u, mergeElements m results left st = .ok u ∧ (u.passed = [] ↔
      (st.prevSubKey.toList ++ (upcoming m results st).map SmgetElement.bkey).IsChain (· ≠ ·)) := by
  induction left generalizing st with
  | zero =>
    have hno : upcoming m results st = [] :=
      takeForemost_of_remaining_eq_nil (eq_nil_of_length_eq_zero hl) _
    refine ⟨st, rfl, iff_of_true hs.passed ?_⟩
    rw [hno]
    cases st.prevSubKey <;> simp
  | succ left ih =>
    have hne : remaining results.length (elementsLeft results st.resultIdx) ≠ [] :=
      ne_nil_of_length_eq_add_one hl
    obtain ⟨u, stop, j, e, rest, hu, hr⟩ := mergeElement_spec (m := m) hn hne (by omega)
    have hlen := hr.length_remaining
    have hsl := hr.taken.length_slots_le
    have hf := hs.found
    have hb := hs.below
    rw [mergeElements, hu, hr.upcoming_eq hb, map_cons]
    by_cases hd : bkeyDuplicated st.prevSubKey e.bkey = true
    · -- the element is passed, and stays passed
      have hp : u.passed ≠ [] ∧ stop = false := by
        cases hr.taken with
        | skipped => simp
        | merged hk | released hk => exact absurd ⟨hd, hun⟩ hk
      obtain ⟨u', hu', hup⟩ := mergeElements_loop hn
        (I := fun _ s => s.passed ≠ []) (Q := fun s => s.passed ≠ [])
        (fun _ s s' stop _ _ _ hI hr => by
          have hnex := hr.taken.passed_ne_nil hI
          cases stop <;> exact hnex)
        (fun s _ hI => hI) left u (by omega) (show u.slots.length + left ≤ m.valueCount by omega)
        hp.1
      refine ⟨u', ?_, iff_of_false hup ?_⟩
      · rw [hp.2]
        exact hu'
      · rw [bkeyDuplicated_iff.1 hd]
        exact fun hc => (isChain_cons_cons.1 hc).1 rfl
    · obtain ⟨hul, huf, hup, rfl⟩ : u.slots.length = st.slots.length + 1 ∧
          u.foundCount = st.foundCount + 1 ∧ u.passed = st.passed ∧
          stop = decide (m.count ≤ st.slots.length + 1) := by
        cases hr.taken with
        | skipped hd' => exact absurd hd' hd
        | merged => exact ⟨by simp, rfl, rfl, rfl⟩
        | released _ hou => omega
      have hno : u.passed = [] := hup.trans hs.passed
      rw [isChain_after (mt bkeyDuplicated_iff.2 hd)]
      by_cases hfu : m.count ≤ st.slots.length + 1
      · rw [decide_eq_true hfu, Nat.sub_eq_zero_of_le hfu]
        exact ⟨u, rfl, iff_of_true hno (isChain_singleton _)⟩
      · rw [decide_eq_false hfu]
        have hnex := ih u (by omega) (by omega) ⟨hno, by omega, by omega⟩
        rw [upcoming, hul, hr.taken.prevSubKey_eq] at hnex
        exact hnex

theorem passed_eq_nil_of_ne_unique (hn : results.length ≤ resultIdxLength)
    (hv : m.valueCount = (results.map fun r => r.elements.length).sum) (hm : m.smgmode ≠ .unique) :
    ∃ st, mergeElements m results m.valueCount .init = .ok st ∧ st.passed = [] :=
  mergeElements_rule hn hv (I := fun _ st => st.passed = []) (Q := fun st => st.passed = [])
    (fun left st st' stop j e rest hI hr => by
      have hne : st'.passed = [] := by
        cases hr.taken with
        | skipped hd hu => exact absurd hu hm
        | merged | released => exact hI
      cases stop <;> exact hne)
    (fun st _ hI => hI) rfl

theorem nothing_asked (hn : results.length ≤ resultIdxLength)
    (hv : m.valueCount = (results.map fun r => r.elements.length).sum) (ho : m.offset = 0)
    (hc : m.count = 0) :
    ∃ st, mergeElements m results m.valueCount .init = .ok st ∧ st.passed = [] :=
  mergeElements_rule hn hv (I := fun _ st => st.prevSubKey = none ∧ st.passed = [])
    (Q := fun st => st.passed = [])
    (fun left st st' stop j e rest hI hr => by
      obtain ⟨hp, hpa⟩ := hI
      cases hr.taken with
      | skipped hd => simp [hp, bkeyDuplicated] at hd
      | merged _ hw => omega
      | released =>
        simp only [hc]
        exact hpa)
    (fun st _ hI => hI.2) ⟨rfl, rfl⟩

/-- The loop in `UNIQUE` mode skips nothing if the elements it is to return differ. -/
theorem unique_passed_iff (hn : results.length ≤ resultIdxLength)
    (hv : m.valueCount = (results.map fun r => r.elements.length).sum) (ho : m.offset = 0)
    (hun : m.smgmode = .unique) : ∃ u, mergeElements m results m.valueCount .init = .ok u ∧
      (u.passed = [] ↔ NoEqualNeighbours (firstElements m results)) := by
  by_cases hc : m.count = 0
  · obtain ⟨u, hu, hp⟩ := nothing_asked hn hv ho hc
    refine ⟨u, hu, iff_of_true hp ?_⟩
    rw [firstElements, hc]
    exact isChain_nil
  · refine passed_iff hn ho hun m.valueCount .init ?_ (by simp [ValueSt.init])
      ⟨rfl, rfl, Nat.pos_of_ne_zero hc⟩
    rw [hv, ← length_remaining_elementsOf]
    rfl

/-! ## Storage -/

theorem settled_iff_passed {stray : Place → Option CStr}
    (hv : m.valueCount = (results.map fun r => r.elements.length).sum)
    (hr : mergeSmgetResults stray m results = .ok result) :
    Settled results result ↔ result.passed = [] := by
  obtain ⟨values, trimmed, hb, -, rfl⟩ := mergeSmgetResults_cases hr
  obtain ⟨st, hs, hp, hu⟩ := mergeBkeys_accounted (length_le_of_mergeBkeys hb) hv
  rw [hb] at hs
  obtain rfl := Except.ok.inj hs
  constructor
  · intro hse
    refine eq_nil_iff_forall_not_mem.2 fun ⟨j, x⟩ hm => ?_
    obtain ⟨hj, hx⟩ := hp (j, x) hm
    have ho := hu j hj x hx
    have hpo : 0 < values.passed.count (j, x) := count_pos_iff.2 hm
    unfold uses at ho
    obtain ⟨hmo, -⟩ | ⟨-, hf⟩ := hse j hj x hx
    · dsimp only at hmo
      omega
    · dsimp only at hf
      omega
  · intro hn j hj x hx
    have ho := hu j hj x hx
    change values.passed = [] at hn
    rw [uses, hn] at ho
    have hc : ∀ a b : Nat, a + b + 0 = 1 → a = 1 ∧ b = 0 ∨ a = 0 ∧ b = 1 := by omega
    exact hc _ _ ho

/-- The storage of every element is settled unless elements are skipped: in `UNIQUE` mode, when two
neighbours among the first `count` elements have the same `bkey`. -/
theorem storage_settled_iff (stray : Place → Option CStr) (m : Merged) (results : List (SmgetResult kind))
    (result : MergeResult kind)
    (hvalues : m.valueCount = (results.map fun r => r.elements.length).sum) (hoffset : m.offset = 0)
    (hrun : mergeSmgetResults stray m results = .ok result) : Settled results result ↔
      (m.smgmode = .unique → NoEqualNeighbours (firstElements m results)) := by
  rw [settled_iff_passed hvalues hrun]
  obtain ⟨values, trimmed, hb, -, rfl⟩ := mergeSmgetResults_cases hrun
  have hn := length_le_of_mergeBkeys hb
  by_cases hm : m.smgmode = .unique
  · obtain ⟨u, hu, hif⟩ := unique_passed_iff hn hvalues hoffset hm
    rw [mergeBkeys_eq hn hu] at hb
    obtain rfl := Except.ok.inj hb
    exact ⟨fun hno _ => hif.1 hno, fun hd => hif.2 (hd hm)⟩
  · obtain ⟨u, hu, hp⟩ := passed_eq_nil_of_ne_unique hn hvalues hm
    rw [mergeBkeys_eq hn hu] at hb
    obtain rfl := Except.ok.inj hb
    exact iff_of_true hp fun hun => absurd hun hm

/-- In `UNIQUE` mode with an element of each `bkey`, every element is merged or released. -/
theorem storage_settled_iff_distinct :
    ∃ result, mergeSmgetResults (fun _ => none) ⟨false, 0, 2, .unique, 3, 0⟩
        [⟨[.ofNumber 1 (lit ['a']), .ofNumber 3 (lit ['a'])], [], []⟩,
          ⟨[.ofNumber 2 (lit ['b'])], [], []⟩] = .ok result ∧
      Settled [⟨[.ofNumber 1 (lit ['a']), .ofNumber 3 (lit ['a'])], [], []⟩,
        ⟨[.ofNumber 2 (lit ['b'])], [], []⟩] result := by
  refine ⟨_, rfl, ?_⟩
  refine (storage_settled_iff (fun _ => none) ⟨false, 0, 2, .unique, 3, 0⟩ _ _ rfl rfl rfl).2 fun _ => ?_
  unfold NoEqualNeighbours
  decide

/-- Two servers return an element of the same `bkey`.  In `UNIQUE` mode the second one is neither
merged nor released. -/
theorem skipped_element_leaked :
    ∃ result, mergeSmgetResults (fun _ => none) ⟨false, 0, 2, .unique, 2, 0⟩
        [⟨[.ofNumber 1 (lit ['a'])], [], []⟩, ⟨[.ofNumber 1 (lit ['b'])], [], []⟩] = .ok result ∧
      (result.slots.map Slot.source).count (1, 0) = 0 ∧ result.freed.count (1, 0) = 0 ∧
      ¬ Settled [⟨[.ofNumber 1 (lit ['a'])], [], []⟩, ⟨[.ofNumber 1 (lit ['b'])], [], []⟩] result := by
  refine ⟨_, rfl, by decide, by decide, fun hs => ?_⟩
  have hse := hs 1 (by decide) 0 (by decide)
  revert hse
  decide

end ArcusClient.Smget
