import ArcusClient.Smget.Correspondence

/-!
# Ascending and descending merges

The mirror image of a family of results has the `bkey`s `2^64 - 1 - b`, and is merged in the other
direction.  Where no `bkey` occurs twice, the merged elements are mirrored.  The trimmed keys are not: a
trimmed key is kept if its `bkey` is not below that of the last merged element, in both directions.  So
the mirror image holds only if no trimmed key is kept in either (`mirror_iff`).
-/

namespace ArcusClient.Smget

open CString Coll KWayMerge List Function

/-! ## Mirror images -/

def mirrorBkey (b : Bkey .number) : Bkey .number :=
  (UInt64.ofNat (2 ^ 64 - 1 - UInt64.toNat b) : UInt64)

def mirrorElement (e : SmgetElement .number) : SmgetElement .number :=
  { e with bkey := mirrorBkey e.bkey }

def mirrorTrimmed (t : TrimmedKey .number) : TrimmedKey .number :=
  { t with bkey := mirrorBkey t.bkey }

def mirrorResult (r : SmgetResult .number) : SmgetResult .number :=
  { r with elements := r.elements.map mirrorElement, trimmedKeys := r.trimmedKeys.map mirrorTrimmed }

def Merged.mirror (m : Merged) : Merged := { m with isDescending := !m.isDescending }

theorem toNat_mirrorBkey (b : Bkey .number) :
    UInt64.toNat (mirrorBkey b) = 2 ^ 64 - 1 - UInt64.toNat b := by
  have hs : UInt64.size = 2 ^ 64 := rfl
  rw [mirrorBkey, UInt64.toNat_ofNat_of_lt']
  omega

theorem mirrorBkey_le_iff (a b : Bkey .number) : mirrorBkey a ≤ mirrorBkey b ↔ b ≤ a := by
  have hl : ∀ a b : Bkey .number, a ≤ b ↔ UInt64.toNat a ≤ UInt64.toNat b := fun _ _ => Iff.rfl
  have hb := UInt64.toNat_lt b
  rw [hl, hl, toNat_mirrorBkey, toNat_mirrorBkey]
  omega

theorem mirrorBkey_injective : Function.Injective mirrorBkey := fun a b h =>
  le_antisymm ((mirrorBkey_le_iff b a).1 h.symm.le) ((mirrorBkey_le_iff a b).1 h.le)

theorem mirrorTrimmed_injective : Function.Injective mirrorTrimmed := fun a b h => by
  obtain ⟨ha, hk⟩ := TrimmedKey.mk.inj h
  cases a
  cases b
  rw [TrimmedKey.mk.injEq]
  exact ⟨mirrorBkey_injective ha, hk⟩

theorem mirror_notAfter (h : NotAfter descending a b) :
    NotAfter (!descending) (mirrorBkey a) (mirrorBkey b) := by
  cases descending
  · exact (mirrorBkey_le_iff b a).2 (show a ≤ b from h)
  · exact (mirrorBkey_le_iff a b).2 (show b ≤ a from h)

section Mirror

variable {m : Merged} {results : List (SmgetResult .number)}

/-- No `bkey` of an element or of a trimmed key occurs twice. -/
def DistinctBkeys (results : List (SmgetResult .number)) : Prop :=
  ((results.flatMap SmgetResult.elements).map SmgetElement.bkey ++
    (results.flatMap SmgetResult.trimmedKeys).map TrimmedKey.bkey).Nodup

theorem DistinctBkeys.elements (h : DistinctBkeys results) :
    (remaining results.length fun j => (elementsOf results j).map SmgetElement.bkey).Nodup := by
  have hn := (nodup_append.1 h).1
  rwa [← remaining_elementsOf, remaining, map_flatMap] at hn

/-- An element is found at one place only, by its `bkey`. -/
theorem DistinctBkeys.place_eq (h : DistinctBkeys results) {i j x y : Nat}
    (hi : i < results.length) (hj : j < results.length) (ha : (elementsOf results i)[x]? = some a)
    (hb : (elementsOf results j)[y]? = some b) (he : a.bkey = b.bkey) : i = j ∧ x = y := by
  have hij : i = j := by
    by_contra hij
    refine not_mem_two_queues h.elements hi hj hij (List.mem_map_of_mem (List.mem_of_getElem? ha)) ?_
    rw [he]
    exact List.mem_map_of_mem (List.mem_of_getElem? hb)
  subst hij
  refine ⟨rfl, ?_⟩
  have hn : ((elementsOf results i).map SmgetElement.bkey).Nodup :=
    (List.nodup_flatMap.1 h.elements).1 i (List.mem_range.2 hi)
  have hx : ((elementsOf results i).map SmgetElement.bkey)[x]? = some a.bkey := by
    rw [List.getElem?_map, ha]
    rfl
  have hy : ((elementsOf results i).map SmgetElement.bkey)[y]? = some a.bkey := by
    rw [List.getElem?_map, hb, he]
    rfl
  obtain ⟨hxl, hxg⟩ := List.getElem?_eq_some_iff.1 hx
  obtain ⟨hyl, hyg⟩ := List.getElem?_eq_some_iff.1 hy
  exact (hn.getElem_inj_iff).1 (hxg.trans hyg.symm)

theorem mirror_corresponds (h : DistinctBkeys results) :
    Corresponds m m.mirror results (results.map mirrorResult) id mirrorElement mirrorBkey where
  length := length_map _
  renumbers := renumbers_id _
  elements j _ := by
    rw [elementsOf, elementsOf, id, getElem?_map]
    cases results[j]? <;> rfl
  bkey _ := rfl
  injective := mirrorBkey_injective
  order i hi j hj hij a ha b hb hab := by
    have hn : a.bkey ≠ b.bkey := fun he => by
      obtain ⟨x, hx⟩ := mem_iff_getElem?.1 ha
      obtain ⟨y, hy⟩ := mem_iff_getElem?.1 hb
      exact hij (h.place_eq hi hj hx hy he).1
    exact before_rank_of_bkey (mirror_notAfter (notAfter_bkey hab))
      fun he => hn (mirrorBkey_injective he)
  offset := rfl
  count := rfl
  smgmode := rfl
  valueCount := rfl

theorem mirror_counts (h : m.Counts results) : m.mirror.Counts (results.map mirrorResult) where
  valueCount := by
    rw [Merged.mirror, h.valueCount]
    simp [comp_def, mirrorResult]
  trimmedKeyCount := by
    rw [Merged.mirror, h.trimmedKeyCount]
    simp [comp_def, mirrorResult]
  fits := h.fits

/-- No trimmed `bkey` occurs in two results, nor in two of their mirror images. -/
theorem DistinctBkeys.apart (h : DistinctBkeys results) (i j : Nat) (hij : i ≠ j) :
    (∀ x ∈ trimmedKeysOf results i, ∀ y ∈ trimmedKeysOf results j, x.bkey ≠ y.bkey) ∧
      ∀ x ∈ trimmedKeysOf (results.map mirrorResult) i,
        ∀ y ∈ trimmedKeysOf (results.map mirrorResult) j, x.bkey ≠ y.bkey := by
  have hn : (remaining results.length fun j =>
      (trimmedKeysOf results j).map TrimmedKey.bkey).Nodup := by
    have hn := (nodup_append.1 h).2.1
    rwa [← remaining_trimmedKeysOf, remaining, map_flatMap] at hn
  have ho : ∀ x ∈ trimmedKeysOf results i, ∀ y ∈ trimmedKeysOf results j, x.bkey ≠ y.bkey := by
    intro x hx y hy he
    refine not_mem_two_queues hn (lt_length_of_trimmed hx) (lt_length_of_trimmed hy) hij
      (mem_map_of_mem hx) ?_
    rw [he]
    exact mem_map_of_mem hy
  have hm : ∀ j, trimmedKeysOf (results.map mirrorResult) j =
      (trimmedKeysOf results j).map mirrorTrimmed := fun j => by
    rw [trimmedKeysOf, trimmedKeysOf, getElem?_map]
    cases results[j]? <;> rfl
  refine ⟨ho, fun x hx y hy he => ?_⟩
  rw [hm] at hx hy
  obtain ⟨t, ht, rfl⟩ := mem_map.1 hx
  obtain ⟨u, hu, rfl⟩ := mem_map.1 hy
  exact ho t ht u hu (mirrorBkey_injective he)

/-! ## How many elements are merged -/

def PrevPassed (results : List (SmgetResult .number)) (st : ValueSt .number) : Prop :=
  ∀ b ∈ st.prevSubKey, ∃ i < results.length, ∃ x < st.resultIdx i,
    ∃ a, (elementsOf results i)[x]? = some a ∧ a.bkey = b

/-- Where no `bkey` occurs twice, as many elements are merged as asked for, if there are so many. -/
theorem length_slots_of_distinct (hn : results.length ≤ resultIdxLength)
    (hv : m.valueCount = (results.map fun r => r.elements.length).sum) (ho : m.offset = 0)
    (hc : 1 ≤ m.count) (hd : DistinctBkeys results) :
    ∃ st, mergeBkeys m results = .ok st ∧ st.slots.length = min m.count m.valueCount := by
  obtain ⟨st, hs, hru⟩ := mergeBkeys_rule hn hv
    (I := fun left st => st.slots.length + left = m.valueCount ∧ st.slots.length < m.count ∧
      st.foundCount = st.slots.length ∧ PrevPassed results st)
    (Q := fun st => st.slots.length = min m.count m.valueCount)
    (fun left st st' stop j e rest hI hr => by
      obtain ⟨hl, hlt, hf, hp⟩ := hI
      have hg := hr.getElem?_eq
      have hne : PrevPassed results st' := by
        intro b hb
        rw [hr.taken.prevSubKey_eq] at hb
        refine ⟨j, hr.lt, st.resultIdx j, ?_, e, hg, Option.some.inj hb⟩
        rw [hr.taken.resultIdx_eq, update_self]
        exact Nat.lt_succ_self _
      cases hr.taken with
      | skipped hdu =>
        -- the `bkey` would be at two places
        obtain ⟨i, hi, x, hx, a, ha, he⟩ := hp e.bkey (bkeyDuplicated_iff.1 hdu)
        obtain ⟨rfl, rfl⟩ := hd.place_eq hi hr.lt ha hg he
        exact absurd hx (Nat.lt_irrefl _)
      | merged =>
        have hlen : (st.slots ++ [(⟨e, (j, st.resultIdx j)⟩ : Slot .number)]).length =
            st.slots.length + 1 := by simp
        by_cases hfu : m.count ≤ st.slots.length + 1
        · simp only [hfu, decide_true, if_true]
          omega
        · simp only [hfu]
          exact ⟨by omega, by omega, by omega, hne⟩
      | released _ hw => omega)
    (fun st _ hI => by omega)
    ⟨by simp [ValueSt.init], by simp only [ValueSt.init, length_nil]; omega, rfl,
      by simp [PrevPassed, ValueSt.init]⟩
  exact ⟨_, hru, hs⟩

/-! ## The mirrored merge -/

/-- The merge of the mirror image is the mirror image of the merge. -/
def Mirrors (stray stray' : Place → Option CStr) (m : Merged) (results : List (SmgetResult .number)) : Prop :=
  ∃ result result', mergeSmgetResults stray m results = .ok result ∧
    mergeSmgetResults stray' m.mirror (results.map mirrorResult) = .ok result' ∧
    result'.slots.map Slot.element = (result.slots.map Slot.element).map mirrorElement ∧
    result'.trimmed.map TrimmedSlot.trimmed = (result.trimmed.map TrimmedSlot.trimmed).map mirrorTrimmed

/-- A trimmed key other than the last element is kept in one direction only. -/
theorem kept_one_way {done done' : List (TrimmedKey .number)} (ht : t ∈ done)
    (ht' : mirrorTrimmed t ∈ done') (hn : last ≠ t.bkey) :
    done'.filter (shouldMerge (some (mirrorBkey last))) ≠
      (done.filter (shouldMerge (some last))).map mirrorTrimmed := by
  intro he
  have hk : ∀ (b : Bkey .number) (u : TrimmedKey .number),
      shouldMerge (some b) u = true ↔ b ≤ u.bkey := fun b u => by
    rw [shouldMerge, decide_eq_true_eq, compareBkey_le_iff]
  obtain hl | hl := le_total last t.bkey
  · -- kept, so its image is kept
    have hm : mirrorTrimmed t ∈ done'.filter (shouldMerge (some (mirrorBkey last))) := by
      rw [he]
      exact mem_map_of_mem (mem_filter.2 ⟨ht, (hk _ _).2 hl⟩)
    have him := (hk _ _).1 (mem_filter.1 hm).2
    exact hn (le_antisymm hl ((mirrorBkey_le_iff last t.bkey).1 him))
  · -- its image is kept, so it is kept
    have hm : mirrorTrimmed t ∈ (done.filter (shouldMerge (some last))).map mirrorTrimmed := by
      rw [← he]
      exact mem_filter.2 ⟨ht', (hk _ _).2 ((mirrorBkey_le_iff last t.bkey).2 hl)⟩
    obtain ⟨u, hu, hut⟩ := mem_map.1 hm
    obtain rfl := mirrorTrimmed_injective hut
    exact hn (le_antisymm ((hk _ _).1 (mem_filter.1 hu).2) hl)

theorem lastFound_of_full {slots : List (Slot .number)} (h : m.count ≤ slots.length) :
    lastFound m slots = .ok none := if_neg (Nat.not_lt.2 h)

theorem lastFound_mirror (hn : slots ≠ []) (hl : slots.length < m.count)
    (hs : slots'.map Slot.element = (slots.map Slot.element).map mirrorElement) :
    ∃ slot ∈ slots, lastFound m slots = .ok (some slot.element.bkey) ∧
      lastFound m.mirror slots' = .ok (some (mirrorBkey slot.element.bkey)) := by
  refine ⟨slots.getLast hn, getLast_mem hn, ?_, ?_⟩
  · rw [lastFound, if_pos hl, getLast?_eq_getLast_of_ne_nil hn]
  · have hle : slots'.length < m.mirror.count := by
      have hle := congrArg length hs
      simp only [length_map] at hle
      rw [hle]
      exact hl
    have hla := congrArg getLast? hs
    rw [getLast?_map, getLast?_map, getLast?_map, getLast?_eq_getLast_of_ne_nil hn] at hla
    obtain ⟨slot', hs', he⟩ := Option.map_eq_some_iff.1 hla
    rw [lastFound, if_pos hle, hs']
    simp only [he]
    rfl

theorem mirrorTrimmed_mem (ht : t ∈ results.flatMap SmgetResult.trimmedKeys) :
    mirrorTrimmed t ∈ (results.map mirrorResult).flatMap SmgetResult.trimmedKeys := by
  obtain ⟨r, hr, htr⟩ := mem_flatMap.1 ht
  exact mem_flatMap.2 ⟨mirrorResult r, mem_map_of_mem hr, mem_map_of_mem htr⟩

/-- With trimmed keys and fewer elements than asked for, some trimmed key is kept in one direction
only. -/
theorem Mirrors.enough {stray stray' : Place → Option CStr} (h : Mirrors stray stray' m results)
    (hc : m.Counts results) (ho : m.offset = 0) (hcou : 1 ≤ m.count)
    (hd : DistinctBkeys results) (hs : m.trimmedKeyCount ≠ 0) : m.count ≤ m.valueCount := by
  by_contra hfew
  obtain ⟨result, result', hr, hr', hsl, htr⟩ := h
  obtain ⟨values, st, hv, hst, rfl⟩ := mergeSmgetResults_cases hr
  obtain ⟨values', st', hv', hs', rfl⟩ := mergeSmgetResults_cases hr'
  have hn := length_le_of_mergeBkeys hv
  obtain ⟨u, hu, hl⟩ := length_slots_of_distinct hn hc.valueCount ho hcou hd
  obtain rfl := Except.ok.inj (hv.symm.trans hu)
  have hne : values.slots ≠ [] := slots_ne_nil_of_mergeTrimmedKeys hcou hs hst
  obtain ⟨slot, hslo, hla, hl'⟩ := lastFound_mirror (m := m) hne (by omega) hsl
  obtain ⟨u, hu, done, hdo, hk⟩ :=
    mergeTrimmedKeys_kept (readsStrings_of_apart (fun i j hij => (hd.apart i j hij).1)
      (keyAt results stray values.freed) fun _ _ => []) hn hc.trimmedKeyCount
      fun _ => hla
  obtain ⟨u', hu', done', hd', hk'⟩ :=
    mergeTrimmedKeys_kept (readsStrings_of_apart (fun i j hij => (hd.apart i j hij).2)
      (keyAt (results.map mirrorResult) stray' values'.freed) fun _ _ => [])
      (length_le_of_mergeBkeys hv') (mirror_counts hc).trimmedKeyCount fun _ => hl'
  obtain rfl := Except.ok.inj (hst.symm.trans hu)
  obtain rfl := Except.ok.inj (hs'.symm.trans hu')
  -- some trimmed key, which differs from the last element
  obtain ⟨t, ht⟩ : ∃ t, t ∈ results.flatMap SmgetResult.trimmedKeys := by
    refine exists_mem_of_ne_nil _ fun hni => hs ?_
    rw [hc.trimmedKeyCount, ← length_flatMap, hni]
    rfl
  have he := element_mem_of_mergeBkeys hc.valueCount hv hslo
  have hdif : slot.element.bkey ≠ t.bkey :=
    (nodup_append.1 hd).2.2 _ (mem_map_of_mem he) _ (mem_map_of_mem ht)
  refine kept_one_way (hdo.mem_iff.2 ht) (hd'.mem_iff.2 (mirrorTrimmed_mem ht)) hdif ?_
  rw [← hk, ← hk']
  exact htr

/-- The elements are mirrored, and no trimmed key is kept in either direction. -/
theorem mirrors_of_enough (stray stray' : Place → Option CStr) (hc : m.Counts results)
    (ho : m.offset = 0) (hco : 1 ≤ m.count) (hd : DistinctBkeys results)
    (hn : results.length ≤ resultIdxLength)
    (he : m.trimmedKeyCount ≠ 0 → m.count ≤ m.valueCount) : Mirrors stray stray' m results := by
  have hn' : (results.map mirrorResult).length ≤ resultIdxLength := by rwa [length_map]
  obtain ⟨values, values', hv, hv', -, hs⟩ :=
    mergeBkeys_corresponds hn hc.valueCount (mirror_corresponds (m := m) hd)
  obtain ⟨u, hu, hl⟩ := length_slots_of_distinct hn hc.valueCount ho hco hd
  obtain rfl := Except.ok.inj (hv.symm.trans hu)
  have hl' : values'.slots.length = values.slots.length := by
    have hl' := congrArg length hs
    simpa only [length_map] using hl'
  have hf : m.trimmedKeyCount ≠ 0 → m.count ≤ values.slots.length := fun hso => by
    omega
  obtain ⟨st, hst, done, hdo, hk⟩ :=
    mergeTrimmedKeys_kept (readsStrings_of_apart (fun i j hij => (hd.apart i j hij).1)
      (keyAt results stray values.freed) fun _ _ => []) hn hc.trimmedKeyCount
      fun hso => lastFound_of_full (hf hso)
  obtain ⟨st', hs', done', hd', hk'⟩ :=
    mergeTrimmedKeys_kept (readsStrings_of_apart (fun i j hij => (hd.apart i j hij).2)
      (keyAt (results.map mirrorResult) stray' values'.freed) fun _ _ => []) hn'
      (mirror_counts hc).trimmedKeyCount fun hso => lastFound_of_full (hl' ▸ hf hso)
  refine ⟨_, _, mergeSmgetResults_eq hv hst, mergeSmgetResults_eq hv' hs', hs, ?_⟩
  have hno : ∀ l : List (TrimmedKey .number), l.filter (shouldMerge none) = [] := fun l =>
    filter_eq_nil_iff.2 fun _ _ => by simp [shouldMerge]
  rw [hk, hk', hno, hno]
  rfl

/-- With the bkeys mirrored and the order turned round, the merge gives the mirrored result, just if
there is a cursor for each server, and no trimmed key or as many elements as asked for. -/
theorem mirror_iff (stray stray' : Place → Option CStr) (m : Merged)
    (results : List (SmgetResult .number))
    (hcounts : m.Counts results) (hoffset : m.offset = 0) (hcount : 1 ≤ m.count)
    (hdistinct : DistinctBkeys results) : Mirrors stray stray' m results ↔
      results.length ≤ 256 ∧ (m.trimmedKeyCount = 0 ∨ m.count ≤ m.valueCount) := by
  constructor
  · intro h
    have ⟨result, _, hr, _⟩ := h
    obtain ⟨values, -, hv, -⟩ := mergeSmgetResults_cases hr
    refine ⟨length_le_of_mergeBkeys hv, or_iff_not_imp_left.2 fun hs => ?_⟩
    exact h.enough hcounts hoffset hcount hdistinct hs
  · rintro ⟨hn, ho⟩
    exact mirrors_of_enough stray stray' hcounts hoffset hcount hdistinct hn ho.resolve_left

/-- Two elements are found, as asked for. -/
theorem mirror_iff_two_elements :
    Mirrors (fun _ => none) (fun _ => none) ⟨false, 0, 2, .duplicate, 2, 1⟩
      [⟨[.ofNumber 1 (lit ['a'])], [], [.ofNumber 7 (lit ['b'])]⟩,
        ⟨[.ofNumber 2 (lit ['c'])], [], []⟩] :=
  (mirror_iff _ _ _ _ ⟨rfl, rfl, by decide⟩ rfl (by decide) (by unfold DistinctBkeys; decide)).2
    ⟨by decide, .inr (by decide)⟩

/-- A trimmed key behind the only element is kept in ascending order, and dropped in descending
order. -/
theorem trimmed_key_kept_one_way : ∃ result result',
      mergeSmgetResults (fun _ => none) ⟨false, 0, 2, .duplicate, 1, 1⟩
        [⟨[.ofNumber 10 (lit ['a'])], [], [.ofNumber 12 (lit ['b'])]⟩] = .ok result ∧
      mergeSmgetResults (fun _ => none) (Merged.mirror ⟨false, 0, 2, .duplicate, 1, 1⟩)
        ([⟨[.ofNumber 10 (lit ['a'])], [], [.ofNumber 12 (lit ['b'])]⟩].map mirrorResult) =
          .ok result' ∧ result.trimmed.length = 1 ∧ result'.trimmed.length = 0 :=
  ⟨_, _, rfl, rfl, rfl, rfl⟩

end Mirror

end ArcusClient.Smget
