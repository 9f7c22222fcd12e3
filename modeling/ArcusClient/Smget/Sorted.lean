import ArcusClient.Smget.Cursors

/-!
# The merged elements are the beginning of the sorted union

Where every server sends its elements in order, the loop takes them in the order of the sorted union
(`SortedSoFar`), whatever the direction and the kind of `bkey`.  What is merged is the union itself or,
if only one element of each `bkey` is wanted, the union with the later ones left out, up to `count`
elements (`merged_elements_sorted`).
-/

namespace ArcusClient.Smget

open CString Coll KWayMerge List

variable {kind : BkeyKind}

/-! ## Orders and summaries -/

/-- The order of elements in a direction, by `bkey` and then by key. -/
def Ordered (descending : Bool) (a b : SmgetElement kind) : Prop :=
  NotAfter descending a.rank b.rank

def StrictlyOrdered (descending : Bool) (a b : SmgetElement kind) : Prop :=
  Before descending a.rank b.rank

instance instDecidableOrdered {descending : Bool} {a b : SmgetElement kind} :
    Decidable (Ordered descending a b) :=
  inferInstanceAs (Decidable (NotAfter descending a.rank b.rank))

instance instDecidableStrictlyOrdered {descending : Bool} {a b : SmgetElement kind} :
    Decidable (StrictlyOrdered descending a b) :=
  inferInstanceAs (Decidable (Before descending a.rank b.rank))

instance isTrans_ordered {descending : Bool} :
    IsTrans (SmgetElement kind) (Ordered descending) where
  trans _ _ _ hab hbc := isTrans_notAfter.trans _ _ _ hab hbc

instance total_ordered {descending : Bool} : Std.Total (@Ordered kind descending) where
  total a b := total_notAfter.total a.rank b.rank

def wanted (mode : SmgMode) (elements : List (SmgetElement kind)) : List (SmgetElement kind) :=
  if mode = .unique then firstOfEach SmgetElement.bkey elements else elements

/-- No two neighbours have the same `bkey`. -/
def NoEqualNeighbours (elements : List (SmgetElement kind)) : Prop :=
  (elements.map SmgetElement.bkey).IsChain (· ≠ ·)

/-- The code for the elements: `MEMCACHED_DUPLICATED` if two neighbours have the same `bkey` and that
is not ruled out by the mode. -/
def ReturnsFor (mode : SmgMode) (elements : List (SmgetElement kind)) (rc : ReturnT) : Prop :=
  (mode ≠ .unique ∧ ¬ NoEqualNeighbours elements → rc = .duplicated) ∧
    (¬ (mode ≠ .unique ∧ ¬ NoEqualNeighbours elements) → rc = .endOfReply)

theorem noEqualNeighbours_concat {e : SmgetElement kind} : NoEqualNeighbours (elements ++ [e]) ↔
      NoEqualNeighbours elements ∧ ∀ last ∈ elements.getLast?, last.bkey ≠ e.bkey := by
  simp [NoEqualNeighbours, isChain_append]

/-! ## The loop -/

section Loop

variable {m : Merged} {results : List (SmgetResult kind)} {done : List (SmgetElement kind)}
  {st st' : ValueSt kind} {stop : Bool} {j : Nat} {e : SmgetElement kind}
  {rest : List (SmgetElement kind)}

/-- The loop has taken the elements `done`. -/
structure SortedSoFar (m : Merged) (results : List (SmgetResult kind))
    (done : List (SmgetElement kind)) (st : ValueSt kind) : Prop where
  merging : Merging (Ordered m.isDescending) results.length (elementsOf results) done
    (elementsLeft results st.resultIdx)
  prev : st.prevSubKey = done.getLast?.map SmgetElement.bkey
  slots : st.slots.map Slot.element = wanted m.smgmode done
  found : st.foundCount = st.slots.length
  sources : ∀ slot ∈ st.slots,
    (elementsOf results slot.source.1)[slot.source.2]? = some slot.element
  rc : ReturnsFor m.smgmode (st.slots.map Slot.element) st.rc

theorem sortedSoFar_init (hs : ∀ r ∈ results, r.elements.Pairwise (Ordered m.isDescending)) :
    SortedSoFar m results [] (.init : ValueSt kind) where
  merging := by
    refine Merging.nothing_taken fun j hj => ?_
    have hr : results[j]? = some (results[j]) := getElem?_eq_getElem hj
    rw [elementsOf, hr]
    exact hs _ (getElem_mem hj)
  prev := rfl
  slots := by simp [ValueSt.init, wanted, firstOfEach]
  found := rfl
  sources := by simp [ValueSt.init]
  rc := by simp [ReturnsFor, NoEqualNeighbours, ValueSt.init]

theorem SortedSoFar.merging_next (h : SortedSoFar m results done st)
    (hr : Round m results st st' stop j e rest) :
    Merging (Ordered m.isDescending) results.length (elementsOf results) (done ++ [e])
      (elementsLeft results st'.resultIdx) := by
  rw [hr.elementsLeft_eq]
  exact h.merging.take hr.lt hr.left fun i hi f hf _ => hr.notAfter hi hf

/-- Equal `bkey`s stand side by side, so the last one is the only one to look at. -/
theorem SortedSoFar.duplicated_iff (h : SortedSoFar m results done st)
    (hr : Round m results st st' stop j e rest) :
    bkeyDuplicated st.prevSubKey e.bkey = true ↔ e.bkey ∈ done.map SmgetElement.bkey := by
  rw [bkeyDuplicated_iff, h.prev]
  constructor
  · intro hl
    obtain ⟨last, hl, he⟩ := Option.map_eq_some_iff.1 hl
    exact mem_map.2 ⟨last, mem_of_getLast? hl, he⟩
  · intro hm
    obtain ⟨d, hd, he⟩ := mem_map.1 hm
    obtain ⟨init, last, rfl⟩ := eq_nil_or_concat' done |>.resolve_left (ne_nil_of_mem hd)
    have hs := (h.merging_next hr).sorted
    have hle : Ordered m.isDescending last e :=
      (pairwise_append.1 hs).2.2 last (by simp) e (by simp)
    have hb : last.bkey = e.bkey := by
      obtain hd | hd := mem_append.1 hd
      · have hdl : Ordered m.isDescending d last :=
          (pairwise_append.1 h.merging.sorted).2.2 d hd last (by simp)
        exact (notAfter_bkey hle).antisymm (he ▸ notAfter_bkey hdl)
      · rw [← he, mem_singleton.1 hd]
    simp [hb]

theorem SortedSoFar.skip (h : SortedSoFar m results done st)
    (hr : Round m results st st' stop j e rest)
    (hd : bkeyDuplicated st.prevSubKey e.bkey = true) (hm : m.smgmode = .unique) :
    wanted m.smgmode (done ++ [e]) = wanted m.smgmode done := by
  rw [wanted, wanted, if_pos hm, if_pos hm, firstOfEach_concat,
    if_pos ((h.duplicated_iff hr).1 hd), append_nil]

theorem SortedSoFar.keep (h : SortedSoFar m results done st)
    (hr : Round m results st st' stop j e rest)
    (hk : ¬ (bkeyDuplicated st.prevSubKey e.bkey = true ∧ m.smgmode = .unique)) :
    wanted m.smgmode (done ++ [e]) = wanted m.smgmode done ++ [e] := by
  by_cases hm : m.smgmode = .unique
  · have hn : e.bkey ∉ done.map SmgetElement.bkey := fun hme =>
      hk ⟨(h.duplicated_iff hr).2 hme, hm⟩
    rw [wanted, wanted, if_pos hm, if_pos hm, firstOfEach_concat, if_neg hn]
  · rw [wanted, wanted, if_neg hm, if_neg hm]

theorem SortedSoFar.rc_next (h : SortedSoFar m results done st)
    (hk : ¬ (bkeyDuplicated st.prevSubKey e.bkey = true ∧ m.smgmode = .unique)) :
    ReturnsFor m.smgmode (st.slots.map Slot.element ++ [e])
      (if 0 < st.slots.length ∧ bkeyDuplicated st.prevSubKey e.bkey = true ∧ st.rc = .endOfReply
        then .duplicated else st.rc) := by
  obtain ⟨hd, he⟩ := h.rc
  by_cases hm : m.smgmode = .unique
  · -- no duplicate is merged
    have hdup : ¬ bkeyDuplicated st.prevSubKey e.bkey = true := fun hdup => hk ⟨hdup, hm⟩
    have hr : st.rc = .endOfReply := he fun hn => hn.1 hm
    simp [ReturnsFor, hm, hdup, hr]
  · -- the elements merged are those taken, so the one before is the last merged
    have hs : st.slots.map Slot.element = done := by rw [h.slots, wanted, if_neg hm]
    have hl : bkeyDuplicated st.prevSubKey e.bkey = true ↔
        ∃ last ∈ done.getLast?, last.bkey = e.bkey := by
      rw [bkeyDuplicated_iff, h.prev, Option.map_eq_some_iff]
      rfl
    rw [hs] at hd he ⊢
    by_cases hdup : bkeyDuplicated st.prevSubKey e.bkey = true
    · have hnei : ¬ NoEqualNeighbours (done ++ [e]) := fun hno => by
        obtain ⟨last, hme, heq⟩ := hl.1 hdup
        exact (noEqualNeighbours_concat.1 hno).2 last hme heq
      have hp : 0 < st.slots.length := by
        obtain ⟨last, hme, -⟩ := hl.1 hdup
        rw [← length_map Slot.element, hs]
        exact length_pos_of_mem (mem_of_getLast? hme)
      refine ⟨fun _ => ?_, fun hnot => absurd ⟨hm, hnei⟩ hnot⟩
      by_cases hno : NoEqualNeighbours done
      · rw [if_pos ⟨hp, hdup, he fun hb => hb.2 hno⟩]
      · have hr := hd ⟨hm, hno⟩
        rw [if_neg fun hb => by simp [hr] at hb, hr]
    · have hsa : NoEqualNeighbours (done ++ [e]) ↔ NoEqualNeighbours done := by
        rw [noEqualNeighbours_concat]
        exact and_iff_left fun last hme heq => hdup (hl.2 ⟨last, hme, heq⟩)
      rw [if_neg fun hb => hdup hb.2.1, ReturnsFor, hsa]
      exact ⟨hd, he⟩

theorem SortedSoFar.round (h : SortedSoFar m results done st)
    (hr : Round m results st st' stop j e rest) (ho : m.offset = 0)
    (hc : st.slots.length < m.count) : SortedSoFar m results (done ++ [e]) st' ∧
      (stop = true → st'.slots.length = m.count) ∧ (stop = false → st'.slots.length < m.count) := by
  have hm := h.merging_next hr
  have hp : st'.prevSubKey = (done ++ [e]).getLast?.map SmgetElement.bkey := by
    rw [hr.taken.prevSubKey_eq, getLast?_concat]
    rfl
  have hs := hr.sources h.sources
  cases hr.taken with
  | skipped hd hmo =>
    refine ⟨⟨hm, hp, ?_, h.found, h.sources, h.rc⟩, by simp, fun _ => hc⟩
    rw [h.skip hr hd hmo]
    exact h.slots
  | merged hk hw =>
    refine ⟨⟨hm, hp, ?_, ?_, hs, ?_⟩, ?_, ?_⟩
    · rw [h.keep hr hk, ← h.slots]
      simp
    · simp [h.found]
    · have hrc := h.rc_next hk
      rw [← map_singleton (f := Slot.element) (a := ⟨e, (j, st.resultIdx j)⟩), ← map_append] at hrc
      exact hrc
    · intro hst
      have hl := of_decide_eq_true hst
      simp only [length_append, length_singleton]
      omega
    · intro hst
      have hl := of_decide_eq_false hst
      simp only [length_append, length_singleton]
      omega
  | released hk hw =>
    -- fewer than `count` were found, so the next one is merged
    refine absurd ⟨?_, ?_⟩ hw
    · omega
    · rw [h.found]
      omega

end Loop

/-! ## The result -/

/-- What the first part of the merge leaves: the first `count` elements that the mode wants of the
sorted union, each from a place where it was, and the code. -/
structure SortedPrefix (m : Merged) (results : List (SmgetResult kind)) (st : ValueSt kind) : Prop where
  elements : ∃ union, union.Perm (results.flatMap SmgetResult.elements) ∧
    union.Pairwise (Ordered m.isDescending) ∧
    st.slots.map Slot.element = (wanted m.smgmode union).take m.count
  sources : ∀ slot ∈ st.slots,
    (elementsOf results slot.source.1)[slot.source.2]? = some slot.element
  rc : ReturnsFor m.smgmode (st.slots.map Slot.element) st.rc

theorem SortedSoFar.sortedPrefix {m : Merged} {results : List (SmgetResult kind)}
    {done : List (SmgetElement kind)} {st : ValueSt kind} (h : SortedSoFar m results done st)
    (he : st.slots.length = m.count ∨ st.slots.length ≤ m.count ∧
      remaining results.length (elementsLeft results st.resultIdx) = []) :
    SortedPrefix m results st := by
  obtain ⟨rest, hp, hs⟩ := h.merging.exists_union
  refine ⟨⟨done ++ rest, remaining_elementsOf ▸ hp, hs, ?_⟩, h.sources, h.rc⟩
  obtain ⟨more, hm⟩ : ∃ more, wanted m.smgmode (done ++ rest) = wanted m.smgmode done ++ more := by
    by_cases hmo : m.smgmode = .unique
    · rw [wanted, wanted, if_pos hmo, if_pos hmo]
      exact ⟨_, firstOfEach_append done rest⟩
    · rw [wanted, wanted, if_neg hmo, if_neg hmo]
      exact ⟨rest, rfl⟩
  rw [hm, ← h.slots]
  obtain hf | ⟨hl, hn⟩ := he
  · rw [← hf, ← length_map Slot.element, take_left]
  · -- nothing is left, so the union is what was taken
    have hr : rest = [] := by
      have ha := (h.merging.perm.trans hp.symm).length_eq
      rw [hn] at ha
      exact eq_nil_of_length_eq_zero (by simpa using ha)
    have hno : more = [] := by simpa [hr] using hm
    rw [hno, append_nil, take_of_length_le (by simpa using hl)]

/-- The rule for the loop over elements in order: what every round keeps holds at the end, beside the
elements merged. -/
theorem mergeBkeys_sorted {m : Merged} {results : List (SmgetResult kind)}
    (hn : results.length ≤ resultIdxLength)
    (hv : m.valueCount = (results.map fun r => r.elements.length).sum) (ho : m.offset = 0)
    (hc : 1 ≤ m.count) (hs : ∀ r ∈ results, r.elements.Pairwise (Ordered m.isDescending))
    {P : List (SmgetElement kind) → ValueSt kind → Prop} (hP : P [] .init)
    (hro : ∀ done st st' stop j e rest, SortedSoFar m results done st → P done st →
      Round m results st st' stop j e rest → P (done ++ [e]) st') :
    ∃ done st, mergeBkeys m results = .ok (restFreed results st) ∧ SortedPrefix m results st ∧
      P done st := by
  obtain ⟨st, ⟨done, hst, hp, he⟩, hru⟩ := mergeBkeys_rule hn hv
    (I := fun _ st => ∃ done, SortedSoFar m results done st ∧ P done st ∧ st.slots.length < m.count)
    (Q := fun st => ∃ done, SortedSoFar m results done st ∧ P done st ∧
      (st.slots.length = m.count ∨ st.slots.length ≤ m.count ∧
        remaining results.length (elementsLeft results st.resultIdx) = []))
    (fun left st st' stop j e rest hI hr => by
      obtain ⟨done, hst, hp, hl⟩ := hI
      obtain ⟨hne, hsto, hg⟩ := hst.round hr ho hl
      have hp' := hro done st st' stop j e rest hst hp hr
      cases stop with
      | true => exact ⟨_, hne, hp', .inl (hsto rfl)⟩
      | false => exact ⟨_, hne, hp', hg rfl⟩)
    (fun st hno hI => by
      obtain ⟨done, hst, hp, hl⟩ := hI
      exact ⟨done, hst, hp, .inr ⟨hl.le, hno⟩⟩)
    ⟨[], sortedSoFar_init hs, hP, by simp only [ValueSt.init, length_nil]; omega⟩
  exact ⟨done, st, hru, hst.sortedPrefix he, hp⟩

/-- The first part of the merge returns the first `count` elements of the sorted union, and the whole
merge returns them with its code. -/
theorem merged_elements_sorted (m : Merged) (results : List (SmgetResult kind))
    (hnum : results.length ≤ 256)
    (hvalues : m.valueCount = (results.map fun r => r.elements.length).sum) (hoffset : m.offset = 0)
    (hcount : 1 ≤ m.count)
    (hsorted : ∀ r ∈ results, r.elements.Pairwise (StrictlyOrdered m.isDescending)) :
    ∃ st, mergeBkeys m results = .ok st ∧ SortedPrefix m results st ∧
      ∀ stray result, mergeSmgetResults stray m results = .ok result →
        result.slots = st.slots ∧ result.rc = st.rc := by
  have ho : ∀ r ∈ results, r.elements.Pairwise (Ordered m.isDescending) := fun r hr =>
    (hsorted r hr).imp Before.notAfter
  obtain ⟨-, st, hru, ⟨hel, hso, hrc⟩, -⟩ := mergeBkeys_sorted hnum hvalues hoffset hcount ho
    (P := fun _ _ => True) trivial fun _ _ _ _ _ _ _ _ _ _ => trivial
  refine ⟨_, hru, ⟨hel, hso, hrc⟩, fun stray result hre => ?_⟩
  obtain ⟨values, trimmed, hvalues, -, rfl⟩ := mergeSmgetResults_cases hre
  rw [hru] at hvalues
  obtain rfl := Except.ok.inj hvalues
  exact ⟨rfl, rfl⟩

/-- Two servers, and one element of each `bkey` wanted. -/
theorem merged_elements_sorted_two_servers : ∃ st, mergeBkeys ⟨false, 0, 2, .unique, 3, 0⟩
        [⟨[.ofNumber 1 (lit ['a']), .ofNumber 5 (lit ['a'])], [], []⟩,
          ⟨[.ofNumber 1 (lit ['b'])], [], []⟩] = .ok st ∧ SortedPrefix ⟨false, 0, 2, .unique, 3, 0⟩
        [⟨[.ofNumber 1 (lit ['a']), .ofNumber 5 (lit ['a'])], [], []⟩,
          ⟨[.ofNumber 1 (lit ['b'])], [], []⟩] st ∧
      ∀ stray result, mergeSmgetResults stray ⟨false, 0, 2, .unique, 3, 0⟩
          [⟨[.ofNumber 1 (lit ['a']), .ofNumber 5 (lit ['a'])], [], []⟩,
            ⟨[.ofNumber 1 (lit ['b'])], [], []⟩] = .ok result →
        result.slots = st.slots ∧ result.rc = st.rc :=
  merged_elements_sorted _ _ (by decide) rfl rfl (by decide) (by decide)

end ArcusClient.Smget
