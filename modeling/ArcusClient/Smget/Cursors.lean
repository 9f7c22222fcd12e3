import ArcusClient.Smget.Merge

/-!
# The cursors of the merge

The inner loop finds the result of which the next entry comes first (`findSmallest_eq`).  A round takes
that element, or that trimmed key (`mergeElement_spec`, `mergeTrimmedKey_spec`), as long as some result
has an entry left.
-/

namespace ArcusClient.Smget

open CString Coll KWayMerge Outcome List

variable {kind : BkeyKind}

/-! ## Comparison -/

theorem compareTwoHexadecimal_neg_iff : ∀ a b : List Byte, compareTwoHexadecimal a b < 0 ↔ a < b
  | [], [] => by simp [compareTwoHexadecimal]
  | [], _ :: _ => by simp [compareTwoHexadecimal]
  | _ :: _, [] => by simp [compareTwoHexadecimal]
  | a :: lhs, b :: rhs => by
    by_cases ha : a = b
    · subst ha
      simp [compareTwoHexadecimal, compareTwoHexadecimal_neg_iff lhs rhs]
    · by_cases hl : a < b
      · simp [compareTwoHexadecimal, ha, hl, cons_lt_cons_iff]
      · simp [compareTwoHexadecimal, ha, hl, cons_lt_cons_iff]

theorem compareTwoHexadecimal_eq_zero_iff : ∀ a b : List Byte, compareTwoHexadecimal a b = 0 ↔ a = b
  | [], [] => by simp [compareTwoHexadecimal]
  | [], _ :: _ => by simp [compareTwoHexadecimal]
  | _ :: _, [] => by simp [compareTwoHexadecimal]
  | a :: lhs, b :: rhs => by
    by_cases ha : a = b
    · subst ha
      simp [compareTwoHexadecimal, compareTwoHexadecimal_eq_zero_iff lhs rhs]
    · by_cases hl : a < b
      · simp [compareTwoHexadecimal, ha, hl]
      · simp [compareTwoHexadecimal, ha, hl]

theorem compareBkey_neg_iff : ∀ {kind : BkeyKind} (a b : Bkey kind), compareBkey a b < 0 ↔ a < b
  | .number, (a : UInt64), (b : UInt64) => by
    have hl : (@LT.lt (Bkey .number) _ a b) ↔ a.toNat < b.toNat := Iff.rfl
    rw [hl]
    by_cases ha : a = b
    · subst ha
      simp [compareBkey]
    · by_cases h : a < b
      · simp [compareBkey, ha, h, UInt64.lt_iff_toNat_lt.1 h]
      · simp [compareBkey, ha, h, Nat.not_lt.1 (mt UInt64.lt_iff_toNat_lt.2 h)]
  | .byteArray, a, b => compareTwoHexadecimal_neg_iff a b

theorem compareBkey_eq_zero_iff : ∀ {kind : BkeyKind} (a b : Bkey kind), compareBkey a b = 0 ↔ a = b
  | .number, (a : UInt64), (b : UInt64) => by
    show (if a = b then (0 : Int) else if a < b then -1 else 1) = 0 ↔ a = b
    by_cases ha : a = b
    · simp [ha]
    · by_cases h : a < b <;> simp [h]
  | .byteArray, a, b => compareTwoHexadecimal_eq_zero_iff a b

theorem compareBkey_le_iff (a b : Bkey kind) : compareBkey a b ≤ 0 ↔ a ≤ b := by
  rw [Int.le_iff_lt_or_eq, compareBkey_neg_iff, compareBkey_eq_zero_iff, le_iff_lt_or_eq]

theorem bkeyDuplicated_iff {prev : Option (Bkey kind)} :
    bkeyDuplicated prev bkey = true ↔ prev = some bkey := by
  cases prev with
  | none => simp [bkeyDuplicated]
  | some prev => simp [bkeyDuplicated, compareBkey_eq_zero_iff]

abbrev Rank (kind : BkeyKind) := Bkey kind ×ₗ CStr

def rank (bkey : Bkey kind) (key : CStr) : Rank kind := toLex (bkey, key)

def SmgetElement.rank (e : SmgetElement kind) : Rank kind := Smget.rank e.bkey e.key

def TrimmedKey.rank (t : TrimmedKey kind) : Rank kind := Smget.rank t.bkey t.key

theorem rank_lt_iff {a b : Bkey kind} {k l : CStr} : rank a k < rank b l ↔ a < b ∨ a = b ∧ k < l :=
  Prod.Lex.toLex_lt_toLex

/-- The comparison by `bkey`, then by string. -/
theorem takesOver_iff (descending : Bool) (a b : Bkey kind) (k l : CStr) :
    takesOver descending (if compareBkey a b = 0 then strcmp k l else compareBkey a b) = true ↔
      Before descending (rank b l) (rank a k) := by
  have hl : (if compareBkey a b = 0 then strcmp k l else compareBkey a b) < 0 ↔
      rank a k < rank b l := by
    rw [rank_lt_iff]
    by_cases ha : a = b
    · subst ha
      simp [(compareBkey_eq_zero_iff a a).2 rfl, strcmp_neg_iff]
    · simp [mt (compareBkey_eq_zero_iff a b).1 ha, compareBkey_neg_iff, ha]
  have hz : (if compareBkey a b = 0 then strcmp k l else compareBkey a b) = 0 ↔
      rank a k = rank b l := by
    by_cases ha : a = b
    · subst ha
      simp [(compareBkey_eq_zero_iff a a).2 rfl, strcmp_eq_zero_iff, rank]
    · simp [mt (compareBkey_eq_zero_iff a b).1 ha, ha, rank]
  cases descending with
  | true => simpa [takesOver, Before] using hl
  | false =>
    have hn := not_congr (or_congr hl hz)
    rw [← le_iff_lt_or_eq, ← le_iff_lt_or_eq] at hn
    simpa [takesOver, Before] using hn

section Ranks

variable {descending : Bool} {a b : Bkey kind} {k l : CStr}

/-- Of two ranks, the `bkey`s are in order. -/
theorem notAfter_bkey (h : NotAfter descending (rank a k) (rank b l)) :
    NotAfter descending a b := by
  have hl : ∀ {a b : Bkey kind} {k l : CStr}, rank a k ≤ rank b l → a ≤ b := fun ha =>
    (Prod.Lex.toLex_le_toLex.1 ha).elim le_of_lt fun he => he.1.le
  cases descending
  · exact hl (show rank a k ≤ rank b l from h)
  · exact hl (show rank b l ≤ rank a k from h)

/-- Different `bkey`s decide. -/
theorem before_rank_of_bkey (h : NotAfter descending a b) (hn : a ≠ b) :
    Before descending (rank a k) (rank b l) := by
  have hl : ∀ {a b : Bkey kind} {k l : CStr}, a < b → rank a k < rank b l := fun ha =>
    rank_lt_iff.2 (.inl ha)
  cases descending
  · exact hl (lt_of_le_of_ne (show a ≤ b from h) hn)
  · exact hl (lt_of_le_of_ne (show b ≤ a from h) hn.symm)

/-- Of two ranks with the same `bkey`, the strings are in order. -/
theorem notAfter_key (h : NotAfter descending (rank a k) (rank a l)) : NotAfter descending k l := by
  have hl : ∀ {k l : CStr}, rank a k ≤ rank a l → k ≤ l := fun hk =>
    (Prod.Lex.toLex_le_toLex.1 hk).elim (fun hlt => absurd hlt (lt_irrefl a)) fun he => he.2
  cases descending
  · exact hl (show rank a k ≤ rank a l from h)
  · exact hl (show rank a l ≤ rank a k from h)

end Ranks

/-! ## The search -/

section Search

variable {descending : Bool} {present : Nat → Except Fault Bool}
  {compare : Nat → Nat → Except Fault Int} {heads : Nat → Option (Rank kind)} {n : Nat}

theorem findSmallest_eq (hp : ∀ j < n, present j = .ok (heads j).isSome)
    (hco : ∀ s j, s < j → j < n → ∀ a ∈ heads s, ∀ b ∈ heads j,
      ∃ c, compare s j = .ok c ∧ (takesOver descending c = true ↔ Before descending b a)) :
    findSmallest descending present compare n 0 none = .ok (foremost descending heads n) := by
  -- the loop from `j` on, with a smallest so far that has a head
  have hf : ∀ left j smallest, j + left = n → (∀ s ∈ smallest, s < j ∧ (heads s).isSome) →
      findSmallest descending present compare left j smallest =
        .ok (bestFrom (fun j => (heads j).isSome) (headBeats descending heads) left j smallest) := by
    intro left
    induction left with
    | zero => intro j smallest _ _; rfl
    | succ left ih =>
      intro j smallest hj hsm
      have hjn : j < n := by omega
      obtain hh | ⟨b, hh⟩ := Option.eq_none_or_eq_some (heads j)
      · simp only [findSmallest, hp j hjn, bestFrom, better, hh]
        exact ih (j + 1) smallest (by omega) fun s hs => ⟨(hsm s hs).1.trans j.lt_succ_self, (hsm s hs).2⟩
      · simp only [findSmallest, hp j hjn, bestFrom, better, hh]
        cases smallest with
        | none =>
          refine ih (j + 1) (some j) (by omega) fun s hs => ?_
          obtain rfl := Option.some.inj hs
          exact ⟨j.lt_succ_self, by simp [hh]⟩
        | some s =>
          obtain ⟨hsn, hso⟩ := hsm s rfl
          obtain ⟨a, ha⟩ := Option.isSome_iff_exists.1 hso
          obtain ⟨c, hc, hta⟩ := hco s j hsn hjn a ha b hh
          have hb : headBeats descending heads j s = takesOver descending c := by
            rw [Bool.eq_iff_iff, hta]
            simp only [headBeats, hh, ha, decide_eq_true_eq]
          have hn := ih (j + 1) (some (if takesOver descending c then j else s)) (by omega)
            (fun t ht => by
              obtain rfl := Option.some.inj ht
              cases takesOver descending c with
              | true => exact ⟨j.lt_succ_self, by simp [hh]⟩
              | false => exact ⟨hsn.trans j.lt_succ_self, hso⟩)
          simp only [hb, hc]
          exact hn
  exact hf n 0 none (Nat.zero_add n) (by simp)

end Search

/-! ## Rounds over the elements -/

section Elements

variable {m : Merged} {results : List (SmgetResult kind)}

def elementsLeft (results : List (SmgetResult kind)) (resultIdx : Nat → Nat) (j : Nat) :
    List (SmgetElement kind) :=
  (elementsOf results j).drop (resultIdx j)

def elementHeads (results : List (SmgetResult kind)) (resultIdx : Nat → Nat) (j : Nat) :
    Option (Rank kind) :=
  (elementsLeft results resultIdx j).head?.map SmgetElement.rank

theorem elementAt_of_left {resultIdx : Nat → Nat}
    (h : (elementsLeft results resultIdx j).head? = some e) :
    elementAt results j (resultIdx j) = .ok e := by
  rw [elementsLeft, head?_drop] at h
  rw [elementAt, h]

theorem readIdx_eq (hn : n ≤ resultIdxLength) (hj : j < n)
    (resultIdx : Nat → Nat) : readIdx resultIdx j = .ok (resultIdx j) :=
  if_pos (hj.trans_le hn)

theorem findSmallest_elements (hn : results.length ≤ resultIdxLength) (descending : Bool)
    (resultIdx : Nat → Nat) :
    findSmallest descending (elementPresent results resultIdx) (compareElementsAt results resultIdx)
        results.length 0 none =
      .ok (foremost descending (elementHeads results resultIdx) results.length) := by
  refine findSmallest_eq (fun j hj => ?_) fun s j hs hj a ha b hb => ?_
  · rw [elementPresent, readIdx_eq hn hj]
    have hso : (elementsOf results j)[resultIdx j]?.isSome =
        decide (resultIdx j < (elementsOf results j).length) := by
      rw [Bool.eq_iff_iff, decide_eq_true_eq, Option.isSome_iff_ne_none, ne_eq, getElem?_eq_none_iff,
        Nat.not_le]
    simp [elementHeads, elementsLeft, bind, Except.bind, pure, Except.pure, hso]
  · obtain ⟨e, he, rfl⟩ := Option.mem_map.1 ha
    obtain ⟨f, hf, rfl⟩ := Option.mem_map.1 hb
    refine ⟨compareElements e f, ?_, takesOver_iff descending e.bkey f.bkey e.key f.key⟩
    rw [compareElementsAt, readIdx_eq hn (hs.trans hj), readIdx_eq hn hj]
    simp only [bind, Except.bind, elementAt_of_left he, elementAt_of_left hf]
    rfl

def ValueSt.advance (st : ValueSt kind) (slot : Slot kind) : ValueSt kind :=
  { st with
    prevSubKey := some slot.element.bkey
    resultIdx := Function.update st.resultIdx slot.source.1 (slot.source.2 + 1) }

/-- What is done with an element, and whether the loop is left. -/
inductive Taken (m : Merged) (st : ValueSt kind) (slot : Slot kind) : ValueSt kind → Bool → Prop
  | skipped (hdup : bkeyDuplicated st.prevSubKey slot.element.bkey = true)
      (hmode : m.smgmode = .unique) :
      Taken m st slot { st.advance slot with passed := st.passed ++ [slot.source] } false
  | merged (hkept : ¬ (bkeyDuplicated st.prevSubKey slot.element.bkey = true ∧ m.smgmode = .unique))
      (hwindow : m.offset ≤ st.foundCount ∧ st.foundCount < m.offset + m.count) :
      Taken m st slot
        { st.advance slot with
          rc := if 0 < st.slots.length ∧ bkeyDuplicated st.prevSubKey slot.element.bkey = true ∧
            st.rc = .endOfReply then .duplicated else st.rc
          slots := st.slots ++ [slot]
          foundCount := st.foundCount + 1 }
        (decide (m.count ≤ st.slots.length + 1))
  | released (hkept : ¬ (bkeyDuplicated st.prevSubKey slot.element.bkey = true ∧ m.smgmode = .unique))
      (hwindow : ¬ (m.offset ≤ st.foundCount ∧ st.foundCount < m.offset + m.count)) :
      Taken m st slot
        { st.advance slot with
          freed := st.freed ++ [slot.source]
          foundCount := st.foundCount + 1 }
        (decide (m.count ≤ st.slots.length))

theorem takeElement_cases (slot : Slot kind) (hr : st.slots.length < m.valueCount) :
    ∃ st' stop, takeElement m st slot = .ok (st', stop) ∧ Taken m st slot st' stop := by
  unfold takeElement
  by_cases hs : bkeyDuplicated st.prevSubKey slot.element.bkey = true ∧ m.smgmode = .unique
  · have hc : (bkeyDuplicated st.prevSubKey slot.element.bkey && decide (m.smgmode = .unique)) =
        true := by simpa using hs
    rw [if_pos hc]
    exact ⟨_, _, rfl, .skipped hs.1 hs.2⟩
  · have hc : ¬ (bkeyDuplicated st.prevSubKey slot.element.bkey && decide (m.smgmode = .unique)) =
        true := by simpa using hs
    rw [if_neg hc]
    by_cases hw : m.offset ≤ st.foundCount ∧ st.foundCount < m.offset + m.count
    · rw [if_pos hw, if_pos hr]
      exact ⟨_, _, rfl, .merged hs hw⟩
    · rw [if_neg hw]
      exact ⟨_, _, rfl, .released hs hw⟩

structure Round (m : Merged) (results : List (SmgetResult kind)) (st st' : ValueSt kind) (stop : Bool)
    (j : Nat) (e : SmgetElement kind) (rest : List (SmgetElement kind)) : Prop where
  foremost : foremost m.isDescending (elementHeads results st.resultIdx) results.length = some j
  left : elementsLeft results st.resultIdx j = e :: rest
  taken : Taken m st ⟨e, (j, st.resultIdx j)⟩ st' stop

theorem mergeElement_spec (hn : results.length ≤ resultIdxLength)
    (hl : remaining results.length (elementsLeft results st.resultIdx) ≠ [])
    (hr : st.slots.length < m.valueCount) :
    ∃ st' stop j e rest, mergeElement m results st = .ok (st', stop) ∧
      Round m results st st' stop j e rest := by
  obtain ⟨j, e, rest, hj, hjn, hre⟩ : ∃ j e rest,
      foremost m.isDescending (elementHeads results st.resultIdx) results.length = some j ∧
        j < results.length ∧ elementsLeft results st.resultIdx j = e :: rest :=
    exists_foremost_head hl
  have he : (elementsLeft results st.resultIdx j).head? = some e := by rw [hre]; rfl
  obtain ⟨st', stop, ht, hta⟩ := takeElement_cases ⟨e, (j, st.resultIdx j)⟩ hr
  refine ⟨st', stop, j, e, rest, ?_, hj, hre, hta⟩
  rw [mergeElement, findSmallest_elements hn, hj]
  simp only [bind, Except.bind, readIdx_eq hn hjn, elementAt_of_left he]
  exact ht

variable {st st' : ValueSt kind} {stop : Bool} {j : Nat} {e : SmgetElement kind}
  {rest : List (SmgetElement kind)}

theorem Taken.resultIdx_eq (h : Taken m st slot st' stop) :
    st'.resultIdx = Function.update st.resultIdx slot.source.1 (slot.source.2 + 1) := by
  cases h <;> rfl

theorem Taken.prevSubKey_eq (h : Taken m st slot st' stop) :
    st'.prevSubKey = some slot.element.bkey := by
  cases h <;> rfl

theorem Round.lt (h : Round m results st st' stop j e rest) : j < results.length := by
  obtain ⟨-, -, hj, -⟩ := foremost_spec h.foremost
  exact hj

theorem Round.cursor_lt (h : Round m results st st' stop j e rest) :
    st.resultIdx j < (elementsOf results j).length :=
  cursor_lt_of_ahead h.left

theorem Round.getElem?_eq (h : Round m results st st' stop j e rest) :
    (elementsOf results j)[st.resultIdx j]? = some e :=
  getElem?_of_ahead h.left

theorem Round.notAfter (h : Round m results st st' stop j e rest) (hi : i < results.length)
    (hf : (elementsLeft results st.resultIdx i).head? = some f) :
    NotAfter m.isDescending e.rank f.rank :=
  foremost_notAfter h.foremost h.left hi hf

theorem Round.sources (h : Round m results st st' stop j e rest) (hs : ∀ slot ∈ st.slots,
      (elementsOf results slot.source.1)[slot.source.2]? = some slot.element) :
    ∀ slot ∈ st'.slots, (elementsOf results slot.source.1)[slot.source.2]? = some slot.element := by
  cases h.taken with
  | skipped | released => exact hs
  | merged =>
    intro slot hm
    obtain hm | hm := mem_append.1 hm
    · exact hs slot hm
    · rw [mem_singleton.1 hm]
      exact h.getElem?_eq

theorem Round.elementsLeft_eq (h : Round m results st st' stop j e rest) :
    elementsLeft results st'.resultIdx =
      Function.update (elementsLeft results st.resultIdx) j rest := by
  rw [h.taken.resultIdx_eq]
  exact ahead_update h.left

theorem Round.length_remaining (h : Round m results st st' stop j e rest) :
    (remaining results.length (elementsLeft results st.resultIdx)).length =
      (remaining results.length (elementsLeft results st'.resultIdx)).length + 1 := by
  rw [h.elementsLeft_eq, (remaining_update h.lt h.left).length_eq]
  rfl

theorem Taken.length_slots_le (h : Taken m st slot st' stop) :
    st'.slots.length ≤ st.slots.length + 1 := by
  cases h with
  | skipped | released => exact Nat.le_succ _
  | merged => simp

theorem remaining_elementsOf :
    remaining results.length (elementsOf results) = results.flatMap SmgetResult.elements :=
  remaining_eq_flatMap fun _ => rfl

theorem length_remaining_elementsOf : (remaining results.length (elementsOf results)).length =
      (results.map fun r => r.elements.length).sum := by
  rw [remaining_elementsOf, length_flatMap]

section Rule

variable {I : Nat → ValueSt kind → Prop} {Q : ValueSt kind → Prop}

/-- The rule for the loop over the elements: an invariant that every round keeps or, when it leaves
the loop, ends.  The rounds to go are the elements left, and there is room for each of them. -/
theorem mergeElements_loop (hn : results.length ≤ resultIdxLength)
    (hro : ∀ left st st' stop j e rest, I (left + 1) st → Round m results st st' stop j e rest →
      if stop then Q st' else I left st')
    (he : ∀ st, remaining results.length (elementsLeft results st.resultIdx) = [] → I 0 st → Q st)
    (left : Nat) (st : ValueSt kind)
    (hl : (remaining results.length (elementsLeft results st.resultIdx)).length = left)
    (hroo : st.slots.length + left ≤ m.valueCount) (hI : I left st) :
    ∃ st', mergeElements m results left st = .ok st' ∧ Q st' := by
  induction left generalizing st with
  | zero => exact ⟨st, rfl, he st (eq_nil_of_length_eq_zero hl) hI⟩
  | succ left ih =>
    have hne : remaining results.length (elementsLeft results st.resultIdx) ≠ [] :=
      ne_nil_of_length_eq_add_one hl
    obtain ⟨st', stop, j, e, rest, hru, hr⟩ := mergeElement_spec (m := m) hn hne (by omega)
    have hk := hro left st st' stop j e rest hI hr
    rw [mergeElements, hru]
    cases stop with
    | true => exact ⟨st', rfl, hk⟩
    | false =>
      have hle := hr.length_remaining
      have hs := hr.taken.length_slots_le
      exact ih st' (by omega) (by omega) hk

theorem mergeElements_rule (hn : results.length ≤ resultIdxLength)
    (hv : m.valueCount = (results.map fun r => r.elements.length).sum)
    (hr : ∀ left st st' stop j e rest, I (left + 1) st → Round m results st st' stop j e rest →
      if stop then Q st' else I left st')
    (he : ∀ st, remaining results.length (elementsLeft results st.resultIdx) = [] → I 0 st → Q st)
    (hin : I m.valueCount .init) :
    ∃ st, mergeElements m results m.valueCount .init = .ok st ∧ Q st := by
  refine mergeElements_loop hn hr he m.valueCount .init ?_ (by simp [ValueSt.init]) hin
  rw [hv, ← length_remaining_elementsOf]
  rfl

end Rule

/-! ### What is left is released -/

def placesLeft (results : List (SmgetResult kind)) (resultIdx : Nat → Nat) (j : Nat) : List Place :=
  (List.range' (resultIdx j) ((elementsOf results j).length - resultIdx j)).map fun y => (j, y)

def restFreed (results : List (SmgetResult kind)) (st : ValueSt kind) : ValueSt kind :=
  { st with freed := st.freed ++ remaining results.length (placesLeft results st.resultIdx) }

theorem freeRest_eq (hn : results.length ≤ resultIdxLength) (st : ValueSt kind) :
    Loops.forLoopM results.length (freeRest results) st = .ok (restFreed results st) := by
  have he : Ends (fun _ => False)
      (fun s : ValueSt kind => s = restFreed results st)
      (Loops.forLoopM results.length (freeRest results) st) := by
    refine Loops.forLoopM_invariant
      (I := fun k s => s = { st with freed := st.freed ++ remaining k (placesLeft results st.resultIdx) })
      (fun k s hk hs => ?_) (s := st) (by simp [remaining])
    subst hs
    rw [freeRest, readIdx_eq hn hk]
    simp [bind, Except.bind, remaining, range_succ, placesLeft]
  cases hr : Loops.forLoopM results.length (freeRest results) st with
  | ok s => exact congrArg Except.ok (he.of_eq_ok hr)
  | error f => exact (he.of_eq_error hr).elim

theorem mergeBkeys_eq (hn : results.length ≤ resultIdxLength)
    (h : mergeElements m results m.valueCount .init = .ok st) :
    mergeBkeys m results = .ok (restFreed results st) := by
  rw [mergeBkeys, h]
  exact freeRest_eq hn st

theorem mergeBkeys_rule (hn : results.length ≤ resultIdxLength)
    (hv : m.valueCount = (results.map fun r => r.elements.length).sum)
    {I : Nat → ValueSt kind → Prop} {Q : ValueSt kind → Prop}
    (hr : ∀ left st st' stop j e rest, I (left + 1) st → Round m results st st' stop j e rest →
      if stop then Q st' else I left st')
    (he : ∀ st, remaining results.length (elementsLeft results st.resultIdx) = [] → I 0 st → Q st)
    (hin : I m.valueCount .init) :
    ∃ st, Q st ∧ mergeBkeys m results = .ok (restFreed results st) := by
  obtain ⟨st, hru, hQ⟩ := mergeElements_rule hn hv hr he hin
  exact ⟨st, hQ, mergeBkeys_eq hn hru⟩

/-- The slots hold elements of the results, and there are no more of them. -/
theorem mergeBkeys_sources (hn : results.length ≤ resultIdxLength)
    (hv : m.valueCount = (results.map fun r => r.elements.length).sum) :
    ∃ st, mergeBkeys m results = .ok st ∧ st.slots.length ≤ m.valueCount ∧
      ∀ slot ∈ st.slots, (elementsOf results slot.source.1)[slot.source.2]? = some slot.element := by
  obtain ⟨st, ⟨hl, hs⟩, hru⟩ := mergeBkeys_rule hn hv
    (I := fun left st => st.slots.length + left ≤ m.valueCount ∧
      ∀ slot ∈ st.slots, (elementsOf results slot.source.1)[slot.source.2]? = some slot.element)
    (Q := fun st => st.slots.length ≤ m.valueCount ∧
      ∀ slot ∈ st.slots, (elementsOf results slot.source.1)[slot.source.2]? = some slot.element)
    (fun left st st' stop j e rest hI hr => by
      have hl := hr.taken.length_slots_le
      have hso := hr.sources hI.2
      cases stop with
      | true => exact ⟨by omega, hso⟩
      | false => exact ⟨by omega, hso⟩)
    (fun st _ hI => ⟨by omega, hI.2⟩) ⟨by simp [ValueSt.init], by simp [ValueSt.init]⟩
  exact ⟨_, hru, hl, hs⟩

theorem length_le_of_mergeBkeys (h : mergeBkeys m results = .ok st) :
    results.length ≤ resultIdxLength := by
  unfold mergeBkeys at h
  cases hr : mergeElements m results m.valueCount .init with
  | error f => simp [hr, bind, Except.bind] at h
  | ok st' =>
    simp only [hr] at h
    refine Nat.le_of_not_lt fun hl => ?_
    obtain ⟨t, t', ht⟩ := Loops.forLoopM_ok h hl
    simp [freeRest, readIdx] at ht

theorem element_mem_of_mergeBkeys (hv : m.valueCount = (results.map fun r => r.elements.length).sum)
    (h : mergeBkeys m results = .ok st) (hs : slot ∈ st.slots) :
    slot.element ∈ results.flatMap SmgetResult.elements := by
  obtain ⟨st', hs', -, hso⟩ := mergeBkeys_sources (length_le_of_mergeBkeys h) hv
  obtain rfl := Except.ok.inj (h.symm.trans hs')
  have hm := mem_of_getElem? (hso slot hs)
  have hj : slot.source.1 < results.length := by
    refine Nat.lt_of_not_le fun hg => ?_
    rw [elementsOf, getElem?_eq_none hg] at hm
    exact absurd hm not_mem_nil
  rw [← remaining_elementsOf]
  exact mem_remaining.2 ⟨slot.source.1, hj, hm⟩

theorem mergeSmgetResults_eq {stray : Place → Option CStr} (hv : mergeBkeys m results = .ok values)
    (ht : mergeTrimmedKeys m results (keyAt results stray values.freed) values.slots =
      .ok trimmed) : mergeSmgetResults stray m results =
      .ok ⟨values.rc, values.slots, results.flatMap SmgetResult.missedKeys, trimmed.slots,
        values.freed, values.passed⟩ := by
  rw [mergeSmgetResults, hv]
  simp only [bind, Except.bind, ht]
  rfl

theorem mergeSmgetResults_cases {stray : Place → Option CStr}
    (h : mergeSmgetResults stray m results = .ok result) :
    ∃ values trimmed, mergeBkeys m results = .ok values ∧
      mergeTrimmedKeys m results (keyAt results stray values.freed) values.slots = .ok trimmed ∧
      result = ⟨values.rc, values.slots, results.flatMap SmgetResult.missedKeys, trimmed.slots,
        values.freed, values.passed⟩ := by
  unfold mergeSmgetResults at h
  cases hv : mergeBkeys m results with
  | error f => simp [hv, bind, Except.bind] at h
  | ok values =>
    cases ht : mergeTrimmedKeys m results (keyAt results stray values.freed)
        values.slots with
    | error f => simp [hv, ht, bind, Except.bind] at h
    | ok trimmed =>
      simp only [hv, ht, bind, Except.bind, pure, Except.pure, Except.ok.injEq] at h
      exact ⟨values, trimmed, rfl, ht, h.symm⟩

end Elements

end ArcusClient.Smget
