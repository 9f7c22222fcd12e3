import ArcusClient.Smget.Cursors

/-!
# The trimmed keys, and the bounds of the arrays

A round of the third part takes the foremost trimmed key, by `bkey` and, for equal `bkey`s, by strings
that belong to other entries (`mergeTrimmedKey_spec`).  Whether these strings can be read is left open
here: apart from them, the merge stays within its arrays if there are at most 256 results and, when there
are trimmed keys, at least one element (`merge_in_range_iff`).
-/

namespace ArcusClient.Smget

open CString Coll KWayMerge Outcome List Function

variable {kind : BkeyKind} {m : Merged} {results : List (SmgetResult kind)}

/-! ## Rounds over the trimmed keys -/

def trimmedLeft (results : List (SmgetResult kind)) (resultIdx : Nat → Nat) (j : Nat) :
    List (TrimmedKey kind) :=
  (trimmedKeysOf results j).drop (resultIdx j)

/-- What a trimmed key is compared by: its `bkey`, and the key of the element at its index. -/
def trimmedHeads (results : List (SmgetResult kind)) (strings : Nat → Nat → CStr)
    (resultIdx : Nat → Nat) (j : Nat) : Option (Rank kind) :=
  (trimmedLeft results resultIdx j).head?.map fun t => rank t.bkey (strings j (resultIdx j))

/-- The strings are read where trimmed keys of two results have the same `bkey`. -/
def ReadsStrings (results : List (SmgetResult kind)) (keys : Nat → Nat → Except Fault CStr)
    (strings : Nat → Nat → CStr) : Prop :=
  ∀ (i j x y : Nat) (t u : TrimmedKey kind), i ≠ j → (trimmedKeysOf results i)[x]? = some t →
    (trimmedKeysOf results j)[y]? = some u → t.bkey = u.bkey → keys i x = .ok (strings i x)

theorem readsStrings_ok (strings : Nat → Nat → CStr) :
    ReadsStrings results (fun j x => .ok (strings j x)) strings :=
  fun _ _ _ _ _ _ _ _ _ _ => rfl

/-- Where no `bkey` occurs in two results, no string is read. -/
theorem readsStrings_of_apart (ha : ∀ i j, i ≠ j → ∀ x ∈ trimmedKeysOf results i,
      ∀ y ∈ trimmedKeysOf results j, x.bkey ≠ y.bkey) (keys : Nat → Nat → Except Fault CStr)
    (strings : Nat → Nat → CStr) : ReadsStrings results keys strings :=
  fun i j _ _ t u hij ht hu he =>
    absurd he (ha i j hij t (mem_of_getElem? ht) u (mem_of_getElem? hu))

/-- A count is set to zero when the cursor reaches it. -/
def CountsKept (results : List (SmgetResult kind)) (st : TrimmedSt kind) : Prop :=
  ∀ j, st.counts j =
    if st.resultIdx j < (trimmedKeysOf results j).length then (trimmedKeysOf results j).length else 0

theorem countsKept_init (results : List (SmgetResult kind)) :
    CountsKept results (.init results) := by
  intro j
  obtain hz | hp := Nat.eq_zero_or_pos (trimmedKeysOf results j).length
  · simp [TrimmedSt.init, hz]
  · exact (if_pos hp).symm

theorem lt_length_of_trimmed (hx : x ∈ trimmedKeysOf results i) : i < results.length := by
  refine Nat.lt_of_not_le fun hg => ?_
  rw [trimmedKeysOf, getElem?_eq_none hg] at hx
  exact not_mem_nil hx

theorem trimmedAt_of_left {resultIdx : Nat → Nat}
    (h : (trimmedLeft results resultIdx j).head? = some t) :
    trimmedAt results j (resultIdx j) = .ok t := by
  rw [trimmedLeft, head?_drop] at h
  rw [trimmedAt, h]

section Rounds

variable {keys : Nat → Nat → Except Fault CStr} {strings : Nat → Nat → CStr}
  {slots : List (Slot kind)} {last : Option (Bkey kind)} {st st' : TrimmedSt kind} {j : Nat}
  {t : TrimmedKey kind} {rest : List (TrimmedKey kind)}

theorem compareTrimmedAt_eq (hn : results.length ≤ resultIdxLength) {resultIdx : Nat → Nat}
    (hi : i < results.length) (hj : j < results.length)
    (ht : (trimmedLeft results resultIdx i).head? = some t)
    (hu : (trimmedLeft results resultIdx j).head? = some u) :
    compareTrimmedAt results keys resultIdx i j =
      if compareBkey t.bkey u.bkey = 0 then do
        let k ← keys i (resultIdx i)
        let l ← keys j (resultIdx j)
        return strcmp k l
      else .ok (compareBkey t.bkey u.bkey) := by
  rw [compareTrimmedAt, readIdx_eq hn hi, readIdx_eq hn hj]
  simp only [bind, Except.bind, trimmedAt_of_left ht, trimmedAt_of_left hu]
  rfl

theorem findSmallest_trimmed (hk : ReadsStrings results keys strings)
    (hn : results.length ≤ resultIdxLength) (hc : CountsKept results st) (descending : Bool) :
    findSmallest descending (fun j => .ok (decide (st.counts j ≠ 0)))
        (compareTrimmedAt results keys st.resultIdx) results.length 0 none =
      .ok (foremost descending (trimmedHeads results strings st.resultIdx) results.length) := by
  refine findSmallest_eq (fun j hj => ?_) fun s j hs hj a ha b hb => ?_
  · congr 1
    rw [Bool.eq_iff_iff, decide_eq_true_eq, trimmedHeads, Option.isSome_map, trimmedLeft,
      head?_drop, Option.isSome_iff_ne_none, ne_eq, ne_eq, getElem?_eq_none_iff, hc j]
    split <;> omega
  · obtain ⟨t, ht, rfl⟩ := Option.mem_map.1 ha
    obtain ⟨u, hu, rfl⟩ := Option.mem_map.1 hb
    refine ⟨_, ?_, takesOver_iff descending t.bkey u.bkey _ _⟩
    rw [compareTrimmedAt_eq hn (hs.trans hj) hj ht hu]
    split
    · next hz =>
      have he : t.bkey = u.bkey := (compareBkey_eq_zero_iff _ _).1 hz
      rw [trimmedLeft, head?_drop] at ht hu
      rw [hk s j _ _ t u hs.ne ht hu he, hk j s _ _ u t hs.ne' hu ht he.symm]
      rfl
    · rfl

structure TrimmedRound (m : Merged) (results : List (SmgetResult kind)) (strings : Nat → Nat → CStr)
    (last : Option (Bkey kind)) (st st' : TrimmedSt kind) (j : Nat) (t : TrimmedKey kind)
    (rest : List (TrimmedKey kind)) : Prop where
  foremost : foremost m.isDescending (trimmedHeads results strings st.resultIdx) results.length = some j
  left : trimmedLeft results st.resultIdx j = t :: rest
  next : st' = takeTrimmed st (shouldMerge last t) ⟨t, (j, st.resultIdx j)⟩

theorem mergeTrimmedKey_spec (hk : ReadsStrings results keys strings)
    (hn : results.length ≤ resultIdxLength) (hl : lastFound m slots = .ok last)
    (hc : CountsKept results st)
    (hle : remaining results.length (trimmedLeft results st.resultIdx) ≠ []) :
    ∃ st' j t rest, mergeTrimmedKey m results keys slots st = .ok st' ∧
      TrimmedRound m results strings last st st' j t rest := by
  obtain ⟨j, t, rest, hj, hjn, hr⟩ : ∃ j t rest,
      foremost m.isDescending (trimmedHeads results strings st.resultIdx) results.length = some j ∧
        j < results.length ∧ trimmedLeft results st.resultIdx j = t :: rest :=
    exists_foremost_head hle
  have ht : (trimmedLeft results st.resultIdx j).head? = some t := by rw [hr]; rfl
  refine ⟨_, j, t, rest, ?_, hj, hr, rfl⟩
  rw [mergeTrimmedKey, findSmallest_trimmed hk hn hc, hj]
  simp only [bind, Except.bind, hl, readIdx_eq hn hjn, trimmedAt_of_left ht]
  rfl

theorem TrimmedRound.lt (h : TrimmedRound m results strings last st st' j t rest) :
    j < results.length := by
  obtain ⟨-, -, hj, -⟩ := foremost_spec h.foremost
  exact hj

theorem TrimmedRound.resultIdx_eq (h : TrimmedRound m results strings last st st' j t rest) :
    st'.resultIdx = Function.update st.resultIdx j (st.resultIdx j + 1) := by
  rw [h.next]
  rfl

theorem TrimmedRound.cursor_lt (h : TrimmedRound m results strings last st st' j t rest) :
    st.resultIdx j < (trimmedKeysOf results j).length :=
  cursor_lt_of_ahead h.left

theorem TrimmedRound.notAfter (h : TrimmedRound m results strings last st st' j t rest)
    (hi : i < results.length) (hu : (trimmedLeft results st.resultIdx i).head? = some u) :
    NotAfter m.isDescending (rank t.bkey (strings j (st.resultIdx j)))
      (rank u.bkey (strings i (st.resultIdx i))) :=
  foremost_notAfter h.foremost h.left hi hu

theorem TrimmedRound.trimmedLeft_eq (h : TrimmedRound m results strings last st st' j t rest) :
    trimmedLeft results st'.resultIdx =
      Function.update (trimmedLeft results st.resultIdx) j rest := by
  rw [h.resultIdx_eq]
  exact ahead_update h.left

theorem TrimmedRound.length_remaining (h : TrimmedRound m results strings last st st' j t rest) :
    (remaining results.length (trimmedLeft results st.resultIdx)).length =
      (remaining results.length (trimmedLeft results st'.resultIdx)).length + 1 := by
  rw [h.trimmedLeft_eq, (remaining_update h.lt h.left).length_eq]
  rfl

theorem TrimmedRound.countsKept (h : TrimmedRound m results strings last st st' j t rest)
    (hc : CountsKept results st) : CountsKept results st' := by
  have hl := h.cursor_lt
  have hj : st.counts j = (trimmedKeysOf results j).length := by rw [hc j, if_pos hl]
  intro i
  rw [h.next]
  simp only [takeTrimmed, hj]
  by_cases hij : i = j
  · subst hij
    rw [update_self]
    by_cases he : (trimmedKeysOf results i).length ≤ st.resultIdx i + 1
    · rw [if_pos he, update_self, if_neg (Nat.not_lt.2 he)]
    · rw [if_neg he, hj, if_pos (Nat.not_le.1 he)]
  · rw [update_of_ne hij, ← hc i]
    split
    · exact update_of_ne hij _ _
    · rfl

theorem remaining_trimmedKeysOf :
    remaining results.length (trimmedKeysOf results) = results.flatMap SmgetResult.trimmedKeys :=
  remaining_eq_flatMap fun _ => rfl

theorem mergeTrimmedKeys_rule (hk : ReadsStrings results keys strings) {I : TrimmedSt kind → Prop}
    (hn : results.length ≤ resultIdxLength)
    (ht : m.trimmedKeyCount = (results.map fun r => r.trimmedKeys.length).sum)
    (hl : m.trimmedKeyCount ≠ 0 → lastFound m slots = .ok last)
    (hro : ∀ st st' j t rest, I st → TrimmedRound m results strings last st st' j t rest → I st')
    (hin : I (.init results)) : ∃ st, mergeTrimmedKeys m results keys slots = .ok st ∧ I st ∧
      remaining results.length (trimmedLeft results st.resultIdx) = [] := by
  have he : Ends (fun _ => False)
      (fun st : TrimmedSt kind =>
        (remaining results.length (trimmedLeft results st.resultIdx)).length + m.trimmedKeyCount =
          m.trimmedKeyCount ∧ CountsKept results st ∧ I st)
      (mergeTrimmedKeys m results keys slots) := by
    refine Loops.forLoopM_invariant
      (I := fun k (st : TrimmedSt kind) =>
        (remaining results.length (trimmedLeft results st.resultIdx)).length + k =
          m.trimmedKeyCount ∧ CountsKept results st ∧ I st)
      (fun k st hlt hs => ?_) ⟨?_, countsKept_init results, hin⟩
    · obtain ⟨hle, hc, hI⟩ := hs
      have hne : remaining results.length (trimmedLeft results st.resultIdx) ≠ [] := fun hni => by
        rw [hni, length_nil] at hle
        omega
      obtain ⟨st', j, t, rest, hru, hr⟩ :=
        mergeTrimmedKey_spec hk hn (hl (by omega)) hc hne
      rw [hru]
      refine ⟨?_, hr.countsKept hc, hro st st' j t rest hI hr⟩
      have hlen := hr.length_remaining
      omega
    · rw [ht, ← length_flatMap, ← remaining_trimmedKeysOf]
      rfl
  cases hru : mergeTrimmedKeys m results keys slots with
  | error f => exact (he.of_eq_error hru).elim
  | ok st =>
    obtain ⟨hle, -, hI⟩ := he.of_eq_ok hru
    exact ⟨st, rfl, hI, eq_nil_of_length_eq_zero (by omega)⟩

/-- What is kept of the trimmed keys, in the order in which they are taken. -/
theorem mergeTrimmedKeys_kept (hk : ReadsStrings results keys strings)
    (hn : results.length ≤ resultIdxLength)
    (ht : m.trimmedKeyCount = (results.map fun r => r.trimmedKeys.length).sum)
    (hl : m.trimmedKeyCount ≠ 0 → lastFound m slots = .ok last) :
    ∃ st, mergeTrimmedKeys m results keys slots = .ok st ∧
      ∃ done : List (TrimmedKey kind), done.Perm (results.flatMap SmgetResult.trimmedKeys) ∧
        st.slots.map TrimmedSlot.trimmed = done.filter (shouldMerge last) := by
  obtain ⟨st, hru, ⟨done, hp, hs⟩, hno⟩ := mergeTrimmedKeys_rule hk
    (I := fun st => ∃ done : List (TrimmedKey kind),
      (done ++ remaining results.length (trimmedLeft results st.resultIdx)).Perm
        (results.flatMap SmgetResult.trimmedKeys) ∧
      st.slots.map TrimmedSlot.trimmed = done.filter (shouldMerge last)) hn ht hl
    (fun st st' j t rest ⟨done, hp, hs⟩ hr => by
      refine ⟨done ++ [t], ?_, ?_⟩
      · rw [hr.trimmedLeft_eq, append_assoc]
        exact ((remaining_update hr.lt hr.left).symm.append_left done).trans hp
      · rw [hr.next, filter_append, ← hs]
        cases hk : shouldMerge last t <;> simp [takeTrimmed, hk])
    ⟨[], by rw [← remaining_trimmedKeysOf]; exact Perm.refl _, rfl⟩
  rw [hno, append_nil] at hp
  exact ⟨st, hru, done, hp, hs⟩

end Rounds

/-! ## Strings that are not there -/

/-- A string is read that is not there. -/
def Fault.OfKeys : Fault → Prop
  | .keys _ _ => True
  | _ => False

section Strings

variable {keys keys' : Nat → Nat → Except Fault CStr} {slots : List (Slot kind)}

theorem findSmallest_unless {E : Fault → Prop} {compare compare' : Nat → Nat → Except Fault Int}
    (h : ∀ s j, Unless E (compare s j) (compare' s j)) (descending : Bool)
    (present : Nat → Except Fault Bool) (left j : Nat) (smallest : Option Nat) :
    Unless E (findSmallest descending present compare left j smallest)
      (findSmallest descending present compare' left j smallest) := by
  induction left generalizing j smallest with
  | zero => exact .inl rfl
  | succ left ih =>
    refine Unless.bind (.inl rfl) fun here => ?_
    cases here with
    | false => exact ih _ _
    | true =>
      cases smallest with
      | none => exact ih _ _
      | some s => exact (h s j).bind fun _ => ih _ _

/-- Whatever the strings are: the outcome is the same unless one is read that is not there. -/
theorem mergeTrimmedKey_unless (h : ∀ j x, Unless Fault.OfKeys (keys j x) (keys' j x))
    (st : TrimmedSt kind) : Unless Fault.OfKeys (mergeTrimmedKey m results keys slots st)
      (mergeTrimmedKey m results keys' slots st) := by
  refine Unless.bind (findSmallest_unless (fun s j => ?_) _ _ _ _ _) fun _ => .inl rfl
  refine Unless.bind (.inl rfl) fun x => Unless.bind (.inl rfl) fun a => ?_
  refine Unless.bind (.inl rfl) fun y => Unless.bind (.inl rfl) fun b => ?_
  by_cases hz : compareBkey a.bkey b.bkey = 0
  · simp only [hz, if_true]
    exact (h s x).bind fun k => (h j y).bind fun l => .inl rfl
  · simp only [hz, if_false]
    exact .inl rfl

/-- Strings in the order of their lengths. -/
def ofLength (length : Nat) : CStr := replicate length (ofChar 'a')

theorem keyAt_unless {key : CStr} (h : ∀ e, (elementsOf results j)[x]? = some e → e.key = key)
    (freed : List Place) :
    Unless Fault.OfKeys (keyAt results (fun _ => none) freed j x) (.ok key) := by
  unfold keyAt
  cases he : (elementsOf results j)[x]? with
  | none => exact .inr ⟨.keys j x, trivial, rfl⟩
  | some e =>
    dsimp only
    split
    · exact .inr ⟨.keys j x, trivial, rfl⟩
    · exact .inl (congrArg _ (h e he))

end Strings

/-! ## Bounds -/

theorem mergeBkeys_slots_ne_nil (hn : results.length ≤ resultIdxLength)
    (hv : m.valueCount = (results.map fun r => r.elements.length).sum) (ho : m.offset = 0)
    (hc : 1 ≤ m.count) :
    ∃ st, mergeBkeys m results = .ok st ∧ (st.slots = [] ↔ m.valueCount = 0) := by
  obtain ⟨st, hs, hru⟩ := mergeBkeys_rule hn hv
    (I := fun left st => st.slots ≠ [] ∧ m.valueCount ≠ 0 ∨
      st.slots = [] ∧ st.prevSubKey = none ∧ st.foundCount = 0 ∧ left = m.valueCount)
    (Q := fun st => st.slots = [] ↔ m.valueCount = 0)
    (fun left st st' stop j e rest hI hr => by
      have hnex : st'.slots ≠ [] ∧ m.valueCount ≠ 0 := by
        obtain ⟨hsl, hne⟩ | ⟨hsl, hp, hf, hl⟩ := hI
        · refine ⟨?_, hne⟩
          cases hr.taken with
          | skipped | released => exact hsl
          | merged => simp
        · refine ⟨?_, by omega⟩
          cases hr.taken with
          | skipped hd => simp [hp, bkeyDuplicated] at hd
          | merged => simp
          | released _ hw => omega
      cases stop with
      | true => exact iff_of_false hnex.1 hnex.2
      | false => exact .inl hnex)
    (fun st _ hI => by
      obtain ⟨hsl, hne⟩ | ⟨hsl, -, -, hz⟩ := hI
      · exact iff_of_false hsl hne
      · exact iff_of_true hsl hz.symm)
    (.inr ⟨rfl, rfl, rfl, rfl⟩)
  exact ⟨_, hru, hs⟩

/-- The first trimmed key is compared with an element that is not there. -/
theorem mergeTrimmedKey_of_nil (hc : 1 ≤ m.count) (keys : Nat → Nat → Except Fault CStr)
    (st st' : TrimmedSt kind) : mergeTrimmedKey m results keys [] st ≠ .ok st' := by
  have hl : lastFound m ([] : List (Slot kind)) = .error (.mergedSubKeys (-1)) :=
    if_pos (Nat.lt_of_lt_of_le Nat.zero_lt_one hc)
  unfold mergeTrimmedKey
  cases findSmallest m.isDescending (fun j => .ok (decide (st.counts j ≠ 0)))
      (compareTrimmedAt results keys st.resultIdx) results.length 0 none with
  | error f => simp [bind, Except.bind]
  | ok smallest =>
    cases smallest with
    | none => simp [bind, Except.bind]
    | some j => simp [bind, Except.bind, hl]

/-- Where there are trimmed keys, the third part ends only if an element was merged. -/
theorem slots_ne_nil_of_mergeTrimmedKeys (hc : 1 ≤ m.count) (hs : m.trimmedKeyCount ≠ 0)
    {keys : Nat → Nat → Except Fault CStr}
    (h : mergeTrimmedKeys m results keys slots = .ok st) : slots ≠ [] := by
  rintro rfl
  obtain ⟨s, s', hb⟩ := Loops.forLoopM_ok h (Nat.pos_of_ne_zero hs)
  exact mergeTrimmedKey_of_nil hc keys s s' hb

theorem valueCount_ne_zero_of_mergeSmgetResults {stray : Place → Option CStr}
    (hv : m.valueCount = (results.map fun r => r.elements.length).sum) (ho : m.offset = 0)
    (hc : 1 ≤ m.count) (hs : m.trimmedKeyCount ≠ 0)
    (hr : mergeSmgetResults stray m results = .ok result) : m.valueCount ≠ 0 := by
  obtain ⟨values, trimmed, hb, ht, -⟩ := mergeSmgetResults_cases hr
  obtain ⟨st, hst, hsl⟩ :=
    mergeBkeys_slots_ne_nil (length_le_of_mergeBkeys hb) hv ho hc
  rw [hb] at hst
  obtain rfl := Except.ok.inj hst
  exact mt hsl.2 (slots_ne_nil_of_mergeTrimmedKeys hc hs ht)

theorem exists_lastFound {slots : List (Slot kind)} (ho : m.trimmedKeyCount = 0 ∨ slots ≠ []) :
    ∃ last, m.trimmedKeyCount ≠ 0 → lastFound m slots = .ok last := by
  by_cases hz : m.trimmedKeyCount = 0
  · exact ⟨none, fun hn => absurd hz hn⟩
  · rw [lastFound, getLast?_eq_getLast_of_ne_nil (ho.resolve_left hz)]
    split
    · exact ⟨_, fun _ => rfl⟩
    · exact ⟨_, fun _ => rfl⟩

theorem exists_reads_keyAt (stray : Place → CStr) (freed : List Place) :
    ∃ strings, ReadsStrings results (keyAt results (fun place => some (stray place)) freed)
      strings := by
  have hr : ∀ j x, ∃ key, keyAt results (fun place => some (stray place)) freed j x = .ok key := by
    intro j x
    unfold keyAt
    split
    · split
      · exact ⟨_, rfl⟩
      · exact ⟨_, rfl⟩
    · exact ⟨_, rfl⟩
  choose strings hs using hr
  exact ⟨strings, fun i _ x _ _ _ _ _ _ _ => hs i x⟩

theorem exists_merge (stray : Place → CStr) (hc : m.Counts results) (ho : m.offset = 0)
    (hco : 1 ≤ m.count) (hn : results.length ≤ resultIdxLength)
    (hor : m.trimmedKeyCount = 0 ∨ m.valueCount ≠ 0) :
    ∃ result, mergeSmgetResults (fun place => some (stray place)) m results = .ok result := by
  obtain ⟨values, hv, hsl⟩ := mergeBkeys_slots_ne_nil hn hc.valueCount ho hco
  obtain ⟨last, hl⟩ := exists_lastFound (m := m) (hor.imp_right (mt hsl.1))
  obtain ⟨strings, hk⟩ := exists_reads_keyAt stray values.freed
  obtain ⟨trimmed, ht, -⟩ := mergeTrimmedKeys_rule hk (I := fun _ => True) hn
    hc.trimmedKeyCount hl (fun _ _ _ _ _ _ _ => trivial) trivial
  exact ⟨_, mergeSmgetResults_eq hv ht⟩

/-- Where every string that is read is found, the merge stays within its arrays if the cursors do, and
if there is an element to compare trimmed keys with. -/
theorem merge_in_range_iff (stray : Place → CStr) (m : Merged) (results : List (SmgetResult kind))
    (hcounts : m.Counts results) (hoffset : m.offset = 0) (hcount : 1 ≤ m.count) :
    (∃ result, mergeSmgetResults (fun place => some (stray place)) m results = .ok result) ↔
      results.length ≤ 256 ∧ (m.trimmedKeyCount = 0 ∨ m.valueCount ≠ 0) := by
  constructor
  · rintro ⟨result, hr⟩
    obtain ⟨values, trimmed, hv, -, -⟩ := mergeSmgetResults_cases hr
    refine ⟨length_le_of_mergeBkeys hv, or_iff_not_imp_left.2 fun hs => ?_⟩
    exact valueCount_ne_zero_of_mergeSmgetResults hcounts.valueCount hoffset hcount hs hr
  · rintro ⟨hn, ho⟩
    exact exists_merge stray hcounts hoffset hcount hn ho

/-- With two elements and a trimmed key. -/
theorem merge_in_range_two_servers :
    ∃ result, mergeSmgetResults (fun _ => some []) ⟨false, 0, 2, .duplicate, 2, 1⟩
      [⟨[.ofNumber 1 (lit ['a'])], [], [.ofNumber 7 (lit ['a'])]⟩,
        ⟨[.ofNumber 2 (lit ['b'])], [], []⟩] = .ok result :=
  (merge_in_range_iff (fun _ => []) _ _ ⟨rfl, rfl, by decide⟩ rfl (by decide)).2
    ⟨by decide, .inr (by decide)⟩

/-- The cursor of the 257th server is outside the array, and a trimmed key is compared with the
element before the first. -/
theorem merge_out_of_range : mergeSmgetResults (fun _ => some []) ⟨false, 0, 1, .duplicate, 0, 0⟩
        (List.replicate 257 (⟨[], [], []⟩ : SmgetResult .number)) = .error (.resultIdx 256) ∧
      mergeSmgetResults (fun _ => some []) ⟨false, 0, 1, .duplicate, 0, 1⟩
        [(⟨[], [], [.ofNumber 7 (lit ['a'])]⟩ : SmgetResult .number)] =
          .error (.mergedSubKeys (-1)) := by
  constructor
  · set_option maxRecDepth 4000 in rfl
  · rfl

end ArcusClient.Smget
