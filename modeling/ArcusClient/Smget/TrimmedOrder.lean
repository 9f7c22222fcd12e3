import ArcusClient.Smget.Trimmed

/-!
# The order of the trimmed keys

Trimmed keys of equal `bkey` are put in the order of the strings in `keys` at the cursors of the
trimmed keys.  These belong to elements, and need not be there.  So the merged trimmed keys are in order,
whatever elements the servers return, if no two servers share a trimmed `bkey`, and there are at most 256
servers (`trimmed_sorted_iff`).  For the other direction, the servers return one element: then no
comparison of two servers finds both strings, and a merge that returns has made none.
-/

namespace ArcusClient.Smget

open CString Coll KWayMerge Outcome List Function

variable {kind : BkeyKind}

/-- The order of trimmed keys in a direction, by `bkey` and then by key. -/
def TrimmedOrdered (descending : Bool) (a b : TrimmedKey kind) : Prop :=
  NotAfter descending a.rank b.rank

instance instDecidableTrimmedOrdered {descending : Bool} {a b : TrimmedKey kind} :
    Decidable (TrimmedOrdered descending a b) :=
  inferInstanceAs (Decidable (NotAfter descending a.rank b.rank))

instance isTrans_trimmedOrdered {descending : Bool} :
    IsTrans (TrimmedKey kind) (TrimmedOrdered descending) where
  trans _ _ _ hab hbc := isTrans_notAfter.trans _ _ _ hab hbc

/-- No trimmed `bkey` occurs at two servers. -/
def BkeysApart (trimmed : List (List (TrimmedKey kind))) : Prop :=
  trimmed.Pairwise fun l l' => ∀ x ∈ l, ∀ y ∈ l', x.bkey ≠ y.bkey

section Servers

variable {results : List (SmgetResult kind)} {trimmed : List (List (TrimmedKey kind))}

theorem bkeysApart_iff (hm : results.map SmgetResult.trimmedKeys = trimmed) :
    BkeysApart trimmed ↔ ∀ i j, i ≠ j → ∀ x ∈ trimmedKeysOf results i,
      ∀ y ∈ trimmedKeysOf results j, x.bkey ≠ y.bkey := by
  subst hm
  have ho : ∀ {i : Nat} (hi : i < results.length),
      trimmedKeysOf results i = results[i].trimmedKeys := fun hi => by
    rw [trimmedKeysOf, getElem?_eq_getElem hi]
    rfl
  rw [BkeysApart, pairwise_map, pairwise_iff_getElem]
  constructor
  · intro h i j hij x hx y hy
    have hi := lt_length_of_trimmed hx
    have hj := lt_length_of_trimmed hy
    rw [ho hi] at hx
    rw [ho hj] at hy
    obtain hl | hl := Nat.lt_or_gt_of_ne hij
    · exact h i j hi hj hl x hx y hy
    · exact (h j i hj hi hl y hy x hx).symm
  · intro h i j hi hj hl x hx y hy
    exact h i j (Nat.ne_of_lt hl) x (by rwa [ho hi]) y (by rwa [ho hj])

/-- The list of a server is in order. -/
theorem pairwise_trimmedKeysOf (hm : results.map SmgetResult.trimmedKeys = trimmed)
    (hs : ∀ l ∈ trimmed, l.Pairwise (TrimmedOrdered descending)) (j : Nat) :
    (trimmedKeysOf results j).Pairwise (TrimmedOrdered descending) := by
  subst hm
  rw [trimmedKeysOf]
  cases hr : results[j]? with
  | none => exact Pairwise.nil
  | some r => exact hs _ (mem_map_of_mem (mem_of_getElem? hr))

end Servers

/-! ## Servers without a shared `bkey` -/

section Apart

variable {m : Merged} {results : List (SmgetResult kind)} {trimmed : List (List (TrimmedKey kind))}
  {strings : Nat → Nat → CStr} {last : Option (Bkey kind)} {st st' : TrimmedSt kind} {j : Nat}
  {t : TrimmedKey kind} {rest : List (TrimmedKey kind)}

/-- The loop has taken the trimmed keys `done`, in order, and merged some of them. -/
structure TrimmedSoFar (m : Merged) (results : List (SmgetResult kind))
    (done : List (TrimmedKey kind)) (st : TrimmedSt kind) : Prop where
  merging : Merging (TrimmedOrdered m.isDescending) results.length (trimmedKeysOf results) done
    (trimmedLeft results st.resultIdx)
  slots : (st.slots.map TrimmedSlot.trimmed).Sublist done

theorem TrimmedSoFar.round (h : TrimmedSoFar m results done st)
    (hr : TrimmedRound m results strings last st st' j t rest)
    (ha : ∀ i j, i ≠ j → ∀ x ∈ trimmedKeysOf results i, ∀ y ∈ trimmedKeysOf results j,
      x.bkey ≠ y.bkey) : TrimmedSoFar m results (done ++ [t]) st' := by
  refine ⟨?_, ?_⟩
  · rw [hr.trimmedLeft_eq]
    refine h.merging.take hr.lt hr.left fun i hi u hu hij => ?_
    have ht : t ∈ trimmedLeft results st.resultIdx j := by simp [hr.left]
    refine (before_rank_of_bkey (notAfter_bkey (hr.notAfter hi hu)) ?_).notAfter
    exact ha j i hij.symm t (mem_of_mem_drop ht) u (mem_of_mem_drop (mem_of_head? hu))
  · rw [hr.next]
    simp only [takeTrimmed]
    cases shouldMerge last t with
    | true =>
      rw [if_pos rfl, map_append]
      exact h.slots.append (Sublist.refl _)
    | false => exact h.slots.trans (sublist_append_left done [t])

theorem mergeTrimmedKeys_sorted (keys : Nat → Nat → Except Fault CStr)
    (hn : results.length ≤ resultIdxLength) (hm : results.map SmgetResult.trimmedKeys = trimmed)
    (hs : ∀ l ∈ trimmed, l.Pairwise (TrimmedOrdered m.isDescending)) (ha : BkeysApart trimmed)
    (ht : m.trimmedKeyCount = (results.map fun r => r.trimmedKeys.length).sum)
    (hl : m.trimmedKeyCount ≠ 0 → lastFound m slots = .ok last) :
    ∃ st, mergeTrimmedKeys m results keys slots = .ok st ∧
      (st.slots.map TrimmedSlot.trimmed).Pairwise (TrimmedOrdered m.isDescending) := by
  rw [bkeysApart_iff hm] at ha
  obtain ⟨st, hru, ⟨done, hst⟩, -⟩ :=
    mergeTrimmedKeys_rule (readsStrings_of_apart ha keys fun _ _ => [])
      (I := fun st => ∃ done, TrimmedSoFar m results done st) hn ht hl
      (fun st st' j t rest ⟨done, hst⟩ hr => ⟨_, hst.round hr ha⟩)
      ⟨[], Merging.nothing_taken fun j _ => pairwise_trimmedKeysOf hm hs j, nil_sublist _⟩
  exact ⟨st, hru, hst.merging.sorted.sublist hst.slots⟩

end Apart

/-! ## One element -/

section Lone

theorem ofLength_lt_iff : ∀ {a b : Nat}, ofLength a < ofLength b ↔ a < b
  | 0, 0 => by simp [ofLength]
  | 0, b + 1 => by simp [ofLength, replicate_succ]
  | a + 1, 0 => by simp [ofLength]
  | a + 1, b + 1 => by
    have ih : ofLength a < ofLength b ↔ a < b := ofLength_lt_iff
    rw [Nat.succ_lt_succ_iff, ← ih, ofLength, ofLength, replicate_succ, replicate_succ,
      cons_lt_cons_iff]
    simp [ofLength]

theorem notAfter_ofLength {a b : Nat} :
    NotAfter descending (ofLength a) (ofLength b) ↔ NotAfter descending a b := by
  cases descending <;> simp [← not_before, Before, ofLength_lt_iff]

def leastBkey : (kind : BkeyKind) → Bkey kind
  | .number => (0 : UInt64)
  | .byteArray => ([] : List Byte)

/-- The first server returns one element, the others none. -/
def loneResults : List (List (TrimmedKey kind)) → List (SmgetResult kind)
  | [] => []
  | l :: rest =>
    ⟨[⟨leastBkey kind, ofLength (rest.length + 1), [], 0, [], 0⟩], [], l⟩ :: rest.map fun l => ⟨[], [], l⟩

def loneQuery (descending : Bool) (trimmed : List (List (TrimmedKey kind))) : Merged :=
  ⟨descending, 0, 2, .duplicate, 1, (trimmed.map length).sum⟩

variable {trimmed : List (List (TrimmedKey kind))}

@[simp] theorem loneResults_map :
    (loneResults trimmed).map SmgetResult.trimmedKeys = trimmed := by
  cases trimmed with
  | nil => rfl
  | cons l rest => simp [loneResults, comp_def]

@[simp] theorem length_loneResults : (loneResults trimmed).length = trimmed.length := by
  rw [← length_map SmgetResult.trimmedKeys, loneResults_map]

theorem loneResults_counts (hne : trimmed ≠ []) (hf : (trimmed.map length).sum < 2 ^ 32) :
    (loneQuery descending trimmed).Counts (loneResults trimmed) where
  valueCount := by
    obtain ⟨l, rest, rfl⟩ := exists_cons_of_ne_nil hne
    simp [loneResults, loneQuery, comp_def]
  trimmedKeyCount := by
    have hm : ((loneResults trimmed).map SmgetResult.trimmedKeys).map length = trimmed.map length := by
      rw [loneResults_map]
    rw [map_map] at hm
    exact congrArg List.sum hm.symm
  fits := hf

/-- The only string that is there. -/
theorem key_loneResults (h : (elementsOf (loneResults trimmed) j)[x]? = some e) :
    (j = 0 ∧ x = 0) ∧ e.key = ofLength trimmed.length := by
  cases trimmed with
  | nil => simp [loneResults, elementsOf] at h
  | cons l rest =>
    cases j with
    | zero =>
      cases x with
      | zero =>
        obtain rfl := Option.some.inj (show some _ = some e from h)
        exact ⟨⟨rfl, rfl⟩, rfl⟩
      | succ x => simp [loneResults, elementsOf] at h
    | succ j =>
      rw [loneResults, elementsOf, getElem?_cons_succ, getElem?_map] at h
      cases hr : rest[j]? <;> simp [hr] at h

theorem keyAt_loneResults {length : Nat → Nat → Nat} (h : length 0 0 = trimmed.length)
    (freed : List Place) (j x : Nat) :
    Unless Fault.OfKeys (keyAt (loneResults trimmed) (fun _ => none) freed j x)
      (.ok (ofLength (length j x))) := by
  refine keyAt_unless (fun e he => ?_) freed
  obtain ⟨⟨rfl, rfl⟩, hk⟩ := key_loneResults he
  rw [hk, h]

variable {m : Merged} {slots : List (Slot kind)} {last : Option (Bkey kind)} {st st' : TrimmedSt kind}
  {freed : List Place}

/-- A round that returns takes a trimmed key that shares its `bkey` with no other head: with longer or
with shorter strings at the other places, the outcome would be the same. -/
theorem exists_lone_round (hn : trimmed.length ≤ resultIdxLength) (hl : lastFound m slots = .ok last)
    (hc : CountsKept (loneResults trimmed) st)
    (hne : remaining (loneResults trimmed).length
      (trimmedLeft (loneResults trimmed) st.resultIdx) ≠ [])
    (h : mergeTrimmedKey m (loneResults trimmed)
      (keyAt (loneResults trimmed) (fun _ => none) freed) slots st = .ok st') :
    ∃ strings j t rest,
      TrimmedRound m (loneResults trimmed) strings last st st' j t rest ∧
      ∀ i < trimmed.length, i ≠ j →
        ∀ u ∈ (trimmedLeft (loneResults trimmed) st.resultIdx i).head?, t.bkey ≠ u.bkey := by
  have hrou : ∀ length : Nat → Nat → Nat, length 0 0 = trimmed.length → ∃ j t rest,
      TrimmedRound m (loneResults trimmed) (fun j x => ofLength (length j x)) last st st' j t
        rest := by
    intro length hle
    have hu : Unless Fault.OfKeys (mergeTrimmedKey m (loneResults trimmed)
          (keyAt (loneResults trimmed) (fun _ => none) freed) slots st)
        (mergeTrimmedKey m (loneResults trimmed) (fun j x => .ok (ofLength (length j x)))
          slots st) :=
      mergeTrimmedKey_unless (keyAt_loneResults hle freed) st
    obtain ⟨u, j, t, rest, hru, hr⟩ := mergeTrimmedKey_spec
      (readsStrings_ok fun j x => ofLength (length j x)) (by rwa [length_loneResults]) hl hc hne
    rw [h] at hu
    obtain rfl := Except.ok.inj (hru.symm.trans hu.of_ok)
    exact ⟨j, t, rest, hr⟩
  obtain ⟨j, t, rest, hr⟩ := hrou
    (fun j x => if j = 0 ∧ x = 0 then trimmed.length else j) (by simp)
  obtain ⟨j', t', rest', hr'⟩ := hrou
    (fun j x => if j = 0 ∧ x = 0 then trimmed.length else 2 * trimmed.length - j) (by simp)
  have hj : j' = j := by
    by_contra hj
    have hid := congrFun (hr.resultIdx_eq.symm.trans hr'.resultIdx_eq) j
    rw [update_self, update_of_ne (Ne.symm hj)] at hid
    omega
  subst hj
  obtain ⟨rfl, rfl⟩ := cons.inj (hr.left.symm.trans hr'.left)
  refine ⟨_, j', t, rest, hr, fun i hi hij u hu he => ?_⟩
  have hjl : j' < trimmed.length := by simpa using hr.lt
  have ha := hr.notAfter (by simpa using hi) hu
  have hb := hr'.notAfter (by simpa using hi) hu
  rw [← he] at ha hb
  have ha := notAfter_ofLength.1 (notAfter_key ha)
  have hb := notAfter_ofLength.1 (notAfter_key hb)
  by_cases hz : j' = 0 ∧ st.resultIdx j' = 0
  · have hz' : ¬ (i = 0 ∧ st.resultIdx i = 0) := by omega
    rw [if_pos hz, if_neg hz'] at ha hb
    cases hd : m.isDescending <;> simp [hd, NotAfter] at ha hb <;> omega
  · rw [if_neg hz] at ha hb
    by_cases hz' : i = 0 ∧ st.resultIdx i = 0
    · rw [if_pos hz'] at ha hb
      cases hd : m.isDescending <;> simp [hd, NotAfter] at ha hb <;> omega
    · rw [if_neg hz'] at ha hb
      cases hd : m.isDescending <;> simp [hd, NotAfter] at ha hb <;> omega

/-- Neither of two trimmed keys has been passed. -/
structure BothAhead (results : List (SmgetResult kind)) (i p j q rounds : Nat) (k : Nat)
    (st : TrimmedSt kind) : Prop where
  counts : CountsKept results st
  left : (remaining results.length (trimmedLeft results st.resultIdx)).length + k = rounds
  first : st.resultIdx i ≤ p
  second : st.resultIdx j ≤ q

/-- The head of a list in order does not come after what follows. -/
theorem head_notAfter {results : List (SmgetResult kind)} {resultIdx : Nat → Nat}
    (hs : (trimmedKeysOf results i).Pairwise (TrimmedOrdered descending))
    (hx : (trimmedKeysOf results i)[p]? = some x) (hp : resultIdx i ≤ p) :
    ∃ u, (trimmedLeft results resultIdx i).head? = some u ∧ NotAfter descending u.bkey x.bkey := by
  obtain ⟨hl, rfl⟩ := List.getElem?_eq_some_iff.1 hx
  refine ⟨(trimmedKeysOf results i)[resultIdx i], ?_, ?_⟩
  · rw [trimmedLeft, head?_drop, getElem?_eq_getElem (hp.trans_lt hl)]
  · obtain he | hlt := Nat.eq_or_lt_of_le hp
    · simp only [he]
      exact NotAfter.refl _
    · exact notAfter_bkey (pairwise_iff_getElem.1 hs _ _ (hp.trans_lt hl) hl hlt)

theorem BothAhead.round {descending : Bool}
    (h : BothAhead (loneResults trimmed) i p j q rounds k st)
    (hs : ∀ i, (trimmedKeysOf (loneResults trimmed) i).Pairwise (TrimmedOrdered descending))
    (hd : m.isDescending = descending) (hn : trimmed.length ≤ resultIdxLength)
    (hl : lastFound m slots = .ok last) (hij : i ≠ j) (hi : i < trimmed.length)
    (hj : j < trimmed.length)
    (hx : (trimmedKeysOf (loneResults trimmed) i)[p]? = some x)
    (hy : (trimmedKeysOf (loneResults trimmed) j)[q]? = some y) (he : x.bkey = y.bkey)
    (hr : mergeTrimmedKey m (loneResults trimmed)
      (keyAt (loneResults trimmed) (fun _ => none) freed) slots st = .ok st') :
    BothAhead (loneResults trimmed) i p j q rounds (k + 1) st' := by
  subst hd
  obtain ⟨u, hu, hux⟩ := head_notAfter (hs i) hx h.first
  obtain ⟨v, hv, hvy⟩ := head_notAfter (hs j) hy h.second
  have hne : remaining (loneResults trimmed).length
      (trimmedLeft (loneResults trimmed) st.resultIdx) ≠ [] :=
    ne_nil_of_mem (mem_remaining.2 ⟨i, by simpa using hi, mem_of_head? hu⟩)
  obtain ⟨strings, c, t, rest, hro, hlo⟩ := exists_lone_round hn hl h.counts hne hr
  have hle := hro.length_remaining
  have hnot : ∀ {i j p : Nat} {x v : TrimmedKey kind}, i ≠ j → j < trimmed.length →
      (trimmedKeysOf (loneResults trimmed) i)[p]? = some x → st.resultIdx i ≤ p →
      (trimmedLeft (loneResults trimmed) st.resultIdx j).head? = some v →
      NotAfter m.isDescending v.bkey x.bkey → st'.resultIdx i ≤ p := by
    intro i j p x v hij hj hx hp hv hvx
    rw [hro.resultIdx_eq]
    by_cases hc : i = c
    · subst hc
      rw [update_self]
      refine Nat.lt_of_le_of_ne hp fun hpe => ?_
      -- the trimmed key itself would be taken, before one of the same `bkey`
      have ht := getElem?_of_ahead hro.left
      rw [hpe] at ht
      obtain rfl := Option.some.inj (hx.symm.trans ht)
      have hxv := notAfter_bkey (hro.notAfter (by simpa using hj) hv)
      exact hlo j hj hij.symm v hv (hxv.antisymm hvx)
    · rw [update_of_ne hc]
      exact hp
  refine ⟨hro.countsKept h.counts, ?_, ?_, ?_⟩
  · rw [← h.left]
    omega
  · exact hnot hij hj hx h.first hv (he ▸ hvy)
  · exact hnot hij.symm hi hy h.second hu (he ▸ hux)

end Lone

/-! ## The order of the merged trimmed keys -/

/-- Whatever the elements of the servers are, if there are any, and whatever becomes of reading a string
that is not there: the merge returns and, if it finds fewer elements than asked for, the trimmed keys it
keeps are in order. -/
def TrimmedKeysSorted (descending : Bool) (trimmed : List (List (TrimmedKey kind))) : Prop :=
  ∀ (stray : Place → Option CStr) (m : Merged) (results : List (SmgetResult kind)),
    results.map SmgetResult.trimmedKeys = trimmed → m.isDescending = descending →
    m.Counts results → m.offset = 0 → 1 ≤ m.count → m.valueCount ≠ 0 →
    ∃ result, mergeSmgetResults stray m results = .ok result ∧ result.slots ≠ [] ∧
      (result.slots.length < m.count →
        (result.trimmed.map TrimmedSlot.trimmed).Pairwise (TrimmedOrdered descending))

section Order

variable {descending : Bool} {trimmed : List (List (TrimmedKey kind))}

theorem TrimmedKeysSorted.of_lone (h : TrimmedKeysSorted descending trimmed)
    (hf : (trimmed.map length).sum < 2 ^ 32) (hne : trimmed ≠ []) :
    ∃ result, mergeSmgetResults (fun _ => none) (loneQuery descending trimmed)
      (loneResults trimmed) = .ok result ∧ result.slots ≠ [] := by
  obtain ⟨result, hr, hs, -⟩ := h (fun _ => none) _ _ loneResults_map rfl
    (loneResults_counts hne hf) rfl (show 1 ≤ 2 by decide) Nat.one_ne_zero
  exact ⟨result, hr, hs⟩

theorem TrimmedKeysSorted.length_le (h : TrimmedKeysSorted descending trimmed)
    (hf : (trimmed.map length).sum < 2 ^ 32) : trimmed.length ≤ resultIdxLength := by
  by_cases hne : trimmed = []
  · simp [hne]
  · obtain ⟨result, hr, -⟩ := h.of_lone hf hne
    obtain ⟨values, -, hv, -⟩ := mergeSmgetResults_cases hr
    simpa using length_le_of_mergeBkeys hv

/-- Trimmed keys that share a `bkey` would be compared by strings that are not there. -/
theorem TrimmedKeysSorted.apart (h : TrimmedKeysSorted descending trimmed)
    (hf : (trimmed.map length).sum < 2 ^ 32)
    (hso : ∀ l ∈ trimmed, l.Pairwise (TrimmedOrdered descending)) : BkeysApart trimmed := by
  refine (bkeysApart_iff loneResults_map).2 fun i j hij x hx y hy he => ?_
  have hi : i < trimmed.length := by simpa using lt_length_of_trimmed hx
  have hj : j < trimmed.length := by simpa using lt_length_of_trimmed hy
  have hne : trimmed ≠ [] := ne_nil_of_length_pos (Nat.zero_lt_of_lt hi)
  obtain ⟨p, hp⟩ := mem_iff_getElem?.1 hx
  obtain ⟨q, hq⟩ := mem_iff_getElem?.1 hy
  have hc : (loneQuery descending trimmed).Counts (loneResults trimmed) := loneResults_counts hne hf
  obtain ⟨result, hru, hsl⟩ := h.of_lone hf hne
  obtain ⟨values, st, hv, htr, rfl⟩ := mergeSmgetResults_cases hru
  obtain ⟨last, hl⟩ := exists_lastFound (m := loneQuery descending trimmed) (.inr hsl)
  have he : Ends (fun _ => True)
      (BothAhead (loneResults trimmed) i p j q (loneQuery descending trimmed).trimmedKeyCount
        (loneQuery descending trimmed).trimmedKeyCount)
      (mergeTrimmedKeys (loneQuery descending trimmed) (loneResults trimmed)
        (keyAt (loneResults trimmed) (fun _ => none) values.freed) values.slots) := by
    refine Loops.forLoopM_invariant (fun k st hk hI => ?_)
      ⟨countsKept_init _, ?_, Nat.zero_le p, Nat.zero_le q⟩
    · cases hr : mergeTrimmedKey (loneQuery descending trimmed) (loneResults trimmed)
          (keyAt (loneResults trimmed) (fun _ => none) values.freed) values.slots st with
      | error f => trivial
      | ok st' =>
        exact hI.round (pairwise_trimmedKeysOf loneResults_map hso) rfl (h.length_le hf)
          (hl (by omega)) hij hi hj hp hq he hr
    · rw [hc.trimmedKeyCount, ← length_flatMap, ← remaining_trimmedKeysOf]
      rfl
  have hend := he.of_eq_ok htr
  obtain ⟨u, hu, -⟩ := head_notAfter (pairwise_trimmedKeysOf loneResults_map hso i) hp hend.first
  have hpos := length_pos_of_mem
    (mem_remaining.2 ⟨i, by simpa using hi, mem_of_head? hu⟩ :
      u ∈ remaining (loneResults trimmed).length
        (trimmedLeft (loneResults trimmed) st.resultIdx))
  have hle := hend.left
  omega

/-- The merged trimmed keys are in order, whatever the elements are, if the cursors have room and no two
servers share a trimmed `bkey`. -/
theorem trimmed_sorted_iff (descending : Bool) (trimmed : List (List (TrimmedKey kind)))
    (hsorted : ∀ l ∈ trimmed, l.Pairwise (TrimmedOrdered descending))
    (hfits : (trimmed.map length).sum < 2 ^ 32) :
    TrimmedKeysSorted descending trimmed ↔ trimmed.length ≤ 256 ∧ BkeysApart trimmed := by
  constructor
  · intro h
    exact ⟨h.length_le hfits, h.apart hfits hsorted⟩
  · rintro ⟨hn, ha⟩ stray m results hm rfl hc ho hco hv
    have hn' : results.length ≤ resultIdxLength := by rwa [← hm, length_map] at hn
    obtain ⟨values, hva, hs⟩ :=
      mergeBkeys_slots_ne_nil hn' hc.valueCount ho hco
    have hne : values.slots ≠ [] := mt hs.1 hv
    obtain ⟨last, hl⟩ := exists_lastFound (m := m) (.inr hne)
    obtain ⟨st, hst, hpa⟩ := mergeTrimmedKeys_sorted (keyAt results stray values.freed) hn'
      hm hsorted ha hc.trimmedKeyCount hl
    exact ⟨_, mergeSmgetResults_eq hva hst, hne, fun _ => hpa⟩

/-- Two servers with different trimmed `bkey`s. -/
theorem trimmed_sorted_iff_two_servers :
    TrimmedKeysSorted false [[.ofNumber 5 (lit ['z'])], [.ofNumber 6 (lit ['y'])]] :=
  (trimmed_sorted_iff false _ (by decide) (by decide)).2 ⟨by decide, by unfold BkeysApart; decide⟩

/-- Two servers have a trimmed key of the same `bkey`, and these come in the order of the keys of
elements. -/
theorem trimmed_out_of_order :
    ∃ result, mergeSmgetResults (fun _ => none) ⟨false, 0, 3, .duplicate, 2, 2⟩
        [⟨[.ofNumber 1 (lit ['c'])], [], [.ofNumber 5 (lit ['z'])]⟩,
          ⟨[.ofNumber 2 (lit ['d'])], [], [.ofNumber 5 (lit ['y'])]⟩] = .ok result ∧
      result.slots ≠ [] ∧ result.slots.length < 3 ∧
      ¬ (result.trimmed.map TrimmedSlot.trimmed).Pairwise (TrimmedOrdered false) :=
  ⟨_, rfl, cons_ne_nil _ _, by decide, by decide⟩

end Order

end ArcusClient.Smget
