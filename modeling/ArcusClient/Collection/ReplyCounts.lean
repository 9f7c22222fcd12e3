import ArcusClient.Collection.MgetReply
import ArcusClient.Collection.SmgetReply

/-!
# The numbers of a reply

`parse_response_uint32_value` looks at the count of the digits, `parse_response_header` at nothing, and
both narrow what `strtoul` returns to 32 bits.  So a number may be taken modulo `2 ^ 32`, and a missing
one for zero (`counts_stored_iff`).
-/

namespace ArcusClient.Coll

open CString Strtok List

/-- The numbers of a line, each behind a blank. -/
def fieldsText (fields : List CStr) : List Byte := fields.flatMap fun f => spaceByte :: bytesOf f

abbrev Digits (d : CStr) : Prop := ∀ c ∈ d, isDigit c = true

/-- If `parse_response_uint32_value` takes a line, then the number in it is not missing, and is stored.  It looks at
the first `m` bytes. -/
def Uint32Stores (d : CStr) : Prop :=
  ∀ before after junk valueCount m values, (∀ f ∈ before, Digits f) → before.length < valueCount →
    parseResponseUint32Value valueCount ((fieldsText (before ++ d :: after) ++ (crByte :: lfByte :: junk)).take m) =
      some values →
    d ≠ [] ∧ values[before.length]? = some (digitsValue d)

/-- The same for `parse_response_header`.  If a number is missing before this one, then this one is stored in its
place. -/
def HeaderStores (d : CStr) : Prop :=
  ∀ header before after junk valueLength values, (∀ f ∈ before, f ≠ [] ∧ Digits f) → before.length < valueLength →
    parseResponseHeader (header ++ (fieldsText (before ++ d :: after) ++ (crByte :: lfByte :: junk))) header.length
      valueLength = some values →
    d ≠ [] ∧ values[before.length]? = some (digitsValue d)

theorem fieldsText_cons (f : CStr) (fields : List CStr) (t : List Byte) :
    fieldsText (f :: fields) ++ t = spaceByte :: (bytesOf f ++ (fieldsText fields ++ t)) := by
  simp [fieldsText]

/-- What follows a number is no digit. -/
theorem exists_behind (fields : List CStr) (junk : List Byte) : ∃ b rest,
    fieldsText fields ++ (crByte :: lfByte :: junk) = b :: rest ∧ isDigitByte b = false := by
  cases fields with
  | nil => exact ⟨_, _, rfl, by decide⟩
  | cons f fields => exact ⟨_, _, fieldsText_cons f fields _, by decide⟩

/-! ## The digits are counted -/

variable {d : CStr}

/-- One round of the loop. -/
theorem uint32_round (hd : Digits d) (h : parseResponseUint32Value (valueCount + 1)
      ((fieldsText (d :: fields) ++ (crByte :: lfByte :: junk)).take m) = some values) :
    d ≠ [] ∧ d.length ≤ 10 ∧ ∃ m' more, values = digitsValue d % 2 ^ 32 :: more ∧
      parseResponseUint32Value valueCount
        ((fieldsText fields ++ (crByte :: lfByte :: junk)).take m') = some more := by
  obtain ⟨b, rest, hbe, hb⟩ := exists_behind fields junk
  rw [fieldsText_cons, hbe, parseResponseUint32Value_take hd hb, ← hbe] at h
  split_ifs at h with hf
  obtain ⟨more, hm, hv⟩ := Option.map_eq_some_iff.1 h
  exact ⟨hf.2.1, hf.2.2, _, more, hv.symm, hm⟩

/-- There are no more numbers than blanks. -/
theorem uint32_absent (hf : ∀ f ∈ fields, Digits f)
    (hl : fields.length < valueCount) (junk : List Byte) (m : Nat) :
    parseResponseUint32Value valueCount
      ((fieldsText fields ++ (crByte :: lfByte :: junk)).take m) = none := by
  induction fields generalizing valueCount m with
  | nil =>
    cases valueCount with
    | zero => cases hl
    | succ valueCount =>
      cases m with
      | zero | succ m => rfl
  | cons f fields ih =>
    cases valueCount with
    | zero => cases hl
    | succ valueCount =>
      refine Option.eq_none_iff_forall_not_mem.2 fun values h => ?_
      obtain ⟨-, -, m', more, -, hm⟩ := uint32_round (hf f (by simp)) h
      rw [ih (fun g hg => hf g (by simp [hg])) (Nat.lt_of_succ_lt_succ hl)] at hm
      cases hm

theorem uint32_stored (hd : Digits d) (hl : digitsValue d < 2 ^ 32 ∨ 10 < d.length) :
    Uint32Stores d := by
  intro before
  induction before with
  | nil =>
    intro after junk valueCount m values _ hp h
    obtain ⟨valueCount, rfl⟩ := Nat.exists_eq_succ_of_ne_zero (Nat.ne_zero_of_lt hp)
    obtain ⟨hn, hs, m', more, rfl, -⟩ := uint32_round hd h
    rw [Nat.mod_eq_of_lt (hl.resolve_right (by omega))]
    exact ⟨hn, rfl⟩
  | cons f before ih =>
    intro after junk valueCount m values hb hp h
    obtain ⟨valueCount, rfl⟩ := Nat.exists_eq_succ_of_ne_zero (Nat.ne_zero_of_lt hp)
    obtain ⟨-, -, m', more, rfl, hm⟩ := uint32_round (hb f (by simp)) h
    exact ih after junk valueCount m' more (fun g hg => hb g (by simp [hg])) (Nat.lt_of_succ_lt_succ hp) hm

/-! ## The digits are not counted -/

section Header

variable {buffer rest : List Byte} {b : Byte} {place valueLength : Nat}

theorem parseHeaderFrom_le (h : parseHeaderFrom buffer valueLength place = some values) :
    place ≤ defaultCommandSize := by
  induction valueLength generalizing place values with
  | zero =>
    simp only [parseHeaderFrom] at h
    split_ifs at h with hc hf
    · omega
    · omega
  | succ valueLength ih =>
    simp only [parseHeaderFrom] at h
    split_ifs at h
    obtain ⟨more, hm, -⟩ := Option.map_eq_some_iff.1 h
    have := ih hm
    omega

/-- `strtoul` at a number. -/
theorem strtoul_at (hn : d ≠ []) (hd : Digits d) (hb : isDigitByte b = false)
    (hp : buffer.drop place = bytesOf d ++ b :: rest) :
    strtoulLength (cString (buffer.drop place)) = d.length ∧
      strtoull (cString (buffer.drop place)) = min (digitsValue d) (2 ^ 64 - 1) ∧
      buffer.drop (place + d.length) = b :: rest := by
  have hs : ∀ c ∈ (cString (b :: rest)).head?, isDigit c = false := by
    intro c hc
    rw [cString] at hc
    split_ifs at hc with hz
    · obtain rfl : ⟨b, hz⟩ = c := by simpa using hc
      exact hb
    · simp at hc
  rw [← drop_drop, hp, cString_append, drop_left' (length_bytesOf d)]
  exact ⟨(strtoulLength_digits (forall_mem_nil _) hn hd hs).trans (Nat.zero_add _),
    strtoull_digits_append hn hd hs, rfl⟩

/-- One round of the loop, at a number. -/
theorem parseHeaderFrom_digits (hn : d ≠ []) (hd : Digits d) (hb : isDigitByte b = false)
    (hp : buffer.drop place = spaceByte :: (bytesOf d ++ b :: rest)) (valueLength : Nat) :
    buffer.drop (place + 1 + d.length) = b :: rest ∧
    parseHeaderFrom buffer (valueLength + 1) place =
      if place + 1 = defaultCommandSize ∨ place + 1 + d.length = defaultCommandSize then none
      else (parseHeaderFrom buffer valueLength (place + 1 + d.length)).map
        (min (digitsValue d) (2 ^ 64 - 1) % 2 ^ 32 :: ·) := by
  have hs : buffer.drop (place + 1) = bytesOf d ++ b :: rest := by
    rw [← drop_drop, hp]
    rfl
  obtain ⟨hl, hv, hne⟩ := strtoul_at hn hd hb hs
  simp only [parseHeaderFrom, hl, hv]
  split_ifs <;> tauto

end Header

theorem header_stored (hn : d ≠ []) (hd : Digits d) (hl : digitsValue d < 2 ^ 32 ∨ 511 ≤ d.length) :
    HeaderStores d := by
  intro header before after junk valueLength values hbe hp h
  have hpl : (header ++ (fieldsText (before ++ d :: after) ++ (crByte :: lfByte :: junk))).drop header.length =
    fieldsText (before ++ d :: after) ++ (crByte :: lfByte :: junk) := drop_left
  rw [parseResponseHeader] at h
  revert hpl h
  generalize header ++ (fieldsText (before ++ d :: after) ++ (crByte :: lfByte :: junk)) = buffer
  generalize header.length = place
  -- The fields before the number are read, one after the other.
  induction before generalizing place valueLength values with
  | nil =>
    intro h hpl
    obtain ⟨valueLength, rfl⟩ := Nat.exists_eq_succ_of_ne_zero (Nat.ne_zero_of_lt hp)
    obtain ⟨b, rest, hbeh, hb⟩ := exists_behind after junk
    rw [nil_append, fieldsText_cons, hbeh] at hpl
    rw [(parseHeaderFrom_digits hn hd hb hpl valueLength).2] at h
    split_ifs at h with he
    obtain ⟨more, hm, rfl⟩ := Option.map_eq_some_iff.1 h
    have hle := parseHeaderFrom_le hm
    have hs : digitsValue d < 2 ^ 32 := hl.resolve_right fun hlo => by
      simp only [defaultCommandSize] at hle he
      omega
    refine ⟨hn, ?_⟩
    rw [Nat.min_eq_left (by omega), Nat.mod_eq_of_lt hs]
    rfl
  | cons f before ih =>
    intro h hpl
    obtain ⟨valueLength, rfl⟩ := Nat.exists_eq_succ_of_ne_zero (Nat.ne_zero_of_lt hp)
    obtain ⟨b, rest, hbeh, hb⟩ := exists_behind (before ++ d :: after) junk
    rw [cons_append, fieldsText_cons, hbeh] at hpl
    obtain ⟨hnex, hr⟩ :=
      parseHeaderFrom_digits (hbe f (by simp)).1 (hbe f (by simp)).2 hb hpl valueLength
    rw [hr] at h
    split_ifs at h
    obtain ⟨more, hm, rfl⟩ := Option.map_eq_some_iff.1 h
    exact ih valueLength more (fun g hg => hbe g (by simp [hg])) (Nat.lt_of_succ_lt_succ hp) _ hm
       (hnex.trans hbeh.symm)

/-- A line that is too short is rejected by `parse_response_uint32_value`, and so is a number of eleven digits.
`parse_response_header` rejects a number that does not end within its buffer. -/
theorem counts_stored_iff (hd : Digits d) :
    (∀ fields valueCount junk m, (∀ f ∈ fields, Digits f) → fields.length < valueCount →
      parseResponseUint32Value valueCount
        ((fieldsText fields ++ (crByte :: lfByte :: junk)).take m) = none) ∧
    (Uint32Stores d ↔ digitsValue d < 2 ^ 32 ∨ 10 < d.length) ∧
    (HeaderStores d ↔ d ≠ [] ∧ (digitsValue d < 2 ^ 32 ∨ 511 ≤ d.length)) := by
  refine ⟨fun fields valueCount junk m hf hl => uint32_absent hf hl junk m, ⟨fun h => ?_, uint32_stored hd⟩,
    ⟨fun h => ?_, fun h => header_stored h.1 hd h.2⟩⟩
  · refine or_iff_not_imp_right.2 fun hs => ?_
    by_cases hn : d = []
    · rw [hn]
      decide
    have hli := parseResponseUint32Value_digits hd (b := crByte) (by decide) [lfByte] 0
    rw [if_pos ⟨hn, Nat.le_of_not_lt hs⟩] at hli
    have hv := (h [] [] [] 1 _ _ (by simp) Nat.one_pos
      ((congrArg _ (take_of_length_le le_rfl)).trans ((congrArg _ (by simp [fieldsText])).trans hli))).2
    simp only [length_nil, getElem?_cons_zero, Option.some.injEq] at hv
    omega
  · by_cases hn : d = []
    · subst hn
      exact absurd rfl (h [] [] [] [] 1 [0] (by simp) Nat.one_pos (by decide)).1
    refine ⟨hn, or_iff_not_imp_right.2 fun hs => ?_⟩
    -- A blank behind the number is not looked at.
    have hp : (fieldsText [d, []] ++ [crByte, lfByte]).drop 0 =
        spaceByte :: (bytesOf d ++ spaceByte :: [crByte, lfByte]) := by
      simp [fieldsText, bytesOf]
    obtain ⟨hnex, hli⟩ := parseHeaderFrom_digits hn hd (by decide) hp 0
    have he : (fieldsText [d, []] ++ [crByte, lfByte])[0 + 1 + d.length]? ≠ some crByte := by
      rw [← head?_drop, hnex]
      decide
    have hla : parseHeaderFrom (fieldsText [d, []] ++ [crByte, lfByte]) 0 (0 + 1 + d.length) = some [] := by
      simp only [parseHeaderFrom, if_neg he]
      exact if_neg (by simp only [defaultCommandSize]; omega)
    rw [if_neg (by simp only [defaultCommandSize]; omega), hla] at hli
    have hv := (h [] [] [[]] [] 1 _ (by simp) Nat.one_pos hli).2
    simp only [length_nil, getElem?_cons_zero, Option.some.injEq] at hv
    omega

theorem counts_stored_seven : Uint32Stores (lit ['7']) ∧ HeaderStores (lit ['7']) :=
  have h := counts_stored_iff (d := lit ['7']) (by decide +kernel)
  ⟨h.2.1.2 (by decide +kernel), h.2.2.2 (by decide +kernel)⟩

/-- `2 ^ 32 + 1` is one, and so many digits are `2 ^ 32 - 1`.  A missing number is zero. -/
theorem counts_changed :
    parseResponseUint32Value 1 (bytesOf (lit " 4294967297\r\n".toList)) = some [1] ∧
    parseResponseHeader (bytesOf (lit "RESPONSE 4294967297\r\n".toList)) 8 1 = some [1] ∧
    parseResponseHeader (bytesOf (lit "RESPONSE 99999999999999999999\r\n".toList)) 8 1 = some
      [4294967295] ∧
    parseResponseHeader (bytesOf (lit "RESPONSE \r\n".toList)) 8 1 = some [0] := by decide +kernel

end ArcusClient.Coll
