import ArcusClient.Collection.ReplyCounts

/-!
# The writes of a value

`textual_value_fetch` reads a line `VALUE <key> <flags> <bytes> [<cas>]`, gets so many bytes and two more
for the value, and sets the last two to zero.  With `2 ^ 64 - 2` bytes or more both sums wrap around, and
the zeros are written before the value (`value_writes_iff`).
-/

namespace ArcusClient.Coll

open CString Io Strtok List

/-- What was written to the key and to the value, as offsets and lengths, and the size of the value's memory. -/
structure ValueFetch where
  rc : ReturnT
  keyWrites : List (Nat × Nat)
  valueWrites : List (Nat × Nat)
  currentSize : Nat

/-- `_string_check`.  `granted` is about an allocation of a given size. -/
def stringCheck (granted : Nat → Bool) (currentSize offset need : Nat) : Except ReturnT Nat :=
  if need = 0 ∨ need ≤ currentSize - offset then .ok currentSize
  else
    let adjust := (need - (currentSize - offset)) / 1024 + 1
    let newSize := (adjust * 1024 + currentSize) % 2 ^ 64
    if newSize < need then .error .memoryAllocationFailure
    else if granted newSize = false then .error .memoryAllocationFailure
    else .ok ((currentSize + 1024 * adjust) % 2 ^ 64)

/-- Neither `iscntrl` nor `isspace`. -/
def isKeyByte (b : Byte) : Bool := 32 < b.1 && b.1 ≠ 127

/-- A key that is too long ends with three dots. -/
def itemKeyWrites (keyLength : Nat) : List (Nat × Nat) :=
  (0, min keyLength maxKey) :: if keyLength < maxKey then [(keyLength, 1)] else [(maxKey - 4, 4)]

/-- The number of bytes in the line, from behind its key on. -/
def parseValueLine (buffer : List Byte) (bufferLength place : Nat) : Option Nat :=
  if bufferLength = place ∨ bufferLength = place + 1 then none
  else
    let flags := place + 1 + strtoulLength (cString (buffer.drop (place + 1)))
    if bufferLength = flags ∨ bufferLength = flags + 1 then none
    else
      let str := cString (buffer.drop (flags + 1))
      let stop := flags + 1 + strtoulLength str
      if bufferLength = stop then none
      else
        let place := if buffer[stop]? = some crByte then stop + 2
          else stop + 1 + strtoulLength (cString (buffer.drop (stop + 1)))
        if bufferLength < place then none else some (strtoull str)

/-- The value, whose offset is zero because it is reset before.  `memcached_io_read` succeeds with all the bytes
only. -/
def fetchValue (granted : Nat → Bool) (currentSize : Nat) (keyWrites : List (Nat × Nat)) (valueLength : Nat)
    (s : Reader) : Option (ValueFetch × Reader) :=
  let toRead := (valueLength + 2) % 2 ^ 64
  match stringCheck granted currentSize 0 toRead with
  | .error rc => some (⟨rc, keyWrites, [], currentSize⟩, s)
  | .ok size =>
    (ioRead toRead s).map fun
      | (.error rc, s) => (⟨rc, keyWrites, [(0, toRead)], size⟩, s)
      | (.ok _, s) => (⟨.success, keyWrites, [(0, toRead), (valueLength, 1), ((valueLength + 1) % 2 ^ 64, 1)], size⟩, s)

/-- `textual_value_fetch`. -/
def textualValueFetch (useUdp : Bool) (namespaceLength : Nat) (buffer : List Byte) (bufferLength : Nat)
    (granted : Nat → Bool) (currentSize : Nat) (s : Reader) : Option (ValueFetch × Reader) :=
  if useUdp then some (⟨.notSupported, [], [], currentSize⟩, s)
  else
    let word := (buffer.drop (6 + namespaceLength)).takeWhile isKeyByte
    let keyWrites := itemKeyWrites word.length
    match parseValueLine buffer bufferLength (6 + namespaceLength + word.length) with
    | none => some (⟨.partialRead, keyWrites, [], currentSize⟩, s)
    | some valueLength => fetchValue granted currentSize keyWrites valueLength s

def ValueFetch.InBounds (r : ValueFetch) : Prop :=
  (∀ w ∈ r.keyWrites, w.1 + w.2 ≤ maxKey) ∧ ∀ w ∈ r.valueWrites, w.1 + w.2 ≤ r.currentSize

/-- The line of a value, with a key in a namespace. -/
def valueText (ns key : List Byte) (flags d : CStr) (cas : Option CStr) (junk : List Byte) : List Byte :=
  bytesOf (lit "VALUE ".toList) ++ (ns ++ (key ++ spaceByte :: (bytesOf flags ++ spaceByte :: (bytesOf d ++
    ((cas.map fun cas => spaceByte :: bytesOf cas).getD [] ++ crByte :: lfByte :: junk)))))

/-- Whatever else is in the line, and whatever comes behind it. -/
def ValueSafe (d : CStr) : Prop :=
  ∀ ns key flags cas junk useUdp bufferLength granted currentSize s r s', (∀ b ∈ key, isKeyByte b = true) → flags ≠ [] →
    Digits flags → textualValueFetch useUdp ns.length (valueText ns key flags d cas junk) bufferLength granted
      currentSize s = some (r, s') → r.InBounds

theorem le_of_stringCheck {granted : Nat → Bool} (hn : need ≠ 0)
    (h : stringCheck granted currentSize 0 need = .ok size) : need ≤ size := by
  simp only [stringCheck, Nat.sub_zero, hn, false_or] at h
  split_ifs at h with hf hs hg
  · cases h
    exact hf
  · rw [Except.ok.injEq] at h
    omega

theorem itemKeyWrites_le (keyLength : Nat) : ∀ w ∈ itemKeyWrites keyLength, w.1 + w.2 ≤ maxKey := by
  rw [itemKeyWrites, maxKey]
  split_ifs with hs
  · simp
    omega
  · simp

theorem fetchValue_inBounds {granted : Nat → Bool} (hk : ∀ w ∈ keyWrites, w.1 + w.2 ≤ maxKey)
    (hs : valueLength < 2 ^ 64 - 2)
    (h : fetchValue granted currentSize keyWrites valueLength s = some (r, s')) : r.InBounds := by
  rw [fetchValue, Nat.mod_eq_of_lt (show valueLength + 2 < 2 ^ 64 by omega)] at h
  split at h
  · cases h
    exact ⟨hk, by simp⟩
  · rename_i size hsi
    have hr := le_of_stringCheck (by omega) hsi
    obtain ⟨⟨rc | bytes, s₁⟩, -, ho⟩ := Option.map_eq_some_iff.1 h
    · cases ho
      refine ⟨hk, ?_⟩
      simpa using hr
    · cases ho
      refine ⟨hk, ?_⟩
      simp
      omega

/-- The two zeros are not written behind the bytes that were read. -/
theorem fetchValue_outOfBounds {keyWrites : List (Nat × Nat)} {valueLength : Nat}
    (h : valueLength = 2 ^ 64 - 2 ∨ valueLength = 2 ^ 64 - 1) : ∃ r s',
      fetchValue (fun _ => true) 0 keyWrites valueLength (Reader.new.connect [[0]] .timeout) = some
        (r, s') ∧
        ¬r.InBounds := by
  have hs : (Reader.new.connect [[0]] .timeout).AtStart := ⟨rfl, rfl, rfl, rfl, rfl, by decide⟩
  have ha : At [0] [0] (Reader.new.connect [[0]] .timeout) := ⟨hs.sound rfl, rfl, by decide⟩
  have hb {r : ValueFetch} (hsi : r.currentSize ≤ 1024) (hm : (valueLength, 1) ∈ r.valueWrites) : ¬r.InBounds :=
    fun hin => by
      have := hin.2 _ hm
      omega
  rcases h with rfl | rfl
  · obtain ⟨s', hr, -⟩ := ioRead_reads [] ha
    refine ⟨⟨.success, keyWrites, [(0, 0), (2 ^ 64 - 2, 1), (2 ^ 64 - 1, 1)], 0⟩, s', ?_, hb (by simp) (by simp)⟩
    rw [fetchValue, show (2 ^ 64 - 2 + 2) % 2 ^ 64 = ([] : List Byte).length from rfl, hr]
    rfl
  · obtain ⟨s', hr, -⟩ := ioRead_reads [0] ha
    refine ⟨⟨.success, keyWrites, [(0, 1), (2 ^ 64 - 1, 1), (0, 1)], 1024⟩, s', ?_, hb (by simp) (by simp)⟩
    rw [fetchValue, show (2 ^ 64 - 1 + 2) % 2 ^ 64 = ([0] : List Byte).length from rfl, hr]
    rfl

variable {d flags : CStr}

/-- What is behind the number of bytes begins with no digit. -/
theorem exists_tail (cas : Option CStr) (junk : List Byte) : ∃ b rest,
    (cas.map fun cas => spaceByte :: bytesOf cas).getD [] ++ crByte :: lfByte :: junk = b :: rest ∧
      isDigitByte b = false := by
  cases cas with
  | none | some cas => exact ⟨_, _, rfl, by decide⟩

/-- The number that is taken from the line, if the line is not rejected. -/
theorem parseValueLine_eq (hn : d ≠ []) (hd : Digits d) (hf : flags ≠ []) (hdi : Digits flags)
    (hb : isDigitByte b = false)
    (hp : buffer.drop place = spaceByte :: (bytesOf flags ++ spaceByte :: (bytesOf d ++ b :: rest)))
    (bufferLength : Nat) :
    (∀ value, parseValueLine buffer bufferLength place = some value → value = min (digitsValue d) (2 ^ 64 - 1)) ∧
    (b = crByte → bufferLength = place + flags.length + d.length + 4 →
      parseValueLine buffer bufferLength place = some (min (digitsValue d) (2 ^ 64 - 1))) := by
  have hs : buffer.drop (place + 1) = bytesOf flags ++ spaceByte :: (bytesOf d ++ b :: rest) := by
    rw [← drop_drop, hp]
    rfl
  obtain ⟨hl, -, hne⟩ := strtoul_at hf hdi (by decide) hs
  have hc : buffer.drop (place + 1 + flags.length + 1) = bytesOf d ++ b :: rest := by
    rw [← drop_drop, hne]
    rfl
  obtain ⟨hl', hv, he⟩ := strtoul_at hn hd hb hc
  simp only [parseValueLine, hl, hl', hv]
  constructor
  · intro value h
    split_ifs at h
    · exact (Option.some.inj h).symm
    · exact (Option.some.inj h).symm
  · rintro rfl rfl
    have hcr : buffer[place + 1 + flags.length + 1 + d.length]? = some crByte := by
      rw [← head?_drop, he]
      rfl
    rw [if_neg (by omega), if_neg (by omega), if_neg (by omega), if_pos hcr, if_neg (by omega)]

/-- The key is found behind the namespace. -/
theorem valueText_key {key : List Byte} (hk : ∀ b ∈ key, isKeyByte b = true) (ns : List Byte)
    (flags d : CStr)
    (cas : Option CStr) (junk : List Byte) :
    ((valueText ns key flags d cas junk).drop (6 + ns.length)).takeWhile isKeyByte = key ∧
    (valueText ns key flags d cas junk).drop (6 + ns.length + key.length) =
      spaceByte :: (bytesOf flags ++ spaceByte :: (bytesOf d ++
        ((cas.map fun cas => spaceByte :: bytesOf cas).getD [] ++ crByte :: lfByte :: junk))) := by
  have hd : (valueText ns key flags d cas junk).drop (6 + ns.length) = key ++ spaceByte :: (bytesOf flags ++
      spaceByte :: (bytesOf d ++ ((cas.map fun cas => spaceByte :: bytesOf cas).getD [] ++ crByte :: lfByte :: junk))) := by
    rw [valueText, ← drop_drop, drop_left' (by decide), drop_left]
  constructor
  · rw [hd, takeWhile_append_of_pos hk, takeWhile_cons_of_neg (by decide), append_nil]
  · rw [← drop_drop, hd, drop_left]

theorem value_writes_iff (hne : d ≠ []) (hd : Digits d) :
    ValueSafe d ↔ digitsValue d < 2 ^ 64 - 2 := by
  constructor
  · intro hs
    by_contra hlarge
    obtain ⟨hw, hp⟩ := @valueText_key [107] (by decide +kernel) [] (lit ['0']) d none []
    have hpa := (parseValueLine_eq hne hd (by decide +kernel) (by decide +kernel) (by decide) hp
      (d.length + 12)).2 rfl (by simp [lit]; omega)
    obtain ⟨r, s', hr, hba⟩ := @fetchValue_outOfBounds (itemKeyWrites 1) (min (digitsValue d) (2 ^ 64 - 1)) (by omega)
    refine hba (hs [] [107] (lit ['0']) none [] false (d.length + 12) (fun _ => true) 0
      (Reader.new.connect [[0]] .timeout) r s' (by decide +kernel)
      (by decide +kernel) (by decide +kernel) ?_)
    simp only [textualValueFetch, hw, hpa, Bool.false_eq_true, if_false]
    exact hr
  · intro hsm ns key flags cas junk useUdp bufferLength granted currentSize s r s' hk hf hdi h
    obtain ⟨hw, hp⟩ := valueText_key hk ns flags d cas junk
    obtain ⟨b, rest, ht, hb⟩ := exists_tail cas junk
    rw [ht] at hp
    have hpa := (parseValueLine_eq hne hd hf hdi hb hp bufferLength).1
    have hkey := itemKeyWrites_le key.length
    simp only [textualValueFetch, hw] at h
    split_ifs at h
    · cases h
      exact ⟨by simp, by simp⟩
    split at h
    · cases h
      exact ⟨hkey, by simp⟩
    · rename_i value hv
      have hv := hpa value hv
      exact fetchValue_inBounds hkey (by omega) h

theorem value_writes_seven : ValueSafe (lit ['7']) :=
  (value_writes_iff (by decide +kernel) (by decide +kernel)).2 (by decide +kernel)

/-- With `2 ^ 64 - 2` bytes nothing is allocated and nothing is read. -/
theorem value_writes_before : ∃ s', textualValueFetch false 0
    (valueText [] [107] (lit ['0']) (lit "18446744073709551614".toList) none []) 512
    (fun _ => true) 0
      (Reader.new.connect [] .timeout) =
      some (⟨.success, [(0, 1), (1, 1)], [(0, 0), (2 ^ 64 - 2, 1), (2 ^ 64 - 1, 1)], 0⟩, s') :=
    ⟨_, rfl⟩

end ArcusClient.Coll
