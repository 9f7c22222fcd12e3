import ArcusClient.Collection.Elements

/-!
# Replies to a request for many b+trees

A server answers a `bop mget` for each key with a line and, if there are any, elements:

    VALUE <key> <status> [<flags> <ecount>]\r\n
    ELEMENT <bkey> [<eflag>] <bytes> <data>\r\n

The line is read into a buffer for the longest key, but `textual_coll_value_fetch` takes the buffer
to have the size of a command.  A reply is decoded just if the carriage return is within this part,
the key is plain, the number of elements fits its variable, and the status is not `TRIMMED`, for
which the code of a success is returned (`mget_reply_iff`).
-/

namespace ArcusClient.Coll

open CString Io Strtok List

/-! ## The layout -/

inductive MgetStatus where
  | ok | trimmed | notFound | notFoundElement | outOfRange | typeMismatch | bkeyMismatch | unreadable
  deriving DecidableEq

namespace MgetStatus

def word : MgetStatus → CStr
  | ok => lit ['O', 'K']
  | trimmed => lit ['T', 'R', 'I', 'M', 'M', 'E', 'D']
  | notFound => lit ['N', 'O', 'T', '_', 'F', 'O', 'U', 'N', 'D']
  | notFoundElement => lit ['N', 'O', 'T', '_', 'F', 'O', 'U', 'N', 'D', '_', 'E', 'L', 'E', 'M', 'E',
      'N', 'T']
  | outOfRange => lit ['O', 'U', 'T', '_', 'O', 'F', '_', 'R', 'A', 'N', 'G', 'E']
  | typeMismatch => lit ['T', 'Y', 'P', 'E', '_', 'M', 'I', 'S', 'M', 'A', 'T', 'C', 'H']
  | bkeyMismatch => lit ['B', 'K', 'E', 'Y', '_', 'M', 'I', 'S', 'M', 'A', 'T', 'C', 'H']
  | unreadable => lit ['U', 'N', 'R', 'E', 'A', 'D', 'A', 'B', 'L', 'E']

def code : MgetStatus → ReturnT
  | ok => .success
  | trimmed => .trimmed
  | notFound => .notfound
  | notFoundElement => .notfoundElement
  | outOfRange => .outOfRange
  | typeMismatch => .typeMismatch
  | bkeyMismatch => .bkeyMismatch
  | unreadable => .unreadable

def hasElements : MgetStatus → Bool
  | ok => true
  | trimmed => true
  | _ => false

end MgetStatus

def mgetNumbers (status : MgetStatus) (flags ecount : Nat) : List Byte :=
  if status.hasElements then
    spaceByte :: (bytesOf (decimal flags) ++ spaceByte :: bytesOf (decimal ecount))
  else []

def mgetLine (key : List Byte) (status : MgetStatus) (flags ecount : Nat) : List Byte :=
  bytesOf (lit ['V', 'A', 'L', 'U', 'E']) ++ (spaceByte :: (key ++ (spaceByte ::
    (bytesOf status.word ++ mgetNumbers status flags ecount))))

/-- `ELEMENT`. -/
def elementWord : List Byte := bytesOf (lit ['E', 'L', 'E', 'M', 'E', 'N', 'T'])

/-! ## Parts of the buffer -/

/-- A word is found if the byte behind it is among those that are looked at. -/
theorem parseResponseStringValue_take (hw : Plain word) (hn : word ≠ [])
    (hb : b = spaceByte ∨ b = crByte) (rest : List Byte) (n : Nat) :
    parseResponseStringValue ((spaceByte :: (word ++ b :: rest)).take n) =
      if word.length + 1 < n then some word else none := by
  have hp : ∀ c ∈ word, decide (c ≠ spaceByte ∧ c ≠ crByte) = true := by
    intro c hc
    simpa using hw c hc
  have hs : ¬ decide (b ≠ spaceByte ∧ b ≠ crByte) = true := by
    rcases hb with rfl | rfl
    · decide
    · decide
  cases n with
  | zero => rfl
  | succ n =>
    rw [take_succ_cons, parseResponseStringValue, if_neg (not_not.2 rfl), take_append]
    by_cases hl : word.length < n
    · obtain ⟨m, hm⟩ : ∃ m, n - word.length = m + 1 := ⟨n - word.length - 1, by omega⟩
      have hf : word.length + 1 < n + 1 := by omega
      have hfo : (word ++ b :: rest.take m).takeWhile
          (fun c => decide (c ≠ spaceByte ∧ c ≠ crByte)) = word := by
        rw [takeWhile_append_of_pos hp, takeWhile_cons, if_neg hs, append_nil]
      rw [if_pos hf, hm, take_succ_cons, take_of_length_le hl.le]
      simp only [hfo]
      rw [if_neg (by simp [hn])]
    · have hz : n - word.length = 0 := by omega
      have hcu : ¬ word.length + 1 < n + 1 := by omega
      have ha : (word.take n).takeWhile (fun c => decide (c ≠ spaceByte ∧ c ≠ crByte)) =
          word.take n :=
        takeWhile_eq_self_iff.2 fun c hc => hp c (mem_of_mem_take hc)
      rw [if_neg hcu, hz, take_zero, append_nil]
      simp only [ha]
      rw [if_pos (.inr trivial)]

theorem drop_take_word (word : List Byte) (b : Byte) (rest : List Byte) (n : Nat) :
    ((spaceByte :: (word ++ b :: rest)).take n).drop (word.length + 1) =
      (b :: rest).take (n - (word.length + 1)) := by
  rw [drop_take, drop_succ_cons, drop_left]

/-- A number is found if the byte behind it is among those that are looked at, and it has one to ten
digits. -/
theorem parseResponseUint32Value_take (hd : ∀ c ∈ d, isDigit c = true)
    (hb : isDigitByte b = false) (rest : List Byte) (valueCount m : Nat) :
    parseResponseUint32Value (valueCount + 1) ((spaceByte :: (bytesOf d ++ b :: rest)).take m) =
      if d.length + 1 < m ∧ d ≠ [] ∧ d.length ≤ 10 then
        (parseResponseUint32Value valueCount ((b :: rest).take (m - (d.length + 1)))).map
          (digitsValue d % 2 ^ 32 :: ·) else none := by
  by_cases hf : d.length + 1 < m
  · obtain ⟨k, rfl⟩ : ∃ k, m = d.length + 1 + (k + 1) := ⟨m - (d.length + 2), by omega⟩
    have ht : (spaceByte :: (bytesOf d ++ b :: rest)).take (d.length + 1 + (k + 1)) =
        spaceByte :: (bytesOf d ++ b :: rest.take k) := by
      rw [show d.length + 1 + (k + 1) = (bytesOf d).length + (k + 1) + 1 by
        rw [length_bytesOf]; omega, take_succ_cons, take_length_add_append,
        take_succ_cons]
    rw [ht, Nat.add_sub_cancel_left, parseResponseUint32Value_digits hd hb]
    exact if_congr (by simp) rfl rfl
  · rw [if_neg fun h => hf h.1]
    cases m with
    | zero => rfl
    | succ m =>
      have hcu : (bytesOf d ++ b :: rest).take m = (bytesOf d).take m := by
        rw [take_append_of_le_length (by rw [length_bytesOf]; omega)]
      have hdi : ∀ c ∈ bytesOf d, isDigitByte c = true := forall_mem_map.2 hd
      have he : ((bytesOf d).take m).dropWhile isDigitByte = [] :=
        dropWhile_eq_nil_iff.2 fun c hc => hdi c (mem_of_mem_take hc)
      rw [take_succ_cons, hcu, parseResponseUint32Value, if_neg (not_not.2 rfl)]
      simp only [he, true_or, or_true, if_true]

theorem parseResponseUint32Value_take_decimal (n : Nat) (hb : isDigitByte b = false)
    (rest : List Byte) (valueCount m : Nat) :
    parseResponseUint32Value (valueCount + 1)
      ((spaceByte :: (bytesOf (decimal n) ++ b :: rest)).take m) =
      if (decimal n).length + 1 < m ∧ n < 10 ^ 10 then
        (parseResponseUint32Value valueCount ((b :: rest).take (m - ((decimal n).length + 1)))).map
          (n % 2 ^ 32 :: ·) else none := by
  have hs : n < 10 ^ 10 ↔ decimal n ≠ [] ∧ (decimal n).length ≤ 10 :=
    ⟨fun h => ⟨decimal_ne_nil n, length_decimal_le (by decide) h⟩,
      fun h => lt_of_length_decimal_le (by decide) h.2⟩
  simp only [parseResponseUint32Value_take (fun _ => isDigit_of_mem_decimal) hb, digitsValue_decimal, hs]

/-! ## The line -/

section Line

variable {key : List Byte} {status : MgetStatus} {b : Byte} {rest : List Byte} {result : CollResult}

/-- What is looked at behind `VALUE`. -/
def mgetSeen (key word tail : List Byte) : List Byte :=
  (spaceByte :: (key ++ spaceByte :: (word ++ tail))).take (defaultCommandSize - valueWordLength)

theorem MgetStatus.word_ne_nil (status : MgetStatus) : bytesOf status.word ≠ [] := by
  cases status <;> decide

theorem MgetStatus.plain_word (status : MgetStatus) : Plain (bytesOf status.word) := by
  cases status <;> decide +kernel

theorem MgetStatus.code_word (status : MgetStatus) :
    getStatusOfBopMgetResponse (bytesOf status.word) = status.code := by
  cases status <;> decide

theorem MgetStatus.hasElements_iff (status : MgetStatus) :
    status.hasElements = true ↔ ¬ (status.code ≠ .success ∧ status.code ≠ .trimmed) := by
  cases status <;> decide

theorem MgetStatus.code_ne (status : MgetStatus) :
    status.code ≠ .partialRead ∧ status.code ≠ .protocolError := by
  cases status <;> decide

/-- The key and the status are found if the byte behind them is among those that are looked at. -/
theorem numbersOf_found (hk : Plain key) (hn : key ≠ []) (hb : b = spaceByte ∨ b = crByte)
    (status : MgetStatus) (rest : List Byte) (result : CollResult)
    (hf : key.length + status.word.length + 2 < defaultCommandSize - valueWordLength) :
    numbersOf .mget (mgetSeen key (bytesOf status.word) (b :: rest)) result =
      (if status.hasElements then .success else if b = crByte then status.code else .partialRead,
        { result with itemKey := key }, (b :: rest).take
          (defaultCommandSize - valueWordLength - (key.length + status.word.length + 2))) := by
  have hkey : key.length + 1 < defaultCommandSize - valueWordLength := by omega
  have hw : (bytesOf status.word).length + 1 <
      defaultCommandSize - valueWordLength - (key.length + 1) := by
    rw [length_bytesOf]
    omega
  have hbe : defaultCommandSize - valueWordLength - (key.length + 1) -
      ((bytesOf status.word).length + 1) =
      defaultCommandSize - valueWordLength - (key.length + status.word.length + 2) := by
    rw [length_bytesOf]
    omega
  rw [numbersOf, mgetSeen, parseResponseStringValue_take hk hn (.inl rfl), if_pos hkey]
  simp only [drop_take_word]
  rw [parseResponseStringValue_take status.plain_word status.word_ne_nil hb, if_pos hw]
  simp only [drop_take_word, hbe, status.code_word]
  cases he : status.hasElements with
  | true => rw [if_neg (status.hasElements_iff.1 he), if_pos rfl]
  | false =>
    have hc : status.code ≠ .success ∧ status.code ≠ .trimmed := by
      by_contra hc
      rw [status.hasElements_iff.2 hc] at he
      cases he
    obtain ⟨m, hm⟩ : ∃ m,
        defaultCommandSize - valueWordLength - (key.length + status.word.length + 2) = m + 1 :=
      ⟨_, (Nat.sub_add_cancel (by omega)).symm⟩
    rw [if_pos hc, hm]
    simp

/-- A line that is cut before the end of its status is not understood. -/
theorem numbersOf_cut (hk : Plain key) (hn : key ≠ []) (hb : b = spaceByte ∨ b = crByte)
    (rest : List Byte) (result : CollResult)
    (hc : defaultCommandSize - valueWordLength ≤ key.length + status.word.length + 2) :
    (numbersOf .mget (mgetSeen key (bytesOf status.word) (b :: rest)) result).1 = .partialRead := by
  rw [numbersOf, mgetSeen, parseResponseStringValue_take hk hn (.inl rfl)]
  by_cases hke : key.length + 1 < defaultCommandSize - valueWordLength
  · have hw : ¬ (bytesOf status.word).length + 1 <
        defaultCommandSize - valueWordLength - (key.length + 1) := by
      rw [length_bytesOf]
      omega
    rw [if_pos hke]
    simp only [drop_take_word]
    rw [parseResponseStringValue_take status.plain_word status.word_ne_nil hb, if_neg hw]
  · rw [if_neg hke]

/-- Another key is stored if the key has a space or a carriage return in it. -/
theorem numbersOf_split (hw : Plain word)
    (hc : c = spaceByte ∨ c = crByte) (more tail : List Byte) (status : MgetStatus)
    (result : CollResult) :
    (numbersOf .mget (mgetSeen (word ++ c :: more) (bytesOf status.word) tail) result).1 =
        .partialRead ∨ (numbersOf .mget (mgetSeen (word ++ c :: more) (bytesOf status.word) tail)
        result).2.1.itemKey = word := by
  rw [mgetSeen, append_assoc, cons_append]
  generalize more ++ _ = rest
  by_cases hn : word = []
  · left
    subst hn
    have hno : parseResponseStringValue ((spaceByte :: ([] ++ c :: rest)).take
        (defaultCommandSize - valueWordLength)) = none := by
      rcases hc with rfl | rfl
      · simp [parseResponseStringValue, defaultCommandSize, valueWordLength]
      · simp [parseResponseStringValue, defaultCommandSize, valueWordLength]
    rw [numbersOf, hno]
  · rw [numbersOf, parseResponseStringValue_take hw hn hc]
    by_cases hf : word.length + 1 < defaultCommandSize - valueWordLength
    · right
      rw [if_pos hf]
      dsimp only
      split
      · rfl
      · split_ifs <;> rfl
    · left
      rw [if_neg hf]

end Line

/-! ## The reply -/

section Reply

variable {key : List Byte} {status : MgetStatus} {flags ecount : Nat} {result : CollResult}

/-- `textual_coll_value_fetch` on the buffer with the line, with memory for all that is read. -/
def fetchMget (line junk : List Byte) (result : CollResult) (s : Reader) :
    Option ((ReturnT × CollResult) × Reader) :=
  textualCollValueFetch .bopMget (line ++ crlf ++ junk) true (fun _ => true) result s

theorem seen_mgetLine (key : List Byte) (status : MgetStatus) (flags ecount : Nat)
    (junk : List Byte) :
    ((mgetLine key status flags ecount ++ crlf ++ junk).take defaultCommandSize).drop
        valueWordLength = mgetSeen key (bytesOf status.word)
        (mgetNumbers status flags ecount ++ crByte :: lfByte :: junk) := by
  simp only [mgetLine, append_assoc, cons_append]
  rfl

def mgetNumbersFetch (line : List Byte) (result : CollResult) (s : Reader) :
    Option ((ReturnT × CollResult) × Reader) :=
  match parseResponseUint32Value 2 line with
  | none => some ((.partialRead, result), s)
  | some numbers =>
    if numbers.getD 1 0 = 0 then
      some ((.protocolError, { result with collectionFlags := numbers.getD 0 0 }), s)
    else
      textualCollElementFetch elementWord.length (fun _ => true) (numbers.getD 1 0) 0
        { result with collectionFlags := numbers.getD 0 0 } s

theorem fetchMget_eq (hf : numbersOf .mget (((line ++ crlf ++ junk).take defaultCommandSize).drop
      valueWordLength) result = found) (s : Reader) : fetchMget line junk result s =
      if found.1 ≠ .success then some ((found.1, found.2.1), s)
      else mgetNumbersFetch found.2.2 found.2.1 s := by
  have hl : valueLayout .bopMget = some .mget := rfl
  rw [fetchMget, textualCollValueFetch, hl]
  dsimp only
  rw [hf]
  rfl

theorem itemKey_textualCollElementFetch {memory : Nat → Bool} : ∀ {count i : Nat}
    {result : CollResult} {s : Reader},
      textualCollElementFetch headerSize memory count i result s = some out →
        out.1.2.itemKey = result.itemKey
  | 0, i, result, s, h => by
    cases h
    rfl
  | count + 1, i, result, s, h => by
    rw [textualCollElementFetch] at h
    obtain ⟨⟨read, s'⟩, -, h⟩ := Option.bind_eq_some_iff.1 h
    cases read with
    | error rc =>
      cases h
      rfl
    | ok element =>
      have hs : out.1.2.itemKey = (result.add element).itemKey :=
        itemKey_textualCollElementFetch h
      exact hs

theorem itemKey_mgetNumbersFetch
    (h : mgetNumbersFetch line result s = some out) : out.1.2.itemKey = result.itemKey := by
  rw [mgetNumbersFetch] at h
  split at h
  · cases h
    rfl
  · split_ifs at h
    · cases h
      rfl
    · exact (itemKey_textualCollElementFetch h).trans rfl

/-- The numbers are found if the byte behind them is among those that are looked at. -/
theorem parse_mgetNumbers (hs : status.hasElements = true) (hf : flags < 2 ^ 32)
    (junk : List Byte) (n : Nat) :
    parseResponseUint32Value 2 ((mgetNumbers status flags ecount ++ crByte :: lfByte :: junk).take n) =
      if (mgetNumbers status flags ecount).length < n ∧ ecount < 10 ^ 10 then
        some [flags, ecount % 2 ^ 32] else none := by
  have hl : mgetNumbers status flags ecount ++ crByte :: lfByte :: junk =
      spaceByte :: (bytesOf (decimal flags) ++ spaceByte :: (bytesOf (decimal ecount) ++
        crByte :: lfByte :: junk)) := by
    rw [mgetNumbers, if_pos hs]
    simp
  have hle : (mgetNumbers status flags ecount).length =
      (decimal flags).length + (decimal ecount).length + 2 := by
    rw [mgetNumbers, if_pos hs]
    simp only [length_cons, length_append, length_bytesOf]
    omega
  rw [hl, parseResponseUint32Value_take_decimal flags (by decide)]
  by_cases hfi : (decimal flags).length + 1 < n
  · rw [if_pos ⟨hfi, by omega⟩, parseResponseUint32Value_take_decimal ecount (by decide)]
    by_cases hse : (decimal ecount).length + 1 < n - ((decimal flags).length + 1) ∧ ecount < 10 ^ 10
    · rw [if_pos hse, if_pos ⟨by omega, hse.2⟩, Nat.mod_eq_of_lt hf]
      rfl
    · rw [if_neg hse, if_neg fun h => hse ⟨by omega, h.2⟩]
      rfl
  · rw [if_neg fun h => hfi h.1, if_neg fun h => hfi (by omega)]

theorem fetchMget_found (hk : Plain key) (hn : key ≠ [])
    (hf : key.length + status.word.length + 2 < defaultCommandSize - valueWordLength)
    (junk : List Byte) (s : Reader) : fetchMget (mgetLine key status flags ecount) junk result s =
      if status.hasElements then
        mgetNumbersFetch ((mgetNumbers status flags ecount ++ crByte :: lfByte :: junk).take
          (defaultCommandSize - valueWordLength - (key.length + status.word.length + 2)))
          { result with itemKey := key } s
      else some ((status.code, { result with itemKey := key }), s) := by
  cases he : status.hasElements with
  | true =>
    have ht : mgetNumbers status flags ecount ++ crByte :: lfByte :: junk =
        spaceByte :: (bytesOf (decimal flags) ++ spaceByte :: bytesOf (decimal ecount) ++
          crByte :: lfByte :: junk) := by
      rw [mgetNumbers, if_pos he]
      rfl
    have hfo := numbersOf_found hk hn (.inl rfl) status
      (bytesOf (decimal flags) ++ spaceByte :: bytesOf (decimal ecount) ++
        crByte :: lfByte :: junk) result hf
    rw [← ht, ← seen_mgetLine] at hfo
    rw [fetchMget_eq hfo]
    simp only [he, if_true, ne_eq, not_true_eq_false, if_false]
  | false =>
    have hno : mgetNumbers status flags ecount = [] := by
      rw [mgetNumbers, if_neg (by simp [he])]
    have hfo := numbersOf_found hk hn (.inr rfl) status (lfByte :: junk) result hf
    rw [← nil_append (crByte :: lfByte :: junk), ← hno, ← seen_mgetLine] at hfo
    have hc : status.code ≠ .success := by
      intro hc
      rw [status.hasElements_iff.2 (by simp [hc])] at he
      cases he
    rw [fetchMget_eq hfo]
    simp only [he, Bool.false_eq_true, if_false, if_true, if_pos hc]

theorem length_mgetLine (key : List Byte) (status : MgetStatus) (flags ecount : Nat) :
    (mgetLine key status flags ecount).length = valueWordLength +
      (key.length + status.word.length + 2) + (mgetNumbers status flags ecount).length := by
  simp only [mgetLine, length_append, length_cons, length_bytesOf]
  have hw : (lit ['V', 'A', 'L', 'U', 'E']).length = valueWordLength := rfl
  omega

theorem mgetNumbers_tail (status : MgetStatus) (flags ecount : Nat) (junk : List Byte) :
    ∃ b rest, (b = spaceByte ∨ b = crByte) ∧
      mgetNumbers status flags ecount ++ crByte :: lfByte :: junk = b :: rest := by
  rw [mgetNumbers]
  split_ifs
  · exact ⟨spaceByte, _, .inl rfl, rfl⟩
  · exact ⟨crByte, _, .inr rfl, rfl⟩

theorem exists_split_of_not_plain (h : ¬ Plain key) :
    ∃ word c more, key = word ++ c :: more ∧ Plain word ∧ (c = spaceByte ∨ c = crByte) := by
  induction key with
  | nil => exact absurd (forall_mem_nil _) h
  | cons b key ih =>
    by_cases hb : b ≠ spaceByte ∧ b ≠ crByte
    · obtain ⟨word, c, more, rfl, hw, hc⟩ := ih fun hp =>
        h (forall_mem_cons.2 ⟨hb, hp⟩)
      exact ⟨b :: word, c, more, rfl, forall_mem_cons.2 ⟨hb, hw⟩, hc⟩
    · exact ⟨[], b, key, rfl, forall_mem_nil _, by
        rwa [← not_ne_iff, ← not_ne_iff, ← not_and_or]⟩

/-- A line that does not end among the bytes that are looked at is not understood. -/
theorem fetchMget_cut (hk : Plain key) (hn : key ≠ []) (hf : flags < 2 ^ 32)
    (hc : defaultCommandSize ≤ (mgetLine key status flags ecount).length) (junk : List Byte)
    (result : CollResult) (s : Reader) :
    ∃ result', fetchMget (mgetLine key status flags ecount) junk result s =
      some ((.partialRead, result'), s) := by
  rw [length_mgetLine] at hc
  by_cases hfi : key.length + status.word.length + 2 < defaultCommandSize - valueWordLength
  · have hs : status.hasElements = true := by
      by_contra hs
      rw [mgetNumbers, if_neg hs, length_nil] at hc
      omega
    rw [fetchMget_found hk hn hfi, if_pos hs, mgetNumbersFetch,
      parse_mgetNumbers hs hf, if_neg fun h => by omega]
    exact ⟨_, rfl⟩
  · obtain ⟨b, rest, hb, ht⟩ := mgetNumbers_tail status flags ecount junk
    have hnu := numbersOf_cut hk hn hb rest result (not_lt.1 hfi)
    rw [← ht, ← seen_mgetLine] at hnu
    rw [fetchMget_eq rfl, hnu]
    exact ⟨_, rfl⟩

/-- The key that is stored is not the key of the line if that has a space or a carriage return. -/
theorem plain_of_fetchMget (hr : rc ≠ .partialRead)
    (hf : fetchMget (mgetLine key status flags ecount) junk result s = some ((rc, result'), s'))
    (hs : result'.itemKey = key) : Plain key := by
  by_contra hp
  obtain ⟨word, c, more, hsp, hw, hc⟩ := exists_split_of_not_plain hp
  have hn := numbersOf_split hw hc more
    (mgetNumbers status flags ecount ++ crByte :: lfByte :: junk) status result
  rw [← hsp, ← seen_mgetLine] at hn
  rw [fetchMget_eq rfl] at hf
  rcases hn with hcu | hk
  · rw [hcu] at hf
    cases hf
    exact hr rfl
  · have hw : key = word := by
      rw [← hs, ← hk]
      split_ifs at hf
      · cases hf
        rfl
      · exact itemKey_mgetNumbersFetch hf
    have hl := congrArg length (hsp.symm.trans hw)
    rw [length_append, length_cons] at hl
    omega

theorem fetch_counted {elements : List Element}
    (ht : result.type = .btree) (hl : ∀ e ∈ elements, e.Legal .btree) {count : Nat}
    (hc : count ≤ elements.length)
    (ha : At stream (elements.flatMap (fun e => headerWord elementWord ++ e.text upper) ++ rest) s) :
    ∃ s', textualCollElementFetch elementWord.length (fun _ => true) count 0 result s =
        some ((.success, (elements.take count).foldl CollResult.add result), s') ∧
      At stream ((elements.drop count).flatMap (fun e => headerWord elementWord ++ e.text upper) ++
        rest) s' := by
  have hh : ∀ b ∈ elementWord, b ≠ spaceByte ∧ b ≠ crByte := by decide +kernel
  have hte : ∀ e ∈ elements.take count, e.key.Terminated := by
    intro e he
    have hk := (hl e (mem_of_mem_take he)).key
    cases hek : e.key with
    | mkey string =>
      rw [hek] at hk
      exact hk.elim
    | _ => trivial
  have hle : (elements.take count).length = count := by rw [length_take, min_eq_left hc]
  rw [← take_append_drop count elements, flatMap_append, append_assoc] at ha
  have hf := textualCollElementFetch_at hh result
    (fun e he => ht ▸ hl e (mem_of_mem_take he)) hte 0 ha
  rw [hle] at hf
  simpa using hf

/-- Reading the elements of a reply whose line is seen as a whole. -/
theorem fetchMget_elements {elements : List Element} (hk : Plain key) (hn : key ≠ [])
    (hs : status.hasElements = true) (hf : flags < 2 ^ 32)
    (hfi : (mgetLine key status flags elements.length).length < defaultCommandSize)
    (ht : result.type = .btree) (hl : ∀ e ∈ elements, e.Legal .btree)
    (ha : At stream (elements.flatMap (fun e => headerWord elementWord ++ e.text upper) ++ rest) s)
    (junk : List Byte) :
    ∃ rc result' s', fetchMget (mgetLine key status flags elements.length) junk result s =
        some ((rc, result'), s') ∧ (rc = .partialRead ∨ rc = .protocolError ∨ rc = .success) ∧
      (rc = .success → result'.itemKey = key ∧ result'.collectionFlags = flags ∧
        result'.elements = result.elements ++ elements.take (elements.length % 2 ^ 32)) ∧
      (elements ≠ [] → elements.length < 2 ^ 32 → rc = .success ∧ At stream rest s') := by
  rw [length_mgetLine] at hfi
  rw [fetchMget_found hk hn (by omega), if_pos hs, mgetNumbersFetch,
    parse_mgetNumbers hs hf]
  by_cases hd : elements.length < 10 ^ 10
  · rw [if_pos ⟨by omega, hd⟩]
    simp only [getD_cons_zero, getD_cons_succ]
    by_cases hz : elements.length % 2 ^ 32 = 0
    · rw [if_pos hz]
      refine ⟨_, _, _, rfl, .inr (.inl rfl), fun h => (by cases h), fun hso hc => ?_⟩
      rw [Nat.mod_eq_of_lt hc, length_eq_zero_iff] at hz
      exact absurd hz hso
    · rw [if_neg hz]
      have hkep : { result with itemKey := key, collectionFlags := flags }.type = .btree := ht
      obtain ⟨s', hfe, ha'⟩ := fetch_counted hkep hl
        (Nat.mod_le elements.length (2 ^ 32)) ha
      refine ⟨_, _, _, hfe, .inr (.inr rfl), fun _ => ⟨?_, collectionFlags_foldl_add .., ?_⟩,
        fun _ hc => ⟨rfl, ?_⟩⟩
      · exact (itemKey_textualCollElementFetch hfe).trans rfl
      · rw [elements_foldl_add]
      · rwa [Nat.mod_eq_of_lt hc, drop_length, flatMap_nil, nil_append] at ha'
  · rw [if_neg fun h => hd h.2]
    refine ⟨_, _, _, rfl, .inl rfl, fun h => (by cases h), fun _ hc => ?_⟩
    exact absurd (hc.trans (by decide)) hd

/-- Into a result that was reset, a reply is decoded just if its line ends within the size of a command, its key has no space and
no carriage return, its status is not `TRIMMED`, and the number of elements fits 32 bits. -/
theorem mget_reply_iff {c : Client} (hkey : keyTest c key = true) (status : MgetStatus)
    (flags : UInt32) {elements : List Element} (hcount : elements = [] ↔ status.hasElements = false)
    (hlegal : ∀ e ∈ elements, e.Legal .btree) (upper : Bool) (junk : List Byte)
    (htype : result.type = .btree) (hreset : result.elements = [])
    {stream rest : List Byte} {s : Reader}
    (hat : At stream (elements.flatMap (fun e => headerWord elementWord ++ e.text upper) ++ rest) s) :
    (∃ result' s', fetchMget (mgetLine key status flags.toNat elements.length) junk result s =
        some ((status.code, result'), s') ∧
      result'.itemKey = key ∧ result'.elements = elements ∧
      (status.hasElements = true → result'.collectionFlags = flags.toNat) ∧ At stream rest s') ↔
    Plain key ∧ (mgetLine key status flags.toNat elements.length).length < defaultCommandSize ∧
      status ≠ .trimmed ∧ elements.length < 2 ^ 32 := by
  have hn : key ≠ [] := by
    rintro rfl
    simp [keyTest] at hkey
  constructor
  · rintro ⟨result', s', hf, hs, he, -, -⟩
    have hp := plain_of_fetchMget status.code_ne.1 hf hs
    have hfi : (mgetLine key status flags.toNat elements.length).length < defaultCommandSize := by
      by_contra hc
      obtain ⟨other, hb⟩ := fetchMget_cut hp hn flags.toNat_lt (not_lt.1 hc) junk result s
      rw [hf] at hb
      exact status.code_ne.1 (congrArg (fun out => out.1.1) (Option.some.inj hb))
    refine ⟨hp, hfi, ?_⟩
    cases hsta : status.hasElements with
    | false =>
      rw [hcount.2 hsta]
      refine ⟨?_, by decide⟩
      rintro rfl
      cases hsta
    | true =>
      obtain ⟨rc, other, s'', hr, hca, hsu, -⟩ := fetchMget_elements hp hn
        hsta flags.toNat_lt hfi htype hlegal hat junk
      rw [hf] at hr
      cases hr
      have ho : status.code = .success :=
        (hca.resolve_left status.code_ne.1).resolve_left status.code_ne.2
      refine ⟨?_, ?_⟩
      · rintro rfl
        cases ho
      · have ht := (hsu ho).2.2
        rw [he, hreset, nil_append] at ht
        have hl := congrArg length ht
        rw [length_take] at hl
        omega
  · rintro ⟨hp, hfi, htr, hsm⟩
    cases hsta : status.hasElements with
    | false =>
      obtain rfl := hcount.2 hsta
      have hf' := hfi
      rw [length_mgetLine] at hf'
      rw [fetchMget_found hp hn (by omega), if_neg (by simp [hsta])]
      exact ⟨_, s, rfl, rfl, hreset, (by intro h; cases h), hat⟩
    | true =>
      have hso : elements ≠ [] := by
        intro hni
        rw [hcount.1 hni] at hsta
        cases hsta
      obtain ⟨rc, result', s', hr, -, hsu, ha⟩ := fetchMget_elements hp hn
        hsta flags.toNat_lt hfi htype hlegal hat junk
      obtain ⟨rfl, ha'⟩ := ha hso hsm
      obtain ⟨hs, hfl, he⟩ := hsu rfl
      have ho : status.code = .success := by
        cases status with
        | ok => rfl
        | trimmed => exact absurd rfl htr
        | _ => cases hsta
      rw [Nat.mod_eq_of_lt hsm, take_length, hreset] at he
      exact ⟨result', s', by rw [hr, ho], hs, he, fun _ => hfl, ha'⟩

end Reply

def asciiClient : Client := ⟨false, false, false, false, false, false, 1⟩

/-- An element with a number for its key, and one with a byte array and a flag. -/
def twoElements : List Element := [⟨.bkey 5, none, [120]⟩, ⟨.bkeyExt [31], some [171], [13, 10]⟩]

/-- Two elements in three packets, and a byte of the next reply. -/
def elementPackets : List (List Byte) :=
  [bytesOf (lit ['E', 'L', 'E', 'M', 'E', 'N', 'T', ' ', '5', ' ']),
    bytesOf (lit ['1', ' ', 'x', '\r', '\n', 'E', 'L', 'E', 'M', 'E', 'N', 'T', ' ', '0', 'x', '1']),
    bytesOf (lit ['f', ' ', '0', 'x', 'a', 'b', ' ', '2', ' ', '\r', '\n', '\r', '\n', 'E'])]

/-- The reply for the key `k`.  The byte behind it is not read. -/
theorem mget_reply_two : ∃ result s', fetchMget (mgetLine [107] .ok 7 2) [] (.create .btree)
        (Reader.new.connect elementPackets .timeout) = some ((.success, result), s') ∧
      result.itemKey = [107] ∧ result.elements = twoElements ∧ result.collectionFlags = 7 ∧
        s'.rest = [69] := by
  have hs : (Reader.new.connect elementPackets .timeout).AtStart :=
    ⟨rfl, rfl, rfl, rfl, rfl, by decide⟩
  have ha : At _ (twoElements.flatMap (fun e => headerWord elementWord ++ e.text false) ++ [69])
      (Reader.new.connect elementPackets .timeout) := ⟨hs.sound rfl, rfl, by decide +kernel⟩
  have hl : ∀ e ∈ twoElements, e.Legal .btree := by
    rw [twoElements, forall_mem_cons, forall_mem_singleton]
    exact ⟨⟨trivial, trivial, by decide⟩, ⟨by decide, by decide⟩, ⟨by decide, by decide⟩, by decide⟩
  have hk : keyTest asciiClient [107] = true := by decide
  have ht : (CollResult.create .btree).type = .btree := rfl
  obtain ⟨result, s', hf, hst, he, hfl, hr⟩ :=
    (mget_reply_iff hk .ok 7 (by decide) hl false [] ht rfl ha).2
      ⟨by decide +kernel, by decide, by decide, by decide⟩
  exact ⟨result, s', hf, hst, he, hfl rfl, hr.rest_eq⟩

/-- A key of 505 bytes, which passes the test, is found, but its status is not. -/
theorem mget_reply_cut : keyTest asciiClient (List.replicate 505 107) = true ∧
    ∀ junk s, ∃ result, fetchMget (mgetLine (List.replicate 505 107) .notFound 0 0) junk
      (.create .btree) s = some ((.partialRead, result), s) := by
  refine ⟨by decide +kernel, fun junk s => ?_⟩
  exact fetchMget_cut (by decide +kernel) (by decide +kernel) (by decide) (by decide +kernel) junk _ s

end ArcusClient.Coll
