import ArcusClient.Collection.BulkScatter
import ArcusClient.Collection.HexCodec
import ArcusClient.Collection.MultiKey

/-!
# The texts of a query

Nothing checks the length of an element flag: `memcached_conv_hex_to_str` refuses one that is too long,
and its result is dropped.

* An element flag of at most 31 bytes is sent as it is, and a longer one not (`element_text_iff`).
* A filter has at most 100 values of at most 31 bytes, so each call of `snprintf` has the room that it
  needs (`range_text_fits`).
-/

namespace ArcusClient.Coll

open CString Outcome Strtok List Option

/-! ## Initialisers

The members of the union that are not set keep what was there. -/

/-- `MEMCACHED_COLL_MAX_BYTE_ARRAY_LENGTH`. -/
def maxByteArrayLength : Nat := 31

def memcachedBopQueryInit (old : SubKey) (bkey : UInt64) (filter : Option EflagFilter) : Query :=
  ⟨.bop, { old with bkey := bkey }, [], 0, 0, 0, filter⟩

def memcachedBopExtQueryInit (old : SubKey) (bkey : List Byte) (filter : Option EflagFilter) : Except Refusal Query :=
  if bkey.length = 0 ∨ maxByteArrayLength < bkey.length then refuse .invalidArguments
  else .ok ⟨.bopExt, { old with bkeyExt := bkey }, [], 0, 0, 0, filter⟩

/-- `memcached_bop_range_query_init`, and `memcached_bop_smget_query_init` with no offset. -/
def memcachedBopRangeQueryInit (old : SubKey) (bkeys : UInt64 × UInt64) (filter : Option EflagFilter)
    (offset count : Nat) : Query :=
  ⟨.bopRange, { old with bkeyRange := bkeys }, [], 0, offset, count, filter⟩

/-- `memcached_bop_ext_range_query_init`, and `memcached_bop_ext_smget_query_init` with no offset. -/
def memcachedBopExtRangeQueryInit (old : SubKey) (bkeys : List Byte × List Byte) (filter : Option EflagFilter)
    (offset count : Nat) : Except Refusal Query :=
  if bkeys.1.length = 0 ∨ maxByteArrayLength < bkeys.1.length ∨ bkeys.2.length = 0 ∨
      maxByteArrayLength < bkeys.2.length then refuse .invalidArguments
  else .ok ⟨.bopExtRange, { old with bkeyExtRange := bkeys }, [], 0, offset, count, filter⟩

/-- `MEMCACHED_COLL_MAX_EFLAGS_COUNT`. -/
def maxEflagsCount : Nat := 100

def memcachedCollEflagFilterInit (offset : Nat) (value : List Byte) (comp : Comp) : Except Refusal EflagFilter :=
  if maxByteArrayLength < value.length then refuse .invalidArguments
  else .ok ⟨offset, none, comp, if 0 < value.length then [value] else []⟩

/-- Only a comparison for equality has several values. -/
def Comp.maxCount : Comp → Nat
  | .eq | .ne => maxEflagsCount
  | _ => 1

def memcachedCollEflagsFilterInit (offset : Nat) (values : List Byte) (valueLength valueCount : Nat) (comp : Comp) :
    Except Refusal EflagFilter :=
  if maxByteArrayLength < valueLength then refuse .invalidArguments
  else if comp.maxCount < valueCount then refuse .invalidArguments
  else .ok ⟨offset, none, comp,
    (List.range valueCount).map fun i => (values.drop (i * valueLength)).take valueLength⟩

/-- `memcached_coll_eflag_filter_set_bitwise`.  The length of the first value is looked at even if there is
none. -/
def memcachedCollEflagFilterSetBitwise (old : Nat) (filter : EflagFilter) (value : List Byte) (op : Bitwise) :
    Except Refusal EflagFilter :=
  if (filter.values.head?.map List.length).getD old ≠ value.length then refuse .invalidArguments
  else .ok { filter with bitwise := some (op, value) }

/-! ## Keys and flags of an element -/

inductive Bkey where
  | number (bkey : UInt64)
  | array (bkey : List Byte)

def Bkey.queryInit (old : SubKey) : Bkey → Except Refusal Query
  | .number bkey => .ok (memcachedBopQueryInit old bkey none)
  | .array bkey => memcachedBopExtQueryInit old bkey none

/-- `memcached_bop_insert`, `memcached_bop_upsert`, an item of `memcached_bop_piped_insert`, and their variants for
arrays. -/
inductive BopCall where
  | insert
  | upsert
  | pipedInsert (pipeBufferPos : Nat)

def BopCall.request (call : BopCall) (c : Client) (stack : Nat → CStr) (old : SubKey) (key : KeyMemory) (bkey : Bkey)
    (eflag : Option (List Byte)) (value : List Byte) (attributes : Option CreateAttrs) : Except Refusal Request := do
  let query ← bkey.queryInit old
  let query := { query with value := value, valueLength := value.length }
  match call with
  | .insert => doCollInsert c stack key.bytes query (some ⟨eflag⟩) attributes .bopInsert
  | .upsert => doCollInsert c stack key.bytes query (some ⟨eflag⟩) attributes .bopUpsert
  | .pipedInsert pipeBufferPos =>
    (internalCollPipedInsert c stack pipeBufferPos key query (some ⟨eflag⟩) attributes .bopInsert).map Item.request

def hexWordText (bytes : List Byte) : CStr := lit [' ', '0', 'x'] ++ convertHexToStr bytes

def Bkey.word : Bkey → CStr
  | .number bkey => space ++ decimal bkey.toNat
  | .array bkey => hexWordText bkey

/-- The command has the digits of the key and of the flag, and nothing more up to the next blank. -/
def SendsElement (bkey : Bkey) (eflag : Option (List Byte)) (r : Request) : Prop :=
  ∃ rest, chars r.line = bkey.word ++ ((eflag.map hexWordText).getD [] ++ (space ++ rest))

/-- This is sent or the call is refused, whatever is in the memory that is not initialised.  The key of a pipe is
printed with `%s`, so it has to end where its length says. -/
def ElementFaithful (call : BopCall) (bkey : Bkey) (eflag : Option (List Byte)) : Prop :=
  ∀ c stack old key value attributes, key.string.length ≤ key.bytes.length →
    Ends (fun e => ∃ rc, e = .returns rc) (SendsElement bkey eflag)
      (call.request c stack old key bkey eflag value attributes)

/-- The key is refused by the initialiser. -/
def Bkey.Refused (bkey : Bkey) : Prop := ∃ bytes, bkey = .array bytes ∧ (bytes.length = 0 ∨ 31 < bytes.length)

theorem convHexToStr_short (h : bytes.length ≤ 31) (str : CStr) :
    convHexToStr str bytes = convertHexToStr bytes :=
  if_neg (by simp only [maxByteStringLength]; omega)

theorem length_convertHexToStr (bytes : List Byte) :
    (convertHexToStr bytes).length = 2 * bytes.length := by
  rw [convertHexToStr_eq, length_hexText]

theorem length_decimal_uint64 (n : UInt64) : (decimal n.toNat).length ≤ 20 :=
  length_decimal_le (by decide) (n.toNat_lt.trans (by decide))

variable {bkey : Bkey} {stack : Nat → CStr}

theorem bkey_accepted (stack : Nat → CStr) (h : ¬bkey.Refused) (old : SubKey) :
    ∃ query, bkey.queryInit old = .ok query ∧
    ∀ value length, bkeyText stack { query with value := value, valueLength := length } defaultCommandSize false =
      .ok bkey.word ∧ bkey.word.length ≤ 65 := by
  cases bkey with
  | number bkey =>
    have hl := length_decimal_uint64 bkey
    refine ⟨_, rfl, fun value length => ?_⟩
    simp only [bkeyText, generateStrBkeyFromQuery, memcachedBopQueryInit, Bkey.word, space, lit, map_cons,
      map_nil, length_append, length_singleton, defaultCommandSize]
    rw [if_neg (by omega)]
    exact ⟨rfl, by omega⟩
  | array bytes =>
    have hs : ¬(bytes.length = 0 ∨ 31 < bytes.length) := fun hb => h ⟨bytes, rfl, hb⟩
    have hl : (hexWordText bytes).length = 2 * bytes.length + 3 := by
      simp only [hexWordText, length_append, length_convertHexToStr, lit, length_map, length_cons,
        length_nil]
      omega
    refine ⟨_, if_neg hs, fun value length => ?_⟩
    simp only [bkeyText, generateStrBkeyFromQuery, Bkey.word, convHexToStr_short (show bytes.length ≤ 31 by omega)]
    rw [show lit [' ', '0', 'x'] ++ convertHexToStr bytes = hexWordText bytes from rfl,
      if_neg (by simp only [defaultCommandSize]; omega)]
    exact ⟨rfl, by omega⟩

theorem insertSubKey_bkey (hb : bkeyText stack query defaultCommandSize false = .ok bkey.word)
    (hv : verb = .bopInsert ∨ verb = .bopUpsert) :
    insertSubKey stack query eflag verb = .ok (bkey.word ++ eflagText stack eflag) := by
  rcases hv with rfl | rfl
  · simp only [insertSubKey, hb]
    rfl
  · simp only [insertSubKey, hb]
    rfl

/-- A refusal that has nothing to do with the length of a text. -/
def Refusal.Unrelated (e : Refusal) : Prop := ∃ rc, e = .returns rc ∧ rc ≠ .memoryAllocationFailure

theorem refuse_unrelated {α : Type} {Q : α → Prop} (h : rc ≠ .memoryAllocationFailure) :
    Ends Refusal.Unrelated Q (refuse rc) := ⟨rc, rfl, h⟩

theorem beforeQuery_ends (c : Client) (key : List Byte) :
    Ends Refusal.Unrelated (fun _ => True) (beforeQuery c key) := by
  unfold beforeQuery
  split_ifs
  · exact refuse_unrelated (by decide)
  · exact refuse_unrelated (by decide)
  · trivial
  · exact refuse_unrelated (by decide)

theorem beforeQuery_returns (c : Client) (key : List Byte) :
    Ends (fun e => ∃ rc, e = .returns rc) (fun _ => True) (beforeQuery c key) :=
  (beforeQuery_ends c key).imp (fun _ ⟨rc, h, _⟩ => ⟨rc, h⟩) fun _ => id

theorem beforeQueryKeys_ends (c : Client) (keys : List (List Byte)) :
    Ends Refusal.Unrelated (fun _ => True) (beforeQueryKeys c keys) := by
  unfold beforeQueryKeys
  split_ifs
  · exact refuse_unrelated (by decide)
  · exact refuse_unrelated (by decide)
  · trivial
  · exact refuse_unrelated (by decide)

section Sent

variable {eflag : Option (List Byte)} {query : Query} {c : Client} {attributes : Option CreateAttrs} {key : KeyMemory}

/-- What is sent for an accepted key. -/
def Sent (stack : Nat → CStr) (bkey : Bkey) (eflag : Option (List Byte)) (r : Request) : Prop :=
  ∃ rest, chars r.line = bkey.word ++ (eflagText stack (some ⟨eflag⟩) ++ (space ++ rest))

theorem doCollInsert_sent (hb : bkeyText stack query defaultCommandSize false = .ok bkey.word)
    (hv : verb = .bopInsert ∨ verb = .bopUpsert) :
    Ends (fun e => ∃ rc, e = .returns rc) (Sent stack bkey eflag)
      (doCollInsert c stack key.bytes query (some ⟨eflag⟩) attributes verb) := by
  refine (beforeQuery_returns c key.bytes).bind fun _ _ => ?_
  rw [insertSubKey_bkey hb hv]
  simp only [bind, Except.bind, fits]
  split_ifs
  · exact ⟨_, rfl⟩
  · exact ⟨_, by simp [chars, Piece.chars]; rfl⟩

/-- The command line is not changed when an item is collected. -/
theorem collectOrFlush_line (hk : key.string.length ≤ key.bytes.length) (pos : Nat)
    (hr : r.key = key.bytes) :
    Ends (fun _ => False) (fun item => item.request.line = r.line)
      (collectOrFlush c key pos r) := by
  obtain ⟨item, hite⟩ := collectOrFlush_ok hk c pos hr
  rw [hite]
  simp only [collectOrFlush] at hite
  split_ifs at hite
  · cases hite
    rfl
  · cases hite
    rfl

theorem internalCollPipedInsert_sent (hb : bkeyText stack query defaultCommandSize false = .ok bkey.word)
    (hk : key.string.length ≤ key.bytes.length) (pos : Nat) :
    Ends (fun e => ∃ rc, e = .returns rc) (fun item => Sent stack bkey eflag item.request)
      (internalCollPipedInsert c stack pos key query (some ⟨eflag⟩) attributes .bopInsert) := by
  rw [internalCollPipedInsert, itemSubKey, insertSubKey_bkey hb (.inl rfl)]
  simp only [bind, Except.bind, fits]
  split_ifs
  · exact ⟨_, rfl⟩
  · refine (collectOrFlush_line hk pos rfl).imp (fun _ => False.elim) fun item hl => ?_
    exact ⟨_, by simp [hl, chars, Piece.chars]; rfl⟩

theorem request_sent (h : ¬bkey.Refused) (hk : key.string.length ≤ key.bytes.length)
    (call : BopCall) (old : SubKey)
    (value : List Byte) : Ends (fun e => ∃ rc, e = .returns rc) (Sent stack bkey eflag)
      (call.request c stack old key bkey eflag value attributes) := by
  obtain ⟨query, hquery, hb⟩ := bkey_accepted stack h old
  have hb := (hb value value.length).1
  rw [BopCall.request, hquery]
  cases call with
  | insert => exact doCollInsert_sent hb (.inl rfl)
  | upsert => exact doCollInsert_sent hb (.inr rfl)
  | pipedInsert pos => exact ends_map.2 (internalCollPipedInsert_sent hb hk pos)

end Sent

def noSubKey : SubKey := ⟨0, (0, 0), 0, (0, 0), [], ([], []), ⟨[], 0⟩, []⟩

/-- Nothing is refused here, if the key is accepted. -/
theorem exists_request (h : ¬bkey.Refused) (call : BopCall) (old : SubKey) (bytes : List Byte)
    (hb : 31 < bytes.length) : ∃ r, call.request pipingClient (fun _ => []) old ⟨[107], [0]⟩ bkey
    (some bytes) [] none =
      .ok r ∧ (chars r.line).length ≤ bkey.word.length + 5 := by
  obtain ⟨query, hquery, hbk⟩ := bkey_accepted (fun _ => []) h old
  obtain ⟨hbk, hl⟩ := hbk [] 0
  have he : eflagText (fun _ => []) (some ⟨some bytes⟩) = lit [' ', '0', 'x'] := by
    simp only [eflagText, bind_some, convHexToStr]
    rw [if_pos (by simp only [maxByteStringLength]; omega), append_nil]
  have hc : (chars ([.text (bkey.word ++ lit [' ', '0', 'x'] ++ space ++ unsignedText 0)] ++ [])).length =
      bkey.word.length + 5 := by
    rw [chars, append_nil, flatMap_singleton, Piece.chars]
    simp only [length_append, show unsignedText 0 = lit ['0'] from rfl, lit, space, length_map,
      length_cons, length_nil]
  have hf : fits defaultCommandSize ([.text (bkey.word ++ lit [' ', '0', 'x'] ++ space ++ unsignedText 0)] ++ []) =
      .ok _ := if_neg (by rw [defaultCommandSize]; omega)
  have hbe : beforeQuery pipingClient [107] = .ok () := rfl
  rw [BopCall.request, hquery]
  cases call with
  | insert =>
    refine ⟨⟨.bopInsert, [107], _, some []⟩, ?_, hc.le⟩
    simp only [doCollInsert, bind, Except.bind, length_nil, insertSubKey_bkey hbk (.inl rfl), he,
      insertOptions, hf]
    rfl
  | upsert =>
    refine ⟨⟨.bopUpsert, [107], _, some []⟩, ?_, hc.le⟩
    simp only [doCollInsert, bind, Except.bind, length_nil, insertSubKey_bkey hbk (.inr rfl), he,
      insertOptions, hf]
    rfl
  | pipedInsert pos =>
    refine ⟨⟨.bopInsert, [107], _, some []⟩, ?_, hc.le⟩
    simp only [internalCollPipedInsert, itemSubKey, bind, Except.bind, length_nil,
      insertSubKey_bkey hbk (.inl rfl), he, itemAttributes, replyOption, pipingClient]
    rw [append_nil] at hf
    simp only [Bool.false_eq_true, if_false, append_nil, hf]
    rfl

/-- A flag is sent as it is if and only if it is not too long, or the key is refused. -/
theorem element_text_iff (call : BopCall) (bkey : Bkey) (eflag : Option (List Byte)) :
    ElementFaithful call bkey eflag ↔ (∀ bytes, eflag = some bytes → bytes.length ≤ 31) ∨ bkey.Refused := by
  constructor
  · refine fun h => or_iff_not_imp_right.2 fun hb bytes hby => Nat.le_of_not_lt fun hl => ?_
    subst hby
    obtain ⟨r, hr, hle⟩ := exists_request hb call noSubKey bytes hl
    obtain ⟨rest, hre⟩ := (h pipingClient (fun _ => []) noSubKey ⟨[107], [0]⟩ [] none (by decide)).of_eq_ok hr
    -- The digits alone are longer than the line.
    have hlen := congrArg length hre
    simp only [length_append, map_some, getD_some, hexWordText, length_convertHexToStr] at hlen
    omega
  · intro h c stack old key value attributes hk
    by_cases hb : bkey.Refused
    · obtain ⟨bytes, rfl, hba⟩ := hb
      have href : Bkey.queryInit old (.array bytes) = refuse .invalidArguments := if_pos hba
      rw [BopCall.request, href]
      exact ⟨_, rfl⟩
    · have hs := h.resolve_right hb
      refine (request_sent hb hk call old value).imp (fun _ => id) fun r ⟨rest, hre⟩ => ⟨rest, hre.trans ?_⟩
      cases eflag with
      | none => rfl
      | some bytes =>
        simp only [eflagText, bind_some, convHexToStr_short (hs bytes rfl)]
        rfl

/-- A flag of 32 bytes.  The buffer has a string of its own, which is sent for it. -/
theorem element_text_garbage : ∃ r, BopCall.insert.request pipingClient
    (fun _ => lit ['F', 'F']) noSubKey ⟨[107], [0]⟩
    (.number 7) (some (List.replicate 32 0)) [] none = .ok r ∧
      chars r.line = lit [' ', '7', ' ', '0', 'x', 'F', 'F', ' ', '0'] ∧
      ¬SendsElement (.number 7) (some (List.replicate 32 0)) r := by
  refine ⟨⟨.bopInsert, [107], [.text (lit [' ', '7', ' ', '0', 'x', 'F', 'F', ' ', '0'])], some []⟩, rfl,
    rfl, fun ⟨rest, h⟩ => ?_⟩
  have hl := congrArg length h
  simp [hexWordText, length_convertHexToStr, chars, Piece.chars, lit] at hl
  omega

/-! ## Ranges and filters -/

/-- A filter of the initialisers, with one value at least if its bitwise operand is set. -/
inductive BuiltFilter : EflagFilter → Prop
  | eflag {offset value comp filter} (h : memcachedCollEflagFilterInit offset value comp = .ok filter) :
      BuiltFilter filter
  | eflags {offset values valueLength valueCount comp filter}
      (h : memcachedCollEflagsFilterInit offset values valueLength valueCount comp = .ok filter) : BuiltFilter filter
  | bitwise {old filter value op filter'} (hbuilt : BuiltFilter filter) (hne : filter.values ≠ [])
      (h : memcachedCollEflagFilterSetBitwise old filter value op = .ok filter') : BuiltFilter filter'

/-- A query of the initialisers, with any offset and count. -/
inductive BuiltQuery : Query → Prop
  | bop (old bkey filter) : BuiltQuery (memcachedBopQueryInit old bkey filter)
  | bopRange (old bkeys filter offset count) : BuiltQuery (memcachedBopRangeQueryInit old bkeys filter offset count)
  | bopExt {old bkey filter query} (h : memcachedBopExtQueryInit old bkey filter = .ok query) : BuiltQuery query
  | bopExtRange {old bkeys filter offset count query}
      (h : memcachedBopExtRangeQueryInit old bkeys filter offset count = .ok query) : BuiltQuery query
  | counted {query} (h : BuiltQuery query) (offset count) : BuiltQuery { query with offset := offset, count := count }

theorem BuiltFilter.bounds {filter : EflagFilter} (h : BuiltFilter filter) :
    filter.values.length ≤ 100 ∧ (∀ value ∈ filter.values, value.length ≤ 31) ∧
      ∀ op value, filter.bitwise = some (op, value) → value.length ≤ 31 := by
  induction h with
  | eflag h =>
    simp only [memcachedCollEflagFilterInit, refuse] at h
    split_ifs at h with hl hp
    · cases h
      exact ⟨by simp, by simpa [maxByteArrayLength] using hl, fun _ _ h => by cases h⟩
    · cases h
      exact ⟨by simp, by simp, fun _ _ h => by cases h⟩
  | @eflags offset values valueLength valueCount comp filter h =>
    simp only [memcachedCollEflagsFilterInit, refuse] at h
    split_ifs at h with hl hm
    cases h
    have hmax : comp.maxCount ≤ 100 := by cases comp <;> decide
    refine ⟨by simp; omega, ?_, fun _ _ h => by cases h⟩
    intro value hv
    obtain ⟨i, -, rfl⟩ := mem_map.1 hv
    exact (length_take_le _ _).trans (Nat.le_of_not_lt hl)
  | @bitwise old filter value op filter' hb hn h ih =>
    simp only [memcachedCollEflagFilterSetBitwise, refuse] at h
    split_ifs at h with hle
    cases h
    obtain ⟨first, values, hval⟩ := exists_cons_of_ne_nil hn
    refine ⟨ih.1, ih.2.1, ?_⟩
    rintro _ _ ⟨⟩
    have hf := ih.2.1 first (by simp [hval])
    simp only [hval, head?_cons, map_some, getD_some] at hle
    omega

/-- The calls of `snprintf` for the values of a filter. -/
def valueWrites (str : CStr) : (first : Bool) → List (List Byte) → List CStr
  | _, [] => []
  | first, value :: rest =>
    let str := convHexToStr str value
    ((if first then [] else lit [',']) ++ lit ['0', 'x'] ++ str) :: valueWrites str false rest

/-- The calls of `memcached_coll_eflag_filter_to_str`. -/
def filterWrites (stack : Nat → CStr) (filter : EflagFilter) : List CStr :=
  match filter.bitwise with
  | some (op, value) =>
    let str := convHexToStr (stack 2) value
    (space ++ unsignedText filter.offset ++ space ++ bitwiseToStr op ++ lit [' ', '0', 'x'] ++
      str ++ space ++ compareToStr filter.comp ++ space) :: valueWrites str true filter.values
  | none =>
    (space ++ unsignedText filter.offset ++ space ++ compareToStr filter.comp ++ space) ::
      valueWrites (stack 2) true filter.values

/-- The text of a key or a range. -/
def bkeyWrite (stack : Nat → CStr) (query : Query) : CStr :=
  (generateStrBkeyFromQuery stack query maximumCommandSize true).toOption.getD []

def rangeWrites (stack : Nat → CStr) (query : Query) : List CStr :=
  bkeyWrite stack query :: (query.eflagFilter.map (filterWrites stack)).getD []

/-- Nothing is cut off: what is left of the buffer is not negative, and has room for the next text and for a zero
byte. -/
def WritesFit (writes : List CStr) : Prop :=
  writes.flatten.length < maximumCommandSize ∧ ∀ front text back, writes = front ++ text :: back →
    front.flatten.length ≤ maximumCommandSize ∧ text.length < maximumCommandSize - front.flatten.length

/-- The text that a builder assembles is what these calls write, and they fit. -/
def Assembles (writes : List CStr) (x : Except Refusal CStr) : Prop :=
  Ends Refusal.Unrelated (· = writes.flatten) x ∧ WritesFit writes

theorem writesFit_of_length (h : writes.flatten.length < maximumCommandSize) :
    WritesFit writes := by
  refine ⟨h, ?_⟩
  rintro front text back rfl
  simp only [flatten_append, flatten_cons, length_append] at h
  omega

theorem flatten_valueWrites (str : CStr) (first : Bool) (values : List (List Byte)) :
    (valueWrites str first values).flatten = filterValues str first values := by
  induction values generalizing str first with
  | nil => rfl
  | cons value values ih => rw [valueWrites, flatten_cons, ih, filterValues]

theorem length_filterValues (h : ∀ value ∈ values, value.length ≤ 31) (str : CStr) :
    (filterValues str false values).length ≤ 65 * values.length ∧
      (filterValues str true values).length ≤ 65 * values.length - 1 := by
  induction values generalizing str with
  | nil => exact ⟨le_rfl, le_rfl⟩
  | cons value values ih =>
    have hva := h value (by simp)
    have hr := (ih (fun v hv => h v (by simp [hv])) (convHexToStr str value)).1
    rw [convHexToStr_short hva] at hr
    simp only [filterValues, convHexToStr_short hva, length_append, length_convertHexToStr, lit, length_map,
      length_cons, length_nil, if_true, Bool.false_eq_true, if_false]
    omega

theorem length_unsignedText (n : Nat) : (unsignedText n).length ≤ 10 :=
  length_decimal_le (by decide) ((Nat.mod_lt n (by decide)).trans (by decide))

theorem length_filterWrites {filter : EflagFilter} (h : BuiltFilter filter) (stack : Nat → CStr) :
    (filterWrites stack filter).flatten.length ≤ 6581 := by
  obtain ⟨hc, hv, hb⟩ := h.bounds
  have ho := length_unsignedText filter.offset
  have hco : (compareToStr filter.comp).length = 2 := by cases filter.comp <;> rfl
  rw [filterWrites]
  split
  · rename_i op value hop
    have ho' : (bitwiseToStr op).length = 1 := by cases op <;> rfl
    have ht := (length_filterValues hv (convHexToStr (stack 2) value)).2
    have hva := hb op value hop
    rw [convHexToStr_short hva] at ht
    simp only [flatten_cons, flatten_valueWrites, length_append, convHexToStr_short hva,
      length_convertHexToStr, space, lit, length_map, length_cons, length_nil]
    omega
  · have ht := (length_filterValues hv (stack 2)).2
    simp only [flatten_cons, flatten_valueWrites, length_append, space, lit, length_map, length_cons,
      length_nil]
    omega

theorem eflagFilterToStr_eq (stack : Nat → CStr) (filter : EflagFilter) (bufferLength : Nat) :
    eflagFilterToStr stack filter bufferLength = if bufferLength ≤
      (filterWrites stack filter).flatten.length then none
      else some (filterWrites stack filter).flatten := by
  rw [eflagFilterToStr, filterWrites]
  cases filter.bitwise with
  | none | some bitwise => rw [flatten_cons, flatten_valueWrites]

theorem length_hexRange (h : bytes.length ≤ 31) (str : CStr) :
    (convHexToStr str bytes).length ≤ 62 := by
  rw [convHexToStr_short h, length_convertHexToStr]
  omega

theorem exists_bkeyWrite (h : BuiltQuery query) (stack : Nat → CStr) :
    ∃ text, generateStrBkeyFromQuery stack query maximumCommandSize true = .ok text ∧ text.length ≤ 131 := by
  -- the text is not longer than this, so it is less than the buffer has room for
  have hf {text : CStr} (hl : text.length ≤ 131) : ∃ written : CStr,
      (if maximumCommandSize ≤ text.length then .error .memoryAllocationFailure else .ok text : Except ReturnT CStr) =
        .ok written ∧ written.length ≤ 131 :=
    ⟨text, if_neg (by simp only [maximumCommandSize]; omega), hl⟩
  induction h with
  | bop old bkey filter =>
    have hb := length_decimal_uint64 bkey
    exact hf (by simp [space, lit, memcachedBopQueryInit]; omega)
  | bopRange old bkeys filter offset count =>
    have hfr := length_decimal_uint64 bkeys.1
    have ht := length_decimal_uint64 bkeys.2
    exact hf (by simp [space, lit, memcachedBopRangeQueryInit]; omega)
  | @bopExt old bkey filter query h =>
    simp only [memcachedBopExtQueryInit, refuse] at h
    split_ifs at h with hba
    cases h
    simp only [maxByteArrayLength] at hba
    have hb := length_hexRange (show bkey.length ≤ 31 by omega) (stack 0)
    exact hf (by simp [lit]; omega)
  | @bopExtRange old bkeys filter offset count query h =>
    simp only [memcachedBopExtRangeQueryInit, refuse] at h
    split_ifs at h with hba
    cases h
    simp only [maxByteArrayLength] at hba
    have hfr := length_hexRange (show bkeys.1.length ≤ 31 by omega) (stack 0)
    have ht := length_hexRange (show bkeys.2.length ≤ 31 by omega) (stack 1)
    exact hf (by simp [lit]; omega)
  | counted h offset count ih => exact ih

section Fits

variable {query : Query} (hquery : BuiltQuery query)
  (hfilter : ∀ filter, query.eflagFilter = some filter → BuiltFilter filter) (stack : Nat → CStr)

include hquery hfilter

theorem bkeyFilterText_eq : bkeyFilterText stack query = .ok (rangeWrites stack query).flatten ∧
    (rangeWrites stack query).flatten.length ≤ 6712 := by
  obtain ⟨text, ht, hl⟩ := exists_bkeyWrite hquery stack
  have hb : bkeyText stack query maximumCommandSize true = .ok text := by rw [bkeyText, ht]; rfl
  have hw : bkeyWrite stack query = text := by rw [bkeyWrite, ht]; rfl
  rw [bkeyFilterText, hb, rangeWrites, hw]
  cases hs : query.eflagFilter with
  | none =>
    rw [map_none, getD_none, flatten_cons, flatten_nil, append_nil]
    exact ⟨rfl, by omega⟩
  | some filter =>
    have hle := length_filterWrites (hfilter filter hs) stack
    have he := eflagFilterToStr_eq stack filter (maximumCommandSize - text.length)
    rw [if_neg (by simp only [maximumCommandSize]; omega)] at he
    simp only [bind, Except.bind, he, map_some, getD_some, flatten_cons, length_append]
    exact ⟨rfl, by omega⟩

/-- The calls of `do_coll_get`. -/
def getWrites (stack : Nat → CStr) (query : Query) (withDelete dropIfEmpty : Bool) : List CStr :=
  rangeWrites stack query ++ [space ++ unsignedText query.offset ++ space ++ unsignedText query.count,
    deleteOption withDelete dropIfEmpty]

/-- The calls of `do_coll_delete`. -/
def deleteWrites (c : Client) (stack : Nat → CStr) (query : Query) (count : Nat) (dropIfEmpty : Bool) : List CStr :=
  rangeWrites stack query ++
    [if query.type = .bopRange ∨ query.type = .bopExtRange then space ++ unsignedText count else [],
      if dropIfEmpty then lit [' ', 'd', 'r', 'o', 'p'] else [], chars (noreplyOption c)]

/-- The calls of `do_coll_mget`. -/
def mgetWrites (stack : Nat → CStr) (query : Query) : List CStr :=
  rangeWrites stack query ++ [space ++ decimal query.offset ++ space ++ decimal query.count]

/-- The calls of `do_bop_smget`. -/
def smgetWrites (stack : Nat → CStr) (query : Query) (mode : SmgMode) : List CStr :=
  rangeWrites stack query ++ [lit [' ', '0', ' '] ++ unsignedText (query.offset + query.count), space ++ smgModeText mode]

def lineText (x : Except Refusal Request) : Except Refusal CStr := x.map fun r => chars r.line

theorem doCollGet_assembles (c : Client) (key : List Byte)
    (spaceSeparated withDelete dropIfEmpty : Bool) :
    Assembles (getWrites stack query withDelete dropIfEmpty)
      (lineText (doCollGet c stack spaceSeparated key query withDelete dropIfEmpty .bopGet)) := by
  obtain ⟨ht, hl⟩ := bkeyFilterText_eq hquery hfilter stack
  have ho := length_unsignedText query.offset
  have hc := length_unsignedText query.count
  have hop : (deleteOption withDelete dropIfEmpty).length ≤ 7 := by
    cases withDelete <;> cases dropIfEmpty <;> decide
  have hf : (getWrites stack query withDelete dropIfEmpty).flatten.length < maximumCommandSize := by
    simp [getWrites, space, lit, maximumCommandSize] at hl ⊢
    omega
  have hch : chars [.text ((rangeWrites stack query).flatten ++ space ++ unsignedText query.offset ++ space ++
      unsignedText query.count ++ deleteOption withDelete dropIfEmpty)] =
        (getWrites stack query withDelete dropIfEmpty).flatten := by
    simp [chars, Piece.chars, getWrites]
  refine ⟨ends_map.2 ((beforeQuery_ends c key).bind fun _ _ => ?_), writesFit_of_length hf⟩
  split_ifs
  · exact refuse_unrelated (by decide)
  · simp only [getSubKey, ht, bind, Except.bind, pure, Except.pure, fits, hch, if_neg (Nat.not_le.2 hf)]
    exact hch

theorem doCollDelete_assembles (c : Client) (key : List Byte) (count : Nat) (dropIfEmpty : Bool) :
    Assembles (deleteWrites c stack query count dropIfEmpty)
      (lineText (doCollDelete c stack key query count dropIfEmpty .bopDelete)) := by
  obtain ⟨ht, hl⟩ := bkeyFilterText_eq hquery hfilter stack
  have hc : (if query.type = .bopRange ∨ query.type = .bopExtRange then space ++ unsignedText count
      else []).length ≤ 11 := by
    have := length_unsignedText count
    split_ifs
    · simp [space, lit]
      omega
    · exact Nat.zero_le _
  have ho : (chars (noreplyOption c)).length ≤ 8 := by
    rw [noreplyOption]
    cases c.noReply <;> decide
  have hd : (if dropIfEmpty then lit [' ', 'd', 'r', 'o', 'p'] else []).length ≤ 5 := by
    cases dropIfEmpty <;> decide
  have hf : (deleteWrites c stack query count dropIfEmpty).flatten.length < maximumCommandSize := by
    simp only [deleteWrites, flatten_append, flatten_cons, flatten_nil, length_append,
      length_nil, maximumCommandSize]
    omega
  refine ⟨ends_map.2 ((beforeQuery_ends c key).bind fun _ _ => ?_), writesFit_of_length hf⟩
  have hs : deleteSubKey stack query count .bopDelete = .ok ((rangeWrites stack query).flatten ++
      if query.type = .bopRange ∨ query.type = .bopExtRange then space ++ unsignedText count else []) := by
    simp only [deleteSubKey, ht, bind, Except.bind, pure, Except.pure]
    split_ifs
    · rw [append_assoc]
    · rw [append_nil]
  have hch : chars ([.text ((rangeWrites stack query).flatten ++
      (if query.type = .bopRange ∨ query.type = .bopExtRange then space ++ unsignedText count else []) ++
        if dropIfEmpty then lit [' ', 'd', 'r', 'o', 'p'] else [])] ++ noreplyOption c) =
          (deleteWrites c stack query count dropIfEmpty).flatten := by
    simp [chars, Piece.chars, deleteWrites]
  simp only [hs, bind, Except.bind, fits, hch, if_neg (Nat.not_le.2 hf)]
  exact hch

theorem collMgetText_assembles (ho : query.offset < 2 ^ 64) (hc : query.count < 2 ^ 64) (c : Client)
    (keys : List (List Byte)) : Assembles (mgetWrites stack query)
    (collMgetText c stack keys query .bopMget) := by
  obtain ⟨ht, hl⟩ := bkeyFilterText_eq hquery hfilter stack
  have ho := length_decimal_le (k := 20) (by decide) (ho.trans (by decide))
  have hc := length_decimal_le (k := 20) (by decide) (hc.trans (by decide))
  have hf : (mgetWrites stack query).flatten.length < maximumCommandSize := by
    simp [mgetWrites, space, lit, maximumCommandSize] at hl ⊢
    omega
  refine ⟨(beforeQueryKeys_ends c keys).bind fun _ _ => ?_, writesFit_of_length hf⟩
  have hch : (rangeWrites stack query).flatten ++ space ++ decimal query.offset ++ space ++ decimal query.count =
      (mgetWrites stack query).flatten := by
    simp [mgetWrites]
  rw [if_pos rfl]
  split_ifs
  · exact refuse_unrelated (by decide)
  · exact refuse_unrelated (by decide)
  · exact refuse_unrelated (by decide)
  · simp only [ht, bind, Except.bind, commandText, hch, if_neg (Nat.not_le.2 hf)]
    rfl

theorem bopSmgetText_assembles (c : Client) (keys : List (List Byte)) (mode : SmgMode) :
    Assembles (smgetWrites stack query mode) (bopSmgetText c stack keys query mode) := by
  obtain ⟨ht, hl⟩ := bkeyFilterText_eq hquery hfilter stack
  have hc := length_unsignedText (query.offset + query.count)
  have hm : (smgModeText mode).length ≤ 9 := by cases mode <;> decide
  have hf : (smgetWrites stack query mode).flatten.length < maximumCommandSize := by
    simp [smgetWrites, space, lit, maximumCommandSize] at hl ⊢
    omega
  refine ⟨(beforeQueryKeys_ends c keys).bind fun _ _ => ?_, writesFit_of_length hf⟩
  have hch : (rangeWrites stack query).flatten ++ lit [' ', '0', ' '] ++ unsignedText (query.offset + query.count) ++
      space ++ smgModeText mode = (smgetWrites stack query mode).flatten := by
    simp [smgetWrites]
  split_ifs
  · exact refuse_unrelated (by decide)
  · exact refuse_unrelated (by decide)
  · exact refuse_unrelated (by decide)
  · exact refuse_unrelated (by decide)
  · simp only [ht, bind, Except.bind, commandText, hch, if_neg (Nat.not_le.2 hf)]
    rfl

/-- No text is cut off, whatever offset and count are. -/
theorem range_text_fits (hoffset : query.offset < 2 ^ 64) (hcount : query.count < 2 ^ 64)
    (c : Client) (key : List Byte)
    (keys : List (List Byte)) (spaceSeparated withDelete dropIfEmpty : Bool) (count : Nat)
    (mode : SmgMode) :
    Assembles (getWrites stack query withDelete dropIfEmpty)
      (lineText (doCollGet c stack spaceSeparated key query withDelete dropIfEmpty .bopGet)) ∧
    Assembles (deleteWrites c stack query count dropIfEmpty)
      (lineText (doCollDelete c stack key query count dropIfEmpty .bopDelete)) ∧
    Assembles (mgetWrites stack query) (collMgetText c stack keys query .bopMget) ∧
    Assembles (smgetWrites stack query mode) (bopSmgetText c stack keys query mode) :=
  ⟨doCollGet_assembles hquery hfilter stack c key spaceSeparated withDelete dropIfEmpty,
    doCollDelete_assembles hquery hfilter stack c key count dropIfEmpty,
    collMgetText_assembles hquery hfilter stack hoffset hcount c keys,
    bopSmgetText_assembles hquery hfilter stack c keys mode⟩

end Fits

theorem range_text_small : ∃ filter query, BuiltFilter filter ∧ query.eflagFilter = some filter ∧
    Assembles (mgetWrites (fun _ => []) query)
      (collMgetText pipingClient (fun _ => []) [[107]] query .bopMget) := by
  have hin : memcachedCollEflagFilterInit 0 [255] .eq = .ok ⟨0, none, .eq, [[255]]⟩ := rfl
  have hfilter := BuiltFilter.eflag hin
  have hquery := BuiltQuery.bopRange noSubKey (0, 7) (some ⟨0, none, .eq, [[255]]⟩) 0 50
  refine ⟨_, _, hfilter, rfl, (range_text_fits hquery ?_ (fun _ => []) (by decide) (by decide) pipingClient [] [[107]]
    true true true 0 .unique).2.2.1⟩
  rintro _ ⟨⟩
  exact hfilter

end ArcusClient.Coll
