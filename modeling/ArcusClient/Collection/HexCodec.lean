import ArcusClient.Collection.Elements
import ArcusClient.Lib.Strtok

/-!
# Arrays of bytes as text

`memcached_conv_hex_to_str` writes two digits for each byte, and `memcached_conv_str_to_hex` reads them
back.  The loop of the latter ends at a character that is no digit, and its result is dropped.

* An array comes back, but much else is taken for one (`hex_codec_iff`).
* `memcached_get_attrs` passes the string with the end of its line, so nothing is read
  (`attrs_by_byte_iff`).
* `memcached_hexadecimal_to_str` does not count the `0x` and the terminator (`hexadecimal_to_str_iff`).
-/

namespace ArcusClient.Coll

open CString Strtok List

/-- `memcached_conv_hex_to_str`, with the bytes that it writes. -/
def memcachedConvHexToStr (array : List Byte) (strLength : Nat) : ReturnT × List Byte :=
  if strLength ≤ array.length * 2 then (.invalidArguments, [])
  else (.success, bytesOf (convertHexToStr array) ++ [0])

/-- What `convert_str_to_hex` writes to an array of this size. -/
def hexWritten (str : CStr) (size : Nat) : List Byte :=
  if str.length = 0 ∨ 2 * size < str.length ∨ str.length % 2 ≠ 0 then [] else fillHex (bytesOf str)

/-- `memcached_conv_str_to_hex`, with the memory at `hex->array` before and after.  It allocates an array of
zeros if that is a null pointer. -/
def memcachedConvStrToHex (granted : Bool) (str : List Byte) (strLength : Nat) (array : Option (List Byte)) :
    ReturnT × Option (List Byte) :=
  if maxByteStringLength < strLength then (.invalidArguments, array)
  else if array = none ∧ granted = false then (.memoryAllocationFailure, none)
  else
    let memory := array.getD (List.replicate (strLength / 2) 0)
    let written := hexWritten (cString str) (strLength / 2)
    (.success, some (written ++ memory.drop written.length))

/-! ## The codec -/

/-- The bytes that a string of hexadecimal digits stands for. -/
def decodeHex : List Byte → Option (List Byte)
  | [] => some []
  | [_] => none
  | hi :: lo :: rest => do
    let h ← hexValue hi
    let l ← hexValue lo
    let bytes ← decodeHex rest
    return Fin.ofNat 256 (h * 16 + l) :: bytes

theorem convertHexToStr_eq (array : List Byte) : convertHexToStr array = hexText true array := rfl

theorem decodeHex_some (h : decodeHex str = some array) :
    fillHex str = array ∧ str.length = 2 * array.length ∧ ∀ b ∈ str,
      (hexValue b).isSome = true := by
  induction str using decodeHex.induct generalizing array with
  | case1 =>
    cases h
    exact ⟨rfl, rfl, fun b hb => absurd hb not_mem_nil⟩
  | case2 => cases h
  | case3 hi lo rest ih =>
    simp only [decodeHex, Option.bind_eq_bind, Option.bind_eq_some_iff] at h
    obtain ⟨x, hx, y, hy, bytes, hby, ⟨⟩⟩ := h
    obtain ⟨hf, hl, hd⟩ := ih hby
    refine ⟨by simp [fillHex, hx, hy, hf], by simp; omega, ?_⟩
    simpa [hx, hy] using hd

/-- A success means that the characters are the digits of the array. -/
def HexFaithful (granted : Bool) (str : List Byte) (strLength : Nat) : Prop :=
  ∀ result, memcachedConvStrToHex granted str strLength none = (.success, result) →
    strLength % 2 = 0 ∧ strLength ≤ 62 ∧ strLength ≤ str.length ∧
      (∀ b ∈ str.take strLength, (hexValue b).isSome = true) ∧ result = decodeHex (str.take strLength)

/-- There are so many digits.  The string ends behind them, or they are zeros. -/
def HexDigits (str : List Byte) (strLength : Nat) : Prop :=
  strLength ≤ str.length ∧ ∃ array, decodeHex (str.take strLength) = some array ∧
    ((cString str).length = strLength ∨ array = List.replicate (strLength / 2) 0)

theorem hexWritten_of_digits {str array : List Byte} {strLength : Nat} (hl : strLength ≤ str.length)
    (h : decodeHex (str.take strLength) = some array) :
    hexWritten (cString str) (strLength / 2) = if (cString str).length = strLength then array else
      [] := by
  obtain ⟨hf, hle, hd⟩ := decodeHex_some h
  rw [length_take_of_le hl] at hle
  have hz : (0 : Byte) ∉ str.take strLength := fun hm => absurd (hd 0 hm) (by decide)
  have hb : bytesOf (cString str) = str.take strLength ++ bytesOf (cString (str.drop strLength)) := by
    rw [← bytesOf_cString_append hz, take_append_drop]
  have hc := congrArg length hb
  rw [length_append, length_bytesOf, length_bytesOf, length_take_of_le hl] at hc
  rw [hexWritten]
  by_cases he : (cString str).length = strLength
  · have hn : cString (str.drop strLength) = [] := length_eq_zero_iff.1 (by omega)
    have ha : strLength = 0 → array = [] := fun h0 => length_eq_zero_iff.1 (by omega)
    rw [hb, hn]
    split_ifs with hz
    · rw [ha (by omega)]
    · exact (congrArg fillHex (append_nil _)).trans hf
  · rw [if_neg he, if_pos (by omega)]

/-- An array of at most 31 bytes is read back.  A success is right, if and only if there are so many digits and the
string ends behind them, or nothing but zeros is read. -/
theorem hex_codec_iff (granted : Bool) (str : List Byte) (strLength : Nat) :
    (∀ array rest size, 1 ≤ array.length → array.length ≤ 31 → 2 * array.length < size →
      ∃ text, memcachedConvHexToStr array size = (.success, text) ∧
        memcachedConvStrToHex true (text ++ rest) (2 * array.length) none =
          (.success, some array)) ∧
    (HexFaithful granted str strLength ↔ granted = false ∨ 63 < strLength ∨ HexDigits str strLength) := by
  constructor
  · intro array rest size hp hl hs
    refine ⟨_, if_neg (by omega), ?_⟩
    rw [memcachedConvStrToHex, if_neg (by simp only [maxByteStringLength]; omega), if_neg (by simp),
      append_assoc, cString_append, convertHexToStr_eq, hexWritten]
    simp only [singleton_append, cString, ne_eq, not_true, dif_neg, not_false_iff, append_nil]
    rw [length_hexText, if_neg (by omega), fillHex_hexText]
    simp
  · rw [HexFaithful, memcachedConvStrToHex]
    by_cases hlo : maxByteStringLength < strLength
    · rw [if_pos hlo]
      exact ⟨fun _ => .inr (.inl hlo), fun _ _ h => by cases h⟩
    cases granted with
    | false => simp [hlo]
    | true =>
      have hl' : ¬63 < strLength := hlo
      simp only [if_neg hlo, Bool.true_eq_false, if_false, false_or, hl', Prod.mk.injEq, true_and,
        forall_eq']
      constructor
      · rintro ⟨he, -, hl, -, hr⟩
        refine ⟨hl, _, hr.symm, or_iff_not_imp_left.2 fun hen => ?_⟩
        rw [hexWritten_of_digits hl hr.symm, if_neg hen]
        rfl
      · rintro ⟨hl, array, hd, hen⟩
        obtain ⟨-, hlen, hdi⟩ := decodeHex_some hd
        rw [length_take_of_le hl] at hlen
        refine ⟨by omega, by omega, hl, hdi, ?_⟩
        rw [hd, hexWritten_of_digits hl hd]
        split_ifs with hsa
        · simp [show strLength / 2 = array.length by omega]
        · rw [hen.resolve_left hsa]
          rfl

/-- One digit, and a character that is none. -/
theorem hex_codec_bad_digit : memcachedConvStrToHex true (bytesOf (lit ['A', 'z'])) 2 none =
    (.success, some [10]) ∧
    memcachedConvStrToHex true (bytesOf (lit ['A', 'B', 'C'])) 3 none =
      (.success, some [0]) := by decide

/-! ## A buffer of the caller -/

/-- `memcached_hexadecimal_to_str`, with the bytes that it writes. -/
def memcachedHexadecimalToStr (array : List Byte) (bufferLength : Nat) : Nat × List Byte :=
  if bufferLength ≤ array.length * 2 then (0, [])
  else (array.length * 2 + 2,
    bytesOf (lit ['0', 'x']) ++ (memcachedConvHexToStr array (maxByteStringLength + 2)).2)

/-- The text and its terminator are written within the buffer, or nothing is written because they do not fit. -/
def RespectsBuffer (array : List Byte) (bufferLength : Nat) : Prop :=
  memcachedHexadecimalToStr array bufferLength = (0, []) ∧ bufferLength < 2 * array.length + 3 ∨
    memcachedHexadecimalToStr array bufferLength = (2 * array.length + 2, hexWord true array ++ [0]) ∧
      (hexWord true array ++ [0]).length ≤ bufferLength

theorem hexadecimal_to_str_iff {array : List Byte} (h : array.length ≤ 31) (bufferLength : Nat) :
    RespectsBuffer array bufferLength ↔ bufferLength ≤ 2 * array.length ∨ 2 * array.length + 3 ≤ bufferLength := by
  have hw : bytesOf (lit ['0', 'x']) ++ (memcachedConvHexToStr array (maxByteStringLength + 2)).2 =
      hexWord true array ++ [0] := by
    rw [memcachedConvHexToStr, if_neg (by simp only [maxByteStringLength]; omega), hexWord, bytesOf_append,
      convertHexToStr_eq, append_assoc]
  rw [RespectsBuffer, memcachedHexadecimalToStr, hw, length_append, length_hexWord, Nat.mul_comm array.length 2]
  by_cases hs : bufferLength ≤ 2 * array.length
  · simp
    omega
  · simp
    omega

theorem hexadecimal_to_str_one : RespectsBuffer [1] 5 :=
  (hexadecimal_to_str_iff (by decide) 5).2 (.inr (by decide))

/-- The two digits of a byte need a buffer of five bytes, but three are taken for enough. -/
theorem hexadecimal_to_str_overruns :
    memcachedHexadecimalToStr [1] 3 = (4, [48, 120, 48, 49, 0]) ∧ ¬RespectsBuffer [1] 3 := by
  refine ⟨by decide, fun h => ?_⟩
  rcases h with ⟨h, -⟩ | ⟨-, h⟩
  · exact absurd h (by decide)
  · exact absurd h (by decide)

/-! ## Attributes -/

inductive BkeyAttr where
  | minbkey | maxbkey | maxbkeyrange
  deriving DecidableEq

def BkeyAttr.name : BkeyAttr → CStr
  | .minbkey => lit "minbkey".toList
  | .maxbkey => lit "maxbkey".toList
  | .maxbkeyrange => lit "maxbkeyrange".toList

/-- The b+tree keys of `memcached_coll_attrs_st`.  The other attributes are left out. -/
structure BkeyAttrs where
  subkeyType : QueryType
  /-- The memory at `bkey_ext.array`, if it is not a null pointer. -/
  array : BkeyAttr → Option (List Byte)
  length : BkeyAttr → Nat

/-- The value of an attribute, up to the end of the line.  A number is written over the pointer. -/
def BkeyAttrs.setValue (granted : Bool) (attrs : BkeyAttrs) (attr : BkeyAttr) (word : CStr) : BkeyAttrs :=
  let wordLength := word.idxOf (ofChar '\n') + 1
  let number : BkeyAttrs :=
    { attrs with array := Function.update attrs.array attr none, subkeyType := .bop }
  if 6 < wordLength ∧ isHexWord (bytesOf word) = true then
    match memcachedConvStrToHex granted (bytesOf (word.drop 2)) (wordLength - 4) (attrs.array attr) with
    | (.success, array) =>
      { subkeyType := .bopExt
        array := Function.update attrs.array attr array
        length := Function.update attrs.length attr ((wordLength - 4) / 2) }
    | _ => number
  else number

/-- The round of `memcached_get_attrs` for a line `ATTR <name>=<value>`.  It is at the beginning of
the buffer, which is not terminated behind it. -/
def getAttrsLine (granted : Bool) (attrs : BkeyAttrs) (result : List Byte) : BkeyAttrs :=
  match tokens [ofChar '='] (cString (result.drop 5)) with
  | name :: word :: _ =>
    match [BkeyAttr.minbkey, .maxbkey, .maxbkeyrange].find? fun attr => attr.name = name.take 31 with
    | some attr => attrs.setValue granted attr word
    | none => attrs
  | _ => attrs

/-- `memcached_coll_attrs_get_minbkey_by_byte` and the two like it. -/
def BkeyAttrs.getByByte (attrs : BkeyAttrs) (attr : BkeyAttr) : Option (List Byte) :=
  if attrs.subkeyType = .bopExt then some (((attrs.array attr).getD []).take (attrs.length attr)) else none

def attrLine (attr : BkeyAttr) (upper : Bool) (array : List Byte) : CStr :=
  lit "ATTR ".toList ++ (attr.name ++ ofChar '=' :: (lit ['0', 'x'] ++ hexText upper array ++ lit ['\r', '\n']))

theorem hexValue_of_mem_hexText {upper : Bool} {array : List Byte} {c : CChar}
    (h : c ∈ hexText upper array) :
    (hexValue c.1).isSome = true := by
  obtain ⟨b, -, hc⟩ := mem_flatMap.1 h
  simp only [mem_cons, not_mem_nil, or_false] at hc
  rcases hc with rfl | rfl
  · rw [hexValue_hexChar upper (by omega), Option.isSome_some]
  · rw [hexValue_hexChar upper (by omega), Option.isSome_some]

/-- The value is the word behind the sign, with the end of the line and maybe more. -/
theorem exists_value (attr : BkeyAttr) (upper : Bool) (array behind : List Byte) : ∃ more words,
    tokens [ofChar '='] (cString ((bytesOf (attrLine attr upper array) ++ behind).drop 5)) =
      attr.name :: (lit ['0', 'x'] ++ hexText upper array ++ [ofChar '\r'] ++ ofChar '\n' :: more) :: words := by
  have hn : (∀ b ∈ attr.name, b ∉ [ofChar '=']) ∧ attr.name ≠ [] := by
    cases attr <;> decide +kernel
  have hv : ∀ b ∈ lit ['0', 'x'] ++ hexText upper array ++ lit ['\r', '\n'], b ∉ [ofChar '='] := by
    intro b hb he
    rw [mem_singleton.1 he] at hb
    rcases mem_append.1 hb with hb | hb
    · rcases mem_append.1 hb with hb | hb
      · exact absurd hb (by decide)
      · exact absurd (hexValue_of_mem_hexText hb) (by decide)
    · exact absurd hb (by decide)
  obtain ⟨more, -, words, -, ht⟩ := tokens_of_word hv (by simp [lit]) (cString behind)
  rw [attrLine, bytesOf_append, append_assoc, drop_left' (by decide), cString_append, append_assoc,
    cons_append, tokens_word_append hn.1 hn.2 (mem_singleton_self _), ht]
  simp [lit]

/-- The array that is returned is the one that was there before, or one of zeros.  A single byte is taken for a
number. -/
theorem attrs_by_byte_iff (attrs : BkeyAttrs) (attr : BkeyAttr) (upper : Bool) {array : List Byte}
    (hpos : 1 ≤ array.length) (hle : array.length ≤ 31) (behind : List Byte) :
    (getAttrsLine true attrs (bytesOf (attrLine attr upper array) ++ behind)).getByByte attr = some array ↔
      2 ≤ array.length ∧ ((attrs.array attr).getD (List.replicate array.length 0)).take array.length = array := by
  obtain ⟨more, words, ht⟩ := exists_value attr upper array behind
  have hf : [BkeyAttr.minbkey, .maxbkey, .maxbkeyrange].find? (fun a => a.name = attr.name.take 31) = some attr := by
    cases attr <;> decide
  have hfr : ofChar '\n' ∉ lit ['0', 'x'] ++ hexText upper array ++ [ofChar '\r'] := by
    simp only [mem_append, not_or]
    exact ⟨⟨by decide, fun h => absurd (hexValue_of_mem_hexText h) (by decide)⟩, by decide⟩
  have hl : (lit ['0', 'x'] ++ hexText upper array ++ [ofChar '\r'] ++ ofChar '\n' :: more).idxOf (ofChar '\n') + 1 =
      2 * array.length + 4 := by
    rw [idxOf_append_of_notMem hfr]
    simp [lit]
  have hw : hexWritten (hexText upper array ++ [ofChar '\r'] ++ ofChar '\n' :: more) array.length = [] :=
    if_pos (.inr (.inl (by simp)))
  have hc : memcachedConvStrToHex true
      (bytesOf ((lit ['0', 'x'] ++ hexText upper array ++ [ofChar '\r'] ++ ofChar '\n' :: more).drop 2))
      (2 * array.length) (attrs.array attr) =
        (.success, some ((attrs.array attr).getD (replicate array.length 0))) := by
    rw [memcachedConvStrToHex, if_neg (by simp only [maxByteStringLength]; omega), if_neg (by simp), cString_bytesOf,
      Nat.mul_div_cancel_left _ Nat.two_pos]
    exact congrArg (fun written : List Byte => (ReturnT.success, some (written ++ drop written.length _))) hw
  rw [getAttrsLine, ht]
  simp only [hf, BkeyAttrs.setValue, hl, Nat.add_sub_cancel, hc]
  by_cases htw : 2 ≤ array.length
  · rw [if_pos ⟨by omega, rfl⟩]
    simp [BkeyAttrs.getByByte, htw]
  · rw [if_neg fun h => htw (by omega)]
    simp [BkeyAttrs.getByByte, htw]

/-- Nothing is allocated yet. -/
def newAttrs : BkeyAttrs := ⟨.unknown, fun _ => none, fun _ => 0⟩

theorem attrs_by_byte_zeros : (getAttrsLine true newAttrs (bytesOf (attrLine .minbkey true [0, 0]) ++ [])).getByByte .minbkey =
    some [0, 0] :=
  (attrs_by_byte_iff newAttrs .minbkey true (by decide) (by decide) []).2 ⟨by decide, rfl⟩

theorem attrs_by_byte_lost :
    (getAttrsLine true newAttrs (bytesOf (attrLine .minbkey true [171, 205]))).getByByte .minbkey = some [0, 0] ∧
    (getAttrsLine true newAttrs (bytesOf (attrLine .minbkey true [171]))).getByByte .minbkey = none := by decide +kernel

end ArcusClient.Coll
