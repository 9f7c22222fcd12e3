import ArcusClient.Collection.Request
import ArcusClient.Io.Packets
import ArcusClient.Lib.Numerals

/-!
# Elements in a reply

The reply to a request for elements has a line with their flags and number, and then the elements:

    VALUE <flags> <ecount>\r\n
    <bytes> <data>\r\n                     (list, set)
    <mkey> <bytes> <data>\r\n              (map)
    <bkey> [<eflag>] <bytes> <data>\r\n    (b+tree)

The words before the data are read byte by byte up to a space, each with a limit of its own, and the
data by its length.  What `Element.text` lays out is read back (`elements_decoded`), whatever packets
it comes in, but for a map key with a zero byte: its length is found with `strlen`
(`mkey_with_zero_cut`).
-/

namespace ArcusClient.Coll

open CString Io Strtok List

/-- `memcached_coll_type_t`. -/
inductive CollType where
  | none | kv | list | set | map | btree
  deriving DecidableEq

/-- A member of `sub_keys`. -/
inductive ElementKey where
  | none
  /-- The bytes of the string that its length covers. -/
  | mkey (string : List Byte)
  | bkey (bkey : UInt64)
  | bkeyExt (array : List Byte)
  deriving DecidableEq

/-- An element, with its members of `sub_keys`, `eflags` and `values`. -/
structure Element where
  key : ElementKey
  eflag : Option (List Byte)
  value : List Byte
  deriving DecidableEq

/-- `memcached_coll_result_st`. -/
structure CollResult where
  type : CollType
  collectionFlags : Nat
  subKeyType : QueryType
  elements : List Element
  btreePosition : Nat
  resultPosition : Nat
  itemKey : List Byte
  deriving DecidableEq

def CollResult.create (type : CollType) : CollResult := ⟨type, 0, .unknown, [], 0, 0, []⟩

/-- The member `sub_key_type` after an element with the given key. -/
def ElementKey.queryType (old : QueryType) : ElementKey → QueryType
  | .none => old
  | .mkey _ => .mop
  | .bkey _ => .bop
  | .bkeyExt _ => .bopExt

/-- The next element.  It is written at the index of the loop, which is `collection_count` for a result
that was reset. -/
def CollResult.add (result : CollResult) (element : Element) : CollResult :=
  { result with
    subKeyType := element.key.queryType result.subKeyType
    elements := result.elements ++ [element] }

/-! ## Words -/

abbrev Fetch (α : Type) := ExceptT ReturnT (StateT Reader Option) α

/-- `memcached_io_read`, with the connection closed if the data does not come. -/
def ioRead (length : Nat) : Fetch (List Byte) := fun s =>
  (Reader.memcachedIoRead length true s).map fun ((rc, bytes), s) =>
    if rc ≠ .success then (.error rc, if rc = .inProgress then s.quitServer else s)
    else (.ok bytes, s)

def spaceByte : Byte := 32

def crByte : Byte := 13

def lfByte : Byte := 10

abbrev Plain (l : List Byte) : Prop := ∀ b ∈ l, b ≠ spaceByte ∧ b ≠ crByte

/-- How `fetch_value_header` ends: at a space or at the end of a line. -/
inductive HeaderEnd where
  | space (string : List Byte)
  | line (string : List Byte)

def headerAfterCr (string : List Byte) : Fetch HeaderEnd := do
  let byte ← ioRead 1
  if byte = [spaceByte] then return .space string
  else if byte = [lfByte] then return .line string
  else throw .protocolError

/-- The loop of `fetch_value_header`, with the number of bytes that may still be read.  A carriage
return does not count. -/
def headerLoop : (left : Nat) → (string : List Byte) → Fetch HeaderEnd
  | 0, _ => throw .protocolError
  | left + 1, string => do
    let byte ← ioRead 1
    if byte = [spaceByte] then return .space string
    else if byte = [crByte] then headerAfterCr string
    else headerLoop left (string ++ byte)

/-- `fetch_value_header`, for a word that the line must not end with. -/
def fetchWord (maxReadLength : Nat) : Fetch (List Byte) := do
  match ← headerLoop maxReadLength [] with
  | .space string => return string
  | .line _ => throw .protocolError

/-! ## Arrays of bytes -/

/-- The loop of `convert_str_to_hex`: the bytes that are written before a character is no digit. -/
def fillHex : List Byte → List Byte
  | hi :: lo :: rest =>
    match hexValue hi with
    | none => []
    | some h =>
      match hexValue lo with
      | none => [Fin.ofNat 256 h]
      | some l => Fin.ofNat 256 (h * 16 + l) :: fillHex rest
  | _ => []

/-- `convert_str_to_hex`, on an array of zeros. -/
def convertStrToHex (str : CStr) (size : Nat) : List Byte :=
  let written := if str.length = 0 ∨ 2 * size < str.length ∨ str.length % 2 ≠ 0 then []
    else fillHex (bytesOf str)
  written ++ List.replicate (size - written.length) 0

/-- `memcached_conv_str_to_hex`: the array that is allocated.  The code it returns is not
looked at. -/
def convStrToHex (str : List Byte) : Option (List Byte) :=
  if maxByteStringLength < str.length then none
  else some (convertStrToHex (cString str) (str.length / 2))

/-- The word begins with `0x`. -/
def isHexWord : List Byte → Bool
  | zero :: x :: _ => zero = 48 && x = 120
  | _ => false

/-! ## Elements -/

/-- `MAX_UINT32_STRING_LENGTH`. -/
def maxUint32StringLength : Nat := 10 + 1

/-- `MAX_ELEMENT_BUFFER_SIZE`. -/
def maxElementBufferSize : Nat := maxMopMkeyLength + 1

def bkeyOfWord (word : List Byte) : ElementKey :=
  if isHexWord word then .bkeyExt ((convStrToHex (word.drop 2)).getD [])
  else .bkey (UInt64.ofNat (strtoull (cString word)))

/-- The words before the data: the key, the element flag and the length. -/
def fetchElementHeader (type : CollType) : Fetch (ElementKey × Option (List Byte) × List Byte) :=
  match type with
  | .btree => do
    let bkey ← fetchWord (maxByteStringLength + 2)
    -- the element flag, or the length if there is none
    let second ← fetchWord (maxByteStringLength + 2)
    if isHexWord second then
      let bytes ← fetchWord maxUint32StringLength
      return (bkeyOfWord bkey, convStrToHex (second.drop 2), bytes)
    else return (bkeyOfWord bkey, none, second)
  | .map => do
    let mkey ← fetchWord maxElementBufferSize
    let bytes ← fetchWord maxUint32StringLength
    return (.mkey (bytesOf (cString mkey)), none, bytes)
  | _ => do
    let bytes ← fetchWord maxUint32StringLength
    return (.none, none, bytes)

/-- The body of the loop of `textual_coll_element_fetch`.  `memory` tells if there is memory for
the value. -/
def fetchElement (headerSize : Nat) (type : CollType) (memory : Bool) : Fetch Element := do
  if 0 < headerSize then
    let header ← fetchWord (headerSize + 1)
    if header.length ≠ headerSize then throw .partialRead
  let (key, eflag, bytes) ← fetchElementHeader type
  let valueLength := strtoull (cString bytes)
  if memory = false then throw .memoryAllocationFailure
  let data ← ioRead ((valueLength + 2) % 2 ^ 64)
  return ⟨key, eflag, data.take valueLength⟩

/-- `textual_coll_element_fetch`, with `count` elements to go. -/
def textualCollElementFetch (headerSize : Nat) (memory : Nat → Bool) :
    (count i : Nat) → CollResult → Reader → Option ((ReturnT × CollResult) × Reader)
  | 0, _, result, s => some ((.success, result), s)
  | count + 1, i, result, s =>
    (fetchElement headerSize result.type (memory i) s).bind fun
      | (.error rc, s) => some ((rc, result), s)
      | (.ok element, s) =>
        textualCollElementFetch headerSize memory count (i + 1) (result.add element) s

/-! ## The first line -/

def isDigitByte (b : Byte) : Bool := 48 ≤ b.1 && b.1 ≤ 57

/-- `parse_response_uint32_value`, on the rest of the buffer. -/
def parseResponseUint32Value : (valueCount : Nat) → List Byte → Option (List Nat)
  | 0, _ => some []
  | _ + 1, [] => none
  | valueCount + 1, b :: str =>
    if b ≠ spaceByte then none
    else
      let digits := str.takeWhile isDigitByte
      let rest := str.dropWhile isDigitByte
      if digits = [] ∨ rest = [] ∨ maxUint32StringLength ≤ digits.length then none
      else (parseResponseUint32Value valueCount rest).map
        (strtoull (cString str) % 2 ^ 32 :: ·)

/-- `parse_response_string_value`: the word after a space. -/
def parseResponseStringValue : List Byte → Option (List Byte)
  | [] => none
  | b :: str =>
    if b ≠ spaceByte then none
    else
      let word := str.takeWhile fun b => b ≠ spaceByte ∧ b ≠ crByte
      if word = [] ∨ word.length = str.length then none else some word

/-- `get_status_of_bop_mget_response`. -/
def getStatusOfBopMgetResponse (word : List Byte) : ReturnT :=
  if word = bytesOf (lit ['O', 'K']) then .success
  else if word = bytesOf (lit ['O', 'U', 'T', '_', 'O', 'F', '_', 'R', 'A', 'N', 'G', 'E']) then
    .outOfRange
  else if word = bytesOf (lit ['N', 'O', 'T', '_', 'F', 'O', 'U', 'N', 'D']) then .notfound
  else if word = bytesOf (lit ['N', 'O', 'T', '_', 'F', 'O', 'U', 'N', 'D', '_', 'E', 'L', 'E', 'M',
      'E', 'N', 'T']) then .notfoundElement
  else if word = bytesOf (lit ['T', 'R', 'I', 'M', 'M', 'E', 'D']) then .trimmed
  else if word = bytesOf (lit ['T', 'Y', 'P', 'E', '_', 'M', 'I', 'S', 'M', 'A', 'T', 'C', 'H']) then
    .typeMismatch
  else if word = bytesOf (lit ['B', 'K', 'E', 'Y', '_', 'M', 'I', 'S', 'M', 'A', 'T', 'C', 'H']) then
    .bkeyMismatch
  else if word = bytesOf (lit ['U', 'N', 'R', 'E', 'A', 'D', 'A', 'B', 'L', 'E']) then .unreadable
  else .undefinedResponse

inductive ValueLayout where
  /-- `VALUE <flags> <ecount>`. -/
  | get
  /-- `VALUE <position> <flags> <ecount> <resultidx>`. -/
  | pwg
  /-- `VALUE <key> <status> [<flags> <ecount>]`. -/
  | mget
  deriving DecidableEq

/-- The tests of `last_op_code`. -/
def valueLayout (verb : Verb) : Option ValueLayout :=
  let lastOpCode := collOpString verb
  if (lastOpCode.drop 1).take 4 = lit ['o', 'p', ' ', 'g'] then some .get
  else if lastOpCode.take 7 = lit ['b', 'o', 'p', ' ', 'p', 'w', 'g'] then some .pwg
  else if lastOpCode.take 8 = lit ['b', 'o', 'p', ' ', 'm', 'g', 'e', 't'] then some .mget
  else none

/-- The length of `VALUE`. -/
def valueWordLength : Nat := 5

/-- The part of a line with the numbers, or the code that is returned. -/
def numbersOf (layout : ValueLayout) (line : List Byte) (result : CollResult) :
    ReturnT × CollResult × List Byte :=
  match layout with
  | .get => (.success, result, line)
  | .pwg => (.success, result, line)
  | .mget =>
    match parseResponseStringValue line with
    | none => (.partialRead, result, line)
    | some key =>
      let line := line.drop (key.length + 1)
      let result := { result with itemKey := key }
      match parseResponseStringValue line with
      | none => (.partialRead, result, line)
      | some word =>
        let line := line.drop (word.length + 1)
        let status := getStatusOfBopMgetResponse word
        if status ≠ .success ∧ status ≠ .trimmed then
          (if line.head? = some crByte then status else .partialRead, result, line)
        else (.success, result, line)

/-- The members of the result that the numbers go to, and the number of elements. -/
def takeNumbers (layout : ValueLayout) (numbers : List Nat) (result : CollResult) :
    CollResult × Nat :=
  match layout with
  | .pwg => ({ result with
      btreePosition := numbers.getD 0 0
      collectionFlags := numbers.getD 1 0
      resultPosition := numbers.getD 3 0 }, numbers.getD 2 0)
  | _ => ({ result with collectionFlags := numbers.getD 0 0 }, numbers.getD 1 0)

/-- `textual_coll_value_fetch`, which looks at the first bytes of the buffer only.  `arrays` tells if
there is memory for the arrays of the result. -/
def textualCollValueFetch (verb : Verb) (buffer : List Byte) (arrays : Bool) (memory : Nat → Bool)
    (result : CollResult) (s : Reader) : Option ((ReturnT × CollResult) × Reader) :=
  match valueLayout verb with
  | none => some ((.unknownReadFailure, result), s)
  | some layout =>
    let line := (buffer.take defaultCommandSize).drop valueWordLength
    let (rc, result, line) := numbersOf layout line result
    if rc ≠ .success then some ((rc, result), s)
    else
      match parseResponseUint32Value (if layout = .pwg then 4 else 2) line with
      | none => some ((.partialRead, result), s)
      | some numbers =>
        let (result, ecount) := takeNumbers layout numbers result
        if ecount = 0 then some ((.protocolError, result), s)
        else if arrays = false then some ((.memoryAllocationFailure, result), s)
        else
          let headerSize := if layout = .mget then 7 else 0
          textualCollElementFetch headerSize memory ecount 0 result s

/-! ## The layout -/

def ElementKey.text (upper : Bool) : ElementKey → List Byte
  | .none => []
  | .mkey string => string ++ [spaceByte]
  | .bkey number => bytesOf (decimal number.toNat) ++ [spaceByte]
  | .bkeyExt array => bytesOf (lit ['0', 'x'] ++ hexText upper array) ++ [spaceByte]

def eflagWord (upper : Bool) : Option (List Byte) → List Byte
  | none => []
  | some array => bytesOf (lit ['0', 'x'] ++ hexText upper array) ++ [spaceByte]

/-- An element as it is laid out in a reply.  The digits of byte arrays are in upper or lower
case. -/
def Element.text (upper : Bool) (e : Element) : List Byte :=
  e.key.text upper ++ eflagWord upper e.eflag ++ bytesOf (decimal e.value.length) ++ [spaceByte] ++
    e.value ++ crlf

def valueLine (flags count : Nat) : List Byte :=
  bytesOf (lit ['V', 'A', 'L', 'U', 'E'] ++ space ++ decimal flags ++ space ++ decimal count) ++ crlf

def mkeyByte (b : Byte) : Prop := b ≠ spaceByte ∧ b ≠ crByte ∧ b ≠ lfByte

def ElementKey.Legal : CollType → ElementKey → Prop
  | .list, .none => True
  | .set, .none => True
  | .map, .mkey string => 1 ≤ string.length ∧ string.length ≤ 250 ∧ ∀ b ∈ string, mkeyByte b
  | .btree, .bkey _ => True
  | .btree, .bkeyExt array => 1 ≤ array.length ∧ array.length ≤ 31
  | _, _ => False

def EflagLegal : CollType → Option (List Byte) → Prop
  | _, none => True
  | .btree, some array => 1 ≤ array.length ∧ array.length ≤ 31
  | _, some _ => False

structure Element.Legal (type : CollType) (e : Element) : Prop where
  key : e.key.Legal type
  eflag : EflagLegal type e.eflag
  value : e.value.length < 2 ^ 32

def ElementKey.Terminated : ElementKey → Prop
  | .mkey string => (0 : Byte) ∉ string
  | _ => True

/-! ## Reading a word -/

structure At (stream rest : List Byte) (s : Reader) : Prop where
  sound : s.Sound stream
  isOpen : s.isOpen = true
  rest_eq : s.rest = rest

/-- The reader takes these bytes from the connection and returns this value. -/
def Reads {α : Type} (t : List Byte) (m : Fetch α) (a : α) : Prop :=
  ∀ ⦃stream rest : List Byte⦄ ⦃s : Reader⦄, At stream (t ++ rest) s →
    ∃ s', m s = some (.ok a, s') ∧ At stream rest s'

section Words

variable {α β : Type} {t u word : List Byte} {m : Fetch α} {f : α → Fetch β} {a : α} {b : β}

theorem Reads.pure (a : α) : Reads [] (Pure.pure a) a := fun _ _ s h => ⟨s, rfl, h⟩

/-- A reader goes on with the value that was read. -/
theorem Reads.run (h : Reads t m a) (ha : At stream (t ++ rest) s)
    (f : α → Fetch β) : ∃ s₁, (m >>= f) s = f a s₁ ∧ At stream rest s₁ := by
  obtain ⟨s₁, hr, ha₁⟩ := h ha
  refine ⟨s₁, ?_, ha₁⟩
  show Option.bind (m s) _ = _
  rw [hr]
  rfl

theorem Reads.bind (h : Reads t m a) (h' : Reads u (f a) b) : Reads (t ++ u) (m >>= f) b := by
  intro stream rest s ha
  rw [append_assoc] at ha
  obtain ⟨s₁, hr, ha₁⟩ := h.run ha f
  obtain ⟨s₂, hr', ha₂⟩ := h' ha₁
  exact ⟨s₂, hr.trans hr', ha₂⟩

/-- The last step of a reader takes nothing more. -/
theorem Reads.last (h : Reads t m a) (h' : Reads [] (f a) b) : Reads t (m >>= f) b := by
  have hb := h.bind h'
  rwa [append_nil] at hb

theorem ioRead_reads (bytes : List Byte) : Reads bytes (ioRead bytes.length) bytes := by
  intro stream rest s h
  obtain ⟨s', hs, hst, hr⟩ := Reader.memcachedIoRead_spec bytes.length true h.sound
  have hsp : s.toStream.read bytes.length true =
      ((.success, bytes), { s.toStream with rest := rest }) := by
    simp [Stream.read, Reader.toStream, h.isOpen, h.rest_eq]
  rw [hsp] at hr hst
  refine ⟨s', ?_, hs, ?_, congrArg Stream.rest hst⟩
  · rw [ioRead, hr]
    rfl
  · exact (congrArg Stream.isOpen hst).trans h.isOpen

/-- Plain bytes are read into the string. -/
theorem headerLoop_plain (hw : Plain word) (left : Nat) (string : List Byte)
    (h : At stream (word ++ rest) s) : ∃ s₁,
      headerLoop (left + word.length) string s = headerLoop left
        (string ++ word) s₁ ∧ At stream rest s₁ := by
  induction word generalizing string s with
  | nil => exact ⟨s, by rw [append_nil]; rfl, h⟩
  | cons b word ih =>
    rw [Plain, forall_mem_cons] at hw
    rw [length_cons, ← Nat.add_assoc]
    obtain ⟨s₁, hr, ha⟩ := (ioRead_reads [b]).run h _
    obtain ⟨s₂, hr', ha₂⟩ := ih hw.2 (string ++ [b]) ha
    refine ⟨s₂, hr.trans ?_, ha₂⟩
    rw [if_neg (by simpa using hw.1.1), if_neg (by simpa using hw.1.2), hr', append_assoc]
    rfl

/-- A word is read up to what ends it. -/
theorem headerLoop_reads {e : List Byte → HeaderEnd}
    (he : ∀ left string, Reads u (headerLoop (left + 1) string) (e string)) (hw : Plain word)
    (hl : word.length < left) (string : List Byte) :
    Reads (word ++ u) (headerLoop left string) (e (string ++ word)) := by
  intro stream rest s h
  rw [append_assoc] at h
  obtain ⟨n, rfl⟩ : ∃ n, left = n + 1 + word.length := ⟨left - 1 - word.length, by omega⟩
  obtain ⟨s₁, hr, ha⟩ := headerLoop_plain hw (n + 1) string h
  obtain ⟨s', hr', ha'⟩ := he n (string ++ word) ha
  exact ⟨s', hr.trans hr', ha'⟩

theorem headerLoop_space (hw : Plain word) (hl : word.length < left) :
    Reads (word ++ [spaceByte]) (headerLoop left []) (.space word) := by
  refine headerLoop_reads (fun left string => ?_) hw hl []
  exact (ioRead_reads [spaceByte]).last (.pure _)

theorem fetchWord_reads (maxReadLength : Nat) (hw : Plain word) (hl : word.length < maxReadLength) :
    Reads (word ++ [spaceByte]) (fetchWord maxReadLength) word := by
  exact (headerLoop_space hw hl).last (.pure word)

end Words

/-! ## Words of an element -/

variable {n : Nat} {b : Byte}

theorem decimal_plain (h : b ∈ bytesOf (decimal n)) : b ≠ spaceByte ∧ b ≠ crByte := by
  obtain ⟨c, hc, rfl⟩ := mem_map.1 h
  have hd : 48 ≤ c.1.1 ∧ c.1.1 ≤ 57 := by simpa [isDigit] using isDigit_of_mem_decimal hc
  constructor <;> intro he <;> rw [he] at hd <;> revert hd <;> decide

theorem hexChar_plain (upper : Bool) (h : n < 16) :
    (hexChar upper n).1 ≠ spaceByte ∧ (hexChar upper n).1 ≠ crByte := by
  have ha : ∀ upper : Bool, ∀ n : Fin 16,
      (hexChar upper n.1).1 ≠ spaceByte ∧ (hexChar upper n.1).1 ≠ crByte := by decide
  exact ha upper ⟨n, h⟩

def hexWord (upper : Bool) (array : List Byte) : List Byte :=
  bytesOf (lit ['0', 'x'] ++ hexText upper array)

theorem hexWord_eq (upper : Bool) (array : List Byte) :
    hexWord upper array = 48 :: 120 :: bytesOf (hexText upper array) := rfl

theorem length_hexWord (upper : Bool) (array : List Byte) :
    (hexWord upper array).length = 2 * array.length + 2 := by
  rw [hexWord_eq, length_cons, length_cons, length_bytesOf, length_hexText]

theorem hexWord_plain (h : b ∈ hexWord upper array) : b ≠ spaceByte ∧ b ≠ crByte := by
  rw [hexWord_eq, mem_cons, mem_cons] at h
  rcases h with rfl | rfl | h
  · decide
  · decide
  · obtain ⟨c, hc, rfl⟩ := mem_map.1 h
    obtain ⟨byte, -, hc⟩ := mem_flatMap.1 hc
    simp only [mem_cons, not_mem_nil, or_false] at hc
    rcases hc with rfl | rfl
    · exact hexChar_plain upper (by omega)
    · exact hexChar_plain upper (by omega)

theorem fillHex_hexText (upper : Bool) (array : List Byte) :
    fillHex (bytesOf (hexText upper array)) = array := by
  induction array with
  | nil => rfl
  | cons b array ih =>
    have hc : bytesOf (hexText upper (b :: array)) = (hexChar upper (b.1 / 16)).1 ::
        (hexChar upper (b.1 % 16)).1 :: bytesOf (hexText upper array) := rfl
    rw [hc, fillHex, hexValue_hexChar upper (by omega), hexValue_hexChar upper (by omega)]
    rw [ih]
    refine congrArg (· :: array) (Fin.ext ?_)
    simp only [Fin.val_ofNat]
    omega

theorem convStrToHex_hexText {upper : Bool} {array : List Byte} (hp : 1 ≤ array.length)
    (hl : array.length ≤ 31) : convStrToHex (bytesOf (hexText upper array)) = some array := by
  have hs : (bytesOf (hexText upper array)).length = 2 * array.length := by simp
  have hh : 2 * array.length / 2 = array.length := by omega
  rw [convStrToHex, if_neg (by rw [hs]; simp only [maxByteStringLength]; omega), hs,
    cString_bytesOf, convertStrToHex, length_hexText, if_neg (by omega), fillHex_hexText]
  simp

theorem isHexWord_hexWord (upper : Bool) (array : List Byte) : isHexWord
    (hexWord upper array) = true := by
  rfl

/-- A decimal number does not begin with `0x`. -/
theorem isHexWord_decimal (n : Nat) : isHexWord (bytesOf (decimal n)) = false := by
  rcases hd : decimal n with _ | ⟨a, _ | ⟨b, rest⟩⟩
  · rfl
  · rfl
  · have hb : isDigit b = true := isDigit_of_mem_decimal (n := n) (by rw [hd]; simp)
    have hr : 48 ≤ b.1.1 ∧ b.1.1 ≤ 57 := by simpa [isDigit] using hb
    have hn : b.1 ≠ 120 := by
      intro he
      rw [he] at hr
      exact absurd hr (by decide)
    simp [bytesOf, isHexWord, hn]

/-! ## Reading an element -/

section Elements

variable {stream rest : List Byte} {s : Reader} {upper : Bool}

variable {n : Nat}

theorem fetchLength_reads (hn : n < 2 ^ 32) :
    Reads (bytesOf (decimal n) ++ [spaceByte]) (fetchWord maxUint32StringLength)
      (bytesOf (decimal n)) := by
  refine fetchWord_reads _ (fun b hb => decimal_plain hb) ?_
  have := length_decimal_le (n := n) (k := 10) (by decide) (by omega)
  rw [length_bytesOf]
  exact Nat.lt_succ_of_le this

def ElementKey.word (upper : Bool) : ElementKey → List Byte
  | .bkey number => bytesOf (decimal number.toNat)
  | .bkeyExt array => hexWord upper array
  | _ => []

variable {key : ElementKey}

theorem ElementKey.Legal.word (h : key.Legal .btree) (upper : Bool) :
    key.text upper = key.word upper ++ [spaceByte] ∧ Plain (key.word upper) ∧
      (key.word upper).length < maxByteStringLength + 2 ∧ bkeyOfWord (key.word upper) = key := by
  cases key with
  | none | mkey string => exact h.elim
  | bkey number =>
    have hl : number.toNat < 2 ^ 64 := number.toNat_lt
    have hlen := length_decimal_le (n := number.toNat) (k := 20) (by decide) (by omega)
    refine ⟨rfl, fun b hb => decimal_plain hb, ?_, ?_⟩
    · rw [ElementKey.word, length_bytesOf, maxByteStringLength]
      omega
    · rw [ElementKey.word, bkeyOfWord, isHexWord_decimal, if_neg Bool.false_ne_true, cString_bytesOf,
        strtoull_decimal hl, UInt64.ofNat_toNat]
  | bkeyExt array =>
    obtain ⟨hp, hle⟩ := h
    refine ⟨rfl, fun b hb => hexWord_plain hb, ?_, ?_⟩
    · rw [ElementKey.word, length_hexWord, maxByteStringLength]
      omega
    · rw [ElementKey.word, bkeyOfWord, isHexWord_hexWord, hexWord_eq]
      simp only [drop_succ_cons, drop_zero]
      rw [convStrToHex_hexText hp hle]
      rfl

variable {eflag : Option (List Byte)} {type : CollType}

theorem fetchElementHeader_btree (hk : key.Legal .btree) (he : EflagLegal .btree eflag)
    (hn : n < 2 ^ 32) :
    Reads (key.text upper ++ (eflagWord upper eflag ++ (bytesOf (decimal n) ++ [spaceByte])))
      (fetchElementHeader .btree) (key, eflag, bytesOf (decimal n)) := by
  obtain ⟨ht, hp, hl, hba⟩ := hk.word upper
  rw [ht]
  refine (fetchWord_reads _ hp hl).bind ?_
  rw [hba]
  cases eflag with
  | none =>
    have hs := length_decimal_le (n := n) (k := 10) (by decide) (by omega)
    refine (fetchWord_reads _ (fun b hb => decimal_plain hb) ?_).last ?_
    · rw [length_bytesOf, maxByteStringLength]
      omega
    · rw [isHexWord_decimal]
      exact .pure _
  | some array =>
    obtain ⟨hpo, hle⟩ : 1 ≤ array.length ∧ array.length ≤ 31 := he
    refine (@fetchWord_reads (hexWord upper array) _ (fun b hb => hexWord_plain hb) ?_).bind ?_
    · rw [length_hexWord, maxByteStringLength]
      omega
    · rw [isHexWord_hexWord, hexWord_eq]
      simp only [drop_succ_cons, drop_zero, convStrToHex_hexText hpo hle]
      exact (fetchLength_reads hn).last (.pure _)

theorem fetchElementHeader_reads (hk : key.Legal type) (ht : key.Terminated)
    (he : EflagLegal type eflag) (hn : n < 2 ^ 32) :
    Reads (key.text upper ++ (eflagWord upper eflag ++ (bytesOf (decimal n) ++ [spaceByte])))
      (fetchElementHeader type) (key, eflag, bytesOf (decimal n)) := by
  cases type with
  | none | kv => cases key <;> exact hk.elim
  | btree => exact fetchElementHeader_btree hk he hn
  | map =>
    cases key with
    | mkey string =>
      cases eflag with
      | some array => exact he.elim
      | none =>
        obtain ⟨-, hl, hp⟩ := hk
        have hm := fetchWord_reads maxElementBufferSize
          (fun b hb => ⟨(hp b hb).1, (hp b hb).2.1⟩) (Nat.lt_succ_of_le hl)
        refine hm.bind ((fetchLength_reads hn).last ?_)
        rw [bytesOf_cString ht]
        exact .pure _
    | _ => exact hk.elim
  | _ =>
    obtain ⟨rfl, rfl⟩ : key = .none ∧ eflag = none := by
      cases key <;> cases eflag <;> simp_all [ElementKey.Legal, EflagLegal]
    exact (fetchLength_reads hn).last (.pure _)

theorem fetchElement_reads (hl : e.Legal type) (ht : e.key.Terminated) :
    Reads (e.text upper) (fetchElement 0 type true) e := by
  have hle := hl.value
  have hte : e.text upper = (e.key.text upper ++ (eflagWord upper e.eflag ++
      (bytesOf (decimal e.value.length) ++ [spaceByte]))) ++ (e.value ++ crlf) := by
    simp [Element.text]
  have hs : (e.value.length + 2) % 2 ^ 64 = (e.value ++ crlf).length := by
    rw [Nat.mod_eq_of_lt (by omega), length_append]
    rfl
  rw [hte, fetchElement]
  refine (fetchElementHeader_reads hl.key ht hl.eflag hle).bind ?_
  simp only [cString_bytesOf, strtoull_decimal (show e.value.length < 2 ^ 64 by omega), hs]
  refine (ioRead_reads _).last ?_
  rw [take_left]
  exact .pure _

def headerWord (header : List Byte) : List Byte := if header = [] then [] else header ++ [spaceByte]

theorem fetchElement_header (hh : Plain header) (hl : e.Legal type) (ht : e.key.Terminated) :
    Reads (headerWord header ++ e.text upper) (fetchElement header.length type true) e := by
  have he : Reads (e.text upper) (fetchElement 0 type true) e := fetchElement_reads hl ht
  cases header with
  | nil => exact he
  | cons b header =>
    refine (fetchWord_reads _ hh (Nat.lt_succ_self _)).bind ?_
    rw [fetchElement, if_neg (lt_irrefl 0)] at he
    simpa only [ne_eq, not_true_eq_false, if_false] using he

theorem textualCollElementFetch_at (hh : Plain header) {elements : List Element}
    (result : CollResult) (hl : ∀ e ∈ elements, e.Legal result.type)
    (ht : ∀ e ∈ elements, e.key.Terminated) (i : Nat)
    (h : At stream (elements.flatMap (fun e => headerWord header ++ e.text upper) ++ rest) s) :
    ∃ s', textualCollElementFetch header.length (fun _ => true) elements.length i result s =
        some ((.success, elements.foldl CollResult.add result), s') ∧ At stream rest s' := by
  induction elements generalizing result i s with
  | nil => exact ⟨s, rfl, h⟩
  | cons e elements ih =>
    rw [forall_mem_cons] at hl ht
    rw [flatMap_cons, append_assoc] at h
    obtain ⟨s₁, he, ha₁⟩ := fetchElement_header hh hl.1 ht.1 h
    obtain ⟨s', hlo, ha'⟩ := ih (result.add e) hl.2 ht.2 (i + 1) ha₁
    refine ⟨s', ?_, ha'⟩
    rw [length_cons, textualCollElementFetch, he]
    exact hlo

theorem elements_foldl_add (elements : List Element) (result : CollResult) :
    (elements.foldl CollResult.add result).elements = result.elements ++ elements := by
  induction elements generalizing result with
  | nil => rw [foldl_nil, append_nil]
  | cons e elements ih =>
    rw [foldl_cons, ih, CollResult.add, append_assoc]
    rfl

theorem collectionFlags_foldl_add (elements : List Element) (result : CollResult) :
    (elements.foldl CollResult.add result).collectionFlags = result.collectionFlags := by
  induction elements generalizing result with
  | nil => rfl
  | cons e elements ih => rw [foldl_cons, ih, CollResult.add]

end Elements

/-! ## Reading a reply -/

theorem isDigitByte_decimal {d : Byte} (hd : d ∈ bytesOf (decimal n)) : isDigitByte d = true := by
  obtain ⟨c, hc, rfl⟩ := mem_map.1 hd
  exact isDigit_of_mem_decimal hc

/-- A number is found if it has one to ten digits. -/
theorem parseResponseUint32Value_digits (hd : ∀ c ∈ d, isDigit c = true)
    (hb : isDigitByte b = false) (rest : List Byte) (valueCount : Nat) :
    parseResponseUint32Value (valueCount + 1) (spaceByte :: (bytesOf d ++ b :: rest)) =
      if d ≠ [] ∧ d.length ≤ 10 then
        (parseResponseUint32Value valueCount (b :: rest)).map (digitsValue d % 2 ^ 32 :: ·)
      else none := by
  have hdi : ∀ c ∈ bytesOf d, isDigitByte c = true := forall_mem_map.2 hd
  have ht : (bytesOf d ++ b :: rest).takeWhile isDigitByte = bytesOf d := by
    rw [takeWhile_append_of_pos hdi, takeWhile_cons_of_neg (by simp [hb]),
      append_nil]
  have hdr : (bytesOf d ++ b :: rest).dropWhile isDigitByte = b :: rest := by
    rw [dropWhile_append_of_pos hdi, dropWhile_cons_of_neg (by simp [hb])]
  have hs : ∀ c ∈ (cString (b :: rest)).head?, isDigit c = false := by
    intro c hc
    rw [cString] at hc
    split_ifs at hc with hz
    · obtain rfl : ⟨b, hz⟩ = c := by simpa using hc
      exact hb
    · simp at hc
  rw [parseResponseUint32Value]
  simp only [ne_eq, not_true_eq_false, if_false, ht, hdr]
  have hl : (bytesOf d = [] ∨ b :: rest = [] ∨ maxUint32StringLength ≤ (bytesOf d).length) ↔
      ¬(d ≠ [] ∧ d.length ≤ 10) := by
    simp only [bytesOf, map_eq_nil_iff, length_map, maxUint32StringLength, cons_ne_nil, false_or,
      not_and_or, not_not, not_le, Nat.succ_le_iff]
  by_cases hf : d ≠ [] ∧ d.length ≤ 10
  · have hlt : digitsValue d < 10 ^ 10 :=
      (digitsValue_lt hd).trans_le (Nat.pow_le_pow_right (by decide) hf.2)
    rw [if_pos hf, if_neg (hl.not_left.2 hf), cString_append, strtoull_digits_append hf.1 hd hs,
      Nat.min_eq_left (by omega)]
  · rw [if_neg hf, if_pos (hl.2 hf)]

theorem parseResponseUint32Value_decimal (hn : n < 10 ^ 10)
    (hb : isDigitByte b = false) (rest : List Byte) (valueCount : Nat) :
    parseResponseUint32Value (valueCount + 1) (spaceByte :: (bytesOf (decimal n) ++ b :: rest)) =
      (parseResponseUint32Value valueCount (b :: rest)).map (n % 2 ^ 32 :: ·) := by
  rw [parseResponseUint32Value_digits (fun _ => isDigit_of_mem_decimal) hb, digitsValue_decimal,
    if_pos ⟨decimal_ne_nil n, length_decimal_le (by decide) hn⟩]

theorem length_valueLine_le {flags count : Nat} (hfl : flags < 2 ^ 32) (hco : count < 2 ^ 32) :
    (valueLine flags count).length ≤ defaultCommandSize := by
  have hf := length_decimal_le (n := flags) (k := 10) (by decide) (by omega)
  have hc := length_decimal_le (n := count) (k := 10) (by decide) (by omega)
  simp only [valueLine, crlf, space, length_append, length_bytesOf, lit, length_map,
    length_cons, length_nil, defaultCommandSize]
  omega

theorem parse_valueLine {flags count : Nat} (hf : flags < 2 ^ 32) (hc : count < 2 ^ 32)
    (junk : List Byte) :
    parseResponseUint32Value 2 (((valueLine flags count ++ junk).take defaultCommandSize).drop
      valueWordLength) = some [flags, count] := by
  rw [take_append, take_of_length_le (length_valueLine_le hf hc)]
  generalize junk.take _ = junk
  have hl : (valueLine flags count ++ junk).drop valueWordLength =
      spaceByte :: (bytesOf (decimal flags) ++ spaceByte :: (bytesOf (decimal count) ++
        crByte :: lfByte :: junk)) := by
    have ht : valueLine flags count ++ junk = bytesOf (lit ['V', 'A', 'L', 'U', 'E']) ++
        (spaceByte :: (bytesOf (decimal flags) ++ spaceByte :: (bytesOf (decimal count) ++
          crByte :: lfByte :: junk))) := by
      simp only [valueLine, bytesOf_append, append_assoc]
      rfl
    rw [ht]
    rfl
  rw [hl, parseResponseUint32Value_decimal (by omega) (by decide),
    parseResponseUint32Value_decimal (by omega) (by decide), Nat.mod_eq_of_lt hf,
    Nat.mod_eq_of_lt hc]
  rfl

/-- The elements of a reply are read back with their flags, and nothing behind them is read.  The
buffer has the first line, and any bytes behind it. -/
theorem elements_decoded {type : CollType} {elements : List Element} (hne : elements ≠ [])
    (hcount : elements.length < 2 ^ 32) (hlegal : ∀ e ∈ elements, e.Legal type)
    (hterminated : ∀ e ∈ elements, e.key.Terminated) (flags : UInt32) (upper : Bool) {verb : Verb}
    (hverb : valueLayout verb = some .get) (junk : List Byte) {stream rest : List Byte} {s : Reader}
    (hat : At stream (elements.flatMap (Element.text upper) ++ rest) s) :
    ∃ result s', textualCollValueFetch verb (valueLine flags.toNat elements.length ++ junk) true
        (fun _ => true) (.create type) s = some ((.success, result), s') ∧
      result.collectionFlags = flags.toNat ∧ result.elements = elements ∧ At stream rest s' := by
  let start : CollResult := { CollResult.create type with collectionFlags := flags.toNat }
  obtain ⟨s', hf, ha'⟩ := textualCollElementFetch_at (forall_mem_nil _) start hlegal
    hterminated 0 hat
  refine ⟨elements.foldl CollResult.add start, s', ?_, ?_, ?_, ha'⟩
  · have hz : elements.length ≠ 0 := fun h => hne (eq_nil_of_length_eq_zero h)
    rw [textualCollValueFetch, hverb]
    simp only [numbersOf, if_false, parse_valueLine flags.toNat_lt hcount, reduceCtorEq]
    simp only [takeNumbers, getD_cons_zero, getD_cons_succ, if_neg hz]
    exact hf
  · rw [collectionFlags_foldl_add]
  · rw [elements_foldl_add]
    rfl

/-- An element of a b+tree whose value looks like the end of a line. -/
def lineElement : Element := ⟨.bkeyExt [31], some [171], [13, 10, 0]⟩

/-- The element comes in three packets. -/
theorem elements_decoded_packets :
    ∃ result s', textualCollValueFetch .bopGet (valueLine 7 1) true (fun _ => true) (.create .btree)
        (Reader.new.connect [[48, 120, 49], [102, 32, 48, 120, 97, 98, 32, 51, 32, 13, 10],
          [0, 13, 10]] .timeout) = some ((.success, result), s') ∧
      result.collectionFlags = 7 ∧ result.elements = [lineElement] ∧ s'.rest = [] := by
  have hs : (Reader.new.connect [[48, 120, 49], [102, 32, 48, 120, 97, 98, 32, 51, 32, 13, 10],
      [0, 13, 10]] .timeout).AtStart := ⟨rfl, rfl, rfl, rfl, rfl, by decide⟩
  have ha : At _ ([lineElement].flatMap (Element.text false) ++ [])
      (Reader.new.connect [[48, 120, 49], [102, 32, 48, 120, 97, 98, 32, 51, 32, 13, 10],
        [0, 13, 10]] .timeout) := ⟨hs.sound rfl, rfl, by decide⟩
  have hl : ∀ e ∈ [lineElement], e.Legal .btree := by
    simp only [mem_singleton, forall_eq]
    exact ⟨⟨by decide, by decide⟩, ⟨by decide, by decide⟩, by decide⟩
  obtain ⟨result, s', hf, hfl, he, hr⟩ := elements_decoded
    (cons_ne_nil lineElement []) (by decide) hl (by simp [lineElement, ElementKey.Terminated])
    7 false (show valueLayout .bopGet = some .get from rfl) [] ha
  exact ⟨result, s', hf, hfl, he, hr.rest_eq⟩

/-- A map key with a zero byte is cut there. -/
theorem mkey_with_zero_cut : (⟨.mkey [97, 0, 98], none, [120]⟩ : Element).Legal .map ∧
    ∃ result s', textualCollValueFetch .mopGet (valueLine 0 1) true (fun _ => true) (.create .map)
        (Reader.new.connect [(⟨.mkey [97, 0, 98], none, [120]⟩ : Element).text true] .timeout) =
          some ((.success, result), s') ∧ result.elements = [⟨.mkey [97], none, [120]⟩] := by
  refine ⟨⟨⟨by decide, by decide, by simp [mkeyByte, spaceByte, crByte, lfByte]⟩, trivial,
    by decide⟩, ?_⟩
  have hr : (textualCollValueFetch .mopGet (valueLine 0 1) true (fun _ => true) (.create .map)
      (Reader.new.connect [(⟨.mkey [97, 0, 98], none, [120]⟩ : Element).text true] .timeout)).map
        (fun out => (out.1.1, out.1.2.elements)) =
      some (.success, [⟨.mkey [97], none, [120]⟩]) := by decide +kernel
  obtain ⟨⟨⟨rc, result⟩, s'⟩, hf, ho⟩ := Option.map_eq_some_iff.1 hr
  obtain ⟨rfl, he⟩ := Prod.mk.inj ho
  exact ⟨result, s', hf, he⟩

end ArcusClient.Coll
