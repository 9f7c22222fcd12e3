import ArcusClient.Collection.Elements

/-!
# The sections of a reply to a sort-merge get

    ELEMENTS <n>\r\n
    <key> <flags> <bkey> [<eflag>] <bytes> <data>\r\n ...
    MISSED_KEYS <n>\r\n
    <key> [<cause>]\r\n ...
    TRIMMED_KEYS <n>\r\n
    <key> <bkey>\r\n ...
    END\r\n or DUPLICATED\r\n

The keys of elements are in a union, and `sub_key_type` tells which member is in use.  It is set with
each element and compared with each trimmed key.  So a reply is read back just if all its keys of
elements are of one kind, and there are elements if there are trimmed keys (`smget_reply_iff`).
-/

namespace ArcusClient.Coll

open CString Io Strtok List

/-! ## Results -/

/-- An element, with its members of `keys` and `flags`. -/
structure ReadElement where
  key : List Byte
  flags : UInt32
  element : Element
  deriving DecidableEq

/-- A member of `missed_keys` and of `missed_causes`. -/
structure ReadMissed where
  key : List Byte
  cause : ReturnT
  deriving DecidableEq

/-- A member of `trimmed_keys` and of `trimmed_sub_keys`. -/
structure ReadTrimmed where
  key : List Byte
  subKey : ElementKey
  deriving DecidableEq

/-- `memcached_coll_smget_result_st`, while it is filled. -/
structure SmgetRead where
  subKeyType : QueryType
  elements : List ReadElement
  missedKeys : List ReadMissed
  trimmedKeys : List ReadTrimmed
  deriving DecidableEq

/-- `memcached_coll_smget_result_create`. -/
def SmgetRead.create : SmgetRead := ⟨.unknown, [], [], []⟩

/-- What a call finds: if memory is allocated, and what its arrays of characters have before. -/
structure ReadEnv where
  arrays : Bool
  strings : Nat → Bool
  values : Nat → Bool
  stack : Nat → List Byte

/-! ## The first line of a section -/

/-- The characters `strtoul` reads, with base ten. -/
def strtoulLength (s : CStr) : Nat :=
  let blanks := (s.takeWhile isSpace).length
  let rest := s.dropWhile isSpace
  let sign := if rest.head? = some (ofChar '-') ∨ rest.head? = some (ofChar '+') then 1 else 0
  let digits := ((rest.drop sign).takeWhile isDigit).length
  if digits = 0 then 0 else blanks + sign + digits

/-- The loop of `parse_response_header`, from a place of the buffer on. -/
def parseHeaderFrom (buffer : List Byte) : (valueLength : Nat) → (place : Nat) → Option (List Nat)
  | 0, place =>
    let place := if buffer[place]? = some crByte then place + 2 else place
    if defaultCommandSize < place then none else some []
  | valueLength + 1, place =>
    let start := place + 1
    if start = defaultCommandSize then none
    else
      let str := cString (buffer.drop start)
      let stop := start + strtoulLength str
      if stop = defaultCommandSize then none
      else (parseHeaderFrom buffer valueLength stop).map (strtoull str % 2 ^ 32 :: ·)

/-- `parse_response_header`. -/
def parseResponseHeader (buffer : List Byte) (headerLength valueLength : Nat) : Option (List Nat) :=
  parseHeaderFrom buffer valueLength headerLength

/-! ## Sections -/

/-- A loop that reads one entry after the other, and stops with the first code of a failure. -/
def fetchEach {α : Type} (fetch : Nat → Fetch α) :
    (count i : Nat) → List α → Reader → Option ((ReturnT × List α) × Reader)
  | 0, _, entries, s => some ((.success, entries), s)
  | count + 1, i, entries, s =>
    (fetch i s).bind fun
      | (.error rc, s) => some ((rc, entries), s)
      | (.ok entry, s) => fetchEach fetch count (i + 1) (entries ++ [entry]) s

def terminated (string : List Byte) : List Byte := string ++ [0]

/-- The body of the loop of `textual_coll_smget_value_fetch`. -/
def fetchSmgetElement (env : ReadEnv) (i : Nat) : Fetch ReadElement := do
  let key ← fetchWord maxKey
  if env.strings i = false then throw .memoryAllocationFailure
  let flags ← fetchWord maxUint32StringLength
  let element ← fetchElement 0 .btree (env.values i)
  return ⟨terminated key, UInt32.ofNat (strtoull (cString flags)), element⟩

/-- What is in an array after a string was written to its front. -/
def overwrite (string old : List Byte) : List Byte := string ++ old.drop string.length

/-- The code for a cause, which is looked at where it was read to. -/
def missedCause (toReadString : List Byte) : ReturnT :=
  if toReadString[0]? = some (ofChar 'N').1 then .notfound
  else if toReadString[0]? = some (ofChar 'O').1 then .outOfRange
  else if toReadString[0]? = some (ofChar 'U').1 ∧ toReadString[2]? = some (ofChar 'R').1 then
    .unreadable
  else .failure

/-- The body of the loop of `textual_coll_smget_missed_key_fetch`.  A cause that does not come is a
zero of `calloc`, which is the code of a success. -/
def fetchMissedKey (env : ReadEnv) (i : Nat) : Fetch ReadMissed := do
  match ← headerLoop maxKey [] with
  | .line key =>
    if env.strings i = false then throw .memoryAllocationFailure
    return ⟨terminated key, .success⟩
  | .space key =>
    if env.strings i = false then throw .memoryAllocationFailure
    match ← headerLoop maxKey [] with
    | .space _ => throw .protocolError
    | .line cause =>
      let toReadString := overwrite (terminated key) (env.stack i)
      return ⟨terminated key, missedCause (overwrite (terminated cause) toReadString)⟩

/-- The body of the loop of `textual_coll_smget_trimmed_key_fetch`. -/
def fetchTrimmedKey (env : ReadEnv) (subKeyType : QueryType) (i : Nat) : Fetch ReadTrimmed := do
  let key ← fetchWord maxKey
  if env.strings i = false then throw .memoryAllocationFailure
  match ← headerLoop (maxByteStringLength + 2) [] with
  | .space _ => throw .protocolError
  | .line word =>
    let subKey := bkeyOfWord word
    if subKeyType ≠ subKey.queryType subKeyType then throw .protocolError
    return ⟨terminated key, subKey⟩

/-- The code and the entries of a section whose first line is in the buffer. -/
def fetchSection {α : Type} (env : ReadEnv) (fetch : Nat → Fetch α) (buffer : List Byte)
    (headerLength : Nat) (s : Reader) : Option ((ReturnT × List α) × Reader) :=
  match parseResponseHeader buffer headerLength 1 with
  | some [count] =>
    if count < 1 then some ((.success, []), s)
    else if env.arrays = false then some ((.memoryAllocationFailure, []), s)
    else fetchEach fetch count 0 [] s
  | _ => some ((.partialRead, []), s)

def lastType (old : QueryType) (elements : List ReadElement) : QueryType :=
  elements.foldl (fun type e => e.element.key.queryType type) old

/-- `textual_coll_smget_value_fetch`. -/
def textualCollSmgetValueFetch (env : ReadEnv) (buffer : List Byte) (headerLength : Nat)
    (result : SmgetRead) (s : Reader) : Option ((ReturnT × SmgetRead) × Reader) :=
  (fetchSection env (fetchSmgetElement env) buffer headerLength s).map fun ((rc, elements), s) =>
    ((rc, { result with
      subKeyType := lastType result.subKeyType elements
      elements := result.elements ++ elements }), s)

/-- `textual_coll_smget_missed_key_fetch`. -/
def textualCollSmgetMissedKeyFetch (env : ReadEnv) (buffer : List Byte) (result : SmgetRead)
    (s : Reader) : Option ((ReturnT × SmgetRead) × Reader) :=
  (fetchSection env (fetchMissedKey env) buffer 11 s).map fun ((rc, missedKeys), s) =>
    ((rc, { result with missedKeys := result.missedKeys ++ missedKeys }), s)

/-- `textual_coll_smget_trimmed_key_fetch`.  The length of the header is one less than that of the
word, and the space behind it is read with the number. -/
def textualCollSmgetTrimmedKeyFetch (env : ReadEnv) (buffer : List Byte) (result : SmgetRead)
    (s : Reader) : Option ((ReturnT × SmgetRead) × Reader) :=
  (fetchSection env (fetchTrimmedKey env result.subKeyType) buffer 11 s).map
    fun ((rc, trimmedKeys), s) =>
      ((rc, { result with trimmedKeys := result.trimmedKeys ++ trimmedKeys }), s)

/-! ## Lines -/

inductive SmgetWord where
  | elements (headerLength : Nat)
  | missedKeys
  | trimmedKeys
  | code (rc : ReturnT)

/-- The words a line is compared with, in the order of the source. -/
def smgetWords : List (List Char × SmgetWord) :=
  [("ATTR_MISMATCH".toList, .code .attrMismatch),
    ("BKEY_MISMATCH".toList, .code .bkeyMismatch),
    ("VALUE".toList, .elements 5),
    ("MISSED_KEYS".toList, .missedKeys),
    ("END".toList, .code .endOfReply),
    ("ELEMENTS".toList, .elements 8),
    ("ERROR".toList, .code .protocolError),
    ("OUT_OF_RANGE".toList, .code .outOfRange),
    ("DUPLICATED".toList, .code .duplicated),
    ("TRIMMED_KEYS".toList, .trimmedKeys),
    ("TYPE_MISMATCH".toList, .code .typeMismatch),
    ("NOT_FOUND_ELEMENT".toList, .code .notfoundElement),
    ("NOT_FOUND".toList, .code .notfound),
    ("NOT_STORED".toList, .code .notStored),
    ("NOT_SUPPORTED".toList, .code .notSupported),
    ("NOT_EXIST".toList, .code .notExist),
    ("UNREADABLE".toList, .code .unreadable),
    ("ITEM".toList, .code .item),
    ("INVALID".toList, .code .invalidCommand),
    ("CLIENT_ERROR".toList, .code .clientError),
    ("SERVER_ERROR".toList, .code .serverError)]

def smgetLetters : List Byte := bytesOf (lit "ABVMEODTNUICS".toList)

def fetchSmgetWord (env : ReadEnv) (buffer : List Byte) (result : SmgetRead) (s : Reader) :
    SmgetWord → Option ((ReturnT × SmgetRead) × Reader)
  | .elements headerLength => textualCollSmgetValueFetch env buffer headerLength result s
  | .missedKeys => textualCollSmgetMissedKeyFetch env buffer result s
  | .trimmedKeys => textualCollSmgetTrimmedKeyFetch env buffer result s
  | .code rc => some ((rc, result), s)

def smgetWord (buffer : List Byte) : Option SmgetWord :=
  (smgetWords.find? fun word => (bytesOf (lit word.1)).isPrefixOf buffer).map Prod.snd

/-- `textual_read_one_coll_smget_response`.  `junk` is what the buffer has behind the line. -/
def textualReadOneCollSmgetResponse (env : ReadEnv) (junk : List Byte) (result : SmgetRead)
    (s : Reader) : Option ((ReturnT × SmgetRead) × Reader) :=
  (s.memcachedIoReadline defaultCommandSize).bind fun ((rc, line), s) =>
    if rc ≠ .success then some ((rc, result), s)
    else
      let buffer := line ++ junk
      match smgetWord buffer with
      | some word => fetchSmgetWord env buffer result s word
      | none =>
        -- a number is taken for a success, but not behind one of the letters
        if buffer.head?.any (· ∈ smgetLetters) = false ∧ 0 < strtoulLength (cString buffer) then
          some ((.success, result), s)
        else some ((.undefinedResponse, result), s)

/-! ## The layout -/

def sectionLine (word : List Char) (count : Nat) : List Byte :=
  bytesOf (lit word ++ space ++ decimal count) ++ crlf

def ReadElement.text (upper : Bool) (e : ReadElement) : List Byte :=
  e.key ++ spaceByte :: (bytesOf (decimal e.flags.toNat) ++ spaceByte :: e.element.text upper)

inductive MissedCause where
  | notFound | outOfRange | unreadable

def MissedCause.word : MissedCause → CStr
  | notFound => lit "NOT_FOUND".toList
  | outOfRange => lit "OUT_OF_RANGE".toList
  | unreadable => lit "UNREADABLE".toList

def MissedCause.code : Option MissedCause → ReturnT
  | some notFound => .notfound
  | some outOfRange => .outOfRange
  | some unreadable => .unreadable
  | none => .success

structure MissedKey where
  key : List Byte
  cause : Option MissedCause

def MissedKey.text (m : MissedKey) : List Byte :=
  match m.cause with
  | none => m.key ++ crlf
  | some cause => m.key ++ spaceByte :: (bytesOf cause.word ++ crlf)

def ReadTrimmed.text (upper : Bool) (t : ReadTrimmed) : List Byte :=
  t.key ++ spaceByte :: (t.subKey.word upper ++ crlf)

def lastLine (duplicated : Bool) : List Byte :=
  bytesOf (lit (if duplicated then "DUPLICATED".toList else "END".toList)) ++ crlf

def lastLineCode (duplicated : Bool) : ReturnT := if duplicated then .duplicated else .endOfReply

def KeyLegal (key : List Byte) : Prop := Plain key ∧ key.length < maxKey

structure ReadElement.Legal (e : ReadElement) : Prop where
  key : KeyLegal e.key
  element : e.element.Legal .btree

structure ReadTrimmed.Legal (t : ReadTrimmed) : Prop where
  key : KeyLegal t.key
  subKey : t.subKey.Legal .btree

def ReadElement.stored (e : ReadElement) : ReadElement := { e with key := terminated e.key }

def MissedKey.stored (m : MissedKey) : ReadMissed := ⟨terminated m.key, MissedCause.code m.cause⟩

def ReadTrimmed.stored (t : ReadTrimmed) : ReadTrimmed := { t with key := terminated t.key }

/-! ## Reading an entry -/

section Entries

variable {stream rest : List Byte} {s : Reader} {env : ReadEnv}

structure ReadEnv.HasMemory (env : ReadEnv) : Prop where
  arrays : env.arrays = true
  strings : ∀ i, env.strings i = true
  values : ∀ i, env.values i = true

theorem headerLoop_line (hw : Plain word) (hl : word.length < left) :
    Reads (word ++ crlf) (headerLoop left []) (.line word) := by
  refine headerLoop_reads (fun left string => ?_) hw hl []
  exact (ioRead_reads [crByte]).bind ((ioRead_reads [lfByte]).last (.pure _))

theorem terminated_of_btree {key : ElementKey} (h : key.Legal .btree) : key.Terminated := by
  cases key with
  | mkey string => exact h.elim
  | _ => trivial

theorem fetchSmgetElement_reads (hen : env.HasMemory) (upper : Bool) {e : ReadElement}
    (he : e.Legal) (i : Nat) :
    Reads (e.text upper) (fetchSmgetElement env i) e.stored := by
  have hf : e.flags.toNat < 2 ^ 32 := e.flags.toNat_lt
  have ht : e.text upper = (e.key ++ [spaceByte]) ++ ((bytesOf (decimal e.flags.toNat) ++ [spaceByte]) ++
      e.element.text upper) := by
    simp [ReadElement.text]
  rw [ht, fetchSmgetElement, hen.strings, hen.values]
  refine (fetchWord_reads maxKey he.key.1 he.key.2).bind ((fetchLength_reads hf).bind
    ((fetchElement_reads he.element (terminated_of_btree he.element.key)).last ?_))
  rw [cString_bytesOf, strtoull_decimal (by omega), UInt32.ofNat_toNat]
  exact .pure _

theorem MissedCause.plain_word (cause : MissedCause) : Plain (bytesOf cause.word) := by
  cases cause <;> decide +kernel

theorem MissedCause.length_word (cause : MissedCause) : (bytesOf cause.word).length < maxKey := by
  cases cause <;> decide

theorem MissedCause.missedCause_word (cause : MissedCause) (old : List Byte) :
    missedCause (overwrite (terminated (bytesOf cause.word)) old) = MissedCause.code
      (some cause) := by
  cases cause <;> rfl

theorem fetchMissedKey_reads (he : env.HasMemory) {m : MissedKey} (hk : KeyLegal m.key) (i : Nat) :
    Reads m.text (fetchMissedKey env i) m.stored := by
  obtain ⟨key, cause⟩ := m
  rw [fetchMissedKey, he.strings]
  cases cause with
  | none => exact (headerLoop_line hk.1 hk.2).last (.pure _)
  | some cause =>
    have ht : MissedKey.text ⟨key, some cause⟩ = (key ++ [spaceByte]) ++ (bytesOf cause.word ++ crlf) := by
      simp [MissedKey.text]
    rw [ht]
    refine (headerLoop_space hk.1 hk.2).bind
      ((headerLoop_line cause.plain_word cause.length_word).last ?_)
    dsimp only
    rw [cause.missedCause_word]
    exact .pure _

/-- A trimmed key is read if it is of the kind that the result tells. -/
theorem fetchTrimmedKey_reads (he : env.HasMemory) (upper : Bool) {t : ReadTrimmed} (ht : t.Legal)
    (hty : t.subKey.queryType subKeyType = subKeyType) (i : Nat) :
    Reads (t.text upper) (fetchTrimmedKey env subKeyType i) t.stored := by
  have hte : t.text upper = (t.key ++ [spaceByte]) ++ (t.subKey.word upper ++ crlf) := by
    simp [ReadTrimmed.text]
  obtain ⟨-, hp, hl, hb⟩ := ht.subKey.word upper
  rw [hte, fetchTrimmedKey, he.strings]
  refine (fetchWord_reads maxKey ht.key.1 ht.key.2).bind ((headerLoop_line hp hl).last ?_)
  dsimp only
  rw [hb, if_neg (not_not.2 hty.symm)]
  exact .pure _

theorem fetchEach_at {α β : Type} {fetch : Nat → Fetch β} {text : α → List Byte} {stored : α → β}
    {entries : List α} (hf : ∀ e ∈ entries, ∀ i, Reads (text e) (fetch i) (stored e))
    (i : Nat) (before : List β) (h : At stream (entries.flatMap text ++ rest) s) :
    ∃ s', fetchEach fetch entries.length i before s =
        some ((.success, before ++ entries.map stored), s') ∧ At stream rest s' := by
  induction entries generalizing i before s with
  | nil => exact ⟨s, by rw [map_nil, append_nil]; rfl, h⟩
  | cons e entries ih =>
    rw [flatMap_cons, append_assoc] at h
    obtain ⟨s₁, hen, ha₁⟩ := hf e mem_cons_self i h
    obtain ⟨s', hl, ha'⟩ := ih (fun e he => hf e (mem_cons_of_mem _ he)) (i + 1)
      (before ++ [stored e]) ha₁
    refine ⟨s', ?_, ha'⟩
    rw [length_cons, fetchEach, hen, map_cons, append_cons]
    exact hl

/-- A section adds no more entries than its first line counts, and only such as were read. -/
theorem fetchEach_bound {α : Type} {fetch : Nat → Fetch α} {P : α → Prop}
    (hP : ∀ i s entry s', fetch i s = some (.ok entry, s') → P entry) {out : List α} : ∀
    {count i : Nat} {before : List α} {s : Reader}, (∀ entry ∈ before, P entry) →
      fetchEach fetch count i before s = some ((rc, out), s') →
      out.length ≤ before.length + count ∧ ∀ entry ∈ out, P entry
  | 0, i, before, s, hb, h => by
    cases h
    exact ⟨le_rfl, hb⟩
  | count + 1, i, before, s, hb, h => by
    rw [fetchEach] at h
    obtain ⟨⟨read, s₁⟩, hr, h⟩ := Option.bind_eq_some_iff.1 h
    cases read with
    | error code =>
      cases h
      exact ⟨Nat.le_add_right _ _, hb⟩
    | ok entry =>
      have hm : ∀ e ∈ before ++ [entry], P e := by
        intro e he
        rcases mem_append.1 he with he | he
        · exact hb e he
        · rw [mem_singleton.1 he]
          exact hP i s entry s₁ hr
      obtain ⟨hl, ha⟩ := fetchEach_bound hP hm h
      rw [length_append, length_singleton] at hl
      exact ⟨by omega, ha⟩

end Entries

/-! ## Reading a section -/

section Sections

variable {stream rest : List Byte} {s : Reader} {env : ReadEnv}

theorem strtoulLength_digits {blanks d t : CStr} (hbl : ∀ c ∈ blanks, isSpace c = true)
    (hn : d ≠ [])
    (hd : ∀ c ∈ d, isDigit c = true) (ht : ∀ b ∈ t.head?, isDigit b = false) :
    strtoulLength (blanks ++ (d ++ t)) = blanks.length + d.length := by
  obtain ⟨b, rest, hb⟩ := exists_cons_of_ne_nil hn
  have hdi : isDigit b = true := hd b (by rw [hb]; simp)
  have hs := isSpace_of_isDigit hdi
  obtain ⟨hm, hp⟩ := ne_sign_of_isDigit hdi
  have hdr : (d ++ t).dropWhile isSpace = d ++ t := by
    rw [hb, cons_append, dropWhile_cons_of_neg (by simp [hs])]
  have hta : (d ++ t).takeWhile isSpace = [] := by
    rw [hb, cons_append, takeWhile_cons_of_neg (by simp [hs])]
  have hh : (d ++ t).head? = some b := by
    rw [hb]
    rfl
  have hl : d.length ≠ 0 := by simp [hn]
  rw [strtoulLength, takeWhile_append_of_pos hbl, dropWhile_append_of_pos hbl,
    hdr, hta, hh, append_nil]
  simp only [Option.some.injEq, hm, hp, or_self, if_false, drop_zero,
    takeWhile_digits_append hd ht, hl, Nat.add_zero]

variable {buffer : List Byte} {headerLength : Nat}

theorem parseResponseHeader_decimal (blanks : CStr)
    (junk : List Byte) (hbl : ∀ c ∈ blanks, isSpace c = true)
    (hbu : buffer.drop (headerLength + 1) = bytesOf (blanks ++ decimal n) ++ crByte :: junk)
    (hn : n < 2 ^ 32) (hf : headerLength + 1 + blanks.length + 12 ≤ defaultCommandSize) :
    parseResponseHeader buffer headerLength 1 = some [n] := by
  have hs := length_decimal_le (n := n) (k := 10) (by decide) (by omega)
  have hst : ∀ b ∈ (cString (crByte :: junk)).head?, isDigit b = false := by
    intro b hb
    obtain rfl : ⟨crByte, by decide⟩ = b := by simpa [cString, crByte] using hb
    decide
  have hstr : cString (buffer.drop (headerLength + 1)) =
      blanks ++ (decimal n ++ cString (crByte :: junk)) := by
    rw [hbu, cString_append, append_assoc]
  have hc : buffer[headerLength + 1 + (blanks.length + (decimal n).length)]? = some crByte := by
    rw [← getElem?_drop, hbu]
    simp
  rw [parseResponseHeader, parseHeaderFrom, if_neg (by omega)]
  simp only [hstr, strtoulLength_digits hbl (decimal_ne_nil n)
      (fun _ => isDigit_of_mem_decimal) hst, strtoull_blanks hbl,
    strtoull_decimal_append (show n < 2 ^ 64 by omega) hst, Nat.mod_eq_of_lt hn]
  rw [if_neg (by omega), parseHeaderFrom, hc, if_pos rfl, if_neg (by omega)]
  rfl

theorem parseResponseHeader_lt {count : Nat}
    (h : parseResponseHeader buffer headerLength 1 = some [count]) : count < 2 ^ 32 := by
  rw [parseResponseHeader, parseHeaderFrom] at h
  simp only at h
  split_ifs at h with hs
  obtain ⟨values, -, hv⟩ := Option.map_eq_some_iff.1 h
  cases hv
  exact Nat.mod_lt _ (by decide)

variable {rc : ReturnT} {s' : Reader}

theorem fetchSection_bound {α : Type} {fetch : Nat → Fetch α} {P : α → Prop}
    (hP : ∀ i s entry s', fetch i s = some (.ok entry, s') → P entry) {out : List α}
    (h : fetchSection env fetch buffer headerLength s = some ((rc, out), s')) :
    out.length < 2 ^ 32 ∧ ∀ entry ∈ out, P entry := by
  have hn : ([] : List α).length < 2 ^ 32 ∧ ∀ entry ∈ ([] : List α), P entry :=
    ⟨by simp, forall_mem_nil _⟩
  rw [fetchSection] at h
  split at h
  · rename_i count hh
    split_ifs at h
    · cases h
      exact hn
    · cases h
      exact hn
    · obtain ⟨hl, ha⟩ := fetchEach_bound hP (forall_mem_nil _) h
      rw [length_nil, Nat.zero_add] at hl
      exact ⟨hl.trans_lt (parseResponseHeader_lt hh), ha⟩
  · cases h
    exact hn

/-! ## Reading a line -/

theorem lineOf_line {content : List Byte} (hc : Reader.newline ∉ content) {room : Nat}
    (hr : content.length + 1 < room) (rest : List Byte) :
    Stream.lineOf room (content ++ Reader.newline :: rest) =
      (content ++ [Reader.newline], some .success) := by
  induction content generalizing room with
  | nil =>
    obtain ⟨room, rfl⟩ : ∃ r, room = r + 1 := ⟨room - 1, by omega⟩
    rw [nil_append, Stream.lineOf, if_neg (by simp at hr; omega)]
    rfl
  | cons b content ih =>
    obtain ⟨room, rfl⟩ : ∃ r, room = r + 1 := ⟨room - 1, by omega⟩
    rw [length_cons] at hr
    rw [mem_cons, not_or] at hc
    rw [cons_append, Stream.lineOf, if_neg (by omega), if_neg (Ne.symm hc.1),
      ih hc.2 (by omega)]
    rfl

theorem readline_at (content : List Byte) (hc : Reader.newline ∉ content)
    (hf : content.length + 1 < defaultCommandSize)
    (h : At stream (content ++ Reader.newline :: rest) s) :
    ∃ s', s.memcachedIoReadline defaultCommandSize =
        some ((.success, content ++ [Reader.newline]), s') ∧ At stream rest s' := by
  obtain ⟨s', hs, hst, hr⟩ := Reader.memcachedIoReadline_spec
    (show 0 < defaultCommandSize by decide) h.sound
  have hl : s.toStream.readline defaultCommandSize =
      ((.success, content ++ [Reader.newline]), { s.toStream with rest := rest }) := by
    rw [Stream.readline]
    simp only [Reader.toStream, h.isOpen, h.rest_eq, lineOf_line hc hf]
    simp
  rw [hl] at hst hr
  exact ⟨s', hr, hs, (congrArg Stream.isOpen hst).trans h.isOpen, congrArg Stream.rest hst⟩

theorem sectionLine_at (hw : Reader.newline ∉ bytesOf (lit word))
    (hs : word.length ≤ 20) (hn : n < 2 ^ 32) (h : At stream (sectionLine word n ++ rest) s) :
    ∃ s', s.memcachedIoReadline defaultCommandSize = some ((.success, sectionLine word n), s') ∧
      At stream rest s' := by
  have hl : sectionLine word n = bytesOf (lit word ++ space ++ decimal n) ++ [crByte] ++
      [Reader.newline] := by
    rw [append_assoc _ [crByte]]
    rfl
  have hd := length_decimal_le (n := n) (k := 10) (by decide) (by omega)
  have hde : Reader.newline ∉ bytesOf (decimal n) := by
    intro hm
    exact absurd (isDigitByte_decimal hm) (by decide)
  rw [hl, append_assoc] at h
  rw [hl]
  refine readline_at _ ?_ ?_ h
  · simp only [bytesOf_append, mem_append, not_or]
    exact ⟨⟨⟨hw, by decide⟩, hde⟩, by decide⟩
  · simp only [length_append, length_bytesOf, lit, length_map, space,
      defaultCommandSize, length_cons, length_nil]
    omega

variable {junk : List Byte} {result : SmgetRead} {upper : Bool}

theorem readOne_of_word {line : List Byte} {s₁ : Reader}
    (hl : s.memcachedIoReadline defaultCommandSize = some ((.success, line), s₁))
    (word : SmgetWord) (hw : smgetWord (line ++ junk) = some word) :
    textualReadOneCollSmgetResponse env junk result s =
      fetchSmgetWord env (line ++ junk) result s₁ word := by
  rw [textualReadOneCollSmgetResponse, hl, Option.bind_some]
  dsimp only
  rw [if_neg (not_not.2 rfl), hw]

/-- A section is read, if its word is found in its first line and the number behind it. -/
theorem section_at {α β : Type} {fetch : Nat → Fetch β} {text : α → List Byte} {stored : α → β}
    {entries : List α} (he : env.HasMemory)
    (hf : ∀ e ∈ entries, ∀ i, Reads (text e) (fetch i) (stored e))
    (hc : entries.length < 2 ^ 32) (hw : Reader.newline ∉ bytesOf (lit word))
    (hs : word.length ≤ 20)
    (hh : parseResponseHeader (sectionLine word entries.length ++ junk) headerLength 1 = some [entries.length])
    (h : At stream (sectionLine word entries.length ++ (entries.flatMap text ++ rest)) s) :
    ∃ s₁ s', s.memcachedIoReadline defaultCommandSize = some
      ((.success, sectionLine word entries.length), s₁) ∧
      fetchSection env fetch (sectionLine word entries.length ++ junk) headerLength s₁ =
        some ((.success, entries.map stored), s') ∧ At stream rest s' := by
  obtain ⟨s₁, hl, ha₁⟩ := sectionLine_at hw hs hc h
  cases entries with
  | nil => exact ⟨s₁, s₁, hl, by rw [fetchSection, hh]; rfl, ha₁⟩
  | cons e entries =>
    obtain ⟨s', hlo, ha'⟩ := fetchEach_at hf 0 [] ha₁
    refine ⟨s₁, s', hl, ?_, ha'⟩
    simp only [fetchSection, hh]
    rw [if_neg (by simp), he.arrays]
    exact hlo

/-- The first line of a section, with its word in front. -/
theorem sectionLine_append (word : List Char) (n : Nat) (junk : List Byte) :
    sectionLine word n ++ junk =
      bytesOf (lit word) ++ (bytesOf (space ++ decimal n) ++ (crlf ++ junk)) := by
  simp only [sectionLine, append_assoc, bytesOf_append]

variable (junk result)

theorem elements_section_at (hen : env.HasMemory) {elements : List ReadElement}
    (hl : ∀ e ∈ elements, e.Legal) (hc : elements.length < 2 ^ 32)
    (h : At stream (sectionLine "ELEMENTS".toList elements.length ++
      (elements.flatMap (ReadElement.text upper) ++ rest)) s) :
    ∃ s', textualReadOneCollSmgetResponse env junk result s = some ((.success, { result with
        subKeyType := lastType result.subKeyType (elements.map ReadElement.stored)
        elements := result.elements ++ elements.map ReadElement.stored }), s') ∧
      At stream rest s' := by
  have hh : parseResponseHeader (sectionLine "ELEMENTS".toList elements.length ++ junk) 8 1 =
      some [elements.length] := by
    refine parseResponseHeader_decimal [] (lfByte :: junk) (by simp) ?_ hc (by decide)
    rw [sectionLine_append, bytesOf_append]
    rfl
  obtain ⟨s₁, s', hli, hs, ha'⟩ := section_at hen
    (fun e he => fetchSmgetElement_reads hen upper (hl e he)) hc (by decide) (by decide) hh h
  refine ⟨s', ?_, ha'⟩
  rw [readOne_of_word hli (.elements 8) (by rw [sectionLine_append]; rfl), fetchSmgetWord,
    textualCollSmgetValueFetch, hs]
  rfl

theorem missed_section_at (he : env.HasMemory) {missed : List MissedKey}
    (hl : ∀ m ∈ missed, KeyLegal m.key) (hc : missed.length < 2 ^ 32)
    (h : At stream (sectionLine "MISSED_KEYS".toList missed.length ++
      (missed.flatMap MissedKey.text ++ rest)) s) :
    ∃ s', textualReadOneCollSmgetResponse env junk result s = some ((.success, { result with
        missedKeys := result.missedKeys ++ missed.map MissedKey.stored }), s') ∧
      At stream rest s' := by
  have hh : parseResponseHeader (sectionLine "MISSED_KEYS".toList missed.length ++ junk) 11 1 =
      some [missed.length] := by
    refine parseResponseHeader_decimal [] (lfByte :: junk) (by simp) ?_ hc (by decide)
    rw [sectionLine_append, bytesOf_append]
    rfl
  obtain ⟨s₁, s', hli, hs, ha'⟩ := section_at he
    (fun m hm => fetchMissedKey_reads he (hl m hm)) hc (by decide) (by decide) hh h
  refine ⟨s', ?_, ha'⟩
  rw [readOne_of_word hli .missedKeys (by rw [sectionLine_append]; rfl), fetchSmgetWord,
    textualCollSmgetMissedKeyFetch, hs]
  rfl

/-- The section of trimmed keys, all of the kind that the result tells. -/
theorem trimmed_section_at (he : env.HasMemory) {trimmed : List ReadTrimmed}
    (hl : ∀ t ∈ trimmed, t.Legal)
    (hty : ∀ t ∈ trimmed, t.subKey.queryType result.subKeyType = result.subKeyType)
    (hc : trimmed.length < 2 ^ 32)
    (h : At stream (sectionLine "TRIMMED_KEYS".toList trimmed.length ++
      (trimmed.flatMap (ReadTrimmed.text upper) ++ rest)) s) :
    ∃ s', textualReadOneCollSmgetResponse env junk result s = some ((.success, { result with
        trimmedKeys := result.trimmedKeys ++ trimmed.map ReadTrimmed.stored }), s') ∧
      At stream rest s' := by
  have hh : parseResponseHeader (sectionLine "TRIMMED_KEYS".toList trimmed.length ++ junk) 11 1 =
      some [trimmed.length] := by
    -- the place behind the header is the space
    refine parseResponseHeader_decimal space (lfByte :: junk) (by simp [space, lit, isSpace, ofChar]) ?_ hc
      (by decide)
    rw [sectionLine_append]
    rfl
  obtain ⟨s₁, s', hli, hs, ha'⟩ := section_at he
    (fun t ht => fetchTrimmedKey_reads he upper (hl t ht) (hty t ht)) hc (by decide) (by decide) hh h
  refine ⟨s', ?_, ha'⟩
  rw [readOne_of_word hli .trimmedKeys (by rw [sectionLine_append]; rfl), fetchSmgetWord,
    textualCollSmgetTrimmedKeyFetch, hs]
  rfl

theorem lastLine_at (h : At stream (lastLine duplicated ++ rest) s) :
    ∃ s', textualReadOneCollSmgetResponse env junk result s =
        some ((lastLineCode duplicated, result), s') ∧ At stream rest s' := by
  cases duplicated with
  | false =>
    obtain ⟨s', hl, ha'⟩ := readline_at
      (bytesOf (lit "END".toList) ++ [crByte]) (by decide) (by decide) h
    refine ⟨s', ?_, ha'⟩
    rw [readOne_of_word hl (.code .endOfReply) rfl]
    rfl
  | true =>
    obtain ⟨s', hl, ha'⟩ := readline_at
      (bytesOf (lit "DUPLICATED".toList) ++ [crByte]) (by decide) (by decide) h
    refine ⟨s', ?_, ha'⟩
    rw [readOne_of_word hl (.code .duplicated) rfl]
    rfl

variable {junk result}

structure Added (result out : SmgetRead) : Prop where
  elements : out.elements.length < result.elements.length + 2 ^ 32
  missedKeys : out.missedKeys.length < result.missedKeys.length + 2 ^ 32
  trimmedKeys : out.trimmedKeys.length < result.trimmedKeys.length + 2 ^ 32
  /-- New trimmed keys are of the kind that the result tells. -/
  types : ∀ t ∈ out.trimmedKeys, t ∈ result.trimmedKeys ∨
    t.subKey.queryType result.subKeyType = result.subKeyType

theorem Added.refl (result : SmgetRead) : Added result result where
  elements := by omega
  missedKeys := by omega
  trimmedKeys := by omega
  types := fun _ ht => .inl ht

theorem ok_of_fetch_bind {α β : Type} {m : Fetch α} {f : α → Fetch β} {b : β}
    (h : (m >>= f) s = some (.ok b, s')) :
    ∃ a s₁, m s = some (.ok a, s₁) ∧ f a s₁ = some (.ok b, s') := by
  obtain ⟨⟨read, s₁⟩, hr, h⟩ := Option.bind_eq_some_iff.1 (show Option.bind (m s) _ = _ from h)
  cases read with
  | error rc => cases h
  | ok a => exact ⟨a, s₁, hr, h⟩

theorem queryType_of_fetchTrimmedKey {subKeyType : QueryType} {i : Nat}
    (h : fetchTrimmedKey env subKeyType i s = some (.ok t, s')) :
    t.subKey.queryType subKeyType = subKeyType := by
  obtain ⟨key, s₁, -, h⟩ := ok_of_fetch_bind h
  split_ifs at h with hm
  · obtain ⟨x, s₂, ht, -⟩ := ok_of_fetch_bind h
    cases ht
  · obtain ⟨word, s₂, -, h⟩ := ok_of_fetch_bind h
    cases word with
    | space string => cases h
    | line string =>
      dsimp only at h
      split_ifs at h with hty
      · obtain ⟨x, s₃, ht, -⟩ := ok_of_fetch_bind h
        cases ht
      · cases h
        exact (not_not.1 hty).symm

theorem added_of_word {out : SmgetRead}
    (h : fetchSmgetWord env buffer result s word = some ((rc, out), s')) :
    Added result out := by
  cases word with
  | elements headerLength =>
    obtain ⟨⟨⟨code, elements⟩, s₁⟩, hs, ho⟩ := Option.map_eq_some_iff.1 h
    cases ho
    obtain ⟨hl, -⟩ := fetchSection_bound (P := fun _ => True) (fun _ _ _ _ _ => trivial) hs
    exact { Added.refl result with elements := by rw [length_append]; omega }
  | missedKeys =>
    obtain ⟨⟨⟨code, missed⟩, s₁⟩, hs, ho⟩ := Option.map_eq_some_iff.1 h
    cases ho
    obtain ⟨hl, -⟩ := fetchSection_bound (P := fun _ => True) (fun _ _ _ _ _ => trivial) hs
    exact { Added.refl result with missedKeys := by rw [length_append]; omega }
  | trimmedKeys =>
    obtain ⟨⟨⟨code, trimmed⟩, s₁⟩, hs, ho⟩ := Option.map_eq_some_iff.1 h
    cases ho
    obtain ⟨hl, hty⟩ := fetchSection_bound
      (P := fun t : ReadTrimmed => t.subKey.queryType result.subKeyType = result.subKeyType)
      (fun _ _ _ _ hr => queryType_of_fetchTrimmedKey hr) hs
    exact { Added.refl result with
      trimmedKeys := by rw [length_append]; omega
      types := fun t ht => (mem_append.1 ht).imp_right (hty t) }
  | code rc =>
    cases h
    exact Added.refl result

theorem added_of_readOne
    (h : textualReadOneCollSmgetResponse env junk result s = some ((rc, out), s')) :
    Added result out := by
  obtain ⟨⟨⟨code, line⟩, s₁⟩, -, h⟩ := Option.bind_eq_some_iff.1 h
  dsimp only at h
  split at h
  · cases h
    exact Added.refl result
  · split at h
    · exact added_of_word h
    · split_ifs at h
      · cases h
        exact Added.refl result
      · cases h
        exact Added.refl result

end Sections

/-! ## The reply -/

section Reply

variable {stream rest : List Byte} {s : Reader} {env : ReadEnv} {junk : Nat → List Byte}
  {elements : List ReadElement} {missed : List MissedKey} {trimmed : List ReadTrimmed}
  {duplicated upper : Bool}

def smgetText (upper : Bool) (elements : List ReadElement) (missed : List MissedKey)
    (trimmed : List ReadTrimmed) (duplicated : Bool) : List Byte :=
  sectionLine "ELEMENTS".toList elements.length ++ (elements.flatMap (ReadElement.text upper) ++
    (sectionLine "MISSED_KEYS".toList missed.length ++ (missed.flatMap MissedKey.text ++
      (sectionLine "TRIMMED_KEYS".toList trimmed.length ++ (trimmed.flatMap (ReadTrimmed.text upper) ++
        lastLine duplicated)))))

/-- Four calls, one for each section and one for the last line, have put the entries of the reply into
the result, and its type tells which kind the keys of the elements are of. -/
structure SmgetDecoded (env : ReadEnv) (junk : Nat → List Byte) (elements : List ReadElement)
    (missed : List MissedKey) (trimmed : List ReadTrimmed) (duplicated : Bool)
    (stream rest : List Byte) (s : Reader) (r₁ r₂ r₃ : SmgetRead) (s₁ s₂ s₃ s₄ : Reader) : Prop where
  first : textualReadOneCollSmgetResponse env (junk 0) .create s = some ((.success, r₁), s₁)
  elements_eq : r₁.elements = elements.map ReadElement.stored
  types : ∀ e ∈ elements, e.element.key.queryType r₁.subKeyType = r₁.subKeyType
  second : textualReadOneCollSmgetResponse env (junk 1) r₁ s₁ = some ((.success, r₂), s₂)
  missed_eq : r₂ = { r₁ with missedKeys := missed.map MissedKey.stored }
  third : textualReadOneCollSmgetResponse env (junk 2) r₂ s₂ = some ((.success, r₃), s₃)
  trimmed_eq : r₃ = { r₂ with trimmedKeys := trimmed.map ReadTrimmed.stored }
  last : textualReadOneCollSmgetResponse env (junk 3) r₃ s₃ =
    some ((lastLineCode duplicated, r₃), s₄)
  behind : At stream rest s₄

def ElementKey.kind (key : ElementKey) : QueryType := key.queryType .unknown

theorem ElementKey.Legal.queryType_eq {key : ElementKey} (h : key.Legal .btree) (old : QueryType) :
    key.queryType old = key.kind := by
  cases key with
  | none => exact h.elim
  | _ => rfl

theorem ElementKey.Legal.kind_ne_unknown {key : ElementKey} (h : key.Legal .btree) :
    key.kind ≠ .unknown := by
  cases key with
  | none => exact h.elim
  | _ => exact fun hk => by cases hk

theorem lastType_of_kind {kind : QueryType} (hl : ∀ e ∈ elements, e.Legal)
    (hk : ∀ e ∈ elements, e.element.key.kind = kind) (hn : elements ≠ []) (old : QueryType) :
    lastType old (elements.map ReadElement.stored) = kind := by
  induction elements generalizing old with
  | nil => contradiction
  | cons e elements ih =>
    rw [forall_mem_cons] at hl hk
    rw [map_cons, lastType, foldl_cons]
    have hf : e.stored.element.key.queryType old = kind :=
      (hl.1.element.key.queryType_eq old).trans hk.1
    rw [hf]
    cases elements with
    | nil => rfl
    | cons next elements => exact ih hl.2 hk.2 (cons_ne_nil _ _) kind

/-- A reply is read back just if each section has fewer than 2³² entries, all keys of elements and
trimmed keys are of one kind, and there are elements if there are trimmed keys. -/
theorem smget_reply_iff (henv : env.HasMemory) (helements : ∀ e ∈ elements, e.Legal)
    (hmissed : ∀ m ∈ missed, KeyLegal m.key) (htrimmed : ∀ t ∈ trimmed, t.Legal)
    (hat : At stream (smgetText upper elements missed trimmed duplicated ++ rest) s) :
    (∃ r₁ r₂ r₃ s₁ s₂ s₃ s₄, SmgetDecoded env junk elements missed trimmed duplicated stream rest s
      r₁ r₂ r₃ s₁ s₂ s₃ s₄) ↔
    elements.length < 2 ^ 32 ∧ missed.length < 2 ^ 32 ∧ trimmed.length < 2 ^ 32 ∧
      (trimmed ≠ [] → elements ≠ []) ∧
      ∃ kind, (∀ e ∈ elements, e.element.key.kind = kind) ∧ ∀ t ∈ trimmed, t.subKey.kind = kind := by
  have ha₀ : At stream (sectionLine "ELEMENTS".toList elements.length ++
      (elements.flatMap (ReadElement.text upper) ++
      (sectionLine "MISSED_KEYS".toList missed.length ++ (missed.flatMap MissedKey.text ++
      (sectionLine "TRIMMED_KEYS".toList trimmed.length ++
      (trimmed.flatMap (ReadTrimmed.text upper) ++ (lastLine duplicated ++ rest))))))) s := by
    simpa [smgetText] using hat
  constructor
  · rintro ⟨r₁, r₂, r₃, s₁, s₂, s₃, s₄, h⟩
    have ha₁ := added_of_readOne h.first
    have ha₂ := added_of_readOne h.second
    have ha₃ := added_of_readOne h.third
    have hc₁ : elements.length < 2 ^ 32 := by
      have hl := ha₁.elements
      rw [h.elements_eq] at hl
      simpa [SmgetRead.create] using hl
    -- with its count in range the first section gives just one result
    obtain ⟨s₁', hf, -⟩ := elements_section_at (junk 0) .create henv helements hc₁ ha₀
    rw [h.first] at hf
    cases hf
    have hc₂ : missed.length < 2 ^ 32 := by
      have hl := ha₂.missedKeys
      rw [h.missed_eq] at hl
      simpa [SmgetRead.create] using hl
    have hc₃ : trimmed.length < 2 ^ 32 := by
      have hl := ha₃.trimmedKeys
      rw [h.trimmed_eq, h.missed_eq] at hl
      simpa [SmgetRead.create] using hl
    have hty : ∀ t ∈ trimmed,
        t.subKey.kind = lastType .unknown (elements.map ReadElement.stored) := by
      intro t ht
      have hm : t.stored ∈ r₃.trimmedKeys := by
        rw [h.trimmed_eq]
        exact mem_map_of_mem ht
      rcases ha₃.types _ hm with ho | htyp
      · rw [h.missed_eq] at ho
        cases ho
      · rw [← (htrimmed t ht).subKey.queryType_eq]
        rwa [h.missed_eq] at htyp
    refine ⟨hc₁, hc₂, hc₃, ?_, _, fun e he => ?_, hty⟩
    · rintro hn rfl
      obtain ⟨t, ht⟩ := exists_mem_of_ne_nil trimmed hn
      exact (htrimmed t ht).subKey.kind_ne_unknown (hty t ht)
    · rw [← (helements e he).element.key.queryType_eq]
      exact h.types e he
  · rintro ⟨hc₁, hc₂, hc₃, hs, kind, hk, htk⟩
    have hla : elements ≠ [] → lastType .unknown (elements.map ReadElement.stored) = kind :=
      fun hn => lastType_of_kind helements hk hn .unknown
    obtain ⟨s₁, hf, hat₁⟩ := elements_section_at (junk 0) .create henv helements hc₁ ha₀
    obtain ⟨s₂, hse, hat₂⟩ := missed_section_at (junk 1) _ henv hmissed hc₂ hat₁
    have htyp : ∀ t ∈ trimmed,
        t.subKey.queryType (lastType .unknown (elements.map ReadElement.stored)) =
          lastType .unknown (elements.map ReadElement.stored) := by
      intro t ht
      rw [(htrimmed t ht).subKey.queryType_eq, htk t ht, hla (hs (ne_nil_of_mem ht))]
    obtain ⟨s₃, hth, hat₃⟩ := trimmed_section_at (junk 2)
      ⟨lastType .unknown (elements.map ReadElement.stored), [] ++ elements.map ReadElement.stored,
        [] ++ missed.map MissedKey.stored, []⟩ henv htrimmed htyp hc₃ hat₂
    obtain ⟨s₄, hlas, ha₄⟩ := lastLine_at (junk 3) _ hat₃
    refine ⟨_, _, _, s₁, s₂, s₃, s₄, hf, rfl, fun e he => ?_, hse, rfl, hth, rfl, hlas, ha₄⟩
    rw [(helements e he).element.key.queryType_eq, hk e he]
    exact (hla (ne_nil_of_mem he)).symm

end Reply

def freshEnv : ReadEnv := ⟨true, fun _ => true, fun _ => true, fun _ => []⟩

theorem hasMemory_freshEnv : freshEnv.HasMemory := ⟨rfl, fun _ => rfl, fun _ => rfl⟩

/-- A reply in two packets: an element `a` with the key 5, a missed key `b` and a trimmed key `c`. -/
def replyChunks : List (List Byte) :=
  [bytesOf (lit "ELEMENTS 1\r\na 7 5 1 x\r\nMISSED_KEYS 1\r\nb NOT_F".toList),
    bytesOf (lit "OUND\r\nTRIMMED_KEYS 1\r\nc 4\r\nEND\r\n".toList)]

theorem smget_reply_packets :
    ∃ r₁ r₂ r₃ s₁ s₂ s₃ s₄, SmgetDecoded freshEnv (fun _ => []) [⟨[97], 7, .bkey 5, none, [120]⟩]
      [⟨[98], some .notFound⟩] [⟨[99], .bkey 4⟩] false replyChunks.flatten []
      (Reader.new.connect replyChunks .timeout) r₁ r₂ r₃ s₁ s₂ s₃ s₄ := by
  have hk : ∀ b : Byte, b ≠ spaceByte → b ≠ crByte → KeyLegal [b] := fun b hs hc =>
    ⟨forall_mem_singleton.2 ⟨hs, hc⟩, by rw [length_singleton]; decide⟩
  have hst : (Reader.new.connect replyChunks .timeout).AtStart :=
    ⟨rfl, rfl, rfl, rfl, rfl, by decide⟩
  have ha : At replyChunks.flatten (smgetText false [⟨[97], 7, .bkey 5, none, [120]⟩]
      [⟨[98], some .notFound⟩] [⟨[99], .bkey 4⟩] false ++ [])
      (Reader.new.connect replyChunks .timeout) :=
    ⟨hst.sound rfl, rfl, by decide +kernel⟩
  refine (smget_reply_iff hasMemory_freshEnv ?_ ?_ ?_ ha).2
    ⟨by decide, by decide, by decide, by simp, .bop, by simp [ElementKey.kind, ElementKey.queryType],
      by simp [ElementKey.kind, ElementKey.queryType]⟩
  · rw [forall_mem_singleton]
    exact ⟨hk _ (by decide) (by decide), trivial, trivial, by decide⟩
  · rw [forall_mem_singleton]
    exact hk _ (by decide) (by decide)
  · rw [forall_mem_singleton]
    exact ⟨hk _ (by decide) (by decide), trivial⟩

/-- A reply without elements and missed keys, and with a trimmed key. -/
def trimmedAlone : List (List Byte) :=
  [bytesOf (lit "ELEMENTS 0\r\nMISSED_KEYS 0\r\nTRIMMED_KEYS 1\r\nc 4\r\nEND\r\n".toList)]

/-- Its trimmed key is not read. -/
theorem smget_reply_trimmed_alone :
    trimmedAlone.flatten = smgetText false [] [] [⟨[99], .bkey 4⟩] false ∧
    ((textualReadOneCollSmgetResponse freshEnv [] .create
        (Reader.new.connect trimmedAlone .timeout)).bind fun first =>
      (textualReadOneCollSmgetResponse freshEnv [] first.1.2 first.2).bind fun second =>
      (textualReadOneCollSmgetResponse freshEnv [] second.1.2 second.2).map fun third =>
        (first.1.1, second.1.1, third.1.1, third.1.2.trimmedKeys)) =
      some (.success, .success, .protocolError, []) := by
  decide +kernel

end ArcusClient.Coll
