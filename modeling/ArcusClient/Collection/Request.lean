import ArcusClient.Collection.Query

/-!
# Requests on collections

Each function below builds the request of the source function of its name, or gives the code with
which that function returns before it sends anything.  The command line is kept in pieces, so that
the option `noreply` or `pipe` can be told from the same letters in a key.
-/

namespace ArcusClient.Coll

open CString

/-! ## Clients and requests -/

structure Client where
  noReply : Bool
  piped : Bool
  bufferRequests : Bool
  useUdp : Bool
  binaryProtocol : Bool
  verifyKey : Bool
  serverCount : Nat

inductive Piece where
  | text (s : CStr)
  | noreply
  | pipe

def Piece.chars : Piece → CStr
  | .text s => s
  | .noreply => lit [' ', 'n', 'o', 'r', 'e', 'p', 'l', 'y']
  | .pipe => lit [' ', 'p', 'i', 'p', 'e']

def chars (pieces : List Piece) : CStr := pieces.flatMap Piece.chars

structure Request where
  verb : Verb
  key : List Byte
  /-- The command line after the key. -/
  line : List Piece
  /-- The line of data. -/
  data : Option (List Byte)

def crlf : List Byte := bytesOf (lit ['\r', '\n'])

def Request.wire (r : Request) : List Byte :=
  bytesOf ((collOpString r.verb).take (collOpLength r.verb)) ++ r.key ++ bytesOf (chars r.line) ++
    crlf ++ (match r.data with
      | some data => data ++ crlf
      | none => [])

/-- The option `noreply` or `pipe` is among the pieces. -/
def tokenIn (pieces : List Piece) : Bool :=
  pieces.any fun
    | .text _ => false
    | .noreply => true
    | .pipe => true

/-- The command line has the option `noreply` or `pipe`. -/
def Request.hasToken (r : Request) : Bool := tokenIn r.line

inductive Refusal where
  /-- The function returns with a code. -/
  | returns (rc : ReturnT)
  /-- It reads or writes past the end of an array. -/
  | outOfBounds
  deriving DecidableEq

def refuse {α : Type} (rc : ReturnT) : Except Refusal α := .error (.returns rc)

/-- `(no_reply)? " noreply" : (piped)? " pipe" : ""`. -/
def replyOption (c : Client) : List Piece :=
  if c.noReply then [.noreply] else if c.piped then [.pipe] else []

/-- `(no_reply)? " noreply" : ""`. -/
def noreplyOption (c : Client) : List Piece := if c.noReply then [.noreply] else []

def defaultCommandSize : Nat := 512

def maximumCommandSize : Nat := 6812

def fits (size : Nat) (pieces : List Piece) : Except Refusal (List Piece) :=
  if size ≤ (chars pieces).length then refuse .memoryAllocationFailure else .ok pieces

/-! ## Checks before a request -/

/-- `MEMCACHED_MAX_KEY`. -/
def maxKey : Nat := 4001

/-- `memcached_key_test` for one key. -/
def keyTest (c : Client) (key : List Byte) : Bool :=
  key.length != 0 &&
    (if c.binaryProtocol then key.length ≤ 0xffff else key.length < maxKey) &&
    (!c.verifyKey || c.binaryProtocol || key.all fun b => 33 ≤ b.1 && b.1 ≤ 126)

/-- The checks of `before_query`. -/
def beforeQuery (c : Client) (key : List Byte) : Except Refusal Unit :=
  if c.serverCount = 0 then refuse .noServers
  else if c.useUdp || c.binaryProtocol then refuse .notSupported
  else if keyTest c key then .ok () else refuse .badKeyProvided

/-! ## The builders -/

/-- The part that creation and insertion share.  Sets and maps have no overflow action. -/
def createText (attributes : CreateAttrs) (overflows : Bool) : CStr :=
  space ++ decimal attributes.flags.toNat ++ space ++ signedDecimal attributes.expiretime ++
    space ++ decimal attributes.maxcount.toNat ++
    (if overflows && attributes.overflowaction ≠ .none then
      space ++ collOverflowactionString attributes.overflowaction else []) ++
    (if attributes.isUnreadable then
      lit [' ', 'u', 'n', 'r', 'e', 'a', 'd', 'a', 'b', 'l', 'e'] else [])

def doCollCreate (c : Client) (key : List Byte) (attributes : Option CreateAttrs) (verb : Verb) :
    Except Refusal Request := do
  beforeQuery c key
  match attributes with
  | none => refuse .invalidArguments
  | some attributes =>
    let overflows := verb ≠ .sopCreate && verb ≠ .mopCreate
    let line ← fits defaultCommandSize ([.text (createText attributes overflows)] ++ replyOption c)
    return ⟨verb, key, line, none⟩

/-- `MEMCACHED_COLL_MAX_MOP_MKEY_LENG`. -/
def maxMopMkeyLength : Nat := 250

/-- A map key as `%s`. -/
def mkeyText (mkey : Mkey) : Except Refusal CStr :=
  if maxMopMkeyLength < mkey.length then refuse .invalidArguments
  else .ok (space ++ cString mkey.string)

def bkeyText (stack : Nat → CStr) (query : Query) (bufferLength : Nat) (supportRange : Bool) :
    Except Refusal CStr :=
  (generateStrBkeyFromQuery stack query bufferLength supportRange).mapError Refusal.returns

def insertSubKey (stack : Nat → CStr) (query : Query) (eflag : Option Hexadecimal) :
    Verb → Except Refusal CStr
  | .lopInsert => .ok (space ++ signedDecimal query.subKey.index)
  | .sopInsert => .ok []
  | .mopInsert | .mopUpsert => mkeyText query.subKey.mkey
  | .bopInsert | .bopUpsert => do
    let bkey ← bkeyText stack query defaultCommandSize false
    return bkey ++ eflagText stack eflag
  | _ => refuse .invalidArguments

/-- The options of an insertion.  All of them, and the option on the reply too, are in the
clause with the attributes. -/
def insertOptions (c : Client) (attributes : Option CreateAttrs) (verb : Verb) : List Piece :=
  match attributes with
  | some attributes =>
    let overflows := verb ≠ .sopInsert && verb ≠ .mopInsert && verb ≠ .mopUpsert
    [.text (lit [' ', 'c', 'r', 'e', 'a', 't', 'e'] ++ createText attributes overflows)] ++
      replyOption c
  | none => []

def doCollInsert (c : Client) (stack : Nat → CStr) (key : List Byte) (query : Query)
    (eflag : Option Hexadecimal) (attributes : Option CreateAttrs) (verb : Verb) :
    Except Refusal Request := do
  beforeQuery c key
  let subKey ← insertSubKey stack query eflag verb
  let line ← fits defaultCommandSize
    ([.text (subKey ++ space ++ unsignedText query.valueLength)] ++ insertOptions c attributes verb)
  return ⟨verb, key, line, some (query.value.take query.valueLength)⟩

def indexText (query : Query) : Except Refusal CStr :=
  match query.type with
  | .lop => .ok (space ++ signedDecimal query.subKey.index)
  | .lopRange => .ok (space ++ signedDecimal query.subKey.indexRange.1 ++ lit ['.', '.'] ++
      signedDecimal query.subKey.indexRange.2)
  | _ => refuse .invalidArguments

/-- The length of a map key and the number of keys, which is `0 0` for all of them. -/
def mkeyLengthText (mkey : Mkey) : Except Refusal CStr :=
  if maxMopMkeyLength < mkey.length then refuse .invalidArguments
  else if mkey.length = 0 then .ok (lit [' ', '0', ' ', '0'])
  else .ok (space ++ decimal mkey.length ++ lit [' ', '1'])

/-- A b+tree key or a range of them, with a filter. -/
def bkeyFilterText (stack : Nat → CStr) (query : Query) : Except Refusal CStr := do
  let bkey ← bkeyText stack query maximumCommandSize true
  match query.eflagFilter with
  | none => return bkey
  | some filter =>
    match eflagFilterToStr stack filter (maximumCommandSize - bkey.length) with
    | none => refuse .memoryAllocationFailure
    | some text => return bkey ++ text

def deleteSubKey (stack : Nat → CStr) (query : Query) (count : Nat) : Verb → Except Refusal CStr
  | .lopDelete => indexText query
  | .sopDelete => .ok (space ++ unsignedText query.valueLength)
  | .mopDelete => mkeyLengthText query.subKey.mkey
  | .bopDelete => do
    let text ← bkeyFilterText stack query
    if query.type = .bopRange ∨ query.type = .bopExtRange then
      return text ++ space ++ unsignedText count
    else return text
  | _ => refuse .invalidArguments

def doCollDelete (c : Client) (stack : Nat → CStr) (key : List Byte) (query : Query) (count : Nat)
    (dropIfEmpty : Bool) (verb : Verb) : Except Refusal Request := do
  beforeQuery c key
  let subKey ← deleteSubKey stack query count verb
  let drop := if dropIfEmpty then lit [' ', 'd', 'r', 'o', 'p'] else []
  let line ← fits maximumCommandSize ([.text (subKey ++ drop)] ++ noreplyOption c)
  let data :=
    if verb = .sopDelete then some (query.value.take query.valueLength)
    else if verb = .mopDelete ∧ query.subKey.mkey.length ≠ 0 then
      some (query.subKey.mkey.string.take query.subKey.mkey.length)
    else none
  return ⟨verb, key, line, data⟩

/-- The list of map keys as it is sent, which has to fit the buffer for the stated
lengths. -/
def mkeysData (separator : CChar) (mkeys : List Mkey) (bufferLength : Nat) :
    Except Refusal (List Byte) :=
  let text := [separator].intercalate (mkeys.map fun mkey => cString mkey.string)
  if bufferLength ≤ text.length then refuse .memoryAllocationFailure else .ok (bytesOf text)

/-- The elements of a retrieval, and the line of data.  `spaceSeparated` is about the
version of the server. -/
def getSubKey (stack : Nat → CStr) (spaceSeparated : Bool) (query : Query) :
    Verb → Except Refusal (CStr × Option (List Byte))
  | .lopGet => do
    let text ← indexText query
    return (text, none)
  | .sopGet => .ok (space ++ unsignedText query.count, none)
  | .mopGet =>
    match query.type with
    | .mop => do
      let text ← mkeyLengthText query.subKey.mkey
      return (text, if query.subKey.mkey.length = 0 then none
        else some (query.subKey.mkey.string.take query.subKey.mkey.length))
    | .mopRange =>
      let mkeys := query.subKey.mkeys
      if mkeys.any fun mkey => maxMopMkeyLength < mkey.length then refuse .invalidArguments
      else if mkeys = [] then .error .outOfBounds
      else do
        let length := (mkeys.map Mkey.length).sum + (mkeys.length - 1)
        let separator := ofChar (if spaceSeparated then ' ' else ',')
        let data ← mkeysData separator mkeys (length + 1)
        return (space ++ decimal length ++ space ++ decimal mkeys.length, some data)
    | _ => refuse .invalidArguments
  | .bopGet => do
    let text ← bkeyFilterText stack query
    return (text ++ space ++ unsignedText query.offset ++ space ++ unsignedText query.count, none)
  | _ => refuse .invalidArguments

def deleteOption (withDelete dropIfEmpty : Bool) : CStr :=
  if withDelete && dropIfEmpty then lit [' ', 'd', 'r', 'o', 'p']
  else if withDelete then lit [' ', 'd', 'e', 'l', 'e', 't', 'e']
  else []

def doCollGet (c : Client) (stack : Nat → CStr) (spaceSeparated : Bool) (key : List Byte)
    (query : Query) (withDelete dropIfEmpty : Bool) (verb : Verb) : Except Refusal Request := do
  beforeQuery c key
  if !withDelete && dropIfEmpty then refuse .invalidArguments
  else
    let (subKey, data) ← getSubKey stack spaceSeparated query verb
    let line ← fits maximumCommandSize [.text (subKey ++ deleteOption withDelete dropIfEmpty)]
    return ⟨verb, key, line, data⟩

def updateSubKey (stack : Nat → CStr) (query : Query) : Verb → Except Refusal CStr
  | .mopUpdate => mkeyText query.subKey.mkey
  | .bopUpdate => bkeyText stack query defaultCommandSize false
  | _ => refuse .invalidArguments

def updateEflag (stack : Nat → CStr) (eflagUpdate : Option EflagUpdate) (writeLength : Nat) :
    Except Refusal CStr :=
  match eflagUpdate with
  | none => .ok []
  | some update =>
    match eflagUpdateToStr stack update (defaultCommandSize - writeLength) with
    | none => refuse .memoryAllocationFailure
    | some text => .ok text

def doCollUpdate (c : Client) (stack : Nat → CStr) (key : List Byte) (query : Query)
    (eflagUpdate : Option EflagUpdate) (value : Option (List Byte)) (valueLength : Int)
    (verb : Verb) : Except Refusal Request := do
  beforeQuery c key
  if eflagUpdate.isNone && value.isNone then refuse .nothingToUpdate
  else
    let subKey ← updateSubKey stack query verb
    let eflag ← updateEflag stack eflagUpdate subKey.length
    let line ← fits defaultCommandSize
      ([.text (subKey ++ eflag ++ space ++ signedDecimal valueLength)] ++ noreplyOption c)
    let data := if valueLength < 0 then none else some ((value.getD []).take valueLength.toNat)
    return ⟨verb, key, line, data⟩

def initialText (stack : Nat → CStr) (initial : Option UInt64) (eflag : Option Hexadecimal) :
    CStr :=
  match initial with
  | some initial => space ++ decimal initial.toNat ++ eflagText stack eflag
  | none => []

def doCollArithmetic (c : Client) (stack : Nat → CStr) (key : List Byte) (query : Query)
    (delta : UInt64) (initial : Option UInt64) (eflag : Option Hexadecimal) (verb : Verb) :
    Except Refusal Request := do
  beforeQuery c key
  if verb ≠ .bopIncr ∧ verb ≠ .bopDecr then refuse .invalidArguments
  else
    let subKey ← bkeyText stack query defaultCommandSize false
    let line ← fits defaultCommandSize
      ([.text (subKey ++ space ++ decimal delta.toNat ++ initialText stack initial eflag)] ++
        noreplyOption c)
    return ⟨verb, key, line, none⟩

/-- The buffer of this request has the end of the line, too. -/
def doCollExist (c : Client) (key value : List Byte) (verb : Verb) : Except Refusal Request := do
  beforeQuery c key
  let line ← fits (defaultCommandSize - crlf.length)
    ([.text (space ++ unsignedText value.length)] ++ replyOption c)
  return ⟨verb, key, line, some value⟩

def doCollCount (c : Client) (stack : Nat → CStr) (key : List Byte) (query : Query) (verb : Verb) :
    Except Refusal Request := do
  beforeQuery c key
  if verb ≠ .bopCount then refuse .invalidArguments
  else
    let subKey ← bkeyFilterText stack query
    let line ← fits maximumCommandSize [.text subKey]
    return ⟨.bopCount, key, line, none⟩

/-- The attributes of `memcached_coll_attrs_st` that are to be set. -/
structure SetAttrs where
  maxcount : Option UInt32
  expiretime : Option Int
  overflowaction : Option OverflowAction
  readable : Bool
  /-- With `subkey_type` if the attribute is set. -/
  maxbkeyrange : Option (QueryType × SubKey)

def attrText (name : List Char) (value : CStr) : CStr := lit ([' '] ++ name ++ ['=']) ++ value

def maxbkeyrangeText (stack : Nat → CStr) : Option (QueryType × SubKey) → CStr
  | some (.bop, range) =>
    attrText ['m', 'a', 'x', 'b', 'k', 'e', 'y', 'r', 'a', 'n', 'g', 'e'] (decimal range.bkey.toNat)
  | some (.bopExt, range) =>
    attrText ['m', 'a', 'x', 'b', 'k', 'e', 'y', 'r', 'a', 'n', 'g', 'e']
      (lit ['0', 'x'] ++ convHexToStr (stack 0) range.bkeyExt)
  | _ => []

def memcachedSetAttrs (c : Client) (stack : Nat → CStr) (key : List Byte) (attrs : SetAttrs) :
    Except Refusal Request := do
  beforeQuery c key
  let maxcount := (attrs.maxcount.map fun n =>
    attrText ['m', 'a', 'x', 'c', 'o', 'u', 'n', 't'] (decimal n.toNat)).getD []
  let expiretime := (attrs.expiretime.map fun n =>
    attrText ['e', 'x', 'p', 'i', 'r', 'e', 't', 'i', 'm', 'e'] (signedDecimal n)).getD []
  let overflowaction := (attrs.overflowaction.map fun action =>
    attrText ['o', 'v', 'e', 'r', 'f', 'l', 'o', 'w', 'a', 'c', 't', 'i', 'o', 'n']
      (collOverflowactionString action)).getD []
  let readable := if attrs.readable then
    attrText ['r', 'e', 'a', 'd', 'a', 'b', 'l', 'e'] (lit ['o', 'n']) else []
  let line ← fits defaultCommandSize [.text (maxcount ++ expiretime ++ overflowaction ++ readable ++
    maxbkeyrangeText stack attrs.maxbkeyrange)]
  return ⟨.setattrs, key, line, none⟩

def memcachedGetAttrs (c : Client) (key : List Byte) : Except Refusal Request := do
  beforeQuery c key
  return ⟨.getattrs, key, [], none⟩

/-! ## Positions in a b+tree -/

/-- `memcached_coll_order_t`. -/
inductive Order where
  | asc | desc | unknown

/-- `order_to_str`. -/
def orderToStr : Order → CStr
  | .asc => lit ['a', 's', 'c']
  | .desc => lit ['d', 'e', 's', 'c']
  | .unknown => lit ['u', 'n', 'k', 'n', 'o', 'w', 'n']

def doBopFindPosition (c : Client) (stack : Nat → CStr) (key : List Byte) (query : Query)
    (order : Order) (verb : Verb) : Except Refusal Request := do
  beforeQuery c key
  if verb ≠ .bopPosi then refuse .invalidArguments
  else
    let subKey ← bkeyText stack query defaultCommandSize false
    let line ← fits defaultCommandSize [.text (subKey ++ space ++ orderToStr order)]
    return ⟨.bopPosi, key, line, none⟩

def doBopGetByPosition (c : Client) (key : List Byte) (order : Order)
    (fromPosition toPosition : Nat) (verb : Verb) : Except Refusal Request := do
  beforeQuery c key
  if verb ≠ .bopGbp then refuse .invalidArguments
  else
    let range := if fromPosition = toPosition then unsignedText fromPosition
      else unsignedText fromPosition ++ lit ['.', '.'] ++ unsignedText toPosition
    let line ← fits defaultCommandSize [.text (space ++ orderToStr order ++ space ++ range)]
    return ⟨.bopGbp, key, line, none⟩

def doBopFindPositionWithGet (c : Client) (stack : Nat → CStr) (key : List Byte) (query : Query)
    (order : Order) (count : Nat) (verb : Verb) : Except Refusal Request := do
  beforeQuery c key
  if verb ≠ .bopPwg then refuse .invalidArguments
  else
    let subKey ← bkeyText stack query defaultCommandSize false
    let line ← fits defaultCommandSize
      [.text (subKey ++ space ++ orderToStr order ++ space ++ unsignedText count)]
    return ⟨.bopPwg, key, line, none⟩

/-! ## Items of a pipe

The items of a pipe are collected in `pipe_buffer`, and the last one is sent together with
them.  An item that is collected is printed with `%s`, so that its key is the string in
memory, whatever the length of the key. -/

/-- A key of a pipe: the bytes that its length covers, and the memory after them. -/
structure KeyMemory where
  bytes : List Byte
  beyond : List Byte

def KeyMemory.string (key : KeyMemory) : List Byte := bytesOf (cString (key.bytes ++ key.beyond))

/-- `MEMCACHED_COLL_MAX_PIPED_BUFFER_SIZE`. -/
def maxPipedBufferSize : Nat := 10240

inductive Item where
  /-- Into the buffer, which is filled up to the given position then. -/
  | collected (r : Request) (pipeBufferPos : Nat)
  /-- To the server. -/
  | flushed (r : Request)

def Item.request : Item → Request
  | .collected r _ => r
  | .flushed r => r

def collectOrFlush (c : Client) (key : KeyMemory) (pipeBufferPos : Nat) (r : Request) :
    Except Refusal Item :=
  if c.piped && pipeBufferPos + r.wire.length < maxPipedBufferSize then
    let collected := { r with key := key.string }
    let pos := pipeBufferPos + collected.wire.length
    if pos ≤ maxPipedBufferSize then .ok (.collected collected pos) else .error .outOfBounds
  else .ok (.flushed r)

/-- The sub key of an item.  There are no upserts in a pipe. -/
def itemSubKey (stack : Nat → CStr) (query : Query) (eflag : Option Hexadecimal) :
    Verb → Except Refusal CStr
  | .lopInsert => insertSubKey stack query eflag .lopInsert
  | .sopInsert => insertSubKey stack query eflag .sopInsert
  | .mopInsert => insertSubKey stack query eflag .mopInsert
  | .bopInsert => insertSubKey stack query eflag .bopInsert
  | _ => refuse .invalidArguments

/-- The clause with the attributes.  The option on the reply is not part of it. -/
def itemAttributes (attributes : Option CreateAttrs) (verb : Verb) : CStr :=
  match attributes with
  | some attributes =>
    lit [' ', 'c', 'r', 'e', 'a', 't', 'e'] ++
      createText attributes (verb ≠ .sopInsert && verb ≠ .mopInsert)
  | none => []

def internalCollPipedInsert (c : Client) (stack : Nat → CStr) (pipeBufferPos : Nat)
    (key : KeyMemory) (query : Query) (eflag : Option Hexadecimal)
    (attributes : Option CreateAttrs) (verb : Verb) : Except Refusal Item := do
  let subKey ← itemSubKey stack query eflag verb
  let line ← fits defaultCommandSize
    ([.text (subKey ++ space ++ unsignedText query.valueLength ++ itemAttributes attributes verb)] ++
      replyOption c)
  collectOrFlush c key pipeBufferPos
    ⟨verb, key.bytes, line, some (query.value.take query.valueLength)⟩

/-- The buffer of this request has the end of the line, too. -/
def internalCollPipedExist (c : Client) (pipeBufferPos : Nat) (key : KeyMemory)
    (value : List Byte) (verb : Verb) : Except Refusal Item := do
  let line ← fits (defaultCommandSize - crlf.length)
    ([.text (space ++ unsignedText value.length)] ++ replyOption c)
  collectOrFlush c key pipeBufferPos ⟨verb, key.bytes, line, some value⟩

end ArcusClient.Coll
