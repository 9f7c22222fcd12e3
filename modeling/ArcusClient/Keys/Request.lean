import ArcusClient.Keys.Hash
import ArcusClient.Lib.Outcome

/-!
# Requests on single items

The functions that store, read, delete and change an item under a key, in the text protocol.  Each
puts the namespace before the key.
-/

namespace ArcusClient.Keys

open CString Coll Outcome

structure Settings extends Client where
  supportCas : Bool
  ns : Namespace
  ascii : binaryProtocol = false

/-- A request, with the key apart from what is before and after it. -/
structure Wire where
  command : List Byte
  key : List Byte
  rest : List Byte

def Wire.bytes (w : Wire) : List Byte := w.command ++ w.key ++ w.rest

/-! ## Texts -/

/-- `MEMCACHED_MAXIMUM_INTEGER_DISPLAY_LENGTH`. -/
def maximumIntegerDisplayLength : Nat := 20

/-- The check that a number and a space fit their buffer. -/
def integerText (text : CStr) : Except Refusal CStr :=
  if maximumIntegerDisplayLength + 1 + 1 ≤ text.length then refuse .memoryAllocationFailure
  else .ok text

/-- `memcached_storage_action_t`. -/
inductive StorageAction where
  | set | replace | add | prepend | append | cas
  deriving DecidableEq

/-- `storage_op_string`. -/
def storageOpString : StorageAction → CStr
  | .replace => lit ['r', 'e', 'p', 'l', 'a', 'c', 'e', ' ']
  | .add => lit ['a', 'd', 'd', ' ']
  | .prepend => lit ['p', 'r', 'e', 'p', 'e', 'n', 'd', ' ']
  | .append => lit ['a', 'p', 'p', 'e', 'n', 'd', ' ']
  | .cas => lit ['c', 'a', 's', ' ']
  | .set => lit ['s', 'e', 't', ' ']

/-- The direction of `text_incr_decr`. -/
inductive Direction where
  | incr | decr

def Direction.verb : Direction → CStr
  | .incr => lit ['i', 'n', 'c', 'r', ' ']
  | .decr => lit ['d', 'e', 'c', 'r', ' ']

/-- A command line with the key of the client in it, and what comes after the line. -/
def Settings.line (s : Settings) (command : CStr) (key : List Byte) (rest : CStr)
    (data : List Byte) : Wire :=
  ⟨bytesOf command, s.ns.bytes ++ key, bytesOf rest ++ crlf ++ data⟩

/-- `MAX_UDP_DATAGRAM_LENGTH - UDP_DATAGRAM_HEADER_LENGTH`. -/
def maxUdpRequest : Nat := 1400 - 8

def udpFits (s : Settings) (w : Wire) : Except Refusal Wire :=
  if s.useUdp && s.bufferRequests && maxUdpRequest < w.bytes.length then refuse .writeFailure
  else .ok w

def noreplyText (s : Settings) : CStr := chars (noreplyOption s.toClient)

/-! ## Checks before a request -/

/-- `initialize_query` and `memcached_key_test`. -/
def queryCheck (s : Settings) (key : List Byte) : Except Refusal Unit :=
  if s.serverCount = 0 then refuse .noServers
  else if keyTest s.toClient key then .ok () else refuse .badKeyProvided

/-- The checks of `before_get_query`. -/
def beforeGetQuery (s : Settings) (key : List Byte) : Except Refusal Unit :=
  if s.serverCount = 0 then refuse .noServers
  else if s.useUdp then refuse .notSupported
  else if keyTest s.toClient key then .ok () else refuse .badKeyProvided

/-! ## The builders -/

/-- The text of a `cas` value, if there is one. -/
def casBuffer (cas : UInt64) : Except Refusal CStr :=
  if cas = 0 then .ok [] else integerText (space ++ decimal cas.toNat)

def memcachedSendAscii (s : Settings) (key value : List Byte) (expiration : Int) (flags : UInt32)
    (cas : UInt64) (verb : StorageAction) : Except Refusal Wire := do
  let flagsText ← integerText (space ++ decimal flags.toNat)
  let expirationText ← integerText (space ++ signedDecimal expiration)
  let valueText ← integerText (space ++ decimal value.length)
  let casText ← casBuffer cas
  udpFits s (s.line (storageOpString verb) key
    (flagsText ++ expirationText ++ valueText ++ casText ++ noreplyText s) (value ++ crlf))

def memcachedSend (s : Settings) (key value : List Byte) (expiration : Int) (flags : UInt32)
    (cas : UInt64) (verb : StorageAction) : Except Refusal Wire := do
  queryCheck s key
  memcachedSendAscii s key value expiration flags cas verb

/-- `memcached_get` down to `ascii_get_by_key`. -/
def memcachedGet (s : Settings) (key : List Byte) : Except Refusal Wire := do
  beforeGetQuery s key
  let command := if s.supportCas then lit ['g', 'e', 't', 's', ' '] else lit ['g', 'e', 't', ' ']
  return s.line command key [] []

/-- `memcached_gat` down to `ascii_gat_by_key`. -/
def memcachedGat (s : Settings) (key : List Byte) (expiration : Int) : Except Refusal Wire := do
  beforeGetQuery s key
  let command := if s.supportCas then lit ['g', 'a', 't', 's', ' '] else lit ['g', 'a', 't', ' ']
  let expirationText ← integerText (signedDecimal expiration ++ space)
  return s.line (command ++ expirationText) key [] []

/-- `memcached_delete` down to `ascii_delete`. -/
def memcachedDelete (s : Settings) (key : List Byte) (expiration : Int) : Except Refusal Wire := do
  queryCheck s key
  if expiration ≠ 0 then refuse .invalidArguments
  else udpFits s (s.line (lit ['d', 'e', 'l', 'e', 't', 'e', ' ']) key (noreplyText s) [])

/-- The initial value of an item, with its flags and its expiration time. -/
structure Initial where
  value : UInt64
  flags : UInt32
  expiration : Int

/-- The clause for the initial value, which has to fit a buffer of its own. -/
def initialBuffer : Option Initial → Except Refusal CStr
  | none => .ok []
  | some initial =>
    let text := space ++ decimal initial.flags.toNat ++ space ++
      signedDecimal initial.expiration ++ space ++ decimal initial.value.toNat
    if (maximumIntegerDisplayLength + 1) * 3 + 1 ≤ text.length then
      refuse .memoryAllocationFailure
    else .ok text

/-- `memcached_increment` and its like down to `text_incr_decr`. -/
def textIncrDecr (s : Settings) (verb : Direction) (key : List Byte) (offset : UInt64)
    (initial : Option Initial) : Except Refusal Wire := do
  queryCheck s key
  let offsetText ← integerText (space ++ decimal offset.toNat)
  let initialText ← initialBuffer initial
  return s.line verb.verb key (offsetText ++ initialText ++ noreplyText s) []

/-- `memcached_touch` down to `ascii_touch`. -/
def memcachedTouch (s : Settings) (key : List Byte) (expiration : Int) : Except Refusal Wire := do
  queryCheck s key
  let expirationText ← integerText (space ++ signedDecimal expiration)
  udpFits s (s.line (lit ['t', 'o', 'u', 'c', 'h', ' ']) key (expirationText ++ noreplyText s) [])

/-- `memcached_exist` down to `ascii_exist`, in a client with ZooKeeper. -/
def memcachedExist (s : Settings) (key : List Byte) : Except Refusal Wire := do
  queryCheck s key
  if s.useUdp then refuse .notSupported
  else return s.line (lit ['g', 'e', 't', 'a', 't', 't', 'r', ' ']) key [] []

/-! ## Calls -/

inductive Call where
  | send (key value : List Byte) (expiration : Int) (flags : UInt32) (cas : UInt64)
      (verb : StorageAction)
  | get (key : List Byte)
  | gat (key : List Byte) (expiration : Int)
  | delete (key : List Byte) (expiration : Int)
  | incrDecr (verb : Direction) (key : List Byte) (offset : UInt64) (initial : Option Initial)
  | touch (key : List Byte) (expiration : Int)
  | exist (key : List Byte)

def Call.key : Call → List Byte
  | .send key _ _ _ _ _ | .get key | .gat key _ | .delete key _ | .incrDecr _ key _ _
  | .touch key _ | .exist key => key

def Call.build (s : Settings) : Call → Except Refusal Wire
  | .send key value expiration flags cas verb =>
    memcachedSend s key value expiration flags cas verb
  | .get key => memcachedGet s key
  | .gat key expiration => memcachedGat s key expiration
  | .delete key expiration => memcachedDelete s key expiration
  | .incrDecr verb key offset initial => textIncrDecr s verb key offset initial
  | .touch key expiration => memcachedTouch s key expiration
  | .exist key => memcachedExist s key

theorem udpFits_ends (h : w.key = key) :
    Ends (fun _ => True) (fun w' => w'.key = key) (udpFits s w) := by
  rw [udpFits]
  split
  · trivial
  · exact h

theorem Call.build_ends (s : Settings) (call : Call) :
    Ends (fun _ => True) (fun w => w.key = s.ns.bytes ++ call.key) (call.build s) := by
  cases call with
  | send key value expiration flags cas verb =>
    refine Ends.seq fun _ => Ends.seq fun flagsText => Ends.seq fun expirationText => ?_
    refine Ends.seq fun valueText => Ends.seq fun casText => ?_
    exact udpFits_ends rfl
  | get key =>
    refine Ends.seq fun _ => ?_
    rfl
  | gat key expiration =>
    refine Ends.seq fun _ => Ends.seq fun expirationText => ?_
    rfl
  | delete key expiration =>
    refine Ends.seq fun _ => ?_
    split
    · trivial
    · exact udpFits_ends rfl
  | incrDecr verb key offset initial =>
    refine Ends.seq fun _ => Ends.seq fun offsetText => Ends.seq fun initialText => ?_
    rfl
  | touch key expiration =>
    refine Ends.seq fun _ => Ends.seq fun expirationText => ?_
    exact udpFits_ends rfl
  | exist key =>
    refine Ends.seq fun _ => ?_
    split
    · trivial
    · rfl

end ArcusClient.Keys
