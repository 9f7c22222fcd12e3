import ArcusClient.Collection.Request

/-!
# Replies to storage commands

A server that follows the text protocol answers a storage command with one line, a `StoreReply`.  The
client reads it as the code it stands for (`textual_text`), so that `STORED` alone is read as
`MEMCACHED_STORED`, and none as `MEMCACHED_SUCCESS` (`read_spec`).  In the binary protocol, an item that
is stored is reported with `MEMCACHED_SUCCESS`, and nothing with `MEMCACHED_STORED` (`binary_codes`).
-/

namespace ArcusClient.Store

open CString Coll

/-- `memcached_failed`. -/
def memcachedFailed : ReturnT → Bool
  | .success | .endOfReply | .stored | .stat | .deleted | .buffered | .value => false
  | _ => true

structure Reading where
  rc : ReturnT
  /-- The reply goes on, and `cursor_active` is incremented again. -/
  goesOn : Bool

/-! ## The text protocol -/

/-- The size of the buffer for a line, `MEMCACHED_DEFAULT_COMMAND_SIZE`. -/
def lineBuffer : Nat := 512

/-- `sscanf(buffer, "%llu", ...)` finds a number. -/
def scansNumber (line : List Byte) : Bool :=
  let line := line.dropWhile fun b => b.1 == 32 || (9 ≤ b.1 && b.1 ≤ 13)
  let line := match line with
    | b :: rest => if b.1 == 43 || b.1 == 45 then rest else line
    | [] => []
  line.head?.any fun b => 48 ≤ b.1 && b.1 ≤ 57

def begins (word : List Char) (line : List Byte) : Bool := (bytesOf (lit word)).isPrefixOf line

/-- `" object too large for cache"`. -/
def tooLarge : List Char :=
  [' ', 'o', 'b', 'j', 'e', 'c', 't', ' ', 't', 'o', 'o', ' ', 'l', 'a', 'r', 'g', 'e', ' ',
    'f', 'o', 'r', ' ', 'c', 'a', 'c', 'h', 'e']

def serverErrorWord : List Char := ['S', 'E', 'R', 'V', 'E', 'R', '_', 'E', 'R', 'R', 'O', 'R']

def clientErrorWord : List Char := ['C', 'L', 'I', 'E', 'N', 'T', '_', 'E', 'R', 'R', 'O', 'R']

/-- The code for an error of the server or of the client.  Old servers report an item that is too
large in this way. -/
def errorCode (word : List Char) (line : List Byte) (rc : ReturnT) : ReturnT :=
  if begins (word ++ tooLarge) line then .e2big else rc

/-- `textual_read_one_response` for a line, `\r\n` included.  `inSaslMech` is a member of the
server.  Some replies go on after the line; `rest` is the code of the function that reads on. -/
def textualReadOneResponse (inSaslMech : Bool) (rest : ReturnT) (line : List Byte) : Reading :=
  if lineBuffer ≤ line.length then ⟨.protocolError, false⟩
  else match line.head?.map Fin.val with
  | some 86 /- V -/ =>
    if begins ['V', 'A', 'L', 'U', 'E'] line then ⟨rest, true⟩
    else if begins ['V', 'E', 'R', 'S', 'I', 'O', 'N'] line then ⟨rest, false⟩
    else ⟨.undefinedResponse, false⟩
  | some 79 /- O -/ =>
    if begins ['O', 'K'] line then ⟨.success, false⟩ else ⟨.undefinedResponse, false⟩
  | some 83 /- S -/ =>
    if begins ['S', 'T', 'A', 'T'] line then ⟨.stat, true⟩
    else if begins serverErrorWord line then ⟨errorCode serverErrorWord line .serverError, false⟩
    else if begins ['S', 'T', 'O', 'R', 'E', 'D'] line then ⟨.stored, false⟩
    else if begins ['S', 'A', 'S', 'L', '_', 'M', 'E', 'C', 'H'] line then ⟨.success, false⟩
    else if begins ['S', 'A', 'S', 'L', '_', 'C', 'O', 'N', 'T', 'I', 'N', 'U', 'E'] line then
      ⟨rest, false⟩
    else if begins ['S', 'A', 'S', 'L', '_', 'O', 'K'] line then ⟨.success, false⟩
    else if begins ['S', 'W', 'I', 'T', 'C', 'H', 'O', 'V', 'E', 'R'] line then ⟨.switchover, false⟩
    else ⟨.undefinedResponse, false⟩
  | some 68 /- D -/ =>
    if begins ['D', 'E', 'L', 'E', 'T', 'E', 'D'] line then ⟨.deleted, false⟩
    else ⟨.undefinedResponse, false⟩
  | some 78 /- N -/ =>
    if begins ['N', 'O', 'T', '_', 'F', 'O', 'U', 'N', 'D'] line then ⟨.notfound, false⟩
    else if begins ['N', 'O', 'T', '_', 'S', 'T', 'O', 'R', 'E', 'D'] line then ⟨.notStored, false⟩
    else if begins ['N', 'O', 'T', '_', 'S', 'U', 'P', 'P', 'O', 'R', 'T', 'E', 'D'] line then
      ⟨.notSupported, false⟩
    else ⟨.undefinedResponse, false⟩
  | some 82 /- R -/ =>
    if begins ['R', 'E', 'P', 'L', '_', 'S', 'L', 'A', 'V', 'E'] line then ⟨.replSlave, false⟩
    else ⟨.undefinedResponse, false⟩
  | some 85 /- U -/ =>
    if begins ['U', 'N', 'R', 'E', 'A', 'D', 'A', 'B', 'L', 'E'] line then ⟨.unreadable, false⟩
    else ⟨.undefinedResponse, false⟩
  | some 69 /- E -/ =>
    if begins ['E', 'N', 'D'] line then ⟨.endOfReply, false⟩
    else if begins ['E', 'R', 'R', 'O', 'R'] line then
      ⟨if inSaslMech then .notSupported else .protocolError, false⟩
    else if begins ['E', 'X', 'I', 'S', 'T', 'S'] line then ⟨.dataExists, false⟩
    else ⟨.undefinedResponse, false⟩
  | some 73 /- I -/ =>
    if begins ['I', 'T', 'E', 'M'] line then ⟨.item, true⟩
    else if begins ['I', 'N', 'V', 'A', 'L', 'I', 'D'] line then ⟨.invalidCommand, false⟩
    else ⟨.undefinedResponse, false⟩
  | some 84 /- T -/ =>
    if begins ['T', 'Y', 'P', 'E', '_', 'M', 'I', 'S', 'M', 'A', 'T', 'C', 'H'] line then
      ⟨.typeMismatch, false⟩
    else if begins ['T', 'O', 'U', 'C', 'H', 'E', 'D'] line then ⟨.success, false⟩
    else ⟨.undefinedResponse, false⟩
  | some 67 /- C -/ =>
    if begins clientErrorWord line then ⟨errorCode clientErrorWord line .clientError, false⟩
    else ⟨.undefinedResponse, false⟩
  | some 65 /- A -/ =>
    if begins ['A', 'U', 'T', 'H', '_', 'E', 'R', 'R', 'O', 'R'] line then ⟨.authFailure, false⟩
    else ⟨.undefinedResponse, false⟩
  | _ => if scansNumber line then ⟨.success, false⟩ else ⟨.undefinedResponse, false⟩

theorem errorCode_cases (word : List Char) (line : List Byte) (rc : ReturnT) :
    errorCode word line rc = .e2big ∨ errorCode word line rc = rc := by
  rw [errorCode]
  split
  · exact .inl rfl
  · exact .inr rfl

theorem textual_ne_maximumReturn (inSaslMech : Bool) (hr : rest ≠ .maximumReturn)
    (line : List Byte) : (textualReadOneResponse inSaslMech rest line).rc ≠ .maximumReturn := by
  have he (word : List Char) {rc : ReturnT} (hrc : rc ≠ .maximumReturn) :
      errorCode word line rc ≠ .maximumReturn := by
    rcases errorCode_cases word line rc with h | h <;> rw [h]
    · decide
    · exact hrc
  rw [textualReadOneResponse]
  repeat' split
  all_goals first
    | exact hr
    | exact he _ (by decide)
    | decide

inductive StoreReply where
  | stored | notStored | exists | notFound | typeMismatch | notSupported | unreadable | authError
  | serverError (message : CStr)
  | clientError (message : CStr)
  | error (message : CStr)
  | invalid (message : CStr)
  | switchover (peer : CStr)
  | replSlave (peer : CStr)

namespace StoreReply

def word : StoreReply → List Char
  | .stored => ['S', 'T', 'O', 'R', 'E', 'D']
  | .notStored => ['N', 'O', 'T', '_', 'S', 'T', 'O', 'R', 'E', 'D']
  | .exists => ['E', 'X', 'I', 'S', 'T', 'S']
  | .notFound => ['N', 'O', 'T', '_', 'F', 'O', 'U', 'N', 'D']
  | .typeMismatch => ['T', 'Y', 'P', 'E', '_', 'M', 'I', 'S', 'M', 'A', 'T', 'C', 'H']
  | .notSupported => ['N', 'O', 'T', '_', 'S', 'U', 'P', 'P', 'O', 'R', 'T', 'E', 'D']
  | .unreadable => ['U', 'N', 'R', 'E', 'A', 'D', 'A', 'B', 'L', 'E']
  | .authError => ['A', 'U', 'T', 'H', '_', 'E', 'R', 'R', 'O', 'R']
  | .serverError _ => serverErrorWord
  | .clientError _ => clientErrorWord
  | .error _ => ['E', 'R', 'R', 'O', 'R']
  | .invalid _ => ['I', 'N', 'V', 'A', 'L', 'I', 'D']
  | .switchover _ => ['S', 'W', 'I', 'T', 'C', 'H', 'O', 'V', 'E', 'R']
  | .replSlave _ => ['R', 'E', 'P', 'L', '_', 'S', 'L', 'A', 'V', 'E']

def message : StoreReply → CStr
  | .serverError m | .clientError m | .error m | .invalid m | .switchover m | .replSlave m => m
  | _ => []

def text (r : StoreReply) : List Byte := bytesOf (lit r.word) ++ bytesOf r.message ++ crlf

def code (inSaslMech : Bool) : StoreReply → ReturnT
  | .stored => .stored
  | .notStored => .notStored
  | .exists => .dataExists
  | .notFound => .notfound
  | .typeMismatch => .typeMismatch
  | .notSupported => .notSupported
  | .unreadable => .unreadable
  | .authError => .authFailure
  | .serverError m => errorCode serverErrorWord (text (.serverError m)) .serverError
  | .clientError m => errorCode clientErrorWord (text (.clientError m)) .clientError
  | .error _ => if inSaslMech then .notSupported else .protocolError
  | .invalid _ => .invalidCommand
  | .switchover _ => .switchover
  | .replSlave _ => .replSlave

theorem textual_ofReply {r : StoreReply} (hs : r.text.length < lineBuffer) :
    textualReadOneResponse inSaslMech rest r.text = ⟨r.code inSaslMech, false⟩ := by
  rw [textualReadOneResponse, if_neg (not_le.2 hs)]
  cases r <;> rfl

/-- A line that is too long for its buffer is no reply, so what it says does not count. -/
def read (inSaslMech : Bool) (r : StoreReply) : ReturnT :=
  if lineBuffer ≤ r.text.length then .protocolError else r.code inSaslMech

theorem textual_text (inSaslMech : Bool) (rest : ReturnT) (r : StoreReply) :
    textualReadOneResponse inSaslMech rest r.text = ⟨r.read inSaslMech, false⟩ := by
  by_cases hl : lineBuffer ≤ r.text.length
  · rw [textualReadOneResponse, read, if_pos hl, if_pos hl]
  · rw [read, if_neg hl, textual_ofReply (not_le.1 hl)]

/-- `STORED` alone is read as a success, and every other reply as a failure. -/
theorem read_spec (inSaslMech : Bool) (r : StoreReply) :
    (r.read inSaslMech = .stored ↔ r = .stored) ∧ r.read inSaslMech ≠ .success ∧
      r.read inSaslMech ≠ .maximumReturn := by
  have hl (h : lineBuffer ≤ r.text.length) : r.read inSaslMech = .protocolError := if_pos h
  have hs (h : ¬ lineBuffer ≤ r.text.length) : r.read inSaslMech = r.code inSaslMech := if_neg h
  by_cases h : lineBuffer ≤ r.text.length
  · rw [hl h]
    refine ⟨?_, by decide, by decide⟩
    constructor
    · intro hr
      cases hr
    · rintro rfl
      exact absurd h (by decide)
  · rw [hs h]
    cases r with
    | serverError m =>
      rcases errorCode_cases serverErrorWord (text (.serverError m)) .serverError with hr | hr <;>
        simp [code, hr]
    | clientError m =>
      rcases errorCode_cases clientErrorWord (text (.clientError m)) .clientError with hr | hr <;>
        simp [code, hr]
    | error m => cases inSaslMech <;> simp [code]
    | _ => simp [code]

def switches : StoreReply → Bool
  | .switchover _ | .replSlave _ => true
  | _ => false

end StoreReply

/-! ## The binary protocol -/

/-- The commands of `get_com_code` that have a reply. -/
inductive Opcode where
  | set | add | replace | append | prepend
  deriving DecidableEq

/-- `protocol_binary_response_status`. -/
inductive Status where
  | success | keyEnoent | keyEexists | e2big | einval | notStored | authError | authContinue
  | unknownCommand | enomem | notSupported
  | other (status : UInt16)
  deriving DecidableEq

structure BinaryReply where
  /-- `magic` is `PROTOCOL_BINARY_RES`. -/
  magic : Bool
  opcode : Opcode
  status : Status

/-- `binary_read_one_response`, when what follows the header arrives. -/
def binaryReadOneResponse (inSaslMech : Bool) (r : BinaryReply) : Reading :=
  if !r.magic then ⟨.protocolError, false⟩
  else match r.status with
  | .success | .authContinue =>
    -- The switch over the commands, which all end alike here.
    match r.opcode with
    | .set | .add | .replace | .append | .prepend => ⟨.success, false⟩
  | .keyEnoent => ⟨.notfound, false⟩
  | .keyEexists => ⟨.dataExists, false⟩
  | .notStored => ⟨.notStored, false⟩
  | .notSupported => ⟨.notSupported, false⟩
  | .e2big => ⟨.e2big, false⟩
  | .enomem => ⟨.memoryAllocationFailure, false⟩
  | .authError => ⟨.authFailure, false⟩
  | .unknownCommand => ⟨if inSaslMech then .notSupported else .protocolError, false⟩
  | .einval | .other _ => ⟨.protocolError, false⟩

/-- No reply of the binary protocol is read as `MEMCACHED_STORED`. -/
theorem binary_codes (inSaslMech : Bool) (r : BinaryReply) :
    (binaryReadOneResponse inSaslMech r).rc ≠ .stored ∧
      (binaryReadOneResponse inSaslMech r).rc ≠ .maximumReturn := by
  obtain ⟨magic, opcode, status⟩ := r
  cases magic with
  | false => simp [binaryReadOneResponse]
  | true => cases status <;> cases opcode <;> cases inSaslMech <;> simp [binaryReadOneResponse]

end ArcusClient.Store
