import ArcusClient.Collection.Elements
import ArcusClient.Store.SendMulti

/-!
# Status lines of collection commands

`textual_read_one_coll_response` tests whether a line begins with a word.
`get_status_of_coll_pipe_response`, for the lines of a pipe, compares as many bytes with the word as
the line has, so that nothing may follow it.  But a server may name the new master after `SWITCHOVER`
or `REPL_SLAVE`.  Within a pipe such a line is not understood (`notice_in_pipe_iff`).
-/

namespace ArcusClient.Coll

open CString Store

variable {α : Type}

/-- `memcmp(string, word, length)`, for a string of this length and a word in the program.  After the word
there is its zero byte; a string that is longer than that is taken to differ. -/
def sameBytes (word : List Char) (string : List Byte) : Bool :=
  string == (bytesOf (lit word) ++ [0]).take string.length

/-- `get_status_of_coll_pipe_response` for a line, `\r\n` included. -/
def getStatusOfCollPipeResponse (server : ServerSt α) (line : List Byte) : ReturnT × ServerSt α :=
  let string := line.take (line.length - 2)
  let is (word : List Char) : Bool := string == bytesOf (lit word)
  match line.head?.map Fin.val with
  | some 80 /- P -/ =>
    if is "PIPE_ERROR command overflow".toList then (.pipeErrorCommandOverflow, server)
    else if is "PIPE_ERROR memory overflow".toList then (.pipeErrorMemoryOverflow, server)
    else if is "PIPE_ERROR bad error".toList then (.pipeErrorBadError, server)
    else (.undefinedResponse, server)
  | some 79 /- O -/ =>
    if is "OUT_OF_RANGE".toList then (.outOfRange, server)
    else if is "OVERFLOWED".toList then (.overflowed, server)
    else (.undefinedResponse, server)
  | some 83 /- S -/ =>
    if is "STORED".toList then (.stored, server)
    else if 10 ≤ string.length && sameBytes "SWITCHOVER".toList string then
      (.switchover, server.peerCheck (line.drop 10))
    else if 12 < string.length && begins serverErrorWord line then (.serverError, server)
    else (.undefinedResponse, server)
  | some 68 /- D -/ =>
    if is "DELETED".toList then (.deleted, server)
    else if is "DELETED_DROPPED".toList then (.deletedDropped, server)
    else (.undefinedResponse, server)
  | some 78 /- N -/ =>
    if is "NOT_FOUND_ELEMENT".toList then (.notfoundElement, server)
    else if is "NOT_FOUND".toList then (.notfound, server)
    else if is "NOT_SUPPORTED".toList then (.notSupported, server)
    else if is "NOT_EXIST".toList then (.notExist, server)
    else (.undefinedResponse, server)
  | some 82 /- R -/ =>
    if is "REPLACED".toList then (.replaced, server)
    else if 10 ≤ string.length && sameBytes "REPL_SLAVE".toList string then
      (.replSlave, server.peerCheck (line.drop 10))
    else (.undefinedResponse, server)
  | some 85 /- U -/ =>
    if is "UPDATED".toList then (.updated, server)
    else if is "UNREADABLE".toList then (.unreadable, server)
    else (.undefinedResponse, server)
  | some 69 /- E -/ =>
    if is "END".toList then (.endOfReply, server)
    else if is "EFLAG_MISMATCH".toList then (.eflagMismatch, server)
    else if is "EXIST".toList then (.exist, server)
    else if is "ELEMENT_EXISTS".toList then (.elementExists, server)
    else if 5 < string.length && begins "ERROR".toList line then (.protocolError, server)
    else (.undefinedResponse, server)
  | some 84 /- T -/ =>
    if is "TYPE_MISMATCH".toList then (.typeMismatch, server) else (.undefinedResponse, server)
  | some 67 /- C -/ =>
    if 12 < string.length && begins clientErrorWord line then (.clientError, server)
    else if is "CREATED_STORED".toList then (.createdStored, server)
    else (.undefinedResponse, server)
  | some 66 /- B -/ =>
    if is "BKEY_MISMATCH".toList then (.bkeyMismatch, server) else (.undefinedResponse, server)
  | some 73 /- I -/ =>
    if 7 < string.length && begins "INVALID".toList line then (.invalidCommand, server)
    else (.undefinedResponse, server)
  | _ => (.undefinedResponse, server)

/-- A status line is read from the connection, as in `textual_coll_piped_response_fetch`. -/
def readPipeStatus (server : ServerSt α) (line : List Byte) : ReturnT × ServerSt α :=
  if lineBuffer ≤ line.length then (.protocolError, server)
  else getStatusOfCollPipeResponse server line

structure CollReading (α : Type) where
  rc : ReturnT
  server : ServerSt α
  /-- `btree_position` of the result, if it is set. -/
  btreePosition : Option Nat := none
  /-- `collection_count` of the result, if it is set. -/
  collectionCount : Option Nat := none

/-- `memcached_server_response_increment`. -/
def responseIncrement (server : ServerSt α) : ServerSt α :=
  { server with cursorActive := server.cursorActive + 1 }

/-- The number after `=`, which is overwritten with a space. -/
def parseNumberAfter (length : Nat) (line : List Byte) : Option Nat :=
  (parseResponseUint32Value 1 (spaceByte :: line.drop length)).bind List.head?

/-- `textual_read_one_coll_response` for a line, `\r\n` included.  Some replies go on after the
line; `rest` is the code of the function that reads on. -/
def textualReadOneCollResponse (rest : ReturnT) (server : ServerSt α) (line : List Byte) :
    CollReading α :=
  if lineBuffer ≤ line.length then ⟨.protocolError, server, none, none⟩
  else
  let same (rc : ReturnT) : CollReading α := ⟨rc, server, none, none⟩
  let goesOn (rc : ReturnT) : CollReading α := ⟨rc, responseIncrement server, none, none⟩
  let peer (rc : ReturnT) : CollReading α := ⟨rc, server.peerCheck (line.drop 10), none, none⟩
  match line.head?.map Fin.val with
  | some 65 /- A -/ =>
    if begins "ATTR ".toList line then goesOn .attr
    else if begins "ATTR_MISMATCH".toList line then same .attrMismatch
    else if begins "ATTR_ERROR not found".toList line then same .attrErrorNotFound
    else if begins "ATTR_ERROR bad value".toList line then same .attrErrorBadValue
    else same .undefinedResponse
  | some 86 /- V -/ =>
    if begins "VALUE".toList line then goesOn rest else same .undefinedResponse
  | some 80 /- P -/ =>
    if begins "POSITION=".toList line then
      match parseNumberAfter 9 line with
      | none => same .partialRead
      | some position => { same .position with btreePosition := some position }
    else if begins "PIPE_ERROR command overflow".toList line then same .pipeErrorCommandOverflow
    else if begins "PIPE_ERROR memory overflow".toList line then same .pipeErrorMemoryOverflow
    else if begins "PIPE_ERROR bad error".toList line then same .pipeErrorBadError
    else same .undefinedResponse
  | some 79 /- O -/ =>
    if begins "OK".toList line then same .success
    else if begins "OUT_OF_RANGE".toList line then same .outOfRange
    else if begins "OVERFLOWED".toList line then same .overflowed
    else same .undefinedResponse
  | some 83 /- S -/ =>
    if begins "STORED".toList line then same .stored
    else if begins "STAT".toList line then goesOn .stat
    else if begins serverErrorWord line then same (errorCode serverErrorWord line .serverError)
    else if begins "SWITCHOVER".toList line then peer .switchover
    else same .undefinedResponse
  | some 68 /- D -/ =>
    if begins "DELETED\r".toList line then same .deleted
    else if begins "DELETED_DROPPED".toList line then same .deletedDropped
    else same .undefinedResponse
  | some 78 /- N -/ =>
    if begins "NOT_FOUND_ELEMENT".toList line then same .notfoundElement
    else if begins "NOT_FOUND".toList line then same .notfound
    else if begins "NOT_STORED".toList line then same .notStored
    else if begins "NOT_SUPPORTED".toList line then same .notSupported
    else if begins "NOT_EXIST".toList line then same .notExist
    else same .undefinedResponse
  | some 82 /- R -/ =>
    if begins "REPL_SLAVE".toList line then peer .replSlave
    else if begins "REPLACED".toList line then same .replaced
    else if begins "RESPONSE".toList line then same rest
    else same .undefinedResponse
  | some 85 /- U -/ =>
    if begins "UPDATED".toList line then same .updated
    else if begins "UNREADABLE".toList line then same .unreadable
    else same .undefinedResponse
  | some 69 /- E -/ =>
    if begins "END".toList line then same .endOfReply
    else if begins "EFLAG_MISMATCH".toList line then same .eflagMismatch
    else if begins "ERROR".toList line then same .protocolError
    else if begins "EXISTS".toList line then same .exists
    else if begins "EXIST\r".toList line then same .exist
    else if begins "EXIST".toList line then same .dataExists
    else if begins "ELEMENT_EXISTS".toList line then same .elementExists
    else same .undefinedResponse
  | some 84 /- T -/ =>
    if begins "TRIMMED".toList line then same .trimmed
    else if begins "TYPE_MISMATCH".toList line then same .typeMismatch
    else same .undefinedResponse
  | some 73 /- I -/ =>
    if begins "ITEM".toList line then goesOn .item
    else if begins "INVALID".toList line then same .invalidCommand
    else same .undefinedResponse
  | some 67 /- C -/ =>
    if begins "CREATED\r".toList line then same .created
    else if begins "CREATED_STORED".toList line then same .createdStored
    else if begins "COUNT=".toList line then
      match parseNumberAfter 6 line with
      | none => same .partialRead
      | some count => { same .count with collectionCount := some count }
    else if begins clientErrorWord line then same (errorCode clientErrorWord line .clientError)
    else same .undefinedResponse
  | some 66 /- B -/ =>
    if begins "BKEY_MISMATCH".toList line then same .bkeyMismatch else same .undefinedResponse
  | _ => if scansNumber line then same .success else same .undefinedResponse

/-! ## Notices -/

inductive Notice where
  | switchover
  | replSlave

def Notice.word : Notice → List Char
  | .switchover => "SWITCHOVER".toList
  | .replSlave => "REPL_SLAVE".toList

def Notice.code : Notice → ReturnT
  | .switchover => .switchover
  | .replSlave => .replSlave

def peerText : Option (List Byte) → List Byte
  | none => []
  | some peer => spaceByte :: peer

def Notice.line (notice : Notice) (peer : Option (List Byte)) : List Byte :=
  bytesOf (lit notice.word) ++ peerText peer ++ crlf

theorem Notice.line_take (notice : Notice) (peer : Option (List Byte)) :
    (notice.line peer).take ((notice.line peer).length - 2) =
      bytesOf (lit notice.word) ++ peerText peer := by
  rw [Notice.line, List.length_append]
  exact List.take_left

theorem textualReadOneCollResponse_notice (rest : ReturnT) (server : ServerSt α) (notice : Notice)
    (hs : (notice.line peer).length < lineBuffer) :
    textualReadOneCollResponse rest server (notice.line peer) =
      ⟨notice.code, server.peerCheck (peerText peer ++ crlf), none, none⟩ := by
  rw [textualReadOneCollResponse, if_neg (not_le.2 hs)]
  cases notice <;> rfl

theorem getStatusOfCollPipeResponse_notice_none (server : ServerSt α) (notice : Notice) :
    getStatusOfCollPipeResponse server (notice.line none) =
      (notice.code, server.peerCheck crlf) := by
  cases notice <;> rfl

/-- The space before the name is compared with the end of the word. -/
theorem getStatusOfCollPipeResponse_notice_some (server : ServerSt α) (notice : Notice)
    (peer : List Byte) :
    getStatusOfCollPipeResponse server (notice.line (some peer)) =
      (.undefinedResponse, server) := by
  rw [getStatusOfCollPipeResponse, Notice.line_take]
  -- whatever the tests of the length say, the bytes differ
  generalize decide (10 ≤ (bytesOf (lit notice.word) ++ peerText (some peer)).length) = enough
  generalize decide (12 < (bytesOf (lit notice.word) ++ peerText (some peer)).length) = room
  cases notice <;> cases enough <;> cases room <;> rfl

theorem Notice.code_ne (notice : Notice) : notice.code ≠ .undefinedResponse := by
  cases notice <;> decide

/-- A notice means the same within a pipe and outside of it just if it names no server.  A line that is
too long for the buffer is read by neither of them. -/
theorem notice_in_pipe_iff (rest : ReturnT) (server : ServerSt α) (notice : Notice)
    (peer : Option (List Byte)) : ((readPipeStatus server (notice.line peer)).1 =
        (textualReadOneCollResponse rest server (notice.line peer)).rc ∧
      (readPipeStatus server (notice.line peer)).2.switchoverSidx =
        (textualReadOneCollResponse rest server (notice.line peer)).server.switchoverSidx ∧
      (readPipeStatus server (notice.line peer)).2.switchoverPeer =
        (textualReadOneCollResponse rest server (notice.line peer)).server.switchoverPeer) ↔
      peer = none ∨ lineBuffer ≤ (notice.line peer).length := by
  by_cases hl : lineBuffer ≤ (notice.line peer).length
  · simp [readPipeStatus, textualReadOneCollResponse, hl]
  · rw [readPipeStatus, if_neg hl,
      textualReadOneCollResponse_notice rest server notice (not_le.1 hl)]
    cases peer with
    | none => simp [getStatusOfCollPipeResponse_notice_none, peerText]
    | some peer => simp [getStatusOfCollPipeResponse_notice_some, hl, notice.code_ne.symm]

/-- The notice `SWITCHOVER a:1`. -/
theorem notice_with_peer_differs :
    getStatusOfCollPipeResponse (α := Unit) ⟨0, [], false, .maximumReturn, 0, [], 0⟩
        (Notice.line .switchover (some (bytesOf (lit "a:1".toList)))) =
      (.undefinedResponse, ⟨0, [], false, .maximumReturn, 0, [], 0⟩) ∧
    textualReadOneCollResponse (α := Unit) .success ⟨0, [], false, .maximumReturn, 0, [], 0⟩
        (Notice.line .switchover (some (bytesOf (lit "a:1".toList)))) =
      ⟨.switchover, ⟨0, [], false, .maximumReturn, -1, lit "a:1".toList, 0⟩, none, none⟩ := by
  exact ⟨rfl, rfl⟩

end ArcusClient.Coll
