import ArcusClient.Collection.Request
import ArcusClient.Lib.Runs

/-!
# Piped insertion

`do_coll_piped_insert` inserts a list of items with one key.  A *batch* of items is answered with
one reply: the number of the status lines, the lines, and a closing line.  A batch of one item is an
ordinary request.  A replica that is no longer the master answers with `SWITCHOVER` or `REPL_SLAVE`
and stops there.  The client turns to the new master and goes back to the item that was not done.

One *turn* of the loop is a function of what the network and the replica do in it (`turn`).  Beside
the variables of the source the state has the items in the pipe buffer, those written since the last
reply, and a log of what was sent and answered.
-/

namespace ArcusClient.Coll

open CString

/-- `MEMCACHED_COLL_MAX_PIPED_CMD_SIZE`. -/
def maxPipedCmdSize : Nat := 500

/-- A size as an `int`. -/
def toInt (size : Nat) : Int := Int.bmod size (2 ^ 32)

/-- `size -= 1` for a `size_t`. -/
def sizePred (size : Nat) : Nat := (size + (2 ^ 64 - 1)) % 2 ^ 64

/-- The arguments of `do_coll_piped_insert`.  The value of an item is in its query. -/
structure PipedCall where
  client : Client
  stack : Nat → CStr
  key : KeyMemory
  items : List (Query × Option Hexadecimal)
  attributes : Option CreateAttrs
  verb : Verb

/-- `number_of_piped_items`. -/
def PipedCall.count (call : PipedCall) : Nat := call.items.length

inductive Event where
  /-- Its request is written to the connection. -/
  | sent (item : Nat)
  /-- A replica answers it. -/
  | answered (item : Nat) (status : ReturnT)
  deriving DecidableEq

inductive Phase where
  | looping
  /-- The loop was left with `break`. -/
  | stopped
  /-- It read or wrote past the end of an array. -/
  | outOfBounds
  deriving DecidableEq

structure PipeSt where
  i : Int
  requestedItems : Nat
  rc : ReturnT
  pipeResponsesLength : Nat
  responses : Nat → Option ReturnT
  pipeBufferPos : Nat
  phase : Phase
  /-- The items in the pipe buffer. -/
  buffered : List Nat
  /-- The items written since the last reply. -/
  wire : List Nat
  log : List Event

def pipeStart : PipeSt where
  i := 0
  requestedItems := 0
  rc := .success
  pipeResponsesLength := 0
  responses := fun _ => none
  pipeBufferPos := 0
  phase := .looping
  buffered := []
  wire := []
  log := []

def PipedCall.enters (call : PipedCall) (s : PipeSt) : Prop :=
  s.phase = .looping ∧ s.i < toInt call.count

instance (call : PipedCall) (s : PipeSt) : Decidable (call.enters s) := by
  unfold PipedCall.enters
  infer_instance

/-! ## Sending -/

/-- The flag `piped` for this item: more items of the batch are to come. -/
def PipedCall.more (call : PipedCall) (s : PipeSt) : Bool :=
  !(s.requestedItems == maxPipedCmdSize || s.i + 1 == toInt call.count)

def PipeSt.stop (s : PipeSt) (rc : ReturnT) : PipeSt := { s with rc := rc, phase := .stopped }

def PipeSt.flush (s : PipeSt) (item : Nat) (write : ReturnT) : PipeSt :=
  let items := s.buffered ++ [item]
  let s := { s with log := s.log ++ items.map Event.sent }
  if write = .success then
    { s with rc := .success, wire := s.wire ++ items, buffered := [], pipeBufferPos := 0 }
  else s.stop write

/-- The first part of the body: the request of item `i`.  `write` is the code of
`memcached_vdo`. -/
def sendItem (call : PipedCall) (write : ReturnT) (s : PipeSt) : PipeSt :=
  let s := { s with requestedItems := s.requestedItems + 1 }
  if s.i < 0 then { s with phase := .outOfBounds } else
  let item := s.i.toNat
  match call.items[item]? with
  | none => { s with phase := .outOfBounds }
  | some (query, eflag) =>
    match internalCollPipedInsert { call.client with piped := call.more s } call.stack
        s.pipeBufferPos call.key query eflag call.attributes call.verb with
    | .error (.returns rc) => s.stop rc
    | .error .outOfBounds => { s with phase := .outOfBounds }
    | .ok (.collected _ pos) =>
      { s with rc := .success, buffered := s.buffered ++ [item], pipeBufferPos := pos }
    | .ok (.flushed _) => s.flush item write

/-! ## Reading a reply -/

/-- A line of a reply: its status, or the code with which `memcached_io_readline` fails. -/
abbrev Line := Except ReturnT ReturnT

inductive Answer where
  /-- One status line. -/
  | line (status : ReturnT)
  /-- `RESPONSE <count>` and the lines after it. -/
  | response (count : Nat) (lines : List Line)
  /-- The first line cannot be read. -/
  | failed (rc : ReturnT)

/-- `memcached_io_readline`.  No more lines come. -/
def readline : List Line → Line × List Line
  | [] => (.error .timeout, [])
  | line :: rest => (line, rest)

/-- The codes after which the client turns to another server. -/
def isSwitch (rc : ReturnT) : Bool := rc = .switchover || rc = .replSlave

/-- The variables of `textual_coll_piped_response_fetch`. -/
structure FetchSt where
  i : Nat
  responses : Nat → Option ReturnT
  switchoverRc : ReturnT
  /-- The code of `memcached_io_readline` that ended the loop. -/
  readRc : ReturnT
  lines : List Line

/-- The loop over the status lines, with `left` of them to go. -/
def fetchStatuses (offset : Nat) : (left : Nat) → FetchSt → FetchSt
  | 0, f => f
  | left + 1, f =>
    match readline f.lines with
    | (.error rc, rest) => { f with readRc := rc, lines := rest }
    | (.ok status, rest) =>
      fetchStatuses offset left
        { f with
          i := f.i + 1
          responses := Function.update f.responses ((offset + f.i) % 2 ^ 64) (some status)
          switchoverRc := if isSwitch status then status else f.switchoverRc
          lines := rest }

/-- `textual_coll_piped_response_fetch`. -/
def textualCollPipedResponseFetch (count : Nat) (lines : List Line) (s : PipeSt) :
    ReturnT × PipeSt :=
  let f := fetchStatuses s.pipeResponsesLength count ⟨0, s.responses, .success, .success, lines⟩
  let s := { s with
    responses := f.responses
    pipeResponsesLength := (s.pipeResponsesLength + f.i) % 2 ^ 64 }
  if f.i < count ∧ f.readRc ≠ .success then (f.readRc, s)
  else
    match (readline f.lines).1 with
    | .error rc => (rc, s)
    | .ok rc =>
      if f.switchoverRc ≠ .success ∧ rc = .pipeErrorBadError then (f.switchoverRc, s) else (rc, s)

/-- `memcached_coll_response` for a reply to this function's requests. -/
def collResponse (answer : Answer) (s : PipeSt) : ReturnT × PipeSt :=
  match answer with
  | .line status => (status, s)
  | .response count lines => textualCollPipedResponseFetch count lines s
  | .failed rc => (rc, s)

def Answer.statuses : Answer → List ReturnT
  | .line status => [status]
  | .response count lines => (lines.take count).filterMap Except.toOption
  | .failed _ => []

def PipeSt.record (s : PipeSt) (answer : Answer) : PipeSt :=
  { s with log := s.log ++ List.zipWith Event.answered s.wire answer.statuses, wire := [] }

/-- The end of the body if the client does not turn to another server.  A batch of one item is done
with the `accepted` codes. -/
def settleWith (accepted : ReturnT → Prop) [DecidablePred accepted] (rc : ReturnT) (s : PipeSt) :
    PipeSt :=
  let (rc, s) :=
    if s.requestedItems = 1 then
      (if accepted rc then .success else rc, { s with
          responses := Function.update s.responses s.pipeResponsesLength (some rc)
          pipeResponsesLength := (s.pipeResponsesLength + 1) % 2 ^ 64 })
    else (if rc = .endOfReply then .success else rc, s)
  if rc ≠ .success then s.stop rc
  else { s with rc := rc, requestedItems := 0, i := s.i + 1 }

def settle : ReturnT → PipeSt → PipeSt := settleWith fun rc => rc = .stored ∨ rc = .createdStored

/-- The client goes back to the last item that a status was read for. -/
def rewind (s : PipeSt) : PipeSt :=
  let length := sizePred s.pipeResponsesLength
  { s with pipeResponsesLength := length, i := toInt (sizePred length) + 1, requestedItems := 0 }

/-- The second part of the body, after the last item of a batch.  `switched` is the result of
`memcached_rgroup_switchover`. -/
def receive (answer : Answer) (switched : Bool) (s : PipeSt) : PipeSt :=
  let (rc, s) := collResponse answer (s.record answer)
  if isSwitch rc && switched then rewind { s with rc := rc } else settle rc s

/-! ## The loop -/

structure Turn where
  write : ReturnT
  answer : Answer
  switched : Bool

def turn (call : PipedCall) (env : Turn) (s : PipeSt) : PipeSt :=
  let sending := { s with requestedItems := s.requestedItems + 1 }
  let s := sendItem call env.write s
  if s.phase ≠ .looping then s
  else if call.more sending then { s with i := s.i + 1 }
  else receive env.answer env.switched s

/-- `do_aggregate_pipe_responses` for insertions, over the statuses that were read. -/
def aggregateInserts (res : ReturnT) : List (Option ReturnT) → ReturnT
  | [] => res
  | status :: rest =>
    if status = some .stored ∨ status = some .createdStored then
      if res = .maximumReturn then aggregateInserts .allSuccess rest
      else if res = .allFailure then .someSuccess
      else aggregateInserts res rest
    else
      if res = .maximumReturn then aggregateInserts .allFailure rest
      else if res ≠ .allFailure then .someSuccess
      else aggregateInserts res rest

structure PipedResult where
  rc : ReturnT
  pipedRc : ReturnT
  responses : Nat → Option ReturnT

def finish (call : PipedCall) (s : PipeSt) : PipedResult where
  rc := s.rc
  pipedRc := aggregateInserts (if s.rc ≠ .success then .allFailure else .maximumReturn)
    ((List.range s.pipeResponsesLength).map s.responses)
  responses := fun item =>
    if s.rc ≠ .success ∧ s.pipeResponsesLength ≤ item ∧ item < call.count then some .maximumReturn
    else s.responses item

def PipedCall.returns (call : PipedCall) (s : PipeSt) : Prop :=
  s.phase ≠ .outOfBounds ∧ ¬call.enters s

end ArcusClient.Coll
