import ArcusClient.Collection.PipedInsert
import ArcusClient.Collection.MultiKey
import ArcusClient.Lib.Scatter

/-!
# Insertion under many keys

`do_coll_piped_insert_bulk` inserts one element under many keys.  The places of the keys are put into
an index array for each server, and the servers are visited one after another, with the loop of
`do_coll_piped_insert`.  The replies of all servers go to one array `responses`, which is not cleared
between servers.  After each loop its entries are copied to `results`, each to the place of its key.

The turns of the loops and the order of the servers are arguments of the model.  A negative index,
after a switchover for a batch of one key, stops it.
-/

namespace ArcusClient.Coll

open CString Scatter

/-! ## Index arrays -/

/-- `memcached_index_array_st`.  Its cursor is the length of the list. -/
structure IndexArray where
  size : Nat
  indexList : List Nat

/-- `memcached_index_array_create`. -/
def IndexArray.create (size : Nat) : IndexArray := ⟨size, []⟩

/-- `memcached_index_array_push`. -/
def IndexArray.push (array : IndexArray) (v : Nat) : Option IndexArray :=
  if array.indexList.length = array.size then none
  else some { array with indexList := array.indexList ++ [v] }

/-! ## Calls -/

/-- The arguments of `do_coll_piped_insert_bulk`. -/
structure BulkCall where
  client : Client
  stack : Nat → CStr
  keys : List KeyMemory
  query : Query
  eflag : Option Hexadecimal
  attributes : Option CreateAttrs
  verb : Verb
  /-- `key_to_serverkey`. -/
  serverOf : Nat → Nat
  serverOf_lt : ∀ x, serverOf x < client.serverCount

inductive BulkFault where
  /-- The function returns before it sends anything. -/
  | returns (refusal : Refusal)
  /-- The counter of the keys is a `uint32_t`, and its loop never ends. -/
  | endless
  /-- An entry of `numkeys`, which is an `int32_t`, overflows. -/
  | overflow
  /-- It reads or writes past the end of an array. -/
  | outOfBounds
  /-- There are no more turns. -/
  | waiting

namespace BulkCall

variable (call : BulkCall)

def check : Except Refusal Unit := do
  beforeQueryKeys call.client (call.keys.map KeyMemory.bytes)
  if Keys.maxServersForMultiKeyOperation < call.client.serverCount then refuse .invalidArguments
  else .ok ()

/-- `numkeys`, as long as no entry overflows. -/
def numkeys : Nat → Nat := tally call.serverOf (fun _ => 1) (List.range call.keys.length)

def distribute : List Nat → (Nat → IndexArray) → Option (Nat → IndexArray)
  | [], arrays => some arrays
  | x :: rest, arrays =>
    match (arrays (call.serverOf x)).push x with
    | none => none
    | some array => distribute rest (Function.update arrays (call.serverOf x) array)

/-- `server_to_keys`. -/
def serverToKeys : Except BulkFault (Nat → IndexArray) :=
  if 2 ^ 32 ≤ call.keys.length then .error .endless
  else if ∃ i < call.client.serverCount, 2 ^ 31 ≤ call.numkeys i then .error .overflow
  else
    match call.distribute (List.range call.keys.length) fun i => .create (call.numkeys i) with
    | none => .error (.returns (.returns .failure))
    | some arrays => .ok arrays

end BulkCall

/-! ## One server -/

/-- The variables of the loop over the keys of a server. -/
structure BulkPipe where
  pipe : PipeSt
  successOccurred : Bool

namespace BulkCall

variable (call : BulkCall)

/-- The body of the loop is that of `do_coll_piped_insert`, for the key at the place `j` of the
index array and as many items as there are in it. -/
def item (indexList : List Nat) (j : Int) : PipedCall where
  client := call.client
  stack := call.stack
  key := ((indexList[j.toNat]?).bind fun x => call.keys[x]?).getD ⟨[], []⟩
  items := indexList.map fun _ => (call.query, if call.verb = .bopInsert then call.eflag else none)
  attributes := call.attributes
  verb := call.verb

end BulkCall

/-- The second part of the body, with `true` if `success_occurred` is set in it. -/
def bulkReceive (answer : Answer) (switched : Bool) (s : PipeSt) : PipeSt × Bool :=
  let (rc, s) := collResponse answer (s.record answer)
  if isSwitch rc && switched then (rewind { s with rc := rc }, false)
  else
    let s := settle rc s
    (s, s.phase = .looping)

theorem bulkReceive_fst (answer : Answer) (switched : Bool) (s : PipeSt) :
    (bulkReceive answer switched s).1 = receive answer switched s := by
  simp only [bulkReceive, receive]
  split_ifs <;> rfl

namespace BulkCall

variable (call : BulkCall)

def turn (indexList : List Nat) (env : Turn) (s : BulkPipe) : BulkPipe :=
  let item := call.item indexList s.pipe.i
  let sending := { s.pipe with requestedItems := s.pipe.requestedItems + 1 }
  let pipe := sendItem item env.write s.pipe
  if pipe.phase ≠ .looping then { s with pipe := pipe }
  else if item.more sending then { s with pipe := { pipe with i := pipe.i + 1 } }
  else
    let (pipe, success) := bulkReceive env.answer env.switched pipe
    ⟨pipe, s.successOccurred || success⟩

theorem turn_pipe (indexList : List Nat) (env : Turn) (s : BulkPipe) :
    (call.turn indexList env s).pipe = Coll.turn (call.item indexList s.pipe.i) env s.pipe := by
  simp only [turn, Coll.turn, ← bulkReceive_fst]
  split_ifs <;> rfl

def enters (indexList : List Nat) (s : PipeSt) : Prop :=
  s.phase = .looping ∧ s.i < toInt indexList.length

instance (indexList : List Nat) (s : PipeSt) : Decidable (enters indexList s) := by
  unfold enters
  infer_instance

def loop (indexList : List Nat) : List Turn → BulkPipe → Except BulkFault BulkPipe
  | [], s =>
    if enters indexList s.pipe then .error .waiting
    else if s.pipe.phase = .outOfBounds then .error .outOfBounds
    else .ok s
  | env :: rest, s =>
    if enters indexList s.pipe then loop indexList rest (call.turn indexList env s)
    else if s.pipe.phase = .outOfBounds then .error .outOfBounds
    else .ok s

theorem loop_enters (h : enters indexList s.pipe) (env : Turn) (rest : List Turn) :
    call.loop indexList (env :: rest) s = call.loop indexList rest (call.turn indexList env s) := by
  rw [loop, if_pos h]

theorem loop_left (h : ¬enters indexList s.pipe)
    (hb : s.pipe.phase ≠ .outOfBounds) (turns : List Turn) :
    call.loop indexList turns s = .ok s := by
  cases turns <;> rw [loop, if_neg h, if_neg hb]

end BulkCall

/-! ## All servers -/

structure BulkSt where
  rc : ReturnT
  responses : Nat → Option ReturnT
  pipeResponsesLength : Nat
  results : Nat → Option ReturnT
  successOccurred : Bool
  failureOccurred : Bool
  /-- What was sent and answered, with the server and the places of the keys. -/
  log : List (Nat × Event)

def bulkStart : BulkSt where
  rc := .success
  responses := fun _ => some .success
  pipeResponsesLength := 0
  results := fun _ => none
  successOccurred := false
  failureOccurred := false
  log := []

/-- An event of the loop, with the key in place of its place in the index array. -/
def Event.at (indexList : List Nat) : Event → Event
  | .sent item => .sent (indexList.getD item 0)
  | .answered item status => .answered (indexList.getD item 0) status

def scatter (responses : Nat → Option ReturnT) :
    (j : Nat) → List Nat → (Nat → Option ReturnT) → Nat → Option ReturnT
  | _, [], results => results
  | j, x :: rest, results => scatter responses (j + 1) rest (Function.update results x (responses j))

/-- The state before the loop over the keys of a server. -/
def BulkSt.begin (st : BulkSt) : BulkPipe :=
  ⟨{ pipeStart with rc := st.rc, responses := st.responses }, st.successOccurred⟩

/-- The code after the loop over the keys of a server. -/
def BulkSt.leave (st : BulkSt) (i : Nat) (indexList : List Nat) (s : BulkPipe) : BulkSt :=
  let count := indexList.length
  let failed := s.pipe.rc ≠ .success
  let responses := fun j =>
    if failed ∧ s.pipe.pipeResponsesLength ≤ j ∧ j < count then some .maximumReturn
    else s.pipe.responses j
  { rc := s.pipe.rc
    responses := responses
    pipeResponsesLength :=
      if failed then max s.pipe.pipeResponsesLength count else s.pipe.pipeResponsesLength
    results := scatter responses 0 indexList st.results
    successOccurred := s.successOccurred
    failureOccurred := st.failureOccurred || decide failed
    log := st.log ++ s.pipe.log.map fun e => (i, e.at indexList) }

structure BulkResult where
  rc : ReturnT
  pipedRc : ReturnT
  results : Nat → Option ReturnT
  log : List (Nat × Event)

def BulkSt.finish (st : BulkSt) : BulkResult :=
  let rc := if !st.successOccurred then .failure
    else if st.failureOccurred then .someErrors
    else .success
  { rc := rc
    pipedRc := aggregateInserts (if rc ≠ .success then .allFailure else .maximumReturn)
      ((List.range st.pipeResponsesLength).map st.results)
    results := st.results
    log := st.log }

namespace BulkCall

variable (call : BulkCall)

def visit (arrays : Nat → IndexArray) (env : Nat → List Turn) (i : Nat) (st : BulkSt) :
    Except BulkFault BulkSt :=
  if call.numkeys i = 0 then .ok st
  else
    match call.loop (arrays i).indexList (env i) st.begin with
    | .error fault => .error fault
    | .ok s => .ok (st.leave i (arrays i).indexList s)

def visitAll (arrays : Nat → IndexArray) (env : Nat → List Turn) :
    List Nat → BulkSt → Except BulkFault BulkSt
  | [], st => .ok st
  | i :: rest, st =>
    match call.visit arrays env i st with
    | .error fault => .error fault
    | .ok st => visitAll arrays env rest st

def runInOrder (order : List Nat) (env : Nat → List Turn) : Except BulkFault BulkResult :=
  match call.check with
  | .error refusal => .error (.returns refusal)
  | .ok () =>
    match call.serverToKeys with
    | .error fault => .error fault
    | .ok arrays => (call.visitAll arrays env order bulkStart).map BulkSt.finish

/-- `do_coll_piped_insert_bulk`. -/
def doCollPipedInsertBulk (env : Nat → List Turn) : Except BulkFault BulkResult :=
  call.runInOrder (List.range call.client.serverCount) env

end BulkCall

end ArcusClient.Coll
