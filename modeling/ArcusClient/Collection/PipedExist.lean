import ArcusClient.Collection.PipedInsert

/-!
# Piped existence checks, and the bytes of a pipe

`do_coll_piped_exist` asks for each of a list of values if it is in a set, in batches as
`do_coll_piped_insert`.  Its counter is a `size_t`, and it does not turn to another server.

Both collect requests in `pipe_buffer`, and write the buffer together with the first request that does
not go into it.  The bytes are kept beside the state of the loop (`StreamSt`).
-/

namespace ArcusClient.Coll

/-! ## Loops over items -/

/-- What the two functions have of their own: the condition of the loop, the flag `piped`, the
request of an item and what is done with a reply. -/
structure PipeLoop where
  enters : PipeSt → Bool
  more : PipeSt → Bool
  request : PipeSt → Except Refusal Item
  receive : (answer : Answer) → (switched : Bool) → PipeSt → PipeSt

namespace PipeLoop

variable (loop : PipeLoop)

def sendItem (write : ReturnT) (s : PipeSt) : PipeSt :=
  let s := { s with requestedItems := s.requestedItems + 1 }
  match loop.request s with
  | .error (.returns rc) => s.stop rc
  | .error .outOfBounds => { s with phase := .outOfBounds }
  | .ok (.collected _ pos) =>
    { s with rc := .success, buffered := s.buffered ++ [s.i.toNat], pipeBufferPos := pos }
  | .ok (.flushed _) => s.flush s.i.toNat write

def turn (env : Turn) (s : PipeSt) : PipeSt :=
  let sending := { s with requestedItems := s.requestedItems + 1 }
  let s := loop.sendItem env.write s
  if s.phase ≠ .looping then s
  else if loop.more sending then { s with i := s.i + 1 }
  else loop.receive env.answer env.switched s

end PipeLoop

/-- The request of item `i` of an insertion. -/
def PipedCall.request (call : PipedCall) (s : PipeSt) : Except Refusal Item :=
  if s.i < 0 then .error .outOfBounds
  else
    match call.items[s.i.toNat]? with
    | none => .error .outOfBounds
    | some (query, eflag) => internalCollPipedInsert { call.client with piped := call.more s }
        call.stack s.pipeBufferPos call.key query eflag call.attributes call.verb

/-- The loop of `do_coll_piped_insert`. -/
def PipedCall.loop (call : PipedCall) : PipeLoop where
  enters := fun s => call.enters s
  more := call.more
  request := call.request
  receive := Coll.receive

/-! ## Existence checks -/

/-- The arguments of `do_coll_piped_exist`. -/
structure ExistCall where
  client : Client
  key : KeyMemory
  values : List (List Byte)

namespace ExistCall

variable (call : ExistCall)

/-- `number_of_piped_items`. -/
def count : Nat := call.values.length

/-- The flag `piped` for this item. -/
def more (s : PipeSt) : Bool := !(s.requestedItems == maxPipedCmdSize || s.i + 1 == call.count)

/-- The request of item `i`. -/
def request (s : PipeSt) : Except Refusal Item :=
  match call.values[s.i.toNat]? with
  | none => .error .outOfBounds
  | some value => internalCollPipedExist { call.client with piped := call.more s } s.pipeBufferPos
      call.key value .sopExist

def settle : ReturnT → PipeSt → PipeSt := settleWith fun rc => rc = .exist ∨ rc = .notExist

/-- The second part of the body, after the last item of a batch. -/
def receive (answer : Answer) (s : PipeSt) : PipeSt :=
  let (rc, s) := collResponse answer (s.record answer)
  settle rc s

/-- The loop of `do_coll_piped_exist`. -/
def loop : PipeLoop where
  enters := fun s => s.phase = .looping && s.i < call.count
  more := call.more
  request := call.request
  receive := fun answer _ => receive answer

end ExistCall

/-- `do_aggregate_pipe_responses` for existence checks. -/
def aggregateExists (res : ReturnT) : List (Option ReturnT) → ReturnT
  | [] => res
  | some .exist :: rest =>
    if res = .maximumReturn then aggregateExists .allExist rest
    else if res = .allNotExist then aggregateExists .someExist rest
    else if res = .allFailure then .someSuccess
    else aggregateExists res rest
  | some .notExist :: rest =>
    if res = .maximumReturn then aggregateExists .allNotExist rest
    else if res = .allExist then aggregateExists .someExist rest
    else if res = .allFailure then .someSuccess
    else aggregateExists res rest
  | _ :: rest =>
    if res = .maximumReturn then aggregateExists .allFailure rest
    else if res ≠ .allFailure then .someSuccess
    else aggregateExists res rest

/-! ## The bytes of a pipe -/

inductive PipeCall where
  | insert (call : PipedCall)
  | exist (call : ExistCall)

namespace PipeCall

def client : PipeCall → Client
  | .insert call => call.client
  | .exist call => call.client

def count : PipeCall → Nat
  | .insert call => call.count
  | .exist call => call.count

def loop : PipeCall → PipeLoop
  | .insert call => call.loop
  | .exist call => call.loop

end PipeCall

structure StreamSt where
  pipe : PipeSt
  /-- What was written to the connection. -/
  sent : List Byte
  /-- `pipe_buffer`, up to `pipe_buffer_pos`. -/
  pipeBuffer : List Byte

def streamStart : StreamSt := ⟨pipeStart, [], []⟩

namespace PipeLoop

variable (loop : PipeLoop)

/-- The request of the item goes to the buffer or to the connection.  What a write that fails has
written is left out. -/
def put (write : ReturnT) (s : StreamSt) (pipe : PipeSt) : StreamSt :=
  match loop.request { s.pipe with requestedItems := s.pipe.requestedItems + 1 } with
  | .error _ => { s with pipe := pipe }
  | .ok (.collected r _) => { s with pipe := pipe, pipeBuffer := s.pipeBuffer ++ r.wire }
  | .ok (.flushed r) =>
    if write = .success then ⟨pipe, s.sent ++ s.pipeBuffer ++ r.wire, []⟩
    else { s with pipe := pipe }

def send (write : ReturnT) (s : StreamSt) : StreamSt :=
  loop.put write s (loop.sendItem write s.pipe)

def streamTurn (env : Turn) (s : StreamSt) : StreamSt :=
  loop.put env.write s (loop.turn env s.pipe)

def stream : List Turn → StreamSt → StreamSt
  | [], s => s
  | env :: rest, s => if loop.enters s.pipe then stream rest (loop.streamTurn env s) else s

end PipeLoop

end ArcusClient.Coll
