import ArcusClient.Store.Reply
import ArcusClient.Rgroup.Model
import ArcusClient.Lib.Loops

/-!
# Storing many items

`memcached_send_multi` stores items on several servers.  It works in rounds:

1. Every request without a result is sent.  When a sending fails, no further request goes to that
   server in this round.
2. The replies are read, in the order of the requests.  A reply `SWITCHOVER` or `REPL_SLAVE` leaves
   the request without a result.
3. For each server that gave such a reply, its group gets another master.  If this is done for
   some group, the next round begins.

What is read of a reply is a parameter (`Protocol`).  `World` holds all that is not decided by the
client.  The replies that are on their way stand in `wire`, each with the sending that it answers.  The
client does not see these marks, and `sendings` and `readings` are records of what it does.
-/

namespace ArcusClient.Store

open CString Coll Loops

/-! ## Servers -/

abbrev SendingId := Nat × Nat

structure ServerSt (α : Type) where
  /-- `cursor_active`: the replies that are waited for. -/
  cursorActive : Nat
  /-- The replies that are on their way, each with the sending that it answers.  There is none for
  a command of an earlier call. -/
  wire : List (Option SendingId × α)
  sendFailed : Bool
  switchoverState : ReturnT
  /-- `switchover_sidx`: the slave that becomes the master, or -1 if `switchover_peer` says it. -/
  switchoverSidx : Int
  switchoverPeer : CStr
  /-- `groupindex`, which is -1 in a client without replication. -/
  groupindex : Int

/-- A slot of `replicas`. -/
structure Member where
  object : Nat
  hostname : CStr
  port : UInt16

def Member.key (m : Member) : Addr := ⟨m.hostname, m.port⟩

/-- The servers of a client.  Without replication, each is a group of its own. -/
structure Servers (α : Type) where
  groups : List (List Member)
  object : Nat → ServerSt α

section Servers

variable {α : Type}

def Servers.update (s : Servers α) (o : Nat) (f : ServerSt α → ServerSt α) : Servers α :=
  { s with object := Function.update s.object o (f (s.object o)) }

/-- `memcached_server_instance_fetch`: the first server of the group. -/
def Servers.fetch (s : Servers α) (serverKey : Nat) : Nat :=
  ((s.groups[serverKey]?.bind List.head?).map Member.object).getD 0

/-- `memcached_quit_server`: what is on its way is lost. -/
def ServerSt.quit (s : ServerSt α) : ServerSt α := { s with cursorActive := 0, wire := [] }

/-- The size of `switchover_peer`. -/
def switchoverPeerSize : Nat := 128

/-- `textual_switchover_peer_check`, for what follows the word. -/
def ServerSt.peerCheck (s : ServerSt α) (buffer : List Byte) : ServerSt α :=
  if buffer.head?.map Fin.val ≠ some 32 then { s with switchoverSidx := 1 }
  else
    let peer := buffer.tail.takeWhile fun b => b.1 != 13 && b.1 != 10
    if peer.length < switchoverPeerSize then
      { s with switchoverPeer := cString peer, switchoverSidx := -1 }
    else
      { s with switchoverPeer := cString (peer.take (switchoverPeerSize - 1)), switchoverSidx := 1 }

/-- `memcached_rgroup_switchover`.  The result says whether it was done. -/
def Servers.switchover (s : Servers α) (o : Nat) : Except Fault (Bool × Servers α) :=
  let server := s.object o
  if server.groupindex < 0 then .error .assertion
  else
    let group := server.groupindex.toNat
    let members := s.groups.getD group []
    match chosenSlave Member.key members server.switchoverSidx server.switchoverPeer with
    | none => .ok (false, s)
    | some sindex =>
      match swapMaster members sindex with
      | none => .error .assertion
      | some swapped =>
        .ok (true, { s with groups := s.groups.set group swapped }.update o fun server =>
          { server with switchoverSidx := sindex })

end Servers

/-! ## Replies -/

structure Protocol (α : Type) where
  read : α → Reading
  read_ne_maximumReturn : ∀ a, (read a).rc ≠ .maximumReturn
  /-- What follows the word `SWITCHOVER` or `REPL_SLAVE`. -/
  peer : α → List Byte

def textProtocol (inSaslMech : Bool) (rest : { rc : ReturnT // rc ≠ .maximumReturn }) :
    Protocol (List Byte) where
  read := textualReadOneResponse inSaslMech rest
  read_ne_maximumReturn := textual_ne_maximumReturn inSaslMech rest.2
  peer line := line.drop 10

def binaryProtocol (inSaslMech : Bool) : Protocol BinaryReply where
  read := binaryReadOneResponse inSaslMech
  read_ne_maximumReturn r := (binary_codes inSaslMech r).2
  peer _ := []

abbrev FailCode :=
  { rc : ReturnT // memcachedFailed rc = true ∧ rc ≠ .maximumReturn ∧ rc ≠ .switchover ∧
    rc ≠ .replSlave }

/-- `MEMCACHED_SWITCHOVER` or `MEMCACHED_REPL_SLAVE`. -/
def isSwitchover (rc : ReturnT) : Bool := rc == .switchover || rc == .replSlave

/-- The codes for which `memcached_read_one_response` resets the connection. -/
def resets (rc : ReturnT) : Bool :=
  rc == .unknownReadFailure || rc == .protocolError || rc == .clientError || rc == .serverError ||
    rc == .partialRead || rc == .memoryAllocationFailure

/-! ## The call -/

inductive Sent where
  | sent
  /-- Nothing is written. -/
  | refused (rc : FailCode)
  /-- The connection is closed. -/
  | broken (rc : FailCode)

structure World (α : Type) where
  /-- `memcached_generate_hash_with_redistribution`, for the group key if there is no request. -/
  serverOf : Nat → Option Nat → Nat
  send : Nat → Nat → Sent
  /-- The reading of a reply fails, and the connection is closed. -/
  readFails : Nat → Nat → Option FailCode
  /-- The answer of the server. -/
  answer : Nat → Nat → α

/-- `memcached_storage_request_st`. -/
structure StorageRequest where
  key : List Byte
  value : List Byte
  expiration : Int
  flags : UInt32
  cas : UInt64

structure Multi (α : Type) where
  results : Nat → ReturnT
  instances : Nat → Nat
  successOccurred : Bool
  failureOccurred : Bool
  servers : Servers α
  /-- `failed_instances`. -/
  failedInstances : List Nat
  switchoverNeededEver : Bool
  switchoverDoneEver : Bool
  /-- The rounds in which a request was sent, the last one first. -/
  sendings : Nat → List Nat
  /-- The replies that were read for a request, the last one first. -/
  readings : Nat → List (Option SendingId × α)

section Call

variable {α : Type} (P : Protocol α) (w : World α) (noReply groupKeyPresent : Bool)

def Multi.setResult (st : Multi α) (i : Nat) (rc : ReturnT) : Multi α :=
  { st with results := Function.update st.results i rc }

def Multi.fail (st : Multi α) (i : Nat) (rc : ReturnT) : Multi α :=
  { st.setResult i rc with failureOccurred := true }

def Multi.succeed (st : Multi α) (i : Nat) : Multi α :=
  { st.setResult i .success with successOccurred := true }

def Multi.updateServer (st : Multi α) (o : Nat) (f : ServerSt α → ServerSt α) : Multi α :=
  { st with servers := st.servers.update o f }

/-- The request is written.  If the client waits for replies, the server will answer. -/
def Multi.push (st : Multi α) (r i o : Nat) : Multi α :=
  { (if noReply then st else st.updateServer o fun s => { s with
        cursorActive := s.cursorActive + 1
        wire := s.wire ++ [(some (r, i), w.answer r i)] }) with
    sendings := Function.update st.sendings i (r :: st.sendings i) }

def sendOne (r i : Nat) (st : Multi α) : Multi α :=
  if st.results i ≠ .maximumReturn then st
  else
    let o := st.servers.fetch (w.serverOf r (if groupKeyPresent then none else some i))
    let st := { st with instances := Function.update st.instances i o }
    if (st.servers.object o).sendFailed then st.setResult i .failure
    else match w.send r i with
    | .sent =>
      let st := st.push w noReply r i o
      if noReply then st.succeed i else st
    | .refused rc =>
      { (st.fail i rc.1).updateServer o fun s => { s with sendFailed := true } with
        failedInstances := o :: st.failedInstances }
    | .broken rc =>
      { (st.fail i rc.1).updateServer o fun s => { s.quit with sendFailed := true } with
        failedInstances := o :: st.failedInstances }

/-- The marks of the servers in `failed_instances` are removed. -/
def Multi.clear (st : Multi α) (f : ServerSt α → ServerSt α) : Multi α :=
  { st with
    servers := { st.servers with object := fun o =>
      if o ∈ st.failedInstances then f (st.servers.object o) else st.servers.object o }
    failedInstances := [] }

def sendAll (r n : Nat) (st : Multi α) : Multi α :=
  (forLoop n (sendOne w noReply groupKeyPresent r) st).clear fun s => { s with sendFailed := false }

/-- `memcached_read_one_response` with the reply that comes next.  The client waits in vain if
there is none. -/
def readOneResponse (o i : Nat) (failure : Option FailCode) (st : Multi α) : ReturnT × Multi α :=
  match failure, (st.servers.object o).wire with
  | some rc, _ => (rc.1, st.updateServer o ServerSt.quit)
  | none, [] => (.inProgress, st.updateServer o ServerSt.quit)
  | none, (tag, a) :: rest =>
    let reading := P.read a
    let st := { st with readings := Function.update st.readings i ((tag, a) :: st.readings i) }
    let st := st.updateServer o fun s => { s with
      wire := rest
      cursorActive := if reading.goesOn then s.cursorActive else s.cursorActive - 1 }
    let st := if isSwitchover reading.rc then st.updateServer o fun s => s.peerCheck (P.peer a)
      else st
    (reading.rc, if resets reading.rc then st.updateServer o ServerSt.quit else st)

def readOne (r i : Nat) (st : Multi α) : Multi α :=
  if st.results i ≠ .maximumReturn then st
  else
    let o := st.instances i
    if (st.servers.object o).cursorActive = 0 then st.fail i .unknownReadFailure
    else
      let (rc, st) := readOneResponse P o i (w.readFails r i) st
      if rc = .stored then st.succeed i
      else if isSwitchover rc then
        { st.updateServer o fun s => { s with switchoverState := rc } with
          switchoverNeededEver := true }
      else st.fail i rc

def readAll (r n : Nat) (st : Multi α) : Multi α :=
  forLoop n (readOne P w r) { st with switchoverNeededEver := false }

def switchOne (i : Nat) (st : Multi α) : Except Fault (Multi α) :=
  if st.results i ≠ .maximumReturn then .ok st
  else
    let o := st.instances i
    let rc := (st.servers.object o).switchoverState
    if isSwitchover rc then do
      let (done, servers) ← st.servers.switchover o
      let st := { st with servers := servers }
      if done then
        return { st.updateServer o fun s => { s with switchoverState := .success } with
          switchoverDoneEver := true }
      else
        return { (st.fail i .failure).updateServer o fun s =>
            { s with switchoverState := .failure } with
          failedInstances := o :: st.failedInstances }
    else if rc = .failure then .ok (st.setResult i .failure)
    else .ok st

def switchAll (n : Nat) (st : Multi α) : Except Fault (Multi α) := do
  let st ← forLoopM n switchOne { st with switchoverDoneEver := false }
  return st.clear fun s => { s with switchoverState := .success }

inductive Stop where
  | fault (f : Fault)
  /-- The given number of rounds was not enough. -/
  | outOfRounds

/-- The rounds from `r` on, at most `fuel` of them. -/
def rounds (n : Nat) : (fuel r : Nat) → Multi α → Except Stop (Multi α)
  | 0, _, _ => .error .outOfRounds
  | fuel + 1, r, st =>
    let st := sendAll w noReply groupKeyPresent r n st
    if noReply then .ok st
    else
      let st := readAll P w r n st
      if !st.switchoverNeededEver then .ok st
      else
        match switchAll n st with
        | .error f => .error (.fault f)
        | .ok st => if st.switchoverDoneEver then rounds n fuel (r + 1) st else .ok st

end Call

/-- `build_return_t`. -/
def buildReturnT (successOccurred failureOccurred : Bool) : ReturnT :=
  if !successOccurred then .failure
  else if failureOccurred then .someErrors
  else .success

/-- `MAX_KEYS_FOR_MULTI_STORE_OPERATION`. -/
def maxKeysForMultiStoreOperation : Nat := 500

/-- The checks of the arguments, with those of `before_bulk_storage`. -/
def multiCheck (c : Client) (groupKey : List Byte) (req : List StorageRequest) :
    Except ReturnT Unit :=
  if req = [] then .error .invalidArguments
  else if maxKeysForMultiStoreOperation < req.length then .error .invalidArguments
  else if c.serverCount = 0 then .error .noServers
  else if c.useUdp then .error .notSupported
  else if c.bufferRequests then .error .notSupported
  else if groupKey ≠ [] ∧ keyTest c groupKey = false then .error .badKeyProvided
  else .ok ()

section Function

variable {α : Type} (c : Client) (isCas : Bool) (req : List StorageRequest)

def checkRequest (request : StorageRequest) : ReturnT :=
  if isCas && request.cas == 0 then .invalidArguments
  else if keyTest c request.key then .maximumReturn
  else .badKeyProvided

/-- The replies that the masters still owe are read, in `before_bulk_storage`. -/
def Servers.drain (s : Servers α) : Servers α :=
  { s with object := fun o =>
      let server := s.object o
      if ∃ x < s.groups.length, s.fetch x = o then
        { server with cursorActive := 0, wire := server.wire.drop server.cursorActive }
      else server }

def multiInit (servers : Servers α) : Multi α where
  results i := (req[i]?.map (checkRequest c isCas)).getD .maximumReturn
  instances _ := 0
  successOccurred := false
  failureOccurred := req.any fun request => checkRequest c isCas request != .maximumReturn
  servers := servers.drain
  failedInstances := []
  switchoverNeededEver := false
  switchoverDoneEver := false
  sendings _ := []
  readings _ := []

/-- `memcached_send_multi`, with at most `fuel` rounds.  There are no results if the arguments are
refused. -/
def memcachedSendMulti (P : Protocol α) (w : World α) (groupKey : List Byte) (fuel : Nat)
    (servers : Servers α) : Except Stop (ReturnT × Option (Multi α)) :=
  match multiCheck c groupKey req with
  | .error rc => .ok (rc, none)
  | .ok _ => do
    let st ← rounds P w c.noReply (groupKey != []) req.length fuel 0
      (multiInit c isCas req servers)
    return (buildReturnT st.successOccurred st.failureOccurred, some st)

end Function

end ArcusClient.Store
