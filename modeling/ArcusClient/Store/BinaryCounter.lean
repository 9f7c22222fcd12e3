import ArcusClient.Keys.Request
import ArcusClient.Store.Reply
import Mathlib.Data.Int.ModEq

/-!
# The counter of replies in the binary protocol

`memcached_vdo` increments `cursor_active` for each packet unless the client wants no replies.
`memcached_send_binary` and `binary_delete` send the packet to replicas too, with a quiet command that
has no reply, and take the increment back.

The call is modelled with a record of what it does with each server, from which it follows what a
server still has to send (`stillToCome`).  `Owes` relates the counters to it.  They differ just if the
client wants no replies and the packet goes to replicas (`binary_counter_iff`).
-/

namespace ArcusClient.Binary

open CString Coll List Function Request

/-! ## Packets -/

inductive Opcode where
  | set | setq | add | addq | replace | replaceq | append | appendq | prepend | prependq
  | delete | deleteq
  deriving DecidableEq

def Opcode.quiet : Opcode → Bool
  | .setq | .addq | .replaceq | .appendq | .prependq | .deleteq => true
  | _ => false

/-- `get_com_code`. -/
def getComCode (verb : Keys.StorageAction) (noreply : Bool) : Opcode :=
  if noreply then
    match verb with
    | .set => .setq
    | .add => .addq
    | .cas => .replaceq
    | .replace => .replaceq
    | .append => .appendq
    | .prepend => .prependq
  else
    match verb with
    | .set => .set
    | .add => .add
    | .cas => .replace
    | .replace => .replace
    | .append => .append
    | .prepend => .prepend

structure Packet where
  opcode : Opcode
  keylen : UInt16
  extlen : UInt8
  bodylen : UInt32
  flags : UInt32
  expiration : UInt32
  cas : UInt64
  key : List Byte
  value : List Byte
  deriving DecidableEq

structure Client where
  noReply : Bool
  piped : Bool
  bufferRequests : Bool
  multiStore : Bool
  noBlock : Bool
  useUdp : Bool
  numberOfReplicas : UInt32
  serverCount : Nat
  ns : List Byte

/-- A call of `memcached_send_binary` or `binary_delete`. -/
inductive Request where
  | send (verb : Keys.StorageAction) (key value : List Byte) (expiration flags : UInt32) (cas : UInt64)
  | delete (key : List Byte)

def Request.packet (c : Client) : Request → Packet
  | .send verb key value expiration flags cas =>
    let extras := verb ≠ .append ∧ verb ≠ .prepend
    let extlen : UInt8 := if extras then 8 else 0
    { opcode := getComCode verb c.noReply
      keylen := UInt16.ofNat (key.length + c.ns.length)
      extlen := extlen
      bodylen := UInt32.ofNat (key.length + c.ns.length + value.length + extlen.toNat)
      flags := if extras then flags else 0
      expiration := if extras then expiration else 0
      cas := cas
      key := c.ns ++ key
      value := value }
  | .delete key =>
    { opcode := if c.noReply then .deleteq else .delete
      keylen := UInt16.ofNat (key.length + c.ns.length)
      extlen := 0
      bodylen := UInt32.ofNat (key.length + c.ns.length)
      flags := 0
      expiration := 0
      cas := 0
      key := c.ns ++ key
      value := [] }

def Request.replicaOpcode (c : Client) : Request → Option Opcode
  | .send verb .. => if verb = .set ∧ 0 < c.numberOfReplicas then some .setq else none
  | .delete _ => if 0 < c.numberOfReplicas then some .deleteq else none

def Request.buffered (c : Client) : Request → Bool
  | .send verb .. => c.bufferRequests && verb = .set
  | .delete _ => c.bufferRequests

def Request.skipsReply (c : Client) : Request → Bool
  | .send .. => c.noReply || c.multiStore
  | .delete _ => c.noReply

def Request.cmdSize : Request → Nat
  | .send verb key value .. =>
    (if verb = .append ∨ verb = .prepend then 24 else 32) + key.length + value.length
  | .delete key => 24 + key.length

/-! ## Servers -/

inductive Event where
  | sent (server : Nat) (packet : Packet)
  | read (server : Nat)
  /-- A packet that answers a part of a multiple get, and is not counted. -/
  | hit (server : Nat)
  | closed (server : Nat)

structure CallSt where
  cursorActive : Nat → UInt32
  events : List Event

namespace CallSt

def log (st : CallSt) (event : Event) : CallSt := { st with events := st.events ++ [event] }

/-- `memcached_server_response_increment`. -/
def increment (st : CallSt) (server : Nat) : CallSt :=
  { st with cursorActive := Function.update st.cursorActive server (st.cursorActive server + 1) }

/-- `memcached_server_response_decrement`. -/
def decrement (st : CallSt) (server : Nat) : CallSt :=
  { st with cursorActive := Function.update st.cursorActive server (st.cursorActive server - 1) }

/-- `memcached_quit_server`. -/
def close (st : CallSt) (server : Nat) : CallSt :=
  ⟨Function.update st.cursorActive server 0, st.events ++ [.closed server]⟩

/-- Replies that are read while the client writes, by `memcached_purge`. -/
def purge (st : CallSt) (server : Nat) : (replies : Nat) → CallSt
  | 0 => st
  | replies + 1 => ((st.decrement server).log (.read server)).purge server replies

end CallSt

/-! ## Writing -/

/-- How a write ends: with a number of replies read on the way, without a connection, or with the
connection closed. -/
inductive WriteResult where
  | sent (replies : Nat)
  | unconnected (rc : ReturnT)
  | failed

/-- `memcached_vdo`. -/
def memcachedVdo (c : Client) (result : WriteResult) (server : Nat) (packet : Packet)
    (withFlush : Bool) (st : CallSt) : ReturnT × CallSt :=
  match result with
  | .unconnected rc => (rc, st)
  | .failed => (.writeFailure, st.close server)
  | .sent replies =>
    let st := (st.purge server replies).log (.sent server packet)
    let st := if c.noReply = false ∧ c.piped = false then st.increment server else st
    (if withFlush then .success else .buffered, st)

/-- `memcached_io_write` without data, and if the connection is open afterwards. -/
def flush (result : WriteResult) (server : Nat) (st : CallSt) : CallSt × Bool :=
  match result with
  | .sent replies => (st.purge server replies, true)
  | .unconnected _ => (st.close server, false)
  | .failed => (st.close server, false)

def nextServer (c : Client) (serverKey : Nat) : Nat :=
  if serverKey + 1 = c.serverCount then 0 else serverKey + 1

def replicate (c : Client) (results : Nat → WriteResult) (packet : Packet) (withFlush : Bool) :
    (left x serverKey : Nat) → CallSt → CallSt
  | 0, _, _, st => st
  | left + 1, x, serverKey, st =>
    let serverKey := nextServer c serverKey
    let (rrc, st) := memcachedVdo c (results x) serverKey packet withFlush st
    let st := if rrc = .success ∨ rrc = .buffered then st.decrement serverKey else st
    replicate c results packet withFlush left (x + 1) serverKey st

/-! ## Reading -/

/-- What `binary_read_one_response` finds, after the errors of quiet commands, which it passes over:
a reply, a packet of a multiple get, a packet that breaks off, or that the connection is lost, by which
it is closed. -/
inductive ReplyRead where
  | reply (magic : Bool) (status : Store.Status)
  | hit
  | cut
  | lost (errno : Bool)

/-- The code that is returned.  It is not one of a switchover, so the source does not jump back to the
write. -/
def ReplyRead.code : ReplyRead → ReturnT
  -- The commands of a storage and of a delete end alike.
  | .reply magic status => (Store.binaryReadOneResponse false ⟨magic, .set, status⟩).rc
  | .hit => .success
  | .cut => .unknownReadFailure
  | .lost errno => if errno then .errno else .connectionFailure

/-- The codes for which `memcached_read_one_response` closes the connection. -/
def closesConnection (rc : ReturnT) : Bool :=
  rc ∈ [.unknownReadFailure, .protocolError, .clientError, .partialRead, .memoryAllocationFailure]

/-- `memcached_read_one_response`. -/
def memcachedReadOneResponse (isOpen : Bool) (found : ReplyRead) (server : Nat) (st : CallSt) :
    ReturnT × CallSt :=
  let st := st.decrement server
  if !isOpen then (.connectionFailure, st)
  else
    let st := match found with
      | .reply .. => st.log (.read server)
      | .hit => (st.increment server).log (.hit server)
      | .cut => st
      | .lost _ => st.close server
    (found.code, if closesConnection found.code then st.close server else st)

/-- `memcached_response`, for the binary protocol. -/
def memcachedResponse (c : Client) (written : WriteResult) (found : ReplyRead) (server : Nat)
    (st : CallSt) : ReturnT × CallSt :=
  let (st, isOpen) := if c.noBlock then flush written server st else (st, true)
  memcachedReadOneResponse isOpen found server st

/-! ## The functions -/

structure CallEnv where
  writeBufferOffset : Nat
  udpFlush : WriteResult
  write : WriteResult
  replicaWrites : Nat → WriteResult
  flush : WriteResult
  reply : ReplyRead

/-- `MAX_UDP_DATAGRAM_LENGTH`. -/
def maxUdpDatagramLength : Nat := 1400

def Request.tooLong (c : Client) (request : Request) : Bool :=
  c.useUdp && request.buffered c && decide (Keys.maxUdpRequest < request.cmdSize)

/-- What is in the write buffer is sent before a buffered request that does not fit behind it. -/
def Request.makeRoom (c : Client) (env : CallEnv) (serverKey : Nat) (request : Request) (st : CallSt) :
    CallSt :=
  if c.useUdp && request.buffered c &&
      decide (maxUdpDatagramLength < request.cmdSize + env.writeBufferOffset) then
    (Binary.flush env.udpFlush serverKey st).1
  else st

def Request.sendToReplicas (c : Client) (env : CallEnv) (serverKey : Nat) (request : Request)
    (st : CallSt) : CallSt :=
  match request.replicaOpcode c with
  | none => st
  | some opcode =>
    replicate c env.replicaWrites { request.packet c with opcode := opcode } (!request.buffered c)
      c.numberOfReplicas.toNat 0 serverKey st

/-- `memcached_send_binary` and `binary_delete`. -/
def Request.run (c : Client) (env : CallEnv) (serverKey : Nat) (request : Request) (st : CallSt) :
    ReturnT × CallSt :=
  if request.tooLong c then (.writeFailure, st)
  else
    let st := request.makeRoom c env serverKey st
    let (rc, st) := memcachedVdo c env.write serverKey (request.packet c) (!request.buffered c) st
    if rc ≠ .success ∧ rc ≠ .buffered then (rc, st)
    else
      let st := request.sendToReplicas c env serverKey st
      if request.buffered c then (.buffered, st)
      else if request.skipsReply c then (.success, st)
      else memcachedResponse c env.flush env.reply serverKey st

/-! ## What is still to come -/

def Event.asks (server : Nat) : Event → Bool
  | .sent s packet => s = server && !packet.opcode.quiet
  | _ => false

def Event.answers (server : Nat) : Event → Bool
  | .read s => s = server
  | _ => false

/-- The replies that a server still has to send, after an event.  None come on a connection that is
closed. -/
def Event.pending (server : Nat) (before : Int) : Event → Int
  | .closed s => if s = server then 0 else before
  | event => before + (event.asks server).toNat - (event.answers server).toNat

/-- The replies that a server still has to send, after a part of a call. -/
def stillToCome (server : Nat) (before : Int) (events : List Event) : Int :=
  events.foldl (Event.pending server) before

theorem stillToCome_append (server : Nat) (before : Int) (events : List Event) (event : Event) :
    stillToCome server before (events ++ [event]) =
      event.pending server (stillToCome server before events) := by
  rw [stillToCome, foldl_append]
  rfl

/-- As long as the connection stays open, this is the number before the call, with what the packets ask
for and without what was read. -/
theorem stillToCome_open (server : Nat) (events : List Event) (before : Int)
    (ho : ∀ event ∈ events, event ≠ .closed server) : stillToCome server before events =
      before + events.countP (Event.asks server) - events.countP (Event.answers server) := by
  induction events generalizing before with
  | nil => simp [stillToCome]
  | cons event events ih =>
    have ⟨he, ho⟩ := forall_mem_cons.mp ho
    have hon : event.pending server before =
        before + (event.asks server).toNat - (event.answers server).toNat := by
      cases event with
      | closed s =>
        have hs : s ≠ server := fun h => he (by rw [h])
        simp [Event.pending, Event.asks, Event.answers, hs]
      | sent s packet | read s | hit s => rfl
    have hr := ih (event.pending server before) ho
    rw [stillToCome, foldl_cons, ← stillToCome, hr, hon, countP_cons, countP_cons]
    cases event.asks server <;> cases event.answers server <;> simp <;> ring

/-! ## The counters and what is still to come -/

/-- The counters are those of what is still to come, up to `debt` and the width of the counters. -/
def Owes (start : Nat → UInt32) (debt : Nat → Int) (st : CallSt) : Prop :=
  ∀ j, ((st.cursorActive j).toNat : Int) ≡
    stillToCome j (start j).toNat st.events - debt j [ZMOD 2 ^ 32]

section Steps

variable {start : Nat → UInt32} {debt : Nat → Int} {st : CallSt}

theorem owes_start (start : Nat → UInt32) : Owes start (fun _ => 0) ⟨start, []⟩ := by
  intro j
  simp [stillToCome]

theorem toNat_add_one (n : UInt32) : ((n + 1).toNat : Int) ≡ n.toNat + 1 [ZMOD 2 ^ 32] := by
  rw [Int.ModEq]
  simp

theorem toNat_sub_one (n : UInt32) : ((n - 1).toNat : Int) ≡ n.toNat - 1 [ZMOD 2 ^ 32] := by
  rw [UInt32.toNat_sub, Int.ModEq]
  have h1 : (1 : UInt32).toNat = 1 := rfl
  omega

theorem Owes.update (h : Owes start debt st)
    (hs : (n.toNat : Int) ≡ stillToCome server (start server).toNat events - d [ZMOD 2 ^ 32])
    (ho : ∀ j, j ≠ server →
      stillToCome j (start j).toNat events = stillToCome j (start j).toNat st.events) :
    Owes start (Function.update debt server d)
      ⟨Function.update st.cursorActive server n, events⟩ := by
  intro j
  by_cases hj : j = server
  · subst hj
    simpa using hs
  · simpa [update_of_ne hj, ho j hj] using h j

theorem Owes.increment (h : Owes start debt st) (server : Nat) :
    Owes start (Function.update debt server (debt server - 1)) (st.increment server) := by
  refine h.update ?_ (fun _ _ => rfl)
  have hs := (toNat_add_one (st.cursorActive server)).trans ((h server).add_right 1)
  convert hs using 1
  ring

theorem Owes.decrement (h : Owes start debt st) (server : Nat) :
    Owes start (Function.update debt server (debt server + 1)) (st.decrement server) := by
  refine h.update ?_ (fun _ _ => rfl)
  have hs := (toNat_sub_one (st.cursorActive server)).trans ((h server).sub_right 1)
  convert hs using 1
  ring

theorem Owes.close (h : Owes start debt st) (server : Nat) :
    Owes start (Function.update debt server 0) (st.close server) := by
  refine h.update ?_ fun j hj => ?_
  · simp [stillToCome_append, Event.pending]
  · simp [stillToCome_append, Event.pending, Ne.symm hj]

/-- What is recorded changes the debt by what it changes of what is still to come. -/
theorem Owes.log (h : Owes start debt st) (d : Int)
    (hs : ∀ n, event.pending server n = n + d) (ho : ∀ j n, j ≠ server → event.pending j n = n) :
    Owes start (Function.update debt server (debt server + d)) (st.log event) := by
  have hu : Owes start (Function.update debt server (debt server + d))
      ⟨Function.update st.cursorActive server (st.cursorActive server), st.events ++ [event]⟩ := by
    refine h.update ?_ fun j hj => ?_
    · rw [stillToCome_append, hs]
      convert h server using 1
      ring
    · rw [stillToCome_append, ho j _ hj]
  simpa [CallSt.log] using hu

theorem Owes.read (h : Owes start debt st) (server : Nat) :
    Owes start (Function.update debt server (debt server - 1)) (st.log (.read server)) := by
  refine h.log (-1) (fun n => ?_) fun j n hj => ?_
  · simp [Event.pending, Event.asks, Event.answers]
    rfl
  · simp [Event.pending, Event.asks, Event.answers, Ne.symm hj]

theorem Owes.hit (h : Owes start debt st) (server : Nat) :
    Owes start debt (st.log (.hit server)) := by
  intro j
  simpa [CallSt.log, stillToCome_append, Event.pending, Event.asks, Event.answers] using h j

theorem Owes.sent (h : Owes start debt st) (server : Nat) (packet : Packet) :
    Owes start (Function.update debt server (debt server + (!packet.opcode.quiet).toNat))
      (st.log (.sent server packet)) := by
  refine h.log _ (fun n => ?_) fun j n hj => ?_
  · simp [Event.pending, Event.asks, Event.answers]
  · simp [Event.pending, Event.asks, Event.answers, Ne.symm hj]

theorem Owes.decrement_read (h : Owes start debt st) (server : Nat) :
    Owes start debt ((st.decrement server).log (.read server)) := by
  have hr := (h.decrement server).read server
  simpa using hr

theorem Owes.purge (h : Owes start debt st) (server replies : Nat) :
    Owes start debt (st.purge server replies) := by
  induction replies generalizing st with
  | zero => exact h
  | succ replies ih => exact ih (h.decrement_read server)

/-- A packet adds to the debt if it is replied to and not counted, and takes from it if it is counted
and not replied to. -/
theorem Owes.memcachedVdo (h : Owes start debt st) (hp : c.piped = false)
    (replies server : Nat) (packet : Packet) (withFlush : Bool) : Owes start
      (Function.update debt server
        (debt server + (!packet.opcode.quiet).toNat - (!c.noReply).toNat))
      (Binary.memcachedVdo c (.sent replies) server packet withFlush st).2 := by
  have hs := (h.purge server replies).sent server packet
  rw [Binary.memcachedVdo]
  cases hr : c.noReply with
  | true => simpa using hs
  | false => simpa [hp] using hs.increment server

end Steps

/-! ## The replicas -/

def walk (c : Client) : (left serverKey : Nat) → List Nat
  | 0, _ => []
  | left + 1, serverKey => nextServer c serverKey :: walk c left (nextServer c serverKey)

theorem length_walk (c : Client) (left serverKey : Nat) :
    (walk c left serverKey).length = left := by
  induction left generalizing serverKey with
  | zero => rfl
  | succ left ih => rw [walk, length_cons, ih]

theorem memcachedVdo_rc (c : Client) (replies server : Nat) (packet : Packet) (withFlush : Bool)
    (st : CallSt) : (memcachedVdo c (.sent replies) server packet withFlush st).1 = .success ∨
      (memcachedVdo c (.sent replies) server packet withFlush st).1 = .buffered := by
  cases withFlush with
  | true => exact .inl rfl
  | false => exact .inr rfl

/-- The loop leaves a debt at each server it comes to if the client wants no replies, and none if it
does. -/
theorem Owes.replicate {start : Nat → UInt32} (hp : c.piped = false)
    {results : Nat → WriteResult} (hs : ∀ x, ∃ replies, results x = .sent replies)
    (hq : packet.opcode.quiet = true) (withFlush : Bool)
    (left x serverKey : Nat) {debt : Nat → Int} (h : Owes start debt st) :
    Owes start (fun j => debt j + c.noReply.toNat * (walk c left serverKey).count j)
      (Binary.replicate c results packet withFlush left x serverKey st) := by
  induction left generalizing x serverKey debt st with
  | zero => simpa [walk, Binary.replicate] using h
  | succ left ih =>
    obtain ⟨replies, hr⟩ := hs x
    have hrc := memcachedVdo_rc c replies (nextServer c serverKey) packet withFlush st
    have hv := h.memcachedVdo hp replies (nextServer c serverKey) packet withFlush
    have hre := ih (x + 1) (nextServer c serverKey) (hv.decrement (nextServer c serverKey))
    rw [Binary.replicate, hr]
    simp only [if_pos hrc]
    convert hre using 2 with j
    rw [walk, count_cons]
    by_cases hj : j = nextServer c serverKey
    · subst hj
      cases hrep : c.noReply with
      | true =>
        simp [hq]
        ring
      | false => simp [hq]
    · have hn : (nextServer c serverKey == j) = false := by simpa using Ne.symm hj
      simp [hj, hn]

/-! ## The functions keep the counters -/

theorem quiet_getComCode (verb : Keys.StorageAction) (noreply : Bool) :
    (getComCode verb noreply).quiet = noreply := by
  cases noreply <;> cases verb <;> rfl

theorem Request.quiet_packet (c : Client) (request : Request) :
    (request.packet c).opcode.quiet = c.noReply := by
  cases request with
  | send verb key value expiration flags cas => exact quiet_getComCode verb c.noReply
  | delete key =>
    rw [packet]
    cases c.noReply <;> rfl

theorem Request.of_replicaOpcode {request : Request} (h : request.replicaOpcode c = some opcode) :
    opcode.quiet = true ∧ 0 < c.numberOfReplicas.toNat := by
  have hc : ∀ n : UInt32, 0 < n → 0 < n.toNat := fun n hn => UInt32.lt_iff_toNat_lt.mp hn
  cases request with
  | send verb key value expiration flags cas =>
    rw [replicaOpcode] at h
    split at h
    · rename_i hr
      cases h
      exact ⟨rfl, hc _ hr.2⟩
    · cases h
  | delete key =>
    rw [replicaOpcode] at h
    split at h
    · rename_i hr
      cases h
      exact ⟨rfl, hc _ hr⟩
    · cases h

section Reading

variable {start : Nat → UInt32} {st : CallSt}

theorem Owes.memcachedReadOneResponse (h : Owes start (fun _ => 0) st) (found : ReplyRead)
    (server : Nat) :
    Owes start (fun _ => 0) (Binary.memcachedReadOneResponse true found server st).2 := by
  cases found with
  | reply magic status =>
    have hr := h.decrement_read server
    cases hc : closesConnection (ReplyRead.reply magic status).code with
    | true => simpa [Binary.memcachedReadOneResponse, hc] using hr.close server
    | false => simpa [Binary.memcachedReadOneResponse, hc] using hr
  | hit =>
    have hh := ((h.decrement server).increment server).hit server
    simpa [Binary.memcachedReadOneResponse, ReplyRead.code, closesConnection] using hh
  | cut =>
    have hcu := (h.decrement server).close server
    simpa [Binary.memcachedReadOneResponse, ReplyRead.code, closesConnection] using hcu
  | lost errno =>
    have hl := (h.decrement server).close server
    cases errno <;> simpa [Binary.memcachedReadOneResponse, ReplyRead.code, closesConnection] using hl

theorem Owes.memcachedResponse (h : Owes start (fun _ => 0) st)
    (hs : ∃ replies, written = .sent replies) (found : ReplyRead) (server : Nat) :
    Owes start (fun _ => 0) (Binary.memcachedResponse c written found server st).2 := by
  obtain ⟨replies, hw⟩ := hs
  subst hw
  rw [Binary.memcachedResponse]
  cases c.noBlock with
  | true => exact (h.purge server replies).memcachedReadOneResponse found server
  | false => exact h.memcachedReadOneResponse found server

end Reading

structure CallEnv.Succeeds (env : CallEnv) : Prop where
  udpFlush : ∃ replies, env.udpFlush = .sent replies
  write : ∃ replies, env.write = .sent replies
  replicaWrites : ∀ x, ∃ replies, env.replicaWrites x = .sent replies
  flush : ∃ replies, env.flush = .sent replies

def Request.debt (c : Client) (serverKey : Nat) (request : Request) (server : Nat) : Int :=
  if request.replicaOpcode c = none then 0
  else c.noReply.toNat * (walk c c.numberOfReplicas.toNat serverKey).count server

section Calls

variable {c : Client} {env : CallEnv} {start : Nat → UInt32} {st : CallSt}

theorem Owes.makeRoom (h : Owes start (fun _ => 0) st) (hs : env.Succeeds) (c : Client)
    (request : Request) (serverKey : Nat) :
    Owes start (fun _ => 0) (request.makeRoom c env serverKey st) := by
  obtain ⟨replies, hf⟩ := hs.udpFlush
  rw [Request.makeRoom, hf]
  split
  · exact h.purge serverKey replies
  · exact h

theorem Owes.firstPacket (h : Owes start (fun _ => 0) st) (hp : c.piped = false)
    (request : Request) (replies serverKey : Nat) (withFlush : Bool) : Owes start (fun _ => 0)
      (Binary.memcachedVdo c (.sent replies) serverKey (request.packet c) withFlush st).2 := by
  have hv := h.memcachedVdo hp replies serverKey (request.packet c) withFlush
  simpa [request.quiet_packet c] using hv

theorem Owes.sendToReplicas (h : Owes start (fun _ => 0) st) (hp : c.piped = false)
    (hs : env.Succeeds) (request : Request) (serverKey : Nat) :
    Owes start (request.debt c serverKey) (request.sendToReplicas c env serverKey st) := by
  cases ho : request.replicaOpcode c with
  | none =>
    have hd : request.debt c serverKey = fun _ => 0 := by
      funext j
      rw [Request.debt, if_pos ho]
    simpa [Request.sendToReplicas, ho, hd] using h
  | some opcode =>
    have hq : { request.packet c with opcode := opcode }.opcode.quiet = true :=
      (Request.of_replicaOpcode ho).1
    have hw := h.replicate hp hs.replicaWrites hq (!request.buffered c)
      c.numberOfReplicas.toNat 0 serverKey
    have hd : request.debt c serverKey =
        fun j => (c.noReply.toNat : Int) * (walk c c.numberOfReplicas.toNat serverKey).count j := by
      funext j
      rw [Request.debt, if_neg (by simp [ho])]
    simpa [Request.sendToReplicas, ho, hd] using hw

theorem Request.skipsReply_of_noReply (request : Request) (hr : c.noReply = true) :
    request.skipsReply c = true := by
  cases request with
  | send verb key value expiration flags cas => simp [skipsReply, hr]
  | delete key => exact hr

/-- After a call whose writes succeed, the counters are right but for the decrements for the
replicas. -/
theorem Request.run_owes (hp : c.piped = false) (hs : env.Succeeds) (serverKey : Nat)
    {request : Request} (hf : request.tooLong c = false) :
    Owes start (request.debt c serverKey) (request.run c env serverKey ⟨start, []⟩).2 := by
  obtain ⟨replies, hw⟩ := hs.write
  have hr := (owes_start start).makeRoom hs c request serverKey
  have hfir := hr.firstPacket hp request replies serverKey (!request.buffered c)
  have hre := hfir.sendToReplicas hp hs request serverKey
  have hrc := memcachedVdo_rc c replies serverKey (request.packet c) (!request.buffered c)
    (request.makeRoom c env serverKey ⟨start, []⟩)
  rw [run, hf, hw]
  cases request.buffered c with
  | true => exact hre
  | false =>
    cases hsk : request.skipsReply c with
    | true => exact hre
    | false =>
      -- A reply is read only if the client wants replies, and then no debt is left.
      have hrep : c.noReply = false := by
        cases hrep : c.noReply with
        | false => rfl
        | true => rw [request.skipsReply_of_noReply hrep] at hsk; cases hsk
      have hd : request.debt c serverKey = fun _ => 0 := by
        funext j
        simp [debt, hrep]
      rw [hd] at hre ⊢
      exact hre.memcachedResponse hs.flush env.reply serverKey

end Calls

theorem Owes.debt_eq_zero {start : Nat → UInt32} {debt : Nat → Int}
    (h : Owes start debt st) (hd : 0 ≤ debt j) (hw : debt j < 2 ^ 32)
    (he : ((st.cursorActive j).toNat : Int) = stillToCome j (start j).toNat st.events) :
    debt j = 0 := by
  have hj := h j
  rw [Int.ModEq] at hj
  omega

theorem Owes.exact {start : Nat → UInt32} {debt : Nat → Int} (h : Owes start debt st)
    (hd : debt j = 0) (hl : 0 ≤ stillToCome j (start j).toNat st.events)
    (hw : stillToCome j (start j).toNat st.events < 2 ^ 32) :
    ((st.cursorActive j).toNat : Int) = stillToCome j (start j).toNat st.events := by
  have hj := h j
  have hc := (st.cursorActive j).toNat_lt
  rw [Int.ModEq] at hj
  omega

/-! ## The packets of a call -/

/-- Replies that are read while the client writes. -/
def WriteResult.events (server : Nat) : WriteResult → List Event
  | .sent replies => List.replicate replies (.read server)
  | _ => []

def replicaEvents (c : Client) (results : Nat → WriteResult) (packet : Packet) :
    (left x serverKey : Nat) → List Event
  | 0, _, _ => []
  | left + 1, x, serverKey =>
    let serverKey := nextServer c serverKey
    (results x).events serverKey ++ .sent serverKey packet ::
      replicaEvents c results packet left (x + 1) serverKey

def ReplyRead.events (server : Nat) : ReplyRead → List Event
  | .reply magic status =>
    .read server :: if closesConnection (code (.reply magic status)) then [.closed server] else []
  | .hit => [.hit server]
  | .cut => [.closed server]
  | .lost _ => [.closed server]

/-- What a call whose writes succeed does with the servers, whatever the counters are. -/
def Request.events (c : Client) (env : CallEnv) (serverKey : Nat) (request : Request) : List Event :=
  (if c.useUdp && request.buffered c &&
      decide (maxUdpDatagramLength < request.cmdSize + env.writeBufferOffset) then
    env.udpFlush.events serverKey else []) ++
  (env.write.events serverKey ++ [.sent serverKey (request.packet c)]) ++
  (match request.replicaOpcode c with
    | none => []
    | some opcode => replicaEvents c env.replicaWrites { request.packet c with opcode := opcode }
        c.numberOfReplicas.toNat 0 serverKey) ++
  if request.buffered c || request.skipsReply c then []
  else (if c.noBlock then env.flush.events serverKey else []) ++ env.reply.events serverKey

theorem purge_events (st : CallSt) (server replies : Nat) :
    (st.purge server replies).events = st.events ++ (WriteResult.sent replies).events server := by
  induction replies generalizing st with
  | zero => rw [WriteResult.events, List.replicate_zero, append_nil, CallSt.purge]
  | succ replies ih =>
    rw [CallSt.purge, ih, WriteResult.events, WriteResult.events, List.replicate_succ]
    exact append_assoc _ [_] _

theorem memcachedVdo_events (c : Client) (replies server : Nat) (packet : Packet)
    (withFlush : Bool) (st : CallSt) :
    (memcachedVdo c (.sent replies) server packet withFlush st).2.events =
      st.events ++ ((WriteResult.sent replies).events server ++ [.sent server packet]) := by
  rw [memcachedVdo, ← append_assoc, ← purge_events]
  dsimp only
  split_ifs <;> rfl

theorem replicate_events (hs : ∀ x, ∃ replies, results x = .sent replies) (c : Client)
    (packet : Packet) (withFlush : Bool) (left x serverKey : Nat) (st : CallSt) :
    (Binary.replicate c results packet withFlush left x serverKey st).events =
      st.events ++ replicaEvents c results packet left x serverKey := by
  induction left generalizing x serverKey st with
  | zero => rw [replicaEvents, append_nil, Binary.replicate]
  | succ left ih =>
    obtain ⟨replies, hr⟩ := hs x
    have hv := memcachedVdo_events c replies (nextServer c serverKey) packet withFlush st
    rw [Binary.replicate, replicaEvents, hr]
    dsimp only
    rw [ih, if_pos (memcachedVdo_rc ..), CallSt.decrement, hv]
    simp only [append_assoc, singleton_append]

theorem readOne_events (found : ReplyRead) (server : Nat) (st : CallSt) :
    (memcachedReadOneResponse true found server st).2.events =
      st.events ++ found.events server := by
  cases found with
  | reply magic status =>
    simp only [memcachedReadOneResponse, ReplyRead.events, Bool.not_true, Bool.false_eq_true, if_false]
    split_ifs
    · exact append_assoc _ [_] [_]
    · rfl
  | lost errno => cases errno <;> rfl
  | hit | cut => rfl

/-- The record of a call does not depend on the counters. -/
theorem Request.run_events (hs : env.Succeeds) {request : Request}
    (hf : request.tooLong c = false) (start : Nat → UInt32) (serverKey : Nat) :
    (request.run c env serverKey ⟨start, []⟩).2.events = request.events c env serverKey := by
  obtain ⟨replies, hw⟩ := hs.write
  have hroom : (request.makeRoom c env serverKey ⟨start, []⟩).events =
      if c.useUdp && request.buffered c &&
        decide (maxUdpDatagramLength < request.cmdSize + env.writeBufferOffset) then
      env.udpFlush.events serverKey else [] := by
    obtain ⟨old, hu⟩ := hs.udpFlush
    rw [makeRoom, hu]
    split_ifs
    · exact purge_events ..
    · rfl
  have hrep (st : CallSt) : (request.sendToReplicas c env serverKey st).events = st.events ++
      match request.replicaOpcode c with
      | none => []
      | some opcode => replicaEvents c env.replicaWrites { request.packet c with opcode := opcode }
          c.numberOfReplicas.toNat 0 serverKey := by
    rw [sendToReplicas]
    cases request.replicaOpcode c with
    | none => exact (append_nil _).symm
    | some opcode => exact replicate_events hs.replicaWrites ..
  have hresp (st : CallSt) : (memcachedResponse c env.flush env.reply serverKey st).2.events =
      st.events ++ ((if c.noBlock then env.flush.events serverKey else []) ++
        env.reply.events serverKey) := by
    obtain ⟨old, hfl⟩ := hs.flush
    rw [memcachedResponse, hfl, ← append_assoc]
    cases c.noBlock with
    | true => exact (readOne_events ..).trans (by rw [purge_events]; rfl)
    | false => exact (readOne_events ..).trans (by rw [if_neg Bool.false_ne_true, append_nil])
  have hrc := memcachedVdo_rc c replies serverKey (request.packet c) (!request.buffered c)
    (request.makeRoom c env serverKey ⟨start, []⟩)
  have hv := memcachedVdo_events c replies serverKey (request.packet c) (!request.buffered c)
    (request.makeRoom c env serverKey ⟨start, []⟩)
  rw [run, hf, hw, events, hw, ← hroom, ← hv]
  dsimp only
  generalize memcachedVdo c (.sent replies) serverKey (request.packet c) (!request.buffered c)
    (request.makeRoom c env serverKey ⟨start, []⟩) = written at hrc
  obtain ⟨rc, st⟩ := written
  have hgo : ¬(rc ≠ .success ∧ rc ≠ .buffered) := fun h => hrc.elim h.1 h.2
  rw [if_neg Bool.false_ne_true, ← hrep]
  dsimp only
  rw [if_neg hgo]
  cases request.buffered c with
  | true => exact (append_nil _).symm
  | false =>
    cases request.skipsReply c with
    | true => exact (append_nil _).symm
    | false => exact hresp _

/-- The first replica is left in debt if the client wants no replies. -/
theorem Request.debt_nextServer {request : Request} (serverKey : Nat)
    (hr : c.noReply = true) (hre : request.replicaOpcode c ≠ none) :
    0 < request.debt c serverKey (nextServer c serverKey) ∧
      request.debt c serverKey (nextServer c serverKey) < 2 ^ 32 := by
  obtain ⟨opcode, ho⟩ := Option.ne_none_iff_exists'.mp hre
  have ⟨left, hl⟩ := Nat.exists_eq_add_of_lt (of_replicaOpcode ho).2
  have hc : (walk c c.numberOfReplicas.toNat serverKey).count (nextServer c serverKey) ≤
      c.numberOfReplicas.toNat := by
    calc (walk c c.numberOfReplicas.toNat serverKey).count (nextServer c serverKey)
        ≤ (walk c c.numberOfReplicas.toNat serverKey).length := count_le_length
      _ = c.numberOfReplicas.toNat := length_walk ..
  have hp : 0 < (walk c c.numberOfReplicas.toNat serverKey).count (nextServer c serverKey) := by
    rw [hl, walk, count_cons_self]
    exact Nat.succ_pos _
  have hw := c.numberOfReplicas.toNat_lt
  rw [debt, if_neg hre, hr, Bool.toNat_true]
  omega

/-- After a call whose writes succeed, every server's counter is what the server still has to send just
if the client wants replies or the packet goes to no replicas, and the counters have room for that.
`piped` is set by the piped calls for collections alone, which clear it before they return. -/
theorem binary_counter_iff (c : Client) (env : CallEnv) (cursorActive : Nat → UInt32)
    (serverKey : Nat)
    (request : Request) (hpiped : c.piped = false) (hsucceeds : env.Succeeds)
    (hfits : request.tooLong c = false) (hreads : ∀ j, 0 ≤ stillToCome j (cursorActive j).toNat
      (request.run c env serverKey ⟨cursorActive, []⟩).2.events) :
    (∀ j, (((request.run c env serverKey ⟨cursorActive, []⟩).2.cursorActive j).toNat : Int) =
        stillToCome j (cursorActive j).toNat
          (request.run c env serverKey ⟨cursorActive, []⟩).2.events) ↔
      (c.noReply = false ∨ request.replicaOpcode c = none) ∧
        ∀ j, stillToCome j (cursorActive j).toNat (request.events c env serverKey) < 2 ^ 32 := by
  have ho : Owes cursorActive (request.debt c serverKey) _ :=
    Request.run_owes hpiped hsucceeds serverKey hfits
  rw [← Request.run_events hsucceeds hfits cursorActive serverKey]
  constructor
  · intro hex
    constructor
    · by_contra hn
      obtain ⟨hr, hrep⟩ := not_or.mp hn
      have hr : c.noReply = true := by simpa using hr
      have ⟨hp, hw⟩ := Request.debt_nextServer serverKey hr hrep
      have hz := ho.debt_eq_zero hp.le hw (hex (nextServer c serverKey))
      omega
    · intro j
      have hc := ((request.run c env serverKey ⟨cursorActive, []⟩).2.cursorActive j).toNat_lt
      have hj := hex j
      omega
  · rintro ⟨hco, hw⟩ j
    have hd : request.debt c serverKey j = 0 := by
      cases hco with
      | inl hr => simp [Request.debt, hr]
      | inr hnon => rw [Request.debt, if_pos hnon]
    exact ho.exact hd (hreads j) (hw j)

def twoServers (noReply : Bool) : Client :=
  { noReply := noReply, piped := false, bufferRequests := false, multiStore := false
    noBlock := false, useUdp := false, numberOfReplicas := 1, serverCount := 2, ns := [] }

/-- A call without old replies, whose own reply arrives. -/
def quickReply : CallEnv :=
  { writeBufferOffset := 0, udpFlush := .sent 0, write := .sent 0, replicaWrites := fun _ => .sent 0
    flush := .sent 0, reply := .reply true .success }

theorem quickReply_succeeds : quickReply.Succeeds where
  udpFlush := ⟨0, rfl⟩
  write := ⟨0, rfl⟩
  replicaWrites _ := ⟨0, rfl⟩
  flush := ⟨0, rfl⟩

theorem stillToCome_two (j : Nat) :
    stillToCome j 0 ((Request.delete [107]).run (twoServers false) quickReply 0 ⟨fun _ => 0, []⟩).2.events
      = 0 := by
  have he : ((Request.delete [107]).run (twoServers false) quickReply 0 ⟨fun _ => 0, []⟩).2.events =
      [.sent 0 ((Request.delete [107]).packet (twoServers false)),
        .sent 1 { (Request.delete [107]).packet (twoServers false) with opcode := .deleteq }, .read 0] :=
    rfl
  rw [he, stillToCome_open _ _ _ (by simp)]
  simp [countP_cons, Event.asks, Event.answers, Request.packet, twoServers, Opcode.quiet]

theorem binary_counter_delete :
    (((Request.delete [107]).run (twoServers false) quickReply 0 ⟨fun _ => 0, []⟩).2.cursorActive
      1).toNat = stillToCome 1 0
        ((Request.delete [107]).run (twoServers false) quickReply 0 ⟨fun _ => 0, []⟩).2.events :=
  (binary_counter_iff (twoServers false) quickReply (fun _ => 0) 0 (.delete [107]) rfl
    quickReply_succeeds rfl (fun j => (stillToCome_two j).ge)).mpr
    ⟨.inl rfl, fun j => lt_of_eq_of_lt (stillToCome_two j) (by decide)⟩ 1

/-- A delete without replies leaves the counter of the replica below zero, though nothing was
outstanding. -/
theorem binary_counter_below_zero :
    (((Request.delete [107]).run (twoServers true) quickReply 0 ⟨fun _ => 0, []⟩).2.cursorActive 1 =
        4294967295) ∧ stillToCome 1 0
        ((Request.delete [107]).run (twoServers true) quickReply 0 ⟨fun _ => 0, []⟩).2.events = 0 := by
  decide

end ArcusClient.Binary
