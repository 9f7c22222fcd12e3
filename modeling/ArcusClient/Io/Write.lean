import ArcusClient.Hosts.Types
import ArcusClient.Lib.Memory
import ArcusClient.Lib.Outcome
import ArcusClient.Lib.Runs

/-!
# Writing to a server

`_io_write` copies requests into a write buffer, and `io_flush` sends it when it is full or when the
caller asks for it.  A socket may take a part of the bytes, or none for the moment.  Then `io_flush`
reads input, or waits until the socket is writable.  `io_flush` calls `memcached_purge` when it starts,
and `io_wait` before it waits.  A purge sends what is in the write buffer, and then reads replies.  A
flag keeps a purge from starting another one.

The answers of the environment are arguments: what `send` does (`Sent`), what `poll` does, and how the
reading of each reply ends.  A call that has used them up has not returned (`Blocked.noAnswer`).  The
flag `with_flush` of `io_flush` only tells the socket that more bytes will follow, and is left out.
-/

namespace ArcusClient.Io

open Memory Outcome

abbrev Byte := Fin 256

/-- `MEMCACHED_MAX_BUFFER`. -/
def maxBuffer : Nat := 8196

/-- `MAX_UDP_DATAGRAM_LENGTH`. -/
def maxUdpDatagramLength : Nat := 1400

/-- `UDP_DATAGRAM_HEADER_LENGTH`. -/
def udpDatagramHeaderLength : Nat := 8

structure Root where
  ioMsgWatermark : UInt32
  ioBytesWatermark : UInt32
  multiStore : Bool
  /-- `callbacks` is not null. -/
  callbacks : Bool
  useUdp : Bool
  pollTimeout : Int

def Root.default : Root := ⟨500, 65 * 1024, false, false, false, -1⟩

structure Link where
  type : Connection
  /-- `fd` is not `INVALID_SOCKET`. -/
  isOpen : Bool
  /-- `cursor_active`, the number of replies that are still to come. -/
  cursorActive : UInt32
  /-- `io_bytes_sent`, since the last time something was read. -/
  ioBytesSent : UInt32
  writeBuffer : Nat → Byte
  writeBufferOffset : Nat
  /-- The flag of the client that a purge is on its way. -/
  purging : Bool
  /-- The bytes that the socket has taken. -/
  wire : List Byte
  /-- How many purges were started by `io_wait` so far. -/
  waitPurges : Nat

namespace Link

/-- Where the requests begin in the write buffer. -/
def emptyOffset (s : Link) : Nat := if s.type = .udp then udpDatagramHeaderLength else 0

/-- `memcached_quit_server`, after an error. -/
def quitServer (s : Link) : Link :=
  { s with isOpen := false, cursorActive := 0, ioBytesSent := 0, writeBufferOffset := s.emptyOffset }

/-- `increment_udp_message_id`.  The identifier is in the first two bytes of the buffer. -/
def incrementUdpMessageId (s : Link) : Link :=
  let curReq := (s.writeBuffer 0).val * 256 + (s.writeBuffer 1).val
  let threadId := curReq / 2 ^ 10
  let msgNum := if curReq % 2 ^ 10 + 1 = 2 ^ 10 then 0 else curReq % 2 ^ 10 + 1
  let requestId := threadId ||| msgNum
  { s with writeBuffer := store s.writeBuffer 0 [Fin.ofNat 256 (requestId / 256), Fin.ofNat 256 requestId] }

def take (s : Link) (localWritePtr sentLength : Nat) : Link :=
  { s with
    wire := s.wire ++ slice s.writeBuffer localWritePtr sentLength
    ioBytesSent := s.ioBytesSent + UInt32.ofNat sentLength }

def copy (s : Link) (bytes : List Byte) : Link :=
  { s with
    writeBuffer := store s.writeBuffer s.writeBufferOffset bytes
    writeBufferOffset := s.writeBufferOffset + bytes.length }

end Link

/-! ## Replies -/

inductive ReplyEnd where
  /-- The reply was read. -/
  | read
  /-- The connection was closed, and the code is none of those that `memcached_purge` looks for. -/
  | lost
  /-- `MEMCACHED_PROTOCOL_ERROR` or `MEMCACHED_UNKNOWN_READ_FAILURE`, with the connection closed. -/
  | outOfSync (rc : ReturnT)

structure Reply where
  /-- `_io_fill` reads something from the socket. -/
  filled : Bool
  ending : ReplyEnd

/-- `memcached_read_one_response`.  The result is the code, where `memcached_purge` looks for it. -/
def readOneResponse (s : Link) (reply : Reply) : Option ReturnT × Link :=
  let s := { s with cursorActive := s.cursorActive - 1 }
  if !s.isOpen then (none, s)
  else
    let s := if reply.filled then { s with ioBytesSent := 0 } else s
    match reply.ending with
    | .read => (none, s)
    | .lost => (none, s.quitServer)
    | .outOfSync rc => (some rc, s.quitServer)

/-- A call that has not returned, because there is no answer to its next system call.  The other
case is a purge that starts another one. -/
inductive Blocked where
  | noAnswer
  | recursion

/-- The loop of `memcached_purge` over the replies. -/
def readReplies : Nat → List Reply → ReturnT → Link → Except Blocked (ReturnT × Link)
  | 0, _, ret, s => .ok (ret, s)
  | _ + 1, [], _, _ => .error .noAnswer
  | noMsg + 1, reply :: replies, ret, s =>
    readReplies noMsg replies ((readOneResponse s reply).1.getD ret) (readOneResponse s reply).2

/-! ## Waiting and flushing -/

/-- What `poll` answers. -/
inductive Poll where
  | ready
  | timeout
  | interrupted
  | noMemory
  | error

/-- The loop of `io_wait` around `poll`. -/
def pollLoop : Nat → List Poll → Link → Except Blocked (ReturnT × Link)
  | 0, _, s => .ok (.errno, s.quitServer)
  | _ + 1, [], _ => .error .noAnswer
  | _ + 1, .ready :: _, s => .ok (.success, s)
  | _ + 1, .timeout :: _, s => .ok (.timeout, s)
  | loopMax + 1, .interrupted :: polls, s => pollLoop loopMax polls s
  | _ + 1, .noMemory :: _, s => .ok (.memoryAllocationFailure, s)
  | _ + 1, .error :: _, s => .ok (.errno, s.quitServer)

/-- What `send` answers, and what happens before the next attempt. -/
inductive Sent (P : Type) where
  /-- The socket takes some bytes. -/
  | bytes (n : Nat)
  /-- `ENOBUFS`. -/
  | noBuffers
  /-- `EAGAIN`.  Then `repack_input_buffer` may read something, `process_input_buffer` may
  read replies, and `io_wait` may purge and polls. -/
  | wouldBlock (repacked : Bool) (input : List Reply) (purge : P) (polls : List Poll)
  | error

/-- What happens during a call of `io_flush`. -/
structure Flush (P : Type) where
  /-- During the purge at its start. -/
  purge : P
  sends : List (Sent P)

section Flushing

variable {P : Type} (r : Root) (purge : P → Link → Except Blocked (ReturnT × Link))

/-- `memcached_purge` goes on after its test. -/
def Root.mustPurge (s : Link) : Bool :=
  !(s.purging || r.multiStore ||
    (decide (s.cursorActive < r.ioMsgWatermark) && decide (s.ioBytesSent < r.ioBytesWatermark)) ||
    (decide (r.ioBytesWatermark ≤ s.ioBytesSent) && decide (s.cursorActive < 2)))

/-- `io_wait`, for `MEM_WRITE`. -/
def ioWait (p : P) (polls : List Poll) (s : Link) : Except Blocked (ReturnT × Link) := do
  let s := if r.mustPurge s then { s with waitPurges := s.waitPurges + 1 } else s
  let (rc, s) ← purge p s
  if rc ≠ .success ∧ rc ≠ .stored then return (.failure, s)
  else if r.pollTimeout = 0 then return (.timeout, s)
  else pollLoop 4 polls s

/-- The loop of `io_flush`.  The result is the number of bytes, or none for `-1`. -/
def sendLoop : List (Sent P) → Nat → Nat → Nat → Link → Except Blocked (Option Nat × Link)
  | _, _, 0, returnLength, s =>
    .ok (some returnLength, { s with writeBufferOffset := s.emptyOffset })
  | [], _, _ + 1, _, _ => .error .noAnswer
  | answer :: sends, localWritePtr, writeLength + 1, returnLength, s =>
    let s := if s.type = .udp then s.incrementUdpMessageId else s
    if !s.isOpen then .ok (none, s.quitServer)
    else
      match answer with
      | .bytes n =>
        let sentLength := min n (writeLength + 1)
        if s.type = .udp ∧ sentLength ≠ writeLength + 1 then .ok (none, s.quitServer)
        else
          sendLoop sends (localWritePtr + sentLength) (writeLength + 1 - sentLength)
            (returnLength + sentLength) (s.take localWritePtr sentLength)
      | .noBuffers => sendLoop sends localWritePtr (writeLength + 1) returnLength s
      | .wouldBlock repacked input p polls =>
        if repacked then sendLoop sends localWritePtr (writeLength + 1) returnLength s
        else if r.callbacks && !r.useUdp then
          sendLoop sends localWritePtr (writeLength + 1) returnLength
            (input.foldl (fun s reply => (readOneResponse s reply).2) s)
        else do
          let (rc, s) ← ioWait r purge p polls s
          if rc = .success then sendLoop sends localWritePtr (writeLength + 1) returnLength s
          else return (none, s.quitServer)
      | .error => .ok (none, s.quitServer)

/-- `io_flush`. -/
def ioFlush (f : Flush P) (s : Link) : Except Blocked (Option Nat × Link) := do
  let (rc, s) ← purge f.purge s
  if rc ≠ .success ∧ rc ≠ .stored then return (none, s)
  else if s.type = .udp ∧ maxUdpDatagramLength < s.writeBufferOffset then return (none, s)
  else if s.writeBufferOffset = 0 ∨
      (s.type = .udp ∧ s.writeBufferOffset = udpDatagramHeaderLength) then return (some 0, s)
  else sendLoop r purge f.sends 0 s.writeBufferOffset 0 s

/-! ## Writing -/

/-- The loop of `_io_write`.  The answers that are left are for the calls after it. -/
def writeLoop : List (Flush P) → List Byte → Link → Except Blocked (Option (List (Flush P)) × Link)
  | flushes, [], s => .ok (some flushes, s)
  | flushes, byte :: buffer, s =>
    let length := buffer.length + 1
    let shouldWrite :=
      if s.type = .udp then length else min (maxBuffer - s.writeBufferOffset) length
    if s.type = .udp ∧ maxUdpDatagramLength < s.writeBufferOffset + shouldWrite then .ok (none, s)
    else
      let s := s.copy ((byte :: buffer).take shouldWrite)
      if s.writeBufferOffset = maxBuffer ∧ s.type ≠ .udp then
        match flushes with
        | [] => .error .noAnswer
        | f :: flushes => do
          let (sentLength, s) ← ioFlush r purge f s
          if sentLength = none then return (none, s)
          else writeLoop flushes ((byte :: buffer).drop shouldWrite) s
      else
        -- A write buffer that is not full has taken everything.
        .ok (some flushes, s)

/-- `_io_write`. -/
def ioWrite (buffer : List Byte) (withFlush : Bool) (flushes : List (Flush P)) (s : Link) :
    Except Blocked (Option Nat × Link) := do
  match ← writeLoop r purge flushes buffer s with
  | (none, s) => return (none, s)
  | (some flushes, s) =>
    if withFlush then
      match flushes with
      | [] => .error .noAnswer
      | f :: _ => do
        let (sentLength, s) ← ioFlush r purge f s
        if sentLength = none then return (none, s) else return (some buffer.length, s)
    else return (some buffer.length, s)

end Flushing

/-! ## Purging -/

section Purging

variable (r : Root)

/-- `memcached_purge` where a purge is on its way already. -/
def purgeAgain (_ : Unit) (s : Link) : Except Blocked (ReturnT × Link) :=
  if r.mustPurge s then .error .recursion else .ok (.success, s)

structure Purge where
  flush : Flush Unit
  replies : List Reply

/-- `memcached_purge`. -/
def memcachedPurge (p : Purge) (s : Link) : Except Blocked (ReturnT × Link) :=
  if !r.mustPurge s then .ok (.success, s)
  else do
    let s := { s with purging := true }
    let (sentLength, s) ← ioWrite r (purgeAgain r) [] true [p.flush] s
    if sentLength = none then return (.writeFailure, { s with purging := false })
    else
      let noMsg := s.cursorActive - 1
      let (ret, s) ← readReplies noMsg.toNat p.replies .success s
      return (ret, { s with purging := false })

/-- `memcached_io_write`. -/
def memcachedIoWrite (buffer : List Byte) (withFlush : Bool) (flushes : List (Flush Purge))
    (s : Link) : Except Blocked (Option Nat × Link) :=
  ioWrite r (memcachedPurge r) buffer withFlush flushes s

/-- The loop of `memcached_io_writev`. -/
def writevLoop : List (List Byte × List (Flush Purge)) → Nat → Link →
    Except Blocked (Option Nat × Link)
  | [], total, s => .ok (some total, s)
  | (buffer, flushes) :: vector, total, s => do
    match ← ioWrite r (memcachedPurge r) buffer false flushes s with
    | (none, s) => return (none, s)
    | (some returnable, s) => writevLoop vector (total + returnable) s

/-- `memcached_io_writev`. -/
def memcachedIoWritev (vector : List (List Byte × List (Flush Purge))) (withFlush : Bool)
    (last : List (Flush Purge)) (s : Link) : Except Blocked (Option Nat × Link) := do
  match ← writevLoop r vector 0 s with
  | (none, s) => return (none, s)
  | (some total, s) =>
    if withFlush then
      match ← memcachedIoWrite r [] true last s with
      | (none, s) => return (none, s)
      | (some _, s) => return (some total, s)
    else return (some total, s)

end Purging

end ArcusClient.Io
