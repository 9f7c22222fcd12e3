import ArcusClient.Io.Write

/-!
# Reading from a server

`read_ptr` is where the unread bytes of the read buffer begin, `read_buffer_length` is their number,
and `read_data_length` is how far the buffer was filled.  `_io_fill` reads from the socket to the
beginning of the buffer, `repack_input_buffer` moves the unread bytes there and reads behind them, and
`memcached_io_read` and `memcached_io_readline` copy bytes.

The network delivers a stream of bytes in chunks.  A `recv` takes one chunk, or the part of it that it
has room for.  Attempts that `_io_fill` repeats are left out.  Behind the last chunk the stream ends in
one of four ways (`Ending`).
-/

namespace ArcusClient.Io

open Memory

/-- What `_io_fill` meets behind the last chunk. -/
inductive Ending where
  /-- Nothing comes before the timeout. -/
  | timeout
  /-- `poll` fails, and the connection is closed. -/
  | pollError
  /-- The server has closed the connection. -/
  | closed
  /-- `recv` fails. -/
  | error
  deriving DecidableEq

/-- The code that `_io_fill` returns. -/
def Ending.code : Ending → ReturnT
  | .timeout => .inProgress
  | .pollError => .inProgress
  | .closed => .connectionFailure
  | .error => .errno

/-- The members of a server that have to do with reading, and the network. -/
structure Reader where
  /-- `fd` is not `INVALID_SOCKET`. -/
  isOpen : Bool
  readBuffer : Nat → Byte
  /-- The index of `read_ptr` in the buffer. -/
  readPtr : Nat
  readBufferLength : Nat
  readDataLength : Nat
  /-- What the network will deliver. -/
  chunks : List (List Byte)
  ending : Ending
  /-- The bytes that came from the socket so far. -/
  received : List Byte
  /-- The bytes that were read from the buffer so far. -/
  consumed : List Byte

namespace Reader

def new : Reader := ⟨false, fun _ => 0, 0, 0, 0, [], .closed, [], []⟩

/-- `memcached_quit_server`, after an error. -/
def quitServer (s : Reader) : Reader := { s with isOpen := false, readBufferLength := 0, readPtr := 0 }

/-- `memcached_connect`: a new connection, with what it will deliver. -/
def connect (s : Reader) (chunks : List (List Byte)) (ending : Ending) : Reader :=
  { s with isOpen := true, chunks := chunks, ending := ending, received := [], consumed := [] }

def unread (s : Reader) : List Byte := slice s.readBuffer s.readPtr s.readBufferLength

/-- `recv`, with the index where the bytes go and the room there.  The result is their number. -/
def recv (s : Reader) (index room : Nat) : Option (Nat × Reader) :=
  match s.chunks with
  | [] => none
  | chunk :: chunks =>
    some ((chunk.take room).length, { s with
      readBuffer := store s.readBuffer index (chunk.take room)
      chunks := if chunk.length ≤ room then chunks else chunk.drop room :: chunks
      received := s.received ++ chunk.take room })

/-- The unread bytes are moved to the beginning of the buffer. -/
def moveToFront (s : Reader) : Reader :=
  if s.readPtr = 0 then s
  else { s with
    readBuffer := store s.readBuffer 0 s.unread
    readPtr := 0
    readDataLength := s.readBufferLength }

/-- `repack_input_buffer`.  The argument tells if there is something to receive. -/
def repackInputBuffer (arrived : Bool) (s : Reader) : Bool × Reader :=
  let s := s.moveToFront
  if s.readBufferLength ≠ maxBuffer ∧ s.isOpen ∧ arrived then
    match s.recv (s.readPtr + s.readDataLength) (maxBuffer - s.readDataLength) with
    | none => (false, s)
    | some (0, s) => (false, s)
    | some (nr + 1, s) =>
      (true, { s with
        readDataLength := s.readDataLength + (nr + 1)
        readBufferLength := s.readBufferLength + (nr + 1) })
  else (false, s)

/-- `_io_fill`. -/
def ioFill (s : Reader) : ReturnT × Reader :=
  match s.recv 0 maxBuffer with
  | none => (s.ending.code, if s.ending = .timeout then s else s.quitServer)
  | some (dataRead, s) =>
    (.success, { s with readDataLength := dataRead, readBufferLength := dataRead, readPtr := 0 })

def consume (s : Reader) (n : Nat) : Reader :=
  { s with
    readPtr := s.readPtr + n
    readBufferLength := s.readBufferLength - n
    consumed := s.consumed ++ slice s.readBuffer s.readPtr n }

/-! ## `memcached_io_read` -/

/-- What a call returns: its code, and the bytes that it has copied. -/
abbrev Answer := ReturnT × List Byte

/-- The loop of `memcached_io_read`. -/
def ioReadLoop : Nat → Nat → List Byte → Reader → Option (Answer × Reader)
  | _, 0, bytes, s => some ((.success, bytes), s)
  | 0, _ + 1, _, _ => none
  | fuel + 1, remains + 1, bytes, s =>
    let (rc, s) := if s.readBufferLength = 0 then s.ioFill else (.success, s)
    if rc ≠ .success then some ((rc, bytes), s)
    else
      let difference := if 1 < remains + 1 then min (remains + 1) s.readBufferLength else 1
      ioReadLoop fuel (remains + 1 - difference) (bytes ++ slice s.readBuffer s.readPtr difference)
        (s.consume difference)

/-- `memcached_io_read`.  Without a buffer the bytes are dropped. -/
def memcachedIoRead (length : Nat) (hasBuffer : Bool) (s : Reader) : Option (Answer × Reader) :=
  if !s.isOpen then some ((.connectionFailure, []), s)
  else (ioReadLoop length length [] s).map fun r => ((r.1.1, if hasBuffer then r.1.2 else []), r.2)

/-! ## `memcached_io_readline` -/

def newline : Byte := 10

/-- The inner loop of `memcached_io_readline`, over the unread bytes and the room in the line.  The
result tells if the line is complete. -/
def copyLine : Nat → Nat → List Byte → Reader → Bool × List Byte × Reader
  | 0, _, line, s => (false, line, s)
  | _ + 1, 0, line, s => (false, line, s)
  | left + 1, room + 1, line, s =>
    let byte := s.readBuffer s.readPtr
    if byte = newline then (true, line ++ [byte], s.consume 1)
    else copyLine left room (line ++ [byte]) (s.consume 1)

def readlineFill (line : List Byte) (s : Reader) : Option (Answer × Bool × Reader) :=
  if s.readBufferLength = 0 then
    (memcachedIoRead 1 true s).map fun r =>
      ((r.1.1, line ++ r.1.2), r.1.1 = .success ∧ r.1.2 = [newline], r.2)
  else some ((.success, line), false, s)

/-- The loop of `memcached_io_readline`. -/
def readlineLoop : Nat → Nat → List Byte → Reader → Option (Answer × Reader)
  | 0, _, _, _ => none
  | fuel + 1, size, line, s =>
    (readlineFill line s).bind fun ((rc, line), lineComplete, s) =>
      if rc ≠ .success then
        some ((rc, line), if rc = .inProgress then s.quitServer else s)
      else
        let (lineComplete, line, s) :=
          if lineComplete then (true, line, s)
          else copyLine s.readBufferLength (size - line.length) line s
        if line.length = size then some ((.protocolError, line), s)
        else if lineComplete then some ((.success, line), s)
        else readlineLoop fuel size line s

/-- `memcached_io_readline`.  A round that reads no byte repeats itself for ever, so the bytes that
are left to read bound the number of rounds. -/
def memcachedIoReadline (size : Nat) (s : Reader) : Option (Answer × Reader) :=
  readlineLoop (s.readBufferLength + s.chunks.flatten.length + 1) size [] s

end Reader

end ArcusClient.Io
