import ArcusClient.Lib.CString
import ArcusClient.Lib.Sort
import ArcusClient.Lib.Rounding

/-!
# The client and its servers

The records of `libmemcached` that the server list and the hash ring are kept in, with the fields the
modelled functions read or write.

* `Server` is `memcached_server_st`.  Its host name fits its buffer by type (`Hostname`).
* `Memcached` is `memcached_st`.  The server array is a list, and `number_of_hosts` is its length.  A
  replicated client keeps its groups in `rgroups` and the unused server objects in `spare`.
* `Env` holds what the operating system answers during one call.
* `Platform` holds the code the model takes as given: `qsort`, MD5 and the rounding of floats.
-/

namespace ArcusClient

open CString (CStr strcmp decimal lit)

/-- `MEMCACHED_NI_MAXHOST`, the size of a host name buffer. -/
def niMaxHost : Nat := 1025

/-- `MEMCACHED_DEFAULT_PORT`. -/
def defaultPort : UInt16 := 11211

inductive ReturnT where
  | success
  | failure
  | memoryAllocationFailure
  | errno
  | invalidHostProtocol
  | invalidArguments
  | buffered
  | notfound
  | timeout
  | noServers
  | notSupported
  | badKeyProvided
  | nothingToUpdate
  | stored
  | writeFailure
  | protocolError
  | unknownReadFailure
  | connectionFailure
  | inProgress
  | keyTooBig
  | someErrors
  /-- `MEMCACHED_END`. -/
  | endOfReply
  | stat
  | deleted
  | value
  | item
  | notStored
  | dataExists
  | typeMismatch
  | unreadable
  | serverError
  | clientError
  | e2big
  | authFailure
  | authContinue
  | invalidCommand
  | undefinedResponse
  | partialRead
  | switchover
  | replSlave
  | createdStored
  | pipeErrorBadError
  | allSuccess
  | someSuccess
  | allFailure
  | duplicated
  | trimmed
  | outOfRange
  | notfoundElement
  | bkeyMismatch
  | attrMismatch
  | attr
  | attrErrorNotFound
  | attrErrorBadValue
  | count
  | position
  | created
  | updated
  | replaced
  | deletedDropped
  | overflowed
  | eflagMismatch
  | elementExists
  /-- `MEMCACHED_EXIST`, the answer of a test of membership. -/
  | exist
  | notExist
  | exists
  | pipeErrorCommandOverflow
  | pipeErrorMemoryOverflow
  | allExist
  | someExist
  | allNotExist
  /-- `MEMCACHED_MAXIMUM_RETURN`, which stands for no code yet. -/
  | maximumReturn
  deriving DecidableEq, Repr

/-- `memcached_connection_t`. -/
inductive Connection where
  | tcp
  | udp
  | unixSocket
  deriving DecidableEq, Repr

/-- `memcached_server_distribution_t`. -/
inductive Distribution where
  | modula
  | consistent
  | consistentKetama
  | random
  | consistentKetamaSpy
  | virtualBucket
  deriving DecidableEq, Repr

/-- `memcached_is_valid_servername`: the name and its terminator fit the buffer. -/
def isValidServername (name : CStr) : Bool := name.length < niMaxHost

abbrev Hostname := { name : CStr // isValidServername name = true }

/-- `memcached_server_st`. -/
structure Server where
  hostname : Hostname
  port : UInt16
  type : Connection
  weight : Nat
  /-- `number_of_hosts`: the length of the list, recorded in its first entry. -/
  numberOfHosts : Nat
  /-- `next_retry`: the time before which the host is ejected. -/
  nextRetry : Nat
  /-- `groupindex`: the replica group the server belongs to. -/
  groupindex : Int
  deriving DecidableEq

/-- `_server_init`. -/
def serverInit (hostname : Hostname) (port : UInt16) (weight : Nat) (type : Connection) : Server where
  hostname := hostname
  port := port
  type := type
  weight := if weight = 0 then 1 else weight
  numberOfHosts := 0
  nextRetry := 0
  groupindex := -1

namespace Server

/-- `str_port`, written by `_server_init`. -/
def strPort (s : Server) : CStr := decimal s.port.toNat

def addr (s : Server) : Hostname × UInt16 := (s.hostname, s.port)

instance : Inhabited Server := ⟨serverInit ⟨[], by decide⟩ 0 0 .tcp⟩

end Server

/-- An array with the marks `options.is_dead` of its entries.  A call that marks an
entry also prunes it before it returns, so the marks are no part of an entry. -/
abbrev Marked (α : Type) := List (α × Bool)

def Marked.alive {α : Type} (marked : Marked α) : List α :=
  (marked.filter fun e => !e.2).map Prod.fst

/-- An entry of the published server list, `memcached_server_info_st`. -/
structure ServerInfo where
  groupname : CStr
  hostname : CStr
  port : UInt16
  master : Bool
  /-- `exist`: the server is in the client's array already. -/
  exist : Bool
  deriving DecidableEq

/-- A server object of a replicated client, at its place in memory. -/
structure Replica where
  /-- The object. -/
  object : Nat
  /-- Its contents. -/
  server : Server
  deriving DecidableEq

/-- `memcached_rgroup_st`.  The slots of `replicas` from `nreplica` on are null. -/
structure Rgroup where
  groupname : CStr
  groupindex : Nat
  weight : Nat
  /-- The occupied slots of `replicas`.  The first is the master's. -/
  replicas : List Replica
  deriving DecidableEq

instance : Inhabited Rgroup := ⟨⟨[], 0, 1, []⟩⟩

/-- `nreplica`. -/
def Rgroup.nreplica (g : Rgroup) : Nat := g.replicas.length

structure SpareServers where
  /-- The free objects, the next to be used first. -/
  objects : List Nat
  /-- `server_navail`. -/
  navail : Nat
  deriving DecidableEq

/-- A point of the ring, `memcached_continuum_item_st`. -/
structure ContinuumItem where
  /-- `index`: the position of the host in its array. -/
  index : Nat
  /-- `value`: the position of the point on the ring. -/
  value : Nat
  deriving DecidableEq, Inhabited

/-- A built ring, `memcached_ketama_info_st`. -/
structure KetamaInfo where
  continuum : List ContinuumItem
  continuumPointsCounter : Nat
  deriving DecidableEq

/-- The member `ketama` of `memcached_st`. -/
structure Ketama where
  /-- `weighted`: some host was added with a weight above one. -/
  weighted : Bool
  nextDistributionRebuild : Nat
  info : Option KetamaInfo
  deriving DecidableEq

/-- The members of `flags` that the modelled functions read. -/
structure Flags where
  useSortHosts : Bool
  autoEjectHosts : Bool
  useUdp : Bool
  replEnabled : Bool
  deriving DecidableEq

/-- The members of `memcached_st` that count the room for groups and the server objects. -/
structure GroupStock where
  /-- `rgroup_ntotal`: the groups the array `rgroups` has room for. -/
  rgroupNtotal : Nat
  /-- `server_ntotal`: the server objects ever allocated. -/
  serverNtotal : Nat
  /-- The server objects no group uses. -/
  spare : SpareServers
  deriving DecidableEq

/-- `memcached_st`. -/
structure Memcached extends GroupStock where
  distribution : Distribution
  flags : Flags
  servers : List Server
  rgroups : List Rgroup
  ketama : Ketama
  /-- `virtual_bucket`: the master of each bucket. -/
  virtualBucket : Option (List Nat)
  deriving DecidableEq

/-- `number_of_hosts`: the hosts are groups in a replicated client. -/
def Memcached.numberOfHosts (mc : Memcached) : Nat :=
  if mc.flags.replEnabled then mc.rgroups.length else mc.servers.length

/-- `memcached_create`, with the given distribution and flags. -/
def memcachedCreate (distribution : Distribution) (flags : Flags) : Memcached where
  distribution := distribution
  flags := flags
  servers := []
  rgroups := []
  rgroupNtotal := 0
  serverNtotal := 0
  spare := ⟨[], 0⟩
  ketama := ⟨false, 0, none⟩
  virtualBucket := none

/-- What the operating system answers during one call. -/
structure Env where
  /-- The second `gettimeofday` reports, if it succeeds. -/
  gettimeofday : Option Nat
  /-- The memory for the ring's header is granted. -/
  mallocInfo : Bool
  /-- The memory for the ring's points is granted. -/
  mallocContinuum : Bool
  /-- The array of hosts is resized. -/
  realloc : Bool
  /-- The memory for the description of the groups is granted. -/
  mallocGroupinfo : Bool
  /-- The memory for the server objects, one after the other, is granted. -/
  mallocServer : Nat → Bool
  /-- The ring of the pool's master, if the client is another member of a pool. -/
  poolMaster : Option (Option KetamaInfo)

/-- Every request to the operating system is granted, and the client builds its
own ring. -/
structure Env.Ok (env : Env) : Prop where
  gettimeofday : env.gettimeofday.isSome
  mallocInfo : env.mallocInfo = true
  mallocContinuum : env.mallocContinuum = true
  realloc : env.realloc = true
  mallocGroupinfo : env.mallocGroupinfo = true
  mallocServer : ∀ n, env.mallocServer n = true
  poolMaster : env.poolMaster = none

def Env.granted : Env := ⟨some 0, true, true, true, true, fun _ => true, none⟩

theorem Env.granted_ok : Env.granted.Ok := ⟨rfl, rfl, rfl, rfl, rfl, fun _ => rfl, rfl⟩

structure Platform where
  qsort : Qsort
  /-- `libhashkit_md5_signature`: the sixteen bytes of the digest. -/
  md5 : CStr → Fin 16 → Fin 256
  /-- Rounding to `float`. -/
  float : Rounding
  /-- Rounding to `double`. -/
  double : Rounding

/-- A platform with a stable `qsort` and IEEE arithmetic. -/
def Platform.ofMd5 (md5 : CStr → Fin 16 → Fin 256) : Platform :=
  ⟨Qsort.insertion, md5, Rounding.single, Rounding.double⟩

end ArcusClient
