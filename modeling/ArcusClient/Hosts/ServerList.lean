import ArcusClient.Hosts.Continuum
import ArcusClient.Lib.Reconcile

/-!
# Changing the server list

The calls that change the array of servers: `memcached_server_add`, `memcached_server_push` and the
two updates, from a published list and from the master of a pool.  They all change the array first and
build the ring last.  Between the two a call may return early, with the ring of before.
-/

namespace ArcusClient

open CString Reconcile

/-- `memcached_servers_set_count`: the count is recorded in the first entry. -/
def setCount : List Server → List Server
  | [] => []
  | s :: rest => { s with numberOfHosts := rest.length + 1 } :: rest

/-- The type of a host does not go with the protocol of the client. -/
def protocolMismatch (flags : Flags) (type : Connection) : Bool :=
  (flags.useUdp && type != .udp) || (type == .udp && !flags.useUdp)

/-- A host at the end of the array.  A weight above one makes the ring weighted. -/
def appendServer (mc : Memcached) (s : Server) : Memcached :=
  { mc with
    servers := mc.servers ++ [s]
    ketama.weighted := mc.ketama.weighted || decide (1 < s.weight) }

/-! ## Pruning -/

/-- `memcached_server_prune` of all servers. -/
def serverPruneAll (mc : Memcached) : Memcached := { mc with servers := [] }

/-- `memcached_server_prune` of the servers marked dead.  The others keep their
order, and the new count is recorded in each. -/
def serverPrune (mc : Memcached) (marked : Marked Server) : Memcached :=
  { mc with servers := marked.alive.map fun s => { s with numberOfHosts := marked.alive.length } }

/-! ## Adding -/

section Calls

variable (P : Platform) (env : Env)

/-- The loop of `memcached_server_push_with_count`.  It ends at the first host of
the wrong type. -/
def pushServers (mc : Memcached) : List Server → ReturnT × Memcached
  | [] => (.success, mc)
  | s :: list =>
    if protocolMismatch mc.flags s.type then (.invalidHostProtocol, mc)
    else pushServers (appendServer mc (serverInit s.hostname s.port s.weight s.type)) list

/-- The end of a push: the count is recorded and the ring built, unless the loop
ended early. -/
def finishPush : ReturnT × Memcached → Except Fault (ReturnT × Memcached)
  | (.success, mc) => runDistribution P env { mc with servers := setCount mc.servers }
  | (rc, mc) => .ok (rc, mc)

/-- `memcached_server_push_with_count`, for a list that is not null. -/
def serverPushWithCount (mc : Memcached) (list : List Server) (count : Nat) :
    Except Fault (ReturnT × Memcached) :=
  if !env.realloc then .ok (.memoryAllocationFailure, mc)
  else finishPush P env (pushServers mc (list.take count))

/-- `memcached_server_list_count`: the count recorded in the first entry. -/
def serverListCount : List Server → Nat
  | [] => 0
  | s :: _ => s.numberOfHosts

/-- `memcached_server_push`.  There is nothing to do for a null list. -/
def serverPush (mc : Memcached) : Option (List Server) → Except Fault (ReturnT × Memcached)
  | none => .ok (.success, mc)
  | some list => serverPushWithCount P env mc list (serverListCount list)

def infoType (port : UInt16) : Connection := if port = 0 then .unixSocket else .tcp

/-- The loop of `memcached_server_push_with_serverinfo` over the entries that are
not in the array yet.  It ends at the first name that is too long. -/
def pushServerinfo (mc : Memcached) : List ServerInfo → ReturnT × Memcached
  | [] => (.success, mc)
  | info :: rest =>
    if info.exist then pushServerinfo mc rest
    else if h : isValidServername info.hostname = true then
      pushServerinfo
        (appendServer mc (serverInit ⟨info.hostname, h⟩ info.port 0 (infoType info.port))) rest
    else (.invalidArguments, mc)

/-- `memcached_server_push_with_serverinfo`. -/
def serverPushWithServerinfo (mc : Memcached) (serverinfo : List ServerInfo) :
    Except Fault (ReturnT × Memcached) :=
  if serverinfo.isEmpty then .ok (.success, mc)
  else if mc.flags.useUdp then .ok (.invalidHostProtocol, mc)
  else if !env.realloc then .ok (.memoryAllocationFailure, mc)
  else finishPush P env (pushServerinfo mc serverinfo)

/-! ## The published list -/

/-- The host name and the port that two lists are compared by. -/
structure Addr where
  hostname : CStr
  port : UInt16
  deriving DecidableEq

def Server.key (s : Server) : Addr := ⟨s.hostname, s.port⟩

def ServerInfo.key (i : ServerInfo) : Addr := ⟨i.hostname, i.port⟩

/-- The search of one server among the entries that no other has found. -/
def findServerinfo (s : Server) : List ServerInfo → Option (List ServerInfo) :=
  claim ServerInfo.exist (fun i => { i with exist := true }) ServerInfo.key s.key

/-- The loop that compares the array with the published list.  A server that is
not found is marked dead, and the entry of one that is found is marked.  The
number counts the entries found. -/
def matchServers : List Server → List ServerInfo → Marked Server × List ServerInfo × Nat
  | [], serverinfo => ([], serverinfo, 0)
  | s :: servers, serverinfo =>
    match findServerinfo s serverinfo with
    | some serverinfo' =>
      let (marked, rest, found) := matchServers servers serverinfo'
      ((s, false) :: marked, rest, found + 1)
    | none =>
      let (marked, rest, found) := matchServers servers serverinfo
      ((s, true) :: marked, rest, found)

/-- `do_memcached_update_serverlist`, with `serverlist_changed` beside the return
code. -/
def doMemcachedUpdateServerlist (mc : Memcached) (serverinfo : List ServerInfo) :
    Except Fault (Bool × ReturnT × Memcached) :=
  if serverinfo.isEmpty then
    if mc.servers.isEmpty then .ok (false, .success, mc)
    else (runDistribution P env (serverPruneAll mc)).map (true, ·)
  else
    let (marked, serverinfo', found) := matchServers mc.servers serverinfo
    let validcount := serverinfo.length - found
    let pruneFlag := marked.any Prod.snd
    if 0 < validcount then
      let mc := if pruneFlag then serverPrune mc marked else mc
      (serverPushWithServerinfo P env mc serverinfo').map (true, ·)
    else if pruneFlag then (runDistribution P env (serverPrune mc marked)).map (true, ·)
    else .ok (false, .success, mc)

/-! ## The list of the master -/

/-- The loop that compares a member with the master.  The cursor moves along the
master's list as long as the servers agree.  A server that does not agree is
marked dead.  The result has the master's servers from the cursor on. -/
def matchMaster : List Server → List Server → Marked Server × List Server
  | [], master => ([], master)
  | s :: servers, [] =>
    let (marked, rest) := matchMaster servers []
    ((s, true) :: marked, rest)
  | s :: servers, m :: master =>
    if s.key = m.key then
      let (marked, rest) := matchMaster servers master
      ((s, false) :: marked, rest)
    else
      let (marked, rest) := matchMaster servers (m :: master)
      ((s, true) :: marked, rest)

/-- `do_memcached_update_serverlist_with_master`. -/
def doMemcachedUpdateServerlistWithMaster (mc master : Memcached) :
    Except Fault (ReturnT × Memcached) :=
  if master.servers.isEmpty then
    if mc.servers.isEmpty then .ok (.success, mc)
    else runDistribution P env (serverPruneAll mc)
  else if mc.servers.isEmpty then serverPush P env mc (some master.servers)
  else
    let (marked, rest) := matchMaster mc.servers master.servers
    let pruneFlag := marked.any Prod.snd
    let mc := if pruneFlag then serverPrune mc marked else mc
    if !rest.isEmpty then serverPushWithCount P env mc rest rest.length
    else if pruneFlag then runDistribution P env mc
    else .ok (.success, mc)

end Calls

end ArcusClient
