import ArcusClient.Hosts.ServerList
import ArcusClient.Lib.Strtok
import ArcusClient.Lib.Numerals

/-!
# Replica groups

A replicated client keeps groups of up to three servers, the first of which is the master.
`rgroupInfoCreate` sorts a published list into groups and decides which of them are valid, and the
update functions bring the groups of the client in line.  The servers are objects that come from a free
list and go back to it.  A failed assert of the source ends the call with a `Fault`.
-/

namespace ArcusClient

open CString Reconcile

/-- `RGROUP_MAX_REPLICA`. -/
def rgroupMaxReplica : Nat := 3

/-- `RGROUP_NAME_LENGTH`. -/
def rgroupNameLength : Nat := 128

/-! ## Group descriptions -/

/-- `memcached_rgroup_info_st`.  The master is in slot 0 of `replicas`, the slaves
in the slots from 1 on. -/
structure RgroupInfo where
  groupname : CStr
  master : Option ServerInfo
  slaves : List ServerInfo
  valid : Bool
  deriving DecidableEq

/-- `nreplica`. -/
def RgroupInfo.nreplica (g : RgroupInfo) : Nat := g.master.toList.length + g.slaves.length

def RgroupInfo.replicas (g : RgroupInfo) : List ServerInfo := g.master.toList ++ g.slaves

def newRgroupInfo (entry : ServerInfo) : RgroupInfo :=
  if entry.master then ⟨entry.groupname, some entry, [], true⟩
  else ⟨entry.groupname, none, [entry], true⟩

/-- The check and addition of one more entry.  A group stays as it is once it is
invalid. -/
def addServerInfo (g : RgroupInfo) (entry : ServerInfo) : RgroupInfo :=
  if !g.valid then g
  else if entry.master then
    -- a second master, or a server that is a slave already
    if g.master.isSome then { g with valid := false }
    else if g.slaves.any fun s => s.key = entry.key then { g with valid := false }
    else { g with master := some entry }
  else if rgroupMaxReplica ≤ g.slaves.length + 1 then { g with valid := false }
  else { g with slaves := g.slaves ++ [entry] }

/-- One round of the loop over the entries, with `valid_ngroup`. -/
def addEntry (entry : ServerInfo) : List RgroupInfo → UInt32 → List RgroupInfo × UInt32
  | [], validNgroup => ([newRgroupInfo entry], validNgroup + 1)
  | g :: groups, validNgroup =>
    if entry.groupname = g.groupname then
      let g' := addServerInfo g entry
      (g' :: groups, if g.valid && !g'.valid then validNgroup - 1 else validNgroup)
    else
      let (groups', validNgroup') := addEntry entry groups validNgroup
      (g :: groups', validNgroup')

def addEntries : List ServerInfo → List RgroupInfo → UInt32 → List RgroupInfo × UInt32
  | [], groups, validNgroup => (groups, validNgroup)
  | entry :: rest, groups, validNgroup =>
    let (groups', validNgroup') := addEntry entry groups validNgroup
    addEntries rest groups' validNgroup'

/-- The last pass.  A group without a master is invalid, and `valid_ngroup` goes
down for each of them, also for those that were invalid before. -/
def checkMasters : List RgroupInfo → UInt32 → List RgroupInfo × UInt32
  | [], validNgroup => ([], validNgroup)
  | g :: groups, validNgroup =>
    if g.master.isNone then
      let (groups', validNgroup') := checkMasters groups (validNgroup - 1)
      ({ g with valid := false } :: groups', validNgroup')
    else
      let (groups', validNgroup') := checkMasters groups validNgroup
      (g :: groups', validNgroup')

/-- `memcached_rgroup_info_create`: the descriptions and `validcount`. -/
def rgroupInfoCreate (serverinfo : List ServerInfo) : List RgroupInfo × UInt32 :=
  let (groups, validNgroup) := addEntries serverinfo [] 0
  checkMasters groups validNgroup

/-! ## Server objects -/

/-- `do_rgroup_server_alloc`. -/
def doRgroupServerAlloc (spare : SpareServers) : Option (Nat × SpareServers) :=
  match spare.objects with
  | [] => none
  | object :: rest => some (object, ⟨rest, spare.navail - 1⟩)

/-- `do_rgroup_server_free`. -/
def doRgroupServerFree (spare : SpareServers) (object : Nat) : SpareServers :=
  ⟨object :: spare.objects, spare.navail + 1⟩

def Replica.key (r : Replica) : Addr := r.server.key

/-- The address in `switchover_peer`, a host name and a port in 16 bits that is not zero. -/
def peerAddr (peer : CStr) : Option Addr :=
  match tokens [ofChar ':'] peer with
  | hostname :: port :: _ =>
    let port := UInt16.ofNat (atoi port % 2 ^ 16).toNat
    if port = 0 then none else some ⟨hostname, port⟩
  | _ => none

section Switchover

variable {α : Type}

/-- `do_rgroup_server_switchover`, on the servers of a group.  There is none if an assert fails. -/
def swapMaster (servers : List α) (sindex : Nat) : Option (List α) :=
  match servers[0]?, servers[sindex]? with
  | some master, some slave =>
    if sindex = 0 then none else some ((servers.set 0 slave).set sindex master)
  | _, _ => none

theorem swapMaster_eq_some {servers : List α} (hz : 0 < servers.length) (hp : 0 < k)
    (hk : k < servers.length) :
    swapMaster servers k = some ((servers.set 0 servers[k]).set k servers[0]) := by
  rw [swapMaster, List.getElem?_eq_getElem hz, List.getElem?_eq_getElem hk]
  exact if_neg hp.ne'

theorem swapMaster_eq_none {servers : List α} (h : k = 0 ∨ servers.length ≤ k) :
    swapMaster servers k = none := by
  rw [swapMaster]
  rcases h with rfl | hk
  · cases servers[0]? <;> rfl
  · rw [List.getElem?_eq_none hk]
    cases servers[0]? <;> rfl

/-- The slave that `switchover_peer` names. -/
def findPeer (key : α → Addr) (servers : List α) (peer : CStr) : Option Nat :=
  match peerAddr peer with
  | some addr => (servers.tail.findIdx? fun r => key r = addr).map (· + 1)
  | none => none

/-- The slave that `memcached_rgroup_switchover` makes the master. -/
def chosenSlave (key : α → Addr) (servers : List α) (switchoverSidx : Int) (peer : CStr) :
    Option Nat :=
  if switchoverSidx = -1 then findPeer key servers peer else some switchoverSidx.toNat

end Switchover

structure GroupSt where
  group : Rgroup
  spare : SpareServers
  deriving DecidableEq

namespace GroupSt

/-- The object for a new server, made from the free list. -/
def create (st : GroupSt) (hostname : Hostname) (port : UInt16) :
    Except Fault (Replica × SpareServers) :=
  match doRgroupServerAlloc st.spare with
  | none => .error .noServer
  | some (object, spare) =>
    .ok (⟨object, { serverInit hostname port 0 .tcp with groupindex := st.group.groupindex }⟩,
      spare)

/-- `do_rgroup_server_insert`, with `none` for an index of -1. -/
def insert (st : GroupSt) (sindex : Option Nat) (addr : Addr) : Except Fault GroupSt :=
  if rgroupMaxReplica ≤ st.group.nreplica then .error .assertion
  else if st.group.nreplica < sindex.getD 0 then .error .assertion
  else if h : isValidServername addr.hostname = true then do
    let (server, spare) ← st.create ⟨addr.hostname, h⟩ addr.port
    let replicas := st.group.replicas.insertIdx (sindex.getD st.group.nreplica) server
    return ⟨{ st.group with replicas := replicas }, spare⟩
  else .ok st

/-- `do_rgroup_server_remove`. -/
def remove (st : GroupSt) (sindex : Nat) : Except Fault GroupSt :=
  match st.group.replicas[sindex]? with
  | none => .error .assertion
  | some server =>
    .ok ⟨{ st.group with replicas := st.group.replicas.eraseIdx sindex },
      doRgroupServerFree st.spare server.object⟩

/-- `do_rgroup_server_replace`. -/
def replace (st : GroupSt) (sindex : Nat) (addr : Addr) : Except Fault GroupSt :=
  match st.group.replicas[sindex]? with
  | none => .error .assertion
  | some old =>
    if h : isValidServername addr.hostname = true then do
      let (server, spare) ← st.create ⟨addr.hostname, h⟩ addr.port
      return ⟨{ st.group with replicas := st.group.replicas.set sindex server },
        doRgroupServerFree spare old.object⟩
    else .ok st

/-- `do_rgroup_server_switchover`. -/
def switchover (st : GroupSt) (sindex : Nat) : Except Fault GroupSt :=
  match swapMaster st.group.replicas sindex with
  | none => .error .assertion
  | some replicas => .ok { st with group.replicas := replicas }

/-- The servers are taken away from the last on, `count` of them. -/
def removeLast (st : GroupSt) : (count : Nat) → Except Fault GroupSt
  | 0 => .ok st
  | count + 1 => do
    let st ← st.remove (st.group.nreplica - 1)
    st.removeLast count

def insertFrom (st : GroupSt) : (sindex : Nat) → List Addr → Except Fault GroupSt
  | _, [] => .ok st
  | sindex, addr :: rest => do
    let st ← st.insert (some sindex) addr
    st.insertFrom (sindex + 1) rest

/-! ## Updating one group -/

/-- The master is made the new one: by a switchover with the slave that is it
already, or by a new server. -/
def updateMaster (st : GroupSt) (newMaster : Addr) : Except Fault (Bool × GroupSt) :=
  match st.group.replicas with
  | [] => .error .nullPointer
  | master :: slaves =>
    if master.key = newMaster then .ok (false, st)
    else do
      let st ← match slaves.findIdx? fun r => r.key = newMaster with
        | some i => st.switchover (i + 1)
        | none => st.replace 0 newMaster
      return (true, st)

/-- The loop over the old slaves, from an index on.  A slave that is not among the
new ones is removed, and the next one is at the same index then. -/
def removeSlaves (st : GroupSt) : (i : Nat) → List Replica → List (Addr × Bool) →
    Except Fault (Bool × GroupSt × List (Addr × Bool))
  | _, [], marked => .ok (false, st, marked)
  | i, slave :: rest, marked =>
    match claim Prod.snd (fun e => (e.1, true)) Prod.fst slave.key marked with
    | some marked' => st.removeSlaves (i + 1) rest marked'
    | none => do
      let st ← st.remove i
      let (_, st, marked) ← st.removeSlaves i rest marked
      return (true, st, marked)

/-- The loop over the new slaves.  Those that no old slave matched are appended. -/
def insertSlaves (st : GroupSt) : List (Addr × Bool) → Except Fault (Bool × GroupSt)
  | [] => .ok (false, st)
  | (addr, exists_) :: rest =>
    if exists_ then st.insertSlaves rest
    else do
      let st ← st.insert none addr
      let (_, st) ← st.insertSlaves rest
      return (true, st)

def replaceMaster (st : GroupSt) (master : Replica) (newMaster : Addr) : Except Fault GroupSt :=
  if master.key = newMaster then .ok st else st.replace 0 newMaster

/-- The part that handles the slaves of a group that had some before. -/
def updateSlaves (st : GroupSt) (newSlaves : List Addr) : Except Fault (Bool × GroupSt) :=
  if newSlaves.isEmpty then do
    let st ← st.removeLast (st.group.nreplica - 1)
    return (true, st)
  else do
    let (removed, st, marked) ←
      st.removeSlaves 1 (st.group.replicas.drop 1) (newSlaves.map fun a => (a, false))
    let (inserted, st) ← st.insertSlaves marked
    return (removed || inserted, st)

/-- The body of `memcached_rgroup_update_with_groupinfo` and
`memcached_rgroup_update`, for a new group with the given servers, the master
first.  The result says whether something changed. -/
def update (st : GroupSt) : List Addr → Except Fault (Bool × GroupSt)
  | [] => .error .nullPointer
  | newMaster :: newSlaves =>
    match st.group.replicas with
    | [] => .error .nullPointer
    | [master] => do
      let st ← st.replaceMaster master newMaster
      let st ← st.insertFrom 1 newSlaves
      return (master.key != newMaster || !newSlaves.isEmpty, st)
    | _ :: _ :: _ => do
      let (changed, st) ← st.updateMaster newMaster
      let (changed', st) ← st.updateSlaves newSlaves
      return (changed || changed', st)

end GroupSt

/-- `memcached_rgroup_update_with_groupinfo`. -/
def rgroupUpdateWithGroupinfo (st : GroupSt) (rginfo : RgroupInfo) : Except Fault (Bool × GroupSt) :=
  st.update (rginfo.replicas.map ServerInfo.key)

/-- `memcached_rgroup_update`. -/
def rgroupUpdate (st : GroupSt) (newRgroup : Rgroup) : Except Fault (Bool × GroupSt) :=
  st.update (newRgroup.replicas.map Replica.key)

/-! ## The groups of a client -/

namespace GroupStock

def expandServers (env : Env) : (missing : Nat) → GroupStock → Bool × GroupStock
  | 0, s => (true, s)
  | missing + 1, s =>
    if !env.mallocServer s.serverNtotal then (false, s)
    else expandServers env missing
      { s with
        spare := doRgroupServerFree s.spare s.serverNtotal
        serverNtotal := s.serverNtotal + 1 }

/-- `memcached_rgroup_expand`.  The array of groups grows by tens, and there is one
server object more than servers, with the number of servers in 32 bits. -/
def expand (env : Env) (s : GroupStock) (rgroupcount servercount : Nat) : Bool × GroupStock :=
  if s.rgroupNtotal < rgroupcount then
    if !env.realloc then (false, s)
    else
      let newCount := s.rgroupNtotal + 10 * ((rgroupcount - s.rgroupNtotal + 9) / 10)
      expandServers env ((servercount + 1) % 2 ^ 32 - s.serverNtotal) { s with rgroupNtotal := newCount }
  else expandServers env ((servercount + 1) % 2 ^ 32 - s.serverNtotal) s

end GroupStock

def rgroupExpand (env : Env) (mc : Memcached) (rgroupcount servercount : Nat) : Bool × Memcached :=
  let (granted, stock) := mc.expand env rgroupcount servercount
  (granted, { mc with toGroupStock := stock })

/-- A new group at the end of the array, with the given servers.  The assert is
that of `do_rgroup_init` on the name. -/
def createRgroup (mc : Memcached) (groupname : CStr) (addrs : List Addr) : Except Fault Memcached :=
  if rgroupNameLength ≤ groupname.length then .error .assertion
  else do
    let st ← (⟨⟨groupname, mc.rgroups.length, 1, []⟩, mc.spare⟩ : GroupSt).insertFrom 0 addrs
    return { mc with rgroups := mc.rgroups ++ [st.group], spare := st.spare }

/-- The loop of `memcached_rgroup_push_with_groupinfo` over the valid groups. -/
def pushGroupinfo (mc : Memcached) : List RgroupInfo → Except Fault Memcached
  | [] => .ok mc
  | g :: groups =>
    if g.valid then do
      let mc ← createRgroup mc g.groupname (g.replicas.map ServerInfo.key)
      pushGroupinfo mc groups
    else pushGroupinfo mc groups

/-- `memcached_rgroup_push_with_groupinfo`. -/
def rgroupPushWithGroupinfo (P : Platform) (env : Env) (mc : Memcached)
    (groupinfo : List RgroupInfo) : Except Fault (ReturnT × Memcached) :=
  if mc.rgroupNtotal < groupinfo.length then .error .assertion
  else do
    let mc ← pushGroupinfo mc groupinfo
    runDistribution P env mc

/-- The loop of `memcached_rgroup_push`. -/
def pushRgroups (mc : Memcached) : List Rgroup → Except Fault Memcached
  | [] => .ok mc
  | g :: groups => do
    let mc ← createRgroup mc g.groupname (g.replicas.map Replica.key)
    pushRgroups { mc with ketama.weighted := mc.ketama.weighted || decide (1 < g.weight) } groups

/-- `memcached_rgroup_push`, for a list that is not null. -/
def rgroupPush (P : Platform) (env : Env) (mc : Memcached) (grouplist : List Rgroup) :
    Except Fault (ReturnT × Memcached) :=
  let sum := (grouplist.length + mc.rgroups.length) % 2 ^ 32
  match rgroupExpand env mc sum (sum * rgroupMaxReplica % 2 ^ 32) with
  | (false, mc) => .ok (.memoryAllocationFailure, mc)
  | (true, mc) => do
    let mc ← pushRgroups mc grouplist
    runDistribution P env mc

/-- `do_rgroup_destroy`: the servers go back to the free list. -/
def doRgroupDestroy (g : Rgroup) (spare : SpareServers) : SpareServers :=
  g.replicas.reverse.foldl (fun spare r => doRgroupServerFree spare r.object) spare

/-- `memcached_rgroup_prune` of all groups.  Every server object is released.  The
array is null as long as there is no room in it. -/
def rgroupPruneAll (mc : Memcached) : Memcached :=
  if mc.rgroupNtotal = 0 ∧ mc.rgroups = [] then mc
  else
    let spare := mc.rgroups.foldl (fun spare g => doRgroupDestroy g spare) mc.spare
    { mc with
      rgroups := []
      rgroupNtotal := 0
      serverNtotal := 0
      spare := ⟨[], spare.navail - spare.objects.length⟩ }

/-- The loop that frees dead groups and moves the others up. -/
def pruneRgroups : (x cursor : Nat) → Marked Rgroup → SpareServers → List Rgroup × SpareServers
  | _, _, [], spare => ([], spare)
  | x, cursor, (g, true) :: rest, spare =>
    pruneRgroups (x + 1) cursor rest (doRgroupDestroy g spare)
  | x, cursor, (g, false) :: rest, spare =>
    let (groups, spare) := pruneRgroups (x + 1) (cursor + 1) rest spare
    ((if cursor < x then doRgroupIndexSet g cursor else g) :: groups, spare)

/-- `memcached_rgroup_prune` of the groups marked dead. -/
def rgroupPrune (mc : Memcached) (marked : Marked Rgroup) : Memcached :=
  let (groups, spare) := pruneRgroups 0 0 marked mc.spare
  { mc with rgroups := groups, spare := spare }

/-- `memcached_rgroup_switchover`, for a server with the given members. -/
def rgroupSwitchover (mc : Memcached) (groupindex switchoverSidx : Int) (peer : CStr) :
    Except Fault Memcached :=
  if groupindex < 0 then .error .assertion
  else
    match mc.rgroups[groupindex.toNat]? with
    | none => .error .outOfArray
    | some g =>
      match chosenSlave Replica.key g.replicas switchoverSidx peer with
      | none => .ok mc
      | some sindex => do
        let st ← (⟨g, mc.spare⟩ : GroupSt).switchover sindex
        return { mc with rgroups := mc.rgroups.set groupindex.toNat st.group }

end ArcusClient
