import ArcusClient.Hosts.Types
import ArcusClient.Lib.Wrapping

/-!
# Building the ring

The ring of a client has four points for each of the strings `host:port-0`, `host:port-1` and so on
(`sort_host`), taken from the MD5 digest of the string.  A replicated client uses the names of its
groups instead.  `update_continuum` and `update_continuum_based_on_rgroups` differ only in what they
read of a host, so both are `updateRing` at their own `RingHosts`.
-/

namespace ArcusClient

open CString

/-- How a call ends that does not return. -/
inductive Fault where
  /-- An `assert` that does not hold. -/
  | assertion
  /-- The `assert` that there is a free server object. -/
  | noServer
  /-- A read through a null pointer. -/
  | nullPointer
  /-- An index that is not in the array. -/
  | outOfArray
  /-- An access to memory that was freed. -/
  | freed
  /-- A loop that does not end. -/
  | endless
  deriving DecidableEq, Repr

/-! ## Comparison functions -/

/-- `compare_servers`, the order of `sort_hosts`. -/
def compareServers (a b : Server) : Int :=
  let returnValue := strcmp a.hostname b.hostname
  if returnValue = 0 then (a.port.toNat : Int) - b.port.toNat else returnValue

/-- `host:port` of a server, as `compare_server_hostport` writes it. -/
def hostport (s : Server) : CStr := s.hostname ++ ofChar ':' :: s.strPort

/-- `compare_server_hostport`, the order of servers whose points collide. -/
def compareServerHostport (a b : Server) : Int :=
  let returnValue := strcmp a.hostname b.hostname
  if returnValue = 0 then strcmp a.strPort b.strPort
  else if a.hostname.1.length ≠ b.hostname.1.length then strcmp (hostport a) (hostport b)
  else returnValue

/-- `do_rgroup_compare`, the order of groups. -/
def doRgroupCompare (a b : Rgroup) : Int := strcmp a.groupname b.groupname

/-! ## Points -/

/-- `MEMCACHED_POINTS_PER_SERVER`. -/
def pointsPerServer : Nat := 160

/-- `MEMCACHED_MAX_HOST_SORT_LENGTH`, the size of `sort_host`. -/
def maxHostSortLength : Nat := 86

/-- `ketama_server_hash`: four bytes of the digest, the lowest first. -/
def ketamaServerHash (md5 : CStr → Fin 16 → Fin 256) (key : CStr) (alignment : Fin 4) : Nat :=
  let byte (k : Fin 4) : Nat := md5 key ⟨k + alignment * 4, by omega⟩
  byte 3 * 2 ^ 24 + byte 2 * 2 ^ 16 + byte 1 * 2 ^ 8 + byte 0

structure RingHosts (α : Type) where
  weight : α → Nat
  /-- The host has a retry delay, so that it gets no points. -/
  ejected : α → Bool
  /-- The string hashed for the points of a given `pointer_index`. -/
  sortHost : α → Nat → CStr
  /-- The order of hosts whose points collide. -/
  tie : α → α → Int

section Build

variable {α : Type} (P : Platform) (ring : RingHosts α)

def RingHosts.live (hosts : List α) : List α := hosts.filter fun a => !ring.ejected a

/-- `all_weights_same`. -/
def allWeightsSame : List Nat → Bool
  | [] => true
  | firstWeight :: ws => ws.all (· == firstWeight)

/-- The weighted number of hashes of a host, in floating point as the source
computes it: every operation is rounded to `float`, the addition to `double`. -/
def weightedShare (weight totalWeight liveServers : Nat) : ℚ :=
  let f := P.float.rnd
  let pct := f (f weight / f totalWeight)
  let scaled := f (f (f (pct * pointsPerServer) / 4) * f liveServers)
  f (P.double.rnd (scaled + P.double.rnd (1 / 10 ^ 10)))

/-- `pointer_per_server` for a host of the given weight, among live hosts of the
given weights. -/
def pointerPerServer (weighted : Bool) (weights : List Nat) (weight : Nat) : Nat :=
  if weighted && !allWeightsSame weights then
    ⌊weightedShare P weight weights.sum weights.length⌋₊ * 4
  else pointsPerServer

/-- The number of points of a host, when `hosts` are in the array. -/
def RingHosts.pps (weighted : Bool) (hosts : List α) (host : α) : Nat :=
  pointerPerServer P weighted ((ring.live hosts).map ring.weight) (ring.weight host)

def stringPoints (hostIndex : Nat) (sortHost : CStr) : List ContinuumItem :=
  (List.finRange 4).map fun x => ⟨hostIndex, ketamaServerHash P.md5 sortHost x⟩

/-- The loop over `pointer_index`.  It ends the call when a string does not fit. -/
def placeHost (host : α) (hostIndex : Nat) : List Nat → Option (List ContinuumItem)
  | [] => some []
  | pointerIndex :: rest =>
    if maxHostSortLength ≤ (ring.sortHost host pointerIndex).length then none
    else (placeHost host hostIndex rest).map
      (stringPoints P hostIndex (ring.sortHost host pointerIndex) ++ ·)

/-- The loop over `host_index`, for hosts with `pps host` points each. -/
def placeHosts (pps : α → Nat) : (hostIndex : Nat) → List α → Option (List ContinuumItem)
  | _, [] => some []
  | hostIndex, host :: hosts =>
    if ring.ejected host then placeHosts pps (hostIndex + 1) hosts
    else do
      let points ← placeHost P ring host hostIndex (List.range (pps host / 4))
      let rest ← placeHosts pps (hostIndex + 1) hosts
      return points ++ rest

/-- `continuum_item_cmp`, with `cmp_servers` or `cmp_rgroups` as `hosts`. -/
def continuumItemCmp [Inhabited α] (hosts : List α) (ct1 ct2 : ContinuumItem) : Int :=
  if ct1.value = ct2.value then
    ring.tie (hosts.getD ct1.index default) (hosts.getD ct2.index default)
  else if ct2.value < ct1.value then 1
  else -1

/-- The counters of `update_continuum`, and the entries of `new_continuum` it has
written so far. -/
structure ContinuumSt where
  continuumIndex : Nat := 0
  pointerCounter : Nat := 0
  writes : List Nat := []

/-- `continuum_index++`, behind the two writes to the entry. -/
def ContinuumSt.writePoint (c : ContinuumSt) : ContinuumSt :=
  { c with
    continuumIndex := (c.continuumIndex + 1) % 2 ^ 32
    writes := c.writes ++ [c.continuumIndex] }

/-- The body of the loop over `host_index`: a round for each `pointer_index`, with
one point for each of the four `x`. -/
def ContinuumSt.placeServer (pointerPerServer : Nat) (c : ContinuumSt) : ContinuumSt :=
  let c := (ContinuumSt.writePoint^[4])^[pointerPerServer / 4] c
  { c with pointerCounter := (c.pointerCounter + pointerPerServer) % 2 ^ 32 }

/-- The whole loop, for live hosts with the given numbers of points. -/
def placeServers (shares : List Nat) : ContinuumSt :=
  shares.foldl (fun c pointerPerServer => c.placeServer pointerPerServer) {}

/-- The new ring: the entries as they were written last, the first `pointer_counter`
of them sorted.  There is none when some `sort_host` does not fit. -/
def newKetamaInfo [Inhabited α] (weighted : Bool) (hosts : List α) : Option KetamaInfo :=
  let c := placeServers ((ring.live hosts).map (ring.pps P weighted hosts))
  (placeHosts P ring (ring.pps P weighted hosts) 0 hosts).map fun points =>
    let continuum := Wrapping.rewrites (c.writes.zip points)
    { continuum := P.qsort.run (continuumItemCmp ring hosts) (continuum.take c.pointerCounter)
        ++ continuum.drop c.pointerCounter
      continuumPointsCounter := c.pointerCounter }

/-- The part the two ring builders share, from the count of live hosts on. -/
def updateRing [Inhabited α] (env : Env) (hosts : List α) (mc : Memcached) : ReturnT × Memcached :=
  if (ring.live hosts).isEmpty then (.success, mc)
  else if !env.mallocInfo then (.memoryAllocationFailure, mc)
  else if !env.mallocContinuum then (.memoryAllocationFailure, mc)
  else match newKetamaInfo P ring mc.ketama.weighted hosts with
    | none => (.memoryAllocationFailure, mc)
    | some info => (.success, { mc with ketama.info := some info })

end Build

/-! ## The ring of a client -/

def serverSortHost (distribution : Distribution) (s : Server) (pointerIndex : Nat) : CStr :=
  if s.port = defaultPort ∧ distribution ≠ .consistentKetamaSpy then
    s.hostname ++ ofChar '-' :: decimal pointerIndex
  else s.hostname ++ ofChar ':' :: decimal s.port.toNat ++ ofChar '-' :: decimal pointerIndex

/-- What `update_continuum` reads of a server. -/
def serverRing (mc : Memcached) (now : Nat) : RingHosts Server where
  weight s := s.weight
  ejected s := mc.flags.autoEjectHosts && decide (now < s.nextRetry)
  sortHost := serverSortHost mc.distribution
  tie := compareServerHostport

/-- The earliest end of a retry delay, or zero when no host has one. -/
def nextRebuild (now : Nat) (servers : List Server) : Nat :=
  servers.foldl (fun rebuild s =>
    if s.nextRetry ≤ now then rebuild
    else if rebuild = 0 ∨ s.nextRetry < rebuild then s.nextRetry else rebuild) 0

/-- `update_continuum`. -/
def updateContinuum (P : Platform) (env : Env) (mc : Memcached) : ReturnT × Memcached :=
  match env.poolMaster with
  | some info => (.success, { mc with ketama.info := info })
  | none =>
    match env.gettimeofday with
    | none => (.errno, mc)
    | some now =>
      let mc' := if mc.flags.autoEjectHosts then
        { mc with ketama.nextDistributionRebuild := nextRebuild now mc.servers } else mc
      updateRing P (serverRing mc now) env mc.servers mc'

/-- What `update_continuum_based_on_rgroups` reads of a group. -/
def rgroupRing : RingHosts Rgroup where
  weight g := g.weight
  ejected _ := false
  sortHost g pointerIndex := g.groupname ++ ofChar '-' :: decimal pointerIndex
  tie := doRgroupCompare

/-- `update_continuum_based_on_rgroups`.  The distribution is asserted after the
memory is granted. -/
def updateContinuumBasedOnRgroups (P : Platform) (env : Env) (mc : Memcached) :
    Except Fault (ReturnT × Memcached) :=
  match env.poolMaster with
  | some info => .ok (.success, { mc with ketama.info := info })
  | none =>
    if env.gettimeofday.isNone then .ok (.errno, mc)
    else if mc.flags.autoEjectHosts then .error .assertion
    else if !mc.rgroups.isEmpty && env.mallocInfo && env.mallocContinuum
        && mc.distribution != .consistentKetamaSpy then .error .assertion
    else .ok (updateRing P rgroupRing env mc.rgroups mc)

/-! ## Distribution -/

/-- `sort_hosts`.  The count is recorded in the entry that comes first. -/
def sortHosts (P : Platform) (mc : Memcached) : Memcached :=
  match P.qsort.run compareServers mc.servers with
  | [] => mc
  | s :: rest =>
    { mc with servers := { s with numberOfHosts := mc.servers.length } :: rest }

/-- `do_rgroup_index_set`: the group and its servers learn their place. -/
def doRgroupIndexSet (g : Rgroup) (groupindex : Nat) : Rgroup :=
  if g.groupindex = groupindex then g
  else { g with
    groupindex := groupindex
    replicas := g.replicas.map fun r => { r with server.groupindex := groupindex } }

/-- `memcached_rgroup_sort`. -/
def rgroupSort (P : Platform) (mc : Memcached) : Memcached :=
  { mc with rgroups := (P.qsort.run doRgroupCompare mc.rgroups).mapIdx fun x g =>
      doRgroupIndexSet g x }

/-- `run_distribution`. -/
def runDistribution (P : Platform) (env : Env) (mc : Memcached) :
    Except Fault (ReturnT × Memcached) :=
  let mc := if mc.flags.useSortHosts then
    (if mc.flags.replEnabled then rgroupSort P mc else sortHosts P mc) else mc
  match mc.distribution with
  | .consistent | .consistentKetama | .consistentKetamaSpy =>
    if mc.flags.replEnabled then updateContinuumBasedOnRgroups P env mc
    else .ok (updateContinuum P env mc)
  | .virtualBucket | .modula | .random => .ok (.success, mc)

/-! ## Lookup -/

/-- The last loop of the lookup: it steps back over the points that sit at the
hash itself. -/
def stepBack (value : Nat → Nat) (hash : Nat) : Nat → Nat
  | 0 => 0
  | right + 1 => if value right = hash then stepBack value hash right else right + 1

/-- The ketama part of `dispatch_host`: the first point at or after the hash, or
the first point of all.  There is none in an empty ring. -/
def dispatchContinuum (info : KetamaInfo) (hash : Nat) : Option Nat :=
  let num := info.continuumPointsCounter
  let value (i : Nat) := (info.continuum.getD i default).value
  let right := lowerBound (fun middle => decide (value middle < hash)) num 0 num
  let right := if right = num then 0 else right
  (info.continuum[stepBack value hash right]?).map ContinuumItem.index

/-- `dispatch_host`.  `random` is what `random()` returns.  The result is absent
where the source divides by zero or reads through a null pointer. -/
def dispatchHost (mc : Memcached) (random hash : Nat) : Option Nat :=
  match mc.distribution with
  | .consistent | .consistentKetama | .consistentKetamaSpy =>
    mc.ketama.info.bind fun info => dispatchContinuum info hash
  | .modula => if mc.numberOfHosts = 0 then none else some (hash % mc.numberOfHosts)
  | .random => if mc.numberOfHosts = 0 then none else some (random % mc.numberOfHosts)
  | .virtualBucket =>
    match mc.virtualBucket with
    | none => some 0
    | some buckets => buckets[hash &&& (buckets.length - 1)]?

end ArcusClient
