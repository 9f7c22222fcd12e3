import ArcusClient.Hosts.Types
import Mathlib.Data.Finset.Card
import Mathlib.Logic.Relation

/-!
# The members of a pool

A pool keeps clones of a master client and lends them to its callers.  Members that were given back are
in a linked list, members that were never lent are in an array that is used as a stack.  `mutex`
protects these containers, and `master_lock` is held by the calls that change the master.

The call that applies a new cache list drops `mutex` while it updates a member.  It moves all members
at rest to two backup containers first, and takes them out of there one by one.  Meanwhile other
callers fetch from the backups and update what they find.

Each part of a call that runs under `mutex` is one step, with the outcomes of the calls it makes as
arguments: whether a clone can be made, a member updated, and a behavior set.
-/

namespace ArcusClient

/-! ## The pool -/

/-- A member.  `id` is the object, of which there is never another one with the same
number. -/
structure Member where
  id : Nat
  /-- `configure.version`. -/
  version : Int
  /-- `configure.ketama_version`. -/
  ketamaVersion : Int
  deriving DecidableEq

/-- Where the holder of `master_lock` is. -/
inductive MasterLock where
  /-- Nobody holds it. -/
  | free
  /-- The holder has not got `mutex` yet. -/
  | entered
  /-- The holder updates a member of the list without `mutex`. -/
  | updatingList (mc : Member)
  /-- The holder updates a member of the array without `mutex`. -/
  | updatingPool (mc : Member)
  /-- The holder has given back `mutex`, and is about to give back the lock. -/
  | leaving
  /-- The holder has returned with the lock. -/
  | leaked
  deriving DecidableEq

def MasterLock.transit : MasterLock → List Member
  | .updatingList mc => [mc]
  | .updatingPool mc => [mc]
  | _ => []

/-- `memcached_pool_st` with what its callers hold, and the objects that exist. -/
structure PoolSt where
  /-- `master->configure.version`. -/
  version : Int
  /-- `master->configure.ketama_version`. -/
  ketamaVersion : Int
  /-- What `used_mc_head` leads to. -/
  usedMc : List Member
  /-- The object at `used_mc_tail`. -/
  usedMcTail : Option Nat
  /-- What `used_bk_head` leads to. -/
  usedBk : List Member
  /-- `mc_pool[0..mc_top]`, with the top first. -/
  mcPool : List Member
  /-- `bk_pool[0..bk_top]`, with the top first. -/
  bkPool : List Member
  maxSize : Nat
  curSize : Nat
  /-- The members that callers have fetched. -/
  fetched : List Member
  masterLock : MasterLock
  /-- The objects that were cloned and not freed. -/
  live : Finset Nat
  nextId : Nat
  deriving DecidableEq

namespace PoolSt

def mcTop (s : PoolSt) : Int := s.mcPool.length - 1

def bkTop (s : PoolSt) : Int := s.bkPool.length - 1

/-- `memcached_clone` of the master, if it succeeds. -/
def memcachedClone (s : PoolSt) : Member × PoolSt :=
  (⟨s.nextId, s.version, s.ketamaVersion⟩,
    { s with live := insert s.nextId s.live, nextId := s.nextId + 1 })

def memcachedFree (s : PoolSt) (mc : Member) : PoolSt := { s with live := s.live.erase mc.id }

/-- A member is replaced by a new clone.  If there is none, it stays. -/
def replaceMember (s : PoolSt) (clone : Bool) (mc : Member) : Member × PoolSt :=
  if clone then
    let (memc, s) := s.memcachedClone
    (memc, s.memcachedFree mc)
  else (mc, s)

/-- `member_update_cachelist`. -/
def memberUpdateCachelist (s : PoolSt) (updated : Bool) (mc : Member) : Member :=
  if updated then { mc with ketamaVersion := s.ketamaVersion } else mc

/-! ## The containers -/

/-- `mc_list_get`. -/
def mcListGet (s : PoolSt) (updated : Bool) : Option Member × PoolSt :=
  match s.usedBk with
  | mc :: rest => (some (s.memberUpdateCachelist updated mc), { s with usedBk := rest })
  | [] =>
    match s.usedMc with
    | mc :: rest =>
      (some mc, { s with
        usedMc := rest
        usedMcTail := if rest.isEmpty then none else s.usedMcTail })
    | [] => (none, s)

/-- The list after a write to the next pointer of an object.  If the object is not in the
list, the list is as before. -/
def linkAfter (tail : Nat) (mc : Member) : List Member → List Member
  | [] => []
  | m :: rest => if m.id = tail then [m, mc] else m :: linkAfter tail mc rest

/-- `mc_list_add` to the head side. -/
def mcListAddHead (s : PoolSt) (mc : Member) : PoolSt :=
  { s with
    usedMc := mc :: s.usedMc
    usedMcTail := if s.usedMcTail = none then some mc.id else s.usedMcTail }

/-- `mc_list_add` to the tail side. -/
def mcListAddTail (s : PoolSt) (mc : Member) : PoolSt :=
  { s with
    usedMc := match s.usedMcTail with
      | some tail => linkAfter tail mc s.usedMc
      | none => [mc]
    usedMcTail := some mc.id }

/-- `mc_pool_get`. -/
def mcPoolGet (s : PoolSt) (updated : Bool) : Option Member × PoolSt :=
  match s.bkPool with
  | mc :: below => (some (s.memberUpdateCachelist updated mc), { s with bkPool := below })
  | [] =>
    match s.mcPool with
    | mc :: below => (some mc, { s with mcPool := below })
    | [] => (none, s)

/-- `mc_pool_add`. -/
def mcPoolAdd (s : PoolSt) (mc : Member) : PoolSt := { s with mcPool := mc :: s.mcPool }

/-- `grow_pool`, if the clone succeeds. -/
def growPool (s : PoolSt) : PoolSt :=
  let (obj, s) := s.memcachedClone
  { s.mcPoolAdd obj with curSize := s.curSize + 1 }

/-- A loop that grows the pool, and stops when there is no clone. -/
def growTimes (clone : Nat → Bool) : Nat → PoolSt → PoolSt
  | 0, s => s
  | n + 1, s => if clone n then growTimes clone n s.growPool else s

/-- A loop over the array from its bottom, which may change or replace each member. -/
def forMembers (body : PoolSt → Nat → Member → Member × PoolSt) :
    List Member → PoolSt → List Member × PoolSt
  | [], s => ([], s)
  | mc :: below, s =>
    let (below, s) := forMembers body below s
    let (mc, s) := body s below.length mc
    (mc :: below, s)

/-- The loop over `mc_pool`.  It has the members in its hands until it is done. -/
def updateMembers (body : PoolSt → Nat → Member → Member × PoolSt) (s : PoolSt) : PoolSt :=
  let (members, s') := forMembers body s.mcPool { s with mcPool := [] }
  { s' with mcPool := members }

/-- The loop of `mc_list_remove_all`. -/
def removeMembers : List Member → PoolSt → PoolSt
  | [], s => s
  | mc :: rest, s =>
    removeMembers rest ({ s with usedMc := rest, curSize := s.curSize - 1 }.memcachedFree mc)

/-- `mc_list_remove_all`, with the number of members that it removes. -/
def mcListRemoveAll (s : PoolSt) : Nat × PoolSt :=
  (s.usedMc.length, { removeMembers s.usedMc s with usedMcTail := none })

/-- The loop of `mc_list_behavior_set`, with the members it has kept.  A member whose
behavior cannot be set is freed.  The source then reads its next pointer, which is taken to
be as before.  The tail is reset only if the list gets empty. -/
def behaviorSetList (set : Member → Bool) : (kept : List Member) → List Member → PoolSt → Nat × PoolSt
  | kept, [], s => (0, { s with usedMc := kept })
  | kept, curr :: rest, s =>
    if set curr then behaviorSetList set (kept ++ [{ curr with version := s.version }]) rest s
    else
      let (removed, s') := behaviorSetList set kept rest ({ s with
        usedMcTail := if kept.isEmpty && rest.isEmpty then none else s.usedMcTail
        curSize := s.curSize - 1 }.memcachedFree curr)
      (removed + 1, s')

/-- `mc_list_behavior_set`. -/
def mcListBehaviorSet (set : Member → Bool) (s : PoolSt) : Nat × PoolSt :=
  behaviorSetList set [] s.usedMc { s with usedMc := [] }

/-! ## The calls -/

/-- What a round of `fetch` comes to. -/
inductive FetchResult where
  | fetched (mc : Member)
  | failed (rc : ReturnT)
  /-- The caller waits for a member, and starts over when it is woken. -/
  | waits
  deriving DecidableEq

/-- The first two parts of a round of `fetch`. -/
def getMember (s : PoolSt) (updated : Bool) : Option Member × PoolSt :=
  match s.mcListGet updated with
  | (some mc, s) => (some mc, s)
  | (none, s) => s.mcPoolGet updated

/-- `fetch`, up to the point where it returns or waits. -/
def fetch (s : PoolSt) (wait clone updated : Bool) : FetchResult × PoolSt :=
  match s.getMember updated with
  | (some mc, s) => (.fetched mc, s)
  | (none, s) =>
    if s.curSize < s.maxSize then
      if clone then
        -- the next round finds the new member
        match s.growPool.getMember updated with
        | (some mc, s) => (.fetched mc, s)
        | (none, s) => (.waits, s)
      else (.failed .memoryAllocationFailure, s)
    else if wait then (.waits, s)
    else (.failed .notfound, s)

/-- `release`. -/
def release (s : PoolSt) (mc : Member) (clone updated : Bool) : PoolSt :=
  if mc.version ≠ s.version then
    let (mc, s) := s.replaceMember clone mc
    s.mcListAddHead mc
  else if mc.ketamaVersion ≠ s.ketamaVersion then
    s.mcListAddHead (s.memberUpdateCachelist updated mc)
  else s.mcListAddHead mc

/-- `memcached_pool_update_member`. -/
def updateMember (s : PoolSt) (mc : Member) (updated : Bool) : Member :=
  if mc.ketamaVersion ≠ s.ketamaVersion then s.memberUpdateCachelist updated mc else mc

/-- The part of `memcached_pool_repopulate` under `mutex`. -/
def repopulate (s : PoolSt) (clone grow : Nat → Bool) : PoolSt :=
  let s := { s with ketamaVersion := s.ketamaVersion + 1, version := s.version + 1 }
  let s := s.updateMembers fun s xx mc => s.replaceMember (clone xx) mc
  let (removed, s) := s.mcListRemoveAll
  growTimes grow removed s

/-- The part of `memcached_pool_behavior_set` under `mutex`.  If the behavior of the master
cannot be set, the call returns without giving back `master_lock`. -/
def behaviorSet (s : PoolSt) (master : Bool) (set : Member → Bool) (clone grow : Nat → Bool) :
    PoolSt :=
  if master then
    let s := { s with version := s.version + 1 }
    let s := s.updateMembers fun s xx mc =>
      if set mc then ({ mc with version := s.version }, s) else s.replaceMember (clone xx) mc
    let (removed, s) := s.mcListBehaviorSet set
    { growTimes grow removed s with masterLock := .leaving }
  else { s with masterLock := .leaked }

/-- The head of the loop of `mc_pool_update_cachelist`. -/
def nextOfPool (s : PoolSt) : PoolSt :=
  match s.bkPool with
  | mc :: below => { s with bkPool := below, masterLock := .updatingPool mc }
  | [] => { s with masterLock := .leaving }

/-- The head of the loop of `mc_list_update_cachelist`. -/
def nextOfList (s : PoolSt) : PoolSt :=
  match s.usedBk with
  | mc :: rest => { s with usedBk := rest, masterLock := .updatingList mc }
  | [] => s.nextOfPool

def moveToBackup (s : PoolSt) : PoolSt :=
  { s with
    usedBk := s.usedMc
    usedMc := []
    usedMcTail := none
    bkPool := if s.mcPool.isEmpty then s.bkPool else s.mcPool
    mcPool := [] }

/-- `memcached_pool_update_cachelist` up to the point where it first gives back `mutex`.
`changed` says that the list of the master was updated and is another one. -/
def updateCachelist (s : PoolSt) (init changed : Bool) (clone grow : Nat → Bool) : PoolSt :=
  if init then { s.repopulate clone grow with masterLock := .leaving }
  else if changed then
    nextOfList { s.moveToBackup with ketamaVersion := s.ketamaVersion + 1 }
  else { s with masterLock := .leaving }

/-- The constructor of `memcached_pool_st`.  One member more than the given number is for
internal use, and the sum is stored in 32 bits. -/
def empty (version ketamaVersion : Int) (max : UInt32) : PoolSt where
  version := version
  ketamaVersion := ketamaVersion
  usedMc := []
  usedMcTail := none
  usedBk := []
  mcPool := []
  bkPool := []
  maxSize := (max.toNat + 1) % 2 ^ 32
  curSize := 0
  fetched := []
  masterLock := .free
  live := ∅
  nextId := 0

/-- `memcached_pool_create`, when there is memory for the pool. -/
def create (version ketamaVersion : Int) (initial max : UInt32) (clone : Nat → Bool) :
    Option PoolSt :=
  if initial = 0 ∨ max = 0 ∨ initial > max then none
  else some (growTimes clone initial.toNat (empty version ketamaVersion max))

/-! ## The system -/

inductive Event where
  | fetch (wait clone updated : Bool)
  | release (mc : Member) (clone updated : Bool)
  | updateMember (mc : Member) (updated : Bool)
  /-- A thread gets `master_lock`. -/
  | lockMaster
  | repopulate (clone grow : Nat → Bool)
  | behaviorSet (master : Bool) (set : Member → Bool) (clone grow : Nat → Bool)
  | updateCachelist (init changed : Bool) (clone grow : Nat → Bool)
  /-- The member in transit is updated and goes back, and the loop goes on. -/
  | putBack (updated : Bool)
  /-- The thread gives back `master_lock`. -/
  | unlockMaster

def next (s : PoolSt) : Event → Option PoolSt
  | .fetch wait clone updated =>
    match s.fetch wait clone updated with
    | (.fetched mc, s) => some { s with fetched := mc :: s.fetched }
    | (_, s) => some s
  | .release mc clone updated =>
    if mc ∈ s.fetched then
      some ({ s with fetched := s.fetched.erase mc }.release mc clone updated)
    else none
  | .updateMember mc updated =>
    if mc ∈ s.fetched then
      some { s with fetched := s.updateMember mc updated :: s.fetched.erase mc }
    else none
  | .lockMaster => if s.masterLock = .free then some { s with masterLock := .entered } else none
  | .repopulate clone grow =>
    if s.masterLock = .entered then
      some { s.repopulate clone grow with masterLock := .leaving }
    else none
  | .behaviorSet master set clone grow =>
    if s.masterLock = .entered then some (s.behaviorSet master set clone grow) else none
  | .updateCachelist init changed clone grow =>
    if s.masterLock = .entered then some (s.updateCachelist init changed clone grow) else none
  | .putBack updated =>
    match s.masterLock with
    | .updatingList mc => some (s.mcListAddTail (s.memberUpdateCachelist updated mc)).nextOfList
    | .updatingPool mc => some (s.mcPoolAdd (s.memberUpdateCachelist updated mc)).nextOfPool
    | _ => none
  | .unlockMaster => if s.masterLock = .leaving then some { s with masterLock := .free } else none

/-- A run from a new pool, in which all events meet the condition. -/
def Reachable (allowed : Event → Prop) (initial max : UInt32) (s : PoolSt) : Prop :=
  ∃ version ketamaVersion clone s₀, create version ketamaVersion initial max clone = some s₀ ∧
    Relation.ReflTransGen (fun s s' => ∃ e, allowed e ∧ s.next e = some s') s₀ s

end PoolSt

end ArcusClient
