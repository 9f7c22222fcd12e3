import ArcusClient.Rgroup.Slots
import ArcusClient.Rgroup.ClientSpec
import ArcusClient.Lib.Ledger

/-!
# The groups of a client and their server objects

Groups are appended to an array, updated in place, marked dead, moved up over dead ones and sorted.  A
group knows its place in the array, and so do its servers, by which `memcached_rgroup_switchover` finds
the group of a server.  Whatever the order of calls, each group and its servers know their place, the
slots are filled from below, no object is in two places, and the two counters of objects are right
(`bookkeeping_consistent`).  A call that runs into an assert, a null pointer or the end of the array has
no state after it.

The calls on slots run in step with those on lists (`Shows`), so the places and the objects are followed
on the lists (`Memcached.Consistent`).
-/

namespace ArcusClient

open CString Outcome List

/-! ## The array of groups -/

/-- `memcached_rgroup_st`, with its slots. -/
structure SlotGroup where
  groupname : CStr
  groupindex : Nat
  weight : Nat
  nreplica : Nat
  replicas : Nat → Option Replica
  isDead : Bool

/-- The members of `memcached_st` that have to do with groups. -/
structure SlotClient extends GroupStock where
  useSortHosts : Bool
  /-- The first `number_of_hosts` groups of the array, which is null if there is no room in it. -/
  rgroups : List SlotGroup

def SlotClient.create (useSortHosts : Bool) : SlotClient := ⟨⟨0, 0, ⟨[], 0⟩⟩, useSortHosts, []⟩

def Replica.placeAt (r : Replica) (groupindex : Nat) : Replica :=
  { r with server.groupindex := groupindex }

namespace SlotGroup

/-- A group with the free list, for a function that updates it. -/
def toSt (g : SlotGroup) (spare : SpareServers) : SlotSt :=
  ⟨g.groupname, g.groupindex, g.weight, g.nreplica, g.replicas, spare, []⟩

def put (g : SlotGroup) (s : SlotSt) : SlotGroup :=
  { g with nreplica := s.nreplica, replicas := s.replicas }

/-- `do_rgroup_init`, with the default weight. -/
def init (groupname : CStr) (groupindex : Nat) : SlotGroup :=
  ⟨groupname, groupindex, 1, 0, fun _ => none, false⟩

/-- The loop of `do_rgroup_index_set`. -/
def setIndexes (groupindex : Nat) : (x left : Nat) → (Nat → Option Replica) →
    Except Fault (Nat → Option Replica)
  | _, 0, replicas => .ok replicas
  | x, left + 1, replicas =>
    match replicas x with
    | none => .error .nullPointer
    | some r =>
      setIndexes groupindex (x + 1) left
        (Function.update replicas x (some (r.placeAt groupindex)))

/-- `do_rgroup_index_set`. -/
def indexSet (g : SlotGroup) (groupindex : Nat) : Except Fault SlotGroup :=
  if g.groupindex = groupindex then .ok g
  else do
    let replicas ← setIndexes groupindex 0 g.nreplica g.replicas
    return { g with groupindex := groupindex, replicas := replicas }

/-- A group is moved up in the array, if there is free space ahead. -/
def moveTo (g : SlotGroup) (x cursor : Nat) : Except Fault SlotGroup :=
  if cursor < x then g.indexSet cursor else .ok g

/-- `do_rgroup_compare`. -/
def compare (a b : SlotGroup) : Int := strcmp a.groupname b.groupname

end SlotGroup

namespace SlotClient

/-! ## The calls -/

/-- `memcached_rgroup_expand`. -/
def expand (env : Env) (c : SlotClient) (rgroupcount servercount : Nat) : Bool × SlotClient :=
  let (granted, stock) := c.toGroupStock.expand env rgroupcount servercount
  (granted, { c with toGroupStock := stock })

/-- A new group behind the others, with the given servers. -/
def createRgroup (c : SlotClient) (groupname : CStr) (addrs : List Addr) : Except Fault SlotClient :=
  if c.rgroupNtotal ≤ c.rgroups.length then .error .outOfArray
  else if rgroupNameLength ≤ groupname.length then .error .assertion
  else do
    let g := SlotGroup.init groupname c.rgroups.length
    let s ← SlotSt.insertAll addrs 0 addrs.length (g.toSt c.spare)
    return { c with rgroups := c.rgroups ++ [g.put s], spare := s.spare }

def setPlaces : (x : Nat) → List SlotGroup → Except Fault (List SlotGroup)
  | _, [] => .ok []
  | x, g :: groups => do
    let g ← g.indexSet x
    let groups ← setPlaces (x + 1) groups
    return g :: groups

/-- `memcached_rgroup_sort`. -/
def sort (P : Platform) (c : SlotClient) : Except Fault SlotClient :=
  if c.rgroupNtotal = 0 then .ok c
  else do
    let groups ← setPlaces 0 (P.qsort.run SlotGroup.compare c.rgroups)
    return { c with rgroups := groups }

/-- The part of `run_distribution` that touches the groups. -/
def runDistribution (P : Platform) (c : SlotClient) : Except Fault SlotClient :=
  if c.useSortHosts then c.sort P else .ok c

/-- The loop of `memcached_rgroup_push_with_groupinfo`. -/
def pushGroupinfo (c : SlotClient) : List RgroupInfo → Except Fault SlotClient
  | [] => .ok c
  | g :: groups =>
    if g.valid then do
      let c ← c.createRgroup g.groupname (g.replicas.map ServerInfo.key)
      c.pushGroupinfo groups
    else c.pushGroupinfo groups

/-- `memcached_rgroup_push_with_groupinfo`. -/
def pushWithGroupinfo (P : Platform) (c : SlotClient) (groupinfo : List RgroupInfo) :
    Except Fault SlotClient :=
  if c.rgroupNtotal < groupinfo.length then .error .assertion
  else do
    let c ← c.pushGroupinfo groupinfo
    c.runDistribution P

/-- The loop of `memcached_rgroup_push`. -/
def pushGroups (c : SlotClient) : List Rgroup → Except Fault SlotClient
  | [] => .ok c
  | g :: groups => do
    let c ← c.createRgroup g.groupname (g.replicas.map Replica.key)
    c.pushGroups groups

/-- `memcached_rgroup_push`. -/
def push (P : Platform) (env : Env) (c : SlotClient) (grouplist : List Rgroup) :
    Except Fault SlotClient :=
  let sum := (grouplist.length + c.rgroups.length) % 2 ^ 32
  match c.expand env sum ((sum * rgroupMaxReplica) % 2 ^ 32) with
  | (false, c) => .ok c
  | (true, c) => do
    let c ← c.pushGroups grouplist
    c.runDistribution P

/-- `memcached_rgroup_update` and `memcached_rgroup_update_with_groupinfo`, for a group of the
array. -/
def updateGroup (c : SlotClient) (x : Nat) (new : List Addr) : Except Fault SlotClient :=
  match c.rgroups[x]? with
  | none => .error .outOfArray
  | some g => do
    let (_, s) ← (g.toSt c.spare).update new
    return { c with rgroups := c.rgroups.set x (g.put s), spare := s.spare }

/-- `options.is_dead` is set for a group. -/
def markDead (c : SlotClient) (x : Nat) : Except Fault SlotClient :=
  match c.rgroups[x]? with
  | none => .error .outOfArray
  | some g => .ok { c with rgroups := c.rgroups.set x { g with isDead := true } }

/-- `memcached_rgroup_switchover`, for a server with the given members. -/
def switchover (c : SlotClient) (groupindex switchoverSidx : Int) (peer : CStr) :
    Except Fault SlotClient :=
  if groupindex < 0 then .error .assertion
  else
    match c.rgroups[groupindex.toNat]? with
    | none => .error .outOfArray
    | some g => do
      let s := g.toSt c.spare
      match ← s.chosenSlave switchoverSidx peer with
      | none => return c
      | some sindex => do
        let s ← s.switchover sindex
        return { c with rgroups := c.rgroups.set groupindex.toNat (g.put s) }

/-- The loop that destroys dead groups and moves the others up. -/
def pruneGroups : (x cursor : Nat) → List SlotGroup → SpareServers →
    Except Fault (List SlotGroup × SpareServers)
  | _, _, [], spare => .ok ([], spare)
  | x, cursor, g :: rest, spare =>
    if g.isDead then do
      let s ← (g.toSt spare).destroy
      pruneGroups (x + 1) cursor rest s.spare
    else do
      let g ← g.moveTo x cursor
      let (groups, spare) ← pruneGroups (x + 1) (cursor + 1) rest spare
      return (g :: groups, spare)

/-- `memcached_rgroup_prune` of the dead groups. -/
def prune (c : SlotClient) : Except Fault SlotClient := do
  let (groups, spare) ← pruneGroups 0 0 c.rgroups c.spare
  return { c with rgroups := groups, spare := spare }

def destroyAll : List SlotGroup → SpareServers → Except Fault SpareServers
  | [], spare => .ok spare
  | g :: groups, spare => do
    let s ← (g.toSt spare).destroy
    destroyAll groups s.spare

def freeServers : List Nat → (navail : Nat) → SpareServers
  | [], navail => ⟨[], navail⟩
  | _ :: objects, navail => freeServers objects (navail - 1)

/-- `memcached_rgroup_list_free`, by which `memcached_rgroup_prune` prunes all groups. -/
def listFree (c : SlotClient) : Except Fault SlotClient :=
  if c.rgroupNtotal = 0 then .ok c
  else do
    let spare ← destroyAll c.rgroups c.spare
    return { c with
      rgroups := []
      rgroupNtotal := 0
      serverNtotal := 0
      spare := freeServers spare.objects spare.navail }

end SlotClient

inductive SlotCall where
  | expand (env : Env) (rgroupcount servercount : Nat)
  | push (env : Env) (grouplist : List Rgroup)
  | pushWithGroupinfo (groupinfo : List RgroupInfo)
  | update (x : Nat) (newRgroup : Rgroup)
  | updateWithGroupinfo (x : Nat) (rginfo : RgroupInfo)
  | markDead (x : Nat)
  | switchover (groupindex switchoverSidx : Int) (peer : CStr)
  | prune (allFlag : Bool)
  | sort

def SlotCall.run (P : Platform) (c : SlotClient) : SlotCall → Except Fault SlotClient
  | .expand env rgroupcount servercount => .ok (c.expand env rgroupcount servercount).2
  | .push env grouplist => c.push P env grouplist
  | .pushWithGroupinfo groupinfo => c.pushWithGroupinfo P groupinfo
  | .update x newRgroup => c.updateGroup x (newRgroup.replicas.map Replica.key)
  | .updateWithGroupinfo x rginfo => c.updateGroup x (rginfo.replicas.map ServerInfo.key)
  | .markDead x => c.markDead x
  | .switchover groupindex switchoverSidx peer => c.switchover groupindex switchoverSidx peer
  | .prune allFlag => if allFlag then c.listFree else c.prune
  | .sort => c.sort P

/-! ## Groups in their places -/

namespace Rgroup

def objects (g : Rgroup) : List Nat := g.replicas.map Replica.object

/-- The group and its servers know its place. -/
def Placed (g : Rgroup) (x : Nat) : Prop :=
  g.groupindex = x ∧ ∀ r ∈ g.replicas, r.server.groupindex = x

/-- The groups are in their places, from the first one's on. -/
def PlacedFrom (x : Nat) (groups : List Rgroup) : Prop := ∀ p ∈ groups.zipIdx x, p.1.Placed p.2

variable {g : Rgroup} {groups : List Rgroup} {x : Nat}

theorem Placed.frame (h : g.Placed x) (hf : GroupSt.Frame ⟨g, spare⟩ st) : st.group.Placed x := by
  have hin : st.InPlace := hf.inPlace fun r hr => (h.2 r hr).trans (congrArg Nat.cast h.1.symm)
  have hx : st.group.groupindex = x := hf.groupindex.trans h.1
  exact ⟨hx, fun r hr => (hin r hr).trans (congrArg Nat.cast hx)⟩

theorem Placed.indexSet (h : g.Placed x) (y : Nat) : (doRgroupIndexSet g y).Placed y := by
  rw [doRgroupIndexSet]
  split
  · rename_i hy
    obtain rfl : x = y := h.1.symm.trans hy
    exact h
  · refine ⟨rfl, fun r hr => ?_⟩
    obtain ⟨r', -, rfl⟩ := mem_map.1 hr
    rfl

theorem objects_indexSet (g : Rgroup) (y : Nat) : (doRgroupIndexSet g y).objects = g.objects := by
  rw [doRgroupIndexSet]
  split
  · rfl
  · rw [objects, objects, map_map]
    rfl

theorem PlacedFrom.get (h : PlacedFrom x groups) (hg : groups[y]? = some g) : g.Placed (x + y) :=
  h (g, x + y) (mk_add_mem_zipIdx_iff_getElem?.2 hg)

theorem placedFrom_cons : PlacedFrom x (g :: groups) ↔ g.Placed x ∧ PlacedFrom (x + 1) groups :=
  forall_mem_cons

theorem PlacedFrom.append (h : PlacedFrom 0 groups) (hg : g.Placed groups.length) :
    PlacedFrom 0 (groups ++ [g]) := by
  rw [PlacedFrom, zipIdx_append, forall_mem_append]
  refine ⟨h, fun p hp => ?_⟩
  rw [mem_singleton.1 hp, Nat.zero_add]
  exact hg

theorem PlacedFrom.set (h : PlacedFrom 0 groups) (hg : g.Placed y) :
    PlacedFrom 0 (groups.set y g) := by
  rintro ⟨g', z⟩ hp
  rw [mk_mem_zipIdx_iff_getElem?, getElem?_set] at hp
  split_ifs at hp with hz hl
  · cases hp
    exact hz ▸ hg
  · exact h (g', z) (mk_mem_zipIdx_iff_getElem?.2 hp)

abbrev groupObjects (groups : List Rgroup) : List Nat := groups.flatMap objects

/-- A group of the array and the free list exchange objects. -/
theorem perm_set {g' : Rgroup} {spare spare' : List Nat} (hg : groups[x]? = some g)
    (hp : (g'.objects ++ spare').Perm (g.objects ++ spare)) :
    (groupObjects (groups.set x g') ++ spare').Perm (groupObjects groups ++ spare) := by
  induction groups generalizing x with
  | nil => cases hg
  | cons g₀ groups ih =>
    cases x with
    | zero =>
      cases hg
      have hs : ∀ l l' : List Nat, (l ++ groupObjects groups ++ l').Perm
          (groupObjects groups ++ (l ++ l')) := by
        intro l l'
        rw [← append_assoc]
        exact perm_append_comm.append_right l'
      exact (hs _ _).trans ((hp.append_left _).trans (hs _ _).symm)
    | succ x =>
      rw [set_cons_succ, groupObjects, groupObjects, flatMap_cons, flatMap_cons, append_assoc,
        append_assoc]
      exact (ih hg).append_left g₀.objects

/-- The loop over dead and other groups.  The cursor is the place of the next group that stays. -/
theorem pruneRgroups_placed (marked : Marked Rgroup) (x cursor : Nat) (spare : SpareServers)
    (h : PlacedFrom x (marked.map Prod.fst)) (hc : cursor ≤ x)
    (hn : spare.navail = spare.objects.length) :
    let r := pruneRgroups x cursor marked spare
    PlacedFrom cursor r.1 ∧ r.2.navail = r.2.objects.length ∧
      (groupObjects r.1 ++ r.2.objects).Perm (groupObjects (marked.map Prod.fst) ++ spare.objects) := by
  induction marked generalizing x cursor spare with
  | nil => exact ⟨fun _ hp => absurd hp not_mem_nil, hn, .refl _⟩
  | cons e rest ih =>
    obtain ⟨g, dead⟩ := e
    obtain ⟨hg, hr⟩ := placedFrom_cons.1 h
    cases dead with
    | true =>
      have hd := doRgroupDestroy_eq g spare
      obtain ⟨hpl, hn', hp⟩ := ih (x + 1) cursor (doRgroupDestroy g spare) hr (by omega) (by
        rw [hd, length_append, length_map, hn, Nat.add_comm, nreplica])
      refine ⟨hpl, hn', hp.trans ?_⟩
      rw [hd, ← append_assoc]
      exact perm_append_comm.append_right spare.objects
    | false =>
      obtain ⟨hpl, hn', hp⟩ := ih (x + 1) (cursor + 1) spare hr (by omega) hn
      have hm : (if cursor < x then doRgroupIndexSet g cursor else g).Placed cursor ∧
          (if cursor < x then doRgroupIndexSet g cursor else g).objects = g.objects := by
        split
        · exact ⟨hg.indexSet cursor, objects_indexSet g cursor⟩
        · obtain rfl : x = cursor := by omega
          exact ⟨hg, rfl⟩
      refine ⟨placedFrom_cons.2 ⟨hm.1, hpl⟩, hn', ?_⟩
      rw [pruneRgroups, map_cons, groupObjects, groupObjects, flatMap_cons, flatMap_cons, hm.2,
        append_assoc, append_assoc]
      exact hp.append_left g.objects

end Rgroup

open Rgroup

/-- The groups are in their places, every object that was allocated is in one place, and the free ones
are counted. -/
structure Memcached.Consistent (mc : Memcached) : Prop where
  placed : PlacedFrom 0 mc.rgroups
  ledger : Ledger (groupObjects mc.rgroups ++ mc.spare.objects) (Finset.range mc.serverNtotal)
  navail : mc.spare.navail = mc.spare.objects.length

namespace Memcached.Consistent

variable {mc : Memcached} {st : GroupSt}

theorem expand (h : mc.Consistent) (env : Env) (rgroupcount servercount : Nat) :
    (rgroupExpand env mc rgroupcount servercount).2.Consistent := by
  refine GroupStock.expand_invariant (p := fun stock => ({ mc with toGroupStock := stock }).Consistent)
    (fun s h => ⟨h.placed, ?_, ?_⟩) (fun s _ h => ⟨h.placed, h.ledger, h.navail⟩) env h _ _
  · have hn := h.ledger.alloc (Finset.notMem_range_self (n := s.serverNtotal))
    rw [← Finset.range_add_one] at hn
    exact hn.perm perm_middle
  · exact congrArg (· + 1) h.navail

/-- The group of a state is a new one, behind the others. -/
theorem append (h : mc.Consistent) {groupname : CStr}
    (hf : GroupSt.Frame ⟨⟨groupname, mc.rgroups.length, 1, []⟩, mc.spare⟩ st) :
    ({ mc with rgroups := mc.rgroups ++ [st.group], spare := st.spare }).Consistent := by
  have hp : Placed ⟨groupname, mc.rgroups.length, 1, []⟩ mc.rgroups.length :=
    ⟨rfl, fun _ hr => absurd hr not_mem_nil⟩
  refine ⟨h.placed.append (hp.frame hf), h.ledger.perm ?_, hf.navail h.navail⟩
  rw [groupObjects, flatMap_append, flatMap_singleton, append_assoc]
  exact hf.held.append_left (groupObjects mc.rgroups)

/-- The group of a state is one of the array, after an update. -/
theorem set (h : mc.Consistent) (hg : mc.rgroups[x]? = some g)
    (hf : GroupSt.Frame ⟨g, mc.spare⟩ st) :
    ({ mc with rgroups := mc.rgroups.set x st.group, spare := st.spare }).Consistent := by
  have hp := h.placed.get hg
  rw [Nat.zero_add] at hp
  exact ⟨h.placed.set (hp.frame hf), h.ledger.perm (perm_set hg hf.held), hf.navail h.navail⟩

theorem prune (h : mc.Consistent) {marked : Marked Rgroup} (hm : mc.rgroups = marked.map Prod.fst) :
    (rgroupPrune mc marked).Consistent := by
  have hp := h.placed
  have hl := h.ledger
  rw [hm] at hp hl
  obtain ⟨hpl, hn, hpe⟩ := pruneRgroups_placed marked 0 0 mc.spare hp (le_refl _) h.navail
  exact ⟨hpl, hl.perm hpe, hn⟩

theorem pruneAll (h : mc.Consistent) : (rgroupPruneAll mc).Consistent := by
  have hd : ∀ (groups : List Rgroup) (spare : SpareServers), spare.navail = spare.objects.length →
      (groups.foldl (fun spare g => doRgroupDestroy g spare) spare).navail =
        (groups.foldl (fun spare g => doRgroupDestroy g spare) spare).objects.length := by
    intro groups
    induction groups with
    | nil => exact fun _ hn => hn
    | cons g groups ih =>
      intro spare hn
      refine ih (doRgroupDestroy g spare) ?_
      rw [doRgroupDestroy_eq, length_append, length_map, hn, Nat.add_comm, nreplica]
  rw [rgroupPruneAll]
  split
  · exact h
  · exact ⟨fun _ hp => absurd hp not_mem_nil, Ledger.nil, Nat.sub_eq_zero_of_le (hd _ _ h.navail).le⟩

theorem createRgroup (h : mc.Consistent) (groupname : CStr) (addrs : List Addr) :
    Ends (fun _ => True) Consistent (createRgroup mc groupname addrs) := by
  rw [ArcusClient.createRgroup]
  split
  · trivial
  · exact (GroupSt.insertFrom_ends addrs _ 0 (le_refl _)).andThen (fun _ _ => trivial)
      fun st hf => h.append hf.1

theorem switchover (h : mc.Consistent) (groupindex switchoverSidx : Int) (peer : CStr) :
    Ends (fun _ => True) Consistent (rgroupSwitchover mc groupindex switchoverSidx peer) := by
  rw [rgroupSwitchover]
  split
  · trivial
  cases hg : mc.rgroups[groupindex.toNat]? with
  | none => trivial
  | some g =>
    simp only
    split
    · exact h
    · refine ((GroupSt.switchover_ends ⟨g, mc.spare⟩ _).and
        (GroupSt.switchover_spare ⟨g, mc.spare⟩ _)).andThen (fun _ _ => trivial) ?_
      rintro st ⟨⟨hf, -⟩, hs⟩
      have hp := h.set hg hf
      rw [hs] at hp
      exact hp

end Memcached.Consistent

/-! ## Slots and lists -/

namespace SlotGroup

/-- The servers in the slots below `nreplica`. -/
def servers (g : SlotGroup) : List Replica := (List.range g.nreplica).filterMap g.replicas

def objects (g : SlotGroup) : List Nat := g.servers.map Replica.object

/-- The group with a list in the place of the slots. -/
def toRgroup (g : SlotGroup) : Rgroup := ⟨g.groupname, g.groupindex, g.weight, g.servers⟩

/-- The slots are filled from below. -/
def Filled (g : SlotGroup) : Prop := ∀ spare, SlotSt.Slots 0 (g.toSt spare) ⟨g.toRgroup, spare⟩

variable {g : SlotGroup}

theorem filled_of_list {l : List Replica} (hn : g.nreplica = l.length)
    (hs : ∀ y, g.replicas y = l[y]?) (hl : l.length ≤ rgroupMaxReplica) :
    g.Filled ∧ g.servers = l := by
  have he : g.servers = l := by
    have hr := SlotSt.filterMap_range_getElem? id l
    simp only [Option.map_id_fun, map_id_fun] at hr
    rw [servers, hn, funext hs]
    exact hr
  refine ⟨fun spare => ⟨rfl, rfl, rfl, ?_, ?_, rfl, Nat.zero_le _, ?_, fun _ h => absurd h not_mem_nil⟩,
    he⟩
  · rw [Rgroup.nreplica, toRgroup, he]
    exact hn
  · rw [toRgroup, he]
    exact hs
  · rw [Rgroup.nreplica, toRgroup, he]
    exact hl

theorem filled_init (groupname : CStr) (x : Nat) : (init groupname x).Filled :=
  (filled_of_list (l := []) rfl (fun _ => rfl) (Nat.zero_le _)).1

/-- A group is put back after an update, which has kept its name. -/
theorem put_spec (h : SlotSt.Slots 0 s st) (hf : GroupSt.Frame ⟨g.toRgroup, spare⟩ st) :
    (g.put s).Filled ∧ (g.put s).toRgroup = st.group := by
  obtain ⟨hfi, he⟩ := filled_of_list (g := g.put s) h.nreplica h.replicas h.length_le
  refine ⟨hfi, ?_⟩
  rw [toRgroup, he]
  obtain ⟨⟨groupname, groupindex, weight, replicas⟩, spare'⟩ := st
  obtain rfl : groupname = g.groupname := hf.groupname
  obtain rfl : groupindex = g.groupindex := hf.groupindex
  obtain rfl : weight = g.weight := hf.weight
  rfl

theorem setIndexes_eq (x : Nat) : ∀ (todo done : List Replica) (replicas : Nat → Option Replica),
    (∀ y, replicas y = (done ++ todo)[y]?) →
    ∃ replicas', setIndexes x done.length todo.length replicas = .ok replicas' ∧
      ∀ y, replicas' y = (done ++ todo.map fun r => r.placeAt x)[y]?
  | [], done, replicas, h => ⟨replicas, rfl, h⟩
  | r :: todo, done, replicas, h => by
    have hr : replicas done.length = some r := by
      rw [h, getElem?_append_right (le_refl _), Nat.sub_self, getElem?_cons_zero]
    rw [length_cons, setIndexes, hr]
    have hn := setIndexes_eq x todo (done ++ [r.placeAt x])
      (Function.update replicas done.length (some (r.placeAt x))) fun y => ?_
    · simpa using hn
    · have hl : done.length < (done ++ r :: todo).length := by simp
      rw [SlotSt.update_slots h hl, set_append_right _ _ (le_refl _), Nat.sub_self,
        set_cons_zero, append_assoc, singleton_append]

theorem Filled.indexSet (h : g.Filled) (y : Nat) :
    ∃ g', g.indexSet y = .ok g' ∧ g'.Filled ∧ g'.toRgroup = doRgroupIndexSet g.toRgroup y := by
  have hs := h ⟨[], 0⟩
  rw [SlotGroup.indexSet, doRgroupIndexSet]
  split
  · exact ⟨g, rfl, h, (if_pos ‹_›).symm⟩
  · obtain ⟨replicas, he, hr⟩ := setIndexes_eq y g.servers [] g.replicas hs.replicas
    have hn : g.nreplica = g.servers.length := hs.nreplica
    rw [length_nil, ← hn] at he
    rw [he]
    have hl : (g.servers.map fun r => r.placeAt y).length = g.nreplica := (length_map _).trans hn.symm
    obtain ⟨hf, hse⟩ := filled_of_list (g := { g with groupindex := y, replicas := replicas })
      hl.symm hr ((hl.trans hn).trans_le hs.length_le)
    refine ⟨_, rfl, hf, ?_⟩
    rw [toRgroup, hse, if_neg ‹_›]
    rfl

theorem removeLast_all : ∀ (l : List Replica) (st : GroupSt), st.group.replicas = l.reverse →
    st.removeLast l.length = .ok ⟨{ st.group with replicas := [] },
      l.foldl (fun spare r => doRgroupServerFree spare r.object) st.spare⟩
  | [], ⟨⟨_, _, _, _⟩, _⟩, h => by
    cases h
    rfl
  | r :: l, st, h => by
    rw [reverse_cons] at h
    have hn : st.group.nreplica - 1 = l.reverse.length := by simp [Rgroup.nreplica, h]
    rw [length_cons, GroupSt.removeLast, GroupSt.remove, hn, h,
      getElem?_append_right (le_refl _), Nat.sub_self, eraseIdx_append_of_length_le (le_refl _)]
    exact removeLast_all l _ (by simp)

theorem Filled.destroy (h : g.Filled) (spare : SpareServers) :
    ∃ s, (g.toSt spare).destroy = .ok s ∧ s.spare = doRgroupDestroy g.toRgroup spare := by
  have hs := h spare
  have hr := SlotSt.removeDownTo_related (le_refl 0) g.toRgroup.nreplica g.nreplica hs
    (Nat.zero_add _).symm hs.nreplica.ge
  have hl := removeLast_all g.toRgroup.replicas.reverse ⟨g.toRgroup, spare⟩
    (reverse_reverse _).symm
  rw [length_reverse] at hl
  rw [Rgroup.nreplica, hl] at hr
  rw [SlotSt.destroy]
  cases hd : SlotSt.removeDownTo 0 g.nreplica (g.toSt spare) with
  | error e =>
    rw [hd] at hr
    exact hr.elim
  | ok s =>
    rw [hd] at hr
    exact ⟨s, hd, hr.spare⟩

end SlotGroup

namespace SlotClient

/-- The client with lists in the place of the slots. -/
structure Shows (c : SlotClient) (mc : Memcached) : Prop where
  filled : ∀ g ∈ c.rgroups, g.Filled
  rgroups : mc.rgroups = c.rgroups.map SlotGroup.toRgroup
  stock : mc.toGroupStock = c.toGroupStock

def Consistent (c : SlotClient) : Prop := ∃ mc, c.Shows mc ∧ mc.Consistent

variable {c : SlotClient} {mc : Memcached} {g : SlotGroup} {x : Nat}

theorem Shows.spare (h : c.Shows mc) : mc.spare = c.spare := congrArg GroupStock.spare h.stock

theorem Shows.length_rgroups (h : c.Shows mc) : mc.rgroups.length = c.rgroups.length := by
  rw [h.rgroups, length_map]

theorem Shows.get (h : c.Shows mc) (hg : c.rgroups[x]? = some g) :
    g.Filled ∧ mc.rgroups[x]? = some g.toRgroup := by
  refine ⟨h.filled g (mem_of_getElem? hg), ?_⟩
  rw [h.rgroups, getElem?_map, hg]
  rfl

theorem Shows.set (h : c.Shows mc) {spare : SpareServers} (hs : SlotSt.Slots 0 s st)
    (hf : GroupSt.Frame ⟨g.toRgroup, spare⟩ st) (x : Nat) :
    Shows { c with rgroups := c.rgroups.set x (g.put s), spare := s.spare }
      { mc with rgroups := mc.rgroups.set x st.group, spare := st.spare } := by
  obtain ⟨hfi, hg⟩ := SlotGroup.put_spec hs hf
  refine ⟨fun g' hg' => ?_, ?_, ?_⟩
  · rcases mem_or_eq_of_mem_set hg' with hm | rfl
    · exact h.filled g' hm
    · exact hfi
  · rw [map_set, hg, h.rgroups]
  · rw [hs.spare, h.stock]

theorem createRgroup_related (h : c.Shows mc) (hr : c.rgroups.length < c.rgroupNtotal)
    (groupname : CStr) (addrs : List Addr) :
    Related Shows (c.createRgroup groupname addrs) (ArcusClient.createRgroup mc groupname addrs) := by
  rw [createRgroup, ArcusClient.createRgroup, if_neg (not_le.2 hr)]
  split
  · rfl
  have hin := SlotGroup.filled_init groupname c.rgroups.length c.spare
  have hst : (⟨⟨groupname, mc.rgroups.length, 1, []⟩, mc.spare⟩ : GroupSt) =
      ⟨(SlotGroup.init groupname c.rgroups.length).toRgroup, c.spare⟩ := by
    rw [h.length_rgroups, h.spare]
    rfl
  rw [hst]
  refine ((SlotSt.insertAll_related addrs addrs 0 hin rfl).and_ends
    (GroupSt.insertFrom_ends addrs _ 0 (le_refl _))).bind ?_
  rintro s st ⟨hs, hf, -⟩
  obtain ⟨hfi, hg⟩ := SlotGroup.put_spec hs hf
  refine ⟨forall_mem_append.2 ⟨h.filled, forall_mem_singleton.2 hfi⟩, ?_, ?_⟩
  · rw [map_append, map_singleton, hg, h.rgroups]
  · rw [hs.spare, h.stock]

theorem switchover_related (h : c.Shows mc) (groupindex switchoverSidx : Int) (peer : CStr) :
    Related Shows (c.switchover groupindex switchoverSidx peer)
      (rgroupSwitchover mc groupindex switchoverSidx peer) := by
  rw [switchover, rgroupSwitchover]
  split
  · rfl
  cases hg : c.rgroups[groupindex.toNat]? with
  | none =>
    rw [h.rgroups, getElem?_map, hg]
    rfl
  | some g =>
    obtain ⟨hfi, hg'⟩ := h.get hg
    have hs := hfi c.spare
    rw [hg']
    simp only [SlotSt.chosenSlave_eq hs, h.spare]
    change Related _ (match chosenSlave _ g.servers _ _ with | none => _ | some _ => _)
      (match chosenSlave _ g.servers _ _ with | none => _ | some _ => _)
    cases chosenSlave Replica.key g.servers switchoverSidx peer with
    | none => exact h
    | some sindex =>
      refine ((SlotSt.switchover_related hs sindex).and_ends
        ((GroupSt.switchover_ends _ sindex).and (GroupSt.switchover_spare _ sindex))).bind ?_
      rintro s st ⟨hs', ⟨hf, -⟩, hsp⟩
      have hst := h.set hs' hf groupindex.toNat
      rw [hs'.spare.trans hsp, hsp.trans h.spare.symm] at hst
      exact hst

theorem pruneGroups_eq : ∀ (groups : List SlotGroup) (x cursor : Nat) (spare : SpareServers),
    (∀ g ∈ groups, g.Filled) →
    let r := pruneRgroups x cursor (groups.map fun g => (g.toRgroup, g.isDead)) spare
    ∃ groups', pruneGroups x cursor groups spare = .ok (groups', r.2) ∧
      (∀ g ∈ groups', g.Filled) ∧ r.1 = groups'.map SlotGroup.toRgroup
  | [], _, _, _, _ => ⟨[], rfl, fun _ h => absurd h not_mem_nil, rfl⟩
  | g :: groups, x, cursor, spare, h => by
    obtain ⟨hg, hr⟩ := forall_mem_cons.1 h
    rw [pruneGroups, map_cons]
    cases g.isDead with
    | true =>
      obtain ⟨s, hd, hs⟩ := hg.destroy spare
      have ih := pruneGroups_eq groups (x + 1) cursor s.spare hr
      rw [if_pos rfl, hd, pruneRgroups, ← hs]
      exact ih
    | false =>
      obtain ⟨groups', hp, hf, he⟩ := pruneGroups_eq groups (x + 1) (cursor + 1) spare hr
      have hm : ∃ g', g.moveTo x cursor = .ok g' ∧ g'.Filled ∧
          (if cursor < x then doRgroupIndexSet g.toRgroup cursor else g.toRgroup) = g'.toRgroup := by
        rw [SlotGroup.moveTo]
        split
        · obtain ⟨g', hi, hfi, hg'⟩ := hg.indexSet cursor
          exact ⟨g', hi, hfi, hg'.symm⟩
        · exact ⟨g, rfl, hg, rfl⟩
      obtain ⟨g', hm, hfi, hg'⟩ := hm
      refine ⟨g' :: groups', ?_, forall_mem_cons.2 ⟨hfi, hf⟩, ?_⟩
      · rw [hm, hp]
        rfl
      · rw [map_cons, ← hg', ← he]
        rfl

theorem prune_shows (h : c.Shows mc) : ∃ c', c.prune = .ok c' ∧
    c'.Shows (rgroupPrune mc (c.rgroups.map fun g => (g.toRgroup, g.isDead))) := by
  obtain ⟨groups, hp, hf, he⟩ := pruneGroups_eq c.rgroups 0 0 c.spare h.filled
  rw [prune, hp, rgroupPrune, h.spare]
  refine ⟨_, rfl, hf, he, ?_⟩
  rw [h.stock]

theorem destroyAll_eq : ∀ (groups : List SlotGroup) (spare : SpareServers),
    (∀ g ∈ groups, g.Filled) → destroyAll groups spare =
      .ok ((groups.map SlotGroup.toRgroup).foldl (fun spare g => doRgroupDestroy g spare) spare)
  | [], _, _ => rfl
  | g :: groups, spare, h => by
    obtain ⟨hg, hr⟩ := forall_mem_cons.1 h
    obtain ⟨s, hd, hs⟩ := hg.destroy spare
    rw [destroyAll, hd, map_cons, foldl_cons, ← hs]
    exact destroyAll_eq groups s.spare hr

theorem freeServers_eq (objects : List Nat) (navail : Nat) :
    freeServers objects navail = ⟨[], navail - objects.length⟩ := by
  induction objects generalizing navail with
  | nil => rfl
  | cons object objects ih =>
    rw [freeServers, ih, length_cons, Nat.sub_sub, Nat.add_comm]

theorem listFree_shows (h : c.Shows mc) (hn : c.rgroupNtotal ≠ 0) :
    ∃ c', c.listFree = .ok c' ∧ c'.Shows (rgroupPruneAll mc) := by
  have hm : ¬(mc.rgroupNtotal = 0 ∧ mc.rgroups = []) := fun hm => by
    rw [h.stock] at hm
    exact hn hm.1
  rw [listFree, if_neg hn, destroyAll_eq _ _ h.filled, rgroupPruneAll, if_neg hm, ← h.rgroups,
    ← h.spare]
  refine ⟨_, rfl, fun _ hg => absurd hg not_mem_nil, rfl, ?_⟩
  rw [freeServers_eq]

/-- The groups are told their places. -/
theorem setPlaces_eq : ∀ (groups : List SlotGroup) (x : Nat),
    (∀ g ∈ groups, g.Filled ∧ ∃ y, g.toRgroup.Placed y) →
    ∃ groups', setPlaces x groups = .ok groups' ∧ (∀ g ∈ groups', g.Filled) ∧
      PlacedFrom x (groups'.map SlotGroup.toRgroup) ∧
      groupObjects (groups'.map SlotGroup.toRgroup) = groupObjects (groups.map SlotGroup.toRgroup)
  | [], _, _ => ⟨[], rfl, fun _ h => absurd h not_mem_nil, fun _ h => absurd h not_mem_nil, rfl⟩
  | g :: groups, x, h => by
    obtain ⟨⟨hg, y, hy⟩, hr⟩ := forall_mem_cons.1 h
    obtain ⟨g', hi, hf, hg'⟩ := hg.indexSet x
    obtain ⟨groups', hs, hfs, hp, ho⟩ := setPlaces_eq groups (x + 1) hr
    refine ⟨g' :: groups', ?_, forall_mem_cons.2 ⟨hf, hfs⟩, ?_, ?_⟩
    · rw [setPlaces, hi, hs]
      rfl
    · rw [map_cons, placedFrom_cons, hg']
      exact ⟨hy.indexSet x, hp⟩
    · rw [map_cons, map_cons, groupObjects, groupObjects, flatMap_cons, flatMap_cons, hg',
        objects_indexSet]
      exact congrArg (g.toRgroup.objects ++ ·) ho

/-! ## The calls -/

theorem consistent_create (useSortHosts : Bool) : (create useSortHosts).Consistent :=
  ⟨memcachedCreate .modula ⟨false, false, false, true⟩, ⟨fun _ h => absurd h not_mem_nil, rfl, rfl⟩,
    fun _ h => absurd h not_mem_nil, Ledger.nil, rfl⟩

theorem expand_consistent (env : Env) (h : c.Consistent) (rgroupcount servercount : Nat) :
    (c.expand env rgroupcount servercount).2.Consistent := by
  obtain ⟨mc, hs, hc⟩ := h
  have he := hc.expand env rgroupcount servercount
  rw [rgroupExpand, hs.stock] at he
  refine ⟨_, ?_, he⟩
  exact ⟨hs.filled, hs.rgroups, rfl⟩

theorem createRgroup_consistent (h : c.Consistent) (groupname : CStr) (addrs : List Addr) :
    Ends (fun _ => True) Consistent (c.createRgroup groupname addrs) := by
  obtain ⟨mc, hs, hc⟩ := h
  by_cases hr : c.rgroups.length < c.rgroupNtotal
  · exact (createRgroup_related hs hr groupname addrs).ends (hc.createRgroup groupname addrs)
  · rw [createRgroup, if_pos (not_lt.1 hr)]
    trivial

theorem sort_consistent (P : Platform) (h : c.Consistent) :
    Ends (fun _ => True) Consistent (c.sort P) := by
  rw [sort]
  split
  · exact h
  obtain ⟨mc, hs, hc⟩ := h
  have hp := P.qsort.perm SlotGroup.compare c.rgroups
  obtain ⟨groups, he, hf, hpl, ho⟩ := setPlaces_eq (P.qsort.run SlotGroup.compare c.rgroups) 0
    fun g hg => by
      obtain ⟨y, hy⟩ := mem_iff_getElem?.1 (hp.mem_iff.1 hg)
      obtain ⟨hfi, hg'⟩ := hs.get hy
      exact ⟨hfi, 0 + y, hc.placed.get hg'⟩
  rw [he]
  refine ⟨{ mc with rgroups := groups.map SlotGroup.toRgroup }, ⟨hf, rfl, hs.stock⟩, hpl, ?_, hc.navail⟩
  refine hc.ledger.perm ?_
  rw [ho, hs.rgroups]
  exact ((hp.map _).flatMap_right objects).append_right mc.spare.objects

theorem runDistribution_consistent (P : Platform) (h : c.Consistent) :
    Ends (fun _ => True) Consistent (c.runDistribution P) := by
  rw [runDistribution]
  split
  · exact sort_consistent P h
  · exact h

theorem pushGroupinfo_consistent (groupinfo : List RgroupInfo) (h : c.Consistent) :
    Ends (fun _ => True) Consistent (c.pushGroupinfo groupinfo) := by
  induction groupinfo generalizing c with
  | nil => exact h
  | cons g groups ih =>
    rw [pushGroupinfo]
    split
    · exact (createRgroup_consistent h g.groupname _).bind fun _ h₁ => ih h₁
    · exact ih h

theorem pushGroups_consistent (grouplist : List Rgroup) (h : c.Consistent) :
    Ends (fun _ => True) Consistent (c.pushGroups grouplist) := by
  induction grouplist generalizing c with
  | nil => exact h
  | cons g groups ih =>
    exact (createRgroup_consistent h g.groupname _).bind fun _ h₁ => ih h₁

theorem push_consistent (P : Platform) (env : Env) (h : c.Consistent)
    (grouplist : List Rgroup) : Ends (fun _ => True) Consistent (c.push P env grouplist) := by
  rw [push]
  have he := expand_consistent env h ((grouplist.length + c.rgroups.length) % 2 ^ 32)
    ((grouplist.length + c.rgroups.length) % 2 ^ 32 * rgroupMaxReplica % 2 ^ 32)
  generalize c.expand env _ _ = grown at he ⊢
  obtain ⟨granted, c₁⟩ := grown
  cases granted with
  | false => exact he
  | true =>
    exact (pushGroups_consistent grouplist he).bind fun _ h₁ => runDistribution_consistent P h₁

theorem updateGroup_consistent (h : c.Consistent) (x : Nat) (new : List Addr) :
    Ends (fun _ => True) Consistent (c.updateGroup x new) := by
  obtain ⟨mc, hs, hc⟩ := h
  rw [updateGroup]
  cases hg : c.rgroups[x]? with
  | none => trivial
  | some g =>
    obtain ⟨hfi, hg'⟩ := hs.get hg
    have hsl := hfi c.spare
    rw [← hs.spare] at hsl ⊢
    refine ((SlotSt.update_related (Nat.zero_le 1) hsl new).ends (GroupSt.update_ends _ new)).andThen
      (fun _ _ => trivial) ?_
    rintro ⟨changed, s⟩ ⟨⟨changed', st⟩, ⟨-, hsl'⟩, hf, -⟩
    exact ⟨_, hs.set hsl' hf x, hc.set hg' hf⟩

theorem markDead_consistent (h : c.Consistent) (x : Nat) :
    Ends (fun _ => True) Consistent (c.markDead x) := by
  obtain ⟨mc, hs, hc⟩ := h
  rw [markDead]
  cases hg : c.rgroups[x]? with
  | none => trivial
  | some g =>
    refine ⟨mc, ⟨fun g' hg' => ?_, ?_, hs.stock⟩, hc⟩
    · rcases mem_or_eq_of_mem_set hg' with hm | rfl
      · exact hs.filled g' hm
      · exact (hs.get hg).1
    · obtain ⟨hx, rfl⟩ := List.getElem?_eq_some_iff.1 hg
      have he : (c.rgroups.set x { c.rgroups[x] with isDead := true }).map SlotGroup.toRgroup =
          (c.rgroups.set x c.rgroups[x]).map SlotGroup.toRgroup := by
        rw [map_set, map_set]
        rfl
      rw [he, set_getElem_self, hs.rgroups]

theorem prune_consistent (h : c.Consistent) : Ends (fun _ => True) Consistent c.prune := by
  obtain ⟨mc, hs, hc⟩ := h
  obtain ⟨c', he, hs'⟩ := prune_shows hs
  rw [he]
  refine ⟨_, hs', hc.prune ?_⟩
  rw [hs.rgroups, map_map]
  rfl

theorem listFree_consistent (h : c.Consistent) : Ends (fun _ => True) Consistent c.listFree := by
  obtain ⟨mc, hs, hc⟩ := h
  by_cases hn : c.rgroupNtotal = 0
  · rw [listFree, if_pos hn]
    exact ⟨mc, hs, hc⟩
  · obtain ⟨c', he, hs'⟩ := listFree_shows hs hn
    rw [he]
    exact ⟨_, hs', hc.pruneAll⟩

/-- The objects of a client: those in its groups, and the free ones. -/
def objects (c : SlotClient) : List Nat := c.rgroups.flatMap SlotGroup.objects ++ c.spare.objects

theorem Shows.objects (h : c.Shows mc) : c.objects = groupObjects mc.rgroups ++ mc.spare.objects := by
  rw [SlotClient.objects, h.rgroups, h.spare, groupObjects, flatMap_map]
  rfl

end SlotClient

theorem SlotCall.run_consistent (P : Platform) (h : c.Consistent) (call : SlotCall) :
    Ends (fun _ => True) SlotClient.Consistent (call.run P c) := by
  cases call with
  | expand env rgroupcount servercount => exact SlotClient.expand_consistent env h rgroupcount servercount
  | push env grouplist => exact SlotClient.push_consistent P env h grouplist
  | pushWithGroupinfo groupinfo =>
    rw [SlotCall.run, SlotClient.pushWithGroupinfo]
    split
    · trivial
    · exact (SlotClient.pushGroupinfo_consistent groupinfo h).bind fun _ h₁ =>
        SlotClient.runDistribution_consistent P h₁
  | update x newRgroup | updateWithGroupinfo x rginfo =>
    exact SlotClient.updateGroup_consistent h x _
  | markDead x => exact SlotClient.markDead_consistent h x
  | switchover groupindex switchoverSidx peer =>
    obtain ⟨mc, hs, hc⟩ := h
    exact (SlotClient.switchover_related hs groupindex switchoverSidx peer).ends
      (hc.switchover groupindex switchoverSidx peer)
  | prune allFlag =>
    cases allFlag with
    | true => exact SlotClient.listFree_consistent h
    | false => exact SlotClient.prune_consistent h
  | sort => exact SlotClient.sort_consistent P h

def SlotStep (P : Platform) (c c' : SlotClient) : Prop := ∃ call : SlotCall, call.run P c = .ok c'

/-- After any calls on a client that had no groups, every group is in the place it knows, its slots hold
servers of this place below `nreplica` and nothing above, no object is in two places, and the counters
of the objects are right. -/
theorem bookkeeping_consistent (P : Platform) (useSortHosts : Bool) {c : SlotClient}
    (hrun : Relation.ReflTransGen (SlotStep P) (SlotClient.create useSortHosts) c) :
    (∀ (x : Nat) (g : SlotGroup), c.rgroups[x]? = some g → g.groupindex = x ∧
      (∀ y < g.nreplica, ∃ r : Replica, g.replicas y = some r ∧ r.server.groupindex = x) ∧
      ∀ y, g.nreplica ≤ y → g.replicas y = none) ∧ c.objects.Nodup ∧
    c.spare.navail = c.spare.objects.length ∧
    c.serverNtotal = c.spare.navail + (c.rgroups.map SlotGroup.nreplica).sum := by
  have hs : ∀ c₁ c₂ : SlotClient, c₁.Consistent → SlotStep P c₁ c₂ → c₂.Consistent := by
    rintro c₁ c₂ h₁ ⟨call, hc⟩
    exact (call.run_consistent P h₁).of_eq_ok hc
  obtain ⟨mc, h, hc⟩ : c.Consistent :=
    Runs.run_invariant hs (SlotClient.consistent_create useSortHosts) hrun
  have hl := hc.ledger
  have hn := hc.navail
  rw [← h.objects] at hl
  rw [h.spare] at hn
  refine ⟨fun x g hg => ?_, hl.nodup, hn, ?_⟩
  · obtain ⟨hf, hg'⟩ := h.get hg
    obtain ⟨hx, hp⟩ := hc.placed.get hg'
    have hsl := hf ⟨[], 0⟩
    have hle : g.nreplica = g.servers.length := hsl.nreplica
    have hr : ∀ y, g.replicas y = g.servers[y]? := hsl.replicas
    rw [Nat.zero_add] at hx hp
    refine ⟨hx, fun y hy => ?_, fun y hy => ?_⟩
    · rw [hle] at hy
      exact ⟨g.servers[y], by rw [hr, getElem?_eq_getElem hy], hp _ (getElem_mem hy)⟩
    · rw [hle] at hy
      rw [hr, getElem?_eq_none hy]
  · have hca := hl.card
    have hle : c.rgroups.map SlotGroup.nreplica = c.rgroups.map fun g => g.objects.length :=
      map_congr_left fun g hg => (h.filled g hg ⟨[], 0⟩).nreplica.trans (length_map _).symm
    rw [Finset.card_range, SlotClient.objects, length_append, length_flatMap, ← hle, ← hn] at hca
    rw [← congrArg GroupStock.serverNtotal h.stock, hca, Nat.add_comm]

theorem isValidServername_letter (c : Char) : isValidServername (lit [c]) = true := rfl

def lettersGroup (groupname : Char) (names : List Char) : Rgroup :=
  ⟨lit [groupname], 0, 1, names.mapIdx fun i c =>
    ⟨i, serverInit ⟨lit [c], isValidServername_letter c⟩ defaultPort 0 .tcp⟩⟩

/-- Two groups are pushed, and the first one, which has a slave, is pruned. -/
theorem bookkeeping_consistent_pruned : ∃ c₁ c₂ c₃,
    (SlotCall.push Env.granted [lettersGroup 'G' ['a', 'b'], lettersGroup 'H' ['c']]).run
      (Platform.ofMd5 fun _ _ => 0) (SlotClient.create false) = .ok c₁ ∧
    (SlotCall.markDead 0).run (Platform.ofMd5 fun _ _ => 0) c₁ = .ok c₂ ∧
    (SlotCall.prune false).run (Platform.ofMd5 fun _ _ => 0) c₂ = .ok c₃ ∧
    c₃.rgroups.length = 1 ∧ c₃.objects.Nodup ∧
    c₃.serverNtotal = c₃.spare.navail + (c₃.rgroups.map SlotGroup.nreplica).sum := by
  refine ⟨_, _, _, rfl, rfl, rfl, rfl, ?_⟩
  have h := bookkeeping_consistent (Platform.ofMd5 fun _ _ => 0) false
    (Relation.ReflTransGen.head
      ⟨.push Env.granted [lettersGroup 'G' ['a', 'b'], lettersGroup 'H' ['c']], rfl⟩
      (.head ⟨.markDead 0, rfl⟩ (.single ⟨.prune false, rfl⟩)))
  exact ⟨h.2.1, h.2.2.2⟩

end ArcusClient
