import ArcusClient.Rgroup.Model

/-!
# Updating the cache list

`memcached_update_cachelist` brings a client in line with a published list, and
`memcached_update_cachelist_with_master` a member of a pool with the master.  Each
has a variant for servers and one for groups.
-/

namespace ArcusClient

open CString Reconcile

/-- What the loop over the groups of a client leaves behind. -/
structure GroupMatch where
  marked : Marked Rgroup
  groupinfo : List RgroupInfo
  validcount : UInt32
  changed : Bool
  spare : SpareServers

/-- The search for the description of a group.  With it comes the list in which
the description is not valid any more. -/
def findGroupinfo (groupname : CStr) : List RgroupInfo → Option (RgroupInfo × List RgroupInfo)
  | [] => none
  | g :: groups =>
    if groupname = g.groupname then some (g, { g with valid := false } :: groups)
    else (findGroupinfo groupname groups).map fun r => (r.1, g :: r.2)

/-- The loop over the groups of a client.  A group with a valid description is
updated and its description used up.  A group with none is marked dead. -/
def matchRgroups : List Rgroup → List RgroupInfo → UInt32 → SpareServers → Except Fault GroupMatch
  | [], groupinfo, validcount, spare => .ok ⟨[], groupinfo, validcount, false, spare⟩
  | g :: groups, groupinfo, validcount, spare =>
    match findGroupinfo g.groupname groupinfo with
    | none => do
      let m ← matchRgroups groups groupinfo validcount spare
      return { m with marked := (g, true) :: m.marked }
    | some (rginfo, groupinfo') =>
      if rginfo.valid then do
        let (changed, st) ← rgroupUpdateWithGroupinfo ⟨g, spare⟩ rginfo
        let m ← matchRgroups groups groupinfo' (validcount - 1) st.spare
        return { m with
          marked := (st.group, false) :: m.marked
          changed := changed || m.changed }
      else do
        let m ← matchRgroups groups groupinfo validcount spare
        return { m with marked := (g, false) :: m.marked }

section Calls

variable (P : Platform) (env : Env)

/-- The end of `do_memcached_update_rgrouplist`: new groups are pushed and dead
ones pruned. -/
def finishRgrouplist (mc : Memcached) (m : GroupMatch) : Except Fault (Bool × ReturnT × Memcached) :=
  let mc := { mc with rgroups := m.marked.map Prod.fst, spare := m.spare }
  let pruneFlag := m.marked.any Prod.snd
  if 0 < m.validcount then
    let mc := if pruneFlag then rgroupPrune mc m.marked else mc
    (rgroupPushWithGroupinfo P env mc m.groupinfo).map (true, ·)
  else if pruneFlag then (runDistribution P env (rgroupPrune mc m.marked)).map (true, ·)
  else .ok (m.changed, .success, mc)

/-- `do_memcached_update_rgrouplist`, with `serverlist_changed` beside the return
code. -/
def doMemcachedUpdateRgrouplist (mc : Memcached) (serverinfo : List ServerInfo) :
    Except Fault (Bool × ReturnT × Memcached) :=
  if serverinfo.isEmpty then
    if mc.rgroups.isEmpty then .ok (false, .success, mc)
    else (runDistribution P env (rgroupPruneAll mc)).map (true, ·)
  else if !env.mallocGroupinfo then .ok (false, .memoryAllocationFailure, mc)
  else
    let (groupinfo, validcount) := rgroupInfoCreate serverinfo
    match rgroupExpand env mc groupinfo.length serverinfo.length with
    | (false, mc) => .ok (false, .memoryAllocationFailure, mc)
    | (true, mc) => do
      let m ← matchRgroups mc.rgroups groupinfo validcount mc.spare
      finishRgrouplist P env mc m

/-- `memcached_update_cachelist`. -/
def memcachedUpdateCachelist (mc : Memcached) (serverinfo : List ServerInfo) :
    Except Fault (Bool × ReturnT × Memcached) :=
  if mc.flags.replEnabled then doMemcachedUpdateRgrouplist P env mc serverinfo
  else doMemcachedUpdateServerlist P env mc serverinfo

/-- The loop that compares a member with the master.  A group at the cursor is
updated, any other is marked dead.  The result has the master's groups from the
cursor on. -/
def matchMasterRgroups : List Rgroup → List Rgroup → SpareServers →
    Except Fault (Marked Rgroup × List Rgroup × SpareServers)
  | [], master, spare => .ok ([], master, spare)
  | g :: groups, [], spare => do
    let (marked, rest, spare) ← matchMasterRgroups groups [] spare
    return ((g, true) :: marked, rest, spare)
  | g :: groups, m :: master, spare =>
    if g.groupname = m.groupname then do
      let (_, st) ← rgroupUpdate ⟨g, spare⟩ m
      let (marked, rest, spare) ← matchMasterRgroups groups master st.spare
      return ((st.group, false) :: marked, rest, spare)
    else do
      let (marked, rest, spare) ← matchMasterRgroups groups (m :: master) spare
      return ((g, true) :: marked, rest, spare)

/-- `do_memcached_update_rgrouplist_with_master`. -/
def doMemcachedUpdateRgrouplistWithMaster (mc master : Memcached) :
    Except Fault (ReturnT × Memcached) :=
  if master.rgroups.isEmpty then
    if mc.rgroups.isEmpty then .ok (.success, mc)
    else runDistribution P env (rgroupPruneAll mc)
  else if mc.rgroups.isEmpty then rgroupPush P env mc master.rgroups
  else do
    let (marked, rest, spare) ← matchMasterRgroups mc.rgroups master.rgroups mc.spare
    let pruneFlag := marked.any Prod.snd
    let mc := { mc with rgroups := marked.map Prod.fst, spare := spare }
    let mc := if pruneFlag then rgroupPrune mc marked else mc
    if !rest.isEmpty then rgroupPush P env mc rest
    else if pruneFlag then runDistribution P env mc
    else return (.success, mc)

end Calls

end ArcusClient
