import ArcusClient.Pool.CacheList
import ArcusClient.Lib.Runs

/-!
# A pool behind a proxy

A proxy publishes cache lists under a version that it raises each time.  The members of a pool share
the version they have consumed (`currentVersion`).  In `arcus_server_check_for_update` a member

* compares the two versions without a lock,
* if they differ, takes the lock of the proxy's data, has the published list applied to the master if
  its own ketama version is the master's, and records the version as consumed in any case,
* brings itself up to date if its ketama version is not the master's.

A member that is behind the master consumes the version and does not update it, so a list can be lost
(`stale_member_loses_update`).  No list is lost in a run in which every member that consumes a new
version is level with the master, the lists can be applied, and the versions do not come round to the
consumed one (`no_lost_update`).
-/

namespace ArcusClient

open CString Outcome List

/-! ## The system -/

inductive CheckPhase where
  /-- It is not checking. -/
  | idle
  /-- It has seen a new version and goes on to lock. -/
  | locking
  /-- It goes on to compare itself with the master. -/
  | comparing
  deriving DecidableEq

structure FetchedMember where
  /-- `configure.ketama_version`. -/
  ketamaVersion : Int
  phase : CheckPhase

/-- The proxy's data, what the members share, and the members. -/
structure ProxySt where
  /-- `proxy.data->version`. -/
  version : UInt32
  /-- The names `proxy.data->serverlist` was made from. -/
  strings : List CStr
  /-- `proxy.current_version`. -/
  currentVersion : UInt32
  /-- `zk.is_initializing`. -/
  isInitializing : Bool
  /-- The master of the pool. -/
  master : Memcached
  /-- The ketama version of the master. -/
  ketamaVersion : Int
  members : Nat → FetchedMember

def ProxySt.init (distribution : Distribution) (flags : Flags) : ProxySt where
  version := 0
  strings := []
  currentVersion := 0
  isInitializing := true
  master := memcachedCreate distribution flags
  ketamaVersion := -1
  members _ := ⟨-1, .idle⟩

namespace ProxySt

/-- What a call of `do_arcus_zk_update_cachelist_by_string` finds in its surroundings. -/
structure CallEnv where
  env : Env
  /-- The memory for the entries is granted. -/
  malloc : Bool
  /-- What the ports of the entries are at first. -/
  memory : Nat → UInt16

def serverinfo (s : ProxySt) (memory : Nat → UInt16) : List ServerInfo :=
  decodeCachelist s.master.flags.replEnabled memory (serverlistString s.strings) s.strings.length

/-- `do_arcus_zk_update_cachelist_by_string` for the master, down to the part of
`memcached_pool_update_cachelist` that is about the master. -/
def updateMaster (P : Platform) (s : ProxySt) (c : CallEnv) : Except Fault ProxySt :=
  if arcusMaxProxyFileLength ≤ (serverlistString s.strings).length then .ok s
  else if !c.malloc then .ok s
  else do
    let (changed, rc, master) ← memcachedUpdateCachelist P c.env s.master (s.serverinfo c.memory)
    let raised := s.isInitializing || (rc == .success && changed)
    return { s with
      master := master
      ketamaVersion := if raised then s.ketamaVersion + 1 else s.ketamaVersion
      isInitializing := false }

def setMember (s : ProxySt) (i : Nat) (m : FetchedMember) : ProxySt :=
  { s with members := Function.update s.members i m }

inductive Event where
  /-- `do_arcus_proxy_update_cachelist`. -/
  | publish (strings : List CStr)
  /-- A member gets a ketama version that the master has or had. -/
  | fetch (i : Nat) (ketamaVersion : Int)
  /-- A member starts its check with the test of the versions. -/
  | test (i : Nat)
  /-- The part under the lock of the proxy's data. -/
  | locked (i : Nat) (c : CallEnv)
  /-- The last part, where `memcached_pool_update_member` may fail. -/
  | compare (i : Nat) (updated : Bool)

def next (P : Platform) (s : ProxySt) : Event → Except Fault (Option ProxySt)
  | .publish strings => .ok (some { s with version := s.version + 1, strings := strings })
  | .fetch i ketamaVersion =>
    if (s.members i).phase = .idle ∧ ketamaVersion ≤ s.ketamaVersion then
      .ok (some (s.setMember i ⟨ketamaVersion, .idle⟩))
    else .ok none
  | .test i =>
    if (s.members i).phase = .idle then
      let phase := if s.version ≠ s.currentVersion then .locking else .comparing
      .ok (some (s.setMember i ⟨(s.members i).ketamaVersion, phase⟩))
    else .ok none
  | .locked i c =>
    if (s.members i).phase = .locking then do
      let s' ← if s.ketamaVersion = (s.members i).ketamaVersion then s.updateMaster P c
        else .ok s
      return some { s'.setMember i ⟨(s.members i).ketamaVersion, .comparing⟩ with
        currentVersion := s.version }
    else .ok none
  | .compare i updated =>
    if (s.members i).phase = .comparing then
      let m := s.members i
      let level := s.ketamaVersion ≠ m.ketamaVersion ∧ updated = true
      .ok (some (s.setMember i ⟨if level then s.ketamaVersion else m.ketamaVersion, .idle⟩))
    else .ok none

def Step (P : Platform) (s s' : ProxySt) : Prop := ∃ e, s.next P e = .ok (some s')

def Quiet (s : ProxySt) : Prop :=
  s.version = s.currentVersion ∧ ∀ i, (s.members i).phase = .idle

def MasterHasPublished (s : ProxySt) : Prop := ∃ memory, HasList s.master (s.serverinfo memory)

/-! ## Runs that lose nothing -/

def CanUpdate (s : ProxySt) (c : CallEnv) : Prop :=
  (serverlistString s.strings).length < arcusMaxProxyFileLength ∧ c.malloc = true ∧
    CanApply c.env s.master (s.serverinfo c.memory)

/-- The member that consumes the published version is level with the master, and the
list can be applied.  A member that is behind does no harm if the version is consumed
already.  The counter of 32 bits does not come back to the consumed version. -/
def Safe (s : ProxySt) : Event → Prop
  | .publish _ => s.version + 1 ≠ s.currentVersion
  | .locked i c =>
    if s.ketamaVersion = (s.members i).ketamaVersion then s.CanUpdate c
    else s.version = s.currentVersion
  | _ => True

def SafeStep (P : Platform) (s s' : ProxySt) : Prop := ∃ e, s.Safe e ∧ s.next P e = .ok (some s')

/-- What the safe steps keep.  The versions need not be those of a quiet state. -/
structure Inv (s : ProxySt) : Prop where
  groups : DistinctGroups s.master
  published : s.version = s.currentVersion → s.MasterHasPublished

theorem init_inv (distribution : Distribution) (flags : Flags) : (init distribution flags).Inv where
  groups _ := nodup_nil
  published _ := by
    refine ⟨fun _ => 0, ?_⟩
    rw [HasList]
    split
    · exact ⟨forall_mem_nil _, forall_mem_nil _⟩
    · exact Perm.nil

theorem updateMaster_ends (P : Platform) {s : ProxySt} (hs : DistinctGroups s.master)
    (hc : s.CanUpdate c) : Ends (fun _ => True)
      (fun s' => DistinctGroups s'.master ∧ s'.MasterHasPublished)
      (s.updateMaster P c) := by
  obtain ⟨hl, hm, ha⟩ := hc
  rw [updateMaster, if_neg (Nat.not_le.2 hl), if_neg (by simp [hm])]
  have hf : ∀ i ∈ s.serverinfo c.memory, i.exist = false :=
    fun i hi => exist_of_mem_decodeCachelist hi
  refine (updateCachelist_ends P hs hf ha).bind ?_
  rintro ⟨changed, rc, master⟩ ⟨hfl, hg, hli⟩
  refine ⟨hg, c.memory, ?_⟩
  simp only at hfl
  simpa only [serverinfo, hfl] using hli

theorem safeStep_inv (P : Platform) (s s' : ProxySt) (hs : s.Inv) (hst : s.SafeStep P s') :
    s'.Inv := by
  obtain ⟨e, hsa, hn⟩ := hst
  cases e with
  | publish strings =>
    cases hn
    exact ⟨hs.groups, fun h => absurd h hsa⟩
  | fetch i v | test i | compare i updated =>
    simp only [next] at hn
    split at hn
    · cases hn
      exact ⟨hs.groups, hs.published⟩
    · cases hn
  | locked i c =>
    rw [next] at hn
    rw [Safe] at hsa
    split at hn
    · -- the member updates the master, or finds the version consumed
      split at hsa
      · rename_i hle
        rw [if_pos hle] at hn
        cases hu : s.updateMaster P c with
        | error f => simp [hu] at hn
        | ok s₁ =>
          rw [hu] at hn
          cases hn
          obtain ⟨hg, memory, hli⟩ := (updateMaster_ends P hs.groups hsa).of_eq_ok hu
          exact ⟨hg, fun _ => ⟨memory, hli⟩⟩
      · rename_i hb
        rw [if_neg hb] at hn
        cases hn
        exact ⟨hs.groups, fun _ => hs.published hsa⟩
    · cases hn

end ProxySt

/-- No published list is lost in a run of safe steps. -/
theorem no_lost_update (P : Platform) (distribution : Distribution) (flags : Flags) {s : ProxySt}
    (hrun : Relation.ReflTransGen (ProxySt.SafeStep P) (ProxySt.init distribution flags) s)
    (hquiet : s.Quiet) : s.MasterHasPublished :=
  (Runs.run_invariant (ProxySt.safeStep_inv P) (ProxySt.init_inv distribution flags)
    hrun).published hquiet.1

def ProxySt.CallEnv.granted : ProxySt.CallEnv := ⟨Env.granted, true, fun _ => 0⟩

def nodeName (c : Char) : CStr := lit [c, ':', '1', '-', 'h']

/-- A list is published, and a member consumes it. -/
theorem no_lost_update_first : ∃ s : ProxySt,
    Relation.ReflTransGen (ProxySt.SafeStep (Platform.ofMd5 fun _ _ => 0))
      (ProxySt.init .modula ⟨false, false, false, false⟩) s ∧
    s.version = 1 ∧ s.MasterHasPublished := by
  obtain ⟨s, hs, hv, hq⟩ : ∃ s : ProxySt,
      Relation.ReflTransGen (ProxySt.SafeStep (Platform.ofMd5 fun _ _ => 0))
        (ProxySt.init .modula ⟨false, false, false, false⟩) s ∧ s.version = 1 ∧ s.Quiet := by
    refine ⟨_, .tail (.tail (.tail (.single
      ⟨.publish [nodeName 'a'], show (0 : UInt32) + 1 ≠ 0 by decide, rfl⟩)
      ⟨.test 0, trivial, rfl⟩)
      ⟨.locked 0 ProxySt.CallEnv.granted, ⟨by decide, rfl, rfl, rfl, by decide⟩, rfl⟩)
      ⟨.compare 0 true, trivial, rfl⟩, rfl, rfl, ?_⟩
    intro i
    cases i with
    | zero | succ i => rfl
  exact ⟨s, hs, hv, no_lost_update _ _ _ hs hq⟩

/-- Member `1` is fetched after the first list.  Member `0` consumes the second one.
When the third is published, member `1` is first to see it.  It is behind the master,
so it consumes the version without an update. -/
theorem stale_member_loses_update : ∃ s : ProxySt,
    Relation.ReflTransGen (ProxySt.Step (Platform.ofMd5 fun _ _ => 0))
      (ProxySt.init .modula ⟨false, false, false, false⟩) s ∧ s.Quiet ∧ ¬s.MasterHasPublished := by
  refine ⟨_, .tail (.tail (.tail (.tail (.tail (.tail (.tail (.tail (.tail (.tail (.tail (.tail
    (.single ⟨.publish [nodeName 'a'], rfl⟩)
    ⟨.test 0, rfl⟩) ⟨.locked 0 ProxySt.CallEnv.granted, rfl⟩) ⟨.compare 0 true, rfl⟩)
    ⟨.fetch 1 0, rfl⟩) ⟨.publish [nodeName 'b'], rfl⟩)
    ⟨.test 0, rfl⟩) ⟨.locked 0 ProxySt.CallEnv.granted, rfl⟩) ⟨.compare 0 true, rfl⟩)
    ⟨.publish [nodeName 'c'], rfl⟩)
    ⟨.test 1, rfl⟩) ⟨.locked 1 ProxySt.CallEnv.granted, rfl⟩) ⟨.compare 1 true, rfl⟩, ⟨rfl, ?_⟩, ?_⟩
  · intro i
    match i with
    | 0 => rfl
    | 1 => rfl
    | i + 2 => rfl
  · rintro ⟨memory, hp⟩
    -- the master has the second list
    have hp : Perm [(⟨lit ['b'], 1⟩ : Addr)] [⟨lit ['c'], 1⟩] := hp
    exact absurd (hp.subset mem_cons_self) (by decide)

end ArcusClient
