import ArcusClient.Rgroup.Reconciled
import ArcusClient.Lib.Runs

/-!
# The free list of server objects

Before the groups are updated there is one free object more than the new list has servers.  But the
groups are updated one after the other, and the objects of groups that shrink or die later are not free
yet.  So a group that grows early can find the free list empty (`free_list_runs_dry`).  `RoomFor` is the
condition under which this does not happen (`free_list_lasts`).
-/

namespace ArcusClient

open CString Outcome

def RoomyCall (P : Platform) (mc mc' : Memcached) : Prop :=
  ∃ env serverinfo changed rc, RoomFor mc serverinfo ∧
    doMemcachedUpdateRgrouplist P env mc serverinfo = .ok (changed, rc, mc')

/-- No call runs out of server objects, in a run from an empty client whose calls all
have room. -/
theorem free_list_lasts (P : Platform) (distribution : Distribution) (flags : Flags)
    {mc : Memcached}
    (hrun : Relation.ReflTransGen (RoomyCall P) (memcachedCreate distribution flags) mc)
    (env : Env) (serverinfo : List ServerInfo) (hroom : RoomFor mc serverinfo) :
    doMemcachedUpdateRgrouplist P env mc serverinfo ≠ .error .noServer := by
  have he : (memcachedCreate distribution flags).groupnames.Nodup := List.nodup_nil
  have hs : ∀ mc₁ mc₂ : Memcached, mc₁.groupnames.Nodup → RoomyCall P mc₁ mc₂ →
      mc₂.groupnames.Nodup := by
    rintro mc₁ mc₂ hn ⟨env, serverinfo, changed, rc, -, h⟩
    exact nodup_groupnames_of_call hn h
  have hn : mc.groupnames.Nodup := Runs.run_invariant hs he hrun
  intro h
  exact (updateRgrouplist_ends P env mc serverinfo hn).of_eq_error h rfl hroom

/-- A group of one server grows to two in the second call. -/
theorem free_list_lasts_growing : ∃ mc,
    doMemcachedUpdateRgrouplist (Platform.ofMd5 fun _ _ => 0) Env.granted replClient
      [groupEntry 'G' 'a' true] = .ok (true, .success, mc) ∧
    doMemcachedUpdateRgrouplist (Platform.ofMd5 fun _ _ => 0) Env.granted mc
      [groupEntry 'G' 'a' true, groupEntry 'G' 'b' false] ≠ .error .noServer := by
  refine ⟨_, rfl, free_list_lasts _ .modula ⟨false, false, false, true⟩
    (.single ⟨Env.granted, [groupEntry 'G' 'a' true], true, .success, ⟨trivial, by decide⟩, rfl⟩)
    _ _ ⟨⟨⟨by decide, by decide⟩, trivial⟩, by decide⟩⟩

/-- The first group grows by two servers before the second one dies, and there is only
one free object. -/
theorem free_list_runs_dry : ∃ mc,
    doMemcachedUpdateRgrouplist (Platform.ofMd5 fun _ _ => 0) Env.granted replClient
      [groupEntry 'G' 'a' true, groupEntry 'H' 'b' true, groupEntry 'H' 'c' false,
        groupEntry 'H' 'd' false] = .ok (true, .success, mc) ∧
    doMemcachedUpdateRgrouplist (Platform.ofMd5 fun _ _ => 0) Env.granted mc
      [groupEntry 'G' 'a' true, groupEntry 'G' 'e' false, groupEntry 'G' 'f' false]
      = .error .noServer :=
  ⟨_, rfl, rfl⟩

end ArcusClient
