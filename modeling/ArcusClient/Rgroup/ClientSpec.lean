import ArcusClient.Rgroup.MatchSpec
import ArcusClient.Hosts.RingMatches

/-!
# The groups of a client

What pruning, pushing, making room and distributing do to the groups of a client.  Only the place of a
group may change, so groups are compared through `Rgroup.unplaced`, which leaves it out.
-/

namespace ArcusClient

open CString Outcome List

/-! ## Groups without their places -/

def Replica.unplaced (r : Replica) : Replica := { r with server.groupindex := 0 }

def Rgroup.unplaced (g : Rgroup) : Rgroup :=
  { g with groupindex := 0, replicas := g.replicas.map Replica.unplaced }

@[simp] theorem Rgroup.unplaced_groupname (g : Rgroup) : g.unplaced.groupname = g.groupname := rfl

theorem groupname_eq_of_unplaced_eq {g g' : Rgroup} (h : g.unplaced = g'.unplaced) :
    g.groupname = g'.groupname := by
  rw [← g.unplaced_groupname, h, g'.unplaced_groupname]

@[simp] theorem Rgroup.unplaced_keys (g : Rgroup) : g.unplaced.keys = g.keys := by
  rw [keys, unplaced, map_map]
  rfl

@[simp] theorem unplaced_doRgroupIndexSet (g : Rgroup) (x : Nat) :
    (doRgroupIndexSet g x).unplaced = g.unplaced := by
  rw [doRgroupIndexSet]
  split
  · rfl
  · simp [Rgroup.unplaced, Replica.unplaced]

/-! ## Distribution -/

/-- What `run_distribution` may change of a client: the order of its hosts, with the
places they know, and the ring. -/
structure Distributed (mc mc' : Memcached) : Prop where
  distribution : mc'.distribution = mc.distribution
  flags : mc'.flags = mc.flags
  spare : mc'.spare = mc.spare
  rgroupNtotal : mc'.rgroupNtotal = mc.rgroupNtotal
  serverNtotal : mc'.serverNtotal = mc.serverNtotal
  servers : (mc'.servers.map Server.core).Perm (mc.servers.map Server.core)
  servers_eq : mc.flags.useSortHosts = false ∨ mc.flags.replEnabled = true →
    mc'.servers = mc.servers
  servers_sorted : InSortOrder mc.servers →
    mc'.servers.map Server.key = mc.servers.map Server.key
  rgroups : (mc'.rgroups.map Rgroup.unplaced).Perm (mc.rgroups.map Rgroup.unplaced)
  rgroups_eq : mc.flags.useSortHosts = false ∨ mc.flags.replEnabled = false →
    mc'.rgroups = mc.rgroups
  rgroups_sorted : (mc.rgroups.Pairwise fun a b => doRgroupCompare a b < 0) →
    mc'.rgroups.map Rgroup.unplaced = mc.rgroups.map Rgroup.unplaced

theorem Distributed.ring (mc : Memcached) (k : Ketama) : Distributed mc { mc with ketama := k } :=
  ⟨rfl, rfl, rfl, rfl, rfl, .refl _, fun _ => rfl, fun _ => rfl, .refl _, fun _ => rfl, fun _ => rfl⟩

theorem Distributed.setRing (h : Distributed mc mc') (k : Ketama) :
    Distributed mc { mc' with ketama := k } :=
  ⟨h.distribution, h.flags, h.spare, h.rgroupNtotal, h.serverNtotal, h.servers, h.servers_eq,
    h.servers_sorted, h.rgroups, h.rgroups_eq, h.rgroups_sorted⟩

theorem Distributed.keys_perm (h : Distributed mc mc') :
    (mc'.servers.map Server.key).Perm (mc.servers.map Server.key) := by
  have hp := h.servers.map Server.key
  rwa [map_map, map_map] at hp

theorem unplaced_rgroupSort (P : Platform) (mc : Memcached) :
    (rgroupSort P mc).rgroups.map Rgroup.unplaced
      = (P.qsort.run doRgroupCompare mc.rgroups).map Rgroup.unplaced := by
  refine ext_getElem (by simp [rgroupSort]) fun x h h' => ?_
  simp [rgroupSort]

/-- The client after the first part of `run_distribution`. -/
theorem Distributed.sort (P : Platform) (mc : Memcached) :
    Distributed mc (if mc.flags.useSortHosts then
      (if mc.flags.replEnabled then rgroupSort P mc else sortHosts P mc) else mc) := by
  cases hs : mc.flags.useSortHosts with
  | false => exact Distributed.ring mc mc.ketama
  | true =>
    cases hr : mc.flags.replEnabled with
    | true =>
      refine ⟨rfl, rfl, rfl, rfl, rfl, .refl _, fun _ => rfl, fun _ => rfl, ?_,
        by simp [hs, hr], fun hso => ?_⟩
      · rw [if_pos rfl, if_pos rfl, unplaced_rgroupSort]
        exact (P.qsort.perm doRgroupCompare mc.rgroups).map _
      · rw [if_pos rfl, if_pos rfl, unplaced_rgroupSort,
          P.qsort.run_of_strictly_sorted doRgroupCompare_byKey
            (hso.imp fun ha => (strcmp_neg_iff _ _).1 ha)]
    | false =>
      obtain ⟨l, hl⟩ := sortHosts_eq P mc
      have hp := sortHosts_perm P mc
      have hso : InSortOrder mc.servers → _ := map_key_sortHosts P
      simp only [hl] at hp hso ⊢
      exact ⟨rfl, rfl, rfl, rfl, rfl, hp, by simp [hs, hr], hso, .refl _,
        fun _ => rfl, fun _ => rfl⟩

theorem updateContinuumBasedOnRgroups_ends (P : Platform) (env : Env) (mc : Memcached) :
    Ends (fun e => e ≠ .noServer) (fun r => ∃ k : Ketama, r.2 = { mc with ketama := k })
      (updateContinuumBasedOnRgroups P env mc) := by
  rw [updateContinuumBasedOnRgroups]
  cases env.poolMaster with
  | some info => exact ⟨_, rfl⟩
  | none =>
    split_ifs
    · exact ⟨mc.ketama, rfl⟩
    · simp
    · simp
    · obtain ⟨k, hk, -⟩ := updateRing_frame P rgroupRing env mc.rgroups mc
      exact ⟨k, hk⟩

/-- `run_distribution`, for any client. -/
theorem runDistribution_ends (P : Platform) (env : Env) (mc : Memcached) :
    Ends (fun e => e ≠ .noServer) (fun r => Distributed mc r.2) (runDistribution P env mc) := by
  have hs := Distributed.sort P mc
  have hr : ∀ mc₁, Distributed mc mc₁ →
      Ends (fun e => e ≠ .noServer) (fun r => Distributed mc r.2)
        (if mc₁.flags.replEnabled then updateContinuumBasedOnRgroups P env mc₁
          else .ok (updateContinuum P env mc₁)) := by
    intro mc₁ h₁
    split
    · refine (updateContinuumBasedOnRgroups_ends P env mc₁).imp (fun _ he => he) fun r => ?_
      rintro ⟨k, hk⟩
      rw [hk]
      exact h₁.setRing k
    · obtain ⟨k, hk, -⟩ := updateContinuum_frame P env mc₁
      rw [ends_ok, hk]
      exact h₁.setRing k
  rw [runDistribution]
  split
  · exact hr _ hs
  · exact hr _ hs
  · exact hr _ hs
  · exact hs
  · exact hs
  · exact hs

/-! ## Pruning -/

theorem doRgroupDestroy_eq (g : Rgroup) (spare : SpareServers) : doRgroupDestroy g spare =
    ⟨g.replicas.map Replica.object ++ spare.objects, spare.navail + g.nreplica⟩ := by
  rw [doRgroupDestroy, foldl_reverse, Rgroup.nreplica]
  induction g.replicas with
  | nil => rfl
  | cons r l ih =>
    rw [foldr_cons, ih]
    rfl

theorem length_doRgroupDestroy (g : Rgroup) (spare : SpareServers) :
    (doRgroupDestroy g spare).objects.length = spare.objects.length + g.nreplica := by
  rw [doRgroupDestroy_eq, length_append, length_map, Nat.add_comm, Rgroup.nreplica]

/-- The loop keeps the groups that are not dead, and frees the servers of the dead. -/
theorem pruneRgroups_spec : ∀ (marked : Marked Rgroup) (x cursor : Nat) (spare : SpareServers),
    (pruneRgroups x cursor marked spare).1.map Rgroup.unplaced = marked.alive.map Rgroup.unplaced ∧
      (pruneRgroups x cursor marked spare).2.objects.length
        = spare.objects.length + deadServers marked
  | [], _, _, _ => ⟨rfl, rfl⟩
  | (g, true) :: rest, x, cursor, spare => by
    obtain ⟨ha, hl⟩ := pruneRgroups_spec rest (x + 1) cursor (doRgroupDestroy g spare)
    refine ⟨ha, ?_⟩
    rw [pruneRgroups, hl, length_doRgroupDestroy, deadServers, deadServers,
      filter_cons_of_pos rfl, map_cons]
    exact Nat.add_assoc ..
  | (g, false) :: rest, x, cursor, spare => by
    obtain ⟨ha, hl⟩ := pruneRgroups_spec rest (x + 1) (cursor + 1) spare
    refine ⟨?_, hl⟩
    rw [pruneRgroups, map_cons, ha]
    have hf : (if cursor < x then doRgroupIndexSet g cursor else g).unplaced = g.unplaced := by
      split
      · exact unplaced_doRgroupIndexSet g cursor
      · rfl
    rw [hf]
    rfl

/-- `memcached_rgroup_prune`, called when a group is marked dead. -/
theorem rgroupPrune_spec (mc : Memcached) (marked : Marked Rgroup) (spare : SpareServers) :
    ∃ groups spare', (if marked.any Prod.snd then
          rgroupPrune { mc with rgroups := marked.map Prod.fst, spare := spare } marked
        else { mc with rgroups := marked.map Prod.fst, spare := spare })
        = { mc with rgroups := groups, spare := spare' } ∧
      groups.map Rgroup.unplaced = marked.alive.map Rgroup.unplaced ∧
      spare'.objects.length = spare.objects.length + deadServers marked := by
  cases hd : marked.any Prod.snd with
  | true =>
    obtain ⟨ha, hl⟩ := pruneRgroups_spec marked 0 0 spare
    exact ⟨_, _, rfl, ha, hl⟩
  | false =>
    refine ⟨marked.map Prod.fst, spare, rfl, ?_, ?_⟩
    · rw [(Marked.any_dead_eq_false_iff marked).1 hd]
    · have hn : marked.filter Prod.snd = [] := by
        rw [filter_eq_nil_iff]
        exact fun e he => by simpa using any_eq_false.1 hd e he
      simp [deadServers, hn]

/-! ## Pushing -/

theorem createRgroup_ends (mc : Memcached) (groupname : CStr) (addrs : List Addr) :
    Ends (fun e => e = .noServer → mc.spare.objects.length < addrs.length)
      (fun mc' => ∃ g spare, mc' = { mc with rgroups := mc.rgroups ++ [g], spare := spare } ∧
        g.groupname = groupname ∧ g.keys = goodAddrs addrs ∧
        spare.objects.length + g.nreplica = mc.spare.objects.length)
      (createRgroup mc groupname addrs) := by
  rw [createRgroup]
  split
  · simp
  · refine (GroupSt.insertFrom_ends addrs ⟨⟨groupname, mc.rgroups.length, 1, []⟩, mc.spare⟩ 0
      (le_refl _)).andThen (fun _ he => he.1) fun st => ?_
    rintro ⟨hf, hk⟩
    exact ⟨st.group, st.spare, rfl, hf.groupname, hk, hf.objects⟩

def Pushed (i : RgroupInfo) (g : Rgroup) : Prop :=
  g.groupname = i.groupname ∧ g.keys = goodAddrs i.keys

theorem pushGroupinfo_ends : ∀ (infos : List RgroupInfo) (mc : Memcached),
    Ends (fun e => e = .noServer → mc.spare.objects.length
        < ((infos.filter RgroupInfo.valid).map RgroupInfo.nreplica).sum)
      (fun mc' => ∃ new spare, mc' = { mc with rgroups := mc.rgroups ++ new, spare := spare } ∧
        List.Forall₂ Pushed (infos.filter RgroupInfo.valid) new ∧
        spare.objects.length + (new.map Rgroup.nreplica).sum = mc.spare.objects.length)
      (pushGroupinfo mc infos)
  | [], mc => ⟨[], mc.spare, by simp, .nil, rfl⟩
  | i :: infos, mc => by
    rw [pushGroupinfo]
    cases hv : i.valid with
    | false =>
      rw [filter_cons_of_neg (by simp [hv])]
      exact pushGroupinfo_ends infos mc
    | true =>
      rw [filter_cons_of_pos hv, map_cons, sum_cons]
      simp only [if_true]
      refine (createRgroup_ends mc i.groupname i.keys).andThen (fun e he hn => ?_) ?_
      · have := he hn
        rw [RgroupInfo.length_keys] at this
        omega
      · rintro _ ⟨g, spare, rfl, hna, hk, hs⟩
        have hl : g.nreplica ≤ i.nreplica := by
          rw [← g.length_keys, ← i.length_keys, hk]
          exact length_filter_le ..
        refine (pushGroupinfo_ends infos _).imp (fun e he hn => ?_) ?_
        · have : spare.objects.length < _ := he hn
          omega
        · rintro _ ⟨new, spare', rfl, hne, hs'⟩
          refine ⟨g :: new, spare', by simp, .cons ⟨hna, hk⟩ hne, ?_⟩
          rw [map_cons, sum_cons]
          have : spare'.objects.length + _ = spare.objects.length := hs'
          omega

/-- `memcached_rgroup_push_with_groupinfo`. -/
theorem rgroupPushWithGroupinfo_ends (P : Platform) (env : Env) (mc : Memcached)
    (infos : List RgroupInfo) : Ends (fun e => e = .noServer → mc.spare.objects.length
        < ((infos.filter RgroupInfo.valid).map RgroupInfo.nreplica).sum)
      (fun r => ∃ new spare, List.Forall₂ Pushed (infos.filter RgroupInfo.valid) new ∧
        Distributed { mc with rgroups := mc.rgroups ++ new, spare := spare } r.2)
      (rgroupPushWithGroupinfo P env mc infos) := by
  rw [rgroupPushWithGroupinfo]
  split
  · simp
  · refine (pushGroupinfo_ends infos mc).bind ?_
    rintro _ ⟨new, spare, rfl, hn, -⟩
    exact (runDistribution_ends P env _).imp (fun e he hno => absurd hno he)
      fun r hr => ⟨new, spare, hn, hr⟩

/-! ## Making room -/

structure Env.GrantsGroups (env : Env) : Prop where
  groupinfo : env.mallocGroupinfo = true
  realloc : env.realloc = true
  server : ∀ n, env.mallocServer n = true

namespace GroupStock

/-- What the loop keeps if one more server object does. -/
theorem expand_invariant {p : GroupStock → Prop}
    (ha : ∀ s, p s → p { s with
      spare := doRgroupServerFree s.spare s.serverNtotal, serverNtotal := s.serverNtotal + 1 })
    (hr : ∀ s n, p s → p { s with rgroupNtotal := n }) (env : Env) {s : GroupStock} (h : p s)
    (rgroupcount servercount : Nat) : p (s.expand env rgroupcount servercount).2 := by
  have hl : ∀ (missing : Nat) (s : GroupStock), p s → p (expandServers env missing s).2 := by
    intro missing
    induction missing with
    | zero => exact fun _ h => h
    | succ missing ih =>
      intro s h
      rw [expandServers]
      split
      · exact h
      · exact ih _ (ha s h)
  rw [expand]
  split_ifs
  · exact h
  · exact hl _ _ (hr s _ h)
  · exact hl _ _ h

theorem expandServers_granted (env : Env) : ∀ (missing : Nat) (s : GroupStock),
    ((expandServers env missing s).1 = true →
      (expandServers env missing s).2.spare.objects.length = s.spare.objects.length + missing) ∧
    (env.GrantsGroups → (expandServers env missing s).1 = true)
  | 0, _ => ⟨fun _ => rfl, fun _ => rfl⟩
  | missing + 1, s => by
    rw [expandServers]
    cases hm : env.mallocServer s.serverNtotal with
    | false =>
      refine ⟨fun h => ?_, fun hg => ?_⟩
      · cases h
      · rw [hg.server] at hm
        cases hm
    | true =>
      obtain ⟨hl, hg⟩ := expandServers_granted env missing _
      refine ⟨fun h => (hl h).trans ?_, hg⟩
      rw [doRgroupServerFree, length_cons]
      omega

end GroupStock

/-- Server objects are added to the free list until there are enough, and are counted. -/
theorem rgroupExpand_spec (env : Env) (mc : Memcached) (rgroupcount servercount : Nat) :
    ∃ spare n m, (rgroupExpand env mc rgroupcount servercount).2
        = { mc with spare := spare, serverNtotal := n, rgroupNtotal := m } ∧
      ((rgroupExpand env mc rgroupcount servercount).1 = true → spare.objects.length
          = mc.spare.objects.length + ((servercount + 1) % 2 ^ 32 - mc.serverNtotal)) ∧
      (env.GrantsGroups → (rgroupExpand env mc rgroupcount servercount).1 = true) ∧
      mc.serverNtotal ≤ n ∧ spare.objects.length + mc.serverNtotal = mc.spare.objects.length + n := by
  have hb : mc.serverNtotal ≤ (mc.expand env rgroupcount servercount).2.serverNtotal ∧
      (mc.expand env rgroupcount servercount).2.spare.objects.length + mc.serverNtotal =
        mc.spare.objects.length + (mc.expand env rgroupcount servercount).2.serverNtotal := by
    refine GroupStock.expand_invariant (p := fun s => mc.serverNtotal ≤ s.serverNtotal ∧
      s.spare.objects.length + mc.serverNtotal = mc.spare.objects.length + s.serverNtotal)
      (fun s h => ?_) (fun s _ h => h) env ⟨le_refl _, rfl⟩ rgroupcount servercount
    simp only [doRgroupServerFree, length_cons]
    omega
  have hg : ((mc.expand env rgroupcount servercount).1 = true →
      (mc.expand env rgroupcount servercount).2.spare.objects.length
        = mc.spare.objects.length + ((servercount + 1) % 2 ^ 32 - mc.serverNtotal)) ∧
      (env.GrantsGroups → (mc.expand env rgroupcount servercount).1 = true) := by
    rw [GroupStock.expand]
    split_ifs with hr hre
    · refine ⟨fun h => ?_, fun hg => ?_⟩
      · cases h
      · simp [hg.realloc] at hre
    · exact GroupStock.expandServers_granted env _ _
    · exact GroupStock.expandServers_granted env _ _
  exact ⟨_, _, _, rfl, hg.1, hg.2, hb⟩

end ArcusClient
