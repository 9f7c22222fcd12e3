import ArcusClient.Rgroup.ClientSpec
import Mathlib.Data.List.TakeWhile

/-!
# A member copies the master

A member of a pool shares the ring of the master, so its hosts have to be those of the master in the
same order.  `memcached_update_cachelist_with_master` makes one pass over its hosts with a cursor into
the master's.  A host at the cursor stays, any other is pruned, and what is left of the master's list
is appended.  The result is the master's sequence (`member_copies_master`), unless a client that sorts
its hosts has another order, or an empty member reads the length of the master's list off its first
server.
-/

namespace ArcusClient

open CString Outcome List

/-! ## Servers -/

/-- One pass with a cursor: those that stay and the rest of the master's list make up
the master's list. -/
theorem matchMaster_spec : ∀ servers master : List Server,
    (matchMaster servers master).1.map Prod.fst = servers ∧
      (matchMaster servers master).1.alive.map Server.key
          ++ (matchMaster servers master).2.map Server.key = master.map Server.key
  | [], master => ⟨rfl, rfl⟩
  | s :: servers, [] => by
    obtain ⟨ha, hk⟩ := matchMaster_spec servers []
    exact ⟨congrArg (s :: ·) ha, hk⟩
  | s :: servers, m :: master => by
    rw [matchMaster]
    by_cases hke : s.key = m.key
    · obtain ⟨ha, hk⟩ := matchMaster_spec servers master
      rw [if_pos hke]
      refine ⟨congrArg (s :: ·) ha, ?_⟩
      rw [map_cons, ← hk, ← hke]
      rfl
    · obtain ⟨ha, hk⟩ := matchMaster_spec servers (m :: master)
      rw [if_neg hke]
      exact ⟨congrArg (s :: ·) ha, hk⟩

theorem InSortOrder.of_keys
    (hk : servers'.map Server.key = servers.map Server.key) (h : InSortOrder servers) :
    InSortOrder servers' := by
  have hs : (servers.map Server.key).Pairwise fun a b => a.sortKey ≤ b.sortKey := by
    rw [pairwise_map]
    exact h.imp fun ha => (compareServers_byKey _ _).1 ha
  rw [← hk, pairwise_map] at hs
  exact hs.imp fun ha => (compareServers_byKey _ _).2 ha

/-- Servers keep their order when the client does not sort or they are sorted. -/
theorem Distributed.map_key (h : Distributed mc mc')
    (hs : mc.flags.useSortHosts = false ∨ InSortOrder mc.servers) :
    mc'.servers.map Server.key = mc.servers.map Server.key := by
  rcases hs with ho | hso
  · rw [h.servers_eq (.inl ho)]
  · exact h.servers_sorted hso

theorem map_key_setCount (servers : List Server) :
    (setCount servers).map Server.key = servers.map Server.key :=
  map_eq_of_map_core_eq Server.core_key (map_core_setCount servers)

/-- A call that succeeds has distributed what it has made of a client. -/
def Makes (mc : Memcached) (Q : Memcached → Prop) (r : ReturnT × Memcached) : Prop :=
  r.1 = .success → ∃ mc₁, mc₁.flags = mc.flags ∧ Q mc₁ ∧ Distributed mc₁ r.2

section Makes

variable {P : Platform} {env : Env} {mc mc₁ : Memcached} {Q Q' : Memcached → Prop}

theorem makes_unchanged (hf : mc₁.flags = mc.flags) (hQ : Q mc₁) : Makes mc Q (.success, mc₁) :=
  fun _ => ⟨mc₁, hf, hQ, .ring mc₁ mc₁.ketama⟩

theorem runDistribution_makes (hf : mc₁.flags = mc.flags) (hQ : Q mc₁) :
    Ends (fun _ => True) (Makes mc Q) (runDistribution P env mc₁) :=
  (runDistribution_ends P env mc₁).imp (fun _ _ => trivial)
    fun _ hd _ => ⟨mc₁, hf, hQ, hd⟩

theorem Makes.imp (h : Makes mc₁ Q r) (hf : mc₁.flags = mc.flags)
    (hQ : ∀ mc₂, Q mc₂ → Q' mc₂) : Makes mc Q' r := by
  intro hr
  obtain ⟨mc₂, hf₂, hm, hd⟩ := h hr
  exact ⟨mc₂, hf₂.trans hf, hQ mc₂ hm, hd⟩

end Makes

theorem serverPushWithCount_ends (P : Platform) (env : Env) (mc : Memcached) (list : List Server)
    (count : Nat) : Ends (fun _ => True) (Makes mc fun mc₁ => mc₁.servers.map Server.key =
        mc.servers.map Server.key ++ (list.take count).map Server.key)
      (serverPushWithCount P env mc list count) := by
  rw [serverPushWithCount]
  split
  · simp [Makes]
  · rw [pushServers_eq]
    cases ha : allAccepted mc.flags (list.take count) with
    | false => simp [finishPush, Makes]
    | true =>
      rw [if_pos rfl, appendServers_eq]
      refine runDistribution_makes rfl ?_
      rw [map_key_setCount, map_append, map_key_acceptServers ha]

/-- `memcached_server_prune`, called when a server is marked dead. -/
theorem serverPrune_spec (ha : marked.map Prod.fst = mc.servers) :
    ∃ mc₁, (if marked.any Prod.snd then serverPrune mc marked else mc) = mc₁ ∧
      mc₁.flags = mc.flags ∧ mc₁.servers.map Server.key = marked.alive.map Server.key := by
  cases hd : marked.any Prod.snd with
  | true =>
    exact ⟨_, rfl, rfl, map_eq_of_map_core_eq Server.core_key (map_core_serverPrune mc marked)⟩
  | false =>
    refine ⟨_, rfl, rfl, ?_⟩
    rw [(Marked.any_dead_eq_false_iff marked).1 hd, ha]
    rfl

/-- The member's addresses before they are distributed are the master's, in a call
that succeeds. -/
theorem updateServerlistWithMaster_ends (P : Platform) (env : Env) (mc master : Memcached)
    (hc : mc.servers = [] → serverListCount master.servers = master.servers.length) :
    Ends (fun _ => True)
      (Makes mc fun mc₁ => mc₁.servers.map Server.key = master.servers.map Server.key)
      (doMemcachedUpdateServerlistWithMaster P env mc master) := by
  rw [doMemcachedUpdateServerlistWithMaster]
  by_cases hm : master.servers = []
  · rw [if_pos (by simp [hm]), hm]
    by_cases hmc : mc.servers = []
    · rw [if_pos (by simp [hmc])]
      exact makes_unchanged rfl (by rw [hmc])
    · rw [if_neg (by simp [hmc])]
      exact runDistribution_makes rfl rfl
  · rw [if_neg (by simp [hm])]
    by_cases hmc : mc.servers = []
    · rw [if_pos (by simp [hmc])]
      refine (serverPushWithCount_ends P env mc _ _).imp (fun _ _ => trivial)
        fun r hr => hr.imp rfl fun mc₁ hk => ?_
      rw [hk, hmc, hc hmc, take_length]
      rfl
    · rw [if_neg (by simp [hmc])]
      obtain ⟨ha, hk⟩ := matchMaster_spec mc.servers master.servers
      generalize matchMaster mc.servers master.servers = matched at ha hk
      obtain ⟨marked, rest⟩ := matched
      simp only at ha hk ⊢
      obtain ⟨mc₁, he, hf₁, hk₁⟩ := serverPrune_spec ha
      rw [he]
      by_cases hre : rest = []
      · rw [if_neg (by simp [hre])]
        rw [hre, map_nil, append_nil, ← hk₁] at hk
        split
        · exact runDistribution_makes hf₁ hk
        · exact makes_unchanged hf₁ hk
      · rw [if_pos (by simp [hre])]
        refine (serverPushWithCount_ends P env mc₁ _ _).imp (fun _ _ => trivial)
          fun r hr => hr.imp hf₁ fun mc₂ hk₂ => ?_
        rw [hk₂, take_length, hk₁, hk]

/-! ## Groups -/

/-- A group has the name and the servers of the master's, and the same master. -/
structure CopyOf (g m : Rgroup) : Prop where
  groupname : g.groupname = m.groupname
  master : g.keys.head? = m.keys.head?
  servers : g.keys.Perm m.keys

theorem CopyOf.unplaced : CopyOf g.unplaced m ↔ CopyOf g m := by
  constructor
  · rintro ⟨hn, hm, hs⟩
    exact ⟨hn, g.unplaced_keys ▸ hm, g.unplaced_keys ▸ hs⟩
  · rintro ⟨hn, hm, hs⟩
    exact ⟨hn, g.unplaced_keys.symm ▸ hm, g.unplaced_keys.symm ▸ hs⟩

theorem copies_of_unplaced_eq (h : groups'.map Rgroup.unplaced = groups.map Rgroup.unplaced)
    (hc : List.Forall₂ CopyOf groups master) : List.Forall₂ CopyOf groups' master := by
  have hm : Forall₂ CopyOf (groups.map Rgroup.unplaced) master := by
    rw [forall₂_map_left_iff]
    exact hc.imp fun _ _ => CopyOf.unplaced.2
  rw [← h, forall₂_map_left_iff] at hm
  exact hm.imp fun _ _ => CopyOf.unplaced.1

theorem Rgroup.keys_valid (g : Rgroup) : ∀ a ∈ g.keys, a.valid = true := by
  intro a ha
  obtain ⟨r, -, rfl⟩ := mem_map.1 ha
  exact r.key_valid

/-- The pass over the groups: those that stay are copies, and the master's list is
what they are copies of with the rest. -/
theorem matchMasterRgroups_ends : ∀ (groups master : List Rgroup) (spare : SpareServers),
    Ends (fun _ => True)
      (fun r => ∃ copied, master = copied ++ r.2.1 ∧ List.Forall₂ CopyOf r.1.alive copied)
      (matchMasterRgroups groups master spare)
  | [], master, spare => ⟨[], rfl, .nil⟩
  | g :: groups, [], spare => by
    rw [matchMasterRgroups]
    refine (matchMasterRgroups_ends groups [] spare).bind ?_
    rintro ⟨marked, rest, spare'⟩ ⟨copied, hm, hc⟩
    exact ⟨copied, hm, hc⟩
  | g :: groups, m :: master, spare => by
    rw [matchMasterRgroups]
    by_cases hn : g.groupname = m.groupname
    · rw [if_pos hn]
      refine (GroupSt.update_ends ⟨g, spare⟩ m.keys).andThen (fun _ _ => trivial) ?_
      rintro ⟨changed, st⟩ ⟨hf, -, ha, -⟩
      obtain ⟨hm₁, hs₁⟩ := ha m.keys_valid
      refine (matchMasterRgroups_ends groups master st.spare).bind ?_
      rintro ⟨marked, rest, spare'⟩ ⟨copied, hm, hc⟩
      refine ⟨m :: copied, congrArg (m :: ·) hm, .cons ?_ hc⟩
      exact ⟨hf.groupname.trans hn, hm₁, hs₁⟩
    · rw [if_neg hn]
      refine (matchMasterRgroups_ends groups (m :: master) spare).bind ?_
      rintro ⟨marked, rest, spare'⟩ ⟨copied, hm, hc⟩
      exact ⟨copied, hm, hc⟩

/-- The loop of a push makes copies, from objects of the free list. -/
theorem pushRgroups_ends : ∀ (list : List Rgroup) (mc : Memcached), Ends (fun e => e = .noServer →
        mc.spare.objects.length < (list.map Rgroup.nreplica).sum)
      (fun mc' => mc'.flags = mc.flags ∧ mc'.serverNtotal = mc.serverNtotal ∧
        ∃ new, mc'.rgroups = mc.rgroups ++ new ∧ List.Forall₂ CopyOf new list ∧
          mc'.spare.objects.length + (list.map Rgroup.nreplica).sum = mc.spare.objects.length)
      (pushRgroups mc list)
  | [], mc => ⟨rfl, rfl, [], (append_nil _).symm, .nil, rfl⟩
  | m :: list, mc => by
    rw [pushRgroups]
    refine (createRgroup_ends mc m.groupname m.keys).andThen (fun e he hn => ?_) ?_
    · have hf := he hn
      rw [m.length_keys] at hf
      rw [map_cons, sum_cons]
      omega
    rintro _ ⟨g, spare, rfl, hna, hk, hs⟩
    rw [goodAddrs, filter_eq_self.2 m.keys_valid] at hk
    have hl : g.nreplica = m.nreplica := by rw [← g.length_keys, ← m.length_keys, hk]
    rw [map_cons, sum_cons]
    refine (pushRgroups_ends list _).imp (fun e he hn => ?_) ?_
    · have hf : spare.objects.length < _ := he hn
      omega
    rintro mc' ⟨hfl, hnt, new, hg, hne, hs'⟩
    have hs' : mc'.spare.objects.length + _ = spare.objects.length := hs'
    refine ⟨hfl, hnt, g :: new, ?_, .cons ⟨hna, by rw [hk], by rw [hk]⟩ hne, ?_⟩
    · rw [hg, append_assoc, singleton_append]
    · omega

/-- `memcached_rgroup_push`. -/
theorem rgroupPush_ends (P : Platform) (env : Env) (mc : Memcached) (list : List Rgroup) :
    Ends (fun _ => True)
      (Makes mc fun mc₁ => ∃ new, mc₁.rgroups = mc.rgroups ++ new ∧ List.Forall₂ CopyOf new list)
      (rgroupPush P env mc list) := by
  rw [rgroupPush]
  obtain ⟨spare, n, n', he, -⟩ := rgroupExpand_spec env mc
    ((list.length + mc.rgroups.length) % 2 ^ 32)
    ((list.length + mc.rgroups.length) % 2 ^ 32 * rgroupMaxReplica % 2 ^ 32)
  generalize rgroupExpand env mc _ _ = grown at he ⊢
  obtain ⟨granted, mc₀⟩ := grown
  subst he
  cases granted with
  | false => simp [Makes]
  | true =>
    refine (pushRgroups_ends list _).andThen (fun _ _ => trivial) fun mc₁ => ?_
    rintro ⟨hf, -, new, hg, hn, -⟩
    exact runDistribution_makes hf ⟨new, hg, hn⟩

/-- The member's groups before they are distributed are copies of the master's, in a
call that succeeds. -/
theorem updateRgrouplistWithMaster_ends (P : Platform) (env : Env) (mc master : Memcached) :
    Ends (fun _ => True) (Makes mc fun mc₁ => List.Forall₂ CopyOf mc₁.rgroups master.rgroups)
      (doMemcachedUpdateRgrouplistWithMaster P env mc master) := by
  rw [doMemcachedUpdateRgrouplistWithMaster]
  by_cases hm : master.rgroups = []
  · rw [if_pos (by simp [hm]), hm]
    by_cases hmc : mc.rgroups = []
    · rw [if_pos (by simp [hmc])]
      exact makes_unchanged rfl (by rw [hmc]; exact .nil)
    · rw [if_neg (by simp [hmc])]
      have hn : (rgroupPruneAll mc).rgroups = [] := by simp [rgroupPruneAll, hmc]
      exact runDistribution_makes (by simp [rgroupPruneAll, hmc]) (by rw [hn]; exact .nil)
  · rw [if_neg (by simp [hm])]
    by_cases hmc : mc.rgroups = []
    · rw [if_pos (by simp [hmc])]
      refine (rgroupPush_ends P env mc _).imp (fun _ _ => trivial) fun r hr => hr.imp rfl ?_
      rintro mc₁ ⟨new, hg, hne⟩
      rwa [hg, hmc]
    · rw [if_neg (by simp [hmc])]
      refine (matchMasterRgroups_ends mc.rgroups master.rgroups mc.spare).bind ?_
      rintro ⟨marked, rest, spare⟩ ⟨copied, hs, hc⟩
      obtain ⟨groups, spare', hp, ha, -⟩ := rgroupPrune_spec mc marked spare
      simp only at hs hc ⊢
      rw [hp]
      have hg : Forall₂ CopyOf groups copied := copies_of_unplaced_eq ha hc
      by_cases hre : rest = []
      · rw [if_neg (by simp [hre])]
        rw [hre, append_nil] at hs
        rw [hs]
        split
        · exact runDistribution_makes rfl hg
        · exact makes_unchanged rfl hg
      · rw [if_pos (by simp [hre])]
        refine (rgroupPush_ends P env _ _).imp (fun _ _ => trivial) fun r hr => hr.imp rfl ?_
        rintro mc₂ ⟨new, hg₂, hne⟩
        rw [hg₂, hs]
        exact rel_append hg hne

theorem groupnames_of_copies (h : List.Forall₂ CopyOf groups master) :
    groups.map Rgroup.groupname = master.map Rgroup.groupname := by
  induction h with
  | nil => rfl
  | cons hc _ ih => rw [map_cons, map_cons, ih, hc.groupname]

theorem pairwise_compare_of_groupnames {groups master : List Rgroup}
    (hn : groups.map Rgroup.groupname = master.map Rgroup.groupname)
    (h : master.Pairwise fun a b => doRgroupCompare a b < 0) :
    groups.Pairwise fun a b => doRgroupCompare a b < 0 := by
  have hs : (master.map Rgroup.groupname).Pairwise fun a b => strcmp a b < 0 :=
    pairwise_map.2 h
  rw [← hn] at hs
  exact pairwise_map.1 hs

/-! ## The copy -/

/-- A member that was brought in line has the master's sequence of hosts.  A member
that sorts its hosts needs a sorted master, and an empty one a master whose first
server knows how many there are. -/
theorem member_copies_master (P : Platform) (env : Env) (mc master mc' : Memcached) :
    ((mc.flags.useSortHosts = false ∨ InSortOrder master.servers) →
      (mc.servers = [] → serverListCount master.servers = master.servers.length) →
      doMemcachedUpdateServerlistWithMaster P env mc master = .ok (.success, mc') →
      mc'.servers.map Server.key = master.servers.map Server.key) ∧
    ((mc.flags.useSortHosts = false ∨ master.rgroups.Pairwise fun a b => doRgroupCompare a b < 0) →
      doMemcachedUpdateRgrouplistWithMaster P env mc master = .ok (.success, mc') →
      mc'.rgroups.map Rgroup.groupname = master.rgroups.map Rgroup.groupname ∧
        List.Forall₂ CopyOf mc'.rgroups master.rgroups) := by
  constructor
  · intro hs hc h
    obtain ⟨mc₁, hf, hk, hd⟩ :=
      (updateServerlistWithMaster_ends P env mc master hc).of_eq_ok h rfl
    rw [← hk]
    refine hd.map_key (hs.imp (fun ho => ?_) fun hsor => ?_)
    · rwa [hf]
    · exact hsor.of_keys hk
  · intro hs h
    obtain ⟨mc₁, hf, hcop, hd⟩ :=
      (updateRgrouplistWithMaster_ends P env mc master).of_eq_ok h rfl
    have hfi : Forall₂ CopyOf mc'.rgroups master.rgroups := by
      refine copies_of_unplaced_eq ?_ hcop
      rcases hs with ho | hsor
      · rw [hd.rgroups_eq (.inl (hf ▸ ho))]
      · exact hd.rgroups_sorted
          (pairwise_compare_of_groupnames (groupnames_of_copies hcop) hsor)
    exact ⟨groupnames_of_copies hfi, hfi⟩

def listClient (useSortHosts : Bool) (names : List Char) : Memcached :=
  { memcachedCreate .modula ⟨useSortHosts, false, false, false⟩ with
    servers := setCount (names.map fun c => serverInit ⟨lit [c], rfl⟩ defaultPort 0 .tcp) }

def groupClient (names : List Char) : Memcached :=
  { memcachedCreate .modula ⟨false, false, false, true⟩ with
    rgroups := [⟨lit ['G'], 0, 1, names.mapIdx fun i c =>
      ⟨i, serverInit ⟨lit [c], rfl⟩ defaultPort 0 .tcp⟩⟩]
    rgroupNtotal := 10
    serverNtotal := names.length + 1
    spare := ⟨[names.length], 1⟩ }

/-- One server is out of place and one is new, and a slave becomes the master. -/
theorem member_copies_master_three :
    (∃ mc', doMemcachedUpdateServerlistWithMaster (Platform.ofMd5 fun _ _ => 0) Env.granted
        (listClient false ['b', 'c', 'a']) (listClient false ['b', 'a', 'd'])
      = .ok (.success, mc') ∧
      mc'.servers.map Server.key = (listClient false ['b', 'a', 'd']).servers.map Server.key) ∧
    ∃ mc', doMemcachedUpdateRgrouplistWithMaster (Platform.ofMd5 fun _ _ => 0) Env.granted
        (groupClient ['a', 'b']) (groupClient ['b', 'c']) = .ok (.success, mc') ∧
      mc'.rgroups.map Rgroup.groupname = (groupClient ['b', 'c']).rgroups.map Rgroup.groupname ∧
        List.Forall₂ CopyOf mc'.rgroups (groupClient ['b', 'c']).rgroups := by
  constructor
  · obtain ⟨mc', h⟩ : ∃ mc', doMemcachedUpdateServerlistWithMaster
        (Platform.ofMd5 fun _ _ => 0) Env.granted (listClient false ['b', 'c', 'a'])
        (listClient false ['b', 'a', 'd']) = .ok (.success, mc') := ⟨_, rfl⟩
    exact ⟨mc', h, (member_copies_master _ _ _ _ mc').1 (.inl rfl) (fun _ => rfl) h⟩
  · obtain ⟨mc', h⟩ : ∃ mc', doMemcachedUpdateRgrouplistWithMaster
        (Platform.ofMd5 fun _ _ => 0) Env.granted (groupClient ['a', 'b'])
        (groupClient ['b', 'c']) = .ok (.success, mc') := ⟨_, rfl⟩
    exact ⟨mc', h, (member_copies_master _ _ _ _ mc').2 (.inl rfl) h⟩

/-- A member that sorts its hosts ends up in another order than a master that does
not. -/
theorem member_sorts_differently : ∃ mc',
    doMemcachedUpdateServerlistWithMaster (Platform.ofMd5 fun _ _ => 0) Env.granted
        (listClient true []) (listClient false ['b', 'a']) = .ok (.success, mc') ∧
    mc'.servers.map Server.key ≠ (listClient false ['b', 'a']).servers.map Server.key :=
  ⟨_, rfl, by decide⟩

end ArcusClient
