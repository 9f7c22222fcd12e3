import ArcusClient.Pool.CacheList

/-!
# The client has the published list

`do_memcached_update_serverlist` removes the servers that found no entry, makes room for as many
servers as the list has, and appends the entries that no server found.  That there is room for them is
not checked: the servers that stay and the entries that are left make up the list
(`length_pruned_add_pending`).
-/

namespace ArcusClient

open CString Reconcile Outcome List

variable {mc : Memcached} {serverinfo : List ServerInfo}

/-! ## Room in the array -/

/-- The client after the servers that found no entry were removed, if there are any. -/
def prunedFor (mc : Memcached) (serverinfo : List ServerInfo) : Memcached :=
  let marked := (matchServers mc.servers serverinfo).1
  if marked.any Prod.snd then serverPrune mc marked else mc

/-- `pushServerinfo` in an array with room for `capacity` servers.  There is no result if a server
is written beyond its end. -/
def pushServerinfoWithin (capacity : Nat) (mc : Memcached) :
    List ServerInfo → Option (ReturnT × Memcached)
  | [] => some (.success, mc)
  | info :: rest =>
    if info.exist then pushServerinfoWithin capacity mc rest
    else if h : isValidServername info.hostname = true then
      if mc.servers.length < capacity then
        pushServerinfoWithin capacity
          (appendServer mc (serverInit ⟨info.hostname, h⟩ info.port 0 (infoType info.port))) rest
      else none
    else some (.invalidArguments, mc)

theorem pushServerinfoWithin_eq : ∀ {serverinfo : List ServerInfo} {mc : Memcached},
    mc.servers.length + (pendingInfo serverinfo).length ≤ capacity →
      pushServerinfoWithin capacity mc serverinfo = some (pushServerinfo mc serverinfo)
  | [], mc, _ => rfl
  | info :: rest, mc, hr => by
    rw [pushServerinfoWithin, pushServerinfo]
    cases he : info.exist with
    | true =>
      rw [pendingInfo, pending_cons_of_taken he] at hr
      simpa using pushServerinfoWithin_eq hr
    | false =>
      rw [pendingInfo, pending_cons_of_free he, length_cons] at hr
      by_cases hv : isValidServername info.hostname = true
      · have hr' : (appendServer mc (serverInit ⟨info.hostname, hv⟩ info.port 0
            (infoType info.port))).servers.length + (pendingInfo rest).length ≤ capacity := by
          rw [pendingInfo, appendServer, length_append, length_singleton]
          omega
        simp only [Bool.false_eq_true, if_false, dif_pos hv]
        rw [if_pos (by omega)]
        exact pushServerinfoWithin_eq hr'
      · simp [hv]

theorem prunedFor_spec (mc : Memcached) (serverinfo : List ServerInfo) :
    (prunedFor mc serverinfo).flags = mc.flags ∧ (prunedFor mc serverinfo).servers.map Server.core =
        (survivors Server.key mc.servers (pendingInfo serverinfo)).map Server.core := by
  obtain ⟨ha, hal, -, -⟩ := matchServers_spec mc.servers serverinfo
  rw [prunedFor]
  cases hd : (matchServers mc.servers serverinfo).1.any Prod.snd with
  | true =>
    rw [if_pos rfl, map_core_serverPrune, ha]
    exact ⟨rfl, rfl⟩
  | false =>
    rw [Marked.any_dead_eq_false_iff, ha, hal] at hd
    rw [hd]
    exact ⟨rfl, rfl⟩

theorem length_pruned_add_pending (mc : Memcached) (hf : ∀ i ∈ serverinfo, i.exist = false) :
    (prunedFor mc serverinfo).servers.length +
      (pendingInfo (matchServers mc.servers serverinfo).2.1).length = serverinfo.length := by
  obtain ⟨-, -, hp, -⟩ := matchServers_spec mc.servers serverinfo
  have hpe := survivors_append_diff_perm Server.key mc.servers (pendingInfo serverinfo)
  have hl := hpe.length_eq
  rw [length_append, length_map, ← hp, pendingInfo_of_fresh hf, length_map] at hl
  have hc := congrArg length (prunedFor_spec mc serverinfo).2
  rw [length_map, length_map, pendingInfo_of_fresh hf] at hc
  rw [hc, hl]

/-! ## The update -/

/-- A push that succeeds appends the addresses that are not marked, in their order. -/
theorem serverPushWithServerinfo_appends (P : Platform) (env : Env) (mc : Memcached)
    (hn : serverinfo ≠ []) : Ends (fun _ => True)
      (fun r => r.1 = .success → ∃ mc₁, mc₁.flags = mc.flags ∧ mc₁.servers.map Server.core =
          (mc.servers ++ acceptAddrs (pendingInfo serverinfo)).map Server.core ∧
        allValid (pendingInfo serverinfo) = true ∧ Distributed mc₁ r.2)
      (serverPushWithServerinfo P env mc serverinfo) := by
  rw [serverPushWithServerinfo, if_neg (by simp [hn])]
  split
  · simp
  split
  · simp
  rw [pushServerinfo_eq]
  cases hv : allValid (pendingInfo serverinfo) with
  | false => simp [finishPush]
  | true =>
    rw [if_pos rfl, appendServers_eq]
    refine (runDistribution_ends P env _).imp (fun _ _ => trivial) fun r hd _ => ?_
    refine ⟨_, ?_, ?_, rfl, hd⟩
    · rfl
    · exact map_core_setCount _

/-- What an update that succeeds does: the servers that found an entry stay, and the entries that
no server found are appended.  The flag tells if the array differs from the list. -/
theorem updateServerlist_reconciles (P : Platform) (env : Env) (mc : Memcached)
    (hf : ∀ i ∈ serverinfo, i.exist = false) : Ends (fun _ => True) (fun r => r.2.1 = .success →
        (r.1 = true ↔ ¬ (mc.servers.map Server.key).Perm (serverinfo.map ServerInfo.key)) ∧
        ∃ mc₁ added, mc₁.flags = mc.flags ∧ mc₁.servers.map Server.core =
            (survivors Server.key mc.servers (serverinfo.map ServerInfo.key) ++ added).map Server.core ∧
          added.map Server.key = (serverinfo.map ServerInfo.key).diff (mc.servers.map Server.key) ∧
          Distributed mc₁ r.2.2) (doMemcachedUpdateServerlist P env mc serverinfo) := by
  have hp := pendingInfo_of_fresh hf
  have hs := reconciled_iff_perm Server.key mc.servers (serverinfo.map ServerInfo.key)
  rw [doMemcachedUpdateServerlist]
  by_cases hn : serverinfo = []
  · subst hn
    rw [if_pos isEmpty_nil, map_nil, survivors_nil, nil_diff]
    by_cases hm : mc.servers = []
    · rw [if_pos (by simp [hm])]
      refine fun _ => ⟨by simp [hm], mc, [], rfl, by simp [hm], rfl, .ring mc mc.ketama⟩
    · rw [if_neg (by simp [hm]), ends_map]
      refine (runDistribution_ends P env _).imp (fun _ _ => trivial) fun r hd _ => ?_
      exact ⟨by simpa using hm, serverPruneAll mc, [], rfl, rfl, rfl, hd⟩
  · rw [if_neg (by simp [hn])]
    obtain ⟨ha, hall, hpen, hfo⟩ := matchServers_spec mc.servers serverinfo
    obtain ⟨hfl, hc⟩ := prunedFor_spec mc serverinfo
    have hl := length_pruned_add_pending mc hf
    have hr := length_matchServers mc.servers serverinfo
    have hk := congrArg length hc
    have hde := (matchServers mc.servers serverinfo).1.any_dead_eq_false_iff
    rw [length_map, length_map] at hk
    rw [hp] at hc hpen ha
    rw [ha, hall] at hde
    rw [← hpen] at hs ⊢
    rw [prunedFor] at hfl hc hl hk
    generalize matchServers mc.servers serverinfo = matched at *
    obtain ⟨marked, serverinfo', found⟩ := matched
    simp only at hall hfo hfl hc hl hr hk hde hs ⊢
    by_cases hcou : 0 < serverinfo.length - found
    · -- some entry found no server
      rw [if_pos hcou, ends_map]
      have hne : serverinfo' ≠ [] := by
        rintro rfl
        exact hn (length_eq_zero_iff.1 hr.symm)
      refine (serverPushWithServerinfo_appends P env _ hne).imp (fun _ _ => trivial) ?_
      intro r hpu ho
      obtain ⟨mc₁, hf₁, hc₁, hv, hd⟩ := hpu ho
      refine ⟨iff_of_true rfl fun hper => ?_, mc₁, acceptAddrs (pendingInfo serverinfo'),
        hf₁.trans hfl, ?_, map_key_acceptAddrs hv, hd⟩
      · have hno := congrArg length (hs.2 hper).2
        rw [length_nil] at hno
        omega
      · rw [hc₁, map_append, hc, map_append]
    · have hno : pendingInfo serverinfo' = [] := length_eq_zero_iff.1 (by omega)
      rw [if_neg hcou]
      rw [hno] at hs ⊢
      cases han : marked.any Prod.snd with
      | true =>
        rw [han] at hc hfl
        rw [if_pos rfl, ends_map]
        refine (runDistribution_ends P env _).imp (fun _ _ => trivial) fun r hd _ => ?_
        refine ⟨iff_of_true rfl fun hper => ?_, _, [], hfl, ?_, rfl, hd⟩
        · rw [hde.2 (hs.2 hper).1] at han
          cases han
        · rw [append_nil, hc]
      | false =>
        rw [han, if_neg Bool.false_ne_true] at hc
        refine fun _ => ⟨iff_of_false Bool.false_ne_true (not_not.2 (hs.1 ⟨hde.1 han, rfl⟩)),
          mc, [], rfl, ?_, rfl, .ring mc mc.ketama⟩
        rw [append_nil, hc]

theorem updateServerlist_same (hf : ∀ i ∈ serverinfo, i.exist = false)
    (hk : (mc.servers.map Server.key).Perm (serverinfo.map ServerInfo.key)) :
    doMemcachedUpdateServerlist P env mc serverinfo = .ok (false, .success, mc) := by
  rw [doMemcachedUpdateServerlist]
  by_cases hn : serverinfo = []
  · subst hn
    have hm : mc.servers = [] := map_eq_nil_iff.1 hk.eq_nil
    rw [if_pos isEmpty_nil, if_pos (by simp [hm])]
  · rw [if_neg (by simp [hn])]
    obtain ⟨hke, -⟩ := (reconciled_iff_perm Server.key mc.servers _).2 hk
    obtain ⟨ha, hal, -, hfo⟩ := matchServers_spec mc.servers serverinfo
    have hd := (matchServers mc.servers serverinfo).1.any_dead_eq_false_iff
    have hl := hk.length_eq
    rw [pendingInfo_of_fresh hf, hke] at ha hfo
    rw [ha, hal] at hd
    rw [length_map, length_map] at hl
    simp only [hfo, hl, Nat.sub_self, lt_irrefl, if_false, hd.2, Bool.false_eq_true]

structure HasPublished (mc mc' : Memcached) (serverinfo : List ServerInfo) : Prop where
  keys : (mc'.servers.map Server.key).Perm (serverinfo.map ServerInfo.key)
  /-- Without sorting, the servers that stay keep their order, and the new ones come after them in
  the order of the list. -/
  order : mc.flags.useSortHosts = false → ∃ kept added : List Server, kept.Sublist mc.servers ∧
    mc'.servers.map Server.core = (kept ++ added).map Server.core ∧
    added.map Server.key = (serverinfo.map ServerInfo.key).diff (mc.servers.map Server.key)
  count : mc'.numberOfHosts = serverinfo.length

/-- When an update succeeds, the client has exactly the published servers, and the flag says
whether it had others before.  The servers are written in the room for them in any case.  The same
list changes nothing when it is applied again. -/
theorem update_serverlist_publishes {P : Platform} {env : Env} {mc' : Memcached} {changed : Bool}
    (hrepl : mc.flags.replEnabled = false) (hfresh : ∀ i ∈ serverinfo, i.exist = false)
    (hcall : doMemcachedUpdateServerlist P env mc serverinfo = .ok (changed, .success, mc')) :
    HasPublished mc mc' serverinfo ∧
      pushServerinfoWithin serverinfo.length (prunedFor mc serverinfo)
          (matchServers mc.servers serverinfo).2.1 =
        some (pushServerinfo (prunedFor mc serverinfo) (matchServers mc.servers serverinfo).2.1) ∧
      (changed = true ↔ ¬ (mc.servers.map Server.key).Perm (serverinfo.map ServerInfo.key)) ∧
      ∀ env', doMemcachedUpdateServerlist P env' mc' serverinfo = .ok (false, .success, mc') := by
  obtain ⟨hc, mc₁, added, hf, hco, ha, hd⟩ :=
    (updateServerlist_reconciles P env mc hfresh).of_eq_ok hcall rfl
  have hk : (mc'.servers.map Server.key).Perm (serverinfo.map ServerInfo.key) := by
    refine hd.keys_perm.trans ?_
    rw [map_eq_of_map_core_eq Server.core_key hco, map_append, ha]
    exact survivors_append_diff_perm Server.key mc.servers _
  refine ⟨⟨hk, ?_, ?_⟩, ?_, hc, fun env' => updateServerlist_same hfresh hk⟩
  · intro hs
    refine ⟨survivors Server.key mc.servers (serverinfo.map ServerInfo.key), added,
      survivors_sublist .., ?_, ha⟩
    rw [hd.servers_eq (.inl (hf ▸ hs)), hco]
  · have hl := hk.length_eq
    rw [length_map, length_map] at hl
    rw [Memcached.numberOfHosts, hd.flags, hf, hrepl]
    exact hl
  · exact pushServerinfoWithin_eq (length_pruned_add_pending _ hfresh).le

def publishedNames (names : List Char) : List ServerInfo :=
  names.map fun c => ⟨[], lit [c], defaultPort, false, false⟩

/-- One of two equal servers stays, one server leaves and two are new. -/
theorem update_serverlist_publishes_four :
    ∃ mc', doMemcachedUpdateServerlist (Platform.ofMd5 fun _ _ => 0) Env.granted
        (listClient false ['a', 'b', 'a', 'c']) (publishedNames ['d', 'c', 'e', 'a']) =
      .ok (true, .success, mc') ∧ HasPublished (listClient false ['a', 'b', 'a', 'c']) mc'
        (publishedNames ['d', 'c', 'e', 'a']) := by
  obtain ⟨mc', h⟩ : ∃ mc', doMemcachedUpdateServerlist (Platform.ofMd5 fun _ _ => 0) Env.granted
      (listClient false ['a', 'b', 'a', 'c']) (publishedNames ['d', 'c', 'e', 'a']) =
        .ok (true, .success, mc') := ⟨_, rfl⟩
  exact ⟨mc', h, (update_serverlist_publishes rfl (by decide) h).1⟩

end ArcusClient
