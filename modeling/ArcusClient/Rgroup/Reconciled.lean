import ArcusClient.Rgroup.ClientSpec

/-!
# Reconciling the groups with a published list

Groups without a description should go, groups with an invalid one stay, and those with a valid one be
there with its servers (`Reconciled`).  The new groups are pushed only if a counter is not zero after
the comparison: the number of new groups minus the number of groups that were found faulty before they
had a master.  So new groups get lost when the two are the same (`rgrouplist_reconciled_iff`).
-/

namespace ArcusClient

open CString Outcome List RgroupInfo

abbrev Memcached.groupnames (mc : Memcached) : List CStr := mc.rgroups.map Rgroup.groupname

/-! ## What the call does -/

/-- A description is new when no group of the client has its name. -/
def newInfos (names : List CStr) (infos : List RgroupInfo) : List RgroupInfo :=
  infos.filter fun i => i.valid && decide (i.groupname ∉ names)

theorem filter_retire (names : List CStr) (infos : List RgroupInfo) :
    (infos.map (RgroupInfo.retire names)).filter RgroupInfo.valid = newInfos names infos := by
  rw [filter_map]
  have hp : valid ∘ retire names
      = fun i => i.valid && decide (i.groupname ∉ names) :=
    funext fun i => i.retire_valid names
  rw [hp]
  refine map_retire_eq_self fun i hi => ?_
  have := (mem_filter.1 hi).2
  simp only [Bool.and_eq_true, decide_eq_true_eq] at this
  exact this.2

/-- The groups after a call: the old ones that did not die, and new ones. -/
def UpdatedTo (lookup : CStr → Option RgroupInfo) (pushed : List RgroupInfo)
    (groups groups' : List Rgroup) : Prop :=
  ∃ (marked : Marked Rgroup) (new : List Rgroup), List.Forall₂ (Brought lookup) groups marked ∧
    List.Forall₂ Pushed pushed new ∧
    (groups'.map Rgroup.unplaced).Perm ((marked.alive ++ new).map Rgroup.unplaced)

/-- The new groups are pushed exactly when the counter is not zero. -/
def pushedInfos (names : List CStr) (serverinfo : List ServerInfo) : List RgroupInfo :=
  let infos := newInfos names (rgroupInfoCreate serverinfo).1
  if infos.length % 2 ^ 32 = faultyCount serverinfo % 2 ^ 32 then [] else infos

theorem finishRgrouplist_ends (P : Platform) (env : Env) (mc : Memcached) (m : GroupMatch) :
    Ends (fun e => e = .noServer → m.spare.objects.length + deadServers m.marked
        < validServers m.groupinfo) (fun r => r.2.2.flags = mc.flags ∧ ∃ new : List Rgroup,
        List.Forall₂ Pushed
          (if 0 < m.validcount then m.groupinfo.filter RgroupInfo.valid else []) new ∧
        (r.2.2.rgroups.map Rgroup.unplaced).Perm ((m.marked.alive ++ new).map Rgroup.unplaced))
      (finishRgrouplist P env mc m) := by
  obtain ⟨groups, spare, hp, ha, hs⟩ := rgroupPrune_spec mc m.marked m.spare
  rw [finishRgrouplist]
  by_cases hc : 0 < m.validcount
  · simp only [if_pos hc, hp, ends_map]
    refine (rgroupPushWithGroupinfo_ends P env _ m.groupinfo).imp (fun e he hn => ?_) ?_
    · rw [← hs]
      exact he hn
    · rintro r ⟨new, spare', hne, hd⟩
      refine ⟨hd.flags, new, hne, hd.rgroups.trans ?_⟩
      rw [map_append, map_append, ha]
  · simp only [if_neg hc]
    cases hde : m.marked.any Prod.snd with
    | true =>
      simp only [hde, if_true] at hp
      simp only [if_true, ends_map, hp]
      refine (runDistribution_ends P env _).imp (fun e he hn => absurd hn he) fun r hd => ?_
      refine ⟨hd.flags, [], .nil, hd.rgroups.trans ?_⟩
      rw [append_nil, ← ha]
    | false =>
      refine ⟨rfl, [], .nil, ?_⟩
      rw [append_nil, (Marked.any_dead_eq_false_iff _).1 hde]

def freeServers (mc : Memcached) (serverinfo : List ServerInfo) : Nat :=
  mc.spare.objects.length + ((serverinfo.length + 1) % 2 ^ 32 - mc.serverNtotal)

/-- There are objects for the updates in their order, and then for the new groups. -/
structure RoomFor (mc : Memcached) (serverinfo : List ServerInfo) : Prop where
  updates : MatchRoom (infoOf (rgroupInfoCreate serverinfo).1) (freeServers mc serverinfo) mc.rgroups
  pushes : validServers (rgroupInfoCreate serverinfo).1 ≤ freeServers mc serverinfo
    + movingServers (infoOf (rgroupInfoCreate serverinfo).1) mc.rgroups

theorem updatedTo_nil (groups : List Rgroup) : UpdatedTo (fun _ => none) [] groups [] := by
  refine ⟨groups.map (·, true), [], ?_, .nil, ?_⟩
  · rw [forall₂_map_right_iff, forall₂_same]
    exact fun g _ => .dead rfl
  · have ha : Marked.alive (groups.map (·, true)) = [] := by simp [Marked.alive]
    rw [ha]
    rfl

theorem updateRgrouplist_nil_ends (P : Platform) (env : Env) (mc : Memcached) :
    Ends (fun e => e ≠ .noServer) (fun r => r.2.2.flags = mc.flags ∧ r.2.2.rgroups = [])
      (doMemcachedUpdateRgrouplist P env mc []) := by
  rw [doMemcachedUpdateRgrouplist, if_pos (by rfl)]
  by_cases hn : mc.rgroups = []
  · rw [if_pos (by simp [hn])]
    exact ⟨rfl, hn⟩
  · rw [if_neg (by simp [hn]), ends_map]
    have hp : (rgroupPruneAll mc).rgroups = [] := by simp [rgroupPruneAll, hn]
    have hf : (rgroupPruneAll mc).flags = mc.flags := by simp [rgroupPruneAll, hn]
    refine (runDistribution_ends P env _).imp (fun _ he => he) fun r hd => ?_
    refine ⟨hd.flags.trans hf, ?_⟩
    have := hd.rgroups
    rwa [hp, map_nil, perm_nil, map_eq_nil_iff] at this

/-- The counter is positive exactly when the new groups outnumber, modulo its width,
those that were counted off twice. -/
theorem validcount_pos_iff :
    0 < UInt32.ofNat n + -UInt32.ofNat faulty ↔ ¬n % 2 ^ 32 = faulty % 2 ^ 32 := by
  rw [UInt32.pos_iff_ne_zero, not_iff_not]
  have : UInt32.ofNat n + -UInt32.ofNat faulty = 0 ↔ UInt32.ofNat n = UInt32.ofNat faulty := by
    grind
  rw [this, ← UInt32.toNat_inj, UInt32.toNat_ofNat', UInt32.toNat_ofNat']

/-- The groups after a call: those before it if there was no memory, or the updated
ones. -/
def CallResult (env : Env) (mc : Memcached) (serverinfo : List ServerInfo)
    (r : Bool × ReturnT × Memcached) : Prop :=
  r.2.2.flags = mc.flags ∧
    ((¬env.GrantsGroups ∧ r.2.1 = .memoryAllocationFailure ∧ r.2.2.rgroups = mc.rgroups) ∨
      UpdatedTo (infoOf (rgroupInfoCreate serverinfo).1) (pushedInfos mc.groupnames serverinfo)
        mc.rgroups r.2.2.rgroups)

theorem matched_ends (P : Platform) (env : Env) (hn : mc.groupnames.Nodup)
    (hf : spare.objects.length = freeServers mc serverinfo) :
    Ends (fun e => e = .noServer → ¬RoomFor mc serverinfo) (CallResult env mc serverinfo) (do
        let m ← matchRgroups mc.rgroups (rgroupInfoCreate serverinfo).1
          (rgroupInfoCreate serverinfo).2 spare
        finishRgrouplist P env { mc with spare := spare, serverNtotal := n, rgroupNtotal := n' } m) := by
  have hc : (rgroupInfoCreate serverinfo).2
      = UInt32.ofNat ((rgroupInfoCreate serverinfo).1.countP valid)
        + -UInt32.ofNat (faultyCount serverinfo) := by
    rw [rgroupInfoCreate_count]
    grind
  have hma := matchRgroups_ends (infoOf (rgroupInfoCreate serverinfo).1) _ mc.rgroups
    (rgroupInfoCreate serverinfo).1 _ spare hn (nodup_rgroupInfoCreate serverinfo)
    (fun _ _ => rfl) hc
  rw [hf] at hma
  refine hma.andThen (fun e he hno hr => he hno hr.updates) fun m hm => ?_
  have hg : m.groupinfo.filter valid
      = newInfos mc.groupnames (rgroupInfoCreate serverinfo).1 := by
    rw [hm.groupinfo, filter_retire]
  refine (finishRgrouplist_ends P env _ m).imp (fun e he hno hr => ?_) fun r => ?_
  · have := he hno
    have := hm.objects
    have := hr.pushes
    omega
  · rintro ⟨hfl, new, hne, hp⟩
    refine ⟨hfl, .inr ⟨m.marked, new, hm.marked, ?_, hp⟩⟩
    rw [hm.validcount, countP_eq_length_filter, hg] at hne
    rw [pushedInfos]
    simpa only [validcount_pos_iff, ite_not] using hne

/-- `do_memcached_update_rgrouplist`, for a client with distinct group names. -/
theorem updateRgrouplist_ends (P : Platform) (env : Env) (mc : Memcached)
    (serverinfo : List ServerInfo) (hn : mc.groupnames.Nodup) :
    Ends (fun e => e = .noServer → ¬RoomFor mc serverinfo) (CallResult env mc serverinfo)
      (doMemcachedUpdateRgrouplist P env mc serverinfo) := by
  cases serverinfo with
  | nil =>
    refine (updateRgrouplist_nil_ends P env mc).imp (fun e he hno => absurd hno he) fun r => ?_
    rintro ⟨hf, hg⟩
    refine ⟨hf, .inr ?_⟩
    rw [hg]
    exact updatedTo_nil mc.rgroups
  | cons entry rest =>
    rw [doMemcachedUpdateRgrouplist, if_neg (by simp)]
    split
    · rename_i hm
      exact ⟨rfl, .inl ⟨fun hgr => by simp [hgr.groupinfo] at hm, rfl, rfl⟩⟩
    · obtain ⟨spare, n, n', hex, hfr, hgr, -⟩ := rgroupExpand_spec env mc
        (rgroupInfoCreate (entry :: rest)).1.length (entry :: rest).length
      generalize hgro : rgroupExpand env mc _ _ = grown at hex hfr hgr
      obtain ⟨granted, mc₁⟩ := grown
      simp only [hgro]
      subst hex
      cases granted with
      | false => exact ⟨rfl, .inl ⟨fun h => Bool.false_ne_true (hgr h), rfl, rfl⟩⟩
      | true => exact matched_ends P env hn (hfr rfl)

/-! ## Reading the result -/

theorem forall₂_mem_right {α β : Type} {R : α → β → Prop} {l : List α} {l' : List β}
    (h : List.Forall₂ R l l') {b : β} (hb : b ∈ l') : ∃ a ∈ l, R a b := by
  induction h with
  | nil => cases hb
  | cons hr _ ih =>
    cases hb with
    | head => exact ⟨_, mem_cons_self, hr⟩
    | tail _ hb =>
      obtain ⟨a, ha, hab⟩ := ih hb
      exact ⟨a, mem_cons_of_mem _ ha, hab⟩

section Updated

variable {lookup : CStr → Option RgroupInfo} {pushed : List RgroupInfo}
  {groups groups' : List Rgroup}

theorem groupnames_alive {marked : Marked Rgroup}
    (h : List.Forall₂ (Brought lookup) groups marked) :
    marked.alive.map Rgroup.groupname
      = (groups.map Rgroup.groupname).filter fun n => (lookup n).isSome := by
  induction h with
  | nil => rfl
  | cons hb _ ih =>
    cases hb with
    | dead hn =>
      rw [map_cons, filter_cons_of_neg (by simp [hn]), ← ih]
      rfl
    | kept hs _ =>
      rw [map_cons, filter_cons_of_pos (by simp [hs]), ← ih]
      rfl
    | updated hs _ hna =>
      rw [map_cons, filter_cons_of_pos (by simp [hs]), ← ih, ← hna]
      rfl

theorem groupnames_pushed (h : List.Forall₂ Pushed pushed new) :
    new.map Rgroup.groupname = pushed.map RgroupInfo.groupname := by
  induction h with
  | nil => rfl
  | cons hp _ ih => rw [map_cons, map_cons, ih, hp.1]

theorem UpdatedTo.groupnames (h : UpdatedTo lookup pushed groups groups') :
    (groups'.map Rgroup.groupname).Perm
      ((groups.map Rgroup.groupname).filter (fun n => (lookup n).isSome)
        ++ pushed.map RgroupInfo.groupname) := by
  obtain ⟨marked, new, hm, hn, hp⟩ := h
  have := hp.map Rgroup.groupname
  rw [map_map, map_map, map_append] at this
  rw [← groupnames_alive hm, ← groupnames_pushed hn]
  exact this

theorem UpdatedTo.origin (h : UpdatedTo lookup pushed groups groups') {g' : Rgroup}
    (hg' : g' ∈ groups') :
    (∃ g ∈ groups, ∃ e, Brought lookup g (e, false) ∧ g'.unplaced = e.unplaced) ∨
      ∃ i ∈ pushed, Pushed i g' := by
  obtain ⟨marked, new, hm, hn, hp⟩ := h
  obtain ⟨e, he, heq⟩ := mem_map.1 (hp.mem_iff.1 (mem_map_of_mem hg'))
  rcases mem_append.1 he with he | he
  · obtain ⟨⟨e, dead⟩, hme, rfl⟩ := mem_map.1 he
    obtain ⟨hme, hd⟩ := mem_filter.1 hme
    obtain ⟨g, hg, hb⟩ := forall₂_mem_right hm hme
    simp only [Bool.not_eq_true'] at hd
    subst hd
    exact .inl ⟨g, hg, e, hb, heq.symm⟩
  · obtain ⟨i, hi, hna, hk⟩ := forall₂_mem_right hn he
    refine .inr ⟨i, hi, ?_, ?_⟩
    · rw [← g'.unplaced_groupname, ← heq, e.unplaced_groupname, hna]
    · rw [← g'.unplaced_keys, ← heq, e.unplaced_keys, hk]

end Updated

/-! ## Reconciliation -/

structure Reconciled (mc : Memcached) (serverinfo : List ServerInfo) (mc' : Memcached) : Prop where
  /-- The groups with a valid description, and old ones with an invalid one. -/
  names : ∀ n, n ∈ mc'.groupnames ↔
    (∃ i ∈ (rgroupInfoCreate serverinfo).1, i.valid = true ∧ i.groupname = n) ∨
      n ∈ mc.groupnames ∧ ∃ i ∈ (rgroupInfoCreate serverinfo).1, i.valid = false ∧ i.groupname = n
  nodup : mc'.groupnames.Nodup
  /-- A group with a valid description has its servers, the master first. -/
  updated : ∀ i ∈ (rgroupInfoCreate serverinfo).1, i.valid = true →
    ∀ g' ∈ mc'.rgroups, g'.groupname = i.groupname →
      g'.keys.head? = i.master.map ServerInfo.key ∧ g'.keys.Perm i.keys
  /-- A group with an invalid description keeps its server objects. -/
  kept : ∀ g ∈ mc.rgroups, ∀ i ∈ (rgroupInfoCreate serverinfo).1, i.groupname = g.groupname →
    i.valid = false → ∀ g' ∈ mc'.rgroups, g'.groupname = g.groupname →
      g'.replicas.map Replica.unplaced = g.replicas.map Replica.unplaced

/-- When a list can be applied: the names of its valid groups fit, and there are no
new groups or their number differs from that of the groups counted off twice. -/
structure Applicable (mc : Memcached) (serverinfo : List ServerInfo) : Prop where
  hostnames : ∀ i ∈ (rgroupInfoCreate serverinfo).1, i.valid = true →
    ∀ s ∈ i.replicas, isValidServername s.hostname = true
  counted : newInfos mc.groupnames (rgroupInfoCreate serverinfo).1 = [] ∨
    (newInfos mc.groupnames (rgroupInfoCreate serverinfo).1).length % 2 ^ 32
      ≠ faultyCount serverinfo % 2 ^ 32

theorem mem_newInfos :
    i ∈ newInfos names infos ↔ i ∈ infos ∧ i.valid = true ∧ i.groupname ∉ names := by
  rw [newInfos, mem_filter, Bool.and_eq_true, decide_eq_true_eq]

section Reconcile

variable {mc mc' : Memcached} {serverinfo : List ServerInfo}

theorem isSome_infoOf_iff : (infoOf infos n).isSome = true ↔ ∃ i ∈ infos, i.groupname = n := by
  rw [← Option.ne_none_iff_isSome, Ne, infoOf_eq_none_iff, not_not, mem_map]

theorem head?_keys_of_master {i : RgroupInfo} (h : i.master.isSome = true) :
    i.keys.head? = i.master.map ServerInfo.key := by
  obtain ⟨master, hm⟩ := Option.isSome_iff_exists.1 h
  simp [RgroupInfo.keys, replicas, hm]

theorem mem_groupnames_iff (hu : UpdatedTo (infoOf (rgroupInfoCreate serverinfo).1)
      (newInfos mc.groupnames (rgroupInfoCreate serverinfo).1) mc.rgroups mc'.rgroups) (n : CStr) :
    n ∈ mc'.groupnames ↔ (∃ i ∈ (rgroupInfoCreate serverinfo).1, i.valid = true ∧ i.groupname = n) ∨
        n ∈ mc.groupnames ∧
          ∃ i ∈ (rgroupInfoCreate serverinfo).1, i.valid = false ∧ i.groupname = n := by
  rw [hu.groupnames.mem_iff, mem_append, mem_filter, isSome_infoOf_iff]
  constructor
  · rintro (⟨hn, i, hi, hna⟩ | hne)
    · cases hv : i.valid with
      | true => exact .inl ⟨i, hi, hv, hna⟩
      | false => exact .inr ⟨hn, i, hi, hv, hna⟩
    · obtain ⟨i, hi, hna⟩ := mem_map.1 hne
      obtain ⟨hi, hv, -⟩ := mem_newInfos.1 hi
      exact .inl ⟨i, hi, hv, hna⟩
  · rintro (⟨i, hi, hv, hna⟩ | ⟨hn, i, hi, -, hna⟩)
    · by_cases hn : n ∈ mc.groupnames
      · exact .inl ⟨hn, i, hi, hna⟩
      · exact .inr (mem_map.2 ⟨i, mem_newInfos.2 ⟨hi, hv, hna ▸ hn⟩, hna⟩)
    · exact .inl ⟨hn, i, hi, hna⟩

theorem UpdatedTo.nodup_groupnames (hna : mc.groupnames.Nodup)
    (hs : pushed.Sublist (newInfos mc.groupnames (rgroupInfoCreate serverinfo).1))
    (hu : UpdatedTo (infoOf (rgroupInfoCreate serverinfo).1) pushed mc.rgroups mc'.rgroups) :
    mc'.groupnames.Nodup := by
  rw [hu.groupnames.nodup_iff]
  refine (hna.filter _).append ?_ ?_
  · refine (nodup_rgroupInfoCreate serverinfo).sublist (Sublist.map _ (hs.trans ?_))
    exact filter_sublist
  · intro n hn hne
    obtain ⟨i, hi, rfl⟩ := mem_map.1 hne
    exact (mem_newInfos.1 (hs.subset hi)).2.2 (mem_filter.1 hn).1

/-- When all new groups were pushed and the names fit, the groups are reconciled. -/
theorem reconciled_of_updatedTo (hn : mc.groupnames.Nodup)
    (hu : UpdatedTo (infoOf (rgroupInfoCreate serverinfo).1)
      (newInfos mc.groupnames (rgroupInfoCreate serverinfo).1) mc.rgroups mc'.rgroups)
    (hh : ∀ i ∈ (rgroupInfoCreate serverinfo).1, i.valid = true → ∀ a ∈ i.keys, a.valid = true) :
    Reconciled mc serverinfo mc' where
  names := mem_groupnames_iff hu
  nodup := hu.nodup_groupnames hn (Sublist.refl _)
  updated i hi hv g' hg' hnam := by
    have hin := nodup_rgroupInfoCreate serverinfo
    rw [← head?_keys_of_master (master_of_valid hi hv)]
    rcases hu.origin hg' with ⟨g, hg, e, hb, he⟩ | ⟨j, hj, hjn, hk⟩
    · have hn' : g'.groupname = e.groupname :=
        groupname_eq_of_unplaced_eq he
      have hk : g'.keys = e.keys := by rw [← g'.unplaced_keys, he, e.unplaced_keys]
      rw [hk]
      cases hb with
      | kept hj hjv =>
        have := (infoOf_eq_some_iff hin).2 ⟨hi, hnam.symm.trans hn'⟩
        rw [this] at hj
        cases hj
        rw [hv] at hjv
        cases hjv
      | updated hj hjv hen _ ha =>
        have := (infoOf_eq_some_iff hin).2 ⟨hi, (hnam.symm.trans hn').trans hen⟩
        rw [this] at hj
        cases hj
        exact ha (hh i hi hv)
    · obtain ⟨hj, -, -⟩ := mem_newInfos.1 hj
      have hij : i = j := inj_on_of_nodup_map hin hi hj (hnam.symm.trans hjn)
      subst hij
      rw [hk, goodAddrs, filter_eq_self.2 (hh i hi hv)]
      exact ⟨rfl, Perm.refl _⟩
  kept g hg i hi hnam hv g' hg' hn' := by
    have hin := nodup_rgroupInfoCreate serverinfo
    have hl := (infoOf_eq_some_iff hin).2 ⟨hi, hnam⟩
    rcases hu.origin hg' with ⟨g₀, hg₀, e, hb, he⟩ | ⟨j, hj, hjn, -⟩
    · have hen : g'.groupname = e.groupname :=
        groupname_eq_of_unplaced_eq he
      cases hb with
      | kept hj hjv =>
        rw [inj_on_of_nodup_map hn hg hg₀ (hn'.symm.trans hen)]
        exact congrArg Rgroup.replicas he
      | updated hj hjv hgn _ _ =>
        rw [← hgn, ← hen, hn', hl] at hj
        cases hj
        rw [hv] at hjv
        cases hjv
    · obtain ⟨hj, hjv, -⟩ := mem_newInfos.1 hj
      have hij : i = j :=
        inj_on_of_nodup_map hin hi hj (hnam.trans (hn'.symm.trans hjn))
      rw [hij, hjv] at hv
      cases hv

theorem Reconciled.applicable (h : Reconciled mc serverinfo mc')
    (hu : UpdatedTo (infoOf (rgroupInfoCreate serverinfo).1)
      (pushedInfos mc.groupnames serverinfo) mc.rgroups mc'.rgroups) :
    Applicable mc serverinfo where
  hostnames i hi hv s hs := by
    obtain ⟨g', hg', hn⟩ := mem_map.1 ((h.names i.groupname).2 (.inl ⟨i, hi, hv, rfl⟩))
    have hm : s.key ∈ g'.keys :=
      (h.updated i hi hv g' hg' hn).2.mem_iff.2 (mem_map_of_mem hs)
    obtain ⟨r, -, hr⟩ := mem_map.1 hm
    have := r.key_valid
    rw [hr] at this
    exact this
  counted := by
    by_contra hl
    rw [not_or, not_not] at hl
    rw [pushedInfos, if_pos hl.2] at hu
    obtain ⟨i, hi⟩ := exists_mem_of_ne_nil _ hl.1
    obtain ⟨hi, hv, hne⟩ := mem_newInfos.1 hi
    have hm := (h.names i.groupname).2 (.inl ⟨i, hi, hv, rfl⟩)
    rw [hu.groupnames.mem_iff, map_nil, append_nil] at hm
    exact hne (mem_filter.1 hm).1

theorem UpdatedTo.reconciled (hn : mc.groupnames.Nodup)
    (hu : UpdatedTo (infoOf (rgroupInfoCreate serverinfo).1)
      (pushedInfos mc.groupnames serverinfo) mc.rgroups mc'.rgroups)
    (hap : Applicable mc serverinfo) : Reconciled mc serverinfo mc' := by
  have hp : pushedInfos mc.groupnames serverinfo
      = newInfos mc.groupnames (rgroupInfoCreate serverinfo).1 := by
    rw [pushedInfos]
    split
    · rename_i he
      rcases hap.counted with hni | hne
      · rw [hni]
      · exact absurd he hne
    · rfl
  rw [hp] at hu
  refine reconciled_of_updatedTo hn hu fun i hi hv a ha => ?_
  obtain ⟨s, hs, rfl⟩ := mem_map.1 ha
  exact hap.hostnames i hi hv s hs

theorem pushedInfos_sublist (names : List CStr) (serverinfo : List ServerInfo) :
    (pushedInfos names serverinfo).Sublist (newInfos names (rgroupInfoCreate serverinfo).1) := by
  rw [pushedInfos]
  split
  · exact nil_sublist _
  · exact Sublist.refl _

theorem nodup_groupnames_of_call (hn : mc.groupnames.Nodup)
    (h : doMemcachedUpdateRgrouplist P env mc serverinfo = .ok (changed, rc, mc')) :
    mc'.groupnames.Nodup := by
  obtain ⟨-, ⟨-, -, hs⟩ | hu⟩ := (updateRgrouplist_ends P env mc serverinfo hn).of_eq_ok h
  · rwa [Memcached.groupnames, hs]
  · exact hu.nodup_groupnames hn (pushedInfos_sublist _ _)

end Reconcile

/-- The update of a client with distinct group names that returns success reconciles
its groups exactly when the list can be applied. -/
theorem rgrouplist_reconciled_iff (P : Platform) (env : Env) (mc mc' : Memcached)
    (serverinfo : List ServerInfo) (changed : Bool) (hnames : mc.groupnames.Nodup)
    (h : doMemcachedUpdateRgrouplist P env mc serverinfo = .ok (changed, .success, mc')) :
    Reconciled mc serverinfo mc' ↔ Applicable mc serverinfo := by
  obtain ⟨-, ⟨-, hr, -⟩ | hu⟩ := (updateRgrouplist_ends P env mc serverinfo hnames).of_eq_ok h
  · cases hr
  · exact ⟨fun hre => hre.applicable hu, fun ha => hu.reconciled hnames ha⟩

def replClient : Memcached := memcachedCreate .modula ⟨false, false, false, true⟩

def groupEntry (groupname hostname : Char) (master : Bool) : ServerInfo :=
  ⟨lit [groupname], lit [hostname], defaultPort, master, false⟩

/-- The groups are reconciled with a list of two groups. -/
theorem rgrouplist_reconciled_two_groups : ∃ mc',
    doMemcachedUpdateRgrouplist (Platform.ofMd5 fun _ _ => 0) Env.granted replClient
        [groupEntry 'G' 'a' true, groupEntry 'G' 'b' false, groupEntry 'H' 'c' true]
      = .ok (true, .success, mc') ∧ Reconciled replClient
      [groupEntry 'G' 'a' true, groupEntry 'G' 'b' false, groupEntry 'H' 'c' true] mc' :=
  ⟨_, rfl, (rgrouplist_reconciled_iff _ Env.granted replClient _ _ true (by decide) rfl).2
    ⟨by decide, .inr (by decide)⟩⟩

/-- A group of three slaves is counted off twice, and a new valid group in the same
list gets lost. -/
theorem new_group_lost : ∃ mc',
    doMemcachedUpdateRgrouplist (Platform.ofMd5 fun _ _ => 0) Env.granted replClient
        [groupEntry 'G' 'a' false, groupEntry 'G' 'b' false, groupEntry 'G' 'c' false,
          groupEntry 'H' 'd' true] = .ok (false, .success, mc') ∧ ¬Reconciled replClient
      [groupEntry 'G' 'a' false, groupEntry 'G' 'b' false, groupEntry 'G' 'c' false,
        groupEntry 'H' 'd' true] mc' := by
  refine ⟨_, rfl, fun h => ?_⟩
  have hm := (h.names (lit ['H'])).2 (by decide)
  revert hm
  decide

end ArcusClient
