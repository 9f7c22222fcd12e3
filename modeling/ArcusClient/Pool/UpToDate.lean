import ArcusClient.Pool.Conservation

/-!
# Fetched members are up to date

Setting a behavior raises the master's `version`, a new cache list raises `ketama_version`, and a new
generation of clones raises both.  A member is *current* if its versions are those of the master.

Members at rest in the list and in the array are current.  A member in a backup, or in transit, has the
right `version`, since no call can set a behavior while the backups are in use.  Its `ketama_version`
can be old, but it is updated on its way out (`fetched_up_to_date`).  Here clones and updates of members
succeed.  Setting a behavior may fail.
-/

namespace ArcusClient.PoolSt

open List

variable {s s' : PoolSt} {lock : MasterLock} {mc : Member}

def Current (s : PoolSt) (mc : Member) : Prop :=
  mc.version = s.version ∧ mc.ketamaVersion = s.ketamaVersion

/-- Members at rest are current, and those in the backups are current but for the cache
list. -/
structure Level (lock : MasterLock) (s : PoolSt) : Prop where
  usedMc : ∀ mc ∈ s.usedMc, s.Current mc
  mcPool : ∀ mc ∈ s.mcPool, s.Current mc
  usedBk : ∀ mc ∈ s.usedBk, mc.version = s.version
  bkPool : ∀ mc ∈ s.bkPool, mc.version = s.version
  backups : s.BackupsIn lock

structure SameMaster (s s' : PoolSt) : Prop where
  version : s'.version = s.version
  ketamaVersion : s'.ketamaVersion = s.ketamaVersion
  usedBk : s'.usedBk = s.usedBk
  bkPool : s'.bkPool = s.bkPool

theorem SameMaster.refl (s : PoolSt) : SameMaster s s := ⟨rfl, rfl, rfl, rfl⟩

theorem SameMaster.current_iff (h : SameMaster s s') : s'.Current mc ↔ s.Current mc := by
  rw [Current, Current, h.version, h.ketamaVersion]

/-- A state with the same master is level if its members at rest are current. -/
theorem SameMaster.level (h : SameMaster s s') (hs : Level lock s)
    (hu : ∀ mc ∈ s'.usedMc, s.Current mc) (hp : ∀ mc ∈ s'.mcPool, s.Current mc) :
    Level lock s' where
  usedMc mc hm := h.current_iff.2 (hu mc hm)
  mcPool mc hm := h.current_iff.2 (hp mc hm)
  usedBk := by rw [h.usedBk, h.version]; exact hs.usedBk
  bkPool := by rw [h.bkPool, h.version]; exact hs.bkPool
  backups := hs.backups.mono h.usedBk.trans h.bkPool.trans

/-! ## Single members -/

theorem memberUpdateCachelist_current (hm : mc.version = s.version) :
    s.Current (s.memberUpdateCachelist true mc) := ⟨hm, rfl⟩

theorem growPool_level (hs : Level lock s) : Level lock s.growPool := by
  refine SameMaster.level (s := s) ⟨rfl, rfl, rfl, rfl⟩ hs hs.usedMc ?_
  intro mc hm
  cases hm with
  | head => exact ⟨rfl, rfl⟩
  | tail _ hm => exact hs.mcPool mc hm

theorem growTimes_level (clone : Nat → Bool) (hs : Level lock s) :
    Level lock (growTimes clone n s) :=
  growTimes_induction (P := Level lock) (fun _ => growPool_level) clone n hs

/-! ## The containers -/

theorem Level.subset (hs : Level lock s) (hv : s'.version = s.version)
    (hk : s'.ketamaVersion = s.ketamaVersion) (hu : s'.usedMc ⊆ s.usedMc)
    (hm : s'.mcPool ⊆ s.mcPool) (hus : s'.usedBk ⊆ s.usedBk)
    (hb : s'.bkPool ⊆ s.bkPool) : Level lock s' where
  usedMc mc hmc := by
    rw [Current, hv, hk]
    exact hs.usedMc mc (hu hmc)
  mcPool mc hmc := by
    rw [Current, hv, hk]
    exact hs.mcPool mc (hm hmc)
  usedBk mc hmc := (hs.usedBk mc (hus hmc)).trans hv.symm
  bkPool mc hmc := (hs.bkPool mc (hb hmc)).trans hv.symm
  backups := hs.backups.mono (fun h => subset_nil.1 (h ▸ hus))
    fun h => subset_nil.1 (h ▸ hb)

theorem Takes.level (ht : Takes s true r s') (hs : Level lock s) :
    Level lock s' ∧ ∀ mc, r = some mc → s'.Current mc := by
  cases ht with
  | usedBk he =>
    refine ⟨hs.subset rfl rfl (Subset.refl _) (Subset.refl _) (he ▸ subset_cons_self ..)
      (Subset.refl _), ?_⟩
    rintro _ ⟨⟩
    exact memberUpdateCachelist_current (hs.usedBk _ (he ▸ mem_cons_self))
  | usedMc _ he =>
    refine ⟨hs.subset rfl rfl (he ▸ subset_cons_self ..) (Subset.refl _) (Subset.refl _)
      (Subset.refl _), ?_⟩
    rintro _ ⟨⟩
    exact hs.usedMc _ (he ▸ mem_cons_self)
  | bkPool _ _ he =>
    refine ⟨hs.subset rfl rfl (Subset.refl _) (Subset.refl _) (Subset.refl _)
      (he ▸ subset_cons_self ..), ?_⟩
    rintro _ ⟨⟩
    exact memberUpdateCachelist_current (hs.bkPool _ (he ▸ mem_cons_self))
  | mcPool _ _ he =>
    refine ⟨hs.subset rfl rfl (Subset.refl _) (he ▸ subset_cons_self ..) (Subset.refl _)
      (Subset.refl _), ?_⟩
    rintro _ ⟨⟩
    exact hs.mcPool _ (he ▸ mem_cons_self)
  | nothing => exact ⟨hs, by rintro _ ⟨⟩⟩

theorem Fetches.level (hf : Fetches s true (.fetched mc) s') (hs : Level lock s) :
    Level lock s' ∧ s'.Current mc := by
  cases hf with
  | taken ht => exact (ht.level hs).imp_right fun hc => hc mc rfl
  | grown _ _ _ ht => exact (ht.level (growPool_level hs)).imp_right fun hc => hc mc rfl
  | refused hno => exact absurd rfl (hno mc)

theorem mcListAddHead_level (hs : Level lock s) (hmc : s.Current mc) :
    Level lock (s.mcListAddHead mc) := by
  refine SameMaster.level (s := s) ⟨rfl, rfl, rfl, rfl⟩ hs ?_ hs.mcPool
  intro m hm
  cases hm with
  | head => exact hmc
  | tail _ hm => exact hs.usedMc m hm

theorem linkAfter_subset (tail : Nat) (mc : Member) : ∀ ms : List Member,
    linkAfter tail mc ms ⊆ mc :: ms
  | [] => nil_subset _
  | m :: rest => by
    rw [linkAfter]
    split
    · simp
    · have hr := linkAfter_subset tail mc rest
      intro x hx
      cases hx with
      | head => simp
      | tail _ hx =>
        rcases mem_cons.1 (hr hx) with rfl | hx
        · exact mem_cons_self
        · exact mem_cons_of_mem _ (mem_cons_of_mem _ hx)

theorem mcListAddTail_level (hs : Level lock s) (hmc : s.Current mc) :
    Level lock (s.mcListAddTail mc) := by
  have hsu : (s.mcListAddTail mc).usedMc ⊆ mc :: s.usedMc := by
    rw [mcListAddTail]
    cases s.usedMcTail with
    | none => exact cons_subset_cons _ (nil_subset _)
    | some tail => exact linkAfter_subset tail mc s.usedMc
  refine SameMaster.level (s := s) ⟨rfl, rfl, rfl, rfl⟩ hs ?_ hs.mcPool
  intro m hm
  rcases mem_cons.1 (hsu hm) with rfl | hm
  · exact hmc
  · exact hs.usedMc m hm

theorem mcPoolAdd_level (hs : Level lock s) (hmc : s.Current mc) : Level lock (s.mcPoolAdd mc) := by
  refine SameMaster.level (s := s) ⟨rfl, rfl, rfl, rfl⟩ hs hs.usedMc ?_
  intro m hm
  cases hm with
  | head => exact hmc
  | tail _ hm => exact hs.mcPool m hm

/-! ## The loops -/

/-- The loop over the array does not touch the list of used members, either. -/
structure SameMasterAndUsed (s s' : PoolSt) : Prop extends SameMaster s s' where
  usedMc : s'.usedMc = s.usedMc

theorem SameMasterAndUsed.replaceMember (h : SameMasterAndUsed s₀ s) (mc : Member) :
    s₀.Current (s.replaceMember true mc).1 ∧ SameMasterAndUsed s₀ (s.replaceMember true mc).2 :=
  ⟨⟨h.version, h.ketamaVersion⟩, ⟨⟨h.version, h.ketamaVersion, h.usedBk, h.bkPool⟩, h.usedMc⟩⟩

section Loop

variable {body : PoolSt → Nat → Member → Member × PoolSt} {Q : Member → Prop} {s₀ : PoolSt}

theorem forMembers_current (hb : ∀ s xx mc, SameMasterAndUsed s₀ s → Q mc →
      s₀.Current (body s xx mc).1 ∧ SameMasterAndUsed s₀ (body s xx mc).2) :
    ∀ {ms : List Member} {s : PoolSt}, SameMasterAndUsed s₀ s → (∀ mc ∈ ms, Q mc) →
      (∀ mc ∈ (forMembers body ms s).1, s₀.Current mc) ∧
        SameMasterAndUsed s₀ (forMembers body ms s).2
  | [], _, hs, _ => ⟨forall_mem_nil _, hs⟩
  | mc :: below, s, hs, hQ => by
    obtain ⟨hbe, hr⟩ := forMembers_current hb hs fun m hm => hQ m (.tail _ hm)
    rw [forMembers]
    generalize forMembers body below s = r at hbe hr ⊢
    obtain ⟨below', s'⟩ := r
    obtain ⟨hc, hsa⟩ := hb s' below'.length mc hr (hQ mc (.head _))
    refine ⟨?_, hsa⟩
    intro m hm
    cases hm with
    | head => exact hc
    | tail _ hm => exact hbe m hm

theorem updateMembers_current (hb : ∀ s xx mc, SameMasterAndUsed s₀ s → Q mc →
      s₀.Current (body s xx mc).1 ∧ SameMasterAndUsed s₀ (body s xx mc).2)
    (hQ : ∀ mc ∈ s₀.mcPool, Q mc) : (∀ mc ∈ (s₀.updateMembers body).mcPool, s₀.Current mc) ∧
      SameMasterAndUsed s₀ (s₀.updateMembers body) := by
  have hs : SameMasterAndUsed s₀ { s₀ with mcPool := [] } := ⟨⟨rfl, rfl, rfl, rfl⟩, rfl⟩
  obtain ⟨hc, hsa⟩ := forMembers_current hb hs hQ
  exact ⟨hc, ⟨⟨hsa.version, hsa.ketamaVersion, hsa.usedBk, hsa.bkPool⟩, hsa.usedMc⟩⟩

end Loop

theorem removeMembers_same : ∀ {ms : List Member} {s : PoolSt}, s.usedMc = ms →
    SameMaster s (removeMembers ms s) ∧ (removeMembers ms s).usedMc = [] ∧
      (removeMembers ms s).mcPool = s.mcPool
  | [], s, hm => ⟨SameMaster.refl s, hm, rfl⟩
  | mc :: rest, s, _ => by
    obtain ⟨hs, hn, hp⟩ := removeMembers_same (show
      ({ s with usedMc := rest, curSize := s.curSize - 1 }.memcachedFree mc).usedMc = rest from rfl)
    exact ⟨⟨hs.version, hs.ketamaVersion, hs.usedBk, hs.bkPool⟩, hn, hp⟩

theorem behaviorSetList_current (set : Member → Bool) : ∀ {kept ms : List Member} {s : PoolSt},
    (∀ mc ∈ kept, s.Current mc) → (∀ mc ∈ ms, mc.ketamaVersion = s.ketamaVersion) →
    (∀ mc ∈ (behaviorSetList set kept ms s).2.usedMc, s.Current mc) ∧
      SameMaster s (behaviorSetList set kept ms s).2 ∧
      (behaviorSetList set kept ms s).2.mcPool = s.mcPool
  | kept, [], s, hk, _ => ⟨hk, ⟨rfl, rfl, rfl, rfl⟩, rfl⟩
  | kept, mc :: rest, s, hk, hms => by
    have hr : ∀ m ∈ rest, m.ketamaVersion = s.ketamaVersion := fun m hm => hms m (.tail _ hm)
    rw [behaviorSetList]
    split
    · refine behaviorSetList_current set ?_ hr
      intro m hm
      rcases mem_append.1 hm with hm | hm
      · exact hk m hm
      · rw [mem_singleton.1 hm]
        exact ⟨rfl, hms mc (.head _)⟩
    · obtain ⟨hc, hs, hp⟩ := behaviorSetList_current set (s := { s with
        usedMcTail := if kept.isEmpty && rest.isEmpty then none else s.usedMcTail
        curSize := s.curSize - 1 }.memcachedFree mc) hk hr
      exact ⟨hc, ⟨hs.version, hs.ketamaVersion, hs.usedBk, hs.bkPool⟩, hp⟩

/-! ## The calls -/

/-- Without backups in use, it is enough to look at the members at rest. -/
theorem Level.of_entered (hb : s.BackupsIn .entered) (hu : ∀ mc ∈ s.usedMc, s.Current mc)
    (hp : ∀ mc ∈ s.mcPool, s.Current mc) : Level .entered s where
  usedMc := hu
  mcPool := hp
  usedBk := hb.1 ▸ forall_mem_nil _
  bkPool := hb.2 ▸ forall_mem_nil _
  backups := hb

theorem mcListRemoveAll_level (hb : s.BackupsIn .entered)
    (hp : ∀ mc ∈ s.mcPool, s.Current mc) : Level .entered s.mcListRemoveAll.2 := by
  obtain ⟨hs, hn, hr⟩ := removeMembers_same (s := s) rfl
  refine Level.of_entered (hb.mono hs.usedBk.trans hs.bkPool.trans) ?_ ?_
  · rw [show s.mcListRemoveAll.2.usedMc = [] from hn]
    exact forall_mem_nil _
  · intro mc hm
    rw [show s.mcListRemoveAll.2.mcPool = s.mcPool from hr] at hm
    exact hs.current_iff.2 (hp mc hm)

theorem mcListBehaviorSet_level (set : Member → Bool) (hb : s.BackupsIn .entered)
    (hu : ∀ mc ∈ s.usedMc, mc.ketamaVersion = s.ketamaVersion)
    (hp : ∀ mc ∈ s.mcPool, s.Current mc) : Level .entered (s.mcListBehaviorSet set).2 := by
  obtain ⟨hc, hs, hr⟩ :=
    behaviorSetList_current set (s := { s with usedMc := [] }) (forall_mem_nil _) hu
  refine Level.of_entered (hb.mono hs.usedBk.trans hs.bkPool.trans) ?_ ?_
  · intro mc hm
    exact hs.current_iff.2 (hc mc hm)
  · intro mc hm
    rw [show (s.mcListBehaviorSet set).2.mcPool = s.mcPool from hr] at hm
    exact hs.current_iff.2 (hp mc hm)

theorem repopulate_level {clone : Nat → Bool} (hc : ∀ xx, clone xx = true) (grow : Nat → Bool)
    (hb : s.BackupsIn .entered) : Level .entered (s.repopulate clone grow) := by
  have hl (s₀ : PoolSt) := updateMembers_current (Q := fun _ => True)
    (fun s xx mc (h : SameMasterAndUsed s₀ s) _ => hc xx ▸ h.replaceMember mc)
    fun _ _ => trivial
  obtain ⟨hcu, hs⟩ :=
    hl { s with ketamaVersion := s.ketamaVersion + 1, version := s.version + 1 }
  refine growTimes_level grow (mcListRemoveAll_level ?_ ?_)
  · exact hb.mono hs.usedBk.trans hs.bkPool.trans
  · intro mc hm
    exact hs.current_iff.2 (hcu mc hm)

structure UpToDate (s : PoolSt) : Prop where
  level : Level s.masterLock s
  transit : ∀ mc ∈ s.masterLock.transit, mc.version = s.version

/-- The holder of the lock goes on, with the member that it takes. -/
theorem Level.goOn (hs : Level lock s) (lock' : MasterLock) (hb : s.BackupsIn lock')
    (ht : ∀ mc ∈ lock'.transit, mc.version = s.version) :
    UpToDate { s with masterLock := lock' } where
  level := ⟨hs.usedMc, hs.mcPool, hs.usedBk, hs.bkPool, hb.mono id id⟩
  transit := ht

theorem Level.leave (hs : Level .entered s) : UpToDate { s with masterLock := .leaving } :=
  hs.goOn .leaving hs.backups (forall_mem_nil _)

theorem behaviorSet_upToDate (master : Bool) (set : Member → Bool) {clone : Nat → Bool}
    (hc : ∀ xx, clone xx = true) (grow : Nat → Bool) (hs : Level .entered s) :
    UpToDate (s.behaviorSet master set clone grow) := by
  cases master with
  | false => exact hs.goOn .leaked hs.backups (forall_mem_nil _)
  | true =>
    have hb (s₀ s : PoolSt) (xx : Nat) (mc : Member) (h : SameMasterAndUsed s₀ s)
        (hm : mc.ketamaVersion = s₀.ketamaVersion) :
        s₀.Current (if set mc then ({ mc with version := s.version }, s)
          else s.replaceMember (clone xx) mc).1 ∧
        SameMasterAndUsed s₀ (if set mc then ({ mc with version := s.version }, s)
          else s.replaceMember (clone xx) mc).2 := by
      split
      · exact ⟨⟨h.version, hm⟩, h⟩
      · rw [hc]
        exact h.replaceMember mc
    obtain ⟨hp, hsa⟩ := updateMembers_current (hb { s with version := s.version + 1 })
      fun mc hm => (hs.mcPool mc hm).2
    refine (growTimes_level grow (mcListBehaviorSet_level set ?_ ?_ ?_)).leave
    · exact hs.backups.mono hsa.usedBk.trans hsa.bkPool.trans
    · rw [hsa.usedMc, hsa.ketamaVersion]
      exact fun mc hm => (hs.usedMc mc hm).2
    · intro mc hm
      exact hsa.current_iff.2 (hp mc hm)

theorem nextOfList_upToDate (hs : Level lock s) : UpToDate s.nextOfList := by
  fun_cases nextOfList s with
  | case1 mc rest he =>
    have ht : Level lock { s with usedBk := rest } :=
      hs.subset rfl rfl (Subset.refl _) (Subset.refl _) (he ▸ subset_cons_self ..) (Subset.refl _)
    refine ht.goOn (.updatingList mc) trivial fun m hm => ?_
    rw [mem_singleton.1 hm]
    exact hs.usedBk mc (he ▸ mem_cons_self)
  | case2 hn =>
    fun_cases nextOfPool s with
    | case1 mc below he =>
      have ht : Level lock { s with bkPool := below } :=
        hs.subset rfl rfl (Subset.refl _) (Subset.refl _) (Subset.refl _) (he ▸ subset_cons_self ..)
      refine ht.goOn (.updatingPool mc) hn fun m hm => ?_
      rw [mem_singleton.1 hm]
      exact hs.bkPool mc (he ▸ mem_cons_self)
    | case2 hb => exact hs.goOn .leaving ⟨hn, hb⟩ (forall_mem_nil _)

theorem moveToBackup_level (mc : Member) (hs : Level .entered s) :
    Level (.updatingList mc) { s.moveToBackup with ketamaVersion := s.ketamaVersion + 1 } where
  usedMc := forall_mem_nil _
  mcPool := forall_mem_nil _
  usedBk m hm := (hs.usedMc m hm).1
  bkPool m hm := by
    simp only [moveToBackup] at hm
    split at hm
    · exact hs.bkPool m hm
    · exact (hs.mcPool m hm).1
  backups := trivial

theorem updateCachelist_upToDate (init changed : Bool) {clone : Nat → Bool}
    (hc : ∀ xx, clone xx = true) (grow : Nat → Bool) (hs : Level .entered s) :
    UpToDate (s.updateCachelist init changed clone grow) := by
  cases init with
  | true => exact (repopulate_level hc grow hs.backups).leave
  | false =>
    cases changed with
    | true => exact nextOfList_upToDate (moveToBackup_level ⟨0, 0, 0⟩ hs)
    | false => exact hs.leave

theorem release_level (mc : Member) (hs : Level lock s) : Level lock (s.release mc true true) := by
  rw [release]
  split
  · have hsa : SameMaster s (s.replaceMember true mc).2 := ⟨rfl, rfl, rfl, rfl⟩
    exact mcListAddHead_level (hsa.level hs hs.usedMc hs.mcPool) ⟨rfl, rfl⟩
  · rename_i hv
    have hv : mc.version = s.version := Classical.not_not.1 hv
    split
    · exact mcListAddHead_level hs (memberUpdateCachelist_current hv)
    · rename_i hk
      exact mcListAddHead_level hs ⟨hv, Classical.not_not.1 hk⟩

/-! ## Runs -/

def Event.Succeeds : Event → Prop
  | .fetch _ clone updated => clone = true ∧ updated = true
  | .release _ clone updated => clone = true ∧ updated = true
  | .updateMember _ updated => updated = true
  | .repopulate clone grow => (∀ xx, clone xx = true) ∧ ∀ xx, grow xx = true
  | .behaviorSet _ _ clone grow => (∀ xx, clone xx = true) ∧ ∀ xx, grow xx = true
  | .updateCachelist _ _ clone grow => (∀ xx, clone xx = true) ∧ ∀ xx, grow xx = true
  | .putBack updated => updated = true
  | _ => True

theorem Level.setFetched (hs : Level lock s) (fetched : List Member) :
    Level lock { s with fetched := fetched } :=
  ⟨hs.usedMc, hs.mcPool, hs.usedBk, hs.bkPool, hs.backups.mono id id⟩

theorem UpToDate.of_level (h : s.UpToDate) (hs : SameHolder s s') (hl : Level s.masterLock s') :
    s'.UpToDate where
  level := by rw [hs.masterLock]; exact hl
  transit := by rw [hs.masterLock, hs.version]; exact h.transit

theorem next_upToDate (h : s.UpToDate) (he : e.Succeeds)
    (hn : s.next e = some s') : s'.UpToDate := by
  have hl := h.level
  cases happens_of_next hn with
  | fetched hf =>
    obtain ⟨rfl, rfl⟩ := he
    have hu := h.of_level hf.sameHolder (hf.level hl).1
    exact ⟨hu.level.setFetched _, hu.transit⟩
  | notFetched => exact h
  | @release mc clone updated hm =>
    obtain ⟨rfl, rfl⟩ := he
    have ht : UpToDate { s with fetched := s.fetched.erase mc } :=
      ⟨hl.setFetched _, h.transit⟩
    exact ht.of_level (release_sameHolder ..) (release_level mc ht.level)
  | updateMember hm => exact ⟨hl.setFetched _, h.transit⟩
  | lockMaster hlo =>
    rw [hlo] at hl
    exact hl.goOn .entered hl.backups (forall_mem_nil _)
  | @repopulate clone grow hlo =>
    rw [hlo] at hl
    exact (repopulate_level he.1 grow hl.backups).leave
  | @behaviorSet master set clone grow hlo =>
    rw [hlo] at hl
    exact behaviorSet_upToDate master set he.1 grow hl
  | @updateCachelist init changed clone grow hlo =>
    rw [hlo] at hl
    exact updateCachelist_upToDate init changed he.1 grow hl
  | @putBackToList mc updated hlo =>
    obtain rfl : updated = true := he
    have htr := h.transit mc (hlo ▸ mem_singleton_self mc)
    exact nextOfList_upToDate (mcListAddTail_level hl (memberUpdateCachelist_current htr))
  | @putBackToPool mc updated hlo =>
    obtain rfl : updated = true := he
    have htr := h.transit mc (hlo ▸ mem_singleton_self mc)
    have hb := hl.backups
    rw [hlo] at hb
    rw [nextOfPool_eq (show (s.mcPoolAdd _).usedBk = [] from hb)]
    exact nextOfList_upToDate (mcPoolAdd_level hl (memberUpdateCachelist_current htr))
  | unlockMaster hlo =>
    rw [hlo] at hl
    exact hl.goOn .free hl.backups (forall_mem_nil _)

theorem create_upToDate {version ketamaVersion : Int} {initial max : UInt32} {clone : Nat → Bool}
    (h : create version ketamaVersion initial max clone = some s) : s.UpToDate := by
  rw [create] at h
  split at h
  · cases h
  · cases h
    have he : Level .free (empty version ketamaVersion max) :=
      have hn (Q : Member → Prop) : ∀ mc ∈ [], Q mc := forall_mem_nil Q
      ⟨hn _, hn _, hn _, hn _, rfl, rfl⟩
    have hl := growTimes_masterLock clone initial.toNat (empty version ketamaVersion max)
    constructor
    · rw [hl]
      exact growTimes_level clone he
    · rw [hl]
      exact forall_mem_nil _

/-- A fetched member has both versions of the master, when clones and updates of
members succeed. -/
theorem fetched_up_to_date {initial max : UInt32} (hrun : Reachable Event.Succeeds initial max s)
    (wait : Bool) (hfetch : s.fetch wait true true = (.fetched mc, s')) :
    mc.version = s'.version ∧ mc.ketamaVersion = s'.ketamaVersion := by
  obtain ⟨version, ketamaVersion, clone, s₀, hc, hrun⟩ := hrun
  have hst : ∀ s s' : PoolSt, s.UpToDate → (∃ e : Event, e.Succeeds ∧ s.next e = some s') →
      s'.UpToDate := by
    rintro s s' hs ⟨e, he, hn⟩
    exact next_upToDate hs he hn
  have hu := Runs.run_invariant hst (create_upToDate hc) hrun
  have hf := fetch_fetches s wait true true
  rw [hfetch] at hf
  exact (hf.level hu.level).2

/-- While a call updates the two members of a pool, a caller fetches the one in the
backup. -/
theorem fetched_up_to_date_backup : ∃ s mc s', Reachable Event.Succeeds 2 2 s ∧
    s.masterLock = .updatingPool ⟨1, -1, -1⟩ ∧ s.bkPool = [⟨0, -1, -1⟩] ∧
    s.fetch false true true = (.fetched mc, s') ∧
    mc.version = s'.version ∧ mc.ketamaVersion = s'.ketamaVersion := by
  obtain ⟨s, hs, hl, hb, mc, s', hf⟩ : ∃ s, Reachable Event.Succeeds 2 2 s ∧
      s.masterLock = .updatingPool ⟨1, -1, -1⟩ ∧ s.bkPool = [⟨0, -1, -1⟩] ∧
      ∃ mc s', s.fetch false true true = (.fetched mc, s') := by
    exact ⟨_, ⟨-1, -1, fun _ => true, _, rfl, .tail (.single ⟨.lockMaster, trivial, rfl⟩)
      ⟨.updateCachelist false true (fun _ => true) (fun _ => true),
        ⟨fun _ => rfl, fun _ => rfl⟩, rfl⟩⟩, rfl, rfl, _, _, rfl⟩
  exact ⟨s, mc, s', hs, hl, hb, hf, fetched_up_to_date hs false hf⟩

end ArcusClient.PoolSt
