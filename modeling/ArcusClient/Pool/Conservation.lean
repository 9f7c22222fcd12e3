import ArcusClient.Pool.Members
import ArcusClient.Lib.Ledger
import ArcusClient.Lib.Runs

/-!
# No member is lost or doubled

`Owned` says where the members are while a call runs: each object that exists is in one place, in a
container of the pool, with a caller, or in the hands of a call.

The size of a pool is one more than its creator asked for, modulo `2 ^ 32`.  So a pool for
`2 ^ 32 - 1` members has size `0` (`pool_larger_than_max`).  All other pools are as they should be in
every state a run reaches (`pool_conserved_iff`).
-/

namespace ArcusClient.PoolSt

open Option

variable {s : PoolSt} {hand : List Member} {lock : MasterLock} {mc : Member}

/-! ## Places -/

def members (s : PoolSt) : List Member := s.usedMc ++ s.usedBk ++ s.mcPool ++ s.bkPool ++ s.fetched

def ids (members : List Member) : List Nat := members.map Member.id

@[simp] theorem ids_nil : ids [] = [] := rfl

@[simp] theorem ids_cons (members : List Member) : ids (mc :: members) = mc.id :: ids members := rfl

@[simp] theorem ids_append (ms ms' : List Member) : ids (ms ++ ms') = ids ms ++ ids ms' :=
  List.map_append

/-- The backups are in use only while the members are updated. -/
def BackupsIn (s : PoolSt) : MasterLock → Prop
  | .updatingList _ => True
  | .updatingPool _ => s.usedBk = []
  | _ => s.usedBk = [] ∧ s.bkPool = []

theorem BackupsIn.mono {s' : PoolSt} (h : s.BackupsIn lock) (hl : s.usedBk = [] → s'.usedBk = [])
    (hp : s.bkPool = [] → s'.bkPool = []) : s'.BackupsIn lock := by
  cases lock with
  | updatingList mc => trivial
  | updatingPool mc => exact hl h
  | free | entered | leaving | leaked => exact h.imp hl hp

/-- Each object that exists is in one place, and the sizes are right.  Calls have some
members in their hands. -/
structure Counted (hand : List Member) (lock : MasterLock) (s : PoolSt) : Prop where
  ledger : Ledger (ids (hand ++ s.members)) s.live
  fresh : ∀ id ∈ s.live, id < s.nextId
  count : s.live.card = s.curSize
  size : s.curSize ≤ s.maxSize
  backups : s.BackupsIn lock

structure Owned (hand : List Member) (lock : MasterLock) (s : PoolSt) : Prop extends
    Counted hand lock s where
  tail : s.usedMcTail = s.usedMc.getLast?.map Member.id

theorem Counted.notMem_nextId (h : Counted hand lock s) : s.nextId ∉ s.live :=
  fun hm => Nat.lt_irrefl _ (h.fresh _ hm)

section Move

variable {hand' : List Member} {s' : PoolSt}

/-- The members of a state and the hands of a call can be exchanged. -/
theorem Counted.move (h : Counted hand lock s)
    (hp : (ids (hand' ++ s'.members)).Perm (ids (hand ++ s.members)))
    (hl : s'.live = s.live) (hn : s'.nextId = s.nextId) (hc : s'.curSize = s.curSize)
    (hm : s'.maxSize = s.maxSize) (hli : s.usedBk = [] → s'.usedBk = [])
    (hpo : s.bkPool = [] → s'.bkPool = []) : Counted hand' lock s' where
  ledger := hl ▸ h.ledger.perm hp
  fresh := hl ▸ hn ▸ h.fresh
  count := by rw [hl, hc, h.count]
  size := by rw [hc, hm]; exact h.size
  backups := h.backups.mono hli hpo

theorem Owned.permHand (h : Owned hand lock s) (hp : hand'.Perm hand) : Owned hand' lock s :=
  ⟨h.move ((hp.append_right _).map _) rfl rfl rfl rfl id id, h.tail⟩

end Move

/-! ## Clones -/

theorem growPool_owned (h : Owned hand lock s) (hr : s.curSize < s.maxSize) :
    Owned hand lock s.growPool where
  ledger := by
    refine (h.ledger.alloc h.notMem_nextId).perm (List.perm_iff_count.2 fun id => ?_)
    simp [growPool, memcachedClone, mcPoolAdd, members, List.count_cons]
    omega
  fresh id hid := by
    rcases Finset.mem_insert.1 hid with rfl | hid
    · exact Nat.lt_succ_self _
    · exact Nat.lt_succ_of_lt (h.fresh id hid)
  count := (Finset.card_insert_of_notMem h.notMem_nextId).trans (congrArg Nat.succ h.count)
  size := hr
  backups := h.backups.mono id id
  tail := h.tail

/-- What growing keeps, a loop that grows keeps. -/
theorem growTimes_induction {P : PoolSt → Prop} (hg : ∀ s, P s → P s.growPool) (clone : Nat → Bool) :
    ∀ (n : Nat) {s : PoolSt}, P s → P (growTimes clone n s)
  | 0, _, h => h
  | n + 1, s, h => by
    rw [growTimes]
    split
    · exact growTimes_induction hg clone n (hg s h)
    · exact h

theorem growTimes_usedMc (clone : Nat → Bool) (n : Nat) (s : PoolSt) :
    (growTimes clone n s).usedMc = s.usedMc :=
  growTimes_induction (P := fun s' => s'.usedMc = s.usedMc) (fun _ h => h) clone n rfl

theorem growTimes_masterLock (clone : Nat → Bool) (n : Nat) (s : PoolSt) :
    (growTimes clone n s).masterLock = s.masterLock :=
  growTimes_induction (P := fun s' => s'.masterLock = s.masterLock) (fun _ h => h) clone n rfl

theorem growTimes_owned (clone : Nat → Bool) : ∀ {n : Nat} {s : PoolSt}, Owned hand lock s →
    s.curSize + n ≤ s.maxSize → Owned hand lock (growTimes clone n s)
  | 0, _, h, _ => h
  | n + 1, s, h, hr => by
    rw [growTimes]
    split
    · exact growTimes_owned clone (growPool_owned h (by omega))
        (show s.curSize + 1 + n ≤ s.maxSize by omega)
    · exact h

/-- A member in the hands of a call is freed. -/
theorem Counted.free (h : Counted (mc :: hand) lock s) :
    Counted hand lock ({ s with curSize := s.curSize - 1 }.memcachedFree mc) ∧ 0 < s.curSize := by
  have hl : Ledger (mc.id :: ids (hand ++ s.members)) s.live := h.ledger
  have hc := hl.card.symm.trans h.count
  rw [List.length_cons] at hc
  refine ⟨⟨hl.free, fun id hid => h.fresh id (Finset.mem_of_mem_erase hid), ?_,
    (Nat.sub_le ..).trans h.size, h.backups.mono id id⟩, by omega⟩
  exact hl.free.card.trans (Nat.sub_eq_of_eq_add hc.symm).symm

theorem replaceMember_owned (clone : Bool) (h : Owned (mc :: hand) lock s) :
    Owned ((s.replaceMember clone mc).1 :: hand) lock (s.replaceMember clone mc).2 := by
  cases clone with
  | false => exact h
  | true =>
    have hl : Ledger (s.nextId :: ids (hand ++ s.members))
        ((insert s.nextId s.live).erase mc.id) :=
      ((h.ledger.alloc h.notMem_nextId).perm (.swap ..)).free
    have hle := h.ledger.card
    refine ⟨⟨hl, ?_, ?_, h.size, h.backups.mono id id⟩, h.tail⟩
    · intro id hid
      rcases Finset.mem_insert.1 (Finset.mem_of_mem_erase hid) with rfl | hid
      · exact Nat.lt_succ_self _
      · exact Nat.lt_succ_of_lt (h.fresh id hid)
    · exact (hl.card.trans hle.symm).trans h.count

def lists (s : PoolSt) : List Member × List Member × Option Nat × Int :=
  (s.usedMc, s.usedBk, s.usedMcTail, s.version)

/-- The body of a loop over the array gives back what it gets, or a clone. -/
structure KeepsOwned (body : PoolSt → Nat → Member → Member × PoolSt) : Prop where
  owned : ∀ {s : PoolSt} {hand : List Member} {lock : MasterLock} (xx : Nat) (mc : Member),
    Owned (mc :: hand) lock s → Owned ((body s xx mc).1 :: hand) lock (body s xx mc).2
  mcPool : ∀ s xx mc, (body s xx mc).2.mcPool = s.mcPool
  lists : ∀ s xx mc, (body s xx mc).2.lists = s.lists

theorem replaceMember_mcPool (s : PoolSt) (clone : Bool) (mc : Member) :
    (s.replaceMember clone mc).2.mcPool = s.mcPool := by
  cases clone <;> rfl

theorem replaceMember_lists (s : PoolSt) (clone : Bool) (mc : Member) :
    (s.replaceMember clone mc).2.lists = s.lists := by
  cases clone <;> rfl

theorem keepsOwned_replaceMember (clone : Nat → Bool) :
    KeepsOwned fun s xx mc => s.replaceMember (clone xx) mc where
  owned xx _ h := replaceMember_owned (clone xx) h
  mcPool s xx mc := replaceMember_mcPool s (clone xx) mc
  lists s xx mc := replaceMember_lists s (clone xx) mc

section Loop

variable {body : PoolSt → Nat → Member → Member × PoolSt} (hbody : KeepsOwned body)
include hbody

theorem forMembers_owned : ∀ {ms hand : List Member} {s : PoolSt}, Owned (ms ++ hand) lock s →
    Owned ((forMembers body ms s).1 ++ hand) lock (forMembers body ms s).2
  | [], _, _, h => h
  | mc :: below, hand, s, h => by
    have hr := forMembers_owned (h.permHand List.perm_middle)
    rw [forMembers]
    generalize forMembers body below s = r at hr ⊢
    obtain ⟨below', s'⟩ := r
    exact hbody.owned below'.length mc (hr.permHand List.perm_middle.symm)

theorem forMembers_mcPool : ∀ (ms : List Member) (s : PoolSt),
    (forMembers body ms s).2.mcPool = s.mcPool
  | [], _ => rfl
  | _ :: below, s => (hbody.mcPool ..).trans (forMembers_mcPool below s)

theorem forMembers_lists : ∀ (ms : List Member) (s : PoolSt),
    (forMembers body ms s).2.lists = s.lists
  | [], _ => rfl
  | _ :: below, s => (hbody.lists ..).trans (forMembers_lists below s)

theorem updateMembers_lists (s : PoolSt) : (s.updateMembers body).lists = s.lists :=
  forMembers_lists hbody s.mcPool { s with mcPool := [] }

theorem updateMembers_owned (h : Owned hand lock s) : Owned hand lock (s.updateMembers body) := by
  have hs : Owned (s.mcPool ++ hand) lock { s with mcPool := [] } := by
    refine ⟨h.move (List.perm_iff_count.2 fun id => ?_) rfl rfl rfl rfl id id, h.tail⟩
    simp [members]
    omega
  have hl := forMembers_owned hbody hs
  have hp := forMembers_mcPool hbody s.mcPool { s with mcPool := [] }
  rw [updateMembers]
  generalize forMembers body s.mcPool { s with mcPool := [] } = r at hl hp ⊢
  refine ⟨hl.move (List.perm_iff_count.2 fun id => ?_) rfl rfl rfl rfl id id, hl.tail⟩
  simp only at hp
  simp [members, hp]
  omega

end Loop

/-! ## The containers -/

@[simp] theorem memberUpdateCachelist_id (s : PoolSt) (updated : Bool) (mc : Member) :
    (s.memberUpdateCachelist updated mc).id = mc.id := by
  cases updated <;> rfl

theorem Owned.updateHand (updated : Bool) (h : Owned (mc :: hand) lock s) :
    Owned (s.memberUpdateCachelist updated mc :: hand) lock s := by
  refine ⟨h.move (List.Perm.of_eq ?_) rfl rfl rfl rfl id id, h.tail⟩
  simp

/-- How a round of `fetch` gets a member.  One in a backup is updated. -/
inductive Takes (s : PoolSt) (updated : Bool) : Option Member → PoolSt → Prop where
  | usedBk {mc rest} : s.usedBk = mc :: rest →
      Takes s updated (some (s.memberUpdateCachelist updated mc)) { s with usedBk := rest }
  | usedMc {mc rest} : s.usedBk = [] → s.usedMc = mc :: rest → Takes s updated (some mc) { s with
      usedMc := rest
      usedMcTail := if rest.isEmpty then none else s.usedMcTail }
  | bkPool {mc below} : s.usedBk = [] → s.usedMc = [] → s.bkPool = mc :: below →
      Takes s updated (some (s.memberUpdateCachelist updated mc)) { s with bkPool := below }
  | mcPool {mc below} : s.usedBk = [] → s.usedMc = [] → s.mcPool = mc :: below →
      Takes s updated (some mc) { s with mcPool := below }
  | nothing : s.usedBk = [] → s.usedMc = [] → s.mcPool = [] → Takes s updated none s

theorem getMember_takes (s : PoolSt) (updated : Bool) :
    Takes s updated (s.getMember updated).1 (s.getMember updated).2 := by
  rw [getMember]
  fun_cases mcListGet s updated with
  | case1 mc rest hb => exact .usedBk hb
  | case2 hb mc rest hu => exact .usedMc hb hu
  | case3 hb hu =>
    simp only
    fun_cases mcPoolGet s updated with
    | case1 mc below hp => exact .bkPool hb hu hp
    | case2 hp mc below hm => exact .mcPool hb hu hm
    | case3 hp hm => exact .nothing hb hu hm

theorem Takes.owned (ht : Takes s updated r s') (h : Owned hand lock s) :
    Owned (r.toList ++ hand) lock s' := by
  cases ht with
  | usedBk he =>
    refine ⟨h.move (List.perm_iff_count.2 fun id => ?_) rfl rfl rfl rfl (by simp [he]) id, h.tail⟩
    simp [members, he, List.count_cons]
    omega
  | bkPool _ _ he =>
    refine ⟨h.move (List.perm_iff_count.2 fun id => ?_) rfl rfl rfl rfl id (by simp [he]), h.tail⟩
    simp [members, he, List.count_cons]
    omega
  | mcPool _ _ he =>
    refine ⟨h.move (List.perm_iff_count.2 fun id => ?_) rfl rfl rfl rfl id id, h.tail⟩
    simp [members, he, List.count_cons]
    omega
  | @usedMc mc rest _ he =>
    refine ⟨h.move (List.perm_iff_count.2 fun id => ?_) rfl rfl rfl rfl id id, ?_⟩
    · simp [members, he, List.count_cons]
      omega
    · have ht := h.tail
      rw [he] at ht
      cases rest with
      | nil => rfl
      | cons m rest => exact ht
  | nothing => exact h

theorem mcListAddHead_owned (h : Owned (mc :: hand) lock s) :
    Owned hand lock (s.mcListAddHead mc) := by
  refine ⟨h.move (List.perm_iff_count.2 fun id => ?_) rfl rfl rfl rfl id id, ?_⟩
  · simp [mcListAddHead, members, List.count_cons]
    omega
  · have ht := h.tail
    rw [mcListAddHead, ht]
    cases hl : s.usedMc with
    | nil => rfl
    | cons m rest => simp

theorem linkAfter_eq : ∀ {ms : List Member} {tail : Nat}, (ids ms).Nodup →
    ms.getLast?.map Member.id = some tail → linkAfter tail mc ms = ms ++ [mc]
  | [m], tail, _, hla => by
    cases hla
    simp [linkAfter]
  | m :: m' :: rest, tail, hn, hla => by
    have hr := linkAfter_eq (List.nodup_cons.1 hn).2 hla
    have hm : tail ∈ ids (m' :: rest) := by
      obtain ⟨l, hl, rfl⟩ := map_eq_some_iff.1 hla
      exact List.mem_map_of_mem (List.mem_of_getLast? hl)
    have hne : m.id ≠ tail := fun he => (List.nodup_cons.1 hn).1 (he ▸ hm)
    rw [linkAfter, if_neg hne, hr]
    rfl

theorem usedMc_sublist (s : PoolSt) : s.usedMc.Sublist (hand ++ s.members) := by
  rw [members, List.append_assoc, List.append_assoc, List.append_assoc]
  exact (List.sublist_append_left ..).trans (List.sublist_append_right ..)

theorem Owned.usedMc_mcListAddTail (h : Owned hand lock s) :
    (s.mcListAddTail mc).usedMc = s.usedMc ++ [mc] := by
  have ht := h.tail
  rw [mcListAddTail]
  cases he : s.usedMcTail with
  | none =>
    rw [he] at ht
    rw [List.getLast?_eq_none_iff.1 (map_eq_none_iff.1 ht.symm)]
    rfl
  | some tail =>
    have hn := h.ledger.nodup.sublist ((usedMc_sublist s).map Member.id)
    exact linkAfter_eq hn (ht.symm.trans he)

theorem mcListAddTail_owned (h : Owned (mc :: hand) lock s) :
    Owned hand lock (s.mcListAddTail mc) := by
  have hu : (s.mcListAddTail mc).usedMc = s.usedMc ++ [mc] := h.usedMc_mcListAddTail
  refine ⟨h.move (List.perm_iff_count.2 fun id => ?_) rfl rfl rfl rfl id id, ?_⟩
  · rw [members, hu]
    simp [mcListAddTail, members, List.count_cons]
    omega
  · rw [hu, List.getLast?_concat]
    rfl

theorem mcPoolAdd_owned (h : Owned (mc :: hand) lock s) : Owned hand lock (s.mcPoolAdd mc) := by
  refine ⟨h.move (List.perm_iff_count.2 fun id => ?_) rfl rfl rfl rfl id id, h.tail⟩
  simp [mcPoolAdd, members, List.count_cons]
  omega

theorem removeMembers_counted : ∀ {ms : List Member} {s : PoolSt}, Counted hand lock s →
    s.usedMc = ms → Counted hand lock (removeMembers ms s) ∧ (removeMembers ms s).usedMc = [] ∧
      (removeMembers ms s).curSize + ms.length = s.curSize ∧
      (removeMembers ms s).maxSize = s.maxSize
  | [], s, h, hm => ⟨h, hm, rfl, rfl⟩
  | mc :: rest, s, h, hm => by
    have ht : Counted (mc :: hand) lock { s with usedMc := rest } := by
      refine h.move (List.perm_iff_count.2 fun id => ?_) rfl rfl rfl rfl id id
      simp [members, hm, List.count_cons]
      omega
    obtain ⟨hco, hn, hs, hma⟩ := removeMembers_counted ht.free.1 rfl
    refine ⟨hco, hn, ?_, hma⟩
    rw [removeMembers, List.length_cons, ← Nat.add_assoc]
    exact (congrArg Nat.succ hs).trans (Nat.sub_add_cancel ht.free.2)

theorem mcListRemoveAll_owned (h : Owned hand lock s) : Owned hand lock s.mcListRemoveAll.2 ∧
      s.mcListRemoveAll.2.curSize + s.mcListRemoveAll.1 ≤ s.mcListRemoveAll.2.maxSize ∧
      s.mcListRemoveAll.2.usedMc = [] := by
  obtain ⟨hc, hn, hs, hm⟩ := removeMembers_counted h.toCounted rfl
  refine ⟨⟨hc.move (.refl _) rfl rfl rfl rfl id id, ?_⟩, ?_, hn⟩
  · simp [mcListRemoveAll, hn]
  · exact (hs.trans_le h.size).trans_eq hm.symm

/-- The last member of the list can be set, or none of its members can. -/
def TailKept (set : Member → Bool) (ms : List Member) : Prop :=
  ms.filter set = [] ∨ ∃ mc, ms.getLast? = some mc ∧ set mc = true

/-- The loop over the list keeps the members that can be set, and counts those it frees. -/
theorem behaviorSetList_counted (set : Member → Bool) : ∀ {kept ms : List Member} {s : PoolSt},
    Counted hand lock { s with usedMc := kept ++ ms } →
    Counted hand lock (behaviorSetList set kept ms s).2 ∧
      (behaviorSetList set kept ms s).2.usedMc =
        kept ++ (ms.filter set).map (fun mc => { mc with version := s.version }) ∧
      (behaviorSetList set kept ms s).2.curSize + (behaviorSetList set kept ms s).1 = s.curSize ∧
      (behaviorSetList set kept ms s).2.maxSize = s.maxSize ∧
      (behaviorSetList set kept ms s).2.usedMcTail =
        if kept = [] ∧ ms ≠ [] ∧ ms.filter set = [] then none else s.usedMcTail
  | kept, [], s, h => by
    rw [List.append_nil] at h
    exact ⟨h, (List.append_nil _).symm, rfl, rfl, by simp [behaviorSetList]⟩
  | kept, mc :: rest, s, h => by
    rw [behaviorSetList]
    cases hs : set mc with
    | true =>
      have hk : Counted hand lock
          { s with usedMc := kept ++ [{ mc with version := s.version }] ++ rest } := by
        refine h.move (List.Perm.of_eq ?_) rfl rfl rfl rfl id id
        simp [members]
      obtain ⟨hc, hu, hsi, hm, ht⟩ := behaviorSetList_counted set hk
      refine ⟨hc, ?_, hsi, hm, ?_⟩
      · simpa [hs] using hu
      · simpa [hs] using ht
    | false =>
      have hh : Counted (mc :: hand) lock { s with
          usedMc := kept ++ rest
          usedMcTail := if kept.isEmpty && rest.isEmpty then none else s.usedMcTail } := by
        refine h.move (List.perm_iff_count.2 fun id => ?_) rfl rfl rfl rfl id id
        simp [members, List.count_cons]
        omega
      obtain ⟨hf, hp⟩ : Counted hand lock { { s with
          usedMcTail := if kept.isEmpty && rest.isEmpty then none else s.usedMcTail
          curSize := s.curSize - 1 }.memcachedFree mc with usedMc := kept ++ rest } ∧
          0 < s.curSize := hh.free
      obtain ⟨hc, hu, hsi, hm, ht⟩ := behaviorSetList_counted set hf
      refine ⟨hc, ?_, ?_, hm, ?_⟩
      · rw [List.filter_cons_of_neg (by simp [hs])]
        exact hu
      · have hsi : _ + _ = s.curSize - 1 := hsi
        simp only [Bool.false_eq_true, if_false]
        omega
      · refine ht.trans ?_
        cases kept <;> cases rest <;> simp [memcachedFree, hs]

theorem mcListBehaviorSet_counted (set : Member → Bool) (h : Counted hand lock s) :
    Counted hand lock (s.mcListBehaviorSet set).2 ∧ (s.mcListBehaviorSet set).2.usedMc =
        (s.usedMc.filter set).map (fun mc => { mc with version := s.version }) ∧
      (s.mcListBehaviorSet set).2.curSize + (s.mcListBehaviorSet set).1 ≤
        (s.mcListBehaviorSet set).2.maxSize ∧
      (s.mcListBehaviorSet set).2.usedMcTail =
        if s.usedMc ≠ [] ∧ s.usedMc.filter set = [] then none else s.usedMcTail := by
  obtain ⟨hc, hu, hs, hm, ht⟩ :=
    @behaviorSetList_counted hand lock set [] s.usedMc { s with usedMc := [] }
      (h.move (.refl _) rfl rfl rfl rfl id id)
  exact ⟨hc, hu, hs.trans_le (h.size.trans_eq hm.symm), ht.trans (by simp)⟩

theorem mcListBehaviorSet_owned {set : Member → Bool} (h : Owned hand lock s)
    (ht : TailKept set s.usedMc) : Owned hand lock (s.mcListBehaviorSet set).2 := by
  obtain ⟨hc, hu, -, ht'⟩ := mcListBehaviorSet_counted set h.toCounted
  refine ⟨hc, ?_⟩
  rw [ht', hu, h.tail]
  rcases ht with hn | ⟨mc, hl, hs⟩
  · cases hm : s.usedMc with
    | nil => rfl
    | cons m ms => simp [← hm, hn]
  · obtain ⟨ms, hm⟩ := List.getLast?_eq_some_iff.1 hl
    simp [hm, hs]

/-! ## The calls -/

theorem repopulate_owned (clone grow : Nat → Bool) (h : Owned hand lock s) :
    Owned hand lock (s.repopulate clone grow) ∧ (s.repopulate clone grow).usedMc = [] := by
  have hr : Owned hand lock
      { s with ketamaVersion := s.ketamaVersion + 1, version := s.version + 1 } :=
    ⟨h.move (.refl _) rfl rfl rfl rfl id id, h.tail⟩
  have hc := updateMembers_owned (keepsOwned_replaceMember clone) hr
  obtain ⟨hre, hro, hn⟩ := mcListRemoveAll_owned hc
  exact ⟨growTimes_owned grow hre hro, (growTimes_usedMc ..).trans hn⟩

theorem keepsOwned_behaviorSet (set : Member → Bool) (clone : Nat → Bool) :
    KeepsOwned fun s xx mc =>
      if set mc then ({ mc with version := s.version }, s) else s.replaceMember (clone xx) mc where
  owned xx mc h := by
    split
    · exact ⟨h.move (.refl _) rfl rfl rfl rfl id id, h.tail⟩
    · exact replaceMember_owned (clone xx) h
  mcPool s xx mc := by
    split
    · rfl
    · exact replaceMember_mcPool s (clone xx) mc
  lists s xx mc := by
    split
    · rfl
    · exact replaceMember_lists s (clone xx) mc

/-- Between the parts of calls: only the call that updates the members has one in its
hands. -/
def Inv (s : PoolSt) : Prop := Owned s.masterLock.transit s.masterLock s

/-- The holder of the lock goes on, with the member that it takes. -/
theorem Owned.goOn (h : Owned hand lock s) (lock' : MasterLock) (hh : lock'.transit = hand)
    (hb : s.BackupsIn lock') : Inv { s with masterLock := lock' } where
  ledger := hh ▸ h.ledger
  fresh := h.fresh
  count := h.count
  size := h.size
  backups := hb.mono id id
  tail := h.tail

theorem behaviorSet_inv {set : Member → Bool} (ht : TailKept set s.usedMc)
    (clone grow : Nat → Bool) (h : Owned [] .entered s) :
    (s.behaviorSet true set clone grow).Inv ∧
      ids (s.behaviorSet true set clone grow).usedMc = ids (s.usedMc.filter set) := by
  have hr : Owned [] .entered { s with version := s.version + 1 } :=
    ⟨h.move (.refl _) rfl rfl rfl rfl id id, h.tail⟩
  have hm := updateMembers_owned (keepsOwned_behaviorSet set clone) hr
  have hu := congrArg Prod.fst (updateMembers_lists (keepsOwned_behaviorSet set clone)
    { s with version := s.version + 1 })
  have hl := mcListBehaviorSet_owned hm ((congrArg (TailKept set) hu).mpr ht)
  obtain ⟨-, hk, hro, -⟩ := mcListBehaviorSet_counted set hm.toCounted
  have hg := growTimes_owned grow hl hro
  refine ⟨hg.goOn .leaving rfl hg.backups,
    (congrArg ids ((growTimes_usedMc ..).trans hk)).trans ?_⟩
  rw [ids, List.map_map]
  exact congrArg (fun ms => (ms.filter set).map Member.id) hu

theorem nextOfPool_eq (hn : s.usedBk = []) : s.nextOfPool = s.nextOfList := by
  rw [nextOfList, hn]

theorem nextOfList_inv (h : Owned [] lock s) : s.nextOfList.Inv := by
  fun_cases nextOfList s with
  | case1 mc rest he =>
    have ht : Owned [mc] lock { s with usedBk := rest } := by
      refine ⟨h.move (List.perm_iff_count.2 fun id => ?_) rfl rfl rfl rfl (by simp [he]) id, h.tail⟩
      simp [members, he, List.count_cons]
      omega
    exact ht.goOn (.updatingList mc) rfl trivial
  | case2 hn =>
    fun_cases nextOfPool s with
    | case1 mc below he =>
      have ht : Owned [mc] lock { s with bkPool := below } := by
        refine ⟨h.move (List.perm_iff_count.2 fun id => ?_) rfl rfl rfl rfl id (by simp [he]), h.tail⟩
        simp [members, he, List.count_cons]
        omega
      exact ht.goOn (.updatingPool mc) rfl hn
    | case2 hb => exact h.goOn .leaving rfl ⟨hn, hb⟩

theorem moveToBackup_owned (mc : Member) (h : Owned [] .entered s) : Owned [] (.updatingList mc)
      { s.moveToBackup with ketamaVersion := s.ketamaVersion + 1 } := by
  obtain ⟨hl, hp⟩ : s.usedBk = [] ∧ s.bkPool = [] := h.backups
  refine ⟨⟨h.ledger.perm (List.perm_iff_count.2 fun id => ?_), h.fresh, h.count, h.size, trivial⟩, rfl⟩
  cases hm : s.mcPool with
  | nil => simp [moveToBackup, members, hl, hm]
  | cons mc below => simp [moveToBackup, members, hl, hp, hm]

theorem updateCachelist_inv (init changed : Bool) (clone grow : Nat → Bool)
    (h : Owned [] .entered s) : (s.updateCachelist init changed clone grow).Inv := by
  cases init with
  | true =>
    have hr := (repopulate_owned clone grow h).1
    exact hr.goOn .leaving rfl hr.backups
  | false =>
    cases changed with
    | true => exact nextOfList_inv (moveToBackup_owned ⟨0, 0, 0⟩ h)
    | false => exact h.goOn .leaving rfl h.backups

inductive Fetches (s : PoolSt) (updated : Bool) : FetchResult → PoolSt → Prop where
  | taken {mc s'} : Takes s updated (some mc) s' → Fetches s updated (.fetched mc) s'
  | grown {mc s'} : s.usedBk = [] → s.usedMc = [] → s.curSize < s.maxSize →
      Takes s.growPool updated (some mc) s' → Fetches s updated (.fetched mc) s'
  | refused {result} : (∀ mc, result ≠ .fetched mc) → s.usedBk = [] → s.usedMc = [] →
      Fetches s updated result s

theorem fetch_fetches (s : PoolSt) (wait clone updated : Bool) :
    Fetches s updated (s.fetch wait clone updated).1 (s.fetch wait clone updated).2 := by
  have hf := getMember_takes s updated
  rw [fetch]
  generalize s.getMember updated = r at hf ⊢
  obtain ⟨_ | mc, s₁⟩ := r
  · cases hf with
    | nothing hb hu hm =>
      simp only
      by_cases hr : s₁.curSize < s₁.maxSize
      · rw [if_pos hr]
        cases clone with
        | false => exact .refused (by rintro _ ⟨⟩) hb hu
        | true =>
          have hg := getMember_takes s₁.growPool updated
          generalize s₁.growPool.getMember updated = r at hg ⊢
          obtain ⟨_ | mc, s₂⟩ := r
          · cases hg with
            | nothing _ _ hn => cases hn
          · exact .grown hb hu hr hg
      · rw [if_neg hr]
        cases wait with
        | true | false => exact .refused (by rintro _ ⟨⟩) hb hu
  · exact .taken hf

theorem release_owned (clone updated : Bool) (h : Owned (mc :: hand) lock s) :
    Owned hand lock (s.release mc clone updated) := by
  rw [release]
  split
  · exact mcListAddHead_owned (replaceMember_owned clone h)
  · split
    · exact mcListAddHead_owned (h.updateHand updated)
    · exact mcListAddHead_owned h

/-! ## Runs -/

/-- Callers change neither the holder of the lock nor the version of the master. -/
structure SameHolder (s s' : PoolSt) : Prop where
  masterLock : s'.masterLock = s.masterLock
  version : s'.version = s.version

theorem Takes.sameHolder (ht : Takes s updated r s') : SameHolder s s' := by
  cases ht with
  | usedBk | usedMc | bkPool | mcPool | nothing => exact ⟨rfl, rfl⟩

theorem Fetches.sameHolder (hf : Fetches s updated result s') : SameHolder s s' := by
  cases hf with
  | taken ht => exact ht.sameHolder
  | grown _ _ _ ht => exact ⟨ht.sameHolder.masterLock, ht.sameHolder.version⟩
  | refused => exact ⟨rfl, rfl⟩

theorem release_sameHolder (s : PoolSt) (mc : Member) (clone updated : Bool) :
    SameHolder s (s.release mc clone updated) := by
  rw [release]
  split
  · cases clone <;> exact ⟨rfl, rfl⟩
  · split <;> exact ⟨rfl, rfl⟩

def Event.SetsSucceed : Event → Prop
  | .behaviorSet master set _ _ => master = true ∧ ∀ mc, set mc = true
  | _ => True

/-- The last member of the list is not freed while others stay. -/
def Event.KeepsTail (s : PoolSt) : Event → Prop
  | .behaviorSet master set _ _ => master = true → TailKept set s.usedMc
  | _ => True

theorem Event.SetsSucceed.keepsTail {e : Event} (he : e.SetsSucceed) (s : PoolSt) :
    e.KeepsTail s := by
  cases e with
  | behaviorSet master set clone grow =>
    intro _
    cases hm : s.usedMc.getLast? with
    | none =>
      rw [List.getLast?_eq_none_iff.1 hm]
      exact .inl rfl
    | some mc => exact .inr ⟨mc, hm, he.2 mc⟩
  | _ => trivial

theorem Owned.takeFetched (h : Owned hand lock s) (hm : mc ∈ s.fetched) :
    Owned (mc :: hand) lock { s with fetched := s.fetched.erase mc } := by
  refine ⟨h.move (List.perm_iff_count.2 fun id => ?_) rfl rfl rfl rfl id id, h.tail⟩
  have hf : (ids s.fetched).Perm (ids (mc :: s.fetched.erase mc)) :=
    (List.perm_cons_erase hm).map Member.id
  have hc := hf.count_eq id
  simp [members, List.count_cons] at hc ⊢
  omega

theorem Owned.addFetched (h : Owned (mc :: hand) lock s) :
    Owned hand lock { s with fetched := mc :: s.fetched } := by
  refine ⟨h.move (List.perm_iff_count.2 fun id => ?_) rfl rfl rfl rfl id id, h.tail⟩
  simp [members, List.count_cons]
  omega

inductive Happens (s : PoolSt) : Event → PoolSt → Prop where
  | fetched {wait clone updated mc s'} : Fetches s updated (.fetched mc) s' →
      Happens s (.fetch wait clone updated) { s' with fetched := mc :: s'.fetched }
  | notFetched {wait clone updated} : s.usedBk = [] → s.usedMc = [] →
      Happens s (.fetch wait clone updated) s
  | release {mc clone updated} : mc ∈ s.fetched →
      Happens s (.release mc clone updated)
        ({ s with fetched := s.fetched.erase mc }.release mc clone updated)
  | updateMember {mc updated} : mc ∈ s.fetched →
      Happens s (.updateMember mc updated)
        { s with fetched := s.updateMember mc updated :: s.fetched.erase mc }
  | lockMaster : s.masterLock = .free → Happens s .lockMaster { s with masterLock := .entered }
  | repopulate {clone grow} : s.masterLock = .entered →
      Happens s (.repopulate clone grow) { s.repopulate clone grow with masterLock := .leaving }
  | behaviorSet {master set clone grow} : s.masterLock = .entered →
      Happens s (.behaviorSet master set clone grow) (s.behaviorSet master set clone grow)
  | updateCachelist {init changed clone grow} : s.masterLock = .entered →
      Happens s (.updateCachelist init changed clone grow) (s.updateCachelist init changed clone grow)
  | putBackToList {mc updated} : s.masterLock = .updatingList mc →
      Happens s (.putBack updated) (s.mcListAddTail (s.memberUpdateCachelist updated mc)).nextOfList
  | putBackToPool {mc updated} : s.masterLock = .updatingPool mc →
      Happens s (.putBack updated) (s.mcPoolAdd (s.memberUpdateCachelist updated mc)).nextOfPool
  | unlockMaster : s.masterLock = .leaving →
      Happens s .unlockMaster { s with masterLock := .free }

theorem happens_of_next (hn : s.next e = some s') : s.Happens e s' := by
  revert hn
  fun_cases PoolSt.next s e with
  | case1 wait clone updated mc s₁ hf =>
    rintro ⟨⟩
    have ht := fetch_fetches s wait clone updated
    rw [hf] at ht
    exact .fetched ht
  | case2 wait clone updated result s₁ hno hf =>
    rintro ⟨⟩
    have ht := fetch_fetches s wait clone updated
    rw [hf] at ht
    cases ht with
    | taken | grown => exact absurd rfl (hno _)
    | refused _ hb hu => exact .notFetched hb hu
  | case3 mc clone updated hm =>
    rintro ⟨⟩
    exact .release hm
  | case5 mc updated hm =>
    rintro ⟨⟩
    exact .updateMember hm
  | case7 hl =>
    rintro ⟨⟩
    exact .lockMaster hl
  | case9 clone grow hl =>
    rintro ⟨⟩
    exact .repopulate hl
  | case11 master set clone grow hl =>
    rintro ⟨⟩
    exact .behaviorSet hl
  | case13 init changed clone grow hl =>
    rintro ⟨⟩
    exact .updateCachelist hl
  | case15 updated mc hl =>
    rintro ⟨⟩
    exact .putBackToList hl
  | case16 updated mc hl =>
    rintro ⟨⟩
    exact .putBackToPool hl
  | case18 hl =>
    rintro ⟨⟩
    exact .unlockMaster hl
  | _ => rintro ⟨⟩

/-- A member is fetched: the caller has it, and the pool is as before otherwise. -/
theorem Fetches.owned (hf : Fetches s updated (.fetched mc) s') (h : Owned hand lock s) :
    Owned (mc :: hand) lock s' := by
  cases hf with
  | taken ht => exact ht.owned h
  | grown _ _ hr ht => exact ht.owned (growPool_owned h hr)
  | refused hno => exact absurd rfl (hno mc)

theorem next_inv (h : s.Inv) (he : e.KeepsTail s) (hn : s.next e = some s') : s'.Inv := by
  cases happens_of_next hn with
  | fetched hf =>
    have ho := hf.owned h
    rw [← hf.sameHolder.masterLock] at ho
    exact ho.addFetched
  | notFetched => exact h
  | @release mc clone updated hm =>
    have ho := release_owned clone updated (Owned.takeFetched h hm)
    rw [Inv, (release_sameHolder ..).masterLock]
    exact ho
  | @updateMember mc updated hm =>
    have ho := Owned.takeFetched h hm
    rw [PoolSt.updateMember]
    split
    · exact (ho.updateHand updated).addFetched
    · exact ho.addFetched
  | lockMaster hl =>
    rw [Inv, hl] at h
    exact h.goOn .entered rfl h.backups
  | @repopulate clone grow hl =>
    rw [Inv, hl] at h
    have hr := (repopulate_owned clone grow h).1
    exact hr.goOn .leaving rfl hr.backups
  | @behaviorSet master set clone grow hl =>
    rw [Inv, hl] at h
    cases master with
    | true => exact (behaviorSet_inv (he rfl) clone grow h).1
    | false => exact h.goOn .leaked rfl h.backups
  | @updateCachelist init changed clone grow hl =>
    rw [Inv, hl] at h
    exact updateCachelist_inv init changed clone grow h
  | @putBackToList mc updated hl =>
    rw [Inv, hl] at h
    exact nextOfList_inv (mcListAddTail_owned (Owned.updateHand updated h))
  | @putBackToPool mc updated hl =>
    rw [Inv, hl] at h
    have ho := mcPoolAdd_owned (Owned.updateHand updated h)
    rw [nextOfPool_eq ho.backups]
    exact nextOfList_inv ho
  | unlockMaster hl =>
    rw [Inv, hl] at h
    exact h.goOn .free rfl h.backups

theorem create_inv {version ketamaVersion : Int} {initial max : UInt32} {clone : Nat → Bool}
    (hm : max.toNat + 1 < 2 ^ 32) (h : create version ketamaVersion initial max clone = some s) :
    s.Inv := by
  rw [create] at h
  split at h
  · cases h
  · rename_i ho
    cases h
    have he : Owned [] .free (empty version ketamaVersion max) :=
      ⟨⟨Ledger.nil, by simp [empty], rfl, Nat.zero_le _, ⟨rfl, rfl⟩⟩, rfl⟩
    have hl : initial.toNat ≤ max.toNat := by
      have hlt : ¬max < initial := fun hlt => ho (.inr (.inr hlt))
      exact UInt32.le_iff_toNat_le.1 (UInt32.not_lt.1 hlt)
    have hr : (empty version ketamaVersion max).curSize + initial.toNat ≤
        (empty version ketamaVersion max).maxSize := by
      simp only [empty]
      omega
    rw [Inv, growTimes_masterLock]
    exact growTimes_owned clone he hr

/-- Every object that exists is in one place, and the sizes and the backups are as they should
be. -/
structure Conserved (s : PoolSt) : Prop where
  /-- No object is in two places, or twice in one. -/
  nodup : (ids (s.members ++ s.masterLock.transit)).Nodup
  /-- The objects in the places are those that exist. -/
  live : ∀ id, id ∈ s.live ↔ id ∈ ids (s.members ++ s.masterLock.transit)
  count : s.live.card = s.curSize
  size : s.curSize ≤ s.maxSize
  mcTop : s.mcTop < s.maxSize
  bkTop : s.bkTop < s.maxSize
  backups : s.masterLock = .free → s.usedBk = [] ∧ s.bkPool = []

theorem Inv.conserved (h : s.Inv) : s.Conserved := by
  have hl : Ledger (ids (s.members ++ s.masterLock.transit)) s.live :=
    h.ledger.perm (List.perm_append_comm.map _)
  have hle := hl.card.symm.trans (h.count)
  have hs := h.size
  simp only [ids, members, List.length_map, List.length_append] at hle
  refine ⟨hl.nodup, fun id => (hl.mem_iff id).symm, h.count, hs, ?_, ?_, ?_⟩
  · rw [mcTop]
    omega
  · rw [bkTop]
    omega
  · intro hf
    have hb := h.backups
    rw [hf] at hb
    exact hb

theorem growTimes_sizes : ∀ (n : Nat) (s : PoolSt),
    (growTimes (fun _ => true) n s).curSize = s.curSize + n ∧
      (growTimes (fun _ => true) n s).maxSize = s.maxSize
  | 0, _ => ⟨rfl, rfl⟩
  | n + 1, s => by
    obtain ⟨hc, hm⟩ := growTimes_sizes n s.growPool
    refine ⟨hc.trans ?_, hm⟩
    exact (Nat.add_assoc s.curSize 1 n).trans (congrArg _ (Nat.add_comm 1 n))

/-- In every state of every run the members are where they should be, exactly if one more than
the number of members the creator asks for fits in 32 bits. -/
theorem pool_conserved_iff (initial max : UInt32) :
    (∀ s, Reachable Event.SetsSucceed initial max s → s.Conserved) ↔
      initial = 0 ∨ max.toNat + 1 < 2 ^ 32 := by
  constructor
  · intro h
    by_contra hc
    obtain ⟨hin, hm⟩ := not_or.1 hc
    have hf : max.toNat = 2 ^ 32 - 1 := by
      have hl := max.toNat_lt
      omega
    have hl := initial.toNat_lt
    have hcr : create 0 0 initial max (fun _ => true) =
        some (growTimes (fun _ => true) initial.toNat (empty 0 0 max)) := by
      rw [create, if_neg]
      rintro (hz | hz | hg)
      · exact hin hz
      · rw [hz] at hf
        exact absurd hf (by decide)
      · have hg := UInt32.lt_iff_toNat_lt.1 hg
        omega
    -- the new pool has its members already, and size 0
    have hsi := (h _ ⟨0, 0, fun _ => true, _, hcr, .refl⟩).size
    obtain ⟨hcu, hmax⟩ := growTimes_sizes initial.toNat (empty 0 0 max)
    have hp : 0 < initial.toNat :=
      Nat.pos_of_ne_zero fun hz => hin (UInt32.toNat_inj.1 hz)
    rw [hcu, hmax] at hsi
    simp only [empty] at hsi
    omega
  · rintro hc s ⟨version, ketamaVersion, clone, s₀, hcr, hr⟩
    have hm : max.toNat + 1 < 2 ^ 32 := by
      cases hc with
      | inl hz =>
        rw [create, if_pos (.inl hz)] at hcr
        cases hcr
      | inr hm => exact hm
    have hst : ∀ s s' : PoolSt, s.Inv → (∃ e : Event, e.SetsSucceed ∧ s.next e = some s') →
        s'.Inv := by
      rintro s s' hs ⟨e, he, hn⟩
      exact next_inv hs (he.keepsTail s) hn
    exact (Runs.run_invariant hst (create_inv hm hcr) hr).conserved

/-- A pool for `2 ^ 32 - 1` members has one member and size `0` at the start. -/
theorem pool_larger_than_max : ∃ s, Reachable Event.SetsSucceed 1 4294967295 s ∧ ¬s.Conserved := by
  refine ⟨_, ⟨0, 0, fun _ => true, _, rfl, .refl⟩, fun h => ?_⟩
  have hs : 1 ≤ 0 := h.size
  omega

end ArcusClient.PoolSt
