import ArcusClient.Rgroup.Slots

/-!
# A group reaches its description

`GroupSt.update_ends` and `update_related` together give the whole picture of one update
(`group_update_reaches_target`).
-/

namespace ArcusClient

open CString Reconcile Outcome List

namespace SlotSt

/-- A group of one to three servers: the slots below `nreplica` are used, the others are null. -/
structure WellFormed (s : SlotSt) : Prop where
  nonempty : 0 < s.nreplica
  length_le : s.nreplica ≤ rgroupMaxReplica
  used : ∀ i < s.nreplica, (s.replicas i).isSome = true
  null : ∀ i, s.nreplica ≤ i → s.replicas i = none

theorem filterMap_range_slots {replicas : Nat → Option Replica} : ∀ {n : Nat},
    (∀ i < n, (replicas i).isSome = true) → ((List.range n).filterMap replicas).length = n ∧
      ∀ i < n, ((List.range n).filterMap replicas)[i]? = replicas i
  | 0, _ => ⟨rfl, by simp⟩
  | n + 1, hu => by
    obtain ⟨hl, hg⟩ := filterMap_range_slots fun i hi => hu i (Nat.lt_succ_of_lt hi)
    obtain ⟨last, hla⟩ := Option.isSome_iff_exists.1 (hu n (Nat.lt_succ_self n))
    rw [range_succ, filterMap_append]
    simp only [filterMap_cons, hla, filterMap_nil]
    refine ⟨by rw [length_append, hl, length_singleton], fun i hi => ?_⟩
    rcases Nat.lt_succ_iff_lt_or_eq.1 hi with hlt | rfl
    · rw [getElem?_append_left (hl.symm ▸ hlt), hg i hlt]
    · rw [getElem?_append_right (le_of_eq hl), hl, Nat.sub_self, hla]
      rfl

def toList (s : SlotSt) : GroupSt :=
  ⟨⟨s.groupname, s.groupindex, s.weight, (List.range s.nreplica).filterMap s.replicas⟩, s.spare⟩

theorem WellFormed.slots (h : WellFormed s) (hs : s.seen = []) : Slots 1 s s.toList := by
  obtain ⟨hl, hg⟩ := filterMap_range_slots h.used
  refine ⟨rfl, rfl, rfl, hl.symm, fun i => ?_, rfl, ?_, ?_, by simp [hs]⟩
  · by_cases hi : i < s.nreplica
    · exact (hg i hi).symm
    · rw [h.null i (not_lt.1 hi)]
      exact (getElem?_eq_none (hl.trans_le (not_lt.1 hi))).symm
  · exact h.nonempty.trans_eq hl.symm
  · exact hl.trans_le h.length_le

theorem Slots.wellFormed (h : Slots 1 s st) : WellFormed s where
  nonempty := h.nreplica ▸ h.low_le
  length_le := h.nreplica ▸ h.length_le
  used i hi := by
    rw [h.nreplica] at hi
    rw [h.replicas, getElem?_eq_getElem hi]
    rfl
  null i hi := by
    rw [h.nreplica] at hi
    rw [h.replicas]
    exact getElem?_eq_none hi

structure Reached (s' : SlotSt) (new : List Addr) : Prop where
  master : (s'.replicas 0).map Replica.key = new.head?
  servers : s'.keys.Perm new
  wellFormed : WellFormed s'
  onTheWay : ∀ n ∈ s'.seen, 0 < n ∧ n ≤ rgroupMaxReplica

/-- An update brings the slots in line with a description, and tells if something has changed.  An
update with a group that has the same servers does the same. -/
theorem group_update_reaches_target {s : SlotSt} (hs : WellFormed s) (hseen : s.seen = [])
    {rginfo : RgroupInfo} (hmaster : rginfo.master.isSome = true)
    (hslaves : rginfo.slaves.length ≤ 2)
    (hnames : ∀ info ∈ rginfo.replicas, isValidServername info.hostname = true)
    (hfree : s.rgroupUpdateWithGroupinfo rginfo ≠ .error .noServer) {newRgroup : SlotSt}
    (hsame : newRgroup.keys = rginfo.replicas.map ServerInfo.key) :
    ∃ changed s', s.rgroupUpdateWithGroupinfo rginfo = .ok (changed, s') ∧
      Reached s' (rginfo.replicas.map ServerInfo.key) ∧ (changed = true ↔
        s.keys.head? ≠ rginfo.master.map ServerInfo.key ∨
          ¬s.keys.tail.Perm (rginfo.slaves.map ServerInfo.key)) ∧
      s.rgroupUpdate newRgroup = .ok (changed, s') := by
  obtain ⟨master, hmaster⟩ := Option.isSome_iff_exists.1 hmaster
  have hsl := hs.slots hseen
  have hn : s.toList.keys ≠ [] := by
    rw [← length_pos_iff, GroupSt.length_keys]
    exact hsl.low_le
  have hnew : rginfo.replicas.map ServerInfo.key =
      master.key :: rginfo.slaves.map ServerInfo.key := by
    rw [RgroupInfo.replicas, hmaster]
    rfl
  have hv : ∀ a ∈ rginfo.replicas.map ServerInfo.key, a.valid = true := by
    intro a ha
    obtain ⟨info, hin, rfl⟩ := mem_map.1 ha
    exact hnames info hin
  have hf : (rginfo.replicas.map ServerInfo.key).length ≤ rgroupMaxReplica := by
    rw [hnew, length_cons, length_map]
    exact Nat.succ_le_succ hslaves
  -- the list is updated without a failed assertion, and the slots in step with it
  have hb := (update_related le_rfl hsl (rginfo.replicas.map ServerInfo.key)).ends
    (GroupSt.update_ends s.toList (rginfo.replicas.map ServerInfo.key))
  have hd : s.rgroupUpdate newRgroup = s.rgroupUpdateWithGroupinfo rginfo := by
    rw [rgroupUpdate, hsame, rgroupUpdateWithGroupinfo]
  rw [rgroupUpdateWithGroupinfo] at hfree hd ⊢
  cases hr : s.update (rginfo.replicas.map ServerInfo.key) with
  | error e =>
    rw [hr] at hb hfree
    have he : e = .noServer := hb.2 ⟨hn, by simp [hnew], hv, hf⟩
    exact absurd (congrArg Except.error he) hfree
  | ok r =>
    obtain ⟨changed, s'⟩ := r
    rw [hr] at hb hd
    obtain ⟨⟨changed', st'⟩, ⟨hc, hs'⟩, -, -, hag, hf'⟩ := hb
    obtain ⟨hh, hp⟩ := hag hv
    refine ⟨changed, s', rfl, ⟨?_, ?_, hs'.wellFormed, hs'.seen⟩, ?_, hd⟩
    · rw [← hh, hs'.replicas, GroupSt.keys, head?_map, head?_eq_getElem?]
    · rw [hs'.keys]
      exact hp
    · rw [show changed = changed' from hc, hsl.keys, hmaster]
      rw [hnew] at hf'
      exact hf'

def serverAt (object : Nat) (host : Char) : Replica :=
  ⟨object, serverInit ⟨[ofChar host], rfl⟩ 1 0 .tcp⟩

/-- A group with the servers `a` and `b`, and a free server object. -/
def groupAB : SlotSt where
  groupname := [ofChar 'g']
  groupindex := 0
  weight := 1
  nreplica := 2
  replicas := fun i => [serverAt 0 'a', serverAt 1 'b'][i]?
  spare := ⟨[2], 1⟩
  seen := []

/-- The new master is `b`, and its slaves are `c` and `a`. -/
def descriptionBCA : RgroupInfo where
  groupname := [ofChar 'g']
  master := some ⟨[ofChar 'g'], [ofChar 'b'], 1, true, false⟩
  slaves := [⟨[ofChar 'g'], [ofChar 'c'], 1, false, false⟩, ⟨[ofChar 'g'], [ofChar 'a'], 1, false, false⟩]
  valid := true

theorem group_update_reaches_target_swap :
    ∃ changed s', groupAB.rgroupUpdateWithGroupinfo descriptionBCA = .ok (changed, s') ∧
      Reached s' (descriptionBCA.replicas.map ServerInfo.key) ∧ (changed = true ↔
        groupAB.keys.head? ≠ descriptionBCA.master.map ServerInfo.key ∨
          ¬groupAB.keys.tail.Perm (descriptionBCA.slaves.map ServerInfo.key)) ∧
      groupAB.rgroupUpdate { groupAB with
        nreplica := 3, replicas := fun i => [serverAt 0 'b', serverAt 1 'c', serverAt 2 'a'][i]? } =
        .ok (changed, s') := by
  have hs : WellFormed groupAB := by
    refine ⟨by decide, by decide, fun i hi => ?_, fun i hi => getElem?_eq_none hi⟩
    simpa [groupAB] using hi
  have ho : (groupAB.rgroupUpdateWithGroupinfo descriptionBCA).isOk = true := by decide
  refine group_update_reaches_target hs rfl rfl (by decide) (by decide) (fun he => ?_) (by decide)
  rw [he] at ho
  cases ho

end SlotSt

end ArcusClient
