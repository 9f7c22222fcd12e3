import ArcusClient.Rgroup.GroupSpec
import ArcusClient.Rgroup.InfoSpec

/-!
# Comparing the groups with a published list

The loop of `do_memcached_update_rgrouplist` walks over the groups of the client.  A group with a valid
description is updated at once, and its description is used up.  A group without a description is
marked dead.  A group whose description is invalid stays as it is (`matchRgroups_ends`, `MatchRoom`).
-/

namespace ArcusClient

open CString Reconcile Outcome List Function RgroupInfo

def Rgroup.keys (g : Rgroup) : List Addr := g.replicas.map Replica.key

theorem Rgroup.length_keys (g : Rgroup) : g.keys.length = g.nreplica := length_map ..

def RgroupInfo.keys (i : RgroupInfo) : List Addr := i.replicas.map ServerInfo.key

theorem RgroupInfo.length_keys (i : RgroupInfo) : i.keys.length = i.nreplica := by
  simp [keys, replicas, nreplica]

/-! ## Descriptions by name -/

def infoOf (infos : List RgroupInfo) (groupname : CStr) : Option RgroupInfo :=
  infos.find? fun i => groupname = i.groupname

/-- A description is used up when its group is among the given ones. -/
def RgroupInfo.retire (names : List CStr) (i : RgroupInfo) : RgroupInfo :=
  if i.groupname ∈ names then { i with valid := false } else i

@[simp] theorem RgroupInfo.retire_groupname (names : List CStr) (i : RgroupInfo) :
    (i.retire names).groupname = i.groupname := by
  rw [retire]
  split <;> rfl

theorem RgroupInfo.retire_valid (names : List CStr) (i : RgroupInfo) :
    (i.retire names).valid = (i.valid && decide (i.groupname ∉ names)) := by
  rw [retire]
  split
  · rename_i h
    simp [h]
  · rename_i h
    simp [h]

theorem RgroupInfo.retire_retire (n : CStr) (names : List CStr) (i : RgroupInfo) :
    (i.retire [n]).retire names = i.retire (n :: names) := by
  by_cases hn : i.groupname = n <;> by_cases hna : i.groupname ∈ names <;>
    simp_all [retire]

variable {n : CStr} {i : RgroupInfo}

theorem RgroupInfo.retire_cons_of_invalid
    (h : i.groupname = n → i.valid = false) (names : List CStr) :
    i.retire (n :: names) = i.retire names := by
  by_cases hn : i.groupname = n
  · obtain ⟨name, master, slaves, valid⟩ := i
    cases h hn
    rw [retire, retire]
    split <;> split <;> rfl
  · simp [retire, hn]

variable {infos : List RgroupInfo}

theorem mem_of_infoOf (h : infoOf infos n = some i) : i ∈ infos ∧ i.groupname = n := by
  refine ⟨mem_of_find?_eq_some h, ?_⟩
  have := find?_some h
  exact (of_decide_eq_true this).symm

theorem infoOf_eq_none_iff : infoOf infos n = none ↔ n ∉ infos.map RgroupInfo.groupname := by
  rw [infoOf, find?_eq_none, mem_map]
  constructor
  · rintro h ⟨i, hi, rfl⟩
    exact h i hi (decide_eq_true rfl)
  · intro h i hi he
    exact h ⟨i, hi, (of_decide_eq_true he).symm⟩

/-- With distinct names the description of a group is the only one of that name. -/
theorem infoOf_eq_some_iff (hn : (infos.map RgroupInfo.groupname).Nodup) :
    infoOf infos n = some i ↔ i ∈ infos ∧ i.groupname = n := by
  refine ⟨mem_of_infoOf, ?_⟩
  rintro ⟨hi, rfl⟩
  cases h : infoOf infos i.groupname with
  | none => exact absurd (mem_map_of_mem hi) (infoOf_eq_none_iff.1 h)
  | some j =>
    obtain ⟨hj, hna⟩ := mem_of_infoOf h
    rw [inj_on_of_nodup_map hn hj hi hna]

theorem infoOf_map_retire (h : n' ≠ n) (infos : List RgroupInfo) :
    infoOf (infos.map (RgroupInfo.retire [n])) n' = infoOf infos n' := by
  rw [infoOf, find?_map]
  simp only [comp_def, retire_groupname]
  change (infoOf infos n').map _ = _
  cases hi : infoOf infos n' with
  | none => rfl
  | some i =>
    have hn := (mem_of_infoOf hi).2
    have : i.retire [n] = i := if_neg (by simpa [hn] using h)
    rw [Option.map_some, this]

theorem map_retire_eq_self
    (h : ∀ i ∈ infos, i.groupname ∉ names) : infos.map (RgroupInfo.retire names) = infos :=
  (map_congr_left fun i hi => if_neg (h i hi)).trans (map_id infos)

theorem findGroupinfo_eq : ∀ {infos : List RgroupInfo}, (infos.map RgroupInfo.groupname).Nodup →
    findGroupinfo n infos = (infoOf infos n).map fun i => (i, infos.map (RgroupInfo.retire [n]))
  | [], _ => rfl
  | i :: infos, hno => by
    rw [map_cons, nodup_cons] at hno
    rw [findGroupinfo, infoOf, find?_cons, map_cons]
    by_cases hn : n = i.groupname
    · subst hn
      have hr : infos.map (retire [i.groupname]) = infos := by
        refine map_retire_eq_self fun j hj hna => hno.1 ?_
        rw [← mem_singleton.1 hna]
        exact mem_map_of_mem hj
      simp [hr, retire]
    · rw [if_neg hn, decide_eq_false hn, findGroupinfo_eq hno.2, Option.map_map, infoOf]
      have hs : i.retire [n] = i := if_neg (by simpa using Ne.symm hn)
      simp only [hs, comp_def]

/-! ## The loop -/

/-- What becomes of a group, and whether it is marked dead. -/
inductive Brought (lookup : CStr → Option RgroupInfo) (g : Rgroup) : Rgroup × Bool → Prop where
  | dead : lookup g.groupname = none → Brought lookup g (g, true)
  | kept {i : RgroupInfo} : lookup g.groupname = some i → i.valid = false →
      Brought lookup g (g, false)
  | updated {i : RgroupInfo} {g' : Rgroup} : lookup g.groupname = some i → i.valid = true →
      g'.groupname = g.groupname → g'.nreplica ≤ i.nreplica →
      ((∀ a ∈ i.keys, a.valid = true) → GroupSt.Agrees g'.keys i.keys) →
      Brought lookup g (g', false)

/-- There are objects for the updates of the groups one after the other, when so
many are free at first. -/
def MatchRoom (lookup : CStr → Option RgroupInfo) : (free : Nat) → List Rgroup → Prop
  | _, [] => True
  | free, g :: groups =>
    match lookup g.groupname with
    | none => MatchRoom lookup free groups
    | some i =>
      if i.valid then
        GroupSt.Room free g.keys i.keys ∧
          MatchRoom lookup (free + g.nreplica - i.nreplica) groups
      else MatchRoom lookup free groups

section Loop

variable {lookup : CStr → Option RgroupInfo} {g : Rgroup} {groups : List Rgroup} {free : Nat}

variable {i : RgroupInfo}

theorem matchRoom_cons_of_valid (hi : lookup g.groupname = some i) (hv : i.valid = true) :
    MatchRoom lookup free (g :: groups) ↔ GroupSt.Room free g.keys i.keys ∧
        MatchRoom lookup (free + g.nreplica - i.nreplica) groups := by
  rw [MatchRoom, hi]
  simp [hv]

theorem matchRoom_cons_of_not_valid (h : ∀ i, lookup g.groupname = some i → i.valid = false) :
    MatchRoom lookup free (g :: groups) ↔ MatchRoom lookup free groups := by
  rw [MatchRoom]
  cases hi : lookup g.groupname with
  | none => rfl
  | some i => simp [h i hi]

theorem MatchRoom.mono : ∀ {groups : List Rgroup} {free free' : Nat}, free ≤ free' →
    MatchRoom lookup free groups → MatchRoom lookup free' groups
  | [], _, _, _, _ => trivial
  | g :: groups, free, free', hl, h => by
    by_cases hva : ∃ i, lookup g.groupname = some i ∧ i.valid = true
    · obtain ⟨i, hi, hv⟩ := hva
      rw [matchRoom_cons_of_valid hi hv] at h ⊢
      exact ⟨h.1.mono hl, h.2.mono (by omega)⟩
    · have ho : ∀ i, lookup g.groupname = some i → i.valid = false := by
        simpa using hva
      rw [matchRoom_cons_of_not_valid ho] at h ⊢
      exact h.mono hl

def validServers (infos : List RgroupInfo) : Nat :=
  ((infos.filter RgroupInfo.valid).map RgroupInfo.nreplica).sum

def movingServers (lookup : CStr → Option RgroupInfo) (groups : List Rgroup) : Nat :=
  ((groups.filter fun g => (lookup g.groupname).all RgroupInfo.valid).map Rgroup.nreplica).sum

def deadServers (marked : Marked Rgroup) : Nat :=
  ((marked.filter Prod.snd).map fun e => e.1.nreplica).sum

structure MatchResult (lookup : CStr → Option RgroupInfo) (groups : List Rgroup)
    (infos : List RgroupInfo) (offset : UInt32) (free : Nat) (m : GroupMatch) : Prop where
  marked : List.Forall₂ (Brought lookup) groups m.marked
  groupinfo : m.groupinfo = infos.map (RgroupInfo.retire (groups.map Rgroup.groupname))
  validcount : m.validcount = UInt32.ofNat (m.groupinfo.countP RgroupInfo.valid) + offset
  /-- What is free at the end, or will be when the dead groups are pruned, covers what
  the remaining descriptions ask for if it did so for all at the start. -/
  objects : validServers m.groupinfo + (free + movingServers lookup groups)
    ≤ validServers infos + (m.spare.objects.length + deadServers m.marked)

theorem movingServers_cons_of_all (h : (lookup g.groupname).all RgroupInfo.valid = true) :
    movingServers lookup (g :: groups) = g.nreplica + movingServers lookup groups := by
  simp [movingServers, h]

variable {infos : List RgroupInfo} {offset : UInt32} {m : GroupMatch}

theorem MatchResult.cons_dead
    (h : MatchResult lookup groups infos offset free m) (hn : lookup g.groupname = none)
    (hin : ∀ i ∈ infos, i.groupname ≠ g.groupname) :
    MatchResult lookup (g :: groups) infos offset free
      { m with marked := (g, true) :: m.marked } where
  marked := .cons (.dead hn) h.marked
  groupinfo := by
    rw [h.groupinfo]
    refine map_congr_left fun i hi => (retire_cons_of_invalid ?_ _).symm
    exact fun hna => absurd hna (hin i hi)
  validcount := h.validcount
  objects := by
    have ho := h.objects
    have hd : deadServers ((g, true) :: m.marked) = g.nreplica + deadServers m.marked := rfl
    rw [movingServers_cons_of_all (by simp [hn])]
    simp only [hd]
    omega

theorem MatchResult.cons_kept (h : MatchResult lookup groups infos offset free m)
    (hi : lookup g.groupname = some i) (hv : i.valid = false)
    (hin : ∀ j ∈ infos, j.groupname = g.groupname → j.valid = false) :
    MatchResult lookup (g :: groups) infos offset free
      { m with marked := (g, false) :: m.marked } where
  marked := .cons (.kept hi hv) h.marked
  groupinfo := by
    rw [h.groupinfo]
    exact map_congr_left fun j hj => (retire_cons_of_invalid (hin j hj) _).symm
  validcount := h.validcount
  objects := by
    rw [movingServers, filter_cons_of_neg (by simp [hi, hv])]
    exact h.objects

theorem filter_valid_perm_cons (hn : (infos.map RgroupInfo.groupname).Nodup) (hi : i ∈ infos)
    (hv : i.valid = true) : (infos.filter RgroupInfo.valid).Perm
      (i :: (infos.map (RgroupInfo.retire [i.groupname])).filter RgroupInfo.valid) := by
  obtain ⟨before, after, rfl⟩ := append_of_mem hi
  rw [map_append, map_cons, nodup_middle, nodup_cons, ← map_append]
    at hn
  have ho : ∀ j ∈ before ++ after, j.groupname ∉ [i.groupname] := by
    intro j hj hna
    rw [← mem_singleton.1 hna] at hn
    exact hn.1 (mem_map_of_mem hj)
  have hs : ¬(i.retire [i.groupname]).valid = true := by simp [retire_valid]
  rw [map_append, map_cons, map_retire_eq_self fun j hj => ho j (mem_append_left _ hj),
    map_retire_eq_self fun j hj => ho j (mem_append_right _ hj),
    filter_append, filter_append, filter_cons_of_pos hv, filter_cons_of_neg hs]
  exact perm_middle

theorem MatchResult.cons_updated (hn : (infos.map RgroupInfo.groupname).Nodup) (hm : i ∈ infos)
    (hna : i.groupname = g.groupname)
    (h : MatchResult lookup groups (infos.map (RgroupInfo.retire [g.groupname])) offset st.free m)
    (hi : lookup g.groupname = some i) (hv : i.valid = true)
    (hf : GroupSt.Frame ⟨g, spare⟩ st) (hs : st.group.nreplica ≤ i.nreplica)
    (ha : (∀ a ∈ i.keys, a.valid = true) → GroupSt.Agrees st.group.keys i.keys) :
    MatchResult lookup (g :: groups) infos offset spare.objects.length
      { m with marked := (st.group, false) :: m.marked, changed := changed } where
  marked := .cons (.updated hi hv hf.groupname hs ha) h.marked
  groupinfo := by
    rw [h.groupinfo, map_map]
    exact map_congr_left fun i _ => retire_retire ..
  validcount := h.validcount
  objects := by
    have ho := h.objects
    have hb : st.free + st.group.nreplica = spare.objects.length + g.nreplica :=
      hf.objects
    have hsu : validServers infos
        = i.nreplica + validServers (infos.map (retire [g.groupname])) := by
      have := (filter_valid_perm_cons hn hm hv).map nreplica
      rw [validServers, this.sum_eq, map_cons, hna]
      rfl
    have hd : deadServers ((st.group, false) :: m.marked) = deadServers m.marked := rfl
    rw [movingServers_cons_of_all (by simp [hi, hv])]
    simp only [hd]
    omega

/-- The loop over the groups. -/
theorem matchRgroups_ends (lookup : CStr → Option RgroupInfo) (offset : UInt32) :
    ∀ (groups : List Rgroup) (infos : List RgroupInfo) (validcount : UInt32) (spare : SpareServers),
    (groups.map Rgroup.groupname).Nodup → (infos.map RgroupInfo.groupname).Nodup →
    (∀ g ∈ groups, infoOf infos g.groupname = lookup g.groupname) →
    validcount = UInt32.ofNat (infos.countP RgroupInfo.valid) + offset →
    Ends (fun e => e = .noServer → ¬MatchRoom lookup spare.objects.length groups)
      (MatchResult lookup groups infos offset spare.objects.length)
      (matchRgroups groups infos validcount spare)
  | [], infos, v, spare, _, _, _, hv => by
    refine ⟨.nil, ?_, hv, le_refl _⟩
    exact (map_retire_eq_self fun _ _ => not_mem_nil).symm
  | g :: groups, infos, v, spare, hgr, hin, hl, hv => by
    obtain ⟨hg, hgr⟩ := nodup_cons.1 hgr
    obtain ⟨hloo, hlook⟩ := forall_mem_cons.1 hl
    rw [matchRgroups, findGroupinfo_eq hin]
    cases hi : infoOf infos g.groupname with
    | none =>
      -- no description, the group dies
      rw [hi] at hloo
      have hn := infoOf_eq_none_iff.1 hi
      refine (matchRgroups_ends lookup offset groups infos v spare hgr hin hlook hv).andThen (fun e he hno => ?_) fun m hm => ?_
      · rw [matchRoom_cons_of_not_valid (by simp [← hloo])]
        exact he hno
      · refine hm.cons_dead hloo.symm fun i hme hna => hn ?_
        exact hna ▸ mem_map_of_mem hme
    | some i =>
      obtain ⟨hme, hna⟩ := mem_of_infoOf hi
      rw [hi] at hloo
      simp only [Option.map_some]
      cases hva : i.valid with
      | false =>
        -- an invalid description, the group stays
        simp only [Bool.false_eq_true, if_false]
        refine (matchRgroups_ends lookup offset groups infos v spare hgr hin hlook
          hv).andThen (fun e he hno => ?_) fun m hm => ?_
        · rw [matchRoom_cons_of_not_valid (by simpa [← hloo] using hva)]
          exact he hno
        · refine hm.cons_kept hloo.symm hva fun j hj hjn => ?_
          rwa [inj_on_of_nodup_map hin hj hme (hjn.trans hna.symm)]
      | true =>
        simp only [if_true]
        refine (GroupSt.update_ends ⟨g, spare⟩ i.keys).andThen (fun e he hno => ?_) ?_
        · rw [matchRoom_cons_of_valid hloo.symm hva]
          exact fun hr => he.1 hno hr.1
        · rintro ⟨changed, st⟩ ⟨hf, hle, ha, -⟩
          have hs : st.group.nreplica ≤ i.nreplica := by
            rwa [GroupSt.length_keys, length_keys] at hle
          have hl' : ∀ g' ∈ groups,
              infoOf (infos.map (retire [g.groupname])) g'.groupname
                = lookup g'.groupname := by
            intro g' hg'
            have hne : g'.groupname ≠ g.groupname := fun heq =>
              hg (heq ▸ mem_map_of_mem hg')
            rw [infoOf_map_retire hne]
            exact hlook g' hg'
          have hnam : ((infos.map (retire [g.groupname])).map groupname).Nodup := by
            simpa [comp_def] using hin
          have hv' : v - 1 = UInt32.ofNat ((infos.map
              (retire [g.groupname])).countP valid) + offset := by
            have hc := (filter_valid_perm_cons hin hme hva).length_eq
            rw [length_cons, ← countP_eq_length_filter, hna] at hc
            rw [hv, hc, UInt32.ofNat_add]
            grind
          refine (matchRgroups_ends lookup offset groups _ (v - 1) st.spare hgr hnam
            hl' hv').andThen (fun e he hno => ?_) fun m hm => ?_
          · rw [matchRoom_cons_of_valid hloo.symm hva]
            refine fun hr => he hno (hr.2.mono ?_)
            have ho : st.spare.objects.length + st.group.nreplica
                = spare.objects.length + g.nreplica := hf.objects
            omega
          · exact hm.cons_updated hin hme hna hloo.symm hva hf hs ha

end Loop

end ArcusClient
