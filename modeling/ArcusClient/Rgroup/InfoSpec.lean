import ArcusClient.Rgroup.Model

/-!
# What a published list says about groups

* The description of a group comes from the entries of that group alone, in their order (`describe`),
  and every name has one description.
* The count that is returned is the number of valid descriptions, minus the number of groups that were
  found faulty before a master was accepted: those are counted off twice (`rgroupInfoCreate_count`).
-/

namespace ArcusClient

open List RgroupInfo

/-! ## The entries of one group -/

def describe : List ServerInfo → Option RgroupInfo
  | [] => none
  | entry :: rest => some (rest.foldl addServerInfo (newRgroupInfo entry))

abbrev entriesOf (groupname : CString.CStr) (serverinfo : List ServerInfo) : List ServerInfo :=
  serverinfo.filter fun entry => entry.groupname = groupname

@[simp] theorem newRgroupInfo_groupname (entry : ServerInfo) :
    (newRgroupInfo entry).groupname = entry.groupname := by
  rw [newRgroupInfo]
  split <;> rfl

@[simp] theorem newRgroupInfo_valid (entry : ServerInfo) : (newRgroupInfo entry).valid = true := by
  rw [newRgroupInfo]
  split <;> rfl

@[simp] theorem addServerInfo_groupname (g : RgroupInfo) (entry : ServerInfo) :
    (addServerInfo g entry).groupname = g.groupname := by
  rw [addServerInfo]
  split_ifs <;> rfl

variable {g : RgroupInfo}

theorem addServerInfo_of_invalid (h : g.valid = false) (entry : ServerInfo) :
    addServerInfo g entry = g := by
  rw [addServerInfo, h]
  rfl

theorem describe_append (h : describe entries = some g) (entry : ServerInfo) :
    describe (entries ++ [entry]) = some (addServerInfo g entry) := by
  cases entries with
  | nil => cases h
  | cons first rest =>
    cases h
    rw [cons_append, describe, foldl_append]
    rfl

/-! ## Faults before a master -/

/-- A group is found faulty while it has no master: a third slave comes before any
master, or the first master has the address of a slave before it. -/
def faultyBeforeMaster (slaves : List ServerInfo) : List ServerInfo → Bool
  | [] => false
  | entry :: rest =>
    if entry.master then slaves.any fun s => s.key = entry.key
    else decide (rgroupMaxReplica ≤ slaves.length + 1) || faultyBeforeMaster (slaves ++ [entry]) rest

abbrev RgroupInfo.twiceInvalid (g : RgroupInfo) : Bool := !g.valid && g.master.isNone

theorem foldl_addServerInfo_of_invalid (h : g.valid = false) :
    ∀ entries : List ServerInfo, entries.foldl addServerInfo g = g
  | [] => rfl
  | entry :: rest => by
    rw [foldl_cons, addServerInfo_of_invalid h, foldl_addServerInfo_of_invalid h rest]

theorem master_foldl_addServerInfo : ∀ (entries : List ServerInfo) {g : RgroupInfo},
    g.master.isSome = true → (entries.foldl addServerInfo g).master.isSome = true
  | [], _, h => h
  | entry :: rest, g, h => by
    refine master_foldl_addServerInfo rest ?_
    rw [addServerInfo]
    split_ifs <;> exact h

theorem not_twiceInvalid_foldl (h : g.master.isSome = true)
    (entries : List ServerInfo) : (entries.foldl addServerInfo g).twiceInvalid = false := by
  rw [twiceInvalid,
    Option.isNone_eq_false_iff.2 (master_foldl_addServerInfo entries h), Bool.and_false]

/-- The faults of a group that has only slaves so far. -/
theorem twiceInvalid_foldl (groupname : CString.CStr) : ∀ entries slaves : List ServerInfo,
    (entries.foldl addServerInfo ⟨groupname, none, slaves, true⟩).twiceInvalid
      = faultyBeforeMaster slaves entries
  | [], _ => rfl
  | entry :: rest, slaves => by
    rw [foldl_cons, addServerInfo, faultyBeforeMaster]
    cases hm : entry.master with
    | true =>
      cases hd : slaves.any fun s => s.key = entry.key with
      | true =>
        simp only [Option.isSome_none]
        rw [foldl_addServerInfo_of_invalid rfl]
        rfl
      | false => exact not_twiceInvalid_foldl rfl rest
    | false =>
      simp only [Bool.not_true, Bool.false_eq_true, if_false]
      by_cases hf : rgroupMaxReplica ≤ slaves.length + 1
      · rw [if_pos hf, foldl_addServerInfo_of_invalid rfl, decide_eq_true hf]
        rfl
      · rw [if_neg hf, twiceInvalid_foldl groupname rest, decide_eq_false hf, Bool.false_or]

/-- A description is faulty and without a master when the fault came first. -/
theorem twiceInvalid_of_describe
    (h : describe entries = some g) : g.twiceInvalid = faultyBeforeMaster [] entries := by
  cases entries with
  | nil => cases h
  | cons entry rest =>
    cases h
    rw [newRgroupInfo, faultyBeforeMaster]
    cases hm : entry.master with
    | true => exact not_twiceInvalid_foldl rfl rest
    | false => exact twiceInvalid_foldl entry.groupname rest [entry]

/-! ## The loop over the entries -/

/-- What the loop knows about the entries it has read. -/
structure Described (seen : List ServerInfo) (groups : List RgroupInfo) (validNgroup : UInt32) :
    Prop where
  nodup : (groups.map RgroupInfo.groupname).Nodup
  mem_iff : ∀ n, n ∈ groups.map RgroupInfo.groupname ↔ n ∈ seen.map ServerInfo.groupname
  describe : ∀ g ∈ groups, describe (entriesOf g.groupname seen) = some g
  count : validNgroup = UInt32.ofNat (groups.countP RgroupInfo.valid)

variable {entry : ServerInfo}

/-- The entry of a new group is appended. -/
theorem addEntry_of_not_mem : ∀ {groups : List RgroupInfo} (v : UInt32),
    entry.groupname ∉ groups.map RgroupInfo.groupname →
    addEntry entry groups v = (groups ++ [newRgroupInfo entry], v + 1)
  | [], _, _ => rfl
  | g :: groups, v, h => by
    rw [map_cons, mem_cons, not_or] at h
    rw [addEntry, if_neg h.1, addEntry_of_not_mem v h.2, cons_append]

/-- The description of a known group is brought up to date. -/
theorem addEntry_of_mem : ∀ {groups : List RgroupInfo} (v : UInt32),
    entry.groupname ∈ groups.map RgroupInfo.groupname →
    ∃ before g after, groups = before ++ g :: after ∧ entry.groupname = g.groupname ∧
      addEntry entry groups v = (before ++ addServerInfo g entry :: after,
        if g.valid && !(addServerInfo g entry).valid then v - 1 else v)
  | g :: groups, v, h => by
    by_cases hn : entry.groupname = g.groupname
    · exact ⟨[], g, groups, rfl, hn, by rw [addEntry, if_pos hn]; rfl⟩
    · rw [map_cons, mem_cons, or_iff_right hn] at h
      obtain ⟨before, g', after, rfl, hn', ha⟩ := addEntry_of_mem v h
      exact ⟨g :: before, g', after, rfl, hn', by rw [addEntry, if_neg hn, ha]; rfl⟩

theorem entriesOf_append_of_ne (h : entry.groupname ≠ n)
    (seen : List ServerInfo) : entriesOf n (seen ++ [entry]) = entriesOf n seen := by
  simp [h]

theorem entriesOf_append_self (entry : ServerInfo) (seen : List ServerInfo) :
    entriesOf entry.groupname (seen ++ [entry]) = entriesOf entry.groupname seen ++ [entry] := by
  simp

variable {seen : List ServerInfo} {groups : List RgroupInfo} {v : UInt32}

/-- A group that an entry does not belong to is described as before. -/
theorem Described.describe_other (h : Described seen groups v) (hg : g ∈ groups)
    (hn : entry.groupname ≠ g.groupname) :
    ArcusClient.describe (entriesOf g.groupname (seen ++ [entry])) = some g := by
  rw [entriesOf_append_of_ne hn]
  exact h.describe g hg

theorem Described.append_new (h : Described seen groups v)
    (hn : entry.groupname ∉ groups.map RgroupInfo.groupname) :
    Described (seen ++ [entry]) (groups ++ [newRgroupInfo entry]) (v + 1) where
  nodup := by
    rw [map_append, map_singleton]
    exact h.nodup.append (nodup_singleton _) (by simpa using hn)
  mem_iff n := by
    rw [map_append, mem_append, h.mem_iff, map_append]
    simp
  describe g hg := by
    rcases mem_append.1 hg with hg | hg
    · refine h.describe_other hg fun heq => hn ?_
      rw [heq]
      exact mem_map_of_mem hg
    · rw [mem_singleton.1 hg, newRgroupInfo_groupname, entriesOf_append_self]
      rw [h.mem_iff] at hn
      have hno : entriesOf entry.groupname seen = [] := by
        rw [filter_eq_nil_iff]
        intro e he heq
        exact hn (of_decide_eq_true heq ▸ mem_map_of_mem he)
      rw [hno]
      rfl
  count := by
    rw [countP_append, h.count, countP_singleton]
    simp

theorem Described.set_known {before after : List RgroupInfo}
    (h : Described seen (before ++ g :: after) v) (hna : entry.groupname = g.groupname) :
    Described (seen ++ [entry]) (before ++ addServerInfo g entry :: after)
      (if g.valid && !(addServerInfo g entry).valid then v - 1 else v) := by
  have hnam : (before ++ addServerInfo g entry :: after).map groupname
      = (before ++ g :: after).map groupname := by simp
  refine ⟨hnam ▸ h.nodup, fun n => ?_, fun x hx => ?_, ?_⟩
  · rw [hnam, h.mem_iff, map_append, mem_append]
    constructor
    · exact Or.inl
    · rintro (hn | hn)
      · exact hn
      · rw [map_singleton, mem_singleton] at hn
        rw [hn, hna, ← h.mem_iff]
        simp
  · -- the names are distinct, so the other descriptions are of other groups
    have ho : ∀ x ∈ before ++ after, entry.groupname ≠ x.groupname := by
      intro x hx he
      have hno := h.nodup
      rw [map_append, map_cons, nodup_middle, nodup_cons, ← map_append]
        at hno
      exact hno.1 (hna ▸ he ▸ mem_map_of_mem hx)
    rcases mem_append.1 hx with hx | hx
    · exact h.describe_other (mem_append_left _ hx) (ho x (mem_append_left _ hx))
    · rcases mem_cons.1 hx with rfl | hx
      · have hg := h.describe g (by simp)
        rw [← hna] at hg
        rw [addServerInfo_groupname, ← hna, entriesOf_append_self]
        exact describe_append hg entry
      · exact h.describe_other (by simp [hx]) (ho x (mem_append_right _ hx))
  · rw [h.count]
    simp only [countP_append, countP_cons]
    cases hv : g.valid with
    | false => simp [addServerInfo_of_invalid hv, hv]
    | true =>
      cases hv' : (addServerInfo g entry).valid with
      | true => simp
      | false => simp [← add_assoc]

theorem Described.addEntry (h : Described seen groups v) (entry : ServerInfo) :
    Described (seen ++ [entry]) (addEntry entry groups v).1 (addEntry entry groups v).2 := by
  by_cases hm : entry.groupname ∈ groups.map groupname
  · obtain ⟨before, g, after, rfl, hn, ha⟩ := addEntry_of_mem v hm
    rw [ha]
    exact h.set_known hn
  · rw [addEntry_of_not_mem v hm]
    exact h.append_new hm

theorem Described.addEntries : ∀ (entries : List ServerInfo) {seen : List ServerInfo}
    {groups : List RgroupInfo} {v : UInt32}, Described seen groups v →
    Described (seen ++ entries) (addEntries entries groups v).1 (addEntries entries groups v).2
  | [], seen, _, _, h => by rwa [append_nil]
  | entry :: rest, seen, _, _, h => by
    have := addEntries rest (h.addEntry entry)
    rwa [append_assoc, singleton_append] at this

theorem described (serverinfo : List ServerInfo) :
    Described serverinfo (addEntries serverinfo [] 0).1 (addEntries serverinfo [] 0).2 := by
  have hs : Described [] [] 0 := ⟨nodup_nil, by simp, by simp, rfl⟩
  exact hs.addEntries serverinfo

/-! ## The result -/

def RgroupInfo.checked (g : RgroupInfo) : RgroupInfo :=
  if g.master.isNone then { g with valid := false } else g

@[simp] theorem RgroupInfo.checked_groupname (g : RgroupInfo) :
    g.checked.groupname = g.groupname := by
  rw [checked]
  split <;> rfl

theorem checkMasters_eq : ∀ (groups : List RgroupInfo) (v : UInt32),
    checkMasters groups v = (groups.map RgroupInfo.checked,
      v - UInt32.ofNat (groups.countP fun g => g.master.isNone))
  | [], v => by simp [checkMasters]
  | g :: groups, v => by
    rw [checkMasters, map_cons, countP_cons, checked]
    cases h : g.master.isNone with
    | true =>
      simp only [if_true, checkMasters_eq groups, UInt32.ofNat_add, Prod.mk.injEq]
      grind
    | false => simp only [Bool.false_eq_true, if_false, checkMasters_eq groups, Nat.add_zero]

theorem rgroupInfoCreate_eq (serverinfo : List ServerInfo) :
    rgroupInfoCreate serverinfo = ((addEntries serverinfo [] 0).1.map RgroupInfo.checked,
      (addEntries serverinfo [] 0).2
        - UInt32.ofNat ((addEntries serverinfo [] 0).1.countP fun g => g.master.isNone)) :=
  checkMasters_eq ..

theorem nodup_rgroupInfoCreate (serverinfo : List ServerInfo) :
    ((rgroupInfoCreate serverinfo).1.map RgroupInfo.groupname).Nodup := by
  rw [rgroupInfoCreate_eq]
  simpa [Function.comp_def] using (described serverinfo).nodup

theorem master_of_valid
    (hg : g ∈ (rgroupInfoCreate serverinfo).1) (hv : g.valid = true) : g.master.isSome = true := by
  rw [rgroupInfoCreate_eq] at hg
  obtain ⟨g, -, rfl⟩ := mem_map.1 hg
  rw [checked] at hv ⊢
  split at hv
  · cases hv
  · rename_i h
    rwa [if_neg h, ← Option.not_isNone, Bool.not_eq_true', ← Bool.not_eq_true]

def faultyCount (serverinfo : List ServerInfo) : Nat :=
  (serverinfo.map ServerInfo.groupname).dedup.countP fun n =>
    faultyBeforeMaster [] (entriesOf n serverinfo)

theorem groupnames_perm (serverinfo : List ServerInfo) :
    ((addEntries serverinfo [] 0).1.map RgroupInfo.groupname).Perm
      (serverinfo.map ServerInfo.groupname).dedup := by
  have h := described serverinfo
  refine (perm_ext_iff_of_nodup h.nodup (nodup_dedup _)).2 fun n => ?_
  rw [h.mem_iff, mem_dedup]

theorem length_rgroupInfoCreate (serverinfo : List ServerInfo) :
    (rgroupInfoCreate serverinfo).1.length =
    (serverinfo.map ServerInfo.groupname).dedup.length := by
  rw [← (groupnames_perm serverinfo).length_eq, rgroupInfoCreate_eq, length_map, length_map]

theorem countP_twiceInvalid (serverinfo : List ServerInfo) :
    (addEntries serverinfo [] 0).1.countP RgroupInfo.twiceInvalid = faultyCount serverinfo := by
  rw [faultyCount, ← (groupnames_perm serverinfo).countP_eq, countP_map]
  refine countP_congr fun g hg => ?_
  rw [twiceInvalid_of_describe ((described serverinfo).describe g hg)]
  rfl

/-- A group without a master leaves the valid ones in the last pass, or has left them
before and is counted off once more. -/
theorem countP_checked : ∀ groups : List RgroupInfo,
    (groups.map RgroupInfo.checked).countP RgroupInfo.valid
        + groups.countP (fun g => g.master.isNone)
      = groups.countP RgroupInfo.valid + groups.countP RgroupInfo.twiceInvalid
  | [] => rfl
  | g :: groups => by
    have ih := countP_checked groups
    rw [map_cons, countP_cons, countP_cons, countP_cons, countP_cons, twiceInvalid, checked]
    cases hm : g.master.isNone <;> cases hv : g.valid <;>
      simp only [hv, Bool.not_true, Bool.not_false, Bool.and_false, Bool.and_true,
        if_true, if_false, Bool.false_eq_true] <;>
      omega

theorem rgroupInfoCreate_count (serverinfo : List ServerInfo) : (rgroupInfoCreate serverinfo).2
      = UInt32.ofNat ((rgroupInfoCreate serverinfo).1.countP RgroupInfo.valid)
        - UInt32.ofNat (faultyCount serverinfo) := by
  have h := congrArg UInt32.ofNat (countP_checked (addEntries serverinfo [] 0).1)
  rw [countP_twiceInvalid, UInt32.ofNat_add, UInt32.ofNat_add] at h
  rw [rgroupInfoCreate_eq, (described serverinfo).count]
  grind

/-- `validcount` is right if and only if no group is found faulty before it has a master. -/
theorem validcount_counts_valid_iff (serverinfo : List ServerInfo)
    (hcount : serverinfo.length < 2 ^ 32) :
    ((rgroupInfoCreate serverinfo).1.length = (serverinfo.map ServerInfo.groupname).dedup.length ∧
      (rgroupInfoCreate serverinfo).2.toNat =
        (rgroupInfoCreate serverinfo).1.countP RgroupInfo.valid) ↔
    ∀ entry ∈ serverinfo, faultyBeforeMaster [] (entriesOf entry.groupname serverinfo) = false := by
  have hn : (serverinfo.map ServerInfo.groupname).dedup.length ≤ serverinfo.length :=
    (dedup_sublist _).length_le.trans_eq (length_map _)
  have hv : (rgroupInfoCreate serverinfo).1.countP valid < 2 ^ 32 :=
    (countP_le_length.trans_eq (length_rgroupInfoCreate serverinfo)).trans_lt (hn.trans_lt hcount)
  have hf : faultyCount serverinfo < 2 ^ 32 := countP_le_length.trans_lt (hn.trans_lt hcount)
  have hno : faultyCount serverinfo = 0 ↔
      ∀ entry ∈ serverinfo, faultyBeforeMaster [] (entriesOf entry.groupname serverinfo) = false := by
    simp [faultyCount]
  rw [and_iff_right (length_rgroupInfoCreate serverinfo), ← hno, rgroupInfoCreate_count, UInt32.toNat_sub,
    UInt32.toNat_ofNat_of_lt' hv, UInt32.toNat_ofNat_of_lt' hf]
  omega

/-- A server of the group `g`. -/
def serverOfG (master : Bool) (port : UInt16) : ServerInfo :=
  ⟨[CString.ofChar 'g'], [CString.ofChar 'a'], port, master, false⟩

/-- A group with a master and a slave, and a group with two masters, which is not valid. -/
def groupsGH : List ServerInfo :=
  [serverOfG true 1, ⟨[CString.ofChar 'h'], [CString.ofChar 'a'], 1, true, false⟩, serverOfG false 2,
    ⟨[CString.ofChar 'h'], [CString.ofChar 'a'], 2, true, false⟩]

theorem validcount_counts_valid_two : (rgroupInfoCreate groupsGH).1.length = 2 ∧
    (rgroupInfoCreate groupsGH).2.toNat = 1 ∧
      (rgroupInfoCreate groupsGH).1.countP RgroupInfo.valid = 1 := by
  have hv : (rgroupInfoCreate groupsGH).1.countP RgroupInfo.valid = 1 := by decide
  obtain ⟨hl, hc⟩ := (validcount_counts_valid_iff groupsGH (by decide)).2 (by decide)
  exact ⟨hl.trans (by decide), hc.trans hv, hv⟩

/-- The third slave is one too many, and then a master is missing.  The group is counted off twice. -/
theorem validcount_wraps_around :
    (rgroupInfoCreate ([1, 2, 3].map (serverOfG false))).2.toNat = 2 ^ 32 - 1 ∧
      (rgroupInfoCreate ([1, 2, 3].map (serverOfG false))).1.countP RgroupInfo.valid = 0 := by decide

end ArcusClient
