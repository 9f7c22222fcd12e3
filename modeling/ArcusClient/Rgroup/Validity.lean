import ArcusClient.Rgroup.InfoSpec

/-!
# Which groups are valid

ZooKeeper gives the names in no fixed order.  A group should be valid if it has one master, at most
three servers, and no address twice (`Legal`).  But addresses are compared only when the master comes,
with the slaves before it (`Accepted`).  The two agree, in every order, for the lists in which no group
of the right form has an address twice (`validity_by_contents_iff`).
-/

namespace ArcusClient

open List

/-! ## The two conditions -/

def MarkedValid (serverinfo : List ServerInfo) (groupname : CString.CStr) : Prop :=
  ∃ g ∈ (rgroupInfoCreate serverinfo).1, g.groupname = groupname ∧ g.valid = true

structure Legal (entries : List ServerInfo) : Prop where
  oneMaster : entries.countP ServerInfo.master = 1
  length_le : entries.length ≤ rgroupMaxReplica
  nodup : (entries.map ServerInfo.key).Nodup

def AcceptedAfter (slaves entries : List ServerInfo) : Prop :=
  ∃ before master after, entries = before ++ master :: after ∧ master.master = true ∧
    (∀ e ∈ before ++ after, e.master = false) ∧
    slaves.length + (before ++ after).length < rgroupMaxReplica ∧
    ∀ s ∈ slaves ++ before, s.key ≠ master.key

abbrev Accepted (entries : List ServerInfo) : Prop := AcceptedAfter [] entries

/-! ## What the loop accepts -/

/-- With a master, only slaves may follow, as long as there is room. -/
theorem valid_foldl_of_master (groupname : CString.CStr) (master : ServerInfo) :
    ∀ entries slaves : List ServerInfo, slaves.length < rgroupMaxReplica →
      ((entries.foldl addServerInfo ⟨groupname, some master, slaves, true⟩).valid = true ↔
        (∀ e ∈ entries, e.master = false) ∧ slaves.length + entries.length < rgroupMaxReplica)
  | [], slaves, hr => by simpa using hr
  | entry :: rest, slaves, hr => by
    rw [foldl_cons, addServerInfo]
    cases hm : entry.master with
    | true =>
      simp only [Bool.not_true, Bool.false_eq_true, if_false, if_true, Option.isSome_some]
      rw [foldl_addServerInfo_of_invalid rfl]
      simp [hm]
    | false =>
      by_cases hf : rgroupMaxReplica ≤ slaves.length + 1
      · simp only [Bool.not_true, Bool.false_eq_true, if_false, if_pos hf]
        rw [foldl_addServerInfo_of_invalid rfl]
        simp
        omega
      · simp only [Bool.not_true, Bool.false_eq_true, if_false, if_neg hf]
        rw [valid_foldl_of_master groupname master rest (slaves ++ [entry])
          (by rw [length_append, length_singleton]; omega)]
        simp [hm]
        omega

/-- A group with a master passes the last check as it is. -/
theorem checked_foldl_of_master (groupname : CString.CStr) (master : ServerInfo)
    (entries slaves : List ServerInfo) :
    (entries.foldl addServerInfo ⟨groupname, some master, slaves, true⟩).checked =
      entries.foldl addServerInfo ⟨groupname, some master, slaves, true⟩ := by
  rw [RgroupInfo.checked, Option.isNone_eq_false_iff.2 (master_foldl_addServerInfo entries rfl)]
  rfl

variable {slaves : List ServerInfo}

theorem acceptedAfter_cons_master
    (hm : entry.master = true) : AcceptedAfter slaves (entry :: rest) ↔
      (∀ s ∈ slaves, s.key ≠ entry.key) ∧ (∀ e ∈ rest, e.master = false) ∧
        slaves.length + rest.length < rgroupMaxReplica := by
  constructor
  · rintro ⟨before, master, after, he, hma, ho, hl, hk⟩
    cases before with
    | nil =>
      cases he
      exact ⟨by simpa using hk, ho, hl⟩
    | cons first before =>
      cases he
      have hf := ho entry (by simp)
      rw [hm] at hf
      cases hf
  · rintro ⟨hk, ho, hl⟩
    exact ⟨[], entry, rest, rfl, hm, ho, hl, by simpa using hk⟩

theorem acceptedAfter_cons_slave (hm : entry.master = false) :
    AcceptedAfter slaves (entry :: rest) ↔ AcceptedAfter (slaves ++ [entry]) rest := by
  constructor
  · rintro ⟨before, master, after, heq, hma, ho, hl, hk⟩
    cases before with
    | nil =>
      cases heq
      rw [hm] at hma
      cases hma
    | cons first before =>
      cases heq
      refine ⟨before, master, after, rfl, hma, fun e he => ho e (by simp_all), ?_, ?_⟩
      · simp only [length_append, length_cons, length_nil] at hl ⊢
        omega
      · simpa using hk
  · rintro ⟨before, master, after, rfl, hma, ho, hl, hk⟩
    refine ⟨entry :: before, master, after, rfl, hma, ?_, ?_, by simpa using hk⟩
    · exact forall_mem_cons.2 ⟨hm, ho⟩
    · simp only [length_append, length_cons] at hl ⊢
      omega

/-- Without a master so far: the slaves are counted, and the master is compared with them. -/
theorem checked_foldl_of_slaves (groupname : CString.CStr) :
    ∀ entries slaves : List ServerInfo, slaves.length < rgroupMaxReplica →
      ((entries.foldl addServerInfo ⟨groupname, none, slaves, true⟩).checked.valid = true ↔
        AcceptedAfter slaves entries)
  | [], slaves, _ => by simp [RgroupInfo.checked, AcceptedAfter]
  | entry :: rest, slaves, hr => by
    rw [foldl_cons, addServerInfo]
    cases hm : entry.master with
    | true =>
      rw [acceptedAfter_cons_master hm]
      by_cases hd : (slaves.any fun s => s.key = entry.key) = true
      · simp only [Bool.not_true, Bool.false_eq_true, if_false, Option.isSome_none, if_pos hd]
        rw [foldl_addServerInfo_of_invalid rfl]
        obtain ⟨s, hs, hk⟩ := any_eq_true.1 hd
        simp only [RgroupInfo.checked, Option.isNone_none, if_true, Bool.false_eq_true, false_iff]
        exact fun h => h.1 s hs (of_decide_eq_true hk)
      · simp only [Bool.not_true, Bool.false_eq_true, if_false, if_true, Option.isSome_none,
          if_neg hd]
        rw [checked_foldl_of_master, valid_foldl_of_master groupname entry rest slaves hr]
        have hkey : ∀ s ∈ slaves, s.key ≠ entry.key := by simpa using hd
        exact (and_iff_right hkey).symm
    | false =>
      rw [acceptedAfter_cons_slave hm]
      by_cases hf : rgroupMaxReplica ≤ slaves.length + 1
      · simp only [Bool.not_true, Bool.false_eq_true, if_false, if_pos hf]
        rw [foldl_addServerInfo_of_invalid rfl]
        simp only [RgroupInfo.checked, Option.isNone_none, if_true, Bool.false_eq_true, false_iff]
        rintro ⟨before, master, after, -, -, -, hl, -⟩
        rw [length_append, length_singleton] at hl
        omega
      · simp only [if_neg hf]
        exact checked_foldl_of_slaves groupname rest (slaves ++ [entry])
          (by rw [length_append, length_singleton]; omega)

variable {entries : List ServerInfo}

theorem checked_of_describe
    (h : describe entries = some g) : g.checked.valid = true ↔ Accepted entries := by
  cases entries with
  | nil => cases h
  | cons entry rest =>
    cases h
    rw [newRgroupInfo]
    cases hm : entry.master with
    | true =>
      rw [Accepted, acceptedAfter_cons_master hm, if_pos rfl, checked_foldl_of_master,
        valid_foldl_of_master entry.groupname entry rest [] (by decide)]
      simp
    | false =>
      rw [Accepted, acceptedAfter_cons_slave hm]
      exact checked_foldl_of_slaves entry.groupname rest [entry] (by simp [rgroupMaxReplica])

theorem markedValid_iff (serverinfo : List ServerInfo) (groupname : CString.CStr) :
    MarkedValid serverinfo groupname ↔ Accepted (entriesOf groupname serverinfo) := by
  have hd := described serverinfo
  rw [MarkedValid, rgroupInfoCreate_eq]
  constructor
  · rintro ⟨g', hg', rfl, hv⟩
    obtain ⟨g, hg, rfl⟩ := mem_map.1 hg'
    rw [RgroupInfo.checked_groupname]
    exact (checked_of_describe (hd.describe g hg)).1 hv
  · intro ha
    have hm : groupname ∈ serverinfo.map ServerInfo.groupname := by
      obtain ⟨before, master, after, he, -⟩ := ha
      have hma : master ∈ entriesOf groupname serverinfo := by simp [he]
      obtain ⟨hin, hn⟩ := mem_filter.1 hma
      exact of_decide_eq_true hn ▸ mem_map_of_mem hin
    obtain ⟨g, hg, rfl⟩ := mem_map.1 ((hd.mem_iff groupname).2 hm)
    exact ⟨g.checked, mem_map_of_mem hg, g.checked_groupname,
      (checked_of_describe (hd.describe g hg)).2 ha⟩

/-! ## The order of the entries -/

theorem Legal.perm (hp : entries.Perm entries') (h : Legal entries) : Legal entries' where
  oneMaster := hp.countP_eq _ ▸ h.oneMaster
  length_le := hp.length_eq ▸ h.length_le
  nodup := (hp.map _).nodup_iff.1 h.nodup

theorem exists_master (h : entries.countP ServerInfo.master = 1) :
    ∃ before master after, entries = before ++ master :: after ∧ master.master = true ∧
      ∀ e ∈ before ++ after, e.master = false := by
  obtain ⟨master, hm, hma⟩ := countP_pos_iff.1 (h ▸ Nat.one_pos)
  obtain ⟨before, after, rfl⟩ := append_of_mem hm
  refine ⟨before, master, after, rfl, hma, ?_⟩
  rw [countP_append, countP_cons_of_pos hma] at h
  have hn : (before ++ after).countP ServerInfo.master = 0 := by
    rw [countP_append]
    omega
  simpa using countP_eq_zero.1 hn

theorem Legal.accepted (h : Legal entries) : Accepted entries := by
  obtain ⟨before, master, after, rfl, hm, ho⟩ := exists_master h.oneMaster
  have hl := h.length_le
  have hn := h.nodup
  simp only [length_append, length_cons] at hl
  rw [map_append, map_cons, nodup_middle, nodup_cons, ← map_append] at hn
  refine ⟨before, master, after, rfl, hm, ho, ?_, fun s hs he => hn.1 ?_⟩
  · rw [length_append, length_nil]
    omega
  · rw [← he]
    exact mem_map_of_mem (mem_append_left _ hs)

theorem Accepted.form (h : Accepted entries) :
    entries.countP ServerInfo.master = 1 ∧ entries.length ≤ rgroupMaxReplica := by
  obtain ⟨before, master, after, rfl, hm, ho, hl, -⟩ := h
  have hn : (before ++ after).countP ServerInfo.master = 0 :=
    countP_eq_zero.2 fun e he => by simp [ho e he]
  rw [countP_append] at hn
  rw [countP_append, countP_cons_of_pos hm]
  simp only [length_append, length_cons] at hl ⊢
  omega

/-- With its master in front, every group of the right form is accepted. -/
theorem accepted_of_master_first (hm : master.master = true) (hs : ∀ e ∈ slaves, e.master = false)
    (hl : slaves.length < rgroupMaxReplica) : Accepted (master :: slaves) :=
  ⟨[], master, slaves, rfl, hm, hs, by simpa using hl, by simp⟩

/-- Which groups are valid depends on the entries alone, and they are the legal ones. -/
def ValidByContents (serverinfo : List ServerInfo) : Prop :=
  ∀ serverinfo' : List ServerInfo, serverinfo'.Perm serverinfo → ∀ groupname,
    (MarkedValid serverinfo' groupname ↔ MarkedValid serverinfo groupname) ∧
      (MarkedValid serverinfo' groupname ↔ Legal (entriesOf groupname serverinfo'))

/-- This is so for the lists in which no group with one master and at most three servers has an
address twice. -/
theorem validity_by_contents_iff (serverinfo : List ServerInfo) : ValidByContents serverinfo ↔
      ∀ groupname, (entriesOf groupname serverinfo).countP ServerInfo.master = 1 →
        (entriesOf groupname serverinfo).length ≤ rgroupMaxReplica →
        ((entriesOf groupname serverinfo).map ServerInfo.key).Nodup := by
  constructor
  · intro h groupname ho hl
    obtain ⟨before, master, after, heq, hm, hot⟩ := exists_master ho
    have hme : master ∈ serverinfo :=
      (mem_filter.1 (show master ∈ entriesOf groupname serverinfo by simp [heq])).1
    have hn : master.groupname = groupname := of_decide_eq_true
      (mem_filter.1 (show master ∈ entriesOf groupname serverinfo by simp [heq])).2
    -- the same list with the master in front
    have hp : (master :: serverinfo.erase master).Perm serverinfo :=
      (perm_cons_erase hme).symm
    have hen := hp.filter fun entry => decide (entry.groupname = groupname)
    have hf : entriesOf groupname (master :: serverinfo.erase master) =
        master :: entriesOf groupname (serverinfo.erase master) := by
      simp [hn]
    have hr : (entriesOf groupname (serverinfo.erase master)).Perm (before ++ after) := by
      refine Perm.cons_inv (a := master) ?_
      rw [← hf]
      exact (hen.trans (by rw [← heq])).trans perm_middle
    have ha : Accepted (entriesOf groupname (master :: serverinfo.erase master)) := by
      rw [hf]
      refine accepted_of_master_first hm (fun e he => hot e (hr.mem_iff.1 he)) ?_
      rw [hr.length_eq]
      rw [heq] at hl
      simp only [length_append, length_cons] at hl ⊢
      omega
    have hleg := (h _ hp groupname).2.1 ((markedValid_iff ..).2 ha)
    exact (hleg.perm hen).nodup
  · intro h serverinfo' hp groupname
    -- a group is accepted, in any order, if it is legal
    have hif : ∀ list : List ServerInfo, list.Perm serverinfo →
        (MarkedValid list groupname ↔ Legal (entriesOf groupname list)) := by
      intro list hli
      rw [markedValid_iff]
      refine ⟨fun ha => ?_, Legal.accepted⟩
      have hen := hli.filter fun entry => decide (entry.groupname = groupname)
      obtain ⟨ho, hl⟩ := ha.form
      refine ⟨ho, hl, (hen.map _).nodup_iff.2 (h groupname ?_ ?_)⟩
      · rw [← hen.countP_eq]
        exact ho
      · rw [← hen.length_eq]
        exact hl
    refine ⟨?_, hif serverinfo' hp⟩
    rw [hif serverinfo' hp, hif serverinfo (Perm.refl _)]
    have hen := hp.filter fun entry => decide (entry.groupname = groupname)
    exact ⟨Legal.perm hen, Legal.perm hen.symm⟩

/-- An entry for a server of the group `g` at the address `a:1`. -/
def entryOfG (master : Bool) : ServerInfo :=
  ⟨[CString.ofChar 'g'], [CString.ofChar 'a'], 1, master, false⟩

/-- A slave at the address of its master is found if it comes first, and not if the master does. -/
theorem validity_depends_on_order :
    MarkedValid [entryOfG true, entryOfG false] [CString.ofChar 'g'] ∧
      ¬MarkedValid [entryOfG false, entryOfG true] [CString.ofChar 'g'] ∧
      ¬Legal [entryOfG true, entryOfG false] ∧
      ¬ValidByContents [entryOfG true, entryOfG false] := by
  have hf : MarkedValid [entryOfG true, entryOfG false] [CString.ofChar 'g'] :=
    ⟨⟨[CString.ofChar 'g'], some (entryOfG true), [entryOfG false], true⟩, by decide, rfl, rfl⟩
  have hl : ¬MarkedValid [entryOfG false, entryOfG true] [CString.ofChar 'g'] := by
    unfold MarkedValid
    decide
  refine ⟨hf, hl, fun h => absurd h.nodup (by decide), fun h => hl ?_⟩
  exact ((h [entryOfG false, entryOfG true] (Perm.swap ..) _).1).2 hf

end ArcusClient
