import ArcusClient.Rgroup.Update
import ArcusClient.Hosts.ListSpec
import ArcusClient.Lib.Outcome

/-!
# What the updates do to a group

An update is given the addresses that the group should have, the master first.  It makes the new
master, then removes the slaves that are not wanted, and then inserts those that are missing.

For each function there is one statement about how it ends.  If it returns, the group keeps its name
and its place (`Frame`), its servers are those asked for (`Agrees`), and a flag tells if the master or
the slaves have changed.  It leaves out the servers whose host names do not fit.  If it fails for want
of a server object, there was no room for one: an object is in the group or on the free list
(`Frame.balance`, `Room`).  No other failure occurs where the indices are in range (`Fails`).
-/

namespace ArcusClient

open CString Reconcile Outcome List Replica

/-! ## Names that fit -/

def Addr.valid (a : Addr) : Bool := isValidServername a.hostname

abbrev goodAddrs (addrs : List Addr) : List Addr := addrs.filter Addr.valid

theorem Replica.key_valid (r : Replica) : r.key.valid = true := r.server.hostname.2

namespace GroupSt

def keys (st : GroupSt) : List Addr := st.group.replicas.map Replica.key

def free (st : GroupSt) : Nat := st.spare.objects.length

theorem length_keys (st : GroupSt) : st.keys.length = st.group.nreplica := length_map ..

/-- The objects of the group and of the free list. -/
def held (st : GroupSt) : List Nat := st.group.replicas.map Replica.object ++ st.spare.objects

/-- The servers know the place of their group. -/
def InPlace (st : GroupSt) : Prop :=
  ∀ r ∈ st.group.replicas, r.server.groupindex = st.group.groupindex

/-- The group keeps its name, its place and its weight, and an object is in the
group or on the free list. -/
structure Frame (st st' : GroupSt) : Prop where
  groupname : st'.group.groupname = st.group.groupname
  groupindex : st'.group.groupindex = st.group.groupindex
  weight : st'.group.weight = st.group.weight
  held : st'.held.Perm st.held
  navail : st.spare.navail = st.spare.objects.length →
    st'.spare.navail = st'.spare.objects.length
  inPlace : st.InPlace → st'.InPlace

theorem Frame.refl (st : GroupSt) : Frame st st := ⟨rfl, rfl, rfl, .refl _, id, id⟩

theorem Frame.trans (h : Frame st₁ st₂) (h' : Frame st₂ st₃) : Frame st₁ st₃ :=
  ⟨h'.groupname.trans h.groupname, h'.groupindex.trans h.groupindex, h'.weight.trans h.weight,
    h'.held.trans h.held, h'.navail ∘ h.navail, h'.inPlace ∘ h.inPlace⟩

theorem Frame.objects (h : Frame st st') : st'.spare.objects.length + st'.group.nreplica
      = st.spare.objects.length + st.group.nreplica := by
  have hl := h.held.length_eq
  rwa [GroupSt.held, GroupSt.held, length_append, length_append, length_map, length_map,
    Nat.add_comm, Nat.add_comm st.group.replicas.length] at hl

theorem Frame.balance (h : Frame st st') :
    st'.free + st'.keys.length = st.free + st.keys.length := by
  rw [length_keys, length_keys]
  exact h.objects

/-- A failure for want of an object if there is `noObject`, and no other one if what is
asked for `fits`. -/
def Fails (noObject fits : Prop) (e : Fault) : Prop :=
  (e = .noServer → noObject) ∧ (fits → e = .noServer)

theorem Fails.imp {p p' q q' : Prop} (h : Fails p q e) (hp : p → p') (hq : q' → q) :
    Fails p' q' e :=
  ⟨fun he => hp (h.1 he), fun hf => h.2 (hq hf)⟩

theorem fails_of_not {p q : Prop} (he : e ≠ .noServer) (hq : ¬q) : Fails p q e :=
  ⟨fun h => absurd h he, fun h => absurd h hq⟩

/-! ## One server -/

/-- A new object is the first of the free list, and is told the place of the group. -/
theorem create_ends (st : GroupSt) (hostname : Hostname) (port : UInt16) :
    Ends (fun e => e = .noServer ∧ st.free = 0)
      (fun r => r.1.key = ⟨hostname, port⟩ ∧ st.spare.objects = r.1.object :: r.2.objects ∧
        r.2.navail = st.spare.navail - 1 ∧ r.1.server.groupindex = (st.group.groupindex : Int))
      (st.create hostname port) := by
  rw [create, doRgroupServerAlloc, free]
  cases st.spare.objects with
  | nil => exact ⟨rfl, rfl⟩
  | cons object rest => exact ⟨rfl, rfl, rfl, rfl⟩

/-- A server is inserted, or left out when its name does not fit. -/
theorem insert_ends (st : GroupSt) (sindex : Option Nat) (a : Addr) :
    Ends (Fails (a.valid = true ∧ st.free = 0)
        (st.keys.length < rgroupMaxReplica ∧ sindex.getD 0 ≤ st.keys.length))
      (fun st' => Frame st st' ∧ sindex.getD st.group.nreplica ≤ st.group.nreplica ∧
        if a.valid then st'.keys = st.keys.insertIdx (sindex.getD st.group.nreplica) a
        else st' = st) (st.insert sindex a) := by
  rw [length_keys]
  by_cases hf : rgroupMaxReplica ≤ st.group.nreplica
  · rw [insert, if_pos hf]
    exact fails_of_not (by decide) fun h => absurd hf (not_le.2 h.1)
  by_cases hin : st.group.nreplica < sindex.getD 0
  · rw [insert, if_neg hf, if_pos hin]
    exact fails_of_not (by decide) fun h => absurd hin (not_lt.2 h.2)
  have hl : sindex.getD st.group.nreplica ≤ st.group.nreplica := by
    cases sindex with
    | none => exact le_refl _
    | some i => simpa using hin
  rw [insert, if_neg hf, if_neg hin]
  by_cases hg : a.valid = true
  · have hn : isValidServername a.hostname = true := hg
    rw [dif_pos hn]
    refine (create_ends st ⟨a.hostname, hn⟩ a.port).andThen
      (fun e he => ⟨fun _ => ⟨hg, he.2⟩, fun _ => he.1⟩) ?_
    rintro ⟨server, spare⟩ ⟨hk, ho, hna, hin⟩
    refine ⟨⟨rfl, rfl, rfl, ?_, fun h => ?_, fun h r hr => ?_⟩, hl, ?_⟩
    · have hp := (perm_insertIdx server st.group.replicas hl).map object
      rw [held, held, ho]
      exact (hp.append_right spare.objects).trans perm_middle.symm
    · rw [hna, h, ho]
      rfl
    · rcases eq_or_mem_of_mem_insertIdx hr with rfl | hr
      · exact hin
      · exact h r hr
    · rw [if_pos hg]
      simp only [keys, map_insertIdx, hk]
  · have hn : ¬isValidServername a.hostname = true := hg
    rw [dif_neg hn]
    refine ⟨Frame.refl st, hl, ?_⟩
    rw [if_neg hg]

theorem not_lt_of_none {st : GroupSt} (h : st.group.replicas[sindex]? = none) :
    ¬sindex < st.keys.length := by
  rw [length_keys]
  exact not_lt.2 (getElem?_eq_none_iff.1 h)

theorem remove_ends (st : GroupSt) (sindex : Nat) : Ends (Fails False (sindex < st.keys.length))
      (fun st' => Frame st st' ∧ sindex < st.keys.length ∧ st'.keys = st.keys.eraseIdx sindex)
      (st.remove sindex) := by
  rw [remove]
  cases h : st.group.replicas[sindex]? with
  | none => exact fails_of_not (by decide) (not_lt_of_none h)
  | some server =>
    have hl : sindex < st.keys.length := by
      rw [length_keys]
      exact (List.getElem?_eq_some_iff.1 h).1
    have hk : (st.group.replicas.eraseIdx sindex).map key = st.keys.eraseIdx sindex := by
      simp only [keys, eraseIdx_map]
    obtain ⟨hlt, hse⟩ := List.getElem?_eq_some_iff.1 h
    refine ⟨⟨rfl, rfl, rfl, ?_, fun hn => congrArg (· + 1) hn,
      fun hin r hr => hin r (mem_of_mem_eraseIdx hr)⟩, hl, hk⟩
    have hp := (getElem_cons_eraseIdx_perm hlt).map object
    rw [hse] at hp
    exact perm_middle.trans (hp.append_right st.spare.objects)

/-- A server is replaced, unless the name of the new one does not fit.  Between the
two an object more is in use. -/
theorem replace_ends (st : GroupSt) (sindex : Nat) (a : Addr) :
    Ends (Fails (a.valid = true ∧ st.free = 0) (sindex < st.keys.length))
      (fun st' => Frame st st' ∧ st'.keys = if a.valid then st.keys.set sindex a else st.keys)
      (st.replace sindex a) := by
  rw [replace]
  cases h : st.group.replicas[sindex]? with
  | none => exact fails_of_not (by decide) (not_lt_of_none h)
  | some old =>
    simp only
    by_cases hg : a.valid = true
    · have hn : isValidServername a.hostname = true := hg
      rw [dif_pos hn]
      refine (create_ends st ⟨a.hostname, hn⟩ a.port).andThen
        (fun e he => ⟨fun _ => ⟨hg, he.2⟩, fun _ => he.1⟩) ?_
      rintro ⟨server, spare⟩ ⟨hk, ho, hna, hin⟩
      have hkey : (st.group.replicas.set sindex server).map key
          = st.keys.set sindex a := by
        simp only [keys, map_set, hk]
      obtain ⟨hlt, hse⟩ := List.getElem?_eq_some_iff.1 h
      refine ⟨⟨rfl, rfl, rfl, ?_, fun h => ?_, fun h r hr => ?_⟩, ?_⟩
      · -- the old server and the new one have changed places
        have hn := (set_perm_cons_eraseIdx hlt server).map object
        have hg := (getElem_cons_eraseIdx_perm hlt).map object
        rw [hse] at hg
        rw [held, held, ho]
        refine (hn.append_right _).trans (.trans ?_ (hg.append_right _))
        exact (perm_middle.cons server.object).trans
          ((Perm.swap _ _ _).trans (perm_middle.symm.cons old.object))
      · rw [doRgroupServerFree, hna, h, ho]
        rfl
      · rcases mem_or_eq_of_mem_set hr with hr | rfl
        · exact h r hr
        · exact hin
      · rw [if_pos hg]
        exact hkey
    · have hn : ¬isValidServername a.hostname = true := hg
      rw [dif_neg hn]
      refine ⟨Frame.refl st, ?_⟩
      rw [if_neg hg]

theorem switchover_ends (st : GroupSt) (sindex : Nat) :
    Ends (Fails False (sindex ≠ 0 ∧ sindex < st.keys.length))
      (fun st' => Frame st st' ∧ ∃ master slave,
        st.keys[0]? = some master ∧ st.keys[sindex]? = some slave ∧
          st'.keys = (st.keys.set 0 slave).set sindex master) (st.switchover sindex) := by
  rw [switchover]
  by_cases hz : sindex = 0 ∨ st.group.replicas.length ≤ sindex
  · rw [swapMaster_eq_none hz]
    refine fails_of_not (by decide) fun h => ?_
    rw [length_keys] at h
    exact hz.elim h.1 (not_le.2 h.2)
  · obtain ⟨hn, hl⟩ := not_or.1 hz
    have hlt : sindex < st.group.replicas.length := not_le.1 hl
    have h0 : 0 < st.group.replicas.length := Nat.zero_lt_of_lt hlt
    have hp := set_set_perm h0 hlt
    rw [swapMaster_eq_some h0 (Nat.pos_of_ne_zero hn) hlt]
    refine ⟨⟨rfl, rfl, rfl, (hp.map object).append_right _, id,
      fun h r hr => h r (hp.mem_iff.1 hr)⟩, st.group.replicas[0].key,
      st.group.replicas[sindex].key, ?_, ?_, ?_⟩
    · simp [keys, h0]
    · simp [keys, hlt]
    · simp [keys]

theorem switchover_spare (st : GroupSt) (sindex : Nat) :
    Ends (fun _ => True) (fun st' => st'.spare = st.spare) (st.switchover sindex) := by
  rw [switchover]
  cases swapMaster st.group.replicas sindex with
  | none => trivial
  | some replicas => rfl

/-! ## The loops -/

theorem removeLast_ends : ∀ (count : Nat) (st : GroupSt),
    Ends (Fails False (count < st.keys.length))
      (fun st' => Frame st st' ∧ st'.keys = st.keys.take (st.keys.length - count))
      (st.removeLast count)
  | 0, st => ⟨Frame.refl st, by simp⟩
  | count + 1, st => by
    rw [removeLast]
    have hr := remove_ends st (st.group.nreplica - 1)
    rw [← length_keys] at hr ⊢
    refine hr.andThen (fun e he => he.imp id fun _ => by omega) fun st₁ => ?_
    rintro ⟨hf, hl, hk⟩
    -- the last server is gone
    have ht : st₁.keys = st.keys.take (st.keys.length - 1) := by
      rw [hk, eraseIdx_eq_take_drop_succ, Nat.sub_add_cancel (by omega), drop_length,
        append_nil]
    have hl₁ : st₁.keys.length = st.keys.length - 1 := by
      rw [ht, length_take]
      omega
    refine (removeLast_ends count st₁).imp (fun e he => he.imp id fun _ => by omega) fun st₂ => ?_
    rintro ⟨hf', hk'⟩
    refine ⟨hf.trans hf', ?_⟩
    rw [hk', hl₁, ht, take_take]
    congr 1
    omega

/-- An insertion that is not in the middle is one at the end. -/
theorem insert_end_ends (st : GroupSt)
    (hen : ∀ i ∈ sindex, st.keys.length ≤ i) (a : Addr) : Ends (Fails (st.free = 0)
        (st.keys.length < rgroupMaxReplica ∧ sindex.getD 0 ≤ st.keys.length))
      (fun st' => Frame st st' ∧ st'.keys = st.keys ++ goodAddrs [a]) (st.insert sindex a) := by
  refine (insert_ends st sindex a).imp (fun e he => he.imp And.right id) fun st' => ?_
  rintro ⟨hf, hin, hk⟩
  rw [← length_keys] at hin hk
  have hl : sindex.getD st.keys.length = st.keys.length := by
    cases sindex with
    | none => rfl
    | some i => exact le_antisymm hin (hen i rfl)
  refine ⟨hf, ?_⟩
  cases ha : a.valid with
  | true =>
    rw [if_pos ha, hl, insertIdx_length_self] at hk
    rw [hk, goodAddrs, filter_cons_of_pos ha, filter_nil]
  | false =>
    rw [if_neg (by simp [ha])] at hk
    rw [hk, goodAddrs, filter_cons_of_neg (by simp [ha]), filter_nil,
      append_nil]

/-- One server at the end and then the others: what a loop of insertions adds up to. -/
theorem insert_then_ends {α : Type}
    (hen : ∀ i ∈ sindex, st.keys.length ≤ i) (a : Addr) (addrs : List Addr) {fits : Prop}
    (hfi : fits → st.keys.length < rgroupMaxReplica ∧ sindex.getD 0 ≤ st.keys.length)
    {f : α → GroupSt} {rest : GroupSt → Except Fault α}
    (hr : ∀ st₁ : GroupSt, st₁.keys = st.keys ++ goodAddrs [a] →
      Ends (Fails (st₁.free < addrs.length) fits)
        (fun r => Frame st₁ (f r) ∧ (f r).keys = st₁.keys ++ goodAddrs addrs) (rest st₁)) :
    Ends (Fails (st.free < (a :: addrs).length) fits)
      (fun r => Frame st (f r) ∧ (f r).keys = st.keys ++ goodAddrs (a :: addrs))
      (st.insert sindex a >>= rest) := by
  refine (insert_end_ends st hen a).andThen (fun e he => he.imp (fun h => by simp [h]) hfi)
    fun st₁ => ?_
  rintro ⟨hf, hk⟩
  refine (hr st₁ hk).imp (fun e he => he.imp (fun h => ?_) id) fun r => ?_
  · have hl : st₁.keys.length ≤ st.keys.length + 1 := by
      rw [hk, length_append]
      exact Nat.add_le_add_left (length_filter_le ..) _
    have := hf.balance
    rw [length_cons]
    omega
  · rintro ⟨hf', hk'⟩
    refine ⟨hf.trans hf', ?_⟩
    rw [hk', hk, append_assoc, ← filter_append, singleton_append]

theorem insertFrom_ends : ∀ (addrs : List Addr) (st : GroupSt) (sindex : Nat),
    st.keys.length ≤ sindex → Ends (Fails (st.free < addrs.length) (sindex = st.keys.length ∧
        (∀ a ∈ addrs, a.valid = true) ∧ st.keys.length + addrs.length ≤ rgroupMaxReplica))
      (fun st' => Frame st st' ∧ st'.keys = st.keys ++ goodAddrs addrs) (st.insertFrom sindex addrs)
  | [], st, _, _ => ⟨Frame.refl st, (append_nil _).symm⟩
  | a :: addrs, st, sindex, hl => by
    rw [insertFrom, length_cons]
    refine insert_then_ends (fun i hi => ?_) a addrs (fun hf => ⟨by omega, by simp [hf.1]⟩)
      (f := id) fun st₁ hk => ?_
    · cases hi
      exact hl
    have hle : st₁.keys.length = st.keys.length + (goodAddrs [a]).length := by
      rw [hk, length_append]
    have hg : (goodAddrs [a]).length ≤ 1 := length_filter_le ..
    refine (insertFrom_ends addrs st₁ (sindex + 1) (by omega)).imp
      (fun e he => he.imp id fun hf => ?_) fun _ h => h
    obtain ⟨hv, hvs⟩ := forall_mem_cons.1 hf.2.1
    rw [goodAddrs, filter_cons_of_pos hv, filter_nil, length_singleton] at hle
    exact ⟨by omega, hvs, by omega⟩

abbrev pendingAddrs (marked : List (Addr × Bool)) : List Addr := pending Prod.snd Prod.fst marked

theorem claimAddr_spec (a : Addr) (marked : List (Addr × Bool)) :
    (a ∉ pendingAddrs marked ∧ claim Prod.snd (fun e => (e.1, true)) Prod.fst a marked = none) ∨
      ∃ marked', a ∈ pendingAddrs marked ∧
        claim Prod.snd (fun e => (e.1, true)) Prod.fst a marked = some marked' ∧
        pendingAddrs marked' = (pendingAddrs marked).erase a :=
  claim_spec (fun _ => rfl) a marked

/-- The old slaves that are among the new ones stay, each for an entry of its own.  The flag
tells if one of them has left. -/
theorem removeSlaves_ends : ∀ (slaves : List Replica) (st : GroupSt) (marked : List (Addr × Bool))
    (before : List Addr), st.keys = before ++ slaves.map Replica.key → Ends (fun _ => False)
      (fun r => Frame st r.2.1 ∧ r.2.1.keys = before ++
          (survivors Replica.key slaves (pendingAddrs marked)).map Replica.key ∧
        pendingAddrs r.2.2 = (pendingAddrs marked).diff (slaves.map Replica.key) ∧
        (r.1 = true ↔ survivors Replica.key slaves (pendingAddrs marked) ≠ slaves))
      (st.removeSlaves before.length slaves marked)
  | [], st, marked, before, hke =>
    ⟨Frame.refl st, by simpa [survivors] using hke, rfl, by simp [survivors]⟩
  | slave :: rest, st, marked, before, hke => by
    rw [removeSlaves, map_cons, diff_cons]
    rcases claimAddr_spec slave.key marked with ⟨hk, hn⟩ | ⟨marked', hk, hs, hp⟩
    · -- the slave leaves, and the next one takes its index
      rw [hn, survivors_cons_of_not_mem hk, erase_of_not_mem hk]
      have hl : before.length < st.keys.length := by simp [hke]
      refine (remove_ends st before.length).andThen (fun e he => he.1 (he.2 hl)) fun st₁ => ?_
      rintro ⟨hf, -, hk₁⟩
      have hr : st₁.keys = before ++ rest.map key := by
        rw [hk₁, hke, eraseIdx_append_of_length_le (le_refl _), Nat.sub_self]
        rfl
      refine (removeSlaves_ends rest st₁ marked before hr).bind ?_
      rintro ⟨removed, st₂, marked₂⟩ ⟨hf', hk', hp', -⟩
      refine ⟨hf.trans hf', hk', hp', fun _ heq => ?_, fun _ => rfl⟩
      -- a list is not as long as with one more
      have hle := (survivors_sublist key rest (pendingAddrs marked)).length_le
      rw [heq, length_cons] at hle
      omega
    · rw [hs, survivors_cons_of_mem hk]
      have hr : st.keys = (before ++ [slave.key]) ++ rest.map key := by
        rw [hke, map_cons, append_assoc, singleton_append]
      have ih := removeSlaves_ends rest st marked' _ hr
      rw [length_append, hp] at ih
      refine ih.imp (fun _ he => he) ?_
      rintro r ⟨hf', hk', hp', hfl⟩
      refine ⟨hf', ?_, hp', ?_⟩
      · rw [hk', append_assoc, singleton_append, map_cons]
      · rw [hfl, ne_eq, ne_eq, cons.injEq, and_iff_right rfl]

theorem insertSlaves_ends : ∀ (marked : List (Addr × Bool)) (st : GroupSt),
    Ends (Fails (st.free < (pendingAddrs marked).length)
        (st.keys.length + (pendingAddrs marked).length ≤ rgroupMaxReplica))
      (fun r => Frame st r.2 ∧ r.2.keys = st.keys ++ goodAddrs (pendingAddrs marked))
      (st.insertSlaves marked)
  | [], st => ⟨Frame.refl st, by simp [pending]⟩
  | (a, true) :: rest, st => by
    rw [pendingAddrs]
    exact insertSlaves_ends rest st
  | (a, false) :: rest, st => by
    rw [pendingAddrs, pending_cons_of_free rfl]
    refine insert_then_ends (by simp) a _ (fun hf => ?_) (f := Prod.snd) fun st₁ hk => ?_
    · rw [length_cons] at hf
      exact ⟨by omega, Nat.zero_le _⟩
    · refine (insertSlaves_ends rest st₁).andThen (fun e he => he.imp id fun hf => ?_) ?_
      · have hg : (goodAddrs [a]).length ≤ 1 := length_filter_le ..
        rw [length_cons] at hf
        rw [hk, length_append, pendingAddrs]
        omega
      · rintro ⟨inserted, st₂⟩ h
        exact h

/-- The flag of the loop over the new slaves tells if one of them is inserted. -/
theorem insertSlaves_flag : ∀ (marked : List (Addr × Bool)) (st : GroupSt),
    Ends (fun _ => True) (fun r => r.1 = true ↔ pendingAddrs marked ≠ []) (st.insertSlaves marked)
  | [], _ => by simp [insertSlaves, pending]
  | (a, true) :: rest, st => by
    rw [pendingAddrs]
    exact insertSlaves_flag rest st
  | (a, false) :: rest, st => by
    rw [pendingAddrs, pending_cons_of_free rfl, insertSlaves]
    exact .seq fun _ => .seq fun _ => by simp

/-! ## The update of a group -/

/-- The update puts the new master first, unless its name does not fit.  The flag tells if it
was another one. -/
theorem updateMaster_ends (st : GroupSt) (newMaster : Addr) :
    Ends (Fails (newMaster ∉ st.keys ∧ st.free = 0) (st.keys ≠ []))
      (fun r => Frame st r.2 ∧ r.2.keys.length = st.keys.length ∧
        (newMaster.valid = true → r.2.keys.head? = some newMaster) ∧
        (r.1 = true ↔ st.keys.head? ≠ some newMaster) ∧ (r.1 = false → r.2 = st))
      (st.updateMaster newMaster) := by
  rw [updateMaster]
  cases hr : st.group.replicas with
  | nil => exact fails_of_not (by decide) fun h => h (by rw [keys, hr, map_nil])
  | cons master slaves =>
    have hk : st.keys = master.key :: slaves.map key := by rw [keys, hr, map_cons]
    by_cases hs : master.key = newMaster
    · simp only [if_pos hs]
      have hh : st.keys.head? = some newMaster := by rw [hk, hs]; rfl
      exact ⟨Frame.refl st, rfl, fun _ => hh, by simp [hh], fun _ => rfl⟩
    · simp only [if_neg hs]
      have hh : st.keys.head? ≠ some newMaster := by simpa [hk] using hs
      cases hf : slaves.findIdx? fun r => r.key = newMaster with
      | some i =>
        -- the new master is a slave so far
        obtain ⟨hi, hsl, -⟩ := findIdx?_eq_some_iff_getElem.1 hf
        refine (switchover_ends st (i + 1)).andThen
          (fun e he => he.imp False.elim fun _ => ⟨Nat.succ_ne_zero i, by simpa [hk] using hi⟩)
          fun st₁ => ?_
        rintro ⟨hfr, old, new, -, hn, hk₁⟩
        have hn' : new = newMaster := by
          simpa [hk, hi, of_decide_eq_true hsl] using hn.symm
        refine ⟨hfr, by simp [hk₁], fun _ => ?_, ⟨fun _ => hh, fun _ => rfl⟩, Bool.noConfusion⟩
        simp [hk₁, hk, hn']
      | none =>
        have hno : newMaster ∉ st.keys := by
          simp only [findIdx?_eq_none_iff, decide_eq_false_iff_not] at hf
          simp only [hk, mem_cons, mem_map, not_or, not_exists, not_and]
          exact ⟨Ne.symm hs, hf⟩
        refine (replace_ends st 0 newMaster).andThen
          (fun e he => he.imp (fun h => ⟨hno, h.2⟩) length_pos_iff.2) fun st₁ => ?_
        rintro ⟨hfr, hk₁⟩
        refine ⟨hfr, ?_, fun hv => ?_, ⟨fun _ => hh, fun _ => rfl⟩, Bool.noConfusion⟩
        · rw [hk₁]
          split <;> simp
        · simp [hk₁, hv, hk]

def Agrees (keys new : List Addr) : Prop := keys.head? = new.head? ∧ keys.Perm new

/-- The free objects and those of a group suffice for the servers of a description. -/
structure Room (free : Nat) (keys new : List Addr) : Prop where
  /-- A new master is made while the old one is still there. -/
  master : ∀ a ∈ new.head?, a ∉ keys → 0 < free
  total : new.length ≤ free + keys.length

theorem Room.mono {free free' : Nat} {keys new : List Addr} (hl : free ≤ free')
    (h : Room free keys new) : Room free' keys new :=
  ⟨fun a ha hn => (h.master a ha hn).trans_le hl, h.total.trans (Nat.add_le_add_right hl _)⟩

/-- What is left of the old slaves and the new slaves that join: no more than there
are new slaves, and all of them when the names fit. -/
theorem slaves_spec (slaves : List Replica) (newSlaves : List Addr) :
    let kept := (survivors key slaves newSlaves).map key
    let joining := newSlaves.diff (slaves.map key)
    kept.length + joining.length = newSlaves.length ∧
      ((∀ a ∈ newSlaves, a.valid = true) → (kept ++ goodAddrs joining).Perm newSlaves) := by
  have hp := survivors_append_diff_perm key slaves newSlaves
  refine ⟨by rw [← length_append, hp.length_eq], fun hv => ?_⟩
  rwa [goodAddrs, filter_eq_self.2 fun a ha => hv a ((diff_subset _ _) ha)]

theorem replaceMaster_ends (newMaster : Addr)
    (hk : st.keys = [master.key]) : Ends (Fails (newMaster ∉ st.keys ∧ st.free = 0) True)
      (fun st' => Frame st st' ∧ st'.keys.length = 1 ∧
        (newMaster.valid = true → st'.keys = [newMaster])) (st.replaceMaster master newMaster) := by
  rw [replaceMaster]
  by_cases hs : master.key = newMaster
  · rw [if_pos hs]
    exact ⟨Frame.refl st, by rw [hk]; rfl, fun _ => by rw [hk, hs]⟩
  · rw [if_neg hs]
    have hn : newMaster ∉ st.keys := by simpa [hk] using Ne.symm hs
    refine (replace_ends st 0 newMaster).imp
      (fun e he => he.imp (fun h => ⟨hn, h.2⟩) fun _ => by simp [hk]) fun st' => ?_
    rintro ⟨hf, hk'⟩
    refine ⟨hf, ?_, fun hv => by simp [hk', hv, hk]⟩
    rw [hk', hk]
    split <;> rfl

/-- The slaves are brought in line.  The flag is also set when all of them leave. -/
theorem updateSlaves_ends (newSlaves : List Addr) (hn : st.keys ≠ []) :
    Ends (Fails (st.free + st.keys.length < newSlaves.length + 1)
        (newSlaves.length < rgroupMaxReplica))
      (fun r => Frame st r.2 ∧ r.2.keys.length ≤ newSlaves.length + 1 ∧
        (∀ newMaster, st.keys.head? = some newMaster → (∀ a ∈ newSlaves, a.valid = true) →
          Agrees r.2.keys (newMaster :: newSlaves)) ∧
        (r.1 = true ↔ newSlaves = [] ∨ ¬st.keys.tail.Perm newSlaves))
      (st.updateSlaves newSlaves) := by
  rw [updateSlaves]
  cases hr : st.group.replicas with
  | nil => exact absurd (by simp [keys, hr]) hn
  | cons master slaves =>
    have hk : st.keys = [master.key] ++ slaves.map key := by simp [keys, hr]
    have hh : ∀ newMaster, st.keys.head? = some newMaster → newMaster = master.key := by
      simp [hk]
    by_cases hno : newSlaves = []
    · -- only the master stays
      subst hno
      have hni : st.group.nreplica = slaves.length + 1 := by rw [Rgroup.nreplica, hr]; rfl
      refine (removeLast_ends (st.group.nreplica - 1) st).andThen
        (fun e he => he.imp False.elim fun _ => by simp [hni, hk]) fun st₁ => ?_
      rintro ⟨hf, hk₁⟩
      have ho : st₁.keys = [master.key] := by
        rw [hk₁, hni, hk]
        simp
      refine ⟨hf, by simp [ho], fun newMaster hm _ => ?_, by simp⟩
      rw [hh newMaster hm]
      exact ⟨by rw [ho], by rw [ho]⟩
    rw [if_neg (by simpa using hno)]
    have hp : pendingAddrs (newSlaves.map fun a => (a, false)) = newSlaves := by
      simp [pending, filter_map, Function.comp_def]
    obtain ⟨hl, ha⟩ := slaves_spec slaves newSlaves
    have hrem := removeSlaves_ends slaves st (newSlaves.map fun a => (a, false)) _ hk
    rw [hp] at hrem
    refine hrem.andThen (fun _ => False.elim) ?_
    rintro ⟨removed, st₁, marked⟩ ⟨hf, hk₁, hp₁, hf₁⟩
    refine ((insertSlaves_ends marked st₁).and (insertSlaves_flag marked st₁)).andThen
      (fun e he => he.1.imp (fun h => ?_) fun h => ?_) ?_
    · have := hf.balance
      simp only [hp₁, hk₁, length_append, length_singleton] at *
      omega
    · simp only [hp₁, hk₁, length_append, length_singleton] at *
      omega
    · rintro ⟨inserted, st₂⟩ ⟨⟨hf', hk'⟩, hf₂⟩
      rw [hp₁] at hk' hf₂
      rw [hk₁] at hk'
      refine ⟨hf.trans hf', ?_, fun newMaster hm hv => ?_, ?_⟩
      · have hg : (goodAddrs (newSlaves.diff (slaves.map key))).length ≤ _ :=
          length_filter_le ..
        simp only [hk', length_append, length_singleton] at *
        omega
      · rw [hh newMaster hm, hk']
        exact ⟨rfl, (ha hv).cons _⟩
      · have ht : st.keys.tail = slaves.map key := by rw [hk]; rfl
        have hrec := reconciled_iff_perm key slaves newSlaves
        simp only [Bool.or_eq_true, ht]
        tauto

/-- An update brings a group in line with a description.  The flag tells if the master or
the slaves have changed; their order does not count. -/
theorem update_ends (st : GroupSt) (new : List Addr) :
    Ends (Fails (¬Room st.free st.keys new) (st.keys ≠ [] ∧ new ≠ [] ∧
        (∀ a ∈ new, a.valid = true) ∧ new.length ≤ rgroupMaxReplica))
      (fun r => Frame st r.2 ∧ r.2.keys.length ≤ new.length ∧
        ((∀ a ∈ new, a.valid = true) → Agrees r.2.keys new) ∧
        (r.1 = true ↔ st.keys.head? ≠ new.head? ∨ ¬st.keys.tail.Perm new.tail))
      (st.update new) := by
  cases new with
  | nil => exact fails_of_not (by decide) fun h => h.2.1 rfl
  | cons newMaster newSlaves =>
    -- the new master may need an object, and this is the first of the two conditions
    have hm : newMaster ∉ st.keys ∧ st.free = 0 →
        ¬Room st.free st.keys (newMaster :: newSlaves) := by
      rintro ⟨hn, hf⟩ hr
      exact absurd hf (Nat.pos_iff_ne_zero.1 (hr.master newMaster rfl hn))
    cases hre : st.group.replicas with
    | nil =>
      simp only [update, hre]
      exact fails_of_not (by decide) fun h => h.1 (by rw [keys, hre, map_nil])
    | cons master slaves =>
      cases slaves with
      | nil =>
        have hk : st.keys = [master.key] := by simp [keys, hre]
        simp only [update, hre]
        refine (replaceMaster_ends newMaster hk).andThen
          (fun e he => he.imp hm fun _ => trivial) fun st₁ => ?_
        rintro ⟨hfra, hl, hk₁⟩
        refine (insertFrom_ends newSlaves st₁ 1 (le_of_eq hl)).andThen
          (fun e he => he.imp (fun h hr => ?_) fun h => ?_) fun st₂ => ?_
        · have := hfra.balance
          have := hr.total
          rw [length_cons] at this
          omega
        · have := h.2.2.2
          rw [length_cons] at this
          exact ⟨hl.symm, (forall_mem_cons.1 h.2.2.1).2, by omega⟩
        · rintro ⟨hf', hk'⟩
          refine ⟨hfra.trans hf', ?_, fun hv => ?_, by simp [hk]⟩
          · have hg : (goodAddrs newSlaves).length ≤ _ := length_filter_le ..
            simp only [hk', length_append, length_cons]
            omega
          · obtain ⟨hmv, hs⟩ := forall_mem_cons.1 hv
            rw [hk', hk₁ hmv, goodAddrs, filter_eq_self.2 hs]
            exact ⟨rfl, Perm.refl _⟩
      | cons slave slaves =>
        have hk : st.keys = master.key :: slave.key :: slaves.map key := by
          simp [keys, hre]
        simp only [update, hre]
        refine (updateMaster_ends st newMaster).andThen (fun e he => he.imp hm And.left) ?_
        rintro ⟨changed, st₁⟩ ⟨hfra, hl, hh, hfl, hsa⟩
        have hne : st₁.keys ≠ [] := by
          rw [← length_pos_iff, hl, hk]
          exact Nat.succ_pos _
        refine (updateSlaves_ends newSlaves hne).andThen
          (fun e he => he.imp (fun h hr => ?_) fun h => h.2.2.2) ?_
        · have : st₁.free + st₁.keys.length = st.free + st.keys.length := hfra.balance
          have := hr.total
          rw [length_cons] at this
          omega
        · rintro ⟨changed', st₂⟩ ⟨hf', hl', ha, hfl'⟩
          refine ⟨hfra.trans hf', hl', fun hv => ?_, ?_⟩
          · obtain ⟨hmv, hs⟩ := forall_mem_cons.1 hv
            exact ha newMaster (hh hmv) hs
          · simp only [Bool.or_eq_true, head?_cons, tail_cons]
            cases changed with
            | true => simp [hfl.1 rfl]
            | false =>
              obtain rfl : st₁ = st := hsa rfl
              have hmo : newSlaves = [] → ¬st₁.keys.tail.Perm newSlaves := by
                rintro rfl hp
                rw [hk] at hp
                simpa using hp.length_eq
              tauto

end GroupSt

end ArcusClient
