import ArcusClient.Pool.MemberCopy
import ArcusClient.Lib.Runs

/-!
# The server objects of a pool member

A push makes room for three servers in each group and one more.  So a group that is updated finds the
objects it needs, whatever the other groups have (`Stocked`).  No call runs out of objects, as long as
their number fits the 32 bits it is computed in (`member_stock_lasts`, `member_stock_wraps`).
-/

namespace ArcusClient

open CString Outcome List Rgroup

/-! ## The calls -/

inductive MemberCall where
  | push (env : Env) (grouplist : List Rgroup)
  | update (env : Env) (master : Memcached)
  | switchover (groupindex switchoverSidx : Int) (peer : CStr)
  | prune

def MemberCall.run (P : Platform) (mc : Memcached) : MemberCall → Except Fault Memcached
  | .push env grouplist => (rgroupPush P env mc grouplist).map Prod.snd
  | .update env master => (doMemcachedUpdateRgrouplistWithMaster P env mc master).map Prod.snd
  | .switchover groupindex switchoverSidx peer => rgroupSwitchover mc groupindex switchoverSidx peer
  | .prune => .ok (rgroupPruneAll mc)

def FewReplicas (groups : List Rgroup) : Prop :=
  ∀ g ∈ groups, 0 < g.nreplica ∧ g.nreplica ≤ rgroupMaxReplica

/-- The groups of the call have from one to three servers each, and there are so few of them that the
number of objects fits. -/
def MemberCall.Fits (mc : Memcached) : MemberCall → Prop
  | .push _ grouplist =>
    FewReplicas grouplist ∧ 3 * (grouplist.length + mc.rgroups.length) + 1 < 2 ^ 32
  | .update _ master => FewReplicas master.rgroups ∧ 3 * master.rgroups.length + 1 < 2 ^ 32
  | .switchover .. => True
  | .prune => True

/-! ## Enough objects -/

abbrev usedServers (groups : List Rgroup) : Nat := (groups.map Rgroup.nreplica).sum

theorem usedServers_cons (g : Rgroup) (groups : List Rgroup) :
    usedServers (g :: groups) = g.nreplica + usedServers groups := by
  rw [usedServers, map_cons, sum_cons]

/-- An object is in a group or free, and there are three for each group and one more. -/
structure Stocked (mc : Memcached) : Prop where
  few : FewReplicas mc.rgroups
  balance : mc.serverNtotal = mc.spare.objects.length + usedServers mc.rgroups
  room : mc.rgroups ≠ [] → 3 * mc.rgroups.length + 1 ≤ mc.serverNtotal

variable {groups : List Rgroup}

theorem usedServers_le (h : FewReplicas groups) : usedServers groups ≤ 3 * groups.length := by
  induction groups with
  | nil => exact le_refl _
  | cons g groups ih =>
    have ⟨hg, hr⟩ := forall_mem_cons.1 h
    have hu := ih hr
    have ht : g.nreplica ≤ 3 := hg.2
    rw [usedServers_cons, length_cons]
    omega

theorem FewReplicas.of_nreplica
    (hp : (groups'.map Rgroup.nreplica).Perm (groups.map Rgroup.nreplica))
    (h : FewReplicas groups) :
    FewReplicas groups' := by
  intro g hg
  have hm : g.nreplica ∈ groups.map nreplica := hp.mem_iff.1 (mem_map_of_mem hg)
  obtain ⟨g', hg', he⟩ := mem_map.1 hm
  rw [← he]
  exact h g' hg'

theorem map_nreplica_unplaced (groups : List Rgroup) :
    (groups.map Rgroup.unplaced).map Rgroup.nreplica = groups.map Rgroup.nreplica := by
  rw [map_map]
  refine map_congr_left fun g _ => ?_
  exact length_map _

variable {mc : Memcached}

theorem Stocked.distributed (h : Stocked mc) (hd : Distributed mc mc') : Stocked mc' := by
  have hp := hd.rgroups.map nreplica
  rw [map_nreplica_unplaced, map_nreplica_unplaced] at hp
  have hl : mc'.rgroups.length = mc.rgroups.length := by
    simpa using hp.length_eq
  refine ⟨h.few.of_nreplica hp, ?_, fun hn => ?_⟩
  · rw [hd.serverNtotal, hd.spare, usedServers, hp.sum_eq]
    exact h.balance
  · rw [hd.serverNtotal, hl]
    refine h.room fun hni => hn ?_
    rw [← length_eq_zero_iff, hl, hni]
    rfl

theorem Stocked.runDistribution (h : Stocked mc) (P : Platform) (env : Env) :
    Ends (fun e => e ≠ .noServer) (fun r => Stocked r.2) (runDistribution P env mc) :=
  (runDistribution_ends P env mc).imp (fun _ he => he) fun _ hd => h.distributed hd

theorem stocked_create (distribution : Distribution) (flags : Flags) :
    Stocked (memcachedCreate distribution flags) :=
  ⟨fun _ hg => absurd hg not_mem_nil, rfl, fun hn => absurd rfl hn⟩

theorem Stocked.pruneAll (h : Stocked mc) : Stocked (rgroupPruneAll mc) := by
  rw [rgroupPruneAll]
  split
  · exact h
  · exact ⟨fun _ hg => absurd hg not_mem_nil, rfl, fun hn => absurd rfl hn⟩

/-! ## Pushing -/

theorem nreplica_of_copies (h : List.Forall₂ CopyOf new list) :
    new.map Rgroup.nreplica = list.map Rgroup.nreplica := by
  induction h with
  | nil => rfl
  | @cons g m new list hc _ ih =>
    rw [map_cons, map_cons, ih, ← g.length_keys, ← m.length_keys, hc.servers.length_eq]

theorem Stocked.push (h : Stocked mc) (P : Platform) (env : Env)
    (hl : FewReplicas list) (hf : 3 * (list.length + mc.rgroups.length) + 1 < 2 ^ 32) :
    Ends (fun e => e ≠ .noServer) (fun r => Stocked r.2) (rgroupPush P env mc list) := by
  have hs : (list.length + mc.rgroups.length) % 2 ^ 32 = list.length + mc.rgroups.length :=
    Nat.mod_eq_of_lt (by omega)
  have hc : (list.length + mc.rgroups.length) * rgroupMaxReplica % 2 ^ 32 =
      3 * (list.length + mc.rgroups.length) := by
    rw [rgroupMaxReplica, Nat.mul_comm]
    exact Nat.mod_eq_of_lt (by omega)
  rw [rgroupPush]
  simp only [hs, hc]
  obtain ⟨spare, n, n', hex, hfr, -, hm, hb⟩ := rgroupExpand_spec env mc
    (list.length + mc.rgroups.length) (3 * (list.length + mc.rgroups.length))
  generalize rgroupExpand env mc _ _ = grown at hex hfr ⊢
  obtain ⟨granted, mc₀⟩ := grown
  subst hex
  have hu := usedServers_le h.few
  have hlis := usedServers_le hl
  have ho := h.balance
  cases granted with
  | false =>
    refine ⟨h.few, ?_, fun hn => ?_⟩
    · change n = spare.objects.length + usedServers mc.rgroups
      omega
    · exact (h.room hn).trans hm
  | true =>
    have hfr := hfr rfl
    refine (pushRgroups_ends list _).andThen (fun e he hno => ?_) ?_
    · have hfe : spare.objects.length < usedServers list := he hno
      omega
    rintro mc₁ ⟨-, hnt, new, hg, hnew, hsp⟩
    have hnt : mc₁.serverNtotal = n := hnt
    have hg : mc₁.rgroups = mc.rgroups ++ new := hg
    have hsp : mc₁.spare.objects.length + usedServers list = spare.objects.length := hsp
    have hnewU : new.map nreplica = list.map nreplica := nreplica_of_copies hnew
    refine Stocked.runDistribution ⟨?_, ?_, fun _ => ?_⟩ P env
    · rw [hg]
      exact forall_mem_append.2 ⟨h.few, hl.of_nreplica (by rw [hnewU])⟩
    · rw [hg, hnt, usedServers, map_append, sum_append, hnewU]
      change n = _ + (usedServers mc.rgroups + usedServers list)
      omega
    · rw [hg, length_append, hnew.length_eq]
      omega

/-! ## Updating -/

variable {g : Rgroup}

/-- A group with three objects to itself, and one more, can be given any servers. -/
theorem room_of_three {m : Rgroup} (hg : g.nreplica ≤ 3) (hm : m.nreplica ≤ 3)
    (hf : 4 ≤ free + g.nreplica) : GroupSt.Room free g.keys m.keys := by
  refine ⟨fun _ _ _ => by omega, ?_⟩
  rw [g.length_keys, m.length_keys]
  omega

/-- What a pass over the groups leaves behind: as many groups, with the objects they had or that were
free. -/
structure Passed (groups : List Rgroup) (spare : SpareServers)
    (r : Marked Rgroup × List Rgroup × SpareServers) : Prop where
  few : FewReplicas (r.1.map Prod.fst)
  length : r.1.length = groups.length
  balance : r.2.2.objects.length + usedServers (r.1.map Prod.fst) =
    spare.objects.length + usedServers groups

variable {spare : SpareServers}

/-- A pass goes on behind a group, which is left as `g'`. -/
theorem Passed.cons {g' : Rgroup} {spare' : SpareServers}
    {r : Marked Rgroup × List Rgroup × SpareServers} (h : Passed groups spare' r) (dead : Bool)
    (hf : 0 < g'.nreplica ∧ g'.nreplica ≤ rgroupMaxReplica)
    (hb : spare'.objects.length + g'.nreplica = spare.objects.length + g.nreplica) :
    Passed (g :: groups) spare ((g', dead) :: r.1, r.2.1, r.2.2) where
  few := forall_mem_cons.2 ⟨hf, h.few⟩
  length := by rw [length_cons, length_cons, h.length]
  balance := by
    have hr := h.balance
    rw [map_cons, usedServers_cons, usedServers_cons]
    simp only
    omega

theorem update_stock (hg : 0 < g.nreplica ∧ g.nreplica ≤ rgroupMaxReplica)
    (hm : 0 < m.nreplica ∧ m.nreplica ≤ rgroupMaxReplica)
    (hf : 4 ≤ spare.objects.length + g.nreplica) : Ends (fun e => e ≠ .noServer)
      (fun r => (0 < r.2.group.nreplica ∧ r.2.group.nreplica ≤ rgroupMaxReplica) ∧
        r.2.spare.objects.length + r.2.group.nreplica = spare.objects.length + g.nreplica)
      (rgroupUpdate ⟨g, spare⟩ m) := by
  refine (GroupSt.update_ends ⟨g, spare⟩ m.keys).imp (fun e he hn => ?_) ?_
  · exact he.1 hn (room_of_three hg.2 hm.2 hf)
  · rintro ⟨changed, st⟩ ⟨hfr, -, ha, -⟩
    have hl : st.group.nreplica = m.nreplica := by
      rw [← GroupSt.length_keys, (ha m.keys_valid).2.length_eq, m.length_keys]
    refine ⟨?_, hfr.objects⟩
    rw [hl]
    exact hm

/-- The pass over the groups.  Each of them has three objects to itself, and one more is free for all. -/
theorem matchMasterRgroups_stock (groups master : List Rgroup) (spare : SpareServers)
    (hgr : FewReplicas groups) (hma : FewReplicas master)
    (hr : groups ≠ [] → 3 * groups.length + 1 ≤ spare.objects.length + usedServers groups) :
    Ends (fun e => e ≠ .noServer) (Passed groups spare)
      (matchMasterRgroups groups master spare) := by
  induction groups generalizing master spare with
  | nil => exact ⟨hgr, rfl, rfl⟩
  | cons g groups ih =>
    have ⟨hg, hre⟩ := forall_mem_cons.1 hgr
    have ht : g.nreplica ≤ 3 := hg.2
    have hr := hr (cons_ne_nil g groups)
    rw [usedServers_cons, length_cons] at hr
    have hu := usedServers_le hre
    -- the group stays as it is, and is marked dead
    have hd : Ends (fun e => e ≠ .noServer) (Passed (g :: groups) spare)
        ((matchMasterRgroups groups master spare).map fun r => ((g, true) :: r.1, r.2.1, r.2.2)) := by
      rw [ends_map]
      exact (ih master spare hre hma fun _ => by omega).imp (fun _ he => he)
        fun _ h => h.cons true hg rfl
    cases master with
    | nil => exact hd
    | cons m master =>
      have ⟨hm, hmo⟩ := forall_mem_cons.1 hma
      rw [matchMasterRgroups]
      split
      · refine (update_stock hg hm (by omega)).bind ?_
        rintro ⟨changed, st⟩ ⟨hf, hb⟩
        have ht' : st.group.nreplica ≤ 3 := hf.2
        refine (ih master st.spare hre hmo fun _ => ?_).bind fun _ h => ?_
        · simp only at hb
          omega
        · exact h.cons false hf hb
      · exact hd

theorem usedServers_marked (marked : Marked Rgroup) :
    usedServers (marked.map Prod.fst) = usedServers marked.alive + deadServers marked := by
  induction marked with
  | nil => rfl
  | cons e marked ih =>
    obtain ⟨g, dead⟩ := e
    rw [map_cons, usedServers_cons]
    cases dead with
    | true =>
      have ha : Marked.alive ((g, true) :: marked) = Marked.alive marked := rfl
      have hd : deadServers ((g, true) :: marked) = g.nreplica + deadServers marked := rfl
      simp only [ha]
      omega
    | false =>
      have ha : Marked.alive ((g, false) :: marked) = g :: Marked.alive marked := rfl
      have hd : deadServers ((g, false) :: marked) = deadServers marked := rfl
      simp only [ha, usedServers_cons]
      omega

theorem alive_sublist (marked : Marked Rgroup) : marked.alive.Sublist (marked.map Prod.fst) :=
  filter_sublist.map Prod.fst

theorem Stocked.prune (h : Stocked mc) (hn : mc.rgroups ≠ []) (hp : Passed mc.rgroups mc.spare r)
    (ha : groups.map Rgroup.unplaced = r.1.alive.map Rgroup.unplaced)
    (hs : spare.objects.length = r.2.2.objects.length + deadServers r.1) :
    Stocked { mc with rgroups := groups, spare := spare } := by
  have hnr : groups.map nreplica = r.1.alive.map nreplica := by
    rw [← map_nreplica_unplaced, ha, map_nreplica_unplaced]
  have hl : groups.length = r.1.alive.length := by simpa using congrArg length hnr
  have hf : r.1.alive.length ≤ mc.rgroups.length := by
    have hle := (alive_sublist r.1).length_le
    rwa [length_map, hp.length] at hle
  have hal : FewReplicas r.1.alive := fun g hg => hp.few g ((alive_sublist r.1).mem hg)
  refine ⟨hal.of_nreplica (by rw [hnr]), ?_, fun _ => ?_⟩
  · have hb := h.balance
    have hpa := hp.balance
    rw [usedServers_marked] at hpa
    change mc.serverNtotal = spare.objects.length + (groups.map nreplica).sum
    rw [hnr]
    change _ = _ + usedServers r.1.alive
    omega
  · have hr := h.room hn
    change 3 * groups.length + 1 ≤ mc.serverNtotal
    omega

/-- `do_memcached_update_rgrouplist_with_master`. -/
theorem Stocked.update (h : Stocked mc) (P : Platform) (env : Env)
    (hm : FewReplicas master.rgroups) (hf : 3 * master.rgroups.length + 1 < 2 ^ 32) :
    Ends (fun e => e ≠ .noServer) (fun r => Stocked r.2)
      (doMemcachedUpdateRgrouplistWithMaster P env mc master) := by
  rw [doMemcachedUpdateRgrouplistWithMaster]
  by_cases hn : master.rgroups = []
  · rw [if_pos (by simp [hn])]
    split
    · exact h
    · exact h.pruneAll.runDistribution P env
  rw [if_neg (by simp [hn])]
  by_cases hmc : mc.rgroups = []
  · rw [if_pos (by simp [hmc])]
    refine h.push P env hm ?_
    rwa [hmc, length_nil, Nat.add_zero]
  rw [if_neg (by simp [hmc])]
  have hr : 3 * mc.rgroups.length + 1 ≤ mc.spare.objects.length + usedServers mc.rgroups := by
    rw [← h.balance]
    exact h.room hmc
  have hmat := (matchMasterRgroups_stock mc.rgroups master.rgroups mc.spare h.few hm
    fun _ => hr).and (matchMasterRgroups_ends mc.rgroups master.rgroups mc.spare)
  refine hmat.andThen (fun _ he => he.1) ?_
  rintro ⟨marked, rest, spare⟩ ⟨hp, copied, hs, hc⟩
  obtain ⟨groups, spare', hpr, ha, hspa⟩ := rgroupPrune_spec mc marked spare
  simp only at hs hc ⊢
  rw [hpr]
  have hst := h.prune hmc hp ha hspa
  by_cases hre : rest = []
  · rw [if_neg (by simp [hre])]
    split
    · exact hst.runDistribution P env
    · exact hst
  · rw [if_pos (by simp [hre])]
    have hl : master.rgroups.length = groups.length + rest.length := by
      have hgr : groups.length = marked.alive.length := by simpa using congrArg length ha
      rw [hs, length_append, hgr, hc.length_eq]
    refine hst.push P env (fun g hg => hm g ?_) ?_
    · rw [hs]
      exact mem_append_right copied hg
    · change 3 * (rest.length + groups.length) + 1 < 2 ^ 32
      omega

theorem map_nreplica_set_self (hg : groups[x]? = some g) :
    (groups.map Rgroup.nreplica).set x g.nreplica = groups.map Rgroup.nreplica := by
  induction groups generalizing x with
  | nil => rfl
  | cons g' groups ih =>
    cases x with
    | zero =>
      cases hg
      rfl
    | succ x => exact congrArg (g'.nreplica :: ·) (ih hg)

theorem Stocked.switchover (h : Stocked mc) (groupindex switchoverSidx : Int) (peer : CStr) :
    Ends (fun e => e ≠ .noServer) Stocked (rgroupSwitchover mc groupindex switchoverSidx peer) := by
  rw [rgroupSwitchover]
  split
  · simp
  cases hg : mc.rgroups[groupindex.toNat]? with
  | none => simp
  | some g =>
    simp only
    split
    · exact h
    · rename_i sindex _
      refine ((GroupSt.switchover_ends ⟨g, mc.spare⟩ sindex).and
        (GroupSt.switchover_spare ⟨g, mc.spare⟩ sindex)).andThen (fun _ he => he.1.1) ?_
      rintro st ⟨⟨hf, -⟩, hs⟩
      have ho := hf.objects
      rw [hs] at ho
      have hsa : (mc.rgroups.set groupindex.toNat st.group).map nreplica =
          mc.rgroups.map nreplica := by
        rw [map_set, Nat.add_left_cancel ho]
        exact map_nreplica_set_self hg
      refine ⟨h.few.of_nreplica (by rw [hsa]), ?_, fun hn => ?_⟩
      · change mc.serverNtotal = _ + ((mc.rgroups.set groupindex.toNat st.group).map nreplica).sum
        rw [hsa]
        exact h.balance
      · rw [length_set]
        refine h.room fun hni => hn ?_
        rw [← length_eq_zero_iff, hni]
        rfl

/-! ## Whole runs -/

/-- A call keeps the member stocked, and does not run out of objects. -/
theorem MemberCall.run_stock (P : Platform) (h : Stocked mc) {call : MemberCall}
    (hf : call.Fits mc) : Ends (fun e => e ≠ .noServer) Stocked (call.run P mc) := by
  cases call with
  | push env grouplist =>
    rw [MemberCall.run, ends_map]
    exact h.push P env hf.1 hf.2
  | update env master =>
    rw [MemberCall.run, ends_map]
    exact h.update P env hf.1 hf.2
  | switchover groupindex switchoverSidx peer => exact h.switchover groupindex switchoverSidx peer
  | prune => exact h.pruneAll

def MemberStep (P : Platform) (mc mc' : Memcached) : Prop :=
  ∃ call : MemberCall, call.Fits mc ∧ call.run P mc = .ok mc'

/-- In a run whose calls fit, a member with groups has three objects for each of them and one more, and
no call finds the free list empty. -/
theorem member_stock_lasts (P : Platform) (distribution : Distribution) (flags : Flags)
    {mc : Memcached}
    (hrun : Relation.ReflTransGen (MemberStep P) (memcachedCreate distribution flags) mc) :
    (mc.rgroups ≠ [] → 3 * mc.rgroups.length + 1 ≤ mc.serverNtotal) ∧
      ∀ call : MemberCall, call.Fits mc → call.run P mc ≠ .error .noServer := by
  have hs : ∀ mc₁ mc₂ : Memcached, Stocked mc₁ → MemberStep P mc₁ mc₂ → Stocked mc₂ := by
    rintro mc₁ mc₂ h₁ ⟨call, hf, hc⟩
    exact (call.run_stock P h₁ hf).of_eq_ok hc
  have h : Stocked mc := Runs.run_invariant hs (stocked_create distribution flags) hrun
  refine ⟨h.room, fun call hf he => ?_⟩
  exact (call.run_stock P h hf).of_eq_error he rfl

theorem fits_groupClient (mc : Memcached) (hp : 0 < names.length)
    (ht : names.length ≤ 3) : (MemberCall.update Env.granted (groupClient names)).Fits mc := by
  refine ⟨fun g hg => ?_, (by decide : 3 * 1 + 1 < 2 ^ 32)⟩
  rw [mem_singleton.1 hg, nreplica, length_mapIdx]
  exact ⟨hp, ht⟩

/-- A member copies a group of two servers, whose slave becomes the master, and then a group of other
servers. -/
theorem member_stock_lasts_copied : ∃ mc₁ mc₂,
    (MemberCall.update Env.granted (groupClient ['a', 'b'])).run (Platform.ofMd5 fun _ _ => 0)
      (memcachedCreate .modula ⟨false, false, false, true⟩) = .ok mc₁ ∧
    (MemberCall.switchover 0 1 []).run (Platform.ofMd5 fun _ _ => 0) mc₁ = .ok mc₂ ∧
    3 * mc₂.rgroups.length + 1 ≤ mc₂.serverNtotal ∧
    (MemberCall.update Env.granted (groupClient ['c', 'd', 'e'])).run
    (Platform.ofMd5 fun _ _ => 0) mc₂
      ≠ .error .noServer := by
  refine ⟨_, _, rfl, rfl, ?_⟩
  have h := member_stock_lasts (Platform.ofMd5 fun _ _ => 0) .modula ⟨false, false, false, true⟩
    (.head ⟨.update Env.granted (groupClient ['a', 'b']), fits_groupClient _ (by decide) (by decide), rfl⟩
      (.single ⟨.switchover 0 1 [], trivial, rfl⟩))
  exact ⟨h.1 (cons_ne_nil _ _), h.2 _ (fits_groupClient _ (by decide) (by decide))⟩

def loneGroup : Rgroup := ⟨lit ['G'], 0, 1, [⟨0, serverInit ⟨lit ['a'], rfl⟩ defaultPort 0 .tcp⟩]⟩

/-- No object is made for a list whose number of objects is zero in 32 bits. -/
theorem rgroupPush_wraps (P : Platform) (distribution : Distribution) (flags : Flags)
    (hr : rest.length = 1431655764) :
    rgroupPush P Env.granted (memcachedCreate distribution flags) (loneGroup :: rest) =
      .error .noServer := by
  have hs : ((loneGroup :: rest).length + (memcachedCreate distribution flags).rgroups.length) % 2 ^ 32
      = 1431655765 := by
    rw [length_cons, hr]
    rfl
  rw [rgroupPush]
  simp only [hs]
  rfl

/-- A push of so many groups that three times their number and one more is zero in 32 bits. -/
theorem member_stock_wraps :
    (∀ g ∈ List.replicate 1431655765 loneGroup, 0 < g.nreplica ∧ g.nreplica ≤ rgroupMaxReplica) ∧
    (MemberCall.push Env.granted (List.replicate 1431655765 loneGroup)).run
      (Platform.ofMd5 fun _ _ => 0) (memcachedCreate .modula ⟨false, false, false, true⟩)
      = .error .noServer := by
  constructor
  · intro g hg
    rw [eq_of_mem_replicate hg]
    decide
  · have hs : replicate 1431655765 loneGroup = loneGroup :: replicate 1431655764 loneGroup :=
      replicate_succ
    rw [hs, MemberCall.run, rgroupPush_wraps _ _ _ length_replicate]
    rfl

end ArcusClient
