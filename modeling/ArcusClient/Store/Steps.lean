import ArcusClient.Store.SendMulti

/-!
# The steps of a round

What one round of each loop does, as the list of the cases that can arise (`SendStep`, `ReadStep`,
`SwitchStep`).  The invariants of the following modules are proved over these cases.
-/

namespace ArcusClient.Store

open CString Coll Loops Outcome Multi

variable {α : Type} {P : Protocol α} {w : World α} {noReply groupKeyPresent : Bool}

/-- Only what belongs to request `i` changes. -/
structure OnlyAt (i : Nat) (st st' : Multi α) : Prop where
  results : ∀ {j}, j ≠ i → st'.results j = st.results j
  instances : ∀ {j}, j ≠ i → st'.instances j = st.instances j
  sendings : ∀ {j}, j ≠ i → st'.sendings j = st.sendings j
  readings : ∀ {j}, j ≠ i → st'.readings j = st.readings j

theorem OnlyAt.refl (i : Nat) (st : Multi α) : OnlyAt i st st where
  results _ := rfl
  instances _ := rfl
  sendings _ := rfl
  readings _ := rfl

@[simp] theorem Servers.update_object_self (s : Servers α) (o : Nat) (f : ServerSt α → ServerSt α) :
    (s.update o f).object o = f (s.object o) := by
  simp [Servers.update]

@[simp] theorem Servers.update_object_of_ne (s : Servers α) (h : p ≠ o)
    (f : ServerSt α → ServerSt α) : (s.update o f).object p = s.object p := by
  simp [Servers.update, h]

/-! ## Sending -/

def Multi.atServer (st : Multi α) (i o : Nat) : Multi α :=
  { st with instances := Function.update st.instances i o }

def Multi.sendFails (st : Multi α) (i o : Nat) (rc : ReturnT) (f : ServerSt α → ServerSt α) :
    Multi α :=
  { ((st.atServer i o).fail i rc).updateServer o fun s => { f s with sendFailed := true } with
    failedInstances := o :: st.failedInstances }

theorem Multi.sendFails_object_self (st : Multi α) (i o : Nat) (rc : ReturnT)
    (f : ServerSt α → ServerSt α) : (st.sendFails i o rc f).servers.object o =
      { f (st.servers.object o) with sendFailed := true } := by
  simp [sendFails, updateServer, fail, setResult, atServer]

theorem Multi.sendFails_object_of_ne (st : Multi α) (h : p ≠ o) (rc : ReturnT)
    (f : ServerSt α → ServerSt α) :
    (st.sendFails i o rc f).servers.object p = st.servers.object p := by
  simp [sendFails, updateServer, fail, setResult, atServer, h]

theorem Multi.sendFails_results_ne (st : Multi α) (i o : Nat) (rc : FailCode)
    (f : ServerSt α → ServerSt α) : (st.sendFails i o rc f).results i ≠ .maximumReturn := by
  have h : (st.sendFails i o rc f).results i = rc.1 := Function.update_self ..
  rw [h]
  exact rc.2.2.1

/-- What the body of the first loop can do with request `i`. -/
inductive SendStep (w : World α) (noReply : Bool) (r i : Nat) (st : Multi α) : Multi α → Prop where
  | settled (hset : st.results i ≠ .maximumReturn) : SendStep w noReply r i st st
  | marked {o : Nat} (hmax : st.results i = .maximumReturn)
      (hfailed : (st.servers.object o).sendFailed = true) :
      SendStep w noReply r i st ((st.atServer i o).setResult i .failure)
  | sent {o : Nat} (hmax : st.results i = .maximumReturn) (hreply : noReply = false)
      (hfailed : (st.servers.object o).sendFailed = false) :
      SendStep w noReply r i st ((st.atServer i o).push w noReply r i o)
  | sentAway {o : Nat} (hmax : st.results i = .maximumReturn) (hreply : noReply = true) :
      SendStep w noReply r i st (((st.atServer i o).push w noReply r i o).succeed i)
  | refused {o : Nat} {rc : FailCode} (hmax : st.results i = .maximumReturn)
      (hsend : w.send r i = .refused rc) :
      SendStep w noReply r i st (st.sendFails i o rc id)
  | broken {o : Nat} {rc : FailCode} (hmax : st.results i = .maximumReturn)
      (hsend : w.send r i = .broken rc) :
      SendStep w noReply r i st (st.sendFails i o rc ServerSt.quit)

theorem sendOne_step (r i : Nat) (st : Multi α) :
    SendStep w noReply r i st (sendOne w noReply groupKeyPresent r i st) := by
  by_cases hs : st.results i = .maximumReturn
  case neg =>
    rw [sendOne, if_pos hs]
    exact .settled hs
  rw [sendOne, if_neg (not_not.mpr hs)]
  generalize st.servers.fetch (w.serverOf r (if groupKeyPresent then none else some i)) = o
  cases hf : (st.servers.object o).sendFailed with
  | true =>
    simp only [hf]
    exact .marked hs hf
  | false =>
    simp only [hf]
    cases hse : w.send r i with
    | sent =>
      cases noReply with
      | false => exact .sent hs rfl hf
      | true => exact .sentAway hs rfl
    | refused rc => exact .refused hs hse
    | broken rc => exact .broken hs hse

theorem SendStep.onlyAt {r i : Nat} {st st' : Multi α} (h : SendStep w noReply r i st st') :
    OnlyAt i st st' := by
  cases h with
  | settled hs => exact .refl i st
  | marked hm hf | sent hm hr hf | sentAway hm hr | refused hm hse
  | broken hm hse =>
    constructor
    all_goals
      intro j hj
      cases noReply <;>
        simp [atServer, sendFails, setResult, fail, succeed, push, updateServer, hj]

/-! ## Reading -/

/-- The state after a reply was read for request `i`. -/
def Multi.take (P : Protocol α) (st : Multi α) (i : Nat) (tag : Option SendingId) (a : α)
    (rest : List (Option SendingId × α)) : Multi α :=
  let o := st.instances i
  let reading := P.read a
  let st := { st with readings := Function.update st.readings i ((tag, a) :: st.readings i) }
  let st := st.updateServer o fun s => { s with
    wire := rest
    cursorActive := if reading.goesOn then s.cursorActive else s.cursorActive - 1 }
  let st := if isSwitchover reading.rc then st.updateServer o fun s => s.peerCheck (P.peer a)
    else st
  if resets reading.rc then st.updateServer o ServerSt.quit else st

/-- What the body of the second loop can do with request `i`. -/
inductive ReadStep (P : Protocol α) (w : World α) (r i : Nat) (st : Multi α) : Multi α → Prop where
  | settled (hset : st.results i ≠ .maximumReturn) : ReadStep P w r i st st
  | lost (hmax : st.results i = .maximumReturn)
      (hcursor : (st.servers.object (st.instances i)).cursorActive = 0) :
      ReadStep P w r i st (st.fail i .unknownReadFailure)
  | failed {rc : FailCode} (hmax : st.results i = .maximumReturn)
      (hread : w.readFails r i = some rc) :
      ReadStep P w r i st ((st.updateServer (st.instances i) ServerSt.quit).fail i rc)
  | waited (hmax : st.results i = .maximumReturn)
      (hcursor : (st.servers.object (st.instances i)).cursorActive ≠ 0)
      (hwire : (st.servers.object (st.instances i)).wire = []) :
      ReadStep P w r i st ((st.updateServer (st.instances i) ServerSt.quit).fail i .inProgress)
  | stored {tag : Option SendingId} {a : α} {rest : List (Option SendingId × α)}
      (hmax : st.results i = .maximumReturn)
      (hwire : (st.servers.object (st.instances i)).wire = (tag, a) :: rest)
      (hrc : (P.read a).rc = .stored) :
      ReadStep P w r i st ((st.take P i tag a rest).succeed i)
  | switched {tag : Option SendingId} {a : α} {rest : List (Option SendingId × α)}
      (hmax : st.results i = .maximumReturn)
      (hwire : (st.servers.object (st.instances i)).wire = (tag, a) :: rest)
      (hrc : isSwitchover (P.read a).rc = true) :
      ReadStep P w r i st
        { (st.take P i tag a rest).updateServer (st.instances i) fun s =>
            { s with switchoverState := (P.read a).rc } with
          switchoverNeededEver := true }
  | answered {tag : Option SendingId} {a : α} {rest : List (Option SendingId × α)}
      (hmax : st.results i = .maximumReturn)
      (hwire : (st.servers.object (st.instances i)).wire = (tag, a) :: rest)
      (hstored : (P.read a).rc ≠ .stored) (hrc : isSwitchover (P.read a).rc = false) :
      ReadStep P w r i st ((st.take P i tag a rest).fail i (P.read a).rc)

theorem FailCode.not_switchover (rc : FailCode) : isSwitchover rc.1 = false := by
  obtain ⟨rc, hf, hm, hs, hsl⟩ := rc
  simp [isSwitchover, hs, hsl]

theorem FailCode.ne_stored (rc : FailCode) : rc.1 ≠ .stored := by
  intro h
  have hf := rc.2.1
  rw [h] at hf
  simp [memcachedFailed] at hf

theorem FailCode.ne_success (rc : FailCode) : rc.1 ≠ .success := by
  intro h
  have hf := rc.2.1
  rw [h] at hf
  simp [memcachedFailed] at hf

theorem readOne_step (r i : Nat) (st : Multi α) : ReadStep P w r i st (readOne P w r i st) := by
  by_cases hs : st.results i = .maximumReturn
  case neg =>
    rw [readOne, if_pos hs]
    exact .settled hs
  rw [readOne, if_neg (not_not.mpr hs)]
  by_cases hc : (st.servers.object (st.instances i)).cursorActive = 0
  · simp only [hc]
    exact .lost hs hc
  simp only [hc, if_false]
  rw [readOneResponse.eq_def]
  cases hr : w.readFails r i with
  | some rc =>
    simp only [rc.ne_stored, rc.not_switchover]
    exact .failed hs hr
  | none =>
    cases hw : (st.servers.object (st.instances i)).wire with
    | nil => exact .waited hs hc hw
    | cons entry rest =>
      obtain ⟨tag, a⟩ := entry
      by_cases hst : (P.read a).rc = .stored
      · simp only [hst, if_true]
        have h := ReadStep.stored (P := P) (w := w) (r := r) hs hw hst
        simpa only [take, hst] using h
      · cases hsw : isSwitchover (P.read a).rc with
        | true =>
          simp only [hst, if_false]
          have h := ReadStep.switched (P := P) (w := w) (r := r) hs hw hsw
          simpa only [take, hsw, if_true] using h
        | false =>
          simp only [hst]
          have h := ReadStep.answered (P := P) (w := w) (r := r) hs hw hst hsw
          simpa only [take, hsw, Bool.false_eq_true, if_false] using h

/-- What `textual_switchover_peer_check` leaves as it was. -/
theorem ServerSt.peerCheck_frame (s : ServerSt α) (buffer : List Byte) :
    (s.peerCheck buffer).cursorActive = s.cursorActive ∧ (s.peerCheck buffer).wire = s.wire ∧
      (s.peerCheck buffer).switchoverState = s.switchoverState ∧
      (s.peerCheck buffer).sendFailed = s.sendFailed := by
  rw [ServerSt.peerCheck]
  split_ifs
  · simp
  · dsimp only
    split_ifs <;> simp

section Take

variable (P : Protocol α) (st : Multi α) (i : Nat) (tag : Option SendingId) (a : α)
    (rest : List (Option SendingId × α))

@[simp] theorem Multi.take_results : (st.take P i tag a rest).results = st.results := by
  simp only [take]
  split_ifs <;> rfl

@[simp] theorem Multi.take_instances : (st.take P i tag a rest).instances = st.instances := by
  simp only [take]
  split_ifs <;> rfl

@[simp] theorem Multi.take_sendings : (st.take P i tag a rest).sendings = st.sendings := by
  simp only [take]
  split_ifs <;> rfl

@[simp] theorem Multi.take_successOccurred :
    (st.take P i tag a rest).successOccurred = st.successOccurred := by
  simp only [take]
  split_ifs <;> rfl

@[simp] theorem Multi.take_failureOccurred :
    (st.take P i tag a rest).failureOccurred = st.failureOccurred := by
  simp only [take]
  split_ifs <;> rfl

@[simp] theorem Multi.take_failedInstances :
    (st.take P i tag a rest).failedInstances = st.failedInstances := by
  simp only [take]
  split_ifs <;> rfl

@[simp] theorem Multi.take_switchoverNeededEver :
    (st.take P i tag a rest).switchoverNeededEver = st.switchoverNeededEver := by
  simp only [take]
  split_ifs <;> rfl

@[simp] theorem Multi.take_readings : (st.take P i tag a rest).readings =
    Function.update st.readings i ((tag, a) :: st.readings i) := by
  simp only [take]
  split_ifs <;> rfl

theorem Multi.take_readings_self :
    (st.take P i tag a rest).readings i = (tag, a) :: st.readings i := by
  rw [take_readings, Function.update_self]

theorem Multi.take_object_of_ne (h : p ≠ st.instances i) :
    (st.take P i tag a rest).servers.object p = st.servers.object p := by
  simp only [take, updateServer]
  split_ifs <;> simp [h]

theorem Multi.take_marks (p : Nat) : ((st.take P i tag a rest).servers.object p).switchoverState =
        (st.servers.object p).switchoverState ∧
      ((st.take P i tag a rest).servers.object p).sendFailed =
        (st.servers.object p).sendFailed := by
  by_cases hp : p = st.instances i
  · subst hp
    simp only [take, updateServer]
    split_ifs <;> simp [ServerSt.quit, ServerSt.peerCheck_frame]
  · rw [st.take_object_of_ne P i tag a rest hp]
    exact ⟨rfl, rfl⟩

end Take

theorem ReadStep.onlyAt {r i : Nat} {st st' : Multi α} (h : ReadStep P w r i st st') :
    OnlyAt i st st' := by
  cases h with
  | settled hs => exact .refl i st
  | lost hm hc | failed hm hr | waited hm hc hw =>
    constructor
    all_goals
      intro j hj
      simp [setResult, fail, updateServer, hj]
  | stored hm hw hrc | switched hm hw hrc | answered hm hw hst hrc =>
    constructor
    all_goals
      intro j hj
      simp [setResult, fail, succeed, updateServer, hj]

/-! ## Switching -/

/-- The servers differ in `switchover_sidx` only, and the groups in any way. -/
def Servers.Switched (s s' : Servers α) : Prop :=
  ∀ o, ∃ x, s'.object o = { s.object o with switchoverSidx := x }

theorem Servers.switchover_switched (s : Servers α) (o : Nat) :
    Ends (fun _ => True) (fun done => s.Switched done.2) (s.switchover o) := by
  have hr : s.Switched s := fun p => ⟨(s.object p).switchoverSidx, rfl⟩
  rw [Servers.switchover]
  dsimp only
  split
  · trivial
  split
  next => exact hr
  next sindex hsidx =>
    split
    next => trivial
    next swapped hswap =>
      intro p
      by_cases hp : p = o
      · subst hp
        exact ⟨sindex, by simp⟩
      · exact ⟨(s.object p).switchoverSidx, by simp [hp]⟩

/-- What the body of the third loop can do with request `i`. -/
inductive SwitchStep (i : Nat) (st : Multi α) : Multi α → Prop where
  | settled (hset : st.results i ≠ .maximumReturn) : SwitchStep i st st
  | done {servers : Servers α} (hmax : st.results i = .maximumReturn)
      (hswitched : st.servers.Switched servers) :
      SwitchStep i st
        { { st with servers := servers }.updateServer (st.instances i) fun s =>
            { s with switchoverState := .success } with
          switchoverDoneEver := true }
  | failed {servers : Servers α} (hmax : st.results i = .maximumReturn)
      (hswitched : st.servers.Switched servers) :
      SwitchStep i st
        { ({ st with servers := servers }.fail i .failure).updateServer (st.instances i) fun s =>
            { s with switchoverState := .failure } with
          failedInstances := st.instances i :: st.failedInstances }
  | shared (hmax : st.results i = .maximumReturn)
      (hstate : (st.servers.object (st.instances i)).switchoverState = .failure) :
      SwitchStep i st (st.setResult i .failure)
  | left (hmax : st.results i = .maximumReturn)
      (hswitch : isSwitchover (st.servers.object (st.instances i)).switchoverState = false)
      (hstate : (st.servers.object (st.instances i)).switchoverState ≠ .failure) :
      SwitchStep i st st

theorem switchOne_step (i : Nat) (st : Multi α) :
    Ends (fun _ => True) (SwitchStep i st) (switchOne i st) := by
  by_cases hs : st.results i = .maximumReturn
  case neg =>
    rw [switchOne, if_pos hs]
    exact SwitchStep.settled hs
  rw [switchOne, if_neg (not_not.mpr hs)]
  dsimp only
  cases hsw : isSwitchover (st.servers.object (st.instances i)).switchoverState with
  | true =>
    refine (st.servers.switchover_switched (st.instances i)).bind fun result hswi => ?_
    obtain ⟨done, servers⟩ := result
    cases done with
    | true => exact SwitchStep.done hs hswi
    | false => exact SwitchStep.failed hs hswi
  | false =>
    rw [if_neg Bool.false_ne_true]
    split
    next hst => exact SwitchStep.shared hs hst
    next hst => exact SwitchStep.left hs hsw hst

theorem SwitchStep.onlyAt {i : Nat} {st st' : Multi α} (h : SwitchStep i st st') :
    OnlyAt i st st' := by
  cases h with
  | settled hs | left hm hsw hst => exact .refl i st
  | done hm hswi | failed hm hswi | shared hm hst =>
    constructor
    all_goals
      intro j hj
      simp [setResult, fail, updateServer, hj]

end ArcusClient.Store
