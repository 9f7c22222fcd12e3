import ArcusClient.Store.Steps

/-!
# The rounds

* When replies are waited for, a request without a result got a switchover for its reply
  (`Unanswered`).  After the third loop it is to be sent again, as some group got another master
  (`OpenOrDone`).  So no request is without a result at the end.
* `RoundRule` takes invariants for the head of a round and for its three loops, and gives what holds at
  the end of the call.
-/

namespace ArcusClient.Store

open CString Coll Loops Outcome Function

variable {α : Type} {P : Protocol α} {w : World α} {noReply groupKeyPresent : Bool}

/-- The states of the servers stay or become a switchover, and the flag stays set. -/
theorem ReadStep.switchover (h : ReadStep P w r k st st') :
    (∀ o, (st'.servers.object o).switchoverState = (st.servers.object o).switchoverState ∨
      isSwitchover (st'.servers.object o).switchoverState = true) ∧
    (st.switchoverNeededEver = true → st'.switchoverNeededEver = true) ∧
    (st'.results k = .maximumReturn →
      isSwitchover (st'.servers.object (st'.instances k)).switchoverState = true ∧
        st'.switchoverNeededEver = true) := by
  cases h with
  | settled hs => exact ⟨fun _ => .inl rfl, id, fun hm => absurd hm hs⟩
  | lost hm hc =>
    exact ⟨fun _ => .inl rfl, id, by simp [Multi.fail, Multi.setResult]⟩
  | @failed rc hm hr =>
    refine ⟨fun o => .inl ?_, id, fun hrc => ?_⟩
    · by_cases ho : o = st.instances k
      · subst ho
        simp [Multi.fail, Multi.setResult, Multi.updateServer, ServerSt.quit]
      · simp [Multi.fail, Multi.setResult, Multi.updateServer, ho]
    · exact absurd ((update_self ..).symm.trans hrc) rc.2.2.1
  | waited hm hc hw =>
    refine ⟨fun o => .inl ?_, id, by simp [Multi.fail, Multi.setResult]⟩
    by_cases ho : o = st.instances k
    · subst ho
      simp [Multi.fail, Multi.setResult, Multi.updateServer, ServerSt.quit]
    · simp [Multi.fail, Multi.setResult, Multi.updateServer, ho]
  | stored hm hw hrc =>
    refine ⟨fun o => .inl (st.take_marks P k _ _ _ o).1, ?_, ?_⟩
    · simp [Multi.succeed, Multi.setResult]
    · simp [Multi.succeed, Multi.setResult]
  | switched hm hw hrc =>
    refine ⟨fun o => ?_, fun _ => rfl, fun _ => ⟨?_, rfl⟩⟩
    · by_cases ho : o = st.instances k
      · subst ho
        exact .inr (by simpa [Multi.updateServer] using hrc)
      · exact .inl (by simp [Multi.updateServer, ho, Multi.take_marks])
    · simpa [Multi.updateServer] using hrc
  | answered hm hw hst hrc =>
    refine ⟨fun o => .inl (st.take_marks P k _ _ _ o).1, ?_, fun hrc => ?_⟩
    · simp [Multi.fail, Multi.setResult]
    · exact absurd ((update_self ..).symm.trans hrc) (P.read_ne_maximumReturn _)

/-- A request before `k` that has no result got a switchover for a reply. -/
def Unanswered (k : Nat) (st : Multi α) : Prop :=
  ∀ i < k, st.results i = .maximumReturn →
    isSwitchover (st.servers.object (st.instances i)).switchoverState = true ∧
      st.switchoverNeededEver = true

theorem ReadStep.unanswered (h : ReadStep P w r k st st')
    (hs : Unanswered k st) : Unanswered (k + 1) st' := by
  obtain ⟨hst, hn, hne⟩ := h.switchover
  intro i hi hm
  rcases Nat.lt_succ_iff_lt_or_eq.mp hi with hl | rfl
  · rw [h.onlyAt.results hl.ne] at hm
    obtain ⟨hsw, hse⟩ := hs i hl hm
    rw [h.onlyAt.instances hl.ne]
    refine ⟨?_, hn hse⟩
    rcases hst (st.instances i) with hsa | hnew
    · rw [hsa]
      exact hsw
    · exact hnew
  · exact hne hm

theorem Servers.Switched.switchoverState {s s' : Servers α} (h : s.Switched s') (o : Nat) :
    (s'.object o).switchoverState = (s.object o).switchoverState := by
  obtain ⟨x, hx⟩ := h o
  rw [hx]

/-- A request that still has no result is to come, or a master was switched. -/
def OpenOrDone (n k : Nat) (st : Multi α) : Prop :=
  ∀ i < n, st.results i = .maximumReturn →
    (k ≤ i ∧ (isSwitchover (st.servers.object (st.instances i)).switchoverState = true ∨
      (st.servers.object (st.instances i)).switchoverState = .failure)) ∨
    st.switchoverDoneEver = true

theorem SwitchStep.openOrDone {n k : Nat} {st st' : Multi α} (h : SwitchStep k st st')
    (hs : OpenOrDone n k st) : OpenOrDone n (k + 1) st' := by
  intro i hi hm
  have hs := hs i hi
  have ha := h.onlyAt
  cases h with
  | settled hse =>
    have hik : i ≠ k := fun hik => hse (hik ▸ hm)
    rcases hs hm with ⟨hk, hsta⟩ | hd
    · exact .inl ⟨by omega, hsta⟩
    · exact .inr hd
  | done _ _ => exact .inr rfl
  | @failed servers _ hsw =>
    by_cases hik : i = k
    · subst hik
      exact absurd ((update_self ..).symm.trans hm) (by decide)
    rw [ha.results hik] at hm
    rcases hs hm with ⟨hk, hsta⟩ | hd
    · refine .inl ⟨by omega, ?_⟩
      by_cases hsa : st.instances i = st.instances k
      · exact .inr (by simp [Multi.fail, Multi.setResult, Multi.updateServer, hsa])
      · simpa [Multi.fail, Multi.setResult, Multi.updateServer, hsa, hsw.switchoverState] using hsta
    · exact .inr hd
  | shared _ _ =>
    by_cases hik : i = k
    · subst hik
      exact absurd ((update_self ..).symm.trans hm) (by decide)
    rw [ha.results hik] at hm
    rcases hs hm with ⟨hk, hsta⟩ | hd
    · exact .inl ⟨by omega, hsta⟩
    · exact .inr hd
  | left _ hswi hf =>
    rcases hs hm with ⟨hk, hsta⟩ | hd
    · by_cases hik : i = k
      · subst hik
        rw [hswi] at hsta
        rcases hsta with hsta | hsta
        · cases hsta
        · exact absurd hsta hf
      · exact .inl ⟨by omega, hsta⟩
    · exact .inr hd

/-! ## The rule for the rounds -/

/-- The servers' marks of the first loop are removed, and the second loop can begin. -/
def Multi.afterSend (st : Multi α) : Multi α := st.clear fun s => { s with sendFailed := false }

/-- The servers' marks of the third loop are removed, and the next round can begin. -/
def Multi.afterSwitch (st : Multi α) : Multi α :=
  st.clear fun s => { s with switchoverState := .success }

/-- Invariants of a round: at its head, and in its three loops before each request.  Each loop keeps
its own, and each implies the next one where a loop ends. -/
structure RoundRule (P : Protocol α) (w : World α) (noReply : Bool) (n : Nat)
    (Head : Nat → Multi α → Prop) (Send Read Switch : Nat → Nat → Multi α → Prop) : Prop where
  head : ∀ {r st}, Head r st → Send r 0 st
  send : ∀ {r k st st'}, k < n → Send r k st → SendStep w noReply r k st st' → Send r (k + 1) st'
  sent : ∀ {r st}, Send r n st → Read r 0 { st.afterSend with switchoverNeededEver := false }
  read : ∀ {r k st st'}, k < n → Read r k st → ReadStep P w r k st st' → Read r (k + 1) st'
  answered : ∀ {r st}, Read r n st → Unanswered n st →
    Switch r 0 { st with switchoverDoneEver := false }
  switch : ∀ {r k st st'}, k < n → Switch r k st → SwitchStep k st st' → Switch r (k + 1) st'
  again : ∀ {r st}, Switch r n st → Head (r + 1) st.afterSwitch

namespace RoundRule

variable {n : Nat} {Head : Nat → Multi α → Prop} {Send Read Switch : Nat → Nat → Multi α → Prop}
  {r : Nat} {st : Multi α}

theorem after_sendAll (rule : RoundRule P w noReply n Head Send Read Switch) (h : Head r st) :
    ∃ s, Send r n s ∧ sendAll w noReply groupKeyPresent r n st = s.afterSend :=
  ⟨_, forLoop_invariant (I := Send r) (fun k s hk hs => rule.send hk hs (sendOne_step r k s))
    (rule.head h), rfl⟩

theorem after_readAll (rule : RoundRule P w noReply n Head Send Read Switch) (h : Send r n st) :
    Read r n (readAll P w r n st.afterSend) ∧ Unanswered n (readAll P w r n st.afterSend) := by
  refine forLoop_invariant (I := fun k s => Read r k s ∧ Unanswered k s) ?_ ⟨rule.sent h, ?_⟩
  · intro k s hk hs
    have hst : ReadStep P w r k s (readOne P w r k s) := readOne_step r k s
    exact ⟨rule.read hk hs.1 hst, hst.unanswered hs.2⟩
  · intro i hi
    exact absurd hi (Nat.not_lt_zero i)

/-- After the third loop the next round can begin, unless every request has a result. -/
theorem after_switchAll (rule : RoundRule P w noReply n Head Send Read Switch) (h : Read r n st)
    (hst : Unanswered n st) :
    Ends (fun _ => True) (fun st' => ∃ s, Switch r n s ∧ st' = s.afterSwitch ∧
      (st'.switchoverDoneEver = false → ∀ i < n, st'.results i ≠ .maximumReturn))
      (switchAll n st) := by
  have hsta : OpenOrDone n 0 { st with switchoverDoneEver := false } := by
    intro i hi hm
    exact .inl ⟨Nat.zero_le i, .inl (hst i hi hm).1⟩
  have hste (k : Nat) (s : Multi α) (hk : k < n) (hs : Switch r k s ∧ OpenOrDone n k s) :
      Ends (fun _ => True) (fun s' => Switch r (k + 1) s' ∧ OpenOrDone n (k + 1) s')
        (switchOne k s) :=
    (switchOne_step k s).imp (fun _ _ => trivial) fun s' hste =>
      ⟨rule.switch hk hs.1 hste, hste.openOrDone hs.2⟩
  refine (forLoopM_invariant (I := fun k s => Switch r k s ∧ OpenOrDone n k s) hste
    ⟨rule.answered h hst, hsta⟩).bind fun s hs => ⟨s, hs.1, rfl, ?_⟩
  intro hd i hi hm
  rcases hs.2 i hi hm with ⟨hn, -⟩ | ht
  · omega
  · exact absurd (ht.symm.trans hd) (by decide)

/-- The invariants hold when the rounds end: after the first loop if no replies are waited for,
otherwise after the second or the third one, and then every request has a result. -/
theorem after_rounds (rule : RoundRule P w noReply n Head Send Read Switch) (fuel : Nat)
    (h : Head r st) : Ends (fun _ => True) (fun st' => ∃ r,
        (noReply = true ∧ ∃ s, Send r n s ∧ st' = s.afterSend) ∨
        (noReply = false ∧ Read r n st' ∧ ∀ i < n, st'.results i ≠ .maximumReturn) ∨
        (noReply = false ∧ (∃ s, Switch r n s ∧ st' = s.afterSwitch) ∧
          ∀ i < n, st'.results i ≠ .maximumReturn))
      (rounds P w noReply groupKeyPresent n fuel r st) := by
  induction fuel generalizing r st with
  | zero => trivial
  | succ fuel ih =>
    obtain ⟨s, hs, he⟩ : ∃ s, Send r n s ∧
      sendAll w noReply groupKeyPresent r n st = s.afterSend := rule.after_sendAll h
    simp only [rounds, he]
    cases noReply with
    | true => exact ⟨r, .inl ⟨rfl, s, hs, rfl⟩⟩
    | false =>
      obtain ⟨hr, hu⟩ := rule.after_readAll hs
      simp only [Bool.false_eq_true, if_false]
      cases hn : (readAll P w r n s.afterSend).switchoverNeededEver with
      | false =>
        refine ⟨r, .inr (.inl ⟨trivial, hr, fun i hi hm => ?_⟩)⟩
        rw [(hu i hi hm).2] at hn
        cases hn
      | true =>
        have hsw := rule.after_switchAll hr hu
        cases ha : switchAll n (readAll P w r n s.afterSend) with
        | error f => trivial
        | ok st' =>
          obtain ⟨t, ht, rfl, hl⟩ := hsw.of_eq_ok ha
          cases hd : t.afterSwitch.switchoverDoneEver with
          | true => simpa [ha, hd] using ih (rule.again ht)
          | false =>
            simp only [Bool.not_true, Bool.false_eq_true, if_false, hd, ends_ok]
            exact ⟨r, .inr (.inr ⟨trivial, ⟨t, ht, rfl⟩, hl hd⟩)⟩

end RoundRule

/-! ## The call -/

/-- A call that gets past the checks of its arguments consists of its rounds. -/
theorem memcachedSendMulti_eq_ok
    (h : memcachedSendMulti c isCas req P w groupKey fuel servers = .ok (rc, some st)) :
    rounds P w c.noReply (groupKey != []) req.length fuel 0 (multiInit c isCas req servers) =
      .ok st ∧ rc = buildReturnT st.successOccurred st.failureOccurred ∧ req ≠ [] := by
  rw [memcachedSendMulti] at h
  split at h
  next => cases h
  next hc =>
    have hn : req ≠ [] := by
      intro hni
      rw [multiCheck, if_pos hni] at hc
      cases hc
    cases hr : rounds P w c.noReply (groupKey != []) req.length fuel 0
        (multiInit c isCas req servers) with
    | error stop =>
      rw [hr] at h
      cases h
    | ok st' =>
      rw [hr] at h
      cases h
      exact ⟨rfl, rfl, hn⟩

theorem multiInit_results {c : Client} {isCas : Bool} {req : List StorageRequest}
    {servers : Servers α} {i : Nat} (hi : i < req.length) :
    (multiInit c isCas req servers).results i = checkRequest c isCas req[i] := by
  simp [multiInit, hi]

theorem checkRequest_ne_success (c : Client) (isCas : Bool) (request : StorageRequest) :
    checkRequest c isCas request ≠ .success := by
  rw [checkRequest]
  split_ifs <;> decide

end ArcusClient.Store
