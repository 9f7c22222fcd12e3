import ArcusClient.Store.Matched

/-!
# The return code of a multi-store

`build_return_t` makes the return code from two flags, which are set along with the results.  A
request counts as a success when its reply is read as `MEMCACHED_STORED`, or when it was sent and no
reply is waited for (`Counted`).  This goes wrong when another code stands for an item that was stored
(`Plain`), as `MEMCACHED_SUCCESS` does in the binary protocol.
-/

namespace ArcusClient.Store

open CString Coll Loops Outcome List Function Multi

section Flags

variable {α : Type} (P : Protocol α) (noReply : Bool) (n : Nat)

/-- A reply to the request was read as `MEMCACHED_SUCCESS`. -/
def Plain (st : Multi α) (i : Nat) : Prop := ∃ entry ∈ st.readings i, (P.read entry.2).rc = .success

/-- The request was sent and no reply is waited for, or a reply to it was read as
`MEMCACHED_STORED`. -/
def Counted (st : Multi α) (i : Nat) : Prop :=
  (noReply = true ∧ st.sendings i ≠ []) ∨ ∃ entry ∈ st.readings i, (P.read entry.2).rc = .stored

structure Flags (st : Multi α) : Prop where
  success_iff : st.successOccurred = true ↔ ∃ i < n, Counted P noReply st i
  failure_iff : st.failureOccurred = true ↔
    ∃ i < n, st.results i ≠ .maximumReturn ∧ ¬ Counted P noReply st i
  results_iff : ∀ i < n, st.results i = .success ↔ Counted P noReply st i ∨ Plain P st i
  counted : ∀ i < n, Counted P noReply st i → ¬ Plain P st i

/-- What a step can do to request `k` and to the flags. -/
inductive Move (k : Nat) (st st' : Multi α) : Prop where
  | stay (hrc : st'.results k = st.results k) (hplain : Plain P st' k ↔ Plain P st k)
      (hcounted : Counted P noReply st' k ↔ Counted P noReply st k)
      (hsuccess : st'.successOccurred = st.successOccurred)
      (hfailure : st'.failureOccurred = st.failureOccurred)
  | succeed (hmax : st.results k = .maximumReturn) (hrc : st'.results k = .success)
      (hplain : ¬ Plain P st' k) (hcounted : Counted P noReply st' k)
      (hsuccess : st'.successOccurred = true)
      (hfailure : st'.failureOccurred = st.failureOccurred)
  | fail (hmax : st.results k = .maximumReturn) (hrc : st'.results k ≠ .maximumReturn)
      (hplain : Plain P st' k ↔ st'.results k = .success) (hcounted : ¬ Counted P noReply st' k)
      (hsuccess : st'.successOccurred = st.successOccurred)
      (hfailure : st'.failureOccurred = true)

variable {P noReply n} {st st' : Multi α} {k i : Nat}

theorem OnlyAt.plain_iff (h : OnlyAt k st st') (hi : i ≠ k) : Plain P st' i ↔ Plain P st i := by
  rw [Plain, Plain, h.readings hi]

theorem OnlyAt.counted_iff (h : OnlyAt k st st') (hi : i ≠ k) :
    Counted P noReply st' i ↔ Counted P noReply st i := by
  rw [Counted, Counted, h.readings hi, h.sendings hi]

/-- If something is the same for every other request, it holds of some request before if and only
if it does after, provided this is so for the request in question. -/
theorem exists_lt_congr {p q : Nat → Prop} (hk : p k ↔ q k) (hn : ∀ i, i ≠ k → (p i ↔ q i)) :
    (∃ i < n, p i) ↔ ∃ i < n, q i := by
  refine exists_congr fun i => and_congr_right fun _ => ?_
  by_cases hi : i = k
  · rw [hi]
    exact hk
  · exact hn i hi

theorem Flags.unsettled (h : Flags P noReply n st) (hk : k < n) (hm : st.results k = .maximumReturn) :
    ¬ Counted P noReply st k ∧ ¬ Plain P st k := by
  have hr := (h.results_iff k hk).not.1 (by rw [hm]; decide)
  exact not_or.1 hr

theorem Flags.step (h : Flags P noReply n st) (hk : k < n) (ha : OnlyAt k st st')
    (hm : Move P noReply k st st') : Flags P noReply n st' := by
  -- every other request is as it was
  have at_k {p : Nat → Prop} (hp : p k) (hne : ∀ i < n, i ≠ k → p i) : ∀ i < n, p i := by
    intro i hi
    by_cases hik : i = k
    · rw [hik]
      exact hp
    · exact hne i hi hik
  have hfail (i : Nat) (hi : i ≠ k) :
      (st.results i ≠ .maximumReturn ∧ ¬ Counted P noReply st i) ↔
        (st'.results i ≠ .maximumReturn ∧ ¬ Counted P noReply st' i) := by
    rw [ha.results hi, ha.counted_iff hi]
  have hres (i : Nat) (hi : i < n) (hik : i ≠ k) :
      st'.results i = .success ↔ Counted P noReply st' i ∨ Plain P st' i := by
    rw [ha.results hik, ha.counted_iff hik, ha.plain_iff hik]
    exact h.results_iff i hi
  have hco (i : Nat) (hi : i < n) (hik : i ≠ k) : Counted P noReply st' i → ¬ Plain P st' i := by
    rw [ha.counted_iff hik, ha.plain_iff hik]
    exact h.counted i hi
  cases hm with
  | stay hr hpl hcou hsu hf =>
    refine ⟨?_, ?_, at_k ?_ hres, at_k ?_ hco⟩
    · rw [hsu, h.success_iff]
      exact exists_lt_congr hcou.symm fun i hi => (ha.counted_iff hi).symm
    · rw [hf, h.failure_iff]
      exact exists_lt_congr (by rw [hr, hcou]) hfail
    · rw [hr, hcou, hpl]
      exact h.results_iff k hk
    · rw [hcou, hpl]
      exact h.counted k hk
  | succeed hma hr hpl hcou hsu hf =>
    refine ⟨iff_of_true hsu ⟨k, hk, hcou⟩, ?_, at_k (iff_of_true hr (.inl hcou)) hres,
      at_k (fun _ => hpl) hco⟩
    rw [hf, h.failure_iff]
    exact exists_lt_congr (iff_of_false (fun hn => hn.1 hma) fun hn => hn.2 hcou) hfail
  | fail hma hr hpl hcou hsu hf =>
    refine ⟨?_, iff_of_true hf ⟨k, hk, hr, hcou⟩, at_k ?_ hres, at_k (fun hn => absurd hn hcou) hco⟩
    · rw [hsu, h.success_iff]
      exact exists_lt_congr (iff_of_false (h.unsettled hk hma).1 hcou)
        fun i hi => (ha.counted_iff hi).symm
    · rw [← hpl]
      exact (or_iff_right hcou).symm

theorem Move.of_failure (hm : st.results k = .maximumReturn)
    (hn : ¬ Counted P noReply st k ∧ ¬ Plain P st k) (hr : st'.results k = rc) (hne : rc ≠ .success)
    (hs : rc ≠ .maximumReturn) (hre : st'.readings k = st.readings k)
    (hse : st'.sendings k = st.sendings k)
    (hsu : st'.successOccurred = st.successOccurred) (hf : st'.failureOccurred = true) :
    Move P noReply k st st' := by
  subst hr
  refine .fail hm hs (iff_of_false ?_ hne) ?_ hsu hf
  · rw [Plain, hre]
    exact hn.2
  · rw [Counted, hre, hse]
    exact hn.1

theorem plain_cons_iff (hr : st'.readings k = entry :: st.readings k) :
    Plain P st' k ↔ (P.read entry.2).rc = .success ∨ Plain P st k := by
  rw [Plain, hr]
  simp [Plain]

theorem counted_cons_iff (hr : st'.readings k = entry :: st.readings k)
    (hs : st'.sendings k = st.sendings k) :
    Counted P noReply st' k ↔ (P.read entry.2).rc = .stored ∨ Counted P noReply st k := by
  rw [Counted, hr, hs]
  simp [Counted, or_left_comm]

end Flags

section Steps

variable {α : Type} {P : Protocol α} {w : World α} {noReply : Bool} {n : Nat} {st st' : Multi α}
  {r k : Nat}

theorem SendStep.move (h : SendStep w noReply r k st st')
    (hn : st.results k = .maximumReturn → ¬ Counted P noReply st k ∧ ¬ Plain P st k)
    (hm : ∀ o, (st.servers.object o).sendFailed = true → st.failureOccurred = true) :
    Move P noReply k st st' := by
  cases h with
  | settled _ => exact .stay rfl Iff.rfl Iff.rfl rfl rfl
  | @marked o hma hf =>
    exact .of_failure hma (hn hma) (update_self ..) (by decide) (by decide) rfl rfl rfl (hm o hf)
  | sent hma hr hf =>
    subst hr
    exact .stay rfl Iff.rfl (by simp [Counted, push, atServer, updateServer]) rfl rfl
  | @sentAway o hma hr =>
    subst hr
    have hse : (((st.atServer k o).push w true r k o).succeed k).sendings k = r :: st.sendings k :=
      update_self ..
    refine .succeed hma (update_self ..) (hn hma).2 ?_ rfl rfl
    exact .inl ⟨rfl, hse ▸ cons_ne_nil _ _⟩
  | @refused o rc hma hs | @broken o rc hma hs =>
    exact .of_failure hma (hn hma) (update_self ..) rc.ne_success rc.2.2.1 rfl rfl rfl rfl

theorem ReadStep.move (h : ReadStep P w r k st st')
    (hn : st.results k = .maximumReturn → ¬ Counted P noReply st k ∧ ¬ Plain P st k) :
    Move P noReply k st st' := by
  cases h with
  | settled _ => exact .stay rfl Iff.rfl Iff.rfl rfl rfl
  | lost hm hc | waited hm hc hw =>
    exact .of_failure hm (hn hm) (update_self ..) (by decide) (by decide) rfl rfl rfl rfl
  | @failed rc hm hr =>
    exact .of_failure hm (hn hm) (update_self ..) rc.ne_success rc.2.2.1 rfl rfl rfl rfl
  | @stored tag a rest hm hw hrc =>
    have hrea : ((st.take P k tag a rest).succeed k).readings k = (tag, a) :: st.readings k :=
      st.take_readings_self P k tag a rest
    have hsen := congrFun (st.take_sendings P k tag a rest) k
    refine .succeed hm (update_self ..) ?_ ((counted_cons_iff hrea hsen).2 (.inl hrc)) rfl
      (st.take_failureOccurred P k tag a rest)
    rw [plain_cons_iff hrea, hrc]
    exact not_or.mpr ⟨by decide, (hn hm).2⟩
  | @switched tag a rest hm hw hrc =>
    have hrea : (st.take P k tag a rest).readings k = (tag, a) :: st.readings k :=
      st.take_readings_self P k tag a rest
    have hne {rc : ReturnT} (hrc' : isSwitchover rc = false) : (P.read a).rc ≠ rc := by
      rintro rfl
      rw [hrc'] at hrc
      cases hrc
    exact .stay (congrFun (st.take_results P k tag a rest) k)
      ((plain_cons_iff hrea).trans (or_iff_right (hne rfl)))
      ((counted_cons_iff hrea (congrFun (st.take_sendings P k tag a rest) k)).trans
        (or_iff_right (hne rfl)))
      (st.take_successOccurred P k tag a rest) (st.take_failureOccurred P k tag a rest)
  | @answered tag a rest hm hw hs hrc =>
    have hrea : ((st.take P k tag a rest).fail k (P.read a).rc).readings k =
      (tag, a) :: st.readings k := st.take_readings_self P k tag a rest
    have hres : ((st.take P k tag a rest).fail k (P.read a).rc).results k = (P.read a).rc :=
      update_self ..
    refine .fail hm ?_ ?_ ?_ (st.take_successOccurred P k tag a rest) rfl
    · rw [hres]
      exact P.read_ne_maximumReturn a
    · rw [plain_cons_iff hrea, hres]
      exact or_iff_left (hn hm).2
    · rw [counted_cons_iff hrea (congrFun (st.take_sendings P k tag a rest) k)]
      exact not_or.mpr ⟨hs, (hn hm).1⟩

theorem SwitchStep.move (h : SwitchStep k st st')
    (hn : st.results k = .maximumReturn → ¬ Counted P noReply st k ∧ ¬ Plain P st k)
    (hf : st.results k = .maximumReturn →
      (st.servers.object (st.instances k)).switchoverState = .failure → st.failureOccurred = true) :
    Move P noReply k st st' := by
  cases h with
  | settled _ | left _ _ _ | done _ _ => exact .stay rfl Iff.rfl Iff.rfl rfl rfl
  | failed hm hs =>
    exact .of_failure hm (hn hm) (update_self ..) (by decide) (by decide) rfl rfl rfl rfl
  | shared hm hst =>
    exact .of_failure hm (hn hm) (update_self ..) (by decide) (by decide) rfl rfl rfl (hf hm hst)

/-! ### The marks of the servers -/

theorem SendStep.marked_mem (h : SendStep w noReply r k st st')
    (hs : (∀ o, (st.servers.object o).sendFailed = true → o ∈ st.failedInstances) ∧
      (st.failedInstances ≠ [] → st.failureOccurred = true)) :
    (∀ o, (st'.servers.object o).sendFailed = true → o ∈ st'.failedInstances) ∧
      (st'.failedInstances ≠ [] → st'.failureOccurred = true) := by
  cases h with
  | settled _ | marked _ _ => exact hs
  | @sent p hm hr hf | @sentAway p hm hr =>
    subst hr
    refine ⟨fun o ho => ?_, hs.2⟩
    by_cases hp : o = p
    · subst hp
      exact hs.1 o (by simpa [push, atServer, updateServer, succeed,
        setResult] using ho)
    · exact hs.1 o (by simpa [push, atServer, updateServer, succeed,
        setResult, hp] using ho)
  | @refused p rc hm hse | @broken p rc hm hse =>
    refine ⟨fun o ho => ?_, fun _ => rfl⟩
    by_cases hp : o = p
    · exact mem_cons.mpr (.inl hp)
    · rw [sendFails_object_of_ne _ hp] at ho
      exact mem_cons_of_mem p (hs.1 o ho)

theorem ReadStep.sendFailed (h : ReadStep P w r k st st') (o : Nat) :
    (st'.servers.object o).sendFailed = (st.servers.object o).sendFailed ∧
      st'.failedInstances = st.failedInstances := by
  cases h with
  | settled _ | lost _ _ => exact ⟨rfl, rfl⟩
  | failed hm hr | waited hm hc hw =>
    by_cases ho : o = st.instances k
    · subst ho
      simp [fail, setResult, updateServer, ServerSt.quit]
    · simp [fail, setResult, updateServer, ho]
  | @stored tag a rest hm hw hrc | @answered tag a rest hm hw hs hrc =>
    exact ⟨(st.take_marks P k tag a rest o).2, st.take_failedInstances P k tag a rest⟩
  | @switched tag a rest hm hw hrc =>
    have hma := (st.take_marks P k tag a rest o).2
    by_cases ho : o = st.instances k
    · subst ho
      simpa [updateServer] using hma
    · simpa [updateServer, ho] using hma

theorem SwitchStep.sendFailed (h : SwitchStep k st st') (o : Nat) :
    (st'.servers.object o).sendFailed = (st.servers.object o).sendFailed := by
  cases h with
  | settled _ | left _ _ _ | shared _ _ => rfl
  | @done servers hm hs | @failed servers hm hs =>
    have hma : (servers.object o).sendFailed = (st.servers.object o).sendFailed := by
      obtain ⟨x, hx⟩ := hs o
      rw [hx]
    by_cases ho : o = st.instances k
    · subst ho
      simpa [fail, setResult, updateServer] using hma
    · simpa [fail, setResult, updateServer, ho] using hma

/-- A server whose group got no other master was counted as a failure. -/
theorem SwitchStep.failure_counted (h : SwitchStep k st st')
    (hs : ∀ i < n, st.results i = .maximumReturn →
      (st.servers.object (st.instances i)).switchoverState = .failure → st.failureOccurred = true) :
    ∀ i < n, st'.results i = .maximumReturn →
      (st'.servers.object (st'.instances i)).switchoverState = .failure →
      st'.failureOccurred = true := by
  intro i hi hm hst
  have ha := h.onlyAt
  cases h with
  | settled _ | left _ _ _ => exact hs i hi hm hst
  | @done servers _ hsw =>
    by_cases hsa : st.instances i = st.instances k
    · simp [updateServer, hsa] at hst
    · refine hs i hi hm ?_
      simpa [updateServer, hsa, hsw.switchoverState] using hst
  | failed _ _ => rfl
  | shared _ _ =>
    by_cases hik : i = k
    · subst hik
      exact absurd ((update_self ..).symm.trans hm) (by decide)
    · exact hs i hi (ha.results hik ▸ hm) hst

/-- If no reply is waited for, a request has a result once it was dealt with. -/
theorem SendStep.results_ne (h : SendStep w true r k st st') : st'.results k ≠ .maximumReturn := by
  cases h with
  | settled hs => exact hs
  | marked _ _ | sentAway _ _ => simp [setResult, succeed]
  | sent _ hr _ => cases hr
  | refused _ _ | broken _ _ => exact st.sendFails_results_ne k _ _ _

end Steps

/-! ## The call -/

section Call

variable {α : Type} (P : Protocol α) (noReply : Bool) (n : Nat)

structure Unmarked (st : Multi α) : Prop where
  flags : Flags P noReply n st
  sendFailed : ∀ o, (st.servers.object o).sendFailed = false
  failedInstances : st.failedInstances = []

/-- The invariant of the first loop, before request `k`. -/
structure Sending (k : Nat) (st : Multi α) : Prop where
  flags : Flags P noReply n st
  marks : (∀ o, (st.servers.object o).sendFailed = true → o ∈ st.failedInstances) ∧
    (st.failedInstances ≠ [] → st.failureOccurred = true)
  settled : noReply = true → ∀ i < k, st.results i ≠ .maximumReturn

structure Switching (st : Multi α) : Prop where
  flags : Flags P noReply n st
  sendFailed : ∀ o, (st.servers.object o).sendFailed = false
  counted : ∀ i < n, st.results i = .maximumReturn →
    (st.servers.object (st.instances i)).switchoverState = .failure → st.failureOccurred = true

variable {P noReply n} {w : World α} {st st' : Multi α} {r k : Nat}

theorem Unmarked.sending (h : Unmarked P noReply n st) : Sending P noReply n 0 st where
  flags := h.flags
  marks := by
    refine ⟨fun o ho => ?_, fun hn => absurd h.failedInstances hn⟩
    rw [h.sendFailed o] at ho
    cases ho
  settled _ i hi := absurd hi (Nat.not_lt_zero i)

theorem Sending.step (h : Sending P noReply n k st) (hk : k < n)
    (hs : SendStep w noReply r k st st') : Sending P noReply n (k + 1) st' where
  flags := by
    refine h.flags.step hk hs.onlyAt (hs.move (h.flags.unsettled hk) fun o ho => ?_)
    exact h.marks.2 (ne_nil_of_mem (h.marks.1 o ho))
  marks := hs.marked_mem h.marks
  settled hno i hi := by
    subst hno
    rcases Nat.lt_succ_iff_lt_or_eq.mp hi with hl | rfl
    · rw [hs.onlyAt.results hl.ne]
      exact h.settled rfl i hl
    · exact hs.results_ne

theorem Sending.unmarked (h : Sending P noReply n n st) : Unmarked P noReply n st.afterSend where
  flags := ⟨h.flags.success_iff, h.flags.failure_iff, h.flags.results_iff, h.flags.counted⟩
  sendFailed o := by
    simp only [afterSend, clear]
    split_ifs with ho
    · rfl
    · exact Bool.eq_false_iff.mpr fun hm => ho (h.marks.1 o hm)
  failedInstances := rfl

theorem Unmarked.step (h : Unmarked P noReply n st) (hk : k < n) (hs : ReadStep P w r k st st') :
    Unmarked P noReply n st' where
  flags := h.flags.step hk hs.onlyAt (hs.move (h.flags.unsettled hk))
  sendFailed o := (hs.sendFailed o).1.trans (h.sendFailed o)
  failedInstances := (hs.sendFailed 0).2.trans h.failedInstances

theorem Switching.step (h : Switching P noReply n st) (hk : k < n) (hs : SwitchStep k st st') :
    Switching P noReply n st' where
  flags := h.flags.step hk hs.onlyAt (hs.move (h.flags.unsettled hk) (h.counted k hk))
  sendFailed o := (hs.sendFailed o).trans (h.sendFailed o)
  counted := hs.failure_counted h.counted

theorem Switching.unmarked (h : Switching P noReply n st) : Unmarked P noReply n st.afterSwitch where
  flags := ⟨h.flags.success_iff, h.flags.failure_iff, h.flags.results_iff, h.flags.counted⟩
  sendFailed o := by
    simp only [afterSwitch, clear]
    split_ifs <;> exact h.sendFailed o
  failedInstances := rfl

theorem summary_rule : RoundRule P w noReply n (fun _ => Unmarked P noReply n)
    (fun _ => Sending P noReply n) (fun _ _ => Unmarked P noReply n) (fun _ _ => Switching P noReply n) where
  head h := h.sending
  send hk h hstep := h.step hk hstep
  sent h := ⟨⟨h.flags.success_iff, h.flags.failure_iff, h.flags.results_iff, h.flags.counted⟩, h.unmarked.sendFailed, rfl⟩
  read hk h hstep := h.step hk hstep
  answered h hu := by
    refine ⟨⟨h.flags.success_iff, h.flags.failure_iff, h.flags.results_iff, h.flags.counted⟩, h.sendFailed, ?_⟩
    intro i hi hm hs
    have hsw := (hu i hi hm).1
    rw [hs] at hsw
    cases hsw
  switch hk h hstep := h.step hk hstep
  again h := h.unmarked

/-- The flags when the rounds end.  Every request has a result, and the servers are as unmarked as
they were. -/
theorem rounds_summary (fuel : Nat) (h : Unmarked P noReply n st) : Ends (fun _ => True)
      (fun st' => Unmarked P noReply n st' ∧ ∀ i < n, st'.results i ≠ .maximumReturn)
      (rounds P w noReply gk n fuel r st) := by
  refine (summary_rule.after_rounds fuel h).imp (fun _ _ => trivial) fun st' he => ?_
  obtain ⟨m, ⟨hn, s, hs, rfl⟩ | ⟨-, hr, hse⟩ | ⟨-, ⟨s, hsw, rfl⟩, hse⟩⟩ := he
  · exact ⟨hs.unmarked, hs.settled hn⟩
  · exact ⟨hr, hse⟩
  · exact ⟨hsw.unmarked, hse⟩

theorem multiInit_failureOccurred
    {servers : Servers α} : (multiInit c isCas req servers).failureOccurred = true ↔
      ∃ request ∈ req, checkRequest c isCas request ≠ .maximumReturn := by
  simp [multiInit]

theorem multiInit_unmarked {servers : Servers α} (hm : ∀ o, (servers.object o).sendFailed = false) :
    Unmarked P noReply req.length (multiInit c isCas req servers) := by
  have hc (i : Nat) : ¬ Counted P noReply (multiInit c isCas req servers) i := by
    rintro (⟨-, hs⟩ | ⟨entry, hme, -⟩)
    · exact hs rfl
    · cases hme
  refine ⟨⟨?_, ?_, fun i hi => ?_, fun i _ h => absurd h (hc i)⟩, ?_, rfl⟩
  · refine iff_of_false Bool.false_ne_true ?_
    rintro ⟨i, -, h⟩
    exact hc i h
  · rw [multiInit_failureOccurred]
    constructor
    · rintro ⟨request, hme, hr⟩
      obtain ⟨i, hi, rfl⟩ := mem_iff_getElem.mp hme
      refine ⟨i, hi, ?_, hc i⟩
      rwa [multiInit_results hi]
    · rintro ⟨i, hi, hs, -⟩
      rw [multiInit_results hi] at hs
      exact ⟨req[i], getElem_mem hi, hs⟩
  · rw [multiInit_results hi]
    refine iff_of_false (checkRequest_ne_success c isCas _) ?_
    rintro (h | ⟨entry, hme, -⟩)
    · exact hc i h
    · cases hme
  · intro o
    simp only [multiInit, Servers.drain]
    split_ifs <;> exact hm o

def Summarises (rc : ReturnT) (results : Nat → ReturnT) (n : Nat) : Prop :=
  (rc = .success ↔ ∀ i < n, results i = .success) ∧
  (rc = .someErrors ↔ (∃ i < n, results i = .success) ∧ ∃ i < n, results i ≠ .success) ∧
  (rc = .failure ↔ ∀ i < n, results i ≠ .success)

section Codes

variable {results : Nat → ReturnT}

theorem summarises_success (hn : 0 < n) :
    Summarises .success results n ↔ ∀ i < n, results i = .success := by
  constructor
  · intro h
    exact h.1.mp rfl
  · intro h
    refine ⟨iff_of_true rfl h, iff_of_false (by decide) ?_, iff_of_false (by decide) ?_⟩
    · rintro ⟨-, i, hi, hne⟩
      exact hne (h i hi)
    · intro hne
      exact hne 0 hn (h 0 hn)

theorem summarises_someErrors : Summarises .someErrors results n ↔
    (∃ i < n, results i = .success) ∧ ∃ i < n, results i ≠ .success := by
  constructor
  · intro h
    exact h.2.1.mp rfl
  · rintro ⟨⟨i, hi, hr⟩, j, hj, hn⟩
    refine ⟨iff_of_false (by decide) ?_, iff_of_true rfl ⟨⟨i, hi, hr⟩, j, hj, hn⟩,
      iff_of_false (by decide) ?_⟩
    · intro ha
      exact hn (ha j hj)
    · intro hno
      exact hno i hi hr

theorem summarises_failure (hn : 0 < n) :
    Summarises .failure results n ↔ ∀ i < n, results i ≠ .success := by
  constructor
  · intro h
    exact h.2.2.mp rfl
  · intro h
    refine ⟨iff_of_false (by decide) ?_, iff_of_false (by decide) ?_, iff_of_true rfl h⟩
    · intro ha
      exact h 0 hn (ha 0 hn)
    · rintro ⟨⟨i, hi, hr⟩, -⟩
      exact h i hi hr

end Codes

theorem Flags.summarises_iff (h : Flags P noReply n st)
    (hse : ∀ i < n, st.results i ≠ .maximumReturn) (hn : 0 < n) :
    Summarises (buildReturnT st.successOccurred st.failureOccurred) st.results n ↔
      (∀ i < n, ¬ Plain P st i) ∨ ((∃ i < n, Counted P noReply st i) ∧
        ∃ i < n, ¬ Counted P noReply st i ∧ ¬ Plain P st i) := by
  have hsu := h.success_iff
  have hfa := h.failure_iff
  have hre {i : Nat} (hi : i < n) : st.results i ≠ .success ↔
      ¬ Counted P noReply st i ∧ ¬ Plain P st i := (h.results_iff i hi).not.trans not_or
  cases hs : st.successOccurred with
  | false =>
    -- no request is counted, so one with the result was answered with it
    rw [hs] at hsu
    have hno : ¬ ∃ i < n, Counted P noReply st i := fun hex => Bool.false_ne_true (hsu.mpr hex)
    rw [buildReturnT, Bool.not_false, if_pos rfl, summarises_failure hn]
    constructor
    · intro hal
      exact .inl fun i hi => ((hre hi).1 (hal i hi)).2
    · rintro (hpl | ⟨hex, -⟩) i hi
      · exact (hre hi).2 ⟨fun hc => hno ⟨i, hi, hc⟩, hpl i hi⟩
      · exact absurd hex hno
  | true =>
    have hso := hsu.mp hs
    cases hf : st.failureOccurred with
    | false =>
      rw [hf] at hfa
      have hall (i : Nat) (hi : i < n) : Counted P noReply st i := by
        by_contra hc
        exact Bool.false_ne_true (hfa.mpr ⟨i, hi, hse i hi, hc⟩)
      refine iff_of_true ((summarises_success hn).mpr fun i hi => ?_) (.inl fun i hi => ?_)
      · exact (h.results_iff i hi).2 (.inl (hall i hi))
      · exact h.counted i hi (hall i hi)
    | true =>
      obtain ⟨i, hi, -, hci⟩ := hfa.mp hf
      refine summarises_someErrors.trans ?_
      constructor
      · rintro ⟨-, j, hj, hne⟩
        exact .inr ⟨hso, j, hj, (hre hj).1 hne⟩
      · intro hc
        obtain ⟨j, hj, hcj⟩ := hso
        refine ⟨⟨j, hj, (h.results_iff j hj).2 (.inl hcj)⟩, ?_⟩
        rcases hc with hpl | ⟨-, k, hk, hne⟩
        · exact ⟨i, hi, (hre hi).2 ⟨hci, hpl i hi⟩⟩
        · exact ⟨k, hk, (hre hk).2 hne⟩

/-- The return code stands for the results if and only if no reply was read as
`MEMCACHED_SUCCESS`, or there are a request that is counted as a success, and one that is not and was
not answered so either. -/
theorem return_code_summarises_iff {c : Client} {isCas : Bool} {req : List StorageRequest}
    {groupKey : List Byte} {fuel : Nat} {servers : Servers α} {rc : ReturnT}
    (hmarks : ∀ o, (servers.object o).sendFailed = false)
    (hcall : memcachedSendMulti c isCas req P w groupKey fuel servers = .ok (rc, some st)) :
    Summarises rc st.results req.length ↔ (∀ i < req.length, ¬ Plain P st i) ∨
        ((∃ i < req.length, Counted P c.noReply st i) ∧
          ∃ i < req.length, ¬ Counted P c.noReply st i ∧ ¬ Plain P st i) := by
  obtain ⟨hr, rfl, hn⟩ := memcachedSendMulti_eq_ok hcall
  obtain ⟨he, hs⟩ := (rounds_summary fuel (multiInit_unmarked hmarks)).of_eq_ok hr
  exact he.flags.summarises_iff hs (length_pos_iff.mpr hn)

end Call

/-- In the text protocol, the return code stands for the results when the servers answer as they
should and no slave has an unread reply. -/
theorem text_summarises {reply : Nat → Nat → StoreReply} {req : List StorageRequest}
    {groupKey : List Byte} {fuel : Nat}
    {servers : Servers (List Byte)} {rc : ReturnT} {st : Multi (List Byte)}
    (hr : ∀ r i, w.answer r i = (reply r i).text) (hw : c.noReply = false)
    (hre : servers.Ready) (hm : ∀ o, (servers.object o).sendFailed = false)
    (hc : memcachedSendMulti c isCas req (textProtocol inSaslMech rest) w groupKey fuel servers =
      .ok (rc, some st)) : Summarises rc st.results req.length := by
  obtain ⟨hro, rfl, hn⟩ := memcachedSendMulti_eq_ok hc
  obtain ⟨he, hs⟩ := (rounds_summary fuel (multiInit_unmarked hm)).of_eq_ok hro
  refine (he.flags.summarises_iff hs (length_pos_iff.mpr hn)).mpr (.inl fun i hi => ?_)
  obtain ⟨-, m, hf, -⟩ := memcachedSendMulti_told hr hw hre hc hi
  rintro ⟨entry, hme, hrc⟩
  obtain ⟨r, rfl⟩ := hf.tagged hme
  refine (StoreReply.read_spec inSaslMech (reply r i)).2.1 ?_
  rw [← hrc, World.line, textProtocol_read hr]

theorem text_summarises_moved : ∃ rc st, memcachedSendMulti plainClient false [oneRequest] plainText
    movedWorld [] 2 (twoServers []) = .ok (rc, some st) ∧ Summarises rc st.results 1 := by
  obtain ⟨rc, st, hc⟩ : ∃ rc st, memcachedSendMulti plainClient false [oneRequest] plainText movedWorld
      [] 2 (twoServers []) = .ok (rc, some st) := ⟨_, _, rfl⟩
  refine ⟨rc, st, hc, text_summarises (fun _ _ => rfl) rfl twoServers_ready (fun o => ?_) hc⟩
  simp only [twoServers]
  split_ifs <;> rfl

/-! ### An item that the binary protocol reports as stored -/

def binaryClient : Client := { plainClient with binaryProtocol := true }

def storingWorld : World BinaryReply where
  serverOf _ _ := 0
  send _ _ := .sent
  readFails _ _ := none
  answer _ _ := ⟨true, .set, .success⟩

def oneServer : Servers BinaryReply where
  groups := [[⟨0, lit ['a'], 11211⟩]]
  object _ := ⟨0, [], false, .success, 0, [], -1⟩

/-- The first request is answered with `STORED`, the second with `OK`, the third with `NOT_STORED`. -/
def mixedWorld : World (List Byte) where
  serverOf _ _ := 0
  send _ _ := .sent
  readFails _ _ := none
  answer
  | _, 0 => bytesOf (lit ['S', 'T', 'O', 'R', 'E', 'D']) ++ crlf
  | _, 1 => bytesOf (lit ['O', 'K']) ++ crlf
  | _, _ => bytesOf (lit ['N', 'O', 'T', '_', 'S', 'T', 'O', 'R', 'E', 'D']) ++ crlf

/-- A reply is read as `MEMCACHED_SUCCESS`, and it makes no difference. -/
theorem return_code_summarises_mixed : ∃ st, memcachedSendMulti plainClient false
      [oneRequest, oneRequest, oneRequest] plainText mixedWorld [] 1 (twoServers [])
        = .ok (.someErrors, some st) ∧ Plain plainText st 1 ∧ Summarises .someErrors st.results 3 := by
  obtain ⟨st, hc, h0, h1, h2⟩ : ∃ st, memcachedSendMulti plainClient false
      [oneRequest, oneRequest, oneRequest] plainText mixedWorld [] 1 (twoServers [])
        = .ok (.someErrors, some st) ∧ st.readings 0 = [mixedWorld.line 0 0] ∧
      st.readings 1 = [mixedWorld.line 0 1] ∧ st.readings 2 = [mixedWorld.line 0 2] :=
    ⟨_, rfl, rfl, rfl, rfl⟩
  refine ⟨st, hc, ?_, (return_code_summarises_iff (fun o => ?_) hc).2 (.inr ⟨⟨0, ?_, ?_⟩, 2, ?_⟩)⟩
  · rw [Plain, h1]
    exact ⟨_, mem_singleton_self _, by decide +kernel⟩
  · simp only [twoServers]
    split_ifs <;> rfl
  · decide
  · rw [Counted, h0]
    exact .inr ⟨_, mem_singleton_self _, by decide +kernel⟩
  · rw [Counted, Plain, h2]
    refine ⟨by decide, ?_, ?_⟩
    · rintro (⟨hno, -⟩ | ⟨entry, he, hrc⟩)
      · cases hno
      · rw [mem_singleton.1 he] at hrc
        exact absurd hrc (by decide +kernel)
    · rintro ⟨entry, he, hrc⟩
      rw [mem_singleton.1 he] at hrc
      exact absurd hrc (by decide +kernel)

/-- The only item is stored and its result is `MEMCACHED_SUCCESS`, but the call fails. -/
theorem binary_store_reported_as_failure :
    ∃ st, memcachedSendMulti binaryClient false [oneRequest] (binaryProtocol false) storingWorld
      [] 1 oneServer = .ok (.failure, some st) ∧ (∀ i < 1, st.results i = .success) ∧
      ¬ Summarises .failure st.results 1 := by
  obtain ⟨st, hc, hr⟩ : ∃ st, memcachedSendMulti binaryClient false [oneRequest]
      (binaryProtocol false) storingWorld [] 1 oneServer = .ok (.failure, some st) ∧
      st.results 0 = .success := ⟨_, rfl, rfl⟩
  refine ⟨st, hc, ?_, fun hs => ?_⟩
  · intro i hi
    rw [Nat.lt_one_iff.mp hi]
    exact hr
  · exact hs.2.2.mp rfl 0 Nat.zero_lt_one hr

end ArcusClient.Store
