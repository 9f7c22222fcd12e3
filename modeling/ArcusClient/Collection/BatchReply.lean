import ArcusClient.Collection.PipedBulk
import ArcusClient.Collection.PipedOnce

/-!
# Replies to a batch

The reply to a batch says itself how many status lines it has.  `textual_coll_piped_response_fetch`
writes a status for each, whatever the number of the requests, and both callers take the closing
line `END` for success.  So a reply stays within its batch if it has no more lines than there are
requests, and is closed as a success only if it has a line for each (`batch_reply_iff`).
-/

namespace ArcusClient.Coll

open List Function

/-- The statuses that are received with a reply: up to `count` of them, and up to the first line that
cannot be read. -/
def received : (count : Nat) → List Line → List ReturnT
  | count + 1, .ok status :: rest => status :: received count rest
  | _, _ => []

/-- The codes that a caller takes for the success of a batch. -/
def closes (requestedItems : Nat) (rc : ReturnT) : Prop :=
  rc = .success ∨ if requestedItems = 1 then rc = .stored ∨ rc = .createdStored else rc = .endOfReply

/-- All lines of the reply are received, and it is closed as a success. -/
def ClosedAsSuccess (requestedItems count : Nat) (lines : List Line) : Prop :=
  (received count lines).length = count ∧
    ∃ rc, lines[count]? = some (.ok rc) ∧ closes requestedItems rc

/-- What is written and reported for the reply to a batch of `requested_items` requests, after
`pipe_responses_length` statuses. -/
structure StaysInBatch (count : Nat) (lines : List Line) (s : PipeSt) : Prop where
  /-- Nothing else is written, whatever the array has. -/
  within : ∀ responses k, k < s.pipeResponsesLength ∨ s.pipeResponsesLength + s.requestedItems ≤ k →
    (textualCollPipedResponseFetch count lines { s with responses := responses }).2.responses k =
      responses k
  /-- `do_coll_piped_insert` reports a success for exactly as many statuses. -/
  exact_insert : ∀ switched, (receive (.response count lines) switched s).rc = .success →
    (received count lines).length = s.requestedItems
  /-- `do_coll_piped_insert_bulk` does. -/
  exact_bulk : ∀ switched, (bulkReceive (.response count lines) switched s).2 = true →
    (received count lines).length = s.requestedItems
  /-- All entries for the batch are written then. -/
  written : ∀ switched, (receive (.response count lines) switched s).rc = .success →
    ∀ k, s.pipeResponsesLength ≤ k → k < s.pipeResponsesLength + s.requestedItems →
      ∃ status, (receive (.response count lines) switched s).responses k = some status

/-! ## Reading a reply -/

/-- The lines begin with the statuses that are received.  After them there is the closing line, or one that
cannot be read, or none. -/
theorem received_spec (count : Nat) (lines : List Line) :
    ∃ rest, lines = (received count lines).map .ok ++ rest ∧
      ((received count lines).length = count ∨
        (received count lines).length < count ∧
          (rest = [] ∨ ∃ rc more, rest = .error rc :: more)) := by
  induction count generalizing lines with
  | zero => exact ⟨lines, by simp [received], Or.inl rfl⟩
  | succ count ih =>
    match lines with
    | [] => exact ⟨[], rfl, Or.inr ⟨Nat.succ_pos count, Or.inl rfl⟩⟩
    | .error rc :: more =>
      exact ⟨.error rc :: more, rfl, Or.inr ⟨Nat.succ_pos count, Or.inr ⟨rc, more, rfl⟩⟩⟩
    | .ok status :: more =>
      obtain ⟨rest, hl, hle⟩ := ih more
      refine ⟨rest, ?_, ?_⟩
      · rw [received, map_cons, cons_append, ← hl]
      · simpa [received] using hle

theorem received_length_le (count : Nat) (lines : List Line) :
    (received count lines).length ≤ count := by
  obtain ⟨rest, -, h | h⟩ := received_spec count lines
  · exact h.le
  · exact h.1.le

/-- The code of `textual_coll_piped_response_fetch`: that of the closing line, or of a line that cannot
be read. -/
def FetchCode (count : Nat) (lines : List Line) (rc : ReturnT) : Prop :=
  (∃ last, (received count lines).length = count ∧ lines[count]? = some (.ok last) ∧
      (rc = last ∨ last = .pipeErrorBadError ∧ isSwitch rc = true)) ∨
    ReadFailure rc ∧ ∀ last, (received count lines).length = count → lines[count]? ≠ some (.ok last)

theorem readFailure_timeout : ReadFailure .timeout := by
  simp [ReadFailure]

theorem lastSwitch_eq (statuses : List ReturnT) :
    lastSwitch .success statuses = .success ∨ isSwitch (lastSwitch .success statuses) = true := by
  have h : ∀ code, (code = .success ∨ isSwitch code = true) →
      lastSwitch code statuses = .success ∨ isSwitch (lastSwitch code statuses) = true := by
    induction statuses with
    | nil => exact fun code h => h
    | cons status rest ih =>
      intro code hc
      rw [lastSwitch, foldl_cons]
      split_ifs with hs
      · exact ih status (Or.inr hs)
      · exact ih code hc
  exact h .success (Or.inl rfl)

variable {count : Nat} {lines : List Line} {s : PipeSt}

/-- What `textual_coll_piped_response_fetch` does, as long as the array has room for it. -/
theorem fetch_spec (hl : ∀ rc, .error rc ∈ lines → ReadFailure rc)
    (hr : s.pipeResponsesLength + (received count lines).length < 2 ^ 64) :
    ∃ rc, FetchCode count lines rc ∧ textualCollPipedResponseFetch count lines s = (rc, { s with
          responses := putFrom s.pipeResponsesLength (received count lines) s.responses
          pipeResponsesLength := s.pipeResponsesLength + (received count lines).length }) := by
  obtain ⟨rest, hs, he⟩ := received_spec count lines
  have hc := received_length_le count lines
  unfold FetchCode
  generalize received count lines = statuses at hr hs he hc ⊢
  have hf := fetchStatuses_ok s.pipeResponsesLength
    (f := ⟨0, s.responses, .success, .success, lines⟩) hs (by dsimp only; omega)
    (count - statuses.length)
  rw [Nat.add_sub_cancel' hc] at hf
  rw [textualCollPipedResponseFetch, hf]
  simp only [Nat.zero_add]
  rcases he with ha | ⟨hle, hre⟩
  · -- the closing line is the first one of the rest
    have hcl : lines[count]? = rest.head? := by
      rw [hs, getElem?_append_right (by simp [ha])]
      simp [ha, head?_eq_getElem?]
    rw [ha, Nat.sub_self, fetchStatuses]
    simp only [Nat.mod_eq_of_lt (ha ▸ hr), lt_irrefl, false_and, if_false]
    cases rest with
    | nil => exact ⟨_, Or.inr ⟨readFailure_timeout, by simp [hcl]⟩, rfl⟩
    | cons line more =>
      cases line with
      | error rc =>
        exact ⟨rc, Or.inr ⟨hl rc (by simp [hs]), by simp [hcl]⟩, rfl⟩
      | ok last =>
        simp only [readline]
        rcases lastSwitch_eq statuses with hn | hsw
        · simp only [hn]
          exact ⟨_, Or.inl ⟨last, trivial, hcl, Or.inl rfl⟩, rfl⟩
        · split_ifs with hb
          · exact ⟨_, Or.inl ⟨last, trivial, hcl, Or.inr ⟨hb.2, hsw⟩⟩, rfl⟩
          · exact ⟨_, Or.inl ⟨last, trivial, hcl, Or.inl rfl⟩, rfl⟩
  · obtain ⟨left, hlef⟩ : ∃ left, count - statuses.length = left + 1 :=
      ⟨count - statuses.length - 1, by omega⟩
    have hnot : ∀ last, statuses.length = count → lines[count]? ≠ some (.ok last) :=
      fun last heq => absurd heq hle.ne
    rw [hlef, fetchStatuses]
    rcases hre with rfl | ⟨rc, more, rfl⟩
    · simp only [readline, Nat.mod_eq_of_lt hr, hle]
      exact ⟨_, Or.inr ⟨readFailure_timeout, hnot⟩, rfl⟩
    · have hfa := hl rc (by simp [hs])
      have hne : rc ≠ .success := fun hsu => by simp [ReadFailure, hsu] at hfa
      simp only [readline, Nat.mod_eq_of_lt hr, hle, ne_eq, hne]
      exact ⟨_, Or.inr ⟨hfa, hnot⟩, rfl⟩

/-- A caller takes the code for a success if the reply is closed as one. -/
theorem FetchCode.closes_iff (h : FetchCode count lines rc) (m : Nat) :
    closes m rc ↔ ClosedAsSuccess m count lines := by
  rcases h with ⟨last, ha, hl, rfl | ⟨hb, hs⟩⟩ | ⟨hf, hn⟩
  · constructor
    · exact fun hc => ⟨ha, rc, hl, hc⟩
    · rintro ⟨-, rc', hr', hc⟩
      obtain rfl : rc = rc' := by simpa [hl] using hr'
      exact hc
  · refine iff_of_false (fun hc => ?_) ?_
    · rcases isSwitch_iff.1 hs with rfl | rfl <;> simp [closes] at hc
    · rintro ⟨-, rc', hr', hc⟩
      obtain rfl : last = rc' := by simpa [hl] using hr'
      subst hb
      simp [closes] at hc
  · refine iff_of_false (fun hc => ?_) ?_
    · simp only [ReadFailure, mem_cons] at hf
      simp only [closes] at hc
      split_ifs at hc <;> tauto
    · rintro ⟨ha, rc', hr', -⟩
      exact hn rc' ha hr'

/-! ## The end of a batch -/

instance (requestedItems : Nat) (rc : ReturnT) : Decidable (closes requestedItems rc) := by
  unfold closes
  infer_instance

/-- The code of a batch of one request is its status. -/
def PipeSt.ofLone (s : PipeSt) (rc : ReturnT) : PipeSt :=
  if s.requestedItems = 1 then
    { s with
      responses := Function.update s.responses s.pipeResponsesLength (some rc)
      pipeResponsesLength := (s.pipeResponsesLength + 1) % 2 ^ 64 }
  else s

/-- The loop goes on if the code is a success, and stops otherwise. -/
theorem settle_eq (rc : ReturnT) (s : PipeSt) : settle rc s =
    if closes s.requestedItems rc then
      { s.ofLone rc with rc := .success, requestedItems := 0, i := s.i + 1 }
    else (s.ofLone rc).stop rc := by
  simp only [settle, settleWith, closes, PipeSt.ofLone]
  by_cases ho : s.requestedItems = 1
  · simp only [ho, if_true]
    by_cases hs : rc = .stored ∨ rc = .createdStored
    · simp only [hs, if_true, or_true, ne_eq, not_true_eq_false, if_false]
    · simp only [hs, if_false, or_false]
      by_cases hsu : rc = .success <;> simp [hsu]
  · simp only [ho, if_false]
    by_cases he : rc = .endOfReply
    · simp [he]
    · simp only [he, if_false, or_false]
      by_cases hsu : rc = .success <;> simp [hsu]

theorem ofLone_responses (hk : k < s.pipeResponsesLength) (rc : ReturnT) :
    (s.ofLone rc).responses k = s.responses k := by
  rw [PipeSt.ofLone]
  split_ifs
  · exact update_of_ne hk.ne _ _
  · rfl

theorem ofLone_phase (s : PipeSt) (rc : ReturnT) : (s.ofLone rc).phase = s.phase := by
  rw [PipeSt.ofLone]
  split_ifs <;> rfl

/-- What the loop reports, and that earlier statuses are kept. -/
theorem settle_spec (rc : ReturnT) (s : PipeSt) :
    (closes s.requestedItems rc ∧ (settle rc s).rc = .success ∧ (settle rc s).phase = s.phase ∨
      ¬closes s.requestedItems rc ∧ (settle rc s).rc ≠ .success ∧ (settle rc s).phase = .stopped) ∧
    ∀ k < s.pipeResponsesLength, (settle rc s).responses k = s.responses k := by
  rw [settle_eq]
  split_ifs with hc
  · exact ⟨Or.inl ⟨hc, rfl, ofLone_phase s rc⟩, fun k hk => ofLone_responses hk rc⟩
  · exact ⟨Or.inr ⟨hc, fun hs => hc (Or.inl hs), rfl⟩, fun k hk => ofLone_responses hk rc⟩

/-- The state after a reply, if it is not followed by a switchover. -/
def afterReply (count : Nat) (lines : List Line) (s : PipeSt) : PipeSt :=
  { s.record (.response count lines) with
    responses := putFrom s.pipeResponsesLength (received count lines) s.responses
    pipeResponsesLength := s.pipeResponsesLength + (received count lines).length }

/-- The end of the body for this reply.  It settles the batch or turns to another server. -/
theorem receive_spec (hl : ∀ rc, .error rc ∈ lines → ReadFailure rc)
    (hr : s.pipeResponsesLength + (received count lines).length < 2 ^ 64) (switched : Bool) :
    ∃ rc, FetchCode count lines rc ∧ (bulkReceive (.response count lines) switched s =
          (settle rc (afterReply count lines s),
            decide ((settle rc (afterReply count lines s)).phase = .looping)) ∨ isSwitch rc = true ∧
          bulkReceive (.response count lines) switched s =
            (rewind { afterReply count lines s with rc := rc }, false)) := by
  obtain ⟨rc, hc, hf⟩ :=
    fetch_spec (s := s.record (.response count lines)) hl hr
  refine ⟨rc, hc, ?_⟩
  rw [bulkReceive, collResponse, hf]
  dsimp only
  split_ifs with hs
  · rw [Bool.and_eq_true] at hs
    exact Or.inr ⟨hs.1, rfl⟩
  · exact Or.inl rfl

/-- A success is reported just for a reply that is closed as one. -/
theorem receive_rc_iff (hl : ∀ rc, .error rc ∈ lines → ReadFailure rc)
    (hr : s.pipeResponsesLength + (received count lines).length < 2 ^ 64) (switched : Bool) :
    (receive (.response count lines) switched s).rc = .success ↔
      ClosedAsSuccess s.requestedItems count lines := by
  obtain ⟨rc, hc, hre | ⟨hs, hre⟩⟩ := receive_spec hl hr switched
  · rw [← bulkReceive_fst, hre, ← hc.closes_iff]
    rcases (settle_spec rc (afterReply count lines s)).1 with ⟨hcl, hrc, -⟩ | ⟨hcl, hrc, -⟩
    · exact iff_of_true hrc hcl
    · exact iff_of_false hrc hcl
  · rw [← bulkReceive_fst, hre, ← hc.closes_iff]
    rcases isSwitch_iff.1 hs with rfl | rfl <;> simp [closes, rewind]

theorem rc_of_bulkReceive (hl : ∀ rc, .error rc ∈ lines → ReadFailure rc)
    (hr : s.pipeResponsesLength + (received count lines).length < 2 ^ 64)
    (h : (bulkReceive (.response count lines) switched s).2 = true) :
    (receive (.response count lines) switched s).rc = .success := by
  rw [← bulkReceive_fst]
  obtain ⟨rc, hc, hre | ⟨hs, hre⟩⟩ := receive_spec hl hr switched
  · rw [hre, decide_eq_true_eq] at h
    rw [hre]
    rcases (settle_spec rc (afterReply count lines s)).1 with ⟨-, hrc, -⟩ | ⟨-, -, hp⟩
    · exact hrc
    · exact absurd (hp.symm.trans h) (by decide)
  · rw [hre] at h
    cases h

theorem fetchStatuses_isSome (offset left : Nat) (h : (f.responses k).isSome = true) :
    ((fetchStatuses offset left f).responses k).isSome = true := by
  induction left generalizing f with
  | zero => exact h
  | succ left ih =>
    rw [fetchStatuses]
    split
    · exact h
    · refine ih ?_
      dsimp only
      by_cases hk : k = (offset + f.i) % 2 ^ 64
      · rw [hk, update_self]
        rfl
      · rwa [update_of_ne hk]

/-- With more lines than requests, the entry after those of the batch is written. -/
theorem length_le_of_within (hr : s.pipeResponsesLength + s.requestedItems < 2 ^ 64)
    (hw : ∀ responses k, k < s.pipeResponsesLength ∨ s.pipeResponsesLength + s.requestedItems ≤ k →
      (textualCollPipedResponseFetch count lines { s with responses := responses }).2.responses k =
        responses k) :
    (received count lines).length ≤ s.requestedItems := by
  by_contra hl
  obtain ⟨rest, hs, -⟩ := received_spec count lines
  have hc := received_length_le count lines
  generalize received count lines = statuses at hl hs hc
  have hn := hw (fun _ => none) (s.pipeResponsesLength + s.requestedItems) (Or.inr le_rfl)
  -- the lines up to the one that is too many
  have hf : lines = (statuses.take (s.requestedItems + 1)).map .ok ++
      ((statuses.drop (s.requestedItems + 1)).map .ok ++ rest) := by
    rw [← append_assoc, ← map_append, take_append_drop, ← hs]
  have hle : (statuses.take (s.requestedItems + 1)).length = s.requestedItems + 1 := by
    rw [length_take]
    omega
  have hfe := fetchStatuses_ok s.pipeResponsesLength
    (f := ⟨0, fun _ => none, .success, .success, lines⟩) hf (by dsimp only; omega)
    (count - (s.requestedItems + 1))
  rw [hle, Nat.add_sub_cancel' (by omega)] at hfe
  have hwr : (textualCollPipedResponseFetch count lines
      { s with responses := fun _ => none }).2.responses =
        (fetchStatuses s.pipeResponsesLength count
          ⟨0, fun _ => none, .success, .success, lines⟩).responses := by
    rw [textualCollPipedResponseFetch]
    split_ifs
    · rfl
    · split
      · rfl
      · split_ifs <;> rfl
  rw [hwr, hfe] at hn
  obtain ⟨status, hst⟩ : ∃ status, (statuses.take (s.requestedItems + 1))[s.requestedItems]? =
      some status := ⟨_, getElem?_eq_getElem (by omega)⟩
  have hso : ((putFrom s.pipeResponsesLength (statuses.take (s.requestedItems + 1)) fun _ => none)
      (s.pipeResponsesLength + s.requestedItems)).isSome = true := by
    rw [putFrom_add hst]
    rfl
  have hk := fetchStatuses_isSome s.pipeResponsesLength (count - (s.requestedItems + 1))
    (f := ⟨s.requestedItems + 1, putFrom s.pipeResponsesLength
      (statuses.take (s.requestedItems + 1)) fun _ => none, lastSwitch .success
      (statuses.take (s.requestedItems + 1)), .success,
      (statuses.drop (s.requestedItems + 1)).map .ok ++ rest⟩) hso
  simp only [Nat.zero_add, Nat.add_zero] at hn
  rw [hn] at hk
  cases hk

theorem putFrom_of_le (h : offset + statuses.length ≤ item)
    (responses : Nat → Option ReturnT) :
    putFrom offset statuses responses item = responses item := by
  induction statuses generalizing offset responses with
  | nil => rfl
  | cons status rest ih =>
    rw [length_cons] at h
    rw [putFrom, ih (by omega), update_of_ne (by omega)]

/-- The statuses and the report for a batch stay within it just if there are no more status lines than
requests, and the reply is closed as a success only if there are as many. -/
theorem batch_reply_iff (hlines : ∀ rc, .error rc ∈ lines → ReadFailure rc)
    (hroom : s.pipeResponsesLength + s.requestedItems < 2 ^ 64) : StaysInBatch count lines s ↔
      (received count lines).length ≤ s.requestedItems ∧
        ((received count lines).length < s.requestedItems →
          ¬ClosedAsSuccess s.requestedItems count lines) := by
  constructor
  · intro h
    have hl := length_le_of_within hroom h.within
    refine ⟨hl, fun hles hc => hles.ne ?_⟩
    exact h.exact_insert false ((receive_rc_iff hlines (by omega) false).2 hc)
  · rintro ⟨hl, hles⟩
    have hf : s.pipeResponsesLength + (received count lines).length < 2 ^ 64 := by omega
    have hex : ∀ switched, (receive (.response count lines) switched s).rc = .success →
        (received count lines).length = s.requestedItems := fun switched hr => by
      by_contra hne
      exact hles (by omega) ((receive_rc_iff hlines hf switched).1 hr)
    refine ⟨fun responses k hk => ?_, hex,
      fun switched h => hex switched (rc_of_bulkReceive hlines hf h),
      fun switched hr k hlo hh => ?_⟩
    · obtain ⟨rc, -, hfe⟩ := fetch_spec (s := { s with responses := responses }) hlines hf
      rw [hfe]
      rcases hk with hlo | hh
      · exact putFrom_of_lt hlo _ _
      · exact putFrom_of_le (by dsimp only; omega) _
    · have hlen := hex switched hr
      obtain ⟨rc, hco, hre | ⟨hs, hre⟩⟩ := receive_spec hlines hf switched
      · obtain ⟨j, rfl⟩ := Nat.exists_eq_add_of_le hlo
        have hj : j < (received count lines).length := by omega
        refine ⟨(received count lines)[j], ?_⟩
        rw [← bulkReceive_fst, hre]
        rw [(settle_spec rc (afterReply count lines s)).2 _ (by simp only [afterReply]; omega)]
        exact putFrom_add (getElem?_eq_getElem hj) _ _
      · rw [← bulkReceive_fst, hre] at hr
        simp only [rewind] at hr
        rw [hr] at hs
        cases hs

def twoRequested : PipeSt := { pipeStart with i := 1, requestedItems := 2, wire := [0, 1] }

/-- Both are answered. -/
theorem batch_reply_two : StaysInBatch 2 [.ok .stored, .ok .stored, .ok .endOfReply] twoRequested :=
  (batch_reply_iff (by simp) (by decide)).2 ⟨by decide, fun h => absurd h (by decide)⟩

/-- A reply with three lines is written past the end of the batch.  One with a line less than there are
requests is reported as a success, and an entry is not written. -/
theorem batch_reply_not_within :
    ¬StaysInBatch 3 [.ok .stored, .ok .stored, .ok .stored, .ok .endOfReply] twoRequested ∧
      (textualCollPipedResponseFetch 3 [.ok .stored, .ok .stored, .ok .stored, .ok .endOfReply]
        twoRequested).2.responses 2 = some .stored ∧
      ¬StaysInBatch 1 [.ok .stored, .ok .endOfReply] twoRequested ∧
      (receive (.response 1 [.ok .stored, .ok .endOfReply]) false twoRequested).rc = .success ∧
      (receive (.response 1 [.ok .stored, .ok .endOfReply]) false twoRequested).responses 1 = none := by
  refine ⟨fun h => ?_, rfl, fun h => ?_, rfl, rfl⟩
  · have := h.within (fun _ => none) 2 (Or.inr le_rfl)
    cases this
  · have := h.exact_insert false rfl
    cases this

end ArcusClient.Coll
