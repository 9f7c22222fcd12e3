import ArcusClient.Collection.BulkScatter
import ArcusClient.Collection.PipeSummary
import ArcusClient.Collection.BatchReply

/-!
# Insertion under many keys: the summary

`do_coll_piped_insert_bulk` sums up as many results as `pipe_responses_length` says.  That is the
number of statuses of the *last* server, so the summary is about the first keys of the list.  It is
right if only one server has keys (`bulk_summary_iff`).  With two, the first keys may all have failed
while the others are stored, and the summary says that all failed.

The replies may be any that keep to their batches, which is the condition of `batch_reply_iff`.  With
others the number of the statuses is not that of the keys, even for one server.
-/

namespace ArcusClient.Coll

open CString Scatter List

/-! ## Summing up -/

structure SumsUp (count : Nat) (r : BulkResult) : Prop where
  all : r.pipedRc = .allSuccess → ∀ x < count, isStored (r.results x)
  none : r.pipedRc = .allFailure → ∀ x < count, ¬isStored (r.results x)
  some : r.pipedRc ≠ .allSuccess → r.pipedRc ≠ .allFailure → r.pipedRc = .someSuccess

/-- The summary of the first statuses. -/
theorem BulkSt.finish_sumsUp (st : BulkSt) :
    SumsUpInserts (counted st.finish.rc ((List.range st.pipeResponsesLength).map st.results))
      st.finish.pipedRc := by
  have hc : st.finish.pipedRc = doAggregatePipeResponses (collOpString .bopInsert) st.finish.rc
      ((range st.pipeResponsesLength).map st.results) := rfl
  rw [hc, doAggregate_insert _ _ (by decide)]
  exact insertCode_sumsUp _

/-- The summary is about all keys if the last server has answered for all of them. -/
theorem BulkSt.sumsUp {st : BulkSt} {count : Nat} (hc : count ≠ 0)
    (hl : st.pipeResponsesLength = count) : SumsUp count st.finish := by
  have hs := st.finish_sumsUp
  rw [hl] at hs
  have hm : ∀ x < count, st.results x ∈ counted st.finish.rc ((range count).map st.results) :=
    fun x hx => subset_counted _ _ (mem_map_of_mem (mem_range.2 hx))
  refine ⟨fun h x hx => (hs.allSuccess.1 h).2 _ (hm x hx), fun h x hx => (hs.allFailure.1 h).2 _ (hm x hx),
    fun h₁ h₂ => ?_⟩
  have hn := ne_nil_of_mem (hm 0 (Nat.pos_of_ne_zero hc))
  rw [Ne, hs.allSuccess, not_and] at h₁
  rw [Ne, hs.allFailure, not_and] at h₂
  obtain ⟨r, hr, hst⟩ : ∃ r ∈ _, isStored r := by simpa using h₂ hn
  obtain ⟨r', hr', hs'⟩ : ∃ r ∈ _, ¬isStored r := by simpa using h₁ hn
  exact hs.someSuccess.2 ⟨⟨r, hr, hst⟩, r', hr', hs'⟩

/-! ## Replies that keep to their batches -/

/-- The statuses of the lines of a reply. -/
def Answer.received : Answer → List ReturnT
  | .response count lines => Coll.received count lines
  | _ => []

/-- The code of `memcached_coll_response` for a reply.  It does not depend on the state of the pipe. -/
def Answer.code (answer : Answer) : ReturnT := (collResponse answer pipeStart).1

/-- The client turns to another server after the reply. -/
def Turn.follows (env : Turn) : Bool := isSwitch env.answer.code && env.switched

/-- The reply keeps to the batch of `requested_items` requests. -/
structure KeepsToBatch (env : Turn) (s : PipeSt) : Prop where
  /-- A line that cannot be read has an error for its code. -/
  errors : ∀ count lines, env.answer = .response count lines →
    ∀ rc, .error rc ∈ lines → ReadFailure rc
  length_le : env.answer.received.length ≤ s.requestedItems
  /-- It is taken for a success only if there is a status for each request. -/
  success : s.requestedItems ≠ 1 → closes s.requestedItems env.answer.code →
    env.answer.received.length = s.requestedItems
  /-- The code is the status of the only request, so there is no other. -/
  lone : env.follows = false → s.requestedItems = 1 → env.answer.received = []
  /-- There is a status to go back to. -/
  goes_back : env.follows = true → 0 < s.pipeResponsesLength + env.answer.received.length

theorem fetchStatuses_code (offset offset' left : Nat) (f : FetchSt)
    (responses : Nat → Option ReturnT) :
    ∃ responses', fetchStatuses offset' left { f with responses := responses } =
      { fetchStatuses offset left f with responses := responses' } := by
  induction left generalizing f responses with
  | zero => exact ⟨responses, rfl⟩
  | succ left ih =>
    rw [fetchStatuses, fetchStatuses]
    dsimp only
    split
    · exact ⟨responses, rfl⟩
    · exact ih { f with
        i := f.i + 1
        responses := Function.update f.responses _ _
        switchoverRc := if isSwitch _ then _ else f.switchoverRc
        lines := _ } _

theorem fetch_code (count : Nat) (lines : List Line) (s s' : PipeSt) :
    (textualCollPipedResponseFetch count lines s').1 =
      (textualCollPipedResponseFetch count lines s).1 := by
  obtain ⟨responses, hf⟩ := fetchStatuses_code s.pipeResponsesLength s'.pipeResponsesLength count
    ⟨0, s.responses, .success, .success, lines⟩ s'.responses
  dsimp only at hf
  rw [textualCollPipedResponseFetch, hf, textualCollPipedResponseFetch]
  dsimp only
  split_ifs
  · rfl
  · split
    · rfl
    · split_ifs <;> rfl

variable {env : Turn} {s : PipeSt}

/-- What `memcached_coll_response` does. -/
theorem KeepsToBatch.collResponse_eq (h : KeepsToBatch env s)
    (hr : s.pipeResponsesLength + env.answer.received.length < 2 ^ 64) :
    collResponse env.answer (s.record env.answer) = (env.answer.code, { s.record env.answer with
        responses := putFrom s.pipeResponsesLength env.answer.received s.responses
        pipeResponsesLength := s.pipeResponsesLength + env.answer.received.length }) := by
  obtain ⟨write, answer, switched⟩ := env
  cases answer with
  | line status => rfl
  | failed rc => rfl
  | response count lines =>
    obtain ⟨rc, -, hf⟩ := fetch_spec (s := s.record (.response count lines)) (h.errors _ _ rfl) hr
    have hc : (Answer.response count lines).code = rc := by
      rw [Answer.code, collResponse, fetch_code count lines (s.record (.response count lines)), hf]
    rw [collResponse, hf, hc]
    rfl

/-! ## Counting the statuses -/

/-- The place in the list and the number of the statuses agree. -/
structure CountInv (n : Nat) (s : PipeSt) : Prop where
  length_le : s.pipeResponsesLength ≤ n
  index : s.phase = .looping → s.i = (s.pipeResponsesLength + s.requestedItems : Nat)
  /-- A batch does not end with the last item without a reply. -/
  unfinished : s.phase = .looping → s.requestedItems ≠ 0 →
    s.pipeResponsesLength + s.requestedItems < n
  failed : s.phase = .stopped → s.rc ≠ .success

theorem sendItem_counts (s : PipeSt) (hp : s.phase = .looping) (call : PipedCall)
    (write : ReturnT) :
    (sendItem call write s).i = s.i ∧
      (sendItem call write s).requestedItems = s.requestedItems + 1 ∧
      (sendItem call write s).pipeResponsesLength = s.pipeResponsesLength ∧
      ((sendItem call write s).phase = .stopped → (sendItem call write s).rc ≠ .success) := by
  have hl : s.phase ≠ .stopped := by simp [hp]
  unfold sendItem
  dsimp only
  split_ifs
  · exact ⟨rfl, rfl, rfl, False.elim⟩
  · split
    · exact ⟨rfl, rfl, rfl, Phase.noConfusion⟩
    · rename_i query eflag _
      have he := internalCollPipedInsert_ends
        { call.client with piped := call.more { s with requestedItems := s.requestedItems + 1 } }
        call.stack s.pipeBufferPos call.key query eflag call.attributes call.verb
      split
      case h_1 rc heq =>
        exact ⟨rfl, rfl, rfl, fun _ hr => he.of_eq_error heq (congrArg Refusal.returns hr)⟩
      case h_2 => exact ⟨rfl, rfl, rfl, Phase.noConfusion⟩
      case h_3 => exact ⟨rfl, rfl, rfl, fun h => absurd h hl⟩
      case h_4 =>
        unfold PipeSt.flush
        dsimp only
        split_ifs with hw
        · exact ⟨rfl, rfl, rfl, fun h => absurd h hl⟩
        · exact ⟨rfl, rfl, rfl, fun _ => hw⟩

theorem ofLone_length (s : PipeSt) (rc : ReturnT) : (s.ofLone rc).pipeResponsesLength =
    if s.requestedItems = 1 then (s.pipeResponsesLength + 1) % 2 ^ 64
    else s.pipeResponsesLength := by
  rw [PipeSt.ofLone]
  split_ifs <;> rfl

variable {n next : Nat}

/-- The end of a batch, with the place `next` after it. -/
theorem settle_counts (hn : n < 2 ^ 31) (hp : s.phase = .looping) (hi : s.i + 1 = next)
    (hr : next ≤ n) (hlone : s.requestedItems = 1 → s.pipeResponsesLength + 1 = next)
    (hle : s.pipeResponsesLength ≤ next) (hd : s.requestedItems ≠ 1 →
      closes s.requestedItems rc → s.pipeResponsesLength = next) :
    CountInv n (settle rc s) := by
  have hl : (s.ofLone rc).pipeResponsesLength ≤ next ∧
      (closes s.requestedItems rc → (s.ofLone rc).pipeResponsesLength = next) := by
    rw [ofLone_length]
    split_ifs with ho
    · have := hlone ho
      omega
    · exact ⟨hle, hd ho⟩
  rw [settle_eq]
  split_ifs with hc
  · refine ⟨hl.1.trans hr, fun _ => ?_, fun _ hz => absurd rfl hz, fun hst => ?_⟩
    · exact hi.trans (congrArg Nat.cast (hl.2 hc).symm)
    · exact absurd (((ofLone_phase s rc).trans hp).symm.trans hst) Phase.noConfusion
  · exact ⟨hl.1.trans hr, Phase.noConfusion, Phase.noConfusion, fun _ hrc => hc (Or.inl hrc)⟩

/-- The reply to a batch leaves as many statuses as keys are done. -/
theorem KeepsToBatch.receive_counts (h : KeepsToBatch env s) (hn : n < 2 ^ 31)
    (hi : s.i + 1 = (s.pipeResponsesLength + s.requestedItems : Nat))
    (hr : s.pipeResponsesLength + s.requestedItems ≤ n) (hp : s.phase = .looping) :
    CountInv n (receive env.answer env.switched s) := by
  have hl := h.length_le
  rw [receive, h.collResponse_eq (by omega)]
  dsimp only
  split_ifs with hs
  · have hb : ∀ t : PipeSt, t.pipeResponsesLength = s.pipeResponsesLength +
        env.answer.received.length → sizePred t.pipeResponsesLength =
          s.pipeResponsesLength + env.answer.received.length - 1 := fun t ht => by
      have := h.goes_back hs
      rw [ht, sizePred]
      omega
    rw [rewind_eq (hb _ rfl) (by omega)]
    refine ⟨?_, fun _ => rfl, fun _ hz => absurd rfl hz, fun hst => ?_⟩
    · exact (Nat.sub_le _ 1).trans ((Nat.add_le_add_left hl _).trans hr)
    · exact absurd (hp.symm.trans hst) Phase.noConfusion
  · refine settle_counts hn hp hi hr (fun ho => ?_) (Nat.add_le_add_left hl _) fun ho hc => ?_
    · change s.requestedItems = 1 at ho
      change s.pipeResponsesLength + env.answer.received.length + 1 = _
      rw [h.lone (Bool.eq_false_iff.2 hs) ho, ho, length_nil]
    · exact congrArg (s.pipeResponsesLength + ·) (h.success ho hc)

variable {call : PipedCall}

/-- A turn keeps the invariant. -/
theorem CountInv.turn (h : CountInv call.count s) (hn : call.count < 2 ^ 31)
    (he : call.enters s) (hk : (sendItem call env.write s).phase = .looping →
      call.last s = true → KeepsToBatch env (sendItem call env.write s)) :
    CountInv call.count (turn call env s) := by
  obtain ⟨hp, hin⟩ := he
  have hi := h.index hp
  rw [toInt_of_lt hn] at hin
  obtain ⟨hsi, hsr, hsl, hsf⟩ := sendItem_counts s hp call env.write
  unfold Coll.turn
  dsimp only
  split_ifs with hl hm
  · exact ⟨hsl.trans_le h.length_le, fun hlo => absurd hlo hl, fun hlo => absurd hlo hl, hsf⟩
  · have hlo : (sendItem call env.write s).phase = .looping := not_not.1 hl
    have hne : s.i + 1 ≠ call.count := fun heq => by
      simp [PipedCall.more, toInt_of_lt hn, heq] at hm
    refine ⟨hsl.trans_le h.length_le, fun _ => ?_, fun _ _ => ?_, hsf⟩
    · dsimp only
      rw [hsi, hsr, hsl, hi]
      rfl
    · dsimp only
      rw [hsr, hsl]
      omega
  · have hlo : (sendItem call env.write s).phase = .looping := not_not.1 hl
    have hla : call.last s = true := by simpa [PipedCall.last] using hm
    refine (hk hlo hla).receive_counts hn ?_ ?_ hlo
    · rw [hsi, hsr, hsl, hi]
      rfl
    · rw [hsr, hsl]
      omega

/-! ## One server -/

/-- The replies of the server keep to their batches in these turns. -/
def BulkCall.KeepsToBatches (call : BulkCall) (indexList : List Nat) : List Turn → BulkPipe → Prop
  | [], _ => True
  | env :: rest, s => enters indexList s.pipe →
      ((sendItem (call.item indexList s.pipe.i) env.write s.pipe).phase = .looping →
        (call.item indexList s.pipe.i).last s.pipe = true →
          KeepsToBatch env (sendItem (call.item indexList s.pipe.i) env.write s.pipe)) ∧
      call.KeepsToBatches indexList rest (call.turn indexList env s)

def BulkCall.AllKeepToBatches (call : BulkCall) (env : Nat → List Turn) : Prop :=
  ∀ i (st : BulkSt), call.KeepsToBatches (call.keysOf i) (env i) st.begin

namespace BulkCall

variable {call : BulkCall}

theorem begin_inv (n : Nat) (st : BulkSt) : CountInv n st.begin.pipe :=
  ⟨Nat.zero_le n, fun _ => rfl, fun _ hz => absurd rfl hz, Phase.noConfusion⟩

variable {indexList : List Nat} {s : BulkPipe}

/-- The loop over the keys of a server keeps the invariant of the pipe. -/
theorem loop_inv (hn : indexList.length < 2 ^ 31) (hs : CountInv indexList.length s.pipe)
    (ht : call.KeepsToBatches indexList turns s) (hl : call.loop indexList turns s = .ok t) :
    CountInv indexList.length t.pipe ∧ ¬enters indexList t.pipe ∧ t.pipe.phase ≠ .outOfBounds := by
  induction turns generalizing s with
  | nil =>
    rw [loop] at hl
    split_ifs at hl with he hb
    obtain rfl := Except.ok.inj hl
    exact ⟨hs, he, hb⟩
  | cons env rest ih =>
    by_cases he : enters indexList s.pipe
    · obtain ⟨hk, hr⟩ := ht he
      rw [loop_enters _ he] at hl
      refine ih ?_ hr hl
      rw [turn_pipe]
      have hin : CountInv _ (Coll.turn (call.item indexList s.pipe.i) env s.pipe) :=
        CountInv.turn (by rwa [item_count]) (by rwa [item_count])
          (by rw [PipedCall.enters, item_count]; exact he) hk
      rwa [item_count] at hin
    · rw [loop] at hl
      split_ifs at hl with hb
      obtain rfl := Except.ok.inj hl
      exact ⟨hs, he, hb⟩

/-- The last server has a status for each of its keys in the end. -/
theorem leave_length (hn : indexList.length < 2 ^ 31)
    (hinv : CountInv indexList.length t.pipe) (hl : ¬enters indexList t.pipe)
    (hb : t.pipe.phase ≠ .outOfBounds) (st : BulkSt) (i : Nat) :
    (st.leave i indexList t).pipeResponsesLength = indexList.length := by
  have hle := hinv.length_le
  simp only [BulkSt.leave]
  cases hp : t.pipe.phase with
  | looping =>
    have hi := hinv.index hp
    have hu := hinv.unfinished hp
    have hin : ¬t.pipe.i < indexList.length := fun hin => hl ⟨hp, by rwa [toInt_of_lt hn]⟩
    have hc : t.pipe.pipeResponsesLength = indexList.length := by omega
    rw [hc, max_self, ite_self]
  | stopped =>
    rw [if_pos (hinv.failed hp)]
    exact max_eq_right hle
  | outOfBounds => exact absurd hp hb

/-! ## All servers -/

def OneServer (call : BulkCall) : Prop :=
  ∀ i i', call.keysOf i ≠ [] → call.keysOf i' ≠ [] → i = i'

/-- The summary is about all keys, and does not depend on the order of the servers. -/
def SummaryHolds (call : BulkCall) : Prop :=
  ∀ env, call.AllKeepToBatches env →
    ∀ order, order.Perm (List.range call.client.serverCount) →
      ∀ r, call.runInOrder order env = .ok r → SumsUp call.keys.length r ∧
        ∀ order', order'.Perm (List.range call.client.serverCount) →
          ∀ r', call.runInOrder order' env = .ok r' → r'.pipedRc = r.pipedRc

variable {arrays : Nat → IndexArray} {env : Nat → List Turn}

theorem visitAll_skip
    (h : ∀ i ∈ rest, call.keysOf i = []) (st : BulkSt) :
    call.visitAll arrays env rest st = .ok st := by
  induction rest with
  | nil => rfl
  | cons i rest ih =>
    have hz : call.numkeys i = 0 := by rw [numkeys_eq, h i mem_cons_self]; rfl
    rw [visitAll, visit, if_pos hz]
    exact ih fun i' hi' => h i' (mem_cons_of_mem i hi')

theorem visitAll_append (before after : List Nat) (st : BulkSt) :
    call.visitAll arrays env (before ++ after) st =
      call.visitAll arrays env before st >>= call.visitAll arrays env after := by
  induction before generalizing st with
  | nil => rfl
  | cons i before ih =>
    rw [cons_append, visitAll, visitAll]
    cases call.visit arrays env i st with
    | error fault => rfl
    | ok st' => exact ih st'

theorem runInOrder_ok (h : call.runInOrder order env = .ok r) :
    call.check = .ok () ∧ Countable call ∧
      ∃ st, call.visitAll (fun i => ⟨(call.keysOf i).length, call.keysOf i⟩) env order bulkStart =
        .ok st ∧ r = st.finish := by
  rw [runInOrder] at h
  cases hc : call.check with
  | error refusal =>
    rw [hc] at h
    cases h
  | ok _ =>
    rw [hc] at h
    cases ha : call.serverToKeys with
    | error fault =>
      rw [ha] at h
      cases h
    | ok arrays =>
      have hco := countable_of_ok ha
      rw [serverToKeys_eq hco] at h
      dsimp only at h
      cases hv : call.visitAll (fun i => ⟨(call.keysOf i).length, call.keysOf i⟩) env order
          bulkStart with
      | error fault =>
        rw [hv] at h
        cases h
      | ok st =>
        rw [hv] at h
        exact ⟨rfl, hco, st, rfl, (Except.ok.inj h).symm⟩

theorem keys_ne_nil (h : call.check = .ok ()) : call.keys ≠ [] := by
  rintro hn
  simp [check, beforeQueryKeys, hn, refuse, bind, Except.bind] at h
  split_ifs at h

theorem visitAll_oneServer (ho : OneServer call) (hk : call.keys ≠ [])
    (hor : order.Perm (List.range call.client.serverCount)) (st : BulkSt) :
    call.visitAll arrays env order st = call.visit arrays env (call.serverOf 0) st := by
  have hm : call.serverOf 0 ∈ order := hor.mem_iff.2 (mem_range.2 (call.serverOf_lt 0))
  have hf : call.keysOf (call.serverOf 0) ≠ [] :=
    ne_nil_of_mem (mem_keysOf.2 ⟨length_pos_iff.2 hk, rfl⟩)
  obtain ⟨before, after, rfl⟩ := append_of_mem hm
  have hn := hor.nodup_iff.2 nodup_range
  have hot : ∀ i, i ≠ call.serverOf 0 → call.keysOf i = [] := fun i hi => by
    by_contra hne
    exact hi (ho i _ hne hf)
  rw [nodup_middle, nodup_cons, mem_append, not_or] at hn
  rw [visitAll_append, visitAll_skip fun i hi => hot i fun he => hn.1.1 (he ▸ hi)]
  change call.visitAll arrays env (call.serverOf 0 :: after) st = _
  rw [visitAll]
  cases call.visit arrays env (call.serverOf 0) st with
  | error fault => rfl
  | ok st' => exact visitAll_skip (fun i hi => hot i fun he => hn.1.2 (he ▸ hi)) st'

theorem keysOf_length (ho : OneServer call) (hk : call.keys ≠ []) :
    (call.keysOf (call.serverOf 0)).length = call.keys.length := by
  have ha : call.keysOf (call.serverOf 0) = range call.keys.length := by
    refine filter_eq_self.2 fun x hx => decide_eq_true ?_
    refine ho _ _ (ne_nil_of_mem (mem_keysOf.2 ⟨mem_range.1 hx, rfl⟩)) ?_
    exact ne_nil_of_mem (mem_keysOf.2 ⟨length_pos_iff.2 hk, rfl⟩)
  rw [ha, length_range]

theorem summaryHolds_of_oneServer (ho : OneServer call) : SummaryHolds call := by
  intro env he order hor r hr
  obtain ⟨hc, hco, st, hv, rfl⟩ := runInOrder_ok hr
  have hk := keys_ne_nil hc
  have hl := keysOf_length ho hk
  rw [visitAll_oneServer ho hk hor] at hv
  constructor
  · have hz : call.numkeys (call.serverOf 0) ≠ 0 := by
      rw [numkeys_eq, hl]
      exact length_pos_iff.2 hk |>.ne'
    rw [visit, if_neg hz] at hv
    cases hlo : call.loop (call.keysOf (call.serverOf 0)) (env (call.serverOf 0)) bulkStart.begin with
    | error fault =>
      rw [hlo] at hv
      cases hv
    | ok t =>
      rw [hlo] at hv
      obtain rfl := Except.ok.inj hv
      have hn := hco.2 _ (call.serverOf_lt 0)
      obtain ⟨hin, hlef, hb⟩ := loop_inv hn (begin_inv _ bulkStart) (he _ bulkStart) hlo
      exact BulkSt.sumsUp (length_pos_iff.2 hk).ne'
        ((leave_length hn hin hlef hb _ _).trans hl)
  · intro order' ho' r' hr'
    obtain ⟨-, -, st', hv', rfl⟩ := runInOrder_ok hr'
    rw [visitAll_oneServer ho hk ho', hv] at hv'
    rw [Except.ok.inj hv']

/-! ## Several servers -/

variable {status : Nat → ReturnT}

theorem received_ok (statuses : List ReturnT) (rest : List Line) :
    received statuses.length (statuses.map .ok ++ rest) = statuses := by
  induction statuses with
  | nil => rfl
  | cons status more ih => rw [length_cons, map_cons, cons_append, received, ih]

/-- A status for each key of the batch keeps to it. -/
theorem keepsToBatch_fullAnswer (status : Nat → ReturnT) (write : ReturnT) {j : Nat} {s : PipeSt}
    (hm : s.requestedItems = j % maxPipedCmdSize + 1) :
    KeepsToBatch ⟨write, fullAnswer status j, false⟩ s := by
  rw [fullAnswer]
  split_ifs with ho
  · exact ⟨fun _ _ h => Answer.noConfusion h, Nat.zero_le _, fun hne => absurd (by omega) hne,
      fun _ _ => rfl, fun hf => absurd (hf.symm.trans (Bool.and_false _)) Bool.noConfusion⟩
  · have hl : (Answer.response (j % maxPipedCmdSize + 1)
        (((range' (j - j % maxPipedCmdSize) (j % maxPipedCmdSize + 1)).map fun k =>
          Except.ok (status k)) ++ [.ok .endOfReply])).received.length = s.requestedItems := by
      have hr := received_ok ((range' (j - j % maxPipedCmdSize)
        (j % maxPipedCmdSize + 1)).map status) [.ok .endOfReply]
      rw [length_map, length_range', map_map] at hr
      exact (congrArg length hr).trans (by rw [length_map, length_range', hm])
    refine ⟨fun _ _ h rc hrc => ?_, hl.le, fun _ _ => hl, fun _ h1 => absurd h1 (by omega),
      fun hf => absurd (hf.symm.trans (Bool.and_false _)) Bool.noConfusion⟩
    obtain ⟨-, rfl⟩ := Answer.response.inj h
    simp at hrc

theorem keepsToBatches_left (h : ¬enters indexList s.pipe)
    (turns : List Turn) : call.KeepsToBatches indexList turns s := by
  cases turns with
  | nil => trivial
  | cons env rest => exact fun he => absurd he h

theorem keepsToBatches_full (hb : call.Builds) (hn : (call.keysOf i).length < 2 ^ 31)
    (hs : ∀ k, isSwitch (status k) = false) (hl : ∀ env ∈ turns, env.switched = false)
    (ht : TurnsInFull status (call.keysOf i).length j turns) (hj : j < (call.keysOf i).length)
    (h : FullAt status j s.pipe) : call.KeepsToBatches (call.keysOf i) turns s := by
  induction turns generalizing j s with
  | nil => trivial
  | cons env rest ih =>
    refine fun _ => ⟨fun _ hla => ?_, ?_⟩
    · obtain ⟨hw, ha⟩ := ht.head hj
      have hse := h.sendItem (hb.item hj) (by rwa [item_count])
      rw [h.index] at hla ⊢
      have he := (h.last_iff (by rwa [item_count])).1 hla
      rw [item_count] at he
      have hsw := hl env mem_cons_self
      obtain ⟨write, answer, switched⟩ := env
      obtain rfl := ha he
      obtain rfl := hw
      obtain rfl := hsw
      exact keepsToBatch_fullAnswer status _ hse.requested
    · rcases turn_full hb hn hs hj h (ht.head hj) with ⟨hle, hne⟩ | he
      · exact ih (fun env' hm => hl env' (mem_cons_of_mem env hm)) ht.tail hle hne
      · exact keepsToBatches_left (not_enters_of_fullEnd he hn) rest

theorem allKeepToBatches_fullTurns (hc : Countable call) (hb : call.Builds)
    (hs : ∀ x, isSwitch (status x) = false) : call.AllKeepToBatches (call.fullTurns status) := by
  intro i st
  by_cases hso : call.keysOf i = []
  · rw [fullTurns, hso]
    trivial
  · obtain ⟨x, hx⟩ := exists_mem_of_ne_nil _ hso
    have hi : i < call.client.serverCount := (mem_keysOf.1 hx).2 ▸ call.serverOf_lt x
    refine keepsToBatches_full hb (hc.2 i hi) (fun k => hs _) (fun env hm => ?_)
      (inFull_fullTurns call status i) (length_pos_iff.2 hso) (fullAt_begin _ st)
    obtain ⟨j, -, rfl⟩ := mem_map.1 hm
    rfl

/-- If the last server has some of the keys only, the summary may be wrong. -/
theorem not_summaryHolds (hc : call.check = .ok ()) (hco : Countable call)
    (hb : call.Builds) (hi : call.keysOf i ≠ []) (hi' : call.keysOf i' ≠ [])
    (hn : i ≠ i') : ¬SummaryHolds call := by
  intro hs
  obtain ⟨x, hx⟩ := exists_mem_of_ne_nil _ hi
  obtain ⟨x', hx'⟩ := exists_mem_of_ne_nil _ hi'
  rw [mem_keysOf] at hx hx'
  have hl : (call.keysOf i).length < call.keys.length := by
    have ho := (length_filter_lt_length_iff_exists (p := fun x => call.serverOf x = i)).2
      ⟨x', mem_range.2 hx'.1, by simp [hx'.2, hn.symm]⟩
    rwa [length_range] at ho
  -- the first keys fail, as many as this server has, and it comes last
  let status : Nat → ReturnT := fun x => if x < (call.keysOf i).length then .notfound else .stored
  have hsw : ∀ x, isSwitch (status x) = false := by
    intro x
    dsimp only [status]
    split_ifs <;> rfl
  have hm : i ∈ range call.client.serverCount :=
    mem_range.2 (hx.2 ▸ call.serverOf_lt x)
  have hor : ((range call.client.serverCount).erase i ++ [i]).Perm
      (range call.client.serverCount) :=
    (perm_append_singleton _ _).trans (perm_cons_erase hm).symm
  obtain ⟨st, hru, hg⟩ := runInOrder_full hc hco hb hsw
    (inFull_fullTurns call status) hor
  have hre : ∀ x < call.keys.length, st.results x = some (status x) := fun x hx =>
    hg.results x hx (hor.mem_iff.2 (mem_range.2 (call.serverOf_lt x)))
  have hlen := hg.length_eq _ i [] rfl hi fun _ h => absurd h not_mem_nil
  have hf : st.finish.pipedRc = .allFailure := by
    have hsum := st.finish_sumsUp
    rw [hlen] at hsum
    refine hsum.allFailure.2 ⟨ne_nil_of_mem (subset_counted _ _ (mem_map_of_mem (mem_range.2 (length_pos_of_ne_nil hi)))),
      fun r hr => ?_⟩
    rcases mem_counted hr with rfl | hr
    · decide
    · obtain ⟨x, hx, rfl⟩ := mem_map.1 hr
      rw [mem_range] at hx
      rw [hre x (hx.trans hl)]
      simp [status, hx, isStored]
  have hsum := (hs _ (allKeepToBatches_fullTurns hco hb hsw) _ hor _ hru).1
  refine hsum.none hf _ hl ?_
  change isStored (st.results (call.keysOf i).length)
  rw [hre _ hl]
  simp [status, isStored]

end BulkCall

/-- With one server, the summary is about all keys.  It is only then, for keys that can be counted
and requests that can be built. -/
theorem bulk_summary_iff (call : BulkCall) :
    (BulkCall.OneServer call → BulkCall.SummaryHolds call) ∧
      (call.check = .ok () → BulkCall.Countable call → call.Builds →
        BulkCall.SummaryHolds call → BulkCall.OneServer call) := by
  refine ⟨BulkCall.summaryHolds_of_oneServer, fun hc hco hb hs i i' hi hi' => ?_⟩
  by_contra hne
  exact BulkCall.not_summaryHolds hc hco hb hi hi' hne hs

/-- Two keys on the first of two servers. -/
theorem bulk_summary_first_server :
    BulkCall.SummaryHolds (sameKeys 2 (fun _ => 0) fun _ => Nat.two_pos) := by
  refine (bulk_summary_iff _).1 fun i i' hi hi' => ?_
  obtain ⟨x, hx⟩ := exists_mem_of_ne_nil _ hi
  obtain ⟨x', hx'⟩ := exists_mem_of_ne_nil _ hi'
  exact (BulkCall.mem_keysOf.1 hx).2.symm.trans (BulkCall.mem_keysOf.1 hx').2

/-- One key for each of two servers, and the second is stored.  The summary looks at the first, and
says that all failed.  And two keys on one server that answers for the first only: all are said to be
stored. -/
theorem bulk_summary_not_all :
    (∃ r, (sameKeys 2 (· % 2) fun x => Nat.mod_lt x (by decide)).doCollPipedInsertBulk
        (fun i => [⟨.success, .line (if i = 0 then .notfound else .stored), false⟩]) = .ok r ∧
      r.pipedRc = .allFailure ∧ r.results 1 = some .stored) ∧
    ∃ r, (sameKeys 2 (fun _ => 0) fun _ => Nat.two_pos).doCollPipedInsertBulk
        (fun _ => [⟨.success, .failed .failure, false⟩,
          ⟨.success, .response 1 [.ok .stored, .ok .endOfReply], false⟩]) = .ok r ∧
      r.pipedRc = .allSuccess ∧ ¬isStored (r.results 1) :=
  ⟨⟨_, rfl, by decide, by decide⟩, ⟨_, rfl, by decide, by unfold isStored; decide⟩⟩

end ArcusClient.Coll
