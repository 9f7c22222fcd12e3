import ArcusClient.Collection.PipedInsert
import ArcusClient.Lib.Outcome

/-!
# Piped insertion does every item once

A status other than `SWITCHOVER` and `REPL_SLAVE` is *final*.  The items below
`pipe_responses_length` have one final status each, in their place of the array, and the items of the
current batch are those from there on (`AtHead`).  A batch of one item is the exception: its status is
not yet in the array when the client goes back by one.
-/

namespace ArcusClient.Coll

open CString Outcome List Function PipeSt Phase

/-! ## The log -/

def finalStatuses (log : List Event) (item : Nat) : List ReturnT :=
  log.filterMap fun
    | .sent _ => none
    | .answered item' status => if item' = item ∧ isSwitch status = false then some status else none

theorem finalStatuses_append (log log' : List Event) (item : Nat) :
    finalStatuses (log ++ log') item = finalStatuses log item ++ finalStatuses log' item :=
  filterMap_append

@[simp] theorem finalStatuses_sent (items : List Nat) (item : Nat) :
    finalStatuses (items.map Event.sent) item = [] := by
  simp [finalStatuses]

theorem finalStatuses_cons_answered (item' : Nat) (status : ReturnT) (log : List Event)
    (item : Nat) :
    finalStatuses (.answered item' status :: log) item =
      (if item' = item ∧ isSwitch status = false then [status] else []) ++ finalStatuses log item := by
  simp only [finalStatuses, filterMap_cons]
  split_ifs <;> rfl

variable {item k : Nat}

theorem finalStatuses_answers_of_lt (h : item < k) (b : Nat) (statuses : List ReturnT) :
    finalStatuses (List.zipWith Event.answered (List.range' k b) statuses) item = [] := by
  induction statuses generalizing k b with
  | nil => simp [finalStatuses]
  | cons status rest ih =>
    cases b with
    | zero => rfl
    | succ b =>
      have hn : ¬(k = item ∧ isSwitch status = false) := fun hk => by omega
      rw [range'_succ, zipWith_cons_cons, finalStatuses_cons_answered, if_neg hn]
      exact ih (by omega) b

variable {statuses : List ReturnT}

theorem finalStatuses_answers (hb : statuses.length ≤ b) (j : Nat) :
    finalStatuses (List.zipWith Event.answered (List.range' k b) statuses) (k + j) =
      (statuses[j]?.filter fun status => !isSwitch status).toList := by
  induction statuses generalizing k b j with
  | nil => simp [finalStatuses]
  | cons status rest ih =>
    obtain ⟨b, rfl⟩ : ∃ b', b = b' + 1 := ⟨b - 1, by simp at hb; omega⟩
    rw [range'_succ, zipWith_cons_cons, finalStatuses_cons_answered]
    cases j with
    | zero =>
      rw [Nat.add_zero, finalStatuses_answers_of_lt (Nat.lt_succ_self k)]
      cases hs : isSwitch status <;> simp [hs, Option.filter]
    | succ j =>
      have hn : ¬(k = k + (j + 1) ∧ isSwitch status = false) := fun hk => by omega
      have hr := ih (k := k + 1) (b := b) (by simpa using hb) j
      rw [if_neg hn, show k + (j + 1) = k + 1 + j by omega, hr]
      rfl

/-- The second event may come after the first: an item with a final status is not sent. -/
def MayFollow (e e' : Event) : Prop :=
  ∀ item status, e = .answered item status → isSwitch status = false → e' ≠ .sent item

def NeverAgain (log : List Event) : Prop := log.Pairwise MayFollow

theorem mayFollow_answered (e : Event) (item : Nat) (status : ReturnT) :
    MayFollow e (.answered item status) :=
  fun _ _ _ _ h => Event.noConfusion h

theorem mayFollow_of_sent (item : Nat) (e : Event) : MayFollow (.sent item) e :=
  fun _ _ h => Event.noConfusion h

theorem NeverAgain.append_sent {log : List Event} (h : NeverAgain log) {items : List Nat}
    (hite : ∀ item ∈ items, finalStatuses log item = []) :
    NeverAgain (log ++ items.map Event.sent) := by
  refine pairwise_append.2 ⟨h, ?_, ?_⟩
  · rw [pairwise_map]
    exact pairwise_of_forall fun item item' => mayFollow_of_sent item _
  · rintro e he e' he' item status rfl hf rfl
    obtain ⟨item', hm, hitem⟩ := mem_map.1 he'
    obtain rfl : item' = item := by simpa using hitem
    have hin : status ∈ finalStatuses log item' :=
      mem_filterMap.2 ⟨_, he, by simp [hf]⟩
    rw [hite item' hm] at hin
    exact not_mem_nil hin

theorem NeverAgain.append_answers {log : List Event} (h : NeverAgain log) (items : List Nat)
    (statuses : List ReturnT) : NeverAgain (log ++ List.zipWith Event.answered items statuses) := by
  have ha : ∀ e ∈ zipWith Event.answered items statuses, ∃ item status,
      e = Event.answered item status := by
    intro e he
    rw [← map_uncurry_zip_eq_zipWith] at he
    obtain ⟨⟨item, status⟩, -, rfl⟩ := mem_map.1 he
    exact ⟨item, status, rfl⟩
  refine pairwise_append.2 ⟨h, ?_, ?_⟩
  · refine Pairwise.imp_of_mem ?_ (pairwise_of_forall (R := fun _ _ => True) fun _ _ => trivial)
    intro e e' _ he' _
    obtain ⟨item, status, rfl⟩ := ha e' he'
    exact mayFollow_answered e item status
  · intro e _ e' he'
    obtain ⟨item, status, rfl⟩ := ha e' he'
    exact mayFollow_answered e item status

/-! ## Replicas -/

def ReadFailure (rc : ReturnT) : Prop :=
  rc ∉ [ReturnT.success, .stored, .createdStored, .endOfReply, .switchover, .replSlave]

/-- The answers to a batch of `b` items. -/
inductive Conforms (b : Nat) : Answer → Prop where
  /-- The only item has a status. -/
  | single (status : ReturnT) (hb : b = 1) : Conforms b (.line status)
  /-- All items have a final status. -/
  | full (statuses : List ReturnT) (hb : 1 < b) (hlength : statuses.length = b)
      (hfinal : ∀ status ∈ statuses, isSwitch status = false) :
      Conforms b (.response b (statuses.map .ok ++ [.ok .endOfReply]))
  /-- The replica stops at an item, because it is not the master any more. -/
  | cut (statuses : List ReturnT) (code : ReturnT) (hb : 1 < b) (hlength : statuses.length < b)
      (hfinal : ∀ status ∈ statuses, isSwitch status = false) (hcode : isSwitch code = true) :
      Conforms b (.response (statuses.length + 1)
        ((statuses ++ [code]).map .ok ++ [.ok .pipeErrorBadError]))
  /-- No line of the reply comes through. -/
  | lost (rc : ReturnT) (hrc : ReadFailure rc) : Conforms b (.failed rc)
  /-- The connection breaks within the reply. -/
  | broken (statuses : List ReturnT) (count : Nat) (rc : ReturnT) (hb : 1 < b)
      (hlength : statuses.length ≤ count) (hcount : count ≤ b) (hrc : ReadFailure rc) :
      Conforms b (.response count (statuses.map .ok ++ [.error rc]))

def PipedCall.last (call : PipedCall) (s : PipeSt) : Bool :=
  !call.more { s with requestedItems := s.requestedItems + 1 }

/-- A turn of the loop in which the replica keeps to the protocol. -/
structure Turns (call : PipedCall) (env : Turn) (s t : PipeSt) : Prop where
  enters : call.enters s
  conforms : call.last s = true → Conforms (sendItem call env.write s).wire.length env.answer
  eq : t = turn call env s

/-- A batch of one item is answered with a switchover, and the client turns to the new master. -/
def loneSwitch (env : Turn) : Bool :=
  match env.answer with
  | .line status => isSwitch status && env.switched
  | _ => false

/-! ## Sending an item -/

theorem generateStrBkeyFromQuery_ends (stack : Nat → CStr) (query : Query) (bufferLength : Nat)
    (supportRange : Bool) : Ends (· ≠ .success) (fun _ => True)
      (generateStrBkeyFromQuery stack query bufferLength supportRange) := by
  unfold generateStrBkeyFromQuery
  -- the last test is on the length of the text, the others are on the type
  cases query.type <;> cases supportRange <;>
    simp only [if_true, if_false, Bool.false_eq_true] <;>
    first | (split_ifs <;> simp) | simp

def IsRefusal (refusal : Refusal) : Prop := ∃ rc, refusal = .returns rc ∧ rc ≠ .success

theorem IsRefusal.ne (h : IsRefusal refusal) : refusal ≠ .returns .success := by
  obtain ⟨rc, rfl, hr⟩ := h
  exact fun he => hr (Refusal.returns.inj he)

theorem itemSubKey_ends (stack : Nat → CStr) (query : Query) (eflag : Option Hexadecimal)
    (verb : Verb) : Ends IsRefusal (fun _ => True) (itemSubKey stack query eflag verb) := by
  have hin : IsRefusal (.returns .invalidArguments) := ⟨_, rfl, by decide⟩
  cases verb with
  | lopInsert | sopInsert => trivial
  | mopInsert =>
    simp only [itemSubKey, insertSubKey, mkeyText]
    split_ifs
    · exact hin
    · trivial
  | bopInsert =>
    have hb := generateStrBkeyFromQuery_ends stack query defaultCommandSize false
    simp only [itemSubKey, insertSubKey, bkeyText]
    cases hq : generateStrBkeyFromQuery stack query defaultCommandSize false with
    | ok bkey => trivial
    | error rc =>
      rw [hq] at hb
      exact ⟨rc, rfl, hb⟩
  | _ => exact hin

/-- A refused item is not reported as a success, and the last item of a batch is not collected. -/
theorem internalCollPipedInsert_ends (c : Client) (stack : Nat → CStr) (pipeBufferPos : Nat)
    (key : KeyMemory) (query : Query) (eflag : Option Hexadecimal)
    (attributes : Option CreateAttrs) (verb : Verb) :
    Ends (· ≠ .returns .success) (fun item => c.piped = false → ∃ r, item = .flushed r)
      (internalCollPipedInsert c stack pipeBufferPos key query eflag attributes verb) := by
  refine (itemSubKey_ends stack query eflag verb).andThen (fun _ h => h.ne)
    fun subKey _ => ?_
  refine Ends.bind (Q := fun _ => True) ?_ fun line _ => ?_
  · unfold fits
    split_ifs <;> simp [refuse]
  · unfold collectOrFlush
    split_ifs with hc
    · have hp : c.piped = true := by simp at hc; exact hc.1
      dsimp only
      split_ifs
      · exact fun h => Bool.noConfusion (hp.symm.trans h)
      · simp
    · exact fun _ => ⟨_, rfl⟩

/-- What holds whenever the condition of the loop is tested. -/
structure AtHead (n : Nat) (s : PipeSt) : Prop where
  index : s.i = (s.pipeResponsesLength + s.requestedItems : Nat)
  room : s.pipeResponsesLength + s.requestedItems ≤ n
  /-- A batch does not end with the last item without a reply. -/
  unfinished : s.requestedItems ≠ 0 → s.pipeResponsesLength + s.requestedItems < n
  /-- The items of the batch. -/
  batch : s.wire ++ s.buffered = List.range' s.pipeResponsesLength s.requestedItems
  settled : ∀ item < s.pipeResponsesLength, ∃ status,
    s.responses item = some status ∧ finalStatuses s.log item = [status]
  pending : ∀ item, s.pipeResponsesLength ≤ item → finalStatuses s.log item = []
  once : NeverAgain s.log

structure PipeInv (n : Nat) (s : PipeSt) : Prop where
  length_le : s.pipeResponsesLength ≤ n
  once : NeverAgain s.log
  atHead : s.phase = .looping → AtHead n s
  failed : s.phase = .stopped → s.rc ≠ .success

theorem AtHead.inv (h : AtHead n s) (hp : s.phase = .looping) : PipeInv n s where
  length_le := by have := h.room; omega
  once := h.once
  atHead _ := h
  failed hstop := by rw [hp] at hstop; exact noConfusion hstop

structure SendsItem (call : PipedCall) (s t : PipeSt) : Prop where
  looping : t.phase = .looping
  index : t.i = s.i
  requested : t.requestedItems = s.requestedItems + 1
  length_eq : t.pipeResponsesLength = s.pipeResponsesLength
  responses_eq : t.responses = s.responses
  statuses_eq : ∀ item, finalStatuses t.log item = finalStatuses s.log item
  once : NeverAgain t.log
  batch : t.wire ++ t.buffered = List.range' s.pipeResponsesLength (s.requestedItems + 1)
  flushed : call.last s = true → t.buffered = []

theorem AtHead.batch_succ (h : AtHead n s) : (s.wire ++ s.buffered) ++ [s.i.toNat] =
      List.range' s.pipeResponsesLength (s.requestedItems + 1) := by
  rw [h.batch, range'_concat, h.index, Int.toNat_natCast, Nat.one_mul]

theorem AtHead.flushed_pending (h : AtHead n s)
    (hite : item ∈ s.buffered ++ [s.i.toNat]) : finalStatuses s.log item = [] := by
  have hm : item ∈ range' s.pipeResponsesLength (s.requestedItems + 1) := by
    rw [← h.batch_succ, append_assoc]
    exact mem_append_right _ hite
  exact h.pending item (mem_range'_1.1 hm).1

/-- `sendItem` sends the item, or the function fails. -/
theorem sendItem_spec {s : PipeSt} (h : AtHead n s) (hp : s.phase = .looping)
    (call : PipedCall) (write : ReturnT) : SendsItem call s (sendItem call write s) ∨
      (sendItem call write s).phase ≠ .looping ∧ PipeInv n (sendItem call write s) := by
  have hl : s.pipeResponsesLength ≤ n := by have := h.room; omega
  have hn : ¬s.i < 0 := by rw [h.index]; omega
  unfold sendItem
  dsimp only
  rw [if_neg hn]
  cases hite : call.items[s.i.toNat]? with
  | none => exact Or.inr ⟨noConfusion, hl, h.once, noConfusion, noConfusion⟩
  | some entry =>
    obtain ⟨query, eflag⟩ := entry
    dsimp only
    have he := internalCollPipedInsert_ends
      { call.client with piped := call.more { s with requestedItems := s.requestedItems + 1 } }
      call.stack s.pipeBufferPos call.key query eflag call.attributes call.verb
    split
    case h_1 rc heq =>
      have hr : rc ≠ .success := fun hr => he.of_eq_error heq (by rw [hr])
      exact Or.inr ⟨noConfusion, hl, h.once, noConfusion, fun _ => hr⟩
    case h_2 heq =>
      exact Or.inr ⟨noConfusion, hl, h.once, noConfusion, noConfusion⟩
    case h_3 r pos heq =>
      refine Or.inl ⟨hp, rfl, rfl, rfl, rfl, fun _ => rfl, h.once, ?_, fun hla => ?_⟩
      · rw [← append_assoc, h.batch_succ]
      · obtain ⟨r', hr'⟩ := he.of_eq_ok heq (by simpa [PipedCall.last] using hla)
        exact Item.noConfusion hr'
    case h_4 r heq =>
      have ho := h.once.append_sent fun item hm => h.flushed_pending hm
      unfold flush
      dsimp only
      split_ifs with hw
      · refine Or.inl ⟨hp, rfl, rfl, rfl, rfl, fun item => ?_, ho, ?_, fun _ => rfl⟩
        · rw [finalStatuses_append, finalStatuses_sent, append_nil]
        · rw [append_nil, ← append_assoc, h.batch_succ]
      · exact Or.inr ⟨noConfusion, hl, ho, noConfusion, fun _ => hw⟩

/-! ## Reading a reply -/

/-- The array with statuses written from `offset` on. -/
def putFrom : (offset : Nat) → List ReturnT → (Nat → Option ReturnT) → Nat → Option ReturnT
  | _, [], responses => responses
  | offset, status :: rest, responses =>
    putFrom (offset + 1) rest (Function.update responses offset (some status))

theorem putFrom_of_lt (h : item < offset) (statuses : List ReturnT)
    (responses : Nat → Option ReturnT) :
    putFrom offset statuses responses item = responses item := by
  induction statuses generalizing offset responses with
  | nil => rfl
  | cons status rest ih =>
    rw [putFrom, ih (by omega), update_of_ne (by omega)]

theorem putFrom_add
    (h : statuses[j]? = some status) (offset : Nat) (responses : Nat → Option ReturnT) :
    putFrom offset statuses responses (offset + j) = some status := by
  induction statuses generalizing offset responses j with
  | nil => simp at h
  | cons first rest ih =>
    cases j with
    | zero =>
      obtain rfl : first = status := by simpa using h
      rw [putFrom, putFrom_of_lt (by omega), Nat.add_zero, update_self]
    | succ j =>
      rw [show offset + (j + 1) = offset + 1 + j by omega]
      exact ih (by simpa using h) _ _

def lastSwitch (code : ReturnT) (statuses : List ReturnT) : ReturnT :=
  statuses.foldl (fun code status => if isSwitch status then status else code) code

theorem lastSwitch_concat (code : ReturnT) (statuses : List ReturnT)
    (h : isSwitch last = true) : lastSwitch code (statuses ++ [last]) = last := by
  rw [lastSwitch, foldl_append, foldl_cons, foldl_nil, h, if_pos rfl]

theorem fetchStatuses_ok (offset : Nat) (hl : f.lines = statuses.map .ok ++ rest)
    (hr : offset + f.i + statuses.length ≤ 2 ^ 64) (left : Nat) :
    fetchStatuses offset (statuses.length + left) f = fetchStatuses offset left { f with
          i := f.i + statuses.length
          responses := putFrom (offset + f.i) statuses f.responses
          switchoverRc := lastSwitch f.switchoverRc statuses
          lines := rest } := by
  induction statuses generalizing f with
  | nil =>
    obtain ⟨i, responses, switchoverRc, readRc, lines⟩ := f
    obtain rfl : lines = rest := by simpa using hl
    rw [length_nil, Nat.zero_add]
    rfl
  | cons status more ih =>
    rw [length_cons] at hr
    have hm : (offset + f.i) % 2 ^ 64 = offset + f.i := Nat.mod_eq_of_lt (by omega)
    rw [length_cons, show more.length + 1 + left = more.length + left + 1 by omega,
      fetchStatuses, hl, map_cons, cons_append, readline]
    dsimp only
    rw [ih rfl (by dsimp only; omega), hm]
    simp only [putFrom, lastSwitch, foldl_cons, Nat.add_assoc, Nat.add_comm 1]

theorem textualCollPipedResponseFetch_ok (last : ReturnT)
    (hr : s.pipeResponsesLength + statuses.length < 2 ^ 64) :
    textualCollPipedResponseFetch statuses.length (statuses.map .ok ++ [.ok last]) s =
      (if lastSwitch .success statuses ≠ .success ∧ last = .pipeErrorBadError then
        lastSwitch .success statuses else last, { s with
        responses := putFrom s.pipeResponsesLength statuses s.responses
        pipeResponsesLength := s.pipeResponsesLength + statuses.length }) := by
  have hf := fetchStatuses_ok s.pipeResponsesLength
    (f := ⟨0, s.responses, .success, .success, statuses.map .ok ++ [.ok last]⟩) rfl
    (by dsimp only; omega) 0
  rw [Nat.add_zero] at hf
  unfold textualCollPipedResponseFetch
  rw [hf]
  simp only [fetchStatuses, readline, Nat.zero_add, Nat.mod_eq_of_lt hr]
  rw [if_neg (by omega)]
  split_ifs <;> rfl

variable {count : Nat} {rc : ReturnT}

theorem textualCollPipedResponseFetch_broken (hc : statuses.length ≤ count) (hr : rc ≠ .success)
    (hro : s.pipeResponsesLength + statuses.length < 2 ^ 64) :
    textualCollPipedResponseFetch count (statuses.map .ok ++ [.error rc]) s = (rc, { s with
        responses := putFrom s.pipeResponsesLength statuses s.responses
        pipeResponsesLength := s.pipeResponsesLength + statuses.length }) := by
  obtain ⟨left, rfl⟩ : ∃ left, count = statuses.length + left := ⟨count - statuses.length, by omega⟩
  have hf := fetchStatuses_ok s.pipeResponsesLength
    (f := ⟨0, s.responses, .success, .success, statuses.map .ok ++ [.error rc]⟩) rfl
    (by dsimp only; omega) left
  unfold textualCollPipedResponseFetch
  rw [hf]
  cases left with
  | zero =>
    simp only [fetchStatuses, readline, Nat.zero_add, Nat.add_zero, Nat.mod_eq_of_lt hro]
    rw [if_neg (by omega)]
  | succ left =>
    simp only [fetchStatuses, readline, Nat.zero_add, Nat.add_zero, Nat.mod_eq_of_lt hro]
    rw [if_pos ⟨by omega, hr⟩]

/-- The statuses of a reply, as far as its lines can be read. -/
theorem statuses_response (hc : statuses.length ≤ count) (line : Line) :
    (Answer.response count (statuses.map .ok ++ [line])).statuses =
      statuses ++ (([line].take (count - statuses.length)).filterMap Except.toOption) := by
  rw [Answer.statuses, take_append, filterMap_append, length_map,
    take_of_length_le (by simpa using hc), filterMap_map]
  congr 1
  exact filterMap_some

/-! ## The end of a batch -/

/-- The whole batch was written, and its reply is to be read. -/
structure BatchSent (n : Nat) (s : PipeSt) : Prop where
  looping : s.phase = .looping
  index : s.i + 1 = (s.pipeResponsesLength + s.requestedItems : Nat)
  room : s.pipeResponsesLength + s.requestedItems ≤ n
  wire_eq : s.wire = List.range' s.pipeResponsesLength s.requestedItems
  buffered_eq : s.buffered = []
  settled : ∀ item < s.pipeResponsesLength, ∃ status,
    s.responses item = some status ∧ finalStatuses s.log item = [status]
  pending : ∀ item, s.pipeResponsesLength ≤ item → finalStatuses s.log item = []
  once : NeverAgain s.log

variable {call : PipedCall} {t : PipeSt}

/-- Sending an item changes nothing about the items that have a final status. -/
theorem AtHead.settled_sent (h : AtHead n s)
    (hs : SendsItem call s t) : ∀ item < t.pipeResponsesLength, ∃ status,
      t.responses item = some status ∧ finalStatuses t.log item = [status] := by
  rw [hs.length_eq, hs.responses_eq]
  intro item hite
  rw [hs.statuses_eq]
  exact h.settled item hite

theorem AtHead.pending_sent (h : AtHead n s) (hs : SendsItem call s t) :
    ∀ item, t.pipeResponsesLength ≤ item → finalStatuses t.log item = [] := by
  intro item hite
  rw [hs.length_eq] at hite
  rw [hs.statuses_eq, h.pending item hite]

theorem AtHead.batchSent (h : AtHead n s)
    (hin : s.i < n) (hs : SendsItem call s t) (hl : call.last s = true) : BatchSent n t where
  looping := hs.looping
  index := by rw [hs.index, hs.length_eq, hs.requested, h.index]; omega
  room := by have := h.index; rw [hs.length_eq, hs.requested]; omega
  wire_eq := by
    have hb := hs.batch
    rw [hs.flushed hl, append_nil] at hb
    rw [hb, hs.length_eq, hs.requested]
  buffered_eq := hs.flushed hl
  settled := h.settled_sent hs
  pending := h.pending_sent hs
  once := hs.once

variable {n : Nat} {s : PipeSt}

def PipeSt.logAfter (s : PipeSt) (statuses : List ReturnT) : List Event :=
  s.log ++ List.zipWith Event.answered s.wire statuses

theorem BatchSent.once_after (h : BatchSent n s) (statuses : List ReturnT) :
    NeverAgain (s.logAfter statuses) :=
  h.once.append_answers s.wire statuses

/-- The items with a final status have it in their place of the array. -/
theorem BatchSent.settled_after (h : BatchSent n s)
    (hl : statuses.length ≤ s.requestedItems) (hk : k ≤ statuses.length)
    (hf : ∀ status ∈ statuses.take k, isSwitch status = false) :
    ∀ item < s.pipeResponsesLength + k, ∃ status,
      putFrom s.pipeResponsesLength statuses s.responses item = some status ∧
        finalStatuses (s.logAfter statuses) item = [status] := by
  intro item hite
  rw [logAfter, finalStatuses_append, h.wire_eq]
  by_cases ho : item < s.pipeResponsesLength
  · rw [putFrom_of_lt ho, finalStatuses_answers_of_lt ho, append_nil]
    exact h.settled item ho
  · obtain ⟨j, rfl⟩ : ∃ j, item = s.pipeResponsesLength + j := ⟨item - s.pipeResponsesLength, by omega⟩
    have hj : j < statuses.length := by omega
    have hg : statuses[j]? = some statuses[j] := getElem?_eq_getElem hj
    have hs : isSwitch statuses[j] = false := by
      refine hf _ (mem_of_getElem? (i := j) ?_)
      rw [getElem?_take_of_lt (by omega), hg]
    refine ⟨statuses[j], putFrom_add hg _ _, ?_⟩
    rw [h.pending _ (by omega), finalStatuses_answers hl, hg]
    simp [hs]

theorem BatchSent.pending_after (h : BatchSent n s) (hl : statuses.length ≤ s.requestedItems)
    (hr : ∀ status ∈ statuses.drop k, isSwitch status = true) :
    ∀ item, s.pipeResponsesLength + k ≤ item → finalStatuses (s.logAfter statuses) item = [] := by
  intro item hite
  obtain ⟨j, rfl⟩ : ∃ j, item = s.pipeResponsesLength + (k + j) :=
    ⟨item - s.pipeResponsesLength - k, by omega⟩
  rw [logAfter, finalStatuses_append, h.wire_eq, h.pending _ (by omega),
    finalStatuses_answers hl]
  cases hg : statuses[k + j]? with
  | none => rfl
  | some status =>
    have hs := hr status (mem_of_getElem? (i := j) (by rw [getElem?_drop, hg]))
    simp [hs]

/-- The state after the first `k` items of a batch are done. -/
theorem BatchSent.atHead (h : BatchSent n s) (statuses : List ReturnT)
    (hl : statuses.length ≤ s.requestedItems) (hk : k ≤ statuses.length)
    (hf : ∀ status ∈ statuses.take k, isSwitch status = false)
    (hr : ∀ status ∈ statuses.drop k, isSwitch status = true) (hlo : t.log = s.logAfter statuses)
    (hre : t.responses = putFrom s.pipeResponsesLength statuses s.responses)
    (ht : t.pipeResponsesLength = s.pipeResponsesLength + k)
    (hi : t.i = (s.pipeResponsesLength + k : Nat)) (hreq : t.requestedItems = 0)
    (hw : t.wire = []) (hb : t.buffered = []) : AtHead n t where
  index := by rw [hi, ht, hreq, Nat.add_zero]
  room := by have := h.room; rw [hreq]; omega
  unfinished hne := absurd hreq hne
  batch := by rw [hw, hb, hreq]; rfl
  settled := by
    rw [ht, hre, hlo]
    exact h.settled_after hl hk hf
  pending := by
    rw [ht, hlo]
    exact h.pending_after hl hr
  once := by
    rw [hlo]
    exact h.once_after statuses

theorem BatchSent.stopped (h : BatchSent n s) (statuses : List ReturnT)
    (hl : t.log = s.logAfter statuses) (hle : t.pipeResponsesLength ≤ n)
    (hp : t.phase = .stopped) (hr : t.rc ≠ .success) : PipeInv n t where
  length_le := hle
  once := by rw [hl]; exact h.once_after statuses
  atHead hloop := by rw [hp] at hloop; exact noConfusion hloop
  failed _ := hr

variable {size : Nat}

theorem sizePred_succ (h : size + 1 < 2 ^ 64) : sizePred (size + 1) = size := by
  unfold sizePred
  omega

theorem toInt_of_lt (h : size < 2 ^ 31) : toInt size = size := by
  unfold toInt
  rw [Int.bmod_def]
  omega

theorem toInt_sizePred (h : size < 2 ^ 31) : toInt (sizePred size) + 1 = size := by
  cases size with
  | zero => decide
  | succ size =>
    rw [sizePred_succ (by omega), toInt_of_lt (by omega)]
    rfl

theorem rewind_eq (hs : sizePred s.pipeResponsesLength = size) (h : size < 2 ^ 31) :
    rewind s = { s with pipeResponsesLength := size, i := size, requestedItems := 0 } := by
  unfold rewind
  dsimp only
  rw [hs, toInt_sizePred h]

theorem isSwitch_iff : isSwitch rc = true ↔ rc = .switchover ∨ rc = .replSlave := by
  simp [isSwitch]

theorem ReadFailure.ne (h : ReadFailure rc) :
    rc ≠ .success ∧ rc ≠ .endOfReply ∧ isSwitch rc = false ∧ ¬(rc = .stored ∨ rc = .createdStored) := by
  simp only [ReadFailure, mem_cons, not_or] at h
  simp [isSwitch, h]

theorem settle_stop (hm : s.requestedItems ≠ 1) (he : rc ≠ .endOfReply)
    (hr : rc ≠ .success) : settle rc s = s.stop rc := by
  simp only [settle, settleWith, if_neg hm, if_neg he, if_pos hr]

theorem settle_end (hm : s.requestedItems ≠ 1) :
    settle .endOfReply s = { s with rc := .success, requestedItems := 0, i := s.i + 1 } := by
  simp [settle, settleWith, if_neg hm]

/-- The state after a reply to several items was read. -/
def PipeSt.answeredWith (s : PipeSt) (statuses : List ReturnT) : PipeSt :=
  { s with
    log := s.logAfter statuses
    wire := []
    responses := putFrom s.pipeResponsesLength statuses s.responses
    pipeResponsesLength := s.pipeResponsesLength + statuses.length }

theorem collResponse_ok (last : ReturnT) (hr : s.pipeResponsesLength + statuses.length < 2 ^ 64) :
    let answer := Answer.response statuses.length (statuses.map .ok ++ [.ok last])
    collResponse answer (s.record answer) =
      (if lastSwitch .success statuses ≠ .success ∧ last = .pipeErrorBadError then
        lastSwitch .success statuses else last, s.answeredWith statuses) := by
  intro answer
  have hs : answer.statuses = statuses := by
    rw [statuses_response le_rfl]
    simp
  have hre := textualCollPipedResponseFetch_ok (s := s.record answer) last hr
  rw [collResponse, hre, record, hs]
  rfl

theorem collResponse_broken (hc : statuses.length ≤ count) (hr : rc ≠ .success)
    (hro : s.pipeResponsesLength + statuses.length < 2 ^ 64) :
    let answer := Answer.response count (statuses.map .ok ++ [.error rc])
    collResponse answer (s.record answer) = (rc, s.answeredWith statuses) := by
  intro answer
  have hs : answer.statuses = statuses := by
    rw [statuses_response hc]
    cases count - statuses.length <;> simp [Except.toOption]
  have hre := textualCollPipedResponseFetch_broken (s := s.record answer) hc hr hro
  rw [collResponse, hre, record, hs]
  rfl

/-- The status of a batch of one item goes to its place after the reply was read. -/
theorem BatchSent.receive_single (h : BatchSent n s) (hn : n < 2 ^ 31) (ho : s.requestedItems = 1)
    (hno : (isSwitch status && switched) = false) :
    PipeInv n (receive (.line status) switched s) := by
  have hr := h.room
  have hp : update s.responses s.pipeResponsesLength (some status) =
      putFrom s.pipeResponsesLength [status] s.responses := rfl
  have hm : (s.pipeResponsesLength + 1) % 2 ^ 64 = s.pipeResponsesLength + 1 :=
    Nat.mod_eq_of_lt (by omega)
  simp only [receive, collResponse, hno, Bool.false_eq_true, if_false]
  simp only [settle, settleWith, record, ho, if_true, hm]
  by_cases hf : (if status = .stored ∨ status = .createdStored then ReturnT.success else status) =
      .success
  · rw [if_neg (not_not_intro hf)]
    have hs : isSwitch status = false := by
      split_ifs at hf with hst
      · rcases hst with rfl | rfl <;> rfl
      · rw [hf]; rfl
    refine AtHead.inv (h.atHead [status] (k := 1) (by simp [ho]) le_rfl
      (by simpa using hs) (by simp) rfl rfl rfl ?_ rfl rfl h.buffered_eq) h.looping
    rw [h.index, ho]
  · rw [if_pos hf]
    refine h.stopped [status] rfl ?_ rfl hf
    rw [ho] at hr
    exact hr

theorem BatchSent.receive_full (h : BatchSent n s) (hn : n < 2 ^ 31) (hm : 1 < s.requestedItems)
    (hl : statuses.length = s.requestedItems)
    (hf : ∀ status ∈ statuses, isSwitch status = false) (switched : Bool) :
    PipeInv n (receive (.response statuses.length (statuses.map .ok ++ [.ok .endOfReply]))
      switched s) := by
  have hr := h.room
  rw [receive, collResponse_ok .endOfReply (by omega), if_neg (by simp)]
  dsimp only
  rw [settle_end (s := s.answeredWith statuses) (Nat.ne_of_gt hm)]
  refine AtHead.inv (h.atHead statuses (k := statuses.length) hl.le le_rfl
    (fun status hme => hf status (mem_of_mem_take hme)) (by simp) rfl rfl rfl ?_ rfl rfl
    h.buffered_eq) h.looping
  exact h.index.trans (by rw [hl])

theorem BatchSent.receive_cut (h : BatchSent n s) (hn : n < 2 ^ 31) (hm : 1 < s.requestedItems)
    (hl : statuses.length < s.requestedItems)
    (hf : ∀ status ∈ statuses, isSwitch status = false) (hc : isSwitch code = true)
    (switched : Bool) : PipeInv n (receive (.response (statuses ++ [code]).length
      ((statuses ++ [code]).map .ok ++ [.ok .pipeErrorBadError])) switched s) := by
  have hr := h.room
  have hs : (statuses ++ [code]).length = statuses.length + 1 := by simp
  have hne : code ≠ .success ∧ code ≠ .endOfReply := by
    rcases isSwitch_iff.1 hc with rfl | rfl <;> simp
  rw [receive, collResponse_ok .pipeErrorBadError (by omega), lastSwitch_concat _ _ hc,
    if_pos ⟨hne.1, rfl⟩]
  dsimp only
  rw [hc, Bool.true_and]
  cases switched with
  | true =>
    have hb : sizePred (s.pipeResponsesLength + (statuses ++ [code]).length) =
        s.pipeResponsesLength + statuses.length := by
      rw [hs, ← Nat.add_assoc, sizePred_succ (by omega)]
    rw [rewind_eq (s := { s.answeredWith (statuses ++ [code]) with rc := code }) hb (by omega)]
    refine AtHead.inv (h.atHead (statuses ++ [code]) (k := statuses.length)
      (by omega) (by omega) ?_ ?_ rfl rfl rfl rfl rfl rfl h.buffered_eq) h.looping
    · rw [take_left]
      exact hf
    · simpa using hc
  | false =>
    rw [if_neg Bool.false_ne_true,
      settle_stop (s := s.answeredWith (statuses ++ [code])) (Nat.ne_of_gt hm) hne.2 hne.1]
    refine h.stopped (statuses ++ [code]) rfl ?_ rfl hne.1
    simp only [stop, answeredWith]
    omega

theorem BatchSent.receive_broken (h : BatchSent n s) (hn : n < 2 ^ 31) (hm : 1 < s.requestedItems)
    (hl : statuses.length ≤ count)
    (hc : count ≤ s.requestedItems) (hr : ReadFailure rc) (switched : Bool) :
    PipeInv n (receive (.response count (statuses.map .ok ++ [.error rc])) switched s) := by
  have hro := h.room
  obtain ⟨hs, he, hsw, -⟩ := hr.ne
  rw [receive, collResponse_broken hl hs (by omega)]
  dsimp only
  rw [if_neg (by simp [hsw]),
    settle_stop (s := s.answeredWith statuses) (Nat.ne_of_gt hm) he hs]
  refine h.stopped statuses rfl ?_ rfl hs
  simp only [stop, answeredWith]
  omega

theorem BatchSent.receive_lost (h : BatchSent n s) (hn : n < 2 ^ 31) (hs : 0 < s.requestedItems)
    (hr : ReadFailure rc) (switched : Bool) : PipeInv n (receive (.failed rc) switched s) := by
  have hro := h.room
  obtain ⟨hsu, he, hsw, hst⟩ := hr.ne
  have hl : s.log ++ zipWith Event.answered s.wire [] = s.logAfter [] := rfl
  simp only [receive, collResponse, hsw, Bool.false_and, Bool.false_eq_true, if_false]
  by_cases ho : s.requestedItems = 1
  · simp only [settle, settleWith, record, ho, if_true, if_neg hst, if_pos hsu]
    refine h.stopped [] hl ?_ rfl hsu
    simp only [stop]
    omega
  · rw [settle_stop (s := s.record (.failed rc)) ho he hsu]
    refine h.stopped [] hl ?_ rfl hsu
    simp only [stop, record]
    omega

variable {env : Turn}

theorem BatchSent.receive_inv (h : BatchSent n s) (hn : n < 2 ^ 31) (hs : 0 < s.requestedItems)
    (ha : Conforms s.wire.length env.answer) (hl : loneSwitch env = false) :
    PipeInv n (receive env.answer env.switched s) := by
  obtain ⟨write, answer, switched⟩ := env
  rw [h.wire_eq, length_range'] at ha
  cases ha with
  | single status hb => exact h.receive_single hn hb hl
  | full statuses hb hle hf =>
    rw [← hle]
    exact h.receive_full hn hb hle hf switched
  | cut statuses code hb hle hf hc =>
    have hcu := h.receive_cut hn hb hle hf hc switched
    rwa [length_append, length_singleton] at hcu
  | lost rc hr => exact h.receive_lost hn hs hr switched
  | broken statuses count rc hb hle hco hr =>
    exact h.receive_broken hn hb hle hco hr switched

/-! ## Runs of the loop -/

theorem AtHead.next (h : AtHead n s) (hin : s.i < n)
    (hs : SendsItem call s t) (hm : s.i + 1 ≠ n) : AtHead n { t with i := t.i + 1 } where
  index := by
    rw [hs.index, hs.length_eq, hs.requested, h.index]
    rfl
  room := by
    have := h.index
    rw [hs.length_eq, hs.requested]
    omega
  unfinished _ := by
    have := h.index
    rw [hs.length_eq, hs.requested]
    omega
  batch := by
    rw [hs.batch, hs.length_eq, hs.requested]
  settled := h.settled_sent (t := t) hs
  pending := h.pending_sent (t := t) hs
  once := hs.once

/-- A turn keeps the invariant, if no batch of one item is cut short. -/
theorem PipeInv.turn (h : PipeInv call.count s)
    (hn : call.count < 2 ^ 31) (ht : Turns call env s t) (hl : loneSwitch env = false) :
    PipeInv call.count t := by
  obtain ⟨hp, hin⟩ := ht.enters
  have hh := h.atHead hp
  rw [toInt_of_lt hn] at hin
  rw [ht.eq]
  rcases sendItem_spec hh hp call env.write with hs | ⟨hle, hinv⟩
  · unfold Coll.turn
    rw [if_neg (not_not_intro hs.looping)]
    cases hm : call.more { s with requestedItems := s.requestedItems + 1 } with
    | true =>
      refine (hh.next hin hs fun he => ?_).inv hs.looping
      simp [PipedCall.more, toInt_of_lt hn, he] at hm
    | false =>
      have hla : call.last s = true := by rw [PipedCall.last, hm]; rfl
      have hso : 0 < (sendItem call env.write s).requestedItems := by
        rw [hs.requested]; omega
      exact (hh.batchSent hin hs hla).receive_inv hn hso (ht.conforms hla) hl
  · unfold Coll.turn
    rw [if_pos hle]
    exact hinv

theorem pipeStart_inv (n : Nat) : PipeInv n pipeStart := by
  have hh : AtHead n pipeStart :=
    { index := rfl
      room := Nat.zero_le n
      unfinished := fun hn => absurd rfl hn
      batch := rfl
      settled := fun item hite => absurd hite (Nat.not_lt_zero item)
      pending := fun _ _ => rfl
      once := Pairwise.nil }
  exact hh.inv rfl

theorem AtHead.complete (h : AtHead n s) (ho : ¬s.i < n) : s.pipeResponsesLength = n := by
  have hin := h.index
  have hr := h.room
  by_cases hz : s.requestedItems = 0
  · omega
  · have := h.unfinished hz
    omega

/-- The index and the number of statuses stay in range, no item with a final status is sent again, and
after a success every item has one final status, which is reported for it. -/
structure EachItemOnce (call : PipedCall) (s : PipeSt) : Prop where
  index : call.enters s → 0 ≤ s.i ∧ s.i < call.count
  length_le : s.pipeResponsesLength ≤ call.count
  never_again : NeverAgain s.log
  own_status : call.returns s → (finish call s).rc = .success → ∀ item < call.count, ∃ status,
    (finish call s).responses item = some status ∧ finalStatuses s.log item = [status]

theorem PipeInv.eachItemOnce (h : PipeInv call.count s)
    (hn : call.count < 2 ^ 31) : EachItemOnce call s where
  index := by
    rintro ⟨hp, hin⟩
    have hind := (h.atHead hp).index
    rw [toInt_of_lt hn] at hin
    omega
  length_le := h.length_le
  never_again := h.once
  own_status := by
    rintro ⟨hb, ho⟩ (hr : s.rc = .success) item hite
    have hp : s.phase = .looping := by
      cases hp : s.phase with
      | looping => rfl
      | stopped => exact absurd hr (h.failed hp)
      | outOfBounds => exact absurd hp hb
    have hh := h.atHead hp
    have ha : s.pipeResponsesLength = call.count := by
      refine hh.complete fun hin => ho ⟨hp, ?_⟩
      rwa [toInt_of_lt hn]
    obtain ⟨status, hs, hf⟩ := hh.settled item (by omega)
    refine ⟨status, ?_, hf⟩
    simp only [finish]
    rw [if_neg (by simp [hr]), hs]

/-- Each item is inserted once and has its own status, as long as no batch of one item is answered
with a switchover. -/
theorem piped_items_once (call : PipedCall) (hn : call.count < 2 ^ 31) (s : PipeSt)
    (hrun : Relation.ReflTransGen
      (fun s t => ∃ env, Turns call env s t ∧ loneSwitch env = false) pipeStart s) :
    EachItemOnce call s := by
  refine PipeInv.eachItemOnce ?_ hn
  refine Runs.run_invariant (I := PipeInv call.count) ?_ (pipeStart_inv call.count) hrun
  rintro s t hs ⟨env, ht, hl⟩
  exact hs.turn hn ht hl

def pipingClient : Client where
  noReply := false
  piped := false
  bufferRequests := false
  useUdp := false
  binaryProtocol := false
  verifyKey := false
  serverCount := 1

def elementQuery (value : List Byte) : Query where
  type := .sop
  subKey := ⟨0, (0, 0), 0, (0, 0), [], ([], []), ⟨[], 0⟩, []⟩
  value := value
  valueLength := value.length
  offset := 0
  count := 0
  eflagFilter := none

def setInsertion (values : List (List Byte)) : PipedCall where
  client := pipingClient
  stack := fun _ => []
  key := ⟨[107], [0]⟩
  items := values.map fun value => (elementQuery value, none)
  attributes := none
  verb := .sopInsert

theorem Turns.collect (he : call.enters s)
    (hm : call.last s = false) : Turns call env s (turn call env s) :=
  ⟨he, fun hl => Bool.noConfusion (hm.symm.trans hl), rfl⟩

theorem Turns.answer (b : Nat) (he : call.enters s)
    (hl : (sendItem call env.write s).wire.length = b) (ha : Conforms b env.answer) :
    Turns call env s (turn call env s) :=
  ⟨he, fun _ => hl ▸ ha, rfl⟩

def collects : Turn := ⟨.success, .failed .timeout, false⟩

def stopsAtSecond : Turn :=
  ⟨.success, .response 2 [.ok .stored, .ok .switchover, .ok .pipeErrorBadError], true⟩

theorem conforms_stopsAtSecond : Conforms 2 stopsAtSecond.answer :=
  .cut [.stored] .switchover (by decide) (by decide) (by decide) rfl

def replies (status : ReturnT) : Turn := ⟨.success, .line status, isSwitch status⟩

/-- A replica stops at the second element, and the client sends it to the new master. -/
theorem piped_items_once_cut : ∃ s, EachItemOnce (setInsertion [[97], [98]]) s ∧
    (setInsertion [[97], [98]]).returns s ∧
    (finish (setInsertion [[97], [98]]) s).rc = .success := by
  let call := setInsertion [[97], [98]]
  let s₁ := turn call collects pipeStart
  let s₂ := turn call stopsAtSecond s₁
  let s₃ := turn call (replies .stored) s₂
  have h₁ : Turns call collects pipeStart s₁ := .collect (by decide) (by decide)
  have h₂ : Turns call stopsAtSecond s₁ s₂ :=
    .answer 2 (by decide +kernel) (by decide +kernel) conforms_stopsAtSecond
  have h₃ : Turns call (replies .stored) s₂ s₃ :=
    .answer 1 (by decide +kernel) (by decide +kernel) (.single .stored rfl)
  refine ⟨s₃, piped_items_once call (by decide) s₃ ?_, ⟨by decide +kernel, by decide +kernel⟩,
    by decide +kernel⟩
  exact ((Relation.ReflTransGen.single ⟨_, h₁, rfl⟩).tail ⟨_, h₂, rfl⟩).tail ⟨_, h₃, rfl⟩

/-- With one item the index becomes negative.  With two, and a switchover at the second one that
is followed by another, the first item is sent again. -/
theorem lone_switch_goes_back_too_far :
    (∃ s, Relation.ReflTransGen (fun s t => ∃ env, Turns (setInsertion [[97]]) env s t) pipeStart s ∧
      (setInsertion [[97]]).enters s ∧ s.i = -1 ∧ s.pipeResponsesLength = 2 ^ 64 - 1) ∧
    ∃ s, Relation.ReflTransGen (fun s t => ∃ env, Turns (setInsertion [[97], [98]]) env s t)
      pipeStart s ∧ ¬NeverAgain s.log := by
  constructor
  · let call := setInsertion [[97]]
    let s₁ := turn call (replies .switchover) pipeStart
    have h₁ : Turns call (replies .switchover) pipeStart s₁ :=
      .answer 1 (by decide) (by decide +kernel) (.single .switchover rfl)
    exact ⟨s₁, .single ⟨_, h₁⟩, by decide +kernel, by decide +kernel, by decide +kernel⟩
  · let call := setInsertion [[97], [98]]
    let s₁ := turn call collects pipeStart
    let s₂ := turn call stopsAtSecond s₁
    let s₃ := turn call (replies .switchover) s₂
    let s₄ := turn call collects s₃
    let s₅ := turn call stopsAtSecond s₄
    have h₁ : Turns call collects pipeStart s₁ := .collect (by decide) (by decide)
    have h₂ : Turns call stopsAtSecond s₁ s₂ :=
      .answer 2 (by decide +kernel) (by decide +kernel) conforms_stopsAtSecond
    have h₃ : Turns call (replies .switchover) s₂ s₃ :=
      .answer 1 (by decide +kernel) (by decide +kernel) (.single .switchover rfl)
    have h₄ : Turns call collects s₃ s₄ := .collect (by decide +kernel) (by decide +kernel)
    have h₅ : Turns call stopsAtSecond s₄ s₅ :=
      .answer 2 (by decide +kernel) (by decide +kernel) conforms_stopsAtSecond
    refine ⟨s₅, ((((Relation.ReflTransGen.single ⟨_, h₁⟩).tail ⟨_, h₂⟩).tail ⟨_, h₃⟩).tail
      ⟨_, h₄⟩).tail ⟨_, h₅⟩, fun ho => ?_⟩
    have hl : s₅.log = [.sent 0, .sent 1, .answered 0 .stored, .answered 1 .switchover, .sent 1,
        .answered 1 .switchover] ++ [.sent 0, .sent 1, .answered 0 .stored,
        .answered 1 .switchover] := by decide +kernel
    rw [hl, NeverAgain, pairwise_append] at ho
    exact ho.2.2 (.answered 0 .stored) (by simp) (.sent 0) (by simp) 0 .stored rfl rfl rfl

end ArcusClient.Coll
