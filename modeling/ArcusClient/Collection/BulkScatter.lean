import ArcusClient.Collection.BatchReply
import Mathlib.Data.List.GetD

/-!
# Insertion under many keys: scatter and gather

If every server answers its batches in full, the key at place `j` of the index array is sent in
turn `j`, and the statuses of the batches before are at their places (`FullAt`).  So each key is sent
once, and in the end its status is at its place in `results` (`bulk_scatter_gather_iff`), unless there
are too many keys for the counters, a `uint32_t` and an `int32_t`.
-/

namespace ArcusClient.Coll

open CString Outcome Scatter List Function BulkCall PipedCall

/-! ## The index arrays -/

namespace BulkCall

variable (call : BulkCall)

def keysOf (i : Nat) : List Nat := routed call.serverOf (List.range call.keys.length) i

variable {call}

theorem mem_keysOf : x ∈ call.keysOf i ↔ x < call.keys.length ∧ call.serverOf x = i := by
  rw [keysOf, mem_routed, mem_range]

theorem numkeys_eq (i : Nat) : call.numkeys i = (call.keysOf i).length := by
  have ho : ∀ (l : List Nat) (a : Nat), (l.map fun _ => 1).foldl (· + ·) a = a + l.length := by
    intro l
    induction l with
    | nil => exact fun a => rfl
    | cons x rest ih =>
      intro a
      rw [map_cons, foldl_cons, ih, length_cons]
      omega
  rw [numkeys, tally_eq_foldl, ho, Nat.zero_add]
  rfl

variable (call) in
/-- No push fails, as there is room for the keys that were counted. -/
theorem distribute_eq (done rest : List Nat) :
    call.distribute rest (fun i => ⟨(routed call.serverOf (done ++ rest) i).length,
        routed call.serverOf done i⟩) =
      some fun i => ⟨(routed call.serverOf (done ++ rest) i).length,
        routed call.serverOf (done ++ rest) i⟩ := by
  induction rest generalizing done with
  | nil => simp only [distribute, append_nil]
  | cons x rest ih =>
    have hr : (routed call.serverOf done (call.serverOf x)).length ≠
        (routed call.serverOf (done ++ x :: rest) (call.serverOf x)).length := by
      simp only [routed, filter_append, length_append, filter_cons, decide_true, if_true,
        length_cons]
      omega
    have hn := ih (done ++ [x])
    rw [append_assoc, singleton_append] at hn
    rw [distribute, IndexArray.push, if_neg hr]
    dsimp only
    rw [← hn]
    congr 1
    funext i
    by_cases hi : i = call.serverOf x
    · subst hi
      rw [update_self, routed_concat_self]
    · rw [update_of_ne hi, routed_concat_of_ne (Ne.symm hi)]

def Countable (call : BulkCall) : Prop :=
  call.keys.length < 2 ^ 32 ∧ ∀ i < call.client.serverCount, (call.keysOf i).length < 2 ^ 31

theorem serverToKeys_eq (h : Countable call) :
    call.serverToKeys = .ok fun i => ⟨(call.keysOf i).length, call.keysOf i⟩ := by
  have ho : ¬∃ i < call.client.serverCount, 2 ^ 31 ≤ call.numkeys i := by
    rintro ⟨i, hi, hl⟩
    rw [numkeys_eq] at hl
    exact absurd (h.2 i hi) (Nat.not_lt.2 hl)
  have hd := call.distribute_eq [] (range call.keys.length)
  simp only [nil_append, routed_nil] at hd
  have hc : (fun i => IndexArray.create (call.numkeys i)) =
      fun i => ⟨(routed call.serverOf (range call.keys.length) i).length, []⟩ := by
    funext i
    rw [numkeys_eq]
    rfl
  rw [serverToKeys, if_neg (Nat.not_le.2 h.1), if_neg ho, hc, hd]
  rfl

theorem countable_of_ok {arrays : Nat → IndexArray} (h : call.serverToKeys = .ok arrays) :
    Countable call := by
  rw [serverToKeys] at h
  split_ifs at h with hl ho
  refine ⟨Nat.not_le.1 hl, fun i hi => ?_⟩
  by_contra hmany
  exact ho ⟨i, hi, by rw [numkeys_eq]; exact Nat.not_lt.1 hmany⟩

end BulkCall

/-! ## One server -/

def sentItems (log : List Event) : List Nat :=
  log.filterMap fun
    | .sent item => some item
    | .answered _ _ => none

theorem sentItems_append (log log' : List Event) :
    sentItems (log ++ log') = sentItems log ++ sentItems log' := filterMap_append

@[simp] theorem sentItems_sent (items : List Nat) : sentItems (items.map Event.sent) = items := by
  rw [sentItems, filterMap_map]
  exact filterMap_some

@[simp] theorem sentItems_answered (items : List Nat) (statuses : List ReturnT) :
    sentItems (List.zipWith Event.answered items statuses) = [] := by
  induction items generalizing statuses with
  | nil => rfl
  | cons item rest ih =>
    cases statuses with
    | nil => rfl
    | cons status more => exact ih more

/-- The reply to the batch that ends with item `j`, with all its statuses. -/
def fullAnswer (status : Nat → ReturnT) (j : Nat) : Answer :=
  let first := j - j % maxPipedCmdSize
  if j % maxPipedCmdSize = 0 then .line (status first)
  else .response (j % maxPipedCmdSize + 1)
    ((List.range' first (j % maxPipedCmdSize + 1)).map (fun k => .ok (status k)) ++ [.ok .endOfReply])

/-- In turn `j`, writing succeeds, and the last item of a batch is answered in full. -/
def AnswersInFull (status : Nat → ReturnT) (count j : Nat) (env : Turn) : Prop :=
  env.write = .success ∧
    (j + 1 = count ∨ (j + 1) % maxPipedCmdSize = 0 → env.answer = fullAnswer status j)

/-- The state before turn `j`. -/
structure FullAt (status : Nat → ReturnT) (j : Nat) (s : PipeSt) : Prop where
  looping : s.phase = .looping
  index : s.i = j
  requested : s.requestedItems = j % maxPipedCmdSize
  length_eq : s.pipeResponsesLength = j - j % maxPipedCmdSize
  responses : ∀ k < s.pipeResponsesLength, s.responses k = some (status k)
  sent : sentItems s.log ++ s.buffered = List.range j
  batch : s.wire.length + s.buffered.length = s.requestedItems
  pos_le : s.pipeBufferPos ≤ maxPipedBufferSize

/-- The state after the loop over `count` items. -/
structure FullEnd (status : Nat → ReturnT) (count : Nat) (s : PipeSt) : Prop where
  bounds : s.phase ≠ .outOfBounds
  left : s.phase = .looping → (count : Int) ≤ s.i
  length_eq : s.pipeResponsesLength = count
  responses : ∀ k < count, s.responses k = some (status k)
  sent : sentItems s.log = List.range count

def Builds (call : PipedCall) : Prop :=
  ∀ piped pos query eflag, pos ≤ maxPipedBufferSize → (query, eflag) ∈ call.items →
    ∃ item, internalCollPipedInsert { call.client with piped := piped } call.stack pos call.key query
      eflag call.attributes call.verb = .ok item

theorem collected_pos_le (c : Client) (stack : Nat → CStr) (pipeBufferPos : Nat) (key : KeyMemory)
    (query : Query) (eflag : Option Hexadecimal) (attributes : Option CreateAttrs) (verb : Verb) :
    Ends (fun _ => True) (fun item => ∀ r pos, item = .collected r pos → pos ≤ maxPipedBufferSize)
      (internalCollPipedInsert c stack pipeBufferPos key query eflag attributes verb) := by
  refine Ends.bind (Q := fun _ => True) ?_ fun subKey _ => ?_
  · cases itemSubKey stack query eflag verb <;> trivial
  refine Ends.bind (Q := fun _ => True) ?_ fun line _ => ?_
  · unfold fits
    split_ifs <;> trivial
  · unfold collectOrFlush
    split_ifs
    · dsimp only
      split_ifs with hl
      · rintro r pos he
        cases he
        exact hl
      · trivial
    · exact fun r pos he => Item.noConfusion he

/-- The state between sending item `j` and reading a reply. -/
structure FullSent (status : Nat → ReturnT) (j : Nat) (last : Bool) (s : PipeSt) : Prop where
  looping : s.phase = .looping
  index : s.i = j
  requested : s.requestedItems = j % maxPipedCmdSize + 1
  length_eq : s.pipeResponsesLength = j - j % maxPipedCmdSize
  responses : ∀ k < s.pipeResponsesLength, s.responses k = some (status k)
  sent : sentItems s.log ++ s.buffered = List.range (j + 1)
  batch : s.wire.length + s.buffered.length = s.requestedItems
  pos_le : s.pipeBufferPos ≤ maxPipedBufferSize
  flushed : last = true → s.buffered = []

variable {status : Nat → ReturnT} {j : Nat} {s : PipeSt}

theorem FullAt.sendItem (h : FullAt status j s) (hb : Builds call)
    (hj : j < call.count) : FullSent status j (call.last s) (sendItem call .success s) := by
  have hite : call.items[s.i.toNat]? = some call.items[j] := by
    rw [h.index]
    exact getElem?_eq_getElem hj
  have hn : ¬s.i < 0 := by rw [h.index]; omega
  have hr : sentItems s.log ++ (s.buffered ++ [j]) = range (j + 1) := by
    rw [← append_assoc, h.sent, range_succ]
  have hin : s.i.toNat = j := by rw [h.index]; rfl
  unfold Coll.sendItem
  dsimp only
  rw [if_neg hn, hite]
  rcases he : call.items[j] with ⟨query, eflag⟩
  have hm : (query, eflag) ∈ call.items := he ▸ getElem_mem hj
  dsimp only
  obtain ⟨item, hbui⟩ := hb (call.more { s with requestedItems := s.requestedItems + 1 })
    s.pipeBufferPos query eflag h.pos_le hm
  have hend := internalCollPipedInsert_ends
    { call.client with piped := call.more { s with requestedItems := s.requestedItems + 1 } }
    call.stack s.pipeBufferPos call.key query eflag call.attributes call.verb
  have hp := (collected_pos_le
    { call.client with piped := call.more { s with requestedItems := s.requestedItems + 1 } }
    call.stack s.pipeBufferPos call.key query eflag call.attributes call.verb).of_eq_ok hbui
  rw [hbui]
  cases item with
  | collected r pos =>
    refine ⟨h.looping, h.index, congrArg (· + 1) h.requested, h.length_eq, h.responses, ?_, ?_,
      hp r pos rfl, fun hl => ?_⟩
    · rw [hin, hr]
    · rw [length_append, length_singleton, ← Nat.add_assoc, h.batch]
    · obtain ⟨r', hr'⟩ := hend.of_eq_ok hbui (by simpa [last] using hl)
      exact Item.noConfusion hr'
  | flushed r =>
    simp only [PipeSt.flush, if_true]
    refine ⟨h.looping, h.index, congrArg (· + 1) h.requested, h.length_eq, h.responses, ?_, ?_,
      Nat.zero_le _, fun _ => rfl⟩
    · rw [sentItems_append, sentItems_sent, append_nil, hin, hr]
    · rw [length_append, length_append, ← Nat.add_assoc, h.batch]
      rfl

/-- The state after the reply to the batch that ends with item `j`. -/
structure Answered (status : Nat → ReturnT) (j : Nat) (s : PipeSt) : Prop where
  length_eq : s.pipeResponsesLength = j + 1
  responses : ∀ k < j + 1, s.responses k = some (status k)
  sent : sentItems s.log ++ s.buffered = List.range (j + 1)
  flushed : s.buffered = []
  wire_eq : s.wire = []
  pos_le : s.pipeBufferPos ≤ maxPipedBufferSize
  next : s.phase = .looping ∧ s.i = (j + 1 : Nat) ∧ s.requestedItems = 0 ∨
    s.phase = .stopped ∧ j % maxPipedCmdSize = 0

/-- The statuses of a batch are put after those of the batches before it. -/
theorem putFrom_range' {responses : Nat → Option ReturnT}
    (h : ∀ k < p, responses k = some (status k)) :
    ∀ k < p + m, putFrom p ((List.range' p m).map status) responses k = some (status k) := by
  intro k hk
  rcases Nat.lt_or_ge k p with hl | hg
  · rw [putFrom_of_lt hl, h k hl]
  · obtain ⟨i, rfl⟩ := Nat.exists_eq_add_of_le hg
    refine putFrom_add ?_ _ _
    rw [getElem?_map, getElem?_range' (by omega)]
    simp

theorem FullSent.sent_record (h : FullSent status j true s) (answer : Answer) :
    sentItems (s.record answer).log ++ (s.record answer).buffered = List.range (j + 1) := by
  rw [PipeSt.record, sentItems_append, sentItems_answered, append_nil]
  exact h.sent

theorem FullSent.receive_line (h : FullSent status j true s) (hj : j < 2 ^ 31)
    (hs : isSwitch (status j) = false) (switched : Bool) (ho : j % maxPipedCmdSize = 0) :
    Answered status j (receive (.line (status j)) switched s) := by
  have hl : s.pipeResponsesLength = j := by rw [h.length_eq, ho, Nat.sub_zero]
  have hr : s.requestedItems = 1 := by rw [h.requested, ho]
  have hro : (j + 1) % 2 ^ 64 = j + 1 := Nat.mod_eq_of_lt (by omega)
  have hre : ∀ k < j + 1,
      update s.responses j (some (status j)) k = some (status k) := by
    intro k hk
    by_cases he : k = j
    · rw [he, update_self]
    · rw [update_of_ne he]
      exact h.responses k (by omega)
  have hse := h.sent_record (.line (status j))
  have hin : s.i + 1 = (j + 1 : Nat) := by rw [h.index]; rfl
  simp only [receive, collResponse, hs]
  simp only [settle, settleWith, PipeSt.record, hr, if_true, hl, hro]
  by_cases hsu : (if status j = .stored ∨ status j = .createdStored then ReturnT.success
      else status j) = .success
  · rw [if_neg (not_not_intro hsu)]
    exact ⟨rfl, hre, hse, h.flushed rfl, rfl, h.pos_le, Or.inl ⟨h.looping, hin, rfl⟩⟩
  · rw [if_pos hsu]
    exact ⟨rfl, hre, hse, h.flushed rfl, rfl, h.pos_le, Or.inr ⟨rfl, ho⟩⟩

theorem FullSent.receive_response (h : FullSent status j true s) (hj : j < 2 ^ 31) (switched : Bool)
    (hm : j % maxPipedCmdSize ≠ 0) :
    Answered status j (receive (fullAnswer status j) switched s) := by
  have hl : j % maxPipedCmdSize ≤ j := Nat.mod_le _ _
  have hs : s.pipeResponsesLength + (j % maxPipedCmdSize + 1) = j + 1 := by
    rw [h.length_eq]
    omega
  have ha : fullAnswer status j =
      .response ((range' s.pipeResponsesLength (j % maxPipedCmdSize + 1)).map status).length
        (((range' s.pipeResponsesLength (j % maxPipedCmdSize + 1)).map status).map .ok ++
          [.ok .endOfReply]) := by
    rw [fullAnswer, if_neg hm, map_map, length_map, length_range', h.length_eq]
    rfl
  have hlen : ((range' s.pipeResponsesLength (j % maxPipedCmdSize + 1)).map status).length =
      j % maxPipedCmdSize + 1 := by
    rw [length_map, length_range']
  have hr : s.requestedItems ≠ 1 := by rw [h.requested]; omega
  rw [ha, receive, collResponse_ok .endOfReply (by omega), if_neg (by simp)]
  dsimp only
  rw [if_neg (by simp [isSwitch]), settle_end (s := s.answeredWith _) hr]
  refine ⟨?_, ?_, ?_, h.flushed rfl, rfl, h.pos_le, Or.inl ⟨h.looping, ?_, rfl⟩⟩
  · simp only [PipeSt.answeredWith, hlen, hs]
  · intro k hk
    exact putFrom_range' h.responses k (by omega)
  · simp only [PipeSt.answeredWith, PipeSt.logAfter, sentItems_append, sentItems_answered,
      append_nil]
    exact h.sent
  · simp only [PipeSt.answeredWith, h.index]
    rfl

theorem FullSent.receive (h : FullSent status j true s) (hj : j < 2 ^ 31)
    (hs : isSwitch (status j) = false) (switched : Bool) :
    Answered status j (receive (fullAnswer status j) switched s) := by
  by_cases ho : j % maxPipedCmdSize = 0
  · have ha : fullAnswer status j = .line (status j) := by
      rw [fullAnswer, if_pos ho, ho, Nat.sub_zero]
    rw [ha]
    exact h.receive_line hj hs switched ho
  · exact h.receive_response hj switched ho

/-- The last item of a batch is the 500th, or the last one of all. -/
theorem FullAt.last_iff (h : FullAt status j s) {call : PipedCall} (hn : call.count < 2 ^ 31) :
    call.last s = true ↔ j + 1 = call.count ∨ (j + 1) % maxPipedCmdSize = 0 := by
  have hb : j % maxPipedCmdSize + 1 = maxPipedCmdSize ↔ (j + 1) % maxPipedCmdSize = 0 := by
    rw [maxPipedCmdSize]
    omega
  simp only [last, more, toInt_of_lt hn, h.index, h.requested, Bool.not_not,
    Bool.or_eq_true, beq_iff_eq, hb]
  rw [or_comm]
  omega

theorem FullAt.turn (h : FullAt status j s) {call : PipedCall} (hb : Builds call)
    (hn : call.count < 2 ^ 31) (hj : j < call.count) (hs : isSwitch (status j) = false)
    (he : AnswersInFull status call.count j env) :
    j + 1 < call.count ∧ FullAt status (j + 1) (turn call env s) ∨
      j + 1 = call.count ∧ FullEnd status call.count (turn call env s) := by
  have hse := h.sendItem hb hj
  obtain ⟨hw, ha⟩ := he
  unfold Coll.turn
  rw [hw, if_neg (not_not_intro hse.looping)]
  cases hm : call.more { s with requestedItems := s.requestedItems + 1 } with
  | true =>
    -- the batch goes on
    have hno : call.last s = false := by rw [last, hm]; rfl
    have hl : ¬(j + 1 = call.count ∨ (j + 1) % maxPipedCmdSize = 0) := fun hl => by
      rw [(h.last_iff hn).2 hl] at hno
      cases hno
    rw [not_or] at hl
    have hmod : (j + 1) % maxPipedCmdSize = j % maxPipedCmdSize + 1 := by
      have := hl.2
      rw [maxPipedCmdSize] at this ⊢
      omega
    rw [if_pos rfl]
    refine Or.inl ⟨by omega, hse.looping, ?_, ?_, ?_, hse.responses, hse.sent, hse.batch,
      hse.pos_le⟩
    · rw [hse.index]
      rfl
    · rw [hse.requested, hmod]
    · rw [hse.length_eq]
      omega
  | false =>
    have hl : call.last s = true := by rw [last, hm]; rfl
    rw [hl] at hse
    have hend := (h.last_iff hn).1 hl
    rw [if_neg Bool.false_ne_true, ha hend]
    have hd := hse.receive (hj.trans hn) hs env.switched
    rcases Nat.eq_or_lt_of_le (show j + 1 ≤ call.count from hj) with heq | hle
    · refine Or.inr ⟨heq, ?_, ?_, ?_, ?_, ?_⟩
      · rcases hd.next with ⟨hp, -⟩ | ⟨hp, -⟩ <;> rw [hp] <;> decide
      · rintro hlo
        rcases hd.next with ⟨-, hi, -⟩ | ⟨hp, -⟩
        · omega
        · exact absurd (hp.symm.trans hlo) (by decide)
      · exact hd.length_eq.trans heq
      · intro k hk
        exact hd.responses k (by omega)
      · have := hd.sent
        rwa [hd.flushed, append_nil, heq] at this
    · have hmod : (j + 1) % maxPipedCmdSize = 0 := hend.resolve_left hle.ne
      rcases hd.next with ⟨hp, hi, hr⟩ | ⟨-, ho⟩
      · refine Or.inl ⟨hle, hp, hi, by rw [hr, hmod], by rw [hd.length_eq, hmod]; rfl,
          fun k hk => hd.responses k (by rw [← hd.length_eq]; exact hk), hd.sent,
          by rw [hd.wire_eq, hd.flushed, hr]; rfl, hd.pos_le⟩
      · rw [maxPipedCmdSize] at hmod ho
        omega

/-! ## All servers -/

def BulkCall.Builds (call : BulkCall) : Prop :=
  ∀ key ∈ call.keys, ∀ piped pos, pos ≤ maxPipedBufferSize →
    ∃ item, internalCollPipedInsert { call.client with piped := piped } call.stack pos key call.query
      (if call.verb = .bopInsert then call.eflag else none) call.attributes call.verb = .ok item

namespace BulkCall

variable {call : BulkCall}

theorem item_count (indexList : List Nat) (j : Int) :
    (call.item indexList j).count = indexList.length := by
  simp [item, PipedCall.count]

theorem Builds.item (h : call.Builds) (hj : j < (call.keysOf i).length) :
    Coll.Builds (call.item (call.keysOf i) j) := by
  intro piped pos query eflag hp hm
  have hk : (call.keysOf i)[j] < call.keys.length := (mem_keysOf.1 (getElem_mem hj)).1
  obtain ⟨rfl, rfl⟩ : call.query = query ∧
      (if call.verb = .bopInsert then call.eflag else none) = eflag := by
    simp only [BulkCall.item, mem_map, Prod.mk.injEq] at hm
    obtain ⟨-, -, hq⟩ := hm
    exact hq
  have hg : (call.item (call.keysOf i) j).key = call.keys[(call.keysOf i)[j]] := by
    simp [BulkCall.item, getElem?_eq_getElem hj, getElem?_eq_getElem hk]
  rw [hg]
  exact h _ (getElem_mem hk) piped pos hp

/-- The turns from `j` on are answered in full. -/
def TurnsInFull (status : Nat → ReturnT) (count j : Nat) (turns : List Turn) : Prop :=
  ∀ k, j + k < count → ∃ turn, turns[k]? = some turn ∧ AnswersInFull status count (j + k) turn

variable {i j : Nat} {status : Nat → ReturnT} {env : Turn} {rest : List Turn} {s : BulkPipe}

/-- Every server answers its batches in full, with this status for each key. -/
def InFull (call : BulkCall) (status : Nat → ReturnT) (env : Nat → List Turn) : Prop :=
  ∀ i, TurnsInFull (fun k => status ((call.keysOf i).getD k 0)) (call.keysOf i).length 0 (env i)

theorem fullAt_begin (status : Nat → ReturnT) (st : BulkSt) : FullAt status 0 st.begin.pipe where
  looping := rfl
  index := rfl
  requested := rfl
  length_eq := rfl
  responses k hk := absurd hk (Nat.not_lt_zero k)
  sent := rfl
  batch := rfl
  pos_le := Nat.zero_le _

theorem TurnsInFull.head {count : Nat} (h : TurnsInFull status count j (env :: rest))
    (hj : j < count) : AnswersInFull status count j env := by
  obtain ⟨turn, ht, hf⟩ := h 0 hj
  obtain rfl : env = turn := by simpa using ht
  exact hf

theorem TurnsInFull.tail {count : Nat} (h : TurnsInFull status count j (env :: rest)) :
    TurnsInFull status count (j + 1) rest := by
  intro k hk
  have ht := h (k + 1) (by omega)
  rwa [getElem?_cons_succ, show j + (k + 1) = j + 1 + k by omega] at ht

theorem enters_of_fullAt (h : FullAt status j s.pipe) (hn : (call.keysOf i).length < 2 ^ 31)
    (hj : j < (call.keysOf i).length) : enters (call.keysOf i) s.pipe :=
  ⟨h.looping, by rw [h.index, toInt_of_lt hn]; exact_mod_cast hj⟩

theorem not_enters_of_fullEnd (h : FullEnd status (call.keysOf i).length s.pipe)
    (hn : (call.keysOf i).length < 2 ^ 31) : ¬enters (call.keysOf i) s.pipe := by
  rintro ⟨hp, hin⟩
  rw [toInt_of_lt hn] at hin
  exact absurd (h.left hp) (by omega)

theorem turn_full (hb : call.Builds) (hn : (call.keysOf i).length < 2 ^ 31)
    (hs : ∀ k, isSwitch (status k) = false) (hj : j < (call.keysOf i).length)
    (h : FullAt status j s.pipe) (he : AnswersInFull status (call.keysOf i).length j env) :
    j + 1 < (call.keysOf i).length ∧ FullAt status (j + 1) (call.turn (call.keysOf i) env s).pipe ∨
      FullEnd status (call.keysOf i).length (call.turn (call.keysOf i) env s).pipe := by
  have hst := h.turn (hb.item hj) (by rwa [item_count]) (by rwa [item_count]) (hs j)
    (by rwa [item_count])
  rw [turn_pipe, h.index]
  rw [item_count] at hst
  exact hst.imp_right And.right

theorem loop_full (hb : call.Builds) (hn : (call.keysOf i).length < 2 ^ 31)
    (hs : ∀ k, isSwitch (status k) = false)
    (ht : TurnsInFull status (call.keysOf i).length j turns) (hj : j < (call.keysOf i).length)
    (h : FullAt status j s.pipe) :
    ∃ t, call.loop (call.keysOf i) turns s = .ok t ∧ FullEnd status
      (call.keysOf i).length t.pipe := by
  induction turns generalizing j s with
  | nil =>
    obtain ⟨turn, htu, -⟩ := ht 0 hj
    cases htu
  | cons env rest ih =>
    rw [loop_enters _ (enters_of_fullAt h hn hj)]
    rcases turn_full hb hn hs hj h (ht.head hj) with ⟨hl, hne⟩ | he
    · exact ih ht.tail hl hne
    · exact ⟨_, call.loop_left (not_enters_of_fullEnd he hn) he.bounds rest, he⟩

end BulkCall

def sentTo (log : List (Nat × Event)) (i : Nat) : List Nat :=
  sentItems ((log.filter fun e => e.1 = i).map Prod.snd)

theorem sentTo_append (log log' : List (Nat × Event)) (i : Nat) :
    sentTo (log ++ log') i = sentTo log i ++ sentTo log' i := by
  rw [sentTo, filter_append, map_append, sentItems_append]
  rfl

theorem sentTo_at (log : List Event) (indexList : List Nat) (i i' : Nat) :
    sentTo (log.map fun e => (i, e.at indexList)) i' =
      if i = i' then (sentItems log).map fun item => indexList.getD item 0 else [] := by
  split_ifs with hi
  · have he : ∀ e : Event, (match e.at indexList with
        | .sent item => some item
        | .answered _ _ => none) = (match e with
        | .sent item => some item
        | .answered _ _ => none).map fun item => indexList.getD item 0 := by
      intro e
      cases e <;> rfl
    simp only [sentTo, sentItems, filter_map, comp_def, hi, decide_true,
      filter_true, filterMap_map, map_filterMap]
    exact filterMap_congr fun e _ => he e
  · simp only [sentTo, filter_map, comp_def, hi, decide_false, filter_false]
    rfl

theorem scatter_eq {status : Nat → ReturnT} {responses results : Nat → Option ReturnT}
    (h : ∀ k (hk : k < indexList.length), responses (j + k) = some (status indexList[k]))
    (x : Nat) :
    scatter responses j indexList results x =
      if x ∈ indexList then some (status x) else results x := by
  induction indexList generalizing j results with
  | nil => rfl
  | cons y rest ih =>
    have hr : ∀ k (hk : k < rest.length), responses (j + 1 + k) = some (status rest[k]) := by
      intro k hk
      have := h (k + 1) (by rw [length_cons]; omega)
      rwa [getElem_cons_succ, show j + (k + 1) = j + 1 + k by omega] at this
    have hf : responses j = some (status y) := h 0 (by simp)
    rw [scatter, ih hr, hf]
    by_cases hx : x = y
    · simp [hx]
    · simp [hx]

/-- The state after the servers of `done`. -/
structure Gathered (call : BulkCall) (status : Nat → ReturnT) (done : List Nat) (st : BulkSt) : Prop where
  results : ∀ x < call.keys.length, call.serverOf x ∈ done → st.results x = some (status x)
  sent : ∀ i, sentTo st.log i = if i ∈ done then call.keysOf i else []
  /-- That of the last server that has keys. -/
  length_eq : ∀ before i after, done = before ++ i :: after → call.keysOf i ≠ [] →
    (∀ i' ∈ after, call.keysOf i' = []) → st.pipeResponsesLength = (call.keysOf i).length

namespace Gathered

variable {call : BulkCall} {status : Nat → ReturnT} {done : List Nat} {st : BulkSt}

theorem start : Gathered call status [] bulkStart where
  results x _ h := absurd h not_mem_nil
  sent i := rfl
  length_eq before i after h := by simp at h

theorem skip (h : Gathered call status done st) (hn : call.keysOf i = []) :
    Gathered call status (done ++ [i]) st where
  results x hx hm := by
    rcases mem_append.1 hm with hd | hl
    · exact h.results x hx hd
    · have : x ∈ call.keysOf i := mem_keysOf.2 ⟨hx, mem_singleton.1 hl⟩
      rw [hn] at this
      exact absurd this not_mem_nil
  sent i' := by
    rw [h.sent]
    by_cases hi : i' = i
    · simp [hi, hn]
    · simp [hi]
  length_eq before i' after hd hsome hafter := by
    rcases eq_nil_or_concat' after with rfl | ⟨after, last, rfl⟩
    · obtain ⟨-, rfl⟩ : before = done ∧ i' = i := by simpa using hd.symm
      exact absurd hn hsome
    · refine h.length_eq before i' after ?_ hsome fun i'' hm =>
        hafter i'' (mem_append_left _ hm)
      rw [← cons_append, ← append_assoc] at hd
      exact (append_inj_left' hd rfl)

theorem leave (h : Gathered call status done st) (hn : i ∉ done)
    (hs : call.keysOf i ≠ []) {s : BulkPipe}
    (he : FullEnd (fun k => status ((call.keysOf i).getD k 0)) (call.keysOf i).length s.pipe) :
    Gathered call status (done ++ [i]) (st.leave i (call.keysOf i) s) where
  results x hx hmem := by
    have hr : ∀ k (hk : k < (call.keysOf i).length),
        (st.leave i (call.keysOf i) s).responses (0 + k) = some (status (call.keysOf i)[k]) := by
      intro k hk
      have hno : ¬(s.pipe.rc ≠ .success ∧ (call.keysOf i).length ≤ k ∧ k < (call.keysOf i).length) := by
        omega
      simp only [BulkSt.leave, he.length_eq, Nat.zero_add]
      rw [if_neg hno, he.responses k hk, getD_eq_getElem _ _ hk]
    rw [show (st.leave i (call.keysOf i) s).results = scatter (st.leave i (call.keysOf i) s).responses 0
      (call.keysOf i) st.results from rfl, scatter_eq hr]
    split_ifs with hin
    · rfl
    · refine h.results x hx ((mem_append.1 hmem).resolve_right fun hl => hin ?_)
      exact mem_keysOf.2 ⟨hx, mem_singleton.1 hl⟩
  sent i' := by
    have hke : (range (call.keysOf i).length).map (fun item => (call.keysOf i).getD item 0) =
        call.keysOf i := by
      refine ext_getElem (by simp) fun k hk hk' => ?_
      rw [getElem_map, getElem_range, getD_eq_getElem _ _ hk']
    rw [BulkSt.leave]
    rw [sentTo_append, h.sent, sentTo_at, he.sent, hke]
    by_cases hi : i' = i
    · subst hi
      simp [hn]
    · simp [hi, Ne.symm hi]
  length_eq before i' after hd hke ha := by
    rcases eq_nil_or_concat' after with rfl | ⟨after, last, rfl⟩
    · obtain ⟨-, rfl⟩ : before = done ∧ i' = i := by simpa using hd.symm
      simp only [BulkSt.leave, he.length_eq, max_self, ite_self]
    · rw [← cons_append, ← append_assoc] at hd
      have hl : i = last := by simpa using append_inj_right' hd rfl
      exact absurd (ha i (by simp [hl])) hs

theorem visit (h : Gathered call status done st) (hc : BulkCall.Countable call)
    (hb : call.Builds) (hs : ∀ x, isSwitch (status x) = false) {env : Nat → List Turn}
    (he : call.InFull status env) (hi : i < call.client.serverCount) (hn : i ∉ done) :
    ∃ st', call.visit (fun i => ⟨(call.keysOf i).length, call.keysOf i⟩) env i st = .ok st' ∧
      Gathered call status (done ++ [i]) st' := by
  rw [BulkCall.visit, BulkCall.numkeys_eq]
  split_ifs with hz
  · exact ⟨st, rfl, h.skip (length_eq_zero_iff.1 hz)⟩
  · obtain ⟨t, hl, hen⟩ := BulkCall.loop_full hb (hc.2 i hi) (fun k => hs _)
      (he i) (Nat.pos_of_ne_zero hz) (BulkCall.fullAt_begin _ st)
    rw [hl]
    exact ⟨_, rfl, h.leave hn (fun hni => hz (by rw [hni]; rfl)) hen⟩

theorem visitAll (h : Gathered call status done st) (hc : BulkCall.Countable call)
    (hb : call.Builds) (hs : ∀ x, isSwitch (status x) = false) {env : Nat → List Turn}
    (he : call.InFull status env) (hr : ∀ i ∈ rest, i < call.client.serverCount)
    (hn : (done ++ rest).Nodup) :
    ∃ st', call.visitAll (fun i => ⟨(call.keysOf i).length, call.keysOf i⟩) env rest st = .ok st' ∧
      Gathered call status (done ++ rest) st' := by
  induction rest generalizing done st with
  | nil => exact ⟨st, rfl, by rwa [append_nil]⟩
  | cons i rest ih =>
    have hne : i ∉ done := fun hm =>
      (nodup_append.1 hn).2.2 i hm i mem_cons_self rfl
    obtain ⟨st', hv, hg⟩ := h.visit hc hb hs he
      (hr i mem_cons_self) hne
    rw [visitAll, hv]
    have := ih hg (fun i' hi' => hr i' (mem_cons_of_mem i hi'))
      (by rwa [append_assoc, singleton_append])
    rwa [append_assoc, singleton_append] at this

end Gathered

/-- The function with its servers in some order, if all batches are answered in full. -/
theorem BulkCall.runInOrder_full (hc : call.check = .ok ())
    (hco : Countable call) (hb : call.Builds) {status : Nat → ReturnT}
    (hs : ∀ x, isSwitch (status x) = false) {env : Nat → List Turn} (he : call.InFull status env)
    (ho : order.Perm (List.range call.client.serverCount)) :
    ∃ st, call.runInOrder order env = .ok st.finish ∧ Gathered call status order st := by
  have hr : ∀ i ∈ order, i < call.client.serverCount := fun i hi =>
    mem_range.1 (ho.mem_iff.1 hi)
  have hst : Gathered call status [] bulkStart := Gathered.start
  obtain ⟨st, hv, hg⟩ := hst.visitAll hco hb hs he hr
    (ho.nodup_iff.2 nodup_range)
  refine ⟨st, ?_, hg⟩
  rw [runInOrder, hc, serverToKeys_eq hco]
  dsimp only
  rw [hv]
  rfl

/-- Each key is sent once, to its own server and in the order of the list, and has its status. -/
structure ScattersGathers (call : BulkCall) (status : Nat → ReturnT) (r : BulkResult) : Prop where
  sent : ∀ i, sentTo r.log i = call.keysOf i
  results : ∀ x < call.keys.length, r.results x = some (status x)

/-- With all batches answered in full, each key is sent once to its own server and has its status, just
if the numbers of keys fit their counters. -/
theorem bulk_scatter_gather_iff {call : BulkCall} (hcheck : call.check = .ok ())
    (hbuilds : call.Builds)
    {status : Nat → ReturnT} (hswitch : ∀ x, isSwitch (status x) = false) {env : Nat → List Turn}
    (henv : call.InFull status env) :
    (∃ r, call.doCollPipedInsertBulk env = .ok r ∧ ScattersGathers call status r) ↔
      call.keys.length < 2 ^ 32 ∧
        ∀ i < call.client.serverCount, (call.keysOf i).length < 2 ^ 31 := by
  constructor
  · rintro ⟨r, hr, -⟩
    rw [doCollPipedInsertBulk, runInOrder, hcheck] at hr
    cases ha : call.serverToKeys with
    | error fault =>
      rw [ha] at hr
      cases hr
    | ok arrays => exact countable_of_ok ha
  · intro hc
    obtain ⟨st, hr, hg⟩ := runInOrder_full hcheck hc hbuilds hswitch henv
      (Perm.refl _)
    refine ⟨_, hr, fun i => ?_, fun x hx => ?_⟩
    · rw [BulkSt.finish]
      rw [hg.sent]
      split_ifs with hi
      · rfl
      · refine (eq_nil_iff_forall_not_mem.2 fun x hx => hi ?_).symm
        rw [mem_range, ← (mem_keysOf.1 hx).2]
        exact call.serverOf_lt x
    · exact hg.results x hx (mem_range.2 (call.serverOf_lt x))

/-! ## Examples -/

/-- A request fits the buffer wherever its length does, if the key ends at its length. -/
theorem collectOrFlush_ok {key : KeyMemory} (hk : key.string.length ≤ key.bytes.length) (c : Client)
    (pos : Nat) (hr : r.key = key.bytes) : ∃ item, collectOrFlush c key pos r = .ok item := by
  have hl : ({ r with key := key.string } : Request).wire.length ≤ r.wire.length := by
    simp only [Request.wire, length_append, hr]
    omega
  rw [collectOrFlush]
  split_ifs with hf
  · rw [Bool.and_eq_true, decide_eq_true_eq] at hf
    rw [if_pos (by omega)]
    exact ⟨_, rfl⟩
  · exact ⟨_, rfl⟩

theorem internalCollPipedInsert_ok {key : KeyMemory} (hk : key.string.length ≤ key.bytes.length)
    {stack : Nat → CStr} {query : Query} {eflag : Option Hexadecimal}
    {attributes : Option CreateAttrs} {verb : Verb} {subKey : CStr}
    (hs : itemSubKey stack query eflag verb = .ok subKey) (hl : (chars
      ([.text (subKey ++ space ++ unsignedText query.valueLength ++ itemAttributes attributes verb)] ++
        replyOption c)).length < defaultCommandSize) :
    ∃ item, internalCollPipedInsert c stack pos key query eflag attributes verb = .ok item := by
  simp only [internalCollPipedInsert, hs, fits, if_neg (Nat.not_le.2 hl), bind, Except.bind]
  exact collectOrFlush_ok hk c pos rfl

/-- The insertion of an empty element under the key `k`, so many times. -/
def sameKeys (count : Nat) (serverOf : Nat → Nat) (h : ∀ x, serverOf x < 2) : BulkCall where
  client := { pipingClient with serverCount := 2 }
  stack := fun _ => []
  keys := List.replicate count ⟨[107], [0]⟩
  query := elementQuery []
  eflag := none
  attributes := none
  verb := .sopInsert
  serverOf := serverOf
  serverOf_lt := h

theorem sameKeys_check {count : Nat} (hc : count ≠ 0) (serverOf : Nat → Nat)
    (h : ∀ x, serverOf x < 2) : (sameKeys count serverOf h).check = .ok () := by
  have hk : ((sameKeys count serverOf h).keys.map KeyMemory.bytes) ≠ [] ∧
      ((sameKeys count serverOf h).keys.map KeyMemory.bytes).all
        (keyTest (sameKeys count serverOf h).client) = true := by
    simp [sameKeys, hc, keyTest, maxKey]
  simp only [check, beforeQueryKeys, if_pos hk]
  rfl

theorem sameKeys_builds (count : Nat) (serverOf : Nat → Nat) (h : ∀ x, serverOf x < 2) :
    (sameKeys count serverOf h).Builds := by
  intro key hk piped pos _
  obtain rfl : key = ⟨[107], [0]⟩ := eq_of_mem_replicate hk
  have he : (KeyMemory.mk [107] [0]).string.length ≤ (KeyMemory.mk [107] [0]).bytes.length := by
    decide
  have hl : ∀ option ∈ [[Piece.pipe], []],
      (chars ([.text ([] ++ space ++ unsignedText 0 ++ [])] ++ option)).length < defaultCommandSize := by
    decide
  cases piped with
  | true => exact internalCollPipedInsert_ok he rfl (hl [.pipe] (by simp))
  | false => exact internalCollPipedInsert_ok he rfl (hl [] (by simp))

/-- Turns in which each batch is answered in full. -/
def BulkCall.fullTurns (call : BulkCall) (status : Nat → ReturnT) (i : Nat) : List Turn :=
  (List.range (call.keysOf i).length).map fun j =>
    ⟨.success, fullAnswer (fun k => status ((call.keysOf i).getD k 0)) j, false⟩

theorem BulkCall.inFull_fullTurns (call : BulkCall) (status : Nat → ReturnT) :
    call.InFull status (call.fullTurns status) := by
  intro i k hk
  rw [Nat.zero_add] at hk ⊢
  refine ⟨⟨.success, _, false⟩, ?_, rfl, fun _ => rfl⟩
  rw [fullTurns, getElem?_map, getElem?_range hk]
  rfl

/-- Two servers with 502 and 501 keys, which take two batches each, and every third key is stored. -/
theorem bulk_scatter_gather_batches :
    let call := sameKeys 1003 (· % 2) fun x => Nat.mod_lt x (by decide)
    let status := fun x => if x % 3 = 0 then ReturnT.stored else .notfound
    ∃ r, call.doCollPipedInsertBulk (call.fullTurns status) = .ok r ∧
      ScattersGathers call status r := by
  intro call status
  have hl : call.keys.length = 1003 := length_replicate
  refine (bulk_scatter_gather_iff (sameKeys_check (by decide) _ _) (sameKeys_builds _ _ _)
    (fun x => ?_) (inFull_fullTurns call status)).2 ⟨by rw [hl]; decide, fun i _ => ?_⟩
  · dsimp only [status]
    split_ifs <;> rfl
  · have hk : (call.keysOf i).length ≤ (range call.keys.length).length := length_filter_le ..
    rw [length_range, hl] at hk
    exact hk.trans_lt (by decide)

theorem doCollPipedInsertBulk_endless {count : Nat} (hc : 2 ^ 32 ≤ count) (serverOf : Nat → Nat)
    (h : ∀ x, serverOf x < 2) (env : Nat → List Turn) :
    (sameKeys count serverOf h).doCollPipedInsertBulk env = .error .endless := by
  have hl : 2 ^ 32 ≤ (sameKeys count serverOf h).keys.length := by
    rwa [sameKeys, length_replicate]
  rw [doCollPipedInsertBulk, runInOrder, sameKeys_check (by omega)]
  rw [serverToKeys, if_pos hl]

/-- With too many keys, the loop that counts them does not end. -/
theorem bulk_scatter_gather_endless : ∃ call : BulkCall, call.keys.length = 2 ^ 32 ∧
    call.check = .ok () ∧ call.Builds ∧ ∀ env, call.doCollPipedInsertBulk env = .error .endless := by
  obtain ⟨count, hc⟩ : ∃ count, count = 2 ^ 32 := ⟨_, rfl⟩
  refine ⟨sameKeys count (fun _ => 0) fun _ => Nat.two_pos, ?_, sameKeys_check (by omega) _ _,
    sameKeys_builds _ _ _, doCollPipedInsertBulk_endless hc.ge _ _⟩
  rw [sameKeys, length_replicate, hc]

end ArcusClient.Coll
