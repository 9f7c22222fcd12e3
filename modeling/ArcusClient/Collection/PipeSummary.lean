import ArcusClient.Collection.PipedExist
import ArcusClient.Collection.Query

/-!
# The code of a pipe

`do_aggregate_pipe_responses` goes over the statuses of a pipe with one of six codes as its state.  The
state says which kinds of status have been seen, and nothing else (`insertCode`, `existCode`).  So the
code in the end is that of the kinds in the list, whatever their order (`pipe_code_iff`).
-/

namespace ArcusClient.Coll

open CString List

/-- `do_aggregate_pipe_responses`.  The fifth character of the command says what was asked. -/
def doAggregatePipeResponses (lastOpCode : CStr) (rc : ReturnT) (responses : List (Option ReturnT)) : ReturnT :=
  let res := if rc ≠ .success then ReturnT.allFailure else .maximumReturn
  if lastOpCode[4]? = some (ofChar 'e') then aggregateExists res responses
  else if lastOpCode[4]? = some (ofChar 'i') then aggregateInserts res responses
  else res

/-- The statuses, with one more failure for a call that fails. -/
def counted (rc : ReturnT) (responses : List (Option ReturnT)) : List (Option ReturnT) :=
  if rc ≠ .success then some .failure :: responses else responses

def isStored (status : Option ReturnT) : Prop :=
  status = some .stored ∨ status = some .createdStored

instance (status : Option ReturnT) : Decidable (isStored status) := inferInstanceAs (Decidable (_ ∨ _))

/-- Neither `EXIST` nor `NOT_EXIST`. -/
def isFailure (status : Option ReturnT) : Prop := status ≠ some .exist ∧ status ≠ some .notExist

instance (status : Option ReturnT) : Decidable (isFailure status) := inferInstanceAs (Decidable (_ ∧ _))

/-! ## The states of the loop -/

/-- The state for insertions of which some were stored or some failed. -/
def insertCode : (stored failed : Bool) → ReturnT
  | false, false => .maximumReturn
  | true, false => .allSuccess
  | false, true => .allFailure
  | true, true => .someSuccess

/-- The state for checks of which some found their value, some did not, or some failed. -/
def existCode : (exist notExist failed : Bool) → ReturnT
  | false, false, false => .maximumReturn
  | true, false, false => .allExist
  | false, true, false => .allNotExist
  | true, true, false => .someExist
  | false, false, true => .allFailure
  | _, _, true => .someSuccess

section Loops

variable {stored exist notExist failed : Bool} {status : Option ReturnT} {rest : List (Option ReturnT)}

/-- One round of the loop for insertions. -/
theorem aggregateInserts_cons (h : (stored && failed) = false) :
    (isStored status → aggregateInserts (insertCode stored failed) (status :: rest) =
      if failed then .someSuccess else aggregateInserts (insertCode true false) rest) ∧
    (¬isStored status → aggregateInserts (insertCode stored failed) (status :: rest) =
      if stored then .someSuccess else aggregateInserts (insertCode false true) rest) := by
  constructor
  · intro hs
    rw [isStored] at hs
    rw [aggregateInserts, if_pos hs]
    cases stored <;> cases failed <;> first | rfl | cases h
  · intro hs
    rw [isStored] at hs
    rw [aggregateInserts, if_neg hs]
    cases stored <;> cases failed <;> rfl

/-- The loop ends in the state of all that it has seen. -/
theorem aggregateInserts_eq (h : (stored && failed) = false) (statuses : List (Option ReturnT)) :
    aggregateInserts (insertCode stored failed) statuses =
      insertCode (stored || statuses.any (isStored ·)) (failed || statuses.any (¬isStored ·)) := by
  induction statuses generalizing stored failed with
  | nil => simp [aggregateInserts]
  | cons status rest ih =>
    by_cases hs : isStored status
    · rw [(aggregateInserts_cons h).1 hs, ih rfl]
      cases failed <;> simp [hs, insertCode]
    · rw [(aggregateInserts_cons h).2 hs, ih rfl]
      cases stored <;> simp [hs, insertCode]

/-- One round of the loop for existence checks. -/
theorem aggregateExists_cons (h : ((exist || notExist) && failed) = false) :
    (status = some .exist → aggregateExists (existCode exist notExist failed) (status :: rest) =
      if failed then .someSuccess else aggregateExists (existCode true notExist false) rest) ∧
    (status = some .notExist → aggregateExists (existCode exist notExist failed) (status :: rest) =
      if failed then .someSuccess else aggregateExists (existCode exist true false) rest) ∧
    (isFailure status → aggregateExists (existCode exist notExist failed) (status :: rest) =
      if exist || notExist then .someSuccess else aggregateExists
        (existCode false false true) rest) := by
  refine ⟨?_, ?_, ?_⟩
  · rintro rfl
    cases exist <;> cases notExist <;> cases failed <;> first | rfl | cases h
  · rintro rfl
    cases exist <;> cases notExist <;> cases failed <;> first | rfl | cases h
  · rintro ⟨he, hn⟩
    rw [aggregateExists.eq_4 _ _ _ (by simpa using he) (by simpa using hn)]
    cases exist <;> cases notExist <;> cases failed <;> rfl

theorem aggregateExists_eq (h : ((exist || notExist) && failed) = false)
    (statuses : List (Option ReturnT)) :
    aggregateExists (existCode exist notExist failed) statuses =
      existCode (exist || statuses.any (· = some .exist))
        (notExist || statuses.any (· = some .notExist))
        (failed || statuses.any (isFailure ·)) := by
  induction statuses generalizing exist notExist failed with
  | nil => simp [aggregateExists]
  | cons status rest ih =>
    by_cases he : status = some .exist
    · rw [(aggregateExists_cons h).1 he, ih (by simp)]
      cases failed <;> simp [he, existCode, isFailure]
    · by_cases hn : status = some .notExist
      · rw [(aggregateExists_cons h).2.1 hn, ih (by simp)]
        cases failed <;> simp [hn, existCode, isFailure]
      · rw [(aggregateExists_cons h).2.2 ⟨he, hn⟩, ih rfl]
        cases exist <;> cases notExist <;> simp [he, hn, existCode, isFailure]

end Loops

/-! ## The code of a list -/

variable (rc : ReturnT) (responses : List (Option ReturnT)) (L : List (Option ReturnT))

theorem subset_counted : responses ⊆ counted rc responses := by
  rw [counted]
  split_ifs
  · exact subset_cons_self _ _
  · exact Subset.refl _

theorem mem_counted {rc : ReturnT} {responses : List (Option ReturnT)} (h : r ∈ counted rc responses) : r = some .failure ∨ r ∈ responses := by
  rw [counted] at h
  split_ifs at h
  · exact mem_cons.1 h
  · exact .inr h

/-- The codes of insertions, by what is in the list. -/
structure SumsUpInserts (code : ReturnT) : Prop where
  allSuccess : code = .allSuccess ↔ L ≠ [] ∧ ∀ r ∈ L, isStored r
  allFailure : code = .allFailure ↔ L ≠ [] ∧ ∀ r ∈ L, ¬isStored r
  someSuccess : code = .someSuccess ↔ (∃ r ∈ L, isStored r) ∧ ∃ r ∈ L, ¬isStored r

/-- The codes of existence checks, by what is in the list. -/
structure SumsUpExists (code : ReturnT) : Prop where
  allExist : code = .allExist ↔ L ≠ [] ∧ ∀ r ∈ L, r = some .exist
  allNotExist : code = .allNotExist ↔ L ≠ [] ∧ ∀ r ∈ L, r = some .notExist
  someExist : code = .someExist ↔
    (∀ r ∈ L, ¬isFailure r) ∧ some .exist ∈ L ∧ some .notExist ∈ L
  allFailure : code = .allFailure ↔ L ≠ [] ∧ ∀ r ∈ L, isFailure r
  someSuccess : code = .someSuccess ↔ (∃ r ∈ L, isFailure r) ∧ ∃ r ∈ L, ¬isFailure r

variable {L} in
theorem ne_nil_and_forall_iff {p : Option ReturnT → Prop} :
    (L ≠ [] ∧ ∀ r ∈ L, p r) ↔ (∃ r ∈ L, p r) ∧ ∀ r ∈ L, p r := by
  refine and_congr_left fun h => ⟨fun hn => ?_, ?_⟩
  · obtain ⟨r, hr⟩ := exists_mem_of_ne_nil L hn
    exact ⟨r, hr, h r hr⟩
  · rintro ⟨r, hr, -⟩
    exact ne_nil_of_mem hr

theorem insertCode_sumsUp :
    SumsUpInserts L (insertCode (L.any (isStored ·)) (L.any (¬isStored ·))) := by
  have hs : (∃ r ∈ L, isStored r) ↔ L.any (isStored ·) = true := by simp
  have hf : (∃ r ∈ L, ¬isStored r) ↔ L.any (¬isStored ·) = true := by simp
  have hs' : (∀ r ∈ L, isStored r) ↔ L.any (¬isStored ·) = false := by simp
  have hf' : (∀ r ∈ L, ¬isStored r) ↔ L.any (isStored ·) = false := by simp
  constructor
  all_goals
    try rw [ne_nil_and_forall_iff]
    simp only [hs, hf, hs', hf']
    cases L.any (isStored ·) <;> cases L.any (¬isStored ·) <;> decide

/-- Each status is of one kind, so a list of one kind has none of the others. -/
theorem existCode_sumsUp : SumsUpExists L (existCode (L.any (· = some .exist))
    (L.any (· = some .notExist)) (L.any (isFailure ·))) := by
  have he : some .exist ∈ L ↔ L.any (· = some .exist) = true := by simp
  have hn : some .notExist ∈ L ↔ L.any (· = some .notExist) = true := by simp
  have hf : (∃ r ∈ L, isFailure r) ↔ L.any (isFailure ·) = true := by simp
  have hf' : (∀ r ∈ L, ¬isFailure r) ↔ L.any (isFailure ·) = false := by simp
  have hs : (∃ r ∈ L, ¬isFailure r) ↔ some .exist ∈ L ∨ some .notExist ∈ L := by grind [isFailure]
  have hs' : (∀ r ∈ L, isFailure r) ↔ some .exist ∉ L ∧ some .notExist ∉ L := by grind
  have he' : (∀ r ∈ L, r = some .exist) ↔ some .notExist ∉ L ∧ ∀ r ∈ L, ¬isFailure r := by
    grind [isFailure]
  have hn' : (∀ r ∈ L, r = some .notExist) ↔ some .exist ∉ L ∧ ∀ r ∈ L, ¬isFailure r := by
    grind [isFailure]
  constructor
  all_goals
    try rw [ne_nil_and_forall_iff]
    simp only [hs, hs', he', hn', hf, hf', exists_eq_right, he, hn]
    cases L.any (· = some .exist) <;> cases L.any (· = some .notExist) <;>
      cases L.any (isFailure ·) <;> decide

theorem counted_perm {responses responses' : List (Option ReturnT)}
    (h : responses.Perm responses') :
    (counted rc responses).Perm (counted rc responses') := by
  rw [counted, counted]
  split_ifs
  · exact h.cons _
  · exact h

theorem doAggregate_insert {lastOpCode : CStr} (h : lastOpCode[4]? = some (ofChar 'i')) :
    doAggregatePipeResponses lastOpCode rc responses =
      insertCode ((counted rc responses).any (isStored ·))
        ((counted rc responses).any (¬isStored ·)) := by
  have hi : some (ofChar 'i') ≠ some (ofChar 'e') := by decide
  simp only [doAggregatePipeResponses, counted, h, hi, if_true, if_false]
  split_ifs
  · exact @aggregateInserts_eq false true rfl responses
  · exact @aggregateInserts_eq false false rfl responses

theorem doAggregate_exist {lastOpCode : CStr} (h : lastOpCode[4]? = some (ofChar 'e')) :
    doAggregatePipeResponses lastOpCode rc responses =
      existCode ((counted rc responses).any (· = some .exist))
        ((counted rc responses).any (· = some .notExist))
        ((counted rc responses).any (isFailure ·)) := by
  simp only [doAggregatePipeResponses, counted, if_true]
  split_ifs
  · exact @aggregateExists_eq false false true rfl responses
  · exact @aggregateExists_eq false false false rfl responses

/-- The code for a pipe says what is in the list of its statuses, in whatever order. -/
theorem pipe_code_iff : (∀ lastOpCode : CStr, lastOpCode[4]? = some (ofChar 'i') →
      SumsUpInserts (counted rc responses) (doAggregatePipeResponses lastOpCode rc responses)) ∧
    (∀ lastOpCode : CStr, lastOpCode[4]? = some (ofChar 'e') →
      SumsUpExists (counted rc responses) (doAggregatePipeResponses lastOpCode rc responses)) ∧
    ∀ (lastOpCode : CStr) (responses' : List (Option ReturnT)), responses.Perm responses' →
      doAggregatePipeResponses lastOpCode rc responses = doAggregatePipeResponses lastOpCode rc responses' := by
  refine ⟨fun lastOpCode h => ?_, fun lastOpCode h => ?_, fun lastOpCode responses' hp => ?_⟩
  · rw [doAggregate_insert rc responses h]
    exact insertCode_sumsUp _
  · rw [doAggregate_exist rc responses h]
    exact existCode_sumsUp _
  · have hc := counted_perm rc hp
    by_cases he : lastOpCode[4]? = some (ofChar 'e')
    · simp only [doAggregate_exist rc _ he, hc.any_eq]
    · by_cases hi : lastOpCode[4]? = some (ofChar 'i')
      · simp only [doAggregate_insert rc _ hi, hc.any_eq]
      · simp only [doAggregatePipeResponses, he, hi, if_false]

end ArcusClient.Coll
