import ArcusClient.Collection.PipedExist
import ArcusClient.Collection.PipedOnce
import ArcusClient.Lib.Numerals
import ArcusClient.Lib.Outcome
import ArcusClient.Lib.Scatter
import Mathlib.Algebra.Order.BigOperators.Group.List

/-!
# The stated bytes of keys

The caller gives a key or a map key as a pointer and a length.  Most functions send the bytes that
the length covers, the *stated* bytes.  But the map key of an insertion, an upsert or an update, the
map keys of a retrieval, and the key of a request in `pipe_buffer` are printed with `%s`.  These carry
the stated bytes just if the memory has a zero byte behind them, and none among them (`Terminated`,
`stated_bytes_iff`).
-/

namespace ArcusClient.Coll

open CString Outcome Scatter List Function Except Request

/-! ## Stated bytes -/

def Mkey.stated (mkey : Mkey) : List Byte := mkey.string.take mkey.length

/-- The map key without the memory behind its stated bytes. -/
def Mkey.cut (mkey : Mkey) : Mkey := ⟨mkey.stated, mkey.length⟩

/-- `%s` prints the stated bytes. -/
def Mkey.Terminated (mkey : Mkey) : Prop := bytesOf (cString mkey.string) = mkey.stated

def KeyMemory.cut (key : KeyMemory) : KeyMemory := ⟨key.bytes, []⟩

/-- `%s` prints the stated bytes. -/
def KeyMemory.Terminated (key : KeyMemory) : Prop := key.string = key.bytes

def Query.cut (query : Query) : Query :=
  { query with
    subKey := { query.subKey with
      mkey := query.subKey.mkey.cut
      mkeys := query.subKey.mkeys.map Mkey.cut } }

namespace Mkey

variable {mkey : Mkey}

theorem stated_cut : mkey.cut.stated = mkey.stated := by
  rw [stated, cut, stated, take_take, Nat.min_self]

/-- Without a zero byte among them, the stated bytes are printed, and maybe more. -/
theorem printed_eq (h : (0 : Byte) ∉ mkey.stated) :
    bytesOf (cString mkey.string) = mkey.stated ++ bytesOf
      (cString (mkey.string.drop mkey.length)) := by
  rw [← bytesOf_cString_append h, stated, take_append_drop]

theorem Terminated.zero_notMem (h : mkey.Terminated) : (0 : Byte) ∉ mkey.stated := by
  rw [← show bytesOf (cString mkey.string) = mkey.stated from h]
  exact zero_notMem_bytesOf _

theorem Terminated.cString_cut (h : mkey.Terminated) :
    cString mkey.cut.string = cString mkey.string := by
  refine bytesOf_injective ?_
  rw [show bytesOf (cString mkey.string) = mkey.stated from h]
  exact bytesOf_cString h.zero_notMem

end Mkey

namespace KeyMemory

variable {key : KeyMemory}

theorem string_eq (h : (0 : Byte) ∉ key.bytes) :
    key.string = key.bytes ++ bytesOf (cString key.beyond) := bytesOf_cString_append h _

theorem Terminated.string_cut (h : key.Terminated) : key.cut.string = key.string := by
  have hz : (0 : Byte) ∉ key.bytes := by
    rw [← show key.string = key.bytes from h]
    exact zero_notMem_bytesOf _
  rw [string, cut, append_nil, bytesOf_cString hz]
  exact h.symm

end KeyMemory

variable {mkey : Mkey}

/-- What is printed for a key and a map key is what is stated, just if it is for both. -/
theorem printed_both {key : KeyMemory}
    (h : key.string ++ bytesOf space ++ bytesOf (cString mkey.string) =
      key.bytes ++ bytesOf space ++ mkey.stated) : key.Terminated ∧ mkey.Terminated := by
  have hz : (0 : Byte) ∉ key.bytes ++ bytesOf space ++ mkey.stated := by
    rw [← h, mem_append, mem_append, not_or, not_or]
    exact ⟨⟨zero_notMem_bytesOf _, zero_notMem_bytesOf _⟩, zero_notMem_bytesOf _⟩
  rw [mem_append, mem_append, not_or, not_or] at hz
  have hk := KeyMemory.string_eq hz.1.1
  have hm := Mkey.printed_eq hz.2
  -- nothing can be printed behind either of them
  have hl := congrArg length h
  rw [hk, hm] at hl
  simp only [length_append] at hl
  constructor
  · rw [KeyMemory.Terminated, hk, eq_nil_of_length_eq_zero (l := bytesOf _) (by omega),
      append_nil]
  · rw [Mkey.Terminated, hm, eq_nil_of_length_eq_zero (l := bytesOf _) (by omega),
      append_nil]

/-! ## Requests of the builders -/

def itemRequest (c : Client) (stack : Nat → CStr) (key : List Byte) (query : Query)
    (eflag : Option Hexadecimal) (attributes : Option CreateAttrs) (verb : Verb) :
    Except Refusal Request := do
  let subKey ← itemSubKey stack query eflag verb
  let line ← fits defaultCommandSize
    ([.text (subKey ++ space ++ unsignedText query.valueLength ++ itemAttributes attributes verb)] ++
      replyOption c)
  return ⟨verb, key, line, some (query.value.take query.valueLength)⟩

theorem internalCollPipedInsert_eq (c : Client) (stack : Nat → CStr) (pipeBufferPos : Nat)
    (key : KeyMemory) (query : Query) (eflag : Option Hexadecimal) (attributes : Option CreateAttrs)
    (verb : Verb) : internalCollPipedInsert c stack pipeBufferPos key query eflag attributes verb =
      itemRequest c stack key.bytes query eflag attributes verb >>=
        collectOrFlush c key pipeBufferPos := by
  simp only [internalCollPipedInsert, itemRequest, bind_assoc, pure_bind]

/-- The request of an existence check, before it is collected or sent. -/
def existRequest (c : Client) (key value : List Byte) (verb : Verb) : Except Refusal Request := do
  let line ← fits (defaultCommandSize - crlf.length)
    ([.text (space ++ unsignedText value.length)] ++ replyOption c)
  return ⟨verb, key, line, some value⟩

theorem internalCollPipedExist_eq (c : Client) (pipeBufferPos : Nat) (key : KeyMemory)
    (value : List Byte) (verb : Verb) : internalCollPipedExist c pipeBufferPos key value verb =
      existRequest c key.bytes value verb >>= collectOrFlush c key pipeBufferPos := by
  simp only [internalCollPipedExist, existRequest, bind_assoc, pure_bind]

/-- A request with a map key right behind the key.  The text that follows may depend on how much is
written already. -/
def mkeyRequest (key : List Byte) (mkey : Mkey) (verb : Verb) (text : Nat → Except Refusal CStr)
    (options : List Piece) (data : Option (List Byte)) : Except Refusal Request := do
  let subKey ← mkeyText mkey
  let text ← text subKey.length
  let line ← fits defaultCommandSize ([.text (subKey ++ text)] ++ options)
  return ⟨verb, key, line, data⟩

variable {verb : Verb}

theorem doCollInsert_mkey (hv : verb = .mopInsert ∨ verb = .mopUpsert) (c : Client)
    (stack : Nat → CStr) (key : List Byte) (query : Query) (eflag : Option Hexadecimal)
    (attributes : Option CreateAttrs) : doCollInsert c stack key query eflag attributes verb =
      (beforeQuery c key >>= fun _ => mkeyRequest key query.subKey.mkey verb
        (fun _ => .ok (space ++ unsignedText query.valueLength)) (insertOptions c attributes verb)
        (some (query.value.take query.valueLength))) := by
  rcases hv with rfl | rfl <;>
    simp only [doCollInsert, append_assoc] <;> rfl

theorem itemRequest_mkey (c : Client) (stack : Nat → CStr) (key : List Byte) (query : Query)
    (eflag : Option Hexadecimal) (attributes : Option CreateAttrs) :
    itemRequest c stack key query eflag attributes .mopInsert =
      mkeyRequest key query.subKey.mkey .mopInsert
        (fun _ => .ok (space ++ unsignedText query.valueLength ++ itemAttributes attributes .mopInsert))
        (replyOption c) (some (query.value.take query.valueLength)) := by
  simp only [itemRequest, append_assoc]
  rfl

def updateText (stack : Nat → CStr) (eflagUpdate : Option EflagUpdate) (valueLength : Int)
    (writeLength : Nat) : Except Refusal CStr := do
  let eflag ← updateEflag stack eflagUpdate writeLength
  return eflag ++ space ++ signedDecimal valueLength

theorem doCollUpdate_mkey (c : Client) (stack : Nat → CStr) (key : List Byte) (query : Query)
    (eflagUpdate : Option EflagUpdate) (value : Option (List Byte)) (valueLength : Int) :
    doCollUpdate c stack key query eflagUpdate value valueLength .mopUpdate =
      (beforeQuery c key >>= fun _ =>
        if eflagUpdate.isNone && value.isNone then refuse .nothingToUpdate
        else mkeyRequest key query.subKey.mkey .mopUpdate (updateText stack eflagUpdate valueLength)
          (noreplyOption c)
          (if valueLength < 0 then none else some ((value.getD []).take valueLength.toNat))) := by
  simp only [doCollUpdate, mkeyRequest, updateSubKey, updateText, append_assoc, bind_assoc,
    pure_bind]

theorem updateText_congr {stack : Nat → CStr}
    (h : updateText stack eflagUpdate valueLength n = .ok text)
    (h' : updateText stack eflagUpdate valueLength n' = .ok text') : text = text' := by
  cases eflagUpdate with
  | none =>
    exact ok.inj (h.symm.trans h')
  | some update =>
    simp only [updateText, updateEflag, eflagUpdateToStr] at h h'
    split at h
    · cases h
    · split at h'
      · cases h'
      · rename_i he _ _ he'
        split_ifs at he he'
        obtain rfl := Option.some.inj he
        obtain rfl := Option.some.inj he'
        exact ok.inj (h.symm.trans h')

/-! ## The bytes with the stated arguments -/

def builtBytes (request : Except Refusal Request) : Option (List Byte) :=
  request.toOption.map Request.wire

theorem builtBytes_some
    (h : builtBytes request = some bytes) : ∃ r, request = .ok r ∧ r.wire = bytes := by
  cases request with
  | error refusal => cases h
  | ok r => exact ⟨r, rfl, Option.some.inj h⟩

theorem builtBytes_bind {α : Type} (x : Except Refusal α) (f : α → Except Refusal Request) :
    builtBytes (x >>= f) = x.toOption.bind fun a => builtBytes (f a) := by
  cases x <;> rfl

/-- A request carries what is stated just if what it prints is `terminated`. -/
def CarriesStated (terminated : Prop) (built stated : Option (List Byte)) : Prop :=
  (terminated → built = stated) ∧ ∀ bytes, stated = some bytes → built = some bytes → terminated

section CarriesStated

variable {terminated : Prop} {built stated : Option (List Byte)}

theorem carries_of_eq (ht : terminated) (h : built = stated) :
    CarriesStated terminated built stated :=
  ⟨fun _ => h, fun _ _ _ => ht⟩

theorem CarriesStated.bind {α : Type} (h : CarriesStated terminated built stated) (x : Option α) :
    CarriesStated terminated (x.bind fun _ => built) (x.bind fun _ => stated) := by
  cases x with
  | none => exact ⟨fun _ => rfl, fun _ hs => by cases hs⟩
  | some a => exact h

theorem CarriesStated.imp {p : Prop} (h : CarriesStated terminated built stated) (hp : p) :
    CarriesStated (p → terminated) built stated :=
  ⟨fun ht => h.1 (ht hp), fun bytes hs hb _ => h.2 bytes hs hb⟩

/-- Behind a check that both have. -/
theorem CarriesStated.check {x : Except Refusal Request}
    (h : CarriesStated terminated (builtBytes x) stated)
    {p : Prop} [Decidable p] {rc : ReturnT} :
    CarriesStated terminated (builtBytes (if p then refuse rc else x))
      (if p then none else stated) := by
  split_ifs
  · exact ⟨fun _ => rfl, fun _ hs => by cases hs⟩
  · exact h

end CarriesStated

/-- The bytes of a request with the stated bytes of a map key behind the key, if it passes the
checks. -/
def exactMkey (key : List Byte) (mkey : Mkey) (verb : Verb) (text : Nat → Except Refusal CStr)
    (options : List Piece) (data : Option (List Byte)) : Option (List Byte) :=
  let argument := bytesOf space ++ mkey.stated
  if maxMopMkeyLength < mkey.length then none
  else
    match text argument.length with
    | .error _ => none
    | .ok text =>
      if defaultCommandSize ≤ argument.length + (chars ([.text text] ++ options)).length then none
      else some (Request.mk verb (key ++ argument) ([.text text] ++ options) data).wire

variable {key : List Byte} {line : List Piece}

theorem Request.wire_key_inj {data : Option (List Byte)} :
    (Request.mk verb key line data).wire = (Request.mk verb key' line data).wire ↔ key = key' := by
  simp only [wire, append_assoc]
  rw [append_cancel_left_eq, append_cancel_right_eq]

theorem wire_mkey (verb : Verb) (key : List Byte) (mkey text : CStr) (options : List Piece)
    (data : Option (List Byte)) :
    (Request.mk verb key ([.text (space ++ mkey ++ text)] ++ options) data).wire =
      (Request.mk verb (key ++ (bytesOf space ++ bytesOf mkey)) ([.text text] ++ options) data).wire := by
  simp only [wire, chars, flatMap_append, flatMap_singleton, Piece.chars,
    Strtok.bytesOf_append, append_assoc]

theorem fits_ok (h : fits size pieces = .ok line) :
    (chars pieces).length < size ∧ line = pieces := by
  rw [fits] at h
  split_ifs at h with hl
  · cases h
  · exact ⟨Nat.lt_of_not_le hl, (ok.inj h).symm⟩

theorem mkeyText_ok (h : mkeyText mkey = .ok text) : text = space ++ cString mkey.string := by
  rw [mkeyText] at h
  split_ifs at h
  · cases h
  · exact (ok.inj h).symm

section MapKeys

variable {key : List Byte} {mkey : Mkey} {verb : Verb} {text : Nat → Except Refusal CStr}
  {options : List Piece} {data : Option (List Byte)}

theorem mkeyRequest_ok (h : mkeyRequest key mkey verb text options data = .ok r) :
    ∃ t, text (space ++ cString mkey.string).length = .ok t ∧
      r = ⟨verb, key, [.text (space ++ cString mkey.string ++ t)] ++ options, data⟩ := by
  obtain ⟨subKey, hs, h⟩ := ok_of_bind h
  obtain ⟨t, ht, h⟩ := ok_of_bind h
  obtain ⟨line, hl, h⟩ := ok_of_bind h
  obtain rfl := mkeyText_ok hs
  obtain ⟨-, rfl⟩ := fits_ok hl
  exact ⟨t, ht, (ok.inj h).symm⟩

theorem exactMkey_some (h : exactMkey key mkey verb text options data = some bytes) :
    ∃ t, text (bytesOf space ++ mkey.stated).length = .ok t ∧
      bytes = (Request.mk verb (key ++ (bytesOf space ++ mkey.stated)) ([.text t] ++ options) data).wire := by
  simp only [exactMkey] at h
  split_ifs at h
  cases ht : text (bytesOf space ++ mkey.stated).length with
  | error refusal =>
    rw [ht] at h
    cases h
  | ok t =>
    rw [ht] at h
    dsimp only at h
    split_ifs at h
    exact ⟨t, rfl, (Option.some.inj h).symm⟩

/-- A map key that ends at its length is carried as it is stated. -/
theorem builtBytes_mkey (h : mkey.Terminated) :
    builtBytes (mkeyRequest key mkey verb text options data) =
      exactMkey key mkey verb text options data := by
  have hp : bytesOf (cString mkey.string) = mkey.stated := h
  have hl : (space ++ cString mkey.string).length = (bytesOf space ++ mkey.stated).length := by
    rw [← hp, ← Strtok.bytesOf_append, Strtok.length_bytesOf]
  have hli : ∀ t, (chars ([.text (space ++ cString mkey.string ++ t)] ++ options)).length =
      (bytesOf space ++ mkey.stated).length + (chars ([.text t] ++ options)).length := by
    rw [← hl]
    simp only [chars, flatMap_append, flatMap_singleton, Piece.chars, length_append]
    omega
  simp only [mkeyRequest, mkeyText, exactMkey, bind, Except.bind]
  split_ifs with hlo
  · rfl
  · dsimp only
    rw [hl]
    cases text (bytesOf space ++ mkey.stated).length with
    | error refusal => rfl
    | ok t =>
      dsimp only [fits]
      rw [hli]
      split_ifs with hf
      · rfl
      · exact congrArg some (by rw [wire_mkey, hp])

theorem carries_mkey (hte : ∀ n n' t t', text n = .ok t → text n' = .ok t' → t = t') :
    CarriesStated mkey.Terminated (builtBytes (mkeyRequest key mkey verb text options data))
      (exactMkey key mkey verb text options data) := by
  refine ⟨builtBytes_mkey, fun bytes he h => ?_⟩
  obtain ⟨t, ht, rfl⟩ := exactMkey_some he
  obtain ⟨r, hr, hw⟩ := builtBytes_some h
  obtain ⟨t', ht', rfl⟩ := mkeyRequest_ok hr
  rw [hte _ _ _ _ ht' ht, wire_mkey, wire_key_inj, append_cancel_left_eq,
    append_cancel_left_eq] at hw
  exact hw

end MapKeys

/-! ## Lists of map keys -/

def mkeysRequest (separator : CChar) (key : List Byte) (mkeys : List Mkey) (option : CStr) :
    Except Refusal Request :=
  let length := (mkeys.map Mkey.length).sum + (mkeys.length - 1)
  if mkeys.any fun mkey => maxMopMkeyLength < mkey.length then refuse .invalidArguments
  else if mkeys = [] then .error .outOfBounds
  else do
    let data ← mkeysData separator mkeys (length + 1)
    let line ← fits maximumCommandSize
      [.text (space ++ decimal length ++ space ++ decimal mkeys.length ++ option)]
    return ⟨.mopGet, key, line, some data⟩

/-- Its bytes with the stated bytes of the map keys, if it passes the checks. -/
def exactMkeys (separator : CChar) (key : List Byte) (mkeys : List Mkey) (option : CStr) :
    Option (List Byte) :=
  let length := (mkeys.map Mkey.length).sum + (mkeys.length - 1)
  let line := [.text (space ++ decimal length ++ space ++ decimal mkeys.length ++ option)]
  if mkeys.any fun mkey => maxMopMkeyLength < mkey.length then none
  else if mkeys = [] then none
  else if maximumCommandSize ≤ (chars line).length then none
  else some (Request.mk .mopGet key line
    (some ([separator.1].intercalate (mkeys.map Mkey.stated)))).wire

variable {query : Query}

theorem doCollGet_mkeys (ht : query.type = .mopRange) (c : Client)
    (stack : Nat → CStr) (spaceSeparated : Bool) (key : List Byte) (withDelete dropIfEmpty : Bool) :
    doCollGet c stack spaceSeparated key query withDelete dropIfEmpty .mopGet =
      (beforeQuery c key >>= fun _ => if !withDelete && dropIfEmpty then refuse .invalidArguments
        else mkeysRequest (ofChar (if spaceSeparated then ' ' else ',')) key query.subKey.mkeys
          (deleteOption withDelete dropIfEmpty)) := by
  simp only [doCollGet, getSubKey, ht, mkeysRequest]
  split_ifs
  · rfl
  · rfl
  · rfl
  all_goals
    rw [bind_assoc]
    rfl

theorem Request.wire_data_inj {data data' : List Byte} :
    (Request.mk verb key line (some data)).wire = (Request.mk verb key line (some data')).wire ↔
      data = data' := by
  simp only [wire, append_cancel_left_eq, append_cancel_right_eq]

section ListsOfMapKeys

variable {separator : CChar} {key : List Byte} {mkeys : List Mkey} {option : CStr}

theorem printed_mkeys (h : ∀ mkey ∈ mkeys, mkey.Terminated) :
    bytesOf ([separator].intercalate (mkeys.map fun mkey => cString mkey.string)) =
      [separator.1].intercalate (mkeys.map Mkey.stated) := by
  rw [bytesOf, map_intercalate, map_map]
  exact congrArg _ (map_congr_left h)

/-- What is printed for a list of map keys is what is stated, just if it is for all of them. -/
theorem terminated_of_printed (hs : mkeys ≠ [])
    (h : bytesOf ([separator].intercalate (mkeys.map fun mkey => cString mkey.string)) =
      [separator.1].intercalate (mkeys.map Mkey.stated)) : ∀ mkey ∈ mkeys, mkey.Terminated := by
  have hp : ∀ mkey ∈ mkeys, bytesOf (cString mkey.string) =
      mkey.stated ++ bytesOf (cString (mkey.string.drop mkey.length)) := by
    intro mkey hm
    refine Mkey.printed_eq fun hz => ?_
    have hin : 0 ∈ [separator.1].intercalate (mkeys.map Mkey.stated) :=
      mem_intercalate (mem_map_of_mem hm) hz
    rw [← h] at hin
    exact zero_notMem_bytesOf _ hin
  rw [bytesOf, map_intercalate, map_map] at h
  have hl := congrArg (fun bytes => bytes.length + [separator.1].length) h
  rw [map_singleton, length_intercalate (by simpa using hs),
    length_intercalate (by simpa using hs), map_map, map_map] at hl
  -- nothing can be printed behind any of them
  intro mkey hm
  by_contra hnot
  refine absurd hl.symm (sum_lt_sum _ _ (fun mkey' hm' => ?_) ⟨mkey, hm, ?_⟩).ne
  · have := congrArg length (hp mkey' hm')
    rw [length_append] at this
    simp only [comp_apply, bytesOf] at this ⊢
    omega
  · have hlo := congrArg length (hp mkey hm)
    have hmo : (bytesOf (cString (mkey.string.drop mkey.length))).length ≠ 0 := fun hz => by
      have he := hp mkey hm
      rw [eq_nil_of_length_eq_zero hz, append_nil] at he
      exact hnot he
    rw [length_append] at hlo
    simp only [comp_apply, bytesOf] at hlo hmo ⊢
    omega

theorem mkeysData_ok (hs : mkeys ≠ []) (h : ∀ mkey ∈ mkeys, mkey.Terminated) :
    mkeysData separator mkeys ((mkeys.map Mkey.length).sum + (mkeys.length - 1) + 1) =
      .ok ([separator.1].intercalate (mkeys.map Mkey.stated)) := by
  have ht : bytesOf ([separator].intercalate (mkeys.map fun mkey => cString mkey.string)) =
      [separator.1].intercalate (mkeys.map Mkey.stated) := printed_mkeys h
  have hl : ([separator.1].intercalate (mkeys.map Mkey.stated)).length + [separator.1].length =
      ((mkeys.map Mkey.stated).map fun part => part.length + [separator.1].length).sum :=
    length_intercalate (by simpa using hs)
  rw [← ht, Strtok.length_bytesOf, map_map] at hl
  have hst : (mkeys.map (fun mkey => mkey.stated.length + 1)).sum ≤
      (mkeys.map fun mkey => mkey.length + 1).sum :=
    sum_le_sum fun mkey _ => Nat.succ_le_succ (length_take_le _ _)
  have ho : (mkeys.map fun mkey => mkey.length + 1).sum = (mkeys.map Mkey.length).sum + mkeys.length := by
    rw [sum_map_add, map_const', sum_replicate, smul_eq_mul, mul_one]
  rw [mkeysData, if_neg, ht]
  simp only [comp_def, length_singleton] at hl
  omega

/-- Map keys that end at their lengths are carried as they are stated. -/
theorem builtBytes_mkeys (h : ∀ mkey ∈ mkeys, mkey.Terminated) :
    builtBytes (mkeysRequest separator key mkeys option) = exactMkeys separator key mkeys option := by
  rw [mkeysRequest, exactMkeys]
  split_ifs with hl hn hli
  · rfl
  · rfl
  · rw [mkeysData_ok hn h, fits, if_pos hli]
    rfl
  · rw [mkeysData_ok hn h, fits, if_neg hli]
    rfl

theorem carries_mkeys : CarriesStated (∀ mkey ∈ mkeys, mkey.Terminated)
    (builtBytes (mkeysRequest separator key mkeys option))
    (exactMkeys separator key mkeys option) := by
  refine ⟨builtBytes_mkeys, fun bytes he h => ?_⟩
  rw [exactMkeys] at he
  split_ifs at he with hl hn hli
  obtain ⟨r, hr, hw⟩ := builtBytes_some h
  rw [mkeysRequest, if_neg hl, if_neg hn] at hr
  obtain ⟨data, hd, hr⟩ := ok_of_bind hr
  obtain ⟨line, hf, hr⟩ := ok_of_bind hr
  obtain ⟨-, rfl⟩ := fits_ok hf
  obtain rfl := ok.inj hr
  rw [← Option.some.inj he, wire_data_inj] at hw
  refine terminated_of_printed hn (?_ : bytesOf ([separator].intercalate _) = _)
  rw [mkeysData] at hd
  split_ifs at hd
  · cases hd
  · rw [ok.inj hd]
    exact hw

end ListsOfMapKeys

/-! ## Keys of piped requests -/

section Items

variable {c : Client} {key : KeyMemory} {pipeBufferPos : Nat}

/-- A key that ends at its length, or that is not printed, is carried as it is stated. -/
theorem builtBytes_item {data : Option (List Byte)}
    (h : c.piped = true → pipeBufferPos + (Request.mk verb key.bytes line data).wire.length <
      maxPipedBufferSize → key.Terminated) :
    builtBytes ((collectOrFlush c key pipeBufferPos ⟨verb, key.bytes, line, data⟩).map Item.request) =
      some (Request.mk verb key.bytes line data).wire := by
  rw [collectOrFlush]
  split_ifs with hc
  · rw [Bool.and_eq_true, decide_eq_true_eq] at hc
    have hk : key.string = key.bytes := h hc.1 hc.2
    rw [hk, if_pos hc.2.le]
    rfl
  · rfl

/-- A piped request carries the key as it is stated, or its string if it is collected. -/
theorem builtBytes_item_some
    (h : builtBytes ((collectOrFlush c key pipeBufferPos r).map Item.request) = some bytes) :
    bytes = r.wire ∧ ¬(c.piped = true ∧ pipeBufferPos + r.wire.length < maxPipedBufferSize) ∨
      bytes = { r with key := key.string }.wire := by
  rw [collectOrFlush] at h
  split_ifs at h with hc
  · dsimp only at h
    split_ifs at h
    · exact Or.inr (Option.some.inj h).symm
    · cases h
  · rw [Bool.and_eq_true, decide_eq_true_eq] at hc
    exact Or.inl ⟨(Option.some.inj h).symm, hc⟩

end Items

/-! ## Operations -/

inductive Operation where
  | insert (query : Query) (eflag : Option Hexadecimal) (attributes : Option CreateAttrs) (verb : Verb)
  | update (query : Query) (eflagUpdate : Option EflagUpdate) (value : Option (List Byte))
      (valueLength : Int) (verb : Verb)
  | delete (query : Query) (count : Nat) (dropIfEmpty : Bool) (verb : Verb)
  | get (spaceSeparated : Bool) (query : Query) (withDelete dropIfEmpty : Bool) (verb : Verb)
  | pipedInsert (pipeBufferPos : Nat) (query : Query) (eflag : Option Hexadecimal)
      (attributes : Option CreateAttrs) (verb : Verb)
  | pipedExist (pipeBufferPos : Nat) (value : List Byte) (verb : Verb)

namespace Operation

variable (c : Client) (stack : Nat → CStr) (key : KeyMemory)

def request : Operation → Except Refusal Request
  | .insert query eflag attributes verb => doCollInsert c stack key.bytes query eflag attributes verb
  | .update query eflagUpdate value valueLength verb =>
    doCollUpdate c stack key.bytes query eflagUpdate value valueLength verb
  | .delete query count dropIfEmpty verb =>
    doCollDelete c stack key.bytes query count dropIfEmpty verb
  | .get spaceSeparated query withDelete dropIfEmpty verb =>
    doCollGet c stack spaceSeparated key.bytes query withDelete dropIfEmpty verb
  | .pipedInsert pipeBufferPos query eflag attributes verb =>
    (internalCollPipedInsert c stack pipeBufferPos key query eflag attributes verb).map Item.request
  | .pipedExist pipeBufferPos value verb =>
    (internalCollPipedExist c pipeBufferPos key value verb).map Item.request

/-- The bytes it gives to the connection or to the pipe buffer. -/
def bytes (op : Operation) : Option (List Byte) := builtBytes (op.request c stack key)

/-- The bytes that carry what is stated, if the request passes the checks. -/
def exact : Operation → Option (List Byte)
  | .insert query eflag attributes verb =>
    if verb = .mopInsert ∨ verb = .mopUpsert then
      (beforeQuery c key.bytes).toOption.bind fun _ => exactMkey key.bytes query.subKey.mkey verb
        (fun _ => .ok (space ++ unsignedText query.valueLength)) (insertOptions c attributes verb)
        (some (query.value.take query.valueLength))
    else builtBytes (doCollInsert c stack key.bytes query.cut eflag attributes verb)
  | .update query eflagUpdate value valueLength verb =>
    if verb = .mopUpdate then
      (beforeQuery c key.bytes).toOption.bind fun _ =>
        if eflagUpdate.isNone && value.isNone then none
        else exactMkey key.bytes query.subKey.mkey verb (updateText stack eflagUpdate valueLength)
          (noreplyOption c)
          (if valueLength < 0 then none else some ((value.getD []).take valueLength.toNat))
    else builtBytes (doCollUpdate c stack key.bytes query.cut eflagUpdate value valueLength verb)
  | .delete query count dropIfEmpty verb =>
    builtBytes (doCollDelete c stack key.bytes query.cut count dropIfEmpty verb)
  | .get spaceSeparated query withDelete dropIfEmpty verb =>
    if verb = .mopGet ∧ query.type = .mopRange then
      (beforeQuery c key.bytes).toOption.bind fun _ =>
        if !withDelete && dropIfEmpty then none
        else exactMkeys (ofChar (if spaceSeparated then ' ' else ',')) key.bytes query.subKey.mkeys
          (deleteOption withDelete dropIfEmpty)
    else builtBytes (doCollGet c stack spaceSeparated key.bytes query.cut withDelete dropIfEmpty verb)
  | .pipedInsert _ query eflag attributes verb =>
    if verb = .mopInsert then
      exactMkey key.bytes query.subKey.mkey verb
        (fun _ => .ok (space ++ unsignedText query.valueLength ++ itemAttributes attributes verb))
        (replyOption c) (some (query.value.take query.valueLength))
    else builtBytes (itemRequest c stack key.bytes query.cut eflag attributes verb)
  | .pipedExist _ value verb => builtBytes (existRequest c key.bytes value verb)

def CollectsKey (op : Operation) (pipeBufferPos : Nat) : Prop :=
  ∃ bytes, op.exact c stack key = some bytes ∧ c.piped = true ∧
    pipeBufferPos + bytes.length < maxPipedBufferSize

def PrintsTerminated : Operation → Prop
  | .insert query _ _ verb => verb = .mopInsert ∨ verb = .mopUpsert → query.subKey.mkey.Terminated
  | .update query _ _ _ verb => verb = .mopUpdate → query.subKey.mkey.Terminated
  | .delete _ _ _ _ => True
  | .get _ query _ _ verb => verb = .mopGet ∧ query.type = .mopRange →
      ∀ mkey ∈ query.subKey.mkeys, mkey.Terminated
  | .pipedInsert pipeBufferPos query eflag attributes verb =>
    (verb = .mopInsert → query.subKey.mkey.Terminated) ∧
      (CollectsKey c stack key (.pipedInsert pipeBufferPos query eflag attributes verb) pipeBufferPos →
        key.Terminated)
  | .pipedExist pipeBufferPos value verb =>
    CollectsKey c stack key (.pipedExist pipeBufferPos value verb) pipeBufferPos → key.Terminated

/-- The operation without the memory behind the stated bytes. -/
def cut : Operation → Operation
  | .insert query eflag attributes verb => .insert query.cut eflag attributes verb
  | .update query eflagUpdate value valueLength verb =>
    .update query.cut eflagUpdate value valueLength verb
  | .delete query count dropIfEmpty verb => .delete query.cut count dropIfEmpty verb
  | .get spaceSeparated query withDelete dropIfEmpty verb =>
    .get spaceSeparated query.cut withDelete dropIfEmpty verb
  | .pipedInsert pipeBufferPos query eflag attributes verb =>
    .pipedInsert pipeBufferPos query.cut eflag attributes verb
  | .pipedExist pipeBufferPos value verb => .pipedExist pipeBufferPos value verb

end Operation

/-! ## Operations that print nothing -/

section NotPrinted

variable (c : Client) (stack : Nat → CStr) (key : List Byte) (query : Query)

variable {verb : Verb}

theorem doCollInsert_cut (hv : ¬(verb = .mopInsert ∨ verb = .mopUpsert))
    (eflag : Option Hexadecimal) (attributes : Option CreateAttrs) :
    doCollInsert c stack key query.cut eflag attributes verb =
      doCollInsert c stack key query eflag attributes verb := by
  cases verb <;> first | rfl | exact absurd (by simp) hv

theorem doCollUpdate_cut (hv : verb ≠ .mopUpdate) (eflagUpdate : Option EflagUpdate)
    (value : Option (List Byte)) (valueLength : Int) :
    doCollUpdate c stack key query.cut eflagUpdate value valueLength verb =
      doCollUpdate c stack key query eflagUpdate value valueLength verb := by
  cases verb <;> first | rfl | exact absurd rfl hv

theorem itemRequest_cut (hv : verb ≠ .mopInsert) (eflag : Option Hexadecimal)
    (attributes : Option CreateAttrs) : itemRequest c stack key query.cut eflag attributes verb =
      itemRequest c stack key query eflag attributes verb := by
  cases verb <;> first | rfl | exact absurd rfl hv

theorem doCollDelete_cut (count : Nat) (dropIfEmpty : Bool) (verb : Verb) :
    doCollDelete c stack key query.cut count dropIfEmpty verb =
      doCollDelete c stack key query count dropIfEmpty verb := by
  have hs : query.cut.subKey.mkey.string.take query.cut.subKey.mkey.length =
      query.subKey.mkey.string.take query.subKey.mkey.length := Mkey.stated_cut
  have hsu : deleteSubKey stack query.cut count verb = deleteSubKey stack query count verb := by
    cases verb <;> rfl
  simp only [doCollDelete, hs]
  rfl

theorem doCollGet_cut (hv : ¬(verb = .mopGet ∧ query.type = .mopRange))
    (spaceSeparated withDelete dropIfEmpty : Bool) :
    doCollGet c stack spaceSeparated key query.cut withDelete dropIfEmpty verb =
      doCollGet c stack spaceSeparated key query withDelete dropIfEmpty verb := by
  have hs : query.cut.subKey.mkey.string.take query.cut.subKey.mkey.length =
      query.subKey.mkey.string.take query.subKey.mkey.length := Mkey.stated_cut
  have hsu : getSubKey stack spaceSeparated query.cut verb =
      getSubKey stack spaceSeparated query verb := by
    cases verb with
    | mopGet =>
      have ht : query.cut.type = query.type := rfl
      simp only [getSubKey, ht]
      cases h : query.type with
      | mop =>
        simp only [hs]
        rfl
      | mopRange => exact absurd ⟨rfl, h⟩ hv
      | _ => rfl
    | _ => rfl
  simp only [doCollGet, hsu]

end NotPrinted

/-! ## What operations carry -/

theorem Query.cut_cut (query : Query) : query.cut.cut = query.cut := by
  have hc : ∀ mkey : Mkey, mkey.cut.cut = mkey.cut := fun mkey => by
    rw [Mkey.cut, Mkey.stated_cut]
    rfl
  simp [Query.cut, hc]

theorem exactMkey_cut {text : Nat → Except Refusal CStr} {data : Option (List Byte)} :
    exactMkey key mkey.cut verb text options data = exactMkey key mkey verb text options data := by
  rw [exactMkey, Mkey.stated_cut]
  rfl

theorem exactMkeys_cut :
    exactMkeys separator key (mkeys.map Mkey.cut) option = exactMkeys separator key mkeys option := by
  have hs : Mkey.stated ∘ Mkey.cut = Mkey.stated := funext fun mkey => Mkey.stated_cut
  have hl : Mkey.length ∘ Mkey.cut = Mkey.length := rfl
  simp only [exactMkeys, map_map, hs, length_map, any_map, map_eq_nil_iff]
  rfl

theorem itemRequest_key {stack : Nat → CStr}
    (h : itemRequest c stack key query eflag attributes verb = .ok r) : r.key = key := by
  obtain ⟨subKey, -, h⟩ := ok_of_bind h
  obtain ⟨line, -, h⟩ := ok_of_bind h
  rw [← ok.inj h]

theorem existRequest_key (h : existRequest c key value verb = .ok r) : r.key = key := by
  obtain ⟨line, -, h⟩ := ok_of_bind h
  rw [← ok.inj h]

section Piped

variable {c : Client} {key : KeyMemory} {pipeBufferPos : Nat} {x : Except Refusal Request}

theorem builtBytes_piped (hk : ∀ r, x = .ok r → r.key = key.bytes)
    (h : (∃ bytes, builtBytes x = some bytes ∧ c.piped = true ∧
      pipeBufferPos + bytes.length < maxPipedBufferSize) → key.Terminated) :
    builtBytes ((x >>= collectOrFlush c key pipeBufferPos).map Item.request) = builtBytes x := by
  cases x with
  | error refusal => rfl
  | ok r =>
    obtain ⟨verb, key', line, data⟩ := r
    obtain rfl : key' = key.bytes := hk _ rfl
    exact builtBytes_item fun hp hr => h ⟨_, rfl, hp, hr⟩

theorem builtBytes_piped_some
    (h : builtBytes ((x >>= collectOrFlush c key pipeBufferPos).map Item.request) = some bytes) :
    ∃ r, x = .ok r ∧
      (bytes = r.wire ∧ ¬(c.piped = true ∧ pipeBufferPos + bytes.length < maxPipedBufferSize) ∨
        bytes = { r with key := key.string }.wire) := by
  cases x with
  | error refusal => cases h
  | ok r =>
    refine ⟨r, rfl, (builtBytes_item_some h).imp_left ?_⟩
    rintro ⟨rfl, hn⟩
    exact ⟨rfl, hn⟩

/-- A request that prints nothing but the key carries what is stated only if the key is not printed, or
ends at its length. -/
theorem terminated_of_piped (hk : ∀ r, x = .ok r → r.key = key.bytes)
    (he : builtBytes x = some bytes)
    (h : builtBytes ((x >>= collectOrFlush c key pipeBufferPos).map Item.request) = some bytes)
    (hc : c.piped = true ∧ pipeBufferPos + bytes.length < maxPipedBufferSize) :
    key.Terminated := by
  obtain ⟨r, rfl, ⟨-, hn⟩ | hs⟩ := builtBytes_piped_some h
  · exact absurd hc hn
  · have hw : r.wire = bytes := Option.some.inj he
    obtain ⟨verb, key', line, data⟩ := r
    obtain rfl : key' = key.bytes := hk _ rfl
    exact wire_key_inj.1 (hs.symm.trans hw.symm)

end Piped

namespace Operation

variable {c : Client} {stack : Nat → CStr} {key : KeyMemory} {op : Operation}

theorem ok_unique {x : Except Refusal CStr} (ha : x = .ok a) (hb : x = .ok b) : a = b :=
  ok.inj (ha.symm.trans hb)

theorem carries_pipedInsert (pipeBufferPos : Nat) (query : Query) (eflag : Option Hexadecimal)
    (attributes : Option CreateAttrs) (verb : Verb) :
    let op := Operation.pipedInsert pipeBufferPos query eflag attributes verb
    CarriesStated (op.PrintsTerminated c stack key) (op.bytes c stack key) (op.exact c stack key) := by
  refine ⟨fun ⟨hm, hk⟩ => ?_, fun stated hex h => ?_⟩
  · have hex : builtBytes (itemRequest c stack key.bytes query eflag attributes verb) =
        exact c stack key (.pipedInsert pipeBufferPos query eflag attributes verb) := by
      simp only [exact]
      split_ifs with hv
      · subst hv
        rw [itemRequest_mkey]
        exact builtBytes_mkey (hm rfl)
      · rw [itemRequest_cut c stack key.bytes query hv]
    rw [bytes, request, internalCollPipedInsert_eq, ← hex]
    refine builtBytes_piped (fun r hr => itemRequest_key hr) fun hc => hk ?_
    rw [hex] at hc
    exact hc
  · rw [bytes, request, internalCollPipedInsert_eq] at h
    by_cases hv : verb = .mopInsert
    · subst hv
      have hs := hex
      rw [exact, if_pos rfl] at hs
      obtain ⟨r, hr, ⟨hw, hn⟩ | hw⟩ := builtBytes_piped_some h
      · refine ⟨fun _ => (carries_mkey fun _ _ _ _ => ok_unique).2 _ hs ?_, ?_⟩
        · rw [← itemRequest_mkey c stack key.bytes query eflag attributes, hr, hw]
          rfl
        · rintro ⟨bytes, hb, hc⟩
          obtain rfl := Option.some.inj (hb.symm.trans hex)
          exact absurd hc hn
      · rw [itemRequest_mkey] at hr
        obtain ⟨t, ht, rfl⟩ := mkeyRequest_ok hr
        obtain ⟨t', ht', rfl⟩ := exactMkey_some hs
        obtain rfl := ok_unique ht ht'
        rw [wire_mkey, wire_key_inj, ← append_assoc, ← append_assoc] at hw
        obtain ⟨hk, hm⟩ := printed_both hw.symm
        exact ⟨fun _ => hm, fun _ => hk⟩
    · refine ⟨fun hmo => absurd hmo hv, ?_⟩
      rintro ⟨bytes, hb, hc⟩
      obtain rfl := Option.some.inj (hb.symm.trans hex)
      rw [exact, if_neg hv, itemRequest_cut c stack key.bytes query hv] at hex
      exact terminated_of_piped (fun r hr => itemRequest_key hr) hex h hc

theorem carries (op : Operation) :
    CarriesStated (op.PrintsTerminated c stack key) (op.bytes c stack key)
      (op.exact c stack key) := by
  cases op with
  | insert query eflag attributes verb =>
    simp only [bytes, request, exact]
    split_ifs with hv
    · rw [doCollInsert_mkey hv, builtBytes_bind]
      exact ((carries_mkey fun _ _ _ _ => ok_unique).bind _).imp hv
    · rw [doCollInsert_cut c stack key.bytes query hv]
      exact carries_of_eq (fun h => absurd h hv) rfl
  | update query eflagUpdate value valueLength verb =>
    simp only [bytes, request, exact]
    by_cases hv : verb = .mopUpdate
    · subst hv
      rw [doCollUpdate_mkey, builtBytes_bind]
      exact ((carries_mkey fun _ _ _ _ => updateText_congr).check.bind _).imp rfl
    · rw [if_neg hv, doCollUpdate_cut c stack key.bytes query hv]
      exact carries_of_eq (fun h => absurd h hv) rfl
  | delete query count dropIfEmpty verb =>
    simp only [bytes, request, exact, doCollDelete_cut]
    exact carries_of_eq trivial rfl
  | get spaceSeparated query withDelete dropIfEmpty verb =>
    simp only [bytes, request, exact]
    by_cases hv : verb = .mopGet ∧ query.type = .mopRange
    · rw [if_pos hv]
      obtain ⟨rfl, ht⟩ := hv
      rw [doCollGet_mkeys ht, builtBytes_bind]
      exact (carries_mkeys.check.bind _).imp ⟨rfl, ht⟩
    · rw [if_neg hv, doCollGet_cut c stack key.bytes query hv]
      exact carries_of_eq (fun h => absurd h hv) rfl
  | pipedInsert pipeBufferPos query eflag attributes verb => exact carries_pipedInsert ..
  | pipedExist pipeBufferPos value verb =>
    rw [bytes, request, internalCollPipedExist_eq]
    refine ⟨builtBytes_piped fun r hr => existRequest_key hr, fun stated hex h => ?_⟩
    rintro ⟨bytes, hb, hc⟩
    obtain rfl := Option.some.inj (hb.symm.trans hex)
    exact terminated_of_piped (fun r hr => existRequest_key hr) hex h hc

/-- The exact bytes do not depend on the memory behind the stated bytes. -/
theorem exact_cut : op.cut.exact c stack key.cut = op.exact c stack key := by
  cases op with
  | insert query eflag attributes verb =>
    simp only [cut, exact, Query.cut_cut]
    exact if_congr Iff.rfl (congrArg _ (funext fun _ => exactMkey_cut)) rfl
  | update query eflagUpdate value valueLength verb =>
    simp only [cut, exact, Query.cut_cut]
    refine if_congr Iff.rfl (congrArg _ (funext fun _ => ?_)) rfl
    exact if_congr Iff.rfl rfl exactMkey_cut
  | delete query count dropIfEmpty verb => simp only [cut, exact, Query.cut_cut, KeyMemory.cut]
  | get spaceSeparated query withDelete dropIfEmpty verb =>
    simp only [cut, exact, Query.cut_cut]
    refine if_congr Iff.rfl (congrArg _ (funext fun _ => ?_)) rfl
    exact if_congr Iff.rfl rfl exactMkeys_cut
  | pipedInsert pipeBufferPos query eflag attributes verb =>
    simp only [cut, exact, Query.cut_cut]
    exact if_congr Iff.rfl exactMkey_cut rfl
  | pipedExist pipeBufferPos value verb => rfl

end Operation

/-! ## Runs of a pipe -/

/-- The key and the map keys of a piped insertion end at their lengths. -/
structure PipedCall.Terminated (call : PipedCall) : Prop where
  key : call.key.Terminated
  mkeys : call.verb = .mopInsert → ∀ item ∈ call.items, item.1.subKey.mkey.Terminated

/-- A piped insertion without the memory behind the stated bytes. -/
def PipedCall.cut (call : PipedCall) : PipedCall :=
  { call with
    key := call.key.cut
    items := call.items.map fun item => (item.1.cut, item.2) }

/-- An existence check without the memory behind the stated bytes. -/
def ExistCall.cut (call : ExistCall) : ExistCall := { call with key := call.key.cut }

theorem collectOrFlush_cut {key : KeyMemory} (h : key.Terminated) (c : Client)
    (pipeBufferPos : Nat) :
    collectOrFlush c key.cut pipeBufferPos = collectOrFlush c key pipeBufferPos := by
  funext r
  simp only [collectOrFlush, h.string_cut]

theorem itemRequest_cut_mkey (c : Client) (stack : Nat → CStr) (key : List Byte)
    (h : query.subKey.mkey.Terminated) (eflag : Option Hexadecimal)
    (attributes : Option CreateAttrs) :
    itemRequest c stack key query.cut eflag attributes .mopInsert =
      itemRequest c stack key query eflag attributes .mopInsert := by
  have hm : mkeyText query.cut.subKey.mkey = mkeyText query.subKey.mkey := by
    rw [mkeyText, mkeyText]
    change (if maxMopMkeyLength < query.subKey.mkey.length then _
      else ok (space ++ cString query.subKey.mkey.cut.string)) = _
    rw [h.cString_cut]
  rw [itemRequest_mkey, itemRequest_mkey, mkeyRequest, hm]
  rfl

theorem PipedCall.request_cut {call : PipedCall} (h : call.Terminated) :
    call.cut.request = call.request := by
  funext s
  have hm : call.cut.more s = call.more s := by
    simp [PipedCall.more, PipedCall.count, PipedCall.cut]
  have hg : call.cut.items[s.i.toNat]? =
      (call.items[s.i.toNat]?).map fun item => (item.1.cut, item.2) := getElem?_map
  simp only [PipedCall.request, hm, hg]
  cases hite : call.items[s.i.toNat]? with
  | none => rfl
  | some item =>
    obtain ⟨query, eflag⟩ := item
    have hr : itemRequest { call.client with piped := call.more s } call.stack call.key.bytes
        query.cut eflag call.attributes call.verb =
        itemRequest { call.client with piped := call.more s } call.stack call.key.bytes
          query eflag call.attributes call.verb := by
      by_cases hv : call.verb = .mopInsert
      · rw [hv]
        exact itemRequest_cut_mkey _ _ _ (h.mkeys hv _ (mem_of_getElem? hite)) _ _
      · exact itemRequest_cut _ _ _ _ hv _ _
    simp only [internalCollPipedInsert_eq]
    change (if s.i < 0 then _ else itemRequest _ _ call.key.bytes query.cut eflag _ _ >>=
      collectOrFlush _ call.key.cut _) = _
    rw [collectOrFlush_cut h.key]
    exact if_congr Iff.rfl rfl (by rw [← hr]; rfl)

/-- A run of a piped insertion does not depend on the memory behind the stated bytes, if these are
terminated. -/
theorem PipedCall.loop_cut {call : PipedCall} (h : call.Terminated) :
    call.cut.loop = call.loop := by
  have hc : call.cut.count = call.count := length_map _
  have hm : call.cut.more = call.more := by
    funext s
    rw [PipedCall.more, PipedCall.more, hc]
  have he : (fun s => decide (call.cut.enters s)) = fun s => decide (call.enters s) := by
    funext s
    refine decide_eq_decide.2 ?_
    rw [PipedCall.enters, PipedCall.enters, hc]
  simp only [PipedCall.loop, he, hm, request_cut h]

theorem ExistCall.loop_cut {call : ExistCall} (h : call.key.Terminated) :
    call.cut.loop = call.loop := by
  have hr : call.cut.request = call.request := by
    funext s
    have hv : call.cut.values = call.values := rfl
    simp only [ExistCall.request, internalCollPipedExist_eq, hv]
    cases call.values[s.i.toNat]? with
    | none => rfl
    | some value =>
      change existRequest _ call.key.bytes value _ >>= collectOrFlush _ call.key.cut _ = _
      rw [collectOrFlush_cut h]
      rfl
  simp only [ExistCall.loop, hr]
  rfl

namespace PipeCall

/-- The keys and map keys of a call end at their lengths. -/
def Terminated : PipeCall → Prop
  | .insert call => call.Terminated
  | .exist call => call.key.Terminated

/-- A call without the memory behind the stated bytes. -/
def cut : PipeCall → PipeCall
  | .insert call => .insert call.cut
  | .exist call => .exist call.cut

theorem loop_cut {call : PipeCall} (h : call.Terminated) : call.cut.loop = call.loop := by
  cases call with
  | insert call => exact PipedCall.loop_cut h
  | exist call => exact ExistCall.loop_cut h

end PipeCall

/-- A request carries the stated bytes just if what it prints ends at its length.  So two calls with
the same stated bytes send the same then, and so do two runs of a pipe. -/
theorem stated_bytes_iff (c : Client) (stack : Nat → CStr) (key : KeyMemory) (op : Operation) :
    (op.PrintsTerminated c stack key → op.bytes c stack key = op.exact c stack key) ∧
    (op.exact c stack key ≠ none → op.bytes c stack key = op.exact c stack key →
      op.PrintsTerminated c stack key) ∧
    (∀ (key' : KeyMemory) (op' : Operation), key'.cut = key.cut → op'.cut = op.cut →
      op.PrintsTerminated c stack key → op'.PrintsTerminated c stack key' →
      op'.bytes c stack key' = op.bytes c stack key) ∧
    (∀ call call' : PipeCall, call'.cut = call.cut → call.Terminated → call'.Terminated →
      ∀ turns s, call'.loop.stream turns s = call.loop.stream turns s) := by
  refine ⟨(Operation.carries op).1, fun hs h => ?_, fun key' op' hk ho hp hp' => ?_,
    fun call call' hc h h' turns s => ?_⟩
  · obtain ⟨stated, hst⟩ := Option.ne_none_iff_exists'.1 hs
    exact (Operation.carries op).2 stated hst (h.trans hst)
  · rw [(Operation.carries op).1 hp, (Operation.carries op').1 hp', ← Operation.exact_cut,
      hk, ho, Operation.exact_cut]
  · rw [← PipeCall.loop_cut h, ← PipeCall.loop_cut h', hc]

/-- The insertion of an empty element under the map key `f`, with this memory behind it. -/
def mapInsertion (behind : List Byte) : Operation :=
  .insert { elementQuery [] with
    type := .mop
    subKey := { (elementQuery []).subKey with mkey := ⟨102 :: behind, 1⟩ } } none none .mopInsert

theorem stated_bytes_terminated : (mapInsertion [0]).bytes pipingClient (fun _ => []) ⟨[107], [0]⟩ =
      (mapInsertion [0]).exact pipingClient (fun _ => []) ⟨[107], [0]⟩ :=
  (stated_bytes_iff _ _ _ _).1 fun _ => rfl

/-- An `x` behind the map key is sent too.  So is one behind the key of a piped request, if the
request is collected. -/
theorem stated_bytes_sent_behind : ((mapInsertion [120, 0]).cut = (mapInsertion [0]).cut ∧
      (mapInsertion [120, 0]).bytes pipingClient (fun _ => []) ⟨[107], [0]⟩ ≠
        (mapInsertion [0]).bytes pipingClient (fun _ => []) ⟨[107], [0]⟩) ∧
    (KeyMemory.cut ⟨[107], [120, 0]⟩ = KeyMemory.cut ⟨[107], [0]⟩ ∧
      (Operation.pipedExist 0 [] .sopExist).bytes { pipingClient with piped := true } (fun _ => [])
          ⟨[107], [120, 0]⟩ ≠
        (Operation.pipedExist 0 [] .sopExist).bytes { pipingClient with piped := true } (fun _ => [])
          ⟨[107], [0]⟩) :=
  ⟨⟨rfl, by decide⟩, ⟨rfl, by decide⟩⟩

end ArcusClient.Coll
