import ArcusClient.Collection.QueryText
import ArcusClient.Collection.StatedBytes

/-!
# Retrieval by a list of map keys

`do_coll_get` allocates the sum of the lengths and `number_of_mkeys - 1`, and one byte more.  The position is an
`int`, and the allocation is not tested.  With no map key the sum wraps around (`mkeys_framed_iff`).
-/

namespace ArcusClient.Coll

open CString Outcome Scatter List

def memcachedMopMkeyListQueryInit (old : SubKey) (mkeys : List Mkey) : Query :=
  ⟨.mopRange, { old with mkeys := mkeys }, [], 0, 0, 0, none⟩

/-- `length_of_mkeys`. -/
def mkeysLength (mkeys : List Mkey) : Nat := (mkeys.map Mkey.length).sum + (mkeys.length - 1)

/-- The texts that are printed to the buffer, one after the other. -/
def mkeyTexts (separator : CChar) : List CStr → List CStr
  | [] => []
  | [string] => [string]
  | string :: rest => (string ++ [separator]) :: mkeyTexts separator rest

/-- The calls of `snprintf`.  If the position is behind the buffer, then what is left of it wraps around. -/
def writeMkeys (bufferLength : Nat) : (position : Nat) → List CStr → Except Refusal Unit
  | _, [] => .ok ()
  | position, text :: rest =>
    if bufferLength < position ∨ 2 ^ 31 ≤ position + text.length then .error .outOfBounds
    else writeMkeys bufferLength (position + text.length) rest

/-- The buffer of `do_coll_get` for a list of map keys.  `granted` is about its allocation. -/
def mkeyBuffer (granted : Bool) (separator : CChar) (mkeys : List Mkey) : Except Refusal Unit :=
  if mkeys.any fun mkey => maxMopMkeyLength < mkey.length then refuse .invalidArguments
  else if mkeys = [] ∨ granted = false then .error .outOfBounds
  else writeMkeys ((mkeysLength mkeys + 1) % 2 ^ 64) 0 (mkeyTexts separator (mkeys.map fun mkey => cString mkey.string))

/-- `memcached_mop_get_by_list`, with the writes to that buffer. -/
def memcachedMopGetByList (granted : Bool) (c : Client) (stack : Nat → CStr) (spaceSeparated : Bool) (key : List Byte)
    (mkeys : List Mkey) (withDelete dropIfEmpty : Bool) : Except Refusal Request := do
  beforeQuery c key
  if !withDelete && dropIfEmpty then refuse .invalidArguments
  else
    mkeyBuffer granted (ofChar (if spaceSeparated then ' ' else ',')) mkeys
    doCollGet c stack spaceSeparated key (memcachedMopMkeyListQueryInit noSubKey mkeys) withDelete dropIfEmpty .mopGet

/-- The length and the number of the map keys, and a line with so many bytes. -/
structure FramedMkeys (separator : CChar) (mkeys : List Mkey) (option : CStr) (r : Request) : Prop where
  line : chars r.line = space ++ decimal (mkeysLength mkeys) ++ space ++ decimal mkeys.length ++ option
  data : r.data = some ([separator.1].intercalate (mkeys.map Mkey.stated))
  length : ([separator.1].intercalate (mkeys.map Mkey.stated)).length = mkeysLength mkeys

def MkeysFramed (granted : Bool) (mkeys : List Mkey) : Prop :=
  ∀ c stack spaceSeparated key withDelete dropIfEmpty, Ends (fun e => ∃ rc, e = .returns rc)
    (FramedMkeys (ofChar (if spaceSeparated then ' ' else ',')) mkeys (deleteOption withDelete dropIfEmpty))
    (memcachedMopGetByList granted c stack spaceSeparated key mkeys withDelete dropIfEmpty)

theorem flatten_mkeyTexts (separator : CChar) (strings : List CStr) :
    (mkeyTexts separator strings).flatten = [separator].intercalate strings := by
  induction strings using mkeyTexts.induct with
  | case1 => rfl
  | case2 string => simp [mkeyTexts]
  | case3 string rest hr ih =>
    obtain ⟨next, rest, rfl⟩ := exists_cons_of_ne_nil hr
    rw [mkeyTexts, flatten_cons, ih, intercalate_cons_cons]
    simp

theorem writeMkeys_ok
    (hin : position + texts.flatten.length < 2 ^ 31)
    (hf : position + texts.flatten.length ≤ bufferLength) :
    writeMkeys bufferLength position texts = .ok () := by
  induction texts generalizing position with
  | nil => rfl
  | cons text rest ih =>
    rw [flatten_cons, length_append] at hin hf
    rw [writeMkeys, if_neg (by omega)]
    exact ih (by omega) (by omega)

theorem writeMkeys_overflow (hp : position < 2 ^ 31)
    (hin : 2 ^ 31 ≤ position + texts.flatten.length) :
    writeMkeys bufferLength position texts = .error .outOfBounds := by
  induction texts generalizing position with
  | nil =>
    rw [flatten_nil, length_nil] at hin
    omega
  | cons text rest ih =>
    rw [flatten_cons, length_append] at hin
    rw [writeMkeys]
    split_ifs with ho
    · rfl
    · exact ih (by omega) (by omega)

section Framed

variable {mkeys : List Mkey} (h : ∀ mkey ∈ mkeys, mkey.Terminated ∧ mkey.length ≤ mkey.string.length)

include h

theorem length_mkeys (hs : mkeys ≠ []) (separator : CChar) :
    ([separator.1].intercalate (mkeys.map Mkey.stated)).length = mkeysLength mkeys := by
  have hl := @length_intercalate _ [separator.1] (mkeys.map Mkey.stated) (by simpa using hs)
  have hst : (mkeys.map Mkey.stated).map (fun part => part.length + [separator.1].length) =
      mkeys.map fun mkey => mkey.length + 1 := by
    rw [map_map]
    exact map_congr_left fun mkey hm => congrArg (· + 1) (length_take_of_le (h mkey hm).2)
  rw [hst, sum_map_add, map_const', sum_replicate, smul_eq_mul, length_singleton] at hl
  have hp := length_pos_iff.2 hs
  rw [mkeysLength]
  omega

/-- The buffer has room for the map keys, unless the position overflows. -/
theorem mkeyBuffer_eq (hs : ¬(mkeys.any fun mkey => maxMopMkeyLength < mkey.length) = true)
    (granted : Bool)
    (separator : CChar) : mkeyBuffer granted separator mkeys =
      if mkeys ≠ [] ∧ granted = true ∧ mkeysLength mkeys < 2 ^ 31 then .ok
        () else .error .outOfBounds := by
  rw [mkeyBuffer, if_neg hs]
  by_cases hb : mkeys = [] ∨ granted = false
  · rw [if_pos hb, if_neg]
    rintro ⟨hso, hg, -⟩
    exact hb.elim hso (by simp [hg])
  · rw [not_or, Bool.not_eq_false] at hb
    have ht : (mkeyTexts separator (mkeys.map fun mkey => cString mkey.string)).flatten.length =
        mkeysLength mkeys := by
      rw [flatten_mkeyTexts, ← Strtok.length_bytesOf, printed_mkeys fun mkey hm => (h mkey hm).1,
        length_mkeys h hb.1 separator]
    rw [if_neg (by simp [hb])]
    by_cases hin : mkeysLength mkeys < 2 ^ 31
    · rw [if_pos ⟨hb.1, hb.2, hin⟩, writeMkeys_ok (by omega) (by omega)]
    · rw [if_neg fun hgo => hin hgo.2.2, writeMkeys_overflow (by decide) (by omega)]

theorem mkeysRequest_framed (hs : mkeys ≠ [])
    (hsh : ¬(mkeys.any fun mkey => maxMopMkeyLength < mkey.length) = true)
    (separator : CChar) (key : List Byte) (option : CStr) :
    Ends (fun e => ∃ rc, e = .returns rc) (FramedMkeys separator mkeys option)
      (mkeysRequest separator key mkeys option) := by
  rw [mkeysRequest, if_neg hs, mkeysData_ok hs fun mkey hm => (h mkey hm).1]
  simp only [fits]
  split_ifs
  · exact ⟨_, rfl⟩
  · exact ⟨append_nil _, rfl, length_mkeys h hs separator⟩

/-- The map keys are framed if there is one, their buffer is allocated and the position does not overflow, or one of
them is refused. -/
theorem mkeys_framed_iff (granted : Bool) :
    MkeysFramed granted mkeys ↔ (∃ mkey ∈ mkeys, maxMopMkeyLength < mkey.length) ∨
      mkeys ≠ [] ∧ granted = true ∧ mkeysLength mkeys < 2 ^ 31 := by
  by_cases hl : (mkeys.any fun mkey => maxMopMkeyLength < mkey.length) = true
  · refine iff_of_true (fun c stack spaceSeparated key withDelete dropIfEmpty => ?_) (.inl (by simpa using hl))
    refine (beforeQuery_returns c key).bind fun _ _ => ?_
    rw [mkeyBuffer, if_pos hl]
    by_cases hd : (!withDelete && dropIfEmpty) = true
    · rw [if_pos hd]
      exact ⟨_, rfl⟩
    · rw [if_neg hd]
      exact ⟨_, rfl⟩
  · have hn : ¬∃ mkey ∈ mkeys, maxMopMkeyLength < mkey.length := by simpa using hl
    rw [or_iff_right hn]
    constructor
    · intro hf
      have he := hf pipingClient (fun _ => []) true [107] false false
      by_contra hb
      have hr : memcachedMopGetByList granted pipingClient (fun _ => []) true [107] mkeys false false =
          .error .outOfBounds := by
        rw [memcachedMopGetByList, mkeyBuffer_eq h hl, if_neg hb]
        rfl
      obtain ⟨rc, hrc⟩ := he.of_eq_error hr
      cases hrc
    · intro hg c stack spaceSeparated key withDelete dropIfEmpty
      refine (beforeQuery_returns c key).bind fun _ _ => ?_
      rw [mkeyBuffer_eq h hl, if_pos hg, doCollGet_mkeys rfl]
      by_cases hd : (!withDelete && dropIfEmpty) = true
      · rw [if_pos hd]
        exact ⟨_, rfl⟩
      · rw [if_neg hd, if_neg hd]
        refine (beforeQuery_returns c key).bind fun _ _ => ?_
        exact mkeysRequest_framed h hg.1 hl _ key _

end Framed

theorem mkeys_framed_two : MkeysFramed true [⟨[97, 0], 1⟩, ⟨[98, 99, 0], 2⟩] :=
  (mkeys_framed_iff (by simp only [forall_mem_cons]; exact ⟨⟨rfl, by decide⟩, ⟨rfl, by decide⟩, by simp⟩) true).2
    (.inr ⟨by simp, rfl, by decide⟩)

/-- No map key is taken for `2 ^ 64` bytes, less one. -/
theorem mkeys_none_out_of_bounds : memcachedMopGetByList true pipingClient (fun _ => []) true [107]
    [] false false =
    .error .outOfBounds := rfl

end ArcusClient.Coll
