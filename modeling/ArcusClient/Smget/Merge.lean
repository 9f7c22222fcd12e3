import ArcusClient.Collection.MultiKey
import ArcusClient.Lib.KWayMerge
import ArcusClient.Lib.Loops

/-!
# The merge of a sort-merge get

`merge_smget_results` puts the answers of the servers together.

* The elements are merged by `bkey`, elements of equal `bkey` by key, until `count` of them were
  found.  A cursor for each server (`result_idx`) says which of its elements are still to come.
* The missed keys are put one after another.
* The trimmed keys are merged by `bkey`, too, and those before the last merged element are dropped.

An index outside an array is a `Fault`.  The third part reads strings of elements that may have been
released or never have been there.  The parameter `stray` says what becomes of such a read: the program
ends with a `Fault`, or finds some string.  Slots and releases carry the place their element comes from.
-/

namespace ArcusClient.Smget

open CString Coll KWayMerge

/-! ## Keys of elements -/

/-- The two kinds of `bkey`: an unsigned number, or a byte array. -/
inductive BkeyKind where
  | number | byteArray
  deriving DecidableEq

/-- The member of `memcached_coll_sub_key_st` that is in use. -/
def Bkey : BkeyKind → Type
  | .number => UInt64
  | .byteArray => List Byte

instance instLinearOrderBkey : (kind : BkeyKind) → LinearOrder (Bkey kind)
  | .number => LinearOrder.lift' UInt64.toNat fun _ _ => UInt64.toNat_inj.1
  | .byteArray => inferInstanceAs (LinearOrder (List Byte))

/-- `memcached_compare_two_hexadecimal`. -/
def compareTwoHexadecimal : List Byte → List Byte → Int
  | [], [] => 0
  | [], _ :: _ => -1
  | _ :: _, [] => 1
  | a :: lhs, b :: rhs =>
    if a = b then compareTwoHexadecimal lhs rhs else if a < b then -1 else 1

/-- The comparison of two `bkey`s. -/
def compareBkey : {kind : BkeyKind} → Bkey kind → Bkey kind → Int
  | .number, (a : UInt64), (b : UInt64) => if a = b then 0 else if a < b then -1 else 1
  | .byteArray, a, b => compareTwoHexadecimal a b

/-! ## Results -/

/-- An element of a result: its entries in `sub_keys`, `keys`, `values`, `flags`, `eflags` and
`bytes`. -/
structure SmgetElement (kind : BkeyKind) where
  bkey : Bkey kind
  key : CStr
  value : List Byte
  flags : UInt32
  eflag : List Byte
  bytes : Nat

/-- An element with a number as its `bkey`, and nothing in its value. -/
def SmgetElement.ofNumber (bkey : UInt64) (key : CStr) : SmgetElement .number :=
  ⟨bkey, key, [], 0, [], 0⟩

/-- A trimmed key, with the last `bkey` that was trimmed. -/
structure TrimmedKey (kind : BkeyKind) where
  bkey : Bkey kind
  key : CStr

def TrimmedKey.ofNumber (bkey : UInt64) (key : CStr) : TrimmedKey .number := ⟨bkey, key⟩

/-- `memcached_coll_smget_result_st` as one server filled it. -/
structure SmgetResult (kind : BkeyKind) where
  elements : List (SmgetElement kind)
  missedKeys : List (CStr × ReturnT)
  trimmedKeys : List (TrimmedKey kind)

/-- The result that is merged into: what `initialize_smget_result_from_query` and the collection
of the answers have set. -/
structure Merged where
  isDescending : Bool
  offset : Nat
  count : Nat
  smgmode : SmgMode
  valueCount : Nat
  trimmedKeyCount : Nat

variable {kind : BkeyKind}

def elementsOf (results : List (SmgetResult kind)) (j : Nat) : List (SmgetElement kind) :=
  (results[j]?.map SmgetResult.elements).getD []

def trimmedKeysOf (results : List (SmgetResult kind)) (j : Nat) : List (TrimmedKey kind) :=
  (results[j]?.map SmgetResult.trimmedKeys).getD []

/-- The counts are the sums over the results, and that of the trimmed keys, a `uint32_t`, has not
wrapped. -/
structure Merged.Counts (m : Merged) (results : List (SmgetResult kind)) : Prop where
  valueCount : m.valueCount = (results.map fun r => r.elements.length).sum
  trimmedKeyCount : m.trimmedKeyCount = (results.map fun r => r.trimmedKeys.length).sum
  fits : m.trimmedKeyCount < 2 ^ 32

/-! ## Array accesses -/

inductive Fault where
  /-- `result_idx[j]`. -/
  | resultIdx (j : Nat)
  /-- `results[-1]`. -/
  | noSmallest
  /-- `results[j]->sub_keys[x]`. -/
  | subKeys (j x : Nat)
  /-- `merged->sub_keys[x]`. -/
  | mergedSubKeys (x : Int)
  /-- `results[j]->trimmed_sub_keys[x]`. -/
  | trimmedSubKeys (j x : Nat)
  /-- `results[j]->keys[x]`. -/
  | keys (j x : Nat)

/-- The length of `result_idx`. -/
def resultIdxLength : Nat := 256

def readIdx (resultIdx : Nat → Nat) (j : Nat) : Except Fault Nat :=
  if j < resultIdxLength then .ok (resultIdx j) else .error (.resultIdx j)

def elementAt (results : List (SmgetResult kind)) (j x : Nat) : Except Fault (SmgetElement kind) :=
  match (elementsOf results j)[x]? with
  | some element => .ok element
  | none => .error (.subKeys j x)

def trimmedAt (results : List (SmgetResult kind)) (j x : Nat) : Except Fault (TrimmedKey kind) :=
  match (trimmedKeysOf results j)[x]? with
  | some trimmed => .ok trimmed
  | none => .error (.trimmedSubKeys j x)

/-! ## The search -/

/-- Whether the outcome of a comparison with the smallest so far makes the other the smallest. -/
def takesOver (isDescending : Bool) (compResult : Int) : Bool :=
  if isDescending then compResult < 0 else compResult > 0

/-- The inner loop of both merges: the result of which the next entry is the smallest, the largest
if descending. -/
def findSmallest (isDescending : Bool) (present : Nat → Except Fault Bool)
    (compare : Nat → Nat → Except Fault Int) :
    (left j : Nat) → (smallestIdx : Option Nat) → Except Fault (Option Nat)
  | 0, _, smallestIdx => .ok smallestIdx
  | left + 1, j, smallestIdx => do
    let here ← present j
    if here then
      match smallestIdx with
      | none => findSmallest isDescending present compare left (j + 1) (some j)
      | some smallest => do
        let compResult ← compare smallest j
        findSmallest isDescending present compare left (j + 1)
          (some (if takesOver isDescending compResult then j else smallest))
    else findSmallest isDescending present compare left (j + 1) smallestIdx

/-! ## The elements -/

/-- A place in a result: the number of the result and an index into its arrays. -/
abbrev Place := Nat × Nat

structure Slot (kind : BkeyKind) where
  element : SmgetElement kind
  source : Place

/-- The variables of the first part.  `freed` are the places released so far, `passed` those that
were skipped as duplicates. -/
structure ValueSt (kind : BkeyKind) where
  resultIdx : Nat → Nat
  prevSubKey : Option (Bkey kind)
  foundCount : Nat
  rc : ReturnT
  slots : List (Slot kind)
  freed : List Place
  passed : List Place

def ValueSt.init : ValueSt kind := ⟨fun _ => 0, none, 0, .endOfReply, [], [], []⟩

section Elements

variable (m : Merged) (results : List (SmgetResult kind))

def elementPresent (resultIdx : Nat → Nat) (j : Nat) : Except Fault Bool := do
  let x ← readIdx resultIdx j
  return decide (x < (elementsOf results j).length)

/-- Elements are compared by `bkey`, then by key. -/
def compareElements (a b : SmgetElement kind) : Int :=
  if compareBkey a.bkey b.bkey = 0 then strcmp a.key b.key else compareBkey a.bkey b.bkey

def compareElementsAt (resultIdx : Nat → Nat) (smallest j : Nat) : Except Fault Int := do
  let x ← readIdx resultIdx smallest
  let a ← elementAt results smallest x
  let y ← readIdx resultIdx j
  let b ← elementAt results j y
  return compareElements a b

/-- `bkey_duplicated`: the element before had the same `bkey`. -/
def bkeyDuplicated (prevSubKey : Option (Bkey kind)) (bkey : Bkey kind) : Bool :=
  match prevSubKey with
  | some prev => decide (compareBkey prev bkey = 0)
  | none => false

/-- The element at a cursor is skipped, merged or released.  The second component says whether the
loop is left. -/
def takeElement (st : ValueSt kind) (slot : Slot kind) : Except Fault (ValueSt kind × Bool) :=
  let duplicated := bkeyDuplicated st.prevSubKey slot.element.bkey
  let moved := { st with
    prevSubKey := some slot.element.bkey
    resultIdx := Function.update st.resultIdx slot.source.1 (slot.source.2 + 1) }
  if duplicated && decide (m.smgmode = .unique) then
    .ok ({ moved with passed := st.passed ++ [slot.source] }, false)
  else if m.offset ≤ st.foundCount ∧ st.foundCount < m.offset + m.count then
    if st.slots.length < m.valueCount then
      let rc :=
        if 0 < st.slots.length ∧ duplicated = true ∧ st.rc = .endOfReply then .duplicated else st.rc
      .ok ({ moved with
        rc := rc
        slots := st.slots ++ [slot]
        foundCount := st.foundCount + 1 }, decide (m.count ≤ st.slots.length + 1))
    else .error (.mergedSubKeys st.slots.length)
  else
    .ok ({ moved with
      freed := st.freed ++ [slot.source]
      foundCount := st.foundCount + 1 }, decide (m.count ≤ st.slots.length))

def mergeElement (st : ValueSt kind) : Except Fault (ValueSt kind × Bool) := do
  let smallestIdx ← findSmallest m.isDescending (elementPresent results st.resultIdx)
    (compareElementsAt results st.resultIdx) results.length 0 none
  match smallestIdx with
  | none => .error .noSmallest
  | some j => do
    let x ← readIdx st.resultIdx j
    let element ← elementAt results j x
    takeElement m st ⟨element, (j, x)⟩

/-- The loop over the elements, with `left` rounds to go. -/
def mergeElements : (left : Nat) → ValueSt kind → Except Fault (ValueSt kind)
  | 0, st => .ok st
  | left + 1, st => do
    let (st, stop) ← mergeElement m results st
    if stop then .ok st else mergeElements left st

def freeRest (j : Nat) (st : ValueSt kind) : Except Fault (ValueSt kind) := do
  let x ← readIdx st.resultIdx j
  let rest := (List.range' x ((elementsOf results j).length - x)).map fun y => (j, y)
  return { st with freed := st.freed ++ rest }

def mergeBkeys : Except Fault (ValueSt kind) := do
  let st ← mergeElements m results m.valueCount .init
  Loops.forLoopM results.length (freeRest results) st

end Elements

/-! ## The trimmed keys -/

structure TrimmedSlot (kind : BkeyKind) where
  trimmed : TrimmedKey kind
  source : Place

/-- The variables of the third part.  `counts` are the `trimmed_key_count`s of the results. -/
structure TrimmedSt (kind : BkeyKind) where
  resultIdx : Nat → Nat
  counts : Nat → Nat
  slots : List (TrimmedSlot kind)
  freed : List Place

section Trimmed

variable (m : Merged) (results : List (SmgetResult kind))

def TrimmedSt.init : TrimmedSt kind :=
  ⟨fun _ => 0, fun j => (trimmedKeysOf results j).length, [], []⟩

/-- A read of a string that is not there. -/
def strayKey (stray : Place → Option CStr) (j x : Nat) : Except Fault CStr :=
  match stray (j, x) with
  | some key => .ok key
  | none => .error (.keys j x)

/-- The string in `results[j]->keys[x]` after the first part. -/
def keyAt (stray : Place → Option CStr) (freed : List Place) (j x : Nat) : Except Fault CStr :=
  match (elementsOf results j)[x]? with
  | some element => if (j, x) ∈ freed then strayKey stray j x else .ok element.key
  | none => strayKey stray j x

/-- Trimmed keys are compared by `bkey`, then by the keys of the elements at the same indices. -/
def compareTrimmedAt (keys : Nat → Nat → Except Fault CStr) (resultIdx : Nat → Nat)
    (smallest j : Nat) : Except Fault Int := do
  let x ← readIdx resultIdx smallest
  let a ← trimmedAt results smallest x
  let y ← readIdx resultIdx j
  let b ← trimmedAt results j y
  let compResult := compareBkey a.bkey b.bkey
  if compResult = 0 then
    let prevKey ← keys smallest x
    let currKey ← keys j y
    return strcmp prevKey currKey
  else return compResult

/-- The `bkey` that the trimmed keys are compared with: that of the last element found, if fewer than
`count` were found. -/
def lastFound (slots : List (Slot kind)) : Except Fault (Option (Bkey kind)) :=
  if slots.length < m.count then
    match slots.getLast? with
    | some last => .ok (some last.element.bkey)
    | none => .error (.mergedSubKeys (-1))
  else .ok none

/-- `should_merge`. -/
def shouldMerge (last : Option (Bkey kind)) (trimmed : TrimmedKey kind) : Bool :=
  match last with
  | some bkey => decide (compareBkey bkey trimmed.bkey ≤ 0)
  | none => false

def takeTrimmed (st : TrimmedSt kind) (keep : Bool) (slot : TrimmedSlot kind) : TrimmedSt kind :=
  let (j, x) := slot.source
  { resultIdx := Function.update st.resultIdx j (x + 1)
    counts := if st.counts j ≤ x + 1 then Function.update st.counts j 0 else st.counts
    slots := if keep then st.slots ++ [slot] else st.slots
    freed := if keep then st.freed else st.freed ++ [slot.source] }

def mergeTrimmedKey (keys : Nat → Nat → Except Fault CStr) (slots : List (Slot kind))
    (st : TrimmedSt kind) : Except Fault (TrimmedSt kind) := do
  let smallestIdx ← findSmallest m.isDescending (fun j => .ok (decide (st.counts j ≠ 0)))
    (compareTrimmedAt results keys st.resultIdx) results.length 0 none
  match smallestIdx with
  | none => .error .noSmallest
  | some j => do
    let last ← lastFound m slots
    let x ← readIdx st.resultIdx j
    let trimmed ← trimmedAt results j x
    return takeTrimmed st (shouldMerge last trimmed) ⟨trimmed, (j, x)⟩

def mergeTrimmedKeys (keys : Nat → Nat → Except Fault CStr) (slots : List (Slot kind)) :
    Except Fault (TrimmedSt kind) :=
  Loops.forLoopM m.trimmedKeyCount (fun _ => mergeTrimmedKey m results keys slots)
    (.init results)

end Trimmed

/-! ## The whole merge -/

/-- What `merge_smget_results` leaves behind. -/
structure MergeResult (kind : BkeyKind) where
  rc : ReturnT
  slots : List (Slot kind)
  missedKeys : List (CStr × ReturnT)
  trimmed : List (TrimmedSlot kind)
  freed : List Place
  passed : List Place

/-- `merge_smget_results`. -/
def mergeSmgetResults (stray : Place → Option CStr) (m : Merged)
    (results : List (SmgetResult kind)) : Except Fault (MergeResult kind) := do
  let values ← mergeBkeys m results
  let trimmed ← mergeTrimmedKeys m results (keyAt results stray values.freed) values.slots
  return {
    rc := values.rc
    slots := values.slots
    missedKeys := results.flatMap SmgetResult.missedKeys
    trimmed := trimmed.slots
    freed := values.freed
    passed := values.passed }

end ArcusClient.Smget
