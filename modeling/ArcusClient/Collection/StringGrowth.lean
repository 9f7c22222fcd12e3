import ArcusClient.Collection.ValueReply

/-!
# Growing a string

Before bytes are appended, `_string_check` makes room for them in blocks of 1024 bytes.  The product of
the blocks and the sum with the size can wrap around.  The only comparison is that the new size is not
less than what is needed.  It is enough (`string_growth`), as no object has more than `PTRDIFF_MAX`
bytes: a pointer to its end could not be subtracted from one to its start.  Without that bound a full
string of `SIZE_MAX` bytes would be cut to 1023.
-/

namespace ArcusClient.Coll

open List

/-- `memcached_string_st`. -/
structure StringSt where
  /-- The memory at `string`. -/
  string : List Byte
  /-- `end - string`. -/
  endOffset : Nat
  currentSize : Nat

/-- `PTRDIFF_MAX`, the size of the largest object. -/
def ptrdiffMax : Nat := 2 ^ 63 - 1

/-- The end is inside the memory, which is an object. -/
structure StringSt.Valid (s : StringSt) : Prop where
  size : s.string.length = s.currentSize
  inside : s.endOffset ≤ s.currentSize
  object : s.currentSize ≤ ptrdiffMax

/-- The bytes in use. -/
def StringSt.content (s : StringSt) : List Byte := s.string.take s.endOffset

/-- What is left to the allocator: which sizes it has memory for, and what is in new memory. -/
structure Allocator where
  grants : Nat → Bool
  fresh : Nat → Byte

/-- `realloc`.  It returns a null pointer for a size that no object has. -/
def Allocator.realloc (A : Allocator) (old : List Byte) (size : Nat) : Option (List Byte) :=
  if size ≤ ptrdiffMax ∧ A.grants size = true then
    some ((List.range size).map fun i => old.getD i (A.fresh i))
  else none

section Calls

variable (A : Allocator) (s : StringSt)

/-- `_string_check`. -/
def StringSt.check (need : Nat) : ReturnT × StringSt :=
  if need = 0 ∨ need ≤ s.currentSize - s.endOffset then (.success, s)
  else
    let adjust := (need - (s.currentSize - s.endOffset)) / 1024 + 1
    let newSize := (adjust * 1024 + s.currentSize) % 2 ^ 64
    if newSize < need then (.memoryAllocationFailure, s)
    else match A.realloc s.string newSize with
      | none => (.memoryAllocationFailure, s)
      | some newValue => (.success, { s with
          string := newValue
          currentSize := (s.currentSize + 1024 * adjust) % 2 ^ 64 })

/-- A copy to the end of the string, which is absent where it leaves the memory. -/
def StringSt.put (bytes : List Byte) : Option StringSt :=
  if s.string.length < s.endOffset + bytes.length then none
  else some { s with
    string := s.string.take s.endOffset ++ bytes ++ s.string.drop (s.endOffset + bytes.length)
    endOffset := s.endOffset + bytes.length }

/-- A call of `memcached_string_append_character` or of `memcached_string_append`. -/
inductive StringCall where
  | appendCharacter (character : Byte)
  | append (value : List Byte) (length : value.length < 2 ^ 64)

def StringCall.bytes : StringCall → List Byte
  | .appendCharacter character => [character]
  | .append value _ => value

/-- Both functions make room for their bytes, and copy them. -/
def StringCall.run (call : StringCall) : Option (ReturnT × StringSt) :=
  match s.check A call.bytes.length with
  | (.success, s) => (s.put call.bytes).map ((.success, ·))
  | (_, s) => some (.memoryAllocationFailure, s)

/-- Calls one after the other, with what they return. -/
def runCalls : List StringCall → StringSt → Option (List ReturnT × StringSt)
  | [], s => some ([], s)
  | call :: calls, s => do
    let (rc, s) ← call.run A s
    let (rcs, s) ← runCalls calls s
    return (rc :: rcs, s)

end Calls

/-! ## Room -/

variable {A : Allocator} {s : StringSt}

theorem realloc_spec (h : A.realloc old size = some new) : size ≤ ptrdiffMax ∧ new.length = size ∧
    ∀ n, n ≤ old.length → n ≤ size → new.take n = old.take n := by
  rw [Allocator.realloc] at h
  split_ifs at h with hg
  cases h
  refine ⟨hg.1, by simp, fun n hn hs => ext_getElem (by simp [hn, hs]) fun k hk hk' => ?_⟩
  have hl : k < n ∧ k < old.length := by simpa using hk'
  simp [hl.2]

/-- Room for more bytes than a size can say is refused. -/
theorem check_unrepresentable (hs : s.Valid) (h : 2 ^ 64 ≤ s.endOffset + need) :
    s.check A need = (.memoryAllocationFailure, s) := by
  obtain ⟨-, hin, ho⟩ := hs
  rw [ptrdiffMax] at ho
  rw [StringSt.check, if_neg (by omega)]
  exact if_pos (by omega)

/-- What a check that succeeds leaves. -/
theorem check_spec (hs : s.Valid) (h : (s.check A need).1 = .success) :
    (s.check A need).2.Valid ∧ (s.check A need).2.endOffset = s.endOffset ∧
      (s.check A need).2.content = s.content ∧
      s.endOffset + need ≤ (s.check A need).2.string.length := by
  obtain ⟨hsi, hin, ho⟩ := hs
  rw [StringSt.check] at h ⊢
  by_cases hr : need = 0 ∨ need ≤ s.currentSize - s.endOffset
  · rw [if_pos hr]
    exact ⟨⟨hsi, hin, ho⟩, rfl, rfl, show s.endOffset + need ≤ s.string.length by omega⟩
  · rw [if_neg hr] at h ⊢
    generalize ha : (need - (s.currentSize - s.endOffset)) / 1024 + 1 = adjust at h ⊢
    by_cases hw : (adjust * 1024 + s.currentSize) % 2 ^ 64 < need
    · rw [if_pos hw] at h
      cases h
    · rw [if_neg hw] at h ⊢
      cases hg : A.realloc s.string ((adjust * 1024 + s.currentSize) % 2 ^ 64) with
      | none =>
        rw [hg] at h
        cases h
      | some newValue =>
        -- a sum that wraps around is less than what is needed
        have hsu : (adjust * 1024 + s.currentSize) % 2 ^ 64 = adjust * 1024 + s.currentSize := by
          rw [ptrdiffMax] at ho
          omega
        have hl : s.endOffset + need ≤ adjust * 1024 + s.currentSize := by omega
        rw [hsu] at hg
        obtain ⟨hobj, hlen, htake⟩ := realloc_spec hg
        have hcu : (s.currentSize + 1024 * adjust) % 2 ^ 64 = adjust * 1024 + s.currentSize := by omega
        have hin' : s.endOffset ≤ adjust * 1024 + s.currentSize := by omega
        rw [hcu]
        exact ⟨⟨hlen, hin', hobj⟩, rfl, htake _ (hsi ▸ hin) hin', hlen ▸ hl⟩

theorem check_failed (h : (s.check A need).1 ≠ .success) :
    s.check A need = (.memoryAllocationFailure, s) := by
  simp only [StringSt.check] at h ⊢
  generalize (need - (s.currentSize - s.endOffset)) / 1024 + 1 = adjust at h ⊢
  split_ifs at h ⊢
  · exact absurd rfl h
  · rfl
  · cases hg : A.realloc s.string ((adjust * 1024 + s.currentSize) % 2 ^ 64) with
    | none => rfl
    | some newValue =>
      rw [hg] at h
      exact absurd rfl h

/-! ## Appending -/

theorem put_spec (hs : s.Valid) (hr : s.endOffset + bytes.length ≤ s.string.length) :
    ∃ s', s.put bytes = some s' ∧ s'.Valid ∧ s'.content = s.content ++ bytes := by
  obtain ⟨hsi, hin, ho⟩ := hs
  have hl : (s.string.take s.endOffset).length = s.endOffset := by simp; omega
  refine ⟨_, if_neg (by omega), ⟨?_, ?_, ho⟩, ?_⟩
  · simp only [length_append, length_drop]
    omega
  · simp only
    omega
  · rw [StringSt.content, take_append_of_le_length (by simp [hl]), take_of_length_le (by simp)]
    rfl

/-- A call appends its bytes, or changes nothing. -/
theorem StringCall.run_spec (hs : s.Valid) (call : StringCall) : ∃ rc s', call.run A s = some
    (rc, s') ∧ s'.Valid ∧
    (rc = .success → s'.content = s.content ++ call.bytes) ∧ (rc ≠ .success → s' = s) := by
  by_cases hc : (s.check A call.bytes.length).1 = .success
  · obtain ⟨hv, he, hco, hr⟩ := check_spec hs hc
    rw [← he] at hr
    obtain ⟨s', hp, hv', hc'⟩ := put_spec hv hr
    refine ⟨.success, s', ?_, hv', fun _ => by rw [hc', hco], fun h => absurd rfl h⟩
    rw [StringCall.run, ← Prod.mk.eta (p := s.check A call.bytes.length), hc]
    simp only [hp, Option.map_some]
  · refine ⟨.memoryAllocationFailure, s, ?_, hs, (fun h => by cases h), fun _ => rfl⟩
    rw [StringCall.run, check_failed hc]

theorem runCalls_spec (calls : List StringCall) : ∀ {s : StringSt}, s.Valid →
    ∃ rcs s', runCalls A calls s = some (rcs, s') ∧ s'.Valid ∧
      ((∀ rc ∈ rcs, rc = .success) → s'.content = s.content ++ calls.flatMap StringCall.bytes) := by
  induction calls with
  | nil => exact fun hs => ⟨[], _, rfl, hs, fun _ => (append_nil _).symm⟩
  | cons call calls ih =>
    intro s hs
    obtain ⟨rc, s₁, hr, hv, ho, -⟩ := call.run_spec (A := A) hs
    obtain ⟨rcs, s', hrs, hv', ha⟩ := ih hv
    refine ⟨rc :: rcs, s', by simp [runCalls, hr, hrs], hv', fun h => ?_⟩
    rw [forall_mem_cons] at h
    rw [ha h.2, ho h.1, flatMap_cons, append_assoc]

/-- A check that succeeds leaves room for what is needed, and the bytes in use.  More than a size can
say is refused.  So calls that all succeed have appended their bytes. -/
theorem string_growth (A : Allocator) (hs : s.Valid) (need : UInt64) (calls : List StringCall) :
    ((s.check A need.toNat).1 = .success →
      (s.check A need.toNat).2.endOffset + need.toNat ≤ (s.check A need.toNat).2.string.length ∧
        (s.check A need.toNat).2.content = s.content) ∧
    (2 ^ 64 ≤ s.endOffset + need.toNat → s.check A need.toNat = (.memoryAllocationFailure, s)) ∧
    ∃ rcs s', runCalls A calls s = some (rcs, s') ∧
      ((∀ rc ∈ rcs, rc = .success) → s'.content = s.content ++ calls.flatMap StringCall.bytes) := by
  refine ⟨fun h => ?_, check_unrepresentable hs, ?_⟩
  · obtain ⟨-, he, hc, hr⟩ := check_spec hs h
    exact ⟨by rwa [he], hc⟩
  · obtain ⟨rcs, s', hr, -, ha⟩ := runCalls_spec (A := A) calls hs
    exact ⟨rcs, s', hr, ha⟩

/-- A string that holds `n` bytes and is full. -/
def fullString (n : Nat) : StringSt := ⟨replicate n 1, n, n⟩

/-- A full string of three bytes grows by two blocks for two thousand bytes more, and by one for
three. -/
theorem string_growth_blocks :
    (((fullString 3).check ⟨fun _ => true, fun _ => 0⟩ 2000).1 = .success ∧
      ((fullString 3).check ⟨fun _ => true, fun _ => 0⟩ 2000).2.currentSize = 2051 ∧
      3 + 2000 ≤ ((fullString 3).check ⟨fun _ => true, fun _ => 0⟩ 2000).2.string.length ∧
      ((fullString 3).check ⟨fun _ => true, fun _ => 0⟩ 2000).2.content = replicate 3 1) ∧
    ∃ s', runCalls ⟨fun _ => true, fun _ => 0⟩ [.append [2, 3] (by decide), .appendCharacter 4]
        (fullString 3) = some ([.success, .success], s') ∧
      s'.currentSize = 1027 ∧ s'.content = [1, 1, 1, 2, 3, 4] := by
  have hv : (fullString 3).Valid := ⟨rfl, le_rfl, by decide⟩
  obtain ⟨hroom, -, -⟩ := string_growth ⟨fun _ => true, fun _ => 0⟩ hv 2000 []
  obtain ⟨-, -, rcs, s', hr, ha⟩ := string_growth ⟨fun _ => true, fun _ => 0⟩ hv 0
    [.append [2, 3] (by decide), .appendCharacter 4]
  refine ⟨⟨rfl, rfl, hroom rfl⟩, ?_⟩
  have hc : (runCalls ⟨fun _ => true, fun _ => 0⟩ [.append [2, 3] (by decide), .appendCharacter 4]
      (fullString 3)).map (fun r => (r.1, r.2.currentSize)) = some ([.success, .success], 1027) := by
    decide +kernel
  rw [hr, Option.map_some, Option.some.injEq, Prod.mk.injEq] at hc
  obtain ⟨rfl, hcs⟩ := hc
  exact ⟨s', hr, hcs, ha (by decide)⟩

end ArcusClient.Coll
