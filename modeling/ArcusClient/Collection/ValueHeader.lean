import ArcusClient.Collection.Elements
import ArcusClient.Collection.PipedInsert
import Mathlib.Data.List.GetD

/-!
# The words of a reply, byte by byte

`fetch_value_header` reads a word into a string of the caller, up to a space or the end of the line.
A carriage return is overwritten by the byte behind it.  The loop writes only to the string.  But it
looks for a space before it looks at the return, so a return with a space behind it ends the word as a
space does.  In all other streams the word is what it should be (`value_header_iff`).
-/

namespace ArcusClient.Coll

open Io List Function

/-- The loop before a round. -/
structure HeaderSt where
  /-- `i`, a `size_t`. -/
  i : Nat
  /-- `met_CR_char`. -/
  metCr : Bool
  /-- The memory at `string`. -/
  string : Nat → Byte
  /-- The indices that were written. -/
  writes : List Nat
  /-- The number of bytes that were read. -/
  consumed : Nat

structure HeaderRead where
  rc : ReturnT
  stringLength : Option Nat
  st : HeaderSt

section Loop

variable (maxReadLength : Nat) (bytes : Nat → Byte)

/-- A write to the string. -/
def HeaderSt.write (s : HeaderSt) (byte : Byte) : HeaderSt :=
  { s with string := update s.string s.i byte, writes := s.writes ++ [s.i] }

/-- `memcached_io_read` of one byte, which succeeds. -/
def HeaderSt.read (s : HeaderSt) : HeaderSt :=
  { s.write (bytes s.consumed) with consumed := s.consumed + 1 }

/-- The word ends. -/
def HeaderSt.stop (s : HeaderSt) (rc : ReturnT) : HeaderRead := ⟨rc, some (s.i + 1), s.write 0⟩

/-- One round of the loop: the state with `i` incremented, or what is returned. -/
def headerRound (s : HeaderSt) : HeaderSt ⊕ HeaderRead :=
  let s := s.read bytes
  if s.string s.i = spaceByte then .inr (s.stop .success)
  else if s.string s.i = crByte then
    if s.metCr then .inr ⟨.protocolError, none, s⟩
    else .inl { s with metCr := true, i := (sizePred s.i + 1) % 2 ^ 64 }
  else if s.metCr then
    if s.string s.i ≠ lfByte then .inr ⟨.protocolError, none, s⟩ else .inr (s.stop .endOfReply)
  else .inl { s with i := (s.i + 1) % 2 ^ 64 }

/-- The loop, with the number of rounds. -/
def headerRounds : Nat → HeaderSt → Option HeaderRead
  | 0, _ => none
  | rounds + 1, s =>
    if s.i < maxReadLength then
      match headerRound bytes s with
      | .inl s => headerRounds rounds s
      | .inr r => some r
    else some ⟨.protocolError, none, s⟩

/-- `fetch_value_header`, when the reads give these bytes. -/
def fetchValueHeader (string : Nat → Byte) : Option HeaderRead :=
  headerRounds maxReadLength bytes (maxReadLength + 2) ⟨0, false, string, [], 0⟩

/-- Neither a space nor a carriage return comes before. -/
def PlainTo (n : Nat) : Prop := ∀ j < n, bytes j ≠ spaceByte ∧ bytes j ≠ crByte

def SpaceAt (n : Nat) : Prop := PlainTo bytes n ∧ bytes n = spaceByte

def LineAt (n : Nat) : Prop := PlainTo bytes n ∧ bytes n = crByte ∧ bytes (n + 1) = lfByte

/-- What a word should be. -/
structure HeaderRead.Correct (r : HeaderRead) : Prop where
  consumed : r.st.consumed ≤ maxReadLength + 1
  writes : ∀ k ∈ r.st.writes, k < maxReadLength
  success : r.rc = .success ↔ ∃ n < maxReadLength, SpaceAt bytes n
  line : r.rc = .endOfReply ↔ ∃ n < maxReadLength, LineAt bytes n
  other : r.rc ≠ .success → r.rc ≠ .endOfReply → r.rc = .protocolError
  /-- The string has the word and a zero. -/
  word : ∀ n < maxReadLength, SpaceAt bytes n ∨ LineAt bytes n →
    r.stringLength = some (n + 1) ∧ (∀ k < n, r.st.string k = bytes k) ∧ r.st.string n = 0

end Loop

section Rounds

variable {maxReadLength n : Nat} {bytes : Nat → Byte} {string : Nat → Byte}

/-- The state after so many plain bytes. -/
def headerAt (bytes string : Nat → Byte) (n : Nat) : HeaderSt :=
  ⟨n, false, fun k => if k < n then bytes k else string k, range n, n⟩

theorem read_headerAt (string : Nat → Byte) (n : Nat) :
    (headerAt bytes string n).read bytes = { headerAt bytes string (n + 1) with i := n } := by
  simp only [HeaderSt.read, HeaderSt.write, headerAt, range_succ, HeaderSt.mk.injEq, and_true, true_and]
  funext k
  rcases Nat.lt_trichotomy k n with hk | rfl | hk
  · rw [update_of_ne (by omega), if_pos hk, if_pos (by omega)]
  · rw [update_self, if_pos (by omega)]
  · rw [update_of_ne (by omega), if_neg (by omega), if_neg (by omega)]

theorem headerRounds_plain (hs : maxReadLength < 2 ^ 64) (hn : n ≤ maxReadLength)
    (hp : PlainTo bytes n)
    (rounds : Nat) : headerRounds maxReadLength bytes (rounds + n) (headerAt bytes string 0) =
      headerRounds maxReadLength bytes rounds (headerAt bytes string n) := by
  induction n generalizing rounds with
  | zero => rfl
  | succ n ih =>
    have hb := hp n (by omega)
    have hr := ih (by omega) (fun j hj => hp j (by omega)) (rounds + 1)
    have hi : (headerAt bytes string (n + 1)).string n = bytes n := if_pos (by omega)
    rw [show rounds + (n + 1) = rounds + 1 + n by omega, hr, headerRounds, if_pos (by exact hn), headerRound,
      read_headerAt]
    simp only [hi, hb.1, hb.2, if_false]
    rw [Nat.mod_eq_of_lt (by omega)]
    rfl

theorem fetchValueHeader_eq (hs : maxReadLength < 2 ^ 64) (hn : n ≤ maxReadLength)
    (hp : PlainTo bytes n)
    (string : Nat → Byte) : fetchValueHeader maxReadLength bytes string =
      headerRounds maxReadLength bytes (maxReadLength - n + 2) (headerAt bytes string n) := by
  have hr := @headerRounds_plain maxReadLength n bytes string hs hn hp (maxReadLength - n + 2)
  rw [show maxReadLength - n + 2 + n = maxReadLength + 2 by omega] at hr
  exact hr

theorem fetch_limit (hs : maxReadLength < 2 ^ 64) (hp : PlainTo bytes maxReadLength)
    (string : Nat → Byte) :
    fetchValueHeader maxReadLength bytes string =
      some ⟨.protocolError, none, headerAt bytes string maxReadLength⟩ := by
  rw [fetchValueHeader_eq hs (le_refl _) hp, headerRounds, if_neg (by exact Nat.lt_irrefl _)]

/-- The byte at the index, and the string before it. -/
theorem string_headerAt (string : Nat → Byte) (n : Nat) :
    (headerAt bytes string (n + 1)).string n = bytes n := if_pos (by omega)

theorem fetch_space (hs : maxReadLength < 2 ^ 64) (hn : n < maxReadLength) (h : SpaceAt bytes n)
    (string : Nat → Byte) : fetchValueHeader maxReadLength bytes string =
      some ({ headerAt bytes string (n + 1) with i := n }.stop .success) := by
  rw [fetchValueHeader_eq hs hn.le h.1, headerRounds, if_pos (by exact hn), headerRound, read_headerAt]
  simp only [string_headerAt, h.2, if_true]

/-- The state after a carriage return and the byte behind it. -/
def afterReturn (bytes string : Nat → Byte) (n : Nat) : HeaderSt :=
  { headerAt bytes string (n + 1) with i := n, metCr := true }.read bytes

/-- What is returned after a carriage return. -/
def returnEnd (bytes string : Nat → Byte) (n : Nat) : HeaderRead :=
  if bytes (n + 1) = spaceByte then (afterReturn bytes string n).stop .success
  else if bytes (n + 1) = lfByte then (afterReturn bytes string n).stop .endOfReply
  else ⟨.protocolError, none, afterReturn bytes string n⟩

theorem headerRound_return (string : Nat → Byte) (n : Nat) :
    headerRound bytes { headerAt bytes string (n + 1) with i := n, metCr := true } =
      .inr (returnEnd bytes string n) := by
  have ha : (afterReturn bytes string n).string (afterReturn bytes string n).i = bytes (n + 1) := update_self ..
  have hm : (afterReturn bytes string n).metCr = true := rfl
  have hl : crByte ≠ lfByte := by decide
  rw [headerRound, ← afterReturn]
  simp only [ha, hm, returnEnd]
  by_cases hc : bytes (n + 1) = crByte
  · simp only [hc, hl, if_true, if_false]
    split_ifs <;> rfl
  · simp only [hc, if_false, ne_eq, ite_not]
    split_ifs <;> rfl

theorem fetch_return (hs : maxReadLength < 2 ^ 64) (hn : n < maxReadLength) (hp : PlainTo bytes n)
    (hb : bytes n = crByte) (string : Nat → Byte) :
    fetchValueHeader maxReadLength bytes string = some (returnEnd bytes string n) := by
  have hi : (sizePred n + 1) % 2 ^ 64 = n := by
    rw [sizePred]
    omega
  have hr : headerRound bytes (headerAt bytes string n) =
      .inl { headerAt bytes string (n + 1) with i := n, metCr := true } := by
    rw [headerRound, read_headerAt]
    simp only [string_headerAt, hb, hi]
    rfl
  rw [fetchValueHeader_eq hs hn.le hp, headerRounds, if_pos (by exact hn), hr]
  dsimp only
  rw [headerRounds, if_pos (by exact hn), headerRound_return]

/-- The first byte that is not plain. -/
theorem first_unique (hn : PlainTo bytes n) (he : bytes n = spaceByte ∨ bytes n = crByte)
    (hm : PlainTo bytes m) (he' : bytes m = spaceByte ∨ bytes m = crByte) : n = m := by
  have hl {a b : Nat} (ha : bytes a = spaceByte ∨ bytes a = crByte) (hb : PlainTo bytes b) : b ≤ a := by
    by_contra h
    have hp := hb a (by omega)
    exact ha.elim hp.1 hp.2
  exact Nat.le_antisymm (hl he' hn) (hl he hm)

theorem plainTo_or (bytes : Nat → Byte) (maxReadLength : Nat) : PlainTo bytes maxReadLength ∨
    ∃ n < maxReadLength, PlainTo bytes n ∧ (bytes n = spaceByte ∨ bytes n = crByte) := by
  induction maxReadLength with
  | zero => exact .inl fun j hj => absurd hj (Nat.not_lt_zero j)
  | succ m ih =>
    rcases ih with hp | ⟨n, hn, hp⟩
    · by_cases hb : bytes m = spaceByte ∨ bytes m = crByte
      · exact .inr ⟨m, Nat.lt_succ_self m, hp, hb⟩
      · refine .inl fun j hj => ?_
        rcases Nat.lt_succ_iff_lt_or_eq.1 hj with hj | rfl
        · exact hp j hj
        · exact not_or.1 hb
    · exact .inr ⟨n, hn.trans (Nat.lt_succ_self m), hp⟩

theorem SpaceAt.eq (h : SpaceAt bytes n) (h' : SpaceAt bytes m ∨ LineAt bytes m) : m = n := by
  rcases h' with h' | h'
  · exact first_unique h'.1 (.inl h'.2) h.1 (.inl h.2)
  · exact first_unique h'.1 (.inr h'.2.1) h.1 (.inl h.2)

theorem LineAt.eq (h : LineAt bytes n) (h' : SpaceAt bytes m ∨ LineAt bytes m) : m = n := by
  rcases h' with h' | h'
  · exact first_unique h'.1 (.inl h'.2) h.1 (.inr h.2.1)
  · exact first_unique h'.1 (.inr h'.2.1) h.1 (.inr h.2.1)

theorem SpaceAt.not_lineAt (h : SpaceAt bytes n) (h' : LineAt bytes m) : False := by
  obtain rfl := h.eq (.inr h')
  exact absurd (h.2.symm.trans h'.2.1) (by decide)

/-- A word that ends where it should. -/
theorem stop_correct {st : HeaderSt} (hi : st.i < maxReadLength) (hc : st.consumed ≤ st.i + 2)
    (hw : ∀ k ∈ st.writes, k ≤ st.i) (hs : ∀ k < st.i, st.string k = bytes k)
    (hr : (SpaceAt bytes st.i ∧ rc = .success) ∨ (LineAt bytes st.i ∧ rc = .endOfReply)) :
    (st.stop rc).Correct maxReadLength bytes := by
  have hw' : ∀ k ∈ (st.stop rc).st.writes, k < maxReadLength := by
    intro k hk
    rcases mem_append.1 hk with hk | hk
    · exact (hw k hk).trans_lt hi
    · rwa [mem_singleton.1 hk]
  have hm : (st.stop rc).stringLength = some (st.i + 1) ∧ (∀ k < st.i, (st.stop rc).st.string k = bytes k) ∧
      (st.stop rc).st.string st.i = 0 :=
    ⟨rfl, fun k hk => (update_of_ne hk.ne _ _).trans (hs k hk), update_self ..⟩
  rcases hr with ⟨h, rfl⟩ | ⟨h, rfl⟩
  · exact ⟨hc.trans (by omega), hw', iff_of_true rfl ⟨_, hi, h⟩,
      iff_of_false (fun he => by cases he) fun ⟨m, _, h'⟩ => h.not_lineAt h', fun h => absurd rfl h,
      fun m _ h' => h.eq h' ▸ hm⟩
  · exact ⟨hc.trans (by omega), hw', iff_of_false (fun he => by cases he) fun ⟨m, _, h'⟩ => h'.not_lineAt h,
      iff_of_true rfl ⟨_, hi, h⟩, fun _ h => absurd rfl h, fun m _ h' => h.eq h' ▸ hm⟩

/-- An error where there is no word. -/
theorem error_correct (hc : st.consumed ≤ maxReadLength + 1)
    (hw : ∀ k ∈ st.writes, k < maxReadLength)
    (hno : ∀ n < maxReadLength, ¬(SpaceAt bytes n ∨ LineAt bytes n)) :
    HeaderRead.Correct maxReadLength bytes ⟨.protocolError, none, st⟩ :=
  ⟨hc, hw, iff_of_false (fun he => by cases he) fun ⟨n, hn, h⟩ => hno n hn (.inl h),
    iff_of_false (fun he => by cases he) fun ⟨n, hn, h⟩ => hno n hn (.inr h), fun _ _ => rfl,
    fun n hn h => absurd h (hno n hn)⟩

end Rounds

/-- The word is what it should be, exactly if no space comes right behind the first carriage return. -/
theorem value_header_iff (maxReadLength : UInt64) (bytes string : Nat → Byte) :
    (∃ r, fetchValueHeader maxReadLength.toNat bytes string = some r ∧
        r.Correct maxReadLength.toNat bytes) ↔
      ¬∃ n < maxReadLength.toNat, PlainTo bytes n ∧ bytes n = crByte ∧ bytes
        (n + 1) = spaceByte := by
  have hs := maxReadLength.toNat_lt
  constructor
  · rintro ⟨r, hr, hc⟩ ⟨n, hn, hp, hcr, hsp⟩
    rw [fetch_return hs hn hp hcr, Option.some.injEq] at hr
    have hrc : r.rc = .success := by
      rw [← hr, returnEnd, if_pos hsp]
      rfl
    obtain ⟨m, -, h⟩ := hc.success.1 hrc
    obtain rfl := first_unique hp (.inr hcr) h.1 (.inl h.2)
    exact absurd (hcr.symm.trans h.2) (by decide)
  · intro hno
    rcases plainTo_or bytes maxReadLength.toNat with hp | ⟨n, hn, hp, hb | hb⟩
    · refine ⟨_, fetch_limit hs hp string, error_correct (Nat.le_succ _) (fun k hk => mem_range.1 hk) ?_⟩
      rintro n hn (h | h)
      · exact (hp n hn).1 h.2
      · exact (hp n hn).2 h.2.1
    · refine ⟨_, fetch_space hs hn ⟨hp, hb⟩ string, stop_correct hn (Nat.le_succ _) (fun k hk => ?_)
        (fun k hk => if_pos (by exact Nat.lt_succ_of_lt hk)) (.inl ⟨⟨hp, hb⟩, rfl⟩)⟩
      exact Nat.lt_succ_iff.1 (mem_range.1 hk)
    · refine ⟨_, fetch_return hs hn hp hb string, ?_⟩
      have hw : ∀ k ∈ (afterReturn bytes string n).writes, k ≤ n := by
        intro k hk
        rcases mem_append.1 hk with hk | hk
        · exact Nat.lt_succ_iff.1 (mem_range.1 hk)
        · exact (mem_singleton.1 hk).le
      have hst : ∀ k < n, (afterReturn bytes string n).string k = bytes k := fun k hk =>
        (update_of_ne hk.ne _ _).trans (if_pos (by omega))
      rw [returnEnd, if_neg fun h => hno ⟨n, hn, hp, hb, h⟩]
      split_ifs with hl
      · exact stop_correct hn (le_refl _) hw hst (.inr ⟨⟨hp, hb, hl⟩, rfl⟩)
      · refine error_correct (show n + 2 ≤ _ by omega) (fun k hk => (hw k hk).trans_lt hn) ?_
        rintro m hm (h | h)
        · obtain rfl := first_unique hp (.inr hb) h.1 (.inl h.2)
          exact absurd (hb.symm.trans h.2) (by decide)
        · obtain rfl := first_unique hp (.inr hb) h.1 (.inr h.2.1)
          exact hl h.2.2

/-- A carriage return and a space, at the start of a stream.  The empty word is returned, though no space comes
before the return. -/
theorem return_then_space :
    (∃ r, fetchValueHeader 8 (fun k => if k = 0 then crByte else spaceByte) (fun _ => 0) = some r ∧
      r.rc = .success ∧ r.stringLength = some 1 ∧ r.st.consumed = 2) ∧
    ¬∃ n < 8, SpaceAt (fun k => if k = 0 then crByte else spaceByte) n := by
  refine ⟨⟨_, fetch_return (by decide) (by decide) (fun j hj => absurd hj (Nat.not_lt_zero j)) rfl _, rfl, rfl, rfl⟩, ?_⟩
  rintro ⟨_ | n, -, hp, hb⟩
  · exact absurd hb (by decide)
  · exact (hp 0 (Nat.succ_pos n)).2 rfl

/-! ## The reader of a connection -/

/-- What the callers see of a word. -/
def HeaderRead.outcome (r : HeaderRead) : Except ReturnT HeaderEnd :=
  let word := (List.range (r.stringLength.getD 1 - 1)).map r.st.string
  if r.rc = .success then .ok (.space word)
  else if r.rc = .endOfReply then .ok (.line word)
  else .error r.rc

section Reader

variable {maxReadLength n : Nat} {stream rest : List Byte} {s : Reader}

theorem map_range_eq_take (hn : n ≤ rest.length) {string : Nat → Byte}
    (h : ∀ k < n, string k = rest.getD k 0) :
    (List.range n).map string = rest.take n := by
  refine ext_getElem (by simp [hn]) fun k hk hk' => ?_
  have hl : k < n := by simpa using hk
  rw [getElem_map, getElem_range, getElem_take, h k hl, getD_eq_getElem _ _ (by omega)]

/-- The plain bytes at the beginning are in the string, and the others are next. -/
theorem headerLoop_at (hn : n ≤ rest.length) (hp : PlainTo (rest.getD · 0) n) (left : Nat)
    (h : At stream rest s) :
    ∃ s₁, headerLoop (left + n) [] s = headerLoop left (rest.take n) s₁ ∧
      At stream (rest.drop n) s₁ := by
  have hw : Plain (rest.take n) := by
    intro b hb
    obtain ⟨k, hk, rfl⟩ := mem_iff_getElem.1 hb
    rw [length_take] at hk
    have := hp k (by omega)
    simp only [getD_eq_getElem _ _ (show k < rest.length by omega)] at this
    rwa [getElem_take]
  rw [← take_append_drop n rest] at h
  have hl := headerLoop_plain hw left [] h
  rwa [length_take, Nat.min_eq_left hn] at hl

/-- The byte behind the plain ones, within the limit. -/
theorem headerLoop_behind (hn : n < maxReadLength) (hl : n < rest.length)
    (hp : PlainTo (rest.getD · 0) n) (h : At stream rest s) :
    ∃ s₁, headerLoop maxReadLength [] s =
        (if [rest.getD n 0] = [spaceByte] then return .space (rest.take n)
          else if [rest.getD n 0] = [crByte] then headerAfterCr (rest.take n)
          else headerLoop (maxReadLength - n - 1) (rest.take n ++ [rest.getD n 0])) s₁ ∧
      At stream (rest.drop (n + 1)) s₁ := by
  obtain ⟨s₁, hr, ha⟩ := headerLoop_at hl.le hp (maxReadLength - n - 1 + 1) h
  rw [show maxReadLength - n - 1 + 1 + n = maxReadLength by omega] at hr
  rw [drop_eq_getElem_cons hl, ← getD_eq_getElem _ 0 hl] at ha
  obtain ⟨s₂, hr₂, ha₂⟩ := (ioRead_reads [rest.getD n 0]).run ha _
  exact ⟨s₂, hr.trans hr₂, ha₂⟩

theorem returnEnd_consumed (bytes string : Nat → Byte) (n : Nat) :
    (returnEnd bytes string n).st.consumed = n + 2 := by
  rw [returnEnd]
  split_ifs <;> rfl

/-- The reader of a connection finds the words of `fetch_value_header`, if all bytes that are read for
them come. -/
theorem headerLoop_fetches (hs : maxReadLength < 2 ^ 64) (h : At stream rest s)
    (string : Nat → Byte) : ∃ r, fetchValueHeader maxReadLength (rest.getD · 0) string = some r ∧
      (r.st.consumed ≤ rest.length → ∃ s', headerLoop maxReadLength [] s = some (r.outcome, s') ∧
        At stream (rest.drop r.st.consumed) s') := by
  rcases plainTo_or (rest.getD · 0) maxReadLength with hp | ⟨n, hn, hp, hb⟩
  · refine ⟨_, fetch_limit hs hp string, fun hl => ?_⟩
    obtain ⟨s₁, hr, ha⟩ := headerLoop_at hl hp 0 h
    rw [Nat.zero_add] at hr
    exact ⟨s₁, hr, ha⟩
  · have hm : ∀ k < n, (headerAt (rest.getD · 0) string (n + 1)).string k = rest.getD k 0 :=
      fun k hk => if_pos (Nat.lt_succ_of_lt hk)
    rcases hb with hb | hb
    · refine ⟨_, fetch_space hs hn ⟨hp, hb⟩ string, fun hl => ?_⟩
      have hl : n + 1 ≤ rest.length := hl
      obtain ⟨s₁, hr, ha⟩ := headerLoop_behind hn hl hp h
      refine ⟨s₁, hr.trans ?_, ha⟩
      rw [if_pos (by rw [hb]), ← map_range_eq_take (by omega) fun k hk =>
        (update_of_ne hk.ne _ _).trans (hm k hk)]
      rfl
    · refine ⟨_, fetch_return hs hn hp hb string, fun hl => ?_⟩
      rw [returnEnd_consumed] at hl ⊢
      have hw (rc : ReturnT) : (List.range n).map
          ((afterReturn (rest.getD · 0) string n).stop rc).st.string = rest.take n :=
        map_range_eq_take (by omega) fun k hk =>
          (update_of_ne hk.ne _ _).trans ((update_of_ne hk.ne _ _).trans (hm k hk))
      obtain ⟨s₁, hr, ha⟩ := headerLoop_behind hn (by omega) hp h
      rw [if_neg (by rw [hb]; decide), if_pos (by rw [hb])] at hr
      have hl' : n + 1 < rest.length := hl
      rw [drop_eq_getElem_cons hl', ← getD_eq_getElem _ 0 hl'] at ha
      obtain ⟨s₂, hr₂, ha₂⟩ := (ioRead_reads [rest.getD (n + 1) 0]).run ha _
      refine ⟨s₂, (hr.trans hr₂).trans ?_, ha₂⟩
      simp only [cons.injEq, and_true, returnEnd]
      split_ifs
      · exact congrArg (fun w => some (Except.ok (HeaderEnd.space w), s₂)) (hw .success).symm
      · exact congrArg (fun w => some (Except.ok (HeaderEnd.line w), s₂)) (hw .endOfReply).symm
      · rfl

/-- A word that comes in two packets, and no byte behind the space. -/
theorem headerLoop_fetches_packets : ∃ r s',
    fetchValueHeader 2 ([107, 32].getD · 0) (fun _ => 0) = some r ∧
      headerLoop 2 [] (Reader.new.connect [[107], [32]] .timeout) = some (r.outcome, s') ∧
      At [107, 32] (List.drop r.st.consumed [107, 32]) s' := by
  have hs : (Reader.new.connect [[107], [32]] .timeout).AtStart :=
    ⟨rfl, rfl, rfl, rfl, rfl, by decide⟩
  have ha : At [107, 32] [107, 32] (Reader.new.connect [[107], [32]] .timeout) :=
    ⟨hs.sound rfl, rfl, by decide⟩
  obtain ⟨r, hf, hr⟩ := headerLoop_fetches (show 2 < 2 ^ 64 by decide) ha fun _ => 0
  obtain rfl := Option.some.inj (hf.symm.trans rfl)
  obtain ⟨s', hr⟩ := hr (le_refl 2)
  exact ⟨_, s', rfl, hr⟩

end Reader

end ArcusClient.Coll
