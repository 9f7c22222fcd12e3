import ArcusClient.Collection.Request
import ArcusClient.Lib.Outcome
import ArcusClient.Lib.Runs

/-!
# Replies to requests on collections

A server answers a request unless the command line has the option `noreply` or `pipe`, and the client
counts the replies it waits for in `cursor_active`.  `memcached_vdo` does not count if the client is
set to `no_reply` or is in a pipe.  But only the builders for creation and for the test of existence
always write the option then.  An insertion writes it with the attributes only.  Deletion, update and
arithmetic write `noreply`, but not `pipe`.  So the counter is right for the requests that
`Consistent` describes, and for no other (`replies_accounted_iff`).
-/

namespace ArcusClient.Coll

open CString Outcome List Ends

/-! ## Calls -/

inductive Call where
  | create (key : List Byte) (attributes : Option CreateAttrs) (verb : Verb)
  | insert (key : List Byte) (query : Query) (eflag : Option Hexadecimal)
      (attributes : Option CreateAttrs) (verb : Verb)
  | delete (key : List Byte) (query : Query) (count : Nat) (dropIfEmpty : Bool) (verb : Verb)
  | get (spaceSeparated : Bool) (key : List Byte) (query : Query) (withDelete dropIfEmpty : Bool)
      (verb : Verb)
  | update (key : List Byte) (query : Query) (eflagUpdate : Option EflagUpdate)
      (value : Option (List Byte)) (valueLength : Int) (verb : Verb)
  | arithmetic (key : List Byte) (query : Query) (delta : UInt64) (initial : Option UInt64)
      (eflag : Option Hexadecimal) (verb : Verb)
  | exist (key value : List Byte) (verb : Verb)
  | count (key : List Byte) (query : Query) (verb : Verb)
  | setAttrs (key : List Byte) (attrs : SetAttrs)
  | getAttrs (key : List Byte)

def Call.build (c : Client) (stack : Nat → CStr) : Call → Except Refusal Request
  | .create key attributes verb => doCollCreate c key attributes verb
  | .insert key query eflag attributes verb => doCollInsert c stack key query eflag attributes verb
  | .delete key query number dropIfEmpty verb =>
    doCollDelete c stack key query number dropIfEmpty verb
  | .get spaceSeparated key query withDelete dropIfEmpty verb =>
    doCollGet c stack spaceSeparated key query withDelete dropIfEmpty verb
  | .update key query eflagUpdate value valueLength verb =>
    doCollUpdate c stack key query eflagUpdate value valueLength verb
  | .arithmetic key query delta initial eflag verb =>
    doCollArithmetic c stack key query delta initial eflag verb
  | .exist key value verb => doCollExist c key value verb
  | .count key query verb => doCollCount c stack key query verb
  | .setAttrs key attrs => memcachedSetAttrs c stack key attrs
  | .getAttrs key => memcachedGetAttrs c key

/-- The argument `with_flush` of `memcached_vdo`. -/
def Call.withFlush (c : Client) : Call → Bool
  | .getAttrs _ => true
  | _ => !c.bufferRequests

/-- `memcached_vdo` increments `cursor_active` when it has sent a request. -/
def counts (c : Client) : Bool := !c.noReply && !c.piped

/-- The function reads a reply after its request is sent.  It returns at once if the request
is only buffered. -/
def Call.reads (c : Client) (call : Call) : Bool :=
  call.withFlush c &&
    match call with
    | .delete .. => !c.noReply
    | .setAttrs .. => !c.noReply
    | .getAttrs .. => true
    | _ => !(c.noReply || c.piped)

/-- The option, the counter and the function agree: the option is there if the reply is
neither counted nor read, the server answers what is counted, and only what is counted is
read. -/
def Accounted (c : Client) (call : Call) (r : Request) : Prop :=
  (r.hasToken = true ↔ counts c = false ∧ call.reads c = false) ∧
    (counts c = true ↔ r.hasToken = false) ∧ (call.reads c = true → counts c = true)

def Consistent (c : Client) : Call → Prop
  | .create .. => True
  | .exist .. => True
  | .insert _ _ _ attributes _ => attributes.isSome = true ∨ counts c = true
  | .delete .. => c.noReply = true ∨ counts c = true
  | .update .. => c.noReply = true ∨ counts c = true
  | .arithmetic .. => c.noReply = true ∨ counts c = true
  | _ => counts c = true

/-! ## The option -/

@[simp] theorem tokenIn_cons_text (s : CStr) (p : List Piece) : tokenIn
    (.text s :: p) = tokenIn p :=
  Bool.false_or _

@[simp] theorem tokenIn_nil : tokenIn [] = false := rfl

@[simp] theorem tokenIn_replyOption (c : Client) : tokenIn (replyOption c) = !counts c := by
  rw [replyOption, counts]
  cases c.noReply <;> cases c.piped <;> rfl

@[simp] theorem tokenIn_noreplyOption (c : Client) : tokenIn (noreplyOption c) = c.noReply := by
  rw [noreplyOption]
  cases c.noReply <;> rfl

@[simp] theorem tokenIn_insertOptions (c : Client) (attributes : Option CreateAttrs) (verb : Verb) :
    tokenIn (insertOptions c attributes verb) = (attributes.isSome && !counts c) := by
  cases attributes with
  | none => rfl
  | some attributes => simp [insertOptions]

theorem fits_ends (size : Nat) (pieces : List Piece) :
    Ends (fun _ => True) (fun line => tokenIn line = tokenIn pieces) (fits size pieces) := by
  rw [fits]
  split
  · trivial
  · rfl

def Call.option (c : Client) : Call → Bool
  | .create .. => !counts c
  | .exist .. => !counts c
  | .insert _ _ _ attributes _ => attributes.isSome && !counts c
  | .delete .. => c.noReply
  | .update .. => c.noReply
  | .arithmetic .. => c.noReply
  | _ => false

def Call.key : Call → List Byte
  | .create key _ _ | .insert key _ _ _ _ | .delete key _ _ _ _ | .get _ key _ _ _ _
  | .update key _ _ _ _ _ | .arithmetic key _ _ _ _ _ | .exist key _ _ | .count key _ _
  | .setAttrs key _ | .getAttrs key => key

theorem fits_bind_ends (size : Nat) (pieces : List Piece) (verb : Verb) (key : List Byte)
    (data : Option (List Byte)) (ht : tokenIn pieces = token) :
    Ends (fun _ => True) (fun r => r.hasToken = token ∧ r.key = key)
      (do let line ← fits size pieces; return (⟨verb, key, line, data⟩ : Request)) := by
  refine (fits_ends size pieces).bind fun line hl => ?_
  exact ⟨hl.trans ht, rfl⟩

/-- What a builder writes: the option, and the key as it was given. -/
theorem build_ends (c : Client) (stack : Nat → CStr) (call : Call) :
    Ends (fun _ => True) (fun r => r.hasToken = call.option c ∧ r.key = call.key)
      (call.build c stack) := by
  cases call with
  | create key attributes verb =>
    refine seq fun _ => ?_
    cases attributes with
    | none => trivial
    | some attributes => exact fits_bind_ends _ _ _ _ _ (by simp [Call.option])
  | insert key query eflag attributes verb | delete key query number dropIfEmpty verb =>
    refine seq fun _ => seq fun subKey => ?_
    exact fits_bind_ends _ _ _ _ _ (by simp [Call.option])
  | get spaceSeparated key query withDelete dropIfEmpty verb =>
    refine seq fun _ => ?_
    split
    · trivial
    · refine seq fun r => ?_
      exact fits_bind_ends _ _ _ _ _ (by simp [Call.option])
  | update key query eflagUpdate value valueLength verb =>
    refine seq fun _ => ?_
    split
    · trivial
    · refine seq fun subKey => seq fun eflag => ?_
      exact fits_bind_ends _ _ _ _ _ (by simp [Call.option])
  | arithmetic key query delta initial eflag verb | count key query verb =>
    refine seq fun _ => ?_
    split
    · trivial
    · refine seq fun subKey => ?_
      exact fits_bind_ends _ _ _ _ _ (by simp [Call.option])
  | exist key value verb | setAttrs key attrs =>
    refine seq fun _ => ?_
    exact fits_bind_ends _ _ _ _ _ (by simp [Call.option])
  | getAttrs key =>
    refine seq fun _ => ?_
    exact ⟨rfl, rfl⟩

section Accounts

variable {c : Client} {call : Call} {r : Request}

theorem option_of_counts (hc : counts c = true) : call.option c = false := by
  obtain ⟨hn, -⟩ : c.noReply = false ∧ c.piped = false := by simpa [counts] using hc
  cases call <;> simp [Call.option, hc, hn]

theorem consistent_of_counts (hc : counts c = true) : Consistent c call := by
  cases call <;> simp [Consistent, hc]

/-- If replies are not counted, the option has to be there and nothing may be read. -/
theorem accounted_iff_of_not_counts (hc : counts c = false) :
    Accounted c call r ↔ r.hasToken = true ∧ call.reads c = false := by
  rw [Accounted, hc]
  cases r.hasToken <;> cases call.reads c <;> simp

theorem consistent_iff_of_not_counts (hc : counts c = false) :
    Consistent c call ↔ call.option c = true ∧ call.reads c = false := by
  have hs : (c.noReply || c.piped) = true := by
    rw [counts] at hc
    cases hn : c.noReply <;> simp_all
  cases call with
  | create | exist | insert | update | arithmetic =>
    simp [Consistent, Call.option, Call.reads, hc, hs]
  | delete =>
    simp only [Consistent, Call.option, Call.reads, hc]
    cases c.noReply <;> simp
  | get | count | setAttrs | getAttrs => simp [Consistent, Call.option, hc]

theorem accounted_iff {stack : Nat → CStr} (h : call.build c stack = .ok r) :
    Accounted c call r ↔ Consistent c call := by
  have ht : r.hasToken = call.option c := ((build_ends c stack call).of_eq_ok h).1
  cases hc : counts c with
  | true =>
    rw [option_of_counts hc] at ht
    refine iff_of_true ?_ (consistent_of_counts hc)
    simp [Accounted, hc, ht]
  | false => rw [accounted_iff_of_not_counts hc, consistent_iff_of_not_counts hc, ht]

end Accounts

/-! ## Connections -/

structure Conn where
  /-- `cursor_active`.  Below zero is where the counter of the source wraps around. -/
  cursorActive : Int
  /-- The replies that the server still owes.  A reply has some lines after which another one
  is read, and a last line. -/
  owed : List Nat
  /-- A function reads the reply to its request. -/
  reading : Bool

namespace Conn

def init : Conn := ⟨0, [], false⟩

/-- A request is sent, and the server answers if it has to. -/
def send (s : Conn) (c : Client) (call : Call) (r : Request) (lines : Nat) : Conn where
  cursorActive := if counts c then s.cursorActive + 1 else s.cursorActive
  owed := if r.hasToken then s.owed else s.owed ++ [lines]
  reading := call.reads c

/-- `memcached_read_one_coll_response`.  A line that is not the last of its reply puts the
counter up again.  The result says if it was one. -/
def readOne (s : Conn) : Bool × Conn :=
  let s := { s with cursorActive := s.cursorActive - 1 }
  match s.owed with
  | [] => (false, s)
  | 0 :: rest => (false, { s with owed := rest })
  | (n + 1) :: rest => (true, { s with cursorActive := s.cursorActive + 1, owed := n :: rest })

inductive Step (allowed : Client → Call → Prop) : Conn → Conn → Prop
  /-- A function sends its request. -/
  | send {s : Conn} {c : Client} {stack : Nat → CStr} {call : Call} {r : Request} (lines : Nat) :
      s.reading = false → allowed c call → call.build c stack = .ok r →
      Step allowed s (s.send c call r lines)
  /-- A line is read in the loop of `before_query`. -/
  | drain {s : Conn} : s.reading = false → s.cursorActive ≠ 0 → Step allowed s s.readOne.2
  /-- A line is read in the loop of `memcached_coll_response`. -/
  | purge {s : Conn} : s.reading = true → 1 < s.cursorActive → Step allowed s s.readOne.2
  /-- A line is read after that loop.  If it is not the last one, the function may go on. -/
  | last {s : Conn} (again : Bool) : s.reading = true → s.cursorActive ≤ 1 →
      Step allowed s { s.readOne.2 with reading := s.readOne.1 && again }
  /-- The function returns early. -/
  | giveUp {s : Conn} : Step allowed s { s with reading := false }
  /-- The connection is closed. -/
  | reset {s : Conn} : Step allowed s init

/-- The counter is the number of replies owed, and a function reads only if there is one. -/
structure Exact (s : Conn) : Prop where
  count : s.cursorActive = s.owed.length
  reading : s.reading = true → s.owed ≠ []

theorem readOne_exact {s : Conn} (h : s.Exact) (ho : s.owed ≠ []) :
    s.readOne.2.cursorActive = s.readOne.2.owed.length ∧ s.readOne.2.reading = s.reading ∧
      s.owed.length ≤ s.readOne.2.owed.length + 1 ∧
      (s.readOne.1 = true → s.readOne.2.owed ≠ []) := by
  have hc := h.count
  rw [readOne]
  cases hca : s.owed with
  | nil => exact absurd hca ho
  | cons n rest =>
    rw [hca, length_cons] at hc
    cases n with
    | zero =>
      refine ⟨?_, rfl, ?_, nofun⟩
      · simp only
        omega
      · simp
    | succ n =>
      refine ⟨?_, rfl, ?_, fun _ => cons_ne_nil _ _⟩
      · simp only [length_cons]
        omega
      · simp

def OnlyConsistent (allowed : Client → Call → Prop) : Prop :=
  ∀ ⦃c stack call r⦄, allowed c call → Call.build c stack call = .ok r → Consistent c call

section Runs

variable {allowed : Client → Call → Prop} (hconsistent : OnlyConsistent allowed)

include hconsistent in
theorem step_exact {s s' : Conn} (h : s.Exact) (hs : Step allowed s s') : s'.Exact := by
  cases hs with
  | send lines hid ha hb =>
    obtain ⟨-, hco, hr⟩ := (accounted_iff hb).2 (hconsistent ha hb)
    rename_i c stack call r
    have hcou := h.count
    constructor
    · cases hc : counts c with
      | true =>
        simp only [send, hc, hco.1 hc, if_true, Bool.false_eq_true, if_false,
          length_append, length_singleton]
        omega
      | false =>
        have hto : r.hasToken = true := by
          cases ht : r.hasToken with
          | true => rfl
          | false => exact absurd (hco.2 ht) (by simp [hc])
        simpa [send, hc, hto] using hcou
    · intro hrea
      have hto := hco.1 (hr hrea)
      simp [send, hto]
  | drain hid hn =>
    have ho : s.owed ≠ [] := by
      intro hni
      have hcou := h.count
      rw [hni] at hcou
      exact hn hcou
    obtain ⟨hcou, hsa, -, -⟩ := readOne_exact h ho
    refine ⟨hcou, fun hrea => ?_⟩
    rw [hsa, hid] at hrea
    cases hrea
  | purge hrea hm =>
    obtain ⟨hcou, -, hl, -⟩ := readOne_exact h (h.reading hrea)
    refine ⟨hcou, fun _ hni => ?_⟩
    have hbe := h.count
    rw [hni, length_nil] at hl
    omega
  | last again hrea hle =>
    obtain ⟨hcou, -, -, hm⟩ := readOne_exact h (h.reading hrea)
    refine ⟨hcou, fun hag => hm ?_⟩
    exact (Bool.and_eq_true_iff.1 hag).1
  | giveUp => exact ⟨h.count, nofun⟩
  | reset => exact ⟨rfl, nofun⟩

include hconsistent in
theorem run_exact (hr : Relation.ReflTransGen (Step allowed) init s) : s.Exact := by
  have hin : init.Exact := ⟨rfl, nofun⟩
  exact Runs.run_invariant (I := Exact) (fun _ _ => step_exact hconsistent) hin hr

theorem consistent_of_send_exact {stack : Nat → CStr}
    (hb : call.build c stack = .ok r) (h : (init.send c call r 0).Exact) : Consistent c call := by
  refine (accounted_iff hb).1 ?_
  obtain ⟨hco, hre⟩ := h
  simp only [send, init] at hco hre
  cases hc : counts c <;> cases ht : r.hasToken <;> cases hr : call.reads c <;>
    simp [hc, ht, hr, Accounted] at hco hre ⊢

end Runs

end Conn

/-- For every request that is built, the option, the counter and the function agree exactly
if the call is consistent.  The counter is the number of replies owed in every run exactly if
the requests that are sent are all consistent. -/
theorem replies_accounted_iff (allowed : Client → Call → Prop) :
    (∀ (c : Client) (stack : Nat → CStr) (call : Call) (r : Request),
      call.build c stack = .ok r → (Accounted c call r ↔ Consistent c call)) ∧
    ((∀ s, Relation.ReflTransGen (Conn.Step allowed) Conn.init s →
        s.cursorActive = s.owed.length ∧ (s.reading = true → 0 < s.cursorActive)) ↔
      Conn.OnlyConsistent allowed) := by
  refine ⟨fun c stack call r h => accounted_iff h, fun hr c stack call r ha hb => ?_,
    fun hconsistent s hru => ?_⟩
  · have hs : Conn.Step allowed Conn.init (Conn.init.send c call r 0) :=
      .send 0 rfl ha hb
    obtain ⟨hc, hp⟩ := hr _ (.single hs)
    refine Conn.consistent_of_send_exact hb ⟨hc, fun hre hn => ?_⟩
    have := hp hre
    rw [hc, hn] at this
    exact absurd this (by decide)
  · have he := Conn.run_exact hconsistent hru
    refine ⟨he.count, fun hre => ?_⟩
    have hp := length_pos_iff.2 (he.reading hre)
    have hc := he.count
    omega

def quietClient : Client where
  noReply := true
  piped := false
  bufferRequests := false
  useUdp := false
  binaryProtocol := false
  verifyKey := false
  serverCount := 1

/-- A query for the first element of a list, with a value of one byte. -/
def firstElement : Query where
  type := .lop
  subKey := ⟨0, (0, 0), 0, (0, 0), [], ([], []), ⟨[], 0⟩, []⟩
  value := [120]
  valueLength := 1
  offset := 0
  count := 0
  eflagFilter := none

/-- An insertion without attributes does not have the option, so the server owes a reply
that is not counted.  A query of attributes reads a reply that is not counted, and the counter
goes below zero. -/
theorem insert_reply_not_counted :
    (∃ r, (Call.insert [107] firstElement none none .lopInsert).build quietClient (fun _ => []) =
      .ok r ∧ ¬Accounted quietClient (.insert [107] firstElement none none .lopInsert) r) ∧
    (∃ s, Relation.ReflTransGen (Conn.Step fun _ _ => True) Conn.init s ∧
      s.cursorActive = 0 ∧ s.owed.length = 1) ∧
    ∃ s, Relation.ReflTransGen (Conn.Step fun _ _ => True) Conn.init s ∧ s.cursorActive < 0 := by
  obtain ⟨r, hr, ht⟩ : ∃ r, (Call.insert [107] firstElement none none .lopInsert).build
      quietClient (fun _ => []) = .ok r ∧ r.hasToken = false := ⟨_, rfl, rfl⟩
  obtain ⟨r', hr'⟩ : ∃ r', (Call.getAttrs [107]).build quietClient (fun _ => []) = .ok r' :=
    ⟨_, rfl⟩
  have hs : Conn.Step (fun _ _ => True) Conn.init (Conn.init.send quietClient _ r 0) :=
    .send 0 rfl trivial hr
  have hs' : Conn.Step (fun _ _ => True) Conn.init (Conn.init.send quietClient _ r' 0) :=
    .send 0 rfl trivial hr'
  refine ⟨⟨r, hr, fun h => ?_⟩, ⟨_, .single hs, rfl, ?_⟩, ?_⟩
  · have hc : counts quietClient = true := h.2.1.2 ht
    cases hc
  · simp [Conn.send, ht, Conn.init]
  · cases hr'
    exact ⟨_, .tail (.single hs') (.last false rfl (by decide)), by decide⟩

end ArcusClient.Coll
