import ArcusClient.Collection.BulkScatter
import ArcusClient.Collection.StatedBytes
import ArcusClient.Lib.Chunks

/-!
# The bytes of a pipe

The buffering of `do_coll_piped_insert` and `do_coll_piped_exist` does not change what is sent: the
commands of the items, one after another, each with the option `pipe` but for every 500th and the
last one.  When a reply is read, the buffer is empty (`Streams`).  `Batches` says what is needed of a
loop for this.  The commands differ from what the arguments say in two sizes: the number of items is
an `int` in `do_coll_piped_insert`, and the length of a value is printed modulo `2 ^ 32`.
-/

namespace ArcusClient.Coll

open CString Outcome Chunks List PipeLoop Bool

/-! ## Batches -/

/-- The option `pipe` is there for item `k` of `n`. -/
def pipes (n k : Nat) : Bool := !((k + 1) % maxPipedCmdSize == 0 || k + 1 == n)

/-- The counters before item `k` of `n`. -/
structure AtItem (n k : Nat) (s : PipeSt) : Prop where
  index : s.i = k
  le : k ≤ n
  requested : k < n → s.requestedItems = k % maxPipedCmdSize

/-- The item carries a command, at this position of the buffer if it is collected. -/
def Carries (piped : Bool) (pipeBufferPos : Nat) (command : List Byte) : Item → Prop
  | .collected r pos => piped = true ∧ r.wire = command ∧ pos = pipeBufferPos + command.length ∧
      pos ≤ maxPipedBufferSize
  | .flushed r => r.wire = command

/-- After a reply the loop goes on with the next item, or the function fails. -/
def Settles (s t : PipeSt) : Prop :=
  t.pipeBufferPos = s.pipeBufferPos ∧
    (t.phase = .looping ∧ t.i = s.i + 1 ∧ t.requestedItems = 0 ∨
      t.phase = .stopped ∧ t.rc ≠ .success)

theorem Settles.of_eq (h : Settles s t) (hp : s.pipeBufferPos = s'.pipeBufferPos)
    (hi : s.i = s'.i) : Settles s' t := by
  rw [Settles, hp, hi] at h
  exact h

/-- The loop goes through `n` items in batches, and these commands are printed. -/
structure Batches (loop : PipeLoop) (n : Nat) (printed : Nat → List Byte) : Prop where
  looping : ∀ s, loop.enters s = true → s.phase = .looping
  enters : ∀ k s, s.phase = .looping → AtItem n k s → (loop.enters s = true ↔ k < n)
  more : ∀ k s, AtItem n k s → k < n →
    loop.more { s with requestedItems := s.requestedItems + 1 } = pipes n k
  request : ∀ k s, AtItem n k s → k < n →
    Ends IsRefusal (Carries (pipes n k) s.pipeBufferPos (printed k))
      (loop.request { s with requestedItems := s.requestedItems + 1 })
  receive : ∀ answer s, s.phase = .looping → Settles s (loop.receive answer false s)

/-- A write succeeds, and the client stays with its server. -/
structure Quiet (env : Turn) : Prop where
  write : env.write = .success
  switched : env.switched = false

/-- What was sent and what is in the buffer, after the requests of `k` items. -/
structure Streaming (n : Nat) (printed : Nat → List Byte) (k : Nat) (s : StreamSt) : Prop where
  wrote : s.sent ++ s.pipeBuffer = concat printed k
  room : s.pipeBuffer.length ≤ maxPipedBufferSize
  pos_eq : s.pipe.pipeBufferPos = s.pipeBuffer.length
  le : k ≤ n
  next : s.pipe.phase = .looping → AtItem n k s.pipe ∧ (k = n → s.pipeBuffer = [])
  stopped : s.pipe.phase ≠ .looping → s.pipe.rc ≠ .success

variable {loop : PipeLoop} {n k : Nat} {printed : Nat → List Byte} {s : StreamSt} {env : Turn}

theorem streaming_start (n : Nat) (printed : Nat → List Byte) :
    Streaming n printed 0 streamStart where
  wrote := rfl
  room := Nat.zero_le _
  pos_eq := rfl
  le := Nat.zero_le n
  next _ := ⟨⟨rfl, Nat.zero_le n, fun _ => rfl⟩, fun _ => rfl⟩
  stopped h := absurd rfl h

theorem AtItem.more {s t : PipeSt} (h : AtItem n k s) (hk : k < n) (hm : pipes n k = true)
    (hin : t.i = s.i + 1) (hr : t.requestedItems = s.requestedItems + 1) : AtItem n (k + 1) t where
  index := by
    rw [hin, h.index]
    rfl
  le := hk
  requested _ := by
    rw [hr, h.requested hk]
    simp only [pipes, not_eq_true', or_eq_false_iff, beq_eq_false_iff_ne] at hm
    rw [maxPipedCmdSize] at hm ⊢
    omega

theorem AtItem.last {s t : PipeSt} (h : AtItem n k s) (hk : k < n) (hm : pipes n k = false)
    (hin : t.i = s.i + 1) (hr : t.requestedItems = 0) : AtItem n (k + 1) t where
  index := by
    rw [hin, h.index]
    rfl
  le := hk
  requested hless := by
    simp only [pipes, not_eq_false', or_eq_true, beq_iff_eq] at hm
    rw [hr, hm.resolve_right hless.ne]

theorem pipes_ne (h : pipes n k = true) : k + 1 ≠ n := by
  simp only [pipes, not_eq_true', or_eq_false_iff, beq_eq_false_iff_ne] at h
  exact h.2

namespace Streaming

theorem collect (h : Streaming n printed k s) (ha : AtItem n k s.pipe) (hk : k < n)
    (hm : pipes n k = true) (hp : pipe.phase = .looping)
    (hin : pipe.i = s.pipe.i + 1) (hr : pipe.requestedItems = s.pipe.requestedItems + 1)
    (hpo : pipe.pipeBufferPos = s.pipe.pipeBufferPos + (printed k).length)
    (hro : pipe.pipeBufferPos ≤ maxPipedBufferSize) :
    Streaming n printed (k + 1) ⟨pipe, s.sent, s.pipeBuffer ++ printed k⟩ where
  wrote := by
    rw [concat_succ, ← h.wrote, append_assoc]
  room := by
    rwa [length_append, ← h.pos_eq, ← hpo]
  pos_eq := by
    rw [hpo, length_append, h.pos_eq]
  le := hk
  next _ := ⟨ha.more hk hm hin hr, fun he => absurd he (pipes_ne hm)⟩
  stopped hstopped := absurd hp hstopped

theorem flush (h : Streaming n printed k s) (hk : k < n)
    (hp : pipe.pipeBufferPos = 0) (hn : pipe.phase = .looping → AtItem n (k + 1) pipe)
    (hs : pipe.phase ≠ .looping → pipe.rc ≠ .success) :
    Streaming n printed (k + 1) ⟨pipe, s.sent ++ s.pipeBuffer ++ printed k, []⟩ where
  wrote := by
    rw [append_nil, concat_succ, h.wrote]
  room := Nat.zero_le _
  pos_eq := hp
  le := hk
  next hph := ⟨hn hph, fun _ => rfl⟩
  stopped := hs

theorem turn (hl : Batches loop n printed) (h : Streaming n printed k s) (he : Quiet env)
    (hent : loop.enters s.pipe = true) : ∃ k', Streaming n printed k' (loop.streamTurn env s) ∧
      ((loop.streamTurn env s).pipe.phase = .looping → k' = k + 1) := by
  have hloo := hl.looping _ hent
  obtain ⟨ha, -⟩ := h.next hloo
  have hk := (hl.enters k _ hloo ha).1 hent
  have hm := hl.more k _ ha hk
  have hend := hl.request k _ ha hk
  unfold PipeLoop.streamTurn PipeLoop.put PipeLoop.turn PipeLoop.sendItem
  dsimp only
  cases hr : loop.request { s.pipe with requestedItems := s.pipe.requestedItems + 1 } with
  | error refusal =>
    obtain ⟨rc, rfl, hrc⟩ := hend.of_eq_error hr
    have hph : ({ s.pipe with requestedItems := s.pipe.requestedItems + 1 }.stop rc).phase ≠
        .looping := Phase.noConfusion
    exact ⟨k, ⟨h.wrote, h.room, h.pos_eq, h.le, fun hp => absurd hp hph, fun _ => hrc⟩,
      fun hp => absurd hp hph⟩
  | ok item =>
    have hc := hend.of_eq_ok hr
    cases item with
    | collected r pos =>
      obtain ⟨hpi, hw, hpo, hro⟩ := hc
      dsimp only
      rw [if_neg (not_not_intro hloo), if_pos (hm.trans hpi), hw]
      exact ⟨k + 1, h.collect ha hk hpi hloo rfl rfl hpo hro, fun _ => rfl⟩
    | flushed r =>
      have hw : r.wire = printed k := hc
      simp only [PipeSt.flush, he.write, if_true, hw]
      rw [if_neg (not_not_intro hloo)]
      cases hpi : pipes n k with
      | true =>
        rw [if_pos (hm.trans hpi)]
        refine ⟨k + 1, h.flush hk rfl (fun _ => ?_) fun hp => absurd hloo hp, fun _ => rfl⟩
        exact ha.more hk hpi rfl rfl
      | false =>
        rw [if_neg (by rw [hm, hpi]; exact false_ne_true), he.switched]
        obtain ⟨hpo, ⟨hph, hin, hreq⟩ | ⟨hph, hrc⟩⟩ := hl.receive env.answer
          { s.pipe with
            requestedItems := s.pipe.requestedItems + 1
            log := s.pipe.log ++ (s.pipe.buffered ++ [s.pipe.i.toNat]).map Event.sent
            rc := .success
            wire := s.pipe.wire ++ (s.pipe.buffered ++ [s.pipe.i.toNat])
            buffered := []
            pipeBufferPos := 0 } hloo
        · refine ⟨k + 1, h.flush hk hpo (fun _ => ?_) fun hp => absurd hph hp, fun _ => rfl⟩
          exact ha.last hk hpi hin hreq
        · exact ⟨k + 1, h.flush hk hpo (fun hp => absurd (hph.symm.trans hp) (by decide))
            fun _ => hrc, fun _ => rfl⟩

/-- Some turns.  Each turn is for one item, as long as the loop goes on. -/
theorem run (hl : Batches loop n printed) (ht : ∀ env ∈ turns, Quiet env)
    (h : Streaming n printed k s) : ∃ k', Streaming n printed k' (loop.stream turns s) ∧
      (loop.enters (loop.stream turns s).pipe = true → k' = k + turns.length) := by
  induction turns generalizing k s with
  | nil => exact ⟨k, h, fun _ => rfl⟩
  | cons env rest ih =>
    rw [stream]
    by_cases he : loop.enters s.pipe = true
    · rw [if_pos he]
      obtain ⟨k', htur, hn⟩ := h.turn hl (ht env mem_cons_self) he
      obtain ⟨k'', hr, hm⟩ := ih (fun env' hme => ht env' (mem_cons_of_mem env hme)) htur
      refine ⟨k'', hr, fun hs => ?_⟩
      have hp : (loop.streamTurn env s).pipe.phase = .looping := by
        by_contra hsto
        -- a loop that was left is not entered again
        have hsa : loop.stream rest (loop.streamTurn env s) = loop.streamTurn env s := by
          cases rest with
          | nil => rfl
          | cons env' rest =>
            rw [stream, if_neg fun hin => hsto (hl.looping _ hin)]
        rw [hsa] at hs
        exact hsto (hl.looping _ hs)
      rw [hm hs, hn hp, length_cons]
      omega
    · rw [if_neg he]
      exact ⟨k, h, fun hin => absurd hin he⟩

/-- At the end of a successful call the requests of all items are written. -/
theorem finished (hl : Batches loop n printed) (h : Streaming n printed k s)
    (hle : loop.enters s.pipe = false) (hr : s.pipe.rc = .success) : k = n ∧ s.pipeBuffer = [] := by
  have hp : s.pipe.phase = .looping := by
    by_contra hstopped
    exact h.stopped hstopped hr
  obtain ⟨ha, he⟩ := h.next hp
  have hk : k = n := by
    by_contra hne
    rw [(hl.enters k _ hp ha).2 (lt_of_le_of_ne h.le hne)] at hle
    cases hle
  exact ⟨hk, he hk⟩

theorem emptied (hl : Batches loop n printed) (h : Streaming n printed k s)
    (he : loop.enters s.pipe = true)
    (hla : loop.more { s.pipe with requestedItems := s.pipe.requestedItems + 1 } = false)
    (hs : (loop.send .success s).pipe.phase = .looping) :
    (loop.send .success s).pipeBuffer = [] := by
  have hlo := hl.looping _ he
  obtain ⟨ha, -⟩ := h.next hlo
  have hk := (hl.enters k _ hlo ha).1 he
  have hen := hl.request k _ ha hk
  rw [hl.more k _ ha hk] at hla
  unfold PipeLoop.send PipeLoop.put PipeLoop.sendItem at hs ⊢
  dsimp only at hs ⊢
  cases hr : loop.request { s.pipe with requestedItems := s.pipe.requestedItems + 1 } with
  | error refusal =>
    obtain ⟨rc, rfl, -⟩ := hen.of_eq_error hr
    rw [hr] at hs
    exact absurd hs Phase.noConfusion
  | ok item =>
    have hc := hen.of_eq_ok hr
    cases item with
    | collected r pos => exact absurd (hla.symm.trans hc.1) false_ne_true
    | flushed r => rfl

end Streaming

/-! ## Exact streams -/

structure Streams (loop : PipeLoop) (count : Nat) (command : Nat → List Byte) (s : StreamSt) : Prop where
  /-- The commands of the first items are sent or in the buffer, and all are sent in the end. -/
  wrote : ∃ k ≤ count, s.sent ++ s.pipeBuffer = concat command k ∧
    (loop.enters s.pipe = false → s.pipe.rc = .success → k = count ∧ s.pipeBuffer = [])
  pos_eq : s.pipe.pipeBufferPos = s.pipeBuffer.length
  pos_le : s.pipe.pipeBufferPos ≤ maxPipedBufferSize
  /-- Nothing is left in the buffer when a reply is read. -/
  read : loop.enters s.pipe = true →
    loop.more { s.pipe with requestedItems := s.pipe.requestedItems + 1 } = false →
    (loop.send .success s).pipe.phase = .looping → (loop.send .success s).pipeBuffer = []

/-- The loop sends these commands, whatever the replies are, and comes to its end. -/
def StreamsExactly (loop : PipeLoop) (count : Nat) (command : Nat → List Byte) : Prop :=
  ∀ turns, (∀ env ∈ turns, Quiet env) →
    Streams loop count command (loop.stream turns streamStart) ∧
      (count ≤ turns.length → loop.enters (loop.stream turns streamStart).pipe = false)

theorem streamsExactly (hl : Batches loop n printed) {count : Nat} {command : Nat → List Byte}
    (hc : n = count) (hco : ∀ k < count, printed k = command k) :
    StreamsExactly loop count command := by
  subst hc
  intro turns ht
  obtain ⟨k, h, hm⟩ := (streaming_start n printed).run hl ht
  refine ⟨⟨⟨k, h.le, ?_, h.finished hl⟩, h.pos_eq, h.pos_eq.trans_le h.room, h.emptied hl⟩, ?_⟩
  · rw [h.wrote]
    exact concat_congr fun k' hk' => hco k' (hk'.trans_le h.le)
  · intro hle
    by_contra hin
    rw [not_eq_false] at hin
    have hlo := hl.looping _ hin
    have hk := (hl.enters k _ hlo (h.next hlo).1).1 hin
    have := hm hin
    omega

structure Completes (loop : PipeLoop) (n : Nat) (accepting : Nat → Turn) : Prop where
  quiet : ∀ k, Quiet (accepting k)
  turn : ∀ k s, s.phase = .looping → AtItem n k s → k < n → s.pipeBufferPos ≤ maxPipedBufferSize →
    (loop.turn (accepting k) s).phase = .looping ∧ (loop.turn (accepting k) s).rc = .success

theorem PipeLoop.stream_append (loop : PipeLoop) (turns turns' : List Turn) (s : StreamSt) :
    loop.stream (turns ++ turns') s = loop.stream turns' (loop.stream turns s) := by
  induction turns generalizing s with
  | nil => rfl
  | cons env rest ih =>
    rw [cons_append, stream, stream]
    split_ifs with he
    · exact ih _
    · cases turns' with
      | nil => rfl
      | cons env' rest' => rw [stream, if_neg he]

theorem PipeLoop.streamTurn_pipe (loop : PipeLoop) (env : Turn) (s : StreamSt) :
    (loop.streamTurn env s).pipe = loop.turn env s.pipe := by
  unfold streamTurn put
  split
  · rfl
  · rfl
  · split_ifs <;> rfl

theorem completes {accepting : Nat → Turn} (hl : Batches loop n printed)
    (ha : Completes loop n accepting) (hj : j ≤ n) :
    ∃ turns, (∀ env ∈ turns, Quiet env) ∧ Streaming n printed j (loop.stream turns streamStart) ∧
      (loop.stream turns streamStart).pipe.phase = .looping ∧
      (loop.stream turns streamStart).pipe.rc = .success := by
  induction j with
  | zero => exact ⟨[], fun env h => absurd h not_mem_nil, streaming_start n printed, rfl, rfl⟩
  | succ j ih =>
    obtain ⟨turns, ht, h, hp, -⟩ := ih (by omega)
    have hat := (h.next hp).1
    have he := (hl.enters j _ hp hat).2 hj
    obtain ⟨hs, hr⟩ := ha.turn j _ hp hat hj (h.pos_eq.trans_le h.room)
    obtain ⟨k', htu, hk'⟩ := h.turn hl (ha.quiet j) he
    rw [streamTurn_pipe] at hk'
    obtain rfl := hk' hs
    refine ⟨turns ++ [accepting j], fun env hm => ?_, ?_⟩
    · rcases mem_append.1 hm with hm | hm
      · exact ht env hm
      · exact mem_singleton.1 hm ▸ ha.quiet j
    · rw [stream_append, stream, if_pos he, stream, streamTurn_pipe]
      exact ⟨htu, hs, hr⟩

/-- A loop that sends these commands has as many turns, and prints them so. -/
theorem of_streamsExactly {accepting : Nat → Turn} (hl : Batches loop n printed)
    (ha : Completes loop n accepting) {count : Nat} {command : Nat → List Byte}
    (hd : ∀ k a b, printed k ++ a = command k ++ b → printed k = command k)
    (hp : ∀ k, printed k ≠ []) (hc : ∀ k, command k ≠ [])
    (h : StreamsExactly loop count command) : n = count ∧ ∀ k < n, printed k = command k := by
  obtain ⟨turns, ht, hs, hph, hr⟩ := completes hl ha le_rfl
  have hle : loop.enters (loop.stream turns streamStart).pipe = false := by
    rw [eq_false_iff]
    intro hin
    exact absurd ((hl.enters n _ hph (hs.next hph).1).1 hin) (lt_irrefl n)
  obtain ⟨⟨k, -, hw, hal⟩, -, -, -⟩ := (h turns ht).1
  obtain ⟨rfl, -⟩ := hal hle hr
  exact concat_inj hd hp hc (hs.wrote.symm.trans hw)

/-! ## Commands -/

/-- `<verb> <key> ... <len> [create ...] [pipe]\r\n<value>\r\n`. -/
def command (verb : Verb) (argument : List Byte) (length : Nat) (attributes : CStr) (piped : Bool)
    (data : List Byte) : List Byte :=
  (Request.mk verb argument ([.text (space ++ decimal length ++ attributes)] ++
    if piped then [.pipe] else []) (some data)).wire

theorem command_ne_nil (verb : Verb) (argument : List Byte) (length : Nat) (attributes : CStr)
    (piped : Bool) (data : List Byte) : command verb argument length attributes piped data ≠
    [] := by
  intro h
  have hc := (append_eq_nil_iff.1 (append_eq_nil_iff.1 h).1).2
  exact absurd hc (by decide)

def lineEnd (attributes : CStr) (piped : Bool) : CStr :=
  attributes ++ (if piped then Piece.pipe.chars else []) ++ lit ['\r', '\n']

theorem command_eq (verb : Verb) (argument : List Byte) (length : Nat) (attributes : CStr)
    (piped : Bool) (data : List Byte) : command verb argument length attributes piped data =
      bytesOf ((collOpString verb).take (collOpLength verb)) ++ (argument ++ (bytesOf space ++
        (bytesOf (decimal length) ++ (bytesOf (lineEnd attributes piped) ++ (data ++ crlf))))) := by
  cases piped <;>
    simp only [command, Request.wire, lineEnd, chars, crlf, flatMap_append,
      flatMap_singleton, Piece.chars, Strtok.bytesOf_append, append_assoc,
      if_true, if_false, append_nil, false_eq_true]

section LineEnd

variable {attributes : CStr} (hattributes : ∀ b ∈ attributes.head?, isDigit b = false)

include hattributes in
theorem lineEnd_head (piped : Bool) (rest : List Byte) (b : Byte) (r : List Byte)
    (h : bytesOf (lineEnd attributes piped) ++ rest = b :: r) : (48 ≤ b.1 && b.1 ≤ 57) = false := by
  cases attributes with
  | cons c attributes =>
    obtain rfl : c.1 = b := (cons.inj h).1
    exact hattributes c rfl
  | nil =>
    cases piped with
    | true | false =>
      obtain rfl := (cons.inj h).1
      decide

include hattributes in
theorem lineEnd_inj {length length' : Nat} {piped piped' : Bool} {a b : List Byte}
    (h : bytesOf (decimal length) ++ (bytesOf (lineEnd attributes piped) ++ a) =
      bytesOf (decimal length') ++ (bytesOf (lineEnd attributes piped') ++ b)) :
    length = length' ∧ piped = piped' := by
  have hd : ∀ n, ∀ b ∈ decimal n, (48 ≤ b.1.1 && b.1.1 ≤ 57) = true := fun n b hb =>
    isDigit_of_mem_decimal hb
  have hw := congrArg (takeWhile fun b : Byte => 48 ≤ b.1 && b.1 ≤ 57) h
  rw [Strtok.takeWhile_bytesOf_append (hd length) (lineEnd_head hattributes piped a),
    Strtok.takeWhile_bytesOf_append (hd length') (lineEnd_head hattributes piped' b)] at hw
  obtain rfl := decimal_injective (bytesOf_injective hw)
  refine ⟨rfl, ?_⟩
  simp only [lineEnd, Strtok.bytesOf_append, append_assoc, append_cancel_left_eq] at h
  cases piped <;> cases piped'
  · rfl
  · exact absurd (cons.inj h).1 (by decide)
  · exact absurd (cons.inj h).1 (by decide)
  · rfl

end LineEnd

theorem command_inj {verb : Verb} {length length' : Nat}
    (hattributes : ∀ b ∈ attributes.head?, isDigit b = false)
    {a b : List Byte} (h : command verb argument length attributes piped data ++ a =
      command verb argument length' attributes piped' data ++ b) :
    length = length' ∧ piped = piped' := by
  rw [command_eq, command_eq] at h
  simp only [append_assoc, append_cancel_left_eq] at h
  exact lineEnd_inj hattributes h

theorem itemAttributes_head (attributes : Option CreateAttrs) (verb : Verb) :
    ∀ b ∈ (itemAttributes attributes verb).head?, isDigit b = false := by
  intro b hb
  cases attributes with
  | none => cases hb
  | some attributes =>
    obtain rfl : ofChar ' ' = b := Option.some.inj hb
    decide

/-! ## Both loops -/

theorem collectOrFlush_carries (hk : key.Terminated) (hr : r.key = key.bytes) :
    Ends IsRefusal (Carries c.piped pipeBufferPos r.wire)
      (collectOrFlush c key pipeBufferPos r) := by
  obtain ⟨verb, key', line, data⟩ := r
  obtain rfl : key' = key.bytes := hr
  unfold collectOrFlush
  split_ifs with hc
  · rw [and_eq_true, decide_eq_true_eq] at hc
    rw [show key.string = key.bytes from hk, if_pos hc.2.le]
    exact ⟨hc.1, rfl, rfl, hc.2.le⟩
  · exact (rfl : _ = _)

theorem fits_refusal (size : Nat) (pieces : List Piece) :
    Ends IsRefusal (· = pieces) (fits size pieces) := by
  unfold fits
  split_ifs
  · exact ⟨_, rfl, by decide⟩
  · exact (rfl : _ = _)

theorem replyOption_eq (h : c.noReply = false) :
    replyOption c = if c.piped then [.pipe] else [] := by
  rw [replyOption, if_neg (by simp [h])]

/-- The flag `piped`, as the loops compute it. -/
theorem not_last_eq_pipes {count : Int} (h : (k : Int) + 1 = count ↔ k + 1 = n) :
    (!(k % maxPipedCmdSize + 1 == maxPipedCmdSize || (k : Int) + 1 == count)) = pipes n k := by
  have hb : k % maxPipedCmdSize + 1 = maxPipedCmdSize ↔ (k + 1) % maxPipedCmdSize = 0 := by
    rw [maxPipedCmdSize]
    omega
  rw [Bool.eq_iff_iff]
  simp only [pipes, Bool.not_eq_true', Bool.or_eq_false_iff, beq_eq_false_iff_ne, ne_eq, hb, h]

theorem collResponse_keeps (answer : Answer) (s : PipeSt) :
    (collResponse answer s).2.pipeBufferPos = s.pipeBufferPos ∧
      (collResponse answer s).2.phase = s.phase ∧ (collResponse answer s).2.i = s.i := by
  cases answer with
  | line status | failed rc => exact ⟨rfl, rfl, rfl⟩
  | response count lines =>
    simp only [collResponse, textualCollPipedResponseFetch]
    split_ifs
    · exact ⟨rfl, rfl, rfl⟩
    · split
      · exact ⟨rfl, rfl, rfl⟩
      · split_ifs <;> exact ⟨rfl, rfl, rfl⟩

/-- A reply after which the loop goes on, with this status for an item alone. -/
def acceptingAnswer (status : ReturnT) (k : Nat) : Answer :=
  if k % maxPipedCmdSize = 0 then .line status else .response 0 [.ok .endOfReply]

section Replies

variable (accepted : ReturnT → Prop) [DecidablePred accepted]

/-- What both loops do with a reply, if the client stays with its server. -/
def settleAnswer (answer : Answer) (s : PipeSt) : PipeSt :=
  let (rc, s) := collResponse answer (s.record answer)
  settleWith accepted rc s

theorem settleAnswer_settles (answer : Answer) {s : PipeSt} (h : s.phase = .looping) :
    Settles s (settleAnswer accepted answer s) := by
  have hs : ∀ (rc : ReturnT) (t : PipeSt), t.phase = .looping → Settles t
      (settleWith accepted rc t) := by
    intro rc t ht
    unfold settleWith
    split_ifs <;> dsimp only <;> split_ifs with hr <;>
      first
      | exact ⟨rfl, Or.inr ⟨rfl, hr⟩⟩
      | exact ⟨rfl, Or.inl ⟨ht, rfl, rfl⟩⟩
  obtain ⟨hp, hph, hi⟩ := collResponse_keeps answer (s.record answer)
  exact (hs _ _ (hph.trans h)).of_eq hp hi

theorem settleAnswer_accepting {status : ReturnT} (ha : accepted status) (k : Nat) {s : PipeSt}
    (h : s.phase = .looping) (hr : s.requestedItems = k % maxPipedCmdSize + 1) :
    (settleAnswer accepted (acceptingAnswer status k) s).phase = .looping ∧
      (settleAnswer accepted (acceptingAnswer status k) s).rc = .success := by
  by_cases ho : k % maxPipedCmdSize = 0
  · simp [acceptingAnswer, ho, settleAnswer, collResponse, settleWith, PipeSt.record, hr, h, ha]
  · have hm : s.requestedItems ≠ 1 := by omega
    simp [acceptingAnswer, ho, settleAnswer, collResponse, textualCollPipedResponseFetch,
      fetchStatuses, readline, settleWith, PipeSt.record, hm, h]

end Replies

/-- If every request is built, and the answers are accepted, the loop completes. -/
theorem Batches.completes (hl : Batches loop n printed) (answer : Nat → Answer)
    (hr : ∀ k s, AtItem n k s → k < n → s.pipeBufferPos ≤ maxPipedBufferSize →
      ∃ item, loop.request { s with requestedItems := s.requestedItems + 1 } = .ok item)
    (hrec : ∀ k s, s.phase = .looping → s.requestedItems = k % maxPipedCmdSize + 1 →
      (loop.receive (answer k) false s).phase = .looping ∧
        (loop.receive (answer k) false s).rc = .success) :
    Completes loop n fun k => ⟨.success, answer k, false⟩ where
  quiet k := ⟨rfl, rfl⟩
  turn k s hp ha hk hpo := by
    have hm := hl.more k s ha hk
    have he := hl.request k s ha hk
    obtain ⟨item, hite⟩ := hr k s ha hk hpo
    have hc := he.of_eq_ok hite
    unfold PipeLoop.turn PipeLoop.sendItem
    dsimp only
    rw [hite]
    cases item with
    | collected r pos =>
      rw [if_neg (not_not_intro hp), if_pos (hm.trans hc.1)]
      exact ⟨hp, rfl⟩
    | flushed r =>
      simp only [PipeSt.flush, if_true]
      rw [if_neg (not_not_intro hp)]
      split_ifs
      · exact ⟨hp, rfl⟩
      · exact hrec k _ hp (congrArg (· + 1) (ha.requested hk))

/-! ## The items and their commands -/

/-- What a command says of an item: what stands behind the verb, the length of the value and its
bytes. -/
structure Stated where
  argument : List Byte
  length : Nat
  data : List Byte

/-- The key, and the sub key of the item. -/
def PipedCall.argument (call : PipedCall) (query : Query) (eflag : Option Hexadecimal) : List Byte :=
  call.key.bytes ++
    if call.verb = .mopInsert then bytesOf space ++ query.subKey.mkey.stated
    else
      match itemSubKey call.stack query eflag call.verb with
      | .ok subKey => bytesOf subKey
      | .error _ => []

/-- The number of items as an `int`. -/
theorem toNat_toInt (count : Nat) : (toInt count).toNat ≤ count ∧
    ((toInt count).toNat = count ↔ count < 2 ^ 31) ∧ (count = 2 ^ 31 → toInt count ≤ 0) := by
  unfold toInt
  rw [Int.bmod_def]
  split_ifs
  · omega
  · omega

namespace PipeCall

def key : PipeCall → KeyMemory
  | .insert call => call.key
  | .exist call => call.key

def verb : PipeCall → Verb
  | .insert call => call.verb
  | .exist _ => .sopExist

/-- The text of the attributes in each command. -/
def attributes : PipeCall → CStr
  | .insert call => itemAttributes call.attributes call.verb
  | .exist _ => []

def items : PipeCall → List Stated
  | .insert call => call.items.map fun item =>
      ⟨call.argument item.1 item.2, item.1.valueLength, item.1.value.take item.1.valueLength⟩
  | .exist call => call.values.map fun value => ⟨call.key.bytes, value.length, value⟩

/-- How often the loop is run: as the number of items says, as an `int` in `do_coll_piped_insert`. -/
def rounds : PipeCall → Nat
  | .insert call => (toInt call.count).toNat
  | .exist call => call.count

/-- The command of item `k` of `n`, with this number printed for a length. -/
def commandWith (call : PipeCall) (n : Nat) (print : Nat → Nat) (k : Nat) : List Byte :=
  match call.items[k]? with
  | some item => Coll.command call.verb item.argument (print item.length) call.attributes (pipes n k)
      item.data
  | none => Coll.command call.verb [] 0 [] false []

def command (call : PipeCall) : Nat → List Byte := call.commandWith call.count id

def printedCommand (call : PipeCall) : Nat → List Byte := call.commandWith call.rounds (· % 2 ^ 32)

/-- The numbers of items and of bytes fit the types that they are cast to. -/
def Fits : PipeCall → Prop
  | .insert call => call.count < 2 ^ 31 ∧ ∀ item ∈ call.items, item.1.valueLength < 2 ^ 32
  | .exist call => ∀ value ∈ call.values, value.length < 2 ^ 32

/-- All requests can be built.  Those of an existence check always can. -/
def Builds : PipeCall → Prop
  | .insert call => Coll.Builds call
  | .exist _ => True

variable {call : PipeCall}

theorem length_items (call : PipeCall) : call.items.length = call.count := by
  cases call <;> exact length_map _

theorem rounds_le (call : PipeCall) : call.rounds ≤ call.count := by
  cases call with
  | exist call => exact le_rfl
  | insert call => exact (toNat_toInt call.count).1

theorem fits_iff : call.Fits ↔ call.rounds = call.count ∧
    ∀ item ∈ call.items, item.length < 2 ^ 32 := by
  cases call with
  | exist call => simp [Fits, rounds, count, items]
  | insert call =>
    simp only [Fits, rounds, count, items, (toNat_toInt call.count).2.1, forall_mem_map]

theorem attributes_head (call : PipeCall) : ∀ b ∈ call.attributes.head?, isDigit b = false := by
  cases call with
  | exist call => exact fun b hb => absurd hb (by simp [attributes])
  | insert call => exact itemAttributes_head call.attributes call.verb

theorem commandWith_ne_nil (n : Nat) (print : Nat → Nat) (k : Nat) :
    call.commandWith n print k ≠ [] := by
  rw [commandWith]
  split
  · apply command_ne_nil
  · apply command_ne_nil

/-- The commands as they are printed differ from those of the arguments in a length or an option. -/
theorem printedCommand_distinct (k : Nat) (a b : List Byte)
    (h : call.printedCommand k ++ a = call.command k ++ b) :
    call.printedCommand k = call.command k := by
  rw [printedCommand, command, commandWith, commandWith] at h ⊢
  cases hite : call.items[k]? with
  | none => rfl
  | some item =>
    rw [hite] at h
    dsimp only at h ⊢
    obtain ⟨hl, hp⟩ := command_inj call.attributes_head h
    rw [hl, hp]

/-! ## The requests of the items -/

theorem more_eq {s : PipeSt} (h : AtItem call.rounds k s) (hk : k < call.rounds) :
    call.loop.more { s with requestedItems := s.requestedItems + 1 } = pipes call.rounds k := by
  have hi := h.index
  have hr := h.requested hk
  cases call with
  | insert call =>
    simp only [loop, PipedCall.loop, PipedCall.more, hi, hr]
    exact not_last_eq_pipes (by rw [rounds]; omega)
  | exist call =>
    simp only [loop, ExistCall.loop, ExistCall.more, hi, hr]
    exact not_last_eq_pipes (by rw [rounds]; omega)

end PipeCall

theorem PipedCall.itemRequest_carries {call : PipedCall} (h : call.Terminated)
    (hn : call.client.noReply = false) (hm : (query, eflag) ∈ call.items) (piped : Bool) :
    Ends IsRefusal (fun r => r.key = call.key.bytes ∧
        r.wire = Coll.command call.verb (call.argument query eflag) (query.valueLength % 2 ^ 32)
          (itemAttributes call.attributes call.verb) piped (query.value.take query.valueLength))
      (itemRequest { call.client with piped := piped } call.stack call.key.bytes query eflag
        call.attributes call.verb) := by
  cases hs : itemSubKey call.stack query eflag call.verb with
  | error refusal =>
    rw [itemRequest, hs]
    exact (itemSubKey_ends call.stack query eflag call.verb).of_eq_error hs
  | ok subKey =>
    have ha : call.argument query eflag = call.key.bytes ++ bytesOf subKey := by
      rw [argument]
      split_ifs with hv
      · rw [hv] at hs
        rw [mkeyText_ok hs, Strtok.bytesOf_append,
          show bytesOf (cString query.subKey.mkey.string) = query.subKey.mkey.stated from
            h.mkeys hv _ hm]
      · rw [hs]
    rw [itemRequest, hs]
    refine (fits_refusal _ _).bind fun line hl => ?_
    subst hl
    refine ⟨rfl, ?_⟩
    have ho : replyOption { call.client with piped := piped } = if piped then [.pipe] else [] :=
      replyOption_eq hn
    rw [ha, Coll.command, ho]
    simp only [Request.wire, chars, unsignedText, flatMap_append, flatMap_singleton,
      Piece.chars, Strtok.bytesOf_append, append_assoc]

/-- The command line is short, so the request of an item is always built. -/
theorem existRequest_eq (c : Client) (hn : c.noReply = false) (key value : List Byte)
    (verb : Verb) :
    existRequest c key value verb = .ok ⟨verb, key, [.text (space ++ unsignedText value.length)] ++
      if c.piped then [.pipe] else [], some value⟩ := by
  have hd : (unsignedText value.length).length ≤ 10 := by
    refine length_decimal_le (by decide) ?_
    omega
  have hl : (chars ([.text (space ++ unsignedText value.length)] ++
      if c.piped then [.pipe] else [])).length < defaultCommandSize - crlf.length := by
    have hs : space.length = 1 := rfl
    have hp : Piece.pipe.chars.length = 5 := rfl
    have hsi : defaultCommandSize - crlf.length = 510 := rfl
    cases c.piped <;>
      simp only [chars, flatMap_append, flatMap_singleton, Piece.chars, length_append,
        if_true, if_false, append_nil, false_eq_true] <;>
      simp only [Piece.chars] at hp <;> omega
  rw [existRequest, replyOption_eq hn, fits, if_neg (Nat.not_le.2 hl)]
  rfl

namespace PipeCall

variable {call : PipeCall}

/-- The request of item `k` is built, and then collected or sent. -/
theorem request_eq (h : call.Terminated) (hn : call.client.noReply = false) {s : PipeSt}
    (ha : AtItem call.rounds k s) (hk : k < call.rounds) : ∃ built : Except Refusal Request,
      call.loop.request { s with requestedItems := s.requestedItems + 1 } =
        built >>= collectOrFlush { call.client with piped := pipes call.rounds k } call.key
          s.pipeBufferPos ∧
      Ends IsRefusal (fun r => r.key = call.key.bytes ∧ r.wire = call.printedCommand k) built ∧
      (call.Builds → s.pipeBufferPos ≤ maxPipedBufferSize →
        ∃ item, call.loop.request { s with requestedItems := s.requestedItems + 1 } = .ok item) := by
  have hin : s.i.toNat = k := by rw [ha.index]; rfl
  have hm := more_eq ha hk
  have hl : k < call.items.length := (hk.trans_le call.rounds_le).trans_eq call.length_items.symm
  cases call with
  | insert call =>
    rw [items, length_map] at hl
    rcases hite : call.items[k] with ⟨query, eflag⟩
    have hg : call.items[k]? = some (query, eflag) := by rw [getElem?_eq_getElem hl, hite]
    have hme : (query, eflag) ∈ call.items := hite ▸ getElem_mem hl
    have hr : call.request { s with requestedItems := s.requestedItems + 1 } =
        internalCollPipedInsert { call.client with
            piped := call.more { s with requestedItems := s.requestedItems + 1 } }
          call.stack s.pipeBufferPos call.key query eflag call.attributes call.verb := by
      rw [PipedCall.request, if_neg (by rw [ha.index]; omega), hin, hg]
    refine ⟨itemRequest { call.client with piped := pipes (toInt call.count).toNat k } call.stack
      call.key.bytes query eflag call.attributes call.verb, hr.trans ?_, ?_, fun hb hp => ?_⟩
    · rw [internalCollPipedInsert_eq, show call.more _ = _ from hm]
      rfl
    · refine (call.itemRequest_carries h hn hme _).imp (fun _ he => he) fun r hw => ⟨hw.1, ?_⟩
      rw [printedCommand, commandWith, items, getElem?_map, hg, hw.2]
      rfl
    · obtain ⟨item, hbu⟩ := hb _ s.pipeBufferPos query eflag hp hme
      exact ⟨item, hr.trans hbu⟩
  | exist call =>
    rw [items, length_map] at hl
    have hg : call.values[k]? = some call.values[k] := getElem?_eq_getElem hl
    have hb : existRequest { call.client with piped := pipes call.count k } call.key.bytes
        call.values[k] .sopExist = .ok ⟨.sopExist, call.key.bytes,
          [.text (space ++ unsignedText call.values[k].length)] ++
            if pipes call.count k then [.pipe] else [], some call.values[k]⟩ :=
      existRequest_eq { call.client with piped := pipes call.count k } hn _ _ _
    have hr : call.request { s with requestedItems := s.requestedItems + 1 } =
        existRequest { call.client with piped := pipes call.count k } call.key.bytes call.values[k]
            .sopExist >>=
          collectOrFlush { call.client with piped := pipes call.count k } call.key
            s.pipeBufferPos := by
      rw [ExistCall.request, hin, hg, show call.more _ = _ from hm]
      exact internalCollPipedExist_eq ..
    refine ⟨_, hr, ?_, fun _ _ => ?_⟩
    · rw [hb]
      refine ⟨rfl, ?_⟩
      rw [printedCommand, commandWith, items, getElem?_map, hg]
      simp only [Option.map_some, Coll.command, unsignedText, attributes, append_nil]
      rfl
    · rw [show PipeLoop.request _ _ = _ from hr, hb]
      exact collectOrFlush_ok (le_of_eq (congrArg length h)) _ _ rfl

/-! ## Both functions -/

theorem enters_iff {s : PipeSt} (hp : s.phase = .looping) (ha : AtItem call.rounds k s) :
    call.loop.enters s = true ↔ k < call.rounds := by
  have hi := ha.index
  cases call with
  | insert call =>
    have hif : ((k : Int) < toInt call.count) ↔ k < (toInt call.count).toNat := by omega
    exact decide_eq_true_iff.trans ((and_iff_right hp).trans (hi ▸ hif))
  | exist call => simp [loop, ExistCall.loop, hp, hi, rounds]

theorem batches (h : call.Terminated) (hn : call.client.noReply = false) :
    Batches call.loop call.rounds call.printedCommand where
  looping s he := by
    cases call with
    | insert call => exact (of_decide_eq_true he).1
    | exist call => exact of_decide_eq_true (and_eq_true _ _ ▸ he).1
  enters k s hp ha := enters_iff hp ha
  more k s ha hk := more_eq ha hk
  request k s ha hk := by
    obtain ⟨built, hr, hb, -⟩ := request_eq h hn ha hk
    rw [hr]
    refine hb.bind fun r hw => hw.2 ▸ collectOrFlush_carries ?_ hw.1
    cases call with
    | insert call => exact h.key
    | exist call => exact h
  receive answer s hp := by
    cases call with
    | insert call =>
      have hs := settleAnswer_settles (fun rc => rc = .stored ∨ rc = .createdStored) answer hp
      simp only [loop, PipedCall.loop, receive, Bool.and_false, false_eq_true, if_false]
      exact hs
    | exist call => exact settleAnswer_settles _ answer hp

theorem completes (h : call.Terminated) (hn : call.client.noReply = false) (hb : call.Builds) :
    ∃ accepting, Completes call.loop call.rounds accepting := by
  cases call with
  | insert call =>
    refine ⟨_, (batches h hn).completes (acceptingAnswer .stored) (fun k s ha hk hp => ?_)
      fun k s hp hr => ?_⟩
    · obtain ⟨-, -, -, hi⟩ := request_eq h hn ha hk
      exact hi hb hp
    · simp only [loop, PipedCall.loop, receive, Bool.and_false, false_eq_true, if_false]
      exact settleAnswer_accepting _ (Or.inl rfl) k hp hr
  | exist call =>
    refine ⟨_, (batches h hn).completes (acceptingAnswer .exist) (fun k s ha hk hp => ?_)
      fun k s hp hr => settleAnswer_accepting _ (Or.inl rfl) k hp hr⟩
    obtain ⟨-, -, -, hi⟩ := request_eq h hn ha hk
    exact hi trivial hp

theorem fits_of_streamsExactly (h : call.Terminated) (hn : call.client.noReply = false)
    (hb : call.Builds) (he : StreamsExactly call.loop call.count call.command) : call.Fits := by
  obtain ⟨accepting, ha⟩ := completes h hn hb
  obtain ⟨hc, hco⟩ := of_streamsExactly (batches h hn) ha printedCommand_distinct
    (commandWith_ne_nil _ _) (commandWith_ne_nil _ _) he
  refine fits_iff.2 ⟨hc, fun item hm => ?_⟩
  obtain ⟨k, hk, hite⟩ := getElem_of_mem hm
  have hs := hco k (by rwa [hc, ← call.length_items])
  have hg : call.items[k]? = some item := by rw [getElem?_eq_getElem hk, hite]
  rw [printedCommand, command, commandWith, commandWith, hg] at hs
  obtain ⟨hl, -⟩ := command_inj call.attributes_head (congrArg (· ++ []) hs)
  exact (show item.length % 2 ^ 32 = item.length from hl) ▸ Nat.mod_lt _ (by decide)

end PipeCall

/-- The commands of the items are sent if the sizes fit the types that they are cast to.  If all
requests can be built, this is so only then. -/
theorem piped_stream_iff {call : PipeCall} (h : call.Terminated)
    (hnoReply : call.client.noReply = false) :
    (call.Fits → StreamsExactly call.loop call.count call.command) ∧
      (call.Builds → StreamsExactly call.loop call.count call.command → call.Fits) := by
  refine ⟨fun hf => ?_, PipeCall.fits_of_streamsExactly h hnoReply⟩
  obtain ⟨hc, hl⟩ := PipeCall.fits_iff.1 hf
  refine streamsExactly (PipeCall.batches h hnoReply) hc fun k _ => ?_
  rw [PipeCall.printedCommand, PipeCall.command, hc, PipeCall.commandWith, PipeCall.commandWith]
  cases hite : call.items[k]? with
  | none => rfl
  | some item =>
    dsimp only
    rw [Nat.mod_eq_of_lt (hl item (mem_of_getElem? hite))]
    rfl

/-- Two elements of a set. -/
theorem piped_stream_two :
    let call := PipeCall.insert (setInsertion [[97], [98]])
    StreamsExactly call.loop 2 call.command :=
  have h : (PipeCall.insert (setInsertion [[97], [98]])).Terminated := ⟨rfl, Verb.noConfusion⟩
  (piped_stream_iff h rfl).1 ⟨by decide, by decide⟩

def largeValue (size : Nat) : ExistCall := ⟨pipingClient, ⟨[107], [0]⟩, [List.replicate size 0]⟩

/-- With `2 ^ 31` items nothing is inserted, and a value of `2 ^ 32` bytes has the length zero in its
command. -/
theorem piped_stream_too_large :
    (∃ call : PipedCall, call.Terminated ∧ call.client.noReply = false ∧ call.count = 2 ^ 31 ∧
      ∀ turns, call.loop.stream turns streamStart = streamStart) ∧
    ∃ call : ExistCall, call.key.Terminated ∧ call.client.noReply = false ∧
      ¬StreamsExactly call.loop call.count (PipeCall.exist call).command := by
  constructor
  · obtain ⟨count, hc⟩ : ∃ count, count = 2 ^ 31 := ⟨_, rfl⟩
    have hl : (setInsertion (replicate count [])).count = count := by
      rw [PipedCall.count, setInsertion, length_map, length_replicate]
    refine ⟨setInsertion (replicate count []), ⟨rfl, Verb.noConfusion⟩, rfl, hl.trans hc, ?_⟩
    have hle : (setInsertion (replicate count [])).loop.enters streamStart.pipe ≠ true := by
      rw [ne_eq, PipedCall.loop, decide_eq_true_eq]
      rintro ⟨-, hles⟩
      rw [hl] at hles
      exact absurd hles (not_lt_of_ge ((toNat_toInt count).2.2 hc))
    intro turns
    cases turns with
    | nil => rfl
    | cons env rest => rw [stream, if_neg hle]
  · obtain ⟨size, hs⟩ : ∃ size, size = 2 ^ 32 := ⟨_, rfl⟩
    refine ⟨largeValue size, rfl, rfl, fun he => ?_⟩
    have hk : (PipeCall.exist (largeValue size)).Terminated := rfl
    have hles := PipeCall.fits_of_streamsExactly hk rfl trivial he (replicate size 0) mem_cons_self
    rw [length_replicate] at hles
    omega

end ArcusClient.Coll
