import ArcusClient.Io.Read

/-!
# Reads do not depend on packets

A reader of a stream takes bytes from the front of what is still to come (`Stream`).  The functions
with the read buffer do the same: what they see are the unread bytes followed by the chunks of the
network (`Reader.toStream`).  So two programs with the same reads return the same, whatever the chunks
and wherever the repacks are (`reads_ignore_packets`), if a line has room for a byte and
`read_data_length` is zero when the connection starts.  `memcached_quit_server` leaves this member as
it is (`reads_depend_on_packets`).
-/

namespace ArcusClient.Io

open Memory List

/-! ## Streams -/

structure Stream where
  rest : List Byte
  isOpen : Bool
  ending : Ending

namespace Stream

def stop (st : Stream) : Stream := { st with rest := [], isOpen := decide (st.ending = .timeout) }

def read (length : Nat) (hasBuffer : Bool) (st : Stream) : Reader.Answer × Stream :=
  if !st.isOpen then ((.connectionFailure, []), st)
  else if length ≤ st.rest.length then
    ((.success, if hasBuffer then st.rest.take length else []),
      { st with rest := st.rest.drop length })
  else ((st.ending.code, if hasBuffer then st.rest else []), st.stop)

/-- The line at the front of some bytes, with room for a number of bytes, and the code.  There is
no code if the bytes end before the line does. -/
def lineOf : Nat → List Byte → List Byte × Option ReturnT
  | 0, _ => ([], some .protocolError)
  | _ + 1, [] => ([], none)
  | room + 1, byte :: rest =>
    if room = 0 then ([byte], some .protocolError)
    else if byte = Reader.newline then ([byte], some .success)
    else (byte :: (lineOf room rest).1, (lineOf room rest).2)

def readline (size : Nat) (st : Stream) : Reader.Answer × Stream :=
  if !st.isOpen then ((.connectionFailure, []), st)
  else
    match lineOf size st.rest with
    | (line, some rc) => ((rc, line), { st with rest := st.rest.drop line.length })
    | (line, none) => ((st.ending.code, line), { st with rest := [], isOpen := false })

theorem read_eq (st : Stream) (length : Nat) (hasBuffer : Bool) : st.read length hasBuffer =
      (((st.read length true).1.1, if hasBuffer then (st.read length true).1.2 else []),
        (st.read length true).2) := by
  cases hasBuffer with
  | true => rfl
  | false =>
    simp only [read]
    split_ifs <;> rfl

theorem read_add (st : Stream) (ho : st.isOpen = true) (hk : k ≤ st.rest.length)
    (m : Nat) : st.read (k + m) true = (((read m true { st with rest := st.rest.drop k }).1.1,
        st.rest.take k ++ (read m true { st with rest := st.rest.drop k }).1.2),
        (read m true { st with rest := st.rest.drop k }).2) := by
  simp only [read, ho, Bool.not_true, Bool.false_eq_true, if_false, if_true, length_drop]
  by_cases hl : k + m ≤ st.rest.length
  · rw [if_pos hl, if_pos (by omega)]
    simp [take_add]
  · rw [if_neg hl, if_neg (by omega)]
    simp [stop]

end Stream

/-- The bytes at the front of the rest that a part of the loop has read.  The flag tells that they
end with a newline, which comes nowhere else. -/
inductive Scanned : Nat → List Byte → List Byte → Bool → Prop
  | stop {room : Nat} {rest : List Byte} : Scanned room rest [] false
  | newline {room : Nat} {rest : List Byte} :
      Scanned (room + 1) (Reader.newline :: rest) [Reader.newline] true
  | cons {room : Nat} {rest bytes : List Byte} {complete : Bool} {byte : Byte} :
      byte ≠ Reader.newline → Scanned room rest bytes complete →
      Scanned (room + 1) (byte :: rest) (byte :: bytes) complete

theorem lineOf_of_scanned (h : Scanned room rest bytes complete) : Stream.lineOf room rest =
      if bytes.length = room then (bytes, some .protocolError)
      else if complete then (bytes, some .success)
      else (bytes ++ (Stream.lineOf (room - bytes.length) (rest.drop bytes.length)).1,
        (Stream.lineOf (room - bytes.length) (rest.drop bytes.length)).2) := by
  induction h with
  | @stop room rest =>
    cases room with
    | zero => simp [Stream.lineOf]
    | succ room => simp
  | @newline room rest =>
    cases room with
    | zero | succ room => simp [Stream.lineOf]
  | @cons room rest bytes complete byte hb hs ih =>
    cases room with
    | zero =>
      cases hs
      simp [Stream.lineOf]
    | succ room =>
      rw [Stream.lineOf, if_neg (Nat.succ_ne_zero _), if_neg hb, ih]
      simp only [length_cons, Nat.add_right_cancel_iff, Nat.add_sub_add_right]
      split_ifs
      · rfl
      · rfl
      · rfl

theorem Scanned.append (h : Scanned room rest bytes false)
    (h' : Scanned (room - bytes.length) (rest.drop bytes.length) bytes' complete) :
    Scanned room rest (bytes ++ bytes') complete := by
  generalize hf : false = flag at h
  induction h with
  | stop => exact h'
  | newline => cases hf
  | cons hb _ ih =>
    rw [length_cons, Nat.add_sub_add_right] at h'
    exact .cons hb (ih h' hf)

theorem Scanned.length_le (h : Scanned room rest bytes complete) : bytes.length ≤ room := by
  induction h with
  | stop => exact Nat.zero_le _
  | newline => exact Nat.succ_le_succ (Nat.zero_le _)
  | cons _ _ ih => exact Nat.succ_le_succ ih

theorem Scanned.length_le_rest
    (h : Scanned room rest bytes complete) : bytes.length ≤ rest.length := by
  induction h with
  | stop => exact Nat.zero_le _
  | newline => exact Nat.succ_le_succ (Nat.zero_le _)
  | cons _ _ ih => exact Nat.succ_le_succ ih

theorem Scanned.ne_nil (h : Scanned room rest bytes true) : bytes ≠ [] := by
  cases h with
  | newline | cons => exact cons_ne_nil _ _

section Readline

variable (st : Stream) {room : Nat} {bytes : List Byte} {complete : Bool}

theorem readline_of_full (ho : st.isOpen = true) (h : Scanned room st.rest bytes complete)
    (hf : bytes.length = room) : st.readline room =
      ((.protocolError, bytes), { st with rest := st.rest.drop bytes.length }) := by
  simp only [Stream.readline, ho, lineOf_of_scanned h, if_pos hf]
  rfl

theorem readline_of_complete (ho : st.isOpen = true) (h : Scanned room st.rest bytes true)
    (hr : bytes.length ≠ room) :
    st.readline room = ((.success, bytes), { st with rest := st.rest.drop bytes.length }) := by
  simp only [Stream.readline, ho, lineOf_of_scanned h, if_neg hr]
  rfl

theorem readline_of_part (ho : st.isOpen = true) (h : Scanned room st.rest bytes false)
    (hr : bytes.length ≠ room) : st.readline room =
      (((Stream.readline (room - bytes.length) { st with rest := st.rest.drop bytes.length }).1.1,
        bytes ++
          (Stream.readline (room - bytes.length) { st with rest := st.rest.drop bytes.length }).1.2),
        (Stream.readline (room - bytes.length) { st with rest := st.rest.drop bytes.length }).2) := by
  simp only [Stream.readline, ho, lineOf_of_scanned h, if_neg hr, Bool.not_true,
    Bool.false_eq_true, if_false]
  rcases Stream.lineOf (room - bytes.length) (st.rest.drop bytes.length) with ⟨line, _ | rc⟩
  · rfl
  · simp only [drop_drop, length_append]

end Readline

/-! ## Buffers -/

namespace Reader

def rest (s : Reader) : List Byte := s.unread ++ s.chunks.flatten

def toStream (s : Reader) : Stream := ⟨s.rest, s.isOpen, s.ending⟩

/-- The members of a reader agree, and everything of a given stream was consumed, is in the
buffer or is still to come. -/
structure Sound (stream : List Byte) (s : Reader) : Prop where
  data : s.isOpen = true → s.readPtr + s.readBufferLength = s.readDataLength
  closed : s.isOpen = false → s.readBufferLength = 0
  /-- The unread bytes do not pass the end of the buffer. -/
  bound : s.readPtr + s.readBufferLength ≤ maxBuffer
  chunks : ∀ chunk ∈ s.chunks, chunk ≠ []
  received : s.consumed ++ s.unread = s.received
  all : s.received ++ s.chunks.flatten = stream

variable {stream : List Byte} {s : Reader}

@[simp] theorem length_unread (s : Reader) : s.unread.length = s.readBufferLength := length_slice ..

theorem recv_of_nil (h : s.chunks = []) (index room : Nat) : s.recv index room = none := by
  rw [recv, h]

/-- A `recv` moves bytes from the chunks to the buffer. -/
theorem recv_of_ne_nil (h : s.chunks ≠ []) (hch : ∀ chunk ∈ s.chunks, chunk ≠ [])
    (index room : Nat) (hr : 0 < room) :
    ∃ bytes chunks, bytes ≠ [] ∧ bytes.length ≤ room ∧ bytes ++ chunks.flatten = s.chunks.flatten ∧
      (∀ chunk ∈ chunks, chunk ≠ []) ∧ s.recv index room = some (bytes.length, { s with
        readBuffer := store s.readBuffer index bytes
        chunks := chunks
        received := s.received ++ bytes }) := by
  rw [recv]
  cases hca : s.chunks with
  | nil => exact absurd hca h
  | cons chunk chunks =>
    rw [hca] at hch
    have hn : chunk ≠ [] := hch chunk (.head _)
    refine ⟨chunk.take room, _, ?_, length_take_le .., ?_, ?_, rfl⟩
    · rw [Ne, take_eq_nil_iff, not_or]
      exact ⟨by omega, hn⟩
    · split_ifs with hl
      · rw [take_of_length_le hl, flatten_cons]
      · rw [flatten_cons, ← append_assoc, take_append_drop, flatten_cons]
    · intro c hc
      split_ifs at hc with hl
      · exact hch c (.tail _ hc)
      · rcases mem_cons.1 hc with rfl | hc
        · rw [Ne, drop_eq_nil_iff]
          omega
        · exact hch c (.tail _ hc)

theorem ending_code_ne_success (e : Ending) : e.code ≠ .success := by
  cases e <;> simp [Ending.code]

theorem quitServer_sound (h : s.Sound stream) (he : s.readBufferLength = 0) :
    s.quitServer.Sound stream ∧ s.quitServer.toStream = { s.toStream with isOpen := false } := by
  have hu : s.unread = [] := by rw [unread, he, slice_zero]
  refine ⟨⟨fun ho => (by cases ho), fun _ => rfl, Nat.zero_le _, h.chunks, ?_, h.all⟩, ?_⟩
  · have hr := h.received
    rw [hu] at hr
    exact hr
  · simp only [toStream, rest, hu]
    rfl

theorem ioFill_of_nil (h : s.Sound stream) (ho : s.isOpen = true)
    (he : s.readBufferLength = 0) (hn : s.chunks = []) :
    ∃ s', s.ioFill = (s.ending.code, s') ∧ s'.Sound stream ∧ s'.toStream = s.toStream.stop ∧
      s'.readBufferLength = 0 := by
  have hr : s.rest = [] := by rw [rest, unread, he, hn]; rfl
  rw [ioFill, recv_of_nil hn]
  split_ifs with ht
  · refine ⟨s, rfl, h, ?_, he⟩
    simp [toStream, Stream.stop, hr, ho, ht]
  · obtain ⟨hs, hst⟩ := quitServer_sound h he
    refine ⟨s.quitServer, rfl, hs, ?_, rfl⟩
    rw [hst]
    simp [toStream, Stream.stop, hr, ht]

theorem ioFill_of_ne_nil (h : s.Sound stream) (ho : s.isOpen = true)
    (he : s.readBufferLength = 0) (hn : s.chunks ≠ []) :
    ∃ s', s.ioFill = (.success, s') ∧ s'.Sound stream ∧ s'.toStream = s.toStream ∧
      0 < s'.readBufferLength := by
  obtain ⟨bytes, chunks, hb, hl, hf, hc, hr⟩ :=
    recv_of_ne_nil hn h.chunks 0 maxBuffer (by decide)
  have hu : s.unread = [] := by rw [unread, he, slice_zero]
  have hre : s.consumed = s.received := by simpa [hu] using h.received
  have hs := slice_store s.readBuffer 0 bytes
  rw [ioFill, hr]
  refine ⟨_, rfl, ⟨fun _ => Nat.zero_add _, fun hcl => ?_, ?_, hc, ?_, ?_⟩, ?_, ?_⟩
  · rw [ho] at hcl
    cases hcl
  · rwa [Nat.zero_add]
  · rw [unread, hs, hre]
  · rw [append_assoc, hf, h.all]
  · simp only [toStream, rest, unread, hs, hf, he, slice_zero, nil_append]
  · exact length_pos_iff.2 hb

theorem moveToFront_sound (h : s.Sound stream) :
    s.moveToFront.Sound stream ∧ s.moveToFront.toStream = s.toStream ∧ s.moveToFront.readPtr = 0 ∧
      s.moveToFront.isOpen = s.isOpen := by
  rw [moveToFront]
  split_ifs with hp
  · exact ⟨h, rfl, hp, rfl⟩
  · have hu : slice (store s.readBuffer 0 s.unread) 0 s.readBufferLength = s.unread := by
      have hs := slice_store s.readBuffer 0 s.unread
      rwa [length_unread] at hs
    have hb := h.bound
    refine ⟨⟨fun _ => Nat.zero_add _, h.closed, ?_, h.chunks, ?_, h.all⟩, ?_, rfl, rfl⟩
    · dsimp only
      omega
    · rw [← h.received]
      exact congrArg _ hu
    · simp only [toStream, rest, unread] at hu ⊢
      rw [hu]

theorem repackInputBuffer_sound (h : s.Sound stream) (arrived : Bool) :
    (s.repackInputBuffer arrived).2.Sound stream ∧
      (s.repackInputBuffer arrived).2.toStream = s.toStream := by
  obtain ⟨hf, hs, hp, -⟩ := moveToFront_sound h
  rw [repackInputBuffer, ← hs]
  generalize s.moveToFront = s₁ at hf hp ⊢
  split_ifs with hr
  · obtain ⟨hfu, ho, -⟩ := hr
    have hd : s₁.readBufferLength = s₁.readDataLength := by
      have hd := hf.data ho
      rwa [hp, Nat.zero_add] at hd
    have hb := hf.bound
    by_cases hn : s₁.chunks = []
    · rw [recv_of_nil hn]
      exact ⟨hf, rfl⟩
    · obtain ⟨bytes, chunks, hby, hl, hfl, hc, hre⟩ :=
        recv_of_ne_nil hn hf.chunks (s₁.readPtr + s₁.readDataLength)
          (maxBuffer - s₁.readDataLength) (by omega)
      have hu : slice (store s₁.readBuffer (0 + s₁.readBufferLength) bytes) 0
          (s₁.readBufferLength + bytes.length) = s₁.unread ++ bytes := by
        rw [slice_store_append, unread, hp]
      rw [hp, ← hd] at hre
      obtain ⟨nr, hnr⟩ := Nat.exists_eq_succ_of_ne_zero (mt length_eq_zero_iff.1 hby)
      rw [hp, ← hd, hre]
      simp only [hnr] at hu ⊢
      refine ⟨⟨fun _ => ?_, fun hcl => ?_, ?_, hc, ?_, ?_⟩, ?_⟩
      · dsimp only
        omega
      · rw [ho] at hcl
        cases hcl
      · dsimp only
        omega
      · rw [← hf.received, append_assoc, ← hu]
        rfl
      · rw [append_assoc, hfl, hf.all]
      · simp only [toStream, rest, unread] at hu ⊢
        rw [hu, append_assoc, hfl]
  · exact ⟨hf, rfl⟩

theorem consume_sound (h : s.Sound stream) (hk : k ≤ s.readBufferLength) :
    (s.consume k).Sound stream ∧ (s.consume k).toStream =
    { s.toStream with rest := s.rest.drop k } ∧
      slice s.readBuffer s.readPtr k = s.rest.take k := by
  have hu : s.unread = slice s.readBuffer s.readPtr k ++ (s.consume k).unread := by
    rw [unread, unread, consume, ← slice_add, Nat.add_sub_cancel' hk]
  have hl : (slice s.readBuffer s.readPtr k).length = k := length_slice ..
  refine ⟨⟨fun ho => ?_, fun hc => ?_, ?_, h.chunks, ?_, h.all⟩, ?_, ?_⟩
  · have hd := h.data ho
    simp only [consume]
    omega
  · have hc' := h.closed hc
    simp only [consume]
    omega
  · have hb := h.bound
    simp only [consume]
    omega
  · have hr := h.received
    rw [hu, ← append_assoc] at hr
    exact hr
  · have hdr : s.rest.drop k = (s.consume k).rest := by
      rw [rest, hu, append_assoc, drop_append_of_le_length hl.ge, drop_of_length_le hl.le]
      rfl
    rw [hdr]
    rfl
  · rw [rest, hu, append_assoc, take_append_of_le_length hl.ge, take_of_length_le hl.le]

/-! ## The calls -/

theorem ioReadLoop_spec : ∀ (fuel remains : Nat) (bytes : List Byte) {s : Reader},
    remains ≤ fuel → s.Sound stream → s.isOpen = true →
    ∃ s', s'.Sound stream ∧ s'.toStream = (s.toStream.read remains true).2 ∧
      ioReadLoop fuel remains bytes s =
        some (((s.toStream.read remains true).1.1, bytes ++ (s.toStream.read remains true).1.2), s')
  | fuel, 0, bytes, s, _, h, ho => by
    refine ⟨s, h, ?_, ?_⟩
    · simp [Stream.read, toStream, ho]
    · simp [ioReadLoop, Stream.read, toStream, ho]
  | fuel + 1, remains + 1, bytes, s, hf, h, ho => by
    by_cases he : s.readBufferLength = 0 ∧ s.chunks = []
    · -- The stream ends here.
      obtain ⟨s', hfi, hs, hst, -⟩ := ioFill_of_nil h ho he.1 he.2
      have hr : s.toStream.read (remains + 1) true = ((s.ending.code, []), s.toStream.stop) := by
        simp [Stream.read, toStream, rest, unread, ho, he.1, he.2]
      rw [hr]
      refine ⟨s', hs, hst, ?_⟩
      rw [ioReadLoop, if_pos he.1, hfi]
      simp [ending_code_ne_success]
    · -- There are unread bytes, maybe after a fill.
      obtain ⟨s₁, hfi, hs, hst, hp⟩ : ∃ s₁,
          (if s.readBufferLength = 0 then s.ioFill else (.success, s)) = (.success, s₁) ∧
            s₁.Sound stream ∧ s₁.toStream = s.toStream ∧ 0 < s₁.readBufferLength := by
        split_ifs with hem
        · exact ioFill_of_ne_nil h ho hem fun hn => he ⟨hem, hn⟩
        · exact ⟨s, rfl, h, rfl, Nat.pos_of_ne_zero hem⟩
      rw [ioReadLoop, hfi, ← hst]
      simp only [if_false]
      generalize hd : (if 1 < remains + 1 then min (remains + 1) s₁.readBufferLength else 1) = k
      have hk : 1 ≤ k ∧ k ≤ remains + 1 ∧ k ≤ s₁.readBufferLength := by
        rw [← hd]
        split_ifs <;> omega
      obtain ⟨hs₁, hst₁, ht⟩ := consume_sound hs hk.2.2
      have ho₁ : s₁.isOpen = true := by
        rw [show s₁.isOpen = s.isOpen from congrArg Stream.isOpen hst, ho]
      have hres : k ≤ s₁.toStream.rest.length := by
        simp only [toStream, rest, length_append, length_unread]
        omega
      obtain ⟨s', hs', hst', hl⟩ := ioReadLoop_spec fuel (remains + 1 - k)
        (bytes ++ slice s₁.readBuffer s₁.readPtr k) (by omega) hs₁ ho₁
      have hsp := Stream.read_add s₁.toStream ho₁ hres (remains + 1 - k)
      rw [Nat.add_sub_cancel' hk.2.1] at hsp
      rw [hst₁] at hst' hl
      refine ⟨s', hs', ?_, ?_⟩
      · rw [hsp]
        exact hst'
      · rw [hl, hsp, ht, append_assoc]
        rfl

theorem memcachedIoRead_spec (length : Nat) (hasBuffer : Bool) (h : s.Sound stream) :
    ∃ s', s'.Sound stream ∧ s'.toStream = (s.toStream.read length hasBuffer).2 ∧
      memcachedIoRead length hasBuffer s = some ((s.toStream.read length hasBuffer).1, s') := by
  rw [memcachedIoRead]
  cases ho : s.isOpen with
  | false => exact ⟨s, h, by simp [Stream.read, toStream, ho], by simp [Stream.read, toStream, ho]⟩
  | true =>
    obtain ⟨s', hs, hst, hl⟩ := ioReadLoop_spec length length [] (le_refl _) h ho
    rw [Stream.read_eq]
    refine ⟨s', hs, hst, ?_⟩
    rw [hl]
    rfl

/-- The inner loop scans unread bytes.  It stops at a newline, or when there is no room or
nothing unread. -/
theorem copyLine_spec : ∀ (left room : Nat) (line : List Byte) {s : Reader},
    s.readBufferLength = left → s.Sound stream →
    ∃ bytes complete s', copyLine left room line s = (complete, line ++ bytes, s') ∧
      Scanned room s.rest bytes complete ∧ s'.Sound stream ∧
      s'.toStream = { s.toStream with rest := s.rest.drop bytes.length } ∧
      (0 < left → 0 < room → bytes ≠ [])
  | 0, room, line, s, _, h =>
    ⟨[], false, s, by simp [copyLine], .stop, h, rfl, fun hl => absurd hl (lt_irrefl _)⟩
  | left + 1, 0, line, s, _, h =>
    ⟨[], false, s, by simp [copyLine], .stop, h, rfl, fun _ hl => absurd hl (lt_irrefl _)⟩
  | left + 1, room + 1, line, s, hle, h => by
    obtain ⟨hs, hst, ht⟩ := consume_sound h (k := 1) (by omega)
    have hr : s.rest = s.readBuffer s.readPtr :: s.rest.drop 1 := by
      have hb : slice s.readBuffer s.readPtr 1 = [s.readBuffer s.readPtr] := rfl
      rw [hb] at ht
      rw [← singleton_append, ht, take_append_drop]
    rw [copyLine]
    split_ifs with hn
    · refine ⟨[newline], true, s.consume 1, by rw [hn], ?_, hs, hst,
        fun _ _ => cons_ne_nil _ _⟩
      rw [hr, hn]
      exact .newline
    · have hl₁ : (s.consume 1).readBufferLength = left := by
        simp only [consume]
        omega
      obtain ⟨bytes, complete, s', hc, hsc, hs', hst', -⟩ :=
        copyLine_spec left room (line ++ [s.readBuffer s.readPtr]) hl₁ hs
      have hd : (s.consume 1).rest = s.rest.drop 1 := congrArg Stream.rest hst
      rw [hd] at hsc hst'
      rw [hst, drop_drop] at hst'
      refine ⟨s.readBuffer s.readPtr :: bytes, complete, s', ?_, ?_, hs', ?_,
        fun _ _ => cons_ne_nil _ _⟩
      · rw [hc, append_assoc, singleton_append]
      · rw [hr]
        exact .cons hn hsc
      · rw [hst', length_cons, Nat.add_comm]

theorem readlineFill_of_end (line : List Byte) (h : s.Sound stream) (ho : s.isOpen = true)
    (hr : s.rest = []) :
    ∃ s', s'.Sound stream ∧ s'.toStream = s.toStream.stop ∧ s'.readBufferLength = 0 ∧
      readlineFill line s = some ((s.ending.code, line), false, s') := by
  obtain ⟨s', hs, hst, hre⟩ := memcachedIoRead_spec 1 true h
  have he : s.toStream.read 1 true = ((s.ending.code, []), s.toStream.stop) := by
    simp [Stream.read, toStream, ho, hr]
  have hz {t : Reader} (ht : t.rest = []) : t.readBufferLength = 0 := by
    rw [rest, append_eq_nil_iff] at ht
    rw [← length_unread, ht.1, length_nil]
  rw [he] at hst hre
  refine ⟨s', hs, hst, hz (congrArg Stream.rest hst), ?_⟩
  rw [readlineFill, if_pos (hz hr), hre]
  simp

theorem readlineFill_of_rest (line : List Byte) (hr : 0 < room)
    (h : s.Sound stream) (ho : s.isOpen = true) (hre : s.rest ≠ []) :
    ∃ bytes complete s', Scanned room s.rest bytes complete ∧ s'.Sound stream ∧
      s'.toStream = { s.toStream with rest := s.rest.drop bytes.length } ∧
      (bytes = [] → 0 < s'.readBufferLength) ∧
      readlineFill line s = some ((.success, line ++ bytes), complete, s') := by
  rw [readlineFill]
  by_cases he : s.readBufferLength = 0
  · obtain ⟨room, rfl⟩ := Nat.exists_eq_succ_of_ne_zero hr.ne'
    obtain ⟨byte, rest', hc⟩ := exists_cons_of_ne_nil hre
    obtain ⟨s', hs, hst, hrea⟩ := memcachedIoRead_spec 1 true h
    have hon : s.toStream.read 1 true =
        ((.success, [byte]), { s.toStream with rest := s.rest.drop 1 }) := by
      simp [Stream.read, toStream, ho, hc]
    rw [hon] at hst hrea
    refine ⟨[byte], decide (byte = newline), s', ?_, hs, hst,
      fun hn => absurd hn (cons_ne_nil _ _), ?_⟩
    · rw [hc]
      by_cases hne : byte = newline
      · rw [hne]
        exact .newline
      · rw [decide_eq_false hne]
        exact .cons hne .stop
    · rw [if_pos he, hrea]
      simp
  · refine ⟨[], false, s, .stop, h, rfl, fun _ => Nat.pos_of_ne_zero he, ?_⟩
    rw [if_neg he, append_nil]

/-- What a round of the loop reads, if the stream has not ended. -/
theorem readline_round (fuel : Nat) (line : List Byte) (hr : 0 < size - line.length)
    (h : s.Sound stream) (ho : s.isOpen = true) (hre : s.rest ≠ []) :
    ∃ bytes complete s', Scanned (size - line.length) s.rest bytes complete ∧ s'.Sound stream ∧
      s'.toStream = { s.toStream with rest := s.rest.drop bytes.length } ∧
      (bytes.length ≠ size - line.length → bytes ≠ []) ∧
      readlineLoop (fuel + 1) size line s =
        if (line ++ bytes).length = size then some ((.protocolError, line ++ bytes), s')
        else if complete then some ((.success, line ++ bytes), s')
        else readlineLoop fuel size (line ++ bytes) s' := by
  obtain ⟨bytes, complete, s₁, hs, hso, hst, hu, hf⟩ :=
    readlineFill_of_rest line hr h ho hre
  rw [readlineLoop, hf]
  simp only [Option.bind_some, ne_eq, not_true_eq_false, if_false]
  cases complete with
  | true =>
    exact ⟨bytes, true, s₁, hs, hso, hst, fun _ => hs.ne_nil, rfl⟩
  | false =>
    obtain ⟨bytes', complete, s', hc, hs', hso', hst', hp⟩ :=
      copyLine_spec s₁.readBufferLength (size - (line ++ bytes).length) (line ++ bytes) rfl hso
    have hd : s₁.rest = s.rest.drop bytes.length := congrArg Stream.rest hst
    rw [length_append, Nat.sub_add_eq] at hs' hp
    rw [hd] at hs' hst'
    rw [hst, drop_drop] at hst'
    refine ⟨bytes ++ bytes', complete, s', hs.append hs', hso', ?_, ?_, ?_⟩
    · rw [hst', length_append]
    · intro hn hni
      obtain ⟨rfl, rfl⟩ := append_eq_nil_iff.1 hni
      exact hp (hu rfl) hr rfl
    · rw [if_neg Bool.false_ne_true, hc, append_assoc]

/-- The rest after some bytes of the line, and the room for it. -/
theorem readlineLoop_spec : ∀ (fuel size : Nat) (line : List Byte) {s : Reader},
    s.rest.length < fuel → line.length < size → s.Sound stream → s.isOpen = true →
    ∃ s', s'.Sound stream ∧ s'.toStream = (s.toStream.readline (size - line.length)).2 ∧
      readlineLoop fuel size line s = some (((s.toStream.readline (size - line.length)).1.1,
          line ++ (s.toStream.readline (size - line.length)).1.2), s')
  | 0, _, _, _, hf, _, _, _ => absurd hf (Nat.not_lt_zero _)
  | fuel + 1, size, line, s, hf, hr, h, ho => by
    by_cases hre : s.rest = []
    · obtain ⟨s₁, hs, hst, he, hfi⟩ := readlineFill_of_end line h ho hre
      obtain ⟨room, hsu⟩ := Nat.exists_eq_succ_of_ne_zero (Nat.sub_pos_of_lt hr).ne'
      have hl : s.toStream.readline (size - line.length) =
          ((s.ending.code, []), { s.toStream with rest := [], isOpen := false }) := by
        simp [Stream.readline, toStream, ho, hre, hsu, Stream.lineOf]
      rw [readlineLoop, hfi, hl]
      obtain ⟨hq, hqui⟩ := quitServer_sound hs he
      rw [hst] at hqui
      cases hen : s.ending with
      | timeout | pollError => exact ⟨s₁.quitServer, hq, hqui, by simp [Ending.code]⟩
      | closed | error =>
        refine ⟨s₁, hs, ?_, by simp [Ending.code]⟩
        rw [hst]
        simp [Stream.stop, toStream, hen]
    · obtain ⟨bytes, complete, s₁, hsc, hs, hst, hp, hrou⟩ :=
        readline_round fuel line (Nat.sub_pos_of_lt hr) h ho hre
      have hle := hsc.length_le
      rw [hrou, length_append]
      split_ifs with hful hc
      · rw [readline_of_full s.toStream ho hsc (by omega)]
        exact ⟨s₁, hs, hst, rfl⟩
      · rw [hc] at hsc
        rw [readline_of_complete s.toStream ho hsc (by omega)]
        exact ⟨s₁, hs, hst, rfl⟩
      · rw [Bool.not_eq_true] at hc
        rw [hc] at hsc
        rw [readline_of_part s.toStream ho hsc (by omega)]
        have hd : s₁.rest = s.rest.drop bytes.length := congrArg Stream.rest hst
        have ho₁ : s₁.isOpen = true := (congrArg Stream.isOpen hst).trans ho
        have hlen : 0 < bytes.length := length_pos_iff.2 (hp (by omega))
        have hf₁ : s₁.rest.length < fuel := by
          rw [hd, length_drop]
          have := hsc.length_le_rest
          omega
        obtain ⟨s', hs', hst', hlo⟩ := readlineLoop_spec fuel size (line ++ bytes) hf₁
          (by rw [length_append]; omega) hs ho₁
        rw [length_append, Nat.sub_add_eq, hst] at hst' hlo
        refine ⟨s', hs', hst', ?_⟩
        rw [hlo, append_assoc]
        rfl

theorem memcachedIoReadline_spec (hs : 0 < size) (h : s.Sound stream) :
    ∃ s', s'.Sound stream ∧ s'.toStream = (s.toStream.readline size).2 ∧
      memcachedIoReadline size s = some ((s.toStream.readline size).1, s') := by
  rw [memcachedIoReadline]
  cases ho : s.isOpen with
  | false =>
    have hl : s.toStream.readline size = ((.connectionFailure, []), s.toStream) := by
      simp [Stream.readline, toStream, ho]
    rw [hl]
    refine ⟨s, h, rfl, ?_⟩
    simp [readlineLoop, readlineFill, h.closed ho, memcachedIoRead, ho]
  | true =>
    have hf : s.rest.length < s.readBufferLength + s.chunks.flatten.length + 1 := by
      rw [rest, length_append, length_unread]
      exact Nat.lt_succ_self _
    obtain ⟨s', hso, hst, hlo⟩ := readlineLoop_spec _ size [] hf hs h ho
    exact ⟨s', hso, hst, hlo⟩

end Reader

/-! ## Programs -/

inductive Op where
  | read (length : Nat) (hasBuffer : Bool)
  | readline (size : Nat)
  /-- `repack_input_buffer`, when something has arrived or not. -/
  | repack (arrived : Bool)

def Op.Sized : Op → Prop
  | .readline size => 0 < size
  | _ => True

def Op.returns : Op → Bool
  | .repack _ => false
  | _ => true

def reads (ops : List Op) : List Op := ops.filter Op.returns

def Reader.run : List Op → Reader → Option (List Reader.Answer × Reader)
  | [], s => some ([], s)
  | .read length hasBuffer :: ops, s => do
    let (answer, s) ← s.memcachedIoRead length hasBuffer
    let (answers, s) ← run ops s
    return (answer :: answers, s)
  | .readline size :: ops, s => do
    let (answer, s) ← s.memcachedIoReadline size
    let (answers, s) ← run ops s
    return (answer :: answers, s)
  | .repack arrived :: ops, s => run ops (s.repackInputBuffer arrived).2

def Stream.run : List Op → Stream → List Reader.Answer
  | [], _ => []
  | .read length hasBuffer :: ops, st =>
    (st.read length hasBuffer).1 :: run ops (st.read length hasBuffer).2
  | .readline size :: ops, st => (st.readline size).1 :: run ops (st.readline size).2
  | .repack _ :: ops, st => run ops st

theorem Stream.run_reads : ∀ (ops : List Op) (st : Stream), run (reads ops) st = run ops st
  | [], _ => rfl
  | .read _ _ :: ops, _ => congrArg _ (run_reads ops _)
  | .readline _ :: ops, _ => congrArg _ (run_reads ops _)
  | .repack _ :: ops, st => run_reads ops st

theorem sized_of_reads (h : ∀ op ∈ reads ops, op.Sized) : ∀ op ∈ ops, op.Sized := by
  intro op ho
  cases op with
  | read | repack => trivial
  | readline size => exact h _ (mem_filter.2 ⟨ho, rfl⟩)

theorem Reader.run_eq : ∀ (ops : List Op) {s : Reader}, s.Sound stream →
    (∀ op ∈ ops, op.Sized) → ∃ s', s.run ops = some (s.toStream.run ops, s') ∧ s'.Sound stream
  | [], s, h, _ => ⟨s, rfl, h⟩
  | op :: ops, s, h, hs => by
    have ho : ∀ op ∈ ops, op.Sized := fun op hop => hs op (.tail _ hop)
    cases op with
    | read length hasBuffer =>
      obtain ⟨s₁, hso, hst, hr⟩ := memcachedIoRead_spec length hasBuffer h
      obtain ⟨s', hru, hs'⟩ := run_eq ops hso ho
      refine ⟨s', ?_, hs'⟩
      rw [hst] at hru
      simp only [Reader.run, hr, hru, Stream.run, Option.bind_eq_bind, Option.bind_some]
      rfl
    | readline size =>
      obtain ⟨s₁, hso, hst, hr⟩ := memcachedIoReadline_spec (hs _ (.head _)) h
      obtain ⟨s', hru, hs'⟩ := run_eq ops hso ho
      refine ⟨s', ?_, hs'⟩
      rw [hst] at hru
      simp only [Reader.run, hr, hru, Stream.run, Option.bind_eq_bind, Option.bind_some]
      rfl
    | repack arrived =>
      obtain ⟨hso, hst⟩ := repackInputBuffer_sound h arrived
      obtain ⟨s', hru, hs'⟩ := run_eq ops hso ho
      refine ⟨s', ?_, hs'⟩
      rw [hst] at hru
      exact hru

structure Reader.AtStart (s : Reader) : Prop where
  isOpen : s.isOpen = true
  readPtr : s.readPtr = 0
  readBufferLength : s.readBufferLength = 0
  received : s.received = []
  consumed : s.consumed = []
  chunks : ∀ chunk ∈ s.chunks, chunk ≠ []

theorem Reader.AtStart.sound {s : Reader} (h : s.AtStart) (hd : s.readDataLength = 0) :
    s.Sound s.chunks.flatten where
  data _ := by rw [h.readPtr, h.readBufferLength, hd]
  closed _ := h.readBufferLength
  bound := by
    rw [h.readPtr, h.readBufferLength]
    exact Nat.zero_le _
  chunks := h.chunks
  received := by
    rw [h.consumed, h.received, unread, h.readBufferLength]
    rfl
  all := by
    rw [h.received]
    rfl

theorem Reader.AtStart.toStream_eq {s : Reader} (h : s.AtStart) :
    s.toStream = ⟨s.chunks.flatten, true, s.ending⟩ := by
  rw [toStream, rest, unread, h.readBufferLength, h.isOpen]
  rfl

/-- The bytes that were consumed and those that are unread are what was received of a stream, and
the unread ones are inside the buffer. -/
def Reader.Holds (stream : List Byte) (s : Reader) : Prop :=
  s.consumed ++ slice s.readBuffer s.readPtr s.readBufferLength = s.received ∧
    s.received <+: stream ∧ s.readPtr + s.readBufferLength ≤ maxBuffer

theorem Reader.Sound.holds {s : Reader} (h : s.Sound stream) : s.Holds stream :=
  ⟨h.received, ⟨_, h.all⟩, h.bound⟩

/-- Two programs with the same reads return the same on two connections that deliver the same
stream, if `read_data_length` is zero at the start and every line has room for a byte. -/
theorem reads_ignore_packets {s t : Reader} (hs : s.AtStart) (ht : t.AtStart)
    (hsdata : s.readDataLength = 0) (htdata : t.readDataLength = 0)
    (hstream : s.chunks.flatten = t.chunks.flatten) (hending : s.ending = t.ending)
    {ops ops' : List Op} (hops : reads ops = reads ops') (hsized : ∀ op ∈ reads ops, op.Sized) :
    ∃ answers s' t', s.run ops = some (answers, s') ∧ t.run ops' = some (answers, t') ∧
      s'.Holds s.chunks.flatten ∧ t'.Holds s.chunks.flatten := by
  obtain ⟨s', hr, hso⟩ := Reader.run_eq ops (hs.sound hsdata) (sized_of_reads hsized)
  obtain ⟨t', hr', hs'⟩ := Reader.run_eq ops' (ht.sound htdata) (sized_of_reads (hops ▸ hsized))
  have hsa : s.toStream.run ops = t.toStream.run ops' := by
    rw [hs.toStream_eq, ht.toStream_eq, hstream, hending, ← Stream.run_reads ops, hops,
      Stream.run_reads ops']
  refine ⟨_, s', t', hr, ?_, hso.holds, ?_⟩
  · rw [hsa]
    exact hr'
  · rw [hstream]
    exact hs'.holds

/-- A line that comes in two packets or in one. -/
theorem reads_ignore_packets_line : ∃ answers s' t',
    (Reader.new.connect [[97], [98, 10]] .closed).run [.repack true, .readline 8] =
        some (answers, s') ∧
      (Reader.new.connect [[97, 98, 10]] .closed).run [.readline 8] = some (answers, t') ∧
      s'.Holds [97, 98, 10] ∧ t'.Holds [97, 98, 10] := by
  have hs : (Reader.new.connect [[97], [98, 10]] .closed).AtStart :=
    ⟨rfl, rfl, rfl, rfl, rfl, by decide⟩
  have ht : (Reader.new.connect [[97, 98, 10]] .closed).AtStart := ⟨rfl, rfl, rfl, rfl, rfl, by decide⟩
  exact reads_ignore_packets hs ht rfl rfl rfl rfl rfl (by simp [reads, Op.Sized])

/-- A connection delivers a byte and is closed.  On the next one a byte has arrived when the
buffer is repacked, and a read returns the byte of the old connection.  Without the repack it
returns the new one.  The second part is about a line without room: it is refused if there are
unread bytes, and read up to its newline if each byte comes in a packet of its own. -/
theorem reads_depend_on_packets : (∃ answers s s' s'',
      (Reader.new.connect [[120]] .closed).run [.read 1 true, .read 1 true] = some (answers, s) ∧
        (s.connect [[97]] .closed).AtStart ∧
        (s.connect [[97]] .closed).run [.repack true, .read 1 true] =
          some ([(.success, [120])], s') ∧
        (s.connect [[97]] .closed).run [.read 1 true] = some ([(.success, [97])], s'') ∧
        ¬s'.Holds [97]) ∧ ∃ s s',
      (Reader.new.connect [[97], [98], [10]] .closed).run [.read 1 true, .readline 0] =
        some ([(.success, [97]), (.success, [98, 10])], s) ∧
      (Reader.new.connect [[97, 98, 10]] .closed).run [.read 1 true, .readline 0] =
        some ([(.success, [97]), (.protocolError, [])], s') := by
  refine ⟨⟨_, _, _, _, rfl, ⟨rfl, rfl, rfl, rfl, rfl, by decide⟩, rfl, rfl, ?_⟩, _, _, rfl, rfl⟩
  rintro ⟨hr, -, -⟩
  exact absurd hr (by decide)

end ArcusClient.Io
