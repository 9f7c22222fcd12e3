import ArcusClient.Io.Write

/-!
# Bytes are sent once and in order

What the socket has taken, followed by what is in the write buffer, is the stream of a link.  A write
should append its bytes to the stream, and a flush should not change it.

A flush keeps its place in a local pointer.  If `io_wait` starts a purge in the middle of it, the
purge sends the write buffer from its beginning, and the flush goes on from its pointer.  So bytes are
sent a second time.  `Appends` counts these purges: without one the bytes are appended, with one the
stream has become too long.  The two cases compose over whole runs (`sent_exactly_once_iff`).
-/

namespace ArcusClient.Io

open Memory Outcome List Link

/-! ## Streams -/

def Link.stream (s : Link) : List Byte := s.wire ++ slice s.writeBuffer 0 s.writeBufferOffset

/-- From one pair of a number of purges and a stream to another, with the bytes that
should have been appended. -/
structure Appends (n n' : Nat) (l l' added : List Byte) : Prop where
  le : n ≤ n'
  once : n' = n → l' = l ++ added
  twice : n < n' → l.length + added.length < l'.length

variable {n : Nat} {l l' added : List Byte}

theorem Appends.of_eq (h : l' = l ++ added) : Appends n n l l' added :=
  ⟨le_refl n, fun _ => h, fun hl => absurd hl (lt_irrefl n)⟩

theorem Appends.length_le (h : Appends n n' l l' added) : l.length + added.length ≤ l'.length := by
  rcases Nat.eq_or_lt_of_le h.le with he | hl
  · rw [h.once he.symm, length_append]
  · exact (h.twice hl).le

theorem Appends.trans (h : Appends n₁ n₂ l₁ l₂ added) (h' : Appends n₂ n₃ l₂ l₃ added') :
    Appends n₁ n₃ l₁ l₃ (added ++ added') where
  le := h.le.trans h'.le
  once heq := by
    have hl := h.le
    have hl' := h'.le
    rw [h'.once (by omega), h.once (by omega), append_assoc]
  twice hlt := by
    have hle := h.length_le
    have hle' := h'.length_le
    rw [length_append]
    rcases Nat.lt_or_ge n₁ n₂ with hf | hf
    · have := h.twice hf
      omega
    · have := h'.twice (by omega)
      omega

/-- The stream is as it should be exactly if no purge was started by `io_wait`. -/
theorem Appends.iff (h : Appends n n' l l' added) : l' = l ++ added ↔ n' = n := by
  refine ⟨fun he => ?_, h.once⟩
  rcases Nat.eq_or_lt_of_le h.le with hn | hl
  · exact hn.symm
  · have := h.twice hl
    rw [he, length_append] at this
    exact absurd this (lt_irrefl _)

/-! ## Reading replies -/

structure Link.Frame (s s' : Link) : Prop where
  type : s'.type = s.type
  writeBuffer : s'.writeBuffer = s.writeBuffer
  purging : s'.purging = s.purging

theorem Link.Frame.refl (s : Link) : s.Frame s := ⟨rfl, rfl, rfl⟩

theorem Link.Frame.trans {s₁ s₂ s₃ : Link} (h : s₁.Frame s₂) (h' : s₂.Frame s₃) : s₁.Frame s₃ :=
  ⟨h'.type.trans h.type, h'.writeBuffer.trans h.writeBuffer, h'.purging.trans h.purging⟩

theorem Link.Frame.quitServer (s : Link) : s.Frame s.quitServer := ⟨rfl, rfl, rfl⟩

structure Link.Reads (s s' : Link) : Prop where
  frame : s.Frame s'
  wire : s'.wire = s.wire
  waitPurges : s'.waitPurges = s.waitPurges
  closed : s.isOpen = false → s'.isOpen = false
  /-- The write buffer is emptied only if the connection is closed. -/
  offset : s'.writeBufferOffset = s.writeBufferOffset ∨
    (s'.isOpen = false ∧ s'.writeBufferOffset = s.emptyOffset)

theorem Link.Reads.refl (s : Link) : s.Reads s := ⟨.refl s, rfl, rfl, id, .inl rfl⟩

theorem Link.emptyOffset_eq {s s' : Link} (h : s'.type = s.type) :
    s'.emptyOffset = s.emptyOffset := by
  rw [emptyOffset, emptyOffset, h]

theorem Link.Reads.trans {s₁ s₂ s₃ : Link} (h : s₁.Reads s₂) (h' : s₂.Reads s₃) : s₁.Reads s₃ where
  frame := h.frame.trans h'.frame
  wire := h'.wire.trans h.wire
  waitPurges := h'.waitPurges.trans h.waitPurges
  closed hc := h'.closed (h.closed hc)
  offset := by
    rcases h'.offset with hs | ⟨hc, he⟩
    · rcases h.offset with hs₁ | ⟨hc₁, he₁⟩
      · exact .inl (hs.trans hs₁)
      · exact .inr ⟨h'.closed hc₁, hs.trans he₁⟩
    · exact .inr ⟨hc, he.trans (emptyOffset_eq h.frame.type)⟩

theorem readOneResponse_reads (s : Link) (reply : Reply) : s.Reads (readOneResponse s reply).2 := by
  rw [readOneResponse]
  cases ho : s.isOpen with
  | false => exact ⟨⟨rfl, rfl, rfl⟩, rfl, rfl, fun _ => rfl, .inl rfl⟩
  | true =>
    have hn : ¬s.isOpen = false := by simp [ho]
    have hq (t : Link) (hf : s.Frame t) (hw : t.wire = s.wire)
        (hp : t.waitPurges = s.waitPurges) : s.Reads t.quitServer :=
      ⟨hf.trans (.quitServer t), hw, hp, fun _ => rfl, .inr ⟨rfl, emptyOffset_eq hf.type⟩⟩
    cases hfi : reply.filled <;> cases reply.ending with
    | read => exact ⟨⟨rfl, rfl, rfl⟩, rfl, rfl, fun hc => absurd hc hn, .inl rfl⟩
    | lost | outOfSync rc => exact hq _ ⟨rfl, rfl, rfl⟩ rfl rfl

theorem foldl_readOneResponse_reads : ∀ (input : List Reply) (s : Link),
    s.Reads (input.foldl (fun s reply => (readOneResponse s reply).2) s)
  | [], s => .refl s
  | reply :: input, s =>
    (readOneResponse_reads s reply).trans (foldl_readOneResponse_reads input _)

theorem readReplies_ends : ∀ (noMsg : Nat) (replies : List Reply) (ret : ReturnT) (s : Link),
    Ends (fun e => e = .noAnswer) (fun r => s.Reads r.2) (readReplies noMsg replies ret s)
  | 0, _, _, s => .refl s
  | _ + 1, [], _, _ => rfl
  | noMsg + 1, reply :: replies, ret, s => by
    rw [readReplies]
    refine (readReplies_ends noMsg replies _ _).imp (fun _ h => h) fun r hr => ?_
    exact (readOneResponse_reads s reply).trans hr

/-! ## Flushing -/

theorem pollLoop_ends : ∀ (loopMax : Nat) (polls : List Poll) (s : Link),
    Ends (fun e => e = .noAnswer) (fun r => s.Frame r.2 ∧ (r.1 = .success → r.2 = s))
      (pollLoop loopMax polls s)
  | 0, _, s => ⟨.quitServer s, fun h => by cases h⟩
  | _ + 1, [], _ => rfl
  | loopMax + 1, poll :: polls, s => by
    cases poll with
    | ready => exact ⟨.refl s, fun _ => rfl⟩
    | timeout | noMemory => exact ⟨.refl s, fun h => by cases h⟩
    | interrupted => exact pollLoop_ends loopMax polls s
    | error => exact ⟨.quitServer s, fun h => by cases h⟩

section Flushing

variable {P : Type} {r : Root} {purge : P → Link → Except Blocked (ReturnT × Link)}

/-- What is asked of the calls of `memcached_purge` that a flush makes: a purge does nothing, or it
sends the whole write buffer. -/
structure Purged (r : Root) (s : Link) (result : ReturnT × Link) : Prop where
  frame : s.Frame result.2
  skipped : r.mustPurge s = false → result.2 = s
  sent : r.mustPurge s = true → ¬(result.1 ≠ .success ∧ result.1 ≠ .stored) →
    result.2.waitPurges = s.waitPurges ∧ result.2.wire = s.stream ∧
      result.2.writeBufferOffset = 0

def PurgesWell (r : Root) (purge : P → Link → Except Blocked (ReturnT × Link)) (flag : Bool) : Prop :=
  ∀ p s, s.type ≠ .udp → s.purging = flag →
    Ends (fun e => e = .noAnswer) (fun result => Purged r s result) (purge p s)

theorem purging_of_mustPurge (h : r.mustPurge s = true) : s.purging = false := by
  cases hp : s.purging with
  | false => rfl
  | true => simp [Root.mustPurge, hp] at h

variable {flag : Bool}

theorem ioWait_ends (hp : PurgesWell r purge flag) (p : P) (polls : List Poll)
    {s : Link} (ht : s.type ≠ .udp) (hf : s.purging = flag) : Ends (fun e => e = .noAnswer)
      (fun result => s.Frame result.2 ∧ (result.1 = .success →
        (r.mustPurge s = false → result.2 = s) ∧
        (r.mustPurge s = true → result.2.waitPurges = s.waitPurges + 1 ∧ result.2.wire = s.stream)))
      (ioWait r purge p polls s) := by
  rw [ioWait]
  cases hm : r.mustPurge s with
  | false =>
    refine (hp p s ht hf).bind ?_
    rintro ⟨rc, s₁⟩ hpur
    obtain rfl : s₁ = s := hpur.skipped hm
    dsimp only
    split_ifs
    · exact ⟨.refl s₁, fun h => by cases h⟩
    · exact ⟨.refl s₁, fun h => by cases h⟩
    · refine (pollLoop_ends 4 polls s₁).imp (fun _ h => h) fun result hr => ?_
      exact ⟨hr.1, fun hrc => ⟨fun _ => hr.2 hrc, fun h => by cases h⟩⟩
  | true =>
    have hm' : r.mustPurge { s with waitPurges := s.waitPurges + 1 } = true := hm
    refine (hp p { s with waitPurges := s.waitPurges + 1 } ht hf).bind ?_
    rintro ⟨rc, s₁⟩ hpur
    have hfr : s.Frame s₁ := ⟨hpur.frame.type, hpur.frame.writeBuffer, hpur.frame.purging⟩
    dsimp only
    split_ifs with hrc
    · exact ⟨hfr, fun h => by cases h⟩
    · exact ⟨hfr, fun h => by cases h⟩
    · obtain ⟨hpurg, hw, -⟩ := hpur.sent hm' hrc
      refine (pollLoop_ends 4 polls s₁).imp (fun _ h => h) fun result hr => ?_
      refine ⟨hfr.trans hr.1, fun ho => ⟨fun h => (by cases h), fun _ => ?_⟩⟩
      rw [hr.2 ho]
      exact ⟨hpurg, hw⟩

structure Sends (s : Link) (localWritePtr writeLength : Nat) (s' : Link) : Prop where
  offset : s'.writeBufferOffset = 0
  quiet : s.purging = true → s'.waitPurges = s.waitPurges
  le : s.waitPurges ≤ s'.waitPurges
  once : s'.waitPurges = s.waitPurges →
    s'.wire = s.wire ++ slice s.writeBuffer localWritePtr writeLength
  more : s.wire.length + writeLength ≤ s'.wire.length
  twice : s.waitPurges < s'.waitPurges → 0 < s.writeBufferOffset →
    s.wire.length + writeLength < s'.wire.length

variable {s' : Link} {p n : Nat}

theorem Sends.take (hk : k ≤ n) (h : Sends (s.take p k) (p + k) (n - k) s') : Sends s p n s' where
  offset := h.offset
  quiet := h.quiet
  le := h.le
  once hpurges := by
    rw [h.once hpurges, ← Nat.add_sub_cancel' hk, slice_add, ← append_assoc,
      Nat.add_sub_cancel_left]
    rfl
  more := by
    have := h.more
    simp only [Link.take, length_append, length_slice] at this
    omega
  twice hl ho := by
    have := h.twice hl ho
    simp only [Link.take, length_append, length_slice] at this
    omega

variable {s₁ : Link}

theorem Sends.purged (h : Sends s₁ p n s')
    (hp : s.purging = false) (hpu : s₁.waitPurges = s.waitPurges + 1)
    (hw : s₁.wire = s.stream) : Sends s p n s' := by
  have hl : s₁.wire.length = s.wire.length + s.writeBufferOffset := by
    rw [hw, stream, length_append, length_slice]
  have hle := h.le
  have hm := h.more
  refine ⟨h.offset, fun ht => ?_, by omega, fun he => by omega, by omega, fun _ ho => by omega⟩
  rw [hp] at ht
  cases ht

theorem Sends.read (h : Sends s₁ p n s') (hr : s.Reads s₁)
    (ho : s₁.isOpen = true) : Sends s p n s' := by
  have hof : s₁.writeBufferOffset = s.writeBufferOffset := by
    rcases hr.offset with hs | ⟨hc, -⟩
    · exact hs
    · rw [ho] at hc
      cases hc
  obtain ⟨he, hq, hl, hon, hm, ht⟩ := h
  rw [hr.frame.purging, hr.waitPurges] at hq
  rw [hr.waitPurges] at hl
  rw [hr.waitPurges, hr.wire, hr.frame.writeBuffer] at hon
  rw [hr.wire] at hm
  rw [hr.waitPurges, hof, hr.wire] at ht
  exact ⟨he, hq, hl, hon, hm, ht⟩

theorem sendLoop_closed (r : Root) (purge : P → Link → Except Blocked (ReturnT × Link))
    (sends : List (Sent P)) (p n k : Nat) (ht : s.type ≠ .udp) (hc : s.isOpen = false) :
    Ends (fun e => e = .noAnswer) (fun result => s.Frame result.2 ∧ result.1 = none)
      (sendLoop r purge sends p (n + 1) k s) := by
  cases sends with
  | nil => rfl
  | cons answer sends =>
    simp only [sendLoop, ht, if_false, hc]
    exact ⟨.quitServer s, rfl⟩

/-- The loop sends the bytes from the local pointer on, with the given answers. -/
def LoopSends (r : Root) (purge : P → Link → Except Blocked (ReturnT × Link)) (flag : Bool)
    (sends : List (Sent P)) : Prop :=
  ∀ (p n k : Nat) {s : Link}, s.type ≠ .udp → s.purging = flag →
    Ends (fun e => e = .noAnswer)
      (fun result => s.Frame result.2 ∧ (result.1 ≠ none → Sends s p n result.2))
      (sendLoop r purge sends p n k s)

/-- The loop goes on after replies were read.  The connection may have been closed on the way. -/
theorem LoopSends.after_input {sends : List (Sent P)}
    (hr : LoopSends r purge flag sends) (p n k : Nat) (hre : s.Reads s₁)
    (ht : s.type ≠ .udp) (hf : s.purging = flag) : Ends (fun e => e = .noAnswer)
      (fun result => s.Frame result.2 ∧ (result.1 ≠ none → Sends s p (n + 1) result.2))
      (sendLoop r purge sends p (n + 1) k s₁) := by
  have ht₁ : s₁.type ≠ .udp := by rwa [hre.frame.type]
  cases ho : s₁.isOpen with
  | false =>
    refine (sendLoop_closed r purge sends p n k ht₁ ho).imp (fun _ h => h)
      fun result hres => ?_
    exact ⟨hre.frame.trans hres.1, fun hn => absurd hres.2 hn⟩
  | true =>
    refine (hr p (n + 1) k ht₁ (hre.frame.purging.trans hf)).imp (fun _ h => h)
      fun result hres => ?_
    exact ⟨hre.frame.trans hres.1, fun hn => (hres.2 hn).read hre ho⟩

/-- The loop goes on after a wait.  If that has started a purge, the bytes are sent again. -/
theorem LoopSends.after_wait {sends : List (Sent P)}
    (hr : LoopSends r purge flag sends) (p n k : Nat) (hf : s.Frame s₁)
    (hs : r.mustPurge s = false → s₁ = s)
    (hp : r.mustPurge s = true → s₁.waitPurges = s.waitPurges + 1 ∧ s₁.wire = s.stream)
    (ht : s.type ≠ .udp) (hfl : s.purging = flag) : Ends (fun e => e = .noAnswer)
      (fun result => s.Frame result.2 ∧ (result.1 ≠ none → Sends s p n result.2))
      (sendLoop r purge sends p n k s₁) := by
  have ht₁ : s₁.type ≠ .udp := by rwa [hf.type]
  refine (hr p n k ht₁ (hf.purging.trans hfl)).imp (fun _ h => h)
    fun result hre => ?_
  refine ⟨hf.trans hre.1, fun hn => ?_⟩
  cases hm : r.mustPurge s with
  | false =>
    rw [← hs hm]
    exact hre.2 hn
  | true =>
    obtain ⟨hpu, hw⟩ := hp hm
    exact (hre.2 hn).purged (purging_of_mustPurge hm) hpu hw

theorem sendLoop_done (r : Root) (purge : P → Link → Except Blocked (ReturnT × Link))
    (sends : List (Sent P)) (p k : Nat) (ht : s.type ≠ .udp) : Ends (fun e => e = .noAnswer)
      (fun result => s.Frame result.2 ∧ (result.1 ≠ none → Sends s p 0 result.2))
      (sendLoop r purge sends p 0 k s) := by
  have he : s.emptyOffset = 0 := if_neg ht
  simp only [sendLoop]
  refine ⟨⟨rfl, rfl, rfl⟩, fun _ => ⟨he, fun _ => rfl, le_refl _, fun _ => ?_, le_refl _, ?_⟩⟩
  · exact (append_nil _).symm
  · exact fun hl => absurd hl (lt_irrefl _)

theorem sendLoop_ends (hp : PurgesWell r purge flag) (sends : List (Sent P)) :
    LoopSends r purge flag sends := by
  induction sends with
  | nil =>
    intro p n k s ht hf
    cases n with
    | zero => exact sendLoop_done r purge [] p k ht
    | succ n => rfl
  | cons answer sends ih =>
    intro p n k s ht hf
    cases n with
    | zero => exact sendLoop_done r purge (answer :: sends) p k ht
    | succ n =>
      cases ho : s.isOpen with
      | false =>
        refine (sendLoop_closed r purge (answer :: sends) p n k ht ho).imp
          (fun _ h => h) fun result hr => ?_
        exact ⟨hr.1, fun hn => absurd hr.2 hn⟩
      | true =>
        simp only [sendLoop, ht, if_false, ho, Bool.not_true, Bool.false_eq_true]
        cases answer with
        | bytes m =>
          refine (ih _ _ _ (s := s.take p (min m (n + 1))) ht hf).imp (fun _ h => h)
            fun result hr => ?_
          have hfr : s.Frame (s.take p (min m (n + 1))) := ⟨rfl, rfl, rfl⟩
          exact ⟨hfr.trans hr.1, fun hn => (hr.2 hn).take (Nat.min_le_right ..)⟩
        | noBuffers => exact ih p (n + 1) k ht hf
        | wouldBlock repacked input q polls =>
          dsimp only
          split_ifs
          · exact ih p (n + 1) k ht hf
          · exact ih.after_input p n k (foldl_readOneResponse_reads input s) ht hf
          · refine (ioWait_ends hp q polls ht hf).bind ?_
            rintro ⟨rc, s₁⟩ ⟨hfr, hw⟩
            split_ifs with hrc
            · obtain ⟨hs, hpur⟩ := hw hrc
              exact ih.after_wait p (n + 1) k hfr hs hpur ht hf
            · exact ⟨hfr.trans (.quitServer s₁), fun hn => absurd rfl hn⟩
        | error => exact ⟨.quitServer s, fun hn => absurd rfl hn⟩

structure Flushed (s s' : Link) : Prop where
  offset : s'.writeBufferOffset = 0
  quiet : s.purging = true → s'.waitPurges = s.waitPurges
  appends : Appends s.waitPurges s'.waitPurges s.stream s'.stream []

theorem Link.stream_of_offset {s : Link} (h : s.writeBufferOffset = 0) : s.stream = s.wire := by
  rw [stream, h, slice_zero, append_nil]

theorem Sends.flushed {s : Link} (h : Sends s 0 s.writeBufferOffset s')
    (hp : s.writeBufferOffset ≠ 0) : Flushed s s' where
  offset := h.offset
  quiet := h.quiet
  appends := by
    rw [stream_of_offset h.offset]
    refine ⟨h.le, fun he => ?_, fun hl => ?_⟩
    · rw [h.once he, append_nil]
      rfl
    · have := h.twice hl (Nat.pos_of_ne_zero hp)
      rw [stream, length_append, length_slice]
      exact this

theorem ioFlush_ends (hp : PurgesWell r purge flag) (f : Flush P) {s : Link}
    (ht : s.type ≠ .udp) (hf : s.purging = flag) : Ends (fun e => e = .noAnswer)
      (fun result => s.Frame result.2 ∧ (result.1 ≠ none → Flushed s result.2))
      (ioFlush r purge f s) := by
  refine (hp f.purge s ht hf).bind ?_
  rintro ⟨rc, s₁⟩ hpur
  have hfr : s.Frame s₁ := hpur.frame
  have ht₁ : s₁.type ≠ .udp := by rwa [hfr.type]
  simp only [ht₁, false_and, or_false, if_false]
  split_ifs with hr he
  · exact ⟨hfr, fun hn => absurd rfl hn⟩
  · -- There is nothing to send, or the purge has sent it.
    obtain ⟨hpurg, hs⟩ : s₁.waitPurges = s.waitPurges ∧ s₁.stream = s.stream := by
      cases hm : r.mustPurge s with
      | false =>
        obtain rfl : s₁ = s := hpur.skipped hm
        exact ⟨rfl, rfl⟩
      | true =>
        obtain ⟨hpurg, hw, -⟩ := hpur.sent hm hr
        exact ⟨hpurg, (stream_of_offset he).trans hw⟩
    refine ⟨hfr, fun _ => ⟨he, fun _ => hpurg, ?_⟩⟩
    rw [hpurg]
    exact .of_eq (hs.trans (append_nil _).symm)
  · -- The purge has not sent anything, since there is something to send.
    have hm : r.mustPurge s = false := by
      cases hm : r.mustPurge s with
      | false => rfl
      | true => exact absurd (hpur.sent hm hr).2.2 he
    obtain rfl : s₁ = s := hpur.skipped hm
    refine (sendLoop_ends hp f.sends 0 s₁.writeBufferOffset 0 ht hf).imp (fun _ h => h)
      fun result hre => ?_
    exact ⟨hre.1, fun hn => (hre.2 hn).flushed he⟩

/-! ## Writing -/

structure Wrote (s : Link) (buffer : List Byte) (s' : Link) : Prop where
  type : s'.type = s.type
  purging : s'.purging = s.purging
  /-- The write buffer is not overrun. -/
  offset_le : s'.writeBufferOffset ≤ maxBuffer
  appends : Appends s.waitPurges s'.waitPurges s.stream s'.stream buffer

theorem Wrote.trans (h : Wrote s₁ buffer s₂)
    (h' : Wrote s₂ buffer' s₃) : Wrote s₁ (buffer ++ buffer') s₃ where
  type := h'.type.trans h.type
  purging := h'.purging.trans h.purging
  offset_le := h'.offset_le
  appends := h.appends.trans h'.appends

theorem Wrote.refl (h : s.writeBufferOffset ≤ maxBuffer) : Wrote s [] s :=
  ⟨rfl, rfl, h, .of_eq (append_nil _).symm⟩

theorem Flushed.wrote (hf : s.Frame s') (h : Flushed s s') : Wrote s [] s' :=
  ⟨hf.type, hf.purging, by rw [h.offset]; exact Nat.zero_le _, h.appends⟩

theorem Link.copy_wrote
    (h : s.writeBufferOffset + bytes.length ≤ maxBuffer) : Wrote s bytes (s.copy bytes) where
  type := rfl
  purging := rfl
  offset_le := h
  appends := by
    refine .of_eq ?_
    have hs := slice_store_append s.writeBuffer 0 s.writeBufferOffset bytes
    rw [Nat.zero_add] at hs
    rw [stream, stream, copy, hs, append_assoc]

theorem copy_all_wrote (ho : s.writeBufferOffset ≤ maxBuffer)
    (hf : (s.copy (buffer.take (min (maxBuffer - s.writeBufferOffset) buffer.length))
      ).writeBufferOffset ≠ maxBuffer) :
    Wrote s buffer (s.copy (buffer.take (min (maxBuffer - s.writeBufferOffset) buffer.length))) := by
  have hl : s.writeBufferOffset + buffer.length ≤ maxBuffer := by
    by_contra hnot
    refine hf ?_
    simp only [copy, length_take]
    omega
  rw [Nat.min_eq_right (by omega), take_length]
  exact copy_wrote hl

theorem writeLoop_ends (hp : PurgesWell r purge flag) :
    ∀ (flushes : List (Flush P)) (buffer : List Byte) {s : Link}, s.type ≠ .udp →
      s.purging = flag → s.writeBufferOffset ≤ maxBuffer →
      Ends (fun e => e = .noAnswer) (fun result => result.1 ≠ none → Wrote s buffer result.2)
        (writeLoop r purge flushes buffer s) := by
  intro flushes buffer
  induction flushes generalizing buffer with
  | nil =>
    intro s ht hf ho
    cases buffer with
    | nil => exact fun _ => .refl ho
    | cons byte buffer =>
      simp only [writeLoop, ht, if_false, false_and]
      split_ifs with hfu
      · rfl
      · exact fun _ => copy_all_wrote ho fun h => hfu ⟨h, ht⟩
  | cons f flushes ih =>
    intro s ht hf ho
    cases buffer with
    | nil => exact fun _ => .refl ho
    | cons byte buffer =>
      simp only [writeLoop, ht, if_false, false_and]
      split_ifs with hfu
      · generalize min (maxBuffer - s.writeBufferOffset) (buffer.length + 1) = k at hfu ⊢
        have hc := copy_wrote (le_of_eq hfu.1)
        refine (ioFlush_ends hp f (s := s.copy ((byte :: buffer).take k)) ht hf).bind ?_
        rintro ⟨sentLength, s₁⟩ ⟨hfr, hflu⟩
        split_ifs with hs
        · exact fun hn => absurd rfl hn
        · have hflus := (hflu hs).wrote hfr
          have ho₁ : s₁.writeBufferOffset ≤ maxBuffer := hflus.offset_le
          refine (ih ((byte :: buffer).drop k) (by rwa [hfr.type])
            (hfr.purging.trans hf) ho₁).imp (fun _ h => h) fun result hr hn => ?_
          have hw := (hc.trans hflus).trans (hr hn)
          rwa [append_nil, take_append_drop] at hw
      · exact fun _ => copy_all_wrote ho fun h => hfu ⟨h, ht⟩

theorem ioWrite_ends (hp : PurgesWell r purge flag) (buffer : List Byte)
    (withFlush : Bool) (flushes : List (Flush P)) (ht : s.type ≠ .udp)
    (hf : s.purging = flag) (ho : s.writeBufferOffset ≤ maxBuffer) :
    Ends (fun e => e = .noAnswer) (fun result => result.1 ≠ none → Wrote s buffer result.2)
      (ioWrite r purge buffer withFlush flushes s) := by
  refine (writeLoop_ends hp flushes buffer ht hf ho).bind ?_
  rintro ⟨_ | left, s₁⟩ hw
  · exact fun hn => absurd rfl hn
  have hw₁ : Wrote s buffer s₁ := hw (by simp)
  cases withFlush with
  | false => exact fun _ => hw₁
  | true =>
    cases left with
    | nil => rfl
    | cons f left =>
      refine (ioFlush_ends hp f (by rwa [hw₁.type])
        (hw₁.purging.trans hf)).bind ?_
      rintro ⟨sentLength, s₂⟩ ⟨hfr, hfl⟩
      dsimp only
      split_ifs with hs
      · exact fun hn => absurd rfl hn
      · intro _
        have hb := hw₁.trans ((hfl hs).wrote hfr)
        rwa [append_nil] at hb

end Flushing

/-! ## Purging -/

theorem purgeAgain_well (r : Root) : PurgesWell r (purgeAgain r) true := by
  intro _ s _ hf
  have hm : r.mustPurge s = false := by simp [Root.mustPurge, hf]
  rw [purgeAgain, hm]
  exact ⟨.refl s, fun _ => rfl, fun h => (by rw [hm] at h; cases h)⟩

theorem memcachedPurge_well (r : Root) : PurgesWell r (memcachedPurge r) false := by
  intro p s ht hf
  rw [memcachedPurge]
  cases hm : r.mustPurge s with
  | false => exact ⟨.refl s, fun _ => rfl, fun h => (by rw [hm] at h; cases h)⟩
  | true =>
    have hs {t : Link} : r.mustPurge s = false → t = s := fun h => (by rw [hm] at h; cases h)
    -- The call of `memcached_io_write` comes down to a flush.
    refine Ends.bind (Q := fun result => ({ s with purging := true } : Link).Frame result.2 ∧
      (result.1 ≠ none → Flushed { s with purging := true } result.2)) ?_ ?_
    · refine (ioFlush_ends (purgeAgain_well r) p.flush (s := { s with purging := true })
        ht rfl).bind ?_
      rintro ⟨sentLength, s₁⟩ hflu
      dsimp only
      split_ifs with hse
      · exact ⟨hflu.1, fun hn => absurd rfl hn⟩
      · exact ⟨hflu.1, fun _ => hflu.2 hse⟩
    · rintro ⟨sentLength, s₁⟩ ⟨hfr, hflus⟩
      dsimp only
      -- The flag is taken back in the end.
      have hb {t : Link} (h : s₁.Frame t) : s.Frame { t with purging := false } :=
        ⟨h.type.trans hfr.type, h.writeBuffer.trans hfr.writeBuffer, hf.symm⟩
      split_ifs with hse
      · exact ⟨hb (.refl s₁), hs, fun _ ho => absurd ⟨by simp, by simp⟩ ho⟩
      · obtain ⟨hof, hq, ha⟩ := hflus hse
        have hp : s₁.waitPurges = s.waitPurges := hq rfl
        have hw : s₁.wire = s.stream := by
          have hst := ha.once hp
          rwa [stream_of_offset hof, append_nil] at hst
        have he : s₁.emptyOffset = 0 := if_neg (by rwa [hfr.type])
        refine (readReplies_ends _ p.replies .success s₁).bind ?_
        rintro ⟨ret, s₂⟩ hr
        refine ⟨hb hr.frame, hs, fun _ _ => ⟨hr.waitPurges.trans hp, hr.wire.trans hw, ?_⟩⟩
        rcases hr.offset with hsa | ⟨-, hz⟩
        · exact hsa.trans hof
        · exact hz.trans he

/-! ## Runs -/

inductive Call where
  | write (buffer : List Byte) (withFlush : Bool) (flushes : List (Flush Purge))
  | writev (vector : List (List Byte × List (Flush Purge))) (withFlush : Bool)
      (last : List (Flush Purge))

def Call.bytes : Call → List Byte
  | .write buffer _ _ => buffer
  | .writev vector _ _ => vector.flatMap Prod.fst

def Call.run (r : Root) (s : Link) : Call → Except Blocked (Option Nat × Link)
  | .write buffer withFlush flushes => memcachedIoWrite r buffer withFlush flushes s
  | .writev vector withFlush last => memcachedIoWritev r vector withFlush last s

variable {r : Root} {s : Link}

theorem writevLoop_ends : ∀ (vector : List (List Byte × List (Flush Purge))) (total : Nat)
    {s : Link},
    s.type ≠ .udp → s.purging = false → s.writeBufferOffset ≤ maxBuffer →
    Ends (fun e => e = .noAnswer)
      (fun result => result.1 ≠ none → Wrote s (vector.flatMap Prod.fst) result.2)
      (writevLoop r vector total s)
  | [], _, _, _, _, ho => fun _ => .refl ho
  | (buffer, flushes) :: vector, total, s, ht, hf, ho => by
    rw [writevLoop]
    refine (ioWrite_ends (memcachedPurge_well r) buffer false flushes ht hf ho).bind ?_
    rintro ⟨_ | returnable, s₁⟩ hw
    · exact fun hn => absurd rfl hn
    · have hw₁ : Wrote s buffer s₁ := hw (by simp)
      refine (writevLoop_ends vector _ (by rwa [hw₁.type]) (hw₁.purging.trans hf)
        hw₁.offset_le).imp (fun _ h => h) fun result hr hn => ?_
      exact hw₁.trans (hr hn)

/-- A call that does not return `-1` has written its bytes. -/
theorem Call.run_ends (call : Call) (ht : s.type ≠ .udp) (hf : s.purging = false)
    (ho : s.writeBufferOffset ≤ maxBuffer) :
    Ends (fun e => e = .noAnswer) (fun result => result.1 ≠ none → Wrote s call.bytes result.2)
      (call.run r s) := by
  cases call with
  | write buffer withFlush flushes =>
    exact ioWrite_ends (memcachedPurge_well r) buffer withFlush flushes ht hf ho
  | writev vector withFlush last =>
    refine (writevLoop_ends vector 0 ht hf ho).bind ?_
    rintro ⟨_ | total, s₁⟩ hw
    · exact fun hn => absurd rfl hn
    have hw₁ : Wrote s (vector.flatMap Prod.fst) s₁ := hw (by simp)
    cases withFlush with
    | false => exact fun _ => hw₁
    | true =>
      refine (ioWrite_ends (memcachedPurge_well r) [] true last (by rwa [hw₁.type])
        (hw₁.purging.trans hf) hw₁.offset_le).bind ?_
      rintro ⟨_ | sent, s₂⟩ hfl
      · exact fun hn => absurd rfl hn
      · intro _
        have hb := hw₁.trans (hfl (by simp))
        rwa [append_nil] at hb

structure Link.IsNew (s : Link) : Prop where
  type : s.type ≠ .udp
  purging : s.purging = false
  wire : s.wire = []
  offset : s.writeBufferOffset = 0
  waitPurges : s.waitPurges = 0

/-- What happens to a link, with the bytes that were written to it so far. -/
inductive Step (r : Root) : Link × List Byte → Link × List Byte → Prop
  /-- A call returns, and its result is not `-1`. -/
  | call {s s' : Link} {written : List Byte} {n : Nat} (call : Call) :
      call.run r s = .ok (some n, s') → Step r (s, written) (s', written ++ call.bytes)
  /-- Between the calls, requests are counted and replies are read. -/
  | other {s : Link} {written : List Byte} (cursorActive ioBytesSent : UInt32) :
      Step r (s, written)
        ({ s with cursorActive := cursorActive, ioBytesSent := ioBytesSent }, written)

theorem step_wrote (ht : s₀.type ≠ .udp) (hf : s₀.purging = false) (h : Wrote s₀ t.2 t.1)
    (hs : Step r t t') : Wrote s₀ t'.2 t'.1 := by
  cases hs with
  | call call hc =>
    have he := Call.run_ends (r := r) call (by rwa [h.type]) (h.purging.trans hf) h.offset_le
    exact h.trans (he.of_eq_ok hc (by simp))
  | other cursorActive ioBytesSent => exact ⟨h.type, h.purging, h.offset_le, h.appends⟩

/-- The bytes that the socket was given, followed by those in the write buffer, are the ones that
were written, exactly if no purge was started while a flush was waiting. -/
theorem sent_exactly_once_iff {s₀ : Link} (hnew : s₀.IsNew) {written : List Byte}
    (hrun : Relation.ReflTransGen (Step r) (s₀, []) (s, written)) :
    s.wire ++ slice s.writeBuffer 0 s.writeBufferOffset = written ↔ s.waitPurges = 0 := by
  have ho : s₀.writeBufferOffset ≤ maxBuffer := by
    rw [hnew.offset]
    exact Nat.zero_le _
  have hw : Wrote s₀ written s :=
    Runs.run_invariant (I := fun t => Wrote s₀ t.2 t.1)
      (fun _ _ => step_wrote hnew.type hnew.purging) (.refl ho) hrun
  have hif := hw.appends.iff
  rw [stream_of_offset hnew.offset, hnew.wire, hnew.waitPurges] at hif
  exact hif

def newLink : Link := ⟨.tcp, true, 0, 0, fun _ => 0, 0, false, [], 0⟩

/-- A socket that takes a byte, then none for a while, and then everything.  Should there be
a purge while the flush waits, the socket takes everything and a reply comes. -/
def halting : Flush Purge where
  purge := ⟨⟨(), []⟩, []⟩
  sends := [.bytes 1, .wouldBlock false [] ⟨⟨(), [.bytes 2]⟩, [⟨true, .read⟩]⟩ [.ready], .bytes 2]

theorem sent_exactly_once_below_watermark : newLink.IsNew ∧ ∃ s : Link,
    Relation.ReflTransGen (Step .default) (newLink, []) (s, [1, 2]) ∧ s.waitPurges = 0 ∧
      s.wire ++ slice s.writeBuffer 0 s.writeBufferOffset = [1, 2] := by
  have hn : newLink.IsNew := ⟨by decide, rfl, rfl, rfl, rfl⟩
  obtain ⟨s, hc, hp⟩ : ∃ s, (Call.write [1, 2] true [halting]).run .default newLink =
      .ok (some 2, s) ∧ s.waitPurges = 0 := ⟨_, rfl, rfl⟩
  have hr : Relation.ReflTransGen (Step .default) (newLink, []) (s, [1, 2]) := .single (.call _ hc)
  exact ⟨hn, s, hr, hp, (sent_exactly_once_iff hn hr).2 hp⟩

/-- Two bytes are written after the counter of sent bytes has come close to its watermark, with
two replies outstanding.  The first byte crosses the watermark, and both are sent twice. -/
theorem sent_twice_across_watermark : newLink.IsNew ∧ ∃ s : Link,
    Relation.ReflTransGen (Step .default) (newLink, []) (s, [1, 2]) ∧ s.wire = [1, 1, 2, 2] ∧
      s.wire ++ slice s.writeBuffer 0 s.writeBufferOffset ≠ [1, 2] := by
  have ho : Step .default (newLink, [])
      ({ newLink with cursorActive := 2, ioBytesSent := 65 * 1024 - 1 }, []) := .other _ _
  obtain ⟨s, hc, hw⟩ : ∃ s, (Call.write [1, 2] true [halting]).run .default
      { newLink with cursorActive := 2, ioBytesSent := 65 * 1024 - 1 } = .ok (some 2, s) ∧
        s.wire = [1, 1, 2, 2] := ⟨_, rfl, rfl⟩
  refine ⟨⟨by decide, rfl, rfl, rfl, rfl⟩, s, .tail (.single ho) (.call _ hc), hw, ?_⟩
  intro he
  have hl := congrArg length he
  rw [hw, length_append] at hl
  simp at hl
  omega

end ArcusClient.Io
