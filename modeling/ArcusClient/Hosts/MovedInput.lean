import ArcusClient.Hosts.ListSpec
import ArcusClient.Io.Write

/-!
# Unread input and the moves of the server array

An entry of the array holds its read buffer, and `read_ptr` points into it.  `memcached_server_prune`
closes gaps and rebases the pointers of the entries it moves.  `realloc` may move the whole array, and
`sort_hosts` reorders it; both copy the pointers as they are.

`ReadPtr` is an address: a block, an entry of it and an index in the entry's buffer.  So a pointer into
a block that was given back can be told from others.
-/

namespace ArcusClient

open Memory Io List

/-! ## The array in memory -/

/-- A pointer into the read buffer of an entry. -/
structure ReadPtr where
  block : Nat
  slot : Nat
  offset : Nat

/-- An entry of the array, as far as input is concerned. -/
structure ServerSlot where
  /-- Which connection the entry holds.  The source has no such member: copies of an entry keep it,
  and no two servers have the same, so that one can speak of the same server before and after. -/
  id : Nat
  server : Server
  isDead : Bool
  cursorActive : Nat
  readBuffer : Nat → Byte
  readBufferLength : Nat
  readPtr : Option ReadPtr

structure ServerArray where
  /-- Which block of memory the array is. -/
  block : Nat
  slots : List ServerSlot
  /-- The connections made so far. -/
  created : Nat

/-- The entry as `memcached_server_prune` copies it to another place.  The offset is the difference of
`read_ptr` and `read_buffer`. -/
def ServerSlot.movedTo (s : ServerSlot) (block slot : Nat) : ServerSlot :=
  { s with readPtr := s.readPtr.map fun p => ⟨block, slot, p.offset⟩ }

/-- The loop of `memcached_server_prune`, at index `i`. -/
def pruneFrom (block : Nat) : Nat → Nat → List ServerSlot → List ServerSlot
  | _, _, [] => []
  | i, cursor, s :: rest =>
    if s.isDead then pruneFrom block (i + 1) cursor rest
    else (if cursor < i then s.movedTo block cursor else s) ::
      pruneFrom block (i + 1) (cursor + 1) rest

namespace ServerArray

/-- `_server_init` for the entry behind the last.  It does not write to the buffers. -/
def append (a : ServerArray) (s : Server) : ServerArray where
  block := a.block
  slots := a.slots ++ [⟨a.created, s, false, 0, fun _ => 0, 0, some ⟨a.block, a.slots.length, 0⟩⟩]
  created := a.created + 1

/-- The loop of `memcached_server_push_with_count`. -/
def pushServers (flags : Flags) (a : ServerArray) : List Server → ReturnT × ServerArray
  | [] => (.success, a)
  | s :: list =>
    if protocolMismatch flags s.type then (.invalidHostProtocol, a)
    else pushServers flags (a.append (serverInit s.hostname s.port s.weight s.type)) list

/-- The loop of `memcached_server_push_with_serverinfo`. -/
def pushServerinfo (a : ServerArray) : List ServerInfo → ReturnT × ServerArray
  | [] => (.success, a)
  | info :: rest =>
    if info.exist then pushServerinfo a rest
    else if h : isValidServername info.hostname = true then
      pushServerinfo (a.append (serverInit ⟨info.hostname, h⟩ info.port 0 (infoType info.port))) rest
    else (.invalidArguments, a)

/-- `sort_hosts`. -/
def sortHosts (q : Qsort) (a : ServerArray) : ServerArray :=
  { a with slots := q.run (fun s t => compareServers s.server t.server) a.slots }

/-- The end of a push, in a client without replication. -/
def finishPush (q : Qsort) (flags : Flags) : ReturnT × ServerArray → ServerArray
  | (.success, a) => if flags.useSortHosts then a.sortHosts q else a
  | (_, a) => a

end ServerArray

/-- A call that changes the list.  `realloc` is the block that the function of this name returns. -/
inductive ListUpdate where
  | prune (allFlag : Bool)
  | pushWithCount (realloc : Option Nat) (list : List Server) (count : Nat)
  | pushWithServerinfo (realloc : Option Nat) (serverinfo : List ServerInfo)

def ListUpdate.run (q : Qsort) (flags : Flags) (a : ServerArray) : ListUpdate → ServerArray
  | .prune true => { a with slots := [] }
  | .prune false => { a with slots := pruneFrom a.block 0 0 a.slots }
  | .pushWithCount none _ _ => a
  | .pushWithCount (some block) list count =>
    ServerArray.finishPush q flags ({ a with block }.pushServers flags (list.take count))
  | .pushWithServerinfo realloc serverinfo =>
    if serverinfo.isEmpty || flags.useUdp then a
    else match realloc with
      | none => a
      | some block => ServerArray.finishPush q flags ({ a with block }.pushServerinfo serverinfo)

/-! ## What is kept -/

/-- `read_ptr` points into the entry's own buffer, and the unread bytes are in it. -/
def ServerSlot.PointsInto (s : ServerSlot) (block slot : Nat) : Prop :=
  ∃ offset, s.readPtr = some ⟨block, slot, offset⟩ ∧ offset + s.readBufferLength ≤ maxBuffer

namespace ServerArray

/-- The `read_buffer_length` bytes from `read_ptr` on.  There are none to be read in a block that was
given back. -/
def unread (a : ServerArray) (s : ServerSlot) : Option (List Byte) :=
  match s.readPtr with
  | none => none
  | some p =>
    if p.block = a.block then
      a.slots[p.slot]?.map fun t => slice t.readBuffer p.offset s.readBufferLength
    else none

structure WellFormed (a : ServerArray) : Prop where
  own : ∀ i (s : ServerSlot), a.slots[i]? = some s → s.PointsInto a.block i
  nodup : (a.slots.map ServerSlot.id).Nodup
  created : ∀ s ∈ a.slots, s.id < a.created

/-- The servers of both lists have the same number of replies to come. -/
def CursorsKept (a a' : ServerArray) : Prop :=
  ∀ s ∈ a.slots, ∀ s' ∈ a'.slots, s'.id = s.id → s'.cursorActive = s.cursorActive

/-- The servers of both lists have the same unread input, in their own buffers. -/
def InputKept (a a' : ServerArray) : Prop :=
  ∀ s ∈ a.slots, ∀ j s', a'.slots[j]? = some s' → s'.id = s.id →
    a'.unread s' = a.unread s ∧ s'.PointsInto a'.block j

/-- A push that makes servers of these addresses leaves the others where they are: the array is not
moved, and if it is sorted then the servers were in order, without repetition, and before the new
ones. -/
def StaysInPlace (a : ServerArray) (realloc : Option Nat) (sorts : Bool) (added : List Addr) : Prop :=
  a.slots = [] ∨ ∀ block, realloc = some block → block = a.block ∧
    (sorts = true → (a.slots.Pairwise fun s t => s.server.key.sortKey < t.server.key.sortKey) ∧
      ∀ s ∈ a.slots, ∀ k ∈ added, s.server.key.sortKey < k.sortKey)

end ServerArray

/-- The call moves no server without its pointer. -/
def ListUpdate.StaysInPlace (flags : Flags) (a : ServerArray) : ListUpdate → Prop
  | .prune _ => True
  | .pushWithCount realloc list count =>
    a.StaysInPlace realloc (flags.useSortHosts && allAccepted flags (list.take count))
      ((list.take count).map Server.key)
  | .pushWithServerinfo realloc serverinfo =>
    serverinfo = [] ∨ flags.useUdp = true ∨
      a.StaysInPlace realloc (flags.useSortHosts && allValid (pendingInfo serverinfo))
        (pendingInfo serverinfo)

/-! ## Moving an entry with its pointer -/

variable {a a' : ServerArray}

theorem ServerSlot.PointsInto.movedTo {s : ServerSlot} (h : s.PointsInto block slot)
    (block' slot' : Nat) : (s.movedTo block' slot').PointsInto block' slot' := by
  obtain ⟨offset, hp, hr⟩ := h
  exact ⟨offset, by simp [ServerSlot.movedTo, hp], hr⟩

theorem ServerSlot.PointsInto.movedTo_self {s : ServerSlot}
    (h : s.PointsInto block slot) : s.movedTo block slot = s := by
  obtain ⟨offset, hp, -⟩ := h
  rw [ServerSlot.movedTo, hp, Option.map_some, ← hp]

namespace ServerArray

theorem unread_own (hs : a.slots[i]? = some s) (hp : s.readPtr = some ⟨a.block, i, offset⟩) :
    a.unread s = some (slice s.readBuffer offset s.readBufferLength) := by
  simp [unread, hp, hs]

namespace WellFormed

theorem eq_of_id_eq (h : a.WellFormed) (hs : s ∈ a.slots) (ht : t ∈ a.slots)
    (hid : s.id = t.id) : s = t :=
  inj_on_of_nodup_map h.nodup hs ht hid

/-- What there is when every entry was new, or was moved with its pointer. -/
theorem kept_of_movedTo (h : a.WellFormed) (hm : ∀ j s', a'.slots[j]? = some s' →
      a.created ≤ s'.id ∨ ∃ s ∈ a.slots, s' = s.movedTo a'.block j) : InputKept a a' := by
  intro s hs j s' hs' hid
  rcases hm j s' hs' with hn | ⟨t, ht, rfl⟩
  · have := h.created s hs
    omega
  · obtain rfl : t = s := h.eq_of_id_eq ht hs hid
    obtain ⟨i, hi⟩ := mem_iff_getElem?.1 hs
    have ho := h.own i t hi
    refine ⟨?_, ho.movedTo _ _⟩
    obtain ⟨offset, hp, -⟩ := ho
    have hp' : (t.movedTo a'.block j).readPtr = some ⟨a'.block, j, offset⟩ := by
      simp [ServerSlot.movedTo, hp]
    rw [unread_own hi hp, unread_own hs' hp']
    rfl

theorem cursorsKept (h : a.WellFormed) (hsa : ∀ s' ∈ a'.slots, a.created ≤ s'.id ∨
      ∃ s ∈ a.slots, s.id = s'.id ∧ s.cursorActive = s'.cursorActive) : CursorsKept a a' := by
  intro s hs s' hs' hid
  rcases hsa s' hs' with hn | ⟨t, ht, hti, hc⟩
  · have := h.created s hs
    omega
  · obtain rfl : t = s := h.eq_of_id_eq ht hs (hti.trans hid)
    exact hc.symm

end WellFormed

end ServerArray

/-! ## Pruning -/

theorem pruneFrom_movedTo (block : Nat) : ∀ {slots : List ServerSlot} {i cursor : Nat}, cursor ≤ i →
    (∀ k (s : ServerSlot), slots[k]? = some s → s.PointsInto block (i + k)) →
    ∀ j s', (pruneFrom block i cursor slots)[j]? = some s' →
      ∃ s ∈ slots, s' = s.movedTo block (cursor + j)
  | [], _, _, _, _, _, _, hs' => by simp [pruneFrom] at hs'
  | s :: rest, i, cursor, hl, ho, j, s', hs' => by
    have hr : ∀ k (t : ServerSlot), rest[k]? = some t → t.PointsInto block (i + 1 + k) := fun k t ht => by
      rw [show i + 1 + k = i + (k + 1) by omega]
      exact ho (k + 1) t ht
    rw [pruneFrom] at hs'
    split at hs'
    · obtain ⟨t, ht, he⟩ := pruneFrom_movedTo block (by omega) hr j s' hs'
      exact ⟨t, mem_cons_of_mem _ ht, he⟩
    · cases j with
      | zero =>
        refine ⟨s, mem_cons_self, ?_⟩
        rw [getElem?_cons_zero, Option.some.injEq] at hs'
        rw [← hs']
        split
        · rfl
        · obtain rfl : cursor = i := by omega
          exact (ho 0 s rfl).movedTo_self.symm
      | succ j =>
        obtain ⟨t, ht, he⟩ := pruneFrom_movedTo block (by omega) hr j s' hs'
        refine ⟨t, mem_cons_of_mem _ ht, ?_⟩
        rw [he, show cursor + (j + 1) = cursor + 1 + j by omega]

/-! ## Pushing -/

namespace ServerArray

def appendServers (a : ServerArray) (ss : List Server) : ServerArray := ss.foldl append a

theorem pushServers_eq (flags : Flags) : ∀ (list : List Server) (a : ServerArray),
    a.pushServers flags list = (if allAccepted flags list then .success else .invalidHostProtocol,
        a.appendServers (acceptServers flags list))
  | [], _ => rfl
  | s :: list, a => by
    rw [pushServers]
    cases hs : protocolMismatch flags s.type with
    | true => simp [allAccepted, acceptServers, hs, appendServers]
    | false => simp [pushServers_eq flags list, allAccepted, acceptServers, hs, appendServers]

theorem pushServerinfo_eq : ∀ (serverinfo : List ServerInfo) (a : ServerArray),
    a.pushServerinfo serverinfo =
      (if allValid (pendingInfo serverinfo) then .success else .invalidArguments,
        a.appendServers (acceptAddrs (pendingInfo serverinfo)))
  | [], _ => rfl
  | info :: rest, a => by
    rw [pushServerinfo]
    cases he : info.exist with
    | true => simp [pushServerinfo_eq rest, Reconcile.pending_cons_of_taken he]
    | false =>
      rw [pendingInfo, Reconcile.pending_cons_of_free he]
      by_cases hv : isValidServername info.hostname = true
      · have hk : isValidServername info.key.hostname = true := hv
        rw [acceptAddrs]
        simp [hv, pushServerinfo_eq rest, allValid, ServerInfo.key, addrServer, appendServers]
      · have hk : ¬isValidServername info.key.hostname = true := hv
        rw [acceptAddrs]
        simp [hv, hk, allValid, appendServers]

/-- New entries come behind the others. -/
theorem appendServers_slots : ∀ (ss : List Server) (a : ServerArray),
    (a.appendServers ss).block = a.block ∧ ∃ new, (a.appendServers ss).slots = a.slots ++ new ∧
      new.map ServerSlot.server = ss ∧ new.map ServerSlot.id = List.range' a.created ss.length
  | [], a => ⟨rfl, [], by simp [appendServers], rfl, rfl⟩
  | s :: ss, a => by
    obtain ⟨hb, new, hs, hse, hid⟩ := appendServers_slots ss (a.append s)
    rw [appendServers] at hb hs
    refine ⟨hb, ⟨a.created, s, false, 0, fun _ => 0, 0, some ⟨a.block, a.slots.length, 0⟩⟩ :: new,
      ?_, by simp [hse], ?_⟩
    · rw [appendServers, foldl_cons, hs]
      simp [append]
    · rw [map_cons, hid, length_cons]
      rfl

/-- An array of old and new entries, none of them rebased, keeps the input just if the old ones are
where they were. -/
theorem WellFormed.inputKept_iff (h : a.WellFormed) {new : List ServerSlot}
    (hn : ∀ s ∈ new, a.created ≤ s.id) (hp : a'.slots.Perm (a.slots ++ new)) :
    InputKept a a' ↔ a.slots = [] ∨ a'.block = a.block ∧ a.slots <+: a'.slots := by
  constructor
  · intro hk
    have hpl : ∀ (i : Nat) s, a.slots[i]? = some s → a'.block = a.block ∧ a'.slots[i]? = some s := by
      intro i s hi
      have hs := mem_of_getElem? hi
      obtain ⟨j, hj⟩ := mem_iff_getElem?.1 (hp.mem_iff.2 (mem_append_left new hs))
      obtain ⟨-, offset, hpt, -⟩ := hk s hs j s hj rfl
      obtain ⟨offset', hp', -⟩ := h.own i s hi
      obtain ⟨hb, hsl, -⟩ : a'.block = a.block ∧ j = i ∧ offset = offset' := by
        simpa [hp'] using hpt.symm
      exact ⟨hb, hsl ▸ hj⟩
    cases hslo : a.slots with
    | nil => exact .inl rfl
    | cons s rest =>
      refine .inr ⟨(hpl 0 s (by simp [hslo])).1, ?_⟩
      rw [← hslo, prefix_iff_getElem?]
      intro i hi
      exact (hpl i _ (getElem?_eq_getElem hi)).2
  · rintro (hni | ⟨hb, rest, hr⟩)
    · intro s hs
      simp [hni] at hs
    · refine h.kept_of_movedTo fun j s' hj => ?_
      have hres : rest.Perm new := by rwa [← hr, perm_append_left_iff] at hp
      rw [← hr] at hj
      by_cases hl : j < a.slots.length
      · rw [getElem?_append_left hl] at hj
        refine .inr ⟨s', mem_of_getElem? hj, ?_⟩
        rw [hb, (h.own j s' hj).movedTo_self]
      · rw [getElem?_append_right (by omega)] at hj
        exact .inl (hn s' (hres.mem_iff.1 (mem_of_getElem? hj)))

/-- The array after a push of these servers, in a block. -/
def pushed (q : Qsort) (block : Nat) (sorts : Bool) (ss : List Server) (a : ServerArray) : ServerArray :=
  if sorts then ({ a with block }.appendServers ss).sortHosts q else { a with block }.appendServers ss

theorem finishPush_ite (q : Qsort) (flags : Flags) (ok : Bool) (hr : rc ≠ .success)
    (block : Nat) (ss : List Server) (a : ServerArray) :
    finishPush q flags (if ok then .success else rc, { a with block }.appendServers ss)
      = a.pushed q block (flags.useSortHosts && ok) ss := by
  cases ok with
  | true => simp [finishPush, pushed]
  | false => cases rc <;> simp_all [finishPush, pushed]

/-- The entries after a push, whichever `qsort` there is. -/
theorem pushed_slots (block : Nat) (sorts : Bool) (ss : List Server) (a : ServerArray) :
    ∃ new, new.map ServerSlot.server = ss ∧ new.map ServerSlot.id = List.range' a.created ss.length ∧
      ∀ q, (a.pushed q block sorts ss).block = block ∧ (a.pushed q block sorts ss).slots =
        if sorts then q.run (fun s t => compareServers s.server t.server) (a.slots ++ new)
        else a.slots ++ new := by
  obtain ⟨hb, new, hs, hse, hid⟩ := appendServers_slots ss { a with block }
  refine ⟨new, hse, hid, fun q => ?_⟩
  cases sorts with
  | true => exact ⟨hb, by rw [← hs]; rfl⟩
  | false => exact ⟨hb, hs⟩

/-- A push leaves the cursors alone.  It keeps the input just if every server stays in place. -/
theorem WellFormed.pushed (h : a.WellFormed) (block : Nat) (sorts : Bool) (ss : List Server) :
    (∀ q, CursorsKept a (a.pushed q block sorts ss)) ∧
      ((∀ q, InputKept a (a.pushed q block sorts ss)) ↔
        a.StaysInPlace (some block) sorts (ss.map Server.key)) := by
  obtain ⟨new, rfl, hid, hp⟩ := pushed_slots block sorts ss a
  have hn : ∀ s ∈ new, a.created ≤ s.id := fun s hs => by
    have hm : s.id ∈ new.map ServerSlot.id := mem_map_of_mem hs
    rw [hid] at hm
    exact (mem_range'_1.1 hm).1
  have hno : (a.slots ++ new).Nodup := by
    refine Nodup.of_map ServerSlot.id ?_
    rw [map_append, nodup_append]
    refine ⟨h.nodup, hid ▸ nodup_range', fun x hx y hy => ?_⟩
    obtain ⟨s, hs, rfl⟩ := mem_map.1 hx
    obtain ⟨t, ht, rfl⟩ := mem_map.1 hy
    exact (lt_of_lt_of_le (h.created s hs) (hn t ht)).ne
  have hpe : ∀ q, (a.pushed q block sorts _).slots.Perm (a.slots ++ new) := fun q => by
    rw [(hp q).2]
    split
    · exact q.perm _ _
    · exact Perm.refl _
  refine ⟨fun q => h.cursorsKept fun s' hs' => ?_, ?_⟩
  · rcases mem_append.1 ((hpe q).mem_iff.1 hs') with ho | ha
    · exact .inr ⟨s', ho, rfl, rfl⟩
    · exact .inl (hn s' ha)
  · have hk : CmpByKey (fun s t : ServerSlot => compareServers s.server t.server)
        fun s => s.server.key.sortKey := fun s t => compareServers_byKey s.server t.server
    have hso := Qsort.leading_run_iff hk hno
    have : Nonempty Qsort := ⟨Qsort.insertion⟩
    simp only [fun q => h.inputKept_iff hn (hpe q), hp, StaysInPlace, forall_or_left, forall_and]
    cases sorts with
    | true => simp [hso]
    | false => simp

end ServerArray

/-! ## Every call -/

theorem ServerArray.StaysInPlace.congr (h : sorts = true → added = added') :
    a.StaysInPlace realloc sorts added ↔ a.StaysInPlace realloc sorts added' := by
  cases sorts with
  | true => rw [h rfl]
  | false => simp [StaysInPlace]

/-- Nothing changes when a call returns early. -/
theorem ServerArray.WellFormed.unchanged (h : a.WellFormed) : a.CursorsKept a ∧ a.InputKept a :=
  ⟨h.cursorsKept fun s hs => .inr ⟨s, hs, rfl, rfl⟩,
    h.kept_of_movedTo fun j s hj => .inr ⟨s, mem_of_getElem? hj, (h.own j s hj).movedTo_self.symm⟩⟩

/-- The end of a push.  Where it sorts, the servers are those of all addresses given. -/
theorem ServerArray.WellFormed.finished (h : a.WellFormed) (flags : Flags)
    (hr : rc ≠ .success) (block : Nat)
    (ha : ok = true → ss.map Server.key = added) : (∀ q, a.CursorsKept (finishPush q flags
        (if ok then .success else rc, { a with block }.appendServers ss))) ∧
      ((∀ q, a.InputKept (finishPush q flags
        (if ok then .success else rc, { a with block }.appendServers ss))) ↔
          a.StaysInPlace (some block) (flags.useSortHosts && ok) added) := by
  simp only [finishPush_ite _ _ _ hr]
  rw [← StaysInPlace.congr fun hs => ha (by simp_all)]
  exact h.pushed block _ ss

/-- A change of the list leaves the cursors of the servers that stay alone, and it keeps their input
just if it moves none of them without its pointer. -/
theorem input_kept_iff (a : ServerArray) (h : a.WellFormed) (flags : Flags) (u : ListUpdate) :
    (∀ q, a.CursorsKept (u.run q flags a)) ∧
      ((∀ q, a.InputKept (u.run q flags a)) ↔ u.StaysInPlace flags a) := by
  cases u with
  | prune allFlag =>
    simp only [ListUpdate.StaysInPlace, iff_true]
    cases allFlag with
    | true => exact ⟨fun _ _ _ _ hs => by simp [ListUpdate.run] at hs,
        fun _ _ _ _ _ hs => by simp [ListUpdate.run] at hs⟩
    | false =>
      have hm := pruneFrom_movedTo a.block (le_refl 0) (by simpa using h.own)
      simp only [Nat.zero_add] at hm
      refine ⟨fun _ => h.cursorsKept fun s' hs' => ?_,
        fun _ => h.kept_of_movedTo fun j s' hj => .inr (hm j s' hj)⟩
      obtain ⟨j, hj⟩ := mem_iff_getElem?.1 hs'
      obtain ⟨s, hs, rfl⟩ := hm j s' hj
      exact .inr ⟨s, hs, rfl, rfl⟩
  | pushWithCount realloc list count =>
    cases realloc with
    | none => simp [ListUpdate.run, h.unchanged, ListUpdate.StaysInPlace, ServerArray.StaysInPlace]
    | some block =>
      simp only [ListUpdate.run, ServerArray.pushServers_eq]
      exact h.finished flags (by decide) block map_key_acceptServers
  | pushWithServerinfo realloc serverinfo =>
    simp only [ListUpdate.run, ListUpdate.StaysInPlace]
    by_cases he : serverinfo = [] ∨ flags.useUdp = true
    · have hr : (serverinfo.isEmpty || flags.useUdp) = true := by simpa using he
      simp [h.unchanged, ← or_assoc, he]
    · have hg : ¬(serverinfo.isEmpty || flags.useUdp) = true := by simpa using he
      simp only [← or_assoc, he, false_or, hg]
      cases realloc with
      | none => simp [h.unchanged, ServerArray.StaysInPlace]
      | some block =>
        simp only [ServerArray.pushServerinfo_eq]
        exact h.finished flags (by decide) block map_key_acceptAddrs

/-- A server with two unread bytes. -/
def pendingSlot : ServerSlot :=
  ⟨0, serverInit (default : Server).hostname 2 0 .tcp, false, 1, store (fun _ => 0) 3 [79, 75], 2, some ⟨0, 0, 3⟩⟩

def pendingArray : ServerArray := ⟨0, [pendingSlot], 1⟩

theorem pendingArray_wellFormed : pendingArray.WellFormed where
  own i s hs := by
    cases i with
    | zero =>
      cases hs
      exact ⟨3, rfl, by decide⟩
    | succ i => simp [pendingArray] at hs
  nodup := by decide
  created s hs := by
    cases mem_singleton.1 hs
    decide

def hostAt (port : UInt16) : ServerInfo := ⟨[], [], port, false, false⟩

/-- A server that comes behind the others disturbs none of them. -/
theorem input_kept_behind : pendingArray.WellFormed ∧ ∀ q, pendingArray.InputKept
    ((ListUpdate.pushWithServerinfo (some 0) [hostAt 3]).run q ⟨true, false, false, false⟩ pendingArray) := by
  refine ⟨pendingArray_wellFormed, (input_kept_iff _ pendingArray_wellFormed _ _).2.2
    (.inr (.inr (.inr fun block hb => ?_)))⟩
  cases hb
  refine ⟨rfl, fun _ => ⟨pairwise_singleton _ _, fun s hs k hk => ?_⟩⟩
  cases mem_singleton.1 hs
  cases mem_singleton.1 hk
  exact Prod.Lex.toLex_lt_toLex.2 (.inr ⟨rfl, by decide⟩)

/-- A server that comes before the other: the other's pointer is then into the buffer of the first.
And an array that is moved: the pointer is into the memory given back. -/
theorem input_moved :
    let sorted := (ListUpdate.pushWithServerinfo (some 0) [hostAt 1]).run Qsort.insertion
      ⟨true, false, false, false⟩ pendingArray
    let moved := (ListUpdate.pushWithCount (some 1) [] 0).run Qsort.insertion
      ⟨false, false, false, false⟩ pendingArray
    pendingArray.unread pendingSlot = some [79, 75] ∧
      sorted.slots[1]? = some pendingSlot ∧ sorted.unread pendingSlot = some [0, 0] ∧
      moved.slots[0]? = some pendingSlot ∧ moved.unread pendingSlot = none := by
  refine ⟨rfl, rfl, rfl, rfl, rfl⟩

end ArcusClient
