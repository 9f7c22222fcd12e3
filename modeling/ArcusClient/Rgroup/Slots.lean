import ArcusClient.Rgroup.GroupSpec

/-!
# A group with its slots

`memcached_rgroup_st` has an array of three pointers and a counter.  Here the functions that update one
group work on these, with the loops over indices that the source has.  They run in step with those on
the list of the servers (`update_related`): the slots below `nreplica` hold the servers of the list,
the others are null (`Slots`), and both fail in the same places.  `seen` has the values of `nreplica` on
the way, which the program does not keep.
-/

namespace ArcusClient

open CString Reconcile Outcome List Function

structure SlotSt where
  groupname : CStr
  groupindex : Nat
  weight : Nat
  nreplica : Nat
  /-- The slots, where `none` is a null pointer. -/
  replicas : Nat → Option Replica
  spare : SpareServers
  /-- The values that `nreplica` was given. -/
  seen : List Nat

namespace SlotSt

/-! ## One server -/

/-- The object for a new server, made from the free list. -/
def create (s : SlotSt) (hostname : Hostname) (port : UInt16) :
    Except Fault (Replica × SpareServers) :=
  GroupSt.create ⟨⟨s.groupname, s.groupindex, s.weight, []⟩, s.spare⟩ hostname port

/-- The servers from a slot on, `count` of them, are moved up by one.  The last one is moved first. -/
def moveUp (sindex : Nat) : (count : Nat) → (Nat → Option Replica) → Nat → Option Replica
  | 0, replicas => replicas
  | count + 1, replicas =>
    moveUp sindex count
      (Function.update replicas (sindex + count + 1) (replicas (sindex + count)))

/-- The servers behind a slot, `count` of them, are moved down by one. -/
def moveDown : (sindex count : Nat) → (Nat → Option Replica) → Nat → Option Replica
  | _, 0, replicas => replicas
  | sindex, count + 1, replicas =>
    moveDown (sindex + 1) count (Function.update replicas sindex (replicas (sindex + 1)))

/-- `do_rgroup_server_insert`. -/
def insert (s : SlotSt) (sindex : Int) (addr : Addr) : Except Fault SlotSt :=
  if rgroupMaxReplica ≤ s.nreplica then .error .assertion
  else if sindex < -1 ∨ (s.nreplica : Int) < sindex then .error .assertion
  else if h : isValidServername addr.hostname = true then do
    let (server, spare) ← s.create ⟨addr.hostname, h⟩ addr.port
    let replicas :=
      if sindex = -1 ∨ sindex = s.nreplica then Function.update s.replicas s.nreplica (some server)
      else Function.update (moveUp sindex.toNat (s.nreplica - sindex.toNat) s.replicas) sindex.toNat
        (some server)
    return { s with
      replicas := replicas
      nreplica := s.nreplica + 1
      spare := spare
      seen := s.seen ++ [s.nreplica + 1] }
  else .ok s

/-- `do_rgroup_server_remove`. -/
def remove (s : SlotSt) (sindex : Nat) : Except Fault SlotSt :=
  if s.nreplica ≤ sindex then .error .assertion
  else
    match s.replicas sindex with
    | none => .error .nullPointer
    | some server =>
      let replicas :=
        if sindex = s.nreplica - 1 then s.replicas
        else moveDown sindex (s.nreplica - 1 - sindex) s.replicas
      .ok { s with
        replicas := Function.update replicas (s.nreplica - 1) none
        nreplica := s.nreplica - 1
        spare := doRgroupServerFree s.spare server.object
        seen := s.seen ++ [s.nreplica - 1] }

/-- `do_rgroup_server_replace`. -/
def replace (s : SlotSt) (sindex : Nat) (addr : Addr) : Except Fault SlotSt :=
  if s.nreplica ≤ sindex then .error .assertion
  else if h : isValidServername addr.hostname = true then do
    let (server, spare) ← s.create ⟨addr.hostname, h⟩ addr.port
    match s.replicas sindex with
    | none => .error .nullPointer
    | some old =>
      return { s with
        replicas := Function.update s.replicas sindex (some server)
        spare := doRgroupServerFree spare old.object }
  else .ok s

/-- `do_rgroup_server_switchover`. -/
def switchover (s : SlotSt) (sindex : Nat) : Except Fault SlotSt :=
  if sindex = 0 ∨ s.nreplica ≤ sindex then .error .assertion
  else .ok { s with
    replicas := Function.update (Function.update s.replicas 0 (s.replicas sindex)) sindex (s.replicas 0) }

/-! ## Updating one group -/

def entry (new : List Addr) (j : Nat) : Except Fault Addr :=
  match new[j]? with
  | some addr => .ok addr
  | none => .error .nullPointer

/-- `RGROUP_SERVER_IS_SAME`. -/
def isSame (s : SlotSt) (i : Nat) (new : List Addr) (j : Nat) : Except Fault Bool :=
  match s.replicas i with
  | some server => do
    let addr ← entry new j
    return decide (server.key = addr)
  | none => .error .nullPointer

/-- The search for the first new server, from a slot on. -/
def findMaster (s : SlotSt) (new : List Addr) : (i left : Nat) → Except Fault (Option Nat)
  | _, 0 => .ok none
  | i, left + 1 => do
    if ← s.isSame i new 0 then return some i
    else s.findMaster new (i + 1) left

/-- The slave that `memcached_rgroup_switchover` makes the master. -/
def chosenSlave (s : SlotSt) (switchoverSidx : Int) (peer : CStr) : Except Fault (Option Nat) :=
  if switchoverSidx = -1 then
    match peerAddr peer with
    | some addr => s.findMaster [addr] 1 (s.nreplica - 1)
    | none => .ok none
  else .ok (some switchoverSidx.toNat)

def updateMaster (s : SlotSt) (new : List Addr) : Except Fault (Bool × SlotSt) := do
  if ← s.isSame 0 new 0 then return (false, s)
  else
    let found ← s.findMaster new 1 (s.nreplica - 1)
    let s ← match found with
      | some i => s.switchover i
      | none => do
        let addr ← entry new 0
        s.replace 0 addr
    return (true, s)

/-- A loop that removes the last server while there are more than `low`.  It takes no more rounds than
there are servers. -/
def removeDownTo (low : Nat) : (rounds : Nat) → SlotSt → Except Fault SlotSt
  | 0, s => .ok s
  | rounds + 1, s =>
    if low < s.nreplica then do
      let s ← s.remove (s.nreplica - 1)
      removeDownTo low rounds s
    else .ok s

/-- The loop that removes all slaves. -/
def removeAll : (rounds : Nat) → SlotSt → Except Fault SlotSt := removeDownTo 1

/-- `do_rgroup_destroy`. -/
def destroy (s : SlotSt) : Except Fault SlotSt := removeDownTo 0 s.nreplica s

/-- The search for a new slave that is the server in slot `i`, and that is not marked. -/
def findSlave (s : SlotSt) (i : Nat) (new : List Addr) (newSlaveExist : Nat → Bool) :
    (j left : Nat) → Except Fault (Option Nat)
  | _, 0 => .ok none
  | j, left + 1 =>
    if newSlaveExist j then s.findSlave i new newSlaveExist (j + 1) left
    else do
      if ← s.isSame i new j then return some j
      else s.findSlave i new newSlaveExist (j + 1) left

/-- The loop that removes the slaves that have disappeared.  After a removal the next slave is at
the same index. -/
def removeGone (new : List Addr) : (rounds i : Nat) → SlotSt → (Nat → Bool) →
    Except Fault (Bool × SlotSt × (Nat → Bool))
  | 0, _, s, newSlaveExist => .ok (false, s, newSlaveExist)
  | rounds + 1, i, s, newSlaveExist =>
    if s.nreplica ≤ i then .ok (false, s, newSlaveExist)
    else do
      match ← s.findSlave i new newSlaveExist 1 (new.length - 1) with
      | some j => removeGone new rounds (i + 1) s (Function.update newSlaveExist j true)
      | none => do
        let s ← s.remove i
        let (_, s, newSlaveExist) ← removeGone new rounds i s newSlaveExist
        return (true, s, newSlaveExist)

def insertNew (new : List Addr) (newSlaveExist : Nat → Bool) : (i left : Nat) → SlotSt →
    Except Fault (Bool × SlotSt)
  | _, 0, s => .ok (false, s)
  | i, left + 1, s =>
    if newSlaveExist i then insertNew new newSlaveExist (i + 1) left s
    else do
      let addr ← entry new i
      let s ← s.insert (-1) addr
      let (_, s) ← insertNew new newSlaveExist (i + 1) left s
      return (true, s)

/-- The loop that gives slaves to a group that had none. -/
def insertAll (new : List Addr) : (i left : Nat) → SlotSt → Except Fault SlotSt
  | _, 0, s => .ok s
  | i, left + 1, s => do
    let addr ← entry new i
    let s ← s.insert i addr
    insertAll new (i + 1) left s

def replaceMaster (s : SlotSt) (new : List Addr) : Except Fault (Bool × SlotSt) := do
  if ← s.isSame 0 new 0 then return (false, s)
  else
    let addr ← entry new 0
    let s ← s.replace 0 addr
    return (true, s)

def updateSlaves (s : SlotSt) (new : List Addr) : Except Fault (Bool × SlotSt) :=
  if new.length = 1 then do
    let s ← removeAll s.nreplica s
    return (true, s)
  else do
    let (removed, s, newSlaveExist) ← removeGone new s.nreplica 1 s fun _ => false
    let (inserted, s) ← insertNew new newSlaveExist 1 (new.length - 1) s
    return (removed || inserted, s)

/-- The body of `memcached_rgroup_update_with_groupinfo` and of `memcached_rgroup_update`, for a new
group with the given servers in its slots. -/
def update (s : SlotSt) (new : List Addr) : Except Fault (Bool × SlotSt) :=
  if s.nreplica = 1 then do
    let (changed, s) ← s.replaceMaster new
    if 1 < new.length then do
      let s ← insertAll new 1 (new.length - 1) s
      return (true, s)
    else return (changed, s)
  else do
    let (changed, s) ← s.updateMaster new
    let (changed', s) ← s.updateSlaves new
    return (changed || changed', s)

/-- `memcached_rgroup_update_with_groupinfo`. -/
def rgroupUpdateWithGroupinfo (s : SlotSt) (rginfo : RgroupInfo) : Except Fault (Bool × SlotSt) :=
  s.update (rginfo.replicas.map ServerInfo.key)

/-- The addresses in the slots below `nreplica`. -/
def keys (s : SlotSt) : List Addr := (List.range s.nreplica).filterMap fun i =>
  (s.replicas i).map Replica.key

/-- `memcached_rgroup_update`. -/
def rgroupUpdate (s newRgroup : SlotSt) : Except Fault (Bool × SlotSt) := s.update newRgroup.keys

/-! ## Moving servers -/

theorem moveUp_apply (sindex count : Nat) (replicas : Nat → Option Replica) (k : Nat) :
    moveUp sindex count replicas k =
      if sindex < k ∧ k ≤ sindex + count then replicas (k - 1) else replicas k := by
  induction count generalizing replicas with
  | zero =>
    rw [moveUp, if_neg (by omega)]
  | succ count ih =>
    rw [moveUp, ih]
    by_cases hl : k = sindex + count + 1
    · subst hl
      rw [if_neg (by omega), if_pos (by omega), update_self]
      rfl
    · by_cases hin : sindex < k ∧ k ≤ sindex + count
      · rw [if_pos hin, if_pos (by omega), update_of_ne (by omega)]
      · rw [if_neg hin, if_neg (by omega), update_of_ne hl]

theorem moveDown_apply (sindex count : Nat) (replicas : Nat → Option Replica) (k : Nat) :
    moveDown sindex count replicas k =
      if sindex ≤ k ∧ k < sindex + count then replicas (k + 1) else replicas k := by
  induction count generalizing sindex replicas with
  | zero =>
    rw [moveDown, if_neg (by omega)]
  | succ count ih =>
    rw [moveDown, ih]
    by_cases hf : k = sindex
    · subst hf
      rw [if_neg (by omega), if_pos (by omega), update_self]
    · by_cases hin : sindex + 1 ≤ k ∧ k < sindex + 1 + count
      · rw [if_pos hin, if_pos (by omega), update_of_ne (by omega)]
      · rw [if_neg hin, if_neg (by omega), update_of_ne hf]

/-! ## The list in the slots -/

/-- The slots hold the servers of the list, and the counter has been between `low` and three. -/
structure Slots (low : Nat) (s : SlotSt) (st : GroupSt) : Prop where
  groupname : s.groupname = st.group.groupname
  groupindex : s.groupindex = st.group.groupindex
  weight : s.weight = st.group.weight
  nreplica : s.nreplica = st.group.nreplica
  replicas : ∀ i, s.replicas i = st.group.replicas[i]?
  spare : s.spare = st.spare
  low_le : low ≤ st.group.nreplica
  length_le : st.group.nreplica ≤ rgroupMaxReplica
  seen : ∀ n ∈ s.seen, low ≤ n ∧ n ≤ rgroupMaxReplica

variable {low : Nat} {s : SlotSt} {st : GroupSt}

theorem Slots.create (h : Slots low s st) (hostname : Hostname) (port : UInt16) :
    s.create hostname port = st.create hostname port := by
  rw [SlotSt.create, GroupSt.create, GroupSt.create, h.spare, h.groupindex]

theorem filterMap_range_getElem? {α : Type} (f : Replica → α) : ∀ l : List Replica,
    (List.range l.length).filterMap (fun i => l[i]?.map f) = l.map f
  | [] => rfl
  | r :: l => by
    have ih := filterMap_range_getElem? f l
    rw [length_cons, range_succ_eq_map, filterMap_cons]
    simpa using ih

theorem Slots.keys (h : Slots low s st) : s.keys = st.keys := by
  rw [SlotSt.keys, h.nreplica]
  simp only [h.replicas]
  exact filterMap_range_getElem? Replica.key st.group.replicas

/-! ## One server, in step -/

/-- An index of the list as one of the slots, where -1 stands for the end. -/
def slotIndex : Option Nat → Int
  | some sindex => sindex
  | none => -1

variable {slots : Nat → Option Replica} {l : List Replica}

theorem insert_slots (hs : ∀ k, slots k = l[k]?) (hl : sindex.getD l.length ≤ l.length)
    (server : Replica) (k : Nat) :
    (if slotIndex sindex = -1 ∨ slotIndex sindex = l.length then
        Function.update slots l.length (some server) else
        Function.update (moveUp (slotIndex sindex).toNat (l.length - (slotIndex sindex).toNat) slots)
          (slotIndex sindex).toNat (some server)) k =
      (l.insertIdx (sindex.getD l.length) server)[k]? := by
  rw [getElem?_insertIdx]
  by_cases he : slotIndex sindex = -1 ∨ slotIndex sindex = l.length
  · have hla : sindex.getD l.length = l.length := by
      cases sindex with
      | none => rfl
      | some i => simpa [slotIndex] using he
    rw [if_pos he, hla]
    by_cases hk : k = l.length
    · subst hk
      simp
    · rw [update_of_ne hk, hs]
      split_ifs with hlt
      · rfl
      · rw [getElem?_eq_none (by omega), getElem?_eq_none (by omega)]
  · obtain ⟨i, rfl⟩ : ∃ i, sindex = some i := by
      cases sindex with
      | none => exact absurd (Or.inl rfl) he
      | some i => exact ⟨i, rfl⟩
    have hi : i < l.length := by simp [slotIndex] at he hl; omega
    rw [if_neg he]
    simp only [slotIndex, Int.toNat_natCast, Option.getD_some]
    by_cases hk : k = i
    · subst hk
      rw [update_self, if_neg (by omega), if_pos rfl, if_pos (by omega)]
    · rw [update_of_ne hk, moveUp_apply, hs, hs, if_neg hk]
      by_cases hlt : k < i
      · rw [if_neg (by omega), if_pos hlt]
      · rw [if_neg hlt]
        by_cases hin : k ≤ l.length
        · rw [if_pos (by omega)]
        · rw [if_neg (by omega), getElem?_eq_none (by omega), getElem?_eq_none (by omega)]

theorem Slots.index_out (h : Slots low s st) (sindex : Option Nat) :
    (slotIndex sindex < -1 ∨ (s.nreplica : Int) < slotIndex sindex) ↔
      st.group.nreplica < sindex.getD 0 := by
  rw [h.nreplica]
  cases sindex with
  | none | some i => simp [slotIndex]

theorem related_create (st : GroupSt) (hostname : Hostname) (port : UInt16) :
    Related Eq (st.create hostname port) (st.create hostname port) := by
  cases st.create hostname port <;> simp

theorem insert_related (h : Slots low s st) (sindex : Option Nat) (addr : Addr) :
    Related (Slots low) (s.insert (slotIndex sindex) addr) (st.insert sindex addr) := by
  rw [SlotSt.insert, GroupSt.insert]
  simp only [h.index_out sindex]
  by_cases hf : rgroupMaxReplica ≤ st.group.nreplica
  · rw [if_pos (h.nreplica ▸ hf), if_pos hf]
    rfl
  by_cases hin : st.group.nreplica < sindex.getD 0
  · rw [if_neg (h.nreplica ▸ hf), if_neg hf, if_pos hin, if_pos hin]
    rfl
  rw [if_neg (h.nreplica ▸ hf), if_neg hf, if_neg hin, if_neg hin]
  by_cases hna : isValidServername addr.hostname = true
  · rw [dif_pos hna, dif_pos hna, h.create]
    refine (related_create st ⟨addr.hostname, hna⟩ addr.port).bind ?_
    rintro ⟨server, spare⟩ _ rfl
    have hl : sindex.getD st.group.nreplica ≤ st.group.nreplica := by
      cases sindex with
      | none => exact le_refl _
      | some i => simpa using hin
    have hlen : (st.group.replicas.insertIdx (sindex.getD st.group.nreplica) server).length =
        st.group.nreplica + 1 := by
      rw [length_insertIdx]
      exact if_pos hl
    have hlo := h.low_le
    refine ⟨h.groupname, h.groupindex, h.weight, ?_, fun k => ?_, rfl, ?_, ?_, fun n hn => ?_⟩
    · rw [Rgroup.nreplica, hlen, ← h.nreplica]
    · rw [h.nreplica]
      exact insert_slots h.replicas hl server k
    · rw [Rgroup.nreplica, hlen]
      omega
    · rw [Rgroup.nreplica, hlen]
      omega
    · rcases mem_append.1 hn with hn | hn
      · exact h.seen n hn
      · rw [mem_singleton.1 hn, h.nreplica]
        omega
  · rw [dif_neg hna, dif_neg hna]
    exact h

theorem remove_slots (hs : ∀ k, slots k = l[k]?) (hl : sindex < l.length) (k : Nat) :
    Function.update
        (if sindex = l.length - 1 then slots else moveDown sindex (l.length - 1 - sindex) slots)
        (l.length - 1) none k = (l.eraseIdx sindex)[k]? := by
  rw [getElem?_eraseIdx]
  by_cases hk : k = l.length - 1
  · subst hk
    rw [update_self, if_neg (by omega), getElem?_eq_none (by omega)]
  · rw [update_of_ne hk]
    by_cases hla : sindex = l.length - 1
    · rw [if_pos hla, hs]
      split_ifs with hb
      · rfl
      · rw [getElem?_eq_none (by omega), getElem?_eq_none (by omega)]
    · rw [if_neg hla, moveDown_apply, hs, hs]
      by_cases hb : k < sindex
      · rw [if_neg (by omega), if_pos hb]
      · rw [if_neg hb]
        by_cases hin : k < l.length - 1
        · rw [if_pos (by omega)]
        · rw [if_neg (by omega), getElem?_eq_none (by omega), getElem?_eq_none (by omega)]

theorem remove_related (h : Slots low s st) (hm : low < st.group.nreplica) (sindex : Nat) :
    Related (Slots low) (s.remove sindex) (st.remove sindex) := by
  have ht := h.length_le
  rw [SlotSt.remove, GroupSt.remove, h.nreplica, h.replicas]
  by_cases hl : sindex < st.group.nreplica
  · rw [if_neg (not_le.2 hl), getElem?_eq_getElem hl]
    have hle : (st.group.replicas.eraseIdx sindex).length = st.group.nreplica - 1 :=
      length_eraseIdx_of_lt hl
    refine ⟨h.groupname, h.groupindex, h.weight, hle.symm,
      fun k => remove_slots h.replicas hl k, ?_, ?_, ?_, fun n hn => ?_⟩
    · rw [h.spare]
    · rw [Rgroup.nreplica, hle]
      omega
    · rw [Rgroup.nreplica, hle]
      omega
    · rcases mem_append.1 hn with hn | hn
      · exact h.seen n hn
      · rw [mem_singleton.1 hn]
        omega
  · rw [if_pos (not_lt.1 hl), getElem?_eq_none (not_lt.1 hl)]
    rfl

theorem update_slots (hs : ∀ k, slots k = l[k]?) (hl : sindex < l.length) (server : Replica)
    (k : Nat) :
    Function.update slots sindex (some server) k = (l.set sindex server)[k]? := by
  by_cases hk : k = sindex
  · subst hk
    rw [update_self, getElem?_set_self hl]
  · rw [update_of_ne hk, getElem?_set_ne (Ne.symm hk), hs]

theorem replace_related (h : Slots low s st) (sindex : Nat) (addr : Addr) :
    Related (Slots low) (s.replace sindex addr) (st.replace sindex addr) := by
  rw [SlotSt.replace, GroupSt.replace, h.nreplica, h.replicas]
  by_cases hl : sindex < st.group.nreplica
  · rw [if_neg (not_le.2 hl), getElem?_eq_getElem hl]
    by_cases hn : isValidServername addr.hostname = true
    · simp only [dif_pos hn, h.create]
      refine (related_create st ⟨addr.hostname, hn⟩ addr.port).bind ?_
      rintro ⟨server, spare⟩ _ rfl
      have hle : (st.group.replicas.set sindex server).length = st.group.nreplica :=
        length_set
      refine ⟨h.groupname, h.groupindex, h.weight, ?_,
        fun k => update_slots h.replicas hl server k, rfl, ?_, ?_, h.seen⟩
      · exact hle.symm
      · rw [Rgroup.nreplica, hle]
        exact h.low_le
      · rw [Rgroup.nreplica, hle]
        exact h.length_le
    · simp only [dif_neg hn]
      exact h
  · rw [if_pos (not_lt.1 hl), getElem?_eq_none (not_lt.1 hl)]
    rfl

theorem switchover_related (h : Slots low s st) (sindex : Nat) :
    Related (Slots low) (s.switchover sindex) (st.switchover sindex) := by
  rw [SlotSt.switchover, GroupSt.switchover, h.nreplica]
  by_cases ho : sindex = 0 ∨ st.group.nreplica ≤ sindex
  · rw [(swapMaster_eq_none ho : swapMaster st.group.replicas sindex = none), if_pos ho]
    rfl
  · obtain ⟨hz, hl⟩ := not_or.1 ho
    have hlt : sindex < st.group.replicas.length := not_le.1 hl
    have hm : 0 < st.group.replicas.length := Nat.zero_lt_of_lt hlt
    rw [swapMaster_eq_some hm (Nat.pos_of_ne_zero hz) hlt, if_neg ho]
    have hle : ((st.group.replicas.set 0 st.group.replicas[sindex]).set sindex
        st.group.replicas[0]).length = st.group.nreplica := by
      rw [length_set, length_set]
      rfl
    refine ⟨h.groupname, h.groupindex, h.weight, hle.symm, fun k => ?_, h.spare, ?_, ?_, h.seen⟩
    · simp only [h.replicas sindex, h.replicas 0, getElem?_eq_getElem hlt, getElem?_eq_getElem hm]
      exact update_slots (fun k => update_slots h.replicas hm _ k)
        (by rw [length_set]; exact hlt) _ k
    · exact h.low_le.trans_eq hle.symm
    · exact hle.trans_le h.length_le

/-! ## The searches -/

variable {i : Nat} {server : Replica}

theorem isSame_eq (hs : s.replicas i = some server) (ha : new[j]? = some addr) :
    s.isSame i new j = .ok (decide (server.key = addr)) := by
  rw [isSame, hs, entry, ha]
  rfl

theorem isSame_nil (hs : s.replicas i = some server) (j : Nat) :
    s.isSame i [] j = .error .nullPointer := by
  rw [isSame, hs]
  rfl

theorem Slots.drop_cons (h : Slots low s st) (hd : st.group.replicas.drop i = server :: rest) :
    s.replicas i = some server ∧ st.group.replicas.drop (i + 1) = rest := by
  refine ⟨?_, ?_⟩
  · rw [h.replicas, ← head?_drop, hd, head?_cons]
  · rw [← tail_drop, hd, tail_cons]

theorem findMaster_eq (h : Slots low s st)
    (hn : new[0]? = some newMaster) : ∀ (rest : List Replica) (i : Nat),
    st.group.replicas.drop i = rest → s.findMaster new i rest.length =
      .ok ((rest.findIdx? fun r => r.key = newMaster).map (· + i))
  | [], _, _ => rfl
  | server :: rest, i, hd => by
    obtain ⟨hs, hr⟩ := h.drop_cons hd
    rw [length_cons, findMaster, isSame_eq hs hn, findIdx?_cons]
    by_cases hk : server.key = newMaster
    · simp [hk, bind, Except.bind, pure, Except.pure]
    · have ih := findMaster_eq h hn rest (i + 1) hr
      simp only [bind, Except.bind, hk, decide_false, Bool.false_eq_true, if_false, ih,
        Option.map_map]
      congr 2
      funext k
      simp only [comp_apply]
      omega

theorem chosenSlave_eq (h : Slots low s st) (switchoverSidx : Int) (peer : CStr) :
    s.chosenSlave switchoverSidx peer =
      .ok (ArcusClient.chosenSlave Replica.key st.group.replicas switchoverSidx peer) := by
  rw [SlotSt.chosenSlave, ArcusClient.chosenSlave, findPeer]
  split
  · cases peerAddr peer with
    | none => rfl
    | some addr =>
      have hf := findMaster_eq h (rfl : [addr][0]? = some addr) st.group.replicas.tail 1
        (drop_one)
      rwa [length_tail, ← Rgroup.nreplica, ← h.nreplica] at hf
  · rfl

def marksFrom (newSlaveExist : Nat → Bool) : (j : Nat) → List Addr → List (Addr × Bool)
  | _, [] => []
  | j, addr :: rest => (addr, newSlaveExist j) :: marksFrom newSlaveExist (j + 1) rest

theorem marksFrom_update_of_lt (h : k < j) (newSlaveExist : Nat → Bool) : ∀ addrs : List Addr,
      marksFrom (Function.update newSlaveExist k true) j addrs = marksFrom newSlaveExist j addrs
  | [] => rfl
  | addr :: rest => by
    rw [marksFrom, marksFrom, marksFrom_update_of_lt (by omega) newSlaveExist rest,
      update_of_ne (by omega)]

theorem marksFrom_false (j : Nat) : ∀ addrs : List Addr,
    marksFrom (fun _ => false) j addrs = addrs.map fun a => (a, false)
  | [] => rfl
  | addr :: rest => by
    rw [marksFrom, marksFrom_false (j + 1) rest]
    rfl

theorem findSlave_spec (hs : s.replicas i = some server)
    (new : List Addr) (newSlaveExist : Nat → Bool) : ∀ (rest : List Addr) (j : Nat),
    new.drop j = rest →
    ∃ found, s.findSlave i new newSlaveExist j rest.length = .ok found ∧ (∀ k ∈ found, j ≤ k) ∧
      claim Prod.snd (fun e => (e.1, true)) Prod.fst server.key (marksFrom newSlaveExist j rest) =
        found.map fun k => marksFrom (Function.update newSlaveExist k true) j rest
  | [], _, _ => ⟨none, rfl, by simp, rfl⟩
  | addr :: rest, j, hd => by
    have ha : new[j]? = some addr := by rw [← List.head?_drop, hd, List.head?_cons]
    have hr : new.drop (j + 1) = rest := by rw [← List.tail_drop, hd, List.tail_cons]
    obtain ⟨found, hf, hg, hc⟩ :=
      findSlave_spec hs new newSlaveExist rest (j + 1) hr
    -- a slave found behind this one leaves the mark of this one alone
    have hl : (claim Prod.snd (fun e => (e.1, true)) Prod.fst server.key
        (marksFrom newSlaveExist (j + 1) rest)).map ((addr, newSlaveExist j) :: ·) =
        found.map fun k => marksFrom (Function.update newSlaveExist k true) j (addr :: rest) := by
      rw [hc]
      cases found with
      | none => rfl
      | some k =>
        have hk := hg k rfl
        simp only [Option.map_some, marksFrom]
        rw [Function.update_of_ne (by omega)]
    rw [List.length_cons, findSlave, marksFrom, claim]
    cases hm : newSlaveExist j with
    | true =>
      rw [hm] at hl
      exact ⟨found, by simpa using hf, fun k hk => by have := hg k hk; omega,
        by simpa using hl⟩
    | false =>
      rw [hm] at hl
      rw [isSame_eq hs ha]
      by_cases hke : server.key = addr
      · refine ⟨some j, by simp [hke, bind, Except.bind, pure, Except.pure], by simp, ?_⟩
        simp [hke, marksFrom, marksFrom_update_of_lt (Nat.lt_succ_self j)]
      · refine ⟨found, ?_, fun k hk => by have := hg k hk; omega, ?_⟩
        · simpa [hke, bind, Except.bind] using hf
        · simpa [Ne.symm hke] using hl

/-! ## The loops, in step -/

def InStep (low : Nat) (r : Bool × SlotSt) (r' : Bool × GroupSt) : Prop :=
  r.1 = r'.1 ∧ Slots low r.2 r'.2

theorem updateMaster_related (h : Slots low s st) (newMaster : Addr) (newSlaves : List Addr) :
    Related (InStep low) (s.updateMaster (newMaster :: newSlaves)) (st.updateMaster newMaster) := by
  have hn : (newMaster :: newSlaves)[0]? = some newMaster := rfl
  rw [SlotSt.updateMaster, GroupSt.updateMaster]
  cases hr : st.group.replicas with
  | nil =>
    rw [isSame, h.replicas, hr]
    rfl
  | cons master slaves =>
    obtain ⟨hm, hs⟩ := h.drop_cons (i := 0) hr
    have hl : s.nreplica - 1 = slaves.length := by
      rw [h.nreplica, Rgroup.nreplica, hr]
      rfl
    rw [isSame_eq hm hn, hl, findMaster_eq h hn slaves 1 hs]
    by_cases hsa : master.key = newMaster
    · simp only [hsa]
      exact ⟨rfl, h⟩
    · simp only [hsa]
      cases hf : slaves.findIdx? fun r => r.key = newMaster with
      | some i =>
        exact (switchover_related h (i + 1)).bind fun _ _ h' => ⟨rfl, h'⟩
      | none =>
        exact (replace_related h 0 newMaster).bind fun _ _ h' => ⟨rfl, h'⟩

theorem remove_replicas (st : GroupSt) (sindex : Nat) :
    Ends (fun _ => True) (fun st' => st'.group.replicas = st.group.replicas.eraseIdx sindex)
      (st.remove sindex) := by
  rw [GroupSt.remove]
  cases st.group.replicas[sindex]? with
  | none => trivial
  | some server => rfl

theorem removeDownTo_related (hl : low ≤ last) : ∀ (count rounds : Nat) {s : SlotSt} {st : GroupSt},
    Slots low s st → st.group.nreplica = last + count → count ≤ rounds →
    Related (Slots low) (removeDownTo last rounds s) (st.removeLast count)
  | 0, 0, _, _, h, _, _ => h
  | 0, rounds + 1, s, st, h, hc, _ => by
    rw [removeDownTo, h.nreplica, hc, if_neg (by omega)]
    exact h
  | count + 1, rounds + 1, s, st, h, hc, hr => by
    rw [removeDownTo, h.nreplica, if_pos (by omega)]
    have hre := (remove_related h (by omega) (st.group.nreplica - 1)).and_ends
      (remove_replicas st (st.group.nreplica - 1))
    refine hre.bind fun s₁ st₁ h₁ => removeDownTo_related hl count rounds h₁.1 ?_ (by omega)
    rw [Rgroup.nreplica, h₁.2, length_eraseIdx_of_lt (by rw [Rgroup.nreplica] at *; omega)]
    rw [Rgroup.nreplica] at hc
    omega

section Loops

variable (hlow : low ≤ 1)

include hlow

theorem removeGone_related (new : List Addr) : ∀ (slaves : List Replica) (rounds i : Nat)
    {s : SlotSt} {st : GroupSt} (newSlaveExist : Nat → Bool), Slots low s st → 0 < i →
    st.group.replicas.drop i = slaves → slaves.length ≤ rounds →
    Related (fun r r' => r.1 = r'.1 ∧ Slots low r.2.1 r'.2.1 ∧ r'.2.2 = marksFrom r.2.2 1 (new.drop 1))
      (removeGone new rounds i s newSlaveExist)
      (st.removeSlaves i slaves (marksFrom newSlaveExist 1 (new.drop 1)))
  | [], 0, _, _, _, _, h, _, _, _ => ⟨rfl, h, rfl⟩
  | [], rounds + 1, i, s, st, newSlaveExist, h, _, hd, _ => by
    have he : st.group.nreplica ≤ i := drop_eq_nil_iff.1 hd
    rw [removeGone, h.nreplica, if_pos he]
    exact ⟨rfl, h, rfl⟩
  | server :: rest, rounds + 1, i, s, st, newSlaveExist, h, hi, hd, hr => by
    obtain ⟨hs, hre⟩ := h.drop_cons hd
    rw [length_cons] at hr
    have hl : i < st.group.nreplica := by
      have := congrArg length hd
      rw [length_drop, length_cons] at this
      rw [Rgroup.nreplica]
      omega
    obtain ⟨found, hf, -, hc⟩ := findSlave_spec hs new newSlaveExist (new.drop 1) 1 rfl
    rw [length_drop] at hf
    rw [removeGone, GroupSt.removeSlaves, h.nreplica, if_neg (not_le.2 hl), hf, hc]
    cases found with
    | some j =>
      exact removeGone_related new rest rounds (i + 1) _ h (Nat.succ_pos i) hre (by omega)
    | none =>
      have hrel := (remove_related h (by omega) i).and_ends (remove_replicas st i)
      refine hrel.bind fun s₁ st₁ h₁ => ?_
      have hd₁ : st₁.group.replicas.drop i = rest := by
        rw [h₁.2, eraseIdx_eq_take_drop_succ, hre,
          drop_append_of_le_length (by rw [length_take]; rw [Rgroup.nreplica] at hl; omega)]
        simp
      refine (removeGone_related new rest rounds i newSlaveExist h₁.1 hi hd₁ (by omega)).bind ?_
      rintro r r' ⟨-, h₂, hm⟩
      exact ⟨rfl, h₂, hm⟩

omit hlow in
theorem insertNew_related (new : List Addr) (newSlaveExist : Nat → Bool) : ∀ (rest : List Addr)
    (i : Nat) {s : SlotSt} {st : GroupSt}, Slots low s st → new.drop i = rest →
    Related (InStep low) (insertNew new newSlaveExist i rest.length s)
      (st.insertSlaves (marksFrom newSlaveExist i rest))
  | [], _, _, _, h, _ => ⟨rfl, h⟩
  | addr :: rest, i, s, st, h, hd => by
    have ha : new[i]? = some addr := by rw [← head?_drop, hd, head?_cons]
    have hr : new.drop (i + 1) = rest := by rw [← tail_drop, hd, tail_cons]
    rw [length_cons, insertNew, marksFrom, entry, ha]
    cases newSlaveExist i with
    | true => exact insertNew_related new newSlaveExist rest (i + 1) h hr
    | false =>
      refine (insert_related h none addr).bind fun s₁ st₁ h₁ => ?_
      refine (insertNew_related new newSlaveExist rest (i + 1) h₁ hr).bind ?_
      rintro r r' ⟨-, h₂⟩
      exact ⟨rfl, h₂⟩

omit hlow in
theorem insertAll_related (new : List Addr) : ∀ (rest : List Addr) (i : Nat) {s : SlotSt}
    {st : GroupSt}, Slots low s st → new.drop i = rest →
    Related (Slots low) (insertAll new i rest.length s) (st.insertFrom i rest)
  | [], _, _, _, h, _ => h
  | addr :: rest, i, s, st, h, hd => by
    have ha : new[i]? = some addr := by rw [← head?_drop, hd, head?_cons]
    have hr : new.drop (i + 1) = rest := by rw [← tail_drop, hd, tail_cons]
    rw [length_cons, insertAll, entry, ha]
    exact (insert_related h (some i) addr).bind fun s₁ st₁ h₁ =>
      insertAll_related new rest (i + 1) h₁ hr

/-! ## The update of a group, in step -/

omit hlow in
theorem replaceMaster_related (h : Slots low s st) (hm : s.replicas 0 = some master)
    (newMaster : Addr) (newSlaves : List Addr) :
    Related (fun r st' => r.1 = (master.key != newMaster) ∧ Slots low r.2 st')
      (s.replaceMaster (newMaster :: newSlaves)) (st.replaceMaster master newMaster) := by
  rw [SlotSt.replaceMaster, GroupSt.replaceMaster,
    (isSame_eq hm rfl : s.isSame 0 (newMaster :: newSlaves) 0 = .ok (decide (master.key = newMaster)))]
  by_cases hs : master.key = newMaster
  · simp only [hs]
    exact ⟨by simp, h⟩
  · simp only [hs]
    rw [← bind_pure (st.replace 0 newMaster)]
    exact (replace_related h 0 newMaster).bind fun _ _ h' => ⟨by simp [hs], h'⟩

theorem updateSlaves_related (h : Slots low s st) (hp : 0 < st.group.nreplica) (newMaster : Addr)
    (newSlaves : List Addr) :
    Related (InStep low) (s.updateSlaves (newMaster :: newSlaves)) (st.updateSlaves newSlaves) := by
  rw [SlotSt.updateSlaves, GroupSt.updateSlaves]
  cases newSlaves with
  | nil =>
    refine (removeDownTo_related hlow (st.group.nreplica - 1) s.nreplica h (by omega) ?_).bind
      fun _ _ h₁ => ⟨rfl, h₁⟩
    rw [h.nreplica]
    omega
  | cons slave slaves =>
    have hg := removeGone_related hlow (newMaster :: slave :: slaves) (st.group.replicas.drop 1)
      s.nreplica 1 (fun _ => false) h Nat.one_pos rfl (by
        rw [h.nreplica, length_drop]
        exact Nat.sub_le _ _)
    rw [drop_succ_cons, marksFrom_false] at hg
    refine hg.bind ?_
    rintro ⟨removed, s₁, newSlaveExist⟩ ⟨removed', st₁, marked⟩ ⟨hf, h₁, hm⟩
    subst hf hm
    refine (insertNew_related (newMaster :: slave :: slaves) newSlaveExist (slave :: slaves) 1 h₁
      rfl).bind ?_
    rintro ⟨inserted, s₂⟩ ⟨inserted', st₂⟩ ⟨hf, h₂⟩
    subst hf
    exact ⟨rfl, h₂⟩

theorem update_related (h : Slots low s st) (new : List Addr) :
    Related (InStep low) (s.update new) (st.update new) := by
  cases hr : st.group.replicas with
  | nil =>
    have hn : s.nreplica ≠ 1 := by simp [h.nreplica, Rgroup.nreplica, hr]
    rw [SlotSt.update, if_neg hn, SlotSt.updateMaster, isSame, h.replicas, hr]
    cases new with
    | nil => rfl
    | cons newMaster newSlaves =>
      rw [GroupSt.update, hr]
      rfl
  | cons master slaves =>
    obtain ⟨hm, -⟩ := h.drop_cons (i := 0) hr
    cases new with
    | nil =>
      rw [SlotSt.update, SlotSt.replaceMaster, SlotSt.updateMaster, isSame_nil hm]
      split_ifs <;> rfl
    | cons newMaster newSlaves =>
      rw [SlotSt.update, GroupSt.update, h.nreplica, hr]
      cases slaves with
      | nil =>
        rw [if_pos (by rw [Rgroup.nreplica, hr]; rfl)]
        refine (replaceMaster_related h hm newMaster newSlaves).bind ?_
        rintro ⟨changed, s₁⟩ st₁ ⟨hf, h₁⟩
        cases newSlaves with
        | nil => exact ⟨by simpa using hf, h₁⟩
        | cons newSlave rest =>
          refine (insertAll_related (newMaster :: newSlave :: rest) (newSlave :: rest) 1 h₁
            rfl).bind fun s₂ st₂ h₂ => ⟨?_, h₂⟩
          simp
      | cons slave slaves =>
        rw [if_neg (by rw [Rgroup.nreplica, hr]; simp)]
        refine ((updateMaster_related h newMaster newSlaves).and_ends
          (GroupSt.updateMaster_ends st newMaster)).bind ?_
        rintro ⟨changed, s₁⟩ ⟨changed', st₁⟩ ⟨⟨hf, h₁⟩, -, hl, -⟩
        subst hf
        have hp : 0 < st₁.group.nreplica := by
          rw [← GroupSt.length_keys, hl, GroupSt.length_keys, Rgroup.nreplica, hr]
          exact Nat.succ_pos _
        refine (updateSlaves_related hlow h₁ hp newMaster newSlaves).bind ?_
        rintro ⟨more, s₂⟩ ⟨more', st₂⟩ ⟨hf, h₂⟩
        subst hf
        exact ⟨rfl, h₂⟩

end Loops

end SlotSt

end ArcusClient
