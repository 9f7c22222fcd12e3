import ArcusClient.Store.SendMulti

/-!
# Switchover after a notice

A server that is no longer the master says so with a line `SWITCHOVER` or `REPL_SLAVE`, which may name
the server that is the master now.  Without a name that fits its buffer, `textual_switchover_peer_check`
chooses slave 1.  `memcached_rgroup_switchover` looks the name up among the slaves, or takes the slave
that was chosen, and exchanges it with the master.  There need not be a slave 1, and the port of the
name is cut to 16 bits.  Apart from this the group has the right master afterwards, or is left alone
(`switchover_safe_iff`).
-/

namespace ArcusClient.Store

open CString Coll List

section Notice

variable {α : Type}

structure IsMaster (s : Servers α) (group : Nat) (members : List Member) (o : Nat) : Prop where
  group_eq : s.groups[group]? = some members
  master : members.head?.map Member.object = some o
  groupindex : (s.object o).groupindex = group

/-- The name that follows the word, if it fits the buffer. -/
def usablePeer (rest : List Byte) : Option CStr :=
  if rest.head?.map Fin.val ≠ some 32 then none
  else
    let peer := rest.tail.takeWhile fun b => b.1 != 13 && b.1 != 10
    if peer.length < switchoverPeerSize then some (cString peer) else none

/-- A server gives notice, with `rest` after the word, and its group switches over. -/
def Servers.notice (s : Servers α) (o : Nat) (rest : List Byte) : Except Fault (Bool × Servers α) :=
  (s.update o fun server => server.peerCheck rest).switchover o

def Names (peer : CStr) (m : Member) : Prop :=
  ∃ host port more, tokens [ofChar ':'] peer = host :: port :: more ∧ m.hostname = host ∧
    (m.port.toNat : Int) = atoi port

def SwitchedTo (s s' : Servers α) (group : Nat) (members : List Member) (slave : Member) : Prop :=
  ∃ k members', members[k]? = some slave ∧ 0 < k ∧ s'.groups = s.groups.set group members' ∧
    members'.Perm members ∧ members'[0]? = some slave ∧ members'[k]? = members[0]?

/-- The group is left alone, or its master is the server that was named, or slave 1 if there was no
name. -/
def SafeNotice (s : Servers α) (group : Nat) (members : List Member) (o : Nat) (rest : List Byte) :
    Prop :=
  ∃ done s', s.notice o rest = .ok (done, s') ∧ (done = false → s'.groups = s.groups) ∧
    (done = true → ∃ slave, SwitchedTo s s' group members slave ∧
      match usablePeer rest with
      | some peer => Names peer slave
      | none => members[1]? = some slave)

/-- There is a slave if none is named, and a slave that is taken for the one that is named has
its very port. -/
def PeerFits (members : List Member) : Option CStr → Prop
  | some peer => ∀ host port more, tokens [ofChar ':'] peer = host :: port :: more →
      ∀ m ∈ members.tail, m.hostname = host → m.port ≠ 0 →
        (m.port.toNat : Int) = atoi port % 2 ^ 16 → (m.port.toNat : Int) = atoi port
  | none => 1 < members.length

/-! ## The parts -/

theorem ServerSt.peerCheck_groupindex (server : ServerSt α) (rest : List Byte) :
    (server.peerCheck rest).groupindex = server.groupindex := by
  rw [ServerSt.peerCheck]
  dsimp only
  split_ifs <;> rfl

theorem ServerSt.peerCheck_of_none (h : usablePeer rest = none)
    (server : ServerSt α) : (server.peerCheck rest).switchoverSidx = 1 := by
  simp only [usablePeer] at h
  simp only [ServerSt.peerCheck]
  split_ifs at h ⊢
  · rfl
  · rfl

theorem ServerSt.peerCheck_of_some (h : usablePeer rest = some peer) (server : ServerSt α) :
    (server.peerCheck rest).switchoverSidx = -1 ∧
    (server.peerCheck rest).switchoverPeer = peer := by
  simp only [usablePeer] at h
  simp only [ServerSt.peerCheck]
  split_ifs at h ⊢
  · cases h
    exact ⟨rfl, rfl⟩

theorem toNat_ofNat_emod (i : Int) :
    ((UInt16.ofNat (i % 2 ^ 16).toNat).toNat : Int) = i % 2 ^ 16 := by
  have hn : 0 ≤ i % 2 ^ 16 := Int.emod_nonneg _ (by decide)
  have hl : i % 2 ^ 16 < 2 ^ 16 := Int.emod_lt_of_pos _ (by decide)
  rw [UInt16.toNat_ofNat', Nat.mod_eq_of_lt (by omega), Int.toNat_of_nonneg hn]

/-- A slave is found if its name and port are those that are read. -/
theorem findPeer_eq_some (h : findPeer Member.key members peer = some k) :
    ∃ host port more m, tokens [ofChar ':'] peer = host :: port :: more ∧ members[k]? = some m ∧
      0 < k ∧ m.hostname = host ∧ m.port ≠ 0 ∧ (m.port.toNat : Int) = atoi port % 2 ^ 16 := by
  rw [findPeer, peerAddr] at h
  split at h
  case h_1 addr ha =>
    split at ha
    case h_1 host port more ht =>
      dsimp only at ha
      split_ifs at ha with hz
      cases ha
      obtain ⟨i, hf, rfl⟩ := Option.map_eq_some_iff.1 h
      obtain ⟨hi, hm, -⟩ := findIdx?_eq_some_iff_getElem.1 hf
      obtain ⟨hh, hp⟩ : members.tail[i].hostname = host ∧ members.tail[i].port = _ :=
        Addr.mk.inj (of_decide_eq_true hm)
      refine ⟨host, port, more, members.tail[i], ht, ?_, Nat.succ_pos i, hh, ?_, ?_⟩
      · rw [← getElem?_tail, getElem?_eq_getElem hi]
      · rw [hp]
        exact hz
      · rw [hp]
        exact toNat_ofNat_emod _
    case h_2 => cases ha
  case h_2 => cases h

theorem findPeer_ne_none (ht : tokens [ofChar ':'] peer = host :: port :: more)
    (hme : m ∈ members.tail) (hh : m.hostname = host) (hn : m.port ≠ 0)
    (hp : (m.port.toNat : Int) = atoi port % 2 ^ 16) : findPeer Member.key members peer ≠ none := by
  have hr : UInt16.ofNat (atoi port % 2 ^ 16).toNat = m.port := by
    rw [← hp]
    exact UInt16.ofNat_toNat
  rw [findPeer, peerAddr, ht]
  dsimp only
  rw [hr, if_neg hn, ne_eq, Option.map_eq_none_iff, findIdx?_eq_none_iff]
  intro ha
  have hm := ha m hme
  simp [Member.key, hh] at hm

theorem swapMaster_perm (hp : 0 < k) (hk : k < members.length) :
    ∃ members', swapMaster members k = some members' ∧ members'.Perm members ∧
      members'[0]? = members[k]? ∧ members'[k]? = members[0]? := by
  have hz : 0 < members.length := Nat.zero_lt_of_lt hk
  refine ⟨_, swapMaster_eq_some hz hp hk, set_set_perm hz hk, ?_, ?_⟩
  · rw [getElem?_set_ne (Nat.pos_iff_ne_zero.1 hp), getElem?_set_self hz, getElem?_eq_getElem hk]
  · rw [getElem?_set_self (by rw [length_set]; exact hk), getElem?_eq_getElem hz]

/-! ## The notice -/

def ServerSt.chosen (server : ServerSt α) (members : List Member) : Option Nat :=
  chosenSlave Member.key members server.switchoverSidx server.switchoverPeer

variable {s : Servers α} {group o : Nat} {members : List Member} {rest : List Byte}

/-- The switchover of a group, on notice of its master. -/
theorem IsMaster.switchover_eq (h : IsMaster s group members o) : s.switchover o =
      match (s.object o).chosen members with
      | none => .ok (false, s)
      | some sindex =>
        match swapMaster members sindex with
        | none => .error .assertion
        | some swapped => .ok (true, { s with groups := s.groups.set group swapped }.update o
            fun server => { server with switchoverSidx := sindex }) := by
  have hm : s.groups.getD group [] = members := by
    rw [getD_eq_getElem?_getD, h.group_eq]
    rfl
  have hin : ¬((group : Int) < 0) := by omega
  rw [Servers.switchover]
  simp only [h.groupindex, Int.toNat_natCast, hm, if_neg hin]
  rfl

theorem IsMaster.notice_eq (h : IsMaster s group members o) : s.notice o rest =
      match ((s.object o).peerCheck rest).chosen members with
      | none => .ok (false, s.update o fun server => server.peerCheck rest)
      | some sindex =>
        match swapMaster members sindex with
        | none => .error .assertion
        | some swapped =>
          .ok (true, { s.update o (fun server => server.peerCheck rest) with
            groups := s.groups.set group swapped }.update o fun server =>
              { server with switchoverSidx := sindex }) := by
  have ho : (s.update o fun server => server.peerCheck rest).object o =
      (s.object o).peerCheck rest := Function.update_self ..
  have h' : IsMaster (s.update o fun server => server.peerCheck rest) group members o :=
    ⟨h.group_eq, h.master, by rw [ho, ServerSt.peerCheck_groupindex, h.groupindex]⟩
  rw [Servers.notice, h'.switchover_eq, ho]
  rfl

theorem IsMaster.notice_of_none (h : IsMaster s group members o)
    (hc : ((s.object o).peerCheck rest).chosen members = none) :
    s.notice o rest = .ok (false, s.update o fun server => server.peerCheck rest) := by
  rw [h.notice_eq, hc]

theorem IsMaster.notice_of_le (h : IsMaster s group members o) (hk : members.length ≤ k)
    (hc : ((s.object o).peerCheck rest).chosen members = some k) :
    s.notice o rest = .error .assertion := by
  rw [h.notice_eq, hc]
  simp only [swapMaster_eq_none (.inr hk)]

theorem IsMaster.switchedTo (h : IsMaster s group members o) (hp : 0 < k)
    (hk : members[k]? = some m) (hc : ((s.object o).peerCheck rest).chosen members = some k) :
    ∃ s', s.notice o rest = .ok (true, s') ∧ SwitchedTo s s' group members m := by
  obtain ⟨members', hs, hpe, hz, hpl⟩ :=
    swapMaster_perm hp (List.getElem?_eq_some_iff.1 hk).1
  rw [h.notice_eq, hc]
  simp only [hs]
  exact ⟨_, rfl, k, members', hk, hp, rfl, hpe, hz.trans hk, hpl⟩

theorem SwitchedTo.unique (h : IsMaster s group members o)
    (hs : SwitchedTo s s' group members slave) (hs' : SwitchedTo s s' group members slave') :
    slave = slave' := by
  obtain ⟨-, ms, -, -, hg, -, hz, -⟩ := hs
  obtain ⟨-, ms', -, -, hg', -, hz', -⟩ := hs'
  have hgr : group < s.groups.length := (List.getElem?_eq_some_iff.1 h.group_eq).1
  have hm : ms = ms' := by
    have he := congrArg (fun gs => gs[group]?) (hg.symm.trans hg')
    simpa [List.getElem?_set_self hgr] using he
  rw [hm, hz'] at hz
  exact (Option.some.inj hz).symm

theorem IsMaster.safe_of_none (h : IsMaster s group members o) (hp : usablePeer rest = none) :
    SafeNotice s group members o rest ↔ PeerFits members none := by
  have hc : ((s.object o).peerCheck rest).chosen members = some 1 := by
    rw [ServerSt.chosen, ServerSt.peerCheck_of_none hp]
    rfl
  constructor
  · rintro ⟨done, s', ho, -⟩
    by_contra hshort
    rw [h.notice_of_le (Nat.not_lt.1 hshort) hc] at ho
    cases ho
  · intro hl
    obtain ⟨s', ho, hs⟩ := h.switchedTo Nat.one_pos (getElem?_eq_getElem hl) hc
    refine ⟨true, s', ho, nofun, fun _ => ⟨_, hs, ?_⟩⟩
    rw [hp]
    exact getElem?_eq_getElem hl

theorem IsMaster.safe_of_some (h : IsMaster s group members o) (hp : usablePeer rest = some peer) :
    SafeNotice s group members o rest ↔ PeerFits members (some peer) := by
  obtain ⟨hs, hn⟩ := ServerSt.peerCheck_of_some hp (s.object o)
  have hc : ((s.object o).peerCheck rest).chosen members = findPeer Member.key members peer := by
    rw [ServerSt.chosen, hs, hn]
    rfl
  cases hf : findPeer Member.key members peer with
  | none =>
    -- nothing is done, and no slave is taken for the peer
    refine iff_of_true ⟨false, _, h.notice_of_none (hc.trans hf), fun _ => rfl, nofun⟩ ?_
    intro host port more ht m hm hh hne hpo
    exact absurd hf (findPeer_ne_none ht hm hh hne hpo)
  | some k =>
    obtain ⟨host, port, more, m, ht, hk, hpos, hh, hne, hpo⟩ := findPeer_eq_some hf
    obtain ⟨s', ho, hsw⟩ := h.switchedTo hpos hk (hc.trans hf)
    constructor
    · rintro ⟨done, s'', ho', -, htr⟩ host' port' more' ht' m' - - - hp'
      obtain ⟨rfl, rfl⟩ : done = true ∧ s'' = s' := by simpa [ho] using ho'.symm
      obtain ⟨slave, hsl, hnam⟩ := htr rfl
      obtain rfl := SwitchedTo.unique h hsw hsl
      rw [hp] at hnam
      obtain ⟨host'', port'', more'', ht'', -, he⟩ := hnam
      obtain ⟨-, rfl, -⟩ : host' = host ∧ port' = port ∧ more' = more := by
        simpa [ht] using ht'.symm
      obtain ⟨-, rfl, -⟩ : host'' = host ∧ port'' = port' ∧ more'' = more := by
        simpa [ht] using ht''.symm
      rw [hp', ← hpo, he]
    · intro hfit
      refine ⟨true, s', ho, nofun, fun _ => ⟨m, hsw, ?_⟩⟩
      rw [hp]
      have hme : m ∈ members.tail := by
        rw [← drop_one]
        exact mem_of_getElem? (i := k - 1) (by rw [getElem?_drop]; rwa [Nat.add_sub_cancel' hpos])
      exact ⟨host, port, more, ht, hh, hfit host port more ht m hme hh hne hpo⟩

/-- After a notice of its master a group has the master that was named, or is as before, just if there
is a slave for a notice without a name, and no other port is taken for the one that is named. -/
theorem switchover_safe_iff (h : IsMaster s group members o) :
    SafeNotice s group members o rest ↔ PeerFits members (usablePeer rest) := by
  cases hp : usablePeer rest with
  | none => exact h.safe_of_none hp
  | some peer => exact h.safe_of_some hp

end Notice

section Example

def quiet (groupindex : Int) : ServerSt Unit :=
  ⟨0, [], false, .maximumReturn, -1, [], groupindex⟩

/-- A group of the servers `a:1` and `b:2`. -/
def pair : Servers Unit :=
  ⟨[[⟨0, lit "a".toList, 1⟩, ⟨1, lit "b".toList, 2⟩]], fun _ => quiet 0⟩

/-- A group of the server `a:1` alone. -/
def single : Servers Unit :=
  ⟨[[⟨0, lit "a".toList, 1⟩]], fun _ => quiet 0⟩

theorem switchover_safe_pair :
    IsMaster pair 0 [⟨0, lit "a".toList, 1⟩, ⟨1, lit "b".toList, 2⟩] 0 ∧
      SafeNotice pair 0 [⟨0, lit "a".toList, 1⟩, ⟨1, lit "b".toList, 2⟩] 0
        (bytesOf (lit "\r\n".toList)) := by
  have h : IsMaster pair 0 [⟨0, lit "a".toList, 1⟩, ⟨1, lit "b".toList, 2⟩] 0 := ⟨rfl, rfl, rfl⟩
  exact ⟨h, (switchover_safe_iff h).2 (by show 1 < 2; decide)⟩

/-- The master of a group without slaves gives notice: the assertion fails. -/
theorem switchover_single_asserts :
    IsMaster single 0 [⟨0, lit "a".toList, 1⟩] 0 ∧
      single.notice 0 (bytesOf (lit "\r\n".toList)) = .error .assertion ∧
      ¬ SafeNotice single 0 [⟨0, lit "a".toList, 1⟩] 0 (bytesOf (lit "\r\n".toList)) := by
  have h : single.notice 0 (bytesOf (lit "\r\n".toList)) = .error .assertion := rfl
  refine ⟨⟨rfl, rfl, rfl⟩, h, ?_⟩
  rintro ⟨done, s', ho, -⟩
  cases ho

end Example

end ArcusClient.Store
