import ArcusClient.Keys.MultiGet
import ArcusClient.Lib.Probing
import ArcusClient.Store.Reply

/-!
# Reading many items from replicas

With `number_of_replicas` copies besides the first one, a key may be read from its own server or from
one of those that follow.  `replication_binary_mget` works in rounds: every key that is not sent yet is
sent to its next server, and a server that fails is marked in `dead_servers`.  A round in which no
server was marked is the last one.  This is probing in rounds (`tryReplicas_abs`), so a key can be left
over while one of its servers would take it (`replication_mget_iff`, `replica_left_over`).
-/

namespace ArcusClient.Keys

open CString Coll Store Probing List Function

/-! ## The function -/

/-- A number of `width` bytes in network order. -/
def networkOrder (width value : Nat) : List Byte :=
  (List.range width).reverse.map fun i => Fin.ofNat 256 (value / 256 ^ i)

/-- `protocol_binary_request_getk`, with the namespace and the key after it. -/
def getkRequest (ns : Namespace) (key : List Byte) : List Byte :=
  let length := ns.bytes.length + key.length
  [0x80, 0x0c] ++ networkOrder 2 length ++ [0, 0, 0, 0] ++ networkOrder 4 length ++
    List.replicate 12 0 ++ ns.bytes ++ key

structure ReplicaRead (n : Nat) where
  ns : Namespace
  numberOfReplicas : Nat
  randomizeRead : Bool
  /-- The result of `random()`. -/
  random : Nat
  /-- The keys, with their entries of `hash`.  `binary_mget_by_key` fills it with the hashes of the
  keys, or with the server of the group key. -/
  keys : List (KeyAt n)
  /-- `cursor_active` of the servers before the call. -/
  pending : Nat → Nat
  /-- `memcached_connect`. -/
  connect : Nat → ReturnT
  /-- `memcached_io_writev` succeeds. -/
  writev : Nat → Bool

/-- The variables of the function, and what it changes of the servers. -/
structure ReplicaSt where
  rc : ReturnT
  hash : Nat → Nat
  deadServers : Nat → Bool
  success : Bool
  cursorActive : Nat → Nat
  written : Nat → List Byte
  /-- The keys that were sent, with their servers, the last one first. -/
  sent : List (Nat × Nat)

/-- A server fails: `memcached_io_reset`, and the marks. -/
def ReplicaSt.fail (st : ReplicaSt) (server : Nat) : ReplicaSt :=
  { st with
    deadServers := Function.update st.deadServers server true
    success := false
    cursorActive := Function.update st.cursorActive server 0 }

namespace ReplicaRead

variable {n : Nat} (call : ReplicaRead n)

def start : Nat :=
  if call.randomizeRead then call.random % 2 ^ 32 % (call.numberOfReplicas + 1) else 0

def key (x : Nat) : List Byte := ((call.keys[x]?).map KeyAt.key).getD []

/-- The entry of `hash` before the call. -/
def hash (x : Nat) : Nat := ((call.keys[x]?).map fun k => k.serverkey.1).getD 0

/-- The server for a key with this hash.  The sums are those of `uint32_t`. -/
def server (hash replica : Nat) : Nat :=
  let server := (hash + replica) % 2 ^ 32
  let server :=
    if call.randomizeRead ∧
        (server + call.start) % 2 ^ 32 ≤ (hash + call.numberOfReplicas) % 2 ^ 32 then
      (server + call.start) % 2 ^ 32
    else server
  server % n

def push (st : ReplicaSt) (server x : Nat) : ReplicaSt :=
  { st with
    hash := Function.update st.hash x n
    cursorActive := Function.update st.cursorActive server (st.cursorActive server + 1)
    written := Function.update st.written server
      (st.written server ++ getkRequest call.ns (call.key x))
    sent := (x, server) :: st.sent }

def tryKey (replica : Nat) (st : ReplicaSt) (x : Nat) : ReplicaSt :=
  if st.hash x = n then st
  else
    let server := call.server (st.hash x) replica
    if st.deadServers server then st
    else if st.cursorActive server = 0 then
      let st := { st with rc := call.connect server }
      if memcachedFailed st.rc then st.fail server
      else if call.writev server then call.push st server x
      else st.fail server
    else if call.writev server then call.push st server x
    else st.fail server

def tryKeys (replica : Nat) (st : ReplicaSt) : ReplicaSt :=
  (List.range call.keys.length).foldl (call.tryKey replica) { st with success := true }

/-- The loop over the replicas, with `left` of them to go. -/
def tryReplicas : (left replica : Nat) → ReplicaSt → ReplicaSt
  | 0, _, st => st
  | left + 1, replica, st =>
    let st := call.tryKeys replica st
    if st.success then st else tryReplicas left (replica + 1) st

def init : ReplicaSt where
  rc := .notfound
  hash := call.hash
  deadServers := fun _ => false
  success := true
  cursorActive := call.pending
  written := fun _ => []
  sent := []

/-- `replication_binary_mget`.  The counter of the keys is a `uint32_t`, and with more keys than it can
count the loop never ends. -/
def replicationBinaryMget : Option ReplicaSt :=
  if 2 ^ 32 ≤ call.keys.length then none
  else some (call.tryReplicas (call.numberOfReplicas + 1) 0 call.init)

/-! ## Probing -/

def probe (x replica : Nat) : Nat := call.server (call.hash x) replica

/-- Connecting to a server fails, or writing to it.  A server that has replies to come is connected. -/
def fails (v : Nat) : Bool :=
  (call.pending v == 0 && memcachedFailed (call.connect v)) || !call.writev v

def abs (st : ReplicaSt) : State Nat Nat := ⟨st.sent, st.deadServers, !st.success⟩

structure Tracks (st : ReplicaSt) : Prop where
  hash : ∀ x, st.hash x = if x ∈ st.sent.map Prod.fst then n else call.hash x
  pending : ∀ v, st.deadServers v = false → st.cursorActive v = 0 → call.pending v = 0
  connected : ∀ v, st.deadServers v = false → call.pending v = 0 → st.cursorActive v ≠ 0 →
    call.fails v = false
  written : ∀ v, st.written v =
    (st.sent.reverse.filter fun p => p.2 = v).flatMap fun p => getkRequest call.ns (call.key p.1)

variable {call} {st : ReplicaSt} {x v r : Nat}

theorem hash_lt (hx : x < call.keys.length) : call.hash x < n := by
  rw [hash, getElem?_eq_getElem hx]
  exact call.keys[x].serverkey.2

theorem Tracks.hash_eq_iff (h : call.Tracks st) (hx : x < call.keys.length) :
    st.hash x = n ↔ x ∈ st.sent.map Prod.fst := by
  rw [h.hash x]
  split_ifs with hs
  · exact iff_of_true rfl hs
  · exact iff_of_false (hash_lt hx).ne hs

theorem Tracks.setRc (h : call.Tracks st) (rc : ReturnT) : call.Tracks { st with rc := rc } :=
  ⟨h.hash, h.pending, h.connected, h.written⟩

theorem Tracks.setSuccess (h : call.Tracks st) (success : Bool) :
    call.Tracks { st with success := success } :=
  ⟨h.hash, h.pending, h.connected, h.written⟩

theorem Tracks.fail (h : call.Tracks st) (v : Nat) : call.Tracks (st.fail v) where
  hash := h.hash
  pending w hdead hzero := by
    have hn : w ≠ v := by
      rintro rfl
      simp [ReplicaSt.fail] at hdead
    simp only [ReplicaSt.fail, update_of_ne hn] at hdead hzero
    exact h.pending w hdead hzero
  connected w hdead hpending hn := by
    have ho : w ≠ v := by
      rintro rfl
      simp [ReplicaSt.fail] at hdead
    simp only [ReplicaSt.fail, update_of_ne ho] at hdead hn
    exact h.connected w hdead hpending hn
  written := h.written

theorem Tracks.push (h : call.Tracks st) (v x : Nat) (hf : call.fails v = false) :
    call.Tracks (call.push st v x) where
  hash y := by
    simp only [ReplicaRead.push, map_cons, mem_cons]
    by_cases hy : y = x
    · simp [hy]
    · simp only [update_of_ne hy, h.hash y, hy, false_or]
  pending w hdead hzero := by
    have hn : w ≠ v := by
      rintro rfl
      simp [ReplicaRead.push] at hzero
    simp only [ReplicaRead.push, update_of_ne hn] at hdead hzero
    exact h.pending w hdead hzero
  connected w hdead hpending hn := by
    by_cases hw : w = v
    · rw [hw]
      exact hf
    · simp only [ReplicaRead.push, update_of_ne hw] at hdead hn
      exact h.connected w hdead hpending hn
  written w := by
    simp only [ReplicaRead.push]
    by_cases hw : w = v
    · subst hw
      simp [h.written w]
    · simp [hw, Ne.symm hw, h.written w]

theorem Tracks.fails_of_zero (h : call.Tracks st) (hd : st.deadServers v = false)
    (hz : st.cursorActive v = 0) :
    call.fails v = (memcachedFailed (call.connect v) || !call.writev v) := by
  simp [fails, h.pending v hd hz]

theorem Tracks.fails_of_ne_zero (h : call.Tracks st) (hd : st.deadServers v = false)
    (hn : st.cursorActive v ≠ 0) : call.fails v = !call.writev v := by
  by_cases hp : call.pending v = 0
  · have hf := h.connected v hd hp hn
    rw [hf]
    simp only [fails, Bool.or_eq_false_iff] at hf
    exact hf.2.symm
  · simp [fails, hp]

theorem Tracks.tries (h : call.Tracks st) (hx : st.hash x ≠ n)
    (hv : call.server (st.hash x) r = v) (hd : st.deadServers v = false) :
    call.Tracks (call.tryKey r st x) ∧ abs (call.tryKey r st x) =
        if call.fails v then abs (st.fail v) else abs (call.push st v x) := by
  rw [tryKey, if_neg hx]
  simp only [hv, hd]
  by_cases hz : st.cursorActive v = 0
  · have hf := h.fails_of_zero hd hz
    rw [if_pos hz]
    cases hfai : memcachedFailed (call.connect v) with
    | true =>
      simp only [hfai] at hf
      simp only [hf]
      exact ⟨(h.setRc _).fail v, rfl⟩
    | false =>
      simp only [hfai] at hf
      cases hw : call.writev v with
      | true =>
        simp only [hw] at hf
        simp only [hf]
        exact ⟨(h.setRc _).push v x hf, rfl⟩
      | false =>
        simp only [hw] at hf
        simp only [hf]
        exact ⟨(h.setRc _).fail v, rfl⟩
  · have hf := h.fails_of_ne_zero hd hz
    rw [if_neg hz]
    cases hw : call.writev v with
    | true =>
      simp only [hw, Bool.not_true] at hf
      simp only [hf, Bool.false_eq_true, if_false, if_true]
      exact ⟨h.push v x hf, trivial⟩
    | false =>
      simp only [hw, Bool.not_false] at hf
      simp only [hf, Bool.false_eq_true, if_false, if_true]
      exact ⟨h.fail v, trivial⟩

theorem tryKey_abs (h : call.Tracks st) (hx : x < call.keys.length) :
    call.Tracks (call.tryKey r st x) ∧
      abs (call.tryKey r st x) = step call.probe call.fails r (abs st) x := by
  by_cases hs : x ∈ st.sent.map Prod.fst
  · rw [tryKey, if_pos ((h.hash_eq_iff hx).2 hs), step_of_placed _ _ hs]
    exact ⟨h, rfl⟩
  · have hn : st.hash x ≠ n := fun hn => hs ((h.hash_eq_iff hx).1 hn)
    have hp : call.server (st.hash x) r = call.probe x r := by
      rw [h.hash x, if_neg hs, probe]
    cases hd : st.deadServers (call.probe x r) with
    | true =>
      rw [step_of_dead _ _ hd, tryKey, if_neg hn]
      simp only [hp, hd, if_true]
      exact ⟨h, trivial⟩
    | false =>
      obtain ⟨ht, ha⟩ := h.tries hn hp hd
      rw [step_of_tries _ _ hs hd]
      exact ⟨ht, ha⟩

theorem tryKeys_abs (h : call.Tracks st) : call.Tracks (call.tryKeys r st) ∧
      abs (call.tryKeys r st) =
        round call.probe call.fails (List.range call.keys.length) r (abs st) := by
  have hf : ∀ (xs : List Nat) (st : ReplicaSt), (∀ x ∈ xs, x < call.keys.length) →
      call.Tracks st → call.Tracks (xs.foldl (call.tryKey r) st) ∧
        abs (xs.foldl (call.tryKey r) st) =
          xs.foldl (step call.probe call.fails r) (abs st) := by
    intro xs
    induction xs with
    | nil => exact fun st _ h => ⟨h, rfl⟩
    | cons x xs ih =>
      intro st hxs h
      obtain ⟨ht, ha⟩ := tryKey_abs (r := r) h (hxs x mem_cons_self)
      rw [foldl_cons, foldl_cons, ← ha]
      exact ih _ (fun y hy => hxs y (mem_cons_of_mem x hy)) ht
  exact hf _ _ (fun x hx => mem_range.1 hx) (h.setSuccess true)

theorem tryReplicas_abs (left : Nat) (h : call.Tracks st) :
    call.Tracks (call.tryReplicas left r st) ∧ abs (call.tryReplicas left r st) =
        rounds call.probe call.fails (List.range call.keys.length) left r (abs st) := by
  induction left generalizing r st with
  | zero => exact ⟨h, rfl⟩
  | succ left ih =>
    obtain ⟨ht, ha⟩ := tryKeys_abs (r := r) h
    rw [tryReplicas, rounds, ← ha]
    cases hs : (call.tryKeys r st).success with
    | true => simpa [abs, hs] using ht
    | false => simpa [abs, hs] using ih ht

theorem tracks_init : call.Tracks call.init where
  hash x := by simp [init]
  pending v _ h := h
  connected v _ h hne := absurd h hne
  written v := by simp [init]

/-! ## What is sent -/

variable (call)

def replicas (x : Nat) : List Nat :=
  (List.range (call.numberOfReplicas + 1)).map fun offset => (call.hash x + offset) % n

/-- Every key is sent at most once, to one of its servers, and left over only if all of them fail. -/
structure TriesEveryReplica (st : ReplicaSt) : Prop where
  once : (st.sent.map Prod.fst).Nodup
  among : ∀ p ∈ st.sent, p.1 < call.keys.length ∧ p.2 ∈ call.replicas p.1
  leftOver : ∀ x < call.keys.length, x ∉ st.sent.map Prod.fst →
    ∀ v ∈ call.replicas x, call.fails v = true

/-- The server of a key in round `k` is its first one that does not fail, and in every round before it
some key finds a server that fails and was not found before. -/
def Reaches (x k : Nat) : Prop :=
  k ≤ call.numberOfReplicas ∧
    (∀ r < k, Probing.Finds call.probe call.fails (List.range call.keys.length) r) ∧
    FirstAt call.probe call.fails x k

variable {call}

theorem sent_spec :
    (∀ x v, (x, v) ∈ (call.tryReplicas (call.numberOfReplicas + 1) 0 call.init).sent ↔
      x < call.keys.length ∧ ∃ k, call.Reaches x k ∧ v = call.probe x k) ∧
    ((call.tryReplicas (call.numberOfReplicas + 1) 0 call.init).sent.map Prod.fst).Nodup := by
  have ht : call.Tracks call.init := tracks_init
  have ha : (call.tryReplicas (call.numberOfReplicas + 1) 0 call.init).sent =
      (rounds call.probe call.fails (range call.keys.length) (call.numberOfReplicas + 1) 0
        State.start).placed :=
    congrArg State.placed (tryReplicas_abs (r := 0) (call.numberOfReplicas + 1) ht).2
  rw [ha]
  refine ⟨fun x v => ?_, (rounds_start _).2⟩
  rw [(rounds_start _).1 x v, mem_range]
  simp only [Reaches, Nat.lt_succ_iff, and_assoc]

theorem mem_sent_fst :
    x ∈ (call.tryReplicas (call.numberOfReplicas + 1) 0 call.init).sent.map Prod.fst ↔
      x < call.keys.length ∧ ∃ k, call.Reaches x k := by
  constructor
  · intro hx
    obtain ⟨⟨y, v⟩, hm, rfl⟩ := mem_map.1 hx
    obtain ⟨hl, k, hk, -⟩ := (sent_spec.1 y v).1 hm
    exact ⟨hl, k, hk⟩
  · rintro ⟨hl, k, hk⟩
    exact mem_map.2 ⟨(x, _), (sent_spec.1 x _).2 ⟨hl, k, hk, rfl⟩, rfl⟩

/-- With so few servers that the sums do not wrap around, a key is only sent to its own servers. -/
theorem probe_mem_replicas (hs : n + 2 * call.numberOfReplicas ≤ 2 ^ 32)
    (hx : x < call.keys.length) (hr : r ≤ call.numberOfReplicas) :
    call.probe x r ∈ call.replicas x := by
  have hh := hash_lt hx
  have hst : call.start ≤ call.numberOfReplicas := by
    rw [start]
    split_ifs
    · exact Nat.lt_succ_iff.1 (Nat.mod_lt _ (Nat.succ_pos _))
    · exact Nat.zero_le _
  rw [replicas, mem_map, probe, server]
  simp only [Nat.mod_eq_of_lt (show call.hash x + r < 2 ^ 32 by omega),
    Nat.mod_eq_of_lt (show call.hash x + r + call.start < 2 ^ 32 by omega)]
  split_ifs with hra
  · refine ⟨r + call.start, mem_range.2 (by omega), by rw [Nat.add_assoc]⟩
  · exact ⟨r, mem_range.2 (by omega), rfl⟩

/-- Then no key is sent twice, and none to a server that is not its own. -/
theorem sent_once_to_replica (hs : n + 2 * call.numberOfReplicas ≤ 2 ^ 32)
    (hso : call.replicationBinaryMget = some st) :
    (st.sent.map Prod.fst).Nodup ∧ ∀ p ∈ st.sent, p.2 ∈ call.replicas p.1 := by
  rw [replicationBinaryMget] at hso
  split_ifs at hso
  obtain rfl := Option.some.inj hso
  refine ⟨sent_spec.2, ?_⟩
  rintro ⟨x, v⟩ hm
  obtain ⟨hx, k, hk, rfl⟩ := (sent_spec.1 x v).1 hm
  exact probe_mem_replicas hs hx hk.1

variable (call)

/-- The function ends and tries every replica just if it can count the keys, and each key that has a server
that does not fail reaches one, before a round without a new failure. -/
theorem replication_mget_iff :
    (∃ st, call.replicationBinaryMget = some st ∧ call.TriesEveryReplica st) ↔
      call.keys.length < 2 ^ 32 ∧ ∀ x < call.keys.length,
        (∀ k, call.Reaches x k → call.probe x k ∈ call.replicas x) ∧
        ((∃ v ∈ call.replicas x, call.fails v = false) → ∃ k, call.Reaches x k) := by
  rw [replicationBinaryMget]
  by_cases hl : 2 ^ 32 ≤ call.keys.length
  · rw [if_pos hl]
    exact iff_of_false (fun ⟨st, hn, _⟩ => nomatch hn) fun h => hl.not_gt h.1
  · simp only [if_neg hl, Option.some.injEq, exists_eq_left', not_le.1 hl, true_and]
    constructor
    · intro h x hx
      refine ⟨fun k hk => ?_, ?_⟩
      · exact (h.among (x, call.probe x k) ((sent_spec.1 x _).2 ⟨hx, k, hk, rfl⟩)).2
      · rintro ⟨v, hv, hf⟩
        by_contra hn
        have hle := h.leftOver x hx (fun hs => hn (mem_sent_fst.1 hs).2) v hv
        rw [hf] at hle
        cases hle
    · intro h
      refine ⟨sent_spec.2, ?_, ?_⟩
      · rintro ⟨x, v⟩ hm
        obtain ⟨hx, k, hk, rfl⟩ := (sent_spec.1 x v).1 hm
        exact ⟨hx, (h x hx).1 k hk⟩
      · intro x hx hnot v hv
        by_contra hf
        exact hnot (mem_sent_fst.2 ⟨hx, (h x hx).2 ⟨v, hv, Bool.eq_false_iff.2 hf⟩⟩)

end ReplicaRead

/-- Two keys with two copies each, and the servers 0 and 1 fail.  The first key is left over, though
server 2 would take it: in the second round its server is known to fail, and the other key is sent. -/
def twoFailing : ReplicaRead 3 where
  ns := ⟨[], by decide⟩
  numberOfReplicas := 2
  randomizeRead := false
  random := 0
  keys := [⟨[], 0⟩, ⟨[], 1⟩]
  pending := fun _ => 0
  connect := fun v => if v = 2 then .success else .connectionFailure
  writev := fun _ => true

/-- A key with one copy, which begins with the copy and comes back to it. -/
def randomStart : ReplicaRead 2 where
  ns := ⟨[], by decide⟩
  numberOfReplicas := 1
  randomizeRead := true
  random := 1
  keys := [⟨[], ⟨0, by decide⟩⟩]
  pending := fun _ => 0
  connect := fun v => if v = 0 then .success else .connectionFailure
  writev := fun _ => true

theorem sent_once_two_failing : ∃ st, twoFailing.replicationBinaryMget = some st ∧
    (st.sent.map Prod.fst).Nodup ∧ ∀ p ∈ st.sent, p.2 ∈ twoFailing.replicas p.1 :=
  ⟨_, rfl, ReplicaRead.sent_once_to_replica (by decide) rfl⟩

theorem replica_left_over :
    (∃ st, twoFailing.replicationBinaryMget = some st ∧ 0 ∉ st.sent.map Prod.fst ∧
      2 ∈ twoFailing.replicas 0 ∧ twoFailing.fails 2 = false) ∧
    ∃ st, randomStart.replicationBinaryMget = some st ∧ 0 ∉ st.sent.map Prod.fst ∧
      0 ∈ randomStart.replicas 0 ∧ randomStart.fails 0 = false :=
  ⟨⟨_, rfl, by decide, by decide, by decide⟩, ⟨_, rfl, by decide, by decide, by decide⟩⟩

end ArcusClient.Keys
