import ArcusClient.Keys.Request
import ArcusClient.Collection.Replies

/-!
# Where a request goes

A server keeps its items under the keys of the requests, so a request should go to the server that
owns the key in it, with the namespace.  Requests on single items have the namespace in them, requests
on collections do not, and an item of a pipe may even have more than its key (`sendable_iff`).  A
request is routed by the key that it sends, in every cluster, exactly if it is `Sendable`
(`routed_by_sent_key_iff`).
-/

namespace ArcusClient.Keys

open CString Coll Outcome

/-! ## Commands -/

def toWire (r : Request) : Wire where
  command := bytesOf ((collOpString r.verb).take (collOpLength r.verb))
  key := r.key
  rest := bytesOf (chars r.line) ++ crlf ++ (match r.data with
    | some data => data ++ crlf
    | none => [])

/-- An item of a pipe, with the buffer filled up to the given position. -/
inductive PipeItem where
  | insert (pipeBufferPos : Nat) (key : KeyMemory) (query : Query) (eflag : Option Hexadecimal)
      (attributes : Option CreateAttrs) (verb : Verb)
  | exist (pipeBufferPos : Nat) (key : KeyMemory) (value : List Byte) (verb : Verb)

def PipeItem.key : PipeItem → KeyMemory
  | .insert _ key _ _ _ _ => key
  | .exist _ key _ _ => key

def PipeItem.build (c : Client) (stack : Nat → CStr) : PipeItem → Except Refusal Item
  | .insert pipeBufferPos key query eflag attributes verb => do
    beforeQuery c key.bytes
    internalCollPipedInsert c stack pipeBufferPos key query eflag attributes verb
  | .exist pipeBufferPos key value verb => do
    beforeQuery c key.bytes
    internalCollPipedExist c pipeBufferPos key value verb

inductive Command where
  | item (call : Call)
  | collection (call : Coll.Call)
  | findPosition (key : List Byte) (query : Query) (order : Order) (verb : Verb)
  | getByPosition (key : List Byte) (order : Order) (fromPosition toPosition : Nat) (verb : Verb)
  | findPositionWithGet (key : List Byte) (query : Query) (order : Order) (count : Nat)
      (verb : Verb)
  | piped (pipeItem : PipeItem)

namespace Command

def key : Command → List Byte
  | .item call => call.key
  | .collection call => call.key
  | .findPosition key _ _ _ | .getByPosition key _ _ _ _ | .findPositionWithGet key _ _ _ _ => key
  | .piped pipeItem => pipeItem.key.bytes

def build (s : Settings) (stack : Nat → CStr) : Command → Except Refusal Wire
  | .item call => call.build s
  | .collection call => (call.build s.toClient stack).map toWire
  | .findPosition key query order verb =>
    (doBopFindPosition s.toClient stack key query order verb).map toWire
  | .getByPosition key order fromPosition toPosition verb =>
    (doBopGetByPosition s.toClient key order fromPosition toPosition verb).map toWire
  | .findPositionWithGet key query order count verb =>
    (doBopFindPositionWithGet s.toClient stack key query order count verb).map toWire
  | .piped pipeItem => (pipeItem.build s.toClient stack).map fun i => toWire i.request

/-- The requests that have the namespace in them and are hashed with it. -/
def Sendable (s : Settings) (stack : Nat → CStr) : Command → Prop
  | .item call => HashedAsSent s.ns call.key
  | .piped pipeItem =>
    match pipeItem.build s.toClient stack with
    | .ok (.collected ..) =>
      pipeItem.key.string = s.ns.bytes ++ pipeItem.key.bytes ∧
        HashedAsSent s.ns pipeItem.key.bytes
    | _ => s.ns.bytes = []
  | _ => s.ns.bytes = []

/-! ## The key in the request -/

/-- An item is sent with its key, or collected with the string at its key. -/
def Written (key : KeyMemory) : Item → Prop
  | .collected r _ => r.key = key.string
  | .flushed r => r.key = key.bytes

theorem collectOrFlush_ends {key : KeyMemory} (h : r.key = key.bytes) :
    Ends (fun _ => True) (Written key) (collectOrFlush c key pipeBufferPos r) := by
  rw [collectOrFlush]
  split
  · dsimp only
    split
    · rfl
    · trivial
  · exact h

theorem pipeItem_ends (c : Client) (stack : Nat → CStr) (item : PipeItem) :
    Ends (fun _ => True) (Written item.key) (item.build c stack) := by
  cases item with
  | insert pipeBufferPos key query eflag attributes verb =>
    refine Ends.seq fun _ => Ends.seq fun subKey => Ends.seq fun line => ?_
    exact collectOrFlush_ends rfl
  | exist pipeBufferPos key value verb =>
    refine Ends.seq fun _ => Ends.seq fun line => ?_
    exact collectOrFlush_ends rfl

theorem ends_toWire {x : Except Refusal Request} {key : List Byte}
    (h : Ends (fun _ => True) (fun r => r.key = key) x) :
    Ends (fun _ => True) (fun w => w.key = key) (x.map toWire) :=
  ends_map.2 h

variable {s : Settings} {stack : Nat → CStr} {cmd : Command} {w : Wire}

/-- What is `Sendable`, in terms of the request. -/
theorem sendable_iff (hb : cmd.build s stack = .ok w) :
    cmd.Sendable s stack ↔ w.key = s.ns.bytes ++ cmd.key ∧ HashedAsSent s.ns cmd.key := by
  have hp (hk : w.key = cmd.key) :
      s.ns.bytes = [] ↔ w.key = s.ns.bytes ++ cmd.key ∧ HashedAsSent s.ns cmd.key := by
    rw [hk, List.self_eq_append_left]
    exact ⟨fun h => ⟨h, .inl h⟩, And.left⟩
  cases cmd with
  | item call =>
    have hk := (call.build_ends s).of_eq_ok hb
    exact ⟨fun h => ⟨hk, h⟩, And.right⟩
  | collection call =>
    have he := (Coll.build_ends s.toClient stack call).imp (fun _ h => h) fun _ => And.right
    exact hp ((ends_toWire he).of_eq_ok hb)
  | findPosition key query order verb | findPositionWithGet key query order count verb =>
    refine hp ((ends_toWire (Ends.seq fun _ => ?_)).of_eq_ok hb)
    split
    · trivial
    · exact Ends.seq fun subKey => Ends.seq fun line => rfl
  | getByPosition key order fromPosition toPosition verb =>
    refine hp ((ends_toWire (Ends.seq fun _ => ?_)).of_eq_ok hb)
    split
    · trivial
    · exact Ends.seq fun line => rfl
  | piped pipeItem =>
    have he := pipeItem_ends s.toClient stack pipeItem
    rw [build] at hb
    rw [Sendable]
    cases hite : pipeItem.build s.toClient stack with
    | error e =>
      rw [hite] at hb
      cases hb
    | ok i =>
      rw [hite] at hb he
      cases i with
      | collected r pos =>
        cases hb
        have hk : (toWire r).key = pipeItem.key.string := he
        exact and_congr_left fun _ => by rw [← hk]; rfl
      | flushed r =>
        cases hb
        exact hp he

end Command

/-! ## The server -/

structure Cluster (s : Settings) where
  mc : Memcached
  digest : List Byte → UInt32
  count : mc.numberOfHosts = s.serverCount

def Cluster.hashing {s : Settings} (cluster : Cluster s) : Hashing := ⟨s.ns, false, cluster.digest⟩

/-- The key in the request is the namespace and the key, and in every cluster the request goes
to the server of these bytes. -/
def RoutedBySentKey (s : Settings) (cmd : Command) (w : Wire) : Prop :=
  w.key = s.ns.bytes ++ cmd.key ∧
    ∀ (cluster : Cluster s) (P : Platform) (env : Env) (now : Option Nat) (random : Nat)
      (server : Option Nat) (mc : Memcached),
      memcachedGenerateHashWithRedistribution P env now random cluster.hashing cluster.mc cmd.key =
          .ok (server, mc) →
        server = dispatchHost mc random (cluster.digest w.key).toNat

section Routing

variable {s : Settings} {stack : Nat → CStr} {cmd : Command} {w : Wire}

theorem server_eq
    (hs : memcachedGenerateHashWithRedistribution P env now random h mc key = .ok (server, mc')) :
    server = dispatchHost mc' random (generateHashWrapper h mc key).toNat := by
  rw [memcachedGenerateHashWithRedistribution] at hs
  cases hr : regenForAutoEject P env now mc with
  | error e =>
    rw [hr] at hs
    cases hs
  | ok mc'' =>
    rw [hr] at hs
    cases hs
    rfl

def twoPoints (serverCount : Nat) : Memcached :=
  { memcachedCreate .consistentKetamaSpy ⟨false, false, false, false⟩ with
    servers := List.replicate serverCount default
    ketama := ⟨false, 0, some ⟨[⟨0, 0⟩, ⟨1, 1⟩], 2⟩⟩ }

def tellingApart (s : Settings) (sent : List Byte) : Cluster s where
  mc := twoPoints s.serverCount
  digest bytes := if bytes = sent then 1 else 0
  count := by simp [twoPoints, memcachedCreate, Memcached.numberOfHosts]

theorem routedBySentKey_iff (hs : 2 ≤ s.serverCount) :
    RoutedBySentKey s cmd w ↔ w.key = s.ns.bytes ++ cmd.key ∧ HashedAsSent s.ns cmd.key := by
  refine and_congr_right fun hk => ⟨fun hr => ?_, fun hse => ?_⟩
  · by_contra hse
    have hd := hr (tellingApart s w.key) (Platform.ofMd5 fun _ _ => 0) Env.granted none 0
      _ _ rfl
    have hz : generateHashWrapper (tellingApart s w.key).hashing (tellingApart s w.key).mc
        cmd.key = 0 := by
      rcases generateHashWrapper_of_not_hashedAsSent (h := (tellingApart s w.key).hashing) hse with
        h | ⟨bytes, hn, h⟩
      · exact h
      · exact h.trans (if_neg (hk ▸ hn))
    have ho : (tellingApart s w.key).digest w.key = 1 := if_pos rfl
    rw [hz, ho] at hd
    cases hd
  · intro cluster P env now random server mc hser
    have hc : cluster.mc.numberOfHosts ≠ 1 := by
      have := cluster.count
      omega
    rw [server_eq hser, generateHashWrapper_of_hashedAsSent hse hc, hk]
    rfl

/-- In every cluster of two servers or more, a request has the namespace and the key in it and
goes to the server of these bytes, exactly if it is sendable. -/
theorem routed_by_sent_key_iff (hbuild : cmd.build s stack = .ok w) (hservers : 2 ≤ s.serverCount) :
    RoutedBySentKey s cmd w ↔ cmd.Sendable s stack :=
  (routedBySentKey_iff hservers).trans (Command.sendable_iff hbuild).symm

end Routing

/-- A client of two servers with the namespace `a`. -/
def inNamespace : Settings where
  noReply := false
  piped := false
  bufferRequests := false
  useUdp := false
  binaryProtocol := false
  verifyKey := true
  serverCount := 2
  supportCas := false
  ns := ⟨bytesOf (lit ['a']), by decide⟩
  ascii := rfl

/-- The command `set` for the key `k` is sent with the key `ak`. -/
theorem routed_by_sent_key_set :
    ∃ w, (Command.item (.send (bytesOf (lit ['k'])) [] 0 0 0 .set)).build inNamespace
          (fun _ => []) = .ok w ∧
      RoutedBySentKey inNamespace (.item (.send (bytesOf (lit ['k'])) [] 0 0 0 .set)) w := by
  have hs : HashedAsSent inNamespace.ns (bytesOf (lit ['k'])) := by decide
  exact ⟨_, rfl, (@routed_by_sent_key_iff _ (fun _ => []) _ _ rfl (by decide)).2 hs⟩

/-- The command `lop create` for the key `k` is sent with the key `k`. -/
theorem collection_sent_without_namespace : ∃ w, (Command.collection (.create (bytesOf (lit ['k']))
          (some ⟨0, 0, 0, .none, false⟩) .lopCreate)).build inNamespace (fun _ => []) = .ok w ∧
      w.key = bytesOf (lit ['k']) ∧
      ¬ RoutedBySentKey inNamespace (.collection (.create (bytesOf (lit ['k']))
          (some ⟨0, 0, 0, .none, false⟩) .lopCreate)) w := by
  refine ⟨_, rfl, rfl, ?_⟩
  intro hr
  have hk : bytesOf (lit ['k']) = bytesOf (lit ['a']) ++ bytesOf (lit ['k']) := hr.1
  exact absurd hk (by decide)

end ArcusClient.Keys
