import ArcusClient.Keys.MultiGet

/-!
# B+tree requests for many keys

`do_coll_mget` and `do_bop_smget` ask each server for its share of a list of b+tree keys:

    bop mget <lenkeys> <numkeys> <bkey> [<eflag filter>] <offset> <count>\r\n<keys>\r\n
    bop smget <lenkeys> <numkeys> <bkey> [<eflag filter>] 0 <count> <mode>\r\n<keys>\r\n

They check their arguments in different ways and write different texts between the counters and the
keys.  The rest is the same: one loop counts the keys of each server, a second loop sends them.
Every server gets one request with the right counters (`multi_key_framed`).
-/

namespace ArcusClient.Coll

open CString Scatter Keys List Function

/-- `space_separated_keys_is_supported`. -/
def spaceSeparatedKeysIsSupported (v : Version) : Bool :=
  if v.majorVersion = 255 ∨ v.minorVersion = 255 then false
  else if v.isEnterprise then
    0 < v.majorVersion || (v.majorVersion == 0 && 7 ≤ v.minorVersion)
  else 1 < v.majorVersion || (v.majorVersion == 1 && 11 ≤ v.minorVersion)

def keySeparator (v : Version) : List Byte :=
  bytesOf (if spaceSeparatedKeysIsSupported v then space else lit [','])

/-- `memcached_coll_smget_mode_t`. -/
inductive SmgMode where
  | none | duplicate | unique
  deriving DecidableEq

/-! ## Checks and texts -/

/-- The checks of `before_query` for several keys. -/
def beforeQueryKeys (c : Client) (keys : List (List Byte)) : Except Refusal Unit :=
  if c.serverCount = 0 then refuse .noServers
  else if c.useUdp || c.binaryProtocol then refuse .notSupported
  else if keys ≠ [] ∧ keys.all (keyTest c) then .ok () else refuse .badKeyProvided

/-- `MEMCACHED_COLL_MAX_BOP_MGET_KEY_COUNT`. -/
def maxBopMgetKeyCount : Nat := 200

/-- `MEMCACHED_COLL_MAX_BOP_MGET_ELEM_COUNT`. -/
def maxBopMgetElemCount : Nat := 50

/-- `MEMCACHED_COLL_MAX_BOP_SMGET_KEY_COUNT`. -/
def maxBopSmgetKeyCount : Nat := 2000

/-- `MEMCACHED_COLL_MAX_BOP_SMGET_ELEM_COUNT`. -/
def maxBopSmgetElemCount : Nat := 1000

def commandText (text : CStr) : Except Refusal CStr :=
  if maximumCommandSize ≤ text.length then refuse .memoryAllocationFailure else .ok text

/-- The first part of `do_coll_mget`: the text after the counters. -/
def collMgetText (c : Client) (stack : Nat → CStr) (keys : List (List Byte)) (query : Query)
    (verb : Verb) : Except Refusal CStr := do
  beforeQueryKeys c keys
  if maxBopMgetKeyCount < keys.length then refuse .invalidArguments
  else if query.count < 1 ∨ maxBopMgetElemCount < query.count then refuse .invalidArguments
  else if maxServersForMultiKeyOperation < c.serverCount then refuse .invalidArguments
  else if verb = .bopMget then
    let text ← bkeyFilterText stack query
    commandText (text ++ space ++ decimal query.offset ++ space ++ decimal query.count)
  else refuse .invalidArguments

def smgModeText (mode : SmgMode) : CStr :=
  if mode = .duplicate then lit ['d', 'u', 'p', 'l', 'i', 'c', 'a', 't', 'e']
  else lit ['u', 'n', 'i', 'q', 'u', 'e']

/-- The first part of `do_bop_smget`. -/
def bopSmgetText (c : Client) (stack : Nat → CStr) (keys : List (List Byte)) (query : Query)
    (mode : SmgMode) : Except Refusal CStr := do
  beforeQueryKeys c keys
  if query.count < 1 ∨ maxBopSmgetElemCount < query.count then refuse .invalidArguments
  else if query.offset ≠ 0 then refuse .invalidArguments
  else if mode ≠ .duplicate ∧ mode ≠ .unique then refuse .invalidArguments
  else if maxServersForMultiKeyOperation < c.serverCount then refuse .invalidArguments
  else
    let text ← bkeyFilterText stack query
    commandText (text ++ lit [' ', '0', ' '] ++ unsignedText (query.offset + query.count) ++
      space ++ smgModeText mode)

section Send

variable {n : Nat}

/-! ## Counting -/

/-- `lenkeys` and `numkeys`. -/
structure Counters (n : Nat) where
  lenkeys : Fin n → UInt32
  numkeys : Fin n → UInt16

def Counters.add (counters : Counters n) (k : KeyAt n) : Counters n where
  lenkeys := Function.update counters.lenkeys k.serverkey
    (counters.lenkeys k.serverkey + UInt32.ofNat (k.key.length + 1))
  numkeys := Function.update counters.numkeys k.serverkey (counters.numkeys k.serverkey + 1)

def countKeys (limit : Nat) : List (KeyAt n) → Counters n → Except Refusal (Counters n)
  | [], counters => .ok counters
  | k :: rest, counters =>
    if limit < ((counters.add k).numkeys k.serverkey).toNat then refuse .invalidArguments
    else countKeys limit rest (counters.add k)

/-! ## Sending -/

def multiKeyLine (verb : Verb) (text : CStr) (lenkeys numkeys : Nat) : List Byte :=
  bytesOf ((collOpString verb).take (collOpLength verb) ++ decimal lenkeys ++ space ++
    decimal numkeys ++ text) ++ crlf

def Counters.line (counters : Counters n) (verb : Verb) (text : CStr) (i : Fin n) : List Byte :=
  multiKeyLine verb text (counters.lenkeys i - 1).toNat (counters.numkeys i).toNat

/-- The body of the loop, for the key at the place `x`. -/
def sendCollKey (net : Net n) (line : Fin n → List Byte) (x : Nat) (k : KeyAt n) (st : Mget n) :
    Mget n :=
  let i := k.serverkey
  let inst := st.instances i
  if st.hostsFailed i then st
  else if inst.cursorActive = 0 then
    match net.connect x i with
    | .error rc => { st with rc := rc }.fail i false
    | .ok version =>
      let inst := { inst with version := version }
      let st := { st with rc := .success, hostsConnected := st.hostsConnected + 1 }
      if net.writev x then
        st.setInstance i { inst with
          cursorActive := inst.cursorActive + 1
          written := inst.written ++ (line i ++ k.key) }
      else (st.setInstance i inst).fail i true
  else if net.writev x then
    st.setInstance i { inst with written := inst.written ++ (keySeparator inst.version ++ k.key) }
  else (st.setInstance i { inst with cursorActive := 0 }).fail i true

def sendCollKeys (net : Net n) (line : Fin n → List Byte) : Nat → List (KeyAt n) → Mget n → Mget n
  | _, [], st => st
  | x, k :: rest, st => sendCollKeys net line (x + 1) rest (sendCollKey net line x k st)

/-- What is returned, given `success_happened` if the last loop is reached. -/
def multiKeyReturn (st : Mget n) (successHappened : Bool) : ReturnT :=
  if st.hostsConnected = 0 then (if st.rc = .success then .noServers else st.rc)
  else if st.failuresOccurredInSending && successHappened then .someErrors
  else if successHappened then .success
  else .failure

/-- The second part of both functions, with the servers afterwards. -/
def sendMultiKey (net : Net n) (verb : Verb) (limit : Nat) (text : CStr) (keys : List (KeyAt n))
    (instances : Fin n → Instance) : Except Refusal (ReturnT × (Fin n → Instance)) := do
  if net.malloc = false then refuse .memoryAllocationFailure
  else
    let counters ← countKeys limit keys ⟨fun _ => 0, fun _ => 0⟩
    let sent := sendCollKeys net (counters.line verb text) 0 keys
      ⟨drained instances, fun _ => false, 0, false, .success⟩
    if sent.hostsConnected = 0 then return (multiKeyReturn sent false, sent.instances)
    else
      let finished := (List.finRange n).foldl (finishLine net) (sent, false)
      return (multiKeyReturn finished.1 finished.2, finished.1.instances)

end Send

section Function

variable (c : Client) (net : Net c.serverCount) (stack : Nat → CStr)
  (serverOf : Nat → List Byte → Fin c.serverCount)

/-- `key_to_serverkey`.  `serverOf` gives the results of the calls of
`memcached_generate_hash_with_redistribution` by their number. -/
def keyServers (keys : List (List Byte)) : List (KeyAt c.serverCount) :=
  keys.mapIdx fun x key => ⟨key, serverOf x key⟩

def doCollMget (keys : List (List Byte)) (query : Query) (verb : Verb)
    (instances : Fin c.serverCount → Instance) :
    Except Refusal (ReturnT × (Fin c.serverCount → Instance)) := do
  let text ← collMgetText c stack keys query verb
  sendMultiKey net .bopMget maxBopMgetKeyCount text (keyServers c serverOf keys) instances

/-- `do_bop_smget` up to the call of `memcached_coll_smget_fetch_result`, which is made if the
result is a success. -/
def doBopSmget (keys : List (List Byte)) (query : Query) (mode : SmgMode)
    (instances : Fin c.serverCount → Instance) :
    Except Refusal (ReturnT × (Fin c.serverCount → Instance)) := do
  let text ← bopSmgetText c stack keys query mode
  sendMultiKey net .bopSmget maxBopSmgetKeyCount text (keyServers c serverOf keys) instances

end Function

/-! ## Counters -/

section Counting

variable {n : Nat} {limit : Nat} {keys : List (KeyAt n)}

def keysOf (keys : List (KeyAt n)) (i : Fin n) : List (List Byte) :=
  (routed KeyAt.serverkey keys i).map KeyAt.key

/-- The keys have no namespace. -/
def noNamespace : Namespace := ⟨[], Namespace.nil_length_lt⟩

/-- The loop counts as `memcached_mget_by_key` does, as long as no server has too many keys. -/
theorem countKeys_eq (done : List (KeyAt n)) (hk : ∀ i, (keysOf (done ++ keys) i).length ≤ limit) :
    countKeys limit keys ⟨lenkeys noNamespace done, numkeys done⟩ =
      .ok ⟨lenkeys noNamespace (done ++ keys), numkeys (done ++ keys)⟩ := by
  induction keys generalizing done with
  | nil => rw [append_nil, countKeys]
  | cons k rest ih =>
    have hn : Counters.add ⟨lenkeys noNamespace done, numkeys done⟩ k =
        ⟨lenkeys noNamespace (done ++ [k]), numkeys (done ++ [k])⟩ := by
      simp [Counters.add, lenkeys, numkeys, tally, noNamespace]
    rw [append_cons] at hk ⊢
    have hf : (numkeys (done ++ [k]) k.serverkey).toNat ≤ limit := by
      rw [toNat_numkeys]
      refine (Nat.mod_le _ _).trans (le_trans ?_ (hk k.serverkey))
      rw [keysOf, length_map]
      exact Sublist.length_le (Sublist.filter _ (sublist_append_left _ _))
    rw [countKeys, hn, if_neg (Nat.not_lt.2 hf), ih _ hk]

theorem counters_line_eq {separator : List Byte} (hs : separator.length = 1) (hsh : Short keys)
    (hl : limit < 2 ^ 16) (hf : (keysOf keys i).length ≤ limit) (hn : keysOf keys i ≠ [])
    (verb : Verb) (text : CStr) :
    Counters.line ⟨lenkeys noNamespace keys, numkeys keys⟩ verb text i =
      multiKeyLine verb text (separator.intercalate (keysOf keys i)).length
        (keysOf keys i).length := by
  rw [keysOf, length_map] at hf
  have hlt := hf.trans_lt hl
  rw [Counters.line, toNat_numkeys, Nat.mod_eq_of_lt hlt,
    toNat_lenkeys_sub_one noNamespace hs hsh hlt (by simpa [keysOf] using hn), keysOf, length_map]
  rfl

end Counting

/-! ## What is sent -/

section Sent

variable {n : Nat} {net : Net n} {line : Fin n → List Byte} {before : Fin n → Instance}

structure Reachable (net : Net n) : Prop where
  malloc : net.malloc = true
  connect : ∀ x i, ∃ version, net.connect x i = .ok version
  writev : ∀ x, net.writev x = true
  finish : ∀ i, net.finish i = true

theorem sendCollKeys_sending (hn : Reachable net) (keys : List (KeyAt n)) :
    Sending KeyAt.serverkey KeyAt.key line keySeparator before keys
      (sendCollKeys net line 0 keys ⟨drained before, fun _ => false, 0, false, .success⟩) := by
  refine Sending.start.loop (fun _ _ => rfl) (fun x k rest st hal => ?_) 0
  obtain ⟨version, hc⟩ := hn.connect x k.serverkey
  refine ⟨version, ?_⟩
  simp only [sendCollKeys, sendCollKey, hal, Bool.false_eq_true, if_false, hc, hn.writev, if_true]
  rfl

end Sent

/-! ## Framing -/

/-- The request for some keys: the header says how long their list is and how many they are. -/
def multiKeyRequest (verb : Verb) (text : CStr) (separator : List Byte) (keys : List (List Byte)) :
    List Byte :=
  if keys = [] then []
  else
    let list := separator.intercalate keys
    multiKeyLine verb text list.length keys.length ++ list ++ crlf

/-- Every server with a key gets one request for its keys, the others get nothing.  No key is lost,
and the replies waited for are those to these requests. -/
structure MultiKeyFramed {n : Nat} (verb : Verb) (text : CStr) (keys : List (KeyAt n))
    (before after : Fin n → Instance) : Prop where
  written : ∀ i, (after i).written = (before i).written ++
    multiKeyRequest verb text (keySeparator (after i).version) (keysOf keys i)
  active : ∀ i, (after i).cursorActive = if keysOf keys i = [] then 0 else 1
  perm : ((List.finRange n).flatMap (keysOf keys)).Perm (keys.map KeyAt.key)

theorem keySeparator_length (v : Version) : (keySeparator v).length = 1 := by
  unfold keySeparator
  split_ifs <;> rfl

theorem flatMap_keysOf_perm (keys : List (KeyAt n)) :
    ((List.finRange n).flatMap (keysOf keys)).Perm (keys.map KeyAt.key) := by
  have hr : ((finRange n).flatMap (routed KeyAt.serverkey keys)).Perm keys :=
    flatMap_routed_perm (nodup_finRange n) fun k _ => mem_finRange k.serverkey
  have hp := hr.map KeyAt.key
  rwa [map_flatMap] at hp

theorem sendMultiKey_framed {net : Net n} (hn : Reachable net) (verb : Verb)
    (hl : limit < 2 ^ 16) (text : CStr) {keys : List (KeyAt n)}
    (hs : ∀ k ∈ keys, k.key.length < maxKey) (hf : ∀ i, (keysOf keys i).length ≤ limit)
    (before : Fin n → Instance) :
    ∃ rc after, sendMultiKey net verb limit text keys before = .ok (rc, after) ∧
      MultiKeyFramed verb text keys before after := by
  have hc : countKeys limit keys ⟨fun _ => 0, fun _ => 0⟩ = .ok _ := countKeys_eq [] hf
  set line := Counters.line ⟨lenkeys noNamespace keys, numkeys keys⟩ verb text with hli
  have hse := @sendCollKeys_sending _ net line before hn keys
  by_cases hk : keys = []
  · -- without a key no server is connected
    subst hk
    refine ⟨.noServers, drained before, ?_, fun i => (append_nil _).symm, fun _ => rfl,
      flatMap_keysOf_perm []⟩
    rw [sendMultiKey, hn.malloc]
    rfl
  set sent := sendCollKeys net line 0 keys ⟨drained before, fun _ => false, 0, false, .success⟩
  have hin := hse.finish hn.finish
  set finished := (finRange n).foldl (finishLine net) (sent, false)
  refine ⟨multiKeyReturn finished.1 finished.2, finished.1.instances, ?_, fun i => ?_, fun i => ?_,
    flatMap_keysOf_perm keys⟩
  · rw [sendMultiKey, hn.malloc, hc]
    exact if_neg (hse.connected hk)
  · rw [hin i, multiKeyRequest]
    dsimp only
    change _ ++ (if keysOf keys i = [] then _ else _) = _
    by_cases he : keysOf keys i = []
    · rw [if_pos he, if_pos he]
    · rw [if_neg he, if_neg he, hli, counters_line_eq (keySeparator_length _) hs hl (hf i) he]
      rfl
  · rw [hin i]
    exact hse.active i

section Calls

variable {c : Client} {keys : List (List Byte)}

theorem beforeQueryKeys_ok (h : beforeQueryKeys c keys = .ok ()) :
    ∀ key ∈ keys, key.length < maxKey := by
  simp only [beforeQueryKeys, refuse] at h
  split_ifs at h with _ ha ht
  intro key hk
  have ho := all_eq_true.1 ht.2 key hk
  simp only [Bool.or_eq_true, not_or] at ha
  simp only [keyTest, ha.2, Bool.and_eq_true, Bool.false_eq_true, if_false, decide_eq_true_eq] at ho
  exact ho.1.2

theorem short_keyServers (serverOf : Nat → List Byte → Fin c.serverCount)
    (h : ∀ key ∈ keys, key.length < maxKey) :
    ∀ k ∈ keyServers c serverOf keys, k.key.length < maxKey := by
  intro k hk
  obtain ⟨x, hx, rfl⟩ := mem_mapIdx.1 hk
  exact h _ (getElem_mem hx)

/-- What the checks of `do_coll_mget` leave. -/
theorem collMgetText_ok {stack : Nat → CStr} (h : collMgetText c stack keys query verb = .ok text) :
    beforeQueryKeys c keys = .ok () ∧ keys.length ≤ maxBopMgetKeyCount := by
  unfold collMgetText at h
  cases hb : beforeQueryKeys c keys with
  | error e => simp [hb, bind, Except.bind] at h
  | ok u =>
    rw [hb] at h
    by_cases hm : maxBopMgetKeyCount < keys.length
    · simp [hm, bind, Except.bind, refuse] at h
    · exact ⟨rfl, Nat.not_lt.1 hm⟩

theorem bopSmgetText_ok {stack : Nat → CStr}
    (h : bopSmgetText c stack keys query mode = .ok text) : beforeQueryKeys c keys = .ok () := by
  unfold bopSmgetText at h
  cases hb : beforeQueryKeys c keys with
  | error e => simp [hb, bind, Except.bind] at h
  | ok u => rfl

inductive MultiKeyCall where
  | mget (query : Query)
  | smget (query : Query) (mode : SmgMode)

def MultiKeyCall.verb : MultiKeyCall → Verb
  | .mget _ => .bopMget
  | .smget _ _ => .bopSmget

def MultiKeyCall.text (c : Client) (stack : Nat → CStr) (keys : List (List Byte)) :
    MultiKeyCall → Except Refusal CStr
  | .mget query => collMgetText c stack keys query .bopMget
  | .smget query mode => bopSmgetText c stack keys query mode

def MultiKeyCall.run (c : Client) (net : Net c.serverCount) (stack : Nat → CStr)
    (serverOf : Nat → List Byte → Fin c.serverCount) (keys : List (List Byte))
    (instances : Fin c.serverCount → Instance) :
    MultiKeyCall → Except Refusal (ReturnT × (Fin c.serverCount → Instance))
  | .mget query => doCollMget c net stack serverOf keys query .bopMget instances
  | .smget query mode => doBopSmget c net stack serverOf keys query mode instances

/-- A call that passes the checks sends every server one request for its keys, if no server has more
than 2000 of them. -/
theorem multi_key_framed (call : MultiKeyCall) {net : Net c.serverCount} (hnet : Reachable net)
    {stack : Nat → CStr} {text : CStr} (htext : call.text c stack keys = .ok text)
    {serverOf : Nat → List Byte → Fin c.serverCount}
    (hfew : ∀ i, (keysOf (keyServers c serverOf keys) i).length ≤ maxBopSmgetKeyCount)
    (before : Fin c.serverCount → Instance) :
    ∃ rc after, call.run c net stack serverOf keys before = .ok (rc, after) ∧
      MultiKeyFramed call.verb text (keyServers c serverOf keys) before after := by
  cases call with
  | mget query =>
    obtain ⟨hb, hc⟩ := collMgetText_ok htext
    have hs := short_keyServers serverOf (beforeQueryKeys_ok hb)
    have ha : ∀ i, (keysOf (keyServers c serverOf keys) i).length ≤ maxBopMgetKeyCount := by
      intro i
      rw [keysOf, length_map]
      refine (length_filter_le _ _).trans ?_
      rwa [keyServers, length_mapIdx]
    obtain ⟨rc, after, hse, hf⟩ :=
      sendMultiKey_framed hnet .bopMget (by decide) text hs ha before
    refine ⟨rc, after, ?_, hf⟩
    rw [MultiKeyCall.run, doCollMget, show collMgetText c stack keys query .bopMget = .ok text
      from htext]
    exact hse
  | smget query mode =>
    have hs := short_keyServers serverOf (beforeQueryKeys_ok (bopSmgetText_ok htext))
    obtain ⟨rc, after, hse, hf⟩ :=
      sendMultiKey_framed hnet .bopSmget (by decide) text hs hfew before
    refine ⟨rc, after, ?_, hf⟩
    rw [MultiKeyCall.run, doBopSmget, show bopSmgetText c stack keys query mode = .ok text
      from htext]
    exact hse

end Calls

/-- Any element of the b+trees between two keys. -/
def rangeQuery : Query where
  type := .bopRange
  subKey := ⟨0, (0, 0), 0, (1, 9), [], ([], []), ⟨[], 0⟩, []⟩
  value := []
  valueLength := 0
  offset := 0
  count := 5
  eflagFilter := none

/-- The second of three keys is on the first server, and the others are on the second one. -/
theorem multi_key_framed_three_keys :
    ∃ rc after, doBopSmget twoServers.toClient acceptingNet (fun _ => []) (firstServerAt 1)
        [bytesOf (lit ['a']), bytesOf (lit ['b']), bytesOf (lit ['c'])] rangeQuery .unique connections =
          .ok (rc, after) ∧ MultiKeyFramed (n := 2) .bopSmget
        (lit [' ', '1', '.', '.', '9', ' ', '0', ' ', '5', ' ', 'u', 'n', 'i', 'q', 'u', 'e'])
        [⟨bytesOf (lit ['a']), 1⟩, ⟨bytesOf (lit ['b']), 0⟩, ⟨bytesOf (lit ['c']), 1⟩] connections
        after := by
  have hn : Reachable acceptingNet :=
    ⟨rfl, fun _ _ => ⟨_, rfl⟩, fun _ => rfl, fun _ => rfl⟩
  exact multi_key_framed (c := twoServers.toClient) (.smget rangeQuery .unique) hn
    (by decide +kernel) (by decide +kernel) connections

end ArcusClient.Coll
