import ArcusClient.Keys.Request
import ArcusClient.Lib.Scatter
import Mathlib.Data.UInt

/-!
# Reading many items

`memcached_mget_by_key` asks each server for the keys that belong to it:

    mget <lenkeys> <numkeys>\r\n<key> <key> ... <key>\r\n

One loop counts, for each server, the keys that hash to it.  A second loop sends the keys, but to the
server of the group key if there is one.  The counters are `uint32_t lenkeys[]` and
`uint16_t numkeys[]`.  They are right for the calls that `Countable` describes, and for no other
(`mget_framed_iff`).
-/

namespace ArcusClient.Keys

open CString Coll Scatter List Function

/-! ## Servers -/

structure Version where
  majorVersion : UInt8
  minorVersion : UInt8
  isEnterprise : Bool

/-- `mget_command_is_supported`.  The number 255 stands for an unknown version. -/
def mgetCommandIsSupported (supportCas : Bool) (v : Version) : Bool :=
  if v.majorVersion = 255 ∨ v.minorVersion = 255 then false
  else
    let (major, minor) : UInt8 × UInt8 := match supportCas, v.isEnterprise with
      | true, true => (0, 9)
      | true, false => (1, 13)
      | false, true => (0, 7)
      | false, false => (1, 11)
    major < v.majorVersion || (v.majorVersion == major && minor ≤ v.minorVersion)

structure Instance where
  version : Version
  /-- `cursor_active`: the replies that are waited for. -/
  cursorActive : Nat
  /-- What is written to the connection. -/
  written : List Byte

/-- What the servers and the operating system answer during a call. -/
structure Net (n : Nat) where
  /-- There is memory for `key_to_serverkey`. -/
  malloc : Bool
  /-- `memcached_connect` for a key: the version of the server, or an error. -/
  connect : Nat → Fin n → Except ReturnT Version
  /-- `memcached_io_writev` for a key succeeds. -/
  writev : Nat → Bool
  /-- The end of the line is written to a server. -/
  finish : Fin n → Bool

/-- A key, and its entry of `key_to_serverkey`. -/
structure KeyAt (n : Nat) where
  key : List Byte
  serverkey : Fin n

section Call

variable {n : Nat}

/-! ## Counting -/

/-- `lenkeys`, with one for the space before each key. -/
def lenkeys (ns : Namespace) (keys : List (KeyAt n)) : Fin n → UInt32 :=
  tally KeyAt.serverkey (fun k => UInt32.ofNat (ns.bytes.length + k.key.length + 1)) keys

/-- `numkeys`. -/
def numkeys (keys : List (KeyAt n)) : Fin n → UInt16 := tally KeyAt.serverkey (fun _ => 1) keys

/-! ## Sending -/

structure Mget (n : Nat) where
  instances : Fin n → Instance
  hostsFailed : Fin n → Bool
  hostsConnected : Nat
  failuresOccurredInSending : Bool
  rc : ReturnT

def mgetLine (s : Settings) (lenkeys numkeys : Nat) : List Byte :=
  bytesOf ((if s.supportCas then lit ['m', 'g', 'e', 't', 's'] else lit ['m', 'g', 'e', 't']) ++
    space ++ decimal lenkeys ++ space ++ decimal numkeys) ++ crlf

/-- The command for a server that does not know `mget`. -/
def getCommand (s : Settings) : List Byte :=
  bytesOf (if s.supportCas then lit ['g', 'e', 't', 's', ' '] else lit ['g', 'e', 't', ' '])

def serverFor (group : Option (Fin n)) (k : KeyAt n) : Fin n := group.getD k.serverkey

def Mget.setInstance (st : Mget n) (i : Fin n) (inst : Instance) : Mget n :=
  { st with instances := Function.update st.instances i inst }

/-- `hosts_failed` is set, and `failures_occurred_in_sending` if a write has failed. -/
def Mget.fail (st : Mget n) (i : Fin n) (inSending : Bool) : Mget n :=
  { st with
    hostsFailed := Function.update st.hostsFailed i true
    failuresOccurredInSending := st.failuresOccurredInSending || inSending }

/-- The body of the loop, for the key at the place `x`. -/
def sendKey (s : Settings) (net : Net n) (lenkeys : Fin n → UInt32) (numkeys : Fin n → UInt16)
    (group : Option (Fin n)) (x : Nat) (k : KeyAt n) (st : Mget n) : Mget n :=
  let i := serverFor group k
  let inst := st.instances i
  if mgetCommandIsSupported s.supportCas inst.version && st.hostsFailed i then st
  else if inst.cursorActive = 0 then
    match net.connect x i with
    | .error rc => { st with rc := rc }.fail i false
    | .ok version =>
      let inst := { inst with version := version }
      let st := { st with rc := .success, hostsConnected := st.hostsConnected + 1 }
      let command := if mgetCommandIsSupported s.supportCas version then
          mgetLine s (lenkeys i - 1).toNat (numkeys i).toNat
        else getCommand s
      if net.writev x then
        st.setInstance i { inst with
          cursorActive := inst.cursorActive + 1
          written := inst.written ++ (command ++ (s.ns.bytes ++ k.key)) }
      else (st.setInstance i inst).fail i true
  else if net.writev x then
    st.setInstance i
      { inst with written := inst.written ++ (bytesOf space ++ (s.ns.bytes ++ k.key)) }
  else (st.setInstance i { inst with cursorActive := 0 }).fail i true

def sendKeys (s : Settings) (net : Net n) (lenkeys : Fin n → UInt32) (numkeys : Fin n → UInt16)
    (group : Option (Fin n)) : Nat → List (KeyAt n) → Mget n → Mget n
  | _, [], st => st
  | x, k :: rest, st =>
    sendKeys s net lenkeys numkeys group (x + 1) rest
      (sendKey s net lenkeys numkeys group x k st)

/-- The body of the loop that ends the lines, with `success_happened`. -/
def finishLine (net : Net n) (acc : Mget n × Bool) (i : Fin n) : Mget n × Bool :=
  let (st, successHappened) := acc
  let inst := st.instances i
  if inst.cursorActive = 0 then acc
  else if net.finish i then
    (st.setInstance i { inst with written := inst.written ++ crlf }, true)
  else ({ st with failuresOccurredInSending := true }, successHappened)

/-- `before_get_query` reads the replies that are still waited for. -/
def drained (instances : Fin n → Instance) : Fin n → Instance :=
  fun i => { instances i with cursorActive := 0 }

end Call

/-- `MAX_SERVERS_FOR_MULTI_KEY_OPERATION`, the size of the arrays. -/
def maxServersForMultiKeyOperation : Nat := 1000

def mgetCheck (s : Settings) (groupKey : List Byte) (keys : List (List Byte)) : Except Refusal Unit :=
  if s.serverCount = 0 then refuse .noServers
  else if s.useUdp then refuse .notSupported
  else if keys = [] then refuse .notfound
  else if !keys.all (keyTest s.toClient) then refuse .badKeyProvided
  else if groupKey ≠ [] ∧ keyTest s.toClient groupKey = false then refuse .badKeyProvided
  else if maxServersForMultiKeyOperation < s.serverCount then refuse .invalidArguments
  else .ok ()

section Function

variable (s : Settings) (net : Net s.serverCount)
  (serverOf : Nat → List Byte → Fin s.serverCount)

/-- The server of the group key.  An empty group key is none. -/
def masterServerKey (groupKey : List Byte) : Option (Fin s.serverCount) :=
  if groupKey = [] then none else some (serverOf 0 groupKey)

/-- `key_to_serverkey`. -/
def keyToServerkey (keys : List (List Byte)) : List (KeyAt s.serverCount) :=
  keys.mapIdx fun x key => ⟨key, serverOf (x + 1) key⟩

/-- What is returned, given `success_happened` if the last loop is reached. -/
def mgetReturn (st : Mget s.serverCount) (successHappened : Bool) : ReturnT :=
  if st.hostsConnected = 0 then (if st.rc = .success then .noServers else st.rc)
  else if st.failuresOccurredInSending && successHappened then .someErrors
  else if successHappened then .success
  else .failure

def mgetSend (groupKey : List Byte) (keys : List (List Byte))
    (instances : Fin s.serverCount → Instance) : Mget s.serverCount :=
  let group := masterServerKey s serverOf groupKey
  let keys := keyToServerkey s serverOf keys
  sendKeys s net (lenkeys s.ns keys) (numkeys keys) group 0 keys
    ⟨drained instances, fun _ => false, 0, false, .success⟩

def mgetFinish (sent : Mget s.serverCount) : Mget s.serverCount × Bool :=
  (List.finRange s.serverCount).foldl (finishLine net) (sent, false)

/-- `memcached_mget_by_key`, with the servers afterwards.  `serverOf` gives the results of the
calls of `memcached_generate_hash_with_redistribution` by their number, as the ring may change
between two of them. -/
def memcachedMgetByKey (groupKey : List Byte) (keys : List (List Byte))
    (instances : Fin s.serverCount → Instance) :
    Except Refusal (ReturnT × (Fin s.serverCount → Instance)) := do
  mgetCheck s groupKey keys
  if net.malloc = false then refuse .memoryAllocationFailure
  else
    let sent := mgetSend s net serverOf groupKey keys instances
    if sent.hostsConnected = 0 then return (mgetReturn s sent false, sent.instances)
    else
      let finished := mgetFinish s net sent
      return (mgetReturn s finished.1 finished.2, finished.1.instances)

end Function

/-! ## What is sent -/

section Sent

variable {n : Nat} {place : KeyAt n → Fin n} {text : KeyAt n → List Byte} {line : Fin n → List Byte}
  {separator : Version → List Byte} {before : Fin n → Instance} {net : Net n} {s : Settings}
  {len : Fin n → UInt32} {num : Fin n → UInt16} {group : Option (Fin n)}

/-- What a server has got when some of its keys are sent. -/
def begun (line separator : List Byte) (keys : List (List Byte)) : List Byte :=
  if keys = [] then [] else line ++ separator.intercalate keys

theorem begun_concat (line separator : List Byte) (keys : List (List Byte)) (key : List Byte) :
    begun line separator (keys ++ [key]) =
      begun line separator keys ++ ((if keys = [] then line else separator) ++ key) := by
  by_cases h : keys = []
  · subst h
    simp [begun]
  · rw [begun, if_neg (by simp), begun, if_neg h, if_neg h, intercalate_concat h]
    simp only [append_assoc]

/-- The state of a loop that sends `text k` to the server `place k`, after the keys `done`. -/
structure Sending (place : KeyAt n → Fin n) (text : KeyAt n → List Byte) (line : Fin n → List Byte)
    (separator : Version → List Byte) (before : Fin n → Instance) (done : List (KeyAt n))
    (st : Mget n) : Prop where
  written : ∀ i, (st.instances i).written = (before i).written ++
    begun (line i) (separator (st.instances i).version) ((routed place done i).map text)
  active : ∀ i, (st.instances i).cursorActive = if (routed place done i).map text = [] then 0 else 1
  alive : ∀ i, st.hostsFailed i = false
  connected : done ≠ [] → st.hostsConnected ≠ 0

theorem Sending.start : Sending place text line separator before []
    ⟨drained before, fun _ => false, 0, false, .success⟩ :=
  ⟨fun _ => (append_nil _).symm, fun _ => rfl, fun _ => rfl, fun h => absurd rfl h⟩

/-- A key is written, after the line if it is the first one of the server. -/
def Mget.send (st : Mget n) (i : Fin n) (version : Version) (line separator key : List Byte) :
    Mget n :=
  let inst := st.instances i
  if inst.cursorActive = 0 then
    { st with rc := .success, hostsConnected := st.hostsConnected + 1 }.setInstance i
      ⟨version, inst.cursorActive + 1, inst.written ++ (line ++ key)⟩
  else st.setInstance i { inst with written := inst.written ++ (separator ++ key) }

theorem Sending.concat (hs : Sending place text line separator before done st) (k : KeyAt n)
    (hin : st'.instances = Function.update st.instances (place k) inst)
    (hw : inst.written = (before (place k)).written ++ begun (line (place k))
      (separator inst.version) ((routed place done (place k)).map text ++ [text k]))
    (ha : inst.cursorActive = 1) (hal : st'.hostsFailed = st.hostsFailed)
    (hc : st'.hostsConnected ≠ 0) :
    Sending place text line separator before (done ++ [k]) st' where
  written i := by
    by_cases hi : i = place k
    · subst hi
      rw [hin, update_self, routed_concat_self, map_append, hw]
      rfl
    · rw [hin, update_of_ne hi, routed_concat_of_ne (Ne.symm hi), hs.written]
  active i := by
    by_cases hi : i = place k
    · subst hi
      rw [hin, update_self, routed_concat_self, ha, if_neg (by simp)]
    · rw [hin, update_of_ne hi, routed_concat_of_ne (Ne.symm hi), hs.active]
  alive := hal ▸ hs.alive
  connected _ := hc

theorem Sending.send (hs : Sending place text line separator before done st) (k : KeyAt n)
    (version : Version) : Sending place text line separator before (done ++ [k])
      (st.send (place k) version (line (place k)) (separator (st.instances (place k)).version)
        (text k)) := by
  have hw := hs.written (place k)
  have ha := hs.active (place k)
  rw [Mget.send]
  by_cases hf : (routed place done (place k)).map text = []
  · rw [if_pos hf] at ha
    rw [if_pos ha]
    refine hs.concat k rfl ?_ (by rw [ha]) rfl (Nat.succ_ne_zero _)
    rw [hw, hf, begun_concat, if_pos rfl]
    simp [begun]
  · rw [if_neg hf] at ha
    have hd : done ≠ [] := by
      rintro rfl
      exact hf rfl
    rw [if_neg (by rw [ha]; exact one_ne_zero)]
    refine hs.concat k rfl ?_ ha rfl (hs.connected hd)
    rw [hw, begun_concat, if_neg hf, append_assoc]

/-- A loop sends its keys if its body does. -/
theorem Sending.loop {loop : Nat → List (KeyAt n) → Mget n → Mget n}
    (hnil : ∀ x st, loop x [] st = st)
    (hcons : ∀ x k rest st, (∀ i, st.hostsFailed i = false) → ∃ version,
      loop x (k :: rest) st = loop (x + 1) rest (st.send (place k) version (line (place k))
        (separator (st.instances (place k)).version) (text k)))
    {keys : List (KeyAt n)} (hs : Sending place text line separator before done st) (x : Nat) :
    Sending place text line separator before (done ++ keys) (loop x keys st) := by
  induction keys generalizing done st x with
  | nil => simpa [hnil] using hs
  | cons k rest ih =>
    obtain ⟨version, he⟩ := hcons x k rest st hs.alive
    rw [append_cons, he]
    exact ih (hs.send k version) (x + 1)

/-- The keys that are sent to a server, as they are sent. -/
def sentTo (s : Settings) (group : Option (Fin n)) (keys : List (KeyAt n)) (i : Fin n) :
    List (List Byte) :=
  (routed (serverFor group) keys i).map fun k => s.ns.bytes ++ k.key

def keyList (keys : List (List Byte)) : List Byte := (bytesOf space).intercalate keys

/-- The servers know the command and take all that is written. -/
structure Accepting (s : Settings) (net : Net n) : Prop where
  malloc : net.malloc = true
  connect : ∀ x i, ∃ version, net.connect x i = .ok version ∧
    mgetCommandIsSupported s.supportCas version = true
  writev : ∀ x, net.writev x = true
  finish : ∀ i, net.finish i = true

theorem sendKeys_sending (ha : Accepting s net) (keys : List (KeyAt n)) :
    Sending (serverFor group) (fun k => s.ns.bytes ++ k.key)
      (fun i => mgetLine s (len i - 1).toNat (num i).toNat) (fun _ => bytesOf space) before keys
      (sendKeys s net len num group 0 keys
        ⟨drained before, fun _ => false, 0, false, .success⟩) := by
  refine Sending.start.loop (fun _ _ => rfl) (fun x k rest st hal => ?_) 0
  obtain ⟨version, hc, hsu⟩ := ha.connect x (serverFor group k)
  refine ⟨version, ?_⟩
  simp only [sendKeys, sendKey, hal, Bool.and_false, Bool.false_eq_true, if_false, hc, hsu, ha.writev,
    if_true]
  rfl

/-- The last loop ends the line of every server that has got one. -/
theorem foldl_finishLine (hf : ∀ i, net.finish i = true) {is : List (Fin n)} (hn : is.Nodup)
    (acc : Mget n × Bool) (i : Fin n) : (is.foldl (finishLine net) acc).1.instances i =
      { acc.1.instances i with
        written := (acc.1.instances i).written ++
          if i ∈ is ∧ (acc.1.instances i).cursorActive ≠ 0 then crlf else [] } := by
  induction is generalizing acc with
  | nil => simp
  | cons j rest ih =>
    obtain ⟨hno, hr⟩ := nodup_cons.1 hn
    obtain ⟨st, successHappened⟩ := acc
    rw [foldl_cons, ih hr]
    simp only [finishLine, hf]
    by_cases hi : i = j
    · subst hi
      by_cases ha : (st.instances i).cursorActive = 0 <;>
        simp [ha, hno, Mget.setInstance]
    · by_cases ha : (st.instances j).cursorActive = 0 <;>
        simp [ha, hi, Mget.setInstance]

theorem Sending.finish {keys : List (KeyAt n)}
    (hs : Sending place text line separator before keys st)
    (hf : ∀ i, net.finish i = true) (i : Fin n) :
    ((finRange n).foldl (finishLine net) (st, false)).1.instances i =
      { st.instances i with
        written := (before i).written ++ if (routed place keys i).map text = [] then [] else
          line i ++ (separator (st.instances i).version).intercalate
            ((routed place keys i).map text) ++ crlf } := by
  rw [foldl_finishLine hf (nodup_finRange n), hs.written, hs.active, begun]
  split <;> simp

end Sent

section Written

variable {s : Settings} {net : Net s.serverCount}
  (serverOf : Nat → List Byte → Fin s.serverCount) {groupKey : List Byte}
  {keys : List (List Byte)} (before : Fin s.serverCount → Instance)

theorem mget_written (ha : Accepting s net) (hc : mgetCheck s groupKey keys = .ok ())
    (hk : keys ≠ []) :
    ∃ rc after, memcachedMgetByKey s net serverOf groupKey keys before = .ok (rc, after) ∧
      ∀ i, (after i).written = (before i).written ++
        if sentTo s (masterServerKey s serverOf groupKey) (keyToServerkey s serverOf keys) i = []
        then [] else mgetLine s (lenkeys s.ns (keyToServerkey s serverOf keys) i - 1).toNat
            (numkeys (keyToServerkey s serverOf keys) i).toNat ++
          keyList (sentTo s (masterServerKey s serverOf groupKey)
            (keyToServerkey s serverOf keys) i) ++ crlf := by
  set ks := keyToServerkey s serverOf keys with hks
  set group := masterServerKey s serverOf groupKey
  have hse := @sendKeys_sending _ before net s (lenkeys s.ns ks) (numkeys ks) group ha ks
  have hco := hse.connected (by simpa [hks, keyToServerkey] using hk)
  set finished := mgetFinish s net (mgetSend s net serverOf groupKey keys before) with hf
  refine ⟨mgetReturn s finished.1 finished.2, finished.1.instances, ?_, fun i => ?_⟩
  · rw [memcachedMgetByKey, hc, ha.malloc]
    exact if_neg hco
  · rw [hf, mgetFinish]
    exact congrArg Instance.written (hse.finish ha.finish i)

end Written

/-! ## The counters -/

section Counters

variable {n : Nat} {s : Settings} {ns : Namespace} {group : Option (Fin n)} {keys : List (KeyAt n)}
  {i : Fin n}

theorem toNat_foldl_add_uint16 (counts : List UInt16) (a : UInt16) :
    (counts.foldl (· + ·) a).toNat = (a.toNat + (counts.map UInt16.toNat).sum) % 2 ^ 16 := by
  induction counts generalizing a with
  | nil => simp
  | cons count rest ih =>
    rw [foldl_cons, ih, map_cons, sum_cons, UInt16.toNat_add]
    omega

theorem toNat_foldl_add_uint32 (counts : List UInt32) (a : UInt32) :
    (counts.foldl (· + ·) a).toNat = (a.toNat + (counts.map UInt32.toNat).sum) % 2 ^ 32 := by
  induction counts generalizing a with
  | nil => simp
  | cons count rest ih =>
    rw [foldl_cons, ih, map_cons, sum_cons, UInt32.toNat_add]
    omega

/-- `numkeys` is the number of keys that hash to the server, in sixteen bits. -/
theorem toNat_numkeys :
    (numkeys keys i).toNat = (routed KeyAt.serverkey keys i).length % 2 ^ 16 := by
  rw [numkeys, tally_eq_foldl, toNat_foldl_add_uint16]
  simp

/-- The keys passed `memcached_key_test`. -/
def Short (keys : List (KeyAt n)) : Prop := ∀ k ∈ keys, k.key.length < maxKey

/-- `lenkeys` is the length of the keys that hash to the server, with a space each. -/
theorem toNat_lenkeys (hs : Short keys) : (lenkeys ns keys i).toNat =
      ((routed KeyAt.serverkey keys i).map fun k => ns.bytes.length + k.key.length + 1).sum %
        2 ^ 32 := by
  have hn := ns.length_lt
  rw [lenkeys, tally_eq_foldl, toNat_foldl_add_uint32, map_map]
  congr 1
  rw [UInt32.toNat_zero, Nat.zero_add]
  congr 1
  refine map_congr_left fun k hk => ?_
  have hke := hs k (mem_routed.1 hk).1
  simp only [prefixKeyMaxSize, maxKey] at hn hke
  exact UInt32.toNat_ofNat_of_lt' (by simp only [UInt32.size]; omega)

/-- With less than 2¹⁶ keys for the server, `lenkeys` does not overflow. -/
theorem toNat_lenkeys_sub_one (ns : Namespace) {separator : List Byte} (hsp : separator.length = 1)
    (hs : Short keys) (hn : (routed KeyAt.serverkey keys i).length < 2 ^ 16)
    (hne : routed KeyAt.serverkey keys i ≠ []) : (lenkeys ns keys i - 1).toNat =
      (separator.intercalate
        ((routed KeyAt.serverkey keys i).map fun k => ns.bytes ++ k.key)).length := by
  set ks := routed KeyAt.serverkey keys i
  have hl : (separator.intercalate (ks.map fun k => ns.bytes ++ k.key)).length + 1 =
      (ks.map fun k => ns.bytes.length + k.key.length + 1).sum := by
    have h := @length_intercalate _ separator (ks.map fun k => ns.bytes ++ k.key)
      (by simpa using hne)
    rw [hsp] at h
    simpa [comp_def] using h
  have hb : (ks.map fun k => ns.bytes.length + k.key.length + 1).sum ≤ ks.length * 4128 := by
    have hns := ns.length_lt
    refine (sum_le_card_nsmul _ 4128 ?_).trans (by simp)
    intro m hm
    obtain ⟨k, hk, rfl⟩ := mem_map.1 hm
    have hke := hs k (mem_routed.1 hk).1
    simp only [prefixKeyMaxSize, maxKey] at hns hke
    omega
  have hle := @toNat_lenkeys _ ns _ i hs
  rw [← hl, Nat.mod_eq_of_lt (by omega)] at hle
  rw [UInt32.toNat_sub_of_le _ _ (by rw [UInt32.le_iff_toNat_le, hle]; simp), hle]
  rfl

/-- The calls whose keys are counted right: the keys are sent where they hash to, and less than
2¹⁶ of them to each server. -/
def Countable (group : Option (Fin n)) (keys : List (KeyAt n)) : Prop :=
  (∀ k ∈ keys, serverFor group k = k.serverkey) ∧
    ∀ i, (routed (serverFor group) keys i).length < 2 ^ 16

/-- The counters of a server are those of the keys that are sent to it. -/
def Counted (s : Settings) (group : Option (Fin n)) (keys : List (KeyAt n)) (i : Fin n) : Prop :=
  (lenkeys s.ns keys i - 1).toNat = (keyList (sentTo s group keys i)).length ∧
    (numkeys keys i).toNat = (sentTo s group keys i).length

theorem counted_of_countable (hs : Short keys) (hc : Countable group keys)
    (hn : sentTo s group keys i ≠ []) : Counted s group keys i := by
  obtain ⟨ha, hnu⟩ := hc
  have hr : routed (serverFor group) keys i = routed KeyAt.serverkey keys i :=
    filter_congr fun k hk => by rw [ha k hk]
  have hnu := hnu i
  rw [sentTo, hr] at hn
  rw [hr] at hnu
  rw [Counted, sentTo, hr, toNat_numkeys, Nat.mod_eq_of_lt hnu, length_map]
  exact ⟨toNat_lenkeys_sub_one s.ns rfl hs hnu (by simpa using hn), rfl⟩

theorem countable_of_counted (hc : ∀ i, sentTo s group keys i ≠ [] → Counted s group keys i) :
    Countable group keys := by
  have hn (i : Fin n) (hne : routed (serverFor group) keys i ≠ []) :
      (numkeys keys i).toNat = (routed (serverFor group) keys i).length := by
    rw [(hc i (by simpa [sentTo] using hne)).2, sentTo, length_map]
  constructor
  · intro k hk
    cases group with
    | none => rfl
    | some g =>
      -- All keys are sent to `g`, so all of them have to be counted there.
      have ha : routed (serverFor (some g)) keys g = keys :=
        filter_eq_self.2 fun _ _ => decide_eq_true rfl
      have hg := hn g (ha.symm ▸ ne_nil_of_mem hk)
      rw [ha, toNat_numkeys] at hg
      have hl : (routed KeyAt.serverkey keys g).length ≤ keys.length := length_filter_le _ _
      have he : (routed KeyAt.serverkey keys g).length = keys.length := by
        omega
      have hm := length_filter_eq_length_iff.1 he k hk
      exact (of_decide_eq_true hm).symm
  · intro i
    by_cases hem : routed (serverFor group) keys i = []
    · simp [hem]
    · rw [← hn i hem]
      exact (numkeys keys i).toNat_lt

end Counters

/-! ## Framing -/

section Framing

theorem mgetLine_inj : mgetLine s len num = mgetLine s len' num' ↔ len = len' ∧ num = num' := by
  constructor
  · intro h
    have ht := bytesOf_injective (append_cancel_right h)
    simp only [append_assoc] at ht
    have hn : decimal len ++ ofChar ' ' :: decimal num =
        decimal len' ++ ofChar ' ' :: decimal num' :=
      append_cancel_left (append_cancel_left ht)
    obtain ⟨hl, hn⟩ := append_sep_decimal_inj (by decide) hn
    exact ⟨decimal_injective hl, hn⟩
  · rintro ⟨rfl, rfl⟩
    rfl

/-- The request for some keys: the header says how long their list is and how many they are. -/
def framed (s : Settings) (keys : List (List Byte)) : List Byte :=
  if keys = [] then []
  else mgetLine s (keyList keys).length keys.length ++ keyList keys ++ crlf

/-- Every server gets one request for its keys, or nothing if it has none.  The keys of a server
are those that belong to it by the group key if there is one, and by themselves otherwise. -/
def Framed {n : Nat} (s : Settings) (group : Option (Fin n)) (keys : List (KeyAt n))
    (before after : Fin n → Instance) : Prop :=
  ∀ i, (after i).written = (before i).written ++ framed s (sentTo s group keys i)

variable {s : Settings} {net : Net s.serverCount}
  {serverOf : Nat → List Byte → Fin s.serverCount} {groupKey : List Byte}
  {keys : List (List Byte)} {before : Fin s.serverCount → Instance}

theorem length_lt_of_keyTest (h : keyTest s.toClient key = true) : key.length < maxKey := by
  rw [keyTest, s.ascii] at h
  simp only [Bool.and_eq_true, Bool.false_eq_true, if_false, decide_eq_true_eq] at h
  exact h.1.2

theorem keys_of_check (hc : mgetCheck s groupKey keys = .ok ()) :
    keys ≠ [] ∧ ∀ key ∈ keys, keyTest s.toClient key = true := by
  simp only [mgetCheck, refuse] at hc
  split_ifs at hc with _ _ he ht
  exact ⟨he, all_eq_true.1 (by simpa using ht)⟩

theorem short_keyToServerkey (serverOf : Nat → List Byte → Fin s.serverCount)
    (h : ∀ key ∈ keys, keyTest s.toClient key = true) : Short (keyToServerkey s serverOf keys) := by
  intro k hk
  obtain ⟨x, hx, rfl⟩ := mem_mapIdx.1 hk
  exact length_lt_of_keyTest (h _ (getElem_mem hx))

/-- A call that gets past the checks returns.  If the servers accept all of it, the requests are
framed right exactly if the keys are countable. -/
theorem mget_framed_iff (haccept : Accepting s net) (hcheck : mgetCheck s groupKey keys = .ok ()) :
    ∃ rc after, memcachedMgetByKey s net serverOf groupKey keys before = .ok (rc, after) ∧
      (Framed s (masterServerKey s serverOf groupKey) (keyToServerkey s serverOf keys) before after ↔
        Countable (masterServerKey s serverOf groupKey) (keyToServerkey s serverOf keys)) := by
  obtain ⟨hk, ht⟩ := keys_of_check hcheck
  have hs := short_keyToServerkey serverOf ht
  obtain ⟨rc, after, hc, hw⟩ := mget_written serverOf before haccept hcheck hk
  refine ⟨rc, after, hc, fun hf => countable_of_counted (s := s) fun i hn => ?_,
    fun hco i => ?_⟩
  · have h := (hw i).symm.trans (hf i)
    rw [framed, if_neg hn, if_neg hn] at h
    have hl := append_cancel_left h
    simp only [append_assoc] at hl
    exact mgetLine_inj.1 (append_cancel_right hl)
  · rw [hw i, framed]
    split
    · rfl
    · next hn =>
        obtain ⟨hle, hnu⟩ := counted_of_countable hs hco hn
        rw [hle, hnu]

end Framing

def twoServers : Settings where
  noReply := false
  piped := false
  bufferRequests := false
  useUdp := false
  binaryProtocol := false
  verifyKey := true
  serverCount := 2
  supportCas := false
  ns := ⟨[], Namespace.nil_length_lt⟩
  ascii := rfl

def acceptingNet : Net 2 where
  malloc := true
  connect _ _ := .ok ⟨1, 13, false⟩
  writev _ := true
  finish _ := true

theorem acceptingNet_accepting : Accepting twoServers acceptingNet :=
  ⟨rfl, fun _ _ => ⟨_, rfl, rfl⟩, fun _ => rfl, fun _ => rfl⟩

def connections : Fin 2 → Instance := fun _ => ⟨⟨255, 255, false⟩, 0, []⟩

/-- The hash of call number `first` is that of the first server, and all others are of the
second one. -/
def firstServerAt (first : Nat) : Nat → List Byte → Fin 2 :=
  fun x _ => if x = first then 0 else 1

/-- Two keys without a group key are framed right. -/
theorem mget_framed_two_keys :
    ∃ rc after, memcachedMgetByKey twoServers acceptingNet (firstServerAt 1) []
        [bytesOf (lit ['a']), bytesOf (lit ['b'])] connections = .ok (rc, after) ∧
      Framed twoServers none [⟨bytesOf (lit ['a']), 0⟩, ⟨bytesOf (lit ['b']), 1⟩] connections
        after := by
  obtain ⟨rc, after, hc, hif⟩ := @mget_framed_iff twoServers acceptingNet
    (firstServerAt 1) [] [bytesOf (lit ['a']), bytesOf (lit ['b'])] connections
    acceptingNet_accepting rfl
  have hco : Countable (n := 2) none [⟨bytesOf (lit ['a']), 0⟩, ⟨bytesOf (lit ['b']), 1⟩] :=
    ⟨fun _ _ => rfl, by decide⟩
  exact ⟨rc, after, hc, hif.2 hco⟩

/-- The key `k` hashes to the second server, but is sent to the first one by its group key.  The
header says that no key follows, in a list of 4294967295 bytes. -/
theorem mget_misframed_by_group_key :
    ∃ rc after, memcachedMgetByKey twoServers acceptingNet (firstServerAt 0)
        (bytesOf (lit ['g'])) [bytesOf (lit ['k'])] connections = .ok (rc, after) ∧
      (after (0 : Fin 2)).written = mgetLine twoServers 4294967295 0 ++ bytesOf
        (lit ['k']) ++ crlf ∧
      ¬ Framed twoServers (some 0) [⟨bytesOf (lit ['k']), 1⟩] connections after := by
  refine ⟨_, _, rfl, rfl, ?_⟩
  intro hf
  have hl : mgetLine twoServers 4294967295 0 ++ bytesOf (lit ['k']) ++ crlf =
      mgetLine twoServers 1 1 ++ bytesOf (lit ['k']) ++ crlf := hf (0 : Fin 2)
  simp only [append_assoc] at hl
  exact absurd (mgetLine_inj.1 (append_cancel_right hl)) (by decide)

end ArcusClient.Keys
