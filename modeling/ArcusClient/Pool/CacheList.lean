import ArcusClient.Rgroup.Reconciled
import ArcusClient.Pool.MemberCopy

/-!
# Cache lists as strings

A proxy passes the names of the cache servers on as one string with commas.  A name is
`<ip>:<port>-<host>`, in a replicated cluster with `<group>^<role>^` before it.  `decodeCachelist`
takes the string apart as `do_arcus_zk_update_cachelist_by_string` does.  When no system call fails and
the names fit, the client has the servers of the list afterwards, or its groups
(`updateCachelist_ends`).
-/

namespace ArcusClient

open CString Reconcile Outcome List

/-! ## Parsing -/

/-- `ARCUS_MAX_PROXY_FILE_LENGTH`. -/
def arcusMaxProxyFileLength : Nat := 10240

def hostSeps : List CChar := [ofChar ':', ofChar '-']

def throughToken (seps : List CChar) (s : CStr) : CStr :=
  s.takeWhile (fun b => decide (b ∈ seps)) ++ (tokens seps s).head?.getD []

/-- The part of a name that has the address, with the group and the role.  The role
is one letter.  Without a third part the source reads the name again from its
start, which ends where the first part ended.  The group then ends where the first part of
the address does, as both are the same memory. -/
def splitNodename (nodename : CStr) : Option (CStr × Bool × CStr) :=
  match tokens [ofChar '^'] nodename with
  | groupname :: role :: rest =>
    if role = [ofChar 'M'] ∨ role = [ofChar 'S'] then
      let master := decide (role = [ofChar 'M'])
      match rest with
      | hostport :: _ => some (groupname, master, hostport)
      | [] =>
        let start := throughToken [ofChar '^'] nodename
        some ((throughToken hostSeps start).drop (start.length - groupname.length), master, start)
    else none
  | _ => none

/-- The port the source assigns from a number: its low sixteen bits.  A number out of the range of
`long` is read as the nearest one in it. -/
def portOf (word : CStr) : UInt16 :=
  UInt16.ofNat (max (-2 ^ 63) (min (2 ^ 63 - 1) (atoi word)) % 65536).toNat

/-- The end of `do_add_server_to_cachelist`.  An address without a port leaves the port
of the entry as it is in memory. -/
def addHostport (groupname : CStr) (master : Bool) (port : UInt16) (hostport : CStr) :
    Option ServerInfo × UInt16 :=
  match tokens hostSeps hostport with
  | [] => (none, port)
  | hostname :: rest =>
    let port := (rest.head?.map portOf).getD port
    if port = 0 then (none, port) else (some ⟨groupname, hostname, port, master, false⟩, port)

/-- `do_add_server_to_cachelist`, for an entry whose port has the given value before.
The result has the value after, for the next name if this one is not valid. -/
def doAddServerToCachelist (isReplEnabled : Bool) (port : UInt16) (nodename : CStr) :
    Option ServerInfo × UInt16 :=
  if isReplEnabled then
    match splitNodename nodename with
    | none => (none, port)
    | some (groupname, master, hostport) => addHostport groupname master port hostport
  else addHostport [] false port nodename

/-- The loop over the names.  `memory` is what the array of entries has in its ports
at first. -/
def addServers (isReplEnabled : Bool) (memory : Nat → UInt16) :
    (servercount : Nat) → (port : UInt16) → List CStr → List ServerInfo
  | _, _, [] => []
  | servercount, port, nodename :: rest =>
    match doAddServerToCachelist isReplEnabled port nodename with
    | (none, port) => addServers isReplEnabled memory servercount port rest
    | (some info, _) =>
      info :: addServers isReplEnabled memory (servercount + 1) (memory (servercount + 1)) rest

def serverlistString (strings : List CStr) : CStr := [ofChar ','].intercalate strings

/-- The entries read off the string, for `size` names. -/
def decodeCachelist (isReplEnabled : Bool) (memory : Nat → UInt16) (serverlist : CStr) (size : Nat) :
    List ServerInfo :=
  if 0 < size then addServers isReplEnabled memory 0 (memory 0) (tokens [ofChar ','] serverlist)
  else []

variable {i : ServerInfo}

theorem exist_of_addHostport {groupname hostport : CStr}
    (h : (addHostport groupname master port hostport).1 = some i) : i.exist = false := by
  rw [addHostport] at h
  split at h
  · cases h
  · simp only at h
    split at h
    · cases h
    · cases h
      rfl

variable {isReplEnabled : Bool}

theorem exist_of_doAddServerToCachelist
    (h : (doAddServerToCachelist isReplEnabled port nodename).1 = some i) : i.exist = false := by
  rw [doAddServerToCachelist] at h
  split at h
  · split at h
    · cases h
    · exact exist_of_addHostport h
  · exact exist_of_addHostport h

theorem exist_of_mem_addServers {memory : Nat → UInt16} :
    ∀ {strings : List CStr} {servercount : Nat} {port : UInt16},
    i ∈ addServers isReplEnabled memory servercount port strings → i.exist = false
  | nodename :: rest, servercount, port, hi => by
    rw [addServers] at hi
    split at hi
    · exact exist_of_mem_addServers hi
    · rename_i info _ ha
      rcases mem_cons.1 hi with rfl | hi
      · exact exist_of_doAddServerToCachelist (congrArg Prod.fst ha)
      · exact exist_of_mem_addServers hi

theorem exist_of_mem_decodeCachelist {memory : Nat → UInt16}
    (hi : i ∈ decodeCachelist isReplEnabled memory serverlist size) : i.exist = false := by
  rw [decodeCachelist] at hi
  split at hi
  · exact exist_of_mem_addServers hi
  · cases hi

/-! ## Applying a list of servers -/

section Servers

variable {mc : Memcached} {serverinfo : List ServerInfo}

theorem pendingInfo_of_fresh (h : ∀ i ∈ serverinfo, i.exist = false) :
    pendingInfo serverinfo = serverinfo.map ServerInfo.key := by
  rw [pendingInfo, pending, filter_eq_self.2]
  intro i hi
  simp [h i hi]

theorem serverPushWithServerinfo_ends (P : Platform) (hr : env.realloc = true)
    (hu : mc.flags.useUdp = false) (hv : allValid (pendingInfo serverinfo) = true) :
    Ends (fun _ => True) (fun r => r.2.flags = mc.flags ∧ (r.2.servers.map Server.key).Perm
        (mc.servers.map Server.key ++ pendingInfo serverinfo))
      (serverPushWithServerinfo P env mc serverinfo) := by
  rw [serverPushWithServerinfo]
  cases serverinfo with
  | nil => exact ⟨rfl, by simp [pending]⟩
  | cons entry rest =>
    rw [if_neg (by simp), if_neg (by simp [hu]), if_neg (by simp [hr]), pushServerinfo_eq,
      if_pos hv, appendServers_eq]
    refine (runDistribution_ends P env _).imp (fun _ _ => trivial) fun r hd => ?_
    refine ⟨hd.flags, hd.keys_perm.trans (Perm.of_eq ?_)⟩
    rw [map_key_setCount, map_append, map_key_acceptAddrs hv]

theorem updateServerlist_ends (P : Platform) (hr : env.realloc = true)
    (hu : mc.flags.useUdp = false) (hf : ∀ i ∈ serverinfo, i.exist = false)
    (hv : ∀ i ∈ serverinfo, isValidServername i.hostname = true) : Ends (fun _ => True)
      (fun r => r.2.2.flags = mc.flags ∧
        (r.2.2.servers.map Server.key).Perm (serverinfo.map ServerInfo.key))
      (doMemcachedUpdateServerlist P env mc serverinfo) := by
  rw [doMemcachedUpdateServerlist]
  by_cases hn : serverinfo = []
  · rw [if_pos (by simp [hn]), hn]
    by_cases hm : mc.servers = []
    · rw [if_pos (by simp [hm])]
      exact ⟨rfl, by rw [hm]; rfl⟩
    · rw [if_neg (by simp [hm]), ends_map]
      refine (runDistribution_ends P env _).imp (fun _ _ => trivial) fun r hd => ?_
      exact ⟨hd.flags, hd.keys_perm⟩
  · rw [if_neg (by simp [hn])]
    obtain ⟨hal, hall, hp, hfo⟩ := matchServers_spec mc.servers serverinfo
    have hper := survivors_append_diff_perm Server.key mc.servers (pendingInfo serverinfo)
    rw [← hal, ← hp, pendingInfo_of_fresh hf] at hper
    rw [← hal] at hfo
    generalize matchServers mc.servers serverinfo = matched at *
    obtain ⟨marked, serverinfo', found⟩ := matched
    obtain ⟨mc₁, he, hfl, hk⟩ := serverPrune_spec hall
    simp only at hal hall hp hfo hper ⊢
    have hl := hper.length_eq
    rw [length_append, length_map, length_map] at hl
    by_cases hc : 0 < serverinfo.length - found
    · rw [if_pos hc, he, ends_map]
      have hv' : allValid (pendingInfo serverinfo') = true := by
        rw [allValid, all_eq_true]
        intro a ha
        rw [hp, pendingInfo_of_fresh hf] at ha
        obtain ⟨i, hi, rfl⟩ := mem_map.1 (diff_subset _ _ ha)
        exact hv i hi
      refine (serverPushWithServerinfo_ends P hr (hfl ▸ hu) hv').imp
        (fun _ _ => trivial) fun r => ?_
      rintro ⟨hrf, hs⟩
      rw [hk] at hs
      exact ⟨hrf.trans hfl, hs.trans hper⟩
    · -- every entry has found its server, so nothing joins
      have hno : pendingInfo serverinfo' = [] := length_eq_zero_iff.1 (by omega)
      rw [hno, append_nil, ← hk] at hper
      rw [if_neg hc]
      cases hde : marked.any Prod.snd with
      | true =>
        rw [hde, if_pos rfl] at he
        rw [if_pos rfl, he, ends_map]
        refine (runDistribution_ends P env _).imp (fun _ _ => trivial) fun r hd => ?_
        exact ⟨hd.flags.trans hfl, hd.keys_perm.trans hper⟩
      | false =>
        rw [hde] at he
        subst he
        exact ⟨rfl, hper⟩

end Servers

/-! ## Applying a list -/

/-- The hosts of the client are those of the list.  In a replicated cluster every group
with a valid description is there with its servers, and every group is in the
list. -/
def HasList (mc : Memcached) (serverinfo : List ServerInfo) : Prop :=
  if mc.flags.replEnabled then
    (∀ i ∈ (rgroupInfoCreate serverinfo).1, i.valid = true →
      ∃ g ∈ mc.rgroups, g.groupname = i.groupname ∧
        g.keys.head? = i.master.map ServerInfo.key ∧ g.keys.Perm i.keys) ∧
    ∀ g ∈ mc.rgroups, ∃ i ∈ (rgroupInfoCreate serverinfo).1, i.groupname = g.groupname
  else (mc.servers.map Server.key).Perm (serverinfo.map ServerInfo.key)

/-- The list can be applied: the memory is granted and the names fit.  For groups see
`Applicable`. -/
def CanApply (env : Env) (mc : Memcached) (serverinfo : List ServerInfo) : Prop :=
  if mc.flags.replEnabled then env.GrantsGroups ∧ Applicable mc serverinfo
  else env.realloc = true ∧ mc.flags.useUdp = false ∧
    ∀ i ∈ serverinfo, isValidServername i.hostname = true

def DistinctGroups (mc : Memcached) : Prop := mc.flags.replEnabled = true → mc.groupnames.Nodup

theorem Reconciled.hasList (h : Reconciled mc serverinfo mc') (hr : mc'.flags.replEnabled = true) :
    HasList mc' serverinfo := by
  rw [HasList, if_pos hr]
  constructor
  · intro i hi hv
    obtain ⟨g, hg, hn⟩ := mem_map.1 ((h.names i.groupname).2 (.inl ⟨i, hi, hv, rfl⟩))
    exact ⟨g, hg, hn, h.updated i hi hv g hg hn⟩
  · intro g hg
    rcases (h.names g.groupname).1 (mem_map_of_mem hg) with
      ⟨i, hi, -, hn⟩ | ⟨-, i, hi, -, hn⟩
    · exact ⟨i, hi, hn⟩
    · exact ⟨i, hi, hn⟩

/-- `memcached_update_cachelist`, with a list that can be applied. -/
theorem updateCachelist_ends (P : Platform) (hg : DistinctGroups mc)
    (hf : ∀ i ∈ serverinfo, i.exist = false) (ha : CanApply env mc serverinfo) :
    Ends (fun _ => True)
      (fun r => r.2.2.flags = mc.flags ∧ DistinctGroups r.2.2 ∧ HasList r.2.2 serverinfo)
      (memcachedUpdateCachelist P env mc serverinfo) := by
  rw [memcachedUpdateCachelist]
  rw [CanApply] at ha
  cases hr : mc.flags.replEnabled with
  | true =>
    rw [if_pos hr] at ha
    have hn := hg hr
    cases hc : doMemcachedUpdateRgrouplist P env mc serverinfo with
    | error e => trivial
    | ok r =>
      obtain ⟨hfl, ⟨hd, -⟩ | hu⟩ :=
        (updateRgrouplist_ends P env mc serverinfo hn).of_eq_ok hc
      · exact absurd ha.1 hd
      · exact ⟨hfl, fun _ => nodup_groupnames_of_call hn hc,
          (hu.reconciled hn ha.2).hasList (hfl ▸ hr)⟩
  | false =>
    rw [if_neg (by simp [hr])] at ha
    obtain ⟨hrea, hud, hv⟩ := ha
    refine (updateServerlist_ends P hrea hud hf hv).imp (fun _ h => h) ?_
    rintro ⟨changed, rc, mc'⟩ ⟨hfl, hp⟩
    have hr' : ¬mc'.flags.replEnabled = true := by
      rw [hfl, hr]
      simp
    refine ⟨hfl, fun h => absurd h hr', ?_⟩
    rw [HasList, if_neg hr']
    exact hp

end ArcusClient
