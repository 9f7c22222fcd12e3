import Mathlib.Data.List.TakeWhile
import ArcusClient.Hosts.ServerList

/-!
# What the calls do to the array

One lemma for each loop and each step of the calls that change the server list.  Arrays are compared
by `Server.core`, which leaves the recorded count out.  The comparison with a published list is an
instance of `Reconcile` (`matchServers_spec`).
-/

namespace ArcusClient

open CString Reconcile List

/-! ## Entries without their count -/

def Server.core (s : Server) : Server := { s with numberOfHosts := 0 }

@[simp] theorem Server.core_key (s : Server) : s.core.key = s.key := rfl

@[simp] theorem Server.core_weight (s : Server) : s.core.weight = s.weight := rfl

@[simp] theorem Server.core_nextRetry (s : Server) : s.core.nextRetry = s.nextRetry := rfl

theorem map_eq_of_map_core_eq {β : Type} {f : Server → β} (hf : ∀ s, f s.core = f s)
    {l l' : List Server} (h : l.map Server.core = l'.map Server.core) : l.map f = l'.map f := by
  have hc : f = f ∘ Server.core := funext fun s => (hf s).symm
  rw [hc, ← map_map, h, map_map]

@[simp] theorem map_core_setCount : ∀ l : List Server,
    (setCount l).map Server.core = l.map Server.core
  | [] => rfl
  | _ :: _ => rfl

@[simp] theorem map_core_serverPrune (mc : Memcached) (marked : Marked Server) :
    (serverPrune mc marked).servers.map Server.core = marked.alive.map Server.core := by
  simp only [serverPrune, map_map]
  rfl

theorem sortHosts_perm (P : Platform) (mc : Memcached) :
    ((sortHosts P mc).servers.map Server.core).Perm (mc.servers.map Server.core) := by
  have hp := (P.qsort.perm compareServers mc.servers).map Server.core
  rw [sortHosts]
  cases hr : P.qsort.run compareServers mc.servers with
  | nil => exact Perm.refl _
  | cons s rest =>
    rw [hr] at hp
    exact hp

/-- What `compare_servers` orders by. -/
def Addr.sortKey (a : Addr) : CStr ×ₗ Nat := toLex (a.hostname, a.port.toNat)

theorem Addr.sortKey_injective : Function.Injective Addr.sortKey := by
  rintro ⟨hostname, port⟩ ⟨hostname', port'⟩ h
  obtain ⟨hn, hp⟩ := Prod.mk.inj (toLex.injective h)
  rw [Addr.mk.injEq]
  exact ⟨hn, UInt16.toNat_inj.1 hp⟩

theorem compareServers_byKey : CmpByKey compareServers fun s => s.key.sortKey := by
  intro a b
  have hl : a.key.sortKey ≤ b.key.sortKey ↔ a.hostname.1 < b.hostname.1 ∨
      a.hostname.1 = b.hostname.1 ∧ a.port.toNat ≤ b.port.toNat := Prod.Lex.toLex_le_toLex
  rw [hl, ← strcmp_eq_zero_iff a.hostname.1, ← strcmp_neg_iff a.hostname.1, compareServers]
  by_cases hz : strcmp a.hostname b.hostname = 0
  · omega
  · omega

/-- The servers are in the order of `sort_hosts`. -/
def InSortOrder (servers : List Server) : Prop :=
  servers.Pairwise fun a b => compareServers a b ≤ 0

/-- Sorting an array that is in order leaves its addresses in their places. -/
theorem map_key_sortHosts (P : Platform) (h : InSortOrder mc.servers) :
    (sortHosts P mc).servers.map Server.key = mc.servers.map Server.key := by
  have hk := P.qsort.map_run_of_sorted compareServers_byKey h
  have hr : (P.qsort.run compareServers mc.servers).map Server.key
      = mc.servers.map Server.key := by
    refine map_injective_iff.2 Addr.sortKey_injective ?_
    rw [map_map, map_map]
    exact hk
  rw [← hr, sortHosts]
  cases hl : P.qsort.run compareServers mc.servers with
  | nil =>
    rw [hl] at hr
    exact hr.symm
  | cons s rest => rfl

/-! ## Appending -/

def appendServers (mc : Memcached) (ss : List Server) : Memcached := ss.foldl appendServer mc

theorem appendServers_eq : ∀ (ss : List Server) (mc : Memcached), appendServers mc ss = { mc with
      servers := mc.servers ++ ss
      ketama.weighted := mc.ketama.weighted || ss.any fun s => decide (1 < s.weight) }
  | [], mc => by simp [appendServers]
  | s :: ss, mc => by
    have ih := appendServers_eq ss (appendServer mc s)
    rw [appendServers] at ih ⊢
    rw [foldl_cons, ih]
    simp [appendServer, Bool.or_assoc]

/-- The servers a push makes from the entries before the first of a wrong type. -/
def acceptServers (flags : Flags) (list : List Server) : List Server :=
  (list.takeWhile fun s => !protocolMismatch flags s.type).map
    fun s => serverInit s.hostname s.port s.weight s.type

def allAccepted (flags : Flags) (list : List Server) : Bool :=
  list.all fun s => !protocolMismatch flags s.type

theorem pushServers_eq : ∀ (list : List Server) (mc : Memcached), pushServers mc list =
      (if allAccepted mc.flags list then .success else .invalidHostProtocol,
        appendServers mc (acceptServers mc.flags list))
  | [], mc => rfl
  | s :: list, mc => by
    rw [pushServers]
    cases hs : protocolMismatch mc.flags s.type with
    | true => simp [allAccepted, acceptServers, hs, appendServers]
    | false =>
      have ih := pushServers_eq list
        (appendServer mc (serverInit s.hostname s.port s.weight s.type))
      have hf : (appendServer mc (serverInit s.hostname s.port s.weight s.type)).flags
        = mc.flags := rfl
      rw [hf] at ih
      simp [ih, allAccepted, acceptServers, hs, appendServers]

theorem map_key_acceptServers (h : allAccepted flags list = true) :
    (acceptServers flags list).map Server.key = list.map Server.key := by
  have ha : list.takeWhile (fun s => !protocolMismatch flags s.type) = list :=
    takeWhile_eq_self_iff.2 (all_eq_true.1 h)
  rw [acceptServers, ha, map_map]
  rfl

def addrServer (hostname : Hostname) (port : UInt16) : Server :=
  serverInit hostname port 0 (infoType port)

/-- The servers a push makes from the addresses before the first that is too
long. -/
def acceptAddrs : List Addr → List Server
  | [] => []
  | a :: rest =>
    if h : isValidServername a.hostname = true then addrServer ⟨a.hostname, h⟩ a.port :: acceptAddrs rest else []

abbrev pendingInfo (serverinfo : List ServerInfo) : List Addr :=
  pending ServerInfo.exist ServerInfo.key serverinfo

def allValid (addrs : List Addr) : Bool := addrs.all fun a => isValidServername a.hostname

theorem pushServerinfo_eq : ∀ (serverinfo : List ServerInfo) (mc : Memcached),
    pushServerinfo mc serverinfo =
      (if allValid (pendingInfo serverinfo) then .success else .invalidArguments,
        appendServers mc (acceptAddrs (pendingInfo serverinfo)))
  | [], mc => rfl
  | info :: rest, mc => by
    rw [pushServerinfo]
    cases he : info.exist with
    | true => simp [pushServerinfo_eq rest mc, pending_cons_of_taken he]
    | false =>
      rw [pendingInfo, pending_cons_of_free he]
      by_cases hv : isValidServername info.hostname = true
      · have hk : isValidServername info.key.hostname = true := hv
        rw [acceptAddrs]
        simp [hv, pushServerinfo_eq rest, allValid, ServerInfo.key, addrServer, appendServers]
      · have hk : ¬isValidServername info.key.hostname = true := hv
        rw [acceptAddrs]
        simp [hv, hk, allValid, appendServers]

theorem map_key_acceptAddrs : ∀ {addrs : List Addr}, allValid addrs = true →
    (acceptAddrs addrs).map Server.key = addrs
  | [], _ => rfl
  | a :: rest, h => by
    obtain ⟨ha, hr⟩ : isValidServername a.hostname = true ∧ allValid rest = true := by
      simpa [allValid] using h
    rw [acceptAddrs, dif_pos ha, map_cons, map_key_acceptAddrs hr]
    rfl

/-! ## Matching -/

theorem findServerinfo_spec (s : Server) (serverinfo : List ServerInfo) :
    (s.key ∉ pendingInfo serverinfo ∧ findServerinfo s serverinfo = none) ∨
      ∃ serverinfo', s.key ∈ pendingInfo serverinfo ∧
        findServerinfo s serverinfo = some serverinfo' ∧
        pendingInfo serverinfo' = (pendingInfo serverinfo).erase s.key :=
  claim_spec (fun _ => rfl) s.key serverinfo

theorem matchServers_spec : ∀ (servers : List Server) (serverinfo : List ServerInfo),
    (matchServers servers serverinfo).1.alive
        = survivors Server.key servers (pendingInfo serverinfo) ∧
      (matchServers servers serverinfo).1.map Prod.fst = servers ∧
      pendingInfo (matchServers servers serverinfo).2.1
        = (pendingInfo serverinfo).diff (servers.map Server.key) ∧
      (matchServers servers serverinfo).2.2
        = (survivors Server.key servers (pendingInfo serverinfo)).length
  | [], serverinfo => ⟨rfl, rfl, rfl, rfl⟩
  | s :: servers, serverinfo => by
    rw [matchServers]
    rcases findServerinfo_spec s serverinfo with ⟨hs, hn⟩ | ⟨serverinfo', hs, hso, hp⟩
    · obtain ⟨ha, hf, hr, hfo⟩ := matchServers_spec servers serverinfo
      rw [survivors_cons_of_not_mem hs, map_cons, diff_cons, erase_of_not_mem hs]
      simp only [hn]
      refine ⟨?_, by simp [hf], hr, hfo⟩
      simpa [Marked.alive] using ha
    · obtain ⟨ha, hf, hr, hfo⟩ := matchServers_spec servers serverinfo'
      rw [survivors_cons_of_mem hs, map_cons, diff_cons, ← hp]
      simp only [hso]
      refine ⟨?_, by simp [hf], hr, ?_⟩
      · rw [hp] at ha ⊢
        simpa [Marked.alive] using ha
      · rw [length_cons, ← hfo]

theorem length_matchServers : ∀ (servers : List Server) (serverinfo : List ServerInfo),
    (matchServers servers serverinfo).2.1.length = serverinfo.length
  | [], _ => rfl
  | s :: servers, serverinfo => by
    rw [matchServers]
    cases hf : findServerinfo s serverinfo with
    | none => exact length_matchServers servers serverinfo
    | some serverinfo' =>
      exact (length_matchServers servers serverinfo').trans (length_of_claim_eq_some hf)

theorem Marked.any_dead_eq_false_iff {α : Type} (marked : Marked α) :
    marked.any Prod.snd = false ↔ marked.alive = marked.map Prod.fst := by
  rw [Marked.alive]
  induction marked with
  | nil => simp
  | cons e marked ih =>
    obtain ⟨a, dead⟩ := e
    cases dead with
    | false => simpa using ih
    | true =>
      have hl : ((marked.filter fun e => !e.2).map Prod.fst).length ≤ marked.length := by
        simpa using length_filter_le _ marked
      simp only [any_cons, Bool.true_or, Bool.true_eq_false, false_iff]
      intro he
      have := congrArg length he
      simp at this hl
      omega

end ArcusClient
