import ArcusClient.Lib.Runs

/-!
# The ZooKeeper manager

The watchers leave requests for the thread of a client: to fetch the cache list, or to connect again.
The thread takes all requests at once and clears them, so it has to put back what it could not do, or
to remember it in its local flags.  A watcher is one step here, and the thread takes one step for each
part under the lock and for each call of the ZooKeeper library.  `requested` counts how often an update
was asked for, and `served` how many of these requests were there when the last successful
`zoo_wget_children` was called.  The program has neither.

While an update is owed, the thread finds a flag that tells it so at the head of its loop, and a flag
that keeps it from waiting without a limit (`list_update_not_lost`).
-/

namespace ArcusClient

/-- `ARCUS_ZK_RETRY_RECONNECT_DELAY_IN_MS`. -/
def arcusZkRetryReconnectDelayInMs : Nat := 1000

/-- `arcus_zk_request_st`. -/
structure ZkRequest where
  updateCacheList : Bool
  reconnectProcess : Bool
  deriving DecidableEq

inductive ManagerPc where
  /-- It has not set `running`. -/
  | starting
  /-- It is at the test of its loop. -/
  | loopHead
  /-- It waits for 100 ms, or a signal. -/
  | timedWait
  /-- It waits for a signal. -/
  | untimedWait
  /-- It has taken the requests and released the lock. -/
  | taken (zkreq : ZkRequest)
  /-- It is in `do_arcus_zk_process_reconnect`, before `do_arcus_zk_close`. -/
  | closing
  /-- It is in `do_arcus_zk_connect`, before `zookeeper_init`. -/
  | connecting
  /-- It has a new handle, which is not connected and checked. -/
  | validating
  | reconnected
  | reconnectFailed
  /-- It is in `zoo_wget_children`, called after so many requests. -/
  | fetching (requested : Nat)
  | fetchFailed
  /-- It has put the request back, and goes on to set `zk_retry`. -/
  | retrying
  | stopped
  deriving DecidableEq

/-- `zk_mgr` with the local variables of the thread. -/
structure ManagerSt where
  request : ZkRequest
  notification : Bool
  reqstop : Bool
  running : Bool
  /-- `zk.handle` is not null. -/
  handle : Bool
  pc : ManagerPc
  zkRetry : Bool
  reconnectRetry : Bool
  /-- `elapsed_time` in ms. -/
  elapsedTime : Nat
  requested : Nat
  served : Nat
  deriving DecidableEq

inductive WatchType where
  | child
  | notWatching
  | session
  | other
  deriving DecidableEq

inductive SessionState where
  | connected
  | connecting
  | associating
  | authFailed
  | expired
  deriving DecidableEq

namespace ManagerSt

/-- The thread has been created, and nothing is requested. -/
def init : ManagerSt where
  request := ⟨false, false⟩
  notification := false
  reqstop := false
  running := false
  handle := true
  pc := .starting
  zkRetry := false
  reconnectRetry := false
  elapsedTime := 0
  requested := 0
  served := 0

/-! ## The watchers -/

/-- `request.update_cache_list= true`. -/
def requestUpdate (s : ManagerSt) : ManagerSt :=
  { s with
    request := { s.request with updateCacheList := true }
    requested := s.requested + 1 }

/-- `request.reconnect_process= true`. -/
def requestReconnect (s : ManagerSt) : ManagerSt :=
  { s with request := { s.request with reconnectProcess := true } }

/-- `do_arcus_zk_manager_wakeup`. -/
def wakeup (s : ManagerSt) : ManagerSt :=
  if s.notification then s else { s with notification := true }

/-- `do_arcus_zk_watcher_cachelist`, where `handle` is what the watcher has read.  An event that it
drops for lack of a handle counts as a request. -/
def watcherCachelist (s : ManagerSt) (type : WatchType) (handle : Bool) : ManagerSt :=
  match type with
  | .child | .notWatching =>
    if handle then s.requestUpdate.wakeup else { s with requested := s.requested + 1 }
  | .session | .other => s

/-- `do_arcus_zk_watcher_global`, apart from what it does for `do_arcus_zk_connect`. -/
def watcherGlobal (s : ManagerSt) (state : SessionState) (handle : Bool) : ManagerSt :=
  match state with
  | .authFailed | .expired =>
    if handle && s.running then s.requestReconnect.wakeup else s
  | .connected | .connecting | .associating => s

/-! ## The thread -/

def take (s : ManagerSt) : ManagerSt :=
  { s with notification := false, request := ⟨false, false⟩, pc := .taken s.request }

/-- The inner loop of `arcus_zk_manager_thread_main`, until the thread waits or goes on. -/
def await (s : ManagerSt) : ManagerSt :=
  if s.notification || s.reqstop then s.take
  else if s.zkRetry || s.reconnectRetry then { s with pc := .timedWait }
  else { s with pc := .untimedWait }

def wake (s : ManagerSt) : ManagerSt :=
  { s with
    zkRetry := false
    elapsedTime := if s.reconnectRetry then s.elapsedTime + 100 else s.elapsedTime }.take

def stop (s : ManagerSt) : ManagerSt := { s with running := false, pc := .stopped }

/-- The rest of the loop, up to the call of the ZooKeeper library. -/
def process (s : ManagerSt) (zkreq : ZkRequest) : ManagerSt :=
  if s.reqstop then s.stop
  else if zkreq.reconnectProcess || s.reconnectRetry then
    if s.reconnectRetry && s.elapsedTime < arcusZkRetryReconnectDelayInMs then
      { s with pc := .loopHead }
    else
      { s with
        reconnectRetry := false
        elapsedTime := if s.reconnectRetry then 0 else s.elapsedTime
        pc := .closing }
  else if zkreq.updateCacheList then { s with pc := .fetching s.requested }
  else { s with pc := .loopHead }

/-- One step of the thread.  `ok` tells how a call of the library ends. -/
def manager (s : ManagerSt) (ok : Bool) : ManagerSt :=
  match s.pc with
  | .starting => { s with running := true, pc := .loopHead }
  | .loopHead => if s.reqstop then s.stop else s.await
  | .timedWait => s.wake
  | .untimedWait => s.await
  | .taken zkreq => s.process zkreq
  | .closing =>
    { s with handle := false, pc := if !s.handle || ok then .connecting else .reconnectFailed }
  | .connecting =>
    if ok then { s with handle := true, pc := .validating } else { s with pc := .reconnectFailed }
  | .validating =>
    if ok then { s with pc := .reconnected } else { s with handle := false, pc := .reconnectFailed }
  | .reconnected => { s.requestUpdate with pc := .retrying }
  | .reconnectFailed => { s with reconnectRetry := true, pc := .loopHead }
  | .fetching requested =>
    if ok then { s with served := requested, pc := .loopHead } else { s with pc := .fetchFailed }
  | .fetchFailed => { s.requestUpdate with pc := .retrying }
  | .retrying => { s with zkRetry := true, pc := .loopHead }
  | .stopped => s

inductive Event where
  /-- The thread takes a step.  It may also leave a wait for no reason. -/
  | manager (ok : Bool)
  | watcherCachelist (type : WatchType) (handle : Bool)
  | watcherGlobal (state : SessionState) (handle : Bool)
  /-- The first request, by `do_arcus_zk_manager_start`. -/
  | start
  /-- The two parts of `do_arcus_zk_manager_stop`. -/
  | reqstop
  | wakeup

/-- The state after an event, if it can happen.  A watcher that finds a handle may have read it
earlier. -/
def next (s : ManagerSt) : Event → Option ManagerSt
  | .manager ok => some (s.manager ok)
  | .watcherCachelist type handle =>
    if handle || !s.handle then some (s.watcherCachelist type handle) else none
  | .watcherGlobal state handle => some (s.watcherGlobal state handle)
  | .start => some s.requestUpdate.wakeup
  | .reqstop => some { s with reqstop := true }
  | .wakeup => some s.wakeup

def Step (s s' : ManagerSt) : Prop := ∃ e, s.next e = some s'

/-! ## What the steps keep -/

/-- Some request for the list has not been followed by a successful `zoo_wget_children`. -/
def Owed (s : ManagerSt) : Prop := s.served < s.requested

instance decidableOwed (s : ManagerSt) : Decidable s.Owed := inferInstanceAs (Decidable (_ < _))

def HasRequest (s : ManagerSt) : Prop :=
  s.request.updateCacheList = true ∨ s.request.reconnectProcess = true

/-- What is known where the thread is, about updates that are owed and about the handle.  While the
thread connects again nothing needs to be known, as it comes back with a flag in any case. -/
def Kept (s : ManagerSt) : Prop :=
  match s.pc with
  | .starting | .loopHead | .timedWait =>
    (s.Owed → s.HasRequest ∨ s.reconnectRetry = true) ∧ (s.handle = false → s.reconnectRetry = true)
  | .untimedWait =>
    (s.Owed → s.HasRequest) ∧ s.handle = true ∧ s.zkRetry = false ∧ s.reconnectRetry = false
  | .taken zkreq =>
    (s.Owed → s.HasRequest ∨ s.reconnectRetry = true ∨ zkreq.updateCacheList = true ∨
      zkreq.reconnectProcess = true) ∧ (s.handle = false → s.reconnectRetry = true)
  | .fetching requested => (requested < s.requested → s.HasRequest) ∧ s.handle = true
  | .validating | .reconnected | .fetchFailed => s.handle = true
  | .retrying => s.HasRequest ∧ s.handle = true
  | .closing | .connecting | .reconnectFailed | .stopped => True

/-- The invariant.  A request is there only with a flag that keeps the thread awake, except where the
thread goes on to set this flag. -/
structure Inv (s : ManagerSt) : Prop where
  awake : s.pc ≠ .retrying → s.HasRequest → s.notification = true ∨ s.zkRetry = true
  kept : s.Kept

variable {s : ManagerSt}

theorem not_hasRequest_take (s : ManagerSt) : ¬s.take.HasRequest := by
  simp [HasRequest, take]

/-- The thread takes the requests.  Nothing is left behind, and what was there is in its snapshot. -/
theorem inv_take (ho : s.Owed → s.HasRequest ∨ s.reconnectRetry = true)
    (hh : s.handle = false → s.reconnectRetry = true) : s.take.Inv := by
  refine ⟨fun _ hr => absurd hr s.not_hasRequest_take, fun how => ?_, hh⟩
  rcases ho how with hr | hre
  · exact .inr (.inr hr)
  · exact .inr (.inl hre)

theorem inv_await (hp : s.pc ≠ .retrying) (h : s.Inv)
    (ho : s.Owed → s.HasRequest ∨ s.reconnectRetry = true)
    (hh : s.handle = false → s.reconnectRetry = true) : s.await.Inv := by
  rw [await]
  split
  · exact inv_take ho hh
  split
  · exact ⟨fun _ => h.awake hp, ho, hh⟩
  · rename_i hn
    simp only [Bool.or_eq_true, not_or, Bool.not_eq_true] at hn
    refine ⟨fun _ => h.awake hp, fun how => ?_, ?_, hn.1, hn.2⟩
    · refine (ho how).resolve_right ?_
      simp [hn.2]
    · rw [← Bool.not_eq_false]
      intro hg
      simp [hh hg] at hn

/-- The request is dropped only for a reconnect, or for the call of `zoo_wget_children`. -/
theorem inv_process (hp : s.pc = .taken zkreq) (h : s.Inv) : (s.process zkreq).Inv := by
  obtain ⟨ha, hk⟩ := h
  simp only [Kept, hp] at hk
  obtain ⟨ho, hh⟩ := hk
  have ha := ha (by simp [hp])
  rw [process]
  split
  · exact ⟨fun _ => ha, trivial⟩
  split
  · split
    · -- the thread backs off, with the flag still set
      rename_i hb
      have hr : s.reconnectRetry = true := by
        rw [Bool.and_eq_true] at hb
        exact hb.1
      exact ⟨fun _ => ha, fun _ => .inr hr, fun _ => hr⟩
    · exact ⟨fun _ => ha, trivial⟩
  · rename_i hn
    have ht : s.handle = true := by
      rw [← Bool.not_eq_false]
      intro hg
      simp [hh hg] at hn
    split
    · exact ⟨fun _ => ha, fun hl => absurd hl (lt_irrefl _), ht⟩
    · rename_i hli
      refine ⟨fun _ => ha, fun howe => ?_, hh⟩
      rcases ho howe with hreq | hr | hreq | hreq
      · exact .inl hreq
      · exact .inr hr
      · exact absurd hreq hli
      · simp [hreq] at hn

theorem Inv.manager (h : s.Inv) (ok : Bool) : (s.manager ok).Inv := by
  have hk := h.kept
  have ha := h.awake
  rw [Kept] at hk
  rw [ManagerSt.manager]
  cases hp : s.pc with
  | starting =>
    simp only [hp] at hk
    exact ⟨fun _ => ha (by simp [hp]), hk⟩
  | loopHead =>
    simp only [hp] at hk
    dsimp only
    split
    · exact ⟨fun _ => ha (by simp [hp]), trivial⟩
    · exact inv_await (by simp [hp]) h hk.1 hk.2
  | timedWait =>
    simp only [hp] at hk
    exact inv_take hk.1 hk.2
  | untimedWait =>
    simp only [hp] at hk
    refine inv_await (by simp [hp]) h (fun ho => .inl (hk.1 ho)) fun hg => ?_
    rw [hk.2.1] at hg
    cases hg
  | taken zkreq => exact inv_process hp h
  | closing =>
    have ha := ha (by simp [hp])
    dsimp only
    split
    · exact ⟨fun _ => ha, trivial⟩
    · exact ⟨fun _ => ha, trivial⟩
  | connecting =>
    have ha := ha (by simp [hp])
    cases ok with
    | true => exact ⟨fun _ => ha, rfl⟩
    | false => exact ⟨fun _ => ha, trivial⟩
  | validating =>
    simp only [hp] at hk
    have ha := ha (by simp [hp])
    cases ok with
    | true => exact ⟨fun _ => ha, hk⟩
    | false => exact ⟨fun _ => ha, trivial⟩
  | reconnected | fetchFailed =>
    simp only [hp] at hk
    exact ⟨fun hn => absurd rfl hn, .inl rfl, hk⟩
  | reconnectFailed =>
    exact ⟨fun _ => ha (by simp [hp]), fun _ => .inr rfl, fun _ => rfl⟩
  | fetching requested =>
    simp only [hp] at hk
    have ha := ha (by simp [hp])
    cases ok with
    | true =>
      refine ⟨fun _ => ha, fun ho => .inl (hk.1 ho), fun hg => ?_⟩
      simp [hk.2] at hg
    | false => exact ⟨fun _ => ha, hk.2⟩
  | retrying =>
    simp only [hp] at hk
    refine ⟨fun _ _ => .inr rfl, fun _ => .inl hk.1, fun hg => ?_⟩
    simp [hk.2] at hg
  | stopped => exact h

theorem init_inv : init.Inv where
  awake _ hreq := by simp [HasRequest, init] at hreq
  kept := ⟨fun ho => absurd ho (lt_irrefl _), fun hg => by cases hg⟩

end ManagerSt

end ArcusClient
