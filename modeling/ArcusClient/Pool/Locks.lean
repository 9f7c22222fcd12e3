import ArcusClient.Lib.Outcome
import ArcusClient.Pool.Members
import ArcusClient.Store.Reply

/-!
# The locks of a pool

The calls of a pool take `mutex`, and those that change the master take `master_lock` before it.  Each
call runs from its start to its return, with the locks its thread holds.  A thread that asks for a lock
it holds waits for ever.  Where a call gives `mutex` back for a while, it finds any pool when it has it
again.  Every call of the library may fail, `pthread_mutex_lock` included.

A call that returns holds nothing, except for `memcached_pool_behavior_set` when the behavior of the
master cannot be set.  Without such a failure no call waits for a lock of its own thread
(`pool_locks_given_back`, `master_lock_left_locked`).
-/

namespace ArcusClient

open Outcome Store

inductive PoolLock where
  | mutex
  | masterLock
  deriving DecidableEq

inductive Pending where
  /-- It asks for a lock that its thread holds. -/
  | blocked (lock : PoolLock)
  /-- It waits for other threads. -/
  | waiting
  deriving DecidableEq

structure LockSt where
  pool : PoolSt
  mutex : Bool
  masterLock : Bool

namespace LockSt

def free (pool : PoolSt) : LockSt := ⟨pool, false, false⟩

def Free (s : LockSt) : Prop := s.mutex = false ∧ s.masterLock = false

/-- `pthread_mutex_lock`, which fails without `granted`. -/
def lock (s : LockSt) (l : PoolLock) (granted : Bool) : Except Pending LockSt :=
  if granted then
    match l with
    | .mutex => if s.mutex then .error (.blocked l) else .ok { s with mutex := true }
    | .masterLock => if s.masterLock then .error (.blocked l) else .ok { s with masterLock := true }
  else .ok s

/-- `pthread_mutex_unlock`. -/
def unlock (s : LockSt) (l : PoolLock) : LockSt :=
  match l with
  | .mutex => { s with mutex := false }
  | .masterLock => { s with masterLock := false }

/-- The pool is changed, and where the holder of `master_lock` is in its call. -/
def setPool (s : LockSt) (pool : PoolSt) : LockSt := { s with pool := pool }

/-! ## The calls -/

/-- How `pthread_cond_timedwait` ends. -/
inductive WaitRc where
  | signalled
  | timedOut
  | error
  deriving DecidableEq

/-- What one round of `fetch` finds. -/
structure FetchRound where
  clone : Bool
  updated : Bool
  waitRc : WaitRc
  /-- The pool after the wait. -/
  after : PoolSt

/-- The loop of `fetch`, as far as its rounds have come.  `pthread_cond_timedwait` gives `mutex` back
and returns with it. -/
def fetchRounds (wait : Bool) : List FetchRound → LockSt →
    Except Pending ((ReturnT × Option Member) × LockSt)
  | [], _ => .error .waiting
  | round :: rest, s =>
    match s.pool.fetch wait round.clone round.updated with
    | (.fetched mc, pool) =>
      .ok ((.success, some mc), s.setPool { pool with fetched := mc :: pool.fetched })
    | (.failed rc, pool) => .ok ((rc, none), s.setPool pool)
    | (.waits, _) =>
      match round.waitRc with
      | .signalled => fetchRounds wait rest (s.setPool round.after)
      | .timedOut => .ok ((.timeout, none), s.setPool round.after)
      | .error => .ok ((.errno, none), s.setPool round.after)

/-- `memcached_pool_st::fetch`. -/
def fetch (s : LockSt) (wait locked : Bool) (rounds : List FetchRound) :
    Except Pending ((ReturnT × Option Member) × LockSt) :=
  if locked then do
    let s ← s.lock .mutex true
    let (ret, s) ← fetchRounds wait rounds s
    return (ret, s.unlock .mutex)
  else .ok ((.inProgress, none), s)

/-- `memcached_pool_st::release`. -/
def release (s : LockSt) (released : Option Member) (locked clone updated : Bool) :
    Except Pending (ReturnT × LockSt) :=
  match released with
  | none => .ok (.invalidArguments, s)
  | some mc =>
    if locked then do
      let s ← s.lock .mutex true
      let pool := { s.pool with fetched := s.pool.fetched.erase mc }
      let s := s.setPool (pool.release mc clone updated)
      return (.success, s.unlock .mutex)
    else .ok (.inProgress, s)

def lockBoth (s : LockSt) (masterLocked locked : Bool) : Except Pending LockSt := do
  let s ← s.lock .masterLock masterLocked
  let s := s.setPool { s.pool with masterLock := .entered }
  s.lock .mutex locked

def unlockBoth (s : LockSt) : LockSt :=
  let s := (s.unlock .mutex).unlock .masterLock
  s.setPool { s.pool with masterLock := .free }

/-- `memcached_pool_behavior_set`, where `rc` is what `memcached_behavior_set` returns for the
master. -/
def behaviorSet (s : LockSt) (masterLocked locked : Bool) (rc : ReturnT) (set : Member → Bool)
    (clone grow : Nat → Bool) : Except Pending (ReturnT × LockSt) := do
  let s ← s.lockBoth masterLocked locked
  let s := s.setPool (s.pool.behaviorSet (!memcachedFailed rc) set clone grow)
  if memcachedFailed rc then return (rc, s.unlock .mutex)
  return (rc, s.unlockBoth)

/-- `memcached_pool_repopulate`. -/
def repopulate (s : LockSt) (masterLocked locked : Bool) (clone grow : Nat → Bool) :
    Except Pending (ReturnT × LockSt) := do
  let s ← s.lockBoth masterLocked locked
  let s := s.setPool (s.pool.repopulate clone grow)
  return (.success, s.unlockBoth)

/-- What happens while a member is updated without `mutex`. -/
structure Gap where
  updated : Bool
  /-- `mutex` is locked again with success. -/
  locked : Bool
  /-- The pool afterwards. -/
  after : PoolSt

/-- The loops of `mc_list_update_cachelist` and `mc_pool_update_cachelist`, as far as they have
come. -/
def updateLoops : List Gap → LockSt → Except Pending LockSt
  | gaps, s =>
    match s.pool.masterLock with
    | .updatingList _ | .updatingPool _ =>
      match gaps with
      | [] => .error .waiting
      | gap :: rest => do
        let s := s.unlock .mutex
        let s := s.setPool { gap.after with masterLock := s.pool.masterLock }
        let s ← s.lock .mutex gap.locked
        updateLoops rest (s.setPool ((s.pool.next (.putBack gap.updated)).getD s.pool))
    | _ => .ok s

/-- `memcached_pool_update_cachelist`, where `rc` and `changed` come from
`memcached_update_cachelist`. -/
def updateCachelist (s : LockSt) (masterLocked locked init : Bool) (rc : ReturnT) (changed : Bool)
    (clone grow : Nat → Bool) (gaps : List Gap) : Except Pending (ReturnT × LockSt) := do
  let s ← s.lockBoth masterLocked locked
  let s := s.setPool (s.pool.updateCachelist init (rc == .success && changed) clone grow)
  let s ← updateLoops gaps s
  return (if init then .success else rc, s.unlockBoth)

/-- `memcached_pool_update_member`. -/
def updateMember (s : LockSt) (locked : Bool) (mc : Member) (updated : Bool) :
    Except Pending (ReturnT × LockSt) := do
  let s ← s.lock .mutex locked
  let fetched := s.pool.updateMember mc updated :: s.pool.fetched.erase mc
  let s := s.setPool { s.pool with fetched := fetched }
  return (.success, s.unlock .mutex)

/-- A call, with what its inner calls return.  The pool may be null where the source tests it. -/
inductive Call where
  | nullPool
  | fetch (wait locked : Bool) (rounds : List FetchRound)
  | release (released : Option Member) (locked clone updated : Bool)
  | behaviorSet (masterLocked locked : Bool) (rc : ReturnT) (set : Member → Bool)
      (clone grow : Nat → Bool)
  | repopulate (masterLocked locked : Bool) (clone grow : Nat → Bool)
  | updateCachelist (masterLocked locked init : Bool) (rc : ReturnT) (changed : Bool)
      (clone grow : Nat → Bool) (gaps : List Gap)
  | updateMember (locked : Bool) (mc : Member) (updated : Bool)

def call (s : LockSt) : Call → Except Pending LockSt
  | .nullPool => .ok s
  | .fetch wait locked rounds => (s.fetch wait locked rounds).map Prod.snd
  | .release released locked clone updated => (s.release released locked clone updated).map Prod.snd
  | .behaviorSet masterLocked locked rc set clone grow =>
    (s.behaviorSet masterLocked locked rc set clone grow).map Prod.snd
  | .repopulate masterLocked locked clone grow =>
    (s.repopulate masterLocked locked clone grow).map Prod.snd
  | .updateCachelist masterLocked locked init rc changed clone grow gaps =>
    (s.updateCachelist masterLocked locked init rc changed clone grow gaps).map Prod.snd
  | .updateMember locked mc updated => (s.updateMember locked mc updated).map Prod.snd

def calls (s : LockSt) : List Call → Except Pending LockSt
  | [] => .ok s
  | c :: rest => do
    let s ← s.call c
    calls s rest

/-- The call sets a behavior, the thread gets `master_lock`, and the behavior of the master cannot be
set. -/
def Call.Leaks : Call → Prop
  | .behaviorSet masterLocked _ rc _ _ _ => masterLocked = true ∧ memcachedFailed rc = true
  | _ => False

/-! ## What a thread holds -/

/-- The call does not wait for a lock of its own thread. -/
def NotBlocked (e : Pending) : Prop := ∀ l, e ≠ .blocked l

structure Holds (mutex masterLock : Bool) (s : LockSt) : Prop where
  mutex : s.mutex = mutex
  masterLock : s.masterLock = masterLock

variable {s : LockSt} {b mutex masterLock : Bool}

theorem Holds.setPool (h : Holds mutex masterLock s) (pool : PoolSt) :
    Holds mutex masterLock (s.setPool pool) := ⟨h.mutex, h.masterLock⟩

theorem Holds.unlock_mutex (h : Holds mutex masterLock s) :
    Holds false masterLock (s.unlock .mutex) := ⟨rfl, h.masterLock⟩

theorem free_unlockBoth (s : LockSt) : s.unlockBoth.Free := ⟨rfl, rfl⟩

theorem Holds.lock_mutex (h : Holds false masterLock s) (granted : Bool) :
    Ends NotBlocked (Holds granted masterLock) (s.lock .mutex granted) := by
  cases granted with
  | true =>
    rw [lock]
    simp only [h.mutex]
    exact ⟨rfl, h.masterLock⟩
  | false => exact h

theorem Holds.lock_masterLock (h : Holds mutex false s) (granted : Bool) :
    Ends NotBlocked (Holds mutex granted) (s.lock .masterLock granted) := by
  cases granted with
  | true =>
    rw [lock]
    simp only [h.masterLock]
    exact ⟨h.mutex, rfl⟩
  | false => exact h

theorem Holds.lockBoth (h : Holds false false s) (masterLocked locked : Bool) :
    Ends NotBlocked (Holds locked masterLocked) (s.lockBoth masterLocked locked) :=
  (h.lock_masterLock masterLocked).bind fun _ hs => (hs.setPool _).lock_mutex locked

theorem fetchRounds_ends (wait : Bool) : ∀ (rounds : List FetchRound) {s : LockSt},
    Holds mutex masterLock s →
    Ends NotBlocked (fun r => Holds mutex masterLock r.2) (fetchRounds wait rounds s)
  | [], s, _ => by
    rw [fetchRounds]
    intro l h
    cases h
  | round :: rest, s, hs => by
    rw [fetchRounds]
    split
    · exact hs.setPool _
    · exact hs.setPool _
    · split
      · exact fetchRounds_ends wait rest (hs.setPool _)
      · exact hs.setPool _
      · exact hs.setPool _

theorem fetch_ends (h : Holds false masterLock s) (wait locked : Bool) (rounds : List FetchRound) :
    Ends NotBlocked (fun r => Holds false masterLock r.2) (s.fetch wait locked rounds) := by
  rw [fetch]
  cases locked with
  | false => exact h
  | true =>
    refine (h.lock_mutex true).bind fun s hs => ?_
    exact (fetchRounds_ends wait rounds hs).bind fun r hr => hr.unlock_mutex

theorem release_ends (h : Holds false masterLock s) (released : Option Member)
    (locked clone updated : Bool) : Ends NotBlocked (fun r => Holds false masterLock r.2)
      (s.release released locked clone updated) := by
  cases released with
  | none => exact h
  | some mc =>
    cases locked with
    | false => exact h
    | true => exact (h.lock_mutex true).bind fun s hs => (hs.setPool _).unlock_mutex

theorem updateMember_ends (h : Holds false masterLock s) (locked : Bool) (mc : Member)
    (updated : Bool) :
    Ends NotBlocked (fun r => Holds false masterLock r.2) (s.updateMember locked mc updated) :=
  (h.lock_mutex locked).bind fun _ hs => (hs.setPool _).unlock_mutex

/-- The loops give `mutex` back before they take it. -/
theorem updateLoops_ends : ∀ (gaps : List Gap) {s : LockSt}
    {mutex : Bool}, Holds mutex masterLock s →
    Ends NotBlocked (fun s' => ∃ mutex, Holds mutex masterLock s') (updateLoops gaps s)
  | [], s, mutex, hs => by
    rw [updateLoops]
    split
    · intro l h
      cases h
    · intro l h
      cases h
    · exact ⟨mutex, hs⟩
  | gap :: rest, s, mutex, hs => by
    have hr {s' : LockSt} (hs' : Holds false masterLock s') :
        Ends NotBlocked (fun s' => ∃ mutex, Holds mutex masterLock s')
          (s'.lock .mutex gap.locked >>= fun s =>
            updateLoops rest (s.setPool ((s.pool.next (.putBack gap.updated)).getD s.pool))) :=
      (hs'.lock_mutex gap.locked).bind fun _ hs => updateLoops_ends rest (hs.setPool _)
    rw [updateLoops]
    split
    · exact hr (hs.unlock_mutex.setPool _)
    · exact hr (hs.unlock_mutex.setPool _)
    · exact ⟨mutex, hs⟩

/-- A call that starts with nothing held does not wait for its own thread.  It returns with
`master_lock` if the behavior of the master cannot be set, and else with nothing. -/
theorem call_ends (pool : PoolSt) (c : Call) :
    Ends NotBlocked (fun s => (c.Leaks → Holds false true s) ∧ (¬c.Leaks → s.Free))
      ((free pool).call c) := by
  have hf : Holds false false (free pool) := ⟨rfl, rfl⟩
  cases c with
  | nullPool => exact ⟨fun h => h.elim, fun _ => ⟨rfl, rfl⟩⟩
  | fetch wait locked rounds =>
    rw [call, ends_map]
    exact (fetch_ends hf wait locked rounds).imp (fun _ h => h)
      fun _ h => ⟨fun hl => hl.elim, fun _ => ⟨h.mutex, h.masterLock⟩⟩
  | release released locked clone updated =>
    rw [call, ends_map]
    exact (release_ends hf released locked clone updated).imp (fun _ h => h)
      fun _ h => ⟨fun hl => hl.elim, fun _ => ⟨h.mutex, h.masterLock⟩⟩
  | updateMember locked mc updated =>
    rw [call, ends_map]
    exact (updateMember_ends hf locked mc updated).imp (fun _ h => h)
      fun _ h => ⟨fun hl => hl.elim, fun _ => ⟨h.mutex, h.masterLock⟩⟩
  | repopulate masterLocked locked clone grow =>
    rw [call, ends_map]
    exact (hf.lockBoth masterLocked locked).bind fun _ hs =>
      ⟨fun hl => hl.elim, fun _ => free_unlockBoth _⟩
  | updateCachelist masterLocked locked init rc changed clone grow gaps =>
    rw [call, ends_map]
    refine (hf.lockBoth masterLocked locked).bind fun _ hs => ?_
    refine (updateLoops_ends gaps (hs.setPool _)).bind fun _ hs => ?_
    exact ⟨fun hl => hl.elim, fun _ => free_unlockBoth _⟩
  | behaviorSet masterLocked locked rc set clone grow =>
    rw [call, ends_map]
    refine (hf.lockBoth masterLocked locked).bind fun s hs => ?_
    have hs := hs.setPool (s.pool.behaviorSet (!memcachedFailed rc) set clone grow)
    cases hfa : memcachedFailed rc with
    | false =>
      refine ⟨fun hl => ?_, fun _ => free_unlockBoth _⟩
      have := hl.2
      rw [hfa] at this
      cases this
    | true =>
      -- only `mutex` is given back here
      rw [hfa] at hs
      refine ⟨fun hl => ?_, fun hn => ?_⟩
      · have hm : masterLocked = true := hl.1
        exact hm ▸ hs.unlock_mutex
      · have hm : masterLocked = false := by
          cases masterLocked with
          | true => exact absurd ⟨rfl, hfa⟩ hn
          | false => rfl
        exact ⟨rfl, hs.masterLock.trans hm⟩

theorem Free.eq_free (h : s.Free) : s = free s.pool := by
  obtain ⟨pool, mutex, masterLock⟩ := s
  obtain ⟨hm, hma⟩ := h
  cases hm
  cases hma
  rfl

theorem calls_ends : ∀ (cs : List Call) {s : LockSt}, s.Free → (∀ c ∈ cs, ¬c.Leaks) →
    Ends NotBlocked Free (s.calls cs)
  | [], _, hs, _ => hs
  | c :: rest, s, hs, hl => by
    obtain ⟨hc, hr⟩ := List.forall_mem_cons.1 hl
    rw [hs.eq_free]
    exact (call_ends s.pool c).bind fun s' hs' => calls_ends rest (hs'.2 hc) hr

end LockSt

/-- A call that returns has given back its locks, unless it sets a behavior and cannot set it for the
master.  Calls without such a failure never wait for a lock of their own thread, and hold nothing
in the end. -/
theorem pool_locks_given_back (pool : PoolSt) :
    (∀ (c : LockSt.Call) (s : LockSt), (LockSt.free pool).call c = .ok s → (s.Free ↔ ¬c.Leaks)) ∧
    ∀ cs : List LockSt.Call, (∀ c ∈ cs, ¬c.Leaks) →
      Ends (fun e => ∀ l, e ≠ .blocked l) LockSt.Free ((LockSt.free pool).calls cs) := by
  constructor
  · intro c s hca
    obtain ⟨hl, hf⟩ := (LockSt.call_ends pool c).of_eq_ok hca
    refine ⟨fun hs hc => ?_, hf⟩
    have hh := (hl hc).masterLock
    rw [hs.2] at hh
    cases hh
  · intro cs hcs
    exact LockSt.calls_ends cs ⟨rfl, rfl⟩ hcs

def LockSt.smallPool : PoolSt := (PoolSt.empty 0 0 1).growPool

/-- The list changes, and the only member is updated without `mutex`. -/
def LockSt.changedList : LockSt.Call :=
  .updateCachelist true true false .success true (fun _ => true) (fun _ => true)
    [⟨true, true, LockSt.smallPool⟩]

/-- Two changes of the list, and a behavior that is set. -/
theorem pool_locks_given_back_changes :
    (∃ s, (LockSt.free LockSt.smallPool).call LockSt.changedList = .ok s ∧ s.Free) ∧
    Ends (fun e => ∀ l, e ≠ .blocked l) LockSt.Free ((LockSt.free LockSt.smallPool).calls
      [LockSt.changedList, .behaviorSet true true .success (fun _ => true) (fun _ => true)
        (fun _ => true), LockSt.changedList]) := by
  obtain ⟨ho, hm⟩ := pool_locks_given_back LockSt.smallPool
  refine ⟨⟨_, rfl, (ho LockSt.changedList _ rfl).2 id⟩, hm _ fun c hc => ?_⟩
  simp only [List.mem_cons, List.not_mem_nil, or_false] at hc
  rcases hc with rfl | rfl | rfl
  · exact id
  · exact fun hl => absurd hl.2 (by decide)
  · exact id

/-- The behavior of the master cannot be set, and the next change of the list waits for ever. -/
theorem master_lock_left_locked : (LockSt.free LockSt.smallPool).calls
      [.behaviorSet true true .invalidArguments (fun _ => true) (fun _ => true) (fun _ => true),
        LockSt.changedList] = .error (.blocked .masterLock) := by
  rfl

end ArcusClient
