import ArcusClient.Hosts.Ring
import ArcusClient.Lib.Outcome
import ArcusClient.Lib.RefCount
import ArcusClient.Lib.Runs

/-!
# Sharing the ring

The ring of a client is an object of its own, `memcached_ketama_info_st`.  The master of a pool builds
one, and the members take theirs from the master.  The ring counts its holders in
`continuum_refcount`.  A client that builds a ring or takes the master's first calls
`memcached_ketama_release`, and then `memcached_ketama_set` or `memcached_ketama_reference`, each under
`ketama_info_lock`.  A run is a sequence of such steps of all clients (`SharedSt.step`).

The counters are right and no step fails in every state of a run (`ring_refcounts`), if no ring is
given up while it is built.  Such a ring leaks (`ring_leaks`).
-/

namespace ArcusClient

open CString Outcome RefCount List Function Option

/-! ## Building -/

inductive Built where
  /-- The call returns before it has a new object. -/
  | nothing
  /-- The call returns with a new object, and does not free it. -/
  | leaked
  | ring (info : KetamaInfo)

def Built.installed (old : Option KetamaInfo) : Built → Option KetamaInfo
  | .nothing => old
  | .leaked => old
  | .ring info => some info

section Build

variable {α : Type} [Inhabited α] (P : Platform) (ring : RingHosts α)

/-- The part of `updateRing` up to the release of the old ring. -/
def buildRing (env : Env) (hosts : List α) (weighted : Bool) : Built :=
  if (ring.live hosts).isEmpty then .nothing
  else if !env.mallocInfo then .nothing
  else if !env.mallocContinuum then .nothing
  else match newKetamaInfo P ring weighted hosts with
    | none => .leaked
    | some info => .ring info

/-- The strings of the live hosts fit, if it comes to them. -/
def RingFits (env : Env) (hosts : List α) (weighted : Bool) : Prop :=
  env.mallocInfo = true → env.mallocContinuum = true →
    ∀ a ∈ ring.live hosts, ring.Fits (ring.pps P weighted hosts a) a

theorem buildRing_ne_leaked_iff (env : Env) (hosts : List α) (weighted : Bool) :
    buildRing P ring env hosts weighted ≠ .leaked ↔ RingFits P ring env hosts weighted := by
  rw [buildRing, RingFits, ← newKetamaInfo_isSome_iff]
  cases hl : (ring.live hosts).isEmpty with
  | true =>
    have hs : (newKetamaInfo P ring weighted hosts).isSome = true := by
      rw [newKetamaInfo_isSome_iff, isEmpty_iff.1 hl]
      exact fun a ha => absurd ha not_mem_nil
    simp [hs]
  | false =>
    cases env.mallocInfo with
    | false => simp
    | true =>
      cases env.mallocContinuum with
      | false => simp
      | true => cases newKetamaInfo P ring weighted hosts <;> simp

end Build

/-- `update_continuum` of a client that builds its own ring, up to the release of the old one. -/
def buildContinuum (P : Platform) (env : Env) (mc : Memcached) : Built :=
  match env.gettimeofday with
  | none => .nothing
  | some now => buildRing P (serverRing mc now) env mc.servers mc.ketama.weighted

/-- `update_continuum_based_on_rgroups` of a client that builds its own ring, up to the release of the
old one. -/
def buildContinuumBasedOnRgroups (P : Platform) (env : Env) (mc : Memcached) : Except Fault Built :=
  if env.gettimeofday.isNone then .ok .nothing
  else if mc.flags.autoEjectHosts then .error .assertion
  else if !mc.rgroups.isEmpty && env.mallocInfo && env.mallocContinuum
      && mc.distribution != .consistentKetamaSpy then .error .assertion
  else .ok (buildRing P rgroupRing env mc.rgroups mc.ketama.weighted)

/-- The builder that `run_distribution` chooses. -/
def buildKetama (P : Platform) (env : Env) (mc : Memcached) : Except Fault Built :=
  if mc.flags.replEnabled then buildContinuumBasedOnRgroups P env mc
  else .ok (buildContinuum P env mc)

/-- The strings of the client's hosts fit, if it comes to them. -/
def KetamaFits (P : Platform) (env : Env) (mc : Memcached) : Prop :=
  ∀ now, env.gettimeofday = some now →
    if mc.flags.replEnabled then RingFits P rgroupRing env mc.rgroups mc.ketama.weighted
    else RingFits P (serverRing mc now) env mc.servers mc.ketama.weighted

theorem buildKetama_ends (P : Platform) (env : Env) (mc : Memcached) :
    Ends (fun _ => True) (fun b => KetamaFits P env mc → b ≠ .leaked) (buildKetama P env mc) := by
  rw [buildKetama, buildContinuum, buildContinuumBasedOnRgroups]
  simp only [KetamaFits]
  cases mc.flags.replEnabled with
  | true =>
    cases ht : env.gettimeofday with
    | none => exact fun _ h => nomatch h
    | some now =>
      simp only [if_true, isNone_some, Bool.false_eq_true, if_false]
      split
      · trivial
      · split
        · trivial
        · intro hf
          exact (buildRing_ne_leaked_iff P rgroupRing env mc.rgroups mc.ketama.weighted).2
            (hf now rfl)
  | false =>
    cases ht : env.gettimeofday with
    | none => exact fun _ h => nomatch h
    | some now =>
      intro hf
      exact (buildRing_ne_leaked_iff P (serverRing mc now) env mc.servers mc.ketama.weighted).2
        (hf now rfl)

/-! ## The shared rings -/

/-- `memcached_ketama_info_st`. -/
structure SharedInfo where
  /-- `continuum` and `continuum_points_counter`. -/
  info : KetamaInfo
  /-- `continuum_refcount`. -/
  refcount : UInt32

def SharedInfo.countUp (shared : SharedInfo) : SharedInfo :=
  { shared with refcount := shared.refcount + 1 }

/-- One client less.  The ring is freed after the last one. -/
def SharedInfo.countDown (shared : SharedInfo) : Option SharedInfo :=
  let refcount := shared.refcount - 1
  if refcount = 0 then none else some { shared with refcount := refcount }

theorem SharedInfo.toNat_countUp {shared : SharedInfo} (h : shared.refcount.toNat + 1 < 2 ^ 32) :
    shared.countUp.refcount.toNat = shared.refcount.toNat + 1 := by
  exact Nat.mod_eq_of_lt h

theorem SharedInfo.map_countDown {shared : SharedInfo} (h : 0 < shared.refcount.toNat) :
    shared.countDown.map (fun shared => shared.refcount.toNat) =
      if shared.refcount.toNat - 1 = 0 then none else some (shared.refcount.toNat - 1) := by
  have hs : (shared.refcount - 1).toNat = shared.refcount.toNat - 1 := by
    exact UInt32.toNat_sub_of_le _ _ (UInt32.le_iff_toNat_le.2 (Nat.succ_le_of_lt h))
  have hz : shared.refcount - 1 = 0 ↔ shared.refcount.toNat - 1 = 0 := by
    rw [← hs, ← UInt32.toNat_inj]
    rfl
  rw [SharedInfo.countDown]
  simp only [hz]
  split
  · rfl
  · rw [map_some, hs]

inductive RingTask where
  | idle
  /-- To release the old ring and set the new one. -/
  | build (object : Nat)
  | set (object : Nat)
  /-- To release the old ring and take the master's. -/
  | join
  | reference
  deriving DecidableEq

def RingTask.carried : RingTask → Option Nat
  | .idle => none
  | .build object => some object
  | .set object => some object
  | .join => none
  | .reference => none

def RingTask.released : RingTask → Bool
  | .idle => false
  | .build _ => false
  | .set _ => true
  | .join => false
  | .reference => true

def RingTask.joins : RingTask → Bool
  | .idle => false
  | .build _ => false
  | .set _ => false
  | .join => true
  | .reference => true

structure SharedSt where
  clients : Finset Nat
  /-- `ketama.info` of each client. -/
  ptr : Nat → Option Nat
  /-- The rings that are not freed. -/
  heap : Nat → Option SharedInfo
  task : Nat → RingTask
  /-- `state.is_pool_master` of the master. -/
  isPoolMaster : Bool

namespace SharedSt

def start : SharedSt := ⟨∅, fun _ => none, fun _ => none, fun _ => .idle, false⟩

def setTask (s : SharedSt) (c : Nat) (task : RingTask) : SharedSt :=
  { s with task := Function.update s.task c task }

@[simp] theorem task_setTask_self (s : SharedSt) (c : Nat) (task : RingTask) :
    (s.setTask c task).task c = task := update_self _ _ _

theorem task_setTask_of_ne (s : SharedSt) (h : d ≠ c) (task : RingTask) :
    (s.setTask c task).task d = s.task d := update_of_ne h _ _

/-- The client's `ketama.info` becomes the object, which counts it. -/
def attach (s : SharedSt) (c object : Nat) : Except Fault SharedSt :=
  match s.heap object with
  | none => .error .freed
  | some shared => .ok { s with
      ptr := Function.update s.ptr c (some object)
      heap := Function.update s.heap object (some shared.countUp) }

/-- `memcached_ketama_set`. -/
def memcachedKetamaSet (s : SharedSt) (c object : Nat) : Except Fault SharedSt :=
  if s.ptr c ≠ none then .error .assertion else s.attach c object

/-- `memcached_ketama_reference`. -/
def memcachedKetamaReference (s : SharedSt) (c master : Nat) : Except Fault SharedSt :=
  if s.ptr c ≠ none then .error .assertion
  else if master ∉ s.clients then .error .freed
  else match s.ptr master with
    | none => .ok s
    | some object => s.attach c object

/-- `memcached_ketama_release`. -/
def memcachedKetamaRelease (s : SharedSt) (c : Nat) : Except Fault SharedSt :=
  match s.ptr c with
  | none => .ok s
  | some object =>
    match s.heap object with
    | none => .error .freed
    | some shared => .ok { s with
        ptr := Function.update s.ptr c none
        heap := Function.update s.heap object shared.countDown }

/-- The new object of a client, at an address `malloc` gives. -/
def begin (s : SharedSt) (c object : Nat) (garbage : SharedInfo) : Built → SharedSt
  | .nothing => s
  | .leaked => { s with heap := Function.update s.heap object (some garbage) }
  | .ring info =>
    { s with heap := Function.update s.heap object (some ⟨info, 0⟩) }.setTask c (.build object)

end SharedSt

/-- The steps of the clients.  `memcached_clone` is `create`, then `update` or `join`, and `free` if it
fails. -/
inductive RingOp where
  /-- `memcached_create`. -/
  | create (c : Nat)
  /-- A client that is no member of a pool, or the master of one, builds its ring.  The new object
  has what its memory held before. -/
  | update (c : Nat) (env : Env) (mc : Memcached) (object : Nat) (garbage : SharedInfo)
  /-- A member of the pool is to take the master's ring. -/
  | join (c : Nat)
  /-- The next call of a client's update. -/
  | advance (c : Nat)
  /-- `memcached_free`. -/
  | free (c : Nat)
  | poolCreate
  | poolDestroy

namespace SharedSt

variable (P : Platform) (master : Nat)

def advance (s : SharedSt) (c : Nat) : Except Fault SharedSt :=
  match s.task c with
  | .idle => .ok s
  | .build object => (s.memcachedKetamaRelease c).map (setTask · c (.set object))
  | .set object => (s.memcachedKetamaSet c object).map (setTask · c .idle)
  | .join => (s.memcachedKetamaRelease c).map (setTask · c .reference)
  | .reference => (s.memcachedKetamaReference c master).map (setTask · c .idle)

/-- `memcached_free`.  The master of a pool is not freed. -/
def memcachedFree (s : SharedSt) (c : Nat) : Except Fault SharedSt :=
  if c = master ∧ s.isPoolMaster = true then .ok s
  else (s.memcachedKetamaRelease c).map fun s => { s with clients := s.clients.erase c }

/-- A step.  One that is not possible in the state changes nothing. -/
def step (s : SharedSt) : RingOp → Except Fault SharedSt
  | .create c =>
    if c ∈ s.clients then .ok s
    else .ok { s with clients := insert c s.clients, ptr := Function.update s.ptr c none }
  | .update c env mc object garbage =>
    if c ∈ s.clients ∧ s.task c = .idle ∧ (s.heap object).isNone then
      (buildKetama P env mc).map (s.begin c object garbage)
    else .ok s
  | .join c =>
    if c ∈ s.clients ∧ s.task c = .idle ∧ c ≠ master ∧ s.isPoolMaster = true then
      .ok (s.setTask c .join)
    else .ok s
  | .advance c => s.advance master c
  | .free c => if c ∈ s.clients ∧ s.task c = .idle then s.memcachedFree master c else .ok s
  | .poolCreate => .ok { s with isPoolMaster := decide (master ∈ s.clients) }
  | .poolDestroy =>
    if ∀ c ∈ s.clients, (s.task c).joins = false then
      .ok { s with isPoolMaster := false }
    else .ok s

/-- The number of clients whose `ketama.info` is the object. -/
def holderCount (s : SharedSt) (object : Nat) : Nat := (holders s.clients s.ptr object).card

def refs (s : SharedSt) : Nat → Option Nat := Option.map (fun shared => shared.refcount.toNat) ∘ s.heap

end SharedSt

/-- The step builds no ring whose strings are too long, and the clients can be counted in 32 bits. -/
def RingOp.Fits (P : Platform) (s : SharedSt) : RingOp → Prop
  | .create _ => s.clients.card + 1 < 2 ^ 32
  | .update _ env mc _ _ => KetamaFits P env mc
  | .join _ => True
  | .advance _ => True
  | .free _ => True
  | .poolCreate => True
  | .poolDestroy => True

/-! ## The invariant -/

/-- The counters are right, and each client is ready for the rest of its task. -/
structure Counted (master : Nat) (s : SharedSt) : Prop where
  refs : RefCounted s.clients s.ptr s.refs
  few : s.clients.card < 2 ^ 32
  outside : ∀ c, c ∉ s.clients → s.ptr c = none ∧ s.task c = .idle
  /-- A client that is to set or take a ring next has none. -/
  ready : ∀ c, (s.task c).released = true → s.ptr c = none
  /-- A ring that is to be set has no holder yet. -/
  fresh : ∀ c object, (s.task c).carried = some object →
    ∃ shared, s.heap object = some shared ∧ shared.refcount = 0
  single : ∀ c d object, (s.task c).carried = some object → (s.task d).carried = some object → c = d
  used : ∀ object, s.heap object ≠ none →
    0 < s.holderCount object ∨ ∃ c, (s.task c).carried = some object
  pool : s.isPoolMaster = true → master ∈ s.clients
  joining : ∀ c, (s.task c).joins = true → s.isPoolMaster = true

namespace Counted

variable {master : Nat} {s : SharedSt} {c object : Nat} {shared : SharedInfo}

theorem start (master : Nat) : Counted master SharedSt.start where
  refs := RefCounted.start
  few := by
    change (∅ : Finset Nat).card < 2 ^ 32
    exact Nat.two_pow_pos 32
  outside _ _ := ⟨rfl, rfl⟩
  ready _ _ := rfl
  fresh _ _ h := nomatch h
  single _ _ _ h := nomatch h
  used _ h := absurd rfl h
  pool h := nomatch h
  joining _ h := nomatch h

theorem refcount_eq (h : Counted master s) (hh : s.heap object = some shared) :
    shared.refcount.toNat = s.holderCount object :=
  h.refs.count object _ (by rw [SharedSt.refs, comp_apply, hh]; rfl)

theorem held (h : Counted master s) (hp : s.ptr c = some object) :
    c ∈ s.clients ∧ ∃ shared, s.heap object = some shared ∧ 0 < shared.refcount.toNat := by
  have hc : c ∈ s.clients := by
    by_contra hc
    rw [(h.outside c hc).1] at hp
    cases hp
  obtain ⟨n, hn⟩ := h.refs.exist c hc object hp
  obtain ⟨shared, hh, rfl⟩ := map_eq_some_iff.1 hn
  exact ⟨hc, shared, hh, h.refs.pos_of_held hc hp hn⟩

theorem not_carried (h : Counted master s) (hp : s.ptr c = some object) (d : Nat) :
    (s.task d).carried ≠ some object := by
  intro hc
  obtain ⟨shared, hh, hz⟩ := h.fresh d object hc
  obtain ⟨-, shared', hh', hpo⟩ := h.held hp
  rw [hh, some.injEq] at hh'
  rw [← hh', hz] at hpo
  exact absurd hpo (by decide)

theorem client_of_task (h : Counted master s) (ht : s.task c ≠ .idle) : c ∈ s.clients := by
  by_contra hc
  exact ht (h.outside c hc).2

theorem setTask (h : Counted master s) (hc : c ∈ s.clients)
    (hca : task.carried = (s.task c).carried) (hr : task.released = true → s.ptr c = none)
    (hj : task.joins = true → s.isPoolMaster = true) : Counted master (s.setTask c task) := by
  have ha : ∀ d, ((s.setTask c task).task d).carried = (s.task d).carried := by
    intro d
    by_cases hd : d = c
    · rw [hd, SharedSt.task_setTask_self, hca]
    · rw [SharedSt.task_setTask_of_ne s hd]
  refine ⟨h.refs, h.few, fun d hd => ⟨(h.outside d hd).1, ?_⟩, ?_, fun d object hd => ?_,
    fun d e object hd he => ?_, fun object hh => ?_, h.pool, ?_⟩
  · have hdc : d ≠ c := fun hdc => hd (hdc ▸ hc)
    rw [SharedSt.task_setTask_of_ne s hdc]
    exact (h.outside d hd).2
  · exact (forall_update_iff s.task fun d task => task.released = true → s.ptr d = none).2
      ⟨hr, fun d _ => h.ready d⟩
  · exact h.fresh d object (ha d ▸ hd)
  · exact h.single d e object (ha d ▸ hd) (ha e ▸ he)
  · refine (h.used object hh).imp id fun ⟨d, hd⟩ => ⟨d, ?_⟩
    rw [ha d]
    exact hd
  · exact (forall_update_iff s.task fun _ task => task.joins = true → s.isPoolMaster = true).2
      ⟨hj, fun d _ => h.joining d⟩

end Counted

section Steps

variable {P : Platform} {master : Nat} {s : SharedSt} {c object : Nat} {shared : SharedInfo}

theorem refs_of_heap (h : s.heap object = some shared) :
    s.refs object = some shared.refcount.toNat := by
  rw [SharedSt.refs, comp_apply, h]
  rfl

theorem refs_update (s : SharedSt) (object : Nat) (shared : Option SharedInfo) :
    Option.map (fun shared => shared.refcount.toNat) ∘ Function.update s.heap object shared =
      Function.update s.refs object (shared.map fun shared => shared.refcount.toNat) :=
  comp_update _ _ _ _

theorem Counted.detach (h : Counted master s) (hp : s.ptr c = some object)
    (hh : s.heap object = some shared) : Counted master { s with
      ptr := Function.update s.ptr c none
      heap := Function.update s.heap object shared.countDown } := by
  obtain ⟨hc, shared', hh', hpo⟩ := h.held hp
  obtain rfl : shared' = shared := some.inj (hh'.symm.trans hh)
  have hr := h.refs.detach hc hp (refs_of_heap hh)
  rw [← SharedInfo.map_countDown hpo, ← refs_update] at hr
  refine ⟨hr, h.few, fun d hd => ⟨?_, (h.outside d hd).2⟩, fun d hd => ?_, fun d object' hd => ?_,
    h.single, fun object' hh' => ?_, h.pool, h.joining⟩
  · have hdc : d ≠ c := fun hdc => hd (hdc ▸ hc)
    exact (update_of_ne hdc _ _).trans (h.outside d hd).1
  · by_cases hdc : d = c
    · rw [hdc]
      exact update_self _ _ _
    · exact (update_of_ne hdc _ _).trans (h.ready d hd)
  · have hn : object' ≠ object := fun he => h.not_carried hp d (he ▸ hd)
    obtain ⟨shared', hs', hco⟩ := h.fresh d object' hd
    exact ⟨shared', (update_of_ne hn _ _).trans hs', hco⟩
  · by_cases hn : object' = object
    · -- The ring is still there, so its counter is not zero, and there are as many holders.
      subst hn
      obtain ⟨left, hl⟩ := ne_none_iff_exists'.1 hh'
      have hl : update s.heap object' shared'.countDown object' = some left := hl
      have hco := hr.count object' left.refcount.toNat (by
        rw [comp_apply, hl, map_some])
      rw [update_self] at hl
      have hm := SharedInfo.map_countDown hpo
      rw [hl, map_some] at hm
      refine Or.inl (Nat.lt_of_lt_of_eq ?_ hco)
      split at hm
      · cases hm
      · rw [some.inj hm]
        omega
    · have hs : holders s.clients (update s.ptr c none) object' =
          holders s.clients s.ptr object' :=
        holders_update_of_ne (by rw [hp]; simpa using Ne.symm hn) (by simp)
      rw [SharedSt.holderCount, hs]
      exact h.used object' fun hno => hh' ((update_of_ne hn _ _).trans hno)

theorem Counted.release (h : Counted master s) (c : Nat) :
    ∃ s', s.memcachedKetamaRelease c = .ok s' ∧ Counted master s' ∧ s'.ptr c = none ∧
      s'.clients = s.clients ∧ s'.task = s.task ∧ s'.isPoolMaster = s.isPoolMaster := by
  cases hp : s.ptr c with
  | none =>
    refine ⟨s, ?_, h, hp, rfl, rfl, rfl⟩
    rw [SharedSt.memcachedKetamaRelease, hp]
  | some object =>
    obtain ⟨-, shared, hh, -⟩ := h.held hp
    refine ⟨_, ?_, h.detach hp hh, update_self _ _ _, rfl, rfl, rfl⟩
    rw [SharedSt.memcachedKetamaRelease, hp]
    simp only [hh]

/-- A client without a ring takes one that no other client is to set, and its task ends. -/
theorem Counted.attach (h : Counted master s) (hc : c ∈ s.clients) (hp : s.ptr c = none)
    (hh : s.heap object ≠ none) (ht : ∀ object', (s.task c).carried = some object' → object' = object)
    (hs : ∀ d, (s.task d).carried = some object → d = c) :
    Ends (fun _ => False) (fun s' => Counted master (s'.setTask c .idle)) (s.attach c object) := by
  obtain ⟨shared, hh⟩ := ne_none_iff_exists'.1 hh
  have hl : shared.refcount.toNat + 1 < 2 ^ 32 := by
    have hr : s.holderCount object < s.clients.card := card_holders_lt hc hp object
    have hco := h.refcount_eq hh
    have hf := h.few
    omega
  have hre := h.refs.attach hc hp (refs_of_heap hh)
  rw [← SharedInfo.toNat_countUp hl] at hre
  have hre := (refs_update s object (some shared.countUp)).symm ▸ hre
  rw [SharedSt.attach, hh]
  have hres : ∀ d object', ((SharedSt.setTask s c .idle).task d).carried = some object' →
      (s.task d).carried = some object' ∧ d ≠ c := by
    intro d object' hd
    by_cases hdc : d = c
    · rw [hdc, SharedSt.task_setTask_self] at hd
      cases hd
    · rw [SharedSt.task_setTask_of_ne s hdc] at hd
      exact ⟨hd, hdc⟩
  refine ⟨hre, h.few, fun d hd => ?_, ?_, fun d object' hd => ?_,
    fun d e object' hd he => h.single d e object' (hres d object' hd).1 (hres e object' he).1,
    fun object' hh' => ?_, h.pool, ?_⟩
  · have hdc : d ≠ c := fun hdc => hd (hdc ▸ hc)
    exact ⟨(update_of_ne hdc _ _).trans (h.outside d hd).1,
      (update_of_ne hdc _ _).trans (h.outside d hd).2⟩
  · refine (forall_update_iff s.task fun d task => task.released = true →
      update s.ptr c (some object) d = none).2 ⟨fun hid => (nomatch hid), fun d hdc hd => ?_⟩
    exact (update_of_ne hdc _ _).trans (h.ready d hd)
  · obtain ⟨hd, hdc⟩ := hres d object' hd
    have hn : object' ≠ object := fun heq => hdc (hs d (heq ▸ hd))
    obtain ⟨shared', hs', hco⟩ := h.fresh d object' hd
    exact ⟨shared', (update_of_ne hn _ _).trans hs', hco⟩
  · by_cases hn : object' = object
    · refine Or.inl (Finset.card_pos.2 ⟨c, mem_holders.2 ⟨hc, ?_⟩⟩)
      rw [hn]
      exact update_self _ _ _
    · have hsa : holders s.clients (update s.ptr c (some object)) object' =
          holders s.clients s.ptr object' :=
        holders_update_of_ne (by simp [hp]) (by simpa using Ne.symm hn)
      refine (h.used object' fun hno => hh' ((update_of_ne hn _ _).trans hno)).imp
        (fun hpo => Nat.lt_of_lt_of_eq hpo (congrArg Finset.card hsa).symm) fun ⟨d, hd⟩ => ⟨d, ?_⟩
      have hdc : d ≠ c := fun hdc => hn (ht object' (hdc ▸ hd))
      rw [SharedSt.task_setTask_of_ne _ hdc]
      exact hd
  · exact (forall_update_iff s.task fun _ task => task.joins = true → s.isPoolMaster = true).2
      ⟨fun hid => (nomatch hid), fun d _ => h.joining d⟩

theorem Counted.advance (h : Counted master s) (c : Nat) :
    Ends (fun _ => False) (Counted master) (s.advance master c) := by
  rw [SharedSt.advance]
  cases ht : s.task c with
  | idle => exact h
  | build object =>
    have hc : c ∈ s.clients := h.client_of_task (by rw [ht]; exact RingTask.noConfusion)
    obtain ⟨s', hr, h', hp, hcl, htas, -⟩ := h.release c
    rw [hr]
    refine h'.setTask (hcl ▸ hc) ?_ (fun _ => hp) fun hj => by cases hj
    rw [htas, ht]
    rfl
  | set object =>
    have hc : c ∈ s.clients := h.client_of_task (by rw [ht]; exact RingTask.noConfusion)
    have hca : (s.task c).carried = some object := by
      rw [ht]
      rfl
    have hp : s.ptr c = none := h.ready c (by rw [ht]; rfl)
    obtain ⟨shared, hh, -⟩ := h.fresh c object hca
    have hs : s.memcachedKetamaSet c object = s.attach c object := if_neg (not_not.2 hp)
    simp only [hs, ends_map]
    refine h.attach hc hp (by rw [hh]; exact some_ne_none _) (fun object' ho' => ?_)
      fun d hd => h.single d c object hd hca
    rw [hca] at ho'
    exact (some.inj ho').symm
  | join =>
    have hc : c ∈ s.clients := h.client_of_task (by rw [ht]; exact RingTask.noConfusion)
    have hpo := h.joining c (by rw [ht]; rfl)
    obtain ⟨s', hr, h', hp, hcl, htas, hm⟩ := h.release c
    rw [hr]
    refine h'.setTask (hcl ▸ hc) ?_ (fun _ => hp) fun _ => hm.trans hpo
    rw [htas, ht]
    rfl
  | reference =>
    have hc : c ∈ s.clients := h.client_of_task (by rw [ht]; exact RingTask.noConfusion)
    have hme : master ∈ s.clients := h.pool (h.joining c (by rw [ht]; rfl))
    have hp : s.ptr c = none := h.ready c (by rw [ht]; rfl)
    have hca : (s.task c).carried = none := by
      rw [ht]
      rfl
    rw [SharedSt.memcachedKetamaReference, if_neg (not_not.2 hp), if_neg (not_not.2 hme), ends_map]
    cases hri : s.ptr master with
    | none => exact h.setTask hc hca.symm (fun _ => hp) fun hj => by cases hj
    | some object =>
      obtain ⟨-, shared, hh, -⟩ := h.held hri
      refine h.attach hc hp (by rw [hh]; exact some_ne_none _) (fun object' ho' => ?_)
        fun d hd => absurd hd (h.not_carried hri d)
      rw [hca] at ho'
      cases ho'

theorem Counted.free (h : Counted master s) (ht : s.task c = .idle) :
    Ends (fun _ => False) (Counted master) (s.memcachedFree master c) := by
  rw [SharedSt.memcachedFree]
  split
  · exact h
  · next hm =>
    obtain ⟨s', hr, h', hp, hc, hta, hpo⟩ := h.release c
    rw [hr]
    refine ⟨h'.refs.leave hp, (Finset.card_erase_le).trans_lt h'.few, fun d hd => ?_, h'.ready, h'.fresh,
      h'.single, fun object hh => ?_, fun hp' => ?_, h'.joining⟩
    · by_cases hdc : d = c
      · rw [hdc]
        exact ⟨hp, hta ▸ ht⟩
      · exact h'.outside d fun hme => hd (Finset.mem_erase.2 ⟨hdc, hme⟩)
    · rw [SharedSt.holderCount, holders_erase hp]
      exact h'.used object hh
    · refine Finset.mem_erase.2 ⟨fun he => hm ⟨he.symm, ?_⟩, h'.pool hp'⟩
      rw [← hpo]
      exact hp'

theorem Counted.begin (h : Counted master s) (hc : c ∈ s.clients) (ht : s.task c = .idle)
    (hn : s.heap object = none) (garbage : SharedInfo) (hb : built ≠ .leaked) :
    Counted master (s.begin c object garbage built) := by
  cases built with
  | nothing => exact h
  | leaked => exact absurd rfl hb
  | ring info =>
    have hno : s.refs object = none := by
      rw [SharedSt.refs, comp_apply, hn]
      rfl
    have hr := (refs_update s object (some ⟨info, 0⟩)).symm ▸ h.refs.alloc hno
    have ho : ∀ d object', (s.task d).carried = some object' → object' ≠ object := by
      intro d object' hd heq
      obtain ⟨shared, hs, -⟩ := h.fresh d object' hd
      rw [heq, hn] at hs
      cases hs
    have hca : ∀ d object', (update s.task c (.build object) d).carried = some object' ↔
        d = c ∧ object' = object ∨ (s.task d).carried = some object' := by
      intro d object'
      by_cases hdc : d = c
      · rw [hdc, ht]
        simp [RingTask.carried, eq_comm]
      · simp [hdc]
    refine ⟨hr, h.few, fun d hd => ?_, ?_, fun d object' hd => ?_,
      fun d e object' hd he => ?_, fun object' hh => ?_, h.pool, ?_⟩
    · have hdc : d ≠ c := fun hdc => hd (hdc ▸ hc)
      exact ⟨(h.outside d hd).1, (update_of_ne hdc _ _).trans (h.outside d hd).2⟩
    · exact (forall_update_iff s.task fun d task => task.released = true → s.ptr d = none).2
        ⟨fun hbui => (nomatch hbui), fun d _ => h.ready d⟩
    · rcases (hca d object').1 hd with ⟨-, hob⟩ | hd
      · refine ⟨⟨info, 0⟩, ?_, rfl⟩
        rw [hob]
        exact update_self _ _ _
      · obtain ⟨shared, hs, hco⟩ := h.fresh d object' hd
        exact ⟨shared, (update_of_ne (ho d object' hd) _ _).trans hs, hco⟩
    · rcases (hca d object').1 hd with ⟨hdc, hob⟩ | hd
      · rcases (hca e object').1 he with ⟨hec, -⟩ | he
        · rw [hdc, hec]
        · exact absurd hob (ho e object' he)
      · rcases (hca e object').1 he with ⟨-, hob⟩ | he
        · exact absurd hob (ho d object' hd)
        · exact h.single d e object' hd he
    · by_cases hne : object' = object
      · exact Or.inr ⟨c, (hca c object').2 (Or.inl ⟨rfl, hne⟩)⟩
      · refine (h.used object' fun hno => hh ((update_of_ne hne _ _).trans hno)).imp id ?_
        rintro ⟨d, hd⟩
        exact ⟨d, (hca d object').2 (Or.inr hd)⟩
    · exact (forall_update_iff s.task fun _ task => task.joins = true → s.isPoolMaster = true).2
          ⟨fun hbui => (nomatch hbui), fun d _ => h.joining d⟩

theorem Counted.create (h : Counted master s) (hc : c ∉ s.clients)
    (hr : s.clients.card + 1 < 2 ^ 32) :
    Counted master { s with clients := insert c s.clients, ptr := Function.update s.ptr c none } := by
  have hp : s.ptr c = none := (h.outside c hc).1
  have hs : update s.ptr c none = s.ptr := by
    rw [← hp, update_eq_self]
  rw [hs]
  refine ⟨h.refs.enter hp, ?_, fun d hd => ?_, h.ready, h.fresh, h.single, fun object hh => ?_,
    fun hpo => ?_, h.joining⟩
  · rw [Finset.card_insert_of_notMem hc]
    exact hr
  · exact h.outside d fun hm => hd (Finset.mem_insert_of_mem hm)
  · rw [SharedSt.holderCount, holders_insert hp]
    exact h.used object hh
  · exact Finset.mem_insert_of_mem (h.pool hpo)

/-- A step that fits keeps the counters right, and fails only while a ring is built. -/
theorem Counted.step (h : Counted master s) (hf : op.Fits P s) :
    Ends (fun _ => ∃ c env mc object garbage, op = .update c env mc object garbage) (Counted master)
      (s.step P master op) := by
  cases op with
  | create c =>
    rw [SharedSt.step]
    split
    · exact h
    · next hc => exact h.create hc hf
  | update c env mc object garbage =>
    rw [SharedSt.step]
    split
    · next hp =>
      obtain ⟨hc, ht, hn⟩ := hp
      rw [ends_map]
      refine (buildKetama_ends P env mc).imp (fun _ _ => ⟨c, env, mc, object, garbage, rfl⟩) fun built hb => ?_
      exact h.begin hc ht (isNone_iff_eq_none.1 hn) garbage (hb hf)
    · exact h
  | join c =>
    rw [SharedSt.step]
    split
    · next hp =>
      obtain ⟨hc, ht, -, hpoo⟩ := hp
      refine h.setTask hc ?_ (fun hr => nomatch hr) fun _ => hpoo
      rw [ht]
      rfl
    · exact h
  | advance c => exact (h.advance c).imp (fun _ hfa => hfa.elim) fun _ h' => h'
  | free c =>
    rw [SharedSt.step]
    split
    · next hp => exact (h.free hp.2).imp (fun _ hfa => hfa.elim) fun _ h' => h'
    · exact h
  | poolCreate =>
    exact ⟨h.refs, h.few, h.outside, h.ready, h.fresh, h.single, h.used, fun hpoo => of_decide_eq_true hpoo,
      fun c hj => decide_eq_true (h.pool (h.joining c hj))⟩
  | poolDestroy =>
    rw [SharedSt.step]
    split
    · next hnone =>
      refine ⟨h.refs, h.few, h.outside, h.ready, h.fresh, h.single, h.used, fun hpoo => (nomatch hpoo),
        fun c hj => ?_⟩
      have hc : c ∈ s.clients := h.client_of_task fun hid => by
        rw [hid] at hj
        cases hj
      rw [hnone c hc] at hj
      cases hj
    · exact h

/-! ## Runs -/

theorem attach_task (s : SharedSt) (c object : Nat) :
    Ends (fun _ => True) (fun t => t.task = s.task) (s.attach c object) := by
  rw [SharedSt.attach]
  cases s.heap object with
  | none => trivial
  | some shared => rfl

theorem release_task (s : SharedSt) (c : Nat) :
    Ends (fun _ => True) (fun t => t.task = s.task) (s.memcachedKetamaRelease c) := by
  rw [SharedSt.memcachedKetamaRelease]
  cases s.ptr c with
  | none => rfl
  | some object =>
    simp only
    cases s.heap object with
    | none => trivial
    | some shared => rfl

/-- The ring that a call of an update leaves to be set was to be set before. -/
theorem advance_carried (s : SharedSt) (c d object : Nat) :
    Ends (fun _ => True) (fun t => (t.task d).carried = some object → (s.task d).carried = some object)
      (s.advance master c) := by
  have hs : ∀ (t : SharedSt) (task : RingTask), t.task = s.task →
      (∀ object, task.carried = some object → (s.task c).carried = some object) →
      ((t.setTask c task).task d).carried = some object → (s.task d).carried = some object := by
    intro t task hta htas hd
    by_cases hdc : d = c
    · rw [hdc, SharedSt.task_setTask_self] at hd
      rw [hdc]
      exact htas object hd
    · rwa [SharedSt.task_setTask_of_ne t hdc, hta] at hd
  rw [SharedSt.advance]
  cases htas : s.task c with
  | idle => exact fun hd => hd
  | build object' =>
    rw [ends_map]
    refine (release_task s c).imp (fun _ h => h) fun t ht => hs t _ ht fun object ho => ?_
    rw [htas]
    exact ho
  | set object' =>
    have hn : ∀ object, RingTask.idle.carried = some object → (s.task c).carried = some object :=
      fun _ h => by cases h
    simp only [ends_map, SharedSt.memcachedKetamaSet]
    split
    · trivial
    · exact (attach_task s c object').imp (fun _ h => h) fun t ht => hs t _ ht hn
  | join =>
    rw [ends_map]
    exact (release_task s c).imp (fun _ h => h) fun t ht => hs t _ ht fun _ h => by cases h
  | reference =>
    have hn : ∀ object, RingTask.idle.carried = some object → (s.task c).carried = some object :=
      fun _ h => by cases h
    simp only [ends_map, SharedSt.memcachedKetamaReference]
    split
    · trivial
    · split
      · trivial
      · cases s.ptr master with
        | none => exact hs s _ rfl hn
        | some object' => exact (attach_task s c object').imp (fun _ h => h) fun t ht => hs t _ ht hn

/-- A ring that is to be set after a step was to be set before, or is new. -/
theorem step_carried (P : Platform) (master : Nat) (s : SharedSt) (op : RingOp) (d object : Nat) :
    Ends (fun _ => True) (fun t => (t.task d).carried = some object →
      (s.task d).carried = some object ∨ s.heap object = none) (s.step P master op) := by
  cases op with
  | create c | poolDestroy =>
    rw [SharedSt.step]
    split <;> exact Or.inl
  | update c env mc object' garbage =>
    rw [SharedSt.step]
    split
    · next hpossible =>
      rw [ends_map]
      refine (buildKetama_ends P env mc).imp (fun _ _ => trivial) fun built _ => ?_
      cases built with
      | nothing | leaked => exact Or.inl
      | ring info =>
        intro hd
        by_cases hdc : d = c
        · rw [hdc, SharedSt.begin, SharedSt.task_setTask_self] at hd
          rw [← some.inj hd]
          exact Or.inr (isNone_iff_eq_none.1 hpossible.2.2)
        · rw [SharedSt.begin, SharedSt.task_setTask_of_ne _ hdc] at hd
          exact Or.inl hd
    · exact Or.inl
  | join c =>
    rw [SharedSt.step]
    split
    · intro hd
      by_cases hdc : d = c
      · rw [hdc, SharedSt.task_setTask_self] at hd
        cases hd
      · rw [SharedSt.task_setTask_of_ne s hdc] at hd
        exact Or.inl hd
    · exact Or.inl
  | advance c => exact (advance_carried s c d object).imp (fun _ h => h) fun t ht hd => Or.inl (ht hd)
  | free c =>
    rw [SharedSt.step]
    split
    · rw [SharedSt.memcachedFree]
      split
      · exact Or.inl
      · rw [ends_map]
        refine (release_task s c).imp (fun _ h => h) fun t ht hd => Or.inl ?_
        rw [← ht]
        exact hd
    · exact Or.inl
  | poolCreate => exact Or.inl

def RingStep (P : Platform) (master : Nat) (s t : SharedSt) : Prop :=
  ∃ op : RingOp, op.Fits P s ∧ s.step P master op = .ok t

theorem Counted.of_run (hr : Relation.ReflTransGen (RingStep P master) SharedSt.start s) :
    Counted master s := by
  refine Runs.run_invariant (fun s t hs hst => ?_) (Counted.start master) hr
  obtain ⟨op, hf, ho⟩ := hst
  exact (hs.step hf).of_eq_ok ho

theorem Counted.holderCount_pos_iff (h : Counted master s) :
    0 < s.holderCount object ↔ ∃ c, s.ptr c = some object := by
  rw [SharedSt.holderCount, Finset.card_pos]
  constructor
  · rintro ⟨c, hc⟩
    exact ⟨c, (mem_holders.1 hc).2⟩
  · rintro ⟨c, hc⟩
    exact ⟨c, mem_holders.2 ⟨(h.held hc).1, hc⟩⟩

/-- In every state of a run whose steps fit: a ring that is there counts its holders, a ring is there
if it is held or about to be set, a held ring is freed by the step that takes its last holder, and
no call on the rings fails. -/
theorem ring_refcounts (P : Platform) (master : Nat) {s : SharedSt}
    (hrun : Relation.ReflTransGen (RingStep P master) SharedSt.start s) :
    (∀ object shared, s.heap object = some shared → shared.refcount.toNat = s.holderCount object) ∧
    (∀ object, s.heap object ≠ none ↔
      0 < s.holderCount object ∨ ∃ c, (s.task c).carried = some object) ∧
    (∀ t object, RingStep P master s t → 0 < s.holderCount object →
      (t.heap object = none ↔ t.holderCount object = 0)) ∧
    ∀ op f, op.Fits P s → s.step P master op = .error f →
      ∃ c env mc object garbage, op = .update c env mc object garbage ∧ buildKetama P env mc = .error f := by
  have h : Counted master s := Counted.of_run hrun
  refine ⟨fun _ _ => h.refcount_eq, fun object => ⟨h.used object, ?_⟩, fun t object hs hh => ?_,
    fun op f hf ho => ?_⟩
  · rintro (hh | ⟨c, hc⟩) hn
    · obtain ⟨c, hp⟩ := h.holderCount_pos_iff.1 hh
      obtain ⟨-, shared, hhea, -⟩ := h.held hp
      rw [hn] at hhea
      cases hhea
    · obtain ⟨shared, hhea, -⟩ := h.fresh c object hc
      rw [hn] at hhea
      cases hhea
  · obtain ⟨op, hf, ho⟩ := hs
    have ht : Counted master t := (h.step hf).of_eq_ok ho
    obtain ⟨c, hp⟩ := h.holderCount_pos_iff.1 hh
    obtain ⟨-, shared, hhea, -⟩ := h.held hp
    constructor
    · intro hn
      by_contra hpo
      obtain ⟨d, hd⟩ := ht.holderCount_pos_iff.1 (Nat.pos_of_ne_zero hpo)
      obtain ⟨-, shared', hh', -⟩ := ht.held hd
      rw [hn] at hh'
      cases hh'
    · intro hz
      by_contra hth
      -- Without a holder it would have to be a new ring, but it is not.
      rcases ht.used object hth with hpo | ⟨d, hd⟩
      · omega
      · rcases (step_carried P master s op d object).of_eq_ok ho hd with hol | hne
        · exact h.not_carried hp d hol
        · rw [hne] at hhea
          cases hhea
  · obtain ⟨c, env, mc, object, garbage, rfl⟩ := (h.step hf).of_eq_error ho
    refine ⟨c, env, mc, object, garbage, rfl, ?_⟩
    rw [SharedSt.step] at ho
    split at ho
    · cases hb : buildKetama P env mc with
      | ok built =>
        rw [hb] at ho
        cases ho
      | error e =>
        rw [hb] at ho
        cases ho
        rfl
    · cases ho

end Steps

def oneHost (host : Server) : Memcached :=
  { memcachedCreate .consistentKetamaSpy ⟨false, false, false, false⟩ with servers := [host] }

theorem ketamaFits_oneHost_iff (P : Platform) (he : env.Ok) (host : Server) :
    KetamaFits P env (oneHost host) ↔
      ∀ i < 40, (serverSortHost .consistentKetamaSpy host i).length < maxHostSortLength := by
  have hp : ∀ now, (serverRing (oneHost host) now).pps P (oneHost host).ketama.weighted [host] host = 160 :=
    fun now => pointerPerServer_of_same rfl _
  obtain ⟨now, hn⟩ := isSome_iff_exists.1 he.gettimeofday
  constructor
  · intro hf i hi
    refine hf now hn he.mallocInfo he.mallocContinuum host (mem_singleton_self _) i ?_
    exact (hp now).symm ▸ hi
  · intro hf now _ _ _ a ha i hi
    obtain rfl : a = host := mem_singleton.1 ha
    refine hf i ?_
    rw [← show 160 / 4 = 40 from rfl]
    exact hi

theorem buildKetama_oneHost (he : env.Ok) (hf : KetamaFits P env (oneHost host)) :
    ∃ info, buildKetama P env (oneHost host) = .ok (.ring info) := by
  obtain ⟨now, hn⟩ := isSome_iff_exists.1 he.gettimeofday
  have hs := newKetamaInfo_isSome_iff.2 (hf now hn he.mallocInfo he.mallocContinuum)
  obtain ⟨info, hin⟩ := isSome_iff_exists.1 hs
  refine ⟨info, ?_⟩
  have hb : buildContinuum P env (oneHost host) = .ring info := by
    rw [buildContinuum, hn]
    simp only [buildRing, he.mallocInfo, he.mallocContinuum, hin]
    rfl
  exact congrArg Except.ok hb

theorem step_update {s : SharedSt} (hc : c ∈ s.clients) (ht : s.task c = .idle)
    (hn : s.heap object = none)
    (hb : buildKetama P env mc = .ok built) (garbage : SharedInfo) :
    s.step P master (.update c env mc object garbage) = .ok (s.begin c object garbage built) := by
  rw [SharedSt.step, if_pos ⟨hc, ht, isNone_iff_eq_none.2 hn⟩, hb]
  rfl

/-- The master of a pool builds a ring, and a member takes it.  The ring counts both. -/
theorem ring_refcounts_shared :
    ∃ s, Relation.ReflTransGen (RingStep (Platform.ofMd5 fun _ _ => 0) 0) SharedSt.start s ∧
      s.ptr 0 = some 7 ∧ s.ptr 1 = some 7 ∧ s.holderCount 7 = 2 ∧
        ∃ shared, s.heap 7 = some shared ∧ shared.refcount.toNat = s.holderCount 7 := by
  have hf : KetamaFits (Platform.ofMd5 fun _ _ => 0) Env.granted (oneHost default) := by
    rw [ketamaFits_oneHost_iff _ Env.granted_ok]
    decide
  obtain ⟨info, hb⟩ := buildKetama_oneHost Env.granted_ok hf
  have hr := Relation.ReflTransGen.refl (r := RingStep (Platform.ofMd5 fun _ _ => 0) 0)
    (a := SharedSt.start)
    |>.tail ⟨.create 0, (by change 0 + 1 < 2 ^ 32; decide), rfl⟩
    |>.tail ⟨.update 0 Env.granted (oneHost default) 7 ⟨info, 3⟩, hf,
      step_update (by decide) rfl rfl hb ⟨info, 3⟩⟩
    |>.tail ⟨.advance 0, trivial, rfl⟩ |>.tail ⟨.advance 0, trivial, rfl⟩
    |>.tail ⟨.poolCreate, trivial, rfl⟩
    |>.tail ⟨.create 1, (by change 1 + 1 < 2 ^ 32; decide), rfl⟩
    |>.tail ⟨.join 1, trivial, rfl⟩
    |>.tail ⟨.advance 1, trivial, rfl⟩ |>.tail ⟨.advance 1, trivial, rfl⟩
  exact ⟨_, hr, rfl, rfl, rfl, _, rfl, (ring_refcounts _ 0 hr).1 7 _ rfl⟩

def longHost : Server :=
  serverInit ⟨List.replicate 100 (ofChar 'a'), by rw [isValidServername, List.length_replicate]; rfl⟩ 0 0 .tcp

theorem not_ketamaFits_longHost (P : Platform) : ¬KetamaFits P Env.granted (oneHost longHost) := by
  rw [ketamaFits_oneHost_iff P Env.granted_ok]
  intro hf
  have hs := hf 0 (by omega)
  rw [serverSortHost, if_neg fun h => h.2 rfl, append_assoc, length_append] at hs
  have hl : longHost.hostname.1.length = 100 := length_replicate
  change 100 + _ < 86 at hs
  omega

/-- A ring for a host whose name is too long is given up, and stays, with what its memory held. -/
theorem ring_leaks :
    ∃ s t : SharedSt, SharedSt.start.step (Platform.ofMd5 fun _ _ => 0) 0 (.create 0) = .ok s ∧
      s.step (Platform.ofMd5 fun _ _ => 0) 0
        (.update 0 Env.granted (oneHost longHost) 7 ⟨⟨[], 0⟩, 3⟩) = .ok t ∧
      t.task 0 = .idle ∧ t.holderCount 7 = 0 ∧ (t.heap 7).map SharedInfo.refcount = some 3 := by
  have hl : buildKetama (Platform.ofMd5 fun _ _ => 0) Env.granted (oneHost longHost) = .ok .leaked := by
    by_contra hn
    refine not_ketamaFits_longHost (Platform.ofMd5 fun _ _ => 0) fun now hno => ?_
    cases hno
    exact (buildRing_ne_leaked_iff _ _ Env.granted _ _).1 fun hb => hn (congrArg Except.ok hb)
  exact ⟨_, _, rfl, step_update (by decide) rfl rfl hl ⟨⟨[], 0⟩, 3⟩, rfl, rfl, rfl⟩

end ArcusClient
