import ArcusClient.Hosts.Continuum
import ArcusClient.Lib.ConsistentHash
import ArcusClient.Lib.Numerals

/-!
# The ring as a set of points

The array a ring builder leaves behind holds, in sorted order, four points for each string of each
live host (`newKetamaInfo_spec`).  `dispatch_host` searches it for the owner of a hash in the sense of
`ConsistentHash.Owns` (`dispatchContinuum_owns`).  From here on no result depends on the array, on
`qsort` or on the search.
-/

namespace ArcusClient

open CString ConsistentHash List RingHosts Wrapping

/-! ## Comparison functions by name -/

/-- `compare_server_hostport` compares the strings `host:port`, also where it
does not build them. -/
theorem compareServerHostport_eq_strcmp (a b : Server) :
    compareServerHostport a b = strcmp (hostport a) (hostport b) := by
  by_cases hh : strcmp a.hostname b.hostname = 0
  · have he := (strcmp_eq_zero_iff _ _).1 hh
    rw [compareServerHostport, if_pos hh, hostport, hostport, he, strcmp_append_left,
      strcmp, if_pos rfl]
  · rw [compareServerHostport, if_neg hh]
    split
    · rfl
    · next hlen =>
        have hn : (a.hostname : CStr) ≠ b.hostname := fun e => hh ((strcmp_eq_zero_iff _ _).2 e)
        exact (strcmp_append_of_length_eq _ _ (not_not.1 hlen) hn).symm

theorem compareServerHostport_byKey : CmpByKey compareServerHostport hostport := fun a b => by
  rw [compareServerHostport_eq_strcmp, strcmp_le_iff]

/-- `MEMCACHED_NI_MAXSERV`, the size of a buffer for a port. -/
def niMaxServ : Nat := 32

/-- The strings `host:port` fit the buffers they are compared in. -/
theorem length_hostport_lt (s : Server) : (hostport s).length < niMaxHost + niMaxServ := by
  have hh : s.hostname.1.length < niMaxHost := of_decide_eq_true s.hostname.2
  have hp := length_decimal_le (k := 5) (by decide) (show s.port.toNat < 10 ^ 5 by
    have := s.port.toNat_lt
    omega)
  rw [hostport, length_append, length_cons, Server.strPort, niMaxServ]
  omega

/-- The order of servers whose points collide is that of the strings `host:port`. -/
theorem tie_break_by_hostport :
    (∀ a b : Server, (compareServerHostport a b).sign = (strcmp (hostport a) (hostport b)).sign) ∧
    (∀ s : Server, (hostport s).length < niMaxHost + niMaxServ) ∧
    CmpTotal compareServerHostport ∧ CmpTrans compareServerHostport ∧
    (∀ a b : Server, compareServerHostport a b = 0 ↔ hostport a = hostport b) ∧
    ∀ (mc : Memcached) (now value i j : Nat) (servers : List Server),
      (continuumItemCmp (serverRing mc now) servers ⟨i, value⟩ ⟨j, value⟩).sign =
        (strcmp (hostport (servers.getD i default)) (hostport (servers.getD j default))).sign := by
  refine ⟨fun a b => ?_, length_hostport_lt, fun a b => ?_, fun a b c ha hb => ?_, fun a b => ?_,
    fun mc now value i j servers => ?_⟩
  · rw [compareServerHostport_eq_strcmp]
  · rw [compareServerHostport_byKey, compareServerHostport_byKey]
    exact le_total _ _
  · rw [compareServerHostport_byKey] at ha hb ⊢
    exact ha.trans hb
  · rw [compareServerHostport_eq_strcmp, strcmp_eq_zero_iff]
  · rw [continuumItemCmp, if_pos rfl]
    exact congrArg Int.sign (compareServerHostport_eq_strcmp _ _)

theorem doRgroupCompare_byKey : CmpByKey doRgroupCompare Rgroup.groupname := fun _ _ =>
  strcmp_le_iff _ _

/-! ## The points that are placed -/

section Points

variable {α : Type} {P : Platform} {ring : RingHosts α}

/-- The point `p` was placed for `host`, from one of its `pps` strings. -/
def PlacedFor (P : Platform) (ring : RingHosts α) (pps : Nat) (host : α) (value : Nat) : Prop :=
  ∃ i < pps / 4, ∃ x, value = ketamaServerHash P.md5 (ring.sortHost host i) x

theorem mem_stringPoints :
    p ∈ stringPoints P k s ↔ p.index = k ∧ ∃ x, p.value = ketamaServerHash P.md5 s x := by
  obtain ⟨index, value⟩ := p
  simp only [stringPoints, mem_map, mem_finRange, true_and, ContinuumItem.mk.injEq]
  constructor
  · rintro ⟨x, rfl, rfl⟩
    exact ⟨rfl, x, rfl⟩
  · rintro ⟨rfl, x, rfl⟩
    exact ⟨x, rfl, rfl⟩

theorem length_stringPoints (k : Nat) (s : CStr) : (stringPoints P k s).length = 4 := by
  simp [stringPoints]

def RingHosts.Fits (ring : RingHosts α) (pps : Nat) (host : α) : Prop :=
  ∀ i < pps / 4, (ring.sortHost host i).length < maxHostSortLength

theorem placeHost_eq_some_iff : ∀ {is : List Nat} {points : List ContinuumItem},
    placeHost P ring host k is = some points ↔
      (∀ i ∈ is, (ring.sortHost host i).length < maxHostSortLength) ∧
        points = is.flatMap fun i => stringPoints P k (ring.sortHost host i)
  | [], points => by simp [placeHost]
  | i :: is, points => by
    rw [placeHost]
    split
    · next hlong => simp [not_lt.2 hlong]
    · next hshort =>
        simp only [Option.map_eq_some_iff, placeHost_eq_some_iff, forall_mem_cons]
        constructor
        · rintro ⟨rest, ⟨hf, rfl⟩, rfl⟩
          exact ⟨⟨not_le.1 hshort, hf⟩, rfl⟩
        · rintro ⟨⟨-, hf⟩, rfl⟩
          exact ⟨_, ⟨hf, rfl⟩, rfl⟩

/-- What the loop over `pointer_index` leaves for one host. -/
theorem placeHost_spec {pps : Nat} (h : placeHost P ring host k (List.range (pps / 4)) = some points) :
    points.length = pps / 4 * 4 ∧
      ∀ p, p ∈ points ↔ p.index = k ∧ PlacedFor P ring pps host p.value := by
  obtain ⟨-, rfl⟩ := placeHost_eq_some_iff.1 h
  refine ⟨?_, fun p => ?_⟩
  · simp [length_stringPoints]
  · simp only [mem_flatMap, mem_range, mem_stringPoints]
    constructor
    · rintro ⟨i, hi, hk, hx⟩
      exact ⟨hk, i, hi, hx⟩
    · rintro ⟨hk, i, hi, hx⟩
      exact ⟨i, hi, hk, hx⟩

theorem RingHosts.mem_live : a ∈ ring.live hosts ↔ a ∈ hosts ∧ ring.ejected a = false := by
  simp [live]

theorem RingHosts.live_cons (a : α) (hosts : List α) :
    ring.live (a :: hosts) = if ring.ejected a then ring.live hosts else a :: ring.live hosts := by
  cases he : ring.ejected a <;> simp [live, he]

/-- The ring is placed exactly when every string of every live host fits. -/
theorem placeHosts_isSome_iff {pps : α → Nat} : ∀ {hosts : List α} {k : Nat},
    (placeHosts P ring pps k hosts).isSome ↔ ∀ a ∈ ring.live hosts, ring.Fits (pps a) a
  | [], k => by simp [placeHosts, live]
  | a :: hosts, k => by
    have ih : (placeHosts P ring pps (k + 1) hosts).isSome ↔ _ := placeHosts_isSome_iff
    have hf : (placeHost P ring a k (range (pps a / 4))).isSome ↔ ring.Fits (pps a) a := by
      simp [Option.isSome_iff_exists, placeHost_eq_some_iff, Fits]
    rw [placeHosts, live_cons]
    cases he : ring.ejected a with
    | true => simpa using ih
    | false =>
      simp only [Bool.false_eq_true, if_false]
      rw [forall_mem_cons, ← hf, ← ih]
      cases placeHost P ring a k (range (pps a / 4)) <;>
        cases placeHosts P ring pps (k + 1) hosts <;> simp

/-- What the loop over `host_index` leaves: for each live host, at its place in
the array, the points of its strings. -/
theorem placeHosts_spec {pps : α → Nat} : ∀ {hosts : List α} {k : Nat}
    {points : List ContinuumItem},
    placeHosts P ring pps k hosts = some points →
      points.length = ((ring.live hosts).map fun a => pps a / 4 * 4).sum ∧
        ∀ p, p ∈ points ↔ ∃ j a, hosts[j]? = some a ∧ ring.ejected a = false ∧
          p.index = k + j ∧ PlacedFor P ring (pps a) a p.value
  | [], k, points, h => by
    obtain rfl : [] = points := by simpa [placeHosts] using h
    simp [live]
  | a :: hosts, k, points, h => by
    -- The head of the array is at `k`, its tail starts at `k + 1`.
    have shift (q : Nat → α → Prop) : (∃ j b, (a :: hosts)[j]? = some b ∧ q j b) ↔
        q 0 a ∨ ∃ j b, hosts[j]? = some b ∧ q (j + 1) b := by
      constructor
      · rintro ⟨_ | j, b, hb, hq⟩
        · obtain rfl : a = b := by simpa using hb
          exact .inl hq
        · exact .inr ⟨j, b, by simpa using hb, hq⟩
      · rintro (hq | ⟨j, b, hb, hq⟩)
        · exact ⟨0, a, rfl, hq⟩
        · exact ⟨j + 1, b, by simpa using hb, hq⟩
    rw [placeHosts] at h
    rw [live_cons]
    cases he : ring.ejected a with
    | true =>
      simp only [he] at h
      obtain ⟨hl, hm⟩ := placeHosts_spec h
      refine ⟨hl, fun p => ?_⟩
      rw [shift, hm]
      simp [he, Nat.add_comm, Nat.add_left_comm]
    | false =>
      simp only [he, Bool.false_eq_true, if_false, Option.bind_eq_bind, Option.bind_eq_some_iff,
        Option.pure_def, Option.some.injEq] at h
      obtain ⟨here, hh, rest, hr, rfl⟩ := h
      obtain ⟨hl, hm⟩ := placeHosts_spec hr
      obtain ⟨hl', hm'⟩ := placeHost_spec hh
      refine ⟨by simp [hl', hl], fun p => ?_⟩
      rw [mem_append, shift, hm, hm']
      simp [he, Nat.add_comm, Nat.add_left_comm]

theorem four_dvd_pointerPerServer (weighted : Bool) (weights : List Nat) (weight : Nat) :
    4 ∣ pointerPerServer P weighted weights weight := by
  rw [pointerPerServer]
  split
  · exact Nat.dvd_mul_left 4 _
  · decide

theorem pointerPerServer_of_same (h : allWeightsSame weights = true) (weight : Nat) :
    pointerPerServer P weighted weights weight = pointsPerServer := by
  simp [pointerPerServer, h]

theorem allWeightsSame_of_forall_eq : ∀ {weights : List Nat},
    (∀ x ∈ weights, x = w) → allWeightsSame weights = true
  | [], _ => rfl
  | first :: ws, h => by
    obtain ⟨rfl, hw⟩ := forall_mem_cons.1 h
    simpa [allWeightsSame] using hw

/-- A point known by its value and the name of its host. -/
def pointKey [Inhabited α] (name : α → CStr) (hosts : List α) (p : ContinuumItem) : Nat ×ₗ CStr :=
  toLex (p.value, name (hosts.getD p.index default))

/-- `continuum_item_cmp` orders points by their value, and those of one value by
the name of their host. -/
theorem continuumItemCmp_byKey [Inhabited α] {name : α → CStr} (h : CmpByKey ring.tie name)
    (hosts : List α) : CmpByKey (continuumItemCmp ring hosts) (pointKey name hosts) := by
  intro p q
  rw [continuumItemCmp, pointKey, pointKey, Prod.Lex.toLex_le_toLex]
  by_cases he : p.value = q.value
  · simp [he, h _ _]
  · by_cases hl : q.value < p.value
    · simp [he, hl, Nat.le_of_lt hl]
    · have : p.value < q.value := by omega
      simp [he, hl, this]

structure RingOf [Inhabited α] (P : Platform) (ring : RingHosts α) (weighted : Bool)
    (hosts : List α) (info : KetamaInfo) : Prop where
  /-- The counter counts the points. -/
  counter : info.continuumPointsCounter = info.continuum.length
  length : info.continuum.length = ((ring.live hosts).map (ring.pps P weighted hosts)).sum
  /-- The points are those of the live hosts, each at its place in the array. -/
  mem : ∀ p, p ∈ info.continuum ↔ ∃ a, hosts[p.index]? = some a ∧ ring.ejected a = false ∧
    PlacedFor P ring (ring.pps P weighted hosts a) a p.value
  /-- The points are sorted by value, then by the name of their host. -/
  sorted : ∀ name, CmpByKey ring.tie name →
    info.continuum.Pairwise fun p q => pointKey name hosts p ≤ pointKey name hosts q

theorem newKetamaInfo_isSome_iff [Inhabited α] {weighted : Bool} {hosts : List α} :
    (newKetamaInfo P ring weighted hosts).isSome ↔
      ∀ a ∈ ring.live hosts, ring.Fits (ring.pps P weighted hosts a) a := by
  rw [newKetamaInfo, Option.isSome_map]
  exact placeHosts_isSome_iff

/-- The state after `n` more points. -/
def ContinuumSt.after (n : Nat) (c : ContinuumSt) : ContinuumSt :=
  { c with
    continuumIndex := (c.continuumIndex + n) % 2 ^ 32
    writes := c.writes ++ (range n).map fun k => (c.continuumIndex + k) % 2 ^ 32 }

theorem ContinuumSt.writePoint_iterate (hc : c.continuumIndex < 2 ^ 32)
    (n : Nat) : writePoint^[n] c = c.after n := by
  induction n with
  | zero =>
    rw [after, Nat.add_zero, Nat.mod_eq_of_lt hc, range_zero, map_nil, append_nil]
    rfl
  | succ n ih =>
    rw [Function.iterate_succ_apply', ih]
    simp only [after, writePoint, range_succ, map_append, map_singleton, append_assoc,
      Nat.mod_add_mod, Nat.add_assoc]

theorem ContinuumSt.placeServer_eq {c : ContinuumSt} (hc : c.continuumIndex < 2 ^ 32) (hp : 4 ∣ p) :
    c.placeServer p = { c.after p with pointerCounter := (c.pointerCounter + p) % 2 ^ 32 } := by
  rw [placeServer, ← Function.iterate_mul, Nat.mul_div_cancel' hp, writePoint_iterate hc]
  rfl

theorem ContinuumSt.after_after (p q : Nat) (c : ContinuumSt) :
    (c.after p).after q = c.after (p + q) := by
  simp only [after, Nat.mod_add_mod, range_add, map_append, map_map, Function.comp_def, append_assoc,
    Nat.add_assoc]

/-- The loop advances both counters by the sum of the numbers. -/
theorem foldl_placeServer {shares : List Nat} {c : ContinuumSt} (hs : ∀ p ∈ shares, 4 ∣ p)
    (hi : c.continuumIndex < 2 ^ 32) (hp : c.pointerCounter < 2 ^ 32) :
    shares.foldl (fun c p => c.placeServer p) c = { c.after shares.sum with
        pointerCounter := (c.pointerCounter + shares.sum) % 2 ^ 32 } := by
  induction shares generalizing c with
  | nil =>
    rw [ContinuumSt.after, sum_nil, Nat.add_zero, Nat.add_zero,
      Nat.mod_eq_of_lt hi, Nat.mod_eq_of_lt hp, range_zero, map_nil, append_nil]
    rfl
  | cons p rest ih =>
    rw [foldl_cons, ContinuumSt.placeServer_eq hi (hs p mem_cons_self),
      ih (fun q hq => hs q (mem_cons_of_mem _ hq)) (Nat.mod_lt _ (by decide))
        (Nat.mod_lt _ (by decide)), sum_cons, ← c.after_after p rest.sum]
    simp only [Nat.mod_add_mod, Nat.add_assoc]
    rfl

theorem placeServers_eq {shares : List Nat} (hs : ∀ p ∈ shares, 4 ∣ p) :
    placeServers shares =
      ⟨shares.sum % 2 ^ 32, shares.sum % 2 ^ 32, (range shares.sum).map (· % 2 ^ 32)⟩ := by
  rw [placeServers, foldl_placeServer hs (by decide) (by decide)]
  simp [ContinuumSt.after]

/-- The points of the ring, in the order in which they are written, and what the array holds in
the end. -/
theorem newKetamaInfo_eq [Inhabited α] {weighted : Bool} {hosts : List α} {info : KetamaInfo}
    (h : newKetamaInfo P ring weighted hosts = some info) : ∃ points,
      placeHosts P ring (ring.pps P weighted hosts) 0 hosts = some points ∧
      points.length = ((ring.live hosts).map (ring.pps P weighted hosts)).sum ∧
      info.continuumPointsCounter = points.length % 2 ^ 32 ∧ info.continuum =
        P.qsort.run (continuumItemCmp ring hosts) ((wrapped (2 ^ 32) points).take (points.length % 2 ^ 32))
          ++ (wrapped (2 ^ 32) points).drop (points.length % 2 ^ 32) := by
  obtain ⟨points, hpo, hin⟩ := Option.map_eq_some_iff.1 h
  have hd : ∀ p ∈ (ring.live hosts).map (ring.pps P weighted hosts), 4 ∣ p := by
    intro p hp
    obtain ⟨a, -, rfl⟩ := mem_map.1 hp
    exact four_dvd_pointerPerServer _ _ _
  have hc : points.length = ((ring.live hosts).map (ring.pps P weighted hosts)).sum := by
    rw [(placeHosts_spec hpo).1]
    congr 1
    refine map_congr_left fun a _ => ?_
    exact Nat.div_mul_cancel (four_dvd_pointerPerServer _ _ _)
  have hs := placeServers_eq hd
  rw [hs, ← hc] at hin
  subst hin
  exact ⟨points, hpo, hc, rfl, rfl⟩

/-- The ring of fewer than `2 ^ 32` points. -/
theorem newKetamaInfo_spec [Inhabited α] {weighted : Bool} {hosts : List α} {info : KetamaInfo}
    (h : newKetamaInfo P ring weighted hosts = some info)
    (hs : ((ring.live hosts).map (ring.pps P weighted hosts)).sum < 2 ^ 32) :
    RingOf P ring weighted hosts info := by
  obtain ⟨points, hpo, hc, hco, hin⟩ := newKetamaInfo_eq h
  have hm := (placeHosts_spec hpo).2
  -- The counter is the number of points, so the whole array is sorted.
  have hr : info = ⟨P.qsort.run (continuumItemCmp ring hosts) points, points.length⟩ := by
    rw [← hc] at hs
    rw [Nat.mod_eq_of_lt hs] at hco hin
    rw [wrapped_of_lt points hs, take_length, drop_length, append_nil] at hin
    rw [← hco, ← hin]
  subst hr
  refine ⟨(Qsort.length_run _ _ _).symm, (Qsort.length_run _ _ _).trans hc, fun p => ?_, ?_⟩
  · rw [Qsort.mem_run, hm]
    constructor
    · rintro ⟨j, a, ha, he, hj, hp⟩
      obtain rfl : j = p.index := by omega
      exact ⟨a, ha, he, hp⟩
    · rintro ⟨a, ha, he, hp⟩
      exact ⟨p.index, a, ha, he, by omega, hp⟩
  · exact fun name hn => P.qsort.sorted_key (continuumItemCmp_byKey hn hosts) points

end Points

/-! ## The point that answers -/

theorem stepBack_eq_self {value : Nat → Nat} {hash : Nat} : ∀ {right : Nat},
    (∀ i < right, value i < hash) → stepBack value hash right = right
  | 0, _ => rfl
  | right + 1, h => by
    have : value right ≠ hash := (h right (Nat.lt_succ_self right)).ne
    rw [stepBack, if_neg this]

/-- The search ends at the first point at or after the hash, or at the first
point of all when there is none.  What is behind the points that are counted does not matter. -/
theorem dispatchContinuum_spec (hash : Nat) {points : List ContinuumItem} (others : List ContinuumItem)
    (hs : points.Pairwise fun p q => p.value ≤ q.value) (hn : points ≠ []) :
    ∃ r, ∃ hr : r < points.length,
      dispatchContinuum ⟨points ++ others, points.length⟩ hash = some (points[r]).index ∧
        ((hash ≤ (points[r]).value ∧
            ∀ i (hi : i < points.length), i < r → (points[i]).value < hash) ∨
          (r = 0 ∧ ∀ i (hi : i < points.length), (points[i]).value < hash)) := by
  have hg (i : Nat) (hi : i < points.length) : (points ++ others).getD i default = points[i] := by
    rw [getD_eq_getElem?_getD, getElem?_append_left hi, getElem?_eq_getElem hi, Option.getD_some]
  have hm : ∀ i j, i ≤ j → j < points.length →
      decide (((points ++ others).getD j default).value < hash) = true →
      decide (((points ++ others).getD i default).value < hash) = true := by
    intro i j hij hj hl
    rw [hg j hj, decide_eq_true_iff] at hl
    rw [hg i (by omega), decide_eq_true_iff]
    rcases Nat.eq_or_lt_of_le hij with rfl | hl'
    · exact hl
    · exact lt_of_le_of_lt (pairwise_iff_getElem.1 hs i j (by omega) hj hl') hl
  obtain ⟨hle, hb, ha⟩ := lowerBound_spec hm (Nat.zero_le _) (le_refl _)
    (Nat.sub_le _ _) (fun i hi => absurd hi (Nat.not_lt_zero i)) fun i hi hi' => by omega
  have hv (r : Nat) (hr : r < points.length) : (points ++ others)[r]?.map ContinuumItem.index =
      some (points[r]).index := by
    rw [getElem?_append_left hr, getElem?_eq_getElem hr, Option.map_some]
  rw [dispatchContinuum]
  generalize lowerBound _ points.length 0 points.length = right at hle hb ha ⊢
  by_cases he : right = points.length
  · -- Every point lies before the hash: the ring starts again.
    have hp : 0 < points.length := length_pos_of_ne_nil hn
    refine ⟨0, hp, ?_, .inr ⟨rfl, fun i hi => ?_⟩⟩
    · simp only [he, if_true, stepBack]
      exact hv 0 hp
    · have := hb i (by omega)
      rwa [hg i hi, decide_eq_true_iff] at this
  · have hl : right < points.length := by omega
    have hba : stepBack (fun i => ((points ++ others).getD i default).value) hash right = right :=
      stepBack_eq_self fun i hi => of_decide_eq_true (hb i hi)
    refine ⟨right, hl, ?_, .inl ⟨?_, fun i hi hir => ?_⟩⟩
    · simp only [he, if_false, hba]
      exact hv right hl
    · have := ha right (le_refl _) hl
      rwa [hg right hl, decide_eq_false_iff_not, not_lt] at this
    · have := hb i hir
      rwa [hg i hi, decide_eq_true_iff] at this

theorem dispatchContinuum_of_counter_eq_zero (hc : info.continuumPointsCounter = 0) (hash : Nat) :
    dispatchContinuum info hash = info.continuum.head?.map ContinuumItem.index := by
  rw [dispatchContinuum, hc, head?_eq_getElem?]
  rfl

/-- Only points that are sorted answer.  Each of them has a hash that it answers itself, or another one
of its value whose host has a smaller name. -/
theorem dispatchContinuum_sorted {α : Type} [Inhabited α] {ring : RingHosts α} {name : α → CStr}
    (hn : CmpByKey ring.tie name) (q : Qsort) (hosts : List α) {points : List ContinuumItem}
    (others : List ContinuumItem) (hne : points ≠ [])
    (hin : info = ⟨q.run (continuumItemCmp ring hosts) points ++ others, points.length⟩) :
    (∀ hash, ∃ p ∈ points, dispatchContinuum info hash = some p.index) ∧
      ∀ p₀ ∈ points, ∃ p ∈ points, dispatchContinuum info p₀.value = some p.index ∧
        p₀.value ≤ p.value ∧ pointKey name hosts p ≤ pointKey name hosts p₀ := by
  have hs := q.sorted_key (continuumItemCmp_byKey hn hosts) points
  have hv : (q.run (continuumItemCmp ring hosts) points).Pairwise fun p q => p.value ≤ q.value :=
    hs.imp fun hpq => (Prod.Lex.toLex_le_toLex.1 hpq).elim le_of_lt fun e => e.1.le
  have hne' : q.run (continuumItemCmp ring hosts) points ≠ [] := by
    rwa [← length_pos_iff, Qsort.length_run, length_pos_iff]
  rw [← Qsort.length_run q (continuumItemCmp ring hosts) points] at hin
  have hd (hash : Nat) := dispatchContinuum_spec hash others hv hne'
  rw [← hin] at hd
  constructor
  · intro hash
    obtain ⟨r, hr, ha, -⟩ := hd hash
    exact ⟨_, (q.mem_run _).1 (getElem_mem hr), ha⟩
  · intro p₀ hp
    obtain ⟨i, hi, rfl⟩ := mem_iff_getElem.1 ((q.mem_run (continuumItemCmp ring hosts)).2 hp)
    obtain ⟨r, hr, ha, ⟨hge, hb⟩ | ⟨-, hal⟩⟩ := hd (q.run (continuumItemCmp ring hosts) points)[i].value
    · refine ⟨_, (q.mem_run _).1 (getElem_mem hr), ha, hge, ?_⟩
      have hri : r ≤ i := not_lt.1 fun hir => lt_irrefl _ (hb i hi hir)
      rcases Nat.eq_or_lt_of_le hri with rfl | hlt
      · exact le_rfl
      · exact pairwise_iff_getElem.1 hs r i hr hi hlt
    · exact absurd (hal i hi) (lt_irrefl _)

/-- Whether `dispatch_host` looks into the ring. -/
def Distribution.usesRing : Distribution → Bool
  | .consistent | .consistentKetama | .consistentKetamaSpy => true
  | _ => false

/-- The search of `dispatch_host` ends, and the answer is the index of the first point of the array
at or after the hash, or that of the first point of all. -/
theorem dispatch_host_first {mc : Memcached} {info : KetamaInfo}
    (hdistribution : mc.distribution.usesRing = true) (hinfo : mc.ketama.info = some info)
    (hcounter : info.continuumPointsCounter = info.continuum.length)
    (hsorted : info.continuum.Pairwise fun p q => p.value ≤ q.value) (hne : info.continuum ≠ [])
    (random : Nat) (hash : UInt32) : (∃ rounds ≤ info.continuum.length, ∃ right,
      (searchRound fun middle => decide ((info.continuum.getD middle default).value < hash.toNat))^[rounds]
        (0, info.continuum.length) = (right, right)) ∧ dispatchHost mc random hash.toNat =
      ((info.continuum.find? fun p => hash.toNat ≤ p.value).or info.continuum.head?).map
        ContinuumItem.index := by
  have hd : dispatchHost mc random hash.toNat =
      dispatchContinuum ⟨info.continuum ++ [], info.continuum.length⟩ hash.toNat := by
    rw [dispatchHost, hinfo, append_nil, ← hcounter]
    cases hm : mc.distribution <;> rw [hm] at hdistribution <;> first | rfl | cases hdistribution
  obtain ⟨rounds, hr, he⟩ := lowerBound_ends
    (fun middle => decide ((info.continuum.getD middle default).value < hash.toNat))
    (Nat.zero_le info.continuum.length) (le_refl _)
  refine ⟨⟨rounds, hr, _, he⟩, ?_⟩
  rw [hd]
  obtain ⟨r, hl, hi, ⟨hg, hb⟩ | ⟨rfl, ha⟩⟩ := dispatchContinuum_spec hash.toNat [] hsorted hne
  · have hf : info.continuum.find? (fun p => hash.toNat ≤ p.value) = some info.continuum[r] := by
      rw [find?_eq_some_iff_getElem]
      refine ⟨decide_eq_true hg, r, hl, rfl, fun j hj => ?_⟩
      simpa using hb j (hj.trans hl) hj
    rw [hi, hf, Option.some_or, Option.map_some]
  · have hf : info.continuum.find? (fun p => hash.toNat ≤ p.value) = none := by
      rw [find?_eq_none]
      intro p hp
      obtain ⟨i, hi, rfl⟩ := mem_iff_getElem.1 hp
      simpa using ha i hi
    rw [hi, hf, Option.none_or, head?_eq_getElem?, getElem?_eq_getElem hl, Option.map_some]

/-- Two points collide at the hash, and the first one answers. -/
theorem dispatch_host_first_collision :
    dispatchHost { memcachedCreate .consistentKetamaSpy ⟨false, false, false, false⟩ with
        ketama.info := some ⟨[⟨0, 3⟩, ⟨1, 5⟩, ⟨2, 5⟩, ⟨3, 9⟩], 4⟩ } 0 5 = some 1 :=
  (@dispatch_host_first _ ⟨[⟨0, 3⟩, ⟨1, 5⟩, ⟨2, 5⟩, ⟨3, 9⟩], 4⟩ rfl rfl rfl (by decide)
    (by decide) 0 5).2.trans (by decide)

section Owner

variable {α : Type} [Inhabited α] {P : Platform} {ring : RingHosts α} {weighted : Bool}
  {hosts : List α} {info : KetamaInfo} {name : α → CStr}

/-- The points of a ring, each known by its value and the name of its host.  The
place of a host in the array does not enter. -/
def ringKeys (P : Platform) (ring : RingHosts α) (name : α → CStr) (weighted : Bool)
    (hosts : List α) : Set (Nat ×ₗ CStr) :=
  { k | ∃ a ∈ ring.live hosts, ∃ v, PlacedFor P ring (ring.pps P weighted hosts a) a v ∧
      k = toLex (v, name a) }

/-- A point of the array belongs to the live host at its index. -/
theorem RingOf.host (h : RingOf P ring weighted hosts info) (name : α → CStr)
    (hp : p ∈ info.continuum) : ∃ a ∈ ring.live hosts, hosts[p.index]? = some a ∧
      PlacedFor P ring (ring.pps P weighted hosts a) a p.value ∧
        pointKey name hosts p = toLex (p.value, name a) := by
  obtain ⟨a, ha, he, hv⟩ := (h.mem p).1 hp
  refine ⟨a, mem_live.2 ⟨mem_of_getElem? ha, he⟩, ha, hv, ?_⟩
  simp [pointKey, ha]

theorem RingOf.keys (h : RingOf P ring weighted hosts info) (k : Nat ×ₗ CStr) :
    k ∈ ringKeys P ring name weighted hosts ↔ ∃ p ∈ info.continuum, pointKey name hosts p = k := by
  constructor
  · rintro ⟨a, ha, v, hv, rfl⟩
    obtain ⟨hm, he⟩ := mem_live.1 ha
    obtain ⟨i, hi⟩ := mem_iff_getElem?.1 hm
    have hp : (⟨i, v⟩ : ContinuumItem) ∈ info.continuum := (h.mem _).2 ⟨a, hi, he, hv⟩
    exact ⟨⟨i, v⟩, hp, by simp [pointKey, hi]⟩
  · rintro ⟨p, hp, rfl⟩
    obtain ⟨a, ha, -, hv, hk⟩ := h.host name hp
    exact ⟨a, ha, p.value, hv, hk⟩

/-- `dispatch_host` answers with the host that owns the hash on the ring. -/
theorem RingOf.dispatch_owns (h : RingOf P ring weighted hosts info) (hn : CmpByKey ring.tie name)
    (hne : info.continuum ≠ []) (hash : Nat) :
    ∃ i a v, dispatchContinuum info hash = some i ∧ hosts[i]? = some a ∧ ring.ejected a = false ∧
      Owns (ringKeys P ring name weighted hosts) hash (toLex (v, name a)) := by
  have hs := h.sorted name hn
  have hv : info.continuum.Pairwise fun p q => p.value ≤ q.value :=
    hs.imp fun hpq => (Prod.Lex.toLex_le_toLex.1 hpq).elim le_of_lt fun e => e.1.le
  obtain ⟨r, hr, hd, hpo⟩ := dispatchContinuum_spec hash [] hv hne
  rw [append_nil, ← h.counter] at hd
  obtain ⟨a, ha, hid, -, hke⟩ := h.host name (getElem_mem hr)
  refine ⟨_, a, (info.continuum[r]).value, hd, hid, (mem_live.1 ha).2, ?_⟩
  -- The keys before the point found are below the hash; the point is not above those after it.
  have hl : ∀ i (hi : i < info.continuum.length), r ≤ i →
      pointKey name hosts info.continuum[r] ≤ pointKey name hosts info.continuum[i] := by
    intro i hi hri
    rcases Nat.eq_or_lt_of_le hri with rfl | hlt
    · exact le_refl _
    · exact pairwise_iff_getElem.1 hs r i hr hi hlt
  have hm : toLex ((info.continuum[r]).value, name a) ∈ ringKeys P ring name weighted hosts :=
    (h.keys _).2 ⟨_, getElem_mem hr, hke⟩
  rcases hpo with ⟨hg, hb⟩ | ⟨rfl, hal⟩
  · refine .inl ⟨⟨hm, hg⟩, ?_⟩
    rintro k ⟨hk, hh⟩
    obtain ⟨p, hp, rfl⟩ := (h.keys k).1 hk
    obtain ⟨i, hi, rfl⟩ := mem_iff_getElem.1 hp
    rw [← hke]
    refine hl i hi (not_lt.1 fun hlt => ?_)
    exact absurd (hb i hi hlt) (not_lt.2 hh)
  · refine .inr ⟨fun k hk => ?_, hm, fun k hk => ?_⟩
    · obtain ⟨p, hp, rfl⟩ := (h.keys k).1 hk
      obtain ⟨i, hi, rfl⟩ := mem_iff_getElem.1 hp
      exact hal i hi
    · obtain ⟨p, hp, rfl⟩ := (h.keys k).1 hk
      obtain ⟨i, hi, rfl⟩ := mem_iff_getElem.1 hp
      rw [← hke]
      exact hl i hi (Nat.zero_le i)

end Owner

end ArcusClient
