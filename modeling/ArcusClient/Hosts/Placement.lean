import ArcusClient.Hosts.Ring
import Mathlib.Data.List.GetD

/-!
# Placement on an unweighted ring

Where all weights are equal and no host is ejected, the points of the ring depend on the set of hosts
only.  So two clients that know the same servers send a key to the same server, and a server that joins
takes keys for itself only.  Both hold as long as there are fewer than `2 ^ 32` points
(`placement_agrees_iff`, `placement_minimal_disruption_iff`).  From there on the counters of
`update_continuum` wrap around, and the ring has the points of the last hosts of the array
(`Plain.answers`).

A host enters through its identity: the address of a server, the name of a group.  `Plain` says that
a ring builder reads nothing else.
-/

namespace ArcusClient

open CString ConsistentHash List Wrapping

/-! ## Rings over identities -/

section Plain

variable {α ν : Type} [Inhabited α]

/-- A ring builder that treats the hosts of an array by their identity: `text`
gives the strings that are hashed, `nm` the name that orders colliding points. -/
structure Plain (ring : RingHosts α) (ident : α → ν) (text : ν → Nat → CStr) (nm : ν → CStr)
    (hosts : List α) : Prop where
  sortHost : ∀ a i, ring.sortHost a i = text (ident a) i
  tie : CmpByKey ring.tie fun a => nm (ident a)
  live : ∀ a ∈ hosts, ring.ejected a = false
  unweighted : ∀ a ∈ hosts, ring.weight a = 1
  fits : ∀ a ∈ hosts, ∀ i < pointsPerServer / 4, (ring.sortHost a i).length < maxHostSortLength

def plainKeys (md5 : CStr → Fin 16 → Fin 256) (text : ν → Nat → CStr) (nm : ν → CStr)
    (ids : Set ν) : Set (Nat ×ₗ CStr) :=
  { k | ∃ d ∈ ids, ∃ i < pointsPerServer / 4, ∃ x,
      k = toLex (ketamaServerHash md5 (text d i) x, nm d) }

variable {ring : RingHosts α} {ident : α → ν} {text : ν → Nat → CStr} {nm : ν → CStr}
  {hosts : List α} {P : Platform} {weighted : Bool} {info : KetamaInfo} {hash : Nat}

omit [Inhabited α] in
theorem Plain.live_eq (h : Plain ring ident text nm hosts) : ring.live hosts = hosts := by
  refine filter_eq_self.2 fun a ha => ?_
  rw [h.live a ha, Bool.not_false]

omit [Inhabited α] in
theorem Plain.pps_eq (h : Plain ring ident text nm hosts) (a : α) :
    ring.pps P weighted hosts a = pointsPerServer := by
  refine pointerPerServer_of_same (allWeightsSame_of_forall_eq (w := 1) ?_) _
  rw [h.live_eq]
  simpa using h.unweighted

omit [Inhabited α] in
theorem Plain.ringKeys_eq (h : Plain ring ident text nm hosts) :
    ringKeys P ring (fun a => nm (ident a)) weighted hosts
      = plainKeys P.md5 text nm { d | d ∈ hosts.map ident } := by
  ext k
  simp only [ringKeys, PlacedFor, h.pps_eq, h.live_eq, h.sortHost, mem_map]
  constructor
  · rintro ⟨a, ha, v, ⟨i, hi, x, rfl⟩, rfl⟩
    exact ⟨ident a, ⟨a, ha, rfl⟩, i, hi, x, rfl⟩
  · rintro ⟨d, ⟨a, ha, rfl⟩, i, hi, x, rfl⟩
    exact ⟨a, ha, _, ⟨i, hi, x, rfl⟩, rfl⟩

/-- The host that is picked for a hash owns it. -/
def Picks (md5 : CStr → Fin 16 → Fin 256) (text : ν → Nat → CStr) (nm : ν → CStr) (ids : List ν)
    (hash : Nat) (picked : Option ν) : Prop :=
  ∃ d v, picked = some d ∧ Owns (plainKeys md5 text nm { d | d ∈ ids }) hash (toLex (v, nm d))

/-- The strings of every host fit, so the ring is built. -/
theorem Plain.built (h : Plain ring ident text nm hosts) (P : Platform) {env : Env} (he : env.Ok)
    (hn : hosts ≠ []) (mc : Memcached) :
    ∃ info, newKetamaInfo P ring mc.ketama.weighted hosts = some info ∧
      updateRing P ring env hosts mc = (.success, { mc with ketama.info := some info }) := by
  have hs : (newKetamaInfo P ring mc.ketama.weighted hosts).isSome := by
    rw [newKetamaInfo_isSome_iff, h.live_eq]
    intro a ha i hi
    rw [h.pps_eq] at hi
    exact h.fits a ha i hi
  obtain ⟨info, hin⟩ := Option.isSome_iff_exists.1 hs
  have hl : ring.live hosts ≠ [] := by rwa [h.live_eq]
  exact ⟨info, hin, by simp [updateRing, hl, he.mallocInfo, he.mallocContinuum, hin]⟩

omit [Inhabited α] in
theorem Plain.sum_pps (h : Plain ring ident text nm hosts) :
    ((ring.live hosts).map (ring.pps P weighted hosts)).sum = 160 * hosts.length := by
  have hp : ring.pps P weighted hosts = fun _ => 160 := funext h.pps_eq
  rw [h.live_eq, hp, map_const', sum_replicate, smul_eq_mul, Nat.mul_comm]

/-- A ring of fewer than `2 ^ 32` points answers every hash with the owner. -/
theorem Plain.picks (h : Plain ring ident text nm hosts)
    (hin : newKetamaInfo P ring weighted hosts = some info) (hn : hosts ≠ [])
    (hb : 160 * hosts.length < 2 ^ 32) (hash : Nat) : Picks P.md5 text nm (hosts.map ident) hash
      (((dispatchContinuum info hash).bind fun i => hosts[i]?).map ident) := by
  have hr := newKetamaInfo_spec hin (h.sum_pps.trans_lt hb)
  have hpo : info.continuum ≠ [] := by
    obtain ⟨a, ha⟩ := exists_mem_of_ne_nil _ hn
    obtain ⟨i, hi⟩ := mem_iff_getElem?.1 ha
    have hp : (⟨i, ketamaServerHash P.md5 (ring.sortHost a 0) 0⟩ : ContinuumItem) ∈ info.continuum :=
      (hr.mem _).2 ⟨a, hi, h.live a ha, 0, by rw [h.pps_eq]; decide, 0, rfl⟩
    exact ne_nil_of_mem hp
  obtain ⟨i, a, v, hd, hid, -, ho⟩ := hr.dispatch_owns h.tie hpo hash
  rw [h.ringKeys_eq] at ho
  exact ⟨ident a, v, by rw [hd, Option.bind_some, hid, Option.map_some], ho⟩

/-! ## The last lap of the counters -/

omit [Inhabited α] in
/-- Every host has 160 points in a row. -/
theorem placeHosts_index {pps : α → Nat} (hpp : ∀ a, pps a = 160) :
    ∀ {hosts : List α} {k : Nat} {points : List ContinuumItem}, (∀ a ∈ hosts, ring.ejected a = false) →
      placeHosts P ring pps k hosts = some points → ∀ {j p}, points[j]? = some p → p.index = k + j / 160
  | [], k, points, _, h, j, p, hj => by
    obtain rfl : [] = points := by simpa [placeHosts] using h
    simp at hj
  | a :: hosts, k, points, hl, h, j, p, hj => by
    obtain ⟨ha, hl⟩ := forall_mem_cons.1 hl
    simp only [placeHosts, ha, Bool.false_eq_true, if_false, Option.bind_eq_bind,
      Option.bind_eq_some_iff, Option.pure_def, Option.some.injEq] at h
    obtain ⟨here, hh, rest, hr, rfl⟩ := h
    obtain ⟨hle, hm⟩ := placeHost_spec hh
    rw [hpp] at hle
    by_cases hlt : j < here.length
    · rw [getElem?_append_left hlt] at hj
      rw [((hm p).1 (mem_of_getElem? hj)).1]
      omega
    · rw [getElem?_append_right (by omega)] at hj
      rw [placeHosts_index hpp hl hr hj]
      omega

/-- The first host of an array of `n` that has points in the last lap of the counters. -/
def firstHost (n : Nat) : Nat := (160 * n - 1) / 2 ^ 32 * 2 ^ 32 / 160

theorem firstHost_spec {n N : Nat} (hn : 0 < n) (hN : N = 160 * n) :
    (N % 2 ^ 32 = 0 → N - 2 ^ 32 < N ∧ (N - 2 ^ 32) / 160 = firstHost n) ∧
    (N % 2 ^ 32 ≠ 0 → N / 2 ^ 32 * 2 ^ 32 < N ∧ N - N / 2 ^ 32 * 2 ^ 32 = N % 2 ^ 32 ∧
      N / 2 ^ 32 * 2 ^ 32 / 160 = firstHost n) := by
  have hpos : 0 < N := by omega
  rw [firstHost, ← hN]
  clear hN
  refine ⟨fun hz => ⟨by omega, ?_⟩, fun hz => ⟨by omega, by omega, ?_⟩⟩
  · have : (N - 1) / 2 ^ 32 * 2 ^ 32 = N - 2 ^ 32 := by omega
    rw [this]
  · have : (N - 1) / 2 ^ 32 = N / 2 ^ 32 := by omega
    rw [this]

/-- Only the hosts of the last lap answer.  The first of them does so for some hash, if its name comes
before those of the others. -/
theorem Plain.answers (h : Plain ring ident text nm hosts)
    (hin : newKetamaInfo P ring weighted hosts = some info) (hn : hosts ≠ []) :
    (∀ hash, ∃ i, firstHost hosts.length ≤ i ∧ i < hosts.length ∧
      dispatchContinuum info hash = some i) ∧
    ((∀ a b j, hosts[firstHost hosts.length]? = some a → firstHost hosts.length < j →
        hosts[j]? = some b → nm (ident a) < nm (ident b)) →
      ∃ hash, dispatchContinuum info hash = some (firstHost hosts.length)) := by
  obtain ⟨points, hpo, hlen, hco, hc⟩ := newKetamaInfo_eq hin
  rw [h.sum_pps] at hlen
  have hix {j : Nat} {p : ContinuumItem} (hj : points[j]? = some p) : p.index = j / 160 := by
    rw [placeHosts_index h.pps_eq h.live hpo hj, Nat.zero_add]
  obtain ⟨hzero, hlast⟩ := firstHost_spec (length_pos_of_ne_nil hn) hlen
  have hm : 0 < 2 ^ 32 := by decide
  generalize 2 ^ 32 = m at hm hco hc hzero hlast
  have hlt {j : Nat} (hj : j < points.length) : j / 160 < hosts.length := by omega
  by_cases hz : points.length % m = 0
  · -- no point is counted, and the first entry answers
    obtain ⟨hl, hfi⟩ := hzero hz
    have ha (hash : Nat) : dispatchContinuum info hash = some (firstHost hosts.length) := by
      rw [hz, take_zero, (P.qsort.perm _ []).eq_nil, nil_append, drop_zero] at hc
      rw [dispatchContinuum_of_counter_eq_zero (hco.trans hz), hc, head?_wrapped points hm hz,
        getElem?_eq_getElem hl, Option.map_some, hix (getElem?_eq_getElem hl), hfi]
    exact ⟨fun hash => ⟨_, le_rfl, hfi ▸ hlt hl, ha hash⟩, fun _ => ⟨0, ha 0⟩⟩
  · obtain ⟨hl, hle, hfi⟩ := hlast hz
    rw [take_wrapped points hm] at hc
    have hlap : ∀ p ∈ points.drop (points.length / m * m),
        firstHost hosts.length ≤ p.index ∧ p.index < hosts.length := by
      intro p hp
      obtain ⟨j, hj⟩ := mem_iff_getElem?.1 hp
      rw [getElem?_drop] at hj
      obtain ⟨hjl, -⟩ := List.getElem?_eq_some_iff.1 hj
      rw [hix hj, ← hfi]
      exact ⟨Nat.div_le_div_right (Nat.le_add_right _ _), hlt hjl⟩
    have hin : info = ⟨P.qsort.run (continuumItemCmp ring hosts) (points.drop (points.length / m * m)) ++
        (wrapped m points).drop (points.length % m), (points.drop (points.length / m * m)).length⟩ := by
      rw [← hc, length_drop, hle, ← hco]
    obtain ⟨hal, hfir⟩ := dispatchContinuum_sorted h.tie P.qsort hosts _
      (by rwa [Ne, drop_eq_nil_iff, not_le]) hin
    refine ⟨fun hash => ?_, fun hfirst => ?_⟩
    · obtain ⟨p, hp, ha⟩ := hal hash
      exact ⟨_, (hlap p hp).1, (hlap p hp).2, ha⟩
    · -- the hash of the first point of the lap
      have hm₀ : points[points.length / m * m] ∈ points.drop (points.length / m * m) := by
        rw [drop_eq_getElem_cons hl]
        exact mem_cons_self
      have hii := (hix (getElem?_eq_getElem hl)).trans hfi
      obtain ⟨p, hp, ha, hge, hk⟩ := hfir _ hm₀
      obtain ⟨hpl, hu⟩ := hlap p hp
      have hu₀ := (hlap _ hm₀).2
      refine ⟨_, ha.trans (congrArg some ?_)⟩
      by_contra hne
      have hgt := lt_of_le_of_ne hpl (Ne.symm hne)
      rw [pointKey, pointKey, Prod.Lex.toLex_le_toLex] at hk
      rcases hk with hk | ⟨-, hk⟩
      · exact hk.not_ge hge
      · rw [getD_eq_getElem _ _ hu, getD_eq_getElem _ _ hu₀] at hk
        refine (hfirst _ _ _ ?_ hgt (getElem?_eq_getElem hu)).not_ge hk
        rw [← hii, getElem?_eq_getElem hu₀]

theorem firstHost_pos {n : Nat} (h : 2 ^ 32 ≤ 160 * n) : 0 < firstHost n := by
  have hlt : 2 ^ 32 < 160 * n := by omega
  rw [firstHost]
  generalize 160 * n = N at hlt
  omega

/-- Where the last lap begins, a host more is not one index more. -/
theorem firstHost_succ {n : Nat} (h : 2 ^ 32 ≤ 160 * (n + 1)) :
    firstHost (n + 1) - 1 < firstHost n ∨ firstHost n < firstHost (n + 1) - 1 := by
  have hp := firstHost_pos h
  rw [firstHost] at hp ⊢
  rw [firstHost]
  have hq : (160 * (n + 1) - 1) / 2 ^ 32 = (160 * n - 1) / 2 ^ 32 ∨
      (160 * (n + 1) - 1) / 2 ^ 32 = (160 * n - 1) / 2 ^ 32 + 1 := by omega
  generalize (160 * (n + 1) - 1) / 2 ^ 32 = q' at hp hq ⊢
  generalize (160 * n - 1) / 2 ^ 32 = q at hq ⊢
  omega

/-- A host that joins at the front of an array in the order of names takes some hash from one of the
others for another of them. -/
theorem Plain.disturbed {ring₁ ring₂ : RingHosts α} {s : α} {weighted₁ weighted₂ : Bool}
    {info₁ info₂ : KetamaInfo} (h₁ : Plain ring₁ ident text nm hosts)
    (h₂ : Plain ring₂ ident text nm (s :: hosts)) (hs : ident s ∉ hosts.map ident)
    (hlt : hosts.Pairwise fun a b => nm (ident a) < nm (ident b))
    (hm : 2 ^ 32 ≤ 160 * (hosts.length + 1))
    (hin₁ : newKetamaInfo P ring₁ weighted₁ hosts = some info₁)
    (hin₂ : newKetamaInfo P ring₂ weighted₂ (s :: hosts) = some info₂) :
    ∃ hash d e, ((dispatchContinuum info₁ hash).bind fun i => hosts[i]?).map ident = some d ∧
      ((dispatchContinuum info₂ hash).bind fun i => (s :: hosts)[i]?).map ident = some e ∧
      e ≠ ident s ∧ e ≠ d := by
  have hn : hosts ≠ [] := ne_nil_of_length_pos (by omega)
  obtain ⟨hall₁, hone₁⟩ := h₁.answers hin₁ hn
  obtain ⟨hall₂, hone₂⟩ := h₂.answers hin₂ (cons_ne_nil s hosts)
  rw [length_cons] at hall₂ hone₂
  have hpos := firstHost_pos hm
  have hne {i j : Nat} (hi : i < hosts.length) (hj : j < hosts.length) (hij : i ≠ j) :
      ident hosts[i] ≠ ident hosts[j] := by
    intro he
    have hk := congrArg nm he
    rcases Nat.lt_or_gt_of_ne hij with h | h
    · exact (pairwise_iff_getElem.1 hlt i j hi hj h).ne hk
    · exact (pairwise_iff_getElem.1 hlt j i hj hi h).ne' hk
  -- two answers at different places
  have done {hash i j : Nat} (hi : i < hosts.length) (hj : j < hosts.length) (hij : i ≠ j)
      (ha₁ : dispatchContinuum info₁ hash = some i)
      (ha₂ : dispatchContinuum info₂ hash = some (j + 1)) :
      ∃ hash d e, ((dispatchContinuum info₁ hash).bind fun i => hosts[i]?).map ident = some d ∧
        ((dispatchContinuum info₂ hash).bind fun i => (s :: hosts)[i]?).map ident = some e ∧
        e ≠ ident s ∧ e ≠ d := by
    refine ⟨hash, ident hosts[i], ident hosts[j], ?_, ?_, fun he => ?_, hne hj hi hij.symm⟩
    · rw [ha₁, Option.bind_some, getElem?_eq_getElem hi, Option.map_some]
    · rw [ha₂, Option.bind_some, getElem?_cons_succ, getElem?_eq_getElem hj, Option.map_some]
    · exact hs (he ▸ mem_map_of_mem (getElem_mem hj))
  rcases firstHost_succ hm with hc | hc
  · obtain ⟨hash, ha₂⟩ := hone₂ fun a b j ha hj hb => by
      obtain ⟨f, hf⟩ := Nat.exists_eq_add_of_lt hpos
      obtain ⟨j, rfl⟩ := Nat.exists_eq_add_of_lt (hpos.trans hj)
      rw [hf] at ha hj
      rw [zero_add, getElem?_cons_succ] at ha hb
      obtain ⟨hi, rfl⟩ := List.getElem?_eq_some_iff.1 ha
      obtain ⟨hj', rfl⟩ := List.getElem?_eq_some_iff.1 hb
      exact pairwise_iff_getElem.1 hlt _ _ hi hj' (by omega)
    obtain ⟨i, hi, hil, ha₁⟩ := hall₁ hash
    obtain ⟨i₂, -, hil₂, ha₂'⟩ := hall₂ hash
    have he : i₂ = firstHost (hosts.length + 1) := Option.some.inj (ha₂'.symm.trans ha₂)
    exact done hil (j := i₂ - 1) (by omega) (by omega) ha₁ (by rw [ha₂', Nat.sub_add_cancel (by omega)])
  · obtain ⟨hash, ha₁⟩ := hone₁ fun a b j ha hj hb => by
      obtain ⟨hi, rfl⟩ := List.getElem?_eq_some_iff.1 ha
      obtain ⟨hj', rfl⟩ := List.getElem?_eq_some_iff.1 hb
      exact pairwise_iff_getElem.1 hlt _ _ hi hj' hj
    obtain ⟨i, hi, hil, ha₁'⟩ := hall₁ hash
    obtain ⟨i₂, hi₂, hil₂, ha₂⟩ := hall₂ hash
    have he : i = firstHost hosts.length := Option.some.inj (ha₁'.symm.trans ha₁)
    exact done hil (j := i₂ - 1) (by omega) (by omega) ha₁' (by rw [ha₂, Nat.sub_add_cancel (by omega)])

end Plain

/-! ## The owner of a hash -/

section Owner

variable {ν : Type} {md5 : CStr → Fin 16 → Fin 256} {text : ν → Nat → CStr} {nm : ν → CStr}
  {ids : Set ν} {hash v w : Nat} {d e : ν}

theorem plainKeys_owner_unique (hn : Function.Injective nm)
    (hd : Owns (plainKeys md5 text nm ids) hash (toLex (v, nm d)))
    (he : Owns (plainKeys md5 text nm ids) hash (toLex (w, nm e))) : d = e := by
  have heq := toLex_inj.1 (hd.unique he)
  exact hn (congrArg Prod.snd heq)

/-- A hash that went to `before` goes to `after` once a host has joined: the host took it, or it
stays where it was. -/
def KeptOrTaken (joined : ν) (before after : Option ν) : Prop :=
  after = some joined ∨ ∃ d, after = some d ∧ before = some d

theorem KeptOrTaken.not_of_ne (h : KeptOrTaken s (some d) (some e)) (hes : e ≠ s) (hed : e ≠ d) :
    False := by
  rcases h with h | ⟨f, hf, hd⟩
  · exact hes (Option.some.inj h)
  · exact hed (Option.some.inj (hf.trans hd.symm))

theorem Picks.joined {α : Type} {f : α → ν} {s : α} {l r : List α} (hn : Function.Injective nm)
    (h₂ : Picks md5 text nm ((l ++ s :: r).map f) hash p₂)
    (h₁ : l ++ r ≠ [] → Picks md5 text nm ((l ++ r).map f) hash p₁) :
    KeptOrTaken (f s) p₁ p₂ := by
  obtain ⟨d, v, rfl, ho₂⟩ := h₂
  have hm : ∀ d, d ∈ (l ++ s :: r).map f ↔ d = f s ∨ d ∈ (l ++ r).map f := by
    intro d
    simp only [map_append, map_cons, mem_append, mem_cons]
    tauto
  obtain ⟨d', hd', i, hi, x, hk⟩ := ho₂.mem
  obtain rfl : d = d' := hn (congrArg Prod.snd (toLex_inj.1 hk))
  rcases (hm d).1 hd' with rfl | hol
  · exact .inl rfl
  · obtain ⟨e, w, rfl, ho₁⟩ := h₁ fun he => by simp [he] at hol
    have hs : plainKeys md5 text nm { d | d ∈ (l ++ r).map f } ⊆
        plainKeys md5 text nm { d | d ∈ (l ++ s :: r).map f } := by
      rintro k ⟨d', hd', hr⟩
      exact ⟨d', (hm d').2 (.inr hd'), hr⟩
    obtain rfl := plainKeys_owner_unique hn (ho₂.of_subset hs ⟨d, hol, i, hi, x, hk⟩) ho₁
    exact .inr ⟨d, rfl, rfl⟩

end Owner

/-! ## Servers -/

/-- `host:port` of an address. -/
def addrHostport (a : Hostname × UInt16) : CStr := a.1 ++ ofChar ':' :: decimal a.2.toNat

/-- The strings hashed for an address under the distribution of Arcus. -/
def addrSortHost (a : Hostname × UInt16) (pointerIndex : Nat) : CStr :=
  a.1 ++ ofChar ':' :: decimal a.2.toNat ++ ofChar '-' :: decimal pointerIndex

theorem addrHostport_injective : Function.Injective addrHostport := by
  intro a b h
  obtain ⟨hh, hp⟩ := append_sep_decimal_inj (by decide) h
  exact Prod.ext (Subtype.ext hh) (UInt16.toNat_inj.1 hp)

/-- The address of the server that `dispatch_host` picks. -/
def serverFor (mc : Memcached) (random hash : Nat) : Option (Hostname × UInt16) :=
  ((dispatchHost mc random hash).bind fun i => mc.servers[i]?).map Server.addr

/-- A client with the distribution of Arcus, no weights and no ejected hosts,
whose strings fit `sort_host`. -/
structure PlainServers (mc : Memcached) : Prop where
  distribution : mc.distribution = .consistentKetamaSpy
  noEject : mc.flags.autoEjectHosts = false
  unweighted : ∀ s ∈ mc.servers, s.weight = 1
  fits : ∀ s ∈ mc.servers, ∀ i < pointsPerServer / 4,
    (serverSortHost mc.distribution s i).length < maxHostSortLength

namespace PlainServers

variable {P : Platform} {env : Env} {mc : Memcached} {hash : Nat}

theorem plain (h : PlainServers mc) (now : Nat) :
    Plain (serverRing mc now) Server.addr addrSortHost addrHostport mc.servers where
  sortHost s i := by simp [serverRing, serverSortHost, h.distribution, addrSortHost, Server.addr]
  tie := compareServerHostport_byKey
  live s _ := by simp [serverRing, h.noEject]
  unweighted s hs := h.unweighted s hs
  fits := h.fits

theorem of_subset (h : PlainServers mc) {servers : List Server} (hs : servers ⊆ mc.servers) :
    PlainServers { mc with servers := servers } :=
  ⟨h.distribution, h.noEject, fun s hm => h.unweighted s (hs hm), fun s hm => h.fits s (hs hm)⟩

theorem updateContinuum_eq (h : PlainServers mc) (he : env.Ok) : ∃ now,
    updateContinuum P env mc = updateRing P (serverRing mc now) env mc.servers mc := by
  obtain ⟨now, hno⟩ := Option.isSome_iff_exists.1 he.gettimeofday
  exact ⟨now, by simp [updateContinuum, he.poolMaster, hno, h.noEject]⟩

theorem update_nil (h : PlainServers mc) (he : env.Ok) (hn : mc.servers = []) :
    updateContinuum P env mc = (.success, mc) := by
  obtain ⟨now, hu⟩ := h.updateContinuum_eq (P := P) he
  rw [hu]
  simp [updateRing, hn, RingHosts.live]

/-- A client with servers gets a ring, and asks it. -/
theorem update (h : PlainServers mc) (he : env.Ok) (P : Platform) (hn : mc.servers ≠ []) :
    ∃ now info, newKetamaInfo P (serverRing mc now) mc.ketama.weighted mc.servers = some info ∧
      (updateContinuum P env mc).1 = .success ∧
      ∀ random hash, serverFor (updateContinuum P env mc).2 random hash =
        ((dispatchContinuum info hash).bind fun i => mc.servers[i]?).map Server.addr := by
  obtain ⟨now, hu⟩ := h.updateContinuum_eq (P := P) he
  obtain ⟨info, hin, hr⟩ := (h.plain now).built P he hn mc
  refine ⟨now, info, hin, by rw [hu, hr], fun random hash => ?_⟩
  rw [hu, hr]
  simp [serverFor, dispatchHost, h.distribution]

end PlainServers

/-! ## Groups -/

def groupSortHost (groupname : CStr) (pointerIndex : Nat) : CStr :=
  groupname ++ ofChar '-' :: decimal pointerIndex

/-- The name of the group that `dispatch_host` picks. -/
def rgroupFor (mc : Memcached) (random hash : Nat) : Option CStr :=
  ((dispatchHost mc random hash).bind fun i => mc.rgroups[i]?).map Rgroup.groupname

/-- A replicated client with no weights and no ejected hosts, whose strings fit
`sort_host`. -/
structure PlainRgroups (mc : Memcached) : Prop where
  distribution : mc.distribution = .consistentKetamaSpy
  noEject : mc.flags.autoEjectHosts = false
  unweighted : ∀ g ∈ mc.rgroups, g.weight = 1
  fits : ∀ g ∈ mc.rgroups, ∀ i < pointsPerServer / 4,
    (rgroupRing.sortHost g i).length < maxHostSortLength

namespace PlainRgroups

variable {P : Platform} {env : Env} {mc : Memcached} {hash : Nat}

theorem plain (h : PlainRgroups mc) :
    Plain rgroupRing Rgroup.groupname groupSortHost id mc.rgroups where
  sortHost _ _ := rfl
  tie := doRgroupCompare_byKey
  live _ _ := rfl
  unweighted g hg := h.unweighted g hg
  fits := h.fits

theorem of_subset (h : PlainRgroups mc) {rgroups : List Rgroup} (hs : rgroups ⊆ mc.rgroups) :
    PlainRgroups { mc with rgroups := rgroups } :=
  ⟨h.distribution, h.noEject, fun g hm => h.unweighted g (hs hm), fun g hm => h.fits g (hs hm)⟩

theorem update_nil (h : PlainRgroups mc) (he : env.Ok) (hn : mc.rgroups = []) :
    updateContinuumBasedOnRgroups P env mc = .ok (.success, mc) := by
  obtain ⟨now, hno⟩ := Option.isSome_iff_exists.1 he.gettimeofday
  simp [updateContinuumBasedOnRgroups, he.poolMaster, hno, h.noEject, hn, updateRing, RingHosts.live]

theorem update (h : PlainRgroups mc) (he : env.Ok) (P : Platform) (hn : mc.rgroups ≠ []) :
    ∃ info mc', newKetamaInfo P rgroupRing mc.ketama.weighted mc.rgroups = some info ∧
      updateContinuumBasedOnRgroups P env mc = .ok (.success, mc') ∧
      ∀ random hash, rgroupFor mc' random hash =
        ((dispatchContinuum info hash).bind fun i => mc.rgroups[i]?).map Rgroup.groupname := by
  obtain ⟨now, hno⟩ := Option.isSome_iff_exists.1 he.gettimeofday
  have hu : updateContinuumBasedOnRgroups P env mc = .ok (updateRing P rgroupRing env mc.rgroups mc) := by
    simp [updateContinuumBasedOnRgroups, he.poolMaster, hno, h.noEject, h.distribution]
  obtain ⟨info, hin, hr⟩ := h.plain.built P he hn mc
  refine ⟨info, _, hin, hu.trans (congrArg Except.ok hr), fun random hash => ?_⟩
  simp [rgroupFor, dispatchHost, h.distribution]

end PlainRgroups

/-! ## Agreement -/

section Agreement

variable (md5 : CStr → Fin 16 → Fin 256)

/-- Clients that know these servers, in whatever order, and hash alike send every hash to the same
server.  Nothing is asked of the points: they may collide, and each client may sort with a `qsort` of
its own. -/
def PlacementAgrees (servers : List Server) : Prop :=
  ∀ (P₁ P₂ : Platform) (env₁ env₂ : Env) (mc₁ mc₂ : Memcached), P₁.md5 = md5 → P₂.md5 = md5 →
    env₁.Ok → env₂.Ok → PlainServers mc₁ → PlainServers mc₂ →
    (mc₁.servers.map Server.addr).Perm (servers.map Server.addr) →
    (mc₂.servers.map Server.addr).Perm (servers.map Server.addr) → ∀ random₁ random₂ hash,
    (updateContinuum P₁ env₁ mc₁).1 = .success ∧ (updateContinuum P₂ env₂ mc₂).1 = .success ∧
      serverFor (updateContinuum P₁ env₁ mc₁).2 random₁ hash
        = serverFor (updateContinuum P₂ env₂ mc₂).2 random₂ hash ∧
      (servers ≠ [] → (serverFor (updateContinuum P₁ env₁ mc₁).2 random₁ hash).isSome)

variable {md5} {mc : Memcached}

theorem placementAgrees_of_lt (hb : 160 * servers.length < 2 ^ 32) : PlacementAgrees md5 servers := by
  rintro P₁ P₂ env₁ env₂ mc₁ mc₂ rfl hmd henv₁ henv₂ h₁ h₂ hp₁ hp₂ random₁ random₂ hash
  have hl₁ := hp₁.length_eq
  have hl₂ := hp₂.length_eq
  rw [length_map, length_map] at hl₁ hl₂
  by_cases hn : servers = []
  · have hn₁ : mc₁.servers = [] := length_eq_zero_iff.1 (hl₁.trans (congrArg length hn))
    have hn₂ : mc₂.servers = [] := length_eq_zero_iff.1 (hl₂.trans (congrArg length hn))
    rw [h₁.update_nil henv₁ hn₁, h₂.update_nil henv₂ hn₂]
    simp [serverFor, hn, hn₁, hn₂]
  · have hn₁ : mc₁.servers ≠ [] := fun he => hn (length_eq_zero_iff.1 (by rw [← hl₁, he, length_nil]))
    have hn₂ : mc₂.servers ≠ [] := fun he => hn (length_eq_zero_iff.1 (by rw [← hl₂, he, length_nil]))
    obtain ⟨now₁, info₁, hin₁, hr₁, hf₁⟩ := h₁.update henv₁ P₁ hn₁
    obtain ⟨now₂, info₂, hin₂, hr₂, hf₂⟩ := h₂.update henv₂ P₂ hn₂
    obtain ⟨a₁, v₁, ha₁, how₁⟩ := (h₁.plain now₁).picks hin₁ hn₁ (by rwa [hl₁]) hash
    obtain ⟨a₂, v₂, ha₂, how₂⟩ := (h₂.plain now₂).picks hin₂ hn₂ (by rwa [hl₂]) hash
    -- Both owners are taken from one set of points.
    have hs : { d | d ∈ mc₁.servers.map Server.addr } = { d | d ∈ mc₂.servers.map Server.addr } :=
      Set.ext fun d => (hp₁.trans hp₂.symm).mem_iff
    rw [hs, ← hmd] at how₁
    obtain rfl := plainKeys_owner_unique addrHostport_injective how₁ how₂
    exact ⟨hr₁, hr₂, by rw [hf₁, hf₂, ha₁, ha₂], fun _ => by rw [hf₁, ha₁]; rfl⟩

/-- Only the servers of the last lap answer. -/
theorem PlainServers.answer (h : PlainServers mc) (hn : mc.servers ≠ []) (P : Platform) (hash : Nat) :
    ∃ i s, firstHost mc.servers.length ≤ i ∧ mc.servers[i]? = some s ∧
      serverFor (updateContinuum P .granted mc).2 0 hash = some s.addr := by
  obtain ⟨now, info, hin, -, hf⟩ := h.update Env.granted_ok P hn
  obtain ⟨i, hi, hl, hd⟩ := ((h.plain now).answers hin hn).1 hash
  refine ⟨i, mc.servers[i], hi, getElem?_eq_getElem hl, ?_⟩
  rw [hf, hd, Option.bind_some, getElem?_eq_getElem hl, Option.map_some]

/-- Servers that are known by their addresses agree on every hash just if there are fewer than
`2 ^ 32` points. -/
theorem placement_agrees_iff (h : PlainServers mc) (hnodup : (mc.servers.map Server.addr).Nodup) :
    PlacementAgrees md5 mc.servers ↔ 160 * mc.servers.length < 2 ^ 32 := by
  refine ⟨fun ha => ?_, placementAgrees_of_lt⟩
  by_contra hb
  rw [not_lt] at hb
  have hn : mc.servers ≠ [] := ne_nil_of_length_pos (by omega)
  obtain ⟨i, s, -, hs, hf⟩ := h.answer hn (.ofMd5 md5) 0
  obtain ⟨hi, rfl⟩ := List.getElem?_eq_some_iff.1 hs
  -- the server that answers is moved to the front
  have hp := getElem_cons_eraseIdx_perm hi
  have h' := h.of_subset hp.subset
  obtain ⟨j, s', hj, hs', hf'⟩ := h'.answer (cons_ne_nil _ _) (.ofMd5 md5) 0
  have he := (ha (.ofMd5 md5) (.ofMd5 md5) .granted .granted _ _ rfl rfl Env.granted_ok Env.granted_ok h h'
    (Perm.refl _) (hp.map _) 0 0 0).2.2.1
  rw [hf, hf'] at he
  have hn := (hp.map Server.addr).nodup_iff.2 hnodup
  have hpos := (firstHost_pos (hp.length_eq ▸ hb)).trans_le hj
  obtain ⟨j, rfl⟩ := Nat.exists_eq_succ_of_ne_zero hpos.ne'
  exact (nodup_cons.1 hn).1 (Option.some.inj he ▸ mem_map_of_mem (mem_of_getElem? hs'))

end Agreement

/-- A client of the distribution of Arcus with servers of the given names, all at
port 11211. -/
def sampleClient (names : List Hostname) : Memcached :=
  { memcachedCreate .consistentKetamaSpy ⟨false, false, false, false⟩ with
    servers := names.map fun h => serverInit h defaultPort 0 .tcp }

theorem sampleClient_plain
    (h : ∀ n ∈ names, n.1.length + 9 < maxHostSortLength) : PlainServers (sampleClient names) where
  distribution := rfl
  noEject := rfl
  unweighted s hs := by
    obtain ⟨n, -, rfl⟩ := mem_map.1 hs
    rfl
  fits s hs i hi := by
    obtain ⟨n, hn, rfl⟩ := mem_map.1 hs
    have hd : ∀ i < pointsPerServer / 4, (decimal i).length ≤ 2 := by decide
    have hp : (decimal defaultPort.toNat).length = 5 := by decide
    have := hd i hi
    have := h n hn
    simp only [serverSortHost, serverInit, sampleClient, memcachedCreate, length_append,
      length_cons, ne_eq, not_true_eq_false, and_false, if_false]
    omega

/-- All points of the ring collide here. -/
theorem placement_agrees_swapped : serverFor (updateContinuum (.ofMd5 fun _ _ => 0) .granted
        (sampleClient [⟨lit ['a'], rfl⟩, ⟨lit ['b'], rfl⟩])).2 0 7
      = serverFor (updateContinuum (.ofMd5 fun _ _ => 0) .granted
        (sampleClient [⟨lit ['b'], rfl⟩, ⟨lit ['a'], rfl⟩])).2 0 7 := by
  have h₁ : PlainServers (sampleClient [⟨lit ['a'], rfl⟩, ⟨lit ['b'], rfl⟩]) :=
    sampleClient_plain (by decide)
  have h₂ : PlainServers (sampleClient [⟨lit ['b'], rfl⟩, ⟨lit ['a'], rfl⟩]) :=
    sampleClient_plain (by decide)
  exact ((placement_agrees_iff h₁ (by decide)).2 (by decide) _ _ _ _ _ _ rfl rfl Env.granted_ok
    Env.granted_ok h₁ h₂ (Perm.refl _) (Perm.swap _ _ _) 0 0 7).2.2.1

theorem numbered_valid (k : Nat) : isValidServername ((decimal k).take 8) = true := by
  have := length_take_le 8 (decimal k)
  rw [isValidServername, decide_eq_true_iff, niMaxHost]
  omega

/-- The name `k`, of eight digits at most. -/
def numbered (k : Nat) : Hostname := ⟨(decimal k).take 8, numbered_valid k⟩

theorem numbered_spec (k : Nat) :
    (numbered k).1.length ≤ 8 ∧ ∃ c cs, (numbered k).1 = c :: cs ∧ isDigit c := by
  refine ⟨length_take_le 8 (decimal k), ?_⟩
  obtain ⟨c, cs, hc⟩ := exists_cons_of_ne_nil (decimal_ne_nil k)
  refine ⟨c, cs.take 7, ?_, isDigit_of_mem_decimal (hc ▸ mem_cons_self)⟩
  change (decimal k).take 8 = _
  rw [hc, take_succ_cons]

theorem dash_lt_digit {c : CChar} (h : isDigit c) : ofChar '-' < c := by
  rw [isDigit, Bool.and_eq_true, decide_eq_true_iff] at h
  have hd : (ofChar '-').1.1 = 45 := by decide
  exact Subtype.coe_lt_coe.1 (Fin.lt_def.2 (by omega))

/-- A server whose name comes before all numbers, and `n` numbered servers. -/
def crowd (n : Nat) : List Hostname := ⟨lit ['-'], rfl⟩ :: (range n).map numbered

theorem length_crowd (n : Nat) : (crowd n).length = n + 1 := by
  rw [crowd, length_cons, length_map, length_range]

theorem crowd_last (n : Nat) : (crowd (n + 1))[n + 1]? = some (numbered n) := by
  rw [crowd, getElem?_cons_succ, getElem?_map, getElem?_range (Nat.lt_succ_self n), Option.map_some]

theorem crowd_reverse_last (n : Nat) : (crowd n).reverse[n]? = some ⟨lit ['-'], rfl⟩ := by
  rw [getElem?_reverse (by rw [length_crowd]; omega), length_crowd, Nat.add_sub_cancel, Nat.sub_self]
  rfl

theorem crowd_short : ∀ a ∈ crowd n, a.1.length + 9 < maxHostSortLength := by
  refine forall_mem_cons.2 ⟨by decide, forall_mem_map.2 fun k _ => ?_⟩
  have := (numbered_spec k).1
  rw [maxHostSortLength]
  omega

/-- Of 26843546 servers only the last in the array has a point in the last lap. -/
theorem serverFor_last {names : List Hostname} (hl : names.length = 26843546)
    (hs : ∀ a ∈ names, a.1.length + 9 < maxHostSortLength) (md5 : CStr → Fin 16 → Fin 256) (hash : Nat) :
    serverFor (updateContinuum (.ofMd5 md5) .granted (sampleClient names)).2 0 hash
      = names[26843545]?.map fun name => (name, defaultPort) := by
  have hlen : (sampleClient names).servers.length = 26843546 := (length_map _).trans hl
  obtain ⟨i, s, hi, his, ha⟩ := (sampleClient_plain hs).answer
    (ne_nil_of_length_pos (by rw [hlen]; decide)) (.ofMd5 md5) hash
  have hf : firstHost 26843546 = 26843545 := by decide
  have hlt := (List.getElem?_eq_some_iff.1 his).1
  rw [hlen] at hi hlt
  obtain rfl : i = 26843545 := by omega
  rw [sampleClient, getElem?_map, Option.map_eq_some_iff] at his
  obtain ⟨name, hn, rfl⟩ := his
  rw [ha, hn]
  rfl

/-- Every hash goes to the server that is last in the array. -/
theorem placement_disagrees :
    (∀ md5 hash, serverFor (updateContinuum (.ofMd5 md5) .granted
        (sampleClient (crowd 26843545))).2 0 hash = some (numbered 26843544, defaultPort)) ∧
    (∀ md5 hash, serverFor (updateContinuum (.ofMd5 md5) .granted
        (sampleClient (crowd 26843545).reverse)).2 0 hash = some (⟨lit ['-'], rfl⟩, defaultPort)) ∧
    numbered 26843544 ≠ ⟨lit ['-'], rfl⟩ := by
  refine ⟨fun md5 hash => ?_, fun md5 hash => ?_, fun h => ?_⟩
  · rw [serverFor_last (length_crowd _) crowd_short, crowd_last, Option.map_some]
  · rw [serverFor_last (length_reverse.trans (length_crowd _)) fun a ha =>
      crowd_short a (mem_reverse.1 ha), crowd_reverse_last, Option.map_some]
  · obtain ⟨-, c, cs, hc, hd⟩ := numbered_spec 26843544
    rw [h] at hc
    obtain rfl : ofChar '-' = c := (cons.inj hc).1
    exact absurd hd (by decide)

/-! ## Joining -/

section Joining

variable (md5 : CStr → Fin 16 → Fin 256)

/-- A server that joins these servers, at any place of any order of them, takes hashes for itself
only. -/
def ServerTakesOwn (servers : List Server) (s : Server) : Prop :=
  ∀ (P₁ P₂ : Platform) (env₁ env₂ : Env) (mc₁ mc₂ : Memcached) (l r : List Server),
    P₁.md5 = md5 → P₂.md5 = md5 → env₁.Ok → env₂.Ok → PlainServers mc₁ → PlainServers mc₂ →
    (l ++ r).Perm servers → mc₁.servers = l ++ r → mc₂.servers = l ++ s :: r →
    ∀ random₁ random₂ hash,
      (updateContinuum P₁ env₁ mc₁).1 = .success ∧ (updateContinuum P₂ env₂ mc₂).1 = .success ∧
        KeptOrTaken s.addr (serverFor (updateContinuum P₁ env₁ mc₁).2 random₁ hash)
          (serverFor (updateContinuum P₂ env₂ mc₂).2 random₂ hash)

/-- The same for a group. -/
def GroupTakesOwn (rgroups : List Rgroup) (g : Rgroup) : Prop :=
  ∀ (P₁ P₂ : Platform) (env₁ env₂ : Env) (mc₁ mc₂ : Memcached) (l r : List Rgroup),
    P₁.md5 = md5 → P₂.md5 = md5 → env₁.Ok → env₂.Ok → PlainRgroups mc₁ → PlainRgroups mc₂ →
    (l ++ r).Perm rgroups → mc₁.rgroups = l ++ r → mc₂.rgroups = l ++ g :: r →
    ∀ random₁ random₂ hash, ∃ mc₁' mc₂',
      updateContinuumBasedOnRgroups P₁ env₁ mc₁ = .ok (.success, mc₁') ∧
        updateContinuumBasedOnRgroups P₂ env₂ mc₂ = .ok (.success, mc₂') ∧
        KeptOrTaken g.groupname (rgroupFor mc₁' random₁ hash) (rgroupFor mc₂' random₂ hash)

variable {md5} {mc : Memcached} {servers : List Server} {s : Server} {rgroups : List Rgroup}
  {g : Rgroup}

theorem serverTakesOwn_of_lt (hb : 160 * (servers.length + 1) < 2 ^ 32) :
    ServerTakesOwn md5 servers s := by
  rintro P₁ P₂ env₁ env₂ mc₁ mc₂ l r rfl hmd henv₁ henv₂ h₁ h₂ hp hs₁ hs₂ random₁ random₂ hash
  have hl : (l ++ s :: r).length = servers.length + 1 := by
    rw [← hp.length_eq, length_append, length_append, length_cons, Nat.add_assoc]
  obtain ⟨now₂, info₂, hin₂, hr₂, hf₂⟩ := h₂.update henv₂ P₂ (by simp [hs₂])
  have hp₂ := (h₂.plain now₂).picks hin₂ (by simp [hs₂]) (by rwa [hs₂, hl]) hash
  rw [hmd, ← hf₂ random₂, hs₂] at hp₂
  by_cases hn : l ++ r = []
  · rw [h₁.update_nil henv₁ (hs₁.trans hn)]
    exact ⟨rfl, hr₂, hp₂.joined addrHostport_injective fun he => absurd hn he⟩
  · obtain ⟨now₁, info₁, hin₁, hr₁, hf₁⟩ := h₁.update henv₁ P₁ (by rwa [hs₁])
    have hp₁ := (h₁.plain now₁).picks hin₁ (by rwa [hs₁]) (by rw [hs₁, hp.length_eq]; omega) hash
    rw [← hf₁ random₁, hs₁] at hp₁
    exact ⟨hr₁, hr₂, hp₂.joined addrHostport_injective fun _ => hp₁⟩

theorem groupTakesOwn_of_lt (hb : 160 * (rgroups.length + 1) < 2 ^ 32) :
    GroupTakesOwn md5 rgroups g := by
  rintro P₁ P₂ env₁ env₂ mc₁ mc₂ l r rfl hmd henv₁ henv₂ h₁ h₂ hp hs₁ hs₂ random₁ random₂ hash
  have hl : (l ++ g :: r).length = rgroups.length + 1 := by
    rw [← hp.length_eq, length_append, length_append, length_cons, Nat.add_assoc]
  obtain ⟨info₂, mc₂', hin₂, hr₂, hf₂⟩ := h₂.update henv₂ P₂ (by simp [hs₂])
  have hp₂ := h₂.plain.picks hin₂ (by simp [hs₂]) (by rwa [hs₂, hl]) hash
  rw [hmd, ← hf₂ random₂, hs₂] at hp₂
  by_cases hn : l ++ r = []
  · exact ⟨mc₁, mc₂', h₁.update_nil henv₁ (hs₁.trans hn), hr₂,
      hp₂.joined Function.injective_id fun he => absurd hn he⟩
  · obtain ⟨info₁, mc₁', hin₁, hr₁, hf₁⟩ := h₁.update henv₁ P₁ (by rwa [hs₁])
    have hp₁ := h₁.plain.picks hin₁ (by rwa [hs₁]) (by rw [hs₁, hp.length_eq]; omega) hash
    rw [← hf₁ random₁, hs₁] at hp₁
    exact ⟨mc₁', mc₂', hr₁, hr₂, hp₂.joined Function.injective_id fun _ => hp₁⟩

/-- Hosts of different names can be put in the order of names. -/
theorem exists_sorted {α : Type} {key : α → CStr} {hosts : List α} (hnodup : (hosts.map key).Nodup) :
    ∃ sorted : List α, sorted.Perm hosts ∧ sorted.Pairwise fun a b => key a < key b := by
  refine ⟨hosts.insertionSort fun a b => key a ≤ key b, perm_insertionSort _ _, ?_⟩
  have hn : ((hosts.insertionSort fun a b => key a ≤ key b).map key).Nodup :=
    ((perm_insertionSort _ hosts).map key).nodup_iff.2 hnodup
  have hs := pairwise_insertionSort (fun a b => key a ≤ key b) hosts
  exact (hs.and (pairwise_map.1 hn)).imp fun h => lt_of_le_of_ne h.1 h.2

/-- Hosts of different names take hashes for themselves only, just if there are fewer than `2 ^ 32`
points once they have joined. -/
theorem placement_minimal_disruption_iff {mc' : Memcached}
    (h : PlainServers mc) (hs : mc.servers = s :: servers) (hsn : (mc.servers.map Server.addr).Nodup)
    (hg : PlainRgroups mc') (hgs : mc'.rgroups = g :: rgroups)
    (hgn : (mc'.rgroups.map Rgroup.groupname).Nodup) :
    (ServerTakesOwn md5 servers s ↔ 160 * mc.servers.length < 2 ^ 32) ∧
      (GroupTakesOwn md5 rgroups g ↔ 160 * mc'.rgroups.length < 2 ^ 32) := by
  rw [hs, map_cons, nodup_cons] at hsn
  rw [hgs, map_cons, nodup_cons] at hgn
  rw [hs, hgs, length_cons, length_cons]
  refine ⟨⟨fun ht => ?_, serverTakesOwn_of_lt⟩, ⟨fun ht => ?_, groupTakesOwn_of_lt⟩⟩ <;>
    (by_contra hb; rw [not_lt] at hb)
  · obtain ⟨sorted, hp, hlt⟩ := exists_sorted
      (show (servers.map _).Nodup from map_map ▸ hsn.2.map addrHostport_injective)
    have h₂ := h.of_subset (show s :: sorted ⊆ mc.servers from hs ▸ (hp.cons s).subset)
    have h₁ := h₂.of_subset (subset_cons_self s sorted)
    have hn : sorted ≠ [] := ne_nil_of_length_pos (by rw [hp.length_eq]; omega)
    obtain ⟨now₁, info₁, hin₁, -, hf₁⟩ := h₁.update Env.granted_ok (.ofMd5 md5) hn
    obtain ⟨now₂, info₂, hin₂, -, hf₂⟩ := h₂.update Env.granted_ok (.ofMd5 md5) (cons_ne_nil _ _)
    obtain ⟨hash, d, e, hd, he, hes, hed⟩ := (h₁.plain now₁).disturbed (h₂.plain now₂)
      ((hp.map _).mem_iff.not.2 hsn.1) hlt (by rwa [hp.length_eq]) hin₁ hin₂
    have hk := (ht (.ofMd5 md5) (.ofMd5 md5) .granted .granted _ _ [] sorted rfl rfl Env.granted_ok
      Env.granted_ok h₁ h₂ hp rfl rfl 0 0 hash).2.2
    rw [hf₁, hf₂, hd, he] at hk
    exact hk.not_of_ne hes hed
  · obtain ⟨sorted, hp, hlt⟩ := exists_sorted hgn.2
    have h₂ := hg.of_subset (show g :: sorted ⊆ mc'.rgroups from hgs ▸ (hp.cons g).subset)
    have h₁ := h₂.of_subset (subset_cons_self g sorted)
    have hn : sorted ≠ [] := ne_nil_of_length_pos (by rw [hp.length_eq]; omega)
    obtain ⟨info₁, mc₁, hin₁, hu₁, hf₁⟩ := h₁.update Env.granted_ok (.ofMd5 md5) hn
    obtain ⟨info₂, mc₂, hin₂, hu₂, hf₂⟩ := h₂.update Env.granted_ok (.ofMd5 md5) (cons_ne_nil _ _)
    obtain ⟨hash, d, e, hd, he, hes, hed⟩ := h₁.plain.disturbed h₂.plain
      ((hp.map _).mem_iff.not.2 hgn.1) hlt (by rwa [hp.length_eq]) hin₁ hin₂
    obtain ⟨mc₁', mc₂', hu₁', hu₂', hk⟩ := ht (.ofMd5 md5) (.ofMd5 md5) .granted .granted _ _ [] sorted
      rfl rfl Env.granted_ok Env.granted_ok h₁ h₂ hp rfl rfl 0 0 hash
    cases hu₁.symm.trans hu₁'
    cases hu₂.symm.trans hu₂'
    rw [hf₁, hf₂, hd, he] at hk
    exact hk.not_of_ne hes hed

end Joining

def sampleRgroupClient (names : List CStr) : Memcached :=
  { memcachedCreate .consistentKetamaSpy ⟨false, false, false, true⟩ with
    rgroups := names.mapIdx fun x name => ⟨name, x, 1, []⟩ }

/-- The second of three colliding servers joins, and the second of two groups. -/
theorem placement_minimal_disruption_middle :
    KeptOrTaken (⟨lit ['b'], rfl⟩, defaultPort)
      (serverFor (updateContinuum (.ofMd5 fun _ _ => 0) .granted
        (sampleClient [⟨lit ['a'], rfl⟩, ⟨lit ['c'], rfl⟩])).2 0 7)
      (serverFor (updateContinuum (.ofMd5 fun _ _ => 0) .granted
        (sampleClient [⟨lit ['a'], rfl⟩, ⟨lit ['b'], rfl⟩, ⟨lit ['c'], rfl⟩])).2 0 7) ∧
    ∃ mc₁ mc₂, updateContinuumBasedOnRgroups (.ofMd5 fun _ _ => 0) .granted
        (sampleRgroupClient [lit ['a']]) = .ok (.success, mc₁) ∧
      updateContinuumBasedOnRgroups (.ofMd5 fun _ _ => 0) .granted
        (sampleRgroupClient [lit ['a'], lit ['b']]) = .ok (.success, mc₂) ∧
      KeptOrTaken (lit ['b']) (rgroupFor mc₁ 0 7) (rgroupFor mc₂ 0 7) := by
  have hg₁ : PlainRgroups (sampleRgroupClient [lit ['a']]) := ⟨rfl, rfl, by decide, by decide⟩
  have hg₂ : PlainRgroups (sampleRgroupClient [lit ['a'], lit ['b']]) :=
    ⟨rfl, rfl, by decide, by decide⟩
  have hg₃ : PlainRgroups { sampleRgroupClient [] with
      rgroups := [⟨lit ['b'], 1, 1, []⟩, ⟨lit ['a'], 0, 1, []⟩] } :=
    ⟨rfl, rfl, by decide, by decide⟩
  have h₁ : PlainServers (sampleClient [⟨lit ['a'], rfl⟩, ⟨lit ['c'], rfl⟩]) :=
    sampleClient_plain (by decide)
  have h₂ : PlainServers (sampleClient [⟨lit ['a'], rfl⟩, ⟨lit ['b'], rfl⟩, ⟨lit ['c'], rfl⟩]) :=
    sampleClient_plain (by decide)
  have h₃ : PlainServers (sampleClient [⟨lit ['b'], rfl⟩, ⟨lit ['a'], rfl⟩, ⟨lit ['c'], rfl⟩]) :=
    sampleClient_plain (by decide)
  obtain ⟨hs, hg⟩ : (ServerTakesOwn (fun _ _ => 0) _ _ ↔ _) ∧ (GroupTakesOwn (fun _ _ => 0) _ _ ↔ _) :=
    placement_minimal_disruption_iff h₃ rfl (by decide) hg₃ rfl (by decide)
  refine ⟨(hs.2 (by decide) _ _ _ _ _ _ [serverInit ⟨lit ['a'], rfl⟩ defaultPort 0 .tcp]
    [serverInit ⟨lit ['c'], rfl⟩ defaultPort 0 .tcp] rfl rfl Env.granted_ok Env.granted_ok h₁ h₂
    (Perm.refl _) rfl rfl 0 0 7).2.2, ?_⟩
  exact hg.2 (by decide) _ _ _ _ _ _ [⟨lit ['a'], 0, 1, []⟩] [] rfl rfl Env.granted_ok Env.granted_ok
    hg₁ hg₂ (Perm.refl _) rfl rfl 0 0 7

/-- On a ring that is not too large the first of the crowd has a hash. -/
theorem serverFor_crowd (hb : 160 * (n + 1) < 2 ^ 32) (md5 : CStr → Fin 16 → Fin 256) :
    ∃ hash, serverFor (updateContinuum (.ofMd5 md5) .granted (sampleClient (crowd n))).2 0 hash
      = some (⟨lit ['-'], rfl⟩, defaultPort) := by
  have h : PlainServers (sampleClient (crowd n)) := sampleClient_plain crowd_short
  have hlen : (sampleClient (crowd n)).servers.length = n + 1 :=
    (length_map _).trans (length_crowd n)
  have hn := ne_nil_of_length_pos (hlen.trans_gt (Nat.succ_pos n))
  obtain ⟨now, info, hin, -, hf⟩ := h.update Env.granted_ok (.ofMd5 md5) hn
  have hz : firstHost (n + 1) = 0 := by
    have : (160 * (n + 1) - 1) / 2 ^ 32 = 0 := by omega
    rw [firstHost, this, Nat.zero_mul, Nat.zero_div]
  obtain ⟨hash, hd⟩ := ((h.plain now).answers hin hn).2 fun a b j ha hj hb => by
      rw [hlen, hz] at ha hj
      obtain ⟨j, rfl⟩ := Nat.exists_eq_succ_of_ne_zero hj.ne'
      obtain rfl : serverInit ⟨lit ['-'], rfl⟩ defaultPort 0 .tcp = a := Option.some.inj ha
      rw [sampleClient, crowd, map_cons, getElem?_cons_succ] at hb
      obtain ⟨name, hname, rfl⟩ := mem_map.1 (mem_of_getElem? hb)
      obtain ⟨k, -, rfl⟩ := mem_map.1 hname
      obtain ⟨-, c, cs, hc, hdig⟩ := numbered_spec k
      change lit ['-'] ++ _ < (numbered k).1 ++ _
      rw [hc]
      exact List.Lex.rel (dash_lt_digit hdig)
  refine ⟨hash, ?_⟩
  rw [hf, hd, hlen, hz]
  rfl

/-- With 26843545 servers some hash goes to the first of them.  Another server joins in front of it,
and every hash goes to the last. -/
theorem placement_disrupted :
    (∀ md5, ∃ hash, serverFor (updateContinuum (.ofMd5 md5) .granted
        (sampleClient (crowd 26843544))).2 0 hash = some (⟨lit ['-'], rfl⟩, defaultPort)) ∧
    ∀ md5 hash, serverFor (updateContinuum (.ofMd5 md5) .granted
        (sampleClient (⟨lit ['+'], rfl⟩ :: crowd 26843544))).2 0 hash
      = some (numbered 26843543, defaultPort) := by
  refine ⟨serverFor_crowd (by decide), fun md5 hash => ?_⟩
  · rw [serverFor_last (by rw [length_cons, length_crowd]) (forall_mem_cons.2 ⟨by decide, crowd_short⟩),
      getElem?_cons_succ, crowd_last, Option.map_some]

end ArcusClient
