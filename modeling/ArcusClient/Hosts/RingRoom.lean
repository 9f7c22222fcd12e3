import ArcusClient.Hosts.RingMatches

/-!
# The room for the ring

`update_continuum` asks for room for 160 points a live server, and for ten servers more.  A weighted
share is rounded down, so that the shares add up to 160 points a server or a little less; and the
server of at least the average weight gets its 160 points (`sum_shares_le`, `exists_full_share`).  The
counters are right as long as there are fewer than `2 ^ 32` points (`ring_room_iff`).
-/

namespace ArcusClient

open List Function

/-! ## Filling the array -/

/-- The loop over `host_index`, for live servers with the given numbers of points.
A number is converted to `uint32_t`, which is undefined for one that is too large. -/
def fillContinuum : List Nat → ContinuumSt → Option ContinuumSt
  | [], c => some c
  | pointerPerServer :: rest, c =>
    if 2 ^ 32 ≤ pointerPerServer then none
    else fillContinuum rest (c.placeServer pointerPerServer)

/-- `MEMCACHED_CONTINUUM_ADDITION`. -/
def continuumAddition : Nat := 10

/-- The entries that `new_continuum` has room for.  The sum has the type of
`live_servers`, the product is a `size_t`. -/
def continuumRoom (liveServers : Nat) : Nat :=
  (liveServers + continuumAddition) % 2 ^ 32 * pointsPerServer

/-- It is the loop that builds the ring, where the numbers can be converted. -/
theorem fillContinuum_eq {shares : List Nat} {c : ContinuumSt} : fillContinuum shares c =
    if ∀ p ∈ shares, p < 2 ^ 32 then some (shares.foldl (fun c p => c.placeServer p) c) else none := by
  induction shares generalizing c with
  | nil => rfl
  | cons p rest ih =>
    rw [fillContinuum, ih, foldl_cons]
    simp only [forall_mem_cons, ite_and, Nat.not_le]
    split_ifs <;> first | rfl | omega

section Fill

variable {shares : List Nat} (hs : ∀ p ∈ shares, 4 ∣ p)

include hs

theorem fillContinuum_counts (hc : fillContinuum shares {} = some c) :
    c.writes.length = shares.sum ∧ c.pointerCounter = shares.sum % 2 ^ 32 := by
  rw [fillContinuum_eq, ← placeServers, placeServers_eq hs] at hc
  split_ifs at hc
  cases hc
  simp

theorem fillContinuum_of_lt (h : shares.sum < 2 ^ 32) :
    fillContinuum shares {} = some ⟨shares.sum, shares.sum, range shares.sum⟩ := by
  have ha : ∀ p ∈ shares, p < 2 ^ 32 := fun p hp =>
    lt_of_le_of_lt (single_le_sum (fun _ _ => Nat.zero_le _) _ hp) h
  rw [fillContinuum_eq, if_pos ha, ← placeServers, placeServers_eq hs,
    Wrapping.map_mod_range_of_le h.le, Nat.mod_eq_of_lt h]

end Fill

/-! ## The sum of the shares -/

section Shares

variable (P : Platform)

/-- The platform with exact arithmetic in the place of its own. -/
def Platform.exactly : Platform := { P with float := .exact, double := .exact }

theorem weightedShare_exactly (weight total n : Nat) :
    weightedShare P.exactly weight total n = weight * (40 * n / total : ℚ) + 1 / 10 ^ 10 := by
  simp only [weightedShare, Platform.exactly, Rounding.exact, pointsPerServer]
  ring

variable {P} {ws : List Nat} {weighted : Bool}

theorem sum_shares_of_same (hb : (weighted && !allWeightsSame ws) = false) :
    (ws.map (pointerPerServer P weighted ws)).sum = ws.length * 160 := by
  have hp : pointerPerServer P weighted ws = fun _ => 160 := by
    funext w
    rw [pointerPerServer, hb]
    rfl
  rw [hp, map_const', sum_replicate, smul_eq_mul]

theorem sum_shares_of_share (hb : (weighted && !allWeightsSame ws) = true) :
    (ws.map (pointerPerServer P weighted ws)).sum
      = (ws.map fun w => ⌊weightedShare P w ws.sum ws.length⌋₊).sum * 4 := by
  rw [← sum_map_mul_right]
  exact congrArg sum (map_congr_left fun w _ => if_pos hb)

variable (hW : 0 < ws.sum)

include hW

/-- The shares add up to 40 strings a server, but for what is added against rounding
errors. -/
theorem sum_weightedShare : (ws.map fun w => weightedShare P.exactly w ws.sum ws.length).sum
      = 40 * ws.length + ws.length / 10 ^ 10 := by
  have hW' : (ws.sum : ℚ) ≠ 0 := by exact_mod_cast hW.ne'
  simp only [weightedShare_exactly]
  rw [sum_map_add, sum_map_mul_right, ← Nat.cast_list_sum, map_const', sum_replicate,
    mul_div_cancel₀ _ hW']
  ring

theorem sum_shares_le (hn : ws.length < 10 ^ 10) :
    (ws.map (pointerPerServer P.exactly weighted ws)).sum ≤ 160 * ws.length := by
  rcases hb : weighted && !allWeightsSame ws
  · rw [sum_shares_of_same hb, mul_comm]
  · have hf : ((ws.map fun w => ⌊weightedShare P.exactly w ws.sum ws.length⌋₊).sum : ℚ)
        < 40 * ws.length + 1 := by
      have hn' : (ws.length : ℚ) / 10 ^ 10 < 1 := by
        rw [div_lt_one (by positivity)]
        exact_mod_cast hn
      have := sum_weightedShare (P := P) hW
      rw [Nat.cast_list_sum, map_map]
      refine lt_of_le_of_lt (sum_le_sum fun w _ => Nat.floor_le ?_) (by linarith)
      rw [weightedShare_exactly]
      positivity
    have hf' : (ws.map fun w => ⌊weightedShare P.exactly w ws.sum ws.length⌋₊).sum
        < 40 * ws.length + 1 := by exact_mod_cast hf
    rw [sum_shares_of_share hb]
    omega

/-- Rounding down costs a server less than four points. -/
theorem le_sum_shares :
    156 * ws.length ≤ (ws.map (pointerPerServer P.exactly weighted ws)).sum := by
  rcases hb : weighted && !allWeightsSame ws
  · rw [sum_shares_of_same hb]
    omega
  · have hf : (39 * ws.length : ℚ)
        ≤ (ws.map fun w => ⌊weightedShare P.exactly w ws.sum ws.length⌋₊).sum := by
      have := sum_weightedShare (P := P) hW
      have hl := sum_le_sum (l := ws) fun w _ =>
        (Nat.lt_floor_add_one (weightedShare P.exactly w ws.sum ws.length)).le
      rw [sum_map_add, map_const', sum_replicate, nsmul_eq_mul] at hl
      rw [Nat.cast_list_sum, map_map]
      exact le_trans (by linarith) (sub_le_iff_le_add.2 hl)
    have hf' : 39 * ws.length
        ≤ (ws.map fun w => ⌊weightedShare P.exactly w ws.sum ws.length⌋₊).sum := by
      exact_mod_cast hf
    rw [sum_shares_of_share hb]
    omega

/-- A server of at least the average weight gets its 160 points. -/
theorem exists_full_share : ∃ p ∈ ws.map (pointerPerServer P.exactly weighted ws), 160 ≤ p := by
  have hn : ws ≠ [] := by
    rintro rfl
    exact hW.ne rfl
  obtain ⟨w, hw, ha⟩ := exists_average_le hn id
  rw [map_id] at ha
  refine ⟨_, mem_map_of_mem hw, ?_⟩
  rw [pointerPerServer]
  split
  · have hsh : ((40 : ℕ) : ℚ) ≤ weightedShare P.exactly w ws.sum ws.length := by
      have hW' : (0 : ℚ) < ws.sum := by exact_mod_cast hW
      have ha' : (1 : ℚ) ≤ w * ws.length / ws.sum := by
        rw [le_div_iff₀ hW', one_mul]
        exact_mod_cast ha
      calc ((40 : ℕ) : ℚ) = 40 * 1 := by norm_num
        _ ≤ 40 * (w * ws.length / ws.sum) := by gcongr
        _ = w * (40 * ws.length / ws.sum : ℚ) := by ring
        _ ≤ w * (40 * ws.length / ws.sum : ℚ) + 1 / 10 ^ 10 := by norm_num
        _ = _ := (weightedShare_exactly P _ _ _).symm
    have := Nat.le_floor hsh
    omega
  · exact le_rfl

end Shares

/-! ## The ring is neither overrun nor empty -/

/-- The ring built for servers with these numbers of points: the entries from the first on
are written, `pointer_counter` of them and one after the other, within the room; and
there are some. -/
def RingHasRoom (liveServers : Nat) (shares : List Nat) : Prop :=
  ∃ c, fillContinuum shares {} = some c ∧ c.writes = range c.pointerCounter ∧
    c.pointerCounter ≤ 160 * liveServers ∧ 160 * liveServers < continuumRoom liveServers ∧
    (∀ i ∈ c.writes, i < continuumRoom liveServers) ∧ (∃ p ∈ shares, 160 ≤ p) ∧
    0 < c.pointerCounter

/-- The numbers of points of the live servers, with exact arithmetic. -/
def liveShares (P : Platform) (mc : Memcached) (now : Nat) : List Nat :=
  ((serverRing mc now).live mc.servers).map
    ((serverRing mc now).pps P.exactly mc.ketama.weighted mc.servers)

section Room

variable {P : Platform} {mc : Memcached} {now : Nat}

theorem four_dvd_liveShares : ∀ p ∈ liveShares P mc now, 4 ∣ p := by
  intro p hp
  obtain ⟨s, -, rfl⟩ := mem_map.1 hp
  exact four_dvd_pointerPerServer _ _ _

/-- The ring is neither overrun nor empty as long as the points of the live
servers can be counted in 32 bits, and only so long. -/
theorem ring_room_iff (hne : (serverRing mc now).live mc.servers ≠ [])
    (hpo : ∀ s ∈ (serverRing mc now).live mc.servers, 0 < s.weight) :
    RingHasRoom ((serverRing mc now).live mc.servers).length (liveShares P mc now)
      ↔ (liveShares P mc now).sum < 2 ^ 32 := by
  set live := (serverRing mc now).live mc.servers with hl
  set ws := live.map (serverRing mc now).weight with hw
  have hsh : liveShares P mc now = ws.map (pointerPerServer P.exactly mc.ketama.weighted ws) := by
    rw [map_map]
    rfl
  have hlen : ws.length = live.length := length_map _
  have hW : 0 < ws.sum := by
    obtain ⟨s, hs⟩ := exists_mem_of_ne_nil _ hne
    exact lt_of_lt_of_le (hpo s hs) (single_le_sum (fun _ _ => Nat.zero_le _) _ (mem_map_of_mem hs))
  constructor
  · rintro ⟨c, hc, hwr, -⟩
    obtain ⟨hle, hco⟩ := fillContinuum_counts four_dvd_liveShares hc
    rw [hwr, length_range, hco] at hle
    exact hle ▸ Nat.mod_lt _ (by decide)
  · intro hN
    have hlo := @le_sum_shares P ws mc.ketama.weighted hW
    have hu := @sum_shares_le P ws mc.ketama.weighted hW
    have hex := @exists_full_share P ws mc.ketama.weighted hW
    rw [← hsh, hlen] at hlo hu
    rw [← hsh] at hex
    -- Few enough points come from few enough servers.
    have hr : continuumRoom live.length = (live.length + 10) * 160 := by
      rw [continuumRoom, continuumAddition, Nat.mod_eq_of_lt (by omega)]
      rfl
    have hca := hu (by omega)
    refine ⟨_, fillContinuum_of_lt four_dvd_liveShares hN, rfl, hca, by omega, ?_, hex, ?_⟩
    · intro i hi
      have := mem_range.1 hi
      omega
    · obtain ⟨p, hp, hf⟩ := hex
      exact lt_of_lt_of_le (by omega) (single_le_sum (fun _ _ => Nat.zero_le _) _ hp)

/-- A weighted client of the given servers, none of which is ejected. -/
def roomyClient (servers : List Server) : Memcached :=
  { memcachedCreate .consistentKetamaSpy ⟨false, false, false, false⟩ with
    servers := servers
    ketama := ⟨true, 0, none⟩ }

def weighing (weight : Nat) : Server := serverInit (default : Server).hostname 11211 weight .tcp

theorem live_roomyClient (servers : List Server) :
    (serverRing (roomyClient servers) now).live servers = servers :=
  filter_eq_self.2 fun _ _ => rfl

theorem ring_room_two : RingHasRoom 2
    (liveShares (Platform.ofMd5 fun _ _ => 0) (roomyClient [weighing 1, weighing 3]) 0) := by
  refine (@ring_room_iff _ (roomyClient [weighing 1, weighing 3]) 0 (by decide) (by decide)).2 ?_
  have hl := @sum_shares_le (Platform.ofMd5 fun _ _ => 0) [1, 3] true (by decide) (by decide)
  exact lt_of_le_of_lt hl (by decide)

theorem liveShares_replicate (n : Nat) :
    liveShares P (roomyClient (replicate n (weighing 1))) now = replicate n 160 := by
  have hsa : allWeightsSame (replicate n 1) = true := by
    cases n with
    | zero => rfl
    | succ n => simp [allWeightsSame, replicate_succ]
  have hw : (replicate n (weighing 1)).map Server.weight = replicate n 1 := map_replicate
  change map _ ((serverRing (roomyClient _) now).live (replicate n (weighing 1))) = _
  rw [live_roomyClient, map_replicate]
  congr 1
  change pointerPerServer P.exactly true (map Server.weight
    ((serverRing (roomyClient _) now).live (replicate n (weighing 1)))) 1 = 160
  rw [live_roomyClient, hw]
  exact pointerPerServer_of_same hsa 1

theorem fillContinuum_replicate (n : Nat) :
    ∃ c, fillContinuum (replicate n 160) {} = some c ∧ c.pointerCounter = n * 160 % 2 ^ 32 ∧
      c.writes.length = n * 160 := by
  have hd : ∀ p ∈ replicate n 160, 4 ∣ p := fun p hp => eq_of_mem_replicate hp ▸ (by decide)
  have hl : ∀ p ∈ replicate n 160, p < 2 ^ 32 := fun p hp =>
    eq_of_mem_replicate hp ▸ (by decide)
  have hc := (fillContinuum_eq (c := {})).trans (if_pos hl)
  have hsu : (replicate n 160).sum = n * 160 := by rw [sum_replicate, smul_eq_mul]
  obtain ⟨hle, hco⟩ := fillContinuum_counts hd hc
  exact ⟨_, hc, hsu ▸ hco, hsu ▸ hle⟩

/-- With `2 ^ 27` servers of one weight, `pointer_counter` comes back to zero. -/
theorem ring_counter_wraps : ∃ c, fillContinuum (liveShares (Platform.ofMd5 fun _ _ => 0)
      (roomyClient (replicate (2 ^ 27) (weighing 1))) 0) {} = some c ∧
    c.pointerCounter = 0 ∧ c.writes.length = 5 * 2 ^ 32 ∧
    ¬ RingHasRoom (2 ^ 27) (liveShares (Platform.ofMd5 fun _ _ => 0)
      (roomyClient (replicate (2 ^ 27) (weighing 1))) 0) := by
  rw [liveShares_replicate]
  obtain ⟨c, hc, hco, hl⟩ := fillContinuum_replicate (2 ^ 27)
  have hz : c.pointerCounter = 0 := hco.trans (by norm_num)
  refine ⟨c, hc, hz, hl.trans (by norm_num), ?_⟩
  rintro ⟨c', hc', -, -, -, -, -, hp⟩
  obtain rfl : c = c' := Option.some.inj (hc.symm.trans hc')
  exact hp.ne' hz

end Room

end ArcusClient
