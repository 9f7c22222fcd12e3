import Mathlib.Data.Int.Log
import Mathlib.Data.Rat.Floor
import Mathlib.Tactic

/-!
# Rounding to a binary float

A float operation is the exact operation on the rationals followed by a rounding.  A `Rounding` is a
function whose relative error on the non-negative rationals is at most `2 ^ (-24)`, so results for
every `Rounding` hold for single and double precision, and for exact arithmetic.

`Rounding.nearestEven` is the rounding of the hardware.  Overflow and subnormal numbers are outside
it: its exponent has no bounds.
-/

/-- A rounding of non-negative rationals with the relative error of single
precision. -/
structure Rounding where
  /-- The number that stands for the exact one. -/
  rnd : ℚ → ℚ
  /-- It is off by one part in `2 ^ 24` at most. -/
  error : ∀ q, 0 ≤ q → |rnd q - q| ≤ q / 2 ^ 24

namespace Rounding

def exact : Rounding where
  rnd q := q
  error q hq := by simpa using by positivity

/-- The integer nearest to a number, and of two the even one. -/
def halfEven (q : ℚ) : ℤ :=
  if q - ⌊q⌋ < 1 / 2 then ⌊q⌋
  else if 1 / 2 < q - ⌊q⌋ then ⌊q⌋ + 1
  else if ⌊q⌋ % 2 = 0 then ⌊q⌋ else ⌊q⌋ + 1

theorem abs_halfEven_sub_le (q : ℚ) : |(halfEven q : ℚ) - q| ≤ 1 / 2 := by
  have h0 := Int.floor_le q
  have h1 := Int.lt_floor_add_one q
  rw [abs_le]
  rw [halfEven]
  split_ifs <;> push_cast <;> constructor <;> linarith

/-- The spacing of the numbers of precision `p` around `q`. -/
def ulp (p : Nat) (q : ℚ) : ℚ := 2 ^ (Int.log 2 q + 1 - p)

theorem ulp_pos (p : Nat) (q : ℚ) : 0 < ulp p q := zpow_pos (by norm_num) _

theorem ulp_le (hq : 0 < q) : ulp p q / 2 ≤ q / 2 ^ p := by
  have hl : (2 : ℚ) ^ Int.log 2 q ≤ q := by
    exact_mod_cast Int.zpow_log_le_self (by norm_num) hq
  have : ulp p q / 2 = 2 ^ Int.log 2 q / 2 ^ p := by
    rw [ulp, zpow_sub₀ (by norm_num), zpow_add₀ (by norm_num), zpow_natCast]
    ring
  rw [this]
  gcongr

/-- Rounding to the nearest number of precision `p`, as IEEE arithmetic does it
inside the range of its exponents. -/
def nearestEven (p : Nat) (hp : 24 ≤ p) : Rounding where
  rnd q := if q = 0 then 0 else halfEven (q / ulp p q) * ulp p q
  error q hq := by
    by_cases h0 : q = 0
    · simp [h0]
    have hpos : 0 < q := lt_of_le_of_ne hq (Ne.symm h0)
    have hu := ulp_pos p q
    have hsplit : (halfEven (q / ulp p q) : ℚ) * ulp p q - q
        = ((halfEven (q / ulp p q) : ℚ) - q / ulp p q) * ulp p q := by
      field_simp
    rw [if_neg h0, hsplit, abs_mul, abs_of_pos hu]
    calc |(halfEven (q / ulp p q) : ℚ) - q / ulp p q| * ulp p q
        ≤ 1 / 2 * ulp p q := mul_le_mul_of_nonneg_right (abs_halfEven_sub_le _) hu.le
      _ = ulp p q / 2 := by ring
      _ ≤ q / 2 ^ p := ulp_le hpos
      _ ≤ q / 2 ^ 24 := by gcongr; norm_num

def single : Rounding := nearestEven 24 (le_refl _)

def double : Rounding := nearestEven 53 (by norm_num)

end Rounding
