import Tess.Core.Shape
import Mathlib.Tactic.Linarith

/-!
# Saturating arithmetic and lattice distances

Path costs are 32-bit numbers whose greatest value `infiniteCost` is reserved as the
sentinel of an unreached tile; every sum and every distance saturates there.  Distances are
computed in 64 bits first.

Each saturating function is proved equal to the exact one cut off at the sentinel
(`saturatingAdd_eq_min`, `manhattan_eq_min`, `saturatingU32_hexDistance`), so that a search
may be argued about with exact distances.
-/

namespace Tess

/-- Greatest 32-bit value, the sentinel of an unreached tile. -/
def infiniteCost : ℕ := 2 ^ 32 - 1

/-- Greatest 64-bit value. -/
def u64Max : ℕ := 2 ^ 64 - 1

theorem infiniteCost_eq : infiniteCost = 4294967295 := by decide

theorem infiniteCost_pos : 0 < infiniteCost := by decide

/-- `detail::saturating_add` on 32-bit costs. -/
def saturatingAdd (lhs rhs : ℕ) : ℕ :=
  if rhs > infiniteCost - lhs then infiniteCost else lhs + rhs

/-- `detail::saturating_add` on 64-bit distances. -/
def saturatingAdd64 (lhs rhs : ℕ) : ℕ := if lhs > u64Max - rhs then u64Max else lhs + rhs

/-- `detail::saturating_u32`. -/
def saturatingU32 (value : ℕ) : ℕ := if value > infiniteCost then infiniteCost else value

/-- `detail::abs_delta`: magnitude of the difference of two coordinates. -/
def absDelta (lhs rhs : ℤ) : ℕ := if lhs < rhs then (rhs - lhs).toNat else (lhs - rhs).toNat

/-- Manhattan distance, saturated at the greatest 64-bit value. -/
def manhattanDistance (lhs rhs : Coord3) : ℕ :=
  saturatingAdd64 (absDelta lhs.x rhs.x)
    (saturatingAdd64 (absDelta lhs.y rhs.y) (absDelta lhs.z rhs.z))

/-- `detail::manhattan`: Manhattan distance in the 32-bit cost domain. -/
def manhattan (lhs rhs : Coord3) : ℕ := saturatingU32 (manhattanDistance lhs rhs)

/-- `detail::signed_sum_magnitude` of two signed deltas. -/
def signedSumMagnitude (negL : Bool) (magL : ℕ) (negR : Bool) (magR : ℕ) : ℕ :=
  if negL = negR then magL + magR
  else if magL < magR then magR - magL else magL - magR

/-- Axial hex distance of the first two components, saturated at the greatest 64-bit
value. -/
def hexDistance (lhs rhs : Coord3) : ℕ :=
  let dq := absDelta lhs.x rhs.x
  let dr := absDelta lhs.y rhs.y
  let twice := dq + dr +
    signedSumMagnitude (decide (lhs.x < rhs.x)) dq (decide (lhs.y < rhs.y)) dr
  if twice >>> 1 > u64Max then u64Max else twice >>> 1

/-! ### Exact distances -/

/-- Exact Manhattan distance. -/
def gridDist (a b : Coord3) : ℕ :=
  (a.x - b.x).natAbs + (a.y - b.y).natAbs + (a.z - b.z).natAbs

/-- Exact axial hex distance. -/
def hexDist (a b : Coord3) : ℕ :=
  ((a.x - b.x).natAbs + (a.y - b.y).natAbs + (a.x - b.x + (a.y - b.y)).natAbs) / 2

theorem saturatingAdd_eq_min {lhs rhs : ℕ} (h : lhs ≤ infiniteCost) :
    saturatingAdd lhs rhs = min (lhs + rhs) infiniteCost := by
  unfold saturatingAdd
  split_ifs <;> omega

@[simp] theorem saturatingU32_eq_min (value : ℕ) :
    saturatingU32 value = min value infiniteCost := by
  unfold saturatingU32
  split_ifs <;> omega

theorem absDelta_eq (a b : ℤ) : absDelta a b = (a - b).natAbs := by
  unfold absDelta
  split_ifs <;> omega

theorem min_saturatingAdd64 (lhs rhs : ℕ) :
    min (saturatingAdd64 lhs rhs) infiniteCost = min (lhs + rhs) infiniteCost := by
  have hM : infiniteCost ≤ u64Max := by decide
  unfold saturatingAdd64
  split_ifs <;> omega

/-- Cutting the 64-bit saturated distance off at 32 bits is cutting off the exact one. -/
theorem manhattan_eq_min (a b : Coord3) : manhattan a b = min (gridDist a b) infiniteCost := by
  have h := min_saturatingAdd64 (absDelta a.y b.y) (absDelta a.z b.z)
  rw [manhattan, saturatingU32_eq_min, manhattanDistance, min_saturatingAdd64, gridDist]
  simp only [absDelta_eq] at h ⊢
  omega

theorem signedSumMagnitude_eq (a b c d : ℤ) :
    signedSumMagnitude (decide (a < b)) (a - b).natAbs (decide (c < d)) (c - d).natAbs =
      (a - b + (c - d)).natAbs := by
  unfold signedSumMagnitude
  by_cases h1 : a < b <;> by_cases h2 : c < d <;>
    simp only [h1, h2, decide_true, decide_false, if_true, Bool.true_eq_false,
      Bool.false_eq_true, if_false]
  · omega
  · split_ifs <;> omega
  · split_ifs <;> omega
  · omega

theorem saturatingU32_hexDistance (a b : Coord3) :
    saturatingU32 (hexDistance a b) = min (hexDist a b) infiniteCost := by
  have hM : infiniteCost ≤ u64Max := by decide
  simp only [hexDistance, absDelta_eq, signedSumMagnitude_eq, saturatingU32_eq_min, hexDist,
    Nat.shiftRight_eq_div_pow, pow_one]
  split_ifs <;> omega

@[simp] theorem gridDist_self (a : Coord3) : gridDist a a = 0 := by simp [gridDist]

theorem gridDist_comm (a b : Coord3) : gridDist a b = gridDist b a := by
  unfold gridDist; omega

theorem natAbs_sub_triangle (a b c : ℤ) :
    (a - c).natAbs ≤ (a - b).natAbs + (b - c).natAbs := by
  omega

theorem gridDist_triangle (a b c : Coord3) : gridDist a c ≤ gridDist a b + gridDist b c := by
  have hx := natAbs_sub_triangle a.x b.x c.x
  have hy := natAbs_sub_triangle a.y b.y c.y
  have hz := natAbs_sub_triangle a.z b.z c.z
  unfold gridDist
  linarith

@[simp] theorem hexDist_self (a : Coord3) : hexDist a a = 0 := by simp [hexDist]

end Tess
