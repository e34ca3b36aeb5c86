import Tess.Core.UInt128
import Tess.Lib.Checked
import Tess.Storage.Dirty
import Tess.Topology.Legal

/-!
# The heuristic in machine words

`heuristic` computes its distances with numbers.  Here they are computed as the source does, in
64-bit words and pairs of them.  Each operation is checked against the exact result, so that a value
that wraps makes the whole computation `none`.

* `absDeltaWord`, `manhattanDistanceWord`, `hexDistanceWord`, `diagonalHeuristicWord` : the distance
  computations;
* `heuristicWord` : the heuristic, and `heuristicWord_eq` : **no value wraps**, and the result is
  `heuristic`;
* `heuristic_le_of_forward`, `heuristic_le_of_reverse` : **the heuristic is consistent** with the
  probes of a tile in both directions, also where costs and distances are cut off.
-/

namespace Tess

open Checked

/-! ### Words -/

/-- Every component is a signed 64-bit number. -/
def Coord3.IsInt64 (c : Coord3) : Prop := ∀ a, -2 ^ 63 ≤ c.get a ∧ c.get a < 2 ^ 63

/-- A difference of words. -/
def sub64 (lhs rhs : BitVec 64) : Option (BitVec 64) :=
  exactly BitVec.toNat (lhs - rhs) (lhs.toNat - rhs.toNat)

/-- A sum of words. -/
def add64 (lhs rhs : BitVec 64) : Option (BitVec 64) :=
  exactly BitVec.toNat (lhs + rhs) (lhs.toNat + rhs.toNat)

/-- `detail::add` of pairs of words. -/
def add128 (lhs rhs : UInt128) : Option UInt128 :=
  exactly UInt128.toNat (lhs.add rhs) (lhs.toNat + rhs.toNat)

/-- A product of pairs of words. -/
def mul128 (lhs rhs : UInt128) : Option UInt128 :=
  exactly UInt128.toNat (lhs.mul rhs) (lhs.toNat * rhs.toNat)

/-- `detail::abs_delta`: the conversions to unsigned words are modulo `2 ^ 64`. -/
def absDeltaWord (lhs rhs : ℤ) : Option (BitVec 64) :=
  exactly BitVec.toNat
    (if lhs < rhs then BitVec.ofInt 64 rhs - BitVec.ofInt 64 lhs
    else BitVec.ofInt 64 lhs - BitVec.ofInt 64 rhs) (lhs - rhs).natAbs

/-- `detail::saturating_add`. -/
def saturatingAddWord (lhs rhs : BitVec 64) : Option (BitVec 64) :=
  (sub64 (BitVec.allOnes 64) rhs).bind fun room =>
    if lhs > room then some (BitVec.allOnes 64) else add64 lhs rhs

/-- `manhattan_distance`. -/
def manhattanDistanceWord (lhs rhs : Coord3) : Option (BitVec 64) :=
  (absDeltaWord lhs.x rhs.x).bind fun dx =>
    (absDeltaWord lhs.y rhs.y).bind fun dy =>
      (absDeltaWord lhs.z rhs.z).bind fun dz =>
        (saturatingAddWord dy dz).bind fun rest => saturatingAddWord dx rest

/-- `HexCoord`: an axial coordinate. -/
structure HexCoord where
  /-- First axis. -/
  q : ℤ
  /-- Second axis. -/
  r : ℤ
  deriving DecidableEq, Repr

/-- `to_hex_coord`, which asserts that the third component is zero. -/
def toHexCoord (coord : Coord3) : HexCoord := ⟨coord.x, coord.y⟩

/-- `detail::SignedMagnitude`. -/
structure SignedMagnitude where
  /-- The number is negative. -/
  negative : Bool := false
  /-- Its absolute value. -/
  magnitude : BitVec 64 := 0
  deriving DecidableEq, Repr

/-- `detail::signed_delta`. -/
def signedDelta (lhs rhs : ℤ) : Option SignedMagnitude :=
  (absDeltaWord lhs rhs).map fun magnitude => ⟨decide (lhs < rhs), magnitude⟩

/-- `detail::signed_sum_magnitude`. -/
def signedSumMagnitudeWord (lhs rhs : SignedMagnitude) : Option UInt128 :=
  if lhs.negative = rhs.negative then
    add128 (.ofWord lhs.magnitude) (.ofWord rhs.magnitude)
  else if lhs.magnitude < rhs.magnitude then
    (sub64 rhs.magnitude lhs.magnitude).map .ofWord
  else
    (sub64 lhs.magnitude rhs.magnitude).map .ofWord

/-- `hex_distance`. -/
def hexDistanceWord (lhs rhs : HexCoord) : Option (BitVec 64) :=
  (signedDelta lhs.q rhs.q).bind fun dq =>
    (signedDelta lhs.r rhs.r).bind fun dr =>
      (add128 (.ofWord dq.magnitude) (.ofWord dr.magnitude)).bind fun deltas =>
        (signedSumMagnitudeWord dq dr).bind fun sum =>
          (add128 deltas sum).map fun twiceDistance =>
            if (twiceDistance.shr 1).hi ≠ 0 then BitVec.allOnes 64 else (twiceDistance.shr 1).lo

/-- The greatest 32-bit value in a 64-bit word. -/
def costMax : BitVec 64 := 0xffffffff

/-- The distance as a cost, cut off at the sentinel. -/
def costOfDistance (distance : BitVec 64) : BitVec 32 :=
  if distance > costMax then BitVec.allOnes 32 else distance.setWidth 32

/-- `detail::saturating_u32`. -/
def saturatingU32Word (value : UInt128) : BitVec 32 :=
  if value.hi ≠ 0 ∨ value.lo > costMax then BitVec.allOnes 32 else value.lo.setWidth 32

/-- `ResolvedTransitionModel::diagonal_heuristic`. -/
def diagonalHeuristicWord (S : Shape) (costScale : ℕ) (c goal : Coord3) : Option (BitVec 32) :=
  (absDeltaWord (c.get (diagonalAxes S).1) (goal.get (diagonalAxes S).1)).bind fun a =>
    (absDeltaWord (c.get (diagonalAxes S).2) (goal.get (diagonalAxes S).2)).bind fun b =>
      let minor := if b < a then b else a
      let major := if a < b then b else a
      (mul128 (.ofWord minor) (.ofWord (BitVec.ofNat 64 StepPolicy.diagonalStepMultiplier))).bind
        fun diagonal =>
          (sub64 major minor).bind fun rest =>
            (mul128 (.ofWord rest) (.ofWord (BitVec.ofNat 64 costScale))).bind fun straight =>
              (add128 diagonal straight).map saturatingU32Word

/-- `ResolvedTransitionModel::heuristic` of a model without special transitions. -/
def heuristicWord (S : Shape) (policy : StepPolicy) (c goal : Coord3) : Option (BitVec 32) :=
  match policy with
  | .defaultSteps =>
    match S.lattice with
    | .hexAxial => (hexDistanceWord (toHexCoord c) (toHexCoord goal)).map costOfDistance
    | .orthogonal => (manhattanDistanceWord c goal).map costOfDistance
  | .diagonalSteps _ => diagonalHeuristicWord S policy.costScale c goal

/-! ### No value wraps -/

section Exact

/-- The computation ends in a word of that number. -/
def EndsIn {α : Type*} (number : α → ℕ) (result : Option α) (value : ℕ) : Prop :=
  ∃ w, result = some w ∧ number w = value

variable {x y u v : ℤ} {lhs rhs : BitVec 64}

theorem absDeltaWord_eq (hx : -2 ^ 63 ≤ x ∧ x < 2 ^ 63) (hy : -2 ^ 63 ≤ y ∧ y < 2 ^ 63) :
    EndsIn BitVec.toNat (absDeltaWord x y) (x - y).natAbs := by
  have heq : (if x < y then BitVec.ofInt 64 y - BitVec.ofInt 64 x
      else BitVec.ofInt 64 x - BitVec.ofInt 64 y).toNat = (x - y).natAbs := by
    split_ifs with h
    · rw [BitVec.toNat_sub, BitVec.toNat_ofInt, BitVec.toNat_ofInt]
      omega
    · rw [BitVec.toNat_sub, BitVec.toNat_ofInt, BitVec.toNat_ofInt]
      omega
  exact ⟨_, exactly_eq heq, heq⟩

theorem sub64_eq (h : rhs.toNat ≤ lhs.toNat) :
    EndsIn BitVec.toNat (sub64 lhs rhs) (lhs.toNat - rhs.toNat) := by
  have heq : (lhs - rhs).toNat = lhs.toNat - rhs.toNat := BitVec.toNat_sub_of_le h
  exact ⟨_, exactly_eq heq, heq⟩

theorem add64_eq (h : lhs.toNat + rhs.toNat < 2 ^ 64) :
    EndsIn BitVec.toNat (add64 lhs rhs) (lhs.toNat + rhs.toNat) := by
  have heq : (lhs + rhs).toNat = lhs.toNat + rhs.toNat := BitVec.toNat_add_of_lt h
  exact ⟨_, exactly_eq heq, heq⟩

theorem add128_eq {p q : UInt128} (h : p.toNat + q.toNat < 2 ^ 128) :
    EndsIn UInt128.toNat (add128 p q) (p.toNat + q.toNat) := by
  have heq : (p.add q).toNat = p.toNat + q.toNat := by
    rw [UInt128.toNat_add, Nat.mod_eq_of_lt h]
  exact ⟨_, exactly_eq heq, heq⟩

theorem mul128_eq {p q : UInt128} (h : p.toNat * q.toNat < 2 ^ 128) :
    EndsIn UInt128.toNat (mul128 p q) (p.toNat * q.toNat) := by
  have heq : (p.mul q).toNat = p.toNat * q.toNat := by
    rw [UInt128.toNat_mul, Nat.mod_eq_of_lt h]
  exact ⟨_, exactly_eq heq, heq⟩

theorem saturatingAddWord_eq (lhs rhs : BitVec 64) :
    EndsIn BitVec.toNat (saturatingAddWord lhs rhs) (saturatingAdd64 lhs.toNat rhs.toNat) := by
  have hl := lhs.isLt
  have hr := rhs.isLt
  have hmax : u64Max = 2 ^ 64 - 1 := rfl
  have hones : (BitVec.allOnes 64).toNat = 2 ^ 64 - 1 := BitVec.toNat_allOnes
  obtain ⟨room, hroom, hnum⟩ := @sub64_eq (BitVec.allOnes 64) rhs (by omega)
  rw [saturatingAddWord, hroom, Option.bind_some, saturatingAdd64]
  by_cases hover : lhs > room
  · rw [if_pos hover, if_pos (by rw [gt_iff_lt, BitVec.lt_def] at hover; omega)]
    exact ⟨_, rfl, hones⟩
  · rw [gt_iff_lt, BitVec.lt_def] at hover
    rw [if_neg (by rw [gt_iff_lt, BitVec.lt_def]; exact hover), if_neg (by omega)]
    exact add64_eq (by omega)

/-- **The Manhattan distance** is computed without a wrap. -/
theorem manhattanDistanceWord_eq {a b : Coord3} (ha : a.IsInt64) (hb : b.IsInt64) :
    EndsIn BitVec.toNat (manhattanDistanceWord a b) (manhattanDistance a b) := by
  obtain ⟨dx, hdx, hx⟩ := absDeltaWord_eq (ha .x) (hb .x)
  obtain ⟨dy, hdy, hy⟩ := absDeltaWord_eq (ha .y) (hb .y)
  obtain ⟨dz, hdz, hz⟩ := absDeltaWord_eq (ha .z) (hb .z)
  obtain ⟨rest, hrest, hr⟩ := saturatingAddWord_eq dy dz
  obtain ⟨d, hd, hn⟩ := saturatingAddWord_eq dx rest
  refine ⟨d, ?_, ?_⟩
  · simp only [Coord3.get] at hdx hdy hdz
    rw [manhattanDistanceWord, hdx, Option.bind_some, hdy, Option.bind_some, hdz, Option.bind_some,
      hrest, Option.bind_some, hd]
  · rw [hn, hr, hx, hy, hz, manhattanDistance, absDelta_eq, absDelta_eq, absDelta_eq]
    rfl

theorem signedDelta_eq (hx : -2 ^ 63 ≤ x ∧ x < 2 ^ 63) (hy : -2 ^ 63 ≤ y ∧ y < 2 ^ 63) :
    ∃ m : BitVec 64, signedDelta x y = some ⟨decide (x < y), m⟩ ∧ m.toNat = (x - y).natAbs := by
  obtain ⟨m, hm, hnum⟩ := absDeltaWord_eq hx hy
  exact ⟨m, by rw [signedDelta, hm, Option.map_some], hnum⟩

theorem signedSumMagnitudeWord_eq (lhs rhs : SignedMagnitude) :
    EndsIn UInt128.toNat (signedSumMagnitudeWord lhs rhs)
      (signedSumMagnitude lhs.negative lhs.magnitude.toNat rhs.negative rhs.magnitude.toNat) := by
  have hl := lhs.magnitude.isLt
  have hr := rhs.magnitude.isLt
  unfold signedSumMagnitudeWord signedSumMagnitude
  simp only [BitVec.lt_def]
  split_ifs with hsign hlt
  · have hadd := @add128_eq (.ofWord lhs.magnitude) (.ofWord rhs.magnitude)
      (by rw [UInt128.toNat_ofWord, UInt128.toNat_ofWord]; omega)
    rwa [UInt128.toNat_ofWord, UInt128.toNat_ofWord] at hadd
  · obtain ⟨w, hw, hnum⟩ := sub64_eq hlt.le
    exact ⟨_, by rw [hw, Option.map_some], by rw [UInt128.toNat_ofWord, hnum]⟩
  · obtain ⟨w, hw, hnum⟩ := sub64_eq (not_lt.1 hlt)
    exact ⟨_, by rw [hw, Option.map_some], by rw [UInt128.toNat_ofWord, hnum]⟩

/-- A pair of words that is cut off at one of them. -/
theorem toNat_lowOrMax (w : UInt128) :
    (if w.hi ≠ 0 then BitVec.allOnes 64 else w.lo).toNat =
      if w.toNat > u64Max then u64Max else w.toNat := by
  have hlo := w.lo.isLt
  have hmax : u64Max = 2 ^ 64 - 1 := rfl
  have hones : (BitVec.allOnes 64).toNat = 2 ^ 64 - 1 := BitVec.toNat_allOnes
  have hzero : w.hi = 0 ↔ w.hi.toNat = 0 := by
    rw [← BitVec.toNat_inj]
    rfl
  by_cases hhi : w.hi = 0
  · rw [if_neg (not_not.2 hhi), UInt128.toNat, hzero.1 hhi, if_neg (by omega)]
    omega
  · have hpos : w.hi.toNat ≠ 0 := fun h => hhi (hzero.2 h)
    rw [if_pos hhi, UInt128.toNat, if_pos (by omega), hones, hmax]

/-- **The hex distance** is computed without a wrap. -/
theorem hexDistanceWord_eq {a b : Coord3} (ha : a.IsInt64) (hb : b.IsInt64) :
    EndsIn BitVec.toNat (hexDistanceWord (toHexCoord a) (toHexCoord b)) (hexDistance a b) := by
  obtain ⟨mq, hdq, hq⟩ := signedDelta_eq (ha .x) (hb .x)
  obtain ⟨mr, hdr, hr⟩ := signedDelta_eq (ha .y) (hb .y)
  have hmq := mq.isLt
  have hmr := mr.isLt
  have hdeltas := @add128_eq (.ofWord mq) (.ofWord mr)
    (by rw [UInt128.toNat_ofWord, UInt128.toNat_ofWord]; omega)
  obtain ⟨deltas, hdeltas, hd⟩ := hdeltas
  rw [UInt128.toNat_ofWord, UInt128.toNat_ofWord] at hd
  obtain ⟨sum, hsum, hs⟩ := signedSumMagnitudeWord_eq ⟨decide (a.get .x < b.get .x), mq⟩
    ⟨decide (a.get .y < b.get .y), mr⟩
  have hsle : sum.toNat ≤ mq.toNat + mr.toNat := by
    rw [hs]
    unfold signedSumMagnitude
    split_ifs <;> simp only <;> omega
  obtain ⟨twice, htwice, ht⟩ := @add128_eq deltas sum (by omega)
  refine ⟨if (twice.shr 1).hi ≠ 0 then BitVec.allOnes 64 else (twice.shr 1).lo, ?_, ?_⟩
  · simp only [Coord3.get] at hdq hdr hsum
    rw [hexDistanceWord, toHexCoord, toHexCoord, hdq, Option.bind_some, hdr, Option.bind_some,
      hdeltas, Option.bind_some, hsum, Option.bind_some, htwice, Option.map_some]
  · rw [toNat_lowOrMax, UInt128.toNat_shr, ht, hd, hs, hexDistance, absDelta_eq, absDelta_eq]
    simp only [Nat.shiftRight_eq_div_pow, hq, hr]
    rfl

theorem toNat_costMax : costMax.toNat = infiniteCost := rfl

theorem toNat_costOfDistance (d : BitVec 64) :
    (costOfDistance d).toNat = saturatingU32 d.toNat := by
  have h := infiniteCost_eq
  unfold costOfDistance saturatingU32
  simp only [gt_iff_lt, BitVec.lt_def, toNat_costMax]
  split_ifs with hover
  · rfl
  · rw [BitVec.toNat_setWidth]
    omega

theorem toNat_saturatingU32Word (w : UInt128) :
    (saturatingU32Word w).toNat = saturatingU32 w.toNat := by
  have h := infiniteCost_eq
  have hlo := w.lo.isLt
  have hzero : w.hi = 0 ↔ w.hi.toNat = 0 := by
    rw [← BitVec.toNat_inj]
    rfl
  have hover : w.hi ≠ 0 ∨ w.lo > costMax ↔ w.toNat > infiniteCost := by
    rw [gt_iff_lt, BitVec.lt_def, toNat_costMax, UInt128.toNat, ne_eq, hzero]
    omega
  unfold saturatingU32Word saturatingU32
  simp only [hover]
  split_ifs with hbig
  · rfl
  · have hhi : w.hi.toNat = 0 := by
      by_contra hne
      exact hbig (hover.1 (.inl fun heq => hne (hzero.1 heq)))
    rw [BitVec.toNat_setWidth, UInt128.toNat, hhi] at *
    omega

/-- **The octile distance** is computed without a wrap. -/
theorem diagonalHeuristicWord_eq {S : Shape} {costScale : ℕ} (hscale : costScale < 2 ^ 32)
    {c goal : Coord3} (hc : c.IsInt64) (hg : goal.IsInt64) :
    EndsIn BitVec.toNat (diagonalHeuristicWord S costScale c goal)
      (diagonalHeuristic S costScale c goal) := by
  obtain ⟨a, hda, ha⟩ := absDeltaWord_eq (hc (diagonalAxes S).1) (hg (diagonalAxes S).1)
  obtain ⟨b, hdb, hb⟩ := absDeltaWord_eq (hc (diagonalAxes S).2) (hg (diagonalAxes S).2)
  have hla := a.isLt
  have hlb := b.isLt
  have hmult : (BitVec.ofNat 64 StepPolicy.diagonalStepMultiplier).toNat =
      StepPolicy.diagonalStepMultiplier := rfl
  have hscaleWord : (BitVec.ofNat 64 costScale).toNat = costScale := by
    rw [BitVec.toNat_ofNat, Nat.mod_eq_of_lt (hscale.trans (by decide))]
  have hminor : (if b < a then b else a).toNat = min a.toNat b.toNat := by
    simp only [BitVec.lt_def]
    split_ifs <;> omega
  have hmajor : (if a < b then b else a).toNat = max a.toNat b.toNat := by
    simp only [BitVec.lt_def]
    split_ifs <;> omega
  rw [diagonalHeuristicWord, hda, Option.bind_some, hdb, Option.bind_some]
  generalize (if b < a then b else a) = minor at hminor
  generalize (if a < b then b else a) = major at hmajor
  have hm := minor.isLt
  have hdiag := @mul128_eq (.ofWord minor)
    (.ofWord (BitVec.ofNat 64 StepPolicy.diagonalStepMultiplier)) (by
      rw [UInt128.toNat_ofWord, UInt128.toNat_ofWord, hmult, StepPolicy.diagonalStepMultiplier]
      omega)
  obtain ⟨diagonal, hdiag, hdn⟩ := hdiag
  rw [UInt128.toNat_ofWord, UInt128.toNat_ofWord, hmult] at hdn
  obtain ⟨rest, hrest, hrn⟩ := @sub64_eq major minor (by omega)
  have hr := rest.isLt
  have hprod : rest.toNat * costScale < 2 ^ 64 * 2 ^ 32 := Nat.mul_lt_mul'' hr hscale
  have hstr := @mul128_eq (.ofWord rest) (.ofWord (BitVec.ofNat 64 costScale)) (by
    rw [UInt128.toNat_ofWord, UInt128.toNat_ofWord, hscaleWord]
    omega)
  obtain ⟨straight, hstr, hsn⟩ := hstr
  rw [UInt128.toNat_ofWord, UInt128.toNat_ofWord, hscaleWord] at hsn
  obtain ⟨ticks, hticks, htn⟩ := @add128_eq diagonal straight (by
    rw [hdn, hsn, StepPolicy.diagonalStepMultiplier]
    omega)
  refine ⟨saturatingU32Word ticks, ?_, ?_⟩
  · simp only
    rw [hdiag, Option.bind_some, hrest, Option.bind_some, hstr, Option.bind_some, hticks,
      Option.map_some]
  · rw [toNat_saturatingU32Word, htn, hdn, hsn, hrn, hminor, hmajor, ha, hb]
    simp only [diagonalHeuristic, absDelta_eq]

/-- **No value of the heuristic wraps**, and the words compute `heuristic`. -/
theorem heuristicWord_eq {S : Shape} {Tag : Type*} (cls : MovementClass S Tag) {c goal : Coord3}
    (hc : c.IsInt64) (hg : goal.IsInt64) :
    EndsIn BitVec.toNat (heuristicWord S cls.stepPolicy c goal)
      (heuristic cls (adjacentTransitions S Tag) c goal) := by
  unfold heuristicWord heuristic
  rw [if_neg (by simp [adjacentTransitions])]
  cases cls.stepPolicy with
  | defaultSteps =>
    cases S.lattice with
    | hexAxial =>
      obtain ⟨d, hd, hn⟩ := hexDistanceWord_eq hc hg
      exact ⟨costOfDistance d, by simp only [hd, Option.map_some],
        by rw [toNat_costOfDistance, hn]⟩
    | orthogonal =>
      obtain ⟨d, hd, hn⟩ := manhattanDistanceWord_eq hc hg
      exact ⟨costOfDistance d, by simp only [hd, Option.map_some],
        by rw [toNat_costOfDistance, hn]⟩
  | diagonalSteps rule => exact diagonalHeuristicWord_eq (show 128 < 2 ^ 32 by decide) hc hg

/-- Tiles have signed 64-bit coordinates. -/
theorem isInt64_of_contains {S : Shape} {c : Coord3} (h : S.contains c = true) : c.IsInt64 := by
  obtain ⟨hx, hy, hz⟩ := S.axis_fits
  rw [Shape.contains_iff] at h
  intro a
  cases a <;> simp only [Coord3.get] <;> omega

end Exact

/-! ### Consistency -/

section Consistency

variable {S : Shape} {Tag : Type*} {W : World S Tag} {cls : MovementClass S Tag}
  {prov : Provider S Tag} {a b c goal : Coord3} {k m : ℕ}

/-- The heuristic drops along a step by at most its cost, also where either is cut off. -/
theorem heuristic_le_of_apart (h : Apart (S := S) cls.stepPolicy a b m) (hk : m ≤ k)
    (goal : Coord3) :
    heuristic cls prov a goal ≤ min k infiniteCost + heuristic cls prov b goal := by
  have hle := @estimate_le_of_apart S Tag cls prov a b m h goal
  rw [heuristic_eq_min, heuristic_eq_min]
  omega

/-- A legal probe of a candidate costs at least the ticks of the step. -/
theorem cost_of_emitCandidate {candidate : RegularTransitionCandidate} {p : TransitionProbe}
    (hd : S.contains candidate.dest = true) (hc : S.contains c = true)
    (hp : emitCandidate W cls candidate c = some p) (hl : p.availability = .legal) :
    p.dest = candidate.dest ∧ ∃ k, candidate.multiplier ≤ k ∧ p.cost = min k infiniteCost := by
  rw [emitCandidate_eq hd hc] at hp
  split_ifs at hp with h1 h2 h3 h4 h5 <;> simp only [Option.some.injEq] at hp <;> subst hp
  · exact ⟨rfl, _, Nat.le_mul_of_pos_left _ (Nat.pos_of_ne_zero h5), saturatingU32_eq_min _⟩
  all_goals exact absurd hl (by simp [missingProbe])

/-- **The heuristic is consistent along forward probes.** -/
theorem heuristic_le_of_forward {p : TransitionProbe}
    (hp : p ∈ forEachForward W cls (adjacentTransitions S Tag) a) (hl : p.availability = .legal)
    (goal : Coord3) : heuristic cls prov a goal ≤ p.cost + heuristic cls prov p.dest goal := by
  rcases List.mem_append.1 hp with hp | hp
  · obtain ⟨candidate, hm, he⟩ := List.mem_filterMap.1 hp
    have hd := (contains_of_mem_forEachRegularCandidate hm).2
    obtain ⟨hdest, k, hk, hcost⟩ := cost_of_emitCandidate hd hd he hl
    rw [hdest, hcost]
    exact heuristic_le_of_apart (apart_of_mem_forEachRegularCandidate hm) hk goal
  · cases hp

/-- **The heuristic is consistent along reverse probes**, which are the steps into a tile. -/
theorem heuristic_le_of_reverse {p : TransitionProbe}
    (hp : p ∈ forEachReverse W cls (adjacentTransitions S Tag) b) (hl : p.availability = .legal)
    (goal : Coord3) : heuristic cls prov p.dest goal ≤ p.cost + heuristic cls prov b goal := by
  unfold forEachReverse at hp
  split_ifs at hp with hpass
  · cases hp
  · rcases List.mem_append.1 hp with hp | hp
    · obtain ⟨candidate, hm, he⟩ := List.mem_filterMap.1 hp
      obtain ⟨hb, hd⟩ := contains_of_mem_forEachRegularCandidate hm
      obtain ⟨hdest, k, hk, hcost⟩ := cost_of_emitCandidate hd hb he hl
      rw [hdest, hcost]
      exact heuristic_le_of_apart (apart_of_mem_forEachRegularCandidate hm).symm hk goal
    · cases hp

/-- **The heuristic**: it vanishes at the goal, it is consistent with the legal probes of a tile in
both directions, and none of the values it is computed from wraps. -/
theorem heuristic_spec (W : World S Tag) (cls : MovementClass S Tag) :
    (∀ goal, heuristic cls (adjacentTransitions S Tag) goal goal = 0) ∧
    (∀ goal a, ∀ p ∈ forEachForward W cls (adjacentTransitions S Tag) a, p.availability = .legal →
      heuristic cls (adjacentTransitions S Tag) a goal ≤
        p.cost + heuristic cls (adjacentTransitions S Tag) p.dest goal) ∧
    (∀ goal b, ∀ p ∈ forEachReverse W cls (adjacentTransitions S Tag) b, p.availability = .legal →
      heuristic cls (adjacentTransitions S Tag) p.dest goal ≤
        p.cost + heuristic cls (adjacentTransitions S Tag) b goal) ∧
    (∀ a goal : Coord3, a.IsInt64 → goal.IsInt64 →
      EndsIn BitVec.toNat (heuristicWord S cls.stepPolicy a goal)
        (heuristic cls (adjacentTransitions S Tag) a goal)) ∧
    (∀ a, S.contains a = true → a.IsInt64 ∧ (S.lattice = .hexAxial → a.z = 0)) := by
  refine ⟨fun goal => ?_, fun goal a p hp hl => heuristic_le_of_forward hp hl goal,
    fun goal b p hp hl => heuristic_le_of_reverse hp hl goal,
    fun a goal ha hg => heuristicWord_eq cls ha hg,
    fun a ha => ⟨isInt64_of_contains ha, fun hl => ?_⟩⟩
  · rw [heuristic_eq_min, estimate_self, Nat.zero_min]
  · exact get_eq_zero_of_size (r := .z) ha (S.lattice_valid hl).1

/-- The tiles of an open world of two, and the probe from one to the other. -/
theorem heuristic_spec_twoCells :
    (heuristic (.unitCostField (by decide) ()) (adjacentTransitions twoCells Unit) ⟨0, 0, 0⟩
        ⟨1, 0, 0⟩ ≤
      1 + heuristic (.unitCostField (by decide) ()) (adjacentTransitions twoCells Unit) ⟨1, 0, 0⟩
        ⟨1, 0, 0⟩) ∧
    EndsIn BitVec.toNat (heuristicWord twoCells .defaultSteps ⟨0, 0, 0⟩ ⟨1, 0, 0⟩)
      (heuristic (.unitCostField (by decide) ()) (adjacentTransitions twoCells Unit) ⟨0, 0, 0⟩
        ⟨1, 0, 0⟩) := by
  obtain ⟨-, hforward, -, hwords, htiles⟩ :=
    heuristic_spec (openWorld twoCells) (.unitCostField (by decide) ())
  exact ⟨hforward ⟨1, 0, 0⟩ ⟨0, 0, 0⟩
      { dest := ⟨1, 0, 0⟩, destIndex := 1, cost := 1, availability := .legal } (by decide) rfl,
    hwords _ _ (htiles _ (by decide)).1 (htiles _ (by decide)).1⟩

end Consistency

end Tess
