import Tess.Topology.Movement

/-!
# Transitions: candidates, probes and heuristics

`ResolvedTransitionModel` of the source enumerates, for one tile, the geometric candidates of
its step policy, probes each against the world and adds the special edges of a provider.  A
sink becomes the list of what it receives, in the order of the calls.

* `forEachRegularCandidate` : the geometric candidates of a tile;
* `emitCandidate`, `emitSpecialCandidate` : the probe of one candidate, if there is one;
* `forEachForward`, `forEachReverse` : the probes of a tile;
* `heuristic` : the saturated distance estimate of the step policy.

`LegalStep` of `Tess.Topology.Legal` says without enumerating anything which steps these
probes report as legal.
-/

namespace Tess

/-- Distinguishes regular lattice edges from provider-supplied edges. -/
inductive TransitionKind
  | regular
  | special
  deriving DecidableEq, Repr

/-- Three-valued result of probing a candidate transition. -/
inductive TransitionAvailability
  | legal
  | blocked
  | missingTopology
  deriving DecidableEq, Repr

/-- Resolved transition data consumed by the searches. -/
structure TransitionProbe where
  /-- Tile at the other end. -/
  dest : Coord3
  /-- Its tile index. -/
  destIndex : ℕ
  /-- Saturated cost of the edge. -/
  cost : ℕ := 0
  /-- Regular or special. -/
  kind : TransitionKind := .regular
  /-- Whether the edge may be used. -/
  availability : TransitionAvailability := .blocked
  /-- The exact cost reaches the sentinel. -/
  costOverflow : Bool := false
  deriving DecidableEq, Repr

/-- Geometric candidate of a regular step. -/
structure RegularTransitionCandidate where
  /-- Tile at the other end. -/
  dest : Coord3
  /-- First tile a diagonal step passes. -/
  clearanceA : Coord3 := ⟨0, 0, 0⟩
  /-- Second tile a diagonal step passes. -/
  clearanceB : Coord3 := ⟨0, 0, 0⟩
  /-- Ticks per unit of entry cost. -/
  multiplier : ℕ := 1
  /-- Number of clearance tiles: zero, or two for a diagonal step. -/
  clearanceCount : ℕ := 0
  deriving DecidableEq, Repr

/-- Provider-side special edge before model-scale resolution. -/
structure SpecialTransitionCandidate where
  /-- Tile at the other end. -/
  dest : Coord3
  /-- Cost of the edge before scaling. -/
  cost : ℕ := 1
  /-- The provider cannot tell, because a chunk is missing. -/
  missingTopology : Bool := false
  deriving DecidableEq, Repr

/-- A transition provider contributes directed edges beyond the regular steps. -/
structure Provider (S : Shape) (Tag : Type*) where
  /-- The provider is `AdjacentTransitions`. -/
  isAdjacentTransitions : Bool
  /-- Special edges whose origin is the given tile. -/
  forEachForward : World S Tag → Coord3 → List SpecialTransitionCandidate
  /-- Special edges whose destination is the given tile. -/
  forEachReverse : World S Tag → Coord3 → List SpecialTransitionCandidate
  /-- `AdjacentTransitions` supplies no edges. -/
  adjacent_forward : isAdjacentTransitions = true → ∀ W c, forEachForward W c = []

/-- The default provider: no transitions beyond the regular steps. -/
def adjacentTransitions (S : Shape) (Tag : Type*) : Provider S Tag where
  isAdjacentTransitions := true
  forEachForward _ _ := []
  forEachReverse _ _ := []
  adjacent_forward _ _ _ := rfl

namespace Coord3

/-- The coordinate moved by `d` along an axis. -/
def step (c : Coord3) (a : Axis) (d : ℤ) : Coord3 := c.set a (c.get a + d)

end Coord3

section Candidates

variable (S : Shape)

/-- `detail::emit_regular_candidate`. -/
def emitRegularCandidate (dest : Coord3) (multiplier : ℕ) : List RegularTransitionCandidate :=
  if S.contains dest then [{ dest := dest, multiplier := multiplier }] else []

/-- `detail::emit_diagonal_candidate`. -/
def emitDiagonalCandidate (dest clearanceA clearanceB : Coord3) :
    List RegularTransitionCandidate :=
  if S.contains dest then
    [{ dest := dest, clearanceA := clearanceA, clearanceB := clearanceB,
       multiplier := StepPolicy.diagonalStepMultiplier, clearanceCount := 2 }]
  else []

/-- `detail::for_each_orthogonal_face_candidate`. -/
def forEachOrthogonalFaceCandidate (c : Coord3) (multiplier : ℕ) :
    List RegularTransitionCandidate :=
  emitRegularCandidate S ⟨c.x + 1, c.y, c.z⟩ multiplier ++
  emitRegularCandidate S ⟨c.x - 1, c.y, c.z⟩ multiplier ++
  emitRegularCandidate S ⟨c.x, c.y + 1, c.z⟩ multiplier ++
  emitRegularCandidate S ⟨c.x, c.y - 1, c.z⟩ multiplier ++
  emitRegularCandidate S ⟨c.x, c.y, c.z + 1⟩ multiplier ++
  emitRegularCandidate S ⟨c.x, c.y, c.z - 1⟩ multiplier

/-- `detail::for_each_hex_candidate`. -/
def forEachHexCandidate (c : Coord3) : List RegularTransitionCandidate :=
  if c.z ≠ 0 then [] else
  emitRegularCandidate S ⟨c.x + 1, c.y, c.z⟩ 1 ++
  emitRegularCandidate S ⟨c.x - 1, c.y, c.z⟩ 1 ++
  emitRegularCandidate S ⟨c.x, c.y + 1, c.z⟩ 1 ++
  emitRegularCandidate S ⟨c.x, c.y - 1, c.z⟩ 1 ++
  emitRegularCandidate S ⟨c.x + 1, c.y - 1, c.z⟩ 1 ++
  emitRegularCandidate S ⟨c.x - 1, c.y + 1, c.z⟩ 1

/-- The two axes of the plane in which diagonal steps run. -/
def diagonalAxes : Axis × Axis :=
  if !S.degenerate .x && !S.degenerate .y then (.x, .y)
  else if !S.degenerate .x && !S.degenerate .z then (.x, .z)
  else (.y, .z)

/-- One diagonal candidate with the two face tiles it passes. -/
def diagonalCandidate (c : Coord3) (d e : ℤ) : List RegularTransitionCandidate :=
  let (p, q) := diagonalAxes S
  emitDiagonalCandidate S ((c.step p d).step q e) (c.step p d) (c.step q e)

/-- `detail::for_each_diagonal_candidate`. -/
def forEachDiagonalCandidate (costScale : ℕ) (c : Coord3) : List RegularTransitionCandidate :=
  forEachOrthogonalFaceCandidate S c costScale ++ diagonalCandidate S c 1 1 ++
    diagonalCandidate S c 1 (-1) ++ diagonalCandidate S c (-1) 1 ++ diagonalCandidate S c (-1) (-1)

/-- `detail::for_each_regular_candidate`. -/
def forEachRegularCandidate (policy : StepPolicy) (c : Coord3) :
    List RegularTransitionCandidate :=
  if !S.contains c then []
  else match policy with
    | .defaultSteps =>
      match S.lattice with
      | .orthogonal => forEachOrthogonalFaceCandidate S c 1
      | .hexAxial => forEachHexCandidate S c
    | .diagonalSteps _ => forEachDiagonalCandidate S policy.costScale c

end Candidates

section Probes

variable {S : Shape} {Tag : Type*} (W : World S Tag) (cls : MovementClass S Tag)
  (prov : Provider S Tag)

/-- What a clearance tile says about a diagonal step. -/
inductive Clearance
  | clear
  | blocked
  | missing
  deriving DecidableEq, Repr

/-- `ResolvedTransitionModel::clearance_at`. -/
def clearanceAt (c : Coord3) : Clearance :=
  match W.tryChunk (W.resolve c).chunkKey with
  | none => .missing
  | some page => if cls.passable page (W.resolve c).localTileId then .clear else .blocked

/-- `ResolvedTransitionModel::clearance_availability`. -/
def clearanceAvailability (candidate : RegularTransitionCandidate) : TransitionAvailability :=
  match cls.stepPolicy with
  | .defaultSteps => .legal
  | .diagonalSteps rule =>
    if candidate.clearanceCount = 0 then .legal
    else
      let a := clearanceAt W cls candidate.clearanceA
      let b := clearanceAt W cls candidate.clearanceB
      match rule with
      | .requireBothClear =>
        if a = .blocked ∨ b = .blocked then .blocked
        else if a = .missing ∨ b = .missing then .missingTopology else .legal
      | .requireOneClear =>
        if a = .clear ∨ b = .clear then .legal
        else if a = .missing ∨ b = .missing then .missingTopology else .blocked

/-- A probe that could not be answered because a chunk is missing. -/
def missingProbe (dest : Coord3) (kind : TransitionKind) : TransitionProbe :=
  { dest := dest, destIndex := S.tileKey dest, kind := kind, availability := .missingTopology }

/-- `ResolvedTransitionModel::emit_candidate`: what the sink receives for one candidate. -/
def emitCandidate (candidate : RegularTransitionCandidate) (costCoord : Coord3) :
    Option TransitionProbe :=
  match W.tryChunk (W.resolve candidate.dest).chunkKey with
  | none => some (missingProbe (S := S) candidate.dest .regular)
  | some page =>
    if !cls.passable page (W.resolve candidate.dest).localTileId then none
    else
      let clearance := clearanceAvailability W cls candidate
      if clearance = .blocked then none
      else match W.tryChunk (W.resolve costCoord).chunkKey with
        | none => some (missingProbe (S := S) candidate.dest .regular)
        | some costPage =>
          let entryCost := cls.entryCost costPage (W.resolve costCoord).localTileId
          if entryCost = 0 then none
          else
            let preciseCost := entryCost * candidate.multiplier
            some { dest := candidate.dest
                   destIndex := S.tileKey candidate.dest
                   cost := saturatingU32 preciseCost
                   availability := clearance
                   costOverflow := decide (preciseCost ≥ infiniteCost) }

/-- `ResolvedTransitionModel::emit_special_candidate`: what the sink receives for one special
candidate. -/
def emitSpecialCandidate (candidate : SpecialTransitionCandidate)
    (forwardDestination : Coord3) : Option TransitionProbe :=
  if !S.contains candidate.dest then none
  else if candidate.missingTopology then some (missingProbe (S := S) candidate.dest .special)
  else match W.tryChunk (W.resolve candidate.dest).chunkKey with
    | none => some (missingProbe (S := S) candidate.dest .special)
    | some page =>
      if !cls.passable page (W.resolve candidate.dest).localTileId then none
      else match W.tryChunk (W.resolve forwardDestination).chunkKey with
        | none => none
        | some destinationPage =>
          if cls.entryCost destinationPage (W.resolve forwardDestination).localTileId = 0 then
            none
          else if candidate.cost = 0 then none
          else
            let preciseCost := candidate.cost * cls.stepPolicy.costScale
            some { dest := candidate.dest
                   destIndex := S.tileKey candidate.dest
                   cost := saturatingU32 preciseCost
                   kind := .special
                   availability := .legal
                   costOverflow := decide (preciseCost ≥ infiniteCost) }

/-- `ResolvedTransitionModel::for_each_forward`: the probes out of a tile. -/
def forEachForward (c : Coord3) : List TransitionProbe :=
  (forEachRegularCandidate S cls.stepPolicy c).filterMap
      (fun candidate => emitCandidate W cls candidate candidate.dest) ++
    (prov.forEachForward W c).filterMap
      fun candidate => emitSpecialCandidate W cls candidate candidate.dest

/-- `ResolvedTransitionModel::for_each_reverse`: the probes of the edges into a tile. -/
def forEachReverse (dest : Coord3) : List TransitionProbe :=
  if !isPassable W cls dest then []
  else
    (forEachRegularCandidate S cls.stepPolicy dest).filterMap
        (fun candidate => emitCandidate W cls candidate dest) ++
      (prov.forEachReverse W dest).filterMap
        fun candidate => emitSpecialCandidate W cls candidate dest

/-- `ResolvedTransitionModel::is_regular_candidate`. -/
def isRegularCandidate (a b : Coord3) : Bool :=
  (forEachRegularCandidate S cls.stepPolicy a).any fun candidate => candidate.dest == b

/-- `ResolvedTransitionModel::regular_availability`: the last matching candidate decides. -/
def regularAvailability (a b : Coord3) : TransitionAvailability :=
  (forEachRegularCandidate S cls.stepPolicy a).foldl
    (fun availability candidate =>
      if candidate.dest = b then clearanceAvailability W cls candidate else availability) .blocked

/-- `ResolvedTransitionModel::diagonal_heuristic`. -/
def diagonalHeuristic (S : Shape) (costScale : ℕ) (a goal : Coord3) : ℕ :=
  let (p, q) := diagonalAxes S
  let d := absDelta (a.get p) (goal.get p)
  let e := absDelta (a.get q) (goal.get q)
  saturatingU32
    (min d e * StepPolicy.diagonalStepMultiplier + (max d e - min d e) * costScale)

/-- `ResolvedTransitionModel::heuristic`. -/
def heuristic (a goal : Coord3) : ℕ :=
  if !prov.isAdjacentTransitions then 0
  else match cls.stepPolicy with
    | .defaultSteps =>
      match S.lattice with
      | .hexAxial => saturatingU32 (hexDistance a goal)
      | .orthogonal => saturatingU32 (manhattanDistance a goal)
    | .diagonalSteps _ => diagonalHeuristic S cls.stepPolicy.costScale a goal

end Probes

end Tess
