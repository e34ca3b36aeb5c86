import Tess.Path.FieldProductCache
import Tess.Path.Scratch

/-!
# Storage of a distance field

A distance field labels tiles with what it costs to go from there to its goal.  The labels outlive
the build, since the readers descend them later, so the storage also keeps what the field was built
for: goal, movement model and resident chunks.

* `FieldModel`, `FieldModel.stamp` : a movement model and what identifies it;
* `DistanceFieldScratch` : the arrays, the frontiers and the stamps; its proof fields say that no
  mark is ahead of the epoch;
* `DistanceFieldScratch.not_isCurrent_clearBuild` : **no label of an earlier build counts** once a
  build begins, also when the epoch wraps.
-/

namespace Tess

/-! ### What a field is built for -/

/-- A movement class and a provider with the identities that a stamp records. -/
structure FieldModel (S : Shape) (Tag : Type*) where
  /-- Movement class. -/
  cls : MovementClass S Tag
  /-- `detail::tag_identity` of the class. -/
  classIdentity : ℕ
  /-- Provider. -/
  prov : Provider S Tag
  /-- Identities and revision of the provider. -/
  provider : FieldProvider

/-- `AdjacentTransitions` has no state; some number stands for the identity of its type. -/
def adjacentFieldProvider : FieldProvider := ⟨1, none, 0⟩

/-- What `stamp_model` records. -/
structure FieldStamp where
  /-- Identity of the movement class; zero for none. -/
  classIdentity : ℕ := 0
  /-- Identity of the lattice. -/
  latticeIdentity : Option Lattice := none
  /-- Version of the lattice. -/
  latticeVersion : ℕ := 0
  /-- Identity of the step policy. -/
  stepIdentity : Option StepPolicy := none
  /-- Ticks per unit of cost. -/
  costScale : ℕ := 0
  /-- Identity of the provider type; zero for none. -/
  providerIdentity : ℕ := 0
  /-- Identity of the provider object. -/
  providerInstance : Option ℕ := none
  /-- Revision of the provider. -/
  providerRevision : ℕ := 0
  deriving DecidableEq

namespace FieldModel

variable {S : Shape} {Tag : Type*} (M : FieldModel S Tag)

/-- What `stamp_model` records of the model. -/
def stamp : FieldStamp where
  classIdentity := M.classIdentity
  latticeIdentity := some S.lattice
  latticeVersion := S.lattice.version
  stepIdentity := some M.cls.stepPolicy
  costScale := M.cls.stepPolicy.costScale
  providerIdentity := M.provider.identity
  providerInstance := M.provider.instanceIdentity
  providerRevision := M.provider.revision

/-- `preserves_default_connectivity` with default steps: the steps of the model are the face
steps. -/
def FaceSteps : Prop :=
  S.lattice = .orthogonal ∧ M.prov.isAdjacentTransitions = true ∧ M.cls.stepPolicy = .defaultSteps

instance : Decidable M.FaceSteps := inferInstanceAs (Decidable (_ ∧ _))

end FieldModel

/-- A world with its `residency_fingerprint()`. -/
structure FieldWorld (S : Shape) (Tag : Type*) extends World S Tag where
  /-- Digest of the resident chunks, their slots, generations and versions. -/
  residencyFingerprint : ℕ

/-- Outcome of a build. -/
structure DistanceFieldResult where
  /-- Outcome. -/
  status : PathStatus := .notComputed
  /-- Tiles expanded by the build. -/
  expandedNodes : ℕ := 0
  /-- Tiles labelled by the build. -/
  reachedNodes : ℕ := 0
  deriving DecidableEq, Repr

/-! ### Scratch -/

/-- Storage of a distance field. -/
structure DistanceFieldScratch where
  /-- Heap of the weighted build. -/
  weightedFrontier : List PackedOpenNode := []
  /-- Length of the node arrays. -/
  nodeCount : ℕ := 0
  /-- Epoch in which an entry was last touched. -/
  generation : ℕ → ℕ := fun _ => 0
  /-- Epoch of the running build. -/
  epoch : ℕ := 1
  /-- Label of a node. -/
  distance : ℕ → ℕ := fun _ => infiniteCost
  /-- Indices of the tiles touched by the running build, in order. -/
  touched : List ℕ := []
  /-- Tiles of the returned path. -/
  path : List Coord3 := []
  /-- Goal of the field. -/
  goal : Coord3 := ⟨0, 0, 0⟩
  /-- The field may be read. -/
  hasGoal : Bool := false
  /-- Outcome of the build. -/
  buildStatus : PathStatus := .notComputed
  /-- What was resident when the field was built. -/
  residencyFingerprint : ℕ := 0
  /-- What the field was built for. -/
  model : FieldStamp := {}
  /-- The epoch is a non-zero 32-bit value. -/
  epoch_bounds : 0 < epoch ∧ epoch < 2 ^ 32
  /-- No entry was touched in a later epoch. -/
  generation_le : ∀ offset, generation offset ≤ epoch

namespace DistanceFieldScratch

theorem firstEpoch_bounds : 0 < 1 ∧ 1 < 2 ^ 32 := by decide

theorem untouched_le (e : ℕ) : ∀ o : ℕ, (fun _ => 0) o ≤ e := fun _ => Nat.zero_le _

theorem untouched_le_one : ∀ o : ℕ, (fun _ => 0) o ≤ 1 := untouched_le 1

/-- Storage that nothing was built in. -/
def empty : DistanceFieldScratch where
  epoch_bounds := firstEpoch_bounds
  generation_le := untouched_le_one

theorem nextEpoch_bounds {e : ℕ} (h : (e + 1) % 2 ^ 32 ≠ 0) :
    0 < (e + 1) % 2 ^ 32 ∧ (e + 1) % 2 ^ 32 < 2 ^ 32 :=
  ⟨Nat.pos_of_ne_zero h, Nat.mod_lt _ (by decide)⟩

theorem lt_nextEpoch {e m : ℕ} (hm : m ≤ e) (he : e < 2 ^ 32) (h : (e + 1) % 2 ^ 32 ≠ 0) :
    m < (e + 1) % 2 ^ 32 := by
  omega

theorem le_nextEpoch {e : ℕ} {g : ℕ → ℕ} (hg : ∀ o, g o ≤ e) (he : 0 < e ∧ e < 2 ^ 32)
    (h : (e + 1) % 2 ^ 32 ≠ 0) (o : ℕ) : g o ≤ (e + 1) % 2 ^ 32 :=
  (lt_nextEpoch (hg o) he.2 h).le

theorem marked_le {g : ℕ → ℕ} {e : ℕ} (h : ∀ o, g o ≤ e) (offset o : ℕ) :
    Function.update g offset e o ≤ e := by
  by_cases ho : o = offset
  · rw [ho, Function.update_self]
  · rw [Function.update_of_ne ho]
    exact h o

variable (s : DistanceFieldScratch)

/-- `advance_epoch`: the marks are cleared for real when the epoch wraps. -/
def advanceEpoch : DistanceFieldScratch :=
  if h : (s.epoch + 1) % 2 ^ 32 = 0 then
    { s with
      generation := fun _ => 0
      epoch := 1
      epoch_bounds := firstEpoch_bounds
      generation_le := untouched_le_one }
  else
    { s with
      epoch := (s.epoch + 1) % 2 ^ 32
      epoch_bounds := nextEpoch_bounds h
      generation_le := le_nextEpoch s.generation_le s.epoch_bounds h }

/-- `discard_build_result`: the labels stay, but nobody may read them. -/
def discardBuildResult : DistanceFieldScratch :=
  { s with
    hasGoal := false
    buildStatus := .notComputed
    model := { s.model with
      classIdentity := 0
      providerIdentity := 0
      providerInstance := none
      providerRevision := 0 } }

/-- `clear_build`. -/
def clearBuild : DistanceFieldScratch :=
  { s.advanceEpoch.discardBuildResult with
    weightedFrontier := []
    touched := []
    path := [] }

/-- `clear_path`, and a path in the place of the old one. -/
def setPath (path : List Coord3) : DistanceFieldScratch := { s with path := path }

/-- `publish_build_status`. -/
def publishBuildStatus (status : PathStatus) : DistanceFieldScratch :=
  { s with buildStatus := status }

/-- `unresolved_path_status`: what an unlabelled start means. -/
def unresolvedPathStatus : PathStatus :=
  if s.buildStatus = .indeterminate then .indeterminate
  else if s.buildStatus = .found then .noPath else .notComputed

/-- `is_current`. -/
def isCurrent (offset : ℕ) : Bool := s.generation offset == s.epoch

/-- `distance_at`. -/
def distanceAt (offset : ℕ) : ℕ := if s.isCurrent offset then s.distance offset else infiniteCost

/-- Write a label and `touch_node`. -/
def label (offset index distance : ℕ) : DistanceFieldScratch :=
  { s with
    distance := Function.update s.distance offset distance
    generation := Function.update s.generation offset s.epoch
    touched := s.touched ++ [index]
    generation_le := marked_le s.generation_le offset }

/-- Touch a node under the sentinel, unless the running build has touched it. -/
def openNode (offset index : ℕ) : DistanceFieldScratch :=
  if s.isCurrent offset then s else s.label offset index infiniteCost

/-- Write the label of a touched node. -/
def setDistance (offset distance : ℕ) : DistanceFieldScratch :=
  { s with distance := Function.update s.distance offset distance }

/-- Size the node arrays for `nodeCount` nodes. -/
def resize (nodeCount : ℕ) : DistanceFieldScratch :=
  if s.nodeCount ≠ nodeCount then
    { s with
      nodeCount := nodeCount
      -- the epoch goes on, and no mark is ahead of it
      generation := fun _ => 0
      distance := fun _ => infiniteCost
      generation_le := untouched_le s.epoch }
  else s

/-- Replace the heap, as popping one of its entries does. -/
def setHeap (l : List PackedOpenNode) : DistanceFieldScratch := { s with weightedFrontier := l }

/-- Push a tile on the heap under its label. -/
def pushHeap (index distance : ℕ) : DistanceFieldScratch :=
  s.setHeap (.make index distance distance 0 :: s.weightedFrontier)

section Stamps

variable {S : Shape} {Tag : Type*} (W : FieldWorld S Tag) (M : FieldModel S Tag)

/-- `stamp_residency`. -/
def stampResidency : DistanceFieldScratch :=
  match W.residency with
  -- a dense world has nothing that a later read could miss
  | .alwaysResident => s
  | .sparseResident => { s with residencyFingerprint := W.residencyFingerprint }

/-- `residency_matches`. -/
def residencyMatches : Bool :=
  match W.residency with
  | .alwaysResident => true
  | .sparseResident => s.residencyFingerprint == W.residencyFingerprint

/-- `model_matches`. -/
def modelMatches : Bool := s.model == M.stamp

/-- The stamps that a build sets before it labels the goal. -/
def stampBuild (goal : Coord3) : DistanceFieldScratch :=
  { s with goal := goal, hasGoal := true, model := M.stamp }.stampResidency W

end Stamps

/-! ### What the operations do to labels -/

variable {s}

/-- **Clearing by epoch**: no label of an earlier build counts any more. -/
theorem not_isCurrent_clearBuild (o : ℕ) : s.clearBuild.isCurrent o = false := by
  have hle := s.generation_le o
  have hlt := s.epoch_bounds
  unfold clearBuild discardBuildResult isCurrent advanceEpoch
  split_ifs with h
  · rfl
  · have := lt_nextEpoch hle hlt.2 h
    simpa using this.ne

theorem not_isCurrent_resize (h : ∀ o, s.isCurrent o = false) (n o : ℕ) :
    (s.resize n).isCurrent o = false := by
  unfold resize
  split_ifs
  · have := s.epoch_bounds.1
    simpa [isCurrent] using this.ne
  · exact h o

theorem distanceAt_of_not_isCurrent {o : ℕ} (h : s.isCurrent o = false) :
    s.distanceAt o = infiniteCost := by
  simp [distanceAt, h]

@[simp] theorem isCurrent_label (o i d o' : ℕ) :
    (s.label o i d).isCurrent o' = (decide (o' = o) || s.isCurrent o') := by
  by_cases h : o' = o <;> simp [isCurrent, label, h]

@[simp] theorem distanceAt_label (o i d o' : ℕ) :
    (s.label o i d).distanceAt o' = if o' = o then d else s.distanceAt o' := by
  simp only [distanceAt, isCurrent_label]
  by_cases h : o' = o <;> simp [label, h]

@[simp] theorem isCurrent_setDistance (o d o' : ℕ) :
    (s.setDistance o d).isCurrent o' = s.isCurrent o' := rfl

theorem distanceAt_setDistance {o : ℕ} (ho : s.isCurrent o = true) (d o' : ℕ) :
    (s.setDistance o d).distanceAt o' = if o' = o then d else s.distanceAt o' := by
  simp only [distanceAt, isCurrent_setDistance]
  by_cases h : o' = o
  · subst h; simp [setDistance, ho]
  · simp [setDistance, h]

@[simp] theorem distanceAt_openNode (o i o' : ℕ) :
    (s.openNode o i).distanceAt o' = s.distanceAt o' := by
  unfold openNode
  split_ifs with h
  · rfl
  · rw [distanceAt_label]
    split_ifs with ho
    · rw [ho, distanceAt_of_not_isCurrent (by simpa using h)]
    · rfl

@[simp] theorem isCurrent_openNode (o i o' : ℕ) :
    (s.openNode o i).isCurrent o' = (decide (o' = o) || s.isCurrent o') := by
  unfold openNode
  split_ifs with h
  · by_cases ho : o' = o <;> simp [ho, h]
  · exact isCurrent_label o i infiniteCost o'

@[simp] theorem weightedFrontier_openNode (o i : ℕ) :
    (s.openNode o i).weightedFrontier = s.weightedFrontier := by
  unfold openNode
  split_ifs <;> rfl

section Fields

variable {S : Shape} {Tag : Type*} (W : FieldWorld S Tag) (M : FieldModel S Tag) (goal : Coord3)

@[simp] theorem isCurrent_stampBuild (o : ℕ) :
    (s.stampBuild W M goal).isCurrent o = s.isCurrent o := by
  unfold stampBuild stampResidency
  split <;> rfl

@[simp] theorem weightedFrontier_stampBuild :
    (s.stampBuild W M goal).weightedFrontier = s.weightedFrontier := by
  unfold stampBuild stampResidency
  split <;> rfl

@[simp] theorem weightedFrontier_resize (n : ℕ) :
    (s.resize n).weightedFrontier = s.weightedFrontier := by
  unfold resize
  split_ifs <;> rfl

end Fields

end DistanceFieldScratch

end Tess
