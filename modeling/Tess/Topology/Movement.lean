import Tess.Storage.World
import Tess.Core.Distance

/-!
# Movement classes and step policies

A `MovementClass` fuses a passability predicate and an entry cost, both read at one tile of
one page, with a step policy.  `MovementClass.unit` keeps the predicate and the policy and
charges one for every tile; the minimum-step searches run under it.

`isPassable` and `tileEntryCostIndex` are the checked reads the searches make; a tile of a
chunk that is not resident reads as impassable.
-/

namespace Tess

/-- Clearance requirement for a two-axis diagonal step. -/
inductive CornerRule
  | requireBothClear
  | requireOneClear
  deriving DecidableEq, Repr

/-- Regular-step policy of a movement class. -/
inductive StepPolicy
  | defaultSteps
  | diagonalSteps (rule : CornerRule)
  deriving DecidableEq, Repr

namespace StepPolicy

/-- Ticks charged for a face step of unit entry cost. -/
def costScale : StepPolicy → ℕ
  | defaultSteps => 1
  | diagonalSteps _ => 128

/-- Ticks charged for a diagonal step of unit entry cost; 181 / 128 approximates the square
root of two. -/
def diagonalStepMultiplier : ℕ := 181

theorem costScale_pos (p : StepPolicy) : 0 < p.costScale := by cases p <;> simp [costScale]

end StepPolicy

/-- `detail::effective_axis_count`: the number of axes with more than one layer. -/
def effectiveAxisCount (S : Shape) : ℕ :=
  (if S.size.x ≠ 1 then 1 else 0) + (if S.size.y ≠ 1 then 1 else 0) +
    (if S.size.z ≠ 1 then 1 else 0)

/-- Diagonal steps need an orthogonal shape with exactly two effective axes. -/
def StepPolicyFor (S : Shape) : StepPolicy → Prop
  | .defaultSteps => True
  | .diagonalSteps _ => S.lattice = .orthogonal ∧ effectiveAxisCount S = 2

/-- A movement class usable with the pages of a shape. -/
structure MovementClass (S : Shape) (Tag : Type*) where
  /-- Whether the tile admits the class. -/
  passable : ChunkPage Tag → ℕ → Bool
  /-- Cost of entering the tile; zero means impassable. -/
  entryCost : ChunkPage Tag → ℕ → ℕ
  /-- Regular steps of the class. -/
  stepPolicy : StepPolicy
  /-- Entry costs are 32-bit values. -/
  entryCost_le : ∀ page id, entryCost page id ≤ infiniteCost
  /-- The step policy is valid for the shape. -/
  stepPolicy_valid : StepPolicyFor S stepPolicy
  /-- Resolved transitions require 64-bit tile keys. -/
  tileKeyBits_le : S.tileKeyBits ≤ 64

namespace MovementClass

variable {S : Shape} {Tag : Type*}

/-- `UnitMovementClass`: unit entry costs under the class's predicate and step policy. -/
def unit (cls : MovementClass S Tag) : MovementClass S Tag where
  passable := cls.passable
  entryCost _ _ := 1
  stepPolicy := cls.stepPolicy
  entryCost_le _ _ := by decide
  stepPolicy_valid := cls.stepPolicy_valid
  tileKeyBits_le := cls.tileKeyBits_le

/-- `UnitCostFieldMovement`: a truthy field at unit cost, with default steps. -/
def unitCostField (h : S.tileKeyBits ≤ 64) (tag : Tag) : MovementClass S Tag where
  passable page id := page.field tag id != 0
  entryCost _ _ := 1
  stepPolicy := .defaultSteps
  entryCost_le _ _ := by decide
  stepPolicy_valid := trivial
  tileKeyBits_le := h

/-- `movement::normalize_cost`: nonpositive costs are impassable, large ones saturate. -/
def normalizeCost (value : ℤ) : ℕ :=
  if value ≤ 0 then 0 else if value.toNat > infiniteCost then infiniteCost else value.toNat

theorem normalizeCost_le (value : ℤ) : normalizeCost value ≤ infiniteCost := by
  unfold normalizeCost
  split_ifs <;> omega

/-- `MovementClass<Field<PassableTag>, FieldCost<CostTag>>`: a truthy field at the cost
another field stores. -/
def fieldCost (h : S.tileKeyBits ≤ 64) (passableTag costTag : Tag) : MovementClass S Tag where
  passable page id := page.field passableTag id != 0
  entryCost page id := normalizeCost (page.field costTag id)
  stepPolicy := .defaultSteps
  entryCost_le _ _ := normalizeCost_le _
  stepPolicy_valid := trivial
  tileKeyBits_le := h

@[simp] theorem unit_passable (cls : MovementClass S Tag) : cls.unit.passable = cls.passable :=
  rfl

@[simp] theorem unit_entryCost (cls : MovementClass S Tag) (page : ChunkPage Tag) (id : ℕ) :
    cls.unit.entryCost page id = 1 := rfl

@[simp] theorem unit_stepPolicy (cls : MovementClass S Tag) :
    cls.unit.stepPolicy = cls.stepPolicy := rfl

theorem tileKey_lt_two_pow (cls : MovementClass S Tag) {c : Coord3}
    (h : S.contains c = true) : S.tileKey c < 2 ^ 64 :=
  (Shape.tileKey_lt h).trans_le <| Shape.tileCount_le_two_pow.trans <|
    Nat.pow_le_pow_right (by decide) cls.tileKeyBits_le

end MovementClass

variable {S : Shape} {Tag : Type*} (W : World S Tag) (cls : MovementClass S Tag)

/-- `detail::is_passable`. -/
def isPassable (c : Coord3) : Bool :=
  match W.tryResolve c with
  | none => false
  | some r =>
    match W.tryChunk r.chunkKey with
    | none => false
    | some page => cls.passable page r.localTileId

/-- `detail::is_passable_index`. -/
def isPassableIndex (index : ℕ) : Bool :=
  match W.tryChunk (S.keyChunk index) with
  | none => false
  | some page => cls.passable page (S.keyLocal index)

/-- `detail::tile_entry_cost_index`, read only at resident tiles. -/
def tileEntryCostIndex (index : ℕ) : ℕ :=
  match W.tryChunk (S.keyChunk index) with
  | none => 0
  | some page => cls.entryCost page (S.keyLocal index)

/-- Entry cost of a coordinate, zero outside the resident tiles. -/
def entryCostAt (c : Coord3) : ℕ :=
  match W.tileAt c with
  | none => 0
  | some (page, id) => cls.entryCost page id

variable {W cls}

theorem isPassable_eq (c : Coord3) : isPassable W cls c =
    match W.tileAt c with
    | none => false
    | some (page, id) => cls.passable page id := by
  unfold isPassable World.tileAt
  cases W.tryResolve c with
  | none => rfl
  | some r => cases h : W.tryChunk r.chunkKey <;> simp [h]

theorem isPassable_of_tileAt {c : Coord3} {page : ChunkPage Tag} {id : ℕ}
    (h : W.tileAt c = some (page, id)) : isPassable W cls c = cls.passable page id := by
  rw [isPassable_eq, h]

theorem entryCostAt_of_tileAt {c : Coord3} {page : ChunkPage Tag} {id : ℕ}
    (h : W.tileAt c = some (page, id)) : entryCostAt W cls c = cls.entryCost page id := by
  rw [entryCostAt, h]

theorem resident_of_isPassable {c : Coord3} (h : isPassable W cls c = true) :
    W.Resident c := by
  rw [isPassable_eq] at h
  cases ht : W.tileAt c with
  | none => rw [ht] at h; exact absurd h (by simp)
  | some t => exact World.resident_of_tileAt ht

theorem contains_of_isPassable {c : Coord3} (h : isPassable W cls c = true) :
    S.contains c = true := (resident_of_isPassable h).contains

@[simp] theorem isPassableIndex_tileKey {c : Coord3} (h : S.contains c = true) :
    isPassableIndex W cls (S.tileKey c) = isPassable W cls c := by
  simp only [isPassableIndex, isPassable, World.tryResolve, h, ↓reduceIte, World.resolve,
    Shape.keyChunk_tileKey h, Shape.keyLocal_tileKey h]

@[simp] theorem tileEntryCostIndex_tileKey {c : Coord3} (h : S.contains c = true) :
    tileEntryCostIndex W cls (S.tileKey c) = entryCostAt W cls c := by
  simp only [tileEntryCostIndex, entryCostAt, World.tileAt_of_contains h, World.resolve,
    Shape.keyChunk_tileKey h, Shape.keyLocal_tileKey h]
  cases W.tryChunk (S.chunkKey (S.chunkCoord c)) <;> rfl

theorem entryCostAt_unit {c : Coord3} (h : W.Resident c) : entryCostAt W cls.unit c = 1 := by
  obtain ⟨t, ht⟩ := Option.isSome_iff_exists.1 h
  rw [entryCostAt_of_tileAt ht]
  rfl

@[simp] theorem isPassable_unit (c : Coord3) : isPassable W cls.unit c = isPassable W cls c :=
  rfl

/-! ### Open worlds -/

/-- The dense world in which every field is one everywhere. -/
def openWorld (S : Shape) : World S Unit := .dense S fun _ _ => 1

/-- Every tile of an open world can be entered, at unit cost. -/
theorem enter_openWorld {h : S.tileKeyBits ≤ 64} {c : Coord3} (hc : S.contains c = true) :
    isPassable (openWorld S) (.unitCostField h ()) c = true ∧
      entryCostAt (openWorld S) (.unitCostField h ()) c = 1 := by
  obtain ⟨page, id, ht, hfield⟩ := World.exists_tileAt_dense (fun (_ : Unit) _ => (1 : ℤ)) hc
  refine ⟨?_, ?_⟩
  · rw [openWorld, isPassable_of_tileAt ht]
    simp [MovementClass.unitCostField, hfield]
  · rw [openWorld, entryCostAt_of_tileAt ht]
    rfl

end Tess
