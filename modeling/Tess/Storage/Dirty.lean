import Tess.Core.Distance
import Mathlib.Data.BitVec

/-!
# Dirty marks

Every chunk carries a mask of dirty bits, the box that the marks behind them cover, and a
content version that every mark advances.

* `unionBox` : the box that a second mark grows the first one to, with saturated ends;
* `metaMarkDirty`, `metaClearDirty`, `metaObserveDirty` and `metaClearDirtyObserved` : the
  operations on the marks of one chunk;
* `Box3.Has.unionBox_left` : **a union loses no tile**.
-/

namespace Tess

/-- Half-open axis-aligned world-space box. -/
@[ext]
structure Box3 where
  /-- Least coordinate. -/
  origin : Coord3 := ⟨0, 0, 0⟩
  /-- Size along each axis. -/
  extent : Extent3 := ⟨0, 0, 0⟩
  deriving DecidableEq, Repr

/-- The largest signed coordinate. -/
def int64Max : ℤ := 2 ^ 63 - 1

/-- `detail::box_axis_end`: the end of an axis, saturated. -/
def boxAxisEnd (origin : ℤ) (extent : ℕ) : ℤ :=
  if (extent : ℤ) > int64Max then int64Max
  else if origin > int64Max - extent then int64Max else origin + extent

namespace Box3

variable (box : Box3)

/-- The saturated end along an axis. -/
def axisEnd (a : Axis) : ℤ := boxAxisEnd (box.origin.get a) (box.extent.get a)

/-- The box has the tile. -/
def Has (c : Coord3) : Prop :=
  ∀ a, box.origin.get a ≤ c.get a ∧ c.get a < box.origin.get a + box.extent.get a

/-- The box of an origin and an end along each axis. -/
def ofEnds (lo hi : Axis → ℤ) : Box3 :=
  ⟨⟨lo .x, lo .y, lo .z⟩,
    ⟨absDelta (hi .x) (lo .x), absDelta (hi .y) (lo .y), absDelta (hi .z) (lo .z)⟩⟩

end Box3

/-- `detail::union_box`, which the operation planner repeats as `union_dirty_bounds`. -/
def unionBox (lhs rhs : Box3) : Box3 :=
  .ofEnds (fun a => min (lhs.origin.get a) (rhs.origin.get a))
    fun a => max (lhs.axisEnd a) (rhs.axisEnd a)

/-! ### The marks of one chunk -/

/-- Dirty mask, dirty bounds and content version of one chunk. -/
structure ChunkDirty where
  /-- Dirty bits. -/
  mask : BitVec 32 := 0
  /-- Box of the marks. -/
  bounds : Box3 := {}
  /-- Version of the authoritative content. -/
  contentVersion : ℕ := 0
  deriving DecidableEq

/-- Snapshot of the marks of a chunk. -/
structure DirtyObservation where
  /-- Selected dirty bits. -/
  mask : BitVec 32
  /-- Box of the marks. -/
  bounds : Box3
  /-- Version of the content. -/
  contentVersion : ℕ
  /-- Residency interval; zero in a dense world. -/
  residencyGeneration : ℕ := 0
  deriving DecidableEq

namespace ChunkDirty

variable (d : ChunkDirty)

/-- `detail::meta_mark_dirty`. -/
def metaMarkDirty (mask : BitVec 32) (bounds : Box3) : ChunkDirty :=
  if mask = 0 then d
  else
    { mask := d.mask ||| mask
      bounds := if d.mask = 0 then bounds else unionBox d.bounds bounds
      contentVersion := d.contentVersion + 1 }

/-- `detail::meta_mark_content_changed`. -/
def metaMarkContentChanged : ChunkDirty := { d with contentVersion := d.contentVersion + 1 }

/-- `detail::meta_clear_dirty`. -/
def metaClearDirty (mask : BitVec 32) : ChunkDirty :=
  if mask = 0 then d
  else
    { d with
      mask := d.mask &&& ~~~mask
      bounds := if d.mask &&& ~~~mask = 0 then {} else d.bounds }

/-- `detail::meta_observe_dirty`. -/
def metaObserveDirty (mask : BitVec 32) (generation : ℕ := 0) : DirtyObservation :=
  ⟨d.mask &&& mask, d.bounds, d.contentVersion, generation⟩

/-- `detail::meta_clear_dirty_observed`; none when the observation is stale. -/
def metaClearDirtyObserved (observed : DirtyObservation) (generation : ℕ := 0) :
    Option ChunkDirty :=
  if generation ≠ observed.residencyGeneration then none
  else if d.contentVersion ≠ observed.contentVersion then none
  else some (d.metaClearDirty observed.mask)

end ChunkDirty

/-! ### Boxes -/

section Boxes

variable {lhs rhs : Box3} {c : Coord3} {a : Axis} {lo hi : Axis → ℤ}

@[simp] theorem Box3.ofEnds_origin : (Box3.ofEnds lo hi).origin.get a = lo a := by
  cases a <;> rfl

@[simp] theorem Box3.ofEnds_extent :
    (Box3.ofEnds lo hi).extent.get a = absDelta (hi a) (lo a) := by
  cases a <;> rfl

/-- The end of an axis is beyond every tile of the box that has a coordinate. -/
theorem lt_boxAxisEnd {origin v : ℤ} {extent : ℕ} (hv : v < origin + extent)
    (hmax : v < int64Max) : v < boxAxisEnd origin extent := by
  unfold boxAxisEnd
  split_ifs <;> omega

theorem boxAxisEnd_le (origin : ℤ) (extent : ℕ) : boxAxisEnd origin extent ≤ int64Max := by
  unfold boxAxisEnd
  split_ifs <;> omega

/-- A box between two ends has what lies between them. -/
theorem Box3.has_ofEnds (h : ∀ a, lo a ≤ c.get a ∧ c.get a < hi a) :
    (Box3.ofEnds lo hi).Has c := by
  intro a
  obtain ⟨hlo, hhi⟩ := h a
  rw [ofEnds_origin, ofEnds_extent, absDelta_eq]
  exact ⟨hlo, by omega⟩

/-- **A union loses no tile** of its first box. -/
theorem Box3.Has.unionBox_left (h : lhs.Has c) (hc : ∀ a, c.get a < int64Max) :
    (unionBox lhs rhs).Has c := by
  refine has_ofEnds fun a => ?_
  obtain ⟨hlo, hhi⟩ := h a
  exact ⟨(min_le_left _ _).trans hlo, lt_max_of_lt_left (lt_boxAxisEnd hhi (hc a))⟩

theorem unionBox_comm (lhs rhs : Box3) : unionBox lhs rhs = unionBox rhs lhs := by
  simp only [unionBox, min_comm, max_comm]

theorem Box3.Has.unionBox_right (h : rhs.Has c) (hc : ∀ a, c.get a < int64Max) :
    (unionBox lhs rhs).Has c := by
  rw [unionBox_comm]
  exact h.unionBox_left hc

/-- A contained tile is below every saturated end. -/
theorem lt_int64Max {S : Shape} (h : S.contains c = true) (a : Axis) : c.get a < int64Max := by
  obtain ⟨h1, h2, h3⟩ := S.axis_fits
  have := (Shape.contains_iff_get.1 h a).2
  unfold int64Max
  cases a <;> simp only [Extent3.get] at this <;> omega

end Boxes

/-! ### The order of boxes -/

/-- Origin and end along each axis; larger boxes have smaller origins and larger ends. -/
abbrev Ends := (Axis → ℤ)ᵒᵈ × (Axis → ℤ)

namespace Ends

/-- The box of an origin and an end. -/
def box (e : Ends) : Box3 := .ofEnds (OrderDual.ofDual e.1) e.2

/-- The origin is no coordinate below zero, and the end is one that an extent can express. -/
def Proper (e : Ends) : Prop :=
  ∀ a, 0 ≤ OrderDual.ofDual e.1 a ∧ OrderDual.ofDual e.1 a ≤ e.2 a ∧ e.2 a ≤ int64Max

end Ends

namespace Box3

variable {S : Shape} {b b' : Box3} {e : Ends}

/-- The ends of a box. -/
def ends (b : Box3) : Ends := (OrderDual.toDual b.origin.get, b.axisEnd)

/-- The box lies in the shape. -/
def InShape (S : Shape) (b : Box3) : Prop :=
  ∀ a, 0 ≤ b.origin.get a ∧ b.origin.get a + b.extent.get a ≤ S.size.get a

theorem unionBox_eq : unionBox b b' = (b.ends ⊔ b'.ends).box := rfl

/-- **The ends of a proper box** are the ones it was made of. -/
theorem ends_box (h : e.Proper) : e.box.ends = e := by
  refine Prod.ext (funext fun a => ?_) (funext fun a => ?_)
  · exact ofEnds_origin
  · obtain ⟨h1, h2, h3⟩ := h a
    change boxAxisEnd ((Box3.ofEnds _ _).origin.get a) ((Box3.ofEnds _ _).extent.get a) = _
    rw [ofEnds_origin, ofEnds_extent, absDelta_eq, boxAxisEnd]
    split_ifs <;> omega

theorem InShape.axisEnd_eq (h : b.InShape S) (a : Axis) :
    b.axisEnd a = b.origin.get a + b.extent.get a := by
  obtain ⟨h1, h2⟩ := h a
  have hsize : (S.size.get a : ℤ) ≤ int64Max := by
    obtain ⟨hx, hy, hz⟩ := S.axis_fits
    unfold int64Max
    cases a <;> simp only [Extent3.get] <;> omega
  rw [axisEnd, boxAxisEnd]
  split_ifs <;> omega

/-- A box in the shape is the box of its ends. -/
theorem InShape.box_ends (h : b.InShape S) : b.ends.box = b := by
  have horigin (a : Axis) : b.ends.box.origin.get a = b.origin.get a := ofEnds_origin
  have hextent (a : Axis) : b.ends.box.extent.get a = b.extent.get a := by
    refine (@ofEnds_extent a b.origin.get b.axisEnd).trans ?_
    rw [h.axisEnd_eq, absDelta_eq]
    omega
  ext
  · exact horigin .x
  · exact horigin .y
  · exact horigin .z
  · exact hextent .x
  · exact hextent .y
  · exact hextent .z

/-- Growing a box of the shape keeps the ends, unless the other box starts below zero. -/
theorem InShape.proper_sup (h : b.InShape S) (h' : ∀ a, 0 ≤ b'.origin.get a) :
    (b'.ends ⊔ b.ends).Proper := by
  intro a
  change 0 ≤ min (b'.origin.get a) (b.origin.get a) ∧
    min (b'.origin.get a) (b.origin.get a) ≤ max (b'.axisEnd a) (b.axisEnd a) ∧
    max (b'.axisEnd a) (b.axisEnd a) ≤ int64Max
  have h1 := (h a).1
  have h2 := h' a
  have h3 := h.axisEnd_eq a
  have h4 : b.axisEnd a ≤ int64Max := boxAxisEnd_le _ _
  have h5 : b'.axisEnd a ≤ int64Max := boxAxisEnd_le _ _
  omega

/-- A union of boxes in the shape is in the shape. -/
theorem InShape.unionBox (h : b.InShape S) (h' : b'.InShape S) : (unionBox b b').InShape S := by
  intro a
  rw [Tess.unionBox, ofEnds_origin, ofEnds_extent, absDelta_eq, h.axisEnd_eq, h'.axisEnd_eq]
  have h1 := h a
  have h2 := h' a
  omega

end Box3

/-- A world of two tiles, each a chunk of its own. -/
def twoCells : Shape where
  size := ⟨2, 1, 1⟩
  chunk := ⟨1, 1, 1⟩
  lattice := .orthogonal
  size_valid := by decide
  chunk_pow := by decide
  divisible := by decide
  lattice_valid := by decide
  chunk_count_fits := by decide
  local_count_fits := by decide
  axis_fits := by decide

end Tess
