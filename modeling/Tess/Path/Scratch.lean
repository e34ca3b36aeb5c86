import Tess.Path.Types
import Tess.Storage.World

/-!
# Node arrays of a search

A search keeps a state, a label and a parent for every tile in arrays indexed by a compact
offset, and outlives no query: an array entry counts only while its generation equals the
epoch of the running query.

* `offset`, `residentOffset`, `capacityHint` : the node index space of a world;
* `PathScratch` : the arrays, the two frontiers and the path; its proof field says that no
  generation is ahead of the epoch, which is what makes clearing by epoch sound;
* `PathScratch.not_isCurrent_clear` : **after `clear` no entry of any earlier query counts**,
  also when the epoch wraps;
* `offset_injOn` : distinct resident tiles have distinct offsets below the capacity.
-/

namespace Tess

/-- State of a tile in a search. -/
inductive NodeState
  | unseen
  | opened
  | closed
  deriving DecidableEq, Repr

/-- Parent of a tile that has none. -/
def noParent : ℕ := u64Max

/-! ### Node index space -/

section Offsets

variable {S : Shape} {Tag : Type*} (W : World S Tag)

/-- `NodeIndexSpace::offset` of the index of a resident tile. -/
def offset (index : ℕ) : ℕ :=
  match W.residency with
  | .alwaysResident => index
  | .sparseResident =>
    (W.residentSlot (S.keyChunk index)).getD 0 * S.localTileCount + S.keyLocal index

/-- `NodeIndexSpace::resident_offset`: residency test and offset in one probe. -/
def residentOffset (index : ℕ) : Option ℕ :=
  match W.residency with
  | .alwaysResident => some index
  | .sparseResident =>
    (W.residentSlot (S.keyChunk index)).map fun slot => slot * S.localTileCount + S.keyLocal index

/-- `NodeIndexSpace::is_resident_index`. -/
def isResidentIndex (index : ℕ) : Bool :=
  match W.residency with
  | .alwaysResident => true
  | .sparseResident => (W.residentSlot (S.keyChunk index)).isSome

/-- `NodeIndexSpace::capacity_hint`. -/
def capacityHint : ℕ :=
  match W.residency with
  | .alwaysResident => S.chunkCount * S.localTileCount
  | .sparseResident => W.capacity * S.localTileCount

variable {W}

/-- Offset of a resident tile, for both residency policies. -/
theorem offset_tileKey {c : Coord3} (hc : S.contains c = true) {slot : ℕ}
    (h : W.residentSlot (S.chunkKey (S.chunkCoord c)) = some slot) :
    offset W (S.tileKey c) = slot * S.localTileCount + S.localTileId (S.localCoord c) := by
  unfold offset
  cases hr : W.residency with
  | alwaysResident =>
    rw [W.dense_slot hr _ (Shape.chunkKey_lt hc), Option.some.injEq] at h
    rw [Shape.tileKey_eq hc, h]
  | sparseResident =>
    simp only [Shape.keyChunk_tileKey hc, Shape.keyLocal_tileKey hc, h, Option.getD_some]

theorem residentOffset_tileKey {c : Coord3} (h : W.Resident c) :
    residentOffset W (S.tileKey c) = some (offset W (S.tileKey c)) := by
  obtain ⟨hc, slot, hs⟩ := World.resident_iff.1 h
  unfold residentOffset offset
  cases W.residency with
  | alwaysResident => rfl
  | sparseResident =>
    simp only [Shape.keyChunk_tileKey hc, hs, Option.map_some, Option.getD_some]

theorem isResidentIndex_tileKey {c : Coord3} (hc : S.contains c = true) :
    isResidentIndex W (S.tileKey c) = true ↔ W.Resident c := by
  rw [World.resident_iff, isResidentIndex]
  cases hr : W.residency with
  | alwaysResident =>
    simp only [hc, true_and, true_iff]
    exact ⟨_, W.dense_slot hr _ (Shape.chunkKey_lt hc)⟩
  | sparseResident =>
    simp only [Shape.keyChunk_tileKey hc, hc, true_and]
    exact Option.isSome_iff_exists

theorem offset_injOn {a b : Coord3} (ha : W.Resident a) (hb : W.Resident b)
    (h : offset W (S.tileKey a) = offset W (S.tileKey b)) : a = b := by
  obtain ⟨hca, i, hi⟩ := World.resident_iff.1 ha
  obtain ⟨hcb, j, hj⟩ := World.resident_iff.1 hb
  rw [offset_tileKey hca hi, offset_tileKey hcb hj] at h
  have hla := S.localTileId_lt a
  have hlb := S.localTileId_lt b
  have hq := congrArg (· / S.localTileCount) h
  have hr := congrArg (· % S.localTileCount) h
  simp only [Nat.mul_comm _ S.localTileCount, Nat.mul_add_div S.localTileCount_pos,
    Nat.mul_add_mod, Nat.div_eq_of_lt hla, Nat.div_eq_of_lt hlb, Nat.mod_eq_of_lt hla,
    Nat.mod_eq_of_lt hlb, Nat.add_zero] at hq hr
  subst hq
  have hk := W.slot_inj _ _ _ hi hj
  exact Shape.tileKey_inj hca hcb (by rw [Shape.tileKey_eq hca, Shape.tileKey_eq hcb, hk, hr])

/-- Offsets of resident tiles lie inside the node arrays. -/
theorem offset_lt_capacityHint {c : Coord3} (h : W.Resident c) :
    offset W (S.tileKey c) < capacityHint W := by
  obtain ⟨hc, slot, hs⟩ := World.resident_iff.1 h
  have hl := S.localTileId_lt c
  have hcap : capacityHint W = W.capacity * S.localTileCount := by
    unfold capacityHint
    cases hr : W.residency with
    | alwaysResident => rw [W.dense_capacity hr]
    | sparseResident => rfl
  rw [offset_tileKey hc hs, hcap]
  calc slot * S.localTileCount + S.localTileId (S.localCoord c)
      < slot * S.localTileCount + S.localTileCount := by omega
    _ = (slot + 1) * S.localTileCount := by ring
    _ ≤ W.capacity * S.localTileCount := Nat.mul_le_mul_right _ (W.slot_lt _ _ hs)

end Offsets

/-! ### Scratch -/

/-- Frontier, node state and path storage of a search. -/
structure PathScratch where
  /-- Open list; its head is the back of the vector. -/
  openList : List PackedOpenNode := []
  /-- Second band of the unit search. -/
  openNext : List PackedOpenNode := []
  /-- Length of the node arrays. -/
  nodeCount : ℕ := 0
  /-- Epoch in which an entry was last touched. -/
  generation : ℕ → ℕ := fun _ => 0
  /-- Epoch of the running query. -/
  epoch : ℕ := 1
  /-- State of a node. -/
  state : ℕ → NodeState := fun _ => .unseen
  /-- Label of a node. -/
  g : ℕ → ℕ := fun _ => infiniteCost
  /-- Tile index of the parent of a node. -/
  parent : ℕ → ℕ := fun _ => noParent
  /-- Number of nodes touched by the running query. -/
  touchedCount : ℕ := 0
  /-- Tiles of the returned path. -/
  path : List Coord3 := []
  /-- The epoch is a non-zero 32-bit value. -/
  epoch_bounds : 0 < epoch ∧ epoch < 2 ^ 32 := by decide
  /-- No entry was touched in a later epoch. -/
  generation_le : ∀ offset, generation offset ≤ epoch := by intro; decide

namespace PathScratch

variable (s : PathScratch)

/-- `advance_epoch`: the arrays are cleared for real when the epoch wraps. -/
def advanceEpoch : PathScratch :=
  if h : (s.epoch + 1) % 2 ^ 32 = 0 then
    { s with
      generation := fun _ => 0
      epoch := 1
      epoch_bounds := by decide
      generation_le := fun _ => Nat.zero_le _ }
  else
    { s with
      epoch := (s.epoch + 1) % 2 ^ 32
      epoch_bounds := ⟨Nat.pos_of_ne_zero h, Nat.mod_lt _ (by decide)⟩
      generation_le := fun o => by
        have h1 := s.generation_le o
        have h2 := s.epoch_bounds
        omega }

/-- `clear`. -/
def clear : PathScratch :=
  { s.advanceEpoch with openList := [], openNext := [], touchedCount := 0, path := [] }

/-- The entry was touched by the running query. -/
def isCurrent (offset : ℕ) : Bool := s.generation offset == s.epoch

/-- State of a node in the running query. -/
def stateAt (offset : ℕ) : NodeState := if s.isCurrent offset then s.state offset else .unseen

/-- Label of a node in the running query. -/
def gAt (offset : ℕ) : ℕ := if s.isCurrent offset then s.g offset else infiniteCost

/-- `touch_node`. -/
def touchNode (offset : ℕ) : PathScratch :=
  { s with
    generation := fun o => if o = offset then s.epoch else s.generation o
    touchedCount := s.touchedCount + 1
    generation_le := fun o => by
      split_ifs
      · exact le_rfl
      · exact s.generation_le o }

/-- Size the node arrays for `nodeCount` nodes. -/
def resize (nodeCount : ℕ) : PathScratch :=
  if s.nodeCount ≠ nodeCount then
    { s with
      nodeCount := nodeCount
      generation := fun _ => 0
      state := fun _ => .unseen
      g := fun _ => infiniteCost
      parent := fun _ => noParent
      generation_le := fun _ => Nat.zero_le _ }
  else s

/-- The writes that open the start node. -/
def openStart (offset : ℕ) : PathScratch :=
  touchNode { s with
    g := fun o => if o = offset then 0 else s.g o
    state := fun o => if o = offset then .opened else s.state o } offset

/-- Close a node. -/
def closeNode (offset : ℕ) : PathScratch :=
  { s with state := fun o => if o = offset then .closed else s.state o }

/-- The writes that give a node a better label, touching it when it was unseen. -/
def lowerNode (offset label parentIndex : ℕ) : PathScratch :=
  let s' := if s.stateAt offset = .unseen then s.touchNode offset else s
  { s' with
    g := fun o => if o = offset then label else s'.g o
    parent := fun o => if o = offset then parentIndex else s'.parent o
    state := fun o => if o = offset then .opened else s'.state o }

variable {s}

theorem not_isCurrent_advanceEpoch (o : ℕ) : s.advanceEpoch.isCurrent o = false := by
  have h1 := s.generation_le o
  have h2 := s.epoch_bounds
  unfold advanceEpoch isCurrent
  split_ifs with h
  · rfl
  · simp only [beq_eq_false_iff_ne]
    omega

/-- **Clearing by epoch**: no entry of an earlier query counts any more. -/
theorem not_isCurrent_clear (o : ℕ) : s.clear.isCurrent o = false :=
  not_isCurrent_advanceEpoch o

theorem not_isCurrent_resize (h : ∀ o, s.isCurrent o = false) (n o : ℕ) :
    (s.resize n).isCurrent o = false := by
  unfold resize
  split_ifs
  · have := s.epoch_bounds
    simp only [isCurrent, beq_eq_false_iff_ne]
    omega
  · exact h o

theorem isCurrent_of_stateAt {o : ℕ} (h : s.stateAt o ≠ .unseen) : s.isCurrent o = true := by
  unfold stateAt at h
  split_ifs at h with hc
  · exact hc
  · exact absurd rfl h

@[simp] theorem isCurrent_touchNode (o o' : ℕ) :
    (s.touchNode o).isCurrent o' = (decide (o' = o) || s.isCurrent o') := by
  by_cases h : o' = o <;> simp [isCurrent, touchNode, h]

theorem stateAt_closeNode {o : ℕ} (h : s.isCurrent o = true) (o' : ℕ) :
    (s.closeNode o).stateAt o' = if o' = o then .closed else s.stateAt o' := by
  change (if s.isCurrent o' then _ else _) = _
  by_cases ho : o' = o
  · subst ho; simp [h, closeNode]
  · simp [ho, closeNode, stateAt]

@[simp] theorem gAt_closeNode (o o' : ℕ) : (s.closeNode o).gAt o' = s.gAt o' := rfl

@[simp] theorem parent_closeNode (o : ℕ) : (s.closeNode o).parent = s.parent := rfl

theorem stateAt_openStart (o o' : ℕ) :
    (s.openStart o).stateAt o' = if o' = o then .opened else s.stateAt o' := by
  simp only [openStart, stateAt, isCurrent_touchNode]
  by_cases ho : o' = o <;> simp [ho, touchNode, isCurrent]

theorem gAt_openStart (o o' : ℕ) :
    (s.openStart o).gAt o' = if o' = o then 0 else s.gAt o' := by
  simp only [openStart, gAt, isCurrent_touchNode]
  by_cases ho : o' = o <;> simp [ho, touchNode, isCurrent]

@[simp] theorem openList_openStart (o : ℕ) : (s.openStart o).openList = s.openList := rfl

@[simp] theorem openNext_openStart (o : ℕ) : (s.openStart o).openNext = s.openNext := rfl

@[simp] theorem path_openStart (o : ℕ) : (s.openStart o).path = s.path := rfl

@[simp] theorem openList_resize (n : ℕ) : (s.resize n).openList = s.openList := by
  unfold resize
  split_ifs <;> rfl

@[simp] theorem openNext_resize (n : ℕ) : (s.resize n).openNext = s.openNext := by
  unfold resize
  split_ifs <;> rfl

@[simp] theorem path_resize (n : ℕ) : (s.resize n).path = s.path := by
  unfold resize
  split_ifs <;> rfl

theorem isCurrent_lowerNode (o l p o' : ℕ) :
    (s.lowerNode o l p).isCurrent o' = (decide (o' = o) || s.isCurrent o') := by
  unfold lowerNode
  split_ifs with h
  · exact isCurrent_touchNode o o'
  · have hc := isCurrent_of_stateAt h
    change s.isCurrent o' = _
    by_cases ho : o' = o
    · subst ho; simp [hc]
    · simp [ho]

theorem stateAt_lowerNode (o l p o' : ℕ) :
    (s.lowerNode o l p).stateAt o' = if o' = o then .opened else s.stateAt o' := by
  unfold stateAt
  rw [isCurrent_lowerNode]
  unfold lowerNode
  by_cases ho : o' = o
  · simp [ho]
  · simp only [ho, decide_false, Bool.false_or, if_false]
    split_ifs <;> rfl

theorem gAt_lowerNode (o l p o' : ℕ) :
    (s.lowerNode o l p).gAt o' = if o' = o then l else s.gAt o' := by
  unfold gAt
  rw [isCurrent_lowerNode]
  unfold lowerNode
  by_cases ho : o' = o
  · simp [ho]
  · simp only [ho, decide_false, Bool.false_or, if_false]
    split_ifs <;> rfl

theorem parent_lowerNode (o l p o' : ℕ) :
    (s.lowerNode o l p).parent o' = if o' = o then p else s.parent o' := by
  unfold lowerNode
  by_cases ho : o' = o
  · simp [ho]
  · simp only [ho, if_false]
    split_ifs <;> rfl

@[simp] theorem openList_lowerNode (o l p : ℕ) : (s.lowerNode o l p).openList = s.openList := by
  unfold lowerNode
  split_ifs <;> rfl

@[simp] theorem openNext_lowerNode (o l p : ℕ) : (s.lowerNode o l p).openNext = s.openNext := by
  unfold lowerNode
  split_ifs <;> rfl

@[simp] theorem path_lowerNode (o l p : ℕ) : (s.lowerNode o l p).path = s.path := by
  unfold lowerNode
  split_ifs <;> rfl

end PathScratch

end Tess
