import Tess.Topology.Legal

/-!
# Neighbouring chunks

The chunks that one regular step can lead to from a chunk: those that share a face with it, and
on the axial hex lattice the two across the seams of the third direction.

* `mem_forEachFaceNeighborChunk` : the enumeration lists exactly the adjacent chunks of the grid;
* `chunkAdjacent_comm` : adjacency is symmetric, so that a chunk is listed by those it lists;
* `chunkCoord_of_latticeAdjacent` : **a regular step** stays in its chunk or enters an adjacent one.
-/

namespace Tess

/-- The cell as a coordinate. -/
def GridCoord3.toCoord (g : GridCoord3) : Coord3 := ⟨g.x, g.y, g.z⟩

section Definitions

variable (S : Shape)

/-- `detail::for_each_face_neighbor_chunk`. -/
def forEachFaceNeighborChunk (g : GridCoord3) : List GridCoord3 :=
  (if g.x > 0 then [⟨g.x - 1, g.y, g.z⟩] else []) ++
  (if g.x + 1 < S.chunkGrid.x then [⟨g.x + 1, g.y, g.z⟩] else []) ++
  (if g.y > 0 then [⟨g.x, g.y - 1, g.z⟩] else []) ++
  (if g.y + 1 < S.chunkGrid.y then [⟨g.x, g.y + 1, g.z⟩] else []) ++
  (if g.z > 0 then [⟨g.x, g.y, g.z - 1⟩] else []) ++
  (if g.z + 1 < S.chunkGrid.z then [⟨g.x, g.y, g.z + 1⟩] else []) ++
  match S.lattice with
  | .orthogonal => []
  | .hexAxial =>
    (if g.x + 1 < S.chunkGrid.x ∧ g.y > 0 then [⟨g.x + 1, g.y - 1, g.z⟩] else []) ++
    if g.x > 0 ∧ g.y + 1 < S.chunkGrid.y then [⟨g.x - 1, g.y + 1, g.z⟩] else []

/-- `detail::same_or_face_neighbor_chunk`. -/
def sameOrFaceNeighborChunk (a b : Coord3) : Bool :=
  S.chunkCoord a == S.chunkCoord b ||
    (forEachFaceNeighborChunk S (S.chunkCoord a)).any (· == S.chunkCoord b)

/-- The two chunks are neighbours on the lattice of the shape. -/
def ChunkAdjacent (g h : GridCoord3) : Prop :=
  match S.lattice with
  | .orthogonal => FaceAdjacent g.toCoord h.toCoord
  | .hexAxial => HexAdjacent g.toCoord h.toCoord

end Definitions

variable {S : Shape} {g h : GridCoord3}

theorem hexAdjacent_comm {a b : Coord3} : HexAdjacent a b ↔ HexAdjacent b a := by
  unfold HexAdjacent hexDist
  omega

theorem chunkAdjacent_comm : ChunkAdjacent S g h ↔ ChunkAdjacent S h g := by
  unfold ChunkAdjacent
  cases S.lattice with
  | orthogonal => exact faceAdjacent_comm
  | hexAxial => exact hexAdjacent_comm

theorem chunkGrid_z_of_hex (hl : S.lattice = .hexAxial) : S.chunkGrid.z = 1 := by
  obtain ⟨hs, hc⟩ := S.lattice_valid hl
  rw [Shape.chunkGrid, hs, hc]

theorem mem_ite_singleton {α : Type*} {p : Prop} [Decidable p] {k l : α} :
    k ∈ (if p then [l] else []) ↔ p ∧ k = l := by
  split_ifs with hp <;> simp [hp]

/-- One direction after the other in a grid: a step down the first axis, up it, and so on. -/
theorem Extent3.neighbor_directions {e : Extent3} (hg : e.Has g) :
    ((g.x > 0 ∧ h = ⟨g.x - 1, g.y, g.z⟩) ↔
      e.Has h ∧ h.toCoord = ⟨g.toCoord.x - 1, g.toCoord.y, g.toCoord.z⟩) ∧
    ((g.x + 1 < e.x ∧ h = ⟨g.x + 1, g.y, g.z⟩) ↔
      e.Has h ∧ h.toCoord = ⟨g.toCoord.x + 1, g.toCoord.y, g.toCoord.z⟩) ∧
    ((g.y > 0 ∧ h = ⟨g.x, g.y - 1, g.z⟩) ↔
      e.Has h ∧ h.toCoord = ⟨g.toCoord.x, g.toCoord.y - 1, g.toCoord.z⟩) ∧
    ((g.y + 1 < e.y ∧ h = ⟨g.x, g.y + 1, g.z⟩) ↔
      e.Has h ∧ h.toCoord = ⟨g.toCoord.x, g.toCoord.y + 1, g.toCoord.z⟩) ∧
    ((g.z > 0 ∧ h = ⟨g.x, g.y, g.z - 1⟩) ↔
      e.Has h ∧ h.toCoord = ⟨g.toCoord.x, g.toCoord.y, g.toCoord.z - 1⟩) ∧
    ((g.z + 1 < e.z ∧ h = ⟨g.x, g.y, g.z + 1⟩) ↔
      e.Has h ∧ h.toCoord = ⟨g.toCoord.x, g.toCoord.y, g.toCoord.z + 1⟩) := by
  obtain ⟨gx, gy, gz⟩ := hg
  obtain ⟨a', b', c'⟩ := h
  simp only [Extent3.Has, GridCoord3.toCoord, GridCoord3.mk.injEq, Coord3.mk.injEq]
  refine ⟨?_, ?_, ?_, ?_, ?_, ?_⟩ <;> omega

/-- The two directions that the axial hex lattice adds. -/
theorem Extent3.neighbor_seams {e : Extent3} (hg : e.Has g) :
    (((g.x + 1 < e.x ∧ g.y > 0) ∧ h = ⟨g.x + 1, g.y - 1, g.z⟩) ↔
      e.Has h ∧ h.toCoord = ⟨g.toCoord.x + 1, g.toCoord.y - 1, g.toCoord.z⟩) ∧
    (((g.x > 0 ∧ g.y + 1 < e.y) ∧ h = ⟨g.x - 1, g.y + 1, g.z⟩) ↔
      e.Has h ∧ h.toCoord = ⟨g.toCoord.x - 1, g.toCoord.y + 1, g.toCoord.z⟩) := by
  obtain ⟨gx, gy, gz⟩ := hg
  obtain ⟨a', b', c'⟩ := h
  simp only [Extent3.Has, GridCoord3.toCoord, GridCoord3.mk.injEq, Coord3.mk.injEq]
  constructor <;> omega

/-- **The enumeration** lists the adjacent chunks of the grid. -/
theorem mem_forEachFaceNeighborChunk (hg : S.chunkGrid.Has g) :
    h ∈ forEachFaceNeighborChunk S g ↔ S.chunkGrid.Has h ∧ ChunkAdjacent S g h := by
  obtain ⟨h1, h2, h3, h4, h5, h6⟩ := Extent3.neighbor_directions (h := h) hg
  unfold forEachFaceNeighborChunk ChunkAdjacent
  cases hl : S.lattice with
  | orthogonal =>
    simp only [List.append_nil, List.mem_append, mem_ite_singleton, faceAdjacent_iff, h1, h2, h3,
      h4, h5, h6]
    simp only [and_or_left, or_comm, or_left_comm]
  | hexAxial =>
    obtain ⟨h7, h8⟩ := Extent3.neighbor_seams (h := h) hg
    -- There is one layer of chunks, so the steps along the third axis leave the grid.
    have hz : ¬ g.z > 0 ∧ ¬ g.z + 1 < S.chunkGrid.z := by
      have := chunkGrid_z_of_hex hl
      have := hg.2.2
      omega
    rw [if_neg hz.1, if_neg hz.2]
    simp only [List.append_nil, List.mem_append, mem_ite_singleton, hexAdjacent_iff, h1, h2, h3,
      h4, h7, h8]
    simp only [and_or_left, or_comm, or_left_comm]

theorem mem_forEachFaceNeighborChunk_comm (hg : S.chunkGrid.Has g) (hh : S.chunkGrid.Has h) :
    h ∈ forEachFaceNeighborChunk S g ↔ g ∈ forEachFaceNeighborChunk S h := by
  rw [mem_forEachFaceNeighborChunk hg, mem_forEachFaceNeighborChunk hh, chunkAdjacent_comm,
    and_iff_right hg, and_iff_right hh]

theorem sameOrFaceNeighborChunk_iff {a b : Coord3} (ha : S.contains a = true)
    (hb : S.contains b = true) : sameOrFaceNeighborChunk S a b = true ↔
      S.chunkCoord a = S.chunkCoord b ∨ ChunkAdjacent S (S.chunkCoord a) (S.chunkCoord b) := by
  have hmem := mem_forEachFaceNeighborChunk (S := S) (h := S.chunkCoord b)
    (Shape.has_chunkCoord ha)
  rw [and_iff_right (Shape.has_chunkCoord hb)] at hmem
  simp [sameOrFaceNeighborChunk, hmem]

theorem sameOrFaceNeighborChunk_comm {a b : Coord3} (ha : S.contains a = true)
    (hb : S.contains b = true) :
    sameOrFaceNeighborChunk S a b = sameOrFaceNeighborChunk S b a := by
  rw [Bool.eq_iff_iff, sameOrFaceNeighborChunk_iff ha hb, sameOrFaceNeighborChunk_iff hb ha,
    chunkAdjacent_comm, eq_comm]

/-! ### Regular steps between chunks -/

/-- The two tiles are neighbours on the lattice of the shape. -/
def LatticeAdjacent (S : Shape) (a b : Coord3) : Prop :=
  match S.lattice with
  | .orthogonal => FaceAdjacent a b
  | .hexAxial => HexAdjacent a b

theorem latticeAdjacent_comm {a b : Coord3} : LatticeAdjacent S a b ↔ LatticeAdjacent S b a := by
  unfold LatticeAdjacent
  cases S.lattice with
  | orthogonal => exact faceAdjacent_comm
  | hexAxial => exact hexAdjacent_comm

theorem latticeAdjacent_of_orthogonal (hl : S.lattice = .orthogonal) {a b : Coord3} :
    LatticeAdjacent S a b ↔ FaceAdjacent a b := by
  rw [LatticeAdjacent, hl]

theorem latticeAdjacent_of_hex (hl : S.lattice = .hexAxial) {a b : Coord3} :
    LatticeAdjacent S a b ↔ HexAdjacent a b := by
  rw [LatticeAdjacent, hl]

/-- The chunk index along an axis after a step up the axis. -/
theorem toNat_succ_div {p : ℤ} (hp : 0 ≤ p) {d : ℕ} :
    (p + 1).toNat / d = p.toNat / d + if d ∣ p.toNat + 1 then 1 else 0 := by
  rw [show (p + 1).toNat = p.toNat + 1 by omega, Nat.succ_div]

/-- A step up an axis leaves the chunk index or raises it by one. -/
theorem div_succ_cases {p : ℤ} (hp : 0 ≤ p) (d : ℕ) :
    (p + 1).toNat / d = p.toNat / d ∨ (p + 1).toNat / d = p.toNat / d + 1 := by
  rw [toNat_succ_div hp]
  split_ifs
  · exact Or.inr rfl
  · exact Or.inl rfl

/-- A step down an axis leaves the chunk index or lowers it by one. -/
theorem div_pred_cases {p : ℤ} (hp : 0 ≤ p - 1) (d : ℕ) :
    (p - 1).toNat / d = p.toNat / d ∨ (p - 1).toNat / d + 1 = p.toNat / d := by
  have h := div_succ_cases hp d
  rw [sub_add_cancel] at h
  omega

/-- **A regular step** stays in its chunk or enters an adjacent one. -/
theorem chunkCoord_of_latticeAdjacent {a b : Coord3} (ha : S.contains a = true)
    (hb : S.contains b = true) (h : LatticeAdjacent S a b) :
    S.chunkCoord a = S.chunkCoord b ∨ ChunkAdjacent S (S.chunkCoord a) (S.chunkCoord b) := by
  rw [Shape.contains_iff] at ha hb
  have hx := div_succ_cases ha.1.1 S.chunk.x
  have hy := div_succ_cases ha.2.1.1 S.chunk.y
  have hz := div_succ_cases ha.2.2.1 S.chunk.z
  unfold LatticeAdjacent at h
  unfold ChunkAdjacent
  simp only [Shape.chunkCoord, GridCoord3.mk.injEq]
  cases hl : S.lattice with
  | orthogonal =>
    simp only [hl] at h ⊢
    simp only [FaceAdjacent, gridDist, GridCoord3.toCoord]
    rcases faceAdjacent_iff.1 h with rfl | rfl | rfl | rfl | rfl | rfl <;> simp only at hb ⊢
    · rcases hx with e | e <;> simp [e]
    · rcases div_pred_cases hb.1.1 S.chunk.x with e | e <;> simp [← e]
    · rcases hy with e | e <;> simp [e]
    · rcases div_pred_cases hb.2.1.1 S.chunk.y with e | e <;> simp [← e]
    · rcases hz with e | e <;> simp [e]
    · rcases div_pred_cases hb.2.2.1 S.chunk.z with e | e <;> simp [← e]
  | hexAxial =>
    simp only [hl] at h ⊢
    simp only [HexAdjacent, hexDist, GridCoord3.toCoord]
    rcases hexAdjacent_iff.1 h with rfl | rfl | rfl | rfl | rfl | rfl <;> simp only at hb ⊢
    · rcases hx with e | e <;> simp [e]
    · rcases div_pred_cases hb.1.1 S.chunk.x with e | e <;> simp [← e]
    · rcases hy with e | e <;> simp [e]
    · rcases div_pred_cases hb.2.1.1 S.chunk.y with e | e <;> simp [← e]
    · rcases hx with e | e <;> rcases div_pred_cases hb.2.1.1 S.chunk.y with e' | e' <;>
        simp [e, ← e']
    · rcases hy with e | e <;> rcases div_pred_cases hb.1.1 S.chunk.x with e' | e' <;>
        simp [e, ← e']

end Tess
