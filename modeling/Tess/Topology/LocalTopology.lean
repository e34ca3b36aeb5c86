import Tess.Topology.ChunkNeighbors
import Tess.Storage.Dirty
import Tess.Lib.FloodFill

/-!
# The topology of one chunk

The passable tiles of a chunk fall into regions, the components of the steps that stay inside
the chunk.  `buildLocalChunkTopology` floods them with a stack, numbers them from one and lists
the steps that leave the chunk from each tile.

* `forEachLocalAxisNeighbor`, `boundaryFaces` : the steps that stay inside and those that leave;
* `mem_forEachLocalAxisNeighbor`, `mem_boundaryFaces` : **every lattice step of a tile** is one
  of the two;
* `buildLocalChunkTopology` : the build, which fails when a flood never ends; that happens only
  once the 32-bit region number wraps to the number of an unlabelled tile;
* `buildLocalChunkTopology_congr` : **the topology of a chunk depends on that chunk only**.
-/

namespace Tess

open Graphs

/-- The side through which a step leaves its chunk. -/
inductive BoundaryFace
  | negativeX
  | positiveX
  | negativeY
  | positiveY
  | negativeZ
  | positiveZ
  | positiveXNegativeY
  | negativeXPositiveY
  deriving DecidableEq, Repr

/-- Outcome of building the topology of one requested chunk. -/
inductive TopologyStatus
  | built
  | invalidChunk
  | missingChunk
  deriving DecidableEq, Repr

/-- Summary and bounds of one connected local region. -/
structure LocalRegion where
  /-- Number of the region within its chunk, from one. -/
  id : ℕ := 0
  /-- Number of tiles. -/
  tileCount : ℕ := 0
  /-- Least box that has the tiles. -/
  bounds : Box3 := {}
  /-- Number of boundary exits. -/
  boundaryExitCount : ℕ := 0
  deriving DecidableEq, Repr

/-- Passable boundary tile that points into an adjacent chunk. -/
structure LocalBoundaryExit where
  /-- Region of the tile. -/
  region : ℕ
  /-- Local identifier of the tile. -/
  localTile : ℕ
  /-- Coordinate of the tile. -/
  coord : Coord3
  /-- Side through which the step leaves. -/
  face : BoundaryFace
  /-- Chunk it leads to. -/
  targetChunk : ℕ
  deriving DecidableEq, Repr

/-- Counts and status returned by a local build or an incremental update. -/
structure TopologyBuildResult where
  /-- Whether the topology was built. -/
  status : TopologyStatus := .built
  /-- Number of regions. -/
  regionCount : ℕ := 0
  /-- Number of passable tiles. -/
  passableTileCount : ℕ := 0
  /-- Number of boundary exits. -/
  boundaryExitCount : ℕ := 0
  /-- Sum of the topology versions. -/
  topologyVersionSum : ℕ := 0
  deriving DecidableEq, Repr

/-- Connected-region labels and boundary exits of one chunk. -/
structure LocalChunkTopology where
  /-- Key of the chunk. -/
  chunk : ℕ := 0
  /-- Coordinate of the chunk. -/
  chunkCoord : GridCoord3 := ⟨0, 0, 0⟩
  /-- Version of the topology the labels were read at. -/
  topologyVersion : ℕ := 0
  /-- Region of each local tile; zero where no region is. -/
  regionIds : List ℕ := []
  /-- The regions in the order of their numbers. -/
  regions : List LocalRegion := []
  /-- The exits in the order of the floods. -/
  boundaryExits : List LocalBoundaryExit := []
  deriving DecidableEq, Repr

/-- `LocalChunkTopology::region_at`. -/
def LocalChunkTopology.regionAt (topology : LocalChunkTopology) (tile : ℕ) : ℕ :=
  topology.regionIds.getD tile 0

/-- `detail::neighbor_coord`. -/
def neighborCoord (c : Coord3) : BoundaryFace → Coord3
  | .negativeX => ⟨c.x - 1, c.y, c.z⟩
  | .positiveX => ⟨c.x + 1, c.y, c.z⟩
  | .negativeY => ⟨c.x, c.y - 1, c.z⟩
  | .positiveY => ⟨c.x, c.y + 1, c.z⟩
  | .negativeZ => ⟨c.x, c.y, c.z - 1⟩
  | .positiveZ => ⟨c.x, c.y, c.z + 1⟩
  | .positiveXNegativeY => ⟨c.x + 1, c.y - 1, c.z⟩
  | .negativeXPositiveY => ⟨c.x - 1, c.y + 1, c.z⟩

/-- `detail::include_coord_in_bounds`; its ends saturate as those of a dirty box do. -/
def includeCoordInBounds (region : LocalRegion) (c : Coord3) : Box3 :=
  if region.tileCount = 0 then ⟨c, ⟨1, 1, 1⟩⟩
  else
    .ofEnds (fun a => min (region.bounds.origin.get a) (c.get a))
      fun a => max (region.bounds.axisEnd a) (c.get a + 1)

section Geometry

variable (S : Shape)

/-- `detail::for_each_local_axis_neighbor`. -/
def forEachLocalAxisNeighbor (l : GridCoord3) : List GridCoord3 :=
  (if l.x + 1 < S.chunk.x then [⟨l.x + 1, l.y, l.z⟩] else []) ++
  (if l.x > 0 then [⟨l.x - 1, l.y, l.z⟩] else []) ++
  (if l.y + 1 < S.chunk.y then [⟨l.x, l.y + 1, l.z⟩] else []) ++
  (if l.y > 0 then [⟨l.x, l.y - 1, l.z⟩] else []) ++
  match S.lattice with
  | .hexAxial =>
    (if l.x + 1 < S.chunk.x ∧ l.y > 0 then [⟨l.x + 1, l.y - 1, 0⟩] else []) ++
    if l.x > 0 ∧ l.y + 1 < S.chunk.y then [⟨l.x - 1, l.y + 1, 0⟩] else []
  | .orthogonal =>
    (if l.z + 1 < S.chunk.z then [⟨l.x, l.y, l.z + 1⟩] else []) ++
    if l.z > 0 then [⟨l.x, l.y, l.z - 1⟩] else []

/-- The face an axial step leaves through. -/
def hexFace (c dest : Coord3) : BoundaryFace :=
  if dest.x > c.x ∧ dest.y < c.y then .positiveXNegativeY
  else if dest.x < c.x ∧ dest.y > c.y then .negativeXPositiveY
  else if dest.x > c.x then .positiveX
  else if dest.x < c.x then .negativeX
  else if dest.y > c.y then .positiveY
  else .negativeY

/-- `detail::add_boundary_exits`: the faces through which a step leaves the chunk from a tile,
with the chunks the steps lead to. -/
def boundaryFaces (chunkCoord l : GridCoord3) (c : Coord3) : List (BoundaryFace × GridCoord3) :=
  match S.lattice with
  | .hexAxial =>
    (forEachRegularCandidate S .defaultSteps c).filterMap fun candidate =>
      if S.chunkCoord candidate.dest = chunkCoord then none
      else some (hexFace c candidate.dest, S.chunkCoord candidate.dest)
  | .orthogonal =>
    (if l.x = 0 ∧ chunkCoord.x > 0 then
      [(.negativeX, ⟨chunkCoord.x - 1, chunkCoord.y, chunkCoord.z⟩)] else []) ++
    (if l.x + 1 = S.chunk.x ∧ chunkCoord.x + 1 < S.chunkGrid.x then
      [(.positiveX, ⟨chunkCoord.x + 1, chunkCoord.y, chunkCoord.z⟩)] else []) ++
    (if l.y = 0 ∧ chunkCoord.y > 0 then
      [(.negativeY, ⟨chunkCoord.x, chunkCoord.y - 1, chunkCoord.z⟩)] else []) ++
    (if l.y + 1 = S.chunk.y ∧ chunkCoord.y + 1 < S.chunkGrid.y then
      [(.positiveY, ⟨chunkCoord.x, chunkCoord.y + 1, chunkCoord.z⟩)] else []) ++
    (if l.z = 0 ∧ chunkCoord.z > 0 then
      [(.negativeZ, ⟨chunkCoord.x, chunkCoord.y, chunkCoord.z - 1⟩)] else []) ++
    if l.z + 1 = S.chunk.z ∧ chunkCoord.z + 1 < S.chunkGrid.z then
      [(.positiveZ, ⟨chunkCoord.x, chunkCoord.y, chunkCoord.z + 1⟩)] else []

end Geometry

/-! ### Steps inside the chunk and out of it -/

section Steps

variable {S : Shape}

/-- **The steps that stay inside** lead to the neighbours in the chunk. -/
theorem mem_forEachLocalAxisNeighbor {l l' : GridCoord3} (hl : S.chunk.Has l) :
    l' ∈ forEachLocalAxisNeighbor S l ↔
      S.chunk.Has l' ∧ LatticeAdjacent S l.toCoord l'.toCoord := by
  obtain ⟨h1, h2, h3, h4, h5, h6⟩ := Extent3.neighbor_directions (h := l') hl
  unfold forEachLocalAxisNeighbor LatticeAdjacent
  cases hlat : S.lattice with
  | orthogonal =>
    simp only [List.mem_append, mem_ite_singleton, faceAdjacent_iff, h1, h2, h3, h4, h5, h6]
    simp only [and_or_left, or_comm, or_left_comm]
  | hexAxial =>
    obtain ⟨h7, h8⟩ := Extent3.neighbor_seams (h := l') hl
    -- the chunk has one layer, which is where the source writes the third component as zero
    have hz : l.z = 0 := by
      have := (S.lattice_valid hlat).2
      have := hl.2.2
      omega
    rw [hz] at h7 h8
    simp only [List.mem_append, mem_ite_singleton, hexAdjacent_iff, h1, h2, h3, h4, h7, h8]
    simp only [and_or_left, or_comm, or_left_comm]

theorem neighborCoord_hexFace {a b : Coord3} (h : HexAdjacent a b) :
    neighborCoord a (hexFace a b) = b := by
  have hdown : ∀ v : ℤ, ¬ v < v - 1 := fun v => by omega
  rcases hexAdjacent_iff.1 h with rfl | rfl | rfl | rfl | rfl | rfl <;>
    simp [hexFace, neighborCoord, hdown]

theorem hexFace_neighborCoord {a : Coord3} {face : BoundaryFace}
    (h : HexAdjacent a (neighborCoord a face)) : hexFace a (neighborCoord a face) = face := by
  have hdown : ∀ v : ℤ, ¬ v < v - 1 := fun v => by omega
  have hz := h.2
  cases face <;> simp [hexFace, neighborCoord, hdown] at hz ⊢
  omega

/-- The chunk index along an axis after a step up from offset `r` of chunk `q`. -/
theorem cell_succ {d q r : ℕ} (hr : r < d) :
    (((q * d + r : ℕ) : ℤ) + 1).toNat / d = if r + 1 = d then q + 1 else q := by
  have hcast : (((q * d + r : ℕ) : ℤ) + 1).toNat = q * d + (r + 1) := by omega
  rw [hcast]
  split_ifs with h
  · rw [h, ← Nat.succ_mul, Nat.mul_div_cancel _ (by omega)]
  · rw [Nat.mul_comm, Nat.mul_add_div (by omega), Nat.div_eq_of_lt (by omega), Nat.add_zero]

/-- And after a step down. -/
theorem cell_pred {d q r : ℕ} (hr : r < d) :
    (((q * d + r : ℕ) : ℤ) - 1).toNat / d = if r = 0 then q - 1 else q := by
  split_ifs with h
  · subst h
    cases q with
    | zero => simp
    | succ q =>
      have hcast : ((((q + 1) * d + 0 : ℕ) : ℤ) - 1).toNat = q * d + (d - 1) := by
        have : (q + 1) * d = q * d + d := Nat.succ_mul q d
        omega
      rw [hcast, Nat.mul_comm, Nat.mul_add_div (by omega), Nat.div_eq_of_lt (by omega)]
      omega
  · have hcast : (((q * d + r : ℕ) : ℤ) - 1).toNat = q * d + (r - 1) := by omega
    rw [hcast, Nat.mul_comm, Nat.mul_add_div (by omega), Nat.div_eq_of_lt (by omega), Nat.add_zero]

/-- A cell lies in its axis. -/
theorem cell_self {d q r : ℕ} (hr : r < d) : ((q * d + r : ℕ) : ℤ).toNat / d = q := by
  rw [Int.toNat_natCast, Nat.mul_comm, Nat.mul_add_div (by omega), Nat.div_eq_of_lt hr,
    Nat.add_zero]

/-- A step up leaves the box when it leaves the last cell of the last chunk. -/
theorem cell_succ_lt {d n q r : ℕ} (hq : q < n) (hr : r < d) :
    (((q * d + r : ℕ) : ℤ) + 1 < ((n * d : ℕ) : ℤ)) ↔ ¬ (r + 1 = d ∧ q + 1 = n) := by
  have hstep : q * d + d ≤ n * d := by
    rw [← Nat.succ_mul]
    exact Nat.mul_le_mul_right _ hq
  constructor
  · rintro h ⟨h1, rfl⟩
    rw [Nat.succ_mul] at h
    omega
  · intro h
    by_cases h1 : r + 1 = d
    · have hq' : q + 2 ≤ n := by omega
      have hstep' : (q + 2) * d ≤ n * d := Nat.mul_le_mul_right _ hq'
      rw [Nat.add_mul] at hstep'
      omega
    · omega

/-- A step down leaves the box when it leaves the first cell of the first chunk. -/
theorem cell_pred_nonneg {d q r : ℕ} (hr : r < d) :
    0 ≤ ((q * d + r : ℕ) : ℤ) - 1 ↔ ¬ (r = 0 ∧ q = 0) := by
  rcases Nat.eq_zero_or_pos q with rfl | hq
  · rw [Nat.zero_mul, Nat.zero_add]
    omega
  · have hle : d ≤ q * d := Nat.le_mul_of_pos_left d hq
    generalize q * d = m at hle
    omega

/-- Which steps from a contained tile stay in the box. -/
theorem contains_neighborCoord {c : Coord3} (hc : S.contains c = true) (face : BoundaryFace) :
    S.contains (neighborCoord c face) = true ↔
      match face with
      | .negativeX => 0 ≤ c.x - 1
      | .positiveX => c.x + 1 < S.size.x
      | .negativeY => 0 ≤ c.y - 1
      | .positiveY => c.y + 1 < S.size.y
      | .negativeZ => 0 ≤ c.z - 1
      | .positiveZ => c.z + 1 < S.size.z
      | .positiveXNegativeY => c.x + 1 < S.size.x ∧ 0 ≤ c.y - 1
      | .negativeXPositiveY => 0 ≤ c.x - 1 ∧ c.y + 1 < S.size.y := by
  rw [Shape.contains_iff] at hc ⊢
  cases face <;> simp only [neighborCoord] <;> omega

/-- A step that leaves its chunk, in the words of the source and in those of the box. -/
theorem leaves_iff {P Q : Prop} [Decidable P] {u v g h : GridCoord3}
    (hv : v = if P then u else g) (hne : Q → u ≠ g) :
    (P ∧ Q) ∧ h = u ↔ ¬ (P ∧ ¬ Q) ∧ v = h ∧ h ≠ g := by
  subst hv
  constructor
  · rintro ⟨⟨hp, hq⟩, rfl⟩
    exact ⟨fun hno => hno.2 hq, if_pos hp, hne hq⟩
  · rintro ⟨hin, rfl, hout⟩
    by_cases hp : P
    · exact ⟨⟨hp, not_not.1 fun hq => hin ⟨hp, hq⟩⟩, if_pos hp⟩
    · exact absurd (if_neg hp) hout

/-- **The steps that leave** lead to the neighbours outside the chunk. -/
theorem mem_boundaryFaces {g h : GridCoord3} {id : ℕ} {face : BoundaryFace}
    (hg : S.chunkGrid.Has g) (hid : id < S.localTileCount) :
    (face, h) ∈ boundaryFaces S g (S.chunk.unrank id) (S.coordOf g id) ↔
      S.contains (neighborCoord (S.coordOf g id) face) = true ∧
        LatticeAdjacent S (S.coordOf g id) (neighborCoord (S.coordOf g id) face) ∧
        S.chunkCoord (neighborCoord (S.coordOf g id) face) = h ∧ h ≠ g := by
  have hc := Shape.contains_coordOf hg hid
  unfold boundaryFaces
  cases hl : S.lattice with
  | hexAxial =>
    simp only [latticeAdjacent_of_hex hl, List.mem_filterMap]
    have hz : (S.coordOf g id).z = 0 := by
      have hsize := (S.lattice_valid hl).1
      have := (Shape.contains_iff.1 hc).2.2
      omega
    have hmem : ∀ candidate, candidate ∈ forEachRegularCandidate S .defaultSteps (S.coordOf g id) ↔
        S.contains candidate.dest = true ∧ HexAdjacent (S.coordOf g id) candidate.dest ∧
          candidate = { dest := candidate.dest, multiplier := 1 } := by
      intro candidate
      simp only [forEachRegularCandidate, hc, hl, Bool.not_true, Bool.false_eq_true, if_false]
      rw [mem_forEachHexCandidate, and_iff_right hz]
    constructor
    · rintro ⟨candidate, hcand, hface⟩
      obtain ⟨hin, hadj, -⟩ := (hmem candidate).1 hcand
      split_ifs at hface with hown
      simp only [Option.some.injEq, Prod.mk.injEq] at hface
      obtain ⟨rfl, rfl⟩ := hface
      rw [neighborCoord_hexFace hadj]
      exact ⟨hin, hadj, rfl, hown⟩
    · rintro ⟨hin, hadj, rfl, hne⟩
      refine ⟨{ dest := neighborCoord (S.coordOf g id) face, multiplier := 1 },
        (hmem _).2 ⟨hin, hadj, rfl⟩, ?_⟩
      rw [if_neg hne, hexFace_neighborCoord hadj]
  | orthogonal =>
    obtain ⟨lx, ly, lz⟩ := Extent3.has_unrank hid
    obtain ⟨gx, gy, gz⟩ := S.chunkGrid_mul
    rw [latticeAdjacent_of_orthogonal hl, contains_neighborCoord hc, ← gx, ← gy, ← gz]
    simp only [Shape.coordOf, Shape.chunkCoord, List.mem_append, mem_ite_singleton, Prod.mk.injEq]
    obtain ⟨hx, hy, hz⟩ := hg
    have hadj {c : Coord3} {face : BoundaryFace} (h1 : face ≠ .positiveXNegativeY)
        (h2 : face ≠ .negativeXPositiveY) : FaceAdjacent c (neighborCoord c face) := by
      cases face <;> simp [FaceAdjacent, gridDist, neighborCoord] at h1 h2 ⊢
    have hdown {p : Prop} {n : ℕ} : ¬ (p ∧ n = 0) ↔ ¬ (p ∧ ¬ n > 0) := by
      rw [gt_iff_lt, Nat.pos_iff_ne_zero, not_not]
    have hup {p : Prop} {n m : ℕ} (h : n < m) : ¬ (p ∧ n + 1 = m) ↔ ¬ (p ∧ ¬ n + 1 < m) := by
      rw [show n + 1 = m ↔ ¬ n + 1 < m by omega]
    generalize S.chunk.unrank id = l at *
    cases face with
    | negativeX =>
      have hleave := leaves_iff (h := h) (P := l.x = 0) (Q := g.x > 0)
        (u := ⟨g.x - 1, g.y, g.z⟩) (v := ⟨if l.x = 0 then g.x - 1 else g.x, g.y, g.z⟩) (g := g)
        (by split_ifs <;> rfl) (fun hq e => by rw [GridCoord3.ext_iff] at e; simp only at e; omega)
      rw [and_iff_right (hadj (by decide) (by decide)), cell_pred_nonneg lx, hdown]
      simp only [neighborCoord, cell_pred lx, cell_self ly, cell_self lz, reduceCtorEq,
        false_and, and_false, or_false, true_and]
      exact hleave
    | positiveX =>
      have hleave := leaves_iff (h := h) (P := l.x + 1 = S.chunk.x) (Q := g.x + 1 < S.chunkGrid.x)
        (u := ⟨g.x + 1, g.y, g.z⟩) (v := ⟨if l.x + 1 = S.chunk.x then g.x + 1 else g.x, g.y, g.z⟩) (g := g)
        (by split_ifs <;> rfl) (fun hq e => by rw [GridCoord3.ext_iff] at e; simp only at e; omega)
      rw [and_iff_right (hadj (by decide) (by decide)), cell_succ_lt hx lx, hup hx]
      simp only [neighborCoord, cell_succ lx, cell_self ly, cell_self lz, reduceCtorEq,
        false_and, and_false, or_false, false_or, true_and]
      exact hleave
    | negativeY =>
      have hleave := leaves_iff (h := h) (P := l.y = 0) (Q := g.y > 0)
        (u := ⟨g.x, g.y - 1, g.z⟩) (v := ⟨g.x, if l.y = 0 then g.y - 1 else g.y, g.z⟩) (g := g)
        (by split_ifs <;> rfl) (fun hq e => by rw [GridCoord3.ext_iff] at e; simp only at e; omega)
      rw [and_iff_right (hadj (by decide) (by decide)), cell_pred_nonneg ly, hdown]
      simp only [neighborCoord, cell_pred ly, cell_self lx, cell_self lz, reduceCtorEq,
        false_and, and_false, or_false, false_or, true_and]
      exact hleave
    | positiveY =>
      have hleave := leaves_iff (h := h) (P := l.y + 1 = S.chunk.y) (Q := g.y + 1 < S.chunkGrid.y)
        (u := ⟨g.x, g.y + 1, g.z⟩) (v := ⟨g.x, if l.y + 1 = S.chunk.y then g.y + 1 else g.y, g.z⟩) (g := g)
        (by split_ifs <;> rfl) (fun hq e => by rw [GridCoord3.ext_iff] at e; simp only at e; omega)
      rw [and_iff_right (hadj (by decide) (by decide)), cell_succ_lt hy ly, hup hy]
      simp only [neighborCoord, cell_succ ly, cell_self lx, cell_self lz, reduceCtorEq,
        false_and, and_false, or_false, false_or, true_and]
      exact hleave
    | negativeZ =>
      have hleave := leaves_iff (h := h) (P := l.z = 0) (Q := g.z > 0)
        (u := ⟨g.x, g.y, g.z - 1⟩) (v := ⟨g.x, g.y, if l.z = 0 then g.z - 1 else g.z⟩) (g := g)
        (by split_ifs <;> rfl) (fun hq e => by rw [GridCoord3.ext_iff] at e; simp only at e; omega)
      rw [and_iff_right (hadj (by decide) (by decide)), cell_pred_nonneg lz, hdown]
      simp only [neighborCoord, cell_pred lz, cell_self lx, cell_self ly, reduceCtorEq,
        false_and, and_false, or_false, false_or, true_and]
      exact hleave
    | positiveZ =>
      have hleave := leaves_iff (h := h) (P := l.z + 1 = S.chunk.z) (Q := g.z + 1 < S.chunkGrid.z)
        (u := ⟨g.x, g.y, g.z + 1⟩) (v := ⟨g.x, g.y, if l.z + 1 = S.chunk.z then g.z + 1 else g.z⟩) (g := g)
        (by split_ifs <;> rfl) (fun hq e => by rw [GridCoord3.ext_iff] at e; simp only at e; omega)
      rw [and_iff_right (hadj (by decide) (by decide)), cell_succ_lt hz lz, hup hz]
      simp only [neighborCoord, cell_succ lz, cell_self lx, cell_self ly, reduceCtorEq,
        false_and, and_false, or_false, false_or, true_and]
      exact hleave
    | positiveXNegativeY => simp [neighborCoord, FaceAdjacent, gridDist]
    | negativeXPositiveY => simp [neighborCoord, FaceAdjacent, gridDist]

end Steps

/-! ### The build -/

/-- The mutable locals of a local build. -/
structure TopologyDraft where
  /-- Regions opened so far. -/
  regions : List LocalRegion := []
  /-- Exits found so far. -/
  boundaryExits : List LocalBoundaryExit := []
  /-- Tiles labelled so far. -/
  passableTiles : ℕ := 0

section Build

variable {S : Shape} {Tag : Type*} (cls : MovementClass S Tag)

/-- `tile_passable` on the page of the chunk; a class with a passable span reads it from there. -/
def tilePassable (page : ChunkPage Tag) (id : ℕ) : Bool :=
  decide (id < S.localTileCount) && cls.passable page id

/-- The passable tiles one step away inside the chunk. -/
def localNeighbors (page : ChunkPage Tag) (id : ℕ) : List ℕ :=
  ((forEachLocalAxisNeighbor S (S.chunk.unrank id)).map S.localTileId).filter
    (tilePassable cls page)

/-- The 32-bit number of the next region. -/
def TopologyDraft.nextRegionId (draft : TopologyDraft) : ℕ := (draft.regions.length + 1) % 2 ^ 32

/-- Append the next region. -/
def TopologyDraft.openRegion (draft : TopologyDraft) : TopologyDraft :=
  { draft with regions := draft.regions ++ [{ id := draft.nextRegionId }] }

variable (S) in
/-- One round of the flood loop: the tile that was popped joins the region at the back, whose
number is `regionId`. -/
def TopologyDraft.visitTile (chunkCoord : GridCoord3) (regionId : ℕ) (draft : TopologyDraft)
    (tile : ℕ) : TopologyDraft :=
  let c := S.coordOf chunkCoord tile
  let exits : List LocalBoundaryExit :=
    (boundaryFaces S chunkCoord (S.chunk.unrank tile) c).map fun f =>
      ⟨regionId, tile, c, f.1, S.chunkKey f.2⟩
  { regions := draft.regions.modifyLast fun region =>
      { region with
        tileCount := region.tileCount + 1
        bounds := includeCoordInBounds region c
        boundaryExitCount := region.boundaryExitCount + exits.length }
    boundaryExits := draft.boundaryExits ++ exits
    passableTiles := draft.passableTiles + 1 }

/-- The floods of a chunk; none when one of them never ends. -/
def floodChunk (page : ChunkPage Tag) (chunkCoord : GridCoord3) :
    Option ((ℕ → ℕ) × TopologyDraft) :=
  labelComponents (localNeighbors cls page) (tilePassable cls page) TopologyDraft.nextRegionId
    TopologyDraft.openRegion (TopologyDraft.visitTile S chunkCoord) S.localTileCount
    (List.range S.localTileCount) (fun _ => 0) {}

/-- The exit is a step out of the chunk, to the chunk that it names. -/
structure IsExit (S : Shape) (g : GridCoord3) (exit : LocalBoundaryExit) : Prop where
  /-- Its tile is a tile of the chunk. -/
  tile_lt : exit.localTile < S.localTileCount
  /-- Its coordinate is that of the tile. -/
  coord_eq : exit.coord = S.coordOf g exit.localTile
  /-- Its face leaves the chunk. -/
  leaves : ∃ h, (exit.face, h) ∈ boundaryFaces S g (S.chunk.unrank exit.localTile) exit.coord ∧
    exit.targetChunk = S.chunkKey h

/-- What an exit leads to. -/
theorem IsExit.spec {g : GridCoord3} {exit : LocalBoundaryExit} (hg : S.chunkGrid.Has g)
    (h : IsExit S g exit) :
    S.contains exit.coord = true ∧ S.chunkCoord exit.coord = g ∧
      S.contains (neighborCoord exit.coord exit.face) = true ∧
      LatticeAdjacent S exit.coord (neighborCoord exit.coord exit.face) ∧
      S.chunkCoord (neighborCoord exit.coord exit.face) ≠ g ∧
      exit.targetChunk = S.chunkKey (S.chunkCoord (neighborCoord exit.coord exit.face)) := by
  obtain ⟨hid, hc, target, hface, ht⟩ := h
  rw [hc] at hface ⊢
  obtain ⟨hin, hadj, rfl, hne⟩ := (mem_boundaryFaces hg hid).1 hface
  exact ⟨Shape.contains_coordOf hg hid, Shape.chunkCoord_coordOf hid, hin, hadj, hne, ht⟩

/-- An exit leads to a neighbour of its chunk. -/
theorem IsExit.mem_neighbors {g : GridCoord3} {exit : LocalBoundaryExit} (hg : S.chunkGrid.Has g)
    (h : IsExit S g exit) :
    S.chunkCoord (neighborCoord exit.coord exit.face) ∈ forEachFaceNeighborChunk S g := by
  obtain ⟨hc, hown, hin, hadj, hne, -⟩ := h.spec hg
  rw [mem_forEachFaceNeighborChunk hg]
  refine ⟨Shape.has_chunkCoord hin, ?_⟩
  rcases chunkCoord_of_latticeAdjacent hc hin hadj with he | he
  · exact absurd (he ▸ hown) hne
  · rwa [hown] at he

variable {cls} in
theorem tilePassable_lt {page : ChunkPage Tag} {id : ℕ} (h : tilePassable cls page id = true) :
    id < S.localTileCount := by
  rw [tilePassable, Bool.and_eq_true, decide_eq_true_eq] at h
  exact h.1

variable {cls} in
/-- **Every exit that a build lists** is a step out of the chunk. -/
theorem isExit_of_floodChunk {page : ChunkPage Tag} {g : GridCoord3} {labels : ℕ → ℕ}
    {draft : TopologyDraft} (h : floodChunk cls page g = some (labels, draft)) :
    ∀ exit ∈ draft.boundaryExits, IsExit S g exit := by
  have hopened (d : TopologyDraft) (hd : ∀ exit ∈ d.boundaryExits, IsExit S g exit) :
      ∀ exit ∈ d.openRegion.boundaryExits, IsExit S g exit := hd
  have hvisit (label : ℕ) (d : TopologyDraft) (a : ℕ) (ha : a < S.localTileCount)
      (hd : ∀ exit ∈ d.boundaryExits, IsExit S g exit) :
      ∀ exit ∈ (d.visitTile S g label a).boundaryExits, IsExit S g exit := by
    intro exit he
    rcases List.mem_append.1 he with he | he
    · exact hd exit he
    · obtain ⟨⟨face, target⟩, hf, rfl⟩ := List.mem_map.1 he
      exact ⟨ha, rfl, target, hf, rfl⟩
  exact labelComponents_keeps
    (fun a _ b hb => tilePassable_lt (List.mem_filter.1 hb).2) hopened hvisit
    (fun a ha => List.mem_range.1 ha) (fun _ he => absurd he List.not_mem_nil) h

variable (W : World S Tag)

/-- `build_local_chunk_topology`. -/
def buildLocalChunkTopology (chunk : ℕ) : Option (TopologyBuildResult × LocalChunkTopology) :=
  if chunk ≥ S.chunkCount then some ({ status := .invalidChunk }, {})
  else match W.tryChunk chunk with
    | none => some ({ status := .missingChunk }, {})
    | some page =>
      let chunkCoord := S.chunkGrid.unrank chunk
      (floodChunk cls page chunkCoord).map fun (labels, draft) =>
        ({ regionCount := draft.regions.length
           passableTileCount := draft.passableTiles
           boundaryExitCount := draft.boundaryExits.length
           topologyVersionSum := W.topologyVersion chunk },
          { chunk := chunk
            chunkCoord := chunkCoord
            topologyVersion := W.topologyVersion chunk
            regionIds := (List.range S.localTileCount).map labels
            regions := draft.regions
            boundaryExits := draft.boundaryExits })

variable {cls W}

/-- **The topology of a chunk depends on that chunk only**: on its page and its version. -/
theorem buildLocalChunkTopology_congr {W' : World S Tag} {chunk : ℕ}
    (hpage : W'.tryChunk chunk = W.tryChunk chunk)
    (hversion : W'.topologyVersion chunk = W.topologyVersion chunk) :
    buildLocalChunkTopology cls W' chunk = buildLocalChunkTopology cls W chunk := by
  unfold buildLocalChunkTopology
  rw [hpage, hversion]

/-- The version that a build reports is the one that it records. -/
theorem topologyVersionSum_eq {chunk : ℕ} {r : TopologyBuildResult × LocalChunkTopology}
    (h : buildLocalChunkTopology cls W chunk = some r) :
    r.1.topologyVersionSum = r.2.topologyVersion := by
  unfold buildLocalChunkTopology at h
  split at h
  · rw [Option.some.injEq] at h
    rw [← h]
  · cases hp : W.tryChunk chunk with
    | none =>
      simp only [hp, Option.some.injEq] at h
      rw [← h]
    | some page =>
      simp only [hp] at h
      obtain ⟨labels, -, rfl⟩ := Option.map_eq_some_iff.1 h
      rfl

/-- What a build of a present chunk returns. -/
theorem buildLocalChunkTopology_of_page {chunk : ℕ} (hchunk : chunk < S.chunkCount)
    {page : ChunkPage Tag} (hpage : W.tryChunk chunk = some page)
    {r : TopologyBuildResult × LocalChunkTopology}
    (h : buildLocalChunkTopology cls W chunk = some r) :
    r.1.status = .built ∧ r.2.chunk = chunk ∧ r.2.chunkCoord = S.chunkGrid.unrank chunk ∧
      r.2.topologyVersion = W.topologyVersion chunk ∧
      ∃ labels draft, floodChunk cls page (S.chunkGrid.unrank chunk) = some (labels, draft) ∧
        r.2.regionIds = (List.range S.localTileCount).map labels ∧
        r.2.regions = draft.regions ∧ r.2.boundaryExits = draft.boundaryExits := by
  unfold buildLocalChunkTopology at h
  rw [if_neg (by omega), hpage] at h
  obtain ⟨⟨labels, draft⟩, hf, rfl⟩ := Option.map_eq_some_iff.1 h
  exact ⟨rfl, rfl, rfl, rfl, labels, draft, hf, rfl, rfl, rfl⟩

end Build

end Tess
