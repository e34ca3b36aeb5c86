import Mathlib.Data.Nat.Size
import Mathlib.Data.Finset.Image
import Mathlib.Data.Fintype.Prod
import Mathlib.Order.Interval.Finset.Nat
import Mathlib.Tactic.Ring
import Mathlib.Tactic.SplitIfs

/-!
# Finite world shapes and tile indices

A `Shape` fixes the size of a world, its power-of-two chunk geometry and its lattice; the
static assertions of the source are the proof fields of the structure, so that an
inadmissible shape cannot be built.

* `Shape.contains` : the half-open box of the world;
* `Shape.tileKey` : the packed key of a tile, chunk key above local tile id;
* `Shape.coord_tileKey` and `Shape.tileKey_coord` : **the key is a bijection** between the
  contained coordinates and the numbers below `Shape.tileCount`;
* `Shape.card_tiles` : the world has `tileCount` tiles.
-/

namespace Tess

/-- One of the three coordinate axes. -/
inductive Axis
  | x
  | y
  | z
  deriving DecidableEq, Repr

/-- Canonical signed coordinate used by all world-space functions. -/
@[ext]
structure Coord3 where
  /-- First component. -/
  x : ℤ
  /-- Second component. -/
  y : ℤ
  /-- Third component. -/
  z : ℤ
  deriving DecidableEq, Repr

/-- Unsigned three-axis size used for worlds and chunks. -/
@[ext]
structure Extent3 where
  /-- Size along the first axis. -/
  x : ℕ
  /-- Size along the second axis. -/
  y : ℕ
  /-- Size along the third axis. -/
  z : ℕ
  deriving DecidableEq, Repr

/-- Unsigned coordinate of a chunk within a shape, or of a tile within a chunk. -/
@[ext]
structure GridCoord3 where
  /-- First component. -/
  x : ℕ
  /-- Second component. -/
  y : ℕ
  /-- Third component. -/
  z : ℕ
  deriving DecidableEq, Repr

namespace Coord3

/-- The component along an axis; a pointer to a member of the source. -/
def get (c : Coord3) : Axis → ℤ
  | .x => c.x
  | .y => c.y
  | .z => c.z

/-- Overwrite the component along an axis. -/
def set (c : Coord3) (a : Axis) (v : ℤ) : Coord3 :=
  match a with
  | .x => { c with x := v }
  | .y => { c with y := v }
  | .z => { c with z := v }

@[simp] theorem get_set (c : Coord3) (a b : Axis) (v : ℤ) :
    (c.set a v).get b = if b = a then v else c.get b := by
  cases a <;> cases b <;> simp [get, set]

theorem ext_get {c d : Coord3} (h : ∀ a, c.get a = d.get a) : c = d :=
  Coord3.ext (h .x) (h .y) (h .z)

@[simp] theorem set_get (c : Coord3) (a : Axis) : c.set a (c.get a) = c := by
  cases a <;> rfl

@[simp] theorem set_set (c : Coord3) (a : Axis) (v w : ℤ) :
    (c.set a v).set a w = c.set a w := by
  cases a <;> rfl

end Coord3

namespace Extent3

/-- The size along an axis. -/
def get (e : Extent3) : Axis → ℕ
  | .x => e.x
  | .y => e.y
  | .z => e.z

/-- `detail::is_valid_extent`: no axis is empty. -/
def IsValid (e : Extent3) : Prop := 0 < e.x ∧ 0 < e.y ∧ 0 < e.z

instance (e : Extent3) : Decidable e.IsValid := inferInstanceAs (Decidable (_ ∧ _))

/-- `detail::product`: the number of cells of the extent. -/
def product (e : Extent3) : ℕ := e.x * e.y * e.z

theorem product_pos {e : Extent3} (h : e.IsValid) : 0 < e.product :=
  Nat.mul_pos (Nat.mul_pos h.1 h.2.1) h.2.2

/-- Row-major rank of a cell in a grid of this extent. -/
def rank (e : Extent3) (c : GridCoord3) : ℕ := c.x + c.y * e.x + c.z * e.x * e.y

/-- Cell of a row-major rank. -/
def unrank (e : Extent3) (n : ℕ) : GridCoord3 :=
  ⟨n % (e.x * e.y) % e.x, n % (e.x * e.y) / e.x, n / (e.x * e.y)⟩

/-- The cell lies in the grid. -/
def Has (e : Extent3) (c : GridCoord3) : Prop := c.x < e.x ∧ c.y < e.y ∧ c.z < e.z

theorem rank_lt {e : Extent3} {c : GridCoord3} (h : e.Has c) : e.rank c < e.product := by
  obtain ⟨hx, hy, hz⟩ := h
  have h1 : c.x + c.y * e.x < e.x * e.y := by
    calc c.x + c.y * e.x < e.x + c.y * e.x := by omega
      _ = e.x * (c.y + 1) := by ring
      _ ≤ e.x * e.y := Nat.mul_le_mul_left _ hy
  calc e.rank c = c.x + c.y * e.x + c.z * (e.x * e.y) := by unfold rank; ring
    _ < e.x * e.y + c.z * (e.x * e.y) := by omega
    _ = e.x * e.y * (c.z + 1) := by ring
    _ ≤ e.x * e.y * e.z := Nat.mul_le_mul_left _ hz

theorem unrank_rank {e : Extent3} {c : GridCoord3} (h : e.Has c) :
    e.unrank (e.rank c) = c := by
  obtain ⟨hx, hy, hz⟩ := h
  have h1 : c.x + c.y * e.x < e.x * e.y := by
    calc c.x + c.y * e.x < e.x + c.y * e.x := by omega
      _ = e.x * (c.y + 1) := by ring
      _ ≤ e.x * e.y := Nat.mul_le_mul_left _ hy
  have h2 : e.rank c = c.x + c.y * e.x + e.x * e.y * c.z := by unfold rank; ring
  have hp : 0 < e.x * e.y := by omega
  have hr : e.rank c % (e.x * e.y) = c.x + c.y * e.x := by
    rw [h2, Nat.add_mul_mod_self_left, Nat.mod_eq_of_lt h1]
  have hq : e.rank c / (e.x * e.y) = c.z := by
    rw [h2, Nat.add_mul_div_left _ _ hp, Nat.div_eq_of_lt h1, zero_add]
  have hp' : 0 < e.x := by omega
  ext
  · simp only [unrank, hr]
    rw [Nat.mul_comm c.y, Nat.add_mul_mod_self_left, Nat.mod_eq_of_lt hx]
  · simp only [unrank, hr]
    rw [Nat.mul_comm c.y, Nat.add_mul_div_left _ _ hp', Nat.div_eq_of_lt hx, zero_add]
  · simp only [unrank, hq]

theorem has_unrank {e : Extent3} {n : ℕ} (h : n < e.product) : e.Has (e.unrank n) := by
  have hx : 0 < e.x := by
    by_contra h0
    simp [product, show e.x = 0 by omega] at h
  have hy : 0 < e.y := by
    by_contra h0
    simp [product, show e.y = 0 by omega] at h
  refine ⟨Nat.mod_lt _ hx, ?_, ?_⟩
  · exact Nat.div_lt_of_lt_mul (Nat.mod_lt _ (Nat.mul_pos hx hy))
  · exact Nat.div_lt_of_lt_mul h

theorem rank_unrank {e : Extent3} (n : ℕ) : e.rank (e.unrank n) = n := by
  have h1 := Nat.mod_add_div (n % (e.x * e.y)) e.x
  have h2 := Nat.mod_add_div n (e.x * e.y)
  have h3 : e.rank (e.unrank n) =
      n % (e.x * e.y) % e.x + e.x * (n % (e.x * e.y) / e.x) + e.x * e.y * (n / (e.x * e.y)) := by
    simp only [rank, unrank]; ring
  rw [h3, h1, h2]

end Extent3

/-- The lattice tag of a shape. -/
inductive Lattice
  | orthogonal
  | hexAxial
  deriving DecidableEq, Repr

/-- `detail::is_power_of_two`. -/
def isPowerOfTwo (value : ℕ) : Bool := value != 0 && (value &&& (value - 1)) == 0

theorem isPowerOfTwo_iff {value : ℕ} : isPowerOfTwo value = true ↔ ∃ k, value = 2 ^ k := by
  have h := Nat.ne_zero_and_sub_one_eq_zero_iff_isPowerOfTwo (n := value)
  simp only [isPowerOfTwo, Bool.and_eq_true, bne_iff_ne, ne_eq, beq_iff_eq]
  exact h

/-- `detail::bits_for_count`: bits that number `count` things. -/
def bitsForCount (count : ℕ) : ℕ := if count ≤ 1 then 0 else Nat.size (count - 1)

theorem le_two_pow_bitsForCount (count : ℕ) : count ≤ 2 ^ bitsForCount count := by
  unfold bitsForCount
  split_ifs with h
  · simpa using h
  · have := Nat.lt_size_self (count - 1)
    omega

theorem bitsForCount_two_pow (k : ℕ) : bitsForCount (2 ^ k) = k := by
  unfold bitsForCount
  cases k with
  | zero => simp
  | succ k =>
    have h1 : 1 < 2 ^ (k + 1) := Nat.one_lt_two_pow (by omega)
    rw [if_neg (by omega)]
    apply le_antisymm
    · rw [Nat.size_le]; omega
    · rw [Nat.succ_le_iff, Nat.lt_size]
      have h2 : 2 ^ (k + 1) = 2 * 2 ^ k := by ring
      have h3 : 0 < 2 ^ k := Nat.two_pow_pos k
      omega

/-- Compile-time finite world shape and power-of-two chunk geometry. -/
structure Shape where
  /-- Tiles along each axis. -/
  size : Extent3
  /-- Tiles of one chunk along each axis. -/
  chunk : Extent3
  /-- Lattice of the tiles. -/
  lattice : Lattice
  /-- Shape size dimensions must be greater than zero. -/
  size_valid : size.IsValid
  /-- Shape chunk dimensions must be powers of two. -/
  chunk_pow : isPowerOfTwo chunk.x = true ∧ isPowerOfTwo chunk.y = true ∧
    isPowerOfTwo chunk.z = true
  /-- Shape size dimensions must be multiples of chunk dimensions. -/
  divisible : size.x % chunk.x = 0 ∧ size.y % chunk.y = 0 ∧ size.z % chunk.z = 0
  /-- A hex lattice occupies one plane. -/
  lattice_valid : lattice = .hexAxial → size.z = 1 ∧ chunk.z = 1
  /-- Shape chunk count must fit 64 bits. -/
  chunk_count_fits : size.x / chunk.x * (size.y / chunk.y) * (size.z / chunk.z) < 2 ^ 64
  /-- Shape local tile count must fit 64 bits. -/
  local_count_fits : chunk.x * chunk.y * chunk.z < 2 ^ 64
  /-- Shape size axes must fit a signed 64-bit coordinate. -/
  axis_fits : size.x < 2 ^ 63 ∧ size.y < 2 ^ 63 ∧ size.z < 2 ^ 63

namespace Shape

variable (S : Shape)

/-- Chunks along each axis. -/
def chunkGrid : Extent3 :=
  ⟨S.size.x / S.chunk.x, S.size.y / S.chunk.y, S.size.z / S.chunk.z⟩

/-- Number of chunks of the world. -/
def chunkCount : ℕ := S.chunkGrid.product

/-- Number of tiles of one chunk. -/
def localTileCount : ℕ := S.chunk.product

/-- Number of tiles of the world. -/
def tileCount : ℕ := S.chunkCount * S.localTileCount

/-- Bits of a local tile id. -/
def localBits : ℕ := bitsForCount S.localTileCount

/-- Bits of a chunk key. -/
def chunkBits : ℕ := bitsForCount S.chunkCount

/-- Bits of a tile key. -/
def tileKeyBits : ℕ := S.localBits + S.chunkBits

/-- The axis has a single layer. -/
def degenerate (a : Axis) : Bool := S.size.get a == 1

/-- `detail::axis_contains` with the origin of the world box. -/
def axisContains (extent : ℕ) (coord : ℤ) : Bool :=
  if coord < 0 then false else decide (coord.toNat < extent)

/-- Whether a coordinate lies within the shape. -/
def contains (c : Coord3) : Bool :=
  axisContains S.size.x c.x && axisContains S.size.y c.y && axisContains S.size.z c.z

/-- Owning chunk of a contained coordinate. -/
def chunkCoord (c : Coord3) : GridCoord3 :=
  ⟨c.x.toNat / S.chunk.x, c.y.toNat / S.chunk.y, c.z.toNat / S.chunk.z⟩

/-- Coordinate of a contained tile within its chunk. -/
def localCoord (c : Coord3) : GridCoord3 :=
  ⟨c.x.toNat % S.chunk.x, c.y.toNat % S.chunk.y, c.z.toNat % S.chunk.z⟩

/-- Linear identifier of a local coordinate. -/
def localTileId (c : GridCoord3) : ℕ := S.chunk.rank c

/-- Linear identifier of a chunk coordinate. -/
def chunkKey (c : GridCoord3) : ℕ := S.chunkGrid.rank c

/-- Packed key of a contained tile. -/
def tileKey (c : Coord3) : ℕ :=
  if S.chunkBits = 0 then S.localTileId (S.localCoord c)
  else (S.chunkKey (S.chunkCoord c) <<< S.localBits) ||| S.localTileId (S.localCoord c)

/-- Owning chunk of a packed tile key. -/
def keyChunk (key : ℕ) : ℕ := if S.chunkBits = 0 then 0 else key >>> S.localBits

/-- Chunk-local tile identifier of a packed tile key. -/
def keyLocal (key : ℕ) : ℕ := key &&& (2 ^ S.localBits - 1)

/-- World coordinate of a chunk coordinate and a local identifier. -/
def coordOf (chunk : GridCoord3) (id : ℕ) : Coord3 :=
  let l := S.chunk.unrank id
  ⟨(chunk.x * S.chunk.x + l.x : ℕ), (chunk.y * S.chunk.y + l.y : ℕ),
    (chunk.z * S.chunk.z + l.z : ℕ)⟩

/-- World coordinate of a packed tile key. -/
def coord (key : ℕ) : Coord3 := S.coordOf (S.chunkGrid.unrank (S.keyChunk key)) (S.keyLocal key)

variable {S}

/-! ### Counting -/

theorem chunk_valid : S.chunk.IsValid := by
  obtain ⟨hx, hy, hz⟩ := S.chunk_pow
  obtain ⟨_, hx⟩ := isPowerOfTwo_iff.1 hx
  obtain ⟨_, hy⟩ := isPowerOfTwo_iff.1 hy
  obtain ⟨_, hz⟩ := isPowerOfTwo_iff.1 hz
  exact ⟨hx ▸ Nat.two_pow_pos _, hy ▸ Nat.two_pow_pos _, hz ▸ Nat.two_pow_pos _⟩

theorem chunkGrid_mul :
    S.chunkGrid.x * S.chunk.x = S.size.x ∧ S.chunkGrid.y * S.chunk.y = S.size.y ∧
      S.chunkGrid.z * S.chunk.z = S.size.z := by
  obtain ⟨hx, hy, hz⟩ := S.divisible
  exact ⟨Nat.div_mul_cancel (Nat.dvd_of_mod_eq_zero hx),
    Nat.div_mul_cancel (Nat.dvd_of_mod_eq_zero hy),
    Nat.div_mul_cancel (Nat.dvd_of_mod_eq_zero hz)⟩

theorem chunkGrid_valid : S.chunkGrid.IsValid := by
  obtain ⟨gx, gy, gz⟩ := S.chunkGrid_mul
  obtain ⟨hx, hy, hz⟩ := S.size_valid
  refine ⟨?_, ?_, ?_⟩ <;> refine Nat.pos_of_ne_zero fun h => ?_
  · rw [h, Nat.zero_mul] at gx; omega
  · rw [h, Nat.zero_mul] at gy; omega
  · rw [h, Nat.zero_mul] at gz; omega

theorem localTileCount_pos : 0 < S.localTileCount := Extent3.product_pos S.chunk_valid

theorem chunkCount_pos : 0 < S.chunkCount := Extent3.product_pos S.chunkGrid_valid

theorem localTileCount_eq_two_pow : S.localTileCount = 2 ^ S.localBits := by
  obtain ⟨hx, hy, hz⟩ := S.chunk_pow
  obtain ⟨i, hx⟩ := isPowerOfTwo_iff.1 hx
  obtain ⟨j, hy⟩ := isPowerOfTwo_iff.1 hy
  obtain ⟨k, hz⟩ := isPowerOfTwo_iff.1 hz
  have h : S.localTileCount = 2 ^ (i + j + k) := by
    simp only [localTileCount, Extent3.product, hx, hy, hz]; ring
  rw [localBits, h, bitsForCount_two_pow]

theorem chunkCount_eq_one_of_chunkBits (h : S.chunkBits = 0) : S.chunkCount = 1 := by
  have h1 := le_two_pow_bitsForCount S.chunkCount
  have h2 := S.chunkCount_pos
  unfold chunkBits at h
  rw [h] at h1
  omega

theorem tileCount_le_two_pow : S.tileCount ≤ 2 ^ S.tileKeyBits := by
  rw [tileCount, tileKeyBits, Nat.pow_add, Nat.mul_comm, ← localTileCount_eq_two_pow]
  exact Nat.mul_le_mul_left _ (le_two_pow_bitsForCount _)

/-! ### The world box -/

@[simp] theorem axisContains_iff {extent : ℕ} {coord : ℤ} :
    axisContains extent coord = true ↔ 0 ≤ coord ∧ coord < extent := by
  unfold axisContains
  split_ifs with h
  · simp; omega
  · simp; omega

theorem contains_iff {c : Coord3} : S.contains c = true ↔
    (0 ≤ c.x ∧ c.x < S.size.x) ∧ (0 ≤ c.y ∧ c.y < S.size.y) ∧ (0 ≤ c.z ∧ c.z < S.size.z) := by
  simp only [contains, Bool.and_eq_true, axisContains_iff, and_assoc]

theorem contains_iff_get {c : Coord3} :
    S.contains c = true ↔ ∀ a, 0 ≤ c.get a ∧ c.get a < S.size.get a := by
  rw [contains_iff]
  constructor
  · rintro ⟨hx, hy, hz⟩ (_ | _ | _)
    · exact hx
    · exact hy
    · exact hz
  · exact fun h => ⟨h .x, h .y, h .z⟩

/-! ### Packed tile keys -/

theorem has_chunkCoord {c : Coord3} (h : S.contains c = true) :
    S.chunkGrid.Has (S.chunkCoord c) := by
  obtain ⟨⟨hx, hx'⟩, ⟨hy, hy'⟩, hz, hz'⟩ := contains_iff.1 h
  obtain ⟨gx, gy, gz⟩ := S.chunkGrid_mul
  refine ⟨?_, ?_, ?_⟩ <;> refine Nat.div_lt_of_lt_mul ?_ <;> rw [Nat.mul_comm]
  · rw [gx]; omega
  · rw [gy]; omega
  · rw [gz]; omega

theorem has_localCoord (c : Coord3) : S.chunk.Has (S.localCoord c) :=
  ⟨Nat.mod_lt _ S.chunk_valid.1, Nat.mod_lt _ S.chunk_valid.2.1, Nat.mod_lt _ S.chunk_valid.2.2⟩

theorem chunkKey_lt {c : Coord3} (h : S.contains c = true) :
    S.chunkKey (S.chunkCoord c) < S.chunkCount :=
  Extent3.rank_lt (has_chunkCoord h)

theorem localTileId_lt (c : Coord3) : S.localTileId (S.localCoord c) < S.localTileCount :=
  Extent3.rank_lt (has_localCoord c)

theorem coordOf_chunkCoord {c : Coord3} (h : S.contains c = true) :
    S.coordOf (S.chunkCoord c) (S.localTileId (S.localCoord c)) = c := by
  obtain ⟨⟨hx, -⟩, ⟨hy, -⟩, hz, -⟩ := contains_iff.1 h
  simp only [coordOf, localTileId, Extent3.unrank_rank (has_localCoord c)]
  simp only [chunkCoord, localCoord, Nat.div_add_mod']
  ext <;> simp only <;> omega

theorem contains_coordOf {g : GridCoord3} {id : ℕ} (hg : S.chunkGrid.Has g)
    (hid : id < S.localTileCount) : S.contains (S.coordOf g id) = true := by
  obtain ⟨gx, gy, gz⟩ := S.chunkGrid_mul
  obtain ⟨lx, ly, lz⟩ := Extent3.has_unrank hid
  have key {q r n d : ℕ} (hq : q < n) (hr : r < d) : q * d + r < n * d :=
    calc q * d + r < q * d + d := by omega
      _ = (q + 1) * d := by ring
      _ ≤ n * d := Nat.mul_le_mul_right _ hq
  have hx := key hg.1 lx
  have hy := key hg.2.1 ly
  have hz := key hg.2.2 lz
  rw [gx] at hx
  rw [gy] at hy
  rw [gz] at hz
  rw [contains_iff]
  simp only [coordOf]
  omega

theorem chunkCoord_coordOf {g : GridCoord3} {id : ℕ} (hid : id < S.localTileCount) :
    S.chunkCoord (S.coordOf g id) = g := by
  obtain ⟨lx, ly, lz⟩ := Extent3.has_unrank hid
  have key {q r d : ℕ} (hr : r < d) : (q * d + r) / d = q := by
    rw [Nat.mul_comm, Nat.mul_add_div (by omega), Nat.div_eq_of_lt hr, Nat.add_zero]
  simp only [chunkCoord, coordOf, Int.toNat_natCast, key lx, key ly, key lz]

theorem localCoord_coordOf {g : GridCoord3} {id : ℕ} (hid : id < S.localTileCount) :
    S.localCoord (S.coordOf g id) = S.chunk.unrank id := by
  obtain ⟨lx, ly, lz⟩ := Extent3.has_unrank hid
  have key {q r d : ℕ} (hr : r < d) : (q * d + r) % d = r := by
    rw [Nat.mul_comm, Nat.mul_add_mod, Nat.mod_eq_of_lt hr]
  simp only [localCoord, coordOf, Int.toNat_natCast, key lx, key ly, key lz]

theorem tileKey_eq {c : Coord3} (h : S.contains c = true) : S.tileKey c =
    S.chunkKey (S.chunkCoord c) * S.localTileCount + S.localTileId (S.localCoord c) := by
  have hl := S.localTileId_lt c
  unfold tileKey
  split_ifs with hb
  · have := chunkKey_lt h
    rw [chunkCount_eq_one_of_chunkBits hb] at this
    rw [show S.chunkKey (S.chunkCoord c) = 0 by omega]
    simp
  · rw [localTileCount_eq_two_pow] at hl ⊢
    rw [← Nat.shiftLeft_add_eq_or_of_lt hl, Nat.shiftLeft_eq]

theorem tileKey_lt {c : Coord3} (h : S.contains c = true) : S.tileKey c < S.tileCount := by
  have hl := S.localTileId_lt c
  rw [tileKey_eq h]
  calc S.chunkKey (S.chunkCoord c) * S.localTileCount + S.localTileId (S.localCoord c)
      < S.chunkKey (S.chunkCoord c) * S.localTileCount + S.localTileCount := by omega
    _ = (S.chunkKey (S.chunkCoord c) + 1) * S.localTileCount := by ring
    _ ≤ S.tileCount := Nat.mul_le_mul_right _ (chunkKey_lt h)

theorem keyLocal_eq (key : ℕ) : S.keyLocal key = key % S.localTileCount := by
  rw [keyLocal, localTileCount_eq_two_pow, Nat.and_two_pow_sub_one_eq_mod]

theorem keyChunk_eq {key : ℕ} (h : key < S.tileCount) :
    S.keyChunk key = key / S.localTileCount := by
  unfold keyChunk
  split_ifs with hb
  · rw [tileCount, chunkCount_eq_one_of_chunkBits hb, Nat.one_mul] at h
    rw [Nat.div_eq_of_lt h]
  · rw [Nat.shiftRight_eq_div_pow, localTileCount_eq_two_pow]

@[simp] theorem keyChunk_tileKey {c : Coord3} (h : S.contains c = true) :
    S.keyChunk (S.tileKey c) = S.chunkKey (S.chunkCoord c) := by
  rw [keyChunk_eq (tileKey_lt h), tileKey_eq h, Nat.mul_comm,
    Nat.mul_add_div localTileCount_pos, Nat.div_eq_of_lt (localTileId_lt c), Nat.add_zero]

@[simp] theorem keyLocal_tileKey {c : Coord3} (h : S.contains c = true) :
    S.keyLocal (S.tileKey c) = S.localTileId (S.localCoord c) := by
  rw [keyLocal_eq, tileKey_eq h, Nat.mul_comm, Nat.mul_add_mod,
    Nat.mod_eq_of_lt (localTileId_lt c)]

/-- **Decoding a packed tile key** gives the coordinate it was made from. -/
@[simp] theorem coord_tileKey {c : Coord3} (h : S.contains c = true) :
    S.coord (S.tileKey c) = c := by
  rw [coord, keyChunk_tileKey h, keyLocal_tileKey h, chunkKey,
    Extent3.unrank_rank (has_chunkCoord h), coordOf_chunkCoord h]

theorem keyChunk_lt {key : ℕ} (h : key < S.tileCount) : S.keyChunk key < S.chunkCount := by
  rw [keyChunk_eq h]
  exact Nat.div_lt_of_lt_mul (by rwa [Nat.mul_comm])

theorem keyLocal_lt (key : ℕ) : S.keyLocal key < S.localTileCount := by
  rw [keyLocal_eq]
  exact Nat.mod_lt _ localTileCount_pos

theorem contains_coord {key : ℕ} (h : key < S.tileCount) : S.contains (S.coord key) = true :=
  contains_coordOf (Extent3.has_unrank (keyChunk_lt h)) (keyLocal_lt key)

/-- **Encoding a decoded key** gives the key back. -/
theorem tileKey_coord {key : ℕ} (h : key < S.tileCount) : S.tileKey (S.coord key) = key := by
  rw [tileKey_eq (contains_coord h), coord, chunkCoord_coordOf (keyLocal_lt key),
    localCoord_coordOf (keyLocal_lt key), chunkKey, localTileId, Extent3.rank_unrank,
    Extent3.rank_unrank, keyChunk_eq h, keyLocal_eq, Nat.div_add_mod']

theorem tileKey_inj {c d : Coord3} (hc : S.contains c = true) (hd : S.contains d = true)
    (h : S.tileKey c = S.tileKey d) : c = d := by
  rw [← coord_tileKey hc, h, coord_tileKey hd]

/-! ### The set of tiles -/

variable (S) in
/-- The contained coordinates. -/
def tiles : Finset Coord3 := (Finset.range S.tileCount).image S.coord

@[simp] theorem mem_tiles {c : Coord3} : c ∈ S.tiles ↔ S.contains c = true := by
  simp only [tiles, Finset.mem_image, Finset.mem_range]
  constructor
  · rintro ⟨key, hkey, rfl⟩
    exact contains_coord hkey
  · exact fun h => ⟨S.tileKey c, tileKey_lt h, coord_tileKey h⟩

theorem card_tiles : S.tiles.card = S.tileCount := by
  rw [tiles, Finset.card_image_of_injOn, Finset.card_range]
  intro a ha b hb h
  rw [← tileKey_coord (Finset.mem_coe.1 ha |> Finset.mem_range.1), h,
    tileKey_coord (Finset.mem_coe.1 hb |> Finset.mem_range.1)]

end Shape

end Tess
