import Tess.Core.PackedKey
import Tess.Topology.Legal
import Tess.Storage.Dirty
import Mathlib.Data.BitVec

/-!
# Neighbours by stride arithmetic

`for_each_indexed_axis_neighbor` walks the face neighbours of a tile and finds the index of each
one without encoding it: it adds the stride of the axis within a chunk, and the stride of the
chunk grid less a whole row where the step leaves the chunk.  The words wrap, so the sums are
taken in the ring of 64-bit words, where wrapping commutes with every sum.

* `Shape.tileKey_eq_parts` : the index of a tile is a sum over the axes, in the ring of words;
* `Shape.axisPart_succ`, `Shape.axisPart_pred` : what one step along an axis adds to it;
* `Shape.forEachIndexedAxisNeighbor_exact` : **each face neighbour is met once, with its index**.
-/

namespace Tess

namespace Shape

section Definitions

variable (S : Shape)

/-- `detail::tile_index`; only for keys that are one word. -/
def tileIndexWord (c : Coord3) : Option (BitVec 64) :=
  match S.wordTileKey c with
  | some (.u64 value) => some value
  | _ => none

/-- Distance of two chunks that follow each other along the first axis. -/
def chunkIndexStride : BitVec 64 := if S.localBits ≥ 64 then 0 else 1#64 <<< S.localBits

/-- Distance of two chunks that follow each other along the second axis. -/
def chunkYStride : BitVec 64 := S.gridWord.x * S.chunkIndexStride

/-- Distance of two chunks that follow each other along the third axis. -/
def chunkZStride : BitVec 64 := S.gridWord.x * S.gridWord.y * S.chunkIndexStride

/-- `detail::for_each_indexed_axis_neighbor`: what the sink receives, in order. -/
def forEachIndexedAxisNeighbor (coord : Coord3) (index : BitVec 64) :
    List (Coord3 × BitVec 64) :=
  let size := WordCoord3.ofExtent S.size
  let chunk := S.chunkWord
  let localX := BitVec.ofInt 64 coord.x &&& (chunk.x - 1)
  let localY := BitVec.ofInt 64 coord.y &&& (chunk.y - 1)
  let localZ := BitVec.ofInt 64 coord.z &&& (chunk.z - 1)
  let localXY := chunk.x * chunk.y
  (if S.degenerate .x then [] else
    (if BitVec.ofInt 64 coord.x + 1 < size.x then
      [(⟨coord.x + 1, coord.y, coord.z⟩,
        if localX + 1 < chunk.x then index + 1 else index + S.chunkIndexStride - localX)]
      else []) ++
    if coord.x > 0 then
      [(⟨coord.x - 1, coord.y, coord.z⟩,
        if localX > 0 then index - 1 else index - S.chunkIndexStride + (chunk.x - 1))]
      else []) ++
  (if S.degenerate .y then [] else
    (if BitVec.ofInt 64 coord.y + 1 < size.y then
      [(⟨coord.x, coord.y + 1, coord.z⟩,
        if localY + 1 < chunk.y then index + chunk.x
        else index + S.chunkYStride - localY * chunk.x)]
      else []) ++
    if coord.y > 0 then
      [(⟨coord.x, coord.y - 1, coord.z⟩,
        if localY > 0 then index - chunk.x
        else index - S.chunkYStride + (chunk.y - 1) * chunk.x)]
      else []) ++
  if S.degenerate .z then [] else
    (if BitVec.ofInt 64 coord.z + 1 < size.z then
      [(⟨coord.x, coord.y, coord.z + 1⟩,
        if localZ + 1 < chunk.z then index + localXY
        else index + S.chunkZStride - localZ * localXY)]
      else []) ++
    if coord.z > 0 then
      [(⟨coord.x, coord.y, coord.z - 1⟩,
        if localZ > 0 then index - localXY
        else index - S.chunkZStride + (chunk.z - 1) * localXY)]
      else []

end Definitions

variable {S : Shape}

/-! ### Words as a ring -/

theorem natCast_toNat (w : BitVec 64) : ((w.toNat : ℕ) : BitVec 64) = w := by
  apply BitVec.eq_of_toNat_eq
  rw [BitVec.natCast_eq_ofNat, BitVec.toNat_ofNat, Nat.mod_eq_of_lt w.isLt]

/-- A word that stands for a number is its image in the ring of words. -/
theorem eq_natCast {w : BitVec 64} {n : ℕ} (h : w.toNat = n) : w = (n : BitVec 64) := by
  rw [← h, natCast_toNat]

theorem chunkIndexStride_eq : S.chunkIndexStride = (S.localTileCount : BitVec 64) := by
  have hlt := S.localBits_lt
  have hcount := S.local_count_fits
  rw [chunkIndexStride, if_neg (by omega)]
  refine eq_natCast ?_
  rw [BitVec.toNat_shiftLeft, BitVec.toNat_ofNat, Nat.shiftLeft_eq, localTileCount_eq_two_pow,
    Nat.one_mod_two_pow (by omega), Nat.one_mul, Nat.mod_eq_of_lt]
  exact Nat.pow_lt_pow_right (by decide) hlt

/-- The index of a tile is its packed key. -/
theorem tileIndexWord_of_contains (hb : S.tileKeyBits ≤ 64) {c : Coord3}
    (hc : S.contains c = true) : S.tileIndexWord c = some (S.tileKey c : BitVec 64) := by
  obtain ⟨key, hkey, hstored, hnat⟩ := exists_wordTileKey hc
  cases key with
  | u64 value =>
    rw [tileIndexWord, hkey]
    exact congrArg some (eq_natCast hnat)
  | u128 value =>
    have : ¬ S.tileKeyBits ≤ 64 := by simpa [Stored] using hstored
    exact absurd hb this

/-! ### One axis -/

/-- **One step along an axis** moves within the chunk, or to the start of the next one. -/
theorem divMod_succ {a w : ℕ} (hw : 0 < w) :
    (a % w + 1 < w → (a + 1) / w = a / w ∧ (a + 1) % w = a % w + 1) ∧
      (¬ a % w + 1 < w → (a + 1) / w = a / w + 1 ∧ (a + 1) % w = 0 ∧ a % w + 1 = w) := by
  have hmod := Nat.mod_lt a hw
  have hsum := Nat.div_add_mod a w
  constructor
  · intro h
    refine (Nat.div_mod_unique hw).2 ⟨?_, h⟩
    omega
  · intro h
    have hfull : a % w + 1 = w := by omega
    obtain ⟨hq, hr⟩ := (Nat.div_mod_unique (a := a + 1) (d := a / w + 1) (c := 0) hw).2
      ⟨by rw [Nat.mul_add]; omega, hw⟩
    exact ⟨hq, hr, hfull⟩

/-- The facts about one axis that the comparisons of the code rest on. -/
structure AxisWords (a : ℤ) (size chunk : ℕ) (sizeWord chunkWord : BitVec 64) : Prop where
  /-- The masked word is the local coordinate. -/
  rest : (BitVec.ofInt 64 a &&& (chunkWord - 1)).toNat = a.toNat % chunk
  /-- The upper comparison is the one of the numbers. -/
  next : BitVec.ofInt 64 a + 1 < sizeWord ↔ a + 1 < size
  /-- The seam comparison is the one of the numbers. -/
  inner : (BitVec.ofInt 64 a &&& (chunkWord - 1)) + 1 < chunkWord ↔ a.toNat % chunk + 1 < chunk
  /-- The lower seam comparison is the one of the numbers. -/
  pos : (BitVec.ofInt 64 a &&& (chunkWord - 1)) > 0 ↔ 0 < a.toNat % chunk

theorem axisWords {a : ℤ} {size chunk : ℕ} {chunkWord : BitVec 64} (h0 : 0 ≤ a) (h : a < size)
    (hfit : size < 2 ^ 63) (hpow : isPowerOfTwo chunk = true) (hle : chunk ≤ size)
    (hw : chunkWord.toNat = chunk) :
    AxisWords a size chunk (.ofNat 64 size) chunkWord := by
  obtain ⟨k, rfl⟩ := isPowerOfTwo_iff.1 hpow
  have hpos := Nat.two_pow_pos k
  have hmod := Nat.mod_lt a.toNat hpos
  have ha := toNat_ofInt_of_fits h0 h hfit
  have hmask : (chunkWord - 1).toNat = 2 ^ k - 1 := by
    rw [BitVec.toNat_sub_of_le (BitVec.le_def.2 (by rw [hw]; exact hpos)), hw]
    rfl
  have hrest : (BitVec.ofInt 64 a &&& (chunkWord - 1)).toNat = a.toNat % 2 ^ k := by
    rw [BitVec.toNat_and, ha, hmask, Nat.and_two_pow_sub_one_eq_mod]
  refine ⟨hrest, ?_, ?_, ?_⟩
  · rw [BitVec.lt_def, BitVec.toNat_add, ha, toNat_ofNat_of_lt (by omega)]
    change (a.toNat + 1) % 2 ^ 64 < size ↔ _
    omega
  · rw [BitVec.lt_def, BitVec.toNat_add, hrest, hw]
    change (a.toNat % 2 ^ k + 1) % 2 ^ 64 < _ ↔ _
    rw [Nat.mod_eq_of_lt (by omega)]
  · rw [gt_iff_lt, BitVec.lt_def, hrest]
    rfl

/-- What one axis adds to the index of a tile: `stride` for a chunk and `unit` for a tile. -/
def axisPart (w : ℕ) (stride unit : BitVec 64) (a : ℕ) : BitVec 64 :=
  (a / w : ℕ) * stride + (a % w : ℕ) * unit

/-- **The index of a tile** is a sum over the axes. -/
theorem tileKey_eq_parts {c : Coord3} (hc : S.contains c = true) :
    (S.tileKey c : BitVec 64) =
      axisPart S.chunk.x S.chunkIndexStride 1 c.x.toNat +
        axisPart S.chunk.y S.chunkYStride S.chunkWord.x c.y.toNat +
        axisPart S.chunk.z S.chunkZStride (S.chunkWord.x * S.chunkWord.y) c.z.toNat := by
  rw [tileKey_eq hc, chunkZStride, chunkYStride, chunkIndexStride_eq,
    eq_natCast S.stands_gridWord.x, eq_natCast S.stands_gridWord.y,
    eq_natCast S.stands_chunkWord.x, eq_natCast S.stands_chunkWord.y]
  simp only [chunkKey, localTileId, Extent3.rank, chunkCoord, localCoord, axisPart, Nat.cast_add,
    Nat.cast_mul]
  ring

theorem axisPart_succ {w a : ℕ} (hw : 0 < w) (stride unit : BitVec 64) :
    axisPart w stride unit (a + 1) =
      if a % w + 1 < w then axisPart w stride unit a + unit
      else axisPart w stride unit a + stride - (a % w : ℕ) * unit := by
  obtain ⟨hinner, hseam⟩ := divMod_succ (a := a) hw
  split_ifs with h
  · obtain ⟨hq, hr⟩ := hinner h
    rw [axisPart, axisPart, hq, hr, Nat.cast_add, Nat.cast_one]
    ring
  · obtain ⟨hq, hr, -⟩ := hseam h
    rw [axisPart, axisPart, hq, hr, Nat.cast_add, Nat.cast_one, Nat.cast_zero]
    ring

theorem axisPart_pred {w a : ℕ} (hw : 0 < w) (stride unit : BitVec 64) :
    axisPart w stride unit a =
      if 0 < (a + 1) % w then axisPart w stride unit (a + 1) - unit
      else axisPart w stride unit (a + 1) - stride + ((w : BitVec 64) - 1) * unit := by
  obtain ⟨hinner, hseam⟩ := divMod_succ (a := a) hw
  by_cases h : a % w + 1 < w
  · obtain ⟨-, hr⟩ := hinner h
    rw [if_pos (by omega), axisPart_succ hw, if_pos h]
    ring
  · obtain ⟨-, hr, hfull⟩ := hseam h
    -- The step crosses a seam, so the tile before it is the last one of its row.
    have hlast : (w : BitVec 64) = (a % w : ℕ) + 1 := by
      rw [← Nat.cast_succ, Nat.succ_eq_add_one, hfull]
    rw [if_neg (by omega), axisPart_succ hw, if_neg h, hlast]
    ring

section AxisStep

variable {a : ℤ} {size chunk : ℕ} {sizeWord chunkWord : BitVec 64}
  (ax : AxisWords a size chunk sizeWord chunkWord) (hw : 0 < chunk) (stride unit : BitVec 64)

include ax hw

/-- **The formula for a step up** adds what the axis adds. -/
theorem index_up (h0 : 0 ≤ a) (index : BitVec 64) :
    (if (BitVec.ofInt 64 a &&& (chunkWord - 1)) + 1 < chunkWord then index + unit
      else index + stride - (BitVec.ofInt 64 a &&& (chunkWord - 1)) * unit) =
      index + (axisPart chunk stride unit (a + 1).toNat - axisPart chunk stride unit a.toNat) := by
  have hnext : (a + 1).toNat = a.toNat + 1 := by omega
  rw [hnext, axisPart_succ hw]
  simp only [ax.inner]
  split_ifs
  · ring
  · rw [eq_natCast ax.rest]
    ring

/-- **The formula for a step down** takes away what the axis adds. -/
theorem index_down (hcw : chunkWord.toNat = chunk) (h0 : 0 < a) (index : BitVec 64) :
    (if (BitVec.ofInt 64 a &&& (chunkWord - 1)) > 0 then index - unit
      else index - stride + (chunkWord - 1) * unit) =
      index + (axisPart chunk stride unit (a - 1).toNat - axisPart chunk stride unit a.toNat) := by
  have hprev : a.toNat = (a - 1).toNat + 1 := by omega
  rw [axisPart_pred (a := (a - 1).toNat) hw, ← hprev, eq_natCast hcw]
  rw [eq_natCast hcw] at ax
  simp only [ax.pos]
  split_ifs
  · ring
  · ring

end AxisStep

/-! ### The walk over the neighbours -/

/-- The face neighbours of a coordinate, in the order of the walk. -/
def faceNeighbors (c : Coord3) : List Coord3 :=
  [⟨c.x + 1, c.y, c.z⟩, ⟨c.x - 1, c.y, c.z⟩, ⟨c.x, c.y + 1, c.z⟩, ⟨c.x, c.y - 1, c.z⟩,
    ⟨c.x, c.y, c.z + 1⟩, ⟨c.x, c.y, c.z - 1⟩]

theorem mem_faceNeighbors {c n : Coord3} : n ∈ faceNeighbors c ↔ FaceAdjacent c n := by
  simp only [faceNeighbors, List.mem_cons, List.not_mem_nil, or_false, faceAdjacent_iff]

theorem nodup_faceNeighbors (c : Coord3) : (faceNeighbors c).Nodup := by
  simp [faceNeighbors]
  omega

theorem contains_set {c : Coord3} (hc : S.contains c = true) (a : Axis) (v : ℤ) :
    S.contains (c.set a v) = true ↔ 0 ≤ v ∧ v < S.size.get a := by
  rw [contains_iff_get] at hc ⊢
  constructor
  · intro h
    simpa using h a
  · intro h b
    by_cases hb : b = a
    · subst hb
      simpa using h
    · simpa [hb] using hc b

/-- **One axis of the walk**: the neighbours within the box, each with its own index. -/
theorem axis_walk {c : Coord3} (hc : S.contains c = true) (a : Axis) {w : ℕ}
    {sizeWord chunkWord stride unit rest : BitVec 64} (hw : 0 < w) (hcw : chunkWord.toNat = w)
    (ax : AxisWords (c.get a) (S.size.get a) w sizeWord chunkWord)
    (hparts : ∀ v, S.contains (c.set a v) = true →
      (S.tileKey (c.set a v) : BitVec 64) = rest + axisPart w stride unit v.toNat) :
    (if S.degenerate a then [] else
      (if BitVec.ofInt 64 (c.get a) + 1 < sizeWord then
        [(c.set a (c.get a + 1),
          if (BitVec.ofInt 64 (c.get a) &&& (chunkWord - 1)) + 1 < chunkWord then
            (S.tileKey c : BitVec 64) + unit
          else (S.tileKey c : BitVec 64) + stride -
            (BitVec.ofInt 64 (c.get a) &&& (chunkWord - 1)) * unit)]
        else []) ++
      if c.get a > 0 then
        [(c.set a (c.get a - 1),
          if (BitVec.ofInt 64 (c.get a) &&& (chunkWord - 1)) > 0 then
            (S.tileKey c : BitVec 64) - unit
          else (S.tileKey c : BitVec 64) - stride + (chunkWord - 1) * unit)]
        else []) =
      ([c.set a (c.get a + 1), c.set a (c.get a - 1)].filter (S.contains ·)).map
        fun n => (n, (S.tileKey n : BitVec 64)) := by
  obtain ⟨h0, h1⟩ := contains_iff_get.1 hc a
  have hself := hparts (c.get a) (by rwa [Coord3.set_get])
  rw [Coord3.set_get] at hself
  have hnext : S.contains (c.set a (c.get a + 1)) = true ↔ c.get a + 1 < S.size.get a := by
    rw [contains_set hc]
    omega
  have hprev : S.contains (c.set a (c.get a - 1)) = true ↔ c.get a > 0 := by
    rw [contains_set hc]
    omega
  rw [List.filter_cons, List.filter_cons, List.filter_nil, index_up ax hw _ _ h0]
  simp only [hnext, hprev, ax.next]
  have hup (h : c.get a + 1 < S.size.get a) : (S.tileKey c : BitVec 64) +
      (axisPart w stride unit (c.get a + 1).toNat - axisPart w stride unit (c.get a).toNat) =
        S.tileKey (c.set a (c.get a + 1)) := by
    rw [hparts _ (hnext.2 h), hself]
    ring
  have hdown (h : c.get a > 0) :
      (if (BitVec.ofInt 64 (c.get a) &&& (chunkWord - 1)) > 0 then
        (S.tileKey c : BitVec 64) - unit
        else (S.tileKey c : BitVec 64) - stride + (chunkWord - 1) * unit) =
        S.tileKey (c.set a (c.get a - 1)) := by
    rw [index_down ax hw _ _ hcw h, hparts _ (hprev.2 h), hself]
    ring
  by_cases hdeg : S.degenerate a = true
  · have hone : S.size.get a = 1 := by simpa [degenerate] using hdeg
    rw [if_pos hdeg, if_neg (by omega), if_neg (by omega)]
    rfl
  · rw [if_neg hdeg]
    by_cases hn : c.get a + 1 < S.size.get a <;> by_cases hp : c.get a > 0
    · rw [if_pos hn, if_pos hp, if_pos hn, if_pos hp, hup hn, hdown hp]
      rfl
    · rw [if_pos hn, if_neg hp, if_pos hn, if_neg hp, hup hn]
      rfl
    · rw [if_neg hn, if_pos hp, if_neg hn, if_pos hp, hdown hp]
      rfl
    · rw [if_neg hn, if_neg hp, if_neg hn, if_neg hp]
      rfl

/-- **The walk** lists the face neighbours within the box, each with its own index. -/
theorem forEachIndexedAxisNeighbor_eq {c : Coord3} (hc : S.contains c = true) :
    S.forEachIndexedAxisNeighbor c (S.tileKey c : BitVec 64) =
      ((faceNeighbors c).filter (S.contains ·)).map fun n => (n, (S.tileKey n : BitVec 64)) := by
  obtain ⟨⟨hx, hx'⟩, ⟨hy, hy'⟩, hz, hz'⟩ := contains_iff.1 hc
  obtain ⟨fx, fy, fz⟩ := S.axis_fits
  obtain ⟨px, py, pz⟩ := S.chunk_pow
  obtain ⟨vx, vy, vz⟩ := S.chunk_valid
  obtain ⟨gx, gy, gz⟩ := S.chunkGrid_mul
  obtain ⟨nx, ny, nz⟩ := S.chunkGrid_valid
  have hw := S.stands_chunkWord
  have ax := axisWords hx hx' fx px (by rw [← gx]; exact Nat.le_mul_of_pos_left _ nx) hw.x
  have ay := axisWords hy hy' fy py (by rw [← gy]; exact Nat.le_mul_of_pos_left _ ny) hw.y
  have az := axisWords hz hz' fz pz (by rw [← gz]; exact Nat.le_mul_of_pos_left _ nz) hw.z
  have hsplit : faceNeighbors c = [c.set .x (c.get .x + 1), c.set .x (c.get .x - 1)] ++
    [c.set .y (c.get .y + 1), c.set .y (c.get .y - 1)] ++
    [c.set .z (c.get .z + 1), c.set .z (c.get .z - 1)] := rfl
  have partsX (v : ℤ) (hv : S.contains (c.set .x v) = true) :
      (S.tileKey (c.set .x v) : BitVec 64) =
        axisPart S.chunk.y S.chunkYStride S.chunkWord.x c.y.toNat +
          axisPart S.chunk.z S.chunkZStride (S.chunkWord.x * S.chunkWord.y) c.z.toNat +
        axisPart S.chunk.x S.chunkIndexStride 1 v.toNat := by
    rw [tileKey_eq_parts hv]
    simp only [Coord3.set]
    ring
  have walkX := axis_walk hc .x vx hw.x ax partsX
  have partsY (v : ℤ) (hv : S.contains (c.set .y v) = true) :
      (S.tileKey (c.set .y v) : BitVec 64) =
        axisPart S.chunk.x S.chunkIndexStride 1 c.x.toNat +
          axisPart S.chunk.z S.chunkZStride (S.chunkWord.x * S.chunkWord.y) c.z.toNat +
        axisPart S.chunk.y S.chunkYStride S.chunkWord.x v.toNat := by
    rw [tileKey_eq_parts hv]
    simp only [Coord3.set]
    ring
  have walkY := axis_walk hc .y vy hw.y ay partsY
  have partsZ (v : ℤ) (hv : S.contains (c.set .z v) = true) :
      (S.tileKey (c.set .z v) : BitVec 64) =
        axisPart S.chunk.x S.chunkIndexStride 1 c.x.toNat +
          axisPart S.chunk.y S.chunkYStride S.chunkWord.x c.y.toNat +
        axisPart S.chunk.z S.chunkZStride (S.chunkWord.x * S.chunkWord.y) v.toNat :=
    tileKey_eq_parts hv
  have walkZ := axis_walk hc .z vz hw.z az partsZ
  rw [hsplit, List.filter_append, List.filter_append, List.map_append, List.map_append, ← walkX,
    ← walkY, ← walkZ]
  simp only [mul_one]
  rfl

/-- **Each face neighbour is met once, with its index**, and nothing else is met. -/
theorem forEachIndexedAxisNeighbor_exact (hb : S.tileKeyBits ≤ 64) {c : Coord3}
    (hc : S.contains c = true) : ∃ index, S.tileIndexWord c = some index ∧
      (∀ n, ((S.forEachIndexedAxisNeighbor c index).map Prod.fst).count n =
        if S.contains n = true ∧ FaceAdjacent c n then 1 else 0) ∧
      ∀ p ∈ S.forEachIndexedAxisNeighbor c index, S.tileIndexWord p.1 = some p.2 := by
  refine ⟨_, tileIndexWord_of_contains hb hc, fun n => ?_, fun p hp => ?_⟩
  · have hfst : (Prod.fst ∘ fun m : Coord3 => (m, (S.tileKey m : BitVec 64))) = id := rfl
    have hmem : n ∈ (faceNeighbors c).filter (S.contains ·) ↔
        S.contains n = true ∧ FaceAdjacent c n := by
      rw [List.mem_filter, mem_faceNeighbors, and_comm]
    rw [forEachIndexedAxisNeighbor_eq hc, List.map_map, hfst, List.map_id,
      ((nodup_faceNeighbors c).filter _).count]
    exact if_congr hmem rfl rfl
  · rw [forEachIndexedAxisNeighbor_eq hc, List.mem_map] at hp
    obtain ⟨n, hn, rfl⟩ := hp
    exact tileIndexWord_of_contains hb (List.mem_filter.1 hn).2

theorem forEachIndexedAxisNeighbor_exact_seam :
    ∃ index, twoCells.tileIndexWord ⟨0, 0, 0⟩ = some index ∧
      (∀ n, ((twoCells.forEachIndexedAxisNeighbor ⟨0, 0, 0⟩ index).map Prod.fst).count n =
        if twoCells.contains n = true ∧ FaceAdjacent ⟨0, 0, 0⟩ n then 1 else 0) ∧
      ∀ p ∈ twoCells.forEachIndexedAxisNeighbor ⟨0, 0, 0⟩ index,
        twoCells.tileIndexWord p.1 = some p.2 :=
  forEachIndexedAxisNeighbor_exact (by decide) (by decide)

end Shape

end Tess
