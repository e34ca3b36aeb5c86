import Tess.Core.Shape
import Tess.Core.UInt128

/-!
# Packed tile keys in machine words

The encoders and decoders of tile keys as the code computes them: in wrapping 64-bit words, with
a `UInt128` for keys of more than 64 bits, where a shift by the width of a word has no result.

* `Shape.toGrid_wordChunkCoord`, `Shape.toNat_rankWord`, `Shape.toGrid_unrankWord` : the words
  stand for the numbers of `Tess.Core.Shape`;
* `Shape.traits_words`, `Shape.wordBitsForCount_eq` : so do the derived counts and widths;
* `Shape.packed_keys_exact` : **packing is injective and undone by unpacking**, with no wrap and
  no undefined shift.
-/

namespace Tess

/-- A coordinate or an extent in 64-bit words. -/
@[ext]
structure WordCoord3 where
  /-- First component. -/
  x : BitVec 64
  /-- Second component. -/
  y : BitVec 64
  /-- Third component. -/
  z : BitVec 64
  deriving DecidableEq, Repr

namespace WordCoord3

/-- The cell that three words stand for. -/
def toGrid (c : WordCoord3) : GridCoord3 := ⟨c.x.toNat, c.y.toNat, c.z.toNat⟩

/-- The words of an extent. -/
def ofExtent (e : Extent3) : WordCoord3 := ⟨.ofNat 64 e.x, .ofNat 64 e.y, .ofNat 64 e.z⟩

/-- Row-major rank, as `local_tile_id` and `chunk_key` compute it. -/
def rankWord (e c : WordCoord3) : BitVec 64 := c.x + c.y * e.x + c.z * e.x * e.y

/-- Cell of a rank, as `coord` and `chunk_coord` compute it. -/
def unrankWord (e : WordCoord3) (n : BitVec 64) : WordCoord3 :=
  let xy := e.x * e.y
  let remainder := n % xy
  ⟨remainder % e.x, remainder / e.x, n / xy⟩

/-- `detail::product`, in 128 bits. -/
def preciseProduct (e : WordCoord3) : UInt128 :=
  ((UInt128.ofWord e.x).mul (.ofWord e.y)).mul (.ofWord e.z)

/-- `detail::product_fits_uint64`, by division. -/
def productFitsUint64 (e : WordCoord3) : Bool :=
  if e.x > BitVec.allOnes 64 / e.y then false else e.x * e.y ≤ BitVec.allOnes 64 / e.z

end WordCoord3

/-- `detail::bit_width`: the shifting loop, which ends within 128 rounds. -/
def bitWidth : ℕ → UInt128 → ℕ
  | 0, _ => 0
  | fuel + 1, value => if value = ⟨0, 0⟩ then 0 else bitWidth fuel (value.shr 1) + 1

/-- `detail::bits_for_count`. -/
def wordBitsForCount (count : UInt128) : ℕ :=
  if count.le (.ofWord 1) then 0 else bitWidth 128 (count.sub (.ofWord 1))

/-- `TileKey`: a word, or a pair of words when the key has more than 64 bits. -/
inductive TileKeyWord
  | u64 (value : BitVec 64)
  | u128 (value : UInt128)
  deriving DecidableEq, Repr

/-- The number of a packed key. -/
def TileKeyWord.toNat : TileKeyWord → ℕ
  | u64 value => value.toNat
  | u128 value => value.toNat

/-- `<<` of a word; undefined from its width on. -/
def shiftLeftWord (value : BitVec 64) (count : ℕ) : Option (BitVec 64) :=
  if count < 64 then some (value <<< count) else none

/-- `>>` of a word; undefined from its width on. -/
def shiftRightWord (value : BitVec 64) (count : ℕ) : Option (BitVec 64) :=
  if count < 64 then some (value >>> count) else none

namespace Shape

section Definitions

variable (S : Shape)

/-- `ShapeTraits::chunk`. -/
def chunkWord : WordCoord3 := .ofExtent S.chunk

/-- `ShapeTraits::chunk_count_x` and its siblings. -/
def gridWord : WordCoord3 :=
  let size := WordCoord3.ofExtent S.size
  ⟨size.x / S.chunkWord.x, size.y / S.chunkWord.y, size.z / S.chunkWord.z⟩

/-- `chunk_coord` of a coordinate. -/
def wordChunkCoord (c : Coord3) : WordCoord3 :=
  ⟨.ofInt 64 c.x / S.chunkWord.x, .ofInt 64 c.y / S.chunkWord.y, .ofInt 64 c.z / S.chunkWord.z⟩

/-- `local_coord` of a coordinate. -/
def wordLocalCoord (c : Coord3) : WordCoord3 :=
  ⟨.ofInt 64 c.x % S.chunkWord.x, .ofInt 64 c.y % S.chunkWord.y, .ofInt 64 c.z % S.chunkWord.z⟩

/-- `local_tile_id` of a local coordinate. -/
def wordLocalTileId (c : WordCoord3) : BitVec 64 := S.chunkWord.rankWord c

/-- `chunk_key` of a chunk coordinate. -/
def wordChunkKey (c : WordCoord3) : BitVec 64 := S.gridWord.rankWord c

/-- `chunk_coord` of a chunk key. -/
def chunkCoordWord (key : BitVec 64) : WordCoord3 := S.gridWord.unrankWord key

/-- `coord` of a chunk coordinate and a local identifier. -/
def coordWord (chunk : WordCoord3) (id : BitVec 64) : Coord3 :=
  let l := S.chunkWord.unrankWord id
  ⟨(chunk.x * S.chunkWord.x + l.x).toInt, (chunk.y * S.chunkWord.y + l.y).toInt,
    (chunk.z * S.chunkWord.z + l.z).toInt⟩

/-- `tile_key`; without a result where a shift is undefined. -/
def wordTileKey (c : Coord3) : Option TileKeyWord :=
  let id := S.wordLocalTileId (S.wordLocalCoord c)
  let chunk := S.wordChunkKey (S.wordChunkCoord c)
  if S.tileKeyBits ≤ 64 then
    if S.chunkBits = 0 then some (.u64 id)
    else (shiftLeftWord chunk S.localBits).map fun high => .u64 (high ||| id)
  else if S.chunkBits = 0 then some (.u128 (.ofWord id))
  else some (.u128 (((UInt128.ofWord chunk).shl S.localBits).or (.ofWord id)))

/-- `chunk_key` of a packed key. -/
def keyChunkWord (key : TileKeyWord) : Option (BitVec 64) :=
  if S.chunkBits = 0 then some 0
  else match key with
    | .u64 value => shiftRightWord value S.localBits
    | .u128 value => some (value.shr S.localBits).lo

/-- `local_tile_id` of a packed key. -/
def keyLocalWord (key : TileKeyWord) : Option (BitVec 64) :=
  match key with
  | .u64 value =>
    if S.localBits = 64 then some (value &&& BitVec.allOnes 64)
    else (shiftLeftWord 1 S.localBits).map fun bit => value &&& (bit - 1)
  | .u128 value =>
    let mask : UInt128 := if S.localBits = 64 then .ofWord (BitVec.allOnes 64)
      else ((UInt128.ofWord 1).shl S.localBits).sub (.ofWord 1)
    some (value.and mask).lo

/-- `coord` of a packed key. -/
def keyCoordWord (key : TileKeyWord) : Option Coord3 :=
  match S.keyChunkWord key, S.keyLocalWord key with
  | some chunk, some id => some (S.coordWord (S.chunkCoordWord chunk) id)
  | _, _ => none

end Definitions

open WordCoord3

variable {S : Shape}

/-! ### Ranks -/

theorem toNat_ofNat_of_lt {n : ℕ} (h : n < 2 ^ 64) : (BitVec.ofNat 64 n).toNat = n := by
  rw [BitVec.toNat_ofNat, Nat.mod_eq_of_lt h]

/-- The axes of an extent whose product is a word are words. -/
theorem axes_lt {e : Extent3} (hv : e.IsValid) (h : e.product < 2 ^ 64) :
    e.x < 2 ^ 64 ∧ e.y < 2 ^ 64 ∧ e.z < 2 ^ 64 ∧ e.x * e.y < 2 ^ 64 := by
  obtain ⟨hx, hy, hz⟩ := hv
  have hxy : e.x * e.y ≤ e.product := Nat.le_mul_of_pos_right _ hz
  have h1 : e.x ≤ e.x * e.y := Nat.le_mul_of_pos_right _ hy
  have h2 : e.y ≤ e.x * e.y := Nat.le_mul_of_pos_left _ hx
  have h3 : e.z ≤ e.product := Nat.le_mul_of_pos_left _ (Nat.mul_pos hx hy)
  omega

/-- The words of an extent stand for it. -/
structure Stands (w : WordCoord3) (e : Extent3) : Prop where
  /-- First component. -/
  x : w.x.toNat = e.x
  /-- Second component. -/
  y : w.y.toNat = e.y
  /-- Third component. -/
  z : w.z.toNat = e.z

theorem stands_ofExtent {e : Extent3} (hv : e.IsValid) (h : e.product < 2 ^ 64) :
    Stands (.ofExtent e) e := by
  obtain ⟨hx, hy, hz, -⟩ := axes_lt hv h
  exact ⟨toNat_ofNat_of_lt hx, toNat_ofNat_of_lt hy, toNat_ofNat_of_lt hz⟩

/-- **A rank in words does not wrap.** -/
theorem toNat_rankWord {w c : WordCoord3} {e : Extent3} (hw : Stands w e)
    (h : e.product < 2 ^ 64) (hc : e.Has c.toGrid) : (w.rankWord c).toNat = e.rank c.toGrid := by
  have hlt := (Extent3.rank_lt hc).trans h
  unfold Extent3.rank at hlt ⊢
  simp only [toGrid] at hlt ⊢
  simp only [rankWord, BitVec.toNat_add, BitVec.toNat_mul, hw.x, hw.y, Nat.add_mod_mod,
    Nat.mod_add_mod, Nat.mod_mul_mod]
  exact Nat.mod_eq_of_lt hlt

/-- **A cell in words does not wrap.** -/
theorem toGrid_unrankWord {w : WordCoord3} {e : Extent3} (hw : Stands w e) (hv : e.IsValid)
    (h : e.product < 2 ^ 64) (n : BitVec 64) : (w.unrankWord n).toGrid = e.unrank n.toNat := by
  obtain ⟨-, -, -, hxy⟩ := axes_lt hv h
  have hprod : (w.x * w.y).toNat = e.x * e.y := by
    rw [BitVec.toNat_mul, hw.x, hw.y, Nat.mod_eq_of_lt hxy]
  simp only [toGrid, unrankWord, BitVec.toNat_umod, BitVec.toNat_udiv, hprod, hw.x,
    Extent3.unrank]

/-! ### Shapes -/

theorem stands_chunkWord : Stands S.chunkWord S.chunk :=
  stands_ofExtent S.chunk_valid S.local_count_fits

theorem stands_gridWord : Stands S.gridWord S.chunkGrid := by
  obtain ⟨hx, hy, hz⟩ := S.axis_fits
  have hc := S.stands_chunkWord
  refine ⟨?_, ?_, ?_⟩
  · rw [gridWord, BitVec.toNat_udiv, ofExtent, toNat_ofNat_of_lt (by omega), hc.x]
    rfl
  · rw [gridWord, BitVec.toNat_udiv, ofExtent, toNat_ofNat_of_lt (by omega), hc.y]
    rfl
  · rw [gridWord, BitVec.toNat_udiv, ofExtent, toNat_ofNat_of_lt (by omega), hc.z]
    rfl

theorem toNat_ofInt_of_fits {a : ℤ} {n : ℕ} (h0 : 0 ≤ a) (h : a < n) (hn : n < 2 ^ 63) :
    (BitVec.ofInt 64 a).toNat = a.toNat := by
  rw [BitVec.toNat_ofInt]
  omega

theorem toGrid_wordChunkCoord {c : Coord3} (h : S.contains c = true) :
    (S.wordChunkCoord c).toGrid = S.chunkCoord c := by
  obtain ⟨⟨hx, hx'⟩, ⟨hy, hy'⟩, hz, hz'⟩ := contains_iff.1 h
  obtain ⟨fx, fy, fz⟩ := S.axis_fits
  have hc := S.stands_chunkWord
  simp only [toGrid, wordChunkCoord, chunkCoord, BitVec.toNat_udiv, hc.x, hc.y, hc.z,
    toNat_ofInt_of_fits hx hx' fx, toNat_ofInt_of_fits hy hy' fy, toNat_ofInt_of_fits hz hz' fz]

theorem toGrid_wordLocalCoord {c : Coord3} (h : S.contains c = true) :
    (S.wordLocalCoord c).toGrid = S.localCoord c := by
  obtain ⟨⟨hx, hx'⟩, ⟨hy, hy'⟩, hz, hz'⟩ := contains_iff.1 h
  obtain ⟨fx, fy, fz⟩ := S.axis_fits
  have hc := S.stands_chunkWord
  simp only [toGrid, wordLocalCoord, localCoord, BitVec.toNat_umod, hc.x, hc.y, hc.z,
    toNat_ofInt_of_fits hx hx' fx, toNat_ofInt_of_fits hy hy' fy, toNat_ofInt_of_fits hz hz' fz]

theorem toNat_wordLocalTileId {c : Coord3} (h : S.contains c = true) :
    (S.wordLocalTileId (S.wordLocalCoord c)).toNat = S.localTileId (S.localCoord c) := by
  have hg := toGrid_wordLocalCoord h
  rw [wordLocalTileId, toNat_rankWord S.stands_chunkWord S.local_count_fits, hg]
  · rfl
  · rw [hg]
    exact has_localCoord c

theorem toNat_wordChunkKey {c : Coord3} (h : S.contains c = true) :
    (S.wordChunkKey (S.wordChunkCoord c)).toNat = S.chunkKey (S.chunkCoord c) := by
  have hg := toGrid_wordChunkCoord h
  rw [wordChunkKey, toNat_rankWord S.stands_gridWord S.chunk_count_fits, hg]
  · rfl
  · rw [hg]
    exact has_chunkCoord h

/-- **Decoding a chunk key** gives the chunk coordinate it was made from. -/
theorem chunkCoordWord_wordChunkKey {g : WordCoord3} (h : S.chunkGrid.Has g.toGrid) :
    S.chunkCoordWord (S.wordChunkKey g) = g := by
  have hgrid : (S.chunkCoordWord (S.wordChunkKey g)).toGrid = g.toGrid := by
    rw [chunkCoordWord, toGrid_unrankWord S.stands_gridWord S.chunkGrid_valid S.chunk_count_fits,
      wordChunkKey, toNat_rankWord S.stands_gridWord S.chunk_count_fits h,
      Extent3.unrank_rank h]
  simp only [toGrid, GridCoord3.mk.injEq] at hgrid
  ext1
  · exact BitVec.eq_of_toNat_eq hgrid.1
  · exact BitVec.eq_of_toNat_eq hgrid.2.1
  · exact BitVec.eq_of_toNat_eq hgrid.2.2

/-- One axis of `coord`: neither the product nor the sum wraps, and the result is positive. -/
theorem toInt_axis {g d r : BitVec 64} {n : ℕ} (h : g.toNat * d.toNat + r.toNat < n)
    (hn : n < 2 ^ 63) : (g * d + r).toInt = (g.toNat * d.toNat + r.toNat : ℕ) := by
  have hnat : (g * d + r).toNat = g.toNat * d.toNat + r.toNat := by
    rw [BitVec.toNat_add, BitVec.toNat_mul, Nat.mod_add_mod, Nat.mod_eq_of_lt (by omega)]
  rw [BitVec.toInt_eq_toNat_of_lt (by omega), hnat]

/-- **Decoding a chunk and a local identifier** gives the coordinate they were made from. -/
theorem coordWord_eq {c : Coord3} (h : S.contains c = true) :
    S.coordWord (S.wordChunkCoord c) (S.wordLocalTileId (S.wordLocalCoord c)) = c := by
  have hg := toGrid_wordChunkCoord h
  have hl : (S.chunkWord.unrankWord (S.wordLocalTileId (S.wordLocalCoord c))).toGrid =
      S.localCoord c := by
    rw [toGrid_unrankWord S.stands_chunkWord S.chunk_valid S.local_count_fits,
      toNat_wordLocalTileId h, localTileId, Extent3.unrank_rank (has_localCoord c)]
  obtain ⟨⟨hx, hx'⟩, ⟨hy, hy'⟩, hz, hz'⟩ := contains_iff.1 h
  obtain ⟨fx, fy, fz⟩ := S.axis_fits
  have hc := S.stands_chunkWord
  simp only [toGrid, chunkCoord, localCoord, GridCoord3.mk.injEq] at hg hl
  have axis : ∀ {g d r : BitVec 64} {a : ℤ} {n m : ℕ}, 0 ≤ a → a < n → n < 2 ^ 63 →
      d.toNat = m → g.toNat = a.toNat / m → r.toNat = a.toNat % m → (g * d + r).toInt = a := by
    intro g d r a n m h0 hlt hfits hd hq hr
    have hsum : g.toNat * d.toNat + r.toNat = a.toNat := by
      rw [hq, hd, hr, Nat.div_add_mod']
    rw [toInt_axis (hsum ▸ (by omega : a.toNat < n)) hfits, hsum]
    omega
  ext
  · exact axis hx hx' fx hc.x hg.1 hl.1
  · exact axis hy hy' fy hc.y hg.2.1 hl.2.1
  · exact axis hz hz' fz hc.z hg.2.2 hl.2.2

/-! ### Derived counts and widths -/

/-- **A product in 128 bits** that fits a word is exact. -/
theorem toNat_preciseProduct {w : WordCoord3} {e : Extent3} (hw : Stands w e) (hv : e.IsValid)
    (h : e.product < 2 ^ 64) : w.preciseProduct.toNat = e.product := by
  obtain ⟨-, -, -, hxy⟩ := axes_lt hv h
  rw [preciseProduct, UInt128.toNat_mul, UInt128.toNat_mul, UInt128.toNat_ofWord,
    UInt128.toNat_ofWord, UInt128.toNat_ofWord, hw.x, hw.y, hw.z,
    Nat.mod_eq_of_lt (a := e.x * e.y) (by omega)]
  exact Nat.mod_eq_of_lt (h.trans (by decide))

/-- The division test says exactly when a product fits a word. -/
theorem productFitsUint64_iff {w : WordCoord3} {e : Extent3} (hw : Stands w e) (hv : e.IsValid) :
    w.productFitsUint64 = true ↔ e.product < 2 ^ 64 := by
  obtain ⟨hx, hy, hz⟩ := hv
  have hmax : (BitVec.allOnes 64).toNat = 2 ^ 64 - 1 := BitVec.toNat_allOnes
  have hxy : e.x * e.y ≤ e.product := Nat.le_mul_of_pos_right _ hz
  unfold productFitsUint64
  simp only [GT.gt, BitVec.lt_def, BitVec.le_def, BitVec.toNat_udiv, hmax,
    BitVec.toNat_mul, hw.x, hw.y, hw.z]
  split_ifs with hbig
  · have hover : ¬ e.x * e.y ≤ 2 ^ 64 - 1 := fun hle =>
      absurd ((Nat.le_div_iff_mul_le hy).2 hle) (not_le.2 hbig)
    simp only [false_iff]
    omega
  · have hfit : e.x * e.y ≤ 2 ^ 64 - 1 := (Nat.le_div_iff_mul_le hy).1 (not_lt.1 hbig)
    rw [decide_eq_true_eq, Nat.mod_eq_of_lt (by omega), Nat.le_div_iff_mul_le hz]
    change e.product ≤ _ ↔ _
    omega

/-- A number that is not zero has one bit more than its half. -/
theorem size_succ {n : ℕ} (h : n ≠ 0) : n.size = (n / 2).size + 1 := by
  have hhalf := Nat.lt_size_self (n / 2)
  refine le_antisymm ?_ ?_
  · rw [Nat.size_le, pow_succ]
    omega
  · rw [Nat.succ_le_iff, Nat.lt_size]
    cases hs : (n / 2).size with
    | zero =>
      rw [pow_zero]
      omega
    | succ k =>
      have hk : 2 ^ k ≤ n / 2 := Nat.lt_size.1 (by omega)
      rw [pow_succ]
      omega

theorem bitWidth_eq {fuel : ℕ} {v : UInt128} (h : v.toNat < 2 ^ fuel) :
    bitWidth fuel v = v.toNat.size := by
  induction fuel generalizing v with
  | zero =>
    have h0 : v.toNat = 0 := by omega
    rw [h0]
    rfl
  | succ fuel ih =>
    have hzero : v = ⟨0, 0⟩ ↔ v.toNat = 0 := by
      constructor
      · rintro rfl
        rfl
      · exact fun h0 => UInt128.toNat_inj h0
    rw [bitWidth]
    split_ifs with h0
    · rw [hzero.1 h0]
      rfl
    · have hhalf : (v.shr 1).toNat = v.toNat / 2 := by rw [UInt128.toNat_shr, pow_one]
      rw [ih (by rw [hhalf]; omega), hhalf, ← size_succ fun h => h0 (hzero.2 h)]

/-- **The widths are those of the numbers.** -/
theorem wordBitsForCount_eq (count : UInt128) :
    wordBitsForCount count = bitsForCount count.toNat := by
  have hone : (UInt128.ofWord 1).toNat = 1 := UInt128.toNat_ofWord 1
  have hlt := count.toNat_lt
  unfold wordBitsForCount bitsForCount
  by_cases h : count.toNat ≤ 1
  · rw [if_pos ((UInt128.le_iff _ _).2 (by rwa [hone])), if_pos h]
  · rw [if_neg fun hle => h (hone ▸ (UInt128.le_iff _ _).1 hle), if_neg h,
      bitWidth_eq (by rw [UInt128.toNat_sub _ _ (by omega)]; omega),
      UInt128.toNat_sub _ _ (by omega), hone]

/-- **The traits of a shape** come out in words as in numbers. -/
theorem traits_words (S : Shape) :
    S.gridWord.productFitsUint64 = true ∧ S.chunkWord.productFitsUint64 = true ∧
      S.gridWord.preciseProduct.toNat = S.chunkCount ∧
      S.chunkWord.preciseProduct.toNat = S.localTileCount ∧
      wordBitsForCount S.gridWord.preciseProduct = S.chunkBits ∧
      wordBitsForCount S.chunkWord.preciseProduct = S.localBits := by
  have hgrid := toNat_preciseProduct S.stands_gridWord S.chunkGrid_valid S.chunk_count_fits
  have hchunk := toNat_preciseProduct S.stands_chunkWord S.chunk_valid S.local_count_fits
  refine ⟨(productFitsUint64_iff S.stands_gridWord S.chunkGrid_valid).2 S.chunk_count_fits,
    (productFitsUint64_iff S.stands_chunkWord S.chunk_valid).2 S.local_count_fits, hgrid, hchunk,
    ?_, ?_⟩
  · rw [wordBitsForCount_eq, hgrid]
    rfl
  · rw [wordBitsForCount_eq, hchunk]
    rfl

/-! ### Packed keys -/

theorem localBits_lt : S.localBits < 64 := by
  have h : S.localTileCount < 2 ^ 64 := S.local_count_fits
  rw [localTileCount_eq_two_pow] at h
  exact (Nat.pow_lt_pow_iff_right (by decide)).1 h

/-- The key is stored in the word or the pair of words that its width asks for. -/
def Stored (S : Shape) : TileKeyWord → Prop
  | .u64 _ => S.tileKeyBits ≤ 64
  | .u128 _ => ¬ S.tileKeyBits ≤ 64

/-- The low word of a pair holds a number that fits it. -/
theorem toNat_lo {v : UInt128} (h : v.toNat < 2 ^ 64) : v.lo.toNat = v.toNat := by
  unfold UInt128.toNat at h ⊢
  omega

/-- **Encoding** has no undefined shift and gives the key of the numbers. -/
theorem exists_wordTileKey {c : Coord3} (h : S.contains c = true) :
    ∃ key, S.wordTileKey c = some key ∧ S.Stored key ∧ key.toNat = S.tileKey c := by
  have hid := toNat_wordLocalTileId h
  have hchunk := toNat_wordChunkKey h
  have hlb := S.localBits_lt
  unfold wordTileKey
  by_cases hbits : S.tileKeyBits ≤ 64
  · by_cases h0 : S.chunkBits = 0
    · refine ⟨_, by rw [if_pos hbits, if_pos h0], by simpa [Stored] using hbits, ?_⟩
      rw [TileKeyWord.toNat, hid, tileKey, if_pos h0]
    · refine ⟨_, by rw [if_pos hbits, if_neg h0, shiftLeftWord, if_pos hlb]; rfl, by simpa [Stored] using hbits, ?_⟩
      have hlt : S.chunkKey (S.chunkCoord c) <<< S.localBits < 2 ^ 64 := by
        rw [Nat.shiftLeft_eq]
        calc S.chunkKey (S.chunkCoord c) * 2 ^ S.localBits
            < 2 ^ S.chunkBits * 2 ^ S.localBits :=
              Nat.mul_lt_mul_of_pos_right
                ((chunkKey_lt h).trans_le (le_two_pow_bitsForCount _)) (Nat.two_pow_pos _)
          _ = 2 ^ S.tileKeyBits := by rw [← Nat.pow_add, Nat.add_comm, tileKeyBits]
          _ ≤ 2 ^ 64 := Nat.pow_le_pow_right (by decide) hbits
      rw [TileKeyWord.toNat, BitVec.toNat_or, BitVec.toNat_shiftLeft, hid, hchunk,
        Nat.mod_eq_of_lt hlt, tileKey, if_neg h0]
  · by_cases h0 : S.chunkBits = 0
    · refine ⟨_, by rw [if_neg hbits, if_pos h0], by simpa [Stored] using hbits, ?_⟩
      rw [TileKeyWord.toNat, UInt128.toNat_ofWord, hid, tileKey, if_pos h0]
    · refine ⟨_, by rw [if_neg hbits, if_neg h0], by simpa [Stored] using hbits, ?_⟩
      have hword := (S.wordChunkKey (S.wordChunkCoord c)).isLt
      have hlt : S.chunkKey (S.chunkCoord c) * 2 ^ S.localBits < 2 ^ 128 := by
        rw [hchunk] at hword
        calc S.chunkKey (S.chunkCoord c) * 2 ^ S.localBits < 2 ^ 64 * 2 ^ S.localBits :=
              Nat.mul_lt_mul_of_pos_right hword (Nat.two_pow_pos _)
          _ ≤ 2 ^ 64 * 2 ^ 64 :=
              Nat.mul_le_mul_left _ (Nat.pow_le_pow_right (by decide) hlb.le)
          _ = 2 ^ 128 := by decide
      rw [TileKeyWord.toNat, UInt128.toNat_or, UInt128.toNat_shl, UInt128.toNat_ofWord,
        UInt128.toNat_ofWord, hid, hchunk, Nat.mod_eq_of_lt hlt, tileKey, if_neg h0,
        Nat.shiftLeft_eq]

/-- **Decoding the chunk** of a key has no undefined shift. -/
theorem exists_keyChunkWord {key : TileKeyWord} (hkey : key.toNat < S.tileCount) :
    ∃ chunk, S.keyChunkWord key = some chunk ∧ chunk.toNat = S.keyChunk key.toNat := by
  have hlt := (keyChunk_lt hkey).trans S.chunk_count_fits
  unfold keyChunkWord keyChunk at *
  by_cases h0 : S.chunkBits = 0
  · exact ⟨0, by rw [if_pos h0], by rw [if_pos h0]; rfl⟩
  · rw [if_neg h0] at hlt
    rw [if_neg h0]
    cases key with
    | u64 value =>
      refine ⟨_, if_pos S.localBits_lt, ?_⟩
      rw [if_neg h0]
      exact BitVec.toNat_ushiftRight ..
    | u128 value =>
      have hshr : (value.shr S.localBits).toNat = (TileKeyWord.u128 value).toNat >>> S.localBits :=
        by rw [UInt128.toNat_shr, Nat.shiftRight_eq_div_pow, TileKeyWord.toNat]
      refine ⟨_, rfl, ?_⟩
      rw [toNat_lo (by rw [hshr]; exact hlt), hshr, if_neg h0]

/-- **Decoding the local identifier** of a key has no undefined shift. -/
theorem exists_keyLocalWord (key : TileKeyWord) :
    ∃ id, S.keyLocalWord key = some id ∧ id.toNat = S.keyLocal key.toNat := by
  have hlb := S.localBits_lt
  have hlt : S.keyLocal key.toNat < 2 ^ 64 := (keyLocal_lt _).trans S.local_count_fits
  have hpow : 2 ^ S.localBits < 2 ^ 64 := Nat.pow_lt_pow_right (by decide) hlb
  have hpos := Nat.two_pow_pos S.localBits
  unfold keyLocalWord keyLocal at *
  cases key with
  | u64 value =>
    have hone : ((1 : BitVec 64) <<< S.localBits).toNat = 2 ^ S.localBits := by
      have h1 : (1 : BitVec 64).toNat = 1 := rfl
      rw [BitVec.toNat_shiftLeft, Nat.shiftLeft_eq, h1, Nat.one_mul, Nat.mod_eq_of_lt hpow]
    refine ⟨value &&& ((1 : BitVec 64) <<< S.localBits - 1), ?_, ?_⟩
    · simp [shiftLeftWord, hlb, hlb.ne]
    · rw [BitVec.toNat_and, BitVec.toNat_sub, hone, TileKeyWord.toNat]
      have h1 : (1 : BitVec 64).toNat = 1 := rfl
      rw [h1]
      congr 1
      omega
  | u128 value =>
    have hone : ((UInt128.ofWord 1).shl S.localBits).toNat = 2 ^ S.localBits := by
      have h1 : (1 : BitVec 64).toNat = 1 := rfl
      rw [UInt128.toNat_shl, UInt128.toNat_ofWord, h1, Nat.one_mul]
      exact Nat.mod_eq_of_lt (by omega)
    have hmask : (((UInt128.ofWord 1).shl S.localBits).sub (.ofWord 1)).toNat =
        2 ^ S.localBits - 1 := by
      have h1 : (UInt128.ofWord 1).toNat = 1 := UInt128.toNat_ofWord 1
      rw [UInt128.toNat_sub _ _ (by rw [hone, h1]; exact hpos), hone, h1]
    refine ⟨_, rfl, ?_⟩
    rw [if_neg hlb.ne]
    have hand : (value.and (((UInt128.ofWord 1).shl S.localBits).sub (.ofWord 1))).toNat =
        (TileKeyWord.u128 value).toNat &&& (2 ^ S.localBits - 1) := by
      rw [UInt128.toNat_and, hmask, TileKeyWord.toNat]
    rw [toNat_lo (by rw [hand]; exact hlt), hand]

/-- **Packed keys are exact**: every contained tile has a key, distinct tiles have distinct keys,
the key decodes to the chunk, the local identifier and the coordinate it was made from, chunk keys
decode to their chunk coordinates, and no word has wrapped on the way. -/
theorem packed_keys_exact (S : Shape) :
    (∀ c d, S.contains c = true → S.contains d = true → S.wordTileKey c = S.wordTileKey d →
      c = d) ∧
    (∀ c, S.contains c = true → ∃ key, S.wordTileKey c = some key ∧ S.Stored key ∧
      S.keyCoordWord key = some c ∧
      S.keyChunkWord key = some (S.wordChunkKey (S.wordChunkCoord c)) ∧
      S.keyLocalWord key = some (S.wordLocalTileId (S.wordLocalCoord c)) ∧
      key.toNat = S.tileKey c ∧
      (S.wordChunkKey (S.wordChunkCoord c)).toNat = S.chunkKey (S.chunkCoord c) ∧
      (S.wordLocalTileId (S.wordLocalCoord c)).toNat = S.localTileId (S.localCoord c)) ∧
    ∀ g : WordCoord3, S.chunkGrid.Has g.toGrid → S.chunkCoordWord (S.wordChunkKey g) = g := by
  refine ⟨fun c d hc hd heq => ?_, fun c hc => ?_, fun g hg => chunkCoordWord_wordChunkKey hg⟩
  · obtain ⟨key, hkey, -, hnat⟩ := exists_wordTileKey hc
    obtain ⟨key', hkey', -, hnat'⟩ := exists_wordTileKey hd
    rw [hkey, hkey', Option.some.injEq] at heq
    exact tileKey_inj hc hd (by rw [← hnat, ← hnat', heq])
  · obtain ⟨key, hkey, hstored, hnat⟩ := exists_wordTileKey hc
    obtain ⟨chunk, hchunk, hchunkNat⟩ := exists_keyChunkWord (hnat ▸ tileKey_lt hc)
    obtain ⟨id, hid, hidNat⟩ := exists_keyLocalWord (S := S) key
    have hc' := toNat_wordChunkKey hc
    have hl' := toNat_wordLocalTileId hc
    rw [hnat, keyChunk_tileKey hc, ← hc'] at hchunkNat
    rw [hnat, keyLocal_tileKey hc, ← hl'] at hidNat
    obtain rfl := BitVec.eq_of_toNat_eq hchunkNat
    obtain rfl := BitVec.eq_of_toNat_eq hidNat
    refine ⟨key, hkey, hstored, ?_, hchunk, hid, hnat, hc', hl'⟩
    have hgrid : S.chunkGrid.Has (S.wordChunkCoord c).toGrid := by
      rw [toGrid_wordChunkCoord hc]
      exact has_chunkCoord hc
    simp only [keyCoordWord, hchunk, hid]
    rw [chunkCoordWord_wordChunkKey hgrid, coordWord_eq hc]

end Shape

end Tess
