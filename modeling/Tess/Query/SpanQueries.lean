import Tess.Query.SpanRows

/-!
# What the span queries cover

Every query emits the rows of its tiles, and no operation on the way overflows.

* `BoxTiles`, `DiscTiles`, `ChunkTiles` : the tiles that are asked for;
* `forEachBoxSpan_eq`, `forEachRadiusSpan_eq`, `forEachChunkSpan_eq` : the rows that are emitted;
* `spanQueries_cover` : **all three queries cover their tiles**, for every shape, box, centre and
  radius.
-/

namespace Tess

/-- The coordinate fits signed 64-bit components. -/
def Coord3.FitsInt64 (c : Coord3) : Prop := ∀ a, -2 ^ 63 ≤ c.get a ∧ c.get a < 2 ^ 63

/-- The extent fits unsigned 64-bit components. -/
def Extent3.FitsUint64 (e : Extent3) : Prop := ∀ a, e.get a < 2 ^ 64

/-- The tiles of a box in the world. -/
def BoxTiles (S : Shape) (box : Box3) (t : Coord3) : Prop := S.contains t = true ∧ box.Has t

/-- The tiles of the world within a Euclidean radius. -/
def DiscTiles (S : Shape) (center : Coord3) (radius : ℕ) (t : Coord3) : Prop :=
  S.contains t = true ∧
    (t.x - center.x) ^ 2 + (t.y - center.y) ^ 2 + (t.z - center.z) ^ 2 ≤ (radius : ℤ) ^ 2

/-- The tiles of a chunk whose place in the chunk lies in the box. -/
def ChunkTiles (S : Shape) (key : ℕ) (localBox : Box3) (t : Coord3) : Prop :=
  key < S.chunkCount ∧ S.contains t = true ∧ S.chunkKey (S.chunkCoord t) = key ∧
    localBox.Has ⟨(S.localCoord t).x, (S.localCoord t).y, (S.localCoord t).z⟩

open ClippedAxis

/-! ### Boxes -/

section Boxes

variable {S : Shape} {box : Box3} {spans : List TileSpan} {x y z : ClippedAxis}
  {row : ℤ → ℤ → ClippedAxis}

theorem outputOf_nil : outputOf [] = {} := by
  simp [outputOf]

theorem rowRuns_nil {worldY worldZ : ℤ} (h : x.count = 0) : rowRuns worldY worldZ x = [] := by
  rw [rowRuns, h, xRuns]

/-- An empty axis has no runs. -/
theorem rowSpans_nil (h : x.count = 0 ∨ y.count = 0 ∨ z.count = 0) :
    rowSpans y z (fun _ _ => x) = [] := by
  rw [rowSpans, List.flatMap_eq_nil_iff]
  intro dz hdz
  rw [List.flatMap_eq_nil_iff]
  intro dy hdy
  rw [List.mem_range] at hdz hdy
  rcases h with h | h | h
  · exact rowRuns_nil h
  · omega
  · omega

/-- The two loops of a box, with whatever body emits its row. -/
theorem forOffsets_rows {body : ℕ → ℕ → SpanOutput → Option SpanOutput}
    (h : ∀ dz < z.count, ∀ dy < y.count, ∀ spans,
      body dz dy (outputOf spans) = some (outputOf (spans ++
        rowRuns (y.origin + dy) (z.origin + dz) (row (y.origin + dy) (z.origin + dz))))) :
    forOffsets z.count (fun dz => forOffsets y.count (body dz)) {} =
      some (outputOf (rowSpans y z row)) := by
  rw [← outputOf_nil, forOffsets_eq fun dz hdz spans => forOffsets_eq (h dz hdz), List.nil_append,
    rowSpans]

theorem emitBox_eq (hx : 0 ≤ x.origin ∧ x.origin + x.count < 2 ^ 63)
    (hy : 0 ≤ y.origin ∧ y.origin + y.count < 2 ^ 63)
    (hz : 0 ≤ z.origin ∧ z.origin + z.count < 2 ^ 63) :
    emitBox x y z = some (outputOf (rowSpans y z fun _ _ => x)) := by
  rw [emitBox]
  split_ifs with hempty
  · rw [rowSpans_nil hempty, outputOf_nil]
  · refine forOffsets_rows fun dz hdz dy hdy spans => ?_
    rw [axisPlace_eq hy.1 (by omega), Option.bind_some, axisPlace_eq hz.1 (by omega),
      Option.bind_some]
    exact emitXRuns_eq (by omega) hx.2 (by omega)

/-- An axis clipped to the world fits coordinates. -/
theorem clip_fits {origin : ℤ} {extent limit : ℕ} (hl : limit < 2 ^ 63) :
    0 ≤ (clip origin extent limit).origin ∧
      (clip origin extent limit).origin + (clip origin extent limit).count < 2 ^ 63 := by
  have h := @clip_bounds origin extent limit
  omega

/-- **A box** emits its rows. -/
theorem forEachBoxSpan_eq (S : Shape) (ho : box.origin.FitsInt64) (he : box.extent.FitsUint64) :
    forEachBoxSpan S box =
      some (outputOf (rowSpans (clip box.origin.y box.extent.y S.size.y)
        (clip box.origin.z box.extent.z S.size.z)
        fun _ _ => clip box.origin.x box.extent.x S.size.x)) := by
  obtain ⟨fx, fy, fz⟩ := S.axis_fits
  have hx := ho .x
  have hy := ho .y
  have hz := ho .z
  have ex := he .x
  have ey := he .y
  have ez := he .z
  simp only [Coord3.get, Extent3.get] at hx hy hz ex ey ez
  rw [forEachBoxSpan, clipAxis_eq hx.1 hx.2 ex fx, Option.bind_some,
    clipAxis_eq hy.1 hy.2 ey fy, Option.bind_some, clipAxis_eq hz.1 hz.2 ez fz, Option.bind_some]
  exact emitBox_eq (clip_fits fx) (clip_fits fy) (clip_fits fz)

theorem boxTiles_iff (t : Coord3) : BoxTiles S box t ↔
    (clip box.origin.y box.extent.y S.size.y).Has t.y ∧
      (clip box.origin.z box.extent.z S.size.z).Has t.z ∧
      (clip box.origin.x box.extent.x S.size.x).Has t.x := by
  rw [has_clip, has_clip, has_clip, BoxTiles, Shape.contains_iff, Box3.Has]
  constructor
  · rintro ⟨⟨hx, hy, hz⟩, hbox⟩
    exact ⟨⟨hbox .y, hy⟩, ⟨hbox .z, hz⟩, hbox .x, hx⟩
  · rintro ⟨⟨by', hy⟩, ⟨bz, hz⟩, bx, hx⟩
    refine ⟨⟨hx, hy, hz⟩, fun a => ?_⟩
    cases a
    · exact bx
    · exact by'
    · exact bz

end Boxes

/-! ### Discs -/

section Discs

variable {S : Shape} {center : Coord3} {radius : ℕ} {guess : ℕ → ℕ}

/-- The row of a disc. -/
def discRow (S : Shape) (center : Coord3) (radius : ℕ) (worldY worldZ : ℤ) : ClippedAxis :=
  let dy := (center.y - worldY).natAbs
  let dz := (center.z - worldZ).natAbs
  if dz * dz + dy * dy ≤ radius * radius then
    let half := Nat.sqrt (radius * radius - dz * dz - dy * dy)
    clip (center.x - half) (half * 2 + 1) S.size.x
  else {}

theorem radiusRow_eq (guess : ℕ → ℕ) (S : Shape) {centerX : ℤ} {value : ℕ}
    (hlow : -2 ^ 63 ≤ centerX) (hhigh : centerX < 2 ^ 63) (hvalue : value < 2 ^ 64) :
    radiusRow guess S centerX value =
      some (clip (centerX - Nat.sqrt value) (Nat.sqrt value * 2 + 1) S.size.x) := by
  have hroot : Nat.sqrt value < 2 ^ 32 := Nat.sqrt_lt.2 (by norm_num; omega)
  rw [radiusRow, integerSqrt_eq guess hvalue, Option.bind_some,
    lowerRadiusBound_eq hlow hhigh hroot, Option.bind_some,
    Checked.u64_eq (n := Nat.sqrt value * 2 + 1) (by push_cast; ring) (by omega),
    Option.bind_some, clipAxis_eq (by omega) (by omega) (by omega) S.axis_fits.1,
    clip_lowerRadiusBound hlow hroot]

theorem mul_self_lt_of_le {a r : ℕ} (ha : a ≤ r) (hr : r < 2 ^ 32) : a * a < 2 ^ 64 := by
  calc a * a ≤ (2 ^ 32 - 1) * (2 ^ 32 - 1) := Nat.mul_le_mul (by omega) (by omega)
    _ < 2 ^ 64 := by norm_num

/-- **One plane of a disc** emits its rows. -/
theorem radiusPlane_eq (hc : center.FitsInt64) (hr : radius < 2 ^ 32) {y : ClippedAxis}
    (hy : 0 ≤ y.origin ∧ y.origin + y.count < 2 ^ 63) {worldZ : ℤ}
    (hdz : (center.z - worldZ).natAbs ≤ radius) (spans : List TileSpan) :
    radiusPlane guess S center radius (radius * radius) y worldZ
        ((center.z - worldZ).natAbs * (center.z - worldZ).natAbs) (outputOf spans) =
      some (outputOf (spans ++ (List.range y.count).flatMap fun (dy : ℕ) =>
        rowRuns (y.origin + dy) worldZ (discRow S center radius (y.origin + dy) worldZ))) := by
  rw [radiusPlane]
  refine forOffsets_eq fun offset hoffset spans => ?_
  set dz := (center.z - worldZ).natAbs with hdzeq
  set worldY := y.origin + (offset : ℤ) with hworld
  set dy := (center.y - worldY).natAbs with hdyeq
  have hrr := mul_self_lt_of_le le_rfl hr
  have hzz : dz * dz ≤ radius * radius := Nat.mul_le_mul hdz hdz
  have habs : absDelta64 center.y worldY = dy :=
    absDelta64_eq (hc .y) ⟨by omega, by omega⟩
  have hx := hc .x
  simp only [Coord3.get] at hx
  rw [axisPlace_eq hy.1 (by omega), Option.bind_some]
  simp only [← hworld, habs]
  rw [discRow]
  simp only [← hdzeq, ← hdyeq]
  by_cases hfar : radius < dy
  · -- too far on the second axis
    have hout : ¬ dz * dz + dy * dy ≤ radius * radius := by nlinarith
    rw [if_pos hfar, if_neg hout, rowRuns_nil rfl, List.append_nil]
  have hyy : dy * dy < 2 ^ 64 := mul_self_lt_of_le (Nat.not_lt.1 hfar) hr
  rw [if_neg hfar, Checked.u64_eq (n := dy * dy) (by push_cast; ring) hyy, Option.bind_some,
    Checked.u64_eq (n := radius * radius - dz * dz) (by omega) (by omega), Option.bind_some]
  by_cases hout : radius * radius - dz * dz < dy * dy
  · rw [if_pos hout, if_neg (by omega), rowRuns_nil rfl, List.append_nil]
  · rw [if_neg hout, if_pos (by omega),
      Checked.u64_eq (n := radius * radius - dz * dz - dy * dy) (by omega) (by omega),
      Option.bind_some, radiusRow_eq guess S hx.1 hx.2 (by omega), Option.bind_some]
    have hfits := @clip_fits (center.x - Nat.sqrt (radius * radius - dz * dz - dy * dy))
      (Nat.sqrt (radius * radius - dz * dz - dy * dy) * 2 + 1) S.size.x S.axis_fits.1
    exact emitXRuns_eq (by omega) hfits.2 (by omega)

/-- **A disc** emits its rows. -/
theorem forEachRadiusSpan_eq (guess : ℕ → ℕ) (S : Shape) (hc : center.FitsInt64)
    (hr : radius < 2 ^ 32) :
    forEachRadiusSpan guess S center radius =
      some (outputOf (rowSpans (clip (center.y - radius) (radius * 2 + 1) S.size.y)
        (clip (center.z - radius) (radius * 2 + 1) S.size.z) (discRow S center radius))) := by
  obtain ⟨fx, fy, fz⟩ := S.axis_fits
  have hx := hc .x
  have hy := hc .y
  have hz := hc .z
  simp only [Coord3.get] at hx hy hz
  rw [forEachRadiusSpan, Checked.u64_eq (n := radius * 2 + 1) (by push_cast; ring) (by omega),
    Option.bind_some, lowerRadiusBound_eq hx.1 hx.2 hr, Option.bind_some,
    lowerRadiusBound_eq hy.1 hy.2 hr, Option.bind_some, lowerRadiusBound_eq hz.1 hz.2 hr,
    Option.bind_some, clipAxis_eq (by omega) (by omega) (by omega) fy, Option.bind_some,
    clipAxis_eq (by omega) (by omega) (by omega) fz, Option.bind_some,
    Checked.u64_eq (n := radius * radius) (by push_cast; ring) (mul_self_lt_of_le le_rfl hr),
    Option.bind_some, clip_lowerRadiusBound hy.1 hr, clip_lowerRadiusBound hz.1 hr]
  have hyfits := @clip_fits (center.y - radius) (radius * 2 + 1) S.size.y fy
  have hzfits := @clip_fits (center.z - radius) (radius * 2 + 1) S.size.z fz
  set y := clip (center.y - radius) (radius * 2 + 1) S.size.y
  set z := clip (center.z - radius) (radius * 2 + 1) S.size.z
  rw [← outputOf_nil, rowSpans]
  refine forOffsets_eq fun offset hoffset spans => ?_
  rw [axisPlace_eq hzfits.1 (by omega), Option.bind_some]
  have habs : absDelta64 center.z (z.origin + offset) = (center.z - (z.origin + offset)).natAbs :=
    absDelta64_eq (hc .z) ⟨by omega, by omega⟩
  simp only [habs]
  by_cases hfar : radius < (center.z - (z.origin + (offset : ℤ))).natAbs
  · -- every row of the plane is empty
    have hrows : ((List.range y.count).flatMap fun (dy : ℕ) =>
        rowRuns (y.origin + dy) (z.origin + offset)
          (discRow S center radius (y.origin + dy) (z.origin + offset))) = [] := by
      rw [List.flatMap_eq_nil_iff]
      intro dy _
      refine rowRuns_nil ?_
      rw [discRow]
      dsimp only
      rw [if_neg (by nlinarith)]
    rw [if_pos hfar, hrows, List.append_nil]
  · rw [if_neg hfar, Checked.u64_eq (by push_cast; ring)
      (mul_self_lt_of_le (Nat.not_lt.1 hfar) hr), Option.bind_some]
    exact radiusPlane_eq hc hr hyfits (Nat.not_lt.1 hfar) spans

theorem natAbs_mul_self_cast (a : ℤ) : ((a.natAbs * a.natAbs : ℕ) : ℤ) = a ^ 2 := by
  rw [Int.natAbs_mul_self, sq]

theorem discTiles_iff (t : Coord3) : DiscTiles S center radius t ↔
    (clip (center.y - radius) (radius * 2 + 1) S.size.y).Has t.y ∧
      (clip (center.z - radius) (radius * 2 + 1) S.size.z).Has t.z ∧
      (discRow S center radius t.y t.z).Has t.x := by
  have hy2 := natAbs_mul_self_cast (t.y - center.y)
  have hz2 := natAbs_mul_self_cast (t.z - center.z)
  have hx2 := natAbs_mul_self_cast (t.x - center.x)
  have hr2 : ((radius * radius : ℕ) : ℤ) = (radius : ℤ) ^ 2 := by push_cast; ring
  have hysym : (center.y - t.y).natAbs = (t.y - center.y).natAbs := by omega
  have hzsym : (center.z - t.z).natAbs = (t.z - center.z).natAbs := by omega
  rw [has_clip_radius, has_clip_radius, discRow, DiscTiles, Shape.contains_iff, hysym, hzsym,
    ← hx2, ← hy2, ← hz2, ← hr2]
  set dy := (t.y - center.y).natAbs
  set dz := (t.z - center.z).natAbs
  dsimp only
  split_ifs with hin
  · -- half of the row is the integer root of what is left of the square
    rw [has_clip_radius, Nat.le_sqrt]
    have hdy : dy ≤ radius := Nat.mul_self_le_mul_self_iff.1 (by omega)
    have hdz : dz ≤ radius := Nat.mul_self_le_mul_self_iff.1 (by omega)
    omega
  · have hnone : ¬ ClippedAxis.Has {} t.x := by
      simp only [ClippedAxis.Has]
      omega
    constructor
    · rintro ⟨-, hle⟩
      have := Nat.zero_le ((t.x - center.x).natAbs * (t.x - center.x).natAbs)
      omega
    · rintro ⟨-, -, h⟩
      exact absurd h hnone

end Discs

/-! ### Parts of a chunk -/

section Chunks

variable {S : Shape} {key : ℕ} {localBox : Box3}

/-- A clipped axis of a chunk, moved to its place in the world. -/
def ClippedAxis.move (base : ℤ) (c : ClippedAxis) : ClippedAxis := ⟨base + c.origin, c.count⟩

theorem has_move {base v : ℤ} {c : ClippedAxis} : (c.move base).Has v ↔ c.Has (v - base) := by
  simp only [ClippedAxis.move, ClippedAxis.Has]
  omega

/-- A chunk of the grid ends within the world. -/
theorem chunk_end_le (hkey : key < S.chunkCount) :
    (S.chunkGrid.unrank key).x * S.chunk.x + S.chunk.x ≤ S.size.x ∧
      (S.chunkGrid.unrank key).y * S.chunk.y + S.chunk.y ≤ S.size.y ∧
      (S.chunkGrid.unrank key).z * S.chunk.z + S.chunk.z ≤ S.size.z := by
  obtain ⟨gx, gy, gz⟩ := S.chunkGrid_mul
  obtain ⟨hx, hy, hz⟩ := Extent3.has_unrank hkey
  have step {q n d : ℕ} (hq : q < n) : q * d + d ≤ n * d := by
    calc q * d + d = (q + 1) * d := by ring
      _ ≤ n * d := Nat.mul_le_mul_right d hq
  exact ⟨gx ▸ step hx, gy ▸ step hy, gz ▸ step hz⟩

/-- **A part of a chunk** emits its rows. -/
theorem forEachChunkSpan_eq (ho : localBox.origin.FitsInt64) (he : localBox.extent.FitsUint64)
    (hkey : key < S.chunkCount) :
    forEachChunkSpan S key localBox =
      some (outputOf (rowSpans
        ((clip localBox.origin.y localBox.extent.y S.chunk.y).move
          ((S.chunkGrid.unrank key).y * S.chunk.y))
        ((clip localBox.origin.z localBox.extent.z S.chunk.z).move
          ((S.chunkGrid.unrank key).z * S.chunk.z))
        fun _ _ => (clip localBox.origin.x localBox.extent.x S.chunk.x).move
          ((S.chunkGrid.unrank key).x * S.chunk.x))) := by
  obtain ⟨fx, fy, fz⟩ := S.axis_fits
  obtain ⟨cx, cy, cz⟩ := chunk_end_le hkey
  have hx := ho .x
  have hy := ho .y
  have hz := ho .z
  have ex := he .x
  have ey := he .y
  have ez := he .z
  simp only [Coord3.get, Extent3.get] at hx hy hz ex ey ez
  rw [forEachChunkSpan, if_neg (Nat.not_le.2 hkey)]
  simp only [← Nat.cast_mul]
  generalize (S.chunkGrid.unrank key).x * S.chunk.x = baseX at *
  generalize (S.chunkGrid.unrank key).y * S.chunk.y = baseY at *
  generalize (S.chunkGrid.unrank key).z * S.chunk.z = baseZ at *
  rw [Checked.i64_eq (by omega) (by omega), Option.bind_some,
    Checked.i64_eq (by omega) (by omega), Option.bind_some,
    Checked.i64_eq (by omega) (by omega), Option.bind_some,
    clipAxis_eq hx.1 hx.2 ex (by omega), Option.bind_some,
    clipAxis_eq hy.1 hy.2 ey (by omega), Option.bind_some,
    clipAxis_eq hz.1 hz.2 ez (by omega), Option.bind_some]
  have bx := @clip_bounds localBox.origin.x localBox.extent.x S.chunk.x
  have by' := @clip_bounds localBox.origin.y localBox.extent.y S.chunk.y
  have bz := @clip_bounds localBox.origin.z localBox.extent.z S.chunk.z
  generalize clip localBox.origin.x localBox.extent.x S.chunk.x = x at *
  generalize clip localBox.origin.y localBox.extent.y S.chunk.y = y at *
  generalize clip localBox.origin.z localBox.extent.z S.chunk.z = z at *
  split_ifs with hempty
  · have hnil : rowSpans (y.move baseY) (z.move baseZ) (fun _ _ => x.move baseX) = [] :=
      rowSpans_nil hempty
    rw [hnil, outputOf_nil]
  · refine forOffsets_rows (y := y.move baseY) (z := z.move baseZ) fun dz hdz dy hdy spans => ?_
    simp only [ClippedAxis.move] at hdz hdy ⊢
    rw [chunkPlace, Checked.i64_eq (by omega) (by omega), Option.bind_some, chunkPlace,
      Checked.i64_eq (by omega) (by omega), Option.bind_some,
      axisPlace_eq (by omega) (by omega), Option.bind_some, chunkPlace,
      Checked.i64_eq (by omega) (by omega), Option.bind_some,
      axisPlace_eq (by omega) (by omega), Option.bind_some]
    exact emitXRuns_eq (by omega) (by omega) (by omega)

/-- A place of the world in a chunk, and its place in the chunk. -/
theorem chunk_axis {v : ℤ} {q c : ℕ} (hc : 0 < c) (hv : 0 ≤ v) :
    (v.toNat / c = q ↔ 0 ≤ v - (q * c : ℕ) ∧ v - (q * c : ℕ) < c) ∧
      (v.toNat / c = q → ((v.toNat % c : ℕ) : ℤ) = v - (q * c : ℕ)) := by
  obtain ⟨n, rfl⟩ := Int.eq_ofNat_of_zero_le hv
  have hdiv := Nat.div_add_mod n c
  have hmod := Nat.mod_lt n hc
  rw [Int.toNat_natCast]
  refine ⟨⟨?_, fun h => ?_⟩, ?_⟩
  · rintro rfl
    rw [Nat.mul_comm]
    omega
  · rw [Nat.div_eq_iff hc]
    have : q * c ≤ n := by omega
    omega
  · rintro rfl
    rw [Nat.mul_comm]
    omega

theorem chunkTiles_iff (hkey : key < S.chunkCount) (t : Coord3) : ChunkTiles S key localBox t ↔
    ((clip localBox.origin.y localBox.extent.y S.chunk.y).move
        ((S.chunkGrid.unrank key).y * S.chunk.y)).Has t.y ∧
      ((clip localBox.origin.z localBox.extent.z S.chunk.z).move
        ((S.chunkGrid.unrank key).z * S.chunk.z)).Has t.z ∧
      ((clip localBox.origin.x localBox.extent.x S.chunk.x).move
        ((S.chunkGrid.unrank key).x * S.chunk.x)).Has t.x := by
  obtain ⟨cx, cy, cz⟩ := chunk_end_le hkey
  obtain ⟨px, py, pz⟩ := S.chunk_valid
  simp only [has_move, has_clip, ← Nat.cast_mul]
  have hgrid (hin : S.contains t = true) : S.chunkKey (S.chunkCoord t) = key ↔
      t.x.toNat / S.chunk.x = (S.chunkGrid.unrank key).x ∧
        t.y.toNat / S.chunk.y = (S.chunkGrid.unrank key).y ∧
        t.z.toNat / S.chunk.z = (S.chunkGrid.unrank key).z := by
    constructor
    · rintro rfl
      rw [Shape.chunkKey, Extent3.unrank_rank (Shape.has_chunkCoord hin)]
      exact ⟨rfl, rfl, rfl⟩
    · rintro ⟨hx, hy, hz⟩
      have heq : S.chunkCoord t = S.chunkGrid.unrank key := GridCoord3.ext hx hy hz
      rw [Shape.chunkKey, heq, Extent3.rank_unrank]
  constructor
  · rintro ⟨-, hin, hk, hbox⟩
    obtain ⟨kx, ky, kz⟩ := (hgrid hin).1 hk
    obtain ⟨⟨ix, -⟩, ⟨iy, -⟩, iz, -⟩ := Shape.contains_iff.1 hin
    have lx := (chunk_axis px ix).2 kx
    have ly := (chunk_axis py iy).2 ky
    have lz := (chunk_axis pz iz).2 kz
    have hx := hbox .x
    have hy := hbox .y
    have hz := hbox .z
    simp only [Coord3.get, Extent3.get, Shape.localCoord, lx, ly, lz] at hx hy hz
    exact ⟨⟨hy, ((chunk_axis py iy).1).1 ky⟩, ⟨hz, ((chunk_axis pz iz).1).1 kz⟩, hx,
      ((chunk_axis px ix).1).1 kx⟩
  · rintro ⟨⟨hy, ky⟩, ⟨hz, kz⟩, hx, kx⟩
    have hin : S.contains t = true := Shape.contains_iff.2 (by omega)
    obtain ⟨⟨ix, -⟩, ⟨iy, -⟩, iz, -⟩ := Shape.contains_iff.1 hin
    have kx := ((chunk_axis px ix).1).2 kx
    have ky := ((chunk_axis py iy).1).2 ky
    have kz := ((chunk_axis pz iz).1).2 kz
    have lx := (chunk_axis px ix).2 kx
    have ly := (chunk_axis py iy).2 ky
    have lz := (chunk_axis pz iz).2 kz
    refine ⟨hkey, hin, (hgrid hin).2 ⟨kx, ky, kz⟩, fun a => ?_⟩
    cases a
    · simpa only [Coord3.get, Extent3.get, Shape.localCoord, lx] using hx
    · simpa only [Coord3.get, Extent3.get, Shape.localCoord, ly] using hy
    · simpa only [Coord3.get, Extent3.get, Shape.localCoord, lz] using hz

end Chunks

/-! ### All queries -/

section Queries

variable {S : Shape} {box : Box3} {center : Coord3} {radius key : ℕ} {guess : ℕ → ℕ}

theorem covers_nil {tiles : Coord3 → Prop} (h : ∀ t, ¬ tiles t) : Covers S tiles {} where
  exact := by simp [h]
  inside := by simp
  length := by simp
  ordered := List.Pairwise.nil
  disjoint := List.Pairwise.nil
  tiles_eq := by simp
  spans_eq := by simp

/-- **The span queries**: for every shape, box, chunk, centre and radius, whatever the floating-point
root gives, no operation overflows, and the runs that are emitted are disjoint, in order, in the
world, cover exactly the tiles that are asked for, fit 32 bits and are counted. -/
theorem spanQueries_cover (S : Shape) (guess : ℕ → ℕ) (key : ℕ) (hbox : box.origin.FitsInt64)
    (hextent : box.extent.FitsUint64) (hcenter : center.FitsInt64) (hradius : radius < 2 ^ 32) :
    (∃ out, forEachRadiusSpan guess S center radius = some out ∧
      Covers S (DiscTiles S center radius) out) ∧
    (∃ out, forEachBoxSpan S box = some out ∧ Covers S (BoxTiles S box) out) ∧
    (∃ out, forEachChunkSpan S key box = some out ∧ Covers S (ChunkTiles S key box) out) := by
  refine ⟨⟨_, forEachRadiusSpan_eq guess S hcenter hradius, ?_⟩,
    ⟨_, forEachBoxSpan_eq S hbox hextent, ?_⟩, ?_⟩
  · exact covers_rowSpans discTiles_iff fun t ht => ht.1
  · exact covers_rowSpans boxTiles_iff fun t ht => ht.1
  · by_cases hkey : key < S.chunkCount
    · exact ⟨_, forEachChunkSpan_eq hbox hextent hkey,
        covers_rowSpans (chunkTiles_iff hkey) fun t ht => ht.2.1⟩
    · refine ⟨{}, ?_, covers_nil fun t ht => hkey ht.1⟩
      rw [forEachChunkSpan, if_pos (Nat.not_lt.1 hkey)]

/-- A centre at the ends of the coordinates with the largest radius, and a box of the largest
extent. -/
theorem spanQueries_cover_extreme :
    (∃ out, forEachRadiusSpan (fun _ => 0) twoCells ⟨-2 ^ 63, 2 ^ 63 - 1, 0⟩ (2 ^ 32 - 1) =
        some out ∧ Covers twoCells (DiscTiles twoCells ⟨-2 ^ 63, 2 ^ 63 - 1, 0⟩ (2 ^ 32 - 1)) out) ∧
    (∃ out, forEachBoxSpan twoCells
        ⟨⟨-2 ^ 63, -1, 0⟩, ⟨2 ^ 64 - 1, 2 ^ 64 - 1, 2 ^ 64 - 1⟩⟩ = some out ∧
      Covers twoCells (BoxTiles twoCells
        ⟨⟨-2 ^ 63, -1, 0⟩, ⟨2 ^ 64 - 1, 2 ^ 64 - 1, 2 ^ 64 - 1⟩⟩) out) ∧
    (∃ out, forEachChunkSpan twoCells 0
        ⟨⟨-2 ^ 63, -1, 0⟩, ⟨2 ^ 64 - 1, 2 ^ 64 - 1, 2 ^ 64 - 1⟩⟩ = some out ∧
      Covers twoCells (ChunkTiles twoCells 0
        ⟨⟨-2 ^ 63, -1, 0⟩, ⟨2 ^ 64 - 1, 2 ^ 64 - 1, 2 ^ 64 - 1⟩⟩) out) :=
  spanQueries_cover twoCells (fun _ => 0) 0 (fun a => by cases a <;> decide)
    (fun a => by cases a <;> decide) (fun a => by cases a <;> decide) (by decide)

end Queries

end Tess
