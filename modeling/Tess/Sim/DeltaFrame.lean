import Tess.Storage.Dirty
import Mathlib.Data.List.Range

/-!
# Delta frames

A `DeltaCollector` turns the dirty marks of a world into invalidation records, which it
publishes in frames.  Collecting clears the marks it has recorded; a baseline records every
chunk and drops the records that were pending.

* `collectTileDeltas`, `collectBaseline`, `DeltaCollector.publish`, `DeltaCollector.clear` : the
  operations;
* `Accounted` : what may have become of a mark;
* `delta_accounted` : **no mark is lost** in a run, but to a baseline that superseded its record.
-/

namespace Tess

/-! ### Records and frames -/

/-- Invalidation of tiles of one chunk. -/
structure TileChunkDelta where
  /-- The chunk. -/
  chunkKey : ℕ
  /-- Dirty bits. -/
  dirtyMask : BitVec 32
  /-- Content version when the marks were observed. -/
  contentVersion : ℕ
  /-- Box of the invalidated tiles. -/
  bounds : Box3
  /-- First tile record, when tiles are listed. -/
  firstTile : ℕ := 0
  /-- Number of tile records; zero for a box record. -/
  tileCount : ℕ := 0
  deriving DecidableEq

/-- Invalidation of one tile. -/
structure TileDelta where
  /-- The tile. -/
  coord : Coord3
  /-- Identifier in its chunk. -/
  localTileId : ℕ
  /-- Dirty bits. -/
  dirtyMask : BitVec 32
  deriving DecidableEq

/-- A published frame. -/
structure DeltaFrame where
  /-- Version the frame applies to. -/
  fromVersion : ℕ
  /-- Version it leads to. -/
  toVersion : ℕ
  /-- Union of the collected masks. -/
  dirtyMask : BitVec 32
  /-- The frame repaints the world. -/
  baseline : Bool
  /-- The frame is not applicable. -/
  truncated : Bool
  /-- Chunk records. -/
  chunks : List TileChunkDelta
  /-- Tile records. -/
  tiles : List TileDelta
  deriving DecidableEq

/-- The accumulator and publisher of frames. -/
structure DeltaCollector where
  /-- Chunks of at most this many tiles are listed tile by tile. -/
  sparseTileThreshold : ℕ := 64
  /-- Version of the last frame; zero is reserved for fresh consumers. -/
  version : ℕ := 1
  /-- Capacity of the pending chunk records. -/
  pendingChunkCapacity : ℕ := 0
  /-- Capacity of the published chunk records. -/
  publishedChunkCapacity : ℕ := 0
  /-- Capacity of the pending tile records. -/
  pendingTileCapacity : ℕ := 0
  /-- Capacity of the published tile records. -/
  publishedTileCapacity : ℕ := 0
  /-- Pending chunk records. -/
  pendingChunks : List TileChunkDelta := []
  /-- Pending tile records. -/
  pendingTiles : List TileDelta := []
  /-- Union of the collected masks. -/
  pendingDirtyMask : BitVec 32 := 0
  /-- A record did not fit. -/
  pendingTruncated : Bool := false
  /-- The pending frame is a baseline. -/
  baselinePending : Bool := false
  /-- Records were dropped by a reset. -/
  needsBaseline : Bool := false
  /-- The collector was moved from. -/
  movedFrom : Bool := false

namespace DeltaCollector

variable (c : DeltaCollector)

/-- `append_chunk_record`; the flag tells whether the record was kept. -/
def appendChunkRecord (record : TileChunkDelta) : DeltaCollector × Bool :=
  if c.pendingChunks.length = c.pendingChunkCapacity then
    ({ c with pendingTruncated := true }, false)
  else ({ c with pendingChunks := c.pendingChunks ++ [record] }, true)

/-- `append_tile_record`, for the tiles of a chunk in turn until one does not fit. -/
def appendTileRecords : List TileDelta → DeltaCollector → DeltaCollector × Bool
  | [], c => (c, true)
  | tile :: tiles, c =>
    if c.pendingTiles.length = c.pendingTileCapacity then (c, false)
    else appendTileRecords tiles { c with pendingTiles := c.pendingTiles ++ [tile] }

/-- `note_collected_mask`. -/
def noteCollectedMask (mask : BitVec 32) : DeltaCollector :=
  { c with pendingDirtyMask := c.pendingDirtyMask ||| mask }

/-- `drop_pending_tile_state`. -/
def dropPendingTileState : DeltaCollector :=
  { c with pendingChunks := [], pendingTiles := [], pendingTruncated := false }

/-- The frame that `publish` returns. -/
def frame : DeltaFrame :=
  let stateCarrying := !c.pendingChunks.isEmpty || !c.pendingTiles.isEmpty ||
    c.baselinePending || c.pendingTruncated || c.needsBaseline || c.movedFrom
  { fromVersion := c.version
    toVersion := if stateCarrying then c.version + 1 else c.version
    dirtyMask := c.pendingDirtyMask
    baseline := c.baselinePending
    truncated := c.pendingTruncated || ((c.needsBaseline || c.movedFrom) && !c.baselinePending)
    chunks := c.pendingChunks
    tiles := c.pendingTiles }

/-- `publish`: the pending buffers trade places with the published ones and start empty. -/
def publish : DeltaCollector :=
  { sparseTileThreshold := c.sparseTileThreshold
    version := c.frame.toVersion
    pendingChunkCapacity := c.publishedChunkCapacity
    publishedChunkCapacity := c.pendingChunkCapacity
    pendingTileCapacity := c.publishedTileCapacity
    publishedTileCapacity := c.pendingTileCapacity
    needsBaseline := c.needsBaseline && !c.baselinePending
    movedFrom := c.movedFrom && !c.baselinePending }

/-- `clear`: the next frame is truncated unless it is a baseline. -/
def clear : DeltaCollector :=
  { c with
    pendingChunks := []
    pendingTiles := []
    pendingDirtyMask := 0
    pendingTruncated := false
    baselinePending := false
    needsBaseline := true }

end DeltaCollector

/-! ### Collecting -/

/-- A world's marks with the collector that clears them. -/
structure DeltaState where
  /-- Marks by chunk key. -/
  marks : ℕ → ChunkDirty := fun _ => {}
  /-- The collector. -/
  collector : DeltaCollector := {}

variable (S : Shape)

/-- The box of a chunk. -/
def chunkBox (key : ℕ) : Box3 :=
  let chunk := S.chunkGrid.unrank key
  ⟨⟨(chunk.x * S.chunk.x : ℕ), (chunk.y * S.chunk.y : ℕ), (chunk.z * S.chunk.z : ℕ)⟩, S.chunk⟩

/-- `detail::saturated_axis_end`. -/
def saturatedAxisEnd (origin : ℤ) (extent : ℕ) : ℤ :=
  if (extent : ℤ) ≥ int64Max then int64Max
  else if origin > int64Max - extent then int64Max else origin + extent

/-- `detail::clip_dirty_bounds_to_chunk`. -/
def clipDirtyBoundsToChunk (key : ℕ) (bounds : Box3) : Box3 :=
  let box := chunkBox S key
  let lo (a : Axis) := max (bounds.origin.get a) (box.origin.get a)
  let hi (a : Axis) := min (saturatedAxisEnd (bounds.origin.get a) (bounds.extent.get a))
    (box.origin.get a + box.extent.get a)
  if lo .x ≥ hi .x ∨ lo .y ≥ hi .y ∨ lo .z ≥ hi .z then box
  else ⟨⟨lo .x, lo .y, lo .z⟩, ⟨(hi .x - lo .x).toNat, (hi .y - lo .y).toNat, (hi .z - lo .z).toNat⟩⟩

/-- Tiles of a box, layer by layer and row by row. -/
def boxCoords (box : Box3) : List Coord3 :=
  (List.range box.extent.z).flatMap fun z : ℕ => (List.range box.extent.y).flatMap fun y : ℕ =>
    (List.range box.extent.x).map fun x : ℕ => ⟨box.origin.x + x, box.origin.y + y, box.origin.z + z⟩

/-- The tile records of a box. -/
def tileDeltas (mask : BitVec 32) (box : Box3) : List TileDelta :=
  (boxCoords box).map fun c => ⟨c, S.localTileId (S.localCoord c), mask⟩

namespace DeltaState

variable (s : DeltaState)

/-- Replace the marks of one chunk. -/
def setMarks (key : ℕ) (d : ChunkDirty) : DeltaState :=
  { s with marks := Function.update s.marks key d }

/-- `World::mark_dirty`. -/
def markDirty (key : ℕ) (mask : BitVec 32) (bounds : Box3) : DeltaState :=
  s.setMarks key ((s.marks key).metaMarkDirty mask bounds)

/-- The chunk record of an observation, with its tile records when they are few and fit. -/
def recordObserved (key : ℕ) (observed : DirtyObservation) : DeltaCollector × TileChunkDelta :=
  let clipped := clipDirtyBoundsToChunk S key observed.bounds
  let record : TileChunkDelta :=
    { chunkKey := key, dirtyMask := observed.mask, contentVersion := observed.contentVersion
      bounds := clipped }
  let threshold := s.collector.sparseTileThreshold
  if threshold ≠ 0 ∧ clipped.extent.product ≤ threshold then
    let first := s.collector.pendingTiles.length
    let tiles := tileDeltas S observed.mask clipped
    match s.collector.appendTileRecords tiles with
    | (collector, true) =>
      (collector, { record with firstTile := first % 2 ^ 32, tileCount := tiles.length })
    | (collector, false) => (collector, record)
  else (s.collector, record)

/-- `detail::collect_chunk_tile_deltas`. -/
def collectChunkTileDeltas (mask : BitVec 32) (key : ℕ) : DeltaState :=
  let observed := (s.marks key).metaObserveDirty mask
  if observed.mask = 0 then s
  else
    let (collector, record) := s.recordObserved S key observed
    match collector.appendChunkRecord record with
    -- Chunk storage is full: the marks stay.
    | (collector, false) => { s with collector := collector }
    | (collector, true) =>
      match (s.marks key).metaClearDirtyObserved observed with
      | none => { s with collector := collector }
      | some d => { marks := Function.update s.marks key d, collector := collector }

/-- `collect_tile_deltas` on a dense world. -/
def collectTileDeltas (mask : BitVec 32) : DeltaState :=
  if mask = 0 then s
  else
    (List.range S.chunkCount).foldl (fun s key => s.collectChunkTileDeltas S mask key)
      { s with collector := s.collector.noteCollectedMask mask }

/-- The baseline record of one chunk. -/
def emitBaseline (mask : BitVec 32) (key : ℕ) : DeltaState :=
  let record : TileChunkDelta :=
    { chunkKey := key, dirtyMask := mask, contentVersion := (s.marks key).contentVersion
      bounds := chunkBox S key }
  { marks := Function.update s.marks key ((s.marks key).metaClearDirty mask)
    collector := (s.collector.appendChunkRecord record).1 }

/-- `collect_baseline` on a dense world. -/
def collectBaseline (mask : BitVec 32) : DeltaState :=
  let s' := (List.range S.chunkCount).foldl (fun s key => s.emitBaseline S mask key)
    { s with collector := (s.collector.noteCollectedMask mask).dropPendingTileState }
  { s' with collector := { s'.collector with baselinePending := true } }

end DeltaState

/-! ### Boxes of chunks -/

section Boxes

variable {S} {box : Box3} {c : Coord3} {key : ℕ} {bounds : Box3} {mask : BitVec 32} {b : ℕ}

theorem mem_boxCoords : c ∈ boxCoords box ↔ box.Has c := by
  simp only [boxCoords, List.mem_flatMap, List.mem_map, List.mem_range]
  constructor
  · rintro ⟨z, hz, y, hy, x, hx, rfl⟩ (_ | _ | _) <;> simp only [Coord3.get, Extent3.get] <;> omega
  · intro h
    obtain ⟨hx, hx'⟩ := h .x
    obtain ⟨hy, hy'⟩ := h .y
    obtain ⟨hz, hz'⟩ := h .z
    simp only [Coord3.get, Extent3.get] at hx hx' hy hy' hz hz'
    refine ⟨(c.z - box.origin.z).toNat, by omega, (c.y - box.origin.y).toNat, by omega,
      (c.x - box.origin.x).toNat, by omega, ?_⟩
    ext <;> simp only <;> omega

/-- The box of a chunk has the tiles of the chunk. -/
theorem has_chunkBox (hc : S.contains c = true) (hkey : S.chunkKey (S.chunkCoord c) = key) :
    (chunkBox S key).Has c := by
  subst hkey
  obtain ⟨⟨hx, -⟩, ⟨hy, -⟩, hz, -⟩ := Shape.contains_iff.1 hc
  obtain ⟨h1, h2, h3⟩ := S.chunk_valid
  rw [chunkBox, Shape.chunkKey, Extent3.unrank_rank (Shape.has_chunkCoord hc)]
  have haxis {v : ℤ} {n : ℕ} (hv : 0 ≤ v) (hn : 0 < n) :
      ((v.toNat / n * n : ℕ) : ℤ) ≤ v ∧ v < ((v.toNat / n * n : ℕ) : ℤ) + n := by
    have h1 := Nat.div_add_mod v.toNat n
    have h2 := Nat.mod_lt v.toNat hn
    rw [Nat.mul_comm] at h1
    omega
  rintro (_ | _ | _)
  · exact haxis hx h1
  · exact haxis hy h2
  · exact haxis hz h3

theorem lt_saturatedAxisEnd {origin v : ℤ} {extent : ℕ} (hv : v < origin + extent)
    (hmax : v < int64Max) : v < saturatedAxisEnd origin extent := by
  unfold saturatedAxisEnd
  split_ifs <;> omega

/-- **Clipping keeps the tiles of the chunk.** -/
theorem has_clipDirtyBoundsToChunk (hc : S.contains c = true)
    (hkey : S.chunkKey (S.chunkCoord c) = key) (h : bounds.Has c) :
    (clipDirtyBoundsToChunk S key bounds).Has c := by
  have hbox := has_chunkBox hc hkey
  have haxis (a : Axis) : max (bounds.origin.get a) ((chunkBox S key).origin.get a) ≤ c.get a ∧
      c.get a < min (saturatedAxisEnd (bounds.origin.get a) (bounds.extent.get a))
        ((chunkBox S key).origin.get a + (chunkBox S key).extent.get a) := by
    obtain ⟨h1, h2⟩ := h a
    obtain ⟨h3, h4⟩ := hbox a
    exact ⟨max_le h1 h3, lt_min (lt_saturatedAxisEnd h2 (lt_int64Max hc a)) h4⟩
  unfold clipDirtyBoundsToChunk
  simp only
  split_ifs
  · exact hbox
  · rintro (_ | _ | _)
    · have := haxis .x
      simp only [Coord3.get, Extent3.get] at this ⊢
      omega
    · have := haxis .y
      simp only [Coord3.get, Extent3.get] at this ⊢
      omega
    · have := haxis .z
      simp only [Coord3.get, Extent3.get] at this ⊢
      omega

theorem mem_tileDeltas (h : box.Has c) :
    ⟨c, S.localTileId (S.localCoord c), mask⟩ ∈ tileDeltas S mask box :=
  List.mem_map.2 ⟨c, mem_boxCoords.2 h, rfl⟩

end Boxes

/-! ### What becomes of a mark -/

/-- Some record invalidates a bit of a tile. -/
def RecordCovers (chunks : List TileChunkDelta) (tiles : List TileDelta) (key b : ℕ) (c : Coord3) :
    Prop :=
  ∃ record ∈ chunks, record.chunkKey = key ∧ record.dirtyMask.getLsbD b = true ∧
    record.bounds.Has c ∧
    (record.tileCount = 0 ∨ ∃ tile ∈ tiles, tile.coord = c ∧ tile.dirtyMask.getLsbD b = true)

theorem RecordCovers.append {chunks chunks' : List TileChunkDelta} {tiles tiles' : List TileDelta}
    {key b : ℕ} {c : Coord3} (h : RecordCovers chunks tiles key b c) :
    RecordCovers (chunks ++ chunks') (tiles ++ tiles') key b c := by
  obtain ⟨record, hr, hkey, hb, hc, ht⟩ := h
  refine ⟨record, List.mem_append_left _ hr, hkey, hb, hc, ht.imp_right ?_⟩
  rintro ⟨tile, ht, h⟩
  exact ⟨tile, List.mem_append_left _ ht, h⟩

/-- The collector only adds records. -/
structure AddsRecords (c c' : DeltaCollector) : Prop where
  /-- Chunk records are added. -/
  chunks : ∃ l, c'.pendingChunks = c.pendingChunks ++ l
  /-- Tile records are added. -/
  tiles : ∃ l, c'.pendingTiles = c.pendingTiles ++ l

namespace AddsRecords

variable {c c' c'' : DeltaCollector} {key b : ℕ} {t : Coord3}

theorem refl (c : DeltaCollector) : AddsRecords c c :=
  ⟨⟨[], (List.append_nil _).symm⟩, ⟨[], (List.append_nil _).symm⟩⟩

theorem trans (h : AddsRecords c c') (h' : AddsRecords c' c'') : AddsRecords c c'' := by
  obtain ⟨⟨l, hl⟩, m, hm⟩ := h
  obtain ⟨⟨l', hl'⟩, m', hm'⟩ := h'
  exact ⟨⟨l ++ l', by rw [hl', hl, List.append_assoc]⟩, m ++ m', by rw [hm', hm, List.append_assoc]⟩

theorem covers (h : AddsRecords c c') (hc : RecordCovers c.pendingChunks c.pendingTiles key b t) :
    RecordCovers c'.pendingChunks c'.pendingTiles key b t := by
  obtain ⟨⟨l, hl⟩, m, hm⟩ := h
  rw [hl, hm]
  exact hc.append

theorem appendChunkRecord (c : DeltaCollector) (record : TileChunkDelta) :
    AddsRecords c (c.appendChunkRecord record).1 := by
  unfold DeltaCollector.appendChunkRecord
  split_ifs
  · exact ⟨⟨[], (List.append_nil _).symm⟩, ⟨[], (List.append_nil _).symm⟩⟩
  · exact ⟨⟨[record], rfl⟩, ⟨[], (List.append_nil _).symm⟩⟩

end AddsRecords

theorem appendTileRecords_spec (tiles : List TileDelta) (c : DeltaCollector) :
    AddsRecords c (c.appendTileRecords tiles).1 ∧
      ((c.appendTileRecords tiles).2 = true →
        ∀ tile ∈ tiles, tile ∈ (c.appendTileRecords tiles).1.pendingTiles) := by
  induction tiles generalizing c with
  | nil => exact ⟨.refl c, fun _ _ h => nomatch h⟩
  | cons tile tiles ih =>
    rw [DeltaCollector.appendTileRecords]
    split_ifs
    · exact ⟨.refl c, fun h => nomatch h⟩
    · obtain ⟨hadds, hmem⟩ := ih { c with pendingTiles := c.pendingTiles ++ [tile] }
      have htile : AddsRecords c { c with pendingTiles := c.pendingTiles ++ [tile] } :=
        ⟨⟨[], (List.append_nil _).symm⟩, ⟨[tile], rfl⟩⟩
      refine ⟨htile.trans hadds, fun h tile' ht' => ?_⟩
      rcases List.mem_cons.1 ht' with rfl | ht'
      · obtain ⟨l, hl⟩ := hadds.tiles
        rw [hl]
        simp
      · exact hmem h tile' ht'

section Collecting

variable {S} {s : DeltaState} {key key' b : ℕ} {t : Coord3} {mask : BitVec 32} {bounds : Box3}

/-- The tile is one of the chunk. -/
def InChunk (S : Shape) (key : ℕ) (t : Coord3) : Prop :=
  S.contains t = true ∧ S.chunkKey (S.chunkCoord t) = key

/-- The bit is dirty on the chunk and its box has the tile. -/
def DirtyAt (s : DeltaState) (key b : ℕ) (t : Coord3) : Prop :=
  (s.marks key).mask.getLsbD b = true ∧ (s.marks key).bounds.Has t

/-- A pending record invalidates the bit of the tile. -/
def PendingAt (s : DeltaState) (key b : ℕ) (t : Coord3) : Prop :=
  RecordCovers s.collector.pendingChunks s.collector.pendingTiles key b t

theorem ne_zero_of_getLsbD (h : mask.getLsbD b = true) : mask ≠ 0 := by
  rintro rfl
  simp at h

theorem recordObserved_adds (s : DeltaState) (key : ℕ) (observed : DirtyObservation) :
    AddsRecords s.collector (s.recordObserved S key observed).1 := by
  unfold DeltaState.recordObserved
  simp only
  split_ifs
  · have hadds := (appendTileRecords_spec
      (tileDeltas S observed.mask (clipDirtyBoundsToChunk S key observed.bounds)) s.collector).1
    split <;> rename_i heq <;> rw [heq] at hadds <;> exact hadds
  · exact .refl _

/-- **The record of an observation** covers what was observed. -/
theorem recordObserved_covers (ht : InChunk S key t) {observed : DirtyObservation}
    (hb : observed.mask.getLsbD b = true) (hbounds : observed.bounds.Has t) :
    RecordCovers [(s.recordObserved S key observed).2]
      (s.recordObserved S key observed).1.pendingTiles key b t := by
  have hclip := has_clipDirtyBoundsToChunk ht.1 ht.2 hbounds
  refine ⟨_, List.mem_singleton_self _, ?_⟩
  unfold DeltaState.recordObserved
  simp only
  split_ifs
  · have hmem := (appendTileRecords_spec
      (tileDeltas S observed.mask (clipDirtyBoundsToChunk S key observed.bounds)) s.collector).2
    split
    · rename_i collector heq
      rw [heq] at hmem
      exact ⟨rfl, hb, hclip, Or.inr ⟨_, hmem rfl _ (mem_tileDeltas hclip), rfl, hb⟩⟩
    · exact ⟨rfl, hb, hclip, Or.inl rfl⟩
  · exact ⟨rfl, hb, hclip, Or.inl rfl⟩

/-- The marks of a chunk after a clear keep the other bits. -/
theorem metaClearDirty_keeps {d : ChunkDirty} (hd : d.mask.getLsbD b = true)
    (hb : mask.getLsbD b = false) : (d.metaClearDirty mask).mask.getLsbD b = true ∧
      (d.metaClearDirty mask).bounds = d.bounds := by
  have hkeep : (d.mask &&& ~~~mask).getLsbD b = true := by
    rw [BitVec.getLsbD_and, BitVec.getLsbD_not, hd, hb]
    simp [BitVec.lt_of_getLsbD hd]
  unfold ChunkDirty.metaClearDirty
  split_ifs with h0 h1
  · exact ⟨hd, rfl⟩
  · exact absurd h1 (ne_zero_of_getLsbD hkeep)
  · exact ⟨hkeep, rfl⟩

theorem DirtyAt.update {collector : DeltaCollector} {d : ChunkDirty} (h : DirtyAt s key b t)
    (hd : key' = key → d.mask.getLsbD b = true ∧ d.bounds = (s.marks key).bounds) :
    DirtyAt { marks := Function.update s.marks key' d, collector := collector } key b t := by
  unfold DirtyAt
  by_cases hk : key' = key
  · subst hk
    simp only [Function.update_self]
    obtain ⟨h1, h2⟩ := hd rfl
    exact ⟨h1, h2 ▸ h.2⟩
  · simp only [Function.update_of_ne (Ne.symm hk)]
    exact h

theorem appendChunkRecord_true {c c' : DeltaCollector} {record : TileChunkDelta}
    (h : c.appendChunkRecord record = (c', true)) :
    c'.pendingChunks = c.pendingChunks ++ [record] ∧ c'.pendingTiles = c.pendingTiles := by
  unfold DeltaCollector.appendChunkRecord at h
  split_ifs at h
  · cases h
  · cases h
    exact ⟨rfl, rfl⟩

/-- **Collecting one chunk** keeps a mark on the chunk or in a pending record. -/
theorem collectChunkTileDeltas_keeps (ht : InChunk S key t)
    (h : DirtyAt s key b t ∨ PendingAt s key b t) :
    DirtyAt (s.collectChunkTileDeltas S mask key') key b t ∨
      PendingAt (s.collectChunkTileDeltas S mask key') key b t := by
  unfold DeltaState.collectChunkTileDeltas
  simp only
  split_ifs with h0
  · exact h
  set observed := (s.marks key').metaObserveDirty mask with hobserved
  have hadds := recordObserved_adds (S := S) s key' observed
  have hcovers (hb : observed.mask.getLsbD b = true) (hbounds : observed.bounds.Has t)
      (hk : key' = key) := recordObserved_covers (s := s) (hk ▸ ht) hb hbounds
  generalize s.recordObserved S key' observed = p at hadds hcovers
  obtain ⟨collector, record⟩ := p
  have hadds' := hadds.trans (.appendChunkRecord collector record)
  split
  · rename_i collector' heq
    rw [heq] at hadds'
    exact h.imp id hadds'.covers
  · rename_i collector' heq
    rw [heq] at hadds'
    obtain ⟨hchunks, htiles⟩ := appendChunkRecord_true heq
    have hclear : (s.marks key').metaClearDirtyObserved observed =
        some ((s.marks key').metaClearDirty observed.mask) := by
      simp [ChunkDirty.metaClearDirtyObserved, hobserved, ChunkDirty.metaObserveDirty]
    rw [hclear]
    rcases h with h | h
    · by_cases hb : key' = key ∧ mask.getLsbD b = true
      · obtain ⟨rfl, hb⟩ := hb
        right
        obtain ⟨record', hmem, hrec⟩ := hcovers (by simp [hobserved,
          ChunkDirty.metaObserveDirty, h.1, hb]) h.2 rfl
        refine ⟨record', ?_, by rwa [htiles]⟩
        rw [hchunks]
        exact List.mem_append_right _ hmem
      · left
        refine h.update fun hk => ?_
        subst hk
        refine metaClearDirty_keeps h.1 ?_
        have : mask.getLsbD b = false := by simpa using hb
        simp [hobserved, ChunkDirty.metaObserveDirty, this]
    · exact Or.inr (hadds'.covers h)

theorem collectTileDeltas_keeps (ht : InChunk S key t)
    (h : DirtyAt s key b t ∨ PendingAt s key b t) :
    DirtyAt (s.collectTileDeltas S mask) key b t ∨
      PendingAt (s.collectTileDeltas S mask) key b t := by
  unfold DeltaState.collectTileDeltas
  split_ifs
  · exact h
  · have hfold (keys : List ℕ) (s : DeltaState) (h : DirtyAt s key b t ∨ PendingAt s key b t) :
        DirtyAt (keys.foldl (fun s key => s.collectChunkTileDeltas S mask key) s) key b t ∨
          PendingAt (keys.foldl (fun s key => s.collectChunkTileDeltas S mask key) s) key b t := by
      induction keys generalizing s with
      | nil => exact h
      | cons key' keys ih => exact ih _ (collectChunkTileDeltas_keeps ht h)
    exact hfold _ _ h

/-- **A baseline** leaves the marks that it does not cover. -/
theorem collectBaseline_keeps (h : DirtyAt s key b t) (hb : mask.getLsbD b = false) :
    DirtyAt (s.collectBaseline S mask) key b t := by
  have hfold (keys : List ℕ) (s : DeltaState) (h : DirtyAt s key b t) :
      DirtyAt (keys.foldl (fun s key => s.emitBaseline S mask key) s) key b t := by
    induction keys generalizing s with
    | nil => exact h
    | cons key' keys ih =>
      refine ih _ (h.update fun hk => ?_)
      subst hk
      exact metaClearDirty_keeps h.1 hb
  exact hfold _ { s with collector := _ } h

/-- **A mark is dirty** where its box is, and the earlier marks stay. -/
theorem markDirty_marks (hb : mask.getLsbD b = true) (ht : S.contains t = true)
    (hbounds : bounds.Has t) : DirtyAt (s.markDirty key mask bounds) key b t := by
  unfold DirtyAt DeltaState.markDirty DeltaState.setMarks ChunkDirty.metaMarkDirty
  simp only [Function.update_self, if_neg (ne_zero_of_getLsbD hb)]
  refine ⟨by simp [hb], ?_⟩
  split_ifs
  · exact hbounds
  · exact hbounds.unionBox_right (lt_int64Max ht)

theorem markDirty_keeps (ht : S.contains t = true) (h : DirtyAt s key b t) :
    DirtyAt (s.markDirty key' mask bounds) key b t := by
  unfold DirtyAt DeltaState.markDirty DeltaState.setMarks
  by_cases hk : key' = key
  · subst hk
    simp only [Function.update_self]
    unfold ChunkDirty.metaMarkDirty
    split_ifs with h0 h1
    · exact h
    · exact absurd h1 (ne_zero_of_getLsbD h.1)
    · exact ⟨by simp [h.1], h.2.unionBox_left (lt_int64Max ht)⟩
  · simp only [Function.update_of_ne (Ne.symm hk)]
    exact h

end Collecting

/-! ### Runs -/

/-- What happened to a world and its collector, in order. -/
inductive DeltaEvent
  | marked (key : ℕ) (mask : BitVec 32) (bounds : Box3)
  | published (frame : DeltaFrame)
  | baseline (mask : BitVec 32) (superseded : DeltaCollector)
  | cleared

/-- An operation on a world and its collector. -/
inductive DeltaOp
  | markDirty (key : ℕ) (mask : BitVec 32) (bounds : Box3)
  | collectTileDeltas (mask : BitVec 32)
  | collectBaseline (mask : BitVec 32)
  | publish
  | clear

/-- A world and its collector with what happened to them. -/
structure DeltaRun where
  /-- The marks and the collector. -/
  state : DeltaState := {}
  /-- What happened. -/
  log : List DeltaEvent := []

/-- The effect of an operation. -/
def DeltaState.op (s : DeltaState) : DeltaOp → DeltaState
  | .markDirty key mask bounds => s.markDirty key mask bounds
  | .collectTileDeltas mask => s.collectTileDeltas S mask
  | .collectBaseline mask => s.collectBaseline S mask
  | .publish => { s with collector := s.collector.publish }
  | .clear => { s with collector := s.collector.clear }

/-- What happens in an operation. -/
def DeltaOp.events (s : DeltaState) : DeltaOp → List DeltaEvent
  | .markDirty key mask bounds => [.marked key mask bounds]
  | .collectTileDeltas _ => []
  | .collectBaseline mask => [.baseline mask s.collector]
  | .publish => [.published s.collector.frame]
  | .clear => [.cleared]

namespace DeltaRun

/-- One operation. -/
def op (r : DeltaRun) (o : DeltaOp) : DeltaRun := ⟨r.state.op S o, r.log ++ o.events r.state⟩

/-- A run of operations. -/
def ops (os : List DeltaOp) (r : DeltaRun) : DeltaRun := os.foldl (op S) r

end DeltaRun

section Runs

variable {S} {r : DeltaRun} {key b : ℕ} {t : Coord3} {later : List DeltaEvent} {o : DeltaOp}

/-- A baseline was collected that covers the bit, or that superseded a record of it. -/
def BaselineTakes (key b : ℕ) (t : Coord3) : DeltaEvent → Prop
  | .baseline mask superseded => mask.getLsbD b = true ∨
      RecordCovers superseded.pendingChunks superseded.pendingTiles key b t
  | _ => False

/-- A baseline was collected whose mask has the bit. -/
def BaselineCovers (b : ℕ) : DeltaEvent → Prop
  | .baseline mask _ => mask.getLsbD b = true
  | _ => False

/-- **What may have become of a mark**, given what happened later and which baselines count. -/
def Accounted (takes : DeltaEvent → Prop) (r : DeltaRun) (key b : ℕ) (t : Coord3)
    (later : List DeltaEvent) : Prop :=
  (r.state.marks key).mask.getLsbD b = true ∨
  (PendingAt r.state key b t ∨ ∃ frame, .published frame ∈ later ∧
    RecordCovers frame.chunks frame.tiles key b t) ∨
  (r.state.collector.frame.truncated = true ∨
    ∃ frame, .published frame ∈ later ∧ frame.truncated = true) ∨
  (∃ e ∈ later, takes e) ∨ .cleared ∈ later

/-- What becomes of a mark, as a run keeps it. -/
def Kept (s : DeltaState) (key b : ℕ) (t : Coord3) (later : List DeltaEvent) : Prop :=
  (DirtyAt s key b t ∨ PendingAt s key b t) ∨
  (∃ frame, .published frame ∈ later ∧ RecordCovers frame.chunks frame.tiles key b t) ∨
  (∃ e ∈ later, BaselineTakes key b t e) ∨ .cleared ∈ later

theorem Kept.accounted (h : Kept r.state key b t later) :
    Accounted (BaselineTakes key b t) r key b t later := by
  rcases h with (h | h) | h | h | h
  · exact Or.inl h.1
  · exact Or.inr (Or.inl (Or.inl h))
  · exact Or.inr (Or.inl (Or.inr h))
  · exact Or.inr (Or.inr (Or.inr (Or.inl h)))
  · exact Or.inr (Or.inr (Or.inr (Or.inr h)))

theorem Kept.of_later {s s' : DeltaState} {more : List DeltaEvent} (h : Kept s key b t later)
    (hs : DirtyAt s key b t ∨ PendingAt s key b t → Kept s' key b t (later ++ more)) :
    Kept s' key b t (later ++ more) := by
  rcases h with h | ⟨frame, hf, h⟩ | ⟨e, he, h⟩ | h
  · exact hs h
  · exact Or.inr (Or.inl ⟨frame, List.mem_append_left _ hf, h⟩)
  · exact Or.inr (Or.inr (Or.inl ⟨e, List.mem_append_left _ he, h⟩))
  · exact Or.inr (Or.inr (Or.inr (List.mem_append_left _ h)))

/-- **Operations keep what was marked.** -/
theorem Kept.op {s : DeltaState} (ht : InChunk S key t) (h : Kept s key b t later) :
    Kept (s.op S o) key b t (later ++ o.events s) := by
  refine h.of_later fun h => ?_
  cases o with
  | markDirty key' mask bounds => exact Or.inl (h.imp (markDirty_keeps ht.1) id)
  | collectTileDeltas mask => exact Or.inl (collectTileDeltas_keeps ht h)
  | collectBaseline mask =>
    have htakes (hb : BaselineTakes key b t (.baseline mask s.collector)) :
        Kept (s.op S (.collectBaseline mask)) key b t (later ++ [.baseline mask s.collector]) :=
      Or.inr (Or.inr (Or.inl ⟨_, List.mem_append_right _ (List.mem_singleton_self _), hb⟩))
    rcases h with h | h
    · cases hb : mask.getLsbD b with
      | false => exact Or.inl (Or.inl (collectBaseline_keeps h hb))
      | true => exact htakes (Or.inl hb)
    · exact htakes (Or.inr h)
  | publish =>
    rcases h with h | h
    · exact Or.inl (Or.inl h)
    · exact Or.inr (Or.inl ⟨_, List.mem_append_right _ (List.mem_singleton_self _), h⟩)
  | clear =>
    exact Or.inr (Or.inr (Or.inr (List.mem_append_right _ (List.mem_singleton_self _))))

/-- **No invalidation is lost.**  In every run, every mark is still dirty, is recorded, or was
taken by a truncation, by a baseline or by a reset. -/
theorem delta_accounted (s : DeltaState) (os : List DeltaOp) (l₁ l₂ : List DeltaEvent) (key : ℕ)
    (mask : BitVec 32) (bounds : Box3)
    (hlog : (DeltaRun.ops S os { state := s }).log = l₁ ++ .marked key mask bounds :: l₂)
    (hb : mask.getLsbD b = true) (ht : InChunk S key t) (hbounds : bounds.Has t) :
    Accounted (BaselineTakes key b t) (DeltaRun.ops S os { state := s }) key b t l₂ := by
  refine Kept.accounted ?_
  induction os using List.reverseRecOn generalizing l₂ with
  | nil => simp [DeltaRun.ops] at hlog
  | append_singleton os o ih =>
    have hstep : DeltaRun.ops S (os ++ [o]) { state := s } =
        (DeltaRun.ops S os { state := s }).op S o := by simp [DeltaRun.ops]
    rw [hstep] at hlog ⊢
    generalize DeltaRun.ops S os { state := s } = r at hlog ih ⊢
    change r.log ++ o.events r.state = _ at hlog
    change Kept (r.state.op S o) key b t l₂
    rcases List.append_eq_append_iff.1 hlog with ⟨m, hm, hm'⟩ | ⟨m, hm, hm'⟩
    · -- the mark is the event of this operation
      obtain ⟨rfl, rfl, hmark⟩ : m = [] ∧ l₂ = [] ∧ o = .markDirty key mask bounds := by
        cases o <;> cases m <;> simp_all [DeltaOp.events]
      rw [hmark]
      exact Or.inl (Or.inl (markDirty_marks hb ht.1 hbounds))
    · cases m with
      | nil =>
        obtain ⟨rfl, hmark⟩ : l₂ = [] ∧ o = .markDirty key mask bounds := by
          cases o <;> simp_all [DeltaOp.events]
        rw [hmark]
        exact Or.inl (Or.inl (markDirty_marks hb ht.1 hbounds))
      | cons e m =>
        rw [List.cons_append, List.cons.injEq] at hm'
        obtain ⟨rfl, rfl⟩ := hm'
        exact (ih m hm).op ht

/-- A collector with room for the records of a few chunks. -/
def smallCollector : DeltaCollector :=
  { sparseTileThreshold := 1, pendingChunkCapacity := 4, publishedChunkCapacity := 4
    pendingTileCapacity := 4, publishedTileCapacity := 4 }

/-- The box of the tile at the origin. -/
def originBox : Box3 := ⟨⟨0, 0, 0⟩, ⟨1, 1, 1⟩⟩

theorem delta_accounted_twoCells : Accounted (BaselineTakes 0 0 ⟨0, 0, 0⟩)
    (DeltaRun.ops twoCells [.markDirty 0 1 originBox, .collectTileDeltas 1, .publish]
      { state := { collector := smallCollector } }) 0 0 ⟨0, 0, 0⟩
    [.published ((({ collector := smallCollector } : DeltaState).markDirty 0 1
      originBox).collectTileDeltas twoCells 1).collector.frame] :=
  delta_accounted { collector := smallCollector }
    [.markDirty 0 1 originBox, .collectTileDeltas 1, .publish] [] _ 0 1 originBox rfl (by decide)
    ⟨by decide, by decide⟩ fun a => by cases a <;> decide

/-- **A baseline of other bits loses a record**: the mark of bit zero was collected, a baseline of
bit one drops its record, and nothing tells of it. -/
theorem baseline_drops_record : ∃ r : DeltaRun, r = DeltaRun.ops twoCells
      [.markDirty 0 1 originBox, .collectTileDeltas 1, .collectBaseline 2]
      { state := { collector := smallCollector } } ∧
    ∃ later, r.log = .marked 0 1 originBox :: later ∧
      (1 : BitVec 32).getLsbD 0 = true ∧ InChunk twoCells 0 ⟨0, 0, 0⟩ ∧ originBox.Has ⟨0, 0, 0⟩ ∧
      ¬ Accounted (BaselineCovers 0) r 0 0 ⟨0, 0, 0⟩ later := by
  refine ⟨_, rfl, [.baseline 2 ((({ collector := smallCollector } : DeltaState).markDirty 0 1
    originBox).collectTileDeltas twoCells 1).collector], rfl, by decide, ⟨by decide, by decide⟩,
    fun a => by cases a <;> decide, ?_⟩
  rintro (h | (⟨record, hr, -, h, -⟩ | ⟨_, h, -⟩) | (h | ⟨_, h, -⟩) | ⟨e, he, h⟩ | h)
  · revert h
    decide
  · revert h
    revert record
    decide
  · simp at h
  · revert h
    decide
  · simp at h
  · obtain rfl := List.mem_singleton.1 he
    revert h
    change ¬ ((2 : BitVec 32).getLsbD 0 = true)
    decide
  · simp at h

end Runs

end Tess
