import Tess.Topology.GraphUpdate
import Mathlib.Algebra.Order.BigOperators.Group.List
import Mathlib.Data.List.ModifyLast

/-!
# The index of a region graph

The region index numbers the regions of all chunks one chunk after the other, and groups the
portals by the region they leave.  All of it is 32-bit arithmetic.

* `labelling_floodChunk` : the labels of a chunk are those of its components;
* `FitsIndex` : the regions and the portals of a graph fit 32 bits;
* `regionRef`, `regionRef_regionIndex` : **in such a graph a reference and its index name each
  other**;
* `edgesOf`, `mem_edgesOf` : **the row of a region** lists the portals that leave it.
-/

namespace Tess

open Graphs

/-! ### The labels of a chunk -/

section Labels

variable {S : Shape} {Tag : Type*} {cls : MovementClass S Tag} {page : ChunkPage Tag}
  {g : GridCoord3} {labels : ℕ → ℕ} {draft : TopologyDraft} {a b : ℕ}

theorem length_modifyLast {α : Type*} (f : α → α) (l : List α) :
    (l.modifyLast f).length = l.length := by
  rcases List.eq_nil_or_concat l with rfl | ⟨l, a, rfl⟩
  · rfl
  · rw [List.concat_eq_append, List.modifyLast_concat, List.length_append, List.length_append]
    rfl

/-- The neighbours inside a chunk, on tile ids. -/
theorem mem_localNeighbors (ha : a < S.localTileCount) : b ∈ localNeighbors cls page a ↔
    tilePassable cls page b = true ∧
      LatticeAdjacent S (S.chunk.unrank a).toCoord (S.chunk.unrank b).toCoord := by
  have hhas : S.chunk.Has (S.chunk.unrank a) := Extent3.has_unrank ha
  rw [localNeighbors, List.mem_filter, and_comm]
  refine and_congr_right fun hb => ?_
  have hb := tilePassable_lt hb
  rw [List.mem_map]
  constructor
  · rintro ⟨l, hl, rfl⟩
    obtain ⟨hin, hadj⟩ := (mem_forEachLocalAxisNeighbor hhas).1 hl
    rwa [Shape.localTileId, Extent3.unrank_rank hin]
  · intro hadj
    exact ⟨S.chunk.unrank b, (mem_forEachLocalAxisNeighbor hhas).2 ⟨Extent3.has_unrank hb, hadj⟩,
      Extent3.rank_unrank b⟩

theorem localNeighbors_symm (ha : tilePassable cls page a = true)
    (h : b ∈ localNeighbors cls page a) : a ∈ localNeighbors cls page b := by
  obtain ⟨hb, hadj⟩ := (mem_localNeighbors (tilePassable_lt ha)).1 h
  exact (mem_localNeighbors (tilePassable_lt hb)).2 ⟨ha, latticeAdjacent_comm.1 hadj⟩

/-- The builder numbers the regions it opens from one, as long as the numbers fit 32 bits. -/
theorem countsOpened : CountsOpened (2 ^ 32) (fun d : TopologyDraft => d.regions.length)
    TopologyDraft.nextRegionId TopologyDraft.openRegion (TopologyDraft.visitTile S g) where
  opened d := by simp [TopologyDraft.openRegion]
  visit _ d _ := length_modifyLast _ d.regions
  fresh d h := Nat.mod_eq_of_lt h

/-- **The labels of a chunk number its components**: the passable tiles are the labelled ones. -/
theorem labelling_floodChunk (h : floodChunk cls page g = some (labels, draft))
    (hfew : draft.regions.length < 2 ^ 32) :
    Labelling (localNeighbors cls page) labels draft.regions.length ∧
      ∀ a < S.localTileCount, labels a ≠ 0 ↔ tilePassable cls page a = true := by
  obtain ⟨L, hadm, hall⟩ := labelling_labelComponents countsOpened
    (fun a b ha hb => localNeighbors_symm ha hb) (fun a b hb => (List.mem_filter.1 hb).2)
    labelling_zero (fun _ h => absurd rfl h) h hfew
  exact ⟨L, fun a ha => ⟨hadm a, hall a (List.mem_range.2 ha)⟩⟩

end Labels

/-! ### Region numbers -/

/-- Regions of the chunks before a position. -/
def regionsBefore (topologies : List LocalChunkTopology) (i : ℕ) : ℕ :=
  ((topologies.take i).map fun t => t.regions.length).sum

/-- Regions of all chunks. -/
def totalRegions (topologies : List LocalChunkTopology) : ℕ :=
  (topologies.map fun t => t.regions.length).sum

section Offsets

variable {topologies : List LocalChunkTopology} {i j index : ℕ} {t : LocalChunkTopology}

theorem regionsBefore_succ (h : topologies[i]? = some t) :
    regionsBefore topologies (i + 1) = regionsBefore topologies i + t.regions.length := by
  rw [regionsBefore, List.take_add_one, h]
  simp [regionsBefore]

theorem regionsBefore_mono (h : i ≤ j) :
    regionsBefore topologies i ≤ regionsBefore topologies j :=
  ((List.take_sublist_take_left h).map _).sum_le_sum fun _ _ => Nat.zero_le _

theorem regionsBefore_length : regionsBefore topologies topologies.length = totalRegions topologies := by
  rw [regionsBefore, List.take_length, totalRegions]

theorem regionsBefore_le : regionsBefore topologies i ≤ totalRegions topologies :=
  ((List.take_sublist i topologies).map _).sum_le_sum fun _ _ => Nat.zero_le _

/-- The running sums do not wrap as long as the last one does not. -/
theorem getElem?_regionOffsets (hfew : totalRegions topologies < 2 ^ 32)
    (hi : i ≤ topologies.length) :
    (regionOffsets topologies)[i]? = some (regionsBefore topologies i) := by
  have hfold : ∀ (l : List LocalChunkTopology) (a : ℕ), a + totalRegions l < 2 ^ 32 →
      l.foldl (fun offset t => wrap32 (offset + t.regions.length)) a = a + totalRegions l := by
    intro l
    induction l with
    | nil => exact fun _ _ => rfl
    | cons t l ih =>
      intro a h
      have hcons : totalRegions (t :: l) = t.regions.length + totalRegions l := List.sum_cons
      rw [hcons] at h ⊢
      rw [List.foldl_cons, wrap32, Nat.mod_eq_of_lt (by omega), ih _ (by omega), Nat.add_assoc]
  have hle : regionsBefore topologies i ≤ totalRegions topologies := regionsBefore_le
  rw [regionOffsets, List.getElem?_scanl, if_pos hi, hfold _ _ (by
    rw [Nat.zero_add]; exact lt_of_le_of_lt hle hfew), Nat.zero_add]
  rfl

theorem getD_regionOffsets (hfew : totalRegions topologies < 2 ^ 32) (hi : i ≤ topologies.length) :
    (regionOffsets topologies).getD i 0 = regionsBefore topologies i := by
  rw [List.getD_eq_getElem?_getD, getElem?_regionOffsets hfew hi, Option.getD_some]

theorem length_regionOffsets : (regionOffsets topologies).length = topologies.length + 1 :=
  List.length_scanl

theorem regionCount_eq (hfew : totalRegions topologies < 2 ^ 32) :
    regionCount (regionOffsets topologies) = totalRegions topologies := by
  rw [regionCount, List.getLast?_eq_getElem?, length_regionOffsets, Nat.add_sub_cancel,
    getElem?_regionOffsets hfew le_rfl, regionsBefore_length, Option.getD_some]

end Offsets

/-! ### References and indices -/

/-- `std::upper_bound` over a sorted list. -/
def upperBound (l : List ℕ) (x : ℕ) : ℕ := (l.takeWhile fun k => decide (k ≤ x)).length

theorem upperBound_eq {l : List ℕ} {x n : ℕ} (hle : ∀ j < n, ∃ k, l[j]? = some k ∧ k ≤ x)
    (hgt : ∃ k, l[n]? = some k ∧ x < k) : upperBound l x = n := by
  induction l generalizing n with
  | nil =>
    obtain ⟨k, hk, -⟩ := hgt
    cases hk
  | cons a l ih =>
    unfold upperBound at *
    cases n with
    | zero =>
      obtain ⟨k, hk, hx⟩ := hgt
      rw [List.getElem?_cons_zero, Option.some.injEq] at hk
      subst hk
      rw [List.takeWhile_cons_of_neg (by simpa using hx)]
      rfl
    | succ n =>
      obtain ⟨k, hk, hx⟩ := hle 0 (Nat.succ_pos n)
      rw [List.getElem?_cons_zero, Option.some.injEq] at hk
      subst hk
      rw [List.takeWhile_cons_of_pos (by simpa using hx), List.length_cons]
      congr 1
      refine ih (fun j hj => ?_) hgt
      simpa using hle (j + 1) (Nat.succ_lt_succ hj)

/-- `region_ref`. -/
def regionRef (G : GraphLabels) (offsets : List ℕ) (index : ℕ) : RegionRef :=
  if index ≥ regionCount offsets then ⟨2 ^ 64 - 1, 0⟩
  else
    let i := upperBound offsets index - 1
    ⟨G.keyAt i, index - offsets.getD i 0 + 1⟩

/-- The reference names a region of the chunk at a position. -/
structure NamesRegion (G : GraphLabels) (i : ℕ) (ref : RegionRef) : Prop where
  /-- The chunk of the reference has the position. -/
  position : G.localIndex ref.chunk = some i
  /-- Its regions are numbered from one. -/
  number : ∃ t, G.localTopologies[i]? = some t ∧ 0 < ref.region ∧ ref.region ≤ t.regions.length

section References

variable {G : GraphLabels} {keys : List ℕ} {i index : ℕ} {ref ref' : RegionRef}

theorem NamesRegion.index_eq (h : NamesRegion G i ref)
    (hfew : totalRegions G.localTopologies < 2 ^ 32) :
    regionIndex G (regionOffsets G.localTopologies) ref =
        regionsBefore G.localTopologies i + ref.region - 1 ∧
      regionIndex G (regionOffsets G.localTopologies) ref <
        regionsBefore G.localTopologies (i + 1) := by
  obtain ⟨hpos, t, ht, h0, hle⟩ := h
  have hi := (List.getElem?_eq_some_iff.1 ht).1
  have hsucc := regionsBefore_succ ht
  have hlt : regionsBefore G.localTopologies i + ref.region - 1 <
      regionsBefore G.localTopologies (i + 1) := by omega
  have heq : regionIndex G (regionOffsets G.localTopologies) ref =
      regionsBefore G.localTopologies i + ref.region - 1 := by
    rw [regionIndex, if_neg (by omega), hpos]
    simp only [getD_regionOffsets hfew (Nat.le_of_lt hi),
      getD_regionOffsets hfew (Nat.succ_le_of_lt hi)]
    exact if_neg (Nat.not_le.2 hlt)
  exact ⟨heq, heq ▸ hlt⟩

theorem NamesRegion.index_lt (h : NamesRegion G i ref)
    (hfew : totalRegions G.localTopologies < 2 ^ 32) :
    regionIndex G (regionOffsets G.localTopologies) ref <
      regionCount (regionOffsets G.localTopologies) := by
  rw [regionCount_eq hfew]
  exact lt_of_lt_of_le (h.index_eq hfew).2 regionsBefore_le

/-- **The index of a reference names it.** -/
theorem regionRef_regionIndex (hkeys : G.KeyedBy keys) (h : NamesRegion G i ref)
    (hfew : totalRegions G.localTopologies < 2 ^ 32) :
    regionRef G (regionOffsets G.localTopologies)
      (regionIndex G (regionOffsets G.localTopologies) ref) = ref := by
  have hlt := h.index_lt hfew
  obtain ⟨heq, hnext⟩ := h.index_eq hfew
  obtain ⟨hpos, t, ht, h0, hle⟩ := h
  have hi := (List.getElem?_eq_some_iff.1 ht).1
  have hupper : upperBound (regionOffsets G.localTopologies)
      (regionIndex G (regionOffsets G.localTopologies) ref) = i + 1 := by
    refine upperBound_eq (fun j hj => ?_)
      ⟨_, getElem?_regionOffsets hfew (Nat.succ_le_of_lt hi), hnext⟩
    refine ⟨_, getElem?_regionOffsets hfew (by omega), ?_⟩
    have hmono : regionsBefore G.localTopologies j ≤ regionsBefore G.localTopologies i :=
      regionsBefore_mono (by omega)
    omega
  rw [regionRef, if_neg (by omega), hupper]
  simp only [Nat.add_sub_cancel, getD_regionOffsets hfew (Nat.le_of_lt hi)]
  rw [hkeys.keyAt (hkeys.localIndex_eq_some.1 hpos), heq]
  show (⟨ref.chunk, _⟩ : RegionRef) = ref
  congr 1
  omega

/-- An index that is used belongs to a region. -/
theorem namesRegion_of_index_lt (hkeys : G.KeyedBy keys)
    (hfew : totalRegions G.localTopologies < 2 ^ 32)
    (h : regionIndex G (regionOffsets G.localTopologies) ref <
      regionCount (regionOffsets G.localTopologies)) : ∃ i, NamesRegion G i ref := by
  rw [regionCount_eq hfew] at h
  have hinvalid : ¬ invalidRegionIndex < totalRegions G.localTopologies := by
    unfold invalidRegionIndex; omega
  unfold regionIndex at h
  split_ifs at h with h0
  · exact absurd h hinvalid
  · cases hpos : G.localIndex ref.chunk with
    | none =>
      rw [hpos] at h
      exact absurd h hinvalid
    | some i =>
      simp only [hpos] at h
      have hlen : i < G.localTopologies.length := by
        rw [hkeys.length]
        exact (List.getElem?_eq_some_iff.1 (hkeys.localIndex_eq_some.1 hpos)).1
      have ht := List.getElem?_eq_getElem hlen
      rw [getD_regionOffsets hfew (Nat.le_of_lt hlen), getD_regionOffsets hfew hlen,
        regionsBefore_succ ht] at h
      split_ifs at h with hge
      · exact absurd h hinvalid
      · exact ⟨i, hpos, _, ht, Nat.pos_of_ne_zero h0, by omega⟩

end References

/-! ### Rows -/

/-- The edges out of a region: the region each leads to and the portal it stands for. -/
def edgesOf (X : RegionIndex) (current : ℕ) : List (ℕ × ℕ) :=
  let first := X.adjacencyStarts.getD current 0
  let last := X.adjacencyStarts.getD (current + 1) 0
  (List.range' first (last - first)).map fun edge =>
    (X.adjacencyTargets.getD edge 0, X.adjacencyPortals.getD edge 0)

/-- The regions and the portals of a graph fit 32 bits. -/
structure FitsIndex (g : GraphContents) : Prop where
  /-- Fewer regions than 32-bit numbers. -/
  regions : totalRegions g.labels.localTopologies < 2 ^ 32
  /-- Fewer portals than 32-bit numbers. -/
  portals : g.portals.length < 2 ^ 32

/-- Global index of a region. -/
def GraphContents.indexOf (g : GraphContents) (ref : RegionRef) : ℕ :=
  regionIndex g.labels g.index.regionOffsets ref

/-- Number of regions of the graph. -/
def GraphContents.count (g : GraphContents) : ℕ := regionCount g.index.regionOffsets

section Rows

variable {S : Shape} {Tag : Type*} {C : GraphClass S Tag} {prov : GraphProvider S Tag}
  {W : GraphWorld S Tag} {labels : GraphLabels} {portals : List RegionPortal}
  {X : RegionIndex} {a b k : ℕ}

theorem getD_map_range {n : ℕ} {f : ℕ → ℕ} (h : k < n) : ((List.range n).map f).getD k 0 = f k := by
  rw [List.getD_eq_getElem?_getD, List.getElem?_map, List.getElem?_range h]
  rfl

/-- **The rows of a rebuilt index** are the portals of each region, in order. -/
theorem edgesOf_rebuildRegionIndex (h : rebuildRegionIndex labels portals = some X)
    (hfew : portals.length < 2 ^ 32) :
    X.regionOffsets = regionOffsets labels.localTopologies ∧
      (∀ p ∈ portals, regionIndex labels X.regionOffsets p.fromRegion <
        regionCount X.regionOffsets) ∧
      ∀ a < regionCount X.regionOffsets, edgesOf X a =
        (Grouping.group (fun p : RegionPortal × ℕ =>
          regionIndex labels X.regionOffsets p.1.fromRegion) a portals.zipIdx).map fun p =>
            (regionIndex labels X.regionOffsets p.1.toRegion, wrap32 p.2) := by
  unfold rebuildRegionIndex at h
  dsimp only at h
  split_ifs at h with hall
  obtain ⟨flags, -, rfl⟩ := Option.map_eq_some_iff.1 h
  dsimp only
  rw [List.all_eq_true] at hall
  have hsrc : ∀ p ∈ portals.zipIdx, regionIndex labels (regionOffsets labels.localTopologies)
      p.1.fromRegion < regionCount (regionOffsets labels.localTopologies) := fun p hp =>
    of_decide_eq_true (hall p hp)
  refine ⟨rfl, fun p hp => ?_, fun a ha => ?_⟩
  · obtain ⟨i, hi⟩ := List.mem_iff_getElem?.1 hp
    exact hsrc (p, i) (List.mk_mem_zipIdx_iff_getElem?.2 hi)
  · have hwrap : ∀ i ≤ portals.zipIdx.length, wrap32 i = i := fun i hi => by
      rw [List.length_zipIdx] at hi
      exact Nat.mod_eq_of_lt (by omega)
    rw [edgesOf]
    simp only [getD_map_range (Nat.lt_succ_of_lt ha), getD_map_range (Nat.succ_lt_succ ha)]
    rw [← Grouping.bucket_eq₂ hwrap hsrc ha]
    refine List.map_congr_left fun edge hedge => ?_
    -- the rows lie inside the arrays
    have hlt := Grouping.slot_lt hwrap ha hedge
    rw [List.length_zipIdx] at hlt
    rw [getD_map_range hlt, getD_map_range hlt]

theorem markProviderMissingReaches_eq_some {Y : RegionIndex} {W : World S Tag}
    (h : markProviderMissingReaches prov W labels X = some Y) :
    Y.regionOffsets = X.regionOffsets ∧ edgesOf Y = edgesOf X := by
  unfold markProviderMissingReaches at h
  cases hr : labels.residency with
  | alwaysResident =>
    simp only [hr, Option.some.injEq] at h
    subst h
    exact ⟨rfl, rfl⟩
  | sparseResident =>
    simp only [hr] at h
    obtain ⟨flags, -, rfl⟩ := Option.map_eq_some_iff.1 h
    exact ⟨rfl, rfl⟩

variable {g : GraphContents} {topologies : List LocalChunkTopology}

/-- The offsets of a built graph are those of its chunks. -/
theorem regionOffsets_of_contentsOf (h : contentsOf C prov W topologies = some g) :
    g.index.regionOffsets = regionOffsets g.labels.localTopologies := by
  obtain ⟨-, -, hf⟩ := Option.bind_eq_some_iff.1 h
  obtain ⟨X, hX, rfl⟩ := Option.map_eq_some_iff.1 hf
  obtain ⟨Y, hY, hXY⟩ := Option.bind_eq_some_iff.1 hX
  rw [show _ = Y.regionOffsets from (markProviderMissingReaches_eq_some hXY).1]
  unfold rebuildRegionIndex at hY
  dsimp only at hY
  split_ifs at hY
  obtain ⟨flags, -, rfl⟩ := Option.map_eq_some_iff.1 hY
  rfl

/-- **The rows of a built graph** are the portals of each region: an edge is a portal together
with the region it enters. -/
theorem mem_edgesOf (h : contentsOf C prov W topologies = some g) (hfew : g.portals.length < 2 ^ 32)
    (ha : a < g.count) : (b, k) ∈ edgesOf g.index a ↔
      ∃ p, g.portals[k]? = some p ∧ g.indexOf p.fromRegion = a ∧ g.indexOf p.toRegion = b := by
  obtain ⟨-, -, hf⟩ := Option.bind_eq_some_iff.1 h
  obtain ⟨X, hX, rfl⟩ := Option.map_eq_some_iff.1 hf
  obtain ⟨Y, hY, hXY⟩ := Option.bind_eq_some_iff.1 hX
  obtain ⟨hoff, hedges⟩ := markProviderMissingReaches_eq_some hXY
  unfold GraphContents.indexOf GraphContents.count at *
  dsimp only at *
  rw [hoff] at ha
  rw [hoff, hedges, (edgesOf_rebuildRegionIndex hY hfew).2.2 a ha, List.mem_map]
  constructor
  · rintro ⟨⟨p, i⟩, hp, he⟩
    obtain ⟨hp, hsrc⟩ := List.mem_filter.1 hp
    rw [List.mk_mem_zipIdx_iff_getElem?] at hp
    have hi := (List.getElem?_eq_some_iff.1 hp).1
    simp only [Prod.mk.injEq, wrap32] at he
    rw [Nat.mod_eq_of_lt (by omega)] at he
    exact ⟨p, he.2 ▸ hp, of_decide_eq_true hsrc, he.1⟩
  · rintro ⟨p, hp, hsrc, hdst⟩
    have hk := (List.getElem?_eq_some_iff.1 hp).1
    refine ⟨(p, k), List.mem_filter.2 ⟨List.mk_mem_zipIdx_iff_getElem?.2 hp, ?_⟩, ?_⟩
    · exact decide_eq_true hsrc
    · simp only [Prod.mk.injEq, wrap32]
      exact ⟨hdst, Nat.mod_eq_of_lt (by omega)⟩

/-! ### The regions of tiles -/

variable {t : LocalChunkTopology} {c : Coord3} {p : RegionPortal}

/-- The labels and exits that a build records of a chunk are those of its floods. -/
theorem floodChunk_of_chunkTopology (hk : k ∈ buildKeys W)
    (h : chunkTopology C W.toWorld k = some t) :
    ∃ page labels draft, W.tryChunk k = some page ∧
      floodChunk C.cls page (S.chunkGrid.unrank k) = some (labels, draft) ∧ t.chunk = k ∧
      (∀ id < S.localTileCount, t.regionAt id = labels id) ∧ t.regions = draft.regions ∧
      t.boundaryExits = draft.boundaryExits := by
  obtain ⟨page, hp⟩ := mem_buildKeys.1 hk
  obtain ⟨r, hr, rfl⟩ := Option.map_eq_some_iff.1 h
  obtain ⟨-, hchunk, -, -, labels, draft, hflood, hids, hregions, hexits⟩ :=
    buildLocalChunkTopology_of_page (lt_of_mem_buildKeys hk) hp hr
  refine ⟨page, labels, draft, hp, hflood, hchunk, fun id hid => ?_, hregions, hexits⟩
  rw [LocalChunkTopology.regionAt, hids, getD_map_range hid]

/-- The region of a tile in a present chunk. -/
theorem regionOf_labelsOf (h : (buildKeys W).mapM (chunkTopology C W.toWorld) = some topologies)
    (hc : S.contains c = true) (hk : S.chunkKey (S.chunkCoord c) ∈ buildKeys W)
    (ht : chunkTopology C W.toWorld (S.chunkKey (S.chunkCoord c)) = some t) :
    (labelsOf W topologies).regionOf S c =
      ⟨S.chunkKey (S.chunkCoord c), t.regionAt (S.localTileId (S.localCoord c))⟩ := by
  simp only [GraphLabels.regionOf, hc, Bool.not_true, Bool.false_eq_true, if_false,
    localTopology_labelsOf h hk, ht]

/-- A tile that is outside the world or in no present chunk has no region. -/
theorem region_eq_zero (h : (buildKeys W).mapM (chunkTopology C W.toWorld) = some topologies)
    (hout : S.contains c = true → S.chunkKey (S.chunkCoord c) ∉ buildKeys W) :
    ((labelsOf W topologies).regionOf S c).region = 0 := by
  unfold GraphLabels.regionOf
  cases hc : S.contains c with
  | false => rfl
  | true =>
    simp only [Bool.not_true, Bool.false_eq_true, if_false,
      (keyedBy_labelsOf h).localTopology_none (hout hc)]

theorem length_le_totalRegions {l : List LocalChunkTopology} (h : t ∈ l) :
    t.regions.length ≤ totalRegions l :=
  List.single_le_sum (fun _ _ => Nat.zero_le _) _ (List.mem_map_of_mem h)

/-- **The region of a tile** is one of those that its chunk lists. -/
theorem namesRegion_regionOf
    (h : (buildKeys W).mapM (chunkTopology C W.toWorld) = some topologies)
    (hfew : totalRegions topologies < 2 ^ 32)
    (hc : ((labelsOf W topologies).regionOf S c).region ≠ 0) :
    ∃ i, NamesRegion (labelsOf W topologies) i ((labelsOf W topologies).regionOf S c) := by
  by_cases hin : S.contains c = true ∧ S.chunkKey (S.chunkCoord c) ∈ buildKeys W
  · obtain ⟨hin, hk⟩ := hin
    obtain ⟨i, hi⟩ := List.mem_iff_getElem?.1 hk
    obtain ⟨t, hti, htk⟩ := (getElem?_of_mapM h).2 i _ hi
    obtain ⟨page, labels, draft, -, hflood, -, hids, hregions, -⟩ :=
      floodChunk_of_chunkTopology hk htk
    have hlen := length_le_totalRegions (List.mem_of_getElem? hti)
    have hle := (labelling_floodChunk hflood (by rw [← hregions]; omega)).1.le
    rw [regionOf_labelsOf h hin hk htk] at hc ⊢
    refine ⟨i, (keyedBy_labelsOf h).localIndex_eq_some.2 hi, t, hti, Nat.pos_of_ne_zero hc, ?_⟩
    simp only [hids _ (S.localTileId_lt c), hregions]
    exact hle _
  · exact absurd (region_eq_zero h fun hc hk => hin ⟨hc, hk⟩) hc

/-- **A portal joins two regions of the graph.** -/
theorem namesRegion_of_mem_portals
    (h : (buildKeys W).mapM (chunkTopology C W.toWorld) = some topologies)
    (hg : contentsOf C prov W topologies = some g) (hfew : FitsIndex g) (hp : p ∈ g.portals) :
    (∃ i, NamesRegion g.labels i p.fromRegion) ∧ ∃ i, NamesRegion g.labels i p.toRegion := by
  have hkeys := keyedBy_labelsOf h
  obtain ⟨-, -, hlabels, hportals, -⟩ := contentsOf_eq_some hg
  obtain ⟨hregions, hcount⟩ := hfew
  rw [hlabels] at hregions ⊢
  constructor
  · obtain ⟨-, -, hf⟩ := Option.bind_eq_some_iff.1 hg
    obtain ⟨X, hX, rfl⟩ := Option.map_eq_some_iff.1 hf
    obtain ⟨Y, hY, hXY⟩ := Option.bind_eq_some_iff.1 hX
    obtain ⟨hoff, hsrc, -⟩ := edgesOf_rebuildRegionIndex hY hcount
    have hlt := hsrc p hp
    rw [hoff] at hlt
    exact namesRegion_of_index_lt hkeys hregions hlt
  · rw [hportals] at hp
    obtain ⟨t, -, hp⟩ := List.mem_flatMap.1 hp
    rcases List.mem_append.1 hp with hp | hp
    · obtain ⟨exit, -, hexit⟩ := List.mem_filterMap.1 hp
      simp only at hexit
      split_ifs at hexit with h0
      rw [Option.some.injEq] at hexit
      subst hexit
      exact namesRegion_regionOf h hregions h0
    · obtain ⟨e, -, he⟩ := List.mem_filterMap.1 hp
      simp only at he
      split_ifs at he with h1 h2 h3
      rw [Option.some.injEq] at he
      subst he
      exact namesRegion_regionOf h hregions (fun h0 => h3 (Or.inr h0))

end Rows

end Tess
