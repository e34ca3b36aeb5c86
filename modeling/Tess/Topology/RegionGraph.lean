import Tess.Topology.LocalTopology
import Tess.Topology.StairEdges
import Tess.Lib.Grouping

/-!
# The region graph

The region graph of a world has the regions of its resident chunks as nodes and a directed
portal for every step between regions.  `buildRegionGraph` builds it in full,
`updateRegionGraph` rebuilds the chunks that an edit has touched.  Both fail (`none`) where the
source does not return: when a flood never ends, when the sum of the versions would wrap, or
when a region index that has wrapped is used to write outside an array.

* `GraphWorld`, `GraphClass`, `GraphProvider` : what the builders read;
* `GraphLabels` : the labels of all chunks, which is all that portals are derived from;
* `rebuildRegionIndex` : the region offsets and the adjacency in compressed rows;
* `buildRegionGraph`, `updateRegionGraph` : the two builders.
-/

namespace Tess

/-! ### What the builders read -/

/-- A world together with its resident keys in the order of the directory and the residency
generations of its chunks. -/
structure GraphWorld (S : Shape) (Tag : Type*) extends World S Tag where
  /-- `resident_chunk_keys()`. -/
  residentKeys : List ℕ
  /-- `residency_generation()`. -/
  residencyGeneration : ℕ → ℕ
  /-- Every resident key is listed once. -/
  keys_nodup : residentKeys.Nodup
  /-- The listed keys are the resident ones. -/
  mem_keys : ∀ key, key ∈ residentKeys ↔ (residentSlot key).isSome = true

/-- A movement class and the identity of its type. -/
structure GraphClass (S : Shape) (Tag : Type*) where
  /-- The class. -/
  cls : MovementClass S Tag
  /-- `detail::tag_identity`. -/
  identity : ℕ

/-- A provider as the graph builders see it: its directed edges out of one chunk.  Its proof
fields are the contract of the source. -/
structure GraphProvider (S : Shape) (Tag : Type*) where
  /-- Directed edges whose source lies in the given chunk. -/
  forEachTransition : World S Tag → ℕ → List (Coord3 × Coord3)
  /-- Identity of the type. -/
  identity : ℕ
  /-- Identity of the object; zero for a provider without state. -/
  instanceIdentity : ℕ
  /-- `transition_revision()`. -/
  revision : ℕ
  /-- An edge ends in the chunk it starts in or in a neighbour of it. -/
  lands : ∀ W, ∀ chunk < S.chunkCount, ∀ e ∈ forEachTransition W chunk,
    S.contains e.1 = true → S.contains e.2 = true → sameOrFaceNeighborChunk S e.1 e.2 = true
  /-- The edges of a chunk depend on the chunk and its neighbours only. -/
  local_edges : ∀ W W' : World S Tag, ∀ chunk < S.chunkCount, W'.residency = W.residency →
    W'.tryChunk chunk = W.tryChunk chunk →
    (∀ g ∈ forEachFaceNeighborChunk S (S.chunkGrid.unrank chunk),
      W'.tryChunk (S.chunkKey g) = W.tryChunk (S.chunkKey g)) →
    forEachTransition W' chunk = forEachTransition W chunk

section Providers

variable {S : Shape} {Tag : Type*} {tag : Tag} {W W' : World S Tag} {chunk : ℕ}

theorem emitForFeet_congr {footChunk originChunk : ℕ}
    (h : W'.tryChunk footChunk = W.tryChunk footChunk) :
    emitForFeet tag W' footChunk originChunk = emitForFeet tag W footChunk originChunk := by
  unfold emitForFeet
  rw [h]

theorem footChunks_subset {g n : GridCoord3} (h : n ∈ footChunks S g) :
    n ∈ forEachFaceNeighborChunk S g := by
  simp only [footChunks, forEachFaceNeighborChunk, List.mem_append] at h ⊢
  tauto

/-- The stairs of a chunk depend on the chunk and its neighbours only. -/
theorem forEachTransition_congr (hres : W'.residency = W.residency)
    (hself : W'.tryChunk chunk = W.tryChunk chunk)
    (hnear : ∀ g ∈ forEachFaceNeighborChunk S (S.chunkGrid.unrank chunk),
      W'.tryChunk (S.chunkKey g) = W.tryChunk (S.chunkKey g)) :
    forEachTransition tag W' chunk = forEachTransition tag W chunk := by
  unfold forEachTransition
  rw [emitForFeet_congr hself]
  refine congrArg _ (List.flatMap_congr fun g hg => ?_)
  have hpage := hnear g (footChunks_subset hg)
  unfold scanFootChunk
  rw [hres, hpage, emitForFeet_congr hpage]

/-- A stair ends in the chunk it starts in or in a neighbour of it. -/
theorem sameOrFaceNeighborChunk_of_mem_forEachTransition (hk : chunk < S.chunkCount)
    {e : Coord3 × Coord3} (he : e ∈ forEachTransition tag W chunk) :
    sameOrFaceNeighborChunk S e.1 e.2 = true := by
  rcases ((mem_forEachTransition hk).1 he).1 with hl | hl
  · exact (isStair_of_tryLanding hl).sameOrFaceNeighborChunk
  · have hs := isStair_of_tryLanding hl
    rw [sameOrFaceNeighborChunk_comm hs.landing_mem hs.foot_mem]
    exact hs.sameOrFaceNeighborChunk

variable (S Tag) in
/-- `AdjacentTransitions` as the builders see it: no edges. -/
def adjacentGraphProvider : GraphProvider S Tag where
  forEachTransition _ _ := []
  identity := 0
  instanceIdentity := 0
  revision := 0
  lands _ _ _ _ he := absurd he List.not_mem_nil
  local_edges _ _ _ _ _ _ _ := rfl

variable (S) in
/-- `StairTransitions` as the builders see it; a provider without state. -/
def stairGraphProvider (tag : Tag) : GraphProvider S Tag where
  forEachTransition := forEachTransition tag
  identity := 1
  instanceIdentity := 0
  revision := 0
  lands _ _ hk _ he _ _ := sameOrFaceNeighborChunk_of_mem_forEachTransition hk he
  local_edges _ _ _ _ hres hself hnear := forEachTransition_congr hres hself hnear

end Providers

/-! ### Labels -/

/-- Reference scoped to a local region within a specific chunk. -/
structure RegionRef where
  /-- Key of the chunk. -/
  chunk : ℕ
  /-- Number of the region within the chunk; zero for none. -/
  region : ℕ
  deriving DecidableEq, Repr

/-- Directed connection between regions, with its endpoint tiles. -/
structure RegionPortal where
  /-- Region it leaves. -/
  fromRegion : RegionRef
  /-- Region it enters. -/
  toRegion : RegionRef
  /-- Tile it leaves. -/
  fromCoord : Coord3
  /-- Tile it enters. -/
  toCoord : Coord3
  /-- Side of the step. -/
  face : BoundaryFace
  deriving DecidableEq, Repr

/-- The labels of a graph: the topologies of its chunks, in the order of their keys. -/
@[ext]
structure GraphLabels where
  /-- Residency policy of the graph type. -/
  residency : Residency
  /-- Sorted keys a sparse graph is frozen to; unused by a dense one. -/
  topologyKeys : List ℕ := []
  /-- One topology for each chunk. -/
  localTopologies : List LocalChunkTopology := []
  deriving DecidableEq

/-- `std::lower_bound` over sorted keys. -/
def lowerBound (keys : List ℕ) (key : ℕ) : ℕ := (keys.takeWhile fun k => decide (k < key)).length

/-- `invalid_region_index`. -/
def invalidRegionIndex : ℕ := 2 ^ 32 - 1

namespace GraphLabels

variable (G : GraphLabels)

/-- The position of a chunk among the topologies: its key in a dense graph, `local_index` in a
sparse one. -/
def localIndex (chunk : ℕ) : Option ℕ :=
  match G.residency with
  | .alwaysResident => if chunk < G.localTopologies.length then some chunk else none
  | .sparseResident =>
    let i := lowerBound G.topologyKeys chunk
    if G.topologyKeys[i]? = some chunk then some i else none

/-- The key of a position. -/
def keyAt (i : ℕ) : ℕ :=
  match G.residency with
  | .alwaysResident => i
  | .sparseResident => G.topologyKeys.getD i 0

/-- `has_chunk`. -/
def hasChunk (chunk : ℕ) : Bool := (G.localIndex chunk).isSome

/-- `local_topology`. -/
def localTopology (chunk : ℕ) : Option LocalChunkTopology :=
  (G.localIndex chunk).bind fun i => G.localTopologies[i]?

/-- `region_of`. -/
def regionOf (S : Shape) (c : Coord3) : RegionRef :=
  if !S.contains c then ⟨2 ^ 64 - 1, 0⟩
  else
    let key := S.chunkKey (S.chunkCoord c)
    match G.localTopology key with
    | none => ⟨key, 0⟩
    | some topology => ⟨key, topology.regionAt (S.localTileId (S.localCoord c))⟩

end GraphLabels

/-- `detail::provider_source_is_owned`. -/
def providerSourceIsOwned (S : Shape) (c : Coord3) (chunk : ℕ) : Bool :=
  S.contains c && S.chunkKey (S.chunkCoord c) == chunk

/-- `detail::transition_face`. -/
def transitionFace (a b : Coord3) : BoundaryFace :=
  let dx := b.x - a.x
  let dy := b.y - a.y
  let dz := b.z - a.z
  if dx.natAbs ≥ dy.natAbs ∧ dx.natAbs ≥ dz.natAbs then
    if dx < 0 then .negativeX else .positiveX
  else if dy.natAbs ≥ dz.natAbs then if dy < 0 then .negativeY else .positiveY
  else if dz < 0 then .negativeZ else .positiveZ

section Portals

variable {S : Shape} {Tag : Type*}

variable (S) in
/-- `detail::append_chunk_portals`. -/
def appendChunkPortals (G : GraphLabels) (topology : LocalChunkTopology) : List RegionPortal :=
  topology.boundaryExits.filterMap fun exit =>
    let toCoord := neighborCoord exit.coord exit.face
    let target := G.regionOf S toCoord
    if target.region = 0 then none
    else some ⟨⟨topology.chunk, exit.region⟩, target, exit.coord, toCoord, exit.face⟩

/-- `detail::append_provider_portals`. -/
def appendProviderPortals (prov : GraphProvider S Tag) (W : World S Tag) (G : GraphLabels)
    (topology : LocalChunkTopology) : List RegionPortal :=
  (prov.forEachTransition W topology.chunk).filterMap fun e =>
    if !providerSourceIsOwned S e.1 topology.chunk then none
    else if !S.contains e.2 then none
    else
      let source := G.regionOf S e.1
      let target := G.regionOf S e.2
      if source.region = 0 ∨ target.region = 0 then none
      else some ⟨source, target, e.1, e.2, transitionFace e.1 e.2⟩

/-- The portals out of one chunk. -/
def chunkPortals (prov : GraphProvider S Tag) (W : World S Tag) (G : GraphLabels)
    (topology : LocalChunkTopology) : List RegionPortal :=
  appendChunkPortals S G topology ++ appendProviderPortals prov W G topology

end Portals

/-! ### The region index -/

/-- The arrays derived from labels and portals. -/
structure RegionIndex where
  /-- First global region index of each chunk, and the number of regions. -/
  regionOffsets : List ℕ := []
  /-- First edge of each region. -/
  adjacencyStarts : List ℕ := []
  /-- Region each edge leads to. -/
  adjacencyTargets : List ℕ := []
  /-- Portal each edge stands for. -/
  adjacencyPortals : List ℕ := []
  /-- Sparse only: the region has a step into a chunk that is not resident. -/
  regionReachesMissing : List Bool := []
  deriving DecidableEq

section Index

/-- 32-bit wrap-around. -/
def wrap32 (n : ℕ) : ℕ := n % 2 ^ 32

/-- The running sums of the region counts, in 32 bits. -/
def regionOffsets (topologies : List LocalChunkTopology) : List ℕ :=
  topologies.scanl (fun offset topology => wrap32 (offset + topology.regions.length)) 0

/-- `region_count`. -/
def regionCount (offsets : List ℕ) : ℕ := offsets.getLast?.getD 0

/-- `region_index`; the offset arithmetic is done in 64 bits. -/
def regionIndex (G : GraphLabels) (offsets : List ℕ) (ref : RegionRef) : ℕ :=
  if ref.region = 0 then invalidRegionIndex
  else match G.localIndex ref.chunk with
    | none => invalidRegionIndex
    | some i =>
      let index := offsets.getD i 0 + ref.region - 1
      if index ≥ offsets.getD (i + 1) 0 then invalidRegionIndex else index

/-- Set the flags of some regions; a write outside the array is not defined. -/
def setFlags (flags : List Bool) (indices : List ℕ) : Option (List Bool) :=
  if indices.all (· < flags.length) then
    some (indices.foldl (fun flags i => flags.set i true) flags)
  else none

/-- The regions with an exit into a chunk that the graph does not have. -/
def boundaryReaches (G : GraphLabels) (offsets : List ℕ) : List ℕ :=
  G.localTopologies.flatMap fun topology => topology.boundaryExits.filterMap fun exit =>
    if G.hasChunk exit.targetChunk then none
    else
      let index := regionIndex G offsets ⟨topology.chunk, exit.region⟩
      if index = invalidRegionIndex then none else some index

/-- `rebuild_region_index`. -/
def rebuildRegionIndex (G : GraphLabels) (portals : List RegionPortal) : Option RegionIndex :=
  let offsets := regionOffsets G.localTopologies
  let count := regionCount offsets
  let source := fun p : RegionPortal × ℕ => regionIndex G offsets p.1.fromRegion
  let target := fun p : RegionPortal × ℕ => regionIndex G offsets p.1.toRegion
  if portals.zipIdx.all fun p => source p < count then
    let starts := Grouping.bucketStarts wrap32 source count portals.zipIdx
    let slots := fun value =>
      (List.range portals.length).map
        (Grouping.fillBuckets wrap32 source value starts portals.zipIdx).2
    let flags : Option (List Bool) :=
      match G.residency with
      | .alwaysResident => some []
      | .sparseResident => setFlags (List.replicate count false) (boundaryReaches G offsets)
    flags.map fun flags =>
      { regionOffsets := offsets
        adjacencyStarts := (List.range (count + 1)).map starts
        adjacencyTargets := slots target
        adjacencyPortals := slots fun p => wrap32 p.2
        regionReachesMissing := flags }
  else none

variable {S : Shape} {Tag : Type*}

/-- The regions with a provider edge into a chunk that the graph does not have. -/
def providerReaches (prov : GraphProvider S Tag) (W : World S Tag) (G : GraphLabels)
    (offsets : List ℕ) : List ℕ :=
  G.localTopologies.flatMap fun topology =>
    (prov.forEachTransition W topology.chunk).filterMap fun e =>
      if !providerSourceIsOwned S e.1 topology.chunk then none
      else if !S.contains e.2 || G.hasChunk (S.chunkKey (S.chunkCoord e.2)) then none
      else
        let source := G.regionOf S e.1
        if source.region = 0 then none
        else
          let index := regionIndex G offsets source
          if index = invalidRegionIndex then none else some index

/-- `mark_provider_missing_reaches`; a dense graph has no such flags. -/
def markProviderMissingReaches (prov : GraphProvider S Tag) (W : World S Tag) (G : GraphLabels)
    (index : RegionIndex) : Option RegionIndex :=
  match G.residency with
  | .alwaysResident => some index
  | .sparseResident =>
    (setFlags index.regionReachesMissing (providerReaches prov W G index.regionOffsets)).map
      fun flags => { index with regionReachesMissing := flags }

end Index

/-! ### The graph -/

/-- The shape, class and provider a graph was built for; unset before the first build. -/
structure GraphBinding where
  /-- Chunks along each axis. -/
  chunkGrid : Extent3 := ⟨0, 0, 0⟩
  /-- Tiles of a chunk along each axis. -/
  chunkExtent : Extent3 := ⟨0, 0, 0⟩
  /-- Identity of the lattice. -/
  lattice : Option Lattice := none
  /-- Identity of the movement class. -/
  classIdentity : Option ℕ := none
  /-- Identity of the step policy. -/
  stepPolicy : Option StepPolicy := none
  /-- Ticks per unit of cost. -/
  costScale : ℕ := 0
  /-- Identity of the provider type. -/
  providerIdentity : Option ℕ := none
  /-- Identity of the provider object. -/
  providerInstance : ℕ := 0
  /-- Revision of the provider. -/
  providerRevision : ℕ := 0
  deriving DecidableEq

/-- The derived contents of a graph. -/
structure GraphContents where
  /-- Shape, class and provider. -/
  binding : GraphBinding
  /-- Labels of the chunks. -/
  labels : GraphLabels
  /-- All portals, grouped by the chunk they leave. -/
  portals : List RegionPortal := []
  /-- Region index and adjacency. -/
  index : RegionIndex := {}
  /-- Sparse only: residency generation of each topology at the build. -/
  frozenGenerations : List ℕ := []
  deriving DecidableEq

/-- `RegionGraphT`: the contents and the number of times they have changed. -/
structure RegionGraph extends GraphContents where
  /-- `revision`. -/
  revision : ℕ := 0

/-- `RegionGraphT::clear`, before the bump: a graph of the given type without contents. -/
def emptyContents (residency : Residency) : GraphContents where
  binding := {}
  labels := { residency := residency }

/-- `bump_revision`: the counter skips zero when it wraps. -/
def bumpRevision (revision : ℕ) : ℕ :=
  if (revision + 1) % 2 ^ 64 = 0 then 1 else (revision + 1) % 2 ^ 64

/-- Counts returned by a whole-graph build. -/
structure RegionGraphBuildResult where
  /-- Number of regions. -/
  regionCount : ℕ := 0
  /-- Number of passable tiles. -/
  passableTileCount : ℕ := 0
  /-- Number of boundary exits. -/
  boundaryExitCount : ℕ := 0
  /-- Sum of the topology versions. -/
  topologyVersionSum : ℕ := 0
  deriving DecidableEq

/-- `detail::add_topology_version_sum` over several versions. -/
def topologyVersionSum (versions : List ℕ) : Option ℕ :=
  versions.foldlM (fun sum value => if value > u64Max - sum then none else some (sum + value)) 0

section Builders

variable {S : Shape} {Tag : Type*} (C : GraphClass S Tag) (prov : GraphProvider S Tag)
  (W : GraphWorld S Tag)

/-- What `bind_shape`, `bind_class` and `bind_provider` record. -/
def graphBinding : GraphBinding where
  chunkGrid := S.chunkGrid
  chunkExtent := S.chunk
  lattice := some S.lattice
  classIdentity := some C.identity
  stepPolicy := some C.cls.stepPolicy
  costScale := C.cls.stepPolicy.costScale
  providerIdentity := some prov.identity
  providerInstance := prov.instanceIdentity
  providerRevision := prov.revision

/-- The keys a build runs over: all chunks, or the resident ones in increasing order. -/
def buildKeys : List ℕ :=
  match W.residency with
  | .alwaysResident => List.range S.chunkCount
  | .sparseResident => W.residentKeys.mergeSort (fun a b => decide (a ≤ b))

/-- One local build of a full build, which fails fast when it reports a failure. -/
def buildChunk (W : World S Tag) (key : ℕ) : Option (TopologyBuildResult × LocalChunkTopology) :=
  (buildLocalChunkTopology C.cls W key).filter fun r => r.1.status = .built

/-- The end of both builders: the region index over labels and portals. -/
def finishGraph (labels : GraphLabels) (portals : List RegionPortal)
    (frozenGenerations : List ℕ) : Option GraphContents :=
  ((rebuildRegionIndex labels portals).bind
    (markProviderMissingReaches prov W.toWorld labels)).map fun index =>
      { binding := graphBinding C prov
        labels := labels
        portals := portals
        index := index
        frozenGenerations := frozenGenerations }

/-- `build_region_graph`. -/
def buildRegionGraph (revision : ℕ) : Option (RegionGraphBuildResult × RegionGraph) := do
  let keys := buildKeys W
  let built ← keys.mapM (buildChunk C W.toWorld)
  let versionSum ← topologyVersionSum (built.map fun r => r.1.topologyVersionSum)
  let labels : GraphLabels :=
    { residency := W.residency
      topologyKeys := if W.residency = .alwaysResident then [] else keys
      localTopologies := built.map Prod.snd }
  let portals := labels.localTopologies.flatMap (chunkPortals prov W.toWorld labels)
  let frozenGenerations :=
    if W.residency = .alwaysResident then [] else keys.map W.residencyGeneration
  let contents ← finishGraph C prov W labels portals frozenGenerations
  some ({ regionCount := (built.map fun r => r.1.regionCount).sum
          passableTileCount := (built.map fun r => r.1.passableTileCount).sum
          boundaryExitCount := (built.map fun r => r.1.boundaryExitCount).sum
          topologyVersionSum := versionSum },
    { contents with revision := bumpRevision revision })

/-- `detail::as_topology_build_result`. -/
def asTopologyBuildResult (built : RegionGraphBuildResult) : TopologyBuildResult where
  regionCount := built.regionCount
  passableTileCount := built.passableTileCount
  boundaryExitCount := built.boundaryExitCount
  topologyVersionSum := built.topologyVersionSum

/-- The counts an incremental update returns. -/
def updateResult (topologies : List LocalChunkTopology) : Option TopologyBuildResult :=
  (topologyVersionSum (topologies.map (·.topologyVersion))).map fun versionSum =>
    { regionCount := (topologies.map fun t => t.regions.length).sum
      passableTileCount := (topologies.map fun t => (t.regions.map (·.tileCount)).sum).sum
      boundaryExitCount := (topologies.map fun t => t.boundaryExits.length).sum
      topologyVersionSum := versionSum }

/-- The tests after which an update falls back to a full build: the graph was not built for this
world, or the residency has changed since. -/
def needsFullBuild (g : RegionGraph) : Bool :=
  g.binding != graphBinding C prov ||
    match W.residency with
    | .alwaysResident => g.labels.localTopologies.length != S.chunkCount
    | .sparseResident =>
      g.labels.localTopologies.length != W.residentKeys.length ||
        g.frozenGenerations.length != W.residentKeys.length ||
        (List.range g.labels.localTopologies.length).any fun i =>
          W.residencyGeneration (g.labels.topologyKeys.getD i 0) != g.frozenGenerations.getD i 0

/-- The positions of the dirty chunks; a chunk that the graph does not have is skipped. -/
def dirtyPositions (G : GraphLabels) (dirtyChunks : List ℕ) : List ℕ :=
  (List.range G.localTopologies.length).filter fun i =>
    dirtyChunks.any fun chunk => G.localIndex chunk == some i

/-- The dirty positions and those of the neighbours of a dirty chunk. -/
def affectedPositions (S : Shape) (G : GraphLabels) (dirty : List ℕ) : List ℕ :=
  (List.range G.localTopologies.length).filter fun i =>
    dirty.contains i || dirty.any fun j =>
      (forEachFaceNeighborChunk S (S.chunkGrid.unrank (G.keyAt j))).any fun g =>
        G.localIndex (S.chunkKey g) == some i

/-- The topologies after the dirty ones have been built anew; a failure status is discarded. -/
def rebuildDirty (W : World S Tag) (G : GraphLabels) (dirty : List ℕ) :
    Option (List LocalChunkTopology) :=
  G.localTopologies.zipIdx.mapM fun (topology, i) =>
    if dirty.contains i then (buildLocalChunkTopology C.cls W (G.keyAt i)).map Prod.snd
    else some topology

/-- `update_region_graph`; both branches of the source, which differ in how a key finds its
position. -/
def updateRegionGraph (g : RegionGraph) (dirtyChunks : List ℕ) :
    Option (TopologyBuildResult × RegionGraph) :=
  if needsFullBuild C prov W g then
    (buildRegionGraph C prov W g.revision).map fun (r, g') => (asTopologyBuildResult r, g')
  else if dirtyChunks.any (· ≥ S.chunkCount) then some ({ status := .invalidChunk }, g)
  else if dirtyChunks.isEmpty then
    (updateResult g.labels.localTopologies).map fun r => (r, g)
  else do
    let dirty := dirtyPositions g.labels dirtyChunks
    let affected := affectedPositions S g.labels dirty
    let topologies ← rebuildDirty C W.toWorld g.labels dirty
    let labels := { g.labels with localTopologies := topologies }
    let kept := g.portals.filter fun portal =>
      !(g.labels.localIndex portal.fromRegion.chunk).any affected.contains
    let derived := affected.flatMap fun i =>
      (topologies[i]?.map (chunkPortals prov W.toWorld labels)).getD []
    let portals := Grouping.sortByKey (fun p => p.fromRegion.chunk) (kept ++ derived)
    let contents ← finishGraph C prov W labels portals g.frozenGenerations
    let r ← updateResult topologies
    some (r, { contents with revision := bumpRevision g.revision })

end Builders

end Tess
