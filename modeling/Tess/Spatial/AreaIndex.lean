import Tess.Topology.RegionIndex
import Tess.Lib.Sorted

/-!
# The area index

An area joins the regions of a graph that a caller gave the same nonzero key.  `buildAreaIndex`
numbers the areas by their keys, sums up their regions and counts the portals between them.

* `areaRegions` : the regions of a graph, in the order of their indices;
* `buildAreaIndex` : the two passes over the regions and the one over the portals;
* `Numbered`, `Numbered.indexOf_entry` : in a numbered graph a region lies **at its index**;
* `foldl_noteKeys`, `foldl_noteFill` : what the two passes collect.
-/

namespace Tess

open Sorted

/-! ### The index -/

/-- `AreaSummary`: the regions of one area, summed up. -/
structure AreaSummary where
  /-- Number of the area, from one. -/
  id : ℕ := 0
  /-- Key of its regions. -/
  key : ℕ := 0
  /-- Number of its regions. -/
  regionCount : ℕ := 0
  /-- Number of their tiles. -/
  tileCount : ℕ := 0
  /-- Box around them. -/
  bounds : Box3 := {}
  deriving DecidableEq

/-- `AreaConnection`: two areas and the portals between them. -/
structure AreaConnection where
  /-- The area of the smaller number. -/
  first : ℕ := 0
  /-- The other area. -/
  second : ℕ := 0
  /-- Number of portals from one to the other, both ways. -/
  directedPortalCount : ℕ := 0
  deriving DecidableEq

/-- `AreaBuildStatus`. -/
inductive AreaBuildStatus
  | built
  | tooManyAreas
  deriving DecidableEq

/-- `AreaBuildResult`. -/
structure AreaBuildResult where
  /-- Whether the index was built. -/
  status : AreaBuildStatus := .built
  /-- Number of areas. -/
  areaCount : ℕ := 0
  /-- Number of connections. -/
  connectionCount : ℕ := 0
  deriving DecidableEq

/-- The order of region references: by chunk, then by region. -/
def refLess (lhs rhs : RegionRef) : Bool :=
  lhs.chunk < rhs.chunk || lhs.chunk == rhs.chunk && lhs.region < rhs.region

/-- `AreaIndex`; the identity of a graph is its address. -/
structure AreaIndex where
  /-- The regions of the graph in order. -/
  regionRefs : List RegionRef := []
  /-- The area of each of them; zero for none. -/
  regionAreas : List ℕ := []
  /-- `areas`. -/
  areas : List AreaSummary := []
  /-- `connections`. -/
  connections : List AreaConnection := []
  /-- The graph the index was built from; none for the null pointer. -/
  graphIdentity : Option ℕ := none
  /-- Revision of the graph at the build. -/
  graphRevision : ℕ := 0
  deriving DecidableEq

namespace AreaIndex

variable (index : AreaIndex)

/-- `AreaIndex::area_of` for a region; zero for no area. -/
def areaOf (ref : RegionRef) : ℕ :=
  let offset := Sorted.lowerBoundBy refLess index.regionRefs ref
  if index.regionRefs[offset]? = some ref then index.regionAreas.getD offset 0 else 0

/-- `AreaIndex::is_valid` for the graph at an address. -/
def isValid (address : ℕ) (g : RegionGraph) : Bool :=
  index.graphIdentity == some address && index.graphRevision == g.revision

/-- `AreaIndex::area_of` for a coordinate. -/
def areaAt (S : Shape) (address : ℕ) (g : RegionGraph) (c : Coord3) : ℕ :=
  if index.isValid address g then index.areaOf (g.labels.regionOf S c) else 0

end AreaIndex

/-! ### The build -/

/-- `detail::extend_area_bounds`; the ends of boxes inside a world fit their type. -/
def extendAreaBounds (current addition : Box3) (first : Bool) : Box3 :=
  if first then addition
  else
    .ofEnds (fun a => min (current.origin.get a) (addition.origin.get a)) fun a =>
      max (current.origin.get a + current.extent.get a)
        (addition.origin.get a + addition.extent.get a)

/-- One more region of an area. -/
def AreaSummary.addRegion (area : AreaSummary) (region : LocalRegion) : AreaSummary :=
  { area with
    bounds := extendAreaBounds area.bounds region.bounds (area.regionCount == 0)
    regionCount := area.regionCount + 1
    tileCount := area.tileCount + region.tileCount }

/-- The regions of a graph, chunk by chunk, as both passes meet them. -/
def areaRegions (g : GraphContents) : List (RegionRef × LocalRegion) :=
  g.labels.localTopologies.flatMap fun topology =>
    topology.regions.map fun region => (⟨topology.chunk, region.id⟩, region)

/-- What the first pass collects. -/
structure AreaKeys where
  /-- `region_refs_`. -/
  regionRefs : List RegionRef
  /-- `region_keys_`. -/
  regionKeys : List ℕ
  /-- `unique_keys_`, not yet sorted. -/
  uniqueKeys : List ℕ := []

/-- What the second pass fills. -/
structure AreaFill where
  /-- `region_areas_`. -/
  regionAreas : List ℕ
  /-- `areas_`. -/
  areas : List AreaSummary

section Build

variable (g : GraphContents) (grouper : RegionRef → LocalRegion → ℕ)

/-- One round of the first pass. -/
def AreaKeys.note (s : AreaKeys) (entry : RegionRef × LocalRegion) : AreaKeys :=
  let offset := g.indexOf entry.1
  if offset = invalidRegionIndex then s
  else
    let key := grouper entry.1 entry.2
    { regionRefs := s.regionRefs.set offset entry.1
      regionKeys := s.regionKeys.set offset key
      uniqueKeys := if key ≠ 0 then s.uniqueKeys ++ [key] else s.uniqueKeys }

/-- One round of the second pass. -/
def AreaFill.note (regionKeys uniqueKeys : List ℕ) (s : AreaFill)
    (entry : RegionRef × LocalRegion) : AreaFill :=
  let offset := g.indexOf entry.1
  if offset = invalidRegionIndex then s
  else
    let key := regionKeys.getD offset 0
    if key = 0 then s
    else
      let areaOffset := lowerBound uniqueKeys key
      { regionAreas := s.regionAreas.set offset (wrap32 (areaOffset + 1))
        areas := s.areas.modify areaOffset fun area => area.addRegion entry.2 }

/-- The sort key of the two areas that a portal joins; none when it joins no two areas. -/
def areaEdge (regionAreas : List ℕ) (portal : RegionPortal) : Option ℕ :=
  let fromIndex := g.indexOf portal.fromRegion
  let toIndex := g.indexOf portal.toRegion
  if fromIndex = invalidRegionIndex ∨ toIndex = invalidRegionIndex then none
  else
    let source := regionAreas.getD fromIndex 0
    let target := regionAreas.getD toIndex 0
    if source = 0 ∨ target = 0 ∨ source = target then none
    else some (min source target <<< 32 ||| max source target)

/-- The connection of a run of equal sort keys. -/
def AreaConnection.ofRun (run : ℕ × ℕ) : AreaConnection where
  first := wrap32 (run.1 >>> 32)
  second := wrap32 run.1
  directedPortalCount := run.2

/-- The index stays inside the arrays of the regions, or is skipped. -/
def indexInRange (ref : RegionRef) : Bool :=
  g.indexOf ref == invalidRegionIndex || decide (g.indexOf ref < g.count)

/-- `build_area_index` on a graph at an address; none when a region index is used outside of the
arrays, which is not defined. -/
def buildAreaIndex (address : ℕ) (g : RegionGraph) (grouper : RegionRef → LocalRegion → ℕ) :
    Option (AreaBuildResult × AreaIndex) :=
  let graph := g.toGraphContents
  if (areaRegions graph).all (fun entry => indexInRange graph entry.1) ∧
      graph.portals.all (fun p => indexInRange graph p.fromRegion && indexInRange graph p.toRegion)
  then
    let keys : AreaKeys := (areaRegions graph).foldl (AreaKeys.note graph grouper)
      { regionRefs := List.replicate graph.count ⟨0, 0⟩
        regionKeys := List.replicate graph.count 0 }
    let uniqueKeys := sortUnique keys.uniqueKeys
    let regionAreas := List.replicate graph.count 0
    if uniqueKeys.length ≥ invalidRegionIndex then
      some ({ status := .tooManyAreas },
        { regionRefs := keys.regionRefs, regionAreas := regionAreas })
    else
      let fill : AreaFill := (areaRegions graph).foldl
        (AreaFill.note graph keys.regionKeys uniqueKeys)
        { regionAreas := regionAreas
          areas := uniqueKeys.zipIdx.map fun e => { id := wrap32 (e.2 + 1), key := e.1 } }
      let edges := sorted (graph.portals.filterMap (areaEdge graph fill.regionAreas))
      let connections := (runLengths edges).map AreaConnection.ofRun
      some ({ areaCount := fill.areas.length, connectionCount := connections.length },
        { regionRefs := keys.regionRefs
          regionAreas := fill.regionAreas
          areas := fill.areas
          connections := connections
          graphIdentity := some address
          graphRevision := g.revision })
  else none

end Build

/-! ### Regions and their indices -/

/-- **What builds and updates leave**: the chunks of a graph lie in the order of their keys, their
regions are numbered from one, and the offsets are theirs. -/
structure Numbered (g : GraphContents) : Prop where
  /-- The topologies are those of increasing keys. -/
  keyed : ∃ keys, g.labels.KeyedBy keys ∧ g.labels.localTopologies.map (·.chunk) = keys
  /-- Regions are numbered from one, in 32 bits. -/
  ids : ∀ t ∈ g.labels.localTopologies, ∀ j r, t.regions[j]? = some r → r.id = wrap32 (j + 1)
  /-- The offsets are the running sums of the region counts. -/
  offsets : g.index.regionOffsets = regionOffsets g.labels.localTopologies

section Regions

variable {g : GraphContents} {m : ℕ} {e : RegionRef × LocalRegion} {ref : RegionRef}

theorem length_areaRegions : (areaRegions g).length = totalRegions g.labels.localTopologies := by
  simp [areaRegions, totalRegions, List.length_flatMap]

theorem Numbered.count_eq (h : Numbered g) (hfew : totalRegions g.labels.localTopologies < 2 ^ 32) :
    g.count = (areaRegions g).length := by
  rw [GraphContents.count, h.offsets, regionCount_eq hfew, length_areaRegions]

/-- The chunk and the region behind an entry. -/
theorem Numbered.entry (h : Numbered g) (hfew : totalRegions g.labels.localTopologies < 2 ^ 32)
    (he : (areaRegions g)[m]? = some e) : ∃ i, NamesRegion g.labels i e.1 ∧
      m + 1 = regionsBefore g.labels.localTopologies i + e.1.region := by
  obtain ⟨keys, hkeys, hchunks⟩ := h.keyed
  obtain ⟨i, t, j, ht, hj, rfl⟩ := getElem?_flatMap.1 he
  obtain ⟨r, hr, rfl⟩ := Option.map_eq_some_iff.1 (List.getElem?_map ▸ hj)
  have hjlt := (List.getElem?_eq_some_iff.1 hr).1
  have htotal := length_le_totalRegions (List.mem_of_getElem? ht)
  have hid : r.id = j + 1 := by
    rw [h.ids t (List.mem_of_getElem? ht) j r hr, wrap32, Nat.mod_eq_of_lt (by omega)]
  have hkey : keys[i]? = some t.chunk := by rw [← hchunks, List.getElem?_map, ht, Option.map_some]
  refine ⟨i, ⟨hkeys.localIndex_eq_some.2 hkey, t, ht, ?_, ?_⟩, ?_⟩
  · show 0 < r.id
    omega
  · show r.id ≤ t.regions.length
    omega
  · show _ = _ + r.id
    simp only [List.length_map, regionsBefore, hid]
    omega

/-- **A region lies at its index.** -/
theorem Numbered.indexOf_entry (h : Numbered g)
    (hfew : totalRegions g.labels.localTopologies < 2 ^ 32)
    (he : (areaRegions g)[m]? = some e) : g.indexOf e.1 = m := by
  obtain ⟨i, hnames, hm⟩ := h.entry hfew he
  rw [GraphContents.indexOf, h.offsets, (hnames.index_eq hfew).1]
  omega

theorem Numbered.indexOf_lt (h : Numbered g)
    (hfew : totalRegions g.labels.localTopologies < 2 ^ 32)
    (hne : g.indexOf ref ≠ invalidRegionIndex) : g.indexOf ref < g.count := by
  obtain ⟨keys, hkeys, -⟩ := h.keyed
  unfold GraphContents.indexOf GraphContents.count at *
  rw [h.offsets] at hne ⊢
  rw [regionCount_eq hfew]
  unfold regionIndex at hne ⊢
  split_ifs at hne ⊢ with h0
  · exact absurd rfl hne
  · cases hpos : g.labels.localIndex ref.chunk with
    | none =>
      rw [hpos] at hne
      exact absurd rfl hne
    | some i =>
      simp only [hpos] at hne ⊢
      split_ifs at hne ⊢ with hge
      · exact absurd rfl hne
      · have hlen : i < g.labels.localTopologies.length := by
          rw [hkeys.length]
          exact (List.getElem?_eq_some_iff.1 (hkeys.localIndex_eq_some.1 hpos)).1
        rw [getD_regionOffsets hfew hlen] at hge
        exact lt_of_lt_of_le (Nat.not_le.1 hge) regionsBefore_le

/-- **Only regions have an index.** -/
theorem Numbered.exists_entry (h : Numbered g)
    (hfew : totalRegions g.labels.localTopologies < 2 ^ 32)
    (hne : g.indexOf ref ≠ invalidRegionIndex) :
    ∃ r, (areaRegions g)[g.indexOf ref]? = some (ref, r) := by
  obtain ⟨keys, hkeys, hchunks⟩ := h.keyed
  have hlt := h.indexOf_lt hfew hne
  have hlt' := hlt
  rw [GraphContents.indexOf, GraphContents.count, h.offsets] at hlt'
  obtain ⟨i, hnames⟩ := namesRegion_of_index_lt hkeys hfew hlt'
  have hindex := (hnames.index_eq hfew).1
  rw [← h.offsets] at hindex
  obtain ⟨hpos, t, ht, h0, hle⟩ := hnames
  have hregion : ref.region - 1 < t.regions.length := by omega
  have hr := List.getElem?_eq_getElem hregion
  have hid := h.ids t (List.mem_of_getElem? ht) _ _ hr
  have htotal := length_le_totalRegions (List.mem_of_getElem? ht)
  rw [wrap32, Nat.mod_eq_of_lt (by omega)] at hid
  have hchunk : t.chunk = ref.chunk := by
    have hkey := hkeys.localIndex_eq_some.1 hpos
    rw [← hchunks, List.getElem?_map, ht, Option.map_some, Option.some.injEq] at hkey
    exact hkey
  refine ⟨t.regions[ref.region - 1], ?_⟩
  refine getElem?_flatMap.2 ⟨i, t, ref.region - 1, ht, ?_, ?_⟩
  · rw [List.getElem?_map, hr, Option.map_some]
    simp only [hid, hchunk, Nat.sub_add_cancel h0]
  · simp only [List.length_map]
    show regionIndex _ _ _ = regionsBefore _ _ + _
    omega

/-- The regions are in order. -/
theorem Numbered.pairwise_refs (h : Numbered g)
    (hfew : totalRegions g.labels.localTopologies < 2 ^ 32) :
    ((areaRegions g).map Prod.fst).Pairwise fun a b => refLess a b = true := by
  obtain ⟨keys, hkeys, hchunks⟩ := h.keyed
  rw [areaRegions, List.map_flatMap, List.pairwise_flatMap]
  constructor
  · intro t ht
    rw [List.map_map, List.pairwise_map, List.pairwise_iff_getElem]
    intro i j hi hj hij
    have htotal := length_le_totalRegions ht
    have hidi := h.ids t ht i _ (List.getElem?_eq_getElem hi)
    have hidj := h.ids t ht j _ (List.getElem?_eq_getElem hj)
    rw [wrap32, Nat.mod_eq_of_lt (by omega)] at hidi hidj
    simp [refLess, hidi, hidj, hij]
  · have hsorted := hkeys.sorted
    rw [← hchunks, List.pairwise_map] at hsorted
    refine hsorted.imp fun hlt x hx y hy => ?_
    simp only [List.map_map, List.mem_map, Function.comp_apply] at hx hy
    obtain ⟨r, -, rfl⟩ := hx
    obtain ⟨r', -, rfl⟩ := hy
    simp [refLess, hlt]

theorem refLess_irrefl (ref : RegionRef) : refLess ref ref = false := by simp [refLess]

end Regions

/-! ### The passes -/

section Passes

variable {g : GraphContents} {grouper : RegionRef → LocalRegion → ℕ} {e : RegionRef × LocalRegion}
  {done rest entries : List (RegionRef × LocalRegion)} {uniqueKeys : List ℕ} {key : ℕ}

variable (grouper) in
/-- The keys of some regions. -/
def groupKeys (entries : List (RegionRef × LocalRegion)) : List ℕ :=
  entries.map fun e => grouper e.1 e.2

variable (grouper) in
/-- The keys of some regions that make areas. -/
def areaKeys (entries : List (RegionRef × LocalRegion)) : List ℕ :=
  (groupKeys grouper entries).filter (· ≠ 0)

variable (grouper) in
/-- The regions of a key. -/
def membersOf (entries : List (RegionRef × LocalRegion)) (key : ℕ) : List LocalRegion :=
  (entries.filter fun e => grouper e.1 e.2 = key).map Prod.snd

/-- Some regions, summed up as one area. -/
def summaryOf (id key : ℕ) (members : List LocalRegion) : AreaSummary :=
  members.foldl AreaSummary.addRegion { id := id, key := key }

variable (grouper) in
/-- The areas of some regions. -/
def areasOf (uniqueKeys : List ℕ) (entries : List (RegionRef × LocalRegion)) : List AreaSummary :=
  uniqueKeys.zipIdx.map fun k => summaryOf (wrap32 (k.2 + 1)) k.1 (membersOf grouper entries k.1)

/-- The number of the area of a key. -/
def areaId (uniqueKeys : List ℕ) (key : ℕ) : ℕ :=
  if key = 0 then 0 else wrap32 (lowerBound uniqueKeys key + 1)

theorem membersOf_snoc : membersOf grouper (done ++ [e]) key =
    membersOf grouper done key ++ if grouper e.1 e.2 = key then [e.2] else [] := by
  rw [membersOf, List.filter_append, List.map_append]
  by_cases h : grouper e.1 e.2 = key <;> simp [membersOf, h]

/-- Writing the next item of an array. -/
theorem set_next {α : Type*} {l : List α} {n : ℕ} {a b : α} :
    (l ++ List.replicate (n + 1) a).set l.length b = l ++ [b] ++ List.replicate n a := by
  simp [List.replicate_succ]

/-- One more region in the areas of some keys. -/
theorem areasOf_snoc (hsorted : uniqueKeys.Pairwise (· < ·))
    (hkey : grouper e.1 e.2 ∈ uniqueKeys) :
    (areasOf grouper uniqueKeys done).modify (lowerBound uniqueKeys (grouper e.1 e.2))
      (fun area => area.addRegion e.2) = areasOf grouper uniqueKeys (done ++ [e]) := by
  obtain ⟨i, hi⟩ := List.mem_iff_getElem?.1 hkey
  rw [lowerBound_of_getElem? hsorted hi]
  refine List.ext_getElem? fun j => ?_
  rw [List.getElem?_modify]
  simp only [areasOf, List.getElem?_map, List.getElem?_zipIdx, Option.map_map]
  cases hj : uniqueKeys[j]? with
  | none => rfl
  | some k =>
    simp only [Option.map_some, Function.comp_apply, membersOf_snoc]
    by_cases hij : i = j
    · subst hij
      rw [hi, Option.some.injEq] at hj
      subst hj
      simp [summaryOf, List.foldl_append]
    · have hne : grouper e.1 e.2 ≠ k := by
        rintro rfl
        exact hij ((List.getElem?_inj (List.getElem?_eq_some_iff.1 hi).1
          (hsorted.imp fun hlt => hlt.ne)).1 (hi.trans hj.symm))
      simp [hij, hne]

/-- A region without an area. -/
theorem areasOf_skip (hkey : grouper e.1 e.2 ∉ uniqueKeys) :
    areasOf grouper uniqueKeys (done ++ [e]) = areasOf grouper uniqueKeys done := by
  refine List.map_congr_left fun k hk => ?_
  have hne : grouper e.1 e.2 ≠ k.1 := by
    rintro heq
    obtain ⟨-, hin⟩ := List.mem_zipIdx' (x := k.1) (i := k.2) hk
    exact hkey (heq ▸ hin ▸ List.getElem_mem _)
  rw [membersOf_snoc, if_neg hne, List.append_nil]

section Positions

variable (h : Numbered g) (hfew : totalRegions g.labels.localTopologies < 2 ^ 32)
include h hfew

theorem indexOf_next (hsplit : areaRegions g = done ++ e :: rest) :
    g.indexOf e.1 = done.length ∧ done.length ≠ invalidRegionIndex := by
  have hget : (areaRegions g)[done.length]? = some e := by rw [hsplit]; simp
  have hlen := (List.getElem?_eq_some_iff.1 hget).1
  rw [length_areaRegions] at hlen
  refine ⟨h.indexOf_entry hfew hget, ?_⟩
  unfold invalidRegionIndex
  omega

variable (done rest) in
/-- **The first pass** lists the regions with their keys. -/
theorem foldl_noteKeys (hsplit : areaRegions g = done ++ rest) :
    rest.foldl (AreaKeys.note g grouper)
      { regionRefs := done.map Prod.fst ++ List.replicate rest.length ⟨0, 0⟩
        regionKeys := groupKeys grouper done ++ List.replicate rest.length 0
        uniqueKeys := areaKeys grouper done } =
      { regionRefs := (areaRegions g).map Prod.fst
        regionKeys := groupKeys grouper (areaRegions g)
        uniqueKeys := areaKeys grouper (areaRegions g) } := by
  induction rest generalizing done with
  | nil => simp [hsplit]
  | cons e rest ih =>
    obtain ⟨hindex, hne⟩ := indexOf_next h hfew hsplit
    have hstep := @ih (done ++ [e]) (by rw [hsplit]; simp)
    rw [List.foldl_cons, ← hstep]
    congr 1
    rw [AreaKeys.note]
    simp only [hindex, hne, if_false, List.length_cons]
    have hrefs := set_next (l := done.map Prod.fst) (n := rest.length) (a := ⟨0, 0⟩) (b := e.1)
    have hkeys := set_next (l := groupKeys grouper done) (n := rest.length) (a := 0)
      (b := grouper e.1 e.2)
    rw [List.length_map] at hrefs
    rw [groupKeys, List.length_map] at hkeys
    simp only [areaKeys, groupKeys, List.map_append, List.filter_append] at hkeys ⊢
    rw [hrefs, hkeys]
    congr 1
    by_cases hkey : grouper e.1 e.2 = 0 <;> simp [hkey]

variable (done rest) in
/-- **The second pass** numbers the regions by their areas and sums the areas up. -/
theorem foldl_noteFill (hsorted : uniqueKeys.Pairwise (· < ·))
    (hmem : ∀ key, key ∈ uniqueKeys ↔ key ∈ groupKeys grouper (areaRegions g) ∧ key ≠ 0)
    (hsplit : areaRegions g = done ++ rest) :
    rest.foldl (AreaFill.note g (groupKeys grouper (areaRegions g)) uniqueKeys)
      { regionAreas := (groupKeys grouper done).map (areaId uniqueKeys) ++
          List.replicate rest.length 0
        areas := areasOf grouper uniqueKeys done } =
      { regionAreas := (groupKeys grouper (areaRegions g)).map (areaId uniqueKeys)
        areas := areasOf grouper uniqueKeys (areaRegions g) } := by
  induction rest generalizing done with
  | nil => simp [hsplit]
  | cons e rest ih =>
    obtain ⟨hindex, hne⟩ := indexOf_next h hfew hsplit
    have hstep := @ih (done ++ [e]) (by rw [hsplit]; simp)
    have hget : (groupKeys grouper (areaRegions g)).getD done.length 0 = grouper e.1 e.2 := by
      rw [hsplit, groupKeys, List.getD_eq_getElem?_getD]
      simp
    have hin : grouper e.1 e.2 ∈ groupKeys grouper (areaRegions g) := by
      rw [hsplit, groupKeys]
      simp
    have hareas := set_next (l := (groupKeys grouper done).map (areaId uniqueKeys))
      (n := rest.length) (a := 0) (b := areaId uniqueKeys (grouper e.1 e.2))
    rw [List.length_map, groupKeys, List.length_map, ← groupKeys] at hareas
    have hsnoc : (groupKeys grouper (done ++ [e])).map (areaId uniqueKeys) =
        (groupKeys grouper done).map (areaId uniqueKeys) ++
          [areaId uniqueKeys (grouper e.1 e.2)] := by
      simp [groupKeys]
    rw [List.foldl_cons, ← hstep, hsnoc]
    congr 1
    rw [AreaFill.note]
    simp only [hindex, hne, if_false, hget, List.length_cons]
    by_cases hkey : grouper e.1 e.2 = 0
    · have hzero : areaId uniqueKeys 0 = 0 := if_pos rfl
      rw [if_pos hkey, hkey, hzero, areasOf_skip (fun hin => ((hmem _).1 hin).2 hkey)]
      simp [List.replicate_succ]
    · rw [if_neg hkey, areasOf_snoc hsorted ((hmem _).2 ⟨hin, hkey⟩), ← hareas, areaId,
        if_neg hkey]

end Positions

end Passes

end Tess
