import Tess.Spatial.AreaSpec
import Tess.Topology.CoarsePath

/-!
# The area index of a graph that changes

A graph object is built and updated time and again.  Every such call leaves a numbered graph, and
every call that changes the graph moves its revision on, so that an index built before is seen to
be stale.

* `GraphCall`, `GraphRun` : calls of the two builders on one graph object, and runs of them;
* `Maintainable`, `GraphRun.maintainable` : what **every run** leaves;
* `GraphRun.revision` : the revisions along a run;
* `area_index_spec` : **the index of every such graph** describes it until the graph changes.

Regions are counted in 32 bits and revisions in 64, so that both return to where they began:
`area_index_limits`.
-/

namespace Tess

open Graphs

universe u

/-! ### Runs of the builders -/

/-- A key that is not resident has generation zero, and no other has. -/
def GraphWorld.Clocked {S : Shape} {Tag : Type u} (W : GraphWorld S Tag) : Prop :=
  W.residency = .sparseResident →
    ∀ k, W.residencyGeneration k ≠ 0 ↔ (W.residentSlot k).isSome = true

/-- A call of one of the builders on a graph object, with any world of its residency policy. -/
inductive GraphCall (g g' : RegionGraph) : Prop
  /-- `build_region_graph`. -/
  | build {S : Shape} {Tag : Type u} (C : GraphClass S Tag) (prov : GraphProvider S Tag)
      (W : GraphWorld S Tag) (r : RegionGraphBuildResult)
      (hresidency : W.residency = g.labels.residency) (hclock : W.Clocked)
      (h : buildRegionGraph C prov W g.revision = some (r, g'))
  /-- `update_region_graph`, with any list of chunks. -/
  | update {S : Shape} {Tag : Type u} (C : GraphClass S Tag) (prov : GraphProvider S Tag)
      (W : GraphWorld S Tag) (dirtyChunks : List ℕ) (r : TopologyBuildResult)
      (hresidency : W.residency = g.labels.residency) (hclock : W.Clocked)
      (h : updateRegionGraph C prov W g dirtyChunks = some (r, g'))

/-- A run of such calls, with the number of those that change the graph. -/
inductive GraphRun (start : RegionGraph) : ℕ → RegionGraph → Prop
  | start : GraphRun start 0 start
  | change {n : ℕ} {g g' : RegionGraph} (h : GraphRun start n g) (hcall : GraphCall.{u} g g')
      (hne : g' ≠ g) : GraphRun start (n + 1) g'

/-- A graph object before the first build. -/
def emptyGraph (residency : Residency) : RegionGraph := { emptyContents residency with }

/-- **What the builders leave** of a graph object. -/
structure Maintainable (g : RegionGraph) : Prop extends Numbered g.toGraphContents where
  /-- The chunks of a sparse graph were resident when it was built. -/
  frozen : ∀ generation ∈ g.frozenGenerations, generation ≠ 0

section Calls

variable {S : Shape} {Tag : Type u} {C : GraphClass S Tag} {prov : GraphProvider S Tag}
  {W : GraphWorld S Tag} {g g' : RegionGraph} {t : LocalChunkTopology} {k : ℕ}

/-- The regions are numbered from one, in 32 bits. -/
def NumberedRegions (regions : List LocalRegion) : Prop :=
  ∀ j r, regions[j]? = some r → r.id = wrap32 (j + 1)

theorem NumberedRegions.openRegion {draft : TopologyDraft} (h : NumberedRegions draft.regions) :
    NumberedRegions draft.openRegion.regions := by
  intro j r hr
  rw [TopologyDraft.openRegion, List.getElem?_append] at hr
  split_ifs at hr with hj
  · exact h j r hr
  · rw [List.getElem?_singleton] at hr
    split_ifs at hr with h0
    rw [Option.some.injEq] at hr
    rw [← hr]
    show (draft.regions.length + 1) % 2 ^ 32 = _
    rw [wrap32, show j = draft.regions.length by omega]

theorem NumberedRegions.visitTile {draft : TopologyDraft} {cell : GridCoord3} {label tile : ℕ}
    (h : NumberedRegions draft.regions) :
    NumberedRegions (draft.visitTile S cell label tile).regions := by
  intro j r hr
  rw [TopologyDraft.visitTile] at hr
  rcases List.eq_nil_or_concat draft.regions with hnil | ⟨l, last, hl⟩
  · rw [hnil] at hr
    cases hr
  · rw [hl, List.concat_eq_append, List.modifyLast_concat, List.getElem?_append] at hr
    rw [hl, List.concat_eq_append] at h
    split_ifs at hr with hj
    · exact h j r (by rw [List.getElem?_append, if_pos hj, hr])
    · rw [List.getElem?_singleton] at hr
      split_ifs at hr with h0
      rw [Option.some.injEq] at hr
      rw [← hr]
      refine h j last ?_
      rw [List.getElem?_append, if_neg hj, List.getElem?_singleton, if_pos h0]

/-- **A build numbers the regions of its chunk.** -/
theorem numberedRegions_of_build {W : World S Tag} {cls : MovementClass S Tag}
    {page : ChunkPage Tag} (hk : k < S.chunkCount) (hpage : W.tryChunk k = some page)
    {r : TopologyBuildResult × LocalChunkTopology}
    (h : buildLocalChunkTopology cls W k = some r) :
    r.2.chunk = k ∧ NumberedRegions r.2.regions := by
  obtain ⟨-, hchunk, -, -, labels, draft, hflood, -, hregions, -⟩ :=
    buildLocalChunkTopology_of_page hk hpage h
  refine ⟨hchunk, ?_⟩
  rw [hregions]
  exact labelComponents_keeps (P := fun d : TopologyDraft => NumberedRegions d.regions)
    (N := fun _ => True) (fun _ _ _ _ => trivial) (fun _ hd => hd.openRegion)
    (fun _ _ _ _ hd => hd.visitTile) (fun _ _ => trivial) (fun j r hr => by cases hr) hflood

/-- The offsets that a build or an update derives. -/
theorem regionOffsets_of_finishGraph {labels : GraphLabels} {portals : List RegionPortal}
    {generations : List ℕ} {contents : GraphContents}
    (h : finishGraph C prov W labels portals generations = some contents) :
    contents.labels = labels ∧ contents.frozenGenerations = generations ∧
      contents.index.regionOffsets = regionOffsets labels.localTopologies := by
  obtain ⟨X, hX, rfl⟩ := Option.map_eq_some_iff.1 h
  obtain ⟨Y, hY, hXY⟩ := Option.bind_eq_some_iff.1 hX
  refine ⟨rfl, rfl, ?_⟩
  rw [show _ = Y.regionOffsets from (markProviderMissingReaches_eq_some hXY).1]
  unfold rebuildRegionIndex at hY
  dsimp only at hY
  split_ifs at hY
  obtain ⟨flags, -, rfl⟩ := Option.map_eq_some_iff.1 hY
  rfl

/-- **A full build** leaves a graph that can be maintained. -/
theorem maintainable_of_build (hclock : W.Clocked) {revision : ℕ} {r : RegionGraphBuildResult}
    (h : buildRegionGraph C prov W revision = some (r, g)) : Maintainable g := by
  obtain ⟨topologies, htops, hc⟩ := (isBuildOf_of_build h).spec
  obtain ⟨-, -, hlabels, -, hfrozen⟩ := contentsOf_eq_some hc
  obtain ⟨hlen, hall⟩ := getElem?_of_mapM htops
  have hbuilt : ∀ (i k : ℕ), (buildKeys W)[i]? = some k → ∃ t : LocalChunkTopology,
      topologies[i]? = some t ∧ t.chunk = k ∧ NumberedRegions t.regions := by
    intro i k hk
    obtain ⟨t, ht, htk⟩ := hall i k hk
    have hmem := List.mem_of_getElem? hk
    obtain ⟨page, hpage⟩ := mem_buildKeys.1 hmem
    obtain ⟨r, hr, rfl⟩ := Option.map_eq_some_iff.1 htk
    exact ⟨_, ht, numberedRegions_of_build (lt_of_mem_buildKeys hmem) hpage hr⟩
  refine ⟨⟨⟨buildKeys W, ?_, List.ext_getElem? fun i => ?_⟩, fun t ht => ?_,
    regionOffsets_of_contentsOf hc⟩, fun generation hgen => ?_⟩
  · rw [hlabels]
    exact keyedBy_labelsOf htops
  · rw [hlabels, List.getElem?_map]
    show topologies[i]?.map _ = _
    cases hk : (buildKeys W)[i]? with
    | none =>
      rw [List.getElem?_eq_none_iff, ← hlen] at hk
      rw [List.getElem?_eq_none hk]
      rfl
    | some k =>
      obtain ⟨t, ht, hchunk, -⟩ := hbuilt i k hk
      rw [ht, Option.map_some, hchunk]
  · rw [hlabels] at ht
    obtain ⟨i, hi⟩ := List.mem_iff_getElem?.1 (show t ∈ topologies from ht)
    have hk := List.getElem?_eq_getElem (hlen ▸ (List.getElem?_eq_some_iff.1 hi).1)
    obtain ⟨t', ht', -, hids⟩ := hbuilt i _ hk
    rw [hi, Option.some.injEq] at ht'
    exact ht' ▸ hids
  · rw [hfrozen, frozenOf] at hgen
    split_ifs at hgen with hdense
    · cases hgen
    · obtain ⟨k, hk, rfl⟩ := List.mem_map.1 hgen
      obtain ⟨page, hpage⟩ := mem_buildKeys.1 hk
      obtain ⟨slot, hslot, -⟩ := Option.map_eq_some_iff.1 hpage
      have hsparse : W.residency = .sparseResident := by
        cases hr : W.residency with
        | alwaysResident => exact absurd hr hdense
        | sparseResident => rfl
      rw [hclock hsparse k, hslot]
      rfl

/-- **An update that is not a full build** finds the chunks of the graph resident. -/
theorem resident_of_update (h : Maintainable g) (hresidency : W.residency = g.labels.residency)
    (hclock : W.Clocked) (hneeds : needsFullBuild C prov W g = false) {keys : List ℕ}
    (hkeys : g.labels.KeyedBy keys) {i : ℕ} (hk : keys[i]? = some k) :
    k < S.chunkCount ∧ ∃ page, W.tryChunk k = some page := by
  have hi := (List.getElem?_eq_some_iff.1 hk).1
  have hrec := hkeys.recorded
  suffices hslot : ∃ slot, W.residentSlot k = some slot by
    obtain ⟨slot, hslot⟩ := hslot
    exact ⟨W.key_lt k slot hslot, _, by rw [World.tryChunk, hslot]; rfl⟩
  rw [needsFullBuild, Bool.or_eq_false_iff] at hneeds
  obtain ⟨-, hneeds⟩ := hneeds
  cases hr : W.residency with
  | alwaysResident =>
    rw [← hresidency, hr] at hrec
    simp only [hr, bne_eq_false_iff_eq] at hneeds
    rw [hkeys.length] at hneeds
    rw [show keys = List.range keys.length from hrec, getElem?_range_eq_some] at hk
    obtain ⟨-, rfl⟩ := hk
    exact ⟨i, W.dense_slot hr i (hneeds ▸ hi)⟩
  | sparseResident =>
    rw [← hresidency, hr] at hrec
    simp only [hr, Bool.or_eq_false_iff, bne_eq_false_iff_eq, List.any_eq_false, List.mem_range,
      bne_iff_ne, ne_eq, not_not] at hneeds
    obtain ⟨⟨hlen, hfrozen⟩, hgen⟩ := hneeds
    have hgen := hgen i (by rw [hkeys.length]; exact hi)
    have hlt : i < g.frozenGenerations.length := by
      rw [hfrozen, ← hlen, hkeys.length]
      exact hi
    rw [show g.labels.topologyKeys = keys from hrec, List.getD_eq_getElem?_getD, hk,
      Option.getD_some, List.getD_eq_getElem?_getD, List.getElem?_eq_getElem hlt,
      Option.getD_some] at hgen
    have hne := h.frozen _ (List.getElem_mem hlt)
    rw [← hgen, hclock hr k, Option.isSome_iff_exists] at hne
    exact hne

/-- Rebuilt chunks keep their keys, and number their regions. -/
theorem numbered_of_rebuildDirty (h : Maintainable g)
    (hresidency : W.residency = g.labels.residency) (hclock : W.Clocked) (hneeds : needsFullBuild C prov W g = false) {dirty : List ℕ}
    {topologies : List LocalChunkTopology}
    (hrebuild : rebuildDirty C W.toWorld g.labels dirty = some topologies) :
    topologies.map (·.chunk) = g.labels.localTopologies.map (·.chunk) ∧
      ∀ t ∈ topologies, NumberedRegions t.regions := by
  obtain ⟨keys, hkeys, hchunks⟩ := h.keyed
  obtain ⟨hlen, hall⟩ := getElem?_of_mapM hrebuild
  rw [List.length_zipIdx] at hlen
  have hone : ∀ (i : ℕ) (t : LocalChunkTopology), g.labels.localTopologies[i]? = some t →
      ∃ t' : LocalChunkTopology, topologies[i]? = some t' ∧ t'.chunk = t.chunk ∧ NumberedRegions t'.regions := by
    intro i t ht
    have hk : keys[i]? = some t.chunk := by rw [← hchunks, List.getElem?_map, ht, Option.map_some]
    obtain ⟨t', ht', hbuilt⟩ := hall i (t, i) (by
      rw [List.getElem?_zipIdx, ht, Option.map_some, Nat.zero_add])
    refine ⟨t', ht', ?_⟩
    simp only [hkeys.keyAt hk] at hbuilt
    split_ifs at hbuilt with hdirty
    · obtain ⟨hlt, page, hpage⟩ := resident_of_update h hresidency hclock hneeds hkeys hk
      obtain ⟨r, hr, rfl⟩ := Option.map_eq_some_iff.1 hbuilt
      exact numberedRegions_of_build hlt hpage hr
    · rw [Option.some.injEq] at hbuilt
      subst hbuilt
      exact ⟨rfl, h.ids t (List.mem_of_getElem? ht)⟩
  constructor
  · refine List.ext_getElem? fun i => ?_
    rw [List.getElem?_map, List.getElem?_map]
    cases ht : g.labels.localTopologies[i]? with
    | none =>
      rw [List.getElem?_eq_none_iff, ← hlen] at ht
      rw [List.getElem?_eq_none ht]
    | some t =>
      obtain ⟨t', ht', hchunk, -⟩ := hone i t ht
      rw [ht', Option.map_some, Option.map_some, hchunk]
  · intro t ht
    obtain ⟨i, hi⟩ := List.mem_iff_getElem?.1 ht
    have hlt := (List.getElem?_eq_some_iff.1 hi).1
    obtain ⟨t', ht', -, hids⟩ := hone i _ (List.getElem?_eq_getElem (hlen ▸ hlt))
    rw [hi, Option.some.injEq] at ht'
    exact ht' ▸ hids

theorem revision_of_build {revision : ℕ} {r : RegionGraphBuildResult}
    (h : buildRegionGraph C prov W revision = some (r, g)) :
    g.revision = bumpRevision revision := by
  unfold buildRegionGraph at h
  simp only [Option.bind_eq_bind, Option.bind_eq_some_iff, Option.some.injEq, Prod.mk.injEq] at h
  obtain ⟨built, -, versionSum, -, contents, -, -, rfl⟩ := h
  rfl

/-- **An update** leaves the graph as it is, or moves its revision on and leaves one that can be
maintained. -/
theorem maintainable_of_update (hresidency : W.residency = g.labels.residency) (hclock : W.Clocked)
    {dirtyChunks : List ℕ} {r : TopologyBuildResult}
    (h : needsFullBuild C prov W g = false → Maintainable g)
    (hu : updateRegionGraph C prov W g dirtyChunks = some (r, g')) :
    g' = g ∨ Maintainable g' ∧ g'.revision = bumpRevision g.revision := by
  unfold updateRegionGraph at hu
  split_ifs at hu with hneeds hrange hempty
  · obtain ⟨⟨r', g''⟩, hbuild, heq⟩ := Option.map_eq_some_iff.1 hu
    obtain ⟨-, rfl⟩ := Prod.mk.inj heq
    exact Or.inr ⟨maintainable_of_build hclock hbuild, revision_of_build hbuild⟩
  · exact Or.inl (Prod.mk.inj (Option.some.inj hu)).2.symm
  · obtain ⟨r', -, heq⟩ := Option.map_eq_some_iff.1 hu
    exact Or.inl (Prod.mk.inj heq).2.symm
  · rw [Bool.not_eq_true] at hneeds
    have hg := h hneeds
    simp only [Option.bind_eq_bind, Option.bind_eq_some_iff, Option.some.injEq, Prod.mk.injEq] at hu
    obtain ⟨topologies, hrebuild, contents, hfinish, r', -, -, rfl⟩ := hu
    obtain ⟨hlabels, hfrozen, hoffsets⟩ := regionOffsets_of_finishGraph hfinish
    obtain ⟨hchunks, hids⟩ := numbered_of_rebuildDirty hg hresidency hclock hneeds hrebuild
    refine Or.inr ⟨?_, rfl⟩
    obtain ⟨keys, hkeys, hkeyed⟩ := hg.keyed
    have hlen : topologies.length = g.labels.localTopologies.length := by
      simpa using congrArg List.length hchunks
    refine ⟨⟨⟨keys, ⟨hkeys.sorted, ?_, ?_⟩, ?_⟩, fun t ht => ?_, ?_⟩, ?_⟩
    · rw [hlabels]
      exact hlen.trans hkeys.length
    · rw [hlabels]
      exact hkeys.recorded
    · rw [hlabels]
      exact hchunks.trans hkeyed
    · rw [hlabels] at ht
      exact hids t ht
    · rw [hoffsets, hlabels]
    · rw [hfrozen]
      exact hg.frozen

/-! ### Runs -/

/-- A graph without contents is not built for any world. -/
theorem needsFullBuild_emptyGraph (residency : Residency) :
    needsFullBuild C prov W (emptyGraph residency) = true := by
  have hne : (emptyGraph residency).binding ≠ graphBinding C prov := by
    intro heq
    cases congrArg GraphBinding.lattice heq
  simp [needsFullBuild, hne]

/-- **A call that changes the graph** moves its revision on. -/
theorem GraphCall.maintainable (hcall : GraphCall.{u} g g') (hne : g' ≠ g)
    (h : Maintainable g ∨ ∃ residency, g = emptyGraph residency) :
    Maintainable g' ∧ g'.revision = bumpRevision g.revision := by
  cases hcall with
  | build C prov W r hresidency hclock hbuild =>
    exact ⟨maintainable_of_build hclock hbuild, revision_of_build hbuild⟩
  | update C prov W dirtyChunks r hresidency hclock hupdate =>
    refine (maintainable_of_update hresidency hclock (fun hneeds => ?_) hupdate).resolve_left hne
    rcases h with h | ⟨residency, rfl⟩
    · exact h
    · rw [needsFullBuild_emptyGraph] at hneeds
      cases hneeds

end Calls

section Runs

variable {start g g' : RegionGraph} {n m revision : ℕ} {residency : Residency}

/-- Revisions run from one to the greatest number, and over again. -/
theorem iterate_bumpRevision (h0 : 0 < revision) (hlt : revision < 2 ^ 64) :
    bumpRevision^[n] revision = (revision - 1 + n) % (2 ^ 64 - 1) + 1 := by
  induction n with
  | zero =>
    rw [Function.iterate_zero_apply]
    omega
  | succ n ih =>
    rw [Function.iterate_succ_apply', ih, bumpRevision]
    split_ifs <;> omega

/-- **A revision does not come back** before all others have been there. -/
theorem iterate_bumpRevision_ne (hlt : revision < 2 ^ 64) (h0 : 0 < n) (hn : n < 2 ^ 64 - 1) :
    bumpRevision^[n] revision ≠ revision := by
  rcases Nat.eq_zero_or_pos revision with rfl | hpos
  · obtain ⟨k, rfl⟩ := Nat.exists_eq_succ_of_ne_zero h0.ne'
    rw [Function.iterate_succ_apply, show bumpRevision 0 = 1 from rfl,
      iterate_bumpRevision Nat.one_pos (by decide)]
    omega
  · rw [iterate_bumpRevision hpos hlt]
    omega

theorem bumpRevision_lt : bumpRevision revision < 2 ^ 64 := by
  unfold bumpRevision
  split_ifs <;> omega

/-- **Along a run** the graph can be maintained once it has been built, and its revision counts
the changes. -/
theorem GraphRun.spec (hstart : Maintainable start ∨ ∃ residency, start = emptyGraph residency)
    (h : GraphRun.{u} start n g) :
    (Maintainable g ∨ n = 0 ∧ g = start) ∧ g.revision = bumpRevision^[n] start.revision := by
  induction h with
  | start => exact ⟨Or.inr ⟨rfl, rfl⟩, rfl⟩
  | change _ hcall hne ih =>
    obtain ⟨hg, hrevision⟩ := ih
    obtain ⟨hg', hrevision'⟩ := hcall.maintainable hne <| by
      rcases hg with hg | ⟨-, rfl⟩
      · exact Or.inl hg
      · exact hstart
    exact ⟨Or.inl hg', by rw [hrevision', hrevision, Function.iterate_succ_apply']⟩

/-- The revisions fit 64 bits. -/
theorem GraphRun.revision_lt (h : GraphRun.{u} (emptyGraph residency) n g) :
    g.revision < 2 ^ 64 := by
  rw [(h.spec (Or.inr ⟨residency, rfl⟩)).2]
  cases n with
  | zero => exact Nat.two_pow_pos 64
  | succ n =>
    rw [Function.iterate_succ_apply']
    exact bumpRevision_lt

/-- **The area index** of a graph that the builders have made, in any order, describes it, and
finds the areas of its tiles until one of the builders changes the graph. -/
theorem area_index_spec (hrun : GraphRun.{u} (emptyGraph residency) (m + 1) g)
    (hfew : totalRegions g.labels.localTopologies < 2 ^ 32) (address : ℕ)
    (grouper : RegionRef → LocalRegion → ℕ) :
    ∃ r index, buildAreaIndex address g grouper = some (r, index) ∧
      if ((groupKeys grouper (areaRegions g.toGraphContents)).toFinset.erase 0).card <
          invalidRegionIndex then
        r = { areaCount := index.areas.length, connectionCount := index.connections.length } ∧
          index.Describes g.toGraphContents grouper ∧
          (∀ S c, index.areaAt S address g c = index.areaOf (g.labels.regionOf S c)) ∧
          ∀ n g', GraphRun.{u} g n g' → 0 < n → n < 2 ^ 64 - 1 →
            ∀ S c, index.areaAt S address g' c = 0
      else r = { status := .tooManyAreas } ∧ (∀ ref, index.areaOf ref = 0) ∧
        ∀ g' S c, index.areaAt S address g' c = 0 := by
  have hg : Maintainable g :=
    (hrun.spec (Or.inr ⟨residency, rfl⟩)).1.resolve_right fun h => Nat.succ_ne_zero m h.1
  obtain ⟨r, index, hbuild, hspec⟩ :=
    buildAreaIndex_spec grouper address hg.toNumbered hfew
  refine ⟨r, index, hbuild, ?_⟩
  split_ifs at hspec ⊢ with hfits
  · obtain ⟨hr, hdescribes, hidentity, hrevision⟩ := hspec
    refine ⟨hr, hdescribes, fun S c => ?_, fun n g' hlater h0 hn S c => ?_⟩
    · simp [AreaIndex.areaAt, AreaIndex.isValid, hidentity, hrevision]
    · have hne := iterate_bumpRevision_ne hrun.revision_lt h0 hn
      rw [← (hlater.spec (Or.inl hg)).2] at hne
      simp [AreaIndex.areaAt, AreaIndex.isValid, hrevision, hne.symm]
  · obtain ⟨hr, hidentity, hnone⟩ := hspec
    exact ⟨hr, hnone, fun g' S c => by simp [AreaIndex.areaAt, AreaIndex.isValid, hidentity]⟩

end Runs

/-! ### The open columns -/

theorem clocked_columns : columnsGraphWorld.Clocked := fun h => by cases h

/-- The graph of the columns is built once. -/
theorem graphRun_columns : GraphRun.{0} (emptyGraph .alwaysResident) 1 columnsGraph := by
  refine .change .start (.build columnsGraphClass (stairGraphProvider columns ())
    columnsGraphWorld _ rfl clocked_columns (Option.some_get isSome_build_columns).symm) ?_
  intro heq
  exact absurd (congrArg RegionGraph.revision heq) (by decide +kernel)

theorem area_index_spec_columns : ∃ r index,
    buildAreaIndex 0 columnsGraph (fun _ _ => 1) = some (r, index) ∧
      if ((groupKeys (fun _ _ => 1) (areaRegions columnsGraph.toGraphContents)).toFinset.erase
          0).card < invalidRegionIndex then
        r = { areaCount := index.areas.length, connectionCount := index.connections.length } ∧
          index.Describes columnsGraph.toGraphContents (fun _ _ => 1) ∧
          (∀ S c, index.areaAt S 0 columnsGraph c =
            index.areaOf (columnsGraph.labels.regionOf S c)) ∧
          ∀ n g', GraphRun.{0} columnsGraph n g' → 0 < n → n < 2 ^ 64 - 1 →
            ∀ S c, index.areaAt S 0 g' c = 0
      else r = { status := .tooManyAreas } ∧ (∀ ref, index.areaOf ref = 0) ∧
        ∀ g' S c, index.areaAt S 0 g' c = 0 :=
  area_index_spec graphRun_columns fitsIndex_columns.regions 0 fun _ _ => 1

/-! ### Graphs with as many regions as there are numbers -/

section Rows

variable {C : GraphClass longRow Unit} {W : GraphWorld longRow Unit} {page : ChunkPage Unit}

/-- **A row of tiles without neighbours** has a graph with a region for each of them. -/
theorem exists_graph_of_row (hdense : W.residency = .alwaysResident) (hkeys : buildKeys W = [0])
    (hpage : W.tryChunk 0 = some page) (hversion : W.topologyVersion 0 = 0)
    (hnext : ∀ a, tilePassable C.cls page a = true → localNeighbors C.cls page a = []) :
    ∃ (g : RegionGraph) (t : LocalChunkTopology), GraphRun.{0} (emptyGraph .alwaysResident) 1 g ∧
      g.portals = [] ∧ g.labels = labelsOf W [t] ∧ g.index.regionOffsets = regionOffsets [t] ∧
      t.chunk = 0 ∧ NumberedRegions t.regions ∧ t.regions.length =
        (List.range longRow.localTileCount).countP (tilePassable C.cls page) := by
  have hin : ¬ 0 ≥ longRow.chunkCount := by decide
  obtain ⟨labels, draft, hflood, hlen, -⟩ := @exists_labelComponents_isolated _ _ _
    (localNeighbors C.cls page) _ _ _ _ _ _ (fun _ => 0) {} _ _
    (@countsOpened longRow (longRow.chunkGrid.unrank 0)) longRow.localTileCount_pos hnext
    (List.nodup_range (n := longRow.localTileCount)) fun _ _ => rfl
  have hflood : floodChunk C.cls page (longRow.chunkGrid.unrank 0) = some (labels, draft) := hflood
  obtain ⟨r, hr⟩ : ∃ r, buildLocalChunkTopology C.cls W.toWorld 0 = some r := by
    rw [buildLocalChunkTopology, if_neg hin, hpage]
    simp only [hflood, Option.map_some]
    exact ⟨_, rfl⟩
  obtain ⟨-, -, -, hversion', labels', draft', hflood', -, hregions, hexits⟩ :=
    buildLocalChunkTopology_of_page (Nat.not_le.1 hin) hpage hr
  rw [hflood, Option.some.injEq, Prod.mk.injEq] at hflood'
  obtain ⟨rfl, rfl⟩ := hflood'
  have ht : chunkTopology C W.toWorld 0 = some r.2 := by rw [chunkTopology, hr, Option.map_some]
  obtain ⟨g, hg, hlabels, hoffsets, hportals⟩ := exists_graph_of_one hdense hkeys ht
    (hversion'.trans hversion) (hexits.trans (boundaryExits_eq_nil (by decide) hflood))
  obtain ⟨⟨s, g'⟩, hbuild, hcontents⟩ := Option.map_eq_some_iff.1 hg
  have hcontents : g'.toGraphContents = g.toGraphContents := hcontents
  obtain ⟨hchunk, hids⟩ := numberedRegions_of_build (Nat.not_le.1 hin) hpage hr
  refine ⟨g', r.2, .change .start (.build C _ W s hdense (fun h => by rw [hdense] at h; cases h)
    hbuild) fun heq => ?_, hcontents ▸ hportals, hcontents ▸ hlabels, hcontents ▸ hoffsets, hchunk,
    hids, ?_⟩
  · have hrevision := revision_of_build hbuild
    rw [heq] at hrevision
    exact absurd hrevision (by decide)
  · rw [hregions]
    exact hlen.trans (Nat.zero_add _)

/-- The first region of such a row. -/
theorem exists_firstRegion {g : RegionGraph} {t : LocalChunkTopology}
    (hlabels : g.labels = labelsOf W [t]) (hchunk : t.chunk = 0) (hids : NumberedRegions t.regions)
    (hpos : 0 < t.regions.length) : ∃ region, (⟨0, 1⟩, region) ∈ areaRegions g.toGraphContents := by
  refine ⟨t.regions[0], List.mem_flatMap.2 ⟨t, ?_, List.mem_map.2 ⟨_, List.getElem_mem hpos, ?_⟩⟩⟩
  · rw [hlabels]
    exact List.mem_singleton.2 rfl
  · rw [hids 0 _ (List.getElem?_eq_getElem hpos), hchunk]
    rfl

end Rows

/-- A graph whose indices have all wrapped has an index without regions. -/
theorem areaOf_of_invalid {g : RegionGraph} (address : ℕ) (grouper : RegionRef → LocalRegion → ℕ)
    (hinvalid : ∀ ref, g.indexOf ref = invalidRegionIndex) (hcount : g.count = 0)
    (hportals : g.portals = []) : ∃ r index, buildAreaIndex address g grouper = some (r, index) ∧
      r.status = .built ∧ ∀ ref, index.areaOf ref = 0 := by
  have hskip : ∀ (l : List (RegionRef × LocalRegion)) (s : AreaKeys),
      l.foldl (AreaKeys.note g.toGraphContents grouper) s = s := by
    intro l
    induction l with
    | nil => exact fun s => rfl
    | cons e l ih =>
      intro s
      rw [List.foldl_cons, ih, AreaKeys.note]
      simp only [hinvalid, if_true]
  have hrange : ∀ ref, indexInRange g.toGraphContents ref = true := fun ref => by
    simp [indexInRange, hinvalid]
  rw [buildAreaIndex, if_pos (by simp only [hrange, hportals, Bool.and_self, List.all_eq_true,
    implies_true, and_self])]
  have hnone : Sorted.sortUnique [] = [] := by simp [Sorted.sortUnique, Sorted.sorted]
  simp only [hskip, hcount, List.replicate_zero, hportals, hnone]
  exact ⟨_, _, rfl, rfl, fun ref => rfl⟩

theorem countP_longRow : (List.range longRow.localTileCount).countP
    (tilePassable longRowClass.cls longRowPage) = 2 ^ 32 := by
  have hcount : longRow.localTileCount = 2 * 2 ^ 32 := by decide
  rw [List.countP_congr (q := fun a => a % 2 == 0), hcount]
  · exact countP_even (2 ^ 32)
  · intro a ha
    rw [List.mem_range, hcount] at ha
    rw [tilePassable_longRow, beq_iff_eq]
    exact and_iff_right (by omega)

/-- Every second tile of the row is open, but for the first one. -/
def fullRowWorld : GraphWorld longRow Unit :=
  .ofDense (.dense longRow fun _ c => if c.x % 2 = 0 ∧ c.x ≠ 0 then 1 else 0) rfl

theorem tilePassable_fullRow {a : ℕ} :
    tilePassable longRowClass.cls (fullRowWorld.pages 0) a = true ↔
      a < 2 ^ 33 ∧ a % 2 = 0 ∧ a ≠ 0 := by
  rw [tilePassable, Bool.and_eq_true, decide_eq_true_eq]
  refine and_congr_right fun ha => ?_
  have hx : (longRow.coordOf (longRow.chunkGrid.unrank 0) a).x = (a : ℤ) := by
    rw [Shape.coordOf, unrank_longRow ha]
    simp [Extent3.unrank]
  show ((if (longRow.coordOf (longRow.chunkGrid.unrank 0) a).x % 2 = 0 ∧
    (longRow.coordOf (longRow.chunkGrid.unrank 0) a).x ≠ 0 then (1 : ℤ) else 0) != 0) = true ↔ _
  rw [hx]
  split_ifs with h
  · simp; omega
  · simp; omega

theorem countP_fullRow : (List.range longRow.localTileCount).countP
    (tilePassable longRowClass.cls (fullRowWorld.pages 0)) = 2 ^ 32 - 1 := by
  have hcount : longRow.localTileCount = 2 * 2 ^ 32 := by decide
  have hsplit : (List.range (2 * 2 ^ 32)).countP (fun a => a % 2 == 0) =
      (List.range (2 * 2 ^ 32)).countP
        (tilePassable longRowClass.cls (fullRowWorld.pages 0)) + 1 := by
    obtain ⟨k, hk⟩ : ∃ k, 2 * 2 ^ 32 = k + 1 := ⟨2 * 2 ^ 32 - 1, by norm_num⟩
    have hzero : ¬ tilePassable longRowClass.cls (fullRowWorld.pages 0) 0 = true := fun h =>
      (tilePassable_fullRow.1 h).2.2 rfl
    rw [hk, List.range_succ_eq_map, List.countP_cons_of_pos (by decide),
      List.countP_cons_of_neg hzero]
    congr 1
    refine List.countP_congr fun a ha => ?_
    obtain ⟨b, hb, rfl⟩ := List.mem_map.1 ha
    rw [List.mem_range] at hb
    rw [tilePassable_fullRow, beq_iff_eq]
    omega
  rw [countP_even] at hsplit
  rw [hcount]
  omega

/-- **A graph with one key too many.** -/
theorem exists_fullRowGraph : ∃ g : RegionGraph,
    GraphRun.{0} (emptyGraph .alwaysResident) 1 g ∧ totalRegions g.labels.localTopologies < 2 ^ 32 ∧
      (∃ region, (⟨0, 1⟩, region) ∈ areaRegions g.toGraphContents) ∧
      ((groupKeys (fun ref _ => ref.region)
        (areaRegions g.toGraphContents)).toFinset.erase 0).card = invalidRegionIndex := by
  obtain ⟨g, t, hrun, -, hlabels, -, hchunk, hids, hlen⟩ :=
    exists_graph_of_row (C := longRowClass) (W := fullRowWorld) rfl rfl rfl rfl
      fun _ => localNeighbors_row fun _ h =>
        ⟨(tilePassable_fullRow.1 h).1, (tilePassable_fullRow.1 h).2.1⟩
  rw [countP_fullRow] at hlen
  have htops : g.labels.localTopologies = [t] := by rw [hlabels]; rfl
  refine ⟨g, hrun, ?_, exists_firstRegion hlabels hchunk hids (by omega), ?_⟩
  · rw [htops, totalRegions]
    simp [hlen]
  · have hkeys : groupKeys (fun ref _ => ref.region) (areaRegions g.toGraphContents) =
        (List.range (2 ^ 32 - 1)).map (· + 1) := by
      refine List.ext_getElem? fun j => ?_
      rw [groupKeys, areaRegions, htops, List.flatMap_singleton, List.map_map, List.getElem?_map,
        List.getElem?_map]
      cases hj : t.regions[j]? with
      | none =>
        rw [List.getElem?_eq_none_iff, hlen] at hj
        rw [List.getElem?_eq_none (by rwa [List.length_range])]
        rfl
      | some r =>
        have hlt := (List.getElem?_eq_some_iff.1 hj).1
        rw [hlen] at hlt
        rw [List.getElem?_range hlt]
        simp only [Option.map_some, Function.comp_apply, hids j r hj, wrap32, Option.some.injEq]
        omega
    rw [hkeys, Finset.erase_eq_of_notMem (by simp), List.toFinset_card_of_nodup
      (List.nodup_range.map fun a b h => Nat.succ_injective h), List.length_map, List.length_range]
    rfl

/-! ### A revision that comes back -/

section Cycle

variable {S : Shape} {Tag : Type} {C : GraphClass S Tag} {prov : GraphProvider S Tag}
  {W : GraphWorld S Tag} {g : RegionGraph}

/-- A build depends on the revision in the revision only. -/
theorem buildRegionGraph_revision (revision : ℕ) : buildRegionGraph C prov W revision =
    (buildRegionGraph C prov W 0).map fun r =>
      (r.1, { r.2 with revision := bumpRevision revision }) := by
  unfold buildRegionGraph
  simp only [Option.bind_eq_bind, Option.map_bind, Function.comp_def, Option.map_some]

/-- **Building the same graph again and again** brings its revision back. -/
theorem graphRun_cycle (hdense : W.residency = .alwaysResident) {r : RegionGraphBuildResult}
    (h : buildRegionGraph C prov W 0 = some (r, g)) (n : ℕ) :
    GraphRun.{0} g n { g with revision := bumpRevision^[n] g.revision } := by
  have hresidency : g.labels.residency = W.residency := by
    obtain ⟨topologies, -, hc⟩ := (isBuildOf_of_build h).spec
    rw [(contentsOf_eq_some hc).2.2.1]
    rfl
  induction n with
  | zero => exact .start
  | succ n ih =>
    refine .change ih (.build C prov W r hresidency.symm
      (fun hsparse => by rw [hdense] at hsparse; cases hsparse) ?_) fun heq => ?_
    · rw [buildRegionGraph_revision, h, Option.map_some, Function.iterate_succ_apply']
    · have hrevision := congrArg RegionGraph.revision heq
      simp only [Function.iterate_succ_apply'] at hrevision
      generalize bumpRevision^[n] g.revision = v at hrevision
      unfold bumpRevision at hrevision
      split_ifs at hrevision <;> omega

end Cycle

/-- A graph with 2^32 regions: their indices have wrapped. -/
theorem exists_wrappedGraph : ∃ g : RegionGraph,
    GraphRun.{0} (emptyGraph .alwaysResident) 1 g ∧ g.portals = [] ∧ g.count = 0 ∧
      (∃ region, (⟨0, 1⟩, region) ∈ areaRegions g.toGraphContents) ∧
      ∀ ref, g.indexOf ref = invalidRegionIndex := by
  obtain ⟨g, t, hrun, hportals, hlabels, hoffsets, hchunk, hids, hlen⟩ :=
    exists_graph_of_row (C := longRowClass) (W := longRowWorld) rfl rfl rfl rfl
      fun _ => localNeighbors_longRow
  have hlen : t.regions.length = 2 ^ 32 := hlen.trans countP_longRow
  have hwrap : g.index.regionOffsets = [0, 0] := by
    rw [hoffsets, regionOffsets, List.scanl_cons, List.scanl_nil, hlen]
    decide
  refine ⟨g, hrun, hportals, by rw [GraphContents.count, hwrap]; rfl,
    exists_firstRegion hlabels hchunk hids (by omega), fun ref => ?_⟩
  rw [GraphContents.indexOf, hwrap, regionIndex]
  split_ifs with h0
  · rfl
  · cases g.labels.localIndex ref.chunk with
    | none => rfl
    | some i =>
      have hzero : [0, 0].getD (i + 1) 0 = 0 := by
        rcases i with _ | _ | i <;> rfl
      simp only [hzero, ge_iff_le, Nat.zero_le, if_true]

/-- The tile at the origin of the columns has a region. -/
theorem exists_originRegion : ∃ region,
    (columnsGraph.labels.regionOf columns ⟨0, 0, 0⟩, region) ∈
      areaRegions columnsGraph.toGraphContents := by
  have hmem : columnsGraph.labels.regionOf columns ⟨0, 0, 0⟩ ∈
      (areaRegions columnsGraph.toGraphContents).map Prod.fst := by decide +kernel
  obtain ⟨e, he, heq⟩ := List.mem_map.1 hmem
  exact ⟨e.2, heq ▸ he⟩

/-- **Where an index ends**: at a graph with 2^32 regions, whose indices wrap; at 2^32 - 1 keys,
which are too many; and when the revision has come back. -/
theorem area_index_limits :
    (∃ g : RegionGraph, GraphRun.{0} (emptyGraph .alwaysResident) 1 g ∧
      (∃ region, (⟨0, 1⟩, region) ∈ areaRegions g.toGraphContents) ∧
      ∃ r index, buildAreaIndex 0 g (fun _ _ => 1) = some (r, index) ∧ r.status = .built ∧
        index.areaOf ⟨0, 1⟩ = 0) ∧
    (∃ g : RegionGraph, GraphRun.{0} (emptyGraph .alwaysResident) 1 g ∧
      (∃ region, (⟨0, 1⟩, region) ∈ areaRegions g.toGraphContents) ∧
      ∃ r index, buildAreaIndex 0 g (fun ref _ => ref.region) = some (r, index) ∧
        r.status = .tooManyAreas ∧ index.areaOf ⟨0, 1⟩ = 0) ∧
    ∃ g g' : RegionGraph, GraphRun.{0} (emptyGraph .alwaysResident) 1 g ∧
      GraphRun.{0} g (2 ^ 64 - 1) g' ∧
      ∃ r index, buildAreaIndex 0 g (fun _ _ => 1) = some (r, index) ∧
        index.areaAt columns 0 g' ⟨0, 0, 0⟩ ≠ 0 := by
  refine ⟨?_, ?_, ?_⟩
  · obtain ⟨g, hrun, hportals, hcount, hregion, hinvalid⟩ := exists_wrappedGraph
    obtain ⟨r, index, hbuild, hstatus, hnone⟩ :=
      areaOf_of_invalid 0 (fun _ _ => 1) hinvalid hcount hportals
    exact ⟨g, hrun, hregion, r, index, hbuild, hstatus, hnone _⟩
  · obtain ⟨g, hrun, hfew, hregion, hcard⟩ := exists_fullRowGraph
    have hg : Maintainable g :=
      (hrun.spec (Or.inr ⟨_, rfl⟩)).1.resolve_right fun h => Nat.one_ne_zero h.1
    obtain ⟨r, index, hbuild, hspec⟩ :=
      buildAreaIndex_spec (fun ref _ => ref.region) 0 hg.toNumbered hfew
    rw [hcard, if_neg (lt_irrefl _)] at hspec
    exact ⟨g, hrun, hregion, r, index, hbuild, by rw [hspec.1], hspec.2.2 _⟩
  · have hbuild := (Option.some_get isSome_build_columns).symm
    have hg : Maintainable columnsGraph := maintainable_of_build clocked_columns hbuild
    obtain ⟨r, index, hindex, hspec⟩ := buildAreaIndex_spec (fun _ _ => 1) 0 hg.toNumbered
      fitsIndex_columns.regions
    have hrevision : columnsGraph.revision = 1 := revision_of_build hbuild
    have hcycle := graphRun_cycle (g := columnsGraph) rfl hbuild (2 ^ 64 - 1)
    have hback : bumpRevision^[2 ^ 64 - 1] columnsGraph.revision = columnsGraph.revision := by
      rw [hrevision, iterate_bumpRevision Nat.one_pos (by decide)]
      decide
    rw [hback] at hcycle
    have hfits : ((groupKeys (fun _ _ => 1)
        (areaRegions columnsGraph.toGraphContents)).toFinset.erase 0).card <
          invalidRegionIndex := by
      refine lt_of_le_of_lt (Finset.card_le_card (t := {1}) fun k hk => ?_) (by decide)
      obtain ⟨e, -, rfl⟩ := List.mem_map.1 (List.mem_toFinset.1 (Finset.mem_of_mem_erase hk))
      exact Finset.mem_singleton_self 1
    rw [if_pos hfits] at hspec
    obtain ⟨-, hdescribes, hidentity, hgraph⟩ := hspec
    obtain ⟨region, hregion⟩ := exists_originRegion
    obtain ⟨area, harea, hof, -⟩ := hdescribes.grouped _ _ hregion Nat.one_ne_zero
    obtain ⟨i, hi⟩ := List.mem_iff_getElem?.1 harea
    refine ⟨columnsGraph, columnsGraph, graphRun_columns, hcycle, r, index, hindex, ?_⟩
    rw [AreaIndex.areaAt, AreaIndex.isValid, hidentity, hgraph, beq_self_eq_true, beq_self_eq_true,
      Bool.and_self, if_pos rfl, hof, hdescribes.ids i area hi]
    exact Nat.succ_ne_zero i

end Tess
