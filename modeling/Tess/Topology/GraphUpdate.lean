import Tess.Topology.RegionGraph
import Tess.Storage.Edits
import Tess.Lib.Sorted

/-!
# Incremental updates of the region graph

An update builds the dirty chunks anew, derives the portals of the dirty chunks and of their
neighbours anew and sorts the portals by chunk.  That is a full build of the edited world,
because the portals of a chunk depend on the chunk and its neighbours only and because being a
neighbour is symmetric.

* `GraphLabels.KeyedBy` : the labels of a build, one topology for each of some increasing keys;
* `EditedWithin` : a world and what some edits of the given chunks make of it;
* `chunkPortals_congr` : **the portals of a chunk that is not affected stay**;
* `updateRegionGraph_contents` : one update gives the contents of a full build;
* `update_region_graph_exact` : **so does every update of a run** of updates.
-/

namespace Tess

/-! ### Keys and positions -/

theorem lowerBound_of_getElem? {keys : List ℕ} (hkeys : keys.Pairwise (· < ·)) {i k : ℕ}
    (h : keys[i]? = some k) : lowerBound keys k = i :=
  Sorted.lowerBoundBy_eq (fun b : ℕ => decide_eq_false (lt_irrefl b))
    (hkeys.imp fun hlt => decide_eq_true hlt) h

theorem getElem?_range_eq_some {n i k : ℕ} : (List.range n)[i]? = some k ↔ i < n ∧ i = k := by
  rw [List.getElem?_eq_some_iff]
  simp

/-- **Labels of a build**: one topology for each of some increasing keys. -/
structure GraphLabels.KeyedBy (G : GraphLabels) (keys : List ℕ) : Prop where
  /-- The keys increase. -/
  sorted : keys.Pairwise (· < ·)
  /-- There is one topology for each key. -/
  length : G.localTopologies.length = keys.length
  /-- A dense graph has all keys, a sparse one has recorded its keys. -/
  recorded : match G.residency with
    | .alwaysResident => keys = List.range keys.length
    | .sparseResident => G.topologyKeys = keys

namespace GraphLabels.KeyedBy

variable {G : GraphLabels} {keys : List ℕ} {i k : ℕ}

theorem localIndex_eq_some (h : G.KeyedBy keys) : G.localIndex k = some i ↔ keys[i]? = some k := by
  obtain ⟨hsorted, hlen, hrec⟩ := h
  unfold localIndex
  cases hr : G.residency with
  | alwaysResident =>
    simp only [hr] at hrec ⊢
    rw [hlen, hrec, List.length_range, getElem?_range_eq_some]
    constructor
    · intro h
      split_ifs at h with hk
      simp only [Option.some.injEq] at h
      exact ⟨h ▸ hk, h.symm⟩
    · rintro ⟨hi, rfl⟩
      rw [if_pos hi]
  | sparseResident =>
    simp only [hr] at hrec ⊢
    rw [hrec]
    constructor
    · intro h
      split_ifs at h with hk
      simp only [Option.some.injEq] at h
      rw [← h, hk]
    · intro h
      rw [lowerBound_of_getElem? hsorted h, if_pos h]

theorem keyAt (h : G.KeyedBy keys) (hk : keys[i]? = some k) : G.keyAt i = k := by
  obtain ⟨-, -, hrec⟩ := h
  unfold GraphLabels.keyAt
  cases hr : G.residency with
  | alwaysResident =>
    simp only [hr] at hrec ⊢
    rw [hrec] at hk
    exact (getElem?_range_eq_some.1 hk).2
  | sparseResident =>
    simp only [hr] at hrec ⊢
    rw [hrec, List.getD_eq_getElem?_getD, hk, Option.getD_some]

/-- The keys in the order of their positions. -/
theorem map_keyAt (h : G.KeyedBy keys) :
    (List.range G.localTopologies.length).map G.keyAt = keys := by
  refine List.ext_getElem? fun i => ?_
  rw [List.getElem?_map, h.length]
  cases hk : keys[i]? with
  | none =>
    have hi := List.getElem?_eq_none_iff.1 hk
    rw [List.getElem?_eq_none (by rwa [List.length_range])]
    rfl
  | some k =>
    have hi := (List.getElem?_eq_some_iff.1 hk).1
    rw [List.getElem?_range hi, Option.map_some, h.keyAt hk]

theorem hasChunk_iff (h : G.KeyedBy keys) : G.hasChunk k = true ↔ k ∈ keys := by
  rw [hasChunk, Option.isSome_iff_exists]
  simp only [h.localIndex_eq_some]
  exact List.mem_iff_getElem?.symm

theorem localTopology_eq (h : G.KeyedBy keys) (hk : keys[i]? = some k) :
    G.localTopology k = G.localTopologies[i]? := by
  rw [localTopology, h.localIndex_eq_some.2 hk]
  rfl

theorem localTopology_none (h : G.KeyedBy keys) (hk : k ∉ keys) : G.localTopology k = none := by
  have hno := mt h.hasChunk_iff.1 hk
  rw [hasChunk, Option.not_isSome_iff_eq_none] at hno
  rw [localTopology, hno]
  rfl

end GraphLabels.KeyedBy

/-! ### The portals of one chunk -/

section Portals

variable {S : Shape} {Tag : Type*} {prov : GraphProvider S Tag} {W W' : World S Tag}
  {G G' : GraphLabels} {topology : LocalChunkTopology}

theorem regionOf_of_contains {c : Coord3} (hc : S.contains c = true) : G.regionOf S c =
    ⟨S.chunkKey (S.chunkCoord c), ((G.localTopology (S.chunkKey (S.chunkCoord c))).map
      fun t => t.regionAt (S.localTileId (S.localCoord c))).getD 0⟩ := by
  simp only [GraphLabels.regionOf, hc, Bool.not_true, Bool.false_eq_true, if_false]
  cases G.localTopology (S.chunkKey (S.chunkCoord c)) <;> rfl

theorem regionOf_of_not_contains {c : Coord3} (hc : ¬ S.contains c = true) :
    G.regionOf S c = ⟨2 ^ 64 - 1, 0⟩ := by
  simp only [GraphLabels.regionOf, hc, Bool.not_false, if_true]

theorem regionOf_chunk {c : Coord3} (hc : S.contains c = true) :
    (G.regionOf S c).chunk = S.chunkKey (S.chunkCoord c) := by
  rw [regionOf_of_contains hc]

theorem regionOf_congr {c : Coord3} (h : G'.localTopology (S.chunkKey (S.chunkCoord c)) =
    G.localTopology (S.chunkKey (S.chunkCoord c))) : G'.regionOf S c = G.regionOf S c := by
  by_cases hc : S.contains c = true
  · rw [regionOf_of_contains hc, regionOf_of_contains hc, h]
  · rw [regionOf_of_not_contains hc, regionOf_of_not_contains hc]

/-- The chunk of an owned source. -/
theorem providerSourceIsOwned_iff {c : Coord3} {chunk : ℕ} :
    providerSourceIsOwned S c chunk = true ↔
      S.contains c = true ∧ S.chunkKey (S.chunkCoord c) = chunk := by
  rw [providerSourceIsOwned, Bool.and_eq_true, beq_iff_eq]

/-- The portals of a chunk leave that chunk. -/
theorem chunk_of_mem_chunkPortals {portal : RegionPortal}
    (h : portal ∈ chunkPortals prov W G topology) : portal.fromRegion.chunk = topology.chunk := by
  rcases List.mem_append.1 h with h | h
  · obtain ⟨exit, -, he⟩ := List.mem_filterMap.1 h
    dsimp only at he
    split_ifs at he
    simp only [Option.some.injEq] at he
    rw [← he]
  · obtain ⟨e, -, he⟩ := List.mem_filterMap.1 h
    dsimp only at he
    split_ifs at he with hown hto hregion
    simp only [Option.some.injEq] at he
    rw [Bool.not_eq_true', Bool.not_eq_false, providerSourceIsOwned_iff] at hown
    rw [← he, regionOf_chunk hown.1, hown.2]

/-- **The portals of a chunk** depend on the labels of the chunk and its neighbours and on the
edges of the provider out of the chunk. -/
theorem chunkPortals_congr {k : ℕ} (hchunk : topology.chunk = k) (hk : k < S.chunkCount)
    (hexits : ∀ exit ∈ topology.boundaryExits, IsExit S (S.chunkGrid.unrank k) exit)
    (hself : G'.localTopology k = G.localTopology k)
    (hnear : ∀ g ∈ forEachFaceNeighborChunk S (S.chunkGrid.unrank k),
      G'.localTopology (S.chunkKey g) = G.localTopology (S.chunkKey g))
    (hedges : prov.forEachTransition W' k = prov.forEachTransition W k) :
    chunkPortals prov W' G' topology = chunkPortals prov W G topology := by
  have hg := Extent3.has_unrank hk
  unfold chunkPortals appendChunkPortals appendProviderPortals
  rw [hchunk, hedges]
  congr 1
  · refine List.filterMap_congr fun exit he => ?_
    simp only [regionOf_congr (hnear _ ((hexits exit he).mem_neighbors hg))]
  · refine List.filterMap_congr fun e he => ?_
    by_cases hown : providerSourceIsOwned S e.1 k = true
    · obtain ⟨h1, h1k⟩ := providerSourceIsOwned_iff.1 hown
      have hcell : S.chunkCoord e.1 = S.chunkGrid.unrank k := by
        rw [← h1k, Shape.chunkKey, Extent3.unrank_rank (Shape.has_chunkCoord h1)]
      by_cases h2 : S.contains e.2 = true
      · have hland := prov.lands W k hk e he h1 h2
        have hsource : G'.regionOf S e.1 = G.regionOf S e.1 := regionOf_congr (by rw [h1k, hself])
        have htarget : G'.regionOf S e.2 = G.regionOf S e.2 := by
          refine regionOf_congr ?_
          rcases (sameOrFaceNeighborChunk_iff h1 h2).1 hland with hsame | hadj
          · rw [← hsame, h1k, hself]
          · refine hnear _ ?_
            rw [mem_forEachFaceNeighborChunk hg, ← hcell]
            exact ⟨Shape.has_chunkCoord h2, hadj⟩
        simp only [hsource, htarget]
      · simp only [h2]
        rfl
    · simp only [hown]
      rfl

end Portals

/-! ### Full builds -/

section Lists

variable {α β γ : Type*} {f g : α → Option β} {l : List α} {l' : List β}

theorem mapM_congr_of_mem (h : ∀ a ∈ l, f a = g a) : l.mapM f = l.mapM g := by
  induction l with
  | nil => rfl
  | cons a l ih =>
    rw [List.mapM_cons, List.mapM_cons, h a List.mem_cons_self,
      ih fun b hb => h b (List.mem_cons_of_mem a hb)]

theorem map_mapM (p : β → γ) : (l.mapM f).map (List.map p) = l.mapM fun a => (f a).map p := by
  induction l with
  | nil => rfl
  | cons a l ih =>
    rw [List.mapM_cons, List.mapM_cons, ← ih]
    cases f a <;> cases l.mapM f <;> rfl

/-- What a successful run over a list returns. -/
theorem getElem?_of_mapM (h : l.mapM f = some l') :
    l'.length = l.length ∧
      ∀ (i : ℕ) a, l[i]? = some a → ∃ b, l'[i]? = some b ∧ f a = some b := by
  induction l generalizing l' with
  | nil =>
    rw [List.mapM_nil, Option.pure_def, Option.some.injEq] at h
    subst h
    simp
  | cons a l ih =>
    rw [List.mapM_cons] at h
    obtain ⟨b, hb, h⟩ := Option.bind_eq_some_iff.1 h
    obtain ⟨bs, hbs, h⟩ := Option.bind_eq_some_iff.1 h
    rw [Option.pure_def, Option.some.injEq] at h
    subst h
    obtain ⟨hlen, hall⟩ := ih hbs
    refine ⟨by simp [hlen], fun i c hc => ?_⟩
    cases i with
    | zero =>
      simp only [List.getElem?_cons_zero, Option.some.injEq] at hc ⊢
      exact ⟨b, rfl, hc ▸ hb⟩
    | succ i =>
      rw [List.getElem?_cons_succ] at hc ⊢
      exact hall i c hc

theorem mem_of_mapM (h : l.mapM f = some l') {b : β} (hb : b ∈ l') : ∃ a ∈ l, f a = some b := by
  obtain ⟨i, hi⟩ := List.mem_iff_getElem?.1 hb
  obtain ⟨hlen, hall⟩ := getElem?_of_mapM h
  have hil := (List.getElem?_eq_some_iff.1 hi).1
  rw [hlen] at hil
  obtain ⟨b', hb', ha⟩ := hall i _ (List.getElem?_eq_getElem hil)
  rw [hi, Option.some.injEq] at hb'
  exact ⟨l[i], List.getElem_mem hil, hb' ▸ ha⟩

/-- A second run that keeps some of the results of the first and computes the others anew. -/
theorem mapM_zipIdx_eq {h : β × ℕ → Option β} (n : ℕ) (hl : l.mapM f = some l')
    (hsame : ∀ (i : ℕ) a b, l[i]? = some a → f a = some b → h (b, n + i) = g a) :
    (l'.zipIdx n).mapM h = l.mapM g := by
  induction l generalizing l' n with
  | nil =>
    rw [List.mapM_nil, Option.pure_def, Option.some.injEq] at hl
    subst hl
    rfl
  | cons a l ih =>
    rw [List.mapM_cons] at hl
    obtain ⟨b, hb, hl⟩ := Option.bind_eq_some_iff.1 hl
    obtain ⟨bs, hbs, hl⟩ := Option.bind_eq_some_iff.1 hl
    rw [Option.pure_def, Option.some.injEq] at hl
    subst hl
    rw [List.zipIdx_cons, List.mapM_cons, List.mapM_cons, ih (n + 1) hbs fun i c d hc hd => ?_]
    · have hhead := hsame 0 a b rfl hb
      rw [Nat.add_zero] at hhead
      rw [hhead]
    · rw [Nat.add_right_comm, Nat.add_assoc]
      exact hsame (i + 1) c d (by rwa [List.getElem?_cons_succ]) hd

end Lists

section Builds

variable {S : Shape} {Tag : Type*} {C : GraphClass S Tag} {prov : GraphProvider S Tag}
  {W W' : GraphWorld S Tag} {k : ℕ}

/-- The keys of a build are those of the present chunks. -/
theorem mem_buildKeys : k ∈ buildKeys W ↔ ∃ page, W.tryChunk k = some page := by
  have hres : (∃ page, W.tryChunk k = some page) ↔ (W.residentSlot k).isSome = true := by
    rw [Option.isSome_iff_exists]
    simp [World.tryChunk]
  rw [hres, buildKeys]
  cases hr : W.residency with
  | alwaysResident =>
    simp only [List.mem_range]
    rw [Option.isSome_iff_exists]
    constructor
    · exact fun hk => ⟨k, W.dense_slot hr k hk⟩
    · rintro ⟨slot, hs⟩
      exact W.key_lt k slot hs
  | sparseResident =>
    simp only [List.mem_mergeSort]
    exact W.mem_keys k

theorem lt_of_mem_buildKeys (h : k ∈ buildKeys W) : k < S.chunkCount := by
  obtain ⟨page, hp⟩ := mem_buildKeys.1 h
  obtain ⟨slot, hs, -⟩ := Option.map_eq_some_iff.1 hp
  exact W.key_lt k slot hs

theorem sorted_buildKeys : (buildKeys W).Pairwise (· < ·) := by
  unfold buildKeys
  cases W.residency with
  | alwaysResident => exact List.pairwise_lt_range
  | sparseResident =>
    have hle : (W.residentKeys.mergeSort fun a b => decide (a ≤ b)).Pairwise (· ≤ ·) :=
      Sorted.pairwise_sorted
    have hne : (W.residentKeys.mergeSort fun a b => decide (a ≤ b)).Nodup :=
      (List.mergeSort_perm _ _).nodup_iff.2 W.keys_nodup
    exact hle.imp₂ (fun a b hab hab' => lt_of_le_of_ne hab hab') hne

variable (C) in
/-- The topology that a build computes for a key. -/
def chunkTopology (W : World S Tag) (k : ℕ) : Option LocalChunkTopology :=
  (buildLocalChunkTopology C.cls W k).map Prod.snd

/-- What a build records of a chunk. -/
theorem chunkTopology_spec {t : LocalChunkTopology} (hk : k ∈ buildKeys W)
    (h : chunkTopology C W.toWorld k = some t) :
    t.chunk = k ∧ ∀ exit ∈ t.boundaryExits, IsExit S (S.chunkGrid.unrank k) exit := by
  obtain ⟨page, hp⟩ := mem_buildKeys.1 hk
  obtain ⟨r, hr, rfl⟩ := Option.map_eq_some_iff.1 h
  obtain ⟨-, hchunk, -, -, labels, draft, hflood, -, -, hexits⟩ :=
    buildLocalChunkTopology_of_page (lt_of_mem_buildKeys hk) hp hr
  refine ⟨hchunk, fun exit he => ?_⟩
  rw [hexits] at he
  exact isExit_of_floodChunk hflood exit he

/-- The local builds of a full build never report a failure. -/
theorem buildChunk_eq (hk : k ∈ buildKeys W) :
    buildChunk C W.toWorld k = buildLocalChunkTopology C.cls W.toWorld k := by
  obtain ⟨page, hp⟩ := mem_buildKeys.1 hk
  unfold buildChunk
  cases hr : buildLocalChunkTopology C.cls W.toWorld k with
  | none => rfl
  | some r =>
    have hstatus := (buildLocalChunkTopology_of_page (lt_of_mem_buildKeys hk) hp hr).1
    simp [Option.filter, hstatus]

variable (W) in
/-- The labels of a build from its topologies. -/
def labelsOf (topologies : List LocalChunkTopology) : GraphLabels where
  residency := W.residency
  topologyKeys := if W.residency = .alwaysResident then [] else buildKeys W
  localTopologies := topologies

variable (W) in
/-- The generations that a build freezes. -/
def frozenOf : List ℕ :=
  if W.residency = .alwaysResident then [] else (buildKeys W).map W.residencyGeneration

variable (C prov W) in
/-- **The contents of a full build** from its topologies. -/
def contentsOf (topologies : List LocalChunkTopology) : Option GraphContents :=
  (topologyVersionSum (topologies.map (·.topologyVersion))).bind fun _ =>
    finishGraph C prov W (labelsOf W topologies)
      (topologies.flatMap (chunkPortals prov W.toWorld (labelsOf W topologies))) (frozenOf W)

theorem map_buildRegionGraph {revision : ℕ} :
    (buildRegionGraph C prov W revision).map (fun r => r.2.toGraphContents) =
      ((buildKeys W).mapM (chunkTopology C W.toWorld)).bind (contentsOf C prov W) := by
  have htops : (buildKeys W).mapM (chunkTopology C W.toWorld) =
      ((buildKeys W).mapM (buildChunk C W.toWorld)).map (List.map Prod.snd) := by
    rw [map_mapM]
    exact mapM_congr_of_mem fun k hk => by rw [buildChunk_eq hk]; rfl
  rw [htops]
  unfold buildRegionGraph
  cases hb : (buildKeys W).mapM (buildChunk C W.toWorld) with
  | none => simp [hb]
  | some built =>
    have hversion : built.map (fun r => r.1.topologyVersionSum) =
        (built.map Prod.snd).map (·.topologyVersion) := by
      rw [List.map_map]
      refine List.map_congr_left fun r hr => ?_
      obtain ⟨k, -, hk⟩ := mem_of_mapM hb hr
      exact topologyVersionSum_eq (Option.filter_eq_some_iff.1 hk).1
    simp only [hb, Option.bind_eq_bind, Option.bind_some, Option.map_some, contentsOf, hversion]
    cases topologyVersionSum ((built.map Prod.snd).map (·.topologyVersion)) with
    | none => rfl
    | some versionSum =>
      simp only [Option.bind_some]
      change Option.map _ (Option.bind (finishGraph C prov W (labelsOf W (built.map Prod.snd))
        ((built.map Prod.snd).flatMap
          (chunkPortals prov W.toWorld (labelsOf W (built.map Prod.snd)))) (frozenOf W)) _) = _
      cases finishGraph C prov W (labelsOf W (built.map Prod.snd))
        ((built.map Prod.snd).flatMap
          (chunkPortals prov W.toWorld (labelsOf W (built.map Prod.snd)))) (frozenOf W) <;> rfl

/-! ### Labels of a build -/

variable {topologies : List LocalChunkTopology}

theorem keyedBy_labelsOf (h : (buildKeys W).mapM (chunkTopology C W.toWorld) = some topologies) :
    (labelsOf W topologies).KeyedBy (buildKeys W) where
  sorted := sorted_buildKeys
  length := (getElem?_of_mapM h).1
  recorded := by
    unfold labelsOf buildKeys
    cases hr : W.residency with
    | alwaysResident => simp only [List.length_range]
    | sparseResident => simp

/-- The labels of a present chunk are those of its own build. -/
theorem localTopology_labelsOf
    (h : (buildKeys W).mapM (chunkTopology C W.toWorld) = some topologies)
    (hk : k ∈ buildKeys W) : (labelsOf W topologies).localTopology k =
      chunkTopology C W.toWorld k := by
  obtain ⟨i, hi⟩ := List.mem_iff_getElem?.1 hk
  obtain ⟨t, ht, hkt⟩ := (getElem?_of_mapM h).2 i k hi
  rw [(keyedBy_labelsOf h).localTopology_eq hi, hkt]
  exact ht

variable (prov W) in
/-- The portals out of the chunk of a key. -/
def portalsAt (G : GraphLabels) (k : ℕ) : List RegionPortal :=
  ((G.localTopology k).map (chunkPortals prov W.toWorld G)).getD []

theorem flatMap_of_mapM {α β γ : Type*} {f : α → Option β} {l : List α} {l' : List β}
    (h : l.mapM f = some l') (p : β → List γ) :
    l'.flatMap p = l.flatMap fun a => ((f a).map p).getD [] := by
  induction l generalizing l' with
  | nil =>
    rw [List.mapM_nil, Option.pure_def, Option.some.injEq] at h
    subst h
    rfl
  | cons a l ih =>
    rw [List.mapM_cons] at h
    obtain ⟨b, hb, h⟩ := Option.bind_eq_some_iff.1 h
    obtain ⟨bs, hbs, h⟩ := Option.bind_eq_some_iff.1 h
    rw [Option.pure_def, Option.some.injEq] at h
    subst h
    rw [List.flatMap_cons, List.flatMap_cons, ih hbs, hb]
    rfl

/-- **The portals of a build** are grouped by their chunks, in the order of the keys. -/
theorem flatMap_chunkPortals
    (h : (buildKeys W).mapM (chunkTopology C W.toWorld) = some topologies) :
    topologies.flatMap (chunkPortals prov W.toWorld (labelsOf W topologies)) =
      (buildKeys W).flatMap (portalsAt prov W (labelsOf W topologies)) := by
  rw [flatMap_of_mapM h]
  refine List.flatMap_congr fun k hk => ?_
  rw [portalsAt, localTopology_labelsOf h hk]

theorem chunk_of_mem_portalsAt
    (h : (buildKeys W).mapM (chunkTopology C W.toWorld) = some topologies) {portal : RegionPortal}
    (hp : portal ∈ portalsAt prov W (labelsOf W topologies) k) : portal.fromRegion.chunk = k := by
  unfold portalsAt at hp
  by_cases hk : k ∈ buildKeys W
  · rw [localTopology_labelsOf h hk] at hp
    cases ht : chunkTopology C W.toWorld k with
    | none => simp [ht] at hp
    | some t =>
      rw [ht] at hp
      rw [chunk_of_mem_chunkPortals hp, (chunkTopology_spec hk ht).1]
  · rw [(keyedBy_labelsOf h).localTopology_none hk] at hp
    simp at hp

end Builds

/-! ### Edits -/

section Edits

variable {S : Shape} {Tag : Type*} {C : GraphClass S Tag} {prov : GraphProvider S Tag}
  {W W' : GraphWorld S Tag} {dirtyChunks : List ℕ} {k i : ℕ}
  {topologies topologies' : List LocalChunkTopology}

/-- **Edits of the given chunks**: everything else of the world stays, and so does the
residency. -/
structure EditedWithin (dirtyChunks : List ℕ) (W W' : GraphWorld S Tag) : Prop where
  /-- The policy stays. -/
  residency : W'.residency = W.residency
  /-- No chunk is loaded or evicted. -/
  keys : W'.residentKeys = W.residentKeys
  /-- So no generation advances. -/
  generation : W'.residencyGeneration = W.residencyGeneration
  /-- The pages of the other chunks stay. -/
  pages : ∀ k, k ∉ dirtyChunks → W'.tryChunk k = W.tryChunk k
  /-- Their versions stay. -/
  versions : ∀ k, k ∉ dirtyChunks → W'.topologyVersion k = W.topologyVersion k

namespace EditedWithin

theorem buildKeys_eq (h : EditedWithin dirtyChunks W W') : buildKeys W' = buildKeys W := by
  unfold buildKeys
  rw [h.residency, h.keys]

theorem labelsOf_eq (h : EditedWithin dirtyChunks W W') : labelsOf W' topologies =
    { labelsOf W topologies' with localTopologies := topologies } := by
  unfold labelsOf
  rw [h.residency, h.buildKeys_eq]

theorem frozenOf_eq (h : EditedWithin dirtyChunks W W') : frozenOf W' = frozenOf W := by
  unfold frozenOf
  rw [h.residency, h.buildKeys_eq, h.generation]

theorem chunkTopology_eq (h : EditedWithin dirtyChunks W W') (hk : k ∉ dirtyChunks) :
    chunkTopology C W'.toWorld k = chunkTopology C W.toWorld k := by
  unfold chunkTopology
  rw [buildLocalChunkTopology_congr (h.pages k hk) (h.versions k hk)]

/-- A chunk that is not dirty or not present reads alike before and after. -/
theorem tryChunk_eq (h : EditedWithin dirtyChunks W W') (hk : k ∈ buildKeys W → k ∉ dirtyChunks) :
    W'.tryChunk k = W.tryChunk k := by
  by_cases hmem : k ∈ buildKeys W
  · exact h.pages k (hk hmem)
  · have hmem' : k ∉ buildKeys W' := by rwa [h.buildKeys_eq]
    rw [mem_buildKeys, ← Option.isSome_iff_exists, Option.not_isSome_iff_eq_none] at hmem hmem'
    rw [hmem, hmem']

end EditedWithin

theorem mem_dirtyPositions
    (h : (buildKeys W).mapM (chunkTopology C W.toWorld) = some topologies)
    (hk : (buildKeys W)[i]? = some k) :
    i ∈ dirtyPositions (labelsOf W topologies) dirtyChunks ↔ k ∈ dirtyChunks := by
  have hkeyed := keyedBy_labelsOf h
  have hi := (List.getElem?_eq_some_iff.1 hk).1
  rw [dirtyPositions, List.mem_filter, List.mem_range, hkeyed.length, and_iff_right hi,
    List.any_eq_true]
  simp only [beq_iff_eq, hkeyed.localIndex_eq_some, hk, Option.some.injEq]
  exact ⟨fun ⟨k', hk', he⟩ => he ▸ hk', fun hk' => ⟨k, hk', rfl⟩⟩

/-- **The dirty chunks are built anew** and the others are kept, which are the topologies of
the edited world. -/
theorem rebuildDirty_eq (h : (buildKeys W).mapM (chunkTopology C W.toWorld) = some topologies)
    (he : EditedWithin dirtyChunks W W') :
    rebuildDirty C W'.toWorld (labelsOf W topologies)
      (dirtyPositions (labelsOf W topologies) dirtyChunks) =
        (buildKeys W).mapM (chunkTopology C W'.toWorld) := by
  refine mapM_zipIdx_eq 0 h fun i k t hk ht => ?_
  have hmem : i ∈ dirtyPositions (labelsOf W topologies) dirtyChunks ↔ k ∈ dirtyChunks :=
    mem_dirtyPositions h hk
  rw [Nat.zero_add]
  simp only [(keyedBy_labelsOf h).keyAt hk, List.contains_iff_mem, hmem]
  split_ifs with hd
  · rfl
  · rw [he.chunkTopology_eq hd, ht]

/-- A chunk that is dirty or has a dirty neighbour. -/
def Affected (W : GraphWorld S Tag) (dirtyChunks : List ℕ) (k : ℕ) : Prop :=
  k ∈ dirtyChunks ∨ ∃ k' ∈ buildKeys W, k' ∈ dirtyChunks ∧
    ∃ g ∈ forEachFaceNeighborChunk S (S.chunkGrid.unrank k'), S.chunkKey g = k

theorem mem_affectedPositions
    (h : (buildKeys W).mapM (chunkTopology C W.toWorld) = some topologies)
    (hk : (buildKeys W)[i]? = some k) :
    i ∈ affectedPositions S (labelsOf W topologies)
      (dirtyPositions (labelsOf W topologies) dirtyChunks) ↔ Affected W dirtyChunks k := by
  have hkeyed := keyedBy_labelsOf h
  have hi := (List.getElem?_eq_some_iff.1 hk).1
  rw [affectedPositions, List.mem_filter, List.mem_range, hkeyed.length, and_iff_right hi,
    Bool.or_eq_true, List.contains_iff_mem, mem_dirtyPositions h hk, List.any_eq_true]
  refine or_congr_right ⟨?_, ?_⟩
  · rintro ⟨j, hj, hany⟩
    have hjlt : j < (buildKeys W).length := by
      have := (List.mem_filter.1 hj).1
      rwa [List.mem_range, hkeyed.length] at this
    have hkj := List.getElem?_eq_getElem hjlt
    obtain ⟨g, hg, hgi⟩ := List.any_eq_true.1 hany
    rw [hkeyed.keyAt hkj] at hg
    rw [beq_iff_eq, hkeyed.localIndex_eq_some, hk, Option.some.injEq] at hgi
    exact ⟨_, List.getElem_mem hjlt, (mem_dirtyPositions h hkj).1 hj, g, hg, hgi.symm⟩
  · rintro ⟨k', hk', hdirty, g, hg, rfl⟩
    obtain ⟨j, hj⟩ := List.mem_iff_getElem?.1 hk'
    refine ⟨j, (mem_dirtyPositions h hj).2 hdirty, List.any_eq_true.2 ⟨g, ?_, ?_⟩⟩
    · rwa [hkeyed.keyAt hj]
    · rw [beq_iff_eq, hkeyed.localIndex_eq_some, hk]

/-- **A chunk that is not affected keeps its portals.** -/
theorem portalsAt_eq (h : (buildKeys W).mapM (chunkTopology C W.toWorld) = some topologies)
    (h' : (buildKeys W').mapM (chunkTopology C W'.toWorld) = some topologies')
    (he : EditedWithin dirtyChunks W W') (hk : k ∈ buildKeys W)
    (haff : ¬ Affected W dirtyChunks k) :
    portalsAt prov W' (labelsOf W' topologies') k = portalsAt prov W (labelsOf W topologies) k := by
  rw [Affected, not_or] at haff
  have hklt := lt_of_mem_buildKeys hk
  have hcell : S.chunkKey (S.chunkGrid.unrank k) = k := Extent3.rank_unrank k
  -- a neighbour that is present is not dirty, since being a neighbour is symmetric
  have hnear : ∀ g ∈ forEachFaceNeighborChunk S (S.chunkGrid.unrank k),
      S.chunkKey g ∈ buildKeys W → S.chunkKey g ∉ dirtyChunks := by
    intro g hg hgk hdirty
    have hhas := Extent3.has_unrank hklt
    have hghas := ((mem_forEachFaceNeighborChunk hhas).1 hg).1
    have hback := (mem_forEachFaceNeighborChunk_comm hhas hghas).1 hg
    refine haff.2 ⟨S.chunkKey g, hgk, hdirty, _, ?_, hcell⟩
    rwa [Shape.chunkKey, Extent3.unrank_rank hghas]
  have hlabel : ∀ key, (key ∈ buildKeys W → key ∉ dirtyChunks) →
      (labelsOf W' topologies').localTopology key = (labelsOf W topologies).localTopology key := by
    intro key hkey
    by_cases hmem : key ∈ buildKeys W
    · rw [localTopology_labelsOf h hmem, localTopology_labelsOf h' (by rwa [he.buildKeys_eq]),
        he.chunkTopology_eq (hkey hmem)]
    · rw [(keyedBy_labelsOf h).localTopology_none hmem,
        (keyedBy_labelsOf h').localTopology_none (by rwa [he.buildKeys_eq])]
  unfold portalsAt
  rw [hlabel k fun _ => haff.1]
  cases ht : (labelsOf W topologies).localTopology k with
  | none => rfl
  | some t =>
    have hkt : chunkTopology C W.toWorld k = some t := by
      rw [← localTopology_labelsOf h hk, ht]
    obtain ⟨hchunk, hexits⟩ := chunkTopology_spec hk hkt
    rw [Option.map_some, Option.map_some, chunkPortals_congr hchunk hklt hexits
      (hlabel k fun _ => haff.1) (fun g hg => hlabel _ (hnear g hg)) ?_]
    exact prov.local_edges W.toWorld W'.toWorld k hklt he.residency
      (he.tryChunk_eq fun _ => haff.1) fun g hg => he.tryChunk_eq (hnear g hg)

variable (dirtyChunks) in
/-- The affected positions are those of the affected keys. -/
theorem flatMap_affectedPositions {α : Type*} {f g : ℕ → List α}
    (h : (buildKeys W).mapM (chunkTopology C W.toWorld) = some topologies)
    (hfg : ∀ i k, (buildKeys W)[i]? = some k → f i = g k) :
    (affectedPositions S (labelsOf W topologies)
      (dirtyPositions (labelsOf W topologies) dirtyChunks)).flatMap f =
        ((buildKeys W).filter fun k => ((labelsOf W topologies).localIndex k).any
          (affectedPositions S (labelsOf W topologies)
            (dirtyPositions (labelsOf W topologies) dirtyChunks)).contains).flatMap g := by
  have hkeyed := keyedBy_labelsOf h
  generalize hG : labelsOf W topologies = G at *
  generalize hA : affectedPositions S G (dirtyPositions G dirtyChunks) = A
  have hself : A = (List.range G.localTopologies.length).filter A.contains := by
    rw [← hA, affectedPositions]
    refine List.filter_congr fun i hi => ?_
    rw [Bool.eq_iff_iff, List.contains_iff_mem, List.mem_filter, and_iff_right hi]
  have hpos : ∀ i ∈ List.range G.localTopologies.length,
      (buildKeys W)[i]? = some (G.keyAt i) := by
    intro i hi
    rw [List.mem_range, hkeyed.length] at hi
    have hk := List.getElem?_eq_getElem hi
    rw [hkeyed.keyAt hk, hk]
  conv_rhs => rw [← hkeyed.map_keyAt, List.filter_map, List.flatMap_map]
  conv_lhs => rw [hself]
  have hfilter : (List.range G.localTopologies.length).filter
      ((fun k => (G.localIndex k).any A.contains) ∘ G.keyAt) =
        (List.range G.localTopologies.length).filter A.contains := by
    refine List.filter_congr fun i hi => ?_
    rw [Function.comp_apply, hkeyed.localIndex_eq_some.2 (hpos i hi), Option.any_some]
  rw [hfilter]
  refine List.flatMap_congr fun i hi => ?_
  exact hfg i _ (hpos i (List.mem_filter.1 hi).1)

variable (prov) in
/-- **The portals after an update**: dropping those of the affected chunks, deriving theirs anew
and sorting gives the portals of a build of the edited world. -/
theorem portals_of_update (h : (buildKeys W).mapM (chunkTopology C W.toWorld) = some topologies)
    (h' : (buildKeys W').mapM (chunkTopology C W'.toWorld) = some topologies')
    (he : EditedWithin dirtyChunks W W') :
    let G := labelsOf W topologies
    let affected := affectedPositions S G (dirtyPositions G dirtyChunks)
    Grouping.sortByKey (fun p : RegionPortal => p.fromRegion.chunk)
      (((topologies.flatMap (chunkPortals prov W.toWorld G)).filter fun portal =>
        !(G.localIndex portal.fromRegion.chunk).any affected.contains) ++
      affected.flatMap fun i =>
        (topologies'[i]?.map (chunkPortals prov W'.toWorld (labelsOf W' topologies'))).getD []) =
      topologies'.flatMap (chunkPortals prov W'.toWorld (labelsOf W' topologies')) := by
  intro G affected
  have hkeyed : G.KeyedBy (buildKeys W) := keyedBy_labelsOf h
  have hderived := flatMap_affectedPositions
    (f := fun i =>
      (topologies'[i]?.map (chunkPortals prov W'.toWorld (labelsOf W' topologies'))).getD [])
    (g := portalsAt prov W' (labelsOf W' topologies')) dirtyChunks h fun i k hk => by
      rw [← he.buildKeys_eq] at hk
      rw [portalsAt, (keyedBy_labelsOf h').localTopology_eq hk]
      rfl
  rw [hderived, flatMap_chunkPortals h, flatMap_chunkPortals h', he.buildKeys_eq]
  refine Grouping.sortByKey_regroup (f := portalsAt prov W G)
    (g := portalsAt prov W' (labelsOf W' topologies')) sorted_buildKeys
    (fun k a ha => chunk_of_mem_portalsAt h ha) (fun k a ha => chunk_of_mem_portalsAt h' ha)
    (fun k => (G.localIndex k).any affected.contains) fun k hk hno => ?_
  obtain ⟨i, hi⟩ := List.mem_iff_getElem?.1 hk
  refine portalsAt_eq h h' he hk fun haff => ?_
  rw [← mem_affectedPositions h hi] at haff
  rw [hkeyed.localIndex_eq_some.2 hi, Option.any_some, List.contains_eq_mem] at hno
  exact of_decide_eq_false hno haff

/-! ### One update -/

theorem finishGraph_eq_some {labels : GraphLabels} {portals : List RegionPortal}
    {generations : List ℕ} {c : GraphContents}
    (h : finishGraph C prov W labels portals generations = some c) :
    c.binding = graphBinding C prov ∧ c.labels = labels ∧ c.portals = portals ∧
      c.frozenGenerations = generations := by
  obtain ⟨index, -, rfl⟩ := Option.map_eq_some_iff.1 h
  exact ⟨rfl, rfl, rfl, rfl⟩

/-- What the contents of a full build are. -/
theorem contentsOf_eq_some {c : GraphContents} (h : contentsOf C prov W topologies = some c) :
    (∃ versionSum, topologyVersionSum (topologies.map (·.topologyVersion)) = some versionSum) ∧
      c.binding = graphBinding C prov ∧ c.labels = labelsOf W topologies ∧
      c.portals = topologies.flatMap (chunkPortals prov W.toWorld (labelsOf W topologies)) ∧
      c.frozenGenerations = frozenOf W := by
  obtain ⟨versionSum, hv, hf⟩ := Option.bind_eq_some_iff.1 h
  exact ⟨⟨versionSum, hv⟩, finishGraph_eq_some hf⟩

/-- A world that reads the same, with the same edges of the provider, has the same contents. -/
theorem contentsOf_congr (h : (buildKeys W).mapM (chunkTopology C W.toWorld) = some topologies)
    (he : EditedWithin dirtyChunks W W')
    (hedges : ∀ k < S.chunkCount,
      prov.forEachTransition W'.toWorld k = prov.forEachTransition W.toWorld k) :
    contentsOf C prov W' topologies = contentsOf C prov W topologies := by
  have hlabels : labelsOf W' topologies = labelsOf W topologies := by
    have hsame : labelsOf W' topologies =
        { labelsOf W topologies with localTopologies := topologies } := he.labelsOf_eq
    rw [hsame]
    rfl
  have hchunk : ∀ t ∈ topologies, prov.forEachTransition W'.toWorld t.chunk =
      prov.forEachTransition W.toWorld t.chunk := by
    intro t ht
    obtain ⟨k, hk, hkt⟩ := mem_of_mapM h ht
    rw [(chunkTopology_spec hk hkt).1]
    exact hedges k (lt_of_mem_buildKeys hk)
  have hportals : topologies.flatMap (chunkPortals prov W'.toWorld (labelsOf W topologies)) =
      topologies.flatMap (chunkPortals prov W.toWorld (labelsOf W topologies)) := by
    refine List.flatMap_congr fun t ht => ?_
    rw [chunkPortals, chunkPortals, appendProviderPortals, appendProviderPortals, hchunk t ht]
  have hreaches : ∀ offsets, providerReaches prov W'.toWorld (labelsOf W topologies) offsets =
      providerReaches prov W.toWorld (labelsOf W topologies) offsets := by
    intro offsets
    refine List.flatMap_congr fun t ht => ?_
    rw [hchunk t ht]
  have hmark : markProviderMissingReaches prov W'.toWorld (labelsOf W topologies) =
      markProviderMissingReaches prov W.toWorld (labelsOf W topologies) := by
    funext index
    unfold markProviderMissingReaches
    rw [hreaches]
  unfold contentsOf finishGraph
  rw [hlabels, he.frozenOf_eq, hportals, hmark]

/-- The graph has the contents of a full build of the world. -/
def IsBuildOf (C : GraphClass S Tag) (prov : GraphProvider S Tag) (W : GraphWorld S Tag)
    (g : RegionGraph) : Prop :=
  (buildRegionGraph C prov W 0).map (fun r => r.2.toGraphContents) = some g.toGraphContents

theorem IsBuildOf.spec {g : RegionGraph} (h : IsBuildOf C prov W g) :
    ∃ topologies, (buildKeys W).mapM (chunkTopology C W.toWorld) = some topologies ∧
      contentsOf C prov W topologies = some g.toGraphContents := by
  rw [IsBuildOf, map_buildRegionGraph] at h
  exact Option.bind_eq_some_iff.1 h

theorem length_buildKeys : (buildKeys W).length =
    if W.residency = .alwaysResident then S.chunkCount else W.residentKeys.length := by
  unfold buildKeys
  cases W.residency with
  | alwaysResident => simp
  | sparseResident => simp

/-- **No full build is needed** for a graph that was built for the world before the edits. -/
theorem needsFullBuild_eq {g : RegionGraph} (h : IsBuildOf C prov W g)
    (he : EditedWithin dirtyChunks W W') : needsFullBuild C prov W' g = false := by
  obtain ⟨topologies, htops, hc⟩ := h.spec
  obtain ⟨-, hbinding, hlabels, -, hfrozen⟩ := contentsOf_eq_some hc
  have hlen := (keyedBy_labelsOf htops).length
  rw [length_buildKeys] at hlen
  unfold needsFullBuild
  rw [hbinding, hlabels, hfrozen, he.residency, he.keys, he.generation]
  cases hr : W.residency with
  | alwaysResident =>
    rw [if_pos hr] at hlen
    simp [hlen]
  | sparseResident =>
    have hne : ¬ W.residency = .alwaysResident := by rw [hr]; decide
    rw [if_neg hne] at hlen
    have hgen : frozenOf W = (buildKeys W).map W.residencyGeneration := if_neg hne
    have hkeys : (labelsOf W topologies).topologyKeys = buildKeys W := if_neg hne
    have hcount : (buildKeys W).length = W.residentKeys.length := by
      rw [length_buildKeys, if_neg hne]
    simp only [bne_self_eq_false, Bool.false_or, hlen, hgen, List.length_map, hcount, hkeys]
    rw [List.any_eq_false]
    intro i hi
    rw [List.mem_range, ← hcount] at hi
    simp [List.getElem?_eq_getElem hi]

/-- **One update** gives the contents of a full build of the edited world. -/
theorem updateRegionGraph_contents {g : RegionGraph} (h : IsBuildOf C prov W g)
    (he : EditedWithin dirtyChunks W W') (hlt : ∀ k ∈ dirtyChunks, k < S.chunkCount) :
    (updateRegionGraph C prov W' g dirtyChunks).map (fun r => r.2.toGraphContents) =
      (buildRegionGraph C prov W' 0).map fun r => r.2.toGraphContents := by
  obtain ⟨topologies, htops, hc⟩ := h.spec
  obtain ⟨⟨versionSum, hversion⟩, -, hlabels, hportals, hfrozen⟩ := contentsOf_eq_some hc
  rw [map_buildRegionGraph]
  unfold updateRegionGraph
  rw [needsFullBuild_eq h he, if_neg Bool.false_ne_true, if_neg ?_]
  · cases hd : dirtyChunks with
    | nil =>
      subst hd
      have hsame : (buildKeys W').mapM (chunkTopology C W'.toWorld) = some topologies := by
        rw [he.buildKeys_eq, ← htops]
        exact mapM_congr_of_mem fun k _ => he.chunkTopology_eq List.not_mem_nil
      have hedges : ∀ k, k < S.chunkCount →
          prov.forEachTransition W'.toWorld k = prov.forEachTransition W.toWorld k := by
        intro k hk
        exact prov.local_edges W.toWorld W'.toWorld k hk he.residency
          (he.pages k List.not_mem_nil) fun g _ => he.pages _ List.not_mem_nil
      rw [hsame, Option.bind_some, if_pos List.isEmpty_nil, hlabels,
        contentsOf_congr htops he hedges, hc]
      have hversion' : topologyVersionSum
          ((labelsOf W topologies).localTopologies.map (·.topologyVersion)) = some versionSum :=
        hversion
      rw [updateResult, hversion']
      rfl
    | cons d ds =>
      rw [← hd, if_neg (by rw [hd]; simp), hlabels, hportals, hfrozen]
      simp only [Option.bind_eq_bind]
      rw [rebuildDirty_eq htops he, ← he.buildKeys_eq]
      cases htops' : (buildKeys W').mapM (chunkTopology C W'.toWorld) with
      | none => rfl
      | some topologies' =>
        have hsorted := portals_of_update prov htops htops' he
        simp only [Option.bind_some]
        simp only at hsorted
        rw [← he.labelsOf_eq, hsorted, contentsOf, he.frozenOf_eq]
        -- the source sums the versions before it derives the index in one builder and after it
        -- in the other
        cases hf : finishGraph C prov W' (labelsOf W' topologies') (topologies'.flatMap
            (chunkPortals prov W'.toWorld (labelsOf W' topologies'))) (frozenOf W) with
        | none => cases topologyVersionSum (topologies'.map (·.topologyVersion)) <;> rfl
        | some contents =>
          rw [Option.bind_some, updateResult]
          cases topologyVersionSum (topologies'.map (·.topologyVersion)) <;> rfl
  · rw [List.any_eq_true]
    rintro ⟨k, hk, hge⟩
    have := hlt k hk
    rw [decide_eq_true_eq] at hge
    omega

/-! ### Runs of updates -/

theorem isBuildOf_of_build {revision : ℕ} {r : RegionGraphBuildResult} {g : RegionGraph}
    (h : buildRegionGraph C prov W revision = some (r, g)) : IsBuildOf C prov W g := by
  have hcontents := @map_buildRegionGraph S Tag C prov W revision
  rw [h] at hcontents
  rw [IsBuildOf, map_buildRegionGraph, ← hcontents]
  rfl

/-- A graph after a run of edits, each followed by an update with the chunks it touched. -/
inductive Maintained (C : GraphClass S Tag) (prov : GraphProvider S Tag) :
    GraphWorld S Tag → RegionGraph → Prop
  | built {W : GraphWorld S Tag} {g : RegionGraph} (h : IsBuildOf C prov W g) :
    Maintained C prov W g
  | updated {W W' : GraphWorld S Tag} {g g' : RegionGraph} {dirtyChunks : List ℕ}
    {r : TopologyBuildResult} (h : Maintained C prov W g) (he : EditedWithin dirtyChunks W W')
    (hlt : ∀ k ∈ dirtyChunks, k < S.chunkCount)
    (hu : updateRegionGraph C prov W' g dirtyChunks = some (r, g')) : Maintained C prov W' g'

/-- **Every graph of a run** has the contents of a full build. -/
theorem Maintained.isBuildOf {g : RegionGraph} (h : Maintained C prov W g) :
    IsBuildOf C prov W g := by
  induction h with
  | built h => exact h
  | updated h he hlt hu ih =>
    have hone := updateRegionGraph_contents ih he hlt
    rw [hu] at hone
    exact hone.symm

/-- An update with a key out of range changes nothing. -/
theorem updateRegionGraph_invalid {g : RegionGraph} (h : IsBuildOf C prov W g)
    (he : EditedWithin dirtyChunks W W') (hk : k ∈ dirtyChunks) (hge : S.chunkCount ≤ k) :
    updateRegionGraph C prov W' g dirtyChunks = some ({ status := .invalidChunk }, g) := by
  unfold updateRegionGraph
  rw [needsFullBuild_eq h he, if_neg Bool.false_ne_true, if_pos]
  rw [List.any_eq_true]
  exact ⟨k, hk, by rwa [decide_eq_true_eq]⟩

/-- **Updates are full builds**: after any run of updates, an update with the chunks that an edit
has touched gives the contents of a full build of the edited world, and one with a key out of
range leaves the graph as it is. -/
theorem update_region_graph_exact {g : RegionGraph} (h : Maintained C prov W g)
    (dirtyChunks : List ℕ) (W' : GraphWorld S Tag) (he : EditedWithin dirtyChunks W W') :
    (buildRegionGraph C prov W 0).map (fun r => r.2.toGraphContents) = some g.toGraphContents ∧
    ((∀ k ∈ dirtyChunks, k < S.chunkCount) →
      (updateRegionGraph C prov W' g dirtyChunks).map (fun r => r.2.toGraphContents) =
        (buildRegionGraph C prov W' 0).map fun r => r.2.toGraphContents) ∧
    ((∃ k ∈ dirtyChunks, S.chunkCount ≤ k) →
      updateRegionGraph C prov W' g dirtyChunks = some ({ status := .invalidChunk }, g)) := by
  have hbuild := h.isBuildOf
  exact ⟨hbuild, fun hlt => updateRegionGraph_contents hbuild he hlt,
    fun ⟨k, hk, hge⟩ => updateRegionGraph_invalid hbuild he hk hge⟩

end Edits

/-! ### Three columns -/

/-- A dense world for the builders. -/
def GraphWorld.ofDense {S : Shape} {Tag : Type*} (W : World S Tag) (hd : W.IsDense) :
    GraphWorld S Tag where
  toWorld := W
  residentKeys := List.range S.chunkCount
  residencyGeneration _ := 0
  keys_nodup := List.nodup_range
  mem_keys key := by
    rw [List.mem_range, Option.isSome_iff_exists]
    exact ⟨fun hk => ⟨key, W.dense_slot hd key hk⟩, fun ⟨slot, hs⟩ => W.key_lt key slot hs⟩

/-- Write one tile and mark its chunk. -/
def GraphWorld.write {S : Shape} {Tag : Type*} [DecidableEq Tag] (W : GraphWorld S Tag) (tag : Tag)
    {c : Coord3} (hc : S.contains c = true) (value : ℤ) : GraphWorld S Tag where
  toWorld := (W.writeField tag c value).markContentChanged (W.resolve c).chunkKey
  residentKeys := W.residentKeys
  residencyGeneration := W.residencyGeneration
  keys_nodup := W.keys_nodup
  mem_keys key := by
    rw [(World.editStep_write tag hc value).residentSlot]
    exact W.mem_keys key

/-- **Writing one tile** is an edit of its chunk. -/
theorem editedWithin_write {S : Shape} {Tag : Type*} [DecidableEq Tag] (W : GraphWorld S Tag)
    (tag : Tag) {c : Coord3} (hc : S.contains c = true) (value : ℤ) :
    EditedWithin [S.chunkKey (S.chunkCoord c)] W (W.write tag hc value) := by
  have hedit := World.editStep_write (W := W.toWorld) tag hc value
  refine ⟨hedit.residency, rfl, rfl, fun k hk => ?_, fun k _ => ?_⟩
  · rw [List.mem_singleton] at hk
    exact hedit.tryChunk k hk
  · change (W.writeField tag c value).topologyVersion k = _
    unfold World.writeField
    split <;> rfl

/-- The open columns. -/
def columnsGraphWorld : GraphWorld columns Unit := .ofDense (openWorld columns) rfl

/-- Agents that enter every tile with a truthy field. -/
def columnsGraphClass : GraphClass columns Unit where
  cls := .unitCostField (by decide) ()
  identity := 1

set_option maxRecDepth 4000 in
theorem isSome_build_columns : (buildRegionGraph columnsGraphClass (stairGraphProvider columns ())
    columnsGraphWorld 0).isSome = true := by decide

/-- The graph of the open columns, with their stairs. -/
def columnsGraph : RegionGraph :=
  ((buildRegionGraph columnsGraphClass (stairGraphProvider columns ())
    columnsGraphWorld 0).get isSome_build_columns).2

theorem contains_columns_origin : columns.contains ⟨0, 0, 0⟩ = true := by decide

theorem update_region_graph_exact_columns :
    (updateRegionGraph columnsGraphClass (stairGraphProvider columns ())
        (columnsGraphWorld.write () contains_columns_origin 0) columnsGraph [0]).map
          (fun r => r.2.toGraphContents) =
      (buildRegionGraph columnsGraphClass (stairGraphProvider columns ())
        (columnsGraphWorld.write () contains_columns_origin 0) 0).map
          fun r => r.2.toGraphContents :=
  (update_region_graph_exact
    (.built (isBuildOf_of_build (Option.some_get isSome_build_columns).symm)) [0]
    (columnsGraphWorld.write () contains_columns_origin 0)
    (editedWithin_write columnsGraphWorld () contains_columns_origin 0)).2.1 (by decide)

end Tess
