import Tess.Topology.RegionQueries

/-!
# Coarse paths

A coarse path is a shortest sequence of regions joined by portals, with the chunks of the
regions and the box of those chunks.  As long as the regions and the portals of a graph fit
32 bits, `coarsePath` finds one exactly when `reachable` says that there is one.

* `PortalJoins` : two regions joined by a portal;
* `IsCoarsePath` : what a coarse path has to be;
* `coarse_path_agrees` : **the two queries agree**, and a coarse path is one.
-/

namespace Tess

open Graphs

/-! ### The chunks of a path -/

section Corridor

variable {regions : List RegionRef} {chunks : List ℕ} {k : ℕ}

/-- **The corridor lists each chunk once.** -/
theorem corridorChunks_spec : (corridorChunks regions).Nodup ∧
    ∀ k, k ∈ corridorChunks regions ↔ ∃ ref ∈ regions, ref.chunk = k := by
  suffices H : ∀ (l : List RegionRef) (acc : List ℕ), acc.Nodup →
      (l.foldl (fun chunks ref =>
        if chunks.contains ref.chunk then chunks else chunks ++ [ref.chunk]) acc).Nodup ∧
      ∀ k, k ∈ l.foldl (fun chunks ref =>
        if chunks.contains ref.chunk then chunks else chunks ++ [ref.chunk]) acc ↔
          k ∈ acc ∨ ∃ ref ∈ l, ref.chunk = k by
    simpa [corridorChunks] using H regions [] List.nodup_nil
  intro l
  induction l with
  | nil => exact fun acc h => ⟨h, fun k => by simp⟩
  | cons ref l ih =>
    intro acc hacc
    rw [List.foldl_cons]
    split_ifs with hmem
    · obtain ⟨hnodup, hiff⟩ := ih acc hacc
      refine ⟨hnodup, fun k => (hiff k).trans ?_⟩
      rw [List.contains_iff_mem] at hmem
      constructor
      · rintro (h | ⟨r, hr, rfl⟩)
        · exact Or.inl h
        · exact Or.inr ⟨r, List.mem_cons_of_mem _ hr, rfl⟩
      · rintro (h | ⟨r, hr, rfl⟩)
        · exact Or.inl h
        · rcases List.mem_cons.1 hr with rfl | hr
          · exact Or.inl hmem
          · exact Or.inr ⟨r, hr, rfl⟩
    · rw [List.contains_iff_mem] at hmem
      obtain ⟨hnodup, hiff⟩ := ih (acc ++ [ref.chunk]) (List.nodup_append.2
        ⟨hacc, List.nodup_singleton _, fun a ha b hb hab =>
          hmem (by rwa [← List.mem_singleton.1 hb, ← hab])⟩)
      refine ⟨hnodup, fun k => (hiff k).trans ?_⟩
      rw [List.mem_append, List.mem_singleton, or_assoc]
      refine or_congr_right ?_
      constructor
      · rintro (rfl | ⟨r, hr, rfl⟩)
        · exact ⟨ref, List.mem_cons_self, rfl⟩
        · exact ⟨r, List.mem_cons_of_mem _ hr, rfl⟩
      · rintro ⟨r, hr, rfl⟩
        rcases List.mem_cons.1 hr with rfl | hr
        · exact Or.inl rfl
        · exact Or.inr ⟨r, hr, rfl⟩

end Corridor

/-! ### The box of a path -/

section Bounds

variable {S : Shape} {chunks : List ℕ} {k : ℕ} {c : Coord3} {box : Box3}

theorem le_foldl_min {α : Type*} {f : α → ℤ} {l : List α} {a z : ℤ} :
    z ≤ l.foldl (fun m x => min m (f x)) a ↔ z ≤ a ∧ ∀ x ∈ l, z ≤ f x := by
  induction l generalizing a with
  | nil => simp
  | cons x l ih => simp [ih, and_assoc]

theorem foldl_max_le {α : Type*} {f : α → ℤ} {l : List α} {a z : ℤ} :
    l.foldl (fun m x => max m (f x)) a ≤ z ↔ a ≤ z ∧ ∀ x ∈ l, f x ≤ z := by
  induction l generalizing a with
  | nil => simp
  | cons x l ih => simp [ih, and_assoc]

theorem get_foldl_minCoord {l : List Coord3} {m : Coord3} (a : Axis) :
    (l.foldl minCoord m).get a = l.foldl (fun z c => min z (c.get a)) (m.get a) := by
  induction l generalizing m with
  | nil => rfl
  | cons c l ih =>
    rw [List.foldl_cons, List.foldl_cons, ih]
    cases a <;> rfl

theorem get_foldl_maxCoord {l : List Coord3} {m : Coord3} (a : Axis) :
    (l.foldl maxCoord m).get a = l.foldl (fun z c => max z (c.get a)) (m.get a) := by
  induction l generalizing m with
  | nil => rfl
  | cons c l ih =>
    rw [List.foldl_cons, List.foldl_cons, ih]
    cases a <;> rfl

/-- The cells of one chunk along an axis. -/
theorem cell_iff {d n q : ℕ} {z : ℤ} (hd : 0 < d) (hq : q < n) :
    (0 ≤ z ∧ z < ((n * d : ℕ) : ℤ)) ∧ z.toNat / d = q ↔
      ((q * d : ℕ) : ℤ) ≤ z ∧ z < ((min ((q + 1) * d) (n * d) : ℕ) : ℤ) := by
  have hle : (q + 1) * d ≤ n * d := Nat.mul_le_mul_right d hq
  have hdiv : z.toNat / d = q ↔ q * d ≤ z.toNat ∧ z.toNat < (q + 1) * d := by
    rw [← Nat.le_div_iff_mul_le hd, ← Nat.div_lt_iff_lt_mul hd]
    omega
  rw [Nat.min_eq_left hle, hdiv]
  generalize q * d = lo at *
  generalize (q + 1) * d = hi at *
  generalize n * d = m at *
  omega

/-- **The tiles of a chunk** are those between its two corners. -/
theorem mem_chunk_iff (hk : k < S.chunkCount) :
    S.contains c = true ∧ S.chunkKey (S.chunkCoord c) = k ↔
      ∀ a, (chunkBegin S k).get a ≤ c.get a ∧ c.get a < (chunkEnd S k).get a := by
  obtain ⟨gx, gy, gz⟩ := S.chunkGrid_mul
  obtain ⟨hx, hy, hz⟩ : S.chunkGrid.Has (S.chunkGrid.unrank k) := Extent3.has_unrank hk
  obtain ⟨dx, dy, dz⟩ := S.chunk_valid
  have hcell : (∀ a, (chunkBegin S k).get a ≤ c.get a ∧ c.get a < (chunkEnd S k).get a) ↔
      ((0 ≤ c.x ∧ c.x < S.size.x) ∧ c.x.toNat / S.chunk.x = (S.chunkGrid.unrank k).x) ∧
      ((0 ≤ c.y ∧ c.y < S.size.y) ∧ c.y.toNat / S.chunk.y = (S.chunkGrid.unrank k).y) ∧
      ((0 ≤ c.z ∧ c.z < S.size.z) ∧ c.z.toNat / S.chunk.z = (S.chunkGrid.unrank k).z) := by
    rw [← gx, ← gy, ← gz, cell_iff dx hx, cell_iff dy hy, cell_iff dz hz, gx, gy, gz]
    exact ⟨fun h => ⟨h .x, h .y, h .z⟩, fun h a => by cases a <;> tauto⟩
  rw [hcell, Shape.contains_iff]
  constructor
  · rintro ⟨⟨bx, by', bz⟩, rfl⟩
    have hc : S.contains c = true := Shape.contains_iff.2 ⟨bx, by', bz⟩
    have hself : S.chunkGrid.unrank (S.chunkKey (S.chunkCoord c)) = S.chunkCoord c :=
      Extent3.unrank_rank (Shape.has_chunkCoord hc)
    rw [hself]
    exact ⟨⟨bx, rfl⟩, ⟨by', rfl⟩, ⟨bz, rfl⟩⟩
  · rintro ⟨⟨bx, ex⟩, ⟨by', ey⟩, bz, ez⟩
    refine ⟨⟨bx, by', bz⟩, ?_⟩
    have hself : S.chunkCoord c = S.chunkGrid.unrank k := GridCoord3.ext ex ey ez
    rw [hself]
    exact Extent3.rank_unrank k

/-- A chunk is not empty on any axis. -/
theorem cell_nonempty {d n q : ℕ} (hd : 0 < d) (hq : q < n) (hn : n * d < 2 ^ 63) :
    ((q * d : ℕ) : ℤ) < ((min ((q + 1) * d) (n * d) : ℕ) : ℤ) ∧
      ((min ((q + 1) * d) (n * d) : ℕ) : ℤ) ≤ int64Max := by
  have hle : (q + 1) * d ≤ n * d := Nat.mul_le_mul_right d hq
  have hsucc : (q + 1) * d = q * d + d := Nat.succ_mul q d
  rw [Nat.min_eq_left hle, int64Max]
  generalize q * d = lo at *
  generalize (q + 1) * d = hi at *
  generalize n * d = m at *
  omega

theorem chunkBegin_lt_chunkEnd (hk : k < S.chunkCount) (a : Axis) :
    0 ≤ (chunkBegin S k).get a ∧ (chunkBegin S k).get a < (chunkEnd S k).get a ∧
      (chunkEnd S k).get a ≤ int64Max := by
  obtain ⟨gx, gy, gz⟩ := S.chunkGrid_mul
  obtain ⟨hx, hy, hz⟩ : S.chunkGrid.Has (S.chunkGrid.unrank k) := Extent3.has_unrank hk
  obtain ⟨dx, dy, dz⟩ := S.chunk_valid
  obtain ⟨sx, sy, sz⟩ := S.axis_fits
  rw [← gx] at sx
  rw [← gy] at sy
  rw [← gz] at sz
  have h0 : 0 ≤ (chunkBegin S k).get a := by cases a <;> exact Int.natCast_nonneg _
  refine ⟨h0, ?_⟩
  cases a with
  | x => simpa [chunkBegin, chunkEnd, Coord3.get, gx] using cell_nonempty dx hx sx
  | y => simpa [chunkBegin, chunkEnd, Coord3.get, gy] using cell_nonempty dy hy sy
  | z => simpa [chunkBegin, chunkEnd, Coord3.get, gz] using cell_nonempty dz hz sz

/-- The box holds every tile of the chunks. -/
def CoversChunks (S : Shape) (chunks : List ℕ) (box : Box3) : Prop :=
  ∀ c, S.contains c = true → S.chunkKey (S.chunkCoord c) ∈ chunks → box.Has c

/-- Least coordinate of the chunks along an axis. -/
def corridorBegin (S : Shape) (chunks : List ℕ) (a : Axis) : ℤ :=
  chunks.foldl (fun z k => min z ((chunkBegin S k).get a)) int64Max

/-- Coordinate past the chunks along an axis. -/
def corridorEnd (S : Shape) (chunks : List ℕ) (a : Axis) : ℤ :=
  chunks.foldl (fun z k => max z ((chunkEnd S k).get a)) 0

theorem corridorBegin_le (hk : k ∈ chunks) (a : Axis) :
    corridorBegin S chunks a ≤ (chunkBegin S k).get a :=
  (le_foldl_min.1 (le_refl (corridorBegin S chunks a))).2 k hk

theorem le_corridorEnd (hk : k ∈ chunks) (a : Axis) :
    (chunkEnd S k).get a ≤ corridorEnd S chunks a :=
  (foldl_max_le.1 (le_refl (corridorEnd S chunks a))).2 k hk

/-- The box of a path along each axis. -/
theorem has_corridorBounds (hne : chunks ≠ []) (hlt : ∀ k ∈ chunks, k < S.chunkCount) :
    (corridorBounds S chunks).Has c ↔
      ∀ a, corridorBegin S chunks a ≤ c.get a ∧ c.get a < corridorEnd S chunks a := by
  obtain ⟨k, hk⟩ := List.exists_mem_of_ne_nil chunks hne
  have hbegin (a : Axis) : ((chunks.map (chunkBegin S)).foldl minCoord
      ⟨int64Max, int64Max, int64Max⟩).get a = corridorBegin S chunks a := by
    rw [get_foldl_minCoord, List.foldl_map]
    cases a <;> rfl
  have hend (a : Axis) : ((chunks.map (chunkEnd S)).foldl maxCoord ⟨0, 0, 0⟩).get a =
      corridorEnd S chunks a := by
    rw [get_foldl_maxCoord, List.foldl_map]
    cases a <;> rfl
  refine forall_congr' fun a => ?_
  have hlen : corridorBegin S chunks a ≤ corridorEnd S chunks a := by
    have h1 : corridorBegin S chunks a ≤ (chunkBegin S k).get a := corridorBegin_le hk a
    have h2 : (chunkEnd S k).get a ≤ corridorEnd S chunks a := le_corridorEnd hk a
    have h3 := chunkBegin_lt_chunkEnd (hlt k hk) a
    omega
  have horigin : (corridorBounds S chunks).origin.get a = corridorBegin S chunks a := hbegin a
  have hextent : ((corridorBounds S chunks).extent.get a : ℤ) =
      corridorEnd S chunks a - corridorBegin S chunks a := by
    rw [← hbegin a, ← hend a] at hlen ⊢
    cases a <;> exact Int.toNat_of_nonneg (Int.sub_nonneg_of_le hlen)
  rw [horigin, hextent, add_sub_cancel]

/-- **The box of a path is the smallest** that covers its chunks. -/
theorem corridorBounds_smallest (hne : chunks ≠ []) (hlt : ∀ k ∈ chunks, k < S.chunkCount) :
    CoversChunks S chunks (corridorBounds S chunks) ∧
      ∀ box, CoversChunks S chunks box → ∀ c, (corridorBounds S chunks).Has c → box.Has c := by
  refine ⟨fun c hc hk => (has_corridorBounds hne hlt).2 fun a => ?_, fun box hbox c hc a => ?_⟩
  · have hcell := (mem_chunk_iff (hlt _ hk)).1 ⟨hc, rfl⟩ a
    have h1 : corridorBegin S chunks a ≤ _ := corridorBegin_le hk a
    have h2 : _ ≤ corridorEnd S chunks a := le_corridorEnd hk a
    omega
  · -- the two corner tiles of every chunk lie in the box
    have hcorner : ∀ k ∈ chunks, box.origin.get a ≤ (chunkBegin S k).get a ∧
        (chunkEnd S k).get a ≤ box.origin.get a + box.extent.get a := by
      intro k hk
      have hends := chunkBegin_lt_chunkEnd (S := S) (hlt k hk)
      have hmem {c : Coord3} (h : ∀ a, (chunkBegin S k).get a ≤ c.get a ∧
          c.get a < (chunkEnd S k).get a) : box.Has c := by
        obtain ⟨hin, hown⟩ := (mem_chunk_iff (hlt k hk)).2 h
        exact hbox c hin (by rwa [hown])
      have hfirst : box.Has (chunkBegin S k) := hmem fun a => ⟨le_rfl, (hends a).2.1⟩
      have hlast : box.Has ⟨(chunkEnd S k).x - 1, (chunkEnd S k).y - 1, (chunkEnd S k).z - 1⟩ := by
        refine hmem fun a => ?_
        have h := (hends a).2.1
        cases a <;> simp only [Coord3.get] at h ⊢ <;> omega
      refine ⟨(hfirst a).1, ?_⟩
      have h := (hlast a).2
      cases a <;> simp only [Coord3.get] at h ⊢ <;> omega
    obtain ⟨k, hk⟩ := List.exists_mem_of_ne_nil chunks hne
    have hends := chunkBegin_lt_chunkEnd (hlt k hk) a
    have hone := hcorner k hk
    have hin := (has_corridorBounds hne hlt).1 hc a
    have hlo : box.origin.get a ≤ corridorBegin S chunks a :=
      le_foldl_min.2 ⟨by omega, fun k hk => (hcorner k hk).1⟩
    have hhi : corridorEnd S chunks a ≤ box.origin.get a + box.extent.get a :=
      foldl_max_le.2 ⟨by omega, fun k hk => (hcorner k hk).2⟩
    omega

end Bounds

/-! ### Coarse paths -/

/-- Two regions joined by a portal, at unit cost. -/
def PortalJoins (g : GraphContents) (a b : RegionRef) (k : ℕ) : Prop :=
  k = 1 ∧ ∃ p ∈ g.portals, p.fromRegion = a ∧ p.toRegion = b

/-- **A coarse path** between two regions. -/
structure IsCoarsePath (S : Shape) (g : GraphContents) (start goal : RegionRef)
    (r : CoarsePathResult) : Prop where
  /-- It starts in the region of the start. -/
  starts : r.regions.head? = some start
  /-- It ends in the region of the goal. -/
  ends : r.regions.getLast? = some goal
  /-- There is one portal less than regions. -/
  portal_count : r.portals.length + 1 = r.regions.length
  /-- Each portal leads from the region at its position to the next one. -/
  joined : ∀ i p, r.portals[i]? = some p →
    p ∈ g.portals ∧ r.regions[i]? = some p.fromRegion ∧ r.regions[i + 1]? = some p.toRegion
  /-- No region repeats. -/
  nodup : r.regions.Nodup
  /-- No sequence of regions along portals is shorter. -/
  shortest : ∀ l C, IsRoute (PortalJoins g) l start goal C → r.regions.length ≤ l.length
  /-- The corridor has no duplicates. -/
  chunks_nodup : r.chunks.Nodup
  /-- The corridor lists the chunks of the regions. -/
  mem_chunks : ∀ k, k ∈ r.chunks ↔ ∃ ref ∈ r.regions, ref.chunk = k
  /-- The box covers the chunks. -/
  covers : CoversChunks S r.chunks r.bounds
  /-- No smaller box does. -/
  smallest : ∀ box, CoversChunks S r.chunks box → ∀ c, r.bounds.Has c → box.Has c

section Paths

variable {S : Shape} {Tag : Type*} {C : GraphClass S Tag} {prov : GraphProvider S Tag}
  {W : GraphWorld S Tag} {g : GraphContents} {topologies : List LocalChunkTopology}
  {request : PathRequest} {startRef goalRef : RegionRef} {r : CoarsePathResult} {a b k : ℕ}

/-- The index names a region of the graph. -/
def Named (g : GraphContents) (a : ℕ) : Prop :=
  ∃ ref i, NamesRegion g.labels i ref ∧ g.indexOf ref = a

/-- What the queries know of a built graph that fits its index. -/
theorem indexOf_lt (hg : contentsOf C prov W topologies = some g) (hfew : FitsIndex g) {i : ℕ}
    {ref : RegionRef} (h : NamesRegion g.labels i ref) : g.indexOf ref < g.count := by
  rw [GraphContents.indexOf, GraphContents.count, regionOffsets_of_contentsOf hg]
  exact h.index_lt hfew.regions

theorem keyedBy_labels (h : (buildKeys W).mapM (chunkTopology C W.toWorld) = some topologies)
    (hg : contentsOf C prov W topologies = some g) : g.labels.KeyedBy (buildKeys W) := by
  rw [(contentsOf_eq_some hg).2.2.1]
  exact keyedBy_labelsOf h

/-- **The reference of an index** is the one it is the index of. -/
theorem regionRef_indexOf (h : (buildKeys W).mapM (chunkTopology C W.toWorld) = some topologies)
    (hg : contentsOf C prov W topologies = some g) (hfew : FitsIndex g) {i : ℕ} {ref : RegionRef}
    (hn : NamesRegion g.labels i ref) :
    regionRef g.labels g.index.regionOffsets (g.indexOf ref) = ref := by
  rw [GraphContents.indexOf, regionOffsets_of_contentsOf hg]
  exact regionRef_regionIndex (keyedBy_labels h hg) hn hfew.regions

theorem rowsInRange (h : (buildKeys W).mapM (chunkTopology C W.toWorld) = some topologies)
    (hg : contentsOf C prov W topologies = some g) (hfew : FitsIndex g) : RowsInRange g := by
  intro a ha e he
  obtain ⟨p, hp, -, hto⟩ := (mem_edgesOf hg hfew.portals ha).1 he
  obtain ⟨-, i, hi⟩ := namesRegion_of_mem_portals h hg hfew (List.mem_of_getElem? hp)
  rw [← hto]
  exact indexOf_lt hg hfew hi

theorem portalsInRange (hg : contentsOf C prov W topologies = some g) (hfew : FitsIndex g) :
    PortalsInRange g := by
  intro a ha e he
  obtain ⟨p, hp, -, -⟩ := (mem_edgesOf hg hfew.portals ha).1 he
  exact (List.getElem?_eq_some_iff.1 hp).1

theorem count_lt (hg : contentsOf C prov W topologies = some g) (hfew : FitsIndex g) :
    g.count < 2 ^ 32 := by
  rw [GraphContents.count, regionOffsets_of_contentsOf hg, regionCount_eq hfew.regions]
  exact hfew.regions

/-- An edge is a portal between the regions of its indices. -/
theorem portal_of_mem_edgesOf (h : (buildKeys W).mapM (chunkTopology C W.toWorld) = some topologies)
    (hg : contentsOf C prov W topologies = some g) (hfew : FitsIndex g) (ha : a < g.count)
    (he : (b, k) ∈ edgesOf g.index a) :
    ∃ p, g.portals[k]? = some p ∧
      regionRef g.labels g.index.regionOffsets a = p.fromRegion ∧
      regionRef g.labels g.index.regionOffsets b = p.toRegion ∧ Named g b := by
  obtain ⟨p, hp, rfl, rfl⟩ := (mem_edgesOf hg hfew.portals ha).1 he
  obtain ⟨⟨i, hi⟩, j, hj⟩ := namesRegion_of_mem_portals h hg hfew (List.mem_of_getElem? hp)
  exact ⟨p, hp, regionRef_indexOf h hg hfew hi, regionRef_indexOf h hg hfew hj, _, j, hj, rfl⟩

/-- A sequence of regions along portals is a route through the rows. -/
theorem reaches_of_portals (h : (buildKeys W).mapM (chunkTopology C W.toWorld) = some topologies)
    (hg : contentsOf C prov W topologies = some g) (hfew : FitsIndex g) {l : List RegionRef} {D : ℕ}
    (hl : IsRoute (PortalJoins g) l startRef goalRef D) :
    Reaches (Joins (edgesOf g.index)) (g.indexOf startRef) (g.indexOf goalRef) D := by
  induction hl with
  | single a => exact .refl _
  | @cons a b c l k D hab _ ih =>
    obtain ⟨rfl, p, hp, rfl, rfl⟩ := hab
    obtain ⟨⟨i, hi⟩, -⟩ := namesRegion_of_mem_portals h hg hfew hp
    obtain ⟨m, hm⟩ := List.mem_iff_getElem?.1 hp
    have hedge : (g.indexOf p.toRegion, m) ∈ edgesOf g.index (g.indexOf p.fromRegion) :=
      (mem_edgesOf hg hfew.portals (indexOf_lt hg hfew hi)).2 ⟨p, hm, rfl, rfl⟩
    have hone : Reaches (Joins (edgesOf g.index)) (g.indexOf p.fromRegion)
        (g.indexOf p.toRegion) (0 + 1) := (Reaches.refl _).tail ⟨rfl, m, hedge⟩
    rw [Nat.zero_add] at hone
    exact hone.trans ih

/-- **A walk that has been read back is a coarse path.** -/
theorem isCoarsePath_of_readsWalk
    (h : (buildKeys W).mapM (chunkTopology C W.toWorld) = some topologies)
    (hg : contentsOf C prov W topologies = some g) (hfew : FitsIndex g) {i : ℕ}
    (hstart : NamesRegion g.labels i startRef) {j : ℕ} (hgoal : NamesRegion g.labels j goalRef)
    (hr : ReadsWalk S g (g.indexOf startRef) (g.indexOf goalRef) r) :
    IsCoarsePath S g startRef goalRef r := by
  obtain ⟨⟨ns, es, htrail, hshort, hregions, hportals⟩, hchunks, hbounds⟩ := hr
  have hroute := htrail.isRoute
  have hlen := htrail.length_eq
  obtain ⟨hcount, hitem⟩ := getElem?_of_mapM hportals
  have hlt {v : ℕ} (hv : Named g v) : v < g.count := by
    obtain ⟨ref, i, hi, rfl⟩ := hv
    exact indexOf_lt hg hfew hi
  have hnamed : ∀ v ∈ ns, Named g v := by
    refine hroute.forall_mem ⟨_, i, hstart, rfl⟩ fun u v k huv hu => ?_
    obtain ⟨-, e, he⟩ := huv
    obtain ⟨-, -, -, -, hv⟩ := portal_of_mem_edgesOf h hg hfew (hlt hu) he
    exact hv
  have hregions_length : r.regions.length = ns.length := by rw [hregions, List.length_map]
  -- the corridor is not empty, and its keys are those of chunks
  have hne : corridorChunks r.regions ≠ [] := by
    intro hnil
    have hmem : regionRef g.labels g.index.regionOffsets (g.indexOf startRef) ∈ r.regions := by
      rw [hregions]
      exact List.mem_map_of_mem hroute.left_mem
    have hchunk := (corridorChunks_spec.2 _).2 ⟨_, hmem, rfl⟩
    rw [hnil] at hchunk
    exact List.not_mem_nil hchunk
  have hkeys : ∀ k ∈ corridorChunks r.regions, k < S.chunkCount := by
    intro k hk
    obtain ⟨ref, href, rfl⟩ := (corridorChunks_spec.2 k).1 hk
    rw [hregions] at href
    obtain ⟨v, hv, rfl⟩ := List.mem_map.1 href
    obtain ⟨ref', i, hi, rfl⟩ := hnamed v hv
    rw [regionRef_indexOf h hg hfew hi]
    have hpos := (keyedBy_labels h hg).localIndex_eq_some.1 hi.position
    exact lt_of_mem_buildKeys (List.mem_of_getElem? hpos)
  have hbox := corridorBounds_smallest hne hkeys
  rw [← hchunks] at hbox
  rw [← hbounds] at hbox
  constructor
  · rw [hregions, List.head?_map, hroute.head?, Option.map_some, regionRef_indexOf h hg hfew hstart]
  · rw [hregions, List.getLast?_map, hroute.getLast?, Option.map_some,
      regionRef_indexOf h hg hfew hgoal]
  · omega
  · intro k p hp
    have hk : k < es.length := by
      rw [← hcount]
      exact (List.getElem?_eq_some_iff.1 hp).1
    obtain ⟨p', hp', hm⟩ := hitem k _ (List.getElem?_eq_getElem hk)
    rw [hp, Option.some.injEq] at hp'
    subst hp'
    obtain ⟨u, w, hu, hw, huw⟩ := htrail.joins (List.getElem?_eq_getElem hk)
    have hun := hnamed u (List.mem_of_getElem? hu)
    obtain ⟨q, hq, hfrom, hto, -⟩ := portal_of_mem_edgesOf h hg hfew (hlt hun) huw
    rw [hm, Option.some.injEq] at hq
    subst hq
    refine ⟨List.mem_of_getElem? hm, ?_, ?_⟩
    · rw [hregions, List.getElem?_map, hu, Option.map_some, hfrom]
    · rw [hregions, List.getElem?_map, hw, Option.map_some, hto]
  · rw [hregions]
    have hnodup : ns.Nodup :=
      hroute.nodup_of_least (fun _ _ _ huv => by rw [huv.1]; decide) fun D hD => hshort D hD
    refine hnodup.map_on fun u hu v hv huv => ?_
    obtain ⟨ref, i, hi, rfl⟩ := hnamed u hu
    obtain ⟨ref', j, hj, rfl⟩ := hnamed v hv
    rw [regionRef_indexOf h hg hfew hi, regionRef_indexOf h hg hfew hj] at huv
    rw [huv]
  · intro l D hl
    have hD := hshort D (reaches_of_portals h hg hfew hl)
    have hl := hl.length_eq fun _ _ _ hab => hab.1
    omega
  · rw [hchunks]
    exact corridorChunks_spec.1
  · rw [hchunks]
    exact corridorChunks_spec.2
  · exact hbox.1
  · exact hbox.2

/-! ### The two queries -/

theorem endpointRegion_ok {c : Coord3} {invalid : ReachabilityStatus} {ref : RegionRef}
    (h : endpointRegion S g c invalid = .ok ref) :
    ref = g.labels.regionOf S c ∧ ref.region ≠ 0 := by
  unfold endpointRegion at h
  dsimp only at h
  split_ifs at h with h0
  rw [Except.ok.injEq] at h
  exact ⟨h.symm, h ▸ h0⟩

theorem endpointRegion_error {c : Coord3} {invalid status : ReachabilityStatus}
    (h : endpointRegion S g c invalid = .error status) :
    status = invalid ∨ status = .indeterminate := by
  unfold endpointRegion at h
  dsimp only at h
  split_ifs at h with h0 h1
  · rw [Except.error.injEq] at h
    exact Or.inr h.symm
  · rw [Except.error.injEq] at h
    exact Or.inl h.symm

/-- The endpoints that pass the tests lie in regions. -/
theorem endpointRegions_ok (h : endpointRegions S g request = .ok (startRef, goalRef)) :
    startRef = g.labels.regionOf S request.start ∧ startRef.region ≠ 0 ∧
      goalRef = g.labels.regionOf S request.goal ∧ goalRef.region ≠ 0 := by
  unfold endpointRegions at h
  split_ifs at h
  cases hs : endpointRegion S g request.start .invalidStart with
  | error status => rw [hs] at h; cases h
  | ok a =>
    cases hg : endpointRegion S g request.goal .invalidGoal with
    | error status => rw [hs, hg] at h; cases h
    | ok b =>
      rw [hs, hg] at h
      cases h
      obtain ⟨h1, h2⟩ := endpointRegion_ok hs
      obtain ⟨h3, h4⟩ := endpointRegion_ok hg
      exact ⟨h1, h2, h3, h4⟩

/-- No test fails with a route. -/
theorem endpointRegions_error {status : ReachabilityStatus}
    (h : endpointRegions S g request = .error status) : status ≠ .reachable := by
  unfold endpointRegions at h
  split_ifs at h
  · cases h; decide
  · cases h; decide
  cases hs : endpointRegion S g request.start .invalidStart with
  | error st =>
    rw [hs] at h
    cases h
    rcases endpointRegion_error hs with rfl | rfl <;> decide
  | ok a =>
    cases hg : endpointRegion S g request.goal .invalidGoal with
    | error st =>
      rw [hs, hg] at h
      cases h
      rcases endpointRegion_error hg with rfl | rfl <;> decide
    | ok b => rw [hs, hg] at h; cases h

/-- **The two queries agree**: in a built graph whose regions and portals fit 32 bits, a coarse
path has the status of reachability, whatever the scratch was used for before, and where there is
a route it is a coarse path from the region of the start to that of the goal. -/
theorem coarse_path_agrees {g : RegionGraph} (hg : IsBuildOf C prov W g)
    (hfew : FitsIndex g.toGraphContents) (request : PathRequest)
    (scratch scratch' : RegionGraphScratch) :
    ∃ r s r' s', reachable S g.toGraphContents request scratch = some (r, s) ∧
      coarsePath S g.toGraphContents request scratch' = some (r', s') ∧ r'.status = r.status ∧
      (r'.status = .reachable → IsCoarsePath S g.toGraphContents
        (g.labels.regionOf S request.start) (g.labels.regionOf S request.goal) r') := by
  obtain ⟨topologies, htops, hc⟩ := hg.spec
  have hrows := rowsInRange htops hc hfew
  cases hends : endpointRegions S g.toGraphContents request with
  | error status =>
    have hr : reachable S g.toGraphContents request scratch = some (⟨status, 0⟩, scratch) := by
      rw [reachable, hends]
    have hr' : coarsePath S g.toGraphContents request scratch' =
        some ({ status := status, visitedRegions := 0 }, scratch'.beginTraversal) := by
      rw [coarsePath]
      simp only [hends]
    exact ⟨_, _, _, _, hr, hr', rfl, fun hstatus => absurd hstatus (endpointRegions_error hends)⟩
  | ok refs =>
    obtain ⟨startRef, goalRef⟩ := refs
    obtain ⟨hs, hs0, hg, hg0⟩ := endpointRegions_ok hends
    have hlabels := (contentsOf_eq_some hc).2.2.1
    have hnamed {c : Coord3} (h0 : (g.labels.regionOf S c).region ≠ 0) :
        ∃ i, NamesRegion g.labels i (g.labels.regionOf S c) := by
      have hregions := hfew.regions
      rw [hlabels] at h0 hregions ⊢
      exact namesRegion_regionOf htops hregions h0
    obtain ⟨i, hi⟩ := hnamed (hs ▸ hs0)
    obtain ⟨j, hj⟩ := hnamed (hg ▸ hg0)
    rw [← hs] at hi ⊢
    rw [← hg] at hj ⊢
    have hsl := indexOf_lt hc hfew hi
    have hgl := indexOf_lt hc hfew hj
    have hcount := count_lt hc hfew
    have hinj : g.indexOf startRef = g.indexOf goalRef → startRef = goalRef := by
      intro heq
      rw [← regionRef_indexOf htops hc hfew hi, heq, regionRef_indexOf htops hc hfew hj]
    obtain ⟨r, s, hr, hstatus⟩ := reachable_spec scratch hrows hends hsl hgl hcount hinj
    obtain ⟨r', s', hr', hstatus', hwalk⟩ :=
      coarsePath_spec scratch' hrows (portalsInRange hc hfew) hends hsl hgl hcount
    exact ⟨r, s, r', s', hr, hr', hstatus'.unique hstatus,
      fun h => isCoarsePath_of_readsWalk htops hc hfew hi hj (hwalk h)⟩

end Paths

theorem fitsIndex_columns : FitsIndex columnsGraph.toGraphContents := by
  constructor <;> decide +kernel

theorem coarse_path_agrees_columns : ∃ r s r' s',
    reachable columns columnsGraph.toGraphContents ⟨⟨0, 0, 0⟩, ⟨2, 0, 1⟩⟩ {} = some (r, s) ∧
      coarsePath columns columnsGraph.toGraphContents ⟨⟨0, 0, 0⟩, ⟨2, 0, 1⟩⟩ {} = some (r', s') ∧
      r'.status = r.status ∧
      (r'.status = .reachable → IsCoarsePath columns columnsGraph.toGraphContents
        (columnsGraph.labels.regionOf columns ⟨0, 0, 0⟩)
        (columnsGraph.labels.regionOf columns ⟨2, 0, 1⟩) r') :=
  coarse_path_agrees (isBuildOf_of_build (Option.some_get isSome_build_columns).symm)
    fitsIndex_columns ⟨⟨0, 0, 0⟩, ⟨2, 0, 1⟩⟩ {} {}

/-! ### A region count that wraps -/

/-- One chunk of 2^33 tiles in a row. -/
def longRow : Shape where
  size := ⟨2 ^ 33, 1, 1⟩
  chunk := ⟨2 ^ 33, 1, 1⟩
  lattice := .orthogonal
  size_valid := by decide
  chunk_pow := by decide
  divisible := by decide
  lattice_valid := by decide
  chunk_count_fits := by decide
  local_count_fits := by decide
  axis_fits := by decide

theorem longRow_tileKeyBits_le : longRow.tileKeyBits ≤ 64 := by decide

/-- Every second tile of the row is open. -/
def longRowWorld : GraphWorld longRow Unit :=
  .ofDense (.dense longRow fun _ c => if c.x % 2 = 0 then 1 else 0) rfl

/-- Agents that enter the open tiles. -/
def longRowClass : GraphClass longRow Unit where
  cls := .unitCostField longRow_tileKeyBits_le ()
  identity := 1

/-- The page of the one chunk. -/
def longRowPage : ChunkPage Unit := longRowWorld.pages 0

theorem unrank_longRow {a : ℕ} (ha : a < 2 ^ 33) : longRow.chunk.unrank a = ⟨a, 0, 0⟩ := by
  show (⟨a % (2 ^ 33 * 1) % 2 ^ 33, a % (2 ^ 33 * 1) / 2 ^ 33, a / (2 ^ 33 * 1)⟩ : GridCoord3) = _
  rw [Nat.mul_one, Nat.mod_eq_of_lt ha, Nat.mod_eq_of_lt ha, Nat.div_eq_of_lt ha]

theorem tilePassable_longRow {a : ℕ} : tilePassable longRowClass.cls longRowPage a = true ↔
    a < 2 ^ 33 ∧ a % 2 = 0 := by
  rw [tilePassable, Bool.and_eq_true, decide_eq_true_eq]
  refine and_congr_right fun ha => ?_
  have hx : (longRow.coordOf (longRow.chunkGrid.unrank 0) a).x = (a : ℤ) := by
    rw [Shape.coordOf, unrank_longRow ha]
    simp [Extent3.unrank]
  show ((if (longRow.coordOf (longRow.chunkGrid.unrank 0) a).x % 2 = 0 then (1 : ℤ) else 0) != 0)
    = true ↔ _
  rw [hx]
  split_ifs with h
  · simp; omega
  · simp; omega

/-- Every second tile of the row has no neighbours. -/
theorem localNeighbors_row {cls : MovementClass longRow Unit} {page : ChunkPage Unit}
    (heven : ∀ a, tilePassable cls page a = true → a < 2 ^ 33 ∧ a % 2 = 0) {a : ℕ}
    (ha : tilePassable cls page a = true) : localNeighbors cls page a = [] := by
  rw [List.eq_nil_iff_forall_not_mem]
  intro b hb
  obtain ⟨hb, hadj⟩ := (mem_localNeighbors (tilePassable_lt ha)).1 hb
  obtain ⟨ha, ha2⟩ := heven a ha
  obtain ⟨hb, hb2⟩ := heven b hb
  rw [unrank_longRow ha, unrank_longRow hb, latticeAdjacent_of_orthogonal rfl] at hadj
  simp [FaceAdjacent, gridDist, GridCoord3.toCoord] at hadj
  omega

theorem localNeighbors_longRow {a : ℕ} (ha : tilePassable longRowClass.cls longRowPage a = true) :
    localNeighbors longRowClass.cls longRowPage a = [] :=
  localNeighbors_row (fun _ => tilePassable_longRow.1) ha

theorem countP_even (n : ℕ) : (List.range (2 * n)).countP (fun a => a % 2 == 0) = n := by
  induction n with
  | zero => rfl
  | succ n ih =>
    rw [Nat.mul_succ, List.range_add, List.countP_append, ih]
    have h1 : (2 * n + 1) % 2 = 1 := by omega
    simp [List.range_succ, h1]

/-- The chunk has 2^32 regions, and its first tile is in the first one. -/
theorem floodChunk_longRow : ∃ labels draft,
    floodChunk longRowClass.cls longRowPage (longRow.chunkGrid.unrank 0) = some (labels, draft) ∧
      draft.regions.length = 2 ^ 32 ∧ labels 0 = 1 := by
  have hpos : 0 < longRow.localTileCount := longRow.localTileCount_pos
  have hcount : longRow.localTileCount = 2 * 2 ^ 32 := by decide
  have hsize := @countsOpened longRow (longRow.chunkGrid.unrank 0)
  have hnext : ∀ a, tilePassable longRowClass.cls longRowPage a = true →
      localNeighbors longRowClass.cls longRowPage a = [] := fun _ => localNeighbors_longRow
  have heven : ∀ a ∈ List.range longRow.localTileCount,
      (tilePassable longRowClass.cls longRowPage a = true ↔ (a % 2 == 0) = true) := by
    intro a ha
    rw [List.mem_range, hcount] at ha
    rw [tilePassable_longRow, beq_iff_eq]
    exact and_iff_right (by omega)
  unfold floodChunk
  generalize longRow.localTileCount = n at *
  have hn : List.countP (tilePassable longRowClass.cls longRowPage) (List.range n) = 2 ^ 32 := by
    rw [List.countP_congr heven, hcount]
    exact countP_even (2 ^ 32)
  -- the first tile opens the first region, and keeps its label
  obtain ⟨k, rfl⟩ := Nat.exists_eq_succ_of_ne_zero hpos.ne'
  have hzero : tilePassable longRowClass.cls longRowPage 0 = true :=
    (heven 0 (List.mem_range.2 hpos)).2 rfl
  have hnodup := List.nodup_range (n := k + 1)
  rw [Nat.succ_eq_add_one, List.range_succ_eq_map] at *
  obtain ⟨hno, hrest⟩ := List.nodup_cons.1 hnodup
  rw [List.countP_cons_of_pos hzero] at hn
  rw [labelComponents_isolated hpos hzero rfl (hnext 0 hzero)]
  obtain ⟨labels, draft, hflood, hlen, hkeep⟩ := @exists_labelComponents_isolated _ _ _
    (localNeighbors longRowClass.cls longRowPage) _ _ _ _ _ _
    (Function.update (fun _ => 0) 0 (TopologyDraft.nextRegionId {})) (TopologyDraft.visitTile longRow
      (longRow.chunkGrid.unrank 0) (TopologyDraft.nextRegionId {}) (TopologyDraft.openRegion {}) 0)
    _ _ hsize hpos hnext hrest fun a ha => by
      rw [Function.update_of_ne fun h : a = 0 => hno (h ▸ ha)]
  refine ⟨labels, draft, hflood, ?_, ?_⟩
  · have hone := (hsize.visit (TopologyDraft.nextRegionId {}) (TopologyDraft.openRegion {}) 0).trans
      (hsize.opened {})
    rw [hlen, ← hn, Nat.add_comm]
    exact congrArg _ hone
  · rw [hkeep 0 hno, Function.update_self]
    decide

/-- **One chunk of a world of one chunk** has no exits. -/
theorem boundaryExits_eq_nil {S : Shape} {Tag : Type*} {cls : MovementClass S Tag}
    {page : ChunkPage Tag} {labels : ℕ → ℕ} {draft : TopologyDraft} (hone : S.chunkCount = 1)
    (h : floodChunk cls page (S.chunkGrid.unrank 0) = some (labels, draft)) :
    draft.boundaryExits = [] := by
  have hg : S.chunkGrid.Has (S.chunkGrid.unrank 0) :=
    Extent3.has_unrank (show 0 < S.chunkCount by omega)
  have hrank {c : GridCoord3} (hc : S.chunkGrid.Has c) : c = S.chunkGrid.unrank 0 := by
    have hlt : S.chunkGrid.rank c < S.chunkCount := Extent3.rank_lt hc
    rw [← Extent3.unrank_rank hc, show S.chunkGrid.rank c = 0 by omega]
  rw [List.eq_nil_iff_forall_not_mem]
  intro exit he
  obtain ⟨-, -, hin, -, hne, -⟩ := (isExit_of_floodChunk h exit he).spec hg
  exact hne (hrank (Shape.has_chunkCoord hin))

/-- A world of one chunk without exits has a graph. -/
theorem exists_graph_of_one {S : Shape} {Tag : Type*} {C : GraphClass S Tag}
    {W : GraphWorld S Tag} {t : LocalChunkTopology} (hdense : W.residency = .alwaysResident)
    (hkeys : buildKeys W = [0]) (ht : chunkTopology C W.toWorld 0 = some t)
    (hversion : t.topologyVersion = 0) (hexits : t.boundaryExits = []) :
    ∃ g : RegionGraph, IsBuildOf C (adjacentGraphProvider S Tag) W g ∧
      g.labels = labelsOf W [t] ∧ g.index.regionOffsets = regionOffsets [t] ∧ g.portals = [] := by
  have hmap : (buildKeys W).mapM (chunkTopology C W.toWorld) = some [t] := by
    rw [hkeys]
    simp [ht]
  have hportals : [t].flatMap (chunkPortals (adjacentGraphProvider S Tag) W.toWorld
      (labelsOf W [t])) = [] := by
    simp [chunkPortals, appendChunkPortals, appendProviderPortals, hexits, adjacentGraphProvider]
  have hres : (labelsOf W [t]).residency = .alwaysResident := hdense
  obtain ⟨c, hc⟩ : ∃ c, contentsOf C (adjacentGraphProvider S Tag) W [t] = some c := by
    have hsum : topologyVersionSum [0] = some 0 := by decide
    rw [contentsOf, List.map_cons, List.map_nil, hversion, hsum, Option.bind_some, hportals,
      finishGraph]
    simp [rebuildRegionIndex, markProviderMissingReaches, hres]
  obtain ⟨-, -, hlabels, hnone, -⟩ := contentsOf_eq_some hc
  refine ⟨⟨c, 0⟩, ?_, hlabels, ?_, hnone.trans hportals⟩
  · rw [IsBuildOf, map_buildRegionGraph, hmap, Option.bind_some, hc]
  · rw [regionOffsets_of_contentsOf hc, hlabels]
    rfl

/-- **A graph of one chunk with 2^32 regions**: its region count has wrapped to zero. -/
theorem exists_longRowGraph : ∃ g : RegionGraph,
    IsBuildOf longRowClass (adjacentGraphProvider longRow Unit) longRowWorld g ∧
      g.labels.regionOf longRow ⟨0, 0, 0⟩ = ⟨0, 1⟩ ∧ g.indexOf ⟨0, 1⟩ = invalidRegionIndex := by
  obtain ⟨labels, draft, hflood, hlen, hlabel⟩ := floodChunk_longRow
  have hexits := boundaryExits_eq_nil (by decide) hflood
  have hpage : longRowWorld.tryChunk 0 = some longRowPage := rfl
  have hin : ¬ 0 ≥ longRow.chunkCount := by decide
  obtain ⟨r, hr⟩ : ∃ r, buildLocalChunkTopology longRowClass.cls longRowWorld.toWorld 0 = some r := by
    rw [buildLocalChunkTopology, if_neg hin, hpage]
    simp only [hflood, Option.map_some]
    exact ⟨_, rfl⟩
  obtain ⟨-, -, -, hversion, labels', draft', hflood', hids, hregions, hnone⟩ :=
    buildLocalChunkTopology_of_page (Nat.not_le.1 hin) hpage hr
  rw [hflood, Option.some.injEq, Prod.mk.injEq] at hflood'
  obtain ⟨rfl, rfl⟩ := hflood'
  have hregion : r.2.regionAt 0 = 1 := by
    rw [LocalChunkTopology.regionAt, hids, getD_map_range longRow.localTileCount_pos, hlabel]
  have ht : chunkTopology longRowClass longRowWorld.toWorld 0 = some r.2 := by
    rw [chunkTopology, hr, Option.map_some]
  obtain ⟨g, hg, hlabels, hoffsets, -⟩ :=
    exists_graph_of_one rfl rfl ht hversion (hnone.trans hexits)
  have hkeys : buildKeys longRowWorld = [0] := rfl
  have hmap : (buildKeys longRowWorld).mapM (chunkTopology longRowClass longRowWorld.toWorld) =
      some [r.2] := by
    rw [hkeys]
    simp [ht]
  have hkey : longRow.chunkKey (longRow.chunkCoord ⟨0, 0, 0⟩) = 0 := by decide
  have htile : longRow.localTileId (longRow.localCoord ⟨0, 0, 0⟩) = 0 := by decide
  refine ⟨g, hg, ?_, ?_⟩
  · have hof : (labelsOf longRowWorld [r.2]).regionOf longRow ⟨0, 0, 0⟩ = _ :=
      regionOf_labelsOf hmap (by decide) (by rw [hkey, hkeys]; exact List.mem_singleton.2 rfl)
        (by rw [hkey]; exact ht)
    rw [hlabels, hof, hkey, htile, hregion]
  · have hwrap : regionOffsets [r.2] = [0, 0] := by
      rw [regionOffsets, List.scanl_cons, List.scanl_nil, hregions, hlen]
      decide
    have hpos : g.labels.localIndex 0 = some 0 := by rw [hlabels]; rfl
    rw [GraphContents.indexOf, hoffsets, hwrap, regionIndex, if_neg (by decide), hpos]
    rfl

/-- A tile is reachable from itself, and has no coarse path to itself. -/
theorem coarse_path_disagrees : ∃ g : RegionGraph,
    IsBuildOf longRowClass (adjacentGraphProvider longRow Unit) longRowWorld g ∧
      reachable longRow g.toGraphContents ⟨⟨0, 0, 0⟩, ⟨0, 0, 0⟩⟩ {} =
        some (⟨.reachable, 1⟩, {}) ∧
      (coarsePath longRow g.toGraphContents ⟨⟨0, 0, 0⟩, ⟨0, 0, 0⟩⟩ {}).map (fun r => r.1.status) =
        some .invalidStart := by
  obtain ⟨g, hg, hregion, hindex⟩ := exists_longRowGraph
  have hends : endpointRegions longRow g.toGraphContents ⟨⟨0, 0, 0⟩, ⟨0, 0, 0⟩⟩ =
      .ok (⟨0, 1⟩, ⟨0, 1⟩) := by
    have hin : longRow.contains ⟨0, 0, 0⟩ = true := by decide
    have hone (invalid : ReachabilityStatus) : endpointRegion longRow g.toGraphContents ⟨0, 0, 0⟩
        invalid = .ok ⟨0, 1⟩ := by
      rw [endpointRegion]
      simp [hregion]
    rw [endpointRegions]
    simp only [hin, hone]
    rfl
  refine ⟨g, hg, ?_, ?_⟩
  · rw [reachable, hends]
    simp only [if_true]
  · rw [coarsePath]
    simp only [hends, hindex, if_true, Option.map_some]

end Tess
