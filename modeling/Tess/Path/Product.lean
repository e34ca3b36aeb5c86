import Tess.Path.Replay
import Tess.Storage.Edits

/-!
# Route products

A product stores a weighted route, or the failure to find one, with the content versions of the
chunks its answer is taken to depend on, and replays the answer while those versions last.

* `addChunk`, `captureAll`, `captureFailureDependencies` : the dependencies of an answer;
* `buildWeightedRouteProduct`, `buildWeightedPortalRouteProduct` : one search, or a chain of
  searches through waypoints;
* `CornersKept`, `StopsKept` : what a run of edits must leave alone outside the dependencies;
* `product_replay_correct` : **a replayed answer is the right one** after such a run.
-/

namespace Tess

open Graphs

/-! ### Dependencies -/

/-- Content version of a chunk when an answer was computed. -/
structure ContentVersionDependency where
  /-- Key of the chunk. -/
  key : ℕ
  /-- Its content version. -/
  contentVersion : ℕ
  deriving DecidableEq, Repr

section Definitions

variable {S : Shape} {Tag : Type*} (W : World S Tag) (cls : MovementClass S Tag)

/-- The scan of `add_chunk`. -/
def updateChunk (key : ℕ) : List ContentVersionDependency → List ContentVersionDependency
  | [] => [⟨key, W.contentVersion key⟩]
  | d :: deps =>
    if d.key = key then ⟨key, W.contentVersion key⟩ :: deps else d :: updateChunk key deps

/-- `ContentVersionDependencies::add_chunk`: the last entry is tried before the scan. -/
def addChunk (deps : List ContentVersionDependency) (key : ℕ) : List ContentVersionDependency :=
  match deps.getLast? with
  | none => updateChunk W key deps
  | some last =>
    if last.key = key then deps.dropLast ++ [⟨key, W.contentVersion key⟩]
    else updateChunk W key deps

/-- `ContentVersionDependencies::capture_all`. -/
def captureAll : List ContentVersionDependency :=
  (List.range S.chunkCount).map fun key => ⟨key, W.contentVersion key⟩

/-- `ContentVersionDependencies::is_valid`. -/
def depsValid (deps : List ContentVersionDependency) : Bool :=
  deps.all fun d => W.contentVersion d.key == d.contentVersion

/-- Chunk of a tile of a path. -/
def chunkOf (S : Shape) (c : Coord3) : ℕ := S.keyChunk (S.tileKey c)

/-- The chunks of the tiles of a path. -/
def pathDependencies (path : List Coord3) : List ContentVersionDependency :=
  path.foldl (fun deps c => addChunk W deps (chunkOf S c)) []

/-- `capture_failure_dependencies`. -/
def captureFailureDependencies (request : PathRequest) (status : PathStatus) :
    List ContentVersionDependency :=
  if status = .noPath ∨ status = .noCandidate ∨ status = .costOverflow then captureAll W
  else
    let deps := if S.contains request.start then addChunk W [] (chunkOf S request.start) else []
    if S.contains request.goal then addChunk W deps (chunkOf S request.goal) else deps

/-! ### Products -/

/-- `WeightedRouteProduct`. -/
structure WeightedRouteProduct where
  /-- Request of the route. -/
  request : PathRequest
  /-- Outcome of the build. -/
  status : PathStatus := .notComputed
  /-- Cost of the route. -/
  cost : ℕ := 0
  /-- Tiles closed by the build. -/
  expandedNodes : ℕ := 0
  /-- Tiles labelled by the build. -/
  reachedNodes : ℕ := 0
  /-- Tiles of the route. -/
  path : List Coord3 := []
  /-- What the answer depends on. -/
  dependencies : List ContentVersionDependency := []

/-- The search that the builders run. -/
def segmentSearch (request : PathRequest) (scratch : PathScratch) : PathResult × PathScratch :=
  weightedAstarPath W cls (adjacentTransitions S Tag) .reportIndeterminate request 0 scratch

/-- `build_weighted_route_product`. -/
def buildWeightedRouteProduct (request : PathRequest) (scratch : PathScratch) :
    WeightedRouteProduct :=
  let result := (segmentSearch W cls request scratch).1
  { request := request
    status := result.status
    cost := result.cost
    expandedNodes := result.expandedNodes
    reachedNodes := result.reachedNodes
    path := result.path
    dependencies :=
      if result.status = .found then pathDependencies W result.path
      else captureFailureDependencies W request result.status }

/-- `weighted_route_product_path` and `weighted_portal_route_product_path`: an empty set of
dependencies is never valid. -/
def replayProduct (status : PathStatus) (cost : ℕ) (path : List Coord3)
    (deps : List ContentVersionDependency) : PathResult :=
  if deps ≠ [] ∧ depsValid W deps then { status := status, cost := cost, path := path }
  else {}

/-- `weighted_route_product_path`. -/
def weightedRouteProductPath (product : WeightedRouteProduct) : PathResult :=
  replayProduct W product.status product.cost product.path product.dependencies

/-- `WeightedPortalRouteProduct`, without the storage of the waypoint selection. -/
structure WeightedPortalRouteProduct extends WeightedRouteProduct where
  /-- Stops between start and goal. -/
  waypoints : List Coord3
  /-- Route of the last segment. -/
  segment : List Coord3 := []

/-- The locals of `build_weighted_portal_route_product`. -/
structure PortalState where
  /-- Where the next segment starts. -/
  source : Coord3
  /-- Cost of the segments so far, a 64-bit sum. -/
  totalCost : ℕ := 0
  /-- Tiles closed so far. -/
  totalExpanded : ℕ := 0
  /-- Tiles labelled so far. -/
  totalReached : ℕ := 0
  /-- Tiles of the route so far. -/
  path : List Coord3 := []
  /-- Route of the last segment. -/
  segment : List Coord3 := []
  /-- Caller-owned storage. -/
  scratch : PathScratch

/-- How a segment fails: the status, what it depends on, and the totals. -/
structure PortalFailure where
  /-- Status of the product. -/
  status : PathStatus
  /-- What the failure depends on. -/
  dependencies : List ContentVersionDependency
  /-- The locals at the failure. -/
  state : PortalState

/-- `append_segment`. -/
def appendPortalSegment (request : PathRequest) (st : PortalState) (stop : Coord3) :
    Except PortalFailure PortalState :=
  let r := segmentSearch W cls ⟨st.source, stop⟩ st.scratch
  let st := { st with
    scratch := r.2
    totalExpanded := st.totalExpanded + r.1.expandedNodes
    totalReached := st.totalReached + r.1.reachedNodes }
  if r.1.status ≠ .found then
    .error ⟨r.1.status, captureFailureDependencies W ⟨st.source, stop⟩ r.1.status, st⟩
  else if st.totalCost + r.1.cost ≥ infiniteCost then
    .error ⟨.costOverflow, captureFailureDependencies W request .costOverflow, st⟩
  else
    .ok { st with
      source := stop
      totalCost := st.totalCost + r.1.cost
      segment := r.1.path
      path := st.path ++ if st.path = [] then r.1.path else r.1.path.tail }

/-- The segments through the stops, the goal last. -/
def appendPortalSegments (request : PathRequest) :
    List Coord3 → PortalState → Except PortalFailure PortalState
  | [], st => .ok st
  | stop :: stops, st =>
    match appendPortalSegment W cls request st stop with
    | .error e => .error e
    | .ok st => appendPortalSegments request stops st

variable {W cls} in
theorem appendPortalSegments_nil {request : PathRequest} {st : PortalState} :
    appendPortalSegments W cls request [] st = .ok st := rfl

variable {W cls} in
theorem appendPortalSegments_cons {request : PathRequest} {stop : Coord3} {stops : List Coord3}
    {st : PortalState} : appendPortalSegments W cls request (stop :: stops) st =
      match appendPortalSegment W cls request st stop with
      | .error e => .error e
      | .ok st => appendPortalSegments W cls request stops st := rfl

/-- `build_weighted_portal_route_product`. -/
def buildWeightedPortalRouteProduct (request : PathRequest) (waypoints : List Coord3)
    (scratch : PathScratch) : WeightedPortalRouteProduct :=
  match appendPortalSegments W cls request (waypoints ++ [request.goal])
      { source := request.start, scratch := scratch } with
  | .error e =>
    { request := request, waypoints := waypoints, status := e.status,
      expandedNodes := e.state.totalExpanded, reachedNodes := e.state.totalReached,
      segment := e.state.segment, dependencies := e.dependencies }
  | .ok st =>
    { request := request, waypoints := waypoints, status := .found, cost := st.totalCost,
      expandedNodes := st.totalExpanded, reachedNodes := st.totalReached, path := st.path,
      segment := st.segment, dependencies := pathDependencies W st.path }

/-- `weighted_portal_route_product_path`. -/
def weightedPortalRouteProductPath (product : WeightedPortalRouteProduct) : PathResult :=
  replayProduct W product.status product.cost product.path product.dependencies

end Definitions

/-! ### What the dependencies record -/

section Dependencies

variable {S : Shape} {Tag : Type*} {W W' : World S Tag} {key : ℕ} {keys : List ℕ}
  {deps : List ContentVersionDependency} {c : Coord3}

/-- Every entry holds the version its chunk has in the world. -/
def Records (W : World S Tag) (deps : List ContentVersionDependency) : Prop :=
  ∀ d ∈ deps, d.contentVersion = W.contentVersion d.key

/-- Some entry is about the chunk. -/
def DependsOn (deps : List ContentVersionDependency) (key : ℕ) : Prop := ∃ d ∈ deps, d.key = key

theorem updateChunk_spec (h : Records W deps) :
    Records W (updateChunk W key deps) ∧ DependsOn (updateChunk W key deps) key ∧
      ∀ k, DependsOn deps k → DependsOn (updateChunk W key deps) k := by
  induction deps with
  | nil =>
    refine ⟨fun d hd => ?_, ⟨_, List.mem_singleton.2 rfl, rfl⟩, fun k ⟨d, hd, _⟩ => by simp at hd⟩
    rw [List.mem_singleton.1 hd]
  | cons d deps ih =>
    obtain ⟨h1, h2, h3⟩ := ih fun e he => h e (List.mem_cons_of_mem _ he)
    rw [updateChunk]
    split_ifs with hk
    · refine ⟨List.forall_mem_cons.2 ⟨rfl, fun e he => h e (List.mem_cons_of_mem _ he)⟩,
        ⟨_, List.mem_cons_self, rfl⟩, ?_⟩
      rintro k ⟨e, he, rfl⟩
      rcases List.mem_cons.1 he with rfl | he
      · exact ⟨_, List.mem_cons_self, hk.symm⟩
      · exact ⟨e, List.mem_cons_of_mem _ he, rfl⟩
    · refine ⟨List.forall_mem_cons.2 ⟨h d List.mem_cons_self, h1⟩, ?_, ?_⟩
      · obtain ⟨e, he, hek⟩ := h2
        exact ⟨e, List.mem_cons_of_mem _ he, hek⟩
      · rintro k ⟨e, he, rfl⟩
        rcases List.mem_cons.1 he with rfl | he
        · exact ⟨_, List.mem_cons_self, rfl⟩
        · obtain ⟨e', he', hk'⟩ := h3 _ ⟨e, he, rfl⟩
          exact ⟨e', List.mem_cons_of_mem _ he', hk'⟩

/-- **Adding a chunk** records it and forgets none. -/
theorem addChunk_spec (key : ℕ) (h : Records W deps) :
    Records W (addChunk W deps key) ∧ DependsOn (addChunk W deps key) key ∧
      ∀ k, DependsOn deps k → DependsOn (addChunk W deps key) k := by
  unfold addChunk
  cases hlast : deps.getLast? with
  | none => exact updateChunk_spec h
  | some last =>
    simp only
    split_ifs with hk
    · obtain ⟨init, hinit⟩ := List.getLast?_eq_some_iff.1 hlast
      subst hinit
      rw [List.dropLast_concat]
      refine ⟨fun d hd => ?_, ⟨_, List.mem_append_right _ (List.mem_singleton.2 rfl), rfl⟩, ?_⟩
      · rcases List.mem_append.1 hd with hd | hd
        · exact h d (List.mem_append_left _ hd)
        · rw [List.mem_singleton.1 hd]
      · rintro k ⟨e, he, rfl⟩
        rcases List.mem_append.1 he with he | he
        · exact ⟨e, List.mem_append_left _ he, rfl⟩
        · rw [List.mem_singleton.1 he]
          exact ⟨_, List.mem_append_right _ (List.mem_singleton.2 rfl), hk.symm⟩
    · exact updateChunk_spec h

theorem records_nil : Records W [] := fun _ h => absurd h List.not_mem_nil

theorem foldl_addChunk_spec (path : List Coord3) (h : Records W deps) :
    let deps' := path.foldl (fun deps c => addChunk W deps (chunkOf S c)) deps
    Records W deps' ∧ (∀ c ∈ path, DependsOn deps' (chunkOf S c)) ∧
      ∀ k, DependsOn deps k → DependsOn deps' k := by
  induction path generalizing deps with
  | nil => exact ⟨h, fun c hc => absurd hc List.not_mem_nil, fun k hk => hk⟩
  | cons c path ih =>
    obtain ⟨h1, h2, h3⟩ := addChunk_spec (chunkOf S c) h
    obtain ⟨h4, h5, h6⟩ := ih h1
    exact ⟨h4, List.forall_mem_cons.2 ⟨h6 _ h2, h5⟩, fun k hk => h6 k (h3 k hk)⟩

theorem pathDependencies_spec (W : World S Tag) (path : List Coord3) :
    Records W (pathDependencies W path) ∧
      ∀ c ∈ path, DependsOn (pathDependencies W path) (chunkOf S c) := by
  obtain ⟨h1, h2, -⟩ := foldl_addChunk_spec path (records_nil (W := W))
  exact ⟨h1, h2⟩

theorem captureAll_spec (W : World S Tag) : Records W (captureAll W) ∧
    ∀ key < S.chunkCount, DependsOn (captureAll W) key := by
  refine ⟨fun d hd => ?_, fun key hkey => ⟨_, List.mem_map_of_mem (List.mem_range.2 hkey), rfl⟩⟩
  obtain ⟨key, -, rfl⟩ := List.mem_map.1 hd
  rfl

/-- The contained ends of a request that fails at an end are recorded. -/
theorem captureFailureDependencies_spec (W : World S Tag) (request : PathRequest)
    {status : PathStatus} (hs : status = .invalidStart ∨ status = .invalidGoal) :
    let deps := captureFailureDependencies W request status
    Records W deps ∧
      (S.contains request.start = true → DependsOn deps (chunkOf S request.start)) ∧
      (S.contains request.goal = true → DependsOn deps (chunkOf S request.goal)) := by
  unfold captureFailureDependencies
  rw [if_neg (by rcases hs with rfl | rfl <;> simp)]
  by_cases h1 : S.contains request.start = true <;> by_cases h2 : S.contains request.goal = true
  · obtain ⟨a1, a2, -⟩ := addChunk_spec (chunkOf S request.start) (records_nil (W := W))
    obtain ⟨b1, b2, b3⟩ := addChunk_spec (chunkOf S request.goal) a1
    simp only [h1, h2, if_true]
    exact ⟨b1, fun _ => b3 _ a2, fun _ => b2⟩
  · obtain ⟨a1, a2, -⟩ := addChunk_spec (chunkOf S request.start) (records_nil (W := W))
    simp only [h1, h2, if_true]
    exact ⟨a1, fun _ => a2, fun h => absurd h (by simp)⟩
  · obtain ⟨b1, b2, -⟩ := addChunk_spec (chunkOf S request.goal) (records_nil (W := W))
    simp only [h1, h2, if_true]
    exact ⟨b1, fun h => absurd h (by simp), fun _ => b2⟩
  · simp only [h1, h2]
    exact ⟨records_nil, fun h => absurd h (by simp), fun h => absurd h (by simp)⟩

/-- **Valid dependencies are unedited chunks.** -/
theorem not_mem_of_depsValid (hrun : W.EditRun W' keys)
    (hrec : Records W deps) (hvalid : depsValid W' deps = true) (hk : DependsOn deps key) :
    key ∉ keys := by
  obtain ⟨d, hd, rfl⟩ := hk
  have := List.all_eq_true.1 hvalid d hd
  rw [beq_iff_eq, hrec d hd] at this
  exact hrun.not_mem_of_version this

/-- A tile of an unedited chunk reads as before. -/
theorem tileAt_of_dependsOn (hrun : W.EditRun W' keys)
    (hrec : Records W deps) (hvalid : depsValid W' deps = true)
    (hk : S.contains c = true → DependsOn deps (chunkOf S c)) : W'.tileAt c = W.tileAt c := by
  by_cases hc : S.contains c = true
  · have hmem := not_mem_of_depsValid hrun hrec hvalid (hk hc)
    rw [chunkOf, Shape.keyChunk_tileKey hc] at hmem
    exact hrun.tileAt hmem
  · rw [World.tileAt_of_not_contains hc, World.tileAt_of_not_contains hc]

end Dependencies

/-! ### One segment in a dense world -/

section Segment

variable {S : Shape} {Tag : Type*} {W W' : World S Tag} {cls : MovementClass S Tag}
  {request : PathRequest} {scratch scratch' : PathScratch}

theorem isPassable_congr {c : Coord3} (h : W'.tileAt c = W.tileAt c) :
    isPassable W' cls c = isPassable W cls c := by
  rw [isPassable_eq, isPassable_eq, h]

theorem entryCostAt_congr {c : Coord3} (h : W'.tileAt c = W.tileAt c) :
    entryCostAt W' cls c = entryCostAt W cls c := by
  rw [entryCostAt, entryCostAt, h]

theorem enterable_congr {c : Coord3} (h : W'.tileAt c = W.tileAt c) :
    enterable W' cls c = enterable W cls c := by
  rw [enterable, enterable, isPassable_congr h, entryCostAt_congr h]

/-- In a dense world the checks of the ends are about passability only. -/
theorem endpointFailure_dense {policy : MissingChunkPolicy} (hd : W.IsDense) :
    endpointFailure W cls policy request =
      if isPassable W cls request.start = false then some .invalidStart
      else if isPassable W cls request.goal = false then some .invalidGoal else none := by
  have hr : W.residency = .alwaysResident := hd
  unfold endpointFailure
  by_cases hs : isPassable W cls request.start = true
  · by_cases hg : isPassable W cls request.goal = true
    · simp [hr, hs, hg, contains_of_isPassable hs, contains_of_isPassable hg]
    · simp [hr, hs, hg, contains_of_isPassable hs]
  · simp [hr, hs]

/-- How a segment fails at an end that cannot be entered. -/
theorem segmentSearch_invalid (hd : W.IsDense)
    (h : ¬ (enterable W cls request.start = true ∧ enterable W cls request.goal = true)) :
    (segmentSearch W cls request scratch).1.status =
      if isPassable W cls request.start = false then .invalidStart
      else if isPassable W cls request.goal = false then .invalidGoal
      else if entryCostAt W cls request.start = 0 then .invalidStart else .invalidGoal := by
  rw [enterable_iff, enterable_iff] at h
  unfold segmentSearch weightedAstarPath
  rw [endpointFailure_dense hd]
  by_cases hs : isPassable W cls request.start = true
  · by_cases hg : isPassable W cls request.goal = true
    · simp only [hs, hg, Bool.true_eq_false, if_false]
      rw [tileEntryCostIndex_tileKey (contains_of_isPassable hs),
        tileEntryCostIndex_tileKey (contains_of_isPassable hg)]
      by_cases hes : entryCostAt W cls request.start = 0
      · simp only [hes, if_true, failureResult]
      · have heg : entryCostAt W cls request.goal = 0 := by
          by_contra heg
          exact h ⟨⟨hs, hes⟩, hg, heg⟩
        simp only [hes, heg, if_false, if_true, failureResult]
    · simp [hs, hg, failureResult]
  · simp [hs, failureResult]

variable (request scratch scratch') in
/-- **A failure at an end lasts** while the two end tiles do. -/
theorem segmentSearch_invalid_congr (hd : W.IsDense) (hd' : W'.IsDense)
    (h : ¬ (enterable W cls request.start = true ∧ enterable W cls request.goal = true))
    (hs : W'.tileAt request.start = W.tileAt request.start)
    (hg : W'.tileAt request.goal = W.tileAt request.goal) :
    (segmentSearch W' cls request scratch').1.status =
      (segmentSearch W cls request scratch).1.status := by
  have h' : ¬ (enterable W' cls request.start = true ∧ enterable W' cls request.goal = true) := by
    rwa [enterable_congr hs, enterable_congr hg]
  rw [segmentSearch_invalid hd h, segmentSearch_invalid hd' h', isPassable_congr hs,
    isPassable_congr hg, entryCostAt_congr hs]

variable (request scratch) in
/-- A segment one end of which cannot be entered fails there. -/
theorem segmentSearch_status (hd : W.IsDense)
    (h : ¬ (enterable W cls request.start = true ∧ enterable W cls request.goal = true)) :
    (segmentSearch W cls request scratch).1.status = .invalidStart ∨
      (segmentSearch W cls request scratch).1.status = .invalidGoal := by
  rw [segmentSearch_invalid hd h]
  split_ifs <;> simp

variable (request scratch) in
/-- A segment from a tile that can be entered to one that cannot. -/
theorem segmentSearch_invalidGoal (hd : W.IsDense) (hs : enterable W cls request.start = true)
    (hg : enterable W cls request.goal = false) :
    (segmentSearch W cls request scratch).1.status = .invalidGoal := by
  rw [segmentSearch_invalid hd (by simp [hg])]
  obtain ⟨hp, he⟩ := enterable_iff.1 hs
  simp [hp, he]

variable (request scratch) in
/-- Between ends that can be entered a segment fails in the search only. -/
theorem segmentSearch_valid (hd : W.IsDense) (hs : enterable W cls request.start = true)
    (hg : enterable W cls request.goal = true) :
    (segmentSearch W cls request scratch).1.status = .found ∨
      (segmentSearch W cls request scratch).1.status = .noPath ∨
      (segmentSearch W cls request scratch).1.status = .costOverflow :=
  weightedAstarPath_status .reportIndeterminate 0 scratch hd hs hg

variable (request scratch) in
/-- A segment finds the routes below the sentinel. -/
theorem segmentSearch_of_reaches (hd : W.IsDense) (hs : enterable W cls request.start = true)
    (hg : enterable W cls request.goal = true) {C : ℕ}
    (h : Reaches (LegalStep W cls (adjacentTransitions S Tag)) request.start request.goal C)
    (hC : C < infiniteCost) :
    (segmentSearch W cls request scratch).1.status = .found ∧
      (segmentSearch W cls request scratch).1.cost ≤ C :=
  weightedAstarPath_of_reaches .reportIndeterminate 0 scratch hd hs hg h hC

variable (request) in
/-- Failures of the search itself depend on every chunk. -/
theorem captureFailureDependencies_eq_captureAll {status : PathStatus}
    (h : status = .noPath ∨ status = .costOverflow) :
    captureFailureDependencies W request status = captureAll W := by
  unfold captureFailureDependencies
  rcases h with rfl | rfl <;> simp

end Segment

/-! ### Routes after edits -/

section Routes

variable {S : Shape} {Tag : Type*} {W W' : World S Tag} {cls : MovementClass S Tag}
  {request : PathRequest} {keys : List ℕ} {path : List Coord3} {a b : Coord3} {C : ℕ}

/-- The tile lies in none of the chunks of the path. -/
def OffRoute (S : Shape) (path : List Coord3) (c : Coord3) : Prop :=
  ∀ t ∈ path, chunkOf S t ≠ chunkOf S c

/-- What the edits must leave alone outside the chunks of a path: the clearance of its diagonal
steps. -/
def CornersKept (W W' : World S Tag) (cls : MovementClass S Tag) (path : List Coord3) : Prop :=
  ∀ rule, cls.stepPolicy = .diagonalSteps rule → ∀ a b, [a, b] <:+: path → DiagonalPair a b →
    match rule with
    | .requireBothClear => ∀ c, FaceAdjacent a c → FaceAdjacent c b → OffRoute S path c →
        isPassable W' cls c = true
    | .requireOneClear => ∃ c, FaceAdjacent a c ∧ FaceAdjacent c b ∧
        ((¬ OffRoute S path c ∧ isPassable W cls c = true) ∨
          (OffRoute S path c ∧ isPassable W' cls c = true))

/-- **A route whose chunks were not edited is still one** exactly when its corners were kept. -/
theorem isRoute_iff_cornersKept
    (hr : IsRoute (LegalStep W cls (adjacentTransitions S Tag)) path a b C)
    (htile : ∀ c, ¬ OffRoute S path c → W'.tileAt c = W.tileAt c) :
    IsRoute (LegalStep W' cls (adjacentTransitions S Tag)) path a b C ↔
      CornersKept W W' cls path := by
  have hon : ∀ c ∈ path, ¬ OffRoute S path c := fun c hc h => h c hc rfl
  constructor
  · intro hr' rule hrule u v huv hpair
    have hstep : ∃ k, LegalStep W' cls (adjacentTransitions S Tag) u v k := by
      have hchain := hr'.isChain (P := fun _ => True) trivial fun _ _ _ _ _ => trivial
      obtain ⟨l₁, l₂, rfl⟩ := huv
      have := (List.isChain_append.1 (List.isChain_append.1 hchain).1).2.1
      exact (List.isChain_cons_cons.1 this).1.2
    obtain ⟨k, -, -, -, ⟨m, hm, -⟩ | ⟨_, hs, -⟩⟩ := hstep
    · simp only [RegularStep, hrule] at hm
      have hclear : CornerClear W' cls rule u v := by
        rcases hm with ⟨hface, -⟩ | ⟨-, hclear, -⟩
        · have h1 := hpair.1
          rw [show gridDist u v = 1 from hface] at h1
          cases h1
        · exact hclear
      cases rule with
      | requireBothClear => exact fun c h1 h2 _ => hclear c h1 h2
      | requireOneClear =>
        obtain ⟨c, h1, h2, hp⟩ := hclear
        refine ⟨c, h1, h2, ?_⟩
        by_cases hoff : OffRoute S path c
        · exact Or.inr ⟨hoff, hp⟩
        · exact Or.inl ⟨hoff, isPassable_congr (htile c hoff) ▸ hp⟩
    · exact absurd hs not_specialStep_adjacent
  · intro hkept
    refine hr.restrict.steps.mono ?_
    rintro u v k ⟨⟨⟨hcu, hpv, hev, hstep⟩, -, hv⟩, huv⟩
    have htv := htile v (hon v hv)
    refine ⟨hcu, isPassable_congr htv ▸ hpv, by rwa [entryCostAt_congr htv], ?_⟩
    rcases hstep with ⟨m, hm, rfl⟩ | ⟨_, hs, -⟩
    · refine Or.inl ⟨m, ?_, by rw [entryCostAt_congr htv]⟩
      unfold RegularStep at hm ⊢
      split at hm
      · rename_i hpol hlat
        simpa only [hpol, hlat] using hm
      · rename_i hpol hlat
        simpa only [hpol, hlat] using hm
      · rename_i _ rule hpol
        simp only [hpol]
        rcases hm with hface | ⟨hpair, hclear, rfl⟩
        · exact Or.inl (by simpa only [hpol] using hface)
        · refine Or.inr ⟨hpair, ?_, rfl⟩
          have hk := hkept _ hpol u v huv hpair
          cases rule with
          | requireBothClear =>
            intro c h1 h2
            by_cases hoff : OffRoute S path c
            · exact hk c h1 h2 hoff
            · exact isPassable_congr (htile c hoff) ▸ hclear c h1 h2
          | requireOneClear =>
            obtain ⟨c, h1, h2, ⟨hoff, hp⟩ | ⟨-, hp⟩⟩ := hk
            · exact ⟨c, h1, h2, isPassable_congr (htile c hoff) ▸ hp⟩
            · exact ⟨c, h1, h2, hp⟩
    · exact absurd hs not_specialStep_adjacent

/-- Valid dependencies of a path keep the chunks of the path. -/
theorem tileAt_of_pathDependencies (hrun : W.EditRun W' keys)
    (hvalid : depsValid W' (pathDependencies W path) = true) {c : Coord3}
    (hc : ¬ OffRoute S path c) : W'.tileAt c = W.tileAt c := by
  obtain ⟨hrec, hdep⟩ := pathDependencies_spec W path
  refine tileAt_of_dependsOn hrun hrec hvalid fun _ => ?_
  unfold OffRoute at hc
  push Not at hc
  obtain ⟨t, ht, heq⟩ := hc
  exact heq ▸ hdep t ht

/-- Valid dependencies on every chunk mean that nothing was edited. -/
theorem eq_of_captureAll (hrun : W.EditRun W' keys)
    (hvalid : depsValid W' (captureAll W) = true) : W' = W :=
  hrun.eq_of_version fun k hk => by
    obtain ⟨hrec, hdep⟩ := captureAll_spec W
    obtain ⟨d, hd, rfl⟩ := hdep k hk
    have := List.all_eq_true.1 hvalid d hd
    rw [beq_iff_eq] at this
    rw [this, hrec d hd]

end Routes

/-! ### Chains of segments -/

section Portal

variable {S : Shape} {Tag : Type*} {W W' : World S Tag} {cls : MovementClass S Tag}
  {request : PathRequest} {st st' : PortalState} {stops : List Coord3} {start stop : Coord3}
  {e : PortalFailure} {C : ℕ}

/-- Some legal route passes the stops in their order, at the given total cost. -/
def ViaRoute (W : World S Tag) (cls : MovementClass S Tag) : Coord3 → List Coord3 → ℕ → Prop
  | _, [], C => C = 0
  | a, b :: stops, C => ∃ C₁ C₂, Reaches (LegalStep W cls (adjacentTransitions S Tag)) a b C₁ ∧
      ViaRoute W cls b stops C₂ ∧ C = C₁ + C₂

/-- The segments so far make a route whose cost is the running total. -/
def PortalInv (W : World S Tag) (cls : MovementClass S Tag) (start : Coord3)
    (st : PortalState) : Prop :=
  (st.path = [] ∧ st.totalCost = 0 ∧ st.source = start) ∨
    IsRoute (LegalStep W cls (adjacentTransitions S Tag)) st.path start st.source st.totalCost

variable (start) in
/-- **One segment** extends the route to its stop at the cost it adds. -/
theorem appendPortalSegment_ok (h : appendPortalSegment W cls request st stop = .ok st') :
    enterable W cls st.source = true ∧ enterable W cls stop = true ∧ st'.source = stop ∧
      st'.totalCost < infiniteCost ∧
      (∃ C, Reaches (LegalStep W cls (adjacentTransitions S Tag)) st.source stop C ∧
        st'.totalCost = st.totalCost + C) ∧
      (PortalInv W cls start st → IsRoute (LegalStep W cls (adjacentTransitions S Tag))
        st'.path start st'.source st'.totalCost) := by
  unfold appendPortalSegment at h
  simp only at h
  split_ifs at h with hf hlt hnil
  all_goals
    simp only [not_not, not_le, ge_iff_le] at hf hlt
    obtain ⟨hs, hg, d, hroute, -, hcost, -⟩ := weightedAstarPath_found_cost hf
    have hd : (segmentSearch W cls ⟨st.source, stop⟩ st.scratch).1.cost = d := by
      rw [segmentSearch] at hlt ⊢
      omega
    simp only [Except.ok.injEq] at h
    subst h
    refine ⟨hs, hg, rfl, hlt, ⟨d, ⟨_, hroute⟩, by rw [← hd]⟩, fun hinv => ?_⟩
    rw [hd]
  · rcases hinv with ⟨hnil', hzero, rfl⟩ | hinv
    · simp only [hnil', hzero, List.nil_append, Nat.zero_add]
      exact hroute
    · exact absurd hnil hinv.ne_nil
  · rcases hinv with ⟨hnil', -, -⟩ | hinv
    · exact absurd hnil' hnil
    · have hhead := hroute.head?
      cases hpath : (segmentSearch W cls ⟨st.source, stop⟩ st.scratch).1.path with
      | nil => exact absurd hpath hroute.ne_nil
      | cons c l =>
        rw [segmentSearch] at hpath
        rw [hpath] at hroute hhead
        obtain rfl : c = st.source := by simpa using hhead
        exact hinv.append hroute

variable (start) in
/-- **A chain of segments** makes a route through its stops. -/
theorem appendPortalSegments_ok (h : appendPortalSegments W cls request stops st = .ok st') :
    (∀ t ∈ stops, enterable W cls t = true) ∧
      (stops ≠ [] → enterable W cls st.source = true ∧ st'.totalCost < infiniteCost) ∧
      st'.source = stops.getLast?.getD st.source ∧
      (∃ C, ViaRoute W cls st.source stops C ∧ st'.totalCost = st.totalCost + C) ∧
      (PortalInv W cls start st → PortalInv W cls start st' ∧
        (stops ≠ [] → IsRoute (LegalStep W cls (adjacentTransitions S Tag)) st'.path start
          st'.source st'.totalCost)) := by
  induction stops generalizing st with
  | nil =>
    simp only [appendPortalSegments_nil, Except.ok.injEq] at h
    subst h
    exact ⟨by simp, by simp, rfl, ⟨0, rfl, rfl⟩, fun hinv => ⟨hinv, by simp⟩⟩
  | cons stop stops ih =>
    rw [appendPortalSegments_cons] at h
    split at h
    · cases h
    · rename_i st₁ hst₁
      obtain ⟨h1, h2, h3, h4, ⟨C₁, hC₁, h5⟩, h6⟩ := appendPortalSegment_ok start hst₁
      obtain ⟨g1, g2, g3, ⟨C₂, hC₂, g4⟩, g5⟩ := ih h
      refine ⟨List.forall_mem_cons.2 ⟨h2, g1⟩, fun _ => ⟨h1, ?_⟩, ?_,
        ⟨C₁ + C₂, ⟨C₁, C₂, hC₁, h3 ▸ hC₂, rfl⟩, by omega⟩, fun hinv => ?_⟩
      · cases stops with
        | nil =>
          simp only [appendPortalSegments_nil, Except.ok.injEq] at h
          exact h ▸ h4
        | cons _ _ => exact (g2 (by simp)).2
      · rw [g3, h3, List.getLast?_cons]
        rfl
      · have hroute := h6 hinv
        obtain ⟨k1, k2⟩ := g5 (Or.inr hroute)
        refine ⟨k1, fun _ => ?_⟩
        cases stops with
        | nil =>
          simp only [appendPortalSegments_nil, Except.ok.injEq] at h
          exact h ▸ hroute
        | cons _ _ => exact k2 (by simp)

/-- A chain that fails does so at one of its stops. -/
theorem appendPortalSegments_error (h : appendPortalSegments W cls request stops st = .error e) :
    ∃ before stop after st₁, stops = before ++ stop :: after ∧
      appendPortalSegments W cls request before st = .ok st₁ ∧
      appendPortalSegment W cls request st₁ stop = .error e := by
  induction stops generalizing st with
  | nil => cases h
  | cons stop stops ih =>
    rw [appendPortalSegments_cons] at h
    split at h
    · rename_i e' he
      cases h
      exact ⟨[], stop, stops, st, rfl, rfl, he⟩
    · rename_i st₁ hst₁
      obtain ⟨before, stop', after, st₂, rfl, h1, h2⟩ := ih h
      refine ⟨stop :: before, stop', after, st₂, rfl, ?_, h2⟩
      rw [appendPortalSegments_cons, hst₁]
      exact h1

/-- **How a segment fails**: the search fails, and the product depends on every chunk; or an end
cannot be entered, and it depends on the chunks of the two ends. -/
theorem appendPortalSegment_error (hd : W.IsDense)
    (h : appendPortalSegment W cls request st stop = .error e) :
    (e.status ≠ .found ∧ e.dependencies = captureAll W) ∨
      (¬ (enterable W cls st.source = true ∧ enterable W cls stop = true) ∧
        e.status = (segmentSearch W cls ⟨st.source, stop⟩ st.scratch).1.status ∧
        e.dependencies = captureFailureDependencies W ⟨st.source, stop⟩ e.status) := by
  unfold appendPortalSegment at h
  simp only at h
  split_ifs at h with hf hlt
  · simp only [Except.error.injEq] at h
    subst h
    by_cases hends : enterable W cls st.source = true ∧ enterable W cls stop = true
    · refine Or.inl ⟨hf, captureFailureDependencies_eq_captureAll _ ?_⟩
      rcases segmentSearch_valid ⟨st.source, stop⟩ st.scratch hd hends.1 hends.2 with h1 | h1 | h1
      · exact absurd h1 hf
      · exact Or.inl h1
      · exact Or.inr h1
    · exact Or.inr ⟨hends, rfl, rfl⟩
  · simp only [Except.error.injEq] at h
    subst h
    exact Or.inl ⟨by simp, captureFailureDependencies_eq_captureAll request (Or.inr rfl)⟩

/-- Status of the product of a chain. -/
def portalStatus : Except PortalFailure PortalState → PathStatus
  | .error e => e.status
  | .ok _ => .found

variable (W cls request) in
/-- **The chain does not depend on its scratch.** -/
theorem portalStatus_congr (stops : List Coord3) (st st' : PortalState)
    (hsource : st.source = st'.source)
    (htotal : st.totalCost = st'.totalCost) :
    portalStatus (appendPortalSegments W cls request stops st) =
      portalStatus (appendPortalSegments W cls request stops st') := by
  induction stops generalizing st st' with
  | nil => rfl
  | cons stop stops ih =>
    have hanswer : (segmentSearch W cls ⟨st'.source, stop⟩ st.scratch).1.answer =
        (segmentSearch W cls ⟨st'.source, stop⟩ st'.scratch).1.answer :=
      weightedAstarPath_answer _ _
    simp only [PathResult.answer, Prod.mk.injEq] at hanswer
    simp only [appendPortalSegments_cons, appendPortalSegment, hsource, htotal, hanswer.1,
      hanswer.2]
    by_cases h1 : (segmentSearch W cls ⟨st'.source, stop⟩ st'.scratch).1.status = .found
    · by_cases h2 : st'.totalCost +
        (segmentSearch W cls ⟨st'.source, stop⟩ st'.scratch).1.cost ≥ infiniteCost
      · simp [h1, h2, portalStatus]
      · simp only [h1, h2, ne_eq, not_true_eq_false, if_false]
        exact ih _ _ rfl rfl
    · simp [h1, portalStatus]

variable (st) in
/-- **A chain whose stops are joined up to one that cannot be entered** fails there. -/
theorem portalStatus_invalidGoal (hd : W.IsDense) (hs : enterable W cls st.source = true)
    (hstop : ∃ t ∈ stops, enterable W cls t = false)
    (hvia : ViaRoute W cls st.source (stops.takeWhile (enterable W cls)) C)
    (hC : st.totalCost + C < infiniteCost) :
    portalStatus (appendPortalSegments W cls request stops st) = .invalidGoal := by
  induction stops generalizing st C with
  | nil => simp at hstop
  | cons stop stops ih =>
    rw [appendPortalSegments_cons]
    by_cases hg : enterable W cls stop = true
    · rw [List.takeWhile_cons_of_pos hg] at hvia
      obtain ⟨C₁, C₂, hC₁, hC₂, rfl⟩ := hvia
      obtain ⟨hf, hle⟩ := segmentSearch_of_reaches ⟨st.source, stop⟩ st.scratch hd hs hg
        hC₁ (by omega)
      have hok : ∃ st₁, appendPortalSegment W cls request st stop = .ok st₁ ∧
          st₁.source = stop ∧ st₁.totalCost ≤ st.totalCost + C₁ := by
        have hlt : ¬ st.totalCost +
            (segmentSearch W cls ⟨st.source, stop⟩ st.scratch).1.cost ≥ infiniteCost := by omega
        simp only [appendPortalSegment, hf, hlt, ne_eq, not_true_eq_false, if_false]
        exact ⟨_, rfl, rfl, by simp only; omega⟩
      obtain ⟨st₁, hst₁, rfl, hle₁⟩ := hok
      rw [hst₁]
      have hstop' : ∃ t ∈ stops, enterable W cls t = false := by
        obtain ⟨t, ht, hte⟩ := hstop
        rcases List.mem_cons.1 ht with rfl | ht
        · rw [hg] at hte
          cases hte
        · exact ⟨t, ht, hte⟩
      exact ih st₁ hg hstop' hC₂ (by omega)
    · have hstatus := segmentSearch_invalidGoal ⟨st.source, stop⟩ st.scratch hd hs
        (by simpa using hg)
      have herr : appendPortalSegment W cls request st stop = .error
          ⟨.invalidGoal, captureFailureDependencies W ⟨st.source, stop⟩ .invalidGoal,
            { st with
              scratch := (segmentSearch W cls ⟨st.source, stop⟩ st.scratch).2
              totalExpanded := st.totalExpanded +
                (segmentSearch W cls ⟨st.source, stop⟩ st.scratch).1.expandedNodes
              totalReached := st.totalReached +
                (segmentSearch W cls ⟨st.source, stop⟩ st.scratch).1.reachedNodes }⟩ := by
        simp only [appendPortalSegment, hstatus]
        rfl
      rw [herr]
      rfl

/-- A chain that fails at its first stop. -/
theorem portalStatus_cons_of_ne_found
    (h : (segmentSearch W cls ⟨st.source, stop⟩ st.scratch).1.status ≠ .found) :
    portalStatus (appendPortalSegments W cls request (stop :: stops) st) =
      (segmentSearch W cls ⟨st.source, stop⟩ st.scratch).1.status := by
  simp [appendPortalSegments_cons, appendPortalSegment, h, portalStatus]

theorem status_buildWeightedPortalRouteProduct (waypoints : List Coord3) (scratch : PathScratch) :
    (buildWeightedPortalRouteProduct W cls request waypoints scratch).status =
      portalStatus (appendPortalSegments W cls request (waypoints ++ [request.goal])
        { source := request.start, scratch := scratch }) := by
  unfold buildWeightedPortalRouteProduct
  split <;> rename_i h <;> rw [h] <;> rfl

end Portal

/-! ### Replays -/

section Replays

variable {S : Shape} {Tag : Type*} {W W' : World S Tag} {cls : MovementClass S Tag}
  {request : PathRequest} {keys : List ℕ} {scratch scratch' : PathScratch}

/-- **A replayed answer is right**: a route is legal at the reported cost, and a failure is what
a fresh build reports. -/
structure ReplayCorrect (W : World S Tag) (cls : MovementClass S Tag) (request : PathRequest)
    (fresh : PathStatus) (r : PathResult) : Prop where
  /-- A replayed route is a legal one of that cost. -/
  found : r.status = .found → IsRoute (LegalStep W cls (adjacentTransitions S Tag)) r.path
    request.start request.goal r.cost
  /-- A replayed failure is the failure of a fresh build. -/
  failed : r.status ≠ .found → r.status ≠ .notComputed → r.status = fresh

/-- What the edits must leave alone when a later stop cannot be entered: the earlier stops stay
joined, up to the first one that cannot be entered now. -/
def StopsKept (W W' : World S Tag) (cls : MovementClass S Tag) (keys : List ℕ) (start : Coord3)
    (stops : List Coord3) : Prop :=
  ∀ before stop after, stops = before ++ stop :: after → before ≠ [] →
    (∀ t ∈ start :: before, enterable W cls t = true) → enterable W cls stop = false →
    (S.contains stop = true → chunkOf S stop ∉ keys) →
    (∃ C < infiniteCost, ViaRoute W cls start before C) →
    enterable W' cls start = true ∧
      ∃ C < infiniteCost, ViaRoute W' cls start (stops.takeWhile (enterable W' cls)) C

/-- A replay is right when the stored answer is, as long as its dependencies last. -/
theorem replayCorrect_replayProduct {fresh status : PathStatus} {cost : ℕ} {path : List Coord3}
    {deps : List ContentVersionDependency}
    (hfound : status = .found → depsValid W deps = true →
      IsRoute (LegalStep W cls (adjacentTransitions S Tag)) path request.start request.goal cost)
    (hfailed : status ≠ .found → depsValid W deps = true → status = fresh) :
    ReplayCorrect W cls request fresh (replayProduct W status cost path deps) := by
  unfold replayProduct
  split_ifs with h
  · exact ⟨fun hf => hfound hf h.2, fun hf _ => hfailed hf h.2⟩
  · exact ⟨fun hf => by simp at hf, fun _ hn => absurd rfl hn⟩

/-- Valid dependencies of a failure at an end keep the two end tiles. -/
theorem tileAt_of_captureFailureDependencies (hrun : W.EditRun W' keys)
    {status : PathStatus}
    (hs : status = .invalidStart ∨ status = .invalidGoal)
    (hvalid : depsValid W' (captureFailureDependencies W request status) = true) :
    W'.tileAt request.start = W.tileAt request.start ∧
      W'.tileAt request.goal = W.tileAt request.goal ∧
      (S.contains request.goal = true → chunkOf S request.goal ∉ keys) := by
  obtain ⟨hrec, h1, h2⟩ := captureFailureDependencies_spec W request hs
  exact ⟨tileAt_of_dependsOn hrun hrec hvalid h1, tileAt_of_dependsOn hrun hrec hvalid h2,
    fun hg => not_mem_of_depsValid hrun hrec hvalid (h2 hg)⟩

/-- **A route product replays a right answer.** -/
theorem replayCorrect_routeProduct (hd : W.IsDense) (hrun : W.EditRun W' keys)
   
    (hsat : Saturates W cls (adjacentTransitions S Tag) request → ∃ C ≤ infiniteCost,
      Reaches (LegalStep W cls (adjacentTransitions S Tag)) request.start request.goal C)
    (hcorners : CornersKept W W' cls (buildWeightedRouteProduct W cls request scratch).path) :
    ReplayCorrect W' cls request (buildWeightedRouteProduct W' cls request scratch').status
      (weightedRouteProductPath W' (buildWeightedRouteProduct W cls request scratch)) := by
  refine replayCorrect_replayProduct (fun hf hvalid => ?_) fun hf hvalid => ?_
  · simp only [buildWeightedRouteProduct] at hf hvalid hcorners ⊢
    rw [if_pos hf] at hvalid
    obtain ⟨-, -, d, hroute, hmin, hcost, hover⟩ := weightedAstarPath_found_cost hf
    have hle : d ≤ infiniteCost := by
      by_contra hlt
      obtain ⟨C, hC, hreach⟩ := hsat (hover (by omega))
      have := hmin C hreach
      omega
    rw [min_eq_left hle] at hcost
    rw [segmentSearch] at hcorners hvalid ⊢
    rw [hcost]
    exact (isRoute_iff_cornersKept hroute fun c hc =>
      tileAt_of_pathDependencies hrun hvalid hc).2 hcorners
  · simp only [buildWeightedRouteProduct] at hf hvalid ⊢
    rw [if_neg hf] at hvalid
    by_cases hends : enterable W cls request.start = true ∧ enterable W cls request.goal = true
    · rcases segmentSearch_valid request scratch hd hends.1 hends.2 with h | h
      · exact absurd h hf
      · rw [captureFailureDependencies_eq_captureAll request h] at hvalid
        obtain rfl := eq_of_captureAll hrun hvalid
        exact congrArg Prod.fst (weightedAstarPath_answer scratch scratch')
    · obtain ⟨h1, h2, -⟩ := tileAt_of_captureFailureDependencies hrun
        (segmentSearch_status request scratch hd hends) hvalid
      exact (segmentSearch_invalid_congr request scratch scratch' hd (hrun.isDense hd) hends h1
        h2).symm

/-- **A portal product replays a right answer.** -/
theorem replayCorrect_portalProduct (hd : W.IsDense) (hrun : W.EditRun W' keys)
    {waypoints : List Coord3}
    (hcorners : CornersKept W W' cls
      (buildWeightedPortalRouteProduct W cls request waypoints scratch).path)
    (hstops : StopsKept W W' cls keys request.start (waypoints ++ [request.goal])) :
    ReplayCorrect W' cls request
      (buildWeightedPortalRouteProduct W' cls request waypoints scratch').status
      (weightedPortalRouteProductPath W'
        (buildWeightedPortalRouteProduct W cls request waypoints scratch)) := by
  have hd' := hrun.isDense hd
  rw [status_buildWeightedPortalRouteProduct]
  unfold weightedPortalRouteProductPath
  unfold buildWeightedPortalRouteProduct at hcorners ⊢
  cases happ : appendPortalSegments W cls request (waypoints ++ [request.goal])
    { source := request.start, scratch := scratch } with
  | ok st =>
    simp only [happ] at hcorners ⊢
    refine replayCorrect_replayProduct (fun _ hvalid => ?_) fun hf => absurd rfl hf
    obtain ⟨-, -, hsource, -, hroute⟩ := appendPortalSegments_ok request.start happ
    have hroute := (hroute (Or.inl ⟨rfl, rfl, rfl⟩)).2 (by simp)
    have hgoal : st.source = request.goal := by
      rw [hsource, List.getLast?_append, List.getLast?_singleton, Option.some_or, Option.getD_some]
    rw [hgoal] at hroute
    exact (isRoute_iff_cornersKept hroute fun c hc =>
      tileAt_of_pathDependencies hrun hvalid hc).2 hcorners
  | error e =>
    simp only
    obtain ⟨before, stop, after, st₁, hsplit, hok, herr⟩ := appendPortalSegments_error happ
    obtain ⟨henter, hfirst, hsource, ⟨C, hC, htotal⟩, -⟩ :=
      appendPortalSegments_ok request.start hok
    refine replayCorrect_replayProduct (fun hf => ?_) fun hf hvalid => ?_
    all_goals rcases appendPortalSegment_error hd herr with ⟨hne, hall⟩ | ⟨hends, hstatus, hdeps⟩
    · exact absurd hf hne
    · rcases segmentSearch_status ⟨st₁.source, stop⟩ st₁.scratch hd hends with h | h <;>
        rw [hstatus, h] at hf <;> cases hf
    · rw [hall] at hvalid
      obtain rfl := eq_of_captureAll hrun hvalid
      have hcongr := portalStatus_congr W' cls request (waypoints ++ [request.goal])
        { source := request.start, scratch := scratch }
        { source := request.start, scratch := scratch' } rfl rfl
      rw [happ] at hcongr
      exact hcongr
    · have hinvalid := segmentSearch_status ⟨st₁.source, stop⟩ st₁.scratch hd hends
      rw [hdeps, hstatus] at hvalid
      obtain ⟨h1, h2, h3⟩ := tileAt_of_captureFailureDependencies hrun hinvalid hvalid
      cases before with
      | nil =>
        simp only [appendPortalSegments_nil, Except.ok.injEq] at hok
        subst hok
        have hcongr := segmentSearch_invalid_congr ⟨request.start, stop⟩ scratch scratch'
          hd hd' hends h1 h2
        rw [hsplit, List.nil_append, portalStatus_cons_of_ne_found, hstatus, hcongr]
        rw [hcongr]
        rcases hinvalid with h | h <;> rw [h] <;> decide
      | cons t before =>
        obtain ⟨hstart, hlt⟩ := hfirst (by simp)
        have hlast : enterable W cls st₁.source = true := by
          rw [hsource]
          cases hl : (t :: before).getLast? with
          | none => simp at hl
          | some u => exact henter u (List.mem_of_getLast? hl)
        have hstop : enterable W cls stop = false := by
          rw [Bool.eq_false_iff]
          exact fun hg => hends ⟨hlast, hg⟩
        simp only [Nat.zero_add] at htotal
        obtain ⟨hs', C', hC', hvia⟩ := hstops _ _ _ hsplit (by simp)
          (List.forall_mem_cons.2 ⟨hstart, henter⟩) hstop h3 ⟨C, by omega, hC⟩
        rw [hstatus, segmentSearch_invalidGoal ⟨st₁.source, stop⟩ st₁.scratch hd hlast hstop]
        have hstop' : enterable W' cls stop = false := (enterable_congr h2).trans hstop
        exact (portalStatus_invalidGoal { source := request.start, scratch := scratch' } hd' hs'
          ⟨stop, by simp [hsplit], hstop'⟩ hvia (by simpa using hC')).symm

end Replays

/-! ### Four chunks -/

theorem cells_size : (⟨2, 2, 1⟩ : Extent3).IsValid := by decide

theorem cells_axis : 2 < 2 ^ 63 ∧ 2 < 2 ^ 63 ∧ 1 < 2 ^ 63 := by decide

theorem cells_chunk : isPowerOfTwo 1 = true ∧ isPowerOfTwo 1 = true ∧ isPowerOfTwo 1 = true := by
  decide

theorem cells_local : 1 * 1 * 1 < 2 ^ 64 := by decide

/-- Two by two chunks of one tile. -/
def cells : Shape where
  size := ⟨2, 2, 1⟩
  chunk := ⟨1, 1, 1⟩
  lattice := .orthogonal
  size_valid := cells_size
  chunk_pow := cells_chunk
  divisible := by decide
  lattice_valid := by decide
  chunk_count_fits := by decide
  local_count_fits := cells_local
  axis_fits := cells_axis

/-- Passable tiles at unit cost. -/
def cellsClass : MovementClass cells Unit := .unitCostField (by decide) ()

/-- Passable tiles at unit cost, with diagonal steps past two clear corners. -/
def cornerClass : MovementClass cells Unit where
  passable page id := page.field () id != 0
  entryCost _ _ := 1
  stepPolicy := .diagonalSteps .requireBothClear
  entryCost_le _ _ := by decide
  stepPolicy_valid := ⟨rfl, by decide⟩
  tileKeyBits_le := by decide

/-- From one tile to the next. -/
def stepRequest : PathRequest where
  start := ⟨0, 0, 0⟩
  goal := ⟨1, 0, 0⟩

/-- The open world with one tile closed and its chunk marked. -/
def closedCells (c : Coord3) : World cells Unit :=
  ((openWorld cells).writeField () c 0).markContentChanged ((openWorld cells).resolve c).chunkKey

theorem editRun_closedCells {c : Coord3} (hc : cells.contains c = true) :
    (openWorld cells).EditRun (closedCells c) [((openWorld cells).resolve c).chunkKey] :=
  .tail (.refl _) (World.editStep_write () hc 0)

end Tess
