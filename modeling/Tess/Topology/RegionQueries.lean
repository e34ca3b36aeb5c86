import Tess.Topology.RegionIndex
import Tess.Lib.BreadthFirst
import Tess.Path.Types

/-!
# Queries on a region graph

`reachable` walks the portals depth first and stops at the region of the goal; `coarsePath`
walks them breadth first and returns the route it has found with the chunks it passes.  Both
share a scratch whose marks count only while they carry the epoch of the running query.

* `RegionGraphScratch` : the scratch; its proof field says that no mark is ahead of the epoch;
* `endpointRegions` : the tests that both queries begin with;
* `reachable`, `coarsePath` : the queries.
-/

namespace Tess

/-! ### Results -/

/-- Outcome of a region-graph reachability query. -/
inductive ReachabilityStatus
  | reachable
  | unreachable
  | invalidStart
  | invalidGoal
  | indeterminate
  deriving DecidableEq, Repr

/-- Reachability outcome and the number of regions that were visited. -/
structure ReachabilityResult where
  /-- Outcome. -/
  status : ReachabilityStatus
  /-- Regions visited. -/
  visitedRegions : ℕ
  deriving DecidableEq

/-- Coarse route through regions, portals and chunks, with the box of those chunks. -/
structure CoarsePathResult where
  /-- Outcome. -/
  status : ReachabilityStatus
  /-- Regions visited. -/
  visitedRegions : ℕ
  /-- Regions of the route. -/
  regions : List RegionRef := []
  /-- Portals between them. -/
  portals : List RegionPortal := []
  /-- Chunks of the regions. -/
  chunks : List ℕ := []
  /-- Box of the chunks. -/
  bounds : Box3 := {}

/-! ### Scratch -/

/-- Reusable frontier and visitation storage for graph queries. -/
structure RegionGraphScratch where
  /-- Regions discovered, in the order of the vector. -/
  frontier : List ℕ := []
  /-- Epoch of the last visit of a region; zero past the end of the vector. -/
  visitedEpoch : ℕ → ℕ := fun _ => 0
  /-- Region a region was discovered from. -/
  parent : ℕ → ℕ := fun _ => invalidRegionIndex
  /-- Portal a region was discovered by. -/
  parentPortal : ℕ → ℕ := fun _ => invalidRegionIndex
  /-- Length of the two parent vectors. -/
  parentCount : ℕ := 0
  /-- Epoch of the running query. -/
  epoch : ℕ := 0
  /-- The epoch is a 32-bit value. -/
  epoch_lt : epoch < 2 ^ 32 := by decide
  /-- No region was visited in a later epoch. -/
  visited_le : ∀ i, visitedEpoch i ≤ epoch := by intro; exact le_rfl

namespace RegionGraphScratch

theorem visited_update_le {visitedEpoch : ℕ → ℕ} {epoch : ℕ} (h : ∀ i, visitedEpoch i ≤ epoch)
    (j : ℕ) : ∀ i, Function.update visitedEpoch j epoch i ≤ epoch := by
  intro i
  by_cases hi : i = j
  · rw [hi, Function.update_self]
  · rw [Function.update_of_ne hi]
    exact h i

theorem wrap32_succ {n : ℕ} (hn : n < 2 ^ 32) (h : wrap32 (n + 1) ≠ 0) : wrap32 (n + 1) = n + 1 := by
  unfold wrap32 at *
  rcases Nat.lt_or_eq_of_le hn with hlt | heq
  · exact Nat.mod_eq_of_lt hlt
  · rw [show n + 1 = 2 ^ 32 from heq, Nat.mod_self] at h
    exact absurd rfl h

theorem wrap32_lt (n : ℕ) : wrap32 n < 2 ^ 32 := Nat.mod_lt _ (by decide)

theorem firstEpoch_lt : 1 < 2 ^ 32 := by decide

theorem unvisited_le (_ : ℕ) : 0 ≤ 1 := Nat.zero_le 1

variable (s : RegionGraphScratch)

theorem visited_le_succ (h : wrap32 (s.epoch + 1) ≠ 0) (i : ℕ) :
    s.visitedEpoch i ≤ wrap32 (s.epoch + 1) := by
  rw [wrap32_succ s.epoch_lt h]
  exact Nat.le_succ_of_le (s.visited_le i)

/-- `begin_traversal`: the marks are cleared for real when the epoch wraps. -/
def beginTraversal : RegionGraphScratch :=
  if h : wrap32 (s.epoch + 1) = 0 then
    { s with
      frontier := []
      visitedEpoch := fun _ => 0
      epoch := 1
      epoch_lt := firstEpoch_lt
      visited_le := unvisited_le }
  else
    { s with
      frontier := []
      epoch := wrap32 (s.epoch + 1)
      epoch_lt := wrap32_lt _
      visited_le := s.visited_le_succ h }

/-- `is_visited`. -/
def isVisited (i : ℕ) : Bool := s.visitedEpoch i == s.epoch

/-- `visit`. -/
def visit (i : ℕ) : RegionGraphScratch :=
  { s with
    visitedEpoch := Function.update s.visitedEpoch i s.epoch
    visited_le := visited_update_le s.visited_le i }

/-- The two parent vectors resized: new entries are invalid. -/
def resizeParents (count : ℕ) : RegionGraphScratch :=
  { s with
    parent := fun i => if i < s.parentCount then s.parent i else invalidRegionIndex
    parentPortal := fun i => if i < s.parentCount then s.parentPortal i else invalidRegionIndex
    parentCount := count }

/-- **No region is visited when a query begins.** -/
theorem isVisited_beginTraversal (i : ℕ) : s.beginTraversal.isVisited i = false := by
  unfold beginTraversal isVisited
  split_ifs with h
  · rfl
  · have hle := s.visited_le i
    have hne : s.visitedEpoch i ≠ wrap32 (s.epoch + 1) := by
      rw [wrap32_succ s.epoch_lt h]
      omega
    simpa using hne

@[simp] theorem frontier_beginTraversal : s.beginTraversal.frontier = [] := by
  unfold beginTraversal
  split_ifs <;> rfl

end RegionGraphScratch

/-! ### Endpoints -/

section Queries

variable (S : Shape) (g : GraphContents)

/-- The region of an endpoint: one that the graph does not know is told from one that is not
passable. -/
def endpointRegion (c : Coord3) (invalid : ReachabilityStatus) :
    Except ReachabilityStatus RegionRef :=
  let ref := g.labels.regionOf S c
  if ref.region = 0 then
    if g.labels.residency = .sparseResident ∧
        g.labels.hasChunk (S.chunkKey (S.chunkCoord c)) = false then .error .indeterminate
    else .error invalid
  else .ok ref

/-- The tests that both queries begin with. -/
def endpointRegions (request : PathRequest) : Except ReachabilityStatus (RegionRef × RegionRef) :=
  if !S.contains request.start then .error .invalidStart
  else if !S.contains request.goal then .error .invalidGoal
  else do
    let start ← endpointRegion S g request.start .invalidStart
    let goal ← endpointRegion S g request.goal .invalidGoal
    return (start, goal)

/-- `region_reaches_missing_`; a dense graph has no such flags. -/
def reachesMissing (i : ℕ) : Bool :=
  match g.labels.residency with
  | .alwaysResident => false
  | .sparseResident => g.index.regionReachesMissing.getD i false

/-- A running query: the scratch, the number of visited regions and whether one of them reaches
a chunk that the graph does not have. -/
structure Traversal where
  /-- Scratch. -/
  scratch : RegionGraphScratch
  /-- Regions visited. -/
  visitedCount : ℕ := 0
  /-- Some visited region reaches missing topology. -/
  touchedMissing : Bool := false

/-- Visit a region and append it to the frontier. -/
def Traversal.discover (t : Traversal) (region : ℕ) : Traversal where
  scratch := { t.scratch.visit region with frontier := t.scratch.frontier ++ [region] }
  visitedCount := t.visitedCount + 1
  touchedMissing := t.touchedMissing || reachesMissing g region

/-- The result of a query that has run out of regions. -/
def exhausted (t : Traversal) : ReachabilityStatus :=
  if t.touchedMissing then .indeterminate else .unreachable

/-! ### Reachability -/

/-- The edge loop of `reachable`; ends early at the goal. -/
def scanForGoal (goal : ℕ) : List (ℕ × ℕ) → Traversal → Traversal × Bool
  | [], t => (t, false)
  | (target, _) :: rest, t =>
    if t.scratch.isVisited target then scanForGoal goal rest t
    else if target = goal then (t, true)
    else scanForGoal goal rest (t.discover g target)

/-- The frontier loop of `reachable`; none when the rounds run out or an edge leads outside the
arrays. -/
def searchForGoal (goal : ℕ) : ℕ → Traversal → Option (Traversal × Bool)
  | 0, t => if t.scratch.frontier.isEmpty then some (t, false) else none
  | rounds + 1, t =>
    match t.scratch.frontier.getLast? with
    | none => some (t, false)
    | some current =>
      let row := edgesOf g.index current
      if row.any fun e => e.1 ≥ g.count then none
      else
        let popped := { t with
          scratch := { t.scratch with frontier := t.scratch.frontier.dropLast } }
        let r := scanForGoal g goal row popped
        if r.2 then some r else searchForGoal goal rounds r.1

/-- `reachable`; one round for every region is enough. -/
def reachable (request : PathRequest) (scratch : RegionGraphScratch) :
    Option (ReachabilityResult × RegionGraphScratch) :=
  match endpointRegions S g request with
  | .error status => some (⟨status, 0⟩, scratch)
  | .ok (start, goal) =>
    if start = goal then some (⟨.reachable, 1⟩, scratch)
    else if g.indexOf start = invalidRegionIndex then some (⟨.invalidStart, 0⟩, scratch)
    else if g.indexOf goal = invalidRegionIndex then some (⟨.invalidGoal, 0⟩, scratch)
    else
      let first : Traversal := { scratch := scratch.beginTraversal }
      (searchForGoal g (g.indexOf goal) g.count (first.discover g (g.indexOf start))).map
        fun (t, found) =>
          (if found then ⟨.reachable, t.visitedCount + 1⟩ else ⟨exhausted t, t.visitedCount⟩,
            t.scratch)

/-! ### Coarse paths -/

/-- Discover a region by an edge. -/
def Traversal.discoverFrom (t : Traversal) (current : ℕ) (e : ℕ × ℕ) : Traversal :=
  let scratch := { t.scratch with
    parent := Function.update t.scratch.parent e.1 current
    parentPortal := Function.update t.scratch.parentPortal e.1 e.2 }
  { t with scratch := scratch }.discover g e.1

/-- The edge loop of `coarse_path`; breaks when it has discovered the goal. -/
def scanRow (goal current : ℕ) : List (ℕ × ℕ) → Traversal → Traversal × Bool
  | [], t => (t, false)
  | e :: rest, t =>
    if t.scratch.isVisited e.1 then scanRow goal current rest t
    else if e.1 = goal then (t.discoverFrom g current e, true)
    else scanRow goal current rest (t.discoverFrom g current e)

/-- The frontier loop of `coarse_path`; none when the rounds run out or an edge leads outside the
arrays. -/
def searchRoute (goal : ℕ) : ℕ → ℕ → Traversal → Option (Traversal × Bool)
  | 0, head, t => if t.scratch.frontier.length ≤ head then some (t, false) else none
  | rounds + 1, head, t =>
    match t.scratch.frontier[head]? with
    | none => some (t, false)
    | some current =>
      let row := edgesOf g.index current
      if row.any fun e => e.1 ≥ g.count then none
      else
        let r := scanRow g goal current row t
        if r.2 then some r else searchRoute goal rounds (head + 1) r.1

/-- The chunks of the regions, each at its first occurrence. -/
def corridorChunks (regions : List RegionRef) : List ℕ :=
  regions.foldl (fun chunks ref =>
    if chunks.contains ref.chunk then chunks else chunks ++ [ref.chunk]) []

/-- First tile of a chunk. -/
def chunkBegin (chunk : ℕ) : Coord3 :=
  let c := S.chunkGrid.unrank chunk
  ⟨(c.x * S.chunk.x : ℕ), (c.y * S.chunk.y : ℕ), (c.z * S.chunk.z : ℕ)⟩

/-- Tile past the last tile of a chunk. -/
def chunkEnd (chunk : ℕ) : Coord3 :=
  let c := S.chunkGrid.unrank chunk
  ⟨(min ((c.x + 1) * S.chunk.x) S.size.x : ℕ), (min ((c.y + 1) * S.chunk.y) S.size.y : ℕ),
    (min ((c.z + 1) * S.chunk.z) S.size.z : ℕ)⟩

/-- The smaller value on each axis. -/
def minCoord (a b : Coord3) : Coord3 := ⟨min a.x b.x, min a.y b.y, min a.z b.z⟩

/-- The larger value on each axis. -/
def maxCoord (a b : Coord3) : Coord3 := ⟨max a.x b.x, max a.y b.y, max a.z b.z⟩

/-- The box of the chunks. -/
def corridorBounds (chunks : List ℕ) : Box3 :=
  let minimum := (chunks.map (chunkBegin S)).foldl minCoord ⟨int64Max, int64Max, int64Max⟩
  let maximum := (chunks.map (chunkEnd S)).foldl maxCoord ⟨0, 0, 0⟩
  ⟨minimum, ⟨(maximum.x - minimum.x).toNat, (maximum.y - minimum.y).toNat,
    (maximum.z - minimum.z).toNat⟩⟩

/-- The end of `coarse_path`: the route read back from the goal; none when the parents do not
lead back to the start. -/
def readRoute (start goal visitedCount : ℕ) (scratch : RegionGraphScratch) :
    Option CoarsePathResult :=
  (Graphs.walkBack start scratch.parent scratch.parentPortal g.count goal).bind
    fun (indices, portalIndices) =>
      let regions := (indices.map (regionRef g.labels g.index.regionOffsets)).reverse
      (portalIndices.reverse.mapM fun i => g.portals[i]?).map fun portals =>
        { status := .reachable
          visitedRegions := visitedCount
          regions := regions
          portals := portals
          chunks := corridorChunks regions
          bounds := corridorBounds S (corridorChunks regions) }

/-- `coarse_path`; one round for every region is enough. -/
def coarsePath (request : PathRequest) (scratch : RegionGraphScratch) :
    Option (CoarsePathResult × RegionGraphScratch) :=
  let scratch := scratch.beginTraversal
  match endpointRegions S g request with
  | .error status => some ({ status := status, visitedRegions := 0 }, scratch)
  | .ok (startRef, goalRef) =>
    let start := g.indexOf startRef
    let goal := g.indexOf goalRef
    if start = invalidRegionIndex then
      some ({ status := .invalidStart, visitedRegions := 0 }, scratch)
    else if goal = invalidRegionIndex then
      some ({ status := .invalidGoal, visitedRegions := 0 }, scratch)
    else
      let resized := scratch.resizeParents g.count
      let seeded := { resized with parent := Function.update resized.parent start start }
      let first := ({ scratch := seeded : Traversal }).discover g start
      let searched : Option (Traversal × Bool) :=
        if start = goal then some (first, true) else searchRoute g goal g.count 0 first
      searched.bind fun (t, found) =>
        if found then
          (readRoute S g start goal t.visitedCount t.scratch).map fun r => (r, t.scratch)
        else some ({ status := exhausted t, visitedRegions := t.visitedCount }, t.scratch)

end Queries

/-! ### What the searches find -/

section Searches

open Graphs

variable {S : Shape} {g : GraphContents} {t : Traversal} {goal start current region : ℕ}
  {row : List (ℕ × ℕ)} {e : ℕ × ℕ}

/-- Regions one edge away. -/
def nextRegions (g : GraphContents) (a : ℕ) : List ℕ := (edgesOf g.index a).map Prod.fst

/-- The rows name regions of the graph. -/
def RowsInRange (g : GraphContents) : Prop := ∀ a < g.count, ∀ e ∈ edgesOf g.index a, e.1 < g.count

/-- The flag of a query says whether a visited region reaches missing topology. -/
def FlagExact (g : GraphContents) (t : Traversal) : Prop :=
  t.touchedMissing = true ↔
    ∃ v, t.scratch.isVisited v = true ∧ reachesMissing g v = true

@[simp] theorem epoch_discover : (t.discover g region).scratch.epoch = t.scratch.epoch := rfl

@[simp] theorem frontier_discover :
    (t.discover g region).scratch.frontier = t.scratch.frontier ++ [region] := rfl

@[simp] theorem visitedEpoch_discover : (t.discover g region).scratch.visitedEpoch =
    Function.update t.scratch.visitedEpoch region t.scratch.epoch := rfl

/-- **Discovering a region marks it** and no other. -/
theorem isVisited_discover : (t.discover g region).scratch.isVisited =
    Function.update t.scratch.isVisited region true := by
  funext v
  unfold RegionGraphScratch.isVisited
  rw [visitedEpoch_discover, epoch_discover]
  by_cases hv : v = region
  · subst hv
    simp
  · simp [Function.update_of_ne hv]

theorem FlagExact.discover (h : FlagExact g t) : FlagExact g (t.discover g region) := by
  have hflag : (t.discover g region).touchedMissing =
      (t.touchedMissing || reachesMissing g region) := rfl
  have hold : t.touchedMissing = true ↔
      ∃ v, t.scratch.isVisited v = true ∧ reachesMissing g v = true := h
  rw [FlagExact, hflag, Bool.or_eq_true, hold, isVisited_discover]
  constructor
  · rintro (⟨v, hv, hm⟩ | hm)
    · refine ⟨v, ?_, hm⟩
      by_cases hvr : v = region
      · rw [hvr, Function.update_self]
      · rwa [Function.update_of_ne hvr]
    · exact ⟨region, Function.update_self .., hm⟩
  · rintro ⟨v, hv, hm⟩
    by_cases hvr : v = region
    · exact Or.inr (hvr ▸ hm)
    · rw [Function.update_of_ne hvr] at hv
      exact Or.inl ⟨v, hv, hm⟩

/-! ### The depth-first search -/

/-- A running query as a stack search: its labels are epochs, its stack is read from the back of
the vector. -/
def Traversal.frontier (t : Traversal) : Frontier ℕ :=
  ⟨t.scratch.visitedEpoch, t.scratch.frontier.reverse⟩

/-- The marks of an epoch. -/
def inEpoch (epoch label : ℕ) : Bool := label == epoch

theorem inEpoch_self (epoch : ℕ) : inEpoch epoch epoch = true := beq_self_eq_true epoch

theorem frontier_discover_eq (h : ¬ t.scratch.isVisited region = true) :
    (t.discover g region).frontier =
      t.frontier.push (inEpoch t.scratch.epoch) t.scratch.epoch region := by
  rw [Frontier.push, if_neg (by exact h)]
  simp [Traversal.frontier]

/-- **The edge loop of `reachable`** ends at an edge to the goal; without one it pushes the
regions of the row. -/
theorem scanForGoal_spec (row : List (ℕ × ℕ)) (hgoal : t.scratch.isVisited goal = false) (hflag : FlagExact g t) :
    ((scanForGoal g goal row t).2 = true ↔ goal ∈ row.map Prod.fst) ∧
      ((scanForGoal g goal row t).2 = false →
        (scanForGoal g goal row t).1.scratch.epoch = t.scratch.epoch ∧
        (scanForGoal g goal row t).1.frontier =
          t.frontier.pushAll (inEpoch t.scratch.epoch) t.scratch.epoch (row.map Prod.fst) ∧
        (scanForGoal g goal row t).1.scratch.isVisited goal = false ∧
        FlagExact g (scanForGoal g goal row t).1) := by
  induction row generalizing t with
  | nil => simp [scanForGoal, hgoal, hflag]
  | cons e row ih =>
    obtain ⟨target, portal⟩ := e
    rw [scanForGoal]
    split_ifs with hseen hg
    · -- a visited region is passed over, and is not the goal
      have hne : goal ≠ target := by
        rintro rfl
        rw [hgoal] at hseen
        cases hseen
      obtain ⟨h1, h2⟩ := ih hgoal hflag
      refine ⟨by rw [h1, List.map_cons, List.mem_cons, or_iff_right hne], fun hf => ?_⟩
      have hpush : t.frontier.push (inEpoch t.scratch.epoch) t.scratch.epoch target = t.frontier := by
        rw [Frontier.push, if_pos (by exact hseen)]
      rw [List.map_cons, Frontier.pushAll_cons, hpush]
      exact h2 hf
    · subst hg
      exact ⟨by simp, fun hf => absurd hf (by decide)⟩
    · have hgoal' : (t.discover g target).scratch.isVisited goal = false := by
        rw [isVisited_discover, Function.update_of_ne (Ne.symm hg), hgoal]
      obtain ⟨h1, h2⟩ := ih hgoal' hflag.discover
      refine ⟨by rw [h1, List.map_cons, List.mem_cons, or_iff_right (Ne.symm hg)], fun hf => ?_⟩
      obtain ⟨h3, h4, h5⟩ := h2 hf
      refine ⟨h3, ?_, h5⟩
      rw [h4, epoch_discover, frontier_discover_eq hseen, List.map_cons, Frontier.pushAll_cons]

/-- A finished search without the goal. -/
theorem searched_all {before : ℕ → ℕ} (hbefore : ∀ v, inEpoch t.scratch.epoch (before v) = false)
    (E : Exploring (nextRegions g) (inEpoch t.scratch.epoch) t.scratch.epoch before start t.frontier)
    (hgoal : t.scratch.isVisited goal = false) (hflag : FlagExact g t)
    (hempty : t.scratch.frontier = []) :
    ¬ Visits (nextRegions g) start goal ∧ (t.touchedMissing = true ↔
      ∃ v, Visits (nextRegions g) start v ∧ reachesMissing g v = true) := by
  have hstack : t.frontier.stack = [] := by simp [Traversal.frontier, hempty]
  have hmarked {v : ℕ} (hv : Visits (nextRegions g) start v) : t.scratch.isVisited v = true :=
    beq_iff_eq.2 (E.labels_eq (inEpoch_self _) (hbefore start) hstack
      (fun _ y _ _ _ => hbefore y) hv).2
  refine ⟨fun hv => ?_, hflag.trans (exists_congr fun v => and_congr_left' ⟨fun hv => ?_, hmarked⟩)⟩
  · rw [hmarked hv] at hgoal
    cases hgoal
  · rcases E.new v with h | ⟨-, -, h⟩
    · have hno := hbefore v
      rw [← h] at hno
      exact absurd (hv.symm.trans hno) (by decide)
    · exact h

/-- **The search of `reachable`** finds the goal exactly when the portals lead to it; otherwise it
has visited the regions they lead to. -/
theorem searchForGoal_spec {rounds : ℕ} {before : ℕ → ℕ} (hrows : RowsInRange g)
    (hbefore : ∀ v, inEpoch t.scratch.epoch (before v) = false)
    (E : Exploring (nextRegions g) (inEpoch t.scratch.epoch) t.scratch.epoch before start t.frontier)
    (hgoal : t.scratch.isVisited goal = false) (hflag : FlagExact g t)
    (hin : ∀ v ∈ t.scratch.frontier, v < g.count)
    (hrounds : t.frontier.pending (inEpoch t.scratch.epoch) (Finset.range g.count) ≤ rounds) :
    ∃ r, searchForGoal g goal rounds t = some r ∧
      (r.2 = true → Visits (nextRegions g) start goal) ∧
      (r.2 = false → ¬ Visits (nextRegions g) start goal ∧
        (r.1.touchedMissing = true ↔
          ∃ v, Visits (nextRegions g) start v ∧ reachesMissing g v = true)) := by
  induction rounds generalizing t with
  | zero =>
    have hempty : t.scratch.frontier = [] := by
      rw [Frontier.pending] at hrounds
      have hlen : t.frontier.stack.length = 0 := by omega
      simpa [Traversal.frontier] using hlen
    exact ⟨(t, false), by simp [searchForGoal, hempty], fun hf => Bool.noConfusion hf,
      fun _ => searched_all hbefore E hgoal hflag hempty⟩
  | succ rounds ih =>
    rw [searchForGoal]
    cases hlast : t.scratch.frontier.getLast? with
    | none =>
      exact ⟨_, rfl, fun hf => Bool.noConfusion hf,
        fun _ => searched_all hbefore E hgoal hflag (List.getLast?_eq_none_iff.1 hlast)⟩
    | some current =>
      have hsplit : t.scratch.frontier = t.scratch.frontier.dropLast ++ [current] :=
        (List.dropLast_append_getLast? current hlast).symm
      generalize hrest : t.scratch.frontier.dropLast = rest at hsplit
      have hview : t.frontier = ⟨t.scratch.visitedEpoch, current :: rest.reverse⟩ := by
        rw [Traversal.frontier, hsplit, List.reverse_concat]
      have hcurrent : current < g.count := hin current (by rw [hsplit]; simp)
      have hrow : ((edgesOf g.index current).any fun e => decide (e.1 ≥ g.count)) = false := by
        rw [List.any_eq_false]
        intro e he
        simpa using hrows current hcurrent e he
      simp only [hrow, Bool.false_eq_true, if_false]
      -- the region on top of the stack is expanded
      generalize hpopped : ({ t with scratch := { t.scratch with frontier := rest } } : Traversal) =
        popped
      have hpepoch : popped.scratch.epoch = t.scratch.epoch := by rw [← hpopped]
      have hpview : popped.frontier = ⟨t.scratch.visitedEpoch, rest.reverse⟩ := by
        rw [← hpopped]
        rfl
      have hpgoal : popped.scratch.isVisited goal = false := by rw [← hpopped]; exact hgoal
      have hpflag : FlagExact g popped := by rw [← hpopped]; exact hflag
      obtain ⟨hfound, hpush⟩ := scanForGoal_spec (edgesOf g.index current) hpgoal hpflag
      generalize scanForGoal g goal (edgesOf g.index current) popped = r at hfound hpush ⊢
      rw [hview] at E hrounds
      split_ifs with hr
      · refine ⟨_, rfl, fun _ => ?_, fun hf => Bool.noConfusion (hr.symm.trans hf)⟩
        exact (E.stacked current List.mem_cons_self).2.2.tail (hfound.1 hr)
      · rw [Bool.not_eq_true] at hr
        obtain ⟨hepoch, hrview, hrgoal, hrflag⟩ := hpush hr
        rw [hpepoch] at hepoch
        rw [hpepoch, hpview] at hrview
        have hself := inEpoch_self t.scratch.epoch
        have hnext : ∀ b ∈ (edgesOf g.index current).map Prod.fst, b ∈ Finset.range g.count := by
          intro b hb
          obtain ⟨e, he, rfl⟩ := List.mem_map.1 hb
          exact Finset.mem_range.2 (hrows current hcurrent e he)
        have E' := E.expand hself
        rw [show nextRegions g current = (edgesOf g.index current).map Prod.fst from rfl,
          ← hrview] at E'
        refine ih (by rwa [hepoch]) (by rwa [hepoch]) hrgoal hrflag (fun v hv => ?_) ?_
        · have hv' : v ∈ r.1.frontier.stack := List.mem_reverse.2 hv
          rw [hrview, Frontier.mem_pushAll_stack hself] at hv'
          rcases hv' with hv' | ⟨hv', -⟩
          · exact hin v (by rw [hsplit]; exact List.mem_append_left _ (List.mem_reverse.1 hv'))
          · exact Finset.mem_range.1 (hnext v hv')
        · rw [hepoch, hrview, Frontier.pending_pushAll hself hnext]
          simp only [Frontier.pending, List.length_cons] at hrounds ⊢
          omega

/-- The outcomes of a search through the portals. -/
inductive SearchStatus (g : GraphContents) (start goal : ℕ) : ReachabilityStatus → Prop
  | reachable (h : Visits (nextRegions g) start goal) : SearchStatus g start goal .reachable
  | indeterminate (h : ¬ Visits (nextRegions g) start goal)
      (hmissing : ∃ v, Visits (nextRegions g) start v ∧ reachesMissing g v = true) :
      SearchStatus g start goal .indeterminate
  | unreachable (h : ¬ Visits (nextRegions g) start goal)
      (hmissing : ¬ ∃ v, Visits (nextRegions g) start v ∧ reachesMissing g v = true) :
      SearchStatus g start goal .unreachable

/-- **A search has one outcome.** -/
theorem SearchStatus.unique {status status' : ReachabilityStatus}
    (h : SearchStatus g start goal status) (h' : SearchStatus g start goal status') :
    status = status' := by
  cases h <;> cases h' <;> first | rfl | contradiction

theorem searchStatus_exhausted (h : ¬ Visits (nextRegions g) start goal)
    (hflag : t.touchedMissing = true ↔
      ∃ v, Visits (nextRegions g) start v ∧ reachesMissing g v = true) :
    SearchStatus g start goal (exhausted t) := by
  unfold exhausted
  split_ifs with hm
  · exact .indeterminate h (hflag.1 hm)
  · exact .unreachable h fun hv => hm (hflag.2 hv)

variable {request : PathRequest} {startRef goalRef : RegionRef}

/-- A query begins with its start visited and no other region. -/
theorem isVisited_first {scratch : RegionGraphScratch} (h : ∀ v, scratch.isVisited v = false)
    {v : ℕ} : ((⟨scratch, 0, false⟩ : Traversal).discover g start).scratch.isVisited v = true ↔
      v = start := by
  rw [isVisited_discover]
  by_cases hv : v = start
  · simp [hv]
  · simp [h v, hv]

theorem flagExact_start {scratch : RegionGraphScratch} (h : ∀ v, scratch.isVisited v = false) :
    FlagExact g ⟨scratch, 0, false⟩ := by
  refine ⟨fun hf => Bool.noConfusion hf, ?_⟩
  rintro ⟨v, hv, -⟩
  exact absurd (hv.symm.trans (h v)) (by decide)

/-- **`reachable` answers** what the portals of the graph say. -/
theorem reachable_spec (scratch : RegionGraphScratch) (hrows : RowsInRange g)
    (hends : endpointRegions S g request = .ok (startRef, goalRef))
    (hstart : g.indexOf startRef < g.count) (hgoal : g.indexOf goalRef < g.count)
    (hcount : g.count < 2 ^ 32)
    (hinj : g.indexOf startRef = g.indexOf goalRef → startRef = goalRef) :
    ∃ r s, reachable S g request scratch = some (r, s) ∧
      SearchStatus g (g.indexOf startRef) (g.indexOf goalRef) r.status := by
  have hvalid {i : ℕ} (hi : i < g.count) : i ≠ invalidRegionIndex := by
    unfold invalidRegionIndex
    omega
  rw [reachable, hends]
  simp only [if_neg (hvalid hstart), if_neg (hvalid hgoal)]
  split_ifs with hsame
  · exact ⟨_, _, rfl, hsame ▸ .reachable .refl⟩
  have hfresh := scratch.isVisited_beginTraversal
  generalize hbegin : scratch.beginTraversal = s at hfresh
  have hempty : s.frontier = [] := by rw [← hbegin, RegionGraphScratch.frontier_beginTraversal]
  generalize hi : g.indexOf startRef = start at *
  generalize hj : g.indexOf goalRef = goal at *
  have hne : goal ≠ start := fun h => hsame (hinj h.symm)
  have hview : ((⟨s, 0, false⟩ : Traversal).discover g start).frontier =
      ⟨Function.update s.visitedEpoch start s.epoch, [start]⟩ := by
    simp [Traversal.frontier, hempty]
  have hunseen : ((⟨s, 0, false⟩ : Traversal).discover g start).scratch.isVisited goal = false := by
    rw [← Bool.not_eq_true, isVisited_first hfresh]
    exact hne
  have hin : ∀ v ∈ ((⟨s, 0, false⟩ : Traversal).discover g start).scratch.frontier, v < g.count := by
    intro v hv
    rw [frontier_discover, hempty, List.nil_append, List.mem_singleton] at hv
    exact hv ▸ hstart
  have hrounds : ((⟨s, 0, false⟩ : Traversal).discover g start).frontier.pending
      (inEpoch s.epoch) (Finset.range g.count) ≤ g.count := by
    rw [hview]
    refine le_trans (Frontier.pending_start (inEpoch_self _) (Finset.mem_range.2 hstart)) ?_
    rw [Finset.card_range]
  have E : Exploring (nextRegions g) (inEpoch s.epoch) s.epoch s.visitedEpoch start
      ((⟨s, 0, false⟩ : Traversal).discover g start).frontier := by
    rw [hview]
    exact .init (hfresh start)
  obtain ⟨⟨t, found⟩, hr, hfound, hnone⟩ := @searchForGoal_spec g
    ((⟨s, 0, false⟩ : Traversal).discover g start) goal start g.count s.visitedEpoch hrows hfresh E
    hunseen (flagExact_start hfresh).discover hin hrounds
  refine ⟨_, t.scratch, by rw [hr, Option.map_some], ?_⟩
  cases found with
  | true => exact .reachable (hfound rfl)
  | false => exact searchStatus_exhausted (hnone rfl).1 (hnone rfl).2

/-! ### The breadth-first search -/

/-- A running query as a breadth-first search: a region records its parent and the portal it was
discovered by. -/
def Traversal.discovery (t : Traversal) : Discovery ℕ (ℕ × ℕ) :=
  ⟨t.scratch.frontier, t.scratch.isVisited,
    fun v => (t.scratch.parent v, t.scratch.parentPortal v)⟩

/-- What a region records. -/
def recordEdge (current : ℕ) (_ : ℕ × ℕ) (portal : ℕ) : ℕ × ℕ := (current, portal)

theorem discovery_discoverFrom : (t.discoverFrom g current e).discovery =
    t.discovery.add e.1 (current, e.2) := by
  refine Discovery.ext rfl isVisited_discover ?_
  funext v
  show (Function.update t.scratch.parent e.1 current v,
    Function.update t.scratch.parentPortal e.1 e.2 v) =
      Function.update t.discovery.data e.1 (current, e.2) v
  by_cases hv : v = e.1
  · subst hv
    simp
  · simp only [Function.update_of_ne hv]
    rfl

theorem FlagExact.discoverFrom (h : FlagExact g t) : FlagExact g (t.discoverFrom g current e) :=
  FlagExact.discover h

/-- **The edge loop of `coarse_path`** is a scan of the row. -/
theorem scanRow_eq (hflag : FlagExact g t) :
    ((scanRow g goal current row t).1.discovery, (scanRow g goal current row t).2) =
        scanEdges (· == goal) (fun portal => (current, portal)) row t.discovery ∧
      FlagExact g (scanRow g goal current row t).1 := by
  induction row generalizing t with
  | nil => exact ⟨rfl, hflag⟩
  | cons e row ih =>
    obtain ⟨target, portal⟩ := e
    have hadd : (t.discoverFrom g current (target, portal)).discovery =
        t.discovery.add target (current, portal) := discovery_discoverFrom
    rw [scanRow, scanEdges, show t.discovery.seen target = t.scratch.isVisited target from rfl]
    simp only [beq_iff_eq]
    split_ifs with hseen hg
    · exact ih hflag
    · exact ⟨by rw [hadd], hflag.discoverFrom⟩
    · rw [← hadd]
      exact ih hflag.discoverFrom

/-- **The search of `coarse_path`** is a breadth-first search through the rows. -/
theorem searchRoute_eq {rounds head : ℕ} (hrows : RowsInRange g)
    (hin : ∀ v ∈ t.scratch.frontier, v < g.count) (hflag : FlagExact g t) :
    (searchRoute g goal rounds head t).map (fun r => (r.1.discovery, r.2)) =
        breadthFirst (edgesOf g.index) recordEdge (· == goal) rounds head t.discovery ∧
      ∀ r, searchRoute g goal rounds head t = some r → FlagExact g r.1 := by
  induction rounds generalizing head t with
  | zero =>
    rw [searchRoute, breadthFirst]
    show Option.map _ (if t.scratch.frontier.length ≤ head then _ else _) =
      (if t.scratch.frontier.length ≤ head then _ else _) ∧ _
    split_ifs with hlen
    · refine ⟨rfl, fun r hr => ?_⟩
      rw [Option.some.injEq] at hr
      exact hr ▸ hflag
    · exact ⟨rfl, fun r hr => by cases hr⟩
  | succ rounds ih =>
    rw [searchRoute, breadthFirst]
    have horder : t.discovery.order = t.scratch.frontier := rfl
    rw [horder]
    cases hhead : t.scratch.frontier[head]? with
    | none =>
      refine ⟨rfl, fun r hr => ?_⟩
      simp only [Option.some.injEq] at hr
      exact hr ▸ hflag
    | some current =>
      have hcurrent := hin current (List.mem_of_getElem? hhead)
      have hrow : ((edgesOf g.index current).any fun e => decide (e.1 ≥ g.count)) = false := by
        rw [List.any_eq_false]
        intro e he
        simpa using hrows current hcurrent e he
      simp only [hrow, Bool.false_eq_true, if_false]
      have hscan : ((scanRow g goal current (edgesOf g.index current) t).1.discovery,
          (scanRow g goal current (edgesOf g.index current) t).2) =
            scanEdges (· == goal) (recordEdge current (t.discovery.data current))
              (edgesOf g.index current) t.discovery := (scanRow_eq hflag).1
      have hscanFlag : FlagExact g (scanRow g goal current (edgesOf g.index current) t).1 :=
        (scanRow_eq hflag).2
      rw [← hscan]
      generalize scanRow g goal current (edgesOf g.index current) t = r at hscan hscanFlag ⊢
      have hin' : ∀ v ∈ r.1.scratch.frontier, v < g.count := by
        intro v hv
        have hv' : v ∈ (scanEdges (· == goal) (recordEdge current (t.discovery.data current))
            (edgesOf g.index current) t.discovery).1.order := by rw [← hscan]; exact hv
        rcases order_of_scanEdges hv' with hv' | ⟨portal, hv'⟩
        · exact hin v hv'
        · exact hrows current hcurrent _ hv'
      simp only
      split_ifs with hr
      · refine ⟨rfl, fun r' hr' => ?_⟩
        rw [Option.some.injEq] at hr'
        exact hr' ▸ hscanFlag
      · exact ih hin' hscanFlag

theorem exists_mapM {α β : Type*} {f : α → Option β} {l : List α}
    (h : ∀ a ∈ l, ∃ b, f a = some b) : ∃ l', l.mapM f = some l' := by
  induction l with
  | nil => exact ⟨[], rfl⟩
  | cons a l ih =>
    obtain ⟨b, hb⟩ := h a List.mem_cons_self
    obtain ⟨l', hl⟩ := ih fun c hc => h c (List.mem_cons_of_mem _ hc)
    exact ⟨b :: l', by simp [hb, hl]⟩

/-- The result is the route that a walk through the rows names. -/
structure ReadsWalk (S : Shape) (g : GraphContents) (start goal : ℕ) (r : CoarsePathResult) : Prop where
  /-- A shortest walk through the rows, its regions and its portals. -/
  walk : ∃ ns es, Trail (edgesOf g.index) ns es start goal ∧
    (∀ C, Reaches (Joins (edgesOf g.index)) start goal C → es.length ≤ C) ∧
    r.regions = ns.map (regionRef g.labels g.index.regionOffsets) ∧
    es.mapM (fun i => g.portals[i]?) = some r.portals
  /-- The chunks of the regions. -/
  chunks : r.chunks = corridorChunks r.regions
  /-- The box of the chunks. -/
  bounds : r.bounds = corridorBounds S r.chunks

/-- The rows name portals of the graph. -/
def PortalsInRange (g : GraphContents) : Prop :=
  ∀ a < g.count, ∀ e ∈ edgesOf g.index a, e.2 < g.portals.length

/-- The walk that has been found is read back. -/
theorem readRoute_spec {depth : ℕ → ℕ} {head : ℕ} {x₀ : ℕ × ℕ} (visitedCount : ℕ)
    (hrows : RowsInRange g) (hportals : PortalsInRange g) (hstart : start < g.count)
    (L : Layers (edgesOf g.index) recordEdge start x₀ depth head t.discovery)
    (hgoal : goal ∈ t.scratch.frontier) :
    ∃ r, readRoute S g start goal visitedCount t.scratch = some r ∧ r.status = .reachable ∧
      ReadsWalk S g start goal r := by
  have hdepth : depth goal < (Finset.range g.count).card :=
    L.depth_lt_card (fun a ha p hp => Finset.mem_range.2 (hrows a (Finset.mem_range.1 ha) p hp))
      (Finset.mem_range.2 hstart) hgoal
  rw [Finset.card_range] at hdepth
  obtain ⟨ns, es, hwalk, hlen, htrail⟩ := exists_walkBack L hgoal (Nat.le_of_lt hdepth)
  have hroute := htrail.isRoute
  -- every portal of the walk stands in a row of the graph
  have hmem : ∀ v ∈ ns.reverse, v < g.count :=
    hroute.forall_mem hstart fun a b k ⟨_, e, he⟩ ha => hrows a ha _ he
  obtain ⟨portals, hmap⟩ : ∃ portals, es.reverse.mapM (fun i => g.portals[i]?) = some portals := by
    refine exists_mapM fun k hk => ?_
    obtain ⟨i, hi⟩ := List.mem_iff_getElem?.1 hk
    obtain ⟨u, w, hu, -, huw⟩ := htrail.joins hi
    exact ⟨_, List.getElem?_eq_getElem (hportals u (hmem u (List.mem_of_getElem? hu)) _ huw)⟩
  have hread : readRoute S g start goal visitedCount t.scratch = some
      { status := .reachable
        visitedRegions := visitedCount
        regions := (ns.map (regionRef g.labels g.index.regionOffsets)).reverse
        portals := portals
        chunks := corridorChunks (ns.map (regionRef g.labels g.index.regionOffsets)).reverse
        bounds := corridorBounds S
          (corridorChunks (ns.map (regionRef g.labels g.index.regionOffsets)).reverse) } := by
    rw [readRoute, show walkBack start t.scratch.parent t.scratch.parentPortal g.count goal =
      some (ns, es) from hwalk, Option.bind_some]
    simp only [hmap, Option.map_some]
  refine ⟨_, hread, rfl, ⟨⟨ns.reverse, es.reverse, htrail, fun C hC => ?_, ?_, hmap⟩, rfl, rfl⟩⟩
  · rw [List.length_reverse, hlen]
    exact L.depth_le hgoal hC
  · exact List.map_reverse.symm

/-- **`coarse_path` answers** what the portals of the graph say, with a shortest walk. -/
theorem coarsePath_spec (scratch : RegionGraphScratch) (hrows : RowsInRange g)
    (hportals : PortalsInRange g)
    (hends : endpointRegions S g request = .ok (startRef, goalRef))
    (hstart : g.indexOf startRef < g.count) (hgoal : g.indexOf goalRef < g.count)
    (hcount : g.count < 2 ^ 32) :
    ∃ r s, coarsePath S g request scratch = some (r, s) ∧
      SearchStatus g (g.indexOf startRef) (g.indexOf goalRef) r.status ∧
      (r.status = .reachable → ReadsWalk S g (g.indexOf startRef) (g.indexOf goalRef) r) := by
  have hvalid {i : ℕ} (hi : i < g.count) : i ≠ invalidRegionIndex := by
    unfold invalidRegionIndex
    omega
  rw [coarsePath]
  simp only [hends, if_neg (hvalid hstart), if_neg (hvalid hgoal)]
  have hfresh := scratch.isVisited_beginTraversal
  generalize hbegin : scratch.beginTraversal = s at hfresh ⊢
  have hempty : s.frontier = [] := by rw [← hbegin, RegionGraphScratch.frontier_beginTraversal]
  generalize hi : g.indexOf startRef = start at *
  generalize hj : g.indexOf goalRef = goal at *
  -- the query begins with the start alone
  generalize hseeded : ({ s.resizeParents g.count with
    parent := Function.update (s.resizeParents g.count).parent start start } :
      RegionGraphScratch) = seeded
  have hsfresh : ∀ v, seeded.isVisited v = false := by
    intro v
    rw [← hseeded]
    exact hfresh v
  have hsempty : seeded.frontier = [] := by rw [← hseeded]; exact hempty
  have hdata : ((⟨seeded, 0, false⟩ : Traversal).discover g start).discovery =
      (⟨[], seeded.isVisited, (⟨seeded, 0, false⟩ : Traversal).discovery.data⟩ :
        Discovery ℕ (ℕ × ℕ)).add start ((⟨seeded, 0, false⟩ : Traversal).discovery.data start) := by
    refine Discovery.ext ?_ isVisited_discover (Function.update_eq_self _ _).symm
    show seeded.frontier ++ [start] = [] ++ [start]
    rw [hsempty]
  have L : Layers (edgesOf g.index) recordEdge start _ (fun _ => 0) 0
      ((⟨seeded, 0, false⟩ : Traversal).discover g start).discovery := hdata ▸ layers_start hsfresh
  have hflag : FlagExact g ((⟨seeded, 0, false⟩ : Traversal).discover g start) :=
    (flagExact_start hsfresh).discover
  have hfrontier : ((⟨seeded, 0, false⟩ : Traversal).discover g start).scratch.frontier = [start] := by
    rw [frontier_discover, hsempty, List.nil_append]
  generalize (⟨seeded, 0, false⟩ : Traversal).discover g start = first at *
  split_ifs with hsame
  · subst hsame
    have hmem : start ∈ first.scratch.frontier := by rw [hfrontier]; exact List.mem_singleton.2 rfl
    obtain ⟨r, hr, hstatus, hwalk⟩ :=
      readRoute_spec (S := S) first.visitedCount hrows hportals hstart L hmem
    exact ⟨r, first.scratch, by simp [hr], hstatus ▸ .reachable .refl, fun _ => hwalk⟩
  · have hin : ∀ v ∈ first.scratch.frontier, v < g.count := by
      intro v hv
      rw [hfrontier, List.mem_singleton] at hv
      exact hv ▸ hstart
    have hrange : ∀ a ∈ Finset.range g.count, ∀ p ∈ edgesOf g.index a, p.1 ∈ Finset.range g.count :=
      fun a ha p hp => Finset.mem_range.2 (hrows a (Finset.mem_range.1 ha) p hp)
    obtain ⟨⟨d, found⟩, hd⟩ : ∃ r, breadthFirst (edgesOf g.index) recordEdge (· == goal) g.count 0
        first.discovery = some r :=
      exists_breadthFirst L hrange (fun v hv => Finset.mem_range.2 (hin v hv))
        (by rw [Finset.card_range]; exact le_rfl)
    obtain ⟨hmap, hflags⟩ := searchRoute_eq hrows hin hflag
    obtain ⟨⟨t, found'⟩, ht, hpair⟩ := Option.map_eq_some_iff.1 (hmap.trans hd)
    obtain ⟨rfl, rfl⟩ := Prod.mk.inj hpair
    obtain ⟨depth, head, L', hfound, hnone⟩ := layers_of_breadthFirst L hd
    have hvisits (v : ℕ) : t.scratch.isVisited v = true → Visits (nextRegions g) start v :=
      fun hv => visits_iff_reaches.2 ⟨_, L'.reaches ((L'.seen_iff v).1 hv)⟩
    rw [ht, Option.bind_some]
    cases found' with
    | true =>
      obtain ⟨v, hv, hstop⟩ := hfound rfl
      obtain rfl : v = goal := beq_iff_eq.1 hstop
      obtain ⟨r, hr, hstatus, hwalk⟩ :=
        readRoute_spec (S := S) t.visitedCount hrows hportals hstart L' hv
      refine ⟨r, t.scratch, by simp [hr], hstatus ▸ .reachable ?_, fun _ => hwalk⟩
      exact hvisits v ((L'.seen_iff v).2 hv)
    | false =>
      obtain ⟨hdone, hold⟩ := hnone rfl
      have hmarked {v : ℕ} (hv : Visits (nextRegions g) start v) : t.scratch.isVisited v = true := by
        obtain ⟨C, hC⟩ := visits_iff_reaches.1 hv
        exact (L'.seen_iff v).2 (L'.mem_of_reaches hdone hC)
      have hno : ¬ Visits (nextRegions g) start goal := by
        intro hv
        rcases hold goal ((L'.seen_iff goal).1 (hmarked hv)) with hold | hold
        · exact hsame (List.mem_singleton.1 (hfrontier ▸ hold)).symm
        · simp at hold
      have hexact : FlagExact g t := hflags _ ht
      refine ⟨_, t.scratch, rfl, searchStatus_exhausted hno ?_, fun h => ?_⟩
      · exact hexact.trans (exists_congr fun v => and_congr_left' ⟨hvisits v, hmarked⟩)
      · have hst : exhausted t = .reachable := h
        unfold exhausted at hst
        split_ifs at hst

end Searches

end Tess
