import Tess.Path.Segment
import Tess.Path.Types

/-!
# Shortcuts of the unit search

Before its search a dense orthogonal `astar_path` tries a few routes that it can recognise as
shortest: the direct axis orders, a route through one tile of a plane that has to be crossed, a
chain of forced gaps, and a detour around a blocked straight line.

* `astarShortcut` : the attempts in their order, sharing the tile and the axis on which the last
  direct order was blocked;
* `DirectState.Blocked` : what is known once every direct order has failed;
* `ForcedInv` : the invariant of the forced-gap chain, with the last gap as an anchor from which
  every route is at least as long as the chain;
* `astarShortcut_exact` : **every answer is exact**: a found path is a shortest one, and without
  a path there is none.
-/

namespace Tess

open Graphs

section Definitions

variable {S : Shape} {Tag : Type*} (W : World S Tag) (cls : MovementClass S Tag)

/-- `detail::is_full_axis_barrier`: no tile of the plane through `blocked` is passable. -/
def isFullAxisBarrier (blocked : Coord3) : Axis → Bool
  | .x => (List.range S.size.z).all fun z => (List.range S.size.y).all fun y =>
      !isPassableIndex W cls (S.tileKey ⟨blocked.x, y, z⟩)
  | .y => (List.range S.size.z).all fun z => (List.range S.size.x).all fun x =>
      !isPassableIndex W cls (S.tileKey ⟨x, blocked.y, z⟩)
  | .z => (List.range S.size.y).all fun y => (List.range S.size.x).all fun x =>
      !isPassableIndex W cls (S.tileKey ⟨x, y, blocked.z⟩)

/-! ### Direct axis orders -/

/-- The locals that the direct orders leave to the later attempts. -/
structure DirectState where
  /-- Tiles of the path. -/
  path : List Coord3 := []
  /-- The plane through the blocked tile is a barrier. -/
  blockedByBarrier : Bool := false
  /-- Tile at which the last direct order was blocked. -/
  blockedCoord : Coord3
  /-- Axis along which it was walking. -/
  blockedAxis : Axis := .x

/-- `try_direct_order`. -/
def tryDirectOrder (request : PathRequest) (axes : List Axis) (st : DirectState) :
    Bool × DirectState :=
  match walkAxes (isPassable W cls) request.goal axes request.start [request.start] with
  | .ok (_, path) => (true, { st with path := path })
  | .error (axis, blocked) =>
    (false, { path := [], blockedByBarrier := isFullAxisBarrier W cls blocked axis,
              blockedCoord := blocked, blockedAxis := axis })

/-- The orders of a shape, in the order in which they are tried. -/
def directOrders (S : Shape) : List (List Axis) :=
  if S.degenerate .z then [[.x, .y, .z], [.y, .x, .z]]
  else if S.degenerate .y then [[.x, .z, .y], [.z, .x, .y]]
  else if S.degenerate .x then [[.y, .z, .x], [.z, .y, .x]]
  else [[.x, .y, .z], [.y, .x, .z], [.x, .z, .y], [.z, .x, .y], [.y, .z, .x], [.z, .y, .x]]

/-- Try the orders until one succeeds or is blocked by a barrier. -/
def tryDirectOrders (request : PathRequest) :
    List (List Axis) → DirectState → Bool × DirectState
  | [], st => (false, st)
  | axes :: orders, st =>
    if st.blockedByBarrier then (false, st)
    else match tryDirectOrder W cls request axes st with
      | (true, st) => (true, st)
      | (false, st) => tryDirectOrders request orders st

/-! ### Routes through a gap of a plane -/

/-- Some axis of the shape is degenerate. -/
def has2dAxes (S : Shape) : Bool := S.degenerate .x || S.degenerate .y || S.degenerate .z

/-- `other_2d_axis`. -/
def other2dAxis (S : Shape) (axis : Axis) : Axis :=
  if S.degenerate .z then if axis = .x then .y else .x
  else if S.degenerate .y then if axis = .x then .z else .x
  else if axis = .y then .z else .y

/-- `append_segment_2d`, `append_segment_3d`: the path is restored when a tile is blocked. -/
def appendSegment (start dest : Coord3) (path : List Coord3) (axes : List Axis) :
    Option (List Coord3) :=
  match walkAxes (isPassable W cls) dest axes start path with
  | .ok (_, path) => some path
  | .error _ => none

/-- One tile of the scan for the cheapest passable tile of a plane. -/
def bestGapStep (request : PathRequest) (best : Coord3 × ℕ) (gap : Coord3) : Coord3 × ℕ :=
  if !isPassableIndex W cls (S.tileKey gap) then best
  else
    let cost := saturatingAdd (manhattan request.start gap) (manhattan gap request.goal)
    if cost < best.2 then (gap, cost) else best

/-- The scan for the cheapest passable tile of a plane. -/
def bestGap (request : PathRequest) (gaps : List Coord3) : Coord3 × ℕ :=
  gaps.foldl (bestGapStep W cls request) (⟨0, 0, 0⟩, infiniteCost)

/-- The route through the cheapest gap, each leg along the first order that is free. -/
def planeGapRoute (request : PathRequest) (gaps : List Coord3) (orders : List (List Axis)) :
    Option (List Coord3 × ℕ) :=
  let best := bestGap W cls request gaps
  if best.2 = infiniteCost then none
  else
    match orders.findSome? (appendSegment W cls request.start best.1 [request.start]) with
    | none => none
    | some path =>
      match orders.findSome? (appendSegment W cls best.1 request.goal path) with
      | none => none
      | some path => some (path, best.2)

/-- The line of tiles through `c` along an axis. -/
def axisLine (S : Shape) (c : Coord3) (axis : Axis) : List Coord3 :=
  (List.range (S.size.get axis)).map fun value : ℕ => c.set axis (value : ℤ)

/-- `try_plane_gap_route_2d`. -/
def tryPlaneGapRoute2d (request : PathRequest) (st : DirectState) :
    Option (List Coord3 × ℕ) :=
  if !has2dAxes S then none
  else if S.degenerate st.blockedAxis then none
  else
    let scanAxis := other2dAxis S st.blockedAxis
    planeGapRoute W cls request (axisLine S st.blockedCoord scanAxis)
      [[st.blockedAxis, scanAxis], [scanAxis, st.blockedAxis]]

/-- The two axes that `try_plane_gap_route_3d` scans. -/
def scanAxes3d : Axis → Axis × Axis
  | .x => (.y, .z)
  | .y => (.x, .z)
  | .z => (.x, .y)

/-- `try_plane_gap_route_3d`. -/
def tryPlaneGapRoute3d (request : PathRequest) (st : DirectState) :
    Option (List Coord3 × ℕ) :=
  if has2dAxes S then none
  else
    planeGapRoute W cls request
      ((axisLine S st.blockedCoord (scanAxes3d st.blockedAxis).1).flatMap fun gap =>
        axisLine S gap (scanAxes3d st.blockedAxis).2)
      [[.x, .y, .z], [.x, .z, .y], [.y, .x, .z], [.y, .z, .x], [.z, .x, .y], [.z, .y, .x]]

/-! ### Forced gaps -/

/-- Outcome of one forced-gap attempt. -/
inductive ForcedOutcome
  | failed
  | noPath
  | found (path : List Coord3)

/-- The main loop of `try_forced_plane_gaps_2d` up to the goal's plane: the current tile, the
path and whether a forced gap was taken. -/
def forcedLoop (goal : Coord3) (progress gap : Axis) (progressStep : ℤ) :
    ℕ → Coord3 → List Coord3 → Bool → Except ForcedOutcome (Coord3 × List Coord3 × Bool)
  | 0, _, _, _ => .error .failed
  | fuel + 1, current, path, foundForcedGap =>
    if current.get progress = goal.get progress then .ok (current, path, foundForcedGap)
    else
      let next := current.set progress (current.get progress + progressStep)
      if isPassable W cls next then
        forcedLoop goal progress gap progressStep fuel next (path ++ [next]) foundForcedGap
      else
        match (axisLine S next gap).filter fun c => isPassableIndex W cls (S.tileKey c) with
        | [] => .error .noPath
        | only :: others =>
          if others.length + 1 = S.size.get gap then
            forcedLoop goal progress gap progressStep fuel current path foundForcedGap
          else if others ≠ [] then .error .failed
          else
            match walkAxes (isPassable W cls) only [gap, progress] current path with
            | .error _ => .error .failed
            | .ok (current, path) =>
              forcedLoop goal progress gap progressStep fuel current path true

/-- `try_forced_plane_gaps_2d`. -/
def tryForcedPlaneGaps2d (request : PathRequest) (progress : Axis) : ForcedOutcome :=
  if !has2dAxes S then .failed
  else if S.degenerate progress then .failed
  else if request.start.get progress = request.goal.get progress then .failed
  else
    let gap := other2dAxis S progress
    let progressStep : ℤ := if request.start.get progress < request.goal.get progress then 1 else -1
    match forcedLoop W cls request.goal progress gap progressStep
        ((request.start.get progress - request.goal.get progress).natAbs + 1) request.start
        [request.start] false with
    | .error outcome => outcome
    | .ok (current, path, foundForcedGap) =>
      if !foundForcedGap then .failed
      else
        match walkAxes (isPassable W cls) request.goal [progress, gap] current path with
        | .error _ => .failed
        | .ok (_, path) => .found path

/-! ### Detours -/

/-- `try_axis_aligned_detour`, for any check of a tile. -/
def axisAlignedDetour (S : Shape) (ok : Coord3 → Bool) (request : PathRequest)
    (attempt : Axis × Axis × ℤ) : Option (List Coord3) :=
  let (primary, detour, detourStep) := attempt
  let side := request.start.set detour (request.start.get detour + detourStep)
  if !S.contains side then none
  else if !ok side then none
  else
    match walkAxis ok primary (request.goal.get primary) side [request.start, side] with
    | .error _ => none
    | .ok (current, path) =>
      let last := current.set detour (current.get detour - detourStep)
      if ok last then some (path ++ [last]) else none

/-- The detours tried when start and goal differ along one axis only. -/
def detourAttempts (request : PathRequest) : List (Axis × Axis × ℤ) :=
  (if request.start.y = request.goal.y ∧ request.start.z = request.goal.z then
    [(.x, .y, 1), (.x, .y, -1), (.x, .z, 1), (.x, .z, -1)] else []) ++
  (if request.start.x = request.goal.x ∧ request.start.z = request.goal.z then
    [(.y, .x, 1), (.y, .x, -1), (.y, .z, 1), (.y, .z, -1)] else []) ++
  (if request.start.x = request.goal.x ∧ request.start.y = request.goal.y then
    [(.z, .x, 1), (.z, .x, -1), (.z, .y, 1), (.z, .y, -1)] else [])

/-! ### All attempts -/

/-- A path that a shortcut has found. -/
def shortcutFound (cost : ℕ) (path : List Coord3) : PathResult :=
  { status := .found, cost := cost, expandedNodes := path.length, reachedNodes := path.length,
    path := path }

/-- **The shortcuts of `astar_path`**; `none` leaves the answer to the search, with an empty
path. -/
def astarShortcut (request : PathRequest) : Option PathResult :=
  match tryDirectOrders W cls request (directOrders S) { blockedCoord := request.start } with
  | (true, st) => some (shortcutFound (manhattan request.start request.goal) st.path)
  | (false, st) =>
    if st.blockedByBarrier then some { status := .noPath, path := st.path }
    else match tryPlaneGapRoute2d W cls request st with
    | some (path, cost) => some (shortcutFound cost path)
    | none => match tryPlaneGapRoute3d W cls request st with
    | some (path, cost) => some (shortcutFound cost path)
    | none => match tryForcedPlaneGaps2d W cls request .x, tryForcedPlaneGaps2d W cls request .y,
        tryForcedPlaneGaps2d W cls request .z with
    | .found path, _, _ | _, .found path, _ | _, _, .found path =>
      some (shortcutFound ((path.length - 1) % 2 ^ 32) path)
    | .noPath, _, _ | _, .noPath, _ | _, _, .noPath => some { status := .noPath }
    | .failed, .failed, .failed =>
      ((detourAttempts request).findSome? (axisAlignedDetour S (isPassable W cls) request)).map
        (shortcutFound (saturatingAdd (manhattan request.start request.goal) 2))

end Definitions

/-! ### Direct orders -/

section Exactness

variable {S : Shape} {Tag : Type*} {W : World S Tag} {cls : MovementClass S Tag}
  {request : PathRequest} {st st' : DirectState} {a b c w : Coord3} {axis : Axis}
  {path path' : List Coord3} {C d : ℕ}

/-- One step onto a passable tile. -/
abbrev FreeStep (W : World S Tag) (cls : MovementClass S Tag) : Coord3 → Coord3 → ℕ → Prop :=
  FaceStep S (isPassable W cls)

/-- A shortest route over passable tiles, of `d` steps. -/
def ShortestRoute (W : World S Tag) (cls : MovementClass S Tag) (request : PathRequest)
    (path : List Coord3) (d : ℕ) : Prop :=
  IsRoute (FreeStep W cls) path request.start request.goal d ∧
    ∀ C, Reaches (FreeStep W cls) request.start request.goal C → d ≤ C

theorem setAxes_eq {axes : List Axis} (h : ∀ r, r ∈ axes ∨ a.get r = c.get r) :
    setAxes c axes a = c := by
  refine Coord3.ext_get fun r => ?_
  rw [get_setAxes]
  split_ifs with hr
  · rfl
  · exact (h r).resolve_left hr

theorem isFullAxisBarrier_spec (h : isFullAxisBarrier W cls b axis = true)
    (hw : S.contains w = true) (hb : w.get axis = b.get axis) : isPassable W cls w = false := by
  have key : ∀ c : Coord3, isPassableIndex W cls (S.tileKey c) = false → c = w →
      isPassable W cls w = false := by
    rintro c hc rfl
    rwa [isPassableIndex_tileKey hw] at hc
  have hc := Shape.contains_iff.1 hw
  cases axis <;> simp only [isFullAxisBarrier, List.all_eq_true, List.mem_range,
    Bool.not_eq_true'] at h <;> simp only [Coord3.get] at hb
  · refine key _ (h w.z.toNat (by omega) w.y.toNat (by omega)) ?_
    ext <;> simp <;> omega
  · refine key _ (h w.z.toNat (by omega) w.x.toNat (by omega)) ?_
    ext <;> simp <;> omega
  · refine key _ (h w.y.toNat (by omega) w.x.toNat (by omega)) ?_
    ext <;> simp <;> omega

/-- **What a blocked direct order leaves behind**: an empty path and an impassable tile of the
box between start and goal, past the start on the axis of the walk. -/
structure DirectState.Blocked (W : World S Tag) (cls : MovementClass S Tag)
    (request : PathRequest) (st : DirectState) : Prop where
  /-- The path is cleared. -/
  path_nil : st.path = []
  /-- The tile is not passable. -/
  blocked : isPassable W cls st.blockedCoord = false
  /-- The tile lies between start and goal. -/
  inBox : InBox request.start st.blockedCoord request.goal
  /-- The tile lies past the start. -/
  past : (request.start.get st.blockedAxis < st.blockedCoord.get st.blockedAxis ∧
      st.blockedCoord.get st.blockedAxis ≤ request.goal.get st.blockedAxis) ∨
    (request.goal.get st.blockedAxis ≤ st.blockedCoord.get st.blockedAxis ∧
      st.blockedCoord.get st.blockedAxis < request.start.get st.blockedAxis)
  /-- The flag tells whether its plane is a barrier. -/
  barrier : st.blockedByBarrier = isFullAxisBarrier W cls st.blockedCoord st.blockedAxis

theorem tryDirectOrder_true (hs : S.contains request.start = true)
    (hg : S.contains request.goal = true) {axes : List Axis} (hall : ∀ r, r ∈ axes)
    (h : tryDirectOrder W cls request axes st = (true, st')) :
    ShortestRoute W cls request st'.path (gridDist request.start request.goal) := by
  unfold tryDirectOrder at h
  split at h
  · rename_i c path hw
    obtain ⟨rfl, l, rfl, hroute⟩ := walkAxes_ok hs hg hw
    rw [setAxes_eq fun r => Or.inl (hall r)] at hroute
    simp only [Prod.mk.injEq, true_and] at h
    subst h
    exact ⟨hroute, fun C => gridDist_le_of_reaches⟩
  · simp at h

theorem tryDirectOrder_false {axes : List Axis}
    (h : tryDirectOrder W cls request axes st = (false, st')) : st'.Blocked W cls request := by
  unfold tryDirectOrder at h
  split at h
  · simp at h
  · rename_i axis blocked hw
    obtain ⟨hbox, hok, hpast⟩ := walkAxes_error hw
    simp only [Prod.mk.injEq, true_and] at h
    subst h
    exact ⟨rfl, hok, hbox, hpast, rfl⟩

theorem tryDirectOrders_true (hs : S.contains request.start = true)
    (hg : S.contains request.goal = true) {orders : List (List Axis)}
    (hall : ∀ axes ∈ orders, ∀ r, r ∈ axes)
    (h : tryDirectOrders W cls request orders st = (true, st')) :
    ShortestRoute W cls request st'.path (gridDist request.start request.goal) := by
  induction orders generalizing st with
  | nil => simp [tryDirectOrders] at h
  | cons axes orders ih =>
    rw [tryDirectOrders] at h
    split_ifs at h
    · simp at h
    · split at h
      · rename_i st₁ htry
        simp only [Prod.mk.injEq, true_and] at h
        subst h
        exact tryDirectOrder_true hs hg (hall axes List.mem_cons_self) htry
      · exact ih (fun o ho => hall o (List.mem_cons_of_mem _ ho)) h

theorem tryDirectOrders_false {orders : List (List Axis)} (hst : st.Blocked W cls request ∨
      (st.blockedByBarrier = false ∧ orders ≠ []))
    (h : tryDirectOrders W cls request orders st = (false, st')) : st'.Blocked W cls request := by
  induction orders generalizing st with
  | nil =>
    simp only [tryDirectOrders, Prod.mk.injEq, true_and] at h
    subst h
    simpa using hst
  | cons axes orders ih =>
    rw [tryDirectOrders] at h
    split_ifs at h with hbar
    · simp only [Prod.mk.injEq, true_and] at h
      subst h
      exact hst.resolve_right fun hst => by simp [hbar] at hst
    · split at h
      · simp at h
      · rename_i st₁ htry
        exact ih (Or.inl (tryDirectOrder_false htry)) h

theorem mem_directOrders {axes : List Axis} (h : axes ∈ directOrders S) (r : Axis) : r ∈ axes := by
  unfold directOrders at h
  split_ifs at h <;> simp only [List.mem_cons, List.not_mem_nil, or_false] at h <;>
    rcases h with rfl | rfl | rfl | rfl | rfl | rfl <;> cases r <;> decide

theorem directOrders_ne_nil : directOrders S ≠ [] := by
  unfold directOrders
  split_ifs <;> simp

namespace DirectState.Blocked

variable (B : st.Blocked W cls request)

include B in
/-- The plane of the blocked tile lies between start and goal. -/
theorem between : (request.start.get st.blockedAxis ≤ st.blockedCoord.get st.blockedAxis ∧
      st.blockedCoord.get st.blockedAxis ≤ request.goal.get st.blockedAxis) ∨
    (request.goal.get st.blockedAxis ≤ st.blockedCoord.get st.blockedAxis ∧
      st.blockedCoord.get st.blockedAxis ≤ request.start.get st.blockedAxis) := by
  have := B.past
  omega

include B in
/-- **A barrier** between start and goal leaves no route. -/
theorem not_reaches (hs : isPassable W cls request.start = true)
    (hbar : st.blockedByBarrier = true) :
    ¬ Reaches (FreeStep W cls) request.start request.goal C := by
  intro h
  obtain ⟨w, C₁, C₂, hw, h₁, -, -⟩ := exists_plane h B.between
  have hblocked := isFullAxisBarrier_spec (B.barrier ▸ hbar)
    (contains_of_reaches h₁ (contains_of_isPassable hs)) hw
  rw [ok_of_reaches h₁ hs] at hblocked
  exact absurd hblocked (by simp)

end DirectState.Blocked

/-! ### Gaps of a plane -/

theorem mem_axisLine : c ∈ axisLine S a axis ↔ ∃ v : ℕ, v < S.size.get axis ∧
    c = a.set axis v := by
  simp only [axisLine, List.mem_map, List.mem_range]
  exact exists_congr fun v => and_congr_right fun _ => eq_comm

/-- A tile that differs from another along one axis at most lies on its line. -/
theorem mem_axisLine_of_get (hc : S.contains c = true)
    (h : ∀ r, r ≠ axis → c.get r = a.get r) : c ∈ axisLine S a axis := by
  have hr := Shape.contains_iff_get.1 hc axis
  refine mem_axisLine.2 ⟨(c.get axis).toNat, by omega, Coord3.ext_get fun r => ?_⟩
  rw [Coord3.get_set]
  split_ifs with hra
  · subst hra; omega
  · exact h r hra

theorem contains_of_mem_axisLine (ha : S.contains a = true) (h : c ∈ axisLine S a axis) :
    S.contains c = true := by
  obtain ⟨v, hv, rfl⟩ := mem_axisLine.1 h
  exact contains_set ha (by omega) (by omega)

/-- Cost of the way over a gap, as the scan computes it. -/
def gapCost (request : PathRequest) (gap : Coord3) : ℕ :=
  min (gridDist request.start gap + gridDist gap request.goal) infiniteCost

theorem gapCost_eq (request : PathRequest) (gap : Coord3) :
    saturatingAdd (manhattan request.start gap) (manhattan gap request.goal) =
      gapCost request gap := by
  rw [saturatingAdd_eq_min (by rw [manhattan_eq_min]; omega), manhattan_eq_min,
    manhattan_eq_min, gapCost]
  omega

/-- One tile of the scan: it is taken when it is passable and strictly cheaper. -/
theorem bestGapStep_cases (best : Coord3 × ℕ) (hc : S.contains c = true) :
    (bestGapStep W cls request best c = best ∧
        (isPassable W cls c = true → best.2 ≤ gapCost request c)) ∨
      (bestGapStep W cls request best c = (c, gapCost request c) ∧ isPassable W cls c = true ∧
        gapCost request c < best.2) := by
  unfold bestGapStep
  rw [isPassableIndex_tileKey hc, gapCost_eq]
  simp only
  split_ifs with h1 h2
  · exact Or.inl ⟨rfl, fun h => by simp [h] at h1⟩
  · exact Or.inr ⟨rfl, by simpa using h1, h2⟩
  · exact Or.inl ⟨rfl, fun _ => not_lt.1 h2⟩

/-- The scan goes through the list from any best tile seen before. -/
theorem foldl_bestGapStep (gaps : List Coord3) (best : Coord3 × ℕ)
    (hgaps : ∀ c ∈ gaps, S.contains c = true) :
    let best' := gaps.foldl (bestGapStep W cls request) best
    (best' = best ∨ (best'.1 ∈ gaps ∧ isPassable W cls best'.1 = true ∧
      best'.2 = gapCost request best'.1)) ∧ best'.2 ≤ best.2 ∧
      ∀ c ∈ gaps, isPassable W cls c = true → best'.2 ≤ gapCost request c := by
  induction gaps generalizing best with
  | nil => simp
  | cons gap gaps ih =>
    obtain ⟨h1, h2, h3⟩ := ih (bestGapStep W cls request best gap)
      fun c hc => hgaps c (List.mem_cons_of_mem _ hc)
    simp only [List.foldl_cons]
    rcases bestGapStep_cases best (hgaps gap List.mem_cons_self) with ⟨hs, hle⟩ | ⟨hs, hp, hlt⟩
    · rw [hs] at h1 h2 h3 ⊢
      refine ⟨h1.imp_right (And.imp_left (List.mem_cons_of_mem _)), h2, fun c hc hpc => ?_⟩
      rcases List.mem_cons.1 hc with rfl | hc
      · exact h2.trans (hle hpc)
      · exact h3 c hc hpc
    · rw [hs] at h1 h2 h3 ⊢
      refine ⟨Or.inr ?_, h2.trans hlt.le, fun c hc hpc => ?_⟩
      · rcases h1 with h1 | ⟨h1, h1'⟩
        · rw [h1]; exact ⟨List.mem_cons_self, hp, rfl⟩
        · exact ⟨List.mem_cons_of_mem _ h1, h1'⟩
      · rcases List.mem_cons.1 hc with rfl | hc
        · exact h2
        · exact h3 c hc hpc

/-- **The scan returns a cheapest passable tile.** -/
theorem bestGap_spec (W : World S Tag) (cls : MovementClass S Tag) (request : PathRequest)
    {gaps : List Coord3} (hgaps : ∀ c ∈ gaps, S.contains c = true) :
    let best := bestGap W cls request gaps
    (best.2 ≠ infiniteCost → best.1 ∈ gaps ∧ isPassable W cls best.1 = true ∧
      best.2 = gridDist request.start best.1 + gridDist best.1 request.goal) ∧
      ∀ c ∈ gaps, isPassable W cls c = true →
        best.2 ≤ gridDist request.start c + gridDist c request.goal := by
  obtain ⟨h1, -, h3⟩ := foldl_bestGapStep (W := W) gaps
    (⟨0, 0, 0⟩, infiniteCost) hgaps
  refine ⟨fun hne => ?_, fun c hc hp => (h3 c hc hp).trans (min_le_left _ _)⟩
  rcases h1 with h1 | ⟨h1, h2, h4⟩
  · exact absurd (congrArg Prod.snd h1) hne
  · refine ⟨h1, h2, ?_⟩
    have h4 : (bestGap W cls request gaps).2 = min _ infiniteCost := h4
    rw [h4] at hne ⊢
    exact min_eq_left (le_of_not_ge fun h => hne (min_eq_right h))

theorem appendSegment_spec (ha : S.contains a = true) (hc : S.contains c = true)
    {axes : List Axis} (haxes : setAxes c axes a = c)
    (h : appendSegment W cls a c path axes = some path') :
    ∃ l, path' = path ++ l ∧ IsRoute (FreeStep W cls) (a :: l) a c (gridDist a c) := by
  unfold appendSegment at h
  split at h
  · rename_i e path'' hw
    obtain ⟨rfl, l, rfl, hroute⟩ := walkAxes_ok ha hc hw
    rw [haxes] at hroute
    exact ⟨l, (Option.some.inj h).symm, hroute⟩
  · cases h

/-- **A route through the cheapest tile of a plane** that has to be crossed is shortest. -/
theorem planeGapRoute_spec (B : st.Blocked W cls request)
    (hs : isPassable W cls request.start = true) (hg : S.contains request.goal = true)
    {gaps : List Coord3} (hgaps : ∀ c ∈ gaps, S.contains c = true)
    (hall : ∀ c, S.contains c = true →
      c.get st.blockedAxis = st.blockedCoord.get st.blockedAxis → c ∈ gaps)
    {orders : List (List Axis)} (horders : ∀ axes ∈ orders, ∀ a c, S.contains a = true →
      S.contains c = true → setAxes c axes a = c)
    (h : planeGapRoute W cls request gaps orders = some (path, d)) :
    ShortestRoute W cls request path d := by
  obtain ⟨h1, h2⟩ := bestGap_spec W cls request hgaps
  unfold planeGapRoute at h
  simp only at h
  split_ifs at h with hbest
  obtain ⟨hmem, hpass, hcost⟩ := h1 hbest
  have hcs := contains_of_isPassable hs
  have hcg := contains_of_isPassable hpass
  split at h
  · cases h
  rename_i path₁ hfirst
  split at h
  · cases h
  rename_i path₂ hsecond
  simp only [Option.some.injEq, Prod.mk.injEq] at h
  obtain ⟨rfl, rfl⟩ := h
  obtain ⟨axes₁, hm₁, ha₁⟩ := List.exists_of_findSome?_eq_some hfirst
  obtain ⟨axes₂, hm₂, ha₂⟩ := List.exists_of_findSome?_eq_some hsecond
  obtain ⟨l₁, rfl, hr₁⟩ := appendSegment_spec hcs hcg (horders _ hm₁ _ _ hcs hcg) ha₁
  obtain ⟨l₂, rfl, hr₂⟩ := appendSegment_spec hcg hg (horders _ hm₂ _ _ hcg hg) ha₂
  refine ⟨?_, fun C hC => ?_⟩
  · rw [hcost]
    exact hr₁.append hr₂
  · -- every route crosses the plane at a tile the scan has seen
    obtain ⟨w, C₁, C₂, hw, hC₁, hC₂, rfl⟩ := exists_plane hC B.between
    have hle := h2 w (hall w (contains_of_reaches hC₁ hcs) hw) (ok_of_reaches hC₁ hs)
    have := gridDist_le_of_reaches hC₁
    have := gridDist_le_of_reaches hC₂
    omega

theorem get_eq_of_degenerate {r : Axis} (ha : S.contains a = true) (hc : S.contains c = true)
    (h : S.size.get r = 1) : a.get r = c.get r := by
  rw [get_eq_zero_of_size ha h, get_eq_zero_of_size hc h]

/-- In a shape with a degenerate axis, every axis but two is degenerate. -/
theorem other2dAxis_spec (h2 : has2dAxes S = true) (hd : S.degenerate axis = false) :
    other2dAxis S axis ≠ axis ∧
      ∀ r, r = axis ∨ r = other2dAxis S axis ∨ S.size.get r = 1 := by
  unfold has2dAxes at h2
  unfold other2dAxis
  cases axis <;> cases hx : S.degenerate .x <;> cases hy : S.degenerate .y <;>
    cases hz : S.degenerate .z <;> simp_all [Shape.degenerate] <;>
    (intro r; cases r <;> simp [*])

theorem tryPlaneGapRoute2d_spec (B : st.Blocked W cls request)
    (hs : isPassable W cls request.start = true) (hg : S.contains request.goal = true)
    (h : tryPlaneGapRoute2d W cls request st = some (path, d)) :
    ShortestRoute W cls request path d := by
  unfold tryPlaneGapRoute2d at h
  split_ifs at h with h2 hd
  simp only [Bool.not_eq_true, Bool.not_eq_false'] at h2 hd
  obtain ⟨hne, hr⟩ := other2dAxis_spec h2 hd
  have hcb := B.inBox.contains (contains_of_isPassable hs) hg
  refine planeGapRoute_spec B hs hg (fun c => contains_of_mem_axisLine hcb) ?_ ?_ h
  · intro c hc hplane
    refine mem_axisLine_of_get hc fun r hra => ?_
    rcases hr r with rfl | rfl | h1
    · exact hplane
    · exact absurd rfl hra
    · exact get_eq_of_degenerate hc hcb h1
  · intro axes hmem a c ha hc
    refine setAxes_eq fun r => ?_
    simp only [List.mem_cons, List.not_mem_nil, or_false] at hmem
    rcases hr r with rfl | rfl | h1
    · rcases hmem with rfl | rfl <;> simp
    · rcases hmem with rfl | rfl <;> simp
    · exact Or.inr (get_eq_of_degenerate ha hc h1)

theorem eq_of_ne_scanAxes3d {r : Axis} (h1 : r ≠ (scanAxes3d axis).1)
    (h2 : r ≠ (scanAxes3d axis).2) : r = axis := by
  cases axis <;> cases r <;> simp [scanAxes3d] at h1 h2 ⊢

theorem tryPlaneGapRoute3d_spec (B : st.Blocked W cls request)
    (hs : isPassable W cls request.start = true) (hg : S.contains request.goal = true)
    (h : tryPlaneGapRoute3d W cls request st = some (path, d)) :
    ShortestRoute W cls request path d := by
  unfold tryPlaneGapRoute3d at h
  split_ifs at h with h2
  have hcb := B.inBox.contains (contains_of_isPassable hs) hg
  refine planeGapRoute_spec B hs hg ?_ ?_ ?_ h
  · intro c hc
    obtain ⟨e, he, hc⟩ := List.mem_flatMap.1 hc
    exact contains_of_mem_axisLine (contains_of_mem_axisLine hcb he) hc
  · intro c hc hplane
    have hr := Shape.contains_iff_get.1 hc
    refine List.mem_flatMap.2 ⟨st.blockedCoord.set (scanAxes3d st.blockedAxis).1
      (c.get (scanAxes3d st.blockedAxis).1), ?_, ?_⟩
    · refine mem_axisLine_of_get (contains_set hcb (hr _).1 (hr _).2) fun r hra => ?_
      rw [Coord3.get_set, if_neg hra]
    · refine mem_axisLine_of_get hc fun r hra => ?_
      rw [Coord3.get_set]
      split_ifs with hr1
      · rw [hr1]
      · rw [eq_of_ne_scanAxes3d hr1 hra, hplane]
  · intro axes hmem a c _ _
    refine setAxes_eq fun r => Or.inl ?_
    simp only [List.mem_cons, List.not_mem_nil, or_false] at hmem
    rcases hmem with rfl | rfl | rfl | rfl | rfl | rfl <;> cases r <;> decide

/-! ### Forced gaps -/

/-- From `u` one walks towards the goal's plane to get to `v`, or not at all. -/
def Ahead (request : PathRequest) (progress : Axis) (u v : ℤ) : Prop :=
  (request.start.get progress < request.goal.get progress ∧ u ≤ v) ∨
    (request.goal.get progress < request.start.get progress ∧ v ≤ u)

/-- **The invariant of the forced-gap chain.**  The anchor is the last forced gap, or the start;
every route to a tile ahead of it is at least as long as the chain to the anchor and the
distance from there. -/
structure ForcedInv (W : World S Tag) (cls : MovementClass S Tag) (request : PathRequest)
    (progress : Axis) (current : Coord3) (path : List Coord3) (anchor : Coord3) (D : ℕ) :
    Prop where
  /-- The path so far is a route. -/
  route : IsRoute (FreeStep W cls) path request.start current (D + gridDist anchor current)
  /-- Since the anchor the chain went straight. -/
  straight : ∀ r, r ≠ progress → current.get r = anchor.get r
  /-- The anchor is ahead of the start. -/
  start_anchor : Ahead request progress (request.start.get progress) (anchor.get progress)
  /-- The current tile is ahead of the anchor. -/
  anchor_current : Ahead request progress (anchor.get progress) (current.get progress)
  /-- The goal is ahead of the current tile. -/
  current_goal : Ahead request progress (current.get progress) (request.goal.get progress)
  /-- Routes are no shorter than the chain. -/
  least : ∀ t C, Ahead request progress (anchor.get progress) (t.get progress) →
    Reaches (FreeStep W cls) request.start t C → D + gridDist anchor t ≤ C

namespace ForcedInv

variable {progress gap : Axis} {current anchor next only : Coord3} {D : ℕ} {s : ℤ}

theorem init (hne : request.start.get progress ≠ request.goal.get progress) :
    ForcedInv W cls request progress request.start [request.start] request.start 0 := by
  refine ⟨by rw [gridDist_self]; exact .single _, fun _ _ => rfl, ?_, ?_, ?_, fun t C _ h => ?_⟩
  · unfold Ahead; omega
  · unfold Ahead; omega
  · unfold Ahead; omega
  · rw [Nat.zero_add]
    exact gridDist_le_of_reaches h

theorem contains_current (I : ForcedInv W cls request progress current path anchor D)
    (hs : S.contains request.start = true) : S.contains current = true :=
  contains_of_reaches ⟨_, I.route⟩ hs

/-- The step towards the goal's plane. -/
theorem next_spec (I : ForcedInv W cls request progress current path anchor D)
    (hs : S.contains request.start = true) (hg : S.contains request.goal = true)
    (hstep : s = if request.start.get progress < request.goal.get progress then 1 else -1)
    (hne : current.get progress ≠ request.goal.get progress)
    (hn : next = current.set progress (current.get progress + s)) :
    S.contains next = true ∧ next.get progress = current.get progress + s ∧
      (next.get progress - request.goal.get progress).natAbs + 1 =
        (current.get progress - request.goal.get progress).natAbs ∧
      Ahead request progress (current.get progress) (next.get progress) ∧
      Ahead request progress (next.get progress) (request.goal.get progress) ∧
      (current.get progress - next.get progress).natAbs = 1 ∧
      ∀ r, r ≠ progress → next.get r = current.get r := by
  have hget : next.get progress = current.get progress + s := by rw [hn, Coord3.get_set, if_pos rfl]
  have h1 := Shape.contains_iff_get.1 hs progress
  have h2 := Shape.contains_iff_get.1 hg progress
  have h3 := Shape.contains_iff_get.1 (I.contains_current hs) progress
  have h4 := I.current_goal
  unfold Ahead at h4 ⊢
  refine ⟨?_, hget, ?_, ?_, ?_, ?_, fun r hr => by rw [hn, Coord3.get_set, if_neg hr]⟩
  · rw [hn]
    refine contains_set (I.contains_current hs) ?_ ?_ <;> split_ifs at hstep <;> omega
  all_goals rw [hget]; split_ifs at hstep <;> omega

/-- **A free step** towards the goal's plane keeps the anchor. -/
theorem step (I : ForcedInv W cls request progress current path anchor D)
    (hc : S.contains current = true) (hnext : S.contains next = true)
    (hok : isPassable W cls next = true) (hr : ∀ r, r ≠ progress → next.get r = current.get r)
    (h1 : (current.get progress - next.get progress).natAbs = 1)
    (hcn : Ahead request progress (current.get progress) (next.get progress))
    (hng : Ahead request progress (next.get progress) (request.goal.get progress)) :
    ForcedInv W cls request progress next (path ++ [next]) anchor D := by
  have hset : next = current.set progress (next.get progress) := Coord3.ext_get fun r => by
    rw [Coord3.get_set]
    split_ifs with hrp
    · rw [hrp]
    · exact hr r hrp
  have hac := I.anchor_current
  have hbox : InBox anchor current next := fun r => by
    by_cases hrp : r = progress
    · subst hrp
      unfold Ahead at hac hcn
      omega
    · have := I.straight r hrp
      have := hr r hrp
      omega
  have hface : FaceAdjacent current next := hset ▸ faceAdjacent_set current h1
  refine ⟨?_, fun r hrp => (hr r hrp).trans (I.straight r hrp), I.start_anchor, ?_, hng, I.least⟩
  · have hdist := hbox.gridDist_add
    have hone : gridDist current next = 1 := hface
    rw [← hdist, hone, ← Nat.add_assoc]
    exact I.route.snoc ⟨hc, hnext, hface, hok, rfl⟩
  · unfold Ahead at hac hcn ⊢
    omega

/-- **A forced gap**, the only passable tile of the next plane, becomes the anchor. -/
theorem forced (I : ForcedInv W cls request progress current path anchor D)
    (hs : isPassable W cls request.start = true)
    (hcn : Ahead request progress (current.get progress) (only.get progress))
    (hng : Ahead request progress (only.get progress) (request.goal.get progress))
    (honly : ∀ w, isPassable W cls w = true → w.get progress = only.get progress → w = only)
    {l : List Coord3}
    (hl : IsRoute (FreeStep W cls) (current :: l) current only (gridDist current only)) :
    ForcedInv W cls request progress only (path ++ l) only (D + gridDist anchor only) := by
  have hsa := I.start_anchor
  have hac := I.anchor_current
  have hbox : InBox anchor current only := fun r => by
    by_cases hrp : r = progress
    · subst hrp
      unfold Ahead at hac hcn
      omega
    · have := I.straight r hrp
      omega
  refine ⟨?_, fun _ _ => rfl, ?_, ?_, hng, fun t C ht h => ?_⟩
  · rw [gridDist_self, Nat.add_zero, ← hbox.gridDist_add, ← Nat.add_assoc]
    exact I.route.append hl
  · unfold Ahead at hsa hac hcn ⊢
    omega
  · unfold Ahead at hng ⊢
    omega
  · -- the route has to pass the gap
    obtain ⟨w, C₁, C₂, hw, h₁, h₂, rfl⟩ : ∃ w C₁ C₂, w.get progress = only.get progress ∧
        Reaches (FreeStep W cls) request.start w C₁ ∧ Reaches (FreeStep W cls) w t C₂ ∧
          C = C₁ + C₂ := exists_plane h (by
      unfold Ahead at hsa hac hcn ht
      omega)
    obtain rfl := honly w (ok_of_reaches h₁ hs) hw
    have hle := I.least w C₁ (by unfold Ahead at hac hcn ⊢; omega) h₁
    have := gridDist_le_of_reaches h₂
    omega

end ForcedInv

/-- How the forced-gap loop ends: at the goal's plane with its invariant, undecided, or at a
plane that no route crosses. -/
def ForcedEnds (W : World S Tag) (cls : MovementClass S Tag) (request : PathRequest)
    (progress : Axis) : Except ForcedOutcome (Coord3 × List Coord3 × Bool) → Prop
  | .ok (current, path, _) => current.get progress = request.goal.get progress ∧
      ∃ anchor D, ForcedInv W cls request progress current path anchor D
  | .error .failed => True
  | .error .noPath => ∀ C, ¬ Reaches (FreeStep W cls) request.start request.goal C
  | .error (.found _) => False

/-- **The forced-gap loop** ends at the goal's plane with its invariant, or at a plane without a
passable tile, which no route crosses. -/
theorem forcedLoop_spec {progress gap : Axis} {s : ℤ} (hs : isPassable W cls request.start = true)
    (hg : S.contains request.goal = true) (hgap : gap ≠ progress)
    (hr : ∀ r, r = progress ∨ r = gap ∨ S.size.get r = 1)
    (hstep : s = if request.start.get progress < request.goal.get progress then 1 else -1)
    (fuel : ℕ) (forced : Bool) {current anchor : Coord3} {D : ℕ}
    (I : ForcedInv W cls request progress current path anchor D)
    (hfuel : (current.get progress - request.goal.get progress).natAbs < fuel) :
    ForcedEnds W cls request progress
      (forcedLoop W cls request.goal progress gap s fuel current path forced) := by
  have hcs := contains_of_isPassable hs
  induction fuel generalizing current path anchor D forced with
  | zero => omega
  | succ fuel ih =>
    rw [forcedLoop]
    by_cases hend : current.get progress = request.goal.get progress
    · rw [if_pos hend]
      exact ⟨hend, anchor, D, I⟩
    rw [if_neg hend]
    obtain ⟨hcn, hget, hfuel', hahead, hahead', hone, hrest⟩ := I.next_spec hcs hg hstep hend rfl
    set next := current.set progress (current.get progress + s) with hnext
    have hcc := I.contains_current hcs
    -- a tile of the next plane lies on the scanned line
    have hline : ∀ w, S.contains w = true → w.get progress = next.get progress →
        w ∈ axisLine S next gap := fun w hw hwp => mem_axisLine_of_get hw fun r hrg => by
      rcases hr r with rfl | rfl | h1
      · exact hwp
      · exact absurd rfl hrg
      · exact get_eq_of_degenerate hw hcn h1
    have hpassable : ∀ w, w ∈ (axisLine S next gap).filter
        (fun c => isPassableIndex W cls (S.tileKey c)) ↔
          w ∈ axisLine S next gap ∧ isPassable W cls w = true := fun w => by
      rw [List.mem_filter]
      refine and_congr_right fun hw => ?_
      rw [isPassableIndex_tileKey (contains_of_mem_axisLine hcn hw)]
    by_cases hok : isPassable W cls next = true
    · simp only [hok, if_true]
      exact ih forced (I.step hcc hcn hok hrest hone hahead hahead') (by omega)
    simp only [hok, Bool.false_eq_true, if_false]
    split
    · rename_i hnil
      intro C h
      have hac := I.anchor_current
      have hsa := I.start_anchor
      obtain ⟨w, C₁, C₂, hw, h₁, -, -⟩ : ∃ w C₁ C₂, w.get progress = next.get progress ∧
          Reaches (FreeStep W cls) request.start w C₁ ∧
            Reaches (FreeStep W cls) w request.goal C₂ ∧ C = C₁ + C₂ := exists_plane h (by
        unfold Ahead at hsa hac hahead hahead'
        omega)
      have hmem := (hpassable w).2 ⟨hline w (contains_of_reaches h₁ hcs) hw, ok_of_reaches h₁ hs⟩
      rw [hnil] at hmem
      exact absurd hmem List.not_mem_nil
    · rename_i only others hcons
      rw [hcons] at hpassable
      split_ifs with hall hothers
      · -- the next tile itself is blocked
        exfalso
        have hlen : ((axisLine S next gap).filter
            fun c => isPassableIndex W cls (S.tileKey c)).length = (axisLine S next gap).length := by
          rw [hcons, List.length_cons, hall, axisLine, List.length_map, List.length_range]
        have := List.length_filter_eq_length_iff.1 hlen next (hline next hcn rfl)
        rw [isPassableIndex_tileKey hcn] at this
        exact hok this
      · trivial
      · have hothers : others = [] := by simpa using hothers
        subst hothers
        obtain ⟨hmem, honlyp⟩ := (hpassable only).1 List.mem_cons_self
        obtain ⟨v, hv, hset⟩ := mem_axisLine.1 hmem
        have honlyget : only.get progress = next.get progress := by
          rw [hset, Coord3.get_set, if_neg hgap.symm]
        have hco := contains_of_mem_axisLine hcn hmem
        split
        · trivial
        · rename_i current' path' hw
          obtain ⟨rfl, l, rfl, hl⟩ := walkAxes_ok hcc hco hw
          have hend' : setAxes only [gap, progress] current = only := setAxes_eq fun r => by
            rcases hr r with rfl | rfl | h1
            · simp
            · simp
            · exact Or.inr (get_eq_of_degenerate hcc hco h1)
          rw [hend'] at hl ⊢
          rw [← honlyget] at hahead hahead' hfuel'
          refine ih true (I.forced hs hahead hahead' (fun w hw hwp => ?_) hl) (by omega)
          have := (hpassable w).2
            ⟨hline w (contains_of_isPassable hw) (hwp.trans honlyget), hw⟩
          simpa using this

/-- What the outcome of a forced-gap attempt says. -/
def ForcedOutcome.Exact (W : World S Tag) (cls : MovementClass S Tag) (request : PathRequest) :
    ForcedOutcome → Prop
  | .failed => True
  | .noPath => ∀ C, ¬ Reaches (FreeStep W cls) request.start request.goal C
  | .found path => ∃ d, ShortestRoute W cls request path d

/-- **A chain of forced gaps is shortest**, and a plane without a gap leaves no route. -/
theorem tryForcedPlaneGaps2d_exact (W : World S Tag) (cls : MovementClass S Tag)
    (hs : isPassable W cls request.start = true)
    (hg : S.contains request.goal = true) (progress : Axis) :
    (tryForcedPlaneGaps2d W cls request progress).Exact W cls request := by
  have hcs := contains_of_isPassable hs
  unfold tryForcedPlaneGaps2d
  by_cases h2 : has2dAxes S = true
  swap
  · simp [h2, ForcedOutcome.Exact]
  by_cases hd : S.degenerate progress = true
  · simp [hd, h2, ForcedOutcome.Exact]
  by_cases hne : request.start.get progress = request.goal.get progress
  · simp [hd, h2, hne, ForcedOutcome.Exact]
  obtain ⟨hgap, hr⟩ := other2dAxis_spec h2 (by simpa using hd)
  have hloop := forcedLoop_spec hs hg hgap hr rfl _ false
    (ForcedInv.init (W := W) hne) (Nat.lt_add_one _)
  simp only [h2, hd, hne, Bool.not_true, Bool.false_eq_true, if_false]
  generalize forcedLoop W cls request.goal progress (other2dAxis S progress) _ _ _ _ _ = res
    at hloop ⊢
  match res with
  | .error .failed => trivial
  | .error .noPath => exact hloop
  | .error (.found _) => exact hloop.elim
  | .ok (_, _, false) => trivial
  | .ok (current, path, true) =>
    obtain ⟨hend, anchor, D, I⟩ := hloop
    simp only [Bool.not_true, Bool.false_eq_true, if_false]
    cases hw : walkAxes (isPassable W cls) request.goal [progress, other2dAxis S progress]
      current path with
    | error _ => trivial
    | ok last =>
      obtain ⟨last, path'⟩ := last
      have hcc := I.contains_current hcs
      obtain ⟨rfl, l, rfl, hl⟩ := walkAxes_ok hcc hg hw
      have hgoal : setAxes request.goal [progress, other2dAxis S progress] current =
          request.goal := setAxes_eq fun r => by
        rcases hr r with rfl | rfl | h1
        · simp
        · simp
        · exact Or.inr (get_eq_of_degenerate hcc hg h1)
      rw [hgoal] at hl
      have hbox : InBox anchor current request.goal := fun r => by
        by_cases hrp : r = progress
        · subst hrp
          have := I.anchor_current
          unfold Ahead at this
          omega
        · have := I.straight r hrp
          omega
      have hac := I.anchor_current
      refine ⟨D + gridDist anchor request.goal, ?_, fun C h => I.least _ C (hend ▸ hac) h⟩
      rw [← hbox.gridDist_add, ← Nat.add_assoc]
      exact I.route.append hl

/-! ### Detours -/

theorem mem_detourAttempts {primary detour : Axis} {s : ℤ}
    (h : (primary, detour, s) ∈ detourAttempts request) :
    (∀ r, r ≠ primary → request.start.get r = request.goal.get r) ∧ detour ≠ primary ∧
      IsSign s := by
  unfold detourAttempts at h
  simp only [List.mem_append] at h
  unfold IsSign
  rcases h with (h | h) | h <;> split_ifs at h with heq <;>
    simp only [List.mem_cons, List.not_mem_nil, or_false, Prod.mk.injEq] at h <;>
    rcases h with ⟨rfl, rfl, rfl⟩ | ⟨rfl, rfl, rfl⟩ | ⟨rfl, rfl, rfl⟩ | ⟨rfl, rfl, rfl⟩ <;>
    (refine ⟨fun r hr => ?_, by decide, by decide⟩; cases r <;> simp_all [Coord3.get])

/-- **A detour** is a route two steps longer than the distance. -/
theorem axisAlignedDetour_spec {ok : Coord3 → Bool} {attempt : Axis × Axis × ℤ}
    (hs : S.contains request.start = true) (hg : S.contains request.goal = true)
    (ha : attempt ∈ detourAttempts request)
    (h : axisAlignedDetour S ok request attempt = some path) :
    IsRoute (FaceStep S ok) path request.start request.goal
      (gridDist request.start request.goal + 2) := by
  obtain ⟨primary, detour, s⟩ := attempt
  obtain ⟨haligned, hne, hsign⟩ := mem_detourAttempts ha
  unfold axisAlignedDetour at h
  simp only at h
  split_ifs at h with hcs hok
  simp only [Bool.not_eq_true, Bool.not_eq_false'] at hcs hok
  split at h
  · cases h
  rename_i current path' hw
  split_ifs at h with hlast
  obtain ⟨rfl, l, rfl, hl⟩ := walkAxis_ok hcs hg hw
  set side := request.start.set detour (request.start.get detour + s) with hside
  have hsidep : side.get primary = request.start.get primary := by
    rw [hside, Coord3.get_set, if_neg hne.symm]
  have hcc : S.contains (side.set primary (request.goal.get primary)) = true :=
    (inBox_set side request.goal primary).contains hcs hg
  have hend : (side.set primary (request.goal.get primary)).set detour
      ((side.set primary (request.goal.get primary)).get detour - s) = request.goal := by
    refine Coord3.ext_get fun r => ?_
    simp only [Coord3.get_set, hside, hne, if_false, if_true]
    by_cases hrd : r = detour
    · subst hrd
      rw [if_pos rfl, ← haligned r hne]
      ring
    · rw [if_neg hrd]
      by_cases hrp : r = primary
      · rw [if_pos hrp, hrp]
      · rw [if_neg hrp, if_neg hrd]
        exact haligned r hrp
  have hfirst : FaceAdjacent request.start side :=
    faceAdjacent_set _ (by unfold IsSign at hsign; omega)
  have hsecond : FaceAdjacent (side.set primary (request.goal.get primary)) request.goal := by
    have := faceAdjacent_set (side.set primary (request.goal.get primary)) (r := detour)
      (v := (side.set primary (request.goal.get primary)).get detour - s)
      (by unfold IsSign at hsign; omega)
    rwa [hend] at this
  have hdist : gridDist request.start request.goal =
      gridDist side (side.set primary (request.goal.get primary)) := by
    have hgoal : request.goal = request.start.set primary (request.goal.get primary) :=
      Coord3.ext_get fun r => by
        rw [Coord3.get_set]
        split_ifs with hrp
        · rw [hrp]
        · exact (haligned r hrp).symm
    rw [gridDist_set, hsidep, ← gridDist_set, ← hgoal]
  rw [hend] at h hlast
  obtain rfl := Option.some.inj h
  have hside' : FaceStep S ok request.start side 1 := ⟨hs, hcs, hfirst, hok, rfl⟩
  have hroute := (IsRoute.cons hside' hl).snoc ⟨hcc, hg, hsecond, hlast, rfl⟩
  rw [hdist, Nat.add_comm, show 2 + gridDist side (side.set primary (request.goal.get primary)) =
    1 + gridDist side (side.set primary (request.goal.get primary)) + 1 by omega]
  exact hroute

/-- A blocked straight line makes every route two steps longer than the distance. -/
theorem DirectState.Blocked.gridDist_add_two_le (B : st.Blocked W cls request)
    (hs : isPassable W cls request.start = true) {attempt : Axis × Axis × ℤ}
    (ha : attempt ∈ detourAttempts request)
    (h : Reaches (FreeStep W cls) request.start request.goal C) :
    gridDist request.start request.goal + 2 ≤ C := by
  obtain ⟨primary, detour, s⟩ := attempt
  obtain ⟨haligned, -, -⟩ := mem_detourAttempts ha
  have hpast := B.past
  have haxis : st.blockedAxis = primary := by
    by_contra hne
    have := haligned _ hne
    omega
  refine Tess.gridDist_add_two_le h hs B.between fun w hbox hw => ?_
  obtain rfl : w = st.blockedCoord := Coord3.ext_get fun r => by
    by_cases hrp : r = primary
    · rw [hrp, ← haxis, hw]
    · have := haligned r hrp
      have := hbox r
      have := B.inBox r
      omega
  exact B.blocked

/-! ### All attempts -/

/-- **What an exact answer says**: a found path is a shortest route, its cost is the number of
steps as far as 32 bits hold it, and without a path there is no route. -/
def ExactAnswer (W : World S Tag) (cls : MovementClass S Tag) (request : PathRequest)
    (r : PathResult) : Prop :=
  (r.status = .found ∧ ∃ d, ShortestRoute W cls request r.path d ∧
      (d ≤ infiniteCost → r.cost = d)) ∨
    (r.status = .noPath ∧ r.cost = 0 ∧ r.path = [] ∧
      ∀ C, ¬ Reaches (FreeStep W cls) request.start request.goal C)

theorem exactAnswer_found {cost : ℕ} (h : ShortestRoute W cls request path d)
    (hc : d ≤ infiniteCost → cost = d) :
    ExactAnswer W cls request (shortcutFound cost path) :=
  Or.inl ⟨rfl, d, h, hc⟩

/-- **Every answer of the shortcuts is exact.** -/
theorem astarShortcut_exact (hs : isPassable W cls request.start = true)
    (hg : isPassable W cls request.goal = true) {r : PathResult}
    (h : astarShortcut W cls request = some r) : ExactAnswer W cls request r := by
  have hcs := contains_of_isPassable hs
  have hcg := contains_of_isPassable hg
  unfold astarShortcut at h
  split at h
  · rename_i st hdirect
    obtain rfl := Option.some.inj h
    refine exactAnswer_found (tryDirectOrders_true hcs hcg (fun _ => mem_directOrders) hdirect)
      fun hd => ?_
    rw [manhattan_eq_min, min_eq_left hd]
  rename_i st hdirect
  have B : st.Blocked W cls request :=
    tryDirectOrders_false (Or.inr ⟨rfl, directOrders_ne_nil⟩) hdirect
  split_ifs at h with hbar
  · obtain rfl := Option.some.inj h
    exact Or.inr ⟨rfl, rfl, B.path_nil, fun C => B.not_reaches hs hbar⟩
  split at h
  · rename_i path cost hgap
    obtain rfl := Option.some.inj h
    exact exactAnswer_found (tryPlaneGapRoute2d_spec B hs hcg hgap) fun _ => rfl
  split at h
  · rename_i path cost hgap
    obtain rfl := Option.some.inj h
    exact exactAnswer_found (tryPlaneGapRoute3d_spec B hs hcg hgap) fun _ => rfl
  have found : ∀ {path}, (∃ d, ShortestRoute W cls request path d) →
      ExactAnswer W cls request (shortcutFound ((path.length - 1) % 2 ^ 32) path) := by
    rintro path ⟨d, hd⟩
    refine exactAnswer_found hd fun hle => ?_
    rw [hd.1.length_eq FaceStep.unit, Nat.add_sub_cancel, Nat.mod_eq_of_lt]
    exact Nat.lt_of_le_of_lt hle (by decide)
  have hx := tryForcedPlaneGaps2d_exact W cls hs hcg .x
  have hy := tryForcedPlaneGaps2d_exact W cls hs hcg .y
  have hz := tryForcedPlaneGaps2d_exact W cls hs hcg .z
  split at h
  · rename_i path heq
    obtain rfl := Option.some.inj h
    rw [heq] at hx
    exact found hx
  · rename_i path heq _
    obtain rfl := Option.some.inj h
    rw [heq] at hy
    exact found hy
  · rename_i path heq _ _
    obtain rfl := Option.some.inj h
    rw [heq] at hz
    exact found hz
  · rename_i heq _ _
    obtain rfl := Option.some.inj h
    rw [heq] at hx
    exact Or.inr ⟨rfl, rfl, rfl, hx⟩
  · rename_i heq _ _ _
    obtain rfl := Option.some.inj h
    rw [heq] at hy
    exact Or.inr ⟨rfl, rfl, rfl, hy⟩
  · rename_i heq _ _ _ _
    obtain rfl := Option.some.inj h
    rw [heq] at hz
    exact Or.inr ⟨rfl, rfl, rfl, hz⟩
  · obtain ⟨path, hpath, rfl⟩ := Option.map_eq_some_iff.1 h
    obtain ⟨attempt, hmem, hpath⟩ := List.exists_of_findSome?_eq_some hpath
    refine exactAnswer_found ⟨axisAlignedDetour_spec hcs hcg hmem hpath, fun C =>
      B.gridDist_add_two_le hs hmem⟩ fun hd => ?_
    rw [saturatingAdd_eq_min (by rw [manhattan_eq_min]; omega), manhattan_eq_min]
    omega

end Exactness

end Tess
