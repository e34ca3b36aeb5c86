import Tess.Path.Search
import Tess.Path.Shortcut

/-!
# The weighted search

`weighted_astar_path`: the checks of the two ends, the unit-cost shortcuts of dense orthogonal
worlds, and the heap search.

* `endpointFailure` : the checks that `astar_path` and `weighted_astar_path` share;
* `weightedShortcut` : the direct orders and detours over tiles of unit entry cost;
* `Saturates` : the inputs on which a shortcut reports a cost that 32 bits cannot hold;
* `weightedAstarPath_exact`, `not_weightedExact_of_saturates` : **the answer is exact on all
  other inputs, and on no such one**.
-/

namespace Tess

open Graphs

section Definitions

variable {S : Shape} {Tag : Type*} (W : World S Tag) (cls : MovementClass S Tag)
  (prov : Provider S Tag)

/-- The residency and passability checks of the two ends, the start first. -/
def endpointFailure (policy : MissingChunkPolicy) (request : PathRequest) : Option PathStatus :=
  if !S.contains request.start then some .invalidStart
  else if W.residency = .sparseResident ∧ !isResidentIndex W (S.tileKey request.start) then
    some (if policy = .reportIndeterminate then .indeterminate else .invalidStart)
  else if !isPassable W cls request.start then some .invalidStart
  else if !S.contains request.goal then some .invalidGoal
  else if W.residency = .sparseResident ∧ !isResidentIndex W (S.tileKey request.goal) then
    some (if policy = .reportIndeterminate then .indeterminate else .invalidGoal)
  else if !isPassable W cls request.goal then some .invalidGoal
  else none

/-- The tile is passable at unit entry cost. -/
def unitEntry (c : Coord3) : Bool :=
  isPassableIndex W cls (S.tileKey c) && tileEntryCostIndex W cls (S.tileKey c) == 1

/-- The tile that stopped a direct order cannot be entered at all. -/
def directAxisBlocked (c : Coord3) : Bool :=
  !isPassableIndex W cls (S.tileKey c) || tileEntryCostIndex W cls (S.tileKey c) == 0

/-- The unit-cost direct orders of a shape, in the order in which they are tried. -/
def unitDirectOrders (S : Shape) : List (List Axis) :=
  if S.degenerate .z then [[.x, .y, .z], [.y, .x, .z]]
  else if S.degenerate .y then [[.x, .z, .y], [.z, .x, .y]]
  else if S.degenerate .x then [[.y, .z, .x], [.z, .y, .x]]
  else [[.x, .y, .z], [.x, .z, .y], [.y, .x, .z], [.y, .z, .x], [.z, .x, .y], [.z, .y, .x]]

/-- `try_unit_direct_order`. -/
def tryUnitDirectOrder (request : PathRequest) (axes : List Axis) :
    Except (Axis × Coord3) (Coord3 × List Coord3) :=
  walkAxes (unitEntry W cls) request.goal axes request.start [request.start]

/-- Try the orders until one succeeds; the flag tells whether one was stopped by a tile that
cannot be entered. -/
def tryUnitDirectOrders (request : PathRequest) :
    List (List Axis) → Bool → Option (List Coord3) × Bool
  | [], blocked => (none, blocked)
  | axes :: orders, blocked =>
    match tryUnitDirectOrder W cls request axes with
    | .ok (_, path) => (some path, blocked)
    | .error (_, c) => tryUnitDirectOrders request orders (blocked || directAxisBlocked W cls c)

/-- **The shortcuts of `weighted_astar_path`**; `none` leaves the answer to the search, with an
empty path. -/
def weightedShortcut (request : PathRequest) : Option PathResult :=
  match tryUnitDirectOrders W cls request (unitDirectOrders S) false with
  | (some path, _) => some (shortcutFound (manhattan request.start request.goal) path)
  | (none, false) => none
  | (none, true) =>
    ((detourAttempts request).findSome? (axisAlignedDetour S (unitEntry W cls) request)).map
      (shortcutFound (saturatingAdd (manhattan request.start request.goal) 2))

/-- An answer without a path, before any search. -/
def failureResult (status : PathStatus) : PathResult :=
  { status := status, costScale := cls.stepPolicy.costScale }

/-- The shortcuts are compiled in. -/
def UsesUnitShortcuts : Prop :=
  W.IsDense ∧ prov.isAdjacentTransitions = true ∧ cls.stepPolicy = .defaultSteps ∧
    S.lattice = .orthogonal

instance : Decidable (UsesUnitShortcuts W cls prov) := inferInstanceAs (Decidable (_ ∧ _))

/-- `weighted_astar_path` with a tie-break seed. -/
def weightedAstarPath (policy : MissingChunkPolicy) (request : PathRequest) (seed : BitVec 64)
    (scratch : PathScratch) : PathResult × PathScratch :=
  let s := scratch.clear
  match endpointFailure W cls policy request with
  | some status => (failureResult cls status, s)
  | none =>
    if tileEntryCostIndex W cls (S.tileKey request.start) = 0 then
      (failureResult cls .invalidStart, s)
    else if tileEntryCostIndex W cls (S.tileKey request.goal) = 0 then
      (failureResult cls .invalidGoal, s)
    else
      match if UsesUnitShortcuts W cls prov then weightedShortcut W cls request else none with
      | some r => (r, { s with path := r.path })
      | none => heapSearch W cls prov policy request seed s

end Definitions

/-! ### The ends -/

section Ends

variable {S : Shape} {Tag : Type*} {W : World S Tag} {cls : MovementClass S Tag}
  {prov : Provider S Tag} {policy : MissingChunkPolicy} {request : PathRequest}
  {seed : BitVec 64} {scratch : PathScratch} {a b c : Coord3} {k C : ℕ}

/-- The checks pass at passable tiles only. -/
theorem endpointFailure_eq_none : endpointFailure W cls policy request = none ↔
    isPassable W cls request.start = true ∧ isPassable W cls request.goal = true := by
  unfold endpointFailure
  constructor
  · intro h
    split_ifs at h
    simp_all
  · rintro ⟨hs, hg⟩
    have hrs := resident_of_isPassable hs
    have hrg := resident_of_isPassable hg
    simp [hs, hg, hrs.contains, hrg.contains, (isResidentIndex_tileKey hrs.contains).2 hrs,
      (isResidentIndex_tileKey hrg.contains).2 hrg]

/-- The tile can be entered. -/
def enterable (W : World S Tag) (cls : MovementClass S Tag) (c : Coord3) : Bool :=
  isPassable W cls c && entryCostAt W cls c != 0

theorem enterable_iff : enterable W cls c = true ↔
    isPassable W cls c = true ∧ entryCostAt W cls c ≠ 0 := by
  simp [enterable]

theorem unitEntry_iff (hc : S.contains c = true) : unitEntry W cls c = true ↔
    isPassable W cls c = true ∧ entryCostAt W cls c = 1 := by
  simp [unitEntry, isPassableIndex_tileKey hc, tileEntryCostIndex_tileKey hc]

theorem directAxisBlocked_iff (hc : S.contains c = true) :
    directAxisBlocked W cls c = true ↔ enterable W cls c = false := by
  simp only [directAxisBlocked, isPassableIndex_tileKey hc, tileEntryCostIndex_tileKey hc,
    enterable]
  cases isPassable W cls c <;> simp

theorem LegalStep.enterable (h : LegalStep W cls prov a b k) : enterable W cls b = true :=
  enterable_iff.2 ⟨h.2.1, h.2.2.1⟩

/-- Where the shortcuts apply, a legal step is a face step that costs the entry of its
target. -/
theorem legalStep_iff_of_usesUnitShortcuts (hu : UsesUnitShortcuts W cls prov) :
    LegalStep W cls prov a b k ↔ S.contains a = true ∧ Tess.enterable W cls b = true ∧
      FaceAdjacent a b ∧ k = entryCostAt W cls b := by
  obtain ⟨-, hadj, hp, hl⟩ := hu
  have hspecial : ∀ c, ¬ SpecialStep W prov a b c := by
    rintro c ⟨candidate, hm, -⟩
    rw [prov.adjacent_forward hadj] at hm
    exact absurd hm List.not_mem_nil
  have hcost : cls.stepPolicy.costScale = 1 := by rw [hp]; rfl
  unfold LegalStep RegularStep
  rw [hp, hl, enterable_iff]
  simp only [hspecial, false_and, exists_false, or_false]
  constructor
  · rintro ⟨ha, hb, he, m, ⟨hf, rfl⟩, rfl⟩
    exact ⟨ha, ⟨hb, he⟩, hf, by rw [Nat.mul_one]⟩
  · rintro ⟨ha, ⟨hb, he⟩, hf, rfl⟩
    exact ⟨ha, hb, he, 1, ⟨hf, rfl⟩, by rw [Nat.mul_one]⟩

/-- A step over unit entry costs is legal. -/
theorem legalStep_of_unitEntry (hu : UsesUnitShortcuts W cls prov)
    (h : FaceStep S (unitEntry W cls) a b k) : LegalStep W cls prov a b k := by
  obtain ⟨ha, hb, hf, hok, rfl⟩ := h
  obtain ⟨hp, he⟩ := (unitEntry_iff hb).1 hok
  exact (legalStep_iff_of_usesUnitShortcuts hu).2 ⟨ha, enterable_iff.2 ⟨hp, by omega⟩, hf, he.symm⟩

/-- A legal route has at most as many steps as it costs. -/
theorem reaches_faceStep (hu : UsesUnitShortcuts W cls prov)
    (h : Reaches (LegalStep W cls prov) a b C) :
    ∃ n ≤ C, Reaches (FaceStep S (enterable W cls)) a b n := by
  obtain ⟨l, hl⟩ := h
  induction hl with
  | single a => exact ⟨0, le_rfl, .refl a⟩
  | @cons a d b l k C hs _ ih =>
    obtain ⟨n, hn, hr⟩ := ih
    obtain ⟨ha, hd, hf, hk⟩ := (legalStep_iff_of_usesUnitShortcuts hu).1 hs
    have hpos := hs.pos
    have hfirst : FaceStep S (enterable W cls) a d 1 := ⟨ha, hs.contains_right, hf, hd, rfl⟩
    exact ⟨0 + 1 + n, by omega, ((Reaches.refl a).tail hfirst).trans hr⟩

end Ends

/-! ### The shortcuts -/

section Shortcuts

variable {S : Shape} {Tag : Type*} {W : World S Tag} {cls : MovementClass S Tag}
  {prov : Provider S Tag} {request : PathRequest} {path : List Coord3} {c : Coord3} {C : ℕ}

theorem mem_unitDirectOrders {axes : List Axis} (h : axes ∈ unitDirectOrders S) (r : Axis) :
    r ∈ axes := by
  unfold unitDirectOrders at h
  split_ifs at h <;> simp only [List.mem_cons, List.not_mem_nil, or_false] at h <;>
    rcases h with rfl | rfl | rfl | rfl | rfl | rfl <;> cases r <;> decide

/-- A direct order is free: all its tiles have unit entry cost. -/
def DirectOrderFree (W : World S Tag) (cls : MovementClass S Tag) (request : PathRequest)
    (axes : List Axis) : Prop := ∃ c path, tryUnitDirectOrder W cls request axes = .ok (c, path)

/-- A direct order stops at a tile that cannot be entered. -/
def DirectOrderBlocked (W : World S Tag) (cls : MovementClass S Tag) (request : PathRequest)
    (axes : List Axis) : Prop := ∃ r c, tryUnitDirectOrder W cls request axes = .error (r, c) ∧
      directAxisBlocked W cls c = true

/-- What trying the orders returns. -/
theorem tryUnitDirectOrders_spec (W : World S Tag) (cls : MovementClass S Tag)
    (request : PathRequest) (orders : List (List Axis)) (blocked : Bool) :
    match tryUnitDirectOrders W cls request orders blocked with
    | (some path, _) => ∃ axes ∈ orders, ∃ c,
        tryUnitDirectOrder W cls request axes = .ok (c, path)
    | (none, blocked') => (∀ axes ∈ orders, ¬ DirectOrderFree W cls request axes) ∧
        (blocked' = true ↔ blocked = true ∨
          ∃ axes ∈ orders, DirectOrderBlocked W cls request axes) := by
  induction orders generalizing blocked with
  | nil => simp [tryUnitDirectOrders]
  | cons axes orders ih =>
    rw [tryUnitDirectOrders]
    cases htry : tryUnitDirectOrder W cls request axes with
    | ok p => exact ⟨axes, List.mem_cons_self, p.1, htry⟩
    | error e =>
      have hfree : ¬ DirectOrderFree W cls request axes := by
        rintro ⟨c, path, h⟩
        rw [htry] at h
        cases h
      have hblocked : DirectOrderBlocked W cls request axes ↔
          directAxisBlocked W cls e.2 = true := by
        constructor
        · rintro ⟨r, c, h, hc⟩
          rw [htry] at h
          cases h
          exact hc
        · exact fun h => ⟨e.1, e.2, htry, h⟩
      have := ih (blocked || directAxisBlocked W cls e.2)
      dsimp only
      split <;> rename_i heq <;> rw [heq] at this
      · obtain ⟨axes', hm, h⟩ := this
        exact ⟨axes', List.mem_cons_of_mem _ hm, h⟩
      · obtain ⟨h1, h2⟩ := this
        refine ⟨List.forall_mem_cons.2 ⟨hfree, h1⟩, h2.trans ?_⟩
        simp only [List.exists_mem_cons_iff, hblocked, Bool.or_eq_true, or_assoc]

/-- **A shortcut saturates**: the direct route, or the detour when the straight line is blocked,
runs over unit entry costs only and is at least as long as the sentinel. -/
def Saturates (W : World S Tag) (cls : MovementClass S Tag) (prov : Provider S Tag)
    (request : PathRequest) : Prop :=
  UsesUnitShortcuts W cls prov ∧
    (((∃ axes ∈ unitDirectOrders S, DirectOrderFree W cls request axes) ∧
        infiniteCost ≤ gridDist request.start request.goal) ∨
      ((∀ axes ∈ unitDirectOrders S, ¬ DirectOrderFree W cls request axes) ∧
        (∃ axes ∈ unitDirectOrders S, DirectOrderBlocked W cls request axes) ∧
        (∃ attempt ∈ detourAttempts request,
          (axisAlignedDetour S (unitEntry W cls) request attempt).isSome) ∧
        infiniteCost ≤ gridDist request.start request.goal + 2))

/-- A legal route costs at least the distance. -/
theorem gridDist_le_cost (hu : UsesUnitShortcuts W cls prov)
    (h : Reaches (LegalStep W cls prov) request.start request.goal C) :
    gridDist request.start request.goal ≤ C := by
  obtain ⟨n, hn, hr⟩ := reaches_faceStep hu h
  exact (gridDist_le_of_reaches hr).trans hn

/-- A legal route costs two more than the distance when the straight line is blocked. -/
theorem gridDist_add_two_le_cost (hu : UsesUnitShortcuts W cls prov)
    (hs : enterable W cls request.start = true) (hg : S.contains request.goal = true)
    {axes : List Axis} (hb : DirectOrderBlocked W cls request axes)
    {attempt : Axis × Axis × ℤ} (ha : attempt ∈ detourAttempts request)
    (h : Reaches (LegalStep W cls prov) request.start request.goal C) :
    gridDist request.start request.goal + 2 ≤ C := by
  obtain ⟨n, hn, hr⟩ := reaches_faceStep hu h
  obtain ⟨axis, b, htry, hblocked⟩ := hb
  obtain ⟨hbox, -, hpast⟩ := walkAxes_error htry
  obtain ⟨primary, detour, s⟩ := attempt
  obtain ⟨haligned, -, -⟩ := mem_detourAttempts ha
  have hcs := contains_of_isPassable (enterable_iff.1 hs).1
  have haxis : axis = primary := by
    by_contra hne
    have := haligned _ hne
    omega
  have hbetween : (request.start.get axis ≤ b.get axis ∧ b.get axis ≤ request.goal.get axis) ∨
      (request.goal.get axis ≤ b.get axis ∧ b.get axis ≤ request.start.get axis) := by omega
  refine le_trans (gridDist_add_two_le hr hs hbetween fun w hw hwb => ?_) hn
  obtain rfl : w = b := Coord3.ext_get fun r => by
    by_cases hrp : r = primary
    · rw [hrp, ← haxis, hwb]
    · have := haligned r hrp
      have := hw r
      have := hbox r
      omega
  exact (directAxisBlocked_iff (hbox.contains hcs hg)).1 hblocked

/-- **What a shortcut answers**: a cheapest legal route, its cost cut off at the sentinel. -/
theorem weightedShortcut_some (hu : UsesUnitShortcuts W cls prov)
    (hs : enterable W cls request.start = true) (hg : S.contains request.goal = true)
    {r : PathResult} (h : weightedShortcut W cls request = some r) :
    r.status = .found ∧ ∃ d, IsRoute (LegalStep W cls prov) r.path request.start request.goal d ∧
      (∀ C, Reaches (LegalStep W cls prov) request.start request.goal C → d ≤ C) ∧
      r.cost = min d infiniteCost ∧ (Saturates W cls prov request ↔ infiniteCost ≤ d) := by
  have hcs := contains_of_isPassable (enterable_iff.1 hs).1
  have horders := tryUnitDirectOrders_spec W cls request (unitDirectOrders S) false
  unfold weightedShortcut at h
  split at h <;> rename_i heq <;> rw [heq] at horders
  · obtain rfl := Option.some.inj h
    obtain ⟨axes, hm, c, htry⟩ := horders
    obtain ⟨rfl, l, rfl, hl⟩ := walkAxes_ok hcs hg htry
    rw [setAxes_eq fun r => Or.inl (mem_unitDirectOrders hm r)] at hl
    refine ⟨rfl, _, hl.mono fun _ _ _ => legalStep_of_unitEntry hu,
      fun C => gridDist_le_cost hu, manhattan_eq_min _ _, ?_, fun hM => ?_⟩
    · rintro ⟨-, ⟨-, hM⟩ | ⟨hfree, -⟩⟩
      · exact hM
      · exact absurd ⟨_, _, htry⟩ (hfree axes hm)
    · exact ⟨hu, Or.inl ⟨⟨axes, hm, _, _, htry⟩, hM⟩⟩
  · cases h
  · obtain ⟨hfree, hblocked⟩ := horders
    obtain ⟨axes, hm, hb⟩ := (hblocked.1 rfl).resolve_left (by simp)
    obtain ⟨path, hpath, rfl⟩ := Option.map_eq_some_iff.1 h
    obtain ⟨attempt, hma, hpath⟩ := List.exists_of_findSome?_eq_some hpath
    refine ⟨rfl, _, (axisAlignedDetour_spec hcs hg hma hpath).mono fun _ _ _ =>
      legalStep_of_unitEntry hu, fun C => gridDist_add_two_le_cost hu hs hg hb hma, ?_, ?_,
        fun hM => ?_⟩
    · change saturatingAdd (manhattan request.start request.goal) 2 = _
      rw [saturatingAdd_eq_min (by rw [manhattan_eq_min]; omega), manhattan_eq_min]
      omega
    · rintro ⟨-, ⟨⟨axes', hm', hf⟩, -⟩ | ⟨-, -, -, hM⟩⟩
      · exact absurd hf (hfree axes' hm')
      · exact hM
    · exact ⟨hu, Or.inr ⟨hfree, ⟨axes, hm, hb⟩, ⟨attempt, hma, by rw [hpath]; rfl⟩, hM⟩⟩

/-- Without an answer of the shortcuts none of them saturates. -/
theorem weightedShortcut_none (h : weightedShortcut W cls request = none) :
    ¬ Saturates W cls prov request := by
  have horders := tryUnitDirectOrders_spec W cls request (unitDirectOrders S) false
  rintro ⟨-, hsat⟩
  unfold weightedShortcut at h
  split at h <;> rename_i heq <;> rw [heq] at horders
  · cases h
  · obtain ⟨hfree, hblocked⟩ := horders
    rcases hsat with ⟨⟨axes, hm, hf⟩, -⟩ | ⟨-, ⟨axes, hm, hb⟩, -⟩
    · exact hfree axes hm hf
    · exact absurd (hblocked.2 (Or.inr ⟨axes, hm, hb⟩)) (by simp)
  · obtain ⟨hfree, -⟩ := horders
    rcases hsat with ⟨⟨axes, hm, hf⟩, -⟩ | ⟨-, -, ⟨attempt, hm, hd⟩, -⟩
    · exact hfree axes hm hf
    · rw [Option.map_eq_none_iff, List.findSome?_eq_none_iff] at h
      rw [h attempt hm] at hd
      exact absurd hd (by simp)

end Shortcuts

/-! ### The whole search -/

section Whole

variable {S : Shape} {Tag : Type*} (W : World S Tag) (cls : MovementClass S Tag)
  (prov : Provider S Tag)

/-- **An exact answer** to a request with valid ends: found exactly when some legal route costs
less than the sentinel, with a cheapest route; no path only when there is no legal route, and an
overflow only when there is none below the sentinel. -/
structure WeightedExact (request : PathRequest) (r : PathResult) : Prop where
  /-- Found exactly when a route of representable cost exists. -/
  found_iff : r.status = .found ↔
    ∃ C < infiniteCost, Reaches (LegalStep W cls prov) request.start request.goal C
  /-- A found path is a cheapest route. -/
  found : r.status = .found →
    IsRoute (LegalStep W cls prov) r.path request.start request.goal r.cost ∧
      ∀ C, Reaches (LegalStep W cls prov) request.start request.goal C → r.cost ≤ C
  /-- No path means no legal route. -/
  noPath : r.status = .noPath →
    ∀ C, ¬ Reaches (LegalStep W cls prov) request.start request.goal C
  /-- Overflow means no legal route below the sentinel. -/
  costOverflow : r.status = .costOverflow →
    ∀ C, Reaches (LegalStep W cls prov) request.start request.goal C → infiniteCost ≤ C
  /-- There is no other status. -/
  status : r.status = .found ∨ r.status = .noPath ∨ r.status = .costOverflow

variable {W cls prov} {policy : MissingChunkPolicy} {request : PathRequest} {seed : BitVec 64}
  {scratch : PathScratch}

/-- The heap search runs on a dense world from valid ends. -/
theorem weightedExact_of_searchEnds {r : PathResult × PathScratch} (hd : W.IsDense)
    (hs : S.contains request.start = true)
    (h : SearchEnds W cls prov policy request (fun st => st.costOverflow = true) r) :
    WeightedExact W cls prov request r.1 := by
  have hnot : r.1.status ≠ .found → ∀ C,
      Reaches (LegalStep W cls prov) request.start request.goal C → infiniteCost ≤ C :=
    fun hf C hC => by
      by_contra hlt
      exact hf (h.found_of_reaches hC (not_le.1 hlt))
  refine ⟨⟨fun hf => ?_, fun ⟨C, hC, hr⟩ => h.found_of_reaches hr hC⟩, fun hf => ?_,
    fun hn C hC => ?_, fun ho => hnot (by rw [ho]; decide), ?_⟩
  · obtain ⟨hroute, hlt, -⟩ := h.found hs hf
    exact ⟨_, hlt, _, hroute⟩
  · obtain ⟨hroute, -, hmin⟩ := h.found hs hf
    exact ⟨hroute, hmin⟩
  · obtain ⟨P, hP, hg, hstep, -⟩ := h.separated (fun _ => id) hn
    obtain ⟨u, v, k, -, -, -, hu, he, hv, -⟩ := hC.exists_crossing hP hg
    exact hv (hstep u v k hu he)
  · rcases h.status with h1 | h1 | h1 | ⟨-, h2, -⟩
    · exact Or.inl h1
    · exact Or.inr (Or.inl h1)
    · exact Or.inr (Or.inr h1)
    · rw [hd] at h2
      cases h2

/-- Beyond the checks of the ends, the answer is a shortcut's or the search's. -/
theorem weightedAstarPath_eq (hs : enterable W cls request.start = true)
    (hg : enterable W cls request.goal = true) :
    weightedAstarPath W cls prov policy request seed scratch =
      match if UsesUnitShortcuts W cls prov then weightedShortcut W cls request else none with
      | some r => (r, { scratch.clear with path := r.path })
      | none => heapSearch W cls prov policy request seed scratch.clear := by
  obtain ⟨hps, hes⟩ := enterable_iff.1 hs
  obtain ⟨hpg, heg⟩ := enterable_iff.1 hg
  unfold weightedAstarPath
  rw [endpointFailure_eq_none.2 ⟨hps, hpg⟩]
  simp only [tileEntryCostIndex_tileKey (contains_of_isPassable hps),
    tileEntryCostIndex_tileKey (contains_of_isPassable hpg), hes, heg, if_false]

variable (policy seed scratch) in
/-- The search that follows the checks and the shortcuts. -/
theorem heapSearch_clear_spec (hs : isPassable W cls request.start = true)
    (hg : isPassable W cls request.goal = true) :
    SearchEnds W cls prov policy request (fun st => st.costOverflow = true)
      (heapSearch W cls prov policy request seed scratch.clear) :=
  heapSearch_spec policy seed (resident_of_isPassable hs) (contains_of_isPassable hg)
    PathScratch.not_isCurrent_clear rfl rfl rfl

variable (policy seed scratch) in
/-- **The answer is exact** unless a shortcut saturates. -/
theorem weightedAstarPath_exact (hd : W.IsDense) (hs : enterable W cls request.start = true)
    (hg : enterable W cls request.goal = true) (hsat : ¬ Saturates W cls prov request) :
    WeightedExact W cls prov request
      (weightedAstarPath W cls prov policy request seed scratch).1 := by
  have hps := (enterable_iff.1 hs).1
  have hpg := (enterable_iff.1 hg).1
  rw [weightedAstarPath_eq hs hg]
  split
  · rename_i r heq
    split_ifs at heq with hu
    obtain ⟨hf, d, hroute, hmin, hcost, hiff⟩ :=
      weightedShortcut_some hu hs (contains_of_isPassable hpg) heq
    have hdM : d < infiniteCost := not_le.1 fun h => hsat (hiff.2 h)
    have hcost : r.cost = d := by omega
    refine ⟨⟨fun _ => ⟨d, hdM, _, hroute⟩, fun _ => hf⟩, fun _ => hcost ▸ ⟨hroute, hmin⟩,
      fun h => ?_, fun h => ?_, Or.inl hf⟩
    · rw [hf] at h; cases h
    · rw [hf] at h; cases h
  · exact weightedExact_of_searchEnds hd (contains_of_isPassable hps)
      (heapSearch_clear_spec policy seed scratch hps hpg)

theorem endpointFailure_ne {status : PathStatus}
    (h : endpointFailure W cls policy request = some status) :
    status ≠ .noPath ∧ status ≠ .found := by
  unfold endpointFailure at h
  split_ifs at h <;> simp only [Option.some.injEq] at h <;> subst h <;> simp

/-- **What a found path is**: a cheapest legal route between ends that can be entered, whose
cost is reported up to the sentinel; it reaches the sentinel only where a shortcut saturates. -/
theorem weightedAstarPath_found_cost
    (hf : (weightedAstarPath W cls prov policy request seed scratch).1.status = .found) :
    enterable W cls request.start = true ∧ enterable W cls request.goal = true ∧ ∃ d,
      IsRoute (LegalStep W cls prov)
        (weightedAstarPath W cls prov policy request seed scratch).1.path request.start
        request.goal d ∧
      (∀ C, Reaches (LegalStep W cls prov) request.start request.goal C → d ≤ C) ∧
      (weightedAstarPath W cls prov policy request seed scratch).1.cost = min d infiniteCost ∧
      (infiniteCost ≤ d → Saturates W cls prov request) := by
  unfold weightedAstarPath at hf ⊢
  cases hends : endpointFailure W cls policy request with
  | some status =>
    rw [hends] at hf
    exact absurd hf (endpointFailure_ne hends).2
  | none =>
    obtain ⟨hs, hg⟩ := endpointFailure_eq_none.1 hends
    rw [hends] at hf
    simp only at hf ⊢
    by_cases h1 : tileEntryCostIndex W cls (S.tileKey request.start) = 0
    · rw [if_pos h1] at hf
      cases hf
    by_cases h2 : tileEntryCostIndex W cls (S.tileKey request.goal) = 0
    · rw [if_neg h1, if_pos h2] at hf
      cases hf
    rw [if_neg h1, if_neg h2] at hf ⊢
    rw [tileEntryCostIndex_tileKey (contains_of_isPassable hs)] at h1
    rw [tileEntryCostIndex_tileKey (contains_of_isPassable hg)] at h2
    refine ⟨enterable_iff.2 ⟨hs, h1⟩, enterable_iff.2 ⟨hg, h2⟩, ?_⟩
    split at hf <;> rename_i heq
    · split_ifs at heq with hu
      obtain ⟨-, d, hroute, hmin, hcost, hiff⟩ :=
        weightedShortcut_some hu (enterable_iff.2 ⟨hs, h1⟩) (contains_of_isPassable hg) heq
      exact ⟨d, hroute, hmin, hcost, hiff.2⟩
    · obtain ⟨hroute, hlt, hmin⟩ :=
        (heapSearch_clear_spec policy seed scratch hs hg).found (contains_of_isPassable hs) hf
      exact ⟨_, hroute, hmin, (min_eq_left hlt.le).symm, fun h => absurd h (not_le.2 hlt)⟩

/-- **A path that was found** is a cheapest legal route from a passable start, whatever cost is
reported for it. -/
theorem weightedAstarPath_found
    (hf : (weightedAstarPath W cls prov policy request seed scratch).1.status = .found) :
    isPassable W cls request.start = true ∧ ∃ d,
      IsRoute (LegalStep W cls prov)
        (weightedAstarPath W cls prov policy request seed scratch).1.path request.start
        request.goal d ∧
      ∀ C, Reaches (LegalStep W cls prov) request.start request.goal C → d ≤ C := by
  obtain ⟨hs, -, d, hroute, hmin, -⟩ := weightedAstarPath_found_cost hf
  exact ⟨(enterable_iff.1 hs).1, d, hroute, hmin⟩

variable (policy seed scratch) in
/-- Between ends that can be entered a dense world leaves three outcomes. -/
theorem weightedAstarPath_status (hd : W.IsDense) (hs : enterable W cls request.start = true)
    (hg : enterable W cls request.goal = true) :
    let status := (weightedAstarPath W cls prov policy request seed scratch).1.status
    status = .found ∨ status = .noPath ∨ status = .costOverflow := by
  have hps := (enterable_iff.1 hs).1
  have hpg := (enterable_iff.1 hg).1
  rw [weightedAstarPath_eq hs hg]
  split
  · rename_i r heq
    split_ifs at heq with hu
    exact Or.inl (weightedShortcut_some hu hs (contains_of_isPassable hpg) heq).1
  · rcases (heapSearch_clear_spec policy seed scratch hps hpg).status with h | h | h | ⟨-, h, -⟩
    · exact Or.inl h
    · exact Or.inr (Or.inl h)
    · exact Or.inr (Or.inr h)
    · rw [hd] at h
      cases h

/-- A shortcut saturates only where every route reaches the sentinel. -/
theorem Saturates.le_cost (hsat : Saturates W cls prov request)
    (hs : enterable W cls request.start = true) (hg : S.contains request.goal = true) {C : ℕ}
    (h : Reaches (LegalStep W cls prov) request.start request.goal C) : infiniteCost ≤ C := by
  obtain ⟨hu, ⟨-, hM⟩ | ⟨-, ⟨axes, hm, hb⟩, ⟨attempt, ha, -⟩, hM⟩⟩ := hsat
  · exact hM.trans (gridDist_le_cost hu h)
  · exact hM.trans (gridDist_add_two_le_cost hu hs hg hb ha h)

variable (policy seed scratch) in
/-- A route below the sentinel is found, at no greater cost. -/
theorem weightedAstarPath_of_reaches (hd : W.IsDense) (hs : enterable W cls request.start = true)
    (hg : enterable W cls request.goal = true) {C : ℕ}
    (h : Reaches (LegalStep W cls prov) request.start request.goal C) (hC : C < infiniteCost) :
    (weightedAstarPath W cls prov policy request seed scratch).1.status = .found ∧
      (weightedAstarPath W cls prov policy request seed scratch).1.cost ≤ C := by
  have hsat : ¬ Saturates W cls prov request := fun hsat =>
    absurd (hsat.le_cost hs (contains_of_isPassable (enterable_iff.1 hg).1) h) (not_le.2 hC)
  have hex := weightedAstarPath_exact policy seed scratch hd hs hg hsat
  have hf := hex.found_iff.2 ⟨C, hC, h⟩
  exact ⟨hf, (hex.found hf).2 C h⟩

/-- **A saturated shortcut answers wrongly**: it reports a route although every legal route
reaches the sentinel. -/
theorem not_weightedExact_of_saturates (hs : enterable W cls request.start = true)
    (hg : enterable W cls request.goal = true) (hsat : Saturates W cls prov request) :
    ¬ WeightedExact W cls prov request
      (weightedAstarPath W cls prov policy request seed scratch).1 := by
  have hu := hsat.1
  rw [weightedAstarPath_eq hs hg, if_pos hu]
  intro hex
  cases heq : weightedShortcut W cls request with
  | none => exact weightedShortcut_none heq hsat
  | some r =>
    rw [heq] at hex
    obtain ⟨hf, d, -, hmin, -, hiff⟩ := weightedShortcut_some hu hs
      (contains_of_isPassable (enterable_iff.1 hg).1) heq
    obtain ⟨C, hC, hr⟩ := hex.found_iff.1 hf
    have := hmin C hr
    have := hiff.1 hsat
    omega

/-- **The weighted search is exact exactly when no shortcut saturates.** -/
theorem weightedAstarPath_exact_iff (hd : W.IsDense)
    (hs : isPassable W cls request.start = true) (hse : entryCostAt W cls request.start ≠ 0)
    (hg : isPassable W cls request.goal = true) (hge : entryCostAt W cls request.goal ≠ 0) :
    WeightedExact W cls prov request
        (weightedAstarPath W cls prov policy request seed scratch).1 ↔
      ¬ Saturates W cls prov request := by
  have hs' := enterable_iff.2 ⟨hs, hse⟩
  have hg' := enterable_iff.2 ⟨hg, hge⟩
  constructor
  · exact fun hex hsat => not_weightedExact_of_saturates hs' hg' hsat hex
  · exact weightedAstarPath_exact policy seed scratch hd hs' hg'

end Whole

/-! ### Two open worlds -/

/-- Two by two tiles in one chunk. -/
def square : Shape where
  size := ⟨2, 2, 1⟩
  chunk := ⟨2, 2, 1⟩
  lattice := .orthogonal
  size_valid := by decide
  chunk_pow := by decide
  divisible := by decide
  lattice_valid := by decide
  chunk_count_fits := by decide
  local_count_fits := by decide
  axis_fits := by decide

/-- Passable tiles at unit cost. -/
def squareClass : MovementClass square Unit := .unitCostField (by decide) ()

/-- From one corner of the square to the opposite one. -/
def squareRequest : PathRequest where
  start := ⟨0, 0, 0⟩
  goal := ⟨1, 1, 0⟩

theorem weightedAstarPath_exact_iff_square :
    WeightedExact (openWorld square) squareClass (adjacentTransitions square Unit) squareRequest
        (weightedAstarPath (openWorld square) squareClass (adjacentTransitions square Unit)
          .assumeImpassable squareRequest 7 {}).1 ↔
      ¬ Saturates (openWorld square) squareClass (adjacentTransitions square Unit)
        squareRequest :=
  weightedAstarPath_exact_iff rfl (by decide) (by decide) (by decide) (by decide)

/-- One line of 2^32 tiles in one chunk. -/
def corridor : Shape where
  size := ⟨2 ^ 32, 1, 1⟩
  chunk := ⟨2 ^ 32, 1, 1⟩
  lattice := .orthogonal
  size_valid := by decide
  chunk_pow := by decide
  divisible := by decide
  lattice_valid := by decide
  chunk_count_fits := by decide
  local_count_fits := by decide
  axis_fits := by decide

theorem corridor_tileKeyBits : corridor.tileKeyBits ≤ 64 := by
  have h : corridor.tileKeyBits = bitsForCount 1 + bitsForCount (2 ^ 32) := rfl
  rw [h, bitsForCount_two_pow]
  decide

/-- Passable tiles at unit cost. -/
def corridorClass : MovementClass corridor Unit :=
  .unitCostField corridor_tileKeyBits ()

/-- From one end of the corridor to the other. -/
def corridorRequest : PathRequest where
  start := ⟨0, 0, 0⟩
  goal := ⟨2 ^ 32 - 1, 0, 0⟩

/-- The direct route through the open corridor is as long as the sentinel. -/
theorem saturates_openCorridor :
    Saturates (openWorld corridor) corridorClass (adjacentTransitions corridor Unit) corridorRequest := by
  refine ⟨⟨rfl, rfl, rfl, rfl⟩, Or.inl ⟨⟨[.x, .y, .z], by decide, ?_⟩, by decide⟩⟩
  cases h : tryUnitDirectOrder (openWorld corridor) corridorClass corridorRequest [.x, .y, .z] with
  | ok p => exact ⟨p.1, p.2, h⟩
  | error e =>
    obtain ⟨hbox, hok, -⟩ := walkAxes_error h
    have hc := hbox.contains (S := corridor) (by decide) (by decide)
    have hfree : unitEntry (openWorld corridor) corridorClass e.2 = true :=
      (unitEntry_iff hc).2 (enter_openWorld hc)
    rw [hfree] at hok
    cases hok

/-- Through the open corridor the search reports a cost it cannot have. -/
theorem not_weightedExact_corridor :
    ¬ WeightedExact (openWorld corridor) corridorClass (adjacentTransitions corridor Unit)
      corridorRequest
      (weightedAstarPath (openWorld corridor) corridorClass (adjacentTransitions corridor Unit)
        .assumeImpassable corridorRequest 0 {}).1 := by
  have henter : ∀ c, corridor.contains c = true →
      enterable (openWorld corridor) corridorClass c = true := fun c hc =>
    enterable_iff.2 ((enter_openWorld hc).imp_right fun h => by rw [corridorClass, h]; decide)
  exact not_weightedExact_of_saturates (henter _ (by decide)) (henter _ (by decide))
    saturates_openCorridor

end Tess
