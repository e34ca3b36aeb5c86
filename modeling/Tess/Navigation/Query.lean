import Tess.Navigation.Domain
import Tess.Ops.AsyncWork

/-!
# The navigation query

A cooperative search over a snapshot.  One step does one unit of work: the initialization, one
seed, one pop of the frontier, one candidate edge, one append of the reconstruction, one swap, one
exported label or the publication.  `advance` runs as many steps as its budget allows.

* `NavigationQuery` : the continuation;
* `NavigationQuery.step` : **one unit of work**;
* `NavigationQuery.advance` : the budgeted driver.
-/

namespace Tess

/-! ### Results -/

/-- Completed spatial outcome. -/
inductive NavigationOutcome
  | found
  | noRoute
  | indeterminate
  | invalidInput
  | overflow
  | capacityExceeded
  deriving DecidableEq, Repr

/-- Exactness of a result. -/
inductive NavigationProof
  | exactSnapshot
  | feasibleOnly
  deriving DecidableEq, Repr

/-- Checked logical capacity ceilings. -/
structure NavigationLimits where
  /-- Labels. -/
  maxNodes : ℕ := 65536
  /-- Entries of the frontier. -/
  maxFrontier : ℕ := 131072
  /-- Transitions of a route. -/
  maxRouteSteps : ℕ := 65536
  deriving DecidableEq, Repr

/-- `max_size()` of the containers of a query. -/
structure ContainerLimits where
  /-- Of the labels. -/
  labels : ℕ := 2 ^ 57
  /-- Of the frontier. -/
  frontier : ℕ := 2 ^ 57
  /-- Of the route. -/
  route : ℕ := 2 ^ 56
  deriving DecidableEq, Repr

/-- A destination with a known remaining cost. -/
structure NavigationGoal where
  /-- Destination. -/
  location : NavigationLocation := {}
  /-- Remaining cost. -/
  cost : ℕ := 0
  /-- The cost is a 64-bit value. -/
  cost_le : cost ≤ navigationInfinity := by decide
  deriving DecidableEq, Repr

/-- Guidance at one location: the forward transition toward a destination. -/
structure NavigationGuidance where
  /-- Remaining cost. -/
  cost : ℕ := 0
  /-- Next transition. -/
  next : NavigationTransition := {}
  /-- There is a next transition. -/
  hasNext : Bool := false
  deriving DecidableEq, Repr

/-- A snapshot and the address that its shared pointers compare. -/
structure SnapshotLease where
  /-- Address. -/
  address : ℕ
  /-- Snapshot. -/
  snapshot : NavigationSnapshot

/-- `NavigationResult`. -/
structure NavigationResult where
  /-- Outcome. -/
  outcome : NavigationOutcome := .invalidInput
  /-- Exactness. -/
  proof : NavigationProof := .exactSnapshot
  /-- Cost of the route. -/
  cost : ℕ := 0
  /-- Transitions of the route. -/
  route : List NavigationTransition := []
  /-- Guidance, by location. -/
  guidance : List (NavigationLocation × NavigationGuidance) := []
  /-- Retained snapshot. -/
  snapshot : Option SnapshotLease := none
  /-- Steps taken. -/
  workItems : ℕ := 0

/-- `guidance_at`. -/
def NavigationResult.guidanceAt (r : NavigationResult) (l : NavigationLocation) :
    Option NavigationGuidance := r.guidance.lookup l

/-- `current_for`. -/
def NavigationResult.currentFor (r : NavigationResult) (current : Option SnapshotLease) : Bool :=
  r.snapshot.isSome && r.snapshot.map (·.address) == current.map (·.address)

/-! ### The continuation -/

/-- Label of a location. -/
structure NavigationLabel where
  /-- Cost, or the reserved one. -/
  cost : ℕ := 0
  /-- Transition it was reached by. -/
  parent : NavigationTransition := {}
  /-- There is such a transition. -/
  hasParent : Bool := false
  /-- The label is final. -/
  settled : Bool := false
  deriving DecidableEq, Repr

/-- The labels, in the order of their locations. -/
abbrev NavigationLabels := List (NavigationLocation × NavigationLabel)

/-- `labels_[at] = label`. -/
def setLabel (labels : NavigationLabels) (l : NavigationLocation) (x : NavigationLabel) :
    NavigationLabels :=
  match labels with
  | [] => [(l, x)]
  | e :: rest =>
    if l = e.1 then (l, x) :: rest
    else if l.Before e.1 then (l, x) :: e :: rest
    else e :: setLabel rest l x

/-- Entry of the frontier. -/
structure NavigationFrontier where
  /-- Cost under which it was pushed. -/
  cost : ℕ
  /-- Location. -/
  location : NavigationLocation
  deriving DecidableEq, Repr

/-- `Greater`, the other way round: the entry is popped no later than the other. -/
def NavigationFrontier.PopsFirst (a b : NavigationFrontier) : Prop :=
  a.cost < b.cost ∨ a.cost = b.cost ∧ ¬ b.location.Before a.location

instance (a b : NavigationFrontier) : Decidable (a.PopsFirst b) :=
  inferInstanceAs (Decidable (_ ∨ _))

/-- `push_heap`: the frontier is kept in the order in which `pop_heap` takes its entries. -/
def pushFrontier (frontier : List NavigationFrontier) (x : NavigationFrontier) :
    List NavigationFrontier :=
  match frontier with
  | [] => [x]
  | y :: rest => if x.PopsFirst y then x :: y :: rest else y :: pushFrontier rest x

/-- Phase of a query. -/
inductive NavigationPhase
  | init
  | seed
  | pop
  | edges
  | reconstruct
  | reverse
  | exportLabels
  | publish
  deriving DecidableEq, Repr

/-- `NavigationQuery`. -/
structure NavigationQuery where
  /-- Snapshot. -/
  snapshot : Option SnapshotLease
  /-- Start of a route. -/
  start : NavigationLocation := {}
  /-- Goal of a route. -/
  goal : NavigationLocation := {}
  /-- Capacity ceilings. -/
  limits : NavigationLimits := {}
  /-- Ceilings of the containers. -/
  containers : ContainerLimits := {}
  /-- Seeds of the search. -/
  goals : List NavigationGoal
  /-- Guidance is asked for, and edges are followed backward. -/
  reverse : Bool := false
  /-- Lifecycle. -/
  state : AsyncResultState := .pending
  /-- Phase. -/
  phase : NavigationPhase := .init
  /-- Outcome that will be published. -/
  outcome : NavigationOutcome := .invalidInput
  /-- Result, once the query has begun. -/
  result : Option NavigationResult := none
  /-- Labels. -/
  labels : NavigationLabels := []
  /-- Labels still to be exported. -/
  exports : NavigationLabels := []
  /-- Frontier. -/
  frontier : List NavigationFrontier := []
  /-- Transitions of the route, while it is built. -/
  route : List NavigationTransition := []
  /-- Guidance, while it is built. -/
  guidance : List (NavigationLocation × NavigationGuidance) := []
  /-- Location whose candidates are probed. -/
  active : NavigationLocation := {}
  /-- Location the reconstruction has come to. -/
  reconstruction : NavigationLocation := {}
  /-- Label of the active location. -/
  activeCost : ℕ := 0
  /-- Label of the goal. -/
  routeCost : ℕ := 0
  /-- Steps taken. -/
  work : ℕ := 0
  /-- Seeds taken. -/
  seed : ℕ := 0
  /-- Candidates probed. -/
  cursor : ℕ := 0
  /-- Number of candidates. -/
  degree : ℕ := 0
  /-- Swaps done. -/
  reverseCursor : ℕ := 0
  /-- Labels that hold the reserved cost. -/
  unresolvedOverflow : ℕ := 0
  /-- Something was unavailable. -/
  unknown : Bool := false

namespace NavigationQuery

/-- The constructor of a route query. -/
def toRoute (snapshot : Option SnapshotLease) (start goal : NavigationLocation)
    (limits : NavigationLimits) : NavigationQuery where
  snapshot
  start
  goal
  limits
  goals := [⟨start, 0, Nat.zero_le _⟩]

/-- The constructors of a guidance query. -/
def toGuidance (snapshot : Option SnapshotLease) (goals : List NavigationGoal)
    (limits : NavigationLimits) : NavigationQuery where
  snapshot
  limits
  goals
  reverse := true

variable (q : NavigationQuery)

/-- `finish`. -/
def finish (outcome : NavigationOutcome) : NavigationQuery :=
  { q with outcome := outcome, phase := .publish }

/-- `push`; the flag tells whether there was room. -/
def push (l : NavigationLocation) (cost : ℕ) : NavigationQuery × Bool :=
  if q.frontier.length = q.limits.maxFrontier then (q.finish .capacityExceeded, false)
  else ({ q with frontier := pushFrontier q.frontier ⟨cost, l⟩ }, true)

/-- `legal`; the flag is its answer. -/
def legal (N : NavigationSnapshot) (l : NavigationLocation) : NavigationQuery × Bool :=
  match N.availability l with
  | .legal => (q, true)
  | .unavailable => ({ q with unknown := true }, false)
  | .blocked => (q, false)
  | .overflow => (q.finish .overflow, false)
  | .invalid => (q.finish .invalidInput, false)

/-- The outcome of a search that has not found a route. -/
def missed (q : NavigationQuery) : NavigationOutcome :=
  if q.unknown then .indeterminate else .noRoute

/-- Phase `Init`. -/
def stepInit : NavigationQuery :=
  let q := { q with result := some {} }
  match q.snapshot with
  | none => q.finish .invalidInput
  | some ⟨_, N⟩ =>
    if !N.valid || q.goals.isEmpty ||
        (!q.reverse && (!N.contains q.start || !N.contains q.goal)) then q.finish .invalidInput
    else
      let q := { q with unknown := !N.complete }
      if q.limits.maxNodes = 0 ∨ q.limits.maxFrontier = 0 ∨
          q.limits.maxFrontier > q.containers.frontier ∨
          q.limits.maxRouteSteps > q.containers.route ∨
          q.limits.maxNodes > q.containers.labels then q.finish .capacityExceeded
      else { q with phase := .seed }

/-- Phase `Seed`. -/
def stepSeed (N : NavigationSnapshot) : NavigationQuery :=
  match q.goals[q.seed]? with
  | none => { q with phase := .pop }
  | some seed =>
    let q := { q with seed := q.seed + 1 }
    if !N.contains seed.location || seed.cost = navigationInfinity then q.finish .invalidInput
    else
      let r := q.legal N seed.location
      let q := r.1
      if !r.2 then
        -- a route query has no other seed to try
        if q.phase ≠ .publish ∧ q.reverse = false then q.finish q.missed else q
      else
        let known := q.labels.lookup seed.location
        -- of two seeds at one location the cheaper one counts
        if known.any fun label => label.cost ≤ seed.cost then q
        else if known.isNone ∧ q.labels.length = q.limits.maxNodes then
          q.finish .capacityExceeded
        else
          let r := q.push seed.location seed.cost
          if !r.2 then r.1
          else { r.1 with labels := setLabel r.1.labels seed.location { cost := seed.cost } }

/-- Phase `Pop`. -/
def stepPop (N : NavigationSnapshot) : NavigationQuery :=
  match q.frontier with
  | [] =>
    -- something is reached, but at no cost below the reserved one
    if q.unresolvedOverflow ≠ 0 then q.finish .overflow
    else if q.reverse && q.labels.isEmpty then q.finish q.missed
    else if q.reverse then { q with exports := q.labels, phase := .exportLabels }
    else q.finish q.missed
  | current :: rest =>
    let q := { q with frontier := rest }
    match q.labels.lookup current.location with
    | none => q -- every entry of the frontier has a label
    | some label =>
      -- a stale entry: since it was pushed the label was lowered or settled
      if label.settled || label.cost != current.cost then q
      else
        let q := { q with
          labels := setLabel q.labels current.location { label with settled := true }
          active := current.location
          activeCost := label.cost }
        if !q.reverse && q.active = q.goal then
          { q with routeCost := label.cost, reconstruction := q.goal, phase := .reconstruct }
        else { q with cursor := 0, degree := N.degree q.active q.reverse, phase := .edges }

/-- The end of phase `Edges`: a legal edge to a legal location is offered. -/
def offer (edge : NavigationTransition) (next : NavigationLocation) : NavigationQuery :=
  let found := q.labels.lookup next
  -- the sum does not fit below the reserved cost, which is all that the label then says
  if edge.cost ≥ navigationInfinity - q.activeCost then
    if found.isSome then q
    else if q.labels.length = q.limits.maxNodes then q.finish .capacityExceeded
    else
      { q with
        labels := setLabel q.labels next { cost := navigationInfinity }
        unresolvedOverflow := q.unresolvedOverflow + 1 }
  else
    let cost := q.activeCost + edge.cost
    if found.any fun label => label.settled || label.cost ≤ cost then q
    else if found.isNone ∧ q.labels.length = q.limits.maxNodes then q.finish .capacityExceeded
    else
      let r := q.push next cost
      if !r.2 then r.1
      else
        { r.1 with
          -- the location was held, and has a cost after all
          unresolvedOverflow :=
            if found.any fun label => label.cost = navigationInfinity then
              r.1.unresolvedOverflow - 1 else r.1.unresolvedOverflow
          labels := setLabel r.1.labels next
            { cost := cost, parent := edge, hasParent := true } }

/-- The endpoint test of phase `Edges`. -/
def misplaced (N : NavigationSnapshot) (edge : NavigationTransition) : Bool :=
  (!q.reverse && edge.fromLocation != q.active) || (q.reverse && edge.toLocation != q.active) ||
    !N.contains edge.fromLocation || !N.contains edge.toLocation ||
    edge.cost == navigationInfinity

/-- Phase `Edges`. -/
def stepEdges (N : NavigationSnapshot) : NavigationQuery :=
  if q.cursor = q.degree then { q with phase := .pop }
  else
    let edge := N.edge q.active q.cursor q.reverse
    let q := { q with cursor := q.cursor + 1 }
    if q.misplaced N edge then q.finish .invalidInput
    else match edge.availability with
      | .blocked => q
      | .unavailable => { q with unknown := true }
      | .invalid => q.finish .invalidInput
      | .overflow => q.finish .overflow
      | .legal =>
        let next := if q.reverse then edge.fromLocation else edge.toLocation
        let r := q.legal N next
        if !r.2 then r.1 else r.1.offer edge next

/-- Phase `Reconstruct`. -/
def stepReconstruct : NavigationQuery :=
  if q.reconstruction = q.start then { q with reverseCursor := 0, phase := .reverse }
  else match q.labels.lookup q.reconstruction with
    | none => q -- every location of the route has a label
    | some label =>
      if !label.hasParent || q.route.length = q.limits.maxRouteSteps then
        -- the steps of a route are counted as they are walked back
        q.finish .capacityExceeded
      else
        { q with
          route := q.route ++ [label.parent]
          reconstruction := label.parent.fromLocation }

/-- `std::swap` of two places of a list. -/
def swapAt {α : Type*} (l : List α) (i j : ℕ) : List α :=
  match l[i]?, l[j]? with
  | some x, some y => (l.set i y).set j x
  | _, _ => l

/-- Phase `Reverse`. -/
def stepReverse : NavigationQuery :=
  if q.reverseCursor < q.route.length / 2 then
    { q with
      route := swapAt q.route q.reverseCursor (q.route.length - 1 - q.reverseCursor)
      reverseCursor := q.reverseCursor + 1 }
  else q.finish .found

/-- Phase `Export`. -/
def stepExport : NavigationQuery :=
  match q.exports with
  | [] => q.finish .found
  | e :: rest =>
    { q with
      exports := rest
      guidance := q.guidance ++ [(e.1, ⟨e.2.cost, e.2.parent, e.2.hasParent⟩)] }

/-- The result that phase `Publish` fills in. -/
def published (r : NavigationResult) : NavigationResult :=
  let r := { r with
    outcome := q.outcome
    proof := if q.unknown then .feasibleOnly else .exactSnapshot
    snapshot := q.snapshot
    workItems := q.work }
  -- other outcomes publish neither a route nor guidance
  if q.outcome = .found then
    { r with cost := q.routeCost, route := q.route, guidance := q.guidance }
  else r

/-- Phase `Publish`. -/
def stepPublish : NavigationQuery :=
  { q with result := q.result.map q.published, state := .ready }

/-- `step`: **one unit of work**.  After phase `Init` there is a snapshot. -/
def step : NavigationQuery :=
  match q.phase, q.snapshot with
  | .init, _ => q.stepInit
  | .seed, some ⟨_, N⟩ => q.stepSeed N
  | .pop, some ⟨_, N⟩ => q.stepPop N
  | .edges, some ⟨_, N⟩ => q.stepEdges N
  | .reconstruct, _ => q.stepReconstruct
  | .reverse, _ => q.stepReverse
  | .exportLabels, _ => q.stepExport
  | .publish, _ => q.stepPublish
  | _, none => q

/-! ### Drivers -/

/-- One round of `advance`, with the work counted in 64 bits. -/
def tick : NavigationQuery := { q with work := (q.work + 1) % 2 ^ 64 }.step

/-- The loop of `advance`: the rounds that were done, and the query after them. -/
def advanceLoop : ℕ → NavigationQuery → ℕ × NavigationQuery
  | 0, q => (0, q)
  | budget + 1, q =>
    if q.state = .pending then
      let r := advanceLoop budget q.tick
      (r.1 + 1, r.2)
    else (0, q)

/-- The state that `advance` reports. -/
def stepState : AsyncStepState :=
  match q.state with
  | .ready => .ready
  | .stale => .stale
  | .pending => .pending
  | _ => .failed

/-- `advance`. -/
def advance (budget : BitVec 32) : AsyncWorkStep × NavigationQuery :=
  let r := advanceLoop budget.toNat q
  ({ state := r.2.stepState
     itemsDone := BitVec.ofNat 32 r.1
     resultVersion := BitVec.ofNat 64 ((q.snapshot.map fun s => s.snapshot.profile).getD 0) },
    r.2)

/-- `cancel`. -/
def cancel : NavigationQuery := if q.state = .pending then { q with state := .cancelled } else q

/-- `supersede`. -/
def supersede : NavigationQuery :=
  if q.state = .pending then { q with state := .superseded } else q

/-- `require_snapshot`. -/
def requireSnapshot (current : Option SnapshotLease) : NavigationQuery :=
  if q.snapshot.map (·.address) ≠ current.map (·.address) ∧
      (q.state = .pending ∨ q.state = .ready) then { q with state := .stale } else q

/-- `result()`. -/
def readyResult : Option NavigationResult := if q.state = .ready then q.result else none

end NavigationQuery

end Tess
