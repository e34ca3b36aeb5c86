import Tess.Navigation.QueryInvariant

/-!
# What a navigation query answers

Runs of a query: advances under any budgets, cancellations, supersessions and replacements of the
snapshot, in any order.

* `QueryEvent`, `NavigationQuery.run` : the runs;
* `Standing` : what a run keeps;
* `RouteAnswer`, `GuidanceAnswer` : **what a published result says of the snapshot**;
* `routeQuery_exact`, `guidanceQuery_exact` : every published result is right.
-/

namespace Tess

open Graphs NavigationQuery

/-! ### Runs -/

/-- What the host does with a query. -/
inductive QueryEvent
  | advance (budget : BitVec 32)
  | cancel
  | supersede
  | requireSnapshot (current : Option SnapshotLease)

namespace NavigationQuery

variable (q : NavigationQuery)

/-- One event. -/
def perform : QueryEvent → NavigationQuery
  | .advance budget => (q.advance budget).2
  | .cancel => q.cancel
  | .supersede => q.supersede
  | .requireSnapshot current => q.requireSnapshot current

/-- A run of events. -/
def run (events : List QueryEvent) : NavigationQuery := events.foldl perform q

/-- What a query was asked. -/
structure Request where
  /-- Snapshot. -/
  snapshot : Option SnapshotLease
  /-- Start of a route. -/
  start : NavigationLocation
  /-- Goal of a route. -/
  goal : NavigationLocation
  /-- Capacity ceilings. -/
  limits : NavigationLimits
  /-- Seeds. -/
  goals : List NavigationGoal
  /-- Guidance is asked for. -/
  reverse : Bool

/-- The request of a query. -/
def request : Request := ⟨q.snapshot, q.start, q.goal, q.limits, q.goals, q.reverse⟩

/-- What a step leaves alone: the request, and the state until the result is published. -/
def frame : Request × AsyncResultState := (q.request, q.state)

variable {q}

@[simp] theorem frame_finish (outcome : NavigationOutcome) :
    (q.finish outcome).frame = q.frame := rfl

@[simp] theorem frame_push (l : NavigationLocation) (cost : ℕ) :
    (q.push l cost).1.frame = q.frame := by
  unfold push
  split_ifs <;> rfl

@[simp] theorem frame_legal (N : NavigationSnapshot) (l : NavigationLocation) :
    (q.legal N l).1.frame = q.frame := by
  unfold legal
  cases N.availability l <;> rfl

theorem frame_stepInit : q.stepInit.frame = q.frame := by
  unfold stepInit
  cases hs : q.snapshot with
  | none => rw [frame_finish]; simp [frame, request, hs]
  | some lease =>
    dsimp only
    split_ifs <;> simp [frame, request, finish, hs]

theorem frame_stepSeed (N : NavigationSnapshot) : (q.stepSeed N).frame = q.frame := by
  unfold stepSeed
  cases q.goals[q.seed]? with
  | none => rfl
  | some g =>
    dsimp only
    split_ifs
    · rfl
    · exact (frame_finish _).trans (frame_legal N _)
    · exact frame_legal N _
    · exact frame_legal N _
    · exact (frame_finish _).trans (frame_legal N _)
    · exact (frame_push _ _).trans (frame_legal N _)
    · exact (frame_push _ _).trans (frame_legal N _)

theorem frame_stepPop (N : NavigationSnapshot) : (q.stepPop N).frame = q.frame := by
  unfold stepPop
  cases q.frontier with
  | nil =>
    dsimp only
    split_ifs <;> rfl
  | cons x rest =>
    dsimp only
    cases q.labels.lookup x.location with
    | none => rfl
    | some y =>
      dsimp only
      split_ifs <;> rfl

theorem frame_offer (e : NavigationTransition) (v : NavigationLocation) :
    (q.offer e v).frame = q.frame := by
  unfold offer
  dsimp only
  split_ifs
  · rfl
  · rfl
  · rfl
  · rfl
  · rfl
  · exact frame_push _ _
  · exact frame_push _ _
  · exact frame_push _ _

theorem frame_stepEdges (N : NavigationSnapshot) : (q.stepEdges N).frame = q.frame := by
  unfold stepEdges
  by_cases hend : q.cursor = q.degree
  · rw [if_pos hend]
    rfl
  rw [if_neg hend]
  generalize N.edge q.active q.cursor q.reverse = e
  dsimp only
  by_cases hmis : ({ q with cursor := q.cursor + 1 }.misplaced N e) = true
  · rw [if_pos hmis]
    rfl
  rw [if_neg hmis]
  generalize (if q.reverse = true then e.fromLocation else e.toLocation) = v
  cases e.availability with
  | legal =>
    dsimp only
    split_ifs
    · exact frame_legal N v
    · exact (frame_offer e v).trans (frame_legal N v)
  | blocked => rfl
  | unavailable => rfl
  | invalid => rfl
  | overflow => rfl

theorem frame_stepReconstruct : q.stepReconstruct.frame = q.frame := by
  unfold stepReconstruct
  split_ifs
  · rfl
  · cases q.labels.lookup q.reconstruction with
    | none => rfl
    | some x =>
      dsimp only
      split_ifs <;> rfl

theorem frame_stepReverse : q.stepReverse.frame = q.frame := by
  unfold stepReverse
  split_ifs <;> rfl

theorem frame_stepExport : q.stepExport.frame = q.frame := by
  unfold stepExport
  cases q.exports <;> rfl

/-- **A step leaves the request alone**, and the state too unless it publishes. -/
theorem frame_step (h : q.phase ≠ .publish) : q.step.frame = q.frame := by
  unfold step
  cases hp : q.phase with
  | init => exact frame_stepInit
  | publish => exact absurd hp h
  | reconstruct => exact frame_stepReconstruct
  | reverse => exact frame_stepReverse
  | exportLabels => exact frame_stepExport
  | seed =>
    cases hs : q.snapshot with
    | none => rfl
    | some lease => exact frame_stepSeed lease.snapshot
  | pop =>
    cases hs : q.snapshot with
    | none => rfl
    | some lease => exact frame_stepPop lease.snapshot
  | edges =>
    cases hs : q.snapshot with
    | none => rfl
    | some lease => exact frame_stepEdges lease.snapshot

theorem step_publish (h : q.phase = .publish) : q.step = q.stepPublish := by
  unfold step
  rw [h]

/-! ### What a run keeps -/

/-- **What a run keeps**: a query is either still at work, or has published an answer to its
request, or has been called off. -/
inductive Standing (asked : Request) (q : NavigationQuery) : Prop
  | pending (hrequest : q.request = asked) (hstate : q.state = .pending) (hinv : q.QueryInv)
  | ready (hstate : q.state = .ready) (p : NavigationQuery) (hrequest : p.request = asked)
      (hresult : q.result = some (p.published {})) (hanswer : p.Answer p.outcome)
  | ended (hpending : q.state ≠ .pending) (hready : q.state ≠ .ready)

variable {asked : Request}

theorem Standing.tick (hrequest : q.request = asked) (hstate : q.state = .pending)
    (hinv : q.QueryInv) : q.tick.Standing asked := by
  set p : NavigationQuery := { q with work := (q.work + 1) % 2 ^ 64 } with hp
  have hinv' : p.QueryInv := hinv.counted _
  show p.step.Standing asked
  rcases hinv'.step with ⟨hphase, h⟩ | ⟨hphase, hresult, hanswer⟩
  · obtain ⟨h1, h2⟩ := Prod.mk.inj (frame_step hphase)
    exact .pending (h1.trans hrequest) (h2.trans hstate) h
  · rw [step_publish hphase]
    refine .ready rfl p hrequest ?_ hanswer
    show p.result.map p.published = _
    rw [hresult]
    rfl

/-- **Any budget.** -/
theorem Standing.advanceLoop (budget : ℕ) (h : q.Standing asked) :
    (NavigationQuery.advanceLoop budget q).2.Standing asked := by
  induction budget generalizing q with
  | zero => exact h
  | succ budget ih =>
    unfold NavigationQuery.advanceLoop
    split_ifs with hstate
    · cases h with
      | pending hrequest _ hinv => exact ih (.tick hrequest hstate hinv)
      | ready hready => rw [hready] at hstate; cases hstate
      | ended hpending => exact absurd hstate hpending
    · exact h

/-- **Any event.** -/
theorem Standing.perform (h : q.Standing asked) (e : QueryEvent) :
    (q.perform e).Standing asked := by
  cases e with
  | advance budget => exact h.advanceLoop budget.toNat
  | cancel =>
    show q.cancel.Standing asked
    unfold cancel
    split_ifs
    · exact .ended (by simp) (by simp)
    · exact h
  | supersede =>
    show q.supersede.Standing asked
    unfold supersede
    split_ifs
    · exact .ended (by simp) (by simp)
    · exact h
  | requireSnapshot current =>
    show (q.requireSnapshot current).Standing asked
    unfold requireSnapshot
    split_ifs
    · exact .ended (by simp) (by simp)
    · exact h

/-- **Any run.** -/
theorem Standing.run (h : q.Standing asked) (events : List QueryEvent) :
    (q.run events).Standing asked := by
  induction events generalizing q with
  | nil => exact h
  | cons e events ih => exact ih (h.perform e)

theorem standing_toRoute (lease : Option SnapshotLease) (start goal : NavigationLocation)
    (limits : NavigationLimits) : (toRoute lease start goal limits).Standing
      ⟨lease, start, goal, limits, [⟨start, 0, Nat.zero_le _⟩], false⟩ :=
  .pending rfl rfl (.init rfl (fun _ => rfl) rfl rfl rfl rfl rfl rfl)

theorem standing_toGuidance (lease : Option SnapshotLease) (goals : List NavigationGoal)
    (limits : NavigationLimits) : (toGuidance lease goals limits).Standing
      ⟨lease, {}, {}, limits, goals, true⟩ :=
  .pending rfl rfl (.init rfl (fun h => by cases h) rfl rfl rfl rfl rfl rfl)

/-- What a run has published. -/
theorem Standing.answered (h : q.Standing asked) {r : NavigationResult}
    (hr : q.readyResult = some r) : ∃ p : NavigationQuery, p.request = asked ∧
      p.Answer p.outcome ∧ r = p.published {} := by
  unfold readyResult at hr
  split_ifs at hr with hstate
  cases h with
  | pending _ hpending => rw [hpending] at hstate; cases hstate
  | ready _ p hrequest hresult hanswer =>
    exact ⟨p, hrequest, hanswer, Option.some.inj (hr.symm.trans hresult)⟩
  | ended _ hready => exact absurd hstate hready

/-- What is published of a search that found what was asked for. -/
theorem published_found (h : q.outcome = .found) : q.published {} =
    { outcome := .found
      proof := if q.unknown then .feasibleOnly else .exactSnapshot
      cost := q.routeCost
      route := q.route
      guidance := q.guidance
      snapshot := q.snapshot
      workItems := q.work } := by
  unfold published
  rw [if_pos h, h]

/-- Nothing else is published with a cost, a route or guidance. -/
theorem published_other (h : q.outcome ≠ .found) : q.published {} =
    { outcome := q.outcome
      proof := if q.unknown then .feasibleOnly else .exactSnapshot
      snapshot := q.snapshot
      workItems := q.work } := by
  unfold published
  rw [if_neg h]

theorem outcome_published : (q.published {}).outcome = q.outcome := by
  by_cases h : q.outcome = .found
  · rw [published_found h, h]
  · rw [published_other h]

/-- An exact proof is published only if nothing was unavailable. -/
theorem unknown_of_exact (h : (q.published {}).proof = .exactSnapshot) : q.unknown = false := by
  have hproof : (q.published {}).proof =
      if q.unknown = true then .feasibleOnly else .exactSnapshot := by
    by_cases hf : q.outcome = .found
    · rw [published_found hf]
    · rw [published_other hf]
  cases hk : q.unknown with
  | false => rfl
  | true => rw [hproof, hk, if_pos rfl] at h; cases h

end NavigationQuery

/-! ### Routes -/

section RouteAnswers

variable {N : NavigationSnapshot} {start goal : NavigationLocation}

/-- The only seed of a route query. -/
def startSeed (start : NavigationLocation) : List NavigationGoal := [⟨start, 0, Nat.zero_le _⟩]

/-- **What a published result says of the routes of the snapshot.** -/
def RouteAnswer (N : NavigationSnapshot) (start goal : NavigationLocation)
    (r : NavigationResult) : Prop :=
  match r.outcome with
  | .found =>
    LegalRoute N start r.route goal r.cost ∧ r.cost < navigationInfinity ∧
      (∀ es C, LegalRoute N start es goal C → r.cost ≤ C) ∧
      (r.proof = .exactSnapshot → N.complete = true ∧ ∀ l es C e, LegalRoute N start es l C →
        C < r.cost → ¬ MissingAt N false l e)
  | .noRoute => (∀ es C, ¬ LegalRoute N start es goal C) ∧ NothingMissing N (startSeed start) false
  | .indeterminate =>
    (∀ es C, ¬ LegalRoute N start es goal C) ∧ SomethingMissing N (startSeed start) false
  | .overflow =>
    (∃ l, (∃ es C, LegalRoute N start es l C) ∧
      ∀ es C, LegalRoute N start es l C → navigationInfinity ≤ C) ∨
      ¬ ProbesBounded N false
  | .invalidInput =>
    N.valid = true → N.contains start = true → N.contains goal = true → ¬ ProbesValid N false
  | .capacityExceeded => r.cost = 0 ∧ r.route = []

theorem seedOf_startSeed {v : NavigationLocation} {c : ℕ} :
    SeedOf N (startSeed start) (startSeed start).length v c ↔
      v = start ∧ c = 0 ∧ N.contains start = true ∧ N.availability start = .legal := by
  constructor
  · rintro ⟨i, hi, g, hg, rfl, rfl, hin, -, hlegal⟩
    obtain rfl : g = ⟨start, 0, Nat.zero_le _⟩ := List.mem_singleton.1 (List.mem_of_getElem? hg)
    exact ⟨rfl, rfl, hin, hlegal⟩
  · rintro ⟨rfl, rfl, hin, hlegal⟩
    exact ⟨0, Nat.zero_lt_one, _, rfl, rfl, rfl, hin, by decide, hlegal⟩

/-- **A query reaches what legal routes lead to**, at their costs. -/
theorem queryReaches_startSeed (hin : N.contains start = true) {v : NavigationLocation} {C : ℕ} :
    QueryReaches N (startSeed start) false v C ↔ ∃ es, LegalRoute N start es v C := by
  constructor
  · intro h
    obtain ⟨a, m, es, k, hs, hr, rfl⟩ := exists_routeFrom h
    obtain ⟨rfl, rfl, -, hlegal⟩ := seedOf_startSeed.1 hs
    rw [Nat.zero_add]
    exact ⟨es, hlegal, hr⟩
  · rintro ⟨es, hlegal, hr⟩
    have h := hr.reachedAt (.seed (seedOf_startSeed.2 ⟨rfl, rfl, hin, hlegal⟩))
    rwa [Nat.zero_add] at h

/-- **The answer of a route query**, read in the snapshot. -/
theorem routeAnswer_of_answer {lease : SnapshotLease} {limits : NavigationLimits}
    {p : NavigationQuery} (hasked : p.request =
      ⟨some lease, start, goal, limits, startSeed start, false⟩) (h : p.Answer p.outcome) :
    RouteAnswer lease.snapshot start goal (p.published {}) := by
  obtain ⟨hsnap, hstart, hgoal, -, hgoals, hrev⟩ := Request.mk.injEq .. ▸ hasked
  have hsame {M : NavigationSnapshot} (hb : p.Begun M) : M = lease.snapshot := by
    obtain ⟨address, hM⟩ := hb.snapshot
    rw [hsnap, Option.some.injEq] at hM
    rw [hM]
  have hin {M : NavigationSnapshot} (hb : p.Begun M) : M.contains start = true := by
    rw [← hstart]
    exact (hb.ends hrev).1
  have hnoroute {M : NavigationSnapshot} (hb : p.Begun M) (hnone : p.NoneReached M)
      (es : List NavigationTransition) (C : ℕ) : ¬ LegalRoute M start es goal C := by
    rw [NoneReached, hrev, hgoals, hgoal] at hnone
    exact fun hroute => hnone C ((queryReaches_startSeed (hin hb)).2 ⟨es, hroute⟩)
  unfold RouteAnswer
  rw [outcome_published]
  generalize ho : p.outcome = o at h
  cases h with
  | route M hb _ hroute hlt hmin hexact =>
    obtain rfl := hsame hb
    rw [hstart, hgoal] at hroute hmin
    refine ⟨?_, ?_, ?_, fun hproof => ?_⟩
    · rw [published_found ho]
      exact hroute
    · rw [published_found ho]
      exact hlt
    · rw [published_found ho]
      exact hmin
    · obtain ⟨h1, h2⟩ := hexact (unknown_of_exact hproof)
      rw [published_found ho]
      refine ⟨h1, fun l es C e hl hC => h2 l C e ?_ hC⟩
      rw [hgoals]
      exact (queryReaches_startSeed (hin hb)).2 ⟨es, hl⟩
  | guidance M hb hr => rw [hrev] at hr; cases hr
  | noRoute M hb hnone hexact =>
    obtain rfl := hsame hb
    rw [hgoals, hrev] at hexact
    exact ⟨hnoroute hb hnone, hexact⟩
  | indeterminate M hb hnone hmissing =>
    obtain rfl := hsame hb
    rw [hgoals, hrev] at hmissing
    exact ⟨hnoroute hb hnone, hmissing⟩
  | beyond M hb v hreach hall =>
    obtain rfl := hsame hb
    rw [hgoals, hrev] at hreach hall
    obtain ⟨C, hC⟩ := hreach
    obtain ⟨es, hes⟩ := (queryReaches_startSeed (hin hb)).1 hC
    exact Or.inl ⟨v, ⟨es, C, hes⟩, fun es C h =>
      hall C ((queryReaches_startSeed (hin hb)).2 ⟨es, h⟩)⟩
  | probe M hb hbad =>
    obtain rfl := hsame hb
    rw [hrev] at hbad
    exact Or.inr hbad
  | invalid hbad =>
    intro hvalid hs hg
    have hadm : p.Admissible lease.snapshot := by
      refine ⟨hvalid, by rw [hgoals]; exact List.cons_ne_nil _ _, fun _ => ?_, fun g hg => ?_⟩
      · rw [hstart, hgoal]
        exact ⟨hs, hg⟩
      · rw [hgoals] at hg
        rw [List.mem_singleton.1 hg]
        exact ⟨hs, by show 0 ≠ navigationInfinity; decide⟩
    have h := hbad lease.address lease.snapshot hsnap hadm
    rw [hrev] at h
    exact h
  | capacity =>
    rw [published_other (by rw [ho]; decide)]
    exact ⟨rfl, rfl⟩

end RouteAnswers

/-- **Every published route is right**: whatever budgets a route query is advanced under, and
whenever it is cancelled, superseded or asked for its snapshot, a result that it makes ready
answers its request. -/
theorem routeQuery_exact (lease : SnapshotLease) (start goal : NavigationLocation)
    (limits : NavigationLimits) (events : List QueryEvent) (r : NavigationResult)
    (hr : ((toRoute (some lease) start goal limits).run events).readyResult = some r) :
    RouteAnswer lease.snapshot start goal r := by
  obtain ⟨p, hasked, hanswer, rfl⟩ := ((standing_toRoute (some lease) start goal limits).run
    events).answered hr
  exact routeAnswer_of_answer hasked hanswer

/-- Three nodes with a detour. -/
def lowerFloor : NavigationDomain :=
  (NavigationGraph.make 3 [{ fromNode := 0, toNode := 1, id := 1, cost := 2 },
    { fromNode := 1, toNode := 2, id := 2, cost := 3 },
    { fromNode := 0, toNode := 2, id := 3, cost := 9 }] true).toDomain 1

/-- Two nodes. -/
def upperFloor : NavigationDomain :=
  (NavigationGraph.make 2 [{ fromNode := 0, toNode := 1, id := 1, cost := 4 }] true).toDomain 2

/-- The connection between the floors. -/
def stairs : NavigationConnection :=
  { fromLocation := ⟨1, 2⟩, toLocation := ⟨2, 0⟩, id := 1, cost := 1 }

/-- Two floors and the stairs between them. -/
def floors : NavigationSnapshot :=
  NavigationSnapshot.make [some lowerFloor, some upperFloor] [stairs] 7

theorem mirrored_floor {D : NavigationDomain} (hD : some D ∈ [some lowerFloor, some upperFloor]) :
    D.Mirrored := by
  have hD : D = lowerFloor ∨ D = upperFloor := by simpa using hD
  rcases hD with rfl | rfl
  · exact NavigationGraph.mirrored 3 _ true 1
  · exact NavigationGraph.mirrored 2 _ true 2

theorem fits_floors : floors.Fits := by
  refine NavigationSnapshot.fits_make _ _ _ fun D hD node reverse => ?_
  have hD : D = lowerFloor ∨ D = upperFloor := by simpa using hD
  rcases hD with rfl | rfl
  · exact (Nat.add_le_add_right (NavigationGraph.degree_make_le 3 _ true 1 node reverse) 1).trans
      (by decide)
  · exact (Nat.add_le_add_right (NavigationGraph.degree_make_le 2 _ true 2 node reverse) 1).trans
      (by decide)

theorem routeQuery_exact_floors : ∃ r, ((toRoute (some ⟨1, floors⟩) ⟨1, 0⟩ ⟨2, 1⟩ {}).run
    [.advance 3, .requireSnapshot (some ⟨1, floors⟩), .advance 100]).readyResult = some r ∧
      r.cost = 10 ∧ RouteAnswer floors ⟨1, 0⟩ ⟨2, 1⟩ r := by
  have h : ((toRoute (some ⟨1, floors⟩) ⟨1, 0⟩ ⟨2, 1⟩ {}).run
      [.advance 3, .requireSnapshot (some ⟨1, floors⟩), .advance 100]).readyResult.map
        (fun r => r.cost) = some 10 := by decide +kernel
  obtain ⟨r, hr, hcost⟩ := Option.map_eq_some_iff.1 h
  exact ⟨r, hr, hcost, routeQuery_exact ⟨1, floors⟩ _ _ _ _ r hr⟩

/-! ### Guidance -/

section GuidanceAnswers

variable {N : NavigationSnapshot} {goals : List NavigationGoal}

/-- A destination that can be used, and its remaining cost. -/
def Destination (N : NavigationSnapshot) (goals : List NavigationGoal) (v : NavigationLocation)
    (c : ℕ) : Prop :=
  ∃ g ∈ goals, g.location = v ∧ g.cost = c ∧ N.contains v = true ∧ c ≠ navigationInfinity ∧
    N.availability v = .legal

/-- Following the guidance from a location takes these transitions. -/
inductive LeadsAlong (G : List (NavigationLocation × NavigationGuidance)) :
    NavigationLocation → List NavigationTransition → NavigationLocation → Prop
  | arrive {v : NavigationLocation} {x : NavigationGuidance} (h : G.lookup v = some x)
      (hn : x.hasNext = false) : LeadsAlong G v [] v
  | follow {v w : NavigationLocation} {x : NavigationGuidance} {es : List NavigationTransition}
      (h : G.lookup v = some x) (hn : x.hasNext = true) (hg : LeadsAlong G x.next.toLocation es w) :
      LeadsAlong G v (x.next :: es) w

/-- **Optimal guidance**, in terms of the forward routes of the snapshot. -/
structure GuidanceOptimal (N : NavigationSnapshot) (goals : List NavigationGoal)
    (G : List (NavigationLocation × NavigationGuidance)) : Prop where
  /-- It covers the locations with a legal route to a destination. -/
  covers : ∀ v, (∃ x, G.lookup v = some x) ↔
    ∃ w c es C, Destination N goals w c ∧ LegalRoute N v es w C
  /-- No legal route to a destination costs less. -/
  least : ∀ v x, G.lookup v = some x → x.cost < navigationInfinity ∧
    ∀ w c es C, Destination N goals w c → LegalRoute N v es w C → x.cost ≤ C + c
  /-- Following it is such a route, and costs what it says. -/
  leads : ∀ v x, G.lookup v = some x → ∃ w c es C, Destination N goals w c ∧
    LegalRoute N v es w C ∧ LeadsAlong G v es w ∧ x.cost = C + c

/-- **What a published result says of the ways to the destinations.** -/
def GuidanceAnswer (N : NavigationSnapshot) (goals : List NavigationGoal)
    (r : NavigationResult) : Prop :=
  match r.outcome with
  | .found => GuidanceOptimal N goals r.guidance ∧
      (r.proof = .exactSnapshot → NothingMissing N goals true)
  | .noRoute => (∀ w c, ¬ Destination N goals w c) ∧ NothingMissing N goals true
  | .indeterminate => (∀ w c, ¬ Destination N goals w c) ∧ SomethingMissing N goals true
  | .overflow =>
    (∃ v, (∃ w c es C, Destination N goals w c ∧ LegalRoute N v es w C) ∧
      ∀ w c es C, Destination N goals w c → LegalRoute N v es w C → navigationInfinity ≤ C + c) ∨
      ¬ ProbesBounded N true
  | .invalidInput =>
    N.valid = true → goals ≠ [] → (∀ g ∈ goals, N.contains g.location = true ∧
      g.cost ≠ navigationInfinity) → ¬ ProbesValid N true
  | .capacityExceeded => r.guidance = []

theorem seedOf_iff {v : NavigationLocation} {c : ℕ} :
    SeedOf N goals goals.length v c ↔ Destination N goals v c := by
  constructor
  · rintro ⟨i, -, g, hg, h⟩
    exact ⟨g, List.mem_of_getElem? hg, h⟩
  · rintro ⟨g, hg, h⟩
    obtain ⟨i, hi⟩ := List.mem_iff_getElem?.1 hg
    exact ⟨i, (List.getElem?_eq_some_iff.1 hi).1, g, hi, h⟩

/-- **A transition followed backward** is one followed forward from the other end. -/
theorem traversed_mirror (hm : N.Mirrored) {u v : NavigationLocation} {e : NavigationTransition}
    (hu : N.availability u = .legal) (h : Traversed N true u e v) : Traversed N false v e u := by
  have hto : e.toLocation = u := h.near
  have hfrom : e.fromLocation = v := h.far
  have hmem := hm.reverse u (by rw [← hto]; exact h.ends.2) e h.mem hto h.ends.1
  rw [hfrom] at hmem
  exact ⟨hmem, hfrom, hto, h.ends, h.cost, h.edge_legal, hu⟩

theorem mirror_traversed (hm : N.Mirrored) {u v : NavigationLocation} {e : NavigationTransition}
    (hu : N.availability u = .legal) (h : Traversed N false u e v) : Traversed N true v e u := by
  have hfrom : e.fromLocation = u := h.near
  have hto : e.toLocation = v := h.far
  have hmem := hm.forward u (by rw [← hfrom]; exact h.ends.1) e h.mem hfrom h.ends.2
  rw [hto] at hmem
  exact ⟨hmem, hto, hfrom, h.ends, h.cost, h.edge_legal, hu⟩

/-- **Backward reach is forward routes to a destination.** -/
theorem queryReaches_true (hm : N.Mirrored) {v : NavigationLocation} {C : ℕ} :
    QueryReaches N goals true v C ↔
      ∃ w c es k, Destination N goals w c ∧ LegalRoute N v es w k ∧ C = k + c := by
  constructor
  -- a step of the search puts one transition in front of the route
  · intro h
    induction h with
    | @seed v c hs =>
      have hd := seedOf_iff.1 hs
      obtain ⟨-, -, -, -, -, -, hlegal⟩ := id hd
      exact ⟨v, c, [], 0, hd, ⟨hlegal, .nil v⟩, (Nat.zero_add c).symm⟩
    | step _ he ih =>
      obtain ⟨w, c, es, k, hd, ⟨hlegal, hr⟩, rfl⟩ := ih
      obtain ⟨e, ho, rfl⟩ := he
      refine ⟨w, c, e :: es, e.cost + k, hd, ⟨ho.legal, .cons (traversed_mirror hm hlegal ho) hr⟩,
        ?_⟩
      omega
  · rintro ⟨w, c, es, k, hd, ⟨hlegal, hr⟩, rfl⟩
    -- the route is rebuilt from its end, which is a seed
    induction hr with
    | nil =>
      rw [Nat.zero_add]
      exact .seed (seedOf_iff.2 hd)
    | @cons a b w e es k he _ ih =>
      have hreach := ReachedAt.step (ih hd he.legal) ⟨e, mirror_traversed hm hlegal he, rfl⟩
      rwa [show k + c + e.cost = e.cost + k + c by omega] at hreach

/-- Guidance that leads to a destination is a legal route there. -/
theorem Guides.exists_route {G : List (NavigationLocation × NavigationGuidance)} (hm : N.Mirrored)
    {v : NavigationLocation} (h : Guides N goals G v) : ∃ x w c es C, G.lookup v = some x ∧
      Destination N goals w c ∧ LegalRoute N v es w C ∧ LeadsAlong G v es w ∧ x.cost = C + c := by
  induction h with
  | @arrive v x h hn hs =>
    have hd := seedOf_iff.1 hs
    obtain ⟨-, -, -, -, -, -, hlegal⟩ := id hd
    exact ⟨x, v, x.cost, [], 0, h, hd, ⟨hlegal, .nil v⟩, .arrive h hn, (Nat.zero_add _).symm⟩
  | @follow u v x y h hn ho hu hc _ ih =>
    obtain ⟨z, w, c, es, C, hz, hd, ⟨hlegal, hr⟩, hl, hsum⟩ := ih
    obtain rfl := Option.some.inj (hu.symm.trans hz)
    have hto : x.next.toLocation = u := ho.near
    refine ⟨x, w, c, x.next :: es, x.next.cost + C, h, hd, ⟨ho.legal, ?_⟩, .follow h hn ?_, ?_⟩
    · exact .cons (traversed_mirror hm hlegal ho) hr
    · rw [hto]
      exact hl
    · omega

/-- **Exact guidance is optimal.** -/
theorem GuidanceExact.optimal (hm : N.Mirrored) {G : List (NavigationLocation × NavigationGuidance)}
    (h : GuidanceExact N goals G) : GuidanceOptimal N goals G := by
  refine ⟨fun v => ?_, fun v x hx => ?_, fun v x hx => ?_⟩
  · rw [h.covers v]
    constructor
    · rintro ⟨C, hC⟩
      obtain ⟨w, c, es, k, hd, hr, -⟩ := (queryReaches_true hm).1 hC
      exact ⟨w, c, es, k, hd, hr⟩
    · rintro ⟨w, c, es, k, hd, hr⟩
      exact ⟨k + c, (queryReaches_true hm).2 ⟨w, c, es, k, hd, hr, rfl⟩⟩
  · obtain ⟨-, hlt, hmin⟩ := h.least v x hx
    exact ⟨hlt, fun w c es C hd hr => hmin _ ((queryReaches_true hm).2 ⟨w, c, es, C, hd, hr, rfl⟩)⟩
  · obtain ⟨y, w, c, es, C, hy, hd, hr, hl, hsum⟩ := (h.guides v x hx).exists_route hm
    obtain rfl := Option.some.inj (hx.symm.trans hy)
    exact ⟨w, c, es, C, hd, hr, hl, hsum⟩

/-- Some destination is reached at no cost on the way, if there is one. -/
theorem noneReached_true {q : NavigationQuery} (hr : q.reverse = true) (hg : q.goals = goals)
    (h : q.NoneReached N) (w : NavigationLocation) (c : ℕ) : ¬ Destination N goals w c := by
  rw [NoneReached, hr, if_pos rfl, hg] at h
  exact fun hd => h w c (.seed (seedOf_iff.2 hd))

/-- **The answer of a guidance query**, read in the snapshot. -/
theorem guidanceAnswer_of_answer {lease : SnapshotLease} {limits : NavigationLimits}
    {p : NavigationQuery} (hm : lease.snapshot.Mirrored)
    (hasked : p.request = ⟨some lease, {}, {}, limits, goals, true⟩) (h : p.Answer p.outcome) :
    GuidanceAnswer lease.snapshot goals (p.published {}) := by
  obtain ⟨hsnap, -, -, -, hgoals, hrev⟩ := Request.mk.injEq .. ▸ hasked
  have hsame {M : NavigationSnapshot} (hb : p.Begun M) : M = lease.snapshot := by
    obtain ⟨address, hM⟩ := hb.snapshot
    rw [hsnap, Option.some.injEq] at hM
    rw [hM]
  unfold GuidanceAnswer
  rw [outcome_published]
  generalize ho : p.outcome = o at h
  cases h with
  | route M hb hr => rw [hrev] at hr; cases hr
  | guidance M hb _ hguidance hexact =>
    obtain rfl := hsame hb
    rw [hgoals] at hguidance hexact
    refine ⟨?_, fun hproof => hexact (unknown_of_exact hproof)⟩
    rw [published_found ho]
    exact hguidance.optimal hm
  | noRoute M hb hnone hexact =>
    obtain rfl := hsame hb
    rw [hgoals, hrev] at hexact
    exact ⟨noneReached_true hrev hgoals hnone, hexact⟩
  | indeterminate M hb hnone hmissing =>
    obtain rfl := hsame hb
    rw [hgoals, hrev] at hmissing
    exact ⟨noneReached_true hrev hgoals hnone, hmissing⟩
  | beyond M hb v hreach hall =>
    obtain rfl := hsame hb
    rw [hgoals, hrev] at hreach hall
    obtain ⟨C, hC⟩ := hreach
    obtain ⟨w, c, es, k, hd, hr, -⟩ := (queryReaches_true hm).1 hC
    exact Or.inl ⟨v, ⟨w, c, es, k, hd, hr⟩, fun w c es C hd hr =>
      hall _ ((queryReaches_true hm).2 ⟨w, c, es, C, hd, hr, rfl⟩)⟩
  | probe M hb hbad =>
    obtain rfl := hsame hb
    rw [hrev] at hbad
    exact Or.inr hbad
  | invalid hbad =>
    intro hvalid hne hin
    have hadm : p.Admissible lease.snapshot := by
      refine ⟨hvalid, by rw [hgoals]; exact hne, fun hr => ?_, by rw [hgoals]; exact hin⟩
      rw [hrev] at hr
      cases hr
    have h := hbad lease.address lease.snapshot hsnap hadm
    rw [hrev] at h
    exact h
  | capacity => rw [published_other (by rw [ho]; decide)]

end GuidanceAnswers

/-- **Every published guidance is right**, over any snapshot whose domains enumerate the same
edges in both directions. -/
theorem guidanceQuery_exact (domains : List (Option NavigationDomain))
    (connections : List NavigationConnection) (profile address : ℕ)
    (hdomains : ∀ D, some D ∈ domains → D.Mirrored)
    (hfits : (NavigationSnapshot.make domains connections profile).Fits)
    (goals : List NavigationGoal) (limits : NavigationLimits) (events : List QueryEvent)
    (r : NavigationResult)
    (hr : ((toGuidance (some ⟨address, NavigationSnapshot.make domains connections profile⟩) goals
      limits).run events).readyResult = some r) :
    GuidanceAnswer (NavigationSnapshot.make domains connections profile) goals r := by
  obtain ⟨p, hasked, hanswer, rfl⟩ := ((standing_toGuidance _ goals limits).run events).answered hr
  exact guidanceAnswer_of_answer (NavigationSnapshot.mirrored_make domains connections profile
    hdomains hfits) hasked hanswer

theorem guidanceQuery_exact_floors : ∃ r, ((toGuidance (some ⟨1, floors⟩) [⟨⟨2, 1⟩, 5, by decide⟩]
    {}).run [.advance 3, .advance 100]).readyResult = some r ∧
      r.guidance.length = 5 ∧ GuidanceAnswer floors [⟨⟨2, 1⟩, 5, by decide⟩] r := by
  have h : ((toGuidance (some ⟨1, floors⟩) [⟨⟨2, 1⟩, 5, by decide⟩] {}).run
      [.advance 3, .advance 100]).readyResult.map (fun r => r.guidance.length) = some 5 := by
    decide +kernel
  obtain ⟨r, hr, hlen⟩ := Option.map_eq_some_iff.1 h
  exact ⟨r, hr, hlen, guidanceQuery_exact [some lowerFloor, some upperFloor] [stairs] 7 1
    (fun _ hD => mirrored_floor hD) fits_floors _ _ _ r hr⟩

end Tess
