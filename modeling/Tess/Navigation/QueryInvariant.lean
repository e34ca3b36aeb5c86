import Tess.Navigation.QuerySearch

/-!
# The invariant of a navigation query

* `RouteFrom`, `LegalRoute` : chains of legal transitions;
* `Guides`, `GuidanceExact` : what guidance leads to;
* `NavigationQuery.Answer` : what each outcome says of the snapshot;
* `NavigationQuery.QueryInv` : **the invariant of a query over its phases**;
* `QueryInv.step` : one unit of work keeps it until there is an answer.
-/

namespace Tess

open Graphs

/-! ### Routes -/

/-- A chain of transitions that a forward search follows. -/
inductive RouteFrom (N : NavigationSnapshot) :
    NavigationLocation → List NavigationTransition → NavigationLocation → ℕ → Prop
  | nil (a : NavigationLocation) : RouteFrom N a [] a 0
  | cons {a b c : NavigationLocation} {e : NavigationTransition} {es : List NavigationTransition}
      {k : ℕ} (h : Traversed N false a e b) (h' : RouteFrom N b es c k) :
      RouteFrom N a (e :: es) c (e.cost + k)

/-- **A legal route**: its start is legal, and so is every location it comes to. -/
def LegalRoute (N : NavigationSnapshot) (a : NavigationLocation) (es : List NavigationTransition)
    (b : NavigationLocation) (C : ℕ) : Prop := N.availability a = .legal ∧ RouteFrom N a es b C

section Routes

variable {N : NavigationSnapshot} {a b c : NavigationLocation} {e : NavigationTransition}
  {es : List NavigationTransition} {k C : ℕ} {seeds : NavigationLocation → ℕ → Prop}

theorem RouteFrom.snoc (h : RouteFrom N a es b C) (he : Traversed N false b e c) :
    RouteFrom N a (es ++ [e]) c (C + e.cost) := by
  induction h with
  | nil => simpa using RouteFrom.cons he (.nil c)
  | cons h' _ ih =>
    rw [Nat.add_assoc]
    exact .cons h' (ih he)

theorem RouteFrom.reachedAt (h : RouteFrom N a es b C) {m : ℕ}
    (ha : ReachedAt seeds (Follows N false) a m) : ReachedAt seeds (Follows N false) b (m + C) := by
  induction h generalizing m with
  | nil => exact ha
  | cons he _ ih =>
    rw [← Nat.add_assoc]
    exact ih (.step ha ⟨_, he, rfl⟩)

/-- A location that is reached forward is the end of a route. -/
theorem exists_routeFrom (h : ReachedAt seeds (Follows N false) b C) :
    ∃ a m es k, seeds a m ∧ RouteFrom N a es b k ∧ C = m + k := by
  induction h with
  | @seed v c hs => exact ⟨v, c, [], 0, hs, .nil v, rfl⟩
  | step _ he ih =>
    obtain ⟨a, m, es, k, hs, hr, rfl⟩ := ih
    obtain ⟨e, ho, rfl⟩ := he
    exact ⟨a, m, es ++ [e], k + e.cost, hs, hr.snoc ho, Nat.add_assoc ..⟩

end Routes

/-! ### Answers -/

section Answers

variable (N : NavigationSnapshot) (goals : List NavigationGoal)

/-- The costs at which a query reaches a location. -/
def QueryReaches (reverse : Bool) (v : NavigationLocation) (C : ℕ) : Prop :=
  ReachedAt (SeedOf N goals goals.length) (Follows N reverse) v C

variable {N goals} in
/-- What is reached is in the snapshot. -/
theorem QueryReaches.contains {reverse : Bool} {v : NavigationLocation} {C : ℕ}
    (h : QueryReaches N goals reverse v C) : N.contains v = true := by
  cases h with
  | seed hs =>
    obtain ⟨i, -, g, -, -, -, hin, -⟩ := hs
    exact hin
  | step _ he =>
    obtain ⟨e, ho, -⟩ := he
    have hends := ho.ends
    rw [← ho.far, farEnd]
    split_ifs
    · exact hends.1
    · exact hends.2

/-- Nothing that the query could meet is unavailable. -/
structure NothingMissing (reverse : Bool) : Prop where
  /-- The snapshot is complete. -/
  complete : N.complete = true
  /-- Every seed is available. -/
  seeds : ∀ g ∈ goals, N.availability g.location ≠ .unavailable
  /-- So is everything next to a location that is reached. -/
  edges : ∀ u C e, QueryReaches N goals reverse u C → ¬ MissingAt N reverse u e

/-- Something that the query met is unavailable. -/
def SomethingMissing (reverse : Bool) : Prop :=
  N.complete = false ∨ (∃ g ∈ goals, N.availability g.location = .unavailable) ∨
    ∃ u C e, QueryReaches N goals reverse u C ∧ MissingAt N reverse u e

/-- Following the guidance from a location leads to a destination, and the costs add up. -/
inductive Guides (G : List (NavigationLocation × NavigationGuidance)) : NavigationLocation → Prop
  | arrive {v : NavigationLocation} {x : NavigationGuidance} (h : G.lookup v = some x)
      (hn : x.hasNext = false) (hs : SeedOf N goals goals.length v x.cost) : Guides G v
  | follow {u v : NavigationLocation} {x y : NavigationGuidance} (h : G.lookup v = some x)
      (hn : x.hasNext = true) (ho : Traversed N true u x.next v) (hu : G.lookup u = some y)
      (hc : x.cost = y.cost + x.next.cost) (hg : Guides G u) : Guides G v

/-- **Exact guidance.** -/
structure GuidanceExact (G : List (NavigationLocation × NavigationGuidance)) : Prop where
  /-- It covers the locations that are reached. -/
  covers : ∀ v, (∃ x, G.lookup v = some x) ↔ ∃ C, QueryReaches N goals true v C
  /-- Its costs are least. -/
  least : ∀ v x, G.lookup v = some x → QueryReaches N goals true v x.cost ∧
    x.cost < navigationInfinity ∧ ∀ C, QueryReaches N goals true v C → x.cost ≤ C
  /-- It leads to a destination. -/
  guides : ∀ v x, G.lookup v = some x → Guides N goals G v

/-- No probe of the snapshot is invalid, and the edges are where they are looked up. -/
structure ProbesValid (reverse : Bool) : Prop where
  /-- Locations. -/
  locations : ∀ l, N.contains l = true → N.availability l ≠ .invalid
  /-- Edges. -/
  edges : ∀ l, N.contains l = true → ∀ e ∈ N.candidates l reverse,
    nearEnd reverse e = l ∧ N.contains e.fromLocation = true ∧ N.contains e.toLocation = true ∧
      e.cost ≠ navigationInfinity ∧ e.availability ≠ .invalid

/-- No probe of the snapshot overflows. -/
structure ProbesBounded (reverse : Bool) : Prop where
  /-- Locations. -/
  locations : ∀ l, N.contains l = true → N.availability l ≠ .overflow
  /-- Edges. -/
  edges : ∀ l, N.contains l = true → ∀ e ∈ N.candidates l reverse, e.availability ≠ .overflow

end Answers

namespace NavigationQuery

variable (q : NavigationQuery)

/-- The query runs on the snapshot, and its inputs were accepted. -/
structure Begun (N : NavigationSnapshot) : Prop where
  /-- Its snapshot. -/
  snapshot : ∃ address, q.snapshot = some ⟨address, N⟩
  /-- The snapshot is valid. -/
  valid : N.valid = true
  /-- There is a seed. -/
  goals : q.goals ≠ []
  /-- The ends of a route are in the snapshot. -/
  ends : q.reverse = false → N.contains q.start = true ∧ N.contains q.goal = true
  /-- The result is still empty. -/
  result : q.result = some {}

/-- A route query has one seed, its start. -/
def Configured : Prop := q.reverse = false → q.goals = [⟨q.start, 0, Nat.zero_le _⟩]

/-- The inputs of the query can be used. -/
def Admissible (N : NavigationSnapshot) : Prop :=
  N.valid = true ∧ q.goals ≠ [] ∧
    (q.reverse = false → N.contains q.start = true ∧ N.contains q.goal = true) ∧
    (∀ g ∈ q.goals, N.contains g.location = true ∧ g.cost ≠ navigationInfinity)

/-- One of the ceilings of the query was reached. -/
def CeilingReached : Prop :=
  q.labels.length = q.limits.maxNodes ∨ q.frontier.length = q.limits.maxFrontier ∨
    q.route.length = q.limits.maxRouteSteps ∨ q.limits.maxNodes = 0 ∨ q.limits.maxFrontier = 0 ∨
    q.limits.maxFrontier > q.containers.frontier ∨ q.limits.maxRouteSteps > q.containers.route ∨
    q.limits.maxNodes > q.containers.labels

/-- The query reaches nothing that was asked for. -/
def NoneReached (N : NavigationSnapshot) : Prop :=
  if q.reverse then ∀ v C, ¬ QueryReaches N q.goals true v C
  else ∀ C, ¬ QueryReaches N q.goals false q.goal C

/-- **What each outcome says** of the snapshot. -/
inductive Answer : NavigationOutcome → Prop
  | route (N : NavigationSnapshot) (hb : q.Begun N) (hr : q.reverse = false)
      (h : LegalRoute N q.start q.route q.goal q.routeCost)
      (hlt : q.routeCost < navigationInfinity)
      (hmin : ∀ es C, LegalRoute N q.start es q.goal C → q.routeCost ≤ C)
      (hexact : q.unknown = false → N.complete = true ∧
        ∀ u C e, QueryReaches N q.goals false u C → C < q.routeCost → ¬ MissingAt N false u e) :
      Answer .found
  | guidance (N : NavigationSnapshot) (hb : q.Begun N) (hr : q.reverse = true)
      (h : GuidanceExact N q.goals q.guidance)
      (hexact : q.unknown = false → NothingMissing N q.goals true) : Answer .found
  | noRoute (N : NavigationSnapshot) (hb : q.Begun N) (h : q.NoneReached N)
      (hexact : NothingMissing N q.goals q.reverse) : Answer .noRoute
  | indeterminate (N : NavigationSnapshot) (hb : q.Begun N) (h : q.NoneReached N)
      (hmissing : SomethingMissing N q.goals q.reverse) : Answer .indeterminate
  | beyond (N : NavigationSnapshot) (hb : q.Begun N) (v : NavigationLocation)
      (h : ∃ C, QueryReaches N q.goals q.reverse v C)
      (hall : ∀ C, QueryReaches N q.goals q.reverse v C → navigationInfinity ≤ C) :
      Answer .overflow
  | probe (N : NavigationSnapshot) (hb : q.Begun N) (h : ¬ ProbesBounded N q.reverse) :
      Answer .overflow
  | invalid (h : ∀ address N, q.snapshot = some ⟨address, N⟩ → q.Admissible N →
      ¬ ProbesValid N q.reverse) : Answer .invalidInput
  | capacity (h : q.CeilingReached) : Answer .capacityExceeded

/-! ### Phases -/

/-- What holds while labels are set. -/
structure Searching (N : NavigationSnapshot) (probing : Bool) : Prop where
  /-- The inputs were accepted. -/
  begun : q.Begun N
  /-- The seeds of a route query. -/
  configured : q.Configured
  /-- The search. -/
  search : q.SearchInv N probing
  /-- No route yet. -/
  route : q.route = []
  /-- No guidance yet. -/
  guidance : q.guidance = []
  /-- The goal of a route is open. -/
  open_goal : q.reverse = false → ¬ q.view.settled q.goal

/-- What is known when the goal of a route has been settled. -/
structure Settled (N : NavigationSnapshot) : Prop where
  /-- The inputs were accepted. -/
  begun : q.Begun N
  /-- The query asks for a route. -/
  forward : q.reverse = false
  /-- The start is the seed. -/
  seeded : SeedOf N q.goals q.goals.length q.start 0
  /-- The label of the goal is below the reserved cost. -/
  lt : q.routeCost < navigationInfinity
  /-- It is least. -/
  least : ∀ C, QueryReaches N q.goals false q.goal C → q.routeCost ≤ C
  /-- Nothing before it is unavailable. -/
  exact : q.unknown = false → N.complete = true ∧
    ∀ u C e, QueryReaches N q.goals false u C → C < q.routeCost → ¬ MissingAt N false u e
  /-- No guidance. -/
  guidance : q.guidance = []

/-- Which places of a list have been swapped with their mirror places. -/
def PartlyReversed {α : Type*} (R l : List α) (n : ℕ) : Prop :=
  l.length = R.length ∧ ∀ i < R.length,
    l[i]? = if i < n ∨ R.length - 1 - i < n then R[R.length - 1 - i]? else R[i]?

/-- The guidance that a label is exported as. -/
def guidanceOf (x : NavigationLabel) : NavigationGuidance := ⟨x.cost, x.parent, x.hasParent⟩

/-- **The invariant of a query**, phase by phase. -/
inductive QueryInv : Prop
  | init (hphase : q.phase = .init) (hconf : q.Configured) (hl : q.labels = [])
      (hf : q.frontier = []) (hr : q.route = []) (hg : q.guidance = [])
      (hu : q.unresolvedOverflow = 0) (hs : q.seed = 0)
  | seed (N : NavigationSnapshot) (hphase : q.phase = .seed) (hsearch : q.Searching N false)
      (hnone : ∀ v, ¬ q.view.settled v) (hu : q.unresolvedOverflow = 0)
  | pop (N : NavigationSnapshot) (hphase : q.phase = .pop) (hsearch : q.Searching N false)
      (hseeds : q.goals.length ≤ q.seed)
  | edges (N : NavigationSnapshot) (hphase : q.phase = .edges) (hsearch : q.Searching N true)
      (hseeds : q.goals.length ≤ q.seed) (hactive : SearchInv.Active N q)
      (hcursor : q.cursor ≤ q.degree)
  | reconstruct (N : NavigationSnapshot) (hphase : q.phase = .reconstruct)
      (hsettled : q.Settled N) (m k : ℕ) (hm : q.view.cost q.reconstruction = some m)
      (hlt : m < navigationInfinity)
      (htraced : q.view.Traced (SeedOf N q.goals q.goals.length) (Follows N false)
        q.reconstruction)
      (hparents : ∀ v x, q.labels.lookup v = some x → x.hasParent = true →
        Traversed N false x.parent.fromLocation x.parent v)
      (hseeds : ∀ v c, SeedOf N q.goals q.goals.length v c → v = q.start ∧ c = 0)
      (hroute : RouteFrom N q.reconstruction q.route.reverse q.goal k)
      (hsum : q.routeCost = m + k) (hroom : q.route.length ≤ q.limits.maxRouteSteps)
  | reverse (N : NavigationSnapshot) (hphase : q.phase = .reverse) (hsettled : q.Settled N)
      (R : List NavigationTransition) (hroute : RouteFrom N q.start R.reverse q.goal q.routeCost)
      (hrev : PartlyReversed R q.route q.reverseCursor)
  | exportLabels (N : NavigationSnapshot) (hphase : q.phase = .exportLabels)
      (hbegun : q.Begun N) (hr : q.reverse = true)
      (hexact : q.unknown = false → NothingMissing N q.goals true)
      (hall : GuidanceExact N q.goals (q.labels.map fun e => (e.1, guidanceOf e.2)))
      (hsplit : q.guidance ++ q.exports.map (fun e => (e.1, guidanceOf e.2)) =
        q.labels.map fun e => (e.1, guidanceOf e.2))
  | publish (hphase : q.phase = .publish) (hresult : q.result = some {})
      (hanswer : q.Answer q.outcome)

variable {q} {N : NavigationSnapshot}

/-- Ending with an outcome that its answer supports. -/
theorem QueryInv.finish {outcome : NavigationOutcome} (hresult : q.result = some {})
    (h : (q.finish outcome).Answer outcome) : (q.finish outcome).QueryInv :=
  .publish rfl hresult h

theorem Admissible.congr {q' : NavigationQuery} (h : q.Admissible N) (hg : q'.goals = q.goals)
    (hr : q'.reverse = q.reverse) (hs : q'.start = q.start) (ht : q'.goal = q.goal) :
    q'.Admissible N := by
  unfold Admissible
  rw [hg, hr, hs, ht]
  exact h

/-! ### Initialization -/

theorem QueryInv.stepInit (hconf : q.Configured) (hl : q.labels = []) (hf : q.frontier = [])
    (hr : q.route = []) (hg : q.guidance = []) (hu : q.unresolvedOverflow = 0) (hs : q.seed = 0) :
    q.stepInit.QueryInv := by
  unfold NavigationQuery.stepInit
  cases hsnap : q.snapshot with
  | none =>
    refine QueryInv.finish rfl (.invalid fun address N h => ?_)
    cases h
  | some lease =>
    obtain ⟨address, N⟩ := lease
    dsimp only
    split_ifs with hbad hlim
    · refine QueryInv.finish rfl (.invalid fun address' N' h hadm => ?_)
      cases h
      obtain ⟨hvalid, hgoals, hends, -⟩ := hadm
      have hvalid : N.valid = true := hvalid
      have hgoals : q.goals ≠ [] := hgoals
      have hends : q.reverse = false → N.contains q.start = true ∧ N.contains q.goal = true := hends
      cases hrev : q.reverse with
      | true => simp [hvalid, hgoals, hrev] at hbad
      | false =>
        obtain ⟨h1, h2⟩ := hends hrev
        simp [hvalid, hgoals, hrev, h1, h2] at hbad
    · refine QueryInv.finish rfl (.capacity ?_)
      exact Or.inr (Or.inr (Or.inr hlim))
    · simp only [Bool.or_eq_true, Bool.not_eq_true', Bool.and_eq_true, not_or, not_and,
        Bool.not_eq_false, List.isEmpty_iff] at hbad
      obtain ⟨⟨hvalid, hgoals⟩, hends⟩ := hbad
      have hempty : ∀ v, ¬ (labelView q.reverse q.labels).settled v := fun v => by
        simp [labelView, hl]
      exact .seed N rfl
        ⟨⟨⟨address, rfl⟩, hvalid, hgoals, hends, rfl⟩, hconf, searchInv_start hl hf hu hs rfl, hr,
          hg, fun _ => hempty _⟩ hempty hu

/-! ### Seeds -/

/-- Nothing is reached from a start that is not legal. -/
theorem noneReached_of_start (hconf : q.Configured) (hr : q.reverse = false)
    (hno : N.availability q.start ≠ .legal) {r : Bool} {v : NavigationLocation} {C : ℕ} :
    ¬ QueryReaches N q.goals r v C := by
  intro h
  induction h with
  | seed hs =>
    obtain ⟨i, -, g, hg, rfl, -, -, -, hlegal⟩ := hs
    rw [hconf hr] at hg
    have hmem := List.mem_singleton.1 (List.mem_of_getElem? hg)
    rw [hmem] at hlegal
    exact hno hlegal
  | step _ _ ih => exact ih

/-- The outcome of a query that has not found what was asked for. -/
theorem QueryInv.finish_missed (hb : q.Begun N) (hnone : q.NoneReached N)
    (hseen : q.unknown = true → SomethingMissing N q.goals q.reverse)
    (hunseen : q.unknown = false → NothingMissing N q.goals q.reverse) :
    (q.finish q.missed).QueryInv := by
  cases hk : q.unknown with
  | true =>
    have hm : q.missed = .indeterminate := by rw [missed, hk, if_pos rfl]
    rw [hm]
    exact QueryInv.finish hb.result (.indeterminate N { hb with } hnone (hseen hk))
  | false =>
    have hm : q.missed = .noRoute := by simp [missed, hk]
    rw [hm]
    exact QueryInv.finish hb.result (.noRoute N { hb with } hnone (hunseen hk))

/-- A seed that cannot be used. -/
theorem QueryInv.skipSeed (hs : q.Searching N false) (hnone : ∀ v, ¬ q.view.settled v)
    (hu : q.unresolvedOverflow = 0) (hphase : q.phase = .seed) {g : NavigationGoal}
    (hg : q.goals[q.seed]? = some g) (hno : N.availability g.location ≠ .legal) (b : Bool)
    (hb : b = true ↔ N.availability g.location = .unavailable) :
    let q' : NavigationQuery := { q with seed := q.seed + 1, unknown := b || q.unknown }
    (if q'.phase ≠ .publish ∧ q'.reverse = false then q'.finish q'.missed else q').QueryInv := by
  intro q'
  have hsearch : q'.SearchInv N false := hs.search.skipSeed hg hno b hb
  have hbegun : q'.Begun N := { hs.begun with }
  split_ifs with hif
  · have hrev : q.reverse = false := hif.2
    have hstart : g.location = q.start := by
      have hconf := hs.configured hrev
      rw [hconf] at hg
      rw [List.mem_singleton.1 (List.mem_of_getElem? hg)]
    rw [hstart] at hno
    refine QueryInv.finish_missed (N := N) hbegun ?_ (fun hk => ?_) fun hk => ?_
    · rw [NoneReached, show q'.reverse = false from hrev]
      exact fun C => noneReached_of_start hs.configured hrev hno
    · rcases hsearch.seen hk with h | h | ⟨u, e, hu', -⟩
      · exact Or.inl h
      · exact Or.inr (Or.inl h)
      · exact absurd hu' (hnone u)
    · obtain ⟨h1, h2, -⟩ := hsearch.unseen hk
      refine ⟨h1, fun g' hg' => ?_, fun u C e h =>
        absurd h (noneReached_of_start hs.configured hrev hno)⟩
      obtain ⟨i, hi⟩ := List.mem_iff_getElem?.1 hg'
      have hlen : q.goals.length = 1 := by rw [hs.configured hrev]; rfl
      have hlt := (List.getElem?_eq_some_iff.1 hi).1
      have hlt : i < q.goals.length := hlt
      exact h2 i (show i < q.seed + 1 by omega) g' hi
  · exact .seed N hphase ⟨hbegun, hs.configured, hsearch, hs.route, hs.guidance, hs.open_goal⟩
      hnone hu

theorem QueryInv.stepSeed (hs : q.Searching N false) (hnone : ∀ v, ¬ q.view.settled v)
    (hu : q.unresolvedOverflow = 0) (hphase : q.phase = .seed) : (q.stepSeed N).QueryInv := by
  unfold NavigationQuery.stepSeed
  cases hg : q.goals[q.seed]? with
  | none =>
    exact .pop N rfl ⟨{ hs.begun with }, hs.configured, { hs.search with }, hs.route, hs.guidance,
      hs.open_goal⟩ (List.getElem?_eq_none_iff.1 hg)
  | some g =>
    have hmem := List.mem_of_getElem? hg
    obtain ⟨address, hsnap⟩ := hs.begun.snapshot
    -- an invalid probe tells against the snapshot
    have hbad {q' : NavigationQuery} (hq : q'.snapshot = q.snapshot ∧ q'.goals = q.goals)
        (h : q'.Admissible N → ¬ ProbesValid N q'.reverse) : ∀ a M, q'.snapshot = some ⟨a, M⟩ →
          q'.Admissible M → ¬ ProbesValid M q'.reverse := by
      intro a M hM
      rw [hq.1, hsnap, Option.some.injEq, SnapshotLease.mk.injEq] at hM
      obtain ⟨-, rfl⟩ := hM
      exact h
    have hrun : q.Searching N false := hs
    dsimp only
    by_cases hin : (!N.contains g.location || decide (g.cost = navigationInfinity)) = true
    · rw [if_pos hin]
      refine QueryInv.finish hs.begun.result (.invalid (hbad ⟨rfl, rfl⟩ fun hadm => ?_))
      obtain ⟨h1, h2⟩ := hadm.2.2.2 g hmem
      simp [h1, h2] at hin
    rw [if_neg hin]
    simp only [Bool.or_eq_true, Bool.not_eq_true', decide_eq_true_eq, not_or,
      Bool.not_eq_false] at hin
    obtain ⟨hin, hcost⟩ := hin
    cases hav : N.availability g.location with
    | unavailable =>
      have h := QueryInv.skipSeed hs hnone hu hphase hg (by rw [hav]; decide) true
        (by simp [hav])
      simpa [NavigationQuery.legal, hav] using h
    | blocked =>
      have h := QueryInv.skipSeed hs hnone hu hphase hg (by rw [hav]; decide) false
        (by simp [hav])
      simpa [NavigationQuery.legal, hav] using h
    | overflow =>
      have h : (({ q with seed := q.seed + 1 } : NavigationQuery).finish .overflow).QueryInv :=
        QueryInv.finish hs.begun.result (.probe N { hs.begun with } fun hw =>
          hw.locations _ hin hav)
      simpa [NavigationQuery.legal, hav, NavigationQuery.finish] using h
    | invalid =>
      have h : (({ q with seed := q.seed + 1 } : NavigationQuery).finish .invalidInput).QueryInv :=
        QueryInv.finish hs.begun.result (.invalid (hbad ⟨rfl, rfl⟩ fun _ hw =>
          hw.locations _ hin hav))
      simpa [NavigationQuery.legal, hav, NavigationQuery.finish] using h
    | legal =>
      simp only [NavigationQuery.legal, hav, Bool.not_true, Bool.false_eq_true, if_false]
      have hkeep {q' : NavigationQuery} (hsearch : q'.SearchInv N false) (hbegun : q'.Begun N)
          (hsame : q'.phase = q.phase ∧ q'.goals = q.goals ∧ q'.reverse = q.reverse ∧
            q'.start = q.start ∧ q'.route = q.route ∧ q'.guidance = q.guidance ∧
            q'.unresolvedOverflow = q.unresolvedOverflow)
          (hnone' : ∀ v, ¬ q'.view.settled v) : q'.QueryInv := by
        obtain ⟨h1, h2, h3, h4, h5, h6, h7⟩ := hsame
        refine .seed N (h1.trans hphase) ⟨hbegun, ?_, hsearch, h5.trans hs.route,
          h6.trans hs.guidance, fun _ => hnone' _⟩ hnone' (h7.trans hu)
        unfold Configured
        rw [h2, h3, h4]
        exact hs.configured
      by_cases hknown : ((q.labels.lookup g.location).any fun x : NavigationLabel =>
          decide (x.cost ≤ g.cost)) = true
      · rw [if_pos hknown]
        obtain ⟨x, hx, hle⟩ := (Option.any_eq_true _ _).1 hknown
        exact hkeep (hs.search.reseed hnone hg hin hcost hav hx (of_decide_eq_true hle))
          { hs.begun with } ⟨rfl, rfl, rfl, rfl, rfl, rfl, rfl⟩ hnone
      rw [if_neg hknown]
      by_cases hroom : (q.labels.lookup g.location).isNone = true ∧
          q.labels.length = q.limits.maxNodes
      · rw [if_pos hroom]
        exact QueryInv.finish hs.begun.result (.capacity (Or.inl hroom.2))
      rw [if_neg hroom]
      by_cases hfull : q.frontier.length = q.limits.maxFrontier
      · simp only [NavigationQuery.push, hfull, if_true, Bool.not_false]
        exact QueryInv.finish hs.begun.result (.capacity (Or.inr (Or.inl hfull)))
      simp only [NavigationQuery.push, hfull, if_false, Bool.not_true, Bool.false_eq_true]
      rw [Option.isNone_iff_eq_none] at hroom
      have hlow : ∀ x, q.labels.lookup g.location = some x → g.cost < x.cost := by
        intro x hx
        by_contra hle
        exact hknown ((Option.any_eq_true _ _).2 ⟨x, hx, decide_eq_true (not_lt.1 hle)⟩)
      refine hkeep (hs.search.seed hnone hg hin hcost hav hlow (fun x hx hinf => ?_) hroom)
        { hs.begun with } ⟨rfl, rfl, rfl, rfl, rfl, rfl, rfl⟩ fun v => ?_
      · refine hs.search.not_held hu g.location ?_
        rw [view, cost_of_lookup hx, hinf]
      · show ¬ (labelView q.reverse (setLabel q.labels g.location { cost := g.cost })).settled v
        rw [settled_setLabel hs.search.sorted]
        split_ifs
        · exact not_false
        · exact hnone v

/-! ### The frontier -/

/-- The seeds of a query are its goals. -/
theorem seedOf_all {n : ℕ} (h : q.goals.length ≤ n) :
    SeedOf N q.goals n = SeedOf N q.goals q.goals.length := by
  funext v c
  rw [eq_iff_iff]
  constructor
  · rintro ⟨i, -, g, hg, h⟩
    exact ⟨i, (List.getElem?_eq_some_iff.1 hg).1, g, hg, h⟩
  · rintro ⟨i, hi, h'⟩
    exact ⟨i, hi.trans_le h, h'⟩

/-- The search of a query whose seeds have all been taken. -/
theorem SearchInv.inv_all {probing : Bool} (I : q.SearchInv N probing)
    (hseeds : q.goals.length ≤ q.seed) :
    q.view.Inv (SeedOf N q.goals q.goals.length) (Follows N q.reverse) navigationInfinity
      (fun v c => (⟨c, v⟩ : NavigationFrontier) ∈ q.frontier) (q.Todo N probing) := by
  rw [← seedOf_all hseeds]
  exact I.inv

/-- What was unavailable was met. -/
theorem SearchInv.somethingMissing {probing : Bool} (I : q.SearchInv N probing)
    (hseeds : q.goals.length ≤ q.seed) (h : q.unknown = true) :
    SomethingMissing N q.goals q.reverse := by
  rcases I.seen h with h | h | ⟨u, e, hu, he⟩
  · exact Or.inl h
  · exact Or.inr (Or.inl h)
  · have hinv := I.inv_all hseeds
    obtain ⟨c, hc, hlt, -⟩ := hinv.least u hu
    exact Or.inr (Or.inr ⟨u, c, e, (hinv.traced u c hc hlt).reachedAt hc, he⟩)

/-- **An exhausted search that holds nothing** has settled what the query reaches. -/
theorem SearchInv.settled_of_reaches (I : q.SearchInv N false)
    (hseeds : q.goals.length ≤ q.seed) (hempty : q.frontier = []) (hu : q.unresolvedOverflow = 0)
    {v : NavigationLocation} {C : ℕ} (h : QueryReaches N q.goals q.reverse v C) :
    q.view.settled v := by
  have hinv := I.inv_all hseeds
  rw [todo_false] at hinv
  refine hinv.settled_of_reached (fun w x hw => ?_) (I.not_held hu) h
  rw [hempty] at hw
  exact List.not_mem_nil hw

theorem SearchInv.nothingMissing (I : q.SearchInv N false) (hseeds : q.goals.length ≤ q.seed)
    (hempty : q.frontier = []) (hu : q.unresolvedOverflow = 0) (h : q.unknown = false) :
    NothingMissing N q.goals q.reverse := by
  obtain ⟨h1, h2, h3⟩ := I.unseen h
  refine ⟨h1, fun g hg => ?_, fun u C e hr he => ?_⟩
  · obtain ⟨i, hi⟩ := List.mem_iff_getElem?.1 hg
    exact h2 i ((List.getElem?_eq_some_iff.1 hi).1.trans_le hseeds) g hi
  · exact Bool.false_ne_true (h3 u e (I.settled_of_reaches hseeds hempty hu hr) he).1

theorem lookup_map {L : NavigationLabels} {v : NavigationLocation} :
    (L.map fun e => (e.1, guidanceOf e.2)).lookup v = (L.lookup v).map guidanceOf := by
  induction L with
  | nil => rfl
  | cons e L ih =>
    rw [List.map_cons, List.lookup_cons, List.lookup_cons, ih]
    cases v == e.1 <;> rfl

/-- **The labels of an exhausted search are exact guidance.** -/
theorem SearchInv.guidanceExact (I : q.SearchInv N false) (hr : q.reverse = true)
    (hseeds : q.goals.length ≤ q.seed) (hempty : q.frontier = []) (hu : q.unresolvedOverflow = 0) :
    GuidanceExact N q.goals (q.labels.map fun e => (e.1, guidanceOf e.2)) := by
  have hinv := I.inv_all hseeds
  rw [todo_false, hr] at hinv
  have hsettled {v : NavigationLocation} {C : ℕ} (h : QueryReaches N q.goals true v C) :
      q.view.settled v := by
    rw [← hr] at h
    exact I.settled_of_reaches hseeds hempty hu h
  have hlabel {v : NavigationLocation} {x : NavigationLabel} (hx : q.labels.lookup v = some x) :
      x.cost < navigationInfinity ∧ QueryReaches N q.goals true v x.cost ∧
        q.view.Traced (SeedOf N q.goals q.goals.length) (Follows N true) v := by
    have hc : q.view.cost v = some x.cost := cost_of_lookup hx
    have hlt : x.cost < navigationInfinity :=
      lt_of_le_of_ne (hinv.le v _ hc) fun h => I.not_held hu v (h ▸ hc)
    have htraced := hinv.traced v _ hc hlt
    exact ⟨hlt, htraced.reachedAt hc, htraced⟩
  have hguide {v : NavigationLocation}
      (h : q.view.Traced (SeedOf N q.goals q.goals.length) (Follows N true) v) :
      Guides N q.goals (q.labels.map fun e => (e.1, guidanceOf e.2)) v := by
    induction h with
    | @seed v c hs hp hc =>
      obtain ⟨x, hx, rfl⟩ := Option.map_eq_some_iff.1 hc
      refine .arrive (x := guidanceOf x) (by rw [lookup_map, hx]; rfl) ?_ hs
      have hp : (if x.hasParent then some (nearEnd q.reverse x.parent, x.parent.cost) else none) =
          none := by simpa [view, labelView, hx] using hp
      show x.hasParent = false
      cases hh : x.hasParent with
      | false => rfl
      | true => rw [hh] at hp; cases hp
    | @step u v c k _ _ hcu he hp hcv ih =>
      obtain ⟨x, hx, hxc⟩ := Option.map_eq_some_iff.1 hcv
      obtain ⟨y, hy, rfl⟩ := Option.map_eq_some_iff.1 hcu
      have hp : (if x.hasParent then some (nearEnd q.reverse x.parent, x.parent.cost) else none) =
          some (u, k) := by simpa [view, labelView, hx] using hp
      cases hh : x.hasParent with
      | false => rw [hh] at hp; cases hp
      | true =>
        rw [hh, if_pos rfl, Option.some.injEq, Prod.mk.injEq] at hp
        obtain ⟨rfl, rfl⟩ := hp
        have ho := I.parents v x hx hh
        rw [hr] at ho
        refine .follow (x := guidanceOf x) (y := guidanceOf y) (by rw [lookup_map, hx]; rfl) hh
          ho (by rw [← hr, lookup_map, hy]; rfl) hxc (by rw [← hr]; exact ih)
  refine ⟨fun v => ⟨?_, ?_⟩, fun v x hx => ?_, fun v x hx => ?_⟩
  · rintro ⟨x, hx⟩
    rw [lookup_map] at hx
    obtain ⟨y, hy, -⟩ := Option.map_eq_some_iff.1 hx
    exact ⟨_, (hlabel hy).2.1⟩
  · rintro ⟨C, hC⟩
    obtain ⟨y, hy, -⟩ := hsettled hC
    exact ⟨guidanceOf y, by rw [lookup_map, hy]; rfl⟩
  · rw [lookup_map] at hx
    obtain ⟨y, hy, rfl⟩ := Option.map_eq_some_iff.1 hx
    obtain ⟨hlt, hreach, -⟩ := hlabel hy
    refine ⟨hreach, hlt, fun C hC => ?_⟩
    obtain ⟨c, hc, -, hmin⟩ := hinv.least v (hsettled hC)
    rw [view, cost_of_lookup hy, Option.some.injEq] at hc
    show y.cost ≤ C
    rw [hc]
    exact hmin C hC
  · rw [lookup_map] at hx
    obtain ⟨y, hy, -⟩ := Option.map_eq_some_iff.1 hx
    exact hguide (hlabel hy).2.2

/-- **An empty frontier** ends the search. -/
theorem QueryInv.popEmpty (hs : q.Searching N false) (hseeds : q.goals.length ≤ q.seed)
    (hempty : q.frontier = []) :
    (if q.unresolvedOverflow ≠ 0 then q.finish .overflow
      else if q.reverse && q.labels.isEmpty then q.finish q.missed
      else if q.reverse then { q with exports := q.labels, phase := .exportLabels }
      else q.finish q.missed).QueryInv := by
  have hinv := hs.search.inv_all hseeds
  rw [todo_false] at hinv
  have hq : ∀ w x, ¬ (⟨x, w⟩ : NavigationFrontier) ∈ q.frontier := fun w x h => by
    rw [hempty] at h
    exact List.not_mem_nil h
  by_cases hu : q.unresolvedOverflow = 0
  swap
  · rw [if_pos hu]
    obtain ⟨v, hv⟩ := hs.search.exists_held hu
    obtain ⟨h1, h2⟩ := hinv.exists_held hq hv
    exact QueryInv.finish hs.begun.result (.beyond N { hs.begun with } v h1 h2)
  rw [if_neg (not_not.2 hu)]
  have hseen := fun h => hs.search.somethingMissing hseeds h
  have hunseen := fun h => hs.search.nothingMissing hseeds hempty hu h
  split_ifs with hl hr
  · rw [Bool.and_eq_true, List.isEmpty_iff] at hl
    refine QueryInv.finish_missed hs.begun ?_ hseen hunseen
    rw [NoneReached, if_pos hl.1]
    intro v C hC
    rw [← hl.1] at hC
    obtain ⟨x, hx, -⟩ := hs.search.settled_of_reaches hseeds hempty hu hC
    rw [hl.2] at hx
    cases hx
  · refine .exportLabels N rfl { hs.begun with } hr (fun h => ?_)
      (hs.search.guidanceExact hr hseeds hempty hu) ?_
    · have := hunseen h
      rw [hr] at this
      exact this
    · show q.guidance ++ _ = _
      rw [hs.guidance, List.nil_append]
  · refine QueryInv.finish_missed hs.begun ?_ hseen hunseen
    rw [Bool.not_eq_true] at hr
    rw [NoneReached, hr]
    intro C hC
    rw [← hr] at hC
    exact hs.open_goal hr (hs.search.settled_of_reaches hseeds hempty hu hC)

/-- What is reached is reached from a seed. -/
theorem exists_seed {seeds : NavigationLocation → ℕ → Prop}
    {edge : NavigationLocation → NavigationLocation → ℕ → Prop} {v : NavigationLocation} {C : ℕ}
    (h : ReachedAt seeds edge v C) : ∃ s c, seeds s c := by
  induction h with
  | seed hs => exact ⟨_, _, hs⟩
  | step _ _ ih => exact ih

/-- The seeds of a route query. -/
theorem seedOf_route (hconf : q.Configured) (hr : q.reverse = false) {v : NavigationLocation}
    {c : ℕ} (h : SeedOf N q.goals q.goals.length v c) : v = q.start ∧ c = 0 := by
  obtain ⟨i, -, g, hg, rfl, rfl, -⟩ := h
  rw [hconf hr] at hg
  rw [List.mem_singleton.1 (List.mem_of_getElem? hg)]
  exact ⟨rfl, rfl⟩

/-- **The goal of a route is popped.** -/
theorem QueryInv.popGoal (hs : q.Searching N false) (hseeds : q.goals.length ≤ q.seed)
    (hr : q.reverse = false) {x : NavigationFrontier} {rest : List NavigationFrontier}
    (hf : q.frontier = x :: rest) (hx : x.location = q.goal) {y : NavigationLabel}
    (hy : q.labels.lookup x.location = some y) (hopen : y.settled = false) (hc : y.cost = x.cost) :
    { q with
      frontier := rest
      labels := setLabel q.labels x.location { y with settled := true }
      active := x.location
      activeCost := y.cost
      routeCost := y.cost
      reconstruction := q.goal
      phase := .reconstruct }.QueryInv := by
  have hinv := hs.search.inv_all hseeds
  rw [todo_false, hr] at hinv
  have hlt : y.cost < navigationInfinity := by
    rw [hc]
    exact hs.search.below x (by rw [hf]; exact List.mem_cons_self)
  have hordered := hs.search.ordered
  rw [hf] at hordered
  obtain ⟨hmin, -⟩ := List.pairwise_cons.1 hordered
  have hqueue : ∀ w c, (⟨c, w⟩ : NavigationFrontier) ∈ q.frontier → y.cost ≤ c := by
    intro w c hw
    rw [hf] at hw
    rw [hc]
    rcases List.mem_cons.1 hw with heq | hw
    · exact (congrArg NavigationFrontier.cost heq).ge
    · exact hmin _ hw
  have hopen' : ¬ q.view.settled x.location := by
    rw [view, settled_of_lookup hy, hopen]
    exact Bool.false_ne_true
  have hcost : q.view.cost x.location = some y.cost := cost_of_lookup hy
  have htraced := hinv.traced _ _ hcost hlt
  have hsorted := hs.search.sorted
  have hcost' (w : NavigationLocation) : (labelView q.reverse
      (setLabel q.labels x.location { y with settled := true })).cost w = q.view.cost w := by
    rw [cost_setLabel hsorted]
    split_ifs with h
    · rw [h, hcost]
    · rfl
  have hpred' (w : NavigationLocation) : (labelView q.reverse
      (setLabel q.labels x.location { y with settled := true })).pred w = q.view.pred w := by
    rw [pred_setLabel hsorted]
    split_ifs with h1 h2
    · have h2 : y.hasParent = true := h2
      simp [h1, view, labelView, hy, h2]
    · have h2 : ¬ y.hasParent = true := h2
      simp [h1, view, labelView, hy, h2]
    · rfl
  refine .reconstruct N rfl ⟨{ hs.begun with }, hr, ?_, hlt, fun C hC => ?_, fun h => ?_,
    hs.guidance⟩ y.cost 0 ?_ hlt ?_ (fun v z hz hp => ?_)
    (fun v c h => seedOf_route hs.configured hr h) ?_ rfl
    (by rw [hs.route]; exact Nat.zero_le _)
  · obtain ⟨s, c, hseed⟩ := exists_seed (htraced.reachedAt hcost)
    obtain ⟨rfl, rfl⟩ := seedOf_route hs.configured hr hseed
    exact hseed
  · -- nothing on the way to the goal is cheaper than its entry
    rw [QueryReaches, ← hx] at hC
    rcases hinv.trichotomy hC with ⟨h, -⟩ | ⟨w, c, hw, hle⟩ | hM
    · exact absurd h hopen'
    · exact (hqueue w c hw).trans hle
    · exact hlt.le.trans hM
  · obtain ⟨h1, -, h3⟩ := hs.search.unseen h
    refine ⟨h1, fun u C e hu hlt' he => ?_⟩
    have hlt' : C < y.cost := hlt'
    rw [← hr] at he
    rcases hinv.trichotomy hu with ⟨hset, -⟩ | ⟨w, c, hw, hle⟩ | hM
    · exact Bool.false_ne_true (h3 u e hset he).1
    · have := hqueue w c hw
      omega
    · omega
  · show (labelView q.reverse (setLabel q.labels x.location { y with settled := true })).cost
      q.goal = _
    rw [hcost', ← hx, hcost]
  · show (labelView q.reverse
      (setLabel q.labels x.location { y with settled := true })).Traced _ _ q.goal
    rw [← hx]
    refine htraced.congr (fun _ _ h => h) (fun u hu => ?_) (fun u _ => hcost' u)
      (fun u _ => hpred' u) (hcost' _) (hpred' _)
    rw [settled_setLabel hsorted]
    split_ifs
    · rfl
    · exact hu
  · have hz : (setLabel q.labels x.location { y with settled := true }).lookup v = some z := hz
    rw [lookup_setLabel hsorted] at hz
    have hnear (e : NavigationTransition) : nearEnd q.reverse e = e.fromLocation := by
      rw [nearEnd, hr]
      rfl
    split_ifs at hz with heq
    · obtain rfl := Option.some.inj hz
      have ho := hs.search.parents v y (heq ▸ hy) hp
      rw [hnear, hr] at ho
      exact ho
    · have ho := hs.search.parents v z hz hp
      rw [hnear, hr] at ho
      exact ho
  · show RouteFrom N q.goal q.route.reverse q.goal 0
    rw [hs.route]
    exact .nil q.goal

theorem QueryInv.stepPop (hs : q.Searching N false) (hseeds : q.goals.length ≤ q.seed)
    (hphase : q.phase = .pop) : (q.stepPop N).QueryInv := by
  unfold NavigationQuery.stepPop
  cases hf : q.frontier with
  | nil =>
    have h := QueryInv.popEmpty hs hseeds hf
    rw [hf] at h
    exact h
  | cons x rest =>
    obtain ⟨y, hy⟩ := hs.search.labelled x (by rw [hf]; exact List.mem_cons_self)
    dsimp only
    rw [hy]
    dsimp only
    by_cases hstale : (y.settled || y.cost != x.cost) = true
    · rw [if_pos hstale]
      rw [Bool.or_eq_true, bne_iff_ne] at hstale
      exact .pop N hphase ⟨{ hs.begun with }, hs.configured, hs.search.popStale hf hy hstale,
        hs.route, hs.guidance, hs.open_goal⟩ hseeds
    rw [if_neg hstale]
    rw [Bool.or_eq_true, bne_iff_ne, not_or, not_not, Bool.not_eq_true] at hstale
    obtain ⟨hopen, hc⟩ := hstale
    have hlt : y.cost < navigationInfinity := by
      rw [hc]
      exact hs.search.below x (by rw [hf]; exact List.mem_cons_self)
    by_cases hgoal : (!q.reverse && decide (x.location = q.goal)) = true
    · rw [if_pos hgoal]
      rw [Bool.and_eq_true, Bool.not_eq_true', decide_eq_true_eq] at hgoal
      exact QueryInv.popGoal hs hseeds hgoal.1 hf hgoal.2 hy hopen hc
    rw [if_neg hgoal]
    rw [Bool.and_eq_true, Bool.not_eq_true', decide_eq_true_eq, not_and] at hgoal
    have hset : ∀ w, (labelView q.reverse
        (setLabel q.labels x.location { y with settled := true })).settled w ↔
          q.view.settled w ∨ w = x.location := by
      intro w
      rw [settled_setLabel hs.search.sorted]
      by_cases h : w = x.location
      · simp [h]
      · rw [if_neg h]
        exact (or_iff_left h).symm
    refine .edges N rfl ⟨{ hs.begun with }, hs.configured, hs.search.settle hf hy hopen hc hlt,
      hs.route, hs.guidance, fun hr h => ?_⟩ hseeds ⟨?_, ?_, rfl⟩ (Nat.zero_le _)
    · rcases (hset _).1 h with h | h
      · exact hs.open_goal hr h
      · exact hgoal hr h.symm
    · exact (hset _).2 (Or.inr rfl)
    · refine (cost_setLabel hs.search.sorted).trans ?_
      rw [if_pos rfl]

/-! ### Candidates -/

/-- A location that has been settled is in the snapshot, and its label is below the reserved
cost. -/
theorem Searching.contains_active (hs : q.Searching N true) (hseeds : q.goals.length ≤ q.seed)
    (hactive : SearchInv.Active N q) :
    N.contains q.active = true ∧ q.activeCost < navigationInfinity ∧
      QueryReaches N q.goals q.reverse q.active q.activeCost := by
  have hinv := hs.search.inv_all hseeds
  obtain ⟨c, hc, hlt, -⟩ := hinv.least _ hactive.settled
  rw [hactive.cost, Option.some.injEq] at hc
  rw [← hc] at hlt
  have hreach : QueryReaches N q.goals q.reverse q.active q.activeCost :=
    (hinv.traced _ _ hactive.cost hlt).reachedAt hactive.cost
  exact ⟨hreach.contains, hlt, hreach⟩

/-- The next candidate has been dealt with. -/
theorem QueryInv.probed (hs : q.Searching N true) (hseeds : q.goals.length ≤ q.seed)
    (hactive : SearchInv.Active N q) (hphase : q.phase = .edges) (hlt : q.cursor < q.degree)
    (hdone : ∀ v, Traversed N q.reverse q.active (N.edge q.active q.cursor q.reverse) v →
      ∃ c' ≤ q.activeCost + (N.edge q.active q.cursor q.reverse).cost, q.view.cost v = some c')
    (b : Bool) (hb : b = true ↔
      MissingAt N q.reverse q.active (N.edge q.active q.cursor q.reverse)) :
    { q with cursor := q.cursor + 1, unknown := b || q.unknown }.QueryInv :=
  .edges N hphase ⟨{ hs.begun with }, hs.configured, hs.search.probe hactive hlt hdone b hb,
    hs.route, hs.guidance, hs.open_goal⟩ hseeds
    ⟨hactive.settled, hactive.cost, hactive.degree⟩ hlt

/-- A new label elsewhere leaves the active location as it is. -/
theorem Searching.relabel (hs : q.Searching N true) (hactive : SearchInv.Active N q)
    {l : NavigationLocation} {x : NavigationLabel} (hx : x.settled = false) (hne : q.active ≠ l)
    {F : List NavigationFrontier} {n : ℕ}
    (hsearch : { q with
      labels := setLabel q.labels l x, frontier := F, unresolvedOverflow := n }.SearchInv N true) :
    { q with
      labels := setLabel q.labels l x, frontier := F, unresolvedOverflow := n }.Searching N true ∧
    SearchInv.Active N { q with
      labels := setLabel q.labels l x, frontier := F, unresolvedOverflow := n } := by
  refine ⟨⟨{ hs.begun with }, hs.configured, hsearch, hs.route, hs.guidance, fun hr h => ?_⟩,
    ?_, ?_, hactive.degree⟩
  · have h : (labelView q.reverse (setLabel q.labels l x)).settled q.goal := h
    rw [settled_setLabel hs.search.sorted] at h
    split_ifs at h
    · rw [hx] at h
      cases h
    · exact hs.open_goal hr h
  · refine (settled_setLabel hs.search.sorted).2 ?_
    rw [if_neg hne]
    exact hactive.settled
  · refine (cost_setLabel hs.search.sorted).trans ?_
    rw [if_neg hne]
    exact hactive.cost

/-- A legal transition to a legal location is offered. -/
theorem QueryInv.offer (hs : q.Searching N true) (hseeds : q.goals.length ≤ q.seed)
    (hactive : SearchInv.Active N q) (hphase : q.phase = .edges) (hlt : q.cursor < q.degree)
    {v : NavigationLocation}
    (ho : Traversed N q.reverse q.active (N.edge q.active q.cursor q.reverse) v) :
    ({ q with cursor := q.cursor + 1 }.offer (N.edge q.active q.cursor q.reverse) v).QueryInv := by
  set e := N.edge q.active q.cursor q.reverse with he
  obtain ⟨-, hbelow, hreach⟩ := hs.contains_active hseeds hactive
  have hinv := hs.search.inv_all hseeds
  have hfar {w : NavigationLocation} (hw : Traversed N q.reverse q.active e w) : w = v :=
    hw.far.symm.trans ho.far
  have hnot : ¬ MissingAt N q.reverse q.active e := by
    rintro ⟨-, h | ⟨-, h⟩⟩
    · rw [ho.edge_legal] at h
      cases h
    · rw [ho.far, ho.legal] at h
      cases h
  have hmiss : false = true ↔ MissingAt N q.reverse q.active e :=
    iff_of_false Bool.false_ne_true hnot
  -- a target whose label is small enough is left as it is
  have hkeep {c : ℕ} (hle : c ≤ q.activeCost + e.cost) (hc : q.view.cost v = some c) :
      { q with cursor := q.cursor + 1 }.QueryInv :=
    QueryInv.probed hs hseeds hactive hphase hlt
      (fun w hw => ⟨c, hle, by rw [hfar hw]; exact hc⟩) false hmiss
  have hcapacity (h : q.labels.length = q.limits.maxNodes) :
      ({ q with cursor := q.cursor + 1 }.finish .capacityExceeded).QueryInv :=
    QueryInv.finish hs.begun.result (.capacity (Or.inl h))
  unfold NavigationQuery.offer
  dsimp only
  by_cases hbig : e.cost ≥ navigationInfinity - q.activeCost
  · rw [if_pos hbig]
    have hinf : navigationInfinity ≤ q.activeCost + e.cost := by omega
    cases hv : q.labels.lookup v with
    | some x =>
      rw [Option.isSome_some, if_pos rfl]
      have hc : q.view.cost v = some x.cost := cost_of_lookup hv
      exact hkeep ((hinv.le v _ hc).trans hinf) hc
    | none =>
      rw [Option.isSome_none, if_neg Bool.false_ne_true]
      by_cases hfull : q.labels.length = q.limits.maxNodes
      · rw [if_pos hfull]
        exact hcapacity hfull
      rw [if_neg hfull]
      have hne : q.active ≠ v := by
        rintro rfl
        obtain ⟨x, hx, -⟩ := hactive.settled
        rw [hv] at hx
        cases hx
      obtain ⟨hs', hactive'⟩ := hs.relabel hactive rfl hne (hs.search.hold hactive ho hv hfull)
      refine QueryInv.probed hs' hseeds hactive' hphase hlt (fun w hw => ?_) false hmiss
      refine ⟨navigationInfinity, hinf, ?_⟩
      refine (cost_setLabel hs.search.sorted).trans ?_
      rw [if_pos (hfar hw)]
  rw [if_neg hbig]
  have hsum : q.activeCost + e.cost < navigationInfinity := by omega
  by_cases hknown : ((q.labels.lookup v).any fun x : NavigationLabel =>
      x.settled || decide (x.cost ≤ q.activeCost + e.cost)) = true
  · rw [if_pos hknown]
    obtain ⟨x, hx, hor⟩ := (Option.any_eq_true _ _).1 hknown
    have hc : q.view.cost v = some x.cost := cost_of_lookup hx
    refine hkeep ?_ hc
    rw [Bool.or_eq_true] at hor
    rcases hor with hset | hle
    · -- a settled label is least, so the way over this transition does not improve it
      obtain ⟨c, hc', -, hmin⟩ := hinv.least v ((settled_of_lookup hx).2 hset)
      rw [hc, Option.some.injEq] at hc'
      rw [hc']
      exact hmin _ (.step hreach ⟨e, ho, rfl⟩)
    · exact of_decide_eq_true hle
  rw [if_neg hknown]
  by_cases hroom : (q.labels.lookup v).isNone = true ∧ q.labels.length = q.limits.maxNodes
  · rw [if_pos hroom]
    exact hcapacity hroom.2
  rw [if_neg hroom]
  rw [Option.isNone_iff_eq_none] at hroom
  by_cases hfull : q.frontier.length = q.limits.maxFrontier
  · simp only [NavigationQuery.push, hfull, if_true, Bool.not_false]
    exact QueryInv.finish hs.begun.result (.capacity (Or.inr (Or.inl hfull)))
  simp only [NavigationQuery.push, hfull, if_false, Bool.not_true, Bool.false_eq_true]
  have hlow : ∀ x, q.labels.lookup v = some x →
      x.settled = false ∧ q.activeCost + e.cost < x.cost := by
    intro x hx
    have hno : ¬ (x.settled || decide (x.cost ≤ q.activeCost + e.cost)) = true := fun h =>
      hknown ((Option.any_eq_true _ _).2 ⟨x, hx, h⟩)
    rw [Bool.or_eq_true, decide_eq_true_eq, not_or, not_le, Bool.not_eq_true] at hno
    exact hno
  have hne : q.active ≠ v := by
    rintro rfl
    obtain ⟨x, hx, hset⟩ := hactive.settled
    rw [(hlow x hx).1] at hset
    cases hset
  obtain ⟨hs', hactive'⟩ := hs.relabel hactive rfl hne
    (hs.search.lower hactive ho hsum hlow hroom)
  refine QueryInv.probed hs' hseeds hactive' hphase hlt (fun w hw => ?_) false hmiss
  refine ⟨q.activeCost + e.cost, le_rfl, ?_⟩
  refine (cost_setLabel hs.search.sorted).trans ?_
  rw [if_pos (hfar hw)]

theorem QueryInv.stepEdges (hs : q.Searching N true) (hseeds : q.goals.length ≤ q.seed)
    (hactive : SearchInv.Active N q) (hphase : q.phase = .edges) (hcursor : q.cursor ≤ q.degree) :
    (q.stepEdges N).QueryInv := by
  unfold NavigationQuery.stepEdges
  by_cases hend : q.cursor = q.degree
  · rw [if_pos hend]
    exact .pop N rfl ⟨{ hs.begun with }, hs.configured, hs.search.exhaust hactive hend.ge,
      hs.route, hs.guidance, hs.open_goal⟩ hseeds
  rw [if_neg hend]
  have hlt : q.cursor < q.degree := lt_of_le_of_ne hcursor hend
  have hmem : N.edge q.active q.cursor q.reverse ∈ N.candidates q.active q.reverse :=
    List.mem_of_getElem? (hactive.getElem? hlt)
  have hprobed := fun hdone b hb => QueryInv.probed hs hseeds hactive hphase hlt hdone b hb
  revert hmem hprobed
  have hoffer := fun v => QueryInv.offer (v := v) hs hseeds hactive hphase hlt
  revert hoffer
  generalize N.edge q.active q.cursor q.reverse = e
  intro hoffer hmem hprobed
  dsimp only
  obtain ⟨hin, -, -⟩ := hs.contains_active hseeds hactive
  obtain ⟨address, hsnap⟩ := hs.begun.snapshot
  -- a probe that fails tells against the snapshot
  have hinvalid (h : ¬ ProbesValid N q.reverse) :
      ({ q with cursor := q.cursor + 1 }.finish .invalidInput).QueryInv := by
    refine QueryInv.finish hs.begun.result (.invalid fun a M hM _ => ?_)
    have hM : q.snapshot = some ⟨a, M⟩ := hM
    rw [hsnap, Option.some.injEq, SnapshotLease.mk.injEq] at hM
    rw [← hM.2]
    exact h
  have hoverflow (h : ¬ ProbesBounded N q.reverse) :
      ({ q with cursor := q.cursor + 1 }.finish .overflow).QueryInv :=
    QueryInv.finish hs.begun.result (.probe N { hs.begun with } h)
  -- a candidate that is not followed
  have hskip (b : Bool) (hb : b = true ↔ MissingAt N q.reverse q.active e)
      (hno : ∀ v, ¬ Traversed N q.reverse q.active e v) :
      { q with cursor := q.cursor + 1, unknown := b || q.unknown }.QueryInv :=
    hprobed (fun v ho => absurd ho (hno v)) b hb
  by_cases hmis : ({ q with cursor := q.cursor + 1 }.misplaced N e) = true
  · rw [if_pos hmis]
    refine hinvalid fun hw => ?_
    obtain ⟨hnear, hfrom, hto, hcost, -⟩ := hw.edges _ hin e hmem
    simp only [misplaced, Bool.or_eq_true, Bool.and_eq_true, Bool.not_eq_true', bne_iff_ne,
      beq_iff_eq, hfrom, hto, hcost, Bool.true_eq_false, or_false] at hmis
    rcases hmis with ⟨hr, h⟩ | ⟨hr, h⟩
    · rw [nearEnd, hr] at hnear
      exact h hnear
    · rw [nearEnd, hr] at hnear
      exact h hnear
  rw [if_neg hmis]
  have hplaced : nearEnd q.reverse e = q.active ∧ N.contains e.fromLocation = true ∧
      N.contains e.toLocation = true ∧ e.cost ≠ navigationInfinity := by
    simp only [misplaced, Bool.or_eq_true, Bool.and_eq_true, Bool.not_eq_true', bne_iff_ne,
      beq_iff_eq, not_or, not_and, not_not, Bool.not_eq_false] at hmis
    obtain ⟨⟨⟨⟨h1, h2⟩, h3⟩, h4⟩, h5⟩ := hmis
    refine ⟨?_, h3, h4, h5⟩
    cases hr : q.reverse with
    | false => exact h1 hr
    | true => exact h2 hr
  obtain ⟨hnear, hfrom, hto, hcost⟩ := hplaced
  have hnolegal (h : e.availability ≠ .legal) (v : NavigationLocation) :
      ¬ Traversed N q.reverse q.active e v := fun ho => h ho.edge_legal
  cases hav : e.availability with
  | blocked =>
    refine hskip false (iff_of_false Bool.false_ne_true ?_) (hnolegal (by rw [hav]; decide))
    rintro ⟨-, h | ⟨h, -⟩⟩
    · rw [hav] at h
      cases h
    · rw [hav] at h
      cases h
  | unavailable =>
    exact hskip true (iff_of_true rfl ⟨hmem, Or.inl hav⟩) (hnolegal (by rw [hav]; decide))
  | invalid => exact hinvalid fun hw => (hw.edges _ hin e hmem).2.2.2.2 hav
  | overflow => exact hoverflow fun hw => hw.edges _ hin e hmem hav
  | legal =>
    have hfarin : N.contains (farEnd q.reverse e) = true := by
      rw [farEnd]
      split_ifs
      · exact hfrom
      · exact hto
    have hnext : (if q.reverse = true then e.fromLocation else e.toLocation) =
        farEnd q.reverse e := rfl
    have hclosed (h : N.availability (farEnd q.reverse e) ≠ .legal) (v : NavigationLocation) :
        ¬ Traversed N q.reverse q.active e v := fun ho => h (by rw [ho.far]; exact ho.legal)
    rw [hnext]
    cases hfar : N.availability (farEnd q.reverse e) with
    | legal =>
      simp only [NavigationQuery.legal, hfar, Bool.not_true, Bool.false_eq_true, if_false]
      exact hoffer _ ⟨hmem, hnear, rfl, ⟨hfrom, hto⟩, hcost, hav, hfar⟩
    | unavailable =>
      have h := hskip true (iff_of_true rfl ⟨hmem, Or.inr ⟨hav, hfar⟩⟩)
        (hclosed (by rw [hfar]; decide))
      simpa [NavigationQuery.legal, hfar] using h
    | blocked =>
      have hno : ¬ MissingAt N q.reverse q.active e := by
        rintro ⟨-, h | ⟨-, h⟩⟩
        · rw [hav] at h
          cases h
        · rw [hfar] at h
          cases h
      have h := hskip false (iff_of_false Bool.false_ne_true hno) (hclosed (by rw [hfar]; decide))
      simpa [NavigationQuery.legal, hfar] using h
    | invalid =>
      have h := hinvalid fun hw => hw.locations _ hfarin hfar
      simpa [NavigationQuery.legal, hfar, NavigationQuery.finish] using h
    | overflow =>
      have h := hoverflow fun hw => hw.locations _ hfarin hfar
      simpa [NavigationQuery.legal, hfar, NavigationQuery.finish] using h

/-! ### The route -/

/-- **One step back** along the predecessors. -/
theorem QueryInv.stepReconstruct (hsettled : q.Settled N) (hphase : q.phase = .reconstruct)
    {m k : ℕ} (hm : q.view.cost q.reconstruction = some m) (hlt : m < navigationInfinity)
    (htraced : q.view.Traced (SeedOf N q.goals q.goals.length) (Follows N false) q.reconstruction)
    (hparents : ∀ v x, q.labels.lookup v = some x → x.hasParent = true →
      Traversed N false x.parent.fromLocation x.parent v)
    (hseeds : ∀ v c, SeedOf N q.goals q.goals.length v c → v = q.start ∧ c = 0)
    (hroute : RouteFrom N q.reconstruction q.route.reverse q.goal k) (hsum : q.routeCost = m + k)
    (hroom : q.route.length ≤ q.limits.maxRouteSteps) : q.stepReconstruct.QueryInv := by
  unfold NavigationQuery.stepReconstruct
  by_cases hstart : q.reconstruction = q.start
  · rw [if_pos hstart]
    rw [hstart] at hroute
    -- the route found from the start is no shorter than the label of the goal
    have hleast := hsettled.least _ (hroute.reachedAt (.seed hsettled.seeded))
    obtain rfl : k = q.routeCost := by omega
    refine .reverse N rfl { hsettled with begun := { hsettled.begun with } } q.route hroute ?_
    refine ⟨rfl, fun i _ => ?_⟩
    rw [if_neg (by show ¬ (i < 0 ∨ _ < 0); omega)]
  rw [if_neg hstart]
  obtain ⟨x, hx, hxm⟩ := Option.map_eq_some_iff.1 hm
  rw [hx]
  dsimp only
  generalize hr : q.reconstruction = r at *
  cases htraced with
  | seed hs => exact absurd (hseeds _ _ hs).1 hstart
  | @step u _ c k' hu hset hcu he hp hcv =>
    have hp : (if x.hasParent then some (nearEnd q.reverse x.parent, x.parent.cost) else none) =
        some (u, k') := by simpa [view, labelView, hx] using hp
    cases hh : x.hasParent with
    | false => rw [hh] at hp; cases hp
    | true =>
      rw [hh, if_pos rfl, Option.some.injEq, Prod.mk.injEq, nearEnd, hsettled.forward] at hp
      obtain ⟨hfrom, rfl⟩ := hp
      have hfrom : x.parent.fromLocation = u := hfrom
      have ho := hparents r x hx hh
      rw [Bool.not_true, Bool.false_or]
      split_ifs with hfull
      · exact QueryInv.finish hsettled.begun.result
          (.capacity (Or.inr (Or.inr (Or.inl (of_decide_eq_true hfull)))))
      have hm' : m = c + x.parent.cost := Option.some.inj (hm.symm.trans hcv)
      refine .reconstruct N hphase { hsettled with begun := { hsettled.begun with } } c
        (x.parent.cost + k) ?_ (by omega) ?_ hparents hseeds ?_ ?_ ?_
      · show q.view.cost x.parent.fromLocation = some c
        rw [hfrom]
        exact hcu
      · show q.view.Traced _ _ x.parent.fromLocation
        rw [hfrom]
        exact hu
      · show RouteFrom N x.parent.fromLocation (q.route ++ [x.parent]).reverse q.goal _
        rw [List.reverse_append]
        exact .cons ho hroute
      · show q.routeCost = c + (x.parent.cost + k)
        omega
      · rw [decide_eq_true_eq] at hfull
        show (q.route ++ [x.parent]).length ≤ q.limits.maxRouteSteps
        rw [List.length_append, List.length_singleton]
        omega

/-! ### Reversal -/

section Reversal

variable {α : Type*} {R l : List α} {n : ℕ}

/-- **One more swap.** -/
theorem PartlyReversed.swap (h : PartlyReversed R l n) (hn : n < l.length / 2) :
    PartlyReversed R (swapAt l n (l.length - 1 - n)) (n + 1) := by
  obtain ⟨hlen, hget⟩ := h
  rw [hlen] at hn ⊢
  have h1 := hget n (by omega)
  have h2 := hget (R.length - 1 - n) (by omega)
  -- neither place has been swapped before
  rw [if_neg (by omega)] at h1 h2
  have hi : n < R.length := by omega
  have hj : R.length - 1 - n < R.length := by omega
  rw [List.getElem?_eq_getElem hi] at h1
  rw [List.getElem?_eq_getElem hj] at h2
  unfold NavigationQuery.swapAt
  rw [h1, h2]
  dsimp only
  refine ⟨by rw [List.length_set, List.length_set, hlen], fun k hk => ?_⟩
  rw [List.getElem?_set, List.getElem?_set, List.length_set, hlen]
  by_cases hkj : R.length - 1 - n = k
  · rw [if_pos hkj, if_pos hj, if_pos (by omega), ← hkj,
      show R.length - 1 - (R.length - 1 - n) = n by omega, List.getElem?_eq_getElem hi]
  rw [if_neg hkj]
  by_cases hkn : n = k
  · rw [if_pos hkn, if_pos hi, if_pos (by omega), ← hkn, List.getElem?_eq_getElem hj]
  rw [if_neg hkn, hget k hk]
  by_cases hout : k < n ∨ R.length - 1 - k < n
  · rw [if_pos hout, if_pos (by omega)]
  · rw [if_neg hout, if_neg (by omega)]

/-- **All swaps have been done.** -/
theorem PartlyReversed.eq_reverse (h : PartlyReversed R l n) (hn : l.length / 2 ≤ n) :
    l = R.reverse := by
  obtain ⟨hlen, hget⟩ := h
  rw [hlen] at hn
  refine List.ext_getElem? fun i => ?_
  by_cases hi : i < R.length
  · rw [hget i hi, List.getElem?_reverse hi]
    by_cases hdone : i < n ∨ R.length - 1 - i < n
    · rw [if_pos hdone]
    · rw [if_neg hdone, show R.length - 1 - i = i by omega]
  · rw [List.getElem?_eq_none (by omega),
      List.getElem?_eq_none (by rw [List.length_reverse]; omega)]

end Reversal

theorem QueryInv.stepReverse (hsettled : q.Settled N) (hphase : q.phase = .reverse)
    {R : List NavigationTransition} (hroute : RouteFrom N q.start R.reverse q.goal q.routeCost)
    (hrev : PartlyReversed R q.route q.reverseCursor) : q.stepReverse.QueryInv := by
  unfold NavigationQuery.stepReverse
  split_ifs with hlt
  · exact .reverse N hphase { hsettled with begun := { hsettled.begun with } } R hroute
      (hrev.swap hlt)
  · have hdone := hrev.eq_reverse (not_lt.1 hlt)
    have hlegal : N.availability q.start = .legal := by
      obtain ⟨i, -, g, -, -, -, -, -, hlegal⟩ := hsettled.seeded
      exact hlegal
    refine QueryInv.finish hsettled.begun.result (.route N { hsettled.begun with }
      hsettled.forward ⟨hlegal, ?_⟩ hsettled.lt (fun es C h => ?_) hsettled.exact)
    · show RouteFrom N q.start q.route q.goal q.routeCost
      rw [hdone]
      exact hroute
    · have hreach := h.2.reachedAt (.seed hsettled.seeded)
      rw [Nat.zero_add] at hreach
      exact hsettled.least C hreach

/-! ### The export -/

theorem QueryInv.stepExport (hphase : q.phase = .exportLabels) (hbegun : q.Begun N)
    (hr : q.reverse = true) (hexact : q.unknown = false → NothingMissing N q.goals true)
    (hall : GuidanceExact N q.goals (q.labels.map fun e => (e.1, guidanceOf e.2)))
    (hsplit : q.guidance ++ q.exports.map (fun e => (e.1, guidanceOf e.2)) =
      q.labels.map fun e => (e.1, guidanceOf e.2)) : q.stepExport.QueryInv := by
  unfold NavigationQuery.stepExport
  cases hex : q.exports with
  | nil =>
    rw [hex, List.map_nil, List.append_nil] at hsplit
    refine QueryInv.finish hbegun.result (.guidance N { hbegun with } hr ?_ hexact)
    show GuidanceExact N q.goals q.guidance
    rw [hsplit]
    exact hall
  | cons e rest =>
    refine .exportLabels N hphase { hbegun with } hr hexact hall ?_
    rw [hex] at hsplit
    show (q.guidance ++ [_]) ++ rest.map _ = _
    rw [List.append_assoc]
    exact hsplit

/-! ### One unit of work -/

/-- The count of the steps is no part of the search. -/
theorem SearchInv.counted {probing : Bool} (I : q.SearchInv N probing) (w : ℕ) :
    { q with work := w }.SearchInv N probing := { I with }

theorem Searching.counted {probing : Bool} (h : q.Searching N probing) (w : ℕ) :
    { q with work := w }.Searching N probing :=
  ⟨{ h.begun with }, h.configured, h.search.counted w, h.route, h.guidance, h.open_goal⟩

theorem Answer.counted {outcome : NavigationOutcome} (h : q.Answer outcome) (w : ℕ) :
    { q with work := w }.Answer outcome := by
  cases h with
  | route N hb hr h hlt hmin hexact => exact .route N { hb with } hr h hlt hmin hexact
  | guidance N hb hr h hexact => exact .guidance N { hb with } hr h hexact
  | noRoute N hb h hexact => exact .noRoute N { hb with } h hexact
  | indeterminate N hb h hmissing => exact .indeterminate N { hb with } h hmissing
  | beyond N hb v h hall => exact .beyond N { hb with } v h hall
  | probe N hb h => exact .probe N { hb with } h
  | invalid h => exact .invalid h
  | capacity h => exact .capacity h

/-- **The invariant does not depend on the count of the steps.** -/
theorem QueryInv.counted (h : q.QueryInv) (w : ℕ) : { q with work := w }.QueryInv := by
  cases h with
  | init hphase hconf hl hf hr hg hu hs => exact .init hphase hconf hl hf hr hg hu hs
  | seed N hphase hsearch hnone hu => exact .seed N hphase (hsearch.counted w) hnone hu
  | pop N hphase hsearch hseeds => exact .pop N hphase (hsearch.counted w) hseeds
  | edges N hphase hsearch hseeds hactive hcursor =>
    exact .edges N hphase (hsearch.counted w) hseeds { hactive with } hcursor
  | reconstruct N hphase hsettled m k hm hlt htraced hparents hseeds hroute hsum hroom =>
    exact .reconstruct N hphase { hsettled with begun := { hsettled.begun with } } m k hm hlt
      htraced hparents hseeds hroute hsum hroom
  | reverse N hphase hsettled R hroute hrev =>
    exact .reverse N hphase { hsettled with begun := { hsettled.begun with } } R hroute hrev
  | exportLabels N hphase hbegun hr hexact hall hsplit =>
    exact .exportLabels N hphase { hbegun with } hr hexact hall hsplit
  | publish hphase hresult hanswer => exact .publish hphase hresult (hanswer.counted w)

/-- **One unit of work** keeps the invariant; in the last phase there is an answer. -/
theorem QueryInv.step (h : q.QueryInv) : q.phase ≠ .publish ∧ q.step.QueryInv ∨
    q.phase = .publish ∧ q.result = some {} ∧ q.Answer q.outcome := by
  unfold NavigationQuery.step
  cases h with
  | init hphase hconf hl hf hr hg hu hs =>
    rw [hphase]
    exact Or.inl ⟨by decide, QueryInv.stepInit hconf hl hf hr hg hu hs⟩
  | seed N hphase hsearch hnone hu =>
    obtain ⟨address, hN⟩ := hsearch.begun.snapshot
    rw [hphase, hN]
    exact Or.inl ⟨by decide, QueryInv.stepSeed hsearch hnone hu hphase⟩
  | pop N hphase hsearch hseeds =>
    obtain ⟨address, hN⟩ := hsearch.begun.snapshot
    rw [hphase, hN]
    exact Or.inl ⟨by decide, QueryInv.stepPop hsearch hseeds hphase⟩
  | edges N hphase hsearch hseeds hactive hcursor =>
    obtain ⟨address, hN⟩ := hsearch.begun.snapshot
    rw [hphase, hN]
    exact Or.inl ⟨by decide, QueryInv.stepEdges hsearch hseeds hactive hphase hcursor⟩
  | reconstruct N hphase hsettled m k hm hlt htraced hparents hseeds hroute hsum hroom =>
    rw [hphase]
    exact Or.inl ⟨by decide, QueryInv.stepReconstruct hsettled hphase hm hlt htraced hparents
      hseeds hroute hsum hroom⟩
  | reverse N hphase hsettled R hroute hrev =>
    rw [hphase]
    exact Or.inl ⟨by decide, QueryInv.stepReverse hsettled hphase hroute hrev⟩
  | exportLabels N hphase hbegun hr hexact hall hsplit =>
    rw [hphase]
    exact Or.inl ⟨by decide, QueryInv.stepExport hphase hbegun hr hexact hall hsplit⟩
  | publish hphase hresult hanswer => exact Or.inr ⟨hphase, hresult, hanswer⟩

end NavigationQuery

end Tess
