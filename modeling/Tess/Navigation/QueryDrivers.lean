import Mathlib.Data.Prod.Lex
import Tess.Navigation.QueryResults

/-!
# Drivers of a navigation query

Every query comes to an end, and what it publishes does not depend on how its work was divided
into budgets.

* `NavigationQuery.remaining` : the work that is left, as a lexicographic measure;
* `QueryInv.step_lt` : **one unit of work decreases it**;
* `advanceLoop_add` : two advances are one;
* `navigationRoute` : the synchronous driver;
* `navigationRoute_total`, `guidanceQuery_total` : **every query ends with the right result**.
-/

namespace Tess

open Graphs

/-! ### The measure -/

/-- A measure with four parts, the first of which weighs most. -/
def workLeft (a b c d : ℕ) : ℕ ×ₗ ℕ ×ₗ ℕ ×ₗ ℕ := toLex (a, toLex (b, toLex (c, d)))

theorem workLeft_lt {a b c d a' b' c' d' : ℕ} : workLeft a b c d < workLeft a' b' c' d' ↔
    a < a' ∨ a = a' ∧ (b < b' ∨ b = b' ∧ (c < c' ∨ c = c' ∧ d < d')) := by
  simp only [workLeft, Prod.Lex.toLex_lt_toLex]

namespace NavigationQuery

variable {q : NavigationQuery} {N : NavigationSnapshot}

/-- The number of settled labels. -/
def settledCount (q : NavigationQuery) : ℕ := q.labels.countP fun e => e.2.settled

/-- **The work that is left**, phase by phase. -/
def remaining (q : NavigationQuery) : ℕ ×ₗ ℕ ×ₗ ℕ ×ₗ ℕ :=
  match q.phase with
  | .init => workLeft 7 0 0 0
  | .seed => workLeft 6 (q.goals.length - q.seed) 0 0
  | .pop => workLeft 5 (q.limits.maxNodes - q.settledCount) 0 q.frontier.length
  | .edges => workLeft 5 (q.limits.maxNodes - q.settledCount) (q.degree - q.cursor + 1) 0
  | .reconstruct => workLeft 4 (q.limits.maxRouteSteps - q.route.length) 0 0
  | .reverse => workLeft 3 (q.route.length / 2 - q.reverseCursor) 0 0
  | .exportLabels => workLeft 2 q.exports.length 0 0
  | .publish => workLeft 1 0 0 0

theorem stepInit_lt (hphase : q.phase = .init) : q.stepInit.remaining < q.remaining := by
  have hq : q.remaining = workLeft 7 0 0 0 := by unfold remaining; rw [hphase]
  rw [hq]
  unfold stepInit
  cases q.snapshot with
  | none => exact workLeft_lt.2 (Or.inl (by omega))
  | some lease =>
    dsimp only
    split_ifs
    · exact workLeft_lt.2 (Or.inl (by omega))
    · exact workLeft_lt.2 (Or.inl (by omega))
    · exact workLeft_lt.2 (Or.inl (by omega))

theorem remaining_seed (h : q.phase = .seed) :
    q.remaining = workLeft 6 (q.goals.length - q.seed) 0 0 := by
  unfold remaining
  rw [h]

theorem stepSeed_lt (N : NavigationSnapshot) (hphase : q.phase = .seed) :
    (q.stepSeed N).remaining < q.remaining := by
  rw [remaining_seed hphase]
  unfold stepSeed
  cases hg : q.goals[q.seed]? with
  | none => exact workLeft_lt.2 (Or.inl (by omega))
  | some g =>
    have hlt : q.seed < q.goals.length := (List.getElem?_eq_some_iff.1 hg).1
    -- one more seed has been taken
    have hnext {p : NavigationQuery} (h1 : p.phase = .seed) (h2 : p.goals = q.goals)
        (h3 : p.seed = q.seed + 1) :
        p.remaining < workLeft 6 (q.goals.length - q.seed) 0 0 := by
      rw [remaining_seed h1, h2, h3]
      exact workLeft_lt.2 (Or.inr ⟨rfl, Or.inl (by omega)⟩)
    have hend {p : NavigationQuery} (outcome : NavigationOutcome) :
        (p.finish outcome).remaining < workLeft 6 (q.goals.length - q.seed) 0 0 :=
      workLeft_lt.2 (Or.inl (by omega))
    dsimp only
    by_cases hin : (!N.contains g.location || decide (g.cost = navigationInfinity)) = true
    · rw [if_pos hin]
      exact hend _
    rw [if_neg hin]
    cases hav : N.availability g.location with
    | legal =>
      simp only [legal, hav, Bool.not_true, Bool.false_eq_true, if_false]
      by_cases hfull : q.frontier.length = q.limits.maxFrontier
      · simp only [push, hfull, if_true, Bool.not_false]
        split_ifs
        · exact hnext hphase rfl rfl
        · exact hend _
        · exact hend _
      · simp only [push, hfull, if_false, Bool.not_true, Bool.false_eq_true]
        split_ifs
        · exact hnext hphase rfl rfl
        · exact hend _
        · exact hnext hphase rfl rfl
    | unavailable =>
      simp only [legal, hav, Bool.not_false, if_true]
      split_ifs
      · exact hend _
      · exact hnext hphase rfl rfl
    | blocked =>
      simp only [legal, hav, Bool.not_false, if_true]
      split_ifs
      · exact hend _
      · exact hnext hphase rfl rfl
    | overflow =>
      simp only [legal, hav, Bool.not_false, if_true]
      rw [if_neg (fun h => h.1 rfl)]
      exact hend _
    | invalid =>
      simp only [legal, hav, Bool.not_false, if_true]
      rw [if_neg (fun h => h.1 rfl)]
      exact hend _

/-! ### The search -/

theorem remaining_pop (h : q.phase = .pop) : q.remaining =
    workLeft 5 (q.limits.maxNodes - q.settledCount) 0 q.frontier.length := by
  unfold remaining
  rw [h]

theorem remaining_edges (h : q.phase = .edges) : q.remaining =
    workLeft 5 (q.limits.maxNodes - q.settledCount) (q.degree - q.cursor + 1) 0 := by
  unfold remaining
  rw [h]

/-- **Settling a label** adds to the count, which stays within the ceiling. -/
theorem settledCount_settle {probing : Bool} (I : q.SearchInv N probing) {l : NavigationLocation}
    {y : NavigationLabel} (hy : q.labels.lookup l = some y) (hopen : y.settled = false) :
    (setLabel q.labels l { y with settled := true }).countP (fun e => e.2.settled) =
      q.settledCount + 1 ∧ q.settledCount + 1 ≤ q.limits.maxNodes := by
  have h := @countP_setLabel q.labels l { y with settled := true } I.sorted fun y => y.settled
  rw [hy, Option.any_some, hopen, if_neg Bool.false_ne_true, Nat.add_zero, if_pos rfl] at h
  have hle := List.countP_le_length (p := fun e : NavigationLocation × NavigationLabel =>
    e.2.settled) (l := setLabel q.labels l { y with settled := true })
  rw [length_setLabel I.sorted, hy, Option.isSome_some, if_pos rfl, h] at hle
  exact ⟨h, hle.trans I.nodes⟩

/-- An open label does not add to the count. -/
theorem settledCount_open (hs : LabelsSorted q.labels) {l : NavigationLocation}
    {x : NavigationLabel} (hx : x.settled = false)
    (hopen : ∀ y, q.labels.lookup l = some y → y.settled = false) :
    (setLabel q.labels l x).countP (fun e => e.2.settled) = q.settledCount := by
  have h := @countP_setLabel q.labels l x hs fun y => y.settled
  have hany : (q.labels.lookup l).any (fun y => y.settled) = false := by
    cases hl : q.labels.lookup l with
    | none => rfl
    | some y => exact hopen y hl
  rw [hany, hx, if_neg Bool.false_ne_true] at h
  exact h

theorem stepPop_lt (I : q.SearchInv N false) (hphase : q.phase = .pop) :
    (q.stepPop N).remaining < q.remaining := by
  rw [remaining_pop hphase]
  unfold stepPop
  cases hf : q.frontier with
  | nil =>
    dsimp only
    split_ifs
    · exact workLeft_lt.2 (Or.inl (by omega))
    · exact workLeft_lt.2 (Or.inl (by omega))
    · exact workLeft_lt.2 (Or.inl (by omega))
    · exact workLeft_lt.2 (Or.inl (by omega))
  | cons x rest =>
    obtain ⟨y, hy⟩ := I.labelled x (by rw [hf]; exact List.mem_cons_self)
    dsimp only
    rw [hy]
    dsimp only
    split_ifs with hstale hgoal
    · -- the frontier has become shorter
      rw [remaining_pop (q := { q with frontier := rest }) hphase]
      exact workLeft_lt.2 (Or.inr ⟨rfl, Or.inr ⟨rfl, Or.inr ⟨rfl, Nat.lt_succ_self _⟩⟩⟩)
    · exact workLeft_lt.2 (Or.inl (by omega))
    · rw [Bool.or_eq_true, not_or, Bool.not_eq_true] at hstale
      obtain ⟨hcount, hle⟩ := settledCount_settle I hy hstale.1
      refine workLeft_lt.2 (Or.inr ⟨rfl, Or.inl ?_⟩)
      show q.limits.maxNodes - (setLabel q.labels x.location _).countP _ < _
      rw [hcount]
      omega

theorem offer_lt (hs : LabelsSorted q.labels) (hphase : q.phase = .edges) (e : NavigationTransition)
    (v : NavigationLocation) (n : ℕ) (hn : q.degree - q.cursor + 1 < n) :
    (q.offer e v).remaining < workLeft 5 (q.limits.maxNodes - q.settledCount) n 0 := by
  -- the labels may change, but not the count of those that are settled
  have hsame {p : NavigationQuery} (h1 : p.phase = .edges) (h2 : p.limits = q.limits)
      (h3 : p.settledCount = q.settledCount) (h4 : p.degree - p.cursor = q.degree - q.cursor) :
      p.remaining < workLeft 5 (q.limits.maxNodes - q.settledCount) n 0 := by
    rw [remaining_edges h1, h2, h3, h4]
    exact workLeft_lt.2 (Or.inr ⟨rfl, Or.inr ⟨rfl, Or.inl hn⟩⟩)
  have hend {p : NavigationQuery} (outcome : NavigationOutcome) :
      (p.finish outcome).remaining < workLeft 5 (q.limits.maxNodes - q.settledCount) n 0 :=
    workLeft_lt.2 (Or.inl (by omega))
  unfold offer
  dsimp only
  by_cases hbig : e.cost ≥ navigationInfinity - q.activeCost
  · rw [if_pos hbig]
    split_ifs with hsome
    · exact hsame hphase rfl rfl rfl
    · exact hend _
    · refine hsame hphase rfl (settledCount_open hs rfl fun y hy => ?_) rfl
      rw [hy] at hsome
      exact absurd rfl hsome
  rw [if_neg hbig]
  by_cases hknown : ((q.labels.lookup v).any fun x : NavigationLabel =>
      x.settled || decide (x.cost ≤ q.activeCost + e.cost)) = true
  · rw [if_pos hknown]
    exact hsame hphase rfl rfl rfl
  rw [if_neg hknown]
  by_cases hroom : (q.labels.lookup v).isNone = true ∧ q.labels.length = q.limits.maxNodes
  · rw [if_pos hroom]
    exact hend _
  rw [if_neg hroom]
  by_cases hfull : q.frontier.length = q.limits.maxFrontier
  · simp only [push, hfull, if_true, Bool.not_false]
    exact hend _
  simp only [push, hfull, if_false, Bool.not_true, Bool.false_eq_true]
  refine hsame hphase rfl (settledCount_open hs rfl fun y hy => ?_) rfl
  by_contra hset
  rw [Bool.not_eq_false] at hset
  refine hknown ((Option.any_eq_true _ _).2 ⟨y, hy, ?_⟩)
  rw [hset, Bool.true_or]

theorem stepEdges_lt (I : q.SearchInv N true) (hphase : q.phase = .edges)
    (hcursor : q.cursor ≤ q.degree) : (q.stepEdges N).remaining < q.remaining := by
  rw [remaining_edges hphase]
  unfold stepEdges
  by_cases hdone : q.cursor = q.degree
  · rw [if_pos hdone]
    exact workLeft_lt.2 (Or.inr ⟨rfl, Or.inr ⟨rfl, Or.inl (by omega)⟩⟩)
  rw [if_neg hdone]
  generalize N.edge q.active q.cursor q.reverse = e
  have hless : q.degree - (q.cursor + 1) + 1 < q.degree - q.cursor + 1 := by omega
  -- one more candidate has been probed
  have hsame {p : NavigationQuery} (h1 : p.phase = .edges) (h2 : p.limits = q.limits)
      (h3 : p.labels = q.labels) (h4 : p.degree = q.degree ∧ p.cursor = q.cursor + 1) :
      p.remaining <
        workLeft 5 (q.limits.maxNodes - q.settledCount) (q.degree - q.cursor + 1) 0 := by
    rw [remaining_edges h1, settledCount, h2, h3, h4.1, h4.2]
    exact workLeft_lt.2 (Or.inr ⟨rfl, Or.inr ⟨rfl, Or.inl hless⟩⟩)
  have hend {p : NavigationQuery} (outcome : NavigationOutcome) : (p.finish outcome).remaining <
      workLeft 5 (q.limits.maxNodes - q.settledCount) (q.degree - q.cursor + 1) 0 :=
    workLeft_lt.2 (Or.inl (by omega))
  dsimp only
  by_cases hmis : ({ q with cursor := q.cursor + 1 }.misplaced N e) = true
  · rw [if_pos hmis]
    exact hend _
  rw [if_neg hmis]
  generalize (if q.reverse = true then e.fromLocation else e.toLocation) = v
  cases e.availability with
  | blocked => exact hsame hphase rfl rfl ⟨rfl, rfl⟩
  | unavailable => exact hsame hphase rfl rfl ⟨rfl, rfl⟩
  | invalid => exact hend _
  | overflow => exact hend _
  | legal =>
    dsimp only
    cases hav : N.availability v with
    | legal =>
      simp only [legal, hav, Bool.not_true, Bool.false_eq_true, if_false]
      exact offer_lt (q := { q with cursor := q.cursor + 1 }) I.sorted hphase e v _ hless
    | unavailable =>
      simp only [legal, hav, Bool.not_false, if_true]
      exact hsame hphase rfl rfl ⟨rfl, rfl⟩
    | blocked =>
      simp only [legal, hav, Bool.not_false, if_true]
      exact hsame hphase rfl rfl ⟨rfl, rfl⟩
    | overflow =>
      simp only [legal, hav, Bool.not_false, if_true]
      exact hend _
    | invalid =>
      simp only [legal, hav, Bool.not_false, if_true]
      exact hend _

/-! ### The route and the export -/

theorem remaining_reconstruct (h : q.phase = .reconstruct) :
    q.remaining = workLeft 4 (q.limits.maxRouteSteps - q.route.length) 0 0 := by
  unfold remaining
  rw [h]

theorem stepReconstruct_lt (hphase : q.phase = .reconstruct) {m : ℕ}
    (hm : q.view.cost q.reconstruction = some m) (hroom : q.route.length ≤ q.limits.maxRouteSteps) :
    q.stepReconstruct.remaining < q.remaining := by
  obtain ⟨x, hx, -⟩ := Option.map_eq_some_iff.1 hm
  rw [remaining_reconstruct hphase]
  unfold stepReconstruct
  rw [hx]
  dsimp only
  split_ifs with hstart hfull
  · exact workLeft_lt.2 (Or.inl (by omega))
  · exact workLeft_lt.2 (Or.inl (by omega))
  · rw [Bool.or_eq_true, not_or, decide_eq_true_eq] at hfull
    rw [remaining_reconstruct (q := { q with
      route := q.route ++ [x.parent], reconstruction := x.parent.fromLocation }) hphase]
    rw [List.length_append, List.length_singleton]
    show workLeft 4 (q.limits.maxRouteSteps - (q.route.length + 1)) 0 0 < _
    exact workLeft_lt.2 (Or.inr ⟨rfl, Or.inl (by omega)⟩)

theorem remaining_reverse (h : q.phase = .reverse) :
    q.remaining = workLeft 3 (q.route.length / 2 - q.reverseCursor) 0 0 := by
  unfold remaining
  rw [h]

theorem stepReverse_lt (hphase : q.phase = .reverse) {R : List NavigationTransition}
    (hrev : PartlyReversed R q.route q.reverseCursor) :
    q.stepReverse.remaining < q.remaining := by
  rw [remaining_reverse hphase]
  unfold stepReverse
  split_ifs with hlt
  · have hlen : (swapAt q.route q.reverseCursor (q.route.length - 1 - q.reverseCursor)).length =
        q.route.length := (hrev.swap hlt).1.trans hrev.1.symm
    rw [remaining_reverse (q := { q with
      route := swapAt q.route q.reverseCursor (q.route.length - 1 - q.reverseCursor)
      reverseCursor := q.reverseCursor + 1 }) hphase, hlen]
    show workLeft 3 (q.route.length / 2 - (q.reverseCursor + 1)) 0 0 < _
    exact workLeft_lt.2 (Or.inr ⟨rfl, Or.inl (by omega)⟩)
  · exact workLeft_lt.2 (Or.inl (by omega))

theorem remaining_exportLabels (h : q.phase = .exportLabels) :
    q.remaining = workLeft 2 q.exports.length 0 0 := by
  unfold remaining
  rw [h]

theorem stepExport_lt (hphase : q.phase = .exportLabels) :
    q.stepExport.remaining < q.remaining := by
  rw [remaining_exportLabels hphase]
  unfold stepExport
  cases q.exports with
  | nil => exact workLeft_lt.2 (Or.inl (by omega))
  | cons e rest =>
    rw [remaining_exportLabels (q := { q with
      exports := rest
      guidance := q.guidance ++ [(e.1, ⟨e.2.cost, e.2.parent, e.2.hasParent⟩)] }) hphase]
    exact workLeft_lt.2 (Or.inr ⟨rfl, Or.inl (Nat.lt_succ_self _)⟩)

/-! ### One unit of work -/

/-- **One unit of work leaves less of it**, until the answer is published. -/
theorem QueryInv.step_lt (h : q.QueryInv) (hlast : q.phase ≠ .publish) :
    q.step.remaining < q.remaining := by
  unfold NavigationQuery.step
  cases h with
  | init hphase =>
    rw [hphase]
    exact stepInit_lt hphase
  | seed N hphase hsearch =>
    obtain ⟨address, hN⟩ := hsearch.begun.snapshot
    rw [hphase, hN]
    exact stepSeed_lt N hphase
  | pop N hphase hsearch =>
    obtain ⟨address, hN⟩ := hsearch.begun.snapshot
    rw [hphase, hN]
    exact stepPop_lt hsearch.search hphase
  | edges N hphase hsearch _ _ hcursor =>
    obtain ⟨address, hN⟩ := hsearch.begun.snapshot
    rw [hphase, hN]
    exact stepEdges_lt hsearch.search hphase hcursor
  | reconstruct N hphase _ m k hm _ _ _ _ _ _ hroom =>
    rw [hphase]
    exact stepReconstruct_lt hphase hm hroom
  | reverse N hphase _ R _ hrev =>
    rw [hphase]
    exact stepReverse_lt hphase hrev
  | exportLabels N hphase =>
    rw [hphase]
    exact stepExport_lt hphase
  | publish hphase => exact absurd hphase hlast

/-- **Every query comes to an end.** -/
theorem QueryInv.exists_ready (h : q.QueryInv) (hstate : q.state = .pending) :
    ∃ n, (advanceLoop n q).2.state = .ready := by
  -- the measure falls with every step but the last one, which publishes
  induction hm : q.remaining using WellFoundedLT.induction generalizing q with
  | ind m ih =>
    set p : NavigationQuery := { q with work := (q.work + 1) % 2 ^ 64 } with hp
    have hpinv : p.QueryInv := h.counted _
    have hloop (n : ℕ) : (advanceLoop (n + 1) q).2 = (advanceLoop n p.step).2 := by
      rw [advanceLoop, if_pos hstate]
      rfl
    rcases hpinv.step with ⟨hphase, hinv⟩ | ⟨hphase, -, -⟩
    · obtain ⟨-, h2⟩ := Prod.mk.inj (frame_step hphase)
      have hless : p.step.remaining < m := hm ▸ hpinv.step_lt hphase
      obtain ⟨n, hn⟩ := ih _ hless hinv (h2.trans hstate) rfl
      exact ⟨n + 1, by rw [hloop]; exact hn⟩
    · exact ⟨1, by rw [hloop, step_publish hphase]; rfl⟩

/-! ### Budgets -/

/-- **Two advances are one** under both budgets. -/
theorem advanceLoop_add (a b : ℕ) (q : NavigationQuery) :
    (advanceLoop (a + b) q).2 = (advanceLoop b (advanceLoop a q).2).2 := by
  induction a generalizing q with
  | zero => rw [Nat.zero_add]; rfl
  | succ a ih =>
    rw [Nat.succ_add]
    by_cases h : q.state = .pending
    · rw [advanceLoop, if_pos h, advanceLoop, if_pos h]
      exact ih q.tick
    · rw [advanceLoop, if_neg h, advanceLoop, if_neg h]
      cases b with
      | zero => rfl
      | succ b => rw [advanceLoop, if_neg h]

/-- A query that has ended does no more work. -/
theorem advanceLoop_of_ended (n : ℕ) (h : q.state ≠ .pending) : (advanceLoop n q).2 = q := by
  cases n with
  | zero => rfl
  | succ n => rw [advanceLoop, if_neg h]

/-- **Only the sum of the budgets matters.** -/
theorem run_advances (budgets : List (BitVec 32)) (q : NavigationQuery) :
    q.run (budgets.map .advance) = (advanceLoop (budgets.map BitVec.toNat).sum q).2 := by
  induction budgets generalizing q with
  | nil => rfl
  | cons b budgets ih =>
    rw [List.map_cons, List.map_cons, List.sum_cons, advanceLoop_add]
    exact ih (q.advance b).2

/-- The loop of the synchronous driver, with a bound on its rounds. -/
def drive : ℕ → NavigationQuery → Option NavigationQuery
  | 0, _ => none
  | rounds + 1, q => if q.state = .pending then drive rounds (q.advance 1024).2 else some q

/-- **What the driver ends with**, once it is given enough rounds. -/
theorem drive_eq {n : ℕ} (h : (advanceLoop n q).2.state ≠ .pending) {rounds : ℕ}
    (hr : n < rounds) : drive rounds q = some (advanceLoop n q).2 := by
  induction rounds generalizing n q with
  | zero => exact absurd hr (Nat.not_lt_zero n)
  | succ rounds ih =>
    rw [drive]
    split_ifs with hstate
    · -- a pending query is given a whole round
      have hpos : n ≠ 0 := by
        rintro rfl
        exact h hstate
      have hround : (q.advance 1024).2 = (advanceLoop 1024 q).2 := rfl
      rw [hround]
      by_cases hsmall : n ≤ 1024
      · have heq : (advanceLoop 1024 q).2 = (advanceLoop n q).2 := by
          rw [← Nat.add_sub_cancel' hsmall, advanceLoop_add, advanceLoop_of_ended _ h]
        rw [heq]
        exact ih (n := 0) h (by omega)
      · have heq : (advanceLoop n q).2 =
            (advanceLoop (n - 1024) (advanceLoop 1024 q).2).2 := by
          rw [← advanceLoop_add, Nat.add_sub_cancel' (by omega)]
        rw [heq] at h ⊢
        exact ih h (by omega)
    · rw [advanceLoop_of_ended n hstate]

/-- **A query concludes with a result**, however its work is divided. -/
structure Concludes (q : NavigationQuery) (r : NavigationResult) : Prop where
  /-- The synchronous driver returns it. -/
  driven : ∃ n, ∀ rounds > n, (drive rounds q).bind readyResult = some r
  /-- So do all budgets that add up to enough. -/
  ample : ∃ n, ∀ budgets : List (BitVec 32), n ≤ (budgets.map BitVec.toNat).sum →
    (q.run (budgets.map .advance)).readyResult = some r
  /-- No budgets lead to another one. -/
  only : ∀ (budgets : List (BitVec 32)) (r' : NavigationResult),
    (q.run (budgets.map .advance)).readyResult = some r' → r' = r

/-- **Every query concludes**, with an answer to its request. -/
theorem Standing.concludes {asked : Request} (h : q.Standing asked) (hstate : q.state = .pending) :
    ∃ p : NavigationQuery, p.request = asked ∧ p.Answer p.outcome ∧
      q.Concludes (p.published {}) := by
  have hinv : q.QueryInv := by
    cases h with
    | pending _ _ hinv => exact hinv
    | ready hready => rw [hready] at hstate; cases hstate
    | ended hpending => exact absurd hstate hpending
  obtain ⟨n, hn⟩ := hinv.exists_ready hstate
  have hended : (NavigationQuery.advanceLoop n q).2.state ≠ .pending := by
    rw [hn]
    decide
  -- any amount of work that ends the query ends it there
  have hsame (m : ℕ) (hm : (NavigationQuery.advanceLoop m q).2.state ≠ .pending) :
      (NavigationQuery.advanceLoop m q).2 = (NavigationQuery.advanceLoop n q).2 := by
    rcases Nat.le_total m n with hle | hle
    · rw [← Nat.add_sub_cancel' hle, advanceLoop_add, advanceLoop_of_ended _ hm]
    · rw [← Nat.add_sub_cancel' hle, advanceLoop_add, advanceLoop_of_ended _ hended]
  have hready : ∃ r, (NavigationQuery.advanceLoop n q).2.readyResult = some r := by
    cases h.advanceLoop n with
    | pending _ hpending => exact absurd hpending hended
    | ready _ p _ hresult => exact ⟨_, by rw [readyResult, if_pos hn]; exact hresult⟩
    | ended _ hno => exact absurd hn hno
  obtain ⟨r, hr⟩ := hready
  obtain ⟨p, hasked, hanswer, rfl⟩ := (h.advanceLoop n).answered hr
  refine ⟨p, hasked, hanswer, ⟨n, fun rounds hlt => ?_⟩, ⟨n, fun budgets hle => ?_⟩,
    fun budgets r' hr' => ?_⟩
  · rw [drive_eq hended hlt]
    exact hr
  · rw [run_advances, ← Nat.add_sub_cancel' hle, advanceLoop_add, advanceLoop_of_ended _ hended]
    exact hr
  · have hstop : (q.run (budgets.map .advance)).state ≠ .pending := by
      intro hpending
      rw [readyResult, hpending] at hr'
      cases hr'
    rw [run_advances] at hr' hstop
    rw [hsame _ hstop, hr] at hr'
    exact (Option.some.inj hr').symm

end NavigationQuery

open NavigationQuery

/-- `navigation_route`: the synchronous driver, with a bound on its rounds. -/
def navigationRoute (rounds : ℕ) (snapshot : Option SnapshotLease)
    (start goal : NavigationLocation) (limits : NavigationLimits) : Option NavigationResult :=
  (drive rounds (toRoute snapshot start goal limits)).bind readyResult

/-- **The synchronous driver ends with the right result**, and no division of the work into budgets
leads to another one. -/
theorem navigationRoute_total (lease : SnapshotLease) (start goal : NavigationLocation)
    (limits : NavigationLimits) : ∃ r, RouteAnswer lease.snapshot start goal r ∧
      (∃ n, ∀ rounds > n, navigationRoute rounds (some lease) start goal limits = some r) ∧
      (toRoute (some lease) start goal limits).Concludes r := by
  obtain ⟨p, hasked, hanswer, hc⟩ :=
    (standing_toRoute (some lease) start goal limits).concludes rfl
  exact ⟨_, routeAnswer_of_answer hasked hanswer, hc.driven, hc⟩

/-- **Every guidance query ends with the right result**, whatever budgets it is advanced under. -/
theorem guidanceQuery_total (lease : SnapshotLease) (hm : lease.snapshot.Mirrored)
    (goals : List NavigationGoal) (limits : NavigationLimits) : ∃ r,
      GuidanceAnswer lease.snapshot goals r ∧
      (toGuidance (some lease) goals limits).Concludes r := by
  obtain ⟨p, hasked, hanswer, hc⟩ := (standing_toGuidance (some lease) goals limits).concludes rfl
  exact ⟨_, guidanceAnswer_of_answer hm hasked hanswer, hc⟩

theorem guidanceQuery_total_floors : ∃ r, GuidanceAnswer floors [⟨⟨2, 1⟩, 5, by decide⟩] r ∧
    (toGuidance (some ⟨1, floors⟩) [⟨⟨2, 1⟩, 5, by decide⟩] {}).Concludes r := by
  exact guidanceQuery_total ⟨1, floors⟩ (NavigationSnapshot.mirrored_make _ _ _
    (fun _ hD => mirrored_floor hD) fits_floors) _ _

end Tess
