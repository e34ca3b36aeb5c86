import Tess.Spatial.LocalDemand
import Tess.Storage.Dirty

/-!
# Tactical assignment

`assignTacticalCandidatesGreedy` gives scarce candidates to requests: requests are served by
descending priority and ascending id, and each takes the feasible candidate of least score that has
capacity left.

* `assignTacticalCandidatesGreedy` : the pass, with its checks and its scratch;
* `tacticalMarket` : what it decides, as a market of serial choice;
* `bestCandidate_spec` : the scan of the candidates finds the best one, whatever their order;
* `exists_tacticalOutcome` : **the pass is serial choice**;
* `assignTacticalCandidatesGreedy_spec` : what the pass returns.
-/

namespace Tess

open SerialChoice SerialChoice.Market

/-! ### The pass -/

/-- `TacticalRequest`. -/
structure TacticalRequest where
  /-- Stable id. -/
  requester : ℕ := 0
  /-- Where the subject is. -/
  origin : Coord3 := ⟨0, 0, 0⟩
  /-- Greater ones are served first. -/
  priority : ℕ := 0
  deriving DecidableEq

/-- `TacticalCandidate`. -/
structure TacticalCandidate where
  /-- Stable id. -/
  candidate : ℕ := 0
  /-- Where it is. -/
  position : Coord3 := ⟨0, 0, 0⟩
  /-- How often it may be assigned. -/
  capacity : ℕ := 1
  deriving DecidableEq

/-- `TacticalScore`; lower values win. -/
structure TacticalScore where
  /-- The candidate may be assigned to the request. -/
  feasible : Bool := false
  /-- Score of the pair. -/
  value : ℤ := 0
  deriving DecidableEq

/-- `TacticalAssignment`. -/
structure TacticalAssignment where
  /-- Id of the request. -/
  requester : ℕ := 0
  /-- Id of the candidate. -/
  candidate : ℕ := 0
  /-- Where the candidate is. -/
  position : Coord3 := ⟨0, 0, 0⟩
  /-- Score of the pair. -/
  score : ℤ := 0
  /-- Whether there is a candidate. -/
  assigned : Bool := false
  deriving DecidableEq

/-- `TacticalAssignmentStatus`. -/
inductive TacticalAssignmentStatus
  | complete
  | partially
  | invalidInput
  deriving DecidableEq

/-- `TacticalAssignmentResult`. -/
structure TacticalAssignmentResult where
  /-- Aggregate outcome. -/
  status : TacticalAssignmentStatus := .complete
  /-- Number of requests with a candidate. -/
  assignedCount : ℕ := 0
  /-- An assignment for each request. -/
  assignments : List TacticalAssignment := []
  deriving DecidableEq

/-- A request is served before another. -/
def tacticalBefore (lhs rhs : TacticalRequest) : Bool :=
  if lhs.priority ≠ rhs.priority then lhs.priority > rhs.priority
  else lhs.requester < rhs.requester

section Pass

variable (requests : List TacticalRequest) (candidates : List TacticalCandidate)
  (score : TacticalRequest → TacticalCandidate → TacticalScore)

/-- `request_order_`, by ascending id. -/
def requesterOrder : List (Fin requests.length) :=
  (List.finRange requests.length).mergeSort fun i j =>
    (requests.get i).requester ≤ (requests.get j).requester

/-- `candidate_order_`. -/
def candidateOrder : List (Fin candidates.length) :=
  (List.finRange candidates.length).mergeSort fun i j =>
    (candidates.get i).candidate ≤ (candidates.get j).candidate

/-- `request_order_`, in the order of service. -/
def tacticalOrder : List (Fin requests.length) :=
  (requesterOrder requests).mergeSort fun i j =>
    !tacticalBefore (requests.get j) (requests.get i)

/-- `best` and `best_score` of the loop over the candidates. -/
structure CandidateScan where
  /-- Index of the best candidate, unless it is past the end. -/
  best : Option (Fin candidates.length) := none
  /-- Its score. -/
  bestScore : ℤ := int64Max

/-- The candidate replaces the best one. -/
def replacesBest (s : CandidateScan candidates) (value : ℤ) (j : Fin candidates.length) : Bool :=
  match s.best with
  | none => true
  | some b => value < s.bestScore || (value == s.bestScore &&
      decide ((candidates.get j).candidate < (candidates.get b).candidate))

/-- One candidate of the loop. -/
def considerCandidate (remaining : Fin candidates.length → ℕ) (r : TacticalRequest)
    (s : CandidateScan candidates) (j : Fin candidates.length) : CandidateScan candidates :=
  if remaining j = 0 then s
  else if !(score r (candidates.get j)).feasible then s
  else if replacesBest candidates s (score r (candidates.get j)).value j then
    ⟨some j, (score r (candidates.get j)).value⟩
  else s

/-- The loop over the candidates. -/
def bestCandidate (remaining : Fin candidates.length → ℕ) (r : TacticalRequest) :
    CandidateScan candidates :=
  (List.finRange candidates.length).foldl (considerCandidate candidates score remaining r) {}

/-- The scratch and the count while requests are served. -/
structure TacticalState where
  /-- `remaining_capacity_`. -/
  remaining : Fin candidates.length → ℕ
  /-- `assignments_`. -/
  assignments : Fin requests.length → TacticalAssignment
  /-- `assigned_count`. -/
  assignedCount : ℕ

/-- Serve one request. -/
def assignRequest (s : TacticalState requests candidates) (i : Fin requests.length) :
    TacticalState requests candidates :=
  let scan := bestCandidate candidates score s.remaining (requests.get i)
  match scan.best with
  | none => s
  | some b =>
    { remaining := Function.update s.remaining b (s.remaining b - 1)
      assignments := Function.update s.assignments i
        ⟨(requests.get i).requester, (candidates.get b).candidate, (candidates.get b).position,
          scan.bestScore, true⟩
      assignedCount := s.assignedCount + 1 }

/-- Serve the requests in order. -/
def assignRequests : TacticalState requests candidates :=
  (tacticalOrder requests).foldl (assignRequest requests candidates score)
    ⟨fun j => (candidates.get j).capacity, fun i => { requester := (requests.get i).requester }, 0⟩

/-- `assign_tactical_candidates_greedy`. -/
def assignTacticalCandidatesGreedy : TacticalAssignmentResult :=
  if equalNeighbors ((requesterOrder requests).map fun i => (requests.get i).requester) then
    ⟨.invalidInput, 0, []⟩
  else if equalNeighbors
      ((candidateOrder candidates).map fun j => (candidates.get j).candidate) then
    ⟨.invalidInput, 0, []⟩
  else
    let s := assignRequests requests candidates score
    { status := if s.assignedCount = requests.length then .complete else .partially
      assignedCount := s.assignedCount
      assignments := List.ofFn s.assignments }

/-! ### What it decides -/

/-- No id occurs twice. -/
structure DistinctIds : Prop where
  /-- Requests have different ids. -/
  requesters : (requests.map TacticalRequest.requester).Nodup
  /-- Candidates have different ids. -/
  candidates : (candidates.map TacticalCandidate.candidate).Nodup

/-- What a request takes: a candidate, and the score it has for the request. -/
structure TacticalChoice where
  /-- Score of the pair. -/
  score : ℤ
  /-- Id of the candidate. -/
  candidate : ℕ
  deriving DecidableEq

/-- A choice compared by score and then by id. -/
def TacticalChoice.key (t : TacticalChoice) : ℤ ×ₗ ℕ := toLex (t.score, t.candidate)

/-- The candidate of an id. -/
def candidateOf (id : ℕ) : Option TacticalCandidate :=
  candidates.find? fun c => c.candidate == id

/-- **Who is served before whom, and what each may take.** -/
def tacticalMarket : Market (Fin requests.length) TacticalChoice ℕ where
  before i j := tacticalBefore (requests.get i) (requests.get j) = true
  offers i t := ∃ c ∈ candidates, c.candidate = t.candidate ∧
    score (requests.get i) c = ⟨true, t.score⟩
  object := TacticalChoice.candidate
  better a b := a.key < b.key
  capacity id := ((candidateOf candidates id).map TacticalCandidate.capacity).getD 0

/-- The assignment that tells a choice. -/
def assignmentOf (r : TacticalRequest) : Option TacticalChoice → TacticalAssignment
  | none => { requester := r.requester }
  | some t => ⟨r.requester, t.candidate,
      ((candidateOf candidates t.candidate).map TacticalCandidate.position).getD ⟨0, 0, 0⟩,
      t.score, true⟩

end Pass

/-! ### The scan of the candidates -/

section Scan

variable {candidates : List TacticalCandidate}
  {score : TacticalRequest → TacticalCandidate → TacticalScore}
  {remaining : Fin candidates.length → ℕ} {r : TacticalRequest} {s : CandidateScan candidates} {j : Fin candidates.length}
  {t u : TacticalChoice} {c : TacticalCandidate} {id : ℕ}

theorem key_lt_key_iff :
    t.key < u.key ↔ t.score < u.score ∨ t.score = u.score ∧ t.candidate < u.candidate :=
  Prod.Lex.toLex_lt_toLex

theorem key_injective : Function.Injective TacticalChoice.key := by
  rintro ⟨v, i⟩ ⟨w, j⟩ h
  simp only [TacticalChoice.key, EmbeddingLike.apply_eq_iff_eq, Prod.mk.injEq] at h
  rw [h.1, h.2]

/-- The best choice so far. -/
def CandidateScan.choice (s : CandidateScan candidates) : Option TacticalChoice :=
  s.best.map fun b => ⟨s.bestScore, (candidates.get b).candidate⟩

variable (score remaining r) in
/-- The candidate of the index has capacity left, and is that choice for the request. -/
def Available (j : Fin candidates.length) (t : TacticalChoice) : Prop :=
  remaining j ≠ 0 ∧ score r (candidates.get j) = ⟨true, t.score⟩ ∧
    (candidates.get j).candidate = t.candidate

theorem replacesBest_iff {value : ℤ} : replacesBest candidates s value j = true ↔
    ∀ t, s.choice = some t →
      (⟨value, (candidates.get j).candidate⟩ : TacticalChoice).key < t.key := by
  unfold replacesBest CandidateScan.choice
  cases s.best with
  | none => simp
  | some b =>
    simp only [Option.map_some, Option.some.injEq, forall_eq', key_lt_key_iff, Bool.or_eq_true,
      Bool.and_eq_true, decide_eq_true_eq, beq_iff_eq]

variable (score remaining r) in
/-- What the loop keeps: the best of the choices seen, and the candidate that is that choice. -/
structure ScanInv (P : TacticalChoice → Prop) (s : CandidateScan candidates) : Prop where
  /-- The best choice so far. -/
  best : IsBestOf (fun t u => t.key < u.key) P s.choice
  /-- The best index is that choice. -/
  available : ∀ b, s.best = some b →
    Available score remaining r b ⟨s.bestScore, (candidates.get b).candidate⟩

theorem ScanInv.congr {P Q : TacticalChoice → Prop} (h : ScanInv score remaining r P s)
    (hPQ : ∀ t, Q t ↔ P t) : ScanInv score remaining r Q s :=
  ⟨h.best.congr hPQ, h.available⟩

/-- **One candidate is considered.** -/
theorem ScanInv.considerCandidate {P : TacticalChoice → Prop} (h : ScanInv score remaining r P s) :
    ScanInv score remaining r (fun t => P t ∨ Available score remaining r j t)
      (considerCandidate candidates score remaining r s j) := by
  unfold Tess.considerCandidate
  split_ifs with hfull hinfeasible hreplace
  · exact h.congr fun t => or_iff_left fun ha => ha.1 hfull
  · refine h.congr fun t => or_iff_left fun ha => ?_
    rw [ha.2.1] at hinfeasible
    cases hinfeasible
  all_goals
    have hfeasible : (score r (candidates.get j)).feasible = true := by simpa using hinfeasible
    have hscore : score r (candidates.get j) = ⟨true, (score r (candidates.get j)).value⟩ := by
      rw [← hfeasible]
    have havailable : ∀ t, Available score remaining r j t ↔
        t = ⟨(score r (candidates.get j)).value, (candidates.get j).candidate⟩ := by
      intro t
      refine ⟨fun ha => ?_, fun ht => ht ▸ ⟨hfull, hscore, rfl⟩⟩
      rw [ha.2.1, ha.2.2]
    have hPQ : ∀ t, P t ∨ Available score remaining r j t ↔ P t ∨
        t = ⟨(score r (candidates.get j)).value, (candidates.get j).candidate⟩ := fun t =>
      or_congr_right (havailable t)
  · refine ⟨h.best.replace (fun t => lt_irrefl _) (fun t u v => lt_trans) hPQ
      (replacesBest_iff.1 hreplace), ?_⟩
    rintro b ⟨⟩
    exact ⟨hfull, hscore, rfl⟩
  · refine ⟨?_, h.available⟩
    have hbest := h.best
    cases hchoice : s.choice with
    | none => exact absurd (replacesBest_iff.2 (by simp [hchoice])) hreplace
    | some u =>
      rw [hchoice] at hbest
      refine hbest.keep hPQ fun hlt => hreplace (replacesBest_iff.2 fun t ht => ?_)
      rw [hchoice] at ht
      cases ht
      exact hlt

variable (score remaining r) in
/-- **The scan finds the best candidate**, whatever the order of the candidates. -/
theorem bestCandidate_spec : ScanInv score remaining r
    (fun t => ∃ j, Available score remaining r j t)
    (bestCandidate candidates score remaining r) := by
  have key : ∀ (l : List (Fin candidates.length)) (P : TacticalChoice → Prop)
      (s : CandidateScan candidates), ScanInv score remaining r P s →
        ScanInv score remaining r (fun t => P t ∨ ∃ j ∈ l, Available score remaining r j t)
          (l.foldl (considerCandidate candidates score remaining r) s) := by
    intro l
    induction l with
    | nil => exact fun P s h => h.congr fun t => by simp
    | cons j l ih =>
      refine fun P s h => (ih _ _ h.considerCandidate).congr fun t => ?_
      simp only [List.mem_cons, exists_eq_or_imp, or_assoc]
  refine (key (List.finRange candidates.length) (fun _ => False) {} ⟨fun t ht => ht, ?_⟩).congr
    fun t => ?_
  · intro b hb
    cases hb
  · simp only [false_or, List.mem_finRange, true_and]

/-- The candidate of an id is the only one of it. -/
theorem candidateOf_eq_some (hd : (candidates.map TacticalCandidate.candidate).Nodup) :
    candidateOf candidates id = some c ↔ c ∈ candidates ∧ c.candidate = id := by
  constructor
  · intro h
    exact ⟨List.mem_of_find?_eq_some h, by simpa using List.find?_some h⟩
  · rintro ⟨hc, rfl⟩
    cases h : candidateOf candidates c.candidate with
    | none =>
      have hnone := List.find?_eq_none.1 h c hc
      simp at hnone
    | some d =>
      have hid : d.candidate = c.candidate := by simpa using List.find?_some h
      rw [List.inj_on_of_nodup_map hd (List.mem_of_find?_eq_some h) hc hid]

end Scan

/-! ### Service -/

section Service

variable {requests : List TacticalRequest} {candidates : List TacticalCandidate}
  {score : TacticalRequest → TacticalCandidate → TacticalScore} {r r' : TacticalRequest}
  {c : TacticalCandidate} {i : Fin requests.length}

/-- A request compared by descending priority and then by ascending id. -/
def TacticalRequest.serviceKey (r : TacticalRequest) : ℤ ×ₗ ℕ :=
  toLex (-(r.priority : ℤ), r.requester)

theorem tacticalBefore_iff : tacticalBefore r r' = true ↔ r.serviceKey < r'.serviceKey := by
  unfold tacticalBefore TacticalRequest.serviceKey
  rw [Prod.Lex.toLex_lt_toLex, neg_lt_neg_iff, Nat.cast_lt, neg_inj, Nat.cast_inj]
  split_ifs with hne
  · simp only [gt_iff_lt, decide_eq_true_eq, hne, false_and, or_false]
  · rw [not_not] at hne
    simp [hne]

theorem DistinctIds.requester_injective (h : DistinctIds requests candidates)
    {i j : Fin requests.length} (hij : (requests.get i).requester = (requests.get j).requester) :
    i = j := by
  have hget := List.inj_on_of_nodup_map h.requesters (List.get_mem _ i) (List.get_mem _ j) hij
  exact List.nodup_iff_injective_get.1 (List.Nodup.of_map _ h.requesters) hget

theorem DistinctIds.candidate_injective (h : DistinctIds requests candidates)
    {i j : Fin candidates.length}
    (hij : (candidates.get i).candidate = (candidates.get j).candidate) : i = j := by
  have hget := List.inj_on_of_nodup_map h.candidates (List.get_mem _ i) (List.get_mem _ j) hij
  exact List.nodup_iff_injective_get.1 (List.Nodup.of_map _ h.candidates) hget

variable (score) in
/-- **The market is strict** when ids are different. -/
theorem strict_tacticalMarket (h : DistinctIds requests candidates) :
    (tacticalMarket requests candidates score).Strict where
  irrefl i hi := by
    simp only [tacticalMarket, tacticalBefore_iff] at hi
    exact lt_irrefl _ hi
  trans i j k hij hjk := by
    simp only [tacticalMarket, tacticalBefore_iff] at hij hjk ⊢
    exact hij.trans hjk
  total i j hne := by
    simp only [tacticalMarket, tacticalBefore_iff]
    refine lt_or_gt_of_ne fun heq => hne (h.requester_injective ?_)
    simp only [TacticalRequest.serviceKey, EmbeddingLike.apply_eq_iff_eq, Prod.mk.injEq] at heq
    exact heq.2
  better_total t u hne := lt_or_gt_of_ne fun heq => hne (key_injective heq)

theorem tacticalOrder_perm : (tacticalOrder requests).Perm (List.finRange requests.length) :=
  (List.mergeSort_perm _ _).trans (List.mergeSort_perm _ _)

/-- **The order of service.** -/
theorem tacticalOrder_sorted (h : DistinctIds requests candidates) :
    (tacticalOrder requests).Pairwise (tacticalMarket requests candidates score).before := by
  have hsorted := @List.pairwise_mergeSort _
    (fun i j : Fin requests.length => !tacticalBefore (requests.get j) (requests.get i))
    (fun a b c hab hbc => by
      rw [Bool.not_eq_true', Bool.eq_false_iff, ne_eq, tacticalBefore_iff, not_lt] at *
      exact hab.trans hbc)
    (fun a b => by
      rw [Bool.or_eq_true, Bool.not_eq_true', Bool.not_eq_true', Bool.eq_false_iff,
        Bool.eq_false_iff, ne_eq, ne_eq, tacticalBefore_iff, tacticalBefore_iff, not_lt, not_lt]
      exact le_total _ _) (requesterOrder requests)
  have hnodup : (tacticalOrder requests).Nodup :=
    tacticalOrder_perm.nodup_iff.2 (List.nodup_finRange _)
  refine (hsorted.and hnodup).imp fun {i j} hij => ?_
  refine ((strict_tacticalMarket score h).total i j hij.2).resolve_right fun hji => ?_
  have hle := hij.1
  rw [Bool.not_eq_true'] at hle
  rw [show tacticalBefore (requests.get j) (requests.get i) = true from hji] at hle
  cases hle

theorem capacity_tacticalMarket (h : DistinctIds requests candidates)
    (j : Fin candidates.length) : (tacticalMarket requests candidates score).capacity
      (candidates.get j).candidate = (candidates.get j).capacity := by
  have hof := (candidateOf_eq_some (c := candidates.get j) h.candidates).2
    ⟨List.get_mem _ j, rfl⟩
  simp only [tacticalMarket, hof, Option.map_some, Option.getD_some]

variable (requests candidates score) in
/-- What service has reached after some requests: the assignment, and all that goes with it. -/
structure TacticalInv (done : Fin requests.length → Prop) (s : TacticalState requests candidates)
    (f : Fin requests.length → Option TacticalChoice) : Prop where
  /-- Assignments tell the choices. -/
  assignments : ∀ i, s.assignments i = assignmentOf candidates (requests.get i) (f i)
  /-- Nobody else has a candidate. -/
  idle : ∀ i, ¬ done i → f i = none
  /-- What is taken of a candidate and what remains is its capacity. -/
  remaining : ∀ j, s.remaining j +
    ((tacticalMarket requests candidates score).takers f (candidates.get j).candidate).card =
      (candidates.get j).capacity
  /-- **Service is serial choice so far.** -/
  served : (tacticalMarket requests candidates score).ServedOn f done
  /-- Assignments are counted. -/
  count : s.assignedCount = (Finset.univ.filter fun i => (f i).isSome = true).card

variable {done : Fin requests.length → Prop} {s : TacticalState requests candidates}
  {f : Fin requests.length → Option TacticalChoice} {t : TacticalChoice}

/-- All takers have been served before. -/
theorem TacticalInv.earlier_eq (h : TacticalInv requests candidates score done s f)
    (hdone : ∀ j, done j ↔ (tacticalMarket requests candidates score).before j i) (id : ℕ) :
    (tacticalMarket requests candidates score).earlier f i id =
      (tacticalMarket requests candidates score).takers f id := by
  ext j
  rw [mem_earlier, mem_takers, and_iff_right_iff_imp]
  rintro ⟨u, hu, -⟩
  refine (hdone j).1 ?_
  by_contra hnot
  rw [h.idle j hnot] at hu
  cases hu

/-- What is available is open. -/
theorem TacticalInv.available_iff (hd : DistinctIds requests candidates)
    (h : TacticalInv requests candidates score done s f)
    (hdone : ∀ j, done j ↔ (tacticalMarket requests candidates score).before j i) :
    (∃ j, Available score s.remaining (requests.get i) j t) ↔
      (tacticalMarket requests candidates score).Open f i t := by
  rw [Open, h.earlier_eq hdone]
  have hroom : ∀ j : Fin candidates.length, (candidates.get j).candidate = t.candidate →
      (s.remaining j ≠ 0 ↔ ((tacticalMarket requests candidates score).takers f t.candidate).card <
        (tacticalMarket requests candidates score).capacity t.candidate) := by
    intro j hj
    have hsum := h.remaining j
    rw [← hj, capacity_tacticalMarket hd]
    omega
  constructor
  · rintro ⟨j, hfull, hscore, hid⟩
    exact ⟨⟨_, List.get_mem _ j, hid, hscore⟩, (hroom j hid).1 hfull⟩
  · rintro ⟨⟨c, hc, hid, hscore⟩, hlt⟩
    obtain ⟨j, rfl⟩ := List.get_of_mem hc
    exact ⟨j, (hroom j hid).2 hlt, hscore, hid⟩

/-- **One request is served.** -/
theorem TacticalInv.assignRequest (hd : DistinctIds requests candidates)
    (h : TacticalInv requests candidates score done s f)
    (hdone : ∀ j, done j ↔ (tacticalMarket requests candidates score).before j i) :
    ∃ g, TacticalInv requests candidates score (fun j => done j ∨ j = i)
      (assignRequest requests candidates score s i) g := by
  have hM := strict_tacticalMarket score hd
  have hnot : ¬ done i := fun hi => hM.irrefl i ((hdone i).1 hi)
  have hfirst : ∀ j, done j → ∀ d, (tacticalMarket requests candidates score).before d j →
      d ≠ i := by
    rintro j hj d hdj rfl
    exact hM.irrefl d (hM.trans _ _ _ hdj ((hdone j).1 hj))
  have hscan := bestCandidate_spec score s.remaining (requests.get i)
  have hbest := hscan.best.congr fun t => (h.available_iff hd hdone).symm
  unfold Tess.assignRequest
  simp only
  cases hchosen : (bestCandidate candidates score s.remaining (requests.get i)).best with
  | none =>
    rw [CandidateScan.choice, hchosen] at hbest
    refine ⟨f, h.assignments, fun j hj => h.idle j fun hd => hj (.inl hd), h.remaining, ?_, h.count⟩
    refine h.served.snoc (.of_isBestOf (fun _ _ => rfl) ?_) (fun _ _ => rfl) hfirst hnot
    rw [h.idle i hnot]
    exact hbest
  | some b =>
    have havailable := hscan.available b hchosen
    rw [CandidateScan.choice, hchosen, Option.map_some] at hbest
    generalize hchoice : (⟨(bestCandidate candidates score s.remaining (requests.get i)).bestScore,
      (candidates.get b).candidate⟩ : TacticalChoice) = chosen at hbest havailable
    refine ⟨Function.update f i (some chosen), fun j => ?_, fun j hj => ?_, fun j => ?_, ?_, ?_⟩
    · simp only [Function.update_apply]
      split_ifs with hji
      · have hof := (candidateOf_eq_some (c := candidates.get b) hd.candidates).2
          ⟨List.get_mem _ b, rfl⟩
        rw [hji, assignmentOf, ← hchoice]
        simp only [hof, Option.map_some, Option.getD_some]
      · exact h.assignments j
    · rw [not_or] at hj
      rw [Function.update_of_ne hj.2]
      exact h.idle j hj.1
    · -- one less remains of the candidate taken, and of no other
      have hobject : (tacticalMarket requests candidates score).object chosen =
          (candidates.get b).candidate := by
        rw [← hchoice]
        rfl
      have hsum := h.remaining j
      rw [card_takers_update (h.idle i hnot), hobject]
      by_cases hjb : j = b
      · have hpos := havailable.1
        subst hjb
        simp only [Function.update_self, if_true]
        omega
      · have hne : (candidates.get b).candidate ≠ (candidates.get j).candidate := fun heq =>
          hjb (hd.candidate_injective heq.symm)
        simp only [Function.update_of_ne hjb, if_neg hne]
        omega
    · refine h.served.snoc (.of_isBestOf (fun j hj => Function.update_of_ne ?_ ..) ?_)
        (fun j hj => Function.update_of_ne hj ..) hfirst hnot
      · rintro rfl
        exact hM.irrefl _ hj
      · rw [Function.update_self]
        exact hbest
    · rw [card_isSome_update (h.idle i hnot), ← h.count]

variable (score) in
/-- **All requests are served.** -/
theorem tacticalInv_assignRequests (hd : DistinctIds requests candidates) :
    ∃ f, TacticalInv requests candidates score (fun _ => True)
      (assignRequests requests candidates score) f := by
  refine (strict_tacticalMarket score hd).exists_foldl
    (fun i => tacticalOrder_perm.mem_iff.2 (List.mem_finRange i)) (tacticalOrder_sorted hd)
    ⟨fun i => rfl, fun i _ => rfl, fun j => ?_, fun i hi => ?_, by simp⟩
    fun done s f i h hdone => h.assignRequest hd hdone
  · have hnone : (tacticalMarket requests candidates score).takers (fun _ => none)
        (candidates.get j).candidate = ∅ := by
      ext i
      simp [Takes]
    rw [hnone]
    rfl
  · cases hi

end Service

/-! ### The result -/

section Outcome

variable (requests : List TacticalRequest) (candidates : List TacticalCandidate)
  (score : TacticalRequest → TacticalCandidate → TacticalScore)

/-- Requests that an assignment gives the candidate, among those served before the request. -/
def takenBefore (f : Fin requests.length → Option TacticalChoice) (i : Fin requests.length)
    (c : TacticalCandidate) : Finset (Fin requests.length) :=
  Finset.univ.filter fun j => tacticalBefore (requests.get j) (requests.get i) = true ∧
    (f j).map TacticalChoice.candidate = some c.candidate

/-- **What the pass returns** for the assignment of serial choice. -/
structure TacticalOutcome (result : TacticalAssignmentResult)
    (f : Fin requests.length → Option TacticalChoice) : Prop where
  /-- The assignment is that of serial choice. -/
  served : (tacticalMarket requests candidates score).Served f
  /-- Assignments tell the choices. -/
  assignments : result.assignments = List.ofFn fun i =>
    assignmentOf candidates (requests.get i) (f i)
  /-- No candidate is assigned beyond its capacity. -/
  capacity : ∀ c ∈ candidates, (Finset.univ.filter fun i =>
    (f i).map TacticalChoice.candidate = some c.candidate).card ≤ c.capacity
  /-- Who has a candidate has a feasible one with capacity left, and of these the one of least
  score, and of least id among equal scores. -/
  best : ∀ i t, f i = some t → ∃ c ∈ candidates, c.candidate = t.candidate ∧
    score (requests.get i) c = ⟨true, t.score⟩ ∧ (takenBefore requests f i c).card < c.capacity ∧
    ∀ d ∈ candidates, (score (requests.get i) d).feasible = true →
      (takenBefore requests f i d).card < d.capacity →
        t.score < (score (requests.get i) d).value ∨
          t.score = (score (requests.get i) d).value ∧ c.candidate ≤ d.candidate
  /-- Who has none finds every feasible candidate taken up by those served before. -/
  unassigned : ∀ i, f i = none → ∀ c ∈ candidates, (score (requests.get i) c).feasible = true →
    (takenBefore requests f i c).card = c.capacity
  /-- Assignments are counted. -/
  count : result.assignedCount = (Finset.univ.filter fun i => (f i).isSome = true).card
  /-- The aggregate outcome. -/
  status : result.status =
    if result.assignedCount = requests.length then .complete else .partially

variable {requests candidates score}

theorem takes_tacticalMarket {f : Fin requests.length → Option TacticalChoice}
    {i : Fin requests.length} {id : ℕ} : (tacticalMarket requests candidates score).Takes f i id ↔
      (f i).map TacticalChoice.candidate = some id := by
  simp [Takes, tacticalMarket, Option.map_eq_some_iff]

variable (score) in
theorem card_takenBefore (f : Fin requests.length → Option TacticalChoice)
    (i : Fin requests.length) (c : TacticalCandidate) : (takenBefore requests f i c).card =
      ((tacticalMarket requests candidates score).earlier f i c.candidate).card := by
  congr 1
  ext j
  rw [mem_earlier, takes_tacticalMarket, takenBefore, Finset.mem_filter]
  exact and_iff_right (Finset.mem_univ j)

variable (score) in
theorem capacity_of_mem (hd : DistinctIds requests candidates) {c : TacticalCandidate}
    (hc : c ∈ candidates) :
    (tacticalMarket requests candidates score).capacity c.candidate = c.capacity := by
  obtain ⟨j, rfl⟩ := List.get_of_mem hc
  exact capacity_tacticalMarket hd j

/-- A feasible candidate with capacity left is open. -/
theorem open_of_mem (hd : DistinctIds requests candidates)
    {f : Fin requests.length → Option TacticalChoice} {i : Fin requests.length}
    {c : TacticalCandidate} (hc : c ∈ candidates)
    (hfeasible : (score (requests.get i) c).feasible = true)
    (hroom : (takenBefore requests f i c).card < c.capacity) :
    (tacticalMarket requests candidates score).Open f i
      ⟨(score (requests.get i) c).value, c.candidate⟩ := by
  refine ⟨⟨c, hc, rfl, by rw [← hfeasible]⟩, ?_⟩
  rw [card_takenBefore score] at hroom
  exact hroom.trans_eq (capacity_of_mem score hd hc).symm

variable (score) in
/-- **The pass is serial choice.** -/
theorem exists_tacticalOutcome (hd : DistinctIds requests candidates) :
    ∃ f, TacticalOutcome requests candidates score
      { status := if (assignRequests requests candidates score).assignedCount = requests.length then
          .complete else .partially
        assignedCount := (assignRequests requests candidates score).assignedCount
        assignments := List.ofFn (assignRequests requests candidates score).assignments } f := by
  have hM := strict_tacticalMarket score hd
  obtain ⟨f, hf⟩ := tacticalInv_assignRequests score hd
  have hserved : (tacticalMarket requests candidates score).Served f := fun i => hf.served i trivial
  have hcap : ∀ c ∈ candidates, (Finset.univ.filter fun i =>
      (f i).map TacticalChoice.candidate = some c.candidate).card ≤ c.capacity := by
    intro c hc
    rw [← capacity_of_mem score hd hc]
    refine le_of_eq_of_le (congrArg Finset.card ?_) (hserved.card_takers_le hM c.candidate)
    ext i
    rw [mem_takers, takes_tacticalMarket, Finset.mem_filter]
    exact and_iff_right (Finset.mem_univ i)
  refine ⟨f, hserved, congrArg List.ofFn (funext hf.assignments), hcap, fun i t ht => ?_,
    fun i hi c hc hfeasible => le_antisymm ?_ ?_, hf.count, rfl⟩
  · obtain ⟨⟨⟨c, hc, hid, hscore⟩, hroom⟩, hbest⟩ := (hserved i).1 t ht
    refine ⟨c, hc, hid, hscore, ?_, fun d hdmem hfeasible hroomd => ?_⟩
    · rw [card_takenBefore score, hid, ← capacity_of_mem score hd hc, hid]
      exact hroom
    · have hnot :
          ¬ (⟨(score (requests.get i) d).value, d.candidate⟩ : TacticalChoice).key < t.key :=
        hbest _ (open_of_mem hd hdmem hfeasible hroomd)
      rw [key_lt_key_iff] at hnot
      rw [hid]
      simp only at hnot
      omega
  · refine (Finset.card_le_card fun j hj => ?_).trans (hcap c hc)
    rw [takenBefore, Finset.mem_filter] at hj
    exact Finset.mem_filter.2 ⟨Finset.mem_univ j, hj.2.2⟩
  · by_contra hlt
    exact (hserved i).2 hi _ (open_of_mem hd hc hfeasible (not_le.1 hlt))

/-- **Duplicate ids are rejected.** -/
theorem assignTacticalCandidatesGreedy_invalid (h : ¬ DistinctIds requests candidates) :
    assignTacticalCandidatesGreedy requests candidates score = ⟨.invalidInput, 0, []⟩ := by
  unfold assignTacticalCandidatesGreedy
  split_ifs with hr hc
  · rfl
  · rfl
  · rw [Bool.not_eq_true] at hr hc
    exact absurd ⟨(equalNeighbors_mergeSort TacticalRequest.requester requests).1 hr,
      (equalNeighbors_mergeSort TacticalCandidate.candidate candidates).1 hc⟩ h

theorem assignTacticalCandidatesGreedy_valid (h : DistinctIds requests candidates) :
    assignTacticalCandidatesGreedy requests candidates score =
      { status := if (assignRequests requests candidates score).assignedCount = requests.length then
          .complete else .partially
        assignedCount := (assignRequests requests candidates score).assignedCount
        assignments := List.ofFn (assignRequests requests candidates score).assignments } := by
  unfold assignTacticalCandidatesGreedy requesterOrder candidateOrder
  rw [(equalNeighbors_mergeSort TacticalRequest.requester requests).2 h.requesters,
    (equalNeighbors_mergeSort TacticalCandidate.candidate candidates).2 h.candidates]
  rfl

/-! ### The order of the input -/

variable {requests' : List TacticalRequest} {candidates' : List TacticalCandidate}

theorem DistinctIds.perm (h : DistinctIds requests candidates) (hr : requests'.Perm requests)
    (hc : candidates'.Perm candidates) : DistinctIds requests' candidates' :=
  ⟨(hr.map _).nodup_iff.2 h.requesters, (hc.map _).nodup_iff.2 h.candidates⟩

theorem candidateOf_perm (h : DistinctIds requests candidates) (hc : candidates'.Perm candidates) :
    candidateOf candidates' = candidateOf candidates := by
  funext id
  ext c
  rw [candidateOf_eq_some h.candidates,
    candidateOf_eq_some ((hc.map TacticalCandidate.candidate).nodup_iff.2 h.candidates),
    hc.mem_iff]

/-- The places of the requests in two lists of them. -/
theorem exists_equiv_get (h : requests.Nodup) (hr : requests'.Perm requests) :
    ∃ e : Fin requests.length ≃ Fin requests'.length,
      ∀ i, requests'.get (e i) = requests.get i := by
  have hnodup' : requests'.Nodup := hr.nodup_iff.2 h
  let e := (h.getEquiv requests).trans
    ((Equiv.subtypeEquivRight fun r => hr.mem_iff.symm).trans (hnodup'.getEquiv requests').symm)
  refine ⟨e, fun i => ?_⟩
  have hget := (hnodup'.getEquiv requests').apply_symm_apply
    ⟨requests.get i, hr.mem_iff.2 (List.get_mem _ i)⟩
  exact congrArg Subtype.val hget

/-- **Serial choice does not read the order of the input.** -/
theorem TacticalOutcome.eq_perm {result result' : TacticalAssignmentResult}
    {f : Fin requests.length → Option TacticalChoice}
    {f' : Fin requests'.length → Option TacticalChoice} (hd : DistinctIds requests candidates)
    (hc : candidates'.Perm candidates)
    (h : TacticalOutcome requests candidates score result f)
    (h' : TacticalOutcome requests' candidates' score result' f')
    {e : Fin requests.length ≃ Fin requests'.length}
    (he : ∀ i, requests'.get (e i) = requests.get i) (i : Fin requests.length) :
    f i = f' (e i) := by
  refine h.served.congr e (strict_tacticalMarket score hd) h'.served (fun i j => ?_) (fun i t => ?_)
    rfl (fun t u => Iff.rfl) ?_ i
  · simp only [tacticalMarket, he]
  · simp only [tacticalMarket, he, hc.mem_iff]
  · simp only [tacticalMarket, candidateOf_perm hd hc]

/-- **The greedy pass**: exactly duplicate ids are rejected, other input is resolved by serial
choice, and the order of the requests and of the candidates does not matter. -/
theorem assignTacticalCandidatesGreedy_spec (requests : List TacticalRequest)
    (candidates : List TacticalCandidate)
    (score : TacticalRequest → TacticalCandidate → TacticalScore) :
    (¬ DistinctIds requests candidates →
      assignTacticalCandidatesGreedy requests candidates score = ⟨.invalidInput, 0, []⟩) ∧
    (DistinctIds requests candidates →
      (assignTacticalCandidatesGreedy requests candidates score).status ≠ .invalidInput ∧
      ∃ f, TacticalOutcome requests candidates score
        (assignTacticalCandidatesGreedy requests candidates score) f) ∧
    ∀ (requests' : List TacticalRequest) (candidates' : List TacticalCandidate),
      requests'.Perm requests → candidates'.Perm candidates →
      (assignTacticalCandidatesGreedy requests' candidates' score).status =
        (assignTacticalCandidatesGreedy requests candidates score).status ∧
      (assignTacticalCandidatesGreedy requests' candidates' score).assignedCount =
        (assignTacticalCandidatesGreedy requests candidates score).assignedCount ∧
      ∀ (i : Fin requests.length) (j : Fin requests'.length), requests'.get j = requests.get i →
        (assignTacticalCandidatesGreedy requests' candidates' score).assignments[j.val]? =
          (assignTacticalCandidatesGreedy requests candidates score).assignments[i.val]? := by
  refine ⟨assignTacticalCandidatesGreedy_invalid, fun hd => ?_,
    fun requests' candidates' hr hc => ?_⟩
  · rw [assignTacticalCandidatesGreedy_valid hd]
    refine ⟨?_, exists_tacticalOutcome score hd⟩
    simp only
    split_ifs
    · exact TacticalAssignmentStatus.noConfusion
    · exact TacticalAssignmentStatus.noConfusion
  · by_cases hd : DistinctIds requests candidates
    · have hd' := hd.perm hr hc
      obtain ⟨f, hf⟩ := exists_tacticalOutcome score hd
      obtain ⟨f', hf'⟩ := exists_tacticalOutcome score hd'
      rw [← assignTacticalCandidatesGreedy_valid hd] at hf
      rw [← assignTacticalCandidatesGreedy_valid hd'] at hf'
      obtain ⟨e, he⟩ := exists_equiv_get (List.Nodup.of_map _ hd.requesters) hr
      have hsame := hf.eq_perm hd hc hf' he
      have hcount : (assignTacticalCandidatesGreedy requests' candidates' score).assignedCount =
          (assignTacticalCandidatesGreedy requests candidates score).assignedCount := by
        rw [hf.count, hf'.count]
        refine (Finset.card_equiv e fun i => ?_).symm
        rw [Finset.mem_filter, Finset.mem_filter, hsame]
        simp
      refine ⟨?_, hcount, fun i j hij => ?_⟩
      · rw [hf.status, hf'.status, hcount, hr.length_eq]
      · have hj : j = e i := hd'.requester_injective (by rw [he, hij])
        subst hj
        rw [hf.assignments, hf'.assignments, List.getElem?_ofFn, List.getElem?_ofFn,
          dif_pos (e i).isLt, dif_pos i.isLt]
        simp only [Fin.eta, ← hsame, he]
        unfold assignmentOf
        rw [candidateOf_perm hd hc]
    · have hd' : ¬ DistinctIds requests' candidates' := fun h => hd (h.perm hr.symm hc.symm)
      rw [assignTacticalCandidatesGreedy_invalid hd, assignTacticalCandidatesGreedy_invalid hd']
      exact ⟨rfl, rfl, fun i j _ => rfl⟩

end Outcome

/-- Two requests of the same priority. -/
def twoRequests : List TacticalRequest := [{ requester := 2 }, { requester := 1 }]

/-- One candidate for one of them. -/
def oneCandidate : List TacticalCandidate := [{ candidate := 7 }]

theorem distinctIds_twoRequests : DistinctIds twoRequests oneCandidate := ⟨by decide, by decide⟩

/-- Two requests for one candidate that is feasible for both, in either order. -/
theorem assignTacticalCandidatesGreedy_spec_two :
    (∃ f, TacticalOutcome twoRequests oneCandidate (fun _ _ => ⟨true, 0⟩)
      (assignTacticalCandidatesGreedy twoRequests oneCandidate fun _ _ => ⟨true, 0⟩) f) ∧
    (assignTacticalCandidatesGreedy twoRequests.reverse oneCandidate
        fun _ _ => ⟨true, 0⟩).assignments[1]? =
      (assignTacticalCandidatesGreedy twoRequests oneCandidate
        fun _ _ => ⟨true, 0⟩).assignments[0]? := by
  obtain ⟨-, hvalid, hperm⟩ :=
    assignTacticalCandidatesGreedy_spec twoRequests oneCandidate fun _ _ => ⟨true, 0⟩
  refine ⟨(hvalid distinctIds_twoRequests).2, ?_⟩
  exact (hperm twoRequests.reverse oneCandidate (List.reverse_perm _) (List.Perm.refl _)).2.2
    ⟨0, by decide⟩ ⟨1, by decide⟩ rfl

end Tess
