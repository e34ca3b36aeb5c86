import Tess.Path.FieldPath
import Tess.Path.Sparse

/-!
# What weighted fields answer

A field is built once and read for many starts.  A read answers for the routes that stay where the
build was allowed to go.

* `StepWithin` : a legal step with both ends admitted;
* `FieldAnswer` : **what a read answers**, given the outcome of the build;
* `FieldBuilt.answer` : the reader answers so after a build;
* `weightedField_exact`, `weightedField_sparseSound`, `boxField_exact` : the two weighted builds.
-/

namespace Tess

open Graphs

section Definitions

variable {S : Shape} {Tag : Type*} (W : World S Tag) (cls : MovementClass S Tag)
  (prov : Provider S Tag) (admits : Coord3 → Bool)

/-- A legal step between admitted tiles. -/
def StepWithin (a b : Coord3) (k : ℕ) : Prop :=
  admits a = true ∧ admits b = true ∧ LegalStep W cls prov a b k

/-- What the outcome of a build says about its goal and about the steps of the field. -/
structure FieldOutcome (step : Coord3 → Coord3 → ℕ → Prop) (policy : MissingChunkPolicy)
    (goal : Coord3) (built : PathStatus) : Prop where
  /-- There is no other outcome. -/
  status : built = .found ∨ built = .costOverflow ∨ built = .invalidGoal ∨
    (built = .indeterminate ∧ policy = .reportIndeterminate)
  /-- A goal that can be entered and is admitted is not invalid. -/
  invalidGoal : built = .invalidGoal → enterable W cls goal = false ∨ admits goal = false
  /-- An overflow has a route that reaches the sentinel. -/
  costOverflow : built = .costOverflow → ∃ c C, infiniteCost ≤ C ∧ Reaches step c goal C

/-- **What a read answers** about the routes of the field, given the outcome of the build. -/
structure FieldAnswer (step : Coord3 → Coord3 → ℕ → Prop) (request : PathRequest)
    (built : PathStatus) (r : PathResult) : Prop where
  /-- A path is a cheapest route. -/
  found : r.status = .found → enterable W cls request.start = true ∧
    IsRoute step r.path request.start request.goal r.cost ∧
      ∀ C, Reaches step request.start request.goal C → r.cost ≤ C
  /-- Every route below the sentinel is found, also in an indeterminate field. -/
  known : built = .found ∨ built = .indeterminate → enterable W cls request.start = true →
    ∀ C < infiniteCost, Reaches step request.start request.goal C → r.status = .found
  /-- A found field decides for every start. -/
  decided : built = .found → enterable W cls request.start = true →
    (r.status = .found ∧ ∃ C, Reaches step request.start request.goal C) ∨
      (r.status = .noPath ∧ ∀ C, ¬ Reaches step request.start request.goal C)
  /-- Nothing else denies a route. -/
  noPath : r.status = .noPath → built = .found ∧ enterable W cls request.start = true
  /-- A build that failed leaves nothing to read. -/
  failed : built ≠ .found → built ≠ .indeterminate →
    r.status = .notComputed ∨ r.status = .invalidStart ∨ r.status = .invalidGoal

end Definitions

section Reads

variable {S : Shape} {Tag : Type*} {W : FieldWorld S Tag} {M : FieldModel S Tag}
  {cls : MovementClass S Tag} {prov : Provider S Tag} {admits : Coord3 → Bool}
  {policy : MissingChunkPolicy} {request : PathRequest} {goal a b c : Coord3}
  {s scratch : DistanceFieldScratch} {C : ℕ} {verify : Bool}
  {built : DistanceFieldResult × DistanceFieldScratch}

theorem stepWithin_all {W : World S Tag} :
    StepWithin W cls prov (fun _ => true) = LegalStep W cls prov := by
  funext a b k
  simp [StepWithin]

/-- A route between admitted tiles, read from its end, follows the edges of the field. -/
theorem reaches_fieldEdge {W : World S Tag} (ha : isPassable W cls a = true)
    (h : Reaches (StepWithin W cls prov admits) a b C) :
    Reaches (FieldEdge W cls prov admits) b a C := by
  obtain ⟨l, hl⟩ := h
  have hpass : ∀ c ∈ l, isPassable W cls c = true :=
    hl.forall_mem ha fun _ _ _ hs _ => hs.2.2.isPassable
  exact ⟨l.reverse, hl.restrict.reverse.mono fun _ v _ ⟨hs, hv, _⟩ =>
    ⟨hs.1, hpass v hv, hs.2.2⟩⟩

/-- The edges of the field, read from the other end, make a route between admitted tiles. -/
theorem reaches_stepWithin {W : World S Tag} (hb : admits b = true)
    (h : Reaches (FieldEdge W cls prov admits) b a C) :
    Reaches (StepWithin W cls prov admits) a b C := by
  obtain ⟨l, hl⟩ := h
  have hadmits : ∀ c ∈ l, admits c = true := hl.forall_mem hb fun _ _ _ he _ => he.1
  exact ⟨l.reverse, hl.restrict.reverse.mono fun u v _ ⟨he, hv, hu⟩ =>
    ⟨hadmits u hu, hadmits v hv, he.2.2⟩⟩

/-- Labelled tiles are admitted. -/
theorem IsField.admitted {W : World S Tag} (F : IsField W cls prov admits goal s)
    (hgoal : admits goal = true) (hc : fieldLabel W s c < infiniteCost) : admits c = true := by
  by_cases h : c = goal
  · rw [h]
    exact hgoal
  · obtain ⟨b, k, he, -⟩ := F.led c hc h
    exact he.1

/-- **Reading the labels of a field**: an unlabelled start is reported as such, and from a
labelled one the reader finds a route whose cost is the label. -/
theorem readLabels_spec (F : IsField W.toWorld M.cls M.prov admits request.goal s)
    (hgoal : admits request.goal = true) (hstart : W.Resident request.start) :
    (infiniteCost ≤ fieldLabel W.toWorld s request.start ∧
      (readLabels W.toWorld M request s).1.status = s.unresolvedPathStatus) ∨
    (fieldLabel W.toWorld s request.start < infiniteCost ∧
      (readLabels W.toWorld M request s).1.status = .found ∧
      (readLabels W.toWorld M request s).1.cost = fieldLabel W.toWorld s request.start ∧
      IsRoute (StepWithin W.toWorld M.cls M.prov admits) (readLabels W.toWorld M request s).1.path
        request.start request.goal (fieldLabel W.toWorld s request.start)) := by
  unfold readLabels
  dsimp only
  rw [← fieldLabel_of_resident hstart]
  by_cases heq : fieldLabel W.toWorld s request.start = infiniteCost
  · rw [if_pos heq]
    exact Or.inl ⟨heq.ge, rfl⟩
  · rw [if_neg heq]
    have hlt := lt_of_le_of_ne (F.label_le _) heq
    obtain ⟨path', hrun⟩ := exists_descend F hlt le_rfl
    obtain ⟨l, e, rfl, he, hl⟩ := descend_route hlt hrun
    obtain rfl := F.eq_goal he
    rw [hrun]
    exact Or.inr ⟨hlt, rfl, rfl, hl.mono fun u v k ⟨hs, hu, hv⟩ =>
      ⟨F.admitted hgoal hu, F.admitted hgoal hv, hs⟩⟩

/-- What an unlabelled start of a field means. -/
theorem FieldBuilt.answer_unlabelled {r : PathResult}
    (h : FieldBuilt W M admits policy request.goal built) (hg : built.2.hasGoal = true)
    (hs : enterable W.toWorld M.cls request.start = true)
    (hinf : infiniteCost ≤ fieldLabel W.toWorld built.2 request.start)
    (hr : r.status = built.2.unresolvedPathStatus) :
    FieldAnswer W.toWorld M.cls (StepWithin W.toWorld M.cls M.prov admits) request built.1.status
      r := by
  obtain ⟨-, -, -, F, hstatus⟩ := h.readable hg
  have hpass := (enterable_iff.1 hs).1
  -- a route below the sentinel would have labelled the start
  have hnone (C : ℕ) (hC : C < infiniteCost) : ¬ Reaches (StepWithin W.toWorld M.cls M.prov
      admits) request.start request.goal C := fun hroute =>
    absurd hinf (not_le.2 ((F.least _ C (reaches_fieldEdge hpass hroute) hC).trans_lt hC))
  have hopen : built.1.status = .found ∨ built.1.status = .indeterminate := by
    by_contra hne
    obtain ⟨h1, h2⟩ := not_or.1 hne
    rw [h.unread h1 h2] at hg
    cases hg
  unfold DistanceFieldScratch.unresolvedPathStatus at hr
  rw [hstatus] at hr
  rcases hopen with hb | hb
  · rw [hb, if_neg (by decide), if_pos rfl] at hr
    refine ⟨fun hf => ?_, fun _ _ C hC hroute => absurd hroute (hnone C hC),
      fun _ _ => Or.inr ⟨hr, fun C hroute => ?_⟩, fun _ => ⟨hb, hs⟩, fun hne => absurd hb hne⟩
    · rw [hr] at hf
      cases hf
    · exact absurd hinf (not_le.2 ((h.found hb).2.1 _ C (reaches_fieldEdge hpass hroute)))
  · rw [hb, if_pos rfl] at hr
    refine ⟨fun hf => ?_, fun _ _ C hC hroute => absurd hroute (hnone C hC), fun hne => ?_,
      fun hn => ?_, fun _ hne => absurd hb hne⟩
    · rw [hr] at hf
      cases hf
    · rw [hb] at hne
      cases hne
    · rw [hr] at hn
      cases hn

/-- What a route that accounts for the label of the start means. -/
theorem FieldBuilt.answer_labelled {r : PathResult}
    (h : FieldBuilt W M admits policy request.goal built) (hg : built.2.hasGoal = true)
    (hs : enterable W.toWorld M.cls request.start = true)
    (hlt : fieldLabel W.toWorld built.2 request.start < infiniteCost)
    (hfound : r.status = .found) (hcost : r.cost = fieldLabel W.toWorld built.2 request.start)
    (hroute : IsRoute (StepWithin W.toWorld M.cls M.prov admits) r.path request.start
      request.goal r.cost) :
    FieldAnswer W.toWorld M.cls (StepWithin W.toWorld M.cls M.prov admits) request built.1.status
      r := by
  obtain ⟨-, -, -, F, -⟩ := h.readable hg
  have hpass := (enterable_iff.1 hs).1
  refine ⟨fun _ => ⟨hs, hroute, fun C hr => ?_⟩, fun _ _ _ _ _ => hfound,
    fun _ _ => Or.inl ⟨hfound, _, _, hroute⟩, fun hn => ?_, fun h1 h2 => ?_⟩
  · rw [hcost]
    exact (lt_or_ge C infiniteCost).elim (F.least _ C (reaches_fieldEdge hpass hr)) hlt.le.trans
  · rw [hfound] at hn
    cases hn
  · rw [h.unread h1 h2] at hg
    cases hg

/-- What a read means that looks at no label. -/
theorem FieldBuilt.answer_unread {r : PathResult}
    (h : FieldBuilt W M admits policy request.goal built)
    (hclosed : enterable W.toWorld M.cls request.start = false ∨ built.2.hasGoal = false)
    (hne : r.status ≠ .found ∧ r.status ≠ .noPath)
    (hfailed : built.2.hasGoal = false →
      r.status = .notComputed ∨ r.status = .invalidStart ∨ r.status = .invalidGoal) :
    FieldAnswer W.toWorld M.cls (StepWithin W.toWorld M.cls M.prov admits) request built.1.status
      r := by
  refine ⟨fun hf => absurd hf hne.1, fun hb hs C hC hr => ?_, fun hb hs => ?_,
    fun hn => absurd hn hne.2, fun h1 h2 => hfailed (h.unread h1 h2)⟩
  -- the goal of an indeterminate field that may not be read is not resident
  · have hg : built.2.hasGoal = false := by simpa [hs] using hclosed
    rcases hb with hb | hb
    · rw [(h.found hb).1] at hg
      cases hg
    · obtain ⟨l, hl⟩ := hr
      have hpass : isPassable W.toWorld M.cls request.goal = true :=
        hl.forall_mem (enterable_iff.1 hs).1 (fun _ _ _ hstep _ => hstep.2.2.isPassable) _
          hl.right_mem
      exact absurd (resident_of_isPassable hpass) (h.unresident hb hg)
  · rw [hs, (h.found hb).1] at hclosed
    simp at hclosed

/-! ### The reader -/

/-- The checks of the reader fail with neither a path nor a denial of one. -/
theorem fieldReadFailure_ne {status : PathStatus}
    (h : fieldReadFailure W M verify request s = some status) :
    status ≠ .found ∧ status ≠ .noPath := by
  unfold fieldReadFailure at h
  split_ifs at h <;> simp only [Option.some.injEq] at h <;> subst h <;> decide

/-- Nothing is read without a goal. -/
theorem fieldReadFailure_of_not_hasGoal (h : s.hasGoal = false) :
    ∃ status, fieldReadFailure W M verify request s = some status ∧
      (status = .notComputed ∨ status = .invalidStart ∨ status = .invalidGoal) := by
  unfold fieldReadFailure
  by_cases h1 : (!S.contains request.start) = true
  · exact ⟨_, if_pos h1, Or.inr (Or.inl rfl)⟩
  by_cases h2 : (!S.contains request.goal) = true
  · rw [if_neg h1, if_pos h2]
    exact ⟨_, rfl, Or.inr (Or.inr rfl)⟩
  · rw [if_neg h1, if_neg h2, if_pos (Or.inl (by simp [h]))]
    exact ⟨_, rfl, Or.inl rfl⟩

/-- The checks pass between a start that can be walked on and the goal of a stamped field. -/
theorem fieldReadFailure_eq_none (hstamped : Stamped W M request.goal s)
    (hs : isPassable W.toWorld M.cls request.start = true)
    (hg : S.contains request.goal = true) : fieldReadFailure W M verify request s = none := by
  obtain ⟨h1, h2, h3, h4⟩ := hstamped
  have hc := contains_of_isPassable hs
  have hr := (isResidentIndex_tileKey hc).2 (resident_of_isPassable hs)
  have hm : s.modelMatches M = true := by simp [DistanceFieldScratch.modelMatches, h3]
  unfold fieldReadFailure
  simp [hc, hg, h1, h2, hm, h4, hr, hs]

/-- What passes the checks can be walked on. -/
theorem isPassable_of_fieldReadFailure (h : fieldReadFailure W M verify request s = none) :
    isPassable W.toWorld M.cls request.start = true := by
  unfold fieldReadFailure at h
  split_ifs at h with h1 h2 h3 h4 h5
  simpa using h5

/-- A start that cannot be entered is never read. -/
theorem weightedDistanceFieldPathCore_closed
    (h : enterable W.toWorld M.cls request.start = false) :
    (weightedDistanceFieldPathCore W M verify request scratch).1.status ≠ .found ∧
      (weightedDistanceFieldPathCore W M verify request scratch).1.status ≠ .noPath := by
  unfold weightedDistanceFieldPathCore
  dsimp only
  cases hf : fieldReadFailure W M verify request (scratch.setPath []) with
  | some status => exact fieldReadFailure_ne hf
  | none =>
    have hp := isPassable_of_fieldReadFailure hf
    have he : entryCostAt W.toWorld M.cls request.start = 0 := by
      simpa [enterable, hp] using h
    dsimp only
    rw [tileEntryCostIndex_tileKey (contains_of_isPassable hp), if_pos he]
    constructor <;> intro h <;> cases h

/-- A scratch without a goal is not read. -/
theorem weightedDistanceFieldPathCore_unread (h : scratch.hasGoal = false) :
    (weightedDistanceFieldPathCore W M verify request scratch).1.status = .notComputed ∨
      (weightedDistanceFieldPathCore W M verify request scratch).1.status = .invalidStart ∨
        (weightedDistanceFieldPathCore W M verify request scratch).1.status = .invalidGoal := by
  have h : (scratch.setPath []).hasGoal = false := h
  obtain ⟨status, hf, hstatus⟩ := @fieldReadFailure_of_not_hasGoal _ _ W M request _ verify h
  unfold weightedDistanceFieldPathCore
  dsimp only
  rw [hf]
  exact hstatus

/-- Otherwise the labels are read. -/
theorem weightedDistanceFieldPathCore_read (hstamped : Stamped W M request.goal scratch)
    (hs : enterable W.toWorld M.cls request.start = true)
    (hg : S.contains request.goal = true) :
    weightedDistanceFieldPathCore W M verify request scratch =
      readLabels W.toWorld M request (scratch.setPath []) := by
  obtain ⟨hp, he⟩ := enterable_iff.1 hs
  unfold weightedDistanceFieldPathCore
  dsimp only
  have hstamped' : Stamped W M request.goal (scratch.setPath []) := hstamped.congr rfl rfl rfl rfl
  rw [fieldReadFailure_eq_none hstamped' hp hg]
  dsimp only
  rw [tileEntryCostIndex_tileKey (contains_of_isPassable hp), if_neg he]

variable (verify) in
/-- **The reader answers** for the routes of the field. -/
theorem FieldBuilt.answer (h : FieldBuilt W M admits policy request.goal built) :
    FieldAnswer W.toWorld M.cls (StepWithin W.toWorld M.cls M.prov admits) request built.1.status
      (weightedDistanceFieldPathCore W M verify request built.2).1 := by
  by_cases hs : enterable W.toWorld M.cls request.start = false
  · exact h.answer_unread (Or.inl hs) (weightedDistanceFieldPathCore_closed hs)
      weightedDistanceFieldPathCore_unread
  by_cases hg : built.2.hasGoal = false
  · refine h.answer_unread (Or.inr hg) ?_ weightedDistanceFieldPathCore_unread
    have hunread := @weightedDistanceFieldPathCore_unread _ _ W M request built.2 verify hg
    rcases hunread with hr | hr | hr <;> rw [hr] <;> decide
  rw [Bool.not_eq_false] at hs hg
  obtain ⟨henter, hadmits, hstamped, F, -⟩ := h.readable hg
  have hF : IsField W.toWorld M.cls M.prov admits request.goal (built.2.setPath []) :=
    ⟨F.goal_label, F.label_le, F.led, F.least⟩
  rw [weightedDistanceFieldPathCore_read hstamped hs
    (contains_of_isPassable (enterable_iff.1 henter).1)]
  rcases readLabels_spec hF hadmits (resident_of_isPassable (enterable_iff.1 hs).1) with
    ⟨hinf, hr⟩ | ⟨hlt, hf, hcost, hroute⟩
  · exact h.answer_unlabelled hg hs hinf hr
  · exact h.answer_labelled hg hs hlt hf hcost (hcost ▸ hroute)

/-! ### The builds -/

/-- What the status of a build says. -/
theorem FieldBuilt.outcome (h : FieldBuilt W M admits policy goal built) :
    FieldOutcome W.toWorld M.cls admits (StepWithin W.toWorld M.cls M.prov admits) policy goal
      built.1.status := by
  refine ⟨h.status, h.invalidGoal, fun ho => ?_⟩
  obtain ⟨hadmits, c, C, hC, hr⟩ := h.costOverflow ho
  exact ⟨c, C, hC, reaches_stepWithin hadmits hr⟩

/-- A found field whose tiles are all admitted is not left in any completion, unless it touches a
missing chunk. -/
theorem FieldBuilt.not_reaches (h : FieldBuilt W M (fun _ => true) .reportIndeterminate
      request.goal built) (hprov : M.prov.Mirrored) (hann : M.prov.AnnouncesReverse)
    (hsp : W.residency = .sparseResident) (hb : built.1.status = .found)
    (hs : isPassable W.toWorld M.cls request.start = true)
    (hno : ∀ C, ¬ Reaches (LegalStep W.toWorld M.cls M.prov) request.start request.goal C)
    {W' : World S Tag} (hW : W'.Completes W.toWorld) :
    ¬ Reaches (LegalStep W' M.cls M.prov) request.start request.goal C := by
  intro hr
  obtain ⟨hg, hall, hmissing⟩ := h.found hb
  obtain ⟨hgoal, -, -, F, -⟩ := h.readable hg
  have hs' : isPassable W' M.cls request.start = true := by
    rwa [isPassable_of_completes hW (resident_of_isPassable hs)]
  rw [← stepWithin_all] at hr
  -- the labelled tiles are the ones that the route does not leave
  have hzero : fieldLabel W.toWorld built.2 request.goal < infiniteCost := by
    rw [F.goal_label]
    exact infiniteCost_pos
  have hstart : ¬ (isPassable W.toWorld M.cls request.start = true ∧
      fieldLabel W.toWorld built.2 request.start < infiniteCost) := fun hstart => by
    refine hno (fieldLabel W.toWorld built.2 request.start) ?_
    rw [← stepWithin_all]
    exact reaches_stepWithin rfl (F.reaches hstart.2)
  -- a route of the completion leaves the labelled tiles somewhere
  obtain ⟨u, v, k, -, -, -, hu, he, hv, -⟩ := (reaches_fieldEdge hs' hr).exists_crossing
    (P := fun c => isPassable W.toWorld M.cls c = true ∧
      fieldLabel W.toWorld built.2 c < infiniteCost) ⟨(enterable_iff.1 hgoal).1, hzero⟩ hstart
  rcases reverseStep_or_missing hW hprov hann hu.1 he.2 with hstep | ⟨p, hp, hm⟩
  · exact hv ⟨hstep.1, hall v _ ((F.reaches hu.2).tail ⟨rfl, hstep⟩)⟩
  · exact hmissing hsp rfl u hu.2 p hp rfl hm

variable (W M policy request scratch verify)

/-- **Under the reporting policy the answers hold in every completion** of a sparse world. -/
theorem weightedField_sparseSound (hsp : W.residency = .sparseResident)
    (hprov : M.prov.Mirrored) (hann : M.prov.AnnouncesReverse)
    (hmissing : M.prov.ReportsMissing) :
    SparseSound W.toWorld M.cls M.prov request
      (weightedDistanceFieldPathCore W M verify request
        (buildWeightedDistanceField W M .reportIndeterminate request.goal scratch).2).1 := by
  have h := buildHeapField_spec W M (fun _ => true) request.goal scratch .reportIndeterminate hprov
  have hanswer := h.answer verify
  rw [stepWithin_all] at hanswer
  refine ⟨fun hn W' hW C => ?_, fun hf W' hW => ?_⟩
  · obtain ⟨hb, hs⟩ := hanswer.noPath hn
    rcases hanswer.decided hb hs with ⟨hf, -⟩ | ⟨-, hno⟩
    · exact absurd (hf.symm.trans hn) (by decide)
    · exact h.not_reaches hprov hann hsp hb (enterable_iff.1 hs).1 hno hW
  · exact IsRoute.of_completes hW hmissing (hanswer.found hf).2.1

/-- **A field within a box is exact** for the routes within the box. -/
theorem boxField_exact (domain : Box3) (hprov : M.prov.Mirrored) :
    FieldOutcome W.toWorld M.cls domain.contains
        (StepWithin W.toWorld M.cls M.prov domain.contains) policy request.goal
        (buildWeightedDistanceFieldInBox W M policy domain request.goal scratch).1.status ∧
      FieldAnswer W.toWorld M.cls (StepWithin W.toWorld M.cls M.prov domain.contains) request
        (buildWeightedDistanceFieldInBox W M policy domain request.goal scratch).1.status
        (weightedDistanceFieldPathCore W M verify request
          (buildWeightedDistanceFieldInBox W M policy domain request.goal scratch).2).1 := by
  have h := buildHeapField_spec W M domain.contains request.goal scratch policy hprov
  exact ⟨h.outcome, h.answer verify⟩

end Reads

/-! ### Fields of open squares -/

/-- Unit cost on the square, without a provider. -/
def squareModel : FieldModel square Unit where
  cls := squareClass
  classIdentity := 2
  prov := adjacentTransitions square Unit
  provider := adjacentFieldProvider

/-- Unit cost on the square with stairs. -/
def squareStairs : FieldModel square Unit :=
  { squareModel with prov := stairTransitions square (), provider := ⟨2, none, 0⟩ }

/-- The open square, whatever its fingerprint. -/
def squareField : FieldWorld square Unit := ⟨openWorld square, 0⟩

/-- The open sparse square. -/
def sparseSquareField : FieldWorld square Unit := ⟨openSparseWorld square, 5⟩

theorem weightedField_sparseSound_square :
    SparseSound (openSparseWorld square) squareClass (stairTransitions square ()) squareRequest
      (weightedDistanceFieldPathCore sparseSquareField squareStairs true squareRequest
        (buildWeightedDistanceField sparseSquareField squareStairs .reportIndeterminate ⟨1, 1, 0⟩
          .empty).2).1 :=
  weightedField_sparseSound sparseSquareField squareStairs squareRequest .empty true rfl
    (mirrored_stairTransitions ()) (announcesReverse_stairTransitions ())
    reportsMissing_stairTransitions

theorem boxField_exact_square :
    FieldOutcome (openWorld square) squareClass (Box3.contains ⟨⟨0, 0, 0⟩, ⟨2, 1, 1⟩⟩)
        (StepWithin (openWorld square) squareClass (adjacentTransitions square Unit)
          (Box3.contains ⟨⟨0, 0, 0⟩, ⟨2, 1, 1⟩⟩)) .assumeImpassable ⟨1, 0, 0⟩
        (buildWeightedDistanceFieldInBox squareField squareModel .assumeImpassable
          ⟨⟨0, 0, 0⟩, ⟨2, 1, 1⟩⟩ ⟨1, 0, 0⟩ .empty).1.status ∧
      FieldAnswer (openWorld square) squareClass
        (StepWithin (openWorld square) squareClass (adjacentTransitions square Unit)
          (Box3.contains ⟨⟨0, 0, 0⟩, ⟨2, 1, 1⟩⟩)) ⟨⟨0, 0, 0⟩, ⟨1, 0, 0⟩⟩
        (buildWeightedDistanceFieldInBox squareField squareModel .assumeImpassable
          ⟨⟨0, 0, 0⟩, ⟨2, 1, 1⟩⟩ ⟨1, 0, 0⟩ .empty).1.status
        (weightedDistanceFieldPathCore squareField squareModel true ⟨⟨0, 0, 0⟩, ⟨1, 0, 0⟩⟩
          (buildWeightedDistanceFieldInBox squareField squareModel .assumeImpassable
            ⟨⟨0, 0, 0⟩, ⟨2, 1, 1⟩⟩ ⟨1, 0, 0⟩ .empty).2).1 :=
  boxField_exact squareField squareModel .assumeImpassable ⟨⟨0, 0, 0⟩, ⟨1, 0, 0⟩⟩ .empty true
    ⟨⟨0, 0, 0⟩, ⟨2, 1, 1⟩⟩ mirrored_adjacentTransitions

end Tess
