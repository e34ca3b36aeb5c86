import Tess.Path.IndexedNeighbor
import Tess.Path.WeightedField

/-!
# Reading a distance field

A reader starts at a labelled tile and steps to a neighbour whose smaller label, with the cost of
the step, accounts for its own, until it stands on label zero.  It checks the goal, the model and
the resident chunks against the stamps of the field, and every step against the world.

* `weightedNext`, `descend`, `weightedDistanceFieldPathCore` : the reader of weighted fields;
* `weightedNext_spec` : **a step of the descent** is a legal step that accounts for the label;
* `descend_route` : what a descent returns is a route;
* `exists_descend` : in a field no descent gets stuck.
-/

namespace Tess

open Graphs

section Readers

variable {S : Shape} {Tag : Type*}

/-- The indices that `for_each_indexed_axis_neighbor` hands to its sink. -/
def indexedNeighbors (S : Shape) (index : ℕ) : List ℕ :=
  (S.forEachIndexedAxisNeighbor (S.coord index) (index : BitVec 64)).map fun n => n.2.toNat

/-- `next` and `next_distance` after one neighbour that may be stepped to. -/
def keepNearer (next : ℕ × ℕ) : Option (ℕ × ℕ) → ℕ × ℕ
  | none => next
  | some neighbor => if neighbor.2 < next.2 then neighbor else next

/-- A face neighbour that accounts for the label, with its own label. -/
def faceCandidate (W : World S Tag) (cls : MovementClass S Tag) (s : DistanceFieldScratch)
    (currentDistance index : ℕ) : Option (ℕ × ℕ) :=
  match residentOffset W index with
  | none => none
  | some neighborOffset =>
    let neighborDistance := s.distanceAt neighborOffset
    if !isPassableIndex W cls index then none
    else if neighborDistance = infiniteCost then none
    else if tileEntryCostIndex W cls index ≠ 0 ∧
        saturatingAdd neighborDistance (tileEntryCostIndex W cls index) = currentDistance then
      some (index, neighborDistance)
    else none

/-- The target of a probe that accounts for the label, with its own label. -/
def probeCandidate (W : World S Tag) (s : DistanceFieldScratch) (currentDistance : ℕ)
    (probe : TransitionProbe) : Option (ℕ × ℕ) :=
  if probe.availability ≠ .legal ∨ probe.costOverflow = true then none
  else
    match residentOffset W probe.destIndex with
    | none => none
    | some neighborOffset =>
      let neighborDistance := s.distanceAt neighborOffset
      if neighborDistance ≠ infiniteCost ∧
          saturatingAdd neighborDistance probe.cost = currentDistance then
        some (probe.destIndex, neighborDistance)
      else none

/-- The neighbour that a reader steps to: the first of the nearest candidates, if one is nearer
than the tile it stands on. -/
def nearest (current : ℕ × ℕ) (candidates : List (Option (ℕ × ℕ))) : Option (ℕ × ℕ) :=
  let next := candidates.foldl keepNearer current
  -- no candidate was nearer
  if next.1 = current.1 then none else some next

/-- One step of `weighted_distance_field_path`. -/
def weightedNext (W : World S Tag) (M : FieldModel S Tag) (s : DistanceFieldScratch)
    (current currentDistance : ℕ) : Option (ℕ × ℕ) :=
  nearest (current, currentDistance)
    (if M.FaceSteps then
      (indexedNeighbors S current).map (faceCandidate W M.cls s currentDistance)
    else
      (forEachForward W M.cls M.prov (S.coord current)).map (probeCandidate W s currentDistance))

/-- The loop of a reader: step until the label is zero.  Every step lowers the label, which is
therefore fuel enough. -/
def descend (W : World S Tag) (M : FieldModel S Tag) (s : DistanceFieldScratch) :
    ℕ → ℕ → ℕ → List Coord3 → Option (List Coord3)
  | _, _, 0, path => some path
  | 0, _, _ + 1, _ => none
  | fuel + 1, current, currentDistance + 1, path =>
    match weightedNext W M s current (currentDistance + 1) with
    | none => none
    | some (next, nextDistance) =>
      descend W M s fuel next nextDistance (path ++ [S.coord next])

/-- The checks of `weighted_distance_field_path` before it looks at a label. -/
def fieldReadFailure (W : FieldWorld S Tag) (M : FieldModel S Tag) (verifyResidency : Bool)
    (request : PathRequest) (s : DistanceFieldScratch) : Option PathStatus :=
  if !S.contains request.start then some .invalidStart
  else if !S.contains request.goal then some .invalidGoal
  -- the field was not built, or for something else
  else if !s.hasGoal ∨ s.goal ≠ request.goal ∨ !s.modelMatches M ∨
      (verifyResidency ∧ !s.residencyMatches W) then some .notComputed
  else if W.residency = .sparseResident ∧
      !isResidentIndex W.toWorld (S.tileKey request.start) then
    some (if s.buildStatus = .indeterminate then .indeterminate else .invalidStart)
  else if !isPassable W.toWorld M.cls request.start then some .invalidStart
  else none

/-- Descend from the start, if it is labelled. -/
def readLabels (W : World S Tag) (M : FieldModel S Tag) (request : PathRequest)
    (s : DistanceFieldScratch) : PathResult × DistanceFieldScratch :=
  let start := S.tileKey request.start
  let distance := s.distanceAt (offset W start)
  let costScale := M.cls.stepPolicy.costScale
  if distance = infiniteCost then
    ({ status := s.unresolvedPathStatus, reachedNodes := s.touched.length, costScale }, s)
  else
    match descend W M s distance start distance [request.start] with
    -- the world was edited, and no step accounts for a label any more
    | none => ({ status := .notComputed, reachedNodes := s.touched.length, costScale }, s)
    | some path =>
      ({ status := .found, cost := distance, expandedNodes := path.length,
         reachedNodes := s.touched.length, path, costScale }, s.setPath path)

/-- `detail::weighted_distance_field_path_core`. -/
def weightedDistanceFieldPathCore (W : FieldWorld S Tag) (M : FieldModel S Tag)
    (verifyResidency : Bool) (request : PathRequest) (scratch : DistanceFieldScratch) :
    PathResult × DistanceFieldScratch :=
  let s := scratch.setPath []
  let costScale := M.cls.stepPolicy.costScale
  match fieldReadFailure W M verifyResidency request s with
  | some status => ({ status, costScale }, s)
  | none =>
    if tileEntryCostIndex W.toWorld M.cls (S.tileKey request.start) = 0 then
      ({ status := .invalidStart, costScale }, s)
    else readLabels W.toWorld M request s

end Readers

/-! ### One step -/

section Steps

variable {S : Shape} {Tag : Type*} {W : World S Tag} {M : FieldModel S Tag}
  {s : DistanceFieldScratch} {b c : Coord3} {d k : ℕ} {probe : TransitionProbe} {x : ℕ × ℕ}

/-- **The nearest of the neighbours** that may be stepped to, if one of them is nearer than where
the reader stands. -/
theorem foldl_keepNearer (l : List (Option (ℕ × ℕ))) (next : ℕ × ℕ) :
    (l.foldl keepNearer next = next ∧ ∀ y, some y ∈ l → next.2 ≤ y.2) ∨
      (some (l.foldl keepNearer next) ∈ l ∧ (l.foldl keepNearer next).2 < next.2) := by
  induction l generalizing next with
  | nil => exact Or.inl ⟨rfl, fun y hy => absurd hy List.not_mem_nil⟩
  | cons o l ih =>
    rw [List.foldl_cons]
    cases o with
    | none =>
      rw [keepNearer]
      rcases ih next with ⟨h1, h2⟩ | ⟨h1, h2⟩
      · refine Or.inl ⟨h1, fun y hy => h2 y ?_⟩
        simpa using hy
      · exact Or.inr ⟨List.mem_cons_of_mem _ h1, h2⟩
    | some y =>
      rw [keepNearer]
      by_cases hlt : y.2 < next.2
      · rw [if_pos hlt]
        rcases ih y with ⟨h1, h2⟩ | ⟨h1, h2⟩
        · rw [h1]
          exact Or.inr ⟨List.mem_cons_self, hlt⟩
        · exact Or.inr ⟨List.mem_cons_of_mem _ h1, h2.trans hlt⟩
      · rw [if_neg hlt]
        rcases ih next with ⟨h1, h2⟩ | ⟨h1, h2⟩
        · refine Or.inl ⟨h1, fun z hz => ?_⟩
          rcases List.mem_cons.1 hz with hz | hz
          · rw [Option.some.inj hz]
            exact not_lt.1 hlt
          · exact h2 z hz
        · exact Or.inr ⟨List.mem_cons_of_mem _ h1, h2⟩

/-- The neighbours by index are the face neighbours of the shape. -/
theorem indexedNeighbors_tileKey (hb : S.tileKeyBits ≤ 64) (hc : S.contains c = true) :
    indexedNeighbors S (S.tileKey c) =
      ((Shape.faceNeighbors c).filter (S.contains ·)).map S.tileKey := by
  unfold indexedNeighbors
  rw [Shape.coord_tileKey hc, Shape.forEachIndexedAxisNeighbor_eq hc, List.map_map]
  refine List.map_congr_left fun n hn => ?_
  have hlt : S.tileKey n < 2 ^ 64 := (Shape.tileKey_lt (List.mem_filter.1 hn).2).trans_le
    (Shape.tileCount_le_two_pow.trans (Nat.pow_le_pow_right (by decide) hb))
  simpa using hlt

/-- A sum below the sentinel is not cut off. -/
theorem saturatingAdd_eq_iff {l r : ℕ} (hd : d < infiniteCost) :
    saturatingAdd l r = d ↔ l + r = d := by
  unfold saturatingAdd
  split_ifs
  · constructor <;> intro <;> omega
  · exact .rfl

/-- A probe that may be followed reports a legal step that accounts for the label. -/
theorem probeCandidate_eq_some (hc : S.contains c = true) (hd : d < infiniteCost)
    (hp : probe ∈ forEachForward W M.cls M.prov c)
    (h : probeCandidate W s d probe = some x) : ∃ v k, LegalStep W M.cls M.prov c v k ∧
      x = (S.tileKey v, fieldLabel W s v) ∧ fieldLabel W s v + k = d := by
  unfold probeCandidate at h
  split_ifs at h with hlegal
  obtain ⟨hl, ho⟩ := not_or.1 hlegal
  obtain ⟨k, hstep, -, -, hindex, hcost, hover⟩ :=
    legalStep_of_mem_forEachForward hc hp (not_not.1 hl)
  rw [hover, decide_eq_true_eq, not_le] at ho
  rw [hindex, residentOffset_tileKey hstep.resident_right, hcost, min_eq_left ho.le] at h
  dsimp only at h
  rw [← fieldLabel_of_resident hstep.resident_right] at h
  split_ifs at h with hsum
  exact ⟨probe.dest, k, hstep, (Option.some.inj h).symm, (saturatingAdd_eq_iff hd).1 hsum.2⟩

/-- A legal step that accounts for the label is reported by a probe that may be followed. -/
theorem exists_probeCandidate (hd : d < infiniteCost) (hstep : LegalStep W M.cls M.prov c b k)
    (hsum : fieldLabel W s b + k = d) : ∃ probe ∈ forEachForward W M.cls M.prov c,
      probeCandidate W s d probe = some (S.tileKey b, fieldLabel W s b) := by
  obtain ⟨probe, hp, hl, -, hindex, hcost, hover⟩ := mem_forEachForward_of_legalStep hstep
  have hk : k < infiniteCost := by omega
  have ho : probe.costOverflow = false := by simpa [hover] using hk
  refine ⟨probe, hp, ?_⟩
  unfold probeCandidate
  rw [if_neg (by simp [hl, ho]), hindex, residentOffset_tileKey hstep.resident_right, hcost,
    min_eq_left hk.le]
  dsimp only
  rw [← fieldLabel_of_resident hstep.resident_right,
    if_pos ⟨by omega, (saturatingAdd_eq_iff hd).2 hsum⟩]

/-- With face steps only, a legal step leads to a face neighbour at its entry cost. -/
theorem legalStep_iff_of_faceSteps (hface : M.FaceSteps) : LegalStep W M.cls M.prov c b k ↔
    S.contains c = true ∧ FaceAdjacent c b ∧ enterable W M.cls b = true ∧
      k = entryCostAt W M.cls b := by
  obtain ⟨hl, hadj, hp⟩ := hface
  have hspecial : ∀ m, ¬ SpecialStep W M.prov c b m := by
    rintro m ⟨candidate, hm, -⟩
    rw [M.prov.adjacent_forward hadj] at hm
    exact absurd hm List.not_mem_nil
  have hcost : M.cls.stepPolicy.costScale = 1 := by rw [hp]; rfl
  unfold LegalStep RegularStep
  rw [hp, hl, enterable_iff]
  simp only [hspecial, false_and, exists_false, or_false]
  constructor
  · rintro ⟨ha, hb, he, m, ⟨hf, rfl⟩, rfl⟩
    exact ⟨ha, hf, ⟨hb, he⟩, by rw [Nat.mul_one]⟩
  · rintro ⟨ha, hf, ⟨hb, he⟩, rfl⟩
    exact ⟨ha, hb, he, 1, ⟨hf, rfl⟩, by rw [Nat.mul_one]⟩

/-- What the direct scan of the face neighbours may follow. -/
theorem faceCandidate_eq_some (hb : S.contains b = true) (hd : d < infiniteCost) :
    faceCandidate W M.cls s d (S.tileKey b) = some x ↔ enterable W M.cls b = true ∧
      x = (S.tileKey b, fieldLabel W s b) ∧ fieldLabel W s b + entryCostAt W M.cls b = d := by
  unfold faceCandidate
  rw [isPassableIndex_tileKey hb, tileEntryCostIndex_tileKey hb, enterable_iff]
  by_cases hr : W.Resident b
  · rw [residentOffset_tileKey hr]
    dsimp only
    rw [← fieldLabel_of_resident hr]
    constructor
    · intro h
      split_ifs at h with h1 h2 h3
      exact ⟨⟨by simpa using h1, h3.1⟩, (Option.some.inj h).symm, (saturatingAdd_eq_iff hd).1 h3.2⟩
    · rintro ⟨⟨hp, he⟩, rfl, hsum⟩
      rw [if_neg (by simp [hp]), if_neg (by omega),
        if_pos ⟨he, (saturatingAdd_eq_iff hd).2 hsum⟩]
  · have hp : isPassable W M.cls b = false := by
      by_contra hp
      exact hr (resident_of_isPassable (by simpa using hp))
    simp only [hp]
    cases residentOffset W (S.tileKey b) <;> simp

/-- The candidates of a reader are the legal steps that account for the label. -/
theorem some_mem_candidates (hc : S.contains c = true) (hd : d < infiniteCost) :
    (some x ∈ if M.FaceSteps then
        (indexedNeighbors S (S.tileKey c)).map (faceCandidate W M.cls s d)
      else (forEachForward W M.cls M.prov (S.coord (S.tileKey c))).map (probeCandidate W s d)) ↔
      ∃ v k, LegalStep W M.cls M.prov c v k ∧ x = (S.tileKey v, fieldLabel W s v) ∧
        fieldLabel W s v + k = d := by
  split_ifs with hface
  · rw [indexedNeighbors_tileKey M.cls.tileKeyBits_le hc]
    simp only [List.mem_map, List.mem_filter]
    constructor
    · rintro ⟨_, ⟨v, ⟨hv, hcv⟩, rfl⟩, h⟩
      obtain ⟨he, hx, hsum⟩ := (faceCandidate_eq_some hcv hd).1 h
      exact ⟨v, _, (legalStep_iff_of_faceSteps hface).2 ⟨hc, Shape.mem_faceNeighbors.1 hv, he, rfl⟩,
        hx, hsum⟩
    · rintro ⟨v, k, hstep, hx, hsum⟩
      obtain ⟨-, hv, he, rfl⟩ := (legalStep_iff_of_faceSteps hface).1 hstep
      exact ⟨_, ⟨v, ⟨Shape.mem_faceNeighbors.2 hv, hstep.contains_right⟩, rfl⟩,
        (faceCandidate_eq_some hstep.contains_right hd).2 ⟨he, hx, hsum⟩⟩
  · rw [Shape.coord_tileKey hc, List.mem_map]
    constructor
    · rintro ⟨probe, hp, h⟩
      exact probeCandidate_eq_some hc hd hp h
    · rintro ⟨v, k, hstep, rfl, hsum⟩
      exact exists_probeCandidate hd hstep hsum

/-- **What a reader follows**: a legal step that accounts for the label, if there is one. -/
theorem weightedNext_spec (hc : S.contains c = true) (h0 : fieldLabel W s c = d)
    (hd : d < infiniteCost) :
    (∀ x, weightedNext W M s (S.tileKey c) d = some x → ∃ v k,
      LegalStep W M.cls M.prov c v k ∧ x = (S.tileKey v, fieldLabel W s v) ∧
        fieldLabel W s v + k = d) ∧
      (weightedNext W M s (S.tileKey c) d = none → ∀ v k, LegalStep W M.cls M.prov c v k →
        fieldLabel W s v + k ≠ d) := by
  unfold weightedNext nearest
  dsimp only
  rcases foldl_keepNearer _ (S.tileKey c, d) with ⟨heq, hnone⟩ | ⟨hmem, hlt⟩
  · rw [heq, if_pos rfl]
    refine ⟨nofun, fun _ v k hstep hsum => ?_⟩
    have hle : d ≤ fieldLabel W s v :=
      hnone _ ((some_mem_candidates hc hd).2 ⟨v, k, hstep, rfl, hsum⟩)
    have := hstep.pos
    omega
  · obtain ⟨v, k, hstep, heq, hsum⟩ := (some_mem_candidates hc hd).1 hmem
    rw [heq]
    -- the label of the tile itself is not the smaller one
    have hne : S.tileKey v ≠ S.tileKey c := fun h => by
      rw [Shape.tileKey_inj hstep.contains_right hc h, h0] at hsum
      have := hstep.pos
      omega
    rw [if_neg hne]
    exact ⟨fun x hx => ⟨v, k, hstep, (Option.some.inj hx).symm, hsum⟩, nofun⟩

end Steps

/-! ### A whole descent -/

section Descent

variable {S : Shape} {Tag : Type*} {W : World S Tag} {M : FieldModel S Tag}
  {admits : Coord3 → Bool} {s : DistanceFieldScratch} {goal c : Coord3} {path path' : List Coord3}
  {fuel : ℕ}

/-- **What a descent returns**: a route through labelled tiles whose cost is the label it starts
from. -/
theorem descend_route (hlt : fieldLabel W s c < infiniteCost)
    (hrun : descend W M s fuel (S.tileKey c) (fieldLabel W s c) path = some path') :
    ∃ l e, path' = path ++ l ∧ fieldLabel W s e = 0 ∧
      IsRoute (fun u v k => LegalStep W M.cls M.prov u v k ∧ fieldLabel W s u < infiniteCost ∧
        fieldLabel W s v < infiniteCost) (c :: l) c e (fieldLabel W s c) := by
  have hc := (resident_of_fieldLabel_lt hlt).contains
  -- the fuel and the label fall together, a step at a time
  induction fuel generalizing c path with
  | zero =>
    cases hd : fieldLabel W s c with
    | zero =>
      rw [hd, descend] at hrun
      exact ⟨[], c, by simpa using hrun.symm, hd, .single c⟩
    | succ d =>
      rw [hd, descend] at hrun
      cases hrun
  | succ fuel ih =>
    cases hd : fieldLabel W s c with
    | zero =>
      rw [hd, descend] at hrun
      exact ⟨[], c, by simpa using hrun.symm, hd, .single c⟩
    | succ d =>
      rw [hd, descend, ← hd] at hrun
      cases hn : weightedNext W M s (S.tileKey c) (fieldLabel W s c) with
      | none =>
        rw [hn] at hrun
        cases hrun
      | some x =>
        obtain ⟨v, k, hstep, rfl, hsum⟩ := (weightedNext_spec hc rfl hlt).1 x hn
        rw [hn] at hrun
        dsimp only at hrun
        rw [Shape.coord_tileKey hstep.contains_right] at hrun
        have hv : fieldLabel W s v < infiniteCost := by omega
        obtain ⟨l, e, rfl, he, hl⟩ := ih hv hrun hstep.contains_right
        refine ⟨v :: l, e, by simp, he, ?_⟩
        rw [← hd, ← hsum, Nat.add_comm]
        exact .cons ⟨hstep, hlt, hv⟩ hl

/-- Only the goal of a field has label zero. -/
theorem IsField.eq_goal (F : IsField W M.cls M.prov admits goal s) (hc : fieldLabel W s c = 0) :
    c = goal := by
  by_contra hne
  obtain ⟨b, k, he, hk⟩ := F.led c (by rw [hc]; exact infiniteCost_pos) hne
  have := fieldEdge_pos he
  omega

/-- **In a field no descent gets stuck.** -/
theorem exists_descend (F : IsField W M.cls M.prov admits goal s)
    (hlt : fieldLabel W s c < infiniteCost) (hfuel : fieldLabel W s c ≤ fuel) :
    ∃ path', descend W M s fuel (S.tileKey c) (fieldLabel W s c) path = some path' := by
  induction fuel generalizing c path with
  | zero =>
    rw [Nat.le_zero.1 hfuel, descend]
    exact ⟨_, rfl⟩
  | succ fuel ih =>
    have hc := (resident_of_fieldLabel_lt hlt).contains
    cases hd : fieldLabel W s c with
    | zero =>
      rw [descend]
      exact ⟨_, rfl⟩
    | succ d =>
      rw [descend, ← hd]
      cases hn : weightedNext W M s (S.tileKey c) (fieldLabel W s c) with
      | none =>
        have hne : c ≠ goal := by
          rintro rfl
          rw [F.goal_label] at hd
          cases hd
        obtain ⟨b, k, he, hk⟩ := F.led c hlt hne
        exact absurd hk.symm ((weightedNext_spec hc rfl hlt).2 hn b k he.2.2)
      | some x =>
        obtain ⟨v, k, hstep, rfl, hsum⟩ := (weightedNext_spec hc rfl hlt).1 x hn
        have := hstep.pos
        exact ih (by omega) (by omega)

end Descent

end Tess
