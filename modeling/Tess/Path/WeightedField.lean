import Tess.Lib.Iteration
import Tess.Path.FieldScratch
import Tess.Path.Search
import Tess.Storage.Dirty
import Tess.Topology.ReverseSteps

/-!
# Weighted distance fields

A weighted field grows from its goal against the direction of travel: the search pops the entry of
least label and offers the steps into its tile.  It keeps no closed marks: an entry counts while
its label is the tile's label.

* `buildWeightedDistanceField`, `buildWeightedDistanceFieldInBox` : the builds, the second one
  within a box;
* `FieldInv` : the invariant of the loop, an instance of the label-setting invariant whose parents
  and closed marks are nowhere stored;
* `IsField` : **what the labels of a finished build are**: least costs, each of them led to by a
  step from a smaller one;
* `buildHeapField_spec` : what a build leaves behind, outcome by outcome.
-/

namespace Tess

open Graphs Loops

/-- `contains` of a box and a coordinate. -/
def Box3.contains (box : Box3) (c : Coord3) : Bool :=
  [Axis.x, .y, .z].all fun a =>
    decide (box.origin.get a ≤ c.get a ∧ c.get a < box.origin.get a + box.extent.get a)

/-- The mutable locals of a build. -/
structure FieldState where
  /-- Caller-owned storage. -/
  scratch : DistanceFieldScratch
  /-- Tiles expanded so far. -/
  expandedNodes : ℕ := 0
  /-- A neighbour was skipped because its chunk is missing. -/
  crossedMissing : Bool := false
  /-- A cost reached the sentinel. -/
  costOverflow : Bool := false

section Builds

variable {S : Shape} {Tag : Type*}

/-- The checks of a goal that every build makes. -/
def fieldGoalFailure (W : World S Tag) (cls : MovementClass S Tag) (admits : Coord3 → Bool)
    (policy : MissingChunkPolicy) (goal : Coord3) : Option PathStatus :=
  if !S.contains goal || !admits goal then some .invalidGoal
  else if W.residency = .sparseResident ∧ !isResidentIndex W (S.tileKey goal) then
    -- what is missing is unknown, unless the policy takes it for impassable
    some (if policy = .reportIndeterminate then .indeterminate else .invalidGoal)
  else if !isPassable W cls goal then some .invalidGoal
  else none

/-- The checks of a goal that the weighted builds make: its entry cost comes last. -/
def weightedGoalFailure (W : World S Tag) (cls : MovementClass S Tag) (admits : Coord3 → Bool)
    (policy : MissingChunkPolicy) (goal : Coord3) : Option PathStatus :=
  match fieldGoalFailure W cls admits policy goal with
  | some status => some status
  | none => if tileEntryCostIndex W cls (S.tileKey goal) = 0 then some .invalidGoal else none

/-- Size and stamp the scratch and label the goal. -/
def openGoal (W : FieldWorld S Tag) (M : FieldModel S Tag) (goal : Coord3)
    (s : DistanceFieldScratch) : DistanceFieldScratch :=
  ((s.resize (capacityHint W.toWorld)).stampBuild W M goal).label
    (offset W.toWorld (S.tileKey goal)) (S.tileKey goal) 0

/-- What a build returns once nothing is left to expand. -/
def finishField (W : World S Tag) (policy : MissingChunkPolicy) (st : FieldState) :
    DistanceFieldResult × DistanceFieldScratch :=
  if W.residency = .sparseResident ∧ st.crossedMissing = true ∧ policy = .reportIndeterminate then
    ({ status := .indeterminate, expandedNodes := st.expandedNodes,
       reachedNodes := st.scratch.touched.length },
     st.scratch.publishBuildStatus .indeterminate)
  -- a missing chunk is reported before an overflow is
  else if st.costOverflow then
    ({ status := .costOverflow, expandedNodes := st.expandedNodes,
       reachedNodes := st.scratch.touched.length }, st.scratch.discardBuildResult)
  else
    ({ status := .found, expandedNodes := st.expandedNodes,
       reachedNodes := st.scratch.touched.length }, st.scratch.publishBuildStatus .found)

/-- The sink of `for_each_reverse` in a weighted build: offer one step against its direction. -/
def relaxReverse (W : World S Tag) (admits : Coord3 → Bool) (distance : ℕ) (st : FieldState)
    (probe : TransitionProbe) : FieldState :=
  if !admits probe.dest then st
  else if probe.availability = .missingTopology then { st with crossedMissing := true }
  else if probe.costOverflow then { st with costOverflow := true }
  else if !isResidentIndex W probe.destIndex then { st with crossedMissing := true }
  else
    let neighborOffset := offset W probe.destIndex
    let s := st.scratch.openNode neighborOffset probe.destIndex
    let nextDistance := saturatingAdd distance probe.cost
    -- the tile stays touched under the sentinel
    if nextDistance = infiniteCost then { st with scratch := s, costOverflow := true }
    else if nextDistance < s.distanceAt neighborOffset then
      { st with scratch :=
          (s.setDistance neighborOffset nextDistance).pushHeap probe.destIndex nextDistance }
    else { st with scratch := s }

/-- One round of the loop of a weighted build. -/
def heapRound (W : World S Tag) (cls : MovementClass S Tag) (prov : Provider S Tag)
    (admits : Coord3 → Bool) (st : FieldState) : FieldState ⊕ FieldState :=
  match popHeap st.scratch.weightedFrontier with
  | none => .inr st
  | some (current, rest) =>
    let st := { st with scratch := st.scratch.setHeap rest }
    let index := current.nodeIndex 0
    let currentDistance := st.scratch.distanceAt (offset W index)
    -- the label was lowered after this entry was pushed
    if current.g ≠ currentDistance then .inl st
    else
      .inl ((forEachReverse W cls prov (S.coord index)).foldl
        (relaxReverse W admits currentDistance) { st with expandedNodes := st.expandedNodes + 1 })

/-- Rounds that always suffice: every round takes an entry away or lowers a label. -/
def heapFuel (W : World S Tag) : ℕ := 2 * (capacityHint W * infiniteCost) + 2

/-- The loop of a weighted build and what it returns. -/
def heapLoop (W : World S Tag) (cls : MovementClass S Tag) (prov : Provider S Tag)
    (admits : Coord3 → Bool) (policy : MissingChunkPolicy) (fuel : ℕ) (st : FieldState) :
    DistanceFieldResult × DistanceFieldScratch :=
  match runLoop (heapRound W cls prov admits) fuel st with
  | none => ({}, st.scratch)
  | some st => finishField W policy st

/-- A weighted build over the tiles that `admits` allows. -/
def buildHeapField (W : FieldWorld S Tag) (M : FieldModel S Tag) (admits : Coord3 → Bool)
    (policy : MissingChunkPolicy) (goal : Coord3) (scratch : DistanceFieldScratch) :
    DistanceFieldResult × DistanceFieldScratch :=
  let s := scratch.clearBuild
  match weightedGoalFailure W.toWorld M.cls admits policy goal with
  | some status => ({ status := status }, s)
  | none =>
    heapLoop W.toWorld M.cls M.prov admits policy (heapFuel W.toWorld)
      { scratch := (openGoal W M goal s).pushHeap (S.tileKey goal) 0 }

/-- `build_weighted_distance_field`. -/
def buildWeightedDistanceField (W : FieldWorld S Tag) (M : FieldModel S Tag)
    (policy : MissingChunkPolicy) (goal : Coord3) (scratch : DistanceFieldScratch) :
    DistanceFieldResult × DistanceFieldScratch :=
  buildHeapField W M (fun _ => true) policy goal scratch

/-- `build_weighted_distance_field_in_box`. -/
def buildWeightedDistanceFieldInBox (W : FieldWorld S Tag) (M : FieldModel S Tag)
    (policy : MissingChunkPolicy) (domain : Box3) (goal : Coord3)
    (scratch : DistanceFieldScratch) : DistanceFieldResult × DistanceFieldScratch :=
  buildHeapField W M domain.contains policy goal scratch

end Builds

/-! ### Labels of tiles -/

section Labels

variable {S : Shape} {Tag : Type*} (W : World S Tag)

/-- The label of a tile. -/
def fieldLabel (s : DistanceFieldScratch) (c : Coord3) : ℕ :=
  if W.Resident c then s.distanceAt (offset W (S.tileKey c)) else infiniteCost

/-- Labels with parents and closed marks that no array stores. -/
def fieldLabels (s : DistanceFieldScratch) (parent : Coord3 → Coord3) (closed : Coord3 → Prop) :
    Labels Coord3 := ⟨fieldLabel W s, parent, closed⟩

/-- A step of a field, from the end of a legal step to its start. -/
def FieldEdge (cls : MovementClass S Tag) (prov : Provider S Tag) (admits : Coord3 → Bool)
    (b a : Coord3) (k : ℕ) : Prop := admits a = true ∧ ReverseStep W cls prov b a k

/-- The entry of a tile under a label. -/
def fieldEntry (S : Shape) (c : Coord3) (x : ℕ) : PackedOpenNode := .make (S.tileKey c) x x 0

/-- The tile is queued under a label. -/
def InHeap (heap : List PackedOpenNode) (c : Coord3) (x : ℕ) : Prop :=
  W.Resident c ∧ x < infiniteCost ∧ fieldEntry S c x ∈ heap

variable {W} {s s' : DistanceFieldScratch} {cls : MovementClass S Tag} {prov : Provider S Tag}
  {admits : Coord3 → Bool} {a b c d : Coord3} {x y k : ℕ}

@[simp] theorem fieldLabels_g (s : DistanceFieldScratch) (parent : Coord3 → Coord3)
    (closed : Coord3 → Prop) (c : Coord3) :
    (fieldLabels W s parent closed).g c = fieldLabel W s c := rfl

theorem fieldLabel_of_resident (h : W.Resident c) :
    fieldLabel W s c = s.distanceAt (offset W (S.tileKey c)) := if_pos h

theorem resident_of_fieldLabel_lt (h : fieldLabel W s c < infiniteCost) : W.Resident c := by
  by_contra hc
  rw [fieldLabel, if_neg hc] at h
  exact lt_irrefl _ h

theorem fieldEdge_pos (h : FieldEdge W cls prov admits b a k) : 0 < k := h.2.2.pos

/-- A label that is written changes the label of one tile. -/
theorem fieldLabel_update (hc : W.Resident c)
    (h : ∀ o, s'.distanceAt o = if o = offset W (S.tileKey c) then x else s.distanceAt o) :
    fieldLabel W s' = Function.update (fieldLabel W s) c x := by
  funext d
  unfold fieldLabel
  by_cases hdc : d = c
  · subst hdc
    rw [Function.update_self, if_pos hc, h, if_pos rfl]
  · rw [Function.update_of_ne hdc]
    by_cases hd : W.Resident d
    · rw [if_pos hd, if_pos hd, h, if_neg fun ho => hdc (offset_injOn hd hc ho)]
    · rw [if_neg hd, if_neg hd]

theorem fieldEntry_nodeIndex (cls : MovementClass S Tag) (hc : S.contains c = true) :
    (fieldEntry S c x).nodeIndex 0 = S.tileKey c :=
  PackedOpenNode.nodeIndex_make (cls.tileKey_lt_two_pow hc) _ _ _

theorem fieldEntry_g (hx : x ≤ infiniteCost) : (fieldEntry S c x).g = x :=
  PackedOpenNode.g_make _ _ hx _

theorem fieldEntry_inj (cls : MovementClass S Tag) (hc : S.contains c = true)
    (hd : S.contains d = true) (hx : x ≤ infiniteCost) (hy : y ≤ infiniteCost)
    (h : fieldEntry S c x = fieldEntry S d y) : c = d ∧ x = y := by
  have h1 := congrArg (fun n => n.nodeIndex 0) h
  have h2 := congrArg PackedOpenNode.g h
  simp only [fieldEntry_nodeIndex cls hc, fieldEntry_nodeIndex cls hd] at h1
  rw [fieldEntry_g hx, fieldEntry_g hy] at h2
  exact ⟨Shape.tileKey_inj hc hd h1, h2⟩

end Labels

/-! ### The invariant of the loop -/

/-- The scratch is stamped for the goal, the model and the resident chunks. -/
structure Stamped {S : Shape} {Tag : Type*} (W : FieldWorld S Tag) (M : FieldModel S Tag)
    (goal : Coord3) (s : DistanceFieldScratch) : Prop where
  /-- The goal. -/
  goal : s.goal = goal
  /-- The field may be read. -/
  hasGoal : s.hasGoal = true
  /-- The model. -/
  model : s.model = M.stamp
  /-- The resident chunks. -/
  residency : s.residencyMatches W = true

theorem Stamped.congr {S : Shape} {Tag : Type*} {W : FieldWorld S Tag} {M : FieldModel S Tag}
    {goal : Coord3} {s s' : DistanceFieldScratch} (h : Stamped W M goal s) (hg : s'.goal = s.goal)
    (hh : s'.hasGoal = s.hasGoal) (hm : s'.model = s.model)
    (hr : s'.residencyFingerprint = s.residencyFingerprint) : Stamped W M goal s' := by
  refine ⟨hg.trans h.goal, hh.trans h.hasGoal, hm.trans h.model, ?_⟩
  have := h.residency
  unfold DistanceFieldScratch.residencyMatches at this ⊢
  rwa [hr]

theorem Stamped.openNode {S : Shape} {Tag : Type*} {W : FieldWorld S Tag} {M : FieldModel S Tag}
    {goal : Coord3} {s : DistanceFieldScratch} (h : Stamped W M goal s) (o i : ℕ) :
    Stamped W M goal (s.openNode o i) := by
  unfold DistanceFieldScratch.openNode
  split_ifs
  · exact h
  · exact h.congr rfl rfl rfl rfl

/-- What a build uses up: labels that can still be lowered, and entries. -/
def fieldMeasure {S : Shape} {Tag : Type*} (W : World S Tag) (s : DistanceFieldScratch) : ℕ :=
  2 * ∑ o ∈ Finset.range (capacityHint W), s.distanceAt o + s.weightedFrontier.length

/-- Lowering a label pays for the entry that is pushed. -/
theorem fieldMeasure_lower {S : Shape} {Tag : Type*} {W : World S Tag}
    {s : DistanceFieldScratch} {o x : ℕ} (hcurrent : s.isCurrent o = true)
    (ho : o < capacityHint W) (hlt : x < s.distanceAt o) (i : ℕ) :
    fieldMeasure W ((s.setDistance o x).pushHeap i x) ≤ fieldMeasure W s := by
  have hset (o' : ℕ) : ((s.setDistance o x).pushHeap i x).distanceAt o' =
      if o' = o then x else s.distanceAt o' :=
    DistanceFieldScratch.distanceAt_setDistance hcurrent x o'
  have hsum : ∑ o' ∈ Finset.range (capacityHint W),
      ((s.setDistance o x).pushHeap i x).distanceAt o' <
        ∑ o' ∈ Finset.range (capacityHint W), s.distanceAt o' := by
    refine Finset.sum_lt_sum (fun o' _ => ?_) ⟨o, Finset.mem_range.2 ho, ?_⟩
    · rw [hset]
      split_ifs with h
      · exact h ▸ hlt.le
      · exact le_rfl
    · rwa [hset, if_pos rfl]
  have hlen : ((s.setDistance o x).pushHeap i x).weightedFrontier.length =
      s.weightedFrontier.length + 1 := rfl
  unfold fieldMeasure
  omega

section Invariant

variable {S : Shape} {Tag : Type*} (W : FieldWorld S Tag) (M : FieldModel S Tag)
  (admits : Coord3 → Bool) (goal : Coord3)

/-- **The invariant of a weighted build** while the probes into `cur` are being offered: the
label-setting invariant for some parents and closed marks, a heap of tile entries, and flags that
have a reason. -/
structure FieldInv (st : FieldState) (parent : Coord3 → Coord3) (closed : Coord3 → Prop)
    (cur : Coord3) (probes : List TransitionProbe) : Prop where
  /-- The label-setting invariant. -/
  labels : (fieldLabels W.toWorld st.scratch parent closed).Inv
    (FieldEdge W.toWorld M.cls M.prov admits) (fun _ => 0) infiniteCost goal
    (InHeap W.toWorld st.scratch.weightedFrontier) (st.costOverflow = true) (Pending S cur probes)
  /-- Labels are at most the sentinel. -/
  label_le : ∀ c, fieldLabel W.toWorld st.scratch c ≤ infiniteCost
  /-- What the heap holds. -/
  entries : ∀ n ∈ st.scratch.weightedFrontier, ∃ c x, isPassable W.toWorld M.cls c = true ∧
    x < infiniteCost ∧ n = fieldEntry S c x
  /-- Missing chunks beside closed tiles have been noticed. -/
  missing : ∀ u, closed u → ∀ p ∈ forEachReverse W.toWorld M.cls M.prov u, admits p.dest = true →
    p.availability = .missingTopology → (u = cur ∧ p ∈ probes) ∨ st.crossedMissing = true
  /-- An overflow is on record for a step whose cost reaches the sentinel. -/
  overflowed : st.costOverflow = true → ∃ u v k, closed u ∧
    FieldEdge W.toWorld M.cls M.prov admits u v k ∧
      infiniteCost ≤ fieldLabel W.toWorld st.scratch u + k
  /-- The stamps stay. -/
  stamped : Stamped W M goal st.scratch

variable {W M admits goal} {st st' : FieldState} {parent : Coord3 → Coord3}
  {closed : Coord3 → Prop} {cur c v : Coord3} {p : TransitionProbe} {probes : List TransitionProbe}
  {k x : ℕ}

namespace FieldInv

/-- A probe whose step is settled has been offered. -/
theorem offered (I : FieldInv W M admits goal st parent closed cur (p :: probes))
    (hcur : closed cur)
    (hlabel : fieldLabel W.toWorld st'.scratch = fieldLabel W.toWorld st.scratch)
    (hheap : st'.scratch.weightedFrontier = st.scratch.weightedFrontier)
    (hstamp : Stamped W M goal st'.scratch)
    (hov : st.costOverflow = true → st'.costOverflow = true)
    (hcm : st.crossedMissing = true ∨ (admits p.dest = true ∧ p.availability = .missingTopology) →
      st'.crossedMissing = true)
    (hco : st'.costOverflow = true → st.costOverflow = true ∨ ∃ w j,
      FieldEdge W.toWorld M.cls M.prov admits cur w j ∧
        infiniteCost ≤ fieldLabel W.toWorld st.scratch cur + j)
    (hset : ∀ w j, FieldEdge W.toWorld M.cls M.prov admits cur w j → p.Reports S w j →
      (fieldLabels W.toWorld st.scratch parent closed).Settled infiniteCost
        (st'.costOverflow = true) cur w j) :
    FieldInv W M admits goal st' parent closed cur probes := by
  have hlabels : fieldLabels W.toWorld st'.scratch parent closed =
      fieldLabels W.toWorld st.scratch parent closed := by
    unfold fieldLabels
    rw [hlabel]
  refine ⟨?_, by rw [hlabel]; exact I.label_le, by rw [hheap]; exact I.entries,
    fun u hu q hq ha hm => ?_, fun h => ?_, hstamp⟩
  · rw [hlabels, hheap]
    refine I.labels.settle hov fun u w j hu he htd hn => ?_
    obtain ⟨rfl, q, hq, hrep⟩ := htd
    rcases List.mem_cons.1 hq with rfl | hq
    · exact hset w j he hrep
    · exact absurd ⟨rfl, q, hq, hrep⟩ hn
  · rcases I.missing u hu q hq ha hm with ⟨rfl, hmem⟩ | h
    · rcases List.mem_cons.1 hmem with rfl | hmem
      · exact Or.inr (hcm (Or.inr ⟨ha, hm⟩))
      · exact Or.inl ⟨rfl, hmem⟩
    · exact Or.inr (hcm (Or.inl h))
  · rw [hlabel]
    rcases hco h with h | ⟨w, j, he, hM⟩
    · exact I.overflowed h
    · exact ⟨cur, w, j, hcur, he, hM⟩

/-- A probe whose step gives its start a better label has been offered once the start is labelled
and queued. -/
theorem lowered (I : FieldInv W M admits goal st parent closed cur (p :: probes))
    (hcur : closed cur) (hrep : p.Reports S v k)
    (hstep : FieldEdge W.toWorld M.cls M.prov admits cur v k)
    (hlt : fieldLabel W.toWorld st.scratch cur + k < fieldLabel W.toWorld st.scratch v)
    (hM : fieldLabel W.toWorld st.scratch cur + k < infiniteCost)
    (hlabel : fieldLabel W.toWorld st'.scratch =
      Function.update (fieldLabel W.toWorld st.scratch) v
        (fieldLabel W.toWorld st.scratch cur + k))
    (hheap : st'.scratch.weightedFrontier =
      fieldEntry S v (fieldLabel W.toWorld st.scratch cur + k) :: st.scratch.weightedFrontier)
    (hstamp : Stamped W M goal st'.scratch)
    (hcm : st'.crossedMissing = st.crossedMissing)
    (hco : st'.costOverflow = st.costOverflow) :
    FieldInv W M admits goal st' (Function.update parent v cur) closed cur probes := by
  have hv : ¬ closed v := fun hv => by
    -- a closed label is least, and this one is not
    have hr := I.labels.reaches (fun _ _ _ => fieldEdge_pos) (I.labels.closed_lt cur hcur)
    have hopt := I.labels.opt v _ hv (hr.tail hstep) (by simpa using hM)
    rw [fieldLabels_g, fieldLabels_g] at hopt
    omega
  have hcurv : cur ≠ v := fun h => hv (h ▸ hcur)
  have hg (w : Coord3) : fieldLabel W.toWorld st'.scratch w =
      if w = v then fieldLabel W.toWorld st.scratch cur + k
      else fieldLabel W.toWorld st.scratch w := by
    rw [hlabel, Function.update_apply]
  refine ⟨?_, fun w => ?_, fun n hn => ?_, fun u hu q hq ha hm => ?_, fun h => ?_, hstamp⟩
  · rw [hheap, hco]
    have hup : (fieldLabels W.toWorld st'.scratch (Function.update parent v cur) closed).Inv
        (FieldEdge W.toWorld M.cls M.prov admits) (fun _ => 0) infiniteCost goal
        (InHeap W.toWorld
          (fieldEntry S v (fieldLabel W.toWorld st.scratch cur + k) ::
            st.scratch.weightedFrontier))
        (st.costOverflow = true) (Pending S cur (p :: probes)) :=
      I.labels.update hcur hstep hv hlt hM hg (fun w => Function.update_apply ..) (fun w => .rfl)
        (fun w x hw => ⟨hw.1, hw.2.1, List.mem_cons_of_mem _ hw.2.2⟩)
        ⟨resident_of_isPassable hstep.2.1, hM, List.mem_cons.2 (Or.inl rfl)⟩
    refine hup.settle id fun u w j hu he htd hn => ?_
    obtain ⟨rfl, q, hq, hrep'⟩ := htd
    rcases List.mem_cons.1 hq with rfl | hq
    · obtain ⟨rfl, rfl⟩ := hrep.cost_eq hrep' (by omega)
      refine Or.inr (Or.inl ?_)
      rw [fieldLabels_g, fieldLabels_g, hg, hg, if_pos rfl, if_neg hcurv]
      exact ⟨le_rfl, hM⟩
    · exact absurd ⟨rfl, q, hq, hrep'⟩ hn
  · rw [hg]
    split_ifs
    · exact hM.le
    · exact I.label_le w
  · rw [hheap] at hn
    rcases List.mem_cons.1 hn with rfl | hn
    · exact ⟨v, _, hstep.2.1, hM, rfl⟩
    · exact I.entries n hn
  · rw [hcm]
    rcases I.missing u hu q hq ha hm with ⟨rfl, hmem⟩ | h
    · rcases List.mem_cons.1 hmem with rfl | hmem
      · exact absurd hm (by rw [hrep.1]; decide)
      · exact Or.inl ⟨rfl, hmem⟩
    · exact Or.inr h
  · rw [hco] at h
    obtain ⟨u, w, j, hu, he, hMj⟩ := I.overflowed h
    have huv : u ≠ v := fun h => hv (h ▸ hu)
    exact ⟨u, w, j, hu, he, by rwa [hg, if_neg huv]⟩

/-- **Offering one probe** into the tile that was expanded last. -/
theorem relaxReverse (hprov : M.prov.Mirrored)
    (I : FieldInv W M admits goal st parent closed cur (p :: probes)) (hcur : closed cur)
    (hpass : isPassable W.toWorld M.cls cur = true)
    (hp : p ∈ forEachReverse W.toWorld M.cls M.prov cur) :
    let st' := relaxReverse W.toWorld admits (fieldLabel W.toWorld st.scratch cur) st p
    (∃ parent', FieldInv W M admits goal st' parent' closed cur probes) ∧
      fieldMeasure W.toWorld st'.scratch ≤ fieldMeasure W.toWorld st.scratch ∧
      fieldLabel W.toWorld st'.scratch cur = fieldLabel W.toWorld st.scratch cur := by
  intro st'
  unfold st' Tess.relaxReverse
  have hgM := I.labels.closed_lt cur hcur
  rw [fieldLabels_g] at hgM
  -- no edge of the field leads to a tile that is not admitted
  by_cases h0 : admits p.dest = true
  swap
  · rw [if_pos (by simpa using h0)]
    refine ⟨⟨parent, I.offered hcur rfl rfl I.stamped id ?_ Or.inl fun w j he hrep => ?_⟩,
      le_rfl, rfl⟩
    · exact fun h => h.resolve_right fun h => h0 h.1
    · exact absurd (hrep.2.1 ▸ he.1) h0
  rw [if_neg (by simp [h0])]
  -- nothing is known of what lies in a missing chunk
  by_cases h1 : p.availability = .missingTopology
  · rw [if_pos h1]
    refine ⟨⟨parent, I.offered hcur rfl rfl I.stamped id (fun _ => rfl) Or.inl
      fun w j _ hrep => ?_⟩, le_rfl, rfl⟩
    exact absurd (hrep.1.symm.trans h1) (by decide)
  rw [if_neg h1]
  have hl : p.availability = .legal := by
    have := not_blocked_of_mem_forEachReverse hp
    cases ha : p.availability with
    | legal => rfl
    | blocked => exact absurd ha this
    | missingTopology => exact absurd ha h1
  obtain ⟨k, hstep, hrep⟩ := reverseStep_of_mem_forEachReverse hprov hpass hp hl
  have hedge : FieldEdge W.toWorld M.cls M.prov admits cur p.dest k := ⟨h0, hstep⟩
  have hcm : st.crossedMissing = true ∨
      (admits p.dest = true ∧ p.availability = .missingTopology) → st.crossedMissing = true :=
    fun h => h.resolve_right fun h => h1 h.2
  have hres := resident_of_isPassable hstep.1
  have hopen : fieldLabel W.toWorld (st.scratch.openNode (offset W.toWorld (S.tileKey p.dest))
      (S.tileKey p.dest)) = fieldLabel W.toWorld st.scratch := by
    funext c
    unfold fieldLabel
    rw [DistanceFieldScratch.distanceAt_openNode]
  -- the cost of the step alone reaches the sentinel
  by_cases h2 : p.costOverflow = true
  · have hk : infiniteCost ≤ k := by simpa [hrep.2.2.2.2] using h2
    rw [if_pos h2]
    refine ⟨⟨parent, I.offered hcur rfl rfl I.stamped (fun _ => rfl) hcm
      (fun _ => Or.inr ⟨p.dest, k, hedge, by omega⟩) fun w j _ hrep' => ?_⟩, le_rfl, rfl⟩
    have hj : infiniteCost ≤ j := by simpa [hrep'.2.2.2.2] using h2
    exact Or.inr (Or.inr ⟨by omega, rfl⟩)
  have hk : k < infiniteCost := by simpa [hrep.2.2.2.2] using h2
  rw [if_neg h2, hrep.2.2.1, if_neg (by simp [(isResidentIndex_tileKey hres.contains).2 hres])]
  dsimp only
  rw [hrep.2.2.2.1, min_eq_left hk.le, saturatingAdd_eq_min hgM.le,
    DistanceFieldScratch.distanceAt_openNode, ← fieldLabel_of_resident (s := st.scratch) hres]
  have hmeasure : fieldMeasure W.toWorld (st.scratch.openNode
      (offset W.toWorld (S.tileKey p.dest)) (S.tileKey p.dest)) =
        fieldMeasure W.toWorld st.scratch := by
    unfold fieldMeasure
    simp only [DistanceFieldScratch.distanceAt_openNode,
      DistanceFieldScratch.weightedFrontier_openNode]
  -- the sum is cut off at the sentinel
  by_cases h3 : infiniteCost ≤ fieldLabel W.toWorld st.scratch cur + k
  · rw [if_pos (min_eq_right h3)]
    refine ⟨⟨parent, I.offered hcur hopen (DistanceFieldScratch.weightedFrontier_openNode _ _)
      (I.stamped.openNode _ _) (fun _ => rfl) hcm (fun _ => Or.inr ⟨p.dest, k, hedge, h3⟩)
      fun w j _ hrep' => ?_⟩, hmeasure.le, congrFun hopen cur⟩
    obtain ⟨rfl, rfl⟩ := hrep.cost_eq hrep' hk
    exact Or.inr (Or.inr ⟨h3, rfl⟩)
  rw [min_eq_left (not_le.1 h3).le, if_neg (not_le.1 h3).ne]
  -- below the sentinel the label is lowered, or was small enough before
  split_ifs with h4
  · set s := st.scratch.openNode (offset W.toWorld (S.tileKey p.dest)) (S.tileKey p.dest) with hs
    have hcurrent : s.isCurrent (offset W.toWorld (S.tileKey p.dest)) = true := by simp [hs]
    have hlabel : fieldLabel W.toWorld ((s.setDistance (offset W.toWorld (S.tileKey p.dest))
        (fieldLabel W.toWorld st.scratch cur + k)).pushHeap (S.tileKey p.dest)
          (fieldLabel W.toWorld st.scratch cur + k)) =
        Function.update (fieldLabel W.toWorld st.scratch) p.dest
          (fieldLabel W.toWorld st.scratch cur + k) := by
      rw [← hopen]
      exact fieldLabel_update hres fun o =>
        DistanceFieldScratch.distanceAt_setDistance hcurrent _ _
    have hne : cur ≠ p.dest := fun h => by rw [h] at h4; omega
    refine ⟨⟨_, I.lowered hcur hrep hedge h4 (not_le.1 h3) hlabel ?_ ?_ rfl rfl⟩, ?_, ?_⟩
    · exact congrArg _ (DistanceFieldScratch.weightedFrontier_openNode _ _)
    · exact (I.stamped.openNode _ _).congr rfl rfl rfl rfl
    · refine (fieldMeasure_lower hcurrent (offset_lt_capacityHint hres) ?_ _).trans hmeasure.le
      rwa [hs, DistanceFieldScratch.distanceAt_openNode, ← fieldLabel_of_resident hres]
    · rw [hlabel, Function.update_of_ne hne]
  · refine ⟨⟨parent, I.offered hcur hopen (DistanceFieldScratch.weightedFrontier_openNode _ _)
      (I.stamped.openNode _ _) id hcm Or.inl fun w j _ hrep' => ?_⟩, hmeasure.le,
      congrFun hopen cur⟩
    obtain ⟨rfl, rfl⟩ := hrep.cost_eq hrep' hk
    exact Or.inr (Or.inl ⟨not_lt.1 h4, lt_of_le_of_lt (not_lt.1 h4) (not_le.1 h3)⟩)

/-- **Offering all probes** into the tile that was expanded last. -/
theorem foldl_relaxReverse (hprov : M.prov.Mirrored) {d : ℕ}
    (I : FieldInv W M admits goal st parent closed cur probes) (hcur : closed cur)
    (hpass : isPassable W.toWorld M.cls cur = true)
    (hprobes : ∀ p ∈ probes, p ∈ forEachReverse W.toWorld M.cls M.prov cur)
    (hd : fieldLabel W.toWorld st.scratch cur = d) :
    let st' := probes.foldl (Tess.relaxReverse W.toWorld admits d) st
    (∃ parent', FieldInv W M admits goal st' parent' closed cur []) ∧
      fieldMeasure W.toWorld st'.scratch ≤ fieldMeasure W.toWorld st.scratch := by
  induction probes generalizing st parent with
  | nil => exact ⟨⟨parent, I⟩, le_rfl⟩
  | cons p probes ih =>
    rw [List.foldl_cons]
    obtain ⟨⟨parent', I'⟩, hle, hlabel⟩ :=
      I.relaxReverse hprov hcur hpass (hprobes p List.mem_cons_self)
    rw [hd] at I' hle hlabel
    obtain ⟨h1, h2⟩ := ih I' (fun q hq => hprobes q (List.mem_cons_of_mem _ hq)) hlabel
    exact ⟨h1, h2.trans hle⟩

/-- Entries of another label than the tile's may be dropped. -/
theorem dropped (I : FieldInv W M admits goal st parent closed cur [])
    (hs : st'.scratch = st.scratch.setHeap st'.scratch.weightedFrontier)
    (hcm : st'.crossedMissing = st.crossedMissing) (hco : st'.costOverflow = st.costOverflow)
    (hsub : ∀ n ∈ st'.scratch.weightedFrontier, n ∈ st.scratch.weightedFrontier)
    (hkeep : ∀ c, fieldLabel W.toWorld st.scratch c < infiniteCost → ¬ closed c →
      fieldEntry S c (fieldLabel W.toWorld st.scratch c) ∈ st.scratch.weightedFrontier →
        fieldEntry S c (fieldLabel W.toWorld st.scratch c) ∈ st'.scratch.weightedFrontier) :
    FieldInv W M admits goal st' parent closed cur [] := by
  have hlabel : fieldLabel W.toWorld st'.scratch = fieldLabel W.toWorld st.scratch := by
    rw [hs]
    rfl
  have hlabels : fieldLabels W.toWorld st'.scratch parent closed =
      fieldLabels W.toWorld st.scratch parent closed := by
    unfold fieldLabels
    rw [hlabel]
  refine ⟨?_, by rw [hlabel]; exact I.label_le, fun n hn => I.entries n (hsub n hn), ?_, ?_, ?_⟩
  · rw [hlabels, hco]
    exact I.labels.requeue fun c hc hcl hq => ⟨hq.1, hq.2.1, hkeep c hc hcl hq.2.2⟩
  · rw [hcm]
    exact I.missing
  · rw [hlabel, hco]
    exact I.overflowed
  · exact I.stamped.congr (by rw [hs]; rfl) (by rw [hs]; rfl) (by rw [hs]; rfl) (by rw [hs]; rfl)

theorem labels_nil (I : FieldInv W M admits goal st parent closed cur []) :
    (fieldLabels W.toWorld st.scratch parent closed).Inv
      (FieldEdge W.toWorld M.cls M.prov admits) (fun _ => 0) infiniteCost goal
      (InHeap W.toWorld st.scratch.weightedFrontier) (st.costOverflow = true)
      (fun _ _ _ => False) := by
  have h := I.labels
  rwa [SearchInv.pending_nil] at h

/-- **Expanding the tile of a least entry**: the steps into it are now to be offered. -/
theorem expand (hprov : M.prov.Mirrored) (I : FieldInv W M admits goal st parent closed cur [])
    (hlt : fieldLabel W.toWorld st.scratch c < infiniteCost)
    {rest : List PackedOpenNode} (hpop : popHeap st.scratch.weightedFrontier =
      some (fieldEntry S c (fieldLabel W.toWorld st.scratch c), rest))
    (hs : st'.scratch = st.scratch.setHeap rest)
    (hcm : st'.crossedMissing = st.crossedMissing) (hco : st'.costOverflow = st.costOverflow) :
    ∃ closed', closed' c ∧
      FieldInv W M admits goal st' parent closed' c (forEachReverse W.toWorld M.cls M.prov c) := by
  obtain ⟨-, hmin, hkeep, hsub, -⟩ := popHeap_eq_some hpop
  have hlabel : fieldLabel W.toWorld st'.scratch = fieldLabel W.toWorld st.scratch := by
    rw [hs]
    rfl
  have hrest : st'.scratch.weightedFrontier = rest := by rw [hs]; rfl
  have hother {v : Coord3} {y : ℕ} (hv : S.contains v = true) (hy : y ≤ infiniteCost)
      (hvc : v ≠ c) : fieldEntry S v y ≠ fieldEntry S c (fieldLabel W.toWorld st.scratch c) :=
    fun h => hvc (fieldEntry_inj M.cls hv (resident_of_fieldLabel_lt hlt).contains hy hlt.le h).1
  have hmissing {closed' : Coord3 → Prop} (h : ∀ u, closed' u → closed u ∨ u = c) :
      ∀ u, closed' u → ∀ p ∈ forEachReverse W.toWorld M.cls M.prov u, admits p.dest = true →
        p.availability = .missingTopology →
          (u = c ∧ p ∈ forEachReverse W.toWorld M.cls M.prov c) ∨ st'.crossedMissing = true := by
    intro u hu p hp ha hm
    rcases h u hu with hu | rfl
    · rw [hcm]
      exact Or.inr ((I.missing u hu p hp ha hm).resolve_left fun h => absurd h.2 List.not_mem_nil)
    · exact Or.inl ⟨rfl, hp⟩
  have hstamped : Stamped W M goal st'.scratch :=
    I.stamped.congr (by rw [hs]; rfl) (by rw [hs]; rfl) (by rw [hs]; rfl) (by rw [hs]; rfl)
  by_cases hc : closed c
  · -- an entry that is met again once its tile is closed offers nothing new
    refine ⟨closed, hc, ?_⟩
    have I' : FieldInv W M admits goal st' parent closed cur [] :=
      I.dropped (by rw [hs]; rfl) hcm hco (fun n hn => hsub n (hrest ▸ hn)) fun v hv hvc hmem =>
        hrest ▸ hkeep _ hmem
          (hother (resident_of_fieldLabel_lt hv).contains hv.le fun h => hvc (h ▸ hc))
    exact ⟨I'.labels_nil.settle id fun _ _ _ _ _ h => absurd h id, I'.label_le, I'.entries,
      hmissing fun _ => Or.inl, I'.overflowed, hstamped⟩
  · refine ⟨fun u => closed u ∨ u = c, Or.inr rfl, ?_, by rw [hlabel]; exact I.label_le,
      fun n hn => I.entries n (hsub n (hrest ▸ hn)), hmissing fun _ => id, ?_, hstamped⟩
    · rw [hco, hrest]
      refine I.labels_nil.close (fun _ _ _ _ => Nat.zero_le _) hlt hc (fun w y hy => ?_)
        (fun w => congrFun hlabel w) (fun _ => rfl) (fun _ => .rfl) (fun w y hwc hy => ?_)
        fun w j he => ?_
      · have hf := PackedOpenNode.f_le_of_key_le (hmin _ hy.2.2)
        rw [fieldEntry, fieldEntry, PackedOpenNode.f_make, PackedOpenNode.f_make] at hf
        simp only [fieldLabels_g]
        omega
      · exact ⟨hy.1, hy.2.1, hkeep _ hy.2.2 (hother hy.1.contains hy.2.1.le hwc)⟩
      · obtain ⟨p, hp, hrep⟩ := mem_forEachReverse_of_reverseStep hprov he.2
        exact ⟨rfl, p, hp, hrep⟩
    · rw [hlabel, hco]
      intro h
      obtain ⟨u, v, k, hu, he⟩ := I.overflowed h
      exact ⟨u, v, k, Or.inl hu, he⟩

end FieldInv

variable (W M admits goal) in
/-- The invariant between two rounds. -/
def FieldReady (st : FieldState) : Prop :=
  ∃ parent closed cur, FieldInv W M admits goal st parent closed cur []

/-- **A round keeps the invariant** and uses something up. -/
theorem FieldReady.heapRound (hprov : M.prov.Mirrored) (h : FieldReady W M admits goal st)
    (hround : heapRound W.toWorld M.cls M.prov admits st = .inl st') :
    FieldReady W M admits goal st' ∧
      fieldMeasure W.toWorld st'.scratch < fieldMeasure W.toWorld st.scratch := by
  obtain ⟨parent, closed, cur, I⟩ := h
  unfold Tess.heapRound at hround
  cases hpop : popHeap st.scratch.weightedFrontier with
  | none =>
    rw [hpop] at hround
    cases hround
  | some top =>
    obtain ⟨current, rest⟩ := top
    obtain ⟨hmem, -, hkeep, hsub, hlen⟩ := popHeap_eq_some hpop
    obtain ⟨c, x, hpass, hx, rfl⟩ := I.entries _ hmem
    have hres := resident_of_isPassable hpass
    rw [hpop] at hround
    dsimp only at hround
    rw [fieldEntry_nodeIndex M.cls hres.contains, fieldEntry_g hx.le,
      Shape.coord_tileKey hres.contains] at hround
    have hlabel : (st.scratch.setHeap rest).distanceAt (offset W.toWorld (S.tileKey c)) =
        fieldLabel W.toWorld st.scratch c := (fieldLabel_of_resident hres).symm
    have hpopped : fieldMeasure W.toWorld (st.scratch.setHeap rest) <
        fieldMeasure W.toWorld st.scratch := by
      have hsame : ∑ o ∈ Finset.range (capacityHint W.toWorld),
          (st.scratch.setHeap rest).distanceAt o =
            ∑ o ∈ Finset.range (capacityHint W.toWorld), st.scratch.distanceAt o := rfl
      have hrest : (st.scratch.setHeap rest).weightedFrontier.length = rest.length := rfl
      unfold fieldMeasure
      omega
    rw [hlabel] at hround
    split_ifs at hround with hstale <;> obtain rfl := Sum.inl.inj hround
    · refine ⟨⟨parent, closed, cur, I.dropped rfl rfl rfl hsub fun v hv _ hm => ?_⟩, hpopped⟩
      refine hkeep _ hm fun heq => ?_
      obtain ⟨rfl, hxv⟩ := fieldEntry_inj M.cls (resident_of_fieldLabel_lt hv).contains
        hres.contains hv.le hx.le heq
      exact hstale hxv.symm
    · obtain rfl := not_ne_iff.1 hstale
      have hexpand : ∃ closed', closed' c ∧ FieldInv W M admits goal
          { st with
            scratch := st.scratch.setHeap rest
            expandedNodes := st.expandedNodes + 1 } parent closed' c
          (forEachReverse W.toWorld M.cls M.prov c) := I.expand hprov hx hpop rfl rfl rfl
      obtain ⟨closed', hc, I'⟩ := hexpand
      obtain ⟨⟨parent', I''⟩, hle⟩ :=
        I'.foldl_relaxReverse hprov hc hpass (fun _ hp => hp) rfl
      exact ⟨⟨parent', closed', c, I''⟩, lt_of_le_of_lt hle hpopped⟩

theorem heapRound_done {r : FieldState}
    (hround : heapRound W.toWorld M.cls M.prov admits st = .inr r) :
    r = st ∧ st.scratch.weightedFrontier = [] := by
  unfold Tess.heapRound at hround
  cases hheap : st.scratch.weightedFrontier with
  | nil =>
    rw [hheap] at hround
    exact ⟨(Sum.inr.inj hround).symm, rfl⟩
  | cons n l =>
    rw [hheap, popHeap] at hround
    dsimp only at hround
    split_ifs at hround

end Invariant

/-! ### Finished builds -/

/-- **The labels of a field**: least costs to the goal over the steps of the field, as far as the
sentinel lets one tell, each of them led to by a step from a smaller label. -/
structure IsField {S : Shape} {Tag : Type*} (W : World S Tag) (cls : MovementClass S Tag)
    (prov : Provider S Tag) (admits : Coord3 → Bool) (goal : Coord3) (s : DistanceFieldScratch) :
    Prop where
  /-- The goal has label zero. -/
  goal_label : fieldLabel W s goal = 0
  /-- Labels are at most the sentinel. -/
  label_le : ∀ c, fieldLabel W s c ≤ infiniteCost
  /-- Every other labelled tile has a step to a labelled one that accounts for its label. -/
  led : ∀ c, fieldLabel W s c < infiniteCost → c ≠ goal → ∃ b k,
    FieldEdge W cls prov admits b c k ∧ fieldLabel W s c = fieldLabel W s b + k
  /-- No route is cheaper than a label. -/
  least : ∀ c C, Reaches (FieldEdge W cls prov admits) goal c C → C < infiniteCost →
    fieldLabel W s c ≤ C

section Finished

variable {S : Shape} {Tag : Type*} {W : FieldWorld S Tag} {M : FieldModel S Tag}
  {admits : Coord3 → Bool} {goal c : Coord3} {st : FieldState} {s : DistanceFieldScratch}
  {policy : MissingChunkPolicy} {C : ℕ}

/-- A label is the cost of a route. -/
theorem IsField.reaches {W : World S Tag} {cls : MovementClass S Tag} {prov : Provider S Tag}
    (F : IsField W cls prov admits goal s) (hc : fieldLabel W s c < infiniteCost) :
    Reaches (FieldEdge W cls prov admits) goal c (fieldLabel W s c) := by
  -- the step that accounts for a label comes from a smaller one
  induction hn : fieldLabel W s c using Nat.strong_induction_on generalizing c with
  | _ n ih =>
    by_cases hgoal : c = goal
    · obtain rfl : n = 0 := by rw [← hn, hgoal, F.goal_label]
      exact hgoal ▸ .refl c
    · obtain ⟨b, k, he, hk⟩ := F.led c hc hgoal
      have hpos := fieldEdge_pos he
      have hr := ih (fieldLabel W s b) (by omega) (by omega) rfl
      rw [← hn, hk]
      exact hr.tail he

/-- An exhausted search has labelled the field. -/
theorem FieldReady.isField (h : FieldReady W M admits goal st)
    (hempty : st.scratch.weightedFrontier = []) :
    IsField W.toWorld M.cls M.prov admits goal st.scratch ∧
      (st.costOverflow = false → ∀ c C,
        Reaches (FieldEdge W.toWorld M.cls M.prov admits) goal c C →
          fieldLabel W.toWorld st.scratch c < infiniteCost) ∧
      (st.crossedMissing = false → ∀ c, fieldLabel W.toWorld st.scratch c < infiniteCost →
        ∀ p ∈ forEachReverse W.toWorld M.cls M.prov c, admits p.dest = true →
          p.availability ≠ .missingTopology) := by
  obtain ⟨parent, closed, cur, I⟩ := h
  have hnil : ∀ c x, ¬ InHeap W.toWorld st.scratch.weightedFrontier c x := by
    rintro c x ⟨-, -, hm⟩
    rw [hempty] at hm
    exact absurd hm List.not_mem_nil
  have L := I.labels_nil
  have hclosed (c : Coord3) (hc : fieldLabel W.toWorld st.scratch c < infiniteCost) : closed c :=
    L.closed_of_empty hnil hc
  -- once the heap is empty every labelled tile is closed
  refine ⟨⟨L.start_g, I.label_le, fun c hc hne => ?_, fun c C hr hC => ?_⟩, fun hov c C hr => ?_,
    fun hcm c hc p hp ha hm => ?_⟩
  · obtain ⟨-, k, he, hk⟩ := L.chain c hc hne
    exact ⟨parent c, k, he, hk⟩
  · exact L.opt c C (L.closed_of_reaches_of_lt infiniteCost_pos (fun _ _ _ _ => Nat.zero_le _)
      hnil hr (by simpa using hC)) hr (by simpa using hC)
  · exact L.closed_lt c (L.closed_of_reaches infiniteCost_pos hnil (by simp [hov]) hr)
  · rcases I.missing c (hclosed c hc) p hp ha hm with ⟨-, h⟩ | h
    · exact absurd h List.not_mem_nil
    · rw [hcm] at h
      cases h

theorem stamped_stampBuild : Stamped W M goal (s.stampBuild W M goal) := by
  unfold DistanceFieldScratch.stampBuild DistanceFieldScratch.stampResidency
  constructor <;> cases h : W.residency <;>
    simp [DistanceFieldScratch.residencyMatches, h]

/-- Only the goal is touched when a build begins. -/
theorem isCurrent_openGoal (o : ℕ) : (openGoal W M goal s.clearBuild).isCurrent o =
    decide (o = offset W.toWorld (S.tileKey goal)) := by
  have hfresh (o : ℕ) : ((s.clearBuild.resize (capacityHint W.toWorld)).stampBuild W M
      goal).isCurrent o = false := by
    rw [DistanceFieldScratch.isCurrent_stampBuild]
    exact DistanceFieldScratch.not_isCurrent_resize
      (fun _ => DistanceFieldScratch.not_isCurrent_clearBuild _) _ _
  rw [openGoal, DistanceFieldScratch.isCurrent_label, hfresh, Bool.or_false]

theorem distanceAt_openGoal (o : ℕ) : (openGoal W M goal s.clearBuild).distanceAt o =
    if o = offset W.toWorld (S.tileKey goal) then 0 else infiniteCost := by
  have hcur : (openGoal W M goal s.clearBuild).isCurrent o =
      decide (o = offset W.toWorld (S.tileKey goal)) := isCurrent_openGoal o
  split_ifs with h
  · rw [openGoal, DistanceFieldScratch.distanceAt_label, if_pos h]
  · rw [decide_eq_false h] at hcur
    exact DistanceFieldScratch.distanceAt_of_not_isCurrent hcur

/-- Only the goal is labelled when a build begins. -/
theorem fieldLabel_openGoal (hres : W.Resident goal) :
    fieldLabel W.toWorld (openGoal W M goal s.clearBuild) =
      Function.update (fun _ => infiniteCost) goal 0 := by
  funext c
  unfold fieldLabel
  by_cases hc : c = goal
  · rw [hc, if_pos hres, Function.update_self, distanceAt_openGoal, if_pos rfl]
  · rw [Function.update_of_ne hc]
    split_ifs with h
    · rw [distanceAt_openGoal, if_neg fun ho => hc (offset_injOn h hres ho)]
    · rfl

/-- **A build begins** with its goal labelled and queued, and nothing else. -/
theorem fieldReady_openGoal (hpass : isPassable W.toWorld M.cls goal = true) :
    FieldReady W M admits goal
      { scratch := (openGoal W M goal s.clearBuild).pushHeap (S.tileKey goal) 0 } ∧
    fieldMeasure W.toWorld ((openGoal W M goal s.clearBuild).pushHeap (S.tileKey goal) 0) <
      heapFuel W.toWorld := by
  have hres := resident_of_isPassable hpass
  set s' := (openGoal W M goal s.clearBuild).pushHeap (S.tileKey goal) 0 with hs'
  have hdist (o : ℕ) : s'.distanceAt o =
      if o = offset W.toWorld (S.tileKey goal) then 0 else infiniteCost := distanceAt_openGoal o
  have hlabel : fieldLabel W.toWorld s' = Function.update (fun _ => infiniteCost) goal 0 :=
    fieldLabel_openGoal hres
  have hheap : s'.weightedFrontier = [fieldEntry S goal 0] := by
    rw [hs']
    show fieldEntry S goal 0 :: (openGoal W M goal s.clearBuild).weightedFrontier = _
    have hnil : (openGoal W M goal s.clearBuild).weightedFrontier = [] := by
      show ((s.clearBuild.resize (capacityHint W.toWorld)).stampBuild W M goal).weightedFrontier
        = []
      rw [DistanceFieldScratch.weightedFrontier_stampBuild,
        DistanceFieldScratch.weightedFrontier_resize]
      rfl
    rw [hnil]
  have hgoal : fieldLabel W.toWorld s' goal = 0 := by rw [hlabel, Function.update_self]
  have hother (c : Coord3) (hc : c ≠ goal) : fieldLabel W.toWorld s' c = infiniteCost := by
    rw [hlabel, Function.update_of_ne hc]
  refine ⟨⟨id, fun _ => False, goal, ?_, fun c => ?_, fun n hn => ?_, fun u hu => absurd hu id,
    fun h => absurd h Bool.false_ne_true, ?_⟩, ?_⟩
  · refine Labels.IsInit.inv ⟨hgoal, hother, fun _ => id⟩ ⟨hres, infiniteCost_pos, ?_⟩
    rw [hheap]
    exact List.mem_singleton_self _
  · by_cases hc : c = goal
    · rw [hc]
      show fieldLabel W.toWorld s' goal ≤ _
      rw [hgoal]
      exact Nat.zero_le _
    · exact (hother c hc).le
  · change n ∈ s'.weightedFrontier at hn
    rw [hheap, List.mem_singleton] at hn
    exact ⟨goal, 0, hpass, infiniteCost_pos, hn⟩
  · exact stamped_stampBuild.congr rfl rfl rfl rfl
  · have hsum : ∑ o ∈ Finset.range (capacityHint W.toWorld), s'.distanceAt o ≤
        capacityHint W.toWorld * infiniteCost := by
      refine (Finset.sum_le_card_nsmul _ _ infiniteCost fun o _ => ?_).trans (by simp)
      rw [hdist]
      split_ifs
      · exact Nat.zero_le _
      · exact le_rfl
    unfold fieldMeasure heapFuel
    rw [hheap, List.length_singleton]
    omega

/-- The checks of a goal pass at a tile that can be entered and is admitted. -/
theorem weightedGoalFailure_eq_none :
    weightedGoalFailure W.toWorld M.cls admits policy goal = none ↔
      enterable W.toWorld M.cls goal = true ∧ admits goal = true := by
  unfold weightedGoalFailure fieldGoalFailure
  rw [enterable_iff]
  by_cases hc : S.contains goal = true
  · rw [tileEntryCostIndex_tileKey hc]
    constructor
    · intro h
      split_ifs at h
      simp_all
    · rintro ⟨⟨hp, he⟩, ha⟩
      have hr := (isResidentIndex_tileKey hc).2 (resident_of_isPassable hp)
      simp [hc, hp, he, ha, hr]
  · have hp : isPassable W.toWorld M.cls goal = false := by
      by_contra hp
      exact hc (contains_of_isPassable (by simpa using hp))
    simp [hc, hp]

/-- A goal that fails its checks is invalid, or its chunk is missing. -/
theorem weightedGoalFailure_status {status : PathStatus}
    (h : weightedGoalFailure W.toWorld M.cls admits policy goal = some status) :
    status = .invalidGoal ∨ (status = .indeterminate ∧ policy = .reportIndeterminate ∧
      ¬ W.Resident goal) := by
  unfold weightedGoalFailure fieldGoalFailure at h
  by_cases hc : S.contains goal = true
  · have hr : isResidentIndex W.toWorld (S.tileKey goal) = true ↔ W.Resident goal :=
      isResidentIndex_tileKey hc
    split_ifs at h <;> simp_all
  · have hc' : (!S.contains goal || !admits goal) = true := by simp [hc]
    rw [if_pos hc'] at h
    exact Or.inl (Option.some.inj h).symm

/-- **What a build leaves behind.** -/
structure FieldBuilt {S : Shape} {Tag : Type*} (W : FieldWorld S Tag) (M : FieldModel S Tag)
    (admits : Coord3 → Bool) (policy : MissingChunkPolicy) (goal : Coord3)
    (r : DistanceFieldResult × DistanceFieldScratch) : Prop where
  /-- There is no other status. -/
  status : r.1.status = .found ∨ r.1.status = .costOverflow ∨ r.1.status = .invalidGoal ∨
    (r.1.status = .indeterminate ∧ policy = .reportIndeterminate)
  /-- What may be read is a field of the goal. -/
  readable : r.2.hasGoal = true → enterable W.toWorld M.cls goal = true ∧ admits goal = true ∧
    Stamped W M goal r.2 ∧ IsField W.toWorld M.cls M.prov admits goal r.2 ∧
      r.2.buildStatus = r.1.status
  /-- A found field may be read; its labels are all there is, and under the reporting policy no
  chunk is missing beside them. -/
  found : r.1.status = .found → r.2.hasGoal = true ∧
    (∀ c C, Reaches (FieldEdge W.toWorld M.cls M.prov admits) goal c C →
      fieldLabel W.toWorld r.2 c < infiniteCost) ∧
    (W.residency = .sparseResident → policy = .reportIndeterminate → ∀ c,
      fieldLabel W.toWorld r.2 c < infiniteCost → ∀ p ∈ forEachReverse W.toWorld M.cls M.prov c,
        admits p.dest = true → p.availability ≠ .missingTopology)
  /-- Other fields that may be read are indeterminate. -/
  unread : r.1.status ≠ .found → r.1.status ≠ .indeterminate → r.2.hasGoal = false
  /-- An indeterminate field that may not be read has no chunk at its goal. -/
  unresident : r.1.status = .indeterminate → r.2.hasGoal = false → ¬ W.Resident goal
  /-- An overflow has a route that causes it. -/
  costOverflow : r.1.status = .costOverflow → admits goal = true ∧ ∃ c C, infiniteCost ≤ C ∧
    Reaches (FieldEdge W.toWorld M.cls M.prov admits) goal c C
  /-- A goal that can be entered is not invalid. -/
  invalidGoal : r.1.status = .invalidGoal → enterable W.toWorld M.cls goal = false ∨
    admits goal = false

theorem heapLoop_ran {W : World S Tag} {cls : MovementClass S Tag} {prov : Provider S Tag}
    {fuel : ℕ} {st' : FieldState} (h : runLoop (heapRound W cls prov admits) fuel st = some st') :
    heapLoop W cls prov admits policy fuel st = finishField W policy st' := by
  rw [heapLoop, h]

/-- A goal that fails its checks ends the build. -/
theorem buildHeapField_failed {status : PathStatus}
    (hgoal : weightedGoalFailure W.toWorld M.cls admits policy goal = some status) :
    buildHeapField W M admits policy goal s = ({ status := status }, s.clearBuild) := by
  rw [buildHeapField, hgoal]

/-- Otherwise the loop runs until nothing is left to expand. -/
theorem buildHeapField_ran
    (hgoal : weightedGoalFailure W.toWorld M.cls admits policy goal = none)
    (hrun : runLoop (heapRound W.toWorld M.cls M.prov admits) (heapFuel W.toWorld)
      { scratch := (openGoal W M goal s.clearBuild).pushHeap (S.tileKey goal) 0 } = some st) :
    buildHeapField W M admits policy goal s = finishField W.toWorld policy st := by
  rw [buildHeapField, hgoal]
  exact heapLoop_ran hrun

/-- What the flags of the loop stand for. -/
theorem FieldReady.flags (h : FieldReady W M admits goal st) : Stamped W M goal st.scratch ∧
    (st.costOverflow = true → ∃ u v k, FieldEdge W.toWorld M.cls M.prov admits u v k ∧
      infiniteCost ≤ fieldLabel W.toWorld st.scratch u + k ∧
        fieldLabel W.toWorld st.scratch u < infiniteCost) := by
  obtain ⟨parent, closed, cur, I⟩ := h
  refine ⟨I.stamped, fun ho => ?_⟩
  obtain ⟨u, v, k, hu, he, hM⟩ := I.overflowed ho
  exact ⟨u, v, k, he, hM, I.labels.closed_lt u hu⟩

/-- What a goal that fails its checks leaves behind. -/
theorem fieldBuilt_failed {status : PathStatus}
    (hgoal : weightedGoalFailure W.toWorld M.cls admits policy goal = some status) :
    FieldBuilt W M admits policy goal ({ status := status }, s.clearBuild) := by
  have hcases := weightedGoalFailure_status hgoal
  have hnone : s.clearBuild.hasGoal = false := rfl
  refine ⟨?_, fun h => absurd (hnone.symm.trans h) Bool.false_ne_true, fun h => ?_,
    fun _ _ => hnone, fun h _ => ?_, fun h => ?_, fun _ => ?_⟩
  · rcases hcases with rfl | ⟨rfl, hp, -⟩
    · exact Or.inr (Or.inr (Or.inl rfl))
    · exact Or.inr (Or.inr (Or.inr ⟨rfl, hp⟩))
  · change status = .found at h
    rcases hcases with h' | ⟨h', -⟩ <;> rw [h] at h' <;> cases h'
  · change status = .indeterminate at h
    rcases hcases with h' | ⟨-, -, hr⟩
    · rw [h] at h'
      cases h'
    · exact hr
  · change status = .costOverflow at h
    rcases hcases with h' | ⟨h', -⟩ <;> rw [h] at h' <;> cases h'
  · have hnot : ¬ (enterable W.toWorld M.cls goal = true ∧ admits goal = true) := fun h => by
      rw [weightedGoalFailure_eq_none.2 h] at hgoal
      cases hgoal
    cases he : enterable W.toWorld M.cls goal with
    | false => exact Or.inl rfl
    | true => exact Or.inr (by simpa [he] using hnot)

/-- **What a build returns for a field.** -/
theorem fieldBuilt_of_isField (henter : enterable W.toWorld M.cls goal = true)
    (hadmits : admits goal = true)
    (hfield : IsField W.toWorld M.cls M.prov admits goal st.scratch)
    (hall : st.costOverflow = false → ∀ c C,
      Reaches (FieldEdge W.toWorld M.cls M.prov admits) goal c C →
        fieldLabel W.toWorld st.scratch c < infiniteCost)
    (hmissing : st.crossedMissing = false → ∀ c,
      fieldLabel W.toWorld st.scratch c < infiniteCost →
        ∀ p ∈ forEachReverse W.toWorld M.cls M.prov c, admits p.dest = true →
          p.availability ≠ .missingTopology)
    (hroute : st.costOverflow = true → ∃ c C, infiniteCost ≤ C ∧
      Reaches (FieldEdge W.toWorld M.cls M.prov admits) goal c C)
    (hstamped : Stamped W M goal st.scratch) :
    FieldBuilt W M admits policy goal (finishField W.toWorld policy st) := by
  have hpublished (status : PathStatus) :
      Stamped W M goal (st.scratch.publishBuildStatus status) ∧
        IsField W.toWorld M.cls M.prov admits goal (st.scratch.publishBuildStatus status) :=
    ⟨hstamped.congr rfl rfl rfl rfl,
      ⟨hfield.goal_label, hfield.label_le, hfield.led, hfield.least⟩⟩
  unfold finishField
  split_ifs with h1 h2
  · obtain ⟨hs, hf⟩ := hpublished .indeterminate
    exact ⟨Or.inr (Or.inr (Or.inr ⟨rfl, h1.2.2⟩)), fun _ => ⟨henter, hadmits, hs, hf, rfl⟩,
      nofun, fun _ h => absurd rfl h, fun _ h => absurd (hs.hasGoal.symm.trans h) (by decide),
      nofun, nofun⟩
  · refine ⟨Or.inr (Or.inl rfl), fun h => ?_, fun h => ?_, fun _ _ => rfl, fun h => ?_,
      fun _ => ⟨hadmits, hroute h2⟩, fun h => ?_⟩ <;> cases h
  · obtain ⟨hs, hf⟩ := hpublished .found
    refine ⟨Or.inl rfl, fun _ => ⟨henter, hadmits, hs, hf, rfl⟩,
      fun _ => ⟨hstamped.hasGoal, hall (by simpa using h2), fun hsp hp => hmissing ?_⟩,
      fun h => absurd rfl h, nofun, nofun, nofun⟩
    by_contra hcm
    exact h1 ⟨hsp, by simpa using hcm, hp⟩

/-- **What an exhausted search leaves behind.** -/
theorem fieldBuilt_finishField (henter : enterable W.toWorld M.cls goal = true)
    (hadmits : admits goal = true) (h : FieldReady W M admits goal st)
    (hempty : st.scratch.weightedFrontier = []) :
    FieldBuilt W M admits policy goal (finishField W.toWorld policy st) := by
  obtain ⟨hfield, hall, hmissing⟩ := h.isField hempty
  obtain ⟨hstamped, hover⟩ := h.flags
  refine fieldBuilt_of_isField henter hadmits hfield hall hmissing (fun ho => ?_) hstamped
  obtain ⟨u, v, k, he, hk, hu⟩ := hover ho
  exact ⟨v, _, hk, (hfield.reaches hu).tail he⟩

variable (W M admits policy goal s) in
/-- **Every build ends**, and leaves behind what its status says. -/
theorem buildHeapField_spec (hprov : M.prov.Mirrored) :
    FieldBuilt W M admits policy goal (buildHeapField W M admits policy goal s) := by
  cases hgoal : weightedGoalFailure W.toWorld M.cls admits policy goal with
  | some status =>
    rw [buildHeapField_failed hgoal]
    exact fieldBuilt_failed hgoal
  | none =>
    obtain ⟨henter, hadmits⟩ := weightedGoalFailure_eq_none.1 hgoal
    obtain ⟨hready, hfuel⟩ := @fieldReady_openGoal _ _ W M admits goal s (enterable_iff.1 henter).1
    obtain ⟨st, r, hst, hdone, hrun⟩ :=
      exists_runLoop (fun _ _ => FieldReady.heapRound hprov) hready hfuel
    obtain ⟨rfl, hempty⟩ := heapRound_done hdone
    rw [buildHeapField_ran hgoal hrun]
    exact fieldBuilt_finishField henter hadmits hst hempty

end Finished

end Tess
