import Tess.Path.Astar

/-!
# Reused scratch

The searches run in caller-owned scratch that outlives every query.  Two scratches that are
alike as far as the running query can tell lead to the same answer.

* `SameNodes`, `SameRun` : the nodes and flags of two runs are alike;
* `weightedLoop_answer`, `unitLoop_answer` : **alike runs give one answer**;
* `weightedAstarPath_answer`, `astarPath_answer` : the answer does not depend on the scratch.
-/

namespace Tess

/-- What a query answers, apart from the path and the counters. -/
def PathResult.answer (r : PathResult) : PathStatus × ℕ := (r.status, r.cost)

/-- The running queries of two scratches see the same nodes and frontiers. -/
structure SameNodes (s s' : PathScratch) : Prop where
  /-- The same entries count. -/
  isCurrent : ∀ o, s.isCurrent o = s'.isCurrent o
  /-- States agree. -/
  stateAt : ∀ o, s.stateAt o = s'.stateAt o
  /-- Labels agree. -/
  gAt : ∀ o, s.gAt o = s'.gAt o
  /-- The frontiers agree. -/
  openList : s.openList = s'.openList
  /-- The second bands agree. -/
  openNext : s.openNext = s'.openNext

/-- Two runs of a search are alike. -/
structure SameRun (st st' : SearchState) : Prop where
  /-- The nodes are alike. -/
  nodes : SameNodes st.scratch st'.scratch
  /-- Missing chunks were seen in both or in neither. -/
  crossedMissing : st.crossedMissing = st'.crossedMissing
  /-- Overflows were seen in both or in neither. -/
  costOverflow : st.costOverflow = st'.costOverflow

namespace SameNodes

variable {s s' : PathScratch}

theorem of_not_isCurrent (h : ∀ o, s.isCurrent o = false) (h' : ∀ o, s'.isCurrent o = false)
    (ho : s.openList = s'.openList) (hn : s.openNext = s'.openNext) : SameNodes s s' :=
  ⟨fun o => by rw [h, h'], fun o => by simp [PathScratch.stateAt, h, h'],
    fun o => by simp [PathScratch.gAt, h, h'], ho, hn⟩

theorem openStart (h : SameNodes s s') (o : ℕ) : SameNodes (s.openStart o) (s'.openStart o) := by
  refine ⟨fun o' => ?_, fun o' => ?_, fun o' => ?_, h.openList, h.openNext⟩
  · simp only [PathScratch.openStart, PathScratch.isCurrent_touchNode]
    exact congrArg (decide (o' = o) || ·) (h.isCurrent o')
  · rw [PathScratch.stateAt_openStart, PathScratch.stateAt_openStart, h.stateAt]
  · rw [PathScratch.gAt_openStart, PathScratch.gAt_openStart, h.gAt]

theorem push (h : SameNodes s s') (n : PackedOpenNode) : SameNodes (s.push n) (s'.push n) :=
  ⟨h.isCurrent, h.stateAt, h.gAt, by simp [h.openList], h.openNext⟩

theorem pushNext (h : SameNodes s s') (n : PackedOpenNode) :
    SameNodes (s.pushNext n) (s'.pushNext n) :=
  ⟨h.isCurrent, h.stateAt, h.gAt, h.openList, by simp [PathScratch.pushNext, h.openNext]⟩

theorem setOpen (h : SameNodes s s') (l : List PackedOpenNode) :
    SameNodes (s.setOpen l) (s'.setOpen l) :=
  ⟨h.isCurrent, h.stateAt, h.gAt, rfl, h.openNext⟩

theorem swapBands (h : SameNodes s s') : SameNodes s.swapBands s'.swapBands :=
  ⟨h.isCurrent, h.stateAt, h.gAt, h.openNext, h.openList⟩

theorem closeNode (h : SameNodes s s') (o : ℕ) : SameNodes (s.closeNode o) (s'.closeNode o) := by
  refine ⟨h.isCurrent, fun o' => ?_, h.gAt, h.openList, h.openNext⟩
  have hcur : ∀ t : PathScratch, (t.closeNode o).stateAt o' =
      if t.isCurrent o' = true ∧ o' = o then .closed else t.stateAt o' := fun t => by
    change (if t.isCurrent o' then _ else _) = _
    unfold PathScratch.stateAt
    by_cases hc : t.isCurrent o' = true
    · by_cases ho : o' = o
      · simp only [ho ▸ hc, ho, PathScratch.closeNode, if_true, and_self]
      · simp only [hc, ho, PathScratch.closeNode, if_true, if_false, and_false]
    · simp only [hc, if_false, false_and, Bool.false_eq_true]
  rw [hcur, hcur, h.isCurrent, h.stateAt]

theorem lowerNode (h : SameNodes s s') (o g p : ℕ) :
    SameNodes (s.lowerNode o g p) (s'.lowerNode o g p) := by
  refine ⟨fun o' => ?_, fun o' => ?_, fun o' => ?_, ?_, ?_⟩
  · rw [PathScratch.isCurrent_lowerNode, PathScratch.isCurrent_lowerNode, h.isCurrent]
  · rw [PathScratch.stateAt_lowerNode, PathScratch.stateAt_lowerNode, h.stateAt]
  · rw [PathScratch.gAt_lowerNode, PathScratch.gAt_lowerNode, h.gAt]
  · rw [PathScratch.openList_lowerNode, PathScratch.openList_lowerNode, h.openList]
  · rw [PathScratch.openNext_lowerNode, PathScratch.openNext_lowerNode, h.openNext]

/-- After clearing and sizing, any two scratches are alike. -/
theorem clear_resize (s s' : PathScratch) (n : ℕ) :
    SameNodes (s.clear.resize n) (s'.clear.resize n) := by
  refine of_not_isCurrent
    (fun o => PathScratch.not_isCurrent_resize PathScratch.not_isCurrent_clear n o)
    (fun o => PathScratch.not_isCurrent_resize PathScratch.not_isCurrent_clear n o) ?_ ?_
  · rw [PathScratch.openList_resize, PathScratch.openList_resize]
    rfl
  · rw [PathScratch.openNext_resize, PathScratch.openNext_resize]
    rfl

end SameNodes

section Loops

variable {S : Shape} {Tag : Type*} {W : World S Tag} {cls : MovementClass S Tag}
  {prov : Provider S Tag} {policy : MissingChunkPolicy} {request : PathRequest}
  {seed : BitVec 64} {st st' : SearchState}

/-- Folding a sink that keeps runs alike keeps them alike. -/
theorem SameRun.foldl {offer : SearchState → TransitionProbe → SearchState}
    (hoffer : ∀ st st' p, SameRun st st' → SameRun (offer st p) (offer st' p))
    (probes : List TransitionProbe) (h : SameRun st st') :
    SameRun (probes.foldl offer st) (probes.foldl offer st') := by
  induction probes generalizing st st' with
  | nil => exact h
  | cons p ps ih => exact ih (hoffer st st' p h)

theorem SameRun.relaxProbe (goal : Coord3) (index g : ℕ) (p : TransitionProbe)
    (h : SameRun st st') :
    SameRun (relaxProbe W cls prov goal seed index g st p)
      (relaxProbe W cls prov goal seed index g st' p) := by
  unfold Tess.relaxProbe
  split_ifs
  · exact ⟨h.nodes, rfl, h.costOverflow⟩
  · exact ⟨h.nodes, h.crossedMissing, rfl⟩
  · cases residentOffset W p.destIndex with
    | none => exact ⟨h.nodes, rfl, h.costOverflow⟩
    | some o =>
      simp only [h.nodes.stateAt, h.nodes.gAt]
      split_ifs
      · exact h
      · exact ⟨h.nodes, h.crossedMissing, rfl⟩
      · exact ⟨(h.nodes.lowerNode _ _ _).push _, h.crossedMissing, h.costOverflow⟩
      · exact h

theorem SameRun.relaxUnit (goal : Coord3) (index g currentF : ℕ) (p : TransitionProbe)
    (h : SameRun st st') :
    SameRun (relaxUnit W cls goal index g currentF st p)
      (relaxUnit W cls goal index g currentF st' p) := by
  unfold Tess.relaxUnit
  split_ifs
  · exact ⟨h.nodes, rfl, h.costOverflow⟩
  · cases residentOffset W p.destIndex with
    | none => exact ⟨h.nodes, rfl, h.costOverflow⟩
    | some o =>
      simp only [h.nodes.stateAt, h.nodes.gAt]
      split_ifs
      · exact h
      · exact ⟨(h.nodes.lowerNode _ _ _).push _, h.crossedMissing, h.costOverflow⟩
      · exact ⟨(h.nodes.lowerNode _ _ _).pushNext _, h.crossedMissing, h.costOverflow⟩
      · exact h

theorem SameRun.exhaustedResult (h : SameRun st st') :
    (exhaustedResult W cls policy st).1.answer = (exhaustedResult W cls policy st').1.answer := by
  simp only [Tess.exhaustedResult, PathResult.answer, h.crossedMissing, h.costOverflow]

/-- **Alike runs of the heap loop** give one answer. -/
theorem weightedLoop_answer (fuel : ℕ) (h : SameRun st st') :
    (weightedLoop W cls prov policy request seed fuel st).1.answer =
      (weightedLoop W cls prov policy request seed fuel st').1.answer := by
  induction fuel generalizing st st' with
  | zero => rfl
  | succ fuel ih =>
    simp only [weightedLoop, h.nodes.openList]
    cases popHeap st'.scratch.openList with
    | none => exact h.exhaustedResult
    | some pair =>
      have hnodes := h.nodes.setOpen pair.2
      simp only [hnodes.stateAt, hnodes.gAt]
      split_ifs
      · exact ih ⟨hnodes, h.crossedMissing, h.costOverflow⟩
      · rfl
      · exact ih (SameRun.foldl (fun _ _ p h => h.relaxProbe _ _ _ p) _
          ⟨hnodes.closeNode _, h.crossedMissing, h.costOverflow⟩)

/-- **Alike runs of the two-list loop** give one answer. -/
theorem unitLoop_answer (fuel currentF : ℕ) (h : SameRun st st') :
    (unitLoop W cls policy request fuel currentF st).1.answer =
      (unitLoop W cls policy request fuel currentF st').1.answer := by
  induction fuel generalizing st st' currentF with
  | zero => rfl
  | succ fuel ih =>
    simp only [unitLoop, h.nodes.openList, h.nodes.openNext]
    by_cases hempty : st'.scratch.openList = [] ∧ st'.scratch.openNext = []
    · rw [if_pos hempty, if_pos hempty]
      exact h.exhaustedResult
    rw [if_neg hempty, if_neg hempty]
    have hswap : SameNodes
        (if st'.scratch.openList.isEmpty = true then st.scratch.swapBands else st.scratch)
        (if st'.scratch.openList.isEmpty = true then st'.scratch.swapBands else st'.scratch) := by
      split_ifs
      · exact h.nodes.swapBands
      · exact h.nodes
    generalize (if st'.scratch.openList.isEmpty = true then st.scratch.swapBands
      else st.scratch) = s at *
    generalize (if st'.scratch.openList.isEmpty = true then st'.scratch.swapBands
      else st'.scratch) = s' at *
    rw [hswap.openList]
    cases s'.openList with
    | nil => rfl
    | cons n rest =>
      have hnodes := hswap.setOpen rest
      simp only [hnodes.stateAt, hnodes.gAt]
      generalize (if st'.scratch.openList.isEmpty = true then saturatingAdd currentF 2
        else currentF) = F
      split_ifs
      · exact ih _ ⟨hnodes, h.crossedMissing, h.costOverflow⟩
      · rfl
      · exact ih _ (SameRun.foldl (fun _ _ p h => h.relaxUnit _ _ _ _ p) _
          ⟨hnodes.closeNode _, h.crossedMissing, h.costOverflow⟩)

theorem heapSearch_answer (s s' : PathScratch) :
    (heapSearch W cls prov policy request seed s.clear).1.answer =
      (heapSearch W cls prov policy request seed s'.clear).1.answer := by
  have hnodes := ((SameNodes.clear_resize s s' (capacityHint W)).openStart
    (offset W (S.tileKey request.start))).push
      (.make (S.tileKey request.start) 0 (heuristic cls prov request.start request.goal) seed)
  exact weightedLoop_answer _ ⟨hnodes, rfl, rfl⟩

theorem unitSearch_answer (s s' : PathScratch) :
    (unitSearch W cls policy request s.clear).1.answer =
      (unitSearch W cls policy request s'.clear).1.answer := by
  have hnodes := ((SameNodes.clear_resize s s' (capacityHint W)).openStart
    (offset W (S.tileKey request.start))).push (.make (S.tileKey request.start) 0
      (heuristic cls.unit (adjacentTransitions S Tag) request.start request.goal) 0)
  exact unitLoop_answer _ _ ⟨hnodes, rfl, rfl⟩

/-- **`weighted_astar_path` does not depend on its scratch.** -/
theorem weightedAstarPath_answer (s s' : PathScratch) :
    (weightedAstarPath W cls prov policy request seed s).1.answer =
      (weightedAstarPath W cls prov policy request seed s').1.answer := by
  unfold weightedAstarPath
  cases endpointFailure W cls policy request with
  | some status => rfl
  | none =>
    simp only
    split_ifs
    · rfl
    · rfl
    · cases weightedShortcut W cls request with
      | some r => rfl
      | none => exact heapSearch_answer s s'
    · exact heapSearch_answer s s'

/-- **`astar_path` does not depend on its scratch.** -/
theorem astarPath_answer (s s' : PathScratch) :
    (astarPath W cls policy request s).1.answer =
      (astarPath W cls policy request s').1.answer := by
  unfold astarPath
  by_cases hu : UsesUnitSearch cls
  swap
  · rw [if_pos hu, if_pos hu]
    exact weightedAstarPath_answer s s'
  rw [if_neg (not_not.2 hu), if_neg (not_not.2 hu)]
  cases endpointFailure W cls policy request with
  | some status => rfl
  | none =>
    simp only
    cases (if W.IsDense then astarShortcut W cls request else none) with
    | some r => rfl
    | none => exact unitSearch_answer s s'

end Loops

end Tess
