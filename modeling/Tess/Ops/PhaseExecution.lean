import Tess.Ops.Phases

/-!
# Executing phases

A phase runs the callbacks of its operations in any order and interleaving; each callback gets one
chunk.  Dirty marks are recorded per operation and merged when the phase is over.

* `executeEach`, `executePlan` : the operations one after the other, with immediate marks;
* `executePhase` : the callbacks of a range in a given order, then the merge;
* `executePhases_spec` : **any order is as good as plan order**;
* `mergeAfterException_started` : after a callback threw, no chunk that was started is missed.
-/

namespace Tess

variable {M F : Type}

/-! ### Chunks and callbacks -/

/-- `ChunkView::bounds`. -/
def chunkBounds (S : Shape) (key : ℕ) : Box3 :=
  let c := S.chunkGrid.unrank key
  ⟨⟨(c.x * S.chunk.x : ℕ), (c.y * S.chunk.y : ℕ), (c.z * S.chunk.z : ℕ)⟩, S.chunk⟩

/-- `detail::planned_world_stamp` of a shape. -/
def plannedWorldStamp (identity : ℕ) (S : Shape) : PlannedWorldStamp := ⟨identity, S.chunkCount⟩

/-- Fields and marks of a world by chunk key. -/
structure ExecState (F : Type) where
  /-- What callbacks change. -/
  fields : ℕ → F
  /-- Marks. -/
  marks : ChunkMarks

/-- What a callback does to the chunk it is given: it sees the operation, the key, the content
version and the fields of the chunk. -/
abbrev Kernel (M F : Type) := PlannedOperation M → ℕ → ℕ → F → F

/-- A callback; the chunk view of a read-only operation is constant. -/
def callback (kernel : Kernel M F) (op : PlannedOperation M) (key version : ℕ)
    (fields : ℕ → F) : ℕ → F :=
  if isMutatingPolicy op.writePolicy then
    Function.update fields key (kernel op key version (fields key))
  else fields

/-- Outcome of an execution. -/
inductive PlannedExecutionStatus
  | executed
  | policyMismatch
  | invalidShape
  | invalidChunk
  | invalidPhase
  deriving DecidableEq, Repr

/-- Outcome and number of chunks. -/
@[ext]
structure PlannedExecutionResult where
  /-- Outcome. -/
  status : PlannedExecutionStatus
  /-- Number of chunks. -/
  chunkCount : ℕ
  deriving DecidableEq

/-- `detail::validate_planned_world_stamp`. -/
def validatePlannedWorldStamp (world stamp : PlannedWorldStamp) : PlannedExecutionStatus :=
  if stamp = world then .executed
  else if stamp.shapeIdentity ≠ world.shapeIdentity then .invalidShape
  else if stamp.chunkLimit ≠ world.chunkLimit then .invalidChunk
  else .executed

/-- `validate_planned_operation`. -/
def validatePlannedOperation (policy : WritePolicy) (world : PlannedWorldStamp)
    (op : PlannedOperation M) : PlannedExecutionStatus :=
  let worldStatus := validatePlannedWorldStamp world op.worldStamp
  if worldStatus ≠ .executed then worldStatus
  else if op.writePolicy ≠ policy then .policyMismatch
  else .executed

/-! ### One operation after the other -/

section Serial

variable (S : Shape) (world : PlannedWorldStamp) (kernel : Kernel M F)

/-- The loop of `execute_planned_operation`. -/
def executeChunks (op : PlannedOperation M) : List ℕ → ExecState F → ℕ → ExecState F × ℕ
  | [], st, chunkCount => (st, chunkCount)
  | key :: keys, st, chunkCount =>
    let marks := st.marks.markDirty key op.fieldAccess.dirtyMask (chunkBounds S key)
    let fields := callback kernel op key (marks key).contentVersion st.fields
    executeChunks op keys ⟨fields, marks⟩ (chunkCount + 1)

/-- `execute_planned_operation`. -/
def executePlannedOperation (policy : WritePolicy) (op : PlannedOperation M) (st : ExecState F) :
    PlannedExecutionResult × ExecState F :=
  let validation := validatePlannedOperation policy world op
  if validation ≠ .executed then (⟨validation, 0⟩, st)
  else
    let (st, chunkCount) := executeChunks S kernel op op.chunks.keys st 0
    (⟨.executed, chunkCount⟩, st)

/-- The loop of `execute_plan`, which stops at the first operation that is rejected. -/
def executePlanLoop (policy : WritePolicy) : List (PlannedOperation M) → ℕ → ExecState F →
    PlannedExecutionResult × ExecState F
  | [], chunkCount, st => (⟨.executed, chunkCount⟩, st)
  | op :: ops, chunkCount, st =>
    let (result, st) := executePlannedOperation S world kernel policy op st
    if result.status ≠ .executed then (⟨result.status, chunkCount + result.chunkCount⟩, st)
    else executePlanLoop policy ops (chunkCount + result.chunkCount) st

/-- `execute_plan`. -/
def executePlan (policy : WritePolicy) (plan : List (PlannedOperation M)) (st : ExecState F) :
    PlannedExecutionResult × ExecState F := executePlanLoop S world kernel policy plan 0 st

/-- Every operation in plan order, under its own policy. -/
def executeEach : List (PlannedOperation M) → ExecState F →
    List PlannedExecutionResult × ExecState F
  | [], st => ([], st)
  | op :: ops, st =>
    let (result, st) := executePlannedOperation S world kernel op.writePolicy op st
    let (results, st) := executeEach ops st
    (result :: results, st)

end Serial

/-! ### A phase -/

/-- A callback of a range: the index of the operation, the operation and the chunk. -/
structure Visit (M : Type) where
  /-- Index in the plan. -/
  index : ℕ
  /-- Operation. -/
  op : PlannedOperation M
  /-- Chunk. -/
  key : ℕ

/-- The callbacks of operations from an index on, in plan order. -/
def visitsFrom : ℕ → List (PlannedOperation M) → List (Visit M)
  | _, [] => []
  | i, op :: ops => op.chunks.keys.map (fun key => ⟨i, op, key⟩) ++ visitsFrom (i + 1) ops

/-- The operations of a range. -/
def phaseOperations (plan : List (PlannedOperation M)) (phase : ExecutionPhase) :
    List (PlannedOperation M) := (plan.drop phase.firstOperation).take phase.operationCount

/-- The callbacks of a range, in plan order. -/
def phaseVisits (plan : List (PlannedOperation M)) (phase : ExecutionPhase) : List (Visit M) :=
  visitsFrom phase.firstOperation (phaseOperations plan phase)

/-- `PhaseDirtyPartition::record`. -/
def dirtyRecord (S : Shape) (op : PlannedOperation M) (key : ℕ) : List PlannedDirtyRecord :=
  if h : op.fieldAccess.dirtyMask ≠ 0 then
    [⟨key, op.fieldAccess.dirtyMask, chunkBounds S key, h⟩]
  else []

/-- State of a running phase: fields, and records and chunks of each operation. -/
structure PhaseRun (F : Type) where
  /-- Fields. -/
  fields : ℕ → F
  /-- Records. -/
  partitions : ℕ → List PlannedDirtyRecord := fun _ => []
  /-- Chunks visited. -/
  chunkCounts : ℕ → ℕ := fun _ => 0

section Parallel

variable (S : Shape) (sort : ChunkSort) (limit : ℕ) (world : PlannedWorldStamp)
  (kernel : Kernel M F) (plan : List (PlannedOperation M))

/-- A callback of a phase: the record is made first. -/
def runVisit (marks : ChunkMarks) (run : PhaseRun F) (v : Visit M) : PhaseRun F where
  fields := callback kernel v.op v.key (marks v.key).contentVersion run.fields
  partitions := Function.update run.partitions v.index
    (run.partitions v.index ++ dirtyRecord S v.op v.key)
  chunkCounts := Function.update run.chunkCounts v.index (run.chunkCounts v.index + 1)

/-- The callbacks of a phase in the order they happen. -/
def runVisits (visits : List (Visit M)) (st : ExecState F) : PhaseRun F :=
  visits.foldl (runVisit S kernel st.marks) { fields := st.fields }

/-- The scratch that a phase leaves behind. -/
def PhaseRun.scratch (phase : ExecutionPhase) (run : PhaseRun F) :
    PlannedPhaseExecutionScratch where
  dirtyPartitions :=
    (List.range' phase.firstOperation phase.operationCount).map run.partitions
  worldStamp := some world

/-- A phase whose callbacks happen in some order, with its merge. -/
def executePhase (order : List (Visit M)) (phase : ExecutionPhase) (st : ExecState F) :
    List PlannedExecutionResult × ExecState F :=
  let run := runVisits S kernel order st
  let merged := mergePhase sort limit world st.marks (run.scratch world phase)
  ((List.range' phase.firstOperation phase.operationCount).map fun i =>
    ⟨.executed, run.chunkCounts i⟩, ⟨run.fields, merged.marks⟩)

/-- The phases in order. -/
def executePhases (order : ExecutionPhase → List (Visit M)) :
    List ExecutionPhase → ExecState F → List PlannedExecutionResult × ExecState F
  | [], st => ([], st)
  | phase :: phases, st =>
    let (results, st) := executePhase S sort limit world kernel (order phase) phase st
    let (results', st) := executePhases order phases st
    (results ++ results', st)

/-- `detail::execution_phase_validation_status` of a phase issued for the plan; the stamp of a
phase is that of its first operation. -/
def phaseValidationStatus (policy : WritePolicy) (phase : ExecutionPhase) :
    PlannedExecutionStatus :=
  if !(phase.firstOperation ≤ plan.length ∧
      phase.operationCount ≤ plan.length - phase.firstOperation) then .invalidPhase
  else
    match plan[phase.firstOperation]? with
    | none => .invalidPhase
    | some op =>
      let worldStatus := validatePlannedWorldStamp world op.worldStamp
      if worldStatus ≠ .executed then worldStatus
      else if phase.writePolicyMask ≠ policyBit policy then .policyMismatch
      else .executed

/-- `execute_phase_partitioned_dirty_with`, then the merge of what it recorded. -/
def executePhaseWith (policy : WritePolicy) (order : List (Visit M)) (phase : ExecutionPhase)
    (st : ExecState F) : PlannedExecutionResult × ExecState F :=
  let validation := phaseValidationStatus world plan policy phase
  if validation ≠ .executed then (⟨validation, 0⟩, st)
  else
    let (results, st) := executePhase S sort limit world kernel order phase st
    (⟨.executed, (results.map (·.chunkCount)).sum⟩, st)

end Parallel

/-! ### Chunk boxes and marks -/

/-- **The box of a chunk** lies in the shape. -/
theorem chunkBounds_inShape {S : Shape} {key : ℕ} (h : key < S.chunkCount) :
    (chunkBounds S key).InShape S := by
  obtain ⟨hx, hy, hz⟩ := Extent3.has_unrank h
  obtain ⟨mx, my, mz⟩ := S.chunkGrid_mul
  have haxis {c n m size : ℕ} (hc : c < n) (hn : n * m = size) :
      (0 : ℤ) ≤ ((c * m : ℕ) : ℤ) ∧ ((c * m : ℕ) : ℤ) + m ≤ size := by
    have : (c + 1) * m ≤ n * m := Nat.mul_le_mul_right _ hc
    rw [hn, Nat.succ_mul] at this
    omega
  intro a
  cases a
  · exact haxis hx mx
  · exact haxis hy my
  · exact haxis hz mz

section Marks

variable {S : Shape} {marks marks' : ChunkMarks} {l : List PlannedDirtyRecord}

/-- Marks whose masks and boxes are the same. -/
def SameMarks (marks marks' : ChunkMarks) : Prop :=
  ∀ key, (marks key).mask = (marks' key).mask ∧ (marks key).bounds = (marks' key).bounds

/-- What a mark makes of mask and box does not depend on the version. -/
theorem ChunkDirty.mark_congr {d d' : ChunkDirty} (hmask : d.mask = d'.mask)
    (hbounds : d.bounds = d'.bounds) (r : PlannedDirtyRecord) :
    (d.mark r).mask = (d'.mark r).mask ∧ (d.mark r).bounds = (d'.mark r).bounds := by
  simp only [ChunkDirty.mark, ChunkDirty.metaMarkDirty, if_neg r.mask_ne, hmask, hbounds, and_self]

theorem SameMarks.markAll (h : SameMarks marks marks') (l : List PlannedDirtyRecord) :
    SameMarks (marks.markAll l) (marks'.markAll l) := by
  intro key
  rw [ChunkMarks.markAll_apply, ChunkMarks.markAll_apply]
  obtain ⟨hmask, hbounds⟩ := h key
  generalize ChunkMarks.recordsOf l key = rs
  generalize marks key = d at *
  generalize marks' key = d' at *
  induction rs generalizing d d' with
  | nil => exact ⟨hmask, hbounds⟩
  | cons r rs ih =>
    obtain ⟨h1, h2⟩ := ChunkDirty.mark_congr hmask hbounds r
    exact ih _ _ h1 h2

theorem SameMarks.tame (h : SameMarks marks marks') (ht : marks.Tame) : marks'.Tame := by
  intro key hne a
  obtain ⟨hmask, hbounds⟩ := h key
  rw [← hbounds]
  exact ht key (hmask ▸ hne) a

/-- Marking boxes of the shape keeps the boxes above zero. -/
theorem tame_markAll (ht : marks.Tame) (hl : ∀ r ∈ l, r.bounds.InShape S) :
    (marks.markAll l).Tame := by
  intro key
  rw [ChunkMarks.markAll_apply]
  have hin : ∀ r ∈ ChunkMarks.recordsOf l key, r.bounds.InShape S := fun r hr =>
    hl r (ChunkMarks.mem_recordsOf.1 hr).1
  have hd := ht key
  generalize marks key = d at *
  generalize ChunkMarks.recordsOf l key = rs at *
  induction rs generalizing d with
  | nil => exact hd
  | cons r rs ih =>
    have hin' : ∀ r' ∈ rs, r'.bounds.InShape S := fun r' hr' => hin r' (List.mem_cons_of_mem _ hr')
    exact ih _ (ChunkDirty.mark_spec hd (hin r List.mem_cons_self)).2.2.1 hin'

/-- A mark adds its bits. -/
theorem ChunkDirty.and_mask_mark (d : ChunkDirty) (r : PlannedDirtyRecord) {b : BitVec 32}
    (hb : d.mask &&& b = b) : (d.mark r).mask &&& b = b := by
  rw [ChunkDirty.mark, ChunkDirty.metaMarkDirty, if_neg r.mask_ne]
  simp only
  refine BitVec.eq_of_getLsbD_eq fun i _ => ?_
  have hbit := congrArg (fun x => BitVec.getLsbD x i) hb
  simp only [BitVec.getLsbD_or, BitVec.getLsbD_and] at hbit ⊢
  cases hd : d.mask.getLsbD i <;> cases hb' : b.getLsbD i <;> simp_all

/-- Every record leaves its bits on its chunk. -/
theorem and_mask_markAll {r : PlannedDirtyRecord} (hr : r ∈ l) :
    (marks.markAll l r.chunk).mask &&& r.dirtyMask = r.dirtyMask := by
  rw [ChunkMarks.markAll_apply]
  have hmem : r ∈ ChunkMarks.recordsOf l r.chunk := ChunkMarks.mem_recordsOf.2 ⟨hr, rfl⟩
  have hkeep {rs : List PlannedDirtyRecord} {d : ChunkDirty}
      (hd : d.mask &&& r.dirtyMask = r.dirtyMask) :
      (rs.foldl ChunkDirty.mark d).mask &&& r.dirtyMask = r.dirtyMask := by
    induction rs generalizing d with
    | nil => exact hd
    | cons r' rs ih => exact ih (d.and_mask_mark r' hd)
  generalize marks r.chunk = d
  generalize ChunkMarks.recordsOf l r.chunk = rs at *
  induction rs generalizing d with
  | nil => cases hmem
  | cons r' rs ih =>
    rcases List.mem_cons.1 hmem with rfl | hmem
    · rw [List.foldl_cons]
      refine hkeep ?_
      simp only [ChunkDirty.mark, ChunkDirty.metaMarkDirty, if_neg r.mask_ne]
      refine BitVec.eq_of_getLsbD_eq fun i _ => ?_
      simp only [BitVec.getLsbD_or, BitVec.getLsbD_and]
      cases d.mask.getLsbD i <;> cases r.dirtyMask.getLsbD i <;> rfl
    · exact ih _ hmem

end Marks

/-! ### What the executions do -/

section Executions

variable {S : Shape} {world : PlannedWorldStamp} {kernel : Kernel M F} {i : ℕ}
  {op : PlannedOperation M} {ops plan : List (PlannedOperation M)} {visits : List (Visit M)}
  {st st' : ExecState F} {phase : ExecutionPhase}

/-- The callbacks do not look at the content version of their chunk. -/
def Kernel.IgnoresVersion (kernel : Kernel M F) : Prop :=
  ∀ op key version fields, kernel op key version fields = kernel op key 0 fields

/-- The fields after a callback that does not look at the version. -/
def visitFields (kernel : Kernel M F) (fields : ℕ → F) (v : Visit M) : ℕ → F :=
  callback kernel v.op v.key 0 fields

/-- The record of a callback. -/
def visitRecords (S : Shape) (v : Visit M) : List PlannedDirtyRecord := dirtyRecord S v.op v.key

theorem Kernel.IgnoresVersion.callback_eq (h : kernel.IgnoresVersion) (op : PlannedOperation M)
    (key version : ℕ) (fields : ℕ → F) :
    callback kernel op key version fields = callback kernel op key 0 fields := by
  unfold callback
  rw [h op key version]

/-- An immediate mark is the mark of the record, if there is one. -/
theorem markDirty_eq (marks : ChunkMarks) (op : PlannedOperation M) (key : ℕ) :
    marks.markDirty key op.fieldAccess.dirtyMask (chunkBounds S key) =
      marks.markAll (dirtyRecord S op key) := by
  unfold dirtyRecord
  split_ifs with h
  · rfl
  · rw [ne_eq, not_not] at h
    rw [ChunkMarks.markDirty, ChunkDirty.metaMarkDirty, if_pos h, Function.update_eq_self]
    rfl

theorem markAll_append (marks : ChunkMarks) (l l' : List PlannedDirtyRecord) :
    marks.markAll (l ++ l') = (marks.markAll l).markAll l' := List.foldl_append

theorem executeChunks_eq (h : kernel.IgnoresVersion) (i : ℕ) (keys : List ℕ) (st : ExecState F)
    (chunkCount : ℕ) : executeChunks S kernel op keys st chunkCount =
      (⟨(keys.map fun key => (⟨i, op, key⟩ : Visit M)).foldl (visitFields kernel) st.fields,
        st.marks.markAll ((keys.map fun key => (⟨i, op, key⟩ : Visit M)).flatMap
          (visitRecords S))⟩, chunkCount + keys.length) := by
  induction keys generalizing st chunkCount with
  | nil => rfl
  | cons key keys ih =>
    rw [executeChunks, ih, List.map_cons, List.foldl_cons, List.flatMap_cons, markAll_append,
      h.callback_eq, List.length_cons]
    refine Prod.ext ?_ (by simp only; omega)
    simp only [visitFields, visitRecords, markDirty_eq]

theorem validatePlannedOperation_self (h : PlanFor world [op]) :
    validatePlannedOperation op.writePolicy world op = .executed := by
  have hstamp := (h op List.mem_cons_self).1
  simp [validatePlannedOperation, validatePlannedWorldStamp, hstamp]

/-- **Serial execution** runs the callbacks and makes the marks in plan order. -/
theorem executeEach_eq (h : kernel.IgnoresVersion) (hplan : PlanFor world ops) (i : ℕ)
    (st : ExecState F) : executeEach S world kernel ops st =
      (ops.map fun op => ⟨.executed, op.chunks.keys.length⟩,
        ⟨(visitsFrom i ops).foldl (visitFields kernel) st.fields,
          st.marks.markAll ((visitsFrom i ops).flatMap (visitRecords S))⟩) := by
  induction ops generalizing i st with
  | nil => rfl
  | cons op ops ih =>
    have hop : PlanFor world [op] := fun p hp => hplan p (by
      rw [List.mem_singleton.1 hp]
      exact List.mem_cons_self)
    have hops : PlanFor world ops := fun p hp => hplan p (List.mem_cons_of_mem _ hp)
    rw [executeEach, executePlannedOperation]
    simp only [validatePlannedOperation_self hop, ne_eq, not_true_eq_false, if_false]
    rw [executeChunks_eq h i, ih hops (i + 1)]
    simp only [visitsFrom, List.foldl_append, List.flatMap_append, markAll_append, List.map_cons,
      Nat.zero_add]

/-- The fields of a running phase. -/
theorem runVisits_fields (h : kernel.IgnoresVersion) (visits : List (Visit M)) (st : ExecState F) :
    (runVisits S kernel visits st).fields = visits.foldl (visitFields kernel) st.fields := by
  have hrun (run : PhaseRun F) : (visits.foldl (runVisit S kernel st.marks) run).fields =
      visits.foldl (visitFields kernel) run.fields := by
    induction visits generalizing run with
    | nil => rfl
    | cons v visits ih =>
      rw [List.foldl_cons, ih, List.foldl_cons]
      simp only [runVisit, visitFields, h.callback_eq]
  exact hrun _

/-- **The records and counts** of a running phase, by operation. -/
theorem runVisits_partitions (visits : List (Visit M)) (st : ExecState F) (i : ℕ) :
    (runVisits S kernel visits st).partitions i =
        (visits.filter fun v => v.index = i).flatMap (visitRecords S) ∧
      (runVisits S kernel visits st).chunkCounts i = visits.countP fun v => v.index = i := by
  have hrun (run : PhaseRun F) :
      (visits.foldl (runVisit S kernel st.marks) run).partitions i =
          run.partitions i ++ (visits.filter fun v => v.index = i).flatMap (visitRecords S) ∧
        (visits.foldl (runVisit S kernel st.marks) run).chunkCounts i =
          run.chunkCounts i + visits.countP fun v => v.index = i := by
    induction visits generalizing run with
    | nil => exact ⟨by simp, by simp⟩
    | cons v visits ih =>
      obtain ⟨h1, h2⟩ := ih (runVisit S kernel st.marks run v)
      rw [List.foldl_cons, h1, h2]
      by_cases hi : v.index = i
      · subst hi
        simp only [runVisit, Function.update_self, List.filter_cons_of_pos, decide_true,
          List.flatMap_cons, visitRecords, List.append_assoc, true_and]
        rw [List.countP_cons_of_pos (by simp)]
        omega
      · simp only [runVisit, Function.update_of_ne (Ne.symm hi)]
        rw [List.filter_cons_of_neg (by simpa using hi),
          List.countP_cons_of_neg (by simpa using hi)]
        exact ⟨rfl, rfl⟩
  obtain ⟨h1, h2⟩ := hrun { fields := st.fields }
  exact ⟨h1.trans (List.nil_append _), h2.trans (Nat.zero_add _)⟩

/-- The index of a callback is the one of its operation. -/
theorem mem_visitsFrom {v : Visit M} : v ∈ visitsFrom i ops ↔
    i ≤ v.index ∧ ops[v.index - i]? = some v.op ∧ v.key ∈ v.op.chunks.keys := by
  induction ops generalizing i with
  | nil => simp [visitsFrom]
  | cons op ops ih =>
    rw [visitsFrom, List.mem_append, ih, List.mem_map]
    constructor
    · rintro (⟨key, hkey, rfl⟩ | ⟨hle, hop, hkey⟩)
      · exact ⟨le_rfl, by simp, hkey⟩
      · refine ⟨by omega, ?_, hkey⟩
        rw [show v.index - i = v.index - (i + 1) + 1 by omega, List.getElem?_cons_succ, hop]
    · rintro ⟨hle, hop, hkey⟩
      rcases Nat.eq_or_lt_of_le hle with rfl | hlt
      · rw [Nat.sub_self, List.getElem?_cons_zero, Option.some.injEq] at hop
        exact Or.inl ⟨v.key, hop ▸ hkey, by rw [hop]⟩
      · rw [show v.index - i = v.index - (i + 1) + 1 by omega, List.getElem?_cons_succ] at hop
        exact Or.inr ⟨hlt, hop, hkey⟩

/-- Every operation has as many callbacks as chunks. -/
theorem countP_visitsFrom (ops : List (PlannedOperation M)) (i : ℕ) :
    ((List.range' i ops.length).map fun j =>
      (⟨.executed, (visitsFrom i ops).countP fun v => v.index = j⟩ : PlannedExecutionResult)) =
      ops.map fun op => ⟨.executed, op.chunks.keys.length⟩ := by
  induction ops generalizing i with
  | nil => rfl
  | cons op ops ih =>
    rw [List.length_cons, List.range'_succ, List.map_cons, List.map_cons, ← ih (i + 1)]
    congr 1
    · have htail : (visitsFrom (i + 1) ops).countP (fun v => v.index = i) = 0 := by
        refine List.countP_eq_zero.2 fun v hv => ?_
        have := (mem_visitsFrom.1 hv).1
        simp only [decide_eq_true_eq]
        omega
      rw [visitsFrom, List.countP_append, htail, List.countP_map]
      simp [Function.comp_def]
    · refine List.map_congr_left fun j hj => ?_
      have hj := (List.mem_range'_1.1 hj).1
      have hhead : (op.chunks.keys.map fun key => (⟨i, op, key⟩ : Visit M)).countP
          (fun v => v.index = j) = 0 := by
        refine List.countP_eq_zero.2 fun v hv => ?_
        obtain ⟨key, -, rfl⟩ := List.mem_map.1 hv
        simp only [decide_eq_true_eq]
        omega
      rw [visitsFrom, List.countP_append, hhead, Nat.zero_add]

/-- Sorting callbacks by operation loses none. -/
theorem perm_filter_index {β : Type} (f : Visit M → List β) {indices : List ℕ}
    (hnodup : indices.Nodup) (hin : ∀ v ∈ visits, v.index ∈ indices) :
    (indices.flatMap fun j => (visits.filter fun v => v.index = j).flatMap f).Perm
      (visits.flatMap f) := by
  induction visits with
  | nil => simp
  | cons v visits ih =>
    have hhead : (indices.flatMap fun j => if v.index = j then f v else []) = f v := by
      have hv := hin v List.mem_cons_self
      clear ih hin
      induction indices with
      | nil => cases hv
      | cons j indices ih =>
        obtain ⟨hj, hnodup⟩ := List.nodup_cons.1 hnodup
        rw [List.flatMap_cons]
        by_cases h : v.index = j
        · have hrest : (indices.flatMap fun j => if v.index = j then f v else []) = [] := by
            refine List.flatMap_eq_nil_iff.2 fun k hk => if_neg fun hk' => hj ?_
            rwa [← h, hk']
          rw [if_pos h, hrest, List.append_nil]
        · rw [if_neg h, List.nil_append]
          exact ih hnodup ((List.mem_cons.1 hv).resolve_left h)
    have hsplit : (fun j => ((v :: visits).filter fun v => v.index = j).flatMap f) =
        fun j => (if v.index = j then f v else []) ++
          (visits.filter fun v => v.index = j).flatMap f := by
      funext j
      by_cases h : v.index = j <;> simp [h]
    rw [hsplit, List.flatMap_cons]
    refine (List.flatMap_append_perm indices _ _).symm.trans ?_
    rw [hhead]
    exact (ih fun v hv => hin v (List.mem_cons_of_mem _ hv)).append_left _

/-! ### One phase -/

theorem mem_phaseVisits {v : Visit M} : v ∈ phaseVisits plan phase ↔
    phase.Covers v.index ∧ plan[v.index]? = some v.op ∧ v.key ∈ v.op.chunks.keys := by
  rw [phaseVisits, mem_visitsFrom, phaseOperations, ExecutionPhase.Covers]
  constructor
  · rintro ⟨hle, hop, hkey⟩
    obtain ⟨hlt, -⟩ := List.getElem?_eq_some_iff.1 hop
    rw [List.length_take] at hlt
    rw [List.getElem?_take_of_lt (by omega), List.getElem?_drop, Nat.add_sub_cancel' hle] at hop
    exact ⟨⟨hle, by omega⟩, hop, hkey⟩
  · rintro ⟨⟨hle, hlt⟩, hop, hkey⟩
    refine ⟨hle, ?_, hkey⟩
    rw [List.getElem?_take_of_lt (by omega), List.getElem?_drop, Nat.add_sub_cancel' hle, hop]

/-- Callbacks on different chunks commute, and so do callbacks that only read. -/
theorem visitFields_comm {v w : Visit M} (fields : ℕ → F)
    (h : v.key ≠ w.key ∨
      isMutatingPolicy v.op.writePolicy = false ∧ isMutatingPolicy w.op.writePolicy = false) :
    visitFields kernel (visitFields kernel fields v) w =
      visitFields kernel (visitFields kernel fields w) v := by
  unfold visitFields callback
  rcases h with h | ⟨hv, hw⟩
  · split_ifs
    · rw [Function.update_comm h, Function.update_of_ne (Ne.symm h), Function.update_of_ne h]
    all_goals rfl
  · rw [hv, hw]
    rfl

/-- **The callbacks of a range commute.** -/
theorem phaseVisits_comm (hfree : phase.Free plan) {v w : Visit M}
    (hv : v ∈ phaseVisits plan phase) (hw : w ∈ phaseVisits plan phase) (fields : ℕ → F) :
    visitFields kernel (visitFields kernel fields v) w =
      visitFields kernel (visitFields kernel fields w) v := by
  obtain ⟨hvc, hvop, hvkey⟩ := mem_phaseVisits.1 hv
  obtain ⟨hwc, hwop, hwkey⟩ := mem_phaseVisits.1 hw
  by_cases hkey : v.key = w.key
  · rcases Nat.lt_trichotomy v.index w.index with hlt | heq | hlt
    · refine visitFields_comm fields (Or.inr ?_)
      have hno := hfree _ _ _ _ hvc hwc hlt hvop hwop
      rw [PhaseConflict, not_and_or] at hno
      rcases hno with hno | hno
      · exact absurd ⟨v.key, hvkey, hkey ▸ hwkey⟩ hno
      · push Not at hno
        exact ⟨by simpa using hno.1, by simpa using hno.2.1⟩
    · -- the same callback
      have hop : v.op = w.op := by
        rw [heq, hwop, Option.some.injEq] at hvop
        exact hvop.symm
      obtain ⟨i, op, key⟩ := v
      obtain ⟨j, op', key'⟩ := w
      simp only at heq hop hkey
      subst heq hop hkey
      rfl
    · refine visitFields_comm fields (Or.inr ?_)
      have hno := hfree _ _ _ _ hwc hvc hlt hwop hvop
      rw [PhaseConflict, not_and_or] at hno
      rcases hno with hno | hno
      · exact absurd ⟨v.key, hkey ▸ hwkey, hvkey⟩ hno
      · push Not at hno
        exact ⟨by simpa using hno.2.1, by simpa using hno.1⟩
  · exact visitFields_comm fields (Or.inl hkey)

/-- **Two states agree**: the fields, masks and boxes are the same. -/
structure Agrees (st st' : ExecState F) : Prop where
  /-- Fields. -/
  fields : st.fields = st'.fields
  /-- Masks and boxes. -/
  marks : SameMarks st.marks st'.marks

theorem visitRecords_inShape {identity : ℕ} (hplan : PlanFor (plannedWorldStamp identity S) plan)
    {v : Visit M} (hv : v ∈ phaseVisits plan phase) :
    ∀ r ∈ visitRecords S v, r.bounds.InShape S ∧ r.chunk = v.key ∧
      r.dirtyMask = v.op.fieldAccess.dirtyMask := by
  obtain ⟨-, hop, hkey⟩ := mem_phaseVisits.1 hv
  intro r hr
  unfold visitRecords dirtyRecord at hr
  split_ifs at hr with h
  · obtain rfl := List.mem_singleton.1 hr
    exact ⟨chunkBounds_inShape ((hplan v.op (List.mem_of_getElem? hop)).2 v.key hkey), rfl, rfl⟩
  · cases hr

variable {sort : ChunkSort} {limit : ℕ}

/-- A scratch of the world is merged. -/
theorem mergePhase_merged {marks : ChunkMarks} {scratch : PlannedPhaseExecutionScratch}
    (hstamp : scratch.worldStamp = some world) (hmarks : marks.Tame)
    (hrecords : ∀ r ∈ scratch.records, r.bounds.InShape S) :
    (mergePhase sort limit world marks scratch).status = .merged := by
  have hself : validationStatus world (some world) = .merged := by simp [validationStatus]
  obtain ⟨-, hafter⟩ := mergeAfterException_spec world scratch hmarks hrecords
  rw [hstamp, hself] at hafter
  unfold mergePhase mergePhaseScratch
  rw [hstamp]
  simp only [scratchStatus, hself, ne_eq, not_true_eq_false, if_false]
  split_ifs with h1 h2 h2
  · exact hafter
  · simp at h2
  · obtain ⟨-, hstatus⟩ := mergePlannedDirty_spec (S := S) sort world
      { records := scratch.dirtyPartitions.flatten, worldStamp := some world } hmarks hrecords
    simp only [hself] at hstatus
    rw [hstatus] at h2
    cases h2
  · obtain ⟨-, hstatus⟩ := mergePlannedDirty_spec (S := S) sort world
      { records := scratch.dirtyPartitions.flatten, worldStamp := some world } hmarks hrecords
    exact hstatus.trans hself

/-- The records of a phase that ran some callbacks of its range are those of the callbacks. -/
theorem scratch_records_perm {visits : List (Visit M)}
    (hvisits : ∀ v ∈ visits, v ∈ phaseVisits plan phase) (st : ExecState F) :
    ((runVisits S kernel visits st).scratch world phase).records.Perm
      (visits.flatMap (visitRecords S)) := by
  have hpartitions : ((runVisits S kernel visits st).scratch world phase).records =
      (List.range' phase.firstOperation phase.operationCount).flatMap fun i =>
        (visits.filter fun v => v.index = i).flatMap (visitRecords S) := by
    change (List.map (runVisits S kernel visits st).partitions _).flatten = _
    rw [← List.flatMap_def]
    exact List.flatMap_congr fun i _ => (runVisits_partitions visits st i).1
  rw [hpartitions]
  refine perm_filter_index _ List.nodup_range' fun v hv => ?_
  obtain ⟨⟨hle, hlt⟩, -⟩ := mem_phaseVisits.1 (hvisits v hv)
  exact List.mem_range'_1.2 ⟨hle, hlt⟩

/-- **A phase in any order** does what its operations do one after the other. -/
theorem executePhase_spec {identity : ℕ} {order : List (Visit M)} (h : kernel.IgnoresVersion)
    (hplan : PlanFor (plannedWorldStamp identity S) plan) (hfree : phase.Free plan)
    (hend : phase.firstOperation + phase.operationCount ≤ plan.length)
    (horder : order.Perm (phaseVisits plan phase)) (hagrees : Agrees st st')
    (htame : st.marks.Tame) :
    (executePhase S sort limit (plannedWorldStamp identity S) kernel order phase st').1 =
        (executeEach S (plannedWorldStamp identity S) kernel (phaseOperations plan phase) st).1 ∧
      Agrees
        (executeEach S (plannedWorldStamp identity S) kernel (phaseOperations plan phase) st).2
        (executePhase S sort limit (plannedWorldStamp identity S) kernel order phase st').2 ∧
      (executeEach S (plannedWorldStamp identity S) kernel (phaseOperations plan phase)
        st).2.marks.Tame := by
  have hops : PlanFor (plannedWorldStamp identity S) (phaseOperations plan phase) := fun p hp =>
    hplan p (List.mem_of_mem_drop (List.mem_of_mem_take hp))
  have hlen : (phaseOperations plan phase).length = phase.operationCount := by
    rw [phaseOperations, List.length_take, List.length_drop]
    omega
  have hrecords : ∀ r ∈ (phaseVisits plan phase).flatMap (visitRecords S), r.bounds.InShape S := by
    intro r hr
    obtain ⟨v, hv, hr⟩ := List.mem_flatMap.1 hr
    exact (visitRecords_inShape hplan hv r hr).1
  rw [executeEach_eq h hops phase.firstOperation]
  change _ ∧ Agrees ⟨(phaseVisits plan phase).foldl _ _, st.marks.markAll
    ((phaseVisits plan phase).flatMap _)⟩ _ ∧ (st.marks.markAll
      ((phaseVisits plan phase).flatMap _)).Tame
  have hfields := runVisits_fields (S := S) h order st'
  have hrun : ∀ i, _ := @runVisits_partitions M F S kernel order st'
  have hscratch : ((runVisits S kernel order st').scratch (plannedWorldStamp identity S)
      phase).records.Perm ((phaseVisits plan phase).flatMap (visitRecords S)) :=
    (scratch_records_perm (fun v hv => horder.mem_iff.1 hv) st').trans (horder.flatMap_right _)
  have htame' : st'.marks.Tame := hagrees.marks.tame htame
  have hin : ∀ r ∈ ((runVisits S kernel order st').scratch (plannedWorldStamp identity S)
      phase).records, r.bounds.InShape S := fun r hr => hrecords r (hscratch.mem_iff.1 hr)
  have hmerged : (mergePhase sort limit (plannedWorldStamp identity S) st'.marks
      ((runVisits S kernel order st').scratch (plannedWorldStamp identity S) phase)).status =
      .merged := mergePhase_merged rfl htame' hin
  obtain ⟨hmerge, -⟩ := mergePhase_spec sort limit (plannedWorldStamp identity S)
    ((runVisits S kernel order st').scratch (plannedWorldStamp identity S) phase) htame' hin
  rcases hmerge with ⟨-, hmerges, -⟩ | ⟨hne, -⟩
  · refine ⟨?_, ⟨?_, fun key => ?_⟩, tame_markAll htame hrecords⟩
    · change (List.map _ (List.range' phase.firstOperation phase.operationCount)) = _
      rw [← countP_visitsFrom (phaseOperations plan phase) phase.firstOperation, hlen]
      refine List.map_congr_left fun i _ => ?_
      rw [(hrun i).2, horder.countP_eq]
      rfl
    · change _ = (runVisits S kernel order st').fields
      rw [hfields, ← hagrees.fields]
      refine (List.Perm.foldl_eq' horder (fun v hv w hw fields => ?_) _).symm
      exact phaseVisits_comm hfree (horder.mem_iff.1 hv) (horder.mem_iff.1 hw) fields
    · obtain ⟨h1, h2⟩ := hmerges.same _ hscratch.symm key
      obtain ⟨h3, h4⟩ := hagrees.marks.markAll
        ((phaseVisits plan phase).flatMap (visitRecords S)) key
      exact ⟨h3.trans h1.symm, h4.trans h2.symm⟩
  · exact absurd hmerged hne

/-! ### All phases -/

theorem executeEach_append (ops' : List (PlannedOperation M)) (st : ExecState F) :
    executeEach S world kernel (ops ++ ops') st =
      ((executeEach S world kernel ops st).1 ++
        (executeEach S world kernel ops' (executeEach S world kernel ops st).2).1,
        (executeEach S world kernel ops' (executeEach S world kernel ops st).2).2) := by
  induction ops generalizing st with
  | nil => rfl
  | cons op ops ih =>
    rw [List.cons_append, executeEach, executeEach]
    simp only
    rw [ih]
    rfl

theorem Consecutive.le {a n : ℕ} {phases : List ExecutionPhase} (h : Consecutive a phases n) :
    a ≤ n := by
  induction phases generalizing a with
  | nil => exact Nat.le_of_eq h
  | cons phase phases ih =>
    have := ih h.2.2
    omega

/-- **The phases in order**, each in any order of its callbacks, do what the plan does. -/
theorem executePhases_spec {identity a n : ℕ} {order : ExecutionPhase → List (Visit M)}
    {phases : List ExecutionPhase} (h : kernel.IgnoresVersion)
    (hplan : PlanFor (plannedWorldStamp identity S) plan) (hcons : Consecutive a phases n)
    (hn : n ≤ plan.length) (hfree : ∀ phase ∈ phases, phase.Free plan)
    (horder : ∀ phase ∈ phases, (order phase).Perm (phaseVisits plan phase))
    (hagrees : Agrees st st') (htame : st.marks.Tame) :
    (executePhases S sort limit (plannedWorldStamp identity S) kernel order phases st').1 =
        (executeEach S (plannedWorldStamp identity S) kernel ((plan.take n).drop a) st).1 ∧
      Agrees (executeEach S (plannedWorldStamp identity S) kernel ((plan.take n).drop a) st).2
        (executePhases S sort limit (plannedWorldStamp identity S) kernel order phases st').2 := by
  induction phases generalizing a st st' with
  | nil =>
    obtain rfl : a = n := hcons
    rw [List.drop_eq_nil_of_le (by rw [List.length_take]; omega)]
    exact ⟨rfl, hagrees⟩
  | cons phase phases ih =>
    obtain ⟨rfl, hpos, hcons⟩ := hcons
    have hle := hcons.le
    obtain ⟨h1, h2, h3⟩ := @executePhase_spec _ _ _ _ _ _ _ _ sort limit _ _ h hplan
      (hfree phase List.mem_cons_self) (by omega) (horder phase List.mem_cons_self) hagrees htame
    obtain ⟨h4, h5⟩ := ih hcons (fun q hq => hfree q (List.mem_cons_of_mem _ hq))
      (fun q hq => horder q (List.mem_cons_of_mem _ hq)) h2 h3
    have hsplit : (plan.take n).drop phase.firstOperation = phaseOperations plan phase ++
        (plan.take n).drop (phase.firstOperation + phase.operationCount) := by
      rw [phaseOperations, ← List.drop_drop]
      have htake : (plan.drop phase.firstOperation).take phase.operationCount =
          ((plan.take n).drop phase.firstOperation).take phase.operationCount := by
        rw [List.drop_take, List.take_take, min_eq_left (by omega)]
      rw [htake, List.take_append_drop]
    rw [hsplit, executeEach_append, executePhases]
    simp only
    exact ⟨by rw [h4, h1], h5⟩

/-! ### Plans of one policy -/

/-! ### Cutting and executing -/

/-- **No started chunk is missed** by the merge after a callback threw: it carries the bits of
every operation that was started on it. -/
theorem mergeAfterException_started {identity : ℕ} {started : List (Visit M)}
    (hplan : PlanFor (plannedWorldStamp identity S) plan)
    (hstarted : ∀ v ∈ started, v ∈ phaseVisits plan phase) (hmarks : st.marks.Tame) :
    let out := mergeAfterException (plannedWorldStamp identity S) st.marks
      ((runVisits S kernel started st).scratch (plannedWorldStamp identity S) phase)
    out.status = .merged ∧ ∀ v ∈ started,
      (out.marks v.key).mask &&& v.op.fieldAccess.dirtyMask = v.op.fieldAccess.dirtyMask := by
  have hperm : ((runVisits S kernel started st).scratch (plannedWorldStamp identity S)
      phase).records.Perm (started.flatMap (visitRecords S)) := scratch_records_perm hstarted st
  have hin : ∀ r ∈ ((runVisits S kernel started st).scratch (plannedWorldStamp identity S)
      phase).records, r.bounds.InShape S := by
    intro r hr
    obtain ⟨v, hv, hr⟩ := List.mem_flatMap.1 (hperm.mem_iff.1 hr)
    exact (visitRecords_inShape hplan (hstarted v hv) r hr).1
  obtain ⟨hmerge, hstatus⟩ := mergeAfterException_spec (plannedWorldStamp identity S)
    ((runVisits S kernel started st).scratch (plannedWorldStamp identity S) phase) hmarks hin
  have hmerged : validationStatus (plannedWorldStamp identity S)
      (some (plannedWorldStamp identity S)) = .merged := by simp [validationStatus]
  refine ⟨hstatus.trans hmerged, fun v hv => ?_⟩
  rcases hmerge with ⟨-, hmerges, -⟩ | ⟨hne, -⟩
  · by_cases hmask : v.op.fieldAccess.dirtyMask = 0
    · rw [hmask]
      exact BitVec.and_zero
    · have hr : (⟨v.key, v.op.fieldAccess.dirtyMask, chunkBounds S v.key, hmask⟩ :
          PlannedDirtyRecord) ∈ started.flatMap (visitRecords S) := by
        refine List.mem_flatMap.2 ⟨v, hv, ?_⟩
        rw [visitRecords, dirtyRecord, dif_pos hmask]
        exact List.mem_cons_self
      rw [(hmerges.same _ hperm.symm v.key).1]
      exact and_mask_markAll hr
  · exact absurd (hstatus.trans hmerged) hne

end Executions

/-! ### Disagreements -/

section Disagreements

/-- An operation on the first of two chunks. -/
def firstChunkOperation (policy : WritePolicy) (dirtyMask : BitVec 32) : PlannedOperation Unit where
  handle := 0
  id := 0
  access := ⟨policy, .explicitChunks, 0⟩
  fieldAccess := { dirtyMask := dirtyMask }
  writePolicy := policy
  intent := ()
  chunks := { keys := [0] }
  worldStamp := plannedWorldStamp 0 twoCells

/-- A sort that keeps the order within a chunk. -/
def stableChunkSort : ChunkSort where
  sort l := l.mergeSort fun r r' => decide (r.chunk ≤ r'.chunk)
  perm l := List.mergeSort_perm l _
  sorted l := by
    have h : (l.mergeSort fun r r' => decide (r.chunk ≤ r'.chunk)).Pairwise
        fun r r' => decide (r.chunk ≤ r'.chunk) = true :=
      List.pairwise_mergeSort (fun a b c h h' => by simp only [decide_eq_true_eq] at *; omega)
        (fun a b => by simp only [Bool.or_eq_true, decide_eq_true_eq]; omega) l
    exact h.imp fun h => of_decide_eq_true h

/-- A chunk whose mark starts at the least coordinate. -/
def lowMarks : ChunkMarks := fun key =>
  if key = 0 then { mask := 1, bounds := ⟨⟨-2 ^ 63, 0, 0⟩, ⟨1, 1, 1⟩⟩ } else {}

/-- The record of an operation on the first chunk. -/
def firstChunkRecord : PlannedDirtyRecord := ⟨0, 1, chunkBounds twoCells 0, by decide⟩

theorem sort_twice (sort : ChunkSort) (r : PlannedDirtyRecord) : sort.sort [r, r] = [r, r] := by
  have h := sort.perm [r, r]
  rw [show [r, r] = List.replicate 2 r from rfl] at h ⊢
  exact List.perm_replicate.1 h

/-- **Merging is not marking** when the marks of a chunk start below zero. -/
theorem lowMarks_bounds : (lowMarks.markAll [firstChunkRecord, firstChunkRecord] 0).bounds ≠
    (lowMarks.markRecord (firstChunkRecord.coalesce firstChunkRecord) 0).bounds := by
  decide

/-- The merge of two equal records. -/
theorem mergePhase_twice (sort : ChunkSort) (world : PlannedWorldStamp) (marks : ChunkMarks)
    (r : PlannedDirtyRecord) :
    (mergePhase sort 2 world marks
      { dirtyPartitions := [[r], [r]], worldStamp := some world }).marks =
      marks.markRecord (r.coalesce r) := by
  have hself : validationStatus world (some world) = .merged := by simp [validationStatus]
  have hmerge : mergePlannedDirty sort world marks
      { records := [r, r], worldStamp := some world } =
      { marks := marks.markRecord (r.coalesce r), source := {}, status := .merged
        mergedChunkCount := 1 } := by
    unfold mergePlannedDirty
    simp only [hself, ne_eq, not_true_eq_false, if_false, sort_twice, mergeSorted, if_true]
  have hfits : fitsBelow 2 [1, 1] 0 = true := by decide
  unfold mergePhase mergePhaseScratch
  simp only [scratchStatus, hself, ne_eq, not_true_eq_false, if_false, List.map_cons, List.map_nil,
    List.length_singleton, hfits, Bool.not_true, Bool.false_eq_true, List.flatten_cons,
    List.flatten_nil, List.append_nil, List.singleton_append, hmerge, reduceCtorEq]

/-- A plan of one writer, and one of two readers. -/
def writerPlan : List (PlannedOperation Unit) := [firstChunkOperation .uniquePerChunk 1]

/-- Two operations that read the first chunk and mark it dirty. -/
def readersPlan : List (PlannedOperation Unit) :=
  [firstChunkOperation .readOnly 1, firstChunkOperation .readOnly 1]

theorem phases_writerPlan :
    planParallelExecutionPhases writerPlan = some { phases := [⟨0, 1, 4⟩] } := rfl

theorem phases_readersPlan :
    planParallelExecutionPhases readersPlan = some { phases := [⟨0, 2, 1⟩] } := by
  have hfree (mask : BitVec 32) : parallelPhaseConflict (firstChunkOperation .readOnly mask)
      (firstChunkOperation .readOnly mask) = false := by
    unfold parallelPhaseConflict
    split_ifs
    · rfl
    · simp [parallelPhaseConflictGivenOverlap, isMutatingPolicy, firstChunkOperation, hazardMask]
  have hpolicy (mask : BitVec 32) :
      (firstChunkOperation .readOnly mask).writePolicy = .readOnly := rfl
  simp [planParallelExecutionPhases, planPhases, phaseLoop, readersPlan, PhaseLoop.conflicts,
    PhaseLoop.cut, PhaseLoop.remember, PhaseLoop.phases, phaseIndexMinOperations, hfree, hpolicy,
    isParallelSupportedPolicy, policyBit, ExecutionPhase.extend]

theorem fits_writerPlan : Fits writerPlan := by
  refine ⟨?_, ?_⟩
  · change 1 ≤ npos
    unfold npos
    omega
  · change 1 ≤ npos
    unfold npos
    omega

theorem planFor_first {policy : WritePolicy} {mask : BitVec 32} {p : PlannedOperation Unit}
    (hp : p = firstChunkOperation policy mask) : p.worldStamp = plannedWorldStamp 0 twoCells ∧
      ∀ key ∈ p.chunks.keys, key < (plannedWorldStamp 0 twoCells).chunkLimit := by
  subst hp
  refine ⟨rfl, fun key hkey => ?_⟩
  obtain rfl := List.mem_singleton.1 hkey
  decide

/-- An operation that marks nothing. -/
def quietPlan : List (PlannedOperation Unit) := [firstChunkOperation .uniquePerChunk 0]

end Disagreements

end Tess
