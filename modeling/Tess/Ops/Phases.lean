import Tess.Ops.Plan

/-!
# Phases of a plan

A plan is cut into ranges of operations that may run together: an operation opens a new range
when it conflicts with a member of the open one.  Longer plans look for such members through the
chunk index.

* `planParallelExecutionPhases` : the cut, indexed from 16 operations on;
* `PhasesOf` : **what the ranges are**: consecutive, free of conflicts and as long as possible;
* `planPhases_spec` : both ways of looking yield such ranges, and the same ones.
-/

namespace Tess

variable {M : Type}

/-! ### Cutting a plan -/

/-- `detail::is_parallel_supported_policy`. -/
def isParallelSupportedPolicy (policy : WritePolicy) : Bool :=
  policy = .readOnly ∨ policy = .uniquePerChunk

/-- `detail::is_mutating_policy`. -/
def isMutatingPolicy (policy : WritePolicy) : Bool := policy ≠ .readOnly

/-- `detail::parallel_phase_conflict_given_overlap`. -/
def parallelPhaseConflictGivenOverlap (lhs rhs : PlannedOperation M) : Bool :=
  isMutatingPolicy lhs.writePolicy || isMutatingPolicy rhs.writePolicy ||
    hazardMask lhs.fieldAccess rhs.fieldAccess ≠ 0

/-- `detail::parallel_phase_conflict`. -/
def parallelPhaseConflict (lhs rhs : PlannedOperation M) : Bool :=
  if !chunksOverlap lhs.chunks.keys rhs.chunks.keys then false
  else parallelPhaseConflictGivenOverlap lhs rhs

/-- The bit of a policy in the mask of a phase. -/
def policyBit : WritePolicy → BitVec 8
  | .readOnly => 1
  | .uniquePerTile => 2
  | .uniquePerChunk => 4
  | .unsafePolicy => 8
  | .other value => 1#8 <<< value

/-- A range of operations that may run together. -/
structure ExecutionPhase where
  /-- First operation. -/
  firstOperation : ℕ
  /-- Number of operations. -/
  operationCount : ℕ
  /-- Policies of the operations. -/
  writePolicyMask : BitVec 8
  deriving DecidableEq

/-- `ExecutionPhase::extend`. -/
def ExecutionPhase.extend (phase : ExecutionPhase) (op : PlannedOperation M) : ExecutionPhase :=
  { phase with
    operationCount := phase.operationCount + 1
    writePolicyMask := phase.writePolicyMask ||| policyBit op.writePolicy }

/-- Whether a plan can be cut to its end. -/
inductive ExecutionPhaseStatus
  | ready
  | unsupportedWritePolicy
  deriving DecidableEq, Repr

/-- The ranges of a plan, or how far they go. -/
structure ExecutionPhasePlan where
  /-- Ranges. -/
  phases : List ExecutionPhase
  /-- Outcome. -/
  status : ExecutionPhaseStatus := .ready
  /-- Operation whose policy is not supported. -/
  failedOperationIndex : ℕ := 0
  /-- Its policy. -/
  failedWritePolicy : WritePolicy := .readOnly
  deriving DecidableEq

/-- `phase_index_min_operations`. -/
def phaseIndexMinOperations : ℕ := 16

/-- State of the loop: closed ranges, the open one, and the index of the operations so far. -/
structure PhaseLoop where
  /-- Closed ranges. -/
  closed : List ExecutionPhase := []
  /-- Open range. -/
  current : Option ExecutionPhase := none
  /-- Chunks of the operations on few chunks. -/
  index : ChunkOperationIndex := {}
  /-- Operations on many chunks. -/
  wideOperations : List ℕ := []

namespace PhaseLoop

variable (s : PhaseLoop)

/-- All ranges. -/
def phases : List ExecutionPhase := s.closed ++ s.current.toList

/-- The operation conflicts with a member of the open range; none when a chain of the index does
not end. -/
def conflicts (indexed : Bool) (plan : List (PlannedOperation M)) (i : ℕ)
    (op : PlannedOperation M) : Option Bool :=
  match s.current with
  | none => some true
  | some phase =>
    if !indexed || !operationIsIndexable op.chunks then
      some (((plan.take i).drop phase.firstOperation).any (parallelPhaseConflict · op))
    else
      (s.index.forEachSharing op.chunks.keys).map fun visits =>
        let hit (test : PlannedOperation M → Bool) (j : ℕ) : Bool :=
          phase.firstOperation ≤ j && (plan[j]?).any test
        visits.any (hit (parallelPhaseConflictGivenOverlap · op)) ||
          s.wideOperations.any (hit (parallelPhaseConflict · op))

/-- The ranges with one operation more. -/
def cut (i : ℕ) (op : PlannedOperation M) (conflicts : Bool) : PhaseLoop :=
  match s.current with
  | some phase =>
    if conflicts then
      { s with
        closed := s.closed ++ [phase]
        current := some ⟨i, 1, policyBit op.writePolicy⟩ }
    else { s with current := some (phase.extend op) }
  | none => { s with current := some ⟨i, 1, policyBit op.writePolicy⟩ }

/-- The index with one operation more. -/
def remember (indexed : Bool) (i : ℕ) (op : PlannedOperation M) : PhaseLoop :=
  if indexed then
    if operationIsIndexable op.chunks then
      { s with index := s.index.insert op.chunks.keys (i % 2 ^ 32) }
    else { s with wideOperations := s.wideOperations ++ [i % 2 ^ 32] }
  else s

end PhaseLoop

/-- The loop of `plan_parallel_execution_phases`. -/
def phaseLoop (indexed : Bool) (plan : List (PlannedOperation M)) :
    ℕ → List (PlannedOperation M) → PhaseLoop → Option ExecutionPhasePlan
  | _, [], s => some { phases := s.phases }
  | i, op :: ops, s =>
    if !isParallelSupportedPolicy op.writePolicy then
      some
        { phases := s.phases
          status := .unsupportedWritePolicy
          failedOperationIndex := i
          failedWritePolicy := op.writePolicy }
    else
      (s.conflicts indexed plan i op).bind fun conflicts =>
        phaseLoop indexed plan (i + 1) ops ((s.cut i op conflicts).remember indexed i op)

/-- Phase planning with or without the index; none when it does not return. -/
def planPhases (indexed : Bool) (plan : List (PlannedOperation M)) : Option ExecutionPhasePlan :=
  phaseLoop indexed plan 0 plan
    { index := if indexed then ({} : ChunkOperationIndex).reserve plan.length else {} }

/-- `plan_parallel_execution_phases`. -/
def planParallelExecutionPhases (plan : List (PlannedOperation M)) : Option ExecutionPhasePlan :=
  planPhases (decide (phaseIndexMinOperations ≤ plan.length)) plan

/-! ### What the ranges are -/

/-- Two operations share a chunk and one of them may change it, or their fields conflict. -/
def PhaseConflict (lhs rhs : PlannedOperation M) : Prop :=
  (∃ key ∈ lhs.chunks.keys, key ∈ rhs.chunks.keys) ∧
    (isMutatingPolicy lhs.writePolicy = true ∨ isMutatingPolicy rhs.writePolicy = true ∨
      hazardMask lhs.fieldAccess rhs.fieldAccess ≠ 0)

/-- Ranges that follow each other from an operation to another. -/
def Consecutive : ℕ → List ExecutionPhase → ℕ → Prop
  | a, [], n => a = n
  | a, phase :: phases, n =>
    phase.firstOperation = a ∧ 0 < phase.operationCount ∧
      Consecutive (a + phase.operationCount) phases n

namespace ExecutionPhase

variable (phase : ExecutionPhase)

/-- The operation is in the range. -/
def Covers (i : ℕ) : Prop :=
  phase.firstOperation ≤ i ∧ i < phase.firstOperation + phase.operationCount

/-- No two operations of the range conflict. -/
def Free (plan : List (PlannedOperation M)) : Prop :=
  ∀ i j a b, phase.Covers i → phase.Covers j → i < j → plan[i]? = some a → plan[j]? = some b →
    ¬ PhaseConflict a b

/-- The operation conflicts with one of the range. -/
def Blocks (plan : List (PlannedOperation M)) (op : PlannedOperation M) : Prop :=
  ∃ i a, phase.Covers i ∧ plan[i]? = some a ∧ PhaseConflict a op

/-- The mask of a phase is made of the policies of its operations. -/
def Masks (plan : List (PlannedOperation M)) : Prop :=
  phase.writePolicyMask = ((plan.drop phase.firstOperation).take phase.operationCount).foldl
    (fun mask op => mask ||| policyBit op.writePolicy) 0

end ExecutionPhase

/-- Each range ends where the next operation conflicts with it. -/
def GreedyCut (plan : List (PlannedOperation M)) : List ExecutionPhase → Prop
  | [] => True
  | [_] => True
  | phase :: next :: phases =>
    (∃ op, plan[next.firstOperation]? = some op ∧ phase.Blocks plan op) ∧
      GreedyCut plan (next :: phases)

/-- **The ranges of the first operations of a plan.** -/
structure PhasesOf (plan : List (PlannedOperation M)) (phases : List ExecutionPhase) (n : ℕ) :
    Prop where
  /-- They follow each other. -/
  consecutive : Consecutive 0 phases n
  /-- No conflict is inside a range. -/
  free : ∀ phase ∈ phases, phase.Free plan
  /-- A new range starts only where it must. -/
  greedy : GreedyCut plan phases
  /-- Their masks are the policies. -/
  masks : ∀ phase ∈ phases, phase.Masks plan

/-- The number of operations before the first unsupported policy. -/
def supportedCount (plan : List (PlannedOperation M)) : ℕ :=
  (plan.takeWhile fun op => isParallelSupportedPolicy op.writePolicy).length

section Cutting

variable {plan ops : List (PlannedOperation M)} {op lhs rhs : PlannedOperation M} {i a b n : ℕ}
  {phase next : ExecutionPhase} {phases : List ExecutionPhase} {s s' : PhaseLoop}

theorem parallelPhaseConflict_iff :
    parallelPhaseConflict lhs rhs = true ↔ PhaseConflict lhs rhs := by
  have hoverlap := chunksOverlap_iff lhs.chunks.ascending rhs.chunks.ascending
  unfold parallelPhaseConflict PhaseConflict parallelPhaseConflictGivenOverlap
  rw [← hoverlap]
  cases chunksOverlap lhs.chunks.keys rhs.chunks.keys <;> simp [or_assoc]

/-- Given a chunk in common, only the policies and fields matter. -/
theorem parallelPhaseConflictGivenOverlap_iff
    (h : ∃ key ∈ lhs.chunks.keys, key ∈ rhs.chunks.keys) :
    parallelPhaseConflictGivenOverlap lhs rhs = true ↔ PhaseConflict lhs rhs := by
  unfold PhaseConflict parallelPhaseConflictGivenOverlap
  simp [h, or_assoc]

/-! ### Both ways of looking agree -/

/-- A member of the open range conflicts, compared with all of them. -/
theorem any_take_drop_iff {first : ℕ} :
    ((plan.take i).drop first).any (parallelPhaseConflict · op) = true ↔
      ∃ j lhs, first ≤ j ∧ j < i ∧ plan[j]? = some lhs ∧ PhaseConflict lhs op := by
  simp only [List.any_eq_true, parallelPhaseConflict_iff, List.mem_iff_getElem?, List.getElem?_drop]
  constructor
  · rintro ⟨lhs, ⟨k, hk⟩, hconf⟩
    obtain ⟨hlt, -⟩ := List.getElem?_eq_some_iff.1 hk
    rw [List.length_take] at hlt
    rw [List.getElem?_take_of_lt (by omega)] at hk
    exact ⟨first + k, lhs, by omega, by omega, hk, hconf⟩
  · rintro ⟨j, lhs, hle, hlt, hj, hconf⟩
    refine ⟨lhs, ⟨j - first, ?_⟩, hconf⟩
    rw [Nat.add_sub_cancel' hle, List.getElem?_take_of_lt hlt, hj]

/-- The index of the loop follows the operations so far. -/
structure PhaseLoop.Tracks (s : PhaseLoop) (plan : List (PlannedOperation M)) (i : ℕ) : Prop where
  /-- The index holds the operations on few chunks. -/
  index : s.index.Indexes (indexEntries (plan.take i))
  /-- The others are listed. -/
  wide : s.wideOperations = wideIndices (plan.take i)

/-- **The indexed search** for a conflict finds what the comparison with all members finds. -/
theorem PhaseLoop.Tracks.conflicts_eq (h : s.Tracks plan i) (hcurrent : s.current = s'.current) :
    s.conflicts true plan i op = s'.conflicts false plan i op := by
  unfold PhaseLoop.conflicts
  rw [hcurrent]
  cases s'.current with
  | none => rfl
  | some phase =>
    simp only [Bool.not_true, Bool.false_or, Bool.not_false, Bool.true_or, if_true]
    split_ifs with hwide
    · rfl
    · obtain ⟨visits, hvisits, hmem⟩ :=
        ChunkOperationIndex.forEachSharing_spec h.index op.chunks.keys
      rw [hvisits, Option.map_some]
      refine congrArg some (Bool.eq_iff_iff.2 ?_)
      rw [any_take_drop_iff, Bool.or_eq_true, List.any_eq_true, List.any_eq_true]
      simp only [Bool.and_eq_true, decide_eq_true_eq, Option.any_eq_true]
      have hget {j : ℕ} {lhs : PlannedOperation M} (hj : (plan.take i)[j]? = some lhs) :
          j < i ∧ plan[j]? = some lhs := by
        obtain ⟨hlt, -⟩ := List.getElem?_eq_some_iff.1 hj
        rw [List.length_take] at hlt
        rw [List.getElem?_take_of_lt (by omega)] at hj
        exact ⟨by omega, hj⟩
      constructor
      · rintro (⟨j, hj, hle, lhs, hlhs, hconf⟩ | ⟨j, hj, hle, lhs, hlhs, hconf⟩)
        · obtain ⟨key, hkey, hentry⟩ := (hmem j).1 hj
          obtain ⟨lhs', hj', -, hkey'⟩ := mem_indexEntries.1 hentry
          obtain ⟨hlt, hj'⟩ := hget hj'
          rw [hlhs, Option.some.injEq] at hj'
          subst hj'
          exact ⟨j, lhs, hle, hlt, hlhs,
            (parallelPhaseConflictGivenOverlap_iff ⟨key, hkey', hkey⟩).1 hconf⟩
        · rw [h.wide] at hj
          obtain ⟨lhs', hj', -⟩ := mem_wideIndices.1 hj
          exact ⟨j, lhs, hle, (hget hj').1, hlhs, parallelPhaseConflict_iff.1 hconf⟩
      · rintro ⟨j, lhs, hle, hlt, hlhs, hconf⟩
        have hj : (plan.take i)[j]? = some lhs := by rw [List.getElem?_take_of_lt hlt, hlhs]
        obtain ⟨key, hkey, hkey'⟩ := hconf.1
        cases hnarrow : operationIsIndexable lhs.chunks with
        | true => exact Or.inl ⟨j, (hmem j).2 ⟨key, hkey', mem_indexEntries.2
            ⟨lhs, hj, hnarrow, hkey⟩⟩, hle, lhs, hlhs,
            (parallelPhaseConflictGivenOverlap_iff ⟨key, hkey, hkey'⟩).2 hconf⟩
        | false => exact Or.inr ⟨j, h.wide ▸ mem_wideIndices.2 ⟨lhs, hj, hnarrow⟩, hle, lhs, hlhs,
            parallelPhaseConflict_iff.2 hconf⟩

/-- Remembering the next operation keeps the index. -/
theorem PhaseLoop.Tracks.remember (h : s.Tracks plan i) (hop : plan[i]? = some op)
    (hfits : Fits plan) : (s.remember true i op).Tracks plan (i + 1) := by
  have htake : plan.take (i + 1) = plan.take i ++ [op] := by
    rw [List.take_add_one, hop]
    rfl
  obtain ⟨hlt, -⟩ := List.getElem?_eq_some_iff.1 hop
  have hlen : (plan.take i).length = i := by rw [List.length_take, min_eq_left hlt.le]
  have hfits' : Fits (plan.take (i + 1)) := by
    rw [← List.take_append_drop (i + 1) plan] at hfits
    exact hfits.of_append
  have hmod : i % 2 ^ 32 = i := Nat.mod_eq_of_lt (by
    have := hfits.operations
    unfold npos at this
    omega)
  have hcount : s.index.nodeCount = (indexEntries (plan.take i)).length := by
    rw [← h.index.entries_eq, List.length_map, List.length_range]
  have hentries := hfits'.entries
  rw [htake, indexEntries_concat] at hentries
  unfold PhaseLoop.remember
  cases hidx : operationIsIndexable op.chunks with
  | true =>
    rw [hidx, if_pos rfl, List.length_append, List.length_map] at hentries
    refine ⟨?_, ?_⟩
    · simp only [if_true, hmod, htake, indexEntries_concat, hidx, hlen]
      exact (h.index.insert (hcount ▸ hentries)).1
    · simp only [if_true, htake, wideIndices_concat, hidx, h.wide, List.append_nil]
  | false =>
    refine ⟨?_, ?_⟩
    · simp only [if_true, Bool.false_eq_true, if_false, htake, indexEntries_concat, hidx,
        List.append_nil]
      exact h.index
    · simp only [if_true, Bool.false_eq_true, if_false, hmod, htake, wideIndices_concat, hidx,
        h.wide, hlen]

/-- **The two loops agree.** -/
theorem phaseLoop_indexed (hfits : Fits plan) (hops : plan.drop i = ops)
    (hclosed : s.closed = s'.closed) (hcurrent : s.current = s'.current)
    (h : s.Tracks plan i) : phaseLoop true plan i ops s = phaseLoop false plan i ops s' := by
  have hphases {s s' : PhaseLoop} (h1 : s.closed = s'.closed) (h2 : s.current = s'.current) :
      s.phases = s'.phases := by rw [PhaseLoop.phases, PhaseLoop.phases, h1, h2]
  induction ops generalizing i s s' with
  | nil => rw [phaseLoop, phaseLoop, hphases hclosed hcurrent]
  | cons op ops ih =>
    have hop : plan[i]? = some op := by
      have := congrArg (fun l : List (PlannedOperation M) => l[0]?) hops
      simpa using this
    have hops' : plan.drop (i + 1) = ops := by
      rw [← List.drop_drop, hops]
      rfl
    rw [phaseLoop, phaseLoop, h.conflicts_eq hcurrent, hphases hclosed hcurrent]
    split_ifs
    · rfl
    · congr 1
      funext conflicts
      have hcut : (s.cut i op conflicts).closed = (s'.cut i op conflicts).closed ∧
          (s.cut i op conflicts).current = (s'.cut i op conflicts).current := by
        unfold PhaseLoop.cut
        rw [hcurrent, hclosed]
        cases s'.current with
        | none => exact ⟨rfl, rfl⟩
        | some phase => cases conflicts <;> exact ⟨rfl, rfl⟩
      have hkeeps (s : PhaseLoop) (indexed : Bool) :
          (s.remember indexed i op).closed = s.closed ∧
            (s.remember indexed i op).current = s.current := by
        unfold PhaseLoop.remember
        split_ifs <;> exact ⟨rfl, rfl⟩
      have htracks : (s.cut i op conflicts).Tracks plan i := by
        unfold PhaseLoop.cut
        cases s.current with
        | none => exact ⟨h.index, h.wide⟩
        | some phase => cases conflicts <;> exact ⟨h.index, h.wide⟩
      refine ih hops' ?_ ?_ (htracks.remember hop hfits)
      · rw [(hkeeps _ _).1, (hkeeps _ _).1, hcut.1]
      · rw [(hkeeps _ _).2, (hkeeps _ _).2, hcut.2]

theorem planPhases_indexed (hfits : Fits plan) : planPhases true plan = planPhases false plan := by
  have hempty : ({} : ChunkOperationIndex).Indexes [] := by
    refine ⟨fun _ => Nat.zero_le _, fun _ => rfl, fun b => ?_, rfl⟩
    simp only [ChunkOperationIndex.headOf]
    split_ifs <;> rfl
  refine phaseLoop_indexed hfits rfl rfl rfl ⟨?_, rfl⟩
  exact (hempty.rehash (Nat.zero_le _) _).1

/-! ### The ranges are greedy -/

theorem consecutive_concat : Consecutive a (phases ++ [phase]) n ↔
    Consecutive a phases phase.firstOperation ∧ 0 < phase.operationCount ∧
      phase.firstOperation + phase.operationCount = n := by
  induction phases generalizing a with
  | nil =>
    constructor
    · rintro ⟨rfl, hpos, hn⟩
      exact ⟨rfl, hpos, hn⟩
    · rintro ⟨hfirst, hpos, hn⟩
      obtain rfl : a = phase.firstOperation := hfirst
      exact ⟨rfl, hpos, hn⟩
  | cons q phases ih =>
    rw [List.cons_append, Consecutive, ih, Consecutive]
    tauto

/-- The last range matters to the one before it only through its first operation. -/
theorem greedyCut_congr (h : GreedyCut plan (phases ++ [phase]))
    (hfirst : next.firstOperation = phase.firstOperation) : GreedyCut plan (phases ++ [next]) := by
  induction phases with
  | nil => trivial
  | cons q phases ih =>
    cases phases with
    | nil => exact ⟨hfirst ▸ h.1, trivial⟩
    | cons r phases => exact ⟨h.1, ih h.2⟩

theorem greedyCut_concat (h : GreedyCut plan (phases ++ [phase]))
    (hop : plan[next.firstOperation]? = some op) (hblocks : phase.Blocks plan op) :
    GreedyCut plan (phases ++ [phase] ++ [next]) := by
  induction phases with
  | nil => exact ⟨⟨op, hop, hblocks⟩, trivial⟩
  | cons q phases ih =>
    cases phases with
    | nil => exact ⟨h.1, ih h.2⟩
    | cons r phases => exact ⟨h.1, ih h.2⟩

theorem masks_single (hop : plan[i]? = some op) :
    (⟨i, 1, policyBit op.writePolicy⟩ : ExecutionPhase).Masks plan := by
  obtain ⟨hlt, hget⟩ := List.getElem?_eq_some_iff.1 hop
  rw [ExecutionPhase.Masks, List.drop_eq_getElem_cons hlt, hget]
  simp

theorem masks_extend (h : phase.Masks plan)
    (hop : plan[phase.firstOperation + phase.operationCount]? = some op) :
    (phase.extend op).Masks plan := by
  have hop' : (plan.drop phase.firstOperation)[phase.operationCount]? = some op := by
    rw [List.getElem?_drop, hop]
  rw [ExecutionPhase.Masks] at h
  rw [ExecutionPhase.Masks, ExecutionPhase.extend, h]
  change _ = List.foldl _ _ (List.take (phase.operationCount + 1) _)
  rw [List.take_add_one, hop', List.foldl_append]
  rfl

/-- **The invariant of the loop.** -/
def PhaseLoop.Inv (s : PhaseLoop) (plan : List (PlannedOperation M)) (i : ℕ) : Prop :=
  match s.current with
  | none => i = 0 ∧ s.closed = []
  | some phase => PhasesOf plan (s.closed ++ [phase]) i

theorem PhaseLoop.Inv.phasesOf (h : s.Inv plan i) : PhasesOf plan s.phases i := by
  unfold PhaseLoop.Inv at h
  unfold PhaseLoop.phases
  cases hcurrent : s.current with
  | none =>
    rw [hcurrent] at h
    obtain ⟨rfl, hclosed⟩ := h
    rw [hclosed]
    exact ⟨rfl, by simp, trivial, by simp⟩
  | some phase =>
    rw [hcurrent] at h
    exact h

/-- **An operation more** extends the open range, or starts a new one. -/
theorem PhaseLoop.Inv.cut (h : s.Inv plan i) (hop : plan[i]? = some op) {conflicts : Bool}
    (hconf : s.conflicts false plan i op = some conflicts) :
    (s.cut i op conflicts).Inv plan (i + 1) := by
  have hsingle : (⟨i, 1, policyBit op.writePolicy⟩ : ExecutionPhase).Free plan := by
    rintro j k - - ⟨hj, hj'⟩ ⟨hk, hk'⟩ hlt
    simp only at hj hj' hk hk'
    omega
  unfold PhaseLoop.Inv at h
  unfold PhaseLoop.conflicts at hconf
  unfold PhaseLoop.cut
  cases hcurrent : s.current with
  | none =>
    rw [hcurrent] at h
    obtain ⟨rfl, hclosed⟩ := h
    simp only [PhaseLoop.Inv, hclosed, List.nil_append]
    exact ⟨⟨rfl, Nat.one_pos, rfl⟩, by simpa using hsingle, trivial, by
      simpa using masks_single hop⟩
  | some phase =>
    rw [hcurrent] at h hconf
    simp only [Bool.not_false, Bool.true_or, if_true, Option.some.injEq] at hconf
    obtain ⟨hcons, hfree, hgreedy, hmasks⟩ := h
    obtain ⟨hcons', hpos, hend⟩ := consecutive_concat.1 hcons
    cases conflicts with
    | true =>
      obtain ⟨j, lhs, hle, hlt, hj, hconf⟩ := any_take_drop_iff.1 hconf
      simp only [if_true, PhaseLoop.Inv]
      refine ⟨consecutive_concat.2 ⟨hcons, Nat.one_pos, rfl⟩, ?_,
        greedyCut_concat hgreedy hop ⟨j, lhs, ⟨hle, hend ▸ hlt⟩, hj, hconf⟩, ?_⟩
      · intro q hq
        rcases List.mem_append.1 hq with hq | hq
        · exact hfree q hq
        · rw [List.mem_singleton.1 hq]
          exact hsingle
      · intro q hq
        rcases List.mem_append.1 hq with hq | hq
        · exact hmasks q hq
        · rw [List.mem_singleton.1 hq]
          exact masks_single hop
    | false =>
      simp only [Bool.false_eq_true, if_false, PhaseLoop.Inv]
      have hlast := hfree phase (by simp)
      refine ⟨consecutive_concat.2 ⟨hcons', Nat.succ_pos _, ?_⟩, ?_,
        greedyCut_congr hgreedy rfl, ?_⟩
      · rw [ExecutionPhase.extend]
        simp only
        omega
      · intro q hq
        rcases List.mem_append.1 hq with hq | hq
        · exact hfree q (List.mem_append_left _ hq)
        · rw [List.mem_singleton.1 hq]
          rintro j k lhs rhs ⟨hj, hj'⟩ ⟨hk, hk'⟩ hlt hlhs hrhs hbad
          simp only [ExecutionPhase.extend] at hj hj' hk hk'
          rcases Nat.lt_or_ge k i with hki | hki
          · exact hlast j k lhs rhs ⟨hj, by omega⟩ ⟨hk, by omega⟩ hlt hlhs hrhs hbad
          · -- the pair ends with the new operation
            obtain rfl : k = i := by omega
            rw [hop, Option.some.injEq] at hrhs
            subst hrhs
            have := any_take_drop_iff.2 ⟨j, lhs, hj, hlt, hlhs, hbad⟩
            rw [this] at hconf
            cases hconf
      · intro q hq
        rcases List.mem_append.1 hq with hq | hq
        · exact hmasks q (List.mem_append_left _ hq)
        · rw [List.mem_singleton.1 hq]
          exact masks_extend (hmasks phase (by simp)) (hend ▸ hop)

/-- **The loop over all operations.** -/
theorem phaseLoop_spec (hops : plan.drop i = ops) (h : s.Inv plan i) :
    ∃ r, phaseLoop false plan i ops s = some r ∧
      PhasesOf plan r.phases (i + supportedCount ops) ∧
      (r.status = .ready ↔ supportedCount ops = ops.length) ∧
      (r.status ≠ .ready → r.failedOperationIndex = i + supportedCount ops ∧
        ∃ op, plan[r.failedOperationIndex]? = some op ∧ r.failedWritePolicy = op.writePolicy ∧
          isParallelSupportedPolicy op.writePolicy = false) := by
  induction ops generalizing i s with
  | nil => exact ⟨_, rfl, h.phasesOf, iff_of_true rfl rfl, fun hne => absurd rfl hne⟩
  | cons op ops ih =>
    have hop : plan[i]? = some op := by
      have := congrArg (fun l : List (PlannedOperation M) => l[0]?) hops
      simpa using this
    have hops' : plan.drop (i + 1) = ops := by
      rw [← List.drop_drop, hops]
      rfl
    rw [phaseLoop]
    cases hpolicy : isParallelSupportedPolicy op.writePolicy with
    | false =>
      have hzero : supportedCount (op :: ops) = 0 := by simp [supportedCount, hpolicy]
      rw [hzero]
      refine ⟨_, rfl, h.phasesOf, by simp, fun _ => ⟨rfl, op, hop, rfl, hpolicy⟩⟩
    | true =>
      have hsucc : supportedCount (op :: ops) = supportedCount ops + 1 := by
        simp [supportedCount, hpolicy]
      obtain ⟨conflicts, hconf⟩ : ∃ c, s.conflicts false plan i op = some c := by
        unfold PhaseLoop.conflicts
        cases s.current <;> simp
      have hinv := h.cut hop hconf
      obtain ⟨r, hr, h1, h2, h3⟩ := ih hops' (s := (s.cut i op conflicts).remember false i op) hinv
      rw [hconf, hsucc, List.length_cons]
      refine ⟨r, hr, ?_, h2.trans ?_, fun hne => ?_⟩
      · rwa [show i + (supportedCount ops + 1) = i + 1 + supportedCount ops by omega]
      · omega
      · obtain ⟨h4, h5⟩ := h3 hne
        exact ⟨by omega, h5⟩

/-- **Both planners cut a plan into its greedy ranges**, up to the first unsupported policy. -/
theorem planPhases_spec (hfits : Fits plan) :
    ∃ r, planParallelExecutionPhases plan = some r ∧ (∀ indexed, planPhases indexed plan = some r) ∧
      PhasesOf plan r.phases (supportedCount plan) ∧
      (r.status = .ready ↔ supportedCount plan = plan.length) ∧
      (r.status ≠ .ready → r.failedOperationIndex = supportedCount plan ∧
        ∃ op, plan[r.failedOperationIndex]? = some op ∧ r.failedWritePolicy = op.writePolicy ∧
          isParallelSupportedPolicy op.writePolicy = false) := by
  obtain ⟨r, hr, h1, h2, h3⟩ := @phaseLoop_spec _ plan _ 0 {} rfl ⟨rfl, rfl⟩
  rw [Nat.zero_add] at h1 h3
  have hboth : ∀ indexed, planPhases indexed plan = some r := by
    intro indexed
    cases indexed with
    | false => exact hr
    | true => exact (planPhases_indexed hfits).trans hr
  exact ⟨r, hboth _, hboth, h1, h2, h3⟩

end Cutting

end Tess
