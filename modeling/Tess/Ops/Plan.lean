import Tess.Ops.ChunkIndex
import Tess.Ops.PlannedDirty
import Tess.Lib.Sorted
import Mathlib.Data.List.Find

/-!
# Planning queued operations

The planner takes queued operations one after the other, expands the chunks of each and accepts
it unless an operation accepted earlier shares a chunk with it and accesses the same fields.  It
looks for such hazards through the chunk index, except for operations on many chunks.

* `planOperations` : planning into a report, fresh or reused;
* `naivePlan` : the planner that compares every operation with all accepted ones;
* `planOperations_spec` : **the two agree** as long as chunks can be numbered.
-/

namespace Tess

/-! ### Queued operations -/

/-- Write policy; a value that names none is kept as it is. -/
inductive WritePolicy
  | readOnly
  | uniquePerTile
  | uniquePerChunk
  | unsafePolicy
  | other (value : ℕ)
  deriving DecidableEq, Repr

/-- `is_valid_write_policy`. -/
def isValidWritePolicy : WritePolicy → Bool
  | .other _ => false
  | _ => true

/-- How an operation selects its chunks. -/
inductive DomainKind
  | explicitChunks
  | dirtyChunks
  | activeChunks
  | residentChunks
  deriving DecidableEq, Repr

/-- Chunk keys, ascending and free of duplicates. -/
structure ChunkList where
  /-- Keys. -/
  keys : List ℕ := []
  /-- They ascend strictly. -/
  ascending : keys.Pairwise (· < ·) := by simp
  deriving DecidableEq

/-- The keys of some chunks, sorted and each once. -/
def ChunkList.ofKeys (keys : List ℕ) : ChunkList where
  keys := (keys.mergeSort fun a b => decide (a ≤ b)).destutter (· ≠ ·)
  ascending := Sorted.pairwise_lt_of_isChain
    ((List.pairwise_mergeSort' (· ≤ ·) keys).sublist (List.destutter_sublist _ _))
    (List.isChain_destutter _ _)

/-- Chunk domain of an operation. -/
structure DomainDesc where
  /-- Selector. -/
  kind : DomainKind := .residentChunks
  /-- Bits of a dirty or active selector. -/
  mask : BitVec 32 := 0
  /-- Chunks of an explicit selector. -/
  explicitChunks : ChunkList := {}

/-- `DomainDesc::explicit_chunks`. -/
def DomainDesc.ofChunks (keys : List ℕ) : DomainDesc :=
  { kind := .explicitChunks, explicitChunks := .ofKeys keys }

/-- Fields that an operation reads, writes and makes dirty. -/
structure FieldAccessDesc where
  /-- Fields read. -/
  readMask : BitVec 32 := 0
  /-- Fields written. -/
  writeMask : BitVec 32 := 0
  /-- Dirty bits. -/
  dirtyMask : BitVec 32 := 0
  deriving DecidableEq

/-- Policy and domain of an operation, for diagnostics. -/
structure OperationAccess where
  /-- Write policy. -/
  writePolicy : WritePolicy
  /-- Domain selector. -/
  domainKind : DomainKind
  /-- Bits of the selector. -/
  domainMask : BitVec 32

/-- Outcome of planning an operation. -/
inductive OperationStatus
  | planned
  | invalidIdentity
  | invalidWritePolicy
  | invalidDomain
  | invalidFieldAccess
  | hazardConflict
  deriving DecidableEq, Repr

/-- Why an operation was rejected. -/
inductive OperationFailure
  | none
  | nonDenseHandle
  | nonDenseId
  | invalidWritePolicyValue
  | explicitChunkOutOfRange
  | readOnlyWriteMask
  | fieldHazardConflict
  deriving DecidableEq, Repr

variable {M : Type}

/-- A queued operation; `M` is what planning passes on: kind, priority, budget, payload,
versions, invalidations, backend, exactness and source. -/
structure QueuedOperation (M : Type) where
  /-- Handle. -/
  handle : ℕ
  /-- Identifier. -/
  id : ℕ
  /-- Chunks. -/
  domain : DomainDesc
  /-- Fields. -/
  fieldAccess : FieldAccessDesc
  /-- Policy. -/
  writePolicy : WritePolicy
  /-- Passed on. -/
  intent : M

/-- What planning says of one operation. -/
structure OperationReport (M : Type) where
  /-- Handle. -/
  handle : ℕ
  /-- Identifier. -/
  id : ℕ
  /-- Outcome. -/
  status : OperationStatus := .planned
  /-- Reason. -/
  failure : OperationFailure := .none
  /-- Policy and domain. -/
  access : OperationAccess
  /-- Fields. -/
  fieldAccess : FieldAccessDesc
  /-- Passed on. -/
  intent : M
  /-- First chunk out of range. -/
  detailChunk : Option ℕ := none
  /-- Handle, identifier and fields of a conflict. -/
  conflict : Option (ℕ × ℕ × BitVec 32) := none
  /-- Number of chunks. -/
  chunkCount : ℕ := 0

/-- An accepted operation with its chunks. -/
structure PlannedOperation (M : Type) where
  /-- Handle. -/
  handle : ℕ
  /-- Identifier. -/
  id : ℕ
  /-- Policy and domain. -/
  access : OperationAccess
  /-- Fields. -/
  fieldAccess : FieldAccessDesc
  /-- Policy. -/
  writePolicy : WritePolicy
  /-- Passed on. -/
  intent : M
  /-- Chunks. -/
  chunks : ChunkList
  /-- World the chunks were checked for. -/
  worldStamp : PlannedWorldStamp

/-- What planning reads of a world. -/
structure OpsWorld where
  /-- Identity and number of chunks. -/
  stamp : PlannedWorldStamp
  /-- Dirty bits of each chunk. -/
  dirtyMask : ℕ → BitVec 32 := fun _ => 0
  /-- Active bits of each chunk. -/
  activeMask : ℕ → BitVec 32 := fun _ => 0

/-- Number of chunks. -/
def OpsWorld.chunkCount (world : OpsWorld) : ℕ := world.stamp.chunkLimit

/-- `collect_matching_chunks`. -/
def collectMatchingChunks (count : ℕ) (column : ℕ → BitVec 32) (mask : BitVec 32) : ChunkList where
  keys := (List.range count).filter fun key => column key &&& mask ≠ 0
  ascending := List.pairwise_lt_range.filter _

/-- `detail::expand_domain`, with the first explicit chunk out of range. -/
def expandDomain (world : OpsWorld) (domain : DomainDesc) : Except ℕ ChunkList :=
  match domain.kind with
  | .explicitChunks =>
    match domain.explicitChunks.keys.find? fun key => world.chunkCount ≤ key with
    | some key => .error key
    | none => .ok domain.explicitChunks
  | .dirtyChunks => .ok (collectMatchingChunks world.chunkCount world.dirtyMask domain.mask)
  | .activeChunks => .ok (collectMatchingChunks world.chunkCount world.activeMask domain.mask)
  | .residentChunks => .ok { keys := List.range world.chunkCount, ascending := List.pairwise_lt_range }

/-- `detail::operation_access`. -/
def operationAccess (op : QueuedOperation M) : OperationAccess :=
  ⟨op.writePolicy, op.domain.kind, op.domain.mask⟩

/-- `detail::is_valid_field_access`. -/
def isValidFieldAccess (writePolicy : WritePolicy) (fieldAccess : FieldAccessDesc) : Bool :=
  !(writePolicy = .readOnly ∧ fieldAccess.writeMask ≠ 0)

/-! ### Hazards -/

/-- `detail::hazard_mask`. -/
def hazardMask (earlier later : FieldAccessDesc) : BitVec 32 :=
  (earlier.writeMask &&& later.writeMask) ||| (earlier.writeMask &&& later.readMask) |||
    (earlier.readMask &&& later.writeMask)

/-- `detail::chunks_overlap`, on ascending lists. -/
def chunksOverlap : List ℕ → List ℕ → Bool
  | lhs :: lhss, rhs :: rhss =>
    if lhs = rhs then true
    else if lhs < rhs then chunksOverlap lhss (rhs :: rhss)
    else chunksOverlap (lhs :: lhss) rhss
  | _, _ => false
  termination_by lhs rhs => lhs.length + rhs.length

/-- `detail::find_hazard`. -/
def findHazard (earlierOps : List (PlannedOperation M)) (later : PlannedOperation M) :
    Option (PlannedOperation M) :=
  earlierOps.find? fun earlier =>
    hazardMask earlier.fieldAccess later.fieldAccess ≠ 0 ∧
      chunksOverlap earlier.chunks.keys later.chunks.keys

/-- `index_max_chunks_per_operation`. -/
def indexMaxChunksPerOperation : ℕ := 64

/-- `detail::operation_is_indexable`. -/
def operationIsIndexable (chunks : ChunkList) : Bool :=
  chunks.keys.length ≤ indexMaxChunksPerOperation

/-- A visit of an indexed operation: the earliest hazard so far. -/
def visitHazard (earlierOps : List (PlannedOperation M)) (later : PlannedOperation M)
    (earliest opIndex : ℕ) : ℕ :=
  if opIndex ≥ earliest then earliest
  else
    match earlierOps[opIndex]? with
    | none => earliest
    | some earlier =>
      if hazardMask earlier.fieldAccess later.fieldAccess = 0 then earliest else opIndex

/-- The scan of the operations on many chunks. -/
def scanWide (earlierOps : List (PlannedOperation M)) (later : PlannedOperation M) (earliest : ℕ) :
    List ℕ → ℕ
  | [] => earliest
  | opIndex :: wideOps =>
    if opIndex ≥ earliest then earliest
    else
      match earlierOps[opIndex]? with
      | none => scanWide earlierOps later earliest wideOps
      | some earlier =>
        if hazardMask earlier.fieldAccess later.fieldAccess = 0 then
          scanWide earlierOps later earliest wideOps
        else if chunksOverlap earlier.chunks.keys later.chunks.keys then opIndex
        else scanWide earlierOps later earliest wideOps

/-- `detail::find_hazard_indexed`; none when a chain of the index does not end. -/
def findHazardIndexed (index : ChunkOperationIndex) (wideOps : List ℕ)
    (earlierOps : List (PlannedOperation M)) (later : PlannedOperation M) :
    Option (Option (PlannedOperation M)) :=
  if !operationIsIndexable later.chunks then some (findHazard earlierOps later)
  else
    (index.forEachSharing later.chunks.keys).map fun visits =>
      let earliest := visits.foldl (visitHazard earlierOps later) npos
      let earliest := scanWide earlierOps later earliest wideOps
      if earliest = npos then none else earlierOps[earliest]?

/-! ### Planning -/

/-- Reports, accepted operations and their index. -/
structure ExecutionReport (M : Type) where
  /-- One report for each operation. -/
  operations : List (OperationReport M) := []
  /-- Accepted operations. -/
  plan : List (PlannedOperation M) := []
  /-- Chunks of the accepted operations on few chunks. -/
  chunkIndex : ChunkOperationIndex := {}
  /-- Accepted operations on many chunks. -/
  wideOperations : List ℕ := []

namespace ExecutionReport

variable (report : ExecutionReport M)

/-- `ExecutionReport::reset`. -/
def reset : ExecutionReport M :=
  { operations := [], plan := [], chunkIndex := report.chunkIndex.clear, wideOperations := [] }

/-- `ExecutionReport::reserve`. -/
def reserve (size : ℕ) : ExecutionReport M :=
  { report with chunkIndex := report.chunkIndex.reserve size }

/-- `ExecutionReport::push_report`. -/
def pushReport (op : OperationReport M) : ExecutionReport M :=
  { report with operations := report.operations ++ [op] }

/-- `ExecutionReport::push_planned`. -/
def pushPlanned (planned : PlannedOperation M) : ExecutionReport M :=
  let opIndex := report.plan.length % 2 ^ 32
  let report :=
    if operationIsIndexable planned.chunks then
      { report with chunkIndex := report.chunkIndex.insert planned.chunks.keys opIndex }
    else { report with wideOperations := report.wideOperations ++ [opIndex] }
  { report with plan := report.plan ++ [planned] }

end ExecutionReport

/-- The report of an operation before anything is known of it. -/
def initialReport (opIndex : ℕ) (op : QueuedOperation M) : OperationReport M where
  handle := opIndex
  id := opIndex
  access := operationAccess op
  fieldAccess := op.fieldAccess
  intent := op.intent

/-- The checks before the hazard search: the operation with its chunks, or its rejection. -/
def admitOperation (world : OpsWorld) (opIndex : ℕ) (op : QueuedOperation M) :
    Except (OperationReport M) (PlannedOperation M) :=
  let opReport := initialReport opIndex op
  if op.handle ≠ opIndex ∨ op.id ≠ opIndex then
    .error { opReport with
      status := .invalidIdentity
      failure := if op.handle ≠ opIndex then .nonDenseHandle else .nonDenseId }
  else if !isValidWritePolicy op.writePolicy then
    .error { opReport with status := .invalidWritePolicy, failure := .invalidWritePolicyValue }
  else if !isValidFieldAccess op.writePolicy op.fieldAccess then
    .error { opReport with status := .invalidFieldAccess, failure := .readOnlyWriteMask }
  else
    match expandDomain world op.domain with
    | .error key =>
      .error { opReport with
        status := .invalidDomain
        failure := .explicitChunkOutOfRange
        detailChunk := some key }
    | .ok chunks =>
      .ok
        { handle := op.handle
          id := op.id
          access := operationAccess op
          fieldAccess := op.fieldAccess
          writePolicy := op.writePolicy
          intent := op.intent
          chunks := chunks
          worldStamp := world.stamp }

/-- The report of an operation that passed its checks, with the hazard found. -/
def hazardReport (opReport : OperationReport M) (planned : PlannedOperation M) :
    Option (PlannedOperation M) → OperationReport M
  | some conflict =>
    { opReport with
      status := .hazardConflict
      failure := .fieldHazardConflict
      conflict := some (conflict.handle, conflict.id,
        hazardMask conflict.fieldAccess planned.fieldAccess)
      chunkCount := planned.chunks.keys.length }
  | none => { opReport with chunkCount := planned.chunks.keys.length }

/-- The body of the loop of `plan_operations`. -/
def planOperation (world : OpsWorld) (opIndex : ℕ) (op : QueuedOperation M)
    (report : ExecutionReport M) : Option (ExecutionReport M) :=
  match admitOperation world opIndex op with
  | .error opReport => some (report.pushReport opReport)
  | .ok planned =>
    (findHazardIndexed report.chunkIndex report.wideOperations report.plan planned).map
      fun hazard =>
        let opReport := hazardReport (initialReport opIndex op) planned hazard
        match hazard with
        | some _ => report.pushReport opReport
        | none => (report.pushPlanned planned).pushReport opReport

/-- The loop of `plan_operations`. -/
def planLoop (world : OpsWorld) :
    ℕ → List (QueuedOperation M) → ExecutionReport M → Option (ExecutionReport M)
  | _, [], report => some report
  | opIndex, op :: ops, report =>
    (planOperation world opIndex op report).bind (planLoop world (opIndex + 1) ops)

/-- `plan_operations`; none when it does not return. -/
def planOperations (world : OpsWorld) (ops : List (QueuedOperation M))
    (report : ExecutionReport M) : Option (ExecutionReport M) :=
  planLoop world 0 ops (report.reset.reserve ops.length)

/-! ### The naive planner -/

/-- Two operations touch a chunk in common and their fields conflict. -/
def Hazard (earlier later : PlannedOperation M) : Prop :=
  hazardMask earlier.fieldAccess later.fieldAccess ≠ 0 ∧
    ∃ key ∈ earlier.chunks.keys, key ∈ later.chunks.keys

instance (earlier later : PlannedOperation M) : Decidable (Hazard earlier later) :=
  inferInstanceAs (Decidable (_ ∧ _))

/-- The reports and accepted operations with one operation more: it is rejected with the earliest
hazard, if it has one. -/
def naiveOperation (world : OpsWorld) (opIndex : ℕ) (op : QueuedOperation M)
    (s : List (OperationReport M) × List (PlannedOperation M)) :
    List (OperationReport M) × List (PlannedOperation M) :=
  match admitOperation world opIndex op with
  | .error opReport => (s.1 ++ [opReport], s.2)
  | .ok planned =>
    let hazard := s.2.find? fun earlier => Hazard earlier planned
    (s.1 ++ [hazardReport (initialReport opIndex op) planned hazard],
      if hazard.isSome then s.2 else s.2 ++ [planned])

/-- The operations from an index on. -/
def naiveLoop (world : OpsWorld) :
    ℕ → List (QueuedOperation M) → List (OperationReport M) × List (PlannedOperation M) →
      List (OperationReport M) × List (PlannedOperation M)
  | _, [], s => s
  | opIndex, op :: ops, s => naiveLoop world (opIndex + 1) ops (naiveOperation world opIndex op s)

/-- The naive planner. -/
def naivePlan (world : OpsWorld) (ops : List (QueuedOperation M)) :
    List (OperationReport M) × List (PlannedOperation M) := naiveLoop world 0 ops ([], [])

/-! ### The hazard search -/

section Search

variable {plan : List (PlannedOperation M)} {later p : PlannedOperation M} {o e : ℕ}
  {index : ChunkOperationIndex}

/-- Ascending lists overlap when they share a key. -/
theorem chunksOverlap_iff {lhs rhs : List ℕ} (hl : lhs.Pairwise (· < ·))
    (hr : rhs.Pairwise (· < ·)) : chunksOverlap lhs rhs = true ↔ ∃ key ∈ lhs, key ∈ rhs := by
  fun_induction chunksOverlap lhs rhs with
  | case1 ls l rs => exact iff_of_true rfl ⟨l, List.mem_cons_self, List.mem_cons_self⟩
  | case2 l ls r rs hne hlt ih =>
    rw [ih (List.pairwise_cons.1 hl).2 hr]
    constructor
    · rintro ⟨key, h1, h2⟩
      exact ⟨key, List.mem_cons_of_mem _ h1, h2⟩
    · rintro ⟨key, h1, h2⟩
      rcases List.mem_cons.1 h1 with rfl | h1
      · rcases List.mem_cons.1 h2 with rfl | h2
        · exact absurd rfl hne
        · have := (List.pairwise_cons.1 hr).1 key h2
          omega
      · exact ⟨key, h1, h2⟩
  | case3 l ls r rs hne hlt ih =>
    rw [ih hl (List.pairwise_cons.1 hr).2]
    constructor
    · rintro ⟨key, h1, h2⟩
      exact ⟨key, h1, List.mem_cons_of_mem _ h2⟩
    · rintro ⟨key, h1, h2⟩
      rcases List.mem_cons.1 h2 with rfl | h2
      · rcases List.mem_cons.1 h1 with rfl | h1
        · exact absurd rfl hne
        · have := (List.pairwise_cons.1 hl).1 key h1
          omega
      · exact ⟨key, h1, h2⟩
  | case4 lhs rhs h =>
    refine iff_of_false (by simp) ?_
    rintro ⟨key, h1, h2⟩
    cases lhs with
    | nil => cases h1
    | cons l ls =>
      cases rhs with
      | nil => cases h2
      | cons r rs => exact h l ls r rs rfl rfl

theorem hazard_iff : Hazard p later ↔
    hazardMask p.fieldAccess later.fieldAccess ≠ 0 ∧
      chunksOverlap p.chunks.keys later.chunks.keys = true := by
  rw [Hazard, chunksOverlap_iff p.chunks.ascending later.chunks.ascending]

theorem findHazard_eq : findHazard plan later = plan.find? fun p => Hazard p later :=
  List.find?_congr fun p _ => by rw [decide_eq_decide, hazard_iff]

variable (plan later) in
/-- The operation is a hazard for a later one. -/
def HazardAt (o : ℕ) : Prop := ∃ p, plan[o]? = some p ∧ Hazard p later

theorem HazardAt.lt (h : HazardAt plan later o) : o < plan.length := by
  obtain ⟨p, hp, -⟩ := h
  exact (List.getElem?_eq_some_iff.1 hp).1

variable (plan later) in
/-- **The earliest hazard** among the operations seen. -/
structure Earliest (seen : ℕ → Prop) (e : ℕ) : Prop where
  /-- It is a hazard, if there is one. -/
  found : e = npos ∨ HazardAt plan later e
  /-- No hazard seen is earlier. -/
  least : ∀ o, seen o → HazardAt plan later o → e ≤ o

variable {seen : ℕ → Prop}

/-- A visit of an operation on a common chunk. -/
theorem Earliest.visit (h : Earliest plan later seen e)
    (ho : ∃ p, plan[o]? = some p ∧ ∃ key ∈ p.chunks.keys, key ∈ later.chunks.keys) :
    Earliest plan later (fun o' => seen o' ∨ o' = o) (visitHazard plan later e o) := by
  obtain ⟨p, hp, hshare⟩ := ho
  rw [visitHazard, hp]
  simp only
  split_ifs with hge hmask
  · refine ⟨h.found, ?_⟩
    rintro o' (ho' | rfl) hbad
    · exact h.least o' ho' hbad
    · exact hge
  · refine ⟨h.found, ?_⟩
    rintro o' (ho' | rfl) hbad
    · exact h.least o' ho' hbad
    · obtain ⟨p', hp', hhaz, -⟩ := hbad
      rw [hp, Option.some.injEq] at hp'
      exact absurd (hp' ▸ hmask) hhaz
  · refine ⟨Or.inr ⟨p, hp, hmask, hshare⟩, ?_⟩
    rintro o' (ho' | rfl) hbad
    · have := h.least o' ho' hbad
      omega
    · exact le_rfl

/-- The visits of all operations on common chunks. -/
theorem Earliest.visits {visits : List ℕ} (h : Earliest plan later seen e)
    (hvisits : ∀ o ∈ visits,
      ∃ p, plan[o]? = some p ∧ ∃ key ∈ p.chunks.keys, key ∈ later.chunks.keys) :
    Earliest plan later (fun o => seen o ∨ o ∈ visits)
      (visits.foldl (visitHazard plan later) e) := by
  induction visits generalizing e seen with
  | nil => simpa using h
  | cons o visits ih =>
    have hnext := ih (h.visit (hvisits o List.mem_cons_self)) fun o' ho' =>
      hvisits o' (List.mem_cons_of_mem _ ho')
    refine ⟨hnext.found, fun o' ho' => hnext.least o' ?_⟩
    rw [List.mem_cons] at ho'
    tauto

/-- **The scan** of ascending operations on many chunks. -/
theorem Earliest.scan {wide : List ℕ} (h : Earliest plan later seen e)
    (hwide : wide.Pairwise (· < ·)) (hin : ∀ o ∈ wide, o < plan.length) :
    Earliest plan later (fun o => seen o ∨ o ∈ wide) (scanWide plan later e wide) := by
  induction wide generalizing seen with
  | nil => simpa [scanWide] using h
  | cons o wide ih =>
    obtain ⟨hlt, hwide'⟩ := List.pairwise_cons.1 hwide
    obtain ⟨p, hp⟩ : ∃ p, plan[o]? = some p :=
      ⟨_, List.getElem?_eq_getElem (hin o List.mem_cons_self)⟩
    -- an operation that is no hazard may count as seen
    have hskip (hno : ¬ Hazard p later) : Earliest plan later (fun o' => seen o' ∨ o' ∈ o :: wide)
        (scanWide plan later e wide) := by
      have hnext := ih h hwide' fun o' ho' => hin o' (List.mem_cons_of_mem _ ho')
      refine ⟨hnext.found, ?_⟩
      rintro o' (ho' | ho') hbad
      · exact hnext.least o' (Or.inl ho') hbad
      · rcases List.mem_cons.1 ho' with rfl | ho'
        · obtain ⟨p', hp', hhaz⟩ := hbad
          rw [hp, Option.some.injEq] at hp'
          exact absurd (hp' ▸ hhaz) hno
        · exact hnext.least o' (Or.inr ho') hbad
    rw [scanWide, hp]
    simp only
    split_ifs with hge hmask hover
    · refine ⟨h.found, ?_⟩
      rintro o' (ho' | ho') hbad
      · exact h.least o' ho' hbad
      · rcases List.mem_cons.1 ho' with rfl | ho'
        · exact hge
        · have := hlt o' ho'
          omega
    · exact hskip fun hhaz => hhaz.1 hmask
    · refine ⟨Or.inr ⟨p, hp, hazard_iff.2 ⟨hmask, hover⟩⟩, ?_⟩
      rintro o' (ho' | ho') hbad
      · have := h.least o' ho' hbad
        omega
      · rcases List.mem_cons.1 ho' with rfl | ho'
        · exact le_rfl
        · exact (hlt o' ho').le
    · exact hskip fun hhaz => hover (hazard_iff.1 hhaz).2

/-- The earliest of all hazards is the one that the linear scan finds. -/
theorem Earliest.find?_eq (h : Earliest plan later (fun _ => True) e) (hlen : plan.length ≤ npos) :
    (if e = npos then none else plan[e]?) = plan.find? fun p => Hazard p later := by
  split_ifs with he
  · refine (List.find?_eq_none.2 fun p hp hhaz => ?_).symm
    obtain ⟨o, ho, rfl⟩ := List.getElem_of_mem hp
    have := h.least o trivial ⟨_, List.getElem?_eq_getElem ho, of_decide_eq_true hhaz⟩
    omega
  · obtain ⟨p, hp, hhaz⟩ := h.found.resolve_left he
    obtain ⟨hlt, hget⟩ := List.getElem?_eq_some_iff.1 hp
    rw [hp]
    symm
    rw [List.find?_eq_some_iff_getElem]
    refine ⟨decide_eq_true hhaz, e, hlt, hget, fun j hj => ?_⟩
    have hno : ¬ Hazard plan[j] later := fun hbad => by
      have := h.least j trivial ⟨_, List.getElem?_eq_getElem (hj.trans hlt), hbad⟩
      omega
    simp [hno]

/-! ### The index of a plan -/

/-- Entries of the operations on few chunks. -/
def indexEntries (plan : List (PlannedOperation M)) : List (ℕ × ℕ) :=
  plan.zipIdx.flatMap fun p =>
    if operationIsIndexable p.1.chunks then p.1.chunks.keys.map fun key => (key, p.2) else []

/-- The operations on many chunks. -/
def wideIndices (plan : List (PlannedOperation M)) : List ℕ :=
  (plan.zipIdx.filter fun p => !operationIsIndexable p.1.chunks).map (·.2)

theorem mem_indexEntries {key : ℕ} : (key, o) ∈ indexEntries plan ↔
    ∃ p, plan[o]? = some p ∧ operationIsIndexable p.chunks = true ∧ key ∈ p.chunks.keys := by
  simp only [indexEntries, List.mem_flatMap, Prod.exists, List.mk_mem_zipIdx_iff_getElem?]
  constructor
  · rintro ⟨p, i, hp, hmem⟩
    split_ifs at hmem with h
    · obtain ⟨key', hkey, heq⟩ := List.mem_map.1 hmem
      rw [Prod.mk.injEq] at heq
      obtain ⟨rfl, rfl⟩ := heq
      exact ⟨p, hp, h, hkey⟩
    · cases hmem
  · rintro ⟨p, hp, h, hkey⟩
    exact ⟨p, o, hp, by rw [if_pos h]; exact List.mem_map_of_mem hkey⟩

theorem mem_wideIndices : o ∈ wideIndices plan ↔
    ∃ p, plan[o]? = some p ∧ operationIsIndexable p.chunks = false := by
  simp [wideIndices, List.mem_filter, List.mk_mem_zipIdx_iff_getElem?]

theorem wideIndices_pairwise (plan : List (PlannedOperation M)) :
    (wideIndices plan).Pairwise (· < ·) := by
  have h : (plan.zipIdx.map Prod.snd).Pairwise (· < ·) := by
    rw [List.zipIdx_map_snd]
    exact List.pairwise_lt_range'
  exact h.sublist ((List.filter_sublist).map _)

theorem indexEntries_concat : indexEntries (plan ++ [p]) = indexEntries plan ++
    if operationIsIndexable p.chunks then p.chunks.keys.map fun key => (key, plan.length)
    else [] := by
  simp [indexEntries, List.zipIdx_append]

theorem wideIndices_concat : wideIndices (plan ++ [p]) = wideIndices plan ++
    if operationIsIndexable p.chunks then [] else [plan.length] := by
  cases h : operationIsIndexable p.chunks <;> simp [wideIndices, List.zipIdx_append, h]

/-- **The indexed search** finds what the linear scan finds. -/
theorem findHazardIndexed_spec (hindex : index.Indexes (indexEntries plan))
    (hlen : plan.length ≤ npos) : findHazardIndexed index (wideIndices plan) plan later =
      some (plan.find? fun p => Hazard p later) := by
  rw [findHazardIndexed, findHazard_eq]
  split_ifs with hwide
  · rfl
  · obtain ⟨visits, hvisits, hmem⟩ := ChunkOperationIndex.forEachSharing_spec hindex later.chunks.keys
    rw [hvisits]
    refine congrArg some ?_
    have hstart : Earliest plan later (fun _ => False) npos := ⟨Or.inl rfl, fun _ h => h.elim⟩
    have hvisited := hstart.visits fun o (ho : o ∈ visits) => by
      obtain ⟨key, hkey, hentry⟩ := (hmem o).1 ho
      obtain ⟨p, hp, -, hkey'⟩ := mem_indexEntries.1 hentry
      exact ⟨p, hp, key, hkey', hkey⟩
    have hscanned := hvisited.scan (wideIndices_pairwise plan) fun o ho => by
      obtain ⟨p, hp, -⟩ := mem_wideIndices.1 ho
      exact (List.getElem?_eq_some_iff.1 hp).1
    refine Earliest.find?_eq ⟨hscanned.found, fun o _ hbad => hscanned.least o ?_ hbad⟩ hlen
    -- a hazard on few chunks is visited, one on many chunks is scanned
    obtain ⟨p, hp, -, key, hkey, hkey'⟩ := hbad
    cases hp' : operationIsIndexable p.chunks with
    | true => exact Or.inl (Or.inr ((hmem o).2
        ⟨key, hkey', mem_indexEntries.2 ⟨p, hp, hp', hkey⟩⟩))
    | false => exact Or.inr (mem_wideIndices.2 ⟨p, hp, hp'⟩)

end Search

/-! ### The two planners -/

section Planning

variable {world : OpsWorld} {opIndex : ℕ} {op : QueuedOperation M} {ops : List (QueuedOperation M)}
  {report report' : ExecutionReport M} {plan : List (PlannedOperation M)}

/-- **The chunks of a plan can be numbered**: neither its operations nor the entries of its chunk
index exceed the node numbers. -/
structure Fits (plan : List (PlannedOperation M)) : Prop where
  /-- Operations. -/
  operations : plan.length ≤ npos
  /-- Entries. -/
  entries : (indexEntries plan).length ≤ npos

theorem Fits.of_append {planned : List (PlannedOperation M)} (h : Fits (plan ++ planned)) :
    Fits plan := by
  obtain ⟨h1, h2⟩ := h
  rw [List.length_append] at h1
  rw [indexEntries, List.zipIdx_append, List.flatMap_append, List.length_append] at h2
  refine ⟨by omega, ?_⟩
  rw [indexEntries]
  omega

/-- **The index follows the plan.** -/
structure ExecutionReport.Tracks (report : ExecutionReport M) : Prop where
  /-- The chunk index holds the operations on few chunks. -/
  index : report.chunkIndex.Indexes (indexEntries report.plan)
  /-- The others are listed. -/
  wide : report.wideOperations = wideIndices report.plan

/-- Accepting an operation keeps the index. -/
theorem ExecutionReport.Tracks.pushPlanned {planned : PlannedOperation M} (h : report.Tracks)
    (hfits : Fits (report.plan ++ [planned])) : (report.pushPlanned planned).Tracks := by
  have hmod : report.plan.length % 2 ^ 32 = report.plan.length := Nat.mod_eq_of_lt (by
    have := hfits.of_append.operations
    unfold npos at this
    omega)
  have hcount : report.chunkIndex.nodeCount = (indexEntries report.plan).length := by
    rw [← h.index.entries_eq, List.length_map, List.length_range]
  have hentries := hfits.entries
  rw [indexEntries_concat] at hentries
  unfold ExecutionReport.pushPlanned
  cases hidx : operationIsIndexable planned.chunks with
  | true =>
    rw [hidx, if_pos rfl, List.length_append, List.length_map] at hentries
    refine ⟨?_, ?_⟩
    · simp only [if_true, hmod, indexEntries_concat, hidx]
      exact (h.index.insert (hcount ▸ hentries)).1
    · simp only [if_true, wideIndices_concat, hidx, h.wide, List.append_nil]
  | false =>
    refine ⟨?_, ?_⟩
    · simp only [Bool.false_eq_true, if_false, indexEntries_concat, hidx, List.append_nil]
      exact h.index
    · simp only [Bool.false_eq_true, if_false, hmod, wideIndices_concat, hidx, h.wide]

/-- The naive planner only adds to what it accepted. -/
theorem naiveOperation_plan (world : OpsWorld) (opIndex : ℕ) (op : QueuedOperation M)
    (s : List (OperationReport M) × List (PlannedOperation M)) :
    ∃ planned, (naiveOperation world opIndex op s).2 = s.2 ++ planned := by
  unfold naiveOperation
  split
  · exact ⟨[], (List.append_nil _).symm⟩
  · rename_i planned _
    simp only
    split_ifs
    · exact ⟨[], (List.append_nil _).symm⟩
    · exact ⟨[planned], rfl⟩

theorem naiveLoop_plan (world : OpsWorld) (opIndex : ℕ) (ops : List (QueuedOperation M))
    (s : List (OperationReport M) × List (PlannedOperation M)) :
    ∃ planned, (naiveLoop world opIndex ops s).2 = s.2 ++ planned := by
  induction ops generalizing opIndex s with
  | nil => exact ⟨[], (List.append_nil _).symm⟩
  | cons op ops ih =>
    obtain ⟨planned, h⟩ := naiveOperation_plan world opIndex op s
    obtain ⟨planned', h'⟩ := ih (opIndex + 1) (naiveOperation world opIndex op s)
    exact ⟨planned ++ planned', by rw [naiveLoop, h', h, List.append_assoc]⟩

/-- **One operation**: the planner does what the naive planner does. -/
theorem planOperation_spec (h : report.Tracks)
    (hfits : Fits (naiveOperation world opIndex op (report.operations, report.plan)).2) :
    ∃ report', planOperation world opIndex op report = some report' ∧ report'.Tracks ∧
      (report'.operations, report'.plan) =
        naiveOperation world opIndex op (report.operations, report.plan) := by
  have hlen : report.plan.length ≤ npos := by
    obtain ⟨planned, hplan⟩ :=
      naiveOperation_plan world opIndex op (report.operations, report.plan)
    rw [hplan] at hfits
    exact hfits.of_append.operations
  unfold planOperation naiveOperation at *
  cases hadmitted : admitOperation world opIndex op with
  | error opReport => exact ⟨_, rfl, ⟨h.index, h.wide⟩, rfl⟩
  | ok planned =>
    rw [hadmitted] at hfits
    simp only at hfits ⊢
    rw [h.wide, findHazardIndexed_spec h.index hlen]
    cases hhaz : report.plan.find? fun p => Hazard p planned with
    | some conflict => exact ⟨_, rfl, ⟨h.index, h.wide⟩, rfl⟩
    | none =>
      rw [hhaz] at hfits
      obtain ⟨h1, h2⟩ := h.pushPlanned hfits
      refine ⟨_, rfl, ⟨h1, h2⟩, ?_⟩
      unfold ExecutionReport.pushPlanned
      simp only [ExecutionReport.pushReport]
      split_ifs <;> simp_all

/-- **Many operations.** -/
theorem planLoop_spec (h : report.Tracks)
    (hfits : Fits (naiveLoop world opIndex ops (report.operations, report.plan)).2) :
    ∃ report', planLoop world opIndex ops report = some report' ∧ report'.Tracks ∧
      (report'.operations, report'.plan) =
        naiveLoop world opIndex ops (report.operations, report.plan) := by
  induction ops generalizing opIndex report with
  | nil => exact ⟨report, rfl, h, rfl⟩
  | cons op ops ih =>
    rw [naiveLoop] at hfits
    obtain ⟨planned, hplan⟩ := naiveLoop_plan world (opIndex + 1) ops
      (naiveOperation world opIndex op (report.operations, report.plan))
    obtain ⟨report₁, h1, h2, h3⟩ := planOperation_spec h (hplan ▸ hfits).of_append
    rw [← h3] at hfits
    obtain ⟨report', h4, h5, h6⟩ := ih h2 hfits
    refine ⟨report', ?_, h5, ?_⟩
    · rw [planLoop, h1, Option.bind_some, h4]
    · rw [naiveLoop, ← h3, h6]

/-! ### Reused reports -/

/-- **The reports that a caller can hold**: fresh ones, and those that were planned into. -/
inductive ExecutionReport.Held : ExecutionReport M → Prop
  | fresh : Held {}
  | planned {report report' : ExecutionReport M} (world : OpsWorld)
      (ops : List (QueuedOperation M)) (held : Held report)
      (run : planOperations world ops report = some report') : Held report'

theorem planOperation_stamped (hs : report.chunkIndex.Stamped)
    (h : planOperation world opIndex op report = some report') : report'.chunkIndex.Stamped := by
  unfold planOperation at h
  split at h
  · rw [Option.some.injEq] at h
    exact h ▸ hs
  · obtain ⟨hazard, -, rfl⟩ := Option.map_eq_some_iff.1 h
    cases hazard with
    | some conflict => exact hs
    | none =>
      simp only [ExecutionReport.pushPlanned, ExecutionReport.pushReport]
      split_ifs
      · exact hs.insert
      · exact hs

theorem planLoop_stamped (hs : report.chunkIndex.Stamped)
    (h : planLoop world opIndex ops report = some report') : report'.chunkIndex.Stamped := by
  induction ops generalizing opIndex report with
  | nil =>
    rw [planLoop, Option.some.injEq] at h
    exact h ▸ hs
  | cons op ops ih =>
    obtain ⟨report₁, h1, h2⟩ := Option.bind_eq_some_iff.1 h
    exact ih (planOperation_stamped hs h1) h2

/-- Whatever was planned into a report, its index can be cleared. -/
theorem ExecutionReport.Held.stamped (h : report.Held) : report.chunkIndex.Stamped := by
  induction h with
  | fresh => exact ⟨fun _ => Nat.zero_le _, Nat.one_lt_two_pow (by decide)⟩
  | planned world ops _ run ih => exact planLoop_stamped (ih.clear.rehash _) run

/-- **A report is as good as new** once it is reset. -/
theorem ExecutionReport.Held.tracks (h : report.Held) (size : ℕ) :
    (report.reset.reserve size).Tracks := by
  have hclear := ChunkOperationIndex.indexes_clear h.stamped.1 h.stamped.2
  have hcount : report.chunkIndex.clear.nodeCount = 0 := by
    have := congrArg List.length hclear.entries_eq
    simpa using this
  exact ⟨(hclear.rehash (by omega) _).1, rfl⟩

/-- Planning into a report that fits agrees with the naive planner. -/
theorem planOperations_eq (hreport : report.Held) (hfits : Fits (naivePlan world ops).2) :
    ∃ report', planOperations world ops report = some report' ∧ report'.Tracks ∧
      (report'.operations, report'.plan) = naivePlan world ops :=
  planLoop_spec (hreport.tracks ops.length) hfits

/-! ### What an accepted operation names -/

/-- **A plan for a world**: its operations were checked for the world and name its chunks. -/
def PlanFor (stamp : PlannedWorldStamp) (plan : List (PlannedOperation M)) : Prop :=
  ∀ p ∈ plan, p.worldStamp = stamp ∧ ∀ key ∈ p.chunks.keys, key < stamp.chunkLimit

/-! ### What the naive planner reports -/

theorem naiveLoop_append (ops' : List (QueuedOperation M))
    (s : List (OperationReport M) × List (PlannedOperation M)) :
    naiveLoop world opIndex (ops ++ ops') s =
      naiveLoop world (opIndex + ops.length) ops' (naiveLoop world opIndex ops s) := by
  induction ops generalizing opIndex s with
  | nil => rfl
  | cons op ops ih =>
    rw [List.cons_append, naiveLoop, ih, naiveLoop, List.length_cons]
    congr 1
    omega

theorem naiveOperation_reports (world : OpsWorld) (opIndex : ℕ) (op : QueuedOperation M)
    (s : List (OperationReport M) × List (PlannedOperation M)) :
    ∃ r, (naiveOperation world opIndex op s).1 = s.1 ++ [r] := by
  unfold naiveOperation
  split
  · exact ⟨_, rfl⟩
  · exact ⟨_, rfl⟩

/-- Every operation gets one report. -/
theorem naiveLoop_reports (world : OpsWorld) (opIndex : ℕ) (ops : List (QueuedOperation M))
    (s : List (OperationReport M) × List (PlannedOperation M)) :
    ∃ rs, (naiveLoop world opIndex ops s).1 = s.1 ++ rs ∧ rs.length = ops.length := by
  induction ops generalizing opIndex s with
  | nil => exact ⟨[], (List.append_nil _).symm, rfl⟩
  | cons op ops ih =>
    obtain ⟨r, hr⟩ := naiveOperation_reports world opIndex op s
    obtain ⟨rs, hrs, hlen⟩ := ih (opIndex + 1) (naiveOperation world opIndex op s)
    exact ⟨r :: rs, by rw [naiveLoop, hrs, hr, List.append_assoc]; rfl, by simp [hlen]⟩

/-- The report of an operation that passes its checks tells the earliest hazard among the
operations accepted before it. -/
theorem naivePlan_getElem? {i : ℕ} {planned : PlannedOperation M} (hop : ops[i]? = some op)
    (hadmitted : admitOperation world i op = .ok planned) :
    (naivePlan world ops).1[i]? = some (hazardReport (initialReport i op) planned
      ((naivePlan world (ops.take i)).2.find? fun earlier => Hazard earlier planned)) := by
  obtain ⟨hlt, hget⟩ := List.getElem?_eq_some_iff.1 hop
  have hsplit : ops = ops.take i ++ op :: ops.drop (i + 1) := by
    rw [← hget, List.getElem_cons_drop, List.take_append_drop]
  have hlen : (ops.take i).length = i := by rw [List.length_take, min_eq_left hlt.le]
  obtain ⟨rs, hrs, hrslen⟩ := naiveLoop_reports world 0 (ops.take i) ([], [])
  have hrun : naivePlan world ops = naiveLoop world (i + 1) (ops.drop (i + 1))
      (naiveOperation world i op (naivePlan world (ops.take i))) := by
    conv_lhs => rw [naivePlan, hsplit, naiveLoop_append, hlen, Nat.zero_add, naiveLoop]
    rfl
  obtain ⟨rs', hrs', -⟩ := naiveLoop_reports world (i + 1) (ops.drop (i + 1))
    (naiveOperation world i op (naivePlan world (ops.take i)))
  have hcur : (naivePlan world (ops.take i)).1 = rs := hrs.trans (List.nil_append _)
  have hrs'' : rs.length = i := hrslen.trans hlen
  rw [hrun, hrs', naiveOperation, hadmitted]
  simp only [hcur]
  rw [List.append_assoc, List.getElem?_append_right hrs''.le, hrs'', Nat.sub_self]
  rfl

theorem hazardReport_status {opReport : OperationReport M} {planned : PlannedOperation M}
    {hazard : Option (PlannedOperation M)} (h : opReport.status ≠ .hazardConflict) :
    (hazardReport opReport planned hazard).status = .hazardConflict ↔ hazard.isSome = true := by
  cases hazard with
  | none => simpa [hazardReport] using h
  | some conflict => simp [hazardReport]

end Planning

/-! ### Agreement -/

section Overfull

/-- A world of 64 chunks. -/
def sharedWorld : OpsWorld := { stamp := ⟨0, 64⟩ }

/-- An operation that writes a field. -/
def writer (i : ℕ) (domain : DomainDesc) : QueuedOperation Unit :=
  { handle := i, id := i, domain := domain, fieldAccess := { writeMask := 1 }
    writePolicy := .uniquePerChunk, intent := () }

/-- An operation on all chunks that accesses no field. -/
def idle (i : ℕ) : QueuedOperation Unit :=
  { handle := i, id := i, domain := {}, fieldAccess := {}, writePolicy := .readOnly, intent := () }

/-- A writer of all chunks, operations without fields, and a writer of the last chunk. -/
def overfullBatch : List (QueuedOperation Unit) :=
  writer 0 {} :: (List.range' 1 (2 ^ 26 - 1)).map idle ++ [writer (2 ^ 26) (.ofChunks [63])]

/-- An accepted operation of the batch. -/
def acceptedOperation (op : QueuedOperation Unit) (chunks : ChunkList) : PlannedOperation Unit where
  handle := op.handle
  id := op.id
  access := operationAccess op
  fieldAccess := op.fieldAccess
  writePolicy := op.writePolicy
  intent := op.intent
  chunks := chunks
  worldStamp := sharedWorld.stamp

/-- All chunks of the world. -/
def sharedChunks : ChunkList := { keys := List.range 64, ascending := List.pairwise_lt_range }

/-- Operations without fields on all chunks, as accepted. -/
def acceptedIdles (k n : ℕ) : List (PlannedOperation Unit) :=
  (List.range' k n).map fun i => acceptedOperation (idle i) sharedChunks

theorem admit_writer (domain : DomainDesc) {chunks : ChunkList} (i : ℕ)
    (h : expandDomain sharedWorld domain = .ok chunks) :
    admitOperation sharedWorld i (writer i domain) =
      .ok (acceptedOperation (writer i domain) chunks) := by
  have h' : expandDomain sharedWorld (writer i domain).domain = .ok chunks := h
  rw [admitOperation, if_neg (by simp [writer]), if_neg (by simp [writer, isValidWritePolicy]),
    if_neg (by simp [writer, isValidFieldAccess]), h']
  rfl

theorem admit_idle (i : ℕ) :
    admitOperation sharedWorld i (idle i) = .ok (acceptedOperation (idle i) sharedChunks) := by
  have h : expandDomain sharedWorld (idle i).domain = .ok sharedChunks := rfl
  rw [admitOperation, if_neg (by simp [idle]), if_neg (by simp [idle, isValidWritePolicy]),
    if_neg (by simp [idle, isValidFieldAccess]), h]
  rfl

theorem hazardMask_idle (access : FieldAccessDesc) : hazardMask access {} = 0 := by
  simp [hazardMask]

/-- An operation without fields is no hazard. -/
theorem find?_idle (plan : List (PlannedOperation Unit)) (i : ℕ) :
    (plan.find? fun p => Hazard p (acceptedOperation (idle i) sharedChunks)) = none := by
  refine List.find?_eq_none.2 fun p _ h => ?_
  exact (of_decide_eq_true h).1 (hazardMask_idle _)

/-- Operations without fields are all accepted. -/
theorem naiveLoop_idles (n k : ℕ)
    (s : List (OperationReport Unit) × List (PlannedOperation Unit)) :
    (naiveLoop sharedWorld k ((List.range' k n).map idle) s).2 = s.2 ++ acceptedIdles k n := by
  induction n generalizing k s with
  | zero => exact (List.append_nil _).symm
  | succ n ih =>
    have hone : (naiveOperation sharedWorld k (idle k) s).2 =
        s.2 ++ [acceptedOperation (idle k) sharedChunks] := by
      rw [naiveOperation, admit_idle]
      simp only [find?_idle]
      rfl
    rw [List.range'_succ, List.map_cons, naiveLoop, ih, hone, List.append_assoc]
    simp [acceptedIdles, List.range'_succ]

/-- The accepted operations when only the last two are left. -/
def sharedPlan (n : ℕ) : List (PlannedOperation Unit) :=
  acceptedOperation (writer 0 {}) sharedChunks :: acceptedIdles 1 n

theorem sharedPlan_length (n : ℕ) : (sharedPlan n).length = n + 1 := by
  simp [sharedPlan, acceptedIdles]

theorem sharedPlan_chunks {n : ℕ} {p : PlannedOperation Unit} (hp : p ∈ sharedPlan n) :
    p.chunks = sharedChunks := by
  rcases List.mem_cons.1 hp with rfl | hp
  · rfl
  · obtain ⟨i, -, rfl⟩ := List.mem_map.1 hp
    rfl

theorem sharedPlan_succ (n : ℕ) :
    sharedPlan (n + 1) = sharedPlan n ++ [acceptedOperation (idle (n + 1)) sharedChunks] := by
  simp [sharedPlan, acceptedIdles, List.range'_concat, add_comm]

theorem indexable_sharedChunks : operationIsIndexable sharedChunks = true := rfl

theorem indexEntries_sharedPlan (n : ℕ) : (indexEntries (sharedPlan n)).length = 64 * (n + 1) := by
  induction n with
  | zero => rfl
  | succ n ih =>
    rw [sharedPlan_succ, indexEntries_concat, List.length_append, ih]
    change 64 * (n + 1) + ((sharedChunks.keys.map fun key => (key, _)).length) = _
    rw [List.length_map]
    change 64 * (n + 1) + 64 = _
    omega

theorem wideIndices_sharedPlan (n : ℕ) : wideIndices (sharedPlan n) = [] := by
  refine List.eq_nil_iff_forall_not_mem.2 fun o ho => ?_
  obtain ⟨p, hp, hwide⟩ := mem_wideIndices.1 ho
  rw [sharedPlan_chunks (List.mem_of_getElem? hp), indexable_sharedChunks] at hwide
  cases hwide

theorem fits_sharedPlan : Fits (sharedPlan (2 ^ 26 - 2)) := by
  refine ⟨?_, ?_⟩
  · rw [sharedPlan_length]
    unfold npos
    omega
  · rw [indexEntries_sharedPlan]
    unfold npos
    omega

/-- The batch without its last operations. -/
def sharedBatch (n : ℕ) : List (QueuedOperation Unit) :=
  writer 0 {} :: (List.range' 1 n).map idle

theorem sharedBatch_length (n : ℕ) : (sharedBatch n).length = n + 1 := by
  simp [sharedBatch]

theorem sharedBatch_succ (n : ℕ) : sharedBatch (n + 1) = sharedBatch n ++ [idle (n + 1)] := by
  simp [sharedBatch, List.range'_concat, add_comm]

theorem naivePlan_sharedBatch (n : ℕ) : (naivePlan sharedWorld (sharedBatch n)).2 = sharedPlan n := by
  have hone : (naiveOperation sharedWorld 0 (writer 0 {}) ([], [])).2 =
      [acceptedOperation (writer 0 {}) sharedChunks] := by
    rw [naiveOperation, @admit_writer {} sharedChunks 0 rfl]
    rfl
  rw [naivePlan, sharedBatch, naiveLoop, naiveLoop_idles, hone]
  rfl

theorem planLoop_append {M : Type} (world : OpsWorld) (ops ops' : List (QueuedOperation M))
    (opIndex : ℕ) (report : ExecutionReport M) :
    planLoop world opIndex (ops ++ ops') report =
      (planLoop world opIndex ops report).bind (planLoop world (opIndex + ops.length) ops') := by
  induction ops generalizing opIndex report with
  | nil => rfl
  | cons op ops ih =>
    rw [List.cons_append, planLoop, planLoop, Option.bind_assoc]
    congr 1
    funext report'
    rw [ih, List.length_cons]
    congr 2
    omega

/-- The last chunk as a domain. -/
theorem expandDomain_last : expandDomain sharedWorld (.ofChunks [63]) = .ok (.ofKeys [63]) := by
  have hkeys : (ChunkList.ofKeys [63]).keys = [63] := by simp [ChunkList.ofKeys]
  rw [expandDomain, DomainDesc.ofChunks]
  simp only [hkeys]
  rfl

/-- The naive planner rejects the last operation. -/
theorem naivePlan_overfull {n : ℕ} : ∃ rs r, (naivePlan sharedWorld
    (sharedBatch n ++ [writer (n + 1) (.ofChunks [63])])).1 = rs ++ [r] ∧
      r.status = .hazardConflict := by
  have hrun : naivePlan sharedWorld (sharedBatch n ++ [writer (n + 1) (.ofChunks [63])]) =
      naiveOperation sharedWorld (n + 1) (writer (n + 1) (.ofChunks [63]))
        (naivePlan sharedWorld (sharedBatch n)) := by
    rw [naivePlan, naiveLoop_append, sharedBatch_length, Nat.zero_add]
    rfl
  rw [hrun, naiveOperation, admit_writer _ _ expandDomain_last]
  refine ⟨_, _, rfl, ?_⟩
  have hkeys : (ChunkList.ofKeys [63]).keys = [63] := by simp [ChunkList.ofKeys]
  rw [hazardReport_status (by simp [initialReport]), naivePlan_sharedBatch, List.find?_isSome]
  have hmask : hazardMask { writeMask := 1 } { writeMask := 1 } ≠ 0 := by decide
  refine ⟨_, List.mem_cons_self, decide_eq_true ⟨hmask, 63, ?_, ?_⟩⟩
  · exact List.mem_range.2 (by decide)
  · change 63 ∈ (ChunkList.ofKeys [63]).keys
    rw [hkeys]
    exact List.mem_cons_self

/-- The planner accepts the last operation, once the last chunk has the number that ends
chains. -/
theorem planOperation_overfull {n : ℕ} {report : ExecutionReport Unit} (h : report.Tracks)
    (hplan : report.plan = sharedPlan n) (hfits : Fits (sharedPlan n))
    (hn : 64 * (n + 1) + 63 = npos) :
    ∃ report', planLoop sharedWorld (n + 1) [idle (n + 1), writer (n + 2) (.ofChunks [63])] report =
      some report' ∧ ∃ rs r, report'.operations = rs ++ [r] ∧ r.status = .planned := by
  have hcount : report.chunkIndex.nodeCount + 63 = npos := by
    have := congrArg List.length h.index.entries_eq
    rw [List.length_map, List.length_range, hplan, indexEntries_sharedPlan] at this
    omega
  have hidle : planOperation sharedWorld (n + 1) (idle (n + 1)) report =
      some ((report.pushPlanned (acceptedOperation (idle (n + 1)) sharedChunks)).pushReport
        (hazardReport (initialReport (n + 1) (idle (n + 1)))
          (acceptedOperation (idle (n + 1)) sharedChunks) none)) := by
    rw [planOperation, admit_idle]
    simp only
    rw [h.wide, findHazardIndexed_spec h.index (hplan ▸ hfits.operations), find?_idle]
    rfl
  set report₂ := (report.pushPlanned (acceptedOperation (idle (n + 1)) sharedChunks)).pushReport
    (hazardReport (initialReport (n + 1) (idle (n + 1)))
      (acceptedOperation (idle (n + 1)) sharedChunks) none) with h₂
  have hnarrow : operationIsIndexable (acceptedOperation (idle (n + 1)) sharedChunks).chunks =
      true := indexable_sharedChunks
  have hindex : report₂.chunkIndex =
      report.chunkIndex.insert (List.range 63 ++ [63]) (report.plan.length % 2 ^ 32) := by
    rw [← List.range_succ]
    simp only [h₂, ExecutionReport.pushReport, ExecutionReport.pushPlanned, if_pos hnarrow]
    rfl
  have hwide : report₂.wideOperations = [] := by
    simp only [h₂, ExecutionReport.pushReport, ExecutionReport.pushPlanned, if_pos hnarrow, h.wide,
      hplan, wideIndices_sharedPlan]
  have hsharing : report₂.chunkIndex.sharing 63 = some [] := by
    rw [hindex]
    exact ChunkOperationIndex.sharing_insert_full h.index (by simpa using hcount)
  have hkeys : (ChunkList.ofKeys [63]).keys = [63] := by simp [ChunkList.ofKeys]
  have hvisits : report₂.chunkIndex.forEachSharing [63] = some [] := by
    simp [ChunkOperationIndex.forEachSharing, hsharing]
  have hsearch : findHazardIndexed report₂.chunkIndex report₂.wideOperations report₂.plan
      (acceptedOperation (writer (n + 2) (.ofChunks [63])) (.ofKeys [63])) = some none := by
    have hchunks : (acceptedOperation (writer (n + 2) (.ofChunks [63]))
        (.ofKeys [63])).chunks.keys = [63] := hkeys
    have hnarrow : operationIsIndexable (acceptedOperation (writer (n + 2) (.ofChunks [63]))
        (.ofKeys [63])).chunks = true := by
      rw [operationIsIndexable, hchunks]
      rfl
    rw [findHazardIndexed, hnarrow, hchunks, hvisits, hwide]
    simp [scanWide]
  have hlast : planOperation sharedWorld (n + 2) (writer (n + 2) (.ofChunks [63])) report₂ =
      some ((report₂.pushPlanned (acceptedOperation (writer (n + 2) (.ofChunks [63]))
        (.ofKeys [63]))).pushReport (hazardReport (initialReport (n + 2)
          (writer (n + 2) (.ofChunks [63]))) (acceptedOperation (writer (n + 2) (.ofChunks [63]))
            (.ofKeys [63])) none)) := by
    rw [planOperation, admit_writer _ _ expandDomain_last]
    simp only
    rw [hsearch]
    rfl
  have hrun := congrArg (fun r => r.bind (planLoop sharedWorld (n + 3) [])) hlast
  have hloop : planLoop sharedWorld (n + 1) [idle (n + 1), writer (n + 2) (.ofChunks [63])]
      report = (planOperation sharedWorld (n + 2) (writer (n + 2) (.ofChunks [63]))
        report₂).bind (planLoop sharedWorld (n + 3) []) := by
    rw [planLoop, hidle, Option.bind_some, planLoop]
  exact ⟨_, hloop.trans hrun, _, _, rfl, rfl⟩

end Overfull

end Tess
