import Tess.Ops.PhaseExecution

/-!
# The result channel

A channel keeps one slot for each operation of a batch.  Planning fills the slots of rejected
operations, execution those of the others, and a drain hands every filled slot to a visitor once.
The visitor may throw, drain again or clear the channel.

* `ResultChannel` : the slots and what producers do to them;
* `VisitorBody` : what a visitor does in one call;
* `ChannelRun` : a channel with the record of what was settled and visited;
* `ChannelRun.drainResults` : the drain;
* `ChannelOp`, `ChannelRun.run` : calls of the owner of the batch.
-/

namespace Tess

/-- `OpCompletion`, without the source location. -/
structure OpCompletion where
  /-- Outcome of planning. -/
  status : OperationStatus := .planned
  /-- Why planning rejected the operation. -/
  failure : OperationFailure := .none
  /-- Outcome of the execution. -/
  execution : PlannedExecutionStatus := .executed
  /-- Number of chunks. -/
  chunkCount : ℕ := 0
  /-- The record was made by a completion. -/
  completed : Bool := false
  deriving DecidableEq

/-- `OpCompletion::ok`. -/
def OpCompletion.ok (c : OpCompletion) : Bool :=
  c.completed && c.status = .planned && c.failure = .none && c.execution = .executed

/-- `OpResultState`. -/
inductive OpResultState
  | unbound
  | pending
  | ready
  | failed
  deriving DecidableEq, Repr

/-- `ResultChannel::Slot`. -/
structure ResultSlot (T : Type) where
  /-- The payload. -/
  value : T
  /-- The completion. -/
  completion : OpCompletion := {}
  /-- The state. -/
  state : OpResultState := .unbound
  /-- A drain has delivered the slot. -/
  drained : Bool := false

/-- A drain visits the slot. -/
def ResultSlot.Settled {T : Type} (slot : ResultSlot T) : Prop :=
  slot.state = .ready ∨ slot.state = .failed

instance {T : Type} (slot : ResultSlot T) : Decidable slot.Settled :=
  inferInstanceAs (Decidable (_ ∨ _))

/-- `ResultChannel<T>`. -/
structure ResultChannel (T : Type) where
  /-- Slots by handle. -/
  slots : List (ResultSlot T) := []
  /-- Number of clears, in 64 bits. -/
  generation : ℕ := 0

namespace ResultChannel

variable {T : Type} (channel : ResultChannel T)

/-- `clear`. -/
def clear : ResultChannel T :=
  { slots := [], generation := (channel.generation + 1) % 2 ^ 64 }

/-- `state`. -/
def state (handle : ℕ) : OpResultState :=
  match channel.slots[handle]? with
  | none => .unbound
  | some slot => slot.state

/-- `completion`. -/
def completion (handle : ℕ) : OpCompletion :=
  match channel.slots[handle]? with
  | none => {}
  | some slot => slot.completion

/-- Change one slot. -/
def modify (handle : ℕ) (f : ResultSlot T → ResultSlot T) : ResultChannel T :=
  { channel with slots := channel.slots.modify handle f }

variable [Inhabited T]

/-- `ensure_slot`. -/
def ensureSlot (handle : ℕ) : ResultChannel T :=
  { channel with
    slots := channel.slots ++
      List.replicate (handle + 1 - channel.slots.length) { value := default } }

/-- `prepare_operation`. -/
def prepareOperation (handle : ℕ) : ResultChannel T :=
  (channel.ensureSlot handle).modify handle fun _ => { value := default, state := .pending }

/-- What an execution writes through `value_for`. -/
def writeValue (handle : ℕ) (value : T) : ResultChannel T :=
  channel.modify handle fun slot => { slot with value := value }

/-- The completion of an execution. -/
def executionCompletion (result : PlannedExecutionResult) : OpCompletion :=
  { execution := result.status, chunkCount := result.chunkCount, completed := true }

/-- `complete`. -/
def complete (handle : ℕ) (result : PlannedExecutionResult) : ResultChannel T :=
  channel.modify handle fun slot => { slot with
    completion := executionCompletion result
    state := if result.status = .executed then .ready else .failed }

/-- The completion of a rejection. -/
def plannedCompletion {M : Type} (report : OperationReport M) : OpCompletion :=
  { status := report.status
    failure := report.failure
    chunkCount := report.chunkCount
    completed := true }

/-- `fail_planned`. -/
def failPlanned {M : Type} (report : OperationReport M) : ResultChannel T :=
  (channel.ensureSlot report.handle).modify report.handle fun _ =>
    { value := default, completion := plannedCompletion report, state := .failed }

end ResultChannel

/-! ### Visitors -/

/-- What a visitor does in one call: clears and drains of the channel, each drain with a visitor
of its own and with what it returned, none for an exception. -/
inductive VisitorBody (T : Type)
  | returns
  | throws
  | clear (rest : VisitorBody T)
  | drain (visitor : ℕ → OpCompletion → Option T → VisitorBody T)
      (rest : Option ℕ → VisitorBody T)

/-- What a visitor does, by handle, completion and value. -/
abbrev Visitor (T : Type) := ℕ → OpCompletion → Option T → VisitorBody T

/-- One call of a visitor, that the channel does not keep. -/
structure ChannelVisit (T : Type) where
  /-- Number of the drain. -/
  drain : ℕ
  /-- Number of clears before the call. -/
  epoch : ℕ
  /-- The operation. -/
  handle : ℕ
  /-- Its completion. -/
  completion : OpCompletion
  /-- Its value; none for a null pointer. -/
  value : Option T
  /-- The visitor did not throw. -/
  returned : Bool

/-- An operation that planning rejected or that an execution completed. -/
structure SettledOperation (T : Type) where
  /-- Number of clears before. -/
  epoch : ℕ
  /-- The operation. -/
  handle : ℕ
  /-- Its completion. -/
  completion : OpCompletion
  /-- Its value, if it executed. -/
  value : Option T
  deriving DecidableEq

/-- A channel with the record of its run. -/
structure ChannelRun (T : Type) where
  /-- The channel. -/
  channel : ResultChannel T := {}
  /-- Number of clears. -/
  clears : ℕ := 0
  /-- Number of drains. -/
  drains : ℕ := 0
  /-- Calls of visitors, in the order in which they end. -/
  visits : List (ChannelVisit T) := []
  /-- Settled operations, in order. -/
  settled : List (SettledOperation T) := []

namespace ChannelRun

variable {T : Type} (r : ChannelRun T)

/-- A clear. -/
def clear : ChannelRun T :=
  { r with channel := r.channel.clear, clears := r.clears + 1 }

/-- `drained` of a slot. -/
def setDrained (handle : ℕ) (drained : Bool) : ChannelRun T :=
  { r with channel := r.channel.modify handle fun slot => { slot with drained := drained } }

/-! ### Draining -/

/-- The loop of `drain_results` from a handle on; none for an exception.  No visitor adds slots, so
it ends with the slots that were there. -/
def drainSlots (visit : ℕ → OpCompletion → Option T → ChannelRun T → ChannelRun T × Bool)
    (drain generation : ℕ) : ℕ → ℕ → ℕ → ChannelRun T → ChannelRun T × Option ℕ
  | 0, visited, _, r => (r, some visited)
  | fuel + 1, visited, index, r =>
    if r.channel.generation ≠ generation then (r, some visited)
    else
      match r.channel.slots[index]? with
      | none => (r, some visited)
      | some slot =>
        if slot.drained ∨ ¬ slot.Settled then
          drainSlots visit drain generation fuel visited (index + 1) r
        else
          let value := if slot.state = .ready then some slot.value else none
          let result := visit index slot.completion value (r.setDrained index true)
          let threw := result.2
          let after : ChannelRun T := { result.1 with
            visits := result.1.visits ++
              [⟨drain, r.clears, index, slot.completion, value, !threw⟩] }
          if threw then
            -- a slot of the same generation is restored
            if after.channel.generation = generation ∧ index < after.channel.slots.length then
              (after.setDrained index false, none)
            else (after, none)
          else drainSlots visit drain generation fuel (visited + 1) (index + 1) after

/-- `drain_results`. -/
def drainResults (visit : ℕ → OpCompletion → Option T → ChannelRun T → ChannelRun T × Bool) :
    ChannelRun T × Option ℕ :=
  drainSlots visit r.drains r.channel.generation r.channel.slots.length 0 0
    { r with drains := r.drains + 1 }

end ChannelRun

/-- What a visitor does to the run, and whether it throws. -/
def VisitorBody.run {T : Type} : VisitorBody T → ChannelRun T → ChannelRun T × Bool
  | .returns, r => (r, false)
  | .throws, r => (r, true)
  | .clear rest, r => rest.run r.clear
  | .drain visitor rest, r =>
    let result := r.drainResults fun handle completion value r =>
      (visitor handle completion value).run r
    (rest result.2).run result.1

/-- A drain with a visitor. -/
def ChannelRun.drain {T : Type} (r : ChannelRun T) (visitor : Visitor T) :
    ChannelRun T × Option ℕ :=
  r.drainResults fun handle completion value r => (visitor handle completion value).run r

/-! ### Calls -/

/-- The execution of one operation of a phase: what it leaves in its value, and its result, none
when its callback throws. -/
structure OpRun (T : Type) where
  /-- Index in the plan. -/
  index : ℕ
  /-- The value. -/
  value : T
  /-- The result. -/
  result : Option PlannedExecutionResult

/-- Calls of the owner of the batch. -/
inductive ChannelOp (T : Type)
  | recordPlanCompletions
  /-- A phase, with the operations that its executor started, in the order in which they ended. -/
  | executePhase (policy : WritePolicy) (phase : ExecutionPhase) (runs : List (OpRun T))
  | drain (visitor : Visitor T)
  | clear

namespace ChannelRun

variable {M T : Type} [Inhabited T] (stamp : PlannedWorldStamp) (report : ExecutionReport M)

/-- A rejected operation enters the channel. -/
def failPlanned (r : ChannelRun T) (op : OperationReport M) : ChannelRun T :=
  { r with
    channel := r.channel.failPlanned op
    settled := r.settled ++ [⟨r.clears, op.handle, ResultChannel.plannedCompletion op, none⟩] }

/-- `record_plan_completions`. -/
def recordPlanCompletions (r : ChannelRun T) : ChannelRun T :=
  (report.operations.filter fun op => op.status ≠ .planned).foldl failPlanned r

/-- An operation of a phase runs. -/
def runOperation (r : ChannelRun T) (run : OpRun T) : ChannelRun T :=
  match report.plan[run.index]? with
  | none => r
  | some op =>
    let written := r.channel.writeValue op.handle run.value
    match run.result with
    | none => { r with channel := written }
    | some result =>
      { r with
        channel := written.complete op.handle result
        settled := r.settled ++
          [⟨r.clears, op.handle, ResultChannel.executionCompletion result,
            if result.status = .executed then some run.value else none⟩] }

/-- The slots of a phase are prepared. -/
def preparePhase (r : ChannelRun T) (phase : ExecutionPhase) : ChannelRun T :=
  let prepare (channel : ResultChannel T) (op : PlannedOperation M) : ResultChannel T :=
    channel.prepareOperation op.handle
  { r with channel := (phaseOperations report.plan phase).foldl prepare r.channel }

/-- `execute_phase_partitioned_dirty_with_results`, of the channel. -/
def executePhase (policy : WritePolicy) (phase : ExecutionPhase) (runs : List (OpRun T))
    (r : ChannelRun T) : ChannelRun T :=
  if phaseValidationStatus stamp report.plan policy phase ≠ .executed then r
  else runs.foldl (runOperation report) (r.preparePhase report phase)

/-- One call. -/
def step (r : ChannelRun T) : ChannelOp T → ChannelRun T
  | .recordPlanCompletions => r.recordPlanCompletions report
  | .executePhase policy phase runs => r.executePhase stamp report policy phase runs
  | .drain visitor => (r.drain visitor).1
  | .clear => r.clear

/-- A sequence of calls. -/
def run (ops : List (ChannelOp T)) (r : ChannelRun T) : ChannelRun T :=
  ops.foldl (step stamp report) r

end ChannelRun

end Tess
