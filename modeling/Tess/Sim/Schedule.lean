import Mathlib.Data.BitVec
import Mathlib.Data.List.Range
import Mathlib.Data.List.Infix

/-!
# The task schedule

A `Schedule` runs tasks in phase order once per fixed tick.  A task is due by its cadence or by
trigger bits that were raised for it; the bits are consumed before the task runs and put back
when it throws.  The model records what callers and callbacks observe in a log.

* `runTaskIfDue`, `runTick` : the turn of one task, and one tick;
* `Undelivered` : a bit was raised for a task and no later invocation of it that returned
  carried the bit;
* `Turn` : what the turn of one task does in a tick;
* `schedule_delivers` : **what is pending is what is undelivered**, an invocation carries
  exactly that, and periodic tasks keep their period.
-/

namespace Tess

/-! ### Tasks -/

/-- Trigger policy of a task. -/
inductive CadenceKind
  | everyTick
  | everyN
  | onDirty
  | onEvent
  | background
  | manual
  deriving DecidableEq, Repr

/-- When a task is due. -/
structure Cadence where
  /-- Trigger policy. -/
  kind : CadenceKind := .everyTick
  /-- Period of an `everyN` task. -/
  everyN : ℕ := 1
  /-- Subscribed dirty bits of an `onDirty` task. -/
  dirtyMask : BitVec 32 := 0
  /-- Work units offered to a `background` task. -/
  maxItems : ℕ := 1
  /-- Subscribed event bits of an `onEvent` task. -/
  eventMask : BitVec 32 := 0
  deriving DecidableEq, Repr

/-- The phases of a tick, in their order. -/
inductive SimPhase
  | input
  | preUpdate
  | ai
  | pathing
  | movement
  | commit
  | topology
  | fields
  | background
  | renderDelta
  | diagnostics
  deriving DecidableEq, Repr

/-- Every phase, in order. -/
def SimPhase.all : List SimPhase :=
  [.input, .preUpdate, .ai, .pathing, .movement, .commit, .topology, .fields, .background,
    .renderDelta, .diagnostics]

/-- Phase and cadence of a task. -/
structure ScheduleTaskDesc where
  /-- Phase in which the task runs. -/
  phase : SimPhase := .preUpdate
  /-- When it is due. -/
  cadence : Cadence := {}
  deriving DecidableEq, Repr

/-- What a task is invoked with. -/
structure ScheduleTaskContext where
  /-- The current tick. -/
  tick : ℕ := 0
  /-- Dirty bits that made the task due. -/
  pendingDirty : BitVec 32 := 0
  /-- Work units offered. -/
  budgetItems : ℕ := 0
  /-- Event bits that made the task due. -/
  pendingEvents : BitVec 32 := 0
  deriving DecidableEq, Repr

/-- What a task returns. -/
structure ScheduleTaskResult where
  /-- Dirty bits the run produced. -/
  dirtyMask : BitVec 32 := 0
  /-- Work units consumed. -/
  itemsDone : ℕ := 0
  /-- A background task stays due. -/
  moreWork : Bool := false
  /-- Event bits the run produced. -/
  eventMask : BitVec 32 := 0
  deriving DecidableEq, Repr

/-- Cumulative counters of a task. -/
structure ScheduleTaskStats where
  /-- Invocations that returned. -/
  runs : ℕ := 0
  /-- Ticks on which the task was due but disabled. -/
  skipped : ℕ := 0
  /-- Work units consumed. -/
  backgroundItems : ℕ := 0
  /-- Tick of the last invocation that returned. -/
  lastRunTick : ℕ := 0
  deriving DecidableEq, Repr

/-- Summary of one tick. -/
structure ScheduleTickStats where
  /-- The tick. -/
  tick : ℕ := 0
  /-- Tasks that were due. -/
  tasksDue : ℕ := 0
  /-- Tasks that ran. -/
  tasksRun : ℕ := 0
  /-- Tasks that were due but disabled. -/
  tasksSkipped : ℕ := 0
  /-- Work units consumed. -/
  backgroundItems : ℕ := 0
  /-- Dirty bits that the results produced. -/
  dirtyMaskProduced : BitVec 32 := 0
  /-- Event bits that the results produced. -/
  eventMaskProduced : BitVec 32 := 0
  deriving DecidableEq, Repr

/-- A registered task. -/
structure TaskRecord where
  /-- Phase and cadence. -/
  desc : ScheduleTaskDesc
  /-- Dirty bits raised since they were last consumed. -/
  pendingMask : BitVec 32 := 0
  /-- Event bits raised since they were last consumed. -/
  pendingEvents : BitVec 32 := 0
  /-- Countdown of an `everyN` task. -/
  ticksUntilDue : ℕ := 0
  /-- The task is due on the next tick regardless of its cadence. -/
  runRequested : Bool := false
  /-- A background task has work left. -/
  inProgress : Bool := false
  /-- Disabled tasks are not invoked. -/
  enabled : Bool := true
  /-- Counters. -/
  stats : ScheduleTaskStats := {}
  deriving DecidableEq, Repr

/-- The two families of trigger bits. -/
inductive Trigger
  | dirty
  | event
  deriving DecidableEq, Repr

namespace Trigger

/-- The cadence that reads the bits of a family. -/
def kind : Trigger → CadenceKind
  | dirty => .onDirty
  | event => .onEvent

end Trigger

namespace TaskRecord

/-- Pending bits of a family. -/
def pending (task : TaskRecord) : Trigger → BitVec 32
  | .dirty => task.pendingMask
  | .event => task.pendingEvents

/-- Merge bits into the pending ones. -/
def raise (task : TaskRecord) (t : Trigger) (mask : BitVec 32) : TaskRecord :=
  match t with
  | .dirty => { task with pendingMask := task.pendingMask ||| mask }
  | .event => { task with pendingEvents := task.pendingEvents ||| mask }

/-- The bits of a family that can make the task due. -/
def triggerMask (task : TaskRecord) (t : Trigger) : BitVec 32 :=
  if task.desc.cadence.kind = t.kind then
    match t with
    | .dirty => task.desc.cadence.dirtyMask
    | .event => task.desc.cadence.eventMask
  else 0

end TaskRecord

/-- Bits of a family that an invocation carries. -/
def ScheduleTaskContext.carried (context : ScheduleTaskContext) : Trigger → BitVec 32
  | .dirty => context.pendingDirty
  | .event => context.pendingEvents

/-! ### Schedules -/

/-- The registered tasks and, once sealed, the dispatch indexes. -/
structure Schedule where
  /-- Tasks by identifier. -/
  tasks : List TaskRecord := []
  /-- Dispatch order. -/
  phaseOrder : List ℕ := []
  /-- Tasks that read dirty bits. -/
  dirtyTaskIds : List ℕ := []
  /-- Tasks that read event bits. -/
  eventTaskIds : List ℕ := []
  /-- Registration is frozen. -/
  isSealed : Bool := false

namespace Schedule

variable (s : Schedule)

/-- `Schedule::add_task`; none where the source fails fast. -/
def addTask (desc : ScheduleTaskDesc) : Option Schedule :=
  if s.isSealed then none
  else if desc.cadence.kind = .everyN ∧ desc.cadence.everyN = 0 then none
  else if desc.cadence.kind = .background ∧ desc.cadence.maxItems = 0 then none
  else
    let everyN := if desc.cadence.everyN = 0 then 1 else desc.cadence.everyN
    let maxItems := if desc.cadence.maxItems = 0 then 1 else desc.cadence.maxItems
    some { s with
      tasks := s.tasks ++
        [{ desc := { desc with cadence := { desc.cadence with everyN := everyN
                                                              maxItems := maxItems } }
           ticksUntilDue := if desc.cadence.kind = .everyN then everyN else 0 }] }

/-- Identifiers of the tasks with a property, in registration order. -/
def idsWhere (p : TaskRecord → Bool) : List ℕ :=
  (List.range s.tasks.length).filter fun i => (s.tasks[i]?).any p

/-- `Schedule::seal`: dispatch is phase by phase, in registration order within a phase. -/
def sealTasks : Schedule :=
  if s.isSealed then s
  else
    { s with
      phaseOrder := SimPhase.all.flatMap fun phase => s.idsWhere fun task => task.desc.phase = phase
      dirtyTaskIds := s.idsWhere fun task => task.desc.cadence.kind = .onDirty
      eventTaskIds := s.idsWhere fun task => task.desc.cadence.kind = .onEvent
      isSealed := true }

/-- `Schedule::set_enabled`; none where the source fails fast. -/
def setEnabled (id : ℕ) (enabled : Bool) : Option Schedule :=
  if id < s.tasks.length then
    some { s with tasks := s.tasks.modify id fun task => { task with enabled := enabled } }
  else none

/-- `Schedule::request_run`; none where the source fails fast. -/
def requestRun (id : ℕ) : Option Schedule :=
  if id < s.tasks.length then
    some { s with tasks := s.tasks.modify id fun task => { task with runRequested := true } }
  else none

/-- The tasks that receive bits of a family once the schedule is sealed. -/
def taskIds : Trigger → List ℕ
  | .dirty => s.dirtyTaskIds
  | .event => s.eventTaskIds

/-- Merge bits into the pending ones of the subscribers. -/
def merge (t : Trigger) (mask : BitVec 32) : Schedule :=
  { s with tasks := (s.taskIds t).foldl (fun tasks id => tasks.modify id (·.raise t mask)) s.tasks }

/-- Merge bits into the pending ones of the subscribers, or of every task before sealing. -/
def notify (t : Trigger) (mask : BitVec 32) : Schedule :=
  if s.isSealed then s.merge t mask
  else { s with tasks := s.tasks.map (·.raise t mask) }

/-- `Schedule::notify_dirty`. -/
def notifyDirty (mask : BitVec 32) : Schedule := s.notify .dirty mask

/-- `Schedule::notify_events`. -/
def notifyEvents (mask : BitVec 32) : Schedule := s.notify .event mask

end Schedule

/-! ### Turns and ticks -/

/-- What callers and callbacks observe, in order. -/
inductive ScheduleEvent
  | added (id : ℕ)
  | raised (t : Trigger) (mask : BitVec 32)
  | ticked
  | invoked (id : ℕ) (context : ScheduleTaskContext) (returned : Bool)
  deriving DecidableEq, Repr

/-- What a callback may do to the schedule. -/
inductive ScheduleCall
  | notifyDirty (mask : BitVec 32)
  | notifyEvents (mask : BitVec 32)
  | requestRun (id : ℕ)
  | setEnabled (id : ℕ) (enabled : Bool)
  deriving DecidableEq, Repr

/-- One invocation of a callback: the calls it makes, then its result or none if it throws. -/
structure TaskBehaviour where
  /-- Calls on the schedule. -/
  calls : List ScheduleCall := []
  /-- Result, or none if the callback throws. -/
  result : Option ScheduleTaskResult := some {}

/-- A schedule with the log of what was observed. -/
structure ScheduleRun where
  /-- The schedule. -/
  schedule : Schedule := {}
  /-- What was observed. -/
  log : List ScheduleEvent := []

namespace ScheduleRun

variable (r : ScheduleRun)

/-- Raise bits of a family. -/
def raise (t : Trigger) (mask : BitVec 32) : ScheduleRun :=
  { schedule := r.schedule.notify t mask, log := r.log ++ [.raised t mask] }

/-- One call on the schedule. -/
def call : ScheduleCall → Option ScheduleRun
  | .notifyDirty mask => some (r.raise .dirty mask)
  | .notifyEvents mask => some (r.raise .event mask)
  | .requestRun id => (r.schedule.requestRun id).map fun s => { r with schedule := s }
  | .setEnabled id enabled => (r.schedule.setEnabled id enabled).map fun s => { r with schedule := s }

/-- The calls of a callback. -/
def calls : List ScheduleCall → ScheduleRun → Option ScheduleRun
  | [], r => some r
  | c :: cs, r =>
    match r.call c with
    | none => none
    | some r => calls cs r

/-- The ticks so far. -/
def ticks : ℕ := r.log.count .ticked

end ScheduleRun

/-- Whether a task is due, after the bookkeeping of its cadence. -/
structure DueCheck where
  /-- The task with its countdown advanced. -/
  task : TaskRecord
  /-- The task is due. -/
  due : Bool
  /-- Dirty bits to deliver. -/
  firedDirty : BitVec 32 := 0
  /-- Event bits to deliver. -/
  firedEvents : BitVec 32 := 0
  /-- Work units to offer. -/
  budget : ℕ := 0

namespace TaskRecord

/-- The countdown of an `everyN` task. -/
def countDown (task : TaskRecord) : TaskRecord :=
  { task with ticksUntilDue :=
      if task.ticksUntilDue - 1 = 0 then task.desc.cadence.everyN else task.ticksUntilDue - 1 }

/-- The `switch` of `run_task_if_due`. -/
def checkDue (task : TaskRecord) : DueCheck :=
  match task.desc.cadence.kind with
  | .everyTick => { task := task, due := true }
  | .everyN =>
    { task := task.countDown, due := task.ticksUntilDue - 1 = 0 || task.runRequested }
  | .onDirty =>
    let fired := task.pendingMask &&& task.desc.cadence.dirtyMask
    { task := task, due := fired != 0 || task.runRequested, firedDirty := fired }
  | .onEvent =>
    let fired := task.pendingEvents &&& task.desc.cadence.eventMask
    { task := task, due := fired != 0 || task.runRequested, firedEvents := fired }
  | .background =>
    { task := task, due := task.inProgress || task.runRequested
      budget := task.desc.cadence.maxItems }
  | .manual => { task := task, due := task.runRequested }

/-- `Schedule::advance_aborted_tick_cadence`. -/
def advanceAborted (task : TaskRecord) : TaskRecord :=
  if task.desc.cadence.kind = .everyN then task.countDown else task

end TaskRecord

namespace DueCheck

/-- The task with its triggers consumed. -/
def consumed (d : DueCheck) : TaskRecord :=
  { d.task with
    pendingMask := d.task.pendingMask &&& ~~~d.firedDirty
    pendingEvents := d.task.pendingEvents &&& ~~~d.firedEvents
    runRequested := false }

/-- The context of the invocation. -/
def context (d : DueCheck) (tick : ℕ) : ScheduleTaskContext :=
  { tick := tick, pendingDirty := d.firedDirty, budgetItems := d.budget
    pendingEvents := d.firedEvents }

/-- A throw puts the consumed triggers back. -/
def restored (d : DueCheck) (task : TaskRecord) : TaskRecord :=
  { task with
    pendingMask := task.pendingMask ||| d.firedDirty
    pendingEvents := task.pendingEvents ||| d.firedEvents
    runRequested := task.runRequested || d.task.runRequested }

end DueCheck

/-- The state of a tick between the turns of two tasks. -/
structure TickState where
  /-- The schedule and the log. -/
  run : ScheduleRun
  /-- Summary of the tick. -/
  stats : ScheduleTickStats := {}
  /-- A callback has thrown. -/
  threw : Bool := false

/-- Replace or update one task. -/
def ScheduleRun.modifyTask (r : ScheduleRun) (id : ℕ) (f : TaskRecord → TaskRecord) :
    ScheduleRun :=
  { r with schedule := { r.schedule with tasks := r.schedule.tasks.modify id f } }

/-- Merge the bits of a result. -/
def ScheduleRun.mergeResult (r : ScheduleRun) (t : Trigger) (mask : BitVec 32) : ScheduleRun :=
  if mask ≠ 0 then
    { schedule := r.schedule.merge t mask, log := r.log ++ [.raised t mask] }
  else r

/-- The end of an invocation: the result is checked and merged. -/
def finishTask (st : TickState) (id : ℕ) (task : TaskRecord) (d : DueCheck)
    (result : ScheduleTaskResult) (r : ScheduleRun) : Option TickState :=
  let isBackground := task.desc.cadence.kind = .background
  if isBackground ∧ result.itemsDone > d.budget then none
  else if ¬ isBackground ∧ result.itemsDone ≠ 0 then none
  else
    let r := r.modifyTask id fun task =>
      { task with inProgress := decide isBackground && result.moreWork }
    let r := (r.mergeResult .dirty result.dirtyMask).mergeResult .event result.eventMask
    let r := r.modifyTask id fun task =>
      { task with stats := { task.stats with
          runs := task.stats.runs + 1
          backgroundItems := task.stats.backgroundItems + result.itemsDone
          lastRunTick := st.stats.tick } }
    some { st with
      run := r
      stats := { st.stats with
        dirtyMaskProduced := st.stats.dirtyMaskProduced ||| result.dirtyMask
        eventMaskProduced := st.stats.eventMaskProduced ||| result.eventMask
        tasksRun := st.stats.tasksRun + 1
        backgroundItems := st.stats.backgroundItems + result.itemsDone } }

/-- One invocation of a due, enabled task. -/
def invokeTask (body : ScheduleTaskContext → TaskBehaviour) (st : TickState) (id : ℕ)
    (task : TaskRecord) (d : DueCheck) : Option TickState :=
  let context := d.context st.stats.tick
  let behaviour := body context
  let r := st.run.modifyTask id fun _ => d.consumed
  let r := { r with log := r.log ++ [ScheduleEvent.invoked id context behaviour.result.isSome] }
  match r.calls behaviour.calls with
  | none => none
  | some r =>
    match behaviour.result with
    | none => some { st with run := r.modifyTask id d.restored, threw := true }
    | some result => finishTask st id task d result r

/-- `Schedule::run_task_if_due`. -/
def runTaskIfDue (body : ScheduleTaskContext → TaskBehaviour) (st : TickState) (id : ℕ) :
    Option TickState :=
  match st.run.schedule.tasks[id]? with
  | none => none
  | some task =>
    let d := task.checkDue
    let st := { st with run := st.run.modifyTask id fun _ => d.task }
    if !d.due then some st
    else
      let st := { st with stats := { st.stats with tasksDue := st.stats.tasksDue + 1 } }
      if !task.enabled then
        some { st with
          run := st.run.modifyTask id fun task =>
            { task with stats := { task.stats with skipped := task.stats.skipped + 1 } }
          stats := { st.stats with tasksSkipped := st.stats.tasksSkipped + 1 } }
      else invokeTask body st id task d

/-- The positions of a tick: after a throw the remaining tasks only count down. -/
def runPositions (body : ℕ → ScheduleTaskContext → TaskBehaviour) :
    List ℕ → TickState → Option TickState
  | [], st => some st
  | id :: ids, st =>
    match runTaskIfDue (body id) st id with
    | none => none
    | some st =>
      if st.threw then
        let r := ids.foldl (fun r id => r.modifyTask id TaskRecord.advanceAborted) st.run
        some { st with run := r }
      else runPositions body ids st

/-- The state in which a tick starts. -/
def ScheduleRun.beginTick (r : ScheduleRun) (tick : ℕ) : TickState :=
  { run := { r with log := r.log ++ [.ticked] }, stats := { tick := tick } }

/-- `Schedule::run_tick`. -/
def ScheduleRun.runTick (r : ScheduleRun) (tick : ℕ)
    (body : ℕ → ScheduleTaskContext → TaskBehaviour) : Option TickState :=
  if r.schedule.isSealed then runPositions body r.schedule.phaseOrder (r.beginTick tick) else none

/-- What the owner of a schedule may do. -/
inductive ScheduleOp
  | addTask (desc : ScheduleTaskDesc)
  | sealTasks
  | call (c : ScheduleCall)
  | runTick (tick : ℕ) (body : ℕ → ScheduleTaskContext → TaskBehaviour)

/-- One operation of the owner; none where the source fails fast. -/
def ScheduleRun.op (r : ScheduleRun) : ScheduleOp → Option ScheduleRun
  | .addTask desc => (r.schedule.addTask desc).map fun s =>
      { schedule := s, log := r.log ++ [.added r.schedule.tasks.length] }
  | .sealTasks => some { r with schedule := r.schedule.sealTasks }
  | .call c => r.call c
  | .runTick tick body => (r.runTick tick body).map TickState.run

/-- A run of operations. -/
def ScheduleRun.ops : List ScheduleOp → ScheduleRun → Option ScheduleRun
  | [], r => some r
  | o :: os, r =>
    match r.op o with
    | none => none
    | some r => ops os r

/-! ### Undelivered bits -/

section Undelivered

variable {t t' : Trigger} {i j : ℕ} {b : ℕ} {log : List ScheduleEvent} {e : ScheduleEvent}

/-- A bit was raised after the task was added, and no later invocation of the task that returned
carried it. -/
def Undelivered (t : Trigger) (i b : ℕ) (log : List ScheduleEvent) : Prop :=
  ∃ l₁ mask l₂, log = l₁ ++ .raised t mask :: l₂ ∧ .added i ∈ l₁ ∧ mask.getLsbD b = true ∧
    ∀ context, .invoked i context true ∈ l₂ → (context.carried t).getLsbD b = false

/-- How one more event changes what is undelivered. -/
theorem undelivered_concat : Undelivered t i b (log ++ [e]) ↔
    (∃ mask, e = .raised t mask ∧ mask.getLsbD b = true ∧ .added i ∈ log) ∨
      (Undelivered t i b log ∧
        ∀ context, e = .invoked i context true → (context.carried t).getLsbD b = false) := by
  constructor
  · rintro ⟨l₁, mask, l₂, hlog, hadd, hb, hl₂⟩
    rcases List.eq_nil_or_concat l₂ with rfl | ⟨l₂, e', rfl⟩
    · obtain ⟨rfl, he⟩ := List.append_inj' hlog rfl
      exact Or.inl ⟨mask, by simpa using he, hb, hadd⟩
    · rw [List.concat_eq_append, ← List.cons_append, ← List.append_assoc] at hlog
      obtain ⟨rfl, he⟩ := List.append_inj' hlog rfl
      obtain rfl : e = e' := by simpa using he
      refine Or.inr ⟨⟨l₁, mask, l₂, rfl, hadd, hb, fun c hc => hl₂ c (by simp [hc])⟩, ?_⟩
      rintro c rfl
      exact hl₂ c (by simp)
  · rintro (⟨mask, rfl, hb, hadd⟩ | ⟨⟨l₁, mask, l₂, rfl, hadd, hb, hl₂⟩, he⟩)
    · exact ⟨log, mask, [], rfl, hadd, hb, by simp⟩
    · refine ⟨l₁, mask, l₂ ++ [e], by simp, hadd, hb, fun c hc => ?_⟩
      rcases List.mem_append.1 hc with hc | hc
      · exact hl₂ c hc
      · exact he c (List.mem_singleton.1 hc).symm

theorem Undelivered.added_mem (h : Undelivered t i b log) : .added i ∈ log := by
  obtain ⟨l₁, mask, l₂, rfl, hadd, -⟩ := h
  exact List.mem_append_left _ hadd

/-- Events without an invocation of the task deliver nothing to it. -/
theorem Undelivered.append (h : Undelivered t i b log) {l : List ScheduleEvent}
    (hl : ∀ context, .invoked i context true ∉ l) : Undelivered t i b (log ++ l) := by
  obtain ⟨l₁, mask, l₂, rfl, hadd, hb, hl₂⟩ := h
  refine ⟨l₁, mask, l₂ ++ l, by simp, hadd, hb, fun c hc => ?_⟩
  rcases List.mem_append.1 hc with hc | hc
  · exact hl₂ c hc
  · exact absurd hc (hl c)

end Undelivered

/-! ### One task -/

section Task

variable {task : TaskRecord} {t t' : Trigger} {mask : BitVec 32} {b k : ℕ}

namespace TaskRecord

@[simp] theorem raise_desc : (task.raise t mask).desc = task.desc := by cases t <;> rfl

@[simp] theorem raise_ticksUntilDue : (task.raise t mask).ticksUntilDue = task.ticksUntilDue := by
  cases t <;> rfl

@[simp] theorem raise_raise : (task.raise t mask).raise t mask = task.raise t mask := by
  cases t <;> simp [raise, BitVec.or_assoc]

theorem pending_raise : (task.raise t mask).pending t' =
    if t' = t then task.pending t' ||| mask else task.pending t' := by
  cases t <;> cases t' <;> rfl

theorem triggerMask_congr {task' : TaskRecord} (h : task'.desc = task.desc) (t : Trigger) :
    task'.triggerMask t = task.triggerMask t := by
  simp only [triggerMask, h]

theorem kind_of_triggerMask (h : (task.triggerMask t).getLsbD b = true) :
    task.desc.cadence.kind = t.kind := by
  by_contra hk
  simp [triggerMask, hk] at h

end TaskRecord

/-- The countdown of a periodic task after some turns. -/
def Countdown (k : ℕ) (task : TaskRecord) : Prop :=
  task.desc.cadence.kind = .everyN → 0 < task.desc.cadence.everyN ∧
    task.ticksUntilDue = task.desc.cadence.everyN - k % task.desc.cadence.everyN

/-- One more turn: the countdown ends at the multiples of the period. -/
theorem countdown_succ (n k : ℕ) (hn : 0 < n) :
    (n - k % n - 1 = 0 ↔ n ∣ k + 1) ∧
      (if n - k % n - 1 = 0 then n else n - k % n - 1) = n - (k + 1) % n := by
  have hlt := Nat.mod_lt k hn
  have hdiv := Nat.div_add_mod k n
  rw [Nat.dvd_iff_mod_eq_zero]
  by_cases h : n - k % n - 1 = 0
  · have hk : k + 1 = n * (k / n + 1) := by rw [Nat.mul_add, Nat.mul_one]; omega
    have hmod : (k + 1) % n = 0 := by rw [hk, Nat.mul_mod_right]
    rw [if_pos h, hmod]
    exact ⟨⟨fun _ => rfl, fun _ => h⟩, rfl⟩
  · have hk : k + 1 = k % n + 1 + n * (k / n) := by omega
    have hmod : (k + 1) % n = k % n + 1 := by
      rw [hk, Nat.add_mul_mod_self_left, Nat.mod_eq_of_lt (by omega)]
    rw [if_neg h, hmod]
    exact ⟨⟨fun h' => absurd h' h, fun h' => by omega⟩, by omega⟩

theorem Countdown.countDown (h : Countdown k task) : Countdown (k + 1) task.countDown := by
  intro hk
  obtain ⟨hn, ht⟩ := h hk
  refine ⟨hn, ?_⟩
  have := (countdown_succ task.desc.cadence.everyN k hn).2
  simp only [TaskRecord.countDown, ht]
  exact this

theorem Countdown.of_ne (h : task.desc.cadence.kind ≠ .everyN) : Countdown k task :=
  fun hk => absurd hk h

/-- Bits of a family that are delivered. -/
def DueCheck.fired (d : DueCheck) : Trigger → BitVec 32
  | .dirty => d.firedDirty
  | .event => d.firedEvents

@[simp] theorem DueCheck.context_carried (d : DueCheck) (tick : ℕ) :
    (d.context tick).carried t = d.fired t := by cases t <;> rfl

/-- **What the cadence decides.** -/
structure CheckDue (task : TaskRecord) (d : DueCheck) : Prop where
  /-- The description stays. -/
  desc : d.task.desc = task.desc
  /-- The pending bits stay. -/
  pending : ∀ t, d.task.pending t = task.pending t
  /-- Enablement stays. -/
  enabled : d.task.enabled = task.enabled
  /-- The countdown advances. -/
  countdown : ∀ k, Countdown k task → Countdown (k + 1) d.task
  /-- The delivered bits are the pending ones that can make the task due. -/
  fired : ∀ t b, (d.fired t).getLsbD b = true ↔
    (task.triggerMask t).getLsbD b = true ∧ (task.pending t).getLsbD b = true
  /-- Delivered bits make the task due. -/
  due_of_fired : ∀ t b, (d.fired t).getLsbD b = true → d.due = true
  /-- A periodic task is due at the end of its countdown. -/
  due_of_period : ∀ k, Countdown k task → task.desc.cadence.kind = .everyN →
    task.desc.cadence.everyN ∣ k + 1 → d.due = true
  /-- Otherwise it is due on request only. -/
  period_of_due : ∀ k, Countdown k task → task.desc.cadence.kind = .everyN → d.due = true →
    task.runRequested = false → task.desc.cadence.everyN ∣ k + 1

theorem checkDue_spec (task : TaskRecord) : CheckDue task task.checkDue := by
  have hne {x : BitVec 32} {b : ℕ} (h : x.getLsbD b = true) : x ≠ 0 := by
    rintro rfl
    simp at h
  unfold TaskRecord.checkDue
  cases hk : task.desc.cadence.kind
  case everyN =>
    have hcount (k : ℕ) (h : Countdown k task) :
        task.ticksUntilDue - 1 = 0 ↔ task.desc.cadence.everyN ∣ k + 1 := by
      obtain ⟨hn, ht⟩ := h hk
      rw [ht]
      exact (countdown_succ _ k hn).1
    refine ⟨rfl, fun t => by cases t <;> rfl, rfl, fun k h => h.countDown, fun t b => ?_,
      fun t b h => ?_, fun k h _ hd => ?_, fun k h _ hd hr => ?_⟩
    · cases t <;> simp [DueCheck.fired, TaskRecord.triggerMask, hk, Trigger.kind]
    · cases t <;> simp [DueCheck.fired] at h
    · simp [(hcount k h).2 hd]
    · simp only [hr, Bool.or_false, decide_eq_true_eq] at hd
      exact (hcount k h).1 hd
  all_goals
    refine ⟨rfl, fun t => by cases t <;> rfl, rfl, fun k h => .of_ne (by simp [hk]),
      fun t b => ?_, fun t b h => ?_, fun k h h' => absurd h' (by simp [hk]),
      fun k h h' => absurd h' (by simp [hk])⟩
    · cases t <;> simp [DueCheck.fired, TaskRecord.triggerMask, hk, Trigger.kind,
        TaskRecord.pending, and_comm]
    · cases t <;> simp only [DueCheck.fired] at h <;>
        first
          | exact absurd rfl (hne h)
          | exact Bool.or_eq_true_iff.2 (Or.inl (bne_iff_ne.2 (hne h)))

end Task

/-! ### Lookups -/

section Lookup

variable {s s' s'' : Schedule} {t : Trigger} {mask : BitVec 32} {i : ℕ} {task : TaskRecord}

/-- Position of a phase. -/
def SimPhase.rank (p : SimPhase) : ℕ := SimPhase.all.idxOf p

@[simp] theorem getElem?_modifyTask (r : ScheduleRun) (id : ℕ) (f : TaskRecord → TaskRecord)
    (j : ℕ) : (r.modifyTask id f).schedule.tasks[j]? =
      if id = j then (r.schedule.tasks[j]?).map f else r.schedule.tasks[j]? := by
  rw [ScheduleRun.modifyTask, List.getElem?_modify]
  split_ifs <;> simp

@[simp] theorem log_modifyTask (r : ScheduleRun) (id : ℕ) (f : TaskRecord → TaskRecord) :
    (r.modifyTask id f).log = r.log := rfl

/-- The two schedules have the same tasks, up to their state, and the same indexes. -/
structure SameTasks (s s' : Schedule) : Prop where
  /-- The descriptions stay. -/
  desc : ∀ i : ℕ, (s'.tasks[i]?).map TaskRecord.desc = (s.tasks[i]?).map TaskRecord.desc
  /-- The dispatch order stays. -/
  phaseOrder : s'.phaseOrder = s.phaseOrder
  /-- The subscribers stay. -/
  taskIds : ∀ t, s'.taskIds t = s.taskIds t
  /-- Registration stays frozen or open. -/
  isSealed : s'.isSealed = s.isSealed

namespace SameTasks

theorem refl (s : Schedule) : SameTasks s s := ⟨fun _ => rfl, rfl, fun _ => rfl, rfl⟩

theorem trans (h : SameTasks s s') (h' : SameTasks s' s'') : SameTasks s s'' :=
  ⟨fun i => (h'.desc i).trans (h.desc i), h'.phaseOrder.trans h.phaseOrder,
    fun t => (h'.taskIds t).trans (h.taskIds t), h'.isSealed.trans h.isSealed⟩

theorem exists_task (h : SameTasks s s') {task' : TaskRecord} (ht : s'.tasks[i]? = some task') :
    ∃ task, s.tasks[i]? = some task ∧ task'.desc = task.desc := by
  have := h.desc i
  rw [ht, Option.map_some] at this
  obtain ⟨task, hs, hd⟩ := Option.map_eq_some_iff.1 this.symm
  exact ⟨task, hs, hd.symm⟩

theorem exists_task' (h : SameTasks s s') (ht : s.tasks[i]? = some task) :
    ∃ task', s'.tasks[i]? = some task' ∧ task'.desc = task.desc := by
  have := h.desc i
  rw [ht, Option.map_some] at this
  exact Option.map_eq_some_iff.1 this

theorem length_eq (h : SameTasks s s') : s'.tasks.length = s.tasks.length := by
  have key {s s' : Schedule} (h : ∀ i : ℕ, (s'.tasks[i]?).map TaskRecord.desc =
      (s.tasks[i]?).map TaskRecord.desc) : s.tasks.length ≤ s'.tasks.length := by
    by_contra hlt
    have := h s'.tasks.length
    rw [List.getElem?_eq_none le_rfl, List.getElem?_eq_getElem (by omega)] at this
    cases this
  exact le_antisymm (key fun i => (h.desc i).symm) (key h.desc)

/-- Updating one task but for its description. -/
theorem modifyTask (r : ScheduleRun) (id : ℕ) {f : TaskRecord → TaskRecord}
    (hf : ∀ task, r.schedule.tasks[id]? = some task → (f task).desc = task.desc) :
    SameTasks r.schedule (r.modifyTask id f).schedule := by
  refine ⟨fun i => ?_, rfl, fun _ => rfl, rfl⟩
  rw [getElem?_modifyTask]
  split_ifs with h
  · subst h
    cases ht : r.schedule.tasks[id]? with
    | none => rfl
    | some task => simp [hf task ht]
  · rfl

end SameTasks

/-- Merging bits twice is merging them once, so each subscriber is updated once. -/
theorem getElem?_foldl_raise (ids : List ℕ) (tasks : List TaskRecord) (j : ℕ) :
    (ids.foldl (fun tasks id => tasks.modify id (·.raise t mask)) tasks)[j]? =
      if j ∈ ids then (tasks[j]?).map (·.raise t mask) else tasks[j]? := by
  induction ids generalizing tasks with
  | nil => simp
  | cons id ids ih =>
    rw [List.foldl_cons, ih, List.getElem?_modify]
    by_cases h : id = j
    · subst h
      cases tasks[id]? <;> simp
    · simp [h, Ne.symm h]

/-- A notification updates the tasks that receive it. -/
theorem getElem?_notify (s : Schedule) (t : Trigger) (mask : BitVec 32) (j : ℕ) :
    (s.notify t mask).tasks[j]? = if s.isSealed = true → j ∈ s.taskIds t then
      (s.tasks[j]?).map (·.raise t mask) else s.tasks[j]? := by
  unfold Schedule.notify Schedule.merge
  by_cases h : s.isSealed = true
  · simp only [h, if_true, getElem?_foldl_raise, forall_const]
  · simp [h]

theorem SameTasks.notify (s : Schedule) (t : Trigger) (mask : BitVec 32) :
    SameTasks s (s.notify t mask) := by
  refine ⟨fun i => ?_, ?_, fun t' => ?_, ?_⟩
  · rw [getElem?_notify]
    split_ifs
    · cases s.tasks[i]? <;> simp
    · rfl
  all_goals
    unfold Schedule.notify Schedule.merge
    split_ifs <;> rfl

/-- The dispatch indexes of a sealed schedule: the subscribers by cadence, and every task once,
phase by phase. -/
structure Indexed (s : Schedule) : Prop where
  /-- Subscribers read the bits. -/
  mem_taskIds : ∀ t i task, s.tasks[i]? = some task →
    (i ∈ s.taskIds t ↔ task.desc.cadence.kind = t.kind)
  /-- No task runs twice. -/
  nodup : s.phaseOrder.Nodup
  /-- Every task has its turn. -/
  mem_phaseOrder : ∀ i, i ∈ s.phaseOrder ↔ i < s.tasks.length
  /-- Turns are ordered by phase, then by registration. -/
  sorted : s.phaseOrder.Pairwise fun i j => ∀ task task', s.tasks[i]? = some task →
    s.tasks[j]? = some task' → task.desc.phase.rank < task'.desc.phase.rank ∨
      (task.desc.phase = task'.desc.phase ∧ i < j)

theorem Indexed.of_sameTasks (h : Indexed s) (hf : SameTasks s s') : Indexed s' := by
  refine ⟨fun t i task' ht => ?_, hf.phaseOrder ▸ h.nodup, fun i => ?_, ?_⟩
  · obtain ⟨task, hs, hd⟩ := hf.exists_task ht
    rw [hf.taskIds, h.mem_taskIds t i task hs, hd]
  · rw [hf.phaseOrder, hf.length_eq, h.mem_phaseOrder]
  · rw [hf.phaseOrder]
    refine h.sorted.imp fun hij task task' ht ht' => ?_
    obtain ⟨u, hu, hd⟩ := hf.exists_task ht
    obtain ⟨u', hu', hd'⟩ := hf.exists_task ht'
    rw [hd, hd']
    exact hij u u' hu hu'

theorem mem_idsWhere {p : TaskRecord → Bool} :
    i ∈ s.idsWhere p ↔ ∃ task, s.tasks[i]? = some task ∧ p task = true := by
  rw [Schedule.idsWhere, List.mem_filter, List.mem_range]
  constructor
  · rintro ⟨hlt, hp⟩
    rw [List.getElem?_eq_getElem hlt] at hp ⊢
    exact ⟨_, rfl, by simpa using hp⟩
  · rintro ⟨task, ht, hp⟩
    obtain ⟨hlt, -⟩ := List.getElem?_eq_some_iff.1 ht
    exact ⟨hlt, by simp [ht, hp]⟩

theorem pairwise_idsWhere {p : TaskRecord → Bool} : (s.idsWhere p).Pairwise (· < ·) :=
  List.pairwise_lt_range.filter _

/-- **Sealing builds the indexes.** -/
theorem indexed_sealTasks (h : s.isSealed = false) : Indexed s.sealTasks := by
  have hphase : SimPhase.all.Pairwise fun p q => p.rank < q.rank := by decide
  have hall : ∀ p, p ∈ SimPhase.all := by intro p; cases p <;> decide
  unfold Schedule.sealTasks
  simp only [h, Bool.false_eq_true, if_false]
  refine ⟨fun t i task ht => ?_, ?_, fun i => ?_, ?_⟩
  · simp only at ht
    cases t <;> simp [Schedule.taskIds, mem_idsWhere, ht, Trigger.kind]
  · refine List.nodup_flatMap.2 ⟨fun p _ => pairwise_idsWhere.imp fun h => Nat.ne_of_lt h,
      hphase.imp fun {p q} hpq i hi hi' => ?_⟩
    obtain ⟨task, ht, hp⟩ := mem_idsWhere.1 hi
    obtain ⟨task', ht', hq⟩ := mem_idsWhere.1 hi'
    rw [ht] at ht'
    cases ht'
    simp only [decide_eq_true_eq] at hp hq
    rw [← hp, ← hq] at hpq
    exact absurd hpq (lt_irrefl _)
  · simp only [List.mem_flatMap, mem_idsWhere]
    constructor
    · rintro ⟨p, -, task, ht, -⟩
      exact (List.getElem?_eq_some_iff.1 ht).1
    · intro hi
      exact ⟨s.tasks[i].desc.phase, hall _, _, List.getElem?_eq_getElem hi, by simp⟩
  · refine List.pairwise_flatMap.2 ⟨fun p _ => ?_, hphase.imp fun {p q} hpq i hi j hj => ?_⟩
    · refine pairwise_idsWhere.imp_of_mem fun {i j} hi hj hij task task' ht ht' => Or.inr ⟨?_, hij⟩
      obtain ⟨u, hu, hp⟩ := mem_idsWhere.1 hi
      obtain ⟨u', hu', hp'⟩ := mem_idsWhere.1 hj
      simp only at ht ht'
      rw [ht] at hu
      rw [ht'] at hu'
      cases hu
      cases hu'
      simp only [decide_eq_true_eq] at hp hp'
      rw [hp, hp']
    · intro task task' ht ht'
      obtain ⟨u, hu, hp⟩ := mem_idsWhere.1 hi
      obtain ⟨u', hu', hp'⟩ := mem_idsWhere.1 hj
      simp only at ht ht'
      rw [ht] at hu
      rw [ht'] at hu'
      cases hu
      cases hu'
      simp only [decide_eq_true_eq] at hp hp'
      exact Or.inl (hp ▸ hp' ▸ hpq)

end Lookup

/-! ### The invariant -/

section Invariant

variable {r r' : ScheduleRun} {t : Trigger} {mask : BitVec 32} {i id b : ℕ} {task : TaskRecord}
  {todo todo' : List ℕ} {held held' : ℕ → Trigger → BitVec 32} {e : ScheduleEvent}

/-- Every invocation carried exactly what was undelivered when it began. -/
def CarriesUndelivered (r : ScheduleRun) : Prop :=
  ∀ l₁ i context returned l₂, r.log = l₁ ++ .invoked i context returned :: l₂ →
    ∃ task, r.schedule.tasks[i]? = some task ∧ ∀ t b, (context.carried t).getLsbD b = true ↔
      (task.triggerMask t).getLsbD b = true ∧ Undelivered t i b l₁

/-- **What holds between the turns of a run.**  The tasks of `todo` still have a turn in the
current tick, and `held` are the bits an invocation in progress will put back. -/
structure ScheduleInv (todo : List ℕ) (held : ℕ → Trigger → BitVec 32) (r : ScheduleRun) :
    Prop where
  /-- A sealed schedule is indexed. -/
  indexed : r.schedule.isSealed = true → Indexed r.schedule
  /-- The log names the registered tasks. -/
  added : ∀ i, .added i ∈ r.log ↔ i < r.schedule.tasks.length
  /-- Pending bits are the undelivered ones. -/
  pending : ∀ i task t b, r.schedule.tasks[i]? = some task →
    (task.triggerMask t).getLsbD b = true →
    ((task.pending t ||| held i t).getLsbD b = true ↔ Undelivered t i b r.log)
  /-- Invocations carried the undelivered bits. -/
  carried : CarriesUndelivered r
  /-- Periodic tasks count the ticks. -/
  period : ∀ i task, r.schedule.tasks[i]? = some task →
    Countdown (r.ticks - if i ∈ todo then 1 else 0) task
  /-- No tick runs before sealing. -/
  ticks_eq : r.schedule.isSealed = false → r.ticks = 0

/-- No bit is held between operations. -/
def noneHeld : ℕ → Trigger → BitVec 32 := fun _ _ => 0

namespace ScheduleInv

theorem empty : ScheduleInv [] noneHeld {} := by
  refine ⟨fun h => ?_, fun i => by simp, fun i task t b h => by simp at h, ?_,
    fun i task h => by simp at h, fun _ => rfl⟩
  · cases h
  · intro l₁ i context returned l₂ h
    simp at h

/-- A change of the tasks' state and an event leave the invariant to be checked task by task. -/
theorem update (I : ScheduleInv todo held r) (hsame : SameTasks r.schedule r'.schedule)
    {l : List ScheduleEvent} (hlog : r'.log = r.log ++ l) (hadd : ∀ i, .added i ∉ l)
    (hcarried : CarriesUndelivered r')
    (htask : ∀ i task task', r.schedule.tasks[i]? = some task →
      r'.schedule.tasks[i]? = some task' →
      (∀ t b, (task.triggerMask t).getLsbD b = true →
        ((task.pending t ||| held i t).getLsbD b = true ↔ Undelivered t i b r.log) →
        ((task'.pending t ||| held' i t).getLsbD b = true ↔ Undelivered t i b r'.log)) ∧
      (Countdown (r.ticks - if i ∈ todo then 1 else 0) task →
        Countdown (r'.ticks - if i ∈ todo' then 1 else 0) task'))
    (hticks : r'.schedule.isSealed = false → r'.ticks = 0) : ScheduleInv todo' held' r' := by
  refine ⟨fun h => (I.indexed (hsame.isSealed ▸ h)).of_sameTasks hsame, fun i => ?_,
    fun i task' t b ht' hb => ?_, hcarried, fun i task' ht' => ?_, hticks⟩
  · rw [hlog, List.mem_append, hsame.length_eq, ← I.added i]
    exact ⟨fun h => h.resolve_right (hadd i), Or.inl⟩
  · obtain ⟨task, ht, hd⟩ := hsame.exists_task ht'
    rw [TaskRecord.triggerMask_congr hd] at hb
    exact (htask i task task' ht ht').1 t b hb (I.pending i task t b ht hb)
  · obtain ⟨task, ht, -⟩ := hsame.exists_task ht'
    exact (htask i task task' ht ht').2 (I.period i task ht)

/-- An event that is no invocation leaves the invocations as they are. -/
theorem carried_concat (I : ScheduleInv todo held r)
    (hkeep : ∀ (i : ℕ) task, r.schedule.tasks[i]? = some task →
      ∃ task', r'.schedule.tasks[i]? = some task' ∧ task'.desc = task.desc)
    {l : List ScheduleEvent} (hlog : r'.log = r.log ++ l)
    (hl : ∀ i context returned, .invoked i context returned ∉ l) : CarriesUndelivered r' := by
  intro l₁ i context returned l₂ h
  rw [hlog] at h
  have hsplit : ∃ l₃, r.log = l₁ ++ .invoked i context returned :: l₃ := by
    rcases List.append_eq_append_iff.1 h with ⟨m, -, hm⟩ | ⟨m, hm, hm'⟩
    · exact absurd (by rw [hm]; simp) (hl i context returned)
    · cases m with
      | nil => exact absurd (by rw [← List.nil_append l, ← hm']; simp) (hl i context returned)
      | cons e m =>
        rw [List.cons_append, List.cons.injEq] at hm'
        exact ⟨m, by rw [hm, hm'.1]⟩
  obtain ⟨l₃, h₃⟩ := hsplit
  obtain ⟨task, ht, hiff⟩ := I.carried l₁ i context returned l₃ h₃
  obtain ⟨task', ht', hd⟩ := hkeep i task ht
  exact ⟨task', ht', fun t b => by rw [hiff, TaskRecord.triggerMask_congr hd]⟩

/-- Updating one task but for its description, pending bits and countdown. -/
theorem modifyTask (I : ScheduleInv todo held r) (id : ℕ) {f : TaskRecord → TaskRecord}
    (hdesc : ∀ task, (f task).desc = task.desc)
    (hpending : ∀ task t, (f task).pending t = task.pending t)
    (hticks : ∀ task, (f task).ticksUntilDue = task.ticksUntilDue) :
    ScheduleInv todo held (r.modifyTask id f) := by
  have hsame := SameTasks.modifyTask r id fun task _ => hdesc task
  have hlog : (r.modifyTask id f).log = r.log ++ [] := (List.append_nil _).symm
  refine I.update hsame hlog (by simp) (I.carried_concat (fun _ _ => hsame.exists_task') hlog (by simp))
    (fun i task task' ht ht' => ?_) fun h => I.ticks_eq h
  rw [getElem?_modifyTask, ht] at ht'
  split_ifs at ht' with h
  · obtain rfl : f task = task' := by simpa using ht'
    refine ⟨fun t b _ h => by rw [hpending]; exact h, fun h hk => ?_⟩
    rw [hdesc] at hk ⊢
    rw [hticks]
    exact h hk
  · obtain rfl : task = task' := by simpa using ht'
    exact ⟨fun t b _ h => h, fun h => h⟩

/-- **Raising bits** makes them pending for the tasks they can make due. -/
theorem raise (I : ScheduleInv todo held r) (t : Trigger) (mask : BitVec 32) :
    ScheduleInv todo held (r.raise t mask) := by
  have hsame : SameTasks r.schedule (r.raise t mask).schedule := SameTasks.notify _ t mask
  have hticks : (r.raise t mask).ticks = r.ticks := by
    simp [ScheduleRun.ticks, ScheduleRun.raise]
  refine I.update hsame (l := [.raised t mask]) rfl (by simp) (I.carried_concat (fun _ _ => hsame.exists_task') rfl (by simp))
    (fun i task task' ht ht' => ?_) fun h => hticks ▸ I.ticks_eq (hsame.isSealed ▸ h)
  rw [hticks]
  change (r.schedule.notify t mask).tasks[i]? = some task' at ht'
  rw [getElem?_notify, ht] at ht'
  have hadd : .added i ∈ r.log := (I.added i).2 (List.getElem?_eq_some_iff.1 ht).1
  refine ⟨fun t' b hb h => ?_, fun h => ?_⟩
  · have hund : Undelivered t' i b (r.raise t mask).log ↔
        (t = t' ∧ mask.getLsbD b = true) ∨ Undelivered t' i b r.log := by
      rw [ScheduleRun.raise, undelivered_concat]
      constructor
      · rintro (⟨m, he, hm, -⟩ | ⟨h, -⟩)
        · cases he
          exact Or.inl ⟨rfl, hm⟩
        · exact Or.inr h
      · rintro (⟨rfl, hm⟩ | h)
        · exact Or.inl ⟨mask, rfl, hm, hadd⟩
        · exact Or.inr ⟨h, fun _ he => nomatch he⟩
    rw [hund, ← h]
    split_ifs at ht' with hrec
    · obtain rfl : task.raise t mask = task' := by simpa using ht'
      rw [TaskRecord.pending_raise]
      by_cases htt : t' = t
      · subst htt
        simp [BitVec.getLsbD_or, or_comm, or_left_comm]
      · simp [htt, Ne.symm htt]
    · obtain rfl : task = task' := by simpa using ht'
      have htt : t ≠ t' := by
        rintro rfl
        refine hrec fun hs => ((I.indexed hs).mem_taskIds t i task ht).2 ?_
        exact TaskRecord.kind_of_triggerMask hb
      simp [htt]
  · split_ifs at ht'
    · obtain rfl : task.raise t mask = task' := by simpa using ht'
      intro hk
      rw [TaskRecord.raise_desc] at hk ⊢
      rw [TaskRecord.raise_ticksUntilDue]
      exact h hk
    · obtain rfl : task = task' := by simpa using ht'
      exact h

/-- **Calls keep the invariant.** -/
theorem call (I : ScheduleInv todo held r) {c : ScheduleCall} (h : r.call c = some r') :
    ScheduleInv todo held r' := by
  cases c with
  | notifyDirty mask =>
    cases h
    exact I.raise .dirty mask
  | notifyEvents mask =>
    cases h
    exact I.raise .event mask
  | requestRun id =>
    obtain ⟨s, hs, rfl⟩ := Option.map_eq_some_iff.1 h
    unfold Schedule.requestRun at hs
    split_ifs at hs
    cases hs
    exact I.modifyTask id (fun _ => rfl) (fun _ t => by cases t <;> rfl) fun _ => rfl
  | setEnabled id enabled =>
    obtain ⟨s, hs, rfl⟩ := Option.map_eq_some_iff.1 h
    unfold Schedule.setEnabled at hs
    split_ifs at hs
    cases hs
    exact I.modifyTask id (fun _ => rfl) (fun _ t => by cases t <;> rfl) fun _ => rfl

theorem calls {cs : List ScheduleCall} (I : ScheduleInv todo held r)
    (h : r.calls cs = some r') : ScheduleInv todo held r' := by
  induction cs generalizing r with
  | nil =>
    cases h
    exact I
  | cons c cs ih =>
    rw [ScheduleRun.calls] at h
    split at h
    · cases h
    · rename_i r₁ h₁
      exact ih (I.call h₁) h

/-- The bookkeeping of a turn advances the countdown. -/
theorem checkDue (I : ScheduleInv (id :: todo) held r) (hid : id ∉ todo) (hticks : 0 < r.ticks)
    (ht : r.schedule.tasks[id]? = some task) :
    ScheduleInv todo held (r.modifyTask id fun _ => task.checkDue.task) := by
  have hcheck := checkDue_spec task
  have hsame := SameTasks.modifyTask r id (f := fun _ => task.checkDue.task) fun task' ht' => by
    rw [ht] at ht'
    cases ht'
    exact hcheck.desc
  have hlog : (r.modifyTask id fun _ => task.checkDue.task).log = r.log ++ [] :=
    (List.append_nil _).symm
  refine I.update hsame hlog (by simp) (I.carried_concat (fun _ _ => hsame.exists_task') hlog (by simp))
    (fun i u u' hu hu' => ?_) fun h => I.ticks_eq h
  rw [getElem?_modifyTask, hu] at hu'
  change _ ∧ (_ → Countdown (r.ticks - _) u')
  split_ifs at hu' with h
  · subst h
    rw [ht] at hu
    cases hu
    obtain rfl : task.checkDue.task = u' := by simpa using hu'
    refine ⟨fun t b _ h => by rw [hcheck.pending]; exact h, fun h => ?_⟩
    have := hcheck.countdown _ h
    simp only [List.mem_cons, true_or, if_true, hid, if_false] at this ⊢
    rwa [Nat.sub_add_cancel hticks] at this
  · obtain rfl : u = u' := by simpa using hu'
    refine ⟨fun t b _ h => h, fun hc => ?_⟩
    simpa [Ne.symm h] using hc

/-- The bits that an invocation puts back if it throws. -/
def heldBy (id : ℕ) (d : DueCheck) (returned : Bool) : ℕ → Trigger → BitVec 32 :=
  fun i t => if i = id ∧ returned = false then d.fired t else 0

/-- **An invocation takes the undelivered bits with it.** -/
theorem invoke (I : ScheduleInv todo noneHeld r) (hcheck : CheckDue task task.checkDue)
    (ht : r.schedule.tasks[id]? = some task.checkDue.task) (tick : ℕ) (returned : Bool) :
    ScheduleInv todo (heldBy id task.checkDue returned)
      { r.modifyTask id fun _ => task.checkDue.consumed with
        log := r.log ++ [.invoked id (task.checkDue.context tick) returned] } := by
  have hsame := SameTasks.modifyTask r id (f := fun _ => task.checkDue.consumed)
    fun task' ht' => by
      rw [ht] at ht'
      cases ht'
      rfl
  have hfired : ∀ t b, (task.checkDue.fired t).getLsbD b = true ↔
      (task.triggerMask t).getLsbD b = true ∧ Undelivered t id b r.log := fun t b => by
    rw [hcheck.fired]
    refine and_congr_right fun hb => ?_
    have := I.pending id _ t b ht (by rwa [TaskRecord.triggerMask_congr hcheck.desc])
    simpa [noneHeld, hcheck.pending] using this
  have hticks : (r.log ++ [ScheduleEvent.invoked id (task.checkDue.context tick) returned]).count
      ScheduleEvent.ticked = r.ticks := by simp [ScheduleRun.ticks]
  refine I.update (l := [.invoked id (task.checkDue.context tick) returned]) hsame rfl (by simp) ?_
    (fun i u u' hu hu' => ?_) fun h => hticks.trans (I.ticks_eq h)
  · intro l₁ i context returned' l₂ h
    change r.log ++ [_] = _ at h
    rcases List.eq_nil_or_concat l₂ with rfl | ⟨l₂, e, rfl⟩
    · obtain ⟨rfl, he⟩ := List.append_inj' h rfl
      simp only [List.cons.injEq, ScheduleEvent.invoked.injEq, and_true] at he
      obtain ⟨rfl, rfl, rfl⟩ := he
      obtain ⟨u, hu, hd⟩ := hsame.exists_task' ht
      refine ⟨u, hu, fun t b => ?_⟩
      rw [DueCheck.context_carried, hfired, TaskRecord.triggerMask_congr (hd.trans hcheck.desc)]
    · rw [List.concat_eq_append, ← List.cons_append, ← List.append_assoc] at h
      obtain ⟨h, -⟩ := List.append_inj' h rfl
      obtain ⟨u, hu, hiff⟩ := I.carried _ _ _ _ _ h
      obtain ⟨u', hu', hd⟩ := hsame.exists_task' hu
      exact ⟨u', hu', fun t b => by rw [hiff, TaskRecord.triggerMask_congr hd]⟩
  · change (r.modifyTask id _).schedule.tasks[i]? = _ at hu'
    rw [getElem?_modifyTask, hu] at hu'
    have hcount {u : TaskRecord} (h : Countdown (r.ticks - if i ∈ todo then 1 else 0) u) :
        Countdown ((r.log ++ [ScheduleEvent.invoked id (task.checkDue.context tick)
          returned]).count ScheduleEvent.ticked - if i ∈ todo then 1 else 0) u := by
      rwa [hticks]
    have hund (t b) : Undelivered t i b (r.log ++
        [ScheduleEvent.invoked id (task.checkDue.context tick) returned]) ↔
        Undelivered t i b r.log ∧
          ¬ (id = i ∧ returned = true ∧ (task.checkDue.fired t).getLsbD b = true) := by
      rw [undelivered_concat]
      constructor
      · rintro (⟨mask, he, -⟩ | ⟨h, hc⟩)
        · cases he
        · refine ⟨h, ?_⟩
          rintro ⟨rfl, rfl, hf⟩
          have := hc _ rfl
          rw [DueCheck.context_carried, hf] at this
          cases this
      · rintro ⟨h, hc⟩
        refine Or.inr ⟨h, fun context he => ?_⟩
        cases he
        rw [DueCheck.context_carried]
        exact Bool.eq_false_iff.2 fun hf => hc ⟨rfl, rfl, hf⟩
    split_ifs at hu' with hi
    · subst hi
      rw [ht] at hu
      cases hu
      obtain rfl : task.checkDue.consumed = u' := by simpa using hu'
      refine ⟨fun t b hb h => ?_, fun h => hcount h⟩
      change _ ↔ Undelivered t id b (r.log ++ [_])
      rw [TaskRecord.triggerMask_congr hcheck.desc] at hb
      have hf := hfired t b
      have hpend : task.checkDue.consumed.pending t =
          task.checkDue.task.pending t &&& ~~~task.checkDue.fired t := by cases t <;> rfl
      simp only [hb, true_and] at hf
      simp only [noneHeld, BitVec.ofNat_eq_ofNat, BitVec.or_zero] at h
      have hlt : (task.checkDue.task.pending t).getLsbD b = true → b < 32 := BitVec.lt_of_getLsbD
      rw [hund, ← hf, hpend, BitVec.getLsbD_or, BitVec.getLsbD_and, BitVec.getLsbD_not]
      rw [← hf] at h
      cases returned <;> cases hx : (task.checkDue.fired t).getLsbD b <;>
        simp_all [heldBy]
    · obtain rfl : u = u' := by simpa using hu'
      refine ⟨fun t b _ h => ?_, fun h => hcount h⟩
      change _ ↔ Undelivered t i b (r.log ++ [_])
      rw [hund]
      simpa [heldBy, noneHeld, hi, Ne.symm hi] using h

/-- **A throw puts back what the invocation took.** -/
theorem restore {d : DueCheck} (I : ScheduleInv todo (heldBy id d false) r) :
    ScheduleInv todo noneHeld (r.modifyTask id d.restored) := by
  have hsame := SameTasks.modifyTask r id (f := d.restored) fun _ _ => rfl
  have hlog : (r.modifyTask id d.restored).log = r.log ++ [] := (List.append_nil _).symm
  refine I.update hsame hlog (by simp) (I.carried_concat (fun _ _ => hsame.exists_task') hlog (by simp))
    (fun i u u' hu hu' => ?_) fun h => I.ticks_eq h
  rw [getElem?_modifyTask, hu] at hu'
  split_ifs at hu' with h
  · obtain rfl : d.restored u = u' := by simpa using hu'
    have hpend (t) : (d.restored u).pending t = u.pending t ||| d.fired t := by cases t <;> rfl
    refine ⟨fun t b _ hb => ?_, fun hc => hc⟩
    rw [hpend]
    simpa [heldBy, noneHeld, ← h] using hb
  · obtain rfl : u = u' := by simpa using hu'
    refine ⟨fun t b _ hb => ?_, fun hc => hc⟩
    simpa [heldBy, noneHeld, Ne.symm h] using hb

theorem heldBy_true (id : ℕ) (d : DueCheck) : heldBy id d true = noneHeld := by
  funext i t
  simp [heldBy, noneHeld]

end ScheduleInv

end Invariant

/-! ### Turns -/

section Turns

variable {r r' r'' : ScheduleRun} {st st' : TickState} {todo : List ℕ} {id : ℕ}
  {task : TaskRecord} {t : Trigger} {mask : BitVec 32} {tick : ℕ}
  {body : ScheduleTaskContext → TaskBehaviour}

/-- The tasks stay, up to their state, and only raised bits are observed. -/
structure OnlyRaises (r r' : ScheduleRun) : Prop where
  /-- The tasks stay. -/
  same : SameTasks r.schedule r'.schedule
  /-- Bits are raised. -/
  log : ∃ l, r'.log = r.log ++ l ∧ ∀ e ∈ l, ∃ t mask, e = ScheduleEvent.raised t mask

namespace OnlyRaises

theorem refl (r : ScheduleRun) : OnlyRaises r r :=
  ⟨.refl _, [], (List.append_nil _).symm, fun _ h => nomatch h⟩

theorem trans (h : OnlyRaises r r') (h' : OnlyRaises r' r'') : OnlyRaises r r'' := by
  obtain ⟨l, hl, hr⟩ := h.log
  obtain ⟨l', hl', hr'⟩ := h'.log
  refine ⟨h.same.trans h'.same, l ++ l', by rw [hl', hl, List.append_assoc], fun e he => ?_⟩
  exact (List.mem_append.1 he).elim (hr e) (hr' e)

theorem modifyTask (r : ScheduleRun) (id : ℕ) {f : TaskRecord → TaskRecord}
    (hf : ∀ task, (f task).desc = task.desc) : OnlyRaises r (r.modifyTask id f) :=
  ⟨.modifyTask r id fun task _ => hf task, [], (List.append_nil _).symm, fun _ h => nomatch h⟩

theorem raise (r : ScheduleRun) (t : Trigger) (mask : BitVec 32) : OnlyRaises r (r.raise t mask) :=
  ⟨.notify _ t mask, [.raised t mask], rfl, fun _ he => ⟨t, mask, List.mem_singleton.1 he⟩⟩

theorem call {c : ScheduleCall} (h : r.call c = some r') : OnlyRaises r r' := by
  cases c with
  | notifyDirty mask =>
    cases h
    exact raise r .dirty mask
  | notifyEvents mask =>
    cases h
    exact raise r .event mask
  | requestRun id =>
    obtain ⟨s, hs, rfl⟩ := Option.map_eq_some_iff.1 h
    unfold Schedule.requestRun at hs
    split_ifs at hs
    cases hs
    exact modifyTask r id fun _ => rfl
  | setEnabled id enabled =>
    obtain ⟨s, hs, rfl⟩ := Option.map_eq_some_iff.1 h
    unfold Schedule.setEnabled at hs
    split_ifs at hs
    cases hs
    exact modifyTask r id fun _ => rfl

theorem calls {cs : List ScheduleCall} (h : r.calls cs = some r') : OnlyRaises r r' := by
  induction cs generalizing r with
  | nil =>
    cases h
    exact refl _
  | cons c cs ih =>
    rw [ScheduleRun.calls] at h
    split at h
    · cases h
    · rename_i r₁ h₁
      exact (call h₁).trans (ih h)

theorem mergeResult (hs : r.schedule.isSealed = true) :
    r.mergeResult t mask = (if mask ≠ 0 then r.raise t mask else r) := by
  simp only [ScheduleRun.mergeResult, ScheduleRun.raise, Schedule.notify, hs, if_true]

theorem ticks (h : OnlyRaises r r') : r'.ticks = r.ticks := by
  obtain ⟨l, hl, hr⟩ := h.log
  have : l.count .ticked = 0 := List.count_eq_zero.2 fun he => by
    obtain ⟨_, _, hne⟩ := hr _ he
    cases hne
  rw [ScheduleRun.ticks, ScheduleRun.ticks, hl, List.count_append, this, Nat.add_zero]

end OnlyRaises

/-- Merging the bits of a result is raising them. -/
theorem ScheduleInv.mergeResult (I : ScheduleInv todo noneHeld r)
    (hs : r.schedule.isSealed = true) (t : Trigger) (mask : BitVec 32) :
    ScheduleInv todo noneHeld (r.mergeResult t mask) ∧ OnlyRaises r (r.mergeResult t mask) := by
  rw [OnlyRaises.mergeResult hs]
  split_ifs
  · exact ⟨I.raise t mask, .raise r t mask⟩
  · exact ⟨I, .refl r⟩

/-- The end of an invocation raises the bits of its result. -/
theorem finishTask_spec {d : DueCheck} {result : ScheduleTaskResult}
    (h : finishTask st id task d result r = some st') (I : ScheduleInv todo noneHeld r)
    (hs : r.schedule.isSealed = true) :
    ScheduleInv todo noneHeld st'.run ∧ OnlyRaises r st'.run ∧ st'.threw = st.threw ∧
      st'.stats.tick = st.stats.tick := by
  unfold finishTask at h
  simp only at h
  split_ifs at h
  obtain rfl := Option.some.inj h
  set f : TaskRecord → TaskRecord := fun u =>
    { u with inProgress := decide (task.desc.cadence.kind = .background) && result.moreWork }
  have I₁ : ScheduleInv todo noneHeld (r.modifyTask id f) :=
    I.modifyTask id (fun _ => rfl) (fun _ t => by cases t <;> rfl) fun _ => rfl
  have h₁ := OnlyRaises.modifyTask r id (f := f) fun _ => rfl
  obtain ⟨I₂, h₂⟩ := I₁.mergeResult hs .dirty result.dirtyMask
  obtain ⟨I₃, h₃⟩ := I₂.mergeResult (h₂.same.isSealed.trans hs) .event result.eventMask
  exact ⟨I₃.modifyTask id (fun _ => rfl) (fun _ t => by cases t <;> rfl) fun _ => rfl,
    h₁.trans (h₂.trans (h₃.trans (OnlyRaises.modifyTask _ id fun _ => rfl))), rfl, rfl⟩

/-- The task is due: its period ends, it reads bits that were raised for it, or it was asked to
run. -/
def TaskRecord.Due (task : TaskRecord) (id : ℕ) (log : List ScheduleEvent) : Prop :=
  task.runRequested = true ∨
    match task.desc.cadence.kind with
    | .everyTick => True
    | .everyN => task.desc.cadence.everyN ∣ log.count .ticked
    | .onDirty | .onEvent =>
      ∃ t b, (task.triggerMask t).getLsbD b = true ∧ Undelivered t id b log
    | .background => task.inProgress = true
    | .manual => False

/-- **The turn of a task.**  A due task is invoked, with all that is undelivered to it, unless it
is disabled. -/
structure Turn (id : ℕ) (st st' : TickState) : Prop where
  /-- The tasks stay. -/
  same : SameTasks st.run.schedule st'.run.schedule
  /-- The tick stays. -/
  tick : st'.stats.tick = st.stats.tick
  /-- The task at its turn. -/
  task : ∃ task, st.run.schedule.tasks[id]? = some task ∧
    ((task.enabled = true ∧ task.Due id st.run.log ∧ ∃ context returned l,
        st'.run.log = st.run.log ++ .invoked id context returned :: l ∧
        (∀ e ∈ l, ∃ t mask, e = .raised t mask) ∧
        (∀ t b, (context.carried t).getLsbD b = true ↔
          (task.triggerMask t).getLsbD b = true ∧ Undelivered t id b st.run.log) ∧
        st'.threw = !returned) ∨
      (¬ (task.enabled = true ∧ task.Due id st.run.log) ∧ st'.run.log = st.run.log ∧
        st'.threw = false))

/-- What makes the task due is what the cadence decides. -/
theorem due_iff (hcount : Countdown (r.ticks - 1) task) (hticks : 0 < r.ticks)
    (hfired : ∀ t b, (task.checkDue.fired t).getLsbD b = true ↔
      (task.triggerMask t).getLsbD b = true ∧ Undelivered t id b r.log) :
    task.checkDue.due = true ↔ task.Due id r.log := by
  have hne (x : BitVec 32) : x ≠ 0 ↔ ∃ b, x.getLsbD b = true := by
    constructor
    · intro h
      by_contra hb
      push Not at hb
      exact h (BitVec.eq_of_getLsbD_eq fun i _ => by simpa using hb i)
    · rintro ⟨b, hb⟩ rfl
      simp at hb
  unfold TaskRecord.Due
  have hkind (t : Trigger) (b : ℕ) (h : (task.triggerMask t).getLsbD b = true) :=
    TaskRecord.kind_of_triggerMask h
  cases hk : task.desc.cadence.kind with
  | everyTick => simp [TaskRecord.checkDue, hk]
  | everyN =>
    obtain ⟨hn, ht⟩ := hcount hk
    have := (countdown_succ _ (r.ticks - 1) hn).1
    rw [Nat.sub_add_cancel hticks] at this
    simp only [TaskRecord.checkDue, hk, ht, Bool.or_eq_true, decide_eq_true_eq, this]
    exact or_comm
  | onDirty =>
    have hcheck : task.checkDue.due = true ↔
        task.checkDue.fired .dirty ≠ 0 ∨ task.runRequested = true := by
      simp [TaskRecord.checkDue, hk, DueCheck.fired]
    rw [hcheck, hne, or_comm]
    refine or_congr_right ⟨fun ⟨b, hb⟩ => ⟨.dirty, b, (hfired _ _).1 hb⟩, fun ⟨t, b, hb, hu⟩ => ?_⟩
    have := hkind t b hb
    rw [hk] at this
    cases t with
    | dirty => exact ⟨b, (hfired _ _).2 ⟨hb, hu⟩⟩
    | event => cases this
  | onEvent =>
    have hcheck : task.checkDue.due = true ↔
        task.checkDue.fired .event ≠ 0 ∨ task.runRequested = true := by
      simp [TaskRecord.checkDue, hk, DueCheck.fired]
    rw [hcheck, hne, or_comm]
    refine or_congr_right ⟨fun ⟨b, hb⟩ => ⟨.event, b, (hfired _ _).1 hb⟩, fun ⟨t, b, hb, hu⟩ => ?_⟩
    have := hkind t b hb
    rw [hk] at this
    cases t with
    | event => exact ⟨b, (hfired _ _).2 ⟨hb, hu⟩⟩
    | dirty => cases this
  | background => simp [TaskRecord.checkDue, hk, or_comm]
  | manual => simp [TaskRecord.checkDue, hk]

/-- An invocation keeps the invariant, whether it returns or throws. -/
theorem invokeTask_spec {d : DueCheck} (h : invokeTask body st id task d = some st')
    (I : ScheduleInv todo noneHeld st.run) (hd : d = task.checkDue)
    (hs : st.run.schedule.isSealed = true) (hthrew : st.threw = false)
    (ht : st.run.schedule.tasks[id]? = some d.task) :
    ScheduleInv todo noneHeld st'.run ∧ SameTasks st.run.schedule st'.run.schedule ∧
      st'.stats.tick = st.stats.tick ∧ ∃ returned l,
        st'.run.log = st.run.log ++ .invoked id (d.context st.stats.tick) returned :: l ∧
        (∀ e ∈ l, ∃ t mask, e = .raised t mask) ∧ st'.threw = !returned := by
  subst hd
  have hcheck := checkDue_spec task
  unfold invokeTask at h
  simp only at h
  generalize (body (task.checkDue.context st.stats.tick)).result = result at h
  set r : ScheduleRun := { st.run.modifyTask id fun _ => task.checkDue.consumed with
    log := st.run.log ++
      [.invoked id (task.checkDue.context st.stats.tick) result.isSome] } with hr
  have I₁ : ScheduleInv todo (ScheduleInv.heldBy id task.checkDue result.isSome) r :=
    I.invoke hcheck ht _ _
  have hsame : SameTasks st.run.schedule r.schedule :=
    SameTasks.modifyTask st.run id fun u hu => by
      rw [ht] at hu
      cases hu
      rfl
  have hlog {r' : ScheduleRun} (h' : OnlyRaises r r') : ∃ l, r'.log = st.run.log ++
      .invoked id (task.checkDue.context st.stats.tick) result.isSome :: l ∧
      ∀ e ∈ l, ∃ t mask, e = .raised t mask := by
    obtain ⟨l, hl, hl'⟩ := h'.log
    exact ⟨l, by rw [hl, hr]; simp, hl'⟩
  split at h
  · cases h
  · rename_i r' hcalls
    have h₂ := OnlyRaises.calls hcalls
    have I₂ := I₁.calls hcalls
    cases result with
    | none =>
      obtain rfl := Option.some.inj h
      have h₃ := h₂.trans (OnlyRaises.modifyTask r' id (f := task.checkDue.restored) fun _ => rfl)
      obtain ⟨l, hl, hl'⟩ := hlog h₃
      exact ⟨I₂.restore, hsame.trans h₃.same, rfl, false, l, hl, hl', rfl⟩
    | some result =>
      simp only [Option.isSome_some, ScheduleInv.heldBy_true] at I₂
      obtain ⟨I₃, h₃, hth, htick⟩ := finishTask_spec h I₂
        ((hsame.trans h₂.same).isSealed.trans hs)
      obtain ⟨l, hl, hl'⟩ := hlog (h₂.trans h₃)
      exact ⟨I₃, (hsame.trans h₂.same).trans h₃.same, htick, true, l, hl, hl',
        hth.trans hthrew⟩

/-- **One turn** keeps the invariant. -/
theorem runTaskIfDue_spec (h : runTaskIfDue body st id = some st')
    (I : ScheduleInv (id :: todo) noneHeld st.run) (hid : id ∉ todo)
    (hs : st.run.schedule.isSealed = true) (hticks : 0 < st.run.ticks)
    (hthrew : st.threw = false) : ScheduleInv todo noneHeld st'.run ∧ Turn id st st' := by
  unfold runTaskIfDue at h
  split at h
  · cases h
  rename_i task ht
  simp only at h
  have hcheck := checkDue_spec task
  have I₁ := I.checkDue hid hticks ht
  set r := st.run.modifyTask id fun _ => task.checkDue.task with hr
  have hsame : SameTasks st.run.schedule r.schedule :=
    SameTasks.modifyTask st.run id fun u hu => by
      rw [ht] at hu
      cases hu
      exact hcheck.desc
  have hfired : ∀ t b, (task.checkDue.fired t).getLsbD b = true ↔
      (task.triggerMask t).getLsbD b = true ∧ Undelivered t id b st.run.log := fun t b => by
    rw [hcheck.fired]
    exact and_congr_right fun hb => by simpa [noneHeld] using I.pending id task t b ht hb
  have hcount : Countdown (st.run.ticks - 1) task := by simpa using I.period id task ht
  have hdue := due_iff hcount hticks hfired
  split_ifs at h with hd he
  · obtain rfl := Option.some.inj h
    refine ⟨I₁, hsame, rfl, task, ht, Or.inr ⟨fun h => ?_, rfl, hthrew⟩⟩
    simp [hdue.2 h.2] at hd
  · obtain rfl := Option.some.inj h
    refine ⟨I₁.modifyTask id (fun _ => rfl) (fun _ t => by cases t <;> rfl) fun _ => rfl,
      hsame.trans (SameTasks.modifyTask r id fun _ _ => rfl), rfl, task, ht,
      Or.inr ⟨fun h => ?_, rfl, hthrew⟩⟩
    simp [h.1] at he
  · have hget : r.schedule.tasks[id]? = some task.checkDue.task := by
      rw [hr, getElem?_modifyTask, ht]
      simp
    obtain ⟨I₂, h₂, htick, returned, l, hl, hl', hth⟩ :=
      invokeTask_spec h I₁ rfl (hsame.isSealed.trans hs) hthrew hget
    refine ⟨I₂, hsame.trans h₂, htick, task, ht, Or.inl ⟨by simpa using he,
      hdue.1 (by simpa using hd), _, returned, l, hl, hl', fun t b => ?_, hth⟩⟩
    rw [DueCheck.context_carried]
    exact hfired t b

end Turns

/-! ### Ticks -/

section Ticks

variable {r r' : ScheduleRun} {st st' st'' fin : TickState} {todo ids pre post : List ℕ} {i id : ℕ}
  {tick : ℕ} {body : ℕ → ScheduleTaskContext → TaskBehaviour}

/-- The events of a part of a tick: the turns of some tasks. -/
def Invokes (ids : List ℕ) (st st' : TickState) : Prop :=
  ∃ l, st'.run.log = st.run.log ++ l ∧ .ticked ∉ l ∧
    (∀ i context returned, .invoked i context returned ∈ l → i ∈ ids) ∧
    (st'.threw = true ↔ st.threw = true ∨ ∃ i context, .invoked i context false ∈ l)

namespace Invokes

theorem refl (st : TickState) : Invokes [] st st :=
  ⟨[], (List.append_nil _).symm, by simp, by simp, by simp⟩

theorem cons (h : Invokes [id] st st') (h' : Invokes ids st' st'') :
    Invokes (id :: ids) st st'' := by
  obtain ⟨l, hl, ht, hi, hth⟩ := h
  obtain ⟨l', hl', ht', hi', hth'⟩ := h'
  refine ⟨l ++ l', by rw [hl', hl, List.append_assoc], by simp [ht, ht'],
    fun i context returned he => ?_, ?_⟩
  · rcases List.mem_append.1 he with he | he
    · obtain rfl := List.mem_singleton.1 (hi i context returned he)
      exact List.mem_cons_self
    · exact List.mem_cons_of_mem _ (hi' i context returned he)
  · rw [hth', hth]
    simp only [List.mem_append, exists_or, or_assoc]

theorem ticks (h : Invokes ids st st') : st'.run.ticks = st.run.ticks := by
  obtain ⟨l, hl, ht, -⟩ := h
  rw [ScheduleRun.ticks, ScheduleRun.ticks, hl, List.count_append, List.count_eq_zero.2 ht,
    Nat.add_zero]

end Invokes

theorem Turn.invokes (h : Turn id st st') (hthrew : st.threw = false) : Invokes [id] st st' := by
  obtain ⟨task, -, ⟨-, -, context, returned, l, hl, hr, -, hth⟩ | ⟨-, hl, hth⟩⟩ := h.task
  · refine ⟨.invoked id context returned :: l, hl, fun he => ?_, fun i c b he => ?_, ?_⟩
    · rcases List.mem_cons.1 he with he | he
      · cases he
      · obtain ⟨_, _, he⟩ := hr _ he
        cases he
    · rcases List.mem_cons.1 he with he | he
      · cases he
        exact List.mem_singleton_self _
      · obtain ⟨_, _, he⟩ := hr _ he
        cases he
    · rw [hth, hthrew]
      constructor
      · intro h
        obtain rfl : returned = false := by simpa using h
        exact Or.inr ⟨id, context, List.mem_cons_self⟩
      · rintro (h | ⟨i, c, he⟩)
        · cases h
        · rcases List.mem_cons.1 he with he | he
          · cases he
            rfl
          · obtain ⟨_, _, he⟩ := hr _ he
            cases he
  · exact ⟨[], by rw [hl, List.append_nil], by simp, by simp, by simp [hth, hthrew]⟩

namespace ScheduleInv

/-- A task whose turn was not reached counts the tick all the same. -/
theorem abort (I : ScheduleInv (id :: todo) noneHeld r) (hid : id ∉ todo) (hticks : 0 < r.ticks) :
    ScheduleInv todo noneHeld (r.modifyTask id TaskRecord.advanceAborted) := by
  have hdesc (task : TaskRecord) : task.advanceAborted.desc = task.desc := by
    unfold TaskRecord.advanceAborted
    split_ifs <;> rfl
  have hsame := SameTasks.modifyTask r id (f := TaskRecord.advanceAborted) fun task _ => hdesc task
  have hlog : (r.modifyTask id TaskRecord.advanceAborted).log = r.log ++ [] :=
    (List.append_nil _).symm
  refine I.update hsame hlog (by simp) (I.carried_concat (fun _ _ => hsame.exists_task') hlog (by simp))
    (fun i u u' hu hu' => ?_) fun h => I.ticks_eq h
  rw [getElem?_modifyTask, hu] at hu'
  change _ ∧ (_ → Countdown (r.ticks - _) u')
  split_ifs at hu' with h
  · subst h
    obtain rfl : u.advanceAborted = u' := by simpa using hu'
    refine ⟨fun t b _ h => ?_, fun h => ?_⟩
    · have : u.advanceAborted.pending t = u.pending t := by
        unfold TaskRecord.advanceAborted TaskRecord.countDown
        split_ifs <;> cases t <;> rfl
      rw [this]
      exact h
    · simp only [List.mem_cons, true_or, if_true, hid, if_false] at h ⊢
      unfold TaskRecord.advanceAborted
      split_ifs with hk
      · have := h.countDown
        rwa [Nat.sub_add_cancel hticks] at this
      · exact .of_ne hk
  · obtain rfl : u = u' := by simpa using hu'
    refine ⟨fun t b _ h => h, fun hc => ?_⟩
    simpa [Ne.symm h] using hc

/-- An aborted tick advances the countdown of every remaining task. -/
theorem aborts {rest : List ℕ} (I : ScheduleInv (ids ++ rest) noneHeld r)
    (hnodup : (ids ++ rest).Nodup) (hticks : 0 < r.ticks) :
    ScheduleInv rest noneHeld
        (ids.foldl (fun r id => r.modifyTask id TaskRecord.advanceAborted) r) ∧
      SameTasks r.schedule
        (ids.foldl (fun r id => r.modifyTask id TaskRecord.advanceAborted) r).schedule ∧
      (ids.foldl (fun r id => r.modifyTask id TaskRecord.advanceAborted) r).log = r.log := by
  induction ids generalizing r with
  | nil => exact ⟨I, .refl _, rfl⟩
  | cons id ids ih =>
    rw [List.cons_append, List.nodup_cons] at hnodup
    obtain ⟨I', hsame, hlog⟩ := ih (I.abort hnodup.1 hticks) hnodup.2 hticks
    refine ⟨I', SameTasks.trans (SameTasks.modifyTask r id fun task _ => ?_) hsame, hlog⟩
    unfold TaskRecord.advanceAborted
    split_ifs <;> rfl

end ScheduleInv

/-- **A part of a tick** keeps the invariant, whether or not a task throws in it. -/
theorem runPositions_spec {rest : List ℕ} (h : runPositions body ids st = some fin)
    (I : ScheduleInv (ids ++ rest) noneHeld st.run) (hnodup : (ids ++ rest).Nodup)
    (hs : st.run.schedule.isSealed = true) (hticks : 0 < st.run.ticks)
    (hthrew : st.threw = false) :
    ScheduleInv rest noneHeld fin.run ∧ SameTasks st.run.schedule fin.run.schedule ∧
      Invokes ids st fin := by
  induction ids generalizing st with
  | nil =>
    obtain rfl := Option.some.inj h
    exact ⟨I, .refl _, .refl _⟩
  | cons id ids ih =>
    rw [List.cons_append, List.nodup_cons] at hnodup
    rw [runPositions] at h
    split at h
    · cases h
    rename_i st₁ h₁
    obtain ⟨I₁, hturn⟩ := runTaskIfDue_spec h₁ I hnodup.1 hs hticks hthrew
    have hinv := hturn.invokes hthrew
    have hticks₁ : 0 < st₁.run.ticks := hinv.ticks ▸ hticks
    split_ifs at h with hth
    · obtain rfl := Option.some.inj h
      obtain ⟨I₂, hsame, hlog⟩ := I₁.aborts hnodup.2 hticks₁
      refine ⟨I₂, hturn.same.trans hsame, ?_⟩
      obtain ⟨l, hl, ht, hi, hthrow⟩ := hinv
      refine ⟨l, hlog.trans hl, ht, fun i c b he => ?_, hthrow⟩
      rw [List.mem_singleton.1 (hi i c b he)]
      exact List.mem_cons_self
    · obtain ⟨I₂, hsame, hinv'⟩ := ih h I₁ hnodup.2 (hturn.same.isSealed.trans hs) hticks₁
        (by simpa using hth)
      exact ⟨I₂, hturn.same.trans hsame, hinv.cons hinv'⟩

theorem log_aborts (ids : List ℕ) (r : ScheduleRun) :
    (ids.foldl (fun r id => r.modifyTask id TaskRecord.advanceAborted) r).log = r.log := by
  induction ids generalizing r with
  | nil => rfl
  | cons id ids ih => exact ih _

/-- A part of a tick is its first turns and then the others, unless one of the first throws. -/
theorem runPositions_append (h : runPositions body (pre ++ post) st = some fin)
    (hthrew : st.threw = false) :
    ∃ st₁, runPositions body pre st = some st₁ ∧
      ((st₁.threw = true ∧ fin.run.log = st₁.run.log) ∨
        (st₁.threw = false ∧ runPositions body post st₁ = some fin)) := by
  induction pre generalizing st with
  | nil => exact ⟨st, rfl, Or.inr ⟨hthrew, h⟩⟩
  | cons id pre ih =>
    rw [List.cons_append, runPositions] at h
    rw [runPositions]
    cases h₁ : runTaskIfDue (body id) st id with
    | none =>
      rw [h₁] at h
      cases h
    | some st₁ =>
      rw [h₁] at h
      simp only at h ⊢
      split_ifs at h ⊢ with hth
      · obtain rfl := Option.some.inj h
        exact ⟨_, rfl, Or.inl ⟨hth, (log_aborts _ _).trans (log_aborts _ _).symm⟩⟩
      · exact ih h (by simpa using hth)

/-- **The part of a task in a tick.**  The tick reaches the turn of the task, or an earlier task
throws. -/
def ReachesTurn (body : ℕ → ScheduleTaskContext → TaskBehaviour) (pre : List ℕ) (i : ℕ)
    (post : List ℕ) (st fin : TickState) : Prop :=
  ∃ st₁, runPositions body pre st = some st₁ ∧ Invokes pre st st₁ ∧
    ((st₁.threw = true ∧ fin.run.log = st₁.run.log) ∨
      (st₁.threw = false ∧ ∃ st₂, runTaskIfDue (body i) st₁ i = some st₂ ∧ Turn i st₁ st₂ ∧
        ∃ l, fin.run.log = st₂.run.log ++ l ∧
          ∀ j context returned, .invoked j context returned ∈ l → j ∈ post))

theorem reachesTurn (h : runPositions body (pre ++ i :: post) st = some fin)
    (I : ScheduleInv (pre ++ i :: post) noneHeld st.run) (hnodup : (pre ++ i :: post).Nodup)
    (hs : st.run.schedule.isSealed = true) (hticks : 0 < st.run.ticks)
    (hthrew : st.threw = false) : ReachesTurn body pre i post st fin := by
  obtain ⟨st₁, h₁, h₂⟩ := runPositions_append h hthrew
  obtain ⟨I₁, hsame, hinv⟩ := runPositions_spec h₁ I hnodup hs hticks hthrew
  refine ⟨st₁, h₁, hinv, h₂.imp_right fun ⟨hth, h₂⟩ => ⟨hth, ?_⟩⟩
  have hs₁ := hsame.isSealed.trans hs
  have hticks₁ : 0 < st₁.run.ticks := hinv.ticks ▸ hticks
  have hnodup₁ : (i :: post).Nodup := (List.nodup_append.1 hnodup).2.1
  obtain ⟨st₂, h₃, h₄⟩ := @runPositions_append _ _ [i] _ _ h₂ hth
  rw [runPositions] at h₃
  split at h₃
  · cases h₃
  rename_i st₃ hstep
  obtain ⟨I₃, hturn⟩ := runTaskIfDue_spec hstep I₁ (List.nodup_cons.1 hnodup₁).1 hs₁ hticks₁ hth
  refine ⟨st₃, hstep, hturn, ?_⟩
  have hlog : st₂.run.log = st₃.run.log ∧ (st₃.threw = false → st₂ = st₃) := by
    split_ifs at h₃ with hth₃
    · obtain rfl := Option.some.inj h₃
      exact ⟨log_aborts _ _, fun h => by simp [hth₃] at h⟩
    · rw [runPositions] at h₃
      obtain rfl := Option.some.inj h₃
      exact ⟨rfl, fun _ => rfl⟩
  rcases h₄ with ⟨-, h₄⟩ | ⟨hth₂, h₄⟩
  · exact ⟨[], by rw [h₄, hlog.1, List.append_nil], by simp⟩
  · have hth₃ : st₃.threw = false := by
      split_ifs at h₃ with hth₃
      · obtain rfl := Option.some.inj h₃
        exact hth₂
      · simpa using hth₃
    obtain rfl := hlog.2 hth₃
    have hticks₂ : 0 < st₂.run.ticks := (hturn.invokes hth).ticks ▸ hticks₁
    obtain ⟨-, -, l, hl, -, hi, -⟩ := @runPositions_spec _ _ _ _ [] h₄ (by simpa using I₃)
      (by simpa using (List.nodup_cons.1 hnodup₁).2) (hturn.same.isSealed.trans hs₁) hticks₂ hth₂
    exact ⟨l, hl, hi⟩

end Ticks

/-! ### Runs -/

section Runs

variable {r r' : ScheduleRun} {o : ScheduleOp} {os : List ScheduleOp}

/-- A new task has no pending bits and its countdown is at its period. -/
theorem addTask_eq_some {s s' : Schedule} {desc : ScheduleTaskDesc} (h : s.addTask desc = some s') :
    s.isSealed = false ∧ ∃ new, s' = { s with tasks := s.tasks ++ [new] } ∧
      (∀ t, new.pending t = 0) ∧ Countdown 0 new := by
  unfold Schedule.addTask at h
  by_cases h₁ : s.isSealed = true
  · rw [if_pos h₁] at h
    cases h
  by_cases h₂ : desc.cadence.kind = .everyN ∧ desc.cadence.everyN = 0
  · rw [if_neg h₁, if_pos h₂] at h
    cases h
  by_cases h₃ : desc.cadence.kind = .background ∧ desc.cadence.maxItems = 0
  · rw [if_neg h₁, if_neg h₂, if_pos h₃] at h
    cases h
  rw [if_neg h₁, if_neg h₂, if_neg h₃] at h
  obtain rfl := Option.some.inj h
  refine ⟨by simpa using h₁, _, rfl, fun t => by cases t <;> rfl, fun hk => ?_⟩
  change desc.cadence.kind = .everyN at hk
  have hn : desc.cadence.everyN ≠ 0 := fun h => h₂ ⟨hk, h⟩
  simp [hk, hn, Nat.pos_of_ne_zero hn]

namespace ScheduleInv

theorem addTask (I : ScheduleInv [] noneHeld r) {desc : ScheduleTaskDesc}
    (h : r.op (.addTask desc) = some r') : ScheduleInv [] noneHeld r' := by
  obtain ⟨s, hs, rfl⟩ := Option.map_eq_some_iff.1 h
  obtain ⟨hsealed, new, rfl, hpending, hcount⟩ := addTask_eq_some hs
  have hticks : (r.log ++ [ScheduleEvent.added r.schedule.tasks.length]).count .ticked =
    r.ticks := by simp [ScheduleRun.ticks]
  have hold (i : ℕ) (task : TaskRecord) (ht : r.schedule.tasks[i]? = some task) :
      (r.schedule.tasks ++ [new])[i]? = some task := by
    rw [List.getElem?_append_left (List.getElem?_eq_some_iff.1 ht).1, ht]
  have hnew (i : ℕ) (task : TaskRecord) (ht : (r.schedule.tasks ++ [new])[i]? = some task) :
      r.schedule.tasks[i]? = some task ∨ (i = r.schedule.tasks.length ∧ task = new) := by
    rw [List.getElem?_append] at ht
    split_ifs at ht with hlt
    · exact Or.inl ht
    · rw [List.getElem?_singleton] at ht
      split_ifs at ht with h0
      exact Or.inr ⟨by omega, (Option.some.inj ht).symm⟩
  refine ⟨fun h => ?_, fun i => ?_, fun i task t b ht hb => ?_,
    I.carried_concat (fun i task ht => ⟨task, hold i task ht, rfl⟩) rfl (by simp),
    fun i task ht => ?_, fun _ => hticks.trans (I.ticks_eq hsealed)⟩
  · rw [show Schedule.isSealed _ = r.schedule.isSealed from rfl, hsealed] at h
    cases h
  · simp only [List.mem_append, I.added, List.mem_singleton, ScheduleEvent.added.injEq,
      List.length_append, List.length_singleton]
    omega
  · rw [undelivered_concat]
    rcases hnew _ _ ht with ht | ⟨rfl, rfl⟩
    · rw [I.pending i task t b ht hb]
      exact ⟨fun h => Or.inr ⟨h, fun _ h => nomatch h⟩, fun h => h.elim
        (fun ⟨_, h, _⟩ => nomatch h) (·.1)⟩
    · rw [hpending]
      constructor
      · intro h
        simp [noneHeld] at h
      · rintro (⟨_, h, -⟩ | ⟨h, -⟩)
        · cases h
        · exact absurd ((I.added _).1 h.added_mem) (lt_irrefl _)
  · change Countdown (List.count _ _ - _) task
    rw [hticks]
    rcases hnew _ _ ht with ht | ⟨rfl, rfl⟩
    · exact I.period i task ht
    · rw [I.ticks_eq hsealed]
      exact hcount

theorem sealTasks (I : ScheduleInv [] noneHeld r) :
    ScheduleInv [] noneHeld { r with schedule := r.schedule.sealTasks } := by
  cases hs : r.schedule.isSealed with
  | true =>
    rw [Schedule.sealTasks, if_pos hs]
    exact I
  | false =>
    have htasks : r.schedule.sealTasks.tasks = r.schedule.tasks := by
      unfold Schedule.sealTasks
      split_ifs <;> rfl
    refine ⟨fun _ => indexed_sealTasks hs, fun i => ?_, fun i task t b ht => ?_, ?_,
      fun i task ht => ?_, fun _ => I.ticks_eq hs⟩
    · rw [htasks]
      exact I.added i
    · rw [htasks] at ht
      exact I.pending i task t b ht
    · exact I.carried_concat (l := []) (fun i task ht => ⟨task, htasks ▸ ht, rfl⟩)
        (List.append_nil _).symm (by simp)
    · rw [htasks] at ht
      exact I.period i task ht

/-- A tick starts with every turn to come. -/
theorem beginTick (I : ScheduleInv [] noneHeld r) (hs : r.schedule.isSealed = true) (tick : ℕ) :
    ScheduleInv r.schedule.phaseOrder noneHeld (r.beginTick tick).run := by
  have hticks : (r.log ++ [ScheduleEvent.ticked]).count .ticked = r.ticks + 1 := by
    simp [ScheduleRun.ticks]
  refine I.update (l := [.ticked]) (.refl _) rfl (by simp)
    (I.carried_concat (fun i task ht => ⟨task, ht, rfl⟩) (l := [.ticked]) rfl (by simp))
    (fun i task task' ht ht' => ?_) fun h => ?_
  · change r.schedule.tasks[i]? = some task' at ht'
    rw [ht] at ht'
    obtain rfl := Option.some.inj ht'
    refine ⟨fun t b _ h => ?_, fun h => ?_⟩
    · change _ ↔ Undelivered t i b (r.log ++ [_])
      rw [undelivered_concat, h]
      exact ⟨fun h => Or.inr ⟨h, fun _ h => nomatch h⟩, fun h => h.elim
        (fun ⟨_, h, _⟩ => nomatch h) (·.1)⟩
    · change Countdown ((r.log ++ [ScheduleEvent.ticked]).count ScheduleEvent.ticked - _) task
      have hi : i ∈ r.schedule.phaseOrder :=
        ((I.indexed hs).mem_phaseOrder i).2 (List.getElem?_eq_some_iff.1 ht).1
      rw [hticks, if_pos hi]
      simpa using h
  · change r.schedule.isSealed = false at h
    rw [hs] at h
    cases h

theorem runTick (I : ScheduleInv [] noneHeld r) {tick : ℕ}
    {body : ℕ → ScheduleTaskContext → TaskBehaviour} {fin : TickState}
    (h : r.runTick tick body = some fin) : ScheduleInv [] noneHeld fin.run := by
  unfold ScheduleRun.runTick at h
  split_ifs at h with hs
  have hidx := I.indexed hs
  exact (@runPositions_spec _ _ _ _ [] h (by simpa using I.beginTick hs tick)
    (by simpa using hidx.nodup) hs (by simp [ScheduleRun.ticks, ScheduleRun.beginTick]) rfl).1

/-- **Operations keep the invariant.** -/
theorem op (I : ScheduleInv [] noneHeld r) (h : r.op o = some r') : ScheduleInv [] noneHeld r' := by
  cases o with
  | addTask desc => exact I.addTask h
  | sealTasks =>
    obtain rfl := Option.some.inj h
    exact I.sealTasks
  | call c => exact I.call h
  | runTick tick body =>
    obtain ⟨fin, hfin, rfl⟩ := Option.map_eq_some_iff.1 h
    exact I.runTick hfin

theorem ops (I : ScheduleInv [] noneHeld r) (h : r.ops os = some r') :
    ScheduleInv [] noneHeld r' := by
  induction os generalizing r with
  | nil =>
    obtain rfl := Option.some.inj h
    exact I
  | cons o os ih =>
    rw [ScheduleRun.ops] at h
    split at h
    · cases h
    · rename_i r₁ h₁
      exact ih (I.op h₁) h

end ScheduleInv

/-- **A schedule delivers what was raised.**  After every run of operations the pending bits of a
task are the undelivered ones, and every invocation carried exactly those.  A tick takes the
tasks phase by phase, and at its turn a task is invoked exactly when it is enabled and due. -/
theorem schedule_delivers (h : ScheduleRun.ops os {} = some r) :
    CarriesUndelivered r ∧
    (∀ i task t b, r.schedule.tasks[i]? = some task → (task.triggerMask t).getLsbD b = true →
      ((task.pending t).getLsbD b = true ↔ Undelivered t i b r.log)) ∧
    ∀ tick body fin, r.runTick tick body = some fin → Indexed r.schedule ∧
      ∀ pre i post, r.schedule.phaseOrder = pre ++ i :: post →
        ReachesTurn body pre i post (r.beginTick tick) fin := by
  have I := ScheduleInv.empty.ops h
  refine ⟨I.carried, fun i task t b ht hb => ?_, fun tick body fin hfin => ?_⟩
  · simpa [noneHeld] using I.pending i task t b ht hb
  · unfold ScheduleRun.runTick at hfin
    split_ifs at hfin with hs
    have hidx := I.indexed hs
    refine ⟨hidx, fun pre i post hsplit => ?_⟩
    have I₁ := I.beginTick hs tick
    have hnodup := hidx.nodup
    rw [hsplit] at hfin I₁ hnodup
    exact reachesTurn hfin I₁ hnodup hs (by simp [ScheduleRun.ticks, ScheduleRun.beginTick]) rfl

/-- A run in which a task is notified by an earlier one. -/
def notifyingRun : List ScheduleOp :=
  [.addTask { phase := .ai, cadence := { kind := .onDirty, dirtyMask := 1 } },
    .addTask { phase := .input, cadence := { kind := .everyN, everyN := 1 } }, .sealTasks,
    .runTick 1 fun id _ => if id = 1 then { calls := [.notifyDirty 3] } else {}]

theorem schedule_delivers_notifyingRun : ∃ r, ScheduleRun.ops notifyingRun {} = some r ∧
    CarriesUndelivered r :=
  ⟨_, rfl, (@schedule_delivers _ notifyingRun rfl).1⟩

/-- **A throw before its turn takes a tick from a periodic task**: the task is enabled and due in
every tick, and is not invoked in this one. -/
theorem periodic_task_misses_aborted_tick : ∃ r,
    ScheduleRun.ops [.addTask { phase := .input }, .addTask { cadence := { kind := .everyN } },
      .sealTasks, .runTick 1 fun id _ => if id = 0 then { result := none } else {}] {} = some r ∧
    r.ticks = 1 ∧ (r.schedule.tasks[1]?).map (·.enabled) = some true ∧
    ∀ context returned, .invoked 1 context returned ∉ r.log := by
  refine ⟨_, rfl, by decide, by decide, fun context returned h => ?_⟩
  have : ∀ e ∈ ([.added 0, .added 1, .ticked, .invoked 0 { tick := 1 } false] :
      List ScheduleEvent), ∀ context returned, e ≠ .invoked 1 context returned := by
    intro e he context returned
    rintro rfl
    simp at he
  exact this _ h _ _ rfl

end Runs

end Tess
