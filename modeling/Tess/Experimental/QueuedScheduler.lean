import Tess.Diagnostics.Flow
import Tess.Lib.ChainedIndex
import Tess.Lib.RingBuffer
import Tess.Lib.ServiceLog

/-!
# The queued maintenance schedulers

`FifoScheduler` and `CoalescingScheduler` are one scheduler over a bounded ring of tasks.  The
coalescing one keeps an index of the queued tasks beside it, and an offer of a task that is queued
already is absorbed.  A drain takes one entry after another and runs its task; offers arrive
between any two steps, also from the task that runs.

* `QueuedScheduler` : the scheduler and the drain that runs, with the log of offers and runs;
* `QueuedScheduler.step` : one atomic step: an offer, or what a drain does while it holds the lock
  of the queue;
* `QueuedScheduler.Valid` : **the invariant**: ring, index and log fit together;
* `QueuedScheduler.valid_run` : every run keeps it.
-/

namespace Tess

open Chains Rings Service

/-- A maintenance task, by its address. -/
abbrev MaintenanceTask := BitVec 64

/-- Scheduler observations. -/
structure MaintenanceMetrics where
  /-- Offers. -/
  scheduleCalls : BitVec 64 := 0
  /-- Offers of tasks that were pending. -/
  coalescedCalls : BitVec 64 := 0
  /-- Task runs. -/
  executions : BitVec 64 := 0
  /-- Offers and registrations that found no room. -/
  capacityFailures : BitVec 64 := 0
  deriving DecidableEq, Repr

/-- The hash of both address tables. -/
def hashAddress (task : MaintenanceTask) : BitVec 64 :=
  let value := task >>> 3
  (value ^^^ (value >>> 17)) * 0x9e3779b97f4a7c15

/-- `home`: the bucket of a task. -/
def taskHome (buckets : ℕ) (task : MaintenanceTask) : ℕ := (hashAddress task).toNat % buckets

/-- `bucket_count` and `index_capacity`: twice the capacity, unless the product overflows. -/
def bucketCount (capacity : ℕ) : ℕ :=
  if capacity = 0 then 0
  else if capacity > (2 ^ 64 - 1) - capacity then capacity else capacity * 2

/-- One queued entry. -/
structure QueuedMaintenanceEntry where
  /-- Its task. -/
  task : MaintenanceTask
  /-- The tick at its admission. -/
  admittedTick : BitVec 64
  /-- Its cell in the ring. -/
  queueSlot : ℕ
  deriving DecidableEq, Repr

/-- How a drain ends. -/
inductive DrainExit
  | returned (result : Bool)
  | threw
  deriving DecidableEq, Repr

/-- Where a drain stands; `bounded` tells `run_some` from `flush`. -/
inductive QueuedDrain
  /-- No drain runs. -/
  | idle
  /-- In front of the next entry. -/
  | looping (bounded : Bool) (budget : BitVec 64)
  /-- With an entry taken, in front of its task. -/
  | taken (bounded : Bool) (entry : QueuedMaintenanceEntry) (budget : BitVec 64)
  /-- Its task runs; the budget is the one before the run. -/
  | running (bounded : Bool) (entry : QueuedMaintenanceEntry) (before : BitVec 64)
  deriving DecidableEq, Repr

/-- `detail::QueuedScheduler<Coalescing>`. -/
structure QueuedScheduler where
  /-- The template parameter. -/
  coalescing : Bool
  /-- Queued entries. -/
  queue : RingBuffer QueuedMaintenanceEntry
  /-- Index of the queued tasks. -/
  pending : Index MaintenanceTask
  /-- Observations. -/
  metrics : MaintenanceMetrics := {}
  /-- The running task has offered something. -/
  runningTaskScheduled : Bool := false
  /-- Attached accountant. -/
  accounting : Option FlowAccounting := none
  /-- The drain under the run lock. -/
  drain : QueuedDrain := .idle
  /-- How the latest drain ended. -/
  exit : Option DrainExit := none
  /-- Accepted offers and started runs, the newest first. -/
  log : List (Event MaintenanceTask) := []

/-- What happens in one atomic step. -/
inductive QueuedAction
  /-- An offer; `fromTask` when the draining thread makes it. -/
  | schedule (task : MaintenanceTask) (fromTask : Bool)
  /-- `run_some` begins. -/
  | runSome (budget : BitVec 64)
  /-- `flush` begins. -/
  | flush
  /-- The drain goes for its next entry. -/
  | take
  /-- The task of the taken entry starts. -/
  | start
  /-- The task returns and leaves this budget. -/
  | finish (budget : BitVec 64)
  /-- The task throws and leaves this budget. -/
  | throw (budget : BitVec 64)
  /-- A tick is observed. -/
  | observeFlowTick (tick : BitVec 64)
  deriving DecidableEq, Repr

namespace QueuedScheduler

/-- The constructor. -/
def make (coalescing : Bool) (capacity : ℕ) (accounting : Option FlowAccounting) :
    QueuedScheduler where
  coalescing := coalescing
  queue := RingBuffer.empty _ capacity
  pending :=
    let capacity := if coalescing then capacity else 0
    Index.empty _ (bucketCount capacity) capacity
  accounting := accounting

variable (s : QueuedScheduler)

/-- `running_active_`; `running_thread_` is set exactly then. -/
def runningActive : Bool :=
  match s.drain with
  | .running .. => true
  | _ => false

/-- Queued tasks, the oldest first. -/
def queued : List MaintenanceTask := s.queue.toList.map QueuedMaintenanceEntry.task

/-- `home` of the index. -/
def home (task : MaintenanceTask) : ℕ := taskHome s.pending.bucketCount task

/-- Change the attached accountant. -/
def account (f : FlowAccounting → FlowAccounting) : QueuedScheduler :=
  { s with accounting := s.accounting.map f }

/-! ### Offers -/

/-- An offer that a pending entry absorbs. -/
def coalesce (task : MaintenanceTask) (calledFromTask : Bool) : QueuedScheduler :=
  { s with
    runningTaskScheduled := calledFromTask || s.runningTaskScheduled
    metrics := { s.metrics with coalescedCalls := s.metrics.coalescedCalls + 1 }
    accounting := s.accounting.map fun a => { a with
      counters := { a.counters with
        offered := a.counters.offered + 1
        coalescedIntoPending := a.counters.coalescedIntoPending + 1 } }
    log := .accepted task false :: s.log }

/-- An offer that needs an entry of its own. -/
def enqueue (task : MaintenanceTask) (calledFromTask : Bool) : Bool × QueuedScheduler :=
  let admittedTick := (s.accounting.map FlowAccounting.lastObservedTick).getD 0
  match s.queue.push fun tail => ⟨task, admittedTick, tail⟩ with
  | none =>
    (false, { s with
      metrics := { s.metrics with capacityFailures := s.metrics.capacityFailures + 1 }
      accounting := s.accounting.map fun a => { a with
        counters := { a.counters with
          offered := a.counters.offered + 1
          rejected := a.counters.rejected + 1 } } })
  | some (queueSlot, queue) =>
    (true, { s with
      queue := queue
      pending := if s.coalescing then (s.pending.insert s.home task queueSlot).2 else s.pending
      runningTaskScheduled := calledFromTask || s.runningTaskScheduled
      accounting := s.accounting.map fun a => FlowAccounting.recordAdmitted { a with
        counters := { a.counters with offered := a.counters.offered + 1 } }
      log := .accepted task false :: s.log })

/-- An offer under the lock, with its result; none when the lookup would not end. -/
def offer (task : MaintenanceTask) (calledFromTask : Bool) : Option (Bool × QueuedScheduler) :=
  if s.coalescing then
    match s.pending.contains s.home task with
    | none => none
    | some true => some (true, s.coalesce task calledFromTask)
    | some false => some (s.enqueue task calledFromTask)
  else some (s.enqueue task calledFromTask)

/-- `QueuedScheduler::schedule`. -/
def schedule (task : MaintenanceTask) (fromTask : Bool) : Option (Bool × QueuedScheduler) :=
  offer { s with metrics := { s.metrics with scheduleCalls := s.metrics.scheduleCalls + 1 } } task
    (s.runningActive && fromTask)

/-! ### Drains -/

/-- `pop_pending`; none when the unlinking loop would not end. -/
def popPending : Option (Option QueuedMaintenanceEntry × QueuedScheduler) :=
  match s.queue.pop with
  | (none, _) => some (none, s)
  | (some entry, queue) =>
    if s.coalescing then
      (s.pending.erase s.home entry.task entry.queueSlot).map fun (_, pending) =>
        (some entry, { s with queue := queue, pending := pending })
    else some (some entry, { s with queue := queue })

/-- `account_terminal`. -/
def accountTerminal (entry : QueuedMaintenanceEntry) (before after : BitVec 64)
    (completed : Bool) : QueuedScheduler :=
  { s with
    accounting := s.accounting.map fun a => FlowAccounting.terminate
      { a with counters := { a.counters with
        consumedWorkUnits := a.counters.consumedWorkUnits + (before - after) } }
      (if completed then .completed else .failed) entry.admittedTick }

/-- A drain ends. -/
def leave (exit : DrainExit) : QueuedScheduler := { s with drain := .idle, exit := some exit }

/-- The head of the drain loop, up to `record_execution`. -/
def takeNext (bounded : Bool) (budget : BitVec 64) : Option QueuedScheduler :=
  if bounded ∧ budget = 0 then some (s.leave (.returned true))
  else
    s.popPending.map fun
      | (none, s) => s.leave (.returned true)
      | (some entry, s) => { s with
          drain := .taken bounded entry budget
          metrics := { s.metrics with executions := s.metrics.executions + 1 }
          log := .started entry.task :: s.log }

/-- `run_task` after its task returned: without progress a follow-up ends the drain. -/
def finish (bounded : Bool) (entry : QueuedMaintenanceEntry) (before budget : BitVec 64) :
    QueuedScheduler :=
  let scheduledFollowUp := s.runningTaskScheduled
  let s := { s with runningTaskScheduled := false }.accountTerminal entry before budget true
  if budget ≠ before ∨ ¬ scheduledFollowUp then { s with drain := .looping bounded budget }
  else s.leave (.returned false)

/-- `run_task` after its task threw: the entry is gone. -/
def throw (entry : QueuedMaintenanceEntry) (before budget : BitVec 64) : QueuedScheduler :=
  ({ s with runningTaskScheduled := false }.accountTerminal entry before budget false).leave .threw

/-- `observe_flow_tick`. -/
def observeFlowTick (tick : BitVec 64) : QueuedScheduler :=
  { s with
    accounting := s.accounting.map fun a =>
      let a := a.observeTick tick
      let now := a.lastObservedTick
      let queuedOldest := (s.queue.front.map QueuedMaintenanceEntry.admittedTick).getD now
      let oldest := match s.drain with
        | .running _ entry _ =>
          if entry.admittedTick < queuedOldest then entry.admittedTick else queuedOldest
        | _ => queuedOldest
      { a with counters := { a.counters with oldestOutstandingAgeTicks := now - oldest } } }

/-- One atomic step; none when it is not possible there. -/
def step : QueuedAction → Option QueuedScheduler
  | .schedule task fromTask => (s.schedule task fromTask).map Prod.snd
  | .runSome budget =>
    match s.drain with
    | .idle => some { (if budget = BitVec.allOnes 64 then s else s.account fun a =>
          { a with counters := { a.counters with
            offeredWorkUnits := a.counters.offeredWorkUnits + budget } }) with
        drain := .looping true budget }
    | _ => none
  | .flush =>
    match s.drain with
    | .idle => some { s with drain := .looping false (BitVec.allOnes 64) }
    | _ => none
  | .take =>
    match s.drain with
    | .looping bounded budget => s.takeNext bounded budget
    | _ => none
  | .start =>
    match s.drain with
    | .taken bounded entry budget =>
      some { s with drain := .running bounded entry budget, runningTaskScheduled := false }
    | _ => none
  | .finish budget =>
    match s.drain with
    | .running bounded entry before => some (s.finish bounded entry before budget)
    | _ => none
  | .throw budget =>
    match s.drain with
    | .running _ entry before => some (s.throw entry before budget)
    | _ => none
  | .observeFlowTick tick => some (s.observeFlowTick tick)

/-- A run. -/
def run (s : QueuedScheduler) (actions : List QueuedAction) : Option QueuedScheduler :=
  actions.foldlM step s

/-! ### The invariant -/

/-- The index has the queued tasks, each at the node of its cell. -/
structure Indexed (queue : RingBuffer QueuedMaintenanceEntry) (pending : Index MaintenanceTask) :
    Prop where
  /-- Its chains are in order. -/
  chained : ∃ chain, Index.Chained (taskHome pending.bucketCount) pending chain
  /-- A node has the task of its cell. -/
  keys : ∀ c, pending.keyAt c = (queue.cells c).map QueuedMaintenanceEntry.task
  /-- One node for each cell. -/
  capacity : pending.capacity = queue.capacity
  /-- Only an index without nodes has no buckets. -/
  buckets : pending.bucketCount = 0 → queue.capacity = 0

/-- **Ring, index and log fit together.** -/
structure Valid (mode : Bool) (entries : List QueuedMaintenanceEntry) : Prop where
  /-- The template parameter. -/
  mode_eq : s.coalescing = mode
  /-- The ring holds the entries. -/
  holds : s.queue.Holds entries
  /-- An entry knows its cell. -/
  slots : ∀ c e, s.queue.cells c = some e → e.queueSlot = c
  /-- The index has their tasks. -/
  indexed : s.coalescing = true → Indexed s.queue s.pending
  /-- A coalescing queue has no task twice. -/
  distinct : s.coalescing = true → (entries.map QueuedMaintenanceEntry.task).Nodup
  /-- No offer is lost. -/
  kept : Kept s.log (· ∈ entries.map QueuedMaintenanceEntry.task)
  /-- The first-in-first-out queue is what was accepted and has not run. -/
  fifo : s.coalescing = false →
    offers s.log = starts s.log ++ entries.map QueuedMaintenanceEntry.task
  /-- A coalescing queue runs nothing without an offer. -/
  offered : s.coalescing = true → OnlyOffered (fun _ => 0) s.log
  /-- A queued task has an offer since its last run. -/
  fresh : s.coalescing = true →
    ∀ t ∈ entries.map QueuedMaintenanceEntry.task, Fresh (fun _ => 0) s.log t

variable {s} {s' : QueuedScheduler} {entries : List QueuedMaintenanceEntry}
  {entry : QueuedMaintenanceEntry} {task : MaintenanceTask} {mode : Bool}
  {capacity : ℕ} {accounting : Option FlowAccounting} {budget before : BitVec 64}

theorem bucketCount_eq_zero (h : bucketCount capacity = 0) : capacity = 0 := by
  unfold bucketCount at h
  split_ifs at h <;> omega

/-- A new scheduler. -/
theorem valid_make : (make mode capacity accounting).Valid mode [] where
  mode_eq := rfl
  holds := RingBuffer.holds_empty capacity
  slots := fun _ _ h => by cases h
  indexed := by
    intro hc
    have hc : mode = true := hc
    subst hc
    exact ⟨⟨_, Index.chained_empty _ _⟩, fun _ => rfl, rfl, bucketCount_eq_zero⟩
  distinct := fun _ => List.nodup_nil
  kept := Kept.nil
  fifo := fun _ => rfl
  offered := fun _ => OnlyOffered.nil
  fresh := fun _ _ h => by cases h

/-- Steps that leave queue, index and log alone. -/
theorem Valid.congr (h : s.Valid mode entries) (hqueue : s'.queue = s.queue)
    (hpending : s'.pending = s.pending) (hcoalescing : s'.coalescing = s.coalescing)
    (hlog : s'.log = s.log) : s'.Valid mode entries where
  mode_eq := hcoalescing.trans h.mode_eq
  holds := hqueue ▸ h.holds
  slots := hqueue ▸ h.slots
  indexed := by rw [hqueue, hpending, hcoalescing]; exact h.indexed
  distinct := hcoalescing ▸ h.distinct
  kept := hlog ▸ h.kept
  fifo := by rw [hlog, hcoalescing]; exact h.fifo
  offered := by rw [hlog, hcoalescing]; exact h.offered
  fresh := by rw [hlog, hcoalescing]; exact h.fresh

/-- The queue as a list. -/
theorem Valid.queued_eq (h : s.Valid mode entries) :
    s.queued = entries.map QueuedMaintenanceEntry.task := by
  rw [queued, h.holds.toList_eq]

/-- **The index has exactly the queued tasks.** -/
theorem Valid.contains (h : s.Valid mode entries) (hc : s.coalescing = true) (task : MaintenanceTask) :
    ∃ r, s.pending.contains s.home task = some r ∧
      (r = true ↔ task ∈ entries.map QueuedMaintenanceEntry.task) := by
  have hix := h.indexed hc
  obtain ⟨chain, hchain⟩ := hix.chained
  obtain ⟨r, hr, hiff⟩ := hchain.contains (k := task) fun hzero => by
    rw [hix.capacity]
    exact hix.buckets hzero
  refine ⟨r, hr, hiff.trans ?_⟩
  rw [List.mem_map]
  constructor
  · rintro ⟨c, hcell⟩
    rw [hix.keys, Option.map_eq_some_iff] at hcell
    obtain ⟨e, he, rfl⟩ := hcell
    exact ⟨e, h.holds.mem_of_cell he, rfl⟩
  · rintro ⟨e, he, rfl⟩
    obtain ⟨c, hcell⟩ := h.holds.exists_cell he
    exact ⟨c, by rw [hix.keys, hcell]; rfl⟩

/-! ### Offers -/

/-- An absorbed offer is one of a queued task. -/
theorem Valid.coalesce (h : s.Valid mode entries)
    (hmem : task ∈ entries.map QueuedMaintenanceEntry.task) (hc : s.coalescing = true)
    (called : Bool) : (s.coalesce task called).Valid mode entries where
  mode_eq := h.mode_eq
  holds := h.holds
  slots := h.slots
  indexed := h.indexed
  distinct := h.distinct
  kept := h.kept.accept false (fun _ hk => hk) hmem
  fifo := fun hno => by
    have hno : s.coalescing = false := hno
    rw [hc] at hno
    cases hno
  offered := fun hc => (h.offered hc).accept task false
  fresh := fun hc t ht => (h.fresh hc t ht).accept task false

/-- An admitted offer becomes the last entry, a refused one changes nothing. -/
theorem Valid.enqueue (h : s.Valid mode entries)
    (hnew : s.coalescing = true → task ∉ entries.map QueuedMaintenanceEntry.task)
    (called : Bool) : ∃ entries', (s.enqueue task called).2.Valid mode entries' := by
  unfold QueuedScheduler.enqueue
  simp only
  generalize (s.accounting.map FlowAccounting.lastObservedTick).getD 0 = tick
  by_cases hfull : s.queue.size = s.queue.capacity
  · rw [RingBuffer.Holds.push_full _ hfull]
    exact ⟨entries, h.congr rfl rfl rfl rfl⟩
  obtain ⟨c, queue, hpush, hlt, hfree, hcells, hcap, hholds⟩ :=
    h.holds.push (fun tail => ⟨task, tick, tail⟩) hfull
  rw [hpush]
  refine ⟨_, h.mode_eq, hholds, fun c' e he => ?_, fun hc => ?_, fun hc => ?_, ?_, fun hc => ?_, fun hc => ?_,
    fun hc t ht => ?_⟩
  · simp only [hcells, Function.update_apply] at he
    split_ifs at he with heq
    · cases he
      exact heq.symm
    · exact h.slots c' e he
  · have hc : s.coalescing = true := hc
    have hix := h.indexed hc
    obtain ⟨chain, hchain⟩ := hix.chained
    have hnone : s.pending.keyAt c = none := by rw [hix.keys, hfree]; rfl
    have hbuckets : s.pending.bucketCount ≠ 0 := by
      intro hzero
      have := hix.buckets hzero
      omega
    obtain ⟨pending, chain', hins, hchain', hkeys, hcount, hcap'⟩ :=
      hchain.insert (k := task) hbuckets (hix.capacity ▸ hlt) hnone
    have hpend : (if s.coalescing then (s.pending.insert s.home task c).2 else s.pending) =
        pending := by
      rw [if_pos hc]
      exact congrArg Prod.snd hins
    simp only [hpend]
    refine ⟨⟨chain', by rw [hcount]; exact hchain'⟩, fun c' => ?_, ?_, ?_⟩
    · rw [hkeys, hcells]
      simp only [Function.update_apply]
      split_ifs
      · rfl
      · exact hix.keys c'
    · rw [hcap', hcap, hix.capacity]
    · rw [hcount, hcap]
      exact hix.buckets
  · rw [List.map_append, List.nodup_append]
    refine ⟨h.distinct hc, List.nodup_singleton _, ?_⟩
    rintro t ht t' ht' rfl
    rw [List.map_singleton, List.mem_singleton] at ht'
    rw [ht'] at ht
    exact hnew hc ht
  · refine h.kept.accept false (fun k hk => ?_) ?_
    · rw [List.map_append]
      exact List.mem_append_left _ hk
    · simp
  · simp only [offers_accepted, starts_accepted, h.fifo hc, List.map_append, List.map_cons,
      List.map_nil, List.append_assoc]
  · exact (h.offered hc).accept task false
  · rw [List.map_append, List.mem_append] at ht
    rcases ht with ht | ht
    · exact (h.fresh hc t ht).accept task false
    · obtain rfl : t = task := by simpa using ht
      exact Fresh.accept_self false

/-- An offer under the lock ends and keeps the invariant. -/
theorem Valid.offer (h : s.Valid mode entries) (task : MaintenanceTask) (called : Bool) :
    ∃ r s' entries', s.offer task called = some (r, s') ∧ s'.Valid mode entries' := by
  unfold QueuedScheduler.offer
  by_cases hc : s.coalescing = true
  · obtain ⟨r, hr, hiff⟩ := h.contains hc task
    rw [if_pos hc, hr]
    cases r with
    | true => exact ⟨_, _, entries, rfl, h.coalesce (hiff.1 rfl) hc _⟩
    | false =>
      have hnew : task ∉ entries.map QueuedMaintenanceEntry.task := fun hmem =>
        Bool.false_ne_true (hiff.2 hmem)
      obtain ⟨entries', h'⟩ := h.enqueue (fun _ => hnew) called
      exact ⟨_, _, entries', rfl, h'⟩
  · rw [if_neg hc]
    obtain ⟨entries', h'⟩ := @Valid.enqueue _ _ task _ h (fun h => absurd h hc) called
    exact ⟨_, _, entries', rfl, h'⟩

/-- **An offer** ends and keeps the invariant. -/
theorem Valid.schedule (h : s.Valid mode entries) (task : MaintenanceTask) (fromTask : Bool) :
    ∃ r s' entries', s.schedule task fromTask = some (r, s') ∧ s'.Valid mode entries' := by
  have hcounted : Valid { s with metrics :=
      { s.metrics with scheduleCalls := s.metrics.scheduleCalls + 1 } } mode entries :=
    h.congr rfl rfl rfl rfl
  exact hcounted.offer task _

/-! ### Drains -/

/-- An empty queue has nothing to pop. -/
theorem Valid.popPending_nil (h : s.Valid mode []) : s.popPending = some (none, s) := by
  rw [popPending, h.holds.pop_nil]

/-- A pop takes the oldest entry out of the ring and its task out of the index. -/
theorem Valid.popPending_cons (h : s.Valid mode (entry :: entries)) :
    ∃ queue pending, s.popPending = some (some entry, { s with
        queue := queue
        pending := pending }) ∧
      queue.Holds entries ∧ (∀ c e, queue.cells c = some e → e.queueSlot = c) ∧
      (s.coalescing = true → Indexed queue pending) := by
  obtain ⟨queue, hpop, hhead, hcells, hcap, hholds⟩ := h.holds.pop_cons
  have hslots : ∀ c e, queue.cells c = some e → e.queueSlot = c := by
    intro c e he
    rw [hcells, Function.update_apply] at he
    split_ifs at he
    exact h.slots c e he
  by_cases hc : s.coalescing = true
  · have hix := h.indexed hc
    obtain ⟨chain, hchain⟩ := hix.chained
    have hslot : entry.queueSlot = s.queue.head := h.slots _ _ hhead
    have hkey : s.pending.keyAt s.queue.head = some entry.task := by rw [hix.keys, hhead]; rfl
    have hbuckets : s.pending.bucketCount ≠ 0 := by
      intro hzero
      have := hix.buckets hzero
      have := h.holds.lt_of_cell hhead
      omega
    obtain ⟨pending, chain', herase, hchain', hkeys, hcount, hcap'⟩ := hchain.erase hbuckets hkey
    refine ⟨queue, pending, ?_, hholds, hslots, fun _ => ?_⟩
    · rw [popPending, hpop]
      simp only [hc, if_true]
      rw [hslot, show s.pending.erase s.home entry.task s.queue.head = some (true, pending)
        from herase]
      rfl
    · refine ⟨⟨chain', by rw [hcount]; exact hchain'⟩, fun c => ?_, ?_, ?_⟩
      · rw [hkeys, hcells]
        simp only [Function.update_apply]
        split_ifs
        · rfl
        · exact hix.keys c
      · rw [hcap', hcap, hix.capacity]
      · rw [hcount, hcap]
        exact hix.buckets
  · refine ⟨queue, s.pending, ?_, hholds, hslots, fun h => absurd h hc⟩
    rw [popPending, hpop]
    simp [hc]

/-- **A drain takes its next entry**, or ends. -/
theorem Valid.takeNext (h : s.Valid mode entries) (bounded : Bool) (budget : BitVec 64) :
    ∃ s' entries', s.takeNext bounded budget = some s' ∧ s'.Valid mode entries' := by
  unfold QueuedScheduler.takeNext
  split_ifs
  · exact ⟨_, entries, rfl, h.congr rfl rfl rfl rfl⟩
  cases entries with
  | nil =>
    rw [h.popPending_nil]
    exact ⟨_, [], rfl, h.congr rfl rfl rfl rfl⟩
  | cons entry entries =>
    obtain ⟨queue, pending, hpop, hholds, hslots, hindexed⟩ := h.popPending_cons
    rw [hpop]
    refine ⟨_, entries, rfl, h.mode_eq, hholds, hslots, hindexed, fun hc => ?_, ?_, fun hc => ?_, fun hc => ?_,
      fun hc t ht => ?_⟩
    · exact (List.nodup_cons.1 (h.distinct hc)).2
    · exact h.kept.start fun j hj => List.mem_cons.1 hj
    · have := h.fifo hc
      simp only [offers_started, starts_started, this, List.map_cons, List.append_assoc,
        List.singleton_append]
    · exact (h.offered hc).start (h.fresh hc _ List.mem_cons_self)
    · have hne : entry.task ≠ t := by
        rintro rfl
        exact (List.nodup_cons.1 (h.distinct hc)).1 ht
      exact (h.fresh hc t (List.mem_cons_of_mem _ ht)).start hne

/-! ### Runs -/

/-- **One step keeps the invariant.** -/
theorem valid_step (h : s.Valid mode entries) {a : QueuedAction} (hstep : s.step a = some s') :
    ∃ entries', s'.Valid mode entries' := by
  cases a with
  | schedule task fromTask =>
    obtain ⟨r, s₁, entries', hs, h'⟩ := h.schedule task fromTask
    rw [step, hs] at hstep
    cases hstep
    exact ⟨entries', h'⟩
  | runSome budget =>
    simp only [step] at hstep
    split at hstep <;> cases hstep
    split_ifs <;> exact ⟨entries, h.congr rfl rfl rfl rfl⟩
  | flush =>
    simp only [step] at hstep
    split at hstep <;> cases hstep
    exact ⟨entries, h.congr rfl rfl rfl rfl⟩
  | take =>
    simp only [step] at hstep
    split at hstep
    · obtain ⟨s₁, entries', hs, h'⟩ := h.takeNext _ _
      rw [hs] at hstep
      cases hstep
      exact ⟨entries', h'⟩
    · cases hstep
  | start =>
    simp only [step] at hstep
    split at hstep <;> cases hstep
    exact ⟨entries, h.congr rfl rfl rfl rfl⟩
  | finish budget =>
    simp only [step] at hstep
    split at hstep <;> cases hstep
    unfold QueuedScheduler.finish
    simp only
    split_ifs <;> exact ⟨entries, h.congr rfl rfl rfl rfl⟩
  | throw budget =>
    simp only [step] at hstep
    split at hstep <;> cases hstep
    exact ⟨entries, h.congr rfl rfl rfl rfl⟩
  | observeFlowTick tick =>
    cases hstep
    exact ⟨entries, h.congr rfl rfl rfl rfl⟩

/-- **Every run keeps the invariant.** -/
theorem valid_run (h : s.Valid mode entries) {actions : List QueuedAction}
    (hrun : s.run actions = some s') : ∃ entries', s'.Valid mode entries' := by
  induction actions generalizing s entries with
  | nil =>
    cases hrun
    exact ⟨entries, h⟩
  | cons a actions ih =>
    rw [run, List.foldlM_cons, Option.bind_eq_bind, Option.bind_eq_some_iff] at hrun
    obtain ⟨s₁, hstep, hrun⟩ := hrun
    obtain ⟨entries₁, h₁⟩ := valid_step h hstep
    exact ih h₁ hrun

end QueuedScheduler

end Tess
