import Tess.Ops.PhaseExecution

/-!
# The worker pool

A dispatcher posts a job and waits; the workers of a pool that lives on draw runs of operations
from a shared counter, invoke the callback and count what they finished.  A step is one section
under the mutex or one access to an atomic, and any thread may take the next one.  A wait on a
condition variable may end at any time, so notifications need no state.

* `PoolShared` : what the mutex and the atomics protect;
* `WorkerPoint`, `workerStep` : where a worker is, and its next step;
* `WorkerPool.step` : the steps of all threads, with the events they cause;
* `PoolRun` : **every interleaving**, over any number of dispatches.
-/

namespace Tess

/-! ### Jobs -/

/-- The arguments of `for_each_operation`: a range of indices that does not wrap.  What the callback
does is up to the steps. -/
structure PhaseCall where
  /-- First index. -/
  first : ℕ
  /-- Number of indices. -/
  count : ℕ
  /-- `std::is_nothrow_invocable_r_v` of the callback. -/
  noThrow : Bool
  deriving DecidableEq

/-- What an invocation ends with. -/
inductive PhaseAnswer (E : Type*)
  /-- It returns. -/
  | value (result : PlannedExecutionResult)
  /-- It throws. -/
  | exception (e : E)

/-- What a worker copies under the mutex. -/
structure PhaseJob where
  /-- `job_context_`: the callback, by the number of its dispatch. -/
  context : ℕ
  /-- `job_first_`. -/
  first : ℕ
  /-- `job_count_`. -/
  count : ℕ
  /-- `job_stride_`. -/
  stride : ℕ
  /-- `no_throw_job_`; true in a pool without exceptions. -/
  noThrow : Bool
  deriving DecidableEq

/-- A run of operations that a worker has drawn. -/
structure DrawnRun where
  /-- `begin`. -/
  start : ℕ
  /-- `end`. -/
  stop : ℕ
  /-- `offset`. -/
  offset : ℕ
  /-- `finished`: what was invoked without an exception. -/
  finished : ℕ
  deriving DecidableEq

/-! ### Threads -/

/-- Where a worker is in `run_worker`. -/
inductive WorkerPoint (E : Type*)
  /-- In the wait. -/
  | waiting
  /-- Before the outer loop of the job. -/
  | claiming (job : PhaseJob)
  /-- Before `next_offset_.fetch_add`. -/
  | drawing (job : PhaseJob)
  /-- Before the inner loop. -/
  | stepping (job : PhaseJob) (run : DrawnRun)
  /-- In the callback. -/
  | invoking (job : PhaseJob) (run : DrawnRun)
  /-- Caught an exception, before `cancelled_.store`. -/
  | cancelling (job : PhaseJob) (run : DrawnRun) (e : E)
  /-- Before the section that records the exception. -/
  | recording (job : PhaseJob) (run : DrawnRun) (e : E)
  /-- Before `finished_operations_.fetch_add`. -/
  | publishing (job : PhaseJob) (run : DrawnRun) (cancelled : Bool)
  /-- Before the section that ends the job. -/
  | leaving
  /-- Returned. -/
  | exited

/-- A worker. -/
structure PoolWorker (E : Type*) where
  /-- `seen_epoch`. -/
  seenEpoch : ℕ
  /-- Where it is. -/
  point : WorkerPoint E

/-- Where the dispatcher is. -/
inductive DispatcherPoint (E : Type*)
  /-- Between calls. -/
  | idle
  /-- In `for_each_operation`, before or in the wait. -/
  | awaiting (context : ℕ) (call : PhaseCall)
  /-- Out of the section that ends the dispatch. -/
  | returning (context : ℕ) (call : PhaseCall) (result : PlannedExecutionResult)
      (exception : Option E)
  /-- In the destructor. -/
  | destroyed

/-- What the threads share. -/
structure PoolShared (E : Type*) where
  /-- `results_`. -/
  results : List PlannedExecutionResult := []
  /-- `next_offset_`; `results_` has an element for each operation, so no counter wraps. -/
  nextOffset : ℕ := 0
  /-- `finished_operations_`. -/
  finishedOperations : ℕ := 0
  /-- `job_context_` to `job_stride_`. -/
  job : PhaseJob
  /-- `job_epoch_`, a 64-bit counter. -/
  jobEpoch : ℕ := 0
  /-- `active_workers_`. -/
  activeWorkers : ℕ := 0
  /-- `job_active_`. -/
  jobActive : Bool := false
  /-- `dispatch_active_`. -/
  dispatchActive : Bool := false
  /-- `cancelled_`. -/
  cancelled : Bool := false
  /-- `exception_`. -/
  exception : Option E := none
  /-- `stop_`. -/
  stop : Bool := false

/-- What can be seen from outside. -/
inductive PhaseEvent (E : Type*)
  /-- A callback is entered with an index. -/
  | invoked (context index : ℕ)
  /-- It returns. -/
  | completed (context index : ℕ) (result : PlannedExecutionResult)
  /-- It throws. -/
  | threw (context index : ℕ) (e : E)
  /-- A dispatch returns. -/
  | returned (context : ℕ) (call : PhaseCall) (result : PlannedExecutionResult)
  /-- A dispatch throws. -/
  | rethrown (context : ℕ) (call : PhaseCall) (e : E)
  deriving DecidableEq

/-- `WorkerPoolPhaseExecutorImpl` with its threads. -/
structure WorkerPool (E : Type*) where
  /-- What the threads share. -/
  shared : PoolShared E
  /-- Workers. -/
  workers : List (PoolWorker E)
  /-- Dispatcher. -/
  dispatcher : DispatcherPoint E
  /-- Number of calls so far; the number of a call stands for its callback. -/
  dispatches : ℕ

section Steps

variable {E : Type*}

/-- `PlannedExecutionResult{}`. -/
def noFailure : PlannedExecutionResult := ⟨.executed, 0⟩

/-- The job of a pool before any dispatch. -/
def noJob : PhaseJob := ⟨0, 0, 0, 1, true⟩

/-- The constructor; workers wait for the first job. -/
def WorkerPool.start (workerCount : ℕ) : WorkerPool E where
  shared := { job := noJob }
  workers := List.replicate (if workerCount = 0 then 1 else workerCount) ⟨0, .waiting⟩
  dispatcher := .idle
  dispatches := 0

/-! ### Workers -/

/-- The next step of a worker: the shared state, the worker and the events, or nothing while it has
to wait.  The answer is that of the callback it is in. -/
def workerStep (s : PoolShared E) (w : PoolWorker E) (answer : PhaseAnswer E) :
    Option (PoolShared E × PoolWorker E × List (PhaseEvent E)) :=
  match w.point with
  | .waiting =>
    if s.stop then some (s, { w with point := .exited }, [])
    else if s.jobActive ∧ s.jobEpoch ≠ w.seenEpoch then
      some ({ s with activeWorkers := s.activeWorkers + 1 }, ⟨s.jobEpoch, .claiming s.job⟩, [])
    else none
  | .claiming job =>
    if !job.noThrow ∧ s.cancelled then some (s, { w with point := .leaving }, [])
    else some (s, { w with point := .drawing job }, [])
  | .drawing job =>
    let start := s.nextOffset
    let s' := { s with nextOffset := s.nextOffset + job.stride }
    if job.count ≤ start then some (s', { w with point := .leaving }, [])
    else
      let run := ⟨start, min (start + job.stride) job.count, start, 0⟩
      some (s', { w with point := .stepping job run }, [])
  | .stepping job run =>
    if run.stop ≤ run.offset then some (s, { w with point := .publishing job run false }, [])
    else if !job.noThrow ∧ s.cancelled then
      some (s, { w with point := .publishing job run true }, [])
    -- nothing shared lies between the load of `cancelled_` and the call
    else some (s, { w with point := .invoking job run },
      [.invoked job.context (job.first + run.offset)])
  | .invoking job run =>
    match answer with
    | .value result =>
      let run' := { run with offset := run.offset + 1, finished := run.finished + 1 }
      some ({ s with results := s.results.set run.offset result },
        { w with point := .stepping job run' },
        [.completed job.context (job.first + run.offset) result])
    | .exception e =>
      -- a callback that must not throw ends the process
      if job.noThrow then none
      else some (s, { w with point := .cancelling job run e },
        [.threw job.context (job.first + run.offset) e])
  | .cancelling job run e =>
    some ({ s with cancelled := true }, { w with point := .recording job run e }, [])
  | .recording job run e =>
    some ({ s with exception := if s.exception.isNone then some e else s.exception },
      { w with point := .publishing job run true }, [])
  | .publishing job run cancelled =>
    let finished := if job.noThrow then run.stop - run.start else run.finished
    some ({ s with finishedOperations := s.finishedOperations + finished },
      { w with point := if cancelled then .leaving else .claiming job }, [])
  | .leaving =>
    some ({ s with activeWorkers := s.activeWorkers - 1 }, { w with point := .waiting }, [])
  | .exited => none

/-! ### The dispatcher -/

/-- `results_.resize` when it is too small. -/
def PoolShared.grow (s : PoolShared E) (count : ℕ) : List PlannedExecutionResult :=
  if s.results.length < count then
    s.results ++ List.replicate (count - s.results.length) noFailure
  else s.results

/-- The first section of `for_each_operation`. -/
def PoolShared.post (s : PoolShared E) (captures : Bool) (workerCount context : ℕ)
    (call : PhaseCall) : PoolShared E :=
  { s with
    results := s.grow call.count
    dispatchActive := true
    job :=
      { context := context
        first := call.first
        count := call.count
        stride := max 1 (call.count / (max 1 workerCount * 4))
        noThrow := !captures || call.noThrow }
    nextOffset := 0
    finishedOperations := 0
    cancelled := false
    exception := none
    jobEpoch := (s.jobEpoch + 1) % 2 ^ 64
    jobActive := true }

/-- The first result that is a failure, in index order. -/
def firstFailure (results : List PlannedExecutionResult) : PlannedExecutionResult :=
  (results.find? fun r => r.status ≠ .executed).getD noFailure

/-- The condition of the wait on `done_cv_`. -/
def PoolShared.done (s : PoolShared E) (call : PhaseCall) : Bool :=
  s.activeWorkers = 0 && (s.exception.isSome || s.finishedOperations = call.count)

/-- How `for_each_operation` ends. -/
def endEvent (context : ℕ) (call : PhaseCall) (result : PlannedExecutionResult) :
    Option E → PhaseEvent E
  | none => .returned context call result
  | some e => .rethrown context call e

/-- The steps of the threads. -/
inductive PoolAction (E : Type*)
  /-- `reserve_operations`. -/
  | reserve (count : ℕ)
  /-- `for_each_operation` is called. -/
  | dispatch (call : PhaseCall)
  /-- The wait ends and the dispatch is over. -/
  | finish
  /-- `for_each_operation` returns or throws. -/
  | resume
  /-- The destructor. -/
  | destroy
  /-- A worker takes its next step; the answer is that of its callback. -/
  | worker (i : ℕ) (answer : PhaseAnswer E)

/-- **One step** of a pool that captures exceptions or does not.  There is none where a thread has
to wait or the process fails. -/
def WorkerPool.step (captures : Bool) (s : WorkerPool E) :
    PoolAction E → Option (WorkerPool E × List (PhaseEvent E))
  | .reserve count =>
    match s.dispatcher with
    | .idle =>
      if s.shared.dispatchActive then none
      else some ({ s with shared := { s.shared with results := s.shared.grow count } }, [])
    | _ => none
  | .dispatch call =>
    match s.dispatcher with
    | .idle =>
      if s.shared.dispatchActive then none
      else if call.count = 0 then
        some ({ s with
          dispatcher := .returning (s.dispatches + 1) call noFailure none
          dispatches := s.dispatches + 1 }, [])
      else
        some ({ s with
          shared := s.shared.post captures s.workers.length (s.dispatches + 1) call
          dispatcher := .awaiting (s.dispatches + 1) call
          dispatches := s.dispatches + 1 }, [])
    | _ => none
  | .finish =>
    match s.dispatcher with
    | .awaiting context call =>
      if s.shared.done call then
        some ({ s with
          shared := { s.shared with jobActive := false, dispatchActive := false }
          dispatcher := .returning context call (firstFailure (s.shared.results.take call.count))
            s.shared.exception }, [])
      else none
    | _ => none
  | .resume =>
    match s.dispatcher with
    | .returning context call result exception =>
      some ({ s with dispatcher := .idle }, [endEvent context call result exception])
    | _ => none
  | .destroy =>
    match s.dispatcher with
    | .idle => some ({ s with shared := { s.shared with stop := true }, dispatcher := .destroyed }, [])
    | _ => none
  | .worker i answer =>
    match s.workers[i]? with
    | none => none
    | some w =>
      (workerStep s.shared w answer).map fun r =>
        ({ s with shared := r.1, workers := s.workers.set i r.2.1 }, r.2.2)

/-- The steps of a schedule, with their events, the last one first. -/
def WorkerPool.runSchedule (captures : Bool) :
    List (PoolAction E) → WorkerPool E → List (PhaseEvent E) →
      Option (WorkerPool E × List (PhaseEvent E))
  | [], s, tr => some (s, tr)
  | a :: actions, s, tr =>
    match s.step captures a with
    | none => none
    | some r => runSchedule captures actions r.1 (r.2 ++ tr)

/-- **Runs**, with their events, the last one first. -/
inductive PoolRun (captures : Bool) (workerCount : ℕ) :
    WorkerPool E → List (PhaseEvent E) → Prop
  | start : PoolRun captures workerCount (.start workerCount) []
  | step {s s' : WorkerPool E} {tr events : List (PhaseEvent E)} (a : PoolAction E) :
      PoolRun captures workerCount s tr → s.step captures a = some (s', events) →
        PoolRun captures workerCount s' (events ++ tr)

end Steps

/-! ### Events -/

section Events

variable {E : Type*}

/-- The indices that the callback of a dispatch was invoked with. -/
def invokedIn (d : ℕ) (tr : List (PhaseEvent E)) : List ℕ :=
  tr.filterMap fun
    | .invoked context index => if context = d then some index else none
    | _ => none

/-- The results that the callback of a dispatch returned, with their indices. -/
def completedIn (d : ℕ) (tr : List (PhaseEvent E)) : List (ℕ × PlannedExecutionResult) :=
  tr.filterMap fun
    | .completed context index result => if context = d then some (index, result) else none
    | _ => none

/-- The exceptions that the callback of a dispatch threw. -/
def thrownIn (d : ℕ) (tr : List (PhaseEvent E)) : List E :=
  tr.filterMap fun
    | .threw context _ e => if context = d then some e else none
    | _ => none

/-- The event is one of a callback of the dispatch. -/
def PhaseEvent.Works (d : ℕ) : PhaseEvent E → Prop
  | .invoked context _ => context = d
  | .completed context _ _ => context = d
  | .threw context _ _ => context = d
  | _ => False

/-- The event is the end of the dispatch. -/
def PhaseEvent.Ends (d : ℕ) : PhaseEvent E → Prop
  | .returned context _ _ => context = d
  | .rethrown context _ _ => context = d
  | _ => False

/-- The job a worker runs. -/
def WorkerPoint.job : WorkerPoint E → Option PhaseJob
  | .claiming job => some job
  | .drawing job => some job
  | .stepping job _ => some job
  | .invoking job _ => some job
  | .cancelling job _ _ => some job
  | .recording job _ _ => some job
  | .publishing job _ _ => some job
  | _ => none

end Events

end Tess
