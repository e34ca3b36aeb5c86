import Tess.Experimental.DirtyBitMaintenance
import Tess.Experimental.QueuedScheduler
import Mathlib.Algebra.BigOperators.Fin
import Mathlib.Data.Finset.Basic

/-!
# The registered maintenance scheduler

`RegisteredScheduler` gives out handles for registered tasks and passes offers on to a backend.
Threads offer, drain, register, seal and release at the same time; what they do is split at every
atomic access and at every lock.

* `RegisteredBackend` : what the scheduler relies on: an accepted offer stays pending until its
  task runs;
* `RegisteredScheduler.Frame` : the call that a thread is in; a callback that offers again puts a
  frame on top;
* `RegisteredScheduler.advance` : the next access of a thread inside the scheduler;
* `RegisteredScheduler.Step` : one step of a thread;
* `MaintenanceSystem.Step` : one step of a process with any number of schedulers.
-/

namespace Tess

/-- Largest `std::uint64_t`. -/
def maxU64 : ℕ := 2 ^ 64 - 1

/-- Opaque identity of one registration. -/
structure MaintenanceHandle where
  /-- Epoch of its scheduler. -/
  ownerEpoch : ℕ := 0
  /-- Its slot. -/
  slot : ℕ := maxU64
  /-- Generation of the slot. -/
  slotGeneration : ℕ := 0
  deriving DecidableEq, Repr

/-- `RegisteredScheduler::Slot`. -/
structure RegisteredSlot where
  /-- The registered task. -/
  target : Option MaintenanceTask := none
  /-- Its generation. -/
  generation : ℕ := 1
  deriving DecidableEq, Repr

/-- The generation behind a generation: a wrapped counter skips zero. -/
def nextGeneration (generation : ℕ) : ℕ :=
  let next := (generation + 1) % 2 ^ 64
  if next = 0 then 1 else next

/-- What happens in a backend. -/
inductive BackendEvent
  /-- An offer of a slot is retained or coalesced. -/
  | accept (i : ℕ)
  /-- An offer of a slot returns after its run. -/
  | executed (i : ℕ)
  /-- An offer of a slot finds no room. -/
  | refuse (i : ℕ)
  /-- A run of a slot starts. -/
  | run (i : ℕ)
  /-- Anything that accepts and runs nothing. -/
  | internal
  /-- The registry is published. -/
  | publish
  | beginDrain
  | endDrain
  deriving DecidableEq, Repr

/-- `MaintenanceBackend`: **an accepted offer stays pending until its task runs**, and outside
drains `has_pending` sees it. -/
structure RegisteredBackend (β : Type) where
  /-- A new backend. -/
  init : β
  /-- Its steps. -/
  step : β → BackendEvent → β → Prop
  /-- `has_pending`. -/
  hasPending : β → Bool
  /-- The slot has an offer that has not run. -/
  retains : β → ℕ → Prop
  /-- A drain is under way. -/
  draining : β → Prop
  /-- An accepted offer is retained. -/
  retains_accept : ∀ {b i b'}, step b (.accept i) b' → retains b' i
  /-- It is retained until it runs. -/
  retains_step : ∀ {b e b' i}, step b e b' → retains b i → e ≠ .run i → retains b' i
  /-- At first no drain is under way. -/
  not_draining_init : ¬ draining init
  /-- Drains begin. -/
  draining_step : ∀ {b e b'}, step b e b' → draining b' → draining b ∨ e = .beginDrain
  /-- Drains end. -/
  not_draining_end : ∀ {b b'}, step b .endDrain b' → ¬ draining b'
  /-- Outside drains a retained offer is visible. -/
  hasPending_of_retains : ∀ {b i}, ¬ draining b → retains b i → hasPending b = true

namespace RegisteredScheduler

/-- Where a call of `try_schedule` stands. -/
inductive SchedulePhase
  /-- The operation guard is there. -/
  | locked (handle : MaintenanceHandle)
  /-- The handle names a slot. -/
  | resolved (slot : ℕ)
  /-- Inside the backend; a run of the slot has started there, or not. -/
  | offering (slot : ℕ) (ran : Bool)
  /-- Inside the backend, which runs a slot. -/
  | running (slot : ℕ) (ran : Bool) (task : ℕ)
  /-- The backend has returned, or has thrown. -/
  | offered (slot : ℕ) (result : Option ScheduleResult)
  /-- The activity is counted. -/
  | counted
  /-- The idle observation is invalidated. -/
  | leaving
  /-- The offer is no longer in flight. -/
  | left
  deriving DecidableEq, Repr

/-- What a drain saw before it called the backend. -/
structure Observation where
  /-- Activity epoch. -/
  activity : ℕ
  /-- Offers in flight. -/
  inFlight : ℕ
  /-- The backend had pending work. -/
  pending : Bool
  deriving DecidableEq, Repr

/-- Where a drain stands. -/
inductive DrainPhase
  /-- The operation guard is there. -/
  | locked
  /-- The drain lock is there. -/
  | holding
  /-- The idle observation is invalidated. -/
  | cleared
  | sawActivity (activity : ℕ)
  | sawInFlight (activity inFlight : ℕ)
  | sawPending (before : Observation)
  /-- Inside the backend. -/
  | draining (before : Observation)
  /-- Inside the backend, which runs a slot. -/
  | running (before : Observation) (task : ℕ)
  /-- The backend has returned, or has thrown. -/
  | drained (before : Observation) (ended : BackendDrain)
  | sawPendingAfter (before : Observation) (ended : BackendDrain) (pending : Bool)
  /-- The observation lock is there. -/
  | observing (before : Observation) (ended : BackendDrain) (pending : Bool)
  | observedInFlight (before : Observation) (ended : BackendDrain) (pending : Bool)
      (inFlight : ℕ)
  | observedActivity (before : Observation) (ended : BackendDrain) (pending : Bool)
      (inFlight activity : ℕ)
  /-- The result is known, and still under the observation lock. -/
  | judged (result : DrainResult)
  /-- The observation lock is gone. -/
  | leaving
  /-- The drain lock is gone. -/
  | left
  deriving DecidableEq, Repr

/-- Where a call of `try_release` stands. -/
inductive ReleasePhase
  /-- The lifecycle lock is there. -/
  | locked (handle : MaintenanceHandle)
  /-- The handle names a slot. -/
  | resolved (handle : MaintenanceHandle)
  | sawIdle (handle : MaintenanceHandle) (idle : ℕ)
  /-- The idle observation is the latest activity. -/
  | sawEpochs (handle : MaintenanceHandle)
  /-- The slot may go. -/
  | permitted (handle : MaintenanceHandle)
  /-- The result is known. -/
  | unlocking
  deriving DecidableEq, Repr

/-- The call that a thread is in; `outer` tells the first from those of callbacks. -/
inductive Frame
  | schedule (outer : Bool) (phase : SchedulePhase)
  | drain (phase : DrainPhase)
  | release (phase : ReleasePhase)
  deriving DecidableEq, Repr

end RegisteredScheduler

open RegisteredScheduler in
/-- `RegisteredScheduler<Backend>` with the calls of `n` threads. -/
structure RegisteredScheduler (n : ℕ) (β : Type) where
  /-- Its identity. -/
  ownerEpoch : ℕ
  /-- Number of slots. -/
  capacity : ℕ
  /-- Registrations. -/
  slots : ℕ → RegisteredSlot := fun _ => {}
  /-- The wrapped backend. -/
  backend : β
  /-- Number of offers that were not refused. -/
  activityEpoch : ℕ := 0
  /-- Offers in flight. -/
  inFlight : ℕ := 0
  /-- The activity of the latest idle observation; the maximum for none. -/
  idleEpoch : ℕ := maxU64
  /-- Setup is over. -/
  isSealed : Bool := false
  /-- Threads that share the lifecycle lock. -/
  readers : Finset (Fin n) := ∅
  /-- Thread that has the lifecycle lock alone. -/
  writer : Option (Fin n) := none
  /-- Thread that has the drain lock. -/
  drainer : Option (Fin n) := none
  /-- Draining thread that has the observation lock. -/
  observer : Option (Fin n) := none
  /-- Calls of the threads, the innermost first. -/
  threads : Fin n → List Frame := fun _ => []
  /-- The slot has an accepted offer, and no run of it started since. -/
  owed : ℕ → Bool := fun _ => false
  /-- Handles of released registrations. -/
  released : List MaintenanceHandle := []
  /-- Number of releases of every slot. -/
  releases : ℕ → ℕ := fun _ => 0

/-- What the schedulers of a process share. -/
structure MaintenanceGlobals (n : ℕ) where
  /-- `next_owner_epoch`. -/
  nextOwnerEpoch : ℕ := 1
  /-- `registration_epoch_` of every task. -/
  registrationEpoch : MaintenanceTask → ℕ := fun _ => 0
  /-- `active_registered_scheduler_epoch` of every thread. -/
  active : Fin n → ℕ := fun _ => 0

/-- `claim_owner_epoch`; none when it fails fast. -/
def MaintenanceGlobals.claimOwnerEpoch {n : ℕ} (g : MaintenanceGlobals n) :
    Option (ℕ × MaintenanceGlobals n) :=
  let epoch := g.nextOwnerEpoch
  if epoch = 0 ∨ epoch = maxU64 then none
  else some (epoch, { g with nextOwnerEpoch := (epoch + 1) % 2 ^ 64 })

namespace RegisteredScheduler

variable {n : ℕ} {β : Type}

section Functions

variable (B : RegisteredBackend β) (g : MaintenanceGlobals n) (s : RegisteredScheduler n β)
  (t : Fin n)

/-! ### Threads -/

/-- The call of the thread goes on. -/
def goto (f : Frame) : RegisteredScheduler n β :=
  { s with threads := Function.update s.threads t (f :: (s.threads t).tail) }

/-- The thread calls. -/
def push (f : Frame) : RegisteredScheduler n β :=
  { s with threads := Function.update s.threads t (f :: s.threads t) }

/-- The call of the thread returns. -/
def pop : RegisteredScheduler n β :=
  { s with threads := Function.update s.threads t (s.threads t).tail }

/-! ### Handles -/

/-- `make_handle`. -/
def makeHandle (i : ℕ) : MaintenanceHandle := ⟨s.ownerEpoch, i, (s.slots i).generation⟩

/-- `resolve`: the slot that a handle names. -/
def resolve (handle : MaintenanceHandle) : Option ℕ :=
  if handle.ownerEpoch ≠ s.ownerEpoch ∨ s.capacity ≤ handle.slot then none
  else if (s.slots handle.slot).target = none ∨
      (s.slots handle.slot).generation ≠ handle.slotGeneration then none
  else some handle.slot

/-- `register_task` under the lifecycle lock, with its result; none when it fails fast. -/
def registerTask (task : MaintenanceTask) :
    Option (Option MaintenanceHandle × MaintenanceGlobals n × RegisteredScheduler n β) :=
  if s.isSealed then none
  else match (List.range s.capacity).find? fun i => (s.slots i).target = some task with
    | some i => some (some (s.makeHandle i), g, s)
    | none =>
      match (List.range s.capacity).find? fun i => (s.slots i).target = none with
      | none => some (none, g, s)
      | some i =>
        if g.registrationEpoch task ≠ 0 then none
        else
          some (some (s.makeHandle i),
            { g with registrationEpoch := Function.update g.registrationEpoch task s.ownerEpoch },
            { s with slots := Function.update s.slots i { s.slots i with target := some task } })

/-- The end of `try_release`: the task goes, and the slot gets its next generation; none when it
fails fast. -/
def releaseSlot (handle : MaintenanceHandle) :
    Option (MaintenanceGlobals n × RegisteredScheduler n β) :=
  match (s.slots handle.slot).target with
  | none => none
  | some task =>
    if g.registrationEpoch task ≠ s.ownerEpoch then none
    else
      some ({ g with registrationEpoch := Function.update g.registrationEpoch task 0 },
        { s with
          slots := Function.update s.slots handle.slot
            ⟨none, nextGeneration (s.slots handle.slot).generation⟩
          released := handle :: s.released
          releases := Function.update s.releases handle.slot (s.releases handle.slot + 1) })

/-! ### The next access of a thread -/

/-- `try_schedule`, outside the backend; none when the thread waits or fails fast. -/
def advanceSchedule (outer : Bool) :
    SchedulePhase → Option (MaintenanceGlobals n × RegisteredScheduler n β)
  | .locked handle =>
    match s.resolve handle with
    | none => some (g, s.goto t (.schedule outer .left))
    | some i => if s.isSealed then some (g, s.goto t (.schedule outer (.resolved i))) else none
  | .resolved i =>
    if s.observer = none ∧ s.inFlight ≠ maxU64 then
      some (g, { s with inFlight := s.inFlight + 1 }.goto t (.schedule outer (.offering i false)))
    else none
  | .offering _ _ => none
  | .running _ _ _ => none
  | .offered _ result =>
    if result = some .capacityExhausted then some (g, s.goto t (.schedule outer .leaving))
    else if s.activityEpoch ≠ maxU64 then
      some (g, { s with activityEpoch := s.activityEpoch + 1 }.goto t (.schedule outer .counted))
    else none
  | .counted => some (g, { s with idleEpoch := maxU64 }.goto t (.schedule outer .leaving))
  | .leaving =>
    if s.observer = none ∧ s.inFlight ≠ 0 then
      some (g, { s with inFlight := s.inFlight - 1 }.goto t (.schedule outer .left))
    else none
  | .left =>
    if outer then
      some ({ g with active := Function.update g.active t 0 },
        { s with readers := s.readers.erase t }.pop t)
    else some (g, s.pop t)

/-- The verdict of `observe_drain`. -/
def judge (before : Observation) (ended : BackendDrain) (pendingAfter : Bool)
    (inFlightAfter activityAfter : ℕ) : DrainResult :=
  if ended = .stalled then .stalled
  else if pendingAfter then .budgetExhausted
  else if before.pending = false ∧ before.inFlight = 0 ∧ inFlightAfter = 0 ∧
      before.activity = activityAfter then .idle
  else .drained

/-- `run_some` and `flush`, outside the backend; none when the thread waits or fails fast. -/
def advanceDrain : DrainPhase → Option (MaintenanceGlobals n × RegisteredScheduler n β)
  | .locked =>
    if s.isSealed ∧ s.drainer = none then
      some (g, { s with drainer := some t }.goto t (.drain .holding))
    else none
  | .holding => some (g, { s with idleEpoch := maxU64 }.goto t (.drain .cleared))
  | .cleared => some (g, s.goto t (.drain (.sawActivity s.activityEpoch)))
  | .sawActivity activity => some (g, s.goto t (.drain (.sawInFlight activity s.inFlight)))
  | .sawInFlight activity inFlight =>
    some (g, s.goto t (.drain (.sawPending ⟨activity, inFlight, B.hasPending s.backend⟩)))
  | .sawPending _ => none
  | .draining _ => none
  | .running _ _ => none
  | .drained before ended =>
    if ended = .threw then some (g, s.goto t (.drain .leaving))
    else
      some (g, s.goto t (.drain (.sawPendingAfter before ended (B.hasPending s.backend))))
  | .sawPendingAfter before ended pending =>
    if s.observer = none then
      some (g, { s with observer := some t }.goto t (.drain (.observing before ended pending)))
    else none
  | .observing before ended pending =>
    some (g, s.goto t (.drain (.observedInFlight before ended pending s.inFlight)))
  | .observedInFlight before ended pending inFlight =>
    some (g, s.goto t
      (.drain (.observedActivity before ended pending inFlight s.activityEpoch)))
  | .observedActivity before ended pending inFlight activity =>
    let result := judge before ended pending inFlight activity
    some (g, { s with idleEpoch := if result = DrainResult.idle then activity else s.idleEpoch }.goto t
      (.drain (.judged result)))
  | .judged _ => some (g, { s with observer := none }.goto t (.drain .leaving))
  | .leaving => some (g, { s with drainer := none }.goto t (.drain .left))
  | .left =>
    some ({ g with active := Function.update g.active t 0 },
      { s with readers := s.readers.erase t }.pop t)

/-- `try_release`; none when the thread fails fast. -/
def advanceRelease : ReleasePhase → Option (MaintenanceGlobals n × RegisteredScheduler n β)
  | .locked handle =>
    match s.resolve handle with
    | none => some (g, s.goto t (.release .unlocking))
    | some _ =>
      some (g, s.goto t (.release (if s.isSealed then .resolved handle else .permitted handle)))
  | .resolved handle => some (g, s.goto t (.release (.sawIdle handle s.idleEpoch)))
  | .sawIdle handle idle =>
    some (g, s.goto t
      (.release (if idle = s.activityEpoch then .sawEpochs handle else .unlocking)))
  | .sawEpochs handle =>
    some (g, s.goto t
      (.release (if B.hasPending s.backend then .unlocking else .permitted handle)))
  | .permitted handle =>
    (s.releaseSlot g handle).map fun (g, s) => (g, s.goto t (.release .unlocking))
  | .unlocking => some (g, { s with writer := none }.pop t)

/-- The next access of the thread inside the scheduler. -/
def advance : Option (MaintenanceGlobals n × RegisteredScheduler n β) :=
  match s.threads t with
  | [] => none
  | .schedule outer phase :: _ => s.advanceSchedule g t outer phase
  | .drain phase :: _ => s.advanceDrain B g t phase
  | .release phase :: _ => s.advanceRelease B g t phase

end Functions

/-! ### Steps -/

/-- The backend runs a callback in the frame. -/
def Frame.callback : Frame → Bool
  | .schedule _ (.running _ _ _) => true
  | .drain (.running _ _) => true
  | _ => false

/-- What a step of the backend makes of the frame that called it. -/
inductive BackendMove : Frame → BackendEvent → Frame → Prop
  /-- The offer is retained. -/
  | accept (outer i ran) : BackendMove (.schedule outer (.offering i ran)) (.accept i)
      (.schedule outer (.offered i (some .accepted)))
  /-- The offer returns after its run. -/
  | executed (outer i) (result : ScheduleResult) (h : result ≠ .capacityExhausted) :
      BackendMove (.schedule outer (.offering i true)) (.executed i)
        (.schedule outer (.offered i (some result)))
  /-- The offer finds no room. -/
  | refuse (outer i) : BackendMove (.schedule outer (.offering i false)) (.refuse i)
      (.schedule outer (.offered i (some .capacityExhausted)))
  /-- The offer works on. -/
  | offerInternal (outer i ran) : BackendMove (.schedule outer (.offering i ran)) .internal
      (.schedule outer (.offering i ran))
  /-- The offer runs a slot. -/
  | offerRun (outer i ran j) : BackendMove (.schedule outer (.offering i ran)) (.run j)
      (.schedule outer (.running i (ran || i == j) j))
  /-- The slot returns. -/
  | offerReturn (outer i ran j) : BackendMove (.schedule outer (.running i ran j)) .internal
      (.schedule outer (.offering i ran))
  /-- The slot throws out of the offer. -/
  | offerThrow (outer i ran j) : BackendMove (.schedule outer (.running i ran j)) .internal
      (.schedule outer (.offered i none))
  /-- The drain begins. -/
  | beginDrain (before) : BackendMove (.drain (.sawPending before)) .beginDrain
      (.drain (.draining before))
  /-- The drain works on. -/
  | drainInternal (before) : BackendMove (.drain (.draining before)) .internal
      (.drain (.draining before))
  /-- The drain runs a slot. -/
  | drainRun (before j) : BackendMove (.drain (.draining before)) (.run j)
      (.drain (.running before j))
  /-- The slot returns. -/
  | drainReturn (before j) : BackendMove (.drain (.running before j)) .internal
      (.drain (.draining before))
  /-- The slot throws out of the drain. -/
  | drainThrow (before j) : BackendMove (.drain (.running before j)) .endDrain
      (.drain (.drained before .threw))
  /-- The drain ends. -/
  | endDrain (before) (ended : BackendDrain) (h : ended ≠ .threw) :
      BackendMove (.drain (.draining before)) .endDrain (.drain (.drained before ended))

/-- An accepted offer is owed a run, and a run that starts pays. -/
def owe (owed : ℕ → Bool) : BackendEvent → ℕ → Bool
  | .accept i => Function.update owed i true
  | .run i => Function.update owed i false
  | _ => owed

/-- One step of a thread. -/
inductive Step (B : RegisteredBackend β) (t : Fin n) : MaintenanceGlobals n × RegisteredScheduler n β →
    MaintenanceGlobals n × RegisteredScheduler n β → Prop
  /-- `register_task`. -/
  | registerTask {g g' s s'} (task : MaintenanceTask) (result : Option MaintenanceHandle)
      (hactive : g.active t = 0) (hthread : s.threads t = [])
      (hlock : s.writer = none ∧ s.readers = ∅)
      (hrun : s.registerTask g task = some (result, g', s')) : Step B t (g, s) (g', s')
  /-- `seal`. -/
  | sealRegistry {g s b} (hactive : g.active t = 0) (hthread : s.threads t = [])
      (hlock : s.writer = none ∧ s.readers = ∅) (hopen : s.isSealed = false)
      (hstep : B.step s.backend .publish b) :
      Step B t (g, s) (g, { s with isSealed := true, backend := b })
  /-- `try_schedule` begins. -/
  | trySchedule {g s} (handle : MaintenanceHandle) (hactive : g.active t = 0)
      (hthread : s.threads t = []) (hlock : s.writer = none) :
      Step B t (g, s) ({ g with active := Function.update g.active t s.ownerEpoch },
        { s with readers := insert t s.readers }.push t (.schedule true (.locked handle)))
  /-- `try_schedule` begins in a callback. -/
  | nestedSchedule {g s f rest} (handle : MaintenanceHandle) (hactive : g.active t = s.ownerEpoch)
      (hthread : s.threads t = f :: rest) (hcallback : f.callback = true) :
      Step B t (g, s) (g, s.push t (.schedule false (.locked handle)))
  /-- A drain begins. -/
  | drain {g s} (hactive : g.active t = 0) (hthread : s.threads t = [])
      (hlock : s.writer = none) :
      Step B t (g, s) ({ g with active := Function.update g.active t s.ownerEpoch },
        { s with readers := insert t s.readers }.push t (.drain .locked))
  /-- `try_release` begins. -/
  | tryRelease {g s} (handle : MaintenanceHandle) (hactive : g.active t = 0)
      (hthread : s.threads t = []) (hlock : s.writer = none ∧ s.readers = ∅) :
      Step B t (g, s) (g, { s with writer := some t }.push t (.release (.locked handle)))
  /-- The call goes on. -/
  | advance {g g' s s'} (hrun : s.advance B g t = some (g', s')) : Step B t (g, s) (g', s')
  /-- The backend goes on; it runs registered slots only. -/
  | backend {g s f f' rest e b} (hthread : s.threads t = f :: rest) (hmove : BackendMove f e f')
      (htarget : ∀ i, e = .run i → (s.slots i).target ≠ none) (hstep : B.step s.backend e b) :
      Step B t (g, s) (g, { s with backend := b, owed := owe s.owed e }.goto t f')

end RegisteredScheduler

/-- A process with its schedulers. -/
structure MaintenanceSystem (n : ℕ) (β : Type) where
  /-- What they share. -/
  globals : MaintenanceGlobals n := {}
  /-- The schedulers, in the order of their construction. -/
  schedulers : List (RegisteredScheduler n β) := []

namespace MaintenanceSystem

variable {n : ℕ} {β : Type} (B : RegisteredBackend β)

/-- One step of the process. -/
inductive Step : MaintenanceSystem n β → MaintenanceSystem n β → Prop
  /-- The constructor of a scheduler. -/
  | make {sys g} (capacity epoch : ℕ) (hclaim : sys.globals.claimOwnerEpoch = some (epoch, g)) :
      Step sys { globals := g, schedulers := sys.schedulers ++
        [{ ownerEpoch := epoch, capacity := capacity, backend := B.init }] }
  /-- A thread goes on in a scheduler. -/
  | thread {sys g s s'} (k : ℕ) (t : Fin n) (hk : sys.schedulers[k]? = some s)
      (hstep : RegisteredScheduler.Step B t (sys.globals, s) (g, s')) :
      Step sys { globals := g, schedulers := sys.schedulers.set k s' }

/-- States of the process. -/
inductive Reachable : MaintenanceSystem n β → Prop
  | init : Reachable {}
  | step {sys sys'} (h : Reachable sys) (hstep : Step B sys sys') : Reachable sys'

end MaintenanceSystem

end Tess
