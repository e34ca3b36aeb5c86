import Tess.Diagnostics.Flow
import Mathlib.Algebra.BigOperators.Group.List.Basic

/-!
# The resumable work queue

A ticket names one slot of the queue by its index and the generation of the queue.  `advance`
calls the continuations of the pending slots in submission order; what a continuation does is
given from outside, so that every result it may report, and an exception, is covered.

* `ResumableWorkQueue` : the queue and its operations;
* `ResumableWorkQueue.step` : one operation;
* `ResumableWorkQueue.Advanced` : what one advance does to the slots, call by call;
* `ResumableWorkQueue.advanceSlots_spec` : **the loop of an advance** does that.
-/

namespace Tess

/-- `AsyncTicket`: a handle of one slot, stamped with the generation. -/
structure AsyncTicket where
  /-- Place of the slot. -/
  index : ℕ := 0
  /-- Generation of the queue at the submission. -/
  generation : ℕ := 0
  deriving DecidableEq, Repr

/-- `AsyncVersion`. -/
abbrev AsyncVersion := BitVec 64

/-- `AsyncResultState`: the states that a caller sees. -/
inductive AsyncResultState
  | unbound
  | immediate
  | pending
  | ready
  | failed
  | cancelled
  | superseded
  | stale
  deriving DecidableEq, Repr

/-- `AsyncStepState`: what a continuation reports. -/
inductive AsyncStepState
  | pending
  | ready
  | failed
  | stale
  deriving DecidableEq, Repr

/-- The state of a slot after a step that stays within the budget. -/
def AsyncStepState.toResult : AsyncStepState → AsyncResultState
  | .pending => .pending
  | .ready => .ready
  | .failed => .failed
  | .stale => .stale

/-- `AsyncWorkStep`. -/
structure AsyncWorkStep where
  /-- The state after the step. -/
  state : AsyncStepState := .pending
  /-- Items worked off. -/
  itemsDone : BitVec 32 := 0
  /-- Version of the result. -/
  resultVersion : AsyncVersion := 0
  deriving DecidableEq, Repr

/-- `AsyncAdvanceStats`. -/
structure AsyncAdvanceStats where
  /-- Continuations called. -/
  invoked : BitVec 32 := 0
  /-- Items accepted. -/
  itemsDone : BitVec 32 := 0
  /-- Pending slots after the pass. -/
  pending : BitVec 32 := 0
  /-- Immediate and ready slots after the pass. -/
  ready : BitVec 32 := 0
  /-- Failed, cancelled and superseded slots after the pass. -/
  failed : BitVec 32 := 0
  /-- Stale slots after the pass. -/
  stale : BitVec 32 := 0
  deriving DecidableEq, Repr

/-- How the call of a continuation ends, with what it leaves in the value. -/
inductive WorkOutcome (T : Type)
  /-- It returns a step. -/
  | returned (step : AsyncWorkStep) (value : T)
  /-- It throws. -/
  | threw (value : T)
  /-- It changes the queue, which ends the process. -/
  | mutated
  deriving DecidableEq, Repr

/-- One call of an advance: a record of what was called, that the queue does not keep. -/
structure AdvanceCall (T : Type) where
  /-- The slot. -/
  index : ℕ
  /-- The budget it was offered. -/
  offered : BitVec 32
  /-- How it ended. -/
  outcome : WorkOutcome T
  deriving DecidableEq, Repr

/-- The items of a call that the advance accepts: an over-reported step counts for none. -/
def AdvanceCall.accepted {T : Type} (c : AdvanceCall T) : ℕ :=
  match c.outcome with
  | .returned step _ => if c.offered < step.itemsDone then 0 else step.itemsDone.toNat
  | _ => 0

/-- `Slot`; a callback with its context is one value of type `W`. -/
structure AsyncSlot (W T : Type) where
  /-- The result, while it is built as well. -/
  value : T
  /-- The continuation; an immediate result has none. -/
  work : Option W := none
  /-- Version that the caller asks for. -/
  requiredVersion : AsyncVersion := 0
  /-- Version of the result. -/
  resultVersion : AsyncVersion := 0
  /-- The state. -/
  state : AsyncResultState := .unbound
  /-- Tick at the submission. -/
  submittedTick : BitVec 64 := 0
  deriving DecidableEq, Repr

/-- `ResumableWorkQueue<T>`. -/
structure ResumableWorkQueue (W T : Type) where
  /-- Slots in submission order. -/
  slots : List (AsyncSlot W T) := []
  /-- The generation, in 64 bits. -/
  generation : ℕ := 1
  /-- An advance runs. -/
  inAdvance : Bool := false
  /-- Attached accountant. -/
  accounting : Option FlowAccounting := none
  deriving DecidableEq, Repr

/-- What the loop of an advance carries from slot to slot. -/
structure AdvanceState where
  /-- Items left. -/
  remaining : BitVec 32
  /-- Calls left. -/
  invocationsRemaining : BitVec 32
  /-- The counts so far. -/
  stats : AsyncAdvanceStats := {}
  /-- Attached accountant. -/
  accounting : Option FlowAccounting
  deriving DecidableEq, Repr

/-- What the loop of an advance leaves. -/
structure AdvanceRun (W T : Type) where
  /-- The slots it went over. -/
  slots : List (AsyncSlot W T)
  /-- The calls it made. -/
  calls : List (AdvanceCall T) := []
  /-- What it carried at its end. -/
  state : AdvanceState
  /-- A continuation threw. -/
  threw : Bool := false
  deriving DecidableEq, Repr

/-- What the continuations do in one advance: which step the one of a slot reports, or that it
throws.  Every slot is called at most once, so this covers continuations with a state as well. -/
abbrev Continuations (W T : Type) := ℕ → W → BitVec 32 → T → WorkOutcome T

/-- What an advance gives back. -/
structure AdvanceResult (W T : Type) where
  /-- The queue afterwards. -/
  queue : ResumableWorkQueue W T
  /-- The counts; none when an exception went through. -/
  stats : Option AsyncAdvanceStats
  /-- The calls it made. -/
  calls : List (AdvanceCall T)
  deriving DecidableEq, Repr

namespace ResumableWorkQueue

variable {W T : Type} (q : ResumableWorkQueue W T)

/-! ### Tickets -/

/-- `find`. -/
def find (ticket : AsyncTicket) : Option (AsyncSlot W T) :=
  if ticket.generation ≠ q.generation ∨ q.slots.length ≤ ticket.index then none
  else q.slots[ticket.index]?

/-- `state`. -/
def state (ticket : AsyncTicket) : AsyncResultState :=
  match q.find ticket with
  | none => .unbound
  | some slot => slot.state

/-- `result`: none for a null pointer. -/
def result (ticket : AsyncTicket) : Option T :=
  match q.find ticket with
  | none => none
  | some slot =>
    if slot.state ≠ .immediate ∧ slot.state ≠ .ready then none else some slot.value

/-- `required_version`. -/
def requiredVersion (ticket : AsyncTicket) : AsyncVersion :=
  ((q.find ticket).map AsyncSlot.requiredVersion).getD 0

/-- `result_version`. -/
def resultVersion (ticket : AsyncTicket) : AsyncVersion :=
  ((q.find ticket).map AsyncSlot.resultVersion).getD 0

/-! ### Accounting -/

/-- `account_terminal`: a slot that was pending enters the bucket of its state. -/
def accountTerminal (accounting : Option FlowAccounting) (slot : AsyncSlot W T) :
    Option FlowAccounting :=
  accounting.map fun a =>
    match slot.state with
    | .ready => a.terminate .completed slot.submittedTick
    | .failed => a.terminate .failed slot.submittedTick
    | .cancelled => a.terminate .cancelled slot.submittedTick
    | .superseded => a.terminate .superseded slot.submittedTick
    | .stale => a.terminate .stale slot.submittedTick
    | .unbound | .immediate | .pending => a

/-- `set_flow_accounting`; none when the queue is not empty. -/
def setFlowAccounting (accounting : Option FlowAccounting) : Option (ResumableWorkQueue W T) :=
  if q.slots ≠ [] then none else some { q with accounting := accounting }

/-- The ticks at which the pending slots were submitted. -/
def pendingTicks : List (BitVec 64) :=
  (q.slots.filter (·.state = .pending)).map AsyncSlot.submittedTick

/-- `observe_flow_tick`; none while an advance runs. -/
def observeFlowTick (tick : BitVec 64) : Option (ResumableWorkQueue W T) :=
  if q.inAdvance then none
  else some { q with
    accounting := q.accounting.map fun a =>
      let a := a.observeTick tick
      let now := a.lastObservedTick
      let oldest := q.pendingTicks.foldl (fun old t => if t < old then t else old) now
      { a with counters := { a.counters with
          oldestOutstandingAgeTicks := if q.pendingTicks = [] then 0 else now - oldest } } }

/-! ### Submission -/

/-- `submit`, with the ticket; none when the process ends: an advance runs, the callback is null,
or the indices of tickets are used up. -/
def submit [Inhabited T] (work : Option W) (requiredVersion : AsyncVersion) :
    Option (AsyncTicket × ResumableWorkQueue W T) :=
  if q.inAdvance then none
  else match work with
  | none => none
  | some work =>
    if 2 ^ 32 - 1 < q.slots.length then none
    else
      let slot : AsyncSlot W T :=
        { value := default
          work := some work
          requiredVersion := requiredVersion
          state := .pending
          submittedTick := (q.accounting.map FlowAccounting.lastObservedTick).getD 0 }
      some (⟨q.slots.length, q.generation⟩,
        { q with
          slots := q.slots ++ [slot]
          accounting := q.accounting.map fun a => FlowAccounting.recordAdmitted
            { a with counters := { a.counters with offered := a.counters.offered + 1 } } })

/-- `submit_immediate`, with the ticket; none when the process ends. -/
def submitImmediate (value : T) (resultVersion : AsyncVersion) :
    Option (AsyncTicket × ResumableWorkQueue W T) :=
  if q.inAdvance then none
  else if 2 ^ 32 - 1 < q.slots.length then none
  else
    let slot : AsyncSlot W T :=
      { value := value, resultVersion := resultVersion, state := .immediate }
    some (⟨q.slots.length, q.generation⟩,
      { q with
        slots := q.slots ++ [slot]
        accounting := q.accounting.map fun a => { a with counters := { a.counters with
          offered := a.counters.offered + 1
          admitted := a.counters.admitted + 1
          completed := a.counters.completed + 1 } } })

/-! ### Advancing -/

/-- `summarize_states`, one slot further. -/
def summarizeState (stats : AsyncAdvanceStats) (slot : AsyncSlot W T) : AsyncAdvanceStats :=
  match slot.state with
  | .pending => { stats with pending := stats.pending + 1 }
  | .immediate | .ready => { stats with ready := stats.ready + 1 }
  | .failed | .cancelled | .superseded => { stats with failed := stats.failed + 1 }
  | .stale => { stats with stale := stats.stale + 1 }
  | .unbound => stats

/-- `summarize_states`. -/
def summarizeStates (stats : AsyncAdvanceStats) (slots : List (AsyncSlot W T)) :
    AsyncAdvanceStats :=
  slots.foldl summarizeState stats

/-- The body of the loop behind a call that returned a step. -/
def commitStep (slot : AsyncSlot W T) (s : AdvanceState) (step : AsyncWorkStep) (value : T) :
    AsyncSlot W T × AdvanceState :=
  let s := { s with
    stats := { s.stats with invoked := s.stats.invoked + 1 }
    invocationsRemaining := s.invocationsRemaining - 1 }
  if s.remaining < step.itemsDone then
    let slot := { slot with value := value, state := .failed }
    (slot, { s with accounting := accountTerminal s.accounting slot })
  else
    let slot :=
      { slot with
        value := value
        resultVersion := step.resultVersion
        state := step.state.toResult }
    let consumed := s.accounting.map fun a => { a with counters := { a.counters with
      consumedWorkUnits := a.counters.consumedWorkUnits + step.itemsDone.setWidth 64 } }
    (slot, { s with
      remaining := s.remaining - step.itemsDone
      stats := { s.stats with itemsDone := s.stats.itemsDone + step.itemsDone }
      accounting := accountTerminal consumed slot })

/-- The loop of `advance` from a slot on; none when the process ends: a pending slot has no
callback, or a callback changes the queue. -/
def advanceSlots (call : Continuations W T) :
    ℕ → List (AsyncSlot W T) → AdvanceState → Option (AdvanceRun W T)
  | _, [], s => some { slots := [], state := s }
  | i, slot :: slots, s =>
    if s.remaining = 0 ∨ s.invocationsRemaining = 0 then
      some { slots := slot :: slots, state := s }
    else if slot.state ≠ .pending then
      (advanceSlots call (i + 1) slots s).map fun r => { r with slots := slot :: r.slots }
    else
      match slot.work with
      | none => none
      | some work =>
        match call i work s.remaining slot.value with
        | .mutated => none
        | .threw value =>
          -- the exception leaves the loop: the later slots are not visited
          some
            { slots := { slot with value := value } :: slots
              calls := [⟨i, s.remaining, .threw value⟩]
              state := s
              threw := true }
        | .returned step value =>
          let committed := commitStep slot s step value
          (advanceSlots call (i + 1) slots committed.2).map fun r => { r with
            slots := committed.1 :: r.slots
            calls := ⟨i, s.remaining, .returned step value⟩ :: r.calls }

/-- `advance`; none when the process ends.  The guard resets the latch on both ways out. -/
def advance (maxItems : BitVec 32) (call : Continuations W T) : Option (AdvanceResult W T) :=
  if q.inAdvance then none
  else
    let accounting := q.accounting.map fun a => { a with counters := { a.counters with
      offeredWorkUnits := a.counters.offeredWorkUnits + maxItems.setWidth 64 } }
    (advanceSlots call 0 q.slots
      { remaining := maxItems, invocationsRemaining := maxItems, accounting := accounting }).map
      fun r =>
        { queue := { q with
            slots := r.slots
            inAdvance := false
            accounting := r.state.accounting }
          stats := if r.threw then none else some (summarizeStates r.state.stats r.slots)
          calls := r.calls }

/-! ### Terminal states -/

/-- Change the slot of a ticket. -/
def setSlot (ticket : AsyncTicket) (slot : AsyncSlot W T) : ResumableWorkQueue W T :=
  { q with slots := q.slots.set ticket.index slot }

/-- `set_terminal`; none while an advance runs. -/
def setTerminal (ticket : AsyncTicket) (state : AsyncResultState) :
    Option (Bool × ResumableWorkQueue W T) :=
  if q.inAdvance then none
  else match q.find ticket with
  | none => some (false, q)
  | some slot =>
    if slot.state ≠ .pending then some (false, q)
    else
      let slot := { slot with state := state }
      some (true, { q.setSlot ticket slot with accounting := accountTerminal q.accounting slot })

/-- `cancel`. -/
def cancel (ticket : AsyncTicket) : Option (Bool × ResumableWorkQueue W T) :=
  q.setTerminal ticket .cancelled

/-- `supersede`. -/
def supersede (ticket : AsyncTicket) : Option (Bool × ResumableWorkQueue W T) :=
  q.setTerminal ticket .superseded

/-- `fail`. -/
def fail (ticket : AsyncTicket) : Option (Bool × ResumableWorkQueue W T) :=
  q.setTerminal ticket .failed

/-- `mark_stale`. -/
def markStale (ticket : AsyncTicket) : Option (Bool × ResumableWorkQueue W T) :=
  q.setTerminal ticket .stale

/-- `mark_stale_if_version`; none while an advance runs. -/
def markStaleIfVersion (ticket : AsyncTicket) (current : AsyncVersion) :
    Option (Bool × ResumableWorkQueue W T) :=
  if q.inAdvance then none
  else match q.find ticket with
  | none => some (false, q)
  | some slot =>
    if (slot.state ≠ .immediate ∧ slot.state ≠ .ready) ∨ slot.resultVersion = current then
      some (false, q)
    else
      some (true, { q.setSlot ticket { slot with state := .stale } with
        accounting := q.accounting.map fun a => { a with counters := { a.counters with
          completed :=
            if 0 < a.counters.completed then a.counters.completed - 1 else a.counters.completed
          stale := a.counters.stale + 1 } } })

/-- The generation behind a generation: a wrapped counter skips zero. -/
def nextGeneration (generation : ℕ) : ℕ :=
  let next := (generation + 1) % 2 ^ 64
  if next = 0 then (next + 1) % 2 ^ 64 else next

/-- `clear`; none while an advance runs. -/
def clear : Option (ResumableWorkQueue W T) :=
  if q.inAdvance then none
  else some { q with
    slots := []
    generation := nextGeneration q.generation
    accounting := q.accounting.map fun a =>
      q.pendingTicks.foldl (fun a t => a.terminate .droppedAfterAdmission t) a }

end ResumableWorkQueue

/-! ### Runs -/

/-- The operations of the queue. -/
inductive AsyncOp (W T : Type)
  | submit (work : Option W) (requiredVersion : AsyncVersion)
  | submitImmediate (value : T) (resultVersion : AsyncVersion)
  | advance (maxItems : BitVec 32) (call : Continuations W T)
  | cancel (ticket : AsyncTicket)
  | supersede (ticket : AsyncTicket)
  | fail (ticket : AsyncTicket)
  | markStale (ticket : AsyncTicket)
  | markStaleIfVersion (ticket : AsyncTicket) (current : AsyncVersion)
  | setFlowAccounting (accounting : Option FlowAccounting)
  | observeFlowTick (tick : BitVec 64)
  | clear

namespace ResumableWorkQueue

variable {W T : Type} [Inhabited T]

/-- One operation; none when it ends the process. -/
def step (q : ResumableWorkQueue W T) : AsyncOp W T → Option (ResumableWorkQueue W T)
  | .submit work version => (q.submit work version).map Prod.snd
  | .submitImmediate value version => (q.submitImmediate value version).map Prod.snd
  | .advance maxItems call => (q.advance maxItems call).map AdvanceResult.queue
  | .cancel ticket => (q.cancel ticket).map Prod.snd
  | .supersede ticket => (q.supersede ticket).map Prod.snd
  | .fail ticket => (q.fail ticket).map Prod.snd
  | .markStale ticket => (q.markStale ticket).map Prod.snd
  | .markStaleIfVersion ticket current => (q.markStaleIfVersion ticket current).map Prod.snd
  | .setFlowAccounting accounting => q.setFlowAccounting accounting
  | .observeFlowTick tick => q.observeFlowTick tick
  | .clear => q.clear

/-- A run of operations; none when one of them ends the process. -/
def run (q : ResumableWorkQueue W T) : List (AsyncOp W T) → Option (ResumableWorkQueue W T)
  | [] => some q
  | op :: ops => (q.step op).bind fun q => q.run ops

/-- The clears of a run. -/
def clears : List (AsyncOp W T) → ℕ
  | [] => 0
  | .clear :: ops => clears ops + 1
  | _ :: ops => clears ops

end ResumableWorkQueue

/-! ### One advance -/

/-- The slot behind a call: a step past its budget fails the slot and changes nothing else. -/
def AdvanceCall.settle {W T : Type} (c : AdvanceCall T) (slot : AsyncSlot W T) : AsyncSlot W T :=
  match c.outcome with
  | .returned step value =>
    if c.offered < step.itemsDone then { slot with value := value, state := .failed }
    else { slot with
      value := value
      resultVersion := step.resultVersion
      state := step.state.toResult }
  | .threw value => { slot with value := value }
  | .mutated => slot

/-- A call of a pending slot, which got its outcome from the continuation of the slot. -/
def AdvanceCall.IsCall {W T : Type} (c : AdvanceCall T) (call : Continuations W T)
    (slot : AsyncSlot W T) : Prop :=
  slot.state = .pending ∧
    ∃ work, slot.work = some work ∧ c.outcome = call c.index work c.offered slot.value

namespace ResumableWorkQueue

variable {W T : Type}

/-- **What an advance does** to the slots from an index on, with the two budgets it starts from. -/
structure Advanced (call : Continuations W T) (first items invocations : ℕ)
    (slots slots' : List (AsyncSlot W T)) (calls : List (AdvanceCall T)) (threw : Bool) : Prop where
  /-- No slot comes or goes. -/
  length : slots'.length = slots.length
  /-- The calls follow the order of submission, one for a slot at most. -/
  ordered : (calls.map AdvanceCall.index).Pairwise (· < ·)
  /-- They are calls of slots. -/
  inside : ∀ c ∈ calls, first ≤ c.index ∧ c.index < first + slots.length
  /-- A slot that is called was pending and is settled by its call, any other stays as it is. -/
  settled : ∀ j slot, slots[j]? = some slot → ∃ slot', slots'[j]? = some slot' ∧
    ((∀ c ∈ calls, c.index ≠ first + j) ∧ slot' = slot ∨
      ∃ c ∈ calls, c.index = first + j ∧ c.IsCall call slot ∧ slot' = c.settle slot)
  /-- There are no more calls than the budget has. -/
  calls_le : calls.length ≤ invocations
  /-- There are no more accepted items than the budget has. -/
  accepted_le : (calls.map AdvanceCall.accepted).sum ≤ items
  /-- A call is offered what the calls before it left, which is something. -/
  offered : ∀ before c after, calls = before ++ c :: after →
    c.offered.toNat + (before.map AdvanceCall.accepted).sum = items ∧ c.offered ≠ 0
  /-- The call that throws is the last one. -/
  throws : ∀ before c after value, calls = before ++ c :: after → c.outcome = .threw value →
    after = [] ∧ threw = true
  /-- An exception comes from a call. -/
  thrown : threw = true → ∃ c ∈ calls, ∃ value, c.outcome = .threw value
  /-- No pending slot is passed over, and the calls end early only when a budget is used up or a
  call throws. -/
  complete : ∀ j slot, slots[j]? = some slot → slot.state = .pending →
    (∃ c ∈ calls, c.index = first + j) ∨
      (∀ c ∈ calls, c.index < first + j) ∧
        (threw = true ∨ (calls.map AdvanceCall.accepted).sum = items ∨ calls.length = invocations)

namespace Advanced

variable {call : Continuations W T} {first items invocations : ℕ}
  {slot : AsyncSlot W T} {slots slots' : List (AsyncSlot W T)} {calls : List (AdvanceCall T)}
  {threw : Bool}

/-- A loop without a call. -/
theorem idle (h : slots = [] ∨ items = 0 ∨ invocations = 0) :
    Advanced call first items invocations slots slots [] false where
  length := rfl
  ordered := List.Pairwise.nil
  inside c hc := absurd hc List.not_mem_nil
  settled j slot hslot := ⟨slot, hslot, .inl ⟨fun c hc => absurd hc List.not_mem_nil, rfl⟩⟩
  calls_le := Nat.zero_le _
  accepted_le := Nat.zero_le _
  offered before c after heq := absurd heq.symm (by simp)
  throws before c after value heq := absurd heq.symm (by simp)
  thrown h := absurd h (by simp)
  complete j slot hslot hpending := by
    rcases h with rfl | h | h
    · simp at hslot
    · exact .inr ⟨by simp, .inr (.inl (by simp [h]))⟩
    · exact .inr ⟨by simp, .inr (.inr (by simp [h]))⟩

/-- A slot that is not pending is passed over. -/
theorem skip (hslot : slot.state ≠ .pending)
    (h : Advanced call (first + 1) items invocations slots slots' calls threw) :
    Advanced call first items invocations (slot :: slots) (slot :: slots') calls threw where
  length := by simp [h.length]
  ordered := h.ordered
  inside c hc := by
    have hin := h.inside c hc
    simp only [List.length_cons]
    omega
  settled j slot₁ hj := by
    cases j with
    | zero =>
      simp only [List.getElem?_cons_zero, Option.some.injEq] at hj
      subst hj
      refine ⟨slot, rfl, .inl ⟨fun c hc => ?_, rfl⟩⟩
      have hin := h.inside c hc
      omega
    | succ j =>
      rw [List.getElem?_cons_succ] at hj
      rw [List.getElem?_cons_succ]
      simpa only [Nat.add_assoc, Nat.add_comm 1 j] using h.settled j slot₁ hj
  calls_le := h.calls_le
  accepted_le := h.accepted_le
  offered := h.offered
  throws := h.throws
  thrown := h.thrown
  complete j slot₁ hj hpending := by
    cases j with
    | zero =>
      simp only [List.getElem?_cons_zero, Option.some.injEq] at hj
      exact absurd (hj ▸ hpending) hslot
    | succ j =>
      rw [List.getElem?_cons_succ] at hj
      simpa only [Nat.add_assoc, Nat.add_comm 1 j] using h.complete j slot₁ hj hpending

/-- A call that returns, in front of the calls of the later slots. -/
theorem cons {c : AdvanceCall T} {left : ℕ} (hindex : c.index = first)
    (hcall : c.IsCall call slot) (hinvocations : invocations ≠ 0)
    (hoffered : c.offered.toNat = items) (hitems : c.offered ≠ 0)
    (hleft : c.accepted + left = items)
    (hreturned : ∀ value, c.outcome ≠ .threw value)
    (h : Advanced call (first + 1) left (invocations - 1) slots slots' calls threw) :
    Advanced call first items invocations (slot :: slots) (c.settle slot :: slots')
      (c :: calls) threw where
  length := by simp [h.length]
  ordered := by
    rw [List.map_cons, List.pairwise_cons]
    refine ⟨fun k hk => ?_, h.ordered⟩
    obtain ⟨d, hd, rfl⟩ := List.mem_map.1 hk
    have hin := h.inside d hd
    omega
  inside d hd := by
    rw [List.length_cons]
    rcases List.mem_cons.1 hd with rfl | hd
    · omega
    · have hin := h.inside d hd
      omega
  settled j slot₁ hj := by
    cases j with
    | zero =>
      simp only [List.getElem?_cons_zero, Option.some.injEq] at hj
      subst hj
      exact ⟨c.settle slot, rfl, .inr ⟨c, List.mem_cons_self, hindex, hcall, rfl⟩⟩
    | succ j =>
      rw [List.getElem?_cons_succ] at hj
      obtain ⟨slot', hslot', hcases⟩ := h.settled j slot₁ hj
      refine ⟨slot', by rwa [List.getElem?_cons_succ], ?_⟩
      rcases hcases with ⟨hno, heq⟩ | ⟨d, hd, hdi, hdc, heq⟩
      · refine .inl ⟨fun d hd => ?_, heq⟩
        rcases List.mem_cons.1 hd with rfl | hd
        · omega
        · have := hno d hd
          omega
      · exact .inr ⟨d, List.mem_cons_of_mem c hd, by omega, hdc, heq⟩
  calls_le := by
    have := h.calls_le
    rw [List.length_cons]
    omega
  accepted_le := by
    have := h.accepted_le
    rw [List.map_cons, List.sum_cons]
    omega
  offered before d after heq := by
    rcases List.append_eq_cons_iff.1 heq.symm with ⟨rfl, hcons⟩ | ⟨before', rfl, hcons⟩
    · obtain ⟨rfl, -⟩ := List.cons.inj hcons
      exact ⟨by simpa using hoffered, hitems⟩
    · obtain ⟨hsum, hne⟩ := h.offered before' d after hcons
      refine ⟨?_, hne⟩
      rw [List.map_cons, List.sum_cons]
      omega
  throws before d after value heq hout := by
    rcases List.append_eq_cons_iff.1 heq.symm with ⟨rfl, hcons⟩ | ⟨before', rfl, hcons⟩
    · obtain ⟨rfl, -⟩ := List.cons.inj hcons
      exact absurd hout (hreturned value)
    · exact h.throws before' d after value hcons hout
  thrown ht := by
    obtain ⟨d, hd, value, hout⟩ := h.thrown ht
    exact ⟨d, List.mem_cons_of_mem c hd, value, hout⟩
  complete j slot₁ hj hpending := by
    cases j with
    | zero => exact .inl ⟨c, List.mem_cons_self, hindex⟩
    | succ j =>
      rw [List.getElem?_cons_succ] at hj
      rcases h.complete j slot₁ hj hpending with ⟨d, hd, hdi⟩ | ⟨hbefore, hwhy⟩
      · exact .inl ⟨d, List.mem_cons_of_mem c hd, by omega⟩
      · refine .inr ⟨fun d hd => ?_, ?_⟩
        · rcases List.mem_cons.1 hd with rfl | hd
          · omega
          · have := hbefore d hd
            omega
        · rw [List.map_cons, List.sum_cons, List.length_cons]
          rcases hwhy with ht | hsum | hlen
          · exact .inl ht
          · exact .inr (.inl (by omega))
          · exact .inr (.inr (by omega))

/-- A call that throws is the last one. -/
theorem throw {c : AdvanceCall T} {value : T} (hindex : c.index = first)
    (hcall : c.IsCall call slot) (hinvocations : invocations ≠ 0)
    (hoffered : c.offered.toNat = items) (hitems : c.offered ≠ 0)
    (hthrow : c.outcome = .threw value) :
    Advanced call first items invocations (slot :: slots) (c.settle slot :: slots) [c] true where
  length := rfl
  ordered := by simp
  inside d hd := by
    rw [List.length_cons]
    have hdc := List.mem_singleton.1 hd
    subst hdc
    omega
  settled j slot₁ hj := by
    cases j with
    | zero =>
      simp only [List.getElem?_cons_zero, Option.some.injEq] at hj
      subst hj
      exact ⟨c.settle slot, rfl, .inr ⟨c, List.mem_cons_self, hindex, hcall, rfl⟩⟩
    | succ j =>
      refine ⟨slot₁, hj, .inl ⟨fun d hd => ?_, rfl⟩⟩
      have hdc := List.mem_singleton.1 hd
      subst hdc
      omega
  calls_le := by
    rw [List.length_singleton]
    omega
  accepted_le := by simp [AdvanceCall.accepted, hthrow]
  offered before d after heq := by
    rcases List.append_eq_cons_iff.1 heq.symm with ⟨rfl, hcons⟩ | ⟨before', rfl, hcons⟩
    · obtain ⟨rfl, -⟩ := List.cons.inj hcons
      exact ⟨by simpa using hoffered, hitems⟩
    · simp at hcons
  throws before d after value' heq hout := by
    rcases List.append_eq_cons_iff.1 heq.symm with ⟨rfl, hcons⟩ | ⟨before', rfl, hcons⟩
    · exact ⟨(List.cons.inj hcons).2, rfl⟩
    · simp at hcons
  thrown _ := ⟨c, List.mem_singleton_self c, value, hthrow⟩
  complete j slot₁ hj hpending := by
    cases j with
    | zero => exact .inl ⟨c, List.mem_cons_self, hindex⟩
    | succ j =>
      refine .inr ⟨fun d hd => ?_, .inl rfl⟩
      have hdc := List.mem_singleton.1 hd
      subst hdc
      omega

end Advanced

/-! ### The loop of an advance -/

section Loop

variable {call : Continuations W T} {i : ℕ} {slots : List (AsyncSlot W T)} {s : AdvanceState}
  {slot : AsyncSlot W T} {r : AdvanceRun W T}

/-- What the body of the loop leaves of the slot and of the budgets. -/
theorem commitStep_spec (slot : AsyncSlot W T) (step : AsyncWorkStep) (value : T)
    (hinvocations : s.invocationsRemaining ≠ 0) :
    let c : AdvanceCall T := ⟨i, s.remaining, .returned step value⟩
    (commitStep slot s step value).1 = c.settle slot ∧
      c.accepted + (commitStep slot s step value).2.remaining.toNat = s.remaining.toNat ∧
      (commitStep slot s step value).2.invocationsRemaining.toNat =
        s.invocationsRemaining.toNat - 1 := by
  have hpos : 1#32 ≤ s.invocationsRemaining := by
    have hne : s.invocationsRemaining.toNat ≠ 0 := fun h0 =>
      hinvocations (BitVec.eq_of_toNat_eq h0)
    rw [BitVec.le_def]
    exact Nat.one_le_iff_ne_zero.2 hne
  have hone : (s.invocationsRemaining - 1).toNat = s.invocationsRemaining.toNat - 1 :=
    BitVec.toNat_sub_of_le hpos
  dsimp only
  unfold commitStep AdvanceCall.settle AdvanceCall.accepted
  dsimp only
  split_ifs with hover
  · exact ⟨rfl, by simp, hone⟩
  · refine ⟨rfl, ?_, hone⟩
    have hle : step.itemsDone ≤ s.remaining := BitVec.not_lt.1 hover
    rw [BitVec.toNat_sub_of_le hle]
    have := BitVec.le_def.1 hle
    omega

/-- **The loop of an advance** does what an advance does. -/
theorem advanceSlots_spec : ∀ {slots : List (AsyncSlot W T)} {i : ℕ} {s : AdvanceState}
    {r : AdvanceRun W T}, advanceSlots call i slots s = some r →
    Advanced call i s.remaining.toNat s.invocationsRemaining.toNat slots r.slots r.calls
      r.threw := by
  intro slots
  induction slots with
  | nil =>
    intro i s r h
    simp only [advanceSlots, Option.some.injEq] at h
    subst h
    exact Advanced.idle (.inl rfl)
  | cons slot slots ih =>
    intro i s r h
    rw [advanceSlots] at h
    split_ifs at h with hspent hpending
    · -- a budget is used up: the loop breaks
      simp only [Option.some.injEq] at h
      subst h
      refine Advanced.idle (.inr ?_)
      rcases hspent with h | h
      · exact .inl (by rw [h]; rfl)
      · exact .inr (by rw [h]; rfl)
    · obtain ⟨r', hr', rfl⟩ := Option.map_eq_some_iff.1 h
      exact (ih hr').skip hpending
    · push Not at hspent hpending
      have hinv : s.invocationsRemaining.toNat ≠ 0 := by
        intro h0
        exact hspent.2 (BitVec.eq_of_toNat_eq h0)
      split at h
      · simp at h
      next work hwork =>
      split at h
      · simp at h
      next value hcall =>
        simp only [Option.some.injEq] at h
        subst h
        exact Advanced.throw (c := ⟨i, s.remaining, .threw value⟩) rfl
          ⟨hpending, work, hwork, hcall.symm⟩ hinv rfl hspent.1 rfl
      next step value hcall =>
        obtain ⟨r', hr', rfl⟩ := Option.map_eq_some_iff.1 h
        obtain ⟨hsettle, hremaining, hone⟩ := commitStep_spec (i := i) slot step value hspent.2
        have hrest := ih hr'
        rw [hone] at hrest
        dsimp only
        rw [hsettle]
        exact hrest.cons (c := ⟨i, s.remaining, .returned step value⟩) rfl
          ⟨hpending, work, hwork, hcall.symm⟩ hinv rfl hspent.1 hremaining (by simp)

/-- The loop comes to an end, unless a continuation ends the process. -/
theorem advanceSlots_isSome (hcall : ∀ i work offered value, call i work offered value ≠ .mutated) :
    ∀ {slots : List (AsyncSlot W T)} {i : ℕ} {s : AdvanceState},
      (∀ slot ∈ slots, slot.state = .pending → slot.work ≠ none) →
      ∃ r, advanceSlots call i slots s = some r := by
  intro slots
  induction slots with
  | nil =>
    intro i s _
    exact ⟨_, rfl⟩
  | cons slot slots ih =>
    intro i s hwork
    have hrest := fun {i : ℕ} {s : AdvanceState} =>
      ih (i := i) (s := s) fun slot hslot => hwork slot (List.mem_cons_of_mem _ hslot)
    rw [advanceSlots]
    split_ifs with hspent hpending
    · exact ⟨_, rfl⟩
    · obtain ⟨r, hr⟩ := hrest (i := i + 1) (s := s)
      exact ⟨_, by rw [hr]; rfl⟩
    · push Not at hpending
      split
      next hnone => exact absurd hnone (hwork slot List.mem_cons_self hpending)
      next work _ =>
      split
      next hout => exact absurd hout (hcall i work s.remaining slot.value)
      next value _ => exact ⟨_, rfl⟩
      next step value _ =>
        obtain ⟨r, hr⟩ := hrest (i := i + 1) (s := (commitStep slot s step value).2)
        dsimp only
        exact ⟨_, by rw [hr]; rfl⟩

end Loop

end ResumableWorkQueue

end Tess
