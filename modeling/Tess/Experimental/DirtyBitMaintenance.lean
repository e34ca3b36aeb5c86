import Tess.Experimental.ChunkMaintenance

/-!
# Chunk maintenance over the dirty-bit scheduler

The dirty-bit scheduler keeps one pending bit per task, in words of 64.  A drain takes the bits
of one word at a time and runs their tasks in order; what it cannot run it puts back, and it
sweeps over the words until a sweep runs nothing.  The registered scheduler around it reports
`Idle` only when nothing was pending before and nothing happened meanwhile.

* `Maintenance` : the adapter, the scheduler and a log of what was marked, offered, cleared and
  thrown;
* `Maintenance.runSome`, `Maintenance.flush` : the drains, with the rebuild callbacks as scripts
  of what they do;
* `Maintenance.op_runs` : **every operation is a run of `Adapter.Step`**, so that current
  products are right;
* `Maintenance.flush_idle` : **an idle flush leaves no mark behind**, unless the rebuild of the
  chunk threw after its latest offer.
-/

namespace Tess

/-- Outcome of a scheduler offer. -/
inductive ScheduleResult
  | accepted
  | capacityExhausted
  | stalled
  deriving DecidableEq, Repr

/-- Outcome of a drain. -/
inductive DrainResult
  | idle
  | drained
  | budgetExhausted
  | stalled
  deriving DecidableEq, Repr

/-- A drain returned, or an exception left it. -/
inductive DrainOutcome
  | returned (result : DrainResult)
  | threw
  deriving DecidableEq, Repr

/-- How the drain of the backend ends. -/
inductive BackendDrain
  | completed
  | stalled
  | threw
  deriving DecidableEq, Repr

/-- What the log records. -/
inductive MaintenanceEvent
  /-- The adapter marked a chunk. -/
  | marked (key : ℕ) (mask : BitVec 32)
  /-- Bits of a chunk were cleared. -/
  | cleared (key : ℕ) (mask : BitVec 32)
  /-- A chunk became resident. -/
  | resident (key : ℕ)
  /-- A slot was offered. -/
  | offered (s : ℕ)
  /-- The rebuild of a chunk threw. -/
  | threw (s key : ℕ)

/-- An adapter mark set the bit of the chunk, and nothing cleared it since; the log lists the
newest event first. -/
def MarkedBy (key b : ℕ) : List MaintenanceEvent → Prop
  | [] => False
  | .marked k mask :: log => (k = key ∧ mask.getLsbD b = true) ∨ MarkedBy key b log
  | .cleared k mask :: log => ¬ (k = key ∧ mask.getLsbD b = true) ∧ MarkedBy key b log
  | .resident k :: log => k ≠ key ∧ MarkedBy key b log
  | .offered _ :: log => MarkedBy key b log
  | .threw _ _ :: log => MarkedBy key b log

/-- The rebuild of the chunk threw after the latest offer of its slot. -/
def ThrewSinceOffer (s key : ℕ) : List MaintenanceEvent → Prop
  | [] => False
  | .offered s' :: log => s' ≠ s ∧ ThrewSinceOffer s key log
  | .threw s' k :: log => (s' = s ∧ k = key) ∨ ThrewSinceOffer s key log
  | _ :: log => ThrewSinceOffer s key log

/-- What a rebuild callback does. -/
inductive CallbackAct (C P : Type)
  | write (p : P)
  | markDirty (key : ℕ) (mask : BitVec 32) (bounds : Box3)
  | retry (key : ℕ)
  | world (act : WorldAct C)

/-- One call of the rebuild callback: what it does, and whether it throws in the end. -/
structure RebuildCall (C P : Type) where
  /-- Its actions, in order. -/
  acts : List (CallbackAct C P) := []
  /-- It ends with an exception. -/
  threw : Bool := false

/-- The adapter and its registered dirty-bit scheduler. -/
structure Maintenance (C P : Type) where
  /-- The adapter. -/
  adapter : Adapter C P
  /-- Pending bits; the task of a slot has the slot's index. -/
  pending : ℕ → Bool := fun _ => false
  /-- A task runs. -/
  active : Bool := false
  /-- The running task was offered something. -/
  runningTaskScheduled : Bool := false
  /-- Number of accepted offers. -/
  activityEpoch : ℕ := 0
  /-- The activity of the last idle observation; none is the maximum. -/
  idleEpoch : Option ℕ := none
  /-- Number of rebuild callbacks so far. -/
  invocations : ℕ := 0
  /-- What happened, the newest first. -/
  log : List MaintenanceEvent := []

namespace Maintenance

variable {C P : Type} [Inhabited C] (rebuild : ℕ → C → P) (calls : ℕ → RebuildCall C P)
  (m : Maintenance C P)

/-- Number of words of pending bits. -/
def wordCount : ℕ :=
  m.adapter.world.capacity / 64 + if m.adapter.world.capacity % 64 = 0 then 0 else 1

/-- `has_pending`. -/
def hasPending : Bool := (List.range (64 * m.wordCount)).any m.pending

/-! ### Offers -/

/-- `RegisteredScheduler::schedule` of a slot: the dirty-bit backend accepts every sealed
registration. -/
def schedule (s : ℕ) : ScheduleResult × Maintenance C P :=
  (.accepted, { m with
    pending := Function.update m.pending s true
    runningTaskScheduled := m.active || m.runningTaskScheduled
    activityEpoch := m.activityEpoch + 1
    idleEpoch := none
    log := .offered s :: m.log })

/-- `schedule_slot`: a claimed debt is owed again when the offer is refused. -/
def scheduleSlot (s : ℕ) : ScheduleResult × Maintenance C P :=
  let claimed := (m.adapter.slots s).retryDebt
  let (result, m) := { m with adapter := m.adapter.claimDebt s }.schedule s
  if claimed ∧ result ≠ .accepted then (result, { m with adapter := m.adapter.oweRetry s })
  else (result, m)

/-- `map_mark_result`. -/
def mapMarkResult : ScheduleResult → ChunkMarkResult
  | .accepted => .accepted
  | .capacityExhausted => .capacityExhausted
  | .stalled => .stalled

/-- `mark_dirty`: mark the world, then offer the slot. -/
def markDirty (key : ℕ) (mask : BitVec 32) (bounds : Box3) : ChunkMarkResult × Maintenance C P :=
  match m.adapter.mark key mask bounds with
  | .error result => (result, m)
  | .ok (s, a) =>
    let (result, m) := { m with adapter := a, log := .marked key mask :: m.log }.scheduleSlot s
    (mapMarkResult result, m)

/-- `retry`: offer the slot again without changing the world. -/
def retry (key : ℕ) : Option ScheduleResult × Maintenance C P :=
  if m.adapter.released then (none, m)
  else match m.adapter.boundSlot key with
    | none => (none, m)
    | some s =>
      let (result, m) := m.scheduleSlot s
      (some result, m)

/-- What the log keeps of a change of the world. -/
def noteWorld (act : WorldAct C) (before after : ChunkStore C) :
    List MaintenanceEvent → List MaintenanceEvent :=
  match act with
  | .clearDirty key mask => (.cleared key mask :: ·)
  | .ensureResident key =>
    if (before.resident key).isNone && (after.resident key).isSome then (.resident key :: ·) else id
  | _ => id

/-- Other code acts on the world. -/
def worldAct (act : WorldAct C) : Maintenance C P :=
  { m with
    adapter := m.adapter.worldAct act
    log := noteWorld act m.adapter.world (act.apply m.adapter.world) m.log }

/-! ### Task runs -/

/-- One action of the callback that runs on a slot. -/
def act (s : ℕ) (m : Maintenance C P) : CallbackAct C P → Maintenance C P
  | .write p => { m with adapter := m.adapter.writeProduct s p }
  | .markDirty key mask bounds => (m.markDirty key mask bounds).2
  | .retry key => (m.retry key).2
  | .world act => m.worldAct act

/-- `run_slot` after its callback returned. -/
def finishRun (s : ℕ) (o : OpenRebuild C) : Maintenance C P :=
  match m.adapter.finishRun rebuild s o with
  | (.unbound, a) => { m with adapter := a }
  | (.cleared, a) =>
    { m with adapter := a, log := .cleared (m.adapter.slots s).key o.observed.mask :: m.log }
  | (.outdated, a) =>
    let (result, m) := { m with adapter := a }.scheduleSlot s
    if result ≠ .accepted then { m with adapter := m.adapter.oweRetry s } else m

/-- `run_slot`: whether the callback threw, and the budget that is left. -/
def runSlot (s budget : ℕ) : Bool × ℕ × Maintenance C P :=
  if (m.adapter.slots s).bound = false ∨ budget = 0 then (false, budget, m)
  else match m.adapter.startRun s with
    | .done a => (false, budget - 1, { m with adapter := a })
    | .rebuild a =>
      let call := calls m.invocations
      let m := call.acts.foldl (act s) { m with adapter := a, invocations := m.invocations + 1 }
      if call.threw then
        (true, budget - 1, { m with
          adapter := m.adapter.throwRebuild s
          log := .threw s (m.adapter.slots s).key :: m.log })
      else match m.adapter.rebuilding s with
        | none => (false, budget - 1, m)
        | some o => (false, budget - 1, m.finishRun rebuild s o)

/-- How the run of a task ends. -/
inductive TaskEnd
  | progressed
  | stalled
  | threw
  deriving DecidableEq, Repr

/-- `run_task`: a run that used no budget and was offered something has stalled. -/
def runTask (s budget : ℕ) : TaskEnd × ℕ × Maintenance C P :=
  let (threw, left, m) :=
    { m with active := true, runningTaskScheduled := false }.runSlot rebuild calls s budget
  let m := { m with active := false }
  if threw then (.threw, left, m)
  else if left ≠ budget ∨ m.runningTaskScheduled = false then (.progressed, left, m)
  else (.stalled, left, m)

/-! ### Drains -/

/-- Put bits back. -/
def restore (word : List ℕ) : Maintenance C P :=
  { m with pending := fun s => m.pending s || word.contains s }

/-- Take the bits of a word. -/
def takeWord (w : ℕ) : List ℕ × Maintenance C P :=
  ((List.range' (64 * w) 64).filter fun s => m.pending s,
    { m with pending := fun s => if s / 64 = w then false else m.pending s })

/-- How a part of a sweep ends: it goes on with the budget that is left, or the drain ends. -/
inductive SweepEnd
  | swept (budget : ℕ)
  | ended (result : BackendDrain)

/-- Run the tasks of the bits taken from a word. -/
def drainWord : List ℕ → ℕ → Maintenance C P → SweepEnd × Maintenance C P
  | [], budget, m => (.swept budget, m)
  | s :: word, budget, m =>
    if budget = 0 then (.ended .completed, m.restore (s :: word))
    else match m.runTask rebuild calls s budget with
      | (.threw, _, m) => (.ended .threw, m.restore word)
      | (.stalled, _, m) => (.ended .stalled, m.restore word)
      | (.progressed, left, m) => drainWord word left m

/-- One sweep over the words, and whether it ran a task. -/
def drainWords : List ℕ → Bool → ℕ → Maintenance C P → SweepEnd × Bool × Maintenance C P
  | [], executed, budget, m => (.swept budget, executed, m)
  | w :: ws, executed, budget, m =>
    let (word, m) := m.takeWord w
    match drainWord rebuild calls word budget m with
    | (.swept left, m) => drainWords ws (executed || !word.isEmpty) left m
    | (.ended result, m) => (.ended result, executed, m)

/-- `DirtyBitScheduler::drain` with at most `fuel` sweeps. -/
def drain : ℕ → ℕ → Maintenance C P → Option (BackendDrain × Maintenance C P)
  | 0, _, _ => none
  | fuel + 1, budget, m =>
    match drainWords rebuild calls (List.range m.wordCount) false budget m with
    | (.ended result, _, m) => some (result, m)
    | (.swept _, false, m) => some (.completed, m)
    | (.swept left, true, m) => drain fuel left m

/-- `observe_drain`: idle means that nothing was pending and nothing was offered. -/
def observeDrain (fuel budget : ℕ) : Option (DrainOutcome × Maintenance C P) :=
  let m := { m with idleEpoch := none }
  let activityBefore := m.activityEpoch
  let pendingBefore := m.hasPending
  match drain rebuild calls fuel budget m with
  | none => none
  | some (.threw, m) => some (.threw, m)
  | some (.stalled, m) => some (.returned .stalled, m)
  | some (.completed, m) =>
    if m.hasPending then some (.returned .budgetExhausted, m)
    else if pendingBefore = false ∧ activityBefore = m.activityEpoch then
      some (.returned .idle, { m with idleEpoch := some m.activityEpoch })
    else some (.returned .drained, m)

/-- What a round of repeated offers did. -/
structure RetryOfferSummary where
  /-- Something was offered. -/
  offered : Bool := false
  /-- An offer stalled. -/
  stalled : Bool := false

/-- `reoffer_retry_debt` over some slots. -/
def reofferSlots : List ℕ → RetryOfferSummary → Maintenance C P →
    RetryOfferSummary × Maintenance C P
  | [], summary, m => (summary, m)
  | s :: slots, summary, m =>
    if (m.adapter.slots s).retryDebt then
      let (result, m) := m.scheduleSlot s
      reofferSlots slots ⟨true, summary.stalled || result = .stalled⟩ m
    else reofferSlots slots summary m

/-- `reoffer_retry_debt`. -/
def reofferRetryDebt : RetryOfferSummary × Maintenance C P :=
  reofferSlots (List.range m.adapter.world.capacity) {} m

/-- `has_retry_debt`. -/
def hasRetryDebt : Bool :=
  (List.range m.adapter.world.capacity).any fun s => (m.adapter.slots s).retryDebt

/-- `finalize_drain`. -/
def finalizeDrain (result : DrainResult) (followUp : RetryOfferSummary) : DrainResult :=
  if result = .stalled ∨ followUp.stalled then .stalled
  else if followUp.offered ∨ m.hasRetryDebt then .budgetExhausted
  else result

/-- Open or close the transition boundary. -/
def setReady (ready : Bool) : Maintenance C P :=
  { m with adapter := { m.adapter with transitionReady := ready } }

/-- `run_some`. -/
def runSome (fuel budget : ℕ) : Option (DrainOutcome × Maintenance C P) :=
  match (m.setReady false).observeDrain rebuild calls fuel budget with
  | none => none
  | some (.threw, m) => some (.threw, m.setReady false)
  | some (.returned backend, m) =>
    let result := m.finalizeDrain backend {}
    some (.returned result, m.setReady (result = .idle))

/-- The budget of a flush. -/
def maxBudget : ℕ := 2 ^ 64 - 1

/-- `flush`. -/
def flush (fuel : ℕ) : Option (DrainOutcome × Maintenance C P) :=
  let m := (m.setReady false).reofferRetryDebt.2
  match m.observeDrain rebuild calls fuel maxBudget with
  | none => none
  | some (.threw, m) => some (.threw, m.setReady false)
  | some (.returned backend, m) =>
    let (followUp, m) := m.reofferRetryDebt
    let result := m.finalizeDrain backend followUp
    some (.returned result, m.setReady (result = .idle))

/-! ### Runs -/

/-- `ensure_resident`. -/
def ensureResident (key : ℕ) : Maintenance C P :=
  let (status, a) := m.adapter.ensureResident key
  { m with
    adapter := a
    log := if status = .ready then
        noteWorld (.ensureResident key) m.adapter.world a.world m.log
      else m.log }

/-- `try_release`: every task retires when the last observation was idle. -/
def tryRelease : Maintenance C P :=
  if m.adapter.released ∨ m.adapter.transitionReady = false ∨
      (m.adapter.world.capacity ≠ 0 ∧
        (m.idleEpoch ≠ some m.activityEpoch ∨ m.hasPending = true)) then m
  else { m with adapter := { m.adapter with released := true, transitionReady := false } }

/-- An operation of the owner of the adapter, or of other code. -/
inductive Op (C P : Type)
  | markDirty (key : ℕ) (mask : BitVec 32) (bounds : Box3)
  | retry (key : ℕ)
  | world (act : WorldAct C)
  | runSome (fuel budget : ℕ) (calls : ℕ → RebuildCall C P)
  | flush (fuel : ℕ) (calls : ℕ → RebuildCall C P)
  | ensureResident (key : ℕ)
  | evict (key : ℕ)
  | reconcileResidency
  | tryRelease

/-- The state after an operation; none when a drain does not end within its fuel, and for the
residency operations that a dense world does not have. -/
def op : Op C P → Option (Maintenance C P)
  | .markDirty key mask bounds => some (m.markDirty key mask bounds).2
  | .retry key => some (m.retry key).2
  | .world act => some (m.worldAct act)
  | .runSome fuel budget calls => (m.runSome rebuild calls fuel budget).map (·.2)
  | .flush fuel calls => (m.flush rebuild calls fuel).map (·.2)
  | .ensureResident key => if m.adapter.world.IsDense then none else some (m.ensureResident key)
  | .evict key => if m.adapter.world.IsDense then none
    else some { m with adapter := (m.adapter.evict key).2 }
  | .reconcileResidency => if m.adapter.world.IsDense then none
    else some { m with adapter := m.adapter.reconcileResidency.2 }
  | .tryRelease => some m.tryRelease

/-- The state after some operations. -/
def ops : List (Op C P) → Maintenance C P → Option (Maintenance C P)
  | [], m => some m
  | o :: os, m => (op rebuild m o).bind (ops os)

/-- A new adapter. -/
def init [Inhabited P] (world : ChunkStore C) (owned : BitVec 32) : Maintenance C P :=
  { adapter := .init world owned }

end Maintenance

/-! ### What the log means -/

/-- **What a world action leaves** of a resident chunk. -/
theorem WorldAct.resident_apply {C : Type} [Inhabited C] {act : WorldAct C} {W : ChunkStore C}
    {key : ℕ} {r' : ResidentChunk C} (h : (act.apply W).resident key = some r') :
    (∃ r, W.resident key = some r ∧ r'.slot = r.slot ∧ r'.generation = r.generation ∧
      ∀ b, r.dirty.mask.getLsbD b = true → r'.dirty.mask.getLsbD b = true ∨
        ∃ mask, act = .clearDirty key mask ∧ mask.getLsbD b = true) ∨
    act = .ensureResident key ∧ W.resident key = none := by
  cases act with
  | edit k content mask bounds =>
    obtain ⟨r, hr, hs, hg, rfl | ⟨-, hd, -⟩⟩ := ChunkStore.modify_eq_some h
    · exact Or.inl ⟨r', hr, rfl, rfl, fun _ hb => Or.inl hb⟩
    · refine Or.inl ⟨r, hr, hs, hg, fun b hb => Or.inl ?_⟩
      rw [hd]
      simp only
      split_ifs
      · exact hb
      · exact ChunkStore.getLsbD_metaMarkDirty (Or.inl hb)
  | markDirty k mask bounds =>
    obtain ⟨r, hr, hs, hg, rfl | ⟨-, hd, -⟩⟩ := ChunkStore.modify_eq_some h
    · exact Or.inl ⟨r', hr, rfl, rfl, fun _ hb => Or.inl hb⟩
    · refine Or.inl ⟨r, hr, hs, hg, fun b hb => Or.inl ?_⟩
      rw [hd]
      exact ChunkStore.getLsbD_metaMarkDirty (Or.inl hb)
  | clearDirty k mask =>
    obtain ⟨r, hr, hs, hg, rfl | ⟨rfl, hd, -⟩⟩ := ChunkStore.modify_eq_some h
    · exact Or.inl ⟨r', hr, rfl, rfl, fun _ hb => Or.inl hb⟩
    · refine Or.inl ⟨r, hr, hs, hg, fun b hb => ?_⟩
      cases hm : mask.getLsbD b with
      | true => exact Or.inr ⟨mask, rfl, hm⟩
      | false =>
        refine Or.inl ?_
        rw [hd]
        exact ChunkStore.getLsbD_metaClearDirty hb hm
  | touch k =>
    have hr : W.resident key = some r' := ChunkStore.resident_touch ▸ h
    exact Or.inl ⟨r', hr, rfl, rfl, fun _ hb => Or.inl hb⟩
  | evict k =>
    exact Or.inl ⟨r', ChunkStore.resident_evict h, rfl, rfl, fun _ hb => Or.inl hb⟩
  | ensureResident k =>
    rw [WorldAct.apply] at h
    split_ifs at h with hd
    · exact Or.inl ⟨r', h, rfl, rfl, fun _ hb => Or.inl hb⟩
    · rcases ChunkStore.resident_ensureResident h with hr | ⟨rfl, hr⟩
      · exact Or.inl ⟨r', hr, rfl, rfl, fun _ hb => Or.inl hb⟩
      · exact Or.inr ⟨rfl, hr⟩

namespace Maintenance

variable {C P : Type} {rebuild : ℕ → C → P} {calls : ℕ → RebuildCall C P}
  {m m' : Maintenance C P} {X Y : ℕ → Prop} {s key b : ℕ}

variable (rebuild) in
/-- What holds of the log: an adapter mark that nothing cleared is an owned dirty bit of a bound
chunk, and its slot is excused, pending, or its rebuild threw after the latest offer. -/
structure Ledger (X : ℕ → Prop) (m : Maintenance C P) : Prop where
  /-- The adapter keeps its invariant. -/
  inv : m.adapter.Inv rebuild
  /-- The adapter marks owned bits. -/
  owned : ∀ key b, MarkedBy key b m.log → m.adapter.owned.getLsbD b = true
  /-- Marks are owed a run. -/
  owes : ∀ key r b, m.adapter.world.resident key = some r → MarkedBy key b m.log →
    m.adapter.Bound key r ∧ r.dirty.mask.getLsbD b = true ∧
      (X r.slot ∨ m.pending r.slot = true ∨ ThrewSinceOffer r.slot key m.log)

/-- The slots have the same chunks. -/
def SameChunks (a a' : Adapter C P) : Prop :=
  ∀ s, (a'.slots s).bound = (a.slots s).bound ∧ (a'.slots s).key = (a.slots s).key ∧
    (a'.slots s).residencyGeneration = (a.slots s).residencyGeneration

theorem SameChunks.bound {a a' : Adapter C P} {r r' : ResidentChunk C} (h : SameChunks a a')
    (hb : a.Bound key r) (hr : a'.world.resident key = some r') (hs : r'.slot = r.slot)
    (hg : r'.generation = r.generation) : a'.Bound key r' := by
  obtain ⟨h1, h2, h3⟩ := h r.slot
  exact ⟨hr, by rw [hs, h1, hb.bound], by rw [hs, h2, hb.key_eq],
    by rw [hs, h3, hg, hb.generation]⟩

theorem SameChunks.refl (a : Adapter C P) : SameChunks a a := fun _ => ⟨rfl, rfl, rfl⟩

theorem sameChunks_setSlot {a : Adapter C P} {slot : AdapterSlot P}
    (h : slot.bound = (a.slots s).bound ∧ slot.key = (a.slots s).key ∧
      slot.residencyGeneration = (a.slots s).residencyGeneration) :
    SameChunks a (a.setSlot s slot) := by
  intro k
  rw [Adapter.setSlot_slots]
  split_ifs with hk
  · rw [hk]
    exact h
  · exact ⟨rfl, rfl, rfl⟩

/-- **The ledger of the same world**: no new marks, and what was owed is still owed. -/
theorem Ledger.of (L : Ledger rebuild X m) (I : m'.adapter.Inv rebuild)
    (howned : m'.adapter.owned = m.adapter.owned) (hworld : m'.adapter.world = m.adapter.world)
    (hsame : SameChunks m.adapter m'.adapter)
    (hmarked : ∀ key b, MarkedBy key b m'.log → MarkedBy key b m.log)
    (howes : ∀ key r b, m.adapter.Bound key r → MarkedBy key b m'.log →
      r.dirty.mask.getLsbD b = true → m.adapter.owned.getLsbD b = true →
      X r.slot ∨ m.pending r.slot = true ∨ ThrewSinceOffer r.slot key m.log →
      Y r.slot ∨ m'.pending r.slot = true ∨ ThrewSinceOffer r.slot key m'.log) :
    Ledger rebuild Y m' := by
  refine ⟨I, fun key b h => ?_, fun key r b hr h => ?_⟩
  · rw [howned]
    exact L.owned key b (hmarked key b h)
  · have hr' : m.adapter.world.resident key = some r := hworld ▸ hr
    obtain ⟨h1, h2, h3⟩ := L.owes key r b hr' (hmarked key b h)
    exact ⟨hsame.bound h1 hr rfl rfl, h2,
      howes key r b h1 h h2 (L.owned key b (hmarked key b h)) h3⟩

theorem Ledger.mono (L : Ledger rebuild X m) (h : ∀ s, X s → Y s) : Ledger rebuild Y m :=
  L.of L.inv rfl rfl (.refl _) (fun _ _ h => h) fun _ r _ _ _ _ _ ho => ho.imp_left (h r.slot)

/-- The state after an offer, which is always accepted. -/
theorem scheduleSlot_eq (s : ℕ) : m.scheduleSlot s =
    (.accepted, ({ m with adapter := m.adapter.claimDebt s }.schedule s).2) := by
  simp [scheduleSlot, schedule]

variable [Inhabited C]

/-- The steps of the adapter. -/
abbrev Steps (rebuild : ℕ → C → P) : Adapter C P → Adapter C P → Prop :=
  Relation.ReflTransGen (Adapter.Step rebuild)

variable (rebuild) in
/-- The adapter made steps that started and ended no callback. -/
structure Moves (m m' : Maintenance C P) : Prop where
  /-- The steps. -/
  steps : Steps rebuild m.adapter m'.adapter
  /-- The same callbacks run. -/
  calls : ∀ s, (m'.adapter.rebuilding s).isSome = (m.adapter.rebuilding s).isSome
  /-- The boundary stays closed. -/
  busy : m.adapter.transitionReady = false → m'.adapter.transitionReady = false

theorem Moves.refl (m : Maintenance C P) : Moves rebuild m m := ⟨.refl, fun _ => rfl, id⟩

theorem Moves.trans {m'' : Maintenance C P} (h : Moves rebuild m m') (h' : Moves rebuild m' m'') :
    Moves rebuild m m'' :=
  ⟨h.steps.trans h'.steps, fun s => (h'.calls s).trans (h.calls s), h'.busy ∘ h.busy⟩

/-! ### Offers, marks and world actions -/

theorem scheduleSlot_moves (s : ℕ) : Moves rebuild m (m.scheduleSlot s).2 := by
  rw [scheduleSlot_eq]
  exact ⟨.single (.offer _ s), fun _ => rfl, fun _ => rfl⟩

/-- **An offer** makes the slot pending. -/
theorem Ledger.scheduleSlot (L : Ledger rebuild (fun k => X k ∨ k = s) m) :
    Ledger rebuild X (m.scheduleSlot s).2 := by
  rw [scheduleSlot_eq]
  have hsame : SameChunks m.adapter (m.adapter.claimDebt s) := sameChunks_setSlot ⟨rfl, rfl, rfl⟩
  refine L.of (L.inv.step (.offer _ s)) rfl rfl hsame (fun _ _ h => h) ?_
  intro key r b _ _ _ _ ho
  by_cases hs : r.slot = s
  · rw [hs]
    exact Or.inr (Or.inl (Function.update_self ..))
  · have hpending : Function.update m.pending s true r.slot = m.pending r.slot :=
      Function.update_of_ne hs ..
    rcases ho with (ho | ho) | ho | ho
    · exact Or.inl ho
    · exact absurd ho hs
    · exact Or.inr (Or.inl (hpending.trans ho))
    · exact Or.inr (Or.inr ⟨fun h => hs h.symm, ho⟩)

theorem markDirty_moves (key : ℕ) (mask : BitVec 32) (bounds : Box3) :
    Moves rebuild m (m.markDirty key mask bounds).2 := by
  rw [markDirty]
  split
  · exact .refl m
  rename_i s a h
  have hmark : Moves rebuild m { m with adapter := a, log := .marked key mask :: m.log } := by
    refine ⟨.single (.mark h), ?_, ?_⟩
    · obtain ⟨-, -, -, -, rfl⟩ := Adapter.mark_eq_ok h
      exact fun _ => rfl
    · obtain ⟨-, -, -, -, rfl⟩ := Adapter.mark_eq_ok h
      exact id
  exact hmark.trans (scheduleSlot_moves s)

/-- **A mark** is owed a run, and its slot is offered. -/
theorem Ledger.markDirty (L : Ledger rebuild X m) (key : ℕ) (mask : BitVec 32) (bounds : Box3) :
    Ledger rebuild X (m.markDirty key mask bounds).2 := by
  rw [Maintenance.markDirty]
  split
  · exact L
  rename_i s a h
  have I := L.inv.mark h
  obtain ⟨-, hmask, hown, hslot, rfl⟩ := Adapter.mark_eq_ok h
  refine Ledger.scheduleSlot ⟨I, fun k b hb => ?_, fun k r' b hr' hb => ?_⟩
  · rcases hb with ⟨-, hb⟩ | hb
    · have hbit := congrArg (fun v : BitVec 32 => v.getLsbD b) hown
      have hlt : b < 32 := BitVec.lt_of_getLsbD hb
      simpa [BitVec.getLsbD_and, BitVec.getLsbD_not, hb, hlt] using hbit
    · exact L.owned k b hb
  · obtain ⟨r, hr, hs, hg, -⟩ := ChunkStore.modify_eq_some hr'
    have hbits : ∀ b, r.dirty.mask.getLsbD b = true ∨ (k = key ∧ mask.getLsbD b = true) →
        r'.dirty.mask.getLsbD b = true := by
      intro b hb
      change m.adapter.world.modify key _ k = some r' at hr'
      rw [ChunkStore.modify, hr] at hr'
      split_ifs at hr' with hk
      · obtain rfl := Option.some.inj hr'
        exact ChunkStore.getLsbD_metaMarkDirty (hb.imp_right And.right)
      · obtain rfl := Option.some.inj hr'
        exact hb.resolve_right fun h => hk h.1
    have hsame : SameChunks m.adapter
        { m.adapter with world := m.adapter.world.markDirty key mask bounds } :=
      fun _ => ⟨rfl, rfl, rfl⟩
    rcases hb with ⟨rfl, hb⟩ | hb
    · obtain ⟨q, hq, rfl⟩ := L.inv.bound_of_boundSlot hslot
      obtain rfl : q = r := Option.some.inj (hq.resident.symm.trans hr)
      exact ⟨hsame.bound hq hr' hs hg, hbits b (Or.inr ⟨rfl, hb⟩),
        Or.inl (Or.inr hs)⟩
    · obtain ⟨h1, h2, h3⟩ := L.owes k r b hr hb
      refine ⟨hsame.bound h1 hr' hs hg, hbits b (Or.inl h2), ?_⟩
      rw [hs]
      exact h3.imp_left Or.inl

theorem retry_moves (key : ℕ) : Moves rebuild m (m.retry key).2 := by
  rw [retry]
  split_ifs
  · exact .refl m
  · split
    · exact .refl m
    · exact scheduleSlot_moves _

theorem Ledger.retry (L : Ledger rebuild X m) (key : ℕ) : Ledger rebuild X (m.retry key).2 := by
  rw [Maintenance.retry]
  split_ifs
  · exact L
  · split
    · exact L
    · exact Ledger.scheduleSlot (L.mono fun _ => Or.inl)

theorem worldAct_moves (act : WorldAct C) : Moves rebuild m (m.worldAct act) := by
  refine ⟨.single (.world _ act), fun s => ?_, id⟩
  change (if _ then _ else _ : Option (OpenRebuild C)).isSome = _
  split_ifs <;> simp

omit [Inhabited C] in
theorem markedBy_noteWorld {act : WorldAct C} {before after : ChunkStore C}
    {log : List MaintenanceEvent} (h : MarkedBy key b (noteWorld act before after log)) :
    MarkedBy key b log ∧ (∀ mask, act = .clearDirty key mask → mask.getLsbD b = false) ∧
      (act = .ensureResident key → before.resident key = none → after.resident key = none) := by
  cases act with
  | clearDirty k mask =>
    obtain ⟨h1, h2⟩ := h
    refine ⟨h2, fun mask' hact => ?_, fun hact => by cases hact⟩
    cases hact
    simpa using h1
  | ensureResident k =>
    rw [noteWorld] at h
    split_ifs at h with hnew
    · obtain ⟨h1, h2⟩ := h
      refine ⟨h2, fun _ hact => (by cases hact), fun hact _ => ?_⟩
      cases hact
      exact absurd rfl h1
    · refine ⟨h, fun _ hact => (by cases hact), fun hact hnone => ?_⟩
      cases hact
      simpa [hnone] using hnew
  | _ => exact ⟨h, fun _ hact => (by cases hact), fun hact => by cases hact⟩

theorem Ledger.worldAct (L : Ledger rebuild X m) (act : WorldAct C) :
    Ledger rebuild X (m.worldAct act) := by
  refine ⟨L.inv.worldAct act, fun k b hb => L.owned k b (markedBy_noteWorld hb).1,
    fun k r' b hr' hb => ?_⟩
  obtain ⟨hmarked, hclear, hnew⟩ := markedBy_noteWorld hb
  have hsame : SameChunks m.adapter (m.adapter.worldAct act) := fun _ => ⟨rfl, rfl, rfl⟩
  rcases WorldAct.resident_apply hr' with ⟨r, hr, hs, hg, hbits⟩ | ⟨hact, hnone⟩
  · obtain ⟨h1, h2, h3⟩ := L.owes k r b hr hmarked
    refine ⟨hsame.bound h1 hr' hs hg, ?_, ?_⟩
    · rcases hbits b h2 with hbit | ⟨mask, hact, hbit⟩
      · exact hbit
      · rw [hclear mask hact] at hbit
        cases hbit
    · have ho : ThrewSinceOffer r.slot k m.log →
          ThrewSinceOffer r.slot k (m.worldAct act).log := by
        intro ho
        change ThrewSinceOffer r.slot k (noteWorld act _ _ m.log)
        cases act with
        | ensureResident key =>
          rw [noteWorld]
          split_ifs <;> exact ho
        | _ => exact ho
      rw [hs]
      exact h3.imp_right (Or.imp_right ho)
  · have hmissing := (hnew hact hnone).symm.trans hr'
    cases hmissing

/-! ### Task runs -/

/-- No task runs, or just one. -/
def Calls (m : Maintenance C P) (k : Option ℕ) : Prop :=
  m.adapter.transitionReady = false ∧ ∀ s, (m.adapter.rebuilding s).isSome = true ↔ k = some s

theorem Moves.called {k : Option ℕ} (h : Moves rebuild m m') (hc : m.Calls k) : m'.Calls k :=
  ⟨h.busy hc.1, fun s => by rw [h.calls]; exact hc.2 s⟩

omit [Inhabited C] in
theorem Calls.none_of (hc : m.Calls none) (s : ℕ) : m.adapter.rebuilding s = none := by
  have := (hc.2 s).not.2 (by simp)
  simpa using this

theorem act_moves (s : ℕ) (act : CallbackAct C P) : Moves rebuild m (m.act s act) := by
  cases act with
  | write p =>
    refine ⟨.single (.write _ s p), fun k => ?_, ?_⟩
    · simp only [Maintenance.act, Adapter.writeProduct]
      split_ifs <;> rfl
    · simp only [Maintenance.act, Adapter.writeProduct]
      split_ifs <;> exact id
  | markDirty key mask bounds => exact markDirty_moves key mask bounds
  | retry key => exact retry_moves key
  | world act => exact worldAct_moves act

theorem Ledger.act (L : Ledger rebuild X m) (s : ℕ) (act : CallbackAct C P) :
    Ledger rebuild X (m.act s act) := by
  cases act with
  | write p =>
    have hworld : (m.adapter.writeProduct s p).world = m.adapter.world ∧
        (m.adapter.writeProduct s p).owned = m.adapter.owned ∧
        SameChunks m.adapter (m.adapter.writeProduct s p) := by
      rw [Adapter.writeProduct]
      split_ifs
      · exact ⟨rfl, rfl, sameChunks_setSlot ⟨rfl, rfl, rfl⟩⟩
      · exact ⟨rfl, rfl, .refl _⟩
    exact L.of (L.inv.writeProduct s p) hworld.2.1 hworld.1 hworld.2.2 (fun _ _ h => h)
      fun _ _ _ _ _ _ _ ho => ho
  | markDirty key mask bounds => exact L.markDirty key mask bounds
  | retry key => exact L.retry key
  | world act => exact L.worldAct act

theorem acts_spec (s : ℕ) (acts : List (CallbackAct C P)) (L : Ledger rebuild X m) :
    Moves rebuild m (acts.foldl (Maintenance.act s) m) ∧
      Ledger rebuild X (acts.foldl (Maintenance.act s) m) := by
  induction acts generalizing m with
  | nil => exact ⟨.refl m, L⟩
  | cons act acts ih =>
    obtain ⟨h1, h2⟩ := ih (L.act s act)
    exact ⟨(act_moves s act).trans h1, h2⟩

variable (rebuild) in
/-- What a part of a drain achieves: steps of the adapter that leave no callback running, and a
ledger. -/
structure Drains (X : ℕ → Prop) (m m' : Maintenance C P) : Prop where
  /-- The steps. -/
  steps : Steps rebuild m.adapter m'.adapter
  /-- No callback runs. -/
  calls : m'.Calls none
  /-- The ledger. -/
  ledger : Ledger rebuild X m'

omit [Inhabited C] in
theorem calls_update {a : Adapter C P} (hready : a.transitionReady = false)
    (h : ∀ k, k ≠ s → a.rebuilding k = none) {slots : ℕ → AdapterSlot P} {W : ChunkStore C}
    {log : List MaintenanceEvent} :
    Calls { m with
      adapter := { a with
        rebuilding := Function.update a.rebuilding s none, slots := slots, world := W }
      log := log } none := by
  refine ⟨hready, fun k => ?_⟩
  by_cases hk : k = s
  · rw [hk]
    simp
  · simp [Function.update_of_ne hk, h k hk]

/-- **A callback that returned**: what it was owed is cleared, or offered again. -/
theorem finishRun_drains {o : OpenRebuild C} (L : Ledger rebuild (fun k => X k ∨ k = s) m)
    (hc : m.Calls (some s)) (ho : m.adapter.rebuilding s = some o) :
    Drains rebuild X m (m.finishRun rebuild s o) := by
  have hothers : ∀ k, k ≠ s → m.adapter.rebuilding k = none := by
    intro k hk
    have := (hc.2 k).not.2 fun h => hk (Option.some.inj h).symm
    simpa using this
  have hstep : Steps rebuild m.adapter (m.adapter.finishRun rebuild s o).2 := .single (.finish ho)
  have I := L.inv.finishRun ho
  rw [Maintenance.finishRun]
  rcases m.adapter.finishRun_cases rebuild s o with ⟨hb, heq⟩ | ⟨hb, W, hclear, heq⟩ |
    ⟨hb, hclear, heq⟩
  · rw [heq] at hstep I ⊢
    have hsame : SameChunks m.adapter (m.adapter.replaceSlot s
        (m.adapter.returnedSlot rebuild s o) m.adapter.world) :=
      sameChunks_setSlot ⟨rfl, rfl, rfl⟩
    refine ⟨hstep, calls_update hc.1 hothers, L.of I rfl rfl hsame (fun _ _ h => h) ?_⟩
    intro key r b hbound _ _ _ howed
    rcases howed with (howed | howed) | howed
    · exact Or.inl howed
    · -- no chunk is bound to that slot
      have hcur := hbound.bindingCurrent
      rw [howed, hb] at hcur
      cases hcur
    · exact Or.inr howed
  · rw [heq] at hstep I ⊢
    have hsame : SameChunks m.adapter (m.adapter.replaceSlot s
        (m.adapter.clearedSlot rebuild s o) W) :=
      sameChunks_setSlot ⟨rfl, rfl, rfl⟩
    obtain ⟨q, hq, hg, hv, rfl⟩ := ChunkStore.clearDirtyObserved_eq_some hclear
    refine ⟨hstep, calls_update hc.1 hothers, I, fun k b h => L.owned k b h.2,
      fun k r' b hr' h => ?_⟩
    obtain ⟨hnot, hmarked⟩ := h
    obtain ⟨r, hr, hs, hgen, hd⟩ := ChunkStore.modify_eq_some hr'
    obtain ⟨h1, h2, h3⟩ := L.owes k r b hr hmarked
    have hbit : r'.dirty.mask.getLsbD b = true := by
      rcases hd with rfl | ⟨hk, hd, -⟩
      · exact h2
      · have hkept : o.observed.mask.getLsbD b = false := by
          have := fun hbit => hnot ⟨hk.symm, hbit⟩
          simpa using this
        rw [hd]
        exact ChunkStore.getLsbD_metaClearDirty h2 hkept
    have hbound := hsame.bound h1 hr' hs hgen
    refine ⟨hbound, hbit, ?_⟩
    rw [hs]
    rcases h3 with (h3 | h3) | h3
    · exact Or.inl h3
    · -- the chunk of the slot is clean, so it has no marks
      have hslot : r'.slot = s := hs.trans h3
      have hpub : (m.adapter.replaceSlot s (m.adapter.clearedSlot rebuild s o)
          (m.adapter.world.clearDirty (m.adapter.slots s).key o.observed.mask)).slots r'.slot =
          m.adapter.clearedSlot rebuild s o := by
        rw [hslot]
        exact Function.update_self ..
      have hkey : (m.adapter.slots s).key = k := h3 ▸ h1.key_eq
      rw [hkey] at hq
      obtain rfl : q = r := Option.some.inj (hq.symm.trans hr)
      have hversion : r'.dirty.contentVersion = o.observed.contentVersion := by
        rcases hd with rfl | ⟨-, hd, -⟩
        · exact hv
        · rw [hd]
          exact (ChunkStore.metaClearDirty_version _ _).trans hv
      obtain ⟨-, hfresh⟩ := I.fresh k r' hbound (by rw [hpub]; rfl)
      obtain ⟨hclean, -, -⟩ := hfresh (by rw [hpub, hversion]; rfl)
      have hzero := congrArg (fun v : BitVec 32 => v.getLsbD b) hclean
      have how : m.adapter.owned.getLsbD b = true := L.owned k b hmarked
      simp only [BitVec.getLsbD_and, hbit] at hzero
      change (true && m.adapter.owned.getLsbD b) = _ at hzero
      rw [how] at hzero
      simp at hzero
    · exact Or.inr h3
  · rw [heq] at hstep I ⊢
    have hsame : SameChunks m.adapter (m.adapter.replaceSlot s
        (m.adapter.publishedSlot rebuild s o) m.adapter.world) :=
      sameChunks_setSlot ⟨rfl, rfl, rfl⟩
    have L' : Ledger rebuild (fun k => X k ∨ k = s) { m with
        adapter := m.adapter.replaceSlot s (m.adapter.publishedSlot rebuild s o)
          m.adapter.world } :=
      L.of I rfl rfl hsame (fun _ _ h => h) fun _ _ _ _ _ _ _ howed => howed
    have hc' : Calls { m with
        adapter := m.adapter.replaceSlot s (m.adapter.publishedSlot rebuild s o)
          m.adapter.world } none := calls_update hc.1 hothers
    simp only [scheduleSlot_eq]
    have hoffer : Moves rebuild { m with
        adapter := m.adapter.replaceSlot s (m.adapter.publishedSlot rebuild s o)
          m.adapter.world } _ := scheduleSlot_moves s
    have L'' := L'.scheduleSlot
    rw [scheduleSlot_eq] at hoffer L''
    rw [if_neg (by simp)]
    exact ⟨hstep.trans hoffer.steps, hoffer.called hc', L''⟩

/-- A run that does not call leaves a clean chunk, or none. -/
theorem startRun_done_drains {a : Adapter C P} (L : Ledger rebuild (fun k => X k ∨ k = s) m)
    (hc : m.Calls none) (hbound : (m.adapter.slots s).bound = true)
    (h : m.adapter.startRun s = .done a) : Drains rebuild X m { m with adapter := a } := by
  have hstep : Steps rebuild m.adapter a := .single (.skip hbound h)
  have hfields : a.owned = m.adapter.owned ∧ a.world = m.adapter.world ∧
      SameChunks m.adapter a ∧ a.rebuilding = m.adapter.rebuilding ∧
      a.transitionReady = m.adapter.transitionReady := by
    rcases Adapter.startRun_done h with rfl | rfl
    · exact ⟨rfl, rfl, .refl _, rfl, rfl⟩
    · exact ⟨rfl, rfl, sameChunks_setSlot ⟨rfl, rfl, rfl⟩, rfl, rfl⟩
  obtain ⟨h1, h2, h3, h4, h5⟩ := hfields
  refine ⟨hstep, ⟨h5.trans hc.1, fun k => ?_⟩,
    L.of (L.inv.step (.skip hbound h)) h1 h2 h3 (fun _ _ h => h) ?_⟩
  · simp only [h4]
    exact hc.2 k
  · intro key r b hb _ hbit how howed
    rcases howed with (howed | rfl) | howed
    · exact Or.inl howed
    · -- a run on a bound chunk that does not call saw no owned bit
      rw [Adapter.startRun, if_pos hb.bindingCurrent, hb.key_eq, hb.resident] at h
      simp only at h
      split_ifs at h with hclean
      have hzero := congrArg (fun v : BitVec 32 => v.getLsbD b) hclean.1
      simp [ChunkDirty.metaObserveDirty, hbit, how] at hzero
    · exact Or.inr howed

/-- **A run of a slot** does what the slot is owed. -/
theorem runSlot_drains {budget : ℕ} (L : Ledger rebuild (fun k => X k ∨ k = s) m)
    (hc : m.Calls none) (hbudget : budget ≠ 0) :
    Drains rebuild X m (m.runSlot rebuild calls s budget).2.2 := by
  rw [runSlot]
  split_ifs with hskip
  · -- without a chunk, the slot is owed nothing
    have hunbound : (m.adapter.slots s).bound = false := hskip.resolve_right hbudget
    refine ⟨.refl, hc, L.of L.inv rfl rfl (.refl _) (fun _ _ h => h) ?_⟩
    intro key r b hb _ _ _ howed
    rcases howed with (howed | rfl) | howed
    · exact Or.inl howed
    · rw [hb.bound] at hunbound
      cases hunbound
    · exact Or.inr howed
  rw [not_or] at hskip
  have hbound : (m.adapter.slots s).bound = true := by simpa using hskip.1
  split
  · rename_i a h
    exact startRun_done_drains L hc hbound h
  · rename_i a h
    have hstart : Adapter.Step rebuild m.adapter a := .start hc.1 (hc.none_of s) hbound h
    have I := L.inv.step hstart
    obtain ⟨-, r, -, -, rfl⟩ := Adapter.startRun_rebuild h
    -- the callback runs, with the slot excused
    set m₁ : Maintenance C P := { m with
      adapter := { m.adapter with
        rebuilding := Function.update m.adapter.rebuilding s
          (some ⟨r.dirty.metaObserveDirty m.adapter.owned r.generation, r.content, false⟩) }
      invocations := m.invocations + 1 } with hm₁
    have L₁ : Ledger rebuild (fun k => X k ∨ k = s) m₁ :=
      L.of I rfl rfl (.refl _) (fun _ _ h => h) fun _ _ _ _ _ _ _ howed => howed
    have hc₁ : m₁.Calls (some s) := by
      refine ⟨hc.1, fun k => ?_⟩
      by_cases hk : k = s
      · simp [hm₁, hk]
      · simp [hm₁, Function.update_of_ne hk, hc.none_of k, Ne.symm hk]
    obtain ⟨hmoves, L₂⟩ := acts_spec s (calls m.invocations).acts L₁
    have hc₂ := hmoves.called hc₁
    have hsteps : Steps rebuild m.adapter _ := (Relation.ReflTransGen.single hstart).trans
      hmoves.steps
    simp only
    split_ifs with hthrew
    · refine ⟨hsteps.tail (.throws _ s), ?_, ?_⟩
      · refine calls_update hc₂.1 fun k hk => ?_
        have := (hc₂.2 k).not.2 fun h => hk (Option.some.inj h).symm
        simpa using this
      · refine L₂.of (L₂.inv.throwRebuild s) rfl rfl (.refl _) (fun _ _ h => h) ?_
        intro key r b hb _ _ _ howed
        rcases howed with (howed | howed) | howed | howed
        · exact Or.inl howed
        · have hkey := hb.key_eq
          rw [howed] at hkey
          exact Or.inr (Or.inr (Or.inl ⟨howed.symm, hkey⟩))
        · exact Or.inr (Or.inl howed)
        · exact Or.inr (Or.inr (Or.inr howed))
    · split
      · rename_i hnone
        have hopen := (hc₂.2 s).2 rfl
        rw [hnone] at hopen
        cases hopen
      · rename_i o ho
        obtain ⟨h1, h2, h3⟩ := finishRun_drains L₂ hc₂ ho
        exact ⟨hsteps.trans h1, h2, h3⟩

theorem runTask_drains {budget : ℕ} (L : Ledger rebuild (fun k => X k ∨ k = s) m)
    (hc : m.Calls none) (hbudget : budget ≠ 0) :
    Drains rebuild X m (m.runTask rebuild calls s budget).2.2 := by
  have L' : Ledger rebuild (fun k => X k ∨ k = s)
      { m with active := true, runningTaskScheduled := false } := ⟨L.inv, L.owned, L.owes⟩
  obtain ⟨h1, h2, h3⟩ := @runSlot_drains _ _ _ calls _ _ _ _ budget L' hc hbudget
  have hend (m' : Maintenance C P) (hsteps : Steps rebuild m.adapter m'.adapter)
      (hcalls : m'.Calls none) (hledger : Ledger rebuild X m') :
      Drains rebuild X m { m' with active := false } :=
    ⟨hsteps, hcalls, hledger.inv, hledger.owned, hledger.owes⟩
  rw [runTask]
  simp only
  split_ifs <;> exact hend _ h1 h2 h3

/-! ### Drains -/

omit [Inhabited C] in
theorem Ledger.restore {word : List ℕ}
    (L : Ledger rebuild (fun k => X k ∨ k ∈ word) m) : Ledger rebuild X (m.restore word) := by
  refine L.of L.inv rfl rfl (.refl _) (fun _ _ h => h) fun key r b _ _ _ _ howed => ?_
  have hpending : (m.restore word).pending r.slot = (m.pending r.slot || word.contains r.slot) :=
    rfl
  rw [hpending]
  rcases howed with (howed | howed) | howed | howed
  · exact Or.inl howed
  · exact Or.inr (Or.inl (by simp [howed]))
  · exact Or.inr (Or.inl (by simp [howed]))
  · exact Or.inr (Or.inr howed)

omit [Inhabited C] in
theorem Ledger.takeWord (L : Ledger rebuild X m) (w : ℕ) :
    Ledger rebuild (fun k => X k ∨ k ∈ (m.takeWord w).1) (m.takeWord w).2 := by
  refine L.of L.inv rfl rfl (.refl _) (fun _ _ h => h) fun key r b _ _ _ _ howed => ?_
  rcases howed with howed | howed | howed
  · exact Or.inl (Or.inl howed)
  · by_cases hw : r.slot / 64 = w
    · refine Or.inl (Or.inr (List.mem_filter.2 ⟨List.mem_range'_1.2 ?_, howed⟩))
      omega
    · refine Or.inr (Or.inl ?_)
      change (if r.slot / 64 = w then false else m.pending r.slot) = true
      rw [if_neg hw, howed]
  · exact Or.inr (Or.inr howed)

/-- **The tasks of a word**: what is not run is put back. -/
theorem drainWord_drains {word : List ℕ} {budget : ℕ}
    (L : Ledger rebuild (fun k => X k ∨ k ∈ word) m) (hc : m.Calls none) :
    Drains rebuild X m (drainWord rebuild calls word budget m).2 := by
  induction word generalizing budget m with
  | nil => exact ⟨.refl, hc, L.mono fun k hk => hk.resolve_right (by simp)⟩
  | cons s word ih =>
    rw [drainWord]
    split_ifs with hbudget
    · exact ⟨.refl, hc, L.restore⟩
    · have L' : Ledger rebuild (fun k => (X k ∨ k ∈ word) ∨ k = s) m := by
        refine L.mono fun k hk => ?_
        rcases hk with hk | hk
        · exact Or.inl (Or.inl hk)
        · exact (List.mem_cons.1 hk).elim Or.inr fun hk => Or.inl (Or.inr hk)
      obtain ⟨h1, h2, h3⟩ := @runTask_drains _ _ _ calls _ _ _ _ budget L' hc hbudget
      split
      · rename_i h
        rw [h] at h1 h2 h3
        exact ⟨h1, h2, h3.restore⟩
      · rename_i h
        rw [h] at h1 h2 h3
        exact ⟨h1, h2, h3.restore⟩
      · rename_i h
        rw [h] at h1 h2 h3
        obtain ⟨h4, h5, h6⟩ := ih h3 h2
        exact ⟨h1.trans h4, h5, h6⟩

theorem drainWords_drains {words : List ℕ} {executed : Bool} {budget : ℕ}
    (L : Ledger rebuild X m) (hc : m.Calls none) :
    Drains rebuild X m (drainWords rebuild calls words executed budget m).2.2 := by
  induction words generalizing executed budget m with
  | nil => exact ⟨.refl, hc, L⟩
  | cons w ws ih =>
    rw [drainWords]
    obtain ⟨h1, h2, h3⟩ := @drainWord_drains _ _ _ calls _ _ _ _ budget (L.takeWord w) hc
    simp only
    split
    · rename_i h
      rw [h] at h1 h2 h3
      obtain ⟨h4, h5, h6⟩ := ih h3 h2
      exact ⟨h1.trans h4, h5, h6⟩
    · rename_i h
      rw [h] at h1 h2 h3
      exact ⟨h1, h2, h3⟩

theorem drain_drains {fuel budget : ℕ} {result : BackendDrain} (L : Ledger rebuild X m)
    (hc : m.Calls none) (h : drain rebuild calls fuel budget m = some (result, m')) :
    Drains rebuild X m m' := by
  induction fuel generalizing budget m with
  | zero => cases h
  | succ fuel ih =>
    obtain ⟨h1, h2, h3⟩ :=
      @drainWords_drains _ _ _ calls _ _ _ (List.range m.wordCount) false budget L hc
    rw [drain] at h
    split at h
    · rename_i hsweep
      rw [hsweep] at h1 h2 h3
      obtain ⟨rfl, rfl⟩ := Prod.mk.inj (Option.some.inj h)
      exact ⟨h1, h2, h3⟩
    · rename_i hsweep
      rw [hsweep] at h1 h2 h3
      obtain ⟨rfl, rfl⟩ := Prod.mk.inj (Option.some.inj h)
      exact ⟨h1, h2, h3⟩
    · rename_i hsweep
      rw [hsweep] at h1 h2 h3
      obtain ⟨h4, h5, h6⟩ := ih h3 h2 h
      exact ⟨h1.trans h4, h5, h6⟩

/-- **A drain of the registered scheduler** is idle only when nothing is pending. -/
theorem observeDrain_drains {fuel budget : ℕ} {outcome : DrainOutcome} (L : Ledger rebuild X m)
    (hc : m.Calls none) (h : m.observeDrain rebuild calls fuel budget = some (outcome, m')) :
    Drains rebuild X m m' ∧ (outcome = .returned .idle → m'.hasPending = false) := by
  have L' : Ledger rebuild X { m with idleEpoch := none } := ⟨L.inv, L.owned, L.owes⟩
  have hdrains {result : BackendDrain} {m₁ : Maintenance C P}
      (hdrain : drain rebuild calls fuel budget { m with idleEpoch := none } =
        some (result, m₁)) : Drains rebuild X m m₁ := by
    obtain ⟨h1, h2, h3⟩ := drain_drains L' hc hdrain
    exact ⟨h1, h2, h3⟩
  rw [observeDrain] at h
  simp only at h
  split at h
  · cases h
  · rename_i hdrain
    obtain ⟨rfl, rfl⟩ := Prod.mk.inj (Option.some.inj h)
    exact ⟨hdrains hdrain, fun h => by cases h⟩
  · rename_i hdrain
    obtain ⟨rfl, rfl⟩ := Prod.mk.inj (Option.some.inj h)
    exact ⟨hdrains hdrain, fun h => by cases h⟩
  · rename_i hdrain
    have hd := hdrains hdrain
    split_ifs at h with hpending hidle
    · obtain ⟨rfl, rfl⟩ := Prod.mk.inj (Option.some.inj h)
      exact ⟨hd, fun h => by cases h⟩
    · obtain ⟨rfl, rfl⟩ := Prod.mk.inj (Option.some.inj h)
      have hclear : ∀ m₁ : Maintenance C P, m₁.hasPending ≠ true → m₁.hasPending = false := by
        intro m₁ h
        simpa using h
      exact ⟨⟨hd.steps, hd.calls, hd.ledger.inv, hd.ledger.owned, hd.ledger.owes⟩,
        fun _ => hclear _ hpending⟩
    · obtain ⟨rfl, rfl⟩ := Prod.mk.inj (Option.some.inj h)
      exact ⟨hd, fun h => by cases h⟩

theorem reofferSlots_spec (slots : List ℕ) (summary : RetryOfferSummary)
    (L : Ledger rebuild X m) :
    Moves rebuild m (reofferSlots slots summary m).2 ∧
      Ledger rebuild X (reofferSlots slots summary m).2 ∧
      ((reofferSlots slots summary m).1.offered = false →
        summary.offered = false ∧ (reofferSlots slots summary m).2 = m) := by
  induction slots generalizing summary m with
  | nil => exact ⟨.refl m, L, fun h => ⟨h, rfl⟩⟩
  | cons s slots ih =>
    rw [reofferSlots]
    split_ifs with hdebt
    · have L' := Ledger.scheduleSlot (L.mono fun k => (Or.inl : X k → X k ∨ k = s))
      obtain ⟨h1, h2, h3⟩ := ih
        ⟨true, summary.stalled || (m.scheduleSlot s).1 = .stalled⟩ L'
      refine ⟨(scheduleSlot_moves s).trans h1, h2, fun h => ?_⟩
      have := (h3 h).1
      cases this
    · exact ih summary L

/-- The state rests: no callback runs. -/
def Resting (m : Maintenance C P) : Prop := ∀ s, m.adapter.rebuilding s = none

theorem Ledger.setReady (L : Ledger rebuild X m) (hrest : m.Resting) (ready : Bool) :
    Ledger rebuild X (m.setReady ready) := by
  have I : (m.setReady ready).adapter.Inv rebuild := L.inv.step (.settle ready hrest)
  exact ⟨I, L.owned, fun key r b hr h =>
    (L.owes key r b hr h).imp_left fun hb => ⟨hb.1, hb.2, hb.3, hb.4⟩⟩

variable (rebuild) in
/-- What an operation achieves: steps of the adapter that leave no callback running, and a
ledger without excuses. -/
structure Runs (m m' : Maintenance C P) : Prop where
  /-- The steps. -/
  steps : Steps rebuild m.adapter m'.adapter
  /-- No callback runs. -/
  resting : m'.Resting
  /-- The ledger. -/
  ledger : Ledger rebuild (fun _ => False) m'

theorem Drains.setReady {X : ℕ → Prop} (h : Drains rebuild X m m') (hX : ∀ s, ¬ X s)
    (ready : Bool) : Runs rebuild m (m'.setReady ready) :=
  ⟨h.steps.tail (.settle ready h.calls.none_of), h.calls.none_of,
    (h.ledger.setReady h.calls.none_of ready).mono fun s hs => hX s hs⟩

omit [Inhabited C] in
/-- A drain starts at a closed boundary. -/
theorem setReady_calls (hrest : m.Resting) : (m.setReady false).Calls none :=
  ⟨rfl, fun s => by
    have : (m.setReady false).adapter.rebuilding s = none := hrest s
    simp [this]⟩

theorem runSome_runs {fuel budget : ℕ} {outcome : DrainOutcome}
    (L : Ledger rebuild (fun _ => False) m) (hrest : m.Resting)
    (h : m.runSome rebuild calls fuel budget = some (outcome, m')) : Runs rebuild m m' := by
  have hclose : Steps rebuild m.adapter (m.setReady false).adapter := .single (.drain _)
  rw [runSome] at h
  split at h
  · cases h
  · rename_i hdrain
    obtain ⟨rfl, rfl⟩ := Prod.mk.inj (Option.some.inj h)
    obtain ⟨hd, -⟩ := observeDrain_drains (L.setReady hrest false) (setReady_calls hrest) hdrain
    obtain ⟨h1, h2, h3⟩ := hd.setReady (fun _ => id) false
    exact ⟨hclose.trans h1, h2, h3⟩
  · rename_i hdrain
    obtain ⟨rfl, rfl⟩ := Prod.mk.inj (Option.some.inj h)
    obtain ⟨hd, -⟩ := observeDrain_drains (L.setReady hrest false) (setReady_calls hrest) hdrain
    obtain ⟨h1, h2, h3⟩ := hd.setReady (fun _ => id) _
    exact ⟨hclose.trans h1, h2, h3⟩

/-- **An idle flush** leaves nothing pending. -/
theorem flush_runs {fuel : ℕ} {outcome : DrainOutcome} (L : Ledger rebuild (fun _ => False) m)
    (hrest : m.Resting) (h : m.flush rebuild calls fuel = some (outcome, m')) :
    Runs rebuild m m' ∧ (outcome = .returned .idle → m'.hasPending = false) := by
  have hclose : Steps rebuild m.adapter (m.setReady false).adapter := .single (.drain _)
  obtain ⟨hmoves, L₁, -⟩ := reofferSlots_spec
    (List.range (m.setReady false).adapter.world.capacity) {} (L.setReady hrest false)
  have hc₁ := hmoves.called (setReady_calls hrest)
  rw [flush] at h
  simp only at h
  split at h
  · cases h
  · rename_i hdrain
    obtain ⟨rfl, rfl⟩ := Prod.mk.inj (Option.some.inj h)
    obtain ⟨hd, -⟩ := observeDrain_drains L₁ hc₁ hdrain
    obtain ⟨h1, h2, h3⟩ := hd.setReady (fun _ => id) false
    exact ⟨⟨(hclose.trans hmoves.steps).trans h1, h2, h3⟩, fun h => by cases h⟩
  · rename_i m₂ hdrain
    obtain ⟨rfl, rfl⟩ := Prod.mk.inj (Option.some.inj h)
    obtain ⟨hd, hidle⟩ := observeDrain_drains L₁ hc₁ hdrain
    obtain ⟨hmoves₂, L₂, hsame⟩ :=
      reofferSlots_spec (List.range m₂.adapter.world.capacity) {} hd.ledger
    have hd₂ : Drains rebuild (fun _ => False) (m.setReady false).reofferRetryDebt.2
        m₂.reofferRetryDebt.2 :=
      ⟨hd.steps.trans hmoves₂.steps, hmoves₂.called hd.calls, L₂⟩
    obtain ⟨h1, h2, h3⟩ := hd₂.setReady (fun _ => id) _
    refine ⟨⟨(hclose.trans hmoves.steps).trans h1, h2, h3⟩, fun heq => ?_⟩
    have hresult := DrainOutcome.returned.inj heq
    rw [finalizeDrain] at hresult
    split_ifs at hresult with hstalled howed
    rw [not_or] at howed
    obtain ⟨-, hm⟩ := hsame (by simpa [reofferRetryDebt] using howed.1)
    have hpending := hidle (by rw [hresult])
    change (m₂.reofferRetryDebt.2).hasPending = false
    rw [reofferRetryDebt, hm]
    exact hpending

/-! ### Residency changes -/

theorem ensureResident_runs (L : Ledger rebuild (fun _ => False) m) (hrest : m.Resting)
    (hsparse : ¬ m.adapter.world.IsDense) (key : ℕ) :
    Runs rebuild m (m.ensureResident key) := by
  have hstep : Steps rebuild m.adapter (m.adapter.ensureResident key).2 :=
    .single (.ensureResident hsparse key)
  have I := L.inv.ensureResident hsparse key
  rw [Maintenance.ensureResident]
  simp only
  refine ⟨hstep, fun s => ?_, ?_⟩
  · have hreb : (m.adapter.ensureResident key).2.rebuilding = m.adapter.rebuilding := by
      rw [Adapter.ensureResident]
      split_ifs
      · rfl
      · rfl
      · simp only
        split <;> rfl
    simp only [hreb]
    exact hrest s
  rw [Adapter.ensureResident] at I ⊢
  split_ifs at I ⊢ with h1 h2 h3 h4 h5
  · cases h2
  · exact ⟨I, L.owned, L.owes⟩
  · cases h4
  · exact ⟨I, L.owned, L.owes⟩
  all_goals simp only at I h5 ⊢
  · split at h5
    · cases h5
    rename_i ref href
    simp only [href] at I ⊢
    refine ⟨I, fun k b h => ?_, fun k r b hr h => ?_⟩
    all_goals change MarkedBy k b (noteWorld (.ensureResident key) m.adapter.world
      (m.adapter.world.ensureResident key) m.log) at h
    · exact L.owned k b (markedBy_noteWorld h).1
    obtain ⟨hmarked, -, hnew⟩ := markedBy_noteWorld h
    rcases ChunkStore.resident_ensureResident hr with hold | ⟨rfl, hmissing⟩
    · obtain ⟨hb, hbit, howed⟩ := L.owes k r b hold hmarked
      refine ⟨Adapter.bindSlot_bound href hr (Or.inr ⟨hr, hb.2, hb.3, hb.4⟩), hbit, ?_⟩
      refine howed.imp_right (Or.imp_right fun ho => ?_)
      rw [noteWorld]
      split_ifs <;> exact ho
    · have hnone := (hnew rfl hmissing).symm.trans hr
      cases hnone
  · split at h5
    · rename_i hmissing
      simp only [hmissing] at I ⊢
      refine ⟨I, L.owned, fun k r b hr h => ?_⟩
      rcases ChunkStore.resident_ensureResident hr with hold | ⟨rfl, -⟩
      · obtain ⟨hb, hbit, howed⟩ := L.owes k r b hold h
        exact ⟨⟨hr, hb.2, hb.3, hb.4⟩, hbit, howed⟩
      · have hnone := hmissing.symm.trans hr
        cases hnone
    · exact absurd rfl h5

theorem evict_runs (L : Ledger rebuild (fun _ => False) m) (hrest : m.Resting)
    (hsparse : ¬ m.adapter.world.IsDense) (key : ℕ) :
    Runs rebuild m { m with adapter := (m.adapter.evict key).2 } := by
  have hstep : Steps rebuild m.adapter (m.adapter.evict key).2 := .single (.evict hsparse key)
  have I := L.inv.evict hsparse key
  refine ⟨hstep, fun s => ?_, I, fun k b h => ?_, fun k r b hr h => ?_⟩
  · change (m.adapter.evict key).2.rebuilding s = none
    rw [Adapter.evict]
    split_ifs
    · exact hrest s
    · exact hrest s
    · split <;> exact hrest s
  · have howned : (m.adapter.evict key).2.owned = m.adapter.owned := by
      rw [Adapter.evict]
      split_ifs
      · rfl
      · rfl
      · split <;> rfl
    change (m.adapter.evict key).2.owned.getLsbD b = true
    rw [howned]
    exact L.owned k b h
  · change (m.adapter.evict key).2.Bound k r ∧ _
    change (m.adapter.evict key).2.world.resident k = some r at hr
    rw [Adapter.evict] at hr ⊢
    split_ifs at hr ⊢ with h1 h2
    · exact L.owes k r b hr h
    · exact L.owes k r b hr h
    · split at hr
      · rename_i hmissing
        exact L.owes k r b hr h
      · rename_i ref href
        -- the evicted chunk is gone, and the other chunks have other slots
        have hold : m.adapter.world.resident k = some r := ChunkStore.resident_evict hr
        have hne : r.slot ≠ ref.slot := by
          intro hs
          obtain rfl := m.adapter.world.slot_inj k key r ref hold href hs
          simp only [ChunkStore.evict, dif_neg (show ¬ m.adapter.world.residency = _ from hsparse)]
            at hr
          split at hr
          · rename_i hmissing
            rw [hmissing] at href
            cases href
          · simp at hr
        obtain ⟨hb, hbit, howed⟩ := L.owes k r b hold h
        have hslot : (m.adapter.setSlot ref.slot (m.adapter.slots ref.slot).unbind).slots r.slot =
            m.adapter.slots r.slot := Function.update_of_ne hne ..
        exact ⟨⟨hr, by simp only [hslot, hb.bound], by simp only [hslot, hb.key_eq],
          by simp only [hslot, hb.generation]⟩, hbit, howed⟩

theorem reconcileResidency_runs (L : Ledger rebuild (fun _ => False) m) (hrest : m.Resting)
    (hsparse : ¬ m.adapter.world.IsDense) :
    Runs rebuild m { m with adapter := m.adapter.reconcileResidency.2 } := by
  have hstep : Steps rebuild m.adapter m.adapter.reconcileResidency.2 :=
    .single (.reconcile hsparse)
  have I := L.inv.reconcileResidency hsparse
  obtain ⟨hw, ho, hb, hbound⟩ := Adapter.bindResidents_spec m.adapter.world.lru
    { m.adapter with slots := fun s => (m.adapter.slots s).unbind }
  rw [Adapter.reconcileResidency] at hstep I ⊢
  split_ifs at hstep I ⊢ with h1 h2
  · exact ⟨.refl, hrest, I, L.owned, L.owes⟩
  · exact ⟨.refl, hrest, I, L.owned, L.owes⟩
  · refine ⟨hstep, fun s => (congrFun hb s).trans (hrest s), I, fun k b h => ?_,
      fun k r b hr h => ?_⟩
    · refine (congrArg (fun v : BitVec 32 => v.getLsbD b) ho).trans (L.owned k b h)
    · have hr' : m.adapter.world.resident k = some r :=
        (congrArg (fun W : ChunkStore C => W.resident k) hw).symm.trans hr
      have hres : m.adapter.world.residency = .sparseResident := by
        cases h : m.adapter.world.residency with
        | alwaysResident => exact absurd h hsparse
        | sparseResident => rfl
      exact ⟨hbound k r hr' (Or.inl ((m.adapter.world.mem_lru hres k).2 ⟨r, hr'⟩)),
        (L.owes k r b hr' h).2⟩

/-! ### Runs of operations -/

theorem Moves.runs (h : Moves rebuild m m') (hrest : m.Resting)
    (L : Ledger rebuild (fun _ => False) m') : Runs rebuild m m' := by
  refine ⟨h.steps, fun s => ?_, L⟩
  have hnone := h.calls s
  rw [hrest s] at hnone
  simpa using hnone

/-- **One operation** is a run of steps and keeps the ledger. -/
theorem op_runs {o : Op C P} (L : Ledger rebuild (fun _ => False) m) (hrest : m.Resting)
    (h : m.op rebuild o = some m') : Runs rebuild m m' := by
  cases o with
  | markDirty key mask bounds =>
    obtain rfl := Option.some.inj h
    exact (markDirty_moves key mask bounds).runs hrest (L.markDirty key mask bounds)
  | retry key =>
    obtain rfl := Option.some.inj h
    exact (retry_moves key).runs hrest (L.retry key)
  | world act =>
    obtain rfl := Option.some.inj h
    exact (worldAct_moves act).runs hrest (L.worldAct act)
  | runSome fuel budget calls =>
    obtain ⟨⟨outcome, m₁⟩, hrun, rfl⟩ := Option.map_eq_some_iff.1 h
    exact runSome_runs L hrest hrun
  | flush fuel calls =>
    obtain ⟨⟨outcome, m₁⟩, hrun, rfl⟩ := Option.map_eq_some_iff.1 h
    exact (flush_runs L hrest hrun).1
  | ensureResident key =>
    rw [op] at h
    split_ifs at h with hd
    obtain rfl := Option.some.inj h
    exact ensureResident_runs L hrest hd key
  | evict key =>
    rw [op] at h
    split_ifs at h with hd
    obtain rfl := Option.some.inj h
    exact evict_runs L hrest hd key
  | reconcileResidency =>
    rw [op] at h
    split_ifs at h with hd
    obtain rfl := Option.some.inj h
    exact reconcileResidency_runs L hrest hd
  | tryRelease =>
    obtain rfl := Option.some.inj h
    rw [tryRelease]
    split_ifs with hnot
    · exact ⟨.refl, hrest, L⟩
    · rw [not_or, not_or] at hnot
      have hready : m.adapter.transitionReady = true := by simpa using hnot.2.1
      have hstep : Adapter.Step rebuild m.adapter
          { m.adapter with released := true, transitionReady := false } := .release hready
      exact ⟨.single hstep, hrest, L.of (L.inv.step hstep) rfl rfl (.refl _) (fun _ _ h => h)
        fun _ _ _ _ _ _ _ ho => ho⟩

theorem ops_runs {os : List (Op C P)} (L : Ledger rebuild (fun _ => False) m)
    (hrest : m.Resting) (h : ops rebuild os m = some m') : Runs rebuild m m' := by
  induction os generalizing m with
  | nil =>
    obtain rfl := Option.some.inj h
    exact ⟨.refl, hrest, L⟩
  | cons o os ih =>
    rw [ops] at h
    obtain ⟨m₁, hop, hops⟩ := Option.bind_eq_some_iff.1 h
    obtain ⟨h1, h2, h3⟩ := op_runs L hrest hop
    obtain ⟨h4, h5, h6⟩ := ih h3 h2 hops
    exact ⟨h1.trans h4, h5, h6⟩

omit [Inhabited C] in
theorem init_rebuilding [Inhabited P] (world : ChunkStore C) (owned : BitVec 32) :
    (init world owned : Maintenance C P).Resting := by
  intro s
  change (Adapter.init world owned : Adapter C P).rebuilding s = none
  rw [Adapter.init]
  split_ifs
  · rfl
  · rw [Adapter.bindCurrentResidency, (Adapter.bindResidents_spec _ _).2.2.1]

/-- **Runs of a new adapter** are runs of steps and keep the ledger. -/
theorem init_runs [Inhabited P] {world : ChunkStore C} {owned : BitVec 32} {os : List (Op C P)}
    (h : ops rebuild os (init world owned) = some m) : Runs rebuild (init world owned) m :=
  ops_runs ⟨Adapter.inv_init world owned, fun _ _ h => h.elim, fun _ _ _ _ h => h.elim⟩
    (init_rebuilding world owned) h

/-- **The adapter of a dirty-bit run** is reachable under any backend. -/
theorem reachable_adapter [Inhabited P] {world : ChunkStore C} {owned : BitVec 32}
    {os : List (Op C P)} (h : ops rebuild os (init world owned) = some m) :
    m.adapter.Reachable rebuild :=
  ⟨world, owned, (init_runs h).steps⟩

omit [Inhabited C] in
/-- A slot that is pending is seen. -/
theorem pending_of_hasPending (h : m.hasPending = false)
    (hs : s < m.adapter.world.capacity) : m.pending s = false := by
  rw [hasPending, List.any_eq_false] at h
  have hlt : s < 64 * m.wordCount := by
    rw [wordCount]
    split_ifs <;> omega
  simpa using h s (List.mem_range.2 hlt)

/-- **An idle flush leaves no mark behind**, unless the rebuild threw after the latest offer. -/
theorem flush_idle [Inhabited P] {world : ChunkStore C} {owned : BitVec 32} {os : List (Op C P)}
    {fuel : ℕ} (h : ops rebuild os (init world owned) = some m)
    (hflush : m.flush rebuild calls fuel = some (.returned .idle, m')) {key : ℕ}
    (hslot : m'.adapter.boundSlot key = some s) {r : ResidentChunk C}
    (hr : m'.adapter.world.resident key = some r) {b : ℕ} (hmarked : MarkedBy key b m'.log) :
    ThrewSinceOffer s key m'.log := by
  obtain ⟨-, hrest, L⟩ := init_runs h
  obtain ⟨hruns, hidle⟩ := flush_runs L hrest hflush
  obtain ⟨q, hq, rfl⟩ := hruns.ledger.inv.bound_of_boundSlot hslot
  obtain rfl : q = r := Option.some.inj (hq.resident.symm.trans hr)
  obtain ⟨-, -, howed⟩ := hruns.ledger.owes key q b hr hmarked
  have hpending := pending_of_hasPending (hidle rfl) (m'.adapter.world.slot_lt key q hr)
  rcases howed with howed | howed | howed
  · exact howed.elim
  · rw [howed] at hpending
    cases hpending
  · exact howed

/-- **Fresh products and idle flushes.**  Under any backend, a current product is the rebuild of
the present content in the present residency.  The adapter over the dirty-bit backend is one of
these, and when its flush is idle, a bound chunk with an owned dirty bit that an adapter mark set
has a rebuild that threw after the latest offer. -/
theorem products_fresh [Inhabited P] (rebuild : ℕ → C → P) :
    (∀ a : Adapter C P, a.Reachable rebuild → ∀ key, (a.product key).state = .current →
      ∃ r, a.world.resident key = some r ∧
        (a.product key).value = some (rebuild key r.content) ∧
        (a.product key).token = ⟨key, r.dirty.contentVersion, r.generation⟩) ∧
    ∀ (world : ChunkStore C) (owned : BitVec 32) (os : List (Op C P)) (m : Maintenance C P),
      ops rebuild os (init world owned) = some m → m.adapter.Reachable rebuild ∧
        ∀ fuel calls m', m.flush rebuild calls fuel = some (.returned .idle, m') →
          ∀ key s r b, m'.adapter.boundSlot key = some s →
            m'.adapter.world.resident key = some r → r.dirty.mask.getLsbD b = true →
            m'.adapter.owned.getLsbD b = true → MarkedBy key b m'.log →
              ThrewSinceOffer s key m'.log :=
  ⟨fun _ ha _ hcurrent => ha.product_current hcurrent, fun _ _ _ _ hops =>
    ⟨reachable_adapter hops, fun _ _ _ hflush _ _ _ _ hslot hr _ _ hmarked =>
      flush_idle hops hflush hslot hr hmarked⟩⟩

end Maintenance

/-! ### One chunk -/

/-- A dense world of one chunk that holds a number. -/
def oneChunk : ChunkStore ℕ where
  residency := .alwaysResident
  chunkCount := 1
  capacity := 1
  resident key := if key = 0 then some { slot := 0, content := 5 } else none
  freeSlots := []
  lru := []
  slot_lt key r h := by
    split_ifs at h
    obtain rfl := Option.some.inj h
    exact Nat.one_pos
  slot_inj key key' r r' h h' _ := by
    split_ifs at h h' with hk hk'
    rw [hk, hk']
  free_lt := by simp
  free_ne := by simp
  free_nodup := List.nodup_nil
  mem_lru h := by cases h
  generation_le key r h := by
    split_ifs at h
    obtain rfl := Option.some.inj h
    exact le_rfl
  dense_resident _ key h := by
    obtain rfl : key = 0 := by omega
    exact ⟨_, rfl, rfl, rfl⟩
  dense_lt _ key r h := by
    split_ifs at h with hk
    omega
  dense_capacity _ := rfl

/-- Mark the chunk and flush, with a rebuild that may throw. -/
def markAndFlush (threw : Bool) : List (Maintenance.Op ℕ ℕ) :=
  [.markDirty 0 1 {}, .flush 3 fun _ => { threw }]

theorem products_fresh_oneChunk :
    (∃ m, Maintenance.ops (fun _ n => n + 1) (markAndFlush false) (.init oneChunk 1) = some m ∧
      ∃ r, m.adapter.world.resident 0 = some r ∧
        (m.adapter.product 0).value = some (r.content + 1) ∧
        (m.adapter.product 0).token = ⟨0, r.dirty.contentVersion, r.generation⟩) ∧
    ∃ m m', Maintenance.ops (fun _ n => n + 1) (markAndFlush true) (.init oneChunk 1) = some m ∧
      m.flush (fun _ n => n + 1) (fun _ => {}) 3 = some (.returned .idle, m') ∧
        ThrewSinceOffer 0 0 m'.log :=
  have h := Maintenance.products_fresh fun (_ n : ℕ) => n + 1
  ⟨⟨_, rfl, h.1 _ (h.2 oneChunk 1 (markAndFlush false) _ rfl).1 0 rfl⟩,
    _, _, rfl, rfl, (h.2 oneChunk 1 (markAndFlush true) _ rfl).2 3 (fun _ => {}) _ rfl 0 0 _ 0
      rfl rfl rfl rfl (Or.inl ⟨rfl, rfl⟩)⟩

end Tess
