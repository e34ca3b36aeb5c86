import Tess.Experimental.QueuedScheduler
import Tess.Lib.LinearProbe

/-!
# The dirty-bit maintenance scheduler

`DirtyBitScheduler` has one pending bit for each registered task, in words of 64.  A drain takes a
word at a time and runs the tasks of its bits, the lowest first; when it stops early it puts the
rest back.  An offer sets the bit of its task, also while that task waits in the taken word, and
then the task runs once from the word and once again from the bitmap.

* `DirtyBitScheduler` : the scheduler and the drain that runs, with the log of offers and runs;
* `DirtyBitScheduler.step` : one atomic step;
* `DirtyBitScheduler.Valid` : **the invariant**: registry, bits and log fit together;
* `DirtyBitScheduler.valid_run` : every run keeps it.
-/

namespace Tess

open Probing Service

/-- Where a drain stands. -/
inductive DirtyBitDrain
  /-- No drain runs. -/
  | idle
  /-- In front of a word; the sweep has run something, or not. -/
  | sweep (executed : Bool) (wordIndex : ℕ) (budget : BitVec 64)
  /-- With the bits of a word in hand. -/
  | inWord (executed : Bool) (wordIndex : ℕ) (word : BitVec 64) (budget : BitVec 64)
  /-- A task of the word runs; the bits are those left, the budget the one before the run. -/
  | running (wordIndex : ℕ) (word : BitVec 64) (before : BitVec 64)
  deriving DecidableEq, Repr

/-- `DirtyBitScheduler`. -/
structure DirtyBitScheduler where
  /-- Number of tasks that it can register. -/
  capacity : ℕ
  /-- Registered tasks. -/
  tasks : ℕ → Option MaintenanceTask := fun _ => none
  /-- Open-addressed cells, each free or with a task and its index. -/
  registrations : ℕ → Option (MaintenanceTask × ℕ) := fun _ => none
  /-- Number of registered tasks. -/
  registered : ℕ := 0
  /-- Words of pending bits. -/
  pending : ℕ → BitVec 64 := fun _ => 0
  /-- The registry is published. -/
  isSealed : Bool := false
  /-- The running task has offered something. -/
  runningTaskScheduled : Bool := false
  /-- Observations. -/
  metrics : MaintenanceMetrics := {}
  /-- The drain under the run lock. -/
  drain : DirtyBitDrain := .idle
  /-- How the latest drain ended. -/
  exit : Option DrainExit := none
  /-- Accepted offers and started runs, the newest first. -/
  log : List (Event MaintenanceTask) := []

/-- What happens in one atomic step. -/
inductive DirtyBitAction
  | registerTask (task : MaintenanceTask)
  | sealRegistry
  /-- An offer; `fromTask` when the draining thread makes it. -/
  | schedule (task : MaintenanceTask) (fromTask : Bool)
  /-- `run_some` begins. -/
  | runSome (budget : BitVec 64)
  /-- `flush` begins. -/
  | flush
  /-- The drain goes on: to a word, to a task of a word, or to its end. -/
  | advance
  /-- The task returns and leaves this budget. -/
  | finish (budget : BitVec 64)
  /-- The task throws. -/
  | throw
  deriving DecidableEq, Repr

/-- `std::countr_zero`. -/
def countrZero (word : BitVec 64) : ℕ := ((List.range 64).find? word.getLsbD).getD 64

namespace DirtyBitScheduler

variable (s : DirtyBitScheduler)

/-- Number of registration cells. -/
def cellCount : ℕ := bucketCount s.capacity

/-- `word_count`. -/
def wordCount : ℕ := s.capacity / 64 + if s.capacity % 64 = 0 then 0 else 1

/-- `next_registration`. -/
def nextRegistration (slot : ℕ) : ℕ := if slot + 1 = s.cellCount then 0 else slot + 1

/-- `find_index`; an absent task has none. -/
def findIndex (task : MaintenanceTask) : Option ℕ :=
  if s.cellCount = 0 then none
  else (scan s.nextRegistration (settles s.registrations task) s.cellCount
      (taskHome s.cellCount task)).bind fun slot => (s.registrations slot).map Prod.snd

/-- `register_task`, with its result; none when the insertion loop would not end. -/
def registerTask (task : MaintenanceTask) : Option (Bool × DirtyBitScheduler) :=
  if s.isSealed then some (false, s)
  else if s.findIndex task ≠ none then some (true, s)
  else if s.registered = s.capacity then
    some (false, { s with
      metrics := { s.metrics with capacityFailures := s.metrics.capacityFailures + 1 } })
  else
    (scan s.nextRegistration (isFree s.registrations) s.cellCount
      (taskHome s.cellCount task)).map fun slot =>
        (true, { s with
          tasks := Function.update s.tasks s.registered (some task)
          registrations := Function.update s.registrations slot (some (task, s.registered))
          registered := s.registered + 1 })

/-- The pending bit of a task. -/
def bit (index : ℕ) : Bool := (s.pending (index / 64)).getLsbD (index % 64)

/-- The bit of a task in the word that the drain has taken. -/
def held (index : ℕ) : Bool :=
  match s.drain with
  | .inWord _ wordIndex word _ => index / 64 = wordIndex && word.getLsbD (index % 64)
  | .running wordIndex word _ => index / 64 = wordIndex && word.getLsbD (index % 64)
  | _ => false

/-- A task runs. -/
def runningActive : Bool :=
  match s.drain with
  | .running .. => true
  | _ => false

/-- `schedule`, with its result. -/
def schedule (task : MaintenanceTask) (fromTask : Bool) : Bool × DirtyBitScheduler :=
  let calledFromTask := s.runningActive && fromTask
  let metrics := { s.metrics with scheduleCalls := s.metrics.scheduleCalls + 1 }
  if s.isSealed = false then (false, { s with metrics := metrics })
  else match s.findIndex task with
    | none => (false, { s with metrics := metrics })
    | some index =>
      let mask := 1#64 <<< (index % 64)
      let previous := s.pending (index / 64)
      (true, { s with
        pending := Function.update s.pending (index / 64) (previous ||| mask)
        metrics :=
          if previous &&& mask ≠ 0 then
            { metrics with coalescedCalls := metrics.coalescedCalls + 1 }
          else metrics
        runningTaskScheduled := calledFromTask || s.runningTaskScheduled
        log := .accepted task (s.held index) :: s.log })

/-- A drain ends. -/
def leave (exit : DrainExit) : DirtyBitScheduler := { s with drain := .idle, exit := some exit }

/-- Put bits back and end the drain. -/
def putBack (wordIndex : ℕ) (word : BitVec 64) (exit : DrainExit) : DirtyBitScheduler :=
  leave { s with
    pending := Function.update s.pending wordIndex (s.pending wordIndex ||| word) } exit

/-- The drain goes on; none when it would run an unregistered bit. -/
def advance : Option DirtyBitScheduler :=
  match s.drain with
  | .sweep executed wordIndex budget =>
    if wordIndex < s.wordCount then
      some { s with
        pending := Function.update s.pending wordIndex 0
        drain := .inWord executed wordIndex (s.pending wordIndex) budget }
    else if executed then some { s with drain := .sweep false 0 budget }
    else some (s.leave (.returned true))
  | .inWord executed wordIndex word budget =>
    if word = 0 then some { s with drain := .sweep executed (wordIndex + 1) budget }
    else if budget = 0 then some (s.putBack wordIndex word (.returned true))
    else
      let bit := countrZero word
      (s.tasks (wordIndex * 64 + bit)).map fun task => { s with
        drain := .running wordIndex (word &&& ~~~ (1#64 <<< bit)) budget
        runningTaskScheduled := false
        metrics := { s.metrics with executions := s.metrics.executions + 1 }
        log := .started task :: s.log }
  | _ => none

/-- `run_task` returns, and the drain goes on or ends. -/
def finish (wordIndex : ℕ) (word before budget : BitVec 64) : DirtyBitScheduler :=
  if budget ≠ before ∨ ¬ s.runningTaskScheduled then
    { s with drain := .inWord true wordIndex word budget }
  else if word ≠ 0 then s.putBack wordIndex word (.returned false)
  else s.leave (.returned false)

/-- The task throws, and the drain ends. -/
def throw (wordIndex : ℕ) (word : BitVec 64) : DirtyBitScheduler :=
  if word ≠ 0 then s.putBack wordIndex word .threw else s.leave .threw

/-- A drain begins; an unpublished registry refuses it. -/
def beginDrain (budget : BitVec 64) : Option DirtyBitScheduler :=
  if s.isSealed = false then some { s with exit := some (.returned false) }
  else match s.drain with
    | .idle => some { s with drain := .sweep false 0 budget }
    | _ => none

/-- One atomic step; none when it is not possible there. -/
def step : DirtyBitAction → Option DirtyBitScheduler
  | .registerTask task => (s.registerTask task).map Prod.snd
  | .sealRegistry => some { s with isSealed := true }
  | .schedule task fromTask => some (s.schedule task fromTask).2
  | .runSome budget => s.beginDrain budget
  | .flush => s.beginDrain (BitVec.allOnes 64)
  | .advance => s.advance
  | .finish budget =>
    match s.drain with
    | .running wordIndex word before => some (s.finish wordIndex word before budget)
    | _ => none
  | .throw =>
    match s.drain with
    | .running wordIndex word _ => some (s.throw wordIndex word)
    | _ => none

/-- A run. -/
def run (s : DirtyBitScheduler) (actions : List DirtyBitAction) : Option DirtyBitScheduler :=
  actions.foldlM step s

/-- Tasks whose bit is set. -/
def bitmap : List MaintenanceTask :=
  (List.range s.registered).filterMap fun index => if s.bit index then s.tasks index else none

/-- Tasks that wait in the taken word. -/
def inHand : List MaintenanceTask :=
  (List.range s.registered).filterMap fun index => if s.held index then s.tasks index else none

/-! ### Bits -/

section Bits

variable {word : BitVec 64} {b j index : ℕ}

/-- The bit of a one moved to the left. -/
theorem getLsbD_one_shiftLeft (hb : b < 64) : (1#64 <<< b).getLsbD j = decide (j = b) := by
  rw [BitVec.getLsbD_shiftLeft, BitVec.getLsbD_one]
  by_cases hj : j = b
  · subst hj
    simp [hb]
  · simp only [hj, decide_false]
    rcases lt_or_gt_of_ne hj with hlt | hgt
    · simp [hlt]
    · have : j - b ≠ 0 := by omega
      simp [this]

theorem getLsbD_setBit (hb : b < 64) :
    (word ||| 1#64 <<< b).getLsbD j = (word.getLsbD j || decide (j = b)) := by
  rw [BitVec.getLsbD_or, getLsbD_one_shiftLeft hb]

theorem getLsbD_clearBit (hb : b < 64) :
    (word &&& ~~~ (1#64 <<< b)).getLsbD j = (word.getLsbD j && !decide (j = b)) := by
  rw [BitVec.getLsbD_and, BitVec.getLsbD_not, getLsbD_one_shiftLeft hb]
  by_cases hj : j < 64
  · simp [hj]
  · simp [BitVec.getLsbD_of_ge word j (by omega)]

/-- The lowest bit of a word that has one. -/
theorem countrZero_spec (h : word ≠ 0) :
    countrZero word < 64 ∧ word.getLsbD (countrZero word) = true := by
  obtain ⟨b, hb⟩ : ∃ b, (List.range 64).find? word.getLsbD = some b := by
    rw [← Option.isSome_iff_exists, List.find?_isSome]
    by_contra hno
    refine h (BitVec.eq_of_getLsbD_eq fun i hi => ?_)
    rw [show (0 : BitVec 64) = 0#64 from rfl, BitVec.getLsbD_zero]
    exact Bool.eq_false_iff.2 fun hset => hno ⟨i, List.mem_range.2 hi, hset⟩
  rw [countrZero, hb]
  exact ⟨List.mem_range.1 (List.mem_of_find?_eq_some hb), List.find?_some hb⟩

theorem index_ext (hw : index / 64 = j / 64) (hb : index % 64 = j % 64) : index = j := by
  omega

end Bits

/-! ### What the log owes to the bits -/

/-- **The log fits the bits**: of the bitmap, and of the taken word. -/
structure Tracked (tasks : ℕ → Option MaintenanceTask) (bit held : ℕ → Bool)
    (log : List (Event MaintenanceTask)) : Prop where
  /-- No offer is lost. -/
  kept : Kept log fun t => ∃ i, tasks i = some t ∧ (bit i = true ∨ held i = true)
  /-- No run without an offer, up to one more after an offer that found the task waiting. -/
  offered : OnlyOffered Bool.toNat log
  /-- A pending task may run. -/
  fresh : ∀ i t, tasks i = some t → bit i = true ∨ held i = true → Fresh Bool.toNat log t
  /-- A task that is pending twice may run twice. -/
  doubled : ∀ i t, tasks i = some t → bit i = true → held i = true → Doubled log t

namespace Tracked

variable {tasks tasks' : ℕ → Option MaintenanceTask} {bit bit' held held' : ℕ → Bool}
  {log : List (Event MaintenanceTask)} {i : ℕ} {task : MaintenanceTask}

/-- Bits move between the bitmap and the word, and new tasks come without bits. -/
theorem moved (h : Tracked tasks bit held log)
    (htasks : ∀ i, bit i = true ∨ held i = true → tasks' i = tasks i)
    (hsome : ∀ i, bit' i = true ∨ held' i = true ↔ bit i = true ∨ held i = true)
    (hboth : ∀ i, bit' i = true → held' i = true → bit i = true ∧ held i = true) :
    Tracked tasks' bit' held' log where
  kept := h.kept.mono fun t ⟨i, hi, hpend⟩ => ⟨i, (htasks i hpend).trans hi, (hsome i).2 hpend⟩
  offered := h.offered
  fresh := fun i t hi hpend => by
    have hpend := (hsome i).1 hpend
    exact h.fresh i t ((htasks i hpend).symm.trans hi) hpend
  doubled := fun i t hi hb hh => by
    obtain ⟨hb, hh⟩ := hboth i hb hh
    exact h.doubled i t ((htasks i (Or.inl hb)).symm.trans hi) hb hh

/-- An offer sets the bit of its task. -/
theorem offer (h : Tracked tasks bit held log) (hi : tasks i = some task)
    (hinj : ∀ j, tasks j = some task → j = i) (hbit : ∀ j, bit' j = (bit j || decide (j = i))) :
    Tracked tasks bit' held (.accepted task (held i) :: log) where
  kept := by
    refine h.kept.accept _ (fun t => ?_) ⟨i, hi, Or.inl (by simp [hbit])⟩
    rintro ⟨j, hj, hpend⟩
    exact ⟨j, hj, hpend.imp_left fun hb => by simp [hbit, hb]⟩
  offered := h.offered.accept _ _
  fresh := fun j t hj hpend => by
    by_cases hji : j = i
    · subst hji
      obtain rfl := Option.some.inj (hi.symm.trans hj)
      exact Fresh.accept_self _
    · refine (h.fresh j t hj (hpend.imp_left fun hb => ?_)).accept _ _
      simpa [hbit, hji] using hb
  doubled := fun j t hj hb hh => by
    by_cases hji : j = i
    · subst hji
      obtain rfl := Option.some.inj (hi.symm.trans hj)
      rw [hh]
      exact Doubled.accept_self
    · refine (h.doubled j t hj ?_ hh).accept _ _
      simpa [hbit, hji] using hb

/-- A run takes the bit of its task from the word. -/
theorem start (h : Tracked tasks bit held log) (hi : tasks i = some task) (hh : held i = true)
    (hinj : ∀ j, tasks j = some task → j = i)
    (hheld : ∀ j, held' j = (held j && !decide (j = i))) :
    Tracked tasks bit held' (.started task :: log) where
  kept := by
    refine h.kept.start fun t => ?_
    rintro ⟨j, hj, hpend⟩
    by_cases hji : j = i
    · subst hji
      exact Or.inl (Option.some.inj (hj.symm.trans hi))
    · exact Or.inr ⟨j, hj, hpend.imp_right fun hb => by simp [hheld, hb, hji]⟩
  offered := h.offered.start (h.fresh i task hi (Or.inr hh))
  fresh := fun j t hj hpend => by
    have hpend' : bit j = true ∨ held j = true := hpend.imp_right fun hb => by
      rw [hheld, Bool.and_eq_true] at hb
      exact hb.1
    by_cases hji : j = i
    · subst hji
      obtain rfl := Option.some.inj (hi.symm.trans hj)
      -- the bit in the bitmap stays, so the offer that set it allows one more run
      have hb : bit j = true := hpend.resolve_right (by simp [hheld])
      exact (h.doubled j task hi hb hh).fresh le_rfl
    · have hne : task ≠ t := by
        rintro rfl
        exact hji (hinj j hj)
      exact (h.fresh j t hj hpend').start hne
  doubled := fun j t hj hb hh' => by
    rw [hheld, Bool.and_eq_true] at hh'
    have hne : task ≠ t := by
      rintro rfl
      simpa [hinj j hj] using hh'.2
    exact (h.doubled j t hj hb hh'.1).start hne

end Tracked

/-! ### The invariant -/

/-- **Registry, bits and log fit together.** -/
structure Valid : Prop where
  /-- The cells are in order. -/
  table : Probed s.cellCount (taskHome s.cellCount) s.registrations
  /-- They map the tasks to their indexes. -/
  maps : ∀ t i, Maps s.cellCount s.registrations t i ↔ s.tasks i = some t
  /-- Registered indexes have tasks. -/
  tasks : ∀ i, (∃ t, s.tasks i = some t) ↔ i < s.registered
  /-- The tasks fit. -/
  bounded : s.registered ≤ s.capacity
  /-- Only registered tasks have bits. -/
  bits : ∀ i, s.bit i = true ∨ s.held i = true → i < s.registered
  /-- The log fits the bits. -/
  tracked : Tracked s.tasks s.bit s.held s.log

variable {s} {s' : DirtyBitScheduler} {capacity i j wordIndex : ℕ} {task : MaintenanceTask}
  {fromTask executed : Bool} {word budget before : BitVec 64}

/-- A new scheduler. -/
theorem valid_make (capacity : ℕ) : ({ capacity := capacity } : DirtyBitScheduler).Valid where
  table := probed_empty
  maps := fun t i => by simp [Maps]
  tasks := fun i => by simp
  bounded := Nat.zero_le _
  bits := fun i h => by simp [bit, held] at h
  tracked := ⟨Kept.nil, OnlyOffered.nil, fun i t h => (by cases h), fun i t h => (by cases h)⟩

theorem nextRegistration_eq (i : ℕ) (hi : i < s.cellCount) :
    s.nextRegistration i = next s.cellCount i := by
  unfold nextRegistration next
  split_ifs <;> omega

theorem home_lt (h : s.cellCount ≠ 0) : taskHome s.cellCount task < s.cellCount :=
  Nat.mod_lt _ (Nat.pos_of_ne_zero h)

theorem capacity_le_cellCount : s.capacity ≤ s.cellCount := by
  unfold cellCount bucketCount
  split_ifs <;> omega

namespace Valid

variable (h : s.Valid)

include h

/-- A task has one index. -/
theorem index_unique (hi : s.tasks i = some task) (hj : s.tasks j = some task) : j = i :=
  h.table.maps_unique ((h.maps _ _).2 hj) ((h.maps _ _).2 hi)

/-- Fewer tasks than cells leave a free cell. -/
theorem exists_free (hlt : s.registered < s.cellCount) :
    ∃ f < s.cellCount, s.registrations f = none := by
  have hkeys : ∀ t i, Maps s.cellCount s.registrations t i →
      t ∈ (List.range s.registered).filterMap s.tasks := by
    intro t i hmap
    have hi := (h.maps t i).1 hmap
    exact List.mem_filterMap.2 ⟨i, List.mem_range.2 ((h.tasks i).1 ⟨t, hi⟩), hi⟩
  refine h.table.exists_free hkeys ((List.length_filterMap_le _ _).trans_lt ?_)
  rwa [List.length_range]

/-- The lookup finds registered tasks only. -/
theorem tasks_of_findIndex (hfind : s.findIndex task = some i) : s.tasks i = some task := by
  unfold findIndex at hfind
  split_ifs at hfind with hzero
  rw [Option.bind_eq_some_iff] at hfind
  obtain ⟨slot, hscan, hslot⟩ := hfind
  obtain ⟨hlt, hstop, -⟩ := scan_spec nextRegistration_eq (home_lt hzero) hscan
  rcases settles_iff.1 hstop with hnone | ⟨v, hv⟩
  · rw [hnone] at hslot
    cases hslot
  · rw [hv] at hslot
    cases hslot
    exact (h.maps task v).1 ⟨slot, hlt, hv⟩

/-- An absent task is not registered, while a cell is free. -/
theorem not_maps_of_findIndex (hfind : s.findIndex task = none) (hlt : s.registered < s.cellCount)
    (v : ℕ) : ¬ Maps s.cellCount s.registrations task v := by
  intro hmap
  have hzero : s.cellCount ≠ 0 := by omega
  obtain ⟨i, hi, hscan, hcell⟩ := h.table.scan_of_maps nextRegistration_eq (home_lt hzero)
    (h.exists_free hlt) hmap
  rw [findIndex, if_neg hzero, hscan] at hfind
  simp [hcell] at hfind

/-- **A registration** ends and keeps the invariant. -/
theorem registerTask (task : MaintenanceTask) :
    ∃ r s', s.registerTask task = some (r, s') ∧ s'.Valid := by
  unfold DirtyBitScheduler.registerTask
  split_ifs with hsealed hknown hfull
  · exact ⟨_, _, rfl, h⟩
  · exact ⟨_, _, rfl, h⟩
  · exact ⟨_, _, rfl, h.table, h.maps, h.tasks, h.bounded, h.bits, h.tracked⟩
  · have hroom : s.registered < s.cellCount := by
      have := h.bounded
      have := s.capacity_le_cellCount
      omega
    have hzero : s.cellCount ≠ 0 := by omega
    have hhome : taskHome s.cellCount task < s.cellCount := home_lt hzero
    obtain ⟨slot, hscan⟩ := exists_scan_free nextRegistration_eq hhome (h.exists_free hroom)
    obtain ⟨hslot, hfree, -⟩ := scan_spec nextRegistration_eq (home_lt hzero) hscan
    have hnew := h.not_maps_of_findIndex (not_not.1 hknown) hroom
    have hnone : s.tasks s.registered = none := by
      by_contra hsome
      obtain ⟨t, ht⟩ := Option.ne_none_iff_exists'.1 hsome
      exact lt_irrefl _ ((h.tasks _).1 ⟨t, ht⟩)
    rw [hscan]
    refine ⟨true, _, rfl, ?_, fun t i => ?_, fun i => ?_, ?_, fun i hi => ?_, ?_⟩
    · exact h.table.insert nextRegistration_eq (home_lt hzero) hnew hscan
    · refine (maps_update hslot (isFree_iff.1 hfree)).trans ?_
      change _ ↔ Function.update s.tasks s.registered (some task) i = some t
      rw [h.maps, Function.update_apply]
      by_cases hi : i = s.registered
      · subst hi
        simp only [hnone, if_true, and_true, reduceCtorEq, or_false, Option.some.injEq]
        exact eq_comm
      · simp [hi]
    · change (∃ t, Function.update s.tasks s.registered (some task) i = some t) ↔
        i < s.registered + 1
      rw [Function.update_apply]
      by_cases hi : i = s.registered
      · simp [hi]
      · simp only [hi, if_false, h.tasks]
        omega
    · have := h.bounded
      change s.registered + 1 ≤ s.capacity
      omega
    · exact (h.bits i hi).trans (Nat.lt_succ_self _)
    · refine h.tracked.moved (fun i hi => ?_) (fun _ => Iff.rfl) fun _ hb hh => ⟨hb, hh⟩
      exact Function.update_of_ne (h.bits i hi).ne ..

/-- **An offer** keeps the invariant. -/
theorem schedule (task : MaintenanceTask) (fromTask : Bool) :
    (s.schedule task fromTask).2.Valid := by
  unfold DirtyBitScheduler.schedule
  simp only
  split_ifs with hsealed
  · exact ⟨h.table, h.maps, h.tasks, h.bounded, h.bits, h.tracked⟩
  cases hfind : s.findIndex task with
  | none => exact ⟨h.table, h.maps, h.tasks, h.bounded, h.bits, h.tracked⟩
  | some index =>
    simp only
    have htask := h.tasks_of_findIndex hfind
    have hbit : ∀ j, (Function.update s.pending (index / 64)
        (s.pending (index / 64) ||| 1#64 <<< (index % 64)) (j / 64)).getLsbD (j % 64) =
          (s.bit j || decide (j = index)) := by
      intro j
      rw [Function.update_apply]
      split_ifs with hword
      · rw [getLsbD_setBit (Nat.mod_lt _ (by decide)), bit, hword]
        congr 1
        refine decide_eq_decide.2 ⟨index_ext hword, ?_⟩
        rintro rfl
        rfl
      · have hne : j ≠ index := fun heq => hword (heq ▸ rfl)
        simp [bit, hne]
    refine ⟨h.table, h.maps, h.tasks, h.bounded, fun j hj => ?_, ?_⟩
    · rcases hj with hj | hj
      · have hj := (hbit j).symm.trans hj
        rw [Bool.or_eq_true] at hj
        rcases hj with hj | hj
        · exact h.bits j (Or.inl hj)
        · rw [of_decide_eq_true hj]
          exact (h.tasks index).1 ⟨task, htask⟩
      · exact h.bits j (Or.inr hj)
    · exact h.tracked.offer htask (fun j hj => h.index_unique htask hj) hbit

end Valid

/-! ### Drains -/

section Drains

/-- Bits that only move keep the invariant. -/
theorem Valid.moved (h : s.Valid) (hregistry : s'.capacity = s.capacity ∧ s'.tasks = s.tasks ∧
      s'.registrations = s.registrations ∧ s'.registered = s.registered) (hlog : s'.log = s.log)
    (hsome : ∀ i, s'.bit i = true ∨ s'.held i = true ↔ s.bit i = true ∨ s.held i = true)
    (hboth : ∀ i, s'.bit i = true → s'.held i = true → s.bit i = true ∧ s.held i = true) :
    s'.Valid := by
  obtain ⟨hcap, htasks, hregs, hcount⟩ := hregistry
  have hcells : s'.cellCount = s.cellCount := by rw [cellCount, cellCount, hcap]
  refine ⟨?_, ?_, ?_, ?_, ?_, ?_⟩
  · rw [hcells, hregs]
    exact h.table
  · rw [hcells, hregs, htasks]
    exact h.maps
  · rw [htasks, hcount]
    exact h.tasks
  · rw [hcount, hcap]
    exact h.bounded
  · intro i hi
    rw [hcount]
    exact h.bits i ((hsome i).1 hi)
  · rw [hlog]
    exact h.tracked.moved (fun i _ => by rw [htasks]) hsome hboth

/-- Bits stay where they are. -/
theorem Valid.congr (h : s.Valid) (hregistry : s'.capacity = s.capacity ∧ s'.tasks = s.tasks ∧
      s'.registrations = s.registrations ∧ s'.registered = s.registered) (hlog : s'.log = s.log)
    (hpending : s'.pending = s.pending) (hheld : s'.held = s.held) : s'.Valid := by
  have hbit : s'.bit = s.bit := by
    funext i
    rw [bit, bit, hpending]
  refine h.moved hregistry hlog (fun i => ?_) fun i hb hh => ?_
  · rw [hbit, hheld]
  · rw [hbit] at hb
    rw [hheld] at hh
    exact ⟨hb, hh⟩

/-- Bits that are put back are in the bitmap again. -/
theorem Valid.putBack (h : s.Valid)
    (hheld : ∀ i, s.held i = (decide (i / 64 = wordIndex) && word.getLsbD (i % 64)))
    (exit : DrainExit) : (s.putBack wordIndex word exit).Valid := by
  refine h.moved ⟨rfl, rfl, rfl, rfl⟩ rfl (fun i => ?_) fun i _ hh => ?_
  · have hbit : (s.putBack wordIndex word exit).bit i = (s.bit i || s.held i) := by
      rw [hheld]
      unfold bit DirtyBitScheduler.putBack leave
      simp only [Function.update_apply]
      split_ifs with hword
      · simp [hword]
      · simp [hword]
    have hno : (s.putBack wordIndex word exit).held i = false := rfl
    rw [hbit, hno, Bool.or_eq_true]
    simp
  · cases hh

/-- **The drain goes on**, and a bit that it runs has a task. -/
theorem Valid.advance (h : s.Valid) (hdrain : s.drain ≠ .idle)
    (hrun : s.runningActive = false) : ∃ s', s.advance = some s' ∧ s'.Valid := by
  unfold DirtyBitScheduler.advance
  rcases hd : s.drain with _ | ⟨executed, w, budget⟩ | ⟨executed, w, word, budget⟩ | ⟨w, word, before⟩
  · exact absurd hd hdrain
  · have hnone : ∀ i, s.held i = false := fun i => by rw [held, hd]
    simp only
    split_ifs
    · -- the bits of the word change sides
      refine ⟨_, rfl, h.moved ⟨rfl, rfl, rfl, rfl⟩ rfl (fun i => ?_) fun i hb hh => ?_⟩
      · rw [hnone i]
        simp only [bit, held, Function.update_apply]
        by_cases hword : i / 64 = w
        · simp [hword]
        · simp [hword]
      · simp only [bit, held, Function.update_apply] at hb hh
        by_cases hword : i / 64 = w
        · simp [hword] at hb
        · simp [hword] at hh
    · exact ⟨_, rfl, h.congr ⟨rfl, rfl, rfl, rfl⟩ rfl rfl (funext fun i => (hnone i).symm)⟩
    · exact ⟨_, rfl, h.congr ⟨rfl, rfl, rfl, rfl⟩ rfl rfl (funext fun i => (hnone i).symm)⟩
  · have hheld : ∀ i, s.held i = (decide (i / 64 = w) && word.getLsbD (i % 64)) := fun i => by
      rw [held, hd]
    simp only
    split_ifs with hzero hbudget
    · refine ⟨_, rfl, h.congr ⟨rfl, rfl, rfl, rfl⟩ rfl rfl (funext fun i => ?_)⟩
      rw [hheld, hzero]
      simp [held]
    · exact ⟨_, rfl, h.putBack hheld _⟩
    · obtain ⟨hlt, hset⟩ := countrZero_spec hzero
      generalize countrZero word = b at hlt hset
      have hdiv : (w * 64 + b) / 64 = w := by omega
      have hmod : (w * 64 + b) % 64 = b := by omega
      have hhere : s.held (w * 64 + b) = true := by rw [hheld, hdiv, hmod, hset]; simp
      obtain ⟨task, htask⟩ := (h.tasks _).2 (h.bits _ (Or.inr hhere))
      rw [htask]
      have hheld' : ∀ i, (decide (i / 64 = w) &&
          (word &&& ~~~ (1#64 <<< b)).getLsbD (i % 64)) =
            (s.held i && !decide (i = w * 64 + b)) := by
        intro i
        rw [hheld, getLsbD_clearBit hlt, Bool.and_assoc]
        by_cases hword : i / 64 = w
        · congr 3
          exact decide_eq_decide.2 (by omega)
        · simp [hword]
      refine ⟨_, rfl, h.table, h.maps, h.tasks, h.bounded, fun i hi => ?_, ?_⟩
      · refine h.bits i (hi.imp_right fun hh => ?_)
        have hh := (hheld' i).symm.trans hh
        rw [Bool.and_eq_true] at hh
        exact hh.1
      · exact h.tracked.start htask hhere (fun j hj => h.index_unique htask hj) hheld'
  · rw [runningActive, hd] at hrun
    cases hrun

/-- A return of the task keeps the invariant. -/
theorem Valid.finish (h : s.Valid) (hdrain : s.drain = .running wordIndex word before)
    (budget : BitVec 64) : (s.finish wordIndex word before budget).Valid := by
  have hheld : ∀ i, s.held i = (decide (i / 64 = wordIndex) && word.getLsbD (i % 64)) :=
    fun i => by rw [held, hdrain]
  unfold DirtyBitScheduler.finish
  split_ifs with hgo hword
  · exact h.congr ⟨rfl, rfl, rfl, rfl⟩ rfl rfl (funext fun i => (hheld i).symm)
  · exact h.putBack hheld _
  · refine h.congr ⟨rfl, rfl, rfl, rfl⟩ rfl rfl (funext fun i => ?_)
    rw [hheld, not_not.1 hword]
    simp [held, leave]

/-- An exception keeps the invariant. -/
theorem Valid.throw (h : s.Valid) (hdrain : s.drain = .running wordIndex word before) :
    (s.throw wordIndex word).Valid := by
  have hheld : ∀ i, s.held i = (decide (i / 64 = wordIndex) && word.getLsbD (i % 64)) :=
    fun i => by rw [held, hdrain]
  unfold DirtyBitScheduler.throw
  split_ifs with hword
  · exact h.putBack hheld _
  · refine h.congr ⟨rfl, rfl, rfl, rfl⟩ rfl rfl (funext fun i => ?_)
    rw [hheld, not_not.1 hword]
    simp [held, leave]

end Drains

/-! ### Runs -/

/-- **One step keeps the invariant.** -/
theorem valid_step (h : s.Valid) {a : DirtyBitAction} (hstep : s.step a = some s') : s'.Valid := by
  cases a with
  | registerTask task =>
    obtain ⟨r, s₁, hs, h'⟩ := h.registerTask task
    rw [step, hs] at hstep
    cases hstep
    exact h'
  | sealRegistry =>
    cases hstep
    exact h.congr ⟨rfl, rfl, rfl, rfl⟩ rfl rfl rfl
  | schedule task fromTask =>
    cases hstep
    exact h.schedule task fromTask
  | runSome budget | flush =>
    simp only [step, beginDrain] at hstep
    split_ifs at hstep
    · cases hstep
      exact h.congr ⟨rfl, rfl, rfl, rfl⟩ rfl rfl rfl
    · split at hstep
      · rename_i hidle
        cases hstep
        refine h.congr ⟨rfl, rfl, rfl, rfl⟩ rfl rfl (funext fun i => ?_)
        simp only [held, hidle]
      · cases hstep
  | advance =>
    have hs : s.advance = some s' := hstep
    have hdrain : s.drain ≠ .idle := by
      intro hd
      rw [DirtyBitScheduler.advance, hd] at hs
      cases hs
    have hrun : s.runningActive = false := by
      rcases hd : s.drain with _ | _ | _ | _
      case running =>
        rw [DirtyBitScheduler.advance, hd] at hs
        cases hs
      all_goals rw [runningActive, hd]
    obtain ⟨s₁, hs₁, h'⟩ := h.advance hdrain hrun
    rw [hs₁] at hs
    cases hs
    exact h'
  | finish budget =>
    simp only [step] at hstep
    split at hstep
    · rename_i hd
      cases hstep
      exact h.finish hd budget
    · cases hstep
  | throw =>
    simp only [step] at hstep
    split at hstep
    · rename_i hd
      cases hstep
      exact h.throw hd
    · cases hstep

/-- **Every run keeps the invariant.** -/
theorem valid_run (h : s.Valid) {actions : List DirtyBitAction} (hrun : s.run actions = some s') :
    s'.Valid := by
  induction actions generalizing s with
  | nil =>
    cases hrun
    exact h
  | cons a actions ih =>
    rw [run, List.foldlM_cons, Option.bind_eq_bind, Option.bind_eq_some_iff] at hrun
    obtain ⟨s₁, hstep, hrun⟩ := hrun
    exact ih (valid_step h hstep) hrun

/-! ### The pending tasks as lists -/

/-- Tasks of some bits, in the order of their indexes. -/
theorem mem_tasksOf {p : ℕ → Bool} (h : ∀ i, p i = true → i < s.registered) :
    task ∈ ((List.range s.registered).filterMap fun i => if p i then s.tasks i else none) ↔
      ∃ i, s.tasks i = some task ∧ p i = true := by
  rw [List.mem_filterMap]
  constructor
  · rintro ⟨i, -, hi⟩
    split_ifs at hi with hp
    exact ⟨i, hi, hp⟩
  · rintro ⟨i, hi, hp⟩
    exact ⟨i, List.mem_range.2 (h i hp), by rw [if_pos hp, hi]⟩

/-- Every task is among them once. -/
theorem Valid.nodup_tasksOf (h : s.Valid) (p : ℕ → Bool) :
    ((List.range s.registered).filterMap fun i => if p i then s.tasks i else none).Nodup := by
  refine List.Nodup.filterMap (fun i j t hi hj => ?_) List.nodup_range
  rw [Option.mem_def] at hi hj
  split_ifs at hi hj
  exact h.index_unique hj hi

end DirtyBitScheduler

end Tess
