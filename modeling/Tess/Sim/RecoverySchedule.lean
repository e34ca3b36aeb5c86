import Tess.Lib.RoundRobin
import Tess.Sim.PathAgent
import Tess.Storage.ChunkDirectory

/-!
# Scheduling checks of blocked agents

Agents that stay blocked are checked now and then.  Each blocked agent has an entry with the tick of
its next check; the delay grows with the attempts and is spread by a jitter.  A pass collects the
agents that are due, in round robin from a cursor, up to a budget.

* `delayCap`, `jitteredDelay`, `addSaturating` : the delay, in 32-bit and 64-bit arithmetic;
* `collectDue`, `recordAttempt` : the operations;
* `toNat_delayCap`, `toNat_jitteredDelay` : **no overflow**: the delay as a number;
* `recoverySchedule_spec` : **no due agent starves**, over every run of the operations.
-/

namespace Tess

/-! ### Delays -/

/-- Bounds of the recovery checks. -/
structure BlockedAgentRecoveryOptions where
  /-- Upper bound for the first delay. -/
  initialDelayTicks : BitVec 32 := 16
  /-- Upper bound for the later delays. -/
  maxDelayTicks : BitVec 32 := 256
  /-- Budget of one collection pass. -/
  maxProbesPerTick : ℕ := 8
  /-- Salt of the jitter. -/
  jitterSeed : BitVec 64 := 0
  deriving DecidableEq, Repr

/-- Schedule of one agent. -/
structure RecoveryEntry where
  /-- Tick from which the agent is due. -/
  nextTick : BitVec 64 := 0
  /-- Number of blockages observed. -/
  episode : BitVec 64 := 0
  /-- Checks since the blockage was observed. -/
  attempt : BitVec 32 := 0
  /-- Tile at which the blockage was observed. -/
  observedPosition : Coord3 := ⟨0, 0, 0⟩
  /-- The agent is blocked. -/
  active : Bool := false
  deriving DecidableEq, Repr

/-- The doubling loop of `delay_cap`, by the attempts left. -/
def growDelay (maxDelay : BitVec 32) : ℕ → BitVec 32 → BitVec 32
  | 0, cap => cap
  | attempts + 1, cap =>
    if cap < maxDelay then
      growDelay maxDelay attempts (if maxDelay / 2 < cap then maxDelay else cap * 2)
    else cap

/-- `delay_cap`. -/
def delayCap (attempt : BitVec 32) (options : BlockedAgentRecoveryOptions) : BitVec 32 :=
  let cap := if options.initialDelayTicks < options.maxDelayTicks then options.initialDelayTicks
    else options.maxDelayTicks
  if cap = 0 then 0 else growDelay options.maxDelayTicks attempt.toNat cap

/-- The salt of one delay. -/
def jitterKey (index : ℕ) (entry : RecoveryEntry) (options : BlockedAgentRecoveryOptions) :
    BitVec 64 :=
  options.jitterSeed ^^^ ChunkDirectory.mix (BitVec.ofNat 64 index) ^^^
    ChunkDirectory.mix entry.episode ^^^ ChunkDirectory.mix (entry.attempt.setWidth 64)

/-- `jittered_delay`. -/
def jitteredDelay (index : ℕ) (entry : RecoveryEntry) (options : BlockedAgentRecoveryOptions) :
    BitVec 32 :=
  let cap := delayCap entry.attempt options
  if cap = 0 then 0
  else
    let floor := cap / 2 + cap % 2
    let width := cap - floor + 1
    floor +
      (ChunkDirectory.mix (jitterKey index entry options) % width.setWidth 64).setWidth 32

/-- `add_saturating`. -/
def addSaturating (tick : BitVec 64) (delay : BitVec 32) : BitVec 64 :=
  if BitVec.allOnes 64 - delay.setWidth 64 < tick then BitVec.allOnes 64
  else tick + delay.setWidth 64

section Delays

variable {maxDelay cap : BitVec 32} {options : BlockedAgentRecoveryOptions} {index : ℕ}
  {entry : RecoveryEntry}

theorem toNat_half (x : BitVec 32) : (x / 2).toNat = x.toNat / 2 := by
  rw [BitVec.toNat_udiv]
  rfl

theorem toNat_parity (x : BitVec 32) : (x % 2).toNat = x.toNat % 2 := by
  rw [BitVec.toNat_umod]
  rfl

/-- The loop doubles up to the bound, without overflow. -/
theorem toNat_growDelay (attempts : ℕ) :
    ∀ {cap : BitVec 32}, 0 < cap.toNat → cap.toNat ≤ maxDelay.toNat →
      (growDelay maxDelay attempts cap).toNat = min (cap.toNat * 2 ^ attempts) maxDelay.toNat := by
  induction attempts with
  | zero =>
    intro cap _ hle
    rw [growDelay, pow_zero, Nat.mul_one, Nat.min_eq_left hle]
  | succ attempts ih =>
    intro cap hpos hle
    have hpow : 1 ≤ 2 ^ attempts := Nat.one_le_two_pow
    rw [growDelay]
    by_cases hlt : cap < maxDelay
    swap
    · -- the bound is reached
      have heq : cap.toNat = maxDelay.toNat := by
        have : ¬ cap.toNat < maxDelay.toNat := hlt
        omega
      have hge : maxDelay.toNat ≤ maxDelay.toNat * 2 ^ (attempts + 1) :=
        Nat.le_mul_of_pos_right _ (by positivity)
      rw [if_neg hlt, heq, Nat.min_eq_right hge]
    rw [if_pos hlt]
    by_cases hhalf : maxDelay / 2 < cap
    · have hnat : maxDelay.toNat / 2 < cap.toNat := by
        simpa only [BitVec.lt_def, toNat_half] using hhalf
      have hbig : maxDelay.toNat ≤ cap.toNat * 2 ^ (attempts + 1) := by
        calc maxDelay.toNat ≤ cap.toNat * 2 := by omega
          _ ≤ cap.toNat * 2 * 2 ^ attempts := Nat.le_mul_of_pos_right _ hpow
          _ = cap.toNat * 2 ^ (attempts + 1) := by ring
      rw [if_pos hhalf, ih (by omega) le_rfl, Nat.min_eq_right hbig, Nat.min_eq_right]
      exact Nat.le_mul_of_pos_right _ (by positivity)
    · have hnat : cap.toNat ≤ maxDelay.toNat / 2 := by
        simpa only [BitVec.lt_def, toNat_half, Nat.not_lt] using hhalf
      have hmax := maxDelay.isLt
      have hdouble : (cap * 2).toNat = cap.toNat * 2 := by
        rw [BitVec.toNat_mul]
        exact Nat.mod_eq_of_lt (by change cap.toNat * 2 < 2 ^ 32; omega)
      rw [if_neg hhalf, ih (by omega) (by omega), hdouble, pow_succ, Nat.mul_assoc,
        Nat.mul_comm 2]

/-- **The cap of a delay** doubles with each attempt up to the largest delay. -/
theorem toNat_delayCap (attempt : BitVec 32) (options : BlockedAgentRecoveryOptions) :
    (delayCap attempt options).toNat =
      min (options.initialDelayTicks.toNat * 2 ^ attempt.toNat) options.maxDelayTicks.toNat := by
  have hstart : (if options.initialDelayTicks < options.maxDelayTicks
      then options.initialDelayTicks else options.maxDelayTicks).toNat =
      min options.initialDelayTicks.toNat options.maxDelayTicks.toNat := by
    split_ifs with hlt
    · have : options.initialDelayTicks.toNat < options.maxDelayTicks.toNat := hlt
      omega
    · have : ¬ options.initialDelayTicks.toNat < options.maxDelayTicks.toNat := hlt
      omega
  have hpow : 1 ≤ 2 ^ attempt.toNat := Nat.one_le_two_pow
  rw [delayCap]
  set cap := if options.initialDelayTicks < options.maxDelayTicks
    then options.initialDelayTicks else options.maxDelayTicks with hcap
  by_cases hzero : cap = 0
  · have hnat : min options.initialDelayTicks.toNat options.maxDelayTicks.toNat = 0 := by
      rw [← hstart, hzero]
      rfl
    rw [if_pos hzero]
    rcases Nat.min_eq_zero_iff.1 hnat with h | h
    · rw [h, Nat.zero_mul, Nat.zero_min]
      rfl
    · rw [h, Nat.min_zero]
      rfl
  · have hpos : 0 < cap.toNat := Nat.pos_of_ne_zero fun h => hzero (BitVec.eq_of_toNat_eq h)
    rw [if_neg hzero, toNat_growDelay _ hpos (by omega), hstart]
    by_cases hle : options.initialDelayTicks.toNat ≤ options.maxDelayTicks.toNat
    · rw [Nat.min_eq_left hle]
    · have hmax : options.maxDelayTicks.toNat ≤ options.maxDelayTicks.toNat * 2 ^ attempt.toNat :=
        Nat.le_mul_of_pos_right _ hpow
      have hinit : options.maxDelayTicks.toNat ≤
          options.initialDelayTicks.toNat * 2 ^ attempt.toNat := by nlinarith
      rw [Nat.min_eq_right (Nat.le_of_lt (Nat.lt_of_not_le hle)), Nat.min_eq_right hmax,
        Nat.min_eq_right hinit]

/-- The cap does not fall with the attempts. -/
theorem delayCap_mono {attempt attempt' : BitVec 32} (h : attempt ≤ attempt') :
    delayCap attempt options ≤ delayCap attempt' options := by
  rw [BitVec.le_def, toNat_delayCap, toNat_delayCap]
  exact min_le_min_right _ (Nat.mul_le_mul_left _ (Nat.pow_le_pow_right (by decide) h))

theorem delayCap_le (attempt : BitVec 32) (options : BlockedAgentRecoveryOptions) :
    delayCap attempt options ≤ options.maxDelayTicks := by
  rw [BitVec.le_def, toNat_delayCap]
  exact Nat.min_le_right _ _

/-- **The jittered delay**, as a number: half of the cap, rounded up, and what the mixed key adds. -/
theorem toNat_jitteredDelay (index : ℕ) (entry : RecoveryEntry)
    (options : BlockedAgentRecoveryOptions) :
    (jitteredDelay index entry options).toNat =
      ((delayCap entry.attempt options).toNat + 1) / 2 +
        (ChunkDirectory.mix (jitterKey index entry options)).toNat %
          ((delayCap entry.attempt options).toNat / 2 + 1) := by
  rw [jitteredDelay]
  set cap := delayCap entry.attempt options with hcap
  by_cases hzero : cap = 0
  · rw [if_pos hzero, hzero]
    simp [Nat.mod_one]
  · have hlt := cap.isLt
    have hfloor : (cap / 2 + cap % 2).toNat = (cap.toNat + 1) / 2 := by
      rw [BitVec.toNat_add, toNat_half, toNat_parity]
      omega
    have hwidth : (cap - (cap / 2 + cap % 2) + 1).toNat = cap.toNat / 2 + 1 := by
      have hone : (1 : BitVec 32).toNat = 1 := rfl
      rw [BitVec.toNat_add, BitVec.toNat_sub, hfloor, hone]
      omega
    have hwide : (cap.toNat / 2 + 1) % 2 ^ 64 = cap.toNat / 2 + 1 := Nat.mod_eq_of_lt (by omega)
    rw [if_neg hzero]
    have hmod := Nat.mod_lt (ChunkDirectory.mix (jitterKey index entry options)).toNat
      (by omega : 0 < cap.toNat / 2 + 1)
    rw [BitVec.toNat_add, hfloor, BitVec.toNat_setWidth, BitVec.toNat_umod, BitVec.toNat_setWidth,
      hwidth, hwide]
    omega

/-- **A delay** lies between half of its cap, rounded up, and the cap. -/
theorem jitteredDelay_bounds (index : ℕ) (entry : RecoveryEntry)
    (options : BlockedAgentRecoveryOptions) :
    ((delayCap entry.attempt options).toNat + 1) / 2 ≤ (jitteredDelay index entry options).toNat ∧
      jitteredDelay index entry options ≤ delayCap entry.attempt options := by
  have hmod := Nat.mod_lt (ChunkDirectory.mix (jitterKey index entry options)).toNat
    (by omega : 0 < (delayCap entry.attempt options).toNat / 2 + 1)
  rw [BitVec.le_def, toNat_jitteredDelay]
  omega

/-- The tick after a delay, held at the last tick. -/
theorem toNat_addSaturating (tick : BitVec 64) (delay : BitVec 32) :
    (addSaturating tick delay).toNat = min (tick.toNat + delay.toNat) (2 ^ 64 - 1) := by
  have ht := tick.isLt
  have hd := delay.isLt
  have hwide : (delay.setWidth 64).toNat = delay.toNat := by
    rw [BitVec.toNat_setWidth]
    omega
  have hroom : (BitVec.allOnes 64 - delay.setWidth 64).toNat = 2 ^ 64 - 1 - delay.toNat := by
    rw [BitVec.toNat_sub, BitVec.toNat_allOnes, hwide]
    omega
  rw [addSaturating]
  split_ifs with hlt
  · rw [BitVec.lt_def, hroom] at hlt
    rw [BitVec.toNat_allOnes]
    omega
  · rw [BitVec.lt_def, hroom] at hlt
    rw [BitVec.toNat_add, hwide]
    omega

end Delays

/-! ### The schedule -/

/-- Counts of one collection pass. -/
structure BlockedAgentRecoveryStats where
  /-- Blocked agents with a goal. -/
  blocked : ℕ := 0
  /-- Agents that are due. -/
  due : ℕ := 0
  /-- Due agents selected. -/
  selected : ℕ := 0
  /-- Due agents left for a later pass. -/
  deferred : ℕ := 0
  deriving DecidableEq, Repr

/-- Entries paired with the span of agents, the last selection, and the cursor of the scan. -/
structure BlockedAgentRecoverySchedule where
  /-- Entries by agent index. -/
  entries : List RecoveryEntry := []
  /-- Indices selected by the last pass. -/
  dueIndices : List ℕ := []
  /-- Where the next pass starts. -/
  scanCursor : ℕ := 0
  deriving DecidableEq, Repr

/-- The agent is blocked on its way to a goal. -/
def isBlockedAgent (agent : PathAgentState) : Bool := agent.hasGoal && agent.phase == .blocked

/-- What a pass does to the entry of an agent before the scan. -/
def observeAgent (tick : BitVec 64) (options : BlockedAgentRecoveryOptions) (index : ℕ)
    (agent : PathAgentState) (entry : RecoveryEntry) : RecoveryEntry :=
  if !isBlockedAgent agent then { entry with active := false, attempt := 0, nextTick := 0 }
  else if !entry.active || entry.observedPosition != agent.position then
    let entry := { entry with
      active := true
      attempt := 0
      episode := entry.episode + 1
      observedPosition := agent.position }
    { entry with nextTick := addSaturating tick (jitteredDelay index entry options) }
  else entry

/-- The entries after the observation: one for each agent, those beyond the span inactive. -/
def observeAgents (tick : BitVec 64) (options : BlockedAgentRecoveryOptions)
    (agents : List PathAgentState) (entries : List RecoveryEntry) : List RecoveryEntry :=
  (entries ++ List.replicate (agents.length - entries.length) ({} : RecoveryEntry)).mapIdx
    fun index entry =>
      match agents[index]? with
      | some agent => observeAgent tick options index agent entry
      | none => { entry with active := false }

/-- The agent of the entry is due. -/
def isDue (entries : List RecoveryEntry) (tick : BitVec 64) (index : ℕ) : Bool :=
  match entries[index]? with
  | some entry => entry.active && !(decide (tick < entry.nextTick))
  | none => false

/-- Count and selection of a scan. -/
structure DueScan where
  /-- Agents that are due. -/
  due : ℕ := 0
  /-- Selected indices. -/
  selected : List ℕ := []
  deriving DecidableEq, Repr

/-- One step of the scan. -/
def DueScan.step (due : ℕ → Bool) (maxProbes : ℕ) (s : DueScan) (index : ℕ) : DueScan :=
  if due index then
    { due := s.due + 1
      selected := if s.selected.length < maxProbes then s.selected ++ [index] else s.selected }
  else s

/-- The scan of `n` entries from the cursor, once around. -/
def scanDue (n maxProbes cursor : ℕ) (due : ℕ → Bool) : DueScan :=
  (List.range n).foldl (fun s offset => s.step due maxProbes ((cursor + offset) % n)) {}

namespace BlockedAgentRecoverySchedule

/-- `collect_due`. -/
def collectDue (s : BlockedAgentRecoverySchedule) (agents : List PathAgentState)
    (tick : BitVec 64) (options : BlockedAgentRecoveryOptions) :
    BlockedAgentRecoveryStats × BlockedAgentRecoverySchedule :=
  let entries := observeAgents tick options agents s.entries
  let blocked := agents.countP isBlockedAgent
  if agents.isEmpty then
    ({ blocked := blocked }, { s with entries := entries, dueIndices := [] })
  else
    let cursor := s.scanCursor % agents.length
    let scan := scanDue agents.length options.maxProbesPerTick cursor (isDue entries tick)
    let selected := scan.selected.length
    ({ blocked := blocked, due := scan.due, selected := selected, deferred := scan.due - selected },
      { entries := entries
        dueIndices := scan.selected
        scanCursor :=
          match scan.selected.getLast? with
          | some last => (last + 1) % agents.length
          | none => cursor })

/-- One more attempt; the count stays at its largest value. -/
def countAttempt (entry : RecoveryEntry) : RecoveryEntry :=
  if entry.attempt ≠ BitVec.allOnes 32 then { entry with attempt := entry.attempt + 1 } else entry

/-- `record_attempt`. -/
def recordAttempt (s : BlockedAgentRecoverySchedule) (index : ℕ) (tick : BitVec 64)
    (options : BlockedAgentRecoveryOptions) : BlockedAgentRecoverySchedule :=
  match s.entries[index]? with
  | none => s
  | some entry =>
    if !entry.active then s
    else
      let entry := countAttempt entry
      { s with
        entries := s.entries.set index
          { entry with nextTick := addSaturating tick (jitteredDelay index entry options) } }

end BlockedAgentRecoverySchedule

/-! ### One pass -/

/-- A scan over a list of indices. -/
theorem foldl_step (due : ℕ → Bool) (maxProbes : ℕ) (indices : List ℕ) :
    ∀ s : DueScan, s.selected.length ≤ maxProbes →
      indices.foldl (DueScan.step due maxProbes) s =
        ⟨s.due + (indices.filter due).length,
          s.selected ++ (indices.filter due).take (maxProbes - s.selected.length)⟩ := by
  induction indices with
  | nil => simp
  | cons index indices ih =>
    intro s hs
    rw [List.foldl_cons, DueScan.step]
    by_cases hdue : due index = true
    swap
    · rw [if_neg hdue, ih s hs, List.filter_cons_of_neg hdue]
    rw [if_pos hdue, List.filter_cons_of_pos hdue, List.length_cons]
    by_cases hroom : s.selected.length < maxProbes
    · rw [if_pos hroom, ih _ (by rw [List.length_append]; exact hroom)]
      obtain ⟨room, hroom'⟩ := Nat.exists_eq_add_of_lt hroom
      have hleft : maxProbes - s.selected.length = room + 1 := by omega
      have hleft' : maxProbes - (s.selected.length + 1) = room := by omega
      simp only [List.length_append, List.length_singleton, hleft, hleft', List.take_succ_cons,
        List.append_assoc, List.singleton_append, DueScan.mk.injEq, and_true]
      omega
    · have hfull : maxProbes - s.selected.length = 0 := by omega
      rw [if_neg hroom, ih ⟨s.due + 1, s.selected⟩ hs]
      simp only [hfull, List.take_zero, List.append_nil, DueScan.mk.injEq, and_true]
      omega

/-- **The scan is a round-robin pass.** -/
theorem scanDue_eq (n maxProbes cursor : ℕ) (due : ℕ → Bool) :
    scanDue n maxProbes cursor due =
      ⟨((RoundRobin.order n cursor).filter due).length,
        RoundRobin.select n maxProbes cursor due⟩ := by
  have hfold : scanDue n maxProbes cursor due =
      (RoundRobin.order n cursor).foldl (DueScan.step due maxProbes) {} := by
    rw [scanDue, RoundRobin.order, List.foldl_map]
  rw [hfold, foldl_step due maxProbes _ _ (Nat.zero_le _)]
  simp [RoundRobin.select]

section Pass

variable {s : BlockedAgentRecoverySchedule} {agents : List PathAgentState} {tick : BitVec 64}
  {options : BlockedAgentRecoveryOptions} {index n : ℕ}

theorem select_mod_cursor {m cursor : ℕ} {due : ℕ → Bool} :
    RoundRobin.select n m (cursor % n) due = RoundRobin.select n m cursor due := by
  simp only [RoundRobin.select, RoundRobin.order, Nat.mod_add_mod]

/-- **One collection pass** over a span that is not empty. -/
theorem collectDue_spec (hn : agents.length = n) (hpos : 0 < n) :
    let after := (s.collectDue agents tick options).2
    after.entries = observeAgents tick options agents s.entries ∧
    after.dueIndices =
      RoundRobin.select n options.maxProbesPerTick s.scanCursor (isDue after.entries tick) ∧
    after.scanCursor = RoundRobin.next n s.scanCursor after.dueIndices := by
  have hne : agents.isEmpty = false := by
    cases agents
    · simp only [List.length_nil] at hn
      omega
    · rfl
  subst hn
  simp only [BlockedAgentRecoverySchedule.collectDue, hne, Bool.false_eq_true, if_false,
    scanDue_eq, select_mod_cursor, true_and]
  rw [RoundRobin.next]
  cases List.getLast? _ <;> rfl

/-- Only indices of the span are due after a pass. -/
theorem lt_of_isDue (h : isDue (observeAgents tick options agents s.entries) tick index = true) :
    index < agents.length := by
  by_contra hge
  have hnone : agents[index]? = none := List.getElem?_eq_none (by omega)
  rw [isDue, observeAgents, List.getElem?_mapIdx, hnone] at h
  cases hget : (s.entries ++ List.replicate (agents.length - s.entries.length)
    ({} : RecoveryEntry))[index]? <;> rw [hget] at h <;> simp at h

end Pass

/-! ### Runs -/

/-- An operation of the schedule's owner. -/
inductive RecoveryCall
  /-- `collect_due`. -/
  | collect (agents : List PathAgentState) (tick : BitVec 64)
      (options : BlockedAgentRecoveryOptions)
  /-- `record_attempt`. -/
  | record (index : ℕ) (tick : BitVec 64) (options : BlockedAgentRecoveryOptions)

/-- The schedule after an operation. -/
def RecoveryCall.exec (s : BlockedAgentRecoverySchedule) :
    RecoveryCall → BlockedAgentRecoverySchedule
  | .collect agents tick options => (s.collectDue agents tick options).2
  | .record index tick options => s.recordAttempt index tick options

/-- A collection pass of a run: its tick, and the schedule that it leaves. -/
structure RecoveryPass where
  /-- Tick of the pass. -/
  tick : BitVec 64
  /-- The schedule afterwards. -/
  after : BlockedAgentRecoverySchedule

namespace RecoveryPass

/-- The index is due in the pass. -/
def Due (p : RecoveryPass) (index : ℕ) : Prop := isDue p.after.entries p.tick index = true

instance (p : RecoveryPass) (index : ℕ) : Decidable (p.Due index) :=
  inferInstanceAs (Decidable (_ = true))

/-- The pass selects the index. -/
def Selects (p : RecoveryPass) (index : ℕ) : Prop := index ∈ p.after.dueIndices

end RecoveryPass

/-- The collection passes of a run, in order. -/
def recoveryPasses : BlockedAgentRecoverySchedule → List RecoveryCall → List RecoveryPass
  | _, [] => []
  | s, .collect agents tick options :: calls =>
    let after := (s.collectDue agents tick options).2
    ⟨tick, after⟩ :: recoveryPasses after calls
  | s, .record index tick options :: calls =>
    recoveryPasses (s.recordAttempt index tick options) calls

/-- The operation keeps to `n` agents and a budget of `m` probes. -/
def RecoveryCall.Fits (n m : ℕ) : RecoveryCall → Prop
  | .collect agents _ options => agents.length = n ∧ options.maxProbesPerTick = m
  | .record .. => True

/-- The entry is due again after a delay between half of its cap and the cap. -/
def DelayedFrom (tick : BitVec 64) (options : BlockedAgentRecoveryOptions)
    (entry : RecoveryEntry) : Prop :=
  ∃ delay : ℕ, ((delayCap entry.attempt options).toNat + 1) / 2 ≤ delay ∧
    delay ≤ (delayCap entry.attempt options).toNat ∧
    entry.nextTick.toNat = min (tick.toNat + delay) (2 ^ 64 - 1)

/-- The operation schedules the entry from its own tick, under its own options. -/
def RecoveryCall.Delays (entry : RecoveryEntry) : RecoveryCall → Prop
  | .collect _ tick options => DelayedFrom tick options entry
  | .record _ tick options => DelayedFrom tick options entry

section Runs

variable {s : BlockedAgentRecoverySchedule} {calls : List RecoveryCall} {n m index : ℕ}
  {tick : BitVec 64} {options : BlockedAgentRecoveryOptions} {entry : RecoveryEntry}

@[simp] theorem scanCursor_recordAttempt :
    (s.recordAttempt index tick options).scanCursor = s.scanCursor := by
  rw [BlockedAgentRecoverySchedule.recordAttempt]
  cases s.entries[index]? with
  | none => rfl
  | some entry =>
    simp only
    split_ifs <;> rfl

/-- **The selections of a run** are those of a round robin with the budget. -/
theorem selected_eq_serve (hn : 0 < n) (calls : List RecoveryCall) :
    ∀ {s : BlockedAgentRecoverySchedule}, (∀ c ∈ calls, c.Fits n m) →
      (recoveryPasses s calls).map (·.after.dueIndices) =
        RoundRobin.serve n m s.scanCursor
          ((recoveryPasses s calls).map fun p => isDue p.after.entries p.tick) := by
  induction calls with
  | nil => exact fun _ => rfl
  | cons c calls ih =>
    intro s hcalls
    have hrest := fun c hc => hcalls c (List.mem_cons_of_mem _ hc)
    cases c with
    | collect agents tick options =>
      obtain ⟨hlen, hbudget⟩ := hcalls _ List.mem_cons_self
      obtain ⟨-, hsel, hcursor⟩ := @collectDue_spec s agents tick options n hlen hn
      rw [recoveryPasses, List.map_cons, List.map_cons, RoundRobin.serve, ih hrest, hcursor, hsel,
        hbudget]
    | record index tick options =>
      rw [recoveryPasses, ih hrest, scanCursor_recordAttempt]

/-- Only indices of the span are due in a pass. -/
theorem lt_of_due (calls : List RecoveryCall) :
    ∀ {s : BlockedAgentRecoverySchedule}, (∀ c ∈ calls, c.Fits n m) → 0 < n →
      ∀ p ∈ recoveryPasses s calls, p.Due index → index < n := by
  induction calls with
  | nil => exact fun _ _ p hp => by cases hp
  | cons c calls ih =>
    intro s hcalls hn p hp hdue
    have hrest := fun c hc => hcalls c (List.mem_cons_of_mem _ hc)
    cases c with
    | collect agents tick options =>
      obtain ⟨hlen, -⟩ := hcalls _ List.mem_cons_self
      rw [recoveryPasses, List.mem_cons] at hp
      rcases hp with rfl | hp
      · rw [RecoveryPass.Due, (@collectDue_spec s agents tick options n hlen hn).1] at hdue
        exact hlen ▸ lt_of_isDue hdue
      · exact ih hrest hn p hp hdue
    | record index' tick options => exact ih hrest hn p hp hdue

/-- **No due agent starves**: in passes that follow each other, one for each budget of agents. -/
theorem selected_of_due (hn : 0 < n) (hm : 0 < m) (hcalls : ∀ c ∈ calls, c.Fits n m)
    {window : List RecoveryPass} (hw : window <:+: recoveryPasses s calls)
    (hlen : (n + m - 1) / m ≤ window.length) (hdue : ∀ p ∈ window, p.Due index) :
    ∃ p ∈ window, p.Selects index := by
  obtain ⟨before, after, hsplit⟩ := hw
  have hserve := selected_eq_serve (s := s) hn calls hcalls
  rw [← hsplit, List.map_append, List.map_append, List.map_append, List.map_append] at hserve
  -- the cursors at both ends of the window
  obtain ⟨c₁, h₁⟩ := @RoundRobin.serve_append n m
    (before.map (fun p => isDue p.after.entries p.tick) ++
      window.map fun p => isDue p.after.entries p.tick)
    (after.map fun p => isDue p.after.entries p.tick) s.scanCursor
  obtain ⟨c₂, h₂⟩ := @RoundRobin.serve_append n m
    (before.map fun p => isDue p.after.entries p.tick)
    (window.map fun p => isDue p.after.entries p.tick) s.scanCursor
  rw [h₁, h₂] at hserve
  have hwindow : window.map (·.after.dueIndices) =
      RoundRobin.serve n m c₂ (window.map fun p => isDue p.after.entries p.tick) := by
    have hleft := (List.append_inj hserve (by simp [RoundRobin.length_serve])).1
    exact (List.append_inj hleft (by simp [RoundRobin.length_serve])).2
  have hi : index < n := by
    have hpos : 0 < (n + m - 1) / m := Nat.div_pos (by omega) hm
    obtain ⟨p, hp⟩ := List.exists_mem_of_length_pos (hpos.trans_le hlen)
    refine lt_of_due (s := s) calls hcalls hn p ?_ (hdue p hp)
    rw [← hsplit]
    simp [hp]
  obtain ⟨selected, hmem, hin⟩ := @RoundRobin.mem_serve_of_rounds n m c₂ index
    (window.map fun p => isDue p.after.entries p.tick) hm hi
    (fun due hd => by
      obtain ⟨p, hp, rfl⟩ := List.mem_map.1 hd
      exact hdue p hp)
    (by rwa [List.length_map])
  rw [← hwindow, List.mem_map] at hmem
  obtain ⟨p, hp, rfl⟩ := hmem
  exact ⟨p, hp, hin⟩

/-- Every pass selects different due indices, within its budget. -/
theorem selection_fits (hn : 0 < n) (calls : List RecoveryCall) :
    ∀ {s : BlockedAgentRecoverySchedule}, (∀ c ∈ calls, c.Fits n m) →
      ∀ p ∈ recoveryPasses s calls, p.after.dueIndices.length ≤ m ∧ p.after.dueIndices.Nodup ∧
        ∀ index, p.Selects index → p.Due index := by
  induction calls with
  | nil => exact fun _ p hp => by cases hp
  | cons c calls ih =>
    intro s hcalls p hp
    have hrest := fun c hc => hcalls c (List.mem_cons_of_mem _ hc)
    cases c with
    | collect agents tick options =>
      obtain ⟨hlen, hbudget⟩ := hcalls _ List.mem_cons_self
      rw [recoveryPasses, List.mem_cons] at hp
      rcases hp with rfl | hp
      · obtain ⟨-, hsel, -⟩ := @collectDue_spec s agents tick options n hlen hn
        simp only [RecoveryPass.Selects, RecoveryPass.Due]
        rw [hbudget] at hsel
        rw [hsel]
        exact ⟨RoundRobin.length_select_le, RoundRobin.nodup_select,
          fun index hin => (RoundRobin.due_of_mem_select hin).2⟩
      · exact ih hrest p hp
    | record index tick options => exact ih hrest p hp

theorem delayedFrom_addSaturating (index : ℕ) (entry : RecoveryEntry) (tick : BitVec 64)
    (options : BlockedAgentRecoveryOptions) :
    DelayedFrom tick options
      { entry with nextTick := addSaturating tick (jitteredDelay index entry options) } := by
  obtain ⟨hlow, hhigh⟩ := jitteredDelay_bounds index entry options
  exact ⟨_, hlow, hhigh, toNat_addSaturating _ _⟩

/-- **Every delay that is scheduled** lies within its bounds: an operation leaves an active entry as
it was, or schedules it from its tick. -/
theorem delays_of_exec {c : RecoveryCall} (hget : (c.exec s).entries[index]? = some entry)
    (hactive : entry.active = true) : s.entries[index]? = some entry ∨ c.Delays entry := by
  cases c with
  | collect agents tick options =>
    have hentries : (RecoveryCall.exec s (.collect agents tick options)).entries =
        observeAgents tick options agents s.entries := by
      simp only [RecoveryCall.exec, BlockedAgentRecoverySchedule.collectDue]
      split_ifs <;> rfl
    rw [hentries, observeAgents, List.getElem?_mapIdx] at hget
    obtain ⟨old, hold, heq⟩ := Option.map_eq_some_iff.1 hget
    cases hagent : agents[index]? with
    | none =>
      simp only [hagent] at heq
      rw [← heq] at hactive
      cases hactive
    | some agent =>
      simp only [hagent, observeAgent] at heq
      split_ifs at heq with hblocked hfresh
      · rw [← heq] at hactive
        cases hactive
      · exact Or.inr (heq ▸ delayedFrom_addSaturating _ _ _ _)
      · -- an entry that the resize added is not active
        subst heq
        by_cases hlt : index < s.entries.length
        · rw [List.getElem?_append_left hlt] at hold
          exact Or.inl hold
        · rw [List.getElem?_append_right (by omega), List.getElem?_replicate] at hold
          split_ifs at hold
          cases hold
          cases hactive
  | record agent tick options =>
    rw [RecoveryCall.exec, BlockedAgentRecoverySchedule.recordAttempt] at hget
    cases hold : s.entries[agent]? with
    | none =>
      simp only [hold] at hget
      exact Or.inl hget
    | some old =>
      simp only [hold] at hget
      split_ifs at hget with hidle
      · exact Or.inl hget
      · simp only [List.getElem?_set] at hget
        split_ifs at hget with hsame hlt
        · cases hget
          exact Or.inr (delayedFrom_addSaturating _ _ _ _)
        · exact Or.inl hget

/-- **The recovery schedule**: in any run over `n` agents with a budget of `m`, an index that is due
in `n / m` successive passes, rounded up, is selected in one of them; a pass selects at most `m`
different due indices; a scheduled delay lies between half of its cap and the cap; and the cap
doubles without overflow, never falls with the attempts and never exceeds the largest delay. -/
theorem recoverySchedule_spec (hn : 1 ≤ n) (hm : 1 ≤ m) (hcalls : ∀ c ∈ calls, c.Fits n m) :
    (∀ window index, window <:+: recoveryPasses s calls → window.length = (n + m - 1) / m →
      (∀ p ∈ window, p.Due index) → ∃ p ∈ window, p.Selects index) ∧
    (∀ p ∈ recoveryPasses s calls, p.after.dueIndices.length ≤ m ∧ p.after.dueIndices.Nodup ∧
      ∀ index, p.Selects index → p.Due index) ∧
    (∀ (t : BlockedAgentRecoverySchedule) (c : RecoveryCall) (index : ℕ) (entry : RecoveryEntry),
      (c.exec t).entries[index]? = some entry → entry.active = true →
        t.entries[index]? = some entry ∨ c.Delays entry) ∧
    (∀ (attempt : BitVec 32) (options : BlockedAgentRecoveryOptions),
      (delayCap attempt options).toNat =
        min (options.initialDelayTicks.toNat * 2 ^ attempt.toNat) options.maxDelayTicks.toNat ∧
      delayCap attempt options ≤ options.maxDelayTicks ∧
      ∀ attempt', attempt ≤ attempt' → delayCap attempt options ≤ delayCap attempt' options) ∧
    ∀ (index : ℕ) (entry : RecoveryEntry) (options : BlockedAgentRecoveryOptions),
      (jitteredDelay index entry options).toNat =
        ((delayCap entry.attempt options).toNat + 1) / 2 +
          (ChunkDirectory.mix (jitterKey index entry options)).toNat %
            ((delayCap entry.attempt options).toNat / 2 + 1) := by
  refine ⟨?_, selection_fits hn calls hcalls, ?_, ?_, toNat_jitteredDelay⟩
  · intro window index hw hlen hdue
    exact selected_of_due hn hm hcalls hw hlen.ge hdue
  · intro t c index entry hget hactive
    exact delays_of_exec hget hactive
  · intro attempt options
    exact ⟨toNat_delayCap attempt options, delayCap_le attempt options,
      fun attempt' h => delayCap_mono h⟩

/-- A collection over two blocked agents with a budget of one and no delay. -/
def collectTwo : RecoveryCall :=
  .collect [{ hasGoal := true, phase := .blocked }, { hasGoal := true, phase := .blocked }] 7
    { initialDelayTicks := 0, maxProbesPerTick := 1 }

/-- Two passes with a budget of one reach the second of two agents. -/
theorem recoverySchedule_spec_two :
    ∃ p ∈ recoveryPasses {} [collectTwo, .record 0 7 {}, collectTwo], p.Selects 1 :=
  (recoverySchedule_spec (n := 2) (m := 1) le_add_self le_rfl
    (by simp [RecoveryCall.Fits, collectTwo])).1 _ 1 List.infix_rfl rfl (by decide)

end Runs

end Tess
