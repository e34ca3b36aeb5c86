import Tess.Lib.Cycle
import Tess.Sim.PathAgent

/-!
# Joint movement

The joint pass admits the moves of all agents together, round by round: it validates every next
route tile, lets free destinations go to the first agent that wants them, drains the queues
behind moves that vacate their tile, rotates the cycles that are left, and applies what it
admitted as a set.

* `jointAdmission` : the admission of one round, with the loops of the source;
* `applyJointMoves`, `jointRound`, `advanceWithJointMovement` : its application and the rounds
  of a call;
* `findOccupant_eq_some`, `jointClaim_spec` : the sorted buffers as sets;
* `HoldsTiles` : agents on distinct tiles that are marked occupied;
* `StepFree`, `StepHeld` : the verdicts on a step that admission builds on.

The agents are numbered by `Fin n`, as the 32-bit agent indices of the round buffers number
them.
-/

namespace Tess

open Graphs

/-- Whether two mutually blocked agents may exchange tiles. -/
inductive SwapPolicy
  | forbid
  | permit
  | permitOnDeadlock
  deriving DecidableEq, Repr

/-- Cycle admission of a joint pass. -/
structure JointMoveOptions where
  /-- Policy for cycles of two agents. -/
  swapPolicy : SwapPolicy := .forbid
  /-- Blocked ticks both agents need before an exchange on deadlock. -/
  deadlockTicks : ℕ := 4
  deriving DecidableEq, Repr

/-- Outcomes of joint admission. -/
structure JointMoveStats where
  /-- Counts of the movement passes. -/
  frame : PathAgentFrameStats := {}
  /-- Moves admitted because their destination was vacated. -/
  chained : ℕ := 0
  /-- Cycles of three and more agents that rotated. -/
  rotations : ℕ := 0
  /-- Exchanges made. -/
  swaps : ℕ := 0
  /-- Exchanges refused. -/
  swapsDenied : ℕ := 0
  deriving DecidableEq, Repr

/-- Round-local classification of an agent. -/
inductive JointState
  | inactive
  | pending
  | admitted
  | failed
  deriving DecidableEq, Repr

/-- The buffers of one round. -/
structure JointScratch (n : ℕ) where
  /-- Tile keys of the agents with the agents that hold them, sorted by key. -/
  occupants : List (ℕ × Fin n) := []
  /-- Claimed tile keys, sorted. -/
  claimed : List ℕ := []
  /-- Tile an agent wants to enter. -/
  desired : Fin n → Coord3 := fun _ => ⟨0, 0, 0⟩
  /-- Classification of an agent. -/
  state : Fin n → JointState := fun _ => .inactive
  /-- Failure recorded for an agent. -/
  failure : Fin n → MovementStatus := fun _ => .moved
  /-- Agents met by a cycle walk. -/
  walked : Fin n → Bool := fun _ => false
  /-- Outcomes so far. -/
  stats : JointMoveStats := {}

/-- What a movement pass works on: the world, the agents, their accounting, the outcomes and the
moves reported to the observer. -/
structure MovementPass (S : Shape) (Tag : Type*) (n : ℕ) where
  /-- World of the agents. -/
  world : MovementWorld S Tag
  /-- The agents. -/
  agents : Fin n → PathAgentState
  /-- Attached accountant. -/
  accounting : Option FlowAccounting := none
  /-- Outcomes so far. -/
  stats : JointMoveStats := {}
  /-- Committed moves with the tiles they leave and enter. -/
  committed : List (Fin n × Coord3 × Coord3) := []

/-! ### The position index and the claims -/

/-- One insertion of the sort by key; equal keys keep their order. -/
def insertOccupant {n : ℕ} (entry : ℕ × Fin n) : List (ℕ × Fin n) → List (ℕ × Fin n)
  | [] => [entry]
  | head :: tail =>
    if entry.1 < head.1 then entry :: head :: tail else head :: insertOccupant entry tail

/-- The position index over every agent, movers or not. -/
def occupantIndex (S : Shape) {n : ℕ} (agents : Fin n → PathAgentState) : List (ℕ × Fin n) :=
  (List.finRange n).foldl
    (fun index i => insertOccupant (S.tileKey (agents i).position, i) index) []

/-- `joint_claim` on the sorted claims: none when the key is claimed already. -/
def jointClaim (key : ℕ) : List ℕ → Option (List ℕ)
  | [] => some [key]
  | head :: tail =>
    if head < key then (jointClaim key tail).map (head :: ·)
    else if head = key then none
    else some (key :: head :: tail)

/-- `joint_find_occupant`: the agent at the first key that is not less. -/
def jointFindOccupant {n : ℕ} (occupants : List (ℕ × Fin n)) (key : ℕ) : Option (Fin n) :=
  match occupants.find? fun entry => key ≤ entry.1 with
  | none => none
  | some entry => if entry.1 = key then some entry.2 else none

namespace JointScratch

variable {n : ℕ} (s : JointScratch n)

/-- Record a movement failure. -/
def fail (i : Fin n) (status : MovementStatus) : JointScratch n :=
  { s with
    state := Function.update s.state i .failed
    failure := Function.update s.failure i status }

/-- Claim the desired tile and admit the agent, or record `Occupied`. -/
def claimFor (S : Shape) (i : Fin n) : JointScratch n × Bool :=
  match jointClaim (S.tileKey (s.desired i)) s.claimed with
  | some claimed =>
    ({ s with claimed := claimed, state := Function.update s.state i .admitted }, true)
  | none => (s.fail i .occupied, false)

/-- The agent that holds the desired tile. -/
def wants (S : Shape) (i : Fin n) : Option (Fin n) :=
  jointFindOccupant s.occupants (S.tileKey (s.desired i))

end JointScratch

/-! ### Admission -/

section Definitions

variable {S : Shape} {Tag : Type*} {n : ℕ}

/-- The next route tile of an agent that has a goal and a found route. -/
def jointTarget (agents : Fin n → PathAgentState) (routes : Fin n → List Coord3) (i : Fin n) :
    Option Coord3 :=
  if (agents i).hasGoal && (agents i).lastResult == some .found then
    nextStep (agents i) (routes i)
  else none

variable (W : World S Tag) (cls : MovementClass S Tag) (fields : MovementFields Tag)
  (agents : Fin n → PathAgentState) (routes : Fin n → List Coord3) (options : JointMoveOptions)

/-- Validation of a step of an agent, as the per-agent commit validates it. -/
def stepVerdict (i : Fin n) (dest : Coord3) : MovementStatus :=
  validateMovementIntent W cls fields.occupancy fields.reservation (adjacentTransitions S Tag)
    ⟨(agents i).position, dest, {}⟩

/-- Step 1 and 2 for one agent: validate the next tile, and claim it when it is free. -/
def jointClassify (s : JointScratch n) (i : Fin n) : JointScratch n :=
  match jointTarget agents routes i with
  | none => s
  | some dest =>
    let s := { s with desired := Function.update s.desired i dest }
    match stepVerdict W cls fields agents i dest with
    | .moved => (s.claimFor S i).1
    | .occupied =>
      -- a reservation must not vanish behind a vacating occupant
      if flagAt W fields.reservation dest then s.fail i .reserved
      else { s with state := Function.update s.state i .pending }
    | status => s.fail i status

/-- Step 3 for one agent: a move into a tile that an admitted mover vacates. -/
def chainStep (S : Shape) (acc : JointScratch n × Bool) (i : Fin n) : JointScratch n × Bool :=
  let s := acc.1
  if s.state i ≠ .pending then acc
  else
    match s.wants S i with
    | none => acc
    | some occupant =>
      if s.state occupant ≠ .admitted then acc
      else
        let (s, admitted) := s.claimFor S i
        if admitted then
          ({ s with stats := { s.stats with chained := s.stats.chained + 1 } }, true)
        else (s, true)

/-- One sweep of step 3, and whether it changed anything. -/
def chainSweep (S : Shape) (s : JointScratch n) : JointScratch n × Bool :=
  (List.finRange n).foldl (chainStep S) (s, false)

/-- The loop of step 3; none when the fuel runs out. -/
def chainLoop (S : Shape) : ℕ → Bool → JointScratch n → Option (JointScratch n)
  | _, false, s => some s
  | 0, true, _ => none
  | fuel + 1, true, s =>
    let (s, changed) := chainSweep S s
    chainLoop S fuel changed s

/-- The walk of step 4: follow the wants of pending agents until one of them was met before. -/
def cycleWalk (S : Shape) (s : JointScratch n) :
    ℕ → Option (Fin n) → List (Fin n) → List (Fin n) × Option (Fin n)
  | fuel + 1, some at', walk =>
    if s.state at' = .pending ∧ at' ∉ walk then
      cycleWalk S s fuel (s.wants S at') (walk ++ [at'])
    else (walk, some at')
  | _, at', walk => (walk, at')

/-- Two mutually blocked agents may exchange tiles. -/
def swapAllowed (i j : Fin n) : Bool :=
  match options.swapPolicy with
  | .permit => true
  | .permitOnDeadlock =>
    options.deadlockTicks ≤ (agents i).blockedRetries &&
      options.deadlockTicks ≤ (agents j).blockedRetries
  | .forbid => false

/-- Whether a cycle of wants moves. -/
def cycleAdmitted : List (Fin n) → Bool
  | [i, j] => swapAllowed agents options i j
  | _ :: _ :: _ :: _ => true
  | _ => false

/-- The outcome that a cycle counts as. -/
def countCycle (stats : JointMoveStats) (cycle : List (Fin n)) (admitted : Bool) : JointMoveStats :=
  match cycle with
  | [_, _] =>
    if admitted then { stats with swaps := stats.swaps + 1 }
    else { stats with swapsDenied := stats.swapsDenied + 1 }
  | _ :: _ :: _ :: _ => { stats with rotations := stats.rotations + 1 }
  | _ => stats

/-- One member of a cycle is admitted or refused; the claim guards the invariant only. -/
def settleMember (S : Shape) (admitted : Bool) (s : JointScratch n) (i : Fin n) : JointScratch n :=
  if admitted then
    { s with
      claimed := (jointClaim (S.tileKey (s.desired i)) s.claimed).getD s.claimed
      state := Function.update s.state i .admitted }
  else s.fail i .occupied

/-- The cycle that a walk closed is settled. -/
def settleCycle (S : Shape) (s : JointScratch n) (cycle : List (Fin n)) : JointScratch n :=
  let admitted := cycleAdmitted agents options cycle
  cycle.foldl (settleMember S admitted) { s with stats := countCycle s.stats cycle admitted }

/-- Step 4 for one start. -/
def cycleStep (S : Shape) (s : JointScratch n) (start : Fin n) : JointScratch n :=
  if s.state start ≠ .pending ∨ s.walked start = true then s
  else
    let (walk, at') := cycleWalk S s (n + 1) (some start) []
    let s := { s with walked := fun i => s.walked i || i ∈ walk }
    match at' with
    | none => s
    | some at' =>
      if at' ∈ walk then settleCycle agents options S s (walk.drop (walk.idxOf at')) else s

/-- Whatever is still pending waits on an occupied tile. -/
def leaveWaiting (s : JointScratch n) (i : Fin n) : JointScratch n :=
  if s.state i = .pending then s.fail i .occupied else s

/-- Steps 1 and 2. -/
def jointClassified (stats : JointMoveStats) : JointScratch n :=
  (List.finRange n).foldl (jointClassify W cls fields agents routes)
    { occupants := occupantIndex S agents, stats := stats }

/-- Step 3: the loop runs when any agent is pending. -/
def jointChained (S : Shape) (s : JointScratch n) : Option (JointScratch n) :=
  chainLoop S (n + 1) ((List.finRange n).any fun i => s.state i == .pending) s

/-- Step 4 and the sweep behind it. -/
def jointSettled (S : Shape) (s : JointScratch n) : JointScratch n :=
  (List.finRange n).foldl leaveWaiting
    ((List.finRange n).foldl (cycleStep agents options S) { s with walked := fun _ => false })

/-- The admission of one round. -/
def jointAdmission (stats : JointMoveStats) : Option (JointScratch n) :=
  (jointChained S (jointClassified W cls fields agents routes stats)).map
    (jointSettled agents options S)

end Definitions

/-! ### Application -/

section Application

variable {S : Shape} {Tag : Type*} [DecidableEq Tag] {n : ℕ} (cls : MovementClass S Tag)
  (fields : MovementFields Tag) (routes : Fin n → List Coord3) (options : JointMoveOptions)
  (mask : BitVec 32)

/-- Every source clears before any destination sets. -/
def clearSource (s : JointScratch n) (agents : Fin n → PathAgentState)
    (acc : MovementWorld S Tag × ℕ) (i : Fin n) : MovementWorld S Tag × ℕ :=
  if s.state i = .admitted then
    (acc.1.writeFlag fields.occupancy (agents i).position false, acc.2 + 1)
  else acc

/-- An admitted agent enters its tile. -/
def commitMove (p : MovementPass S Tag n) (i : Fin n) (dest : Coord3) : MovementPass S Tag n :=
  let agent := p.agents i
  let world := ((p.world.writeFlag fields.occupancy dest true).writeFlag fields.reservation dest
    false).markMove agent.position dest mask
  let (moved, accounting) := stepPathAgent agent dest p.accounting
  { world := world
    agents := Function.update p.agents i moved
    accounting := accounting
    stats :=
      { p.stats with
        frame :=
          { p.stats.frame with
            advanced := p.stats.frame.advanced + 1
            arrived := p.stats.frame.arrived + (if dest = agent.goal then 1 else 0) } }
    committed := p.committed ++ [(i, agent.position, dest)] }

/-- A failed agent waits or ends its lifecycle. -/
def recordFailure (p : MovementPass S Tag n) (i : Fin n) (status : MovementStatus) :
    MovementPass S Tag n :=
  let (agent, accounting) := rejectPathAgent (p.agents i) status p.accounting
  { p with
    agents := Function.update p.agents i agent
    accounting := accounting
    stats :=
      { p.stats with
        frame :=
          { p.stats.frame with
            blockedWaits := p.stats.frame.blockedWaits +
              (if isTransientMovementFailure status then 1 else 0)
            movementFailures := recordMovementFailure p.stats.frame.movementFailures status } } }

/-- Step 5 for one agent. -/
def applyMember (s : JointScratch n) (p : MovementPass S Tag n) (i : Fin n) :
    MovementPass S Tag n :=
  match s.state i with
  | .admitted => commitMove fields mask p i (s.desired i)
  | .failed => recordFailure p i (s.failure i)
  | .inactive => p
  | .pending => p

/-- Step 5: the admitted moves apply as a set; the number of them comes with the result. -/
def applyJointMoves (s : JointScratch n) (p : MovementPass S Tag n) : MovementPass S Tag n × ℕ :=
  let (world, admittedCount) :=
    (List.finRange n).foldl (clearSource fields s p.agents) (p.world, 0)
  ((List.finRange n).foldl (applyMember fields mask s)
    { p with world := world, stats := s.stats }, admittedCount)

/-- One round: what it admits, what it leaves behind and how many agents moved. -/
def jointRound (p : MovementPass S Tag n) : Option (JointScratch n × MovementPass S Tag n × ℕ) :=
  (jointAdmission p.world.world cls fields p.agents routes options p.stats).map fun s =>
    (s, applyJointMoves fields mask s p)

/-- The rounds of a call: a round that admits nobody ends it. -/
def jointRounds : ℕ → MovementPass S Tag n → Option (MovementPass S Tag n)
  | 0, p => some p
  | steps + 1, p =>
    match jointRound cls fields routes options mask p with
    | none => none
    | some (_, next, admittedCount) =>
      if admittedCount = 0 then some next else jointRounds steps next

/-- `advance_path_agents_with_joint_movement`. -/
def advanceWithJointMovement (advance : PathAgentAdvanceOptions) (p : MovementPass S Tag n) :
    Option (MovementPass S Tag n) :=
  jointRounds cls fields routes options advance.movementDirtyMask advance.maxSteps
    { p with stats := {} }

end Application

/-! ### The position index and the claims, as sets -/

section Buffers

variable {S : Shape} {n : ℕ} {agents : Fin n → PathAgentState}

theorem mem_insertOccupant {entry e : ℕ × Fin n} {index : List (ℕ × Fin n)} :
    e ∈ insertOccupant entry index ↔ e = entry ∨ e ∈ index := by
  induction index with
  | nil => simp [insertOccupant]
  | cons head tail ih =>
    simp only [insertOccupant]
    split_ifs
    · simp
    · simp only [List.mem_cons, ih]
      exact or_left_comm

theorem pairwise_insertOccupant {entry : ℕ × Fin n} {index : List (ℕ × Fin n)}
    (h : index.Pairwise fun a b => a.1 ≤ b.1) :
    (insertOccupant entry index).Pairwise fun a b => a.1 ≤ b.1 := by
  induction index with
  | nil => simp [insertOccupant]
  | cons head tail ih =>
    rw [List.pairwise_cons] at h
    simp only [insertOccupant]
    split_ifs with hlt
    · refine List.pairwise_cons.2 ⟨fun e he => ?_, List.pairwise_cons.2 h⟩
      rcases List.mem_cons.1 he with rfl | he
      · exact hlt.le
      · exact hlt.le.trans (h.1 e he)
    · refine List.pairwise_cons.2 ⟨fun e he => ?_, ih h.2⟩
      rcases mem_insertOccupant.1 he with rfl | he
      · exact not_lt.1 hlt
      · exact h.1 e he

/-- The position index is sorted and lists every agent under the key of its tile. -/
theorem occupantIndex_spec (S : Shape) (agents : Fin n → PathAgentState) :
    (∀ e : ℕ × Fin n, e ∈ occupantIndex S agents ↔ e.1 = S.tileKey (agents e.2).position) ∧
      (occupantIndex S agents).Pairwise fun a b => a.1 ≤ b.1 := by
  have hloop : (∀ e : ℕ × Fin n, e ∈ occupantIndex S agents ↔
      (e.2 : ℕ) < n ∧ e.1 = S.tileKey (agents e.2).position) ∧
        (occupantIndex S agents).Pairwise fun a b => a.1 ≤ b.1 := by
    refine foldl_finRange (fun m (index : List (ℕ × Fin n)) => (∀ e : ℕ × Fin n, e ∈ index ↔
      (e.2 : ℕ) < m ∧ e.1 = S.tileKey (agents e.2).position) ∧
        index.Pairwise fun a b => a.1 ≤ b.1) ⟨by simp, List.Pairwise.nil⟩ ?_
    rintro i index ⟨hmem, hsorted⟩
    refine ⟨fun e => ?_, pairwise_insertOccupant hsorted⟩
    rw [mem_insertOccupant, hmem]
    constructor
    · rintro (rfl | ⟨hlt, hkey⟩)
      · exact ⟨Nat.lt_succ_self _, rfl⟩
      · exact ⟨by omega, hkey⟩
    · rintro ⟨hlt, hkey⟩
      by_cases hi : e.2 = i
      · left
        subst hi
        exact Prod.ext hkey rfl
      · right
        refine ⟨?_, hkey⟩
        have hne : (e.2 : ℕ) ≠ i := fun h => hi (Fin.ext h)
        omega
  exact ⟨fun e => by simp [hloop.1 e], hloop.2⟩

/-- The first key that is not less is the key itself, when it is listed. -/
theorem find?_of_mem {index : List (ℕ × Fin n)} {e : ℕ × Fin n}
    (hsorted : index.Pairwise fun a b => a.1 ≤ b.1) (he : e ∈ index) :
    ∃ e' ∈ index, index.find? (fun entry => decide (e.1 ≤ entry.1)) = some e' ∧ e'.1 = e.1 := by
  induction index with
  | nil => exact absurd he List.not_mem_nil
  | cons head tail ih =>
    rw [List.pairwise_cons] at hsorted
    by_cases hle : e.1 ≤ head.1
    · refine ⟨head, List.mem_cons_self, by simp [hle], le_antisymm ?_ hle⟩
      rcases List.mem_cons.1 he with rfl | he
      · exact le_rfl
      · exact hsorted.1 e he
    · have htail : e ∈ tail := by
        rcases List.mem_cons.1 he with rfl | he
        · exact absurd le_rfl hle
        · exact he
      obtain ⟨e', he', hfind, hkey⟩ := ih hsorted.2 htail
      exact ⟨e', List.mem_cons_of_mem _ he', by simp [hle, hfind], hkey⟩

/-- **The position index finds** the agent on a tile, when no two agents share a key. -/
theorem findOccupant_eq_some
    (hinj : ∀ i j, S.tileKey (agents i).position = S.tileKey (agents j).position → i = j)
    {key : ℕ} {j : Fin n} :
    jointFindOccupant (occupantIndex S agents) key = some j ↔
      S.tileKey (agents j).position = key := by
  obtain ⟨hmem, hsorted⟩ := occupantIndex_spec S agents
  simp only [jointFindOccupant]
  constructor
  · intro h
    cases hfind : (occupantIndex S agents).find? (fun entry => decide (key ≤ entry.1)) with
    | none => simp [hfind] at h
    | some e =>
      simp only [hfind] at h
      split_ifs at h with hkey
      simp only [Option.some.injEq] at h
      have he := (hmem e).1 (List.mem_of_find?_eq_some hfind)
      rw [← hkey, he, h]
  · intro h
    have he : (key, j) ∈ occupantIndex S agents := (hmem (key, j)).2 h.symm
    obtain ⟨e', he', hfind, hkey⟩ := find?_of_mem hsorted he
    have hj : e'.2 = j := hinj _ _ (by rw [← (hmem e').1 he', hkey, h])
    simp only at hfind hkey
    simp only [hfind, hkey, if_true, hj]

/-- **A claim fails** exactly on a claimed key, and otherwise adds it. -/
theorem jointClaim_spec (key : ℕ) {claimed : List ℕ} (hsorted : claimed.Pairwise (· < ·)) :
    match jointClaim key claimed with
    | none => key ∈ claimed
    | some claimed' => key ∉ claimed ∧ claimed'.Pairwise (· < ·) ∧
        ∀ k, k ∈ claimed' ↔ k = key ∨ k ∈ claimed := by
  induction claimed with
  | nil => simp [jointClaim]
  | cons head tail ih =>
    rw [List.pairwise_cons] at hsorted
    have ih := ih hsorted.2
    simp only [jointClaim]
    by_cases hlt : head < key
    · rw [if_pos hlt]
      cases hc : jointClaim key tail with
      | none =>
        simp only [hc, Option.map_none] at ih ⊢
        exact List.mem_cons_of_mem _ ih
      | some claimed' =>
        simp only [hc, Option.map_some] at ih ⊢
        obtain ⟨hnot, hpair, hmem⟩ := ih
        refine ⟨?_, List.pairwise_cons.2 ⟨fun k hk => ?_, hpair⟩, fun k => ?_⟩
        · rw [List.mem_cons, not_or]
          exact ⟨hlt.ne', hnot⟩
        · rcases (hmem k).1 hk with rfl | hk
          · exact hlt
          · exact hsorted.1 k hk
        · rw [List.mem_cons, hmem, List.mem_cons]
          exact or_left_comm
    · rw [if_neg hlt]
      by_cases heq : head = key
      · rw [if_pos heq]
        exact heq ▸ List.mem_cons_self
      · rw [if_neg heq]
        have hless : key < head := by omega
        refine ⟨?_, List.pairwise_cons.2 ⟨fun k hk => ?_, List.pairwise_cons.2 hsorted⟩,
          fun k => List.mem_cons⟩
        · rw [List.mem_cons, not_or]
          exact ⟨hless.ne, fun hmem => (hsorted.1 key hmem).not_gt hless⟩
        · rcases List.mem_cons.1 hk with rfl | hk
          · exact hless
          · exact hless.trans (hsorted.1 k hk)

end Buffers

/-! ### Agents on their tiles -/

section Holding

variable {S : Shape} {Tag : Type*} {W : World S Tag} {cls : MovementClass S Tag}
  {fields : MovementFields Tag} {n : ℕ} {agents : Fin n → PathAgentState} {i j : Fin n}
  {dest : Coord3}

/-- The agents of a dense world stand on distinct tiles that are marked occupied. -/
structure HoldsTiles (W : World S Tag) (fields : MovementFields Tag)
    (agents : Fin n → PathAgentState) : Prop where
  /-- Every chunk is resident. -/
  dense : W.IsDense
  /-- No two agents share a tile. -/
  inj : ∀ i j, (agents i).position = (agents j).position → i = j
  /-- The tiles of the agents are marked. -/
  occupied : ∀ i, flagAt W fields.occupancy (agents i).position = true

theorem contains_of_flagAt {tag : Tag} {c : Coord3} (h : flagAt W tag c = true) :
    S.contains c = true := by
  by_contra hc
  simp [flagAt, World.tileAt_of_not_contains hc] at h

theorem HoldsTiles.contains (h : HoldsTiles W fields agents) (i : Fin n) :
    S.contains (agents i).position = true := contains_of_flagAt (h.occupied i)

theorem HoldsTiles.tileKey_inj (h : HoldsTiles W fields agents) (i j : Fin n)
    (hkey : S.tileKey (agents i).position = S.tileKey (agents j).position) : i = j :=
  h.inj i j (Shape.tileKey_inj (h.contains i) (h.contains j) hkey)

variable (W cls fields agents) in
/-- The step is legal and its destination is free. -/
def StepFree (i : Fin n) (dest : Coord3) : Prop := stepVerdict W cls fields agents i dest = .moved

variable (W cls fields agents) in
/-- The step is legal and nothing but an occupant is in its way. -/
def StepHeld (i : Fin n) (dest : Coord3) : Prop :=
  stepVerdict W cls fields agents i dest = .occupied ∧ flagAt W fields.reservation dest = false

theorem legalStep_of_stepVerdict
    (h : stepVerdict W cls fields agents i dest ∈ [MovementStatus.moved, .occupied, .reserved]) :
    isPassable W cls (agents i).position = true ∧
      ∃ k, LegalStep W cls (adjacentTransitions S Tag) (agents i).position dest k :=
  legalStep_of_status h

theorem StepFree.legal (h : StepFree W cls fields agents i dest) :
    isPassable W cls (agents i).position = true ∧
      ∃ k, LegalStep W cls (adjacentTransitions S Tag) (agents i).position dest k := by
  have hmoved : stepVerdict W cls fields agents i dest = .moved := h
  have hmem : stepVerdict W cls fields agents i dest ∈
      [MovementStatus.moved, .occupied, .reserved] := by simp [hmoved]
  exact legalStep_of_stepVerdict hmem

theorem StepHeld.legal (h : StepHeld W cls fields agents i dest) :
    isPassable W cls (agents i).position = true ∧
      ∃ k, LegalStep W cls (adjacentTransitions S Tag) (agents i).position dest k := by
  have hmem : stepVerdict W cls fields agents i dest ∈
      [MovementStatus.moved, .occupied, .reserved] := by simp [h.1]
  exact legalStep_of_stepVerdict hmem

theorem StepFree.flags (h : StepFree W cls fields agents i dest) :
    flagAt W fields.occupancy dest = false ∧ flagAt W fields.reservation dest = false := by
  obtain ⟨hpass, k, hstep⟩ := h.legal
  have hstatus := h
  rw [StepFree, stepVerdict, status_of_legalStep hpass hstep] at hstatus
  split_ifs at hstatus with ho hr
  exact ⟨by simpa using ho, by simpa using hr⟩

theorem StepHeld.flag (h : StepHeld W cls fields agents i dest) :
    flagAt W fields.occupancy dest = true := by
  obtain ⟨hpass, k, hstep⟩ := h.legal
  have hstatus := h.1
  rw [stepVerdict, status_of_legalStep hpass hstep] at hstatus
  split_ifs at hstatus with ho
  exact ho

theorem StepFree.contains (h : StepFree W cls fields agents i dest) : S.contains dest = true :=
  h.legal.2.choose_spec.contains_right

theorem StepHeld.contains (h : StepHeld W cls fields agents i dest) : S.contains dest = true :=
  h.legal.2.choose_spec.contains_right

theorem StepFree.not_held (h : StepFree W cls fields agents i dest) :
    ¬ StepHeld W cls fields agents j dest := by
  intro hheld
  have hfree := h.flags.1
  rw [hheld.flag] at hfree
  exact absurd hfree (by simp)

end Holding

end Tess
