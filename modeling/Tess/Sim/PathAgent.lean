import Tess.Diagnostics.Flow
import Tess.Storage.Dirty
import Tess.Sim.Movement

/-!
# Path agents

A path agent walks a retained route towards its goal.  Its record keeps the goal, the cursor
into the route, the last search conclusion and the retry count; the operations of this module
move that record through its lifecycle.

* `PathAgentState`, `blockPathAgent`, `resumePathAgent`, `setPathAgentGoal`,
  `clearPathAgentGoal` : the record and its transitions;
* `arrivePathAgent`, `failPathAgentFlow` : the terminal transitions, with their accounting;
* `MovementWorld` : a world with the dirty marks that committed movement leaves;
* `nextStep` : the tile behind the cursor.
-/

namespace Tess

/-! ### Agents -/

/-- Lifecycle phase of a path agent. -/
inductive PathAgentPhase
  | idle
  | needsPath
  | following
  | blocked
  | unreachable
  deriving DecidableEq, Repr

/-- Handle of a submitted request: its place in the batch. -/
structure PathTicket where
  /-- Place in the batch. -/
  index : ℕ := 0
  /-- Batch that issued the ticket. -/
  generation : ℕ := 0
  deriving DecidableEq, Repr

/-- Goal, route cursor and retry state of one agent. -/
structure PathAgentState where
  /-- Tile of the agent. -/
  position : Coord3 := ⟨0, 0, 0⟩
  /-- Tile the agent is bound for. -/
  goal : Coord3 := ⟨0, 0, 0⟩
  /-- Request of the agent in the current batch. -/
  ticket : PathTicket := {}
  /-- Cursor into the retained route. -/
  pathIndex : ℕ := 0
  /-- Most recent search conclusion, absent before search or after invalidation. -/
  lastResult : Option PathStatus := none
  /-- Phase of the lifecycle. -/
  phase : PathAgentPhase := .idle
  /-- A goal is set. -/
  hasGoal : Bool := false
  /-- Consecutive ticks spent retrying a blocked agent. -/
  blockedRetries : ℕ := 0
  /-- Admission stamp of the accounted goal. -/
  armedTick : BitVec 64 := 0
  deriving DecidableEq, Repr

/-- Categories of failed movement attempts. -/
structure MovementFailureCounts where
  /-- Invalid endpoints and steps that are not adjacent. -/
  invalid : ℕ := 0
  /-- Impassable endpoints. -/
  impassable : ℕ := 0
  /-- Blocked transitions. -/
  blocked : ℕ := 0
  /-- Occupied destinations. -/
  occupied : ℕ := 0
  /-- Reserved destinations. -/
  reserved : ℕ := 0
  /-- Content versions that moved on. -/
  staleContent : ℕ := 0
  /-- Topology that moved on. -/
  staleTopology : ℕ := 0
  deriving DecidableEq, Repr

/-- Submission, result, movement and failure counts of one pass. -/
structure PathAgentFrameStats where
  /-- Requests submitted. -/
  submitted : ℕ := 0
  /-- Results applied. -/
  completed : ℕ := 0
  /-- Results by status. -/
  found : ℕ := 0
  /-- Searches from an invalid start. -/
  invalidStart : ℕ := 0
  /-- Searches for an invalid goal. -/
  invalidGoal : ℕ := 0
  /-- Searches that ruled a route out. -/
  noPath : ℕ := 0
  /-- Requests without a result. -/
  notComputed : ℕ := 0
  /-- Searches without a candidate. -/
  noCandidate : ℕ := 0
  /-- Searches stopped at the resident boundary. -/
  indeterminate : ℕ := 0
  /-- Searches stopped by the cost domain. -/
  costOverflow : ℕ := 0
  /-- Nodes expanded by the applied results. -/
  expandedNodes : ℕ := 0
  /-- Moves made. -/
  advanced : ℕ := 0
  /-- Goals reached. -/
  arrived : ℕ := 0
  /-- Agents left waiting. -/
  blockedWaits : ℕ := 0
  /-- Failed movement attempts. -/
  movementFailures : MovementFailureCounts := {}
  deriving DecidableEq, Repr

/-- `record_path_agent_status`. -/
def recordPathAgentStatus (stats : PathAgentFrameStats) : PathStatus → PathAgentFrameStats
  | .notComputed => { stats with notComputed := stats.notComputed + 1 }
  | .found => { stats with found := stats.found + 1 }
  | .invalidStart => { stats with invalidStart := stats.invalidStart + 1 }
  | .invalidGoal => { stats with invalidGoal := stats.invalidGoal + 1 }
  | .noPath => { stats with noPath := stats.noPath + 1 }
  | .indeterminate => { stats with indeterminate := stats.indeterminate + 1 }
  | .costOverflow => { stats with costOverflow := stats.costOverflow + 1 }
  | .noCandidate => { stats with noCandidate := stats.noCandidate + 1 }

/-- Limits and dirty bits of one movement pass. -/
structure PathAgentAdvanceOptions where
  /-- Steps of the pass. -/
  maxSteps : ℕ := 1
  /-- Dirty bits of a committed move; empty for none. -/
  movementDirtyMask : BitVec 32 := 0
  deriving DecidableEq, Repr

/-- `record_movement_failure`. -/
def recordMovementFailure (counts : MovementFailureCounts) :
    MovementStatus → MovementFailureCounts
  | .moved => counts
  | .invalidFrom | .invalidTo | .notAdjacent => { counts with invalid := counts.invalid + 1 }
  | .impassableFrom | .impassableTo => { counts with impassable := counts.impassable + 1 }
  | .blocked => { counts with blocked := counts.blocked + 1 }
  | .occupied => { counts with occupied := counts.occupied + 1 }
  | .reserved => { counts with reserved := counts.reserved + 1 }
  | .staleContent => { counts with staleContent := counts.staleContent + 1 }
  | .staleTopology => { counts with staleTopology := counts.staleTopology + 1 }

/-- `is_transient_movement_failure`. -/
def isTransientMovementFailure : MovementStatus → Bool
  | .impassableFrom | .impassableTo | .blocked | .occupied | .reserved | .staleContent
  | .staleTopology => true
  | .moved | .invalidFrom | .invalidTo | .notAdjacent => false

/-- `movement_block_can_retry_route`: searching again would return the same route. -/
def movementBlockCanRetryRoute (status : MovementStatus) : Bool :=
  status == .occupied || status == .reserved

/-- `block_path_agent`. -/
def blockPathAgent (agent : PathAgentState) (status : MovementStatus) : PathAgentState :=
  { agent with
    phase := .blocked
    lastResult := if movementBlockCanRetryRoute status then agent.lastResult else none }

/-- `resume_path_agent`. -/
def resumePathAgent (agent : PathAgentState) : PathAgentState :=
  { agent with phase := .following, blockedRetries := 0 }

/-- `can_skip_scoped_path_submission`. -/
def canSkipScopedPathSubmission (agent : PathAgentState) : Bool :=
  agent.phase == .following ||
    (agent.phase == .blocked && agent.lastResult == some .found)

/-- `has_next_step`: a step is left behind the cursor. -/
def hasNextStep (pathIndex size : ℕ) : Bool := 0 < size && pathIndex < size - 1

/-- The tile behind the cursor, if a step is left. -/
def nextStep (agent : PathAgentState) (route : List Coord3) : Option Coord3 :=
  if hasNextStep agent.pathIndex route.length then route[agent.pathIndex + 1]? else none

/-- `set_path_agent_goal`, the bare helper. -/
def setPathAgentGoal (agent : PathAgentState) (goal : Coord3) : PathAgentState :=
  { agent with
    goal := goal
    pathIndex := 0
    lastResult := none
    phase := .needsPath
    blockedRetries := 0
    hasGoal := true }

/-- `clear_path_agent_goal`, the bare helper. -/
def clearPathAgentGoal (agent : PathAgentState) : PathAgentState :=
  { agent with
    goal := ⟨0, 0, 0⟩
    ticket := {}
    pathIndex := 0
    lastResult := none
    phase := .idle
    blockedRetries := 0
    hasGoal := false }

/-- `path_agent_goal_outstanding`. -/
def pathAgentGoalOutstanding (agent : PathAgentState) : Bool :=
  agent.hasGoal && agent.phase != .unreachable

/-- `fail_path_agent_flow`. -/
def failPathAgentFlow (agent : PathAgentState) (accounting : Option FlowAccounting) :
    Option FlowAccounting :=
  accounting.map (·.terminate .failed agent.armedTick)

/-- `arrive_path_agent`. -/
def arrivePathAgent (agent : PathAgentState) (accounting : Option FlowAccounting) :
    PathAgentState × Option FlowAccounting :=
  (clearPathAgentGoal agent, accounting.map (·.terminate .completed agent.armedTick))

/-- A movement attempt fails: transient failures wait, the others end the lifecycle. -/
def rejectPathAgent (agent : PathAgentState) (status : MovementStatus)
    (accounting : Option FlowAccounting) : PathAgentState × Option FlowAccounting :=
  if isTransientMovementFailure status then (blockPathAgent agent status, accounting)
  else
    let ended := { agent with lastResult := none, phase := .unreachable }
    (ended, failPathAgentFlow ended accounting)

/-- The goal is reached: the lifecycle ends and the conclusion is kept. -/
def arriveIfAtGoal (agent : PathAgentState) (accounting : Option FlowAccounting) :
    PathAgentState × Option FlowAccounting :=
  if agent.position = agent.goal then
    let (agent, accounting) := arrivePathAgent agent accounting
    ({ agent with lastResult := some .found }, accounting)
  else (agent, accounting)

/-- A step along the retained route has been made. -/
def stepPathAgent (agent : PathAgentState) (dest : Coord3)
    (accounting : Option FlowAccounting) : PathAgentState × Option FlowAccounting :=
  arriveIfAtGoal
    (resumePathAgent { agent with pathIndex := agent.pathIndex + 1, position := dest }) accounting

/-! ### Worlds that agents move in -/

/-- The occupancy and reservation fields of a movement pass. -/
structure MovementFields (Tag : Type*) where
  /-- Tiles held by an agent or an obstacle. -/
  occupancy : Tag
  /-- Tiles flagged do-not-enter. -/
  reservation : Tag
  /-- The two are different fields. -/
  ne : occupancy ≠ reservation

/-- A world with the dirty marks of its chunks. -/
structure MovementWorld (S : Shape) (Tag : Type*) where
  /-- Fields and versions. -/
  world : World S Tag
  /-- Dirty bits of a chunk. -/
  dirtyMask : ℕ → BitVec 32 := fun _ => 0
  /-- Dirty bounds of a chunk. -/
  dirtyBounds : ℕ → Box3 := fun _ => {}

namespace MovementWorld

variable {S : Shape} {Tag : Type*} (w : MovementWorld S Tag)

/-- `mark_dirty` on one tile. -/
def markDirty (c : Coord3) (mask : BitVec 32) : MovementWorld S Tag :=
  let key := S.chunkKey (S.chunkCoord c)
  let marked := ChunkDirty.metaMarkDirty
    ⟨w.dirtyMask key, w.dirtyBounds key, w.world.contentVersion key⟩ mask ⟨c, ⟨1, 1, 1⟩⟩
  { world := if mask = 0 then w.world else w.world.markContentChanged key
    dirtyMask := Function.update w.dirtyMask key marked.mask
    dirtyBounds := Function.update w.dirtyBounds key marked.bounds }

/-- Write a flag field at one tile. -/
def writeFlag [DecidableEq Tag] (tag : Tag) (c : Coord3) (value : Bool) : MovementWorld S Tag :=
  { w with world := w.world.writeField tag c (if value then 1 else 0) }

/-- Mark both ends of a move, when a mask asks for it. -/
def markMove (source dest : Coord3) (mask : BitVec 32) : MovementWorld S Tag :=
  if mask ≠ 0 then (w.markDirty source mask).markDirty dest mask else w

/-- The field of a contained tile of a dense world. -/
theorem flagAt_writeField [DecidableEq Tag] {W : World S Tag} (hd : W.IsDense) {tag tag' : Tag}
    {c d : Coord3} {value : ℤ} (hc : S.contains c = true) :
    flagAt (W.writeField tag c value) tag' d =
      if tag' = tag ∧ d = c then value != 0 else flagAt W tag' d := by
  have hslot := W.dense_slot hd _ (Shape.chunkKey_lt hc)
  by_cases hcd : S.contains d = true
  swap
  · have hne : d ≠ c := fun h => hcd (h ▸ hc)
    simp only [flagAt, World.tileAt_of_not_contains hcd, hne, and_false, if_false]
  have hslot' := W.dense_slot hd _ (Shape.chunkKey_lt hcd)
  have hsame : S.chunkKey (S.chunkCoord d) = S.chunkKey (S.chunkCoord c) →
      S.localTileId (S.localCoord d) = S.localTileId (S.localCoord c) → d = c := by
    intro hkey hid
    have hgrid : S.chunkCoord d = S.chunkCoord c := by
      rw [← Extent3.unrank_rank (Shape.has_chunkCoord hcd),
        ← Extent3.unrank_rank (Shape.has_chunkCoord hc)]
      exact congrArg _ hkey
    rw [← Shape.coordOf_chunkCoord hcd, ← Shape.coordOf_chunkCoord hc, hgrid, hid]
  simp only [flagAt, World.tileAt_of_contains hcd, World.writeField, World.resolve, hslot,
    World.tryChunk, hslot', Option.map_some]
  by_cases hkey : S.chunkKey (S.chunkCoord d) = S.chunkKey (S.chunkCoord c)
  · rw [if_pos hkey]
    by_cases hwrite : tag' = tag ∧ S.localTileId (S.localCoord d) = S.localTileId (S.localCoord c)
    · rw [if_pos ⟨hwrite.1, hsame hkey hwrite.2⟩]
      simp only [hwrite, and_self, if_true]
    · have hne : ¬ (tag' = tag ∧ d = c) := by
        rintro ⟨htag, rfl⟩
        exact hwrite ⟨htag, rfl⟩
      rw [if_neg hne]
      simp only [hwrite, if_false]
  · have hne : ¬ (tag' = tag ∧ d = c) := by
      rintro ⟨-, rfl⟩
      exact hkey rfl
    rw [if_neg hkey, if_neg hne]

variable {w} {tag tag' : Tag} {c d : Coord3} {mask : BitVec 32} {value : Bool}

@[simp] theorem tileAt_markDirty : (w.markDirty c mask).world.tileAt d = w.world.tileAt d := by
  simp only [markDirty]
  split_ifs <;> rfl

@[simp] theorem tileAt_markMove {source dest : Coord3} :
    (w.markMove source dest mask).world.tileAt d = w.world.tileAt d := by
  simp only [markMove]
  split_ifs <;> simp

@[simp] theorem residency_markMove {source dest : Coord3} :
    (w.markMove source dest mask).world.residency = w.world.residency := by
  simp only [markMove, markDirty]
  split_ifs <;> rfl

@[simp] theorem residency_writeFlag [DecidableEq Tag] :
    (w.writeFlag tag c value).world.residency = w.world.residency := by
  simp only [writeFlag, World.writeField]
  split <;> rfl

@[simp] theorem flagAt_markMove {source dest : Coord3} :
    flagAt (w.markMove source dest mask).world tag d = flagAt w.world tag d := by
  simp only [flagAt, tileAt_markMove]

/-- **A written flag** reads back at its tile, and the others stay. -/
theorem flagAt_writeFlag [DecidableEq Tag] (hd : w.world.IsDense) (hc : S.contains c = true) :
    flagAt (w.writeFlag tag c value).world tag' d =
      if tag' = tag ∧ d = c then value else flagAt w.world tag' d := by
  rw [writeFlag, flagAt_writeField hd hc]
  cases value <;> simp

end MovementWorld

end Tess
