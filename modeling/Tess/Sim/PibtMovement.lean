import Tess.Sim.JointRounds

/-!
# PIBT movement

A PIBT pass lets the agents decide one after the other, by adaptive priority.  An agent that
wants the tile of an undecided peer hands it the turn and waits; a peer that can go nowhere keeps
its tile and its claim, and the waiting agent tries its next candidate.  The frames of the agents
that wait are a stack in caller-owned storage.

* `pibtCandidates`, `startDeciding` : the candidates of an agent, ranked, and its frame;
* `pibtStep`, `runDecision` : one iteration of the decision loop, and the loop;
* `pibtDecided`, `applyPibtMoves`, `pibtPass`, `advanceWithPibt` : a pass and the passes of a
  call.

`started` is a history of the agents that began to decide; no function of the pass reads it.
-/

namespace Tess

open Graphs

/-- `kPibtMaxCandidates`. -/
def pibtMaxCandidates : ℕ := 16

/-- Where an agent is in its decision. -/
inductive PibtState
  | undecided
  | deciding
  | decided
  deriving DecidableEq, Repr

/-- One pending decision of an inheritance chain. -/
structure PibtFrame (n : ℕ) where
  /-- The agent that decides. -/
  agent : Fin n
  /-- The candidate to be tried next. -/
  nextCandidate : ℕ := 0
  /-- The peer on the candidate has the turn. -/
  waiting : Bool := false
  /-- Candidates with their ranks, best first. -/
  candidates : List (Coord3 × ℕ)

/-- The buffers of one pass. -/
structure PibtScratch (n : ℕ) where
  /-- Tile keys of the agents with the agents that hold them, sorted by key. -/
  occupants : List (ℕ × Fin n) := []
  /-- Claimed tile keys, sorted. -/
  claimed : List ℕ := []
  /-- Tile an agent has decided for. -/
  desired : Fin n → Coord3
  /-- Progress of an agent. -/
  state : Fin n → PibtState := fun _ => .undecided
  /-- Failure recorded for an agent. -/
  failure : Fin n → MovementStatus := fun _ => .moved
  /-- Stack of pending decisions, the innermost one first. -/
  frames : List (PibtFrame n) := []
  /-- Whether the decision that ended last found a place. -/
  childSucceeded : Bool := false
  /-- Outcomes so far. -/
  stats : JointMoveStats := {}
  /-- Agents that began to decide, the last one first. -/
  started : List (Fin n) := []

/-- One insertion of the stable sort by falling priority. -/
def insertByElapsed {n : ℕ} (elapsed : Fin n → ℕ) (value : Fin n) : List (Fin n) → List (Fin n)
  | [] => [value]
  | head :: tail =>
    if elapsed head < elapsed value then value :: head :: tail
    else head :: insertByElapsed elapsed value tail

/-- The decision order: longest unarrived first, span index breaks ties. -/
def decisionOrder {n : ℕ} (elapsed : Fin n → ℕ) : List (Fin n) :=
  (List.finRange n).foldl (fun order i => insertByElapsed elapsed i order) []

/-- One insertion of the stable sort by rising rank. -/
def insertByRank (value : Coord3 × ℕ) : List (Coord3 × ℕ) → List (Coord3 × ℕ)
  | [] => [value]
  | head :: tail =>
    if value.2 < head.2 then value :: head :: tail else head :: insertByRank value tail

/-- The saturated count of passes an agent has been unarrived for. -/
def tickElapsed (agent : PathAgentState) (elapsed : ℕ) : ℕ :=
  if pathAgentGoalOutstanding agent then min (elapsed + 1) (2 ^ 32 - 1) else 0

section Definitions

variable {S : Shape} {Tag : Type*} {n : ℕ} (W : World S Tag) (cls : MovementClass S Tag)
  (fields : MovementFields Tag) (agents : Fin n → PathAgentState)
  (options : JointMoveOptions) (rank : Fin n → Coord3 → ℕ)

/-- Claim a tile whose failure to be claimed does not matter. -/
def claimTile (S : Shape) (c : Coord3) (claimed : List ℕ) : List ℕ :=
  (jointClaim (S.tileKey c) claimed).getD claimed

/-- The tiles an agent may go to: passable, unreserved and not held from outside. -/
def pibtCandidates (s : PibtScratch n) (i : Fin n) : List Coord3 :=
  ((forEachForward W cls (adjacentTransitions S Tag) (agents i).position).filterMap fun probe =>
    if probe.availability ≠ .legal ∨ probe.costOverflow = true then none
    else
      let coord := S.coord probe.destIndex
      if isPassable W cls coord = false then none
      else if flagAt W fields.reservation coord then none
      else if flagAt W fields.occupancy coord &&
        (jointFindOccupant s.occupants (S.tileKey coord)).isNone then none
      else some coord).take (pibtMaxCandidates - 1)

/-- The candidates of an agent with its own tile, best first. -/
def rankedCandidates (s : PibtScratch n) (i : Fin n) : List (Coord3 × ℕ) :=
  ((pibtCandidates W cls fields agents s i ++ [(agents i).position]).map
    fun coord => (coord, rank i coord)).foldl (fun sorted value => insertByRank value sorted) []

/-- `start_deciding`: push the frame of an agent, or fail at once. -/
def startDeciding (s : PibtScratch n) (i : Fin n) : PibtScratch n × Bool :=
  let s := { s with state := Function.update s.state i .deciding, started := i :: s.started }
  let keep (status : MovementStatus) : PibtScratch n :=
    { s with
      claimed := claimTile S (agents i).position s.claimed
      failure := Function.update s.failure i status
      state := Function.update s.state i .decided }
  if pathAgentGoalOutstanding (agents i) = false then (keep .occupied, false)
  else if isPassable W cls (agents i).position = false then (keep .impassableFrom, false)
  else
    ({ s with
      frames := { agent := i, candidates := rankedCandidates W cls fields agents rank s i } ::
        s.frames }, true)

/-- The innermost frame tries its next candidate. -/
def tryCandidate (s : PibtScratch n) (frame : PibtFrame n) (rest : List (PibtFrame n)) :
    PibtScratch n :=
  let i := frame.agent
  let position := (agents i).position
  let skip : PibtFrame n := { frame with nextCandidate := frame.nextCandidate + 1 }
  match frame.candidates[frame.nextCandidate]? with
  | none =>
    -- nowhere to place: keep the tile and report failure to the waiting agent
    { s with
      claimed := claimTile S position s.claimed
      desired := Function.update s.desired i position
      state := Function.update s.state i .decided
      frames := rest
      childSucceeded := false }
  | some (dest, _) =>
    let peer := if dest = position then none
      else jointFindOccupant s.occupants (S.tileKey dest)
    let swapPeer := peer.filter fun peer => s.desired peer = position
    if swapPeer.any fun peer => !swapAllowed agents options i peer then
      { s with
        frames := skip :: rest
        stats := { s.stats with swapsDenied := s.stats.swapsDenied + 1 } }
    else
      match jointClaim (S.tileKey dest) s.claimed with
      | none => { s with frames := skip :: rest }
      | some claimed =>
        let s :=
          { s with
            claimed := claimed
            desired := Function.update s.desired i dest
            stats := { s.stats with
              swaps := s.stats.swaps + (if swapPeer.isSome then 1 else 0) } }
        match peer.filter fun peer => s.state peer = .undecided with
        | some peer =>
          -- the peer decides next with this agent's turn
          let (s, pushed) := startDeciding W cls fields agents rank
            { s with frames := { frame with waiting := true } :: rest } peer
          if pushed then s else { s with childSucceeded := false }
        | none =>
          { s with
            state := Function.update s.state i .decided
            frames := rest
            childSucceeded := true }

/-- One iteration of the decision loop. -/
def pibtStep (s : PibtScratch n) : PibtScratch n :=
  match s.frames with
  | [] => s
  | frame :: rest =>
    if frame.waiting then
      if s.childSucceeded then
        { s with
          state := Function.update s.state frame.agent .decided
          frames := rest
          childSucceeded := true }
      else
        -- the peer stays on its tile with its claim; only the tentative desire is undone
        tryCandidate W cls fields agents options rank
          { s with
            desired := Function.update s.desired frame.agent (agents frame.agent).position }
          { frame with waiting := false, nextCandidate := frame.nextCandidate + 1 } rest
    else tryCandidate W cls fields agents options rank s frame rest

/-- The decision loop; none when the fuel runs out. -/
def decisionLoop : ℕ → PibtScratch n → Option (PibtScratch n)
  | fuel, s =>
    match s.frames, fuel with
    | [], _ => some s
    | _ :: _, 0 => none
    | _ :: _, fuel + 1 => decisionLoop fuel (pibtStep W cls fields agents options rank s)

/-- Iterations that are enough for every decision of a pass. -/
def pibtFuel (n : ℕ) : ℕ := (2 * pibtMaxCandidates + 3) * n

/-- `run_decision`. -/
def runDecision (s : PibtScratch n) (root : Fin n) : Option (PibtScratch n) :=
  let (s, pushed) := startDeciding W cls fields agents rank s root
  if pushed then
    decisionLoop W cls fields agents options rank (pibtFuel n) { s with childSucceeded := false }
  else some s

/-- The decision of the next agent in order. -/
def decideNext (s : PibtScratch n) (i : Fin n) : Option (PibtScratch n) :=
  if s.state i ≠ .undecided then some s
  else if pathAgentGoalOutstanding (agents i) = false then
    some { s with state := Function.update s.state i .decided }
  else runDecision W cls fields agents options rank s i

/-- The decisions of a pass. -/
def pibtDecided (elapsed : Fin n → ℕ) (stats : JointMoveStats) : Option (PibtScratch n) :=
  (decisionOrder elapsed).foldlM (decideNext W cls fields agents options rank)
    { occupants := occupantIndex S agents
      desired := fun i => (agents i).position
      stats := stats }

end Definitions

/-! ### Application -/

section Application

variable {S : Shape} {Tag : Type*} [DecidableEq Tag] {n : ℕ} (cls : MovementClass S Tag)
  (fields : MovementFields Tag) (routes : Fin n → List Coord3) (options : JointMoveOptions)
  (rank : Fin n → Coord3 → ℕ) (mask : BitVec 32)

/-- Every source clears before any destination sets. -/
def clearLeft (s : PibtScratch n) (agents : Fin n → PathAgentState)
    (world : MovementWorld S Tag) (i : Fin n) : MovementWorld S Tag :=
  if s.desired i ≠ (agents i).position then
    world.writeFlag fields.occupancy (agents i).position false
  else world

/-- A decided agent has moved: along its retained route, or off it. -/
def leavePathAgent (agent : PathAgentState) (route : List Coord3) (dest : Coord3) :
    PathAgentState :=
  if nextStep agent route = some dest then
    resumePathAgent { agent with position := dest, pathIndex := agent.pathIndex + 1 }
  else
    { agent with
      position := dest
      lastResult := none
      phase := .blocked
      blockedRetries := 0 }

/-- A decided agent enters its tile. -/
def enterTile (p : MovementPass S Tag n) (elapsed : Fin n → ℕ) (i : Fin n) (dest : Coord3) :
    MovementPass S Tag n × (Fin n → ℕ) :=
  let agent := p.agents i
  let world := ((p.world.writeFlag fields.occupancy dest true).writeFlag fields.reservation dest
    false).markMove agent.position dest mask
  let left := leavePathAgent agent (routes i) dest
  let arrives := left.hasGoal && decide (left.position = left.goal)
  let (moved, accounting) :=
    if arrives then arriveIfAtGoal left p.accounting else (left, p.accounting)
  ({ world := world
     agents := Function.update p.agents i moved
     accounting := accounting
     stats :=
       { p.stats with
         frame :=
           { p.stats.frame with
             advanced := p.stats.frame.advanced + 1
             arrived := p.stats.frame.arrived + (if arrives then 1 else 0) } }
     committed := p.committed ++ [(i, agent.position, dest)] },
    if arrives then Function.update elapsed i 0 else elapsed)

/-- An agent that keeps its tile waits, when it has somewhere to go. -/
def keepTile (p : MovementPass S Tag n) (i : Fin n) (failure : MovementStatus) :
    MovementPass S Tag n :=
  if pathAgentGoalOutstanding (p.agents i) then
    let status := if failure = .moved then .occupied else failure
    { p with
      agents := Function.update p.agents i (blockPathAgent (p.agents i) status)
      stats :=
        { p.stats with
          frame :=
            { p.stats.frame with
              blockedWaits := p.stats.frame.blockedWaits + 1
              movementFailures :=
                recordMovementFailure p.stats.frame.movementFailures status } } }
  else p

/-- Step 5 for one agent. -/
def applyDecision (s : PibtScratch n) (acc : MovementPass S Tag n × (Fin n → ℕ)) (i : Fin n) :
    MovementPass S Tag n × (Fin n → ℕ) :=
  if s.desired i = (acc.1.agents i).position then (keepTile acc.1 i (s.failure i), acc.2)
  else enterTile fields routes mask acc.1 acc.2 i (s.desired i)

/-- Step 5: the decided configuration applies as a set. -/
def applyPibtMoves (s : PibtScratch n) (p : MovementPass S Tag n) (elapsed : Fin n → ℕ) :
    MovementPass S Tag n × (Fin n → ℕ) :=
  let world := (List.finRange n).foldl (clearLeft fields s p.agents) p.world
  (List.finRange n).foldl (applyDecision fields routes mask s)
    ({ p with world := world, stats := s.stats }, elapsed)

/-- One decision pass with its application. -/
def pibtPass (p : MovementPass S Tag n) (elapsed : Fin n → ℕ) :
    Option (PibtScratch n × MovementPass S Tag n × (Fin n → ℕ)) :=
  let elapsed := fun i => tickElapsed (p.agents i) (elapsed i)
  (pibtDecided p.world.world cls fields p.agents options rank elapsed p.stats).map fun s =>
    (s, applyPibtMoves fields routes mask s p elapsed)

/-- The passes of a call: a pass that moves nobody ends it. -/
def pibtPasses : ℕ → MovementPass S Tag n → (Fin n → ℕ) →
    Option (MovementPass S Tag n × (Fin n → ℕ))
  | 0, p, elapsed => some (p, elapsed)
  | steps + 1, p, elapsed =>
    match pibtPass cls fields routes options rank mask p elapsed with
    | none => none
    | some (_, next, elapsed) =>
      if next.stats.frame.advanced = p.stats.frame.advanced then some (next, elapsed)
      else pibtPasses steps next elapsed

/-- `advance_path_agents_with_pibt`. -/
def advanceWithPibt (advance : PathAgentAdvanceOptions) (p : MovementPass S Tag n)
    (elapsed : Fin n → ℕ) : Option (MovementPass S Tag n × (Fin n → ℕ)) :=
  pibtPasses cls fields routes options rank advance.movementDirtyMask advance.maxSteps
    { p with stats := {} } elapsed

end Application

end Tess
