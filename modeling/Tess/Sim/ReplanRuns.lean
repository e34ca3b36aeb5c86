import Tess.Sim.ReplanDrain

/-!
# Runs of the replan queue

The owner of a replan queue makes requests, pops and clears, and drains it, in any order.

* `runReplanCalls` : a run of calls on a new queue, with what was accepted and what left;
* `ReplanHistory.Sound` : the marks are the members, and first in, first out;
* `replanRun_spec` : **every run is sound**, unless a request is for the largest index;
* `replanRun_largest` : there the size of the marks overflows.
-/

namespace Tess

/-! ### Runs of calls -/

/-- A call of the queue's owner. -/
inductive ReplanCall
  /-- `request`. -/
  | request (index : BitVec 64) (agent : PathAgentState)
  /-- `request_all`. -/
  | requestAll (agents : List PathAgentState)
  /-- `pop_front`. -/
  | popFront
  /-- `clear`. -/
  | clear
  /-- `process_path_agent_replans`. -/
  | drain (agents : List PathAgentState) (routes : List (List Coord3)) (maxRequests : ℕ)
      (search : ReplanSearch) (accounting : Option FlowAccounting)

/-- How an accepted index left the queue. -/
inductive ReplanDeparture
  /-- By `pop_front`. -/
  | popped (index : ℕ)
  /-- By `clear`. -/
  | cleared (index : ℕ)
  /-- In a pass of a drain. -/
  | drained (visit : ReplanVisit)
  deriving DecidableEq, Repr

namespace ReplanDeparture

/-- The index that left. -/
def index : ReplanDeparture → ℕ
  | .popped index => index
  | .cleared index => index
  | .drained visit => visit.index

/-- An index that left in a drain was searched, arrived or dropped, as its agent asks. -/
def Justified : ReplanDeparture → Prop
  | .popped _ | .cleared _ => True
  | .drained visit => visit.leaves = true ∧ visit.Justified

end ReplanDeparture

/-- The queue with what it accepted and what left it. -/
structure ReplanHistory where
  /-- Queue. -/
  queue : PathAgentReplanQueue := {}
  /-- Accepted requests, in order. -/
  accepted : List ℕ := []
  /-- Departures, in order. -/
  left : List ReplanDeparture := []
  deriving DecidableEq, Repr

/-- One call; `none` where the code reads past an array or a drain does not end. -/
def ReplanCall.exec (h : ReplanHistory) : ReplanCall → Option ReplanHistory
  | .request index agent =>
    (h.queue.request index.toNat agent).map fun r =>
      { h with
        queue := r.2
        accepted := h.accepted ++ (if r.1 then [index.toNat] else []) }
  | .requestAll agents =>
    (h.queue.requestAll agents).map fun r =>
      { h with queue := r.2, accepted := h.accepted ++ r.1 }
  | .popFront =>
    h.queue.popFront.map fun queue =>
      { h with
        queue := queue
        left := h.left ++ h.queue.front.toList.map .popped }
  | .clear =>
    h.queue.clear.map fun queue =>
      { h with
        queue := queue
        left := h.left ++ h.queue.window.map .cleared }
  | .drain agents routes maxRequests search accounting =>
    (processPathAgentReplans h.queue.pending agents routes h.queue maxRequests search
      accounting).map fun r =>
        { h with
          queue := r.2.queue
          left := h.left ++ (r.2.visits.filter ReplanVisit.leaves).map .drained }

/-- A run of calls on a new queue. -/
def runReplanCalls (calls : List ReplanCall) : Option ReplanHistory :=
  calls.foldlM ReplanCall.exec {}

/-- No request that counts is for the largest index, and spans have a 64-bit size. -/
def ReplanCall.InRange : ReplanCall → Prop
  | .request index agent => pathAgentGoalOutstanding agent = true → index ≠ BitVec.allOnes 64
  | .requestAll agents => agents.length < 2 ^ 64
  | .popFront | .clear | .drain .. => True

/-- **What holds of the queue after every run.** -/
structure ReplanHistory.Sound (h : ReplanHistory) : Prop where
  /-- The marks are the members of the live window, each there once. -/
  marked : h.queue.Marked
  /-- First in, first out: what was accepted is what left, in that order, and then the window. -/
  order : h.accepted = h.left.map ReplanDeparture.index ++ h.queue.window
  /-- What left in a drain was searched once, arrived or dropped, as its agent asked. -/
  justified : ∀ d ∈ h.left, d.Justified

section Runs

variable {h h' : ReplanHistory} {c : ReplanCall} {calls : List ReplanCall}

theorem ReplanHistory.sound_empty : ReplanHistory.Sound {} where
  marked := PathAgentReplanQueue.marked_empty
  order := rfl
  justified := fun _ hd => by cases hd

/-- **One call** keeps the history sound. -/
theorem ReplanHistory.Sound.exec (h : ReplanHistory) (hs : h.Sound) (hc : c.InRange) :
    ∃ h', c.exec h = some h' ∧ h'.Sound := by
  cases c with
  | request index agent =>
    have hi : agent.hasGoal = true → agent.phase ≠ .unreachable → index.toNat + 1 < 2 ^ 64 := by
      intro hgoal hphase
      have hne := hc (by simp [pathAgentGoalOutstanding, hgoal, hphase])
      have hlt := index.isLt
      have : index.toNat ≠ 2 ^ 64 - 1 := fun heq => hne (BitVec.eq_of_toNat_eq heq)
      omega
    obtain ⟨b, q, hreq, hq, hw, -⟩ := PathAgentReplanQueue.request_spec hs.marked hi
    refine ⟨⟨q, h.accepted ++ (if b then [index.toNat] else []), h.left⟩,
      by rw [ReplanCall.exec, hreq, Option.map_some], hq, ?_, hs.justified⟩
    simp only [hw, ← List.append_assoc, ← hs.order]
  | requestAll agents =>
    obtain ⟨accepted, q, hreq, hq, hw⟩ := PathAgentReplanQueue.requestAll_spec hs.marked hc
    refine ⟨⟨q, h.accepted ++ accepted, h.left⟩,
      by rw [ReplanCall.exec, hreq, Option.map_some], hq, ?_, hs.justified⟩
    simp only [hw, ← List.append_assoc, ← hs.order]
  | popFront =>
    cases hw : h.queue.window with
    | nil =>
      have hempty := (PathAgentReplanQueue.empty_iff hs.marked).2 hw
      refine ⟨h, ?_, hs⟩
      rw [ReplanCall.exec, PathAgentReplanQueue.popFront_empty hs.marked hw, Option.map_some,
        PathAgentReplanQueue.front, if_pos hempty]
      simp
    | cons index rest =>
      obtain ⟨q, hpop, hq, hrest⟩ := PathAgentReplanQueue.popFront_spec hs.marked hw
      refine ⟨_, by rw [ReplanCall.exec, hpop, Option.map_some], hq, ?_, ?_⟩
      · rw [hs.order, hw, hrest, (PathAgentReplanQueue.front_of_window hw).1]
        simp [ReplanDeparture.index]
      · intro d hd
        rw [List.mem_append, List.mem_map] at hd
        rcases hd with hd | ⟨i, -, rfl⟩
        · exact hs.justified d hd
        · trivial
  | clear =>
    obtain ⟨q, hclear, hq, hnil⟩ := PathAgentReplanQueue.clear_spec hs.marked
    refine ⟨_, by rw [ReplanCall.exec, hclear, Option.map_some], hq, ?_, ?_⟩
    · rw [hs.order, hnil, List.map_append, List.map_map, List.append_nil]
      congr 1
      exact (List.map_id _).symm
    · intro d hd
      rw [List.mem_append, List.mem_map] at hd
      rcases hd with hd | ⟨i, -, rfl⟩
      · exact hs.justified d hd
      · trivial
  | drain agents routes maxRequests search accounting =>
    obtain ⟨threw, s, hrun, hd, -⟩ := processPathAgentReplans_spec agents routes maxRequests search
      accounting hs.marked le_rfl
    refine ⟨_, by rw [ReplanCall.exec, hrun, Option.map_some], hd.marked, ?_, ?_⟩
    · have horder : h.queue.window = served s.visits ++ s.queue.window := hd.order
      rw [hs.order, horder, List.map_append, List.map_map, List.append_assoc]
      rfl
    · intro d hmem
      rw [List.mem_append, List.mem_map] at hmem
      rcases hmem with hmem | ⟨v, hv, rfl⟩
      · exact hs.justified d hmem
      · rw [List.mem_filter] at hv
        exact ⟨hv.2, hd.justified v hv.1⟩

/-- A run of calls within range is defined and sound. -/
theorem run_sound (calls : List ReplanCall) :
    ∀ {h : ReplanHistory}, h.Sound → (∀ c ∈ calls, c.InRange) →
      ∃ h', calls.foldlM ReplanCall.exec h = some h' ∧ h'.Sound := by
  induction calls with
  | nil => exact fun hs _ => ⟨_, rfl, hs⟩
  | cons c calls ih =>
    intro h hs hcalls
    obtain ⟨h₁, hexec, hs₁⟩ := ReplanHistory.Sound.exec h hs (hcalls c List.mem_cons_self)
    obtain ⟨h₂, hrun, hs₂⟩ := ih hs₁ fun c hc => hcalls c (List.mem_cons_of_mem _ hc)
    exact ⟨h₂, by rw [List.foldlM_cons, hexec]; exact hrun, hs₂⟩

/-- **The replan queue**: after every run of calls whose requests stay below the largest index the
marks are the live window, the indices have left in the order of their acceptance and for a reason,
and any drain then ends within its budget, leaving the item, the agent and the route of a search
that throws as they were. -/
theorem replanRun_spec (hcalls : ∀ c ∈ calls, c.InRange) :
    ∃ h, runReplanCalls calls = some h ∧ h.Sound ∧
      ∀ fuel agents routes maxRequests search accounting, h.queue.pending ≤ fuel →
        ∃ threw s, processPathAgentReplans fuel agents routes h.queue maxRequests search
            accounting = some (threw, s) ∧
          ReplanDrained search maxRequests (ReplanPass.start agents routes h.queue accounting) s ∧
          (if threw then Threw s
            else (∀ v ∈ s.visits, v.leaves = true) ∧
              (s.queue.window = [] ∨ searches s.visits = maxRequests)) := by
  obtain ⟨h, hrun, hs⟩ := run_sound calls ReplanHistory.sound_empty hcalls
  exact ⟨h, hrun, hs, fun _ agents routes maxRequests search accounting =>
    processPathAgentReplans_spec agents routes maxRequests search accounting hs.marked⟩

/-- An agent with a goal to go to, refused by no queue. -/
def waitingAgent : PathAgentState := setPathAgentGoal {} ⟨1, 0, 0⟩

/-- A run with two requests, a search that throws, a second drain and a request for a span. -/
theorem replanRun_spec_throwing :
    ∃ h, runReplanCalls [.request 0 waitingAgent, .request 5 waitingAgent,
        .drain [waitingAgent] [] 1 (fun _ _ _ => none) none,
        .drain [waitingAgent] [] 4 (fun _ _ _ => some { status := .found }) none,
        .requestAll [waitingAgent, {}], .popFront, .clear] = some h ∧ h.Sound ∧
      ∀ fuel agents routes maxRequests search accounting, h.queue.pending ≤ fuel →
        ∃ threw s, processPathAgentReplans fuel agents routes h.queue maxRequests search
            accounting = some (threw, s) ∧
          ReplanDrained search maxRequests (ReplanPass.start agents routes h.queue accounting) s ∧
          (if threw then Threw s
            else (∀ v ∈ s.visits, v.leaves = true) ∧
              (s.queue.window = [] ∨ searches s.visits = maxRequests)) :=
  replanRun_spec (by simp [ReplanCall.InRange])

/-- **The largest index**: its mark would need a size of `2 ^ 64`, which is `0`, and the read after
the resize is past the marks. -/
theorem request_largest {q : PathAgentReplanQueue} {agent : PathAgentState}
    (hq : q.queued.length < 2 ^ 64) (hgoal : pathAgentGoalOutstanding agent = true) :
    (q.grow (2 ^ 64 - 1)).queued = [] ∧ q.request (2 ^ 64 - 1) agent = none := by
  have hgrow : (q.grow (2 ^ 64 - 1)).queued = [] := by
    rw [PathAgentReplanQueue.grow, if_pos (by omega)]
    simp [resizeMarks]
  have hset : agent.hasGoal = true ∧ agent.phase ≠ .unreachable := by
    simpa [pathAgentGoalOutstanding] using hgoal
  refine ⟨hgrow, ?_⟩
  rw [PathAgentReplanQueue.request]
  simp only [hset.1, Bool.not_true, Bool.false_or, beq_iff_eq, hset.2, if_false, hgrow,
    List.getElem?_nil]

/-- A request for the largest index resets the mark of an index that waits, and reads past the
marks. -/
theorem replanRun_largest :
    (∃ h, runReplanCalls [.request 0 waitingAgent] = some h ∧ 0 ∈ h.queue.window ∧
      (h.queue.grow (2 ^ 64 - 1)).contains 0 = false) ∧
    ¬ ∀ calls, ∃ h, runReplanCalls calls = some h ∧ h.Sound := by
  have hfirst : ReplanCall.exec {} (.request 0 waitingAgent) =
      some ⟨⟨[0], [true], 0⟩, [0], []⟩ := by decide
  have hlast := @request_largest ⟨[0], [true], 0⟩ waitingAgent (by decide) (by decide)
  refine ⟨⟨⟨⟨[0], [true], 0⟩, [0], []⟩, ?_, by decide, ?_⟩, fun hall => ?_⟩
  · rw [runReplanCalls, List.foldlM_cons, hfirst]
    rfl
  · rw [PathAgentReplanQueue.contains, hlast.1]
    rfl
  · obtain ⟨h, hh, -⟩ := hall [.request 0 waitingAgent, .request (BitVec.allOnes 64) waitingAgent]
    rw [runReplanCalls, List.foldlM_cons, hfirst, Option.bind_eq_bind, Option.bind_some,
      List.foldlM_cons, ReplanCall.exec, BitVec.toNat_allOnes, hlast.2] at hh
    cases hh

end Runs

end Tess
