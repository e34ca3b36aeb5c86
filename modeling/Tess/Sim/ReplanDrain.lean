import Tess.Sim.ReplanQueue

/-!
# Draining the replan queue

A drain serves the front of the replan queue until the queue is empty or the budget of searches is
spent.  An item whose agent has no outstanding goal is dropped, one whose agent stands on its goal
arrives, and the others are searched.  The search belongs to the caller, and may throw.

* `drainReplans`, `processPathAgentReplans` : the loop, with fuel;
* `ReplanDrained` : what a drain has done since its start, pass by pass;
* `replanFront_spec` : one pass takes the front out, or stops at a throwing search;
* `processPathAgentReplans_spec` : **a drain ends**, within its budget.
-/

namespace Tess

/-! ### The drain -/

/-- What became of the item at the front in one pass of the drain loop. -/
inductive ReplanOutcome
  /-- The agent is out of range, goalless or unreachable. -/
  | dropped
  /-- The agent stands on its goal. -/
  | arrived
  /-- A search answered. -/
  | searched (result : PathResult)
  /-- The search threw. -/
  | threw
  deriving DecidableEq, Repr

/-- One pass of the drain loop: the item, its agent as the pass found it, and the outcome. -/
structure ReplanVisit where
  /-- Item at the front. -/
  index : ℕ
  /-- Its agent, when in range. -/
  agent : Option PathAgentState
  /-- What became of it. -/
  outcome : ReplanOutcome
  deriving DecidableEq, Repr

/-- State of the drain loop, with the passes so far. -/
structure ReplanPass where
  /-- Span of agents. -/
  agents : List PathAgentState
  /-- Retained routes, paired with the span. -/
  routes : List (List Coord3)
  /-- Queue that is drained. -/
  queue : PathAgentReplanQueue
  /-- Accountant of the goals, if attached. -/
  accounting : Option FlowAccounting := none
  /-- Counts of this drain. -/
  stats : PathAgentFrameStats := {}
  /-- Passes of the loop so far, in order. -/
  visits : List ReplanVisit := []
  deriving DecidableEq

/-- A caller's search: what its n-th call in a drain answers, `none` where it throws. -/
abbrev ReplanSearch := ℕ → ℕ → PathRequest → Option PathResult

/-- `PathAgentRoutes::ensure_size`. -/
def ensureRoutes (routes : List (List Coord3)) (count : ℕ) : List (List Coord3) :=
  routes ++ List.replicate (count - routes.length) []

/-- The agent after its search. -/
def applyReplan (agent : PathAgentState) (result : PathResult) : PathAgentState :=
  if result.status = .found then
    { agent with
      pathIndex := 0
      lastResult := some .found
      phase := .following
      blockedRetries := if agent.phase = .blocked then agent.blockedRetries else 0 }
  else
    { agent with pathIndex := 0, lastResult := some result.status, phase := .blocked }

/-- The retained route after the search. -/
def replannedRoute (result : PathResult) : List Coord3 :=
  if result.status = .found then result.path else []

/-- The counts after the search. -/
def countReplan (stats : PathAgentFrameStats) (result : PathResult) : PathAgentFrameStats :=
  recordPathAgentStatus
    { stats with
      submitted := stats.submitted + 1
      completed := stats.completed + 1
      expandedNodes := stats.expandedNodes + result.expandedNodes } result.status

/-- One pass of the drain loop over the front item; the flag says that the search threw. -/
def replanFront (search : ReplanSearch) (index : ℕ) (s : ReplanPass) :
    Option (Bool × ReplanPass) :=
  match s.agents[index]? with
  | none =>
    s.queue.popFront.map fun queue =>
      (false, { s with queue := queue, visits := s.visits ++ [⟨index, none, .dropped⟩] })
  | some agent =>
    if !agent.hasGoal || agent.phase == .unreachable then
      s.queue.popFront.map fun queue =>
        (false, { s with queue := queue, visits := s.visits ++ [⟨index, some agent, .dropped⟩] })
    else if agent.position = agent.goal then
      let ended := arrivePathAgent agent s.accounting
      s.queue.popFront.map fun queue =>
        (false,
          { agents := s.agents.set index ended.1
            routes := s.routes.set index []
            queue := queue
            accounting := ended.2
            stats := { s.stats with arrived := s.stats.arrived + 1 }
            visits := s.visits ++ [⟨index, some agent, .arrived⟩] })
    else
      match search s.stats.submitted index ⟨agent.position, agent.goal⟩ with
      | none => some (true, { s with visits := s.visits ++ [⟨index, some agent, .threw⟩] })
      | some result =>
        s.queue.popFront.map fun queue =>
          (false,
            { s with
              agents := s.agents.set index (applyReplan agent result)
              routes := s.routes.set index (replannedRoute result)
              queue := queue
              stats := countReplan s.stats result
              visits := s.visits ++ [⟨index, some agent, .searched result⟩] })

/-- The drain loop, with fuel; `none` where the fuel is spent. -/
def drainReplans (search : ReplanSearch) (maxRequests : ℕ) :
    ℕ → ReplanPass → Option (Bool × ReplanPass)
  | 0, s =>
    if s.queue.empty = false ∧ s.stats.submitted < maxRequests then none else some (false, s)
  | fuel + 1, s =>
    if s.queue.empty = false ∧ s.stats.submitted < maxRequests then
      match s.queue.front with
      | none => some (false, s)
      | some index =>
        match replanFront search index s with
        | none => none
        | some (true, s) => some (true, s)
        | some (false, s) => drainReplans search maxRequests fuel s
    else some (false, s)

/-- The state in which the drain loop starts. -/
def ReplanPass.start (agents : List PathAgentState) (routes : List (List Coord3))
    (queue : PathAgentReplanQueue) (accounting : Option FlowAccounting) : ReplanPass :=
  { agents := agents
    routes := ensureRoutes routes agents.length
    queue := queue
    accounting := accounting }

/-- `process_path_agent_replans`; the flag says that the search threw. -/
def processPathAgentReplans (fuel : ℕ) (agents : List PathAgentState) (routes : List (List Coord3))
    (queue : PathAgentReplanQueue) (maxRequests : ℕ) (search : ReplanSearch)
    (accounting : Option FlowAccounting) : Option (Bool × ReplanPass) :=
  drainReplans search maxRequests fuel (ReplanPass.start agents routes queue accounting)

/-! ### What a drain has done -/

namespace ReplanVisit

/-- The pass called the search. -/
def calls (v : ReplanVisit) : Bool :=
  match v.outcome with
  | .searched _ | .threw => true
  | .dropped | .arrived => false

/-- The pass took its item out of the queue. -/
def leaves (v : ReplanVisit) : Bool := v.outcome != .threw

/-- **Why the item was treated so**: dropped without an outstanding goal, arrived on the goal,
searched for an outstanding goal elsewhere. -/
def Justified (v : ReplanVisit) : Prop :=
  match v.outcome with
  | .dropped => ∀ agent, v.agent = some agent → pathAgentGoalOutstanding agent = false
  | .arrived => ∃ agent, v.agent = some agent ∧ pathAgentGoalOutstanding agent = true ∧
      agent.position = agent.goal
  | .searched _ | .threw => ∃ agent, v.agent = some agent ∧
      pathAgentGoalOutstanding agent = true ∧ agent.position ≠ agent.goal

/-- The outcome is what the n-th call of the search gave. -/
def Answered (search : ReplanSearch) (n : ℕ) (v : ReplanVisit) : Prop :=
  ∀ agent, v.agent = some agent →
    match v.outcome with
    | .searched result => search n v.index ⟨agent.position, agent.goal⟩ = some result
    | .threw => search n v.index ⟨agent.position, agent.goal⟩ = none
    | .dropped | .arrived => True

/-- The agent after the pass. -/
def agentAfter (v : ReplanVisit) : Option PathAgentState :=
  match v.outcome with
  | .arrived => v.agent.map clearPathAgentGoal
  | .searched result => v.agent.map (applyReplan · result)
  | .dropped | .threw => v.agent

/-- The route after the pass, given the one before. -/
def routeAfter (v : ReplanVisit) (route : Option (List Coord3)) : Option (List Coord3) :=
  match v.outcome with
  | .arrived => some []
  | .searched result => some (replannedRoute result)
  | .dropped | .threw => route

end ReplanVisit

/-- The items that the passes took out of the queue, in order. -/
def served (visits : List ReplanVisit) : List ℕ :=
  (visits.filter ReplanVisit.leaves).map ReplanVisit.index

/-- How often the passes called the search. -/
def searches (visits : List ReplanVisit) : ℕ := visits.countP ReplanVisit.calls

/-- **What a drain has done** since its start, pass by pass. -/
structure ReplanDrained (search : ReplanSearch) (maxRequests : ℕ) (start s : ReplanPass) :
    Prop where
  /-- The marks of the queue are its members. -/
  marked : s.queue.Marked
  /-- The items served are the first of the queue, in its order. -/
  order : start.queue.window = served s.visits ++ s.queue.window
  /-- Every item was treated as its agent asks. -/
  justified : ∀ v ∈ s.visits, v.Justified
  /-- The outcomes are the answers of the successive calls of the search. -/
  answered : ∀ (k : ℕ) (v : ReplanVisit), s.visits[k]? = some v →
    v.Answered search (searches (s.visits.take k))
  /-- The budget bounds the calls of the search, a throwing one included. -/
  budget : searches s.visits ≤ maxRequests
  /-- Each item meets the agent of the start and leaves it as its outcome says. -/
  settled : ∀ v ∈ s.visits, v.agent = start.agents[v.index]? ∧
    s.agents[v.index]? = v.agentAfter ∧
    s.routes[v.index]? = v.routeAfter start.routes[v.index]?
  /-- The agents and routes of all other indices stay. -/
  others : ∀ i, i ∉ served s.visits →
    s.agents[i]? = start.agents[i]? ∧ s.routes[i]? = start.routes[i]?
  /-- Every agent has its route. -/
  paired : s.agents.length ≤ s.routes.length

section Drain

variable {search : ReplanSearch} {maxRequests index : ℕ} {start s s' : ReplanPass}
  {v : ReplanVisit} {visits : List ReplanVisit} {rest : List ℕ} {agent : PathAgentState}

theorem served_snoc : served (visits ++ [v]) =
    served visits ++ (if v.leaves then [v.index] else []) := by
  cases h : v.leaves <;> simp [served, List.filter_append, h]

theorem searches_snoc :
    searches (visits ++ [v]) = searches visits + (if v.calls then 1 else 0) := by
  cases h : v.calls <;> simp [searches, h]

/-- **One more pass** over the item at the front. -/
theorem ReplanDrained.snoc (h : ReplanDrained search maxRequests start s)
    (hn : start.queue.window.Nodup)
    (hleft : ∀ w ∈ s.visits, w.leaves = true) (hw : s.queue.window = v.index :: rest)
    (hv : v.agent = s.agents[v.index]?) (hjust : v.Justified)
    (hans : v.Answered search (searches s.visits))
    (hbudget : v.calls = true → searches s.visits < maxRequests)
    (hmarked : s'.queue.Marked)
    (hwindow : s'.queue.window = if v.leaves then rest else v.index :: rest)
    (hvisits : s'.visits = s.visits ++ [v])
    (hagents : ∀ i, s'.agents[i]? = if i = v.index then v.agentAfter else s.agents[i]?)
    (hroutes : ∀ i, s'.routes[i]? =
      if i = v.index then v.routeAfter s.routes[i]? else s.routes[i]?)
    (hpaired : s'.agents.length ≤ s'.routes.length) :
    ReplanDrained search maxRequests start s' := by
  have hfresh : v.index ∉ served s.visits := by
    have hn' := hn
    rw [h.order, hw] at hn'
    exact fun hmem => (List.nodup_append.1 hn').2.2 _ hmem _ List.mem_cons_self rfl
  have hstart := h.others _ hfresh
  refine ⟨hmarked, ?_, ?_, ?_, ?_, ?_, ?_, hpaired⟩
  · rw [hvisits, served_snoc, hwindow, h.order, hw]
    split_ifs <;> simp
  · intro w hmem
    rw [hvisits, List.mem_append, List.mem_singleton] at hmem
    rcases hmem with hmem | rfl
    · exact h.justified w hmem
    · exact hjust
  · intro k w hk
    rw [hvisits] at hk ⊢
    by_cases hlt : k < s.visits.length
    · rw [List.getElem?_append_left hlt] at hk
      rw [List.take_append_of_le_length hlt.le]
      exact h.answered k w hk
    · have hlen := (List.getElem?_eq_some_iff.1 hk).1
      rw [List.length_append, List.length_singleton] at hlen
      have hkeq : k = s.visits.length := by omega
      subst hkeq
      rw [List.getElem?_concat_length, Option.some.injEq] at hk
      subst hk
      rw [List.take_left]
      exact hans
  · rw [hvisits, searches_snoc]
    split_ifs with hcalls
    · exact hbudget hcalls
    · exact h.budget
  · intro w hmem
    rw [hvisits, List.mem_append, List.mem_singleton] at hmem
    rcases hmem with hmem | rfl
    · -- an earlier item is another one
      have hne : w.index ≠ v.index := by
        rintro heq
        refine hfresh (heq ▸ ?_)
        exact List.mem_map_of_mem (List.mem_filter.2 ⟨hmem, hleft w hmem⟩)
      rw [hagents, hroutes, if_neg hne, if_neg hne]
      exact h.settled w hmem
    · rw [hagents, hroutes, if_pos rfl, if_pos rfl, hstart.2, ← hstart.1]
      exact ⟨hv, rfl, rfl⟩
  · intro i hi
    rw [hvisits, served_snoc, List.mem_append, not_or] at hi
    rw [hagents, hroutes]
    by_cases heq : i = v.index
    · subst heq
      have hstay : v.outcome = .threw := by
        by_contra hne
        have : v.leaves = true := by simpa [ReplanVisit.leaves] using hne
        simp [this] at hi
      simp only [if_true, ReplanVisit.agentAfter, ReplanVisit.routeAfter, hstay, hv]
      exact hstart
    · rw [if_neg heq, if_neg heq]
      exact h.others i hi.1

/-- **The drain between two passes.** -/
structure DrainInv (search : ReplanSearch) (maxRequests : ℕ) (start s : ReplanPass) : Prop
    extends ReplanDrained search maxRequests start s where
  /-- Every item visited so far has left. -/
  left : ∀ v ∈ s.visits, v.leaves = true
  /-- The searches are counted. -/
  submitted : s.stats.submitted = searches s.visits

/-- The drain has stopped at a search that threw: its item is still at the front. -/
structure Threw (s : ReplanPass) : Prop where
  /-- The last pass threw, the others left. -/
  last : ∃ before v, s.visits = before ++ [v] ∧ v.outcome = .threw ∧
    (∀ w ∈ before, w.leaves = true) ∧ s.queue.front = some v.index

/-- Setting one entry, read back. -/
theorem getElem?_set_of_lt {α : Type*} {xs : List α} {k : ℕ} {x : α} (hk : k < xs.length)
    (i : ℕ) : (xs.set k x)[i]? = if i = k then some x else xs[i]? := by
  rw [List.getElem?_set]
  by_cases h : k = i
  · subst h
    simp [hk]
  · rw [if_neg h, if_neg (Ne.symm h)]

@[simp] theorem submitted_recordPathAgentStatus {stats : PathAgentFrameStats}
    {status : PathStatus} : (recordPathAgentStatus stats status).submitted = stats.submitted := by
  cases status <;> rfl

@[simp] theorem submitted_countReplan {stats : PathAgentFrameStats} {result : PathResult} :
    (countReplan stats result).submitted = stats.submitted + 1 := by
  simp [countReplan]

/-- **One pass of the drain** takes the front out of the queue, or stops at a throwing search. -/
theorem replanFront_spec (h : DrainInv search maxRequests start s)
    (hn : start.queue.window.Nodup) (hw : s.queue.window = index :: rest)
    (hbudget : s.stats.submitted < maxRequests) :
    ∃ threw s', replanFront search index s = some (threw, s') ∧
      ReplanDrained search maxRequests start s' ∧
      (if threw then Threw s'
        else DrainInv search maxRequests start s' ∧ s'.queue.window = rest) := by
  obtain ⟨queue, hpop, hmarked, hrest⟩ := PathAgentReplanQueue.popFront_spec h.marked hw
  have hcount : searches s.visits < maxRequests := h.submitted ▸ hbudget
  -- a pass that leaves ends in the invariant
  have hleave : ∀ {v : ReplanVisit} {s' : ReplanPass}, v.leaves = true → s'.queue = queue →
      s'.visits = s.visits ++ [v] → ReplanDrained search maxRequests start s' →
      s'.stats.submitted = s.stats.submitted + (if v.calls then 1 else 0) →
      DrainInv search maxRequests start s' ∧ s'.queue.window = rest := by
    intro v s' hv hq hvisits hdrained hsub
    refine ⟨⟨hdrained, ?_, ?_⟩, hq ▸ hrest⟩
    · intro w hmem
      rw [hvisits, List.mem_append, List.mem_singleton] at hmem
      rcases hmem with hmem | rfl
      · exact h.left w hmem
      · exact hv
    · rw [hsub, hvisits, searches_snoc, h.submitted]
  rw [replanFront]
  cases hagent : s.agents[index]? with
  | none =>
    simp only [hpop, Option.map_some]
    have hd : ReplanDrained search maxRequests start
        { s with queue := queue, visits := s.visits ++ [⟨index, none, .dropped⟩] } := by
      refine h.toReplanDrained.snoc hn h.left (v := ⟨index, none, .dropped⟩) hw hagent.symm ?_ ?_ ?_
        hmarked hrest rfl ?_ ?_ h.paired
      · intro agent ha
        cases ha
      · intro agent ha
        cases ha
      · intro hc
        cases hc
      · intro i
        by_cases hi : i = index
        · rw [if_pos hi, hi, hagent]
          rfl
        · rw [if_neg hi]
      · intro i
        exact (ite_self _).symm
    exact ⟨false, _, rfl, hd, hleave rfl rfl rfl hd rfl⟩
  | some agent =>
    have hlt : index < s.agents.length := (List.getElem?_eq_some_iff.1 hagent).1
    have hltr : index < s.routes.length := hlt.trans_le h.paired
    by_cases hgoal : pathAgentGoalOutstanding agent = true
    swap
    · have hrefuse : (!agent.hasGoal || agent.phase == .unreachable) = true := by
        revert hgoal
        simp only [pathAgentGoalOutstanding]
        cases agent.hasGoal <;> simp
      simp only [hrefuse, if_true, hpop, Option.map_some]
      have hd : ReplanDrained search maxRequests start
          { s with queue := queue, visits := s.visits ++ [⟨index, some agent, .dropped⟩] } := by
        refine h.toReplanDrained.snoc hn h.left (v := ⟨index, some agent, .dropped⟩) hw
          hagent.symm ?_ ?_ ?_ hmarked hrest rfl ?_ ?_ h.paired
        · intro a ha
          cases ha
          simpa using hgoal
        · intro a ha
          trivial
        · intro hc
          cases hc
        · intro i
          by_cases hi : i = index
          · rw [if_pos hi, hi, hagent]
            rfl
          · rw [if_neg hi]
        · intro i
          exact (ite_self _).symm
      exact ⟨false, _, rfl, hd, hleave rfl rfl rfl hd rfl⟩
    have hset : agent.hasGoal = true ∧ agent.phase ≠ .unreachable := by
      simpa [pathAgentGoalOutstanding] using hgoal
    have hrefuse : (!agent.hasGoal || agent.phase == .unreachable) = false := by
      simp [hset.1, hset.2]
    simp only [hrefuse, Bool.false_eq_true, if_false]
    by_cases hat : agent.position = agent.goal
    · simp only [if_pos hat, hpop, Option.map_some]
      have hd : ReplanDrained search maxRequests start
          { agents := s.agents.set index (arrivePathAgent agent s.accounting).1
            routes := s.routes.set index []
            queue := queue
            accounting := (arrivePathAgent agent s.accounting).2
            stats := { s.stats with arrived := s.stats.arrived + 1 }
            visits := s.visits ++ [⟨index, some agent, .arrived⟩] } := by
        refine h.toReplanDrained.snoc hn h.left (v := ⟨index, some agent, .arrived⟩) hw
          hagent.symm ⟨agent, rfl, hgoal, hat⟩ ?_ ?_ hmarked hrest rfl (getElem?_set_of_lt hlt)
          (getElem?_set_of_lt hltr) ?_
        · intro a ha
          trivial
        · intro hc
          cases hc
        · simpa only [List.length_set] using h.paired
      exact ⟨false, _, rfl, hd, hleave rfl rfl rfl hd rfl⟩
    simp only [if_neg hat]
    cases hsearch : search s.stats.submitted index ⟨agent.position, agent.goal⟩ with
    | none =>
      refine ⟨true, _, rfl, ?_, ?_⟩
      · refine h.toReplanDrained.snoc hn h.left (v := ⟨index, some agent, .threw⟩) hw hagent.symm
          ⟨agent, rfl, hgoal, hat⟩ ?_ (fun _ => hcount) h.marked hw rfl ?_ ?_ h.paired
        · intro a ha
          cases ha
          rw [← h.submitted]
          exact hsearch
        · intro i
          by_cases hi : i = index
          · rw [if_pos hi, hi, hagent]
            rfl
          · rw [if_neg hi]
        · intro i
          exact (ite_self _).symm
      · rw [if_pos rfl]
        exact ⟨s.visits, _, rfl, rfl, h.left, (PathAgentReplanQueue.front_of_window hw).1⟩
    | some result =>
      simp only [hpop, Option.map_some]
      have hd : ReplanDrained search maxRequests start
          { s with
            agents := s.agents.set index (applyReplan agent result)
            routes := s.routes.set index (replannedRoute result)
            queue := queue
            stats := countReplan s.stats result
            visits := s.visits ++ [⟨index, some agent, .searched result⟩] } := by
        refine h.toReplanDrained.snoc hn h.left (v := ⟨index, some agent, .searched result⟩) hw
          hagent.symm ⟨agent, rfl, hgoal, hat⟩ ?_ (fun _ => hcount) hmarked hrest rfl
          (getElem?_set_of_lt hlt) (getElem?_set_of_lt hltr) ?_
        · intro a ha
          cases ha
          rw [← h.submitted]
          exact hsearch
        · simpa only [List.length_set] using h.paired
      exact ⟨false, _, rfl, hd, hleave rfl rfl rfl hd submitted_countReplan⟩

/-- **The drain loop ends** after at most one pass for each index that waits. -/
theorem drainReplans_spec (hn : start.queue.window.Nodup) :
    ∀ {fuel : ℕ} {s : ReplanPass}, DrainInv search maxRequests start s →
      s.queue.window.length ≤ fuel →
      ∃ threw s', drainReplans search maxRequests fuel s = some (threw, s') ∧
        ReplanDrained search maxRequests start s' ∧
        (if threw then Threw s'
          else (∀ v ∈ s'.visits, v.leaves = true) ∧
            (s'.queue.window = [] ∨ searches s'.visits = maxRequests)) := by
  intro fuel
  induction fuel with
  | zero =>
    intro s h hfuel
    have hnil : s.queue.window = [] := List.length_eq_zero_iff.1 (Nat.le_zero.1 hfuel)
    have hempty := (PathAgentReplanQueue.empty_iff h.marked).2 hnil
    refine ⟨false, s, ?_, h.toReplanDrained, h.left, Or.inl hnil⟩
    rw [drainReplans, hempty]
    simp
  | succ fuel ih =>
    intro s h hfuel
    by_cases hmore : s.queue.empty = false ∧ s.stats.submitted < maxRequests
    swap
    · refine ⟨false, s, ?_, h.toReplanDrained, h.left, ?_⟩
      · rw [drainReplans, if_neg hmore]
      · by_cases hempty : s.queue.empty = true
        · exact Or.inl ((PathAgentReplanQueue.empty_iff h.marked).1 hempty)
        · have hle : ¬ s.stats.submitted < maxRequests := fun hlt =>
            hmore ⟨Bool.eq_false_iff.2 hempty, hlt⟩
          have := h.budget
          have := h.submitted
          exact Or.inr (by omega)
    have hne : s.queue.window ≠ [] := fun hnil => by
      rw [(PathAgentReplanQueue.empty_iff h.marked).2 hnil] at hmore
      cases hmore.1
    obtain ⟨index, rest, hw⟩ := List.exists_cons_of_ne_nil hne
    obtain ⟨threw, s₁, hstep, hd, hafter⟩ := replanFront_spec h hn hw hmore.2
    rw [drainReplans, if_pos hmore, (PathAgentReplanQueue.front_of_window hw).1]
    simp only [hstep]
    cases threw with
    | true => exact ⟨true, s₁, rfl, hd, hafter⟩
    | false =>
      obtain ⟨hinv, hrest⟩ := hafter
      refine ih hinv ?_
      rw [hw, List.length_cons] at hfuel
      rw [hrest]
      omega

theorem length_ensureRoutes {routes : List (List Coord3)} {count : ℕ} :
    count ≤ (ensureRoutes routes count).length := by
  rw [ensureRoutes, List.length_append, List.length_replicate]
  omega

/-- **A drain ends** within its budget of searches, from any queue whose marks are its members. -/
theorem processPathAgentReplans_spec {fuel : ℕ} {queue : PathAgentReplanQueue}
    (agents : List PathAgentState) (routes : List (List Coord3)) (maxRequests : ℕ)
    (search : ReplanSearch) (accounting : Option FlowAccounting) (hq : queue.Marked)
    (hfuel : queue.pending ≤ fuel) :
    ∃ threw s, processPathAgentReplans fuel agents routes queue maxRequests search accounting =
        some (threw, s) ∧
      ReplanDrained search maxRequests (ReplanPass.start agents routes queue accounting) s ∧
      (if threw then Threw s
        else (∀ v ∈ s.visits, v.leaves = true) ∧
          (s.queue.window = [] ∨ searches s.visits = maxRequests)) := by
  refine drainReplans_spec hq.nodup ⟨⟨hq, rfl, ?_, ?_, Nat.zero_le _, ?_, fun _ _ => ⟨rfl, rfl⟩,
    length_ensureRoutes⟩, ?_, rfl⟩ ?_
  · intro v hv
    cases hv
  · intro k v hv
    cases hv
  · intro v hv
    cases hv
  · intro v hv
    cases hv
  · exact PathAgentReplanQueue.length_window.trans_le hfuel

end Drain

end Tess
