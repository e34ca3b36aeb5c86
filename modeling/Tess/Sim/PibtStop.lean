import Tess.Sim.PibtDecision

/-!
# When a PIBT call may stop

A call of PIBT movement ends at the first pass that moves nobody.  The passes that it leaves out
would repeat that pass as long as they decide in the same order; the order comes from counters that
grow by one in every pass, and saturate.

* `decisionOrder_spec` : the decision order is the one permutation sorted by counter and index;
* `Alike`, `Agree`, `pibtDecided_congr` : agents and buffers that decide the same;
* `Rests`, `pibtPass_again` : a pass that moves nobody, and the next one in the same order;
* `OrderKept`, `orderKept_iff` : no counter of a later agent is caught up with, and so the order
  stays;
* `pibtPassesFull` : the call without its early exit;
* `advanceWithPibt_stop` : **where a call may stop**.

A counter that saturates first is caught up with: `pibtStop_overtaken`.
-/

namespace Tess

/-! ### The decision order -/

section Order

variable {n : ℕ} {elapsed elapsed' : Fin n → ℕ} {value a b : Fin n} {l : List (Fin n)}

/-- The first agent decides before the second. -/
def Precedes (elapsed : Fin n → ℕ) (a b : Fin n) : Prop :=
  elapsed b < elapsed a ∨ elapsed a = elapsed b ∧ a < b

theorem Precedes.asymm (h : Precedes elapsed a b) : ¬ Precedes elapsed b a := by
  rintro (h' | ⟨h', hlt'⟩)
  · rcases h with h | ⟨h, hlt⟩ <;> omega
  · rcases h with h | ⟨h, hlt⟩
    · omega
    · exact absurd (hlt.trans hlt') (lt_irrefl _)

theorem perm_insertByElapsed : (insertByElapsed elapsed value l).Perm (value :: l) := by
  induction l with
  | nil => exact List.Perm.refl _
  | cons head tail ih =>
    rw [insertByElapsed]
    split_ifs
    · exact List.Perm.refl _
    · exact (ih.cons head).trans (List.Perm.swap value head tail)

/-- Inserting an agent behind those of smaller index. -/
theorem pairwise_insertByElapsed (hlt : ∀ x ∈ l, x < value) (hl : l.Pairwise (Precedes elapsed)) :
    (insertByElapsed elapsed value l).Pairwise (Precedes elapsed) := by
  induction l with
  | nil => exact List.pairwise_singleton _ _
  | cons head tail ih =>
    rw [List.pairwise_cons] at hl
    rw [insertByElapsed]
    split_ifs with h
    · refine List.pairwise_cons.2 ⟨fun x hx => ?_, List.pairwise_cons.2 hl⟩
      rcases List.mem_cons.1 hx with rfl | hx
      · exact Or.inl h
      · rcases hl.1 x hx with hx' | ⟨hx', -⟩
        · exact Or.inl (by omega)
        · exact Or.inl (by omega)
    · refine List.pairwise_cons.2 ⟨fun x hx => ?_,
        ih (fun x hx => hlt x (List.mem_cons_of_mem _ hx)) hl.2⟩
      rcases List.mem_cons.1 (perm_insertByElapsed.mem_iff.1 hx) with rfl | hx
      · rcases Nat.lt_or_eq_of_le (Nat.not_lt.1 h) with hless | heq
        · exact Or.inl hless
        · exact Or.inr ⟨heq.symm, hlt head List.mem_cons_self⟩
      · exact hl.1 x hx

/-- **The decision order** has every agent once, the longest unarrived first. -/
theorem decisionOrder_spec (elapsed : Fin n → ℕ) :
    (decisionOrder elapsed).Perm (List.finRange n) ∧
      (decisionOrder elapsed).Pairwise (Precedes elapsed) := by
  have key : ∀ (l acc : List (Fin n)), l.Pairwise (· < ·) → (∀ x ∈ acc, ∀ y ∈ l, x < y) →
      acc.Pairwise (Precedes elapsed) →
      (l.foldl (fun order i => insertByElapsed elapsed i order) acc).Perm (l ++ acc) ∧
        (l.foldl (fun order i => insertByElapsed elapsed i order) acc).Pairwise
          (Precedes elapsed) := by
    intro l
    induction l with
    | nil => exact fun acc _ _ h => ⟨List.Perm.refl _, h⟩
    | cons i l ih =>
      intro acc hl hacc h
      rw [List.pairwise_cons] at hl
      have hinserted : ∀ x ∈ insertByElapsed elapsed i acc, ∀ y ∈ l, x < y := by
        intro x hx y hy
        rcases List.mem_cons.1 (perm_insertByElapsed.mem_iff.1 hx) with rfl | hx
        · exact hl.1 y hy
        · exact hacc x hx y (List.mem_cons_of_mem _ hy)
      obtain ⟨hperm, hsorted⟩ := ih (insertByElapsed elapsed i acc) hl.2 hinserted
        (pairwise_insertByElapsed (fun x hx => hacc x hx i List.mem_cons_self) h)
      exact ⟨hperm.trans ((perm_insertByElapsed.append_left l).trans List.perm_middle), hsorted⟩
  obtain ⟨hperm, hsorted⟩ := key (List.finRange n) [] (List.pairwise_lt_finRange n)
    (fun x hx => by cases hx) List.Pairwise.nil
  exact ⟨by rwa [List.append_nil] at hperm, hsorted⟩

/-- Counters that compare alike give one order. -/
theorem decisionOrder_congr
    (h : ∀ a b : Fin n, a < b → (elapsed a < elapsed b ↔ elapsed' a < elapsed' b)) :
    decisionOrder elapsed = decisionOrder elapsed' := by
  obtain ⟨hperm, hsorted⟩ := decisionOrder_spec elapsed
  obtain ⟨hperm', hsorted'⟩ := decisionOrder_spec elapsed'
  have hsame : ∀ a b : Fin n, Precedes elapsed a b → Precedes elapsed' a b := by
    intro a b hab
    rcases lt_trichotomy a b with hlt | rfl | hlt
    · -- the first has the smaller index: it comes first unless its counter is smaller
      have hnot : ¬ elapsed' a < elapsed' b := by
        rw [← h a b hlt]
        rcases hab with hab | ⟨hab, -⟩ <;> omega
      rcases Nat.lt_or_eq_of_le (Nat.not_lt.1 hnot) with hless | heq
      · exact Or.inl hless
      · exact Or.inr ⟨heq.symm, hlt⟩
    · exact absurd hab hab.asymm
    · rcases hab with hab | ⟨-, hab⟩
      · exact Or.inl ((h b a hlt).1 hab)
      · exact absurd (hab.trans hlt) (lt_irrefl _)
  refine (hperm.trans hperm'.symm).eq_of_pairwise (fun a b _ _ hab hba => ?_)
    (hsorted.imp fun hab => hsame _ _ hab) hsorted'
  exact absurd hba hab.asymm

/-- **The order tells who comes first.** -/
theorem precedes_of_decisionOrder_eq (h : decisionOrder elapsed = decisionOrder elapsed')
    (hab : Precedes elapsed a b) : ¬ Precedes elapsed' b a := by
  obtain ⟨hperm, hsorted⟩ := decisionOrder_spec elapsed
  obtain ⟨-, hsorted'⟩ := decisionOrder_spec elapsed'
  rw [← h] at hsorted'
  obtain ⟨k, hk, hka⟩ := List.getElem_of_mem (hperm.mem_iff.2 (List.mem_finRange a))
  obtain ⟨m, hm, hmb⟩ := List.getElem_of_mem (hperm.mem_iff.2 (List.mem_finRange b))
  rw [List.pairwise_iff_getElem] at hsorted hsorted'
  rcases lt_trichotomy k m with hlt | rfl | hlt
  · have := hsorted' k m hk hm hlt
    rw [hka, hmb] at this
    exact this.asymm
  · rw [hka] at hmb
    subst hmb
    exact absurd hab hab.asymm
  · have := hsorted m k hm hk hlt
    rw [hka, hmb] at this
    exact absurd this hab.asymm

end Order

/-! ### What the decisions read -/

section Alike

variable {S : Shape} {Tag : Type*} {n : ℕ} {W : World S Tag} {cls : MovementClass S Tag}
  {fields : MovementFields Tag} {agents agents' : Fin n → PathAgentState}
  {options : JointMoveOptions} {rank : Fin n → Coord3 → ℕ} {s s' : PibtScratch n} {i : Fin n}
  {frame : PibtFrame n} {rest : List (PibtFrame n)}

/-- Agents that decide the same: phases and results of searches may differ. -/
structure Alike (agents agents' : Fin n → PathAgentState) : Prop where
  /-- Same tile. -/
  position : ∀ i, (agents' i).position = (agents i).position
  /-- Same lifecycle. -/
  outstanding : ∀ i, pathAgentGoalOutstanding (agents' i) = pathAgentGoalOutstanding (agents i)
  /-- Same retries. -/
  retries : ∀ i, (agents' i).blockedRetries = (agents i).blockedRetries

/-- Buffers that differ in their counts at most. -/
def Agree (s s' : PibtScratch n) : Prop := ∃ stats, s' = { s with stats := stats }

theorem Agree.refl (s : PibtScratch n) : Agree s s := ⟨s.stats, rfl⟩

theorem occupantIndex_congr (h : Alike agents agents') :
    occupantIndex S agents' = occupantIndex S agents := by
  simp only [occupantIndex, h.position]

theorem swapAllowed_congr (h : Alike agents agents') :
    swapAllowed agents' options = swapAllowed agents options := by
  funext i j
  simp only [swapAllowed, h.retries]

variable (W cls fields rank i) in
theorem startDeciding_congr (h : Alike agents agents') (hs : Agree s s') :
    (startDeciding W cls fields agents' rank s' i).2 =
        (startDeciding W cls fields agents rank s i).2 ∧
      Agree (startDeciding W cls fields agents rank s i).1
        (startDeciding W cls fields agents' rank s' i).1 := by
  obtain ⟨stats, rfl⟩ := hs
  simp only [startDeciding, rankedCandidates, pibtCandidates, h.position, h.outstanding]
  split_ifs
  · exact ⟨rfl, stats, rfl⟩
  · exact ⟨rfl, stats, rfl⟩
  · exact ⟨rfl, stats, rfl⟩

/-- Handing over the turn. -/
theorem handTurn_congr (h : Alike agents agents') (hs : Agree s s') :
    Agree
      (if (startDeciding W cls fields agents rank s i).2 = true then
        (startDeciding W cls fields agents rank s i).1
      else
        { (startDeciding W cls fields agents rank s i).1 with childSucceeded := false })
      (if (startDeciding W cls fields agents' rank s' i).2 = true then
        (startDeciding W cls fields agents' rank s' i).1
      else
        { (startDeciding W cls fields agents' rank s' i).1 with childSucceeded := false }) := by
  obtain ⟨hpushed, stats', hagree⟩ := startDeciding_congr W cls fields rank i h hs
  rw [hpushed]
  split_ifs
  · exact ⟨stats', hagree⟩
  · rw [hagree]
    exact ⟨stats', rfl⟩

theorem tryCandidate_congr (h : Alike agents agents') (hs : Agree s s') :
    Agree (tryCandidate W cls fields agents options rank s frame rest)
      (tryCandidate W cls fields agents' options rank s' frame rest) := by
  obtain ⟨stats, rfl⟩ := hs
  rw [tryCandidate, tryCandidate]
  simp only [h.position, swapAllowed_congr h]
  cases frame.candidates[frame.nextCandidate]? with
  | none => exact ⟨stats, rfl⟩
  | some candidate =>
    simp only
    generalize (if candidate.1 = (agents frame.agent).position then none
      else jointFindOccupant s.occupants (S.tileKey candidate.1)) = peer
    by_cases hdenied : ((peer.filter fun peer => s.desired peer =
        (agents frame.agent).position).any fun peer =>
          !swapAllowed agents options frame.agent peer) = true
    · rw [if_pos hdenied, if_pos hdenied]
      exact ⟨_, rfl⟩
    rw [if_neg hdenied, if_neg hdenied]
    cases jointClaim (S.tileKey candidate.1) s.claimed with
    | none => exact ⟨stats, rfl⟩
    | some claimed =>
      simp only
      cases peer.filter fun peer => s.state peer = .undecided with
      | none => exact ⟨_, rfl⟩
      | some u =>
        simp only
        exact handTurn_congr h ⟨_, rfl⟩

variable (W cls fields options rank) in
theorem pibtStep_congr (h : Alike agents agents') (hs : Agree s s') :
    Agree (pibtStep W cls fields agents options rank s)
      (pibtStep W cls fields agents' options rank s') := by
  obtain ⟨stats, rfl⟩ := hs
  obtain ⟨occupants, claimed, desired, state, failure, frames, child, counts, started⟩ := s
  rw [pibtStep, pibtStep]
  cases frames with
  | nil => exact ⟨stats, rfl⟩
  | cons frame rest =>
    simp only [h.position]
    split_ifs
    · exact ⟨stats, rfl⟩
    · exact tryCandidate_congr h ⟨stats, rfl⟩
    · exact tryCandidate_congr h ⟨stats, rfl⟩

/-- The loop takes the same course. -/
theorem decisionLoop_congr {fuel : ℕ} {t : PibtScratch n} (h : Alike agents agents')
    (hs : Agree s s') (ht : decisionLoop W cls fields agents options rank fuel s = some t) :
    ∃ t', decisionLoop W cls fields agents' options rank fuel s' = some t' ∧ Agree t t' := by
  induction fuel generalizing s s' with
  | zero =>
    obtain ⟨stats, rfl⟩ := hs
    obtain ⟨occupants, claimed, desired, state, failure, frames, child, counts, started⟩ := s
    unfold decisionLoop at ht ⊢
    cases frames with
    | nil => exact ⟨_, rfl, stats, by rw [← Option.some.inj ht]⟩
    | cons frame rest => cases ht
  | succ fuel ih =>
    have hstep := pibtStep_congr W cls fields options rank h hs
    obtain ⟨stats, rfl⟩ := hs
    obtain ⟨occupants, claimed, desired, state, failure, frames, child, counts, started⟩ := s
    unfold decisionLoop at ht ⊢
    cases frames with
    | nil => exact ⟨_, rfl, stats, by rw [← Option.some.inj ht]⟩
    | cons frame rest => exact ih hstep ht

theorem decideNext_congr {t : PibtScratch n} (h : Alike agents agents') (hs : Agree s s')
    (ht : decideNext W cls fields agents options rank s i = some t) :
    ∃ t', decideNext W cls fields agents' options rank s' i = some t' ∧ Agree t t' := by
  obtain ⟨hpushed, stats', hstart⟩ := startDeciding_congr W cls fields rank i h hs
  obtain ⟨stats, rfl⟩ := hs
  rw [decideNext] at ht ⊢
  simp only [h.outstanding] at ht ⊢
  split_ifs at ht ⊢
  · exact ⟨_, rfl, stats, by rw [← Option.some.inj ht]⟩
  · exact ⟨_, rfl, stats, by rw [← Option.some.inj ht]⟩
  · rw [runDecision] at ht ⊢
    simp only [hpushed, hstart] at ht ⊢
    split_ifs at ht ⊢
    · exact decisionLoop_congr h ⟨stats', rfl⟩ ht
    · exact ⟨_, rfl, stats', by rw [← Option.some.inj ht]⟩

/-- **Passes that go through the agents in one order decide the same.** -/
theorem pibtDecided_congr {elapsed elapsed' : Fin n → ℕ} {stats : JointMoveStats}
    {t : PibtScratch n} (stats' : JointMoveStats) (h : Alike agents agents')
    (horder : decisionOrder elapsed' = decisionOrder elapsed)
    (ht : pibtDecided W cls fields agents options rank elapsed stats = some t) :
    ∃ t', pibtDecided W cls fields agents' options rank elapsed' stats' = some t' ∧
      Agree t t' := by
  have key : ∀ (l : List (Fin n)) (s s' t : PibtScratch n), Agree s s' →
      l.foldlM (decideNext W cls fields agents options rank) s = some t →
        ∃ t', l.foldlM (decideNext W cls fields agents' options rank) s' = some t' ∧
          Agree t t' := by
    intro l
    induction l with
    | nil =>
      intro s s' t hs ht
      exact ⟨s', rfl, Option.some.inj ht ▸ hs⟩
    | cons i l ih =>
      intro s s' t hs ht
      rw [List.foldlM_cons] at ht
      obtain ⟨r, hr, ht⟩ := Option.bind_eq_some_iff.1 ht
      obtain ⟨r', hr', hagree⟩ := decideNext_congr h hs hr
      rw [List.foldlM_cons, hr']
      exact ih r r' t hagree ht
  rw [pibtDecided, horder]
  refine key _ _ _ t ⟨stats', ?_⟩ ht
  simp only [occupantIndex_congr h, h.position]

/-- Decisions count no moves. -/
theorem stats_startDeciding :
    (startDeciding W cls fields agents rank s i).1.stats = s.stats := by
  rw [startDeciding]
  split_ifs <;> rfl

theorem Tried.stats_frame {t : PibtScratch n}
    (h : Tried W cls fields agents options rank s frame rest t) :
    t.stats.frame = s.stats.frame := by
  cases h with
  | exhausted _ => rfl
  | skipped _ stats hstats => exact hstats
  | settled hclaim _ => exact hclaim.stats
  | handed hclaim _ _ _ =>
    rw [stats_startDeciding]
    exact hclaim.stats
  | refused hclaim _ _ _ =>
    simp only [stats_startDeciding]
    exact hclaim.stats

theorem pibtStep_stats_frame :
    (pibtStep W cls fields agents options rank s).stats.frame = s.stats.frame := by
  rw [pibtStep]
  cases s.frames with
  | nil => rfl
  | cons frame rest =>
    simp only
    split_ifs
    · rfl
    · exact tried_tryCandidate.stats_frame
    · exact tried_tryCandidate.stats_frame

theorem decisionLoop_stats_frame {fuel : ℕ} {t : PibtScratch n}
    (ht : decisionLoop W cls fields agents options rank fuel s = some t) :
    t.stats.frame = s.stats.frame := by
  induction fuel generalizing s with
  | zero =>
    unfold decisionLoop at ht
    cases hframes : s.frames with
    | nil =>
      simp only [hframes, Option.some.injEq] at ht
      rw [ht]
    | cons frame rest => simp [hframes] at ht
  | succ fuel ih =>
    unfold decisionLoop at ht
    cases hframes : s.frames with
    | nil =>
      simp only [hframes, Option.some.injEq] at ht
      rw [ht]
    | cons frame rest =>
      simp only [hframes] at ht
      exact (ih ht).trans pibtStep_stats_frame

theorem decideNext_stats_frame {t : PibtScratch n}
    (ht : decideNext W cls fields agents options rank s i = some t) :
    t.stats.frame = s.stats.frame := by
  rw [decideNext] at ht
  split_ifs at ht
  · rw [← Option.some.inj ht]
  · rw [← Option.some.inj ht]
  · rw [runDecision] at ht
    simp only at ht
    split_ifs at ht
    · rw [decisionLoop_stats_frame ht, stats_startDeciding]
    · rw [← Option.some.inj ht, stats_startDeciding]

theorem pibtDecided_stats_frame {elapsed : Fin n → ℕ} {stats : JointMoveStats}
    {t : PibtScratch n}
    (ht : pibtDecided W cls fields agents options rank elapsed stats = some t) :
    t.stats.frame = stats.frame := by
  have key : ∀ (l : List (Fin n)) (s : PibtScratch n),
      l.foldlM (decideNext W cls fields agents options rank) s = some t →
        t.stats.frame = s.stats.frame := by
    intro l
    induction l with
    | nil =>
      intro s hs
      rw [← Option.some.inj hs]
    | cons i l ih =>
      intro s hs
      rw [List.foldlM_cons] at hs
      obtain ⟨r, hr, hs⟩ := Option.bind_eq_some_iff.1 hs
      exact (ih r hs).trans (decideNext_stats_frame hr)
  exact key _ _ ht

end Alike

/-! ### Passes that move nobody -/

section Rest

variable {S : Shape} {Tag : Type*} [DecidableEq Tag] {n : ℕ} {cls : MovementClass S Tag}
  {fields : MovementFields Tag} {routes : Fin n → List Coord3} {options : JointMoveOptions}
  {rank : Fin n → Coord3 → ℕ} {mask : BitVec 32} {s : PibtScratch n}
  {p q r : MovementPass S Tag n} {elapsed elapsed' : Fin n → ℕ} {i : Fin n}

/-- The counters of a pass. -/
def tickAll (agents : Fin n → PathAgentState) (elapsed : Fin n → ℕ) (i : Fin n) : ℕ :=
  tickElapsed (agents i) (elapsed i)

/-- The agent has not moved: phase and result of the search may differ. -/
structure AgentRests (agent agent' : PathAgentState) : Prop where
  /-- Same tile. -/
  position : agent'.position = agent.position
  /-- Same place on the retained route. -/
  pathIndex : agent'.pathIndex = agent.pathIndex
  /-- Same goal. -/
  goal : agent'.goal = agent.goal
  /-- Same lifecycle. -/
  hasGoal : agent'.hasGoal = agent.hasGoal
  /-- Still under way. -/
  outstanding : pathAgentGoalOutstanding agent' = pathAgentGoalOutstanding agent
  /-- Same retries. -/
  retries : agent'.blockedRetries = agent.blockedRetries

/-- Nobody has moved, and the world is the same. -/
structure Rests (p q : MovementPass S Tag n) : Prop where
  /-- The world is the same. -/
  world : q.world = p.world
  /-- The agents have not moved. -/
  agents : ∀ i, AgentRests (p.agents i) (q.agents i)
  /-- No move was reported. -/
  committed : q.committed = p.committed
  /-- No move was counted. -/
  advanced : q.stats.frame.advanced = p.stats.frame.advanced

theorem AgentRests.refl (agent : PathAgentState) : AgentRests agent agent :=
  ⟨rfl, rfl, rfl, rfl, rfl, rfl⟩

omit [DecidableEq Tag] in
theorem Rests.refl (p : MovementPass S Tag n) : Rests p p :=
  ⟨rfl, fun i => .refl (p.agents i), rfl, rfl⟩

omit [DecidableEq Tag] in
theorem Rests.trans (h : Rests p q) (h' : Rests q r) : Rests p r where
  world := h'.world.trans h.world
  agents i :=
    { position := (h'.agents i).position.trans (h.agents i).position
      pathIndex := (h'.agents i).pathIndex.trans (h.agents i).pathIndex
      goal := (h'.agents i).goal.trans (h.agents i).goal
      hasGoal := (h'.agents i).hasGoal.trans (h.agents i).hasGoal
      outstanding := (h'.agents i).outstanding.trans (h.agents i).outstanding
      retries := (h'.agents i).retries.trans (h.agents i).retries }
  committed := h'.committed.trans h.committed
  advanced := h'.advanced.trans h.advanced

omit [DecidableEq Tag] in
theorem Rests.alike (h : Rests p q) : Alike p.agents q.agents :=
  ⟨fun i => (h.agents i).position, fun i => (h.agents i).outstanding,
    fun i => (h.agents i).retries⟩

theorem agentRests_blockPathAgent {agent : PathAgentState} {status : MovementStatus}
    (h : pathAgentGoalOutstanding agent = true) :
    AgentRests agent (blockPathAgent agent status) := by
  refine ⟨rfl, rfl, rfl, rfl, ?_, rfl⟩
  rw [h]
  simp only [pathAgentGoalOutstanding, Bool.and_eq_true] at h
  simp [pathAgentGoalOutstanding, blockPathAgent, h.1]

omit [DecidableEq Tag] in
/-- **An agent that keeps its tile rests.** -/
theorem rests_keepTile (failure : MovementStatus) : Rests p (keepTile p i failure) := by
  rw [keepTile]
  by_cases hgoal : pathAgentGoalOutstanding (p.agents i) = true
  · rw [if_pos hgoal]
    refine ⟨rfl, fun j => ?_, rfl, rfl⟩
    by_cases hji : j = i
    · subst hji
      simp only [Function.update_self]
      exact agentRests_blockPathAgent hgoal
    · simp only [Function.update_of_ne hji]
      exact .refl (p.agents j)
  · rw [if_neg hgoal]
    exact Rests.refl p

variable (fields routes mask) in
/-- Agents that decided for their own tiles rest. -/
theorem foldl_applyDecision_rests (l : List (Fin n))
    (acc : MovementPass S Tag n × (Fin n → ℕ))
    (h : ∀ i, s.desired i = (acc.1.agents i).position) :
    (l.foldl (applyDecision fields routes mask s) acc).2 = acc.2 ∧
      Rests acc.1 (l.foldl (applyDecision fields routes mask s) acc).1 := by
  induction l generalizing acc with
  | nil => exact ⟨rfl, Rests.refl acc.1⟩
  | cons i l ih =>
    have hkeep : Rests acc.1 (keepTile acc.1 i (s.failure i)) := rests_keepTile _
    have hstep : applyDecision fields routes mask s acc i =
        (keepTile acc.1 i (s.failure i), acc.2) := if_pos (h i)
    rw [List.foldl_cons, hstep]
    obtain ⟨helapsed, hrests⟩ := ih (keepTile acc.1 i (s.failure i), acc.2) fun j =>
      (h j).trans (hkeep.agents j).position.symm
    exact ⟨helapsed, hkeep.trans hrests⟩

/-- An agent that enters a tile is counted, and the others stay. -/
theorem position_enterTile {dest : Coord3} {acc : MovementPass S Tag n} :
    (enterTile fields routes mask acc elapsed i dest).1.stats.frame.advanced =
        acc.stats.frame.advanced + 1 ∧
      ∀ j, j ≠ i → (enterTile fields routes mask acc elapsed i dest).1.agents j =
        acc.agents j := by
  rw [enterTile]
  exact ⟨rfl, fun j hj => Function.update_of_ne hj _ _⟩

/-- **The moves of a pass are counted.** -/
theorem foldl_applyDecision_advanced (l : List (Fin n)) (hl : l.Nodup)
    (acc : MovementPass S Tag n × (Fin n → ℕ)) :
    (l.foldl (applyDecision fields routes mask s) acc).1.stats.frame.advanced =
      acc.1.stats.frame.advanced +
        (l.filter fun i => s.desired i ≠ (acc.1.agents i).position).length := by
  induction l generalizing acc with
  | nil => rfl
  | cons i l ih =>
    rw [List.nodup_cons] at hl
    -- the step of one agent leaves the others where they are
    have hother : ∀ j ∈ l, ((applyDecision fields routes mask s acc i).1.agents j).position =
        (acc.1.agents j).position := by
      intro j hj
      have hji : j ≠ i := fun h => hl.1 (h ▸ hj)
      rw [applyDecision]
      split_ifs
      · exact ((rests_keepTile (s.failure i)).agents j).position
      · rw [position_enterTile.2 j hji]
    have hfilter : (l.filter fun j => s.desired j ≠
        ((applyDecision fields routes mask s acc i).1.agents j).position) =
          l.filter fun j => s.desired j ≠ (acc.1.agents j).position :=
      List.filter_congr fun j hj => by rw [hother j hj]
    rw [List.foldl_cons, ih hl.2, hfilter, List.filter_cons, applyDecision]
    by_cases h : s.desired i = (acc.1.agents i).position
    · rw [if_pos h, if_neg (by simpa using h)]
      rw [(rests_keepTile (s.failure i)).advanced]
    · rw [if_neg h, if_pos (by simpa using h), position_enterTile.1, List.length_cons]
      omega

/-- Tiles that nobody leaves are not cleared. -/
theorem foldl_clearLeft (agents : Fin n → PathAgentState) (l : List (Fin n))
    (world : MovementWorld S Tag) (h : ∀ i, s.desired i = (agents i).position) :
    l.foldl (clearLeft fields s agents) world = world := by
  induction l with
  | nil => rfl
  | cons i l ih =>
    have hstep : clearLeft fields s agents world i = world :=
      if_neg (not_not.2 (h i))
    rw [List.foldl_cons, hstep, ih]

variable (fields routes mask elapsed) in
/-- **A pass whose agents decide for their own tiles rests**, counters apart. -/
theorem applyPibtMoves_rests (hframe : s.stats.frame = p.stats.frame)
    (h : ∀ i, s.desired i = (p.agents i).position) :
    (applyPibtMoves fields routes mask s p elapsed).2 = elapsed ∧
      Rests p (applyPibtMoves fields routes mask s p elapsed).1 := by
  rw [applyPibtMoves]
  simp only [foldl_clearLeft p.agents (List.finRange n) p.world h]
  obtain ⟨helapsed, hrests⟩ := foldl_applyDecision_rests fields routes mask
    (List.finRange n) ({ p with stats := s.stats }, elapsed) h
  refine ⟨helapsed, Rests.trans ?_ hrests⟩
  exact ⟨rfl, fun i => .refl (p.agents i), rfl, by rw [hframe]⟩

variable (fields routes mask elapsed) in
/-- **Where a pass moved nobody**, every agent decided for its own tile. -/
theorem desired_of_advanced (hframe : s.stats.frame = p.stats.frame)
    (h : (applyPibtMoves fields routes mask s p elapsed).1.stats.frame.advanced =
      p.stats.frame.advanced) (i : Fin n) : s.desired i = (p.agents i).position := by
  rw [applyPibtMoves] at h
  simp only [foldl_applyDecision_advanced _ (List.nodup_finRange n), hframe] at h
  by_contra hne
  have hmem : i ∈ (List.finRange n).filter fun i => s.desired i ≠ (p.agents i).position :=
    List.mem_filter.2 ⟨List.mem_finRange i, by simpa using hne⟩
  have := List.length_pos_of_mem hmem
  omega

/-- **A pass that moved nobody** leaves everything but phases, results and counters. -/
theorem rests_of_pibtPass
    (hpass : pibtPass cls fields routes options rank mask p elapsed = some (s, q, elapsed'))
    (hadvanced : q.stats.frame.advanced = p.stats.frame.advanced) :
    pibtDecided p.world.world cls fields p.agents options rank elapsed' p.stats = some s ∧
      (∀ i, s.desired i = (p.agents i).position) ∧ Rests p q ∧
        elapsed' = tickAll p.agents elapsed := by
  rw [pibtPass] at hpass
  obtain ⟨t, ht, heq⟩ := Option.map_eq_some_iff.1 hpass
  simp only [Prod.mk.injEq] at heq
  obtain ⟨rfl, hmoves⟩ := heq
  have hframe := pibtDecided_stats_frame ht
  have hmoves : applyPibtMoves fields routes mask t p (tickAll p.agents elapsed) =
      (q, elapsed') := hmoves
  have hdesired := desired_of_advanced fields routes mask (tickAll p.agents elapsed) hframe
    (by rw [hmoves]; exact hadvanced)
  obtain ⟨helapsed, hrests⟩ := applyPibtMoves_rests fields routes mask (tickAll p.agents elapsed)
    hframe hdesired
  rw [hmoves] at helapsed hrests
  have helapsed : elapsed' = tickAll p.agents elapsed := helapsed
  exact ⟨helapsed ▸ ht, hdesired, hrests, helapsed⟩

/-- **In the same order the next pass repeats it.** -/
theorem pibtPass_again
    (hpass : pibtPass cls fields routes options rank mask p elapsed = some (s, q, elapsed'))
    (hadvanced : q.stats.frame.advanced = p.stats.frame.advanced)
    (horder : decisionOrder (tickAll q.agents elapsed') = decisionOrder elapsed') :
    ∃ s' r, pibtPass cls fields routes options rank mask q elapsed' =
        some (s', r, tickAll q.agents elapsed') ∧ Rests q r := by
  obtain ⟨hdecided, hdesired, hrests, -⟩ := rests_of_pibtPass hpass hadvanced
  obtain ⟨s', hs', stats', hagree⟩ := pibtDecided_congr q.stats hrests.alike horder
    hdecided
  have hdesired' : ∀ i, s'.desired i = (q.agents i).position := fun i => by
    rw [hagree, (hrests.agents i).position]
    exact hdesired i
  obtain ⟨helapsed, hrests'⟩ := applyPibtMoves_rests fields routes mask
    (tickAll q.agents elapsed') (pibtDecided_stats_frame hs') hdesired'
  refine ⟨s', (applyPibtMoves fields routes mask s' q (tickAll q.agents elapsed')).1, ?_, hrests'⟩
  rw [← hrests.world] at hs'
  rw [pibtPass]
  change (pibtDecided q.world.world cls fields q.agents options rank (tickAll q.agents elapsed')
    q.stats).map _ = _
  rw [hs', Option.map_some]
  exact congrArg some (Prod.ext rfl (Prod.ext rfl helapsed))

/-! ### The order stays -/

omit [DecidableEq Tag] in
theorem tickAll_congr {agents agents' : Fin n → PathAgentState} (h : Alike agents agents') :
    tickAll agents' = tickAll agents := by
  funext elapsed i
  rw [tickAll, tickElapsed, h.outstanding]
  rfl

/-- No later agent in the list is caught up with, within that many passes: an earlier agent that
counts less stays below the largest counter. -/
def OrderKept (agents : Fin n → PathAgentState) (elapsed : Fin n → ℕ) (passes : ℕ) : Prop :=
  ∀ j i, j < i → pathAgentGoalOutstanding (agents j) = true →
    pathAgentGoalOutstanding (agents i) = true → elapsed j < elapsed i →
      elapsed j + passes < 2 ^ 32 - 1

/-- The counters of later passes. -/
theorem iterate_tickAll {agents : Fin n → PathAgentState} (k : ℕ) (i : Fin n) :
    (tickAll agents)^[k] (tickAll agents elapsed) i =
      if pathAgentGoalOutstanding (agents i) then
        min (tickAll agents elapsed i + k) (2 ^ 32 - 1) else 0 := by
  induction k with
  | zero =>
    rw [Function.iterate_zero_apply, tickAll, tickElapsed]
    split_ifs
    · omega
    · rfl
  | succ k ih =>
    rw [Function.iterate_succ_apply', tickAll, tickElapsed, ih]
    split_ifs
    · omega
    · rfl

/-- **The order stays exactly as long as no counter catches up.** -/
theorem orderKept_iff {agents : Fin n → PathAgentState} {passes : ℕ} :
    OrderKept agents (tickAll agents elapsed) passes ↔ ∀ k ≤ passes,
      decisionOrder ((tickAll agents)^[k] (tickAll agents elapsed)) =
        decisionOrder (tickAll agents elapsed) := by
  have hzero : ∀ i, ¬ pathAgentGoalOutstanding (agents i) = true →
      tickAll agents elapsed i = 0 := fun i hi => by rw [tickAll, tickElapsed, if_neg hi]
  have hpos : ∀ i, pathAgentGoalOutstanding (agents i) = true →
      0 < tickAll agents elapsed i ∧ tickAll agents elapsed i ≤ 2 ^ 32 - 1 := by
    intro i hi
    rw [tickAll, tickElapsed, if_pos hi]
    omega
  constructor
  · intro hkept k hk
    refine decisionOrder_congr fun a b hab => ?_
    rw [iterate_tickAll, iterate_tickAll]
    split_ifs with ha hb hb
    · have hpa := hpos a ha
      have hpb := hpos b hb
      refine ⟨fun h => by omega, fun h => ?_⟩
      have hcap := hkept a b hab ha hb h
      omega
    · have hpa := hpos a ha
      have hzb := hzero b hb
      omega
    · have hza := hzero a ha
      have hpb := hpos b hb
      omega
    · have hza := hzero a ha
      have hzb := hzero b hb
      omega
  · intro horder j i hji hj hi hlt
    by_contra hcap
    -- by the last pass both counters are the largest one, and the index decides
    refine precedes_of_decisionOrder_eq (horder passes le_rfl).symm (Or.inl hlt) (Or.inr ⟨?_, hji⟩)
    rw [iterate_tickAll, iterate_tickAll, if_pos hj, if_pos hi]
    omega

/-- What is kept for one pass more is kept after a pass. -/
theorem OrderKept.tick {agents : Fin n → PathAgentState} {passes : ℕ}
    (h : OrderKept agents elapsed (passes + 1)) :
    OrderKept agents (tickAll agents elapsed) passes := by
  intro j i hji hj hi hlt
  rw [tickAll, tickAll, tickElapsed, tickElapsed, if_pos hj, if_pos hi] at hlt
  have hcap := h j i hji hj hi (by omega)
  rw [tickAll, tickElapsed, if_pos hj]
  omega

theorem OrderKept.congr {agents agents' : Fin n → PathAgentState} {passes : ℕ}
    (hkept : OrderKept agents elapsed passes) (h : Alike agents agents') :
    OrderKept agents' elapsed passes := by
  intro j i hji hj hi hlt
  rw [h.outstanding] at hj hi
  exact hkept j i hji hj hi hlt

/-! ### The passes that a call leaves out -/

variable (cls fields routes options rank mask) in
/-- All passes of a call, whether they move somebody or not. -/
def pibtPassesFull : ℕ → MovementPass S Tag n → (Fin n → ℕ) →
    Option (MovementPass S Tag n × (Fin n → ℕ))
  | 0, p, elapsed => some (p, elapsed)
  | steps + 1, p, elapsed =>
    match pibtPass cls fields routes options rank mask p elapsed with
    | none => none
    | some (_, next, elapsed) => pibtPassesFull steps next elapsed

/-- **Further passes move nobody** while the order stays. -/
theorem pibtPassesFull_rests {passes : ℕ}
    (hpass : pibtPass cls fields routes options rank mask p elapsed = some (s, q, elapsed'))
    (hadvanced : q.stats.frame.advanced = p.stats.frame.advanced)
    (hkept : OrderKept q.agents elapsed' passes) :
    ∃ r, pibtPassesFull cls fields routes options rank mask passes q elapsed' =
        some (r, (tickAll q.agents)^[passes] elapsed') ∧ Rests q r := by
  induction passes generalizing p q s elapsed elapsed' with
  | zero => exact ⟨q, rfl, Rests.refl q⟩
  | succ passes ih =>
    obtain ⟨-, -, hrests, hticked⟩ := rests_of_pibtPass hpass hadvanced
    have hticked : elapsed' = tickAll q.agents elapsed := by
      rw [tickAll_congr hrests.alike, hticked]
    have horder : decisionOrder (tickAll q.agents elapsed') = decisionOrder elapsed' := by
      rw [hticked] at hkept ⊢
      exact orderKept_iff.1 hkept 1 (by omega)
    obtain ⟨s', r, hagain, hrests'⟩ := pibtPass_again hpass hadvanced horder
    have hkept' : OrderKept r.agents (tickAll q.agents elapsed') passes :=
      hkept.tick.congr hrests'.alike
    obtain ⟨last, hlast, hrests''⟩ := ih hagain hrests'.advanced hkept'
    refine ⟨last, ?_, hrests'.trans hrests''⟩
    rw [pibtPassesFull, hagain, Function.iterate_succ_apply]
    simp only
    rw [hlast, tickAll_congr hrests'.alike]

variable (cls fields routes options rank mask) in
/-- **Every pass ends.** -/
theorem pibtPass_isSome (p : MovementPass S Tag n) (elapsed : Fin n → ℕ) :
    ∃ s q elapsed', pibtPass cls fields routes options rank mask p elapsed =
      some (s, q, elapsed') := by
  obtain ⟨s, hs⟩ := Option.isSome_iff_exists.1 (pibtDecided_isSome p.world.world cls fields
    p.agents options rank (fun i => tickElapsed (p.agents i) (elapsed i)) p.stats)
  rw [pibtPass]
  simp only [hs, Option.map_some]
  exact ⟨_, _, _, rfl⟩

variable (cls fields routes options rank mask) in
/-- **A call runs its passes up to one that moves nobody.** -/
theorem pibtPasses_spec (steps : ℕ) (p : MovementPass S Tag n) (elapsed : Fin n → ℕ) :
    ∃ done ≤ steps, ∃ q elapsed',
      pibtPasses cls fields routes options rank mask steps p elapsed = some (q, elapsed') ∧
      pibtPassesFull cls fields routes options rank mask done p elapsed = some (q, elapsed') ∧
      (done < steps → ∃ s before elapsed₀,
        pibtPass cls fields routes options rank mask before elapsed₀ = some (s, q, elapsed') ∧
          q.stats.frame.advanced = before.stats.frame.advanced) := by
  induction steps generalizing p elapsed with
  | zero => exact ⟨0, le_rfl, p, elapsed, rfl, rfl, fun h => absurd h (lt_irrefl 0)⟩
  | succ steps ih =>
    obtain ⟨s, q, elapsed', hpass⟩ := pibtPass_isSome cls fields routes options rank mask p elapsed
    by_cases hadvanced : q.stats.frame.advanced = p.stats.frame.advanced
    · refine ⟨1, by omega, q, elapsed', ?_, ?_, fun _ => ⟨s, p, elapsed, hpass, hadvanced⟩⟩
      · rw [pibtPasses, hpass]
        exact if_pos hadvanced
      · rw [pibtPassesFull, hpass]
        rfl
    · obtain ⟨done, hdone, r, elapsed'', hcall, hfull, hstop⟩ := ih q elapsed'
      refine ⟨done + 1, by omega, r, elapsed'', ?_, ?_, fun h => hstop (by omega)⟩
      · rw [pibtPasses, hpass]
        simp only
        rw [if_neg hadvanced, hcall]
      · rw [pibtPassesFull, hpass]
        exact hfull

variable (cls fields routes options rank mask) in
theorem pibtPassesFull_add (a b : ℕ) (p : MovementPass S Tag n) (elapsed : Fin n → ℕ) :
    pibtPassesFull cls fields routes options rank mask (a + b) p elapsed =
      (pibtPassesFull cls fields routes options rank mask a p elapsed).bind fun r =>
        pibtPassesFull cls fields routes options rank mask b r.1 r.2 := by
  induction a generalizing p elapsed with
  | zero => rw [Nat.zero_add]; rfl
  | succ a ih =>
    rw [Nat.succ_add, pibtPassesFull, pibtPassesFull]
    cases pibtPass cls fields routes options rank mask p elapsed with
    | none => rfl
    | some next => exact ih next.2.1 next.2.2

/-- **Where a call may stop.**  Behind a pass that moved nobody the order of the further passes is
that pass's own exactly as long as no counter catches up; as long as it is, they move nobody.  So
the call, which always returns, has not lost anything by leaving them out. -/
theorem advanceWithPibt_stop (advance : PathAgentAdvanceOptions) (p : MovementPass S Tag n)
    (elapsed : Fin n → ℕ) :
    (∀ before elapsed₀ s q elapsed' passes,
      pibtPass cls fields routes options rank mask before elapsed₀ = some (s, q, elapsed') →
      q.stats.frame.advanced = before.stats.frame.advanced →
        (OrderKept q.agents elapsed' passes ↔ ∀ k ≤ passes,
          decisionOrder ((tickAll q.agents)^[k] elapsed') = decisionOrder elapsed') ∧
        (OrderKept q.agents elapsed' passes → ∀ k ≤ passes, ∃ r elapsed'',
          pibtPassesFull cls fields routes options rank mask k q elapsed' = some (r, elapsed'') ∧
            Rests q r)) ∧
    ∃ done ≤ advance.maxSteps, ∃ q elapsed',
      advanceWithPibt cls fields routes options rank advance p elapsed = some (q, elapsed') ∧
      pibtPassesFull cls fields routes options rank advance.movementDirtyMask done
        { p with stats := {} } elapsed = some (q, elapsed') ∧
      (done = advance.maxSteps ∨ OrderKept q.agents elapsed' (advance.maxSteps - done) →
        ∃ r elapsed'', pibtPassesFull cls fields routes options rank advance.movementDirtyMask
          advance.maxSteps { p with stats := {} } elapsed = some (r, elapsed'') ∧ Rests q r) := by
  constructor
  · intro before elapsed₀ s q elapsed' passes hpass hadvanced
    obtain ⟨-, -, hrests, hticked⟩ := rests_of_pibtPass hpass hadvanced
    constructor
    · rw [hticked, ← tickAll_congr hrests.alike]
      exact orderKept_iff
    · intro hkept k hk
      have hkept' : OrderKept q.agents elapsed' k := fun j i hji hj hi hlt => by
        have := hkept j i hji hj hi hlt
        omega
      obtain ⟨r, hr, hrest⟩ := pibtPassesFull_rests hpass hadvanced hkept'
      exact ⟨r, _, hr, hrest⟩
  · obtain ⟨done, hdone, q, elapsed', hcall, hfull, hstop⟩ := pibtPasses_spec cls fields routes
      options rank advance.movementDirtyMask advance.maxSteps { p with stats := {} } elapsed
    refine ⟨done, hdone, q, elapsed', hcall, hfull, fun hkept => ?_⟩
    rcases Nat.lt_or_eq_of_le hdone with hlt | heq
    · obtain ⟨s, before, elapsed₀, hpass, hadvanced⟩ := hstop hlt
      obtain ⟨r, hr, hrest⟩ := pibtPassesFull_rests hpass hadvanced
        (hkept.resolve_left (by omega))
      have hall := pibtPassesFull_add cls fields routes options rank
        advance.movementDirtyMask done (advance.maxSteps - done) { p with stats := {} } elapsed
      rw [hfull, Option.bind_some, hr, Nat.add_sub_cancel' hdone] at hall
      exact ⟨r, _, hall, hrest⟩
    · rw [← heq]
      exact ⟨q, elapsed', hfull, Rests.refl q⟩

end Rest

/-! ### A counter that catches up -/

/-- Four tiles in a row. -/
def alley : Shape where
  size := ⟨4, 1, 1⟩
  chunk := ⟨4, 1, 1⟩
  lattice := .orthogonal
  size_valid := by decide
  chunk_pow := by decide
  divisible := by decide
  lattice_valid := by decide
  chunk_count_fits := by decide
  local_count_fits := by decide
  axis_fits := by decide

theorem alley_tileKeyBits_le : alley.tileKeyBits ≤ 64 := by decide

/-- Agents that enter passable tiles. -/
def alleyClass : MovementClass alley SquareTag := .unitCostField alley_tileKeyBits_le .passable

/-- Two agents side by side, bound for the tile ahead of them. -/
def alleyAgents (i : Fin 2) : PathAgentState where
  position := ⟨i, 0, 0⟩
  goal := ⟨2, 0, 0⟩
  phase := .blocked
  hasGoal := true

/-- The agents hold their tiles. -/
def alleyPass : MovementPass alley SquareTag 2 where
  world :=
    { world := .dense alley fun tag c =>
        match tag with
        | .passable => 1
        | .cost => 1
        | .occupancy => if c.x < 2 then 1 else 0
        | .reservation => 0 }
  agents := alleyAgents

/-- The first agent ranks the tile ahead best, the second one its own. -/
def alleyRank (i : Fin 2) (c : Coord3) : ℕ :=
  if i = 0 then (if c.x = 1 then 0 else 1) else (if c.x = 1 then 0 else if c.x = 2 then 1 else 2)

/-- The second agent has waited for one pass longer, and its counter is about to saturate. -/
def alleyElapsed (i : Fin 2) : ℕ := if i = 0 then 2 ^ 32 - 3 else 2 ^ 32 - 2

/-- Where the agents are after a call, and how many moves it counted. -/
def stands {S : Shape} {Tag : Type*} {n : ℕ}
    (call : Option (MovementPass S Tag n × (Fin n → ℕ))) : Option (ℕ × List Coord3) :=
  call.map fun r =>
    (r.1.stats.frame.advanced, (List.finRange n).map fun i => (r.1.agents i).position)

/-- **A pass that moved nobody need not be the last one**: in the second pass the counters are
equal, the first agent decides first, and both agents move. -/
theorem pibtStop_overtaken :
    stands (advanceWithPibt alleyClass squareFields (fun _ => []) {} alleyRank { maxSteps := 2 }
      alleyPass alleyElapsed) = some (0, [⟨0, 0, 0⟩, ⟨1, 0, 0⟩]) ∧
    stands (pibtPassesFull alleyClass squareFields (fun _ => []) {} alleyRank 0 1
      alleyPass alleyElapsed) = some (0, [⟨0, 0, 0⟩, ⟨1, 0, 0⟩]) ∧
    stands (pibtPassesFull alleyClass squareFields (fun _ => []) {} alleyRank 0 2
      alleyPass alleyElapsed) = some (2, [⟨1, 0, 0⟩, ⟨2, 0, 0⟩]) := by
  refine ⟨?_, ?_, ?_⟩ <;> decide +kernel

end Tess
