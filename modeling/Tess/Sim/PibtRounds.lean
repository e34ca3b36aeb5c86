import Tess.Sim.PibtStop

/-!
# The passes of a PIBT call

The decisions of a pass are a configuration of distinct tiles; applied as a set, it is where the
next pass starts from.

* `Deciding.decideNext` : the decision of one agent keeps the invariant;
* `Decisions`, `exists_pibtDecided` : **a pass decides on distinct tiles**, by legal steps, and
  each agent decides at most once;
* `applyPibtMoves_spec` : **decided moves apply as a set**;
* `PassSpec`, `pibtPass_spec` : everything one pass does.
-/

namespace Tess

open Graphs

/-! ### The decisions -/

section Decided

variable {S : Shape} {Tag : Type*} {n : ℕ} {W : World S Tag} {cls : MovementClass S Tag}
  {fields : MovementFields Tag} {agents : Fin n → PathAgentState} {options : JointMoveOptions}
  {rank : Fin n → Coord3 → ℕ} {s t : PibtScratch n} {i : Fin n}

variable (W cls fields agents options) in
/-- The configuration that a pass decides on. -/
structure Decisions (s : PibtScratch n) : Prop where
  /-- No two agents end on one tile. -/
  unique : ∀ i j, s.desired i = s.desired j → i = j
  /-- Agents go to candidates only. -/
  moves : ∀ i, s.desired i ≠ (agents i).position →
    PibtCandidate W cls fields agents i (s.desired i)
  /-- Exchanges follow the policy. -/
  swaps : ∀ i j, i ≠ j → s.desired i = (agents j).position →
    s.desired j = (agents i).position → swapAllowed agents options i j = true
  /-- Every agent decides at most once. -/
  once : s.started.Nodup

variable (cls options) in
/-- The invariant holds before the first decision. -/
theorem deciding_start (hholds : HoldsTiles W fields agents) (stats : JointMoveStats) :
    Deciding W cls fields agents options
    { occupants := occupantIndex S agents
      desired := fun i => (agents i).position
      stats := stats } := by
  constructor
  case index => rfl
  case sorted => exact List.Pairwise.nil
  case nodup => exact List.nodup_nil
  case deciding => simp
  case undecided => exact fun i _ => ⟨rfl, List.not_mem_nil⟩
  case waiting => simp
  case link => exact List.isChain_nil
  case claimed => simp [Committed]
  case trying => simp
  case unique => simp [Committed]
  case root => simp
  case moves => exact fun i hi => absurd rfl hi
  case swaps => exact fun i j hij heq => absurd (hholds.inj i j heq) hij
  case candidates => simp
  case once => simp

/-- **The decision of an agent that is under way keeps the invariant.** -/
theorem Deciding.decideNext (hholds : HoldsTiles W fields agents)
    (h : Deciding W cls fields agents options s) (hframes : s.frames = [])
    (hgoal : pathAgentGoalOutstanding (agents i) = true)
    (ht : Tess.decideNext W cls fields agents options rank s i = some t) :
    Deciding W cls fields agents options t := by
  rw [Tess.decideNext, hgoal] at ht
  simp only [Bool.true_eq_false, if_false] at ht
  by_cases hstate : s.state i = .undecided
  swap
  · rw [if_pos hstate] at ht
    exact Option.some.inj ht ▸ h
  rw [if_neg (not_not.2 hstate), runDecision] at ht
  simp only at ht
  by_cases hpushed : (startDeciding W cls fields agents rank s i).2 = true
  · rw [if_pos hpushed] at ht
    obtain ⟨-, hpass, heq⟩ := startDeciding_pushed hpushed
    rw [heq, hframes] at ht
    exact (h.enter hframes hstate _ (rankedCandidates_spec hholds h.index hgoal hpass)).decisionLoop
      hholds ht
  · rw [if_neg hpushed] at ht
    obtain ⟨status, heq⟩ := startDeciding_kept (Bool.eq_false_iff.2 hpushed)
    rw [heq] at ht
    exact Option.some.inj ht ▸ h.keep hholds hframes hstate _

variable (W cls s) in
/-- An agent that is not under way is only marked. -/
theorem decideNext_of_not_outstanding (hgoal : pathAgentGoalOutstanding (agents i) = false) :
    ∃ t, decideNext W cls fields agents options rank s i = some t ∧
      t.desired = s.desired ∧ t.started = s.started := by
  rw [decideNext]
  split_ifs
  · exact ⟨s, rfl, rfl, rfl⟩
  · exact ⟨_, rfl, rfl, rfl⟩

/-- The marked agents end the order: nothing is decided behind them. -/
theorem foldlM_decideNext_not_outstanding (l : List (Fin n))
    (hl : ∀ i ∈ l, pathAgentGoalOutstanding (agents i) = false) (s : PibtScratch n) :
    ∃ t, l.foldlM (decideNext W cls fields agents options rank) s = some t ∧
      t.desired = s.desired ∧ t.started = s.started := by
  induction l generalizing s with
  | nil => exact ⟨s, rfl, rfl, rfl⟩
  | cons i l ih =>
    obtain ⟨r, hr, hdesired, hstarted⟩ := decideNext_of_not_outstanding W cls s
      (hl i List.mem_cons_self)
    obtain ⟨t, ht, hdesired', hstarted'⟩ := ih (fun j hj => hl j (List.mem_cons_of_mem _ hj)) r
    rw [List.foldlM_cons, hr]
    exact ⟨t, ht, hdesired'.trans hdesired, hstarted'.trans hstarted⟩

variable (rank) in
/-- **The decisions in order**, with the agents under way first. -/
theorem foldlM_decideNext (hholds : HoldsTiles W fields agents) (l : List (Fin n))
    (hl : l.Pairwise fun a b => pathAgentGoalOutstanding (agents b) = true →
      pathAgentGoalOutstanding (agents a) = true)
    (h : Deciding W cls fields agents options s) (hframes : s.frames = []) :
    ∃ t last, l.foldlM (decideNext W cls fields agents options rank) s = some t ∧
      Deciding W cls fields agents options last ∧ last.frames = [] ∧
        t.desired = last.desired ∧ t.started = last.started := by
  induction l generalizing s with
  | nil => exact ⟨s, s, rfl, h, hframes, rfl, rfl⟩
  | cons i l ih =>
    rw [List.pairwise_cons] at hl
    cases hgoal : pathAgentGoalOutstanding (agents i) with
    | true =>
      obtain ⟨r, hr, hrframes⟩ := decideNext_isSome W cls fields agents options rank i hframes
      rw [List.foldlM_cons, hr]
      exact ih hl.2 (h.decideNext hholds hframes hgoal hr) hrframes
    | false =>
      have hnone : ∀ j ∈ i :: l, pathAgentGoalOutstanding (agents j) = false := by
        intro j hj
        rcases List.mem_cons.1 hj with rfl | hj
        · exact hgoal
        · refine Bool.eq_false_iff.2 fun hjgoal => ?_
          rw [hl.1 j hj hjgoal] at hgoal
          cases hgoal
      obtain ⟨t, ht, hdesired, hstarted⟩ := foldlM_decideNext_not_outstanding (i :: l) hnone s
      exact ⟨t, s, ht, h, hframes, hdesired, hstarted⟩

/-- **Between decisions the desires are a configuration**: decided agents hold claims, the others
stand on tiles that nobody has claimed. -/
theorem Deciding.decisions (hholds : HoldsTiles W fields agents)
    (h : Deciding W cls fields agents options s) (hframes : s.frames = []) :
    Decisions W cls fields agents options s := by
  have hno : ∀ m, ¬ PeerFailed s m := by
    rintro m ⟨-, f, hf, -⟩
    rw [hframes] at hf
    cases hf
  have hcases : ∀ i, Committed s i ∨ s.state i = .undecided := by
    intro i
    cases hi : s.state i with
    | undecided => exact Or.inr rfl
    | decided => exact Or.inl (Or.inl hi)
    | deciding =>
      obtain ⟨f, hf, -⟩ := (h.deciding i).1 hi
      rw [hframes] at hf
      cases hf
  refine ⟨fun i j heq => ?_, h.moves, h.swaps, h.once.1⟩
  rcases hcases i with hi | hi
  · rcases hcases j with hj | hj
    · rcases h.unique i j hi hj heq with he | hf | hf
      · exact he
      · exact absurd hf (hno i)
      · exact absurd hf (hno j)
    · obtain ⟨hown, hfree⟩ := h.undecided j hj
      exact absurd (heq.trans hown) (h.ne_of_not_claimed hi hfree)
  · obtain ⟨hown, hfree⟩ := h.undecided i hi
    rcases hcases j with hj | hj
    · exact absurd (heq.symm.trans hown) (h.ne_of_not_claimed hj hfree)
    · exact hholds.inj i j (hown.symm.trans (heq.trans (h.undecided j hj).1))

/-- **A pass decides on distinct tiles**, whatever its counters were. -/
theorem exists_pibtDecided (hholds : HoldsTiles W fields agents) (cls : MovementClass S Tag)
    (options : JointMoveOptions) (rank : Fin n → Coord3 → ℕ) (elapsed : Fin n → ℕ)
    (stats : JointMoveStats) :
    ∃ s, pibtDecided W cls fields agents options rank (tickAll agents elapsed) stats = some s ∧
      Decisions W cls fields agents options s := by
  have hzero : ∀ i, pathAgentGoalOutstanding (agents i) = true ↔ 0 < tickAll agents elapsed i := by
    intro i
    rw [tickAll, tickElapsed]
    split_ifs with hi
    · simp [hi]
    · simp [hi]
  have hsorted : (decisionOrder (tickAll agents elapsed)).Pairwise fun a b =>
      pathAgentGoalOutstanding (agents b) = true → pathAgentGoalOutstanding (agents a) = true := by
    refine (decisionOrder_spec (tickAll agents elapsed)).2.imp fun {a b} hab hb => ?_
    rw [hzero] at hb ⊢
    rcases hab with hab | ⟨hab, -⟩ <;> omega
  obtain ⟨t, last, ht, hlast, hframes, hdesired, hstarted⟩ := foldlM_decideNext rank hholds _
    hsorted (deciding_start cls options hholds stats) rfl
  obtain ⟨hunique, hmoves, hswaps, honce⟩ := hlast.decisions hholds hframes
  refine ⟨t, ht, ?_⟩
  rw [← hdesired] at hunique hmoves hswaps
  exact ⟨hunique, hmoves, hswaps, hstarted ▸ honce⟩

end Decided

/-! ### The application -/

section Applied

variable {S : Shape} {Tag : Type*} [DecidableEq Tag] {n : ℕ} {cls : MovementClass S Tag}
  {fields : MovementFields Tag} {routes : Fin n → List Coord3} {options : JointMoveOptions}
  {rank : Fin n → Coord3 → ℕ} {mask : BitVec 32} {s : PibtScratch n}
  {p q : MovementPass S Tag n} {elapsed : Fin n → ℕ} {i j : Fin n} {dest c : Coord3} {tag : Tag}

variable (fields s) in
/-- **The clearing loop** clears the tiles that agents leave. -/
theorem flagAt_foldl_clearLeft {agents : Fin n → PathAgentState}
    (hcontains : ∀ i, S.contains (agents i).position = true) (l : List (Fin n))
    (w : MovementWorld S Tag) (hd : w.world.IsDense) :
    (l.foldl (clearLeft fields s agents) w).world.IsDense ∧
      ∀ tag c, flagAt (l.foldl (clearLeft fields s agents) w).world tag c = true ↔
        flagAt w.world tag c = true ∧ ¬ (tag = fields.occupancy ∧
          ∃ i ∈ l, s.desired i ≠ (agents i).position ∧ (agents i).position = c) := by
  induction l generalizing w with
  | nil => exact ⟨hd, fun tag c => by simp⟩
  | cons i l ih =>
    rw [List.foldl_cons, clearLeft]
    by_cases hi : s.desired i = (agents i).position
    · rw [if_neg (not_not.2 hi)]
      obtain ⟨hdense, hflag⟩ := ih w hd
      refine ⟨hdense, fun tag c => (hflag tag c).trans ?_⟩
      simp [hi]
    · rw [if_pos hi]
      have hd' : (w.writeFlag fields.occupancy (agents i).position false).world.IsDense :=
        MovementWorld.residency_writeFlag.trans hd
      obtain ⟨hdense, hflag⟩ := ih _ hd'
      refine ⟨hdense, fun tag c => (hflag tag c).trans ?_⟩
      rw [MovementWorld.flagAt_writeFlag hd (hcontains i)]
      by_cases hc : c = (agents i).position
      · subst hc
        by_cases htag : tag = fields.occupancy
        · simp [htag, hi]
        · simp [htag]
      · have hc' : ¬ (agents i).position = c := fun h => hc h.symm
        simp [hc, hc']

variable (routes mask elapsed i) in
/-- The flags behind an agent that enters its tile. -/
theorem flagAt_enterTile (hd : p.world.world.IsDense) (hc : S.contains dest = true) :
    (enterTile fields routes mask p elapsed i dest).1.world.world.IsDense ∧
      ∀ tag c, flagAt (enterTile fields routes mask p elapsed i dest).1.world.world tag c = true ↔
        (tag = fields.occupancy ∧ c = dest) ∨
          (flagAt p.world.world tag c = true ∧ ¬ (tag = fields.reservation ∧ c = dest)) := by
  have hd' : (p.world.writeFlag fields.occupancy dest true).world.IsDense :=
    MovementWorld.residency_writeFlag.trans hd
  rw [enterTile]
  refine ⟨?_, fun tag c => ?_⟩
  · simp only [World.IsDense, MovementWorld.residency_markMove, MovementWorld.residency_writeFlag]
    exact hd
  · simp only [MovementWorld.flagAt_markMove]
    rw [MovementWorld.flagAt_writeFlag hd' hc, MovementWorld.flagAt_writeFlag hd hc]
    by_cases hcd : c = dest
    · by_cases hocc : tag = fields.occupancy
      · simp [hcd, hocc, fields.ne]
      · by_cases hres : tag = fields.reservation
        · simp [hcd, hres, fields.ne.symm]
        · simp [hcd, hocc, hres]
    · simp [hcd]

/-- The tile of an agent that enters one. -/
theorem position_enterTile_self :
    ((enterTile fields routes mask p elapsed i dest).1.agents i).position = dest := by
  have hleft : ∀ agent route, (leavePathAgent agent route dest).position = dest := by
    intro agent route
    rw [leavePathAgent]
    split_ifs <;> rfl
  rw [enterTile]
  simp only [Function.update_self]
  split_ifs
  · rw [position_arriveIfAtGoal, hleft]
  · exact hleft _ _

variable (fields routes mask) in
/-- **Step 5** moves the agents that decided to leave, and keeps the others. -/
theorem foldl_applyDecision (l : List (Fin n)) (hl : l.Nodup)
    (hdest : ∀ i, S.contains (s.desired i) = true)
    (acc : MovementPass S Tag n × (Fin n → ℕ)) (hd : acc.1.world.world.IsDense) :
    let last := (l.foldl (applyDecision fields routes mask s) acc).1
    last.world.world.IsDense ∧
      (∀ j, (last.agents j).position =
        if j ∈ l then s.desired j else (acc.1.agents j).position) ∧
      ∀ tag c, flagAt last.world.world tag c = true ↔
        (tag = fields.occupancy ∧
          ∃ i ∈ l, s.desired i ≠ (acc.1.agents i).position ∧ s.desired i = c) ∨
        (flagAt acc.1.world.world tag c = true ∧ ¬ (tag = fields.reservation ∧
          ∃ i ∈ l, s.desired i ≠ (acc.1.agents i).position ∧ s.desired i = c)) := by
  induction l generalizing acc with
  | nil => exact ⟨hd, fun j => by simp, fun tag c => by simp⟩
  | cons i l ih =>
    rw [List.nodup_cons] at hl
    -- the step of one agent leaves the others where they are
    have hother : ∀ j, j ≠ i → ((applyDecision fields routes mask s acc i).1.agents j).position =
        (acc.1.agents j).position := by
      intro j hji
      rw [applyDecision]
      split_ifs
      · exact ((rests_keepTile (s.failure i)).agents j).position
      · rw [position_enterTile.2 j hji]
    have hself : ((applyDecision fields routes mask s acc i).1.agents i).position =
        s.desired i := by
      rw [applyDecision]
      split_ifs with hi
      · rw [((rests_keepTile (s.failure i)).agents i).position, hi]
      · exact position_enterTile_self
    have hexists : ∀ c, (∃ j ∈ i :: l, s.desired j ≠ (acc.1.agents j).position ∧
        s.desired j = c) ↔ (s.desired i ≠ (acc.1.agents i).position ∧ s.desired i = c) ∨
          ∃ j ∈ l, s.desired j ≠ ((applyDecision fields routes mask s acc i).1.agents j).position ∧
            s.desired j = c := by
      intro c
      simp only [List.mem_cons, exists_eq_or_imp]
      refine or_congr_right (exists_congr fun j => and_congr_right fun hj => ?_)
      rw [hother j fun h => hl.1 (h ▸ hj)]
    have hposition : ∀ last : MovementPass S Tag n, (∀ j, (last.agents j).position =
        if j ∈ l then s.desired j
        else ((applyDecision fields routes mask s acc i).1.agents j).position) →
          ∀ j, (last.agents j).position =
            if j ∈ i :: l then s.desired j else (acc.1.agents j).position := by
      intro last hlast j
      rw [hlast j]
      by_cases hj : j ∈ l
      · rw [if_pos hj, if_pos (List.mem_cons_of_mem i hj)]
      · rw [if_neg hj]
        by_cases hji : j = i
        · subst hji
          rw [hself, if_pos List.mem_cons_self]
        · rw [hother j hji, if_neg fun h => (List.mem_cons.1 h).elim hji hj]
    rw [List.foldl_cons]
    by_cases hi : s.desired i = (acc.1.agents i).position
    · have hworld : (applyDecision fields routes mask s acc i).1.world = acc.1.world := by
        rw [applyDecision, if_pos hi]
        exact (rests_keepTile _).world
      obtain ⟨hdense, hpos, hflag⟩ := ih hl.2 _ (hworld ▸ hd)
      refine ⟨hdense, hposition _ hpos, fun tag c => (hflag tag c).trans ?_⟩
      rw [hexists, hworld]
      simp [hi]
    · have hstep : (applyDecision fields routes mask s acc i).1 =
          (enterTile fields routes mask acc.1 acc.2 i (s.desired i)).1 := by
        rw [applyDecision, if_neg hi]
      obtain ⟨hd', hflag'⟩ := flagAt_enterTile routes mask acc.2 i hd (hdest i)
      rw [← hstep] at hd' hflag'
      obtain ⟨hdense, hpos, hflag⟩ := ih hl.2 _ hd'
      refine ⟨hdense, hposition _ hpos, fun tag c => (hflag tag c).trans ?_⟩
      rw [hexists, hflag']
      simp only [ne_eq, hi, not_false_eq_true, true_and, @eq_comm _ (s.desired i) c]
      generalize (∃ j ∈ l, ¬ s.desired j =
        ((applyDecision fields routes mask s acc i).1.agents j).position ∧ s.desired j = c) = later
      by_cases hocc : tag = fields.occupancy
      · have hres : tag ≠ fields.reservation := hocc ▸ fields.ne
        simp only [hocc, true_and, fields.ne, false_and, not_false_eq_true, and_true]
        tauto
      · simp only [hocc, false_and, false_or]
        tauto

variable (routes mask elapsed) in
/-- **Decided moves apply as a set**, and the other agents stay. -/
theorem applyPibtMoves_spec (hholds : HoldsTiles p.world.world fields p.agents)
    (hdest : ∀ i, S.contains (s.desired i) = true) :
    (∀ i, ((applyPibtMoves fields routes mask s p elapsed).1.agents i).position = s.desired i) ∧
      MovedAsSet fields p.world.world
        (applyPibtMoves fields routes mask s p elapsed).1.world.world
        (fun i => s.desired i ≠ (p.agents i).position) (fun i => (p.agents i).position)
        s.desired := by
  obtain ⟨hd, hclear⟩ := flagAt_foldl_clearLeft fields s hholds.contains (List.finRange n) p.world
    hholds.dense
  obtain ⟨hdense, hpos, hflag⟩ := foldl_applyDecision fields routes mask (List.finRange n)
    (List.nodup_finRange n) hdest
    ({ p with
        world := (List.finRange n).foldl (clearLeft fields s p.agents) p.world
        stats := s.stats }, elapsed) hd
  refine ⟨fun i => (hpos i).trans (if_pos (List.mem_finRange i)), ⟨hdense, fun c => ?_,
    fun c => ?_, fun tag hocc hres c => ?_⟩⟩
  · refine (hflag _ c).trans ?_
    simp only [hclear, List.mem_finRange, true_and, fields.ne, false_and, not_false_eq_true,
      and_true, not_exists, not_and]
  · refine (hflag _ c).trans ?_
    simp only [hclear, List.mem_finRange, true_and, fields.ne.symm, false_and, not_false_eq_true,
      and_true, false_or, not_exists, not_and]
  · have h := hflag tag c
    simp only [hclear, hocc, hres, false_and, not_false_eq_true, and_true, false_or] at h
    exact Bool.eq_iff_iff.2 h

variable (cls fields options) in
/-- Everything one pass does: it leaves `next`, with the decisions `s`, behind `q`. -/
structure PassSpec (q : MovementPass S Tag n) (s : PibtScratch n) (next : MovementPass S Tag n) :
    Prop where
  /-- The desires are a configuration. -/
  decisions : Decisions q.world.world cls fields q.agents options s
  /-- The agents stand where they decided. -/
  position : ∀ i, (next.agents i).position = s.desired i
  /-- The agents that decided to leave move as a set. -/
  moved : MovedAsSet fields q.world.world next.world.world
    (fun i => s.desired i ≠ (q.agents i).position) (fun i => (q.agents i).position) s.desired
  /-- The agents hold their tiles again. -/
  holds : HoldsTiles next.world.world fields next.agents

/-- **One pass** of a PIBT call. -/
theorem pibtPass_spec (cls : MovementClass S Tag) (routes : Fin n → List Coord3)
    (options : JointMoveOptions) (rank : Fin n → Coord3 → ℕ) (mask : BitVec 32)
    (q : MovementPass S Tag n) (elapsed : Fin n → ℕ)
    (hholds : HoldsTiles q.world.world fields q.agents) :
    ∃ s next elapsed', pibtPass cls fields routes options rank mask q elapsed =
      some (s, next, elapsed') ∧ PassSpec cls fields options q s next := by
  obtain ⟨s, hs, hdecisions⟩ := exists_pibtDecided hholds cls options rank elapsed q.stats
  have hdest : ∀ i, S.contains (s.desired i) = true := by
    intro i
    by_cases hi : s.desired i = (q.agents i).position
    · rw [hi]
      exact hholds.contains i
    · exact (hdecisions.moves i hi).contains
  obtain ⟨hposition, hmoved⟩ := applyPibtMoves_spec routes mask (tickAll q.agents elapsed)
    hholds hdest
  refine ⟨s, _, (applyPibtMoves fields routes mask s q (tickAll q.agents elapsed)).2, ?_,
    hdecisions, hposition, hmoved, ?_⟩
  · rw [pibtPass]
    change (pibtDecided q.world.world cls fields q.agents options rank (tickAll q.agents elapsed)
      q.stats).map _ = _
    rw [hs, Option.map_some]
    rfl
  · refine hmoved.holdsTiles hholds (fun i _ => hposition i) (fun i hi => ?_)
      (fun i j _ _ heq => hdecisions.unique i j heq) (fun i hi j hj hstay => ?_)
    · rw [hposition, not_not.1 hi]
    · -- an agent that stays has decided for its own tile, which nobody else has
      rw [← hstay] at hj
      have hij : j = i := hdecisions.unique j i hj
      subst hij
      exact hi (by rw [← hj, hstay])

end Applied

end Tess
