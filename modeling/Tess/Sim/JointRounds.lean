import Tess.Sim.JointAdmission

/-!
# The rounds of a joint pass

What a round admits applies as a set, and the next round starts from the configuration it leaves.

* `MovedAsSet` : the flags of a world whose agents moved as a set;
* `applyJointMoves_spec` : **admitted moves apply as a set**, and the other agents stay;
* `RoundSpec`, `jointRound_spec` : everything one round does;
* `joint_movement_maximal` : every round of a call admits a maximal set, and a round that admits
  nobody leaves nothing that a further round could move.
-/

namespace Tess

open Graphs

/-! ### Moving as a set -/

section MovingAsSet

variable {S : Shape} {Tag : Type*} {n : ℕ} {fields : MovementFields Tag}

/-- The agents that move leave their tiles and enter their destinations, all at once. -/
structure MovedAsSet (fields : MovementFields Tag) (W W' : World S Tag) (moves : Fin n → Prop)
    (source dest : Fin n → Coord3) : Prop where
  /-- Every chunk stays resident. -/
  dense : W'.IsDense
  /-- Occupied are the destinations, and the occupied tiles that nobody left. -/
  occupancy : ∀ c, flagAt W' fields.occupancy c = true ↔
    (∃ i, moves i ∧ dest i = c) ∨
      (flagAt W fields.occupancy c = true ∧ ∀ i, moves i → source i ≠ c)
  /-- Entering a tile clears its reservation. -/
  reservation : ∀ c, flagAt W' fields.reservation c = true ↔
    flagAt W fields.reservation c = true ∧ ∀ i, moves i → dest i ≠ c
  /-- The other fields stay. -/
  other : ∀ tag, tag ≠ fields.occupancy → tag ≠ fields.reservation →
    ∀ c, flagAt W' tag c = flagAt W tag c

/-- **Agents that move as a set** onto distinct tiles, each of them free or left by another
agent, hold their tiles afterwards. -/
theorem MovedAsSet.holdsTiles {W W' : World S Tag} {moves : Fin n → Prop}
    {agents agents' : Fin n → PathAgentState} {dest : Fin n → Coord3}
    (h : MovedAsSet fields W W' moves (fun i => (agents i).position) dest)
    (hholds : HoldsTiles W fields agents)
    (hmoved : ∀ i, moves i → (agents' i).position = dest i)
    (hstayed : ∀ i, ¬ moves i → (agents' i).position = (agents i).position)
    (hunique : ∀ i j, moves i → moves j → dest i = dest j → i = j)
    (hvacated : ∀ i, moves i → ∀ j, (agents j).position = dest i → moves j) :
    HoldsTiles W' fields agents' := by
  refine ⟨h.dense, fun i j heq => ?_, fun i => ?_⟩
  · by_cases hi : moves i
    · by_cases hj : moves j
      · exact hunique i j hi hj (by rw [← hmoved i hi, ← hmoved j hj, heq])
      · exact absurd (hvacated i hi j (by rw [← hstayed j hj, ← heq, hmoved i hi])) hj
    · by_cases hj : moves j
      · exact absurd (hvacated j hj i (by rw [← hstayed i hi, heq, hmoved j hj])) hi
      · exact hholds.inj i j (by rw [← hstayed i hi, ← hstayed j hj, heq])
  · rw [h.occupancy]
    by_cases hi : moves i
    · exact Or.inl ⟨i, hi, (hmoved i hi).symm⟩
    · right
      rw [hstayed i hi]
      exact ⟨hholds.occupied i, fun j hj heq => hi (hholds.inj j i heq ▸ hj)⟩

end MovingAsSet

section Application

variable {S : Shape} {Tag : Type*} [DecidableEq Tag] {n : ℕ} {cls : MovementClass S Tag}
  {fields : MovementFields Tag} {routes : Fin n → List Coord3} {options : JointMoveOptions}
  {mask : BitVec 32} {p q : MovementPass S Tag n} {s : JointScratch n} {i j : Fin n}
  {dest c : Coord3} {tag : Tag} {steps : ℕ}

/-! ### The applied agents -/

@[simp] theorem position_arriveIfAtGoal (agent : PathAgentState)
    (accounting : Option FlowAccounting) :
    (arriveIfAtGoal agent accounting).1.position = agent.position := by
  simp only [arriveIfAtGoal, arrivePathAgent]
  split_ifs <;> rfl

@[simp] theorem position_stepPathAgent (agent : PathAgentState) (dest : Coord3)
    (accounting : Option FlowAccounting) :
    (stepPathAgent agent dest accounting).1.position = dest := by
  simp only [stepPathAgent, position_arriveIfAtGoal, resumePathAgent]

/-- The accountant does not reach into the agent. -/
theorem stepPathAgent_fst (agent : PathAgentState) (dest : Coord3)
    (accounting : Option FlowAccounting) :
    (stepPathAgent agent dest accounting).1 = (stepPathAgent agent dest none).1 := by
  simp only [stepPathAgent, arriveIfAtGoal, arrivePathAgent]
  split_ifs <;> rfl

theorem rejectPathAgent_fst (agent : PathAgentState) (status : MovementStatus)
    (accounting : Option FlowAccounting) :
    (rejectPathAgent agent status accounting).1 = (rejectPathAgent agent status none).1 := by
  simp only [rejectPathAgent]
  split_ifs <;> rfl

/-- What a rejected agent keeps. -/
theorem rejectPathAgent_keeps (agent : PathAgentState) (status : MovementStatus)
    (accounting : Option FlowAccounting) :
    let rejected := (rejectPathAgent agent status accounting).1
    rejected.position = agent.position ∧ rejected.pathIndex = agent.pathIndex ∧
      rejected.hasGoal = agent.hasGoal ∧ rejected.blockedRetries = agent.blockedRetries ∧
      rejected.goal = agent.goal ∧
      (rejected.lastResult = agent.lastResult ∨ rejected.lastResult = none) := by
  simp only [rejectPathAgent, blockPathAgent]
  split_ifs <;> simp

/-- The agent that step 5 leaves. -/
def appliedAgent (s : JointScratch n) (agents : Fin n → PathAgentState) (i : Fin n) :
    PathAgentState :=
  match s.state i with
  | .admitted => (stepPathAgent (agents i) (s.desired i) none).1
  | .failed => (rejectPathAgent (agents i) (s.failure i) none).1
  | .inactive => agents i
  | .pending => agents i

theorem position_appliedAgent (s : JointScratch n) (agents : Fin n → PathAgentState)
    (i : Fin n) : (appliedAgent s agents i).position =
      if s.state i = .admitted then s.desired i else (agents i).position := by
  simp only [appliedAgent]
  cases hs : s.state i with
  | admitted => simp
  | failed => simpa using (rejectPathAgent_keeps (agents i) (s.failure i) none).1
  | inactive => simp
  | pending => simp

/-! ### The loops of step 5 -/

/-- **The clearing loop** clears the tiles of the admitted agents and counts them. -/
theorem foldl_clearSource {agents : Fin n → PathAgentState} {w : MovementWorld S Tag}
    (hd : w.world.IsDense) (hcontains : ∀ i, S.contains (agents i).position = true) :
    let acc := (List.finRange n).foldl (clearSource fields s agents) (w, 0)
    acc.1.world.IsDense ∧
      (∀ tag c, flagAt acc.1.world tag c =
        if tag = fields.occupancy ∧ ∃ i, s.state i = .admitted ∧ (agents i).position = c then
          false
        else flagAt w.world tag c) ∧
      (acc.2 = 0 → acc.1 = w) ∧ (acc.2 = 0 ↔ ∀ i, s.state i ≠ .admitted) := by
  classical
  have hloop := foldl_finRange (n := n) (f := clearSource fields s agents) (b := (w, 0))
    (fun m acc => acc.1.world.IsDense ∧
      (∀ tag c, flagAt acc.1.world tag c =
        if tag = fields.occupancy ∧ ∃ i : Fin n, (i : ℕ) < m ∧ s.state i = .admitted ∧
          (agents i).position = c then false
        else flagAt w.world tag c) ∧
      (acc.2 = 0 → acc.1 = w) ∧ (acc.2 = 0 ↔ ∀ i : Fin n, (i : ℕ) < m → s.state i ≠ .admitted))
    ⟨hd, by simp, by simp, by simp⟩ ?_
  · simpa using hloop
  rintro i ⟨w', count⟩ ⟨hd', hflag, hsame, hcount⟩
  simp only [clearSource]
  by_cases hi : s.state i = .admitted
  · rw [if_pos hi]
    refine ⟨?_, fun tag c => ?_, by simp, ?_⟩
    · exact MovementWorld.residency_writeFlag.trans hd'
    · rw [MovementWorld.flagAt_writeFlag hd' (hcontains i), hflag]
      by_cases htag : tag = fields.occupancy
      swap
      · simp [htag]
      by_cases hc : c = (agents i).position
      · rw [if_pos ⟨htag, hc⟩, if_pos ⟨htag, i, Nat.lt_succ_self _, hi, hc.symm⟩]
      · rw [if_neg fun h => hc h.2]
        refine if_congr (and_congr_right fun _ => exists_congr fun j => ?_) rfl rfl
        constructor
        · rintro ⟨hlt, hrest⟩
          exact ⟨by omega, hrest⟩
        · rintro ⟨hlt, hj, hpos⟩
          have hne : (j : ℕ) ≠ i := fun he => hc (by rw [← hpos, Fin.ext he])
          exact ⟨by omega, hj, hpos⟩
    · simp only [Nat.add_eq_zero_iff, one_ne_zero, and_false, false_iff, not_forall, not_not]
      exact ⟨i, Nat.lt_succ_self _, hi⟩
  · rw [if_neg hi]
    have hiff : ∀ j : Fin n, ((j : ℕ) < i + 1 ∧ s.state j = .admitted) ↔
        ((j : ℕ) < i ∧ s.state j = .admitted) := by
      intro j
      refine and_congr_left fun hj => ?_
      have hne : (j : ℕ) ≠ i := fun he => hi (Fin.ext he ▸ hj)
      omega
    refine ⟨hd', fun tag c => ?_, hsame, hcount.trans ?_⟩
    · rw [hflag]
      simp only [← and_assoc, hiff]
    · refine forall_congr' fun j => ?_
      have hj := hiff j
      tauto

/-- The flags behind one committed move. -/
theorem flagAt_commitMove (hd : p.world.world.IsDense) (hc : S.contains dest = true) :
    flagAt (commitMove fields mask p i dest).world.world tag c =
      if c = dest ∧ tag = fields.occupancy then true
      else if c = dest ∧ tag = fields.reservation then false
      else flagAt p.world.world tag c := by
  have hd' : (p.world.writeFlag fields.occupancy dest true).world.IsDense :=
    MovementWorld.residency_writeFlag.trans hd
  simp only [commitMove, MovementWorld.flagAt_markMove]
  rw [MovementWorld.flagAt_writeFlag hd' hc, MovementWorld.flagAt_writeFlag hd hc]
  by_cases hcd : c = dest
  · by_cases hocc : tag = fields.occupancy
    · have hres : tag ≠ fields.reservation := hocc ▸ fields.ne
      simp [hcd, hocc, fields.ne]
    · simp [hcd, hocc]
  · simp [hcd]

theorem isDense_commitMove (hd : p.world.world.IsDense) :
    (commitMove fields mask p i dest).world.world.IsDense := by
  simp only [commitMove, World.IsDense, MovementWorld.residency_markMove,
    MovementWorld.residency_writeFlag]
  exact hd

/-- The agents behind one member. -/
theorem agents_applyMember (hi : p.agents i = q.agents i) :
    (applyMember fields mask s p i).agents =
      Function.update p.agents i (appliedAgent s q.agents i) := by
  simp only [applyMember, appliedAgent]
  cases s.state i with
  | admitted =>
    simp only [commitMove, hi]
    rw [stepPathAgent_fst]
  | failed =>
    simp only [recordFailure, hi]
    rw [rejectPathAgent_fst]
  | inactive =>
    simp only
    rw [← hi, Function.update_eq_self]
  | pending =>
    simp only
    rw [← hi, Function.update_eq_self]

/-- **Step 5** leaves every agent as its classification asks, and moves the admitted ones as a
set. -/
theorem applyJointMoves_spec (hd : p.world.world.IsDense)
    (hpos : ∀ i, S.contains (p.agents i).position = true)
    (hdest : ∀ i, s.state i = .admitted → S.contains (s.desired i) = true) :
    (applyJointMoves fields mask s p).1.agents = appliedAgent s p.agents ∧
      MovedAsSet fields p.world.world (applyJointMoves fields mask s p).1.world.world
        (s.state · = .admitted) (fun i => (p.agents i).position) s.desired ∧
      ((applyJointMoves fields mask s p).2 = 0 ↔ ∀ i, s.state i ≠ .admitted) ∧
      ((applyJointMoves fields mask s p).2 = 0 →
        (applyJointMoves fields mask s p).1.world = p.world) := by
  classical
  obtain ⟨hd₁, hflag₁, hsame, hcount⟩ :=
    foldl_clearSource (s := s) (w := p.world) hd hpos
  simp only [applyJointMoves]
  generalize (List.finRange n).foldl (clearSource fields s p.agents) (p.world, 0) = acc
    at hd₁ hflag₁ hsame hcount
  have hloop := foldl_finRange (n := n) (f := applyMember fields mask s)
    (b := { p with world := acc.1, stats := s.stats })
    (fun m q => (∀ j : Fin n, q.agents j =
        if (j : ℕ) < m then appliedAgent s p.agents j else p.agents j) ∧
      q.world.world.IsDense ∧
      (∀ tag c, flagAt q.world.world tag c =
        if ∃ i : Fin n, (i : ℕ) < m ∧ s.state i = .admitted ∧ s.desired i = c then
          (if tag = fields.occupancy then true
            else if tag = fields.reservation then false else flagAt acc.1.world tag c)
        else flagAt acc.1.world tag c) ∧
      ((∀ i, s.state i ≠ .admitted) → q.world = acc.1))
    ⟨by simp, hd₁, by simp, fun _ => rfl⟩ ?_
  · obtain ⟨hagents, hd₂, hflag₂, hworld⟩ := hloop
    refine ⟨?_, ⟨hd₂, fun c => ?_, fun c => ?_, fun tag hocc hres c => ?_⟩, hcount,
      fun h0 => (hworld (hcount.1 h0)).trans (hsame h0)⟩
    · funext j
      simpa using hagents j
    · rw [hflag₂, hflag₁]
      simp only [Fin.is_lt, true_and, if_true, true_and]
      by_cases hin : ∃ i, s.state i = .admitted ∧ s.desired i = c
      · simp [hin]
      · rw [if_neg hin]
        by_cases hout : ∃ i, s.state i = .admitted ∧ (p.agents i).position = c
        · rw [if_pos hout]
          obtain ⟨i, hi, hic⟩ := hout
          simp only [Bool.false_eq_true, false_iff, not_or, not_and, not_forall, not_not]
          exact ⟨hin, fun _ => ⟨i, hi, hic⟩⟩
        · rw [if_neg hout]
          refine ⟨fun h => Or.inr ⟨h, fun i hi hic => hout ⟨i, hi, hic⟩⟩, ?_⟩
          rintro (h | h)
          · exact absurd h hin
          · exact h.1
    · have hne : fields.reservation ≠ fields.occupancy := fields.ne.symm
      rw [hflag₂, hflag₁]
      simp only [Fin.is_lt, true_and, hne, false_and, if_false, if_true]
      by_cases hin : ∃ i, s.state i = .admitted ∧ s.desired i = c
      · rw [if_pos hin]
        obtain ⟨i, hi, hic⟩ := hin
        simp only [Bool.false_eq_true, false_iff, not_and, not_forall, not_not]
        exact fun _ => ⟨i, hi, hic⟩
      · rw [if_neg hin]
        exact ⟨fun h => ⟨h, fun i hi hic => hin ⟨i, hi, hic⟩⟩, And.left⟩
    · rw [hflag₂, hflag₁]
      simp [hocc, hres]
  rintro i q ⟨hagents, hd₂, hflag₂, hworld⟩
  have hqi : q.agents i = p.agents i := by rw [hagents i, if_neg (lt_irrefl _)]
  have hagents' : ∀ j : Fin n, (applyMember fields mask s q i).agents j =
      if (j : ℕ) < i + 1 then appliedAgent s p.agents j else p.agents j := by
    intro j
    rw [agents_applyMember (q := p) hqi]
    by_cases hj : j = i
    · subst hj
      rw [Function.update_self, if_pos (Nat.lt_succ_self _)]
    · rw [Function.update_of_ne hj, hagents j]
      have hne : (j : ℕ) ≠ i := fun he => hj (Fin.ext he)
      exact if_congr (by omega) rfl rfl
  by_cases hi : s.state i = .admitted
  · have happly : applyMember fields mask s q i = commitMove fields mask q i (s.desired i) := by
      simp only [applyMember, hi]
    refine ⟨hagents', ?_, fun tag c => ?_, fun hnone => absurd hi (hnone i)⟩
    · rw [happly]
      exact isDense_commitMove hd₂
    · rw [happly, flagAt_commitMove hd₂ (hdest i hi), hflag₂]
      by_cases hc : c = s.desired i
      · rw [if_pos (c := ∃ j : Fin n, (j : ℕ) < i + 1 ∧ s.state j = .admitted ∧ s.desired j = c)
          ⟨i, Nat.lt_succ_self _, hi, hc.symm⟩]
        by_cases hocc : tag = fields.occupancy
        · simp [hc, hocc]
        · by_cases hres : tag = fields.reservation
          · simp [hc, hres]
          · simp [hc, hocc, hres]
      · rw [if_neg fun h => hc h.1, if_neg fun h => hc h.1]
        refine if_congr (exists_congr fun j => ?_) rfl rfl
        constructor
        · rintro ⟨hlt, hrest⟩
          exact ⟨by omega, hrest⟩
        · rintro ⟨hlt, hj, hjc⟩
          have hne : (j : ℕ) ≠ i := fun he => hc (by rw [← hjc, Fin.ext he])
          exact ⟨by omega, hj, hjc⟩
  · have hwsame : (applyMember fields mask s q i).world = q.world := by
      simp only [applyMember]
      cases hs : s.state i with
      | admitted => exact absurd hs hi
      | failed => rfl
      | inactive => rfl
      | pending => rfl
    refine ⟨hagents', ?_, fun tag c => ?_, fun hnone => hwsame.trans (hworld hnone)⟩
    · rw [hwsame]
      exact hd₂
    · rw [hwsame, hflag₂]
      refine if_congr (exists_congr fun j => ?_) rfl rfl
      rw [← and_assoc, ← and_assoc]
      refine and_congr_left fun _ => and_congr_left fun hj => ?_
      have hne : (j : ℕ) ≠ i := fun he => hi (Fin.ext he ▸ hj)
      omega

/-! ### One round -/

variable (cls fields routes options) in
/-- Everything one round does: it leaves `next`, with the classification `s`, behind `q`. -/
structure RoundSpec (q : MovementPass S Tag n) (s : JointScratch n) (next : MovementPass S Tag n)
    (admittedCount : ℕ) : Prop where
  /-- The admitted set is maximal. -/
  admission : MaximalAdmission q.world.world cls fields q.agents routes options s
  /-- The agents are left as their classification asks. -/
  agents : next.agents = appliedAgent s q.agents
  /-- The admitted agents move as a set. -/
  moved : MovedAsSet fields q.world.world next.world.world (s.state · = .admitted)
    (fun i => (q.agents i).position) s.desired
  /-- The agents hold their tiles again. -/
  holds : HoldsTiles next.world.world fields next.agents
  /-- An agent recorded as occupied wants a tile that is occupied after the round. -/
  occupied : ∀ i, s.state i = .failed → s.failure i = .occupied →
    flagAt next.world.world fields.occupancy (s.desired i) = true
  /-- A cycle of three and more ready agents rotates. -/
  rotates : ∀ l, IsCycle (wantsOf q.agents (jointTarget q.agents routes)) l → 3 ≤ l.length →
    (∀ i ∈ l, Ready q.world.world cls fields q.agents routes i) →
    ∀ i ∈ l, jointTarget q.agents routes i = some (next.agents i).position
  /-- Two ready agents that want each other's tile exchange them when the policy lets them, and
  stay otherwise. -/
  exchanges : ∀ i j, Ready q.world.world cls fields q.agents routes i →
    Ready q.world.world cls fields q.agents routes j → i ≠ j →
    jointTarget q.agents routes i = some (q.agents j).position →
    jointTarget q.agents routes j = some (q.agents i).position →
    if swapAllowed q.agents options i j then
      (next.agents i).position = (q.agents j).position ∧
        (next.agents j).position = (q.agents i).position
    else (next.agents i).position = (q.agents i).position ∧
      (next.agents j).position = (q.agents j).position
  /-- The count is zero when nobody was admitted. -/
  count : admittedCount = 0 ↔ ∀ i, s.state i ≠ .admitted
  /-- A round that admits nobody leaves the world alone. -/
  still : admittedCount = 0 → next.world = q.world

omit [DecidableEq Tag] in
theorem RoundSpec.position {next : MovementPass S Tag n} {admittedCount : ℕ}
    (h : RoundSpec cls fields routes options q s next admittedCount) (i : Fin n) :
    (next.agents i).position =
      if s.state i = .admitted then s.desired i else (q.agents i).position := by
  rw [h.agents, position_appliedAgent]

omit [DecidableEq Tag] in
/-- Two agents that want each other's tile are a cycle. -/
theorem isCycle_pair {W : World S Tag} {agents : Fin n → PathAgentState}
    {target : Fin n → Option Coord3} (hholds : HoldsTiles W fields agents) (hne : i ≠ j)
    (hi : target i = some (agents j).position) (hj : target j = some (agents i).position) :
    IsCycle (wantsOf agents target) [i, j] := by
  refine IsCycle.of_chain (by simp [hne]) ?_ ?_
  · rw [List.isChain_pair]
    exact (wantsOf_eq_some hholds).2 hi
  · exact (wantsOf_eq_some hholds).2 hj

/-- **One round** of a joint pass. -/
theorem jointRound_spec (cls : MovementClass S Tag) (routes : Fin n → List Coord3)
    (options : JointMoveOptions) (mask : BitVec 32) (q : MovementPass S Tag n)
    (hholds : HoldsTiles q.world.world fields q.agents) :
    ∃ s next admittedCount, jointRound cls fields routes options mask q =
      some (s, next, admittedCount) ∧
        RoundSpec cls fields routes options q s next admittedCount := by
  obtain ⟨s, hs, hadm⟩ := exists_jointAdmission hholds cls routes options q.stats
  have hdest : ∀ i, s.state i = .admitted → S.contains (s.desired i) = true := by
    intro i hi
    obtain ⟨⟨t, ht, hstep⟩, htarget⟩ := hadm.ready i hi
    rw [htarget, Option.some.injEq] at ht
    rw [ht]
    exact hstep.elim StepFree.contains StepHeld.contains
  obtain ⟨hagents, hmoved, hcount, hstill⟩ := applyJointMoves_spec
    (p := q) hholds.dense hholds.contains hdest
  have hposition : ∀ i, ((applyJointMoves fields mask s q).1.agents i).position =
      if s.state i = .admitted then s.desired i else (q.agents i).position := by
    intro i
    rw [hagents, position_appliedAgent]
  have hholds' : HoldsTiles (applyJointMoves fields mask s q).1.world.world fields
      (applyJointMoves fields mask s q).1.agents := by
    refine hmoved.holdsTiles hholds (fun i hi => ?_) (fun i hi => ?_) hadm.unique
      fun i hi j hpos => ?_
    · rw [hposition, if_pos hi]
    · rw [hposition, if_neg hi]
    · obtain ⟨k, hk, hk'⟩ := hadm.vacated i hi (hpos ▸ hholds.occupied j)
      rwa [hholds.inj j k (by rw [hpos, hk'])]
  refine ⟨s, (applyJointMoves fields mask s q).1, (applyJointMoves fields mask s q).2,
    by simp only [jointRound, hs, Option.map_some], hadm, hagents, hmoved, hholds',
    fun i hi hf => ?_, fun l hl hlen hready i hi => ?_, fun i j hi hj hne hij hji => ?_, hcount,
    hstill⟩
  · rw [hmoved.occupancy]
    refine (hadm.occupied i hi hf).imp_right fun h => ⟨h.1, fun j hj hpos => h.2 j hpos hj⟩
  · have hi' : s.state i = .admitted := by
      refine (hadm.cycles l hl hready i hi).2 ?_
      rw [cycleAdmitted_eq]
      simp [hlen]
    rw [hposition, if_pos hi']
    exact (hadm.ready i hi').2
  · have hcycle := isCycle_pair hholds hne hij hji
    have hmoves := hadm.cycles [i, j] hcycle (by simp [hi, hj])
    have hmovesI := hmoves i (by simp)
    have hmovesJ := hmoves j (by simp)
    rw [show cycleAdmitted q.agents options [i, j] = swapAllowed q.agents options i j from rfl]
      at hmovesI hmovesJ
    rw [hposition, hposition]
    split_ifs with hallowed hi' hj' hj' hi' hj' hj'
    · have hdi := (hadm.ready i hi').2
      have hdj := (hadm.ready j hj').2
      rw [hij, Option.some.injEq] at hdi
      rw [hji, Option.some.injEq] at hdj
      exact ⟨hdi.symm, hdj.symm⟩
    · exact absurd (hmovesJ.2 hallowed) hj'
    · exact absurd (hmovesI.2 hallowed) hi'
    · exact absurd (hmovesI.2 hallowed) hi'
    · exact absurd (hmovesI.1 hi') hallowed
    · exact absurd (hmovesI.1 hi') hallowed
    · exact absurd (hmovesJ.1 hj') hallowed
    · exact ⟨rfl, rfl⟩

/-! ### The rounds of a call -/

omit [DecidableEq Tag] in
/-- What step 5 leaves of an agent that does not move. -/
theorem appliedAgent_keeps (agents : Fin n → PathAgentState) (hi : s.state i ≠ .admitted) :
    let left := appliedAgent s agents i
    left.position = (agents i).position ∧ left.pathIndex = (agents i).pathIndex ∧
      left.hasGoal = (agents i).hasGoal ∧ left.blockedRetries = (agents i).blockedRetries ∧
      (left.lastResult = (agents i).lastResult ∨ left.lastResult = none) := by
  simp only [appliedAgent]
  cases hs : s.state i with
  | admitted => exact absurd hs hi
  | failed =>
    obtain ⟨h1, h2, h3, h4, -, h5⟩ := rejectPathAgent_keeps (agents i) (s.failure i) none
    exact ⟨h1, h2, h3, h4, h5⟩
  | inactive => exact ⟨rfl, rfl, rfl, rfl, Or.inl rfl⟩
  | pending => exact ⟨rfl, rfl, rfl, rfl, Or.inl rfl⟩

omit [DecidableEq Tag] in
/-- **A round behind one that admits nobody** admits nobody either: the world is the same, no
agent moved, and none has a target it did not have before. -/
theorem RoundSpec.still_again {s' : JointScratch n} {next next' : MovementPass S Tag n}
    {admittedCount : ℕ} (hholds : HoldsTiles q.world.world fields q.agents)
    (h : RoundSpec cls fields routes options q s next 0)
    (h' : RoundSpec cls fields routes options next s' next' admittedCount) :
    admittedCount = 0 := by
  have hnone := h.count.1 rfl
  have hworld : next.world = q.world := h.still rfl
  have hkeeps := fun i => appliedAgent_keeps q.agents (hnone i)
  rw [← h.agents] at hkeeps
  have htarget : ∀ i t, jointTarget next.agents routes i = some t →
      jointTarget q.agents routes i = some t := by
    intro i t ht
    obtain ⟨-, hindex, hgoal, -, hresult⟩ := hkeeps i
    simp only [jointTarget, nextStep, hindex, hgoal] at ht ⊢
    rcases hresult with hresult | hresult
    · rwa [hresult] at ht
    · simp [hresult] at ht
  have hverdict : ∀ i t, stepVerdict next.world.world cls fields next.agents i t =
      stepVerdict q.world.world cls fields q.agents i t := by
    intro i t
    rw [stepVerdict, hworld, (hkeeps i).1]
    rfl
  rw [h'.count]
  intro i hi
  rcases h'.admission.source ⟨i, hi⟩ with ⟨j, t, ht, hfree⟩ | ⟨l, hl, hready, hadm⟩
  · -- a free destination would have gone to the first agent that wants it
    have hex : ∃ j, jointTarget q.agents routes j = some t ∧
        StepFree q.world.world cls fields q.agents j t :=
      ⟨j, htarget j t ht, (hverdict j t).symm.trans hfree⟩
    obtain ⟨k, ⟨hk, hkfree⟩, hfirst⟩ := WellFounded.has_min (wellFounded_lt (α := Fin n)) _ hex
    refine hnone k ((h.admission.free k t hk hkfree).2 fun m hm hmt hmfree => ?_)
    exact hfirst m ⟨hmt, hmfree⟩ hm
  · -- a cycle that may move would have moved
    obtain ⟨j, hj⟩ := List.exists_mem_of_ne_nil l hl.ne_nil
    have hmap : l.map (wantsOf q.agents (jointTarget q.agents routes)) =
        l.map (wantsOf next.agents (jointTarget next.agents routes)) := by
      refine List.map_congr_left fun k hk => ?_
      obtain ⟨m, -, hkm⟩ := hl.next_mem hk
      rw [hkm]
      rw [wantsOf_eq_some h.holds, (hkeeps m).1] at hkm
      exact (wantsOf_eq_some hholds).2 (htarget k _ hkm)
    have hl' : IsCycle (wantsOf q.agents (jointTarget q.agents routes)) l :=
      ⟨hl.1, hl.2, hmap.trans hl.3⟩
    have hready' : ∀ k ∈ l, Ready q.world.world cls fields q.agents routes k := by
      intro k hk
      obtain ⟨t, ht, hstep⟩ := hready k hk
      refine ⟨t, htarget k t ht, hstep.imp (fun hfree => ?_) fun hheld => ?_⟩
      · exact (hverdict k t).symm.trans hfree
      · exact ⟨(hverdict k t).symm.trans hheld.1, hworld ▸ hheld.2⟩
    have hadm' : cycleAdmitted q.agents options l = true := by
      have hretries : ∀ k, (next.agents k).blockedRetries = (q.agents k).blockedRetries :=
        fun k => (hkeeps k).2.2.2.1
      rw [cycleAdmitted_eq] at hadm ⊢
      simpa only [hretries] using hadm
    exact hnone j ((h.admission.cycles l hl' hready' j hj).2 hadm')

variable (cls fields routes options mask) in
/-- The rounds that a call would make if no round ended it. -/
def jointRoundsFull : ℕ → MovementPass S Tag n → Option (MovementPass S Tag n)
  | 0, p => some p
  | steps + 1, p =>
    match jointRound cls fields routes options mask p with
    | none => none
    | some (_, next, _) => jointRoundsFull steps next

/-- The agents hold their tiles in every round. -/
theorem exists_jointRoundsFull (hholds : HoldsTiles p.world.world fields p.agents)
    (steps : ℕ) : ∃ q, jointRoundsFull cls fields routes options mask steps p = some q ∧
      HoldsTiles q.world.world fields q.agents := by
  induction steps generalizing p with
  | zero => exact ⟨p, rfl, hholds⟩
  | succ steps ih =>
    obtain ⟨s, next, count, hround, hspec⟩ := jointRound_spec cls routes options mask p hholds
    obtain ⟨q, hq, hholds'⟩ := ih hspec.holds
    exact ⟨q, by simp only [jointRoundsFull, hround, hq], hholds'⟩

/-- Every round behind one that admits nobody admits nobody, and moves nobody. -/
theorem still_rounds {q : MovementPass S Tag n} {s : JointScratch n}
    {next : MovementPass S Tag n} (hholds : HoldsTiles q.world.world fields q.agents)
    (h : RoundSpec cls fields routes options q s next 0) (steps : ℕ) :
    ∃ q' s' next', jointRoundsFull cls fields routes options mask steps next = some q' ∧
      jointRound cls fields routes options mask q' = some (s', next', 0) ∧
      (∀ i, s'.state i ≠ .admitted) ∧ q'.world = next.world ∧
      ∀ i, (q'.agents i).position = (next.agents i).position := by
  induction steps generalizing q s next with
  | zero =>
    obtain ⟨s', next', count, hround, hspec⟩ :=
      jointRound_spec cls routes options mask next h.holds
    have hzero := h.still_again hholds hspec
    subst hzero
    exact ⟨next, s', next', rfl, hround, hspec.count.1 rfl, rfl, fun _ => rfl⟩
  | succ steps ih =>
    obtain ⟨s₁, next₁, count, hround, hspec⟩ :=
      jointRound_spec cls routes options mask next h.holds
    have hzero := h.still_again hholds hspec
    subst hzero
    obtain ⟨q', s', next', hfull, hround', hnone, hworld, hpos⟩ := ih h.holds hspec
    refine ⟨q', s', next', by simp only [jointRoundsFull, hround, hfull], hround', hnone,
      hworld.trans (hspec.still rfl), fun i => ?_⟩
    rw [hpos, hspec.position, if_neg (hspec.count.1 rfl i)]

/-- **The early break loses no move**: the call ends in the configuration of all its rounds. -/
theorem jointRounds_eq_full (hholds : HoldsTiles p.world.world fields p.agents) (steps : ℕ) :
    ∃ result full, jointRounds cls fields routes options mask steps p = some result ∧
      jointRoundsFull cls fields routes options mask steps p = some full ∧
      result.world = full.world ∧
      ∀ i, (result.agents i).position = (full.agents i).position := by
  induction steps generalizing p with
  | zero => exact ⟨p, p, rfl, rfl, rfl, fun _ => rfl⟩
  | succ steps ih =>
    obtain ⟨s, next, count, hround, hspec⟩ := jointRound_spec cls routes options mask p hholds
    simp only [jointRounds, jointRoundsFull, hround]
    by_cases hzero : count = 0
    · subst hzero
      obtain ⟨q', -, -, hfull, -, -, hworld, hpos⟩ :=
        still_rounds hholds hspec steps
      rw [if_pos rfl]
      exact ⟨next, q', rfl, hfull, hworld.symm, fun i => (hpos i).symm⟩
    · rw [if_neg hzero]
      exact ih hspec.holds

variable (cls fields routes options) in
/-- Every round of a call admits a maximal set, and the rounds that an early end leaves out would
admit nobody. -/
def JointCallMaximal (advance : PathAgentAdvanceOptions) (p : MovementPass S Tag n) : Prop :=
  (∀ k, ∃ q s next admittedCount,
    jointRoundsFull cls fields routes options advance.movementDirtyMask k { p with stats := {} } =
      some q ∧
    jointRound cls fields routes options advance.movementDirtyMask q =
      some (s, next, admittedCount) ∧
    RoundSpec cls fields routes options q s next admittedCount ∧
    ((∀ i, s.state i ≠ .admitted) → ∀ m, ∃ q' s' next',
      jointRoundsFull cls fields routes options advance.movementDirtyMask m next = some q' ∧
      jointRound cls fields routes options advance.movementDirtyMask q' = some (s', next', 0) ∧
      ∀ i, s'.state i ≠ .admitted)) ∧
  ∃ result full, advanceWithJointMovement cls fields routes options advance p = some result ∧
    jointRoundsFull cls fields routes options advance.movementDirtyMask advance.maxSteps
      { p with stats := {} } = some full ∧
    result.world = full.world ∧ ∀ i, (result.agents i).position = (full.agents i).position

/-- **Joint movement is maximal**: agents on distinct occupied tiles of a dense world, with any
routes and any policy. -/
theorem joint_movement_maximal (cls : MovementClass S Tag) (fields : MovementFields Tag)
    (routes : Fin n → List Coord3) (options : JointMoveOptions)
    (advance : PathAgentAdvanceOptions) (p : MovementPass S Tag n)
    (hholds : HoldsTiles p.world.world fields p.agents) :
    JointCallMaximal cls fields routes options advance p := by
  have hholds' : HoldsTiles ({ p with stats := {} } : MovementPass S Tag n).world.world fields
      ({ p with stats := {} } : MovementPass S Tag n).agents := hholds
  refine ⟨fun k => ?_, jointRounds_eq_full hholds' advance.maxSteps⟩
  obtain ⟨q, hq, hholdsQ⟩ := exists_jointRoundsFull
    hholds' k
  obtain ⟨s, next, count, hround, hspec⟩ :=
    jointRound_spec cls routes options advance.movementDirtyMask q hholdsQ
  refine ⟨q, s, next, count, hq, hround, hspec, fun hnone m => ?_⟩
  have hzero := hspec.count.2 hnone
  subst hzero
  obtain ⟨q', s', next', hfull, hround', hnone', -, -⟩ :=
    still_rounds hholdsQ hspec m
  exact ⟨q', s', next', hfull, hround', hnone'⟩

end Application

/-! ### Four agents on a square -/

/-- The fields of the square that agents move through. -/
def squareFields : MovementFields SquareTag := ⟨.occupancy, .reservation, by decide⟩

/-- The tiles of the square, one turn around it. -/
def squareRing : Fin 4 → Coord3
  | 0 => ⟨0, 0, 0⟩
  | 1 => ⟨1, 0, 0⟩
  | 2 => ⟨1, 1, 0⟩
  | 3 => ⟨0, 1, 0⟩

/-- Every tile of the square is held by an agent that wants the following one. -/
def ringPass : MovementPass square SquareTag 4 where
  world := { world := .dense square fun tag _ =>
    match tag with
    | .passable => 1
    | .cost => 1
    | .occupancy => 1
    | .reservation => 0 }
  agents i :=
    { position := squareRing i
      goal := squareRing (i + 1)
      lastResult := some .found
      phase := .following
      hasGoal := true }

/-- The retained routes around the square. -/
def ringRoutes (i : Fin 4) : List Coord3 := [squareRing i, squareRing (i + 1)]

theorem holdsTiles_ringPass : HoldsTiles ringPass.world.world squareFields ringPass.agents :=
  ⟨rfl, by decide, by decide⟩

/-- The ring of four agents rotates. -/
theorem joint_movement_maximal_ring :
    JointCallMaximal tollClass squareFields ringRoutes {} {} ringPass ∧
      (advanceWithJointMovement tollClass squareFields ringRoutes {} {} ringPass).map
        (fun p => fun i => (p.agents i).position) = some fun i => squareRing (i + 1) :=
  ⟨joint_movement_maximal tollClass squareFields ringRoutes {} {} ringPass holdsTiles_ringPass,
    by decide⟩

end Tess
