import Tess.Sim.PibtRounds

/-!
# Runs of movement

Agents advance one by one along their routes, jointly, or by PIBT, in any mix.  Whatever moves
them, they stay apart, and the occupancy field says where they are.

* `LegalMove`, `SetMove` : a move of one agent, and a configuration that changes as a set;
* `commitStep`, `walkAgent`, `advanceWithMovement` : the per-agent advance;
* `MovementCall`, `MovementRun` : the calls, and the runs that mix them;
* `movement_run_spec` : **every call of a run moves by legal steps onto tiles that are free or
  left at once, and keeps the agents apart**.

A move of the per-agent advance is legal when it is made: `legalAtCommit_only`.
-/

namespace Tess

open Graphs

/-! ### Configurations that change -/

section Configurations

variable {S : Shape} {Tag : Type*} {n : ℕ} {cls : MovementClass S Tag}
  {fields : MovementFields Tag} {W W' W'' : World S Tag}
  {agents agents' agents'' : Fin n → PathAgentState} {i : Fin n} {c dest : Coord3}

variable (cls fields W agents) in
/-- One regular step of an agent that is legal for its class, onto a tile that is not reserved and
that nothing outside the list holds. -/
structure LegalMove (i : Fin n) (dest : Coord3) : Prop where
  /-- The agent can leave its tile. -/
  passable : isPassable W cls (agents i).position = true
  /-- The step is legal, without edges of a provider. -/
  legal : ∃ k, LegalStep W cls (adjacentTransitions S Tag) (agents i).position dest k
  /-- The tile is not reserved. -/
  unreserved : flagAt W fields.reservation dest = false
  /-- Only an agent holds the tile. -/
  held : flagAt W fields.occupancy dest = true → ∃ j, (agents j).position = dest

/-- The tile is occupied, and not by an agent of the list. -/
def HeldOutside (fields : MovementFields Tag) (W : World S Tag)
    (agents : Fin n → PathAgentState) (c : Coord3) : Prop :=
  flagAt W fields.occupancy c = true ∧ ∀ i, (agents i).position ≠ c

variable (cls fields) in
/-- Agents that move do so by legal moves in the configuration they leave, and all at once. -/
structure SetMove (mayExchange : Fin n → Fin n → Prop) (W : World S Tag)
    (agents : Fin n → PathAgentState) (W' : World S Tag) (agents' : Fin n → PathAgentState) :
    Prop where
  /-- Every move is legal before the agents move. -/
  moves : ∀ i, (agents' i).position ≠ (agents i).position →
    LegalMove cls fields W agents i (agents' i).position
  /-- Two agents exchange tiles only when they may. -/
  exchanges : ∀ i j, i ≠ j → (agents' i).position = (agents j).position →
    (agents' j).position = (agents i).position → mayExchange i j
  /-- The agents hold their tiles again. -/
  holds : HoldsTiles W' fields agents'
  /-- What the agents do not hold stays as it is. -/
  outside : ∀ c, HeldOutside fields W' agents' c ↔ HeldOutside fields W agents c

/-- **Agents that move as a set** by legal moves leave what others hold alone. -/
theorem MovedAsSet.heldOutside {moves : Fin n → Prop} {dest : Fin n → Coord3}
    (h : MovedAsSet fields W W' moves (fun i => (agents i).position) dest)
    (hmoved : ∀ i, moves i → (agents' i).position = dest i)
    (hstayed : ∀ i, ¬ moves i → (agents' i).position = (agents i).position)
    (hheld : ∀ i, moves i → flagAt W fields.occupancy (dest i) = true →
      ∃ j, (agents j).position = dest i) (c : Coord3) :
    HeldOutside fields W' agents' c ↔ HeldOutside fields W agents c := by
  rw [HeldOutside, HeldOutside, h.occupancy]
  constructor
  · rintro ⟨⟨i, hi, rfl⟩ | ⟨hocc, hleft⟩, hnone⟩
    · exact absurd (hmoved i hi) (hnone i)
    · refine ⟨hocc, fun i hic => ?_⟩
      by_cases hi : moves i
      · exact hleft i hi hic
      · exact hnone i ((hstayed i hi).trans hic)
  · rintro ⟨hocc, hnone⟩
    refine ⟨Or.inr ⟨hocc, fun i _ => hnone i⟩, fun i hic => ?_⟩
    by_cases hi : moves i
    · rw [hmoved i hi] at hic
      obtain ⟨j, hj⟩ := hheld i hi (hic.symm ▸ hocc)
      exact hnone j (hj.trans hic)
    · rw [hstayed i hi] at hic
      exact hnone i hic

/-- A configuration that stays. -/
theorem SetMove.refl {mayExchange : Fin n → Fin n → Prop} (hholds : HoldsTiles W fields agents)
    (hpos : ∀ i, (agents' i).position = (agents i).position) :
    SetMove cls fields mayExchange W agents W agents' where
  moves i hi := absurd (hpos i) hi
  exchanges i j hij hi _ := absurd (hholds.inj i j ((hpos i).symm.trans hi)) hij
  holds :=
    ⟨hholds.dense, fun i j h => hholds.inj i j (by rw [← hpos i, ← hpos j, h]),
      fun i => by rw [hpos]; exact hholds.occupied i⟩
  outside c := by simp only [HeldOutside, hpos]

end Configurations

/-! ### The per-agent advance -/

section PerAgent

variable {S : Shape} {Tag : Type*} [DecidableEq Tag] {n : ℕ} (cls : MovementClass S Tag)
  (fields : MovementFields Tag) (mask : BitVec 32)

/-- `commit_movement_intent` for an agent, and what follows of its record; none when the step is
refused. -/
def commitStep (p : MovementPass S Tag n) (i : Fin n) (dest : Coord3) :
    MovementPass S Tag n × MovementStatus :=
  let status := stepVerdict p.world.world cls fields p.agents i dest
  if status = .moved then
    (commitMove fields mask
      { p with world := p.world.writeFlag fields.occupancy (p.agents i).position false } i dest,
      .moved)
  else (recordFailure p i status, status)

/-- The steps of one agent along its route: a refused step and the goal end them. -/
def walkAgent (route : List Coord3) : ℕ → MovementPass S Tag n → Fin n → MovementPass S Tag n
  | 0, p, _ => p
  | steps + 1, p, i =>
    match nextStep (p.agents i) route with
    | none => p
    | some dest =>
      let (next, status) := commitStep cls fields mask p i dest
      if status = .moved ∧ dest ≠ (p.agents i).goal then walkAgent route steps next i else next

/-- `advance_path_agents_with_movement` on retained routes. -/
def advanceWithMovement (routes : Fin n → List Coord3) (advance : PathAgentAdvanceOptions)
    (p : MovementPass S Tag n) : MovementPass S Tag n :=
  (List.finRange n).foldl
    (fun p i =>
      if (p.agents i).hasGoal ∧ (p.agents i).lastResult = some .found then
        walkAgent cls fields advance.movementDirtyMask (routes i) advance.maxSteps p i
      else p)
    { p with stats := {} }

variable {cls fields mask} {p q : MovementPass S Tag n} {i j : Fin n} {dest : Coord3}

/-- **A committed step** moves one agent. -/
theorem commitMove_spec (hholds : HoldsTiles p.world.world fields p.agents)
    (hfree : StepFree p.world.world cls fields p.agents i dest) :
    SetMove cls fields (fun _ _ => False) p.world.world p.agents
      (commitMove fields mask
        { p with world := p.world.writeFlag fields.occupancy (p.agents i).position false } i
        dest).world.world
      (commitMove fields mask
        { p with world := p.world.writeFlag fields.occupancy (p.agents i).position false } i
        dest).agents := by
  have hdest := hfree.contains
  obtain ⟨hpass, hlegal⟩ := hfree.legal
  obtain ⟨hocc, hres⟩ := hfree.flags
  have hd : (p.world.writeFlag fields.occupancy (p.agents i).position false).world.IsDense :=
    MovementWorld.residency_writeFlag.trans hholds.dense
  have hself : ((commitMove fields mask
      { p with world := p.world.writeFlag fields.occupancy (p.agents i).position false } i
      dest).agents i).position = dest := by
    simp only [commitMove, Function.update_self, position_stepPathAgent]
  have hother : ∀ j, j ≠ i → ((commitMove fields mask
      { p with world := p.world.writeFlag fields.occupancy (p.agents i).position false } i
      dest).agents j).position = (p.agents j).position := by
    intro j hj
    simp only [commitMove, Function.update_of_ne hj]
  have hnobody : ∀ j, (p.agents j).position ≠ dest := by
    rintro j rfl
    rw [hholds.occupied j] at hocc
    cases hocc
  have hmoved : MovedAsSet fields p.world.world (commitMove fields mask
      { p with world := p.world.writeFlag fields.occupancy (p.agents i).position false } i
      dest).world.world (· = i) (fun j => (p.agents j).position) fun _ => dest := by
    refine ⟨isDense_commitMove hd, fun c => ?_, fun c => ?_, fun tag hocc' hres' c => ?_⟩
    · rw [flagAt_commitMove hd hdest,
        MovementWorld.flagAt_writeFlag hholds.dense (hholds.contains i)]
      simp only [exists_eq_left, forall_eq]
      by_cases hc : c = dest
      · simp [hc]
      · have hc' : dest ≠ c := fun h => hc h.symm
        by_cases hleft : c = (p.agents i).position
        · subst hleft
          simp [hnobody i, (hnobody i).symm]
        · have hleft' : (p.agents i).position ≠ c := fun h => hleft h.symm
          simp [hc, hc', hleft, hleft']
    · rw [flagAt_commitMove hd hdest,
        MovementWorld.flagAt_writeFlag hholds.dense (hholds.contains i)]
      by_cases hc : c = dest
      · simp [hc, fields.ne.symm]
      · have hc' : dest ≠ c := fun h => hc h.symm
        simp [hc, hc', fields.ne.symm]
    · rw [flagAt_commitMove hd hdest,
        MovementWorld.flagAt_writeFlag hholds.dense (hholds.contains i)]
      simp [hocc', hres']
  constructor
  case moves =>
    intro j hj
    by_cases hji : j = i
    · subst hji
      rw [hself]
      exact ⟨hpass, hlegal, hres, fun h => by rw [hocc] at h; cases h⟩
    · exact absurd (hother j hji) hj
  case exchanges =>
    intro j k hjk hj hk
    by_cases hji : j = i
    · subst hji
      exact hnobody k (hj.symm.trans hself)
    · rw [hother j hji] at hj
      exact hjk (hholds.inj j k hj)
  case holds =>
    refine hmoved.holdsTiles hholds (fun j hj => hj ▸ hself) hother
      (fun j k hj hk _ => hj.trans hk.symm) fun j _ k hk => absurd hk (hnobody k)
  case outside =>
    exact hmoved.heldOutside (fun j hj => hj ▸ hself) hother fun j _ h => by
      rw [hocc] at h
      cases h

omit [DecidableEq Tag] in
/-- A refused step moves nobody. -/
theorem position_recordFailure (p : MovementPass S Tag n) (i : Fin n) (status : MovementStatus)
    (j : Fin n) : ((recordFailure p i status).agents j).position = (p.agents j).position := by
  rw [recordFailure]
  by_cases hji : j = i
  · subst hji
    simp only [Function.update_self]
    exact (rejectPathAgent_keeps _ status p.accounting).1
  · simp only [Function.update_of_ne hji]

/-- **One step of the per-agent advance.** -/
theorem commitStep_spec (hholds : HoldsTiles p.world.world fields p.agents) (i : Fin n)
    (dest : Coord3) :
    SetMove cls fields (fun _ _ => False) p.world.world p.agents
      (commitStep cls fields mask p i dest).1.world.world
      (commitStep cls fields mask p i dest).1.agents := by
  rw [commitStep]
  by_cases hstatus : stepVerdict p.world.world cls fields p.agents i dest = .moved
  · simp only [hstatus, if_true]
    exact commitMove_spec hholds hstatus
  · simp only [hstatus, if_false]
    exact SetMove.refl hholds (position_recordFailure p i _)

end PerAgent

/-! ### Classes that do not see the agents -/

section Terrain

variable {S : Shape} {Tag : Type*} {n : ℕ} {cls : MovementClass S Tag}
  {fields : MovementFields Tag} {W W' : World S Tag} {a b c d : Coord3} {tag : Tag}

/-- The class reads neither the occupancy nor the reservation field. -/
def IgnoresFlags (cls : MovementClass S Tag) (fields : MovementFields Tag) : Prop :=
  ∀ (page page' : ChunkPage Tag) (id : ℕ), page'.chunkKey = page.chunkKey →
    (∀ tag, tag ≠ fields.occupancy → tag ≠ fields.reservation →
      page'.field tag = page.field tag) →
    cls.passable page' id = cls.passable page id ∧ cls.entryCost page' id = cls.entryCost page id

/-- The class sees the same terrain in two worlds. -/
def SameTerrain (cls : MovementClass S Tag) (W W' : World S Tag) : Prop :=
  ∀ c, isPassable W' cls c = isPassable W cls c ∧ entryCostAt W' cls c = entryCostAt W cls c

theorem SameTerrain.trans {W'' : World S Tag} (h : SameTerrain cls W W')
    (h' : SameTerrain cls W' W'') : SameTerrain cls W W'' :=
  fun c => ⟨(h' c).1.trans (h c).1, (h' c).2.trans (h c).2⟩

/-- **On the same terrain the same steps are legal.** -/
theorem SameTerrain.legalStep_iff {k : ℕ} (h : SameTerrain cls W W') :
    LegalStep W' cls (adjacentTransitions S Tag) a b k ↔
      LegalStep W cls (adjacentTransitions S Tag) a b k := by
  have hpass : isPassable W' cls = isPassable W cls := funext fun c => (h c).1
  have hcost : entryCostAt W' cls = entryCostAt W cls := funext fun c => (h c).2
  have hregular : RegularStep W' cls a b = RegularStep W cls a b := by
    funext m
    simp only [RegularStep, CornerClear, hpass]
  simp only [LegalStep, hpass, hcost, hregular, SpecialStep, adjacentTransitions]

/-- **A class that ignores the flags does not see them written.** -/
theorem sameTerrain_writeField [DecidableEq Tag] {value : ℤ} (h : IgnoresFlags cls fields)
    (htag : tag = fields.occupancy ∨ tag = fields.reservation) :
    SameTerrain cls W (W.writeField tag c value) := by
  intro d
  rw [isPassable_eq, isPassable_eq, entryCostAt, entryCostAt]
  by_cases hd : S.contains d = true
  swap
  · rw [World.tileAt_of_not_contains hd, World.tileAt_of_not_contains hd]
    exact ⟨rfl, rfl⟩
  rw [World.tileAt_of_contains hd, World.tileAt_of_contains hd, World.writeField]
  cases W.residentSlot (W.resolve c).chunkKey with
  | none => exact ⟨rfl, rfl⟩
  | some slot =>
    simp only [World.tryChunk, World.resolve]
    cases W.residentSlot (S.chunkKey (S.chunkCoord d)) with
    | none => exact ⟨rfl, rfl⟩
    | some slot' =>
      simp only [Option.map_some]
      refine h (W.pages slot') _ _ ?_ fun t hocc hres => ?_
      · split_ifs <;> rfl
      · have ht : t ≠ tag := by rcases htag with rfl | rfl <;> assumption
        split_ifs
        · simp only [ht, false_and, if_false]
        · rfl

/-- A class that ignores the flags does not see a commit. -/
theorem sameTerrain_commitStep [DecidableEq Tag] {p : MovementPass S Tag n} {mask : BitVec 32}
    (h : IgnoresFlags cls fields) (i : Fin n) (dest : Coord3) :
    SameTerrain cls p.world.world (commitStep cls fields mask p i dest).1.world.world := by
  rw [commitStep]
  split_ifs
  · have hmark : ∀ (w : MovementWorld S Tag) (a b : Coord3),
        SameTerrain cls w.world (w.markMove a b mask).world := by
      intro w a b d
      rw [isPassable_eq, isPassable_eq, entryCostAt, entryCostAt, MovementWorld.tileAt_markMove]
      exact ⟨rfl, rfl⟩
    have hleave : SameTerrain cls p.world.world
        (p.world.writeFlag fields.occupancy (p.agents i).position false).world :=
      sameTerrain_writeField h (Or.inl rfl)
    exact ((hleave.trans (sameTerrain_writeField h (Or.inl rfl))).trans
      (sameTerrain_writeField h (Or.inr rfl))).trans (hmark _ _ _)
  · exact fun d => ⟨rfl, rfl⟩

end Terrain

/-! ### Calls and runs -/

section Runs

variable {S : Shape} {Tag : Type*} [DecidableEq Tag] {n : ℕ}

/-- A call that advances the agents, with everything the caller hands over. -/
inductive MovementCall (S : Shape) (Tag : Type*) (n : ℕ)
  /-- One agent after the other, along its route. -/
  | perAgent (cls : MovementClass S Tag) (routes : Fin n → List Coord3)
      (advance : PathAgentAdvanceOptions)
  /-- Jointly, along the routes. -/
  | joint (cls : MovementClass S Tag) (routes : Fin n → List Coord3) (options : JointMoveOptions)
      (advance : PathAgentAdvanceOptions)
  /-- By PIBT, ranked by a function. -/
  | pibt (cls : MovementClass S Tag) (routes : Fin n → List Coord3) (options : JointMoveOptions)
      (rank : Fin n → Coord3 → ℕ) (advance : PathAgentAdvanceOptions) (elapsed : Fin n → ℕ)

/-- What a call leaves; none when one of its loops does not end. -/
def MovementCall.run (fields : MovementFields Tag) (p : MovementPass S Tag n) :
    MovementCall S Tag n → Option (MovementPass S Tag n)
  | .perAgent cls routes advance => some (advanceWithMovement cls fields routes advance p)
  | .joint cls routes options advance =>
    advanceWithJointMovement cls fields routes options advance p
  | .pibt cls routes options rank advance elapsed =>
    (advanceWithPibt cls fields routes options rank advance p elapsed).map (·.1)

/-- One pass of a call: the commit of one agent, a round of a joint call, a decision pass. -/
def MovementCall.Pass (fields : MovementFields Tag) (q next : MovementPass S Tag n) :
    MovementCall S Tag n → Prop
  | .perAgent cls _ advance =>
    (∃ i dest, next = (commitStep cls fields advance.movementDirtyMask q i dest).1) ∧
      SetMove cls fields (fun _ _ => False) q.world.world q.agents next.world.world next.agents
  | .joint cls routes options advance =>
    (∃ s count, jointRound cls fields routes options advance.movementDirtyMask q =
      some (s, next, count)) ∧
      SetMove cls fields (fun i j => swapAllowed q.agents options i j = true) q.world.world
        q.agents next.world.world next.agents
  | .pibt cls routes options rank advance _ =>
    (∃ elapsed s elapsed', pibtPass cls fields routes options rank advance.movementDirtyMask q
      elapsed = some (s, next, elapsed') ∧ s.started.Nodup) ∧
      SetMove cls fields (fun i j => swapAllowed q.agents options i j = true) q.world.world
        q.agents next.world.world next.agents

/-- What the agents and the occupancy field are behind a call. -/
structure KeepsTiles (fields : MovementFields Tag) (p q : MovementPass S Tag n) : Prop where
  /-- No two agents share a tile. -/
  distinct : ∀ i j, i ≠ j → (q.agents i).position ≠ (q.agents j).position
  /-- The tiles of the agents are marked. -/
  occupied : ∀ i, flagAt q.world.world fields.occupancy (q.agents i).position = true
  /-- A tile that was left and not refilled is not marked. -/
  vacated : ∀ i, (∀ j, (q.agents j).position ≠ (p.agents i).position) →
    flagAt q.world.world fields.occupancy (p.agents i).position = false
  /-- Every other tile is marked as it was. -/
  others : ∀ c, (∀ i, (p.agents i).position ≠ c) → (∀ i, (q.agents i).position ≠ c) →
    flagAt q.world.world fields.occupancy c = flagAt p.world.world fields.occupancy c

variable {fields : MovementFields Tag} {call : MovementCall S Tag n}
  {p q next : MovementPass S Tag n} {i j : Fin n}

omit [DecidableEq Tag] in
theorem KeepsTiles.of_heldOutside (hholds : HoldsTiles q.world.world fields q.agents)
    (houtside : ∀ c, HeldOutside fields q.world.world q.agents c ↔
      HeldOutside fields p.world.world p.agents c) : KeepsTiles fields p q where
  distinct i j hij heq := hij (hholds.inj i j heq)
  occupied := hholds.occupied
  vacated i hleft := by
    by_contra hocc
    exact ((houtside _).1 ⟨by simpa using hocc, hleft⟩).2 i rfl
  others c hp hq := by
    rw [Bool.eq_iff_iff]
    exact ⟨fun h => ((houtside c).1 ⟨h, hq⟩).1, fun h => ((houtside c).2 ⟨h, hp⟩).1⟩

/-- Every pass of a call is a move of the set. -/
theorem MovementCall.Pass.holds (h : call.Pass fields q next) :
    HoldsTiles next.world.world fields next.agents ∧
      ∀ c, HeldOutside fields next.world.world next.agents c ↔
        HeldOutside fields q.world.world q.agents c := by
  cases call with
  | perAgent => exact ⟨h.2.holds, h.2.outside⟩
  | joint => exact ⟨h.2.holds, h.2.outside⟩
  | pibt => exact ⟨h.2.holds, h.2.outside⟩

/-- **The passes of a call keep the agents apart**, and what others hold as it is. -/
theorem holds_of_passes (hholds : HoldsTiles p.world.world fields p.agents)
    (h : Relation.ReflTransGen (fun q next => call.Pass fields q next) p q) :
    HoldsTiles q.world.world fields q.agents ∧
      ∀ c, HeldOutside fields q.world.world q.agents c ↔
        HeldOutside fields p.world.world p.agents c := by
  induction h with
  | refl => exact ⟨hholds, fun _ => Iff.rfl⟩
  | tail _ hpass ih => exact ⟨hpass.holds.1, fun c => (hpass.holds.2 c).trans (ih.2 c)⟩

/-! ### The passes of a call -/

theorem passes_walkAgent (cls : MovementClass S Tag) (routes : Fin n → List Coord3)
    (advance : PathAgentAdvanceOptions) (route : List Coord3) (steps : ℕ)
    (hholds : HoldsTiles p.world.world fields p.agents) (i : Fin n) :
    Relation.ReflTransGen
      (fun q next => (MovementCall.perAgent cls routes advance).Pass fields q next) p
      (walkAgent cls fields advance.movementDirtyMask route steps p i) := by
  induction steps generalizing p with
  | zero => exact .refl
  | succ steps ih =>
    rw [walkAgent]
    cases nextStep (p.agents i) route with
    | none => exact .refl
    | some dest =>
      have hpass : (MovementCall.perAgent cls routes advance).Pass fields p
          (commitStep cls fields advance.movementDirtyMask p i dest).1 :=
        ⟨⟨i, dest, rfl⟩, commitStep_spec hholds i dest⟩
      simp only
      split_ifs
      · exact .head hpass (ih hpass.holds.1)
      · exact .single hpass

/-- **The per-agent advance is a chain of commits.** -/
theorem passes_advanceWithMovement (cls : MovementClass S Tag) (routes : Fin n → List Coord3)
    (advance : PathAgentAdvanceOptions) (hholds : HoldsTiles p.world.world fields p.agents) :
    Relation.ReflTransGen
      (fun q next => (MovementCall.perAgent cls routes advance).Pass fields q next)
      { p with stats := {} } (advanceWithMovement cls fields routes advance p) := by
  have key : ∀ (l : List (Fin n)) (q : MovementPass S Tag n),
      HoldsTiles q.world.world fields q.agents →
        Relation.ReflTransGen
          (fun q next => (MovementCall.perAgent cls routes advance).Pass fields q next) q
          (l.foldl (fun p i =>
            if (p.agents i).hasGoal ∧ (p.agents i).lastResult = some .found then
              walkAgent cls fields advance.movementDirtyMask (routes i) advance.maxSteps p i
            else p) q) := by
    intro l
    induction l with
    | nil => exact fun q _ => .refl
    | cons i l ih =>
      intro q hq
      rw [List.foldl_cons]
      split_ifs
      · have hwalk := passes_walkAgent cls routes advance (routes i) advance.maxSteps hq i
        exact hwalk.trans (ih _ (holds_of_passes hq hwalk).1)
      · exact ih q hq
  exact key _ _ hholds

omit [DecidableEq Tag] in
/-- **A joint round is a move of the set.** -/
theorem RoundSpec.setMove {cls : MovementClass S Tag} {routes : Fin n → List Coord3}
    {options : JointMoveOptions} {s : JointScratch n} {count : ℕ}
    (h : RoundSpec cls fields routes options q s next count)
    (hholds : HoldsTiles q.world.world fields q.agents) :
    SetMove cls fields (fun i j => swapAllowed q.agents options i j = true) q.world.world
      q.agents next.world.world next.agents := by
  have hadmitted : ∀ i, (next.agents i).position ≠ (q.agents i).position →
      s.state i = .admitted ∧ (next.agents i).position = s.desired i := by
    intro i hi
    have hpos := h.position i
    by_cases hs : s.state i = .admitted
    · exact ⟨hs, by rw [hpos, if_pos hs]⟩
    · rw [if_neg hs] at hpos
      exact absurd hpos hi
  have hheld : ∀ i, s.state i = .admitted →
      flagAt q.world.world fields.occupancy (s.desired i) = true →
        ∃ j, (q.agents j).position = s.desired i := by
    intro i hi hocc
    obtain ⟨j, -, hj⟩ := h.admission.vacated i hi hocc
    exact ⟨j, hj⟩
  constructor
  case moves =>
    intro i hi
    obtain ⟨hs, hdest⟩ := hadmitted i hi
    obtain ⟨⟨t, ht, hstep⟩, htarget⟩ := h.admission.ready i hs
    rw [htarget, Option.some.injEq] at ht
    rw [hdest]
    subst ht
    rcases hstep with hfree | hstep
    · exact ⟨hfree.legal.1, hfree.legal.2, hfree.flags.2, hheld i hs⟩
    · exact ⟨hstep.legal.1, hstep.legal.2, hstep.2, hheld i hs⟩
  case exchanges =>
    intro i j hij hi hj
    have hmoveI : (next.agents i).position ≠ (q.agents i).position := fun heq =>
      hij (hholds.inj i j (heq.symm.trans hi))
    have hmoveJ : (next.agents j).position ≠ (q.agents j).position := fun heq =>
      hij (hholds.inj i j (hj.symm.trans heq))
    obtain ⟨hsI, hdestI⟩ := hadmitted i hmoveI
    obtain ⟨hsJ, hdestJ⟩ := hadmitted j hmoveJ
    obtain ⟨hreadyI, htargetI⟩ := h.admission.ready i hsI
    obtain ⟨hreadyJ, htargetJ⟩ := h.admission.ready j hsJ
    have hexchange := h.exchanges i j hreadyI hreadyJ hij (by rw [htargetI, ← hdestI, hi])
      (by rw [htargetJ, ← hdestJ, hj])
    by_contra hdenied
    rw [if_neg hdenied] at hexchange
    exact hmoveI hexchange.1
  case holds => exact h.holds
  case outside =>
    refine h.moved.heldOutside (fun i hi => ?_) (fun i hi => ?_) hheld
    · rw [h.position, if_pos hi]
    · rw [h.position, if_neg hi]

omit [DecidableEq Tag] in
/-- **A PIBT pass is a move of the set.** -/
theorem PassSpec.setMove {cls : MovementClass S Tag} {options : JointMoveOptions}
    {s : PibtScratch n} (h : PassSpec cls fields options q s next) :
    SetMove cls fields (fun i j => swapAllowed q.agents options i j = true) q.world.world
      q.agents next.world.world next.agents := by
  constructor
  case moves =>
    intro i hi
    rw [h.position] at hi ⊢
    obtain ⟨-, hpass, hlegal, hres, hheld⟩ := h.decisions.moves i hi
    exact ⟨hpass, hlegal, hres, hheld⟩
  case exchanges =>
    intro i j hij hi hj
    rw [h.position] at hi hj
    exact h.decisions.swaps i j hij hi hj
  case holds => exact h.holds
  case outside =>
    refine h.moved.heldOutside (fun i _ => h.position i) (fun i hi => ?_) fun i hi hocc => ?_
    · rw [h.position, not_not.1 hi]
    · exact (h.decisions.moves i hi).held hocc

/-- **A joint call is a chain of rounds.** -/
theorem passes_jointRounds (cls : MovementClass S Tag) (routes : Fin n → List Coord3)
    (options : JointMoveOptions) (advance : PathAgentAdvanceOptions) (steps : ℕ)
    (hholds : HoldsTiles p.world.world fields p.agents) :
    ∃ q, jointRounds cls fields routes options advance.movementDirtyMask steps p = some q ∧
      Relation.ReflTransGen
        (fun q next => (MovementCall.joint cls routes options advance).Pass fields q next) p q := by
  induction steps generalizing p with
  | zero => exact ⟨p, rfl, .refl⟩
  | succ steps ih =>
    obtain ⟨s, next, count, hround, hspec⟩ :=
      jointRound_spec cls routes options advance.movementDirtyMask p hholds
    have hpass : (MovementCall.joint cls routes options advance).Pass fields p next :=
      ⟨⟨s, count, hround⟩, hspec.setMove hholds⟩
    rw [jointRounds, hround]
    simp only
    by_cases hcount : count = 0
    · rw [if_pos hcount]
      exact ⟨next, rfl, .single hpass⟩
    · rw [if_neg hcount]
      obtain ⟨q, hq, hpasses⟩ := ih hspec.holds
      exact ⟨q, hq, .head hpass hpasses⟩

/-- **A PIBT call is a chain of decision passes**, in each of which every agent decides at most
once. -/
theorem passes_pibtPasses (cls : MovementClass S Tag) (routes : Fin n → List Coord3)
    (options : JointMoveOptions) (rank : Fin n → Coord3 → ℕ) (advance : PathAgentAdvanceOptions)
    (elapsed₀ : Fin n → ℕ) (steps : ℕ) (hholds : HoldsTiles p.world.world fields p.agents)
    (elapsed : Fin n → ℕ) :
    ∃ q elapsed', pibtPasses cls fields routes options rank advance.movementDirtyMask steps p
      elapsed = some (q, elapsed') ∧
      Relation.ReflTransGen (fun q next =>
        (MovementCall.pibt cls routes options rank advance elapsed₀).Pass fields q next) p q := by
  induction steps generalizing p elapsed with
  | zero => exact ⟨p, elapsed, rfl, .refl⟩
  | succ steps ih =>
    obtain ⟨s, next, elapsed', hround, hspec⟩ :=
      pibtPass_spec cls routes options rank advance.movementDirtyMask p elapsed hholds
    have hpass : (MovementCall.pibt cls routes options rank advance elapsed₀).Pass fields p next :=
      ⟨⟨elapsed, s, elapsed', hround, hspec.decisions.once⟩, hspec.setMove⟩
    rw [pibtPasses, hround]
    simp only
    by_cases hadvanced : next.stats.frame.advanced = p.stats.frame.advanced
    · rw [if_pos hadvanced]
      exact ⟨next, elapsed', rfl, .single hpass⟩
    · rw [if_neg hadvanced]
      obtain ⟨q, elapsed'', hq, hpasses⟩ := ih hspec.holds elapsed'
      exact ⟨q, elapsed'', hq, .head hpass hpasses⟩

/-- **Every call returns**, by a chain of its passes. -/
theorem passes_run (hholds : HoldsTiles p.world.world fields p.agents)
    (call : MovementCall S Tag n) :
    ∃ q, call.run fields p = some q ∧
      Relation.ReflTransGen (fun q next => call.Pass fields q next) { p with stats := {} } q := by
  cases call with
  | perAgent cls routes advance =>
    exact ⟨_, rfl, passes_advanceWithMovement cls routes advance hholds⟩
  | joint cls routes options advance =>
    exact passes_jointRounds cls routes options advance advance.maxSteps
      (p := { p with stats := {} }) hholds
  | pibt cls routes options rank advance elapsed =>
    obtain ⟨q, elapsed', hq, hpasses⟩ := passes_pibtPasses cls routes options rank advance
      elapsed advance.maxSteps (p := { p with stats := {} }) hholds elapsed
    exact ⟨q, by rw [MovementCall.run, advanceWithPibt, hq]; rfl, hpasses⟩

/-- A run of calls.  Between them the agents get goals, phases, results and retries from
elsewhere, but nothing moves them. -/
inductive MovementRun (fields : MovementFields Tag) (start : MovementPass S Tag n) :
    MovementPass S Tag n → Prop
  | start : MovementRun fields start start
  | call {p q : MovementPass S Tag n} (call : MovementCall S Tag n)
      (hrun : MovementRun fields start p) (hq : call.run fields p = some q) :
      MovementRun fields start q
  | edit {p : MovementPass S Tag n} (agents : Fin n → PathAgentState)
      (hrun : MovementRun fields start p)
      (hpos : ∀ i, (agents i).position = (p.agents i).position) :
      MovementRun fields start { p with agents := agents }

/-- **The agents hold their tiles along every run.** -/
theorem MovementRun.holds (hholds : HoldsTiles p.world.world fields p.agents)
    (hrun : MovementRun fields p q) : HoldsTiles q.world.world fields q.agents := by
  induction hrun with
  | start => exact hholds
  | @call p q call _ hq ih =>
    obtain ⟨r, hr, hpasses⟩ := passes_run ih call
    rw [hr, Option.some.injEq] at hq
    subst hq
    exact (holds_of_passes (p := { p with stats := {} }) ih hpasses).1
  | edit agents _ hpos ih =>
    exact ⟨ih.dense, fun i j h => ih.inj i j (by rw [← hpos i, ← hpos j, h]),
      fun i => by rw [hpos]; exact ih.occupied i⟩

/-- Commits leave the terrain of a class that ignores the flags. -/
theorem sameTerrain_of_passes {cls : MovementClass S Tag} {routes : Fin n → List Coord3}
    {advance : PathAgentAdvanceOptions} (h : IgnoresFlags cls fields)
    (hpasses : Relation.ReflTransGen
      (fun q next => (MovementCall.perAgent cls routes advance).Pass fields q next) p q) :
    SameTerrain cls p.world.world q.world.world := by
  induction hpasses with
  | refl => exact fun d => ⟨rfl, rfl⟩
  | tail _ hpass ih =>
    obtain ⟨⟨i, dest, rfl⟩, -⟩ := hpass
    exact ih.trans (sameTerrain_commitStep h i dest)

/-- **Every call of a run** returns, by a chain of passes each of which moves the agents that move
by legal steps, onto tiles that are neither reserved nor held from outside, and exchanges two
agents only when the policy lets it; behind it the agents stand on distinct tiles, and the
occupancy field says so. -/
theorem movement_run_spec (fields : MovementFields Tag) (start : MovementPass S Tag n)
    (hholds : HoldsTiles start.world.world fields start.agents) :
    ∀ p, MovementRun fields start p → ∀ call : MovementCall S Tag n,
      ∃ q, call.run fields p = some q ∧
        Relation.ReflTransGen (fun q next => call.Pass fields q next) { p with stats := {} } q ∧
        KeepsTiles fields p q ∧
        -- commits are legal in the world they find; only a class that reads the flags can tell
        -- that world from the one before the call
        (∀ cls routes advance, call = .perAgent cls routes advance → IgnoresFlags cls fields →
          ∀ r, Relation.ReflTransGen (fun q next => call.Pass fields q next)
              { p with stats := {} } r →
            ∀ a b k, LegalStep r.world.world cls (adjacentTransitions S Tag) a b k ↔
              LegalStep p.world.world cls (adjacentTransitions S Tag) a b k) := by
  intro p hrun call
  have hp : HoldsTiles p.world.world fields p.agents := hrun.holds hholds
  obtain ⟨q, hq, hpasses⟩ := passes_run hp call
  obtain ⟨hholds', houtside⟩ := holds_of_passes (p := { p with stats := {} }) hp hpasses
  refine ⟨q, hq, hpasses, .of_heldOutside hholds' houtside, ?_⟩
  rintro cls routes advance rfl hignores r hr a b k
  exact (sameTerrain_of_passes hignores hr).legalStep_iff

end Runs

/-! ### A class that reads the occupancy field -/

/-- The cost of a tile that can be entered while it is free. -/
def crowdCost (page : ChunkPage SquareTag) (id : ℕ) : ℕ :=
  if page.field .occupancy id != 0 then 0 else 1

theorem crowdCost_le (page : ChunkPage SquareTag) (id : ℕ) : crowdCost page id ≤ infiniteCost := by
  rw [crowdCost]
  split_ifs <;> decide

/-- Agents that cannot enter occupied tiles, by their cost. -/
def crowdClass : MovementClass alley SquareTag where
  passable page id := page.field .passable id != 0
  entryCost := crowdCost
  stepPolicy := .defaultSteps
  entryCost_le := crowdCost_le
  stepPolicy_valid := trivial
  tileKeyBits_le := alley_tileKeyBits_le

/-- Two agents in a row that follow their routes, the one in front first. -/
def queueAgents (i : Fin 2) : PathAgentState where
  position := ⟨1 - i, 0, 0⟩
  goal := ⟨2 - i, 0, 0⟩
  lastResult := some .found
  phase := .following
  hasGoal := true

/-- The agents hold their tiles. -/
def queuePass : MovementPass alley SquareTag 2 := { alleyPass with agents := queueAgents }

/-- One step ahead. -/
def queueRoutes (i : Fin 2) : List Coord3 := [⟨1 - i, 0, 0⟩, ⟨2 - i, 0, 0⟩]

theorem holdsTiles_queuePass : HoldsTiles queuePass.world.world squareFields queuePass.agents :=
  ⟨rfl, by decide, by decide⟩

theorem movement_run_spec_queue :
    ∃ q, (MovementCall.perAgent crowdClass queueRoutes {}).run squareFields queuePass = some q ∧
      Relation.ReflTransGen (fun q next =>
        (MovementCall.perAgent crowdClass queueRoutes {}).Pass squareFields q next)
          { queuePass with stats := {} } q ∧
      KeepsTiles squareFields queuePass q := by
  obtain ⟨q, hq, hpasses, hkeeps, -⟩ := movement_run_spec squareFields queuePass
    holdsTiles_queuePass queuePass .start (.perAgent crowdClass queueRoutes {})
  exact ⟨q, hq, hpasses, hkeeps⟩

/-- **A commit need not be legal in the world before its call**: the second agent follows the
first one onto a tile that nobody could enter before. -/
theorem legalAtCommit_only :
    ((List.finRange 2).map fun i => ((advanceWithMovement crowdClass squareFields queueRoutes {}
      queuePass).agents i).position) = [⟨2, 0, 0⟩, ⟨1, 0, 0⟩] ∧
    ¬ ∃ k, LegalStep queuePass.world.world crowdClass (adjacentTransitions alley SquareTag)
      (queuePass.agents 1).position ⟨1, 0, 0⟩ k := by
  refine ⟨by decide +kernel, ?_⟩
  rintro ⟨k, -, -, hcost, -⟩
  exact hcost (by decide +kernel)

end Tess
