import Tess.Sim.JointMovement

/-!
# The admitted set of a joint round

The claiming sweeps admit the moves into free tiles and the queues behind them; the cycle walks
then settle the cycles among the agents that still wait.

* `Admitting` : what the claiming sweeps maintain, `Admitting.classify` and
  `Admitting.chainStep` for their steps;
* `Admitting.chainLoop` : **the chain fixpoint terminates**, with its queues drained;
* `CyclePhase` : what the cycle walks maintain, `jointSettled_spec` what they decide;
* `exists_jointAdmission` : **a round admits a maximal set**.
-/

namespace Tess

open Graphs

/-! ### Claiming sweeps -/

section Sweeps

variable {S : Shape} {Tag : Type*} {W : World S Tag} {cls : MovementClass S Tag}
  {fields : MovementFields Tag} {n : ℕ} {agents : Fin n → PathAgentState}
  {routes : Fin n → List Coord3} {target : Fin n → Option Coord3} {s s' : JointScratch n}
  {i j : Fin n} {dest : Coord3} {st : JointState} {stats : JointMoveStats}

/-- The agent on the target of an agent. -/
def wantsOf (agents : Fin n → PathAgentState) (target : Fin n → Option Coord3) (i : Fin n) :
    Option (Fin n) :=
  (target i).bind fun dest => (List.finRange n).find? fun j => (agents j).position == dest

variable (W cls fields agents) in
/-- What the claiming sweeps maintain about the agents whose target is known. -/
structure Admitting (target : Fin n → Option Coord3) (s : JointScratch n) : Prop where
  /-- The position index stays. -/
  index : s.occupants = occupantIndex S agents
  /-- The targets are the desired tiles. -/
  desired : ∀ i t, target i = some t → s.desired i = t
  /-- An agent without a target takes no part. -/
  inactive : ∀ i, s.state i = .inactive ↔ target i = none
  /-- The claims stay sorted. -/
  sorted : s.claimed.Pairwise (· < ·)
  /-- The claims are the tiles of the admitted agents. -/
  mem_claimed : ∀ key, key ∈ s.claimed ↔
    ∃ j, s.state j = .admitted ∧ S.tileKey (s.desired j) = key
  /-- Nothing but an occupant is in the way of a pending agent. -/
  pending : ∀ i, s.state i = .pending → StepHeld W cls fields agents i (s.desired i)
  /-- An admitted agent enters a free tile or one that an admitted agent vacates. -/
  admitted : ∀ i, s.state i = .admitted → StepFree W cls fields agents i (s.desired i) ∨
    (StepHeld W cls fields agents i (s.desired i) ∧
      ∃ j, s.state j = .admitted ∧ (agents j).position = s.desired i)
  /-- No two admitted agents enter one tile. -/
  unique : ∀ i j, s.state i = .admitted → s.state j = .admitted → s.desired i = s.desired j →
    i = j
  /-- A free tile goes to an earlier agent or to this one. -/
  free : ∀ i t, target i = some t → StepFree W cls fields agents i t → s.state i = .admitted ∨
    (s.state i = .failed ∧ s.failure i = .occupied ∧
      ∃ j < i, StepFree W cls fields agents j t ∧ s.state j = .admitted ∧ s.desired j = t)
  /-- An agent refused as occupied lost its tile to an admitted agent. -/
  refused : ∀ i, s.state i = .failed → s.failure i = .occupied →
    ∃ j, s.state j = .admitted ∧ s.desired j = s.desired i
  /-- A held step that fails is refused as occupied. -/
  held : ∀ i t, target i = some t → StepHeld W cls fields agents i t → s.state i = .failed →
    s.failure i = .occupied
  /-- Admission begins at a free tile. -/
  source : (∃ i, s.state i = .admitted) →
    ∃ i t, target i = some t ∧ StepFree W cls fields agents i t
namespace Admitting

theorem contains (h : Admitting W cls fields agents target s) (hi : s.state i = .admitted) :
    S.contains (s.desired i) = true := by
  rcases h.admitted i hi with hfree | ⟨hheld, -⟩
  · exact hfree.contains
  · exact hheld.contains

/-- One agent that was not settled gets a target and a state. -/
theorem set (st : JointState) (h : Admitting W cls fields agents target s)
    (hi : s.state i = .inactive ∨ s.state i = .pending)
    (hindex : s'.occupants = s.occupants)
    (hdesired : s'.desired = Function.update s.desired i dest)
    (hstate : s'.state = Function.update s.state i st)
    (hfailure : ∀ j ≠ i, s'.failure j = s.failure j)
    (hst : st ≠ .inactive)
    (hsorted : s'.claimed.Pairwise (· < ·))
    (hclaimed : ∀ key, key ∈ s'.claimed ↔
      (st = .admitted ∧ key = S.tileKey dest) ∨ key ∈ s.claimed)
    (hnew : st = .admitted → S.tileKey dest ∉ s.claimed)
    (hpending : st = .pending → StepHeld W cls fields agents i dest)
    (hadmitted : st = .admitted → StepFree W cls fields agents i dest ∨
      (StepHeld W cls fields agents i dest ∧
        ∃ j, s.state j = .admitted ∧ (agents j).position = dest))
    (hfree : StepFree W cls fields agents i dest → st = .admitted ∨
      (st = .failed ∧ s'.failure i = .occupied ∧
        ∃ j < i, StepFree W cls fields agents j dest ∧ s.state j = .admitted ∧
          s.desired j = dest))
    (hrefused : st = .failed → s'.failure i = .occupied →
      ∃ j, s.state j = .admitted ∧ s.desired j = dest)
    (hheld : StepHeld W cls fields agents i dest → st = .failed → s'.failure i = .occupied) :
    Admitting W cls fields agents (Function.update target i (some dest)) s' := by
  have hself : s'.desired i = dest := by rw [hdesired, Function.update_self]
  have hstateSelf : s'.state i = st := by rw [hstate, Function.update_self]
  have hdesiredNe : ∀ j, j ≠ i → s'.desired j = s.desired j := fun j hj => by
    rw [hdesired, Function.update_of_ne hj]
  have hstateNe : ∀ j, j ≠ i → s'.state j = s.state j := fun j hj => by
    rw [hstate, Function.update_of_ne hj]
  -- the agent was not admitted before, so the admitted agents stay
  have hkeep : ∀ j, s.state j = .admitted → j ≠ i ∧ s'.state j = .admitted ∧
      s'.desired j = s.desired j := by
    intro j hj
    have hne : j ≠ i := by
      rintro rfl
      rcases hi with hi | hi <;> rw [hj] at hi <;> cases hi
    exact ⟨hne, (hstateNe j hne).trans hj, hdesiredNe j hne⟩
  have hlift : ∀ t, (∃ j, s.state j = .admitted ∧ s.desired j = t) →
      ∃ j, s'.state j = .admitted ∧ s'.desired j = t := by
    rintro t ⟨j, hj, rfl⟩
    obtain ⟨-, hj', hd⟩ := hkeep j hj
    exact ⟨j, hj', hd⟩
  have hfresh : ∀ j, j ≠ i → st = .admitted → s'.state j = .admitted → s'.desired j ≠ dest := by
    intro j hj hst' hadm heq
    rw [hstateNe j hj] at hadm
    rw [hdesiredNe j hj] at heq
    exact hnew hst' ((h.mem_claimed _).2 ⟨j, hadm, by rw [heq]⟩)
  constructor
  case index => rw [hindex, h.index]
  case desired =>
    intro j t ht
    by_cases hj : j = i
    · subst hj
      rw [Function.update_self, Option.some.injEq] at ht
      rw [hself, ht]
    · rw [Function.update_of_ne hj] at ht
      rw [hdesiredNe j hj, h.desired j t ht]
  case inactive =>
    intro j
    by_cases hj : j = i
    · subst hj
      simp [hstateSelf, hst]
    · rw [hstateNe j hj, Function.update_of_ne hj, h.inactive j]
  case sorted => exact hsorted
  case mem_claimed =>
    intro key
    rw [hclaimed, h.mem_claimed]
    constructor
    · rintro (⟨hst', rfl⟩ | ⟨j, hj, rfl⟩)
      · exact ⟨i, by rw [hstateSelf, hst'], by rw [hself]⟩
      · obtain ⟨-, hj', hd⟩ := hkeep j hj
        exact ⟨j, hj', by rw [hd]⟩
    · rintro ⟨j, hj, rfl⟩
      by_cases hji : j = i
      · subst hji
        exact Or.inl ⟨hstateSelf.symm.trans hj, by rw [hself]⟩
      · exact Or.inr ⟨j, by rw [← hstateNe j hji, hj], by rw [hdesiredNe j hji]⟩
  case pending =>
    intro j hj
    by_cases hji : j = i
    · subst hji
      rw [hself]
      exact hpending (hstateSelf.symm.trans hj)
    · rw [hdesiredNe j hji]
      exact h.pending j (by rw [← hstateNe j hji, hj])
  case admitted =>
    intro j hj
    by_cases hji : j = i
    · subst hji
      rw [hself]
      rcases hadmitted (hstateSelf.symm.trans hj) with hfree' | ⟨hheld', k, hk, hpos⟩
      · exact Or.inl hfree'
      · exact Or.inr ⟨hheld', k, (hkeep k hk).2.1, hpos⟩
    · rw [hdesiredNe j hji]
      rcases h.admitted j (by rw [← hstateNe j hji, hj]) with hfree' | ⟨hheld', k, hk, hpos⟩
      · exact Or.inl hfree'
      · exact Or.inr ⟨hheld', k, (hkeep k hk).2.1, hpos⟩
  case unique =>
    intro j k hj hk heq
    by_cases hji : j = i
    · by_cases hki : k = i
      · rw [hji, hki]
      · subst hji
        rw [hself] at heq
        exact absurd heq.symm (hfresh k hki (hstateSelf.symm.trans hj) hk)
    · by_cases hki : k = i
      · subst hki
        rw [hself] at heq
        exact absurd heq (hfresh j hji (hstateSelf.symm.trans hk) hj)
      · rw [hdesiredNe j hji, hdesiredNe k hki] at heq
        rw [hstateNe j hji] at hj
        rw [hstateNe k hki] at hk
        exact h.unique j k hj hk heq
  case free =>
    intro j t ht hfree'
    by_cases hji : j = i
    · subst hji
      rw [Function.update_self, Option.some.injEq] at ht
      subst ht
      rw [hstateSelf]
      rcases hfree hfree' with hst' | ⟨hst', hf, k, hk, hkfree, hkadm, hkd⟩
      · exact Or.inl hst'
      · obtain ⟨-, hk', hd⟩ := hkeep k hkadm
        exact Or.inr ⟨hst', hf, k, hk, hkfree, hk', by rw [hd, hkd]⟩
    · rw [Function.update_of_ne hji] at ht
      rw [hstateNe j hji, hfailure j hji]
      rcases h.free j t ht hfree' with hst' | ⟨hst', hf, k, hk, hkfree, hkadm, hkd⟩
      · exact Or.inl hst'
      · obtain ⟨-, hk', hd⟩ := hkeep k hkadm
        exact Or.inr ⟨hst', hf, k, hk, hkfree, hk', by rw [hd, hkd]⟩
  case refused =>
    intro j hj hf
    by_cases hji : j = i
    · subst hji
      rw [hself]
      exact hlift _ (hrefused (hstateSelf.symm.trans hj) hf)
    · rw [hdesiredNe j hji]
      exact hlift _ (h.refused j (by rw [← hstateNe j hji, hj]) (by rw [← hfailure j hji, hf]))
  case held =>
    intro j t ht hheld' hj
    by_cases hji : j = i
    · subst hji
      rw [Function.update_self, Option.some.injEq] at ht
      subst ht
      exact hheld hheld' (hstateSelf.symm.trans hj)
    · rw [Function.update_of_ne hji] at ht
      rw [hfailure j hji]
      exact h.held j t ht hheld' (by rw [← hstateNe j hji, hj])
  case source =>
    rintro ⟨j, hj⟩
    have hold : (∃ k, s.state k = .admitted) → ∃ k t, Function.update target i (some dest) k =
        some t ∧ StepFree W cls fields agents k t := by
      intro hk
      obtain ⟨k, t, ht, hkfree⟩ := h.source hk
      refine ⟨k, t, ?_, hkfree⟩
      have hki : k ≠ i := by
        rintro rfl
        rcases h.free k t ht hkfree with hk | ⟨hk, -⟩ <;> rcases hi with hi | hi <;>
          rw [hk] at hi <;> cases hi
      rw [Function.update_of_ne hki, ht]
    by_cases hji : j = i
    · subst hji
      rcases hadmitted (hstateSelf.symm.trans hj) with hfree' | ⟨-, k, hk, -⟩
      · exact ⟨j, dest, Function.update_self .., hfree'⟩
      · exact hold ⟨k, hk⟩
    · exact hold ⟨j, (hstateNe j hji).symm.trans hj⟩

/-- **A claim** admits the agent or refuses it as occupied. -/
theorem claimFor (dest : Coord3) (h : Admitting W cls fields agents target s)
    (hi : s.state i = .inactive ∨ s.state i = .pending)
    (hstep : StepFree W cls fields agents i dest ∨ (StepHeld W cls fields agents i dest ∧
      ∃ j, s.state j = .admitted ∧ (agents j).position = dest))
    (hfirst : StepFree W cls fields agents i dest → ∀ k, s.state k = .admitted → k < i) :
    Admitting W cls fields agents (Function.update target i (some dest))
      (JointScratch.claimFor { s with desired := Function.update s.desired i dest } S i).1 := by
  have hspec := jointClaim_spec (S.tileKey dest) h.sorted
  have hcontains : S.contains dest = true := by
    rcases hstep with hfree | ⟨hheld, -⟩
    · exact hfree.contains
    · exact hheld.contains
  simp only [JointScratch.claimFor, Function.update_self]
  cases hclaim : jointClaim (S.tileKey dest) s.claimed with
  | some claimed =>
    simp only [hclaim] at hspec
    obtain ⟨hnew, hsorted, hmem⟩ := hspec
    exact h.set .admitted hi rfl rfl rfl (fun _ _ => rfl) (by simp) hsorted
      (fun key => by rw [hmem]; simp) (fun _ => hnew) (by simp) (fun _ => hstep)
      (fun _ => Or.inl rfl) (by simp) (by simp)
  | none =>
    simp only [hclaim] at hspec
    obtain ⟨k, hk, hkey⟩ := (h.mem_claimed _).1 hspec
    have hk' : s.desired k = dest := Shape.tileKey_inj (h.contains hk) hcontains hkey
    refine h.set .failed hi rfl rfl rfl (fun j hj => Function.update_of_ne hj _ _)
      (by simp) h.sorted (by simp [JointScratch.fail]) (by simp) (by simp) (by simp)
      (fun hfree => Or.inr ?_) (fun _ _ => ⟨k, hk, hk'⟩) (fun _ _ => Function.update_self ..)
    refine ⟨rfl, Function.update_self .., k, hfirst hfree k hk, ?_, hk, hk'⟩
    rcases h.admitted k hk with hkfree | ⟨hkheld, -⟩
    · exact hk' ▸ hkfree
    · exact absurd (hk' ▸ hkheld) hfree.not_held

end Admitting

/-- The state that a claim leaves. -/
theorem claimFor_state (s : JointScratch n) (i : Fin n) :
    (s.claimFor S i).1.state =
      Function.update s.state i (if (s.claimFor S i).2 then .admitted else .failed) := by
  cases hclaim : jointClaim (S.tileKey (s.desired i)) s.claimed <;>
    simp [JointScratch.claimFor, JointScratch.fail, hclaim]

/-! ### Steps 1 and 2 -/

/-- The targets of the agents that the loop has passed. -/
def targetBelow (agents : Fin n → PathAgentState) (routes : Fin n → List Coord3) (m : ℕ)
    (i : Fin n) : Option Coord3 :=
  if (i : ℕ) < m then jointTarget agents routes i else none

theorem targetBelow_succ :
    targetBelow agents routes ((i : ℕ) + 1) =
      Function.update (targetBelow agents routes i) i (jointTarget agents routes i) := by
  funext j
  by_cases hj : j = i
  · subst hj
    simp [targetBelow]
  · have hne : (j : ℕ) ≠ i := fun h => hj (Fin.ext h)
    have hiff : (j : ℕ) < i + 1 ↔ (j : ℕ) < i := by omega
    simp [targetBelow, hj, hiff]

/-- **Validation of one agent** extends the known targets by its own. -/
theorem Admitting.classify (h : Admitting W cls fields agents (targetBelow agents routes i) s) :
    Admitting W cls fields agents (targetBelow agents routes ((i : ℕ) + 1))
      (jointClassify W cls fields agents routes s i) := by
  have hnone : targetBelow agents routes i i = none := by simp [targetBelow]
  have hinactive : s.state i = .inactive := (h.inactive i).2 hnone
  rw [targetBelow_succ]
  simp only [jointClassify]
  cases ht : jointTarget agents routes i with
  | none =>
    have hsame : Function.update (targetBelow agents routes i) i none =
        targetBelow agents routes i := by
      rw [← hnone, Function.update_eq_self]
    rw [hsame]
    exact h
  | some dest =>
    -- a verdict that is neither free nor held records itself
    have hfail : ∀ status, status ≠ MovementStatus.occupied →
        ¬ StepFree W cls fields agents i dest → ¬ StepHeld W cls fields agents i dest →
        Admitting W cls fields agents
          (Function.update (targetBelow agents routes i) i (some dest))
          (JointScratch.fail { s with desired := Function.update s.desired i dest } i status) := by
      intro status hstatus hnotfree hnotheld
      refine h.set .failed (Or.inl hinactive) rfl rfl rfl
        (fun j hj => Function.update_of_ne hj _ _) (by simp) h.sorted
        (by simp [JointScratch.fail]) (by simp) (by simp) (by simp)
        (fun hfree => absurd hfree hnotfree) (fun _ hf => absurd ?_ hstatus)
        (fun hheld => absurd hheld hnotheld)
      simpa [JointScratch.fail] using hf
    dsimp only
    cases hv : stepVerdict W cls fields agents i dest
    case moved =>
      refine h.claimFor dest (Or.inl hinactive) (Or.inl hv) fun _ k hk => ?_
      by_contra hnot
      have hknone : targetBelow agents routes i k = none := if_neg (by simpa using hnot)
      rw [(h.inactive k).2 hknone] at hk
      cases hk
    case occupied =>
      have hnotfree : ¬ StepFree W cls fields agents i dest := by
        rw [StepFree, hv]
        simp
      dsimp only
      split_ifs with hr
      · refine hfail _ (by simp) hnotfree fun hheld => ?_
        have hreserved := hheld.2
        rw [hr] at hreserved
        exact absurd hreserved (by simp)
      · have hheld : StepHeld W cls fields agents i dest := ⟨hv, by simpa using hr⟩
        exact h.set .pending (Or.inl hinactive) rfl rfl rfl (fun _ _ => rfl) (by simp)
          h.sorted (by simp) (by simp) (fun _ => hheld) (by simp)
          (fun hfree => absurd hfree hnotfree) (by simp) (by simp)
    all_goals
      refine hfail _ (by simp) ?_ ?_
      · rw [StepFree, hv]
        simp
      · rw [StepHeld, hv]
        simp

/-- **Steps 1 and 2** establish the invariant of the sweeps. -/
theorem admitting_classified (W : World S Tag) (cls : MovementClass S Tag)
    (fields : MovementFields Tag) (agents : Fin n → PathAgentState)
    (routes : Fin n → List Coord3) (stats : JointMoveStats) :
    Admitting W cls fields agents (jointTarget agents routes)
      (jointClassified W cls fields agents routes stats) := by
  have hloop : Admitting W cls fields agents (targetBelow agents routes n)
      (jointClassified W cls fields agents routes stats) := by
    refine foldl_finRange
      (fun m s => Admitting W cls fields agents (targetBelow agents routes m) s) ?_
      fun i s h => h.classify
    constructor <;> simp [targetBelow]
  have htarget : targetBelow agents routes n = jointTarget agents routes := by
    funext i
    simp [targetBelow]
  rwa [htarget] at hloop

/-- Behind steps 1 and 2 nobody who only waits for an occupant is settled. -/
theorem pending_of_held (h : StepHeld W cls fields agents i dest)
    (ht : jointTarget agents routes i = some dest) :
    (jointClassified W cls fields agents routes stats).state i = .pending := by
  have hloop := foldl_finRange (n := n) (f := jointClassify W cls fields agents routes)
    (b := { occupants := occupantIndex S agents, stats := stats })
    (fun m s => (i : ℕ) < m → s.state i = .pending) (by simp) ?_
  · exact hloop i.isLt
  intro j s hs hlt
  by_cases hj : j = i
  · subst hj
    simp only [jointClassify, ht, h.1, h.2, Bool.false_eq_true, if_false, Function.update_self]
  · have hlt' : (i : ℕ) < j := by
      have hne : (i : ℕ) ≠ j := fun he => hj (Fin.ext he.symm)
      omega
    have hs := hs hlt'
    simp only [jointClassify]
    split
    · exact hs
    · split
      · rw [claimFor_state, Function.update_of_ne (Ne.symm hj)]
        exact hs
      · split_ifs
        · simpa [JointScratch.fail, Function.update_of_ne (Ne.symm hj)] using hs
        · simpa [Function.update_of_ne (Ne.symm hj)] using hs
      · simpa [JointScratch.fail, Function.update_of_ne (Ne.symm hj)] using hs

/-! ### Step 3 -/

/-- The agents whose admission is open. -/
def pendingSet (s : JointScratch n) : Finset (Fin n) := Finset.univ.filter (s.state · = .pending)

@[simp] theorem mem_pendingSet : i ∈ pendingSet s ↔ s.state i = .pending := by simp [pendingSet]

/-- The target of a pending agent. -/
theorem Admitting.target_of_pending (h : Admitting W cls fields agents target s)
    (hi : s.state i = .pending) : target i = some (s.desired i) := by
  obtain ⟨t, ht⟩ : ∃ t, target i = some t := by
    rw [← Option.ne_none_iff_exists']
    intro hnone
    rw [(h.inactive i).2 hnone] at hi
    cases hi
  rw [ht, h.desired i t ht]

/-- The agent on a target, as a question about positions. -/
theorem wantsOf_eq_some (hholds : HoldsTiles W fields agents) :
    wantsOf agents target i = some j ↔ target i = some (agents j).position := by
  simp only [wantsOf, Option.bind_eq_some_iff]
  constructor
  · rintro ⟨t, ht, hfind⟩
    have hj := List.find?_some hfind
    simp only [beq_iff_eq] at hj
    rw [ht, hj]
  · intro ht
    refine ⟨_, ht, ?_⟩
    cases hfind : (List.finRange n).find? (fun k => (agents k).position == (agents j).position) with
    | none =>
      have hnone := List.find?_eq_none.1 hfind j (List.mem_finRange j)
      simp at hnone
    | some k =>
      have hk := List.find?_some hfind
      simp only [beq_iff_eq] at hk
      rw [hholds.inj k j hk]

/-- **Pending agents want** the tile of the agent on their target. -/
theorem Admitting.wants_eq (hholds : HoldsTiles W fields agents)
    (h : Admitting W cls fields agents target s) (hi : s.state i = .pending) :
    s.wants S i = wantsOf agents target i := by
  have hcontains := (h.pending i hi).contains
  ext j
  rw [wantsOf_eq_some hholds, h.target_of_pending hi,
    Option.some.injEq, JointScratch.wants, h.index, findOccupant_eq_some hholds.tileKey_inj]
  exact ⟨fun hkey => (Shape.tileKey_inj (hholds.contains j) hcontains hkey).symm,
    fun hpos => by rw [hpos]⟩

/-- A sweep settles no agent of a cycle of pending agents. -/
def KeepsCycles (agents : Fin n → PathAgentState) (target : Fin n → Option Coord3)
    (s s' : JointScratch n) : Prop :=
  ∀ l, IsCycle (wantsOf agents target) l → (∀ i ∈ l, s.state i = .pending) →
    ∀ i ∈ l, s'.state i = .pending

/-- No pending agent waits for a tile that an admitted mover vacates. -/
def Drained (S : Shape) (s : JointScratch n) : Prop :=
  ∀ i, s.state i = .pending → ∀ j, s.wants S i = some j → s.state j ≠ .admitted

/-- A claim settles a pending agent. -/
theorem pendingSet_claimFor (hi : s.state i = .pending) :
    pendingSet (s.claimFor S i).1 = (pendingSet s).erase i := by
  ext j
  simp only [mem_pendingSet, Finset.mem_erase, claimFor_state]
  by_cases hj : j = i
  · subst hj
    rw [Function.update_self]
    split_ifs <;> simp
  · simp [hj]

/-- **One step of a sweep** keeps the invariant; it changes nothing, or settles an agent. -/
theorem Admitting.chainStep (hholds : HoldsTiles W fields agents)
    (h : Admitting W cls fields agents target s) (changed : Bool) (i : Fin n) :
    (Tess.chainStep S (s, changed) i = (s, changed) ∧ (s.state i = .pending →
        ∀ j, s.wants S i = some j → s.state j ≠ .admitted)) ∨
      ((Tess.chainStep S (s, changed) i).2 = true ∧ s.state i = .pending ∧
        (∃ j, s.wants S i = some j ∧ s.state j = .admitted) ∧
        Admitting W cls fields agents target (Tess.chainStep S (s, changed) i).1 ∧
        pendingSet (Tess.chainStep S (s, changed) i).1 = (pendingSet s).erase i) := by
  simp only [Tess.chainStep]
  by_cases hi : s.state i = .pending
  swap
  · rw [if_pos hi]
    exact Or.inl ⟨rfl, fun h => absurd h hi⟩
  rw [if_neg (not_not.2 hi)]
  cases hw : s.wants S i with
  | none => exact Or.inl ⟨rfl, fun _ j hj => by cases hj⟩
  | some occupant =>
    dsimp only
    by_cases ho : s.state occupant = .admitted
    swap
    · rw [if_pos ho]
      refine Or.inl ⟨rfl, fun _ j hj => ?_⟩
      rw [Option.some.injEq] at hj
      exact hj ▸ ho
    rw [if_neg (not_not.2 ho)]
    right
    have hheld := h.pending i hi
    rw [JointScratch.wants, h.index] at hw
    have hkey := (findOccupant_eq_some hholds.tileKey_inj).1 hw
    have hpos : (agents occupant).position = s.desired i :=
      Shape.tileKey_inj (hholds.contains occupant) hheld.contains hkey
    have hclaim := h.claimFor (s.desired i) (Or.inr hi)
      (Or.inr ⟨hheld, occupant, ho, hpos⟩) fun hfree => absurd hheld hfree.not_held
    rw [← h.target_of_pending hi, Function.update_eq_self, Function.update_eq_self] at hclaim
    cases hadm : (s.claimFor S i).2 with
    | false =>
      simp only [Bool.false_eq_true, if_false]
      exact ⟨trivial, hi, ⟨occupant, rfl, ho⟩, hclaim, pendingSet_claimFor hi⟩
    | true =>
      simp only [if_true]
      refine ⟨trivial, hi, ⟨occupant, rfl, ho⟩, ?_, pendingSet_claimFor hi⟩
      exact ⟨hclaim.1, hclaim.2, hclaim.3, hclaim.4, hclaim.5, hclaim.6, hclaim.7, hclaim.8,
        hclaim.9, hclaim.10, hclaim.11, hclaim.12⟩

/-- **A sweep** keeps the invariant; when it changes nothing the queues are drained, and
otherwise an agent was settled. -/
theorem Admitting.chainSweep (hholds : HoldsTiles W fields agents)
    (h : Admitting W cls fields agents target s) :
    Admitting W cls fields agents target (Tess.chainSweep S s).1 ∧
      KeepsCycles agents target s (Tess.chainSweep S s).1 ∧
      ((Tess.chainSweep S s).2 = false → (Tess.chainSweep S s).1 = s ∧ Drained S s) ∧
      ((Tess.chainSweep S s).2 = true → pendingSet (Tess.chainSweep S s).1 ⊂ pendingSet s) := by
  have hloop := foldl_finRange (n := n) (f := Tess.chainStep S) (b := (s, false))
    (fun m acc => Admitting W cls fields agents target acc.1 ∧
      KeepsCycles agents target s acc.1 ∧ pendingSet acc.1 ⊆ pendingSet s ∧
      (acc.2 = false → acc.1 = s ∧ ∀ i : Fin n, (i : ℕ) < m → s.state i = .pending →
        ∀ j, s.wants S i = some j → s.state j ≠ .admitted) ∧
      (acc.2 = true → pendingSet acc.1 ⊂ pendingSet s))
    ⟨h, fun _ _ hl => hl, subset_rfl, fun _ => ⟨rfl, by simp⟩, by simp⟩ ?_
  · obtain ⟨hadm, hkeep, -, hfalse, htrue⟩ := hloop
    exact ⟨hadm, hkeep, fun hc => ⟨(hfalse hc).1, fun i => (hfalse hc).2 i i.isLt⟩, htrue⟩
  rintro i ⟨s', changed⟩ ⟨hadm, hkeep, hsub, hfalse, htrue⟩
  rcases hadm.chainStep hholds changed i with
    ⟨heq, hdry⟩ | ⟨hc, hi, ⟨k, hk, hkadm⟩, hadm', hset⟩
  · rw [heq]
    refine ⟨hadm, hkeep, hsub, fun hc => ?_, htrue⟩
    obtain ⟨rfl, hall⟩ := hfalse hc
    refine ⟨rfl, fun j hj => ?_⟩
    by_cases hji : j = i
    · exact hji ▸ hdry
    · have hne : (j : ℕ) ≠ i := fun he => hji (Fin.ext he)
      exact hall j (by omega)
  · have hss : pendingSet (Tess.chainStep S (s', changed) i).1 ⊂ pendingSet s := by
      rw [hset]
      exact (Finset.erase_ssubset (mem_pendingSet.2 hi)).trans_subset hsub
    refine ⟨hadm', fun l hl hpend j hj => ?_, hss.subset,
      fun hf => absurd (hc.symm.trans hf) (by simp), fun _ => hss⟩
    -- the settled agent is behind an admitted one, so it is not on the cycle
    have hpend' := hkeep l hl hpend
    have hne : j ≠ i := by
      rintro rfl
      rw [hadm.wants_eq hholds hi] at hk
      rw [hpend' k (hl.mem_of_next hj hk)] at hkadm
      cases hkadm
    rw [← mem_pendingSet, hset, Finset.mem_erase, mem_pendingSet]
    exact ⟨hne, hpend' j hj⟩

/-- **The chain fixpoint terminates**: fuel above the number of pending agents is enough. -/
theorem Admitting.chainLoop (hholds : HoldsTiles W fields agents) :
    ∀ (fuel : ℕ) (s : JointScratch n), Admitting W cls fields agents target s →
      (pendingSet s).card < fuel → ∃ s', Tess.chainLoop S fuel true s = some s' ∧
        Admitting W cls fields agents target s' ∧ Drained S s' ∧
        KeepsCycles agents target s s' := by
  intro fuel
  induction fuel with
  | zero => intro s _ hcard; omega
  | succ fuel ih =>
    intro s h hcard
    obtain ⟨hadm, hkeep, hfalse, htrue⟩ := h.chainSweep hholds
    simp only [Tess.chainLoop]
    cases hc : (Tess.chainSweep S s).2 with
    | false =>
      obtain ⟨heq, hdrained⟩ := hfalse hc
      rw [heq]
      refine ⟨s, ?_, h, hdrained, fun _ _ hl => hl⟩
      cases fuel <;> rfl
    | true =>
      have hss := htrue hc
      obtain ⟨s', hs', hadm', hdrained, hkeep'⟩ :=
        ih _ hadm (by have hlt := Finset.card_lt_card hss; omega)
      exact ⟨s', hs', hadm', hdrained, fun l hl hp => hkeep' l hl (hkeep l hl hp)⟩

/-- **Step 3** keeps the invariant and drains the queues. -/
theorem Admitting.chained (hholds : HoldsTiles W fields agents)
    (h : Admitting W cls fields agents target s) :
    ∃ s', jointChained S s = some s' ∧ Admitting W cls fields agents target s' ∧ Drained S s' ∧
      KeepsCycles agents target s s' := by
  simp only [jointChained]
  cases hany : (List.finRange n).any (fun i => s.state i == .pending) with
  | false =>
    refine ⟨s, rfl, h, fun i hi => ?_, fun _ _ hl => hl⟩
    have hnot := List.any_eq_false.1 hany i (List.mem_finRange i)
    exact absurd hi (by simpa using hnot)
  | true =>
    refine h.chainLoop hholds (n + 1) s ?_
    exact Nat.lt_succ_of_le ((Finset.card_le_univ _).trans_eq (Fintype.card_fin n))

end Sweeps

/-! ### Step 4 -/

section CycleWalks

variable {S : Shape} {n : ℕ} {agents : Fin n → PathAgentState} {options : JointMoveOptions}
  {s s' s₀ : JointScratch n} {i j : Fin n} {l l' : List (Fin n)} {m : ℕ}

/-- The wants depend on the position index and the desired tiles alone. -/
theorem wants_congr (hindex : s.occupants = s'.occupants) (hdesired : s.desired = s'.desired) :
    s.wants S = s'.wants S := by
  funext i
  simp only [JointScratch.wants, hindex, hdesired]

/-- A walk over pending agents that ends before `rest`. -/
structure Walked (S : Shape) (s : JointScratch n) (walk : List (Fin n))
    (rest : Option (Fin n)) : Prop where
  /-- No agent is met twice. -/
  nodup : walk.Nodup
  /-- The agents of the walk are pending. -/
  pending : ∀ i ∈ walk, s.state i = .pending
  /-- Every agent wants the tile of the following one. -/
  chain : walk.IsChain fun i j => s.wants S i = some j
  /-- The last agent wants the tile of the rest. -/
  last : ∀ i ∈ walk.getLast?, s.wants S i = rest

/-- **A walk stops** at an agent that is not pending, at a tile nobody holds or at an agent it
has met: the agents run out before the fuel does. -/
theorem cycleWalk_spec (S : Shape) (s : JointScratch n) :
    ∀ (fuel : ℕ) (rest : Option (Fin n)) (walk : List (Fin n)), Walked S s walk rest →
      n < walk.length + fuel →
      Walked S s (cycleWalk S s fuel rest walk).1 (cycleWalk S s fuel rest walk).2 ∧
        walk <+: (cycleWalk S s fuel rest walk).1 ∧
        (∀ i, rest = some i → s.state i = .pending → i ∈ (cycleWalk S s fuel rest walk).1) ∧
        ∀ i, (cycleWalk S s fuel rest walk).2 = some i →
          s.state i ≠ .pending ∨ i ∈ (cycleWalk S s fuel rest walk).1 := by
  intro fuel
  induction fuel with
  | zero =>
    intro rest walk hwalk hfuel
    have hlen := hwalk.nodup.length_le_card
    rw [Fintype.card_fin] at hlen
    omega
  | succ fuel ih =>
    intro rest walk hwalk hfuel
    cases rest with
    | none =>
      simp only [cycleWalk]
      exact ⟨hwalk, List.prefix_rfl, by simp, by simp⟩
    | some i =>
      simp only [cycleWalk]
      by_cases hi : s.state i = .pending ∧ i ∉ walk
      · rw [if_pos hi]
        have hnext : Walked S s (walk ++ [i]) (s.wants S i) := by
          refine ⟨?_, fun j hj => ?_, ?_, fun j hj => ?_⟩
          · exact List.nodup_append.2 ⟨hwalk.nodup, List.nodup_singleton i, fun a ha b hb hab =>
              hi.2 (by rw [List.mem_singleton] at hb; exact hb ▸ hab ▸ ha)⟩
          · rcases List.mem_append.1 hj with hj | hj
            · exact hwalk.pending j hj
            · rw [List.mem_singleton.1 hj]
              exact hi.1
          · refine List.isChain_append.2 ⟨hwalk.chain, List.isChain_singleton i, ?_⟩
            intro a ha b hb
            simp only [List.head?_cons, Option.mem_def, Option.some.injEq] at hb
            rw [← hb]
            exact hwalk.last a ha
          · simp only [List.getLast?_append, List.getLast?_singleton, Option.some_or,
              Option.mem_def, Option.some.injEq] at hj
            rw [hj]
        obtain ⟨hw, hpre, -, hstop⟩ := ih (s.wants S i) (walk ++ [i]) hnext
          (by rw [List.length_append, List.length_singleton]; omega)
        refine ⟨hw, (List.prefix_append walk [i]).trans hpre, fun j hj _ => ?_, hstop⟩
        rw [Option.some.injEq] at hj
        exact hpre.subset (by simp [hj])
      · rw [if_neg hi]
        refine ⟨hwalk, List.prefix_rfl, fun j hj hp => ?_, fun j hj => ?_⟩
        · rw [Option.some.injEq] at hj
          subst hj
          by_contra hnot
          exact hi ⟨hp, hnot⟩
        · simp only [Option.some.injEq] at hj
          subst hj
          by_cases hp : s.state i = .pending
          · right
            by_contra hnot
            exact hi ⟨hp, hnot⟩
          · exact Or.inl hp

/-- **Settling a cycle** settles its members and nobody else. -/
theorem foldl_settleMember (admitted : Bool) (l : List (Fin n)) (s : JointScratch n) :
    let s' := l.foldl (settleMember S admitted) s
    s'.occupants = s.occupants ∧ s'.desired = s.desired ∧ s'.walked = s.walked ∧
      (∀ i, s'.state i = if i ∈ l then (if admitted then .admitted else .failed) else s.state i) ∧
      ∀ i, s'.failure i = if i ∈ l ∧ admitted = false then .occupied else s.failure i := by
  induction l generalizing s with
  | nil => simp
  | cons a l ih =>
    rw [List.foldl_cons]
    obtain ⟨h1, h2, h3, h4, h5⟩ := ih (settleMember S admitted s a)
    cases admitted with
    | false =>
      refine ⟨h1, h2, h3, fun i => ?_, fun i => ?_⟩
      · rw [h4 i]
        by_cases hi : i = a <;> by_cases hl : i ∈ l <;>
          simp [settleMember, JointScratch.fail, hi, hl]
      · rw [h5 i]
        by_cases hi : i = a <;> by_cases hl : i ∈ l <;>
          simp [settleMember, JointScratch.fail, hi, hl]
    | true =>
      refine ⟨h1, h2, h3, fun i => ?_, fun i => ?_⟩
      · rw [h4 i]
        by_cases hi : i = a <;> by_cases hl : i ∈ l <;> simp [settleMember, hi, hl]
      · rw [h5 i]
        simp [settleMember]

/-- Cycles of three and more agents move; the policy decides on those of two. -/
theorem cycleAdmitted_eq (l : List (Fin n)) : cycleAdmitted agents options l =
    (decide (3 ≤ l.length) || (decide (l.length = 2) &&
      match options.swapPolicy with
      | .permit => true
      | .permitOnDeadlock => l.all fun i => options.deadlockTicks ≤ (agents i).blockedRetries
      | .forbid => false)) := by
  match l with
  | [] => simp [cycleAdmitted]
  | [_] => simp [cycleAdmitted]
  | [a, b] => cases hp : options.swapPolicy <;> simp [cycleAdmitted, swapAllowed, hp]
  | _ :: _ :: _ :: l => simp [cycleAdmitted]

/-- Whether a cycle moves does not depend on where the walk entered it. -/
theorem cycleAdmitted_perm (h : l.Perm l') :
    cycleAdmitted agents options l = cycleAdmitted agents options l' := by
  rw [cycleAdmitted_eq, cycleAdmitted_eq, h.length_eq]
  cases options.swapPolicy with
  | permitOnDeadlock => rw [h.all_eq]
  | permit => rfl
  | forbid => rfl

/-- The cycle consists of agents that were pending when step 4 began. -/
def WaitingCycle (S : Shape) (s₀ : JointScratch n) (l : List (Fin n)) : Prop :=
  IsCycle (s₀.wants S) l ∧ ∀ i ∈ l, s₀.state i = .pending

/-- A cycle has the outcome that its length and the policy ask for. -/
def CycleSettled (agents : Fin n → PathAgentState) (options : JointMoveOptions)
    (s : JointScratch n) (l : List (Fin n)) : Prop :=
  ∀ i ∈ l, if cycleAdmitted agents options l then s.state i = .admitted
    else s.state i = .failed ∧ s.failure i = .occupied

/-- What the cycle walks maintain, once the starts below `m` are done. -/
structure CyclePhase (agents : Fin n → PathAgentState) (options : JointMoveOptions) (S : Shape)
    (s₀ : JointScratch n) (m : ℕ) (s : JointScratch n) : Prop where
  /-- The position index stays. -/
  index : s.occupants = s₀.occupants
  /-- The desired tiles stay. -/
  desired : s.desired = s₀.desired
  /-- The settled agents stay. -/
  other : ∀ i, s₀.state i ≠ .pending → s.state i = s₀.state i ∧ s.failure i = s₀.failure i
  /-- A pending agent is still pending, or on a cycle that is settled as a whole. -/
  settled : ∀ i, s₀.state i = .pending → s.state i = .pending ∨
    ∃ l, WaitingCycle S s₀ l ∧ i ∈ l ∧ CycleSettled agents options s l
  /-- Walked agents on a cycle are settled. -/
  walked : ∀ i, s.walked i = true → ∀ l, WaitingCycle S s₀ l → i ∈ l → s.state i ≠ .pending
  /-- The starts that are done are settled when they are on a cycle. -/
  done : ∀ i : Fin n, (i : ℕ) < m → ∀ l, WaitingCycle S s₀ l → i ∈ l → s.state i ≠ .pending

theorem CycleSettled.ne_pending (h : CycleSettled agents options s l) (hi : i ∈ l) :
    s.state i ≠ .pending := by
  have hs := h i hi
  split_ifs at hs
  · rw [hs]
    simp
  · rw [hs.1]
    simp

/-- **One start of the cycle walks.** -/
theorem CyclePhase.cycleStep (h : CyclePhase agents options S s₀ i s) :
    CyclePhase agents options S s₀ ((i : ℕ) + 1) (Tess.cycleStep agents options S s i) := by
  have hwants : s.wants S = s₀.wants S := wants_congr h.index h.desired
  have hpend₀ : ∀ j, s.state j = .pending → s₀.state j = .pending := by
    intro j hj
    by_contra hne
    exact hne ((h.other j hne).1 ▸ hj)
  simp only [Tess.cycleStep]
  by_cases hskip : s.state i ≠ .pending ∨ s.walked i = true
  · rw [if_pos hskip]
    refine ⟨h.index, h.desired, h.other, h.settled, h.walked, fun j hj l hl hjl => ?_⟩
    by_cases hji : j = i
    · subst hji
      rcases hskip with hne | hw
      · exact hne
      · exact h.walked j hw l hl hjl
    · have hne : (j : ℕ) ≠ i := fun he => hji (Fin.ext he)
      exact h.done j (by omega) l hl hjl
  rw [if_neg hskip]
  rw [not_or, not_not] at hskip
  obtain ⟨hi, -⟩ := hskip
  obtain ⟨hw, -, hstart, hstop⟩ := cycleWalk_spec S s (n + 1) (some i) []
    ⟨List.nodup_nil, by simp, List.isChain_nil, by simp⟩ (by simp)
  have himem := hstart i rfl hi
  generalize hwalk : (cycleWalk S s (n + 1) (some i) []).1 = walk at hw himem hstop
  generalize hrest : (cycleWalk S s (n + 1) (some i) []).2 = rest at hw hstop
  -- an agent of the walk that is on a cycle leads around the cycle to the rest
  have haround : ∀ j ∈ walk, ∀ l, WaitingCycle S s₀ l → j ∈ l → ∃ k ∈ l, rest = some k := by
    intro j hj l hl hjl
    have hchain := hw.chain
    obtain ⟨k, hk, hlead⟩ := IsCycle.leads_getLast hchain hj
    rw [hwants] at hlead
    have hkl := hl.1.mem_of_leads hjl hlead
    obtain ⟨k', hk', hnext⟩ := hl.1.next_mem hkl
    refine ⟨k', hk', ?_⟩
    rw [← hw.last k hk, hwants, hnext]
  -- so a walk that stops at a settled agent or a free tile meets no agent on a cycle
  have hopen : (∀ k, rest = some k → s.state k ≠ .pending) → ∀ j ∈ walk, ∀ l,
      WaitingCycle S s₀ l → j ∉ l := by
    intro hrest' j hj l hl hjl
    obtain ⟨k, hkl, hk⟩ := haround j hj l hl hjl
    rcases h.settled k (hl.2 k hkl) with hp | ⟨l', hl', hkl', hset⟩
    · exact hrest' k hk hp
    · have hperm := hl.1.perm hl'.1 hkl hkl'
      exact hset.ne_pending (hperm.mem_iff.1 hjl) (hw.pending j hj)
  have hmark : (∀ k, rest = some k → s.state k ≠ .pending) →
      CyclePhase agents options S s₀ ((i : ℕ) + 1)
        { s with walked := fun j => s.walked j || j ∈ walk } := by
    intro hrest'
    refine ⟨h.index, h.desired, h.other, h.settled, fun j hj l hl hjl => ?_,
      fun j hj l hl hjl => ?_⟩
    · simp only [Bool.or_eq_true, decide_eq_true_eq] at hj
      rcases hj with hj | hj
      · exact h.walked j hj l hl hjl
      · exact absurd hjl (hopen hrest' j hj l hl)
    · by_cases hji : j = i
      · subst hji
        exact absurd hjl (hopen hrest' j himem l hl)
      · have hne : (j : ℕ) ≠ i := fun he => hji (Fin.ext he)
        exact h.done j (by omega) l hl hjl
  cases rest with
  | none => exact hmark (by simp)
  | some at' =>
    dsimp only
    by_cases hat : at' ∈ walk
    swap
    · rw [if_neg hat]
      refine hmark fun k hk => ?_
      rw [Option.some.injEq] at hk
      subst hk
      exact (hstop at' rfl).resolve_right hat
    rw [if_pos hat]
    have hcycle : WaitingCycle S s₀ (walk.drop (walk.idxOf at')) := by
      refine ⟨?_, fun j hj => hpend₀ j (hw.pending j (List.mem_of_mem_drop hj))⟩
      rw [← hwants]
      exact IsCycle.of_walk hw.nodup hw.chain hw.last hat
    have hatc : at' ∈ walk.drop (walk.idxOf at') := by
      have hlt := List.idxOf_lt_length_of_mem hat
      rw [List.drop_eq_getElem_cons hlt, List.getElem_idxOf]
      exact List.mem_cons_self
    have hpend : ∀ j ∈ walk.drop (walk.idxOf at'), s.state j = .pending :=
      fun j hj => hw.pending j (List.mem_of_mem_drop hj)
    generalize walk.drop (walk.idxOf at') = cycle at hcycle hatc hpend
    simp only [settleCycle]
    obtain ⟨h1, h2, h3, h4, h5⟩ := foldl_settleMember (S := S)
      (cycleAdmitted agents options cycle) cycle
      { s with
        walked := fun j => s.walked j || j ∈ walk
        stats := countCycle s.stats cycle (cycleAdmitted agents options cycle) }
    dsimp only at h1 h2 h3 h4 h5
    generalize cycle.foldl (settleMember S (cycleAdmitted agents options cycle)) _ = s'
      at h1 h2 h3 h4 h5
    have hself : CycleSettled agents options s' cycle := by
      intro j hj
      cases hadm : cycleAdmitted agents options cycle with
      | true => simpa [hj, hadm] using h4 j
      | false => exact ⟨by simpa [hj, hadm] using h4 j, by simpa [hj, hadm] using h5 j⟩
    have hkeep : ∀ j, s.state j ≠ .pending →
        s'.state j = s.state j ∧ s'.failure j = s.failure j := by
      intro j hj
      have hnot : j ∉ cycle := fun hmem => hj (hpend j hmem)
      exact ⟨by simpa [hnot] using h4 j, by simpa [hnot] using h5 j⟩
    have hkeepCycle : ∀ l, CycleSettled agents options s l → CycleSettled agents options s' l := by
      intro l hl j hj
      obtain ⟨hs, hf⟩ := hkeep j (hl.ne_pending hj)
      rw [hs, hf]
      exact hl j hj
    -- an agent of the walk that is on any cycle is on this one
    have hmet : ∀ j ∈ walk, ∀ l, WaitingCycle S s₀ l → j ∈ l → s'.state j ≠ .pending := by
      intro j hj l hl hjl
      obtain ⟨k, hkl, hk⟩ := haround j hj l hl hjl
      rw [Option.some.injEq] at hk
      subst hk
      have hperm := hl.1.perm hcycle.1 hkl hatc
      exact hself.ne_pending (hperm.mem_iff.1 hjl)
    have hold : ∀ j, s.state j ≠ .pending → s'.state j ≠ .pending := by
      intro j hj
      rw [(hkeep j hj).1]
      exact hj
    refine ⟨h1.trans h.index, h2.trans h.desired, fun j hj => ?_, fun j hj => ?_,
      fun j hj l hl hjl => ?_, fun j hj l hl hjl => ?_⟩
    · obtain ⟨hs, hf⟩ := h.other j hj
      have hne : s.state j ≠ .pending := by
        rw [hs]
        exact hj
      rw [(hkeep j hne).1, (hkeep j hne).2]
      exact ⟨hs, hf⟩
    · by_cases hjc : j ∈ cycle
      · exact Or.inr ⟨cycle, hcycle, hjc, hself⟩
      · rcases h.settled j hj with hp | ⟨l, hl, hjl, hset⟩
        · left
          rw [h4 j, if_neg hjc, hp]
        · exact Or.inr ⟨l, hl, hjl, hkeepCycle l hset⟩
    · rw [h3] at hj
      simp only [Bool.or_eq_true, decide_eq_true_eq] at hj
      rcases hj with hj | hj
      · exact hold j (h.walked j hj l hl hjl)
      · exact hmet j hj l hl hjl
    · by_cases hji : j = i
      · subst hji
        exact hmet j himem l hl hjl
      · have hne : (j : ℕ) ≠ i := fun he => hji (Fin.ext he)
        exact hold j (h.done j (by omega) l hl hjl)

/-- The last sweep leaves nobody pending. -/
theorem foldl_leaveWaiting (s : JointScratch n) :
    let s' := (List.finRange n).foldl leaveWaiting s
    s'.desired = s.desired ∧
      (∀ i, s'.state i = if s.state i = .pending then .failed else s.state i) ∧
      ∀ i, s'.failure i = if s.state i = .pending then .occupied else s.failure i := by
  have hloop := foldl_finRange (n := n) (f := leaveWaiting) (b := s)
    (fun m s' => s'.desired = s.desired ∧
      (∀ i : Fin n, s'.state i =
        if (i : ℕ) < m ∧ s.state i = .pending then .failed else s.state i) ∧
      ∀ i : Fin n, s'.failure i =
        if (i : ℕ) < m ∧ s.state i = .pending then .occupied else s.failure i)
    (by simp) ?_
  · simpa using hloop
  rintro i s' ⟨hd, hs, hf⟩
  have hiff : ∀ j, j ≠ i → (((j : ℕ) < i + 1 ∧ s.state j = .pending) ↔
      ((j : ℕ) < i ∧ s.state j = .pending)) := by
    intro j hj
    have hne : (j : ℕ) ≠ i := fun he => hj (Fin.ext he)
    exact and_congr_left fun _ => by omega
  have hsi : s'.state i = s.state i := by simp [hs i]
  have hfi : s'.failure i = s.failure i := by simp [hf i]
  simp only [leaveWaiting, hsi]
  by_cases hp : s.state i = .pending
  · rw [if_pos hp]
    refine ⟨hd, fun j => ?_, fun j => ?_⟩
    · by_cases hj : j = i
      · subst hj
        simp [JointScratch.fail, hp]
      · simp only [JointScratch.fail, Function.update_of_ne hj, hs j, hiff j hj]
    · by_cases hj : j = i
      · subst hj
        simp [JointScratch.fail, hp]
      · simp only [JointScratch.fail, Function.update_of_ne hj, hf j, hiff j hj]
  · rw [if_neg hp]
    refine ⟨hd, fun j => ?_, fun j => ?_⟩
    · by_cases hj : j = i
      · subst hj
        simp [hp, hsi]
      · rw [hs j]
        simp only [hiff j hj]
    · by_cases hj : j = i
      · subst hj
        simp [hp, hfi]
      · rw [hf j]
        simp only [hiff j hj]

/-- **Step 4** leaves the settled agents alone, moves a pending agent exactly when it is on a
cycle that may move, and refuses the other ones as occupied. -/
theorem jointSettled_spec (agents : Fin n → PathAgentState) (options : JointMoveOptions)
    (S : Shape) (s₀ : JointScratch n) :
    (jointSettled agents options S s₀).desired = s₀.desired ∧
      (∀ i, s₀.state i ≠ .pending → (jointSettled agents options S s₀).state i = s₀.state i ∧
        (jointSettled agents options S s₀).failure i = s₀.failure i) ∧
      ∀ i, s₀.state i = .pending →
        ((jointSettled agents options S s₀).state i = .admitted ∧
          ∃ l, WaitingCycle S s₀ l ∧ i ∈ l ∧ cycleAdmitted agents options l = true) ∨
        ((jointSettled agents options S s₀).state i = .failed ∧
          (jointSettled agents options S s₀).failure i = .occupied ∧
          ∀ l, WaitingCycle S s₀ l → i ∈ l → cycleAdmitted agents options l = false) := by
  have hphase : CyclePhase agents options S s₀ n ((List.finRange n).foldl
      (cycleStep agents options S) { s₀ with walked := fun _ => false }) := by
    refine foldl_finRange (CyclePhase agents options S s₀) ?_ fun i s h => h.cycleStep
    exact ⟨rfl, rfl, fun _ _ => ⟨rfl, rfl⟩, fun _ hi => Or.inl hi, by simp, by simp⟩
  simp only [jointSettled]
  generalize (List.finRange n).foldl (cycleStep agents options S)
    { s₀ with walked := fun _ => false } = s at hphase
  obtain ⟨hd, hs, hf⟩ := foldl_leaveWaiting s
  refine ⟨hd.trans hphase.desired, fun i hi => ?_, fun i hi => ?_⟩
  · obtain ⟨hst, hfl⟩ := hphase.other i hi
    have hne : ¬ s.state i = .pending := by
      rw [hst]
      exact hi
    rw [hs i, hf i, if_neg hne, if_neg hne]
    exact ⟨hst, hfl⟩
  · rw [hs i, hf i]
    rcases hphase.settled i hi with hp | ⟨l, hl, hil, hset⟩
    · right
      rw [if_pos hp, if_pos hp]
      exact ⟨rfl, rfl, fun l hl hil => absurd hp (hphase.done i i.isLt l hl hil)⟩
    · have hne := hset.ne_pending hil
      rw [if_neg hne, if_neg hne]
      have hseti := hset i hil
      cases hadm : cycleAdmitted agents options l with
      | true =>
        rw [hadm, if_pos rfl] at hseti
        exact Or.inl ⟨hseti, l, hl, hil, hadm⟩
      | false =>
        rw [hadm, if_neg (by simp)] at hseti
        refine Or.inr ⟨hseti.1, hseti.2, fun l' hl' hil' => ?_⟩
        rw [← cycleAdmitted_perm (hl.1.perm hl'.1 hil hil'), hadm]

end CycleWalks

/-! ### The admitted set -/

section Rounds

variable {S : Shape} {Tag : Type*} {W : World S Tag} {cls : MovementClass S Tag}
  {fields : MovementFields Tag} {n : ℕ} {agents : Fin n → PathAgentState}
  {routes : Fin n → List Coord3} {options : JointMoveOptions} {s s₀ : JointScratch n}
  {i j : Fin n} {l : List (Fin n)} {stats : JointMoveStats}

variable (W cls fields agents routes) in
/-- The next route step of the agent is valid, but for an occupant of its tile. -/
def Ready (i : Fin n) : Prop := ∃ dest, jointTarget agents routes i = some dest ∧
  (StepFree W cls fields agents i dest ∨ StepHeld W cls fields agents i dest)

variable (W cls fields agents routes options) in
/-- What one round admits. -/
structure MaximalAdmission (s : JointScratch n) : Prop where
  /-- Only valid moves are admitted. -/
  ready : ∀ i, s.state i = .admitted →
    Ready W cls fields agents routes i ∧ jointTarget agents routes i = some (s.desired i)
  /-- No two admitted agents enter one tile. -/
  unique : ∀ i j, s.state i = .admitted → s.state j = .admitted → s.desired i = s.desired j →
    i = j
  /-- An occupied tile is entered only when its occupant leaves it. -/
  vacated : ∀ i, s.state i = .admitted → flagAt W fields.occupancy (s.desired i) = true →
    ∃ j, s.state j = .admitted ∧ (agents j).position = s.desired i
  /-- A free tile goes to the first agent that wants it. -/
  free : ∀ i dest, jointTarget agents routes i = some dest →
    StepFree W cls fields agents i dest → (s.state i = .admitted ↔
      ∀ j < i, jointTarget agents routes j = some dest → ¬ StepFree W cls fields agents j dest)
  /-- A tile that an admitted agent vacates is entered by a ready agent that wants it. -/
  chain : ∀ i j, Ready W cls fields agents routes i →
    jointTarget agents routes i = some (agents j).position → s.state j = .admitted →
    s.state i = .admitted ∨
      ∃ k ≠ i, s.state k = .admitted ∧ s.desired k = (agents j).position
  /-- A cycle of wants moves exactly when its length and the policy let it. -/
  cycles : ∀ l, IsCycle (wantsOf agents (jointTarget agents routes)) l →
    (∀ i ∈ l, Ready W cls fields agents routes i) →
    ∀ i ∈ l, (s.state i = .admitted ↔ cycleAdmitted agents options l = true)
  /-- Moves begin at a free tile or around a cycle that may move. -/
  source : (∃ i, s.state i = .admitted) →
    (∃ i dest, jointTarget agents routes i = some dest ∧ StepFree W cls fields agents i dest) ∨
      ∃ l, IsCycle (wantsOf agents (jointTarget agents routes)) l ∧
        (∀ i ∈ l, Ready W cls fields agents routes i) ∧ cycleAdmitted agents options l = true
  /-- An agent recorded as occupied lost its tile to an admitted agent, or its tile is occupied
  and not vacated. -/
  occupied : ∀ i, s.state i = .failed → s.failure i = .occupied →
    (∃ j, s.state j = .admitted ∧ s.desired j = s.desired i) ∨
      (flagAt W fields.occupancy (s.desired i) = true ∧
        ∀ j, (agents j).position = s.desired i → s.state j ≠ .admitted)

/-- An agent that is ready for an occupied tile is held by its occupant. -/
theorem Ready.held (h : Ready W cls fields agents routes i) {dest : Coord3}
    (hdest : jointTarget agents routes i = some dest)
    (hocc : flagAt W fields.occupancy dest = true) : StepHeld W cls fields agents i dest := by
  obtain ⟨t, ht, hstep⟩ := h
  rw [hdest, Option.some.injEq] at ht
  subst ht
  refine hstep.resolve_left fun hfree => ?_
  have hflag := hfree.flags.1
  rw [hocc] at hflag
  cases hflag

/-- The cycles of pending agents are the cycles of wants among them. -/
theorem waitingCycle_iff (hholds : HoldsTiles W fields agents)
    (h : Admitting W cls fields agents (jointTarget agents routes) s₀) :
    WaitingCycle S s₀ l ↔ IsCycle (wantsOf agents (jointTarget agents routes)) l ∧
      ∀ i ∈ l, s₀.state i = .pending := by
  refine and_congr_left fun hpend => ?_
  have hmap : l.map (s₀.wants S) = l.map (wantsOf agents (jointTarget agents routes)) :=
    List.map_congr_left fun i hi => h.wants_eq hholds (hpend i hi)
  exact ⟨fun hl => ⟨hl.1, hl.2, hmap ▸ hl.3⟩, fun hl => ⟨hl.1, hl.2, hmap ▸ hl.3⟩⟩

/-- **A round admits a maximal set**, and its chain fixpoint terminates. -/
theorem exists_jointAdmission (hholds : HoldsTiles W fields agents) (cls : MovementClass S Tag)
    (routes : Fin n → List Coord3) (options : JointMoveOptions) (stats : JointMoveStats) :
    ∃ s, jointAdmission W cls fields agents routes options stats = some s ∧
      MaximalAdmission W cls fields agents routes options s := by
  obtain ⟨s₀, hs₀, h, hdrained, hkeep⟩ :=
    (admitting_classified W cls fields agents routes stats).chained hholds
  refine ⟨jointSettled agents options S s₀, by simp only [jointAdmission, hs₀, Option.map_some],
    ?_⟩
  obtain ⟨hdesired, hother, hpending⟩ := jointSettled_spec agents options S s₀
  generalize jointSettled agents options S s₀ = s at hdesired hother hpending
  have hold : ∀ i, s₀.state i = .admitted → s.state i = .admitted := by
    intro i hi
    rw [(hother i (by rw [hi]; simp)).1, hi]
  -- an admitted agent was admitted before the walks, or is on a cycle that moves
  have hnew : ∀ i, s.state i = .admitted → s₀.state i = .admitted ∨
      ∃ l, WaitingCycle S s₀ l ∧ i ∈ l ∧ cycleAdmitted agents options l = true := by
    intro i hi
    by_cases hp : s₀.state i = .pending
    · rcases hpending i hp with ⟨-, hl⟩ | ⟨hf, -⟩
      · exact Or.inr hl
      · rw [hi] at hf
        cases hf
    · exact Or.inl ((hother i hp).1.symm.trans hi)
  have hmember : ∀ l, WaitingCycle S s₀ l → cycleAdmitted agents options l = true →
      ∀ i ∈ l, s.state i = .admitted := by
    intro l hl hadm i hi
    rcases hpending i (hl.2 i hi) with ⟨hs, -⟩ | ⟨-, -, hno⟩
    · exact hs
    · rw [hno l hl hi] at hadm
      cases hadm
  -- a cycle refills every tile it vacates
  have hnext : ∀ i j, s₀.state i = .pending → (s₀.wants S i = some j ↔
      (agents j).position = s₀.desired i) := by
    intro i j hi
    rw [h.wants_eq hholds hi, wantsOf_eq_some hholds, h.target_of_pending hi, Option.some.injEq,
      eq_comm]
  have hrefill : ∀ l, WaitingCycle S s₀ l → cycleAdmitted agents options l = true → ∀ j ∈ l,
      ∃ k ∈ l, s.state k = .admitted ∧ s.desired k = (agents j).position := by
    intro l hl hadm j hj
    obtain ⟨k, hk, hkj⟩ := hl.1.exists_prev hj
    refine ⟨k, hk, hmember l hl hadm k hk, ?_⟩
    rw [hdesired, ← (hnext k j (hl.2 k hk)).1 hkj]
  have hrefillOne : ∀ j, s.state j = .admitted → s₀.state j ≠ .admitted →
      ∃ k, s.state k = .admitted ∧ s.desired k = (agents j).position := by
    intro j hj hj₀
    obtain ⟨l, hl, hjl, hadm⟩ := (hnew j hj).resolve_left hj₀
    obtain ⟨k, -, hk⟩ := hrefill l hl hadm j hjl
    exact ⟨k, hk⟩
  have hdone : ∀ i t, jointTarget agents routes i = some t →
      StepFree W cls fields agents i t → s.state i = s₀.state i := by
    intro i t ht hfree
    refine (hother i fun hp => ?_).1
    have hheld := h.pending i hp
    rw [h.desired i t ht] at hheld
    exact hfree.not_held hheld
  constructor
  case ready =>
    intro i hi
    rw [hdesired]
    rcases hnew i hi with hi₀ | ⟨l, hl, hil, -⟩
    · have htarget : jointTarget agents routes i = some (s₀.desired i) := by
        obtain ⟨t, ht⟩ : ∃ t, jointTarget agents routes i = some t := by
          rw [← Option.ne_none_iff_exists']
          intro hnone
          rw [(h.inactive i).2 hnone] at hi₀
          cases hi₀
        rw [ht, h.desired i t ht]
      rcases h.admitted i hi₀ with hfree | ⟨hheld, -⟩
      · exact ⟨⟨_, htarget, Or.inl hfree⟩, htarget⟩
      · exact ⟨⟨_, htarget, Or.inr hheld⟩, htarget⟩
    · have hp := hl.2 i hil
      exact ⟨⟨_, h.target_of_pending hp, Or.inr (h.pending i hp)⟩, h.target_of_pending hp⟩
  case vacated =>
    intro i hi hocc
    rw [hdesired] at hocc ⊢
    rcases hnew i hi with hi₀ | ⟨l, hl, hil, hadm⟩
    · rcases h.admitted i hi₀ with hfree | ⟨-, j, hj, hpos⟩
      · have hflag := hfree.flags.1
        rw [hocc] at hflag
        cases hflag
      · exact ⟨j, hold j hj, hpos⟩
    · obtain ⟨j, hj, hij⟩ := hl.1.next_mem hil
      exact ⟨j, hmember l hl hadm j hj, (hnext i j (hl.2 i hil)).1 hij⟩
  case unique =>
    -- a tile inside a moving cycle is entered by its predecessor only
    have hcross : ∀ i j, s.state i = .admitted → s.state j = .admitted →
        s₀.desired i = s₀.desired j → s₀.state j ≠ .admitted → i = j := by
      intro i j hi hj heq hj₀
      obtain ⟨l, hl, hjl, hadm⟩ := (hnew j hj).resolve_left hj₀
      obtain ⟨k, hkl, hjk⟩ := hl.1.next_mem hjl
      have hposk := (hnext j k (hl.2 j hjl)).1 hjk
      have hk₀ : s₀.state k = .pending := hl.2 k hkl
      rcases hnew i hi with hi₀ | ⟨l', hl', hil', -⟩
      · exfalso
        rcases h.admitted i hi₀ with hfree | ⟨-, m, hm, hpos⟩
        · have hflag := hfree.flags.1
          rw [heq, ← hposk, hholds.occupied k] at hflag
          cases hflag
        · have hmk : m = k := hholds.inj m k (by rw [hpos, heq, hposk])
          rw [hmk, hk₀] at hm
          cases hm
      · have hik : s₀.wants S i = some k := (hnext i k (hl'.2 i hil')).2 (by rw [hposk, heq])
        have hkl' : k ∈ l' := hl'.1.mem_of_next hil' hik
        have hil : i ∈ l := (hl'.1.perm hl.1 hkl' hkl).mem_iff.1 hil'
        exact hl.1.prev_unique hil hjl (hik.trans hjk.symm)
    intro i j hi hj heq
    rw [hdesired] at heq
    by_cases hj₀ : s₀.state j = .admitted
    · by_cases hi₀ : s₀.state i = .admitted
      · exact h.unique i j hi₀ hj₀ heq
      · exact (hcross j i hj hi heq.symm hi₀).symm
    · exact hcross i j hi hj heq hj₀
  case free =>
    intro i dest ht hfree
    rw [hdone i dest ht hfree]
    constructor
    · intro hi j hji htj hfreej
      rcases h.free j dest htj hfreej with hj | ⟨-, -, k, hkj, -, hk, hdk⟩
      · exact hji.ne (h.unique j i hj hi (by rw [h.desired j dest htj, h.desired i dest ht]))
      · exact (hkj.trans hji).ne (h.unique k i hk hi (by rw [hdk, h.desired i dest ht]))
    · intro hfirst
      rcases h.free i dest ht hfree with hi | ⟨-, -, k, hki, hkfree, hk, hdk⟩
      · exact hi
      · exfalso
        refine hfirst k hki ?_ hkfree
        obtain ⟨t, ht'⟩ : ∃ t, jointTarget agents routes k = some t := by
          rw [← Option.ne_none_iff_exists']
          intro hnone
          rw [(h.inactive k).2 hnone] at hk
          cases hk
        rw [ht', ← h.desired k t ht', hdk]
  case chain =>
    intro i j hready ht hj
    have hheld := hready.held ht (hholds.occupied j)
    have hd := h.desired i _ ht
    by_cases hj₀ : s₀.state j = .admitted
    swap
    · obtain ⟨k, hk, hdk⟩ := hrefillOne j hj hj₀
      by_cases hki : k = i
      · exact Or.inl (hki ▸ hk)
      · exact Or.inr ⟨k, hki, hk, hdk⟩
    cases hi₀ : s₀.state i with
    | inactive =>
      rw [(h.inactive i).1 hi₀] at ht
      cases ht
    | pending =>
      exact absurd hj₀ (hdrained i hi₀ j ((hnext i j hi₀).2 hd.symm))
    | admitted => exact Or.inl (hold i hi₀)
    | failed =>
      right
      obtain ⟨k, hk, hdk⟩ := h.refused i hi₀ (h.held i _ ht hheld hi₀)
      refine ⟨k, ?_, hold k hk, by rw [hdesired, hdk, hd]⟩
      rintro rfl
      rw [hi₀] at hk
      cases hk
  case cycles =>
    intro l hl hready i hi
    have hpend : ∀ j ∈ l, s₀.state j = .pending := by
      refine hkeep l hl fun j hj => ?_
      obtain ⟨k, -, hjk⟩ := hl.next_mem hj
      rw [wantsOf_eq_some hholds] at hjk
      exact pending_of_held ((hready j hj).held hjk (hholds.occupied k)) hjk
    have hwait : WaitingCycle S s₀ l := (waitingCycle_iff hholds h).2 ⟨hl, hpend⟩
    refine ⟨fun hadm => ?_, fun hadm => hmember l hwait hadm i hi⟩
    rcases hnew i hadm with hi₀ | ⟨l', hl', hil', hadm'⟩
    · rw [hpend i hi] at hi₀
      cases hi₀
    · rwa [cycleAdmitted_perm (hwait.1.perm hl'.1 hi hil')]
  case source =>
    rintro ⟨i, hi⟩
    rcases hnew i hi with hi₀ | ⟨l, hl, hil, hadm⟩
    · exact Or.inl (h.source ⟨i, hi₀⟩)
    · refine Or.inr ⟨l, ((waitingCycle_iff hholds h).1 hl).1, fun j hj => ?_, hadm⟩
      exact ⟨_, h.target_of_pending (hl.2 j hj), Or.inr (h.pending j (hl.2 j hj))⟩
  case occupied =>
    intro i hi hf
    rw [hdesired]
    by_cases hp : s₀.state i = .pending
    swap
    · left
      obtain ⟨hs, hfl⟩ := hother i hp
      obtain ⟨k, hk, hdk⟩ := h.refused i (hs.symm.trans hi) (hfl.symm.trans hf)
      exact ⟨k, hold k hk, hdk⟩
    by_cases hvac : ∃ j, (agents j).position = s₀.desired i ∧ s.state j = .admitted
    · left
      obtain ⟨j, hpos, hj⟩ := hvac
      have hj₀ : s₀.state j ≠ .admitted := hdrained i hp j ((hnext i j hp).2 hpos)
      obtain ⟨k, hk, hdk⟩ := hrefillOne j hj hj₀
      rw [hdesired] at hdk
      exact ⟨k, hk, by rw [hdk, hpos]⟩
    · right
      exact ⟨(h.pending i hp).flag, fun j hpos hj => hvac ⟨j, hpos, hj⟩⟩

end Rounds

end Tess
