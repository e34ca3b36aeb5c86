import Tess.Sim.PibtMovement

/-!
# The decisions of a PIBT pass

Claims outlive the desires they were made for, so what keeps two agents apart is an invariant of
the whole frame stack.

* `Deciding` : the invariant of the decision loop: every committed desire holds a claim, no two
  of them are equal, and the tiles of the undecided agents are unclaimed;
* `Deciding.tried`, `Deciding.pibtStep` : one iteration keeps it;
* `Tried` : everything that an attempt at a candidate can do;
* `loopBudget`, `pibtDecided_isSome` : what every iteration spends, so that **every pass ends**.
-/

namespace Tess

open Graphs

section Candidates

variable {S : Shape} {Tag : Type*} {n : ℕ} {W : World S Tag} {cls : MovementClass S Tag}
  {fields : MovementFields Tag} {agents : Fin n → PathAgentState} {rank : Fin n → Coord3 → ℕ}
  {s : PibtScratch n} {i : Fin n} {c : Coord3}

variable (W cls fields agents) in
/-- An agent that is under way may decide to enter the tile. -/
structure PibtCandidate (i : Fin n) (c : Coord3) : Prop where
  /-- The agent is under way. -/
  outstanding : pathAgentGoalOutstanding (agents i) = true
  /-- The agent can leave its tile. -/
  passable : isPassable W cls (agents i).position = true
  /-- The step is legal. -/
  legal : ∃ k, LegalStep W cls (adjacentTransitions S Tag) (agents i).position c k
  /-- The tile is not reserved. -/
  unreserved : flagAt W fields.reservation c = false
  /-- Only an agent holds the tile. -/
  held : flagAt W fields.occupancy c = true → ∃ j, (agents j).position = c

theorem PibtCandidate.contains (h : PibtCandidate W cls fields agents i c) :
    S.contains c = true := h.legal.choose_spec.contains_right

theorem mem_insertByRank {value x : Coord3 × ℕ} {l : List (Coord3 × ℕ)} :
    x ∈ insertByRank value l ↔ x = value ∨ x ∈ l := by
  induction l with
  | nil => simp [insertByRank]
  | cons head tail ih =>
    simp only [insertByRank]
    split_ifs
    · simp
    · simp only [List.mem_cons, ih]
      exact or_left_comm

theorem length_insertByRank {value : Coord3 × ℕ} {l : List (Coord3 × ℕ)} :
    (insertByRank value l).length = l.length + 1 := by
  induction l with
  | nil => rfl
  | cons head tail ih =>
    simp only [insertByRank]
    split_ifs
    · rfl
    · simp only [List.length_cons, ih]

/-- Sorting by rank keeps the candidates. -/
theorem foldl_insertByRank (l acc : List (Coord3 × ℕ)) :
    (l.foldl (fun sorted value => insertByRank value sorted) acc).length =
        l.length + acc.length ∧
      ∀ x, x ∈ l.foldl (fun sorted value => insertByRank value sorted) acc ↔
        x ∈ l ∨ x ∈ acc := by
  induction l generalizing acc with
  | nil => simp
  | cons a l ih =>
    obtain ⟨hlen, hmem⟩ := ih (insertByRank a acc)
    rw [List.foldl_cons]
    refine ⟨?_, fun x => ?_⟩
    · rw [hlen, length_insertByRank, List.length_cons]
      omega
    · rw [hmem, mem_insertByRank, List.mem_cons]
      tauto

variable (W cls fields agents rank s i) in
/-- An agent never has more candidates than its frame holds. -/
theorem length_rankedCandidates_le :
    (rankedCandidates W cls fields agents rank s i).length ≤ pibtMaxCandidates := by
  have htake : (pibtCandidates W cls fields agents s i).length ≤ pibtMaxCandidates - 1 :=
    List.length_take_le _ _
  rw [rankedCandidates, (foldl_insertByRank _ _).1, List.length_map, List.length_append,
    List.length_singleton, List.length_nil]
  simp only [pibtMaxCandidates] at htake ⊢
  omega

/-- **The candidates of an agent** are its own tile and legal steps to it. -/
theorem rankedCandidates_spec (hholds : HoldsTiles W fields agents)
    (hindex : s.occupants = occupantIndex S agents)
    (hgoal : pathAgentGoalOutstanding (agents i) = true)
    (hpass : isPassable W cls (agents i).position = true) :
    (rankedCandidates W cls fields agents rank s i).length ≤ pibtMaxCandidates ∧
      ∀ x ∈ rankedCandidates W cls fields agents rank s i,
        x.1 = (agents i).position ∨ PibtCandidate W cls fields agents i x.1 := by
  refine ⟨length_rankedCandidates_le W cls fields agents rank s i, fun x hx => ?_⟩
  rw [rankedCandidates, (foldl_insertByRank _ _).2] at hx
  obtain ⟨coord, hcoord, rfl⟩ := List.mem_map.1 (hx.resolve_right List.not_mem_nil)
  rcases List.mem_append.1 hcoord with hcoord | hcoord
  swap
  · exact Or.inl (List.mem_singleton.1 hcoord)
  right
  obtain ⟨probe, hprobe, hemit⟩ := List.mem_filterMap.1 (List.mem_of_mem_take hcoord)
  dsimp only at hemit
  split_ifs at hemit with h1 h2 h3 h4
  simp only [Option.some.injEq] at hemit
  rw [not_or, not_not] at h1
  obtain ⟨k, hstep, -, -, hidx, -⟩ :=
    legalStep_of_mem_forEachForward (hholds.contains i) hprobe h1.1
  have hdest : S.coord probe.destIndex = probe.dest := by
    rw [hidx, Shape.coord_tileKey hstep.contains_right]
  rw [hdest] at hemit h2 h3 h4
  subst hemit
  refine ⟨hgoal, hpass, ⟨k, hstep⟩, by simpa using h3, fun hocc => ?_⟩
  rw [hocc, Bool.true_and, hindex] at h4
  obtain ⟨j, hj⟩ : ∃ j, jointFindOccupant (occupantIndex S agents) (S.tileKey probe.dest) =
      some j := by
    rw [← Option.ne_none_iff_exists']
    simpa using h4
  exact ⟨j, Shape.tileKey_inj (hholds.contains j) hstep.contains_right
    ((findOccupant_eq_some hholds.tileKey_inj).1 hj)⟩

end Candidates

/-! ### What an attempt can do -/

section Attempt

variable {S : Shape} {Tag : Type*} {n : ℕ} {W : World S Tag} {cls : MovementClass S Tag}
  {fields : MovementFields Tag} {agents : Fin n → PathAgentState} {options : JointMoveOptions}
  {rank : Fin n → Coord3 → ℕ} {s : PibtScratch n} {frame : PibtFrame n}
  {rest : List (PibtFrame n)}

/-- The peer on a tile that an agent tries. -/
def peerOn (S : Shape) (agents : Fin n → PathAgentState) (s : PibtScratch n) (i : Fin n)
    (dest : Coord3) : Option (Fin n) :=
  if dest = (agents i).position then none else jointFindOccupant s.occupants (S.tileKey dest)

/-- The buffers behind a claim of the innermost agent, which waits for the peer there. -/
def waitingFor (s : PibtScratch n) (frame : PibtFrame n) (rest : List (PibtFrame n))
    (dest : Coord3) (claimed : List ℕ) (stats : JointMoveStats) : PibtScratch n :=
  { s with
    claimed := claimed
    desired := Function.update s.desired frame.agent dest
    stats := stats
    frames := { frame with waiting := true } :: rest }

variable (S agents options) in
/-- A claim of a tile by the innermost agent, with its counts. -/
structure ClaimMade (s : PibtScratch n) (frame : PibtFrame n) (dest : Coord3) (claimed : List ℕ)
    (stats : JointMoveStats) : Prop where
  /-- The tile is the next candidate. -/
  next : ∃ r, frame.candidates[frame.nextCandidate]? = some (dest, r)
  /-- Nobody claimed it before. -/
  claimed : jointClaim (S.tileKey dest) s.claimed = some claimed
  /-- An exchange is allowed. -/
  allowed : ∀ peer, peerOn S agents s frame.agent dest = some peer →
    s.desired peer = (agents frame.agent).position →
      swapAllowed agents options frame.agent peer = true
  /-- Moves are not counted yet. -/
  stats : stats.frame = s.stats.frame

theorem ClaimMade.nextCandidate_lt {dest : Coord3} {claimed : List ℕ} {stats : JointMoveStats}
    (h : ClaimMade S agents options s frame dest claimed stats) :
    frame.nextCandidate < frame.candidates.length := by
  obtain ⟨r, hr⟩ := h.next
  exact (List.getElem?_eq_some_iff.1 hr).1

variable (W cls fields agents options rank) in
/-- What an attempt at the next candidate can do. -/
inductive Tried (s : PibtScratch n) (frame : PibtFrame n) (rest : List (PibtFrame n)) :
    PibtScratch n → Prop
  /-- Nowhere to place. -/
  | exhausted (hnone : frame.candidates[frame.nextCandidate]? = none) :
    Tried s frame rest
      { s with
        claimed := claimTile S (agents frame.agent).position s.claimed
        desired := Function.update s.desired frame.agent (agents frame.agent).position
        state := Function.update s.state frame.agent .decided
        frames := rest
        childSucceeded := false }
  /-- The candidate is refused. -/
  | skipped (hnext : frame.nextCandidate < frame.candidates.length) (stats : JointMoveStats)
      (hstats : stats.frame = s.stats.frame) :
    Tried s frame rest
      { s with
        frames := { frame with nextCandidate := frame.nextCandidate + 1 } :: rest
        stats := stats }
  /-- The candidate is taken. -/
  | settled {dest : Coord3} {claimed : List ℕ} {stats : JointMoveStats}
      (hclaim : ClaimMade S agents options s frame dest claimed stats)
      (hpeer : ∀ peer, peerOn S agents s frame.agent dest = some peer →
        s.state peer ≠ .undecided) :
    Tried s frame rest
      { s with
        claimed := claimed
        desired := Function.update s.desired frame.agent dest
        stats := stats
        state := Function.update s.state frame.agent .decided
        frames := rest
        childSucceeded := true }
  /-- The peer on the candidate has the turn. -/
  | handed {dest : Coord3} {claimed : List ℕ} {stats : JointMoveStats} {peer : Fin n}
      (hclaim : ClaimMade S agents options s frame dest claimed stats)
      (hpeer : peerOn S agents s frame.agent dest = some peer)
      (hundecided : s.state peer = .undecided)
      (hpushed : (startDeciding W cls fields agents rank
        (waitingFor s frame rest dest claimed stats) peer).2 = true) :
    Tried s frame rest (startDeciding W cls fields agents rank
      (waitingFor s frame rest dest claimed stats) peer).1
  /-- The peer on the candidate fails at once. -/
  | refused {dest : Coord3} {claimed : List ℕ} {stats : JointMoveStats} {peer : Fin n}
      (hclaim : ClaimMade S agents options s frame dest claimed stats)
      (hpeer : peerOn S agents s frame.agent dest = some peer)
      (hundecided : s.state peer = .undecided)
      (hpushed : (startDeciding W cls fields agents rank
        (waitingFor s frame rest dest claimed stats) peer).2 = false) :
    Tried s frame rest
      { (startDeciding W cls fields agents rank
          (waitingFor s frame rest dest claimed stats) peer).1 with childSucceeded := false }

/-- An agent that begins to try candidates. -/
theorem startDeciding_pushed {i : Fin n}
    (h : (startDeciding W cls fields agents rank s i).2 = true) :
    pathAgentGoalOutstanding (agents i) = true ∧ isPassable W cls (agents i).position = true ∧
      (startDeciding W cls fields agents rank s i).1 =
        { s with
          state := Function.update s.state i .deciding
          started := i :: s.started
          frames :=
            { agent := i
              candidates := rankedCandidates W cls fields agents rank
                { s with
                  state := Function.update s.state i .deciding
                  started := i :: s.started } i } :: s.frames } := by
  rw [startDeciding] at h ⊢
  split_ifs at h ⊢ with hgoal hpass
  exact ⟨by simpa using hgoal, by simpa using hpass, rfl⟩

/-- An agent that keeps its tile at once. -/
theorem startDeciding_kept {i : Fin n}
    (h : (startDeciding W cls fields agents rank s i).2 = false) :
    ∃ status, (startDeciding W cls fields agents rank s i).1 =
      { s with
        claimed := claimTile S (agents i).position s.claimed
        failure := Function.update s.failure i status
        state := Function.update s.state i .decided
        started := i :: s.started } := by
  rw [startDeciding] at h ⊢
  split_ifs at h ⊢
  · exact ⟨.occupied, by rw [Function.update_idem]⟩
  · exact ⟨.impassableFrom, by rw [Function.update_idem]⟩

/-- The frames of the stack are not read by an attempt. -/
theorem tryCandidate_frames (frames : List (PibtFrame n)) :
    tryCandidate W cls fields agents options rank { s with frames := frames } frame rest =
      tryCandidate W cls fields agents options rank s frame rest := by
  rw [tryCandidate, tryCandidate]

/-- **An attempt does one of these.** -/
theorem tried_tryCandidate : Tried W cls fields agents options rank s frame rest
    (tryCandidate W cls fields agents options rank s frame rest) := by
  rw [tryCandidate]
  cases hcandidate : frame.candidates[frame.nextCandidate]? with
  | none => exact .exhausted hcandidate
  | some candidate =>
    obtain ⟨dest, r⟩ := candidate
    have hnext : frame.nextCandidate < frame.candidates.length :=
      (List.getElem?_eq_some_iff.1 hcandidate).1
    simp only
    generalize hpeer : (if dest = (agents frame.agent).position then none
      else jointFindOccupant s.occupants (S.tileKey dest)) = peer
    change peerOn S agents s frame.agent dest = peer at hpeer
    by_cases hdenied : ((peer.filter fun peer => s.desired peer =
        (agents frame.agent).position).any fun peer =>
          !swapAllowed agents options frame.agent peer) = true
    · rw [if_pos hdenied]
      exact .skipped hnext _ rfl
    rw [if_neg hdenied]
    cases hclaim : jointClaim (S.tileKey dest) s.claimed with
    | none => exact .skipped hnext s.stats rfl
    | some claimed =>
      have hallowed : ∀ j, peerOn S agents s frame.agent dest = some j →
          s.desired j = (agents frame.agent).position →
            swapAllowed agents options frame.agent j = true := by
        intro j hj hdesired
        rw [hpeer] at hj
        subst hj
        simpa [hdesired] using hdenied
      simp only
      cases hundecided : peer.filter fun peer => s.state peer = .undecided with
      | none =>
        refine .settled ⟨⟨r, hcandidate⟩, hclaim, hallowed, rfl⟩ fun j hj hstate => ?_
        rw [hpeer] at hj
        subst hj
        simp [hstate] at hundecided
      | some u =>
        obtain ⟨hu, hstate⟩ := Option.filter_eq_some_iff.1 hundecided
        simp only
        generalize (s.stats.swaps + if (peer.filter fun peer => s.desired peer =
          (agents frame.agent).position).isSome then 1 else 0) = swaps
        split_ifs with hpushed
        · exact .handed ⟨⟨r, hcandidate⟩, hclaim, hallowed, rfl⟩ (hpeer.trans hu)
            (of_decide_eq_true hstate) hpushed
        · exact .refused ⟨⟨r, hcandidate⟩, hclaim, hallowed, rfl⟩ (hpeer.trans hu)
            (of_decide_eq_true hstate) (Bool.eq_false_iff.2 hpushed)

end Attempt

/-! ### The invariant of the decision loop -/

section Loop

variable {S : Shape} {Tag : Type*} {n : ℕ} {W : World S Tag} {cls : MovementClass S Tag}
  {fields : MovementFields Tag} {agents : Fin n → PathAgentState} {options : JointMoveOptions}
  {rank : Fin n → Coord3 → ℕ} {s s' : PibtScratch n} {i j : Fin n} {c : Coord3}
  {frame : PibtFrame n} {rest : List (PibtFrame n)}

/-- The agent has decided, or waits for the peer on its tile. -/
def Committed (s : PibtScratch n) (i : Fin n) : Prop :=
  s.state i = .decided ∨ ∃ f ∈ s.frames, f.agent = i ∧ f.waiting = true

/-- The innermost frame waits for a peer that could go nowhere. -/
def PeerFailed (s : PibtScratch n) (i : Fin n) : Prop :=
  s.childSucceeded = false ∧ ∃ f ∈ s.frames.head?, f.waiting = true ∧ f.agent = i

variable (W cls fields agents options) in
/-- What every iteration of the decision loop maintains. -/
structure Deciding (s : PibtScratch n) : Prop where
  /-- The position index stays. -/
  index : s.occupants = occupantIndex S agents
  /-- The claims stay sorted. -/
  sorted : s.claimed.Pairwise (· < ·)
  /-- No agent decides twice at a time. -/
  nodup : (s.frames.map (·.agent)).Nodup
  /-- The deciding agents have their frames. -/
  deciding : ∀ i, s.state i = .deciding ↔ ∃ f ∈ s.frames, f.agent = i
  /-- An undecided agent keeps its tile, which nobody has claimed. -/
  undecided : ∀ i, s.state i = .undecided →
    s.desired i = (agents i).position ∧ S.tileKey (agents i).position ∉ s.claimed
  /-- All frames but the innermost one wait. -/
  waiting : ∀ f ∈ s.frames.tail, f.waiting = true
  /-- A frame waits for the agent of the frame inside it. -/
  link : s.frames.IsChain fun child parent =>
    s.desired parent.agent = (agents child.agent).position
  /-- Committed desires are claimed. -/
  claimed : ∀ i, Committed s i → S.tileKey (s.desired i) ∈ s.claimed
  /-- An agent that tries candidates desires its own tile. -/
  trying : ∀ f ∈ s.frames, f.waiting = false → s.desired f.agent = (agents f.agent).position
  /-- Committed desires differ, but for the one of an agent whose peer has just failed. -/
  unique : ∀ i j, Committed s i → Committed s j → s.desired i = s.desired j →
    i = j ∨ PeerFailed s i ∨ PeerFailed s j
  /-- The tile of the outermost agent is unclaimed until a decision succeeds. -/
  root : ∀ f ∈ s.frames.getLast?,
    (s.childSucceeded = false ∨ ∃ top ∈ s.frames.head?, top.waiting = false) →
      S.tileKey (agents f.agent).position ∉ s.claimed
  /-- Agents go to candidates only. -/
  moves : ∀ i, s.desired i ≠ (agents i).position →
    PibtCandidate W cls fields agents i (s.desired i)
  /-- Exchanges follow the policy. -/
  swaps : ∀ i j, i ≠ j → s.desired i = (agents j).position →
    s.desired j = (agents i).position → swapAllowed agents options i j = true
  /-- The frames hold candidates. -/
  candidates : ∀ f ∈ s.frames, f.candidates.length ≤ pibtMaxCandidates ∧
    ∀ x ∈ f.candidates, x.1 = (agents f.agent).position ∨
      PibtCandidate W cls fields agents f.agent x.1
  /-- Every agent begins to decide at most once. -/
  once : s.started.Nodup ∧ ∀ i ∈ s.started, s.state i ≠ .undecided

theorem swapAllowed_comm : swapAllowed agents options i j = swapAllowed agents options j i := by
  simp only [swapAllowed]
  cases options.swapPolicy <;> simp [Bool.and_comm]

/-- The claims behind a claim that may fail. -/
theorem mem_claimTile {claimed : List ℕ} (hsorted : claimed.Pairwise (· < ·)) :
    (claimTile S c claimed).Pairwise (· < ·) ∧
      ∀ key, key ∈ claimTile S c claimed ↔ key = S.tileKey c ∨ key ∈ claimed := by
  have hspec := jointClaim_spec (S.tileKey c) hsorted
  simp only [claimTile]
  cases hclaim : jointClaim (S.tileKey c) claimed with
  | none =>
    simp only [hclaim] at hspec
    refine ⟨hsorted, fun key => ?_⟩
    simp only [Option.getD_none]
    exact ⟨Or.inr, fun h => h.elim (fun he => he ▸ hspec) id⟩
  | some claimed' =>
    simp only [hclaim] at hspec
    exact hspec.2

namespace Deciding

theorem contains (hholds : HoldsTiles W fields agents)
    (h : Deciding W cls fields agents options s) (i : Fin n) :
    S.contains (s.desired i) = true := by
  by_cases hi : s.desired i = (agents i).position
  · rw [hi]
    exact hholds.contains i
  · exact (h.moves i hi).contains

/-- A committed desire is not an unclaimed tile. -/
theorem ne_of_not_claimed (h : Deciding W cls fields agents options s) (hi : Committed s i)
    (hc : S.tileKey c ∉ s.claimed) : s.desired i ≠ c := by
  rintro rfl
  exact hc (h.claimed i hi)

/-- **The agent of an unwaiting innermost frame.** -/
theorem head (h : Deciding W cls fields agents options s) (hframes : s.frames = frame :: rest) :
    s.state frame.agent = .deciding ∧ (∀ f ∈ rest, f.waiting = true) ∧
      (∀ f ∈ rest, f.agent ≠ frame.agent) := by
  have hnodup := h.nodup
  rw [hframes, List.map_cons, List.nodup_cons] at hnodup
  refine ⟨(h.deciding _).2 ⟨frame, by rw [hframes]; exact List.mem_cons_self, rfl⟩, ?_,
    fun f hf heq => hnodup.1 (heq ▸ List.mem_map_of_mem hf)⟩
  have hwait := h.waiting
  rw [hframes] at hwait
  exact hwait

/-- While the innermost frame tries candidates, the committed agents have decided or wait in the
frames around it. -/
theorem committed_iff (h : Deciding W cls fields agents options s)
    (hframes : s.frames = frame :: rest) (hopen : frame.waiting = false) :
    Committed s i ↔ s.state i = .decided ∨ ∃ f ∈ rest, f.agent = i := by
  have hrest := (h.head hframes).2.1
  simp only [Committed, hframes, List.mem_cons, exists_eq_or_imp, hopen, Bool.false_eq_true,
    and_false, false_or]
  exact or_congr_right ⟨fun ⟨f, hf, ha, _⟩ => ⟨f, hf, ha⟩, fun ⟨f, hf, ha⟩ =>
    ⟨f, hf, ha, hrest f hf⟩⟩

/-- While the innermost frame tries candidates, committed desires differ. -/
theorem unique_open (h : Deciding W cls fields agents options s)
    (hframes : s.frames = frame :: rest) (hopen : frame.waiting = false) (hi : Committed s i)
    (hj : Committed s j) (heq : s.desired i = s.desired j) : i = j := by
  have hno : ∀ k, ¬ PeerFailed s k := by
    rintro k ⟨-, f, hf, hwait, -⟩
    rw [hframes, List.head?_cons, Option.mem_def, Option.some.injEq] at hf
    rw [← hf, hopen] at hwait
    cases hwait
  rcases h.unique i j hi hj heq with he | hf | hf
  · exact he
  · exact absurd hf (hno i)
  · exact absurd hf (hno j)

/-- The tile of the outermost agent, while the innermost frame tries candidates. -/
theorem root_open (h : Deciding W cls fields agents options s)
    (hframes : s.frames = frame :: rest) (hopen : frame.waiting = false) {f : PibtFrame n}
    (hf : f ∈ s.frames.getLast?) : S.tileKey (agents f.agent).position ∉ s.claimed :=
  h.root f hf (Or.inr ⟨frame, by rw [hframes]; rfl, hopen⟩)

theorem getLast?_of_rest (hframes : s.frames = frame :: rest) {f : PibtFrame n}
    (hf : f ∈ rest.getLast?) : f ∈ s.frames.getLast? ∧ f ∈ rest := by
  have hmem : f ∈ rest := List.mem_of_getLast? hf
  refine ⟨?_, hmem⟩
  cases rest with
  | nil => exact absurd hmem List.not_mem_nil
  | cons a rest =>
    rw [hframes, List.getLast?_cons_cons]
    exact hf

/-- **The innermost agent gives up**: it keeps its tile, and claims it unless the agent that
waits for it has. -/
theorem giveUp (hholds : HoldsTiles W fields agents)
    (h : Deciding W cls fields agents options s) (hframes : s.frames = frame :: rest)
    (hopen : frame.waiting = false) :
    Deciding W cls fields agents options
      { s with
        claimed := claimTile S (agents frame.agent).position s.claimed
        desired := Function.update s.desired frame.agent (agents frame.agent).position
        state := Function.update s.state frame.agent .decided
        frames := rest
        childSucceeded := false } := by
  obtain ⟨hstate, hrest, hother⟩ := h.head hframes
  obtain ⟨hsorted, hmem⟩ := mem_claimTile (S := S) (c := (agents frame.agent).position) h.sorted
  have hkey : ∀ j, j ≠ frame.agent →
      S.tileKey (agents j).position ≠ S.tileKey (agents frame.agent).position :=
    fun j hj heq => hj (hholds.tileKey_inj _ _ heq)
  have hdesired : Function.update s.desired frame.agent (agents frame.agent).position =
      s.desired := by
    rw [← h.trying frame (by rw [hframes]; exact List.mem_cons_self) hopen,
      Function.update_eq_self]
  rw [hdesired]
  have hcommitted : ∀ j, j ≠ frame.agent →
      (Committed { s with
        claimed := claimTile S (agents frame.agent).position s.claimed
        state := Function.update s.state frame.agent .decided
        frames := rest
        childSucceeded := false } j → Committed s j) := by
    intro j hj hc
    rw [h.committed_iff hframes hopen]
    rcases hc with hc | ⟨f, hf, ha, -⟩
    · exact Or.inl ((Function.update_of_ne hj .decided s.state).symm.trans hc)
    · exact Or.inr ⟨f, hf, ha⟩
  -- an agent that wants the tile is the one that waits for this agent
  have hwanted : ∀ j, Committed s j → s.desired j = (agents frame.agent).position →
      ∃ f ∈ rest.head?, f.agent = j := by
    intro j hj heq
    cases hcases : rest with
    | nil =>
      exfalso
      have hroot := h.root_open hframes hopen (f := frame) (by rw [hframes, hcases]; rfl)
      exact h.ne_of_not_claimed hj hroot heq
    | cons p rest' =>
      refine ⟨p, rfl, ?_⟩
      have hlink := h.link
      rw [hframes, hcases, List.isChain_cons_cons] at hlink
      have hp : Committed s p.agent :=
        (h.committed_iff hframes hopen).2
          (Or.inr ⟨p, by rw [hcases]; exact List.mem_cons_self, rfl⟩)
      exact h.unique_open hframes hopen hp hj (by rw [hlink.1, heq])
  constructor
  case index => exact h.index
  case sorted => exact hsorted
  case nodup =>
    have hnodup := h.nodup
    rw [hframes, List.map_cons, List.nodup_cons] at hnodup
    exact hnodup.2
  case deciding =>
    intro j
    by_cases hj : j = frame.agent
    · subst hj
      simp only [Function.update_self, reduceCtorEq, false_iff, not_exists, not_and]
      exact fun f hf => hother f hf
    · simp only [Function.update_of_ne hj]
      rw [h.deciding j, hframes]
      simp only [List.mem_cons, exists_eq_or_imp, or_iff_right_iff_imp]
      exact fun he => absurd he.symm hj
  case undecided =>
    intro j hj
    have hne : j ≠ frame.agent := by
      rintro rfl
      simp at hj
    simp only [Function.update_of_ne hne] at hj
    obtain ⟨hd, hfree⟩ := h.undecided j hj
    refine ⟨hd, ?_⟩
    rw [hmem, not_or]
    exact ⟨hkey j hne, hfree⟩
  case waiting => exact fun f hf => hrest f (List.mem_of_mem_tail hf)
  case link =>
    have hlink := h.link
    rw [hframes] at hlink
    exact hlink.tail
  case claimed =>
    intro j hj
    rw [hmem]
    by_cases hne : j = frame.agent
    · left
      rw [hne, h.trying frame (by rw [hframes]; exact List.mem_cons_self) hopen]
    · exact Or.inr (h.claimed j (hcommitted j hne hj))
  case trying =>
    intro f hf hw
    rw [hrest f hf] at hw
    cases hw
  case unique =>
    intro j k hj hk heq
    have hself := h.trying frame (by rw [hframes]; exact List.mem_cons_self) hopen
    by_cases hjf : j = frame.agent
    · by_cases hkf : k = frame.agent
      · exact Or.inl (hjf.trans hkf.symm)
      · obtain ⟨f, hf, ha⟩ := hwanted k (hcommitted k hkf hk) (by rw [← heq, hjf, hself])
        exact Or.inr (Or.inr ⟨rfl, f, hf, hrest f (List.mem_of_head? hf), ha⟩)
    · by_cases hkf : k = frame.agent
      · obtain ⟨f, hf, ha⟩ := hwanted j (hcommitted j hjf hj) (by rw [heq, hkf, hself])
        exact Or.inr (Or.inl ⟨rfl, f, hf, hrest f (List.mem_of_head? hf), ha⟩)
      · exact Or.inl (h.unique_open hframes hopen (hcommitted j hjf hj) (hcommitted k hkf hk) heq)
  case root =>
    intro f hf _
    obtain ⟨hlast, hfr⟩ := getLast?_of_rest hframes hf
    rw [hmem, not_or]
    exact ⟨hkey f.agent (hother f hfr), h.root_open hframes hopen hlast⟩
  case moves => exact h.moves
  case swaps => exact h.swaps
  case candidates =>
    exact fun f hf => h.candidates f (by rw [hframes]; exact List.mem_cons_of_mem _ hf)
  case once =>
    refine ⟨h.once.1, fun j hj => ?_⟩
    by_cases hne : j = frame.agent
    · subst hne
      simp
    · simp only [Function.update_of_ne hne]
      exact h.once.2 j hj

/-- The innermost agent goes on to another candidate. -/
theorem retry (h : Deciding W cls fields agents options s) (hframes : s.frames = frame :: rest)
    (hopen : frame.waiting = false) (nextCandidate : ℕ) (stats : JointMoveStats) :
    Deciding W cls fields agents options
      { s with
        frames := { frame with nextCandidate := nextCandidate } :: rest
        stats := stats } := by
  obtain ⟨hstate, hrest, hother⟩ := h.head hframes
  have hcommitted : ∀ j, Committed
      { s with
        frames := { frame with nextCandidate := nextCandidate } :: rest
        stats := stats } j → Committed s j := by
    intro j hc
    rw [h.committed_iff hframes hopen]
    rcases hc with hc | ⟨f, hf, ha, hw⟩
    · exact Or.inl hc
    · rcases List.mem_cons.1 hf with rfl | hf
      · rw [show ({ frame with nextCandidate := nextCandidate } : PibtFrame n).waiting = false from
          hopen] at hw
        cases hw
      · exact Or.inr ⟨f, hf, ha⟩
  constructor
  case index => exact h.index
  case sorted => exact h.sorted
  case nodup =>
    have hnodup := h.nodup
    rwa [hframes] at hnodup
  case deciding =>
    intro j
    rw [h.deciding j, hframes]
    simp only [List.mem_cons, exists_eq_or_imp]
  case undecided => exact h.undecided
  case waiting => exact hrest
  case link =>
    have hlink := h.link
    rw [hframes] at hlink
    cases rest with
    | nil => exact List.isChain_singleton _
    | cons p rest =>
      rw [List.isChain_cons_cons] at hlink ⊢
      exact hlink
  case claimed => exact fun j hj => h.claimed j (hcommitted j hj)
  case trying =>
    intro f hf hw
    rcases List.mem_cons.1 hf with rfl | hf
    · exact h.trying frame (by rw [hframes]; exact List.mem_cons_self) hopen
    · rw [hrest f hf] at hw
      cases hw
  case unique =>
    exact fun j k hj hk heq =>
      Or.inl (h.unique_open hframes hopen (hcommitted j hj) (hcommitted k hk) heq)
  case root =>
    intro f hf _
    cases hcases : rest with
    | nil =>
      rw [hcases, List.getLast?_singleton, Option.mem_def, Option.some.injEq] at hf
      subst hf
      exact h.root_open hframes hopen (f := frame) (by rw [hframes, hcases]; rfl)
    | cons p rest' =>
      rw [hcases, List.getLast?_cons_cons] at hf
      exact h.root_open hframes hopen (by rw [hframes, hcases, List.getLast?_cons_cons]; exact hf)
  case moves => exact h.moves
  case swaps => exact h.swaps
  case candidates =>
    intro f hf
    rcases List.mem_cons.1 hf with rfl | hf
    · exact h.candidates frame (by rw [hframes]; exact List.mem_cons_self)
    · exact h.candidates f (by rw [hframes]; exact List.mem_cons_of_mem _ hf)
  case once => exact h.once

/-- What a claim of the innermost agent's candidate does to the desires. -/
structure ClaimsTile (agents : Fin n → PathAgentState) (W : World S Tag)
    (cls : MovementClass S Tag) (fields : MovementFields Tag) (options : JointMoveOptions)
    (s : PibtScratch n) (i : Fin n) (dest : Coord3) : Prop where
  /-- The tile is the agent's own or a candidate. -/
  candidate : dest = (agents i).position ∨ PibtCandidate W cls fields agents i dest
  /-- Nobody claimed it. -/
  unclaimed : S.tileKey dest ∉ s.claimed
  /-- An exchange is allowed. -/
  allowed : ∀ j, i ≠ j → (agents j).position = dest → s.desired j = (agents i).position →
    swapAllowed agents options i j = true

theorem ClaimsTile.contains {dest : Coord3} (hholds : HoldsTiles W fields agents)
    (h : ClaimsTile agents W cls fields options s i dest) : S.contains dest = true := by
  rcases h.candidate with hc | hc
  · rw [hc]
    exact hholds.contains i
  · exact hc.contains

/-- The moves and exchanges behind a claim. -/
theorem moves_swaps_claim {dest : Coord3} (h : Deciding W cls fields agents options s)
    (hclaim : ClaimsTile agents W cls fields options s i dest) :
    (∀ j, Function.update s.desired i dest j ≠ (agents j).position →
      PibtCandidate W cls fields agents j (Function.update s.desired i dest j)) ∧
    ∀ j k, j ≠ k → Function.update s.desired i dest j = (agents k).position →
      Function.update s.desired i dest k = (agents j).position →
        swapAllowed agents options j k = true := by
  refine ⟨fun j hj => ?_, fun j k hjk hj hk => ?_⟩
  · by_cases hji : j = i
    · subst hji
      rw [Function.update_self] at hj ⊢
      exact hclaim.candidate.resolve_left hj
    · rw [Function.update_of_ne hji] at hj ⊢
      exact h.moves j hj
  · by_cases hji : j = i
    · subst hji
      rw [Function.update_self] at hj
      rw [Function.update_of_ne (Ne.symm hjk)] at hk
      exact hclaim.allowed k hjk hj.symm hk
    · by_cases hki : k = i
      · subst hki
        rw [Function.update_self] at hk
        rw [Function.update_of_ne hji] at hj
        rw [swapAllowed_comm]
        exact hclaim.allowed j (Ne.symm hjk) hk.symm hj
      · rw [Function.update_of_ne hji] at hj
        rw [Function.update_of_ne hki] at hk
        exact h.swaps j k hjk hj hk

/-- **The innermost agent finds a place** that no undecided peer holds. -/
theorem settle {dest : Coord3} {claimed : List ℕ} (hholds : HoldsTiles W fields agents)
    (h : Deciding W cls fields agents options s) (hframes : s.frames = frame :: rest)
    (hopen : frame.waiting = false)
    (hclaim : ClaimsTile agents W cls fields options s frame.agent dest)
    (hsorted : claimed.Pairwise (· < ·))
    (hmem : ∀ key, key ∈ claimed ↔ key = S.tileKey dest ∨ key ∈ s.claimed)
    (hpeer : ∀ j, s.state j = .undecided → (agents j).position ≠ dest) (stats : JointMoveStats) :
    Deciding W cls fields agents options
      { s with
        claimed := claimed
        desired := Function.update s.desired frame.agent dest
        stats := stats
        state := Function.update s.state frame.agent .decided
        frames := rest
        childSucceeded := true } := by
  obtain ⟨hstate, hrest, hother⟩ := h.head hframes
  have hdest := hclaim.contains hholds
  obtain ⟨hmoves, hswaps⟩ := h.moves_swaps_claim hclaim
  have hcommitted : ∀ j, j ≠ frame.agent →
      (Committed { s with
        claimed := claimed
        desired := Function.update s.desired frame.agent dest
        stats := stats
        state := Function.update s.state frame.agent .decided
        frames := rest
        childSucceeded := true } j → Committed s j) := by
    intro j hj hc
    rw [h.committed_iff hframes hopen]
    rcases hc with hc | ⟨f, hf, ha, -⟩
    · exact Or.inl ((Function.update_of_ne hj .decided s.state).symm.trans hc)
    · exact Or.inr ⟨f, hf, ha⟩
  constructor
  case index => exact h.index
  case sorted => exact hsorted
  case nodup =>
    have hnodup := h.nodup
    rw [hframes, List.map_cons, List.nodup_cons] at hnodup
    exact hnodup.2
  case deciding =>
    intro j
    by_cases hj : j = frame.agent
    · subst hj
      simp only [Function.update_self, reduceCtorEq, false_iff, not_exists, not_and]
      exact fun f hf => hother f hf
    · simp only [Function.update_of_ne hj]
      rw [h.deciding j, hframes]
      simp only [List.mem_cons, exists_eq_or_imp, or_iff_right_iff_imp]
      exact fun he => absurd he.symm hj
  case undecided =>
    intro j hj
    have hne : j ≠ frame.agent := by
      rintro rfl
      simp at hj
    simp only [Function.update_of_ne hne] at hj ⊢
    obtain ⟨hd, hfree⟩ := h.undecided j hj
    refine ⟨hd, ?_⟩
    rw [hmem, not_or]
    exact ⟨fun hkey => hpeer j hj (Shape.tileKey_inj (hholds.contains j) hdest hkey), hfree⟩
  case waiting => exact fun f hf => hrest f (List.mem_of_mem_tail hf)
  case link =>
    have hlink := h.link
    rw [hframes] at hlink
    refine hlink.tail.imp_of_mem_imp ?_
    intro child parent _ hp heq
    simp only [Function.update_of_ne (hother parent hp)]
    exact heq
  case claimed =>
    intro j hj
    rw [hmem]
    by_cases hne : j = frame.agent
    · left
      simp only [hne, Function.update_self]
    · simp only [Function.update_of_ne hne]
      exact Or.inr (h.claimed j (hcommitted j hne hj))
  case trying =>
    intro f hf hw
    rw [hrest f hf] at hw
    cases hw
  case unique =>
    intro j k hj hk heq
    left
    by_cases hjf : j = frame.agent
    · by_cases hkf : k = frame.agent
      · exact hjf.trans hkf.symm
      · simp only [hjf, Function.update_self, Function.update_of_ne hkf] at heq
        exact absurd heq.symm (h.ne_of_not_claimed (hcommitted k hkf hk) hclaim.unclaimed)
    · by_cases hkf : k = frame.agent
      · simp only [hkf, Function.update_self, Function.update_of_ne hjf] at heq
        exact absurd heq (h.ne_of_not_claimed (hcommitted j hjf hj) hclaim.unclaimed)
      · simp only [Function.update_of_ne hjf, Function.update_of_ne hkf] at heq
        exact h.unique_open hframes hopen (hcommitted j hjf hj) (hcommitted k hkf hk) heq
  case root =>
    rintro f hf (hs | ⟨top, htop, hw⟩)
    · cases hs
    · rw [hrest top (List.mem_of_head? htop)] at hw
      cases hw
  case moves => exact hmoves
  case swaps => exact hswaps
  case candidates =>
    exact fun f hf => h.candidates f (by rw [hframes]; exact List.mem_cons_of_mem _ hf)
  case once =>
    refine ⟨h.once.1, fun j hj => ?_⟩
    by_cases hne : j = frame.agent
    · subst hne
      simp
    · simp only [Function.update_of_ne hne]
      exact h.once.2 j hj

/-- **The innermost agent hands its turn** to the undecided peer on its candidate. -/
theorem handOver {u : Fin n} {claimed : List ℕ} {candidates : List (Coord3 × ℕ)}
    (hholds : HoldsTiles W fields agents) (h : Deciding W cls fields agents options s)
    (hframes : s.frames = frame :: rest) (hopen : frame.waiting = false)
    (hu : s.state u = .undecided)
    (hclaim : ClaimsTile agents W cls fields options s frame.agent (agents u).position)
    (hsorted : claimed.Pairwise (· < ·))
    (hmem : ∀ key, key ∈ claimed ↔ key = S.tileKey (agents u).position ∨ key ∈ s.claimed)
    (hcandidates : candidates.length ≤ pibtMaxCandidates ∧
      ∀ x ∈ candidates, x.1 = (agents u).position ∨ PibtCandidate W cls fields agents u x.1)
    (stats : JointMoveStats) :
    Deciding W cls fields agents options
      { s with
        claimed := claimed
        desired := Function.update s.desired frame.agent (agents u).position
        stats := stats
        state := Function.update s.state u .deciding
        started := u :: s.started
        frames := { agent := u, candidates := candidates } :: { frame with waiting := true } ::
          rest } := by
  obtain ⟨hstate, hrest, hother⟩ := h.head hframes
  have hune : u ≠ frame.agent := by
    rintro rfl
    rw [hstate] at hu
    cases hu
  have hurest : ∀ f ∈ rest, f.agent ≠ u := by
    rintro f hf rfl
    have hdeciding := (h.deciding f.agent).2 ⟨f, by rw [hframes]; exact List.mem_cons_of_mem _ hf,
      rfl⟩
    rw [hdeciding] at hu
    cases hu
  have hkey : ∀ j, j ≠ u → S.tileKey (agents j).position ≠ S.tileKey (agents u).position :=
    fun j hj heq => hj (hholds.tileKey_inj _ _ heq)
  obtain ⟨hmoves, hswaps⟩ := h.moves_swaps_claim hclaim
  have hcommitted : ∀ j, j ≠ frame.agent →
      (Committed { s with
        claimed := claimed
        desired := Function.update s.desired frame.agent (agents u).position
        stats := stats
        state := Function.update s.state u .deciding
        started := u :: s.started
        frames := { agent := u, candidates := candidates } :: { frame with waiting := true } ::
          rest } j → Committed s j) := by
    intro j hj hc
    rw [h.committed_iff hframes hopen]
    rcases hc with hc | ⟨f, hf, ha, hw⟩
    · left
      by_cases hju : j = u
      · simp [hju] at hc
      · exact (Function.update_of_ne hju .deciding s.state).symm.trans hc
    · rcases List.mem_cons.1 hf with rfl | hf
      · cases hw
      · rcases List.mem_cons.1 hf with rfl | hf
        · exact absurd ha.symm hj
        · exact Or.inr ⟨f, hf, ha⟩
  constructor
  case index => exact h.index
  case sorted => exact hsorted
  case nodup =>
    have hnodup := h.nodup
    rw [hframes] at hnodup
    refine List.nodup_cons.2 ⟨fun hin => ?_, hnodup⟩
    obtain ⟨f, hf, ha⟩ := List.mem_map.1 hin
    rcases List.mem_cons.1 hf with rfl | hf
    · exact hune ha.symm
    · exact hurest f hf ha
  case deciding =>
    intro j
    by_cases hj : j = u
    · subst hj
      simp
    · simp only [Function.update_of_ne hj]
      rw [h.deciding j, hframes]
      simp only [List.mem_cons, exists_eq_or_imp, iff_or_self]
      exact fun he => absurd he.symm hj
  case undecided =>
    intro j hj
    have hju : j ≠ u := by
      rintro rfl
      simp at hj
    simp only [Function.update_of_ne hju] at hj
    have hjf : j ≠ frame.agent := by
      rintro rfl
      rw [hstate] at hj
      cases hj
    obtain ⟨hd, hfree⟩ := h.undecided j hj
    simp only [Function.update_of_ne hjf]
    refine ⟨hd, ?_⟩
    rw [hmem, not_or]
    exact ⟨hkey j hju, hfree⟩
  case waiting =>
    intro f hf
    rcases List.mem_cons.1 hf with rfl | hf
    · rfl
    · exact hrest f hf
  case link =>
    have hlink := h.link
    rw [hframes] at hlink
    rw [List.isChain_cons_cons]
    refine ⟨Function.update_self .., ?_⟩
    cases rest with
    | nil => exact List.isChain_singleton _
    | cons p rest =>
      rw [List.isChain_cons_cons] at hlink ⊢
      refine ⟨?_, hlink.2.imp_of_mem_imp fun child parent _ hp heq => ?_⟩
      · simp only [Function.update_of_ne (hother p List.mem_cons_self)]
        exact hlink.1
      · simp only [Function.update_of_ne (hother parent hp)]
        exact heq
  case claimed =>
    intro j hj
    rw [hmem]
    by_cases hne : j = frame.agent
    · left
      simp only [hne, Function.update_self]
    · simp only [Function.update_of_ne hne]
      exact Or.inr (h.claimed j (hcommitted j hne hj))
  case trying =>
    intro f hf hw
    rcases List.mem_cons.1 hf with rfl | hf
    · simp only [Function.update_of_ne hune]
      exact (h.undecided u hu).1
    · rcases List.mem_cons.1 hf with rfl | hf
      · cases hw
      · rw [hrest f hf] at hw
        cases hw
  case unique =>
    intro j k hj hk heq
    left
    by_cases hjf : j = frame.agent
    · by_cases hkf : k = frame.agent
      · exact hjf.trans hkf.symm
      · simp only [hjf, Function.update_self, Function.update_of_ne hkf] at heq
        exact absurd heq.symm (h.ne_of_not_claimed (hcommitted k hkf hk) hclaim.unclaimed)
    · by_cases hkf : k = frame.agent
      · simp only [hkf, Function.update_self, Function.update_of_ne hjf] at heq
        exact absurd heq (h.ne_of_not_claimed (hcommitted j hjf hj) hclaim.unclaimed)
      · simp only [Function.update_of_ne hjf, Function.update_of_ne hkf] at heq
        exact h.unique_open hframes hopen (hcommitted j hjf hj) (hcommitted k hkf hk) heq
  case root =>
    intro f hf _
    rw [List.getLast?_cons_cons] at hf
    rw [hmem, not_or]
    cases hcases : rest with
    | nil =>
      rw [hcases, List.getLast?_singleton, Option.mem_def, Option.some.injEq] at hf
      subst hf
      exact ⟨hkey frame.agent (Ne.symm hune),
        h.root_open hframes hopen (f := frame) (by rw [hframes, hcases]; rfl)⟩
    | cons p rest' =>
      rw [hcases, List.getLast?_cons_cons, ← hcases] at hf
      obtain ⟨hlast, hfr⟩ := getLast?_of_rest hframes hf
      exact ⟨hkey f.agent (hurest f hfr), h.root_open hframes hopen hlast⟩
  case moves => exact hmoves
  case swaps => exact hswaps
  case candidates =>
    intro f hf
    rcases List.mem_cons.1 hf with rfl | hf
    · exact hcandidates
    · rcases List.mem_cons.1 hf with rfl | hf
      · exact h.candidates frame (by rw [hframes]; exact List.mem_cons_self)
      · exact h.candidates f (by rw [hframes]; exact List.mem_cons_of_mem _ hf)
  case once =>
    refine ⟨List.nodup_cons.2 ⟨fun hin => h.once.2 u hin hu, h.once.1⟩, fun j hj => ?_⟩
    by_cases hju : j = u
    · subst hju
      simp
    · simp only [Function.update_of_ne hju]
      exact h.once.2 j ((List.mem_cons.1 hj).resolve_left hju)

/-- **The peer on the candidate can go nowhere**: it keeps its tile, and the innermost agent has
to undo its desire. -/
theorem handOver_keep {u : Fin n} {claimed claimed' : List ℕ} {failure : Fin n → MovementStatus}
    (hholds : HoldsTiles W fields agents) (h : Deciding W cls fields agents options s)
    (hframes : s.frames = frame :: rest) (hopen : frame.waiting = false)
    (hu : s.state u = .undecided)
    (hclaim : ClaimsTile agents W cls fields options s frame.agent (agents u).position)
    (hmem : ∀ key, key ∈ claimed ↔ key = S.tileKey (agents u).position ∨ key ∈ s.claimed)
    (hsorted' : claimed'.Pairwise (· < ·))
    (hmem' : ∀ key, key ∈ claimed' ↔ key = S.tileKey (agents u).position ∨ key ∈ claimed)
    (stats : JointMoveStats) :
    Deciding W cls fields agents options
      { s with
        claimed := claimed'
        desired := Function.update s.desired frame.agent (agents u).position
        stats := stats
        failure := failure
        state := Function.update s.state u .decided
        started := u :: s.started
        frames := { frame with waiting := true } :: rest
        childSucceeded := false } := by
  obtain ⟨hstate, hrest, hother⟩ := h.head hframes
  have hune : u ≠ frame.agent := by
    rintro rfl
    rw [hstate] at hu
    cases hu
  have hurest : ∀ f ∈ rest, f.agent ≠ u := by
    rintro f hf rfl
    have hdeciding := (h.deciding f.agent).2 ⟨f, by rw [hframes]; exact List.mem_cons_of_mem _ hf,
      rfl⟩
    rw [hdeciding] at hu
    cases hu
  have hkey : ∀ j, j ≠ u → S.tileKey (agents j).position ≠ S.tileKey (agents u).position :=
    fun j hj heq => hj (hholds.tileKey_inj _ _ heq)
  have hmemAll : ∀ key, key ∈ claimed' ↔ key = S.tileKey (agents u).position ∨ key ∈ s.claimed := by
    intro key
    rw [hmem', hmem]
    tauto
  obtain ⟨hmoves, hswaps⟩ := h.moves_swaps_claim hclaim
  have hcommitted : ∀ j, j ≠ frame.agent → j ≠ u →
      (Committed { s with
        claimed := claimed'
        desired := Function.update s.desired frame.agent (agents u).position
        stats := stats
        failure := failure
        state := Function.update s.state u .decided
        started := u :: s.started
        frames := { frame with waiting := true } :: rest
        childSucceeded := false } j → Committed s j) := by
    intro j hj hju hc
    rw [h.committed_iff hframes hopen]
    rcases hc with hc | ⟨f, hf, ha, hw⟩
    · exact Or.inl ((Function.update_of_ne hju .decided s.state).symm.trans hc)
    · rcases List.mem_cons.1 hf with rfl | hf
      · exact absurd ha.symm hj
      · exact Or.inr ⟨f, hf, ha⟩
  constructor
  case index => exact h.index
  case sorted => exact hsorted'
  case nodup =>
    have hnodup := h.nodup
    rwa [hframes] at hnodup
  case deciding =>
    intro j
    by_cases hj : j = u
    · subst hj
      simp only [Function.update_self, reduceCtorEq, List.mem_cons, exists_eq_or_imp, false_iff,
        not_or, not_exists, not_and]
      exact ⟨Ne.symm hune, fun f hf => hurest f hf⟩
    · simp only [Function.update_of_ne hj]
      rw [h.deciding j, hframes]
      simp only [List.mem_cons, exists_eq_or_imp]
  case undecided =>
    intro j hj
    have hju : j ≠ u := by
      rintro rfl
      simp at hj
    simp only [Function.update_of_ne hju] at hj
    have hjf : j ≠ frame.agent := by
      rintro rfl
      rw [hstate] at hj
      cases hj
    obtain ⟨hd, hfree⟩ := h.undecided j hj
    simp only [Function.update_of_ne hjf]
    refine ⟨hd, ?_⟩
    rw [hmemAll, not_or]
    exact ⟨hkey j hju, hfree⟩
  case waiting => exact hrest
  case link =>
    have hlink := h.link
    rw [hframes] at hlink
    cases rest with
    | nil => exact List.isChain_singleton _
    | cons p rest =>
      rw [List.isChain_cons_cons] at hlink ⊢
      refine ⟨?_, hlink.2.imp_of_mem_imp fun child parent _ hp heq => ?_⟩
      · simp only [Function.update_of_ne (hother p List.mem_cons_self)]
        exact hlink.1
      · simp only [Function.update_of_ne (hother parent hp)]
        exact heq
  case claimed =>
    intro j hj
    rw [hmemAll]
    by_cases hne : j = frame.agent
    · left
      simp only [hne, Function.update_self]
    · simp only [Function.update_of_ne hne]
      by_cases hju : j = u
      · left
        rw [hju, (h.undecided u hu).1]
      · exact Or.inr (h.claimed j (hcommitted j hne hju hj))
  case trying =>
    intro f hf hw
    rcases List.mem_cons.1 hf with rfl | hf
    · cases hw
    · rw [hrest f hf] at hw
      cases hw
  case unique =>
    intro j k hj hk heq
    by_cases hjf : j = frame.agent
    · exact Or.inr (Or.inl ⟨rfl, _, rfl, rfl, hjf.symm⟩)
    by_cases hkf : k = frame.agent
    · exact Or.inr (Or.inr ⟨rfl, _, rfl, rfl, hkf.symm⟩)
    left
    simp only [Function.update_of_ne hjf, Function.update_of_ne hkf] at heq
    by_cases hju : j = u
    · by_cases hku : k = u
      · exact hju.trans hku.symm
      · rw [hju, (h.undecided u hu).1] at heq
        exact absurd heq.symm (h.ne_of_not_claimed (hcommitted k hkf hku hk) hclaim.unclaimed)
    · by_cases hku : k = u
      · rw [hku, (h.undecided u hu).1] at heq
        exact absurd heq (h.ne_of_not_claimed (hcommitted j hjf hju hj) hclaim.unclaimed)
      · exact h.unique_open hframes hopen (hcommitted j hjf hju hj) (hcommitted k hkf hku hk) heq
  case root =>
    intro f hf _
    rw [hmemAll, not_or]
    cases hcases : rest with
    | nil =>
      rw [hcases, List.getLast?_singleton, Option.mem_def, Option.some.injEq] at hf
      subst hf
      exact ⟨hkey frame.agent (Ne.symm hune),
        h.root_open hframes hopen (f := frame) (by rw [hframes, hcases]; rfl)⟩
    | cons p rest' =>
      rw [hcases, List.getLast?_cons_cons, ← hcases] at hf
      obtain ⟨hlast, hfr⟩ := getLast?_of_rest hframes hf
      exact ⟨hkey f.agent (hurest f hfr), h.root_open hframes hopen hlast⟩
  case moves => exact hmoves
  case swaps => exact hswaps
  case candidates =>
    intro f hf
    rcases List.mem_cons.1 hf with rfl | hf
    · exact h.candidates frame (by rw [hframes]; exact List.mem_cons_self)
    · exact h.candidates f (by rw [hframes]; exact List.mem_cons_of_mem _ hf)
  case once =>
    refine ⟨List.nodup_cons.2 ⟨fun hin => h.once.2 u hin hu, h.once.1⟩, fun j hj => ?_⟩
    by_cases hju : j = u
    · subst hju
      simp
    · simp only [Function.update_of_ne hju]
      exact h.once.2 j ((List.mem_cons.1 hj).resolve_left hju)

/-- **The peer found a place**, and so has the agent that waits for it. -/
theorem succeed (h : Deciding W cls fields agents options s)
    (hframes : s.frames = frame :: rest) (hwait : frame.waiting = true)
    (hchild : s.childSucceeded = true) :
    Deciding W cls fields agents options
      { s with
        state := Function.update s.state frame.agent .decided
        frames := rest
        childSucceeded := true } := by
  obtain ⟨hstate, hrest, hother⟩ := h.head hframes
  have hcommitted : ∀ j, Committed { s with
      state := Function.update s.state frame.agent .decided
      frames := rest
      childSucceeded := true } j → Committed s j := by
    rintro j (hc | ⟨f, hf, ha⟩)
    · by_cases hj : j = frame.agent
      · exact Or.inr ⟨frame, by rw [hframes]; exact List.mem_cons_self, hj.symm, hwait⟩
      · exact Or.inl ((Function.update_of_ne hj .decided s.state).symm.trans hc)
    · exact Or.inr ⟨f, by rw [hframes]; exact List.mem_cons_of_mem _ hf, ha⟩
  constructor
  case index => exact h.index
  case sorted => exact h.sorted
  case nodup =>
    have hnodup := h.nodup
    rw [hframes, List.map_cons, List.nodup_cons] at hnodup
    exact hnodup.2
  case deciding =>
    intro j
    by_cases hj : j = frame.agent
    · subst hj
      simp only [Function.update_self, reduceCtorEq, false_iff, not_exists, not_and]
      exact fun f hf => hother f hf
    · simp only [Function.update_of_ne hj]
      rw [h.deciding j, hframes]
      simp only [List.mem_cons, exists_eq_or_imp, or_iff_right_iff_imp]
      exact fun he => absurd he.symm hj
  case undecided =>
    intro j hj
    have hne : j ≠ frame.agent := by
      rintro rfl
      simp at hj
    simp only [Function.update_of_ne hne] at hj
    exact h.undecided j hj
  case waiting => exact fun f hf => hrest f (List.mem_of_mem_tail hf)
  case link =>
    have hlink := h.link
    rw [hframes] at hlink
    exact hlink.tail
  case claimed => exact fun j hj => h.claimed j (hcommitted j hj)
  case trying =>
    intro f hf hw
    rw [hrest f hf] at hw
    cases hw
  case unique =>
    intro j k hj hk heq
    rcases h.unique j k (hcommitted j hj) (hcommitted k hk) heq with he | ⟨hf, -⟩ | ⟨hf, -⟩
    · exact Or.inl he
    · rw [hchild] at hf
      cases hf
    · rw [hchild] at hf
      cases hf
  case root =>
    rintro f hf (hs | ⟨top, htop, hw⟩)
    · cases hs
    · rw [hrest top (List.mem_of_head? htop)] at hw
      cases hw
  case moves => exact h.moves
  case swaps => exact h.swaps
  case candidates =>
    exact fun f hf => h.candidates f (by rw [hframes]; exact List.mem_cons_of_mem _ hf)
  case once =>
    refine ⟨h.once.1, fun j hj => ?_⟩
    by_cases hne : j = frame.agent
    · subst hne
      simp
    · simp only [Function.update_of_ne hne]
      exact h.once.2 j hj

/-- **The peer failed**: the agent that waited for it undoes its desire and goes on. -/
theorem resume (hholds : HoldsTiles W fields agents)
    (h : Deciding W cls fields agents options s) (hframes : s.frames = frame :: rest)
    (_hwait : frame.waiting = true) (hchild : s.childSucceeded = false) (nextCandidate : ℕ) :
    Deciding W cls fields agents options
      { s with
        desired := Function.update s.desired frame.agent (agents frame.agent).position
        frames := { frame with waiting := false, nextCandidate := nextCandidate } :: rest } := by
  obtain ⟨hstate, hrest, hother⟩ := h.head hframes
  have hcommitted : ∀ j, Committed { s with
      desired := Function.update s.desired frame.agent (agents frame.agent).position
      frames := { frame with waiting := false, nextCandidate := nextCandidate } :: rest } j →
      j ≠ frame.agent ∧ Committed s j := by
    rintro j (hc | ⟨f, hf, ha, hw⟩)
    · refine ⟨?_, Or.inl hc⟩
      rintro rfl
      rw [hstate] at hc
      cases hc
    · rcases List.mem_cons.1 hf with rfl | hf
      · cases hw
      · exact ⟨ha ▸ hother f hf, Or.inr ⟨f, by rw [hframes]; exact List.mem_cons_of_mem _ hf, ha,
          hw⟩⟩
  constructor
  case index => exact h.index
  case sorted => exact h.sorted
  case nodup =>
    have hnodup := h.nodup
    rwa [hframes] at hnodup
  case deciding =>
    intro j
    rw [h.deciding j, hframes]
    simp only [List.mem_cons, exists_eq_or_imp]
  case undecided =>
    intro j hj
    have hne : j ≠ frame.agent := by
      rintro rfl
      rw [show s.state frame.agent = .undecided from hj] at hstate
      cases hstate
    simp only [Function.update_of_ne hne]
    exact h.undecided j hj
  case waiting => exact hrest
  case link =>
    have hlink := h.link
    rw [hframes] at hlink
    cases rest with
    | nil => exact List.isChain_singleton _
    | cons p rest =>
      rw [List.isChain_cons_cons] at hlink ⊢
      refine ⟨?_, hlink.2.imp_of_mem_imp fun child parent _ hp heq => ?_⟩
      · simp only [Function.update_of_ne (hother p List.mem_cons_self)]
        exact hlink.1
      · simp only [Function.update_of_ne (hother parent hp)]
        exact heq
  case claimed =>
    intro j hj
    obtain ⟨hne, hc⟩ := hcommitted j hj
    simp only [Function.update_of_ne hne]
    exact h.claimed j hc
  case trying =>
    intro f hf hw
    rcases List.mem_cons.1 hf with rfl | hf
    · exact Function.update_self ..
    · rw [hrest f hf] at hw
      cases hw
  case unique =>
    intro j k hj hk heq
    left
    obtain ⟨hjf, hj⟩ := hcommitted j hj
    obtain ⟨hkf, hk⟩ := hcommitted k hk
    simp only [Function.update_of_ne hjf, Function.update_of_ne hkf] at heq
    have hno : ∀ m, m ≠ frame.agent → ¬ PeerFailed s m := by
      rintro m hm ⟨-, f, hf, -, ha⟩
      rw [hframes, List.head?_cons, Option.mem_def, Option.some.injEq] at hf
      exact hm (by rw [← ha, hf])
    rcases h.unique j k hj hk heq with he | hf | hf
    · exact he
    · exact absurd hf (hno j hjf)
    · exact absurd hf (hno k hkf)
  case root =>
    intro f hf _
    cases hcases : rest with
    | nil =>
      rw [hcases, List.getLast?_singleton, Option.mem_def, Option.some.injEq] at hf
      subst hf
      exact h.root frame (by rw [hframes, hcases]; rfl) (Or.inl hchild)
    | cons p rest' =>
      rw [hcases, List.getLast?_cons_cons] at hf
      exact h.root f (by rw [hframes, hcases, List.getLast?_cons_cons]; exact hf) (Or.inl hchild)
  case moves =>
    intro j hj
    by_cases hne : j = frame.agent
    · subst hne
      simp at hj
    · simp only [Function.update_of_ne hne] at hj ⊢
      exact h.moves j hj
  case swaps =>
    intro j k hjk hj hk
    by_cases hjf : j = frame.agent
    · subst hjf
      simp only [Function.update_self] at hj
      exact absurd (hholds.inj _ _ hj) hjk
    · by_cases hkf : k = frame.agent
      · subst hkf
        simp only [Function.update_self] at hk
        exact absurd (hholds.inj _ _ hk) (Ne.symm hjk)
      · simp only [Function.update_of_ne hjf] at hj
        simp only [Function.update_of_ne hkf] at hk
        exact h.swaps j k hjk hj hk
  case candidates =>
    intro f hf
    rcases List.mem_cons.1 hf with rfl | hf
    · exact h.candidates frame (by rw [hframes]; exact List.mem_cons_self)
    · exact h.candidates f (by rw [hframes]; exact List.mem_cons_of_mem _ hf)
  case once => exact h.once

/-- The peer on a tile that the innermost agent tries. -/
theorem peerOn_eq_some (hholds : HoldsTiles W fields agents)
    (h : Deciding W cls fields agents options s) {dest : Coord3}
    (hdest : S.contains dest = true) :
    peerOn S agents s i dest = some j ↔ (agents j).position = dest ∧ j ≠ i := by
  have hkey : S.tileKey (agents j).position = S.tileKey dest ↔ (agents j).position = dest :=
    ⟨fun hk => Shape.tileKey_inj (hholds.contains j) hdest hk, fun hk => by rw [hk]⟩
  by_cases hown : dest = (agents i).position
  · rw [peerOn, if_pos hown]
    refine ⟨fun hnone => (by cases hnone), fun ⟨hj, hji⟩ => ?_⟩
    exact absurd (hholds.inj j i (hj.trans hown)) hji
  · rw [peerOn, if_neg hown, h.index, findOccupant_eq_some hholds.tileKey_inj, hkey]
    refine ⟨fun hj => ⟨hj, ?_⟩, And.left⟩
    rintro rfl
    exact hown hj.symm

/-- A claim of the innermost agent is what the invariant asks of one. -/
theorem claimsTile (hholds : HoldsTiles W fields agents)
    (h : Deciding W cls fields agents options s) (hframes : s.frames = frame :: rest)
    {dest : Coord3} {claimed : List ℕ} {stats : JointMoveStats}
    (hmade : ClaimMade S agents options s frame dest claimed stats) :
    ClaimsTile agents W cls fields options s frame.agent dest ∧ claimed.Pairwise (· < ·) ∧
      ∀ key, key ∈ claimed ↔ key = S.tileKey dest ∨ key ∈ s.claimed := by
  obtain ⟨r, hnext⟩ := hmade.next
  have hmem : (dest, r) ∈ frame.candidates := List.mem_of_getElem? hnext
  have hcandidate := (h.candidates frame (by rw [hframes]; exact List.mem_cons_self)).2 _ hmem
  have hclaim := jointClaim_spec (S.tileKey dest) h.sorted
  rw [hmade.claimed] at hclaim
  obtain ⟨hfree, hsorted, hclaimed⟩ := hclaim
  have hdest : S.contains dest = true := by
    rcases hcandidate with hown | hcand
    · exact (show dest = _ from hown) ▸ hholds.contains frame.agent
    · exact hcand.contains
  refine ⟨⟨hcandidate, hfree, fun j hj hpos hdesired => ?_⟩, hsorted, hclaimed⟩
  exact hmade.allowed j ((h.peerOn_eq_some hholds hdest).2 ⟨hpos, Ne.symm hj⟩) hdesired

/-- **Every attempt keeps the invariant.** -/
theorem tried {t : PibtScratch n} (hholds : HoldsTiles W fields agents)
    (h : Deciding W cls fields agents options s) (hframes : s.frames = frame :: rest)
    (hopen : frame.waiting = false)
    (htried : Tried W cls fields agents options rank s frame rest t) :
    Deciding W cls fields agents options t := by
  cases htried with
  | exhausted hnone => exact h.giveUp hholds hframes hopen
  | skipped hnext stats hstats => exact h.retry hframes hopen _ stats
  | settled hmade hpeer =>
    obtain ⟨hclaim, hsorted, hmem⟩ := h.claimsTile hholds hframes hmade
    refine h.settle hholds hframes hopen hclaim hsorted hmem (fun j hj hpos => ?_) _
    have hji : j ≠ frame.agent := by
      rintro rfl
      rw [(h.head hframes).1] at hj
      cases hj
    exact hpeer j ((h.peerOn_eq_some hholds (hclaim.contains hholds)).2 ⟨hpos, hji⟩) hj
  | handed hmade hpeer hundecided hpushed =>
    obtain ⟨hclaim, hsorted, hmem⟩ := h.claimsTile hholds hframes hmade
    obtain ⟨rfl, -⟩ := (h.peerOn_eq_some hholds (hclaim.contains hholds)).1 hpeer
    obtain ⟨hgoal, hpass, heq⟩ := startDeciding_pushed hpushed
    rw [heq]
    exact h.handOver hholds hframes hopen hundecided hclaim hsorted hmem
      (rankedCandidates_spec hholds h.index hgoal hpass) _
  | refused hmade hpeer hundecided hpushed =>
    obtain ⟨hclaim, hsorted, hmem⟩ := h.claimsTile hholds hframes hmade
    obtain ⟨rfl, -⟩ := (h.peerOn_eq_some hholds (hclaim.contains hholds)).1 hpeer
    obtain ⟨status, heq⟩ := startDeciding_kept hpushed
    obtain ⟨hsorted', hmem'⟩ := mem_claimTile (S := S) (c := (agents _).position) hsorted
    rw [heq]
    exact h.handOver_keep hholds hframes hopen hundecided hclaim hmem hsorted' hmem' _

/-- **Every iteration keeps the invariant.** -/
theorem pibtStep (hholds : HoldsTiles W fields agents)
    (h : Deciding W cls fields agents options s) :
    Deciding W cls fields agents options (Tess.pibtStep W cls fields agents options rank s) := by
  by_cases hnil : s.frames = []
  · rw [Tess.pibtStep, hnil]
    exact h
  obtain ⟨frame, rest, hframes⟩ := List.exists_cons_of_ne_nil hnil
  cases hwait : frame.waiting with
  | false =>
    have hstep : Tess.pibtStep W cls fields agents options rank s =
        tryCandidate W cls fields agents options rank s frame rest := by
      simp only [Tess.pibtStep, hframes, hwait, Bool.false_eq_true, if_false]
    rw [hstep]
    exact h.tried hholds hframes hwait tried_tryCandidate
  | true =>
    cases hchild : s.childSucceeded with
    | true =>
      have hstep : Tess.pibtStep W cls fields agents options rank s =
          { s with
            state := Function.update s.state frame.agent .decided
            frames := rest
            childSucceeded := true } := by
        simp only [Tess.pibtStep, hframes, hwait, hchild, if_true]
      rw [hstep]
      exact h.succeed hframes hwait hchild
    | false =>
      have hstep : Tess.pibtStep W cls fields agents options rank s =
          tryCandidate W cls fields agents options rank
            { s with
              desired := Function.update s.desired frame.agent (agents frame.agent).position
              frames :=
                { frame with waiting := false, nextCandidate := frame.nextCandidate + 1 } :: rest }
            { frame with waiting := false, nextCandidate := frame.nextCandidate + 1 } rest := by
        simp only [Tess.pibtStep, hframes, hwait, hchild, Bool.false_eq_true, if_true, if_false]
        exact (tryCandidate_frames _).symm
      rw [hstep]
      exact (h.resume hholds hframes hwait hchild _).tried hholds rfl rfl tried_tryCandidate

/-- **The loop keeps the invariant.** -/
theorem decisionLoop {fuel : ℕ} {t : PibtScratch n} (hholds : HoldsTiles W fields agents)
    (h : Deciding W cls fields agents options s)
    (ht : Tess.decisionLoop W cls fields agents options rank fuel s = some t) :
    Deciding W cls fields agents options t := by
  induction fuel generalizing s with
  | zero =>
    unfold Tess.decisionLoop at ht
    cases hframes : s.frames with
    | nil =>
      simp only [hframes, Option.some.injEq] at ht
      exact ht ▸ h
    | cons frame rest => simp [hframes] at ht
  | succ fuel ih =>
    unfold Tess.decisionLoop at ht
    cases hframes : s.frames with
    | nil =>
      simp only [hframes, Option.some.injEq] at ht
      exact ht ▸ h
    | cons frame rest =>
      simp only [hframes] at ht
      exact ih (h.pibtStep hholds) ht

/-- **An agent begins to decide** when nobody else does. -/
theorem enter (h : Deciding W cls fields agents options s) (hframes : s.frames = [])
    (hi : s.state i = .undecided) (candidates : List (Coord3 × ℕ))
    (hcandidates : candidates.length ≤ pibtMaxCandidates ∧
      ∀ x ∈ candidates, x.1 = (agents i).position ∨ PibtCandidate W cls fields agents i x.1) :
    Deciding W cls fields agents options
      { s with
        state := Function.update s.state i .deciding
        started := i :: s.started
        frames := [{ agent := i, candidates := candidates }]
        childSucceeded := false } := by
  obtain ⟨hdesired, hfree⟩ := h.undecided i hi
  have hcommitted : ∀ j, Committed
      { s with
        state := Function.update s.state i .deciding
        started := i :: s.started
        frames := [{ agent := i, candidates := candidates }]
        childSucceeded := false } j → j ≠ i ∧ Committed s j := by
    rintro j (hj | ⟨f, hf, -, hw⟩)
    · have hne : j ≠ i := by
        rintro rfl
        simp at hj
      exact ⟨hne, Or.inl (by rwa [← Function.update_of_ne hne .deciding s.state])⟩
    · rw [List.mem_singleton.1 hf] at hw
      cases hw
  constructor
  case index => exact h.index
  case sorted => exact h.sorted
  case nodup => simp
  case deciding =>
    intro j
    have hnone : s.state j ≠ .deciding := fun hj => by
      obtain ⟨f, hf, -⟩ := (h.deciding j).1 hj
      rw [hframes] at hf
      cases hf
    by_cases hji : j = i
    · subst hji
      simp
    · simp only [Function.update_of_ne hji, List.mem_singleton, exists_eq_left]
      exact ⟨fun hj => absurd hj hnone, fun hij => absurd hij.symm hji⟩
  case undecided =>
    intro j hj
    have hne : j ≠ i := by
      rintro rfl
      simp at hj
    exact h.undecided j (by rwa [← Function.update_of_ne hne .deciding s.state])
  case waiting => exact fun f hf => by cases hf
  case link => exact List.isChain_singleton _
  case claimed => exact fun j hj => h.claimed j (hcommitted j hj).2
  case trying =>
    intro f hf _
    rw [List.mem_singleton.1 hf]
    exact hdesired
  case unique =>
    intro j k hj hk heq
    left
    have hno : ∀ m, ¬ PeerFailed s m := by
      rintro m ⟨-, f, hf, -⟩
      rw [hframes] at hf
      cases hf
    rcases h.unique j k (hcommitted j hj).2 (hcommitted k hk).2 heq with he | hf | hf
    · exact he
    · exact absurd hf (hno j)
    · exact absurd hf (hno k)
  case root =>
    intro f hf _
    rw [List.getLast?_singleton, Option.mem_def, Option.some.injEq] at hf
    rw [← hf]
    exact hfree
  case moves => exact h.moves
  case swaps => exact h.swaps
  case candidates =>
    intro f hf
    rw [List.mem_singleton.1 hf]
    exact hcandidates
  case once =>
    refine ⟨List.nodup_cons.2 ⟨fun hmem => h.once.2 i hmem hi, h.once.1⟩, fun j hj => ?_⟩
    by_cases hji : j = i
    · subst hji
      simp
    · simp only [Function.update_of_ne hji]
      exact h.once.2 j ((List.mem_cons.1 hj).resolve_left hji)

/-- Between two decisions the last outcome is not read, and failures never are. -/
theorem idle (h : Deciding W cls fields agents options s) (hframes : s.frames = [])
    (failure : Fin n → MovementStatus) (childSucceeded : Bool) :
    Deciding W cls fields agents options
      { s with failure := failure, childSucceeded := childSucceeded } := by
  have hno : ∀ m, ¬ PeerFailed s m := by
    rintro m ⟨-, f, hf, -⟩
    rw [hframes] at hf
    cases hf
  exact
    { index := h.index
      sorted := h.sorted
      nodup := h.nodup
      deciding := h.deciding
      undecided := h.undecided
      waiting := h.waiting
      link := h.link
      claimed := h.claimed
      trying := h.trying
      unique := fun i j hi hj heq => by
        rcases h.unique i j hi hj heq with he | hf | hf
        · exact Or.inl he
        · exact absurd hf (hno i)
        · exact absurd hf (hno j)
      root := fun f hf => by
        have hf : f ∈ s.frames.getLast? := hf
        rw [hframes] at hf
        cases hf
      moves := h.moves
      swaps := h.swaps
      candidates := h.candidates
      once := h.once }

/-- **An agent that fails at once** when nobody else decides keeps its tile and claims it. -/
theorem keep (hholds : HoldsTiles W fields agents)
    (h : Deciding W cls fields agents options s) (hframes : s.frames = [])
    (hi : s.state i = .undecided) (failure : Fin n → MovementStatus) :
    Deciding W cls fields agents options
      { s with
        claimed := claimTile S (agents i).position s.claimed
        failure := failure
        state := Function.update s.state i .decided
        started := i :: s.started } := by
  have hgave := (h.enter hframes hi [] ⟨by simp, by simp⟩).giveUp hholds rfl rfl
  have hidle := hgave.idle rfl failure s.childSucceeded
  have hown : Function.update s.desired i (agents i).position = s.desired := by
    rw [← (h.undecided i hi).1, Function.update_eq_self]
  simp only [Function.update_idem, hown] at hidle
  rwa [← hframes] at hidle

end Deciding

end Loop

/-! ### The loop ends -/

section Budget

variable {S : Shape} {Tag : Type*} {n : ℕ} {W : World S Tag} {cls : MovementClass S Tag}
  {fields : MovementFields Tag} {agents : Fin n → PathAgentState} {options : JointMoveOptions}
  {rank : Fin n → Coord3 → ℕ} {s : PibtScratch n} {i : Fin n} {frame : PibtFrame n}
  {rest : List (PibtFrame n)}

/-- Number of agents that have not begun to decide. -/
def undecidedCount (state : Fin n → PibtState) : ℕ :=
  (Finset.univ.filter fun i => state i = .undecided).card

/-- Iterations that a frame can still take: two for each candidate, one more to begin. -/
def PibtFrame.budget (frame : PibtFrame n) : ℕ :=
  2 * (frame.candidates.length - frame.nextCandidate) + if frame.waiting then 1 else 2

/-- Iterations that the decision loop can still take. -/
def loopBudget (s : PibtScratch n) : ℕ :=
  (2 * pibtMaxCandidates + 3) * undecidedCount s.state + (s.frames.map (·.budget)).sum

theorem undecidedCount_le (state : Fin n → PibtState) : undecidedCount state ≤ n :=
  (Finset.card_le_univ _).trans (Fintype.card_fin n).le

/-- No agent returns to the undecided ones. -/
theorem filter_undecided_update_subset {state : Fin n → PibtState} {new : PibtState}
    (hnew : new ≠ .undecided) :
    (Finset.univ.filter fun j => Function.update state i new j = .undecided) ⊆
      Finset.univ.filter fun j => state j = .undecided := by
  intro j hj
  rw [Finset.mem_filter] at hj ⊢
  refine ⟨Finset.mem_univ j, ?_⟩
  by_cases hji : j = i
  · rw [hji, Function.update_self] at hj
    exact absurd hj.2 hnew
  · rw [Function.update_of_ne hji] at hj
    exact hj.2

theorem undecidedCount_update_le {state : Fin n → PibtState} {new : PibtState}
    (hnew : new ≠ .undecided) :
    undecidedCount (Function.update state i new) ≤ undecidedCount state :=
  Finset.card_le_card (filter_undecided_update_subset hnew)

theorem undecidedCount_update_lt {state : Fin n → PibtState} {new : PibtState}
    (hnew : new ≠ .undecided) (hi : state i = .undecided) :
    undecidedCount (Function.update state i new) < undecidedCount state := by
  refine Finset.card_lt_card ((Finset.ssubset_iff_of_subset
    (filter_undecided_update_subset hnew)).2 ⟨i, ?_, fun h => ?_⟩)
  · exact Finset.mem_filter.2 ⟨Finset.mem_univ i, hi⟩
  · have := (Finset.mem_filter.1 h).2
    rw [Function.update_self] at this
    exact hnew this

variable (W cls fields agents rank) in
/-- **An agent that begins to decide spends its share.** -/
theorem loopBudget_startDeciding (hi : s.state i = .undecided) :
    loopBudget (startDeciding W cls fields agents rank s i).1 < loopBudget s := by
  have hdeciding : undecidedCount (Function.update s.state i .deciding) <
      undecidedCount s.state := undecidedCount_update_lt (by decide) hi
  have hdecided : undecidedCount (Function.update (Function.update s.state i .deciding) i
      .decided) ≤ undecidedCount (Function.update s.state i .deciding) :=
    undecidedCount_update_le (by decide)
  rw [startDeciding]
  split_ifs
  · simp only [loopBudget, pibtMaxCandidates]
    omega
  · simp only [loopBudget, pibtMaxCandidates]
    omega
  · have hlen := length_rankedCandidates_le W cls fields agents rank
      { s with
        state := Function.update s.state i .deciding
        started := i :: s.started } i
    simp only [loopBudget, PibtFrame.budget, pibtMaxCandidates, List.map_cons, List.sum_cons,
      Bool.false_eq_true, if_false] at hlen ⊢
    omega

/-- An agent that fails at once leaves the frames alone. -/
theorem frames_startDeciding (h : (startDeciding W cls fields agents rank s i).2 = false) :
    (startDeciding W cls fields agents rank s i).1.frames = s.frames := by
  rw [startDeciding] at h ⊢
  split_ifs at h ⊢
  · rfl
  · rfl

/-- The budget behind an attempt at the next candidate of the innermost frame. -/
theorem Tried.loopBudget_le {t : PibtScratch n}
    (h : Tried W cls fields agents options rank s frame rest t) :
    loopBudget t ≤
      (2 * pibtMaxCandidates + 3) * undecidedCount s.state + (rest.map (·.budget)).sum +
        if frame.nextCandidate < frame.candidates.length then
          2 * (frame.candidates.length - frame.nextCandidate) + 1 else 0 := by
  have hdecided : undecidedCount (Function.update s.state frame.agent .decided) ≤
      undecidedCount s.state := undecidedCount_update_le (by decide)
  have hwaiting : ∀ {dest claimed stats} {peer : Fin n}, ClaimMade S agents options s frame dest
      claimed stats → s.state peer = .undecided →
        loopBudget (startDeciding W cls fields agents rank
          (waitingFor s frame rest dest claimed stats) peer).1 ≤
            (2 * pibtMaxCandidates + 3) * undecidedCount s.state + (rest.map (·.budget)).sum +
              (2 * (frame.candidates.length - frame.nextCandidate) + 1) := by
    intro dest claimed stats peer hclaim hundecided
    have hlt := @loopBudget_startDeciding S Tag n W cls fields agents rank
      (waitingFor s frame rest dest claimed stats) peer hundecided
    simp only [loopBudget, waitingFor, PibtFrame.budget, List.map_cons, List.sum_cons,
      if_true] at hlt ⊢
    omega
  cases h with
  | exhausted _ =>
    simp only [loopBudget, pibtMaxCandidates]
    omega
  | skipped hnext stats hstats =>
    rw [if_pos hnext]
    simp only [loopBudget, PibtFrame.budget, pibtMaxCandidates, List.map_cons, List.sum_cons]
    split_ifs <;> omega
  | settled hclaim hpeer =>
    simp only [loopBudget, pibtMaxCandidates]
    omega
  | handed hclaim hpeer hundecided hpushed =>
    rw [if_pos hclaim.nextCandidate_lt]
    exact hwaiting hclaim hundecided
  | refused hclaim hpeer hundecided hpushed =>
    rw [if_pos hclaim.nextCandidate_lt]
    exact hwaiting hclaim hundecided

/-- **Every iteration spends of the budget.** -/
theorem loopBudget_pibtStep (hframes : s.frames ≠ []) :
    loopBudget (pibtStep W cls fields agents options rank s) < loopBudget s := by
  obtain ⟨frame, rest, hcons⟩ := List.exists_cons_of_ne_nil hframes
  have hdecided : undecidedCount (Function.update s.state frame.agent .decided) ≤
      undecidedCount s.state := undecidedCount_update_le (by decide)
  have hbudget : loopBudget s = (2 * pibtMaxCandidates + 3) * undecidedCount s.state +
      (frame.budget + (rest.map (·.budget)).sum) := by
    rw [loopBudget, hcons, List.map_cons, List.sum_cons]
  rw [hbudget, PibtFrame.budget, pibtStep, hcons]
  simp only
  cases hwaiting : frame.waiting with
  | true =>
    simp only [if_true]
    split_ifs with hchild
    · -- the peer found a place
      simp only [loopBudget, pibtMaxCandidates]
      omega
    · refine tried_tryCandidate.loopBudget_le.trans_lt ?_
      simp only
      split_ifs <;> omega
  | false =>
    simp only [Bool.false_eq_true, if_false]
    refine tried_tryCandidate.loopBudget_le.trans_lt ?_
    split_ifs <;> omega

/-- **The loop ends** within its budget. -/
theorem decisionLoop_isSome {fuel : ℕ} (hfuel : loopBudget s ≤ fuel) :
    (decisionLoop W cls fields agents options rank fuel s).isSome = true := by
  induction fuel generalizing s with
  | zero =>
    unfold decisionLoop
    cases hframes : s.frames with
    | nil => rfl
    | cons frame rest =>
      have hlt : loopBudget (pibtStep W cls fields agents options rank s) < loopBudget s :=
        loopBudget_pibtStep (by rw [hframes]; exact List.cons_ne_nil _ _)
      omega
  | succ fuel ih =>
    unfold decisionLoop
    cases hframes : s.frames with
    | nil => rfl
    | cons frame rest =>
      have hlt : loopBudget (pibtStep W cls fields agents options rank s) < loopBudget s :=
        loopBudget_pibtStep (by rw [hframes]; exact List.cons_ne_nil _ _)
      exact ih (by omega)

/-- The frames are empty where the loop ends. -/
theorem frames_of_decisionLoop {fuel : ℕ} {t : PibtScratch n}
    (h : decisionLoop W cls fields agents options rank fuel s = some t) : t.frames = [] := by
  induction fuel generalizing s with
  | zero =>
    unfold decisionLoop at h
    cases hframes : s.frames with
    | nil =>
      simp only [hframes, Option.some.injEq] at h
      exact h ▸ hframes
    | cons frame rest => simp [hframes] at h
  | succ fuel ih =>
    unfold decisionLoop at h
    cases hframes : s.frames with
    | nil =>
      simp only [hframes, Option.some.injEq] at h
      exact h ▸ hframes
    | cons frame rest =>
      simp only [hframes] at h
      exact ih h

variable (W cls fields agents options rank i) in
/-- **The decision of an agent ends.** -/
theorem decideNext_isSome (hframes : s.frames = []) :
    ∃ t, decideNext W cls fields agents options rank s i = some t ∧ t.frames = [] := by
  rw [decideNext]
  split_ifs with hstate hgoal
  · exact ⟨s, rfl, hframes⟩
  · exact ⟨_, rfl, hframes⟩
  · have hlt := loopBudget_startDeciding W cls fields agents rank (not_not.1 hstate)
    have hshare := Nat.mul_le_mul_left (2 * pibtMaxCandidates + 3) (undecidedCount_le s.state)
    rw [loopBudget, loopBudget, hframes, List.map_nil, List.sum_nil, Nat.add_zero] at hlt
    rw [runDecision]
    simp only
    split_ifs with hpushed
    · have hsome : (decisionLoop W cls fields agents options rank (pibtFuel n)
          { (startDeciding W cls fields agents rank s i).1 with
            childSucceeded := false }).isSome = true := by
        refine decisionLoop_isSome ?_
        rw [loopBudget, pibtFuel]
        simp only
        omega
      obtain ⟨t, ht⟩ := Option.isSome_iff_exists.1 hsome
      exact ⟨t, ht, frames_of_decisionLoop ht⟩
    · exact ⟨_, rfl, (frames_startDeciding (Bool.eq_false_iff.2 hpushed)).trans hframes⟩

variable (W cls fields agents options rank) in
/-- **Every pass decides**, whatever the agents are. -/
theorem pibtDecided_isSome (elapsed : Fin n → ℕ) (stats : JointMoveStats) :
    (pibtDecided W cls fields agents options rank elapsed stats).isSome = true := by
  have key : ∀ (l : List (Fin n)) (s : PibtScratch n), s.frames = [] →
      (l.foldlM (decideNext W cls fields agents options rank) s).isSome = true := by
    intro l
    induction l with
    | nil => exact fun s _ => rfl
    | cons i l ih =>
      intro s hframes
      obtain ⟨t, ht, htframes⟩ := decideNext_isSome W cls fields agents options rank i hframes
      rw [List.foldlM_cons, ht]
      exact ih t htframes
  exact key _ _ rfl

end Budget

end Tess
