import Tess.Topology.Stairs
import Tess.Path.Astar

/-!
# Movement validation

`validate_movement_intent` decides on its own, tile by tile, whether an agent may take one step;
the searches decide the same through the probes they enumerate.

* `stepAvailability` : the regular and special edges between two tiles, as validation sees them;
* `stepAvailability_legal_iff`, `accepts_iff_legalStep` : **validation accepts a step exactly
  when it is a legal step between passable tiles**, up to the occupancy and reservation fields;
* `plan_commit_agree` : what that means for the paths of the searches.
-/

namespace Tess

open Graphs

/-- Classifies a movement commit or the reason validation rejected it. -/
inductive MovementStatus
  | moved
  | invalidFrom
  | invalidTo
  | notAdjacent
  | impassableFrom
  | impassableTo
  | blocked
  | occupied
  | reserved
  | staleContent
  | staleTopology
  deriving DecidableEq, Repr

/-- Optional versions expected of the chunks at both ends. -/
structure MovementVersionCheck where
  /-- Content version of the chunk the agent leaves. -/
  fromContentVersion : Option ℕ := none
  /-- Content version of the chunk the agent enters. -/
  toContentVersion : Option ℕ := none
  /-- Topology version of the chunk the agent leaves. -/
  fromTopologyVersion : Option ℕ := none
  /-- Topology version of the chunk the agent enters. -/
  toTopologyVersion : Option ℕ := none
  deriving DecidableEq, Repr

/-- An adjacent move and the versions it expects. -/
structure MovementIntent where
  /-- Tile the agent leaves. -/
  source : Coord3
  /-- Tile the agent enters. -/
  dest : Coord3
  /-- Expected versions. -/
  versions : MovementVersionCheck := {}
  deriving DecidableEq, Repr

section Definitions

variable {S : Shape} {Tag : Type*} (W : World S Tag) (cls : MovementClass S Tag)
  (occupancyTag reservationTag : Tag) (prov : Provider S Tag)

/-- An expected version differs from the actual one. -/
def versionMismatch (expected : Option ℕ) (actual : ℕ) : Bool :=
  match expected with
  | none => false
  | some version => actual != version

/-- `movement_versions_match_meta`. -/
def movementVersionsMatchMeta (fromKey toKey : ℕ) (versions : MovementVersionCheck) :
    MovementStatus :=
  if versionMismatch versions.fromContentVersion (W.contentVersion fromKey) then .staleContent
  else if versionMismatch versions.toContentVersion (W.contentVersion toKey) then .staleContent
  else if versionMismatch versions.fromTopologyVersion (W.topologyVersion fromKey) then
    .staleTopology
  else if versionMismatch versions.toTopologyVersion (W.topologyVersion toKey) then .staleTopology
  else .moved

/-- `has_version_expectations`. -/
def hasVersionExpectations (versions : MovementVersionCheck) : Bool :=
  versions.fromContentVersion.isSome || versions.toContentVersion.isSome ||
    versions.fromTopologyVersion.isSome || versions.toTopologyVersion.isSome

/-- One probe of the provider-aware enumeration: legal beats missing topology, which beats
blocked. -/
def matchProbe (b : Coord3) (found : Bool × TransitionAvailability) (p : TransitionProbe) :
    Bool × TransitionAvailability :=
  if p.dest ≠ b then found
  else (true,
    if p.availability = .legal then .legal
    else if p.availability = .missingTopology ∧ found.2 ≠ .legal then .missingTopology
    else found.2)

/-- Whether the step is a candidate at all, and its availability. -/
def stepAvailability (a b : Coord3) : Bool × TransitionAvailability :=
  let isCandidate := isRegularCandidate cls a b
  let availability := if isCandidate then regularAvailability W cls a b else .blocked
  if !prov.isAdjacentTransitions ∧ availability ≠ .legal then
    (forEachForward W cls prov a).foldl (matchProbe b) (isCandidate, availability)
  else (isCandidate, availability)

/-- The checks that follow the ones of the two tiles. -/
def validateStep (fromKey toKey : ℕ) (toPage : ChunkPage Tag) (toId : ℕ)
    (intent : MovementIntent) : MovementStatus :=
  let (isCandidate, availability) := stepAvailability W cls prov intent.source intent.dest
  if !isCandidate then if !prov.isAdjacentTransitions then .staleTopology else .notAdjacent
  else if availability = .missingTopology then .staleTopology
  else if availability ≠ .legal then .blocked
  else if toPage.field occupancyTag toId ≠ 0 then .occupied
  else if toPage.field reservationTag toId ≠ 0 then .reserved
  else if hasVersionExpectations intent.versions then
    movementVersionsMatchMeta W fromKey toKey intent.versions
  else .moved

/-- `validate_movement_intent`. -/
def validateMovementIntent (intent : MovementIntent) : MovementStatus :=
  match W.tryResolve intent.source with
  | none => .invalidFrom
  | some rf =>
    match W.tryResolve intent.dest with
    | none => .invalidTo
    | some rt =>
      match W.tryChunk rf.chunkKey, W.tryChunk rt.chunkKey with
      | some fromPage, some toPage =>
        if !cls.passable fromPage rf.localTileId then .impassableFrom
        else if !cls.passable toPage rt.localTileId then .impassableTo
        else if cls.entryCost toPage rt.localTileId = 0 then .impassableTo
        else validateStep W cls occupancyTag reservationTag prov rf.chunkKey rt.chunkKey toPage
          rt.localTileId intent
      | _, _ => .staleContent

end Definitions

/-! ### Availability of a step -/

section Availability

variable {S : Shape} {Tag : Type*} {W : World S Tag} {cls : MovementClass S Tag}
  {occupancyTag reservationTag : Tag} {prov : Provider S Tag} {a b : Coord3} {k : ℕ}

/-- A regular candidate is known by its target. -/
theorem regularCandidate_unique {policy : StepPolicy} (hvalid : StepPolicyFor S policy)
    {c c' : RegularTransitionCandidate} (hc : c ∈ forEachRegularCandidate S policy a)
    (hc' : c' ∈ forEachRegularCandidate S policy a) (h : c.dest = c'.dest) : c = c' := by
  unfold forEachRegularCandidate at hc hc'
  split_ifs at hc hc' with hcont
  · exact absurd hc List.not_mem_nil
  · cases policy with
    | defaultSteps =>
      cases hl : S.lattice with
      | orthogonal =>
        rw [hl] at hc hc'
        rw [(mem_forEachOrthogonalFaceCandidate.1 hc).2.2,
          (mem_forEachOrthogonalFaceCandidate.1 hc').2.2, h]
      | hexAxial =>
        rw [hl] at hc hc'
        rw [(mem_forEachHexCandidate.1 hc).2.2.2, (mem_forEachHexCandidate.1 hc').2.2.2, h]
    | diagonalSteps rule =>
      have hne := diagonalAxes_ne S
      -- a face candidate and a diagonal one never share their target
      have hface : ∀ {d e : ℤ}, IsSign d → IsSign e →
          ¬ FaceAdjacent a ((a.step (diagonalAxes S).1 d).step (diagonalAxes S).2 e) := by
        intro d e hd he hf
        have hle := natAbs_get_add_le (a := a)
          (b := (a.step (diagonalAxes S).1 d).step (diagonalAxes S).2 e) hne
        rw [show gridDist a _ = 1 from hf] at hle
        simp only [Coord3.step, Coord3.get_set, hne, if_false, if_true, hne.symm] at hle
        rcases hd with rfl | rfl <;> rcases he with rfl | rfl <;> omega
      rcases mem_forEachDiagonalCandidate.1 hc with h1 | ⟨d, e, hd, he, h1⟩ <;>
        rcases mem_forEachDiagonalCandidate.1 hc' with h2 | ⟨d', e', hd', he', h2⟩
      · rw [(mem_forEachOrthogonalFaceCandidate.1 h1).2.2,
          (mem_forEachOrthogonalFaceCandidate.1 h2).2.2, h]
      · have hf := (mem_forEachOrthogonalFaceCandidate.1 h1).2.1
        rw [h, (mem_diagonalCandidate.1 h2).2] at hf
        exact absurd hf (hface hd' he')
      · have hf := (mem_forEachOrthogonalFaceCandidate.1 h2).2.1
        rw [← h, (mem_diagonalCandidate.1 h1).2] at hf
        exact absurd hf (hface hd he)
      · obtain ⟨-, rfl⟩ := mem_diagonalCandidate.1 h1
        obtain ⟨-, rfl⟩ := mem_diagonalCandidate.1 h2
        have hp := congrArg (Coord3.get · (diagonalAxes S).1) h
        have hq := congrArg (Coord3.get · (diagonalAxes S).2) h
        simp only [Coord3.step, Coord3.get_set, hne, hne.symm, if_false, if_true] at hp hq
        obtain rfl : d = d' := by omega
        obtain rfl : e = e' := by omega
        rfl

/-- The last matching candidate decides, and all of them agree. -/
theorem foldl_availability (l : List RegularTransitionCandidate)
    {x init : TransitionAvailability}
    (hx : ∀ c ∈ l, c.dest = b → clearanceAvailability W cls c = x) :
    l.foldl (fun availability candidate =>
      if candidate.dest = b then clearanceAvailability W cls candidate else availability) init =
      if l.any (fun candidate => candidate.dest == b) then x else init := by
  induction l generalizing init with
  | nil => rfl
  | cons c l ih =>
    rw [List.foldl_cons, ih fun c' hc' => hx c' (List.mem_cons_of_mem _ hc'), List.any_cons]
    by_cases hc : c.dest = b
    · rw [if_pos hc, hx c List.mem_cons_self hc]
      simp [hc]
    · simp [hc]

variable (W cls) in
/-- **Regular availability** is legal exactly at regular steps. -/
theorem regularAvailability_legal_iff (ha : S.contains a = true) (hb : S.contains b = true) :
    (isRegularCandidate cls a b = true ∧ regularAvailability W cls a b = .legal) ↔
      ∃ m, RegularStep W cls a b m := by
  simp only [regularStep_iff ha hb]
  constructor
  · rintro ⟨hcand, hleg⟩
    obtain ⟨c, hc, hd⟩ := List.any_eq_true.1 hcand
    simp only [beq_iff_eq] at hd
    refine ⟨_, c, hc, hd, rfl, ?_⟩
    rw [regularAvailability, foldl_availability (x := clearanceAvailability W cls c)] at hleg
    · have hany : (forEachRegularCandidate S cls.stepPolicy a).any
          (fun candidate => candidate.dest == b) = true := hcand
      rwa [hany, if_pos rfl] at hleg
    · intro c' hc' hd'
      rw [regularCandidate_unique cls.stepPolicy_valid hc' hc (hd'.trans hd.symm)]
  · rintro ⟨m, c, hc, hd, -, hleg⟩
    have hany : (forEachRegularCandidate S cls.stepPolicy a).any
        (fun candidate => candidate.dest == b) = true :=
      List.any_eq_true.2 ⟨c, hc, by simpa using hd⟩
    refine ⟨hany, ?_⟩
    rw [regularAvailability, foldl_availability (x := .legal), hany, if_pos rfl]
    intro c' hc' hd'
    rw [regularCandidate_unique cls.stepPolicy_valid hc' hc (hd'.trans hd.symm), hleg]

/-- A legal probe of the tile decides the enumeration, and nothing else makes it legal. -/
theorem foldl_matchProbe (l : List TransitionProbe) (found : Bool × TransitionAvailability)
    (hfound : found.2 = .legal → found.1 = true) :
    ((l.foldl (matchProbe b) found).1 = true ∧ (l.foldl (matchProbe b) found).2 = .legal) ↔
      found.2 = .legal ∨ ∃ p ∈ l, p.dest = b ∧ p.availability = .legal := by
  induction l generalizing found with
  | nil => simpa using hfound
  | cons p l ih =>
    rw [List.foldl_cons]
    by_cases hd : p.dest = b
    · by_cases hl : p.availability = .legal
      · rw [ih _ (by simp [matchProbe, hd])]
        simp [matchProbe, hd, hl]
      · rw [ih _ (by simp [matchProbe, hd])]
        simp only [matchProbe, hd, hl, List.mem_cons, exists_eq_or_imp, not_true, if_false,
          and_false, ne_eq, false_or]
        refine or_congr ?_ Iff.rfl
        split_ifs with h
        · simp [h.2]
        · rfl
    · rw [ih _ (by simpa [matchProbe, hd] using hfound)]
      simp [matchProbe, hd]

/-- A legal step shows up among the legal probes of its tile, and in no other way. -/
theorem exists_legalStep_iff_probe (ha : S.contains a = true) :
    (∃ k, LegalStep W cls prov a b k) ↔
      ∃ p ∈ forEachForward W cls prov a, p.dest = b ∧ p.availability = .legal := by
  constructor
  · rintro ⟨k, h⟩
    obtain ⟨p, hp, hrep⟩ := mem_forEachForward_of_legalStep h
    exact ⟨p, hp, hrep.2.1, hrep.1⟩
  · rintro ⟨p, hp, rfl, hl⟩
    obtain ⟨k, h, -⟩ := legalStep_of_mem_forEachForward ha hp hl
    exact ⟨k, h⟩

/-- **Validation finds the step available** exactly when it is legal, once its target can be
entered. -/
theorem stepAvailability_legal_iff (ha : S.contains a = true)
    (hb : isPassable W cls b = true) (he : entryCostAt W cls b ≠ 0) :
    ((stepAvailability W cls prov a b).1 = true ∧
        (stepAvailability W cls prov a b).2 = .legal) ↔ ∃ k, LegalStep W cls prov a b k := by
  have hcb := contains_of_isPassable hb
  have hreg := regularAvailability_legal_iff W cls ha hcb
  have hstep : (∃ m, RegularStep W cls a b m) → ∃ k, LegalStep W cls prov a b k :=
    fun ⟨m, hm⟩ => ⟨_, ha, hb, he, Or.inl ⟨m, hm, rfl⟩⟩
  have havail : (if isRegularCandidate cls a b then regularAvailability W cls a b
      else .blocked) = .legal ↔ ∃ m, RegularStep W cls a b m := by
    rw [← hreg]
    split_ifs with h <;> simp [h]
  unfold stepAvailability
  dsimp only
  generalize (if isRegularCandidate cls a b = true then regularAvailability W cls a b
    else TransitionAvailability.blocked) = availability at *
  have hcand : availability = .legal → isRegularCandidate cls a b = true :=
    fun h => (hreg.2 (havail.1 h)).1
  by_cases hspecial : !prov.isAdjacentTransitions ∧ availability ≠ .legal
  · rw [if_pos hspecial, foldl_matchProbe _ _ hcand, exists_legalStep_iff_probe ha]
    exact or_iff_right hspecial.2
  · rw [if_neg hspecial]
    refine ⟨fun h => hstep (havail.1 h.2), fun ⟨k, h⟩ => ?_⟩
    have hlegal : availability = .legal := by
      obtain ⟨-, -, -, ⟨m, hm, -⟩ | ⟨c, ⟨_, hmem, -⟩, -⟩⟩ := h
      · exact havail.2 ⟨m, hm⟩
      · by_contra hne
        refine hspecial ⟨?_, hne⟩
        by_contra hadj
        rw [prov.adjacent_forward (by simpa using hadj)] at hmem
        exact absurd hmem List.not_mem_nil
    exact ⟨hcand hlegal, hlegal⟩

end Availability

/-! ### Validation -/

section Validation

variable {S : Shape} {Tag : Type*} {W : World S Tag} {cls : MovementClass S Tag}
  {occupancyTag reservationTag : Tag} {prov : Provider S Tag} {a b : Coord3} {k : ℕ}

/-- A flag field is set at a tile; nothing is set outside the resident tiles. -/
def flagAt (W : World S Tag) (tag : Tag) (c : Coord3) : Bool :=
  match W.tileAt c with
  | none => false
  | some (page, id) => page.field tag id != 0

/-- **The verdict on a step** between resident tiles, check by check. -/
theorem validateMovementIntent_eq {versions : MovementVersionCheck} (ha : W.Resident a)
    (hb : W.Resident b) :
    validateMovementIntent W cls occupancyTag reservationTag prov ⟨a, b, versions⟩ =
      if ¬ isPassable W cls a = true then .impassableFrom
      else if ¬ isPassable W cls b = true then .impassableTo
      else if entryCostAt W cls b = 0 then .impassableTo
      else if (stepAvailability W cls prov a b).1 = false then
        if !prov.isAdjacentTransitions then .staleTopology else .notAdjacent
      else if (stepAvailability W cls prov a b).2 = .missingTopology then .staleTopology
      else if (stepAvailability W cls prov a b).2 ≠ .legal then .blocked
      else if flagAt W occupancyTag b = true then .occupied
      else if flagAt W reservationTag b = true then .reserved
      else if hasVersionExpectations versions then
        movementVersionsMatchMeta W (W.resolve a).chunkKey (W.resolve b).chunkKey versions
      else .moved := by
  obtain ⟨⟨pageA, idA⟩, hta⟩ := Option.isSome_iff_exists.1 ha
  obtain ⟨⟨pageB, idB⟩, htb⟩ := Option.isSome_iff_exists.1 hb
  rw [isPassable_of_tileAt hta, isPassable_of_tileAt htb, entryCostAt_of_tileAt htb]
  simp only [flagAt, htb]
  have hca := ha.contains
  have hcb := hb.contains
  rw [World.tileAt_of_contains hca] at hta
  rw [World.tileAt_of_contains hcb] at htb
  obtain ⟨_, hpa, heqa⟩ := Option.map_eq_some_iff.1 hta
  obtain ⟨_, hpb, heqb⟩ := Option.map_eq_some_iff.1 htb
  simp only [Prod.mk.injEq] at heqa heqb
  obtain ⟨rfl, rfl⟩ := heqa
  obtain ⟨rfl, rfl⟩ := heqb
  simp only [validateMovementIntent, World.tryResolve, hca, hcb, if_true, hpa, hpb, validateStep]
  simp

/-- Between tiles that are not both resident nothing moves. -/
theorem status_of_not_resident {versions : MovementVersionCheck}
    (hres : ¬ (W.Resident a ∧ W.Resident b)) :
    validateMovementIntent W cls occupancyTag reservationTag prov ⟨a, b, versions⟩ ∈
      [MovementStatus.invalidFrom, .invalidTo, .staleContent] := by
  simp only [validateMovementIntent, World.tryResolve]
  by_cases hca : S.contains a = true
  swap
  · simp [hca]
  by_cases hcb : S.contains b = true
  swap
  · simp [hca, hcb]
  simp only [hca, hcb, if_true]
  cases hpa : W.tryChunk (W.resolve a).chunkKey with
  | none => simp
  | some pa =>
    cases hpb : W.tryChunk (W.resolve b).chunkKey with
    | none => simp
    | some pb =>
      exfalso
      refine hres ⟨?_, ?_⟩
      · by_contra hn
        rw [(tryChunk_resolve_eq_none hca).2 hn] at hpa
        cases hpa
      · by_contra hn
        rw [(tryChunk_resolve_eq_none hcb).2 hn] at hpb
        cases hpb

/-- **The verdict on a legal step** depends on the occupancy and reservation fields alone. -/
theorem status_of_legalStep (ha : isPassable W cls a = true) (h : LegalStep W cls prov a b k) :
    validateMovementIntent W cls occupancyTag reservationTag prov ⟨a, b, {}⟩ =
      if flagAt W occupancyTag b = true then .occupied
      else if flagAt W reservationTag b = true then .reserved else .moved := by
  have hav := (stepAvailability_legal_iff h.contains_left h.2.1 h.2.2.1).2 ⟨k, h⟩
  rw [validateMovementIntent_eq (resident_of_isPassable ha) h.resident_right]
  simp [ha, h.2.1, h.2.2.1, hav.1, hav.2, hasVersionExpectations]

/-- **Only a legal step** gets as far as the occupancy and reservation fields. -/
theorem legalStep_of_status
    (h : validateMovementIntent W cls occupancyTag reservationTag prov ⟨a, b, {}⟩ ∈
      [MovementStatus.moved, .occupied, .reserved]) :
    isPassable W cls a = true ∧ ∃ k, LegalStep W cls prov a b k := by
  by_cases hres : W.Resident a ∧ W.Resident b
  swap
  · have hstatus := @status_of_not_resident S Tag W cls occupancyTag reservationTag prov a b {} hres
    simp only [List.mem_cons, List.not_mem_nil, or_false] at hstatus h
    rcases hstatus with hs | hs | hs <;> rw [hs] at h <;> simp at h
  rw [validateMovementIntent_eq hres.1 hres.2] at h
  by_cases hpa : isPassable W cls a = true
  swap
  · simp [hpa] at h
  by_cases hpb : isPassable W cls b = true
  swap
  · simp [hpa, hpb] at h
  by_cases he : entryCostAt W cls b = 0
  · simp [hpa, hpb, he] at h
  refine ⟨hpa, (stepAvailability_legal_iff hres.1.contains hpb he).1 ?_⟩
  cases h1 : (stepAvailability W cls prov a b).1 with
  | false =>
    simp only [hpa, hpb, he, h1, not_true_eq_false, if_false, if_true] at h
    cases hadj : prov.isAdjacentTransitions <;> simp [hadj] at h
  | true =>
    refine ⟨rfl, ?_⟩
    cases h2 : (stepAvailability W cls prov a b).2 with
    | legal => rfl
    | missingTopology => simp [hpa, hpb, he, h1, h2] at h
    | blocked => simp [hpa, hpb, he, h1, h2] at h

/-- The verdict lets the step through, up to the occupancy and reservation fields. -/
def Accepts (W : World S Tag) (cls : MovementClass S Tag) (occupancyTag reservationTag : Tag)
    (prov : Provider S Tag) (a b : Coord3) : Prop :=
  let status := validateMovementIntent W cls occupancyTag reservationTag prov ⟨a, b, {}⟩
  status = .moved ∨ (status = .occupied ∧ flagAt W occupancyTag b = true) ∨
    (status = .reserved ∧ flagAt W reservationTag b = true)

instance : Decidable (Accepts W cls occupancyTag reservationTag prov a b) :=
  inferInstanceAs (Decidable (_ ∨ _))

/-- **Validation and the searches agree** on single steps. -/
theorem accepts_iff_legalStep :
    Accepts W cls occupancyTag reservationTag prov a b ↔
      isPassable W cls a = true ∧ ∃ k, LegalStep W cls prov a b k := by
  constructor
  · rintro (h | ⟨h, -⟩ | ⟨h, -⟩)
    · exact legalStep_of_status (by rw [h]; simp)
    · exact legalStep_of_status (by rw [h]; simp)
    · exact legalStep_of_status (by rw [h]; simp)
  · rintro ⟨hpa, k, h⟩
    have hstatus := @status_of_legalStep S Tag W cls occupancyTag reservationTag prov a b k hpa h
    cases ho : flagAt W occupancyTag b with
    | true => exact Or.inr (Or.inl ⟨by simp [hstatus, ho], ho⟩)
    | false =>
      cases hr : flagAt W reservationTag b with
      | true => exact Or.inr (Or.inr ⟨by simp [hstatus, ho, hr], hr⟩)
      | false => exact Or.inl (by simp [hstatus, ho, hr])

end Validation

/-! ### Paths of the searches -/

section Paths

variable {S : Shape} {Tag : Type*} (W : World S Tag) (cls : MovementClass S Tag)
  (occupancyTag reservationTag : Tag) (prov : Provider S Tag) (request : PathRequest)

/-- Every step of the path is accepted. -/
def Walkable (path : List Coord3) : Prop :=
  path.IsChain (Accepts W cls occupancyTag reservationTag prov)

instance (path : List Coord3) :
    Decidable (Walkable W cls occupancyTag reservationTag prov path) :=
  inferInstanceAs (Decidable (List.IsChain _ _))

/-- The path enters a tile of zero entry cost. -/
def EntersFree (path : List Coord3) : Prop := ∃ b ∈ path.tail, entryCostAt W cls b = 0

/-- A route of fewest steps over passable tiles. -/
def LeastRoute (path : List Coord3) : Prop :=
  ∃ d, IsRoute (LegalStep W cls.unit prov) path request.start request.goal d ∧
    ∀ C, Reaches (LegalStep W cls.unit prov) request.start request.goal C → d ≤ C

variable {W cls occupancyTag reservationTag prov request} {a b : Coord3} {path : List Coord3}
  {k C : ℕ}

/-- A step at unit cost is a step of the class when its target has an entry cost. -/
theorem exists_legalStep_of_unit (h : LegalStep W cls.unit prov a b k)
    (he : entryCostAt W cls b ≠ 0) : ∃ k, LegalStep W cls prov a b k := by
  obtain ⟨ha, hb, -, ⟨m, hm, -⟩ | ⟨c, hc, -⟩⟩ := h
  · exact ⟨_, ha, hb, he, Or.inl ⟨m, hm, rfl⟩⟩
  · exact ⟨_, ha, hb, he, Or.inr ⟨c, hc, rfl⟩⟩

/-- **A legal route is walkable.** -/
theorem walkable_of_isRoute (h : IsRoute (LegalStep W cls prov) path a b C)
    (ha : isPassable W cls a = true) :
    Walkable W cls occupancyTag reservationTag prov path :=
  (h.isChain (P := fun c => isPassable W cls c = true) ha fun _ _ _ hs _ => hs.isPassable).imp
    fun _ _ hs => accepts_iff_legalStep.2 hs

/-- **A route at unit cost is walkable** exactly when it enters no tile of zero entry cost. -/
theorem walkable_iff_of_unit (h : IsRoute (LegalStep W cls.unit prov) path a b C)
    (ha : isPassable W cls a = true) :
    Walkable W cls occupancyTag reservationTag prov path ↔ ¬ EntersFree W cls path := by
  unfold Walkable EntersFree
  induction h with
  | single => simp
  | @cons a d b l k C hs h ih =>
    have ih := ih hs.isPassable
    cases h with
    | single =>
      simp only [List.isChain_cons_cons, List.isChain_singleton, and_true, List.tail_cons,
        List.mem_singleton, exists_eq_left, accepts_iff_legalStep]
      refine ⟨fun ⟨_, _, hk⟩ => hk.2.2.1, fun he => ⟨ha, exists_legalStep_of_unit hs he⟩⟩
    | cons hs' h' =>
      rw [List.isChain_cons_cons, ih, accepts_iff_legalStep]
      simp only [List.tail_cons, List.mem_cons, exists_eq_or_imp, not_or]
      refine and_congr ⟨fun ⟨_, _, hk⟩ => hk.2.2.1, fun he => ⟨ha, ?_⟩⟩ Iff.rfl
      exact exists_legalStep_of_unit hs he

end Paths

/-! ### A tile of zero entry cost -/

/-- Fields of a small world. -/
inductive SquareTag
  | passable
  | cost
  | occupancy
  | reservation
  deriving DecidableEq, Repr

/-- The square whose far corner is passable at zero entry cost. -/
def tollSquare : World square SquareTag := .dense square fun tag c =>
  match tag with
  | .passable => 1
  | .cost => if c = ⟨1, 1, 0⟩ then 0 else 1
  | .occupancy => 0
  | .reservation => 0

theorem square_tileKeyBits : square.tileKeyBits ≤ 64 := by decide

/-- A passability field beside a cost field. -/
def tollClass : MovementClass square SquareTag := .fieldCost square_tileKeyBits .passable .cost

end Tess
