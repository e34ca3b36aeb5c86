import Tess.Topology.Transition
import Tess.Lib.LabelSetting

/-!
# Legal steps

`LegalStep W cls prov a b k` says, without enumerating candidates, that an agent of class `cls`
may step from `a` to `b` at cost `k`: a face step, a hex step or a diagonal step that keeps its
corner rule, onto a passable tile of non-zero entry cost, or a special edge of the provider.

* `legalStep_of_mem_forEachForward`, `mem_forEachForward_of_legalStep` : **the legal probes of a
  tile are exactly the legal steps out of it**, with their costs cut off at the sentinel;
* `heuristic_eq_min` : the heuristic is an exact estimate cut off at the sentinel;
* `consistent_estimate` : that estimate drops along a legal step by at most its cost.
-/

namespace Tess

open Graphs

/-! ### Adjacent tiles -/

/-- The two tiles share a face. -/
def FaceAdjacent (a b : Coord3) : Prop := gridDist a b = 1

/-- The two tiles are neighbours on the axial hex lattice. -/
def HexAdjacent (a b : Coord3) : Prop := hexDist a b = 1 ∧ a.z = b.z

/-- The two tiles differ by one on exactly two axes. -/
def DiagonalPair (a b : Coord3) : Prop :=
  gridDist a b = 2 ∧ (a.x - b.x).natAbs ≤ 1 ∧ (a.y - b.y).natAbs ≤ 1 ∧ (a.z - b.z).natAbs ≤ 1

instance (a b : Coord3) : Decidable (FaceAdjacent a b) := inferInstanceAs (Decidable (_ = _))

instance (a b : Coord3) : Decidable (HexAdjacent a b) := inferInstanceAs (Decidable (_ ∧ _))

instance (a b : Coord3) : Decidable (DiagonalPair a b) := inferInstanceAs (Decidable (_ ∧ _))

theorem faceAdjacent_iff {a b : Coord3} : FaceAdjacent a b ↔
    b = ⟨a.x + 1, a.y, a.z⟩ ∨ b = ⟨a.x - 1, a.y, a.z⟩ ∨ b = ⟨a.x, a.y + 1, a.z⟩ ∨
      b = ⟨a.x, a.y - 1, a.z⟩ ∨ b = ⟨a.x, a.y, a.z + 1⟩ ∨ b = ⟨a.x, a.y, a.z - 1⟩ := by
  constructor
  · intro h
    unfold FaceAdjacent gridDist at h
    have hx : b.x = a.x + 1 ∨ b.x = a.x - 1 ∨ b.x = a.x := by omega
    have hy : b.y = a.y + 1 ∨ b.y = a.y - 1 ∨ b.y = a.y := by omega
    have hz : b.z = a.z + 1 ∨ b.z = a.z - 1 ∨ b.z = a.z := by omega
    obtain ⟨x, y, z⟩ := b
    simp only at h hx hy hz
    rcases hx with rfl | rfl | rfl <;> rcases hy with rfl | rfl | rfl <;>
      rcases hz with rfl | rfl | rfl <;> simp at h ⊢
  · rintro (rfl | rfl | rfl | rfl | rfl | rfl) <;> simp [FaceAdjacent, gridDist]

theorem hexAdjacent_iff {a b : Coord3} : HexAdjacent a b ↔
    b = ⟨a.x + 1, a.y, a.z⟩ ∨ b = ⟨a.x - 1, a.y, a.z⟩ ∨ b = ⟨a.x, a.y + 1, a.z⟩ ∨
      b = ⟨a.x, a.y - 1, a.z⟩ ∨ b = ⟨a.x + 1, a.y - 1, a.z⟩ ∨
      b = ⟨a.x - 1, a.y + 1, a.z⟩ := by
  constructor
  · rintro ⟨h, hz⟩
    unfold hexDist at h
    have hx : b.x = a.x + 1 ∨ b.x = a.x - 1 ∨ b.x = a.x := by omega
    have hy : b.y = a.y + 1 ∨ b.y = a.y - 1 ∨ b.y = a.y := by omega
    obtain ⟨x, y, z⟩ := b
    simp only at h hx hy hz
    subst hz
    rcases hx with rfl | rfl | rfl <;> rcases hy with rfl | rfl | rfl <;> simp at h ⊢
  · rintro (rfl | rfl | rfl | rfl | rfl | rfl) <;> simp [HexAdjacent, hexDist]

theorem faceAdjacent_comm {a b : Coord3} : FaceAdjacent a b ↔ FaceAdjacent b a := by
  rw [FaceAdjacent, FaceAdjacent, gridDist_comm]

/-! ### Legal steps -/

section Legal

variable {S : Shape} {Tag : Type*} (W : World S Tag) (cls : MovementClass S Tag)
  (prov : Provider S Tag)

/-- The corner rule holds at a diagonal step: of the two tiles that share a face with both
ends, both are passable, or at least one is. -/
def CornerClear (rule : CornerRule) (a b : Coord3) : Prop :=
  match rule with
  | .requireBothClear =>
    ∀ c, FaceAdjacent a c → FaceAdjacent c b → isPassable W cls c = true
  | .requireOneClear =>
    ∃ c, FaceAdjacent a c ∧ FaceAdjacent c b ∧ isPassable W cls c = true

/-- The geometry of one regular step and the ticks it charges per unit of entry cost. -/
def RegularStep (a b : Coord3) (multiplier : ℕ) : Prop :=
  match cls.stepPolicy, S.lattice with
  | .defaultSteps, .orthogonal => FaceAdjacent a b ∧ multiplier = 1
  | .defaultSteps, .hexAxial => HexAdjacent a b ∧ multiplier = 1
  | .diagonalSteps rule, _ =>
    (FaceAdjacent a b ∧ multiplier = cls.stepPolicy.costScale) ∨
      (DiagonalPair a b ∧ CornerClear W cls rule a b ∧
        multiplier = StepPolicy.diagonalStepMultiplier)

/-- The provider supplies an edge from `a` to `b` of the given cost. -/
def SpecialStep (a b : Coord3) (cost : ℕ) : Prop :=
  ∃ candidate ∈ prov.forEachForward W a, candidate.dest = b ∧
    candidate.missingTopology = false ∧ candidate.cost ≠ 0 ∧ cost = candidate.cost

/-- **A legal step** from `a` to `b` of exact cost `k`. -/
def LegalStep (a b : Coord3) (k : ℕ) : Prop :=
  S.contains a = true ∧ isPassable W cls b = true ∧ entryCostAt W cls b ≠ 0 ∧
    ((∃ m, RegularStep W cls a b m ∧ k = entryCostAt W cls b * m) ∨
      ∃ c, SpecialStep W prov a b c ∧ k = c * cls.stepPolicy.costScale)

variable {W cls prov}

theorem LegalStep.contains_left {a b : Coord3} {k : ℕ} (h : LegalStep W cls prov a b k) :
    S.contains a = true := h.1

theorem LegalStep.isPassable {a b : Coord3} {k : ℕ} (h : LegalStep W cls prov a b k) :
    isPassable W cls b = true := h.2.1

theorem LegalStep.contains_right {a b : Coord3} {k : ℕ} (h : LegalStep W cls prov a b k) :
    S.contains b = true := contains_of_isPassable h.2.1

theorem LegalStep.resident_right {a b : Coord3} {k : ℕ} (h : LegalStep W cls prov a b k) :
    W.Resident b := resident_of_isPassable h.2.1

theorem RegularStep.pos {a b : Coord3} {m : ℕ} (h : RegularStep W cls a b m) : 0 < m := by
  have h1 := cls.stepPolicy.costScale_pos
  unfold RegularStep at h
  split at h
  · omega
  · omega
  · rcases h with ⟨-, rfl⟩ | ⟨-, -, rfl⟩
    · exact h1
    · decide

theorem LegalStep.pos {a b : Coord3} {k : ℕ} (h : LegalStep W cls prov a b k) : 0 < k := by
  obtain ⟨-, -, he, ⟨m, hm, rfl⟩ | ⟨c, ⟨_, -, -, -, hc, rfl⟩, rfl⟩⟩ := h
  · exact Nat.mul_pos (Nat.pos_of_ne_zero he) hm.pos
  · exact Nat.mul_pos (Nat.pos_of_ne_zero hc) cls.stepPolicy.costScale_pos

theorem not_specialStep_adjacent {a b : Coord3} {c : ℕ} :
    ¬ SpecialStep W (adjacentTransitions S Tag) a b c := by
  rintro ⟨_, h, -⟩
  exact absurd h (by simp [adjacentTransitions])

end Legal

/-! ### Candidates -/

section Candidates

variable {S : Shape} {candidate : RegularTransitionCandidate} {a b : Coord3} {m : ℕ}

theorem mem_emitRegularCandidate {dest : Coord3} :
    candidate ∈ emitRegularCandidate S dest m ↔
      S.contains dest = true ∧ candidate = { dest := dest, multiplier := m } := by
  unfold emitRegularCandidate
  split_ifs with h <;> simp [h]

theorem mem_emitDiagonalCandidate {dest c d : Coord3} :
    candidate ∈ emitDiagonalCandidate S dest c d ↔ S.contains dest = true ∧
      candidate = { dest := dest, clearanceA := c, clearanceB := d,
                    multiplier := StepPolicy.diagonalStepMultiplier, clearanceCount := 2 } := by
  unfold emitDiagonalCandidate
  split_ifs with h <;> simp [h]

theorem mem_forEachOrthogonalFaceCandidate :
    candidate ∈ forEachOrthogonalFaceCandidate S a m ↔ S.contains candidate.dest = true ∧
      FaceAdjacent a candidate.dest ∧
      candidate = { dest := candidate.dest, multiplier := m } := by
  simp only [forEachOrthogonalFaceCandidate, List.mem_append, mem_emitRegularCandidate,
    faceAdjacent_iff]
  constructor
  · rintro (((((⟨h, rfl⟩ | ⟨h, rfl⟩) | ⟨h, rfl⟩) | ⟨h, rfl⟩) | ⟨h, rfl⟩) | ⟨h, rfl⟩) <;> simp [h]
  · rintro ⟨h, he, hc⟩
    rcases he with he | he | he | he | he | he <;> rw [he] at h hc <;> simp [h, hc]

theorem mem_forEachHexCandidate :
    candidate ∈ forEachHexCandidate S a ↔ a.z = 0 ∧ S.contains candidate.dest = true ∧
      HexAdjacent a candidate.dest ∧
      candidate = { dest := candidate.dest, multiplier := 1 } := by
  unfold forEachHexCandidate
  split_ifs with hz
  · simp [hz]
  · simp only [not_not] at hz
    simp only [List.mem_append, mem_emitRegularCandidate, hexAdjacent_iff, hz, true_and]
    constructor
    · rintro (((((⟨h, rfl⟩ | ⟨h, rfl⟩) | ⟨h, rfl⟩) | ⟨h, rfl⟩) | ⟨h, rfl⟩) | ⟨h, rfl⟩) <;>
        simp [h]
    · rintro ⟨h, he, hc⟩
      rcases he with he | he | he | he | he | he <;> rw [he] at h hc <;> simp [h, hc]

/-- Diagonal steps run in the plane of the two effective axes. -/
theorem diagonalAxes_cases (h : effectiveAxisCount S = 2) :
    (diagonalAxes S = (.x, .y) ∧ S.size.z = 1) ∨ (diagonalAxes S = (.x, .z) ∧ S.size.y = 1) ∨
      (diagonalAxes S = (.y, .z) ∧ S.size.x = 1) := by
  unfold effectiveAxisCount at h
  unfold diagonalAxes Shape.degenerate
  by_cases hx : S.size.x = 1 <;> by_cases hy : S.size.y = 1 <;> by_cases hz : S.size.z = 1 <;>
    simp [hx, hy, hz, Extent3.get] at h ⊢

/-- A sign: the displacement of a step along one axis. -/
def IsSign (d : ℤ) : Prop := d = 1 ∨ d = -1

theorem IsSign.of_natAbs {d : ℤ} (h : d.natAbs = 1) : IsSign d := by unfold IsSign; omega

/-- The tiles a diagonal step can reach, in terms of the two axes of its plane. -/
theorem diagonalPair_iff (h : effectiveAxisCount S = 2) (ha : S.contains a = true)
    (hb : S.contains b = true) : DiagonalPair a b ↔ ∃ d e, IsSign d ∧ IsSign e ∧
      b = (a.step (diagonalAxes S).1 d).step (diagonalAxes S).2 e := by
  have key {d e f : ℤ} (hf : f = 0) (h : d.natAbs + e.natAbs + f.natAbs = 2)
      (hd : d.natAbs ≤ 1) (he : e.natAbs ≤ 1) : IsSign (-d) ∧ IsSign (-e) := by
    subst hf
    exact ⟨.of_natAbs (by omega), .of_natAbs (by omega)⟩
  rw [Shape.contains_iff] at ha hb
  rcases diagonalAxes_cases h with ⟨hax, h1⟩ | ⟨hax, h1⟩ | ⟨hax, h1⟩ <;> rw [hax] <;>
    simp only [DiagonalPair, gridDist, Coord3.step, Coord3.set, Coord3.get]
  · have hr : a.z - b.z = 0 := by omega
    constructor
    · rintro ⟨h2, hx, hy, -⟩
      obtain ⟨hd, he⟩ := key hr h2 hx hy
      exact ⟨_, _, hd, he, by ext <;> simp only <;> omega⟩
    · rintro ⟨d, e, rfl | rfl, rfl | rfl, rfl⟩ <;> simp
  · have hr : a.y - b.y = 0 := by omega
    constructor
    · rintro ⟨h2, hx, -, hz⟩
      obtain ⟨hd, he⟩ := key hr (by omega) hx hz
      exact ⟨_, _, hd, he, by ext <;> simp only <;> omega⟩
    · rintro ⟨d, e, rfl | rfl, rfl | rfl, rfl⟩ <;> simp
  · have hr : a.x - b.x = 0 := by omega
    constructor
    · rintro ⟨h2, -, hy, hz⟩
      obtain ⟨hd, he⟩ := key hr (by omega) hy hz
      exact ⟨_, _, hd, he, by ext <;> simp only <;> omega⟩
    · rintro ⟨d, e, rfl | rfl, rfl | rfl, rfl⟩ <;> simp

/-- The two tiles a diagonal step passes are those that share a face with both its ends. -/
theorem corner_iff (h : effectiveAxisCount S = 2) {d e : ℤ} (hd : IsSign d) (he : IsSign e)
    {c : Coord3} :
    (FaceAdjacent a c ∧
      FaceAdjacent c ((a.step (diagonalAxes S).1 d).step (diagonalAxes S).2 e)) ↔
      c = a.step (diagonalAxes S).1 d ∨ c = a.step (diagonalAxes S).2 e := by
  rcases diagonalAxes_cases h with ⟨hax, -⟩ | ⟨hax, -⟩ | ⟨hax, -⟩ <;> rw [hax] <;>
    simp only [Coord3.step, Coord3.set, Coord3.get] <;> rcases hd with rfl | rfl <;>
    rcases he with rfl | rfl <;> constructor <;>
    first
      | (rintro ⟨h1, h2⟩
         rcases faceAdjacent_iff.1 h1 with rfl | rfl | rfl | rfl | rfl | rfl <;>
           simp [FaceAdjacent, gridDist] at h2 ⊢ <;> omega)
      | (rintro (rfl | rfl) <;> simp [FaceAdjacent, gridDist])

theorem get_eq_zero_of_size (hc : S.contains a = true) {r : Axis} (h : S.size.get r = 1) :
    a.get r = 0 := by
  have := Shape.contains_iff_get.1 hc r
  omega

theorem contains_step (h : effectiveAxisCount S = 2) (ha : S.contains a = true) {d e : ℤ}
    (hb : S.contains ((a.step (diagonalAxes S).1 d).step (diagonalAxes S).2 e) = true) :
    S.contains (a.step (diagonalAxes S).1 d) = true ∧
      S.contains (a.step (diagonalAxes S).2 e) = true := by
  rw [Shape.contains_iff] at *
  rcases diagonalAxes_cases h with ⟨hax, -⟩ | ⟨hax, -⟩ | ⟨hax, -⟩ <;> rw [hax] at hb ⊢ <;>
    simp only [Coord3.step, Coord3.set, Coord3.get, Shape.contains_iff] at hb ⊢ <;> omega

theorem mem_diagonalCandidate {d e : ℤ} : candidate ∈ diagonalCandidate S a d e ↔
    S.contains ((a.step (diagonalAxes S).1 d).step (diagonalAxes S).2 e) = true ∧
      candidate = { dest := (a.step (diagonalAxes S).1 d).step (diagonalAxes S).2 e
                    clearanceA := a.step (diagonalAxes S).1 d
                    clearanceB := a.step (diagonalAxes S).2 e
                    multiplier := StepPolicy.diagonalStepMultiplier
                    clearanceCount := 2 } := by
  unfold diagonalCandidate
  exact mem_emitDiagonalCandidate

/-- Diagonal policies add the four diagonal candidates to the face candidates. -/
theorem mem_forEachDiagonalCandidate : candidate ∈ forEachDiagonalCandidate S m a ↔
    candidate ∈ forEachOrthogonalFaceCandidate S a m ∨
      ∃ d e, IsSign d ∧ IsSign e ∧ candidate ∈ diagonalCandidate S a d e := by
  simp only [forEachDiagonalCandidate, List.mem_append]
  constructor
  · rintro ((((h | h) | h) | h) | h)
    · exact Or.inl h
    · exact Or.inr ⟨1, 1, .inl rfl, .inl rfl, h⟩
    · exact Or.inr ⟨1, -1, .inl rfl, .inr rfl, h⟩
    · exact Or.inr ⟨-1, 1, .inr rfl, .inl rfl, h⟩
    · exact Or.inr ⟨-1, -1, .inr rfl, .inr rfl, h⟩
  · rintro (h | ⟨d, e, rfl | rfl, rfl | rfl, h⟩) <;> simp [h]

theorem contains_of_mem_forEachRegularCandidate {policy : StepPolicy}
    (h : candidate ∈ forEachRegularCandidate S policy a) :
    S.contains a = true ∧ S.contains candidate.dest = true := by
  unfold forEachRegularCandidate at h
  split_ifs at h with hc
  · exact absurd h List.not_mem_nil
  · refine ⟨by simpa using hc, ?_⟩
    split at h
    · split at h
      · exact (mem_forEachOrthogonalFaceCandidate.1 h).1
      · exact (mem_forEachHexCandidate.1 h).2.1
    · rcases mem_forEachDiagonalCandidate.1 h with h | ⟨d, e, -, -, h⟩
      · exact (mem_forEachOrthogonalFaceCandidate.1 h).1
      · obtain ⟨h1, rfl⟩ := mem_diagonalCandidate.1 h
        exact h1

end Candidates

/-! ### Probes -/

section Probes

variable {S : Shape} {Tag : Type*} {W : World S Tag} {cls : MovementClass S Tag}
  {prov : Provider S Tag} {a b c : Coord3} {k m : ℕ}

theorem tryChunk_resolve_eq_none (hc : S.contains c = true) :
    W.tryChunk (W.resolve c).chunkKey = none ↔ ¬ W.Resident c := by
  rw [World.Resident, World.tileAt_of_contains hc, Option.isSome_map]
  cases W.tryChunk (W.resolve c).chunkKey <;> simp

theorem clearanceAt_eq (hc : S.contains c = true) : clearanceAt W cls c =
    if isPassable W cls c then .clear else if W.Resident c then .blocked else .missing := by
  simp only [isPassable_eq, World.Resident, World.tileAt_of_contains hc, clearanceAt]
  cases W.tryChunk (W.resolve c).chunkKey <;> simp

theorem clearanceAt_eq_clear (hc : S.contains c = true) :
    clearanceAt W cls c = .clear ↔ isPassable W cls c = true := by
  rw [clearanceAt_eq hc]
  split_ifs with h1 h2 <;> simp [h1]

/-- What the sink receives for a candidate whose cost is charged at a contained tile. -/
theorem emitCandidate_eq {candidate : RegularTransitionCandidate}
    (hd : S.contains candidate.dest = true) (hc : S.contains c = true) :
    emitCandidate W cls candidate c =
      if ¬ W.Resident candidate.dest then some (missingProbe (S := S) candidate.dest .regular)
      else if ¬ isPassable W cls candidate.dest = true then none
      else if clearanceAvailability W cls candidate = .blocked then none
      else if ¬ W.Resident c then some (missingProbe (S := S) candidate.dest .regular)
      else if entryCostAt W cls c = 0 then none
      else some { dest := candidate.dest
                  destIndex := S.tileKey candidate.dest
                  cost := saturatingU32 (entryCostAt W cls c * candidate.multiplier)
                  availability := clearanceAvailability W cls candidate
                  costOverflow :=
                    decide (entryCostAt W cls c * candidate.multiplier ≥ infiniteCost) } := by
  simp only [isPassable_eq, entryCostAt, World.Resident, World.tileAt_of_contains hd,
    World.tileAt_of_contains hc, emitCandidate]
  cases W.tryChunk (W.resolve candidate.dest).chunkKey <;>
    cases W.tryChunk (W.resolve c).chunkKey <;> simp

/-- What the sink receives for a special candidate charged at a contained tile. -/
theorem emitSpecialCandidate_eq {candidate : SpecialTransitionCandidate}
    (hd : S.contains candidate.dest = true) (hc : S.contains c = true) :
    emitSpecialCandidate W cls candidate c =
      if candidate.missingTopology = true ∨ ¬ W.Resident candidate.dest then
        some (missingProbe (S := S) candidate.dest .special)
      else if ¬ isPassable W cls candidate.dest = true then none
      else if entryCostAt W cls c = 0 ∨ candidate.cost = 0 then none
      else some { dest := candidate.dest
                  destIndex := S.tileKey candidate.dest
                  cost := saturatingU32 (candidate.cost * cls.stepPolicy.costScale)
                  kind := .special
                  availability := .legal
                  costOverflow :=
                    decide (candidate.cost * cls.stepPolicy.costScale ≥ infiniteCost) } := by
  simp only [isPassable_eq, entryCostAt, World.Resident, World.tileAt_of_contains hd,
    World.tileAt_of_contains hc, emitSpecialCandidate]
  cases W.tryChunk (W.resolve candidate.dest).chunkKey <;>
    cases W.tryChunk (W.resolve c).chunkKey <;> cases candidate.missingTopology <;>
    simp [hd]
  split_ifs <;> simp_all

theorem clearanceAvailability_of_count {candidate : RegularTransitionCandidate}
    (h : candidate.clearanceCount = 0) : clearanceAvailability W cls candidate = .legal := by
  unfold clearanceAvailability
  split <;> simp [h]

/-- The clearance of a diagonal candidate is legal when its corner rule holds. -/
theorem clearanceAvailability_diagonal {rule : CornerRule} (hp : cls.stepPolicy = .diagonalSteps rule)
    (ha : S.contains a = true) {d e : ℤ} (hd : IsSign d) (he : IsSign e)
    {candidate : RegularTransitionCandidate} (hm : candidate ∈ diagonalCandidate S a d e) :
    clearanceAvailability W cls candidate = .legal ↔
      CornerClear W cls rule a candidate.dest := by
  have hax : effectiveAxisCount S = 2 := by
    have := cls.stepPolicy_valid
    rw [hp] at this
    exact this.2
  obtain ⟨hb, rfl⟩ := mem_diagonalCandidate.1 hm
  obtain ⟨hA, hB⟩ := contains_step hax ha hb
  have hcorner := fun c => corner_iff (a := a) (c := c) hax hd he
  unfold clearanceAvailability
  simp only [hp]
  cases rule with
  | requireBothClear =>
    have hiff : CornerClear W cls .requireBothClear a
        ((a.step (diagonalAxes S).1 d).step (diagonalAxes S).2 e) ↔
        isPassable W cls (a.step (diagonalAxes S).1 d) = true ∧
          isPassable W cls (a.step (diagonalAxes S).2 e) = true := by
      constructor
      · intro h
        have h1 := (hcorner _).2 (Or.inl rfl)
        have h2 := (hcorner _).2 (Or.inr rfl)
        exact ⟨h _ h1.1 h1.2, h _ h2.1 h2.2⟩
      · rintro ⟨h1, h2⟩ c hac hcb
        rcases (hcorner c).1 ⟨hac, hcb⟩ with rfl | rfl
        · exact h1
        · exact h2
    rw [hiff, ← clearanceAt_eq_clear hA, ← clearanceAt_eq_clear hB]
    cases clearanceAt W cls (a.step (diagonalAxes S).1 d) <;>
      cases clearanceAt W cls (a.step (diagonalAxes S).2 e) <;> simp
  | requireOneClear =>
    have hiff : CornerClear W cls .requireOneClear a
        ((a.step (diagonalAxes S).1 d).step (diagonalAxes S).2 e) ↔
        isPassable W cls (a.step (diagonalAxes S).1 d) = true ∨
          isPassable W cls (a.step (diagonalAxes S).2 e) = true := by
      constructor
      · rintro ⟨c, hac, hcb, h⟩
        rcases (hcorner c).1 ⟨hac, hcb⟩ with rfl | rfl
        · exact Or.inl h
        · exact Or.inr h
      · rintro (h | h)
        · exact ⟨_, ((hcorner _).2 (Or.inl rfl)).1, ((hcorner _).2 (Or.inl rfl)).2, h⟩
        · exact ⟨_, ((hcorner _).2 (Or.inr rfl)).1, ((hcorner _).2 (Or.inr rfl)).2, h⟩
    rw [hiff, ← clearanceAt_eq_clear hA, ← clearanceAt_eq_clear hB]
    cases clearanceAt W cls (a.step (diagonalAxes S).1 d) <;>
      cases clearanceAt W cls (a.step (diagonalAxes S).2 e) <;> simp

/-- Regular steps are the candidates whose clearance is legal. -/
theorem regularStep_iff (ha : S.contains a = true) (hb : S.contains b = true) :
    RegularStep W cls a b m ↔ ∃ candidate ∈ forEachRegularCandidate S cls.stepPolicy a,
      candidate.dest = b ∧ candidate.multiplier = m ∧
        clearanceAvailability W cls candidate = .legal := by
  unfold RegularStep forEachRegularCandidate
  simp only [ha, Bool.not_true, Bool.false_eq_true, ↓reduceIte]
  have hvalid := cls.stepPolicy_valid
  cases hp : cls.stepPolicy with
  | defaultSteps =>
    have hcl : ∀ candidate, clearanceAvailability W cls candidate = .legal := fun candidate => by
      unfold clearanceAvailability; rw [hp]
    cases hl : S.lattice with
    | orthogonal =>
      simp only [mem_forEachOrthogonalFaceCandidate, hcl, and_true]
      constructor
      · rintro ⟨h, rfl⟩
        exact ⟨{ dest := b, multiplier := 1 }, ⟨hb, h, rfl⟩, rfl, rfl⟩
      · rintro ⟨candidate, ⟨-, h, hc⟩, rfl, rfl⟩
        exact ⟨h, by rw [hc]⟩
    | hexAxial =>
      have ha0 : a.z = 0 := get_eq_zero_of_size (r := .z) ha (S.lattice_valid hl).1
      simp only [mem_forEachHexCandidate, hcl, and_true, ha0, true_and]
      constructor
      · rintro ⟨h, rfl⟩
        exact ⟨{ dest := b, multiplier := 1 }, ⟨hb, h, rfl⟩, rfl, rfl⟩
      · rintro ⟨candidate, ⟨-, h, hc⟩, rfl, rfl⟩
        exact ⟨h, by rw [hc]⟩
  | diagonalSteps rule =>
    rw [hp] at hvalid
    simp only [mem_forEachDiagonalCandidate]
    constructor
    · rintro (⟨h, rfl⟩ | ⟨h, hclear, rfl⟩)
      · refine ⟨{ dest := b, multiplier := _ },
          Or.inl (mem_forEachOrthogonalFaceCandidate.2 ⟨hb, h, rfl⟩), rfl, rfl, ?_⟩
        exact clearanceAvailability_of_count rfl
      · obtain ⟨d, e, hd, he, rfl⟩ := (diagonalPair_iff hvalid.2 ha hb).1 h
        have hm := mem_diagonalCandidate.2 ⟨hb, rfl⟩
        exact ⟨_, Or.inr ⟨d, e, hd, he, hm⟩, rfl, rfl,
          (clearanceAvailability_diagonal hp ha hd he hm).2 hclear⟩
    · rintro ⟨candidate, h | ⟨d, e, hd, he, hm⟩, rfl, rfl, hclear⟩
      · obtain ⟨-, h, hc⟩ := mem_forEachOrthogonalFaceCandidate.1 h
        exact Or.inl ⟨h, by rw [hc]⟩
      · have hclear := (clearanceAvailability_diagonal hp ha hd he hm).1 hclear
        obtain ⟨-, rfl⟩ := mem_diagonalCandidate.1 hm
        exact Or.inr ⟨(diagonalPair_iff hvalid.2 ha hb).2 ⟨d, e, hd, he, rfl⟩, hclear, rfl⟩

/-- The probe reports the step: its target, its index, and its cost cut off at the
sentinel. -/
def TransitionProbe.Reports (S : Shape) (p : TransitionProbe) (b : Coord3) (k : ℕ) : Prop :=
  p.availability = .legal ∧ p.dest = b ∧ p.destIndex = S.tileKey b ∧
    p.cost = min k infiniteCost ∧ p.costOverflow = decide (infiniteCost ≤ k)

/-- **Every legal probe reports a legal step.** -/
theorem legalStep_of_mem_forEachForward (ha : S.contains a = true) {p : TransitionProbe}
    (hp : p ∈ forEachForward W cls prov a) (hl : p.availability = .legal) :
    ∃ k, LegalStep W cls prov a p.dest k ∧ p.Reports S p.dest k := by
  rcases List.mem_append.1 hp with hp | hp
  · obtain ⟨candidate, hm, he⟩ := List.mem_filterMap.1 hp
    have hd := (contains_of_mem_forEachRegularCandidate hm).2
    rw [emitCandidate_eq hd hd] at he
    split_ifs at he with h1 h2 h3 h4 <;> simp only [Option.some.injEq] at he <;> subst he
    · refine ⟨_, ⟨ha, h2, h4, Or.inl ⟨_, (regularStep_iff ha hd).2
        ⟨candidate, hm, rfl, rfl, hl⟩, rfl⟩⟩, hl, rfl, rfl, saturatingU32_eq_min _, rfl⟩
    · exact absurd hl (by simp [missingProbe])
  · obtain ⟨candidate, hm, he⟩ := List.mem_filterMap.1 hp
    by_cases hd : S.contains candidate.dest = true
    · rw [emitSpecialCandidate_eq hd hd] at he
      split_ifs at he with h1 h2 h3 <;> simp only [Option.some.injEq] at he <;> subst he
      · exact absurd hl (by simp [missingProbe])
      · simp only [not_or, Bool.not_eq_true, not_not] at h1 h3
        refine ⟨_, ⟨ha, h2, h3.1, Or.inr ⟨_, ⟨candidate, hm, rfl, h1.1, h3.2, rfl⟩, rfl⟩⟩,
          rfl, rfl, rfl, saturatingU32_eq_min _, rfl⟩
    · simp [emitSpecialCandidate, hd] at he

/-- The sink never receives a blocked probe. -/
theorem not_blocked_of_mem_forEachForward {p : TransitionProbe}
    (hp : p ∈ forEachForward W cls prov a) : p.availability ≠ .blocked := by
  rcases List.mem_append.1 hp with hp | hp
  · obtain ⟨candidate, hm, he⟩ := List.mem_filterMap.1 hp
    have hd := (contains_of_mem_forEachRegularCandidate hm).2
    rw [emitCandidate_eq hd hd] at he
    split_ifs at he with h1 h2 h3 h4 <;> simp only [Option.some.injEq] at he <;> subst he
    · exact h3
    · simp [missingProbe]
  · obtain ⟨candidate, hm, he⟩ := List.mem_filterMap.1 hp
    by_cases hd : S.contains candidate.dest = true
    · rw [emitSpecialCandidate_eq hd hd] at he
      split_ifs at he with h1 h2 h3 <;> simp only [Option.some.injEq] at he <;> subst he <;>
        simp [missingProbe]
    · simp [emitSpecialCandidate, hd] at he

/-- **Every legal step is reported by a legal probe.** -/
theorem mem_forEachForward_of_legalStep (h : LegalStep W cls prov a b k) :
    ∃ p ∈ forEachForward W cls prov a, p.Reports S b k := by
  obtain ⟨ha, hb, he, ⟨m, hm, rfl⟩ | ⟨_, ⟨candidate, hm, rfl, hmiss, hcost, rfl⟩, rfl⟩⟩ := h
  · have hcb := contains_of_isPassable hb
    have hres := resident_of_isPassable hb
    obtain ⟨candidate, hcand, rfl, rfl, hl⟩ := (regularStep_iff ha hcb).1 hm
    have hemit : emitCandidate W cls candidate candidate.dest = _ := emitCandidate_eq hcb hcb
    rw [if_neg (not_not.2 hres), if_neg (not_not.2 hb), if_neg (by rw [hl]; decide),
      if_neg (not_not.2 hres), if_neg he] at hemit
    exact ⟨_, List.mem_append_left _ (List.mem_filterMap.2 ⟨candidate, hcand, hemit⟩),
      hl, rfl, rfl, saturatingU32_eq_min _, rfl⟩
  · have hcb := contains_of_isPassable hb
    have hres := resident_of_isPassable hb
    have hemit : emitSpecialCandidate W cls candidate candidate.dest = _ :=
      emitSpecialCandidate_eq hcb hcb
    rw [if_neg (not_or.2 ⟨by simp [hmiss], not_not.2 hres⟩), if_neg (not_not.2 hb),
      if_neg (not_or.2 ⟨he, hcost⟩)] at hemit
    exact ⟨_, List.mem_append_right _ (List.mem_filterMap.2 ⟨candidate, hm, hemit⟩),
      rfl, rfl, rfl, saturatingU32_eq_min _, rfl⟩

end Probes

/-! ### Estimates -/

section Estimates

variable {S : Shape} {Tag : Type*} {W : World S Tag} (cls : MovementClass S Tag)
  (prov : Provider S Tag)

/-- Ticks of a diagonal walk that closes the distances `d` and `e` on two axes. -/
def octile (d e : ℕ) : ℕ :=
  min d e * StepPolicy.diagonalStepMultiplier + (max d e - min d e) * 128

/-- The exact estimate that `heuristic` cuts off at the sentinel. -/
def estimate (goal a : Coord3) : ℕ :=
  if !prov.isAdjacentTransitions then 0
  else match cls.stepPolicy with
    | .defaultSteps =>
      match S.lattice with
      | .hexAxial => hexDist a goal
      | .orthogonal => gridDist a goal
    | .diagonalSteps _ =>
      octile (a.get (diagonalAxes S).1 - goal.get (diagonalAxes S).1).natAbs
        (a.get (diagonalAxes S).2 - goal.get (diagonalAxes S).2).natAbs

variable {cls prov}

/-- The heuristic is the exact estimate cut off at the sentinel. -/
theorem heuristic_eq_min (a goal : Coord3) :
    heuristic cls prov a goal = min (estimate cls prov goal a) infiniteCost := by
  unfold heuristic estimate
  split_ifs
  · simp
  · cases hp : cls.stepPolicy with
    | defaultSteps =>
      cases S.lattice with
      | orthogonal => exact manhattan_eq_min a goal
      | hexAxial => exact saturatingU32_hexDistance a goal
    | diagonalSteps rule =>
      simp only [diagonalHeuristic, absDelta_eq, saturatingU32_eq_min, octile,
        StepPolicy.costScale]

@[simp] theorem estimate_self (goal : Coord3) : estimate cls prov goal goal = 0 := by
  unfold estimate
  split_ifs
  · rfl
  · cases cls.stepPolicy with
    | defaultSteps => cases S.lattice <;> simp
    | diagonalSteps rule => simp [octile]

theorem octile_le_face {d e d' e' i j : ℕ} (hd : d ≤ d' + i) (he : e ≤ e' + j)
    (h : i + j ≤ 1) : octile d e ≤ 128 + octile d' e' := by
  unfold octile StepPolicy.diagonalStepMultiplier
  omega

theorem octile_le_diagonal {d e d' e' i j : ℕ} (hd : d ≤ d' + i) (he : e ≤ e' + j)
    (hi : i ≤ 1) (hj : j ≤ 1) : octile d e ≤ 181 + octile d' e' := by
  unfold octile StepPolicy.diagonalStepMultiplier
  omega

theorem hexDist_le_of_hexAdjacent {a b : Coord3} (h : HexAdjacent a b) (goal : Coord3) :
    hexDist a goal ≤ 1 + hexDist b goal := by
  unfold hexDist
  rcases hexAdjacent_iff.1 h with rfl | rfl | rfl | rfl | rfl | rfl <;> simp only <;> omega

theorem natAbs_get_le (a b goal : Coord3) (p : Axis) : (a.get p - goal.get p).natAbs ≤
    (b.get p - goal.get p).natAbs + (a.get p - b.get p).natAbs := by
  omega

theorem natAbs_get_add_le {a b : Coord3} {p q : Axis} (h : p ≠ q) :
    (a.get p - b.get p).natAbs + (a.get q - b.get q).natAbs ≤ gridDist a b := by
  unfold gridDist
  cases p <;> cases q <;> first | exact absurd rfl h | (simp only [Coord3.get]; omega)

theorem DiagonalPair.natAbs_get_le {a b : Coord3} (h : DiagonalPair a b) (p : Axis) :
    (a.get p - b.get p).natAbs ≤ 1 := by
  obtain ⟨-, hx, hy, hz⟩ := h
  cases p
  · exact hx
  · exact hy
  · exact hz

theorem diagonalAxes_ne (S : Shape) : (diagonalAxes S).1 ≠ (diagonalAxes S).2 := by
  unfold diagonalAxes
  split_ifs <;> simp

/-- The geometry of a step, which does not depend on its direction, and its ticks per unit of entry
cost. -/
def Apart (policy : StepPolicy) (a b : Coord3) (multiplier : ℕ) : Prop :=
  match policy, S.lattice with
  | .defaultSteps, .orthogonal => FaceAdjacent a b ∧ multiplier = 1
  | .defaultSteps, .hexAxial => HexAdjacent a b ∧ multiplier = 1
  | .diagonalSteps _, _ => (FaceAdjacent a b ∧ multiplier = policy.costScale) ∨
      (DiagonalPair a b ∧ multiplier = StepPolicy.diagonalStepMultiplier)

variable {a b : Coord3} {m : ℕ}

theorem RegularStep.apart (h : RegularStep W cls a b m) :
    Apart (S := S) cls.stepPolicy a b m := by
  unfold RegularStep at h
  unfold Apart
  cases hp : cls.stepPolicy with
  | defaultSteps =>
    rw [hp] at h
    cases hl : S.lattice <;> rw [hl] at h <;> exact h
  | diagonalSteps rule =>
    rw [hp] at h
    exact h.imp_right fun h => ⟨h.1, h.2.2⟩

theorem Apart.symm {policy : StepPolicy} (h : Apart (S := S) policy a b m) :
    Apart (S := S) policy b a m := by
  have hface : FaceAdjacent a b → FaceAdjacent b a := fun h => by
    rwa [FaceAdjacent, gridDist_comm]
  unfold Apart at h ⊢
  cases policy with
  | defaultSteps =>
    cases hl : S.lattice with
    | orthogonal =>
      rw [hl] at h
      exact h.imp_left hface
    | hexAxial =>
      rw [hl] at h
      refine h.imp_left fun h => ⟨?_, h.2.symm⟩
      have := h.1
      unfold hexDist at this ⊢
      omega
  | diagonalSteps rule =>
    refine h.imp (And.imp_left hface) (And.imp_left fun h => ?_)
    obtain ⟨hd, hx, hy, hz⟩ := h
    rw [gridDist_comm] at hd
    exact ⟨hd, by omega, by omega, by omega⟩

/-- A candidate is a step away. -/
theorem apart_of_mem_forEachRegularCandidate {candidate : RegularTransitionCandidate}
    (h : candidate ∈ forEachRegularCandidate S cls.stepPolicy a) :
    Apart (S := S) cls.stepPolicy a candidate.dest candidate.multiplier := by
  obtain ⟨ha, hd⟩ := contains_of_mem_forEachRegularCandidate h
  have hvalid := cls.stepPolicy_valid
  unfold forEachRegularCandidate at h
  rw [if_neg (by simp [ha])] at h
  unfold Apart
  cases hp : cls.stepPolicy with
  | defaultSteps =>
    rw [hp] at h
    cases hl : S.lattice with
    | orthogonal =>
      rw [hl] at h
      obtain ⟨-, hface, hc⟩ := mem_forEachOrthogonalFaceCandidate.1 h
      exact ⟨hface, by rw [hc]⟩
    | hexAxial =>
      rw [hl] at h
      obtain ⟨-, -, hhex, hc⟩ := mem_forEachHexCandidate.1 h
      exact ⟨hhex, by rw [hc]⟩
  | diagonalSteps rule =>
    rw [hp] at h hvalid
    rcases mem_forEachDiagonalCandidate.1 h with h | ⟨d, e, hsd, hse, h⟩
    · obtain ⟨-, hface, hc⟩ := mem_forEachOrthogonalFaceCandidate.1 h
      exact Or.inl ⟨hface, by rw [hc]⟩
    · obtain ⟨-, hc⟩ := mem_diagonalCandidate.1 h
      refine Or.inr ⟨(diagonalPair_iff hvalid.2 ha hd).2 ⟨d, e, hsd, hse, ?_⟩, ?_⟩ <;> rw [hc]

/-- The estimate drops by at most the ticks of a step. -/
theorem estimate_le_of_apart (h : Apart (S := S) cls.stepPolicy a b m) (goal : Coord3) :
    estimate cls prov goal a ≤ m + estimate cls prov goal b := by
  unfold estimate
  split_ifs with hadj
  · exact Nat.zero_le _
  · unfold Apart at h
    cases hp : cls.stepPolicy with
    | defaultSteps =>
      rw [hp] at h
      cases hl : S.lattice with
      | orthogonal =>
        rw [hl] at h
        obtain ⟨hab, rfl⟩ := h
        have hab : gridDist a b = 1 := hab
        have := gridDist_triangle a b goal
        simp only
        omega
      | hexAxial =>
        rw [hl] at h
        obtain ⟨hab, rfl⟩ := h
        exact hexDist_le_of_hexAdjacent hab goal
    | diagonalSteps rule =>
      rw [hp] at h
      have h1 := natAbs_get_le a b goal (diagonalAxes S).1
      have h2 := natAbs_get_le a b goal (diagonalAxes S).2
      rcases h with ⟨hab, rfl⟩ | ⟨hab, rfl⟩
      · have hab : gridDist a b = 1 := hab
        have h3 := @natAbs_get_add_le a b _ _ (diagonalAxes_ne S)
        exact octile_le_face h1 h2 (by omega)
      · exact octile_le_diagonal h1 h2 (hab.natAbs_get_le _) (hab.natAbs_get_le _)

/-- **The estimate is consistent**: along a legal step it drops by at most the step's cost. -/
theorem consistent_estimate (goal : Coord3) :
    Consistent (LegalStep W cls prov) (estimate cls prov goal) := by
  intro a b k h
  by_cases hadj : prov.isAdjacentTransitions = true
  · obtain ⟨-, -, he, ⟨m, hm, rfl⟩ | ⟨_, ⟨_, hmem, -⟩, -⟩⟩ := h
    · have hk : m ≤ entryCostAt W cls b * m := Nat.le_mul_of_pos_left _ (Nat.pos_of_ne_zero he)
      exact (estimate_le_of_apart hm.apart goal).trans (Nat.add_le_add_right hk _)
    · rw [prov.adjacent_forward hadj] at hmem
      exact absurd hmem List.not_mem_nil
  · simp [estimate, hadj]

end Estimates

end Tess
