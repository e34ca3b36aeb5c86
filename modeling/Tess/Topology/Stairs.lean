import Tess.Topology.Completion

/-!
# Stairs

`StairTransitions`, the built-in provider: a field holds the direction of a stair whose foot is
the tile and whose landing is one step in that direction and one level up.  Each stair gives an
edge up from its foot and an edge down from its landing.

* `tryLanding` : the landing of the stair at a foot, if there is one;
* `stairTransitions` : the provider;
* `reportsMissing_stairTransitions` : **a foot of a missing chunk is reported**, so no
  completion adds a stair that the probes keep quiet about.
-/

namespace Tess

section Definitions

variable {S : Shape} {Tag : Type*} (tag : Tag) (W : World S Tag)

/-- `StairDirection`: the horizontal step a field value stands for. -/
def stairDirection (value : ℤ) : Option (ℤ × ℤ) :=
  if value = 1 then some (1, 0)
  else if value = 2 then some (-1, 0)
  else if value = 3 then some (0, 1)
  else if value = 4 then some (0, -1)
  else none

/-- Chunk boundaries between two tiles. -/
def chunkCrossings (S : Shape) (a b : Coord3) : ℕ :=
  (if (S.chunkCoord a).x ≠ (S.chunkCoord b).x then 1 else 0) +
    (if (S.chunkCoord a).y ≠ (S.chunkCoord b).y then 1 else 0) +
    (if (S.chunkCoord a).z ≠ (S.chunkCoord b).z then 1 else 0)

/-- `StairTransitions::try_landing`. -/
def tryLanding (foot : Coord3) : Option Coord3 :=
  if !S.contains foot then none
  else match W.tryChunk (W.resolve foot).chunkKey with
    | none => none
    | some page =>
      match stairDirection (page.field tag (W.resolve foot).localTileId) with
      | none => none
      | some (dx, dy) =>
        let landing : Coord3 := ⟨foot.x + dx, foot.y + dy, foot.z + 1⟩
        if !S.contains landing then none
        else if chunkCrossings S foot landing ≤ 1 then some landing else none

/-- `probe_foot`: the edge down from a tile to one possible foot. -/
def probeFoot (c foot : Coord3) : List SpecialTransitionCandidate :=
  if !S.contains foot then []
  else match W.tryChunk (W.resolve foot).chunkKey with
    | none => [{ dest := foot, missingTopology := true }]
    | some _ => if tryLanding tag W foot = some c then [{ dest := foot }] else []

/-- `StairTransitions::for_each_from`. -/
def stairsOf (c : Coord3) : List SpecialTransitionCandidate :=
  if !S.contains c then []
  else
    (match tryLanding tag W c with
      | none => []
      | some landing => [{ dest := landing }]) ++
    if c.z = 0 then []
    else probeFoot tag W c ⟨c.x - 1, c.y, c.z - 1⟩ ++ probeFoot tag W c ⟨c.x + 1, c.y, c.z - 1⟩ ++
      probeFoot tag W c ⟨c.x, c.y - 1, c.z - 1⟩ ++ probeFoot tag W c ⟨c.x, c.y + 1, c.z - 1⟩

/-- `StairTransitions`. -/
def stairTransitions (S : Shape) {Tag : Type*} (tag : Tag) : Provider S Tag where
  isAdjacentTransitions := false
  forEachForward := stairsOf tag
  forEachReverse := stairsOf tag
  adjacent_forward h := absurd h (by decide)

end Definitions

variable {S : Shape} {Tag : Type*} {tag : Tag} {W W' : World S Tag} {c foot : Coord3}
  {candidate : SpecialTransitionCandidate}

/-- A foot whose chunk is present has the same landing in every completion. -/
theorem tryLanding_of_completes (h : W'.Completes W) {page : ChunkPage Tag}
    (hp : W.tryChunk (W.resolve foot).chunkKey = some page) :
    tryLanding tag W' foot = tryLanding tag W foot := by
  have hp' : W'.tryChunk (W'.resolve foot).chunkKey = some page := h.2 _ _ hp
  unfold tryLanding
  rw [hp, hp']
  rfl

/-- A landing is known where its foot's chunk is present. -/
theorem tryLanding_of_completes_some (h : W'.Completes W) {landing : Coord3}
    (hl : tryLanding tag W foot = some landing) : tryLanding tag W' foot = some landing := by
  cases hp : W.tryChunk (W.resolve foot).chunkKey with
  | none => simp [tryLanding, hp] at hl
  | some page => rw [tryLanding_of_completes h hp, hl]

/-- A foot whose chunk is present is probed alike in every completion. -/
theorem probeFoot_of_completes (h : W'.Completes W) {page : ChunkPage Tag}
    (hp : W.tryChunk (W.resolve foot).chunkKey = some page) :
    probeFoot tag W' c foot = probeFoot tag W c foot := by
  have hp' : W'.tryChunk (W'.resolve foot).chunkKey = some page := h.2 _ _ hp
  unfold probeFoot
  rw [hp, hp', tryLanding_of_completes h hp]

/-- A foot whose chunk is missing is announced. -/
theorem probeFoot_of_missing (hc : S.contains foot = true)
    (hp : W.tryChunk (W.resolve foot).chunkKey = none) :
    probeFoot tag W c foot = [{ dest := foot, missingTopology := true }] := by
  simp [probeFoot, hc, hp]

theorem contains_of_mem_probeFoot (h : candidate ∈ probeFoot tag W c foot) :
    S.contains foot = true := by
  by_contra hc
  simp [probeFoot, hc] at h

theorem probeFoot_persists (h : W'.Completes W) (hm : candidate ∈ probeFoot tag W c foot)
    (hmiss : candidate.missingTopology = false) : candidate ∈ probeFoot tag W' c foot := by
  cases hp : W.tryChunk (W.resolve foot).chunkKey with
  | none =>
    rw [probeFoot_of_missing (contains_of_mem_probeFoot hm) hp] at hm
    rw [List.mem_singleton.1 hm] at hmiss
    cases hmiss
  | some page => rwa [probeFoot_of_completes h hp]

/-- A stair down that a completion adds is announced. -/
theorem probeFoot_announces (h : W'.Completes W) (hm : candidate ∈ probeFoot tag W' c foot) :
    candidate ∈ probeFoot tag W c foot ∨ ∃ hidden ∈ probeFoot tag W c foot,
      hidden.missingTopology = true ∧ S.contains hidden.dest = true := by
  cases hp : W.tryChunk (W.resolve foot).chunkKey with
  | none =>
    have hc := contains_of_mem_probeFoot hm
    rw [probeFoot_of_missing hc hp]
    exact Or.inr ⟨_, List.mem_singleton.2 rfl, rfl, hc⟩
  | some page => exact Or.inl (probeFoot_of_completes h hp ▸ hm)

/-- **Stairs report missing feet.** -/
theorem reportsMissing_stairTransitions : (stairTransitions S tag).ReportsMissing := by
  constructor
  · intro W W' u candidate h hm hmiss
    simp only [stairTransitions, stairsOf] at hm ⊢
    split_ifs at hm ⊢ with hc hz
    · exact hm
    · rw [List.append_nil] at hm ⊢
      cases hl : tryLanding tag W u with
      | none => simp [hl] at hm
      | some landing => simpa [hl, tryLanding_of_completes_some h hl] using hm
    · simp only [List.mem_append] at hm ⊢
      rcases hm with hm | ((hm | hm) | hm) | hm
      · left
        cases hl : tryLanding tag W u with
        | none => simp [hl] at hm
        | some landing => simpa [hl, tryLanding_of_completes_some h hl] using hm
      all_goals have := probeFoot_persists h hm hmiss; simp [this]
  · intro W W' u candidate h hu hm _
    have hland : tryLanding tag W' u = tryLanding tag W u := by
      cases hp : W.tryChunk (W.resolve u).chunkKey with
      | none => exact absurd hu ((tryChunk_resolve_eq_none hu.contains).1 hp)
      | some page => exact tryLanding_of_completes h hp
    simp only [stairTransitions, stairsOf, hland] at hm ⊢
    split_ifs at hm ⊢ with hc hz
    · exact Or.inl hm
    · exact Or.inl hm
    · simp only [List.mem_append] at hm ⊢
      rcases hm with hm | ((hm | hm) | hm) | hm
      · exact Or.inl (Or.inl hm)
      all_goals
        rcases probeFoot_announces h hm with h1 | ⟨hidden, h1, h2⟩
        · exact Or.inl (by simp [h1])
        · exact Or.inr ⟨hidden, by simp [h1], h2⟩

end Tess
