import Tess.Navigation.Domain
import Tess.Path.Weighted
import Tess.Topology.Duality

/-!
# Grids as navigation domains

A domain over the tiles of a world: nodes are packed tile keys, edges are the regular candidates
of a tile, seen from either end.

* `NavigationGrid`, `NavigationGrid.toDomain` : the grid behind the indexed interface;
* `gridEdges_exact` : **both enumerations of a grid list the same edges**, each with an identity of
  its own, and the legal ones are the legal steps of the movement model.
-/

namespace Tess

/-! ### The domain -/

/-- `NavigationGrid`. -/
structure NavigationGrid (S : Shape) (Tag : Type*) where
  /-- Retained world, if there is one. -/
  world : Option (World S Tag)
  /-- Movement class. -/
  cls : MovementClass S Tag
  /-- Factor of all costs. -/
  scale : ℕ
  /-- Owned veto; it receives the ends of the original edge. -/
  filter : World S Tag → Coord3 → Coord3 → Bool := fun _ _ _ => true

namespace NavigationGrid

variable {S : Shape} {Tag : Type*} (G : NavigationGrid S Tag)

/-- `contains`; a node is a 64-bit value. -/
def contains (node : ℕ) : Bool :=
  G.world.isSome && decide (node < 2 ^ 64) &&
    (decide (64 ≤ S.tileKeyBits) || decide (node < 2 ^ S.tileKeyBits)) &&
    (decide (S.keyChunk node < S.chunkCount) && decide (S.keyLocal node < S.localTileCount))

/-- `availability`. -/
def availability (node : ℕ) : NavigationAvailability :=
  match G.world with
  | none => .invalid
  | some W =>
    if !G.contains node || G.scale = 0 then .invalid
    else
      let resolved := W.resolve (S.coord node)
      match W.tryChunk resolved.chunkKey with
      | none => .unavailable
      | some page =>
        if G.cls.passable page resolved.localTileId &&
            G.cls.entryCost page resolved.localTileId != 0 then .legal else .blocked

/-- The regular candidates of a node. -/
def candidates (node : ℕ) : List RegularTransitionCandidate :=
  forEachRegularCandidate S G.cls.stepPolicy (S.coord node)

/-- `degree`. -/
def degree (node : ℕ) : ℕ := if !G.contains node then 0 else (G.candidates node).length

/-- The second scan of `edge`: the ordinal and the multiplier of the candidate that leads to the
target. -/
def forwardOrdinal (source target : Coord3) : ℕ × ℕ :=
  (forEachRegularCandidate S G.cls.stepPolicy source).zipIdx.foldl
    (fun found x => if x.1.dest = target then (x.2, x.1.multiplier) else found) (0, 1)

/-- What `edge` says of two neighboring tiles, in the forward direction. -/
def edgeBetween (W : World S Tag) (source target : Coord3) : NavigationLocalEdge :=
  let found := G.forwardOrdinal source target
  let result : NavigationLocalEdge :=
    { fromNode := S.tileKey source
      toNode := S.tileKey target
      id := found.1
      availability := .blocked }
  if G.availability (S.tileKey source) ≠ .legal then
    { result with availability := G.availability (S.tileKey source) }
  -- the veto is asked before the target is probed
  else if !G.filter W source target then result
  else if G.availability (S.tileKey target) ≠ .legal then
    { result with availability := G.availability (S.tileKey target) }
  else match regularAvailability W G.cls source target with
    | .blocked => result
    | .missingTopology => { result with availability := .unavailable }
    | .legal =>
      let resolved := W.resolve target
      match W.tryChunk resolved.chunkKey with
      | none => result -- the page of a legal target is resident
      | some page =>
        let entry := G.cls.entryCost page resolved.localTileId
        let cost := entry * found.2
        -- the cost must stay below both sentinels, before and after it is scaled
        if entry ≥ infiniteCost then { result with availability := .overflow }
        else if cost ≥ infiniteCost ∨ cost > (navigationInfinity - 1) / G.scale then
          { result with availability := .overflow }
        else { result with cost := cost * G.scale, availability := .legal }

/-- `edge`. -/
def edge (node cursor : ℕ) (reverse : Bool) : NavigationLocalEdge :=
  match G.world with
  | none => { availability := .invalid }
  | some W =>
    if !G.contains node then { availability := .invalid }
    else match (G.candidates node)[cursor]? with
      | none => { availability := .invalid }
      | some other =>
        if reverse then G.edgeBetween W other.dest (S.coord node)
        else G.edgeBetween W (S.coord node) other.dest

/-- `complete`. -/
def complete : Bool :=
  match G.world with
  | none => false
  | some W =>
    G.scale != 0 && (decide W.IsDense ||
      decide (∀ key < S.chunkCount, (W.residentSlot key).isSome = true))

/-- The grid behind the interface. -/
def toDomain (identity : ℕ) : NavigationDomain where
  identity
  valid := G.world.isSome && G.scale != 0
  contains := G.contains
  availability := G.availability
  degree node _ := G.degree node
  edge := G.edge
  complete := G.complete

variable {G} {W : World S Tag} {node : ℕ} {a b c : Coord3}

/-! ### Nodes -/

/-- **The nodes of a grid** are the packed keys of the tiles. -/
theorem contains_iff (hW : G.world = some W) : G.contains node = true ↔ node < S.tileCount := by
  have hbits := G.cls.tileKeyBits_le
  have hcount : S.tileCount ≤ 2 ^ 64 :=
    Shape.tileCount_le_two_pow.trans (Nat.pow_le_pow_right (by decide) hbits)
  unfold contains
  simp only [hW, Option.isSome_some, Bool.true_and, Bool.and_eq_true, Bool.or_eq_true,
    decide_eq_true_eq]
  constructor
  · rintro ⟨⟨h64, hlt⟩, hchunk, -⟩
    have hpow : node < 2 ^ S.tileKeyBits := by
      rcases hlt with h | h
      · exact h64.trans_le (Nat.pow_le_pow_right (by decide) h)
      · exact h
    unfold Shape.keyChunk at hchunk
    split_ifs at hchunk with hb
    · rw [Shape.tileCount, Shape.chunkCount_eq_one_of_chunkBits hb, Nat.one_mul,
        Shape.localTileCount_eq_two_pow]
      rwa [Shape.tileKeyBits, hb, Nat.add_zero] at hpow
    · rw [Nat.shiftRight_eq_div_pow, ← Shape.localTileCount_eq_two_pow] at hchunk
      rw [Shape.tileCount]
      exact Nat.lt_mul_of_div_lt hchunk Shape.localTileCount_pos
  · intro h
    exact ⟨⟨h.trans_le hcount, Or.inr (h.trans_le Shape.tileCount_le_two_pow)⟩,
      Shape.keyChunk_lt h, Shape.keyLocal_lt node⟩

theorem contains_tileKey (hW : G.world = some W) (hc : S.contains c = true) :
    G.contains (S.tileKey c) = true := (contains_iff hW).2 (Shape.tileKey_lt hc)

/-- **A node is legal** when its tile can be entered. -/
theorem availability_eq_legal (hW : G.world = some W) (hs : G.scale ≠ 0)
    (hc : S.contains c = true) :
    G.availability (S.tileKey c) = .legal ↔ enterable W G.cls c = true := by
  unfold availability
  rw [hW]
  simp only [contains_tileKey hW hc, hs, Shape.coord_tileKey hc]
  rw [enterable, isPassable_eq, entryCostAt, World.tileAt_of_contains hc]
  cases W.tryChunk (W.resolve c).chunkKey with
  | none => simp
  | some page =>
    simp only [Option.map_some, Bool.not_true, Bool.false_or, decide_false, Bool.false_eq_true,
      if_false]
    split_ifs with h
    · exact iff_of_true rfl h
    · exact iff_of_false (by decide) h

/-! ### Edges -/

/-- The second scan finds the candidate that the first one took. -/
theorem forwardOrdinal_eq {i : ℕ} {candidate : RegularTransitionCandidate}
    (h : (forEachRegularCandidate S G.cls.stepPolicy a)[i]? = some candidate) :
    G.forwardOrdinal a candidate.dest = (i, candidate.multiplier) := by
  have hmap : ((forEachRegularCandidate S G.cls.stepPolicy a).zipIdx.map fun x => x.1.dest) =
      (forEachRegularCandidate S G.cls.stepPolicy a).map (·.dest) := by
    conv_rhs => rw [← List.zipIdx_map_fst 0 (forEachRegularCandidate S G.cls.stepPolicy a),
      List.map_map]
    rfl
  have hnodup : ((forEachRegularCandidate S G.cls.stepPolicy a).zipIdx.map
      fun x => x.1.dest).Nodup := by
    rw [hmap]
    exact nodup_forEachRegularCandidate _ _
  exact foldl_of_mem hnodup (List.mem_zipIdx_iff_getElem?.2 h : (candidate, i) ∈ _)

/-- The ends and the identity of an edge do not depend on whether it can be taken. -/
theorem edgeBetween_ends : (G.edgeBetween W a b).fromNode = S.tileKey a ∧
    (G.edgeBetween W a b).toNode = S.tileKey b ∧
      (G.edgeBetween W a b).id = (G.forwardOrdinal a b).1 := by
  unfold edgeBetween
  dsimp only
  by_cases h1 : G.availability (S.tileKey a) ≠ .legal
  · rw [if_pos h1]
    exact ⟨rfl, rfl, rfl⟩
  rw [if_neg h1]
  by_cases h2 : (!G.filter W a b) = true
  · rw [if_pos h2]
    exact ⟨rfl, rfl, rfl⟩
  rw [if_neg h2]
  by_cases h3 : G.availability (S.tileKey b) ≠ .legal
  · rw [if_pos h3]
    exact ⟨rfl, rfl, rfl⟩
  rw [if_neg h3]
  cases regularAvailability W G.cls a b with
  | blocked => exact ⟨rfl, rfl, rfl⟩
  | missingTopology => exact ⟨rfl, rfl, rfl⟩
  | legal =>
    dsimp only
    cases W.tryChunk (W.resolve b).chunkKey with
    | none => exact ⟨rfl, rfl, rfl⟩
    | some page =>
      dsimp only
      split_ifs
      · exact ⟨rfl, rfl, rfl⟩
      · exact ⟨rfl, rfl, rfl⟩
      · exact ⟨rfl, rfl, rfl⟩

/-- **The edges of a node**, in either direction. -/
theorem mem_edges (hW : G.world = some W) (hn : G.contains node = true) {identity : ℕ}
    {reverse : Bool} {e : NavigationLocalEdge} :
    e ∈ (G.toDomain identity).edges node reverse ↔ ∃ candidate ∈ G.candidates node,
      e = if reverse then G.edgeBetween W candidate.dest (S.coord node)
        else G.edgeBetween W (S.coord node) candidate.dest := by
  have hdeg : (G.toDomain identity).degree node reverse = (G.candidates node).length := by
    show G.degree node = _
    rw [degree, hn]
    rfl
  have hedge {i : ℕ} {candidate : RegularTransitionCandidate}
      (h : (G.candidates node)[i]? = some candidate) : (G.toDomain identity).edge node i reverse =
        if reverse then G.edgeBetween W candidate.dest (S.coord node)
          else G.edgeBetween W (S.coord node) candidate.dest := by
    show G.edge node i reverse = _
    simp only [edge, hW, hn, h, Bool.not_true, Bool.false_eq_true, if_false]
  simp only [NavigationDomain.edges, hdeg, List.mem_map, List.mem_range]
  constructor
  · rintro ⟨i, hi, rfl⟩
    have hget := List.getElem?_eq_getElem hi
    exact ⟨_, List.getElem_mem hi, hedge hget⟩
  · rintro ⟨candidate, hm, rfl⟩
    obtain ⟨i, hi, rfl⟩ := List.mem_iff_getElem.1 hm
    exact ⟨i, hi, hedge (List.getElem?_eq_getElem hi)⟩

/-- **A grid is mirrored.** -/
theorem mirrored (G : NavigationGrid S Tag) (identity : ℕ) : (G.toDomain identity).Mirrored := by
  cases hW : G.world with
  | none =>
    have hno (node : ℕ) : ¬ G.contains node = true := by simp [contains, hW]
    exact ⟨fun node hn => absurd hn (hno node), fun node hn => absurd hn (hno node)⟩
  | some W =>
    have hcoord {node : ℕ} (hn : G.contains node = true) :
        S.tileKey (S.coord node) = node ∧ S.contains (S.coord node) = true :=
      ⟨Shape.tileKey_coord ((contains_iff hW).1 hn), Shape.contains_coord ((contains_iff hW).1 hn)⟩
    refine ⟨fun node hn e he hfrom hto => ?_, fun node hn e he hto hfrom => ?_⟩
    · obtain ⟨candidate, hm, rfl⟩ := (mem_edges hW hn).1 he
      have hd := (contains_of_mem_forEachRegularCandidate hm).2
      simp only [Bool.false_eq_true, if_false] at hto ⊢
      rw [edgeBetween_ends.2.1] at hto ⊢
      refine (mem_edges hW hto).2 ⟨candidate.reversed (S.coord node), ?_, ?_⟩
      · rw [candidates, Shape.coord_tileKey hd]
        exact reversed_mem hm
      · rw [if_pos rfl, Shape.coord_tileKey hd]
        rfl
    · obtain ⟨candidate, hm, rfl⟩ := (mem_edges hW hn).1 he
      have hd := (contains_of_mem_forEachRegularCandidate hm).2
      simp only [if_true] at hfrom ⊢
      rw [edgeBetween_ends.1] at hfrom ⊢
      refine (mem_edges hW hfrom).2 ⟨candidate.reversed (S.coord node), ?_, ?_⟩
      · rw [candidates, Shape.coord_tileKey hd]
        exact reversed_mem hm
      · simp only [Bool.false_eq_true, if_false, Shape.coord_tileKey hd]
        rfl

/-- A legal step of the regular movement is the clearance of its candidate. -/
theorem legalStep_iff_of_candidate {candidate : RegularTransitionCandidate} {k : ℕ}
    (h : candidate ∈ forEachRegularCandidate S G.cls.stepPolicy a) :
    LegalStep W G.cls (adjacentTransitions S Tag) a candidate.dest k ↔
      enterable W G.cls candidate.dest = true ∧
        clearanceAvailability W G.cls candidate = .legal ∧
          k = entryCostAt W G.cls candidate.dest * candidate.multiplier := by
  obtain ⟨ha, hd⟩ := contains_of_mem_forEachRegularCandidate h
  have hspecial (c : ℕ) : ¬ SpecialStep W (adjacentTransitions S Tag) a candidate.dest c := by
    rintro ⟨x, hx, -⟩
    exact absurd hx List.not_mem_nil
  unfold LegalStep
  rw [enterable_iff]
  simp only [hspecial, false_and, exists_false, or_false, ha, true_and, and_assoc,
    regularStep_iff ha hd]
  refine and_congr_right fun _ => and_congr_right fun _ => ?_
  constructor
  · rintro ⟨m, ⟨other, hm, hdest, rfl, hclear⟩, rfl⟩
    obtain rfl : other = candidate := by
      obtain ⟨i, hi, rfl⟩ := List.mem_iff_getElem.1 hm
      obtain ⟨j, hj, rfl⟩ := List.mem_iff_getElem.1 h
      have hnodup := nodup_forEachRegularCandidate (S := S) G.cls.stepPolicy a
      have hi' : i < ((forEachRegularCandidate S G.cls.stepPolicy a).map (·.dest)).length := by
        rwa [List.length_map]
      have hj' : j < ((forEachRegularCandidate S G.cls.stepPolicy a).map (·.dest)).length := by
        rwa [List.length_map]
      have hij : i = j := by
        refine (@List.Nodup.getElem_inj_iff _ _ hnodup i hi' j hj').1 ?_
        rw [List.getElem_map, List.getElem_map]
        exact hdest
      subst hij
      rfl
    exact ⟨hclear, rfl⟩
  · rintro ⟨hclear, rfl⟩
    exact ⟨_, ⟨candidate, h, rfl, rfl, hclear⟩, rfl⟩

/-- The multiplier of a candidate is positive. -/
theorem multiplier_pos {candidate : RegularTransitionCandidate}
    (h : candidate ∈ forEachRegularCandidate S G.cls.stepPolicy a)
    (hclear : clearanceAvailability W G.cls candidate = .legal) : 0 < candidate.multiplier := by
  obtain ⟨ha, hd⟩ := contains_of_mem_forEachRegularCandidate h
  exact ((regularStep_iff ha hd).2 ⟨candidate, h, rfl, rfl, hclear⟩).pos

/-- **The legal edges of a grid** are the legal steps whose cost fits, between tiles that can be
entered, unless the veto refuses them. -/
theorem edgeBetween_legal (hW : G.world = some W) (hs : G.scale ≠ 0)
    {candidate : RegularTransitionCandidate}
    (h : candidate ∈ forEachRegularCandidate S G.cls.stepPolicy a) {C : ℕ} :
    ((G.edgeBetween W a candidate.dest).availability = .legal ∧
        (G.edgeBetween W a candidate.dest).cost = C) ↔
      enterable W G.cls a = true ∧ G.filter W a candidate.dest = true ∧
        ∃ k, LegalStep W G.cls (adjacentTransitions S Tag) a candidate.dest k ∧
          k < infiniteCost ∧ k * G.scale < navigationInfinity ∧ C = k * G.scale := by
  obtain ⟨ha, hd⟩ := contains_of_mem_forEachRegularCandidate h
  simp only [legalStep_iff_of_candidate h]
  have hfound : (G.forwardOrdinal a candidate.dest).2 = candidate.multiplier := by
    obtain ⟨i, hi, hget⟩ := List.mem_iff_getElem.1 h
    rw [forwardOrdinal_eq (i := i) (by rw [List.getElem?_eq_getElem hi, hget])]
  have hclear : regularAvailability W G.cls a candidate.dest =
      clearanceAvailability W G.cls candidate := regularAvailability_of_mem h
  unfold edgeBetween
  dsimp only
  rw [hfound, hclear]
  by_cases h1 : G.availability (S.tileKey a) ≠ .legal
  · rw [if_pos h1]
    refine iff_of_false (fun hl => h1 hl.1) fun hr => ?_
    exact h1 ((availability_eq_legal hW hs ha).2 hr.1)
  rw [if_neg h1]
  have h1 := (availability_eq_legal hW hs ha).1 (not_not.1 h1)
  by_cases h2 : (!G.filter W a candidate.dest) = true
  · rw [if_pos h2]
    refine iff_of_false (fun hl => by cases hl.1) fun hr => ?_
    rw [hr.2.1] at h2
    cases h2
  rw [if_neg h2]
  rw [Bool.not_eq_true', Bool.not_eq_false] at h2
  by_cases h3 : G.availability (S.tileKey candidate.dest) ≠ .legal
  · rw [if_pos h3]
    refine iff_of_false (fun hl => h3 hl.1) fun hr => ?_
    obtain ⟨k, ⟨he, -⟩, -⟩ := hr.2.2
    exact h3 ((availability_eq_legal hW hs hd).2 he)
  rw [if_neg h3]
  have h3 := (availability_eq_legal hW hs hd).1 (not_not.1 h3)
  cases hav : clearanceAvailability W G.cls candidate with
  | blocked =>
    refine iff_of_false (fun hl => by cases hl.1) ?_
    rintro ⟨-, -, k, ⟨-, hno, -⟩, -⟩
    cases hno
  | missingTopology =>
    refine iff_of_false (fun hl => by cases hl.1) ?_
    rintro ⟨-, -, k, ⟨-, hno, -⟩, -⟩
    cases hno
  | legal =>
    have hpos := multiplier_pos h hav
    have htile : ∃ page, W.tryChunk (W.resolve candidate.dest).chunkKey = some page ∧
        entryCostAt W G.cls candidate.dest =
          G.cls.entryCost page (W.resolve candidate.dest).localTileId := by
      have hres := resident_of_isPassable (enterable_iff.1 h3).1
      cases hpage : W.tryChunk (W.resolve candidate.dest).chunkKey with
      | none => exact absurd hres ((tryChunk_resolve_eq_none hd).1 hpage)
      | some page =>
        refine ⟨page, rfl, ?_⟩
        rw [entryCostAt, World.tileAt_of_contains hd, hpage]
        rfl
    obtain ⟨page, hpage, hentry⟩ := htile
    dsimp only
    rw [hpage]
    dsimp only
    rw [← hentry]
    set entry := entryCostAt W G.cls candidate.dest with hdef
    have hscale : 0 < G.scale := Nat.pos_of_ne_zero hs
    -- the division is the check of the product, and the entry is no more than the cost
    have hfits : entry * candidate.multiplier ≤ (navigationInfinity - 1) / G.scale ↔
        entry * candidate.multiplier * G.scale < navigationInfinity := by
      rw [Nat.le_div_iff_mul_le hscale]
      have hinf : 0 < navigationInfinity := by decide
      omega
    have hle : entry ≤ entry * candidate.multiplier := Nat.le_mul_of_pos_right _ hpos
    have hright : (enterable W G.cls a = true ∧ G.filter W a candidate.dest = true ∧
        ∃ k, (enterable W G.cls candidate.dest = true ∧
            TransitionAvailability.legal = .legal ∧ k = entry * candidate.multiplier) ∧
          k < infiniteCost ∧ k * G.scale < navigationInfinity ∧ C = k * G.scale) ↔
        entry * candidate.multiplier < infiniteCost ∧
          entry * candidate.multiplier * G.scale < navigationInfinity ∧
            C = entry * candidate.multiplier * G.scale := by
      constructor
      · rintro ⟨-, -, k, ⟨-, -, rfl⟩, h⟩
        exact h
      · intro h
        exact ⟨h1, h2, _, ⟨h3, rfl, rfl⟩, h⟩
    rw [hright]
    by_cases hbig : entry ≥ infiniteCost
    · rw [if_pos hbig]
      refine iff_of_false (fun hl => by cases hl.1) fun hr => ?_
      omega
    rw [if_neg hbig]
    by_cases hover : entry * candidate.multiplier ≥ infiniteCost ∨
        entry * candidate.multiplier > (navigationInfinity - 1) / G.scale
    · rw [if_pos hover]
      refine iff_of_false (fun hl => by cases hl.1) fun hr => ?_
      rcases hover with hover | hover
      · omega
      · exact absurd (hfits.2 hr.2.1) (not_le.2 hover)
    rw [if_neg hover]
    rw [not_or, not_le, not_lt, hfits] at hover
    constructor
    · rintro ⟨-, rfl⟩
      exact ⟨hover.1, hover.2, rfl⟩
    · rintro ⟨-, -, rfl⟩
      exact ⟨rfl, rfl⟩

/-! ### Degrees -/

end NavigationGrid

/-! ### Both enumerations -/

open NavigationGrid

/-- **The edges of a grid.**  Reverse enumeration lists the edges of the forward one; the edges of
a node have distinct identities; the legal edges between two tiles are the legal steps of the
movement model, at their scaled cost. -/
theorem gridEdges_exact {S : Shape} {Tag : Type*} (G : NavigationGrid S Tag) (W : World S Tag)
    (hW : G.world = some W) (hs : G.scale ≠ 0) (identity : ℕ) (a b : Coord3)
    (ha : S.contains a = true) (hb : S.contains b = true) :
    (∀ e, e ∈ (G.toDomain identity).edges (S.tileKey a) false ∧ e.toNode = S.tileKey b ↔
      e ∈ (G.toDomain identity).edges (S.tileKey b) true ∧ e.fromNode = S.tileKey a) ∧
    (∀ e ∈ (G.toDomain identity).edges (S.tileKey a) false,
      ∀ e' ∈ (G.toDomain identity).edges (S.tileKey a) false, e.id = e'.id → e = e') ∧
    ∀ C, (∃ e ∈ (G.toDomain identity).edges (S.tileKey a) false, e.toNode = S.tileKey b ∧
        e.availability = .legal ∧ e.cost = C) ↔
      enterable W G.cls a = true ∧ G.filter W a b = true ∧
        ∃ k, LegalStep W G.cls (adjacentTransitions S Tag) a b k ∧
          k < infiniteCost ∧ k * G.scale < navigationInfinity ∧ C = k * G.scale := by
  have hna := contains_tileKey hW ha
  have hnb := contains_tileKey hW hb
  have hmirror := mirrored G identity
  have hforward {e : NavigationLocalEdge} :
      e ∈ (G.toDomain identity).edges (S.tileKey a) false ↔
        ∃ candidate ∈ forEachRegularCandidate S G.cls.stepPolicy a,
          e = G.edgeBetween W a candidate.dest := by
    rw [mem_edges hW hna, candidates, Shape.coord_tileKey ha]
    rfl
  refine ⟨fun e => ⟨?_, ?_⟩, ?_, fun C => ⟨?_, ?_⟩⟩
  · rintro ⟨he, hto⟩
    obtain ⟨candidate, -, rfl⟩ := hforward.1 he
    have hfrom := (edgeBetween_ends (G := G) (W := W) (a := a) (b := candidate.dest)).1
    have h := hmirror.forward _ hna _ he hfrom (by rw [hto]; exact hnb)
    rw [hto] at h
    exact ⟨h, hfrom⟩
  · rintro ⟨he, hfrom⟩
    obtain ⟨candidate, -, rfl⟩ := (mem_edges hW hnb).1 he
    rw [if_pos rfl, Shape.coord_tileKey hb] at he hfrom ⊢
    have hto := (edgeBetween_ends (G := G) (W := W) (a := candidate.dest) (b := b)).2.1
    have h := hmirror.reverse _ hnb _ he hto (by rw [hfrom]; exact hna)
    rw [hfrom] at h
    exact ⟨h, hto⟩
  · intro e he e' he' hid
    obtain ⟨candidate, hm, rfl⟩ := hforward.1 he
    obtain ⟨candidate', hm', rfl⟩ := hforward.1 he'
    rw [edgeBetween_ends.2.2, edgeBetween_ends.2.2] at hid
    obtain ⟨i, hi, hget⟩ := List.mem_iff_getElem.1 hm
    obtain ⟨j, hj, hget'⟩ := List.mem_iff_getElem.1 hm'
    rw [forwardOrdinal_eq (i := i) (by rw [List.getElem?_eq_getElem hi, hget]),
      forwardOrdinal_eq (i := j) (by rw [List.getElem?_eq_getElem hj, hget'])] at hid
    have hij : i = j := hid
    subst hij
    rw [← hget, ← hget']
  · rintro ⟨e, he, hto, hlegal, hcost⟩
    obtain ⟨candidate, hm, rfl⟩ := hforward.1 he
    rw [edgeBetween_ends.2.1] at hto
    obtain rfl := Shape.tileKey_inj (contains_of_mem_forEachRegularCandidate hm).2 hb hto
    exact (edgeBetween_legal hW hs hm).1 ⟨hlegal, hcost⟩
  · rintro ⟨h1, h2, k, hstep, h3⟩
    obtain ⟨candidate, hm, rfl⟩ : ∃ candidate ∈ forEachRegularCandidate S G.cls.stepPolicy a,
        candidate.dest = b := by
      obtain ⟨-, -, -, ⟨m, hm, -⟩ | ⟨c, ⟨x, hx, -⟩, -⟩⟩ := hstep
      · obtain ⟨candidate, hc, hdest, -⟩ := (regularStep_iff ha hb).1 hm
        exact ⟨candidate, hc, hdest⟩
      · exact absurd hx List.not_mem_nil
    obtain ⟨hlegal, hcost⟩ := (edgeBetween_legal hW hs hm).2 ⟨h1, h2, k, hstep, h3⟩
    exact ⟨_, hforward.2 ⟨candidate, hm, rfl⟩, edgeBetween_ends.2.1, hlegal, hcost⟩

/-- An open square, with costs in thirds. -/
def squareGrid : NavigationGrid square Unit where
  world := some (openWorld square)
  cls := squareClass
  scale := 3

theorem gridEdges_exact_square : ∃ k, LegalStep (openWorld square) squareClass
    (adjacentTransitions square Unit) ⟨0, 0, 0⟩ ⟨1, 0, 0⟩ k ∧ 3 = k * 3 := by
  have h := (gridEdges_exact squareGrid _ rfl (by decide) 1 ⟨0, 0, 0⟩ ⟨1, 0, 0⟩ (by decide)
    (by decide)).2.2 3
  obtain ⟨-, -, k, hstep, -, -, hk⟩ := h.1 (by decide +kernel)
  exact ⟨k, hstep, hk⟩

end Tess
