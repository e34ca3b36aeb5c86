import Tess.Topology.StairEdges
import Tess.Topology.ChunkNeighbors

/-!
# Forward and reverse transitions

The transitions out of a tile and those into a tile are enumerated by the same generator from
either end.  The candidates of the two ends are mirror images: their clearance tiles change places,
and the cost is read at the forward destination both times.

* `RegularTransitionCandidate.reversed` : the mirror image of a candidate;
* `nodup_forEachRegularCandidate` : **no tile is a candidate twice**;
* `transitions_dual` : **forward and reverse probes are one relation**, and the static queries on
  a regular step agree with the probes.
-/

namespace Tess

/-! ### Lists with distinct keys -/

section Keys

variable {α β γ δ : Type*} {l : List α} {l' : List β} {f : α → γ} {g : β → δ} {a : γ} {b : δ}
  {p : α → Bool} {q : β → Bool}

/-- At most one item of a list with distinct keys has a given key. -/
theorem countP_le_one (hn : (l.map f).Nodup) (hp : ∀ x ∈ l, p x = true → f x = a) :
    l.countP p ≤ 1 := by
  classical
  have hle : l.countP p ≤ (l.map f).count a := by
    rw [List.count, List.countP_map]
    exact List.countP_mono_left fun x hx h => by simp [hp x hx h]
  exact hle.trans (List.nodup_iff_count_le_one.1 hn a)

/-- **Two lists with distinct keys** have as many items of some kind when both have one or none. -/
theorem countP_eq_of_nodup (hn : (l.map f).Nodup) (hn' : (l'.map g).Nodup)
    (hp : ∀ x ∈ l, p x = true → f x = a) (hq : ∀ y ∈ l', q y = true → g y = b)
    (h : (∃ x ∈ l, p x = true) ↔ ∃ y ∈ l', q y = true) : l.countP p = l'.countP q := by
  have h1 := countP_le_one hn hp
  have h2 := countP_le_one hn' hq
  rw [← List.countP_pos_iff, ← List.countP_pos_iff] at h
  omega

/-- What a partial function keeps of a list has the keys of the list. -/
theorem map_filterMap_sublist {k : α → Option β} {h : α → δ}
    (hk : ∀ x y, k x = some y → g y = h x) : ((l.filterMap k).map g).Sublist (l.map h) := by
  induction l with
  | nil => exact .slnil
  | cons x l ih =>
    rw [List.filterMap_cons, List.map_cons]
    cases hx : k x with
    | none => exact ih.cons _
    | some y =>
      rw [List.map_cons, hk x y hx]
      exact ih.cons_cons _

end Keys

/-! ### Candidates and their mirror images -/

/-- The candidate seen from its other end, when it starts at `a`. -/
def RegularTransitionCandidate.reversed (candidate : RegularTransitionCandidate) (a : Coord3) :
    RegularTransitionCandidate :=
  { candidate with
    dest := a
    clearanceA := candidate.clearanceB
    clearanceB := candidate.clearanceA }

section Candidates

variable {S : Shape} {Tag : Type*} {W : World S Tag} {cls : MovementClass S Tag} {a b : Coord3}
  {candidate : RegularTransitionCandidate} {m : ℕ}

theorem reversed_mem_faces (ha : S.contains a = true)
    (h : candidate ∈ forEachOrthogonalFaceCandidate S a m) :
    candidate.reversed a ∈ forEachOrthogonalFaceCandidate S candidate.dest m := by
  obtain ⟨-, hadj, hc⟩ := mem_forEachOrthogonalFaceCandidate.1 h
  refine mem_forEachOrthogonalFaceCandidate.2 ⟨ha, faceAdjacent_comm.1 hadj, ?_⟩
  rw [hc]
  rfl

/-- Two steps of a diagonal, taken back. -/
theorem step_step_back {p q : Axis} (hpq : p ≠ q) (d e : ℤ) :
    ((a.step p d).step q e).step p (-d) = a.step q e ∧
      ((a.step p d).step q e).step q (-e) = a.step p d := by
  cases p <;> cases q <;>
    first
      | exact absurd rfl hpq
      | (constructor <;> ext <;> simp [Coord3.step, Coord3.set, Coord3.get])

theorem reversed_mem_diagonal (ha : S.contains a = true) {d e : ℤ}
    (h : candidate ∈ diagonalCandidate S a d e) :
    candidate.reversed a ∈ diagonalCandidate S candidate.dest (-d) (-e) := by
  obtain ⟨-, rfl⟩ := mem_diagonalCandidate.1 h
  obtain ⟨hA, hB⟩ := step_step_back (a := a) (diagonalAxes_ne S) d e
  have hback : (a.step (diagonalAxes S).2 e).step (diagonalAxes S).2 (-e) = a := by
    obtain ⟨x, y, z⟩ := a
    cases (diagonalAxes S).2 <;> simp [Coord3.step, Coord3.set, Coord3.get]
  refine mem_diagonalCandidate.2 ?_
  simp only [hA, hB, hback]
  exact ⟨ha, rfl⟩

/-- **The mirror image of a candidate** is a candidate of its other end. -/
theorem reversed_mem (h : candidate ∈ forEachRegularCandidate S cls.stepPolicy a) :
    candidate.reversed a ∈ forEachRegularCandidate S cls.stepPolicy candidate.dest := by
  obtain ⟨ha, hd⟩ := contains_of_mem_forEachRegularCandidate h
  unfold forEachRegularCandidate at h ⊢
  rw [if_neg (by simp [ha])] at h
  rw [if_neg (by simp [hd])]
  cases hp : cls.stepPolicy with
  | defaultSteps =>
    rw [hp] at h
    cases hl : S.lattice with
    | orthogonal =>
      rw [hl] at h
      exact reversed_mem_faces ha h
    | hexAxial =>
      rw [hl] at h
      obtain ⟨hz, -, hadj, hc⟩ := mem_forEachHexCandidate.1 h
      refine mem_forEachHexCandidate.2 ⟨hadj.2 ▸ hz, ha, hexAdjacent_comm.1 hadj, ?_⟩
      rw [hc]
      rfl
  | diagonalSteps rule =>
    rw [hp] at h
    rcases mem_forEachDiagonalCandidate.1 h with h | ⟨d, e, hsd, hse, h⟩
    · exact mem_forEachDiagonalCandidate.2 (Or.inl (reversed_mem_faces ha h))
    · refine mem_forEachDiagonalCandidate.2 (Or.inr ⟨-d, -e, ?_, ?_, reversed_mem_diagonal ha h⟩)
      · unfold IsSign at *; omega
      · unfold IsSign at *; omega

/-- Clearance does not depend on the direction. -/
theorem clearanceAvailability_reversed : clearanceAvailability W cls (candidate.reversed a) =
    clearanceAvailability W cls candidate := by
  unfold clearanceAvailability RegularTransitionCandidate.reversed
  cases cls.stepPolicy with
  | defaultSteps => rfl
  | diagonalSteps rule => cases rule <;> simp only [or_comm]

theorem map_dest_regular {dest : Coord3} :
    ((emitRegularCandidate S dest m).map (·.dest)).Sublist [dest] := by
  unfold emitRegularCandidate
  split_ifs
  · exact .refl _
  · exact List.nil_sublist _

theorem map_dest_faces : ((forEachOrthogonalFaceCandidate S a m).map (·.dest)).Sublist
    [⟨a.x + 1, a.y, a.z⟩, ⟨a.x - 1, a.y, a.z⟩, ⟨a.x, a.y + 1, a.z⟩, ⟨a.x, a.y - 1, a.z⟩,
      ⟨a.x, a.y, a.z + 1⟩, ⟨a.x, a.y, a.z - 1⟩] := by
  simp only [forEachOrthogonalFaceCandidate, List.map_append]
  exact ((((map_dest_regular.append map_dest_regular).append map_dest_regular).append
    map_dest_regular).append map_dest_regular).append map_dest_regular

theorem map_dest_hex : ((forEachHexCandidate S a).map (·.dest)).Sublist
    [⟨a.x + 1, a.y, a.z⟩, ⟨a.x - 1, a.y, a.z⟩, ⟨a.x, a.y + 1, a.z⟩, ⟨a.x, a.y - 1, a.z⟩,
      ⟨a.x + 1, a.y - 1, a.z⟩, ⟨a.x - 1, a.y + 1, a.z⟩] := by
  unfold forEachHexCandidate
  split_ifs
  · exact List.nil_sublist _
  · simp only [List.map_append]
    exact ((((map_dest_regular.append map_dest_regular).append map_dest_regular).append
      map_dest_regular).append map_dest_regular).append map_dest_regular

theorem map_dest_diagonal {d e : ℤ} : ((diagonalCandidate S a d e).map (·.dest)).Sublist
    [(a.step (diagonalAxes S).1 d).step (diagonalAxes S).2 e] := by
  unfold diagonalCandidate emitDiagonalCandidate
  dsimp only
  split_ifs
  · exact .refl _
  · exact List.nil_sublist _

theorem diagonalAxes_mem (S : Shape) :
    diagonalAxes S = (.x, .y) ∨ diagonalAxes S = (.x, .z) ∨ diagonalAxes S = (.y, .z) := by
  unfold diagonalAxes
  split_ifs <;> simp

/-- **No tile is a candidate twice.** -/
theorem nodup_forEachRegularCandidate (policy : StepPolicy) (a : Coord3) :
    ((forEachRegularCandidate S policy a).map (·.dest)).Nodup := by
  unfold forEachRegularCandidate
  split_ifs
  · exact List.nodup_nil
  cases policy with
  | defaultSteps =>
    cases S.lattice with
    | orthogonal =>
      refine map_dest_faces.nodup ?_
      simp
      omega
    | hexAxial =>
      refine map_dest_hex.nodup ?_
      simp
      omega
  | diagonalSteps rule =>
    simp only [forEachDiagonalCandidate, List.map_append]
    refine ((((map_dest_faces.append map_dest_diagonal).append map_dest_diagonal).append
      map_dest_diagonal).append map_dest_diagonal).nodup ?_
    rcases diagonalAxes_mem S with h | h | h <;> rw [h] <;>
      simp [Coord3.step, Coord3.set, Coord3.get] <;> omega

end Candidates

/-! ### What the static queries read -/

section Queries

variable {S : Shape} {Tag : Type*} {W : World S Tag} {cls : MovementClass S Tag} {a b : Coord3}
  {candidate : RegularTransitionCandidate}

theorem isRegularCandidate_iff : isRegularCandidate cls a b = true ↔
    ∃ candidate ∈ forEachRegularCandidate S cls.stepPolicy a, candidate.dest = b := by
  simp [isRegularCandidate]

/-- Being a candidate is mutual. -/
theorem isRegularCandidate_comm : isRegularCandidate cls a b = isRegularCandidate cls b a := by
  have hback {a b : Coord3} (h : isRegularCandidate cls a b = true) :
      isRegularCandidate cls b a = true := by
    obtain ⟨candidate, hm, rfl⟩ := isRegularCandidate_iff.1 h
    exact isRegularCandidate_iff.2 ⟨_, reversed_mem hm, rfl⟩
  exact Bool.eq_iff_iff.2 ⟨hback, hback⟩

theorem foldl_of_forall_ne {α β : Type*} {f : α → Coord3} {g : α → β} {v : β} {l : List α}
    (h : ∀ x ∈ l, f x ≠ b) : l.foldl (fun acc x => if f x = b then g x else acc) v = v := by
  induction l with
  | nil => rfl
  | cons x l ih =>
    rw [List.foldl_cons, if_neg (h x List.mem_cons_self)]
    exact ih fun y hy => h y (List.mem_cons_of_mem _ hy)

/-- The last match is the only one. -/
theorem foldl_of_mem {α β : Type*} {f : α → Coord3} {g : α → β} {v : β} {l : List α} {x : α}
    (hn : (l.map f).Nodup) (hx : x ∈ l) :
    l.foldl (fun acc y => if f y = f x then g y else acc) v = g x := by
  obtain ⟨s, t, rfl⟩ := List.append_of_mem hx
  rw [List.foldl_append, List.foldl_cons, if_pos rfl]
  refine foldl_of_forall_ne fun y hy heq => ?_
  rw [List.map_append, List.map_cons] at hn
  have hnot := (List.nodup_cons.1 (List.nodup_append'.1 hn).2.1).1
  exact hnot (List.mem_map.2 ⟨y, hy, heq⟩)

theorem regularAvailability_of_mem
    (h : candidate ∈ forEachRegularCandidate S cls.stepPolicy a) :
    regularAvailability W cls a candidate.dest = clearanceAvailability W cls candidate :=
  foldl_of_mem (nodup_forEachRegularCandidate _ _) h

theorem regularAvailability_of_not (h : isRegularCandidate cls a b = false) :
    regularAvailability W cls a b = .blocked := by
  refine foldl_of_forall_ne fun candidate hm heq => ?_
  have := isRegularCandidate_iff.2 ⟨candidate, hm, heq⟩
  rw [h] at this
  cases this

/-- Clearance is mutual. -/
theorem regularAvailability_comm :
    regularAvailability W cls a b = regularAvailability W cls b a := by
  cases h : isRegularCandidate cls a b with
  | false =>
    rw [regularAvailability_of_not h, regularAvailability_of_not (isRegularCandidate_comm ▸ h)]
  | true =>
    obtain ⟨candidate, hm, rfl⟩ := isRegularCandidate_iff.1 h
    have hback := regularAvailability_of_mem (W := W) (reversed_mem hm)
    rw [clearanceAvailability_reversed] at hback
    rw [regularAvailability_of_mem hm]
    exact hback.symm

end Queries

/-! ### The probes between two tiles -/

/-- A `Legal` probe to a tile, of the given cost and overflow flag. -/
def isLegalTo (b : Coord3) (cost : ℕ) (overflow : Bool) (probe : TransitionProbe) : Bool :=
  probe.dest == b && probe.availability == .legal && probe.cost == cost &&
    probe.costOverflow == overflow

section Probes

variable {S : Shape} {Tag : Type*} {tag : Tag} {W : World S Tag} {cls : MovementClass S Tag}
  {prov : Provider S Tag} {a b c : Coord3} {cost : ℕ} {overflow : Bool}

theorem isLegalTo_iff {probe : TransitionProbe} : isLegalTo b cost overflow probe = true ↔
    probe.dest = b ∧ probe.availability = .legal ∧ probe.cost = cost ∧
      probe.costOverflow = overflow := by
  simp [isLegalTo, and_assoc]

/-- A tile that a step may enter at a cost. -/
structure Enterable (W : World S Tag) (cls : MovementClass S Tag) (c : Coord3) : Prop where
  /-- It is passable, and so contained and resident. -/
  passable : isPassable W cls c = true
  /-- It has a cost. -/
  cost : entryCostAt W cls c ≠ 0

theorem emitCandidate_dest {candidate : RegularTransitionCandidate} {probe : TransitionProbe}
    (h : emitCandidate W cls candidate c = some probe) :
    probe.dest = candidate.dest ∧ probe.kind = .regular := by
  unfold emitCandidate at h
  split at h
  · obtain rfl := Option.some.inj h
    exact ⟨rfl, rfl⟩
  · dsimp only at h
    split_ifs at h
    split at h
    · obtain rfl := Option.some.inj h
      exact ⟨rfl, rfl⟩
    · split_ifs at h
      obtain rfl := Option.some.inj h
      exact ⟨rfl, rfl⟩

theorem emitSpecialCandidate_dest {candidate : SpecialTransitionCandidate}
    {probe : TransitionProbe} (h : emitSpecialCandidate W cls candidate c = some probe) :
    probe.dest = candidate.dest ∧ probe.kind = .special := by
  unfold emitSpecialCandidate at h
  split at h
  · cases h
  split at h
  · obtain rfl := Option.some.inj h
    exact ⟨rfl, rfl⟩
  split at h
  · obtain rfl := Option.some.inj h
    exact ⟨rfl, rfl⟩
  split at h
  · cases h
  split at h
  · cases h
  dsimp only at h
  split_ifs at h
  obtain rfl := Option.some.inj h
  exact ⟨rfl, rfl⟩

/-- **A candidate between enterable tiles** is blocked by its clearance or probed with it. -/
theorem emitCandidate_enterable {candidate : RegularTransitionCandidate}
    (hd : Enterable W cls candidate.dest) (hc : Enterable W cls c) :
    emitCandidate W cls candidate c =
      if clearanceAvailability W cls candidate = .blocked then none
      else some { dest := candidate.dest
                  destIndex := S.tileKey candidate.dest
                  cost := saturatingU32 (entryCostAt W cls c * candidate.multiplier)
                  availability := clearanceAvailability W cls candidate
                  costOverflow :=
                    decide (entryCostAt W cls c * candidate.multiplier ≥ infiniteCost) } := by
  rw [emitCandidate_eq (contains_of_isPassable hd.passable) (contains_of_isPassable hc.passable),
    if_neg (not_not.2 (resident_of_isPassable hd.passable)), if_neg (not_not.2 hd.passable),
    if_neg (not_not.2 (resident_of_isPassable hc.passable)), if_neg hc.cost]

/-- The same, for a special candidate whose chunk is there. -/
theorem emitSpecialCandidate_enterable {candidate : SpecialTransitionCandidate}
    (hd : isPassable W cls candidate.dest = true) (hc : Enterable W cls c)
    (hm : candidate.missingTopology = false) (hcost : candidate.cost ≠ 0) :
    emitSpecialCandidate W cls candidate c =
      some { dest := candidate.dest
             destIndex := S.tileKey candidate.dest
             cost := saturatingU32 (candidate.cost * cls.stepPolicy.costScale)
             kind := .special
             availability := .legal
             costOverflow :=
               decide (candidate.cost * cls.stepPolicy.costScale ≥ infiniteCost) } := by
  rw [emitSpecialCandidate_eq (contains_of_isPassable hd) (contains_of_isPassable hc.passable),
    if_neg (by simp [hm, resident_of_isPassable hd]), if_neg (not_not.2 hd),
    if_neg (not_or.2 ⟨hc.cost, hcost⟩)]

/-- How often a list of candidates gives a `Legal` probe. -/
theorem countP_filterMap_legal {α : Type*} {l : List α} {emit : α → Option TransitionProbe} :
    (l.filterMap emit).countP (isLegalTo b cost overflow) =
      l.countP fun x => (emit x).any (isLegalTo b cost overflow) := by
  rw [List.countP_filterMap]
  refine List.countP_congr fun x _ => ?_
  cases emit x <;> simp

theorem any_regular {candidate : RegularTransitionCandidate}
    (h : (emitCandidate W cls candidate c).any (isLegalTo b cost overflow) = true) :
    candidate.dest = b := by
  obtain ⟨probe, hp, hl⟩ := (Option.any_eq_true _ _).1 h
  rw [← (emitCandidate_dest hp).1]
  exact (isLegalTo_iff.1 hl).1

theorem any_special {candidate : SpecialTransitionCandidate}
    (h : (emitSpecialCandidate W cls candidate c).any (isLegalTo b cost overflow) = true) :
    candidate.dest = b := by
  obtain ⟨probe, hp, hl⟩ := (Option.any_eq_true _ _).1 h
  rw [← (emitSpecialCandidate_dest hp).1]
  exact (isLegalTo_iff.1 hl).1

/-- **One probe from both ends**: the mirror image of a candidate is legal at the same cost. -/
theorem any_reversed {candidate : RegularTransitionCandidate} (ha : Enterable W cls a)
    (hd : Enterable W cls candidate.dest) :
    (emitCandidate W cls (candidate.reversed a) candidate.dest).any
        (isLegalTo a cost overflow) =
      (emitCandidate W cls candidate candidate.dest).any
        (isLegalTo candidate.dest cost overflow) := by
  have hback : emitCandidate W cls (candidate.reversed a) candidate.dest = _ :=
    emitCandidate_enterable ha hd
  rw [emitCandidate_enterable hd hd, hback, clearanceAvailability_reversed]
  split_ifs
  · rfl
  · simp [isLegalTo, RegularTransitionCandidate.reversed]

/-- **The regular probes are one relation**, from either end. -/
theorem countP_regular (ha : Enterable W cls a) (hb : Enterable W cls b) :
    ((forEachRegularCandidate S cls.stepPolicy a).filterMap fun candidate =>
        emitCandidate W cls candidate candidate.dest).countP (isLegalTo b cost overflow) =
      ((forEachRegularCandidate S cls.stepPolicy b).filterMap fun candidate =>
        emitCandidate W cls candidate b).countP (isLegalTo a cost overflow) := by
  rw [countP_filterMap_legal, countP_filterMap_legal]
  refine countP_eq_of_nodup (nodup_forEachRegularCandidate _ _)
    (nodup_forEachRegularCandidate _ _) (fun _ _ h => any_regular h)
    (fun _ _ h => any_regular h) ⟨?_, ?_⟩
  · rintro ⟨candidate, hm, h⟩
    obtain rfl := any_regular h
    exact ⟨_, reversed_mem hm, (any_reversed ha hb).trans h⟩
  · rintro ⟨candidate, hm, h⟩
    obtain rfl := any_regular h
    have hback : (candidate.reversed b).reversed candidate.dest = candidate := rfl
    refine ⟨_, reversed_mem hm, ?_⟩
    have hlegal : (emitCandidate W cls ((candidate.reversed b).reversed candidate.dest) b).any
        (isLegalTo candidate.dest cost overflow) = _ := any_reversed ha hb
    rw [hback] at hlegal
    exact hlegal.symm.trans h

/-! ### The stairs of a world with missing chunks -/

theorem map_dest_probeFoot {foot : Coord3} :
    ((probeFoot tag W c foot).map (·.dest)).Sublist [foot] := by
  unfold probeFoot
  split_ifs
  · exact List.nil_sublist _
  · split <;> exact .refl _
  · split
    · exact .refl _
    · exact List.nil_sublist _

theorem map_dest_stairsOf : ((stairsOf tag W c).map (·.dest)).Sublist
    ((tryLanding tag W c).toList ++ stairEnds c) := by
  unfold stairsOf
  split_ifs with hc hz
  · exact List.nil_sublist _
  · rw [List.append_nil]
    cases tryLanding tag W c with
    | none => exact List.nil_sublist _
    | some landing => exact (List.Sublist.refl [landing]).trans (List.sublist_append_left _ _)
  · rw [List.map_append]
    refine .append ?_ ?_
    · cases tryLanding tag W c <;> exact .refl _
    · simp only [List.map_append]
      exact ((map_dest_probeFoot.append map_dest_probeFoot).append map_dest_probeFoot).append
        map_dest_probeFoot

/-- **No tile is the other end of two stairs**, in a world with missing chunks either. -/
theorem nodup_stairsOf : ((stairsOf tag W c).map (·.dest)).Nodup := by
  refine map_dest_stairsOf.nodup (List.nodup_append'.2 ⟨?_, ?_, fun b hb hb' => ?_⟩)
  · cases tryLanding tag W c <;> simp
  · simp [stairEnds]
    omega
  · rw [Option.mem_toList] at hb
    have hup := (isStair_of_tryLanding hb).up
    simp only [stairEnds, List.mem_cons, List.not_mem_nil, or_false] at hb'
    rcases hb' with rfl | rfl | rfl | rfl <;> simp only at hup <;> omega

theorem mem_probeFoot_of_present {foot : Coord3} {candidate : SpecialTransitionCandidate}
    (h : candidate ∈ probeFoot tag W c foot) (hr : W.Resident candidate.dest) :
    candidate = { dest := foot } ∧ tryLanding tag W foot = some c := by
  have hfoot := contains_of_mem_probeFoot h
  unfold probeFoot at h
  rw [if_neg (by simp [hfoot])] at h
  split at h
  · rename_i hp
    rw [List.mem_singleton.1 h] at hr
    exact absurd hr ((tryChunk_resolve_eq_none hfoot).1 hp)
  · split_ifs at h with hl
    · exact ⟨List.mem_singleton.1 h, hl⟩
    · cases h

theorem mem_probeFoot_of_landing {foot : Coord3} (h : tryLanding tag W foot = some c) :
    { dest := foot } ∈ probeFoot tag W c foot := by
  have hfoot := (isStair_of_tryLanding h).foot_mem
  cases hp : W.tryChunk (W.resolve foot).chunkKey with
  | none => simp [tryLanding, hp] at h
  | some page => simp [probeFoot, hfoot, hp, h]

/-- **The stairs of a tile** to a tile whose chunk is there. -/
theorem mem_stairsOf_of_present {candidate : SpecialTransitionCandidate}
    (h : candidate ∈ stairsOf tag W c) (hr : W.Resident candidate.dest) :
    candidate = { dest := candidate.dest } ∧ StairEdge tag W c candidate.dest := by
  have hfoot {foot : Coord3} (h : candidate ∈ probeFoot tag W c foot) :
      candidate = { dest := candidate.dest } ∧ StairEdge tag W c candidate.dest := by
    obtain ⟨rfl, hl⟩ := mem_probeFoot_of_present h hr
    exact ⟨rfl, Or.inr hl⟩
  unfold stairsOf at h
  split_ifs at h with hc hz
  · cases h
  all_goals
    rcases List.mem_append.1 h with h | h
    · cases hl : tryLanding tag W c with
      | none => simp [hl] at h
      | some landing =>
        rw [hl] at h
        obtain rfl := List.mem_singleton.1 h
        exact ⟨rfl, Or.inl hl⟩
  · cases h
  · simp only [List.mem_append] at h
    rcases h with ((h | h) | h) | h <;> exact hfoot h

theorem stairEdge_mem_stairsOf (h : StairEdge tag W a b) :
    { dest := b } ∈ stairsOf tag W a := by
  have ha := h.contains.1
  unfold stairsOf
  rw [if_neg (by simp [ha])]
  rcases h with h | h
  · exact List.mem_append_left _ (by simp [h])
  · have hs := isStair_of_tryLanding h
    have hup := hs.up
    have hb := (Shape.contains_iff.1 hs.foot_mem).2.2
    have hz : a.z ≠ 0 := by omega
    have hmem := mem_probeFoot_of_landing h
    have hend := hs.mem_stairEnds
    rw [if_neg hz]
    refine List.mem_append_right _ ?_
    simp only [stairEnds, List.mem_cons, List.not_mem_nil, or_false] at hend
    simp only [List.mem_append]
    rcases hend with rfl | rfl | rfl | rfl <;> simp [hmem]

/-- Which stairs give a `Legal` probe, of which cost. -/
theorem exists_stair_iff (hb : isPassable W cls b = true) (hc : Enterable W cls c) :
    (∃ candidate ∈ stairsOf tag W a,
        (emitSpecialCandidate W cls candidate c).any (isLegalTo b cost overflow) = true) ↔
      StairEdge tag W a b ∧ saturatingU32 (1 * cls.stepPolicy.costScale) = cost ∧
        decide (1 * cls.stepPolicy.costScale ≥ infiniteCost) = overflow := by
  have hemit : emitSpecialCandidate W cls { dest := b } c = _ :=
    emitSpecialCandidate_enterable hb hc rfl Nat.one_ne_zero
  constructor
  · rintro ⟨candidate, hm, h⟩
    obtain rfl := any_special h
    obtain ⟨heq, hedge⟩ := mem_stairsOf_of_present hm (resident_of_isPassable hb)
    rw [heq, hemit] at h
    exact ⟨hedge, (isLegalTo_iff.1 h).2.2⟩
  · rintro ⟨hedge, hcost⟩
    refine ⟨_, stairEdge_mem_stairsOf hedge, ?_⟩
    rw [hemit]
    exact isLegalTo_iff.2 ⟨rfl, rfl, hcost⟩

/-- **The stairs are one relation**, from either end. -/
theorem countP_stairs (ha : Enterable W cls a) (hb : Enterable W cls b) :
    ((stairsOf tag W a).filterMap fun candidate =>
        emitSpecialCandidate W cls candidate candidate.dest).countP
          (isLegalTo b cost overflow) =
      ((stairsOf tag W b).filterMap fun candidate =>
        emitSpecialCandidate W cls candidate b).countP (isLegalTo a cost overflow) := by
  rw [countP_filterMap_legal, countP_filterMap_legal]
  refine countP_eq_of_nodup nodup_stairsOf nodup_stairsOf (fun _ _ h => any_special h)
    (fun _ _ h => any_special h) ?_
  -- the cost is read at the forward destination, which is `b` for the probes that count
  have hforward : (∃ candidate ∈ stairsOf tag W a,
      (emitSpecialCandidate W cls candidate candidate.dest).any
        (isLegalTo b cost overflow) = true) ↔ ∃ candidate ∈ stairsOf tag W a,
      (emitSpecialCandidate W cls candidate b).any (isLegalTo b cost overflow) = true := by
    refine exists_congr fun candidate => and_congr_right fun _ => ⟨fun h => ?_, fun h => ?_⟩
    · obtain rfl := any_special h
      exact h
    · obtain rfl := any_special h
      exact h
  rw [hforward, exists_stair_iff hb.passable hb, exists_stair_iff ha.passable hb,
    stairEdge_comm]

/-! ### Forward and reverse -/

theorem forEachReverse_eq (hb : isPassable W cls b = true) : forEachReverse W cls prov b =
    (forEachRegularCandidate S cls.stepPolicy b).filterMap
        (fun candidate => emitCandidate W cls candidate b) ++
      (prov.forEachReverse W b).filterMap
        fun candidate => emitSpecialCandidate W cls candidate b := by
  unfold forEachReverse
  rw [if_neg (by simp [hb])]

/-- The regular probes among all. -/
theorem filter_regular {l : List RegularTransitionCandidate}
    {l' : List SpecialTransitionCandidate} {costOf : RegularTransitionCandidate → Coord3}
    {costOf' : SpecialTransitionCandidate → Coord3} :
    (l.filterMap (fun candidate => emitCandidate W cls candidate (costOf candidate)) ++
      l'.filterMap fun candidate => emitSpecialCandidate W cls candidate
        (costOf' candidate)).filter (fun probe => probe.kind = .regular) =
      l.filterMap fun candidate => emitCandidate W cls candidate (costOf candidate) := by
  rw [List.filter_append]
  refine (congrArg₂ _ (List.filter_eq_self.2 fun probe hp => ?_)
    (List.filter_eq_nil_iff.2 fun probe hp => ?_)).trans (List.append_nil _)
  · obtain ⟨candidate, -, he⟩ := List.mem_filterMap.1 hp
    exact decide_eq_true (emitCandidate_dest he).2
  · obtain ⟨candidate, -, he⟩ := List.mem_filterMap.1 hp
    rw [(emitSpecialCandidate_dest he).2]
    decide

theorem nodup_regularProbes {policy : StepPolicy}
    {costOf : RegularTransitionCandidate → Coord3} :
    (((forEachRegularCandidate S policy a).filterMap fun candidate =>
      emitCandidate W cls candidate (costOf candidate)).map (·.dest)).Nodup :=
  (map_filterMap_sublist fun _ _ h => (emitCandidate_dest h).1).nodup
    (nodup_forEachRegularCandidate _ _)

/-- **Regular probes emit each neighbour at most once**, in both directions. -/
theorem nodup_regular :
    (((forEachForward W cls prov a).filter fun probe => probe.kind = .regular).map
        (·.dest)).Nodup ∧
      (((forEachReverse W cls prov a).filter fun probe => probe.kind = .regular).map
        (·.dest)).Nodup := by
  constructor
  · rw [forEachForward, filter_regular]
    exact nodup_regularProbes
  · unfold forEachReverse
    split_ifs
    · exact List.nodup_nil
    · rw [filter_regular]
      exact nodup_regularProbes

/-- A regular probe is the probe of a candidate. -/
theorem exists_regular_iff {l : List RegularTransitionCandidate}
    {l' : List SpecialTransitionCandidate} {costOf : RegularTransitionCandidate → Coord3}
    {costOf' : SpecialTransitionCandidate → Coord3} {availability : TransitionAvailability} :
    (∃ probe ∈ l.filterMap (fun candidate => emitCandidate W cls candidate (costOf candidate)) ++
        l'.filterMap fun candidate => emitSpecialCandidate W cls candidate (costOf' candidate),
      probe.kind = .regular ∧ probe.dest = b ∧ probe.availability = availability) ↔
    ∃ candidate ∈ l, candidate.dest = b ∧
      ∃ probe, emitCandidate W cls candidate (costOf candidate) = some probe ∧
        probe.availability = availability := by
  constructor
  · rintro ⟨probe, hp, hk, rfl, rfl⟩
    rcases List.mem_append.1 hp with hp | hp
    · obtain ⟨candidate, hm, he⟩ := List.mem_filterMap.1 hp
      exact ⟨candidate, hm, (emitCandidate_dest he).1.symm, probe, he, rfl⟩
    · obtain ⟨candidate, -, he⟩ := List.mem_filterMap.1 hp
      rw [(emitSpecialCandidate_dest he).2] at hk
      cases hk
  · rintro ⟨candidate, hm, rfl, probe, he, rfl⟩
    obtain ⟨hdest, hkind⟩ := emitCandidate_dest he
    exact ⟨probe, List.mem_append_left _ (List.mem_filterMap.2 ⟨candidate, hm, he⟩), hkind,
      hdest, rfl⟩

/-- **The static queries agree with the probes** between enterable tiles, at whatever tile the
cost is read. -/
theorem exists_candidate_iff (hb : Enterable W cls b)
    {costOf : RegularTransitionCandidate → Coord3}
    (hc : ∀ candidate, candidate.dest = b → Enterable W cls (costOf candidate))
    {availability : TransitionAvailability} :
    (∃ candidate ∈ forEachRegularCandidate S cls.stepPolicy a, candidate.dest = b ∧
        ∃ probe, emitCandidate W cls candidate (costOf candidate) = some probe ∧
          probe.availability = availability) ↔
      isRegularCandidate cls a b = true ∧ regularAvailability W cls a b = availability ∧
        availability ≠ .blocked := by
  constructor
  · rintro ⟨candidate, hm, rfl, probe, he, rfl⟩
    rw [emitCandidate_enterable hb (hc candidate rfl)] at he
    split_ifs at he with hblocked
    obtain rfl := Option.some.inj he
    exact ⟨isRegularCandidate_iff.2 ⟨candidate, hm, rfl⟩, regularAvailability_of_mem hm,
      hblocked⟩
  · rintro ⟨hreg, rfl, hblocked⟩
    obtain ⟨candidate, hm, rfl⟩ := isRegularCandidate_iff.1 hreg
    rw [regularAvailability_of_mem hm] at hblocked ⊢
    have he := emitCandidate_enterable hb (hc candidate rfl)
    rw [if_neg hblocked] at he
    exact ⟨candidate, hm, rfl, _, he, rfl⟩

/-- **Forward and reverse transitions are one relation.**  Between two enterable tiles the edges
out of one and the edges into the other are the same, as often, at the same cost and with the same
overflow flag; regular probes name each neighbour once; and the static queries of a regular step
say which regular probe is there. -/
theorem transitions_dual (W : World S Tag) (cls : MovementClass S Tag) (prov : Provider S Tag)
    (hprov : prov = adjacentTransitions S Tag ∨ ∃ tag, prov = stairTransitions S tag)
    (a b : Coord3) (ha : isPassable W cls a = true) (hacost : entryCostAt W cls a ≠ 0)
    (hb : isPassable W cls b = true) (hbcost : entryCostAt W cls b ≠ 0) :
    (∀ cost overflow,
      (forEachForward W cls prov a).countP (isLegalTo b cost overflow) =
        (forEachReverse W cls prov b).countP (isLegalTo a cost overflow)) ∧
    (((forEachForward W cls prov a).filter fun probe => probe.kind = .regular).map
      (·.dest)).Nodup ∧
    (((forEachReverse W cls prov b).filter fun probe => probe.kind = .regular).map
      (·.dest)).Nodup ∧
    (∀ availability,
      (∃ probe ∈ forEachForward W cls prov a, probe.kind = .regular ∧ probe.dest = b ∧
          probe.availability = availability) ↔
        isRegularCandidate cls a b = true ∧ regularAvailability W cls a b = availability ∧
          availability ≠ .blocked) ∧
    (∀ availability,
      (∃ probe ∈ forEachReverse W cls prov b, probe.kind = .regular ∧ probe.dest = a ∧
          probe.availability = availability) ↔
        isRegularCandidate cls a b = true ∧ regularAvailability W cls a b = availability ∧
          availability ≠ .blocked) ∧
    (isRegularCandidate cls a b = false → regularAvailability W cls a b = .blocked) ∧
    isRegularCandidate cls a b = isRegularCandidate cls b a := by
  have ha : Enterable W cls a := ⟨ha, hacost⟩
  have hb : Enterable W cls b := ⟨hb, hbcost⟩
  refine ⟨fun cost overflow => ?_, nodup_regular.1, nodup_regular.2,
    fun _ => ?_, fun _ => ?_, regularAvailability_of_not,
    isRegularCandidate_comm⟩
  · have hspecial : ((prov.forEachForward W a).filterMap fun candidate =>
          emitSpecialCandidate W cls candidate candidate.dest).countP
            (isLegalTo b cost overflow) =
        ((prov.forEachReverse W b).filterMap fun candidate =>
          emitSpecialCandidate W cls candidate b).countP (isLegalTo a cost overflow) := by
      rcases hprov with rfl | ⟨tag, rfl⟩
      · rfl
      · exact countP_stairs ha hb
    rw [forEachReverse_eq hb.passable, forEachForward, List.countP_append, List.countP_append,
      countP_regular ha hb, hspecial]
  · rw [forEachForward, exists_regular_iff]
    exact exists_candidate_iff hb fun candidate h => h ▸ hb
  · rw [forEachReverse_eq hb.passable, exists_regular_iff, isRegularCandidate_comm,
      regularAvailability_comm]
    exact exists_candidate_iff ha fun _ _ => hb

end Probes

/-- A stair of the columns and its ends: one special edge up, one down, at one tick. -/
theorem transitions_dual_columns :
    (∀ cost overflow,
      (forEachForward (openWorld columns) (.unitCostField (by decide) ())
          (stairTransitions columns ()) ⟨0, 0, 0⟩).countP
            (isLegalTo ⟨1, 0, 1⟩ cost overflow) =
        (forEachReverse (openWorld columns) (.unitCostField (by decide) ())
          (stairTransitions columns ()) ⟨1, 0, 1⟩).countP
            (isLegalTo ⟨0, 0, 0⟩ cost overflow)) ∧
    (forEachForward (openWorld columns) (.unitCostField (by decide) ())
      (stairTransitions columns ()) ⟨0, 0, 0⟩).countP (isLegalTo ⟨1, 0, 1⟩ 1 false) = 1 := by
  have h := transitions_dual (openWorld columns) (.unitCostField (by decide) ())
    (stairTransitions columns ()) (Or.inr ⟨(), rfl⟩) ⟨0, 0, 0⟩ ⟨1, 0, 1⟩ (by decide) (by decide)
    (by decide) (by decide)
  exact ⟨h.1, by decide⟩

end Tess
