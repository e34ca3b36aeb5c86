import Tess.Path.Weighted

/-!
# The unit search

`astar_path`: the shortcuts of dense worlds and the two-list frontier of the orthogonal lattice;
every other lattice or step policy goes to the weighted search under unit entry costs.

* `unitLoop` : pop from the current band, and swap the bands when it is empty;
* `BandInv` : **every queued `f` is `currentF`, or `currentF + 2` in the second band**;
* `unitLoop_spec` : the loop ends within its fuel, as `SearchEnds` says;
* `unitSearch_exact` : with too few tiles to reach the sentinel the answer is exact.
-/

namespace Tess

open Graphs

section Definitions

variable {S : Shape} {Tag : Type*} (W : World S Tag) (cls : MovementClass S Tag)

/-- `open_.swap(open_next_)`. -/
def PathScratch.swapBands (s : PathScratch) : PathScratch :=
  { s with openList := s.openNext, openNext := s.openList }

/-- The sink of `for_each_forward` in the unit loop. -/
def relaxUnit (goal : Coord3) (index g currentF : ℕ) (st : SearchState)
    (probe : TransitionProbe) : SearchState :=
  if probe.availability = .missingTopology then { st with crossedMissing := true }
  else match residentOffset W probe.destIndex with
    | none => { st with crossedMissing := true }
    | some neighborOffset =>
      if st.scratch.stateAt neighborOffset = .closed then st
      else
        let tentativeG := (g + 1) % 2 ^ 32
        if tentativeG < st.scratch.gAt neighborOffset then
          let s := st.scratch.lowerNode neighborOffset tentativeG index
          let node := PackedOpenNode.make probe.destIndex tentativeG
            (saturatingAdd tentativeG
              (heuristic cls.unit (adjacentTransitions S Tag) probe.dest goal)) 0
          { st with scratch := if node.f ≤ currentF then s.push node else s.pushNext node }
        else st

/-- The two-list loop of `astar_path`. -/
def unitLoop (policy : MissingChunkPolicy) (request : PathRequest) :
    ℕ → ℕ → SearchState → PathResult × PathScratch
  | 0, _, st => ({}, st.scratch)
  | fuel + 1, currentF, st =>
    if st.scratch.openList = [] ∧ st.scratch.openNext = [] then
      exhaustedResult W cls.unit policy st
    else
      let swap : Bool := st.scratch.openList.isEmpty
      let currentF := if swap then saturatingAdd currentF 2 else currentF
      let s := if swap then st.scratch.swapBands else st.scratch
      match s.openList with
      | [] => ({}, s)
      | current :: rest =>
        let st := { st with scratch := s.setOpen rest }
        let index := current.nodeIndex 0
        if st.scratch.stateAt (offset W index) = .closed ∨
            current.g ≠ st.scratch.gAt (offset W index) then
          unitLoop policy request fuel currentF st
        else
          let st := { st with
            scratch := st.scratch.closeNode (offset W index)
            expandedNodes := st.expandedNodes + 1 }
          if index = S.tileKey request.goal then
            foundResult W cls.unit (S.tileKey request.start) index current.g st
          else
            unitLoop policy request fuel currentF
              ((forEachForward W cls.unit (adjacentTransitions S Tag) (S.coord index)).foldl
                (relaxUnit W cls request.goal index current.g currentF) st)

/-- `astar_path` from the node arrays on. -/
def unitSearch (policy : MissingChunkPolicy) (request : PathRequest) (s : PathScratch) :
    PathResult × PathScratch :=
  let start := S.tileKey request.start
  let s := (s.resize (capacityHint W)).openStart (offset W start)
  let currentF := heuristic cls.unit (adjacentTransitions S Tag) request.start request.goal
  unitLoop W cls policy request (searchFuel W cls.unit (adjacentTransitions S Tag)) currentF
    { scratch := s.push (.make start 0 currentF 0) }

/-- The two-list search applies: face steps of unit cost on the orthogonal lattice. -/
def UsesUnitSearch : Prop := cls.stepPolicy = .defaultSteps ∧ S.lattice = .orthogonal

instance : Decidable (UsesUnitSearch cls) := inferInstanceAs (Decidable (_ ∧ _))

/-- `astar_path` of a class, without a provider. -/
def astarPath (policy : MissingChunkPolicy) (request : PathRequest) (scratch : PathScratch) :
    PathResult × PathScratch :=
  if ¬ UsesUnitSearch cls then
    weightedAstarPath W cls.unit (adjacentTransitions S Tag) policy request 0 scratch
  else
    let s := scratch.clear
    match endpointFailure W cls policy request with
    | some status => ({ status := status }, s)
    | none =>
      match if W.IsDense then astarShortcut W cls request else none with
      | some r => (r, { s with path := r.path })
      | none => unitSearch W cls policy request s

/-- `astar_path` of a class with a provider. -/
def astarPathWith (prov : Provider S Tag) (policy : MissingChunkPolicy) (request : PathRequest)
    (scratch : PathScratch) : PathResult × PathScratch :=
  weightedAstarPath W cls.unit prov policy request 0 scratch

end Definitions

/-! ### Unit steps -/

section UnitSteps

variable {S : Shape} {Tag : Type*} {W : World S Tag} {cls : MovementClass S Tag}
  {a b c : Coord3} {k C : ℕ}

/-- One legal step of a class at unit cost. -/
abbrev UnitStep (W : World S Tag) (cls : MovementClass S Tag) : Coord3 → Coord3 → ℕ → Prop :=
  LegalStep W cls.unit (adjacentTransitions S Tag)

/-- **On the orthogonal lattice** a legal step at unit cost is a face step onto a passable
tile. -/
theorem unitStep_iff (hu : UsesUnitSearch cls) : UnitStep W cls a b k ↔ FreeStep W cls a b k := by
  have hp : cls.unit.stepPolicy = .defaultSteps := hu.1
  have hl := hu.2
  unfold UnitStep LegalStep RegularStep
  rw [hp, hl]
  simp only [not_specialStep_adjacent, false_and, exists_false, or_false, isPassable_unit]
  constructor
  · rintro ⟨ha, hb, -, m, ⟨hf, rfl⟩, rfl⟩
    exact ⟨ha, contains_of_isPassable hb, hf, hb,
      by rw [entryCostAt_unit (resident_of_isPassable hb)]⟩
  · rintro ⟨ha, hcb, hf, hb, rfl⟩
    have he : entryCostAt W cls.unit b = 1 := entryCostAt_unit (resident_of_isPassable hb)
    exact ⟨ha, hb, by rw [he]; decide, 1, ⟨hf, rfl⟩, by rw [he]⟩

theorem reaches_unitStep_iff (hu : UsesUnitSearch cls) :
    Reaches (UnitStep W cls) a b C ↔ Reaches (FreeStep W cls) a b C :=
  ⟨fun h => h.mono fun _ _ _ => (unitStep_iff hu).1,
    fun h => h.mono fun _ _ _ => (unitStep_iff hu).2⟩

theorem estimate_unit (hu : UsesUnitSearch cls) (goal a : Coord3) :
    estimate cls.unit (adjacentTransitions S Tag) goal a = gridDist a goal := by
  simp [estimate, adjacentTransitions, hu.1, hu.2]

/-- A face step changes the distance to the goal by exactly one. -/
theorem gridDist_of_faceAdjacent (h : FaceAdjacent a b) (goal : Coord3) :
    gridDist b goal = gridDist a goal + 1 ∨ gridDist b goal + 1 = gridDist a goal := by
  have h : gridDist a b = 1 := h
  have hpar := gridDist_parity a b goal
  have h1 := gridDist_triangle a b goal
  have h2 := gridDist_triangle b a goal
  rw [gridDist_comm b a] at h2
  omega

end UnitSteps

/-! ### The two bands -/

section Bands

variable {S : Shape} {Tag : Type*} (W : World S Tag) (cls : MovementClass S Tag)

/-- The open-list entry of the unit search. -/
abbrev unitEntryOf (goal : Coord3) (c : Coord3) (x : ℕ) : PackedOpenNode :=
  openEntry cls.unit (adjacentTransitions S Tag) goal 0 c x

/-- What a band holds: entries of resident tiles with one common `f`. -/
def Band (goal : Coord3) (band : List PackedOpenNode) (f : ℕ) : Prop :=
  ∀ n ∈ band, ∃ c x, W.Resident c ∧ x < infiniteCost ∧ n = unitEntryOf cls goal c x ∧
    min (x + gridDist c goal) infiniteCost = f

/-- **The invariant of the two-list loop**: the bands hold the entries with `f = currentF` and
with `f = currentF + 2`, and together they are the queue of the search. -/
structure BandInv (request : PathRequest) (currentF : ℕ) (st : SearchState) (cur : Coord3)
    (probes : List TransitionProbe) : Prop where
  /-- The invariant of the search. -/
  search : SearchInv W cls.unit (adjacentTransitions S Tag) request
    (fun c x => W.Resident c ∧ (unitEntryOf cls request.goal c x ∈ st.scratch.openList ∨
      unitEntryOf cls request.goal c x ∈ st.scratch.openNext)) True st cur probes
  /-- The current band. -/
  openList : Band W cls request.goal st.scratch.openList currentF
  /-- The next band. -/
  openNext : Band W cls request.goal st.scratch.openNext (min (currentF + 2) infiniteCost)
  /-- `currentF` is cut off at the sentinel. -/
  currentF_le : currentF ≤ infiniteCost

variable {W cls} {request : PathRequest} {currentF : ℕ} {st : SearchState} {cur c : Coord3}
  {probes : List TransitionProbe} {p : TransitionProbe} {x : ℕ} {policy : MissingChunkPolicy}

theorem unitEntryOf_f (hu : UsesUnitSearch cls) :
    (unitEntryOf cls request.goal c x).f = min (x + gridDist c request.goal) infiniteCost := by
  rw [unitEntryOf, openEntry, PackedOpenNode.f_make, estimate_unit hu]

namespace BandInv

/-- **Swapping the bands** when the current one is empty. -/
theorem swap (I : BandInv W cls request currentF st cur []) (h : st.scratch.openList = []) :
    BandInv W cls request (min (currentF + 2) infiniteCost)
      { st with scratch := st.scratch.swapBands } cur [] := by
  refine ⟨⟨?_, I.search.label_le, I.search.parent_lt, I.search.path_nil, I.search.missing,
    I.search.noticed.mono (fun u hu => ⟨hu, rfl⟩) id id⟩, I.openNext, ?_, min_le_right _ _⟩
  · exact I.search.labels.requeue fun w _ _ hw => ⟨hw.1, hw.2.symm⟩
  · intro n hn
    rw [show (PathScratch.swapBands st.scratch).openNext = [] from h] at hn
    exact absurd hn List.not_mem_nil

/-- **Offering one probe** of the tile that was closed last: its target goes to the band of its
`f`. -/
theorem relaxUnit (hu : UsesUnitSearch cls)
    (I : BandInv W cls request currentF st cur (p :: probes))
    (hcur : (tileLabels W st.scratch).closed cur)
    (hf : min ((tileLabels W st.scratch).g cur + gridDist cur request.goal) infiniteCost =
      currentF)
    (hp : p ∈ forEachForward W cls.unit (adjacentTransitions S Tag) cur) :
    BandInv W cls request currentF
      (Tess.relaxUnit W cls request.goal (S.tileKey cur) ((tileLabels W st.scratch).g cur)
        currentF st p) cur probes := by
  have hgM := I.search.labels.closed_lt cur hcur
  set g := (tileLabels W st.scratch).g cur with hg
  unfold Tess.relaxUnit
  split_ifs with h1
  · refine ⟨I.search.offered hcur hp rfl id (by simp [h1]) Or.inl fun w j _ hrep => ?_,
      I.openList, I.openNext, I.currentF_le⟩
    exact absurd (hrep.1.symm.trans h1) (by decide)
  have hl : p.availability = .legal := by
    cases ha : p.availability with
    | legal => rfl
    | missingTopology => exact absurd ha h1
    | blocked => exact absurd ha (not_blocked_of_mem_forEachForward hp)
  obtain ⟨k, hstep, hrep⟩ := legalStep_of_mem_forEachForward hcur.1.contains hp hl
  have hfree := (unitStep_iff hu).1 hstep
  obtain rfl : k = 1 := hfree.unit
  have hset : ∀ w j, p.Reports S w j → w = p.dest ∧ j = 1 := fun w j h =>
    hrep.cost_eq h (by decide)
  have hmod : (g + 1) % 2 ^ 32 = g + 1 := Nat.mod_eq_of_lt (by
    have := infiniteCost_eq
    omega)
  have hnode : PackedOpenNode.make (S.tileKey p.dest) (g + 1) (saturatingAdd (g + 1)
      (heuristic cls.unit (adjacentTransitions S Tag) p.dest request.goal)) 0 =
      unitEntryOf cls request.goal p.dest (g + 1) := make_eq_openEntry (by omega)
  rw [hrep.2.2.1, residentOffset_tileKey hstep.resident_right]
  simp only [hmod, hnode, unitEntryOf_f hu]
  have hnext := gridDist_of_faceAdjacent hfree.2.2.1 request.goal
  by_cases h3 : st.scratch.stateAt (offset W (S.tileKey p.dest)) = .closed
  · rw [if_pos h3]
    refine ⟨I.search.offered hcur hp rfl id (by simp [h1]) Or.inl fun w j _ h => ?_,
      I.openList, I.openNext, I.currentF_le⟩
    obtain ⟨rfl, rfl⟩ := hset w j h
    exact Or.inl ((tileLabels_closed hstep.resident_right).2 h3)
  rw [if_neg h3]
  by_cases h4 : g + 1 < st.scratch.gAt (offset W (S.tileKey p.dest))
  swap
  · rw [if_neg h4]
    refine ⟨I.search.offered hcur hp rfl id (by simp [h1]) Or.inl fun w j _ h => ?_,
      I.openList, I.openNext, I.currentF_le⟩
    obtain ⟨rfl, rfl⟩ := hset w j h
    by_cases hM : g + 1 < infiniteCost
    · refine Or.inr (Or.inl ?_)
      rw [tileLabels_g hstep.resident_right]
      omega
    · exact Or.inr (Or.inr ⟨by omega, trivial⟩)
  rw [if_pos h4]
  rw [← tileLabels_g hstep.resident_right] at h4
  have hM : g + 1 < infiniteCost := h4.trans_le (I.search.label_le _)
  have hne : ¬ (tileLabels W st.scratch).closed p.dest := fun h =>
    h3 ((tileLabels_closed hstep.resident_right).1 h)
  have hband : ∀ f, min (g + 1 + gridDist p.dest request.goal) infiniteCost = f →
      ∃ c x, W.Resident c ∧ x < infiniteCost ∧
        unitEntryOf cls request.goal p.dest (g + 1) = unitEntryOf cls request.goal c x ∧
          min (x + gridDist c request.goal) infiniteCost = f := fun f hf =>
    ⟨p.dest, g + 1, hstep.resident_right, hM, rfl, hf⟩
  by_cases h5 : min (g + 1 + gridDist p.dest request.goal) infiniteCost ≤ currentF
  · rw [if_pos h5]
    refine ⟨I.search.lowered hcur hrep hstep hne h4 hM rfl rfl (by simp) rfl rfl ?_ ?_,
      List.forall_mem_cons.2 ⟨hband _ (by omega), ?_⟩, ?_, I.currentF_le⟩
    · intro w x hw
      simp only [PathScratch.openList_push, PathScratch.openList_lowerNode, List.mem_cons]
      exact ⟨hw.1, hw.2.imp Or.inr fun h => by simpa [PathScratch.push] using h⟩
    · exact ⟨hstep.resident_right, Or.inl (List.mem_cons.2 (Or.inl rfl))⟩
    · rw [PathScratch.openList_lowerNode]
      exact I.openList
    · simpa [PathScratch.push] using I.openNext
  · rw [if_neg h5]
    refine ⟨I.search.lowered hcur hrep hstep hne h4 hM rfl rfl (by simp [PathScratch.pushNext])
      rfl rfl ?_ ?_, ?_, List.forall_mem_cons.2 ⟨hband _ (by omega), ?_⟩, I.currentF_le⟩
    · intro w x hw
      refine ⟨hw.1, hw.2.imp (fun h => by simpa [PathScratch.pushNext] using h) fun h => ?_⟩
      simpa [PathScratch.pushNext] using Or.inr h
    · exact ⟨hstep.resident_right, Or.inr (List.mem_cons.2 (Or.inl rfl))⟩
    · simpa [PathScratch.pushNext] using I.openList
    · rw [PathScratch.openNext_lowerNode]
      exact I.openNext

theorem offersOne_relaxUnit (W : World S Tag) (cls : MovementClass S Tag) (goal : Coord3)
    (index g currentF : ℕ) : OffersOne (Tess.relaxUnit W cls goal index g currentF) := by
  intro st p
  unfold Tess.relaxUnit
  split_ifs
  · exact Or.inl rfl
  · split
    · exact Or.inl rfl
    · simp only
      split_ifs with h1 h2 h3
      · exact Or.inl rfl
      · exact Or.inr ⟨_, _, _, _, h1, Or.inl rfl⟩
      · exact Or.inr ⟨_, _, _, _, h1, Or.inr rfl⟩
      · exact Or.inl rfl

/-- **Offering all probes** of the tile that was closed last. -/
theorem foldl_relaxUnit (hu : UsesUnitSearch cls)
    (I : BandInv W cls request currentF st cur probes)
    (hcur : (tileLabels W st.scratch).closed cur)
    (hf : min ((tileLabels W st.scratch).g cur + gridDist cur request.goal) infiniteCost =
      currentF)
    (hsub : ∀ p ∈ probes, p ∈ forEachForward W cls.unit (adjacentTransitions S Tag) cur) :
    BandInv W cls request currentF
      (probes.foldl (Tess.relaxUnit W cls request.goal (S.tileKey cur)
        ((tileLabels W st.scratch).g cur) currentF) st) cur [] := by
  induction probes generalizing st with
  | nil => exact I
  | cons p ps ih =>
    have hstep := I.relaxUnit hu hcur hf (hsub p List.mem_cons_self)
    obtain ⟨h1, h2, -⟩ := (offersOne_relaxUnit W cls request.goal (S.tileKey cur)
      ((tileLabels W st.scratch).g cur) currentF).foldl [p] st
    rw [List.foldl_cons, List.foldl_nil] at h1 h2
    have hg := h2 _ ((tileLabels_closed hcur.1).1 hcur)
    rw [← tileLabels_g hcur.1, ← tileLabels_g hcur.1] at hg
    have := ih hstep ⟨hcur.1, (h1 _).2 hcur.2⟩ (by rw [hg]; exact hf)
      fun q hq => hsub q (List.mem_cons_of_mem _ hq)
    rw [hg] at this
    exact this

/-- **Popping a stale entry** loses nothing. -/
theorem pop_stale (I : BandInv W cls request currentF st cur []) {n : PackedOpenNode}
    {rest : List PackedOpenNode} (hpop : st.scratch.openList = n :: rest) (hc : W.Resident c)
    (hx : x < infiniteCost) (hn : n = unitEntryOf cls request.goal c x)
    (hstale : (tileLabels W st.scratch).closed c ∨ x ≠ (tileLabels W st.scratch).g c) :
    BandInv W cls request currentF { st with scratch := st.scratch.setOpen rest } cur [] := by
  have hopen := I.openList
  rw [hpop] at hopen
  refine ⟨⟨?_, I.search.label_le, I.search.parent_lt, I.search.path_nil, I.search.missing,
    I.search.noticed.mono (fun u hu => ⟨hu, rfl⟩) id id⟩, fun m hm => hopen m (List.mem_cons_of_mem _ hm), I.openNext, I.currentF_le⟩
  refine I.search.labels.requeue fun w hw hwc hmem => ⟨hmem.1, hmem.2.imp_left fun hmem => ?_⟩
  rw [hpop] at hmem
  refine (List.mem_cons.1 hmem).resolve_left fun heq => ?_
  obtain ⟨rfl, hxw⟩ := openEntry_inj (resident_of_g_lt hw).contains hc.contains hw.le hx.le
    (heq.trans hn)
  rcases hstale with h | h
  · exact hwc h
  · exact h hxw.symm

/-- **Popping a fresh entry** closes its tile: no queued `f` is smaller than `currentF`. -/
theorem pop_fresh (hu : UsesUnitSearch cls) (I : BandInv W cls request currentF st cur [])
    {n : PackedOpenNode} {rest : List PackedOpenNode}
    (hpop : st.scratch.openList = n :: rest) (hc : W.Resident c) (hx : x < infiniteCost)
    (hn : n = unitEntryOf cls request.goal c x)
    (hf : min (x + gridDist c request.goal) infiniteCost = currentF)
    (hclosed : ¬ (tileLabels W st.scratch).closed c) (hg : x = (tileLabels W st.scratch).g c) :
    BandInv W cls request currentF
      { st with
        scratch := (st.scratch.setOpen rest).closeNode (offset W (S.tileKey c))
        expandedNodes := st.expandedNodes + 1 } c
      (forEachForward W cls.unit (adjacentTransitions S Tag) c) := by
  have hopen := I.openList
  rw [hpop] at hopen
  have hle := I.currentF_le
  subst hg
  refine ⟨I.search.closed hc hx hclosed (fun w y hw => ?_) rfl rfl rfl rfl rfl
    fun w y hwc hw => ⟨hw.1, hw.2.imp_left fun hmem => ?_⟩,
    fun m hm => hopen m (List.mem_cons_of_mem _ hm), I.openNext, hle⟩
  · rw [estimate_unit hu, estimate_unit hu, hf]
    have hband : ∀ {f}, (∃ c x, W.Resident c ∧ x < infiniteCost ∧
        unitEntryOf cls request.goal w y = unitEntryOf cls request.goal c x ∧
          min (x + gridDist c request.goal) infiniteCost = f) →
        min (y + gridDist w request.goal) infiniteCost = f := by
      rintro f ⟨d, z, -, -, heq, hfz⟩
      have := congrArg PackedOpenNode.f heq
      rw [unitEntryOf_f hu, unitEntryOf_f hu] at this
      exact this.trans hfz
    rcases hw.2 with hmem | hmem
    · exact (hband (I.openList _ hmem)).ge
    · have := hband (I.openNext _ hmem)
      omega
  · rw [hpop] at hmem
    refine (List.mem_cons.1 hmem).resolve_left fun heq => hwc ?_
    have h := congrArg (fun n => n.nodeIndex 0) (heq.trans hn)
    simp only [unitEntryOf, HeapInv.openEntry_nodeIndex hc.contains,
      HeapInv.openEntry_nodeIndex hw.1.contains] at h
    exact Shape.tileKey_inj hw.1.contains hc.contains h

end BandInv

/-- The bands after the swap, when there is one. -/
theorem BandInv.swapped (I : BandInv W cls request currentF st cur []) :
    BandInv W cls request
      (if st.scratch.openList.isEmpty then saturatingAdd currentF 2 else currentF)
      { st with scratch :=
          if st.scratch.openList.isEmpty then st.scratch.swapBands else st.scratch } cur [] := by
  split_ifs with h
  · rw [saturatingAdd_eq_min I.currentF_le]
    exact I.swap (List.isEmpty_iff.1 h)
  · exact I

/-- **The two-list loop ends within its fuel**, and its invariant holds of where it ended. -/
theorem unitLoop_spec (hu : UsesUnitSearch cls) (policy : MissingChunkPolicy)
    (hgoal : S.contains request.goal = true) (fuel : ℕ) (cur : Coord3)
    (I : BandInv W cls request currentF st cur [])
    (hopen : ¬ (tileLabels W st.scratch).closed request.goal)
    (hfuel : st.scratch.openCount +
      openEdges W cls.unit (adjacentTransitions S Tag) st.scratch < fuel) :
    SearchEnds W cls.unit (adjacentTransitions S Tag) policy request (fun _ => True)
      (unitLoop W cls policy request fuel currentF st) := by
  induction fuel generalizing st cur currentF with
  | zero => omega
  | succ fuel ih =>
    rw [unitLoop]
    by_cases hempty : st.scratch.openList = [] ∧ st.scratch.openNext = []
    · rw [if_pos hempty]
      exact Or.inr ⟨st, cur, _, I.search, fun c x h => by simp [hempty] at h, hopen, rfl⟩
    rw [if_neg hempty]
    have I' := I.swapped
    simp only
    set s := if st.scratch.openList.isEmpty = true then st.scratch.swapBands else st.scratch
      with hs
    have hcount : s.openCount = st.scratch.openCount := by
      rw [hs]
      split_ifs
      · exact Nat.add_comm _ _
      · rfl
    have hedges : openEdges W cls.unit (adjacentTransitions S Tag) s =
        openEdges W cls.unit (adjacentTransitions S Tag) st.scratch :=
      openEdges_congr fun o => by rw [hs]; split_ifs <;> rfl
    have hopen' : ¬ (tileLabels W s).closed request.goal := by
      rw [hs]
      split_ifs <;> exact hopen
    rw [← hcount, ← hedges] at hfuel
    cases hpop : s.openList with
    | nil =>
      exfalso
      rw [hs] at hpop
      split_ifs at hpop with h
      · exact hempty ⟨List.isEmpty_iff.1 h, hpop⟩
      · exact h (List.isEmpty_iff.2 hpop)
    | cons n rest =>
      have hlen : s.openCount = rest.length + 1 + s.openNext.length := by
        rw [PathScratch.openCount, hpop, List.length_cons]
      obtain ⟨c, x, hc, hx, hn, hf⟩ := I'.openList n (by
        change n ∈ s.openList
        rw [hpop]
        exact List.mem_cons_self)
      have hidx : n.nodeIndex 0 = S.tileKey c := by
        rw [hn]; exact HeapInv.openEntry_nodeIndex hc.contains
      have hg : n.g = x := by rw [hn]; exact HeapInv.openEntry_g hx.le
      simp only [hidx, hg, PathScratch.stateAt_setOpen, PathScratch.gAt_setOpen]
      by_cases hstale : s.stateAt (offset W (S.tileKey c)) = .closed ∨
          x ≠ s.gAt (offset W (S.tileKey c))
      · rw [if_pos hstale]
        refine ih _ (I'.pop_stale hpop hc hx hn ?_) hopen' ?_
        · exact hstale.imp (tileLabels_closed hc).2 fun h => by rwa [tileLabels_g hc]
        · change rest.length + s.openNext.length +
            openEdges W cls.unit (adjacentTransitions S Tag) s < fuel
          omega
      rw [if_neg hstale]
      simp only [not_or, not_not] at hstale
      have hcur : (s.setOpen rest).isCurrent (offset W (S.tileKey c)) = true :=
        isCurrent_of_gAt_lt (hstale.2 ▸ hx)
      have I'' := I'.pop_fresh hu hpop hc hx hn hf
        (fun h => hstale.1 ((tileLabels_closed hc).1 h)) (by rw [tileLabels_g hc]; exact hstale.2)
      have hclosed : (tileLabels W ((s.setOpen rest).closeNode
          (offset W (S.tileKey c)))).closed c :=
        ⟨hc, by rw [PathScratch.stateAt_closeNode hcur, if_pos rfl]⟩
      have hgc : (tileLabels W ((s.setOpen rest).closeNode (offset W (S.tileKey c)))).g c = x := by
        rw [tileLabels_g hc, PathScratch.gAt_closeNode, PathScratch.gAt_setOpen, hstale.2]
      by_cases hfound : S.tileKey c = S.tileKey request.goal
      · rw [if_pos hfound]
        obtain rfl := Shape.tileKey_inj hc.contains hgoal hfound
        exact Or.inl ⟨_, _, _, _, I''.search, hclosed, by rw [hgc]⟩
      rw [if_neg hfound, Shape.coord_tileKey hc.contains]
      have I3 := I''.foldl_relaxUnit hu hclosed (by rw [hgc]; exact hf) fun p hp => hp
      obtain ⟨h1, -, h3⟩ := (BandInv.offersOne_relaxUnit W cls request.goal (S.tileKey c) x
        (if st.scratch.openList.isEmpty then saturatingAdd currentF 2 else currentF)).foldl
        (forEachForward W cls.unit (adjacentTransitions S Tag) c) { st with
          scratch := (s.setOpen rest).closeNode (offset W (S.tileKey c))
          expandedNodes := st.expandedNodes + 1 }
      rw [hgc] at I3
      refine ih _ I3 ?_ ?_
      · rintro ⟨hgr, hgs⟩
        rw [h1, PathScratch.stateAt_closeNode hcur] at hgs
        split_ifs at hgs with ho
        · exact hfound (congrArg S.tileKey (offset_injOn hgr hc ho)).symm
        · exact hopen' ⟨hgr, hgs⟩
      · have hclose : openEdges W cls.unit (adjacentTransitions S Tag) ((s.setOpen rest).closeNode
            (offset W (S.tileKey c))) +
              (forEachForward W cls.unit (adjacentTransitions S Tag) c).length ≤
            openEdges W cls.unit (adjacentTransitions S Tag) (s.setOpen rest) :=
          openEdges_closeNode hc.contains hcur hstale.1
        have hcount' : ((s.setOpen rest).closeNode (offset W (S.tileKey c))).openCount =
            rest.length + s.openNext.length := rfl
        have hset : openEdges W cls.unit (adjacentTransitions S Tag) (s.setOpen rest) =
            openEdges W cls.unit (adjacentTransitions S Tag) s := rfl
        rw [openEdges_congr h1]
        dsimp only
        simp only [hcount'] at h3
        omega

end Bands

/-! ### The whole search -/

section Whole

variable {S : Shape} {Tag : Type*} {W : World S Tag} {cls : MovementClass S Tag}
  {request : PathRequest} {st : SearchState} {policy : MissingChunkPolicy}
  {scratch : PathScratch} {a b : Coord3} {l : List Coord3} {C : ℕ}

/-- **The unit search ends** from any scratch whose node arrays are cleared. -/
theorem unitSearch_spec (hu : UsesUnitSearch cls) (policy : MissingChunkPolicy)
    (hstart : W.Resident request.start) (hgoal : S.contains request.goal = true)
    {s : PathScratch} (hs : ∀ o, s.isCurrent o = false) (hopen : s.openList = [])
    (hnext : s.openNext = []) (hpath : s.path = []) :
    SearchEnds W cls.unit (adjacentTransitions S Tag) policy request (fun _ => True)
      (unitSearch W cls policy request s) := by
  have hcur : ∀ o, (s.resize (capacityHint W)).isCurrent o = false :=
    fun o => PathScratch.not_isCurrent_resize hs _ o
  have hinit := tileLabels_openStart hstart hcur
  set s' := (s.resize (capacityHint W)).openStart (offset W (S.tileKey request.start)) with hs'
  have hF : heuristic cls.unit (adjacentTransitions S Tag) request.start request.goal =
      min (gridDist request.start request.goal) infiniteCost := by
    rw [heuristic_eq_min, estimate_unit hu]
  have hentry : PackedOpenNode.make (S.tileKey request.start) 0
      (min (gridDist request.start request.goal) infiniteCost) 0 =
      unitEntryOf cls request.goal request.start 0 := by
    rw [unitEntryOf, openEntry, estimate_unit hu, Nat.zero_add]
  have hlist : (s'.push (unitEntryOf cls request.goal request.start 0)).openList =
      [unitEntryOf cls request.goal request.start 0] := by
    simp [hs', hopen]
  have hlist' : (s'.push (unitEntryOf cls request.goal request.start 0)).openNext = [] := by
    simp [PathScratch.push, hs', hnext]
  have hclosed : ∀ c, ¬ (tileLabels W s').closed c := hinit.2.2
  rw [unitSearch, ← hs']
  simp only [hF, hentry]
  refine unitLoop_spec (W := W) hu policy hgoal _ request.start
    ⟨⟨hinit.inv ⟨hstart, by simp⟩, hinit.g_le, fun c hc hne => ?_, by simpa [hs'] using hpath,
      fun u hu => absurd hu (hclosed u), ⟨fun h => ?_, fun h => ?_⟩⟩, fun n hn => ?_,
      fun n hn => ?_, min_le_right _ _⟩ (hclosed _) ?_
  · exact absurd (hinit.2.1 c hne) hc.ne
  · cases h
  · cases h
  · rw [hlist, List.mem_singleton] at hn
    exact ⟨request.start, 0, hstart, by decide, hn, by rw [Nat.zero_add]⟩
  · rw [hlist'] at hn
    exact absurd hn List.not_mem_nil
  · have hedges := openEdges_le W cls.unit (adjacentTransitions S Tag)
      (s'.push (unitEntryOf cls request.goal request.start 0))
    have hcount : (s'.push (unitEntryOf cls request.goal request.start 0)).openCount = 1 := by
      rw [PathScratch.openCount, hlist, hlist']
      rfl
    dsimp only
    rw [hcount, searchFuel]
    omega

theorem unitSearch_clear_spec (hu : UsesUnitSearch cls) (policy : MissingChunkPolicy)
    (scratch : PathScratch)
    (hs : isPassable W cls request.start = true) (hg : isPassable W cls request.goal = true) :
    SearchEnds W cls.unit (adjacentTransitions S Tag) policy request (fun _ => True)
      (unitSearch W cls policy request scratch.clear) :=
  unitSearch_spec hu policy (resident_of_isPassable hs) (contains_of_isPassable hg)
    PathScratch.not_isCurrent_clear rfl rfl rfl

/-- Offering a probe never records an overflow. -/
theorem costOverflow_relaxUnit (goal : Coord3) (index g currentF : ℕ) (st : SearchState)
    (p : TransitionProbe) :
    (relaxUnit W cls goal index g currentF st p).costOverflow = st.costOverflow := by
  unfold relaxUnit
  split_ifs
  · rfl
  · split
    · rfl
    · simp only
      split_ifs <;> rfl

theorem costOverflow_foldl_relaxUnit (goal : Coord3) (index g currentF : ℕ)
    (probes : List TransitionProbe) (st : SearchState) :
    (probes.foldl (relaxUnit W cls goal index g currentF) st).costOverflow = st.costOverflow := by
  induction probes generalizing st with
  | nil => rfl
  | cons p ps ih => rw [List.foldl_cons, ih, costOverflow_relaxUnit]

/-- The unit search has no overflow to report. -/
theorem unitLoop_status (fuel currentF : ℕ) (hst : st.costOverflow = false) :
    (unitLoop W cls policy request fuel currentF st).1.status ≠ .costOverflow := by
  induction fuel generalizing currentF st with
  | zero => simp [unitLoop]
  | succ fuel ih =>
    rw [unitLoop]
    by_cases hempty : st.scratch.openList = [] ∧ st.scratch.openNext = []
    · rw [if_pos hempty]
      simp only [exhaustedResult, hst, Bool.false_eq_true, if_false]
      split_ifs <;> simp
    rw [if_neg hempty]
    dsimp only
    generalize (if st.scratch.openList.isEmpty = true then saturatingAdd currentF 2
      else currentF) = F
    generalize (if st.scratch.openList.isEmpty = true then st.scratch.swapBands
      else st.scratch) = s
    cases hs : s.openList with
    | nil => simp
    | cons n rest =>
      simp only
      split_ifs
      · exact ih _ hst
      · simp [foundResult]
      · exact ih _ (by rw [costOverflow_foldl_relaxUnit]; exact hst)

theorem unitStep_unitCost (hu : UsesUnitSearch cls) : UnitCost (UnitStep W cls) :=
  fun _ _ _ h => ((unitStep_iff hu).1 h).unit

/-- The tiles that free steps from a tile reach are fewer than the sentinel can count. -/
def FewReachable (W : World S Tag) (cls : MovementClass S Tag) (start : Coord3) : Prop :=
  ∃ s : Finset Coord3, (∀ v C, Reaches (FreeStep W cls) start v C → v ∈ s) ∧
    s.card ≤ infiniteCost

theorem fewReachable_of_tileCount (h : S.tileCount ≤ infiniteCost) {start : Coord3}
    (hs : S.contains start = true) : FewReachable W cls start :=
  ⟨S.tiles, fun _ _ hr => Shape.mem_tiles.2 (contains_of_reaches hr hs),
    by rw [Shape.card_tiles]; exact h⟩

/-- **A shortest route** stays below the sentinel when few tiles are in reach. -/
theorem FewReachable.lt {path : List Coord3} {d : ℕ} (hf : FewReachable W cls request.start)
    (h : ShortestRoute W cls request path d) : d < infiniteCost := by
  obtain ⟨s, hs, hcard⟩ := hf
  exact (h.1.lt_card_of_least FaceStep.unit h.2 hs).trans_le hcard

/-- What an ended unit search says when few tiles are in reach. -/
theorem exactAnswer_of_searchEnds {r : PathResult × PathScratch} (hu : UsesUnitSearch cls)
    (hs : S.contains request.start = true) (hfew : FewReachable W cls request.start)
    (h : SearchEnds W cls.unit (adjacentTransitions S Tag) policy request (fun _ => True) r) :
    (r.1.status = .found → ∃ d, ShortestRoute W cls request r.1.path d ∧ r.1.cost = d) ∧
      ((∃ C, Reaches (FreeStep W cls) request.start request.goal C) → r.1.status = .found) ∧
      SearchEnds W cls.unit (adjacentTransitions S Tag) policy request (fun _ => False) r := by
  obtain ⟨s, hmem, hcard⟩ := hfew
  refine ⟨fun hf => ?_, fun ⟨C, hC⟩ => ?_, h.of_card (unitStep_unitCost hu)
    (fun v C hr => hmem v C ((reaches_unitStep_iff hu).1 hr)) hcard⟩
  · obtain ⟨hroute, -, hmin⟩ := h.found hs hf
    exact ⟨_, ⟨hroute.mono fun _ _ _ => (unitStep_iff hu).1, fun C hC =>
      hmin C ((reaches_unitStep_iff hu).2 hC)⟩, rfl⟩
  · obtain ⟨D, l, hl, hmin⟩ := hC.exists_least
    exact h.found_of_reaches ((reaches_unitStep_iff hu).2 ⟨l, hl⟩)
      ((hl.lt_card_of_least FaceStep.unit hmin hmem).trans_le hcard)

/-! ### Paths of steps -/

/-- A path of single-axis steps onto passable tiles. -/
def IsStepPath (W : World S Tag) (cls : MovementClass S Tag) (start goal : Coord3)
    (path : List Coord3) : Prop :=
  path.head? = some start ∧ path.getLast? = some goal ∧
    path.IsChain fun a b => FaceAdjacent a b ∧ isPassable W cls b = true

theorem isStepPath_of_isRoute (h : IsRoute (FreeStep W cls) l a b C) :
    IsStepPath W cls a b l := by
  refine ⟨h.head?, h.getLast?, ?_⟩
  induction h with
  | single => exact List.isChain_singleton _
  | cons hs h ih =>
    cases h with
    | single => simpa using ⟨hs.2.2.1, hs.2.2.2.1⟩
    | cons hs' h => exact List.isChain_cons_cons.2 ⟨⟨hs.2.2.1, hs.2.2.2.1⟩, ih⟩

theorem isRoute_of_isStepPath (ha : S.contains a = true) (h : IsStepPath W cls a b l) :
    IsRoute (FreeStep W cls) l a b (l.length - 1) := by
  obtain ⟨hhead, hlast, hchain⟩ := h
  induction l generalizing a with
  | nil => simp at hhead
  | cons c l ih =>
    obtain rfl : c = a := by simpa using hhead
    cases l with
    | nil =>
      obtain rfl : c = b := by simpa using hlast
      exact .single c
    | cons d l =>
      obtain ⟨⟨hface, hok⟩, hchain⟩ := List.isChain_cons_cons.1 hchain
      have hd := contains_of_isPassable hok
      have := ih hd rfl (by simpa using hlast) hchain
      rw [show (c :: d :: l).length - 1 = 1 + ((d :: l).length - 1) by simp; omega]
      exact .cons ⟨ha, hd, hface, hok, rfl⟩ this

/-- **A shortest path** of `cost` steps. -/
structure IsShortestPath (W : World S Tag) (cls : MovementClass S Tag) (request : PathRequest)
    (path : List Coord3) (cost : ℕ) : Prop where
  /-- The path is legal and joins start and goal. -/
  isStepPath : IsStepPath W cls request.start request.goal path
  /-- The cost counts the steps. -/
  length_eq : path.length = cost + 1
  /-- No legal path is shorter. -/
  least : ∀ l, IsStepPath W cls request.start request.goal l → path.length ≤ l.length

theorem ShortestRoute.isShortestPath {d : ℕ} (hs : S.contains request.start = true)
    (h : ShortestRoute W cls request l d) : IsShortestPath W cls request l d := by
  have hlen := h.1.length_eq FaceStep.unit
  refine ⟨isStepPath_of_isRoute h.1, hlen, fun m hm => ?_⟩
  have := h.2 _ ⟨m, isRoute_of_isStepPath hs hm⟩
  have hne : m ≠ [] := fun h0 => by simp [IsStepPath, h0] at hm
  have := List.length_pos_iff.2 hne
  omega

/-- **A path that was found** is a least route at unit cost from a passable start, whatever cost
is reported for it. -/
theorem astarPath_found (hf : (astarPath W cls policy request scratch).1.status = .found) :
    isPassable W cls request.start = true ∧ ∃ d,
      IsRoute (UnitStep W cls) (astarPath W cls policy request scratch).1.path request.start
        request.goal d ∧
      ∀ C, Reaches (UnitStep W cls) request.start request.goal C → d ≤ C := by
  unfold astarPath at hf ⊢
  by_cases hu : UsesUnitSearch cls
  swap
  · rw [if_pos hu] at hf ⊢
    exact weightedAstarPath_found hf
  rw [if_neg (not_not.2 hu)] at hf ⊢
  cases hends : endpointFailure W cls policy request with
  | some status =>
    rw [hends] at hf
    exact absurd hf (endpointFailure_ne hends).2
  | none =>
    obtain ⟨hs, hg⟩ := endpointFailure_eq_none.1 hends
    rw [hends] at hf
    simp only at hf ⊢
    refine ⟨hs, ?_⟩
    split at hf <;> rename_i heq
    · split_ifs at heq with hd
      rcases astarShortcut_exact hs hg heq with ⟨-, d, ⟨hroute, hmin⟩, -⟩ | ⟨hn, -⟩
      · exact ⟨d, hroute.mono fun _ _ _ => (unitStep_iff hu).2, fun C hC =>
          hmin C ((reaches_unitStep_iff hu).1 hC)⟩
      · rw [hn] at hf
        cases hf
    · obtain ⟨hroute, -, hmin⟩ :=
        (unitSearch_clear_spec hu policy scratch hs hg).found (contains_of_isPassable hs) hf
      exact ⟨_, hroute, hmin⟩

/-- **The shortcuts of `astar_path` are exact**: what they find is a shortest path, and they
report no path only when there is none. -/
theorem astarPath_shortcut_exact (hd : W.IsDense) (hu : UsesUnitSearch cls)
    (hsmall : S.tileCount < 2 ^ 31) (hs : isPassable W cls request.start = true)
    (hg : isPassable W cls request.goal = true) {r : PathResult}
    (h : astarShortcut W cls request = some r) :
    (astarPath W cls policy request scratch).1 = r ∧
      ((r.status = .found ∧ IsShortestPath W cls request r.path r.cost) ∨
        (r.status = .noPath ∧ ∀ l, ¬ IsStepPath W cls request.start request.goal l)) := by
  have hcs := contains_of_isPassable hs
  have hfew : FewReachable W cls request.start :=
    fewReachable_of_tileCount (by rw [infiniteCost_eq]; omega) hcs
  refine ⟨by simp [astarPath, hu, endpointFailure_eq_none.2 ⟨hs, hg⟩, hd, h], ?_⟩
  rcases astarShortcut_exact hs hg h with ⟨hf, d, hd, hcost⟩ | ⟨hn, -, -, hno⟩
  · refine Or.inl ⟨hf, ?_⟩
    rw [hcost (hfew.lt hd).le]
    exact hd.isShortestPath hcs
  · exact Or.inr ⟨hn, fun l hl => hno _ ⟨l, isRoute_of_isStepPath hcs hl⟩⟩

theorem astarPath_shortcut_exact_square :
    let r := shortcutFound 2 [⟨0, 0, 0⟩, ⟨1, 0, 0⟩, ⟨1, 1, 0⟩]
    (astarPath (openWorld square) squareClass .assumeImpassable squareRequest {}).1 = r ∧
      ((r.status = .found ∧
          IsShortestPath (openWorld square) squareClass squareRequest r.path r.cost) ∨
        (r.status = .noPath ∧ ∀ l, ¬ IsStepPath (openWorld square) squareClass
          squareRequest.start squareRequest.goal l)) :=
  astarPath_shortcut_exact (W := openWorld square) rfl ⟨rfl, rfl⟩ (by decide) (by decide) (by decide) (by decide)

/-- **The two-list search is exact** and always ends: it finds a shortest path over the passable
resident tiles whenever there is one. -/
theorem unitSearch_exact (hu : UsesUnitSearch cls) (hsmall : S.tileCount < 2 ^ 31)
    (hends : endpointFailure W cls policy request = none) :
    let r := (unitSearch W cls policy request scratch.clear).1
    (r.status = .found ↔ ∃ l, IsStepPath W cls request.start request.goal l) ∧
      (r.status = .found → IsShortestPath W cls request r.path r.cost) ∧
      r.status ≠ .notComputed := by
  obtain ⟨hs, hg⟩ := endpointFailure_eq_none.1 hends
  have hcs := contains_of_isPassable hs
  have hfew : FewReachable W cls request.start :=
    fewReachable_of_tileCount (by rw [infiniteCost_eq]; omega) hcs
  have hspec := unitSearch_clear_spec hu policy scratch hs hg
  obtain ⟨hfound, hreach, -⟩ := exactAnswer_of_searchEnds hu hcs hfew hspec
  refine ⟨⟨fun hf => ?_, fun ⟨l, hl⟩ => hreach ⟨_, l, isRoute_of_isStepPath hcs hl⟩⟩,
    fun hf => ?_, ?_⟩
  · obtain ⟨d, hd, -⟩ := hfound hf
    exact ⟨_, isStepPath_of_isRoute hd.1⟩
  · obtain ⟨d, hd, hcost⟩ := hfound hf
    rw [hcost]
    exact hd.isShortestPath hcs
  · rcases hspec.status with h | h | h | ⟨h, -⟩ <;> rw [h] <;> decide

theorem unitSearch_exact_square :
    let r := (unitSearch (openWorld square) squareClass .assumeImpassable squareRequest
      (PathScratch.clear {})).1
    (r.status = .found ↔ ∃ l, IsStepPath (openWorld square) squareClass squareRequest.start
        squareRequest.goal l) ∧
      (r.status = .found →
        IsShortestPath (openWorld square) squareClass squareRequest r.path r.cost) ∧
      r.status ≠ .notComputed :=
  unitSearch_exact (W := openWorld square) ⟨rfl, rfl⟩ (by decide) (by decide)

end Whole

end Tess
