import Tess.Path.Astar
import Tess.Topology.Stairs

/-!
# Answers about sparse worlds

Under `ReportIndeterminate` a definite answer about a sparse world is one about every world that
completes its missing chunks.

* `SparseSound` : no path, or the path found, whatever the missing chunks hold;
* `SearchEnds.sparseSound` : **the searches that record an overflow are sound**;
* `UnitDecides` : the inputs on which the unit search, which records none, is sound as well;
* `sparse_answers_sound` : what each entry point answers.
-/

namespace Tess

open Graphs

section Definitions

variable {S : Shape} {Tag : Type*} (W : World S Tag) (cls : MovementClass S Tag)
  (prov : Provider S Tag)

/-- **A definite answer holds in every completion**: no route when there is no path, and the
same path at the same cost when there is one. -/
structure SparseSound (request : PathRequest) (r : PathResult) : Prop where
  /-- No completion has a route. -/
  noPath : r.status = .noPath → ∀ W' : World S Tag, W'.Completes W →
    ∀ C, ¬ Reaches (LegalStep W' cls prov) request.start request.goal C
  /-- The path is legal in every completion. -/
  found : r.status = .found → ∀ W' : World S Tag, W'.Completes W →
    IsRoute (LegalStep W' cls prov) r.path request.start request.goal r.cost

/-- Some probe of the tile reports missing topology. -/
def BesideMissing (u : Coord3) : Prop :=
  ∃ p ∈ forEachForward W cls prov u, p.availability = .missingTopology

/-- **The unit search decides the request**: it does not run, or the goal is within the
sentinel's range, or a tile beside a missing chunk is, or the goal and every missing chunk are
out of reach, or there are too few tiles in reach to exhaust 32 bits. -/
def UnitDecides (request : PathRequest) : Prop :=
  ¬ UsesUnitSearch cls ∨ isPassable W cls request.start = false ∨
    isPassable W cls request.goal = false ∨
    (∃ C < infiniteCost, Reaches (UnitStep W cls) request.start request.goal C) ∨
    (∃ u C, Reaches (UnitStep W cls) request.start u C ∧
      C + gridDist u request.goal < infiniteCost ∧
        BesideMissing W cls.unit (adjacentTransitions S Tag) u) ∨
    ((∀ C, ¬ Reaches (UnitStep W cls) request.start request.goal C) ∧
      ∀ u C, Reaches (UnitStep W cls) request.start u C →
        ¬ BesideMissing W cls.unit (adjacentTransitions S Tag) u) ∨
    FewReachable W cls request.start

end Definitions

variable {S : Shape} {Tag : Type*} {W : World S Tag} {cls : MovementClass S Tag}
  {prov : Provider S Tag} {request : PathRequest} {r : PathResult} {seed : BitVec 64}
  {scratch : PathScratch} {policy : MissingChunkPolicy} {a b : Coord3} {C : ℕ}

/-! ### Two worlds -/

theorem IsRoute.of_completes {W' : World S Tag} (h : W'.Completes W) (hprov : prov.ReportsMissing)
    {l : List Coord3} (hl : IsRoute (LegalStep W cls prov) l a b C) :
    IsRoute (LegalStep W' cls prov) l a b C :=
  hl.mono fun _ _ _ hs => hs.of_completes h hprov

/-- A set of resident tiles that legal steps do not leave and that touches no missing chunk is
not left in any completion either. -/
theorem not_reaches_of_separated {W' : World S Tag} (h : W'.Completes W)
    (hprov : prov.ReportsMissing) {P : Coord3 → Prop} (hstart : W.Resident a) (ha : P a)
    (hb : ¬ P b) (hstep : ∀ u v k, P u → LegalStep W cls prov u v k → P v)
    (hmiss : ∀ u, P u → ¬ BesideMissing W cls prov u) :
    ¬ Reaches (LegalStep W' cls prov) a b C := by
  intro hr
  obtain ⟨u, v, k, -, -, -, ⟨hu, hres⟩, hs, hv, -⟩ :=
    hr.exists_crossing (P := fun u => P u ∧ W.Resident u) ⟨ha, hstart⟩ fun hP => hb hP.1
  rcases legalStep_or_missing h hprov hres hs with hs | hm
  · exact hv ⟨hstep u v k hu hs, hs.resident_right⟩
  · exact hmiss u hu hm

/-- What is out of reach of a region that touches no missing chunk stays so. -/
theorem not_reaches_of_sealed {W' : World S Tag} (h : W'.Completes W)
    (hprov : prov.ReportsMissing) (hstart : W.Resident a)
    (hno : ∀ C, ¬ Reaches (LegalStep W cls prov) a b C)
    (hmiss : ∀ u C, Reaches (LegalStep W cls prov) a u C → ¬ BesideMissing W cls prov u) :
    ¬ Reaches (LegalStep W' cls prov) a b C :=
  not_reaches_of_separated (P := fun u => ∃ C, Reaches (LegalStep W cls prov) a u C) h hprov
    hstart ⟨0, .refl a⟩ (fun ⟨C, hC⟩ => hno C hC)
    (fun _ _ _ ⟨_, hC⟩ hs => ⟨_, hC.tail hs⟩) fun u ⟨C, hC⟩ => hmiss u C hC

/-! ### Ended searches -/

/-- A path that a search found is legal in every completion. -/
theorem SearchEnds.found_of_completes {overflow : SearchState → Prop}
    {r : PathResult × PathScratch} (h : SearchEnds W cls prov policy request overflow r)
    (hprov : prov.ReportsMissing) (hstart : S.contains request.start = true)
    (hf : r.1.status = .found) (W' : World S Tag) (hW : W'.Completes W) :
    IsRoute (LegalStep W' cls prov) r.1.path request.start request.goal r.1.cost :=
  IsRoute.of_completes hW hprov (h.found hstart hf).1

/-- **A search that records every overflow is sound.** -/
theorem SearchEnds.sparseSound {overflow : SearchState → Prop} {r : PathResult × PathScratch}
    (h : SearchEnds W cls prov .reportIndeterminate request overflow r)
    (hov : ∀ st, overflow st → st.costOverflow = true) (hsp : W.residency = .sparseResident)
    (hprov : prov.ReportsMissing) (hstart : W.Resident request.start) :
    SparseSound W cls prov request r.1 := by
  refine ⟨fun hn W' hW C => ?_, h.found_of_completes hprov hstart.contains⟩
  obtain ⟨P, hP, hg, hstep, hmiss⟩ := h.separated hov hn
  exact not_reaches_of_separated hW hprov hstart hP hg hstep fun u hu ⟨p, hp, hm⟩ =>
    hmiss hsp rfl u hu p hp hm

theorem sparseSound_of_ne (hn : r.status ≠ .noPath) (hf : r.status ≠ .found) :
    SparseSound W cls prov request r := ⟨fun h => absurd h hn, fun h => absurd h hf⟩

theorem not_isDense (hsp : W.residency = .sparseResident) : ¬ W.IsDense := fun h => by
  rw [World.IsDense, hsp] at h
  cases h

/-- **`weighted_astar_path` is sound.** -/
theorem weightedAstarPath_sparseSound (hsp : W.residency = .sparseResident)
    (hprov : prov.ReportsMissing) :
    SparseSound W cls prov request
      (weightedAstarPath W cls prov .reportIndeterminate request seed scratch).1 := by
  unfold weightedAstarPath
  cases hends : endpointFailure W cls .reportIndeterminate request with
  | some status =>
    obtain ⟨hn, hf⟩ := endpointFailure_ne hends
    exact sparseSound_of_ne hn hf
  | none =>
    obtain ⟨hs, hg⟩ := endpointFailure_eq_none.1 hends
    simp only
    split_ifs with h1 h2 h3
    · exact sparseSound_of_ne (by simp [failureResult]) (by simp [failureResult])
    · exact sparseSound_of_ne (by simp [failureResult]) (by simp [failureResult])
    · exact absurd h3.1 (not_isDense hsp)
    · exact (heapSearch_clear_spec _ _ _ hs hg).sparseSound (fun _ => id) hsp hprov
        (resident_of_isPassable hs)

/-! ### The unit search -/

/-- Between passable ends of a sparse world the unit search answers. -/
theorem astarPath_eq_unitSearch (hsp : W.residency = .sparseResident) (hu : UsesUnitSearch cls)
    (hs : isPassable W cls request.start = true) (hg : isPassable W cls request.goal = true) :
    astarPath W cls policy request scratch = unitSearch W cls policy request scratch.clear := by
  unfold astarPath
  rw [if_neg (not_not.2 hu), endpointFailure_eq_none.2 ⟨hs, hg⟩]
  simp only [not_isDense hsp, if_false]

/-- **`astar_path` is sound** where its unit search decides. -/
theorem astarPath_sparseSound (hsp : W.residency = .sparseResident)
    (h : UnitDecides W cls request) :
    SparseSound W cls.unit (adjacentTransitions S Tag) request
      (astarPath W cls .reportIndeterminate request scratch).1 := by
  by_cases hu : UsesUnitSearch cls
  swap
  · rw [astarPath, if_pos hu]
    exact weightedAstarPath_sparseSound hsp reportsMissing_adjacentTransitions
  by_cases hends : isPassable W cls request.start = true ∧ isPassable W cls request.goal = true
  swap
  · rw [astarPath, if_neg (not_not.2 hu)]
    cases hf : endpointFailure W cls .reportIndeterminate request with
    | none => exact absurd (endpointFailure_eq_none.1 hf) hends
    | some status => exact sparseSound_of_ne (endpointFailure_ne hf).1 (endpointFailure_ne hf).2
  obtain ⟨hs, hg⟩ := hends
  have hres := resident_of_isPassable hs
  have hspec := unitSearch_clear_spec hu .reportIndeterminate scratch hs hg
  rw [astarPath_eq_unitSearch hsp hu hs hg]
  have hprov : (adjacentTransitions S Tag).ReportsMissing := reportsMissing_adjacentTransitions
  refine ⟨fun hn => ?_, hspec.found_of_completes hprov hres.contains⟩
  rcases h with h | h | h | ⟨C, hC, hr⟩ | ⟨u, C, hr, hC, p, hp, hm⟩ | ⟨hno, hmiss⟩ | hfew
  · exact absurd hu h
  · rw [hs] at h; cases h
  · rw [hg] at h; cases h
  · rw [hspec.found_of_reaches hr hC] at hn
    cases hn
  · exact absurd hm (hspec.near hn hsp rfl hr (by rwa [estimate_unit hu]) p hp)
  · exact fun W' hW C => not_reaches_of_sealed hW hprov hres hno hmiss
  · obtain ⟨-, -, hends⟩ := exactAnswer_of_searchEnds hu hres.contains hfew hspec
    exact (hends.sparseSound (fun _ => False.elim) hsp hprov hres).noPath hn

/-- **Out of the sentinel's range** the unit search reports no path to a goal that is in
reach. -/
theorem status_of_far (hsp : W.residency = .sparseResident) (hu : UsesUnitSearch cls)
    (hs : isPassable W cls request.start = true) (hg : isPassable W cls request.goal = true)
    (hmiss : ∀ u C, Reaches (UnitStep W cls) request.start u C →
      ¬ BesideMissing W cls.unit (adjacentTransitions S Tag) u)
    (hfar : ∀ C, Reaches (UnitStep W cls) request.start request.goal C → infiniteCost ≤ C) :
    (astarPath W cls policy request scratch).1.status = .noPath := by
  rw [astarPath_eq_unitSearch hsp hu hs hg]
  have hspec := unitSearch_clear_spec hu policy scratch hs hg
  rcases hspec.status with h | h | h | ⟨h, -, -⟩
  · obtain ⟨hroute, hlt, -⟩ := hspec.found (contains_of_isPassable hs) h
    exact absurd (hfar _ ⟨_, hroute⟩) (not_le.2 hlt)
  · exact h
  · exact absurd h (unitLoop_status _ _ rfl)
  · obtain ⟨u, C, hr, hm⟩ := hspec.exists_missing h
    exact absurd hm (hmiss u C hr)

/-- A goal in reach only beyond the sentinel makes the answer unsound. -/
theorem not_sparseSound_of_far (hsp : W.residency = .sparseResident) (hu : UsesUnitSearch cls)
    (hs : isPassable W cls request.start = true) (hg : isPassable W cls request.goal = true)
    (hmiss : ∀ u C, Reaches (UnitStep W cls) request.start u C →
      ¬ BesideMissing W cls.unit (adjacentTransitions S Tag) u)
    (hfar : ∀ C, Reaches (UnitStep W cls) request.start request.goal C → infiniteCost ≤ C)
    (hr : Reaches (UnitStep W cls) request.start request.goal C) :
    ¬ SparseSound W cls.unit (adjacentTransitions S Tag) request
      (astarPath W cls .reportIndeterminate request scratch).1 := fun h =>
  h.noPath (status_of_far hsp hu hs hg hmiss hfar) W.fill World.fill_completes C
    (hr.mono fun _ _ _ hstep => hstep.of_completes World.fill_completes
      reportsMissing_adjacentTransitions)

/-- The sparse world with every chunk resident in which every field is one everywhere. -/
def openSparseWorld (S : Shape) : World S Unit :=
  { openWorld S with
    residency := .sparseResident
    dense_slot := fun h => by cases h
    dense_capacity := fun h => by cases h }

theorem isPassable_openSparseWorld {h : S.tileKeyBits ≤ 64} {c : Coord3}
    (hc : S.contains c = true) :
    isPassable (openSparseWorld S) (.unitCostField h ()) c = true := (enter_openWorld hc).1

/-- No face step of an open sparse world leads to a missing chunk. -/
theorem not_besideMissing_openSparseWorld {h : S.tileKeyBits ≤ 64} (u : Coord3) :
    ¬ BesideMissing (openSparseWorld S) (MovementClass.unitCostField h ()).unit
      (adjacentTransitions S Unit) u := by
  rintro ⟨p, hp, hm⟩
  rcases List.mem_append.1 hp with hp | hp
  · obtain ⟨candidate, hcand, he⟩ := List.mem_filterMap.1 hp
    have hd := (contains_of_mem_forEachRegularCandidate hcand).2
    have hres := resident_of_isPassable (isPassable_openSparseWorld (h := h) hd)
    rw [emitCandidate_eq hd hd] at he
    split_ifs at he
    simp only [Option.some.injEq] at he
    subst he
    exact absurd hm (by simp [clearanceAvailability, MovementClass.unitCostField])
  · exact absurd hp (by simp [adjacentTransitions])

/-- Every tile of an open sparse world reaches every other one. -/
theorem reaches_openSparseWorld {h : S.tileKeyBits ≤ 64} (ha : S.contains a = true)
    (hb : S.contains b = true) :
    ∃ C, Reaches (FreeStep (openSparseWorld S) (.unitCostField h ())) a b C := by
  cases hw : walkAxes (isPassable (openSparseWorld S) (.unitCostField h ())) b [.x, .y, .z] a [a]
    with
  | ok p =>
    obtain ⟨c, path⟩ := p
    obtain ⟨rfl, l, -, hl⟩ := walkAxes_ok ha hb hw
    rw [setAxes_eq fun r => Or.inl (by cases r <;> decide)] at hl
    exact ⟨_, _, hl⟩
  | error e =>
    obtain ⟨hbox, hok, -⟩ := walkAxes_error hw
    rw [isPassable_openSparseWorld (hbox.contains ha hb)] at hok
    cases hok

end Tess
