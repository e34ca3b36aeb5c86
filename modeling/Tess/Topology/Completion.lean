import Tess.Topology.Legal

/-!
# Steps in the completions of a sparse world

What a tile's probes say about the worlds that complete the missing chunks.

* `Provider.ReportsMissing` : the provider says so when a missing chunk may hide an edge;
* `LegalStep.of_completes` : **a legal step stays legal at its cost** in every completion;
* `legalStep_or_missing` : **a step that is legal in some completion** is legal already, or its
  tile has a probe that reports missing topology.
-/

namespace Tess

variable {S : Shape} {Tag : Type*} {W W' : World S Tag} {cls : MovementClass S Tag}
  {prov : Provider S Tag} {a b c : Coord3} {k m : ℕ}

/-- A provider whose edges depend on missing chunks only where it reports them. -/
structure Provider.ReportsMissing (prov : Provider S Tag) : Prop where
  /-- Edges that are known stay. -/
  persists : ∀ {W W' : World S Tag} {u candidate}, W'.Completes W →
    candidate ∈ prov.forEachForward W u → candidate.missingTopology = false →
      candidate ∈ prov.forEachForward W' u
  /-- Edges that are unknown are announced. -/
  announces : ∀ {W W' : World S Tag} {u candidate}, W'.Completes W → W.Resident u →
    candidate ∈ prov.forEachForward W' u → candidate.missingTopology = false →
      candidate ∈ prov.forEachForward W u ∨ ∃ hidden ∈ prov.forEachForward W u,
        hidden.missingTopology = true ∧ S.contains hidden.dest = true

theorem reportsMissing_adjacentTransitions : (adjacentTransitions S Tag).ReportsMissing :=
  ⟨fun _ h _ => h, fun _ _ h _ => Or.inl h⟩

/-! ### Tiles -/

theorem isPassable_of_completes (h : W'.Completes W) (hc : W.Resident c) :
    isPassable W' cls c = isPassable W cls c := by
  obtain ⟨t, ht⟩ := Option.isSome_iff_exists.1 hc
  rw [isPassable_of_tileAt ht, isPassable_of_tileAt (h.tileAt_eq ht)]

theorem entryCostAt_of_completes (h : W'.Completes W) (hc : W.Resident c) :
    entryCostAt W' cls c = entryCostAt W cls c := by
  obtain ⟨t, ht⟩ := Option.isSome_iff_exists.1 hc
  rw [entryCostAt_of_tileAt ht, entryCostAt_of_tileAt (h.tileAt_eq ht)]

variable (cls) in
/-- A clearance tile says in a completion what it says already, unless its chunk is missing. -/
theorem clearanceAt_of_completes (h : W'.Completes W) (c : Coord3) :
    clearanceAt W cls c = .missing ∨ clearanceAt W' cls c = clearanceAt W cls c := by
  unfold clearanceAt
  cases hp : W.tryChunk (W.resolve c).chunkKey with
  | none => exact Or.inl rfl
  | some page =>
    have hp' : W'.tryChunk (W'.resolve c).chunkKey = some page := h.2 _ _ hp
    rw [hp']
    exact Or.inr rfl

/-! ### Steps -/

/-- A clear corner stays clear. -/
theorem clearanceAvailability_of_completes (h : W'.Completes W)
    {candidate : RegularTransitionCandidate}
    (hl : clearanceAvailability W cls candidate = .legal) :
    clearanceAvailability W' cls candidate = .legal := by
  have hA := clearanceAt_of_completes cls h candidate.clearanceA
  have hB := clearanceAt_of_completes cls h candidate.clearanceB
  unfold clearanceAvailability at hl ⊢
  cases hp : cls.stepPolicy with
  | defaultSteps => rfl
  | diagonalSteps rule =>
    by_cases h0 : candidate.clearanceCount = 0
    · simp only [h0, if_true]
    · simp only [hp, h0, if_false] at hl ⊢
      generalize clearanceAt W cls candidate.clearanceA = x at *
      generalize clearanceAt W cls candidate.clearanceB = y at *
      cases rule <;> cases x <;> cases y <;> simp_all

/-- A corner that is clear in a completion is not blocked. -/
theorem clearanceAvailability_ne_blocked (h : W'.Completes W)
    {candidate : RegularTransitionCandidate}
    (hl : clearanceAvailability W' cls candidate = .legal) :
    clearanceAvailability W cls candidate ≠ .blocked := by
  have hA := clearanceAt_of_completes cls h candidate.clearanceA
  have hB := clearanceAt_of_completes cls h candidate.clearanceB
  unfold clearanceAvailability at hl ⊢
  cases hp : cls.stepPolicy with
  | defaultSteps => simp
  | diagonalSteps rule =>
    by_cases h0 : candidate.clearanceCount = 0
    · simp [h0]
    · simp only [hp, h0, if_false] at hl ⊢
      generalize clearanceAt W cls candidate.clearanceA = x at *
      generalize clearanceAt W cls candidate.clearanceB = y at *
      cases rule <;> cases x <;> cases y <;> simp_all

/-- **A legal step stays legal at its cost** in every completion. -/
theorem LegalStep.of_completes (h : W'.Completes W) (hprov : prov.ReportsMissing)
    (hs : LegalStep W cls prov a b k) : LegalStep W' cls prov a b k := by
  have hres := hs.resident_right
  obtain ⟨ha, hb, he, hstep⟩ := hs
  rw [LegalStep, isPassable_of_completes h hres, entryCostAt_of_completes h hres]
  refine ⟨ha, hb, he, hstep.imp ?_ ?_⟩
  · rintro ⟨m, hm, rfl⟩
    obtain ⟨candidate, hmem, hdest, hmul, hl⟩ := (regularStep_iff ha hres.contains).1 hm
    exact ⟨m, (regularStep_iff ha hres.contains).2
      ⟨candidate, hmem, hdest, hmul, clearanceAvailability_of_completes h hl⟩, rfl⟩
  · rintro ⟨c, ⟨candidate, hmem, hdest, hmiss, hcost⟩, rfl⟩
    exact ⟨c, ⟨candidate, hprov.persists h hmem hmiss, hdest, hmiss, hcost⟩, rfl⟩

/-- A regular candidate that leads to a tile of a missing chunk is probed as missing. -/
theorem exists_missing_of_candidate {candidate : RegularTransitionCandidate}
    (hm : candidate ∈ forEachRegularCandidate S cls.stepPolicy a)
    (h : emitCandidate W cls candidate candidate.dest =
      some (missingProbe (S := S) candidate.dest .regular)) :
    ∃ p ∈ forEachForward W cls prov a, p.availability = .missingTopology :=
  ⟨_, List.mem_append_left _ (List.mem_filterMap.2 ⟨candidate, hm, h⟩), rfl⟩

/-- A special candidate of unknown topology is probed as missing. -/
theorem exists_missing_of_special {candidate : SpecialTransitionCandidate}
    (hm : candidate ∈ prov.forEachForward W a) (hd : S.contains candidate.dest = true)
    (h : candidate.missingTopology = true ∨ ¬ W.Resident candidate.dest) :
    ∃ p ∈ forEachForward W cls prov a, p.availability = .missingTopology := by
  have hemit : emitSpecialCandidate W cls candidate candidate.dest = _ :=
    emitSpecialCandidate_eq hd hd
  rw [if_pos h] at hemit
  exact ⟨_, List.mem_append_right _ (List.mem_filterMap.2 ⟨candidate, hm, hemit⟩), rfl⟩

/-- **A step that is legal in some completion** is legal already, or its tile reports missing
topology. -/
theorem legalStep_or_missing (h : W'.Completes W) (hprov : prov.ReportsMissing)
    (ha : W.Resident a) (hs : LegalStep W' cls prov a b k) :
    LegalStep W cls prov a b k ∨
      ∃ p ∈ forEachForward W cls prov a, p.availability = .missingTopology := by
  have hcb := hs.contains_right
  obtain ⟨hca, hb, he, hstep⟩ := hs
  by_cases hres : W.Resident b
  · rw [isPassable_of_completes h hres] at hb
    rw [entryCostAt_of_completes h hres] at he hstep
    rcases hstep with ⟨m, hm, rfl⟩ | ⟨c, ⟨candidate, hmem, rfl, hmiss, hcost, rfl⟩, rfl⟩
    · obtain ⟨candidate, hmem, rfl, rfl, hl⟩ := (regularStep_iff hca hcb).1 hm
      have hnb := clearanceAvailability_ne_blocked h hl
      cases hav : clearanceAvailability W cls candidate with
      | legal => exact Or.inl ⟨hca, hb, he, Or.inl ⟨_, (regularStep_iff hca hcb).2
          ⟨candidate, hmem, rfl, rfl, hav⟩, rfl⟩⟩
      | blocked => exact absurd hav hnb
      | missingTopology =>
        have hemit : emitCandidate W cls candidate candidate.dest = _ := emitCandidate_eq hcb hcb
        rw [if_neg (not_not.2 hres), if_neg (not_not.2 hb), if_neg hnb, if_neg (not_not.2 hres),
          if_neg he] at hemit
        exact Or.inr ⟨_, List.mem_append_left _ (List.mem_filterMap.2 ⟨candidate, hmem, hemit⟩),
          hav⟩
    · rcases hprov.announces h ha hmem hmiss with hmem | ⟨hidden, hmem, hhid, hd⟩
      · exact Or.inl ⟨hca, hb, he, Or.inr ⟨_, ⟨candidate, hmem, rfl, hmiss, hcost, rfl⟩, rfl⟩⟩
      · exact Or.inr (exists_missing_of_special hmem hd (Or.inl hhid))
  · right
    rcases hstep with ⟨m, hm, rfl⟩ | ⟨c, ⟨candidate, hmem, rfl, hmiss, hcost, rfl⟩, rfl⟩
    · obtain ⟨candidate, hmem, rfl, rfl, hl⟩ := (regularStep_iff hca hcb).1 hm
      have hemit : emitCandidate W cls candidate candidate.dest = _ := emitCandidate_eq hcb hcb
      rw [if_pos hres] at hemit
      exact exists_missing_of_candidate hmem hemit
    · rcases hprov.announces h ha hmem hmiss with hmem | ⟨hidden, hmem, hhid, hd⟩
      · exact exists_missing_of_special hmem hcb (Or.inr hres)
      · exact exists_missing_of_special hmem hd (Or.inl hhid)

end Tess
