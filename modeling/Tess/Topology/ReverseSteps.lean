import Tess.Topology.Completion
import Tess.Topology.Duality

/-!
# Steps against their direction

A search that grows from its goal offers the steps into a tile, which `forEachReverse` enumerates.
Both ends of such a step can be walked on.

* `Provider.Mirrored` : the special edges of a provider are the same from either end;
* `ReverseStep` : a legal step read from its end;
* `reverseStep_of_mem_forEachReverse`, `mem_forEachReverse_of_reverseStep` : **the reverse probes
  report exactly these steps**;
* `reverseStep_or_missing` : a step of some completion is reported, or a missing chunk is.
-/

namespace Tess

/-- Between resident tiles the provider lists the same special edges from either end. -/
def Provider.Mirrored {S : Shape} {Tag : Type*} (prov : Provider S Tag) : Prop :=
  ∀ (W : World S Tag) (a b : Coord3) (cost : ℕ), W.Resident a → W.Resident b →
    ((∃ candidate ∈ prov.forEachForward W a, candidate.dest = b ∧
        candidate.missingTopology = false ∧ candidate.cost = cost) ↔
      ∃ candidate ∈ prov.forEachReverse W b, candidate.dest = a ∧
        candidate.missingTopology = false ∧ candidate.cost = cost)

variable {S : Shape} {Tag : Type*}

/-- The reverse edges of a provider depend on missing chunks only where it reports them. -/
def Provider.AnnouncesReverse {S : Shape} {Tag : Type*} (prov : Provider S Tag) : Prop :=
  ∀ (W W' : World S Tag) (u : Coord3) (candidate : SpecialTransitionCandidate),
    W'.Completes W → W.Resident u → candidate ∈ prov.forEachReverse W' u →
      candidate.missingTopology = false →
        candidate ∈ prov.forEachReverse W u ∨ ∃ hidden ∈ prov.forEachReverse W u,
          hidden.missingTopology = true ∧ S.contains hidden.dest = true

theorem mirrored_adjacentTransitions : (adjacentTransitions S Tag).Mirrored := by
  intro W a b cost _ _
  simp [adjacentTransitions]

theorem mirrored_stairTransitions (tag : Tag) : (stairTransitions S tag).Mirrored := by
  have hone {W : World S Tag} {a b : Coord3} {cost : ℕ} (hb : W.Resident b)
      (h : ∃ candidate ∈ stairsOf tag W a, candidate.dest = b ∧
        candidate.missingTopology = false ∧ candidate.cost = cost) :
      ∃ candidate ∈ stairsOf tag W b, candidate.dest = a ∧
        candidate.missingTopology = false ∧ candidate.cost = cost := by
    obtain ⟨candidate, hm, rfl, -, rfl⟩ := h
    obtain ⟨hcandidate, hedge⟩ := mem_stairsOf_of_present hm hb
    rw [hcandidate]
    exact ⟨_, stairEdge_mem_stairsOf hedge.symm, rfl, rfl, rfl⟩
  intro W a b cost ha hb
  exact ⟨hone hb, hone ha⟩

/-- **A legal step read from its end** `b`: its start can be walked on, too. -/
def ReverseStep (W : World S Tag) (cls : MovementClass S Tag) (prov : Provider S Tag)
    (b a : Coord3) (k : ℕ) : Prop :=
  isPassable W cls a = true ∧ LegalStep W cls prov a b k

variable {W : World S Tag} {cls : MovementClass S Tag} {prov : Provider S Tag} {a b : Coord3}
  {k m : ℕ} {p : TransitionProbe}

/-- A regular step is a candidate of its end. -/
theorem regularStep_iff_reversed (ha : S.contains a = true) (hb : S.contains b = true) :
    RegularStep W cls a b m ↔ ∃ candidate ∈ forEachRegularCandidate S cls.stepPolicy b,
      candidate.dest = a ∧ candidate.multiplier = m ∧
        clearanceAvailability W cls candidate = .legal := by
  rw [regularStep_iff ha hb]
  constructor
  · rintro ⟨candidate, hm, rfl, rfl, hl⟩
    exact ⟨_, reversed_mem hm, rfl, rfl, clearanceAvailability_reversed.trans hl⟩
  · rintro ⟨candidate, hm, rfl, rfl, hl⟩
    exact ⟨_, reversed_mem hm, rfl, rfl, clearanceAvailability_reversed.trans hl⟩

/-- **Every legal reverse probe reports a step.** -/
theorem reverseStep_of_mem_forEachReverse (hprov : prov.Mirrored) (hb : isPassable W cls b = true)
    (hp : p ∈ forEachReverse W cls prov b) (hl : p.availability = .legal) :
    ∃ k, ReverseStep W cls prov b p.dest k ∧ p.Reports S p.dest k := by
  have hcb := contains_of_isPassable hb
  have hrb := resident_of_isPassable hb
  rw [forEachReverse_eq hb] at hp
  rcases List.mem_append.1 hp with hp | hp
  · obtain ⟨candidate, hm, he⟩ := List.mem_filterMap.1 hp
    have hd := (contains_of_mem_forEachRegularCandidate hm).2
    rw [emitCandidate_eq hd hcb] at he
    split_ifs at he with h1 h2 h3 h4 <;> simp only [Option.some.injEq] at he <;> subst he
    · exact ⟨_, ⟨h2, hd, hb, h4, Or.inl ⟨_, (regularStep_iff_reversed hd hcb).2
        ⟨candidate, hm, rfl, rfl, hl⟩, rfl⟩⟩, hl, rfl, rfl, saturatingU32_eq_min _, rfl⟩
    · exact absurd hl (by simp [missingProbe])
  · obtain ⟨candidate, hm, he⟩ := List.mem_filterMap.1 hp
    by_cases hd : S.contains candidate.dest = true
    · rw [emitSpecialCandidate_eq hd hcb] at he
      split_ifs at he with h1 h2 h3 <;> simp only [Option.some.injEq] at he <;> subst he
      · exact absurd hl (by simp [missingProbe])
      · simp only [not_or, Bool.not_eq_true, not_not] at h1 h3
        obtain ⟨c, hc, hdest, hmiss, hcost⟩ :=
          (hprov W candidate.dest b candidate.cost h1.2 hrb).2 ⟨candidate, hm, rfl, h1.1, rfl⟩
        exact ⟨_, ⟨h2, hd, hb, h3.1, Or.inr ⟨_, ⟨c, hc, hdest, hmiss, hcost ▸ h3.2, hcost.symm⟩,
          rfl⟩⟩, rfl, rfl, rfl, saturatingU32_eq_min _, rfl⟩
    · simp [emitSpecialCandidate, hd] at he

/-- The sink never receives a blocked reverse probe. -/
theorem not_blocked_of_mem_forEachReverse (hp : p ∈ forEachReverse W cls prov b) :
    p.availability ≠ .blocked := by
  by_cases hb : isPassable W cls b = true
  · have hcb := contains_of_isPassable hb
    have hrb := resident_of_isPassable hb
    rw [forEachReverse_eq hb] at hp
    rcases List.mem_append.1 hp with hp | hp
    · obtain ⟨candidate, hm, he⟩ := List.mem_filterMap.1 hp
      rw [emitCandidate_eq (contains_of_mem_forEachRegularCandidate hm).2 hcb] at he
      split_ifs at he with h1 h2 h3 h4 <;> simp only [Option.some.injEq] at he <;> subst he
      · exact h3
      · simp [missingProbe]
    · obtain ⟨candidate, hm, he⟩ := List.mem_filterMap.1 hp
      by_cases hd : S.contains candidate.dest = true
      · rw [emitSpecialCandidate_eq hd hcb] at he
        split_ifs at he with h1 h2 h3 <;> simp only [Option.some.injEq] at he <;> subst he <;>
          simp [missingProbe]
      · simp [emitSpecialCandidate, hd] at he
  · rw [forEachReverse, if_pos (by simp [hb])] at hp
    exact absurd hp List.not_mem_nil

/-- **Every step is reported by a legal reverse probe.** -/
theorem mem_forEachReverse_of_reverseStep (hprov : prov.Mirrored)
    (h : ReverseStep W cls prov b a k) : ∃ p ∈ forEachReverse W cls prov b, p.Reports S a k := by
  obtain ⟨hpa, ha, hb, he, hstep⟩ := h
  have hcb := contains_of_isPassable hb
  have hra := resident_of_isPassable hpa
  have hrb := resident_of_isPassable hb
  rw [forEachReverse_eq hb]
  rcases hstep with ⟨m, hm, rfl⟩ | ⟨_, ⟨candidate, hm, hdest, hmiss, hcost, rfl⟩, rfl⟩
  · obtain ⟨candidate, hcand, rfl, rfl, hl⟩ := (regularStep_iff_reversed ha hcb).1 hm
    have hemit : emitCandidate W cls candidate b = _ := emitCandidate_eq ha hcb
    rw [if_neg (not_not.2 hra), if_neg (not_not.2 hpa), if_neg (by rw [hl]; decide),
      if_neg (not_not.2 hrb), if_neg he] at hemit
    exact ⟨_, List.mem_append_left _ (List.mem_filterMap.2 ⟨candidate, hcand, hemit⟩),
      hl, rfl, rfl, saturatingU32_eq_min _, rfl⟩
  · obtain ⟨c, hc, rfl, hmiss', hcost'⟩ :=
      (hprov W a b candidate.cost hra hrb).1 ⟨candidate, hm, hdest, hmiss, rfl⟩
    have hemit : emitSpecialCandidate W cls c b = _ := emitSpecialCandidate_eq ha hcb
    rw [if_neg (not_or.2 ⟨by simp [hmiss'], not_not.2 hra⟩), if_neg (not_not.2 hpa),
      if_neg (not_or.2 ⟨he, hcost' ▸ hcost⟩), hcost'] at hemit
    exact ⟨_, List.mem_append_right _ (List.mem_filterMap.2 ⟨c, hc, hemit⟩),
      rfl, rfl, rfl, saturatingU32_eq_min _, rfl⟩

/-- A special candidate of unknown topology is probed as missing. -/
theorem exists_missing_of_reverse {candidate : SpecialTransitionCandidate}
    (hb : isPassable W cls b = true) (hm : candidate ∈ prov.forEachReverse W b)
    (hd : S.contains candidate.dest = true)
    (h : candidate.missingTopology = true ∨ ¬ W.Resident candidate.dest) :
    ∃ p ∈ forEachReverse W cls prov b, p.availability = .missingTopology := by
  have hemit : emitSpecialCandidate W cls candidate b = _ :=
    emitSpecialCandidate_eq hd (contains_of_isPassable hb)
  rw [if_pos h] at hemit
  rw [forEachReverse_eq hb]
  exact ⟨_, List.mem_append_right _ (List.mem_filterMap.2 ⟨candidate, hm, hemit⟩), rfl⟩

/-- **A step of some completion** is a step already, or its end reports missing topology. -/
theorem reverseStep_or_missing {W' : World S Tag} (hW : W'.Completes W) (hprov : prov.Mirrored)
    (hann : prov.AnnouncesReverse) (hb : isPassable W cls b = true)
    (h : ReverseStep W' cls prov b a k) : ReverseStep W cls prov b a k ∨
      ∃ p ∈ forEachReverse W cls prov b, p.availability = .missingTopology := by
  obtain ⟨hpa, ha, -, he, hstep⟩ := h
  have hcb := contains_of_isPassable hb
  have hrb := resident_of_isPassable hb
  have hrb' : W'.Resident b := by
    rw [← isPassable_of_completes hW hrb] at hb
    exact resident_of_isPassable hb
  rw [entryCostAt_of_completes hW hrb] at he hstep
  rcases hstep with ⟨m, hm, rfl⟩ | ⟨_, ⟨candidate, hm, hdest, hmiss, hcost, rfl⟩, rfl⟩
  · obtain ⟨candidate, hcand, rfl, rfl, hl⟩ := (regularStep_iff_reversed ha hcb).1 hm
    have hemit : emitCandidate W cls candidate b = _ := emitCandidate_eq ha hcb
    have hnb := clearanceAvailability_ne_blocked hW hl
    by_cases hra : W.Resident candidate.dest
    · rw [isPassable_of_completes hW hra] at hpa
      cases hav : clearanceAvailability W cls candidate with
      | legal => exact Or.inl ⟨hpa, ha, hb, he, Or.inl ⟨_, (regularStep_iff_reversed ha hcb).2
          ⟨candidate, hcand, rfl, rfl, hav⟩, rfl⟩⟩
      | blocked => exact absurd hav hnb
      | missingTopology =>
        rw [if_neg (not_not.2 hra), if_neg (not_not.2 hpa), if_neg hnb, if_neg (not_not.2 hrb),
          if_neg he] at hemit
        rw [forEachReverse_eq hb]
        exact Or.inr ⟨_, List.mem_append_left _ (List.mem_filterMap.2 ⟨candidate, hcand, hemit⟩),
          hav⟩
    · rw [if_pos hra] at hemit
      rw [forEachReverse_eq hb]
      exact Or.inr ⟨_, List.mem_append_left _ (List.mem_filterMap.2 ⟨candidate, hcand, hemit⟩),
        rfl⟩
  · obtain ⟨c, hc, rfl, hmiss', hcost'⟩ :=
      (hprov W' a b candidate.cost (resident_of_isPassable hpa)
        hrb').1 ⟨candidate, hm, hdest, hmiss, rfl⟩
    rcases hann W W' b c hW hrb hc hmiss' with hc | ⟨hidden, hh, hhid, hd⟩
    · by_cases hra : W.Resident c.dest
      · rw [isPassable_of_completes hW hra] at hpa
        obtain ⟨candidate', hm', hd', hmiss'', hcost''⟩ :=
          (hprov W c.dest b c.cost hra hrb).2 ⟨c, hc, rfl, hmiss', rfl⟩
        exact Or.inl ⟨hpa, ha, hb, he, Or.inr ⟨_, ⟨candidate', hm', hd', hmiss'',
          by rwa [hcost'', hcost'], by rw [hcost'', hcost']⟩, rfl⟩⟩
      · exact Or.inr (exists_missing_of_reverse hb hc ha (Or.inr hra))
    · exact Or.inr (exists_missing_of_reverse hb hh hd (Or.inl hhid))

theorem announcesReverse_stairTransitions (tag : Tag) :
    (stairTransitions S tag).AnnouncesReverse :=
  fun _ _ _ _ hW hu h hm => reportsMissing_stairTransitions.announces hW hu h hm

end Tess
