import Tess.Path.FieldAnswers

/-!
# Sessions on one field scratch

A scratch outlives the worlds its fields were built in: between a build and a read the world may
have been edited, chunks may have come and gone, and other fields may have been built.  A read
checks its stamps and every step that it takes.

* `FieldCall`, `FieldCall.run` : the calls that a scratch goes through;
* `FieldOf` : what a scratch that may be read holds: the field of some world, as it was;
* `fieldOf_session` : **every session keeps it**;
* `fieldSession_sound` : **a path read at any time is legal in the world it is read in**, at the
  cost that is reported, whatever the world has become since the build.
-/

namespace Tess

open Graphs

/-- The ways to build a field. -/
inductive FieldBuild where
  /-- `build_weighted_distance_field`. -/
  | weighted
  /-- `build_weighted_distance_field_in_box`. -/
  | inBox (domain : Box3)

/-- A call on a scratch, in a world and for a model. -/
inductive FieldCall (S : Shape) (Tag : Type*) where
  /-- Build a field. -/
  | build (kind : FieldBuild) (world : FieldWorld S Tag) (model : FieldModel S Tag)
      (policy : MissingChunkPolicy) (goal : Coord3)
  /-- `weighted_distance_field_path`. -/
  | read (world : FieldWorld S Tag) (model : FieldModel S Tag) (request : PathRequest)

section Calls

variable {S : Shape} {Tag : Type*}

/-- The world of a call. -/
def FieldCall.world : FieldCall S Tag → FieldWorld S Tag
  | .build _ world _ _ _ => world
  | .read world _ _ => world

/-- The model of a call. -/
def FieldCall.model : FieldCall S Tag → FieldModel S Tag
  | .build _ _ model _ _ => model
  | .read _ model _ => model

/-- Run a build. -/
def FieldBuild.run (W : FieldWorld S Tag) (M : FieldModel S Tag) (policy : MissingChunkPolicy)
    (goal : Coord3) (s : DistanceFieldScratch) :
    FieldBuild → DistanceFieldResult × DistanceFieldScratch
  | .weighted => buildWeightedDistanceField W M policy goal s
  | .inBox domain => buildWeightedDistanceFieldInBox W M policy domain goal s

/-- What a call leaves in the scratch. -/
def FieldCall.run (s : DistanceFieldScratch) : FieldCall S Tag → DistanceFieldScratch
  | .build kind W M policy goal => (kind.run W M policy goal s).2
  | .read W M request => (weightedDistanceFieldPathCore W M true request s).2

/-- What is found is a legal route of the world, at the cost that is reported. -/
def FoundLegal (W : FieldWorld S Tag) (M : FieldModel S Tag) (request : PathRequest)
    (r : PathResult) : Prop :=
  r.status = .found →
    IsRoute (LegalStep W.toWorld M.cls M.prov) r.path request.start request.goal r.cost

/-- The worlds of a family have one residency policy, and worlds of equal fingerprints keep the
same chunks in the same slots. -/
structure Distinguished (family : FieldWorld S Tag → Prop) : Prop where
  /-- One residency policy. -/
  residency : ∀ W W', family W → family W' → W.residency = W'.residency
  /-- No fingerprint stands for two directories. -/
  fingerprint : ∀ W W', family W → family W' → W.residency = .sparseResident →
    W.residencyFingerprint = W'.residencyFingerprint → W.residentSlot = W'.residentSlot

/-- **What a scratch that may be read holds**: the field of a world of the family, as it was. -/
def FieldOf (family : FieldWorld S Tag → Prop) (s : DistanceFieldScratch) : Prop :=
  s.hasGoal = true → ∃ W M admits, family W ∧ Stamped W M s.goal s ∧
    IsField W.toWorld M.cls M.prov admits s.goal s

variable {family : FieldWorld S Tag → Prop} {s s' : DistanceFieldScratch} {W W' : FieldWorld S Tag}
  {M : FieldModel S Tag} {admits : Coord3 → Bool} {policy : MissingChunkPolicy} {goal : Coord3}
  {call : FieldCall S Tag} {request : PathRequest}

theorem fieldOf_empty : FieldOf family .empty := nofun

/-- A build leaves the field of its world. -/
theorem FieldBuilt.fieldOf {built : DistanceFieldResult × DistanceFieldScratch} (hW : family W)
    (h : FieldBuilt W M admits policy goal built) : FieldOf family built.2 := by
  intro hg
  obtain ⟨-, -, hs, hf, -⟩ := h.readable hg
  exact ⟨W, M, admits, hW, hs.goal.symm ▸ hs, hs.goal.symm ▸ hf⟩

theorem fieldOf_build (hW : family W) (hprov : M.prov.Mirrored) (kind : FieldBuild) :
    FieldOf family (kind.run W M policy goal s).2 := by
  cases kind with
  | weighted => exact (buildHeapField_spec W M _ goal s policy hprov).fieldOf hW
  | inBox domain => exact (buildHeapField_spec W M _ goal s policy hprov).fieldOf hW

/-- Reads only replace the path. -/
theorem FieldOf.setPath (h : FieldOf family s) (path : List Coord3) :
    FieldOf family (s.setPath path) := by
  intro hg
  obtain ⟨W, M, admits, hW, hs, hf⟩ := h hg
  exact ⟨W, M, admits, hW, hs.congr rfl rfl rfl rfl,
    ⟨hf.goal_label, hf.label_le, hf.led, hf.least⟩⟩

theorem readLabels_scratch {W : World S Tag} :
    ∃ path, (readLabels W M request s).2 = s.setPath path := by
  unfold readLabels
  dsimp only
  split_ifs
  · exact ⟨s.path, rfl⟩
  · split
    · exact ⟨s.path, rfl⟩
    · exact ⟨_, rfl⟩

theorem weightedDistanceFieldPathCore_scratch :
    ∃ path, (weightedDistanceFieldPathCore W M true request s).2 = s.setPath path := by
  unfold weightedDistanceFieldPathCore
  dsimp only
  split
  · exact ⟨[], rfl⟩
  · split_ifs
    · exact ⟨[], rfl⟩
    · obtain ⟨path, hpath⟩ := @readLabels_scratch _ _ (s.setPath []) M request W.toWorld
      exact ⟨path, hpath⟩

/-- **A call keeps a field of the family in the scratch.** -/
theorem FieldOf.run (hW : family call.world) (hprov : call.model.prov.Mirrored)
    (h : FieldOf family s) : FieldOf family (call.run s) := by
  cases call with
  | build kind W M policy goal => exact fieldOf_build hW hprov kind
  | read W M request =>
    obtain ⟨path, hpath⟩ := @weightedDistanceFieldPathCore_scratch _ _ s W M request
    show FieldOf family (weightedDistanceFieldPathCore W M true request s).2
    rw [hpath]
    exact h.setPath path

/-- **Every session keeps a field of the family in the scratch.** -/
theorem fieldOf_session {calls : List (FieldCall S Tag)}
    (hcalls : ∀ call ∈ calls, family call.world ∧ call.model.prov.Mirrored)
    (h : FieldOf family s) : FieldOf family (calls.foldl FieldCall.run s) := by
  induction calls generalizing s with
  | nil => exact h
  | cons call calls ih =>
    obtain ⟨hW, hprov⟩ := hcalls call List.mem_cons_self
    exact ih (fun c hc => hcalls c (List.mem_cons_of_mem _ hc)) (h.run hW hprov)

/-! ### Reads of any age -/

/-- Dense worlds keep every chunk in the slot of its key. -/
theorem residentSlot_dense {W W' : World S Tag} (h : W.residency = .alwaysResident)
    (h' : W'.residency = .alwaysResident) : W.residentSlot = W'.residentSlot := by
  funext key
  by_cases hkey : key < S.chunkCount
  · rw [W.dense_slot h key hkey, W'.dense_slot h' key hkey]
  · have hnone (V : World S Tag) : V.residentSlot key = none := by
      cases hs : V.residentSlot key with
      | none => rfl
      | some slot => exact absurd (V.key_lt key slot hs) hkey
    rw [hnone, hnone]

/-- Labels are where the directory puts them. -/
theorem fieldLabel_congr {W W' : World S Tag} (hr : W.residency = W'.residency)
    (hslots : W.residentSlot = W'.residentSlot) : fieldLabel W s = fieldLabel W' s := by
  funext c
  have hres : W.Resident c ↔ W'.Resident c := by
    rw [World.resident_iff, World.resident_iff, hslots]
  have hoff : offset W (S.tileKey c) = offset W' (S.tileKey c) := by
    unfold offset
    rw [hr, hslots]
  unfold fieldLabel
  simp only [hres, hoff]

/-- **The labels of a field that passes the residency check** are where the reader looks. -/
theorem FieldOf.labels (hfamily : Distinguished family) (hW : family W) (h : FieldOf family s)
    (hg : s.hasGoal = true) (hmatches : s.residencyMatches W = true) :
    ∃ W' M admits, fieldLabel W.toWorld s = fieldLabel W' s ∧
      IsField W' (M : FieldModel S Tag).cls M.prov admits s.goal s := by
  obtain ⟨W', M, admits, hW', hs, hf⟩ := h hg
  refine ⟨W'.toWorld, M, admits, ?_, hf⟩
  have hr := hfamily.residency W W' hW hW'
  refine fieldLabel_congr hr ?_
  -- the stamps compare fingerprints, and in a family these tell the directories apart
  cases hres : W.residency with
  | alwaysResident => exact residentSlot_dense hres (hr.symm.trans hres)
  | sparseResident =>
    refine hfamily.fingerprint W W' hW hW' hres ?_
    have h1 := hs.residency
    unfold DistanceFieldScratch.residencyMatches at h1 hmatches
    rw [hres] at hmatches
    rw [← hr, hres] at h1
    simp only [beq_iff_eq] at h1 hmatches
    rw [← hmatches, h1]

/-- What passes the checks of a reader. -/
theorem readable_of_fieldReadFailure (h : fieldReadFailure W M true request s = none) :
    s.hasGoal = true ∧ s.goal = request.goal ∧ s.residencyMatches W = true := by
  unfold fieldReadFailure at h
  split_ifs at h with h1 h2 h3
  all_goals
    simp only [not_or, Bool.not_eq_true, Bool.not_eq_false', not_not, true_and] at h3
    exact ⟨h3.1, h3.2.1, h3.2.2.2⟩

/-- **A descent along legal steps of the present world** ends at the goal of the field. -/
theorem readLabels_sound {W : World S Tag}
    (hlabels : ∃ W' M admits, fieldLabel W s = fieldLabel W' s ∧
      IsField W' (M : FieldModel S Tag).cls M.prov admits request.goal s)
    (hstart : W.Resident request.start) (hf : (readLabels W M request s).1.status = .found) :
    IsRoute (LegalStep W M.cls M.prov) (readLabels W M request s).1.path request.start
      request.goal (readLabels W M request s).1.cost := by
  obtain ⟨W', M', admits, hsame, F⟩ := hlabels
  unfold readLabels at hf ⊢
  dsimp only at hf ⊢
  rw [← fieldLabel_of_resident hstart] at hf ⊢
  by_cases hinf : fieldLabel W s request.start = infiniteCost
  · rw [if_pos hinf] at hf
    exact absurd hf (by
      show s.unresolvedPathStatus ≠ .found
      unfold DistanceFieldScratch.unresolvedPathStatus
      split_ifs <;> decide)
  · rw [if_neg hinf] at hf ⊢
    have hlt : fieldLabel W s request.start < infiniteCost := by
      refine lt_of_le_of_ne ?_ hinf
      rw [hsame]
      exact F.label_le _
    cases hrun : descend W M s (fieldLabel W s request.start) (S.tileKey request.start)
        (fieldLabel W s request.start) [request.start] with
    | none =>
      rw [hrun] at hf
      cases hf
    | some path =>
      obtain ⟨l, e, rfl, he, hl⟩ := descend_route hlt hrun
      rw [hsame] at he
      obtain rfl := F.eq_goal he
      exact hl.mono fun _ _ _ h => h.1

end Calls

section Sessions

variable {S : Shape} {Tag : Type*} {family : FieldWorld S Tag → Prop} {W : FieldWorld S Tag}
  {M : FieldModel S Tag} {request : PathRequest} {s : DistanceFieldScratch}

/-- A weighted read of any age. -/
theorem FieldOf.read (hfamily : Distinguished family) (hW : family W)
    (h : FieldOf family s)
    (hf : (weightedDistanceFieldPathCore W M true request s).1.status = .found) :
    IsRoute (LegalStep W.toWorld M.cls M.prov)
      (weightedDistanceFieldPathCore W M true request s).1.path request.start request.goal
      (weightedDistanceFieldPathCore W M true request s).1.cost := by
  unfold weightedDistanceFieldPathCore at hf ⊢
  dsimp only at hf ⊢
  cases hfail : fieldReadFailure W M true request (s.setPath []) with
  | some status =>
    rw [hfail] at hf
    exact absurd hf (fieldReadFailure_ne hfail).1
  | none =>
    rw [hfail] at hf
    dsimp only at hf ⊢
    split_ifs at hf ⊢ with he
    obtain ⟨hg, hgoal, hmatches⟩ := readable_of_fieldReadFailure hfail
    have hlabels := (h.setPath []).labels hfamily hW hg hmatches
    rw [hgoal] at hlabels
    exact readLabels_sound hlabels
      (resident_of_isPassable (isPassable_of_fieldReadFailure hfail)) hf

/-- **A path read at any time is legal in the world it is read in**, at the cost that is reported:
however many fields were built in the scratch before, in whatever worlds of the family and for
whatever models, and whatever was edited since. -/
theorem fieldSession_sound (hfamily : Distinguished family) {calls : List (FieldCall S Tag)}
    (hcalls : ∀ call ∈ calls, family call.world ∧ call.model.prov.Mirrored) (hW : family W)
    (M : FieldModel S Tag) (request : PathRequest) :
    FoundLegal W M request (weightedDistanceFieldPathCore W M true request
      (calls.foldl FieldCall.run .empty)).1 := by
  intro hf
  have h : FieldOf family .empty := fieldOf_empty
  exact (fieldOf_session hcalls h).read hfamily hW hf

/-- The dense worlds of a shape are a family. -/
theorem distinguished_dense :
    Distinguished fun W : FieldWorld S Tag => W.residency = .alwaysResident := by
  refine ⟨fun W W' h h' => h.trans h'.symm, fun W W' h _ hsp => ?_⟩
  rw [h] at hsp
  cases hsp

end Sessions

/-- The square after one of its tiles was closed. -/
def closedSquareField : FieldWorld square Unit :=
  ⟨.dense square fun _ c => if c = ⟨1, 0, 0⟩ then 0 else 1, 0⟩

theorem fieldSession_sound_square :
    FoundLegal closedSquareField squareStairs squareRequest
      (weightedDistanceFieldPathCore closedSquareField squareStairs true squareRequest
        ([.build .weighted squareField squareStairs .assumeImpassable ⟨1, 1, 0⟩,
          .read squareField squareStairs squareRequest].foldl FieldCall.run .empty)).1 :=
  fieldSession_sound distinguished_dense
    (by
      intro call hcall
      rcases List.mem_pair.1 hcall with rfl | rfl <;>
        exact ⟨rfl, mirrored_stairTransitions ()⟩)
    rfl squareStairs squareRequest

end Tess
