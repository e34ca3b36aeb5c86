import Tess.Storage.Residency

/-!
# Runs of marks, observations and residency

Marks are made and cleared by tasks that know nothing of each other: one marks a chunk, another
observes the marks, works on what they cover and clears what it has observed, while chunks are
evicted and come back.  A `MarkState` is a world with the observations taken so far, in order,
and a run is a list of operations in any order.

* `MarkState.resident_step` : what one operation does to the marks of a chunk that stays;
* `MarkState.Seen` : observations are never ahead of the chunk they were taken of;
* `MarkState.Guards` : what keeps a mark from an observation that has not seen it;
* `MarkState.no_lost_mark` : **a mark stays until it is cleared by someone who may know of it**.
-/

namespace Tess

/-- Operations on the marks and the residency of chunks. -/
inductive MarkOp
  | markDirty (key : ℕ) (mask : BitVec 32) (bounds : Box3)
  | markTopologyDirty (key : ℕ) (mask : BitVec 32) (bounds : Box3)
  | markContentChanged (key : ℕ)
  | clearDirty (key : ℕ) (mask : BitVec 32)
  | observeDirty (key : ℕ) (mask : BitVec 32)
  | clearDirtyObserved (token : ℕ)
  | ensureResident (key : ℕ)
  | touch (key : ℕ)
  | evict (key : ℕ)

/-- A world and the observations taken so far, each with the key of its chunk. -/
structure MarkState (C : Type) where
  /-- The world. -/
  store : ChunkStore C
  /-- The observations, the first one first. -/
  observed : List (ℕ × DirtyObservation) := []

namespace MarkOp

/-- The operation marks the chunk with the given bits, at least one, and the given box. -/
def Marks (key : ℕ) (mask : BitVec 32) (bounds : Box3) (op : MarkOp) : Prop :=
  mask ≠ 0 ∧ (op = .markDirty key mask bounds ∨ op = .markTopologyDirty key mask bounds)

/-- The operation announces something new about the chunk. -/
def Announces (key : ℕ) (op : MarkOp) : Prop :=
  (∃ mask bounds, op.Marks key mask bounds) ∨ op = .markContentChanged key

end MarkOp

namespace MarkState

section Definitions

variable {C : Type} (s : MarkState C)

/-- `World::observe_dirty`, for a resident chunk. -/
def observeDirty (key : ℕ) (mask : BitVec 32) : MarkState C :=
  match s.store.resident key with
  | none => s
  | some r =>
    { s with observed := s.observed ++ [(key, r.dirty.metaObserveDirty mask r.generation)] }

/-- `World::clear_dirty_observed` with an observation of the chunk; none when it returns
false. -/
def clearDirtyObserved (token : ℕ) : Option (MarkState C) :=
  match s.observed[token]? with
  | none => none
  | some (key, o) => (s.store.clearDirtyObserved key o).map fun W => { s with store := W }

/-- One operation.  `World::mark_topology_dirty` is a mark for what is tracked here. -/
def step [Inhabited C] : MarkOp → MarkState C
  | .markDirty key mask bounds => { s with store := s.store.markDirty key mask bounds }
  | .markTopologyDirty key mask bounds =>
    if mask = 0 then s else { s with store := s.store.markDirty key mask bounds }
  | .markContentChanged key =>
    { s with store := s.store.update key fun r => (r.dirty.metaMarkContentChanged, r.content) }
  | .clearDirty key mask => { s with store := s.store.clearDirty key mask }
  | .observeDirty key mask => s.observeDirty key mask
  | .clearDirtyObserved token => (s.clearDirtyObserved token).getD s
  | .ensureResident key => { s with store := s.store.ensureResident key }
  | .touch key => { s with store := s.store.touch key }
  | .evict key => { s with store := s.store.evict key }

/-- A run of operations. -/
def run [Inhabited C] (ops : List MarkOp) : MarkState C := ops.foldl (fun t op => t.step op) s

/-- A property of every operation of a run and the state it meets. -/
def Throughout [Inhabited C] (P : MarkState C → MarkOp → Prop) :
    MarkState C → List MarkOp → Prop
  | _, [] => True
  | s, op :: ops => P s op ∧ Throughout P (s.step op) ops

/-- The marks of a chunk that stays resident, after one operation. -/
def dirtyAfter (key : ℕ) (r : ResidentChunk C) : MarkOp → ChunkDirty
  | .markDirty k mask bounds => if k = key then r.dirty.metaMarkDirty mask bounds else r.dirty
  | .markTopologyDirty k mask bounds =>
    if k = key then r.dirty.metaMarkDirty mask bounds else r.dirty
  | .markContentChanged k => if k = key then r.dirty.metaMarkContentChanged else r.dirty
  | .clearDirty k mask => if k = key then r.dirty.metaClearDirty mask else r.dirty
  | .clearDirtyObserved token =>
    match s.observed[token]? with
    | none => r.dirty
    | some (k, o) =>
      if k = key then (r.dirty.metaClearDirtyObserved o r.generation).getD r.dirty else r.dirty
  | .observeDirty _ _ => r.dirty
  | .ensureResident _ => r.dirty
  | .touch _ => r.dirty
  | .evict _ => r.dirty

/-- A bit of the chunk is set. -/
def HasBit (key b : ℕ) : Prop :=
  ∃ r, s.store.resident key = some r ∧ r.dirty.mask.getLsbD b = true

/-- The operation may end a mark of the bit: it clears the bit by name, evicts the chunk, or
clears what an observation of this residency saw that is not one of the first `n`. -/
def Ends [Inhabited C] (key b n : ℕ) (op : MarkOp) : Prop :=
  (∃ mask, op = .clearDirty key mask ∧ mask.getLsbD b = true) ∨
    (s.step op).store.resident key = none ∨
    ∃ token o r, op = .clearDirtyObserved token ∧ n ≤ token ∧
      s.observed[token]? = some (key, o) ∧ s.store.resident key = some r ∧
      r.generation = o.residencyGeneration

end Definitions

variable {C : Type} [Inhabited C] {s t : MarkState C} {key b n : ℕ} {op : MarkOp}

theorem run_append (ops ops' : List MarkOp) : s.run (ops ++ ops') = (s.run ops).run ops' :=
  List.foldl_append

theorem run_cons (op : MarkOp) (ops : List MarkOp) : s.run (op :: ops) = (s.step op).run ops := rfl

/-- An invariant that every permitted step keeps holds at the end of a run. -/
theorem Throughout.run {P : MarkState C → MarkOp → Prop} {I : MarkState C → Prop}
    (hstep : ∀ s op, I s → P s op → I (s.step op)) {ops : List MarkOp} (hI : I s)
    (h : Throughout P s ops) : I (s.run ops) := by
  induction ops generalizing s with
  | nil => exact hI
  | cons op ops ih => exact ih (hstep s op hI h.1) h.2

/-! ### One operation -/

/-- **Time only moves forward**: no operation undoes what the observations rely on. -/
theorem later_step : s.store.Later (s.step op).store := by
  cases op with
  | markDirty key mask bounds => exact ChunkStore.later_markDirty mask bounds
  | markTopologyDirty key mask bounds =>
    rw [step]
    split_ifs
    · exact .refl _
    · exact ChunkStore.later_markDirty mask bounds
  | markContentChanged key =>
    refine ChunkStore.later_update fun r _ => ⟨rfl, rfl, Nat.le_succ _, fun _ => rfl, fun h => ?_⟩
    exact absurd h (Nat.succ_ne_self _)
  | clearDirty key mask => exact ChunkStore.later_clearDirty mask
  | observeDirty key mask =>
    rw [step, observeDirty]
    cases s.store.resident key <;> exact .refl _
  | clearDirtyObserved token =>
    rw [step, clearDirtyObserved]
    cases s.observed[token]? with
    | none => exact .refl _
    | some p =>
      obtain ⟨key, o⟩ := p
      cases hc : s.store.clearDirtyObserved key o with
      | none =>
        simp only [hc, Option.map_none, Option.getD_none]
        exact .refl _
      | some W =>
        obtain ⟨r, -, -, -, rfl⟩ := ChunkStore.clearDirtyObserved_eq_some hc
        simp only [hc, Option.map_some, Option.getD_some]
        exact ChunkStore.later_clearDirty _
  | ensureResident key => exact ChunkStore.later_ensureResident
  | touch key => exact ChunkStore.later_touch
  | evict key => exact ChunkStore.later_evict

/-- Observations stay as they were taken. -/
theorem observed_step {token : ℕ} {p : ℕ × DirtyObservation}
    (h : s.observed[token]? = some p) : (s.step op).observed[token]? = some p := by
  cases op with
  | observeDirty key mask =>
    rw [step, observeDirty]
    cases s.store.resident key with
    | none => exact h
    | some r =>
      have hlt := (List.getElem?_eq_some_iff.1 h).1
      simp only [List.getElem?_append_left hlt, h]
  | markTopologyDirty key mask bounds =>
    rw [step]
    split_ifs <;> exact h
  | clearDirtyObserved token' =>
    rw [step, clearDirtyObserved]
    cases s.observed[token']? with
    | none => exact h
    | some q =>
      obtain ⟨k, o⟩ := q
      cases hc : s.store.clearDirtyObserved k o <;> simpa [hc] using h
  | markDirty key mask bounds => exact h
  | markContentChanged key => exact h
  | clearDirty key mask => exact h
  | ensureResident key => exact h
  | touch key => exact h
  | evict key => exact h

/-- **What one operation does to a chunk that stays**: it keeps its residency, and its marks
change by the operation alone. -/
theorem resident_step {r r' : ResidentChunk C} (h : s.store.resident key = some r)
    (h' : (s.step op).store.resident key = some r') :
    r'.generation = r.generation ∧ r'.dirty = s.dirtyAfter key r op := by
  have hsame {W : ChunkStore C} (hW : ∀ q, W.resident key = some q →
      s.store.resident key = some q ∨ s.store.resident key = none)
      (hr : W.resident key = some r') : r' = r := by
    rcases hW r' hr with hq | hq
    · exact Option.some.inj (hq.symm.trans h)
    · rw [hq] at h; cases h
  have hupdate {k : ℕ} {f : ResidentChunk C → ChunkDirty × C}
      (hr : (s.store.update k f).resident key = some r') :
      r'.generation = r.generation ∧ r'.dirty = if k = key then (f r).1 else r.dirty := by
    change s.store.modify k f key = some r' at hr
    rw [ChunkStore.modify] at hr
    split_ifs at hr with hk
    · rw [h, Option.map_some, Option.some.injEq] at hr
      rw [if_pos hk.symm, ← hr]
      exact ⟨rfl, rfl⟩
    · rw [h, Option.some.injEq] at hr
      rw [if_neg fun e => hk e.symm, hr]
      exact ⟨rfl, rfl⟩
  cases op with
  | markDirty k mask bounds => exact hupdate h'
  | markTopologyDirty k mask bounds =>
    rw [step] at h'
    split_ifs at h' with hmask
    · obtain rfl := Option.some.inj (h'.symm.trans h)
      refine ⟨rfl, ?_⟩
      simp [dirtyAfter, ChunkDirty.metaMarkDirty, hmask]
    · exact hupdate h'
  | markContentChanged k => exact hupdate h'
  | clearDirty k mask => exact hupdate h'
  | observeDirty k mask =>
    have hr : s.store.resident key = some r' := by
      rw [step, observeDirty] at h'
      cases hk : s.store.resident k <;> simpa [hk] using h'
    obtain rfl := Option.some.inj (hr.symm.trans h)
    exact ⟨rfl, rfl⟩
  | clearDirtyObserved token =>
    rw [step, clearDirtyObserved] at h'
    rw [dirtyAfter]
    cases ho : s.observed[token]? with
    | none =>
      rw [ho] at h'
      obtain rfl := Option.some.inj (h'.symm.trans h)
      exact ⟨rfl, rfl⟩
    | some p =>
      obtain ⟨k, o⟩ := p
      simp only [ho] at h' ⊢
      cases hk : s.store.resident k with
      | none =>
        have hne : k ≠ key := fun e => by rw [e, h] at hk; cases hk
        simp only [ChunkStore.clearDirtyObserved, hk, Option.map_none, Option.getD_none] at h'
        obtain rfl := Option.some.inj (h'.symm.trans h)
        exact ⟨rfl, (if_neg hne).symm⟩
      | some q =>
        simp only [ChunkStore.clearDirtyObserved, hk] at h'
        cases hd : q.dirty.metaClearDirtyObserved o q.generation with
        | none =>
          simp only [hd, Option.map_none, Option.getD_none] at h'
          obtain rfl := Option.some.inj (h'.symm.trans h)
          refine ⟨rfl, ?_⟩
          split_ifs with hkey
          · subst hkey
            obtain rfl := Option.some.inj (hk.symm.trans h)
            rw [hd, Option.getD_none]
          · rfl
        | some d =>
          simp only [hd, Option.map_some, Option.getD_some] at h'
          obtain ⟨hg, hdirty⟩ := hupdate h'
          refine ⟨hg, hdirty.trans ?_⟩
          split_ifs with hkey
          · subst hkey
            obtain rfl := Option.some.inj (hk.symm.trans h)
            rw [hd, Option.getD_some]
          · rfl
  | ensureResident k =>
    have hr : r' = r := by
      refine hsame (fun q hq => ?_) h'
      rcases ChunkStore.resident_ensureResident hq with hold | ⟨hkey, hnone⟩
      · exact Or.inl hold
      · exact Or.inr (by rw [hkey, hnone])
    exact hr ▸ ⟨rfl, rfl⟩
  | touch k =>
    have hr : r' = r := hsame (fun q hq => Or.inl (ChunkStore.resident_touch ▸ hq)) h'
    exact hr ▸ ⟨rfl, rfl⟩
  | evict k =>
    have hr : r' = r := hsame (fun q hq => Or.inl (ChunkStore.resident_evict hq)) h'
    exact hr ▸ ⟨rfl, rfl⟩

/-! ### Observations -/

/-- **Observations are never ahead**: none is of a later residency than the present ones, and
none of a present residency is of a later version. -/
def Seen (s : MarkState C) : Prop :=
  ∀ (token key : ℕ) (o : DirtyObservation), s.observed[token]? = some (key, o) →
    o.residencyGeneration ≤ s.store.generationClock ∧
      ∀ r, s.store.resident key = some r → r.generation = o.residencyGeneration →
        o.contentVersion ≤ r.dirty.contentVersion

omit [Inhabited C] in
theorem seen_init (W : ChunkStore C) : Seen (⟨W, []⟩ : MarkState C) := by
  intro token key o h
  simp at h

/-- An observation is an earlier one, or has just been taken of a resident chunk. -/
theorem observed_of_step {token : ℕ} {o : DirtyObservation}
    (h : (s.step op).observed[token]? = some (key, o)) : s.observed[token]? = some (key, o) ∨
      ((s.step op).store = s.store ∧ ∃ r mask, s.store.resident key = some r ∧
        o = r.dirty.metaObserveDirty mask r.generation) := by
  cases op with
  | observeDirty k mask =>
    rw [step, observeDirty] at h ⊢
    cases hk : s.store.resident k with
    | none =>
      simp only [hk] at h
      exact Or.inl h
    | some r =>
      simp only [hk, List.getElem?_append] at h ⊢
      split_ifs at h with hlt
      · exact Or.inl h
      · obtain ⟨hpos, heq⟩ := List.getElem?_eq_some_iff.1 h
        have hnew := List.mem_singleton.1 (List.getElem_mem hpos)
        rw [heq] at hnew
        obtain ⟨rfl, rfl⟩ := Prod.mk.inj hnew
        exact Or.inr ⟨trivial, r, mask, hk, rfl⟩
  | markTopologyDirty k mask bounds =>
    rw [step] at h
    split_ifs at h <;> exact Or.inl h
  | clearDirtyObserved token' =>
    rw [step, clearDirtyObserved] at h
    cases hq : s.observed[token']? with
    | none =>
      simp only [hq, Option.getD_none] at h
      exact Or.inl h
    | some q =>
      obtain ⟨k, o'⟩ := q
      cases hc : s.store.clearDirtyObserved k o' <;>
        simp only [hq, hc, Option.map_none, Option.map_some, Option.getD_none,
          Option.getD_some] at h <;> exact Or.inl h
  | markDirty k mask bounds => exact Or.inl h
  | markContentChanged k => exact Or.inl h
  | clearDirty k mask => exact Or.inl h
  | ensureResident k => exact Or.inl h
  | touch k => exact Or.inl h
  | evict k => exact Or.inl h

/-- **A chunk of an observed residency** was resident before the operation, and is not older. -/
theorem later_of_generation {r' : ResidentChunk C} {g : ℕ}
    (h' : (s.step op).store.resident key = some r') (hg : r'.generation = g)
    (hle : g ≤ s.store.generationClock) :
    ∃ r, s.store.resident key = some r ∧ r.Later r' := by
  rcases later_step.resident key r' h' with hr | hnew
  · exact hr
  · omega

theorem Seen.step (h : s.Seen) : (s.step op).Seen := by
  intro token key o ho
  rcases observed_of_step ho with hold | ⟨hstore, r, mask, hr, rfl⟩
  · obtain ⟨hle, hversion⟩ := h token key o hold
    refine ⟨hle.trans later_step.clock, fun r' hr' hg => ?_⟩
    obtain ⟨r, hr, hlater⟩ := later_of_generation hr' hg hle
    exact (hversion r hr (hlater.generation.symm.trans hg)).trans hlater.version
  · rw [hstore]
    refine ⟨s.store.generation_le key r hr, fun r' hr' _ => ?_⟩
    obtain rfl := Option.some.inj (hr'.symm.trans hr)
    exact le_rfl

theorem Seen.run (h : s.Seen) (ops : List MarkOp) : (s.run ops).Seen := by
  induction ops generalizing s with
  | nil => exact h
  | cons op ops ih => exact ih h.step

/-! ### A mark stays -/

/-- **A bit is guarded** when it is set and the first `n` observations are too old to clear
it. -/
structure Guards (key b n : ℕ) (s : MarkState C) : Prop where
  /-- There are that many observations. -/
  length : n ≤ s.observed.length
  /-- The bit is set, and they are of an earlier version. -/
  bit : ∃ r, s.store.resident key = some r ∧ r.dirty.mask.getLsbD b = true ∧
    ∀ token < n, ∀ o, s.observed[token]? = some (key, o) →
      r.generation = o.residencyGeneration → o.contentVersion < r.dirty.contentVersion

/-- What an observed clear does, if it does anything. -/
theorem metaClearDirtyObserved_eq_some {d d' : ChunkDirty} {o : DirtyObservation} {g : ℕ}
    (h : d.metaClearDirtyObserved o g = some d') :
    g = o.residencyGeneration ∧ d.contentVersion = o.contentVersion ∧
      d' = d.metaClearDirty o.mask := by
  rw [ChunkDirty.metaClearDirtyObserved] at h
  split_ifs at h with h1 h2
  exact ⟨not_not.1 h1, not_not.1 h2, (Option.some.inj h).symm⟩

/-- **A guarded bit** is not lost to an operation that may not end the mark. -/
theorem bit_dirtyAfter {r : ResidentChunk C} (hr : s.store.resident key = some r)
    (hbit : r.dirty.mask.getLsbD b = true)
    (hold : ∀ token < n, ∀ o, s.observed[token]? = some (key, o) →
      r.generation = o.residencyGeneration → o.contentVersion < r.dirty.contentVersion)
    (hno : ¬ s.Ends key b n op) : (s.dirtyAfter key r op).mask.getLsbD b = true := by
  cases op with
  | markDirty k mask bounds =>
    rw [dirtyAfter]
    split_ifs
    · exact ChunkStore.getLsbD_metaMarkDirty (Or.inl hbit)
    · exact hbit
  | markTopologyDirty k mask bounds =>
    rw [dirtyAfter]
    split_ifs
    · exact ChunkStore.getLsbD_metaMarkDirty (Or.inl hbit)
    · exact hbit
  | markContentChanged k =>
    rw [dirtyAfter]
    split_ifs <;> exact hbit
  | clearDirty k mask =>
    rw [dirtyAfter]
    split_ifs with hk
    · refine ChunkStore.getLsbD_metaClearDirty hbit ?_
      by_contra hmask
      exact hno (Or.inl ⟨mask, by rw [hk], by simpa using hmask⟩)
    · exact hbit
  | clearDirtyObserved token =>
    rw [dirtyAfter]
    cases ho : s.observed[token]? with
    | none => exact hbit
    | some p =>
      obtain ⟨k, o⟩ := p
      simp only
      split_ifs with hk
      · subst hk
        cases hd : r.dirty.metaClearDirtyObserved o r.generation with
        | none => exact hbit
        | some d =>
          obtain ⟨hg, hv, -⟩ := metaClearDirtyObserved_eq_some hd
          by_cases htoken : token < n
          · have := hold token htoken o ho hg
            omega
          · exact absurd (Or.inr (Or.inr ⟨token, o, r, rfl, by omega, ho, hr, hg⟩)) hno
      · exact hbit
  | observeDirty k mask => exact hbit
  | ensureResident k => exact hbit
  | touch k => exact hbit
  | evict k => exact hbit

theorem Guards.step (h : s.Guards key b n) (hno : ¬ s.Ends key b n op) :
    (s.step op).Guards key b n := by
  obtain ⟨hlen, r, hr, hbit, hold⟩ := h
  have hstay : ∃ r', (s.step op).store.resident key = some r' :=
    Option.ne_none_iff_exists'.1 fun hnone => hno (Or.inr (Or.inl hnone))
  obtain ⟨r', hr'⟩ := hstay
  obtain ⟨hg, hdirty⟩ := resident_step hr hr'
  obtain ⟨q, hq, hlater⟩ := later_of_generation hr' hg (s.store.generation_le key r hr)
  obtain rfl := Option.some.inj (hq.symm.trans hr)
  have hpre (token : ℕ) (htoken : token < n) :
      (s.step op).observed[token]? = s.observed[token]? := by
    have hsome : s.observed[token]? = some s.observed[token] := List.getElem?_eq_getElem _
    rw [hsome, observed_step hsome]
  refine ⟨?_, r', hr', ?_, fun token htoken o ho hgen => ?_⟩
  · by_contra hshort
    rcases Nat.eq_zero_or_pos n with hn | hn
    · omega
    · have hsome : s.observed[n - 1]? = some (s.observed[n - 1]) := List.getElem?_eq_getElem _
      have hlt := (List.getElem?_eq_some_iff.1 (@observed_step _ _ s op _ _ hsome)).1
      omega
  · rw [hdirty]
    exact bit_dirtyAfter hr hbit hold hno
  · rw [hpre token htoken] at ho
    exact (hold token htoken o ho (hg ▸ hgen)).trans_le hlater.version

omit [Inhabited C] in
/-- The version after an announcement. -/
theorem version_of_announces {r : ResidentChunk C} (h : op.Announces key) :
    (s.dirtyAfter key r op).contentVersion = r.dirty.contentVersion + 1 := by
  rcases h with ⟨mask, bounds, hmask, rfl | rfl⟩ | rfl
  · rw [dirtyAfter, if_pos rfl, ChunkStore.metaMarkDirty_version _ hmask]
  · rw [dirtyAfter, if_pos rfl, ChunkStore.metaMarkDirty_version _ hmask]
  · rw [dirtyAfter, if_pos rfl, ChunkDirty.metaMarkContentChanged]

/-- A mark of a resident chunk leaves it resident, with the marks that the mark makes. -/
theorem exists_step_of_marks {mask : BitVec 32} {bounds : Box3} {r : ResidentChunk C}
    (h : op.Marks key mask bounds) (hr : s.store.resident key = some r) :
    ∃ r', (s.step op).store.resident key = some r' ∧ r'.generation = r.generation ∧
      r'.dirty = r.dirty.metaMarkDirty mask bounds ∧ (s.step op).observed = s.observed := by
  have hmark : (s.store.markDirty key mask bounds).resident key =
      some { r with dirty := r.dirty.metaMarkDirty mask bounds } := by
    change s.store.modify key _ key = _
    rw [ChunkStore.modify, if_pos rfl, hr]
    rfl
  obtain ⟨hmask, rfl | rfl⟩ := h
  · exact ⟨_, hmark, rfl, rfl, rfl⟩
  · rw [step, if_neg hmask]
    exact ⟨_, hmark, rfl, rfl, rfl⟩

/-- **A mark is guarded** against the observations taken before it. -/
theorem Seen.guards {mask : BitVec 32} {bounds : Box3} {r : ResidentChunk C} (h : s.Seen)
    (hop : op.Marks key mask bounds) (hb : mask.getLsbD b = true)
    (hr : s.store.resident key = some r) : (s.step op).Guards key b s.observed.length := by
  obtain ⟨r', hr', hg, hdirty, hobs⟩ := exists_step_of_marks hop hr
  refine ⟨hobs ▸ le_rfl, r', hr', ?_, fun token _ o ho hgen => ?_⟩
  · rw [hdirty]
    exact ChunkStore.getLsbD_metaMarkDirty (Or.inr hb)
  · rw [hobs] at ho
    have hle := (h token key o ho).2 r hr (hg ▸ hgen)
    rw [hdirty, ChunkStore.metaMarkDirty_version _ hop.1]
    omega

/-! ### An outdated observation clears nothing -/

/-- The observation is of an earlier residency or of an earlier version. -/
def Outdated (key token : ℕ) (s : MarkState C) : Prop :=
  ∃ o, s.observed[token]? = some (key, o) ∧ o.residencyGeneration ≤ s.store.generationClock ∧
    ∀ r, s.store.resident key = some r → r.generation = o.residencyGeneration →
      o.contentVersion < r.dirty.contentVersion

theorem Outdated.step {token : ℕ} (h : s.Outdated key token) : (s.step op).Outdated key token := by
  obtain ⟨o, ho, hle, hversion⟩ := h
  refine ⟨o, observed_step ho, hle.trans later_step.clock, fun r' hr' hg => ?_⟩
  obtain ⟨r, hr, hlater⟩ := later_of_generation hr' hg hle
  exact (hversion r hr (hlater.generation.symm.trans hg)).trans_le hlater.version

theorem Outdated.run {token : ℕ} (h : s.Outdated key token) (ops : List MarkOp) :
    (s.run ops).Outdated key token := by
  induction ops generalizing s with
  | nil => exact h
  | cons op ops ih => exact ih h.step

/-- **An announcement outdates** the observations taken before it. -/
theorem Seen.outdated {token : ℕ} {o : DirtyObservation} (h : s.Seen)
    (ho : s.observed[token]? = some (key, o)) (hop : op.Announces key) :
    (s.step op).Outdated key token := by
  obtain ⟨hle, hversion⟩ := h token key o ho
  refine ⟨o, observed_step ho, hle.trans later_step.clock, fun r' hr' hg => ?_⟩
  obtain ⟨r, hr, hlater⟩ := later_of_generation hr' hg hle
  have := hversion r hr (hlater.generation.symm.trans hg)
  rw [(resident_step hr hr').2, version_of_announces hop]
  omega

omit [Inhabited C] in
/-- **An outdated observation is refused.** -/
theorem Outdated.refused {token : ℕ} (h : s.Outdated key token) :
    s.clearDirtyObserved token = none := by
  obtain ⟨o, ho, -, hversion⟩ := h
  rw [clearDirtyObserved, ho]
  cases hc : s.store.clearDirtyObserved key o with
  | none => simp only [hc, Option.map_none]
  | some W =>
    obtain ⟨r, hr, hg, hv, -⟩ := ChunkStore.clearDirtyObserved_eq_some hc
    have := hversion r hr hg
    omega

/-! ### The bounds cover the marks -/

/-- The chunk is marked and its bounds have the tile. -/
def Covers (key : ℕ) (c : Coord3) (s : MarkState C) : Prop :=
  ∃ r, s.store.resident key = some r ∧ r.dirty.mask ≠ 0 ∧ r.dirty.bounds.Has c

/-- The chunk is marked. -/
def Marked (key : ℕ) (s : MarkState C) : Prop :=
  ∃ r, s.store.resident key = some r ∧ r.dirty.mask ≠ 0

theorem has_metaClearDirty {d : ChunkDirty} {mask : BitVec 32} {c : Coord3} (h : d.bounds.Has c)
    (hmask : (d.metaClearDirty mask).mask ≠ 0) : (d.metaClearDirty mask).bounds.Has c := by
  rw [ChunkStore.metaClearDirty_mask] at hmask
  rw [ChunkDirty.metaClearDirty]
  split_ifs
  · exact h
  · exact h

theorem has_metaMarkDirty {d : ChunkDirty} {mask : BitVec 32} {bounds : Box3} {c : Coord3}
    (hd : d.mask ≠ 0) (h : d.bounds.Has c) (hc : ∀ a, c.get a < int64Max) :
    (d.metaMarkDirty mask bounds).bounds.Has c := by
  rw [ChunkDirty.metaMarkDirty]
  split_ifs
  · exact h
  · exact h.unionBox_left hc

/-- **The bounds keep a tile** as long as the chunk stays marked. -/
theorem Covers.step {c : Coord3} (h : s.Covers key c) (hc : ∀ a, c.get a < int64Max)
    (hmarked : (s.step op).Marked key) : (s.step op).Covers key c := by
  obtain ⟨r, hr, hmask, hhas⟩ := h
  obtain ⟨r', hr', hmask'⟩ := hmarked
  refine ⟨r', hr', hmask', ?_⟩
  rw [(resident_step hr hr').2] at hmask' ⊢
  cases op with
  | markDirty k mask bounds =>
    rw [dirtyAfter] at hmask' ⊢
    split_ifs
    · exact has_metaMarkDirty hmask hhas hc
    · exact hhas
  | markTopologyDirty k mask bounds =>
    rw [dirtyAfter] at hmask' ⊢
    split_ifs
    · exact has_metaMarkDirty hmask hhas hc
    · exact hhas
  | markContentChanged k =>
    rw [dirtyAfter]
    split_ifs <;> exact hhas
  | clearDirty k mask =>
    rw [dirtyAfter] at hmask' ⊢
    split_ifs at hmask' ⊢
    · exact has_metaClearDirty hhas hmask'
    · exact hhas
  | clearDirtyObserved token =>
    rw [dirtyAfter] at hmask' ⊢
    cases ho : s.observed[token]? with
    | none => exact hhas
    | some p =>
      obtain ⟨k, o⟩ := p
      simp only [ho] at hmask' ⊢
      split_ifs at hmask' ⊢
      · cases hd : r.dirty.metaClearDirtyObserved o r.generation with
        | none => exact hhas
        | some d =>
          obtain ⟨-, -, rfl⟩ := metaClearDirtyObserved_eq_some hd
          rw [hd, Option.getD_some] at hmask'
          exact has_metaClearDirty hhas hmask'
      · exact hhas
  | observeDirty k mask => exact hhas
  | ensureResident k => exact hhas
  | touch k => exact hhas
  | evict k => exact hhas

/-- **A mark covers its box.** -/
theorem covers_of_marks {mask : BitVec 32} {bounds : Box3} {r : ResidentChunk C} {c : Coord3}
    (hop : op.Marks key mask bounds) (hr : s.store.resident key = some r)
    (hhas : bounds.Has c) (hc : ∀ a, c.get a < int64Max) : (s.step op).Covers key c := by
  obtain ⟨r', hr', -, hdirty, -⟩ := exists_step_of_marks hop hr
  refine ⟨r', hr', ?_, ?_⟩
  · rw [hdirty, ChunkDirty.metaMarkDirty, if_neg hop.1]
    intro h0
    exact hop.1 (BitVec.or_eq_zero_iff.1 h0).2
  · rw [hdirty, ChunkDirty.metaMarkDirty, if_neg hop.1]
    simp only
    split_ifs
    · exact hhas
    · exact hhas.unionBox_right hc

/-! ### The law -/

/-- **No mark is lost** after a state, whatever operations follow. -/
structure KeepsMarks (s : MarkState C) (key : ℕ) : Prop where
  /-- A bit that an operation marks stays set until the bit is cleared by name, the chunk is
  evicted, or an observation of this residency that was taken after the mark is cleared. -/
  stays : ∀ op mask bounds b, op.Marks key mask bounds → mask.getLsbD b = true →
    (∃ r, s.store.resident key = some r) → ∀ after,
      Throughout (fun t op' => ¬ t.Ends key b s.observed.length op') (s.step op) after →
      ((s.step op).run after).HasBit key b
  /-- An observed clear returns false and changes nothing once a mark or a content change has
  been announced since its observation. -/
  refused : ∀ mask, (∃ r, s.store.resident key = some r) → ∀ between op after,
    op.Announces key →
      let t := ((s.step (.observeDirty key mask)).run between).run (op :: after)
      t.clearDirtyObserved s.observed.length = none ∧
        t.step (.clearDirtyObserved s.observed.length) = t
  /-- The bounds have every tile of the world in the box of a mark, as long as the chunk stays
  marked. -/
  covered : ∀ op mask bounds, op.Marks key mask bounds →
    (∃ r, s.store.resident key = some r) → ∀ (S : Shape) (c : Coord3), S.contains c = true →
      bounds.Has c → ∀ after,
      Throughout (fun t op' => (t.step op').Marked key) (s.step op) after →
      ((s.step op).run after).Covers key c

/-- **No mark is lost in any run**, of any order of operations, over any world. -/
theorem no_lost_mark (W : ChunkStore C) (before : List MarkOp) (key : ℕ) :
    KeepsMarks ((⟨W, []⟩ : MarkState C).run before) key := by
  have hseen := (seen_init W).run before
  revert hseen
  generalize (⟨W, []⟩ : MarkState C).run before = s
  intro hseen
  refine ⟨?_, ?_, ?_⟩
  · rintro op mask bounds b hop hb ⟨r, hr⟩ after hafter
    have hguards := hafter.run (I := Guards key b s.observed.length) (fun t op' h hno => h.step hno)
      (hseen.guards hop hb hr)
    obtain ⟨q, hq, hbit, -⟩ := hguards.bit
    exact ⟨q, hq, hbit⟩
  · rintro mask ⟨r, hr⟩ between op after hop
    have hstart : (s.step (.observeDirty key mask)).observed[s.observed.length]? =
        some (key, r.dirty.metaObserveDirty mask r.generation) := by
      rw [step, observeDirty, hr]
      simp
    have hthere : ∀ ops (t : MarkState C) p, t.observed[s.observed.length]? = some p →
        (t.run ops).observed[s.observed.length]? = some p := by
      intro ops
      induction ops with
      | nil => exact fun _ _ h => h
      | cons op' ops ih => exact fun t p h => ih _ p (observed_step h)
    have hout := ((hseen.step.run between).outdated (hthere between _ _ hstart) hop).run after
    have hnone := hout.refused
    have hgetD {t : MarkState C} {token : ℕ} (h : t.clearDirtyObserved token = none) :
        t.step (.clearDirtyObserved token) = t := by
      rw [step, h, Option.getD_none]
    exact ⟨hnone, hgetD hnone⟩
  · rintro op mask bounds hop ⟨r, hr⟩ S c hc hhas after hafter
    have hlt := fun a => lt_int64Max hc a
    exact hafter.run (I := Covers key c) (fun t op' h hmarked => h.step hlt hmarked)
      (covers_of_marks hop hr hhas hlt)

end MarkState

end Tess
