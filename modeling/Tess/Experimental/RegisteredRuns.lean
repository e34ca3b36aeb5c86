import Tess.Experimental.RegisteredScheduler
import Mathlib.Algebra.Order.BigOperators.Group.Finset

/-!
# Interleavings of the registered scheduler

Every step of a thread keeps the invariant of the scheduler.  A drain that has looked at the
backend relies on what the steps of other threads leave alone.

* `RegisteredScheduler.Valid` : **the invariant**: locks, counters, backend and registry;
* `RegisteredScheduler.Calm` : what a drain may rely on;
* `RegisteredScheduler.Valid.step` : every step keeps the invariant.
-/

namespace Tess

namespace RegisteredScheduler

variable {n : ℕ} {β : Type}

/-! ### Kinds of frames -/

namespace Frame

/-- A call that is not one of a callback. -/
def outer : Frame → Bool
  | .schedule outer _ => outer
  | _ => true

/-- A call of `try_release`. -/
def isRelease : Frame → Bool
  | .release _ => true
  | _ => false

/-- An offer in flight. -/
def inFlight : Frame → Bool
  | .schedule _ (.offering _ _) => true
  | .schedule _ (.running _ _ _) => true
  | .schedule _ (.offered _ _) => true
  | .schedule _ .counted => true
  | .schedule _ .leaving => true
  | _ => false

/-- A drain with the drain lock. -/
def holdsDrain : Frame → Bool
  | .drain .locked => false
  | .drain .left => false
  | .drain _ => true
  | _ => false

/-- A drain inside the backend. -/
def inBackend : Frame → Bool
  | .drain (.draining _) => true
  | .drain (.running _ _) => true
  | _ => false

/-- A drain with the observation lock. -/
def observes : Frame → Bool
  | .drain (.observing _ _ _) => true
  | .drain (.observedInFlight _ _ _ _) => true
  | .drain (.observedActivity _ _ _ _ _) => true
  | .drain (.judged _) => true
  | _ => false

/-- The slot of an offer that was accepted and is not counted yet. -/
def accepted : Frame → Option ℕ
  | .schedule _ (.offered i (some .accepted)) => some i
  | _ => none

/-- The slot that runs in the frame. -/
def runs : Frame → Option ℕ
  | .schedule _ (.running _ _ i) => some i
  | .drain (.running _ i) => some i
  | _ => none

end Frame

/-- A stack of calls: the first is an outer one, and others are made by callbacks. -/
def Stacked : List Frame → Prop
  | [] => True
  | [f] => f.outer = true
  | f :: g :: l => f.outer = false ∧ g.callback = true ∧ Stacked (g :: l)

theorem Stacked.exists_outer {l : List Frame} (h : Stacked l) (hne : l ≠ []) :
    ∃ f ∈ l, f.outer = true := by
  induction l with
  | nil => exact absurd rfl hne
  | cons f l ih =>
    cases l with
    | nil => exact ⟨f, List.mem_cons_self, h⟩
    | cons g l =>
      obtain ⟨f', hf', ho⟩ := ih h.2.2 (List.cons_ne_nil g l)
      exact ⟨f', List.mem_cons_of_mem f hf', ho⟩

theorem Stacked.tail {f : Frame} {l : List Frame} (h : Stacked (f :: l)) : Stacked l := by
  cases l with
  | nil => trivial
  | cons g l => exact h.2.2

/-- An outer call is the last of the stack. -/
theorem Stacked.eq_nil {f : Frame} {l : List Frame} (h : Stacked (f :: l)) (ho : f.outer = true) :
    l = [] := by
  cases l with
  | nil => rfl
  | cons g l =>
    rw [h.1] at ho
    cases ho

/-- Calls below the top run callbacks. -/
theorem Stacked.callback {f g : Frame} {l : List Frame} (h : Stacked (f :: l)) (hg : g ∈ l) :
    g.callback = true := by
  induction l generalizing f with
  | nil => cases hg
  | cons g' l ih =>
    rcases List.mem_cons.1 hg with rfl | hg
    · exact h.2.1
    · exact ih h.2.2 hg

theorem Stacked.replace {f f' : Frame} {l : List Frame} (h : Stacked (f :: l))
    (ho : f'.outer = f.outer) : Stacked (f' :: l) := by
  cases l with
  | nil => exact ho.trans h
  | cons g l => exact ⟨ho.trans h.1, h.2⟩

/-! ### The invariant -/

section Invariant

variable (B : RegisteredBackend β) (s : RegisteredScheduler n β)

/-- A thread is about to count an accepted offer of the slot. -/
def Accepted (i : ℕ) : Prop := ∃ t, ∃ f ∈ s.threads t, f.accepted = some i

/-- What a drain knows that found nothing pending: as long as nothing was counted since, offers
that are owed a run are about to be counted. -/
def Watched (before : Observation) : Prop :=
  before.activity ≤ s.activityEpoch ∧
    (before.pending = false → s.activityEpoch = before.activity →
      ∀ i, s.owed i = true → s.Accepted i)

/-- What a drain knows at every access. -/
def DrainOk : DrainPhase → Prop
  | .sawActivity a => a ≤ s.activityEpoch
  | .sawInFlight a _ => a ≤ s.activityEpoch
  | .sawPending before => s.Watched before
  | .draining before => s.Watched before
  | .running before _ => s.Watched before
  | .drained before _ => s.Watched before
  | .sawPendingAfter before _ _ => s.Watched before
  | .observing before _ _ => s.Watched before
  | .observedInFlight before _ _ f => s.Watched before ∧ (f = 0 → s.inFlight = 0)
  | .observedActivity before _ _ f a =>
    s.Watched before ∧ (f = 0 → s.inFlight = 0 ∧ a = s.activityEpoch)
  | .judged result => result = .idle → s.inFlight = 0 ∧ ∀ i, s.owed i = false
  | _ => True

/-- What a release knows at every access. -/
def ReleaseOk : ReleasePhase → Prop
  | .locked _ => True
  | .resolved handle => s.resolve handle ≠ none
  | .sawIdle handle _ => s.resolve handle ≠ none
  | .sawEpochs handle => s.resolve handle ≠ none
  | .permitted handle =>
    s.resolve handle ≠ none ∧ (s.isSealed = true → ∀ i, s.owed i = false)
  | .unlocking => True

/-- What a call knows. -/
def FrameOk : Frame → Prop
  | .schedule _ _ => True
  | .drain p => s.DrainOk p
  | .release p => s.ReleaseOk p

/-- Released handles are of earlier generations, until the generations of the slot wrap round. -/
structure RegistryOk : Prop where
  /-- The generation counts the releases. -/
  generation : ∀ i, s.releases i < 2 ^ 64 - 1 → (s.slots i).generation = s.releases i + 1
  /-- Released handles are of this scheduler, and older. -/
  released : ∀ handle ∈ s.released, handle.ownerEpoch = s.ownerEpoch ∧
    (s.releases handle.slot < 2 ^ 64 - 1 → handle.slotGeneration ≤ s.releases handle.slot)

/-- **The invariant.** -/
structure Valid : Prop where
  /-- Offers in flight are counted. -/
  count : s.inFlight = ∑ t, (s.threads t).countP Frame.inFlight
  /-- Calls nest. -/
  nested : ∀ t, Stacked (s.threads t)
  /-- An outer call holds the lifecycle lock. -/
  locks : ∀ t, ∀ f ∈ s.threads t, f.outer = true →
    if f.isRelease then s.writer = some t else t ∈ s.readers
  /-- Who has the lifecycle lock alone shares it with nobody. -/
  exclusive : s.writer ≠ none → s.readers = ∅
  /-- A drain holds the drain lock. -/
  drainers : ∀ t, ∀ f ∈ s.threads t, f.holdsDrain = true → s.drainer = some t
  /-- The backend drains inside a drain only. -/
  draining : B.draining s.backend → ∃ t, ∃ f ∈ s.threads t, f.inBackend = true
  /-- A drain that observes holds the observation lock. -/
  observers : ∀ t, ∀ f ∈ s.threads t, f.observes = true → s.observer = some t
  /-- The backend retains what is owed a run. -/
  retained : ∀ i, s.owed i = true → B.retains s.backend i
  /-- Calls know what they saw. -/
  frames : ∀ t, ∀ f ∈ s.threads t, s.FrameOk f
  /-- The registry is in order. -/
  registry : s.RegistryOk

end Invariant

variable {B : RegisteredBackend β} {s s' s₁ : RegisteredScheduler n β} {t : Fin n}
  {f f' : Frame} {rest : List Frame} {g g' : MaintenanceGlobals n}

/-! ### What a drain relies on -/

/-- **What a drain relies on** when another thread, or a callback, makes a step. -/
structure Calm (s s' : RegisteredScheduler n β) : Prop where
  /-- The activity grows. -/
  activity : s.activityEpoch ≤ s'.activityEpoch
  /-- Without activity, what is newly owed is about to be counted. -/
  offers : s'.activityEpoch = s.activityEpoch → ∀ i, s'.owed i = true →
    s'.Accepted i ∨ s.owed i = true ∧ (s.Accepted i → s'.Accepted i)
  /-- Under the observation lock offers neither enter nor leave. -/
  quiet : s.observer ≠ none → s'.inFlight = s.inFlight ∧
    (s.inFlight = 0 → s'.activityEpoch = s.activityEpoch ∧
      ∀ i, s'.owed i = true → s.owed i = true)

theorem Calm.watched (h : Calm s s') {before : Observation} (hw : s.Watched before) :
    s'.Watched before := by
  obtain ⟨hle, hoffers⟩ := hw
  refine ⟨hle.trans h.activity, fun hp ha i hi => ?_⟩
  have hsame : s'.activityEpoch = s.activityEpoch := by
    have := h.activity
    omega
  rcases h.offers hsame i hi with hacc | ⟨ho, hkeep⟩
  · exact hacc
  · exact hkeep (hoffers hp (hsame ▸ ha) i ho)

/-- A drain still knows what it knew. -/
theorem Calm.drainOk (h : Calm s s') {p : DrainPhase} (hp : s.DrainOk p)
    (hobs : (Frame.drain p).observes = true → s.observer ≠ none) : s'.DrainOk p := by
  cases p with
  | sawActivity a => exact le_trans hp h.activity
  | sawInFlight a f => exact le_trans hp h.activity
  | sawPending before | draining before | running before i | drained before ended
  | sawPendingAfter before ended pending | observing before ended pending => exact h.watched hp
  | observedInFlight before ended pending f =>
    obtain ⟨hw, hf⟩ := hp
    refine ⟨h.watched hw, fun hzero => ?_⟩
    rw [(h.quiet (hobs rfl)).1]
    exact hf hzero
  | observedActivity before ended pending f a =>
    obtain ⟨hw, hf⟩ := hp
    refine ⟨h.watched hw, fun hzero => ?_⟩
    obtain ⟨hcount, ha⟩ := hf hzero
    obtain ⟨hsame, hact⟩ := h.quiet (hobs rfl)
    exact ⟨hsame.trans hcount, ha.trans (hact hcount).1.symm⟩
  | judged result =>
    intro hr
    obtain ⟨hcount, howed⟩ := hp hr
    obtain ⟨hsame, hact⟩ := h.quiet (hobs rfl)
    refine ⟨hsame.trans hcount, fun i => Bool.eq_false_iff.2 fun hi => ?_⟩
    have := (hact hcount).2 i hi
    rw [howed i] at this
    cases this
  | locked | holding | cleared | leaving | left => trivial

/-! ### A call goes on -/

theorem goto_threads_self (ht : s.threads t = f :: rest) :
    (s.goto t f').threads t = f' :: rest := by
  simp [goto, ht]

theorem goto_threads_ne {t' : Fin n} (h : t' ≠ t) : (s.goto t f').threads t' = s.threads t' := by
  simp [goto, h]

/-- Calls that are there after a call went on: the new one and the others. -/
theorem mem_goto {t' : Fin n} {f₁ : Frame} (ht : s.threads t = f :: rest)
    (h : f₁ ∈ (s.goto t f').threads t') :
    t' = t ∧ f₁ = f' ∨ (t' = t ∧ f₁ ∈ rest ∨ t' ≠ t) ∧ f₁ ∈ s.threads t' := by
  by_cases hne : t' = t
  · subst hne
    rw [goto_threads_self ht] at h
    rcases List.mem_cons.1 h with rfl | hmem
    · exact Or.inl ⟨rfl, rfl⟩
    · exact Or.inr ⟨Or.inl ⟨rfl, hmem⟩, ht ▸ List.mem_cons_of_mem f hmem⟩
  · rw [goto_threads_ne hne] at h
    exact Or.inr ⟨Or.inr hne, h⟩

theorem mem_goto_self (ht : s.threads t = f :: rest) : f' ∈ (s.goto t f').threads t := by
  rw [goto_threads_self ht]
  exact List.mem_cons_self

/-- Other calls stay. -/
theorem mem_goto_of_mem {t' : Fin n} {f₁ : Frame} (ht : s.threads t = f :: rest)
    (h : f₁ ∈ s.threads t') (hne : t' = t → f₁ ≠ f) : f₁ ∈ (s.goto t f').threads t' := by
  by_cases heq : t' = t
  · subst heq
    rw [ht] at h
    rw [goto_threads_self ht]
    exact List.mem_cons_of_mem _ ((List.mem_cons.1 h).resolve_left (hne rfl))
  · rwa [goto_threads_ne heq]

/-- The offers in flight, when a call goes on. -/
theorem count_goto (ht : s.threads t = f :: rest) :
    (∑ t', ((s.goto t f').threads t').countP Frame.inFlight) + f.inFlight.toNat =
      (∑ t', (s.threads t').countP Frame.inFlight) + f'.inFlight.toNat := by
  rw [← Finset.add_sum_erase _ _ (Finset.mem_univ t), ← Finset.add_sum_erase _ (fun t' =>
    (s.threads t').countP Frame.inFlight) (Finset.mem_univ t), goto_threads_self ht, ht,
    List.countP_cons, List.countP_cons]
  have hrest : ∑ t' ∈ Finset.univ.erase t, ((s.goto t f').threads t').countP Frame.inFlight =
      ∑ t' ∈ Finset.univ.erase t, (s.threads t').countP Frame.inFlight :=
    Finset.sum_congr rfl fun t' ht' => by rw [goto_threads_ne (Finset.ne_of_mem_erase ht')]
  rw [hrest]
  cases f.inFlight <;> cases f'.inFlight <;> simp <;> omega

/-- A frame in flight is counted. -/
theorem Valid.inFlight_pos (h : s.Valid B) {t : Fin n} {f : Frame} (hf : f ∈ s.threads t)
    (hin : f.inFlight = true) : 0 < s.inFlight := by
  rw [h.count]
  refine Finset.sum_pos' (fun _ _ => Nat.zero_le _) ⟨t, Finset.mem_univ t, ?_⟩
  exact List.countP_pos_iff.2 ⟨f, hf, hin⟩

/-- Who holds the lifecycle lock alone is the only thread with calls. -/
theorem Valid.threads_eq_nil (h : s.Valid B) (hw : s.writer = some t) {t' : Fin n}
    (hne : t' ≠ t) : s.threads t' = [] := by
  by_contra hsome
  obtain ⟨f, hf, ho⟩ := (h.nested t').exists_outer hsome
  have hlock := h.locks t' f hf ho
  split_ifs at hlock
  · rw [hw] at hlock
    exact hne (Option.some.inj hlock).symm
  · rw [h.exclusive (by rw [hw]; exact Option.some_ne_none t)] at hlock
    exact absurd hlock (Finset.notMem_empty t')

/-- A call of `try_release` is alone. -/
theorem Valid.release_unique (h : s.Valid B) {p : ReleasePhase} (hf : .release p ∈ s.threads t)
    {t' : Fin n} {f : Frame} (hf' : f ∈ s.threads t') : t' = t ∧ f.outer = true := by
  have hw : s.writer = some t := h.locks t _ hf rfl
  have ht : t' = t := by
    by_contra hne
    rw [h.threads_eq_nil hw hne] at hf'
    cases hf'
  subst ht
  refine ⟨rfl, ?_⟩
  -- nothing but an outer call can be above or below a call that runs no callback
  cases hstack : s.threads t' with
  | nil =>
    rw [hstack] at hf'
    cases hf'
  | cons f₀ rest =>
    have hs := h.nested t'
    rw [hstack] at hf hf' hs
    rcases List.mem_cons.1 hf with rfl | hrest
    · obtain rfl := hs.eq_nil rfl
      rw [List.mem_singleton] at hf'
      rw [hf']
      rfl
    · have := hs.callback hrest
      cases this

theorem accepted_inFlight {i : ℕ} (h : f.accepted = some i) : f.inFlight = true := by
  unfold Frame.accepted at h
  split at h
  · rfl
  · cases h

/-- A call that was about to count nothing leaves those that are. -/
theorem Accepted.goto {i : ℕ} (hthreads : s₁.threads = s.threads) (ht : s.threads t = f :: rest)
    (hf : f.accepted = none) (h : s.Accepted i) : (s₁.goto t f').Accepted i := by
  obtain ⟨t', f₁, hf₁, hacc⟩ := h
  have hne : f₁ ≠ f := by
    rintro rfl
    rw [hf] at hacc
    cases hacc
  exact ⟨t', f₁, mem_goto_of_mem (hthreads ▸ ht) (hthreads ▸ hf₁) fun _ => hne, hacc⟩

/-- **A call goes on.** -/
theorem Valid.goto (h : s.Valid B) (ht : s.threads t = f :: rest)
    (hthreads : s₁.threads = s.threads)
    (hcount : s₁.inFlight + f.inFlight.toNat = s.inFlight + f'.inFlight.toNat)
    (hkind : f'.outer = f.outer ∧ f'.isRelease = f.isRelease)
    (hlocks : s₁.writer = s.writer ∧ s₁.readers = s.readers)
    (hdrainer : ∀ t', s.drainer = some t' → s₁.drainer = some t' ∨ t' = t ∧ rest = [])
    (hdrainer' : f'.holdsDrain = true → s₁.drainer = some t)
    (hobserver : ∀ t', s.observer = some t' → s₁.observer = some t' ∨ t' = t ∧ rest = [])
    (hobserver' : f'.observes = true → s₁.observer = some t)
    (hdraining : B.draining s₁.backend →
      f'.inBackend = true ∨ B.draining s.backend ∧ f.inBackend = false)
    (hretained : ∀ i, s₁.owed i = true → B.retains s₁.backend i)
    (hcalm : Calm s (s₁.goto t f')) (hframe : (s₁.goto t f').FrameOk f')
    (hregistry : s₁.RegistryOk) : (s₁.goto t f').Valid B := by
  have ht₁ : s₁.threads t = f :: rest := hthreads ▸ ht
  have hstack : Stacked (f :: rest) := ht ▸ h.nested t
  -- other calls were there before
  have hold : ∀ {t' f₁}, f₁ ∈ (s₁.goto t f').threads t' → ¬ (t' = t ∧ f₁ = f') →
      f₁ ∈ s.threads t' ∧ ¬ (t' = t ∧ rest = []) := by
    intro t' f₁ hmem hne
    rcases mem_goto ht₁ hmem with hnew | ⟨hwhere, hmem⟩
    · exact absurd hnew hne
    · refine ⟨hthreads ▸ hmem, ?_⟩
      rintro ⟨rfl, hnil⟩
      rcases hwhere with ⟨-, hrest⟩ | hne
      · rw [hnil] at hrest
        cases hrest
      · exact hne rfl
  refine ⟨?_, fun t' => ?_, fun t' f₁ hf₁ ho => ?_, ?_, fun t' f₁ hf₁ hd => ?_, fun hd => ?_,
    fun t' f₁ hf₁ hobs => ?_, hretained, fun t' f₁ hf₁ => ?_,
    ⟨hregistry.generation, hregistry.released⟩⟩
  · have hsum := @count_goto _ _ s₁ t f f' rest ht₁
    have hs := h.count
    rw [hthreads] at hsum
    change s₁.inFlight = _
    omega
  · by_cases hne : t' = t
    · subst hne
      rw [goto_threads_self ht₁]
      exact hstack.replace hkind.1
    · rw [goto_threads_ne hne, hthreads]
      exact h.nested t'
  · change if f₁.isRelease then s₁.writer = some t' else t' ∈ s₁.readers
    rw [hlocks.1, hlocks.2]
    by_cases hnew : t' = t ∧ f₁ = f'
    · obtain ⟨rfl, rfl⟩ := hnew
      rw [hkind.2]
      exact h.locks t' f (ht ▸ List.mem_cons_self) (hkind.1 ▸ ho)
    · exact h.locks t' f₁ (hold hf₁ hnew).1 ho
  · change s₁.writer ≠ none → s₁.readers = ∅
    rw [hlocks.1, hlocks.2]
    exact h.exclusive
  · by_cases hnew : t' = t ∧ f₁ = f'
    · obtain ⟨rfl, rfl⟩ := hnew
      exact hdrainer' hd
    · obtain ⟨hmem, hrest⟩ := hold hf₁ hnew
      exact (hdrainer t' (h.drainers t' f₁ hmem hd)).resolve_right hrest
  · rcases hdraining hd with hin | ⟨hd, hout⟩
    · exact ⟨t, f', mem_goto_self ht₁, hin⟩
    · obtain ⟨t', f₁, hf₁, hin⟩ := h.draining hd
      refine ⟨t', f₁, mem_goto_of_mem ht₁ (hthreads ▸ hf₁) fun _ => ?_, hin⟩
      rintro rfl
      rw [hout] at hin
      cases hin
  · by_cases hnew : t' = t ∧ f₁ = f'
    · obtain ⟨rfl, rfl⟩ := hnew
      exact hobserver' hobs
    · obtain ⟨hmem, hrest⟩ := hold hf₁ hnew
      exact (hobserver t' (h.observers t' f₁ hmem hobs)).resolve_right hrest
  · by_cases hnew : t' = t ∧ f₁ = f'
    · rw [hnew.2]
      exact hframe
    · obtain ⟨hmem, hrest⟩ := hold hf₁ hnew
      cases f₁ with
      | schedule outer p => trivial
      | drain p =>
        refine hcalm.drainOk (h.frames t' _ hmem) fun hobs => ?_
        rw [h.observers t' _ hmem hobs]
        exact Option.some_ne_none t'
      | release p =>
        -- a release is alone, so it would be the call that goes on
        obtain ⟨rfl, ho⟩ := h.release_unique hmem (ht ▸ List.mem_cons_self : f ∈ s.threads t)
        exact absurd ⟨rfl, hstack.eq_nil ho⟩ hrest

/-- A call looks at something, and nothing changes. -/
theorem Calm.goto (ht : s.threads t = f :: rest) (hf : f.accepted = none) :
    Calm s (s.goto t f') where
  activity := le_rfl
  offers := fun _ _ hi => Or.inr ⟨hi, Accepted.goto rfl ht hf⟩
  quiet := fun _ => ⟨rfl, fun _ => ⟨rfl, fun _ hi => hi⟩⟩

/-- **A call looks at something**, which changes nothing but its own frame. -/
theorem Valid.look (h : s.Valid B) (ht : s.threads t = f :: rest)
    (hsame : f'.inFlight = f.inFlight ∧ f'.outer = f.outer ∧ f'.isRelease = f.isRelease ∧
      f'.inBackend = f.inBackend)
    (hdrains : f'.holdsDrain = true → f.holdsDrain = true)
    (hobs : f'.observes = true → f.observes = true) (hf : f.accepted = none)
    (hframe : (s.goto t f').FrameOk f') : (s.goto t f').Valid B := by
  obtain ⟨hin, hout, hrel, hback⟩ := hsame
  have hmem : f ∈ s.threads t := ht ▸ List.mem_cons_self
  refine h.goto ht rfl (by rw [hin]) ⟨hout, hrel⟩ ⟨rfl, rfl⟩ (fun _ => Or.inl)
    (fun hd => h.drainers t f hmem (hdrains hd)) (fun _ => Or.inl)
    (fun ho => h.observers t f hmem (hobs ho)) (fun hd => ?_) h.retained (Calm.goto ht hf) hframe
    h.registry
  cases hb : f.inBackend
  · exact Or.inr ⟨hd, rfl⟩
  · exact Or.inl (hback.trans hb)

/-- The idle observation is nothing the invariant speaks of. -/
theorem Valid.setIdle (h : s.Valid B) (e : ℕ) :
    ({ s with idleEpoch := e } : RegisteredScheduler n β).Valid B :=
  ⟨h.count, h.nested, h.locks, h.exclusive, h.drainers, h.draining, h.observers, h.retained,
    h.frames, ⟨h.registry.generation, h.registry.released⟩⟩

/-! ### Calls begin and return -/

/-- **A call begins.** -/
theorem Valid.push (h : s.Valid B) (hthreads : s₁.threads = s.threads)
    (hstack : Stacked (f' :: s.threads t))
    (hnew : f'.inFlight = false ∧ f'.holdsDrain = false ∧ f'.observes = false)
    (hlock : f'.outer = true → if f'.isRelease then s₁.writer = some t else t ∈ s₁.readers)
    (hexclusive : s₁.writer ≠ none → s₁.readers = ∅)
    (hlocks : ∀ t', (s.writer = some t' → s₁.writer = some t') ∧
      (t' ∈ s.readers → t' ∈ s₁.readers))
    (hsame : s₁.inFlight = s.inFlight ∧ s₁.drainer = s.drainer ∧ s₁.observer = s.observer ∧
      s₁.backend = s.backend ∧ s₁.owed = s.owed ∧ s₁.activityEpoch = s.activityEpoch)
    (hrelease : ∀ t' p, .release p ∉ s.threads t')
    (hframe : (s₁.push t f').FrameOk f') (hregistry : s₁.RegistryOk) :
    (s₁.push t f').Valid B := by
  obtain ⟨hcount, hdrainer, hobserver, hbackend, howed, hactivity⟩ := hsame
  have hself : (s₁.push t f').threads t = f' :: s.threads t := by simp [RegisteredScheduler.push, hthreads]
  have hother : ∀ t', t' ≠ t → (s₁.push t f').threads t' = s.threads t' := fun t' hne => by
    simp [RegisteredScheduler.push, hne, hthreads]
  have hkeep : ∀ {t' f₁}, f₁ ∈ s.threads t' → f₁ ∈ (s₁.push t f').threads t' := by
    intro t' f₁ hmem
    by_cases hne : t' = t
    · subst hne
      rw [hself]
      exact List.mem_cons_of_mem _ hmem
    · rwa [hother t' hne]
  have hold : ∀ {t' f₁}, f₁ ∈ (s₁.push t f').threads t' → ¬ (t' = t ∧ f₁ = f') →
      f₁ ∈ s.threads t' := by
    intro t' f₁ hmem hne
    by_cases heq : t' = t
    · subst heq
      rw [hself] at hmem
      exact (List.mem_cons.1 hmem).resolve_left fun hf => hne ⟨rfl, hf⟩
    · rwa [hother t' heq] at hmem
  have hcalm : Calm s (s₁.push t f') := by
    refine ⟨hactivity.ge, fun _ i hi => Or.inr ⟨?_, ?_⟩, fun _ => ⟨hcount, fun _ => ⟨hactivity, ?_⟩⟩⟩
    · exact howed ▸ hi
    · rintro ⟨t', f₁, hf₁, hacc⟩
      exact ⟨t', f₁, hkeep hf₁, hacc⟩
    · intro i hi
      exact howed ▸ hi
  refine ⟨?_, fun t' => ?_, fun t' f₁ hf₁ ho => ?_, hexclusive, fun t' f₁ hf₁ hd => ?_, fun hd => ?_,
    fun t' f₁ hf₁ hobs => ?_, fun i hi => ?_, fun t' f₁ hf₁ => ?_,
    ⟨hregistry.generation, hregistry.released⟩⟩
  · change s₁.inFlight = _
    rw [hcount, h.count]
    refine Finset.sum_congr rfl fun t' _ => ?_
    by_cases hne : t' = t
    · subst hne
      rw [hself, List.countP_cons, hnew.1]
      simp
    · rw [hother t' hne]
  · by_cases hne : t' = t
    · subst hne
      rw [hself]
      exact hstack
    · rw [hother t' hne]
      exact h.nested t'
  · change if f₁.isRelease then s₁.writer = some t' else t' ∈ s₁.readers
    by_cases hnew' : t' = t ∧ f₁ = f'
    · obtain ⟨rfl, rfl⟩ := hnew'
      exact hlock ho
    · have hl := h.locks t' f₁ (hold hf₁ hnew') ho
      split_ifs at hl ⊢
      · exact (hlocks t').1 hl
      · exact (hlocks t').2 hl
  · by_cases hnew' : t' = t ∧ f₁ = f'
    · rw [hnew'.2, hnew.2.1] at hd
      cases hd
    · exact hdrainer.trans (h.drainers t' f₁ (hold hf₁ hnew') hd)
  · obtain ⟨t', f₁, hf₁, hin⟩ := h.draining (hbackend ▸ hd)
    exact ⟨t', f₁, hkeep hf₁, hin⟩
  · by_cases hnew' : t' = t ∧ f₁ = f'
    · rw [hnew'.2, hnew.2.2] at hobs
      cases hobs
    · exact hobserver.trans (h.observers t' f₁ (hold hf₁ hnew') hobs)
  · change B.retains s₁.backend i
    rw [hbackend]
    exact h.retained i (howed ▸ hi)
  · by_cases hnew' : t' = t ∧ f₁ = f'
    · rw [hnew'.2]
      exact hframe
    · have hmem := hold hf₁ hnew'
      cases f₁ with
      | schedule outer p => trivial
      | drain p =>
        refine hcalm.drainOk (h.frames t' _ hmem) fun hobs => ?_
        rw [h.observers t' _ hmem hobs]
        exact Option.some_ne_none t'
      | release p => exact absurd hmem (hrelease t' p)

/-- **A call returns.** -/
theorem Valid.pop (h : s.Valid B) (ht : s.threads t = f :: rest)
    (hthreads : s₁.threads = s.threads)
    (hold : f.inFlight = false ∧ f.holdsDrain = false ∧ f.observes = false ∧
      f.inBackend = false)
    (hlocks : ∀ t', t' ≠ t ∨ f.outer = false → (s.writer = some t' → s₁.writer = some t') ∧
      (t' ∈ s.readers → t' ∈ s₁.readers))
    (hexclusive : s₁.writer ≠ none → s₁.readers = ∅)
    (hsame : s₁.inFlight = s.inFlight ∧ s₁.drainer = s.drainer ∧ s₁.observer = s.observer ∧
      s₁.backend = s.backend ∧ s₁.owed = s.owed ∧ s₁.activityEpoch = s.activityEpoch)
    (hregistry : s₁.RegistryOk) : (s₁.pop t).Valid B := by
  obtain ⟨hin, hdr, hob, hback⟩ := hold
  obtain ⟨hcount, hdrainer, hobserver, hbackend, howed, hactivity⟩ := hsame
  have hstack : Stacked (f :: rest) := ht ▸ h.nested t
  have hself : (s₁.pop t).threads t = rest := by simp [RegisteredScheduler.pop, hthreads, ht]
  have hother : ∀ t', t' ≠ t → (s₁.pop t).threads t' = s.threads t' := fun t' hne => by
    simp [RegisteredScheduler.pop, hne, hthreads]
  have hsub : ∀ {t' f₁}, f₁ ∈ (s₁.pop t).threads t' →
      f₁ ∈ s.threads t' ∧ (t' ≠ t ∨ f₁ ∈ rest) := by
    intro t' f₁ hmem
    by_cases hne : t' = t
    · subst hne
      rw [hself] at hmem
      exact ⟨ht ▸ List.mem_cons_of_mem f hmem, Or.inr hmem⟩
    · rw [hother t' hne] at hmem
      exact ⟨hmem, Or.inl hne⟩
  have hkeep : ∀ {t' f₁}, f₁ ∈ s.threads t' → f₁ ≠ f → f₁ ∈ (s₁.pop t).threads t' := by
    intro t' f₁ hmem hne
    by_cases heq : t' = t
    · subst heq
      rw [hself]
      rw [ht] at hmem
      exact (List.mem_cons.1 hmem).resolve_left hne
    · rwa [hother t' heq]
  have hcalm : Calm s (s₁.pop t) := by
    refine ⟨hactivity.ge, fun _ i hi => Or.inr ⟨?_, ?_⟩, fun _ => ⟨hcount, fun _ => ⟨hactivity, ?_⟩⟩⟩
    · exact howed ▸ hi
    · rintro ⟨t', f₁, hf₁, hacc⟩
      refine ⟨t', f₁, hkeep hf₁ ?_, hacc⟩
      rintro rfl
      rw [accepted_inFlight hacc] at hin
      cases hin
    · intro i hi
      exact howed ▸ hi
  refine ⟨?_, fun t' => ?_, fun t' f₁ hf₁ ho => ?_, hexclusive, fun t' f₁ hf₁ hd => ?_, fun hd => ?_,
    fun t' f₁ hf₁ hobs => ?_, fun i hi => ?_, fun t' f₁ hf₁ => ?_,
    ⟨hregistry.generation, hregistry.released⟩⟩
  · change s₁.inFlight = _
    rw [hcount, h.count]
    refine Finset.sum_congr rfl fun t' _ => ?_
    by_cases hne : t' = t
    · subst hne
      rw [hself, ht, List.countP_cons, hin]
      simp
    · rw [hother t' hne]
  · by_cases hne : t' = t
    · subst hne
      rw [hself]
      exact hstack.tail
    · rw [hother t' hne]
      exact h.nested t'
  · change if f₁.isRelease then s₁.writer = some t' else t' ∈ s₁.readers
    obtain ⟨hmem, hwhere⟩ := hsub hf₁
    have hl := h.locks t' f₁ hmem ho
    have hkept := hlocks t' (hwhere.imp_right fun hrest => by
      -- a call below another one is there for it to return to
      by_contra houter
      rw [hstack.eq_nil (Bool.not_eq_false _ ▸ houter)] at hrest
      cases hrest)
    split_ifs at hl ⊢
    · exact hkept.1 hl
    · exact hkept.2 hl
  · exact hdrainer.trans (h.drainers t' f₁ (hsub hf₁).1 hd)
  · obtain ⟨t', f₁, hf₁, hin'⟩ := h.draining (hbackend ▸ hd)
    refine ⟨t', f₁, hkeep hf₁ ?_, hin'⟩
    rintro rfl
    rw [hback] at hin'
    cases hin'
  · exact hobserver.trans (h.observers t' f₁ (hsub hf₁).1 hobs)
  · change B.retains s₁.backend i
    rw [hbackend]
    exact h.retained i (howed ▸ hi)
  · obtain ⟨hmem, hwhere⟩ := hsub hf₁
    cases f₁ with
    | schedule outer p => trivial
    | drain p =>
      refine hcalm.drainOk (h.frames t' _ hmem) fun hobs => ?_
      rw [h.observers t' _ hmem hobs]
      exact Option.some_ne_none t'
    | release p =>
      obtain ⟨rfl, ho⟩ := h.release_unique hmem (ht ▸ List.mem_cons_self : f ∈ s.threads t)
      rcases hwhere with hne | hrest
      · exact absurd rfl hne
      · rw [hstack.eq_nil ho] at hrest
        cases hrest

/-! ### `try_schedule` -/

theorem Calm.goto_of_eq (ht : s.threads t = f :: rest) (hthreads : s₁.threads = s.threads)
    (hf : f.accepted = none) (hactivity : s₁.activityEpoch = s.activityEpoch)
    (howed : s₁.owed = s.owed) (hcount : s.observer ≠ none → s₁.inFlight = s.inFlight) :
    Calm s (s₁.goto t f') where
  activity := hactivity.ge
  offers := fun _ i hi => Or.inr ⟨by rw [← howed]; exact hi, Accepted.goto hthreads ht hf⟩
  quiet := fun hobs => ⟨hcount hobs, fun _ => ⟨hactivity, fun i hi => by rw [← howed]; exact hi⟩⟩

/-- **An access of `try_schedule`.** -/
theorem Valid.advanceSchedule (h : s.Valid B) {outer : Bool} {phase : SchedulePhase}
    (ht : s.threads t = .schedule outer phase :: rest)
    (hrun : s.advanceSchedule g t outer phase = some (g', s')) : s'.Valid B := by
  have hmem : Frame.schedule outer phase ∈ s.threads t := ht ▸ List.mem_cons_self
  cases phase with
  | locked handle =>
    simp only [RegisteredScheduler.advanceSchedule] at hrun
    split at hrun
    · cases hrun
      exact h.look ht ⟨rfl, rfl, rfl, rfl⟩ id id rfl trivial
    · split_ifs at hrun
      cases hrun
      exact h.look ht ⟨rfl, rfl, rfl, rfl⟩ id id rfl trivial
  | resolved i =>
    simp only [RegisteredScheduler.advanceSchedule] at hrun
    split_ifs at hrun with hgo
    cases hrun
    -- the drain has no observation lock, so the offer may enter
    exact h.goto ht rfl rfl ⟨rfl, rfl⟩ ⟨rfl, rfl⟩ (fun _ => Or.inl) (fun hd => (by cases hd))
      (fun _ => Or.inl) (fun hd => (by cases hd)) (fun hd => Or.inr ⟨hd, rfl⟩) h.retained
      (Calm.goto_of_eq ht rfl rfl rfl rfl fun hobs => absurd hgo.1 hobs) trivial
      ⟨h.registry.generation, h.registry.released⟩
  | offering i ran => cases hrun
  | running i ran j => cases hrun
  | offered i result =>
    simp only [RegisteredScheduler.advanceSchedule] at hrun
    split_ifs at hrun with hresult hmax
    · cases hrun
      subst hresult
      exact h.look ht ⟨rfl, rfl, rfl, rfl⟩ id id rfl trivial
    · cases hrun
      refine h.goto ht rfl rfl ⟨rfl, rfl⟩ ⟨rfl, rfl⟩ (fun _ => Or.inl) (fun hd => (by cases hd))
        (fun _ => Or.inl) (fun hd => (by cases hd)) (fun hd => Or.inr ⟨hd, rfl⟩) h.retained ?_ trivial
        ⟨h.registry.generation, h.registry.released⟩
      -- the activity moves on, so no drain that looked before can call this idle
      refine ⟨Nat.le_succ _, fun hsame => ?_, fun _ => ⟨rfl, fun hzero => ?_⟩⟩
      · exact absurd hsame (Nat.succ_ne_self _)
      · have := h.inFlight_pos hmem rfl
        omega
  | counted =>
    cases hrun
    exact (h.setIdle maxU64).look ht ⟨rfl, rfl, rfl, rfl⟩ id id rfl trivial
  | leaving =>
    simp only [RegisteredScheduler.advanceSchedule] at hrun
    split_ifs at hrun with hgo
    cases hrun
    refine h.goto ht rfl ?_ ⟨rfl, rfl⟩ ⟨rfl, rfl⟩ (fun _ => Or.inl) (fun hd => (by cases hd))
      (fun _ => Or.inl) (fun hd => (by cases hd)) (fun hd => Or.inr ⟨hd, rfl⟩) h.retained
      (Calm.goto_of_eq ht rfl rfl rfl rfl fun hobs => absurd hgo.1 hobs) trivial
      ⟨h.registry.generation, h.registry.released⟩
    change s.inFlight - 1 + 1 = s.inFlight + 0
    omega
  | left =>
    simp only [RegisteredScheduler.advanceSchedule] at hrun
    split_ifs at hrun with houter
    · cases hrun
      subst houter
      refine h.pop ht rfl ⟨rfl, rfl, rfl, rfl⟩ (fun t' hne => ⟨id, fun hmem' => ?_⟩) (fun hw => ?_)
        ⟨rfl, rfl, rfl, rfl, rfl, rfl⟩ ⟨h.registry.generation, h.registry.released⟩
      · exact Finset.mem_erase.2 ⟨hne.resolve_right (fun heq => by cases heq), hmem'⟩
      · change s.readers.erase t = ∅
        rw [h.exclusive hw, Finset.erase_empty]
    · cases hrun
      exact h.pop ht rfl ⟨rfl, rfl, rfl, rfl⟩ (fun t' _ => ⟨id, id⟩) h.exclusive
        ⟨rfl, rfl, rfl, rfl, rfl, rfl⟩ h.registry

/-! ### `run_some` and `flush` -/

/-- Outside its drain the backend drains nothing. -/
theorem Valid.not_draining (h : s.Valid B) {p : DrainPhase} (ht : s.threads t = .drain p :: rest)
    (hholds : (Frame.drain p).holdsDrain = true) (hout : (Frame.drain p).inBackend = false) :
    ¬ B.draining s.backend := by
  intro hd
  obtain ⟨t', f, hf, hin⟩ := h.draining hd
  have hf' : f.holdsDrain = true := by
    unfold Frame.inBackend at hin
    split at hin
    · rfl
    · rfl
    · cases hin
  have hdrainer := h.drainers t _ (ht ▸ List.mem_cons_self) hholds
  rw [h.drainers t' f hf hf'] at hdrainer
  obtain rfl := Option.some.inj hdrainer
  have hnil : rest = [] := (ht ▸ h.nested t' : Stacked (_ :: rest)).eq_nil rfl
  rw [ht, hnil, List.mem_singleton] at hf
  rw [hf, hout] at hin
  cases hin

/-- Without offers in flight, none is about to be counted. -/
theorem Valid.not_accepted (h : s.Valid B) (hzero : s.inFlight = 0) (i : ℕ) : ¬ s.Accepted i := by
  rintro ⟨t, f, hf, hacc⟩
  have := h.inFlight_pos hf (accepted_inFlight hacc)
  omega

/-- **An access of a drain.** -/
theorem Valid.advanceDrain (h : s.Valid B) {phase : DrainPhase}
    (ht : s.threads t = .drain phase :: rest)
    (hrun : s.advanceDrain B g t phase = some (g', s')) : s'.Valid B := by
  have hmem : Frame.drain phase ∈ s.threads t := ht ▸ List.mem_cons_self
  have hnil : rest = [] := (ht ▸ h.nested t : Stacked (_ :: rest)).eq_nil rfl
  have hok : s.DrainOk phase := h.frames t _ hmem
  cases phase with
  | locked =>
    simp only [RegisteredScheduler.advanceDrain] at hrun
    split_ifs at hrun with hgo
    cases hrun
    exact h.goto ht rfl rfl ⟨rfl, rfl⟩ ⟨rfl, rfl⟩
      (fun t' hd => by rw [hgo.2] at hd; cases hd) (fun _ => rfl)
      (fun _ => Or.inl) (fun hd => (by cases hd)) (fun hd => Or.inr ⟨hd, rfl⟩) h.retained
      (Calm.goto_of_eq ht rfl rfl rfl rfl fun _ => rfl) trivial
      ⟨h.registry.generation, h.registry.released⟩
  | holding =>
    cases hrun
    exact (h.setIdle maxU64).look ht ⟨rfl, rfl, rfl, rfl⟩ id id rfl trivial
  | cleared =>
    cases hrun
    exact h.look ht ⟨rfl, rfl, rfl, rfl⟩ id id rfl (le_refl s.activityEpoch)
  | sawActivity activity =>
    cases hrun
    exact h.look ht ⟨rfl, rfl, rfl, rfl⟩ id id rfl hok
  | sawInFlight activity inFlight =>
    cases hrun
    refine h.look ht ⟨rfl, rfl, rfl, rfl⟩ id id rfl ⟨hok, fun hp _ i hi => ?_⟩
    -- the backend would show an offer that is owed
    have hret := B.hasPending_of_retains (h.not_draining ht rfl rfl) (h.retained i hi)
    rw [show B.hasPending s.backend = false from hp] at hret
    cases hret
  | sawPending before => cases hrun
  | draining before => cases hrun
  | running before i => cases hrun
  | drained before ended =>
    simp only [RegisteredScheduler.advanceDrain] at hrun
    split_ifs at hrun
    · cases hrun
      exact h.look ht ⟨rfl, rfl, rfl, rfl⟩ id id rfl trivial
    · cases hrun
      exact h.look ht ⟨rfl, rfl, rfl, rfl⟩ id id rfl ((Calm.goto ht rfl).watched hok)
  | sawPendingAfter before ended pending =>
    simp only [RegisteredScheduler.advanceDrain] at hrun
    split_ifs at hrun with hgo
    cases hrun
    have hcalm : Calm s (RegisteredScheduler.goto { s with observer := some t } t
        (.drain (.observing before ended pending))) :=
      Calm.goto_of_eq ht rfl rfl rfl rfl fun _ => rfl
    exact h.goto ht rfl rfl ⟨rfl, rfl⟩ ⟨rfl, rfl⟩ (fun _ => Or.inl)
      (fun _ => h.drainers t _ hmem rfl) (fun t' ho => by rw [hgo] at ho; cases ho) (fun _ => rfl)
      (fun hd => Or.inr ⟨hd, rfl⟩) h.retained hcalm (hcalm.watched hok)
      ⟨h.registry.generation, h.registry.released⟩
  | observing before ended pending =>
    cases hrun
    exact h.look ht ⟨rfl, rfl, rfl, rfl⟩ id id rfl ⟨(Calm.goto ht rfl).watched hok, id⟩
  | observedInFlight before ended pending inFlight =>
    cases hrun
    exact h.look ht ⟨rfl, rfl, rfl, rfl⟩ id id rfl
      ⟨(Calm.goto ht rfl).watched hok.1, fun hzero => ⟨hok.2 hzero, rfl⟩⟩
  | observedActivity before ended pending inFlight activity =>
    cases hrun
    refine (h.setIdle _).look ht ⟨rfl, rfl, rfl, rfl⟩ id id rfl fun hidle => ?_
    obtain ⟨⟨-, hoffers⟩, hzero⟩ := hok
    unfold judge at hidle
    split_ifs at hidle with h₁ h₂ hcond
    obtain ⟨hp, -, hf, ha⟩ := hcond
    obtain ⟨hcount, hact⟩ := hzero hf
    refine ⟨hcount, fun i => Bool.eq_false_iff.2 fun hi => ?_⟩
    exact h.not_accepted hcount i (hoffers hp (by omega) i hi)
  | judged result =>
    cases hrun
    exact h.goto ht rfl rfl ⟨rfl, rfl⟩ ⟨rfl, rfl⟩ (fun _ => Or.inl)
      (fun _ => h.drainers t _ hmem rfl)
      (fun t' ho => Or.inr ⟨by
        rw [h.observers t _ hmem rfl] at ho
        exact (Option.some.inj ho).symm, hnil⟩)
      (fun hd => (by cases hd)) (fun hd => Or.inr ⟨hd, rfl⟩) h.retained
      (Calm.goto_of_eq ht rfl rfl rfl rfl fun _ => rfl) trivial
      ⟨h.registry.generation, h.registry.released⟩
  | leaving =>
    cases hrun
    exact h.goto ht rfl rfl ⟨rfl, rfl⟩ ⟨rfl, rfl⟩
      (fun t' hd => Or.inr ⟨by
        rw [h.drainers t _ hmem rfl] at hd
        exact (Option.some.inj hd).symm, hnil⟩)
      (fun hd => (by cases hd)) (fun _ => Or.inl) (fun hd => (by cases hd))
      (fun hd => Or.inr ⟨hd, rfl⟩) h.retained
      (Calm.goto_of_eq ht rfl rfl rfl rfl fun _ => rfl) trivial
      ⟨h.registry.generation, h.registry.released⟩
  | left =>
    cases hrun
    refine h.pop ht rfl ⟨rfl, rfl, rfl, rfl⟩ (fun t' hne => ⟨id, fun hmem' => ?_⟩) (fun hw => ?_)
      ⟨rfl, rfl, rfl, rfl, rfl, rfl⟩ ⟨h.registry.generation, h.registry.released⟩
    · exact Finset.mem_erase.2 ⟨hne.resolve_right (fun heq => by cases heq), hmem'⟩
    · change s.readers.erase t = ∅
      rw [h.exclusive hw, Finset.erase_empty]

/-! ### `try_release` -/

/-- During a release nothing is owed that the backend does not show. -/
theorem Valid.not_owed_of_release (h : s.Valid B) {p : ReleasePhase}
    (ht : s.threads t = .release p :: rest) (hp : B.hasPending s.backend = false) (i : ℕ) :
    s.owed i = false := by
  refine Bool.eq_false_iff.2 fun hi => ?_
  have hdrain : ¬ B.draining s.backend := by
    intro hd
    obtain ⟨t', f, hf, hin⟩ := h.draining hd
    obtain ⟨rfl, -⟩ := h.release_unique (ht ▸ List.mem_cons_self : .release p ∈ s.threads t) hf
    have hnil : rest = [] := (ht ▸ h.nested t' : Stacked (_ :: rest)).eq_nil rfl
    rw [ht, hnil, List.mem_singleton] at hf
    subst hf
    cases hin
  rw [B.hasPending_of_retains hdrain (h.retained i hi)] at hp
  cases hp

theorem nextGeneration_eq {a : ℕ} (h : a + 1 < 2 ^ 64) : nextGeneration a = a + 1 := by
  unfold nextGeneration
  rw [Nat.mod_eq_of_lt h]
  simp

theorem resolve_eq_some {handle : MaintenanceHandle} {i : ℕ} (h : s.resolve handle = some i) :
    handle.slot = i ∧ handle.ownerEpoch = s.ownerEpoch ∧ handle.slot < s.capacity ∧
      (s.slots handle.slot).target ≠ none ∧
      (s.slots handle.slot).generation = handle.slotGeneration := by
  unfold resolve at h
  split_ifs at h with h₁ h₂
  push Not at h₁ h₂
  exact ⟨Option.some.inj h, h₁.1, h₁.2, h₂.1, h₂.2⟩

/-- A release makes its handle an older one. -/
theorem RegistryOk.release {handle : MaintenanceHandle} (h : s.RegistryOk)
    (hresolve : s.resolve handle ≠ none) :
    RegistryOk { s with
      slots := Function.update s.slots handle.slot
        ⟨none, nextGeneration (s.slots handle.slot).generation⟩
      released := handle :: s.released
      releases := Function.update s.releases handle.slot (s.releases handle.slot + 1) } := by
  obtain ⟨i, hi⟩ := Option.ne_none_iff_exists'.1 hresolve
  obtain ⟨-, howner, -, -, hgen⟩ := resolve_eq_some hi
  refine ⟨fun i hlt => ?_, fun handle' hmem => ?_⟩
  · simp only [Function.update_apply] at hlt ⊢
    split_ifs at hlt ⊢ with heq
    · have := h.generation handle.slot (by omega)
      rw [this, nextGeneration_eq (by omega)]
    · exact h.generation i hlt
  · rcases List.mem_cons.1 hmem with rfl | hold
    · refine ⟨howner, fun hlt => ?_⟩
      simp only [Function.update_self] at hlt ⊢
      have := h.generation handle'.slot (by omega)
      omega
    · obtain ⟨ho, hold⟩ := h.released handle' hold
      refine ⟨ho, fun hlt => ?_⟩
      simp only [Function.update_apply] at hlt ⊢
      split_ifs at hlt ⊢ with heq
      · rw [heq] at hold
        have := hold (by omega)
        omega
      · exact hold hlt

/-- **An access of `try_release`.** -/
theorem Valid.advanceRelease (h : s.Valid B) {phase : ReleasePhase}
    (ht : s.threads t = .release phase :: rest)
    (hrun : s.advanceRelease B g t phase = some (g', s')) : s'.Valid B := by
  have hmem : Frame.release phase ∈ s.threads t := ht ▸ List.mem_cons_self
  have hok : s.ReleaseOk phase := h.frames t _ hmem
  cases phase with
  | locked handle =>
    simp only [RegisteredScheduler.advanceRelease] at hrun
    split at hrun
    · cases hrun
      exact h.look ht ⟨rfl, rfl, rfl, rfl⟩ id id rfl trivial
    · rename_i i hi
      have hresolve : s.resolve handle ≠ none := by
        rw [hi]
        exact Option.some_ne_none i
      cases hrun
      cases hsealed : s.isSealed with
      | true => exact h.look ht ⟨rfl, rfl, rfl, rfl⟩ id id rfl hresolve
      | false =>
        refine h.look ht ⟨rfl, rfl, rfl, rfl⟩ id id rfl ⟨hresolve, fun hs => ?_⟩
        have hs : s.isSealed = true := hs
        rw [hsealed] at hs
        cases hs
  | resolved handle =>
    cases hrun
    exact h.look ht ⟨rfl, rfl, rfl, rfl⟩ id id rfl hok
  | sawIdle handle idle =>
    cases hrun
    split_ifs
    · exact h.look ht ⟨rfl, rfl, rfl, rfl⟩ id id rfl hok
    · exact h.look ht ⟨rfl, rfl, rfl, rfl⟩ id id rfl trivial
  | sawEpochs handle =>
    cases hrun
    cases hp : B.hasPending s.backend with
    | true => exact h.look ht ⟨rfl, rfl, rfl, rfl⟩ id id rfl trivial
    | false =>
      exact h.look ht ⟨rfl, rfl, rfl, rfl⟩ id id rfl
        ⟨hok, fun _ => h.not_owed_of_release ht hp⟩
  | permitted handle =>
    simp only [RegisteredScheduler.advanceRelease, Option.map_eq_some_iff] at hrun
    obtain ⟨⟨g₁, s₁⟩, hrelease, heq⟩ := hrun
    obtain ⟨rfl, rfl⟩ := Prod.mk.inj heq
    unfold releaseSlot at hrelease
    split at hrelease
    · cases hrelease
    · split_ifs at hrelease
      cases hrelease
      refine h.goto ht rfl rfl ⟨rfl, rfl⟩ ⟨rfl, rfl⟩ (fun _ => Or.inl) (fun hd => (by cases hd))
        (fun _ => Or.inl) (fun hd => (by cases hd)) (fun hd => Or.inr ⟨hd, rfl⟩) h.retained
        (Calm.goto_of_eq ht rfl rfl rfl rfl fun _ => rfl) trivial (h.registry.release hok.1)
  | unlocking =>
    cases hrun
    have hw : s.writer = some t := h.locks t _ hmem rfl
    refine h.pop ht rfl ⟨rfl, rfl, rfl, rfl⟩ (fun t' hne => ⟨fun hw' => ?_, id⟩)
      (fun hw => absurd rfl hw) ⟨rfl, rfl, rfl, rfl, rfl, rfl⟩
      ⟨h.registry.generation, h.registry.released⟩
    rw [hw] at hw'
    exact absurd (Option.some.inj hw').symm (hne.resolve_right fun heq => by cases heq)

/-! ### Steps of the backend -/

/-- Which kinds of frames the backend moves. -/
theorem BackendMove.kind {e : BackendEvent} (h : BackendMove f e f') :
    f'.inFlight = f.inFlight ∧ f'.outer = f.outer ∧ f'.isRelease = f.isRelease ∧
      f'.holdsDrain = f.holdsDrain ∧ f'.observes = f.observes ∧ f.accepted = none := by
  cases h <;> exact ⟨rfl, rfl, rfl, rfl, rfl, rfl⟩

/-- Frames inside the backend stay there, until the drain ends. -/
theorem BackendMove.inBackend {e : BackendEvent} (h : BackendMove f e f') :
    (f.inBackend = true → e = .endDrain ∨ f'.inBackend = true) ∧
      (e = .beginDrain → f'.inBackend = true) := by
  cases h <;> simp [Frame.inBackend]

/-- An accepted offer is about to be counted. -/
theorem BackendMove.of_accept {i : ℕ} (h : BackendMove f (.accept i) f') :
    f'.accepted = some i ∧ f.inFlight = true := by
  cases h
  exact ⟨rfl, rfl⟩

/-- What the frame knows. -/
theorem BackendMove.frameOk {e : BackendEvent} (h : BackendMove f e f') (hf : s.FrameOk f)
    (hcalm : Calm s s') : s'.FrameOk f' := by
  cases h
  case accept | executed | refuse | offerInternal | offerRun | offerReturn | offerThrow => trivial
  all_goals exact hcalm.watched hf

/-- What is owed after a step of the backend. -/
theorem owe_eq_true {owed : ℕ → Bool} {e : BackendEvent} {i : ℕ} (h : owe owed e i = true) :
    e = .accept i ∨ owed i = true ∧ e ≠ .run i := by
  cases e with
  | accept j =>
    by_cases hij : i = j
    · exact Or.inl (by rw [hij])
    · rw [owe, Function.update_of_ne hij] at h
      exact Or.inr ⟨h, by simp⟩
  | run j =>
    rw [owe, Function.update_apply] at h
    split_ifs at h with hij
    exact Or.inr ⟨h, fun heq => hij (BackendEvent.run.inj heq).symm⟩
  | executed j | refuse j | internal | publish | beginDrain | endDrain =>
    exact Or.inr ⟨h, by simp⟩

/-- **A step of the backend.** -/
theorem Valid.backendStep (h : s.Valid B) (ht : s.threads t = f :: rest) {e : BackendEvent}
    {b : β} (hmove : BackendMove f e f') (hstep : B.step s.backend e b) :
    (RegisteredScheduler.goto { s with backend := b, owed := owe s.owed e } t f').Valid B := by
  obtain ⟨hin, hout, hrel, hdr, hob, hacc⟩ := hmove.kind
  have hmem : f ∈ s.threads t := ht ▸ List.mem_cons_self
  have hcalm : Calm s
      (RegisteredScheduler.goto { s with backend := b, owed := owe s.owed e } t f') := by
    refine ⟨le_rfl, fun _ i hi => ?_, fun _ => ⟨rfl, fun hzero => ⟨rfl, fun i hi => ?_⟩⟩⟩
    · rcases owe_eq_true hi with rfl | ⟨ho, -⟩
      · exact Or.inl ⟨t, f', mem_goto_self ht, hmove.of_accept.1⟩
      · exact Or.inr ⟨ho, Accepted.goto rfl ht hacc⟩
    · rcases owe_eq_true hi with rfl | ⟨ho, -⟩
      · have := h.inFlight_pos hmem hmove.of_accept.2
        omega
      · exact ho
  refine h.goto ht rfl (by rw [hin]) ⟨hout, hrel⟩ ⟨rfl, rfl⟩ (fun _ => Or.inl)
    (fun hd => h.drainers t f hmem (hdr ▸ hd)) (fun _ => Or.inl)
    (fun ho => h.observers t f hmem (hob ▸ ho)) (fun hd => ?_) (fun i hi => ?_) hcalm
    (hmove.frameOk (h.frames t f hmem) hcalm) ⟨h.registry.generation, h.registry.released⟩
  · rcases B.draining_step hstep hd with hd' | rfl
    · cases hb : f.inBackend
      · exact Or.inr ⟨hd', rfl⟩
      · rcases hmove.inBackend.1 hb with rfl | hin'
        · exact absurd hd (B.not_draining_end hstep)
        · exact Or.inl hin'
    · exact Or.inl (hmove.inBackend.2 rfl)
  · rcases owe_eq_true hi with rfl | ⟨ho, hne⟩
    · exact B.retains_accept hstep
    · exact B.retains_step hstep (h.retained i ho) hne

/-! ### Steps -/

/-- While nobody has the lifecycle lock, nobody has a call. -/
theorem Valid.threads_eq_nil_of_free (h : s.Valid B) (hlock : s.writer = none ∧ s.readers = ∅)
    (t : Fin n) : s.threads t = [] := by
  by_contra hsome
  obtain ⟨f, hf, ho⟩ := (h.nested t).exists_outer hsome
  have hl := h.locks t f hf ho
  rw [hlock.1, hlock.2] at hl
  split_ifs at hl
  exact absurd hl (Finset.notMem_empty t)

/-- A registration keeps generations. -/
theorem Valid.registerTask (h : s.Valid B) {task : MaintenanceTask}
    {result : Option MaintenanceHandle} (hlock : s.writer = none ∧ s.readers = ∅)
    (hrun : s.registerTask g task = some (result, g', s')) : s'.Valid B := by
  unfold RegisteredScheduler.registerTask at hrun
  split at hrun
  · cases hrun
  split at hrun
  · cases hrun
    exact h
  · split at hrun
    · cases hrun
      exact h
    · rename_i i hi
      split at hrun <;> cases hrun
      refine ⟨h.count, h.nested, h.locks, h.exclusive, h.drainers, h.draining, h.observers,
        h.retained, fun t' f hf => ?_, ⟨fun j hlt => ?_, h.registry.released⟩⟩
      · have hf : f ∈ s.threads t' := hf
        rw [h.threads_eq_nil_of_free hlock t'] at hf
        cases hf
      · simp only [Function.update_apply]
        split_ifs with hji
        · rw [hji]
          exact h.registry.generation i (hji ▸ hlt)
        · exact h.registry.generation j hlt

/-- **Every step keeps the invariant.** -/
theorem Valid.step (h : s.Valid B) (hstep : Step B t (g, s) (g', s')) : s'.Valid B := by
  cases hstep with
  | registerTask task result hactive hthread hlock hrun => exact h.registerTask hlock hrun
  | sealRegistry hactive hthread hlock hopen hstep =>
    have hempty := h.threads_eq_nil_of_free hlock
    refine ⟨h.count, h.nested, h.locks, h.exclusive, h.drainers, fun hd => ?_, h.observers,
      fun i hi => B.retains_step hstep (h.retained i hi) (by simp), fun t' f hf => ?_,
      ⟨h.registry.generation, h.registry.released⟩⟩
    · rcases B.draining_step hstep hd with hd | heq
      · exact h.draining hd
      · cases heq
    · have hf : f ∈ s.threads t' := hf
      rw [hempty t'] at hf
      cases hf
  | trySchedule handle hactive hthread hlock =>
    refine h.push rfl (by rw [hthread]; rfl) ⟨rfl, rfl, rfl⟩
      (fun _ => Finset.mem_insert_self t s.readers) (fun hw => absurd hlock hw)
      (fun t' => ⟨id, Finset.mem_insert_of_mem⟩) ⟨rfl, rfl, rfl, rfl, rfl, rfl⟩ (fun t' p hp => ?_)
      trivial ⟨h.registry.generation, h.registry.released⟩
    have hw : s.writer = some t' := h.locks t' _ hp rfl
    rw [hlock] at hw
    cases hw
  | nestedSchedule handle hactive hthread hcallback =>
    refine h.push rfl ?_ ⟨rfl, rfl, rfl⟩ (fun ho => (by cases ho)) h.exclusive
      (fun t' => ⟨id, id⟩) ⟨rfl, rfl, rfl, rfl, rfl, rfl⟩ (fun t' p hp => ?_) trivial h.registry
    · have hnested := h.nested t
      rw [hthread] at hnested ⊢
      exact ⟨rfl, hcallback, hnested⟩
    · rename_i f rest
      obtain ⟨rfl, ho⟩ := h.release_unique hp (hthread ▸ List.mem_cons_self : f ∈ s.threads t)
      have hnil : rest = [] := (hthread ▸ h.nested t : Stacked (f :: rest)).eq_nil ho
      rw [hthread, hnil, List.mem_singleton] at hp
      rw [← hp] at hcallback
      cases hcallback
  | drain hactive hthread hlock =>
    refine h.push rfl (by rw [hthread]; rfl) ⟨rfl, rfl, rfl⟩
      (fun _ => Finset.mem_insert_self t s.readers) (fun hw => absurd hlock hw)
      (fun t' => ⟨id, Finset.mem_insert_of_mem⟩) ⟨rfl, rfl, rfl, rfl, rfl, rfl⟩ (fun t' p hp => ?_)
      trivial ⟨h.registry.generation, h.registry.released⟩
    have hw : s.writer = some t' := h.locks t' _ hp rfl
    rw [hlock] at hw
    cases hw
  | tryRelease handle hactive hthread hlock =>
    refine h.push rfl (by rw [hthread]; rfl) ⟨rfl, rfl, rfl⟩ (fun _ => rfl) (fun _ => hlock.2)
      (fun t' => ⟨fun hw => ?_, id⟩) ⟨rfl, rfl, rfl, rfl, rfl, rfl⟩ (fun t' p hp => ?_)
      trivial ⟨h.registry.generation, h.registry.released⟩
    · rw [hlock.1] at hw
      cases hw
    · have hw : s.writer = some t' := h.locks t' _ hp rfl
      rw [hlock.1] at hw
      cases hw
  | advance hrun =>
    unfold RegisteredScheduler.advance at hrun
    split at hrun
    · cases hrun
    · exact h.advanceSchedule ‹_› hrun
    · exact h.advanceDrain ‹_› hrun
    · exact h.advanceRelease ‹_› hrun
  | backend hthread hmove htarget hstep => exact h.backendStep hthread hmove hstep

/-- A new scheduler. -/
theorem valid_make (ownerEpoch capacity : ℕ) :
    ({ ownerEpoch := ownerEpoch, capacity := capacity, backend := B.init } :
      RegisteredScheduler n β).Valid B where
  count := by simp
  nested := fun _ => trivial
  locks := fun _ _ hf => (by cases hf)
  exclusive := fun _ => rfl
  drainers := fun _ _ hf => (by cases hf)
  draining := fun hd => absurd hd B.not_draining_init
  observers := fun _ _ hf => (by cases hf)
  retained := fun _ hi => (by cases hi)
  frames := fun _ _ hf => (by cases hf)
  registry := ⟨fun _ _ => rfl, fun _ hmem => (by cases hmem)⟩

end RegisteredScheduler

end Tess
