import Mathlib.Data.List.Count

/-!
# Logs of offers and runs

A scheduler accepts offers of jobs and starts runs of them.  The log of both lists the newest event
first; an accepted offer says whether the job was then waiting in a batch that a drain had already
taken.

* `Kept` : **no offer is lost**: after every accepted offer a run of the job started, or the job is
  pending;
* `OnlyOffered` : **no run without an offer**: between a run and the run before it there is an
  accepted offer, up to the runs that an offer allows;
* `offers`, `starts` : the jobs of both kinds of event, the oldest first.
-/

namespace Service

/-- What a log records. -/
inductive Event (K : Type*)
  /-- An offer of the job was accepted; the job was waiting in a taken batch, or not. -/
  | accepted (k : K) (waiting : Bool)
  /-- A run of the job started. -/
  | started (k : K)
  deriving DecidableEq, Repr

variable {K : Type*} {log : List (Event K)} {k k' : K} {w : Bool} {pending pending' : K → Prop}

/-- **No offer is lost.** -/
def Kept (log : List (Event K)) (pending : K → Prop) : Prop :=
  ∀ later k w earlier, log = later ++ .accepted k w :: earlier → .started k ∈ later ∨ pending k

namespace Kept

theorem nil : Kept ([] : List (Event K)) pending := by
  intro later k w earlier h
  simp at h

theorem mono (h : Kept log pending) (hp : ∀ k, pending k → pending' k) : Kept log pending' :=
  fun later k w earlier heq => (h later k w earlier heq).imp_right (hp k)

/-- After an accepted offer the job is pending. -/
theorem accept (h : Kept log pending) (w : Bool) (hp : ∀ k, pending k → pending' k)
    (hk : pending' k) : Kept (.accepted k w :: log) pending' := by
  intro later k' w' earlier heq
  cases later with
  | nil =>
    obtain ⟨rfl, -⟩ := Event.accepted.inj (List.cons.inj heq).1
    exact Or.inr hk
  | cons e later =>
    refine (h later k' w' earlier (List.cons.inj heq).2).imp ?_ (hp k')
    exact List.mem_cons_of_mem e

/-- A run that starts answers the offers of its job. -/
theorem start (h : Kept log pending) (hp : ∀ j, pending j → j = k ∨ pending' j) :
    Kept (.started k :: log) pending' := by
  intro later k' w' earlier heq
  cases later with
  | nil => cases (List.cons.inj heq).1
  | cons e later =>
    obtain ⟨rfl, hlog⟩ := List.cons.inj heq
    rcases h later k' w' earlier hlog with hmem | hpend
    · exact Or.inl (List.mem_cons_of_mem _ hmem)
    · rcases hp k' hpend with rfl | hpend
      · exact Or.inl List.mem_cons_self
      · exact Or.inr hpend

end Kept

section Fresh

variable [DecidableEq K] {allow : Bool → ℕ}

/-- An accepted offer of the job, with no more runs started since than it allows. -/
def Fresh (allow : Bool → ℕ) (log : List (Event K)) (k : K) : Prop :=
  ∃ mid w old, log = mid ++ .accepted k w :: old ∧ mid.count (.started k) ≤ allow w

/-- **No run without an offer.** -/
def OnlyOffered (allow : Bool → ℕ) (log : List (Event K)) : Prop :=
  ∀ later k earlier, log = later ++ .started k :: earlier → Fresh allow earlier k

theorem Fresh.accept_self (w : Bool) : Fresh allow (.accepted k w :: log) k :=
  ⟨[], w, log, rfl, Nat.zero_le _⟩

theorem Fresh.accept (h : Fresh allow log k) (k' : K) (w : Bool) :
    Fresh allow (.accepted k' w :: log) k := by
  obtain ⟨mid, w', old, rfl, hcount⟩ := h
  refine ⟨.accepted k' w :: mid, w', old, rfl, ?_⟩
  rwa [List.count_cons_of_ne (by simp)]

theorem Fresh.start (h : Fresh allow log k) (hne : k' ≠ k) :
    Fresh allow (.started k' :: log) k := by
  obtain ⟨mid, w, old, rfl, hcount⟩ := h
  refine ⟨.started k' :: mid, w, old, rfl, ?_⟩
  rwa [List.count_cons_of_ne (by simpa using hne)]

theorem OnlyOffered.nil : OnlyOffered allow ([] : List (Event K)) := by
  intro later k earlier h
  simp at h

theorem OnlyOffered.accept (h : OnlyOffered allow log) (k : K) (w : Bool) :
    OnlyOffered allow (.accepted k w :: log) := by
  intro later k' earlier heq
  cases later with
  | nil => cases (List.cons.inj heq).1
  | cons e later => exact h later k' earlier (List.cons.inj heq).2

theorem OnlyOffered.start (h : OnlyOffered allow log) (hk : Fresh allow log k) :
    OnlyOffered allow (.started k :: log) := by
  intro later k' earlier heq
  cases later with
  | nil =>
    obtain ⟨hev, rfl⟩ := List.cons.inj heq
    cases hev
    exact hk
  | cons e later => exact h later k' earlier (List.cons.inj heq).2

/-- The latest offer of the job found it waiting in a taken batch, and no run started since. -/
def Doubled (log : List (Event K)) (k : K) : Prop :=
  ∃ mid old, log = mid ++ .accepted k true :: old ∧ .started k ∉ mid

omit [DecidableEq K] in
theorem Doubled.accept_self : Doubled (.accepted k true :: log) k := ⟨[], log, rfl, by simp⟩

omit [DecidableEq K] in
theorem Doubled.accept (h : Doubled log k) (k' : K) (w : Bool) :
    Doubled (.accepted k' w :: log) k := by
  obtain ⟨mid, old, rfl, hno⟩ := h
  exact ⟨.accepted k' w :: mid, old, rfl, by simpa using hno⟩

omit [DecidableEq K] in
theorem Doubled.start (h : Doubled log k) (hne : k' ≠ k) : Doubled (.started k' :: log) k := by
  obtain ⟨mid, old, rfl, hno⟩ := h
  refine ⟨.started k' :: mid, old, rfl, ?_⟩
  simpa [Ne.symm hne] using hno

/-- Such an offer allows one run more. -/
theorem Doubled.fresh (h : Doubled log k) (hallow : 1 ≤ allow true) :
    Fresh allow (.started k :: log) k := by
  obtain ⟨mid, old, rfl, hno⟩ := h
  refine ⟨.started k :: mid, true, old, rfl, ?_⟩
  rw [List.count_cons_self, List.count_eq_zero_of_not_mem hno]
  exact hallow

end Fresh

/-- The accepted job of an event. -/
def Event.offer? : Event K → Option K
  | .accepted k _ => some k
  | .started _ => none

/-- The started job of an event. -/
def Event.start? : Event K → Option K
  | .accepted _ _ => none
  | .started k => some k

/-- Accepted jobs, the oldest offer first. -/
def offers (log : List (Event K)) : List K := (log.filterMap Event.offer?).reverse

/-- Started jobs, the oldest run first. -/
def starts (log : List (Event K)) : List K := (log.filterMap Event.start?).reverse

@[simp] theorem offers_nil : offers ([] : List (Event K)) = [] := rfl

@[simp] theorem starts_nil : starts ([] : List (Event K)) = [] := rfl

@[simp] theorem offers_accepted : offers (.accepted k w :: log) = offers log ++ [k] := by
  simp [offers, Event.offer?]

@[simp] theorem offers_started : offers (.started k :: log) = offers log := rfl

@[simp] theorem starts_accepted : starts (.accepted k w :: log) = starts log := rfl

@[simp] theorem starts_started : starts (.started k :: log) = starts log ++ [k] := by
  simp [starts, Event.start?]

end Service
