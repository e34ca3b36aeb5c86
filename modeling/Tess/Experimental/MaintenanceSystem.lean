import Tess.Experimental.RegisteredRuns

/-!
# A process with registered schedulers

* `MaintenanceSystem.Valid` : **the invariant**: the schedulers are valid and have different owner
  epochs;
* `registered_maintenance` : **no interleaving loses an offer**: a release after sealing and an
  idle verdict come when nothing is left to run, and old or foreign handles name nothing;
* `generation_wraps` : after as many releases as there are generations, the first handle of a slot
  names it again.
-/

namespace Tess

namespace RegisteredScheduler

variable {n : ℕ} {β : Type} {B : RegisteredBackend β} {s s' : RegisteredScheduler n β} {t : Fin n}
  {g g' : MaintenanceGlobals n}

/-- The slot has an accepted offer that has not run, or that runs right now. -/
def Unexecuted (s : RegisteredScheduler n β) (i : ℕ) : Prop :=
  s.owed i = true ∨ ∃ t, ∃ f ∈ s.threads t, f.runs = some i

/-- A thread is between the begin and the end of an offer. -/
def MidOffer (s : RegisteredScheduler n β) : Prop := ∃ t, ∃ f ∈ s.threads t, f.inFlight = true

/-! ### What a step leaves alone -/

/-- **A step keeps the identity of the scheduler**; a slot is released by a permitted release. -/
theorem Step.keeps (h : Step B t (g, s) (g', s')) :
    s'.ownerEpoch = s.ownerEpoch ∧ g'.nextOwnerEpoch = g.nextOwnerEpoch ∧
      (s'.releases = s.releases ∨ ∃ handle rest,
        s.threads t = .release (.permitted handle) :: rest ∧
          s'.releases = Function.update s.releases handle.slot (s.releases handle.slot + 1)) := by
  cases h with
  | registerTask task result hactive hthread hlock hrun =>
    unfold RegisteredScheduler.registerTask at hrun
    split at hrun
    · cases hrun
    split at hrun
    · cases hrun
      exact ⟨rfl, rfl, Or.inl rfl⟩
    · split at hrun
      · cases hrun
        exact ⟨rfl, rfl, Or.inl rfl⟩
      · split at hrun <;> cases hrun
        exact ⟨rfl, rfl, Or.inl rfl⟩
  | sealRegistry | trySchedule | nestedSchedule | drain | tryRelease | backend =>
    exact ⟨rfl, rfl, Or.inl rfl⟩
  | advance hrun =>
    unfold RegisteredScheduler.advance at hrun
    split at hrun
    · cases hrun
    · rename_i outer phase rest ht
      cases phase <;> simp only [RegisteredScheduler.advanceSchedule] at hrun
      case locked =>
        split at hrun
        · cases hrun
          exact ⟨rfl, rfl, Or.inl rfl⟩
        · split_ifs at hrun
          cases hrun
          exact ⟨rfl, rfl, Or.inl rfl⟩
      case resolved | leaving => split_ifs at hrun; cases hrun; exact ⟨rfl, rfl, Or.inl rfl⟩
      case offered | left => split_ifs at hrun <;> cases hrun <;> exact ⟨rfl, rfl, Or.inl rfl⟩
      case counted => cases hrun; exact ⟨rfl, rfl, Or.inl rfl⟩
      all_goals cases hrun
    · rename_i phase rest ht
      cases phase <;> simp only [RegisteredScheduler.advanceDrain] at hrun
      case locked | sawPendingAfter => split_ifs at hrun; cases hrun; exact ⟨rfl, rfl, Or.inl rfl⟩
      case drained => split_ifs at hrun <;> cases hrun <;> exact ⟨rfl, rfl, Or.inl rfl⟩
      all_goals cases hrun
      all_goals exact ⟨rfl, rfl, Or.inl rfl⟩
    · rename_i phase rest ht
      cases phase <;> simp only [RegisteredScheduler.advanceRelease] at hrun
      case locked => split at hrun <;> cases hrun <;> exact ⟨rfl, rfl, Or.inl rfl⟩
      case permitted handle =>
        rw [Option.map_eq_some_iff] at hrun
        obtain ⟨⟨g₁, s₁⟩, hrelease, heq⟩ := hrun
        obtain ⟨rfl, rfl⟩ := Prod.mk.inj heq
        unfold releaseSlot at hrelease
        split at hrelease
        · cases hrelease
        · split_ifs at hrelease
          cases hrelease
          exact ⟨rfl, rfl, Or.inr ⟨handle, rest, ht, rfl⟩⟩
      all_goals cases hrun
      all_goals exact ⟨rfl, rfl, Or.inl rfl⟩

/-! ### One scheduler -/

/-- Frames that run a callback are in flight, or drains inside the backend. -/
theorem Frame.runs_kind {f : Frame} {i : ℕ} (h : f.runs = some i) :
    f.inFlight = true ∨ f.holdsDrain = true := by
  unfold Frame.runs at h
  split at h
  · exact Or.inl rfl
  · exact Or.inr rfl
  · cases h

/-- **A drain reports idle** when nothing is left to run and nobody offers. -/
theorem Valid.idle (h : s.Valid B) {rest : List Frame}
    (ht : s.threads t = .drain (.judged .idle) :: rest) :
    (∀ i, ¬ s.Unexecuted i) ∧ ¬ s.MidOffer := by
  obtain ⟨hcount, howed⟩ : s.inFlight = 0 ∧ ∀ i, s.owed i = false :=
    h.frames t (.drain (.judged .idle)) (ht ▸ List.mem_cons_self) rfl
  have hoffer : ¬ s.MidOffer := by
    rintro ⟨t', f, hf, hin⟩
    have := h.inFlight_pos hf hin
    omega
  refine ⟨fun i hi => ?_, hoffer⟩
  rcases hi with hi | ⟨t', f, hf, hruns⟩
  · rw [howed i] at hi
    cases hi
  · rcases Frame.runs_kind hruns with hin | hdr
    · exact hoffer ⟨t', f, hf, hin⟩
    · -- the drain that reports idle has the drain lock
      have hdrainer := h.drainers t _ (ht ▸ List.mem_cons_self) rfl
      rw [h.drainers t' f hf hdr] at hdrainer
      obtain rfl := Option.some.inj hdrainer
      have hnil : rest = [] := (ht ▸ h.nested t' : Stacked (_ :: rest)).eq_nil rfl
      rw [ht, hnil, List.mem_singleton] at hf
      rw [hf] at hruns
      cases hruns

/-- **A release after sealing** comes when nothing of any slot is left to run. -/
theorem Valid.permitted (h : s.Valid B) {handle : MaintenanceHandle} {rest : List Frame}
    (ht : s.threads t = .release (.permitted handle) :: rest) (hsealed : s.isSealed = true)
    (i : ℕ) : ¬ s.Unexecuted i := by
  have hok : s.ReleaseOk (.permitted handle) :=
    h.frames t (.release (.permitted handle)) (ht ▸ List.mem_cons_self)
  rintro (hi | ⟨t', f, hf, hruns⟩)
  · rw [hok.2 hsealed i] at hi
    cases hi
  · obtain ⟨rfl, -⟩ :=
      h.release_unique (ht ▸ List.mem_cons_self : .release (.permitted handle) ∈ s.threads t) hf
    have hnil : rest = [] := (ht ▸ h.nested t' : Stacked (_ :: rest)).eq_nil rfl
    rw [ht, hnil, List.mem_singleton] at hf
    rw [hf] at hruns
    cases hruns

/-- **A released handle names nothing**, until the generations of its slot wrap round. -/
theorem Valid.resolve_released (h : s.Valid B) {handle : MaintenanceHandle}
    (hmem : handle ∈ s.released) (hlt : s.releases handle.slot < 2 ^ 64 - 1) :
    s.resolve handle = none := by
  by_contra hsome
  obtain ⟨i, hi⟩ := Option.ne_none_iff_exists'.1 hsome
  obtain ⟨-, -, -, -, hgen⟩ := resolve_eq_some hi
  have hnow := h.registry.generation handle.slot hlt
  have hold := (h.registry.released handle hmem).2 hlt
  omega

end RegisteredScheduler

namespace MaintenanceSystem

variable {n : ℕ} {β : Type} {B : RegisteredBackend β} {sys sys' : MaintenanceSystem n β}

/-! ### Several schedulers -/

/-- **The invariant of a process.** -/
structure Valid (B : RegisteredBackend β) (sys : MaintenanceSystem n β) : Prop where
  /-- Its schedulers are valid. -/
  schedulers : ∀ s ∈ sys.schedulers, s.Valid B
  /-- The next epoch is new. -/
  fresh : ∀ s ∈ sys.schedulers, s.ownerEpoch < sys.globals.nextOwnerEpoch
  /-- It is one. -/
  next_lt : sys.globals.nextOwnerEpoch < 2 ^ 64
  /-- No two schedulers share an epoch. -/
  nodup : (sys.schedulers.map (·.ownerEpoch)).Nodup

/-- **Every step of the process keeps the invariant.** -/
theorem Valid.step (h : sys.Valid B) (hstep : Step B sys sys') : sys'.Valid B := by
  cases hstep with
  | make capacity epoch hclaim =>
    unfold MaintenanceGlobals.claimOwnerEpoch at hclaim
    simp only at hclaim
    split_ifs at hclaim with hfail
    cases hclaim
    push Not at hfail
    have hlt := h.next_lt
    have hmax : sys.globals.nextOwnerEpoch + 1 < 2 ^ 64 := by
      have : sys.globals.nextOwnerEpoch ≠ 2 ^ 64 - 1 := hfail.2
      omega
    have hnext : (sys.globals.nextOwnerEpoch + 1) % 2 ^ 64 = sys.globals.nextOwnerEpoch + 1 :=
      Nat.mod_eq_of_lt hmax
    refine ⟨fun s hs => ?_, fun s hs => ?_, ?_, ?_⟩
    · rcases List.mem_append.1 hs with hs | hs
      · exact h.schedulers s hs
      · rw [List.mem_singleton] at hs
        rw [hs]
        exact RegisteredScheduler.valid_make _ _
    · change s.ownerEpoch < (sys.globals.nextOwnerEpoch + 1) % 2 ^ 64
      rw [hnext]
      rcases List.mem_append.1 hs with hs | hs
      · exact (h.fresh s hs).trans (Nat.lt_succ_self _)
      · rw [List.mem_singleton] at hs
        rw [hs]
        exact Nat.lt_succ_self _
    · exact Nat.mod_lt _ (by norm_num)
    · rw [List.map_append, List.nodup_append]
      refine ⟨h.nodup, List.nodup_singleton _, ?_⟩
      rintro e he e' he' rfl
      obtain ⟨s, hs, rfl⟩ := List.mem_map.1 he
      have := h.fresh s hs
      simp only [List.map_cons, List.map_nil, List.mem_singleton] at he'
      omega
  | thread k t hk hstep =>
    rename_i g s s'
    obtain ⟨hepoch, hnext, -⟩ := hstep.keeps
    have hmem := List.mem_of_getElem? hk
    have hmap : (sys.schedulers.set k s').map (·.ownerEpoch) =
        sys.schedulers.map (·.ownerEpoch) := by
      refine List.ext_getElem? fun j => ?_
      rw [List.getElem?_map, List.getElem?_map, List.getElem?_set]
      split_ifs with hj hlt
      · rw [← hj, hk, Option.map_some, Option.map_some, hepoch]
      · exact absurd (List.getElem?_eq_some_iff.1 hk).1 (hj ▸ hlt)
      · rfl
    refine ⟨fun s₁ hs₁ => ?_, fun s₁ hs₁ => ?_, ?_, ?_⟩
    · rcases List.mem_or_eq_of_mem_set hs₁ with hs₁ | rfl
      · exact h.schedulers s₁ hs₁
      · exact (h.schedulers s hmem).step hstep
    · rw [hnext]
      rcases List.mem_or_eq_of_mem_set hs₁ with hs₁ | rfl
      · exact h.fresh s₁ hs₁
      · rw [hepoch]
        exact h.fresh s hmem
    · rw [hnext]
      exact h.next_lt
    · rw [hmap]
      exact h.nodup

/-- **Every reachable process keeps the invariant.** -/
theorem Reachable.valid (h : Reachable B sys) : sys.Valid B := by
  induction h with
  | init => exact ⟨fun _ hs => (by cases hs), fun _ hs => (by cases hs), by norm_num, List.nodup_nil⟩
  | step _ hstep ih => exact ih.step hstep

/-- A foreign handle names nothing. -/
theorem Valid.resolve_foreign (h : sys.Valid B) {k k' : ℕ} {s s' : RegisteredScheduler n β}
    {handle : MaintenanceHandle} (hk : sys.schedulers[k]? = some s)
    (hk' : sys.schedulers[k']? = some s') (hne : k ≠ k')
    (howner : handle.ownerEpoch = s.ownerEpoch) : s'.resolve handle = none := by
  by_contra hsome
  obtain ⟨i, hi⟩ := Option.ne_none_iff_exists'.1 hsome
  obtain ⟨-, howner', -⟩ := RegisteredScheduler.resolve_eq_some hi
  obtain ⟨hlt, rfl⟩ := List.getElem?_eq_some_iff.1 hk
  obtain ⟨hlt', rfl⟩ := List.getElem?_eq_some_iff.1 hk'
  have hlen : k < (sys.schedulers.map (·.ownerEpoch)).length := by simpa using hlt
  have hlen' : k' < (sys.schedulers.map (·.ownerEpoch)).length := by simpa using hlt'
  refine hne (h.nodup.getElem_inj_iff.1 (?_ : (sys.schedulers.map (·.ownerEpoch))[k] =
    (sys.schedulers.map (·.ownerEpoch))[k']))
  rw [List.getElem_map, List.getElem_map, ← howner, howner']

end MaintenanceSystem

/-- **No interleaving loses an offer**, and old or foreign handles name nothing. -/
theorem registered_maintenance {n : ℕ} {β : Type} {B : RegisteredBackend β}
    {sys : MaintenanceSystem n β} (h : sys.Reachable B) :
    (∀ sys', MaintenanceSystem.Step B sys sys' →
      ∀ (k : ℕ) (s s' : RegisteredScheduler n β), sys.schedulers[k]? = some s →
      sys'.schedulers[k]? = some s' → s.isSealed = true →
        ∀ i, s'.releases i ≠ s.releases i → ¬ s.Unexecuted i) ∧
    (∀ s ∈ sys.schedulers, ∀ t rest, s.threads t = .drain (.judged .idle) :: rest →
      (∀ i, ¬ s.Unexecuted i) ∧ ¬ s.MidOffer) ∧
    (∀ s ∈ sys.schedulers, ∀ handle ∈ s.released, s.releases handle.slot < 2 ^ 64 - 1 →
      s.resolve handle = none) ∧
    ∀ (k k' : ℕ) (s s' : RegisteredScheduler n β) (handle : MaintenanceHandle),
      sys.schedulers[k]? = some s → sys.schedulers[k']? = some s' → k ≠ k' →
      handle.ownerEpoch = s.ownerEpoch → s'.resolve handle = none := by
  have hvalid := h.valid
  refine ⟨fun sys' hstep k s s' hk hk' hsealed i hi => ?_,
    fun s hs t rest ht => (hvalid.schedulers s hs).idle ht,
    fun s hs handle hmem hlt => (hvalid.schedulers s hs).resolve_released hmem hlt,
    fun k k' s s' handle hk hk' hne howner => hvalid.resolve_foreign hk hk' hne howner⟩
  cases hstep with
  | make capacity epoch hclaim =>
    have hlt := (List.getElem?_eq_some_iff.1 hk).1
    rw [List.getElem?_append_left hlt, hk] at hk'
    cases hk'
    exact absurd rfl hi
  | thread k₁ t hk₁ hstep =>
    rename_i g s₁ s₁'
    by_cases heq : k₁ = k
    · subst heq
      rw [hk] at hk₁
      cases hk₁
      rw [List.getElem?_set_self (List.getElem?_eq_some_iff.1 hk).1] at hk'
      cases hk'
      obtain ⟨-, -, hsame | ⟨handle, rest, ht, -⟩⟩ := hstep.keeps
      · exact absurd (congrFun hsame i) hi
      · exact (hvalid.schedulers s (List.mem_of_getElem? hk)).permitted ht hsealed i
    · rw [List.getElem?_set_ne heq, hk] at hk'
      cases hk'
      exact absurd rfl hi

/-! ### Generations wrap round -/

/-- A backend that keeps the list of its pending slots. -/
def pendingSlots : RegisteredBackend (List ℕ) where
  init := []
  step := fun b e b' => b' =
    match e with
    | .accept i => i :: b
    | .run i => b.filter (· ≠ i)
    | _ => b
  hasPending := fun b => !b.isEmpty
  retains := fun b i => i ∈ b
  draining := fun _ => False
  retains_accept := by
    rintro b i b' rfl
    exact List.mem_cons_self
  retains_step := by
    rintro b e b' i rfl hmem hne
    cases e with
    | accept j => exact List.mem_cons_of_mem j hmem
    | run j =>
      refine List.mem_filter.2 ⟨hmem, ?_⟩
      simpa using fun heq : i = j => hne (by rw [heq])
    | executed j | refuse j | internal | publish | beginDrain | endDrain => exact hmem
  not_draining_init := id
  draining_step := fun _ h => h.elim
  not_draining_end := fun _ => id
  hasPending_of_retains := by
    rintro (_ | ⟨j, b⟩) i - hmem
    · cases hmem
    · rfl

/-- One scheduler with one slot, which was released some times during setup. -/
structure Released (k : ℕ) (sys : MaintenanceSystem 1 (List ℕ)) (s : RegisteredScheduler 1 (List ℕ)) :
    Prop where
  reachable : sys.Reachable pendingSlots
  schedulers : sys.schedulers = [s]
  active : sys.globals.active 0 = 0
  registrationEpoch : sys.globals.registrationEpoch 8#64 = 0
  ownerEpoch : s.ownerEpoch = 1
  capacity : s.capacity = 1
  slot : s.slots 0 = ⟨none, nextGeneration^[k] 1⟩
  isSealed : s.isSealed = false
  threads : s.threads 0 = []
  lock : s.writer = none ∧ s.readers = ∅
  releases : s.releases 0 = k
  released : 0 < k → ⟨1, 0, 1⟩ ∈ s.released

/-- A step of the only thread in the only scheduler. -/
theorem Released.thread {sys : MaintenanceSystem 1 (List ℕ)} {s s' : RegisteredScheduler 1 (List ℕ)}
    {g : MaintenanceGlobals 1} (h : sys.Reachable pendingSlots) (hs : sys.schedulers = [s])
    (hstep : RegisteredScheduler.Step pendingSlots 0 (sys.globals, s) (g, s')) :
    MaintenanceSystem.Reachable pendingSlots ⟨g, [s']⟩ := by
  have hset : sys.schedulers.set 0 s' = [s'] := by rw [hs]; rfl
  rw [← hset]
  exact h.step (.thread 0 0 (by rw [hs]; rfl) hstep)

theorem released_zero : ∃ sys s, Released 0 sys s := by
  have hstep : MaintenanceSystem.Step pendingSlots ({} : MaintenanceSystem 1 (List ℕ))
      ⟨{ nextOwnerEpoch := 2 }, [{ ownerEpoch := 1, capacity := 1, backend := [] }]⟩ :=
    .make 1 1 rfl
  exact ⟨_, _, MaintenanceSystem.Reachable.init.step hstep, rfl, rfl, rfl, rfl, rfl, rfl, rfl, rfl,
    ⟨rfl, rfl⟩, rfl, fun h => absurd h (lt_irrefl 0)⟩

/-- The task is registered. -/
theorem Released.register {k : ℕ} {sys : MaintenanceSystem 1 (List ℕ)}
    {s : RegisteredScheduler 1 (List ℕ)} (h : Released k sys s) :
    RegisteredScheduler.Step pendingSlots 0 (sys.globals, s)
      ({ sys.globals with
          registrationEpoch := Function.update sys.globals.registrationEpoch 8#64 1 },
        { s with slots := Function.update s.slots 0 ⟨some 8#64, nextGeneration^[k] 1⟩ }) := by
  refine .registerTask 8#64 (some (s.makeHandle 0)) h.active h.threads h.lock ?_
  simp [RegisteredScheduler.registerTask, h.isSealed, h.capacity, h.slot, h.registrationEpoch,
    h.ownerEpoch, List.range_succ]

/-- A registration and a release. -/
theorem Released.succ {k : ℕ} {sys : MaintenanceSystem 1 (List ℕ)}
    {s : RegisteredScheduler 1 (List ℕ)} (h : Released k sys s) :
    ∃ sys' s', Released (k + 1) sys' s' := by
  let handle : MaintenanceHandle := ⟨1, 0, nextGeneration^[k] 1⟩
  let g₁ : MaintenanceGlobals 1 := { sys.globals with
    registrationEpoch := Function.update sys.globals.registrationEpoch 8#64 1 }
  let s₁ : RegisteredScheduler 1 (List ℕ) := { s with
    slots := Function.update s.slots 0 ⟨some 8#64, nextGeneration^[k] 1⟩ }
  have h₁ := Released.thread h.reachable h.schedulers h.register
  let s₂ : RegisteredScheduler 1 (List ℕ) :=
    RegisteredScheduler.push { s₁ with writer := some 0 } 0 (.release (.locked handle))
  have h₂ : MaintenanceSystem.Reachable pendingSlots ⟨g₁, [s₂]⟩ :=
    Released.thread h₁ rfl (.tryRelease handle h.active h.threads h.lock)
  have hresolve : s₂.resolve handle = some 0 := by
    simp [RegisteredScheduler.resolve, s₂, s₁, handle, RegisteredScheduler.push, h.ownerEpoch,
      h.capacity]
  let s₃ : RegisteredScheduler 1 (List ℕ) := s₂.goto 0 (.release (.permitted handle))
  have h₃ : MaintenanceSystem.Reachable pendingSlots ⟨g₁, [s₃]⟩ :=
      Released.thread h₂ rfl <| .advance <| by
    have hthread : s₂.threads 0 = [.release (.locked handle)] := by
      simp [s₂, RegisteredScheduler.push, s₁, h.threads]
    have hopen : s₂.isSealed = false := h.isSealed
    simp [RegisteredScheduler.advance, hthread, RegisteredScheduler.advanceRelease, hresolve, hopen,
      s₃, g₁]
  let g₂ : MaintenanceGlobals 1 := { g₁ with
    registrationEpoch := Function.update g₁.registrationEpoch 8#64 0 }
  let s₄ : RegisteredScheduler 1 (List ℕ) := RegisteredScheduler.goto { s₃ with
    slots := Function.update s₃.slots 0 ⟨none, nextGeneration (nextGeneration^[k] 1)⟩
    released := handle :: s₃.released
    releases := Function.update s₃.releases 0 (s₃.releases 0 + 1) } 0 (.release .unlocking)
  have h₄ : MaintenanceSystem.Reachable pendingSlots ⟨g₂, [s₄]⟩ :=
      Released.thread h₃ rfl <| .advance <| by
    have hthread : s₃.threads 0 = [.release (.permitted handle)] := by
      simp [s₃, RegisteredScheduler.goto, s₂, RegisteredScheduler.push, s₁, h.threads]
    have hslot : s₃.slots 0 = ⟨some 8#64, nextGeneration^[k] 1⟩ := by
      simp [s₃, RegisteredScheduler.goto, s₂, RegisteredScheduler.push, s₁]
    have howner : s₃.ownerEpoch = 1 := h.ownerEpoch
    have hepoch : g₁.registrationEpoch 8#64 = 1 := by simp [g₁]
    simp [RegisteredScheduler.advance, hthread, RegisteredScheduler.advanceRelease,
      RegisteredScheduler.releaseSlot, hslot, howner, hepoch, handle, s₄, g₂]
  let s₅ : RegisteredScheduler 1 (List ℕ) := RegisteredScheduler.pop { s₄ with writer := none } 0
  have hthread : s₄.threads 0 = [.release .unlocking] := by
    simp [s₄, s₃, RegisteredScheduler.goto, s₂, RegisteredScheduler.push, s₁, h.threads]
  have h₅ : MaintenanceSystem.Reachable pendingSlots ⟨g₂, [s₅]⟩ :=
      Released.thread h₄ rfl <| .advance <| by
    simp [RegisteredScheduler.advance, hthread, RegisteredScheduler.advanceRelease, s₅]
  refine ⟨_, s₅, h₅, rfl, h.active, ?_, h.ownerEpoch, h.capacity, ?_, h.isSealed, ?_,
    ⟨rfl, h.lock.2⟩, ?_, fun _ => ?_⟩
  · simp [g₂]
  · rw [Function.iterate_succ_apply']
    change Function.update s₃.slots 0 ⟨none, nextGeneration (nextGeneration^[k] 1)⟩ 0 = _
    rw [Function.update_self]
  · simp [s₅, RegisteredScheduler.pop, hthread]
  · change Function.update s₃.releases 0 (s₃.releases 0 + 1) 0 = k + 1
    rw [Function.update_self, show s₃.releases 0 = k from h.releases]
  · rcases Nat.eq_zero_or_pos k with rfl | hk
    · exact List.mem_cons_self
    · exact List.mem_cons_of_mem handle (h.released hk)

theorem exists_released (k : ℕ) : ∃ sys s, Released k sys s := by
  induction k with
  | zero => exact released_zero
  | succ k ih =>
    obtain ⟨sys, s, h⟩ := ih
    exact h.succ

/-- The generations count up to the largest. -/
theorem nextGeneration_iterate {k : ℕ} (h : k + 1 < 2 ^ 64) : nextGeneration^[k] 1 = k + 1 := by
  induction k with
  | zero => rfl
  | succ k ih =>
    rw [Function.iterate_succ_apply', ih (by omega)]
    exact RegisteredScheduler.nextGeneration_eq (by omega)

/-- The largest generation is followed by the first. -/
theorem nextGeneration_wrap : nextGeneration^[2 ^ 64 - 1] 1 = 1 := by
  have hpred : nextGeneration^[2 ^ 64 - 2] 1 = 2 ^ 64 - 1 :=
    nextGeneration_iterate (k := 2 ^ 64 - 2) (by norm_num)
  rw [show (2 ^ 64 - 1 : ℕ) = (2 ^ 64 - 2) + 1 from rfl, Function.iterate_succ_apply', hpred]
  rfl

/-- **After as many releases as there are generations** the first handle of a slot names it
again. -/
theorem generation_wraps : ¬ ∀ sys : MaintenanceSystem 1 (List ℕ), sys.Reachable pendingSlots →
    ∀ s ∈ sys.schedulers, ∀ handle ∈ s.released, s.releases handle.slot < 2 ^ 64 →
      s.resolve handle = none := by
  intro hall
  obtain ⟨sys, s, h⟩ := exists_released (2 ^ 64 - 1)
  have hreach := Released.thread h.reachable h.schedulers h.register
  have hnone := hall _ hreach _ List.mem_cons_self ⟨1, 0, 1⟩ (h.released (by norm_num))
    (by
      change s.releases 0 < 2 ^ 64
      rw [h.releases]
      norm_num)
  have hgen := nextGeneration_wrap
  generalize nextGeneration^[2 ^ 64 - 1] 1 = generation at hnone hgen
  subst hgen
  simp [RegisteredScheduler.resolve, h.ownerEpoch, h.capacity] at hnone

/-- A handle that was released once. -/
theorem registered_maintenance_once : ∃ sys : MaintenanceSystem 1 (List ℕ),
    sys.Reachable pendingSlots ∧ ∃ s ∈ sys.schedulers, s.resolve ⟨1, 0, 1⟩ = none := by
  obtain ⟨sys, s, h⟩ := exists_released 1
  have hmem : s ∈ sys.schedulers := by
    rw [h.schedulers]
    exact List.mem_cons_self
  refine ⟨sys, h.reachable, s, hmem, ?_⟩
  refine (registered_maintenance h.reachable).2.2.1 s hmem ⟨1, 0, 1⟩ (h.released Nat.one_pos) ?_
  change s.releases 0 < 2 ^ 64 - 1
  rw [h.releases]
  norm_num

end Tess
