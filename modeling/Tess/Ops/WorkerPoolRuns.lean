import Tess.Lib.Threads
import Tess.Ops.WorkerPool

/-!
# Runs of the worker pool

The operations of a job are drawn in runs, and a worker owns what it has drawn and not finished.
No operation is owned twice, and what is owned or finished makes up all that was drawn.  A worker is
counted as active from the section in which it takes a job to the one in which it leaves, so that
the dispatcher ends a job that nobody holds.

* `WorkerPoint.todo`, `WorkerPoint.owned`, `WorkerPoint.unpublished` : what a worker has drawn;
* `Effect` : **what one step of a worker does**;
* `WorkerPool.Inv` : what holds in every state of a run;
* `worker_pool_runs` : **what every interleaving does**.
-/

namespace Tess

variable {E : Type*}

/-! ### What a worker holds -/

namespace WorkerPoint

/-- The operations it has still to invoke. -/
def todo : WorkerPoint E → Finset ℕ
  | .stepping _ run => Finset.Ico run.offset run.stop
  | .invoking _ run => Finset.Ico (run.offset + 1) run.stop
  | _ => ∅

/-- The operations it has still to finish. -/
def owned : WorkerPoint E → Finset ℕ
  | .stepping _ run => Finset.Ico run.offset run.stop
  | .invoking _ run => Finset.Ico run.offset run.stop
  | _ => ∅

/-- The operation it is in. -/
def current : WorkerPoint E → Option ℕ
  | .invoking _ run => some run.offset
  | _ => none

/-- How many operations it has finished and not counted. -/
def unpublished : WorkerPoint E → ℕ
  | .stepping _ run => run.finished
  | .invoking _ run => run.finished
  | .cancelling _ run _ => run.finished
  | .recording _ run _ => run.finished
  | .publishing _ run _ => run.finished
  | _ => 0

/-- The exception it has caught and not recorded. -/
def caught : WorkerPoint E → Option E
  | .cancelling _ _ e => some e
  | .recording _ _ e => some e
  | _ => none

/-- One for a worker that is counted as active. -/
def active : WorkerPoint E → ℕ
  | .waiting => 0
  | .exited => 0
  | _ => 1

end WorkerPoint

/-- A run within what was drawn of the job. -/
structure DrawnRun.Ok (s : PoolShared E) (run : DrawnRun) : Prop where
  /-- It has begun. -/
  start_le : run.start ≤ run.offset
  /-- It has not gone over its end. -/
  offset_le : run.offset ≤ run.stop
  /-- It was drawn. -/
  stop_drawn : run.stop ≤ s.nextOffset
  /-- It ends within the job. -/
  stop_le : run.stop ≤ s.job.count
  /-- It counts what it has done. -/
  finished_eq : run.finished = run.offset - run.start

/-- **A worker holds the current job**, and its run is in order. -/
def WorkerPoint.Ok (s : PoolShared E) : WorkerPoint E → Prop
  | .waiting => True
  | .claiming job => job = s.job
  | .drawing job => job = s.job
  | .stepping job run => job = s.job ∧ run.Ok s
  | .invoking job run => job = s.job ∧ run.Ok s ∧ run.offset < run.stop
  | .cancelling job run _ => job = s.job ∧ run.Ok s ∧ job.noThrow = false
  | .recording job run _ => job = s.job ∧ run.Ok s ∧ job.noThrow = false
  | .publishing job run cancelled =>
    job = s.job ∧ run.Ok s ∧ (cancelled = true → job.noThrow = false) ∧
      (cancelled = false → run.offset = run.stop)
  | .leaving => True
  | .exited => True

theorem DrawnRun.Ok.mono {s s' : PoolShared E} {run : DrawnRun} (h : run.Ok s)
    (hjob : s'.job = s.job) (hnext : s.nextOffset ≤ s'.nextOffset) : run.Ok s' :=
  ⟨h.start_le, h.offset_le, h.stop_drawn.trans hnext, hjob ▸ h.stop_le, h.finished_eq⟩

/-- Other workers do not disturb a run. -/
theorem WorkerPoint.Ok.mono {s s' : PoolShared E} {p : WorkerPoint E} (h : p.Ok s)
    (hjob : s'.job = s.job) (hnext : s.nextOffset ≤ s'.nextOffset) : p.Ok s' := by
  cases p with
  | waiting => trivial
  | claiming job => exact Eq.trans h hjob.symm
  | drawing job => exact Eq.trans h hjob.symm
  | stepping job run => exact ⟨h.1.trans hjob.symm, h.2.mono hjob hnext⟩
  | invoking job run => exact ⟨h.1.trans hjob.symm, h.2.1.mono hjob hnext, h.2.2⟩
  | cancelling job run e => exact ⟨h.1.trans hjob.symm, h.2.1.mono hjob hnext, h.2.2⟩
  | recording job run e => exact ⟨h.1.trans hjob.symm, h.2.1.mono hjob hnext, h.2.2⟩
  | publishing job run cancelled => exact ⟨h.1.trans hjob.symm, h.2.1.mono hjob hnext, h.2.2⟩
  | leaving => trivial
  | exited => trivial

/-- What is owned was drawn and belongs to the job. -/
theorem WorkerPoint.Ok.owned_lt {s : PoolShared E} {p : WorkerPoint E} (h : p.Ok s) {o : ℕ}
    (ho : o ∈ p.owned) : o < s.nextOffset ∧ o < s.job.count := by
  cases p with
  | stepping job run =>
    have hrun := h.2
    have := (Finset.mem_Ico.1 ho).2
    exact ⟨this.trans_le hrun.stop_drawn, this.trans_le hrun.stop_le⟩
  | invoking job run =>
    have hrun := h.2.1
    have := (Finset.mem_Ico.1 ho).2
    exact ⟨this.trans_le hrun.stop_drawn, this.trans_le hrun.stop_le⟩
  | _ => exact absurd ho (Finset.notMem_empty o)

theorem WorkerPoint.todo_subset_owned (p : WorkerPoint E) : p.todo ⊆ p.owned := by
  cases p with
  | invoking job run => exact Finset.Ico_subset_Ico_left (Nat.le_succ _)
  | stepping job run => exact Finset.Subset.refl _
  | _ => exact Finset.Subset.refl _

/-- A worker that holds nothing of a job. -/
theorem WorkerPoint.of_inactive {p : WorkerPoint E} (h : p.active = 0) :
    p.job = none ∧ p.owned = ∅ ∧ p.unpublished = 0 ∧ p.caught = none ∧ p.current = none ∧
      ∀ s, p.Ok s := by
  cases p with
  | waiting => exact ⟨rfl, rfl, rfl, rfl, rfl, fun _ => trivial⟩
  | exited => exact ⟨rfl, rfl, rfl, rfl, rfl, fun _ => trivial⟩
  | _ => cases h

/-! ### One step of a worker -/

/-- **What one step of a worker does.** -/
structure Effect (s : PoolShared E) (p : WorkerPoint E) (s' : PoolShared E) (q : WorkerPoint E)
    (events : List (PhaseEvent E)) : Prop where
  /-- The job stays. -/
  job : s'.job = s.job
  /-- It stays posted. -/
  jobActive : s'.jobActive = s.jobActive
  /-- The results keep their number. -/
  length : s'.results.length = s.results.length
  /-- Active workers are counted. -/
  active : s'.activeWorkers + p.active = s.activeWorkers + q.active
  /-- Only a posted job makes a worker active. -/
  posted : q.active = 1 → s.jobActive = true
  /-- Draws go on. -/
  next : s.nextOffset ≤ s'.nextOffset
  /-- The worker is in order. -/
  ok : q.Ok s'
  /-- What it owns it owned, or nobody did. -/
  owned : ∀ o ∈ q.owned, o ∈ p.owned ∨ s.nextOffset ≤ o
  /-- What it has to invoke it had to, or nobody had. -/
  todo : ∀ o ∈ q.todo, o ∈ p.todo ∨ s.nextOffset ≤ o
  /-- What is finished is counted once. -/
  finished : s'.finishedOperations + q.unpublished =
    s.finishedOperations + p.unpublished + (completedIn s.job.context events).length
  /-- Results of others stay. -/
  results : ∀ (o : ℕ) (r : PlannedExecutionResult), s.results[o]? = some r → o ∉ p.owned →
    s'.results[o]? = some r
  /-- At most one thing happens. -/
  single : events.length ≤ 1
  /-- It is work on the job. -/
  works : ∀ ev ∈ events, ev.Works s.job.context ∧ s.jobActive = true
  /-- An index that is invoked was to do and is not any more. -/
  invoked : ∀ i ∈ invokedIn s.job.context events,
    ∃ o ∈ p.todo, i = s.job.first + o ∧ o ∉ q.todo
  /-- An index that is completed was invoked, and its result is there. -/
  completed : ∀ c ∈ completedIn s.job.context events,
    ∃ o ∈ p.owned, c.1 = s.job.first + o ∧ o ∉ q.owned ∧ p.current = some o ∧
      s'.results[o]? = some c.2
  /-- The operation the worker is in was invoked. -/
  current : ∀ o, q.current = some o →
    p.current = some o ∨ s.job.first + o ∈ invokedIn s.job.context events
  /-- What is caught was thrown. -/
  caught : ∀ e, q.caught = some e → p.caught = some e ∨ e ∈ thrownIn s.job.context events
  /-- What is recorded was caught. -/
  exception : s'.exception = s.exception ∨ ∃ e, p.caught = some e ∧ s'.exception = some e
  /-- What was thrown is caught or recorded. -/
  seen : (p.caught.isSome = true ∨ s.exception.isSome = true ∨
      thrownIn s.job.context events ≠ []) →
    q.caught.isSome = true ∨ s'.exception.isSome = true

section WorkerSteps

variable {s s' : PoolShared E} {p q : WorkerPoint E} {w w' : PoolWorker E} {answer : PhaseAnswer E}
  {events : List (PhaseEvent E)}

/-- A step without an event. -/
theorem Effect.silent (hjob : s'.job = s.job) (hposted : s'.jobActive = s.jobActive)
    (hresults : s'.results = s.results)
    (hactive : s'.activeWorkers + p.active = s.activeWorkers + q.active)
    (hq : q.active = 1 → s.jobActive = true) (hnext : s.nextOffset ≤ s'.nextOffset)
    (hok : q.Ok s') (howned : ∀ o ∈ q.owned, o ∈ p.owned ∨ s.nextOffset ≤ o)
    (htodo : ∀ o ∈ q.todo, o ∈ p.todo ∨ s.nextOffset ≤ o)
    (hfinished : s'.finishedOperations + q.unpublished = s.finishedOperations + p.unpublished)
    (hcurrent : q.current = none) (hcaught : ∀ e, q.caught = some e → p.caught = some e)
    (hexception : s'.exception = s.exception ∨ ∃ e, p.caught = some e ∧ s'.exception = some e)
    (hseen : p.caught.isSome = true ∨ s.exception.isSome = true →
      q.caught.isSome = true ∨ s'.exception.isSome = true) : Effect s p s' q [] where
  job := hjob
  jobActive := hposted
  length := congrArg _ hresults
  active := hactive
  posted := hq
  next := hnext
  ok := hok
  owned := howned
  todo := htodo
  finished := hfinished
  results o r hr _ := hresults ▸ hr
  single := Nat.zero_le _
  works ev hev := absurd hev List.not_mem_nil
  invoked i hi := absurd hi List.not_mem_nil
  completed c hc := absurd hc List.not_mem_nil
  current o ho := by
    rw [hcurrent] at ho
    cases ho
  caught e he := .inl (hcaught e he)
  exception := hexception
  seen h := hseen (by
    rcases h with h | h | h
    · exact .inl h
    · exact .inr h
    · exact absurd rfl h)

theorem not_mem_none {P : Prop} {o : ℕ} (ho : o ∈ (∅ : Finset ℕ)) : P :=
  absurd ho (Finset.notMem_empty o)

theorem effect_stepping {job : PhaseJob} {run : DrawnRun}
    (hpoint : w.point = .stepping job run) (hok : w.point.Ok s) (hposted : s.jobActive = true)
    (hstep : workerStep s w answer = some (s', w', events)) :
    Effect s w.point s' w'.point events := by
  unfold workerStep at hstep
  rw [hpoint] at hstep hok ⊢
  obtain ⟨rfl, hrun⟩ := hok
  simp only at hstep
  split_ifs at hstep with hover hcancel
  · cases hstep
    have hend : run.offset = run.stop := le_antisymm hrun.offset_le hover
    exact .silent rfl rfl rfl rfl (fun _ => hposted) le_rfl
      ⟨rfl, hrun, fun h => (by cases h), fun _ => hend⟩ (fun o ho => not_mem_none ho)
      (fun o ho => not_mem_none ho) rfl rfl (fun e he => (by cases he)) (.inl rfl) id
  · cases hstep
    have hthrows : s.job.noThrow = false := by simpa using hcancel.1
    exact .silent rfl rfl rfl rfl (fun _ => hposted) le_rfl
      ⟨rfl, hrun, fun _ => hthrows, fun h => (by cases h)⟩ (fun o ho => not_mem_none ho)
      (fun o ho => not_mem_none ho) rfl rfl (fun e he => (by cases he)) (.inl rfl) id
  · cases hstep
    have hlt : run.offset < run.stop := not_le.1 hover
    have hinvoked : invokedIn s.job.context
        [(.invoked s.job.context (s.job.first + run.offset) : PhaseEvent E)] =
          [s.job.first + run.offset] := by
      simp [invokedIn]
    exact {
      job := rfl
      jobActive := rfl
      length := rfl
      active := rfl
      posted := fun _ => hposted
      next := le_rfl
      ok := ⟨rfl, hrun, hlt⟩
      owned := fun o ho => .inl ho
      todo := fun o ho => .inl (Finset.Ico_subset_Ico_left (Nat.le_succ _) ho)
      finished := rfl
      results := fun o r hr _ => hr
      single := le_rfl
      works := fun ev hev => ⟨by rw [List.mem_singleton.1 hev]; rfl, hposted⟩
      invoked := fun i hi => by
        rw [hinvoked] at hi
        refine ⟨run.offset, Finset.mem_Ico.2 ⟨le_rfl, hlt⟩, List.mem_singleton.1 hi, fun ho => ?_⟩
        exact absurd (Finset.mem_Ico.1 ho).1 (Nat.not_succ_le_self _)
      completed := fun c hc => absurd hc List.not_mem_nil
      current := fun o ho => .inr (by
        cases ho
        rw [hinvoked]
        exact List.mem_singleton.2 rfl)
      caught := fun e he => (by cases he)
      exception := .inl rfl
      seen := fun h => h.elim .inl fun h => h.elim .inr fun h => absurd rfl h }

theorem effect_invoking {job : PhaseJob} {run : DrawnRun}
    (hpoint : w.point = .invoking job run) (hok : w.point.Ok s) (hposted : s.jobActive = true)
    (hsized : s.job.count ≤ s.results.length)
    (hstep : workerStep s w answer = some (s', w', events)) :
    Effect s w.point s' w'.point events := by
  unfold workerStep at hstep
  rw [hpoint] at hstep hok ⊢
  obtain ⟨rfl, hrun, hlt⟩ := hok
  simp only at hstep
  cases answer with
  | value result =>
    cases hstep
    have hin : run.offset < s.results.length := by
      have := hrun.stop_le
      omega
    have hcompleted : completedIn s.job.context
        [(.completed s.job.context (s.job.first + run.offset) result : PhaseEvent E)] =
          [(s.job.first + run.offset, result)] := by
      simp [completedIn]
    exact {
      job := rfl
      jobActive := rfl
      length := List.length_set
      active := rfl
      posted := fun _ => hposted
      next := le_rfl
      ok := ⟨rfl, by
        have h1 := hrun.start_le
        have h2 := hrun.finished_eq
        exact ⟨by simp only; omega, hlt, hrun.stop_drawn, hrun.stop_le, by simp only; omega⟩⟩
      owned := fun o ho => .inl (Finset.Ico_subset_Ico_left (Nat.le_succ _) ho)
      todo := fun o ho => .inl ho
      finished := by
        rw [hcompleted]
        rfl
      results := fun o r hr ho => by
        have hne : run.offset ≠ o := by
          rintro rfl
          exact ho (Finset.mem_Ico.2 ⟨le_rfl, hlt⟩)
        rw [List.getElem?_set_ne hne]
        exact hr
      single := le_rfl
      works := fun ev hev => ⟨by rw [List.mem_singleton.1 hev]; rfl, hposted⟩
      invoked := fun i hi => absurd hi List.not_mem_nil
      completed := fun c hc => by
        rw [hcompleted] at hc
        rw [List.mem_singleton.1 hc]
        refine ⟨run.offset, Finset.mem_Ico.2 ⟨le_rfl, hlt⟩, rfl, fun ho => ?_, rfl,
          List.getElem?_set_self hin⟩
        exact absurd (Finset.mem_Ico.1 ho).1 (Nat.not_succ_le_self _)
      current := fun o ho => (by cases ho)
      caught := fun e he => (by cases he)
      exception := .inl rfl
      seen := fun h => h.elim .inl fun h => h.elim .inr fun h => absurd rfl h }
  | exception e =>
    simp only at hstep
    split_ifs at hstep with hthrows
    cases hstep
    have hthrown : thrownIn s.job.context
        [(.threw s.job.context (s.job.first + run.offset) e : PhaseEvent E)] = [e] := by
      simp [thrownIn]
    exact {
      job := rfl
      jobActive := rfl
      length := rfl
      active := rfl
      posted := fun _ => hposted
      next := le_rfl
      ok := ⟨rfl, hrun, by simpa using hthrows⟩
      owned := fun o ho => not_mem_none ho
      todo := fun o ho => not_mem_none ho
      finished := rfl
      results := fun o r hr _ => hr
      single := le_rfl
      works := fun ev hev => ⟨by rw [List.mem_singleton.1 hev]; rfl, hposted⟩
      invoked := fun i hi => absurd hi List.not_mem_nil
      completed := fun c hc => absurd hc List.not_mem_nil
      current := fun o ho => (by cases ho)
      caught := fun e' he => .inr (by
        cases he
        rw [hthrown]
        exact List.mem_singleton.2 rfl)
      exception := .inl rfl
      seen := fun _ => .inl rfl }

/-- **Every step of a worker**, by where it is. -/
theorem workerStep_effect (hok : w.point.Ok s) (hsized : s.job.count ≤ s.results.length)
    (hposted : w.point.active = 1 → s.jobActive = true) (hcounted : w.point.active ≤ s.activeWorkers)
    (hstep : workerStep s w answer = some (s', w', events)) :
    Effect s w.point s' w'.point events := by
  cases hpoint : w.point with
  | stepping job run =>
    rw [← hpoint]
    exact effect_stepping hpoint hok (hposted (by rw [hpoint]; rfl)) hstep
  | invoking job run =>
    rw [← hpoint]
    exact effect_invoking hpoint hok (hposted (by rw [hpoint]; rfl)) hsized hstep
  | waiting =>
    unfold workerStep at hstep
    rw [hpoint] at hstep
    simp only at hstep
    split_ifs at hstep with hstop hjoin
    · cases hstep
      exact .silent rfl rfl rfl rfl (fun h => (by cases h)) le_rfl trivial
        (fun o ho => not_mem_none ho) (fun o ho => not_mem_none ho) rfl rfl
        (fun e he => (by cases he)) (.inl rfl) id
    · cases hstep
      exact .silent rfl rfl rfl rfl (fun _ => hjoin.1) le_rfl rfl
        (fun o ho => not_mem_none ho) (fun o ho => not_mem_none ho) rfl rfl
        (fun e he => (by cases he)) (.inl rfl) id
  | claiming job =>
    rw [hpoint] at hok hposted
    unfold workerStep at hstep
    rw [hpoint] at hstep
    simp only at hstep
    split_ifs at hstep with hcancel
    · cases hstep
      exact .silent rfl rfl rfl rfl (fun _ => hposted rfl) le_rfl trivial
        (fun o ho => not_mem_none ho) (fun o ho => not_mem_none ho) rfl rfl
        (fun e he => (by cases he)) (.inl rfl) id
    · cases hstep
      exact .silent rfl rfl rfl rfl (fun _ => hposted rfl) le_rfl hok
        (fun o ho => not_mem_none ho) (fun o ho => not_mem_none ho) rfl rfl
        (fun e he => (by cases he)) (.inl rfl) id
  | drawing job =>
    rw [hpoint] at hok hposted
    unfold workerStep at hstep
    rw [hpoint] at hstep
    simp only at hstep
    split_ifs at hstep with hover
    · cases hstep
      exact .silent rfl rfl rfl rfl (fun _ => hposted rfl) (Nat.le_add_right _ _) trivial
        (fun o ho => not_mem_none ho) (fun o ho => not_mem_none ho) rfl rfl
        (fun e he => (by cases he)) (.inl rfl) id
    · cases hstep
      -- the run is what lies between the old counter and the new one
      have hlt : s.nextOffset < job.count := not_le.1 hover
      refine .silent rfl rfl rfl rfl (fun _ => hposted rfl) (Nat.le_add_right _ _)
        ⟨hok, ?_⟩ (fun o ho => .inr (Finset.mem_Ico.1 ho).1)
        (fun o ho => .inr (Finset.mem_Ico.1 ho).1) rfl rfl
        (fun e he => (by cases he)) (.inl rfl) id
      have hcount : job.count = s.job.count := congrArg PhaseJob.count hok
      exact ⟨le_rfl, by simp only; omega, min_le_left _ _, hcount ▸ min_le_right _ _,
        (Nat.sub_self _).symm⟩
  | cancelling job run e =>
    rw [hpoint] at hok hposted
    unfold workerStep at hstep
    rw [hpoint] at hstep
    cases hstep
    exact .silent rfl rfl rfl rfl (fun _ => hposted rfl) le_rfl
      ⟨hok.1, hok.2.1.mono rfl le_rfl, hok.2.2⟩ (fun o ho => not_mem_none ho)
      (fun o ho => not_mem_none ho) rfl rfl (fun e he => he) (.inl rfl) id
  | recording job run e =>
    rw [hpoint] at hok hposted
    unfold workerStep at hstep
    rw [hpoint] at hstep
    cases hstep
    refine .silent rfl rfl rfl rfl (fun _ => hposted rfl) le_rfl
      ⟨hok.1, hok.2.1.mono rfl le_rfl, fun _ => hok.2.2, fun h => (by cases h)⟩
      (fun o ho => not_mem_none ho) (fun o ho => not_mem_none ho) rfl rfl
      (fun e he => (by cases he)) ?_ fun _ => .inr ?_
    · simp only
      split_ifs with hnone
      · exact .inr ⟨e, rfl, rfl⟩
      · exact .inl rfl
    · cases s.exception <;> simp
  | publishing job run cancelled =>
    rw [hpoint] at hok hposted
    obtain ⟨hjob, hrun, hthrows, hend⟩ := hok
    -- what is added is what was finished
    have hadd : (if job.noThrow then run.stop - run.start else run.finished) = run.finished := by
      split_ifs with hno
      · have hfalse : cancelled = false := by
          cases cancelled with
          | false => rfl
          | true => rw [hthrows rfl] at hno; cases hno
        rw [hrun.finished_eq, hend hfalse]
      · rfl
    unfold workerStep at hstep
    rw [hpoint] at hstep
    simp only [hadd] at hstep
    cases hstep
    cases cancelled with
    | false =>
      exact .silent rfl rfl rfl rfl (fun _ => hposted rfl) le_rfl hjob
        (fun o ho => not_mem_none ho) (fun o ho => not_mem_none ho) rfl rfl
        (fun e he => (by cases he)) (.inl rfl) id
    | true =>
      exact .silent rfl rfl rfl rfl (fun _ => hposted rfl) le_rfl trivial
        (fun o ho => not_mem_none ho) (fun o ho => not_mem_none ho) rfl rfl
        (fun e he => (by cases he)) (.inl rfl) id
  | leaving =>
    rw [hpoint] at hcounted
    unfold workerStep at hstep
    rw [hpoint] at hstep
    cases hstep
    have hpos : 1 ≤ s.activeWorkers := hcounted
    exact .silent rfl rfl rfl (Nat.sub_add_cancel hpos) (fun h => (by cases h)) le_rfl trivial
      (fun o ho => not_mem_none ho) (fun o ho => not_mem_none ho) rfl rfl
      (fun e he => (by cases he)) (.inl rfl) id
  | exited =>
    unfold workerStep at hstep
    rw [hpoint] at hstep
    cases hstep

end WorkerSteps

/-! ### Events of a dispatch -/

section Traces

variable {d : ℕ} {tr tr' : List (PhaseEvent E)}

theorem invokedIn_append : invokedIn d (tr ++ tr') = invokedIn d tr ++ invokedIn d tr' :=
  List.filterMap_append

theorem completedIn_append : completedIn d (tr ++ tr') = completedIn d tr ++ completedIn d tr' :=
  List.filterMap_append

theorem thrownIn_append : thrownIn d (tr ++ tr') = thrownIn d tr ++ thrownIn d tr' :=
  List.filterMap_append

/-- Events that are not work of the dispatch say nothing of it. -/
theorem nothing_of_not_works (h : ∀ ev ∈ tr, ¬ ev.Works d) :
    invokedIn d tr = [] ∧ completedIn d tr = [] ∧ thrownIn d tr = [] := by
  refine ⟨List.filterMap_eq_nil_iff.2 fun ev hev => ?_, List.filterMap_eq_nil_iff.2 fun ev hev => ?_,
    List.filterMap_eq_nil_iff.2 fun ev hev => ?_⟩
  all_goals
    have hno := h ev hev
    cases ev with
    | invoked context i => first | rfl | exact if_neg hno
    | completed context i r => first | rfl | exact if_neg hno
    | threw context i e => first | rfl | exact if_neg hno
    | returned context call r => rfl
    | rethrown context call e => rfl

end Traces

/-- **What a dispatch has done** that is about to return or to throw. -/
def Finished (tr : List (PhaseEvent E)) (d : ℕ) (call : PhaseCall)
    (result : PlannedExecutionResult) : Option E → Prop
  | some e => e ∈ thrownIn d tr
  | none => thrownIn d tr = [] ∧
      (invokedIn d tr).Perm (List.range' call.first call.count) ∧
      ∃ value : ℕ → PlannedExecutionResult,
        (∀ o < call.count, (call.first + o, value o) ∈ completedIn d tr) ∧
        (completedIn d tr).length = call.count ∧
        result = firstFailure ((List.range call.count).map value)

namespace WorkerPool

/-- **What holds in every state** of a run. -/
structure Inv (s : WorkerPool E) (tr : List (PhaseEvent E)) : Prop where
  /-- Active workers are counted. -/
  counted : s.shared.activeWorkers = (s.workers.map fun w => w.point.active).sum
  /-- Only a posted job makes a worker active. -/
  posted : ∀ w ∈ s.workers, w.point.active = 1 → s.shared.jobActive = true
  /-- Workers are in order. -/
  ok : ∀ w ∈ s.workers, w.point.Ok s.shared
  /-- No operation is owned twice. -/
  separate : Threads.Separate (fun w => w.point.owned) s.workers
  /-- There is room for the results. -/
  sized : s.shared.job.count ≤ s.shared.results.length
  /-- What was invoked was drawn, and nobody has it to do. -/
  invoked : ∀ i ∈ invokedIn s.shared.job.context tr, ∃ o, i = s.shared.job.first + o ∧
    o < s.shared.nextOffset ∧ o < s.shared.job.count ∧ ∀ w ∈ s.workers, o ∉ w.point.todo
  /-- No index is completed twice. -/
  completed_nodup : ((completedIn s.shared.job.context tr).map Prod.fst).Nodup
  /-- What was completed was invoked, its result is there and nobody owns it. -/
  completed : ∀ c ∈ completedIn s.shared.job.context tr, ∃ o, c.1 = s.shared.job.first + o ∧
    o < s.shared.nextOffset ∧ o < s.shared.job.count ∧ (∀ w ∈ s.workers, o ∉ w.point.owned) ∧
      c.1 ∈ invokedIn s.shared.job.context tr ∧ s.shared.results[o]? = some c.2
  /-- What a worker is in was invoked. -/
  current : ∀ w ∈ s.workers, ∀ o, w.point.current = some o →
    s.shared.job.first + o ∈ invokedIn s.shared.job.context tr
  /-- What was completed is counted, or a worker will count it. -/
  finished : (completedIn s.shared.job.context tr).length =
    s.shared.finishedOperations + (s.workers.map fun w => w.point.unpublished).sum
  /-- What is caught was thrown. -/
  caught : ∀ w ∈ s.workers, ∀ e, w.point.caught = some e → e ∈ thrownIn s.shared.job.context tr
  /-- What is recorded was thrown. -/
  exception : ∀ e, s.shared.exception = some e → e ∈ thrownIn s.shared.job.context tr
  /-- What was thrown is recorded, or a worker will record one. -/
  seen : thrownIn s.shared.job.context tr ≠ [] →
    s.shared.exception.isSome = true ∨ ∃ w ∈ s.workers, w.point.caught.isSome = true
  /-- The number of the job is not ahead of the calls. -/
  context_le : s.shared.job.context ≤ s.dispatches
  /-- Nor is that of any event. -/
  fresh : ∀ d, s.dispatches < d → ∀ ev ∈ tr, ¬ ev.Works d ∧ ¬ ev.Ends d
  /-- The dispatcher waits for the posted job. -/
  awaiting : ∀ d call, s.dispatcher = .awaiting d call → s.shared.jobActive = true ∧
    s.shared.job.context = d ∧ s.shared.job.first = call.first ∧ s.shared.job.count = call.count
  /-- Only then is a job posted. -/
  quiet : (∀ d call, s.dispatcher ≠ .awaiting d call) → s.shared.jobActive = false
  /-- A dispatch that is about to return has done its work. -/
  returning : ∀ d call result exception, s.dispatcher = .returning d call result exception →
    Finished tr d call result exception ∧ d ≤ s.dispatches
  /-- The posted job has not ended. -/
  unended : s.shared.jobActive = true → ∀ ev ∈ tr, ¬ ev.Ends s.shared.job.context
  /-- So it is for every dispatch that returned. -/
  returned : ∀ d call result, .returned d call result ∈ tr → Finished tr d call result none
  /-- And for every one that threw. -/
  rethrown : ∀ d call e, .rethrown d call e ∈ tr →
    Finished tr d call noFailure (some e)
  /-- No dispatch works after its end. -/
  ordered : tr.Pairwise fun later earlier => ∀ d, earlier.Ends d → ¬ later.Works d
  /-- No index is invoked twice in any dispatch. -/
  nodup : ∀ d, (invokedIn d tr).Nodup

end WorkerPool

section Traces

variable {d d' : ℕ} {tr events : List (PhaseEvent E)} {ev : PhaseEvent E}

theorem PhaseEvent.Works.eq (h : ev.Works d) (h' : ev.Works d') : d = d' := by
  cases ev with
  | invoked context i => exact Eq.trans (Eq.symm h) h'
  | completed context i r => exact Eq.trans (Eq.symm h) h'
  | threw context i e => exact Eq.trans (Eq.symm h) h'
  | returned context call r => exact absurd h id
  | rethrown context call e => exact absurd h id

theorem PhaseEvent.Works.not_ends (h : ev.Works d) : ¬ ev.Ends d' := by
  intro hend
  cases ev with
  | returned context call r => exact h
  | rethrown context call e => exact h
  | _ => exact hend

/-- **Later events of other dispatches** change nothing of one that is over. -/
theorem Finished.mono {call : PhaseCall} {result : PlannedExecutionResult} {exception : Option E}
    (h : Finished tr d call result exception) (hno : ∀ ev ∈ events, ¬ ev.Works d) :
    Finished (events ++ tr) d call result exception := by
  obtain ⟨h1, h2, h3⟩ := nothing_of_not_works hno
  cases exception with
  | none =>
    obtain ⟨hthrown, hinvoked, value, hvalue⟩ := h
    refine ⟨?_, ?_, value, ?_⟩
    · rw [thrownIn_append, h3, hthrown, List.nil_append]
    · rw [invokedIn_append, h1, List.nil_append]
      exact hinvoked
    · rw [completedIn_append, h2, List.nil_append]
      exact hvalue
  | some e =>
    show e ∈ thrownIn d (events ++ tr)
    rw [thrownIn_append, h3, List.nil_append]
    exact h

end Traces

namespace WorkerPool

variable {s : WorkerPool E} {tr events : List (PhaseEvent E)} {i : ℕ} {w w' : PoolWorker E}
  {shared : PoolShared E}

/-! ### Steps of workers -/

/-- Nothing that another worker owns, and nothing that was drawn before, becomes owned. -/
theorem Inv.not_drawn (h : Inv s tr) {o : ℕ} (ho : s.shared.nextOffset ≤ o) :
    ∀ t ∈ s.workers, o ∉ t.point.owned :=
  fun t ht hot => absurd ((h.ok t ht).owned_lt hot).1 (not_lt.2 ho)

/-- What a worker has to invoke was not invoked before. -/
theorem Inv.invoked_worker (h : Inv s tr) (hi : s.workers[i]? = some w)
    (heff : Effect s.shared w.point shared w'.point events) :
    (invokedIn s.shared.job.context (events ++ tr)).Nodup ∧
      ∀ k ∈ invokedIn s.shared.job.context (events ++ tr), ∃ o, k = s.shared.job.first + o ∧
        o < shared.nextOffset ∧ o < s.shared.job.count ∧
          ∀ t ∈ s.workers.set i w', o ∉ t.point.todo := by
  have hw := List.mem_of_getElem? hi
  rw [invokedIn_append]
  constructor
  · have hlen : (invokedIn s.shared.job.context events).length ≤ 1 :=
      (List.length_filterMap_le _ _).trans heff.single
    have hone : (invokedIn s.shared.job.context events).Nodup := by
      rcases hev : invokedIn s.shared.job.context events with - | ⟨k, - | ⟨k', rest⟩⟩
      · exact List.nodup_nil
      · exact List.nodup_singleton k
      · rw [hev] at hlen
        simp at hlen
    refine List.Nodup.append hone (h.nodup _) fun k hk hk' => ?_
    obtain ⟨o, ho, rfl, -⟩ := heff.invoked k hk
    obtain ⟨o', heq, -, -, hnot⟩ := h.invoked _ hk'
    obtain rfl : o = o' := by omega
    exact hnot w hw ho
  · intro k hk
    rcases List.mem_append.1 hk with hk | hk
    · obtain ⟨o, ho, rfl, hdone⟩ := heff.invoked k hk
      have howned := w.point.todo_subset_owned ho
      obtain ⟨hnext, hcount⟩ := (h.ok w hw).owned_lt howned
      refine ⟨o, rfl, hnext.trans_le heff.next, hcount, fun t ht hot => ?_⟩
      rcases h.separate.mem_set hi ht with rfl | ⟨-, hdisj⟩
      · exact hdone hot
      · exact Finset.disjoint_left.1 hdisj howned (t.point.todo_subset_owned hot)
    · obtain ⟨o, rfl, hnext, hcount, hnot⟩ := h.invoked k hk
      refine ⟨o, rfl, hnext.trans_le heff.next, hcount, fun t ht hot => ?_⟩
      rcases List.mem_or_eq_of_mem_set ht with ht | rfl
      · exact hnot t ht hot
      · rcases heff.todo o hot with hold | hle
        · exact hnot w hw hold
        · omega

/-- What a worker completes was not completed before. -/
theorem Inv.completed_worker (h : Inv s tr) (hi : s.workers[i]? = some w)
    (heff : Effect s.shared w.point shared w'.point events) :
    ((completedIn s.shared.job.context (events ++ tr)).map Prod.fst).Nodup ∧
      ∀ c ∈ completedIn s.shared.job.context (events ++ tr), ∃ o, c.1 = s.shared.job.first + o ∧
        o < shared.nextOffset ∧ o < s.shared.job.count ∧
          (∀ t ∈ s.workers.set i w', o ∉ t.point.owned) ∧
          c.1 ∈ invokedIn s.shared.job.context (events ++ tr) ∧
            shared.results[o]? = some c.2 := by
  have hw := List.mem_of_getElem? hi
  rw [completedIn_append, List.map_append, invokedIn_append]
  constructor
  · have hlen : (completedIn s.shared.job.context events).length ≤ 1 :=
      (List.length_filterMap_le _ _).trans heff.single
    have hone : ((completedIn s.shared.job.context events).map Prod.fst).Nodup := by
      rcases hev : completedIn s.shared.job.context events with - | ⟨c, - | ⟨c', rest⟩⟩
      · exact List.nodup_nil
      · exact List.nodup_singleton c.1
      · rw [hev] at hlen
        simp at hlen
    refine List.Nodup.append hone h.completed_nodup fun k hk hk' => ?_
    obtain ⟨c, hc, rfl⟩ := List.mem_map.1 hk
    obtain ⟨c', hc', heq⟩ := List.mem_map.1 hk'
    obtain ⟨o, ho, h1, -⟩ := heff.completed c hc
    obtain ⟨o', h2, -, -, hnot, -⟩ := h.completed c' hc'
    obtain rfl : o = o' := by omega
    exact hnot w hw ho
  · intro c hc
    rcases List.mem_append.1 hc with hc | hc
    · obtain ⟨o, ho, h1, hdone, hcurrent, hresult⟩ := heff.completed c hc
      obtain ⟨hnext, hcount⟩ := (h.ok w hw).owned_lt ho
      refine ⟨o, h1, hnext.trans_le heff.next, hcount, fun t ht hot => ?_,
        List.mem_append_right _ (h1 ▸ h.current w hw o hcurrent), hresult⟩
      rcases h.separate.mem_set hi ht with rfl | ⟨-, hdisj⟩
      · exact hdone hot
      · exact Finset.disjoint_left.1 hdisj ho hot
    · obtain ⟨o, h1, hnext, hcount, hnot, hin, hresult⟩ := h.completed c hc
      refine ⟨o, h1, hnext.trans_le heff.next, hcount, fun t ht hot => ?_,
        List.mem_append_right _ hin, heff.results o _ hresult (hnot w hw)⟩
      rcases List.mem_or_eq_of_mem_set ht with ht | rfl
      · exact hnot t ht hot
      · rcases heff.owned o hot with hold | hle
        · exact hnot w hw hold
        · omega

/-- Exceptions that were thrown are on their way to the dispatcher. -/
theorem Inv.seen_worker (h : Inv s tr) (hi : s.workers[i]? = some w)
    (heff : Effect s.shared w.point shared w'.point events)
    (hthrown : thrownIn s.shared.job.context (events ++ tr) ≠ []) :
    shared.exception.isSome = true ∨
      ∃ t ∈ s.workers.set i w', t.point.caught.isSome = true := by
  have hmem : w' ∈ s.workers.set i w' := Threads.mem_set_self hi
  have hseen : w.point.caught.isSome = true ∨ s.shared.exception.isSome = true ∨
      thrownIn s.shared.job.context events ≠ [] →
      shared.exception.isSome = true ∨ ∃ t ∈ s.workers.set i w', t.point.caught.isSome = true := by
    intro hcase
    rcases heff.seen hcase with hq | hexc
    · exact .inr ⟨w', hmem, hq⟩
    · exact .inl hexc
  by_cases hnew : thrownIn s.shared.job.context events = []
  · rw [thrownIn_append, hnew, List.nil_append] at hthrown
    rcases h.seen hthrown with hexc | ⟨t, ht, hcaught⟩
    · exact hseen (.inr (.inl hexc))
    · rcases Threads.mem_set_of_mem hi ht with hset | rfl
      · exact .inr ⟨t, hset, hcaught⟩
      · exact hseen (.inl hcaught)
  · exact hseen (.inr (.inr hnew))

/-- **A step of a worker.** -/
theorem Inv.worker (h : Inv s tr) (hi : s.workers[i]? = some w)
    (heff : Effect s.shared w.point shared w'.point events) :
    Inv { s with shared := shared, workers := s.workers.set i w' } (events ++ tr) := by
  have hw := List.mem_of_getElem? hi
  obtain ⟨hinvoked_nodup, hinvoked⟩ := h.invoked_worker hi heff
  obtain ⟨hcompleted_nodup, hcompleted⟩ := h.completed_worker hi heff
  -- a dispatch other than the posted one has no work here
  have hother : ∀ d, (s.shared.jobActive = true → d ≠ s.shared.job.context) →
      ∀ ev ∈ events, ¬ ev.Works d := by
    intro d hd ev hev hworks
    obtain ⟨hctx, hactive⟩ := heff.works ev hev
    exact hd hactive (hworks.eq hctx)
  exact {
    counted := by
      have hsum := Threads.sum_set (b := w') (fun w : PoolWorker E => w.point.active) hi
      have hcounted := h.counted
      have hactive := heff.active
      show shared.activeWorkers = ((s.workers.set i w').map _).sum
      omega
    posted := Threads.forall_set (fun t ht ha => heff.jobActive.trans (h.posted t ht ha))
      fun ha => heff.jobActive.trans (heff.posted ha)
    ok := Threads.forall_set (fun t ht => (h.ok t ht).mono heff.job heff.next) heff.ok
    separate := h.separate.set hi fun o ho => (heff.owned o ho).imp id h.not_drawn
    sized := by
      show shared.job.count ≤ shared.results.length
      rw [heff.job, heff.length]
      exact h.sized
    invoked := by
      show ∀ k ∈ invokedIn shared.job.context _, _
      rw [heff.job]
      exact hinvoked
    completed_nodup := by
      show ((completedIn shared.job.context _).map Prod.fst).Nodup
      rw [heff.job]
      exact hcompleted_nodup
    completed := by
      show ∀ c ∈ completedIn shared.job.context _, _
      rw [heff.job]
      exact hcompleted
    current := by
      show ∀ t ∈ s.workers.set i w', ∀ o, _ → shared.job.first + o ∈ invokedIn shared.job.context _
      rw [heff.job, invokedIn_append]
      refine Threads.forall_set (fun t ht o ho => List.mem_append_right _ (h.current t ht o ho))
        fun o ho => ?_
      rcases heff.current o ho with hold | hnew
      · exact List.mem_append_right _ (h.current w hw o hold)
      · exact List.mem_append_left _ hnew
    finished := by
      have hsum := Threads.sum_set (b := w') (fun w : PoolWorker E => w.point.unpublished) hi
      have hfinished := h.finished
      have hstep := heff.finished
      show (completedIn shared.job.context (events ++ tr)).length =
        shared.finishedOperations + ((s.workers.set i w').map _).sum
      rw [heff.job, completedIn_append, List.length_append]
      omega
    caught := by
      show ∀ t ∈ s.workers.set i w', ∀ e, _ → e ∈ thrownIn shared.job.context _
      rw [heff.job, thrownIn_append]
      refine Threads.forall_set (fun t ht e he => List.mem_append_right _ (h.caught t ht e he))
        fun e he => ?_
      rcases heff.caught e he with hold | hnew
      · exact List.mem_append_right _ (h.caught w hw e hold)
      · exact List.mem_append_left _ hnew
    exception := by
      show ∀ e, shared.exception = some e → e ∈ thrownIn shared.job.context _
      rw [heff.job, thrownIn_append]
      intro e he
      rcases heff.exception with hsame | ⟨e', hcaught, hset⟩
      · exact List.mem_append_right _ (h.exception e (hsame ▸ he))
      · obtain rfl : e' = e := Option.some.inj (hset.symm.trans he)
        exact List.mem_append_right _ (h.caught w hw e' hcaught)
    seen := by
      show thrownIn shared.job.context _ ≠ [] → _
      rw [heff.job]
      exact h.seen_worker hi heff
    context_le := by
      show shared.job.context ≤ _
      rw [heff.job]
      exact h.context_le
    fresh := fun d hd ev hev => by
      rcases List.mem_append.1 hev with hev | hev
      · have hle := h.context_le
        have hlt : s.dispatches < d := hd
        exact ⟨hother d (fun _ => by omega) ev hev, (heff.works ev hev).1.not_ends⟩
      · exact h.fresh d hd ev hev
    awaiting := fun d call hd => by
      show shared.jobActive = true ∧ shared.job.context = d ∧ shared.job.first = call.first ∧
        shared.job.count = call.count
      rw [heff.jobActive, heff.job]
      exact h.awaiting d call hd
    quiet := fun hd => heff.jobActive.trans (h.quiet hd)
    returning := fun d call result exception hd => by
      obtain ⟨hfin, hle⟩ := h.returning d call result exception hd
      refine ⟨hfin.mono (hother d fun hactive => ?_), hle⟩
      have hquiet := h.quiet fun d' call' hd' => by
        have heq : s.dispatcher = .returning d call result exception := hd
        rw [heq] at hd'
        cases hd'
      rw [hquiet] at hactive
      cases hactive
    unended := by
      show shared.jobActive = true → ∀ ev ∈ events ++ tr, ¬ ev.Ends shared.job.context
      rw [heff.jobActive, heff.job]
      intro hactive ev hev
      rcases List.mem_append.1 hev with hev | hev
      · exact (heff.works ev hev).1.not_ends
      · exact h.unended hactive ev hev
    returned := fun d call result hend => by
      rcases List.mem_append.1 hend with hend | hend
      · exact False.elim (heff.works _ hend).1
      · refine (h.returned d call result hend).mono (hother d fun hactive => ?_)
        rintro rfl
        exact h.unended hactive _ hend rfl
    rethrown := fun d call e hend => by
      rcases List.mem_append.1 hend with hend | hend
      · exact False.elim (heff.works _ hend).1
      · refine (h.rethrown d call e hend).mono (hother d fun hactive => ?_)
        rintro rfl
        exact h.unended hactive _ hend rfl
    ordered := by
      refine List.pairwise_append.2 ⟨?_, h.ordered, fun ev hev ev' hev' d hend hworks => ?_⟩
      · refine List.Pairwise.imp_of_mem (R := fun _ _ => True) (fun _ hev _ d hend => ?_)
          (List.pairwise_of_forall fun _ _ => trivial)
        exact absurd hend (heff.works _ hev).1.not_ends
      · obtain ⟨hctx, hactive⟩ := heff.works ev hev
        obtain rfl := hworks.eq hctx
        exact h.unended hactive ev' hev' hend
    nodup := fun d => by
      by_cases hd : d = s.shared.job.context
      · rw [hd]
        exact hinvoked_nodup
      · rw [invokedIn_append, (nothing_of_not_works (hother d fun _ => hd)).1, List.nil_append]
        exact h.nodup d }

/-! ### Steps of the dispatcher -/

theorem Inv.inactive (h : Inv s tr) (hposted : s.shared.jobActive = false) (hw : w ∈ s.workers) :
    w.point.active = 0 := by
  have hne : w.point.active ≠ 1 := by
    intro hone
    rw [h.posted w hw hone] at hposted
    cases hposted
  cases hpoint : w.point with
  | waiting => rfl
  | exited => rfl
  | _ => exact absurd (by rw [hpoint]; rfl) hne

theorem Inv.quiet_of_idle (h : Inv s tr) (hidle : s.dispatcher = .idle) :
    s.shared.jobActive = false :=
  h.quiet fun d call hd => by
    rw [hidle] at hd
    cases hd

/-- Workers that are not active have nothing to count. -/
theorem sum_unpublished {ws : List (PoolWorker E)} (hnone : ∀ w ∈ ws, w.point.active = 0) :
    (ws.map fun w => w.point.unpublished).sum = 0 := by
  refine List.sum_eq_zero_iff_forall_eq_nat.2 fun n hn => ?_
  obtain ⟨w, hw, rfl⟩ := List.mem_map.1 hn
  exact (WorkerPoint.of_inactive (hnone w hw)).2.2.1

/-- More room keeps the results. -/
theorem getElem?_grow (shared : PoolShared E) (count : ℕ) {o : ℕ} {r : PlannedExecutionResult}
    (hr : shared.results[o]? = some r) : (shared.grow count)[o]? = some r := by
  unfold PoolShared.grow
  split_ifs
  · rw [List.getElem?_append_left (List.getElem?_eq_some_iff.1 hr).1]
    exact hr
  · exact hr

theorem le_length_grow (shared : PoolShared E) (count : ℕ) :
    count ≤ (shared.grow count).length ∧ shared.results.length ≤ (shared.grow count).length := by
  unfold PoolShared.grow
  split_ifs with hlt
  · rw [List.length_append, List.length_replicate]
    omega
  · omega

/-- **Room is reserved** between dispatches. -/
theorem Inv.reserve (h : Inv s tr) (count : ℕ) :
    Inv { s with shared := { s.shared with results := s.shared.grow count } } tr :=
  { h with
    ok := fun w hw => (h.ok w hw).mono rfl le_rfl
    sized := h.sized.trans (le_length_grow s.shared count).2
    completed := fun c hc => by
      obtain ⟨o, h1, h2, h3, h4, h5, h6⟩ := h.completed c hc
      exact ⟨o, h1, h2, h3, h4, h5, getElem?_grow s.shared count h6⟩ }

/-- A call of no operations is over at once. -/
theorem Inv.dispatch_none (h : Inv s tr) {call : PhaseCall} (hidle : s.dispatcher = .idle)
    (hzero : call.count = 0) :
    Inv { s with
      dispatcher := .returning (s.dispatches + 1) call noFailure none
      dispatches := s.dispatches + 1 } tr :=
  { h with
    context_le := h.context_le.trans (Nat.le_succ _)
    fresh := fun d hd => h.fresh d ((Nat.lt_succ_self _).trans hd)
    awaiting := fun d call hd => by cases hd
    quiet := fun _ => h.quiet_of_idle hidle
    returning := fun d call' result exception hd => by
      cases hd
      obtain ⟨h1, h2, h3⟩ := nothing_of_not_works (d := s.dispatches + 1)
        fun ev hev => (h.fresh _ (Nat.lt_succ_self _) ev hev).1
      refine ⟨⟨h3, ?_, fun _ => noFailure, ?_, ?_, ?_⟩, le_rfl⟩
      · rw [h1, hzero]
        exact .nil
      · intro o ho
        omega
      · rw [h2, hzero]
        rfl
      · rw [hzero]
        rfl }

/-- **A job is posted.** -/
theorem Inv.post (h : Inv s tr) (captures : Bool) (call : PhaseCall)
    (hidle : s.dispatcher = .idle) :
    Inv { s with
      shared := s.shared.post captures s.workers.length (s.dispatches + 1) call
      dispatcher := .awaiting (s.dispatches + 1) call
      dispatches := s.dispatches + 1 } tr := by
  have hquiet := h.quiet_of_idle hidle
  have hnone : ∀ w ∈ s.workers, w.point.active = 0 := fun w hw => h.inactive hquiet hw
  -- nothing is known of a dispatch with a new number
  have hfresh := h.fresh (s.dispatches + 1) (Nat.lt_succ_self _)
  obtain ⟨h1, h2, h3⟩ := nothing_of_not_works fun ev hev => (hfresh ev hev).1
  exact {
    counted := h.counted
    posted := fun _ _ _ => rfl
    ok := fun w hw => (WorkerPoint.of_inactive (hnone w hw)).2.2.2.2.2 _
    separate := h.separate
    sized := (le_length_grow s.shared call.count).1
    invoked := fun k (hk : k ∈ invokedIn (s.dispatches + 1) tr) => by
      rw [h1] at hk
      exact absurd hk List.not_mem_nil
    completed_nodup := by
      show ((completedIn (s.dispatches + 1) tr).map Prod.fst).Nodup
      rw [h2]
      exact List.nodup_nil
    completed := fun c (hc : c ∈ completedIn (s.dispatches + 1) tr) => by
      rw [h2] at hc
      exact absurd hc List.not_mem_nil
    current := fun w hw o ho => by
      rw [(WorkerPoint.of_inactive (hnone w hw)).2.2.2.2.1] at ho
      cases ho
    finished := by
      show (completedIn (s.dispatches + 1) tr).length =
        0 + (s.workers.map fun w => w.point.unpublished).sum
      rw [h2, sum_unpublished hnone]
      rfl
    caught := fun w hw e he => by
      rw [(WorkerPoint.of_inactive (hnone w hw)).2.2.2.1] at he
      cases he
    exception := fun e he => by cases he
    seen := fun hthrown => absurd h3 hthrown
    context_le := le_rfl
    fresh := fun d hd => h.fresh d ((Nat.lt_succ_self _).trans hd)
    awaiting := fun d call' hd => by
      cases hd
      exact ⟨rfl, rfl, rfl, rfl⟩
    quiet := fun hd => absurd rfl (hd _ _)
    returning := fun d call' result exception hd => by cases hd
    unended := fun _ ev hev => (hfresh ev hev).2
    returned := h.returned
    rethrown := h.rethrown
    ordered := h.ordered
    nodup := h.nodup }

/-- **All operations were done** when as many were completed as the job has. -/
theorem Inv.finished_of_count (h : Inv s tr) (hnone : ∀ w ∈ s.workers, w.point.active = 0)
    (hexc : s.shared.exception = none)
    (hcount : s.shared.finishedOperations = s.shared.job.count) {call : PhaseCall}
    (hfirst : s.shared.job.first = call.first) (hcalls : s.shared.job.count = call.count) :
    Finished tr s.shared.job.context call (firstFailure (s.shared.results.take call.count))
      none := by
  have hthrown : thrownIn s.shared.job.context tr = [] := by
    by_contra hne
    rcases h.seen hne with hsome | ⟨w, hw, hcaught⟩
    · rw [hexc] at hsome
      cases hsome
    · rw [(WorkerPoint.of_inactive (hnone w hw)).2.2.2.1] at hcaught
      cases hcaught
  have hlen : (completedIn s.shared.job.context tr).length = call.count := by
    have hsum := sum_unpublished hnone
    have hfin := h.finished
    omega
  -- as many different indices were completed as there are
  have hcompleted : ((completedIn s.shared.job.context tr).map Prod.fst).Perm
      (List.range' call.first call.count) := by
    refine Threads.perm_range_of_nodup h.completed_nodup (fun k hk => ?_) ?_
    · obtain ⟨c, hc, rfl⟩ := List.mem_map.1 hk
      obtain ⟨o, h1, -, h3, -⟩ := h.completed c hc
      omega
    · rw [List.length_map, hlen]
  have hinvoked : (invokedIn s.shared.job.context tr).Perm
      (List.range' call.first call.count) := by
    refine Threads.perm_range_of_nodup (h.nodup _) (fun k hk => ?_) ?_
    · obtain ⟨o, rfl, -, h3, -⟩ := h.invoked k hk
      omega
    · have hsub : ((completedIn s.shared.job.context tr).map Prod.fst).Subperm
          (invokedIn s.shared.job.context tr) := by
        refine List.subperm_of_subset h.completed_nodup fun k hk => ?_
        obtain ⟨c, hc, rfl⟩ := List.mem_map.1 hk
        obtain ⟨o, -, -, -, -, hin, -⟩ := h.completed c hc
        exact hin
      have hle := hsub.length_le
      rw [List.length_map, hlen] at hle
      exact hle
  refine ⟨hthrown, hinvoked, fun o => (s.shared.results[o]?).getD noFailure, fun o ho => ?_, hlen,
    congrArg firstFailure ?_⟩
  · have hmem : call.first + o ∈ (completedIn s.shared.job.context tr).map Prod.fst :=
      hcompleted.mem_iff.2 (List.mem_range'_1.2 ⟨Nat.le_add_right _ _, by omega⟩)
    obtain ⟨c, hc, heq⟩ := List.mem_map.1 hmem
    obtain ⟨o', h1, -, -, -, -, hresult⟩ := h.completed c hc
    obtain rfl : o = o' := by omega
    show (call.first + o, (s.shared.results[o]?).getD noFailure) ∈ _
    rw [hresult, Option.getD_some, ← heq]
    exact hc
  · have hsized := h.sized
    refine List.ext_getElem? fun o => ?_
    by_cases ho : o < call.count
    · have hin : o < s.shared.results.length := by omega
      rw [List.getElem?_take_of_lt ho, List.getElem?_map, List.getElem?_range ho, Option.map_some,
        List.getElem?_eq_getElem hin, Option.getD_some]
    · rw [List.getElem?_eq_none (by rw [List.length_take]; omega),
        List.getElem?_eq_none (by rw [List.length_map, List.length_range]; omega)]

/-- **The dispatch is over** when nobody is active and all was done, or an exception recorded. -/
theorem Inv.finish (h : Inv s tr) {d : ℕ} {call : PhaseCall}
    (hawait : s.dispatcher = .awaiting d call) (hdone : s.shared.done call = true) :
    Inv { s with
      shared := { s.shared with jobActive := false, dispatchActive := false }
      dispatcher := .returning d call (firstFailure (s.shared.results.take call.count))
        s.shared.exception } tr := by
  obtain ⟨-, rfl, hfirst, hcount⟩ := h.awaiting d call hawait
  simp only [PoolShared.done, Bool.and_eq_true, Bool.or_eq_true, decide_eq_true_eq] at hdone
  have hnone : ∀ w ∈ s.workers, w.point.active = 0 := fun w hw =>
    Threads.eq_zero_of_sum (h.counted.symm.trans hdone.1) hw
  exact { h with
    ok := fun w hw => (h.ok w hw).mono rfl le_rfl
    posted := fun w hw hone => by
      rw [hnone w hw] at hone
      cases hone
    awaiting := fun d call hd => by cases hd
    quiet := fun _ => rfl
    returning := fun d call' result exception hd => by
      cases hd
      refine ⟨?_, h.context_le⟩
      cases hexc : s.shared.exception with
      | some e => exact h.exception e hexc
      | none =>
        rw [hexc] at hdone
        have hall : s.shared.finishedOperations = call.count := by simpa using hdone.2
        exact h.finished_of_count hnone hexc (hall.trans hcount.symm) hfirst hcount
    unended := fun hactive => by cases hactive }

/-- **A dispatch returns or throws.** -/
theorem Inv.resume (h : Inv s tr) {d : ℕ} {call : PhaseCall} {result : PlannedExecutionResult}
    {exception : Option E} (hret : s.dispatcher = .returning d call result exception) :
    Inv { s with dispatcher := .idle } (endEvent d call result exception :: tr) := by
  obtain ⟨hfin, hle⟩ := h.returning d call result exception hret
  have hquiet : s.shared.jobActive = false := h.quiet fun d' call' hd' => by
    rw [hret] at hd'
    cases hd'
  -- a job that is not posted may have ended
  have hunended : s.shared.jobActive = true → ∀ tr' : List (PhaseEvent E), ∀ ev ∈ tr',
      ¬ ev.Ends s.shared.job.context := by
    intro hactive
    rw [hquiet] at hactive
    cases hactive
  cases exception with
  | none =>
    exact { h with
      fresh := fun d' hd' => by
        refine List.forall_mem_cons.2 ⟨⟨id, fun hend => ?_⟩, h.fresh d' hd'⟩
        have hlt : s.dispatches < d' := hd'
        have heq : d = d' := hend
        omega
      awaiting := fun d call hd => by cases hd
      quiet := fun _ => hquiet
      returning := fun d call result exception hd => by cases hd
      unended := fun hactive => hunended hactive _
      returned := fun d' call' result' hend => by
        rcases List.mem_cons.1 hend with heq | hend
        · cases heq
          exact hfin
        · exact h.returned d' call' result' hend
      rethrown := fun d' call' e hend => by
        rcases List.mem_cons.1 hend with heq | hend
        · cases heq
        · exact h.rethrown d' call' e hend
      ordered := List.pairwise_cons.2 ⟨fun ev _ d _ => id, h.ordered⟩ }
  | some e =>
    exact { h with
      fresh := fun d' hd' => by
        refine List.forall_mem_cons.2 ⟨⟨id, fun hend => ?_⟩, h.fresh d' hd'⟩
        have hlt : s.dispatches < d' := hd'
        have heq : d = d' := hend
        omega
      awaiting := fun d call hd => by cases hd
      quiet := fun _ => hquiet
      returning := fun d call result exception hd => by cases hd
      unended := fun hactive => hunended hactive _
      returned := fun d' call' result' hend => by
        rcases List.mem_cons.1 hend with heq | hend
        · cases heq
        · exact h.returned d' call' result' hend
      rethrown := fun d' call' e' hend => by
        rcases List.mem_cons.1 hend with heq | hend
        · cases heq
          exact hfin
        · exact h.rethrown d' call' e' hend
      ordered := List.pairwise_cons.2 ⟨fun ev _ d _ => id, h.ordered⟩ }

/-- The destructor tells the workers to stop. -/
theorem Inv.destroy (h : Inv s tr) (hidle : s.dispatcher = .idle) :
    Inv { s with shared := { s.shared with stop := true }, dispatcher := .destroyed } tr :=
  { h with
    ok := fun w hw => (h.ok w hw).mono rfl le_rfl
    awaiting := fun d call hd => by cases hd
    quiet := fun _ => h.quiet_of_idle hidle
    returning := fun d call result exception hd => by cases hd }

/-! ### Runs -/

theorem inv_start (workerCount : ℕ) : Inv (start workerCount : WorkerPool E) [] := by
  have hwaiting : ∀ w ∈ (start workerCount : WorkerPool E).workers, w.point = .waiting := by
    intro w hw
    rw [(List.mem_replicate.1 hw).2]
  have hnone : ∀ w ∈ (start workerCount : WorkerPool E).workers, w.point.active = 0 := by
    intro w hw
    rw [hwaiting w hw]
    rfl
  exact {
    counted := by
      refine (List.sum_eq_zero_iff_forall_eq_nat.2 fun n hn => ?_).symm
      obtain ⟨w, hw, rfl⟩ := List.mem_map.1 hn
      exact hnone w hw
    posted := fun w hw hone => by
      rw [hnone w hw] at hone
      cases hone
    ok := fun w hw => (WorkerPoint.of_inactive (hnone w hw)).2.2.2.2.2 _
    separate := fun i j a b ha hb _ => by
      show Disjoint a.point.owned b.point.owned
      rw [hwaiting a (List.mem_of_getElem? ha)]
      exact Finset.disjoint_empty_left _
    sized := le_rfl
    invoked := fun k hk => absurd hk List.not_mem_nil
    completed_nodup := List.nodup_nil
    completed := fun c hc => absurd hc List.not_mem_nil
    current := fun w hw o ho => by
      rw [hwaiting w hw] at ho
      cases ho
    finished := by
      rw [sum_unpublished hnone]
      rfl
    caught := fun w hw e he => by
      rw [hwaiting w hw] at he
      cases he
    exception := fun e he => by cases he
    seen := fun hthrown => absurd rfl hthrown
    context_le := le_rfl
    fresh := fun d _ ev hev => absurd hev List.not_mem_nil
    awaiting := fun d call hd => by cases hd
    quiet := fun _ => rfl
    returning := fun d call result exception hd => by cases hd
    unended := fun hactive => by cases hactive
    returned := fun d call result hend => absurd hend List.not_mem_nil
    rethrown := fun d call e hend => absurd hend List.not_mem_nil
    ordered := .nil
    nodup := fun _ => List.nodup_nil }

/-- **One step** of any thread. -/
theorem Inv.step (h : Inv s tr) {captures : Bool} {a : PoolAction E} {s' : WorkerPool E}
    (hstep : s.step captures a = some (s', events)) : Inv s' (events ++ tr) := by
  cases a with
  | reserve count =>
    cases hd : s.dispatcher with
    | idle =>
      simp only [WorkerPool.step, hd] at hstep
      split_ifs at hstep
      cases hstep
      exact hd ▸ h.reserve count
    | _ => simp [WorkerPool.step, hd] at hstep
  | dispatch call =>
    cases hd : s.dispatcher with
    | idle =>
      simp only [WorkerPool.step, hd] at hstep
      split_ifs at hstep with hbusy hzero
      · cases hstep
        exact h.dispatch_none hd hzero
      · cases hstep
        exact h.post captures call hd
    | _ => simp [WorkerPool.step, hd] at hstep
  | finish =>
    cases hd : s.dispatcher with
    | awaiting d call =>
      simp only [WorkerPool.step, hd] at hstep
      split_ifs at hstep with hdone
      cases hstep
      exact h.finish hd hdone
    | _ => simp [WorkerPool.step, hd] at hstep
  | resume =>
    cases hd : s.dispatcher with
    | returning d call result exception =>
      simp only [WorkerPool.step, hd] at hstep
      cases hstep
      exact h.resume hd
    | _ => simp [WorkerPool.step, hd] at hstep
  | destroy =>
    cases hd : s.dispatcher with
    | idle =>
      simp only [WorkerPool.step, hd] at hstep
      cases hstep
      exact h.destroy hd
    | _ => simp [WorkerPool.step, hd] at hstep
  | worker i answer =>
    cases hi : s.workers[i]? with
    | none => simp [WorkerPool.step, hi] at hstep
    | some w =>
      simp only [WorkerPool.step, hi] at hstep
      obtain ⟨⟨shared, w', events'⟩, hworker, heq⟩ := Option.map_eq_some_iff.1 hstep
      cases heq
      have hw := List.mem_of_getElem? hi
      have hcounted : w.point.active ≤ s.shared.activeWorkers := by
        rw [h.counted]
        have hsum := Threads.sum_set (b := (⟨0, .waiting⟩ : PoolWorker E))
          (fun w : PoolWorker E => w.point.active) hi
        have hzero : (⟨0, .waiting⟩ : PoolWorker E).point.active = 0 := rfl
        omega
      exact h.worker hi (workerStep_effect (h.ok w hw) h.sized (h.posted w hw) hcounted hworker)

/-- **Every run.** -/
theorem inv_of_run {captures : Bool} {workerCount : ℕ} (h : PoolRun captures workerCount s tr) :
    Inv s tr := by
  induction h with
  | start => exact inv_start workerCount
  | step a _ hstep ih => exact ih.step hstep

theorem run_of_schedule {captures : Bool} {workerCount : ℕ} {actions : List (PoolAction E)}
    {s' : WorkerPool E} {tr' : List (PhaseEvent E)} (h : PoolRun captures workerCount s tr)
    (hrun : runSchedule captures actions s tr = some (s', tr')) :
    PoolRun captures workerCount s' tr' := by
  induction actions generalizing s tr with
  | nil =>
    cases hrun
    exact h
  | cons a actions ih =>
    rw [runSchedule] at hrun
    cases hstep : s.step captures a with
    | none => simp [hstep] at hrun
    | some r =>
      simp only [hstep] at hrun
      exact ih (h.step a hstep) hrun

end WorkerPool

/-! ### Two operations and one worker -/

/-- Indices five and six. -/
def pairCall : PhaseCall := ⟨5, 2, false⟩

/-- A failure. -/
def pairFailure : PlannedExecutionResult := ⟨.invalidChunk, 3⟩

/-- A worker draws both operations and leaves. -/
def pairSchedule : List (PoolAction Unit) :=
  .dispatch pairCall :: List.replicate 16 (.worker 0 (.value pairFailure)) ++ [.finish, .resume]

end Tess
