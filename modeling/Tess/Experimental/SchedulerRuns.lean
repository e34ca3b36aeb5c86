import Tess.Experimental.DirtyBitScheduler

/-!
# Runs of the maintenance schedulers

What the log of a run says about offers and executions, for the first-in-first-out, the coalescing
and the dirty-bit scheduler.

* `QueuedScheduler.FifoRun`, `QueuedScheduler.CoalescingRun`, `DirtyBitScheduler.BitRun` : what
  holds after every step;
* `maintenance_runs` : **it does, from the constructor on**;
* `dirtyBit_runs_again` : a task that is offered while it waits in the taken word runs twice.
-/

namespace Tess

open Service

/-- **The first-in-first-out scheduler** runs what it accepted, once each and in this order. -/
structure QueuedScheduler.FifoRun (s : QueuedScheduler) : Prop where
  /-- After every offer its task ran, or is queued. -/
  kept : Kept s.log (· ∈ s.queued)
  /-- The queue is what was accepted and has not run. -/
  order : offers s.log = starts s.log ++ s.queued
  /-- Offers end. -/
  schedules : ∀ task fromTask, (s.schedule task fromTask).isSome
  /-- The drain gets its next entry. -/
  takes : ∀ bounded budget, (s.takeNext bounded budget).isSome

/-- **The coalescing scheduler** has a task pending at most once, and runs it for an offer only. -/
structure QueuedScheduler.CoalescingRun (s : QueuedScheduler) : Prop where
  /-- After every offer its task ran, or is queued. -/
  kept : Kept s.log (· ∈ s.queued)
  /-- No task is queued twice. -/
  nodup : s.queued.Nodup
  /-- Between two runs of a task there is an offer. -/
  offered : OnlyOffered (fun _ => 0) s.log
  /-- The index has exactly the queued tasks. -/
  index : ∀ task, s.pending.contains s.home task = some (decide (task ∈ s.queued))
  /-- Offers end. -/
  schedules : ∀ task fromTask, (s.schedule task fromTask).isSome
  /-- The drain gets its next entry. -/
  takes : ∀ bounded budget, (s.takeNext bounded budget).isSome

/-- **The dirty-bit scheduler** has a task pending at most once in its bitmap and once in the taken
word; an offer that finds it there allows one run more. -/
structure DirtyBitScheduler.BitRun (s : DirtyBitScheduler) : Prop where
  /-- After every offer its task ran, or its bit is set. -/
  kept : Kept s.log fun task => task ∈ s.bitmap ∨ task ∈ s.inHand
  /-- One bit for each task. -/
  bitmap : s.bitmap.Nodup
  /-- One bit for each task in the taken word. -/
  inHand : s.inHand.Nodup
  /-- Between two runs there is an offer, or the one before found the task waiting. -/
  offered : OnlyOffered Bool.toNat s.log
  /-- Registrations end. -/
  registers : ∀ task, (s.registerTask task).isSome
  /-- The drain runs registered bits only. -/
  advances : s.drain ≠ .idle → s.runningActive = false → s.advance.isSome

theorem QueuedScheduler.Valid.fifoRun {s : QueuedScheduler} {entries : List QueuedMaintenanceEntry}
    (h : s.Valid false entries) : s.FifoRun where
  kept := by
    rw [h.queued_eq]
    exact h.kept
  order := by
    rw [h.queued_eq]
    exact h.fifo h.mode_eq
  schedules := fun task fromTask => by
    obtain ⟨r, s', -, hs, -⟩ := h.schedule task fromTask
    rw [hs]
    rfl
  takes := fun bounded budget => by
    obtain ⟨s', -, hs, -⟩ := h.takeNext bounded budget
    rw [hs]
    rfl

theorem QueuedScheduler.Valid.coalescingRun {s : QueuedScheduler}
    {entries : List QueuedMaintenanceEntry} (h : s.Valid true entries) :
    s.CoalescingRun where
  kept := by
    rw [h.queued_eq]
    exact h.kept
  nodup := by
    rw [h.queued_eq]
    exact h.distinct h.mode_eq
  offered := h.offered h.mode_eq
  index := fun task => by
    obtain ⟨r, hr, hiff⟩ := h.contains h.mode_eq task
    rw [hr, h.queued_eq, Option.some.injEq, Bool.eq_iff_iff, decide_eq_true_iff]
    exact hiff
  schedules := fun task fromTask => by
    obtain ⟨r, s', -, hs, -⟩ := h.schedule task fromTask
    rw [hs]
    rfl
  takes := fun bounded budget => by
    obtain ⟨s', -, hs, -⟩ := h.takeNext bounded budget
    rw [hs]
    rfl

theorem DirtyBitScheduler.Valid.bitRun {s : DirtyBitScheduler} (h : s.Valid) : s.BitRun where
  kept := by
    refine h.tracked.kept.mono ?_
    rintro t ⟨i, hi, hb | hh⟩
    · exact Or.inl ((mem_tasksOf fun j hj => h.bits j (Or.inl hj)).2 ⟨i, hi, hb⟩)
    · exact Or.inr ((mem_tasksOf fun j hj => h.bits j (Or.inr hj)).2 ⟨i, hi, hh⟩)
  bitmap := h.nodup_tasksOf s.bit
  inHand := h.nodup_tasksOf s.held
  offered := h.tracked.offered
  registers := fun task => by
    obtain ⟨r, s', hs, -⟩ := h.registerTask task
    rw [hs]
    rfl
  advances := fun hdrain hrun => by
    obtain ⟨s', hs, -⟩ := h.advance hdrain hrun
    rw [hs]
    rfl

/-- **Every run of the maintenance schedulers** keeps its offers and runs nothing else. -/
theorem maintenance_runs :
    (∀ capacity accounting actions s,
      (QueuedScheduler.make false capacity accounting).run actions = some s → s.FifoRun) ∧
    (∀ capacity accounting actions s,
      (QueuedScheduler.make true capacity accounting).run actions = some s → s.CoalescingRun) ∧
    ∀ capacity actions s,
      ({ capacity := capacity } : DirtyBitScheduler).run actions = some s → s.BitRun := by
  refine ⟨fun capacity accounting actions s hrun => ?_, fun capacity accounting actions s hrun => ?_,
    fun capacity actions s hrun => ?_⟩
  · obtain ⟨entries, h⟩ := QueuedScheduler.valid_run QueuedScheduler.valid_make hrun
    exact h.fifoRun
  · obtain ⟨entries, h⟩ := QueuedScheduler.valid_run QueuedScheduler.valid_make hrun
    exact h.coalescingRun
  · exact (DirtyBitScheduler.valid_run (DirtyBitScheduler.valid_make capacity) hrun).bitRun

/-- Two tasks wait in the taken word; the run of the first offers the second. -/
def offerWhileWaiting : List DirtyBitAction :=
  [.registerTask 8, .registerTask 16, .sealRegistry, .schedule 8 false, .schedule 16 false, .flush,
    .advance, .advance, .schedule 16 true, .finish 9, .advance, .finish 8, .advance, .advance,
    .advance, .advance]

/-- The invariant of that run. -/
theorem maintenance_runs_waiting : ∃ s,
    ({ capacity := 2 } : DirtyBitScheduler).run offerWhileWaiting = some s ∧ s.BitRun := by
  have hsome : (({ capacity := 2 } : DirtyBitScheduler).run offerWhileWaiting).isSome = true := by
    decide +kernel
  obtain ⟨s, hs⟩ := Option.isSome_iff_exists.1 hsome
  exact ⟨s, hs, maintenance_runs.2.2 2 offerWhileWaiting s hs⟩

/-- The dirty-bit scheduler runs the second task twice for that offer. -/
theorem dirtyBit_runs_again : ¬ ∀ capacity actions s,
    ({ capacity := capacity } : DirtyBitScheduler).run actions = some s →
      OnlyOffered (fun _ => 0) s.log := by
  intro h
  have hlog : (({ capacity := 2 } : DirtyBitScheduler).run offerWhileWaiting).map (·.log) =
      some [.started 16, .started 16, .accepted 16 true, .started 8, .accepted 16 false,
        .accepted 8 false] := by
    decide +kernel
  obtain ⟨s, hs, heq⟩ := Option.map_eq_some_iff.1 hlog
  obtain ⟨mid, w, old, hsplit, hcount⟩ := h 2 _ s hs [] 16 _ heq
  cases mid with
  | nil => cases (List.cons.inj hsplit).1
  | cons e mid =>
    obtain ⟨rfl, -⟩ := List.cons.inj hsplit
    rw [List.count_cons_self] at hcount
    exact absurd hcount (Nat.not_succ_le_zero _)

end Tess
