import Tess.Ops.ResultDelivery

/-!
# Runs of the result channel

The owner of a planned batch records its rejections once and executes phases, each at most once;
drains and clears come in between.

* `PlanHandles` : handles of a planned batch, none twice;
* `settledBy` : **the operations that a call settles**;
* `CallsOnce` : the calls that the owner may make;
* `ChannelRun.run_inv` : the invariant of deliveries along a run;
* `result_channel_delivery` : **deliveries of a planned batch.**
-/

namespace Tess

variable {M T : Type}

/-! ### Handles of a batch -/

/-- **Handles of a planned batch**: reports are numbered, and the accepted operations are those
whose report says so. -/
structure PlanHandles (report : ExecutionReport M) : Prop where
  /-- Reports are numbered. -/
  reports : report.operations.map (·.handle) = List.range report.operations.length
  /-- Accepted operations come in order. -/
  plan : report.plan.Pairwise fun a b => a.handle < b.handle
  /-- Their reports accept them. -/
  planned : ∀ op ∈ report.plan, ∃ rep ∈ report.operations,
    rep.handle = op.handle ∧ rep.status = .planned

section Handles

variable {world : OpsWorld} {opIndex : ℕ} {op : QueuedOperation M} {report report' : ExecutionReport M}

theorem admitOperation_handle :
    (∀ rep, admitOperation world opIndex op = .error rep → rep.handle = opIndex) ∧
      ∀ planned, admitOperation world opIndex op = .ok planned → planned.handle = opIndex := by
  unfold admitOperation
  dsimp only
  by_cases hid : op.handle ≠ opIndex ∨ op.id ≠ opIndex
  · rw [if_pos hid]
    exact ⟨fun rep h => by cases h; rfl, fun planned h => by cases h⟩
  rw [if_neg hid]
  push Not at hid
  split
  · exact ⟨fun rep h => by cases h; rfl, fun planned h => by cases h⟩
  split
  · exact ⟨fun rep h => by cases h; rfl, fun planned h => by cases h⟩
  cases expandDomain world op.domain with
  | error key => exact ⟨fun rep h => by cases h; rfl, fun planned h => by cases h⟩
  | ok chunks => exact ⟨fun rep h => (by cases h), fun planned h => by cases h; exact hid.1⟩

theorem PlanHandles.pushReport (h : PlanHandles report) {rep : OperationReport M}
    (hrep : rep.handle = report.operations.length) : PlanHandles (report.pushReport rep) := by
  refine ⟨?_, h.plan, fun op hop => ?_⟩
  · show (report.operations ++ [rep]).map _ = List.range (report.operations ++ [rep]).length
    rw [List.map_append, h.reports, List.length_append, List.length_singleton, List.range_succ,
      List.map_singleton, hrep]
  · obtain ⟨r, hr, hh⟩ := h.planned op hop
    exact ⟨r, List.mem_append_left _ hr, hh⟩

theorem PlanHandles.handle_lt (h : PlanHandles report) {rep : OperationReport M}
    (hrep : rep ∈ report.operations) : rep.handle < report.operations.length := by
  rw [← List.mem_range, ← h.reports]
  exact List.mem_map_of_mem hrep

theorem pushPlanned_fields (planned : PlannedOperation M) :
    (report.pushPlanned planned).operations = report.operations ∧
      (report.pushPlanned planned).plan = report.plan ++ [planned] := by
  unfold ExecutionReport.pushPlanned
  dsimp only
  split <;> exact ⟨rfl, rfl⟩

/-- **One operation** is numbered by its place in the queue. -/
theorem planOperation_handles (h : PlanHandles report) (hi : opIndex = report.operations.length)
    (hplan : planOperation world opIndex op report = some report') :
    PlanHandles report' ∧ report'.operations.length = opIndex + 1 := by
  obtain ⟨herror, hok⟩ := @admitOperation_handle _ world opIndex op
  unfold planOperation at hplan
  cases hchecks : admitOperation world opIndex op with
  | error rep =>
    rw [hchecks] at hplan
    obtain rfl := Option.some.inj hplan
    refine ⟨h.pushReport ((herror rep hchecks).trans hi), ?_⟩
    rw [hi]
    exact List.length_append
  | ok planned =>
    rw [hchecks] at hplan
    obtain ⟨hazard, -, hreport⟩ := Option.map_eq_some_iff.1 hplan
    have hhandle : (hazardReport (initialReport opIndex op) planned hazard).handle = opIndex := by
      cases hazard <;> rfl
    cases hazard with
    | some conflict =>
      obtain rfl := hreport
      refine ⟨h.pushReport (hhandle.trans hi), ?_⟩
      rw [hi]
      exact List.length_append
    | none =>
      obtain rfl := hreport
      obtain ⟨hoperations, hpl⟩ := @pushPlanned_fields _ report planned
      have hnumber : planned.handle = report.operations.length := (hok planned hchecks).trans hi
      refine ⟨⟨?_, ?_, fun p hp => ?_⟩, ?_⟩
      · have hpushed := (h.pushReport (hhandle.trans hi)).reports
        unfold ExecutionReport.pushReport at hpushed ⊢
        rw [hoperations]
        exact hpushed
      · show (report.pushPlanned planned).plan.Pairwise _
        rw [hpl]
        refine List.pairwise_append.2 ⟨h.plan, List.pairwise_singleton _ _, fun a ha b hb => ?_⟩
        obtain ⟨rep, hrep, hh, -⟩ := h.planned a ha
        rw [List.mem_singleton.1 hb, hnumber, ← hh]
        exact h.handle_lt hrep
      · have hp' : p ∈ report.plan ++ [planned] := hpl ▸ hp
        unfold ExecutionReport.pushReport
        rw [hoperations]
        rcases List.mem_append.1 hp' with hp' | hp'
        · obtain ⟨rep, hrep, hh⟩ := h.planned p hp'
          exact ⟨rep, List.mem_append_left _ hrep, hh⟩
        · rw [List.mem_singleton.1 hp']
          exact ⟨_, List.mem_append_right _ (List.mem_singleton_self _),
            hhandle.trans (hok planned hchecks).symm, rfl⟩
      · unfold ExecutionReport.pushReport
        rw [hoperations, hi]
        exact List.length_append

theorem planLoop_handles {ops : List (QueuedOperation M)} (h : PlanHandles report)
    (hi : opIndex = report.operations.length)
    (hplan : planLoop world opIndex ops report = some report') : PlanHandles report' := by
  induction ops generalizing opIndex report with
  | nil =>
    obtain rfl := Option.some.inj hplan
    exact h
  | cons op ops ih =>
    obtain ⟨next, hnext, hrest⟩ := Option.bind_eq_some_iff.1 hplan
    obtain ⟨hhandles, hlen⟩ := planOperation_handles h hi hnext
    exact ih hhandles hlen.symm hrest

/-- **A planned batch** has each handle once. -/
theorem planOperations_handles {ops : List (QueuedOperation M)}
    (hplan : planOperations world ops report = some report') : PlanHandles report' := by
  have hstart : PlanHandles (report.reset.reserve ops.length) := by
    refine ⟨rfl, .nil, fun op hop => ?_⟩
    have hnil : op ∈ ([] : List (PlannedOperation M)) := hop
    cases hnil
  exact planLoop_handles hstart rfl hplan

theorem PlanHandles.nodup (h : PlanHandles report) :
    (report.operations.map (·.handle)).Nodup := by
  rw [h.reports]
  exact List.nodup_range

/-- Accepted operations have handles of their own. -/
theorem PlanHandles.plan_inj (h : PlanHandles report) {i j : ℕ} {a b : PlannedOperation M}
    (ha : report.plan[i]? = some a) (hb : report.plan[j]? = some b)
    (hab : a.handle = b.handle) : i = j := by
  obtain ⟨hi, rfl⟩ := List.getElem?_eq_some_iff.1 ha
  obtain ⟨hj, rfl⟩ := List.getElem?_eq_some_iff.1 hb
  rcases Nat.lt_trichotomy i j with hlt | heq | hlt
  · have := List.pairwise_iff_getElem.1 h.plan i j hi hj hlt
    omega
  · exact heq
  · have := List.pairwise_iff_getElem.1 h.plan j i hj hi hlt
    omega

/-- A rejected operation is not accepted. -/
theorem PlanHandles.rejected_ne (h : PlanHandles report) {rep : OperationReport M}
    (hrep : rep ∈ report.operations) (hstatus : rep.status ≠ .planned) {op : PlannedOperation M}
    (hop : op ∈ report.plan) : op.handle ≠ rep.handle := by
  intro heq
  obtain ⟨rep', hrep', hh, hs⟩ := h.planned op hop
  obtain rfl := List.inj_on_of_nodup_map h.nodup hrep' hrep (hh.trans heq)
  exact hstatus hs

end Handles

/-! ### Ranges -/

section Ranges

variable {plan ops : List (PlannedOperation M)} {indexed : Bool} {i a n : ℕ}
  {phases : List ExecutionPhase} {s : PhaseLoop}

theorem PhaseLoop.remember_fields (op : PlannedOperation M) :
    (s.remember indexed i op).phases = s.phases ∧
      (s.remember indexed i op).current = s.current := by
  unfold PhaseLoop.remember PhaseLoop.phases
  split_ifs <;> exact ⟨rfl, rfl⟩

/-- The ranges of the loop follow each other, and there is one as soon as there is an
operation. -/
def PhaseLoop.Follows (s : PhaseLoop) (i : ℕ) : Prop :=
  Consecutive 0 s.phases i ∧ (s.current = none → s.closed = [])

theorem PhaseLoop.Follows.cut (h : s.Follows i) (op : PlannedOperation M) (conflicts : Bool) :
    (s.cut i op conflicts).Follows (i + 1) := by
  obtain ⟨hcons, hclosed⟩ := h
  unfold PhaseLoop.phases at hcons
  unfold PhaseLoop.cut
  cases hcurrent : s.current with
  | none =>
    rw [hcurrent, hclosed hcurrent] at hcons
    refine ⟨?_, fun h => by cases h⟩
    unfold PhaseLoop.phases
    rw [hclosed hcurrent]
    obtain rfl : 0 = i := hcons
    exact ⟨rfl, Nat.one_pos, rfl⟩
  | some phase =>
    rw [hcurrent] at hcons
    cases conflicts with
    | true =>
      refine ⟨?_, fun h => by cases h⟩
      exact consecutive_concat.2 ⟨hcons, Nat.one_pos, rfl⟩
    | false =>
      refine ⟨?_, fun h => by cases h⟩
      obtain ⟨hfirst, hpos, hend⟩ := consecutive_concat.1 hcons
      refine consecutive_concat.2 ⟨hfirst, Nat.succ_pos _, ?_⟩
      rw [← hend]
      exact (Nat.add_assoc _ _ _).symm

theorem phaseLoop_follows {p : ExecutionPhasePlan} (h : s.Follows i)
    (hp : phaseLoop indexed plan i ops s = some p) : ∃ n, Consecutive 0 p.phases n := by
  induction ops generalizing i s with
  | nil =>
    obtain rfl := Option.some.inj hp
    exact ⟨i, h.1⟩
  | cons op ops ih =>
    rw [phaseLoop] at hp
    split at hp
    · obtain rfl := Option.some.inj hp
      exact ⟨i, h.1⟩
    · obtain ⟨conflicts, -, hrest⟩ := Option.bind_eq_some_iff.1 hp
      obtain ⟨hcons, hclosed⟩ := h.cut op conflicts
      refine ih ⟨?_, fun hnone => ?_⟩ hrest
      · rw [(PhaseLoop.remember_fields op).1]
        exact hcons
      · rw [(PhaseLoop.remember_fields op).2] at hnone
        have hempty := hclosed hnone
        unfold PhaseLoop.remember
        split_ifs <;> exact hempty

theorem Consecutive.first_le (h : Consecutive a phases n) {phase : ExecutionPhase}
    (hp : phase ∈ phases) : a ≤ phase.firstOperation := by
  induction phases generalizing a with
  | nil => cases hp
  | cons q phases ih =>
    obtain ⟨rfl, hpos, hcons⟩ := h
    rcases List.mem_cons.1 hp with rfl | hp
    · exact le_rfl
    · have := ih hcons hp
      omega

/-- **An operation is in one range.** -/
theorem Consecutive.covers_inj (h : Consecutive a phases n) {phase phase' : ExecutionPhase}
    (hp : phase ∈ phases) (hp' : phase' ∈ phases) (hi : phase.Covers i) (hi' : phase'.Covers i) :
    phase = phase' := by
  induction phases generalizing a with
  | nil => cases hp
  | cons q phases ih =>
    obtain ⟨rfl, hpos, hcons⟩ := h
    rcases List.mem_cons.1 hp with rfl | hin
    · rcases List.mem_cons.1 hp' with rfl | hin'
      · rfl
      · have := hcons.first_le hin'
        have := hi.2
        have := hi'.1
        omega
    · rcases List.mem_cons.1 hp' with rfl | hin'
      · have := hcons.first_le hin
        have := hi'.2
        have := hi.1
        omega
      · exact ih hcons hin hin'

/-- **The ranges of a plan** follow each other. -/
theorem planParallelExecutionPhases_follows {p : ExecutionPhasePlan}
    (hp : planParallelExecutionPhases plan = some p) : ∃ n, Consecutive 0 p.phases n := by
  unfold planParallelExecutionPhases planPhases at hp
  refine phaseLoop_follows ⟨?_, fun _ => rfl⟩ hp
  exact (rfl : (0 : ℕ) = 0)

end Ranges

namespace ChannelRun

open ResultChannel

variable [Inhabited T] {r : ChannelRun T} {channel : ResultChannel T} {h : ℕ}

/-! ### Producers -/

/-- No drain knows the operation yet. -/
def Unsettled (r : ChannelRun T) (h : ℕ) : Prop :=
  ∀ s ∈ r.settled, s.epoch = r.clears → s.handle ≠ h

omit [Inhabited T] in
/-- What was not settled was not delivered. -/
theorem Unsettled.returnedCount_eq {busy : List (ℕ × ℕ)} (hnone : r.Unsettled h)
    (hr : r.Inv busy) : r.returnedCount r.clears h = 0 := by
  refine List.countP_eq_zero.2 fun v hv hc => ?_
  simp only [Bool.and_eq_true, decide_eq_true_eq] at hc
  obtain ⟨s, hs, he, hh, -⟩ := hr.visit_settled v hv
  exact hnone s hs (he.trans hc.1.2) (hh.trans hc.2)

omit [Inhabited T] in
/-- **A slot is filled** for an operation that is not settled, which it may settle. -/
theorem Inv.replace (hr : r.Inv []) (hgen : channel.generation = r.channel.generation)
    (hnone : r.Unsettled h) {slot : ResultSlot T} (hslot : channel.slots[h]? = some slot)
    (hd : slot.drained = false)
    (hother : ∀ j, j ≠ h → channel.slots[j]? = r.channel.slots[j]? ∨
      r.channel.slots[j]? = none ∧ ∃ value : T, channel.slots[j]? = some { value := value })
    {added : Option (SettledOperation T)}
    (hadded : ∀ s ∈ added, s.epoch = r.clears ∧ s.handle = h ∧ slot.Holds s ∧
      (s.value.isSome ↔ s.completion.ok = true))
    (hpending : added = none → ¬ slot.Settled ∧ slot.completion = {}) :
    ({ r with channel := channel, settled := r.settled ++ added.toList } :
      ChannelRun T).Inv [] := by
  refine
    { generation := hgen.trans hr.generation
      drain_lt := hr.drain_lt
      ordered := hr.ordered
      once := hr.once
      flags := fun j => ?_
      epochs := fun s hs => ?_
      busy_epochs := hr.busy_epochs
      holds := ⟨fun s hs he => ?_, fun j slot' hslot' hset => ?_, fun j slot' hslot' hset => ?_⟩
      visit_settled := fun v hv => ?_
      value_iff := fun s hs => ?_ }
  · show channel.drained j = true ↔ 0 < r.returnedCount r.clears j + _
    by_cases hj : j = h
    · subst hj
      rw [hnone.returnedCount_eq hr]
      unfold drained
      rw [hslot, Option.map_some, Option.getD_some, hd]
      simp
    · have heq : channel.drained j = r.channel.drained j := by
        unfold drained
        rcases hother j hj with heq | ⟨hnil, value, hnew⟩
        · rw [heq]
        · rw [hnil, hnew]
          rfl
      rw [heq]
      exact hr.flags j
  · rcases List.mem_append.1 hs with hs | hs
    · exact hr.epochs s hs
    · exact (hadded s (Option.mem_toList.1 hs)).1.le
  · rcases List.mem_append.1 hs with hs | hs
    · obtain ⟨slot', hslot', hholds⟩ := hr.holds.slot_of_settled s hs he
      have hne := hnone s hs he
      rcases hother _ hne with heq | ⟨hnil, -⟩
      · exact ⟨slot', heq.trans hslot', hholds⟩
      · rw [hnil] at hslot'
        cases hslot'
    · obtain ⟨-, rfl, hholds, -⟩ := hadded s (Option.mem_toList.1 hs)
      exact ⟨slot, hslot, hholds⟩
  · by_cases hj : j = h
    · subst hj
      obtain rfl : slot' = slot := Option.some.inj (hslot'.symm.trans hslot)
      cases hadd : added with
      | none => exact absurd hset (hpending hadd).1
      | some s =>
        obtain ⟨he, hh, -⟩ := hadded s hadd
        exact ⟨s, by simp, he, hh⟩
    · rcases hother j hj with heq | ⟨-, value, hnew⟩
      · obtain ⟨s, hs, he, hh⟩ := hr.holds.settled_of_slot j slot' (heq ▸ hslot') hset
        exact ⟨s, List.mem_append_left _ hs, he, hh⟩
      · obtain rfl := Option.some.inj (hslot'.symm.trans hnew)
        rcases hset with hset | hset <;> cases hset
  · by_cases hj : j = h
    · subst hj
      obtain rfl : slot' = slot := Option.some.inj (hslot'.symm.trans hslot)
      cases hadd : added with
      | none => exact (hpending hadd).2
      | some s => exact absurd (hadded s hadd).2.2.1.settled hset
    · rcases hother j hj with heq | ⟨-, value, hnew⟩
      · exact hr.holds.unsettled j slot' (heq ▸ hslot') hset
      · obtain rfl := Option.some.inj (hslot'.symm.trans hnew)
        rfl
  · obtain ⟨s, hs, hrest⟩ := hr.visit_settled v hv
    exact ⟨s, List.mem_append_left _ hs, hrest⟩
  · rcases List.mem_append.1 hs with hs | hs
    · exact hr.value_iff s hs
    · exact (hadded s (Option.mem_toList.1 hs)).2.2.2

theorem slots_ensureSlot (channel : ResultChannel T) (h j : ℕ) :
    (channel.ensureSlot h).slots[j]? = channel.slots[j]? ∨ channel.slots[j]? = none ∧
      (channel.ensureSlot h).slots[j]? = some { value := default } := by
  unfold ensureSlot
  dsimp only
  by_cases hj : j < channel.slots.length
  · exact .inl (List.getElem?_append_left hj)
  · have hnone : channel.slots[j]? = none := List.getElem?_eq_none (by omega)
    rw [List.getElem?_append_right (by omega), List.getElem?_replicate]
    split
    · exact .inr ⟨hnone, rfl⟩
    · exact .inl hnone.symm

theorem length_ensureSlot (channel : ResultChannel T) (h : ℕ) :
    h < (channel.ensureSlot h).slots.length ∧
      channel.slots.length ≤ (channel.ensureSlot h).slots.length := by
  unfold ensureSlot
  simp only [List.length_append, List.length_replicate]
  omega

/-- What an operation does to its slot, which it makes if it must. -/
theorem slots_fill (channel : ResultChannel T) (h : ℕ) (slot : ResultSlot T) :
    ((channel.ensureSlot h).modify h fun _ => slot).slots[h]? = some slot ∧
      ∀ j, j ≠ h → ((channel.ensureSlot h).modify h fun _ => slot).slots[j]? = channel.slots[j]? ∨
        channel.slots[j]? = none ∧ ∃ value : T,
          ((channel.ensureSlot h).modify h fun _ => slot).slots[j]? = some { value := value } := by
  refine ⟨?_, fun j hj => ?_⟩
  · rw [slots_modify, if_pos rfl, List.getElem?_eq_getElem (length_ensureSlot channel h).1]
    rfl
  · rw [slots_modify, if_neg hj]
    rcases slots_ensureSlot channel h j with heq | ⟨hnone, hnew⟩
    · exact .inl heq
    · exact .inr ⟨hnone, default, hnew⟩

omit [Inhabited T] in
theorem length_modify (channel : ResultChannel T) (h : ℕ) (f : ResultSlot T → ResultSlot T) :
    (channel.modify h f).slots.length = channel.slots.length := List.length_modify _ _ _

/-- **A rejected operation** is settled. -/
theorem Inv.failPlanned (hr : r.Inv []) {op : OperationReport M} (hstatus : op.status ≠ .planned)
    (hnone : r.Unsettled op.handle) : (r.failPlanned op).Inv [] := by
  obtain ⟨hslot, hother⟩ := slots_fill r.channel op.handle
    { value := default, completion := plannedCompletion op, state := .failed }
  refine @Inv.replace _ r _ _ hr ?_ hnone _ hslot rfl hother (some _) (fun s hs => ?_) fun h => ?_
  · rfl
  · obtain rfl := Option.some.inj hs
    refine ⟨rfl, rfl, ⟨.inr rfl, rfl, rfl⟩, ?_⟩
    simp [plannedCompletion, OpCompletion.ok, hstatus]
  · cases h

/-- **An operation is prepared.** -/
theorem Inv.prepareOperation (hr : r.Inv []) (hnone : r.Unsettled h) :
    ({ r with channel := r.channel.prepareOperation h } : ChannelRun T).Inv [] := by
  obtain ⟨hslot, hother⟩ := slots_fill r.channel h { value := default, state := .pending }
  have hinv := @Inv.replace _ r (r.channel.prepareOperation h) h hr rfl hnone _ hslot rfl hother
    none (fun s hs => by cases hs) fun _ => ⟨by simp [ResultSlot.Settled], rfl⟩
  simpa using hinv

omit [Inhabited T] in
/-- **An operation of a phase** is settled, unless its callback throws. -/
theorem Inv.runOperation {report : ExecutionReport M} (hr : r.Inv []) {run : OpRun T}
    {op : PlannedOperation M} (hop : report.plan[run.index]? = some op)
    (hlen : op.handle < r.channel.slots.length) (hnone : r.Unsettled op.handle) :
    (r.runOperation report run).Inv [] := by
  have hold := List.getElem?_eq_getElem hlen
  set old := r.channel.slots[op.handle]
  have hunset : ¬ old.Settled := fun hset => by
    obtain ⟨s, hs, he, hh⟩ := hr.holds.settled_of_slot _ _ hold hset
    exact hnone s hs he hh
  have hcompletion := hr.holds.unsettled _ _ hold hunset
  have hd : old.drained = false := by
    have hflag := (hr.flags op.handle).not
    rw [drained_of_slot hold] at hflag
    refine Bool.eq_false_iff.2 (hflag.2 ?_)
    rw [hnone.returnedCount_eq hr]
    simp
  unfold ChannelRun.runOperation
  rw [hop]
  dsimp only
  cases hresult : run.result with
  | none =>
    have hinv := @Inv.replace _ r (r.channel.writeValue op.handle run.value) op.handle hr rfl hnone
      { old with value := run.value } ?_ hd (fun j hj => .inl ?_) none (fun s hs => by cases hs)
      fun _ => ⟨hunset, hcompletion⟩
    · simpa using hinv
    · unfold writeValue
      rw [slots_modify, if_pos rfl, hold]
      rfl
    · unfold writeValue
      rw [slots_modify, if_neg hj]
  | some result =>
    dsimp only
    refine @Inv.replace _ r ((r.channel.writeValue op.handle run.value).complete op.handle result)
      op.handle hr rfl hnone
      { old with
        value := run.value
        completion := executionCompletion result
        state := if result.status = .executed then .ready else .failed }
      ?_ hd (fun j hj => .inl ?_)
      (some ⟨r.clears, op.handle, executionCompletion result,
        if result.status = .executed then some run.value else none⟩)
      (fun s hs => ?_) fun h => by cases h
    · unfold complete writeValue
      rw [slots_modify, if_pos rfl, slots_modify, if_pos rfl, hold]
      rfl
    · unfold complete writeValue
      rw [slots_modify, if_neg hj, slots_modify, if_neg hj]
    · obtain rfl := Option.some.inj hs
      refine ⟨rfl, rfl, ⟨?_, rfl, ?_⟩, ?_⟩
      · unfold ResultSlot.Settled
        split_ifs <;> simp
      · dsimp only
        split_ifs <;> simp_all
      · dsimp only [executionCompletion, OpCompletion.ok]
        split_ifs with hs <;> simp [hs]

/-! ### Calls -/

variable {stamp : PlannedWorldStamp} {report : ExecutionReport M} {p : ExecutionPhasePlan}

omit [Inhabited T] in
/-- What is settled by a rejection. -/
def settledByRejection (epoch : ℕ) (op : OperationReport M) : SettledOperation T :=
  ⟨epoch, op.handle, plannedCompletion op, none⟩

omit [Inhabited T] in
variable (report) in
/-- What is settled by the execution of an operation. -/
def settledByRun (epoch : ℕ) (run : OpRun T) : Option (SettledOperation T) :=
  match report.plan[run.index]?, run.result with
  | some op, some result =>
    some ⟨epoch, op.handle, executionCompletion result,
      if result.status = .executed then some run.value else none⟩
  | _, _ => none

variable (stamp report) in
/-- **What a call settles**: the rejected operations, or the operations of a phase that were
executed and whose callbacks did not throw. -/
def settledBy (epoch : ℕ) : ChannelOp T → List (SettledOperation T)
  | .recordPlanCompletions =>
    (report.operations.filter fun op => op.status ≠ .planned).map (settledByRejection epoch)
  | .executePhase policy phase runs =>
    if phaseValidationStatus stamp report.plan policy phase ≠ .executed then []
    else runs.filterMap (settledByRun report epoch)
  | .drain _ => []
  | .clear => []

/-- A list of rejections. -/
theorem foldl_failPlanned (ops : List (OperationReport M)) (hr : r.Inv [])
    (hstatus : ∀ op ∈ ops, op.status ≠ .planned) (hnodup : (ops.map (·.handle)).Nodup)
    (hnone : ∀ op ∈ ops, r.Unsettled op.handle) :
    (ops.foldl failPlanned r).Inv [] ∧ (ops.foldl failPlanned r).clears = r.clears := by
  induction ops generalizing r with
  | nil => exact ⟨hr, rfl⟩
  | cons op ops ih =>
    obtain ⟨hfresh, hnodup⟩ := List.nodup_cons.1 hnodup
    have hstep := hr.failPlanned (hstatus op List.mem_cons_self) (hnone op List.mem_cons_self)
    refine ih hstep (fun o ho => hstatus o (List.mem_cons_of_mem _ ho)) hnodup fun o ho => ?_
    intro s hs he
    rcases List.mem_append.1 hs with hs | hs
    · exact hnone o (List.mem_cons_of_mem _ ho) s hs he
    · rw [List.mem_singleton.1 hs]
      intro heq
      have hop : op.handle = o.handle := heq
      refine hfresh ?_
      show op.handle ∈ _
      rw [hop]
      exact List.mem_map_of_mem ho

theorem foldl_failPlanned_settled (ops : List (OperationReport M)) (r : ChannelRun T) :
    (ops.foldl failPlanned r).settled = r.settled ++ ops.map (settledByRejection r.clears) := by
  induction ops generalizing r with
  | nil => simp
  | cons op ops ih =>
    rw [List.foldl_cons, ih, List.map_cons]
    show (r.settled ++ [settledByRejection r.clears op]) ++ _ = _
    rw [List.append_assoc]
    rfl

/-- The slots of a phase. -/
theorem foldl_prepare (ops : List (PlannedOperation M)) (channel : ResultChannel T)
    (hr : ({ r with channel := channel } : ChannelRun T).Inv [])
    (hnone : ∀ op ∈ ops, r.Unsettled op.handle) :
    let prepared := ops.foldl (fun channel op => channel.prepareOperation op.handle) channel
    ({ r with channel := prepared } : ChannelRun T).Inv [] ∧
      channel.slots.length ≤ prepared.slots.length ∧
      ∀ op ∈ ops, op.handle < prepared.slots.length := by
  induction ops generalizing channel with
  | nil => exact ⟨hr, le_rfl, fun op hop => by cases hop⟩
  | cons op ops ih =>
    have hstep := hr.prepareOperation (hnone op List.mem_cons_self)
    obtain ⟨hinv, hlen, hall⟩ := ih (channel.prepareOperation op.handle) hstep
      fun o ho => hnone o (List.mem_cons_of_mem _ ho)
    have hensure := length_ensureSlot channel op.handle
    have hprepare : (channel.prepareOperation op.handle).slots.length =
        (channel.ensureSlot op.handle).slots.length := length_modify _ _ _
    refine ⟨hinv, by rw [List.foldl_cons]; omega, fun o ho => ?_⟩
    rw [List.foldl_cons]
    rcases List.mem_cons.1 ho with rfl | ho
    · omega
    · exact hall o ho

omit [Inhabited T] in
/-- The executions of a phase. -/
theorem foldl_runOperation (hh : PlanHandles report) (runs : List (OpRun T)) (hr : r.Inv [])
    (hnodup : (runs.map (·.index)).Nodup)
    (hready : ∀ run ∈ runs, ∀ op, report.plan[run.index]? = some op →
      op.handle < r.channel.slots.length ∧ r.Unsettled op.handle) :
    (runs.foldl (runOperation report) r).Inv [] ∧
      (runs.foldl (runOperation report) r).clears = r.clears ∧
      (runs.foldl (runOperation report) r).settled =
        r.settled ++ runs.filterMap (settledByRun report r.clears) := by
  induction runs generalizing r with
  | nil => exact ⟨hr, rfl, by simp⟩
  | cons run runs ih =>
    obtain ⟨hfresh, hnodup⟩ := List.nodup_cons.1 hnodup
    have hsettled : (r.runOperation report run).settled =
        r.settled ++ (settledByRun report r.clears run).toList := by
      unfold runOperation settledByRun
      cases report.plan[run.index]? <;> cases run.result <;> simp
    have hclears : (r.runOperation report run).clears = r.clears := by
      unfold runOperation
      cases report.plan[run.index]? <;> cases run.result <;> rfl
    have hlen : (r.runOperation report run).channel.slots.length = r.channel.slots.length := by
      unfold runOperation complete writeValue
      cases report.plan[run.index]? <;> cases run.result <;> simp [length_modify]
    have hstep : (r.runOperation report run).Inv [] := by
      cases hop : report.plan[run.index]? with
      | none =>
        unfold runOperation
        rw [hop]
        exact hr
      | some op =>
        obtain ⟨hlt, hnone⟩ := hready run List.mem_cons_self op hop
        exact hr.runOperation hop hlt hnone
    rw [List.foldl_cons]
    suffices hnext : ∀ next ∈ runs, ∀ op, report.plan[next.index]? = some op →
        op.handle < (r.runOperation report run).channel.slots.length ∧
          (r.runOperation report run).Unsettled op.handle by
      obtain ⟨h1, h2, h3⟩ := ih hstep hnodup hnext
      refine ⟨h1, h2.trans hclears, ?_⟩
      rw [h3, hsettled, hclears, List.filterMap_cons, List.append_assoc]
      cases settledByRun report r.clears run <;> rfl
    · intro next hnext op hop
      obtain ⟨hlt, hnone⟩ := hready next (List.mem_cons_of_mem _ hnext) op hop
      refine ⟨hlen ▸ hlt, fun s hs he => ?_⟩
      rw [hsettled] at hs
      rw [hclears] at he
      rcases List.mem_append.1 hs with hs | hs
      · exact hnone s hs he
      · -- another index of the plan has another handle
        intro heq
        unfold settledByRun at hs
        cases hop' : report.plan[run.index]? with
        | none => simp [hop'] at hs
        | some op' =>
          cases hresult : run.result with
          | none => simp [hop', hresult] at hs
          | some result =>
            simp only [hop', hresult, Option.toList_some, List.mem_singleton] at hs
            subst hs
            have hij := hh.plan_inj hop' hop heq
            refine hfresh ?_
            show run.index ∈ _
            rw [hij]
            exact List.mem_map_of_mem hnext

/-! ### Runs -/

/-- The phase of a call. -/
def phaseOf : ChannelOp T → Option ExecutionPhase
  | .executePhase _ phase _ => some phase
  | _ => none

/-- The call records rejections. -/
def isRecord : ChannelOp T → Bool
  | .recordPlanCompletions => true
  | _ => false

/-- **The calls that the owner may make**: rejections are recorded once, and phases of the plan are
executed once, with each of their operations at most once. -/
structure CallsOnce (p : ExecutionPhasePlan) (ops : List (ChannelOp T)) : Prop where
  /-- Rejections are recorded once. -/
  record : ops.countP isRecord ≤ 1
  /-- No phase is executed twice. -/
  phases : (ops.filterMap phaseOf).Nodup
  /-- Phases are of the plan. -/
  phase_mem : ∀ phase ∈ ops.filterMap phaseOf, phase ∈ p.phases
  /-- An executor runs operations of the phase, none twice. -/
  runs : ∀ policy phase runs, ChannelOp.executePhase policy phase runs ∈ ops →
    (runs.map (·.index)).Nodup ∧ ∀ run ∈ runs, phase.Covers run.index

omit [Inhabited T] in
theorem CallsOnce.init {ops : List (ChannelOp T)} {op : ChannelOp T}
    (h : CallsOnce p (ops ++ [op])) : CallsOnce p ops := by
  refine ⟨?_, ?_, fun phase hp => h.phase_mem phase ?_, fun policy phase runs hmem =>
    h.runs policy phase runs (List.mem_append_left _ hmem)⟩
  · have := h.record
    rw [List.countP_append] at this
    omega
  · have := h.phases
    rw [List.filterMap_append] at this
    exact (List.nodup_append.1 this).1
  · rw [List.filterMap_append]
    exact List.mem_append_left _ hp

/-- Where a settled operation comes from. -/
def Source (report : ExecutionReport M) (ops : List (ChannelOp T)) (h : ℕ) : Prop :=
  (0 < ops.countP isRecord ∧
    ∃ rep ∈ report.operations, rep.status ≠ .planned ∧ rep.handle = h) ∨
  ∃ phase ∈ ops.filterMap phaseOf, ∃ i op, phase.Covers i ∧
    report.plan[i]? = some op ∧ op.handle = h

omit [Inhabited T] in
theorem Source.append {ops : List (ChannelOp T)} (hs : Source report ops h) (op : ChannelOp T) :
    Source report (ops ++ [op]) h := by
  rcases hs with ⟨hpos, hrep⟩ | ⟨phase, hp, hrest⟩
  · refine .inl ⟨?_, hrep⟩
    rw [List.countP_append]
    omega
  · refine .inr ⟨phase, ?_, hrest⟩
    rw [List.filterMap_append]
    exact List.mem_append_left _ hp

theorem mem_phaseOperations {plan : List (PlannedOperation M)} {phase : ExecutionPhase}
    {op : PlannedOperation M} (hop : op ∈ phaseOperations plan phase) :
    ∃ i, phase.Covers i ∧ plan[i]? = some op := by
  unfold phaseOperations at hop
  obtain ⟨k, hk⟩ := List.mem_iff_getElem?.1 hop
  rw [List.getElem?_take, List.getElem?_drop] at hk
  split at hk
  · next hlt => exact ⟨_, ⟨Nat.le_add_right _ _, by omega⟩, hk⟩
  · cases hk

/-- **A call settles what it should.** -/
theorem step_settled (hh : PlanHandles report) (hr : r.Inv []) {ops : List (ChannelOp T)}
    (hphases : ∃ n, Consecutive 0 p.phases n) {op : ChannelOp T}
    (hops : CallsOnce p (ops ++ [op])) (hsource : ∀ s ∈ r.settled, Source report ops s.handle) :
    (r.step stamp report op).Inv [] ∧
      (r.step stamp report op).settled = r.settled ++ settledBy stamp report r.clears op := by
  cases op with
  | recordPlanCompletions =>
    have hspec := foldl_failPlanned (r := r)
      (report.operations.filter fun op => op.status ≠ .planned) hr (fun op hop => by simpa using
        (List.mem_filter.1 hop).2) (hh.nodup.sublist (List.filter_sublist.map _)) ?_
    · exact ⟨hspec.1, foldl_failPlanned_settled _ _⟩
    · intro op hop s hs he heq
      obtain ⟨hop, hstatus⟩ := List.mem_filter.1 hop
      rcases hsource s hs with ⟨hpos, -⟩ | ⟨phase, -, i, o, -, ho, hhandle⟩
      · have := hops.record
        rw [List.countP_append, List.countP_singleton] at this
        simp only [isRecord, if_true] at this
        omega
      · exact hh.rejected_ne hop (by simpa using hstatus) (List.mem_of_getElem? ho)
          (hhandle.trans heq)
  | executePhase policy phase runs =>
    obtain ⟨hnodup, hcovers⟩ := hops.runs policy phase runs (by simp)
    obtain ⟨n, hcons⟩ := hphases
    have hp : phase ∈ p.phases := hops.phase_mem phase (by simp [phaseOf])
    have hfresh : phase ∉ ops.filterMap phaseOf := by
      have := hops.phases
      rw [List.filterMap_append] at this
      intro hmem
      exact (List.nodup_append.1 this).2.2 phase hmem phase (by simp [phaseOf]) rfl
    -- the phase was not executed before, and no other has its operations
    have hunsettled (i : ℕ) (o : PlannedOperation M) (hi : phase.Covers i)
        (ho : report.plan[i]? = some o) : r.Unsettled o.handle := by
      intro s hs he heq
      rcases hsource s hs with ⟨-, rep, hrep, hstatus, hhandle⟩ | ⟨q, hq, j, o', hj, ho', hhandle⟩
      · exact hh.rejected_ne hrep hstatus (List.mem_of_getElem? ho) (hhandle.trans heq).symm
      · obtain rfl := hh.plan_inj ho' ho (hhandle.trans heq)
        have hq' : q ∈ p.phases := hops.init.phase_mem q hq
        exact hfresh (hcons.covers_inj hq' hp hj hi ▸ hq)
    show (r.executePhase stamp report policy phase runs).Inv [] ∧
      (r.executePhase stamp report policy phase runs).settled = r.settled ++
        if phaseValidationStatus stamp report.plan policy phase ≠ .executed then []
        else runs.filterMap (settledByRun report r.clears)
    unfold executePhase
    by_cases hvalid : phaseValidationStatus stamp report.plan policy phase ≠ .executed
    · rw [if_pos hvalid, if_pos hvalid]
      exact ⟨hr, (List.append_nil _).symm⟩
    · rw [if_neg hvalid, if_neg hvalid]
      obtain ⟨hinv, -, hlen⟩ := foldl_prepare (phaseOperations report.plan phase) r.channel hr
        fun o ho => by
          obtain ⟨i, hi, hget⟩ := mem_phaseOperations ho
          exact hunsettled i o hi hget
      obtain ⟨h1, -, h3⟩ := foldl_runOperation hh runs hinv hnodup fun run hrun o ho => by
        refine ⟨hlen o ?_, hunsettled run.index o (hcovers run hrun) ho⟩
        obtain ⟨hle, hlt⟩ := hcovers run hrun
        refine List.mem_iff_getElem?.2 ⟨run.index - phase.firstOperation, ?_⟩
        unfold phaseOperations
        rw [List.getElem?_take, if_pos (by omega), List.getElem?_drop, Nat.add_sub_cancel' hle]
        exact ho
      exact ⟨h1, h3⟩
  | drain visitor =>
    have hspec := drain_spec visitor hr
    exact ⟨hspec.inv, hspec.later.settled.trans (List.append_nil _).symm⟩
  | clear => exact ⟨hr.clear, (List.append_nil _).symm⟩

omit [Inhabited T] in
/-- What a call settles has its source there. -/
theorem source_of_settledBy {ops : List (ChannelOp T)} {op : ChannelOp T} {epoch : ℕ}
    (hops : CallsOnce p (ops ++ [op])) {s : SettledOperation T}
    (hs : s ∈ settledBy stamp report epoch op) : Source report (ops ++ [op]) s.handle := by
  cases op with
  | recordPlanCompletions =>
    obtain ⟨rep, hrep, rfl⟩ := List.mem_map.1 hs
    obtain ⟨hrep, hstatus⟩ := List.mem_filter.1 hrep
    refine .inl ⟨?_, rep, hrep, by simpa using hstatus, rfl⟩
    rw [List.countP_append, List.countP_singleton]
    exact Nat.add_pos_right _ Nat.one_pos
  | executePhase policy phase runs =>
    change s ∈ if phaseValidationStatus stamp report.plan policy phase ≠ .executed then []
      else runs.filterMap (settledByRun report epoch) at hs
    by_cases hvalid : phaseValidationStatus stamp report.plan policy phase ≠ .executed
    · rw [if_pos hvalid] at hs
      cases hs
    · rw [if_neg hvalid] at hs
      obtain ⟨run, hrun, hsome⟩ := List.mem_filterMap.1 hs
      obtain ⟨-, hcovers⟩ := hops.runs policy phase runs (by simp)
      refine .inr ⟨phase, by simp [phaseOf], run.index, ?_⟩
      unfold settledByRun at hsome
      cases hop : report.plan[run.index]? with
      | none => simp [hop] at hsome
      | some op =>
        cases hresult : run.result with
        | none => simp [hop, hresult] at hsome
        | some result =>
          simp only [hop, hresult, Option.some.injEq] at hsome
          exact ⟨op, hcovers run hrun, rfl, hsome ▸ rfl⟩
  | drain visitor => cases hs
  | clear => cases hs

omit [Inhabited T] in
theorem inv_start : ({} : ChannelRun T).Inv [] where
  generation := rfl
  drain_lt v hv := by cases hv
  ordered := .nil
  once e h := by simp [returnedCount]
  flags h := by simp [returnedCount, drained]
  epochs s hs := by cases hs
  busy_epochs q hq := by cases hq
  holds :=
    { slot_of_settled := fun s hs => by cases hs
      settled_of_slot := fun h slot hslot => by cases hslot
      unsettled := fun h slot hslot => by cases hslot }
  visit_settled v hv := by cases hv
  value_iff s hs := by cases hs

/-- **The invariant along a run.** -/
theorem run_inv (hh : PlanHandles report) (hphases : ∃ n, Consecutive 0 p.phases n)
    (ops : List (ChannelOp T)) (hops : CallsOnce p ops) :
    (run stamp report ops {}).Inv [] ∧
      ∀ s ∈ (run stamp report ops {}).settled, Source report ops s.handle := by
  induction ops using List.reverseRecOn with
  | nil => exact ⟨inv_start, fun s hs => by cases hs⟩
  | append_singleton ops op ih =>
    obtain ⟨hinv, hsource⟩ := ih hops.init
    obtain ⟨hinv', hsettled⟩ := @step_settled _ _ _ _ stamp _ _ hh hinv _ hphases _ hops hsource
    have hrun : run stamp report (ops ++ [op]) {} = (run stamp report ops {}).step stamp report op := by
      unfold run
      rw [List.foldl_append]
      rfl
    rw [hrun]
    refine ⟨hinv', fun s hs => ?_⟩
    rw [hsettled] at hs
    rcases List.mem_append.1 hs with hs | hs
    · exact (hsource s hs).append op
    · exact source_of_settledBy hops hs

end ChannelRun

/-! ### Deliveries -/

section Deliveries

open ChannelRun

variable [Inhabited T]

/-- **Deliveries of a planned batch**, at any point of a run:

* a call settles the operations that it rejects, or that it executes without an exception;
* a visitor gets settled operations only, with their completions, and a value if and only if the
  operation executed;
* no operation is delivered twice between clears, and a drain goes up in handles;
* what is not settled has no completion and is neither ready nor failed;
* after a drain that ends without a clear, every settled operation has been delivered;
* a drain visits each settled operation that was not delivered, also one whose visitor threw, unless
  a visitor clears the channel or throws at an operation before it. -/
theorem result_channel_delivery (world : OpsWorld) (batch : List (QueuedOperation M))
    (report₀ report : ExecutionReport M) (p : ExecutionPhasePlan) (stamp : PlannedWorldStamp)
    (hplan : planOperations world batch report₀ = some report)
    (hphases : planParallelExecutionPhases report.plan = some p)
    (ops : List (ChannelOp T)) (hops : CallsOnce p ops) :
    let r := run stamp report ops {}
    (∀ op, CallsOnce p (ops ++ [op]) →
      (r.step stamp report op).settled = r.settled ++ settledBy stamp report r.clears op) ∧
    (∀ v ∈ r.visits, ∃ s ∈ r.settled, s.epoch = v.epoch ∧ s.handle = v.handle ∧
      s.completion = v.completion ∧ s.value = v.value) ∧
    (∀ v ∈ r.visits, v.value.isSome ↔ v.completion.ok = true) ∧
    (∀ e h, r.returnedCount e h ≤ 1) ∧
    r.visits.Pairwise (fun a b => a.drain = b.drain → a.handle < b.handle) ∧
    (∀ h, r.Unsettled h → r.channel.completion h = {} ∧ (r.channel.completion h).ok = false ∧
      r.channel.state h ≠ .ready ∧ r.channel.state h ≠ .failed) ∧
    ∀ visitor : Visitor T,
      let d := r.drain visitor
      (d.2.isSome → d.1.clears = r.clears →
        ∀ s ∈ r.settled, s.epoch = r.clears → d.1.returnedCount s.epoch s.handle = 1) ∧
      ∀ s ∈ r.settled, s.epoch = r.clears → r.returnedCount s.epoch s.handle = 0 →
        Reaches r.drains s.handle r d := by
  intro r
  have hh := planOperations_handles hplan
  have hfollows := planParallelExecutionPhases_follows hphases
  obtain ⟨hr, hsource⟩ := @run_inv _ _ _ stamp _ _ hh hfollows ops hops
  refine ⟨fun op hop => (step_settled hh hr hfollows hop hsource).2, hr.visit_settled,
    fun v hv => ?_, fun e h => ?_, hr.ordered, fun h hnone => ?_, fun visitor => ?_⟩
  · obtain ⟨s, hs, -, -, hcompletion, hvalue⟩ := hr.visit_settled v hv
    rw [← hcompletion, ← hvalue]
    exact hr.value_iff s hs
  · exact Nat.le_of_add_right_le (hr.once e h)
  · have hunset (slot : ResultSlot T) (hslot : r.channel.slots[h]? = some slot) :
        ¬ slot.Settled := fun hset => by
      obtain ⟨s, hs, he, rfl⟩ := hr.holds.settled_of_slot h slot hslot hset
      exact hnone s hs he rfl
    unfold ResultChannel.completion ResultChannel.state
    cases hslot : r.channel.slots[h]? with
    | none => exact ⟨rfl, rfl, by simp, by simp⟩
    | some slot =>
      have hnot := hunset slot hslot
      have hcompletion := hr.holds.unsettled h slot hslot hnot
      refine ⟨hcompletion, ?_, fun h => hnot (.inl h), fun h => hnot (.inr h)⟩
      show slot.completion.ok = false
      rw [hcompletion]
      rfl
  · have hspec := drain_spec visitor hr
    refine ⟨fun hend hc s hs he => ?_, fun s hs he hcount => ?_⟩
    · have hs' : s ∈ (r.drain visitor).1.settled := hspec.later.settled ▸ hs
      obtain ⟨slot, hslot, hholds⟩ := hspec.inv.holds.slot_of_settled s hs' (he.trans hc.symm)
      have hdrained := hspec.passed hend hc s.handle slot (Nat.zero_le _) hslot hholds.settled
      have hflag := (hspec.inv.flags s.handle).1 ((drained_of_slot hslot).trans hdrained)
      have honce := hspec.inv.once s.epoch s.handle
      rw [hc, ← he] at hflag
      exact Nat.le_antisymm honce hflag
    · obtain ⟨slot, hslot, hholds⟩ := hr.holds.slot_of_settled s hs he
      refine hspec.reaches s.handle slot (Nat.zero_le _) hslot hholds.settled ?_
      have hflag := (hr.flags s.handle).not.2 (by rw [← he, hcount]; simp)
      rw [drained_of_slot hslot] at hflag
      simpa using hflag

/-! ### A drain that stops early -/

/-- A world of one chunk. -/
def mixedWorld : OpsWorld := { stamp := ⟨0, 1⟩ }

theorem ascending_nil : ([] : List ℕ).Pairwise (· < ·) := .nil

/-- No chunks. -/
def noChunks : DomainDesc :=
  { kind := .explicitChunks, explicitChunks := { keys := [], ascending := ascending_nil } }

/-- An operation that is accepted, and one of an unknown policy. -/
def mixedBatch : List (QueuedOperation Unit) :=
  [{ handle := 0, id := 0, domain := noChunks, fieldAccess := {}
     writePolicy := .readOnly, intent := () },
   { handle := 1, id := 1, domain := noChunks, fieldAccess := {}
     writePolicy := .other 9, intent := () }]

/-- Its plan. -/
def mixedReport : ExecutionReport Unit := (planOperations mixedWorld mixedBatch {}).getD {}

/-- A visitor that throws. -/
def throwing : Visitor ℕ := fun _ _ _ => .throws

/-- The rejection is drained before the other operation is executed. -/
def mixedCalls : List (ChannelOp ℕ) :=
  [.recordPlanCompletions, .drain throwing,
    .executePhase .readOnly ⟨0, 1, 1⟩ [⟨0, 5, some ⟨.executed, 0⟩⟩]]

theorem planOperations_mixed : planOperations mixedWorld mixedBatch {} = some mixedReport := rfl

/-- The plan and the runs on the mixed batch, evaluated. -/
theorem evaluated_mixed :
    planParallelExecutionPhases mixedReport.plan = some { phases := [⟨0, 1, 1⟩] } ∧
    (run mixedWorld.stamp mixedReport mixedCalls {}).settled =
      [⟨0, 1,
        { status := .invalidWritePolicy, failure := .invalidWritePolicyValue, completed := true },
        none⟩, ⟨0, 0, { completed := true }, some 5⟩] ∧
    ((run mixedWorld.stamp mixedReport mixedCalls {}).visits.map
        fun v => (v.drain, v.epoch, v.handle, v.returned)) = [(0, 0, 1, false)] ∧
    (((run mixedWorld.stamp mixedReport mixedCalls {}).drain throwing).1.visits.map
        fun v => (v.drain, v.epoch, v.handle, v.returned)) =
      [(0, 0, 1, false), (1, 0, 0, false)] ∧
    ((run mixedWorld.stamp mixedReport mixedCalls {}).drain throwing).1.clears = 0 ∧
    ((run mixedWorld.stamp mixedReport mixedCalls {}).drain
      fun _ _ _ => .returns).2.isSome = true ∧
    ((run mixedWorld.stamp mixedReport mixedCalls {}).drain fun _ _ _ => .returns).1.clears =
      (run mixedWorld.stamp mixedReport mixedCalls {}).clears ∧
    (run mixedWorld.stamp mixedReport mixedCalls {}).clears = 0 := by
  decide +kernel

theorem phases_mixed :
    planParallelExecutionPhases mixedReport.plan = some { phases := [⟨0, 1, 1⟩] } :=
  evaluated_mixed.1

omit [Inhabited T] in
theorem callsOnce_mixed : CallsOnce { phases := [⟨0, 1, 1⟩] } mixedCalls := by
  refine ⟨by decide, by decide, by decide, fun policy phase runs hmem => ?_⟩
  simp only [mixedCalls, List.mem_cons, reduceCtorEq, ChannelOp.executePhase.injEq,
    List.not_mem_nil, or_false, false_or] at hmem
  obtain ⟨-, rfl, rfl⟩ := hmem
  refine ⟨by simp, fun run hrun => ?_⟩
  rw [List.mem_singleton.1 hrun]
  exact ⟨le_rfl, Nat.one_pos⟩

/-- **An operation whose visitor threw is not visited by the next drain**, when that drain ends
with an exception at a lower handle. -/
theorem thrown_operation_waits :
    planOperations mixedWorld mixedBatch {} = some mixedReport ∧
    planParallelExecutionPhases mixedReport.plan = some { phases := [⟨0, 1, 1⟩] } ∧
    CallsOnce { phases := [⟨0, 1, 1⟩] } mixedCalls ∧
    (run mixedWorld.stamp mixedReport mixedCalls {}).visits.map
      (fun v => (v.drain, v.epoch, v.handle, v.returned)) = [(0, 0, 1, false)] ∧
    ((run mixedWorld.stamp mixedReport mixedCalls {}).drain throwing).1.visits.map
      (fun v => (v.drain, v.epoch, v.handle, v.returned)) =
        [(0, 0, 1, false), (1, 0, 0, false)] ∧
    ((run mixedWorld.stamp mixedReport mixedCalls {}).drain throwing).1.clears = 0 :=
  ⟨planOperations_mixed, phases_mixed, callsOnce_mixed, evaluated_mixed.2.2.1,
    evaluated_mixed.2.2.2.1, evaluated_mixed.2.2.2.2.1⟩

/-- After a drain without exceptions, both operations are delivered. -/
theorem result_channel_delivery_mixed :
    ((run mixedWorld.stamp mixedReport mixedCalls {}).drain fun _ _ _ => .returns).1.returnedCount
      0 0 = 1 ∧
    ((run mixedWorld.stamp mixedReport mixedCalls {}).drain fun _ _ _ => .returns).1.returnedCount
      0 1 = 1 := by
  have hdelivery := (result_channel_delivery mixedWorld mixedBatch {} mixedReport _ mixedWorld.stamp
    planOperations_mixed phases_mixed mixedCalls callsOnce_mixed).2.2.2.2.2.2 fun _ _ _ => .returns
  obtain ⟨-, hsettled, -, -, -, hdone, hclears, hzero⟩ := evaluated_mixed
  have hall := hdelivery.1 hdone hclears
  rw [hsettled] at hall
  exact ⟨hall ⟨0, 0, { completed := true }, some 5⟩ (by simp) hzero.symm,
    hall _ List.mem_cons_self hzero.symm⟩

end Deliveries

end Tess
