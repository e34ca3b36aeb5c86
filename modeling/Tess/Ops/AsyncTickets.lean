import Tess.Ops.AsyncWork
import Mathlib.Logic.Function.Iterate

/-!
# Tickets of the resumable work queue

What a ticket shows is the state of the slot that it names.  Every operation moves it in the ways
that the queue documents, and a clear retires it.

* `ResumableWorkQueue.TicketMove` : how an operation may move the state that a ticket shows;
* `ResumableWorkQueue.Valid` : the invariant between operations;
* `async_queue_runs` : **tickets over every run**: how states move, when tickets are retired, what
  an advance commits;
* `async_ticket_returns` : after as many clears as there are generations a ticket is bound again.
-/

namespace Tess

namespace ResumableWorkQueue

variable {W T : Type}

/-! ### What a ticket shows -/

section Tickets

variable {q q' : ResumableWorkQueue W T} {ticket other : AsyncTicket} {slot old : AsyncSlot W T}

theorem state_eq (q : ResumableWorkQueue W T) (ticket : AsyncTicket) :
    q.state ticket =
      if ticket.generation = q.generation then
        (q.slots[ticket.index]?.map AsyncSlot.state).getD .unbound
      else .unbound := by
  unfold state find
  by_cases hgen : ticket.generation = q.generation
  · by_cases hlt : ticket.index < q.slots.length
    · have hnot : ¬ q.slots.length ≤ ticket.index := Nat.not_le.2 hlt
      simp [hgen, hlt, hnot]
    · have hle : q.slots.length ≤ ticket.index := Nat.not_lt.1 hlt
      simp [hgen, hle]
  · simp [hgen]

theorem state_of_find (h : q.find ticket = some slot) : q.state ticket = slot.state := by
  unfold state
  rw [h]

/-- A ticket that names a slot has the generation of the queue. -/
theorem of_find (h : q.find ticket = some slot) :
    ticket.generation = q.generation ∧ q.slots[ticket.index]? = some slot := by
  unfold find at h
  split_ifs at h with hcond
  push Not at hcond
  exact ⟨hcond.1, h⟩

/-- **A result is there** exactly for immediate and ready tickets. -/
theorem result_isSome (q : ResumableWorkQueue W T) (ticket : AsyncTicket) :
    (q.result ticket).isSome ↔ q.state ticket = .immediate ∨ q.state ticket = .ready := by
  unfold result state
  cases q.find ticket with
  | none => simp
  | some slot =>
    by_cases h : slot.state ≠ .immediate ∧ slot.state ≠ .ready
    · simp [h]
    · have h' : slot.state = .immediate ∨ slot.state = .ready := by tauto
      simp [h, h']

/-- Only the slots and the generation decide what a ticket shows. -/
theorem state_congr (hgen : q'.generation = q.generation) (hslots : q'.slots = q.slots) :
    q'.state ticket = q.state ticket := by
  rw [state_eq, state_eq, hgen, hslots]

/-- A new slot is shown by one ticket, which named nothing before. -/
theorem state_append (hgen : q'.generation = q.generation)
    (hslots : q'.slots = q.slots ++ [slot]) :
    q'.state ticket = q.state ticket ∨ ticket = ⟨q.slots.length, q.generation⟩ ∧
      q.state ticket = .unbound ∧ q'.state ticket = slot.state := by
  rw [state_eq, state_eq, hgen, hslots]
  by_cases hg : ticket.generation = q.generation
  · rw [if_pos hg, if_pos hg]
    rcases Nat.lt_trichotomy ticket.index q.slots.length with hlt | heq | hgt
    · exact .inl (by rw [List.getElem?_append_left hlt])
    · refine .inr ⟨?_, ?_, ?_⟩
      · obtain ⟨index, generation⟩ := ticket
        simp_all
      · simp [heq]
      · simp [heq]
    · refine .inl ?_
      rw [List.getElem?_eq_none (by simpa using Nat.succ_le_of_lt hgt),
        List.getElem?_eq_none hgt.le]
  · exact .inl (by rw [if_neg hg, if_neg hg])

/-- A change of one slot is shown by its ticket alone. -/
theorem state_setSlot (hfind : q.find ticket = some old) (hgen : q'.generation = q.generation)
    (hslots : q'.slots = q.slots.set ticket.index slot) :
    q'.state other = if other = ticket then slot.state else q.state other := by
  obtain ⟨hg, hget⟩ := of_find hfind
  have hlt : ticket.index < q.slots.length := (List.getElem?_eq_some_iff.1 hget).1
  rw [state_eq, state_eq, hgen, hslots]
  by_cases hother : other = ticket
  · subst hother
    simp [hg, hlt]
  · rw [if_neg hother]
    by_cases hgo : other.generation = q.generation
    · have hne : ticket.index ≠ other.index := by
        intro hidx
        apply hother
        obtain ⟨i, g⟩ := other
        obtain ⟨j, k⟩ := ticket
        simp_all
      rw [if_pos hgo, if_pos hgo, List.getElem?_set_ne hne]
    · rw [if_neg hgo, if_neg hgo]

end Tickets

/-- **How an operation may move** the state that a ticket shows. -/
inductive TicketMove (q : ResumableWorkQueue W T) (ticket : AsyncTicket) :
    AsyncOp W T → AsyncResultState → AsyncResultState → Prop
  /-- It stays, under any operation but a clear. -/
  | stay (op : AsyncOp W T) (st : AsyncResultState) (hop : op ≠ .clear) :
      TicketMove q ticket op st st
  /-- The new ticket of a submission. -/
  | submit (work : Option W) (version : AsyncVersion)
      (hnew : ticket = ⟨q.slots.length, q.generation⟩) :
      TicketMove q ticket (.submit work version) .unbound .pending
  /-- The new ticket of an immediate result. -/
  | submitImmediate (value : T) (version : AsyncVersion)
      (hnew : ticket = ⟨q.slots.length, q.generation⟩) :
      TicketMove q ticket (.submitImmediate value version) .unbound .immediate
  /-- An advance settles a pending slot. -/
  | advance (maxItems : BitVec 32) (call : Continuations W T) (st : AsyncResultState)
      (hst : st = .ready ∨ st = .failed ∨ st = .stale) :
      TicketMove q ticket (.advance maxItems call) .pending st
  /-- A pending ticket is cancelled. -/
  | cancel : TicketMove q ticket (.cancel ticket) .pending .cancelled
  /-- A pending ticket is superseded. -/
  | supersede : TicketMove q ticket (.supersede ticket) .pending .superseded
  /-- A pending ticket is failed. -/
  | fail : TicketMove q ticket (.fail ticket) .pending .failed
  /-- A pending ticket is marked stale. -/
  | markStale : TicketMove q ticket (.markStale ticket) .pending .stale
  /-- A result of another version than the current one goes stale. -/
  | markStaleIfVersion (current : AsyncVersion) (st : AsyncResultState)
      (hst : st = .immediate ∨ st = .ready) (hversion : q.resultVersion ticket ≠ current) :
      TicketMove q ticket (.markStaleIfVersion ticket current) st .stale
  /-- A clear retires every ticket. -/
  | clear (st : AsyncResultState) : TicketMove q ticket .clear st .unbound

/-! ### Queues that runs reach -/

/-- **The invariant** between operations. -/
structure Valid (q : ResumableWorkQueue W T) : Prop where
  /-- No advance runs. -/
  idle : q.inAdvance = false
  /-- Generation zero is left out. -/
  generation_pos : 0 < q.generation
  /-- The generation fits its type. -/
  generation_lt : q.generation < 2 ^ 64
  /-- A pending slot has a continuation. -/
  work : ∀ slot ∈ q.slots, slot.state = .pending → slot.work ≠ none

theorem settle_work (c : AdvanceCall T) (slot : AsyncSlot W T) :
    (c.settle slot).work = slot.work := by
  unfold AdvanceCall.settle
  cases c.outcome with
  | returned step value =>
    dsimp only
    split_ifs <;> rfl
  | threw value => rfl
  | mutated => rfl

/-- A call leaves its slot pending or settles it. -/
theorem settle_state (c : AdvanceCall T) (slot : AsyncSlot W T) (h : slot.state = .pending) :
    (c.settle slot).state = .pending ∨ (c.settle slot).state = .ready ∨
      (c.settle slot).state = .failed ∨ (c.settle slot).state = .stale := by
  unfold AdvanceCall.settle
  cases c.outcome with
  | returned step value =>
    dsimp only
    split_ifs
    · simp
    · cases step.state <;> simp [AsyncStepState.toResult]
  | threw value => exact .inl h
  | mutated => exact .inl h

section Steps

variable {q q' : ResumableWorkQueue W T} {ticket other : AsyncTicket}

/-- What `advance` returns, as a run of its loop. -/
theorem advance_spec {maxItems : BitVec 32} {call : Continuations W T} {a : AdvanceResult W T}
    (h : q.advance maxItems call = some a) :
    Advanced call 0 maxItems.toNat maxItems.toNat q.slots a.queue.slots a.calls a.stats.isNone ∧
      a.queue.generation = q.generation ∧ a.queue.inAdvance = false := by
  unfold advance at h
  split_ifs at h with hidle
  obtain ⟨r, hr, rfl⟩ := Option.map_eq_some_iff.1 h
  have hrun := advanceSlots_spec hr
  refine ⟨?_, rfl, rfl⟩
  have hthrew : (if r.threw then none else some (summarizeStates r.state.stats r.slots)).isNone =
      r.threw := by
    cases r.threw <;> rfl
  dsimp only
  rwa [hthrew]

/-- **An advance returns**, unless a continuation ends the process. -/
theorem advance_isSome (h : q.Valid) (maxItems : BitVec 32) {call : Continuations W T}
    (hcall : ∀ i work offered value, call i work offered value ≠ .mutated) :
    (q.advance maxItems call).isSome := by
  unfold advance
  rw [if_neg (by simp [h.idle]), Option.isSome_map]
  obtain ⟨r, hr⟩ := advanceSlots_isSome hcall h.work
  rw [hr]
  rfl

/-- `set_terminal` does nothing, or moves one pending slot. -/
theorem setTerminal_cases {st : AsyncResultState} {b : Bool}
    (h : q.setTerminal ticket st = some (b, q')) :
    b = false ∧ q' = q ∨ b = true ∧ ∃ slot, q.find ticket = some slot ∧ slot.state = .pending ∧
      q'.generation = q.generation ∧ q'.inAdvance = q.inAdvance ∧
      q'.slots = q.slots.set ticket.index { slot with state := st } := by
  unfold setTerminal at h
  split_ifs at h
  split at h
  next => simp_all
  next slot hfind =>
    split_ifs at h with hpending
    · simp_all
    · simp only [Option.some.injEq, Prod.mk.injEq] at h
      obtain ⟨rfl, rfl⟩ := h
      exact .inr ⟨rfl, slot, hfind, by simpa using hpending, rfl, rfl, rfl⟩

/-- `mark_stale_if_version` does nothing, or moves one settled slot of another version. -/
theorem markStaleIfVersion_cases {current : AsyncVersion} {b : Bool}
    (h : q.markStaleIfVersion ticket current = some (b, q')) :
    b = false ∧ q' = q ∨ b = true ∧ ∃ slot, q.find ticket = some slot ∧
      (slot.state = .immediate ∨ slot.state = .ready) ∧ slot.resultVersion ≠ current ∧
      q'.generation = q.generation ∧ q'.inAdvance = q.inAdvance ∧
      q'.slots = q.slots.set ticket.index { slot with state := .stale } := by
  unfold markStaleIfVersion at h
  split_ifs at h
  split at h
  next => simp_all
  next slot hfind =>
    split_ifs at h with hcond
    · simp_all
    · simp only [Option.some.injEq, Prod.mk.injEq] at h
      obtain ⟨rfl, rfl⟩ := h
      have hst : slot.state = .immediate ∨ slot.state = .ready := by tauto
      exact .inr ⟨rfl, slot, hfind, hst, fun hv => hcond (.inr hv), rfl, rfl, rfl⟩

/-- A change of the state of a pending or settled slot keeps the continuations. -/
theorem Valid.of_set {slot : AsyncSlot W T} {st : AsyncResultState} {i : ℕ} (h : q.Valid)
    (hgen : q'.generation = q.generation) (hidle : q'.inAdvance = q.inAdvance)
    (hst : st ≠ .pending) (hslots : q'.slots = q.slots.set i { slot with state := st }) :
    q'.Valid where
  idle := hidle.trans h.idle
  generation_pos := hgen ▸ h.generation_pos
  generation_lt := hgen ▸ h.generation_lt
  work s hs hpending := by
    rw [hslots] at hs
    rcases List.mem_or_eq_of_mem_set hs with hs | rfl
    · exact h.work s hs hpending
    · exact absurd hpending hst

theorem Valid.setTerminal {st : AsyncResultState} {b : Bool} (h : q.Valid) (hst : st ≠ .pending)
    (hstep : q.setTerminal ticket st = some (b, q')) : q'.Valid := by
  rcases setTerminal_cases hstep with ⟨-, rfl⟩ | ⟨-, slot, -, -, hgen, hidle, hslots⟩
  · exact h
  · exact h.of_set hgen hidle hst hslots

theorem Valid.markStaleIfVersion {current : AsyncVersion} {b : Bool} (h : q.Valid)
    (hstep : q.markStaleIfVersion ticket current = some (b, q')) : q'.Valid := by
  rcases markStaleIfVersion_cases hstep with ⟨-, rfl⟩ | ⟨-, slot, -, -, -, hgen, hidle, hslots⟩
  · exact h
  · exact h.of_set hgen hidle (by simp) hslots

/-- A new slot keeps the invariant when it has a continuation or is not pending. -/
theorem Valid.of_append {slot : AsyncSlot W T} (h : q.Valid)
    (hgen : q'.generation = q.generation) (hidle : q'.inAdvance = q.inAdvance)
    (hwork : slot.state = .pending → slot.work ≠ none) (hslots : q'.slots = q.slots ++ [slot]) :
    q'.Valid where
  idle := hidle.trans h.idle
  generation_pos := hgen ▸ h.generation_pos
  generation_lt := hgen ▸ h.generation_lt
  work s hs hpending := by
    rw [hslots] at hs
    rcases List.mem_append.1 hs with hs | hs
    · exact h.work s hs hpending
    · rw [List.mem_singleton.1 hs] at hpending ⊢
      exact hwork hpending

theorem submit_spec [Inhabited T] {work : Option W} {version : AsyncVersion}
    (h : q.submit work version = some (ticket, q')) :
    ticket = ⟨q.slots.length, q.generation⟩ ∧ q'.generation = q.generation ∧
      q'.inAdvance = q.inAdvance ∧
      ∃ slot, slot.state = .pending ∧ slot.work ≠ none ∧ q'.slots = q.slots ++ [slot] := by
  unfold submit at h
  cases work with
  | none => simp at h
  | some work =>
    dsimp only at h
    split_ifs at h
    simp only [Option.some.injEq, Prod.mk.injEq] at h
    obtain ⟨rfl, rfl⟩ := h
    exact ⟨rfl, rfl, rfl, _, rfl, by simp, rfl⟩

theorem submitImmediate_spec {value : T} {version : AsyncVersion}
    (h : q.submitImmediate value version = some (ticket, q')) :
    ticket = ⟨q.slots.length, q.generation⟩ ∧ q'.generation = q.generation ∧
      q'.inAdvance = q.inAdvance ∧
      ∃ slot, slot.state = .immediate ∧ slot.value = value ∧ q'.slots = q.slots ++ [slot] := by
  unfold submitImmediate at h
  split_ifs at h
  simp only [Option.some.injEq, Prod.mk.injEq] at h
  obtain ⟨rfl, rfl⟩ := h
  exact ⟨rfl, rfl, rfl, _, rfl, rfl, rfl⟩

/-- An advance leaves a slot without a call alone and settles one with a call. -/
theorem Valid.advance {maxItems : BitVec 32} {call : Continuations W T} {a : AdvanceResult W T}
    (h : q.Valid) (hstep : q.advance maxItems call = some a) : a.queue.Valid := by
  obtain ⟨hadv, hgen, hidle⟩ := advance_spec hstep
  refine ⟨hidle, hgen ▸ h.generation_pos, hgen ▸ h.generation_lt, fun slot' hslot' hpending => ?_⟩
  obtain ⟨j, hj, rfl⟩ := List.getElem_of_mem hslot'
  have hlt : j < q.slots.length := hadv.length ▸ hj
  obtain ⟨slot₁, hslot₁, hcases⟩ := hadv.settled j q.slots[j] (List.getElem?_eq_getElem hlt)
  rw [List.getElem?_eq_getElem hj, Option.some.injEq] at hslot₁
  rw [hslot₁] at hpending ⊢
  rcases hcases with ⟨-, rfl⟩ | ⟨c, -, -, ⟨-, work, hwork, -⟩, rfl⟩
  · exact h.work _ (List.getElem_mem hlt) hpending
  · rw [settle_work, hwork]
    simp

/-- An advance moves only pending tickets, each by its call. -/
theorem advance_state {maxItems : BitVec 32} {call : Continuations W T} {a : AdvanceResult W T}
    (hstep : q.advance maxItems call = some a) (ticket : AsyncTicket) :
    a.queue.state ticket = q.state ticket ∨ q.state ticket = .pending ∧
      (a.queue.state ticket = .ready ∨ a.queue.state ticket = .failed ∨
        a.queue.state ticket = .stale) := by
  obtain ⟨hadv, hgen, -⟩ := advance_spec hstep
  rw [state_eq, state_eq, hgen]
  by_cases hg : ticket.generation = q.generation
  · rw [if_pos hg, if_pos hg]
    cases hslot : q.slots[ticket.index]? with
    | none =>
      have hle : q.slots.length ≤ ticket.index := List.getElem?_eq_none_iff.1 hslot
      rw [List.getElem?_eq_none (hadv.length ▸ hle)]
      exact .inl rfl
    | some slot =>
      obtain ⟨slot', hslot', hcases⟩ := hadv.settled _ slot hslot
      rw [hslot', Option.map_some, Option.map_some, Option.getD_some, Option.getD_some]
      rcases hcases with ⟨-, rfl⟩ | ⟨c, -, -, ⟨hpending, -⟩, rfl⟩
      · exact .inl rfl
      · rcases settle_state c slot hpending with hst | hst
        · exact .inl (hst.trans hpending.symm)
        · exact .inr ⟨hpending, hst⟩
  · exact .inl (by rw [if_neg hg, if_neg hg])

theorem nextGeneration_eq {g : ℕ} (hpos : 0 < g) (hlt : g < 2 ^ 64) :
    nextGeneration g = g % (2 ^ 64 - 1) + 1 := by
  unfold nextGeneration
  dsimp only
  split_ifs <;> omega

theorem clear_spec (h : q.clear = some q') :
    q'.slots = [] ∧ q'.generation = nextGeneration q.generation ∧ q'.inAdvance = q.inAdvance := by
  unfold clear at h
  split_ifs at h
  simp only [Option.some.injEq] at h
  subst h
  exact ⟨rfl, rfl, rfl⟩

theorem Valid.clear (h : q.Valid) (hstep : q.clear = some q') : q'.Valid := by
  obtain ⟨hslots, hgen, hidle⟩ := clear_spec hstep
  rw [nextGeneration_eq h.generation_pos h.generation_lt] at hgen
  exact ⟨hidle.trans h.idle, by omega, by omega, fun slot hslot => by simp [hslots] at hslot⟩

/-- Without slots every ticket is unbound. -/
theorem state_nil (h : q.slots = []) (ticket : AsyncTicket) : q.state ticket = .unbound := by
  rw [state_eq, h]
  simp

/-- A setter moves the state of its ticket or nothing. -/
theorem setTerminal_move {st : AsyncResultState} {b : Bool} {op : AsyncOp W T}
    (h : q.setTerminal ticket st = some (b, q')) (hop : op ≠ .clear)
    (hmove : TicketMove q ticket op .pending st) (other : AsyncTicket) :
    TicketMove q other op (q.state other) (q'.state other) := by
  rcases setTerminal_cases h with ⟨-, rfl⟩ | ⟨-, slot, hfind, hpending, hgen, -, hslots⟩
  · exact .stay op _ hop
  · rw [state_setSlot hfind hgen hslots]
    split_ifs with hother
    · rw [hother, state_of_find hfind, hpending]
      exact hmove
    · exact .stay op _ hop

/-- A new attachment changes neither slots nor generation. -/
theorem setFlowAccounting_spec {accounting : Option FlowAccounting}
    (h : q.setFlowAccounting accounting = some q') :
    q'.slots = q.slots ∧ q'.generation = q.generation ∧ q'.inAdvance = q.inAdvance := by
  unfold setFlowAccounting at h
  split_ifs at h
  rw [← Option.some.inj h]
  exact ⟨rfl, rfl, rfl⟩

/-- A tick changes neither slots nor generation. -/
theorem observeFlowTick_spec {tick : BitVec 64} (h : q.observeFlowTick tick = some q') :
    q'.slots = q.slots ∧ q'.generation = q.generation ∧ q'.inAdvance = q.inAdvance := by
  unfold observeFlowTick at h
  by_cases hidle : q.inAdvance
  · rw [if_pos hidle] at h
    simp at h
  · rw [if_neg hidle] at h
    rw [← Option.some.inj h]
    exact ⟨rfl, rfl, rfl⟩

theorem Valid.congr (h : q.Valid) (hq : q'.slots = q.slots ∧ q'.generation = q.generation ∧
    q'.inAdvance = q.inAdvance) : q'.Valid := by
  obtain ⟨hslots, hgen, hidle⟩ := hq
  exact ⟨hidle.trans h.idle, hgen ▸ h.generation_pos, hgen ▸ h.generation_lt, hslots ▸ h.work⟩

end Steps

variable [Inhabited T] {q q' : ResumableWorkQueue W T}

/-- **One operation keeps the invariant.** -/
theorem Valid.step {op : AsyncOp W T} (h : q.Valid) (hstep : q.step op = some q') : q'.Valid := by
  cases op with
  | submit work version =>
    obtain ⟨⟨ticket, q₁⟩, hsubmit, rfl⟩ := Option.map_eq_some_iff.1 hstep
    obtain ⟨-, hgen, hidle, slot, -, hwork, hslots⟩ := submit_spec hsubmit
    exact h.of_append hgen hidle (fun _ => hwork) hslots
  | submitImmediate value version =>
    obtain ⟨⟨ticket, q₁⟩, hsubmit, rfl⟩ := Option.map_eq_some_iff.1 hstep
    obtain ⟨-, hgen, hidle, slot, hst, -, hslots⟩ := submitImmediate_spec hsubmit
    exact h.of_append hgen hidle (fun hpending => absurd (hst.symm.trans hpending) (by simp)) hslots
  | advance maxItems call =>
    obtain ⟨a, hadv, rfl⟩ := Option.map_eq_some_iff.1 hstep
    exact h.advance hadv
  | cancel ticket | supersede ticket | fail ticket | markStale ticket =>
    obtain ⟨⟨b, q₁⟩, hset, rfl⟩ := Option.map_eq_some_iff.1 hstep
    exact h.setTerminal (by simp) hset
  | markStaleIfVersion ticket current =>
    obtain ⟨⟨b, q₁⟩, hset, rfl⟩ := Option.map_eq_some_iff.1 hstep
    exact h.markStaleIfVersion hset
  | setFlowAccounting accounting => exact h.congr (setFlowAccounting_spec hstep)
  | observeFlowTick tick => exact h.congr (observeFlowTick_spec hstep)
  | clear => exact h.clear hstep

/-- **One operation moves a ticket** only as `TicketMove` allows. -/
theorem step_move {op : AsyncOp W T} (hstep : q.step op = some q') (ticket : AsyncTicket) :
    TicketMove q ticket op (q.state ticket) (q'.state ticket) := by
  cases op with
  | submit work version =>
    obtain ⟨⟨new, q₁⟩, hsubmit, rfl⟩ := Option.map_eq_some_iff.1 hstep
    obtain ⟨-, hgen, -, slot, hst, -, hslots⟩ := submit_spec hsubmit
    rcases @state_append _ _ _ _ ticket _ hgen hslots with heq | ⟨hnew, hold, heq⟩
    · rw [heq]
      exact .stay _ _ (by simp)
    · rw [hold, heq, hst]
      exact .submit work version hnew
  | submitImmediate value version =>
    obtain ⟨⟨new, q₁⟩, hsubmit, rfl⟩ := Option.map_eq_some_iff.1 hstep
    obtain ⟨-, hgen, -, slot, hst, -, hslots⟩ := submitImmediate_spec hsubmit
    rcases @state_append _ _ _ _ ticket _ hgen hslots with heq | ⟨hnew, hold, heq⟩
    · rw [heq]
      exact .stay _ _ (by simp)
    · rw [hold, heq, hst]
      exact .submitImmediate value version hnew
  | advance maxItems call =>
    obtain ⟨a, hadv, rfl⟩ := Option.map_eq_some_iff.1 hstep
    rcases advance_state hadv ticket with heq | ⟨hpending, hst⟩
    · rw [heq]
      exact .stay _ _ (by simp)
    · rw [hpending]
      exact .advance maxItems call _ hst
  | cancel other =>
    obtain ⟨⟨b, q₁⟩, hset, rfl⟩ := Option.map_eq_some_iff.1 hstep
    exact setTerminal_move hset (by simp) .cancel ticket
  | supersede other =>
    obtain ⟨⟨b, q₁⟩, hset, rfl⟩ := Option.map_eq_some_iff.1 hstep
    exact setTerminal_move hset (by simp) .supersede ticket
  | fail other =>
    obtain ⟨⟨b, q₁⟩, hset, rfl⟩ := Option.map_eq_some_iff.1 hstep
    exact setTerminal_move hset (by simp) .fail ticket
  | markStale other =>
    obtain ⟨⟨b, q₁⟩, hset, rfl⟩ := Option.map_eq_some_iff.1 hstep
    exact setTerminal_move hset (by simp) .markStale ticket
  | markStaleIfVersion other current =>
    obtain ⟨⟨b, q₁⟩, hset, rfl⟩ := Option.map_eq_some_iff.1 hstep
    rcases markStaleIfVersion_cases hset with ⟨-, rfl⟩ | ⟨-, slot, hfind, hst, hv, hgen, -, hslots⟩
    · exact .stay _ _ (by simp)
    · rw [state_setSlot hfind hgen hslots]
      split_ifs with hother
      · subst hother
        rw [state_of_find hfind]
        refine .markStaleIfVersion current _ hst ?_
        rw [resultVersion, hfind]
        exact hv
      · exact .stay _ _ (by simp)
  | setFlowAccounting accounting =>
    obtain ⟨hslots, hgen, -⟩ := setFlowAccounting_spec hstep
    rw [state_congr hgen hslots]
    exact .stay _ _ (by simp)
  | observeFlowTick tick =>
    obtain ⟨hslots, hgen, -⟩ := observeFlowTick_spec hstep
    rw [state_congr hgen hslots]
    exact .stay _ _ (by simp)
  | clear =>
    rw [state_nil (clear_spec hstep).1]
    exact .clear _

/-! ### Runs -/

@[simp] theorem run_nil : q.run [] = some q := rfl

@[simp] theorem run_cons (op : AsyncOp W T) (ops : List (AsyncOp W T)) :
    q.run (op :: ops) = (q.step op).bind fun q => q.run ops := rfl

theorem run_append (ops ops' : List (AsyncOp W T)) :
    q.run (ops ++ ops') = (q.run ops).bind fun q => q.run ops' := by
  induction ops generalizing q with
  | nil => rfl
  | cons op ops ih =>
    rw [List.cons_append, run_cons, run_cons, Option.bind_assoc]
    exact congrArg (Option.bind (q.step op)) (funext fun q => ih)

/-- **Every run keeps the invariant.** -/
theorem Valid.run {ops : List (AsyncOp W T)} (h : q.Valid) (hrun : q.run ops = some q') :
    q'.Valid := by
  induction ops generalizing q with
  | nil =>
    rw [run_nil, Option.some.injEq] at hrun
    exact hrun ▸ h
  | cons op ops ih =>
    obtain ⟨q₁, hstep, hrest⟩ := Option.bind_eq_some_iff.1 hrun
    exact ih (h.step hstep) hrest

/-- Only a clear moves the generation. -/
theorem step_generation {op : AsyncOp W T} (hstep : q.step op = some q') :
    q'.generation = nextGeneration^[clears [op]] q.generation := by
  cases op with
  | submit work version =>
    obtain ⟨⟨new, q₁⟩, hsubmit, rfl⟩ := Option.map_eq_some_iff.1 hstep
    exact (submit_spec hsubmit).2.1
  | submitImmediate value version =>
    obtain ⟨⟨new, q₁⟩, hsubmit, rfl⟩ := Option.map_eq_some_iff.1 hstep
    exact (submitImmediate_spec hsubmit).2.1
  | advance maxItems call =>
    obtain ⟨a, hadv, rfl⟩ := Option.map_eq_some_iff.1 hstep
    exact (advance_spec hadv).2.1
  | cancel ticket | supersede ticket | fail ticket | markStale ticket =>
    obtain ⟨⟨b, q₁⟩, hset, rfl⟩ := Option.map_eq_some_iff.1 hstep
    rcases setTerminal_cases hset with ⟨-, rfl⟩ | ⟨-, slot, -, -, hgen, -⟩
    · rfl
    · exact hgen
  | markStaleIfVersion ticket current =>
    obtain ⟨⟨b, q₁⟩, hset, rfl⟩ := Option.map_eq_some_iff.1 hstep
    rcases markStaleIfVersion_cases hset with ⟨-, rfl⟩ | ⟨-, slot, -, -, -, hgen, -⟩
    · rfl
    · exact hgen
  | setFlowAccounting accounting => exact (setFlowAccounting_spec hstep).2.1
  | observeFlowTick tick => exact (observeFlowTick_spec hstep).2.1
  | clear => exact (clear_spec hstep).2.1

omit [Inhabited T] in
theorem clears_cons (op : AsyncOp W T) (ops : List (AsyncOp W T)) :
    clears (op :: ops) = clears ops + clears [op] := by
  cases op <;> rfl

/-- The generation counts the clears of a run. -/
theorem run_generation {ops : List (AsyncOp W T)} (hrun : q.run ops = some q') :
    q'.generation = nextGeneration^[clears ops] q.generation := by
  induction ops generalizing q with
  | nil =>
    rw [run_nil, Option.some.injEq] at hrun
    rw [← hrun]
    rfl
  | cons op ops ih =>
    obtain ⟨q₁, hstep, hrest⟩ := Option.bind_eq_some_iff.1 hrun
    rw [ih hrest, step_generation hstep, clears_cons op ops, Function.iterate_add_apply]

/-- The generations turn round, without zero. -/
theorem nextGeneration_iterate {g : ℕ} (hpos : 0 < g) (hlt : g < 2 ^ 64) (k : ℕ) :
    nextGeneration^[k] g = (g - 1 + k) % (2 ^ 64 - 1) + 1 := by
  induction k with
  | zero =>
    rw [Function.iterate_zero_apply]
    omega
  | succ k ih =>
    rw [Function.iterate_succ_apply', ih, nextGeneration_eq (by omega) (by omega)]
    omega

/-- **A ticket of an earlier generation is unbound**, as long as fewer clears follow than there
are generations. -/
theorem retired (h : q.Valid) {ops : List (AsyncOp W T)} (hrun : q.run ops = some q')
    (hclears : 1 ≤ clears ops) (hlt : clears ops < 2 ^ 64 - 1) {ticket : AsyncTicket}
    (hticket : ticket.generation = q.generation) : q'.state ticket = .unbound := by
  have hgen := run_generation hrun
  rw [nextGeneration_iterate h.generation_pos h.generation_lt] at hgen
  have hpos := h.generation_pos
  have hlt64 := h.generation_lt
  rw [state_eq, if_neg (by omega)]

omit [Inhabited T] in
/-- A queue starts valid. -/
theorem valid_new (accounting : Option FlowAccounting) :
    Valid ({ accounting := accounting } : ResumableWorkQueue W T) where
  idle := rfl
  generation_pos := Nat.one_pos
  generation_lt := by
    show 1 < 2 ^ 64
    omega
  work slot hslot := absurd hslot List.not_mem_nil

/-- The ticket of a submission shows its slot. -/
theorem submit_state {work : Option W} {version : AsyncVersion} {ticket : AsyncTicket}
    (h : q.submit work version = some (ticket, q')) :
    ticket.generation = q.generation ∧ q'.state ticket = .pending := by
  obtain ⟨hticket, hgen, -, slot, hst, -, hslots⟩ := submit_spec h
  subst hticket
  refine ⟨rfl, ?_⟩
  rw [state_eq, hgen, if_pos rfl, hslots]
  simpa using hst

omit [Inhabited T] in
theorem submitImmediate_state {value : T} {version : AsyncVersion} {ticket : AsyncTicket}
    (h : q.submitImmediate value version = some (ticket, q')) :
    ticket.generation = q.generation ∧ q'.state ticket = .immediate := by
  obtain ⟨hticket, hgen, -, slot, hst, -, hslots⟩ := submitImmediate_spec h
  subst hticket
  refine ⟨rfl, ?_⟩
  rw [state_eq, hgen, if_pos rfl, hslots]
  simpa using hst

/-- Clears of an empty queue without accounting move its generation alone. -/
theorem run_replicate_clear (k : ℕ) (hslots : q.slots = []) (hidle : q.inAdvance = false)
    (haccounting : q.accounting = none) :
    q.run (List.replicate k .clear) =
      some { q with generation := nextGeneration^[k] q.generation } := by
  induction k generalizing q with
  | zero => rfl
  | succ k ih =>
    have hclear : q.step .clear =
        some { q with generation := nextGeneration q.generation } := by
      simp [step, clear, hidle, haccounting, ← hslots]
    rw [List.replicate_succ, run_cons, hclear, Option.bind_some]
    exact ih hslots hidle haccounting

end ResumableWorkQueue

open ResumableWorkQueue

/-- **Tickets over every run.**  In a queue that any operations with any continuations lead to,
a ticket moves only as `TicketMove` allows, a clear retires the tickets before it until the
generations have gone round, an advance does what `Advanced` says, and results are there exactly
for immediate and ready tickets. -/
theorem async_queue_runs {W T : Type} [Inhabited T] (accounting : Option FlowAccounting)
    (ops : List (AsyncOp W T)) (q : ResumableWorkQueue W T)
    (hrun : ({ accounting := accounting } : ResumableWorkQueue W T).run ops = some q) :
    (∀ ticket, (q.result ticket).isSome ↔
      q.state ticket = .immediate ∨ q.state ticket = .ready) ∧
    (∀ op q', q.step op = some q' → ∀ ticket,
      TicketMove q ticket op (q.state ticket) (q'.state ticket)) ∧
    (∀ ops' q', q.run ops' = some q' → 1 ≤ clears ops' → clears ops' < 2 ^ 64 - 1 →
      ∀ ticket : AsyncTicket, ticket.generation = q.generation → q'.state ticket = .unbound) ∧
    (∀ maxItems call a, q.advance maxItems call = some a →
      Advanced call 0 maxItems.toNat maxItems.toNat q.slots a.queue.slots a.calls
        a.stats.isNone ∧
      a.queue.generation = q.generation ∧ a.queue.inAdvance = false) ∧
    (∀ maxItems call, (∀ i work offered value, call i work offered value ≠ .mutated) →
      (q.advance maxItems call).isSome) ∧
    (∀ work version ticket q', q.submit work version = some (ticket, q') →
      ticket.generation = q.generation ∧ q'.state ticket = .pending) ∧
    (∀ value version ticket q', q.submitImmediate value version = some (ticket, q') →
      ticket.generation = q.generation ∧ q'.state ticket = .immediate) := by
  have hvalid : q.Valid := (valid_new accounting).run hrun
  refine ⟨q.result_isSome, fun op q' hstep => step_move hstep,
    fun ops' q' hrun' hclears hlt ticket => retired hvalid hrun' hclears hlt,
    fun maxItems call a => advance_spec, fun maxItems call => advance_isSome hvalid maxItems,
    fun work version ticket q' => submit_state, fun value version ticket q' =>
    submitImmediate_state⟩

/-- The theorem at a queue with one slot and one result. -/
theorem async_queue_runs_pair :
    ∃ q, ({} : ResumableWorkQueue Unit ℕ).run [.submit (some ()) 0, .submitImmediate 7 0] =
      some q ∧ q.result ⟨1, 1⟩ = some 7 ∧
      (∀ ticket, (q.result ticket).isSome ↔
        q.state ticket = .immediate ∨ q.state ticket = .ready) := by
  refine ⟨_, rfl, rfl, ?_⟩
  exact (async_queue_runs none [.submit (some ()) 0, .submitImmediate 7 0] _ rfl).1

/-- **Tickets come back**: behind as many clears as there are generations, the ticket of a
retired slot names a slot that was submitted later. -/
theorem async_ticket_returns :
    ∃ q₀ q₁ q₂ : ResumableWorkQueue Unit Unit,
      ({} : ResumableWorkQueue Unit Unit).run [.submit (some ()) 0] = some q₀ ∧
      q₀.state ⟨0, 1⟩ = .pending ∧
      q₀.run [.clear] = some q₁ ∧ q₁.state ⟨0, 1⟩ = .unbound ∧
      q₁.run (List.replicate (2 ^ 64 - 2) .clear ++ [.submit (some ()) 0]) = some q₂ ∧
      q₂.state ⟨0, 1⟩ = .pending := by
  have hgen : nextGeneration^[2 ^ 64 - 2] 2 = 1 :=
    nextGeneration_iterate (by omega) (by omega) (2 ^ 64 - 2)
  refine ⟨{ slots := [{ value := (), work := some (), state := .pending }] },
    { generation := 2 },
    { slots := [{ value := (), work := some (), state := .pending }] }, rfl, rfl, rfl, rfl, ?_, rfl⟩
  rw [run_append, run_replicate_clear _ rfl rfl rfl]
  dsimp only
  rw [hgen]
  rfl

end Tess
