import Tess.Sim.PathAgent

/-!
# The replan queue

Agents whose route has to be searched again wait in a queue of span indices.  The queue is a list
with a moving head, compacted when a request arrives, next to an array of membership marks that
makes requests idempotent.

* `PathAgentReplanQueue` : the list, its head and the marks, with the operations of the owner;
* `PathAgentReplanQueue.Marked` : the marks are the members of the live window, each there once;
* `request_spec`, `requestAll_spec`, `popFront_spec`, `clear_spec` : what each operation does to
  the window.

An operation that reads past an array is `none`.
-/

namespace Tess

/-- `queued_.resize(size, 0)`. -/
def resizeMarks (marks : List Bool) (size : ℕ) : List Bool :=
  marks.take size ++ List.replicate (size - marks.length) false

/-- Caller-owned queue of agent indices awaiting replanning. -/
structure PathAgentReplanQueue where
  /-- Accepted indices; those before the head have left. -/
  indices : List ℕ := []
  /-- Membership marks. -/
  queued : List Bool := []
  /-- Place of the front. -/
  head : ℕ := 0
  deriving DecidableEq, Repr

namespace PathAgentReplanQueue

/-! ### Operations -/

section Operations

variable (q : PathAgentReplanQueue)

/-- The live window of the list. -/
def window : List ℕ := q.indices.drop q.head

/-- `empty`. -/
def empty : Bool := q.head == q.indices.length

/-- `pending`. -/
def pending : ℕ := q.indices.length - q.head

/-- `contains`: the index is marked queued. -/
def contains (index : ℕ) : Bool := q.queued[index]? == some true

/-- `front`. -/
def front : Option ℕ := if q.empty then none else q.indices[q.head]?

/-- Make room for the mark of an index; the new size is a 64-bit sum. -/
def grow (index : ℕ) : PathAgentReplanQueue :=
  if q.queued.length ≤ index then
    { q with queued := resizeMarks q.queued ((index + 1) % 2 ^ 64) }
  else q

/-- Erase the indices that have left once they are half of the list. -/
def compact : PathAgentReplanQueue :=
  if q.head ≠ 0 ∧ q.indices.length / 2 ≤ q.head then
    { q with indices := q.indices.drop q.head, head := 0 }
  else q

/-- `request`: accepted or refused.  `none` for a read past the marks. -/
def request (index : ℕ) (agent : PathAgentState) : Option (Bool × PathAgentReplanQueue) :=
  if !agent.hasGoal || agent.phase == .unreachable then some (false, q)
  else
    let q := q.grow index
    match q.queued[index]? with
    | none => none
    | some true => some (false, q)
    | some false =>
      let q := q.compact
      some (true, { q with indices := q.indices ++ [index], queued := q.queued.set index true })

/-- The requests of `request_all` from an index on, with the accepted ones. -/
def requestFrom (q : PathAgentReplanQueue) :
    ℕ → List PathAgentState → Option (List ℕ × PathAgentReplanQueue)
  | _, [] => some ([], q)
  | index, agent :: agents =>
    (q.request index agent).bind fun r =>
      (r.2.requestFrom (index + 1) agents).map fun rest =>
        (if r.1 then index :: rest.1 else rest.1, rest.2)

/-- `request_all`, with the accepted indices. -/
def requestAll (agents : List PathAgentState) : Option (List ℕ × PathAgentReplanQueue) :=
  let q := if q.queued.length < agents.length then
      { q with queued := resizeMarks q.queued agents.length }
    else q
  q.requestFrom 0 agents

/-- `pop_front`.  `none` where its assertion fails. -/
def popFront : Option PathAgentReplanQueue :=
  if q.empty then some q
  else
    match q.indices[q.head]? with
    | none => none
    | some index =>
      if index < q.queued.length then
        let q := { q with queued := q.queued.set index false, head := q.head + 1 }
        some (if q.head = q.indices.length then { q with indices := [], head := 0 } else q)
      else none

/-- Reset one mark.  `none` for a write past the marks. -/
def unmark (marks : List Bool) (index : ℕ) : Option (List Bool) :=
  if index < marks.length then some (marks.set index false) else none

/-- `clear`. -/
def clear : Option PathAgentReplanQueue :=
  (q.window.foldlM unmark q.queued).map fun marks => { indices := [], queued := marks, head := 0 }

end Operations

/-! ### Marks and the live window -/

/-- **The marks are the members of the window**, each of which is there once. -/
structure Marked (q : PathAgentReplanQueue) : Prop where
  /-- The head is within the list. -/
  head_le : q.head ≤ q.indices.length
  /-- An index is marked when it waits. -/
  contains_iff : ∀ index, q.contains index = true ↔ index ∈ q.window
  /-- No index waits twice. -/
  nodup : q.window.Nodup

theorem marked_empty : Marked {} where
  head_le := le_rfl
  contains_iff := by simp [contains, window]
  nodup := List.nodup_nil

variable {q : PathAgentReplanQueue} {index : ℕ} {agent : PathAgentState}

theorem length_window : q.window.length = q.pending := by simp [window, pending]

theorem empty_iff (hq : q.Marked) : q.empty = true ↔ q.window = [] := by
  have hle := hq.head_le
  simp only [empty, beq_iff_eq, window, List.drop_eq_nil_iff]
  omega

theorem front_of_window {rest : List ℕ} (h : q.window = index :: rest) :
    q.front = some index ∧ q.indices[q.head]? = some index ∧ q.empty = false := by
  have hget : q.indices[q.head]? = some index := by
    have := congrArg (·[0]?) h
    simpa [window] using this
  have hne : q.empty = false := by
    have hlt := (List.getElem?_eq_some_iff.1 hget).1
    simp only [empty, beq_eq_false_iff_ne]
    omega
  exact ⟨by simp [front, hne, hget], hget, hne⟩

@[simp] theorem length_resizeMarks {marks : List Bool} {size : ℕ} (h : marks.length ≤ size) :
    (resizeMarks marks size).length = size := by
  simp only [resizeMarks, List.length_append, List.length_take, List.length_replicate]
  omega

/-- Growing the marks marks nothing. -/
theorem getElem?_resizeMarks {marks : List Bool} {size : ℕ} (h : marks.length ≤ size) :
    (resizeMarks marks size)[index]? = some true ↔ marks[index]? = some true := by
  rw [resizeMarks, List.take_of_length_le h]
  by_cases hi : index < marks.length
  · rw [List.getElem?_append_left hi]
  · rw [List.getElem?_append_right (by omega), List.getElem?_replicate,
      List.getElem?_eq_none (by omega : marks.length ≤ index)]
    split_ifs <;> simp

/-- New marks over the same list. -/
theorem Marked.resize (hq : q.Marked) {size : ℕ} (h : q.queued.length ≤ size) :
    Marked { q with queued := resizeMarks q.queued size } where
  head_le := hq.head_le
  contains_iff := by
    intro index
    rw [show window { q with queued := resizeMarks q.queued size } = q.window from rfl,
      ← hq.contains_iff index]
    simp only [contains, beq_iff_eq]
    exact getElem?_resizeMarks h
  nodup := hq.nodup

theorem Marked.grow (hq : q.Marked) (hi : index + 1 < 2 ^ 64) :
    (q.grow index).Marked ∧ (q.grow index).window = q.window ∧
      index < (q.grow index).queued.length := by
  rw [PathAgentReplanQueue.grow, Nat.mod_eq_of_lt hi]
  split_ifs with h
  · have hle : q.queued.length ≤ index + 1 := by omega
    exact ⟨hq.resize hle, rfl, by simp only [length_resizeMarks hle]; omega⟩
  · exact ⟨hq, rfl, by omega⟩

theorem window_compact : q.compact.window = q.window := by
  rw [compact]
  split_ifs
  · simp [window]
  · rfl

theorem queued_compact : q.compact.queued = q.queued := by
  rw [compact]
  split_ifs <;> rfl

theorem head_compact_le (h : q.head ≤ q.indices.length) :
    q.compact.head ≤ q.compact.indices.length := by
  rw [compact]
  split_ifs
  · exact Nat.zero_le _
  · exact h

/-- **A request**: accepted exactly when the goal is outstanding and the index does not wait. -/
theorem request_spec (hq : q.Marked)
    (hi : agent.hasGoal = true → agent.phase ≠ .unreachable → index + 1 < 2 ^ 64) :
    ∃ accepted q', q.request index agent = some (accepted, q') ∧ q'.Marked ∧
      q'.window = q.window ++ (if accepted then [index] else []) ∧
      (accepted = true ↔ pathAgentGoalOutstanding agent = true ∧ index ∉ q.window) := by
  rw [request]
  by_cases hgoal : pathAgentGoalOutstanding agent = true
  swap
  · have hrefuse : (!agent.hasGoal || agent.phase == .unreachable) = true := by
      revert hgoal
      simp only [pathAgentGoalOutstanding]
      cases agent.hasGoal <;> simp
    rw [if_pos hrefuse]
    exact ⟨false, q, rfl, hq, by simp, by simp [hgoal]⟩
  have hset : agent.hasGoal = true ∧ agent.phase ≠ .unreachable := by
    simpa [pathAgentGoalOutstanding] using hgoal
  have hrefuse : (!agent.hasGoal || agent.phase == .unreachable) = false := by
    simp [hset.1, hset.2]
  rw [hrefuse, if_neg Bool.false_ne_true]
  obtain ⟨hg, hwin, hlt⟩ := hq.grow (hi hset.1 hset.2)
  have hmem := hg.contains_iff index
  rw [hwin] at hmem
  simp only [contains, beq_iff_eq] at hmem
  obtain ⟨b, hb⟩ : ∃ b, (q.grow index).queued[index]? = some b := ⟨_, List.getElem?_eq_getElem hlt⟩
  simp only [hb] at hmem ⊢
  cases b with
  | true =>
    have hin : index ∈ q.window := hmem.1 rfl
    exact ⟨false, _, rfl, hg, by simp [hwin], by simp [hin]⟩
  | false =>
    have hout : index ∉ q.window := fun h => by cases hmem.2 h
    have hwin' : (q.grow index).compact.window = q.window := window_compact.trans hwin
    have hle := head_compact_le hg.head_le
    have hnew : window { (q.grow index).compact with
        indices := (q.grow index).compact.indices ++ [index]
        queued := (q.grow index).compact.queued.set index true } = q.window ++ [index] := by
      rw [← hwin']
      simp only [window]
      rw [List.drop_append_of_le_length hle]
    refine ⟨true, _, rfl, ⟨?_, ?_, ?_⟩, by rw [hnew, if_pos rfl], by simp [hgoal, hout]⟩
    · simp only [List.length_append, List.length_singleton]
      omega
    · intro i
      rw [hnew, List.mem_append, List.mem_singleton]
      simp only [contains, queued_compact, List.getElem?_set, beq_iff_eq]
      by_cases hii : index = i
      · simp [hii, hii ▸ hlt]
      · have := hg.contains_iff i
        rw [hwin] at this
        simp only [contains, beq_iff_eq] at this
        rw [if_neg hii, this]
        simp [Ne.symm hii]
    · rw [hnew]
      exact List.nodup_append.2 ⟨hq.nodup, List.nodup_singleton _,
        fun a ha b hb => by rw [List.mem_singleton.1 hb]; exact fun h => hout (h ▸ ha)⟩

/-- **Requests for a span** are accepted in the order of the span. -/
theorem requestFrom_spec (agents : List PathAgentState) :
    ∀ {q : PathAgentReplanQueue} {index : ℕ}, q.Marked → index + agents.length < 2 ^ 64 →
      ∃ accepted q', q.requestFrom index agents = some (accepted, q') ∧ q'.Marked ∧
        q'.window = q.window ++ accepted := by
  induction agents with
  | nil => exact fun hq _ => ⟨[], _, rfl, hq, (List.append_nil _).symm⟩
  | cons agent agents ih =>
    intro q index hq hlen
    rw [List.length_cons] at hlen
    obtain ⟨b, q₁, h₁, hq₁, hw₁, -⟩ := @request_spec q index agent hq
      fun _ _ => by omega
    obtain ⟨accepted, q₂, h₂, hq₂, hw₂⟩ := ih hq₁ (by omega : index + 1 + agents.length < 2 ^ 64)
    refine ⟨if b then index :: accepted else accepted, q₂, ?_, hq₂, ?_⟩
    · simp only [requestFrom, h₁, Option.bind_some, h₂, Option.map_some]
    · rw [hw₂, hw₁]
      cases b <;> simp

theorem requestAll_spec {agents : List PathAgentState} (hq : q.Marked)
    (hlen : agents.length < 2 ^ 64) :
    ∃ accepted q', q.requestAll agents = some (accepted, q') ∧ q'.Marked ∧
      q'.window = q.window ++ accepted := by
  rw [requestAll]
  split_ifs with h
  · exact requestFrom_spec agents (hq.resize h.le) (by omega)
  · exact requestFrom_spec agents hq (by omega)

/-- **The front leaves**, and its mark with it. -/
theorem popFront_spec {rest : List ℕ} (hq : q.Marked) (h : q.window = index :: rest) :
    ∃ q', q.popFront = some q' ∧ q'.Marked ∧ q'.window = rest := by
  obtain ⟨-, hget, hne⟩ := front_of_window h
  have hmark : q.queued[index]? = some true := by
    have := (hq.contains_iff index).2 (h ▸ List.mem_cons_self)
    simpa only [contains, beq_iff_eq] using this
  have hlt : index < q.queued.length := (List.getElem?_eq_some_iff.1 hmark).1
  have hhead := (List.getElem?_eq_some_iff.1 hget).1
  have hrest : q.indices.drop (q.head + 1) = rest := by
    have := congrArg List.tail h
    rwa [window, List.tail_drop] at this
  have hnodup := hq.nodup
  rw [h, List.nodup_cons] at hnodup
  have hcontains : ∀ i, ((q.queued.set index false)[i]? == some true) = true ↔ i ∈ rest := by
    intro i
    rw [beq_iff_eq, List.getElem?_set]
    by_cases hi : index = i
    · subst hi
      simp [hlt, hnodup.1]
    · have hmem := hq.contains_iff i
      simp only [contains, beq_iff_eq, h, List.mem_cons, Ne.symm hi, false_or] at hmem
      rw [if_neg hi, hmem]
  rw [popFront, hne, if_neg Bool.false_ne_true]
  simp only [hget, if_pos hlt]
  refine ⟨_, rfl, ?_⟩
  split_ifs with hend
  · have hnil : rest = [] := by rw [← hrest, hend, List.drop_length]
    refine ⟨⟨Nat.zero_le _, ?_, List.nodup_nil⟩, by rw [hnil]; rfl⟩
    intro i
    rw [contains, hcontains, hnil]
    rfl
  · refine ⟨⟨by simp only; omega, ?_, ?_⟩, hrest⟩
    · intro i
      rw [contains, hcontains, ← hrest]
      rfl
    · rw [window]
      exact hrest ▸ hnodup.2

theorem popFront_empty (hq : q.Marked) (h : q.window = []) : q.popFront = some q := by
  rw [popFront, if_pos ((empty_iff hq).2 h)]

/-- Resetting marks that exist. -/
theorem foldlM_unmark (indices : List ℕ) :
    ∀ {marks : List Bool}, (∀ i ∈ indices, i < marks.length) →
      ∃ marks', indices.foldlM unmark marks = some marks' ∧
        ∀ i, marks'[i]? = some true ↔ marks[i]? = some true ∧ i ∉ indices := by
  induction indices with
  | nil => exact fun _ => ⟨_, rfl, by simp⟩
  | cons j indices ih =>
    intro marks hlt
    have hj := hlt j List.mem_cons_self
    obtain ⟨marks', hfold, hmarks⟩ := @ih (marks.set j false) fun i hi => by
      simpa using hlt i (List.mem_cons_of_mem _ hi)
    refine ⟨marks', ?_, fun i => ?_⟩
    · rw [List.foldlM_cons, unmark, if_pos hj]
      exact hfold
    · rw [hmarks i, List.getElem?_set]
      by_cases hji : j = i
      · subst hji
        simp [hj]
      · simp [hji, Ne.symm hji]

/-- **Clearing** resets the mark of every index that waits. -/
theorem clear_spec (hq : q.Marked) : ∃ q', q.clear = some q' ∧ q'.Marked ∧ q'.window = [] := by
  have hlt : ∀ i ∈ q.window, i < q.queued.length := by
    intro i hi
    have := (hq.contains_iff i).2 hi
    simp only [contains, beq_iff_eq] at this
    exact (List.getElem?_eq_some_iff.1 this).1
  obtain ⟨marks, hfold, hmarks⟩ := foldlM_unmark q.window hlt
  refine ⟨⟨[], marks, 0⟩, by rw [clear, hfold, Option.map_some],
    ⟨Nat.zero_le _, ?_, List.nodup_nil⟩, rfl⟩
  intro i
  have hmem := hq.contains_iff i
  simp only [contains, beq_iff_eq] at hmem ⊢
  rw [hmarks i, hmem]
  simp [window]

end PathAgentReplanQueue

end Tess
