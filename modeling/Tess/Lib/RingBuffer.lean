import Mathlib.Data.List.Basic
import Mathlib.Data.Nat.ModEq
import Mathlib.Logic.Function.Basic

/-!
# Bounded ring buffers

A queue in an array of cells: entries go in behind the last one and come out at the head, and
the positions wrap round.

* `RingBuffer.push`, `RingBuffer.pop` : the operations;
* `RingBuffer.Holds` : **the ring holds a list**, the oldest entry first;
* `RingBuffer.Holds.push`, `RingBuffer.Holds.pop_cons` : what the operations make of the list.
-/

namespace Rings

/-- A bounded ring of entries. -/
structure RingBuffer (E : Type*) where
  /-- Entry of every cell. -/
  cells : ℕ → Option E
  /-- Number of cells. -/
  capacity : ℕ
  /-- Cell of the oldest entry. -/
  head : ℕ
  /-- Number of entries. -/
  size : ℕ

namespace RingBuffer

variable {E : Type*}

/-- A ring without entries. -/
def empty (E : Type*) (capacity : ℕ) : RingBuffer E := ⟨fun _ => none, capacity, 0, 0⟩

section Operations

variable (r : RingBuffer E)

/-- The cell some places behind the head. -/
def slot (i : ℕ) : ℕ := (r.head + i) % r.capacity

/-- Append an entry, which may depend on its cell; the result has the cell, and there is none in
a full ring. -/
def push (entry : ℕ → E) : Option (ℕ × RingBuffer E) :=
  if r.size = r.capacity then none
  else
    let tail := r.slot r.size
    some (tail, { r with
      cells := Function.update r.cells tail (some (entry tail))
      size := r.size + 1 })

/-- Take the oldest entry out. -/
def pop : Option E × RingBuffer E :=
  if r.size = 0 then (none, r)
  else (r.cells r.head, { r with
    cells := Function.update r.cells r.head none
    head := (r.head + 1) % r.capacity
    size := r.size - 1 })

/-- The oldest entry. -/
def front : Option E := if r.size = 0 then none else r.cells r.head

/-- The entries, the oldest first. -/
def toList : List E := (List.range r.size).filterMap fun i => r.cells (r.slot i)

end Operations

/-- **The ring holds the list.** -/
structure Holds (r : RingBuffer E) (l : List E) : Prop where
  /-- One entry for each member. -/
  length : l.length = r.size
  /-- The entries fit. -/
  bounded : r.size ≤ r.capacity
  /-- The head is a cell. -/
  head_lt : 0 < r.capacity → r.head < r.capacity
  /-- The members follow each other from the head on. -/
  cell : ∀ i < r.size, r.cells (r.slot i) = l[i]?
  /-- Other cells are free. -/
  free : ∀ s, (∀ i < r.size, s ≠ r.slot i) → r.cells s = none

variable {r : RingBuffer E} {l : List E} {e : E} {i j s : ℕ}

theorem holds_empty (capacity : ℕ) : (empty E capacity).Holds [] where
  length := rfl
  bounded := Nat.zero_le _
  head_lt := id
  cell := fun i hi => absurd hi (Nat.not_lt_zero i)
  free := fun _ _ => rfl

theorem slot_lt (hi : i < r.capacity) : r.slot i < r.capacity := Nat.mod_lt _ (by omega)

/-- Positions less than a round apart are different cells. -/
theorem slot_inj (hi : i < r.capacity) (hj : j < r.capacity) (h : r.slot i = r.slot j) : i = j := by
  unfold slot at h
  have hmod : Nat.ModEq r.capacity i j := Nat.ModEq.add_left_cancel' r.head h
  rwa [Nat.ModEq, Nat.mod_eq_of_lt hi, Nat.mod_eq_of_lt hj] at hmod

namespace Holds

theorem slot_zero (h : r.Holds l) (hc : 0 < r.capacity) : r.slot 0 = r.head := by
  rw [slot, Nat.add_zero, Nat.mod_eq_of_lt (h.head_lt hc)]

/-- Taken cells are the cells of members. -/
theorem cell_eq_some (h : r.Holds l) :
    r.cells s = some e ↔ ∃ i < r.size, s = r.slot i ∧ l[i]? = some e := by
  constructor
  · intro hs
    by_contra hno
    have hfree := h.free s fun i hi his => hno ⟨i, hi, his, by rw [← h.cell i hi, ← his, hs]⟩
    rw [hs] at hfree
    cases hfree
  · rintro ⟨i, hi, rfl, hl⟩
    rw [h.cell i hi, hl]

/-- Taken cells are cells. -/
theorem lt_of_cell (h : r.Holds l) (hs : r.cells s = some e) : s < r.capacity := by
  obtain ⟨i, hi, rfl, -⟩ := h.cell_eq_some.1 hs
  exact slot_lt (hi.trans_le h.bounded)

/-- Members are in cells. -/
theorem exists_cell (h : r.Holds l) (he : e ∈ l) : ∃ s, r.cells s = some e := by
  obtain ⟨i, hi⟩ := List.mem_iff_getElem?.1 he
  have hlt : i < r.size := by
    rw [← h.length]
    exact (List.getElem?_eq_some_iff.1 hi).1
  exact ⟨r.slot i, h.cell_eq_some.2 ⟨i, hlt, rfl, hi⟩⟩

/-- Entries in cells are members. -/
theorem mem_of_cell (h : r.Holds l) (hs : r.cells s = some e) : e ∈ l := by
  obtain ⟨i, -, -, hi⟩ := h.cell_eq_some.1 hs
  exact List.mem_of_getElem? hi

/-- **A push** appends to the list, in a free cell. -/
theorem push (h : r.Holds l) (entry : ℕ → E) (hroom : r.size ≠ r.capacity) :
    ∃ t r', r.push entry = some (t, r') ∧ t < r.capacity ∧ r.cells t = none ∧
      r'.cells = Function.update r.cells t (some (entry t)) ∧ r'.capacity = r.capacity ∧
      r'.Holds (l ++ [entry t]) := by
  have hlt : r.size < r.capacity := lt_of_le_of_ne h.bounded hroom
  have hfree : r.cells (r.slot r.size) = none := by
    refine h.free _ fun i hi heq => ?_
    have := slot_inj hlt (hi.trans hlt) heq
    omega
  refine ⟨_, _, if_neg hroom, slot_lt hlt, hfree, rfl, rfl, ?_⟩
  refine ⟨by simp [h.length], hlt, h.head_lt, fun i hi => ?_, fun s hs => ?_⟩
  · change i < r.size + 1 at hi
    change Function.update r.cells (r.slot r.size) _ (r.slot i) = _
    rcases Nat.lt_succ_iff_lt_or_eq.1 hi with hi | rfl
    · have hne : r.slot i ≠ r.slot r.size := by
        intro heq
        have := slot_inj (hi.trans hlt) hlt heq
        omega
      rw [Function.update_of_ne hne, h.cell i hi, List.getElem?_append_left (by rw [h.length]; exact hi)]
    · rw [Function.update_self, ← h.length, List.getElem?_concat_length]
  · change ∀ i < r.size + 1, s ≠ r.slot i at hs
    change Function.update r.cells (r.slot r.size) _ s = none
    rw [Function.update_of_ne (hs r.size (Nat.lt_succ_self _))]
    exact h.free s fun i hi => hs i (Nat.lt_succ_of_lt hi)

/-- The list that the ring holds. -/
theorem toList_eq (h : r.Holds l) : r.toList = l := by
  have hcells : r.toList = (List.range l.length).filterMap fun i => l[i]? := by
    rw [toList, h.length]
    exact List.filterMap_congr fun i hi => h.cell i (List.mem_range.1 hi)
  rw [hcells]
  clear hcells h
  induction l with
  | nil => rfl
  | cons e l ih =>
    rw [List.length_cons, List.range_succ_eq_map, List.filterMap_cons, List.filterMap_map]
    simpa using ih

theorem push_full (entry : ℕ → E) (hfull : r.size = r.capacity) : r.push entry = none :=
  if_pos hfull

theorem pop_nil (h : r.Holds []) : r.pop = (none, r) := if_pos h.length.symm

/-- **A pop** takes the oldest entry and frees its cell. -/
theorem pop_cons (h : r.Holds (e :: l)) :
    ∃ r', r.pop = (some e, r') ∧ r.cells r.head = some e ∧
      r'.cells = Function.update r.cells r.head none ∧ r'.capacity = r.capacity ∧ r'.Holds l := by
  have hsize : l.length + 1 = r.size := h.length
  have hcap : 0 < r.capacity := by have := h.bounded; omega
  have hhead : r.cells r.head = some e := by
    rw [← h.slot_zero hcap, h.cell 0 (by omega)]
    rfl
  let r' : RingBuffer E := { r with
    cells := Function.update r.cells r.head none
    head := (r.head + 1) % r.capacity
    size := r.size - 1 }
  have hpop : r.pop = (some e, r') := by
    rw [pop, if_neg (by omega), hhead]
  have hslot : ∀ i, r'.slot i = r.slot (i + 1) := by
    intro i
    change ((r.head + 1) % r.capacity + i) % r.capacity = (r.head + (i + 1)) % r.capacity
    rw [Nat.mod_add_mod]
    congr 1
    omega
  refine ⟨r', hpop, hhead, rfl, rfl, ?_⟩
  refine ⟨?_, ?_, fun _ => Nat.mod_lt _ hcap, fun i hi => ?_, fun s hs => ?_⟩
  · change l.length = r.size - 1
    omega
  · have := h.bounded
    change r.size - 1 ≤ r.capacity
    omega
  · change i < r.size - 1 at hi
    have hne : r.slot (i + 1) ≠ r.head := by
      rw [← h.slot_zero hcap]
      intro heq
      have := slot_inj (by have := h.bounded; omega) hcap heq
      omega
    rw [hslot, show r'.cells = Function.update r.cells r.head none from rfl,
      Function.update_of_ne hne, h.cell (i + 1) (by omega), List.getElem?_cons_succ]
  · change ∀ i < r.size - 1, s ≠ r'.slot i at hs
    change Function.update r.cells r.head none s = none
    by_cases hsh : s = r.head
    · rw [hsh, Function.update_self]
    · rw [Function.update_of_ne hsh]
      refine h.free s fun i hi => ?_
      cases i with
      | zero => rw [h.slot_zero hcap]; exact hsh
      | succ i => rw [← hslot]; exact hs i (by omega)

end Holds

end RingBuffer

end Rings
