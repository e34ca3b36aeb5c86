import Mathlib.Data.List.Nodup
import Mathlib.Logic.Function.Basic

/-!
# Intrusive doubly linked lists

The links of a list live in two arrays over its members, with the two ends beside them.

* `Links.unlink`, `Links.pushBack`, `Links.moveToBack` : the operations, which write the links of
  the neighbours only;
* `Links.Spells` : **the links spell out a list**: following them visits its members, each once
  and in this order, and following them back visits them the other way round;
* `Links.Spells.unlink`, `Links.Spells.pushBack`, `Links.Spells.moveToBack` : what the operations
  make of the list.
-/

namespace Linked

/-- Links of an intrusive list. -/
structure Links (α : Type*) where
  /-- The member before a member. -/
  prev : α → Option α
  /-- The member behind a member. -/
  next : α → Option α
  /-- First member. -/
  head : Option α
  /-- Last member. -/
  tail : Option α

namespace Links

variable {α : Type*}

/-- Links of no list. -/
def empty : Links α := ⟨fun _ => none, fun _ => none, none, none⟩

section Operations

variable [DecidableEq α] (L : Links α) (a : α)

/-- Write the link of a neighbour, when there is one. -/
def write (f : α → Option α) (at? v : Option α) : α → Option α :=
  match at? with
  | some b => Function.update f b v
  | none => f

/-- Take a member out. -/
def unlink : Links α where
  next := Function.update (write L.next (L.prev a) (L.next a)) a none
  head := match L.prev a with
    | some _ => L.head
    | none => L.next a
  prev := Function.update (write L.prev (L.next a) (L.prev a)) a none
  tail := match L.next a with
    | some _ => L.tail
    | none => L.prev a

/-- Append a member. -/
def pushBack : Links α where
  prev := Function.update L.prev a L.tail
  next := write (Function.update L.next a none) L.tail (some a)
  head := match L.tail with
    | some _ => L.head
    | none => some a
  tail := some a

/-- Move a member to the end. -/
def moveToBack : Links α := if L.tail = some a then L else (L.unlink a).pushBack a

end Operations

/-- **The links spell out the list.** -/
structure Spells (L : Links α) (l : List α) : Prop where
  /-- Members are distinct. -/
  nodup : l.Nodup
  /-- The list starts at the head. -/
  head : L.head = l.head?
  /-- The list ends at the tail. -/
  tail : L.tail = l.getLast?
  /-- The links of a member lead to its neighbours. -/
  links : ∀ l₁ a l₂, l = l₁ ++ a :: l₂ → L.prev a = l₁.getLast? ∧ L.next a = l₂.head?

variable {L : Links α} {l l₁ l₂ m₁ m₂ : List α} {a b : α} {f : α → Option α} {v at? : Option α}

theorem spells_empty : (empty : Links α).Spells [] :=
  ⟨List.nodup_nil, rfl, rfl, fun l₁ a l₂ h => by simp at h⟩

/-- A member is linked to the one before it. -/
theorem Spells.prev_eq (h : L.Spells (l₁ ++ a :: l₂)) : L.prev a = l₁.getLast? :=
  (h.links l₁ a l₂ rfl).1

/-- A member is linked to the one behind it. -/
theorem Spells.next_eq (h : L.Spells (l₁ ++ a :: l₂)) : L.next a = l₂.head? :=
  (h.links l₁ a l₂ rfl).2

/-- A member of two lists in a row is in one of them. -/
theorem append_eq_append_cons (h : l₁ ++ l₂ = m₁ ++ b :: m₂) :
    (∃ c, l₁ = m₁ ++ b :: c ∧ m₂ = c ++ l₂) ∨ ∃ c, m₁ = l₁ ++ c ∧ l₂ = c ++ b :: m₂ := by
  rcases List.append_eq_append_iff.1 h with ⟨c, hm, hl⟩ | ⟨c, hl, hm⟩
  · exact Or.inr ⟨c, hm, hl⟩
  · cases c with
    | nil => exact Or.inr ⟨[], by simpa using hl.symm, by simpa using hm.symm⟩
    | cons x c =>
      obtain ⟨rfl, rfl⟩ := List.cons.inj hm
      exact Or.inl ⟨c, hl, rfl⟩

theorem getLast?_append_cons_ne (m₁ : List α) (h : b ∉ l₁) (x : α) (hx : b ≠ x) :
    (m₁ ++ x :: l₁).getLast? ≠ some b := by
  intro hlast
  rw [List.getLast?_append_of_ne_nil _ (List.cons_ne_nil x l₁)] at hlast
  rcases List.mem_cons.1 (List.mem_of_mem_getLast? hlast) with rfl | hmem
  · exact hx rfl
  · exact h hmem

variable [DecidableEq α]

@[simp] theorem write_self : write f (some b) v b = v := by simp [write]

theorem write_of_ne (h : at? ≠ some b) : write f at? v b = f b := by
  cases at? with
  | none => rfl
  | some c =>
    have hbc : b ≠ c := fun heq => h (congrArg some heq.symm)
    exact Function.update_of_ne hbc ..

/-- **Unlinking** closes the gap between the neighbours. -/
theorem Spells.unlink_append (h : L.Spells (l₁ ++ a :: l₂)) : (L.unlink a).Spells (l₁ ++ l₂) := by
  obtain ⟨hnd₁, hnd₂, hdisj⟩ := List.nodup_append'.1 h.nodup
  have hdisj₂ : ∀ x ∈ l₁, x ∉ l₂ := fun x hx hx' => hdisj hx (List.mem_cons_of_mem _ hx')
  have hnd : (l₁ ++ l₂).Nodup :=
    List.nodup_append'.2 ⟨hnd₁, (List.nodup_cons.1 hnd₂).2, fun x hx hx' => hdisj₂ x hx hx'⟩
  refine ⟨hnd, ?_, ?_, ?_⟩
  · simp only [unlink, h.prev_eq, h.next_eq, h.head]
    cases l₁ with
    | nil => simp
    | cons x m => simp [List.getLast?_cons]
  · simp only [unlink, h.prev_eq, h.next_eq, h.tail]
    cases l₂ with
    | nil => simp
    | cons n m => simp
  · intro m₁ b m₂ heq
    have hba : b ≠ a := by
      rintro rfl
      rcases List.mem_append.1 (heq ▸ List.mem_append_right m₁ List.mem_cons_self) with hb | hb
      · exact hdisj hb List.mem_cons_self
      · exact (List.nodup_cons.1 hnd₂).1 hb
    simp only [unlink, Function.update_of_ne hba, h.prev_eq, h.next_eq]
    rcases append_eq_append_cons heq with ⟨c, rfl, rfl⟩ | ⟨c, rfl, rfl⟩
    · -- the member stands before the gap
      obtain ⟨hp, hn⟩ := h.links m₁ b (c ++ a :: l₂) (by simp)
      have hbl : l₂.head? ≠ some b := fun hb =>
        hdisj₂ b (by simp) (List.mem_of_mem_head? hb)
      refine ⟨by rw [write_of_ne hbl, hp], ?_⟩
      cases c with
      | nil => simp
      | cons x c =>
        have hbc : b ∉ x :: c := (List.nodup_cons.1 (List.nodup_append'.1 hnd₁).2.1).1
        have hlast := getLast?_append_cons_ne (m₁ ++ [b])
          (fun hb => hbc (List.mem_cons_of_mem _ hb)) x fun hb => hbc (hb ▸ List.mem_cons_self)
        rw [List.append_assoc, List.singleton_append] at hlast
        rw [write_of_ne hlast, hn]
        rfl
    · -- the member stands behind the gap
      obtain ⟨hp, hn⟩ := h.links (l₁ ++ a :: c) b m₂ (by simp)
      have hbl : l₁.getLast? ≠ some b := fun hb =>
        hdisj₂ b (List.mem_of_mem_getLast? hb) (by simp)
      refine ⟨?_, by rw [write_of_ne hbl, hn]⟩
      cases c with
      | nil => simp
      | cons x c =>
        have hbx : b ≠ x := by
          rintro rfl
          exact (List.nodup_cons.1 (List.nodup_cons.1 hnd₂).2).1 (by simp)
        have hhead : (x :: c ++ b :: m₂).head? ≠ some b := fun hb =>
          hbx (Option.some.inj hb).symm
        rw [write_of_ne hhead, hp]
        simp [List.getLast?_append]

/-- **Unlinking** a member erases it. -/
theorem Spells.unlink (h : L.Spells l) (ha : a ∈ l) : (L.unlink a).Spells (l.erase a) := by
  obtain ⟨l₁, l₂, rfl⟩ := List.append_of_mem ha
  have ha₁ : a ∉ l₁ := fun hmem =>
    (List.nodup_append'.1 h.nodup).2.2 hmem List.mem_cons_self
  rw [List.erase_append_right _ ha₁, List.erase_cons_head]
  exact h.unlink_append

/-- **Appending** a new member. -/
theorem Spells.pushBack (h : L.Spells l) (ha : a ∉ l) : (L.pushBack a).Spells (l ++ [a]) := by
  refine ⟨?_, ?_, by simp [Links.pushBack], ?_⟩
  · exact List.nodup_append'.2 ⟨h.nodup, List.nodup_singleton a, by simpa using ha⟩
  · simp only [Links.pushBack, h.tail, h.head]
    cases l with
    | nil => simp
    | cons x m => simp [List.getLast?_cons]
  · intro m₁ b m₂ heq
    simp only [Links.pushBack, h.tail]
    rcases append_eq_append_cons heq with ⟨c, rfl, rfl⟩ | ⟨c, rfl, hc⟩
    · -- an old member
      obtain ⟨hp, hn⟩ := h.links m₁ b c rfl
      have hba : b ≠ a := by
        rintro rfl
        exact ha (by simp)
      refine ⟨by rw [Function.update_of_ne hba, hp], ?_⟩
      cases c with
      | nil => simp
      | cons x c =>
        have hbc : b ∉ x :: c := (List.nodup_cons.1 (List.nodup_append'.1 h.nodup).2.1).1
        have hlast := getLast?_append_cons_ne (m₁ ++ [b])
          (fun hb => hbc (List.mem_cons_of_mem _ hb)) x fun hb => hbc (hb ▸ List.mem_cons_self)
        rw [List.append_assoc, List.singleton_append] at hlast
        rw [write_of_ne hlast, Function.update_of_ne hba, hn]
        rfl
    · -- the new member
      obtain ⟨rfl, hb⟩ : c = [] ∧ [a] = b :: m₂ := by
        cases c with
        | nil => exact ⟨rfl, hc⟩
        | cons x c => simp at hc
      obtain ⟨rfl, rfl⟩ := List.cons.inj hb
      have hlast : l.getLast? ≠ some a := fun h => ha (List.mem_of_mem_getLast? h)
      simp [write_of_ne hlast]

/-- **Moving** a member to the end. -/
theorem Spells.moveToBack (h : L.Spells l) (ha : a ∈ l) :
    (L.moveToBack a).Spells (l.erase a ++ [a]) := by
  unfold Links.moveToBack
  split_ifs with ht
  · -- the member is the last one already
    rw [h.tail] at ht
    obtain ⟨m, rfl⟩ := List.getLast?_eq_some_iff.1 ht
    have ham : a ∉ m := fun hmem => (List.nodup_append'.1 h.nodup).2.2 hmem (by simp)
    rw [List.erase_append_right _ ham, List.erase_cons_head, List.append_nil]
    exact h
  · exact (h.unlink ha).pushBack fun hmem => (h.nodup.mem_erase_iff.1 hmem).1 rfl

end Links

end Linked
