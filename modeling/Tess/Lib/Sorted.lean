import Mathlib.Algebra.GroupWithZero.Nat
import Mathlib.Data.List.Sort
import Mathlib.Data.List.Destutter
import Mathlib.Data.List.Count
import Mathlib.Tactic.SplitIfs

/-!
# Sorted arrays

* `lowerBoundBy` : the position of the first item that is not below a value;
* `sortUnique` : the values of a list in increasing order, each once;
* `runLengths` : the runs of equal neighbours with their lengths, which **count the values** of a
  sorted list;
* `getElem?_flatMap` : where the items of one block lie in a list that joins blocks.
-/

namespace Sorted

variable {α β : Type*}

/-! ### Lower bounds -/

section LowerBound

variable (less : α → α → Bool) (l : List α) (a : α)

/-- `std::lower_bound`: the first position whose item is not below the value. -/
def lowerBoundBy : ℕ := (l.takeWhile fun b => less b a).length

variable {less l a}

/-- **An item is its own lower bound** when the items increase. -/
theorem lowerBoundBy_eq (hirr : ∀ b, less b b = false) (hl : l.Pairwise fun b c => less b c = true)
    {i : ℕ} (h : l[i]? = some a) : lowerBoundBy less l a = i := by
  induction l generalizing i with
  | nil => cases h
  | cons b l ih =>
    obtain ⟨hb, hl⟩ := List.pairwise_cons.1 hl
    unfold lowerBoundBy at ih ⊢
    cases i with
    | zero =>
      rw [List.getElem?_cons_zero, Option.some.injEq] at h
      subst h
      simp [hirr]
    | succ i =>
      rw [List.getElem?_cons_succ] at h
      have hba := hb a (List.mem_of_getElem? h)
      simp [hba, ih hl h]

end LowerBound

/-! ### Blocks -/

section Blocks

variable {f : α → List β} {l : List α} {m : ℕ} {b : β}

/-- **The items of a block** lie behind those of the blocks before it. -/
theorem getElem?_flatMap : (l.flatMap f)[m]? = some b ↔
    ∃ i a j, l[i]? = some a ∧ (f a)[j]? = some b ∧
      m = ((l.take i).map fun a => (f a).length).sum + j := by
  induction l generalizing m with
  | nil => simp
  | cons c l ih =>
    rw [List.flatMap_cons, List.getElem?_append]
    by_cases hm : m < (f c).length
    · rw [if_pos hm]
      constructor
      · exact fun h => ⟨0, c, m, rfl, h, by simp⟩
      · rintro ⟨i, a, j, ha, hj, hmij⟩
        cases i with
        | zero =>
          rw [List.getElem?_cons_zero, Option.some.injEq] at ha
          subst ha
          simp only [List.take_zero, List.map_nil, List.sum_nil, Nat.zero_add] at hmij
          exact hmij ▸ hj
        | succ i =>
          rw [List.take_succ_cons, List.map_cons, List.sum_cons] at hmij
          omega
    · rw [if_neg hm, ih]
      constructor
      · rintro ⟨i, a, j, ha, hj, hmij⟩
        refine ⟨i + 1, a, j, by rwa [List.getElem?_cons_succ], hj, ?_⟩
        rw [List.take_succ_cons, List.map_cons, List.sum_cons]
        omega
      · rintro ⟨i, a, j, ha, hj, hmij⟩
        cases i with
        | zero =>
          rw [List.getElem?_cons_zero, Option.some.injEq] at ha
          subst ha
          simp only [List.take_zero, List.map_nil, List.sum_nil, Nat.zero_add] at hmij
          have hlt := (List.getElem?_eq_some_iff.1 hj).1
          omega
        | succ i =>
          rw [List.take_succ_cons, List.map_cons, List.sum_cons] at hmij
          rw [List.getElem?_cons_succ] at ha
          exact ⟨i, a, j, ha, hj, by omega⟩

end Blocks

/-! ### Values of a list -/

section Values

/-- Sort the numbers. -/
def sorted (l : List ℕ) : List ℕ := l.mergeSort fun a b => decide (a ≤ b)

/-- Sort the numbers, then drop those that repeat their predecessor. -/
def sortUnique (l : List ℕ) : List ℕ := (sorted l).destutter (· ≠ ·)

/-- The runs of equal neighbours. -/
def runLengths : List ℕ → List (ℕ × ℕ)
  | [] => []
  | a :: l =>
    match runLengths l with
    | [] => [(a, 1)]
    | (b, n) :: runs => if a = b then (b, n + 1) :: runs else (a, 1) :: (b, n) :: runs

variable {l : List ℕ} {a n : ℕ}

theorem pairwise_sorted : (sorted l).Pairwise (· ≤ ·) := by
  have h := @List.pairwise_mergeSort _ (fun a b => decide (a ≤ b))
    (fun a b c hab hbc => by simp only [decide_eq_true_eq] at *; omega)
    (fun a b => by simp only [Bool.or_eq_true, decide_eq_true_eq]; omega) l
  simpa [sorted] using h

theorem perm_sorted : (sorted l).Perm l := List.mergeSort_perm _ _

/-- Sorted numbers whose neighbours differ ascend. -/
theorem pairwise_lt_of_isChain (hsorted : l.Pairwise (· ≤ ·)) (hchain : l.IsChain (· ≠ ·)) :
    l.Pairwise (· < ·) := by
  refine List.isChain_iff_pairwise.1 ?_
  induction l with
  | nil => exact .nil
  | cons a l ih =>
    cases l with
    | nil => exact .singleton a
    | cons b l =>
      obtain ⟨hab, hsorted⟩ := List.pairwise_cons.1 hsorted
      obtain ⟨hne, hchain⟩ := List.isChain_cons_cons.1 hchain
      exact List.isChain_cons_cons.2
        ⟨lt_of_le_of_ne (hab b List.mem_cons_self) hne, ih hsorted hchain⟩

/-- **The values increase.** -/
theorem pairwise_sortUnique : (sortUnique l).Pairwise (· < ·) :=
  pairwise_lt_of_isChain (pairwise_sorted.sublist (List.destutter_sublist _ _))
    (List.isChain_destutter _ _)

theorem mem_destutter'_ne {b : ℕ} : b ∈ l.destutter' (· ≠ ·) a ↔ b = a ∨ b ∈ l := by
  induction l generalizing a with
  | nil => simp
  | cons c l ih =>
    rw [List.destutter'_cons, List.mem_cons]
    split_ifs with h
    · rw [List.mem_cons, ih]
    · rw [not_not] at h
      rw [ih, ← h, ← or_assoc, or_self]

/-- **Every value stays.** -/
theorem mem_sortUnique : a ∈ sortUnique l ↔ a ∈ l := by
  rw [← (perm_sorted (l := l)).mem_iff, sortUnique]
  cases sorted l with
  | nil => rfl
  | cons b l => rw [List.destutter_cons', mem_destutter'_ne, List.mem_cons]

theorem runLengths_cons : runLengths (a :: l) =
    match runLengths l with
    | [] => [(a, 1)]
    | (b, n) :: runs => if a = b then (b, n + 1) :: runs else (a, 1) :: (b, n) :: runs := rfl

/-- The first run is that of the first item. -/
theorem runLengths_eq_nil : runLengths l = [] ↔ l = [] := by
  cases l with
  | nil => simp [runLengths]
  | cons a l =>
    rw [runLengths_cons]
    cases runLengths l with
    | nil => simp
    | cons run runs => simp only; split_ifs <;> simp

/-- **The runs of sorted numbers** list each value once, in order, with its number. -/
theorem runLengths_spec (h : l.Pairwise (· ≤ ·)) :
    ((runLengths l).map Prod.fst).Pairwise (· < ·) ∧
      ∀ a n, (a, n) ∈ runLengths l ↔ 0 < n ∧ n = l.count a := by
  induction l with
  | nil => simp [runLengths]; omega
  | cons c l ih =>
    obtain ⟨hc, hl⟩ := List.pairwise_cons.1 h
    obtain ⟨hpair, hmem⟩ := ih hl
    -- the values of the runs are those of the list
    have hvalue : ∀ run ∈ runLengths l, run.1 ∈ l := by
      rintro ⟨a, n⟩ hrun
      obtain ⟨hpos, rfl⟩ := (hmem a n).1 hrun
      exact List.count_pos_iff.1 hpos
    rw [runLengths_cons]
    cases hruns : runLengths l with
    | nil =>
      rw [runLengths_eq_nil] at hruns
      subst hruns
      refine ⟨List.pairwise_singleton _ _, fun a n => ?_⟩
      simp only [List.mem_singleton, Prod.mk.injEq, List.count_cons, List.count_nil, beq_iff_eq]
      split_ifs <;> omega
    | cons run runs =>
      obtain ⟨b, k⟩ := run
      rw [hruns] at hpair hmem hvalue
      rw [List.map_cons, List.pairwise_cons] at hpair
      have hcb : c ≤ b := hc b (hvalue (b, k) List.mem_cons_self)
      have hk := (hmem b k).1 List.mem_cons_self
      have hlater : ∀ n, (b, n) ∉ runs := fun n hrun =>
        lt_irrefl b (hpair.1 b (List.mem_map_of_mem hrun))
      by_cases hcb' : c = b
      · -- the item prolongs the first run
        subst hcb'
        simp only [if_true]
        refine ⟨List.pairwise_cons.2 hpair, fun a n => ?_⟩
        rw [List.mem_cons, Prod.mk.injEq, List.count_cons]
        by_cases ha : c = a
        · subst ha
          simp only [hlater, or_false, true_and, beq_self_eq_true, if_true]
          omega
        · have hiff := hmem a n
          rw [List.mem_cons, Prod.mk.injEq] at hiff
          simpa [ha, Ne.symm ha] using hiff
      · -- the item is below all others
        simp only [hcb', if_false]
        have hlt : c < b := lt_of_le_of_ne hcb hcb'
        have hnone : l.count c = 0 := by
          rw [List.count_eq_zero]
          intro hin
          have hrun := (hmem c _).2 ⟨List.count_pos_iff.2 hin, rfl⟩
          rcases List.mem_cons.1 hrun with heq | hrun
          · exact hcb' (Prod.mk.inj heq).1
          · exact absurd (hpair.1 c (List.mem_map_of_mem hrun)) (by omega)
        refine ⟨List.pairwise_cons.2 ⟨fun d hd => ?_, List.pairwise_cons.2 hpair⟩, fun a n => ?_⟩
        · rcases List.mem_cons.1 hd with rfl | hd
          · exact hlt
          · exact hlt.trans (hpair.1 d hd)
        · rw [List.mem_cons, Prod.mk.injEq, hmem, List.count_cons]
          by_cases ha : c = a
          · subst ha
            simp only [hnone, true_and, beq_self_eq_true, if_true]
            omega
          · simp [ha, Ne.symm ha]

end Values

end Sorted
