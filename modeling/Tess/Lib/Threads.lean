import Mathlib.Algebra.GroupWithZero.Nat
import Mathlib.Data.Finset.Disjoint
import Mathlib.Data.List.Perm.Subperm
import Mathlib.Data.List.Range

/-!
# Threads that share a state

Threads stand in a list and take steps one at a time in any order, so a step replaces one of them.
What is counted over all threads changes by what the one thread changes, and positions that are
owned by one thread stay apart.

* `sum_set`, `forall_set` : sums and facts over all threads;
* `Separate` : **no position is owned twice**;
* `perm_range_of_nodup` : as many different positions as there are fill a range.
-/

namespace Threads

variable {T : Type*} {ts : List T} {i : ℕ} {a b : T}

/-- **One thread changes** what is summed over all. -/
theorem sum_set (f : T → ℕ) (ha : ts[i]? = some a) :
    ((ts.set i b).map f).sum + f a = (ts.map f).sum + f b := by
  induction ts generalizing i with
  | nil => cases ha
  | cons t ts ih =>
    cases i with
    | zero =>
      obtain rfl : t = a := Option.some.inj ha
      rw [List.set_cons_zero, List.map_cons, List.map_cons, List.sum_cons, List.sum_cons]
      omega
    | succ i =>
      have hrest := ih (i := i) ha
      rw [List.set_cons_succ, List.map_cons, List.map_cons, List.sum_cons, List.sum_cons]
      omega

theorem forall_set {P : T → Prop} (h : ∀ t ∈ ts, P t) (hb : P b) : ∀ t ∈ ts.set i b, P t := by
  intro t ht
  rcases List.mem_or_eq_of_mem_set ht with ht | rfl
  · exact h t ht
  · exact hb

/-- A thread that was there is still there, or it was the one that changed. -/
theorem mem_set_of_mem {t : T} (ha : ts[i]? = some a) (ht : t ∈ ts) : t ∈ ts.set i b ∨ t = a := by
  obtain ⟨j, hj⟩ := List.getElem?_of_mem ht
  by_cases hij : i = j
  · subst hij
    exact .inr (Option.some.inj (hj.symm.trans ha))
  · refine .inl (List.mem_of_getElem? (i := j) ?_)
    rw [List.getElem?_set_ne hij]
    exact hj

theorem mem_set_self (ha : ts[i]? = some a) : b ∈ ts.set i b :=
  List.mem_set (List.getElem?_eq_some_iff.1 ha).1 b

/-- Nothing is summed over threads that have none of it. -/
theorem eq_zero_of_sum {f : T → ℕ} (h : (ts.map f).sum = 0) {t : T} (ht : t ∈ ts) : f t = 0 :=
  List.sum_eq_zero_iff_forall_eq_nat.1 h _ (List.mem_map_of_mem ht)

/-- **No position is owned twice.** -/
def Separate (owned : T → Finset ℕ) (ts : List T) : Prop :=
  ∀ (i j : ℕ) (a b : T), ts[i]? = some a → ts[j]? = some b → i ≠ j →
    Disjoint (owned a) (owned b)

variable {owned : T → Finset ℕ}

/-- **One thread changes** what it owns, to what no other thread owns. -/
theorem Separate.set (h : Separate owned ts) (ha : ts[i]? = some a)
    (hb : ∀ o ∈ owned b, o ∈ owned a ∨ ∀ t ∈ ts, o ∉ owned t) : Separate owned (ts.set i b) := by
  have hi := (List.getElem?_eq_some_iff.1 ha).1
  -- the thread that changed against any other
  have hother : ∀ j t, i ≠ j → ts[j]? = some t → Disjoint (owned b) (owned t) := by
    intro j t hij ht
    refine Finset.disjoint_left.2 fun o ho hot => ?_
    rcases hb o ho with hold | hnew
    · exact Finset.disjoint_left.1 (h i j a t ha ht hij) hold hot
    · exact hnew t (List.mem_of_getElem? ht) hot
  intro j k t u ht hu hjk
  by_cases hij : i = j
  · subst hij
    rw [List.getElem?_set_self hi] at ht
    rw [List.getElem?_set_ne hjk] at hu
    rw [← Option.some.inj ht]
    exact hother k u hjk hu
  · rw [List.getElem?_set_ne hij] at ht
    by_cases hik : i = k
    · subst hik
      rw [List.getElem?_set_self hi] at hu
      rw [← Option.some.inj hu]
      exact (hother j t hij ht).symm
    · rw [List.getElem?_set_ne hik] at hu
      exact h j k t u ht hu hjk

/-- The threads after a change own nothing of what the one that changed owned before. -/
theorem Separate.mem_set (h : Separate owned ts) (ha : ts[i]? = some a) {t : T}
    (ht : t ∈ ts.set i b) : t = b ∨ t ∈ ts ∧ Disjoint (owned a) (owned t) := by
  have hi := (List.getElem?_eq_some_iff.1 ha).1
  obtain ⟨j, hj⟩ := List.getElem?_of_mem ht
  by_cases hij : i = j
  · subst hij
    rw [List.getElem?_set_self hi] at hj
    exact .inl (Option.some.inj hj).symm
  · rw [List.getElem?_set_ne hij] at hj
    exact .inr ⟨List.mem_of_getElem? hj, h i j a t ha hj hij⟩

/-- **As many different numbers** of a range as it has fill it. -/
theorem perm_range_of_nodup {l : List ℕ} {first n : ℕ} (hnodup : l.Nodup)
    (hmem : ∀ k ∈ l, first ≤ k ∧ k < first + n) (hlen : n ≤ l.length) :
    l.Perm (List.range' first n) := by
  have hsub : l.Subperm (List.range' first n) :=
    List.subperm_of_subset hnodup fun k hk => List.mem_range'_1.2 (hmem k hk)
  exact hsub.perm_of_length_le (by rw [List.length_range']; exact hlen)

end Threads
