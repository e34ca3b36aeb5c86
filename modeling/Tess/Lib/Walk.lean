import Mathlib.Data.Finset.Card
import Mathlib.Data.Nat.Find
import Mathlib.Tactic.Ring

/-!
# Routes in a weighted directed graph

A graph is a relation `edge a b k`: there is an edge from `a` to `b` of cost `k`.

* `IsRoute edge l a b C` : the list `l` names the nodes of a route from `a` to `b` of total
  cost `C`, both ends included;
* `Reaches edge a b C` : some route from `a` to `b` has total cost `C`;
* `Reaches.exists_crossing` : a route that leaves a set of nodes has an edge that leaves it;
* `IsRoute.potential_le` : a potential that drops along every edge by at most the edge's cost
  drops along a route by at most the route's cost.
-/

namespace Graphs

variable {ν : Type*} {edge edge' : ν → ν → ℕ → Prop} {a b c : ν} {k C D : ℕ} {l m : List ν}

/-- `l` lists the nodes of a route from `a` to `b` of total cost `C`. -/
inductive IsRoute (edge : ν → ν → ℕ → Prop) : List ν → ν → ν → ℕ → Prop
  | single (a : ν) : IsRoute edge [a] a a 0
  | cons {a b c : ν} {l : List ν} {k C : ℕ} :
      edge a b k → IsRoute edge l b c C → IsRoute edge (a :: l) a c (k + C)

/-- Some route from `a` to `b` has total cost `C`. -/
def Reaches (edge : ν → ν → ℕ → Prop) (a b : ν) (C : ℕ) : Prop := ∃ l, IsRoute edge l a b C

/-- Every edge costs one. -/
def UnitCost (edge : ν → ν → ℕ → Prop) : Prop := ∀ a b k, edge a b k → k = 1

namespace IsRoute

theorem ne_nil (h : IsRoute edge l a b C) : l ≠ [] := by cases h <;> simp

theorem head? (h : IsRoute edge l a b C) : l.head? = some a := by cases h <;> rfl

theorem getLast? (h : IsRoute edge l a b C) : l.getLast? = some b := by
  induction h with
  | single => rfl
  | cons _ h ih => rw [List.getLast?_cons, ih]; rfl

theorem left_mem (h : IsRoute edge l a b C) : a ∈ l := by cases h <;> simp

theorem right_mem (h : IsRoute edge l a b C) : b ∈ l := by
  induction h with
  | single => simp
  | cons _ _ ih => exact List.mem_cons_of_mem _ ih

theorem mono (h : IsRoute edge l a b C) (he : ∀ a b k, edge a b k → edge' a b k) :
    IsRoute edge' l a b C := by
  induction h with
  | single => exact single _
  | cons h _ ih => exact cons (he _ _ _ h) ih

/-- Two routes that meet make one. -/
theorem append (h : IsRoute edge l a b C) (h' : IsRoute edge (b :: m) b c D) :
    IsRoute edge (l ++ m) a c (C + D) := by
  induction h with
  | single => simpa using h'
  | cons he _ ih => rw [List.cons_append, Nat.add_assoc]; exact cons he (ih h')

theorem snoc (h : IsRoute edge l a b C) (he : edge b c k) :
    IsRoute edge (l ++ [c]) a c (C + k) :=
  h.append (cons he (single c))

/-- A route can be cut at every node it visits. -/
theorem split (h : IsRoute edge l a b C) (hc : c ∈ l) :
    ∃ C₁ C₂, Reaches edge a c C₁ ∧ Reaches edge c b C₂ ∧ C = C₁ + C₂ := by
  induction h with
  | single a =>
    obtain rfl := List.mem_singleton.1 hc
    exact ⟨0, 0, ⟨_, single _⟩, ⟨_, single _⟩, rfl⟩
  | @cons a d b l k C he h ih =>
    rcases List.mem_cons.1 hc with rfl | hc
    · exact ⟨0, k + C, ⟨_, single _⟩, ⟨_, cons he h⟩, by omega⟩
    · obtain ⟨C₁, C₂, ⟨_, h₁⟩, h₂, rfl⟩ := ih hc
      exact ⟨k + C₁, C₂, ⟨_, cons he h₁⟩, h₂, by omega⟩

theorem length_eq (hu : UnitCost edge) (h : IsRoute edge l a b C) : l.length = C + 1 := by
  induction h with
  | single => rfl
  | cons he _ ih => rw [List.length_cons, ih, hu _ _ _ he]; omega

theorem cost_le (hK : ∀ a b k, edge a b k → k ≤ D) (h : IsRoute edge l a b C) :
    C ≤ D * (l.length - 1) := by
  induction h with
  | single => simp
  | @cons a b c l k C he h ih =>
    have hl : 0 < l.length := List.length_pos_iff.2 h.ne_nil
    have hk := hK _ _ _ he
    calc k + C ≤ D + D * (l.length - 1) := Nat.add_le_add hk ih
      _ = D * (1 + (l.length - 1)) := by ring
      _ = D * ((a :: l).length - 1) := by
        rw [List.length_cons]; congr 1; omega

/-- **A cheapest route visits no node twice.** -/
theorem nodup_of_least (hpos : ∀ a b k, edge a b k → 0 < k) (h : IsRoute edge l a b C)
    (hmin : ∀ D, Reaches edge a b D → C ≤ D) : l.Nodup := by
  induction h with
  | single => simp
  | @cons a d b l k C he h ih =>
    refine List.nodup_cons.2 ⟨fun ha => ?_, ih fun D ⟨m, hD⟩ => ?_⟩
    · obtain ⟨C₁, C₂, -, hC, rfl⟩ := h.split ha
      have := hmin C₂ hC
      have := hpos _ _ _ he
      omega
    · have := hmin (k + D) ⟨_, cons he hD⟩
      omega

/-- A cheapest route at unit cost has fewer steps than there are nodes in reach. -/
theorem lt_card_of_least (hu : UnitCost edge) (h : IsRoute edge l a b C)
    (hmin : ∀ D, Reaches edge a b D → C ≤ D) {s : Finset ν}
    (hs : ∀ v D, Reaches edge a v D → v ∈ s) : C < s.card := by
  classical
  have hnd := h.nodup_of_least (fun _ _ _ he => by rw [hu _ _ _ he]; decide) hmin
  have hsub : l.toFinset ⊆ s := fun v hv => by
    obtain ⟨D, -, hD, -, -⟩ := h.split (List.mem_toFinset.1 hv)
    exact hs v D hD
  have hcard := Finset.card_le_card hsub
  rw [List.toFinset_card_of_nodup hnd, h.length_eq hu] at hcard
  exact hcard

/-- A potential that drops by at most the cost along each edge drops by at most the cost
along a route. -/
theorem potential_le {h : ν → ℕ} (hc : ∀ a b k, edge a b k → h a ≤ k + h b)
    (hr : IsRoute edge l a b C) : h a ≤ C + h b := by
  induction hr with
  | single => omega
  | cons he _ ih => have := hc _ _ _ he; omega

/-- Every node of a route satisfies a predicate that holds at its start and is kept by
edges. -/
theorem forall_mem {P : ν → Prop} (hr : IsRoute edge l a b C) (ha : P a)
    (he : ∀ a b k, edge a b k → P a → P b) : ∀ c ∈ l, P c := by
  induction hr with
  | single => simpa using ha
  | cons hab _ ih =>
    intro c hc
    rcases List.mem_cons.1 hc with rfl | hc
    · exact ha
    · exact ih (he _ _ _ hab ha) c hc

/-- Consecutive nodes of a route are joined by edges, and each of them satisfies a predicate that
holds at the start and is kept by edges. -/
theorem isChain {P : ν → Prop} (hr : IsRoute edge l a b C) (ha : P a)
    (he : ∀ a b k, edge a b k → P a → P b) :
    l.IsChain fun u v => P u ∧ ∃ k, edge u v k := by
  induction hr with
  | single => simp
  | @cons a d b l k C hs h ih =>
    have hd := ih (he _ _ _ hs ha)
    cases h with
    | single => simpa using ⟨ha, k, hs⟩
    | cons hs' h' => exact List.isChain_cons_cons.2 ⟨⟨ha, k, hs⟩, hd⟩

/-- A route is also one in the graph whose edges are restricted to those it uses. -/
theorem restrict (hr : IsRoute edge l a b C) :
    IsRoute (fun u v k => edge u v k ∧ u ∈ l ∧ v ∈ l) l a b C := by
  induction hr with
  | single => exact single _
  | @cons a d b l k C he h ih =>
    refine cons ⟨he, by simp, List.mem_cons_of_mem _ h.left_mem⟩ (ih.mono ?_)
    exact fun u v k ⟨h1, h2, h3⟩ =>
      ⟨h1, List.mem_cons_of_mem _ h2, List.mem_cons_of_mem _ h3⟩

/-- A route is also one in the graph of the steps it takes. -/
theorem steps (hr : IsRoute edge l a b C) :
    IsRoute (fun u v k => edge u v k ∧ [u, v] <:+: l) l a b C := by
  induction hr with
  | single => exact single _
  | @cons a d b l k C he h ih =>
    refine cons ⟨he, ?_⟩ (ih.mono fun u v k hs => ⟨hs.1, hs.2.trans (List.suffix_cons a l).isInfix⟩)
    cases h with
    | single => exact List.infix_refl _
    | cons _ _ => exact (List.prefix_append [a, d] _).isInfix

/-- A route read backwards is a route of the reversed graph. -/
theorem reverse (hr : IsRoute edge l a b C) :
    IsRoute (fun u v k => edge v u k) l.reverse b a C := by
  induction hr with
  | single => exact single _
  | cons he _ ih =>
    rw [List.reverse_cons, Nat.add_comm]
    exact ih.snoc he

end IsRoute

namespace Reaches

theorem refl (a : ν) : Reaches edge a a 0 := ⟨_, .single a⟩

theorem trans (h : Reaches edge a b C) (h' : Reaches edge b c D) :
    Reaches edge a c (C + D) := by
  obtain ⟨l, h⟩ := h
  obtain ⟨m, h'⟩ := h'
  cases h' with
  | single => exact ⟨l, h⟩
  | cons he h' => exact ⟨_, h.append (.cons he h')⟩

theorem tail (h : Reaches edge a b C) (he : edge b c k) : Reaches edge a c (C + k) := by
  obtain ⟨l, h⟩ := h
  exact ⟨_, h.snoc he⟩

theorem mono (h : Reaches edge a b C) (he : ∀ a b k, edge a b k → edge' a b k) :
    Reaches edge' a b C := by
  obtain ⟨l, h⟩ := h
  exact ⟨l, h.mono he⟩

theorem potential_le {h : ν → ℕ} (hc : ∀ a b k, edge a b k → h a ≤ k + h b)
    (hr : Reaches edge a b C) : h a ≤ C + h b := by
  obtain ⟨l, hr⟩ := hr
  exact hr.potential_le hc

/-- Some route is a cheapest one. -/
theorem exists_least (h : Reaches edge a b C) :
    ∃ D l, IsRoute edge l a b D ∧ ∀ D', Reaches edge a b D' → D ≤ D' := by
  classical
  have hex : ∃ D, Reaches edge a b D := ⟨C, h⟩
  obtain ⟨l, hl⟩ := Nat.find_spec hex
  exact ⟨Nat.find hex, l, hl, fun D' hD' => Nat.find_min' hex hD'⟩

/-- A route from inside a set of nodes to outside has an edge that leaves the set; the part
before that edge is the first one to leave. -/
theorem exists_crossing {P : ν → Prop} (h : Reaches edge a b C) (ha : P a) (hb : ¬ P b) :
    ∃ u v k C₁ C₂, Reaches edge a u C₁ ∧ P u ∧ edge u v k ∧ ¬ P v ∧ Reaches edge v b C₂ ∧
      C = C₁ + k + C₂ := by
  obtain ⟨l, h⟩ := h
  induction h with
  | single => exact absurd ha hb
  | @cons a d b l k C he h ih =>
    by_cases hd : P d
    · obtain ⟨u, v, k', C₁, C₂, h₁, hu, he', hv, h₂, rfl⟩ := ih hd hb
      exact ⟨u, v, k', k + C₁, C₂, (show Reaches edge a d (k + 0) from
        ⟨_, .cons he (.single d)⟩).trans h₁, hu, he', hv, h₂, by omega⟩
    · exact ⟨a, d, k, 0, C, .refl a, ha, he, hd, ⟨l, h⟩, by omega⟩

end Reaches

end Graphs
