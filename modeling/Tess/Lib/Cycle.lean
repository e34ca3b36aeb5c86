import Mathlib.Data.List.Chain
import Mathlib.Data.List.FinRange
import Mathlib.Data.List.Rotate
import Mathlib.Logic.Relation

/-!
# Cycles of a partial function

A partial function sends every point to at most one other, so its cycles never branch: two
cycles with a common point are rotations of each other, and nothing else leads out of a cycle.

* `IsCycle` : a list of distinct points, each sent to the following one and the last to the first;
* `IsCycle.mem_iff_leads` : **the points of a cycle** are those that any of them leads to;
* `IsCycle.of_chain` : a walk that comes back to its first point is a cycle;
* `foldl_finRange` : the rule of the loops that count up to a bound.
-/

namespace Graphs

/-! ### Loops -/

/-- **Counting loops**: what holds before the loop, and is carried past every index, holds after
it. -/
theorem foldl_finRange {β : Type*} {n : ℕ} {f : β → Fin n → β} {b : β} (P : ℕ → β → Prop)
    (hinit : P 0 b) (hstep : ∀ (i : Fin n) (b : β), P i b → P (i + 1) (f b i)) :
    P n ((List.finRange n).foldl f b) := by
  have key : ∀ (m : ℕ) (h : m ≤ n) (b : β), P (n - m) b →
      P n (((List.finRange n).drop (n - m)).foldl f b) := by
    intro m
    induction m with
    | zero =>
      intro _ b hb
      rw [List.drop_eq_nil_of_le (by simp)]
      simpa using hb
    | succ m ih =>
      intro hm b hb
      have hlt : n - (m + 1) < n := by omega
      rw [List.drop_eq_getElem_cons (by simpa using hlt), List.foldl_cons, List.getElem_finRange,
        show n - (m + 1) + 1 = n - m by omega]
      refine ih (by omega) _ ?_
      have hnext := hstep ⟨n - (m + 1), hlt⟩ b hb
      rwa [show ((⟨n - (m + 1), hlt⟩ : Fin n) : ℕ) + 1 = n - m by simp only; omega] at hnext
  have hall := key n le_rfl b (by simpa using hinit)
  simpa using hall

/-! ### Cycles -/

section Cycles

variable {α : Type*} {next : α → Option α} {l l' : List α} {a b c : α}

/-- The function leads from a point to another in any number of steps. -/
def Leads (next : α → Option α) : α → α → Prop :=
  Relation.ReflTransGen fun a b => next a = some b

/-- A list of distinct points, each sent to the following one and the last to the first. -/
structure IsCycle (next : α → Option α) (l : List α) : Prop where
  /-- There is a point. -/
  ne_nil : l ≠ []
  /-- No point occurs twice. -/
  nodup : l.Nodup
  /-- The function turns the list by one place. -/
  turns : l.map next = (l.rotate 1).map some

namespace IsCycle

theorem next_mem (h : IsCycle next l) (ha : a ∈ l) : ∃ b ∈ l, next a = some b := by
  have hmem : next a ∈ (l.rotate 1).map some := h.turns ▸ List.mem_map_of_mem ha
  obtain ⟨b, hb, hab⟩ := List.mem_map.1 hmem
  exact ⟨b, List.mem_rotate.1 hb, hab.symm⟩

theorem mem_of_next (h : IsCycle next l) (ha : a ∈ l) (hab : next a = some b) : b ∈ l := by
  obtain ⟨b', hb', hab'⟩ := h.next_mem ha
  rw [hab, Option.some.injEq] at hab'
  exact hab' ▸ hb'

theorem exists_prev (h : IsCycle next l) (hb : b ∈ l) : ∃ a ∈ l, next a = some b := by
  have hmem : some b ∈ l.map next :=
    h.turns ▸ List.mem_map_of_mem (List.mem_rotate.2 hb)
  obtain ⟨a, ha, hab⟩ := List.mem_map.1 hmem
  exact ⟨a, ha, hab⟩

/-- Distinct points of a cycle are sent to distinct points. -/
theorem prev_unique (h : IsCycle next l) (ha : a ∈ l) (hb : b ∈ l) (hab : next a = next b) :
    a = b := by
  have hnodup : (l.map next).Nodup := by
    rw [h.turns]
    exact (List.nodup_rotate.2 h.nodup).map (Option.some_injective α)
  exact List.inj_on_of_nodup_map hnodup ha hb hab

theorem mem_of_leads (h : IsCycle next l) (ha : a ∈ l) (hab : Leads next a b) : b ∈ l := by
  induction hab with
  | refl => exact ha
  | tail _ hstep ih => exact h.mem_of_next ih hstep

theorem next_getElem (h : IsCycle next l) {i j : ℕ} (hi : i < l.length) (hj : j < l.length)
    (hij : (i + 1) % l.length = j) : next l[i] = some l[j] := by
  subst hij
  have hmap := congrArg (·[i]?) h.turns
  simpa [hi, List.getElem_rotate] using hmap

theorem leads_getElem (h : IsCycle next l) {i j : ℕ} (hi : i < l.length) (hj : j < l.length)
    (k : ℕ) (hij : (i + k) % l.length = j) : Leads next l[i] l[j] := by
  induction k generalizing j with
  | zero =>
    rw [Nat.add_zero, Nat.mod_eq_of_lt hi] at hij
    subst hij
    exact .refl
  | succ k ih =>
    have hk : (i + k) % l.length < l.length := Nat.mod_lt _ (by omega)
    refine (ih hk rfl).tail (h.next_getElem hk hj ?_)
    rw [Nat.mod_add_mod, Nat.add_assoc, hij]

/-- **The points of a cycle** are those that any of them leads to. -/
theorem mem_iff_leads (h : IsCycle next l) (ha : a ∈ l) : b ∈ l ↔ Leads next a b := by
  refine ⟨fun hb => ?_, h.mem_of_leads ha⟩
  obtain ⟨i, hi, rfl⟩ := List.getElem_of_mem ha
  obtain ⟨j, hj, rfl⟩ := List.getElem_of_mem hb
  refine h.leads_getElem hi hj (l.length - i + j) ?_
  rw [show i + (l.length - i + j) = j + l.length by omega, Nat.add_mod_right,
    Nat.mod_eq_of_lt hj]

/-- Cycles with a common point have the same points. -/
theorem perm (h : IsCycle next l) (h' : IsCycle next l') (ha : a ∈ l) (ha' : a ∈ l') :
    l.Perm l' := by
  refine (List.perm_ext_iff_of_nodup h.nodup h'.nodup).2 fun b => ?_
  rw [h.mem_iff_leads ha, h'.mem_iff_leads ha']

/-- The chain of a walk, one step further. -/
theorem map_of_chain : ∀ {a : α} {l : List α},
    (a :: l).IsChain (fun a b => next a = some b) →
    next ((a :: l).getLast (List.cons_ne_nil a l)) = some b →
    (a :: l).map next = (l ++ [b]).map some := by
  intro a l
  induction l generalizing a with
  | nil =>
    intro _ hlast
    simpa using hlast
  | cons c l ih =>
    intro hchain hlast
    rw [List.isChain_cons_cons] at hchain
    rw [List.map_cons, hchain.1, ih hchain.2 (by simpa using hlast)]
    simp

/-- **A walk that comes back to its first point** is a cycle. -/
theorem of_chain (hnodup : (a :: l).Nodup)
    (hchain : (a :: l).IsChain fun a b => next a = some b)
    (hlast : next ((a :: l).getLast (List.cons_ne_nil a l)) = some a) :
    IsCycle next (a :: l) where
  ne_nil := List.cons_ne_nil a l
  nodup := hnodup
  turns := by
    rw [map_of_chain hchain hlast, List.rotate_cons_succ, List.rotate_zero]

/-- The first point of a walk leads to the last one. -/
theorem leads_getLast_cons : ∀ {a : α} {l : List α},
    (a :: l).IsChain (fun a b => next a = some b) →
    Leads next a ((a :: l).getLast (List.cons_ne_nil a l)) := by
  intro a l
  induction l generalizing a with
  | nil =>
    intro _
    exact .refl
  | cons c l ih =>
    intro hchain
    rw [List.isChain_cons_cons] at hchain
    rw [List.getLast_cons (List.cons_ne_nil c l)]
    exact (ih hchain.2).head hchain.1

/-- Every point of a walk leads to the last one. -/
theorem leads_getLast (hchain : l.IsChain fun a b => next a = some b) (ha : a ∈ l) :
    ∃ b ∈ l.getLast?, Leads next a b := by
  obtain ⟨l₁, l₂, rfl⟩ := List.append_of_mem ha
  refine ⟨(a :: l₂).getLast (List.cons_ne_nil a l₂), ?_,
    leads_getLast_cons (List.isChain_append.1 hchain).2.1⟩
  rw [List.getLast?_append_of_ne_nil _ (List.cons_ne_nil a l₂),
    List.getLast?_eq_getLast_of_ne_nil (List.cons_ne_nil a l₂)]
  rfl

/-- **A walk that meets itself** ends in a cycle. -/
theorem of_walk [DecidableEq α] (hnodup : l.Nodup)
    (hchain : l.IsChain fun a b => next a = some b) (hlast : ∀ b ∈ l.getLast?, next b = some a)
    (ha : a ∈ l) : IsCycle next (l.drop (l.idxOf a)) := by
  have hlt : l.idxOf a < l.length := List.idxOf_lt_length_of_mem ha
  have hcons : l.drop (l.idxOf a) = a :: l.drop (l.idxOf a + 1) := by
    rw [List.drop_eq_getElem_cons hlt, List.getElem_idxOf]
  have hdrop := hchain.drop (l.idxOf a)
  have hsub := hnodup.sublist (List.drop_sublist (l.idxOf a) l)
  rw [hcons] at hdrop hsub ⊢
  refine of_chain hsub hdrop (hlast _ ?_)
  have hget : (l.drop (l.idxOf a)).getLast? = l.getLast? := by
    rw [List.getLast?_drop, if_neg (by omega)]
  rw [← hget, hcons, List.getLast?_eq_getLast_of_ne_nil (List.cons_ne_nil _ _)]
  rfl

end IsCycle

end Cycles

end Graphs
