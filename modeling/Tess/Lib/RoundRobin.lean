import Mathlib.Data.List.Nodup
import Mathlib.Data.List.Sort

/-!
# Round robin with a budget

A pass goes once around a ring of `n` places from a cursor and selects the first `m` places that are
due.  The next pass starts behind the last selected place.  Which places are due may change between
the passes in any way.

* `order`, `select`, `next` : one pass;
* `serve` : successive passes, given what is due in each;
* `distance` : how far a place lies behind the cursor;
* `distance_next` : a pass that misses a due place brings the cursor nearer to it by the budget;
* `mem_serve_of_due` : **no place starves**: a place that stays due is selected once the budgets of
  the passes exceed its distance, so within `n / m` passes, rounded up.
-/

namespace RoundRobin

variable {n m cursor i k : ℕ} {due : ℕ → Bool} {dues dues' : List (ℕ → Bool)}

/-- The places in the order of a pass. -/
def order (n cursor : ℕ) : List ℕ := (List.range n).map fun offset => (cursor + offset) % n

/-- The first `m` due places of a pass. -/
def select (n m cursor : ℕ) (due : ℕ → Bool) : List ℕ := ((order n cursor).filter due).take m

/-- The cursor after a pass. -/
def next (n cursor : ℕ) (selected : List ℕ) : ℕ :=
  match selected.getLast? with
  | none => cursor % n
  | some last => (last + 1) % n

/-- Successive passes. -/
def serve (n m : ℕ) : ℕ → List (ℕ → Bool) → List (List ℕ)
  | _, [] => []
  | cursor, due :: dues =>
    select n m cursor due :: serve n m (next n cursor (select n m cursor due)) dues

/-- How far a place lies behind the cursor. -/
def distance (n cursor i : ℕ) : ℕ := (i + n - cursor % n) % n

/-! ### One pass -/

theorem distance_lt (hn : 0 < n) : distance n cursor i < n := Nat.mod_lt _ hn

/-- A place is met at its distance. -/
theorem add_distance (hi : i < n) : (cursor + distance n cursor i) % n = i := by
  have hc : cursor % n < n := Nat.mod_lt _ (by omega)
  rw [Nat.add_mod, distance, Nat.mod_mod]
  by_cases hle : cursor % n ≤ i
  · have hd : i + n - cursor % n = i - cursor % n + n := by omega
    rw [hd, Nat.add_mod_right, Nat.mod_eq_of_lt (by omega : i - cursor % n < n),
      show cursor % n + (i - cursor % n) = i by omega, Nat.mod_eq_of_lt hi]
  · rw [Nat.mod_eq_of_lt (by omega : i + n - cursor % n < n),
      show cursor % n + (i + n - cursor % n) = i + n by omega, Nat.add_mod_right,
      Nat.mod_eq_of_lt hi]

/-- And at no other. -/
theorem distance_add (hk : k < n) : distance n cursor ((cursor + k) % n) = k := by
  have hc : cursor % n < n := Nat.mod_lt _ (by omega)
  rw [distance, Nat.add_mod, Nat.mod_eq_of_lt hk]
  by_cases hlt : cursor % n + k < n
  · rw [Nat.mod_eq_of_lt hlt, show cursor % n + k + n - cursor % n = k + n by omega,
      Nat.add_mod_right, Nat.mod_eq_of_lt hk]
  · rw [Nat.mod_eq_sub_mod (by omega : cursor % n + k ≥ n),
      Nat.mod_eq_of_lt (by omega : cursor % n + k - n < n),
      show cursor % n + k - n + n - cursor % n = k by omega, Nat.mod_eq_of_lt hk]

/-- Moving the cursor towards a place. -/
theorem distance_advance (hi : i < n) (hk : k ≤ distance n cursor i) :
    distance n ((cursor + k) % n) i = distance n cursor i - k := by
  have hd := @distance_lt n cursor i (by omega)
  have hmeet : ((cursor + k) % n + (distance n cursor i - k)) % n = i := by
    rw [Nat.mod_add_mod, show cursor + k + (distance n cursor i - k) =
      cursor + distance n cursor i by omega, add_distance hi]
  conv_lhs => rw [← hmeet]
  exact distance_add (by omega)

theorem mem_order : i ∈ order n cursor ↔ i < n := by
  rw [order, List.mem_map]
  constructor
  · rintro ⟨offset, ho, rfl⟩
    exact Nat.mod_lt _ (by have := List.mem_range.1 ho; omega)
  · exact fun hi => ⟨distance n cursor i, List.mem_range.2 (distance_lt (by omega)), add_distance hi⟩

theorem nodup_order : (order n cursor).Nodup := by
  refine List.Nodup.map_on ?_ List.nodup_range
  intro a ha b hb hab
  rw [List.mem_range] at ha hb
  rw [← @distance_add n cursor a ha, hab, distance_add hb]

theorem length_select_le : (select n m cursor due).length ≤ m := List.length_take_le _ _

theorem nodup_select : (select n m cursor due).Nodup :=
  (nodup_order.filter _).sublist (List.take_sublist _ _)

theorem due_of_mem_select (h : i ∈ select n m cursor due) : i < n ∧ due i = true := by
  have hmem := List.mem_filter.1 (List.mem_of_mem_take h)
  exact ⟨mem_order.1 hmem.1, hmem.2⟩

/-- The last of an increasing list is at least its length less one. -/
theorem length_le_of_pairwise {offsets : List ℕ} (h : offsets.Pairwise (· < ·)) {last : ℕ}
    (hlast : ∀ o ∈ offsets, o ≤ last) : offsets.length ≤ last + 1 := by
  have hsub : offsets ⊆ List.range (last + 1) := fun o ho =>
    List.mem_range.2 (Nat.lt_succ_of_le (hlast o ho))
  have hnodup : offsets.Nodup := h.imp fun hab => Nat.ne_of_lt hab
  simpa using (List.subperm_of_subset hnodup hsub).length_le

/-- **A pass that misses a due place** brings the cursor nearer to it by the whole budget. -/
theorem distance_next (hm : 0 < m) (hi : i < n) (hdue : due i = true)
    (hmiss : i ∉ select n m cursor due) :
    distance n (next n cursor (select n m cursor due)) i + m ≤ distance n cursor i := by
  -- the pass by the offsets from the cursor, which increase
  let place : ℕ → ℕ := fun offset => (cursor + offset) % n
  let offsets := (List.range n).filter (due ∘ place)
  have hselect : select n m cursor due = (offsets.take m).map place := by
    rw [select, order, List.filter_map, List.map_take]
  have hinc : offsets.Pairwise (· < ·) := List.pairwise_lt_range.filter _
  set d := distance n cursor i with hd
  have hplace : place d = i := add_distance hi
  have hmem : d ∈ offsets := by
    refine List.mem_filter.2 ⟨List.mem_range.2 (distance_lt (by omega)), ?_⟩
    rw [Function.comp_apply, hplace, hdue]
  have hnot : d ∉ offsets.take m := fun h =>
    hmiss (hselect ▸ List.mem_map.2 ⟨d, h, hplace⟩)
  rw [← List.take_append_drop m offsets] at hmem hinc
  have hdrop : d ∈ offsets.drop m := (List.mem_append.1 hmem).resolve_left hnot
  have hbelow : ∀ o ∈ offsets.take m, o < d := fun o ho =>
    (List.pairwise_append.1 hinc).2.2 o ho d hdrop
  have hlen : (offsets.take m).length = m := by
    have hpos := List.length_pos_of_mem hdrop
    rw [List.length_drop] at hpos
    rw [List.length_take]
    omega
  -- the last selected offset
  have hne : offsets.take m ≠ [] := fun h => by
    rw [h, List.length_nil] at hlen
    omega
  set last := (offsets.take m).getLast hne with hlast
  have hld : last < d := hbelow last (List.getLast_mem hne)
  have hmax : ∀ o ∈ offsets.take m, o ≤ last := by
    intro o ho
    have hsplit := List.dropLast_append_getLast hne
    rw [← hsplit, List.mem_append, List.mem_singleton] at ho
    rcases ho with ho | rfl
    · have hpair := (List.pairwise_append.1 hinc).1
      rw [← hsplit] at hpair
      exact ((List.pairwise_append.1 hpair).2.2 o ho _ (List.mem_singleton_self _)).le
    · exact le_rfl
  have hcount : m ≤ last + 1 := by
    rw [← hlen]
    exact length_le_of_pairwise (List.pairwise_append.1 hinc).1 hmax
  have hnext : next n cursor (select n m cursor due) = (cursor + (last + 1)) % n := by
    rw [next, hselect, List.getLast?_map, List.getLast?_eq_some_getLast hne, Option.map_some]
    simp only [place, ← hlast]
    rw [Nat.mod_add_mod, Nat.add_assoc]
  rw [hnext, distance_advance hi (by omega : last + 1 ≤ distance n cursor i), ← hd]
  omega

/-! ### Successive passes -/

theorem length_serve : ∀ {cursor : ℕ}, (serve n m cursor dues).length = dues.length := by
  induction dues with
  | nil => exact rfl
  | cons due dues ih => simp [serve, ih]

/-- Passes after other passes start from some cursor. -/
theorem serve_append : ∀ {cursor : ℕ}, ∃ cursor',
    serve n m cursor (dues ++ dues') = serve n m cursor dues ++ serve n m cursor' dues' := by
  induction dues with
  | nil => exact fun {cursor} => ⟨cursor, rfl⟩
  | cons due dues ih =>
    intro cursor
    obtain ⟨cursor', h⟩ := @ih (next n cursor (select n m cursor due))
    exact ⟨cursor', by rw [List.cons_append, serve, h, serve, List.cons_append]⟩

/-- **No place starves**: one that is due in every pass is selected in one of them, once the budgets
exceed its distance. -/
theorem mem_serve_of_due (hm : 0 < m) (hi : i < n) :
    ∀ {cursor : ℕ}, (∀ due ∈ dues, due i = true) → distance n cursor i < dues.length * m →
      ∃ selected ∈ serve n m cursor dues, i ∈ selected := by
  induction dues with
  | nil =>
    intro cursor _ hlt
    simp at hlt
  | cons due dues ih =>
    intro cursor hdue hlt
    by_cases hsel : i ∈ select n m cursor due
    · exact ⟨_, List.mem_cons_self, hsel⟩
    · have hnear := distance_next hm hi (hdue due List.mem_cons_self) hsel
      rw [List.length_cons, Nat.succ_mul] at hlt
      obtain ⟨selected, hmem, hin⟩ := ih (fun d hd => hdue d (List.mem_cons_of_mem _ hd))
        (by omega : distance n (next n cursor (select n m cursor due)) i < dues.length * m)
      exact ⟨selected, List.mem_cons_of_mem _ hmem, hin⟩

/-- Once around the ring, in passes of `m` places. -/
theorem lt_rounds_mul (hn : 0 < n) (hm : 0 < m) : n - 1 < (n + m - 1) / m * m := by
  have hdiv := Nat.div_add_mod (n + m - 1) m
  have hmod := Nat.mod_lt (n + m - 1) hm
  rw [Nat.mul_comm] at hdiv
  omega

/-- **Within `n / m` passes**, rounded up, a place that stays due is selected. -/
theorem mem_serve_of_rounds (hm : 0 < m) (hi : i < n) (hdue : ∀ due ∈ dues, due i = true)
    (hlen : (n + m - 1) / m ≤ dues.length) : ∃ selected ∈ serve n m cursor dues, i ∈ selected := by
  refine mem_serve_of_due hm hi hdue ?_
  have hd := @distance_lt n cursor i (by omega)
  calc distance n cursor i ≤ n - 1 := by omega
    _ < (n + m - 1) / m * m := lt_rounds_mul (by omega) hm
    _ ≤ dues.length * m := Nat.mul_le_mul_right m hlen

end RoundRobin
