import Mathlib.Combinatorics.Enumerative.DoubleCounting
import Mathlib.Logic.Function.Basic

/-!
# Open addressing with linear probing

A table of `m` cells on a circle; every key has a home cell, and a key that is not there is
looked for in the cells behind it, up to the first free one.

* `scan` : the probe loop, which stops at the first cell that a test accepts;
* `Probed` : **the table invariant**: no free cell between the home of a key and its place, and
  no key twice;
* `Probed.scan_find`, `Probed.insert`, `Probed.assign` : lookup, insertion and assignment;
* `shiftBack` and `Probed.shiftBack` : **deletion without tombstones**: the cells behind the hole
  move into it as long as their probe path crosses it; `shiftBackBy_eq` : under another test too.
-/

namespace Probing

/-! ### The circle -/

section Circle

variable {m a b c d e : ℕ}

/-- The cell behind a cell. -/
def next (m a : ℕ) : ℕ := if a + 1 < m then a + 1 else 0

/-- The cell some steps behind a cell. -/
def adv (m a d : ℕ) : ℕ := if a + d < m then a + d else a + d - m

/-- Steps from a cell to another. -/
def dist (m a b : ℕ) : ℕ := if a ≤ b then b - a else b + m - a

theorem next_lt (ha : a < m) : next m a < m := by
  unfold next
  split_ifs <;> omega

theorem dist_lt (ha : a < m) (hb : b < m) : dist m a b < m := by
  unfold dist
  split_ifs <;> omega

@[simp] theorem dist_self : dist m a a = 0 := by simp [dist]

theorem adv_dist (ha : a < m) (hb : b < m) : adv m a (dist m a b) = b := by
  unfold adv dist
  split_ifs <;> omega

theorem dist_adv (ha : a < m) (hd : d < m) : dist m a (adv m a d) = d := by
  unfold adv dist
  split_ifs <;> omega

theorem adv_zero (ha : a < m) : adv m a 0 = a := by simp [adv, ha]

theorem adv_next (ha : a < m) (hd : d + 1 < m) : adv m (next m a) d = adv m a (d + 1) := by
  unfold next adv
  split_ifs <;> omega

theorem dist_next_right (ha : a < m) (hb : b < m) (h : next m b ≠ a) :
    dist m a (next m b) = dist m a b + 1 := by
  unfold next dist at *
  split_ifs at * <;> omega

theorem dist_next_left (ha : a < m) (hb : b < m) (h : a ≠ b) :
    dist m (next m a) b + 1 = dist m a b := by
  unfold next dist at *
  split_ifs at * <;> omega

theorem dist_pos (ha : a < m) (h : a ≠ b) : 0 < dist m a b := by
  unfold dist
  split_ifs <;> omega

theorem eq_of_dist_eq (ha : a < m) (hb : b < m) (hc : c < m) (h : dist m a b = dist m a c) :
    b = c := by
  rw [← adv_dist ha hb, h, adv_dist ha hc]

/-- Distances add up at a cell on the way. -/
theorem dist_add_of_le (ha : a < m) (hb : b < m) (hc : c < m) (h : dist m a b ≤ dist m a c) :
    dist m a b + dist m b c = dist m a c := by
  unfold dist at *
  split_ifs at * <;> omega

theorem dist_add_of_le' (ha : a < m) (hb : b < m) (h : dist m b c ≤ dist m a c) :
    dist m a b + dist m b c = dist m a c := by
  unfold dist at *
  split_ifs at * <;> omega

/-- Distances add up unless they lead round the circle. -/
theorem dist_add_of_lt (ha : a < m) (hb : b < m) (h : dist m a b + dist m b c < m) :
    dist m a c = dist m a b + dist m b c := by
  unfold dist at *
  split_ifs at * <;> omega

theorem dist_eq_of_adv (ha : a < m) (hd : d < m) (h : adv m a d = b) :
    dist m a b = d := by
  rw [← h, dist_adv ha hd]

end Circle

/-! ### The probe loop -/

section Scan

variable {m i j fuel : ℕ} {halt : ℕ → Bool} {step : ℕ → ℕ}

/-- The first accepted cell from a cell on; none when the fuel runs out. -/
def scan (step : ℕ → ℕ) (halt : ℕ → Bool) : ℕ → ℕ → Option ℕ
  | 0, _ => none
  | fuel + 1, i => if halt i then some i else scan step halt fuel (step i)

variable (hstep : ∀ i < m, step i = next m i)

include hstep

/-- **The probe loop** stops at an accepted cell and passes none. -/
theorem scan_spec (hi : i < m) (h : scan step halt fuel i = some j) :
    j < m ∧ halt j = true ∧ ∀ d < dist m i j, halt (adv m i d) = false := by
  induction fuel generalizing i with
  | zero => cases h
  | succ fuel ih =>
    rw [scan] at h
    by_cases hs : halt i = true
    · rw [if_pos hs] at h
      obtain rfl := Option.some.inj h
      refine ⟨hi, hs, fun d hd => ?_⟩
      rw [dist_self] at hd
      cases hd
    · rw [if_neg hs, hstep i hi] at h
      obtain ⟨hj, hsj, hall⟩ := ih (next_lt hi) h
      refine ⟨hj, hsj, fun d hd => ?_⟩
      have hij : i ≠ j := by
        rintro rfl
        exact hs hsj
      have hdist := dist_next_left hi hj hij
      have hlt := dist_lt hi hj
      cases d with
      | zero => rw [adv_zero hi]; exact Bool.eq_false_iff.2 hs
      | succ d => rw [← adv_next hi (by omega)]; exact hall d (by omega)

/-- The probe loop stops when a cell ahead is accepted. -/
theorem exists_scan (hi : i < m) (hj : j < m) (hs : halt j = true) (hf : dist m i j < fuel) :
    ∃ k, scan step halt fuel i = some k := by
  induction fuel generalizing i with
  | zero => omega
  | succ fuel ih =>
    rw [scan]
    split_ifs with hsi
    · exact ⟨i, rfl⟩
    · have hij : i ≠ j := by
        rintro rfl
        exact hsi hs
      have hdist := dist_next_left hi hj hij
      rw [hstep i hi]
      exact ih (next_lt hi) (by omega)

end Scan

/-! ### The table -/

section Table

variable {K V : Type*} {m : ℕ} {home : K → ℕ} {cell : ℕ → Option (K × V)} {k k' : K} {v w : V}
  {i j p q : ℕ} {step : ℕ → ℕ}

/-- **The table invariant.** -/
structure Probed (m : ℕ) (home : K → ℕ) (cell : ℕ → Option (K × V)) : Prop where
  /-- No free cell between the home of a key and its place. -/
  reach : ∀ p < m, ∀ k v, cell p = some (k, v) →
    ∀ d < dist m (home k) p, cell (adv m (home k) d) ≠ none
  /-- No key twice. -/
  unique : ∀ p < m, ∀ q < m, ∀ k v w, cell p = some (k, v) → cell q = some (k, w) → p = q

/-- The table maps the key to the value. -/
def Maps (m : ℕ) (cell : ℕ → Option (K × V)) (k : K) (v : V) : Prop :=
  ∃ p < m, cell p = some (k, v)

/-- The table without any key. -/
theorem probed_empty : Probed m home (fun _ => (none : Option (K × V))) := by
  constructor
  · intro p _ k v h
    cases h
  · intro p _ q _ k v w h
    cases h

/-- A key has one value. -/
theorem Probed.maps_unique (h : Probed m home cell) (hv : Maps m cell k v) (hw : Maps m cell k w) :
    v = w := by
  obtain ⟨p, hp, hv⟩ := hv
  obtain ⟨q, hq, hw⟩ := hw
  obtain rfl := h.unique p hp q hq k v w hv hw
  rw [hv] at hw
  exact (Prod.mk.inj (Option.some.inj hw)).2

/-- **Fewer keys than cells leave a free cell.** -/
theorem Probed.exists_free (h : Probed m home cell) {keys : List K}
    (hkeys : ∀ k v, Maps m cell k v → k ∈ keys) (hlen : keys.length < m) :
    ∃ f < m, cell f = none := by
  classical
  by_contra hfull
  push Not at hfull
  have hocc : ∀ p < m, ∃ k v, cell p = some (k, v) := by
    intro p hp
    obtain ⟨⟨k, v⟩, hkv⟩ := Option.ne_none_iff_exists'.1 (hfull p hp)
    exact ⟨k, v, hkv⟩
  choose key value hkey using hocc
  have hcard : (Finset.range m).card ≤ keys.toFinset.card := by
    refine Finset.card_le_card_of_forall_subsingleton (fun p k => ∃ v, cell p = some (k, v)) ?_ ?_
    · intro p hp
      have hp := Finset.mem_range.1 hp
      exact ⟨key p hp, List.mem_toFinset.2 (hkeys _ _ ⟨p, hp, hkey p hp⟩), value p hp, hkey p hp⟩
    · rintro k - p ⟨hp, v, hv⟩ q ⟨hq, w, hw⟩
      exact h.unique p (Finset.mem_range.1 hp) q (Finset.mem_range.1 hq) k v w hv hw
  have := keys.toFinset_card_le
  rw [Finset.card_range] at hcard
  omega

variable [DecidableEq K]

/-- The cell is free or holds the key: where a lookup stops. -/
def settles (cell : ℕ → Option (K × V)) (k : K) (i : ℕ) : Bool :=
  match cell i with
  | none => true
  | some (k', _) => k' = k

theorem settles_iff : settles cell k i = true ↔ cell i = none ∨ ∃ v, cell i = some (k, v) := by
  unfold settles
  rcases h : cell i with _ | ⟨k', v⟩
  · simp
  · simp only [decide_eq_true_eq, reduceCtorEq, Option.some.injEq, Prod.mk.injEq, false_or]
    exact ⟨fun hk => ⟨v, hk, rfl⟩, fun ⟨_, hk, _⟩ => hk⟩

/-- **A lookup** stops, at the place of the key when the table has it and at a free cell
otherwise. -/
theorem Probed.scan_find (h : Probed m home cell) (hstep : ∀ i < m, step i = next m i)
    (hhome : home k < m) (hfree : ∃ f < m, cell f = none) :
    ∃ i < m, scan step (settles cell k) m (home k) = some i ∧
      ((∃ v, cell i = some (k, v)) ∨ cell i = none ∧ ∀ v, ¬ Maps m cell k v) := by
  obtain ⟨f, hf, hcf⟩ := hfree
  obtain ⟨i, hscan⟩ := exists_scan (m := m) hstep hhome hf
    (settles_iff.2 (Or.inl hcf)) (dist_lt hhome hf)
  obtain ⟨hi, hstop, hpass⟩ := scan_spec hstep hhome hscan
  refine ⟨i, hi, hscan, ?_⟩
  rcases settles_iff.1 hstop with hnone | hsome
  · refine Or.inr ⟨hnone, ?_⟩
    rintro v ⟨p, hp, hcp⟩
    -- the key would sit behind the free cell, or the loop would have stopped at it
    rcases lt_or_ge (dist m (home k) i) (dist m (home k) p) with hlt | hge
    · refine h.reach p hp k v hcp _ hlt ?_
      rw [adv_dist hhome hi, hnone]
    · rcases hge.lt_or_eq with hlt | heq
      · have hp' := hpass _ hlt
        rw [adv_dist hhome hp] at hp'
        exact absurd (settles_iff.2 (Or.inr ⟨v, hcp⟩)) (by rw [hp']; exact Bool.false_ne_true)
      · rw [eq_of_dist_eq hhome hp hi heq, hnone] at hcp
        cases hcp
  · exact Or.inl hsome

/-- The place of a key that the table has. -/
theorem Probed.scan_of_maps (h : Probed m home cell) (hstep : ∀ i < m, step i = next m i)
    (hhome : home k < m) (hfree : ∃ f < m, cell f = none) (hk : Maps m cell k v) :
    ∃ i < m, scan step (settles cell k) m (home k) = some i ∧ cell i = some (k, v) := by
  obtain ⟨i, hi, hscan, ⟨w, hw⟩ | ⟨-, hno⟩⟩ := h.scan_find hstep hhome hfree
  · obtain rfl := h.maps_unique hk ⟨i, hi, hw⟩
    exact ⟨i, hi, hscan, hw⟩
  · exact absurd hk (hno v)

/-! ### Insertion -/

/-- The cell is free: where an insertion stops. -/
def isFree (cell : ℕ → Option (K × V)) (i : ℕ) : Bool := (cell i).isNone

omit [DecidableEq K] in
theorem isFree_iff : isFree cell i = true ↔ cell i = none := by simp [isFree]

omit [DecidableEq K] in
/-- An insertion stops at a free cell. -/
theorem exists_scan_free (hstep : ∀ i < m, step i = next m i) (hi : i < m)
    (hfree : ∃ f < m, cell f = none) : ∃ j, scan step (isFree cell) m i = some j := by
  obtain ⟨f, hf, hcf⟩ := hfree
  exact exists_scan hstep hi hf (isFree_iff.2 hcf) (dist_lt hi hf)

omit [DecidableEq K] in
/-- **An insertion** at the first free cell keeps the invariant. -/
theorem Probed.insert (h : Probed m home cell) (hstep : ∀ i < m, step i = next m i)
    (hhome : home k < m) (hnew : ∀ w, ¬ Maps m cell k w)
    (hscan : scan step (isFree cell) m (home k) = some i) :
    Probed m home (Function.update cell i (some (k, v))) := by
  obtain ⟨hi, hfree, hpass⟩ := scan_spec hstep hhome hscan
  rw [isFree_iff] at hfree
  have hkeep : ∀ q, cell q ≠ none → Function.update cell i (some (k, v)) q ≠ none := by
    intro q hq
    rw [Function.update_apply]
    split_ifs
    · exact Option.some_ne_none _
    · exact hq
  constructor
  · intro p hp k' v' hp' d hd
    rw [Function.update_apply] at hp'
    split_ifs at hp' with hpi
    · obtain ⟨rfl, rfl⟩ := Prod.mk.inj (Option.some.inj hp')
      subst hpi
      refine hkeep _ ?_
      have := hpass d hd
      rwa [Bool.eq_false_iff, ne_eq, isFree_iff] at this
    · exact hkeep _ (h.reach p hp k' v' hp' d hd)
  · intro p hp q hq k' v' w' hp' hq'
    rw [Function.update_apply] at hp' hq'
    split_ifs at hp' hq' with hpi hqi hqi
    · rw [hpi, hqi]
    · obtain ⟨rfl, rfl⟩ := Prod.mk.inj (Option.some.inj hp')
      exact absurd ⟨q, hq, hq'⟩ (hnew w')
    · obtain ⟨rfl, rfl⟩ := Prod.mk.inj (Option.some.inj hq')
      exact absurd ⟨p, hp, hp'⟩ (hnew v')
    · exact h.unique p hp q hq k' v' w' hp' hq'

omit [DecidableEq K] in
/-- What a table maps after a write to a free cell. -/
theorem maps_update (hi : i < m) (hfree : cell i = none) :
    Maps m (Function.update cell i (some (k, v))) k' w ↔ k' = k ∧ w = v ∨ Maps m cell k' w := by
  constructor
  · rintro ⟨p, hp, hcp⟩
    rw [Function.update_apply] at hcp
    split_ifs at hcp
    · obtain ⟨rfl, rfl⟩ := Prod.mk.inj (Option.some.inj hcp)
      exact Or.inl ⟨rfl, rfl⟩
    · exact Or.inr ⟨p, hp, hcp⟩
  · rintro (⟨rfl, rfl⟩ | ⟨p, hp, hcp⟩)
    · exact ⟨i, hi, Function.update_self ..⟩
    · refine ⟨p, hp, ?_⟩
      have hpi : p ≠ i := by
        rintro rfl
        rw [hfree] at hcp
        cases hcp
      rw [Function.update_of_ne hpi, hcp]

omit [DecidableEq K] in
/-- A write that keeps the key of a cell keeps the invariant, and changes one value. -/
theorem Probed.write (h : Probed m home cell) (hi : i < m) (hc : cell i = some (k, w)) :
    Probed m home (Function.update cell i (some (k, v))) ∧ ∀ k' w',
      Maps m (Function.update cell i (some (k, v))) k' w' ↔
        k' = k ∧ w' = v ∨ k' ≠ k ∧ Maps m cell k' w' := by
  have hkeep : ∀ q, cell q ≠ none → Function.update cell i (some (k, v)) q ≠ none := by
    intro q hq
    rw [Function.update_apply]
    split_ifs
    · exact Option.some_ne_none _
    · exact hq
  -- the new table has a key where the old one has it
  have hkey : ∀ p k' w', Function.update cell i (some (k, v)) p = some (k', w') →
      ∃ u, cell p = some (k', u) := by
    intro p k' w' hp
    rw [Function.update_apply] at hp
    split_ifs at hp with hpi
    · obtain ⟨rfl, rfl⟩ := Prod.mk.inj (Option.some.inj hp)
      exact ⟨w, hpi ▸ hc⟩
    · exact ⟨w', hp⟩
  refine ⟨⟨fun p hp k' w' hp' d hd => ?_, fun p hp q hq k' u u' hp' hq' => ?_⟩, fun k' w' => ?_⟩
  · obtain ⟨u, hu⟩ := hkey p k' w' hp'
    exact hkeep _ (h.reach p hp k' u hu d hd)
  · obtain ⟨t, ht⟩ := hkey p k' u hp'
    obtain ⟨t', ht'⟩ := hkey q k' u' hq'
    exact h.unique p hp q hq k' t t' ht ht'
  · constructor
    · rintro ⟨p, hp, hcp⟩
      by_cases hpi : p = i
      · rw [hpi, Function.update_self] at hcp
        obtain ⟨rfl, rfl⟩ := Prod.mk.inj (Option.some.inj hcp)
        exact .inl ⟨rfl, rfl⟩
      · rw [Function.update_of_ne hpi] at hcp
        refine .inr ⟨?_, p, hp, hcp⟩
        rintro rfl
        exact hpi (h.unique p hp i hi k' w' w hcp hc)
    · rintro (⟨rfl, rfl⟩ | ⟨hne, p, hp, hcp⟩)
      · exact ⟨i, hi, Function.update_self ..⟩
      · refine ⟨p, hp, ?_⟩
        have hpi : p ≠ i := by
          rintro rfl
          rw [hc] at hcp
          exact hne (Prod.mk.inj (Option.some.inj hcp)).1.symm
        rw [Function.update_of_ne hpi, hcp]

omit [DecidableEq K] in
/-- Probe loops with tests that agree on the cells end at one cell. -/
theorem scan_congr {halt halt' : ℕ → Bool} {fuel : ℕ} (hstep : ∀ i < m, step i = next m i)
    (hi : i < m) (hhalt : ∀ j < m, halt j = halt' j) :
    scan step halt fuel i = scan step halt' fuel i := by
  induction fuel generalizing i with
  | zero => rfl
  | succ fuel ih =>
    rw [scan, scan, hhalt i hi, ih (by rw [hstep i hi]; exact next_lt hi)]

/-- **An assignment**, at the place of the key or at the first free cell, gives the key its
value and changes no other. -/
theorem Probed.assign (h : Probed m home cell) (hstep : ∀ i < m, step i = next m i)
    (hhome : home k < m) (hfree : ∃ f < m, cell f = none) (v : V) :
    ∃ i < m, scan step (settles cell k) m (home k) = some i ∧
      Probed m home (Function.update cell i (some (k, v))) ∧ ∀ k' w,
        Maps m (Function.update cell i (some (k, v))) k' w ↔
          k' = k ∧ w = v ∨ k' ≠ k ∧ Maps m cell k' w := by
  obtain ⟨i, hi, hscan, ⟨w, hw⟩ | ⟨hnone, hno⟩⟩ := h.scan_find hstep hhome hfree
  · exact ⟨i, hi, hscan, h.write hi hw⟩
  · have hsame : ∀ j < m, settles cell k j = isFree cell j := by
      intro j hj
      rw [Bool.eq_iff_iff, settles_iff, isFree_iff]
      refine ⟨fun hset => hset.resolve_right ?_, .inl⟩
      rintro ⟨w, hw⟩
      exact hno w ⟨j, hj, hw⟩
    have hfirst := hscan
    rw [scan_congr hstep hhome hsame] at hfirst
    refine ⟨i, hi, hscan, h.insert hstep hhome hno hfirst, fun k' w => ?_⟩
    rw [maps_update hi hnone]
    constructor
    · rintro (hnew | hold)
      · exact .inl hnew
      · refine .inr ⟨?_, hold⟩
        rintro rfl
        exact hno w hold
    · rintro (hnew | ⟨-, hold⟩)
      · exact .inl hnew
      · exact .inr hold

/-! ### Deletion -/

/-- The position is in the half-open arc behind `lo` up to `hi`. -/
def inCyclicRange (lo pos hi : ℕ) : Bool :=
  if lo ≤ hi then lo < pos && pos ≤ hi else lo < pos || pos ≤ hi

theorem inCyclicRange_iff {lo pos hi : ℕ} (hlo : lo < m) (hpos : pos < m) : inCyclicRange lo pos hi = true ↔ dist m pos hi < dist m lo hi := by
  unfold inCyclicRange dist
  split_ifs <;> simp only [Bool.and_eq_true, Bool.or_eq_true, decide_eq_true_eq] <;> omega

/-- The deletion loop: `i` is the hole and `j` the last cell that stays; none when the fuel runs
out. -/
def shiftBack (step : ℕ → ℕ) (home : K → ℕ) : ℕ → (ℕ → Option (K × V)) → ℕ → ℕ →
    Option (ℕ → Option (K × V))
  | 0, _, _, _ => none
  | fuel + 1, cell, i, j =>
    match cell (step j) with
    | none => some (Function.update cell i none)
    | some (k, v) =>
      if inCyclicRange i (home k) (step j) then shiftBack step home fuel cell i (step j)
      else shiftBack step home fuel (Function.update cell i (some (k, v))) (step j) (step j)

/-- **The invariant of the deletion loop**, about the table whose hole is free: only cells behind
the last one seen have a probe path across the hole. -/
structure Shifting (m : ℕ) (home : K → ℕ) (cell : ℕ → Option (K × V)) (i j : ℕ) : Prop where
  /-- The hole is a cell. -/
  hole_lt : i < m
  /-- The last cell seen is a cell. -/
  last_lt : j < m
  /-- The hole is free. -/
  hole : cell i = none
  /-- The cells seen since are taken. -/
  seen : ∀ d, 0 < d → d ≤ dist m i j → cell (adv m i d) ≠ none
  /-- Other probe paths have no free cell. -/
  reach : ∀ p < m, ∀ k v, cell p = some (k, v) → ∀ d < dist m (home k) p,
    cell (adv m (home k) d) ≠ none ∨ adv m (home k) d = i ∧ dist m i j < dist m i p
  /-- No key twice. -/
  unique : ∀ p < m, ∀ q < m, ∀ k v w, cell p = some (k, v) → cell q = some (k, w) → p = q

omit [DecidableEq K] in
/-- The loop starts at the deleted key. -/
theorem Probed.shifting (h : Probed m home cell) (hi : i < m) :
    Shifting m home (Function.update cell i none) i i := by
  refine ⟨hi, hi, Function.update_self .., ?_, ?_, ?_⟩
  · intro d hd hd'
    rw [dist_self] at hd'
    omega
  · intro p hp k v hcp d hd
    have hpi : p ≠ i := by
      rintro rfl
      rw [Function.update_self] at hcp
      cases hcp
    rw [Function.update_of_ne hpi] at hcp
    by_cases hq : adv m (home k) d = i
    · rw [dist_self]
      exact Or.inr ⟨hq, dist_pos hi (Ne.symm hpi)⟩
    · rw [Function.update_of_ne hq]
      exact Or.inl (h.reach p hp k v hcp d hd)
  · intro p hp q hq k v w hcp hcq
    rw [Function.update_apply] at hcp hcq
    split_ifs at hcp hcq
    exact h.unique p hp q hq k v w hcp hcq

section Shifting

variable (hhome : ∀ k, home k < m)

include hhome

omit [DecidableEq K] in
/-- At a free cell behind the last one seen no probe path crosses the hole. -/
theorem Shifting.probed (h : Shifting m home cell i j) (hne : next m j ≠ i)
    (hfree : cell (next m j) = none) : Probed m home cell := by
  refine ⟨?_, h.unique⟩
  intro p hp k v hcp d hd hnone
  rcases h.reach p hp k v hcp d hd with hsome | ⟨rfl, hlt⟩
  · exact hsome hnone
  · have hh := hhome k
    have hi := h.hole_lt
    have hj := h.last_lt
    have hn := next_lt hj
    have hdm : d < m := hd.trans (dist_lt hh hp)
    have hda := dist_adv hh hdm
    have hstep := dist_next_right hi h.last_lt hne
    -- the free cell lies on the path too, behind the hole
    rcases (Nat.succ_le_of_lt hlt).lt_or_eq with hlt' | heq
    · have hnp : next m j ≠ p := by
        intro heq
        rw [← heq, hfree] at hcp
        cases hcp
      have hle : dist m (adv m (home k) d) (next m j) < dist m (adv m (home k) d) p := by
        rcases (show dist m (adv m (home k) d) (next m j) ≤ dist m (adv m (home k) d) p by
          omega).lt_or_eq with h1 | h1
        · exact h1
        · exact absurd (eq_of_dist_eq hi hn hp h1) hnp
      have hadd := dist_add_of_le hh hi hp (by omega)
      have hpm := dist_lt hh hp
      have hpos := dist_add_of_lt (c := next m j) hh hi (by omega)
      rcases h.reach p hp k v hcp (dist m (home k) (next m j)) (by omega) with hsome | ⟨hi', -⟩
      · rw [adv_dist hh hn] at hsome
        exact hsome hfree
      · rw [adv_dist hh hn] at hi'
        exact hne hi'
    · have hnp : next m j = p := eq_of_dist_eq hi hn hp (by omega)
      rw [← hnp, hfree] at hcp
      cases hcp

omit [DecidableEq K] in
/-- A cell whose probe path does not cross the hole stays. -/
theorem Shifting.stay (h : Shifting m home cell i j) (hne : next m j ≠ i)
    (hc : cell (next m j) = some (k, v)) (hr : inCyclicRange i (home k) (next m j) = true) :
    Shifting m home cell i (next m j) := by
  have hi := h.hole_lt
  have hn := next_lt h.last_lt
  have hstep := dist_next_right hi h.last_lt hne
  rw [inCyclicRange_iff hi (hhome k)] at hr
  refine ⟨hi, hn, h.hole, ?_, ?_, h.unique⟩
  · intro d hd hd'
    rcases (show d ≤ dist m i j ∨ d = dist m i (next m j) by omega) with hle | rfl
    · exact h.seen d hd hle
    · rw [adv_dist hi hn, hc]
      exact Option.some_ne_none _
  · intro p hp k' v' hcp d hd
    rcases h.reach p hp k' v' hcp d hd with hsome | ⟨hdi, hlt⟩
    · exact Or.inl hsome
    · refine Or.inr ⟨hdi, ?_⟩
      rcases (show dist m i (next m j) ≤ dist m i p by omega).lt_or_eq with hlt' | heq
      · exact hlt'
      · -- the cell itself: its path starts behind the hole
        obtain rfl := eq_of_dist_eq hi hn hp heq
        rw [hc] at hcp
        obtain ⟨rfl, rfl⟩ := Prod.mk.inj (Option.some.inj hcp)
        have hh := hhome k
        have := dist_eq_of_adv hh (hd.trans (dist_lt hh hp)) hdi
        have hadd := dist_add_of_le hh hi hp (by omega)
        omega

omit [DecidableEq K] in
/-- A cell whose probe path crosses the hole moves into it. -/
theorem Shifting.move (h : Shifting m home cell i j) (hne : next m j ≠ i)
    (hc : cell (next m j) = some (k, v)) (hr : ¬ inCyclicRange i (home k) (next m j) = true) :
    Shifting m home (Function.update (Function.update cell i (some (k, v))) (next m j) none)
      (next m j) (next m j) := by
  have hi := h.hole_lt
  have hn := next_lt h.last_lt
  have hh := hhome k
  rw [inCyclicRange_iff hi hh] at hr
  have hin : i ≠ next m j := Ne.symm hne
  have hpath := dist_add_of_le' hh hi (not_lt.1 hr)
  refine ⟨hn, hn, Function.update_self .., ?_, ?_, ?_⟩
  · intro d hd hd'
    rw [dist_self] at hd'
    omega
  · intro p hp k' v' hcp d hd
    rw [dist_self]
    have hpn : p ≠ next m j := by
      rintro rfl
      rw [Function.update_self] at hcp
      cases hcp
    by_cases hdn : adv m (home k') d = next m j
    · exact Or.inr ⟨hdn, dist_pos hn (Ne.symm hpn)⟩
    · left
      rw [Function.update_of_ne hdn]
      rw [Function.update_of_ne hpn] at hcp
      by_cases hdi : adv m (home k') d = i
      · rw [hdi, Function.update_self]
        exact Option.some_ne_none _
      · rw [Function.update_of_ne hdi]
        rw [Function.update_apply] at hcp
        split_ifs at hcp with hpi
        · -- the moved cell: its path was the beginning of the old one
          obtain ⟨rfl, rfl⟩ := Prod.mk.inj (Option.some.inj hcp)
          subst hpi
          rcases h.reach _ hn k v hc d (by omega) with hsome | ⟨hdi', -⟩
          · exact hsome
          · exact absurd hdi' hdi
        · rcases h.reach p hp k' v' hcp d hd with hsome | ⟨hdi', -⟩
          · exact hsome
          · exact absurd hdi' hdi
  · intro p hp q hq k' v' w' hcp hcq
    rw [Function.update_apply] at hcp hcq
    split_ifs at hcp hcq with hpn hqn
    rw [Function.update_apply] at hcp hcq
    split_ifs at hcp hcq with hpi hqi hqi
    · rw [hpi, hqi]
    · obtain ⟨rfl, rfl⟩ := Prod.mk.inj (Option.some.inj hcp)
      exact absurd (h.unique q hq _ hn _ _ _ hcq hc) hqn
    · obtain ⟨rfl, rfl⟩ := Prod.mk.inj (Option.some.inj hcq)
      exact absurd (h.unique p hp _ hn _ _ _ hcp hc) hpn
    · exact h.unique p hp q hq k' v' w' hcp hcq

omit [DecidableEq K] in
/-- The loop ends with a table that maps what the table with the hole mapped. -/
theorem Shifting.shiftBack {fuel f : ℕ} (hstep : ∀ i < m, step i = next m i)
    (h : Shifting m home (Function.update cell i none) i j) (hf : f < m) (hfi : f ≠ i) (hfree : cell f = none) (hfj : f ≠ j)
    (hfuel : dist m j f ≤ fuel) :
    ∃ cell', shiftBack step home fuel cell i j = some cell' ∧ Probed m home cell' ∧
      cell' f = none ∧ ∀ k v, Maps m cell' k v ↔ Maps m (Function.update cell i none) k v := by
  induction fuel generalizing cell i j with
  | zero => exact absurd (dist_pos h.last_lt (Ne.symm hfj)) (by omega)
  | succ fuel ih =>
    have hj := h.last_lt
    have hi := h.hole_lt
    have hn := next_lt hj
    have hdist := dist_next_left hj hf (Ne.symm hfj)
    -- the free cell is ahead, so the loop does not come round to the hole
    have hne : next m j ≠ i := by
      intro heq
      have hd : dist m i f ≤ dist m i j := by
        unfold dist next at *
        split_ifs at * <;> omega
      refine h.seen (dist m i f) (dist_pos hi (Ne.symm hfi)) hd ?_
      rw [adv_dist hi hf, Function.update_of_ne hfi, hfree]
    unfold Probing.shiftBack
    rw [hstep j hj]
    rcases hc : cell (next m j) with _ | ⟨k, v⟩
    · have hfin : Function.update cell i none (next m j) = none := by
        rw [Function.update_of_ne hne, hc]
      refine ⟨_, rfl, h.probed hhome hne hfin, ?_, fun _ _ => Iff.rfl⟩
      rw [Function.update_of_ne hfi, hfree]
    · have hc' : Function.update cell i none (next m j) = some (k, v) := by
        rw [Function.update_of_ne hne, hc]
      have hfn : f ≠ next m j := by
        rintro rfl
        rw [hfree] at hc
        cases hc
      by_cases hr : inCyclicRange i (home k) (next m j) = true
      · simp only [hr, if_true]
        exact ih (h.stay hhome hne hc' hr) hfi hfree hfn (by omega)
      · simp only [hr]
        have hmove := h.move hhome hne hc' hr
        rw [Function.update_idem] at hmove
        obtain ⟨cell', hrun, hprobed, hf', hmaps⟩ := ih hmove hfn
          (by rw [Function.update_of_ne hfi, hfree]) hfn (by omega)
        refine ⟨cell', hrun, hprobed, hf', fun k' v' => ?_⟩
        rw [hmaps]
        -- the moved pair is the only one whose cell changed
        constructor
        · rintro ⟨p, hp, hcp⟩
          rw [Function.update_apply] at hcp
          split_ifs at hcp with hpn
          rw [Function.update_apply] at hcp
          split_ifs at hcp with hpi
          · obtain ⟨rfl, rfl⟩ := Prod.mk.inj (Option.some.inj hcp)
            exact ⟨next m j, hn, hc'⟩
          · exact ⟨p, hp, by rw [Function.update_of_ne hpi, hcp]⟩
        · rintro ⟨p, hp, hcp⟩
          rw [Function.update_apply] at hcp
          split_ifs at hcp with hpi
          by_cases hpn : p = next m j
          · subst hpn
            rw [hc] at hcp
            obtain ⟨rfl, rfl⟩ := Prod.mk.inj (Option.some.inj hcp)
            exact ⟨i, hi, by rw [Function.update_of_ne (Ne.symm hne), Function.update_self]⟩
          · exact ⟨p, hp, by rw [Function.update_of_ne hpn, Function.update_of_ne hpi, hcp]⟩

omit [DecidableEq K] in
/-- **Deletion** ends, keeps the invariant and removes exactly the key. -/
theorem Probed.shiftBack {f : ℕ} (hstep : ∀ i < m, step i = next m i) (h : Probed m home cell)
    (hf : f < m) (hfree : cell f = none) (hi : i < m) (hc : cell i = some (k, v)) :
    ∃ cell', shiftBack step home m cell i i = some cell' ∧ Probed m home cell' ∧
      ∀ k' w, Maps m cell' k' w ↔ k' ≠ k ∧ Maps m cell k' w := by
  have hfi : f ≠ i := by
    rintro rfl
    rw [hfree] at hc
    cases hc
  obtain ⟨cell', hrun, hprobed, -, hmaps⟩ := Shifting.shiftBack hhome hstep (h.shifting hi) hf hfi hfree hfi
    (dist_lt hi hf).le
  refine ⟨cell', hrun, hprobed, fun k' w => (hmaps k' w).trans ?_⟩
  constructor
  · rintro ⟨p, hp, hcp⟩
    rw [Function.update_apply] at hcp
    split_ifs at hcp with hpi
    refine ⟨?_, p, hp, hcp⟩
    rintro rfl
    exact hpi (h.unique p hp i hi k' w v hcp hc)
  · rintro ⟨hk, p, hp, hcp⟩
    refine ⟨p, hp, ?_⟩
    have hpi : p ≠ i := by
      rintro rfl
      rw [hc] at hcp
      exact hk (Prod.mk.inj (Option.some.inj hcp)).1.symm
    rw [Function.update_of_ne hpi, hcp]

end Shifting

/-! ### Deletion under another test -/

/-- The deletion loop under a test of a program's own. -/
def shiftBackBy (inGap : ℕ → ℕ → ℕ → Bool) (step : ℕ → ℕ) (home : K → ℕ) :
    ℕ → (ℕ → Option (K × V)) → ℕ → ℕ → Option (ℕ → Option (K × V))
  | 0, _, _, _ => none
  | fuel + 1, cell, i, j =>
    match cell (step j) with
    | none => some (Function.update cell i none)
    | some (k, v) =>
      if inGap i (home k) (step j) then shiftBackBy inGap step home fuel cell i (step j)
      else
        shiftBackBy inGap step home fuel (Function.update cell i (some (k, v))) (step j) (step j)

omit [DecidableEq K] in
/-- **A test that differs at the hole only** deletes alike, because a free cell ahead stops the
loop before the hole. -/
theorem shiftBackBy_eq {inGap : ℕ → ℕ → ℕ → Bool} {fuel f : ℕ}
    (hgap : ∀ lo pos hi, hi ≠ lo → inGap lo pos hi = inCyclicRange lo pos hi)
    (hstep : ∀ i < m, step i = next m i) (hf : f < m) (hfree : cell f = none) (hi : i < m)
    (hj : j < m) (hfj : f ≠ j) (hahead : i = j ∨ dist m j f < dist m j i) :
    shiftBackBy inGap step home fuel cell i j = shiftBack step home fuel cell i j := by
  induction fuel generalizing cell i j with
  | zero => rfl
  | succ fuel ih =>
    have hn := next_lt hj
    have hdist := dist_next_left hj hf (Ne.symm hfj)
    -- the free cell is ahead, so the next cell is not the hole
    have hne : next m j ≠ i := by
      intro heq
      rcases hahead with rfl | hlt
      · unfold next dist at *
        split_ifs at * <;> omega
      · unfold next dist at *
        split_ifs at * <;> omega
    unfold shiftBackBy shiftBack
    rw [hstep j hj]
    cases hc : cell (next m j) with
    | none => rfl
    | some p =>
      obtain ⟨k, v⟩ := p
      have hfn : f ≠ next m j := by
        rintro rfl
        rw [hfree] at hc
        cases hc
      simp only [hgap _ _ _ hne]
      split_ifs
      · refine ih hfree hi hn hfn (.inr ?_)
        rcases hahead with rfl | hlt
        · unfold next dist at *
          split_ifs at * <;> omega
        · have hdist' : dist m (next m j) i + 1 = dist m j i := by
            refine dist_next_left hj hi ?_
            rintro rfl
            rw [dist_self] at hlt
            omega
          omega
      · have hfi : f ≠ i := by
          rintro rfl
          rcases hahead with rfl | hlt
          · exact hfj rfl
          · exact absurd hlt (lt_irrefl _)
        exact ih (by rw [Function.update_of_ne hfi, hfree]) hn hn hfn (.inl rfl)

end Table

end Probing
