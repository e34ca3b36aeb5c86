import Tess.Core.Distance
import Tess.Lib.LabelSetting
import Tess.Topology.Legal

/-!
# Straight segments

The loops of the shortcuts walk along one axis at a time until a coordinate is reached,
checking every tile they enter.

* `walkAxis`, `walkAxes` : such a walk along one axis and along several in turn;
* `walkAxes_ok` : a walk that succeeds is **a route as long as the distance it covers**;
* `walkAxes_error` : a walk that fails stops at a tile inside the box it crosses;
* `exists_plane` : a route meets **every plane between its ends**;
* `gridDist_add_two_le` : a route that cannot take the straight segment between its ends is
  at least two steps longer.
-/

namespace Tess

open Graphs

/-! ### Boxes -/

/-- `b` lies in the box spanned by `a` and `c`. -/
def InBox (a b c : Coord3) : Prop :=
  ∀ r, (a.get r ≤ b.get r ∧ b.get r ≤ c.get r) ∨ (c.get r ≤ b.get r ∧ b.get r ≤ a.get r)

section Boxes

variable {a b c d : Coord3} {S : Shape} {r : Axis} {v : ℤ}

theorem InBox.trans (h : InBox a b d) (h' : InBox b c d) : InBox a c d := fun r => by
  have := h r
  have := h' r
  omega

theorem InBox.gridDist_add (h : InBox a b c) : gridDist a b + gridDist b c = gridDist a c := by
  have key : ∀ r, (a.get r - b.get r).natAbs + (b.get r - c.get r).natAbs =
      (a.get r - c.get r).natAbs := fun r => by
    have := h r
    omega
  have hx := key .x
  have hy := key .y
  have hz := key .z
  simp only [Coord3.get] at hx hy hz
  unfold gridDist
  linarith

theorem inBox_of_gridDist_le (h : gridDist a b + gridDist b c ≤ gridDist a c) :
    InBox a b c := by
  have hx := natAbs_sub_triangle a.x b.x c.x
  have hy := natAbs_sub_triangle a.y b.y c.y
  have hz := natAbs_sub_triangle a.z b.z c.z
  unfold gridDist at h
  have hx' : (a.x - b.x).natAbs + (b.x - c.x).natAbs ≤ (a.x - c.x).natAbs := by linarith
  have hy' : (a.y - b.y).natAbs + (b.y - c.y).natAbs ≤ (a.y - c.y).natAbs := by linarith
  have hz' : (a.z - b.z).natAbs + (b.z - c.z).natAbs ≤ (a.z - c.z).natAbs := by linarith
  intro r
  cases r <;> simp only [Coord3.get] <;> omega

theorem InBox.contains (h : InBox a b c) (ha : S.contains a = true)
    (hc : S.contains c = true) : S.contains b = true := by
  rw [Shape.contains_iff_get] at *
  intro r
  have := h r
  have := ha r
  have := hc r
  omega

theorem gridDist_set (a : Coord3) (r : Axis) (v : ℤ) :
    gridDist a (a.set r v) = (a.get r - v).natAbs := by
  cases r <;> simp [gridDist, Coord3.set, Coord3.get]

theorem faceAdjacent_set (a : Coord3) {r : Axis} {v : ℤ} (h : (a.get r - v).natAbs = 1) :
    FaceAdjacent a (a.set r v) := (gridDist_set a r v).trans h

theorem contains_set (ha : S.contains a = true) (h0 : 0 ≤ v) (h1 : v < S.size.get r) :
    S.contains (a.set r v) = true := by
  rw [Shape.contains_iff_get] at *
  intro q
  rw [Coord3.get_set]
  split_ifs with hq
  · subst hq; exact ⟨h0, h1⟩
  · exact ha q

end Boxes

/-! ### Walks along the axes -/

/-- `while (current.*member != target)`: one unit towards the target, a check, a push.  The
walk ends at the target, or with an error at the first tile that fails the check. -/
def walkAxisLoop (ok : Coord3 → Bool) (axis : Axis) (target : ℤ) :
    ℕ → Coord3 → List Coord3 → Except Coord3 (Coord3 × List Coord3)
  | 0, current, path => .ok (current, path)
  | fuel + 1, current, path =>
    if current.get axis = target then .ok (current, path)
    else
      let next := current.set axis
        (current.get axis + if current.get axis < target then 1 else -1)
      if ok next then walkAxisLoop ok axis target fuel next (path ++ [next])
      else .error next

/-- The loop takes one iteration for each unit of distance. -/
def walkAxis (ok : Coord3 → Bool) (axis : Axis) (target : ℤ) (current : Coord3)
    (path : List Coord3) : Except Coord3 (Coord3 × List Coord3) :=
  walkAxisLoop ok axis target (current.get axis - target).natAbs current path

/-- Walk to the coordinates of `dest` along the listed axes in turn; an error names the axis
and the tile that failed the check. -/
def walkAxes (ok : Coord3 → Bool) (dest : Coord3) :
    List Axis → Coord3 → List Coord3 → Except (Axis × Coord3) (Coord3 × List Coord3)
  | [], current, path => .ok (current, path)
  | axis :: axes, current, path =>
    match walkAxis ok axis (dest.get axis) current path with
    | .error blocked => .error (axis, blocked)
    | .ok (next, path) => walkAxes ok dest axes next path

/-- One step onto a tile that passes the check. -/
def FaceStep (S : Shape) (ok : Coord3 → Bool) (a b : Coord3) (k : ℕ) : Prop :=
  S.contains a = true ∧ S.contains b = true ∧ FaceAdjacent a b ∧ ok b = true ∧ k = 1

section Walks

variable {S : Shape} {ok : Coord3 → Bool} {axis : Axis} {target : ℤ} {a b c dest : Coord3}
  {axes : List Axis} {path path' l : List Coord3} {k C : ℕ} {v : ℤ}

theorem FaceStep.unit : UnitCost (FaceStep S ok) := fun _ _ _ h => h.2.2.2.2

/-- One step towards the target stays in bounds and one unit closer to it. -/
theorem step_towards {x y t : ℤ} {n : ℕ} (h : (x - t).natAbs = n + 1)
    (hy : y = x + if x < t then 1 else -1) :
    (y - t).natAbs = n ∧ (x - y).natAbs = 1 ∧
      ((x < y ∧ y ≤ t) ∨ (t ≤ y ∧ y < x)) := by
  split_ifs at hy <;> omega

theorem walkAxisLoop_end (fuel : ℕ) (hfuel : (a.get axis - target).natAbs = fuel)
    (h : walkAxisLoop ok axis target fuel a path = .ok (c, path')) : c = a.set axis target := by
  induction fuel generalizing a path with
  | zero =>
    simp only [walkAxisLoop, Except.ok.injEq, Prod.mk.injEq] at h
    have : target = a.get axis := by omega
    rw [this, Coord3.set_get, h.1]
  | succ fuel ih =>
    rw [walkAxisLoop, if_neg (by omega)] at h
    simp only at h
    set y := a.get axis + if a.get axis < target then 1 else -1 with hy
    split_ifs at h with hok
    rw [ih (by rw [Coord3.get_set, if_pos rfl]; exact (step_towards hfuel hy).1) h,
      Coord3.set_set]

theorem walkAxisLoop_ok (ha : S.contains a = true) (ht : 0 ≤ target)
    (ht' : target < S.size.get axis) (fuel : ℕ) (hfuel : (a.get axis - target).natAbs = fuel)
    (h : walkAxisLoop ok axis target fuel a path = .ok (c, path')) :
    ∃ l, path' = path ++ l ∧ IsRoute (FaceStep S ok) (a :: l) a c fuel := by
  induction fuel generalizing a path with
  | zero =>
    simp only [walkAxisLoop, Except.ok.injEq, Prod.mk.injEq] at h
    obtain ⟨rfl, rfl⟩ := h
    exact ⟨[], by simp, .single _⟩
  | succ fuel ih =>
    rw [walkAxisLoop, if_neg (by omega)] at h
    simp only at h
    set y := a.get axis + if a.get axis < target then 1 else -1 with hy
    obtain ⟨hd, h1, hb⟩ := step_towards hfuel hy
    split_ifs at h with hok
    have hmem := Shape.contains_iff_get.1 ha axis
    have hc : S.contains (a.set axis y) = true := contains_set ha (by omega) (by omega)
    obtain ⟨l, rfl, hl⟩ := ih hc (by rw [Coord3.get_set, if_pos rfl]; exact hd) h
    refine ⟨a.set axis y :: l, by simp, ?_⟩
    rw [Nat.add_comm]
    exact .cons ⟨ha, hc, faceAdjacent_set a h1, hok, rfl⟩ hl

theorem walkAxis_ok (ha : S.contains a = true) (hd : S.contains dest = true)
    (h : walkAxis ok axis (dest.get axis) a path = .ok (c, path')) :
    c = a.set axis (dest.get axis) ∧
      ∃ l, path' = path ++ l ∧ IsRoute (FaceStep S ok) (a :: l) a c (gridDist a c) := by
  have hr := Shape.contains_iff_get.1 hd axis
  obtain ⟨l, hl, hroute⟩ := walkAxisLoop_ok ha hr.1 hr.2 _ rfl h
  obtain rfl := walkAxisLoop_end _ rfl h
  exact ⟨rfl, l, hl, by rw [gridDist_set]; exact hroute⟩

theorem walkAxisLoop_error (fuel : ℕ) (hfuel : (a.get axis - target).natAbs = fuel)
    (h : walkAxisLoop ok axis target fuel a path = .error b) :
    ∃ v, b = a.set axis v ∧ ok b = false ∧
      ((a.get axis < v ∧ v ≤ target) ∨ (target ≤ v ∧ v < a.get axis)) := by
  induction fuel generalizing a path with
  | zero => simp [walkAxisLoop] at h
  | succ fuel ih =>
    rw [walkAxisLoop, if_neg (by omega)] at h
    simp only at h
    set y := a.get axis + if a.get axis < target then 1 else -1 with hy
    obtain ⟨hd, -, hb⟩ := step_towards hfuel hy
    split_ifs at h with hok
    · obtain ⟨v, rfl, hv, hbv⟩ := ih (by rw [Coord3.get_set, if_pos rfl]; exact hd) h
      rw [Coord3.get_set, if_pos rfl] at hbv
      exact ⟨v, Coord3.set_set .., hv, by omega⟩
    · rw [Except.error.injEq] at h
      exact ⟨y, h.symm, by rw [← h]; simpa using hok, hb⟩

/-- Overwrite the listed coordinates by those of `dest`. -/
def setAxes (dest : Coord3) (axes : List Axis) (c : Coord3) : Coord3 :=
  axes.foldl (fun c a => c.set a (dest.get a)) c

theorem get_setAxes (dest : Coord3) (axes : List Axis) (c : Coord3) (r : Axis) :
    (setAxes dest axes c).get r = if r ∈ axes then dest.get r else c.get r := by
  induction axes generalizing c with
  | nil => rfl
  | cons a as ih =>
    rw [setAxes, List.foldl_cons]
    refine (ih _).trans ?_
    by_cases h1 : r ∈ as <;> by_cases h2 : r = a <;> simp [h1, h2]

/-- The walk along the first axis stays in the box of the whole walk. -/
theorem inBox_set (a dest : Coord3) (axis : Axis) :
    InBox a (a.set axis (dest.get axis)) dest := fun r => by
  rw [Coord3.get_set]
  split_ifs with h
  · subst h; omega
  · omega

/-- **A walk that succeeds** covers the distance to its end in as many steps. -/
theorem walkAxes_ok (ha : S.contains a = true) (hd : S.contains dest = true)
    (h : walkAxes ok dest axes a path = .ok (c, path')) :
    c = setAxes dest axes a ∧
      ∃ l, path' = path ++ l ∧ IsRoute (FaceStep S ok) (a :: l) a c (gridDist a c) := by
  induction axes generalizing a path with
  | nil =>
    simp only [walkAxes, Except.ok.injEq, Prod.mk.injEq] at h
    obtain ⟨rfl, rfl⟩ := h
    exact ⟨rfl, [], by simp, by rw [gridDist_self]; exact .single _⟩
  | cons axis axes ih =>
    rw [walkAxes] at h
    split at h
    · cases h
    · rename_i next path₁ hw
      obtain ⟨rfl, l₁, rfl, h₁⟩ := walkAxis_ok ha hd hw
      obtain ⟨rfl, l₂, rfl, h₂⟩ := ih ((inBox_set a dest axis).contains ha hd) h
      refine ⟨rfl, l₁ ++ l₂, by simp, ?_⟩
      have hbox : InBox a (a.set axis (dest.get axis))
          (setAxes dest axes (a.set axis (dest.get axis))) := fun r => by
        rw [get_setAxes, Coord3.get_set]
        by_cases hr : r = axis
        · subst hr; simp only [if_true]; split_ifs <;> omega
        · simp only [hr, if_false]; omega
      change IsRoute (FaceStep S ok) _ a (setAxes dest axes _) (gridDist a (setAxes dest axes _))
      rw [← hbox.gridDist_add]
      exact h₁.append h₂

/-- **A walk that fails** stops at a tile of the box it crosses, past its start on the axis it
walked along. -/
theorem walkAxes_error (h : walkAxes ok dest axes a path = .error (axis, b)) :
    InBox a b dest ∧ ok b = false ∧
      ((a.get axis < b.get axis ∧ b.get axis ≤ dest.get axis) ∨
        (dest.get axis ≤ b.get axis ∧ b.get axis < a.get axis)) := by
  induction axes generalizing a path with
  | nil => simp [walkAxes] at h
  | cons r axes ih =>
    rw [walkAxes] at h
    split at h
    · rename_i blocked hw
      simp only [Except.error.injEq, Prod.mk.injEq] at h
      obtain ⟨rfl, rfl⟩ := h
      obtain ⟨v, rfl, hok, hv⟩ := walkAxisLoop_error _ rfl hw
      refine ⟨fun q => ?_, hok, ?_⟩
      · rw [Coord3.get_set]
        split_ifs with hq
        · subst hq; omega
        · omega
      · rwa [Coord3.get_set, if_pos rfl]
    · rename_i next path₁ hw
      obtain rfl : next = a.set r (dest.get r) := walkAxisLoop_end _ rfl hw
      obtain ⟨hbox, hok, hb⟩ := ih h
      refine ⟨(inBox_set a dest r).trans hbox, hok, ?_⟩
      rw [Coord3.get_set] at hb
      split_ifs at hb with hq
      · subst hq; omega
      · exact hb

/-! ### What every route has to do -/

theorem gridDist_le_of_reaches (h : Reaches (FaceStep S ok) a b C) : gridDist a b ≤ C := by
  have := h.potential_le (h := fun c => gridDist c b) fun u w k hs => by
    have htri := gridDist_triangle u w b
    have hface : gridDist u w = 1 := hs.2.2.1
    have hk : k = 1 := hs.unit
    omega
  simpa using this

theorem ok_of_reaches (h : Reaches (FaceStep S ok) a b C) (ha : ok a = true) : ok b = true := by
  obtain ⟨l, hl⟩ := h
  exact hl.forall_mem (P := fun c => ok c = true) ha (fun _ _ _ h _ => h.2.2.2.1) b hl.right_mem

theorem contains_of_reaches (h : Reaches (FaceStep S ok) a b C) (ha : S.contains a = true) :
    S.contains b = true := by
  obtain ⟨l, hl⟩ := h
  exact hl.forall_mem (P := fun c => S.contains c = true) ha (fun _ _ _ h _ => h.2.1) b hl.right_mem

/-- **A route meets every plane between its ends.** -/
theorem exists_plane (h : Reaches (FaceStep S ok) a b C)
    (hv : (a.get axis ≤ v ∧ v ≤ b.get axis) ∨ (b.get axis ≤ v ∧ v ≤ a.get axis)) :
    ∃ w C₁ C₂, w.get axis = v ∧ Reaches (FaceStep S ok) a w C₁ ∧
      Reaches (FaceStep S ok) w b C₂ ∧ C = C₁ + C₂ := by
  by_cases hav : a.get axis = v
  · exact ⟨a, 0, C, hav, .refl a, h, by omega⟩
  -- the route leaves the side of the plane on which it starts
  let P : Coord3 → Prop := fun c => (a.get axis < v ∧ c.get axis < v) ∨
    (v < a.get axis ∧ v < c.get axis)
  obtain ⟨u, w, k, C₁, C₂, h₁, hu, hs, hw, h₂, rfl⟩ :=
    h.exists_crossing (P := P) (by simp only [P]; omega) (by simp only [P]; omega)
  have hstep : (u.get axis - w.get axis).natAbs ≤ 1 := by
    have hface : gridDist u w = 1 := hs.2.2.1
    unfold gridDist at hface
    cases axis <;> simp only [Coord3.get] <;> omega
  refine ⟨w, C₁ + k, C₂, ?_, h₁.tail hs, h₂, by ring⟩
  simp only [P] at hu hw
  omega

theorem gridDist_parity (a b c : Coord3) :
    (gridDist a b + gridDist b c + gridDist a c) % 2 = 0 := by
  have key : ∀ x y z : ℤ, ((x - y).natAbs + (y - z).natAbs + (x - z).natAbs) % 2 = 0 :=
    fun x y z => by omega
  have hx := key a.x b.x c.x
  have hy := key a.y b.y c.y
  have hz := key a.z b.z c.z
  unfold gridDist
  omega

/-- On the orthogonal lattice all routes between two tiles have lengths of one parity. -/
theorem parity_of_reaches (h : Reaches (FaceStep S ok) a b C) : (C + gridDist a b) % 2 = 0 := by
  obtain ⟨l, hl⟩ := h
  induction hl with
  | single => simp
  | @cons u w z _ k C hs _ ih =>
    have hpar := gridDist_parity u w z
    have hface : gridDist u w = 1 := hs.2.2.1
    have hk : k = 1 := hs.unit
    omega

/-- **A route that cannot be straight** is at least two steps longer: some plane between its
ends has no free tile in their box. -/
theorem gridDist_add_two_le (h : Reaches (FaceStep S ok) a b C) (ha : ok a = true)
    (hv : (a.get axis ≤ v ∧ v ≤ b.get axis) ∨ (b.get axis ≤ v ∧ v ≤ a.get axis))
    (hline : ∀ w, InBox a w b → w.get axis = v → ok w = false) : gridDist a b + 2 ≤ C := by
  obtain ⟨w, C₁, C₂, hw, h₁, h₂, rfl⟩ := exists_plane h hv
  have hpar := parity_of_reaches h
  have hle := gridDist_le_of_reaches h
  have h1 := gridDist_le_of_reaches h₁
  have h2 := gridDist_le_of_reaches h₂
  have hok := ok_of_reaches h₁ ha
  by_contra hlt
  have hbox : InBox a w b := inBox_of_gridDist_le (by omega)
  rw [hline w hbox hw] at hok
  exact absurd hok (by simp)

end Walks

end Tess
