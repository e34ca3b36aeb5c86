import Tess.Query.Span
import Mathlib.Algebra.GroupWithZero.Nat
import Mathlib.Algebra.Order.Group.Nat

/-!
# The rows of a query

A query emits row after row: the planes in order, in each plane the rows in order, in each row the
runs from left to right.  A row may be empty, and is cut into runs that fit 32 bits.

* `Before` : the order of the runs, under which different runs are disjoint;
* `xRuns` : the runs of one row;
* `rowSpans` : the runs of all rows, given the row of each place of the other two axes;
* `emitXRuns_eq`, `forOffsets_eq` : the loops emit these runs, and count them;
* `Covers` : what a query promises for a set of tiles, and `covers_rowSpans` : **rows cover their
  tiles**.
-/

namespace Tess

namespace TileSpan

/-- The run has the tile. -/
def Has (s : TileSpan) (t : Coord3) : Prop :=
  t.y = s.origin.y ∧ t.z = s.origin.z ∧ s.origin.x ≤ t.x ∧ t.x < s.origin.x + s.xCount

/-- The first run ends before the second starts, in the order of planes, rows and places. -/
def Before (s s' : TileSpan) : Prop :=
  s.origin.z < s'.origin.z ∨ s.origin.z = s'.origin.z ∧
    (s.origin.y < s'.origin.y ∨
      s.origin.y = s'.origin.y ∧ s.origin.x + s.xCount ≤ s'.origin.x)

theorem Before.disjoint {s s' : TileSpan} (h : s.Before s') (t : Coord3) :
    ¬ (s.Has t ∧ s'.Has t) := by
  rintro ⟨⟨hy, hz, -, hx⟩, hy', hz', hx', -⟩
  rcases h with h | ⟨-, h | ⟨-, h⟩⟩ <;> omega

end TileSpan

/-- The output after a list of runs. -/
def outputOf (spans : List TileSpan) : SpanOutput :=
  ⟨spans, ⟨min spans.length u64Max, min (spans.map TileSpan.xCount).sum u64Max⟩⟩

/-- The runs of a row, with fuel: as long as 32 bits allow, then the rest. -/
def xRuns (y z : ℤ) : ℕ → ℤ → ℕ → List TileSpan
  | 0, _, _ => []
  | fuel + 1, x, count =>
    if count = 0 then []
    else ⟨⟨x, y, z⟩, min count maxRun⟩ :: xRuns y z fuel (x + min count maxRun) (count - maxRun)

/-- The runs of the row on a clipped axis. -/
def rowRuns (y z : ℤ) (x : ClippedAxis) : List TileSpan := xRuns y z x.count x.origin x.count

/-- The runs of all rows: planes from `z`, and in each plane rows from `y`. -/
def rowSpans (y z : ClippedAxis) (row : ℤ → ℤ → ClippedAxis) : List TileSpan :=
  (List.range z.count).flatMap fun (dz : ℕ) => (List.range y.count).flatMap fun (dy : ℕ) =>
    rowRuns (y.origin + dy) (z.origin + dz) (row (y.origin + dy) (z.origin + dz))

/-! ### The loops emit the rows -/

section Loops

variable {spans : List TileSpan} {span : TileSpan} {x y z : ℤ} {count fuel emitted : ℕ}

theorem saturatingAdd64_min (a b : ℕ) (hb : b ≤ u64Max) :
    saturatingAdd64 (min a u64Max) b = min (a + b) u64Max := by
  unfold saturatingAdd64
  split_ifs <;> omega

theorem emit_outputOf (h : span.xCount ≤ u64Max) :
    (outputOf spans).emit span = outputOf (spans ++ [span]) := by
  have hone : 1 ≤ u64Max := by decide
  simp only [SpanOutput.emit, outputOf, saturatingAdd64_min _ _ h, saturatingAdd64_min _ _ hone,
    List.length_append, List.length_singleton, List.map_append, List.map_singleton,
    List.sum_append, List.sum_singleton]

/-- **One row**: the loop emits its runs, and nothing overflows within the coordinates. -/
theorem emitFrom_eq (fuel : ℕ) : ∀ {emitted : ℕ} {spans : List TileSpan},
    emitted ≤ count → count - emitted ≤ fuel → -2 ^ 63 ≤ x → x + count < 2 ^ 63 →
    count < 2 ^ 63 →
    emitFrom x count y z fuel emitted (outputOf spans) =
      some (outputOf (spans ++ xRuns y z fuel (x + emitted) (count - emitted))) := by
  induction fuel with
  | zero =>
    intro emitted spans hle hfuel _ _ _
    rw [emitFrom, if_neg (by omega), xRuns, List.append_nil]
  | succ fuel ih =>
    intro emitted spans hle hfuel hlow hhigh hcount
    rw [emitFrom, xRuns]
    by_cases hmore : emitted < count
    swap
    · rw [if_neg hmore, if_pos (by omega), List.append_nil]
    have hmax : 1 ≤ maxRun ∧ maxRun < 2 ^ 32 := by decide
    have hrun : min (count - emitted) maxRun ≤ u64Max := by
      have : maxRun ≤ u64Max := by decide
      omega
    rw [if_pos hmore, if_neg (by omega), Checked.u32_eq (by omega), Option.bind_some,
      Checked.i64_eq (by omega) (by omega), Option.bind_some,
      Checked.i64_eq (by omega) (by omega), Option.bind_some,
      Checked.u64_eq (n := emitted + min (count - emitted) maxRun) (by push_cast; rfl) (by omega),
      Option.bind_some, emit_outputOf hrun, ih (by omega) (by omega) hlow hhigh hcount,
      List.append_assoc, List.singleton_append]
    have hx : x + (emitted + min (count - emitted) maxRun : ℕ) =
        x + emitted + (min (count - emitted) maxRun : ℕ) := by
      push_cast
      omega
    have hleft : count - (emitted + min (count - emitted) maxRun) = count - emitted - maxRun := by
      omega
    rw [hx, hleft]

/-- Fuel beyond the length of a row does not matter. -/
theorem emitXRuns_eq (hlow : -2 ^ 63 ≤ x) (hhigh : x + count < 2 ^ 63) (hcount : count < 2 ^ 63) :
    emitXRuns x count y z (outputOf spans) =
      some (outputOf (spans ++ rowRuns y z ⟨x, count⟩)) := by
  rw [emitXRuns, emitFrom_eq count (Nat.zero_le _) (Nat.sub_le _ _) hlow hhigh hcount, rowRuns]
  simp

/-- **A loop over an axis** whose body emits given runs emits them in order. -/
theorem forOffsets_eq {body : ℕ → SpanOutput → Option SpanOutput} {runs : ℕ → List TileSpan}
    (h : ∀ offset < count, ∀ spans,
      body offset (outputOf spans) = some (outputOf (spans ++ runs offset))) :
    forOffsets count body (outputOf spans) =
      some (outputOf (spans ++ (List.range count).flatMap runs)) := by
  have key : ∀ (offsets : List ℕ), (∀ o ∈ offsets, o < count) → ∀ spans,
      offsets.foldlM (fun out offset => body offset out) (outputOf spans) =
        some (outputOf (spans ++ offsets.flatMap runs)) := by
    intro offsets
    induction offsets with
    | nil =>
      intro _ spans
      rw [List.flatMap_nil, List.append_nil]
      rfl
    | cons o offsets ih =>
      intro hlt spans
      rw [List.foldlM_cons, h o (hlt o List.mem_cons_self), Option.bind_eq_bind, Option.bind_some,
        ih (fun o' ho' => hlt o' (List.mem_cons_of_mem _ ho')), List.flatMap_cons,
        List.append_assoc]
  exact key _ (fun o ho => List.mem_range.1 ho) spans

theorem axisPlace_eq {origin : ℤ} {offset : ℕ} (hlow : 0 ≤ origin)
    (hhigh : origin + offset < 2 ^ 63) : axisPlace origin offset = some (origin + offset) := by
  rw [axisPlace, Checked.i64_eq (by omega) (by omega), Option.bind_some]
  exact Checked.i64_eq (by omega) (by omega)

end Loops

/-! ### What the rows cover -/

section Rows

variable {y z : ℤ} {fuel count : ℕ} {x : ℤ} {span : TileSpan} {t : Coord3}

/-- The runs of a row cover it, in order, each of a length that fits. -/
theorem xRuns_spec (fuel : ℕ) : ∀ {x : ℤ} {count : ℕ}, count ≤ fuel →
    (∀ t, (∃ s ∈ xRuns y z fuel x count, s.Has t) ↔
      t.y = y ∧ t.z = z ∧ x ≤ t.x ∧ t.x < x + count) ∧
    (∀ s ∈ xRuns y z fuel x count, s.origin.y = y ∧ s.origin.z = z ∧ x ≤ s.origin.x ∧
      s.origin.x + s.xCount ≤ x + count ∧ 0 < s.xCount ∧ s.xCount ≤ maxRun) ∧
    (xRuns y z fuel x count).Pairwise TileSpan.Before := by
  induction fuel with
  | zero =>
    intro x count hle
    refine ⟨fun t => ?_, by simp [xRuns], List.Pairwise.nil⟩
    simp only [xRuns, List.not_mem_nil, false_and, exists_false, false_iff]
    omega
  | succ fuel ih =>
    intro x count hle
    rw [xRuns]
    by_cases hzero : count = 0
    · rw [if_pos hzero]
      refine ⟨fun t => ?_, by simp, List.Pairwise.nil⟩
      simp only [List.not_mem_nil, false_and, exists_false, false_iff]
      omega
    have hmax : 1 ≤ maxRun := by decide
    rw [if_neg hzero]
    obtain ⟨hcover, hruns, hpair⟩ := @ih (x + (min count maxRun : ℕ)) (count - maxRun)
      (by omega)
    refine ⟨fun t => ?_, fun s hs => ?_, List.pairwise_cons.2 ⟨fun s hs => ?_, hpair⟩⟩
    · have := hcover t
      simp only [List.mem_cons, exists_eq_or_imp, TileSpan.Has, Nat.cast_min] at this ⊢
      rw [this]
      omega
    · rcases List.mem_cons.1 hs with rfl | hs
      · simp only [true_and, le_refl]
        omega
      · have := hruns s hs
        omega
    · have := hruns s hs
      exact Or.inr ⟨this.2.1.symm, Or.inr ⟨this.1.symm, this.2.2.1⟩⟩

/-- **What a query promises** for the tiles of a set: disjoint runs in order that cover the set, each
of a length that fits 32 bits, and their counts, saturated. -/
structure Covers (S : Shape) (tiles : Coord3 → Prop) (out : SpanOutput) : Prop where
  /-- The tiles of the runs are the tiles of the set. -/
  exact : ∀ t, (∃ s ∈ out.emitted, s.Has t) ↔ tiles t
  /-- Every run lies in the world. -/
  inside : ∀ s ∈ out.emitted, ∀ t, s.Has t → S.contains t = true
  /-- No run is empty, and its length fits. -/
  length : ∀ s ∈ out.emitted, 0 < s.xCount ∧ s.xCount ≤ 2 ^ 32 - 1
  /-- The runs come in order. -/
  ordered : out.emitted.Pairwise TileSpan.Before
  /-- No two runs share a tile. -/
  disjoint : out.emitted.Pairwise fun s s' => ∀ t, ¬ (s.Has t ∧ s'.Has t)
  /-- The count of tiles. -/
  tiles_eq : out.stats.tiles = min (out.emitted.map TileSpan.xCount).sum u64Max
  /-- The count of runs. -/
  spans_eq : out.stats.spans = min out.emitted.length u64Max

/-- **Rows cover their tiles.** -/
theorem covers_rowSpans {S : Shape} {y z : ClippedAxis} {row : ℤ → ℤ → ClippedAxis}
    {tiles : Coord3 → Prop}
    (htiles : ∀ t, tiles t ↔ y.Has t.y ∧ z.Has t.z ∧ (row t.y t.z).Has t.x)
    (hin : ∀ t, tiles t → S.contains t = true) :
    Covers S tiles (outputOf (rowSpans y z row)) := by
  have hexact : ∀ t, (∃ s ∈ rowSpans y z row, s.Has t) ↔ tiles t := by
    intro t
    rw [htiles]
    simp only [rowSpans, List.mem_flatMap, List.mem_range]
    constructor
    · rintro ⟨s, ⟨dz, hdz, dy, hdy, hs⟩, ht⟩
      obtain ⟨hy, hz, hx⟩ := ((xRuns_spec _ le_rfl).1 t).1 ⟨s, hs, ht⟩
      rw [hy, hz]
      exact ⟨⟨by omega, by omega⟩, ⟨by omega, by omega⟩, hx⟩
    · rintro ⟨⟨hy, hy'⟩, ⟨hz, hz'⟩, hx⟩
      obtain ⟨dy, hdy⟩ := Int.eq_ofNat_of_zero_le (by omega : 0 ≤ t.y - y.origin)
      obtain ⟨dz, hdz⟩ := Int.eq_ofNat_of_zero_le (by omega : 0 ≤ t.z - z.origin)
      have hty : t.y = y.origin + dy := by omega
      have htz : t.z = z.origin + dz := by omega
      rw [hty, htz] at hx
      obtain ⟨s, hs, ht⟩ := ((xRuns_spec _ le_rfl).1 t).2 ⟨hty, htz, hx⟩
      exact ⟨s, ⟨dz, by omega, dy, by omega, hs⟩, ht⟩
  have hlength : ∀ s ∈ rowSpans y z row, 0 < s.xCount ∧ s.xCount ≤ 2 ^ 32 - 1 := by
    intro s hs
    simp only [rowSpans, List.mem_flatMap] at hs
    obtain ⟨dz, -, dy, -, hs⟩ := hs
    exact ((xRuns_spec _ le_rfl).2.1 s hs).2.2.2.2
  have hordered : (rowSpans y z row).Pairwise TileSpan.Before := by
    rw [rowSpans, List.pairwise_flatMap]
    refine ⟨fun dz _ => ?_, List.pairwise_lt_range.imp fun {dz dz'} hlt => ?_⟩
    · rw [List.pairwise_flatMap]
      refine ⟨fun dy _ => (xRuns_spec _ le_rfl).2.2, List.pairwise_lt_range.imp ?_⟩
      intro dy dy' hlt s hs s' hs'
      have h := (xRuns_spec _ le_rfl).2.1 s hs
      have h' := (xRuns_spec _ le_rfl).2.1 s' hs'
      exact Or.inr ⟨h.2.1.trans h'.2.1.symm, Or.inl (by rw [h.1, h'.1]; omega)⟩
    · intro s hs s' hs'
      obtain ⟨dy, -, hs⟩ := List.mem_flatMap.1 hs
      obtain ⟨dy', -, hs'⟩ := List.mem_flatMap.1 hs'
      have h := (xRuns_spec _ le_rfl).2.1 s hs
      have h' := (xRuns_spec _ le_rfl).2.1 s' hs'
      exact Or.inl (by rw [h.2.1, h'.2.1]; omega)
  exact
    { exact := hexact
      inside := fun s hs t ht => hin t ((hexact t).1 ⟨s, hs, ht⟩)
      length := hlength
      ordered := hordered
      disjoint := hordered.imp fun h => h.disjoint
      tiles_eq := rfl
      spans_eq := rfl }

end Rows

end Tess
