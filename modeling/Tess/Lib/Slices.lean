import Mathlib.Data.List.Basic
import Mathlib.Data.Nat.Basic

/-!
# Slices of a buffer

Records of a list each own a slice of one flat buffer, in the order of the list and without a gap.
The slices move when records in front are dropped or when the buffer is rebuilt.

* `Layout` : where a record keeps its offset and its size;
* `Layout.Tiles` : the slices lie one after the other;
* `Layout.tiles_append`, `Layout.tiles_evict`, `Layout.tiles_rebuild` : **the three changes keep the
  tiling and what the records read**.
-/

namespace Tess

/-- Where a record keeps the place of its slice. -/
structure Layout (E : Type*) where
  /-- First position. -/
  offset : E → ℕ
  /-- Number of positions. -/
  size : E → ℕ
  /-- The record with another first position. -/
  place : E → ℕ → E
  /-- The new position is read back. -/
  offset_place : ∀ e n, offset (place e n) = n
  /-- The size is kept. -/
  size_place : ∀ e n, size (place e n) = size e

namespace Layout

variable {E B C : Type*} (L : Layout E)

/-- What a record reads. -/
def slice (buf : List B) (e : E) : List B := (buf.drop (L.offset e)).take (L.size e)

/-- **The slices lie one after the other** from one position to another. -/
def Tiles : ℕ → List E → ℕ → Prop
  | start, [], stop => start = stop
  | start, e :: es, stop => L.offset e = start ∧ Tiles (start + L.size e) es stop

/-- The first position of the record at an index, or the end. -/
def cut (es : List E) (k stop : ℕ) : ℕ := (es[k]?.map L.offset).getD stop

/-- Copies the slices of the records to the end of a new buffer. -/
def rebuild (buf : List B) : List E → List E × List B → List E × List B
  | [], out => out
  | e :: es, out => rebuild buf es (out.1 ++ [L.place e out.2.length], out.2 ++ L.slice buf e)

variable {L} {es es₁ es₂ : List E} {buf : List B} {start mid stop : ℕ}

theorem tiles_append_iff :
    L.Tiles start (es₁ ++ es₂) stop ↔ ∃ mid, L.Tiles start es₁ mid ∧ L.Tiles mid es₂ stop := by
  induction es₁ generalizing start with
  | nil => exact ⟨fun h => ⟨start, rfl, h⟩, by rintro ⟨mid, rfl, h⟩; exact h⟩
  | cons e es₁ ih =>
    rw [List.cons_append, Tiles, ih]
    constructor
    · rintro ⟨he, mid, h₁, h₂⟩
      exact ⟨mid, ⟨he, h₁⟩, h₂⟩
    · rintro ⟨mid, ⟨he, h₁⟩, h₂⟩
      exact ⟨he, mid, h₁, h₂⟩

theorem Tiles.le (h : L.Tiles start es stop) : start ≤ stop := by
  induction es generalizing start with
  | nil => exact le_of_eq h
  | cons e es ih =>
    have := ih h.2
    omega

/-- Every slice ends before the end. -/
theorem Tiles.bounds (h : L.Tiles start es stop) {e : E} (he : e ∈ es) :
    start ≤ L.offset e ∧ L.offset e + L.size e ≤ stop := by
  induction es generalizing start with
  | nil => exact absurd he List.not_mem_nil
  | cons a es ih =>
    obtain ⟨ha, hrest⟩ := h
    have hle := hrest.le
    rcases List.mem_cons.1 he with rfl | he
    · omega
    · have := ih hrest he
      omega

/-- **No two slices meet**: each ends before the next begins. -/
theorem Tiles.pairwise (h : L.Tiles start es stop) :
    es.Pairwise fun a b => L.offset a + L.size a ≤ L.offset b := by
  induction es generalizing start with
  | nil => exact .nil
  | cons a es ih =>
    obtain ⟨ha, hrest⟩ := h
    refine List.pairwise_cons.2 ⟨fun b hb => ?_, ih hrest⟩
    have := (hrest.bounds hb).1
    omega

/-- **The slices are the buffer**, in order. -/
theorem Tiles.flatMap_slice (h : L.Tiles start es buf.length) :
    es.flatMap (L.slice buf) = buf.drop start := by
  induction es generalizing start with
  | nil =>
    have hstart : start = buf.length := h
    rw [hstart, List.drop_length, List.flatMap_nil]
  | cons e es ih =>
    obtain ⟨he, hrest⟩ := h
    rw [List.flatMap_cons, ih hrest, slice, he, ← List.drop_drop, List.take_append_drop]

theorem Tiles.cut_eq (k : ℕ) (h : L.Tiles start es stop) :
    L.Tiles start (es.take k) (L.cut es k stop) ∧ L.Tiles (L.cut es k stop) (es.drop k) stop := by
  rw [← List.take_append_drop k es] at h
  obtain ⟨mid, h₁, h₂⟩ := tiles_append_iff.1 h
  have hmid : L.cut es k stop = mid := by
    cases hdrop : es.drop k with
    | nil =>
      rw [hdrop] at h₂
      have hlen : es.length ≤ k := List.drop_eq_nil_iff.1 hdrop
      rw [cut, List.getElem?_eq_none hlen, Option.map_none, Option.getD_none]
      exact h₂.symm
    | cons e rest =>
      rw [hdrop] at h₂
      have hget : es[k]? = some e := by
        rw [← Nat.add_zero k, ← List.getElem?_drop, hdrop]
        rfl
      rw [cut, hget, Option.map_some, Option.getD_some]
      exact h₂.1
  rw [hmid]
  exact ⟨h₁, h₂⟩

/-- Slices move to the front together. -/
theorem Tiles.shift {n : ℕ} (h : L.Tiles start es stop) (hn : n ≤ start) :
    L.Tiles (start - n) (es.map fun e => L.place e (L.offset e - n)) (stop - n) := by
  induction es generalizing start with
  | nil =>
    have hstart : start = stop := h
    rw [List.map_nil, hstart]
    rfl
  | cons e es ih =>
    obtain ⟨he, hrest⟩ := h
    refine ⟨by rw [L.offset_place, he], ?_⟩
    have hnext := ih hrest (by omega)
    rw [L.size_place]
    have hadd : start + L.size e - n = start - n + L.size e := by omega
    rwa [hadd] at hnext

/-- Positions behind the slices do not matter. -/
theorem slice_append {buf' : List B} {e : E} (h : L.offset e + L.size e ≤ buf.length) :
    L.slice (buf ++ buf') e = L.slice buf e := by
  have hoff : L.offset e ≤ buf.length := by omega
  rw [slice, slice, List.drop_append_of_le_length hoff, List.take_append_of_le_length]
  rw [List.length_drop]
  omega

theorem length_slice {e : E} (h : L.offset e + L.size e ≤ buf.length) :
    (L.slice buf e).length = L.size e := by
  rw [slice, List.length_take, List.length_drop]
  omega

/-- A record reads the same after its slice and the buffer moved. -/
theorem slice_shift {n : ℕ} {e : E} (hn : n ≤ L.offset e) :
    L.slice (buf.drop n) (L.place e (L.offset e - n)) = L.slice buf e := by
  rw [slice, slice, L.offset_place, L.size_place, List.drop_drop]
  congr 2
  omega

variable (read : E → List B → C)

/-- **A record is added** with its slice at the end. -/
theorem tiles_append {e : E} {p : List B} (h : L.Tiles 0 es buf.length)
    (hoff : L.offset e = buf.length) (hsize : L.size e = p.length) :
    L.Tiles 0 (es ++ [e]) (buf ++ p).length ∧
      (es ++ [e]).map (fun e => read e (L.slice (buf ++ p) e)) =
        es.map (fun e => read e (L.slice buf e)) ++ [read e p] := by
  refine ⟨tiles_append_iff.2 ⟨buf.length, h, hoff, ?_⟩, ?_⟩
  · show buf.length + L.size e = (buf ++ p).length
    rw [hsize, List.length_append]
  · rw [List.map_append, List.map_singleton]
    have hlast : L.slice (buf ++ p) e = p := by
      rw [slice, hoff, hsize, List.drop_left, List.take_length]
    rw [hlast]
    congr 1
    refine List.map_congr_left fun a ha => ?_
    rw [slice_append (h.bounds ha).2]

/-- **The first records are dropped** and the rest of the buffer moves to the front. -/
theorem tiles_evict (hread : ∀ e n p, read (L.place e n) p = read e p) (k : ℕ)
    (h : L.Tiles 0 es buf.length) :
    let n := L.cut es k buf.length
    let es' := (es.drop k).map fun e => L.place e (L.offset e - n)
    L.Tiles 0 es' (buf.drop n).length ∧
      es'.map (fun e => read e (L.slice (buf.drop n) e)) =
        (es.map fun e => read e (L.slice buf e)).drop k := by
  intro n es'
  obtain ⟨-, hrest⟩ := h.cut_eq k
  constructor
  · have hshift := hrest.shift le_rfl
    rw [Nat.sub_self] at hshift
    rwa [List.length_drop]
  · rw [List.map_map, ← List.map_drop]
    refine List.map_congr_left fun e he => ?_
    have hoff := (hrest.bounds he).1
    rw [Function.comp_apply, hread, slice_shift hoff]

/-- The loop that rebuilds the buffer. -/
theorem rebuild_spec (hread : ∀ e n p, read (L.place e n) p = read e p)
    (hbounds : ∀ e ∈ es, L.offset e + L.size e ≤ buf.length) {out : List E × List B}
    (hout : L.Tiles 0 out.1 out.2.length) :
    let r := L.rebuild buf es out
    L.Tiles 0 r.1 r.2.length ∧ r.1.map (fun e => read e (L.slice r.2 e)) =
      out.1.map (fun e => read e (L.slice out.2 e)) ++
        es.map (fun e => read e (L.slice buf e)) := by
  induction es generalizing out with
  | nil => exact ⟨hout, (List.append_nil _).symm⟩
  | cons e es ih =>
    have he := hbounds e List.mem_cons_self
    obtain ⟨htiles, hmap⟩ := @tiles_append E B C L out.1 out.2 read (L.place e out.2.length)
      (L.slice buf e) hout (L.offset_place _ _) (by rw [L.size_place, length_slice he])
    obtain ⟨h₁, h₂⟩ := @ih (fun a ha => hbounds a (List.mem_cons_of_mem _ ha))
      (out.1 ++ [L.place e out.2.length], out.2 ++ L.slice buf e) htiles
    refine ⟨h₁, h₂.trans ?_⟩
    show (out.1 ++ [L.place e out.2.length]).map _ ++ _ = _
    rw [hmap, hread, List.map_cons, List.append_assoc, List.singleton_append]

/-- **The buffer is rebuilt** from some of the records. -/
theorem tiles_rebuild (hread : ∀ e n p, read (L.place e n) p = read e p)
    (hbounds : ∀ e ∈ es, L.offset e + L.size e ≤ buf.length) :
    let r := L.rebuild buf es ([], [])
    L.Tiles 0 r.1 r.2.length ∧
      r.1.map (fun e => read e (L.slice r.2 e)) = es.map (fun e => read e (L.slice buf e)) :=
  rebuild_spec read hread hbounds rfl

end Layout

end Tess
