import Tess.Core.Distance
import Mathlib.Data.List.Basic

/-!
# Requests, results and open-list nodes

The vocabulary shared by every search: statuses, requests, results and the packed nodes of the
open list.  A packed node stores `f` and the complement of `g` in one key, and its tile index,
permuted when a tie-break seed is given.

* `unmixTie_mixTie` : the permutation of the tile indices is undone by its inverse, so
  `PackedOpenNode.nodeIndex_make` recovers the index for every seed;
* `PackedOpenNode.g_make`, `PackedOpenNode.f_make` : so are `g` and `f`;
* `popHeap_eq_some` : what popping a heap under `packedOpenNodeLess` does to the entries.
-/

namespace Tess

/-- Outcome of a path operation. -/
inductive PathStatus
  | notComputed
  | found
  | invalidStart
  | invalidGoal
  | noPath
  | indeterminate
  | costOverflow
  | noCandidate
  deriving DecidableEq, Repr

/-- Start and goal of a path query. -/
structure PathRequest where
  /-- First tile of the path. -/
  start : Coord3
  /-- Last tile of the path. -/
  goal : Coord3
  deriving DecidableEq, Repr

/-- How sparse searches report boundaries of the resident set. -/
inductive MissingChunkPolicy
  | assumeImpassable
  | reportIndeterminate
  deriving DecidableEq, Repr

/-- A query outcome and the resulting path. -/
structure PathResult where
  /-- Outcome. -/
  status : PathStatus := .notComputed
  /-- Cost of the path. -/
  cost : ℕ := 0
  /-- Tiles closed by the search. -/
  expandedNodes : ℕ := 0
  /-- Tiles labelled by the search. -/
  reachedNodes : ℕ := 0
  /-- Tiles of the path, both ends included. -/
  path : List Coord3 := []
  /-- Ticks per unit of cost. -/
  costScale : ℕ := 1
  deriving DecidableEq, Repr

/-! ### Tie-break permutation -/

/-- `PackedOpenNode::mix_tie`. -/
def mixTie (value : BitVec 64) : BitVec 64 :=
  let value := (value ^^^ (value >>> 30)) * 0xbf58476d1ce4e5b9#64
  let value := (value ^^^ (value >>> 27)) * 0x94d049bb133111eb#64
  value ^^^ (value >>> 31)

/-- `PackedOpenNode::unmix_tie`. -/
def unmixTie (value : BitVec 64) : BitVec 64 :=
  let value := value ^^^ (value >>> 31)
  let value := value ^^^ (value >>> 62)
  let value := value * 0x319642b2d24d8ec3#64
  let value := value ^^^ (value >>> 27)
  let value := value ^^^ (value >>> 54)
  let value := value * 0x96de1b173f119089#64
  let value := value ^^^ (value >>> 30)
  value ^^^ (value >>> 60)

/-- Two shift-and-xor steps double the shift. -/
theorem xor_shift_xor_shift (x : BitVec 64) (n : ℕ) :
    (x ^^^ (x >>> n)) ^^^ ((x ^^^ (x >>> n)) >>> n) = x ^^^ (x >>> (n + n)) := by
  rw [BitVec.ushiftRight_xor_distrib, ← BitVec.shiftRight_add, BitVec.xor_assoc,
    ← BitVec.xor_assoc (x >>> n), BitVec.xor_self, BitVec.zero_xor]

/-- Undoing a shift-and-xor step whose shift is at least a quarter of the width. -/
theorem xor_shift_cancel (x : BitVec 64) {n : ℕ} (h : 64 ≤ n + n + (n + n)) :
    (x ^^^ (x >>> n)) ^^^ ((x ^^^ (x >>> n)) >>> n) ^^^
      (((x ^^^ (x >>> n)) ^^^ ((x ^^^ (x >>> n)) >>> n)) >>> (n + n)) = x := by
  rw [xor_shift_xor_shift, xor_shift_xor_shift, BitVec.ushiftRight_eq_zero h, BitVec.xor_zero]

/-- **The tie-break permutation is reversible.** -/
theorem unmixTie_mixTie (value : BitVec 64) : unmixTie (mixTie value) = value := by
  have h1 : 0x94d049bb133111eb#64 * 0x319642b2d24d8ec3#64 = 1#64 := by decide
  have h2 : 0xbf58476d1ce4e5b9#64 * 0x96de1b173f119089#64 = 1#64 := by decide
  simp only [unmixTie, mixTie]
  rw [xor_shift_cancel _ (n := 31) (by decide), BitVec.mul_assoc, h1, BitVec.mul_one,
    xor_shift_cancel _ (n := 27) (by decide), BitVec.mul_assoc, h2, BitVec.mul_one,
    xor_shift_cancel _ (n := 30) (by decide)]

/-! ### Open-list nodes -/

/-- Packed open-list node. -/
structure PackedOpenNode where
  /-- `f` above the complement of `g`. -/
  key : ℕ
  /-- Tile index, permuted under a non-zero seed. -/
  index : BitVec 64
  deriving DecidableEq, Repr

namespace PackedOpenNode

/-- Pack a tile index with its costs. -/
def make (index g f : ℕ) (seed : BitVec 64) : PackedOpenNode :=
  ⟨(f <<< 32) ||| (infiniteCost - g),
    if seed = 0 then BitVec.ofNat 64 index else mixTie (BitVec.ofNat 64 index ^^^ seed)⟩

/-- Tile index of the node. -/
def nodeIndex (n : PackedOpenNode) (seed : BitVec 64) : ℕ :=
  (if seed = 0 then n.index else unmixTie n.index ^^^ seed).toNat

/-- Cost from the start. -/
def g (n : PackedOpenNode) : ℕ := infiniteCost - n.key % 2 ^ 32

/-- Estimated cost of a route through the node. -/
def f (n : PackedOpenNode) : ℕ := n.key >>> 32

theorem key_make (index f : ℕ) {g : ℕ} (seed : BitVec 64) :
    (make index g f seed).key = f * 2 ^ 32 + (infiniteCost - g) := by
  have h : infiniteCost - g < 2 ^ 32 := by rw [infiniteCost_eq]; omega
  rw [make, ← Nat.shiftLeft_add_eq_or_of_lt h, Nat.shiftLeft_eq]

@[simp] theorem g_make (index f : ℕ) {g : ℕ} (hg : g ≤ infiniteCost) (seed : BitVec 64) :
    (make index g f seed).g = g := by
  have h := infiniteCost_eq
  rw [PackedOpenNode.g, key_make]
  omega

@[simp] theorem f_make (index g f : ℕ) (seed : BitVec 64) : (make index g f seed).f = f := by
  have h := infiniteCost_eq
  rw [PackedOpenNode.f, key_make, Nat.shiftRight_eq_div_pow]
  omega

@[simp] theorem nodeIndex_make {index : ℕ} (h : index < 2 ^ 64) (g f : ℕ) (seed : BitVec 64) :
    (make index g f seed).nodeIndex seed = index := by
  unfold nodeIndex make
  split_ifs
  · rw [BitVec.toNat_ofNat, Nat.mod_eq_of_lt h]
  · simp only [unmixTie_mixTie, BitVec.xor_assoc, BitVec.xor_self, BitVec.xor_zero,
      BitVec.toNat_ofNat, Nat.mod_eq_of_lt h]

/-- The key decides by `f` first. -/
theorem f_le_of_key_le {m n : PackedOpenNode} (h : m.key ≤ n.key) : m.f ≤ n.f := by
  simp only [PackedOpenNode.f, Nat.shiftRight_eq_div_pow]
  exact Nat.div_le_div_right h

end PackedOpenNode

/-- `packed_open_node_less`: the left node is worse than the right one. -/
def packedOpenNodeLess (lhs rhs : PackedOpenNode) : Bool :=
  if lhs.key ≠ rhs.key then decide (lhs.key > rhs.key)
  else decide (lhs.index.toNat > rhs.index.toNat)

/-- The node a heap ordered by `packedOpenNodeLess` keeps on top. -/
def bestNode (best : PackedOpenNode) : List PackedOpenNode → PackedOpenNode
  | [] => best
  | n :: rest => bestNode (if packedOpenNodeLess best n then n else best) rest

/-- `std::pop_heap` and `pop_back` on the entries of a heap. -/
def popHeap : List PackedOpenNode → Option (PackedOpenNode × List PackedOpenNode)
  | [] => none
  | n :: rest => some (bestNode n rest, (n :: rest).erase (bestNode n rest))

theorem bestNode_mem (best : PackedOpenNode) (l : List PackedOpenNode) :
    bestNode best l ∈ best :: l := by
  induction l generalizing best with
  | nil => simp [bestNode]
  | cons n rest ih =>
    rw [bestNode]
    split_ifs
    · exact List.mem_cons_of_mem _ (ih n)
    · rcases List.mem_cons.1 (ih best) with h | h
      · rw [h]; simp
      · exact List.mem_cons_of_mem _ (List.mem_cons_of_mem _ h)

theorem bestNode_key_le (best : PackedOpenNode) (l : List PackedOpenNode) :
    ∀ n ∈ best :: l, (bestNode best l).key ≤ n.key := by
  induction l generalizing best with
  | nil => simp [bestNode]
  | cons m rest ih =>
    intro n hn
    rw [bestNode]
    have hless : packedOpenNodeLess best m = true → m.key ≤ best.key := by
      unfold packedOpenNodeLess
      split_ifs with h <;> simp only [decide_eq_true_eq] <;> omega
    have hnot : ¬ packedOpenNodeLess best m = true → best.key ≤ m.key := by
      unfold packedOpenNodeLess
      split_ifs with h <;> simp only [decide_eq_true_eq] <;> omega
    rcases List.mem_cons.1 hn with rfl | hn
    · split_ifs with h
      · exact (ih m m List.mem_cons_self).trans (hless h)
      · exact ih n n List.mem_cons_self
    · rcases List.mem_cons.1 hn with rfl | hn
      · split_ifs with h
        · exact ih n n List.mem_cons_self
        · exact (ih best best List.mem_cons_self).trans (hnot h)
      · exact ih _ n (List.mem_cons_of_mem _ hn)

/-- **Popping a heap** takes out one entry of least key and leaves the others. -/
theorem popHeap_eq_some {l l' : List PackedOpenNode} {n : PackedOpenNode}
    (h : popHeap l = some (n, l')) :
    n ∈ l ∧ (∀ m ∈ l, n.key ≤ m.key) ∧ (∀ m ∈ l, m ≠ n → m ∈ l') ∧ (∀ m ∈ l', m ∈ l) ∧
      l.length = l'.length + 1 := by
  cases l with
  | nil => simp [popHeap] at h
  | cons m rest =>
    simp only [popHeap, Option.some.injEq, Prod.mk.injEq] at h
    obtain ⟨rfl, rfl⟩ := h
    have hmem := bestNode_mem m rest
    refine ⟨hmem, bestNode_key_le m rest, fun x hx hne => ?_, fun x hx => List.mem_of_mem_erase hx,
      ?_⟩
    · exact (List.mem_erase_of_ne hne).2 hx
    · have := List.length_erase_of_mem hmem
      have hpos : 0 < (m :: rest).length := by simp
      omega

end Tess
