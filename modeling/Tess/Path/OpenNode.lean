import Tess.Path.Types

/-!
# Open-list nodes in machine words

`PackedOpenNode` keeps its key as a number.  Here the node is what the source stores, two 64-bit
words, and `f`, `g` and the tile index are cut out of them by casts and shifts.

* `PackedOpenWords` : the two words, with the casts, shifts and wrapping arithmetic of the source;
* `PackedOpenWords.toNode_make`, `PackedOpenWords.less_eq` : **the words refine the node** that the
  searches are about;
* `PackedOpenWords.less_make` : under the seed zero, the order of the words is `openNodeLess`.
-/

namespace Tess

/-- `PathScratch::OpenNode`: an open-list node before it is packed. -/
structure OpenNode where
  /-- Tile index. -/
  index : BitVec 64 := 0
  /-- Cost from the start. -/
  g : BitVec 32 := 0
  /-- Estimated cost of a route through the node. -/
  f : BitVec 32 := 0
  deriving DecidableEq, Repr

/-- `open_node_less`: the left node is worse than the right one. -/
def openNodeLess (lhs rhs : OpenNode) : Bool :=
  if lhs.f ≠ rhs.f then decide (lhs.f > rhs.f)
  else if lhs.g ≠ rhs.g then decide (lhs.g < rhs.g)
  else decide (lhs.index > rhs.index)

/-- `PackedOpenNode`, word by word. -/
structure PackedOpenWords where
  /-- `f` above the complement of `g`. -/
  key : BitVec 64 := 0
  /-- Tile index, permuted under a non-zero seed. -/
  index : BitVec 64 := 0
  deriving DecidableEq, Repr

namespace PackedOpenWords

/-- `PackedOpenNode::make`. -/
def make (index : BitVec 64) (g f : BitVec 32) (seed : BitVec 64) : PackedOpenWords :=
  ⟨(f.setWidth 64 <<< 32) ||| (BitVec.allOnes 32 - g).setWidth 64,
    if seed = 0 then index else mixTie (index ^^^ seed)⟩

/-- `PackedOpenNode::node_index`. -/
def nodeIndex (n : PackedOpenWords) (seed : BitVec 64) : BitVec 64 :=
  if seed = 0 then n.index else unmixTie n.index ^^^ seed

/-- `PackedOpenNode::g`. -/
def g (n : PackedOpenWords) : BitVec 32 := BitVec.allOnes 32 - n.key.setWidth 32

/-- `PackedOpenNode::f`. -/
def f (n : PackedOpenWords) : BitVec 32 := (n.key >>> 32).setWidth 32

/-- `packed_open_node_less` on the words. -/
def less (lhs rhs : PackedOpenWords) : Bool :=
  if lhs.key ≠ rhs.key then decide (lhs.key > rhs.key) else decide (lhs.index > rhs.index)

/-- The node of the searches that the words stand for. -/
def toNode (n : PackedOpenWords) : PackedOpenNode := ⟨n.key.toNat, n.index⟩

variable (index seed : BitVec 64) (g f : BitVec 32)

theorem toNat_allOnes_sub : (BitVec.allOnes 32 - g).toNat = infiniteCost - g.toNat := by
  have hg := g.isLt
  have h := infiniteCost_eq
  rw [BitVec.toNat_sub, BitVec.toNat_allOnes]
  omega

/-- The number of a packed key. -/
theorem toNat_key_make :
    (make index g f seed).key.toNat = f.toNat * 2 ^ 32 + (infiniteCost - g.toNat) := by
  have hf := f.isLt
  have h := infiniteCost_eq
  have hlow : infiniteCost - g.toNat < 2 ^ 32 := by omega
  have hhigh : f.toNat <<< 32 % 2 ^ 64 = f.toNat <<< 32 := by
    rw [Nat.shiftLeft_eq]
    exact Nat.mod_eq_of_lt (by omega)
  rw [make, BitVec.toNat_or, BitVec.toNat_shiftLeft, BitVec.toNat_setWidth, BitVec.toNat_setWidth,
    toNat_allOnes_sub, Nat.mod_eq_of_lt (hf.trans (by decide)),
    Nat.mod_eq_of_lt (hlow.trans (by decide)), hhigh, ← Nat.shiftLeft_add_eq_or_of_lt hlow,
    Nat.shiftLeft_eq]

/-- **Packing words** is packing their numbers. -/
theorem toNode_make :
    (make index g f seed).toNode = PackedOpenNode.make index.toNat g.toNat f.toNat seed := by
  have hkey := (toNat_key_make index seed g f).trans
    (@PackedOpenNode.key_make index.toNat f.toNat g.toNat seed).symm
  rw [toNode, hkey, make, PackedOpenNode.make]
  simp only [BitVec.ofNat_toNat, BitVec.setWidth_eq]

/-- **The order of the words** is the order of the nodes they stand for. -/
theorem less_eq (lhs rhs : PackedOpenWords) :
    lhs.less rhs = packedOpenNodeLess lhs.toNode rhs.toNode := by
  simp only [less, packedOpenNodeLess, toNode, ne_eq, BitVec.toNat_inj, gt_iff_lt, BitVec.lt_def]

@[simp] theorem g_make : (make index g f seed).g = g := by
  refine BitVec.eq_of_toNat_eq ?_
  have hg := g.isLt
  have h := infiniteCost_eq
  rw [PackedOpenWords.g, toNat_allOnes_sub, BitVec.toNat_setWidth, toNat_key_make]
  omega

@[simp] theorem f_make : (make index g f seed).f = f := by
  refine BitVec.eq_of_toNat_eq ?_
  have hf := f.isLt
  have h := infiniteCost_eq
  rw [PackedOpenWords.f, BitVec.toNat_setWidth, BitVec.toNat_ushiftRight, toNat_key_make,
    Nat.shiftRight_eq_div_pow]
  omega

@[simp] theorem nodeIndex_make : (make index g f seed).nodeIndex seed = index := by
  unfold nodeIndex make
  split_ifs
  · rfl
  · simp only [unmixTie_mixTie, BitVec.xor_assoc, BitVec.xor_self, BitVec.xor_zero]

/-- No two nodes are packed alike. -/
theorem make_inj {index index' : BitVec 64} {g g' f f' : BitVec 32}
    (h : make index g f seed = make index' g' f' seed) : index = index' ∧ g = g' ∧ f = f' := by
  have hindex := congrArg (nodeIndex · seed) h
  have hg := congrArg PackedOpenWords.g h
  have hf := congrArg PackedOpenWords.f h
  simp only [nodeIndex_make, g_make, f_make] at hindex hg hf
  exact ⟨hindex, hg, hf⟩

/-- Keys are ordered by `f` and, where it is equal, by `g` the other way. -/
theorem key_lt_key_iff {index' : BitVec 64} {g' f' : BitVec 32} :
    (make index g f seed).key < (make index' g' f' seed).key ↔ f < f' ∨ f = f' ∧ g' < g := by
  have hg := g.isLt
  have hg' := g'.isLt
  have h := infiniteCost_eq
  rw [BitVec.lt_def, toNat_key_make, toNat_key_make, BitVec.lt_def, BitVec.lt_def,
    ← BitVec.toNat_inj]
  omega

theorem key_eq_key_iff {index' : BitVec 64} {g' f' : BitVec 32} :
    (make index g f seed).key = (make index' g' f' seed).key ↔ f = f' ∧ g = g' := by
  have hg := g.isLt
  have hg' := g'.isLt
  have h := infiniteCost_eq
  rw [← BitVec.toNat_inj, toNat_key_make, toNat_key_make, ← BitVec.toNat_inj, ← BitVec.toNat_inj]
  omega

/-- **Under the seed zero packed nodes are ordered as unpacked ones.** -/
theorem less_make (lhs rhs : OpenNode) :
    (make lhs.index lhs.g lhs.f 0).less (make rhs.index rhs.g rhs.f 0) =
      openNodeLess lhs rhs := by
  rw [less, openNodeLess]
  simp only [ne_eq, key_eq_key_iff, gt_iff_lt, key_lt_key_iff]
  by_cases hf : lhs.f = rhs.f
  · by_cases hg : lhs.g = rhs.g
    · -- equal keys: the index decides, and it is stored as it is
      simp [hf, hg, make]
    · simp [hf, hg]
  · have hf' : ¬ rhs.f = lhs.f := fun heq => hf heq.symm
    simp [hf, hf']

/-- **The packed node**: the permutation is undone, packing loses nothing under any seed, and the
seed zero keeps the order of the unpacked nodes. -/
theorem packedOpenWords_spec :
    (∀ value, unmixTie (mixTie value) = value) ∧
    (∀ (index seed : BitVec 64) (g f : BitVec 32),
      (make index g f seed).nodeIndex seed = index ∧ (make index g f seed).g = g ∧
        (make index g f seed).f = f) ∧
    (∀ lhs rhs : OpenNode, (make lhs.index lhs.g lhs.f 0).less (make rhs.index rhs.g rhs.f 0) =
      openNodeLess lhs rhs) :=
  ⟨unmixTie_mixTie, fun index seed g f =>
    ⟨nodeIndex_make index seed g f, g_make index seed g f, f_make index seed g f⟩, less_make⟩

end PackedOpenWords

end Tess
