import Mathlib.Data.Nat.Size
import Mathlib.Data.Nat.Bitwise
import Mathlib.Tactic.Ring
import Mathlib.Tactic.SplitIfs

/-!
# The portable 128-bit integer

`UInt128` is a pair of 64-bit words with the few operations that packing a key needs.  Each of
them is arithmetic modulo `2 ^ 128` on the number that the pair stands for.

* `UInt128.testBit_toNat` : the bits of the pair are the bits of its words;
* `UInt128.toNat_add`, `UInt128.toNat_mul`, `UInt128.toNat_sub`, `UInt128.toNat_shl`,
  `UInt128.toNat_shr` : **the operations are those of the numbers**.
-/

namespace Tess

/-- `UInt128`: packed 128-bit key storage. -/
@[ext]
structure UInt128 where
  /-- The high word. -/
  hi : BitVec 64
  /-- The low word. -/
  lo : BitVec 64
  deriving DecidableEq, Repr

namespace UInt128

/-- Implicit construction from an unsigned word. -/
def ofWord (value : BitVec 64) : UInt128 := ⟨0, value⟩

/-- `operator*`, by 32-bit partial products. -/
def mul (lhs rhs : UInt128) : UInt128 :=
  let mask32 : BitVec 64 := 0xffffffff
  let aLo := lhs.lo &&& mask32
  let aHi := lhs.lo >>> 32
  let bLo := rhs.lo &&& mask32
  let bHi := rhs.lo >>> 32
  let p0 := aLo * bLo
  let p1 := aLo * bHi
  let p2 := aHi * bLo
  let p3 := aHi * bHi
  let mid := p1 + (p0 >>> 32)
  let mid2 := p2 + (mid &&& mask32)
  let low := (mid2 <<< 32) ||| (p0 &&& mask32)
  let high := p3 + (mid >>> 32) + (mid2 >>> 32)
  ⟨high + (lhs.hi * rhs.lo + lhs.lo * rhs.hi), low⟩

/-- `operator-`, with a borrow. -/
def sub (lhs rhs : UInt128) : UInt128 :=
  let borrow : BitVec 64 := if lhs.lo < rhs.lo then 1 else 0
  ⟨lhs.hi - rhs.hi - borrow, lhs.lo - rhs.lo⟩

/-- `detail::add`, with a carry. -/
def add (lhs rhs : UInt128) : UInt128 :=
  let low := lhs.lo + rhs.lo
  let carry : BitVec 64 := if low < lhs.lo then 1 else 0
  ⟨lhs.hi + rhs.hi + carry, low⟩

/-- `operator&`. -/
def and (lhs rhs : UInt128) : UInt128 := ⟨lhs.hi &&& rhs.hi, lhs.lo &&& rhs.lo⟩

/-- `operator|`. -/
def or (lhs rhs : UInt128) : UInt128 := ⟨lhs.hi ||| rhs.hi, lhs.lo ||| rhs.lo⟩

/-- `operator<<`; no word is shifted by its width. -/
def shl (value : UInt128) (count : ℕ) : UInt128 :=
  if count = 0 then value
  else if count ≥ 128 then ⟨0, 0⟩
  else if count ≥ 64 then ⟨value.lo <<< (count - 64), 0⟩
  else ⟨(value.hi <<< count) ||| (value.lo >>> (64 - count)), value.lo <<< count⟩

/-- `operator>>`; no word is shifted by its width. -/
def shr (value : UInt128) (count : ℕ) : UInt128 :=
  if count = 0 then value
  else if count ≥ 128 then ⟨0, 0⟩
  else if count ≥ 64 then ⟨0, value.hi >>> (count - 64)⟩
  else ⟨value.hi >>> count, (value.lo >>> count) ||| (value.hi <<< (64 - count))⟩

/-- `operator<=`: by the high words, then by the low ones. -/
def le (lhs rhs : UInt128) : Bool := lhs.hi < rhs.hi || (lhs.hi == rhs.hi && lhs.lo ≤ rhs.lo)

/-- The number of a pair of words. -/
def toNat (value : UInt128) : ℕ := value.hi.toNat * 2 ^ 64 + value.lo.toNat

variable (v w : UInt128)

theorem toNat_lt : v.toNat < 2 ^ 128 := by
  have h1 := v.hi.isLt
  have h2 := v.lo.isLt
  unfold toNat
  omega

theorem toNat_ofWord (x : BitVec 64) : (ofWord x).toNat = x.toNat := by simp [toNat, ofWord]

variable {v w} in
theorem toNat_inj (h : v.toNat = w.toNat) : v = w := by
  have h1 := v.hi.isLt
  have h2 := v.lo.isLt
  have h3 := w.hi.isLt
  have h4 := w.lo.isLt
  unfold toNat at h
  ext1
  · exact BitVec.eq_of_toNat_eq (by omega)
  · exact BitVec.eq_of_toNat_eq (by omega)

theorem le_iff : v.le w = true ↔ v.toNat ≤ w.toNat := by
  have h2 := v.lo.isLt
  have h4 := w.lo.isLt
  simp only [le, Bool.or_eq_true, Bool.and_eq_true, decide_eq_true_eq, beq_iff_eq,
    BitVec.lt_def, BitVec.le_def, ← BitVec.toNat_inj, toNat]
  omega

/-! ### Bits -/

/-- **The bits of the pair** are the bits of its words. -/
theorem testBit_toNat (i : ℕ) : v.toNat.testBit i =
    if i < 64 then v.lo.getLsbD i else v.hi.getLsbD (i - 64) := by
  have hlo := v.lo.isLt
  rw [toNat, Nat.mul_comm, Nat.testBit_two_pow_mul_add _ hlo]
  rfl

theorem toNat_and : (v.and w).toNat = v.toNat &&& w.toNat := by
  refine Nat.eq_of_testBit_eq fun i => ?_
  rw [Nat.testBit_and, testBit_toNat, testBit_toNat, testBit_toNat]
  split_ifs <;> simp [and]

theorem toNat_or : (v.or w).toNat = v.toNat ||| w.toNat := by
  refine Nat.eq_of_testBit_eq fun i => ?_
  rw [Nat.testBit_or, testBit_toNat, testBit_toNat, testBit_toNat]
  split_ifs <;> simp [or]

/-- **A left shift** multiplies by a power of two and drops what exceeds 128 bits. -/
theorem toNat_shl (count : ℕ) : (v.shl count).toNat = v.toNat * 2 ^ count % 2 ^ 128 := by
  refine Nat.eq_of_testBit_eq fun i => ?_
  rw [Nat.testBit_mod_two_pow, Nat.testBit_mul_two_pow, testBit_toNat, testBit_toNat]
  have hhi : ∀ j, 64 ≤ j → v.hi.getLsbD j = false := fun j => BitVec.getLsbD_of_ge _ j
  have hlo : ∀ j, 64 ≤ j → v.lo.getLsbD j = false := fun j => BitVec.getLsbD_of_ge _ j
  by_cases h0 : count = 0
  · subst h0
    have hs : v.shl 0 = v := rfl
    rw [hs]
    grind
  by_cases h128 : 128 ≤ count
  · have hs : v.shl count = ⟨0, 0⟩ := by rw [shl, if_neg h0, if_pos h128]
    simp only [hs]
    grind
  by_cases h64 : 64 ≤ count
  · have hs : v.shl count = ⟨v.lo <<< (count - 64), 0⟩ := by
      rw [shl, if_neg h0, if_neg h128, if_pos h64]
    have hindex : i - 64 - (count - 64) = i - count := by omega
    simp only [hs, BitVec.getLsbD_shiftLeft, hindex]
    grind
  · have hs : v.shl count =
        ⟨(v.hi <<< count) ||| (v.lo >>> (64 - count)), v.lo <<< count⟩ := by
      rw [shl, if_neg h0, if_neg h128, if_neg h64]
    by_cases hi : i < 64
    · simp only [hs, hi, if_true, BitVec.getLsbD_shiftLeft]
      grind
    · have hlow : 64 - count + (i - 64) = i - count := by omega
      have hhigh : i - 64 - count = i - count - 64 := by omega
      simp only [hs, hi, if_false, BitVec.getLsbD_or, BitVec.getLsbD_shiftLeft,
        BitVec.getLsbD_ushiftRight, hlow, hhigh]
      grind

/-- **A right shift** divides by a power of two. -/
theorem toNat_shr (count : ℕ) : (v.shr count).toNat = v.toNat / 2 ^ count := by
  refine Nat.eq_of_testBit_eq fun i => ?_
  rw [Nat.testBit_div_two_pow, testBit_toNat, testBit_toNat]
  have hhi : ∀ j, 64 ≤ j → v.hi.getLsbD j = false := fun j => BitVec.getLsbD_of_ge _ j
  have hlo : ∀ j, 64 ≤ j → v.lo.getLsbD j = false := fun j => BitVec.getLsbD_of_ge _ j
  by_cases h0 : count = 0
  · subst h0
    rfl
  by_cases h128 : 128 ≤ count
  · have hs : v.shr count = ⟨0, 0⟩ := by rw [shr, if_neg h0, if_pos h128]
    simp only [hs]
    grind
  by_cases h64 : 64 ≤ count
  · have hs : v.shr count = ⟨0, v.hi >>> (count - 64)⟩ := by
      rw [shr, if_neg h0, if_neg h128, if_pos h64]
    have hindex : count - 64 + i = i + count - 64 := by omega
    simp only [hs, BitVec.getLsbD_ushiftRight, hindex]
    grind
  · have hs : v.shr count =
        ⟨v.hi >>> count, (v.lo >>> count) ||| (v.hi <<< (64 - count))⟩ := by
      rw [shr, if_neg h0, if_neg h128, if_neg h64]
    by_cases hi : i < 64
    · have hlow : count + i = i + count := Nat.add_comm ..
      have hhigh : i - (64 - count) = i + count - 64 := by omega
      simp only [hs, hi, if_true, BitVec.getLsbD_or, BitVec.getLsbD_shiftLeft,
        BitVec.getLsbD_ushiftRight, hlow, hhigh]
      grind
    · have hhigh : count + (i - 64) = i + count - 64 := by omega
      simp only [hs, hi, if_false, BitVec.getLsbD_ushiftRight, hhigh]
      grind

/-! ### Arithmetic -/

/-- **An addition** is exact modulo `2 ^ 128`. -/
theorem toNat_add : (v.add w).toNat = (v.toNat + w.toNat) % 2 ^ 128 := by
  have h1 := v.hi.isLt
  have h2 := v.lo.isLt
  have h3 := w.hi.isLt
  have h4 := w.lo.isLt
  have hcarry : (if v.lo + w.lo < v.lo then 1 else 0 : BitVec 64).toNat =
      if v.lo.toNat + w.lo.toNat < 2 ^ 64 then 0 else 1 := by
    have hlt : v.lo + w.lo < v.lo ↔ ¬ v.lo.toNat + w.lo.toNat < 2 ^ 64 := by
      rw [BitVec.lt_def, BitVec.toNat_add]
      omega
    simp only [hlt]
    split_ifs <;> rfl
  simp only [toNat, add, BitVec.toNat_add, hcarry]
  split_ifs <;> omega

/-- **A subtraction** that does not go below zero is exact. -/
theorem toNat_sub (h : w.toNat ≤ v.toNat) : (v.sub w).toNat = v.toNat - w.toNat := by
  have h1 := v.hi.isLt
  have h2 := v.lo.isLt
  have h3 := w.hi.isLt
  have h4 := w.lo.isLt
  unfold toNat at h
  have hborrow : (if v.lo < w.lo then 1 else 0 : BitVec 64).toNat =
      if v.lo.toNat < w.lo.toNat then 1 else 0 := by
    simp only [BitVec.lt_def]
    split_ifs <;> rfl
  simp only [toNat, sub, BitVec.toNat_sub, hborrow]
  split_ifs <;> omega

/-- The partial products of a schoolbook multiplication, with their carries. -/
theorem partial_products {aLo aHi bLo bHi : ℕ} (ha : aLo < 2 ^ 32) (hb : bLo < 2 ^ 32)
    (ha' : aHi < 2 ^ 32) (hb' : bHi < 2 ^ 32) :
    let mid := aLo * bHi + aLo * bLo / 2 ^ 32
    let mid2 := aHi * bLo + mid % 2 ^ 32
    aLo * bLo < 2 ^ 64 ∧ aLo * bHi < 2 ^ 64 ∧ aHi * bLo < 2 ^ 64 ∧ aHi * bHi < 2 ^ 64 ∧
      mid < 2 ^ 64 ∧ mid2 < 2 ^ 64 ∧
      aHi * bHi + mid / 2 ^ 32 + mid2 / 2 ^ 32 < 2 ^ 64 ∧
      (aHi * bHi + mid / 2 ^ 32 + mid2 / 2 ^ 32) * 2 ^ 64 +
        (mid2 % 2 ^ 32 * 2 ^ 32 + aLo * bLo % 2 ^ 32) =
          (aHi * 2 ^ 32 + aLo) * (bHi * 2 ^ 32 + bLo) := by
  have bound : ∀ {x y : ℕ}, x < 2 ^ 32 → y < 2 ^ 32 → x * y ≤ (2 ^ 32 - 1) * (2 ^ 32 - 1) :=
    fun hx hy => Nat.mul_le_mul (by omega) (by omega)
  have h0 := bound ha hb
  have h1 := bound ha hb'
  have h2 := bound ha' hb
  have h3 := bound ha' hb'
  have hprod : (aHi * 2 ^ 32 + aLo) * (bHi * 2 ^ 32 + bLo) =
      aHi * bHi * 2 ^ 64 + (aLo * bHi + aHi * bLo) * 2 ^ 32 + aLo * bLo := by ring
  rw [hprod]
  generalize aLo * bLo = p0 at *
  generalize aLo * bHi = p1 at *
  generalize aHi * bLo = p2 at *
  generalize aHi * bHi = p3 at *
  intro mid mid2
  have hmid : mid = p1 + p0 / 2 ^ 32 := rfl
  have hmid2 : mid2 = p2 + mid % 2 ^ 32 := rfl
  clear_value mid mid2
  omega

/-- **A multiplication** is exact modulo `2 ^ 128`. -/
theorem toNat_mul : (v.mul w).toNat = v.toNat * w.toNat % 2 ^ 128 := by
  have split32 : ∀ x : BitVec 64, (x &&& 0xffffffff).toNat = x.toNat % 2 ^ 32 ∧
      (x >>> 32).toNat = x.toNat / 2 ^ 32 := by
    intro x
    refine ⟨?_, by rw [BitVec.toNat_ushiftRight, Nat.shiftRight_eq_div_pow]⟩
    rw [BitVec.toNat_and]
    exact Nat.and_two_pow_sub_one_eq_mod x.toNat 32
  have hv := v.lo.isLt
  have hw := w.lo.isLt
  have hlow : ∀ x y : BitVec 64, ((x <<< 32) ||| (y &&& 0xffffffff)).toNat =
      x.toNat % 2 ^ 32 * 2 ^ 32 + y.toNat % 2 ^ 32 := by
    intro x y
    have hlt := Nat.mod_lt y.toNat (Nat.two_pow_pos 32)
    rw [BitVec.toNat_or, (split32 y).1, BitVec.toNat_shiftLeft, Nat.shiftLeft_eq,
      show x.toNat * 2 ^ 32 % 2 ^ 64 = (x.toNat % 2 ^ 32) <<< 32 by
        rw [Nat.shiftLeft_eq]
        omega, ← Nat.shiftLeft_add_eq_or_of_lt hlt, Nat.shiftLeft_eq]
  obtain ⟨h0, h1, h2, h3, hmid, hmid2, hhigh, hprod⟩ := partial_products
    (Nat.mod_lt v.lo.toNat (Nat.two_pow_pos 32)) (Nat.mod_lt w.lo.toNat (Nat.two_pow_pos 32))
    (show v.lo.toNat / 2 ^ 32 < 2 ^ 32 by omega) (show w.lo.toNat / 2 ^ 32 < 2 ^ 32 by omega)
  rw [Nat.div_add_mod', Nat.div_add_mod'] at hprod
  have hsquare : (v.hi.toNat * 2 ^ 64 + v.lo.toNat) * (w.hi.toNat * 2 ^ 64 + w.lo.toNat) =
      v.hi.toNat * w.hi.toNat * 2 ^ 128 +
        (v.hi.toNat * w.lo.toNat + v.lo.toNat * w.hi.toNat) * 2 ^ 64 +
          v.lo.toNat * w.lo.toNat := by ring
  simp only [toNat, mul, hlow, BitVec.toNat_add, BitVec.toNat_mul, (split32 _).1, (split32 _).2]
  rw [hsquare, ← hprod]
  -- none of the sums of partial products wraps
  rw [Nat.mod_eq_of_lt h0, Nat.mod_eq_of_lt h1, Nat.mod_eq_of_lt h2, Nat.mod_eq_of_lt h3,
    Nat.mod_eq_of_lt hmid, Nat.mod_eq_of_lt hmid2]
  clear hprod hsquare hlow split32
  generalize v.hi.toNat * w.lo.toNat = c1 at *
  generalize v.lo.toNat * w.hi.toNat = c2 at *
  generalize v.hi.toNat * w.hi.toNat = c3 at *
  generalize v.lo.toNat % 2 ^ 32 * (w.lo.toNat % 2 ^ 32) = p0 at *
  generalize v.lo.toNat % 2 ^ 32 * (w.lo.toNat / 2 ^ 32) = p1 at *
  generalize v.lo.toNat / 2 ^ 32 * (w.lo.toNat % 2 ^ 32) = p2 at *
  generalize v.lo.toNat / 2 ^ 32 * (w.lo.toNat / 2 ^ 32) = p3 at *
  generalize p1 + p0 / 2 ^ 32 = mid at *
  generalize p2 + mid % 2 ^ 32 = mid2 at *
  omega

end UInt128

end Tess
