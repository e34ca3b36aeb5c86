import Mathlib.Algebra.Order.Ring.Int

/-!
# Checked machine integers

A value of exact arithmetic is brought into a machine type; `none` says that it does not fit.  A
computation whose every operation is checked so, and which ends in `some`, has not overflowed.

* `i64`, `u64`, `u32` : the checks;
* `i64_eq`, `u64_eq`, `u32_eq` : a value in range passes;
* `exactly` : the result of a wrapping operation, unless it differs from the exact one.
-/

namespace Checked

/-- The value as a signed 64-bit number. -/
def i64 (value : ℤ) : Option ℤ := if -2 ^ 63 ≤ value ∧ value < 2 ^ 63 then some value else none

/-- The value as an unsigned 64-bit number. -/
def u64 (value : ℤ) : Option ℕ := if 0 ≤ value ∧ value < 2 ^ 64 then some value.toNat else none

/-- The value as an unsigned 32-bit number. -/
def u32 (value : ℕ) : Option ℕ := if value < 2 ^ 32 then some value else none

/-- The result of a wrapping operation, unless its number is not the exact one. -/
def exactly {α : Type*} (number : α → ℕ) (result : α) (exact : ℕ) : Option α :=
  if number result = exact then some result else none

theorem i64_eq {value : ℤ} (hlow : -2 ^ 63 ≤ value) (hhigh : value < 2 ^ 63) :
    i64 value = some value := if_pos ⟨hlow, hhigh⟩

theorem u64_eq {value : ℤ} {n : ℕ} (hvalue : value = n) (hn : n < 2 ^ 64) :
    u64 value = some n := by
  subst hvalue
  exact if_pos ⟨Int.natCast_nonneg n, by exact_mod_cast hn⟩

theorem u32_eq {value : ℕ} (h : value < 2 ^ 32) : u32 value = some value := if_pos h

theorem exactly_eq {α : Type*} {number : α → ℕ} {result : α} {exact : ℕ}
    (h : number result = exact) : exactly number result exact = some result := if_pos h

end Checked
