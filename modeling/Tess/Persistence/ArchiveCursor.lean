import Tess.Lib.Wire
import Mathlib.Data.BitVec
import Mathlib.Data.Nat.Bits

/-!
# Reading and writing archive bytes

* `appendUnsignedLE`, `readUnsignedLE`, `readUnsigneds`, `skip` : numbers;
* `readUnsignedLE_iff`, `readUnsigneds_iff`, `skip_iff` : **a read succeeds exactly on what a
  write gives**.

A read returns no result only when it touches a byte outside the span.
-/

namespace Tess

open Wire

/-- `ArchiveCursor`. -/
abbrev ArchiveCursor := Cursor

/-! ### Numbers -/

/-- `append_unsigned_le`, for a type of some bytes. -/
def appendUnsignedLE (out : List UInt8) (w value : ℕ) : List UInt8 :=
  (List.range w).foldl (fun out i => out ++ [UInt8.ofNat ((value >>> (i * 8)) &&& 0xff)]) out

/-- `ArchiveCursor::read_unsigned_le`; `read_byte` is the case of one byte. -/
def readUnsignedLE (c : ArchiveCursor) (w : ℕ) : Option (Option ℕ × ArchiveCursor) :=
  if h : c.remaining < w then some (none, c)
  else do
    let value ← (List.range w).foldlM
      (fun value i => do
        let byte ← c.bytes[c.pos + i]?
        return value ||| (byte.toNat <<< (i * 8))) 0
    return (some value, c.advance w (not_lt.1 h))

/-- A chain of reads, which ends at the first one that fails; the result has the values read. -/
def readUnsigneds : List ℕ → ArchiveCursor → Option (List ℕ × Bool × ArchiveCursor)
  | [], c => some ([], true, c)
  | w :: ws, c => do
    match ← readUnsignedLE c w with
    | (none, c) => return ([], false, c)
    | (some value, c) =>
      let (values, ok, c) ← readUnsigneds ws c
      return (value :: values, ok, c)

/-- `ArchiveCursor::skip`. -/
def skip (c : ArchiveCursor) (count : ℕ) : Bool × ArchiveCursor :=
  if h : c.remaining < count then (false, c) else (true, c.advance count (not_lt.1 h))

section Numbers

variable {c c' : ArchiveCursor} {w v n : ℕ} {ws vs : List ℕ} {bs : List UInt8}

/-- The byte that a shift and a mask take out. -/
theorem shiftRight_and_eq (v i : ℕ) :
    UInt8.ofNat ((v >>> (i * 8)) &&& 0xff) = UInt8.ofNat (v / 256 ^ i % 256) := by
  have hmask : (0xff : ℕ) = 2 ^ 8 - 1 := rfl
  rw [hmask, Nat.and_two_pow_sub_one_eq_mod, Nat.shiftRight_eq_div_pow, Nat.mul_comm, pow_mul]
  rfl

theorem appendUnsignedLE_eq (out : List UInt8) (w v : ℕ) :
    appendUnsignedLE out w v = out ++ toLE w v := by
  unfold appendUnsignedLE
  induction w with
  | zero => simp [toLE]
  | succ w ih =>
    rw [List.range_succ, List.foldl_append, List.foldl_cons, List.foldl_nil, ih,
      shiftRight_and_eq, toLE_add w 1, List.append_assoc]
    rfl

/-- Putting a byte above a number is adding it. -/
theorem or_shiftLeft_eq {v : ℕ} (i b : ℕ) (hv : v < 256 ^ i) :
    v ||| (b <<< (i * 8)) = v + 256 ^ i * b := by
  have hpow : (256 : ℕ) ^ i = 2 ^ (i * 8) := by rw [Nat.mul_comm, pow_mul]; rfl
  rw [hpow] at hv ⊢
  rw [Nat.or_comm, Nat.shiftLeft_eq, ← Nat.shiftLeft_eq, ← Nat.shiftLeft_add_eq_or_of_lt hv,
    Nat.shiftLeft_eq]
  ring

/-- The loop of a read reads the bytes at the cursor. -/
theorem foldlM_read (h : c.rest = bs ++ c'.rest) :
    (List.range bs.length).foldlM (fun value i => do
      let byte ← c.bytes[c.pos + i]?
      return value ||| (byte.toNat <<< (i * 8))) 0 = some (ofLE bs) := by
  have hbyte : ∀ i, ∀ hi : i < bs.length, c.bytes[c.pos + i]? = some (bs.get ⟨i, hi⟩) := by
    intro i hi
    have := congrArg (·[i]?) h
    simp only [Cursor.rest, List.getElem?_drop, List.getElem?_append_left hi] at this
    rw [this, List.getElem?_eq_getElem hi, List.get_eq_getElem]
  -- the value so far is that of the bytes so far
  have hloop : ∀ k, k ≤ bs.length → (List.range k).foldlM (fun value i => do
      let byte ← c.bytes[c.pos + i]?
      return value ||| (byte.toNat <<< (i * 8))) 0 = some (ofLE (bs.take k)) := by
    intro k
    induction k with
    | zero => intro _; rfl
    | succ k ih =>
      intro hk
      have hlt : ofLE (bs.take k) < 256 ^ k := by
        have := ofLE_lt (bs.take k)
        rwa [List.length_take, min_eq_left (by omega)] at this
      rw [List.range_succ, List.foldlM_append, ih (by omega), List.take_succ_eq_append_getElem hk,
        ofLE_append, List.length_take, min_eq_left (by omega)]
      simp [hbyte k hk, or_shiftLeft_eq k _ hlt, ofLE]
  simpa using hloop bs.length le_rfl

/-- **A read of a number** succeeds exactly on its bytes. -/
theorem readUnsignedLE_iff : readUnsignedLE c w = some (some v, c') ↔
    v < 256 ^ w ∧ c.Consumes (toLE w v) c' := by
  unfold readUnsignedLE
  split_ifs with h
  · constructor
    · intro heq
      cases heq
    · rintro ⟨-, hc⟩
      have := hc.le
      rw [length_toLE] at this
      omega
  · obtain ⟨bs, hlen, hbs⟩ := Cursor.exists_consumes_of_le (not_lt.1 h)
    subst hlen
    rw [foldlM_read hbs.rest]
    simp only [Option.pure_def, Option.bind_eq_bind, Option.bind_some, Option.some.injEq,
      Prod.mk.injEq]
    constructor
    · rintro ⟨rfl, rfl⟩
      exact ⟨ofLE_lt bs, by rw [toLE_ofLE]; exact hbs⟩
    · rintro ⟨hv, hc⟩
      obtain ⟨heq, hc'⟩ := hbs.unique hc (by rw [length_toLE])
      exact ⟨by rw [heq, ofLE_toLE_of_lt hv], hc'⟩

/-- A read of a number stays within the span. -/
theorem exists_readUnsignedLE (c : ArchiveCursor) (w : ℕ) :
    ∃ r, readUnsignedLE c w = some r ∧ (r.1 = none → c.remaining < w) := by
  by_cases h : c.remaining < w
  · exact ⟨(none, c), by rw [readUnsignedLE, dif_pos h], fun _ => h⟩
  · obtain ⟨bs, hlen, hbs⟩ := Cursor.exists_consumes_of_le (not_lt.1 h)
    subst hlen
    refine ⟨(some (ofLE bs), c.advance bs.length (not_lt.1 h)), readUnsignedLE_iff.2 ?_,
      fun hn => ?_⟩
    · rw [toLE_ofLE]
      exact ⟨ofLE_lt bs, hbs⟩
    · cases hn

/-- **A chain of reads** succeeds exactly on the bytes of a row. -/
theorem readUnsigneds_iff : readUnsigneds ws c = some (vs, true, c') ↔
    FitWidths ws vs ∧ c.Consumes (unsigneds ws vs) c' := by
  induction ws generalizing c vs with
  | nil =>
    simp only [readUnsigneds, Option.some.injEq, Prod.mk.injEq, true_and]
    constructor
    · rintro ⟨rfl, rfl⟩
      exact ⟨.nil, .nil c⟩
    · rintro ⟨hfits, hc⟩
      cases hfits
      exact ⟨rfl, (Cursor.Consumes.nil_iff.1 hc).symm⟩
  | cons w ws ih =>
    obtain ⟨⟨r, c₁⟩, hr, -⟩ := exists_readUnsignedLE c w
    have hread : ∀ v c₂, readUnsignedLE c w = some (some v, c₂) ↔ r = some v ∧ c₁ = c₂ := by
      intro v c₂
      rw [hr]
      simp
    cases r with
    | none =>
      simp only [readUnsigneds, hr]
      constructor
      · intro heq
        simp at heq
      · rintro ⟨hfits, hc⟩
        cases hfits with
        | cons hv hvs =>
          obtain ⟨c₂, h₁, -⟩ := Cursor.consumes_append_iff.1 hc
          have := (hread _ c₂).1 (readUnsignedLE_iff.2 ⟨hv, h₁⟩)
          simp at this
    | some v =>
      obtain ⟨hv, h₁⟩ := readUnsignedLE_iff.1 hr
      simp only [readUnsigneds, hr, Option.pure_def, Option.bind_eq_bind, Option.bind_some,
        Option.bind_eq_some_iff, Option.some.injEq, Prod.mk.injEq, Prod.exists]
      constructor
      · rintro ⟨vs', ok, c₂, hrest, rfl, rfl, rfl⟩
        obtain ⟨hfits, h₂⟩ := ih.1 hrest
        exact ⟨.cons hv hfits, h₁.append h₂⟩
      · rintro ⟨hfits, hc⟩
        cases hfits with
        | cons hv' hvs =>
          obtain ⟨c₂, h₁', h₂⟩ := Cursor.consumes_append_iff.1 hc
          obtain ⟨hval, rfl⟩ := (hread _ c₂).1 (readUnsignedLE_iff.2 ⟨hv', h₁'⟩)
          exact ⟨_, true, c', ih.2 ⟨hvs, h₂⟩, by rw [Option.some.inj hval], rfl, rfl⟩

/-- A chain of reads stays within the span. -/
theorem exists_readUnsigneds (ws : List ℕ) (c : ArchiveCursor) :
    ∃ r, readUnsigneds ws c = some r := by
  induction ws generalizing c with
  | nil => exact ⟨_, rfl⟩
  | cons w ws ih =>
    obtain ⟨⟨r, c₁⟩, hr, -⟩ := exists_readUnsignedLE c w
    obtain ⟨r', hr'⟩ := ih c₁
    cases r with
    | none => exact ⟨_, by simp only [readUnsigneds, hr]; rfl⟩
    | some v =>
      exact ⟨(v :: r'.1, r'.2.1, r'.2.2), by simp [readUnsigneds, hr, hr']⟩

/-- **A skip** succeeds exactly on enough bytes. -/
theorem skip_iff : skip c n = (true, c') ↔ ∃ bs, bs.length = n ∧ c.Consumes bs c' := by
  unfold skip
  split_ifs with h
  · constructor
    · intro heq
      cases heq
    · rintro ⟨bs, rfl, hc⟩
      exact absurd hc.le (by omega)
  · constructor
    · intro heq
      obtain ⟨bs, hlen, hbs⟩ := Cursor.exists_consumes_of_le (not_lt.1 h)
      exact ⟨bs, hlen, (Prod.mk.inj heq).2 ▸ hbs⟩
    · rintro ⟨bs, rfl, hc⟩
      rw [hc.eq_advance]

end Numbers

end Tess
