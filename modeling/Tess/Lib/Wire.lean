import Mathlib.Algebra.Order.Ring.Nat
import Mathlib.Data.List.Forall2
import Mathlib.Data.Nat.Bitwise
import Mathlib.Tactic.Ring

/-!
# Bytes on a wire

Numbers of fixed width as little-endian bytes, a cursor over a span of bytes, and computations
over a span that end in a value, in a failure or outside the span.

* `toLE`, `ofLE` : a number and its bytes, with `ofLE_toLE` and `toLE_ofLE`;
* `unsigneds` : a row of numbers, one after the other;
* `Cursor.Consumes` : **what a successful read says of the bytes**, with its composition;
* `Outcome` : results of computations over a span, with `Outcome.bind_eq_ok`.
-/

namespace Wire

/-! ### Little-endian numbers -/

/-- The bytes of a number, least significant first. -/
def toLE : ℕ → ℕ → List UInt8
  | 0, _ => []
  | w + 1, n => UInt8.ofNat (n % 256) :: toLE w (n / 256)

/-- The number with these bytes. -/
def ofLE : List UInt8 → ℕ
  | [] => 0
  | b :: bs => b.toNat + 256 * ofLE bs

@[simp] theorem length_toLE (w n : ℕ) : (toLE w n).length = w := by
  induction w generalizing n with
  | zero => rfl
  | succ w ih => rw [toLE, List.length_cons, ih]

/-- **Reading back** drops the bits beyond the width. -/
theorem ofLE_toLE (w n : ℕ) : ofLE (toLE w n) = n % 256 ^ w := by
  induction w generalizing n with
  | zero => rw [toLE, ofLE, pow_zero, Nat.mod_one]
  | succ w ih =>
    have hbyte : (UInt8.ofNat (n % 256)).toNat = n % 256 := by
      rw [UInt8.toNat_ofNat', Nat.mod_eq_of_lt (Nat.mod_lt n (by decide))]
    rw [toLE, ofLE, ih, hbyte, pow_succ', Nat.mod_mul]

theorem ofLE_toLE_of_lt {w n : ℕ} (h : n < 256 ^ w) : ofLE (toLE w n) = n := by
  rw [ofLE_toLE, Nat.mod_eq_of_lt h]

theorem ofLE_lt (bs : List UInt8) : ofLE bs < 256 ^ bs.length := by
  induction bs with
  | nil => exact Nat.one_pos
  | cons b bs ih =>
    have hb := b.toNat_lt
    rw [ofLE, List.length_cons, pow_succ]
    omega

/-- **Writing back** gives the same bytes. -/
theorem toLE_ofLE (bs : List UInt8) : toLE bs.length (ofLE bs) = bs := by
  induction bs with
  | nil => rfl
  | cons b bs ih =>
    have hb := b.toNat_lt
    have hmod : (b.toNat + 256 * ofLE bs) % 256 = b.toNat := by omega
    have hdiv : (b.toNat + 256 * ofLE bs) / 256 = ofLE bs := by omega
    rw [List.length_cons, ofLE, toLE, hmod, hdiv, ih, UInt8.ofNat_toNat]

theorem ofLE_append (bs cs : List UInt8) :
    ofLE (bs ++ cs) = ofLE bs + 256 ^ bs.length * ofLE cs := by
  induction bs with
  | nil => simp [ofLE]
  | cons b bs ih =>
    rw [List.cons_append, ofLE, ofLE, ih, List.length_cons, pow_succ]
    ring

/-- The bytes of a number below a power of the base, and those above it. -/
theorem toLE_add (w k n : ℕ) : toLE (w + k) n = toLE w n ++ toLE k (n / 256 ^ w) := by
  induction w generalizing n with
  | zero => simp [toLE]
  | succ w ih =>
    rw [Nat.succ_add, toLE, toLE, ih, List.cons_append, Nat.div_div_eq_div_mul, ← pow_succ']

/-! ### Rows of numbers -/

/-- The bytes of a row of numbers of given widths. -/
def unsigneds : List ℕ → List ℕ → List UInt8
  | w :: ws, v :: vs => toLE w v ++ unsigneds ws vs
  | _, _ => []

/-- The numbers fit the widths. -/
def FitWidths : List ℕ → List ℕ → Prop := List.Forall₂ fun w v => v < 256 ^ w

variable {ws vs : List ℕ}

@[simp] theorem length_unsigneds (h : ws.length = vs.length) :
    (unsigneds ws vs).length = ws.sum := by
  induction ws generalizing vs with
  | nil => rfl
  | cons w ws ih =>
    cases vs with
    | nil => simp at h
    | cons v vs =>
      rw [unsigneds, List.length_append, length_toLE, ih (by simpa using h), List.sum_cons]

theorem FitWidths.length_eq (h : FitWidths ws vs) : ws.length = vs.length := List.Forall₂.length_eq h

/-! ### Cursors -/

/-- A position in a span of bytes. -/
@[ext]
structure Cursor where
  /-- The span. -/
  bytes : List UInt8
  /-- Bytes that were consumed. -/
  pos : ℕ
  /-- The position lies within the span. -/
  le : pos ≤ bytes.length

namespace Cursor

variable (c : Cursor)

/-- The start of a span. -/
def start (bytes : List UInt8) : Cursor := ⟨bytes, 0, Nat.zero_le _⟩

/-- Number of bytes that are left. -/
def remaining : ℕ := c.bytes.length - c.pos

/-- Bytes that are left. -/
def rest : List UInt8 := c.bytes.drop c.pos

/-- The cursor behind some of the bytes that are left. -/
def advance (w : ℕ) (h : w ≤ c.remaining) : Cursor :=
  ⟨c.bytes, c.pos + w, by have := c.le; simp only [remaining] at h; omega⟩

@[simp] theorem rest_start (bytes : List UInt8) : (start bytes).rest = bytes := rfl

@[simp] theorem pos_start (bytes : List UInt8) : (start bytes).pos = 0 := rfl

theorem length_rest : c.rest.length = c.remaining := by simp [rest, remaining]

@[simp] theorem rest_advance (w : ℕ) (h : w ≤ c.remaining) :
    (c.advance w h).rest = c.rest.drop w := by
  simp [advance, rest, List.drop_drop]

/-- **The cursor moved over these bytes.** -/
structure Consumes (c : Cursor) (bs : List UInt8) (c' : Cursor) : Prop where
  /-- The span is the same. -/
  bytes : c'.bytes = c.bytes
  /-- The position advanced. -/
  pos : c'.pos = c.pos + bs.length
  /-- The bytes stood there. -/
  rest : c.rest = bs ++ c'.rest

variable {c} {c' c'' : Cursor} {bs cs r : List UInt8} {w : ℕ}

theorem Consumes.nil (c : Cursor) : c.Consumes [] c := ⟨rfl, rfl, rfl⟩

theorem Consumes.append (h : c.Consumes bs c') (h' : c'.Consumes cs c'') :
    c.Consumes (bs ++ cs) c'' :=
  ⟨h'.bytes.trans h.bytes, by rw [h'.pos, h.pos, List.length_append, Nat.add_assoc],
    by rw [h.rest, h'.rest, List.append_assoc]⟩

theorem Consumes.nil_iff : c.Consumes [] c' ↔ c' = c := by
  constructor
  · intro h
    exact Cursor.ext h.bytes (by simpa using h.pos)
  · rintro rfl
    exact .nil _

/-- Bytes that stand at the cursor can be consumed. -/
theorem exists_consumes (h : c.rest = bs ++ r) : ∃ c', c.Consumes bs c' ∧ c'.rest = r := by
  have hlen : bs.length ≤ c.remaining := by
    rw [← length_rest, h, List.length_append]
    exact Nat.le_add_right _ _
  have hrest : (c.advance bs.length hlen).rest = r := by
    rw [rest_advance, h, List.drop_left]
  exact ⟨c.advance bs.length hlen, ⟨rfl, rfl, by rw [hrest, h]⟩, hrest⟩

/-- As many bytes as are left can be consumed. -/
theorem exists_consumes_of_le (h : w ≤ c.remaining) :
    ∃ bs, bs.length = w ∧ c.Consumes bs (c.advance w h) := by
  have hlen : (c.rest.take w).length = w := by
    rw [List.length_take, length_rest, min_eq_left h]
  exact ⟨c.rest.take w, hlen, rfl, by rw [hlen]; rfl,
    by rw [rest_advance, List.take_append_drop]⟩

theorem Consumes.le (h : c.Consumes bs c') : bs.length ≤ c.remaining := by
  rw [← length_rest, h.rest, List.length_append]
  exact Nat.le_add_right _ _

/-- Where the cursor stands behind the bytes. -/
theorem Consumes.eq_advance (h : c.Consumes bs c') : c' = c.advance bs.length h.le :=
  Cursor.ext h.bytes h.pos

/-- Consuming both is consuming one after the other. -/
theorem consumes_append_iff :
    c.Consumes (bs ++ cs) c'' ↔ ∃ c', c.Consumes bs c' ∧ c'.Consumes cs c'' := by
  constructor
  · intro h
    obtain ⟨c', h', hr⟩ := exists_consumes (r := cs ++ c''.rest)
      (by rw [h.rest, List.append_assoc])
    exact ⟨c', h', h.bytes.trans h'.bytes.symm,
      by rw [h.pos, h'.pos, List.length_append, Nat.add_assoc], hr⟩
  · rintro ⟨c', h, h'⟩
    exact h.append h'

/-- Bytes of the same number that are consumed are the same. -/
theorem Consumes.unique {c₁ c₂ : Cursor} {bs₁ bs₂ : List UInt8} (h₁ : c.Consumes bs₁ c₁)
    (h₂ : c.Consumes bs₂ c₂) (hlen : bs₁.length = bs₂.length) : bs₁ = bs₂ ∧ c₁ = c₂ := by
  have hrest := h₁.rest.symm.trans h₂.rest
  refine ⟨(List.append_inj hrest hlen).1, Cursor.ext (h₁.bytes.trans h₂.bytes.symm) ?_⟩
  rw [h₁.pos, h₂.pos, hlen]

end Cursor

/-! ### Computations over a span -/

/-- What a computation over a span ends in. -/
inductive Outcome (ε α : Type)
  /-- A byte outside the span was read. -/
  | outside
  /-- The computation failed. -/
  | failed (e : ε)
  /-- The computation returned. -/
  | ok (a : α)

namespace Outcome

variable {ε α β : Type}

/-- Go on with the value. -/
protected def bind (x : Outcome ε α) (f : α → Outcome ε β) : Outcome ε β :=
  match x with
  | outside => outside
  | failed e => failed e
  | ok a => f a

instance : Monad (Outcome ε) where
  pure := ok
  bind := Outcome.bind

/-- The value of a read, if there is one. -/
def read : Option α → Outcome ε α
  | none => outside
  | some a => ok a

/-- The value of a checked operation, if there is one. -/
def require (e : ε) : Option α → Outcome ε α
  | none => failed e
  | some a => ok a

/-- Fail when the condition holds. -/
def failWhen (p : Prop) [Decidable p] (e : ε) : Outcome ε Unit :=
  if p then failed e else ok ()

variable {x : Outcome ε α} {f : α → Outcome ε β} {a : α} {b : β} {e : ε} {o : Option α} {p : Prop}
  [Decidable p]

@[simp] theorem pure_eq : (pure a : Outcome ε α) = ok a := rfl

@[simp] theorem ok_bind : ok a >>= f = f a := rfl

@[simp] theorem failed_bind : (failed e : Outcome ε α) >>= f = failed e := rfl

/-- **A computation returns** when both its parts do. -/
theorem bind_eq_ok : x >>= f = ok b ↔ ∃ a, x = ok a ∧ f a = ok b := by
  constructor
  · intro h
    cases x with
    | outside => cases h
    | failed e => cases h
    | ok a => exact ⟨a, rfl, h⟩
  · rintro ⟨a, rfl, h⟩
    exact h

@[simp] theorem read_eq_ok : (read o : Outcome ε α) = ok a ↔ o = some a := by
  cases o <;> simp [read]

@[simp] theorem require_eq_ok : require e o = ok a ↔ o = some a := by
  cases o <;> simp [require]

@[simp] theorem failWhen_eq_ok {u : Unit} : failWhen p e = ok u ↔ ¬ p := by
  unfold failWhen
  split_ifs with h <;> simp [h]

/-- **No byte outside the span was read**, and failures are of a kind. -/
def Within (P : ε → Prop) : Outcome ε α → Prop
  | outside => False
  | failed e => P e
  | ok _ => True

variable {P : ε → Prop}

theorem Within.bind (h : x.Within P) (h' : ∀ a, x = ok a → (f a).Within P) :
    (x >>= f).Within P := by
  cases x with
  | outside => exact h
  | failed e => exact h
  | ok a => exact h' a rfl

theorem within_ok : (ok a : Outcome ε α).Within P := trivial

theorem within_failWhen (h : P e) : (failWhen p e).Within P := by
  unfold failWhen
  split_ifs
  · exact h
  · exact trivial

theorem within_require (h : P e) : (require e o).Within P := by
  cases o with
  | none => exact h
  | some a => exact trivial

theorem within_read (h : o = some a) : (read o : Outcome ε α).Within P := by
  rw [h]
  exact trivial

end Outcome

end Wire
