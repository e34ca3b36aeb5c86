import Tess.Persistence.ArchiveCursor
import Mathlib.Data.List.Nodup
import Mathlib.Data.List.FinRange
import Mathlib.Logic.Equiv.Defs

/-!
# Persisted fields

A persistence schema names fields of a world by stable identifiers; the values of a field are
scalars, and the values of a chunk are written field by field, tile by tile.

* `ScalarType`, `appendScalar`, `readScalar` : the scalars that a field can persist;
* `PersistedField`, `appendChunkFields`, `readChunkFields`, `validateChunkFields` : the values of
  a chunk;
* `readScalar_iff`, `validateChunkFields_iff`, `readChunkFields_of_consumes` : **validation
  accepts exactly what was written from some page, and reading what it accepts gives that page**.
-/

namespace Tess

open Wire

/-! ### Scalars -/

/-- `ArchiveScalarKind`. -/
inductive ArchiveScalarKind
  | unsigned
  | signed
  | floating
  | boolean
  deriving DecidableEq, Repr

/-- Value of the enumerator. -/
def ArchiveScalarKind.code : ArchiveScalarKind → ℕ
  | unsigned => 1
  | signed => 2
  | floating => 3
  | boolean => 4

/-- Bytes of an integral type. -/
inductive IntegralWidth
  | one
  | two
  | four
  | eight
  deriving DecidableEq, Repr

/-- `sizeof`. -/
def IntegralWidth.bytes : IntegralWidth → ℕ
  | one => 1
  | two => 2
  | four => 4
  | eight => 8

/-- The scalars that `archive_scalar_supported_v` admits; an enumeration is its underlying
type. -/
inductive ScalarType
  | unsigned (w : IntegralWidth)
  | signed (w : IntegralWidth)
  | float
  | double
  | bool
  deriving DecidableEq, Repr

namespace ScalarType

/-- `archive_scalar_kind`. -/
def kind : ScalarType → ArchiveScalarKind
  | unsigned _ => .unsigned
  | signed _ => .signed
  | float => .floating
  | double => .floating
  | bool => .boolean

/-- `sizeof`. -/
def width : ScalarType → ℕ
  | unsigned w => w.bytes
  | signed w => w.bytes
  | float => 4
  | double => 8
  | bool => 1

/-- The values; those of a number are its bits. -/
def Value : ScalarType → Type
  | bool => Bool
  | t => BitVec (8 * t.width)

/-- The byte of a boolean. -/
def boolByte (v : Bool) : UInt8 := if v then 1 else 0

/-- The bytes of a value. -/
def encode : (t : ScalarType) → t.Value → List UInt8
  | bool, v => [boolByte v]
  | unsigned w, v => toLE w.bytes (BitVec.toNat v)
  | signed w, v => toLE w.bytes (BitVec.toNat v)
  | float, v => toLE 4 (BitVec.toNat v)
  | double, v => toLE 8 (BitVec.toNat v)

end ScalarType

/-- `append_scalar`. -/
def appendScalar (out : List UInt8) : (t : ScalarType) → t.Value → List UInt8
  | .bool, v => out ++ [ScalarType.boolByte v]
  | .unsigned w, v => appendUnsignedLE out w.bytes (BitVec.toNat v)
  | .signed w, v => appendUnsignedLE out w.bytes (BitVec.toNat v)
  | .float, v => appendUnsignedLE out 4 (BitVec.toNat v)
  | .double, v => appendUnsignedLE out 8 (BitVec.toNat v)

/-- `read_scalar` of a number of some bytes, whose bits are the value. -/
def readBits (c : ArchiveCursor) (w : ℕ) : Option (Option (BitVec (8 * w)) × ArchiveCursor) := do
  let (bits, c) ← readUnsignedLE c w
  return (bits.map (BitVec.ofNat (8 * w)), c)

/-- `read_scalar` of a boolean. -/
def readBool (c : ArchiveCursor) : Option (Option Bool × ArchiveCursor) := do
  let (byte, c) ← readUnsignedLE c 1
  return (byte.bind fun b => if b > 1 then none else some (b != 0), c)

/-- `read_scalar`. -/
def readScalar (c : ArchiveCursor) : (t : ScalarType) → Option (Option t.Value × ArchiveCursor)
  | .bool => readBool c
  | .unsigned w => readBits c w.bytes
  | .signed w => readBits c w.bytes
  | .float => readBits c 4
  | .double => readBits c 8

section Scalars

variable {c c' : ArchiveCursor}

theorem appendScalar_eq (out : List UInt8) (t : ScalarType) (v : t.Value) :
    appendScalar out t v = out ++ t.encode v := by
  cases t with
  | bool => rfl
  | _ => exact appendUnsignedLE_eq ..

theorem ScalarType.length_encode (t : ScalarType) (v : t.Value) :
    (t.encode v).length = t.width := by
  cases t with
  | bool => rfl
  | _ => exact length_toLE ..

/-- The bits of some bytes are below the power of the base. -/
theorem toNat_lt_base {w : ℕ} (v : BitVec (8 * w)) : v.toNat < 256 ^ w := by
  have := v.isLt
  rwa [pow_mul] at this

theorem readBits_iff {w : ℕ} {v : BitVec (8 * w)} : readBits c w = some (some v, c') ↔
    c.Consumes (toLE w v.toNat) c' := by
  have hiff : readBits c w = some (some v, c') ↔ readUnsignedLE c w = some (some v.toNat, c') := by
    obtain ⟨⟨r, c₁⟩, hr, -⟩ := exists_readUnsignedLE c w
    simp only [readBits, hr, Option.pure_def, Option.bind_eq_bind, Option.bind_some,
      Option.some.injEq, Prod.mk.injEq, Option.map_eq_some_iff]
    constructor
    · rintro ⟨⟨n, rfl, rfl⟩, rfl⟩
      have hn : n < 2 ^ (8 * w) := by rw [pow_mul]; exact (readUnsignedLE_iff.1 hr).1
      exact ⟨by rw [BitVec.toNat_ofNat, Nat.mod_eq_of_lt hn], rfl⟩
    · rintro ⟨rfl, rfl⟩
      exact ⟨⟨_, rfl, by rw [BitVec.ofNat_toNat, BitVec.setWidth_eq]⟩, rfl⟩
  rw [hiff, readUnsignedLE_iff]
  exact and_iff_right (toNat_lt_base v)

theorem readBool_iff {v : Bool} : readBool c = some (some v, c') ↔
    c.Consumes [ScalarType.boolByte v] c' := by
  have hbytes : [ScalarType.boolByte v] = toLE 1 v.toNat := by cases v <;> rfl
  have hlt : v.toNat < 256 ^ 1 := by cases v <;> decide
  have hiff : readBool c = some (some v, c') ↔ readUnsignedLE c 1 = some (some v.toNat, c') := by
    obtain ⟨⟨r, c₁⟩, hr, -⟩ := exists_readUnsignedLE c 1
    simp only [readBool, hr, Option.pure_def, Option.bind_eq_bind, Option.bind_some,
      Option.some.injEq, Prod.mk.injEq, Option.bind_eq_some_iff]
    constructor
    · rintro ⟨⟨n, rfl, hn⟩, rfl⟩
      split_ifs at hn with hgt
      refine ⟨?_, rfl⟩
      obtain rfl := Option.some.inj hn
      have : n = 0 ∨ n = 1 := by omega
      rcases this with rfl | rfl <;> rfl
    · rintro ⟨rfl, rfl⟩
      exact ⟨⟨_, rfl, by cases v <;> rfl⟩, rfl⟩
  rw [hiff, readUnsignedLE_iff, hbytes]
  exact and_iff_right hlt

/-- **A read of a scalar** succeeds exactly on what a write of the value gives. -/
theorem readScalar_iff {t : ScalarType} {v : t.Value} :
    readScalar c t = some (some v, c') ↔ c.Consumes (t.encode v) c' := by
  cases t with
  | bool => exact readBool_iff
  | unsigned w => exact readBits_iff
  | signed w => exact readBits_iff
  | float => exact readBits_iff (w := 4)
  | double => exact readBits_iff (w := 8)

theorem exists_readScalar (c : ArchiveCursor) (t : ScalarType) : ∃ r, readScalar c t = some r := by
  have hbits : ∀ w, ∃ r, readBits c w = some r := by
    intro w
    obtain ⟨r, hr, -⟩ := exists_readUnsignedLE c w
    exact ⟨_, by rw [readBits, hr]; rfl⟩
  cases t with
  | bool =>
    obtain ⟨r, hr, -⟩ := exists_readUnsignedLE c 1
    exact ⟨_, by rw [readScalar, readBool, hr]; rfl⟩
  | unsigned w => exact hbits w.bytes
  | signed w => exact hbits w.bytes
  | float => exact hbits 4
  | double => exact hbits 8

end Scalars

/-! ### The values of a chunk -/

/-- `PersistedField`, with the scalar of its value type. -/
structure PersistedField {Tag : Type} (Value : Tag → Type) where
  /-- Field of the world. -/
  tag : Tag
  /-- Stable identifier. -/
  id : ℕ
  /-- Version of the field. -/
  version : ℕ
  /-- Scalar of the value type. -/
  scalar : ScalarType
  /-- `static_cast` between the values and the scalars. -/
  base : Value tag ≃ scalar.Value
  /-- Identifiers are 64-bit. -/
  id_lt : id < 256 ^ 8
  /-- Versions are 32-bit. -/
  version_lt : version < 256 ^ 4

/-- The values of a chunk: of every field, one for each local tile. -/
abbrev FieldPage {Tag : Type} (Value : Tag → Type) (n : ℕ) := (tag : Tag) → Fin n → Value tag

section Chunk

variable {Tag : Type} [DecidableEq Tag] {Value : Tag → Type} {n : ℕ}

/-- Write one tile of a page. -/
def FieldPage.set (page : FieldPage Value n) (tag : Tag) (i : Fin n) (v : Value tag) :
    FieldPage Value n :=
  Function.update page tag (Function.update (page tag) i v)

/-- The bytes of a field. -/
def PersistedField.encode (field : PersistedField Value) (values : Fin n → Value field.tag) :
    List UInt8 :=
  (List.finRange n).flatMap fun i => field.scalar.encode (field.base (values i))

/-- The bytes of a chunk. -/
def encodePage (fields : List (PersistedField Value)) (page : FieldPage Value n) : List UInt8 :=
  fields.flatMap fun field => field.encode (page field.tag)

/-- A page with the persisted fields of another one. -/
def overlayPage (fields : List (PersistedField Value)) (p page : FieldPage Value n) :
    FieldPage Value n :=
  fun tag => if tag ∈ fields.map PersistedField.tag then p tag else page tag

/-- `append_chunk_fields`. -/
def appendChunkFields (fields : List (PersistedField Value)) (page : FieldPage Value n)
    (body : List UInt8) : List UInt8 :=
  fields.foldl (fun body field => (List.finRange n).foldl
    (fun body i => appendScalar body field.scalar (field.base (page field.tag i))) body) body

/-- The loop of `read_chunk_fields` over the tiles of a field. -/
def readField (field : PersistedField Value) : List (Fin n) → FieldPage Value n → ArchiveCursor →
    Option (Bool × FieldPage Value n × ArchiveCursor)
  | [], page, c => some (true, page, c)
  | i :: tiles, page, c => do
    match ← readScalar c field.scalar with
    | (none, c) => return (false, page, c)
    | (some value, c) =>
      readField field tiles (page.set field.tag i (field.base.symm value)) c

/-- `read_chunk_fields`. -/
def readChunkFields : List (PersistedField Value) → FieldPage Value n → ArchiveCursor →
    Option (Bool × FieldPage Value n × ArchiveCursor)
  | [], page, c => some (true, page, c)
  | field :: fields, page, c => do
    match ← readField field (List.finRange n) page c with
    | (false, page, c) => return (false, page, c)
    | (true, page, c) => readChunkFields fields page c

/-- `validate_chunk_field`, for some number of tiles. -/
def validateChunkField (t : ScalarType) : ℕ → ArchiveCursor → Option (Bool × ArchiveCursor)
  | 0, c => some (true, c)
  | tiles + 1, c => do
    match ← readScalar c t with
    | (none, c) => return (false, c)
    | (some _, c) => validateChunkField t tiles c

/-- `validate_chunk_fields`. -/
def validateChunkFields (localTileCount : ℕ) : List (PersistedField Value) → ArchiveCursor →
    Option (Bool × ArchiveCursor)
  | [], c => some (true, c)
  | field :: fields, c => do
    match ← validateChunkField field.scalar localTileCount c with
    | (false, c) => return (false, c)
    | (true, c) => validateChunkFields localTileCount fields c

/-! ### What the values of a chunk read back to -/

variable {c c' : ArchiveCursor} {field : PersistedField Value}
  {fields : List (PersistedField Value)} {page p : FieldPage Value n} {tiles : List (Fin n)}

omit [DecidableEq Tag] in
theorem appendChunkFields_eq (body : List UInt8) :
    appendChunkFields fields page body = body ++ encodePage fields page := by
  have hfield : ∀ (field : PersistedField Value) (tiles : List (Fin n)) (body : List UInt8),
      tiles.foldl (fun body i => appendScalar body field.scalar
        (field.base (page field.tag i))) body =
          body ++ tiles.flatMap fun i => field.scalar.encode (field.base (page field.tag i)) := by
    intro field tiles
    induction tiles with
    | nil => simp
    | cons i tiles ih =>
      intro body
      rw [List.foldl_cons, ih, appendScalar_eq, List.flatMap_cons, List.append_assoc]
  unfold appendChunkFields encodePage
  induction fields generalizing body with
  | nil => simp
  | cons field fields ih =>
    rw [List.foldl_cons, ih, hfield, List.flatMap_cons, List.append_assoc]
    rfl

omit [DecidableEq Tag] in
theorem PersistedField.length_encode (values : Fin n → Value field.tag) :
    (field.encode values).length = n * field.scalar.width := by
  simp [PersistedField.encode, List.length_flatMap, ScalarType.length_encode]

omit [DecidableEq Tag] in
/-- Number of bytes of a chunk. -/
theorem length_encodePage :
    (encodePage fields page).length = n * (fields.map fun field => field.scalar.width).sum := by
  induction fields with
  | nil => rfl
  | cons field fields ih =>
    rw [encodePage, List.flatMap_cons, List.length_append, PersistedField.length_encode,
      List.map_cons, List.sum_cons, Nat.mul_add, ← encodePage, ih]

omit [DecidableEq Tag] in
/-- The bytes depend on the persisted fields only. -/
theorem encodePage_congr (h : ∀ field ∈ fields, page field.tag = p field.tag) :
    encodePage fields page = encodePage fields p :=
  List.flatMap_congr fun field hf => by rw [h field hf]

/-- **Validation of a field** accepts exactly what was written from some values. -/
theorem validateChunkField_iff {tiles : ℕ} {t : ScalarType} :
    validateChunkField t tiles c = some (true, c') ↔
      ∃ values : Fin tiles → t.Value,
        c.Consumes ((List.finRange tiles).flatMap fun i => t.encode (values i)) c' := by
  induction tiles generalizing c with
  | zero =>
    simp only [validateChunkField, Option.some.injEq, Prod.mk.injEq, true_and, List.finRange_zero,
      List.flatMap_nil, Cursor.Consumes.nil_iff]
    constructor
    · rintro rfl
      exact ⟨Fin.elim0, rfl⟩
    · rintro ⟨-, rfl⟩
      rfl
  | succ tiles ih =>
    obtain ⟨⟨r, c₁⟩, hr⟩ := exists_readScalar c t
    simp only [validateChunkField, hr, List.finRange_succ, List.flatMap_cons, List.flatMap_map]
    constructor
    · intro h
      cases r with
      | none => simp at h
      | some v =>
        obtain ⟨values, hvalues⟩ := ih.1 (by simpa using h)
        refine ⟨Fin.cons v values, ?_⟩
        simpa using (readScalar_iff.1 hr).append hvalues
    · rintro ⟨values, hc⟩
      obtain ⟨c₂, h₁, h₂⟩ := Cursor.consumes_append_iff.1 hc
      have hread := readScalar_iff.2 h₁
      rw [hr] at hread
      obtain ⟨rfl, rfl⟩ := Prod.mk.inj (Option.some.inj hread)
      simpa using ih.2 ⟨fun i => values i.succ, h₂⟩

theorem exists_validateChunkField (t : ScalarType) (tiles : ℕ) (c : ArchiveCursor) :
    ∃ r, validateChunkField t tiles c = some r := by
  induction tiles generalizing c with
  | zero => exact ⟨_, rfl⟩
  | succ tiles ih =>
    obtain ⟨⟨r, c₁⟩, hr⟩ := exists_readScalar c t
    cases r with
    | none => exact ⟨(false, c₁), by simp [validateChunkField, hr]⟩
    | some v =>
      obtain ⟨r', hr'⟩ := ih c₁
      exact ⟨r', by simp [validateChunkField, hr, hr']⟩

omit [DecidableEq Tag] in
theorem exists_validateChunkFields (fields : List (PersistedField Value)) (tiles : ℕ)
    (c : ArchiveCursor) : ∃ r, validateChunkFields tiles fields c = some r := by
  induction fields generalizing c with
  | nil => exact ⟨_, rfl⟩
  | cons field fields ih =>
    obtain ⟨⟨ok, c₁⟩, hr⟩ := exists_validateChunkField field.scalar tiles c
    cases ok with
    | false => exact ⟨(false, c₁), by simp [validateChunkFields, hr]⟩
    | true =>
      obtain ⟨r', hr'⟩ := ih c₁
      exact ⟨r', by simp [validateChunkFields, hr, hr']⟩

/-- **Validation** accepts exactly what was written from some page. -/
theorem validateChunkFields_iff [∀ tag, Inhabited (Value tag)]
    (hnodup : (fields.map PersistedField.tag).Nodup) :
    validateChunkFields n fields c = some (true, c') ↔
      ∃ page : FieldPage Value n, c.Consumes (encodePage fields page) c' := by
  induction fields generalizing c with
  | nil =>
    simp only [validateChunkFields, Option.some.injEq, Prod.mk.injEq, true_and, encodePage,
      List.flatMap_nil, Cursor.Consumes.nil_iff]
    constructor
    · rintro rfl
      exact ⟨fun _ _ => default, rfl⟩
    · rintro ⟨-, rfl⟩
      rfl
  | cons field fields ih =>
    obtain ⟨hnew, hnodup'⟩ := List.nodup_cons.1 hnodup
    obtain ⟨⟨ok, c₁⟩, hr⟩ := exists_validateChunkField field.scalar n c
    simp only [validateChunkFields, hr]
    constructor
    · intro h
      cases ok with
      | false => simp at h
      | true =>
        obtain ⟨values, hvalues⟩ := validateChunkField_iff.1 hr
        obtain ⟨page, hpage⟩ := (ih hnodup').1 (by simpa using h)
        -- the other fields do not have the tag
        refine ⟨Function.update page field.tag fun i => field.base.symm (values i), ?_⟩
        have hrest : encodePage fields
            (Function.update page field.tag fun i => field.base.symm (values i)) =
              encodePage fields page := by
          refine encodePage_congr fun f hf => Function.update_of_ne ?_ ..
          rintro heq
          exact hnew (heq ▸ List.mem_map_of_mem hf)
        rw [encodePage, List.flatMap_cons, ← encodePage, hrest, Function.update_self]
        simpa [PersistedField.encode] using hvalues.append hpage
    · rintro ⟨page, hc⟩
      rw [encodePage, List.flatMap_cons, ← encodePage] at hc
      obtain ⟨c₂, h₁, h₂⟩ := Cursor.consumes_append_iff.1 hc
      have hvalid := validateChunkField_iff.2 ⟨fun i => field.base (page field.tag i), h₁⟩
      rw [hr] at hvalid
      obtain ⟨rfl, rfl⟩ := Prod.mk.inj (Option.some.inj hvalid)
      simpa using (ih hnodup').2 ⟨page, h₂⟩

/-- **Reading a field** of what was written gives what was written. -/
theorem readField_of_consumes {values : Fin n → Value field.tag}
    (h : c.Consumes (tiles.flatMap fun i => field.scalar.encode (field.base (values i))) c') :
    readField field tiles page c = some (true, Function.update page field.tag
      (fun i => if i ∈ tiles then values i else page field.tag i), c') := by
  induction tiles generalizing page c with
  | nil =>
    obtain rfl := Cursor.Consumes.nil_iff.1 h
    simp [readField]
  | cons a tiles ih =>
    rw [List.flatMap_cons] at h
    obtain ⟨c₁, h₁, h₂⟩ := Cursor.consumes_append_iff.1 h
    have hread := readScalar_iff.2 h₁
    simp only [readField, hread, Option.pure_def, Option.bind_eq_bind, Option.bind_some, ih h₂,
      Equiv.symm_apply_apply]
    congr 3
    simp only [FieldPage.set, Function.update_self, Function.update_idem]
    congr 1
    funext i
    by_cases hi : i = a
    · subst hi
      simp
    · simp [hi]

variable (page) in
/-- **Reading a chunk** of what was written gives the persisted fields that were written, and
keeps the other ones. -/
theorem readChunkFields_of_consumes (hnodup : (fields.map PersistedField.tag).Nodup)
    (h : c.Consumes (encodePage fields p) c') :
    readChunkFields fields page c = some (true, overlayPage fields p page, c') := by
  induction fields generalizing page c with
  | nil =>
    obtain rfl := Cursor.Consumes.nil_iff.1 h
    have hnone : overlayPage [] p page = page := by
      funext tag
      simp [overlayPage]
    rw [hnone, readChunkFields]
  | cons field fields ih =>
    obtain ⟨hnew, hnodup'⟩ := List.nodup_cons.1 hnodup
    rw [encodePage, List.flatMap_cons, ← encodePage] at h
    obtain ⟨c₁, h₁, h₂⟩ := Cursor.consumes_append_iff.1 h
    simp only [readChunkFields, readField_of_consumes h₁, Option.bind_eq_bind, Option.bind_some,
      ih _ hnodup' h₂, List.mem_finRange, if_true]
    congr 3
    funext tag
    simp only [overlayPage, List.map_cons, List.mem_cons]
    by_cases htag : tag = field.tag
    · subst htag
      rw [if_neg hnew, if_pos (Or.inl rfl), Function.update_self]
    · simp [htag]

end Chunk

end Tess
