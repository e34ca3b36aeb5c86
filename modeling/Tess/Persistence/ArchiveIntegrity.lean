import Tess.Persistence.ArchiveParse

/-!
# Damaged archives

`inspect_world_archive` accepts an archive only when its magic, version and size are those that
its length demands and its checksum is that of all other bytes.

* `crcBit_injective`, `updateCrc32_injective` : **no step of the checksum forgets anything**;
* `Framed` : what the envelope of accepted bytes looks like;
* `archive_damage_refused` : **one changed byte, bytes at the end, or bytes cut off** make an
  archive unacceptable;
* `archive_cut_accepted` : cutting out bytes of the envelope may uncover another archive.
-/

namespace Tess

open Wire

/-! ### The checksum -/

section Checksum

variable {crc crc' : BitVec 32} {l r : List UInt8} {b b' : UInt8}

/-- The bits of the generator polynomial. -/
def crcPolynomial : BitVec 32 := 0xedb88320#32

/-- A step shifts, and adds the polynomial when the bit that drops out is set. -/
theorem getLsbD_crcBit (crc : BitVec 32) {i : ℕ} (hi : i < 32) : (crcBit crc).getLsbD i =
    ((crc.getLsbD (1 + i)) ^^ (crcPolynomial.getLsbD i && crc.getLsbD 0)) := by
  have hneg : -(crc &&& 1#32) = if crc.getLsbD 0 then BitVec.allOnes 32 else 0#32 := by
    rw [BitVec.and_one_eq_setWidth_ofBool_getLsbD]
    cases crc.getLsbD 0 <;> rfl
  rw [crcBit, hneg, BitVec.getLsbD_xor, BitVec.getLsbD_and, BitVec.getLsbD_ushiftRight,
    crcPolynomial]
  cases crc.getLsbD 0 with
  | true => rw [if_pos rfl, BitVec.getLsbD_allOnes, decide_eq_true hi]
  | false => rw [if_neg (by decide), BitVec.getLsbD_zero]

/-- **One bit of the checksum** can be taken back: the top bit tells which bit dropped out. -/
theorem crcBit_injective : Function.Injective crcBit := by
  intro x y h
  have hbit (i : ℕ) (hi : i < 32) : (crcBit x).getLsbD i = (crcBit y).getLsbD i := by rw [h]
  have hlow : x.getLsbD 0 = y.getLsbD 0 := by
    have htop : crcPolynomial.getLsbD 31 = true := by decide
    have := hbit 31 (by decide)
    rw [getLsbD_crcBit x (by decide), getLsbD_crcBit y (by decide), htop,
      BitVec.getLsbD_of_ge x _ (by decide), BitVec.getLsbD_of_ge y _ (by decide)] at this
    simpa using this
  refine BitVec.eq_of_getLsbD_eq fun i hi => ?_
  cases i with
  | zero => exact hlow
  | succ i =>
    have := hbit i (by omega)
    rw [getLsbD_crcBit x (by omega), getLsbD_crcBit y (by omega), hlow] at this
    rw [Nat.add_comm i 1]
    exact Bool.xor_left_inj.1 this

theorem foldl_crcBit_injective (n : ℕ) :
    Function.Injective fun crc => (List.range n).foldl (fun crc _ => crcBit crc) crc := by
  induction n with
  | zero => exact fun _ _ h => h
  | succ n ih =>
    intro x y h
    simp only [List.range_succ, List.foldl_append, List.foldl_cons, List.foldl_nil] at h
    exact ih (crcBit_injective h)

theorem updateCrc32_append (crc : BitVec 32) (l r : List UInt8) :
    updateCrc32 crc (l ++ r) = updateCrc32 (updateCrc32 crc l) r := List.foldl_append

theorem updateCrc32_cons (crc : BitVec 32) (b : UInt8) (l : List UInt8) :
    updateCrc32 crc (b :: l) = updateCrc32 (updateCrc32 crc [b]) l := rfl

/-- The checksum after a byte is eight steps from the checksum that the byte was added to. -/
theorem updateCrc32_singleton (crc : BitVec 32) (b : UInt8) : updateCrc32 crc [b] =
    (List.range 8).foldl (fun crc _ => crcBit crc) (crc ^^^ b.toBitVec.setWidth 32) := rfl

theorem updateCrc32_byte_left (h : updateCrc32 crc [b] = updateCrc32 crc' [b]) : crc = crc' := by
  rw [updateCrc32_singleton, updateCrc32_singleton] at h
  exact (BitVec.xor_left_inj _).1 (foldl_crcBit_injective 8 h)

/-- **A checksum that is continued** over the same bytes was the same before. -/
theorem updateCrc32_injective (l : List UInt8) :
    Function.Injective fun crc => updateCrc32 crc l := by
  induction l with
  | nil => exact fun _ _ h => h
  | cons b l ih =>
    intro x y h
    dsimp only at h
    rw [updateCrc32_cons, updateCrc32_cons y] at h
    exact updateCrc32_byte_left (ih h)

/-- **A byte** can be read off the checksum after it. -/
theorem updateCrc32_byte (h : updateCrc32 crc [b] = updateCrc32 crc [b']) : b = b' := by
  rw [updateCrc32_singleton, updateCrc32_singleton] at h
  have hword := (BitVec.xor_right_inj _).1 (foldl_crcBit_injective 8 h)
  have hnat := congrArg BitVec.toNat hword
  have hb := b.toBitVec.isLt
  have hb' := b'.toBitVec.isLt
  rw [BitVec.toNat_setWidth, BitVec.toNat_setWidth, Nat.mod_eq_of_lt (by omega),
    Nat.mod_eq_of_lt (by omega)] at hnat
  exact UInt8.toBitVec_inj.1 (BitVec.eq_of_toNat_eq hnat)

/-- One changed byte changes the checksum. -/
theorem updateCrc32_set (h : updateCrc32 crc (l ++ b :: r) = updateCrc32 crc (l ++ b' :: r)) :
    b = b' := by
  rw [updateCrc32_append, updateCrc32_append crc, updateCrc32_cons,
    updateCrc32_cons _ b'] at h
  exact updateCrc32_byte (updateCrc32_injective r h)

end Checksum

/-! ### Inspection -/

section Inspection

variable {bytes bytes' : List UInt8}

/-- `inspect_world_archive`; nothing when a byte outside the span was read. -/
def inspectWorldArchive (bytes : List UInt8) : Option WorldArchiveResult :=
  match parseWorldArchive bytes with
  | .outside => none
  | .failed result => some result
  | .ok parsed => some parsed.result

/-- `inspect_world_archive` returns `Ok`. -/
def InspectedOk (bytes : List UInt8) : Prop :=
  ∃ result, inspectWorldArchive bytes = some result ∧ result.status = .ok

/-- **Inspection accepts** the bytes of canonical contents and no others. -/
theorem inspectedOk_iff : InspectedOk bytes ↔
    ∃ A : ArchiveContent, A.Canonical ∧ bytes = A.encode := by
  constructor
  · rintro ⟨result, hresult, hok⟩
    have hwithin := within_parseWorldArchive bytes
    unfold inspectWorldArchive at hresult
    cases hp : parseWorldArchive bytes with
    | outside => rw [hp] at hresult; cases hresult
    | failed r =>
      rw [hp] at hresult hwithin
      obtain rfl := Option.some.inj hresult
      exact absurd hok hwithin
    | ok p =>
      obtain ⟨A, hA, hbytes, -⟩ := parseWorldArchive_iff.1 hp
      exact ⟨A, hA, hbytes⟩
  · rintro ⟨A, hA, hbytes⟩
    refine ⟨A.parsed.result, ?_, rfl⟩
    rw [inspectWorldArchive, parseWorldArchive_iff.2 ⟨A, hA, hbytes, rfl⟩]

/-- **The envelope of accepted bytes**: all of it that their length and the other bytes
determine. -/
structure Framed (bytes : List UInt8) : Prop where
  /-- There is room for the header. -/
  header_le : worldArchiveHeaderSize ≤ bytes.length
  /-- The length is representable. -/
  length_le : bytes.length ≤ sizeMax
  /-- Magic, version and body size. -/
  front : bytes.take worldArchiveChecksumOffset = worldArchiveMagic ++
    toLE 4 worldArchiveFormatVersion ++ toLE 8 (bytes.length - worldArchiveHeaderSize)
  /-- The checksum. -/
  slot : (bytes.drop worldArchiveChecksumOffset).take worldArchiveChecksumSize =
    toLE 4 (archiveCrc32 bytes)

theorem InspectedOk.framed (h : InspectedOk bytes) : Framed bytes := by
  obtain ⟨A, hA, rfl⟩ := inspectedOk_iff.1 h
  have hlen := A.length_encode
  have hfront := A.length_front
  refine ⟨by omega, hA.size, ?_, ?_⟩
  · rw [ArchiveContent.encode, List.append_assoc, ← hfront, List.take_left, ← List.append_assoc,
      ← ArchiveContent.encode, hlen, Nat.add_sub_cancel_left]
    rfl
  · have hslot : (toLE 4 A.checksum).length = worldArchiveChecksumSize := length_toLE _ _
    rw [A.archiveCrc32_encode, ArchiveContent.encode, List.append_assoc, ← hfront, List.drop_left,
      ← hslot, List.take_left]

/-- **The first bytes tell the length.** -/
theorem Framed.length_eq (h : Framed bytes) (h' : Framed bytes')
    (hfront : bytes.take worldArchiveChecksumOffset = bytes'.take worldArchiveChecksumOffset) :
    bytes.length = bytes'.length := by
  rw [h.front, h'.front] at hfront
  have hsize := congrArg ofLE (List.append_cancel_left hfront)
  have hlt : ∀ n ≤ sizeMax, n - worldArchiveHeaderSize < 256 ^ 8 := fun n hn => by
    have : sizeMax < 256 ^ 8 := by decide
    omega
  rw [ofLE_toLE_of_lt (hlt _ h.length_le), ofLE_toLE_of_lt (hlt _ h'.length_le)] at hsize
  have h1 := h.header_le
  have h2 := h'.header_le
  omega

/-- The checksum does not see its own slot. -/
theorem archiveCrc32_eq (h : worldArchiveHeaderSize ≤ bytes.length) : archiveCrc32 bytes =
    (~~~ (updateCrc32 0xffffffff#32 (bytes.take worldArchiveChecksumOffset ++
      bytes.drop (worldArchiveChecksumOffset + worldArchiveChecksumSize)))).toNat := by
  have hlong : ¬ bytes.length < worldArchiveChecksumOffset + worldArchiveChecksumSize := by
    have : worldArchiveChecksumOffset + worldArchiveChecksumSize < worldArchiveHeaderSize := by
      decide
    omega
  rw [archiveCrc32, if_neg hlong, updateCrc32_append]

/-- Bytes behind the slot that changed one by one. -/
theorem Framed.drop_eq (h : Framed bytes) (h' : Framed bytes')
    (hfront : bytes.take worldArchiveChecksumOffset = bytes'.take worldArchiveChecksumOffset)
    (hslot : (bytes.drop worldArchiveChecksumOffset).take worldArchiveChecksumSize =
      (bytes'.drop worldArchiveChecksumOffset).take worldArchiveChecksumSize) {l r : List UInt8}
    {b b' : UInt8}
    (hb : bytes.drop (worldArchiveChecksumOffset + worldArchiveChecksumSize) = l ++ b :: r)
    (hb' : bytes'.drop (worldArchiveChecksumOffset + worldArchiveChecksumSize) = l ++ b' :: r) :
    b = b' := by
  rw [h.slot, h'.slot] at hslot
  have hcrc := congrArg ofLE hslot
  have hlt (w : BitVec 32) : w.toNat < 256 ^ 4 := w.isLt
  rw [archiveCrc32_eq h.header_le, archiveCrc32_eq h'.header_le, ofLE_toLE_of_lt (hlt _),
    ofLE_toLE_of_lt (hlt _), hfront, hb, hb', ← List.append_assoc, ← List.append_assoc] at hcrc
  exact updateCrc32_set (BitVec.not_inj.1 (BitVec.eq_of_toNat_eq hcrc))

/-- **One changed byte** is noticed wherever it stands. -/
theorem Framed.eq_of_set (h : Framed bytes) {i : ℕ} {v : UInt8} (hi : i < bytes.length)
    (h' : Framed (bytes.set i v)) : bytes[i] = v := by
  have hlen : (bytes.set i v).length = bytes.length := List.length_set
  have hget : (bytes.set i v)[i]? = some v := List.getElem?_set_self hi
  have hfront : bytes.take worldArchiveChecksumOffset =
      (bytes.set i v).take worldArchiveChecksumOffset := by
    rw [h.front, h'.front, hlen]
  by_cases h20 : i < worldArchiveChecksumOffset
  · -- the length determines the first bytes
    have hi' := congrArg (·[i]?) hfront
    simp only [List.getElem?_take_of_lt h20, hget] at hi'
    rwa [List.getElem?_eq_getElem hi, Option.some.injEq] at hi'
  have hoff : worldArchiveChecksumOffset ≤ i := not_lt.1 h20
  obtain ⟨j, rfl⟩ := Nat.exists_eq_add_of_le hoff
  by_cases h24 : j < worldArchiveChecksumSize
  · -- the other bytes determine the slot
    have hrest : bytes.drop (worldArchiveChecksumOffset + worldArchiveChecksumSize) =
        (bytes.set (worldArchiveChecksumOffset + j) v).drop
          (worldArchiveChecksumOffset + worldArchiveChecksumSize) := by
      rw [List.drop_set_of_lt (by omega)]
    have hslot : (bytes.drop worldArchiveChecksumOffset).take worldArchiveChecksumSize =
        ((bytes.set (worldArchiveChecksumOffset + j) v).drop worldArchiveChecksumOffset).take
          worldArchiveChecksumSize := by
      rw [h.slot, h'.slot, archiveCrc32_eq h.header_le, archiveCrc32_eq h'.header_le, hfront,
        hrest]
    have hj := congrArg (·[j]?) hslot
    simp only [List.getElem?_take_of_lt h24, List.getElem?_drop, hget] at hj
    rwa [List.getElem?_eq_getElem hi, Option.some.injEq] at hj
  · -- the checksum determines the byte
    obtain ⟨k, rfl⟩ := Nat.exists_eq_add_of_le (not_lt.1 h24)
    set rest := bytes.drop (worldArchiveChecksumOffset + worldArchiveChecksumSize) with hrest
    have hk : k < rest.length := by
      rw [hrest, List.length_drop]
      omega
    have hdrop : (bytes.set (worldArchiveChecksumOffset + (worldArchiveChecksumSize + k)) v).drop
        (worldArchiveChecksumOffset + worldArchiveChecksumSize) = rest.set k v := by
      rw [List.drop_set, if_neg (by omega)]
      congr 1
      omega
    have hslot : (bytes.drop worldArchiveChecksumOffset).take worldArchiveChecksumSize =
        ((bytes.set (worldArchiveChecksumOffset + (worldArchiveChecksumSize + k)) v).drop
          worldArchiveChecksumOffset).take worldArchiveChecksumSize := by
      rw [List.drop_set, if_neg (by omega), Nat.add_sub_cancel_left,
        List.take_set_of_le (by omega)]
    have hsplit : rest = rest.take k ++ rest[k] :: rest.drop (k + 1) := by
      rw [← List.drop_eq_getElem_cons hk, List.take_append_drop]
    have hb := h.drop_eq h' hfront hslot hsplit
      (hdrop.trans (List.set_eq_take_append_cons_drop.trans (if_pos hk)))
    have hgetk : rest[k] =
        bytes[worldArchiveChecksumOffset + (worldArchiveChecksumSize + k)] := by
      simp only [hrest, List.getElem_drop, Nat.add_assoc]
    rw [← hgetk, hb]

/-- Cut a block of bytes out. -/
def cutBytes (bytes : List UInt8) (i n : ℕ) : List UInt8 := bytes.take i ++ bytes.drop (i + n)

theorem length_cutBytes {i n : ℕ} (h : i + n ≤ bytes.length) :
    (cutBytes bytes i n).length + n = bytes.length := by
  rw [cutBytes, List.length_append, List.length_take, List.length_drop]
  omega

/-- **A damaged archive is refused**: one with a changed byte, with bytes added at the end, and
one from which bytes are cut off at the end or cut out behind the body size. -/
theorem archive_damage_refused (bytes : List UInt8) (hok : InspectedOk bytes) :
    (∀ (i : ℕ) (v : UInt8) (hi : i < bytes.length), v ≠ bytes[i] → ¬ InspectedOk (bytes.set i v)) ∧
      (∀ extra, extra ≠ [] → ¬ InspectedOk (bytes ++ extra)) ∧
      ∀ i n, 0 < n → i + n ≤ bytes.length →
        (i + n = bytes.length ∨ worldArchiveChecksumOffset ≤ i) →
          ¬ InspectedOk (cutBytes bytes i n) := by
  have hframed := hok.framed
  have hheader := hframed.header_le
  have h20 : worldArchiveChecksumOffset ≤ worldArchiveHeaderSize := by decide
  refine ⟨fun i v hi hv h => hv (hframed.eq_of_set hi h.framed).symm, fun extra hne h => ?_,
    fun i n hn hin hwhere h => ?_⟩
  · have hlen := hframed.length_eq h.framed (by rw [List.take_append_of_le_length (by omega)])
    have hpos : 0 < extra.length := List.length_pos_iff.2 hne
    rw [List.length_append] at hlen
    omega
  · have hcut := length_cutBytes hin
    have hshort := h.framed.header_le
    have hi : worldArchiveChecksumOffset ≤ i := by
      rcases hwhere with hend | hi
      · omega
      · exact hi
    have hlen := hframed.length_eq h.framed (by
      rw [cutBytes, List.take_append_of_le_length (by rw [List.length_take]; omega),
        List.take_take, Nat.min_eq_left hi])
    omega

end Inspection

/-! ### An archive within an archive -/

section Nested

/-- The header of a sparse archive of a row of tiles in one chunk. -/
def rowInfo (tiles fields chunks : ℕ) : WorldArchiveInfo where
  formatVersion := worldArchiveFormatVersion
  size := ⟨tiles, 1, 1⟩
  chunk := ⟨tiles, 1, 1⟩
  latticeIdentity := orthogonalIdentity
  latticeVersion := 1
  keyLayoutVersion := worldArchiveKeyLayoutVersion
  schemaId := 0
  schemaVersion := 0
  libraryMajor := 0
  libraryMinor := 0
  libraryPatch := 0
  residency := sparseResidentCode
  fieldCount := fields
  chunkCount := chunks

/-- An archive of no chunks. -/
def innerArchive : ArchiveContent := ⟨rowInfo 1 0 0, [], []⟩

/-- What stands behind the format version of the inner archive. -/
def innerBytes : List UInt8 :=
  toLE 8 innerArchive.body.length ++ toLE 4 innerArchive.checksum ++ innerArchive.back

/-- An archive of one chunk of bytes, whose last bytes are those of the inner archive. -/
def outerArchive : ArchiveContent :=
  ⟨rowInfo 128 1 1, [⟨0, 0, ArchiveScalarKind.unsigned.code, 1⟩],
    [⟨0, 0, 0, List.replicate 19 0 ++ innerBytes⟩]⟩

theorem length_innerBytes : innerBytes.length = 109 := by
  simp only [innerBytes, List.length_append, length_toLE, ArchiveContent.length_back]
  rfl

theorem canonical_innerArchive : innerArchive.Canonical where
  format := rfl
  info_fits := by unfold FitWidths; decide
  header := by decide
  field_count := rfl
  field_fits _ h := absurd h List.not_mem_nil
  field_valid _ h := absurd h List.not_mem_nil
  field_ids := .nil
  record_size := by decide
  size := by rw [ArchiveContent.length_encode]; decide
  logical := by decide
  dense h := absurd h (by decide)
  chunk_count := rfl
  chunk_fits _ h := absurd h List.not_mem_nil
  chunk_lt _ h := absurd h List.not_mem_nil
  sorted := .nil

theorem canonical_outerArchive : outerArchive.Canonical where
  format := rfl
  info_fits := by unfold FitWidths; decide
  header := by decide
  field_count := rfl
  field_fits field h := by
    rw [List.mem_singleton.1 h]
    unfold FitWidths
    decide
  field_valid field h := by
    rw [List.mem_singleton.1 h]
    decide
  field_ids := List.nodup_singleton _
  record_size := by decide
  size := by
    rw [ArchiveContent.length_encode, ArchiveContent.body, List.length_append]
    simp only [outerArchive, ArchiveContent.table, List.flatMap_cons, List.flatMap_nil,
      List.append_nil, ArchiveChunk.encode, List.length_append, List.length_replicate,
      length_innerBytes]
    decide
  logical := by decide
  dense h := absurd h (by decide)
  chunk_count := rfl
  chunk_fits chunk h := by
    rw [List.mem_singleton.1 h]
    refine ⟨by unfold FitWidths; decide, ?_⟩
    rw [List.length_append, List.length_replicate, length_innerBytes]
    rfl
  chunk_lt chunk h := by
    rw [List.mem_singleton.1 h]
    decide
  sorted := List.pairwise_singleton _ _

theorem archive_damage_refused_inner :
    (∀ (i : ℕ) (v : UInt8) (hi : i < innerArchive.encode.length), v ≠ innerArchive.encode[i] →
      ¬ InspectedOk (innerArchive.encode.set i v)) ∧
      (∀ extra, extra ≠ [] → ¬ InspectedOk (innerArchive.encode ++ extra)) ∧
      ∀ i n, 0 < n → i + n ≤ innerArchive.encode.length →
        (i + n = innerArchive.encode.length ∨ worldArchiveChecksumOffset ≤ i) →
          ¬ InspectedOk (cutBytes innerArchive.encode i n) :=
  archive_damage_refused _ (inspectedOk_iff.2 ⟨innerArchive, canonical_innerArchive, rfl⟩)

/-- **Cutting bytes out of the envelope** may leave an archive: the inner one, once all that
stands between the format version and its own body size is gone. -/
theorem archive_cut_accepted : ¬ ∀ bytes, InspectedOk bytes → ∀ i n, 0 < n →
    i + n ≤ bytes.length → ¬ InspectedOk (cutBytes bytes i n) := by
  intro h
  have hsplit : ∃ middle, outerArchive.encode =
      worldArchiveMagic ++ toLE 4 worldArchiveFormatVersion ++ middle ++ innerBytes := by
    refine ⟨toLE 8 outerArchive.body.length ++ toLE 4 outerArchive.checksum ++
      unsigneds infoWidths outerArchive.info.values ++ outerArchive.table ++
      unsigneds chunkWidths [0, 0, 0] ++ List.replicate 19 0, ?_⟩
    rw [ArchiveContent.encode, ArchiveContent.front, ArchiveContent.back]
    generalize toLE 8 outerArchive.body.length = size
    generalize toLE 4 outerArchive.checksum = slot
    simp only [ArchiveContent.body, outerArchive, List.flatMap_cons, List.flatMap_nil,
      ArchiveChunk.encode, List.append_assoc, List.append_nil]
  obtain ⟨middle, hmiddle⟩ := hsplit
  have hlen := congrArg List.length hmiddle
  have hhead : (worldArchiveMagic ++ toLE 4 worldArchiveFormatVersion).length = 12 := by
    rw [List.length_append, length_toLE]
    rfl
  have hcut : cutBytes outerArchive.encode 12 middle.length = innerArchive.encode := by
    rw [hmiddle, cutBytes, List.append_assoc, ← hhead, List.take_left, ← List.length_append,
      ← List.append_assoc, List.drop_left]
    simp only [ArchiveContent.encode, ArchiveContent.front, innerBytes, List.append_assoc]
  have hmid : 0 < middle.length := by
    rw [ArchiveContent.length_encode, List.length_append, List.length_append, hhead,
      length_innerBytes, ArchiveContent.body, ArchiveContent.table] at hlen
    simp only [outerArchive, List.length_append, List.flatMap_cons, List.flatMap_nil,
      List.append_nil, ArchiveChunk.encode, List.length_replicate, length_innerBytes,
      worldArchiveHeaderSize] at hlen
    omega
  refine h outerArchive.encode (inspectedOk_iff.2 ⟨outerArchive, canonical_outerArchive, rfl⟩) 12
    middle.length hmid ?_ ?_
  · rw [hlen, List.length_append, List.length_append, hhead]
    omega
  · rw [hcut]
    exact inspectedOk_iff.2 ⟨innerArchive, canonical_innerArchive, rfl⟩

end Nested

end Tess
