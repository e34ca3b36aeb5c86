import Tess.Persistence.ArchiveFormat

/-!
# What the parser accepts

* `ArchiveContent` : what an archive says, with `ArchiveContent.encode` its bytes;
* `ArchiveContent.Canonical` : the contents that have an archive;
* `parseWorldArchive_iff` : **the parser accepts exactly the bytes of canonical contents**;
* `within_parseWorldArchive` : **it never reads outside the span**.

Every stage of the parser has one lemma that says when it returns and with what.
-/

namespace Tess

open Wire

/-! ### Contents -/

/-- The bytes of a descriptor. -/
def ArchiveFieldDesc.encode (field : ArchiveFieldDesc) : List UInt8 :=
  unsigneds descWidths [field.id, field.version, field.kind, field.width]

/-- The record of a chunk, whose scalars are bytes. -/
structure ArchiveChunk where
  /-- Key of the chunk. -/
  key : ℕ
  /-- Active mask. -/
  active : ℕ
  /-- Entity count. -/
  entities : ℕ
  /-- Scalars of the fields. -/
  fields : List UInt8

/-- The bytes of a record. -/
def ArchiveChunk.encode (chunk : ArchiveChunk) : List UInt8 :=
  unsigneds chunkWidths [chunk.key, chunk.active, chunk.entities] ++ chunk.fields

/-- What an archive says. -/
structure ArchiveContent where
  /-- Header. -/
  info : WorldArchiveInfo
  /-- Descriptors. -/
  fields : List ArchiveFieldDesc
  /-- Chunk records. -/
  chunks : List ArchiveChunk

/-- The header fields behind the checksum. -/
def WorldArchiveInfo.values (info : WorldArchiveInfo) : List ℕ :=
  [info.size.x, info.size.y, info.size.z, info.chunk.x, info.chunk.y, info.chunk.z,
    info.latticeIdentity, info.latticeVersion, info.keyLayoutVersion, info.schemaId,
    info.schemaVersion, info.libraryMajor, info.libraryMinor, info.libraryPatch, info.residency,
    info.fieldCount, info.chunkCount]

/-- Number of chunks of the shape in a header. -/
def WorldArchiveInfo.logicalChunks (info : WorldArchiveInfo) : ℕ :=
  info.size.x / info.chunk.x * (info.size.y / info.chunk.y) * (info.size.z / info.chunk.z)

/-- Number of tiles of a chunk of the shape in a header. -/
def WorldArchiveInfo.localTiles (info : WorldArchiveInfo) : ℕ :=
  info.chunk.x * info.chunk.y * info.chunk.z

namespace ArchiveContent

variable (A : ArchiveContent)

/-- The bytes of the descriptors. -/
def table : List UInt8 := A.fields.flatMap ArchiveFieldDesc.encode

/-- The bytes behind the header. -/
def body : List UInt8 := A.table ++ A.chunks.flatMap ArchiveChunk.encode

/-- The bytes before the checksum. -/
def front : List UInt8 :=
  worldArchiveMagic ++ toLE 4 worldArchiveFormatVersion ++ toLE 8 A.body.length

/-- The bytes behind the checksum. -/
def back : List UInt8 := unsigneds infoWidths A.info.values ++ A.body

/-- The checksum. -/
def checksum : ℕ := (~~~ (updateCrc32 (updateCrc32 0xffffffff#32 A.front) A.back)).toNat

/-- The bytes of an archive. -/
def encode : List UInt8 := A.front ++ toLE 4 A.checksum ++ A.back

/-- Bytes of the fields of a chunk. -/
def fieldBytes : ℕ := A.info.localTiles * (A.fields.map ArchiveFieldDesc.width).sum

/-- What the parser makes of the archive. -/
def parsed : ParsedArchive where
  result := { status := .ok, info := A.info, bytesProcessed := A.encode.length }
  body := A.body
  fields := A.fields
  chunksOffset := A.table.length
  chunkRecordSize := worldArchiveChunkPrefixSize + A.fieldBytes

/-- **The contents that have an archive.** -/
structure Canonical : Prop where
  /-- The format is the one of the parser. -/
  format : A.info.formatVersion = worldArchiveFormatVersion
  /-- The header fits its fields. -/
  info_fits : FitWidths infoWidths A.info.values
  /-- The header is valid. -/
  header : headerValid A.info
  /-- The header counts the fields. -/
  field_count : A.fields.length = A.info.fieldCount
  /-- The descriptors fit. -/
  field_fits : ∀ field ∈ A.fields, FitWidths descWidths [field.id, field.version, field.kind,
    field.width]
  /-- The descriptors are valid. -/
  field_valid : ∀ field ∈ A.fields, field.Valid
  /-- No identifier occurs twice. -/
  field_ids : (A.fields.map ArchiveFieldDesc.id).Nodup
  /-- The size of a record is representable. -/
  record_size : A.info.localTiles ≤ sizeMax ∧
    worldArchiveChunkPrefixSize + A.fieldBytes ≤ sizeMax ∧
    (A.fields.map ArchiveFieldDesc.width).sum ≤ sizeMax
  /-- The size of the archive is representable. -/
  size : A.encode.length ≤ sizeMax
  /-- The number of chunks is representable. -/
  logical : A.info.logicalChunks ≤ sizeMax
  /-- A dense archive has every chunk. -/
  dense : A.info.residency = alwaysResidentCode → A.info.chunkCount = A.info.logicalChunks
  /-- The header counts the chunks. -/
  chunk_count : A.chunks.length = A.info.chunkCount
  /-- The records fit. -/
  chunk_fits : ∀ chunk ∈ A.chunks, FitWidths chunkWidths [chunk.key, chunk.active, chunk.entities] ∧
    chunk.fields.length = A.fieldBytes
  /-- The keys belong to the shape. -/
  chunk_lt : ∀ chunk ∈ A.chunks, chunk.key < A.info.logicalChunks
  /-- The records stand in the order of their keys. -/
  sorted : (A.chunks.map ArchiveChunk.key).Pairwise (· < ·)

end ArchiveContent

section Sizes

variable (A : ArchiveContent)

theorem infoWidths_length : infoWidths.length = A.info.values.length := rfl

@[simp] theorem ArchiveContent.length_front : A.front.length = worldArchiveChecksumOffset := by
  simp [ArchiveContent.front, worldArchiveMagic, worldArchiveChecksumOffset]

@[simp] theorem ArchiveContent.length_back : A.back.length = 97 + A.body.length := by
  rw [ArchiveContent.back, List.length_append, length_unsigneds (infoWidths_length A)]
  rfl

theorem ArchiveContent.length_encode :
    A.encode.length = worldArchiveHeaderSize + A.body.length := by
  simp only [ArchiveContent.encode, List.length_append, length_front, length_back, length_toLE,
    worldArchiveChecksumOffset, worldArchiveHeaderSize]
  omega

theorem ArchiveContent.checksum_lt : A.checksum < 256 ^ 4 := (~~~ _ : BitVec 32).isLt

/-- The checksum of some bytes leaves its own slot out. -/
theorem archiveCrc32_append {front slot back : List UInt8} (h : front.length = 20)
    (hslot : slot.length = 4) : archiveCrc32 (front ++ slot ++ back) =
      (~~~ (updateCrc32 (updateCrc32 0xffffffff#32 front) back)).toNat := by
  have hshort : ¬ (front ++ slot ++ back).length < 24 := by
    simp only [List.length_append]
    omega
  have htake : (front ++ slot ++ back).take 20 = front := by
    rw [List.append_assoc, ← h, List.take_left]
  have hdrop : (front ++ slot ++ back).drop 24 = back := by
    have hlen : 24 = (front ++ slot).length := by rw [List.length_append, h, hslot]
    rw [hlen, List.drop_left]
  simp only [archiveCrc32, worldArchiveChecksumOffset, worldArchiveChecksumSize, if_neg hshort,
    htake, hdrop]

theorem ArchiveContent.archiveCrc32_encode : archiveCrc32 A.encode = A.checksum :=
  archiveCrc32_append A.length_front (length_toLE _ _)

end Sizes

/-! ### Checked arithmetic -/

section Checked

variable {lhs rhs r : ℕ}

theorem checkedAdd_iff (h : rhs ≤ sizeMax) :
    checkedAdd lhs rhs = some r ↔ r = lhs + rhs ∧ r ≤ sizeMax := by
  unfold checkedAdd
  split_ifs with hgt
  · constructor
    · intro heq
      cases heq
    · rintro ⟨rfl, hle⟩
      omega
  · rw [Option.some.injEq]
    constructor
    · rintro rfl
      exact ⟨rfl, by omega⟩
    · rintro ⟨rfl, -⟩
      rfl

theorem checkedMultiply_iff :
    checkedMultiply lhs rhs = some r ↔ r = lhs * rhs ∧ r ≤ sizeMax := by
  unfold checkedMultiply
  split_ifs with hgt
  · constructor
    · intro heq
      cases heq
    · rintro ⟨rfl, hle⟩
      have hlt := (Nat.div_lt_iff_lt_mul (Nat.pos_of_ne_zero hgt.1)).1 hgt.2
      rw [Nat.mul_comm] at hlt
      omega
  · rw [Option.some.injEq]
    constructor
    · rintro rfl
      refine ⟨rfl, ?_⟩
      rcases Nat.eq_zero_or_pos lhs with rfl | hpos
      · simp
      · have hle : rhs ≤ sizeMax / lhs := not_lt.1 fun hlt => hgt ⟨hpos.ne', hlt⟩
        have := (Nat.le_div_iff_mul_le hpos).1 hle
        rwa [Nat.mul_comm]
    · rintro ⟨rfl, -⟩
      rfl

end Checked

/-! ### The stages -/

section Stages

variable {bytes body : List UInt8} {info : WorldArchiveInfo} {c c' : ArchiveCursor}
  {bodySize checksum : ℕ}

/-- The header that its own values make. -/
theorem ofHeader_values (h : info.formatVersion = worldArchiveFormatVersion) :
    .ofHeader worldArchiveFormatVersion (bodySize :: checksum :: info.values) = info := by
  rw [← h]
  rfl

/-- Values that fit the header are a body size, a checksum and a header. -/
theorem exists_header {vs : List ℕ} (h : FitWidths headerWidths vs) : ∃ bodySize checksum info,
    info.formatVersion = worldArchiveFormatVersion ∧
      vs = bodySize :: checksum :: WorldArchiveInfo.values info := by
  have hlen := h.length_eq
  match vs, hlen with
  | [b, k, a1, a2, a3, a4, a5, a6, a7, a8, a9, a10, a11, a12, a13, a14, a15, a16, a17], _ =>
    exact ⟨b, k, ⟨worldArchiveFormatVersion, ⟨a1, a2, a3⟩, ⟨a4, a5, a6⟩, a7, a8, a9, a10, a11,
      a12, a13, a14, a15, a16, a17⟩, rfl, rfl⟩

/-- **The header** is read from the bytes that its fields give. -/
theorem parseHeader_iff : parseHeader bytes = .ok (bodySize, checksum, info) ↔
    info.formatVersion = worldArchiveFormatVersion ∧
      FitWidths headerWidths (bodySize :: checksum :: info.values) ∧
      ∃ rest, bytes = worldArchiveMagic ++ toLE 4 worldArchiveFormatVersion ++
        unsigneds headerWidths (bodySize :: checksum :: info.values) ++ rest := by
  simp only [parseHeader, Outcome.bind_eq_ok, Outcome.failWhen_eq_ok, exists_const, Outcome.read_eq_ok,
    Outcome.require_eq_ok, Prod.exists, Outcome.pure_eq, Outcome.ok.injEq, Prod.mk.injEq]
  constructor
  · rintro ⟨hlen, magic, hmagic, hne, rest, hrest, v?, c₁, hv, version, rfl, hversion, hlong,
      vs, all, c₂, hread, hall, rfl, rfl, rfl⟩
    obtain rfl : all = true := by simpa using hall
    obtain ⟨hfits, hc₂⟩ := readUnsigneds_iff.1 hread
    obtain ⟨-, hc₁⟩ := readUnsignedLE_iff.1 hv
    obtain rfl : version = worldArchiveFormatVersion := not_not.1 hversion
    obtain ⟨b, k, i, hi, rfl⟩ := exists_header hfits
    have hinfo : WorldArchiveInfo.ofHeader worldArchiveFormatVersion (b :: k :: i.values) = i :=
      ofHeader_values hi
    rw [hinfo]
    refine ⟨hi, hfits, c₂.rest, ?_⟩
    rw [firstBytes, if_pos (not_lt.1 hlen)] at hmagic
    rw [subspan, if_pos (not_lt.1 hlen)] at hrest
    have htake := Option.some.inj hmagic
    have hdrop := Option.some.inj hrest
    calc bytes = bytes.take worldArchiveMagic.length ++ bytes.drop worldArchiveMagic.length :=
          (List.take_append_drop ..).symm
      _ = worldArchiveMagic ++ rest := by rw [htake, hdrop, not_not.1 hne]
      _ = _ := by
          have h₁ := hc₁.rest
          rw [Cursor.rest_start] at h₁
          rw [h₁, hc₂.rest]
          simp only [List.append_assoc]
          rfl
  · rintro ⟨hformat, hfits, rest, rfl⟩
    have hlen : (unsigneds headerWidths (bodySize :: checksum :: info.values)).length = 109 := by
      rw [length_unsigneds hfits.length_eq]
      rfl
    have hstart : (Cursor.start (toLE 4 worldArchiveFormatVersion ++
        unsigneds headerWidths (bodySize :: checksum :: info.values) ++ rest)).rest =
        toLE 4 worldArchiveFormatVersion ++
          (unsigneds headerWidths (bodySize :: checksum :: info.values) ++ rest) := by
      rw [Cursor.rest_start, List.append_assoc]
    obtain ⟨c₁, hc₁, hr₁⟩ := Cursor.exists_consumes hstart
    obtain ⟨c₂, hc₂, -⟩ := Cursor.exists_consumes hr₁
    refine ⟨?_, worldArchiveMagic, ?_, by simp, toLE 4 worldArchiveFormatVersion ++
        unsigneds headerWidths (bodySize :: checksum :: info.values) ++ rest, ?_,
        some worldArchiveFormatVersion, c₁, readUnsignedLE_iff.2 ⟨by decide, hc₁⟩,
        worldArchiveFormatVersion, rfl, by simp, ?_, _, true, c₂,
        readUnsigneds_iff.2 ⟨hfits, hc₂⟩, by simp, rfl, rfl, ofHeader_values hformat⟩
    · simp only [List.length_append]
      omega
    · rw [firstBytes, if_pos (by simp only [List.length_append]; omega), List.append_assoc,
        List.append_assoc, List.take_left]
    · rw [subspan, if_pos (by simp only [List.length_append]; omega), List.append_assoc,
        List.append_assoc, List.drop_left, List.append_assoc]
    · simp only [List.length_append, hlen, length_toLE, worldArchiveHeaderSize]
      have : worldArchiveMagic.length = 8 := rfl
      omega

/-- **The envelope** has the size and the checksum that the header says. -/
theorem parseEnvelope_iff : parseEnvelope bytes bodySize checksum info = .ok body ↔
    bytes.length = worldArchiveHeaderSize + bodySize ∧ bytes.length ≤ sizeMax ∧
      archiveCrc32 bytes = checksum ∧ headerValid info ∧
      body = bytes.drop worldArchiveHeaderSize := by
  simp only [parseEnvelope, Outcome.bind_eq_ok, Outcome.failWhen_eq_ok, exists_const, Outcome.read_eq_ok,
    Outcome.require_eq_ok, Outcome.pure_eq, Outcome.ok.injEq, not_not, not_lt]
  constructor
  · rintro ⟨hsize, expected, hadd, -, hlen, b, hbody, hcrc, hvalid, rfl⟩
    obtain ⟨rfl, hle⟩ := (checkedAdd_iff hsize).1 hadd
    rw [subspan, if_pos (by omega), Option.some.injEq] at hbody
    exact ⟨hlen, hlen ▸ hle, hcrc, hvalid, hbody.symm⟩
  · rintro ⟨hlen, hle, hcrc, hvalid, rfl⟩
    have hsize : bodySize ≤ sizeMax := by omega
    exact ⟨hsize, _, (checkedAdd_iff hsize).2 ⟨rfl, hlen ▸ hle⟩, hlen.ge, hlen, _,
      by rw [subspan, if_pos (by omega)], hcrc, hvalid, rfl⟩

/-- A descriptor that four values make. -/
theorem exists_desc {vs : List ℕ} (h : FitWidths descWidths vs) :
    ∃ field : ArchiveFieldDesc, vs = [field.id, field.version, field.kind, field.width] := by
  have hlen := h.length_eq
  match vs, hlen with
  | [a, b, c, d], _ => exact ⟨⟨a, b, c, d⟩, rfl⟩

theorem ArchiveFieldDesc.Valid.width_le {field : ArchiveFieldDesc} (h : field.Valid) :
    field.width ≤ sizeMax := by
  obtain ⟨h1 | h2 | h4 | h8, -⟩ := h <;> simp [*, sizeMax]

/-- **The descriptors** are read from their bytes; each is valid and none repeats an
identifier. -/
theorem parseFields_iff {n bytesPerTile bytesPerTile' : ℕ} {fields fields' : List ArchiveFieldDesc}
    (hids : (fields.map ArchiveFieldDesc.id).Nodup) (hbytes : bytesPerTile ≤ sizeMax) :
    parseFields info n fields bytesPerTile c = .ok (fields', bytesPerTile', c') ↔
      ∃ new : List ArchiveFieldDesc, new.length = n ∧ fields' = fields ++ new ∧
        bytesPerTile' = bytesPerTile + (new.map ArchiveFieldDesc.width).sum ∧
        bytesPerTile' ≤ sizeMax ∧
        (∀ field ∈ new, FitWidths descWidths [field.id, field.version, field.kind, field.width] ∧
          field.Valid) ∧ (fields'.map ArchiveFieldDesc.id).Nodup ∧
        c.Consumes (new.flatMap ArchiveFieldDesc.encode) c' := by
  induction n generalizing fields bytesPerTile c with
  | zero =>
    simp only [parseFields, Outcome.ok.injEq, Prod.mk.injEq]
    constructor
    · rintro ⟨rfl, rfl, rfl⟩
      exact ⟨[], rfl, by simp, by simp, hbytes, by simp, hids, .nil c⟩
    · rintro ⟨new, hlen, rfl, rfl, -, -, -, hc⟩
      obtain rfl := List.length_eq_zero_iff.1 hlen
      exact ⟨by simp, by simp, (Cursor.Consumes.nil_iff.1 hc).symm⟩
  | succ n ih =>
    simp only [parseFields, Outcome.bind_eq_ok, Outcome.failWhen_eq_ok, exists_const,
      Outcome.read_eq_ok, Outcome.require_eq_ok, Prod.exists, not_not]
    constructor
    · rintro ⟨vs, all, c₁, hread, hall, hvalid, bytes₁, hadd, hnew, hrest⟩
      obtain rfl : all = true := by simpa using hall
      obtain ⟨hfits, hc₁⟩ := readUnsigneds_iff.1 hread
      obtain ⟨field, rfl⟩ := exists_desc hfits
      change field.Valid at hvalid
      obtain ⟨rfl, hle⟩ := (checkedAdd_iff hvalid.width_le).1 hadd
      have hids' : ((fields ++ [field]).map ArchiveFieldDesc.id).Nodup := by
        rw [List.map_append, List.nodup_append']
        refine ⟨hids, List.nodup_singleton _, fun id hid hid' => hnew ?_⟩
        obtain ⟨existing, hmem, rfl⟩ := List.mem_map.1 hid
        exact ⟨existing, hmem, by simpa using hid'⟩
      obtain ⟨new, rfl, rfl, rfl, hle', hall', hnd, hc⟩ := (ih hids' hle).1 hrest
      refine ⟨field :: new, rfl, by simp, ?_, hle', ?_, hnd, ?_⟩
      · rw [List.map_cons, List.sum_cons, Nat.add_assoc]
      · intro f hf
        rcases List.mem_cons.1 hf with rfl | hf
        · exact ⟨hfits, hvalid⟩
        · exact hall' f hf
      · rw [List.flatMap_cons]
        exact hc₁.append hc
    · rintro ⟨new, hlen, rfl, rfl, hle, hall, hnd, hc⟩
      cases new with
      | nil => cases hlen
      | cons field new =>
        obtain ⟨hfits, hvalid⟩ := hall field List.mem_cons_self
        rw [List.flatMap_cons] at hc
        obtain ⟨c₁, h₁, h₂⟩ := Cursor.consumes_append_iff.1 hc
        rw [List.map_cons, List.sum_cons] at hle
        have hids' : ((fields ++ [field]).map ArchiveFieldDesc.id).Nodup := by
          refine hnd.sublist (List.Sublist.map _ ?_)
          have hsplit : fields ++ field :: new = fields ++ [field] ++ new := by simp
          rw [hsplit]
          exact List.sublist_append_left ..
        refine ⟨_, true, c₁, readUnsigneds_iff.2 ⟨hfits, h₁⟩, by simp, hvalid, _,
          (checkedAdd_iff hvalid.width_le).2 ⟨rfl, by omega⟩, ?_, ?_⟩
        · rintro ⟨existing, hmem, heq⟩
          rw [List.map_append, List.nodup_append'] at hids'
          exact hids'.2.2 (List.mem_map_of_mem hmem) (by simpa using heq)
        · refine (ih hids' (by omega)).2 ⟨new, by simpa using hlen, by simp, ?_, ?_,
            fun f hf => hall f (List.mem_cons_of_mem _ hf), hnd, h₂⟩
          · rw [List.map_cons, List.sum_cons, Nat.add_assoc]
          · rw [List.map_cons, List.sum_cons]
            exact hle

/-- **The size of a record** is that of its prefix and its scalars. -/
theorem parseRecordSize_iff {bytesPerTile fieldBytes recordSize : ℕ} (hheader : headerValid info) :
    parseRecordSize info bytesPerTile = .ok (fieldBytes, recordSize) ↔
      info.localTiles ≤ sizeMax ∧ fieldBytes = info.localTiles * bytesPerTile ∧
        recordSize = worldArchiveChunkPrefixSize + fieldBytes ∧ recordSize ≤ sizeMax := by
  obtain ⟨-, -, ⟨hx, hy, hz⟩, -⟩ := hheader
  simp only [parseRecordSize, Outcome.bind_eq_ok, Outcome.failWhen_eq_ok, exists_const,
    Outcome.require_eq_ok, Outcome.pure_eq, Outcome.ok.injEq, Prod.mk.injEq, not_or, not_lt,
    checkedMultiply_iff]
  constructor
  · rintro ⟨-, _, ⟨rfl, -⟩, _, ⟨rfl, hlocal⟩, fb, ⟨rfl, hfb⟩, rs, hadd, rfl, rfl⟩
    obtain ⟨rfl, hrs⟩ := (checkedAdd_iff hfb).1 hadd
    exact ⟨hlocal, rfl, rfl, hrs⟩
  · rintro ⟨hlocal, rfl, rfl, hrs⟩
    have hfb : info.localTiles * bytesPerTile ≤ sizeMax := le_trans (Nat.le_add_left _ _) hrs
    unfold WorldArchiveInfo.localTiles at hlocal hfb ⊢
    have hxy : info.chunk.x * info.chunk.y ≤ sizeMax :=
      (Nat.le_mul_of_pos_right _ (Nat.pos_of_ne_zero hz)).trans hlocal
    have hz' : info.chunk.z ≤ sizeMax := (Nat.le_mul_of_pos_left _
      (Nat.mul_pos (Nat.pos_of_ne_zero hx) (Nat.pos_of_ne_zero hy))).trans hlocal
    exact ⟨⟨(Nat.le_mul_of_pos_right _ (Nat.pos_of_ne_zero hy)).trans hxy,
      (Nat.le_mul_of_pos_left _ (Nat.pos_of_ne_zero hx)).trans hxy, hz'⟩, _, ⟨rfl, hxy⟩, _,
      ⟨rfl, hlocal⟩, _, ⟨rfl, hfb⟩, _, (checkedAdd_iff hfb).2 ⟨rfl, hrs⟩, rfl, rfl⟩

/-- **The body** has the descriptors and the records, and nothing else. -/
theorem parseBodySize_iff {chunksOffset recordSize bodyLength : ℕ} {u : Unit}
    (hlength : bodyLength ≤ sizeMax) (hpos : 0 < recordSize) :
    parseBodySize info chunksOffset recordSize bodyLength = .ok u ↔
      bodyLength = chunksOffset + info.chunkCount * recordSize := by
  simp only [parseBodySize, Outcome.bind_eq_ok, Outcome.failWhen_eq_ok, exists_const,
    Outcome.require_eq_ok, not_not, not_lt, checkedMultiply_iff]
  constructor
  · rintro ⟨-, _, ⟨rfl, hall⟩, expected, hadd, rfl⟩
    exact ((checkedAdd_iff hall).1 hadd).1
  · rintro rfl
    have hall : info.chunkCount * recordSize ≤ sizeMax := le_trans (Nat.le_add_left _ _) hlength
    exact ⟨(Nat.le_mul_of_pos_right _ hpos).trans hall, _, ⟨rfl, hall⟩, _,
      (checkedAdd_iff hall).2 ⟨rfl, hlength⟩, rfl⟩

/-- **The number of chunks** of the shape is representable, and a dense archive has them all. -/
theorem parseLogicalChunks_iff {n : ℕ} (hheader : headerValid info) :
    parseLogicalChunks info = .ok n ↔ n = info.logicalChunks ∧ info.logicalChunks ≤ sizeMax ∧
      (info.residency = alwaysResidentCode → info.chunkCount = info.logicalChunks) := by
  obtain ⟨-, ⟨hx, hy, hz⟩, ⟨hcx, hcy, hcz⟩, ⟨hmx, hmy, hmz⟩, -⟩ := hheader
  have hgrid : ∀ {s k : ℕ}, s ≠ 0 → k ≠ 0 → s % k = 0 → 0 < s / k := by
    intro s k hs hk hmod
    exact Nat.div_pos (Nat.le_of_dvd (Nat.pos_of_ne_zero hs) (Nat.dvd_of_mod_eq_zero hmod))
      (Nat.pos_of_ne_zero hk)
  have hgy := hgrid hy hcy hmy
  have hgz := hgrid hz hcz hmz
  simp only [parseLogicalChunks, Outcome.bind_eq_ok, Outcome.failWhen_eq_ok, exists_const,
    Outcome.pure_eq, Outcome.ok.injEq, not_or, not_lt, not_and, not_not,
    Nat.le_div_iff_mul_le hgy, Nat.le_div_iff_mul_le hgz, WorldArchiveInfo.logicalChunks]
  constructor
  · rintro ⟨⟨-, hle⟩, hdense, rfl⟩
    exact ⟨rfl, hle, hdense⟩
  · rintro ⟨rfl, hle, hdense⟩
    exact ⟨⟨(Nat.le_mul_of_pos_right _ hgz).trans hle, hle⟩, hdense, rfl⟩

/-- **The records** are read from their bytes, in the order of their keys. -/
theorem parseChunks_iff {logicalChunks fieldBytes n : ℕ} {previous : Option ℕ} :
    parseChunks info logicalChunks fieldBytes n previous c = .ok c' ↔
      ∃ chunks : List ArchiveChunk, chunks.length = n ∧
        (∀ chunk ∈ chunks, FitWidths chunkWidths [chunk.key, chunk.active, chunk.entities] ∧
          chunk.fields.length = fieldBytes) ∧ (∀ chunk ∈ chunks, chunk.key < logicalChunks) ∧
        (previous.toList ++ chunks.map ArchiveChunk.key).Pairwise (· < ·) ∧
        c.Consumes (chunks.flatMap ArchiveChunk.encode) c' := by
  induction n generalizing previous c with
  | zero =>
    simp only [parseChunks, Outcome.ok.injEq]
    constructor
    · rintro rfl
      refine ⟨[], rfl, by simp, by simp, ?_, .nil c⟩
      cases previous <;> simp
    · rintro ⟨chunks, hlen, -, -, -, hc⟩
      obtain rfl := List.length_eq_zero_iff.1 hlen
      exact (Cursor.Consumes.nil_iff.1 hc).symm
  | succ n ih =>
    simp only [parseChunks, Outcome.bind_eq_ok, Outcome.failWhen_eq_ok, exists_const,
      Outcome.read_eq_ok, Prod.exists]
    constructor
    · rintro ⟨vs, all, c₁, hread, hall, hlt, hprev, hskip, hrest⟩
      obtain rfl : all = true := by simpa using hall
      obtain ⟨hfits, hc₁⟩ := readUnsigneds_iff.1 hread
      have hlen := hfits.length_eq
      obtain ⟨key, active, entities, rfl⟩ := List.length_eq_three.1 hlen.symm
      obtain ⟨scalars, hscalars, hc₂⟩ := skip_iff.1
        (show skip c₁ fieldBytes = (true, (skip c₁ fieldBytes).2) by
          rw [Prod.ext_iff]
          exact ⟨by simpa using hskip, rfl⟩)
      obtain ⟨chunks, rfl, hfit, hkeys, hsorted, hc⟩ := ih.1 hrest
      have hkey : key < logicalChunks := not_le.1 hlt
      refine ⟨⟨key, active, entities, scalars⟩ :: chunks, rfl, ?_, ?_, ?_, ?_⟩
      · intro chunk hchunk
        rcases List.mem_cons.1 hchunk with rfl | hchunk
        · exact ⟨hfits, hscalars⟩
        · exact hfit chunk hchunk
      · intro chunk hchunk
        rcases List.mem_cons.1 hchunk with rfl | hchunk
        · exact hkey
        · exact hkeys chunk hchunk
      · cases previous with
        | none => exact hsorted
        | some p =>
          have hp : p < key := not_le.1 fun hle => hprev ⟨p, rfl, hle⟩
          have hkeyAll := (List.pairwise_cons.1 hsorted).1
          refine List.pairwise_cons.2 ⟨fun k hk => ?_, hsorted⟩
          rcases List.mem_cons.1 hk with rfl | hk
          · exact hp
          · exact hp.trans (hkeyAll k hk)
      · rw [List.flatMap_cons]
        exact (hc₁.append hc₂).append hc
    · rintro ⟨chunks, hlen, hfit, hkeys, hsorted, hc⟩
      cases chunks with
      | nil => cases hlen
      | cons chunk chunks =>
        obtain ⟨hfits, hscalars⟩ := hfit chunk List.mem_cons_self
        rw [List.flatMap_cons, ArchiveChunk.encode, List.append_assoc] at hc
        obtain ⟨c₁, h₁, hc⟩ := Cursor.consumes_append_iff.1 hc
        obtain ⟨c₂, h₂, h₃⟩ := Cursor.consumes_append_iff.1 hc
        have hskip := skip_iff.2 ⟨_, hscalars, h₂⟩
        refine ⟨_, true, c₁, readUnsigneds_iff.2 ⟨hfits, h₁⟩, by simp,
          not_le.2 (hkeys chunk List.mem_cons_self), ?_, by rw [hskip]; simp, ?_⟩
        · rintro ⟨p, rfl, hle⟩
          have := (List.pairwise_cons.1 hsorted).1 chunk.key (by simp)
          exact absurd hle (not_le.2 this)
        · rw [hskip]
          refine ih.2 ⟨chunks, by simpa using hlen, fun ch hch =>
            hfit ch (List.mem_cons_of_mem _ hch), fun ch hch =>
            hkeys ch (List.mem_cons_of_mem _ hch), ?_, h₃⟩
          exact hsorted.sublist (List.sublist_append_right _ _)

end Stages

/-! ### The parser -/

section Parser

variable {bytes : List UInt8} {p : ParsedArchive}

/-- The records of a content take as many bytes as the header says. -/
theorem ArchiveContent.length_chunks {chunks : List ArchiveChunk} {fieldBytes : ℕ}
    (h : ∀ chunk ∈ chunks, FitWidths chunkWidths [chunk.key, chunk.active, chunk.entities] ∧
      chunk.fields.length = fieldBytes) : (chunks.flatMap ArchiveChunk.encode).length =
        chunks.length * (worldArchiveChunkPrefixSize + fieldBytes) := by
  induction chunks with
  | nil => simp
  | cons chunk chunks ih =>
    obtain ⟨hfits, hlen⟩ := h chunk List.mem_cons_self
    have hone : chunk.encode.length = worldArchiveChunkPrefixSize + fieldBytes := by
      rw [ArchiveChunk.encode, List.length_append, length_unsigneds hfits.length_eq, hlen]
      rfl
    rw [List.flatMap_cons, List.length_append, hone,
      ih fun ch hch => h ch (List.mem_cons_of_mem _ hch), List.length_cons]
    ring

theorem ArchiveContent.length_body {A : ArchiveContent} (h : A.Canonical) : A.body.length =
    A.table.length + A.info.chunkCount * (worldArchiveChunkPrefixSize + A.fieldBytes) := by
  rw [ArchiveContent.body, List.length_append, length_chunks h.chunk_fits, h.chunk_count]

/-- **The parser accepts exactly the bytes of canonical contents.** -/
theorem parseWorldArchive_iff : parseWorldArchive bytes = .ok p ↔
    ∃ A : ArchiveContent, A.Canonical ∧ bytes = A.encode ∧ p = A.parsed := by
  simp only [parseWorldArchive, Outcome.bind_eq_ok, Outcome.failWhen_eq_ok, exists_const,
    Prod.exists, Outcome.pure_eq, Outcome.ok.injEq]
  constructor
  · rintro ⟨bodySize, checksum, info, hheader, body, henvelope, fields, bytesPerTile, c, hfields,
      fieldBytes, recordSize, hrecord, u, hbody, logicalChunks, hlogical, c', hchunks, hend, rfl⟩
    obtain ⟨hformat, hfits, rest, hbytes⟩ := parseHeader_iff.1 hheader
    obtain ⟨hlen, hmax, hcrc, hvalid, rfl⟩ := parseEnvelope_iff.1 henvelope
    obtain ⟨new, hcount, hnew, rfl, hwidth, hdesc, hids, hc⟩ :=
      (parseFields_iff (by simp) (Nat.zero_le _)).1 hfields
    rw [List.nil_append] at hnew
    subst hnew
    rw [Nat.zero_add] at hwidth hrecord
    obtain ⟨hlocal, rfl, rfl, hrs⟩ := (parseRecordSize_iff hvalid).1 hrecord
    obtain ⟨rfl, hmaxChunks, hdense⟩ := (parseLogicalChunks_iff hvalid).1 hlogical
    obtain ⟨chunks, hchunkCount, hfit, hkeys, hsorted, hc'⟩ := parseChunks_iff.1 hchunks
    -- the body is the table and the records, and nothing is left
    have hnone : c'.rest = [] := by
      rw [← List.length_eq_zero_iff, Cursor.length_rest]
      exact not_not.1 hend
    have hhead : (worldArchiveMagic ++ toLE 4 worldArchiveFormatVersion ++
        unsigneds headerWidths (bodySize :: checksum :: info.values)).length =
          worldArchiveHeaderSize := by
      rw [List.length_append, length_unsigneds hfits.length_eq]
      rfl
    have hdrop : bytes.drop worldArchiveHeaderSize = rest := by
      rw [hbytes, ← hhead, List.drop_left]
    have hrest : rest = fields.flatMap ArchiveFieldDesc.encode ++
        chunks.flatMap ArchiveChunk.encode := by
      have h₁ := (hc.append hc').rest
      rwa [Cursor.rest_start, hdrop, hnone, List.append_nil] at h₁
    have hsize : rest.length = bodySize := by
      rw [← hdrop, List.length_drop]
      omega
    obtain ⟨-, hcheck, hinfo⟩ : bodySize < 256 ^ 8 ∧ checksum < 256 ^ 4 ∧
        FitWidths infoWidths info.values := by
      cases hfits with
      | cons h₁ h₂ =>
        cases h₂ with
        | cons h₂ h₃ => exact ⟨h₁, h₂, h₃⟩
    have hencode : bytes = (ArchiveContent.mk info fields chunks).encode := by
      have hback : bytes = worldArchiveMagic ++ toLE 4 worldArchiveFormatVersion ++
          toLE 8 bodySize ++ toLE 4 checksum ++ (unsigneds infoWidths info.values ++ rest) := by
        rw [hbytes]
        simp only [headerWidths, unsigneds, List.append_assoc]
      have hfront : worldArchiveMagic ++ toLE 4 worldArchiveFormatVersion ++ toLE 8 bodySize =
          (ArchiveContent.mk info fields chunks).front := by
        rw [ArchiveContent.front, ArchiveContent.body, ArchiveContent.table, ← hrest, hsize]
      have hback' : unsigneds infoWidths info.values ++ rest =
          (ArchiveContent.mk info fields chunks).back := by
        rw [ArchiveContent.back, ArchiveContent.body, ArchiveContent.table, hrest]
      rw [hfront, hback'] at hback
      have hsum : (ArchiveContent.mk info fields chunks).checksum = checksum := by
        rw [← hcrc, hback]
        exact (archiveCrc32_append (ArchiveContent.length_front _) (length_toLE _ _)).symm
      rw [hback, ArchiveContent.encode, hsum]
    refine ⟨⟨info, fields, chunks⟩, ?_, hencode, ?_⟩
    · exact {
        format := hformat
        info_fits := hinfo
        header := hvalid
        field_count := hcount
        field_fits := fun field hf => (hdesc field hf).1
        field_valid := fun field hf => (hdesc field hf).2
        field_ids := hids
        record_size := ⟨hlocal, hrs, hwidth⟩
        size := hencode ▸ hmax
        logical := hmaxChunks
        dense := hdense
        chunk_count := hchunkCount
        chunk_fits := hfit
        chunk_lt := hkeys
        sorted := hsorted }
    · have hpos : c.pos = (fields.flatMap ArchiveFieldDesc.encode).length := by
        rw [hc.pos, Cursor.pos_start, Nat.zero_add]
      rw [hdrop, hrest, hpos, ArchiveContent.parsed, ← hencode]
      rfl
  · rintro ⟨A, h, rfl, rfl⟩
    have hlen := A.length_encode
    have hbodyMax : A.body.length ≤ sizeMax := by
      have := h.size
      omega
    have hfits : FitWidths headerWidths (A.body.length :: A.checksum :: A.info.values) := by
      have hbody : A.body.length < 256 ^ 8 := by
        have : sizeMax < 256 ^ 8 := by decide
        omega
      exact .cons hbody (.cons A.checksum_lt h.info_fits)
    have hbytes : A.encode = worldArchiveMagic ++ toLE 4 worldArchiveFormatVersion ++
        unsigneds headerWidths (A.body.length :: A.checksum :: A.info.values) ++ A.body := by
      simp only [ArchiveContent.encode, ArchiveContent.front, ArchiveContent.back, headerWidths,
        unsigneds, List.append_assoc]
    have hdrop : A.encode.drop worldArchiveHeaderSize = A.body := by
      have hhead : (worldArchiveMagic ++ toLE 4 worldArchiveFormatVersion ++
          unsigneds headerWidths (A.body.length :: A.checksum :: A.info.values)).length =
            worldArchiveHeaderSize := by
        rw [List.length_append, length_unsigneds hfits.length_eq]
        rfl
      rw [hbytes, ← hhead, List.drop_left]
    have hstart : (Cursor.start A.body).rest = A.table ++ A.chunks.flatMap ArchiveChunk.encode :=
      rfl
    obtain ⟨c, hc, hrest⟩ := Cursor.exists_consumes hstart
    obtain ⟨c', hc', hnone⟩ := Cursor.exists_consumes (r := []) (by rw [hrest, List.append_nil])
    have hpos : c.pos = A.table.length := by rw [hc.pos, Cursor.pos_start, Nat.zero_add]
    obtain ⟨hlocal, hrecord, hwidth⟩ := h.record_size
    refine ⟨A.body.length, A.checksum, A.info, parseHeader_iff.2 ⟨h.format, hfits, _, hbytes⟩,
      A.body, parseEnvelope_iff.2 ⟨hlen, h.size, A.archiveCrc32_encode, h.header, hdrop.symm⟩,
      A.fields, (A.fields.map ArchiveFieldDesc.width).sum, c, ?_, A.fieldBytes,
      worldArchiveChunkPrefixSize + A.fieldBytes,
      (parseRecordSize_iff h.header).2 ⟨hlocal, rfl, rfl, hrecord⟩, (), ?_, A.info.logicalChunks,
      (parseLogicalChunks_iff h.header).2 ⟨rfl, h.logical, h.dense⟩, c', ?_, ?_, ?_⟩
    · exact (parseFields_iff (by simp) (Nat.zero_le _)).2 ⟨A.fields, h.field_count, rfl,
        (Nat.zero_add _).symm, hwidth, fun field hf => ⟨h.field_fits field hf,
        h.field_valid field hf⟩, h.field_ids, hc⟩
    · exact (parseBodySize_iff hbodyMax (by simp [worldArchiveChunkPrefixSize])).2
        (by rw [hpos]; exact A.length_body h)
    · exact parseChunks_iff.2 ⟨A.chunks, h.chunk_count, h.chunk_fits, h.chunk_lt, h.sorted, hc'⟩
    · rw [← Cursor.length_rest, hnone]
      simp
    · simp only [ArchiveContent.parsed, hpos]

end Parser

/-! ### Reads stay within the span -/

section Inside

/-- A result that does not report success. -/
def Refused (result : WorldArchiveResult) : Prop := result.status ≠ .ok

variable {info : WorldArchiveInfo} {status : WorldArchiveStatus} {α : Type} {o : Option α}

/-- A check whose failure is no success. -/
theorem within_failParse {p : Prop} [Decidable p] (h : status ≠ .ok) :
    (Outcome.failWhen p (failParse status info)).Within Refused :=
  Outcome.within_failWhen h

/-- A checked operation whose failure is no success. -/
theorem within_require (h : status ≠ .ok) :
    (Outcome.require (failParse status info) o).Within Refused :=
  Outcome.within_require h

theorem within_readUnsigneds (ws : List ℕ) (c : ArchiveCursor) :
    (Outcome.read (readUnsigneds ws c) : Outcome WorldArchiveResult _).Within Refused := by
  obtain ⟨r, hr⟩ := exists_readUnsigneds ws c
  exact Outcome.within_read hr

theorem within_parseHeader (bytes : List UInt8) : (parseHeader bytes).Within Refused := by
  refine (within_failParse (by decide)).bind fun _ hlen => ?_
  rw [Outcome.failWhen_eq_ok, not_lt] at hlen
  -- the magic and the version stand in a span that is long enough for the magic
  have hfirst : firstBytes bytes worldArchiveMagic.length =
      some (bytes.take worldArchiveMagic.length) := if_pos hlen
  have hrest : subspan bytes worldArchiveMagic.length =
      some (bytes.drop worldArchiveMagic.length) := if_pos hlen
  refine (Outcome.within_read hfirst).bind fun _ _ => (within_failParse (by decide)).bind fun _ _ =>
    (Outcome.within_read hrest).bind fun rest _ => ?_
  obtain ⟨r, hr, -⟩ := exists_readUnsignedLE (.start rest) 4
  exact (Outcome.within_read hr).bind fun _ _ => (within_require (by decide)).bind fun _ _ =>
    (within_failParse (by decide)).bind fun _ _ => (within_failParse (by decide)).bind fun _ _ =>
    (within_readUnsigneds _ _).bind fun _ _ => (within_failParse (by decide)).bind fun _ _ =>
    Outcome.within_ok

theorem within_parseEnvelope (bytes : List UInt8) (bodySize checksum : ℕ) :
    (parseEnvelope bytes bodySize checksum info).Within Refused := by
  refine (within_failParse (by decide)).bind fun _ _ =>
    (within_require (by decide)).bind fun expected hadd =>
    (within_failParse (by decide)).bind fun _ _ =>
    (within_failParse (by decide)).bind fun _ hlen => ?_
  rw [Outcome.failWhen_eq_ok, not_not] at hlen
  have hle : worldArchiveHeaderSize ≤ bytes.length := by
    rw [Outcome.require_eq_ok, checkedAdd] at hadd
    split_ifs at hadd
    obtain rfl := Option.some.inj hadd
    exact hlen ▸ Nat.le_add_right _ _
  have hbody : subspan bytes worldArchiveHeaderSize =
      some (bytes.drop worldArchiveHeaderSize) := if_pos hle
  exact (Outcome.within_read hbody).bind fun _ _ => (within_failParse (by decide)).bind fun _ _ =>
    (within_failParse (by decide)).bind fun _ _ => Outcome.within_ok

theorem within_parseFields (n : ℕ) (fields : List ArchiveFieldDesc) (bytesPerTile : ℕ)
    (c : ArchiveCursor) : (parseFields info n fields bytesPerTile c).Within Refused := by
  induction n generalizing fields bytesPerTile c with
  | zero => exact Outcome.within_ok
  | succ n ih =>
    exact (within_readUnsigneds _ _).bind fun _ _ => (within_failParse (by decide)).bind fun _ _ =>
      (within_failParse (by decide)).bind fun _ _ => (within_require (by decide)).bind fun _ _ =>
      (within_failParse (by decide)).bind fun _ _ => ih _ _ _

theorem within_parseRecordSize (bytesPerTile : ℕ) :
    (parseRecordSize info bytesPerTile).Within Refused :=
  (within_failParse (by decide)).bind fun _ _ => (within_require (by decide)).bind fun _ _ =>
    (within_require (by decide)).bind fun _ _ => (within_require (by decide)).bind fun _ _ =>
    (within_require (by decide)).bind fun _ _ => Outcome.within_ok

theorem within_parseBodySize (chunksOffset recordSize bodyLength : ℕ) :
    (parseBodySize info chunksOffset recordSize bodyLength).Within Refused :=
  (within_failParse (by decide)).bind fun _ _ => (within_require (by decide)).bind fun _ _ =>
    (within_require (by decide)).bind fun _ _ => within_failParse (by decide)

theorem within_parseLogicalChunks : (parseLogicalChunks info).Within Refused :=
  (within_failParse (by decide)).bind fun _ _ => (within_failParse (by decide)).bind fun _ _ =>
    Outcome.within_ok

theorem within_parseChunks (logicalChunks fieldBytes n : ℕ) (previous : Option ℕ)
    (c : ArchiveCursor) : (parseChunks info logicalChunks fieldBytes n previous c).Within Refused := by
  induction n generalizing previous c with
  | zero => exact Outcome.within_ok
  | succ n ih =>
    exact (within_readUnsigneds _ _).bind fun _ _ => (within_failParse (by decide)).bind fun _ _ =>
      (within_failParse (by decide)).bind fun _ _ => (within_failParse (by decide)).bind fun _ _ =>
      (within_failParse (by decide)).bind fun _ _ => ih _ _

/-- **The parser never reads outside the span**, and reports no success when it fails. -/
theorem within_parseWorldArchive (bytes : List UInt8) : (parseWorldArchive bytes).Within Refused :=
  (within_parseHeader bytes).bind fun ⟨_, _, _⟩ _ =>
    (within_parseEnvelope _ _ _).bind fun _ _ =>
    (within_parseFields _ _ _ _).bind fun ⟨_, _, _⟩ _ =>
    (within_parseRecordSize _).bind fun ⟨_, _⟩ _ =>
    (within_parseBodySize _ _ _).bind fun _ _ => within_parseLogicalChunks.bind fun _ _ =>
    (within_parseChunks _ _ _ _ _).bind fun _ _ => (within_failParse (by decide)).bind fun _ _ =>
    Outcome.within_ok

end Inside

end Tess
