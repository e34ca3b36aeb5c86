import Tess.Persistence.ArchiveFields
import Tess.Core.Shape

/-!
# The archive format

An archive is a header with a checksum, a table of field descriptors and a record for every
chunk, in the order of their keys.

* `archiveCrc32` : the checksum, which leaves its own slot out;
* `parseWorldArchive` : the structural checks of the source, in their order.
-/

namespace Tess

open Wire

/-- `WorldArchiveStatus`. -/
inductive WorldArchiveStatus
  | ok
  | invalidMagic
  | unsupportedFormat
  | truncated
  | corrupt
  | shapeMismatch
  | latticeMismatch
  | keyLayoutMismatch
  | residencyMismatch
  | schemaMismatch
  | migrationRequired
  | fieldMismatch
  | residencyCapacityExceeded
  | invalidChunk
  deriving DecidableEq, Repr

/-- `lattice::Identity::Orthogonal`. -/
def orthogonalIdentity : ℕ := 0x4f525448

/-- `WorldArchiveResidency::AlwaysResident`. -/
def alwaysResidentCode : ℕ := 1

/-- `WorldArchiveResidency::SparseResident`. -/
def sparseResidentCode : ℕ := 2

/-- `WorldArchiveInfo`; enumerations are their values, which an archive may not name. -/
@[ext]
structure WorldArchiveInfo where
  /-- Version of the format. -/
  formatVersion : ℕ := 0
  /-- Tiles of the world. -/
  size : Extent3 := ⟨0, 0, 0⟩
  /-- Tiles of a chunk. -/
  chunk : Extent3 := ⟨0, 0, 0⟩
  /-- Lattice. -/
  latticeIdentity : ℕ := orthogonalIdentity
  /-- Version of the lattice. -/
  latticeVersion : ℕ := 0
  /-- Version of the key layout. -/
  keyLayoutVersion : ℕ := 0
  /-- Application schema. -/
  schemaId : ℕ := 0
  /-- Version of the schema. -/
  schemaVersion : ℕ := 0
  /-- Library that wrote the archive. -/
  libraryMajor : ℕ := 0
  libraryMinor : ℕ := 0
  libraryPatch : ℕ := 0
  /-- Residency policy. -/
  residency : ℕ := alwaysResidentCode
  /-- Number of fields. -/
  fieldCount : ℕ := 0
  /-- Number of chunks. -/
  chunkCount : ℕ := 0
  deriving DecidableEq

/-- `WorldArchiveResult`. -/
structure WorldArchiveResult where
  /-- Outcome. -/
  status : WorldArchiveStatus := .ok
  /-- Header of the archive, as far as it was read. -/
  info : WorldArchiveInfo := {}
  /-- Bytes that were processed. -/
  bytesProcessed : ℕ := 0
  deriving DecidableEq

/-- `ArchiveFieldDesc`. -/
structure ArchiveFieldDesc where
  /-- Stable identifier. -/
  id : ℕ
  /-- Version of the field. -/
  version : ℕ
  /-- Value of an `ArchiveScalarKind`. -/
  kind : ℕ
  /-- Bytes of a scalar. -/
  width : ℕ
  deriving DecidableEq

/-- `ParsedArchive`. -/
structure ParsedArchive where
  /-- Result of the parse. -/
  result : WorldArchiveResult
  /-- Bytes behind the header. -/
  body : List UInt8
  /-- Descriptors of the fields. -/
  fields : List ArchiveFieldDesc
  /-- Where the chunk records start in the body. -/
  chunksOffset : ℕ
  /-- Bytes of a chunk record. -/
  chunkRecordSize : ℕ

/-! ### Constants -/

/-- `world_archive_magic`. -/
def worldArchiveMagic : List UInt8 := [84, 69, 83, 83, 87, 76, 68, 0]

/-- `world_archive_format_version`. -/
def worldArchiveFormatVersion : ℕ := 2

/-- `world_archive_key_layout_version`. -/
def worldArchiveKeyLayoutVersion : ℕ := 1

/-- `world_archive_header_size`. -/
def worldArchiveHeaderSize : ℕ := 121

/-- `world_archive_checksum_offset`. -/
def worldArchiveChecksumOffset : ℕ := 20

/-- `world_archive_checksum_size`. -/
def worldArchiveChecksumSize : ℕ := 4

/-- `world_archive_chunk_prefix_size`. -/
def worldArchiveChunkPrefixSize : ℕ := 16

/-- `world_archive_max_fields`. -/
def worldArchiveMaxFields : ℕ := 1024

/-- The largest `std::size_t`, which is that of `std::uint64_t`. -/
def sizeMax : ℕ := 2 ^ 64 - 1

/-- Widths of the header fields behind the checksum. -/
def infoWidths : List ℕ := [8, 8, 8, 8, 8, 8, 4, 4, 4, 8, 4, 4, 4, 4, 1, 4, 8]

/-- Widths of the header fields behind the format version. -/
def headerWidths : List ℕ := 8 :: 4 :: infoWidths

/-- Widths of the fields of a descriptor. -/
def descWidths : List ℕ := [8, 4, 1, 4]

/-- Widths of the fields before the scalars of a chunk. -/
def chunkWidths : List ℕ := [8, 4, 4]

/-! ### The checksum -/

/-- One bit of `update_crc32`. -/
def crcBit (crc : BitVec 32) : BitVec 32 :=
  (crc >>> 1) ^^^ (0xedb88320#32 &&& -(crc &&& 1#32))

/-- `update_crc32`. -/
def updateCrc32 (crc : BitVec 32) (bytes : List UInt8) : BitVec 32 :=
  bytes.foldl (fun crc byte =>
    (List.range 8).foldl (fun crc _ => crcBit crc) (crc ^^^ byte.toBitVec.setWidth 32)) crc

/-- `archive_crc32`: the checksum of everything but its own slot. -/
def archiveCrc32 (bytes : List UInt8) : ℕ :=
  if bytes.length < worldArchiveChecksumOffset + worldArchiveChecksumSize then 0
  else (~~~ (updateCrc32 (updateCrc32 0xffffffff#32 (bytes.take worldArchiveChecksumOffset))
    (bytes.drop (worldArchiveChecksumOffset + worldArchiveChecksumSize)))).toNat

/-! ### Checked arithmetic and spans -/

/-- `checked_add`. -/
def checkedAdd (lhs rhs : ℕ) : Option ℕ := if lhs > sizeMax - rhs then none else some (lhs + rhs)

/-- `checked_multiply`. -/
def checkedMultiply (lhs rhs : ℕ) : Option ℕ :=
  if lhs ≠ 0 ∧ rhs > sizeMax / lhs then none else some (lhs * rhs)

/-- `span::subspan`, which must start within the span. -/
def subspan (bytes : List UInt8) (offset : ℕ) : Option (List UInt8) :=
  if offset ≤ bytes.length then some (bytes.drop offset) else none

/-- The first bytes of a span, which must have them. -/
def firstBytes (bytes : List UInt8) (count : ℕ) : Option (List UInt8) :=
  if count ≤ bytes.length then some (bytes.take count) else none

/-! ### The parser -/

/-- `parse_world_archive`: a failure with the header read so far. -/
def failParse (status : WorldArchiveStatus) (info : WorldArchiveInfo) : WorldArchiveResult :=
  { status := status, info := info }

/-- The header that values read behind the format version make. -/
def WorldArchiveInfo.ofHeader (version : ℕ) (values : List ℕ) : WorldArchiveInfo where
  formatVersion := version
  size := ⟨values.getD 2 0, values.getD 3 0, values.getD 4 0⟩
  chunk := ⟨values.getD 5 0, values.getD 6 0, values.getD 7 0⟩
  latticeIdentity := values.getD 8 0
  latticeVersion := values.getD 9 0
  keyLayoutVersion := values.getD 10 0
  schemaId := values.getD 11 0
  schemaVersion := values.getD 12 0
  libraryMajor := values.getD 13 0
  libraryMinor := values.getD 14 0
  libraryPatch := values.getD 15 0
  residency := values.getD 16 0
  fieldCount := values.getD 17 0
  chunkCount := values.getD 18 0

/-- `parse_world_archive`, up to the fields of the header; the result has the body size, the
checksum and the header. -/
def parseHeader (bytes : List UInt8) : Outcome WorldArchiveResult (ℕ × ℕ × WorldArchiveInfo) := do
  .failWhen (bytes.length < worldArchiveMagic.length) (failParse .truncated {})
  let magic ← .read (firstBytes bytes worldArchiveMagic.length)
  .failWhen (magic ≠ worldArchiveMagic) (failParse .invalidMagic {})
  let rest ← .read (subspan bytes worldArchiveMagic.length)
  let (version, cursor) ← .read (readUnsignedLE (.start rest) 4)
  let version ← .require (failParse .truncated {}) version
  let info : WorldArchiveInfo := { formatVersion := version }
  -- a future format may extend the header, so its length comes after its version
  .failWhen (version ≠ worldArchiveFormatVersion) (failParse .unsupportedFormat info)
  .failWhen (bytes.length < worldArchiveHeaderSize) (failParse .truncated info)
  let (values, all, _) ← .read (readUnsigneds headerWidths cursor)
  let info := WorldArchiveInfo.ofHeader version values
  -- lattice and residency are set once every read succeeded
  .failWhen (all = false) (failParse .truncated
    { info with latticeIdentity := orthogonalIdentity, residency := alwaysResidentCode })
  return (values.getD 0 0, values.getD 1 0, info)

/-- The structural checks on the header. -/
def headerValid (info : WorldArchiveInfo) : Prop :=
  info.fieldCount ≤ worldArchiveMaxFields ∧
    (info.size.x ≠ 0 ∧ info.size.y ≠ 0 ∧ info.size.z ≠ 0) ∧
    (info.chunk.x ≠ 0 ∧ info.chunk.y ≠ 0 ∧ info.chunk.z ≠ 0) ∧
    (info.size.x % info.chunk.x = 0 ∧ info.size.y % info.chunk.y = 0 ∧
      info.size.z % info.chunk.z = 0) ∧
    (info.residency = alwaysResidentCode ∨ info.residency = sparseResidentCode)

instance : DecidablePred headerValid := fun _ => inferInstanceAs (Decidable (_ ∧ _))

/-- `parse_world_archive`: the size and the checksum of the envelope; the result is the body. -/
def parseEnvelope (bytes : List UInt8) (bodySize checksum : ℕ) (info : WorldArchiveInfo) :
    Outcome WorldArchiveResult (List UInt8) := do
  .failWhen (bodySize > sizeMax) (failParse .corrupt info)
  let expected ← .require (failParse .corrupt info) (checkedAdd worldArchiveHeaderSize bodySize)
  .failWhen (bytes.length < expected) (failParse .truncated info)
  .failWhen (bytes.length ≠ expected) (failParse .corrupt info)
  let body ← .read (subspan bytes worldArchiveHeaderSize)
  .failWhen (archiveCrc32 bytes ≠ checksum) (failParse .corrupt info)
  .failWhen (¬ headerValid info) (failParse .corrupt info)
  return body

/-- The structural checks on a descriptor. -/
def ArchiveFieldDesc.Valid (field : ArchiveFieldDesc) : Prop :=
  (field.width = 1 ∨ field.width = 2 ∨ field.width = 4 ∨ field.width = 8) ∧
    (field.kind = ArchiveScalarKind.unsigned.code ∨ field.kind = ArchiveScalarKind.signed.code ∨
      field.kind = ArchiveScalarKind.floating.code ∨
      field.kind = ArchiveScalarKind.boolean.code) ∧
    ¬ (field.kind = ArchiveScalarKind.boolean.code ∧ field.width ≠ 1) ∧
    ¬ (field.kind = ArchiveScalarKind.floating.code ∧ field.width ≠ 4 ∧ field.width ≠ 8)

instance : DecidablePred ArchiveFieldDesc.Valid := fun _ => inferInstanceAs (Decidable (_ ∧ _))

/-- `parse_world_archive`: the loop over the descriptors, with the fields and their bytes per
tile so far. -/
def parseFields (info : WorldArchiveInfo) : ℕ → List ArchiveFieldDesc → ℕ → ArchiveCursor →
    Outcome WorldArchiveResult (List ArchiveFieldDesc × ℕ × ArchiveCursor)
  | 0, fields, bytesPerTile, c => .ok (fields, bytesPerTile, c)
  | n + 1, fields, bytesPerTile, c => do
    let (values, all, c) ← .read (readUnsigneds descWidths c)
    -- the envelope is complete: a table that exhausts it is corrupt, not truncated
    .failWhen (all = false) (failParse .corrupt info)
    let field : ArchiveFieldDesc :=
      ⟨values.getD 0 0, values.getD 1 0, values.getD 2 0, values.getD 3 0⟩
    .failWhen (¬ field.Valid) (failParse .corrupt info)
    let bytesPerTile ← .require (failParse .corrupt info) (checkedAdd bytesPerTile field.width)
    .failWhen (∃ existing ∈ fields, existing.id = field.id) (failParse .corrupt info)
    parseFields info n (fields ++ [field]) bytesPerTile c

/-- `parse_world_archive`: the bytes of the fields of a chunk, and of its record. -/
def parseRecordSize (info : WorldArchiveInfo) (bytesPerTile : ℕ) :
    Outcome WorldArchiveResult (ℕ × ℕ) := do
  .failWhen (info.chunk.x > sizeMax ∨ info.chunk.y > sizeMax ∨ info.chunk.z > sizeMax)
    (failParse .corrupt info)
  let localXY ← .require (failParse .corrupt info) (checkedMultiply info.chunk.x info.chunk.y)
  let localTiles ← .require (failParse .corrupt info) (checkedMultiply localXY info.chunk.z)
  let fieldBytes ← .require (failParse .corrupt info) (checkedMultiply localTiles bytesPerTile)
  let recordSize ← .require (failParse .corrupt info)
    (checkedAdd worldArchiveChunkPrefixSize fieldBytes)
  return (fieldBytes, recordSize)

/-- `parse_world_archive`: the body has exactly the records of its chunks. -/
def parseBodySize (info : WorldArchiveInfo) (chunksOffset recordSize bodyLength : ℕ) :
    Outcome WorldArchiveResult Unit := do
  .failWhen (info.chunkCount > sizeMax) (failParse .corrupt info)
  let all ← .require (failParse .corrupt info) (checkedMultiply info.chunkCount recordSize)
  let expected ← .require (failParse .corrupt info) (checkedAdd chunksOffset all)
  .failWhen (expected ≠ bodyLength) (failParse .corrupt info)

/-- `parse_world_archive`: the number of chunks of the shape. -/
def parseLogicalChunks (info : WorldArchiveInfo) : Outcome WorldArchiveResult ℕ := do
  let x := info.size.x / info.chunk.x
  let y := info.size.y / info.chunk.y
  let z := info.size.z / info.chunk.z
  .failWhen (x > sizeMax / y ∨ x * y > sizeMax / z) (failParse .corrupt info)
  .failWhen (info.residency = alwaysResidentCode ∧ info.chunkCount ≠ x * y * z)
    (failParse .invalidChunk info)
  return x * y * z

/-- `parse_world_archive`: the loop over the chunk records, with the key before. -/
def parseChunks (info : WorldArchiveInfo) (logicalChunks fieldBytes : ℕ) :
    ℕ → Option ℕ → ArchiveCursor → Outcome WorldArchiveResult ArchiveCursor
  | 0, _, c => .ok c
  | n + 1, previous, c => do
    let (values, all, c) ← .read (readUnsigneds chunkWidths c)
    .failWhen (all = false) (failParse .invalidChunk info)
    let key := values.getD 0 0
    .failWhen (key ≥ logicalChunks) (failParse .invalidChunk info)
    .failWhen (∃ p ∈ previous, key ≤ p) (failParse .invalidChunk info)
    let (all, c) := skip c fieldBytes
    .failWhen (all = false) (failParse .invalidChunk info)
    parseChunks info logicalChunks fieldBytes n (some key) c

/-- `parse_world_archive`. -/
def parseWorldArchive (bytes : List UInt8) : Outcome WorldArchiveResult ParsedArchive := do
  let (bodySize, checksum, info) ← parseHeader bytes
  let body ← parseEnvelope bytes bodySize checksum info
  let (fields, bytesPerTile, c) ← parseFields info info.fieldCount [] 0 (.start body)
  let (fieldBytes, recordSize) ← parseRecordSize info bytesPerTile
  parseBodySize info c.pos recordSize body.length
  let logicalChunks ← parseLogicalChunks info
  let end_ ← parseChunks info logicalChunks fieldBytes info.chunkCount none c
  .failWhen (end_.remaining ≠ 0) (failParse .corrupt info)
  return {
    result := { status := .ok, info := info, bytesProcessed := bytes.length }
    body := body
    fields := fields
    chunksOffset := c.pos
    chunkRecordSize := recordSize }

end Tess
