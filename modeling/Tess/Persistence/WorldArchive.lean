import Tess.Persistence.ArchiveParse
import Tess.Storage.SparseRuns
import Tess.Storage.Dirty
import Tess.Storage.World
import Mathlib.Data.List.Sort

/-!
# Saving and loading a world

* `ArchiveType` : the template arguments of an archive, with what their assertions promise;
* `ArchiveWorld` : a dense or a sparse world, by chunk columns;
* `saveWorldArchive`, `loadWorldArchive` : the two operations of the source, in its order.

An operation returns no result when it reads outside a span, looks up a chunk that is not
resident, or cannot represent the size of its output.
-/

namespace Tess

open Wire

/-! ### Worlds -/

/-- One chunk of a world: its page, its metadata and its masks. -/
structure ChunkColumn {Tag : Type} (Value : Tag → Type) (n : ℕ) where
  /-- Field values. -/
  page : FieldPage Value n
  /-- Dirty mask, dirty bounds and content version. -/
  dirty : ChunkDirty := {}
  /-- Version of the topology. -/
  topologyVersion : ℕ := 0
  /-- Number of entities. -/
  entityCount : BitVec 32 := 0
  /-- Active mask. -/
  activeMask : BitVec 32 := 0

/-- A world of a residency policy, with chunks of type `C`. -/
inductive ArchiveWorld (C : Type) (chunkCount : ℕ) : Residency → Type
  | dense (columns : Fin chunkCount → C) : ArchiveWorld C chunkCount .alwaysResident
  | sparse (world : SparseWorld C) : ArchiveWorld C chunkCount .sparseResident

namespace ArchiveWorld

variable {C : Type} {chunkCount : ℕ} {residency : Residency}

/-- The chunk of a key, which must be resident. -/
def chunk (key : ℕ) : ArchiveWorld C chunkCount residency → Option C
  | dense columns => if h : key < chunkCount then some (columns ⟨key, h⟩) else none
  | sparse world => (world.directory.find key).join.map world.columns

/-- Write the chunk of a key, which must be resident. -/
def setChunk (key : ℕ) (column : C) :
    ArchiveWorld C chunkCount residency → Option (ArchiveWorld C chunkCount residency)
  | dense columns =>
    if h : key < chunkCount then some (dense (Function.update columns ⟨key, h⟩ column)) else none
  | sparse world => (world.directory.find key).join.map fun slot =>
      sparse { world with columns := Function.update world.columns slot column }

/-- Largest number of resident chunks. -/
def capacity : ArchiveWorld C chunkCount residency → ℕ
  | dense _ => chunkCount
  | sparse world => world.capacity

/-- `archive_chunk_keys`. -/
def archiveChunkKeys : ArchiveWorld C chunkCount residency → List ℕ
  | dense _ => List.range chunkCount
  | sparse world => world.residentKeys.insertionSort (· ≤ ·)

/-- `prepare_world_for_load`, with the chunk that a reset gives a key. -/
def prepareWorldForLoad (fresh : ℕ → C) (keys : List ℕ) :
    ArchiveWorld C chunkCount residency → Option (ArchiveWorld C chunkCount residency)
  | dense columns => some (dense columns)
  | sparse world => do
    let world ← world.residentKeys.foldlM (fun W key => (W.evict key).map Prod.fst) world
    let world ← keys.foldlM (fun W key => (W.ensureResident key fresh).map Prod.fst) world
    return sparse world

/-- A world of the shape, whose sparse bookkeeping is in order. -/
def Valid : ArchiveWorld C chunkCount residency → Prop
  | dense _ => True
  | sparse world => world.chunkCount = chunkCount ∧ ∃ set, world.Refines [] set

end ArchiveWorld

/-! ### Types -/

/-- `tess::library_version`, as the header stores it. -/
structure LibraryVersion where
  /-- Components. -/
  major : ℕ
  minor : ℕ
  patch : ℕ
  /-- They are 32-bit. -/
  fits : major < 256 ^ 4 ∧ minor < 256 ^ 4 ∧ patch < 256 ^ 4

/-- The template arguments `Archive` and `World`, with what the compiler checks of them. -/
structure ArchiveType {Tag : Type} (Value : Tag → Type) where
  /-- Shape of the world. -/
  shape : Shape
  /-- `ShapeTraits<Shape>::lattice_identity`. -/
  latticeIdentity : ℕ
  /-- `ShapeTraits<Shape>::lattice_version`. -/
  latticeVersion : ℕ
  /-- Residency policy of the world. -/
  residency : Residency
  /-- The library that is built. -/
  library : LibraryVersion
  /-- `PersistenceSchema::id`. -/
  id : ℕ
  /-- `PersistenceSchema::version`. -/
  version : ℕ
  /-- `PersistenceSchema::fields`. -/
  fields : List (PersistedField Value)
  /-- Identities are 32-bit, and so must versions be. -/
  lattice_fits : latticeIdentity < 256 ^ 4 ∧ latticeVersion < 256 ^ 4
  /-- Schema identifiers are 64-bit and versions 32-bit. -/
  schema_fits : id < 256 ^ 8 ∧ version < 256 ^ 4
  /-- PersistenceSchema field IDs must be unique. -/
  unique_ids : (fields.map PersistedField.id).Nodup
  /-- PersistenceSchema field tags must be unique. -/
  unique_tags : (fields.map PersistedField.tag).Nodup
  /-- There are at most `world_archive_max_fields` fields. -/
  field_count : fields.length ≤ worldArchiveMaxFields
  /-- A page is one object, so the bytes of its fields are representable. -/
  page_fits :
    shape.localTileCount * (fields.map fun field => field.scalar.width).sum < 2 ^ 63

variable {Tag : Type} [DecidableEq Tag] {Value : Tag → Type} [∀ tag, Inhabited (Value tag)]

namespace ArchiveType

variable (T : ArchiveType Value)

/-- The chunks of the world. -/
abbrev Column := ChunkColumn Value T.shape.localTileCount

/-- The worlds of the type. -/
abbrev World := ArchiveWorld T.Column T.shape.chunkCount T.residency

/-- `world_archive_residency`. -/
def residencyCode : ℕ :=
  match T.residency with
  | .alwaysResident => alwaysResidentCode
  | .sparseResident => sparseResidentCode

/-- `expected_field_descs`. -/
def expectedFieldDescs : List ArchiveFieldDesc :=
  T.fields.map fun field => ⟨field.id, field.version, field.scalar.kind.code, field.scalar.width⟩

/-- The header of an archive with a number of chunks. -/
def archiveInfo (chunkCount : ℕ) : WorldArchiveInfo where
  formatVersion := worldArchiveFormatVersion
  size := T.shape.size
  chunk := T.shape.chunk
  latticeIdentity := T.latticeIdentity
  latticeVersion := T.latticeVersion
  keyLayoutVersion := worldArchiveKeyLayoutVersion
  schemaId := T.id
  schemaVersion := T.version
  libraryMajor := T.library.major
  libraryMinor := T.library.minor
  libraryPatch := T.library.patch
  residency := T.residencyCode
  fieldCount := T.fields.length
  chunkCount := chunkCount

end ArchiveType

/-! ### Saving -/

/-- `WorldArchiveSaveResult`. -/
structure WorldArchiveSaveResult where
  /-- Header of the archive. -/
  info : WorldArchiveInfo
  /-- Bytes that were written. -/
  bytesWritten : ℕ

section Save

variable (T : ArchiveType Value) (w : T.World)

/-- `save_world_archive`: the body. -/
def archiveBody : Option (List UInt8) :=
  let table := T.expectedFieldDescs.foldl (fun body field =>
    appendUnsignedLE (appendUnsignedLE (appendUnsignedLE (appendUnsignedLE body 8 field.id) 4
      field.version) 1 field.kind) 4 field.width) []
  w.archiveChunkKeys.foldlM (fun body key => do
    let column ← w.chunk key
    let body := appendUnsignedLE body 8 key
    let body := appendUnsignedLE body 4 column.activeMask.toNat
    let body := appendUnsignedLE body 4 column.entityCount.toNat
    return appendChunkFields T.fields column.page body) table

/-- `save_world_archive`: the header, with an empty checksum. -/
def archiveHeader (bodySize chunkCount : ℕ) : List UInt8 :=
  let out := worldArchiveMagic
  let out := appendUnsignedLE out 4 worldArchiveFormatVersion
  let out := appendUnsignedLE out 8 bodySize
  let out := appendUnsignedLE out 4 0
  let out := appendUnsignedLE out 8 T.shape.size.x
  let out := appendUnsignedLE out 8 T.shape.size.y
  let out := appendUnsignedLE out 8 T.shape.size.z
  let out := appendUnsignedLE out 8 T.shape.chunk.x
  let out := appendUnsignedLE out 8 T.shape.chunk.y
  let out := appendUnsignedLE out 8 T.shape.chunk.z
  let out := appendUnsignedLE out 4 T.latticeIdentity
  let out := appendUnsignedLE out 4 T.latticeVersion
  let out := appendUnsignedLE out 4 worldArchiveKeyLayoutVersion
  let out := appendUnsignedLE out 8 T.id
  let out := appendUnsignedLE out 4 T.version
  let out := appendUnsignedLE out 4 T.library.major
  let out := appendUnsignedLE out 4 T.library.minor
  let out := appendUnsignedLE out 4 T.library.patch
  let out := appendUnsignedLE out 1 T.residencyCode
  let out := appendUnsignedLE out 4 T.fields.length
  appendUnsignedLE out 8 chunkCount

/-- `save_world_archive`: the checksum goes into its slot. -/
def patchChecksum (out : List UInt8) : List UInt8 :=
  let checksum := archiveCrc32 out
  (List.range worldArchiveChecksumSize).foldl (fun out i =>
    out.set (worldArchiveChecksumOffset + i) (UInt8.ofNat ((checksum >>> (i * 8)) &&& 0xff))) out

/-- `save_world_archive`, with the bytes it leaves in `out`; there are none when their number is
not representable. -/
def saveWorldArchive : Option (List UInt8 × WorldArchiveSaveResult) := do
  let body ← archiveBody T w
  let out := patchChecksum (archiveHeader T body.length w.archiveChunkKeys.length ++ body)
  guard (out.length ≤ sizeMax)
  return (out, ⟨T.archiveInfo w.archiveChunkKeys.length, out.length⟩)

end Save

/-! ### Loading -/

/-- `detail::meta_mark_active`. -/
def metaMarkActive (active mask : BitVec 32) : BitVec 32 :=
  if mask = 0 then active else active ||| mask

/-- `detail::meta_clear_active`. -/
def metaClearActive (active mask : BitVec 32) : BitVec 32 :=
  if mask = 0 then active else active &&& ~~~mask

/-- `World::mark_topology_dirty`. -/
def markTopologyDirty {n : ℕ} (column : ChunkColumn Value n) (mask : BitVec 32) (bounds : Box3) :
    ChunkColumn Value n :=
  if mask = 0 then column
  else { column with
    dirty := column.dirty.metaMarkDirty mask bounds
    topologyVersion := column.topologyVersion + 1 }

/-- `World::mark_topology_rebuilt`. -/
def markTopologyRebuilt {n : ℕ} (column : ChunkColumn Value n) : ChunkColumn Value n :=
  { column with topologyVersion := column.topologyVersion + 1 }

/-- `restore_chunk_metadata`, of the chunk of a key. -/
def restoreChunkMetadata (S : Shape) (key : ℕ) (activeMask entityCount invalidationMask : BitVec 32)
    {n : ℕ} (column : ChunkColumn Value n) : ChunkColumn Value n :=
  let column := { column with
    dirty := column.dirty.metaClearDirty (BitVec.allOnes 32)
    activeMask := metaClearActive column.activeMask (BitVec.allOnes 32) }
  -- the versions survive the reset
  let column := { column with entityCount := entityCount }
  let column := { column with activeMask := metaMarkActive column.activeMask activeMask }
  let bounds : Box3 := ⟨S.coordOf (S.chunkGrid.unrank key) 0, S.chunk⟩
  if invalidationMask ≠ 0 then markTopologyDirty column invalidationMask bounds
  else markTopologyRebuilt { column with dirty := column.dirty.metaMarkContentChanged }

section Load

variable (T : ArchiveType Value)

/-- `load_world_archive`: a failure behind the parser. -/
def ParsedArchive.fail (parsed : ParsedArchive) (status : WorldArchiveStatus) :
    WorldArchiveResult :=
  { parsed.result with status := status, bytesProcessed := 0 }

/-- `load_world_archive`: whether the archive is one of the type, for a world of a capacity. -/
def checkCompatible (capacity : ℕ) (parsed : ParsedArchive) : Outcome WorldArchiveResult Unit := do
  let info := parsed.result.info
  .failWhen (info.size ≠ T.shape.size ∨ info.chunk ≠ T.shape.chunk) (parsed.fail .shapeMismatch)
  .failWhen (info.latticeIdentity ≠ T.latticeIdentity ∨ info.latticeVersion ≠ T.latticeVersion)
    (parsed.fail .latticeMismatch)
  .failWhen (info.keyLayoutVersion ≠ worldArchiveKeyLayoutVersion)
    (parsed.fail .keyLayoutMismatch)
  .failWhen (info.residency ≠ T.residencyCode) (parsed.fail .residencyMismatch)
  .failWhen (info.schemaId ≠ T.id) (parsed.fail .schemaMismatch)
  .failWhen (info.schemaVersion ≠ T.version) (parsed.fail .migrationRequired)
  .failWhen (parsed.fields ≠ T.expectedFieldDescs) (parsed.fail .fieldMismatch)
  match T.residency with
  | .sparseResident =>
    .failWhen (info.chunkCount > capacity) (parsed.fail .residencyCapacityExceeded)
  | .alwaysResident =>
    .failWhen (info.chunkCount ≠ T.shape.chunkCount) (parsed.fail .invalidChunk)

/-- `load_world_archive`: the loop that decodes every record before any is written; the result
has the keys. -/
def preflightChunks (parsed : ParsedArchive) : ℕ → ArchiveCursor →
    Outcome WorldArchiveResult (List ℕ)
  | 0, _ => .ok []
  | n + 1, c => do
    let (key, c) ← .read (readUnsignedLE c 8)
    let (_, c) := skip c (4 * 2)
    let (valid, c) ← .read (validateChunkFields T.shape.localTileCount T.fields c)
    .failWhen (valid = false) (parsed.fail .corrupt)
    let keys ← preflightChunks parsed n c
    return key.getD 0 :: keys

/-- `load_world_archive`, up to the first change of the world. -/
def loadPreflight (capacity : ℕ) (bytes : List UInt8) :
    Outcome WorldArchiveResult (ParsedArchive × List ℕ) := do
  let parsed ← parseWorldArchive bytes
  checkCompatible T capacity parsed
  let rest ← .read (subspan parsed.body parsed.chunksOffset)
  let keys ← preflightChunks T parsed parsed.result.info.chunkCount (.start rest)
  return (parsed, keys)

/-- `load_world_archive`: the loop that writes the chunks; false when a scalar is corrupt. -/
def writeChunks (invalidationMask : BitVec 32) : List ℕ → T.World → ArchiveCursor →
    Option (Bool × T.World)
  | [], w, _ => some (true, w)
  | key :: keys, w, c => do
    let (_, c) ← readUnsignedLE c 8
    let (activeMask, c) ← readUnsignedLE c 4
    let (entityCount, c) ← readUnsignedLE c 4
    let column ← w.chunk key
    let (valid, page, c) ← readChunkFields T.fields column.page c
    let w ← w.setChunk key { column with page := page }
    if valid = false then return (false, w)
    let column ← w.chunk key
    let w ← w.setChunk key (restoreChunkMetadata T.shape key
      (BitVec.ofNat 32 (activeMask.getD 0)) (BitVec.ofNat 32 (entityCount.getD 0))
      invalidationMask column)
    writeChunks invalidationMask keys w c

/-- The chunk that a reset gives a key. -/
def freshColumn (_key : ℕ) : T.Column := { page := fun _ _ => default }

/-- `load_world_archive`: everything behind the preflight. -/
def loadCommit (w : T.World) (parsed : ParsedArchive) (keys : List ℕ)
    (invalidationMask : BitVec 32) : Option (Bool × T.World) := do
  let w ← w.prepareWorldForLoad (freshColumn T) keys
  let rest ← subspan parsed.body parsed.chunksOffset
  writeChunks T invalidationMask keys w (.start rest)

/-- `load_world_archive`, with the world it leaves. -/
def loadWorldArchive (w : T.World) (bytes : List UInt8)
    (invalidationMask : BitVec 32 := BitVec.allOnes 32) : Option (WorldArchiveResult × T.World) :=
  match loadPreflight T w.capacity bytes with
  | .outside => none
  | .failed result => some (result, w)
  | .ok (parsed, keys) => do
    let (valid, w) ← loadCommit T w parsed keys invalidationMask
    if valid = false then return (parsed.fail .corrupt, w)
    return ({ parsed.result with bytesProcessed := bytes.length }, w)

end Load

end Tess
