import Tess.Persistence.ArchiveWorlds

/-!
# Loading is all or nothing

* `archiveContent` : the content of an archive of a type, by chunk records;
* `loadPreflight_iff` : **the preflight accepts exactly the bytes of such contents**;
* `loadCommit_spec` : **what the preflight accepted is written without a failure**.
-/

namespace Tess

open Wire

variable {Tag : Type} [DecidableEq Tag] {Value : Tag → Type} [∀ tag, Inhabited (Value tag)]

/-! ### Contents of an archive of a type -/

/-- What an archive keeps of a chunk. -/
structure ChunkRecord {Tag : Type} (Value : Tag → Type) (n : ℕ) where
  /-- Key of the chunk. -/
  key : ℕ
  /-- Active mask. -/
  activeMask : BitVec 32
  /-- Number of entities. -/
  entityCount : BitVec 32
  /-- Field values, of which only the persisted ones are kept. -/
  page : FieldPage Value n

/-- The record as bytes. -/
def ChunkRecord.toChunk {n : ℕ} (fields : List (PersistedField Value))
    (record : ChunkRecord Value n) : ArchiveChunk :=
  ⟨record.key, record.activeMask.toNat, record.entityCount.toNat, encodePage fields record.page⟩

section Content

variable (T : ArchiveType Value)

/-- The content of an archive with some records, written by some library. -/
def archiveContent (library : LibraryVersion)
    (records : List (ChunkRecord Value T.shape.localTileCount)) : ArchiveContent where
  info := { T.archiveInfo records.length with
    libraryMajor := library.major
    libraryMinor := library.minor
    libraryPatch := library.patch }
  fields := T.expectedFieldDescs
  chunks := records.map (ChunkRecord.toChunk T.fields)

/-- Records that an archive of the type can have. -/
structure Archivable (records : List (ChunkRecord Value T.shape.localTileCount)) : Prop where
  /-- They stand in the order of their keys. -/
  sorted : (records.map ChunkRecord.key).Pairwise (· < ·)
  /-- The keys belong to the shape. -/
  lt : ∀ record ∈ records, record.key < T.shape.chunkCount
  /-- A dense archive has every chunk. -/
  dense : T.residency = .alwaysResident → records.length = T.shape.chunkCount
  /-- The size of the archive is representable. -/
  size : (archiveContent T T.library records).encode.length ≤ sizeMax

variable {T} {library : LibraryVersion}
  {records : List (ChunkRecord Value T.shape.localTileCount)}

omit [DecidableEq Tag] [∀ tag, Inhabited (Value tag)] in
/-- The library does not change the size. -/
theorem length_encode_archiveContent : (archiveContent T library records).encode.length =
    (archiveContent T T.library records).encode.length := by
  rw [ArchiveContent.length_encode, ArchiveContent.length_encode]
  rfl

omit [DecidableEq Tag] [∀ tag, Inhabited (Value tag)] in
theorem expectedFieldDescs_width :
    T.expectedFieldDescs.map ArchiveFieldDesc.width =
      T.fields.map fun field => field.scalar.width := by
  simp [ArchiveType.expectedFieldDescs, Function.comp_def]

omit [DecidableEq Tag] [∀ tag, Inhabited (Value tag)] in
/-- The scalars of a supported type have a valid descriptor. -/
theorem desc_valid (t : ScalarType) (id version : ℕ) :
    (ArchiveFieldDesc.mk id version t.kind.code t.width).Valid := by
  rcases t with w | w | _ | _ | _
  case unsigned | signed =>
    cases w <;> simp [ArchiveFieldDesc.Valid, ScalarType.kind, ScalarType.width,
      ArchiveScalarKind.code, IntegralWidth.bytes]
  all_goals
    simp [ArchiveFieldDesc.Valid, ScalarType.kind, ScalarType.width, ArchiveScalarKind.code]

omit [DecidableEq Tag] [∀ tag, Inhabited (Value tag)] in
/-- A descriptor of a supported type fits. -/
theorem desc_fits (field : PersistedField Value) : FitWidths descWidths
    [field.id, field.version, field.scalar.kind.code, field.scalar.width] := by
  refine .cons field.id_lt (.cons field.version_lt (.cons ?_ (.cons ?_ .nil)))
  · cases field.scalar <;> simp [ScalarType.kind, ArchiveScalarKind.code]
  · rcases field.scalar with w | w | _ | _ | _
    case unsigned | signed => cases w <;> decide
    all_goals decide

omit [DecidableEq Tag] [∀ tag, Inhabited (Value tag)] in
/-- Number of scalar bytes of a chunk. -/
theorem fieldBytes_archiveContent : (archiveContent T library records).fieldBytes =
    T.shape.localTileCount * (T.fields.map fun field => field.scalar.width).sum := by
  rw [ArchiveContent.fieldBytes]
  simp only [archiveContent, expectedFieldDescs_width]
  rfl

omit [DecidableEq Tag] [∀ tag, Inhabited (Value tag)] in
/-- The records of an archive fit and have the scalar bytes of the type. -/
theorem chunk_fits_archiveContent (hlt : ∀ record ∈ records, record.key < T.shape.chunkCount)
    {chunk : ArchiveChunk} (hchunk : chunk ∈ (archiveContent T library records).chunks) :
    FitWidths chunkWidths [chunk.key, chunk.active, chunk.entities] ∧
      chunk.fields.length = (archiveContent T library records).fieldBytes := by
  obtain ⟨record, hrecord, rfl⟩ := List.mem_map.1 hchunk
  have hkey : record.key < 256 ^ 8 := (hlt record hrecord).trans T.shape.chunk_count_fits
  refine ⟨.cons hkey (.cons record.activeMask.isLt (.cons record.entityCount.isLt .nil)), ?_⟩
  rw [fieldBytes_archiveContent, ChunkRecord.toChunk, length_encodePage]

omit [DecidableEq Tag] [∀ tag, Inhabited (Value tag)] in
/-- There are no more records than bytes. -/
theorem Archivable.length_le (h : Archivable T records) : records.length ≤ sizeMax := by
  let A := archiveContent T T.library records
  have hchunks : (A.chunks.flatMap ArchiveChunk.encode).length =
      A.chunks.length * (worldArchiveChunkPrefixSize + A.fieldBytes) :=
    ArchiveContent.length_chunks fun chunk hchunk => chunk_fits_archiveContent h.lt hchunk
  have hbody : A.encode.length = worldArchiveHeaderSize + A.body.length := A.length_encode
  have hsize : A.encode.length ≤ sizeMax := h.size
  have hcount : A.chunks.length = records.length := List.length_map _
  have hle : A.chunks.length ≤ A.chunks.length * (worldArchiveChunkPrefixSize + A.fieldBytes) :=
    Nat.le_mul_of_pos_right _ (Nat.add_pos_left (by decide) _)
  rw [ArchiveContent.body, List.length_append, hchunks] at hbody
  omega

omit [DecidableEq Tag] [∀ tag, Inhabited (Value tag)] in
/-- The header of an archive of the type fits its fields. -/
theorem info_fits_archiveContent (hcount : records.length ≤ sizeMax) :
    FitWidths infoWidths (archiveContent T library records).info.values := by
  obtain ⟨hsx, hsy, hsz⟩ := T.shape.axis_fits
  obtain ⟨hvx, hvy, hvz⟩ := T.shape.size_valid
  obtain ⟨hdx, hdy, hdz⟩ := T.shape.divisible
  have hsize : ∀ {s : ℕ}, s < 2 ^ 63 → s < 256 ^ 8 := fun h => h.trans (by decide)
  have hchunk : ∀ {s k : ℕ}, s < 2 ^ 63 → 0 < s → s % k = 0 → k < 256 ^ 8 := fun hs hpos hmod =>
    hsize ((Nat.le_of_dvd hpos (Nat.dvd_of_mod_eq_zero hmod)).trans_lt hs)
  have hresidency : T.residencyCode < 256 ^ 1 := by
    unfold ArchiveType.residencyCode
    cases T.residency <;> decide
  have hfields : T.fields.length < 256 ^ 4 := T.field_count.trans_lt (by decide)
  have hlayout : worldArchiveKeyLayoutVersion < 256 ^ 4 := by decide
  have hchunks : records.length < 256 ^ 8 := hcount.trans_lt (by decide)
  exact .cons (hsize hsx) <| .cons (hsize hsy) <| .cons (hsize hsz) <|
    .cons (hchunk hsx hvx hdx) <| .cons (hchunk hsy hvy hdy) <| .cons (hchunk hsz hvz hdz) <|
    .cons T.lattice_fits.1 <| .cons T.lattice_fits.2 <| .cons hlayout <|
    .cons T.schema_fits.1 <| .cons T.schema_fits.2 <| .cons library.fits.1 <|
    .cons library.fits.2.1 <| .cons library.fits.2.2 <| .cons hresidency <|
    .cons hfields <| .cons hchunks .nil

omit [DecidableEq Tag] [∀ tag, Inhabited (Value tag)] in
/-- The header of an archive of the type is valid. -/
theorem header_archiveContent : headerValid (archiveContent T library records).info := by
  obtain ⟨hvx, hvy, hvz⟩ := T.shape.size_valid
  obtain ⟨hcx, hcy, hcz⟩ := T.shape.chunk_valid
  refine ⟨T.field_count, ⟨hvx.ne', hvy.ne', hvz.ne'⟩, ⟨hcx.ne', hcy.ne', hcz.ne'⟩,
    T.shape.divisible, ?_⟩
  show T.residencyCode = alwaysResidentCode ∨ T.residencyCode = sparseResidentCode
  unfold ArchiveType.residencyCode
  cases T.residency
  · exact Or.inl rfl
  · exact Or.inr rfl

omit [DecidableEq Tag] [∀ tag, Inhabited (Value tag)] in
/-- The size of a record of the type is representable, since that of a page is. -/
theorem record_size_archiveContent :
    T.shape.localTileCount ≤ sizeMax ∧
      worldArchiveChunkPrefixSize + (archiveContent T library records).fieldBytes ≤ sizeMax ∧
      (T.expectedFieldDescs.map ArchiveFieldDesc.width).sum ≤ sizeMax := by
  have hpage := T.page_fits
  have hlocal : T.shape.localTileCount < 2 ^ 64 := T.shape.local_count_fits
  have hwidths := Nat.le_mul_of_pos_left
    (T.fields.map fun field => field.scalar.width).sum T.shape.localTileCount_pos
  rw [fieldBytes_archiveContent, expectedFieldDescs_width, worldArchiveChunkPrefixSize, sizeMax]
  omega

omit [DecidableEq Tag] [∀ tag, Inhabited (Value tag)] in
/-- The code of the residency policy tells the policy. -/
theorem residency_of_code (h : T.residencyCode = alwaysResidentCode) :
    T.residency = .alwaysResident := by
  unfold ArchiveType.residencyCode at h
  cases hres : T.residency with
  | alwaysResident => rfl
  | sparseResident =>
    rw [hres] at h
    cases h

omit [DecidableEq Tag] [∀ tag, Inhabited (Value tag)] in
/-- **Archivable records have an archive.** -/
theorem Archivable.canonical (h : Archivable T records) :
    (archiveContent T library records).Canonical where
  format := rfl
  info_fits := info_fits_archiveContent h.length_le
  header := header_archiveContent
  field_count := List.length_map _
  field_fits := by
    intro desc hdesc
    obtain ⟨field, -, rfl⟩ := List.mem_map.1 hdesc
    exact desc_fits field
  field_valid := by
    intro desc hdesc
    obtain ⟨field, -, rfl⟩ := List.mem_map.1 hdesc
    exact desc_valid ..
  field_ids := by
    have hids : T.expectedFieldDescs.map ArchiveFieldDesc.id = T.fields.map PersistedField.id := by
      simp [ArchiveType.expectedFieldDescs, Function.comp_def]
    show (T.expectedFieldDescs.map ArchiveFieldDesc.id).Nodup
    rw [hids]
    exact T.unique_ids
  record_size := record_size_archiveContent
  size := by
    rw [length_encode_archiveContent]
    exact h.size
  logical := Nat.le_sub_one_of_lt T.shape.chunk_count_fits
  dense hcode := h.dense (residency_of_code hcode)
  chunk_count := List.length_map _
  chunk_fits _ hchunk := chunk_fits_archiveContent h.lt hchunk
  chunk_lt := by
    intro chunk hchunk
    obtain ⟨record, hrecord, rfl⟩ := List.mem_map.1 hchunk
    exact h.lt record hrecord
  sorted := by
    have hkeys : (archiveContent T library records).chunks.map ArchiveChunk.key =
        records.map ChunkRecord.key := by
      simp [archiveContent, Function.comp_def, ChunkRecord.toChunk]
    rw [hkeys]
    exact h.sorted

end Content

/-! ### The preflight -/

section Preflight

variable {T : ArchiveType Value} {c : ArchiveCursor} {chunk : ArchiveChunk} {r : List UInt8}

/-- The reads before the scalars of a record. -/
theorem exists_chunkPrefix (hfits : FitWidths chunkWidths [chunk.key, chunk.active, chunk.entities])
    (h : c.rest = chunk.encode ++ r) : ∃ c₁ c₂ c₃,
      readUnsignedLE c 8 = some (some chunk.key, c₁) ∧
      readUnsignedLE c₁ 4 = some (some chunk.active, c₂) ∧
      readUnsignedLE c₂ 4 = some (some chunk.entities, c₃) ∧
      skip c₁ (4 * 2) = (true, c₃) ∧ c₃.rest = chunk.fields ++ r := by
  obtain ⟨hkey, hrest⟩ := List.forall₂_cons.1 hfits
  obtain ⟨hactive, hrest⟩ := List.forall₂_cons.1 hrest
  obtain ⟨hentities, -⟩ := List.forall₂_cons.1 hrest
  have hbytes : c.rest = toLE 8 chunk.key ++
      (toLE 4 chunk.active ++ (toLE 4 chunk.entities ++ (chunk.fields ++ r))) := by
    rw [h, ArchiveChunk.encode]
    simp only [chunkWidths, unsigneds, List.append_nil, List.append_assoc]
  obtain ⟨c₁, h₁, hr₁⟩ := Cursor.exists_consumes hbytes
  obtain ⟨c₂, h₂, hr₂⟩ := Cursor.exists_consumes hr₁
  obtain ⟨c₃, h₃, hr₃⟩ := Cursor.exists_consumes hr₂
  exact ⟨c₁, c₂, c₃, readUnsignedLE_iff.2 ⟨hkey, h₁⟩, readUnsignedLE_iff.2 ⟨hactive, h₂⟩,
    readUnsignedLE_iff.2 ⟨hentities, h₃⟩,
    skip_iff.2 ⟨_, by rw [List.length_append, length_toLE, length_toLE], h₂.append h₃⟩, hr₃⟩

/-- **The decoding loop** accepts exactly records whose scalars were written from pages. -/
theorem preflightChunks_iff {parsed : ParsedArchive} {chunks : List ArchiveChunk}
    {keys : List ℕ} {fieldBytes : ℕ}
    (hwidth : fieldBytes =
      T.shape.localTileCount * (T.fields.map fun field => field.scalar.width).sum)
    (hfit : ∀ chunk ∈ chunks, FitWidths chunkWidths [chunk.key, chunk.active, chunk.entities] ∧
      chunk.fields.length = fieldBytes)
    (h : c.rest = chunks.flatMap ArchiveChunk.encode ++ r) :
    preflightChunks T parsed chunks.length c = .ok keys ↔
      keys = chunks.map ArchiveChunk.key ∧
        ∀ chunk ∈ chunks, ∃ page : FieldPage Value T.shape.localTileCount,
          chunk.fields = encodePage T.fields page := by
  induction chunks generalizing c keys with
  | nil =>
    simp only [List.length_nil, preflightChunks, Outcome.ok.injEq]
    constructor
    · rintro rfl
      exact ⟨rfl, by simp⟩
    · rintro ⟨rfl, -⟩
      rfl
  | cons chunk chunks ih =>
    obtain ⟨hfits, hlen⟩ := hfit chunk List.mem_cons_self
    rw [List.flatMap_cons, List.append_assoc] at h
    obtain ⟨c₁, -, c₃, hkey, -, -, hskip, hr₃⟩ := exists_chunkPrefix hfits h
    obtain ⟨⟨valid, c₄⟩, hvalid⟩ := exists_validateChunkFields T.fields T.shape.localTileCount c₃
    -- bytes that validation consumes are the scalars of the record
    have hscalars : ∀ {page : FieldPage Value T.shape.localTileCount} {c' : ArchiveCursor},
        c₃.Consumes (encodePage T.fields page) c' → chunk.fields = encodePage T.fields page ∧
          c'.rest = chunks.flatMap ArchiveChunk.encode ++ r := by
      intro page c' hc
      have hsplit := hr₃.symm.trans hc.rest
      exact List.append_inj hsplit (by rw [hlen, hwidth, length_encodePage]) |>.imp_right Eq.symm
    have hfit' : ∀ chunk ∈ chunks, FitWidths chunkWidths [chunk.key, chunk.active, chunk.entities] ∧
        chunk.fields.length = fieldBytes := fun ch hch => hfit ch (List.mem_cons_of_mem _ hch)
    simp only [List.length_cons, preflightChunks, hkey, hskip, hvalid, Outcome.read,
      Outcome.ok_bind, Outcome.bind_eq_ok, Outcome.failWhen_eq_ok, exists_const, Outcome.pure_eq,
      Outcome.ok.injEq, Option.getD_some]
    constructor
    · rintro ⟨htrue, keys', hrun, rfl⟩
      obtain rfl : valid = true := by simpa using htrue
      obtain ⟨page, hpage⟩ := (validateChunkFields_iff T.unique_tags).1 hvalid
      obtain ⟨hfields, hr₄⟩ := hscalars hpage
      obtain ⟨rfl, hall⟩ := (ih hfit' hr₄).1 hrun
      refine ⟨rfl, fun ch hch => ?_⟩
      rcases List.mem_cons.1 hch with rfl | hch
      · exact ⟨page, hfields⟩
      · exact hall ch hch
    · rintro ⟨rfl, hall⟩
      obtain ⟨page, hpage⟩ := hall chunk List.mem_cons_self
      obtain ⟨c', hc', -⟩ := Cursor.exists_consumes (hpage ▸ hr₃)
      have haccept := (validateChunkFields_iff T.unique_tags).2 ⟨page, hc'⟩
      rw [hvalid] at haccept
      obtain ⟨rfl, rfl⟩ := Prod.mk.inj (Option.some.inj haccept)
      exact ⟨by simp, _, (ih hfit' (hscalars hc').2).2 ⟨rfl, fun ch hch =>
        hall ch (List.mem_cons_of_mem _ hch)⟩, rfl⟩

/-- A check behind the parser whose failure is no success. -/
theorem within_fail {p : Prop} [Decidable p] {parsed : ParsedArchive} {status : WorldArchiveStatus}
    (h : status ≠ .ok) :
    (Outcome.failWhen p (parsed.fail status)).Within Refused :=
  Outcome.within_failWhen h

omit [DecidableEq Tag] [∀ tag, Inhabited (Value tag)] in
theorem within_preflightChunks (parsed : ParsedArchive) (n : ℕ) (c : ArchiveCursor) :
    (preflightChunks T parsed n c).Within Refused := by
  induction n generalizing c with
  | zero => exact Outcome.within_ok
  | succ n ih =>
    obtain ⟨r, hr, -⟩ := exists_readUnsignedLE c 8
    refine (Outcome.within_read hr).bind fun a _ => ?_
    obtain ⟨r', hr'⟩ :=
      exists_validateChunkFields T.fields T.shape.localTileCount (skip a.2 (4 * 2)).2
    exact (Outcome.within_read hr').bind fun _ _ => (within_fail (by decide)).bind fun _ _ =>
      (ih _).bind fun _ _ => Outcome.within_ok

omit [DecidableEq Tag] [∀ tag, Inhabited (Value tag)] in
/-- **The archive is one of the type.** -/
theorem checkCompatible_iff {capacity : ℕ} {parsed : ParsedArchive} {u : Unit} :
    checkCompatible T capacity parsed = .ok u ↔
      parsed.result.info.size = T.shape.size ∧ parsed.result.info.chunk = T.shape.chunk ∧
      parsed.result.info.latticeIdentity = T.latticeIdentity ∧
      parsed.result.info.latticeVersion = T.latticeVersion ∧
      parsed.result.info.keyLayoutVersion = worldArchiveKeyLayoutVersion ∧
      parsed.result.info.residency = T.residencyCode ∧
      parsed.result.info.schemaId = T.id ∧ parsed.result.info.schemaVersion = T.version ∧
      parsed.fields = T.expectedFieldDescs ∧
      (T.residency = .sparseResident → parsed.result.info.chunkCount ≤ capacity) ∧
      (T.residency = .alwaysResident →
        parsed.result.info.chunkCount = T.shape.chunkCount) := by
  simp only [checkCompatible, Outcome.bind_eq_ok, Outcome.failWhen_eq_ok, exists_const, not_or,
    not_not]
  cases hres : T.residency <;> simp [and_assoc]

omit [DecidableEq Tag] [∀ tag, Inhabited (Value tag)] in
/-- Records whose scalars were written from pages. -/
theorem exists_records {chunks : List ArchiveChunk}
    (hfit : ∀ chunk ∈ chunks, FitWidths chunkWidths [chunk.key, chunk.active, chunk.entities])
    (hpage : ∀ chunk ∈ chunks, ∃ page : FieldPage Value T.shape.localTileCount,
      chunk.fields = encodePage T.fields page) :
    ∃ records : List (ChunkRecord Value T.shape.localTileCount),
      chunks = records.map (ChunkRecord.toChunk T.fields) := by
  induction chunks with
  | nil => exact ⟨[], rfl⟩
  | cons chunk chunks ih =>
    obtain ⟨records, rfl⟩ := ih (fun ch hch => hfit ch (List.mem_cons_of_mem _ hch))
      fun ch hch => hpage ch (List.mem_cons_of_mem _ hch)
    obtain ⟨page, hp⟩ := hpage chunk List.mem_cons_self
    obtain ⟨-, hrest⟩ := List.forall₂_cons.1 (hfit chunk List.mem_cons_self)
    obtain ⟨hactive, hrest⟩ := List.forall₂_cons.1 hrest
    obtain ⟨hentities, -⟩ := List.forall₂_cons.1 hrest
    refine ⟨⟨chunk.key, BitVec.ofNat 32 chunk.active, BitVec.ofNat 32 chunk.entities, page⟩ ::
      records, ?_⟩
    have hactive' : chunk.active % 2 ^ 32 = chunk.active := Nat.mod_eq_of_lt hactive
    have hentities' : chunk.entities % 2 ^ 32 = chunk.entities := Nat.mod_eq_of_lt hentities
    rw [List.map_cons, ChunkRecord.toChunk, BitVec.toNat_ofNat, BitVec.toNat_ofNat, hactive',
      hentities', ← hp]

/-- **The preflight** accepts exactly the archives of the type that the world can hold. -/
theorem loadPreflight_iff {capacity : ℕ} {bytes : List UInt8} {parsed : ParsedArchive}
    {keys : List ℕ} : loadPreflight T capacity bytes = .ok (parsed, keys) ↔
      ∃ (library : LibraryVersion) (records : List (ChunkRecord Value T.shape.localTileCount)),
        Archivable T records ∧
        (T.residency = .sparseResident → records.length ≤ capacity) ∧
        bytes = (archiveContent T library records).encode ∧
        parsed = (archiveContent T library records).parsed ∧
        keys = records.map ChunkRecord.key := by
  have hbody : ∀ A : ArchiveContent, subspan A.parsed.body A.parsed.chunksOffset =
      some (A.chunks.flatMap ArchiveChunk.encode) := by
    intro A
    have hle : A.table.length ≤ A.body.length := by
      rw [ArchiveContent.body, List.length_append]
      exact Nat.le_add_right _ _
    simp only [ArchiveContent.parsed]
    rw [subspan, if_pos hle, ArchiveContent.body, List.drop_left]
  simp only [loadPreflight, Outcome.bind_eq_ok, Outcome.read_eq_ok, Outcome.pure_eq,
    Outcome.ok.injEq, Prod.mk.injEq]
  constructor
  · rintro ⟨p, hparse, u, hcompat, rest, hrest, keys', hpre, rfl, rfl⟩
    obtain ⟨A, hA, rfl, rfl⟩ := parseWorldArchive_iff.1 hparse
    rw [hbody A, Option.some.injEq] at hrest
    subst hrest
    obtain ⟨hsize, hchunk, hlattice, hlatver, hlayout, hres, hschema, hschemaver, hfields,
      hsparse, hdense⟩ := checkCompatible_iff.1 hcompat
    simp only [ArchiveContent.parsed] at hsize hchunk hlattice hlatver hlayout hres hschema
    simp only [ArchiveContent.parsed] at hschemaver hfields hsparse hdense
    have hcount := hA.chunk_count
    have hlocal : A.info.localTiles = T.shape.localTileCount := by
      rw [WorldArchiveInfo.localTiles, hchunk]
      rfl
    have hlogical : A.info.logicalChunks = T.shape.chunkCount := by
      rw [WorldArchiveInfo.logicalChunks, hchunk, hsize]
      rfl
    have hwidth : A.fieldBytes =
        T.shape.localTileCount * (T.fields.map fun field => field.scalar.width).sum := by
      rw [ArchiveContent.fieldBytes, hlocal, hfields, expectedFieldDescs_width]
    have hstart : (Cursor.start (A.chunks.flatMap ArchiveChunk.encode)).rest =
        A.chunks.flatMap ArchiveChunk.encode ++ [] := by
      rw [Cursor.rest_start, List.append_nil]
    simp only [ArchiveContent.parsed, ← hcount] at hpre
    obtain ⟨rfl, hpages⟩ := (preflightChunks_iff hwidth hA.chunk_fits hstart).1 hpre
    obtain ⟨records, hrecords⟩ :=
      exists_records (fun chunk hch => (hA.chunk_fits chunk hch).1) hpages
    have hlength : records.length = A.chunks.length := by rw [hrecords, List.length_map]
    have hlibrary := (List.forall₂_iff_get.1 hA.info_fits).2
    let library : LibraryVersion :=
      ⟨A.info.libraryMajor, A.info.libraryMinor, A.info.libraryPatch,
        hlibrary 11 (by decide) (by simp [WorldArchiveInfo.values]),
        hlibrary 12 (by decide) (by simp [WorldArchiveInfo.values]),
        hlibrary 13 (by decide) (by simp [WorldArchiveInfo.values])⟩
    have hfieldCount : A.info.fieldCount = T.fields.length := by
      rw [← hA.field_count, hfields, ArchiveType.expectedFieldDescs, List.length_map]
    have hchunkCount : A.info.chunkCount = records.length := by rw [← hcount, hlength]
    have hinfo : A.info = (archiveContent T library records).info :=
      WorldArchiveInfo.ext hA.format hsize hchunk hlattice hlatver hlayout hschema hschemaver rfl
        rfl rfl hres hfieldCount hchunkCount
    have hcontent : A = archiveContent T library records := by
      obtain ⟨info, fields, chunks⟩ := A
      rw [archiveContent]
      exact congr (congr (congrArg _ hinfo) hfields) hrecords
    have hkeys : A.chunks.map ArchiveChunk.key = records.map ChunkRecord.key := by
      rw [hrecords, List.map_map]
      rfl
    refine ⟨library, records, ⟨hkeys ▸ hA.sorted, fun record hrecord => ?_, fun hd => ?_, ?_⟩,
      fun hs => hchunkCount ▸ hsparse hs, by rw [← hcontent], by rw [← hcontent], hkeys⟩
    · have hmem : record.toChunk T.fields ∈ A.chunks := hrecords ▸ List.mem_map_of_mem hrecord
      exact hlogical ▸ hA.chunk_lt _ hmem
    · exact hchunkCount ▸ hdense hd
    · have hmax := hA.size
      rwa [hcontent, length_encode_archiveContent] at hmax
  · rintro ⟨library, records, harch, hcap, rfl, rfl, rfl⟩
    have hA : (archiveContent T library records).Canonical := harch.canonical
    have hlength : (archiveContent T library records).chunks.length = records.length :=
      List.length_map _
    have hkeys : (archiveContent T library records).chunks.map ArchiveChunk.key =
        records.map ChunkRecord.key := by
      rw [archiveContent, List.map_map]
      rfl
    have hpages : ∀ chunk ∈ (archiveContent T library records).chunks,
        ∃ page : FieldPage Value T.shape.localTileCount,
          chunk.fields = encodePage T.fields page := by
      intro chunk hchunk
      obtain ⟨record, -, rfl⟩ := List.mem_map.1 hchunk
      exact ⟨record.page, rfl⟩
    refine ⟨_, parseWorldArchive_iff.2 ⟨_, hA, rfl, rfl⟩, (), checkCompatible_iff.2
      ⟨rfl, rfl, rfl, rfl, rfl, rfl, rfl, rfl, rfl, hcap, harch.dense⟩, _, hbody _, _, ?_, rfl, rfl⟩
    rw [← hkeys]
    have hpre : preflightChunks T (archiveContent T library records).parsed
        (archiveContent T library records).chunks.length
        (.start ((archiveContent T library records).chunks.flatMap ArchiveChunk.encode)) =
          .ok ((archiveContent T library records).chunks.map ArchiveChunk.key) :=
      (preflightChunks_iff fieldBytes_archiveContent hA.chunk_fits (r := [])
        (by rw [Cursor.rest_start, List.append_nil])).2 ⟨rfl, hpages⟩
    rw [hlength] at hpre
    exact hpre

omit [DecidableEq Tag] [∀ tag, Inhabited (Value tag)] in
/-- **The preflight never reads outside the span**, and reports no success when it fails. -/
theorem within_loadPreflight (capacity : ℕ) (bytes : List UInt8) :
    (loadPreflight T capacity bytes).Within Refused := by
  refine (within_parseWorldArchive bytes).bind fun parsed hparse => ?_
  obtain ⟨A, -, -, rfl⟩ := parseWorldArchive_iff.1 hparse
  have hle : A.parsed.chunksOffset ≤ A.parsed.body.length := by
    simp only [ArchiveContent.parsed, ArchiveContent.body, List.length_append]
    exact Nat.le_add_right _ _
  have hcompat : (checkCompatible T capacity A.parsed).Within Refused := by
    refine (within_fail (by decide)).bind fun _ _ => (within_fail (by decide)).bind fun _ _ =>
      (within_fail (by decide)).bind fun _ _ => (within_fail (by decide)).bind fun _ _ =>
      (within_fail (by decide)).bind fun _ _ => (within_fail (by decide)).bind fun _ _ =>
      (within_fail (by decide)).bind fun _ _ => ?_
    cases T.residency <;> exact within_fail (by decide)
  exact hcompat.bind fun _ _ => (Outcome.within_read (if_pos hle)).bind fun _ _ =>
    (within_preflightChunks _ _ _).bind fun _ _ => Outcome.within_ok

end Preflight

end Tess
