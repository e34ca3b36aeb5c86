import Tess.Persistence.ArchiveLoad

/-!
# Saving and loading are inverse

* `saveWorldArchive_eq` : **a save writes the content of the world**;
* `load_of_content` : **a load of a content leaves a world that keeps it**;
* `load_atomic` : a load that reports anything but success changes nothing, and what the
  preflight accepted is written completely;
* `archive_round_trip` : loading what was saved restores the world, and saving what was loaded
  gives the bytes back.
-/

namespace Tess

open Wire

variable {Tag : Type} [DecidableEq Tag] {Value : Tag → Type} [∀ tag, Inhabited (Value tag)]
  {T : ArchiveType Value}

/-! ### Saving -/

section Save

/-- What an archive keeps of the chunk of a key. -/
def recordOf {n : ℕ} (key : ℕ) (column : ChunkColumn Value n) : ChunkRecord Value n :=
  ⟨key, column.activeMask, column.entityCount, column.page⟩

/-- What an archive keeps of a world. -/
def worldRecords (w : T.World) : List (ChunkRecord Value T.shape.localTileCount) :=
  w.archiveChunkKeys.filterMap fun key => (w.chunk key).map (recordOf key)

variable {w : T.World}

omit [DecidableEq Tag] [∀ tag, Inhabited (Value tag)] in
/-- Every resident chunk has its record. -/
theorem worldRecords_keys (h : w.Valid) :
    (worldRecords w).map ChunkRecord.key = w.archiveChunkKeys := by
  have hall : ∀ keys : List ℕ, (∀ key ∈ keys, key ∈ w.archiveChunkKeys) →
      (keys.filterMap fun key => (w.chunk key).map (recordOf key)).map ChunkRecord.key = keys := by
    intro keys
    induction keys with
    | nil => exact fun _ => rfl
    | cons key keys ih =>
      intro hkeys
      obtain ⟨column, hc⟩ := h.chunk_iff.2 (hkeys key List.mem_cons_self)
      rw [List.filterMap_cons_some (by rw [hc, Option.map_some]), List.map_cons,
        ih fun k hk => hkeys k (List.mem_cons_of_mem _ hk)]
      rfl
  exact hall _ fun _ hk => hk

omit [DecidableEq Tag] [∀ tag, Inhabited (Value tag)] in
theorem mem_worldRecords {record : ChunkRecord Value T.shape.localTileCount} (h : w.Valid) :
    record ∈ worldRecords w ↔
      ∃ column, w.chunk record.key = some column ∧ record = recordOf record.key column := by
  simp only [worldRecords, List.mem_filterMap, Option.map_eq_some_iff]
  constructor
  · rintro ⟨key, -, column, hc, rfl⟩
    exact ⟨column, hc, rfl⟩
  · rintro ⟨column, hc, hr⟩
    exact ⟨record.key, h.chunk_iff.1 ⟨column, hc⟩, column, hc, hr.symm⟩

omit [DecidableEq Tag] [∀ tag, Inhabited (Value tag)] in
/-- The body of an archive is that of the content. -/
theorem archiveBody_eq (h : w.Valid) :
    archiveBody T w = some (archiveContent T T.library (worldRecords w)).body := by
  have htable : ∀ (descs : List ArchiveFieldDesc) (out : List UInt8), descs.foldl
      (fun body field => appendUnsignedLE (appendUnsignedLE (appendUnsignedLE (appendUnsignedLE
        body 8 field.id) 4 field.version) 1 field.kind) 4 field.width) out =
          out ++ descs.flatMap ArchiveFieldDesc.encode := by
    intro descs
    induction descs with
    | nil => simp
    | cons field descs ih =>
      intro out
      rw [List.foldl_cons, ih, List.flatMap_cons]
      simp only [appendUnsignedLE_eq, ArchiveFieldDesc.encode, descWidths, unsigneds,
        List.append_assoc, List.nil_append]
  have hchunks : ∀ (keys : List ℕ) (out : List UInt8), (∀ key ∈ keys, key ∈ w.archiveChunkKeys) →
      keys.foldlM (fun body key => do
        let column ← w.chunk key
        let body := appendUnsignedLE body 8 key
        let body := appendUnsignedLE body 4 column.activeMask.toNat
        let body := appendUnsignedLE body 4 column.entityCount.toNat
        return appendChunkFields T.fields column.page body) out =
          some (out ++ ((keys.filterMap fun key => (w.chunk key).map (recordOf key)).map
            (ChunkRecord.toChunk T.fields)).flatMap ArchiveChunk.encode) := by
    intro keys
    induction keys with
    | nil => simp
    | cons key keys ih =>
      intro out hkeys
      obtain ⟨column, hc⟩ := h.chunk_iff.2 (hkeys key List.mem_cons_self)
      rw [List.foldlM_cons, List.filterMap_cons_some (by rw [hc, Option.map_some]), List.map_cons,
        List.flatMap_cons]
      rw [hc]
      refine (ih _ fun k hk => hkeys k (List.mem_cons_of_mem _ hk)).trans ?_
      simp only [appendUnsignedLE_eq, appendChunkFields_eq, ChunkRecord.toChunk, recordOf,
        ArchiveChunk.encode, chunkWidths, unsigneds, List.append_assoc, List.nil_append]
  rw [archiveBody, htable, List.nil_append, hchunks _ _ fun _ hk => hk]
  rfl

omit [DecidableEq Tag] [∀ tag, Inhabited (Value tag)] in
/-- The header of an archive, before its checksum is known. -/
theorem archiveHeader_eq (bodySize chunkCount : ℕ) : archiveHeader T bodySize chunkCount =
    worldArchiveMagic ++ toLE 4 worldArchiveFormatVersion ++ toLE 8 bodySize ++ toLE 4 0 ++
      unsigneds infoWidths (T.archiveInfo chunkCount).values := by
  simp only [archiveHeader, appendUnsignedLE_eq, infoWidths, WorldArchiveInfo.values, unsigneds,
    ArchiveType.archiveInfo, List.append_assoc, List.append_nil]

/-- The bytes of a number, by their positions. -/
theorem map_range_eq_toLE (w v : ℕ) :
    (List.range w).map (fun i => UInt8.ofNat ((v >>> (i * 8)) &&& 0xff)) = toLE w v := by
  induction w with
  | zero => rfl
  | succ w ih =>
    rw [List.range_succ, List.map_append, ih, toLE_add w 1, List.map_singleton, shiftRight_and_eq]
    rfl

/-- Writing a slot byte by byte. -/
theorem foldl_set_slot (f : ℕ → UInt8) (front slot back : List UInt8) :
    (List.range slot.length).foldl (fun out i => out.set (front.length + i) (f i))
      (front ++ slot ++ back) = front ++ (List.range slot.length).map f ++ back := by
  have hloop : ∀ k, k ≤ slot.length → (List.range k).foldl
      (fun out i => out.set (front.length + i) (f i)) (front ++ slot ++ back) =
        front ++ ((List.range k).map f ++ slot.drop k) ++ back := by
    intro k
    induction k with
    | zero => simp
    | succ k ih =>
      intro hk
      have hlen : ((List.range k).map f).length = k := by simp
      rw [List.range_succ, List.foldl_append, ih (by omega), List.foldl_cons, List.foldl_nil,
        List.append_assoc, List.set_append_right _ _ (Nat.le_add_right _ _),
        Nat.add_sub_cancel_left, List.append_assoc, List.set_append_right _ _ (by rw [hlen]),
        hlen, Nat.sub_self, List.drop_eq_getElem_cons hk]
      simp only [List.cons_append, List.set_cons_zero, List.map_append, List.map_cons,
        List.map_nil, List.append_assoc, List.nil_append]
  rw [hloop _ le_rfl, List.drop_length, List.append_nil]

omit [DecidableEq Tag] [∀ tag, Inhabited (Value tag)] in
/-- **A save** writes the content of the world, if its size is representable. -/
theorem saveWorldArchive_eq (h : w.Valid) : saveWorldArchive T w =
    if (archiveContent T T.library (worldRecords w)).encode.length ≤ sizeMax then
      some ((archiveContent T T.library (worldRecords w)).encode,
        ⟨T.archiveInfo w.archiveChunkKeys.length,
          (archiveContent T T.library (worldRecords w)).encode.length⟩)
    else none := by
  let A := archiveContent T T.library (worldRecords w)
  have hcount : w.archiveChunkKeys.length = (worldRecords w).length := by
    rw [← worldRecords_keys h, List.length_map]
  have hout : archiveHeader T A.body.length w.archiveChunkKeys.length ++ A.body =
      A.front ++ toLE 4 0 ++ A.back := by
    rw [archiveHeader_eq, hcount, ArchiveContent.front, ArchiveContent.back]
    simp only [List.append_assoc]
    rfl
  have hpatch : patchChecksum (A.front ++ toLE 4 0 ++ A.back) = A.encode := by
    have hslot := foldl_set_slot
      (fun i => UInt8.ofNat ((A.checksum >>> (i * 8)) &&& 0xff)) A.front (toLE 4 0) A.back
    have hcrc : archiveCrc32 (A.front ++ toLE 4 0 ++ A.back) = A.checksum :=
      archiveCrc32_append A.length_front (length_toLE _ _)
    rw [length_toLE, A.length_front, map_range_eq_toLE] at hslot
    rw [patchChecksum, hcrc]
    exact hslot
  have hsave : saveWorldArchive T w = (do
      guard (A.encode.length ≤ sizeMax)
      return (A.encode, ⟨T.archiveInfo w.archiveChunkKeys.length, A.encode.length⟩)) := by
    rw [saveWorldArchive, archiveBody_eq h]
    simp only [Option.bind_eq_bind, Option.bind_some]
    rw [show (archiveContent T T.library (worldRecords w)) = A from rfl, hout, hpatch]
  rw [hsave]
  split_ifs with hsize
  · simp [guard, show A.encode.length ≤ sizeMax from hsize]
    exact ⟨rfl, rfl⟩
  · simp [guard, show ¬ A.encode.length ≤ sizeMax from hsize]

omit [DecidableEq Tag] [∀ tag, Inhabited (Value tag)] in
/-- A world whose archive has a representable size has an archive. -/
theorem archivable_worldRecords (h : w.Valid)
    (hsize : (archiveContent T T.library (worldRecords w)).encode.length ≤ sizeMax) :
    Archivable T (worldRecords w) where
  sorted := by
    rw [worldRecords_keys h]
    exact h.sorted
  lt record hrecord := by
    refine h.lt ?_
    rw [← worldRecords_keys h]
    exact List.mem_map_of_mem hrecord
  dense hdense := by
    rw [← List.length_map, worldRecords_keys h]
    exact ArchiveWorld.length_archiveChunkKeys hdense
  size := hsize

end Save

/-! ### Loading -/

section Load

variable {w w' : T.World} {c : ArchiveCursor} {r : List UInt8}
  {records : List (ChunkRecord Value T.shape.localTileCount)}

/-- The chunk has what the record keeps. -/
structure Restored {n : ℕ} (fields : List (PersistedField Value)) (record : ChunkRecord Value n)
    (column : ChunkColumn Value n) : Prop where
  /-- The persisted fields agree. -/
  page : ∀ field ∈ fields, column.page field.tag = record.page field.tag
  /-- The active mask is the same. -/
  active : column.activeMask = record.activeMask
  /-- The entity count is the same. -/
  entities : column.entityCount = record.entityCount

omit [DecidableEq Tag] [∀ tag, Inhabited (Value tag)] in
/-- A chunk whose metadata were restored has the active mask and the entity count. -/
theorem restoreChunkMetadata_spec (S : Shape) (key : ℕ) (active entities mask : BitVec 32)
    {n : ℕ} (column : ChunkColumn Value n) :
    (restoreChunkMetadata S key active entities mask column).page = column.page ∧
      (restoreChunkMetadata S key active entities mask column).activeMask = active ∧
      (restoreChunkMetadata S key active entities mask column).entityCount = entities := by
  have hclear : metaClearActive column.activeMask (BitVec.allOnes 32) = 0 := by
    rw [metaClearActive, if_neg (by decide), BitVec.not_allOnes]
    exact BitVec.and_zero
  have hmark : metaMarkActive 0 active = active := by
    unfold metaMarkActive
    split_ifs with h
    · exact h.symm
    · exact BitVec.zero_or
  unfold restoreChunkMetadata markTopologyDirty markTopologyRebuilt
  simp only [hclear, hmark]
  split_ifs <;> exact ⟨rfl, rfl, rfl⟩

omit [∀ tag, Inhabited (Value tag)] in
/-- **The write loop** writes every record that it is given, and no other chunk. -/
theorem writeChunks_spec (h : w.Valid) (mask : BitVec 32)
    (hkeys : ∀ record ∈ records, record.key ∈ w.archiveChunkKeys)
    (hnodup : (records.map ChunkRecord.key).Nodup)
    (hrest : c.rest = (records.map (ChunkRecord.toChunk T.fields)).flatMap ArchiveChunk.encode ++ r) :
    ∃ w', writeChunks T mask (records.map ChunkRecord.key) w c = some (true, w') ∧ w'.Valid ∧
      w'.archiveChunkKeys = w.archiveChunkKeys ∧
      (∀ record ∈ records, ∃ column, w'.chunk record.key = some column ∧
        Restored T.fields record column) ∧
      ∀ key ∉ records.map ChunkRecord.key, w'.chunk key = w.chunk key := by
  induction records generalizing w c with
  | nil => exact ⟨w, rfl, h, rfl, by simp, fun _ _ => rfl⟩
  | cons record records ih =>
    obtain ⟨hnew, hnodup'⟩ := List.nodup_cons.1 hnodup
    have hmem := hkeys record List.mem_cons_self
    obtain ⟨column, hcolumn⟩ := h.chunk_iff.2 hmem
    have hfits : FitWidths chunkWidths [record.key, record.activeMask.toNat,
        record.entityCount.toNat] :=
      .cons ((h.lt hmem).trans T.shape.chunk_count_fits)
        (.cons record.activeMask.isLt (.cons record.entityCount.isLt .nil))
    rw [List.map_cons, List.flatMap_cons, List.append_assoc] at hrest
    obtain ⟨c₁, c₂, c₃, hkey, hactive, hentities, -, hr₃⟩ := exists_chunkPrefix hfits hrest
    obtain ⟨c₄, hc₄, hr₄⟩ := Cursor.exists_consumes hr₃
    have hread := readChunkFields_of_consumes column.page T.unique_tags hc₄
    -- the scalars first, then the metadata
    let filled : T.Column := { column with page := overlayPage T.fields record.page column.page }
    let restored : T.Column := restoreChunkMetadata T.shape record.key
      (BitVec.ofNat 32 record.activeMask.toNat) (BitVec.ofNat 32 record.entityCount.toNat) mask
      filled
    obtain ⟨w₁, hset₁, h₁, hkeys₁, hchunk₁⟩ := h.setChunk hmem filled
    obtain ⟨w₂, hset₂, h₂, hkeys₂, hchunk₂⟩ := h₁.setChunk (hkeys₁ ▸ hmem) restored
    have hsame := hkeys₂.trans hkeys₁
    obtain ⟨w', hrun, h', hkeys', hrestored, hother⟩ := ih h₂
      (fun rec hrec => hsame ▸ hkeys rec (List.mem_cons_of_mem _ hrec)) hnodup' hr₄
    have hfirst : w'.chunk record.key = some restored := by
      rw [hother _ hnew, hchunk₂, if_pos rfl]
    refine ⟨w', ?_, h', hkeys'.trans hsame, fun rec hrec => ?_, fun key hkey' => ?_⟩
    · have hfilled : w₁.chunk record.key = some filled := by rw [hchunk₁, if_pos rfl]
      simp only [List.map_cons, writeChunks, hkey, hactive, hentities, hcolumn, hread,
        ChunkRecord.toChunk, Option.bind_eq_bind, Option.bind_some, Option.getD_some]
      rw [hset₁]
      simp only [Option.bind_some, hfilled]
      rw [hset₂]
      exact hrun
    · rcases List.mem_cons.1 hrec with rfl | hrec
      · obtain ⟨hpage, hactive', hentities'⟩ := restoreChunkMetadata_spec T.shape rec.key
          (BitVec.ofNat 32 rec.activeMask.toNat) (BitVec.ofNat 32 rec.entityCount.toNat) mask filled
        refine ⟨restored, hfirst, fun field hfield => ?_, ?_, ?_⟩
        · rw [hpage]
          exact if_pos (List.mem_map_of_mem hfield)
        · rw [hactive', BitVec.ofNat_toNat, BitVec.setWidth_eq]
        · rw [hentities', BitVec.ofNat_toNat, BitVec.setWidth_eq]
      · exact hrestored rec hrec
    · obtain ⟨hne, hkey'⟩ := not_or.1 (List.mem_cons.not.1 hkey')
      rw [hother key hkey', hchunk₂, if_neg hne, hchunk₁, if_neg hne]

/-- The parts of a load that has its content. -/
theorem loadCommit_spec (h : w.Valid) (harch : Archivable T records)
    (hcap : T.residency = .sparseResident → records.length ≤ w.capacity)
    (library : LibraryVersion) (mask : BitVec 32) :
    ∃ w', loadCommit T w (archiveContent T library records).parsed
        (records.map ChunkRecord.key) mask = some (true, w') ∧ w'.Valid ∧
      w'.archiveChunkKeys = records.map ChunkRecord.key ∧
      ∀ record ∈ records, ∃ column, w'.chunk record.key = some column ∧
        Restored T.fields record column := by
  let A := archiveContent T library records
  have hroom : (records.map ChunkRecord.key).length ≤ w.capacity := by
    rw [List.length_map]
    exact ArchiveWorld.le_capacity hcap harch.dense
  obtain ⟨w₁, hprepare, h₁, hkeys₁⟩ := h.prepareWorldForLoad (freshColumn T) harch.sorted
    (by
      intro key hkey
      obtain ⟨record, hrecord, rfl⟩ := List.mem_map.1 hkey
      exact harch.lt record hrecord)
    hroom fun hdense => (List.length_map _).trans (harch.dense hdense)
  have hbody : subspan A.parsed.body A.parsed.chunksOffset =
      some (A.chunks.flatMap ArchiveChunk.encode) := by
    have hle : A.table.length ≤ A.body.length := by
      rw [ArchiveContent.body, List.length_append]
      exact Nat.le_add_right _ _
    simp only [ArchiveContent.parsed]
    rw [subspan, if_pos hle, ArchiveContent.body, List.drop_left]
  obtain ⟨w', hrun, h', hkeys', hrestored, -⟩ := writeChunks_spec h₁ mask
    (c := .start (A.chunks.flatMap ArchiveChunk.encode)) (r := [])
    (fun record hrecord => hkeys₁ ▸ List.mem_map_of_mem hrecord)
    (harch.sorted.imp fun hlt => hlt.ne) (by rw [Cursor.rest_start, List.append_nil]; rfl)
  refine ⟨w', ?_, h', hkeys'.trans hkeys₁, hrestored⟩
  simp only [loadCommit, Option.bind_eq_bind]
  rw [hprepare]
  simp only [Option.bind_some]
  rw [show (archiveContent T library records) = A from rfl, hbody]
  exact hrun

/-- **A load of a content** leaves a world that keeps it. -/
theorem load_of_content (h : w.Valid) (harch : Archivable T records)
    (hcap : T.residency = .sparseResident → records.length ≤ w.capacity)
    (library : LibraryVersion) (mask : BitVec 32) :
    ∃ w', loadWorldArchive T w (archiveContent T library records).encode mask =
        some (⟨.ok, (archiveContent T library records).info,
          (archiveContent T library records).encode.length⟩, w') ∧ w'.Valid ∧
      w'.archiveChunkKeys = records.map ChunkRecord.key ∧
      ∀ record ∈ records, ∃ column, w'.chunk record.key = some column ∧
        Restored T.fields record column := by
  obtain ⟨w', hcommit, hspec⟩ := loadCommit_spec h harch hcap library mask
  refine ⟨w', ?_, hspec⟩
  have hpre := loadPreflight_iff.2 ⟨library, records, harch, hcap, rfl, rfl, rfl⟩
  rw [loadWorldArchive, hpre]
  simp only [hcommit, Option.bind_eq_bind, Option.bind_some]
  rfl

omit [∀ tag, Inhabited (Value tag)] [DecidableEq Tag] in
/-- A world that keeps the records writes the same chunks. -/
theorem toChunk_worldRecords (hkeys : w.archiveChunkKeys = records.map ChunkRecord.key)
    (hrestored : ∀ record ∈ records, ∃ column, w.chunk record.key = some column ∧
      Restored T.fields record column) :
    (worldRecords w).map (ChunkRecord.toChunk T.fields) =
      records.map (ChunkRecord.toChunk T.fields) := by
  rw [worldRecords, hkeys]
  clear hkeys
  induction records with
  | nil => rfl
  | cons record records ih =>
    obtain ⟨column, hc, hr⟩ := hrestored record List.mem_cons_self
    have hchunk : (recordOf record.key column).toChunk T.fields = record.toChunk T.fields := by
      simp only [ChunkRecord.toChunk, recordOf, hr.active, hr.entities, encodePage_congr hr.page]
    rw [List.map_cons, List.filterMap_cons_some (by rw [hc, Option.map_some]), List.map_cons,
      List.map_cons, hchunk, ih fun rec hrec => hrestored rec (List.mem_cons_of_mem _ hrec)]

/-- **What a load can do**: refuse the bytes and leave the world, or leave a world that keeps the
content that the bytes write down. -/
theorem load_cases (h : w.Valid) (bytes : List UInt8) (mask : BitVec 32) :
    (∃ result, loadWorldArchive T w bytes mask = some (result, w) ∧ Refused result) ∨
      ∃ (library : LibraryVersion) (records : List (ChunkRecord Value T.shape.localTileCount))
        (w' : T.World), Archivable T records ∧
        bytes = (archiveContent T library records).encode ∧
        loadWorldArchive T w bytes mask =
          some (⟨.ok, (archiveContent T library records).info, bytes.length⟩, w') ∧ w'.Valid ∧
        w'.archiveChunkKeys = records.map ChunkRecord.key ∧
        ∀ record ∈ records, ∃ column, w'.chunk record.key = some column ∧
          Restored T.fields record column := by
  have hwithin := within_loadPreflight (T := T) w.capacity bytes
  cases hpre : loadPreflight T w.capacity bytes with
  | outside =>
    rw [hpre] at hwithin
    exact hwithin.elim
  | failed result =>
    rw [hpre] at hwithin
    exact Or.inl ⟨result, by rw [loadWorldArchive, hpre], hwithin⟩
  | ok p =>
    obtain ⟨parsed, keys⟩ := p
    obtain ⟨library, records, harch, hcap, rfl, -, -⟩ := loadPreflight_iff.1 hpre
    obtain ⟨w', hload, hspec⟩ := load_of_content h harch hcap library mask
    exact Or.inr ⟨library, records, w', harch, rfl, hload, hspec⟩

end Load

/-! ### A world with a persisted flag -/

theorem flag_fits : 7 < 256 ^ 8 ∧ 1 < 256 ^ 4 ∧ orthogonalIdentity < 256 ^ 4 := by decide

/-- A flag that is kept in archives. -/
def flagField : PersistedField fun _ : Unit => Bool where
  tag := ()
  id := 7
  version := 1
  scalar := .bool
  base := Equiv.refl Bool
  id_lt := flag_fits.1
  version_lt := flag_fits.2.1

theorem flag_page_fits : twoCells.localTileCount *
    ([flagField].map fun field => field.scalar.width).sum < 2 ^ 63 := by decide

/-- The dense world of two chunks that keeps the flag. -/
def flagArchive : ArchiveType fun _ : Unit => Bool where
  shape := twoCells
  latticeIdentity := orthogonalIdentity
  latticeVersion := 1
  residency := .alwaysResident
  library := ⟨1, 1, 1, flag_fits.2.1, flag_fits.2.1, flag_fits.2.1⟩
  id := 7
  version := 1
  fields := [flagField]
  lattice_fits := ⟨flag_fits.2.2, flag_fits.2.1⟩
  schema_fits := ⟨flag_fits.1, flag_fits.2.1⟩
  unique_ids := List.nodup_singleton _
  unique_tags := List.nodup_singleton _
  field_count := Nat.le_of_ble_eq_true rfl
  page_fits := flag_page_fits

/-- The flag is set in the second chunk only. -/
def flagWorld : flagArchive.World :=
  .dense fun key => { page := fun _ _ => decide (key.val = 1), entityCount := 3 }

/-- The size of its archive. -/
theorem length_encode_flagWorld :
    (archiveContent flagArchive flagArchive.library (worldRecords flagWorld)).encode.length =
      172 := by
  rw [ArchiveContent.length_encode]
  decide

/-! ### Main results -/

/-- The worlds have the same resident chunks, with the same persisted fields, active masks and
entity counts. -/
def SamePersisted (w w' : T.World) : Prop :=
  (∀ key, (∃ column, w'.chunk key = some column) ↔ ∃ column, w.chunk key = some column) ∧
    ∀ key column, w.chunk key = some column → ∃ column', w'.chunk key = some column' ∧
      (∀ field ∈ T.fields, column'.page field.tag = column.page field.tag) ∧
      column'.activeMask = column.activeMask ∧ column'.entityCount = column.entityCount

/-- **Saving and loading are inverse.**  Loading a saved world into one that can hold its chunks
succeeds and restores its resident chunks; and saving a world loaded from an archive that the same
library wrote gives the archive back. -/
theorem archive_round_trip (T : ArchiveType Value) :
    (∀ w w₂ : T.World, w.Valid → w₂.Valid →
      (T.residency = .sparseResident → w.archiveChunkKeys.length ≤ w₂.capacity) →
      ∀ bytes saved, saveWorldArchive T w = some (bytes, saved) → ∀ invalidationMask,
        ∃ result w', loadWorldArchive T w₂ bytes invalidationMask = some (result, w') ∧
          result.status = .ok ∧ SamePersisted w w') ∧
    ∀ w : T.World, w.Valid → ∀ bytes invalidationMask result w',
      loadWorldArchive T w bytes invalidationMask = some (result, w') → result.status = .ok →
      result.info.libraryMajor = T.library.major → result.info.libraryMinor = T.library.minor →
      result.info.libraryPatch = T.library.patch →
        ∃ saved, saveWorldArchive T w' = some (bytes, saved) := by
  constructor
  · intro w w₂ hw hw₂ hcap bytes saved hsave mask
    rw [saveWorldArchive_eq hw] at hsave
    split_ifs at hsave with hsize
    obtain ⟨rfl, -⟩ := Prod.mk.inj (Option.some.inj hsave)
    have hlength : (worldRecords w).length = w.archiveChunkKeys.length := by
      rw [← worldRecords_keys hw, List.length_map]
    obtain ⟨w', hload, hw', hkeys, hrestored⟩ := load_of_content hw₂
      (archivable_worldRecords hw hsize) (fun hs => hlength ▸ hcap hs) T.library mask
    refine ⟨_, w', hload, rfl, fun key => ?_, fun key column hc => ?_⟩
    · rw [hw'.chunk_iff, hw.chunk_iff, hkeys, worldRecords_keys hw]
    · obtain ⟨column', hc', hr⟩ :=
        hrestored (recordOf key column) ((mem_worldRecords hw).2 ⟨column, hc, rfl⟩)
      exact ⟨column', hc', hr.page, hr.active, hr.entities⟩
  · intro w hw bytes mask result w' hload hok hmajor hminor hpatch
    rcases load_cases hw bytes mask with
      ⟨result', hload', hrefused⟩ | ⟨library, records, w₂, harch, rfl, hload', hw₂, hkeys, hrestored⟩
    · rw [hload', Option.some.injEq, Prod.mk.injEq] at hload
      exact absurd (hload.1 ▸ hok) hrefused
    · rw [hload', Option.some.injEq, Prod.mk.injEq] at hload
      obtain ⟨rfl, rfl⟩ := hload
      have hlibrary : library = T.library := by
        cases library
        cases hT : T.library
        simp only [archiveContent, hT] at hmajor hminor hpatch
        subst hmajor hminor hpatch
        rfl
      -- the world keeps the records, so it writes the same chunks
      have hchunks := toChunk_worldRecords hkeys hrestored
      have hcount : (worldRecords w₂).length = records.length := by
        rw [← List.length_map (ChunkRecord.toChunk T.fields), hchunks, List.length_map]
      have hcontent : archiveContent T T.library (worldRecords w₂) =
          archiveContent T library records := by
        rw [hlibrary, archiveContent, archiveContent, hchunks, hcount]
      have hsize : (archiveContent T T.library (worldRecords w₂)).encode.length ≤ sizeMax := by
        rw [hcontent, length_encode_archiveContent]
        exact harch.size
      exact ⟨_, by rw [saveWorldArchive_eq hw₂, if_pos hsize, hcontent]⟩

/-- The archive of the world with the flag restores it, and is what the restored world saves. -/
theorem archive_round_trip_flag : ∃ bytes result w' saved',
    loadWorldArchive flagArchive flagWorld bytes 0 = some (result, w') ∧ result.status = .ok ∧
      SamePersisted flagWorld w' ∧ saveWorldArchive flagArchive w' = some (bytes, saved') := by
  have hvalid : flagWorld.Valid := trivial
  have hsize : (archiveContent flagArchive flagArchive.library
      (worldRecords flagWorld)).encode.length ≤ sizeMax := by
    rw [length_encode_flagWorld]
    decide
  have hsave := saveWorldArchive_eq hvalid
  rw [if_pos hsize] at hsave
  obtain ⟨result, w', hload, hok, hsame⟩ := (archive_round_trip flagArchive).1 flagWorld flagWorld
    hvalid hvalid (fun h => by cases h) _ _ hsave 0
  obtain ⟨w'', hload', -⟩ := load_of_content hvalid (archivable_worldRecords hvalid hsize)
    (fun h => by cases h) flagArchive.library 0
  have hinfo : result.info = (archiveContent flagArchive flagArchive.library
      (worldRecords flagWorld)).info := by
    rw [hload', Option.some.injEq, Prod.mk.injEq] at hload
    rw [← hload.1]
  obtain ⟨saved', hback⟩ := (archive_round_trip flagArchive).2 flagWorld hvalid _ 0 result w' hload
    hok (by rw [hinfo]; rfl) (by rw [hinfo]; rfl) (by rw [hinfo]; rfl)
  exact ⟨_, result, w', saved', hload, hok, hsame, hback⟩

end Tess
