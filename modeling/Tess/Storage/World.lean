import Tess.Core.Shape

/-!
# Worlds: pages of resident chunks

A `World` owns one page of field values for every resident chunk and a content version for
every chunk.  A dense world keeps every chunk resident, chunk `key` in slot `key`; a sparse
world maps the resident keys to distinct slots below its capacity.  Both are one structure,
whose proof fields are what the constructors and the residency operations of the two world
classes maintain.

* `World.tryChunk`, `World.tryResolve`, `World.tileAt` : the checked accessors;
* `World.writeField` and `World.markContentChanged` : a storage write and the version bump
  that announces it;
* `World.Completes` : the other world agrees on every resident chunk and misses none.
-/

namespace Tess

/-- Residency policy of a world. -/
inductive Residency
  | alwaysResident
  | sparseResident
  deriving DecidableEq, Repr

/-- The field values of one chunk. -/
structure ChunkPage (Tag : Type*) where
  /-- Key of the chunk the page represents. -/
  chunkKey : ℕ
  /-- Value of a field at a local tile identifier. -/
  field : Tag → ℕ → ℤ

/-- Chunk and local identifiers of one tile. -/
structure ResolvedTile where
  /-- Key of the owning chunk. -/
  chunkKey : ℕ
  /-- Local tile identifier. -/
  localTileId : ℕ

/-- A world of shape `S` with fields `Tag`. -/
structure World (S : Shape) (Tag : Type*) where
  /-- Residency policy. -/
  residency : Residency
  /-- Number of page slots. -/
  capacity : ℕ
  /-- Slot of a chunk key, when the chunk is resident. -/
  residentSlot : ℕ → Option ℕ
  /-- Page of a slot. -/
  pages : ℕ → ChunkPage Tag
  /-- Version of the authoritative content of a chunk. -/
  contentVersion : ℕ → ℕ
  /-- Version of the topology derived from a chunk. -/
  topologyVersion : ℕ → ℕ
  /-- Only chunks of the shape are resident. -/
  key_lt : ∀ key slot, residentSlot key = some slot → key < S.chunkCount
  /-- Slots stay below the capacity. -/
  slot_lt : ∀ key slot, residentSlot key = some slot → slot < capacity
  /-- Distinct chunks have distinct slots. -/
  slot_inj : ∀ key key' slot, residentSlot key = some slot → residentSlot key' = some slot →
    key = key'
  /-- A dense world keeps every chunk in the slot of its key. -/
  dense_slot : residency = .alwaysResident → ∀ key < S.chunkCount, residentSlot key = some key
  /-- A dense world has one slot per chunk. -/
  dense_capacity : residency = .alwaysResident → capacity = S.chunkCount

namespace World

variable {S : Shape} {Tag : Type*} (W : World S Tag)

/-- Every chunk is resident by policy. -/
def IsDense : Prop := W.residency = .alwaysResident

instance : Decidable W.IsDense := inferInstanceAs (Decidable (_ = _))

/-- Page of a chunk key, or none when the chunk is not resident. -/
def tryChunk (key : ℕ) : Option (ChunkPage Tag) := (W.residentSlot key).map W.pages

/-- Chunk and local identifiers of a contained coordinate. -/
def resolve (_W : World S Tag) (c : Coord3) : ResolvedTile :=
  ⟨S.chunkKey (S.chunkCoord c), S.localTileId (S.localCoord c)⟩

/-- `resolve` behind its bounds check. -/
def tryResolve (c : Coord3) : Option ResolvedTile :=
  if S.contains c then some (W.resolve c) else none

/-- Page and local identifier of a contained coordinate in a resident chunk. -/
def tileAt (c : Coord3) : Option (ChunkPage Tag × ℕ) :=
  match W.tryResolve c with
  | none => none
  | some r => (W.tryChunk r.chunkKey).map fun page => (page, r.localTileId)

/-- The coordinate is contained and its chunk is resident. -/
def Resident (c : Coord3) : Prop := (W.tileAt c).isSome = true

instance (c : Coord3) : Decidable (W.Resident c) := inferInstanceAs (Decidable (_ = _))

variable {W}

theorem tileAt_of_contains {c : Coord3} (h : S.contains c = true) : W.tileAt c =
    (W.tryChunk (W.resolve c).chunkKey).map fun page => (page, (W.resolve c).localTileId) := by
  simp only [tileAt, tryResolve, h, ↓reduceIte]

theorem tileAt_of_not_contains {c : Coord3} (h : ¬ S.contains c = true) : W.tileAt c = none := by
  simp only [tileAt, tryResolve, h, Bool.false_eq_true, ↓reduceIte]

theorem resident_iff {c : Coord3} : W.Resident c ↔
    S.contains c = true ∧ ∃ slot, W.residentSlot (S.chunkKey (S.chunkCoord c)) = some slot := by
  unfold Resident
  by_cases h : S.contains c = true
  · simp only [tileAt_of_contains h, tryChunk, resolve, Option.isSome_map, h, true_and]
    exact Option.isSome_iff_exists
  · simp only [tileAt_of_not_contains h, h, Option.isSome_none, Bool.false_eq_true, false_and]

theorem Resident.contains {c : Coord3} (h : W.Resident c) : S.contains c = true :=
  (resident_iff.1 h).1

theorem resident_of_tileAt {c : Coord3} {t : ChunkPage Tag × ℕ} (h : W.tileAt c = some t) :
    W.Resident c := by
  rw [Resident, h]; rfl

/-- In a dense world the resident tiles are the contained ones. -/
theorem IsDense.resident_iff (hd : W.IsDense) {c : Coord3} :
    W.Resident c ↔ S.contains c = true := by
  rw [World.resident_iff]
  exact ⟨And.left, fun h => ⟨h, _, W.dense_slot hd _ (Shape.chunkKey_lt h)⟩⟩

/-! ### Dense worlds -/

/-- The dense world whose fields have the given values, all chunks at version zero. -/
def dense (S : Shape) (value : Tag → Coord3 → ℤ) : World S Tag where
  residency := .alwaysResident
  capacity := S.chunkCount
  residentSlot key := if key < S.chunkCount then some key else none
  pages key := ⟨key, fun tag id => value tag (S.coordOf (S.chunkGrid.unrank key) id)⟩
  contentVersion _ := 0
  topologyVersion _ := 0
  key_lt key slot h := by split_ifs at h with hk; exact hk
  slot_lt key slot h := by split_ifs at h with hk; simp only [Option.some.injEq] at h; omega
  slot_inj key key' slot h h' := by
    split_ifs at h h' with hk hk'
    simp only [Option.some.injEq] at h h'
    omega
  dense_slot _ key hk := if_pos hk
  dense_capacity _ := rfl

@[simp] theorem dense_isDense (value : Tag → Coord3 → ℤ) : (dense S value).IsDense := rfl

/-- **The fields of a dense world** hold the given values. -/
theorem exists_tileAt_dense (value : Tag → Coord3 → ℤ) {c : Coord3} (hc : S.contains c = true) :
    ∃ page id, (dense S value).tileAt c = some (page, id) ∧
      ∀ tag, page.field tag id = value tag c := by
  have hkey : S.chunkKey (S.chunkCoord c) < S.chunkCount := Shape.chunkKey_lt hc
  have hcoord : S.coordOf (S.chunkGrid.unrank (S.chunkKey (S.chunkCoord c)))
      (S.localTileId (S.localCoord c)) = c := by
    rw [Shape.chunkKey, Extent3.unrank_rank (Shape.has_chunkCoord hc)]
    exact Shape.coordOf_chunkCoord hc
  refine ⟨(dense S value).pages (S.chunkKey (S.chunkCoord c)), S.localTileId (S.localCoord c),
    ?_, fun tag => ?_⟩
  · rw [tileAt_of_contains hc]
    simp only [tryChunk, dense, resolve, hkey, if_true, Option.map_some]
  · simp only [dense, hcoord]

/-! ### Writes -/

variable (W) in
/-- Overwrite one field at one tile; nothing happens outside the resident tiles.  This is a
storage write only: no version advances. -/
def writeField [DecidableEq Tag] (tag : Tag) (c : Coord3) (value : ℤ) : World S Tag :=
  match W.residentSlot (W.resolve c).chunkKey with
  | none => W
  | some slot =>
    { W with
      pages := fun s =>
        if s = slot then
          { W.pages s with
            field := fun t id =>
              if t = tag ∧ id = (W.resolve c).localTileId then value
              else (W.pages s).field t id }
        else W.pages s }

variable (W) in
/-- Advance the content version of a chunk; the counter fails fast before it wraps. -/
def markContentChanged (key : ℕ) : World S Tag :=
  { W with contentVersion := fun k => if k = key then W.contentVersion k + 1
                                      else W.contentVersion k }

/-! ### Completions -/

/-- `W'` has every chunk of the shape and agrees with `W` on the resident ones. -/
def Completes (W' W : World S Tag) : Prop :=
  (∀ key < S.chunkCount, ∃ page, W'.tryChunk key = some page) ∧
    ∀ key page, W.tryChunk key = some page → W'.tryChunk key = some page

theorem Completes.tileAt_eq {W' : World S Tag} (h : W'.Completes W) {c : Coord3}
    {t : ChunkPage Tag × ℕ} (ht : W.tileAt c = some t) : W'.tileAt c = some t := by
  have hc := (resident_of_tileAt ht).contains
  rw [tileAt_of_contains hc] at ht ⊢
  obtain ⟨page, hp, rfl⟩ := Option.map_eq_some_iff.1 ht
  exact Option.map_eq_some_iff.2 ⟨page, h.2 _ _ hp, rfl⟩

theorem Completes.resident_iff {W' : World S Tag} (h : W'.Completes W) {c : Coord3} :
    W'.Resident c ↔ S.contains c = true := by
  refine ⟨Resident.contains, fun hc => ?_⟩
  obtain ⟨page, hp⟩ := h.1 _ (Shape.chunkKey_lt hc)
  exact resident_of_tileAt (t := (page, (W'.resolve c).localTileId))
    (by rw [tileAt_of_contains hc]; exact Option.map_eq_some_iff.2 ⟨page, hp, rfl⟩)

variable (W) in
/-- The dense world that reads zero where a chunk of `W` is missing. -/
def fill : World S Tag where
  residency := .alwaysResident
  capacity := S.chunkCount
  residentSlot key := if key < S.chunkCount then some key else none
  pages key := (W.tryChunk key).getD ⟨key, fun _ _ => 0⟩
  contentVersion := W.contentVersion
  topologyVersion := W.topologyVersion
  key_lt key slot h := by split_ifs at h with hk; exact hk
  slot_lt key slot h := by split_ifs at h with hk; simp only [Option.some.injEq] at h; omega
  slot_inj key key' slot h h' := by
    split_ifs at h h' with hk hk'
    simp only [Option.some.injEq] at h h'
    omega
  dense_slot _ key hk := if_pos hk
  dense_capacity _ := rfl

theorem tryChunk_fill {key : ℕ} (h : key < S.chunkCount) :
    W.fill.tryChunk key = some ((W.tryChunk key).getD ⟨key, fun _ _ => 0⟩) := by
  simp [tryChunk, fill, h]

/-- Every world has a completion. -/
theorem fill_completes : W.fill.Completes W := by
  refine ⟨fun key hkey => ⟨_, tryChunk_fill hkey⟩, fun key page hp => ?_⟩
  obtain ⟨slot, hs, -⟩ := Option.map_eq_some_iff.1 hp
  rw [tryChunk_fill (W.key_lt key slot hs), hp]
  rfl

end World

end Tess
