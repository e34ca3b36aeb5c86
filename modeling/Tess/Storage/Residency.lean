import Tess.Storage.Dirty
import Tess.Storage.World
import Mathlib.Logic.Function.Basic

/-!
# Residency and marks of chunks

A `ChunkStore` is a world seen by the code that follows its chunks: which chunks are resident,
in which slot and since which generation, with the marks and the content of each.  In a dense
world every chunk stays resident in the slot of its key.  A sparse world evicts chunks and
materialises them again; its generation clock only advances, while the content version of a
chunk restarts with every residency.

* `ChunkStore.markDirty`, `ChunkStore.edit`, `ChunkStore.clearDirty`,
  `ChunkStore.clearDirtyObserved` : the operations on the marks of a resident chunk;
* `ChunkStore.evict` and `ChunkStore.ensureResident` : the residency operations of a sparse
  world, with its least recently used order;
* `ChunkStore.Later` : **what no operation undoes**: a chunk that keeps its generation keeps its
  slot, its version does not fall, and an unchanged version means unchanged content and no new
  marks.
-/

namespace Tess

/-- What a world keeps of a resident chunk. -/
structure ResidentChunk (C : Type) where
  /-- Slot of the page. -/
  slot : ℕ
  /-- Generation of the residency interval; zero in a dense world. -/
  generation : ℕ := 0
  /-- Dirty mask, bounds and content version. -/
  dirty : ChunkDirty := {}
  /-- Content of the page. -/
  content : C

/-- Residency, marks and content of the chunks of a world. -/
structure ChunkStore (C : Type) where
  /-- Residency policy. -/
  residency : Residency
  /-- Number of chunks of the shape. -/
  chunkCount : ℕ
  /-- Number of page slots. -/
  capacity : ℕ
  /-- The resident chunk of a key. -/
  resident : ℕ → Option (ResidentChunk C)
  /-- Free slots, the next one first. -/
  freeSlots : List ℕ
  /-- Resident keys of a sparse world, the least recently used first. -/
  lru : List ℕ
  /-- Number of materialisations so far. -/
  generationClock : ℕ := 0
  /-- Slots stay below the capacity. -/
  slot_lt : ∀ key r, resident key = some r → r.slot < capacity
  /-- Distinct chunks have distinct slots. -/
  slot_inj : ∀ key key' r r', resident key = some r → resident key' = some r' →
    r.slot = r'.slot → key = key'
  /-- Free slots are slots. -/
  free_lt : ∀ slot ∈ freeSlots, slot < capacity
  /-- A free slot has no chunk. -/
  free_ne : ∀ slot ∈ freeSlots, ∀ key r, resident key = some r → r.slot ≠ slot
  /-- Free slots are listed once. -/
  free_nodup : freeSlots.Nodup
  /-- A sparse world lists its resident keys. -/
  mem_lru : residency = .sparseResident → ∀ key, key ∈ lru ↔ ∃ r, resident key = some r
  /-- Generations come from the clock. -/
  generation_le : ∀ key r, resident key = some r → r.generation ≤ generationClock
  /-- A dense world keeps every chunk in the slot of its key. -/
  dense_resident : residency = .alwaysResident → ∀ key < chunkCount,
    ∃ r, resident key = some r ∧ r.slot = key ∧ r.generation = 0
  /-- A dense world has no other chunks. -/
  dense_lt : residency = .alwaysResident → ∀ key r, resident key = some r → key < chunkCount
  /-- A dense world has one slot per chunk. -/
  dense_capacity : residency = .alwaysResident → capacity = chunkCount

namespace ChunkStore

variable {C : Type} (W : ChunkStore C)

/-- Every chunk is resident by policy. -/
def IsDense : Prop := W.residency = .alwaysResident

instance : Decidable W.IsDense := inferInstanceAs (Decidable (_ = _))

/-! ### Marks and content -/

/-- Replace the marks and the content of a resident chunk. -/
def modify (key : ℕ) (f : ResidentChunk C → ChunkDirty × C) (k : ℕ) : Option (ResidentChunk C) :=
  if k = key then (W.resident k).map fun r => { r with dirty := (f r).1, content := (f r).2 }
  else W.resident k

variable {W} in
theorem modify_eq_some {key k : ℕ} {f : ResidentChunk C → ChunkDirty × C} {r' : ResidentChunk C}
    (h : W.modify key f k = some r') : ∃ r, W.resident k = some r ∧ r'.slot = r.slot ∧
      r'.generation = r.generation ∧
      (r' = r ∨ k = key ∧ r'.dirty = (f r).1 ∧ r'.content = (f r).2) := by
  rw [modify] at h
  split_ifs at h with hk
  · obtain ⟨r, hr, rfl⟩ := Option.map_eq_some_iff.1 h
    exact ⟨r, hr, rfl, rfl, Or.inr ⟨hk, rfl, rfl⟩⟩
  · exact ⟨r', h, rfl, rfl, Or.inl rfl⟩

variable {W} in
theorem exists_modify {key k : ℕ} {f : ResidentChunk C → ChunkDirty × C} {r : ResidentChunk C}
    (h : W.resident k = some r) : ∃ r', W.modify key f k = some r' ∧ r'.slot = r.slot ∧
      r'.generation = r.generation := by
  rw [modify]
  split_ifs with hk
  · exact ⟨{ r with dirty := (f r).1, content := (f r).2 }, by rw [h]; rfl, rfl, rfl⟩
  · exact ⟨r, h, rfl, rfl⟩

/-- The world after the marks and the content of a resident chunk changed. -/
def update (key : ℕ) (f : ResidentChunk C → ChunkDirty × C) : ChunkStore C :=
  { W with
    resident := W.modify key f
    slot_lt := by
      intro k r' h
      obtain ⟨r, hr, hs, -⟩ := modify_eq_some h
      exact hs ▸ W.slot_lt k r hr
    slot_inj := by
      intro k k' r r' h h' hs
      obtain ⟨q, hq, hqs, -⟩ := modify_eq_some h
      obtain ⟨q', hq', hqs', -⟩ := modify_eq_some h'
      exact W.slot_inj k k' q q' hq hq' (by rw [← hqs, ← hqs', hs])
    free_ne := by
      intro slot hslot k r' h
      obtain ⟨r, hr, hs, -⟩ := modify_eq_some h
      exact hs ▸ W.free_ne slot hslot k r hr
    mem_lru := by
      intro hsp k
      rw [W.mem_lru hsp]
      constructor
      · rintro ⟨r, hr⟩
        obtain ⟨r', hr', -⟩ := exists_modify (f := f) hr
        exact ⟨r', hr'⟩
      · rintro ⟨r', hr'⟩
        obtain ⟨r, hr, -⟩ := modify_eq_some hr'
        exact ⟨r, hr⟩
    generation_le := by
      intro k r' h
      obtain ⟨r, hr, -, hg, -⟩ := modify_eq_some h
      exact hg ▸ W.generation_le k r hr
    dense_resident := by
      intro hd k hk
      obtain ⟨r, hr, hs, hg⟩ := W.dense_resident hd k hk
      obtain ⟨r', hr', hs', hg'⟩ := exists_modify (f := f) hr
      exact ⟨r', hr', hs'.trans hs, hg'.trans hg⟩
    dense_lt := by
      intro hd k r' h
      obtain ⟨r, hr, -⟩ := modify_eq_some h
      exact W.dense_lt hd k r hr }

/-- Mark a resident chunk. -/
def markDirty (key : ℕ) (mask : BitVec 32) (bounds : Box3) : ChunkStore C :=
  W.update key fun r => (r.dirty.metaMarkDirty mask bounds, r.content)

/-- Change the content of a resident chunk and announce it: by a mark, or by a new content
version alone when the mask is empty. -/
def edit (key : ℕ) (content : C) (mask : BitVec 32) (bounds : Box3) : ChunkStore C :=
  W.update key fun r => (if mask = 0 then r.dirty.metaMarkContentChanged
    else r.dirty.metaMarkDirty mask bounds, content)

/-- Clear bits of a resident chunk. -/
def clearDirty (key : ℕ) (mask : BitVec 32) : ChunkStore C :=
  W.update key fun r => (r.dirty.metaClearDirty mask, r.content)

/-- Clear the observed bits of a resident chunk; none when the observation is stale. -/
def clearDirtyObserved (key : ℕ) (observed : DirtyObservation) : Option (ChunkStore C) :=
  match W.resident key with
  | none => none
  | some r => (r.dirty.metaClearDirtyObserved observed r.generation).map fun d =>
      W.update key fun r => (d, r.content)

/-! ### Residency -/

/-- Mark a resident key most recently used. -/
def touch (key : ℕ) : ChunkStore C :=
  if h : (W.resident key).isSome then
    { W with
      lru := W.lru.filter (· ≠ key) ++ [key]
      mem_lru := by
        intro hsp k
        rw [← W.mem_lru hsp]
        have hkey := (W.mem_lru hsp key).2 (Option.isSome_iff_exists.1 h)
        by_cases hk : k = key
        · simp [hk, hkey]
        · simp [hk] }
  else W

/-- Evict a resident key of a sparse world; its slot is the next free one. -/
def evict (key : ℕ) : ChunkStore C :=
  if hd : W.residency = .alwaysResident then W
  else match h : W.resident key with
  | none => W
  | some r =>
    { W with
      resident := Function.update W.resident key none
      freeSlots := r.slot :: W.freeSlots
      lru := W.lru.filter (· ≠ key)
      slot_lt := by
        intro k q hq
        rw [Function.update_apply] at hq
        split_ifs at hq
        exact W.slot_lt k q hq
      slot_inj := by
        intro k k' q q' hq hq' hs
        rw [Function.update_apply] at hq hq'
        split_ifs at hq hq'
        exact W.slot_inj k k' q q' hq hq' hs
      free_lt := by
        intro slot hslot
        rcases List.mem_cons.1 hslot with rfl | hslot
        · exact W.slot_lt key r h
        · exact W.free_lt slot hslot
      free_ne := by
        intro slot hslot k q hq
        rw [Function.update_apply] at hq
        split_ifs at hq with hk
        rcases List.mem_cons.1 hslot with rfl | hslot
        · exact fun hs => hk (W.slot_inj k key q r hq h hs)
        · exact W.free_ne slot hslot k q hq
      free_nodup := List.nodup_cons.2 ⟨fun hmem => W.free_ne _ hmem key r h rfl, W.free_nodup⟩
      mem_lru := by
        intro hsp k
        rw [List.mem_filter, W.mem_lru hsp, Function.update_apply]
        split_ifs with hk <;> simp [hk]
      generation_le := by
        intro k q hq
        rw [Function.update_apply] at hq
        split_ifs at hq
        exact W.generation_le k q hq
      dense_resident := fun hd' => absurd hd' hd
      dense_lt := fun hd' => absurd hd' hd }

/-- The slots that stay free are not those of the resident chunks and the new one. -/
theorem free_ne_of_taken {key slot : ℕ} {free : List ℕ} {p : ResidentChunk C}
    (hf : W.freeSlots = slot :: free) (hp : p.slot = slot) :
    ∀ s ∈ free, ∀ k q, Function.update W.resident key (some p) k = some q → q.slot ≠ s := by
  intro s hs k q hq
  have hnodup := W.free_nodup
  rw [hf, List.nodup_cons] at hnodup
  rw [Function.update_apply] at hq
  split_ifs at hq
  · obtain rfl := Option.some.inj hq
    rintro rfl
    exact hnodup.1 (hp ▸ hs)
  · exact W.free_ne s (hf ▸ List.mem_cons_of_mem _ hs) k q hq

theorem free_nodup_of_taken {slot : ℕ} {free : List ℕ} (hf : W.freeSlots = slot :: free) :
    free.Nodup := by
  have hnodup := W.free_nodup
  rw [hf] at hnodup
  exact (List.nodup_cons.1 hnodup).2

/-- A dense world has no free slot: the chunk of that slot would be resident. -/
theorem not_dense_of_taken {slot : ℕ} {free : List ℕ} (hf : W.freeSlots = slot :: free) :
    W.residency ≠ .alwaysResident := by
  intro hd
  have hfree : slot ∈ W.freeSlots := hf ▸ List.mem_cons_self
  have hslot := W.free_lt slot hfree
  rw [W.dense_capacity hd] at hslot
  obtain ⟨q, hq, hs, -⟩ := W.dense_resident hd slot hslot
  exact W.free_ne slot hfree slot q hq hs

/-- Materialise a missing key in the next free slot, with a new generation, no marks and the
value-initialised page. -/
def materialize [Inhabited C] (key : ℕ) : ChunkStore C :=
  match hf : W.freeSlots, hr : W.resident key with
  | slot :: free, none =>
    { W with
      resident := Function.update W.resident key
        (some ⟨slot, W.generationClock + 1, {}, default⟩)
      freeSlots := free
      lru := W.lru ++ [key]
      generationClock := W.generationClock + 1
      slot_lt := by
        intro k q hq
        rw [Function.update_apply] at hq
        split_ifs at hq
        · obtain rfl := Option.some.inj hq
          exact W.free_lt slot (hf ▸ List.mem_cons_self)
        · exact W.slot_lt k q hq
      slot_inj := by
        have hfree := W.free_ne slot (hf ▸ List.mem_cons_self)
        intro k k' q q' hq hq' hs
        rw [Function.update_apply] at hq hq'
        split_ifs at hq hq' with hk hk' hk'
        · rw [hk, hk']
        · obtain rfl := Option.some.inj hq
          exact absurd hs.symm (hfree k' q' hq')
        · obtain rfl := Option.some.inj hq'
          exact absurd hs (hfree k q hq)
        · exact W.slot_inj k k' q q' hq hq' hs
      free_lt := fun s hs => W.free_lt s (hf ▸ List.mem_cons_of_mem _ hs)
      free_ne := W.free_ne_of_taken hf rfl
      free_nodup := W.free_nodup_of_taken hf
      mem_lru := by
        intro hsp k
        rw [List.mem_append, W.mem_lru hsp, Function.update_apply]
        split_ifs with hk <;> simp [hk]
      generation_le := by
        intro k q hq
        rw [Function.update_apply] at hq
        split_ifs at hq
        · obtain rfl := Option.some.inj hq
          exact le_rfl
        · exact (W.generation_le k q hq).trans (Nat.le_succ _)
      dense_resident := fun hd => absurd hd (W.not_dense_of_taken hf)
      dense_lt := fun hd => absurd hd (W.not_dense_of_taken hf) }
  | _, _ => W

/-- `acquire_slot`: without a free slot the least recently used chunk gives up its own. -/
def makeRoom : ChunkStore C :=
  match W.freeSlots, W.lru with
  | [], victim :: _ => W.evict victim
  | _, _ => W

/-- Make a key of the shape resident and most recently used. -/
def ensureResident [Inhabited C] (key : ℕ) : ChunkStore C :=
  if W.chunkCount ≤ key then W
  else if (W.resident key).isSome then W.touch key
  else W.makeRoom.materialize key

end ChunkStore

/-! ### What no operation undoes -/

/-- The same residency of a chunk, later. -/
structure ResidentChunk.Later {C : Type} (r r' : ResidentChunk C) : Prop where
  /-- The chunk stays in its slot. -/
  slot : r'.slot = r.slot
  /-- The residency interval is the same. -/
  generation : r'.generation = r.generation
  /-- Versions do not fall. -/
  version : r.dirty.contentVersion ≤ r'.dirty.contentVersion
  /-- An unchanged version means unchanged content. -/
  content : r'.dirty.contentVersion = r.dirty.contentVersion → r'.content = r.content
  /-- An unchanged version means no new marks. -/
  marks : r'.dirty.contentVersion = r.dirty.contentVersion →
    ∀ b, r'.dirty.mask.getLsbD b = true → r.dirty.mask.getLsbD b = true

namespace ResidentChunk.Later

variable {C : Type} {r r' r'' : ResidentChunk C}

theorem refl (r : ResidentChunk C) : r.Later r :=
  ⟨rfl, rfl, le_rfl, fun _ => rfl, fun _ _ h => h⟩

theorem trans (h : r.Later r') (h' : r'.Later r'') : r.Later r'' := by
  have hversion := h.version.trans h'.version
  refine ⟨h'.slot.trans h.slot, h'.generation.trans h.generation, hversion, ?_, ?_⟩
  · intro hv
    have hv' := h.version
    have hv'' := h'.version
    exact (h'.content (by omega)).trans (h.content (by omega))
  · intro hv b hb
    have hv' := h.version
    have hv'' := h'.version
    exact h.marks (by omega) b (h'.marks (by omega) b hb)

end ResidentChunk.Later

namespace ChunkStore

variable {C : Type} {W W' W'' : ChunkStore C} {key : ℕ}

/-- **A later state of the world**: every resident chunk was resident before in the same
residency, or its generation is new. -/
structure Later (W W' : ChunkStore C) : Prop where
  /-- The residency policy stays. -/
  residency : W'.residency = W.residency
  /-- The shape stays. -/
  chunkCount : W'.chunkCount = W.chunkCount
  /-- The slots stay. -/
  capacity : W'.capacity = W.capacity
  /-- The generation clock advances. -/
  clock : W.generationClock ≤ W'.generationClock
  /-- Chunks keep their residency or get a new one. -/
  resident : ∀ key r', W'.resident key = some r' →
    (∃ r, W.resident key = some r ∧ r.Later r') ∨ W.generationClock < r'.generation

theorem Later.refl (W : ChunkStore C) : W.Later W :=
  ⟨rfl, rfl, rfl, le_rfl, fun _ r h => Or.inl ⟨r, h, .refl r⟩⟩

theorem Later.trans (h : W.Later W') (h' : W'.Later W'') : W.Later W'' := by
  refine ⟨h'.residency.trans h.residency, h'.chunkCount.trans h.chunkCount,
    h'.capacity.trans h.capacity, h.clock.trans h'.clock, ?_⟩
  intro key r'' hr''
  rcases h'.resident key r'' hr'' with ⟨r', hr', hlater'⟩ | hnew
  · rcases h.resident key r' hr' with ⟨r, hr, hlater⟩ | hnew
    · exact Or.inl ⟨r, hr, hlater.trans hlater'⟩
    · exact Or.inr (by rw [hlater'.generation]; exact hnew)
  · exact Or.inr (h.clock.trans_lt hnew)

/-- An update that no chunk can tell from a later state. -/
theorem later_update {f : ResidentChunk C → ChunkDirty × C}
    (hf : ∀ r, W.resident key = some r →
      r.Later { r with dirty := (f r).1, content := (f r).2 }) : W.Later (W.update key f) := by
  refine ⟨rfl, rfl, rfl, le_rfl, fun k r' hr' => Or.inl ?_⟩
  change W.modify key f k = some r' at hr'
  rw [modify] at hr'
  split_ifs at hr' with hk
  · obtain ⟨r, hr, rfl⟩ := Option.map_eq_some_iff.1 hr'
    exact ⟨r, hr, hf r (hk ▸ hr)⟩
  · exact ⟨r', hr', .refl r'⟩

theorem metaMarkDirty_version (d : ChunkDirty) {mask : BitVec 32} (h : mask ≠ 0) (bounds : Box3) :
    (d.metaMarkDirty mask bounds).contentVersion = d.contentVersion + 1 := by
  rw [ChunkDirty.metaMarkDirty, if_neg h]

theorem getLsbD_metaMarkDirty {d : ChunkDirty} {mask : BitVec 32} {bounds : Box3} {b : ℕ}
    (h : d.mask.getLsbD b = true ∨ mask.getLsbD b = true) :
    (d.metaMarkDirty mask bounds).mask.getLsbD b = true := by
  rw [ChunkDirty.metaMarkDirty]
  by_cases hmask : mask = 0
  · rw [if_pos hmask]
    simpa [hmask] using h
  · rw [if_neg hmask]
    simpa [BitVec.getLsbD_or] using h

theorem metaClearDirty_version (d : ChunkDirty) (mask : BitVec 32) :
    (d.metaClearDirty mask).contentVersion = d.contentVersion := by
  rw [ChunkDirty.metaClearDirty]
  split_ifs <;> rfl

theorem metaClearDirty_mask (d : ChunkDirty) (mask : BitVec 32) :
    (d.metaClearDirty mask).mask = d.mask &&& ~~~mask := by
  rw [ChunkDirty.metaClearDirty]
  by_cases h : mask = 0
  · have hall : ~~~(0 : BitVec 32) = BitVec.allOnes 32 := rfl
    rw [if_pos h, h, hall, BitVec.and_allOnes]
  · rw [if_neg h]

/-- **A mark** is a new version, unless it has no bits. -/
theorem later_markDirty (mask : BitVec 32) (bounds : Box3) :
    W.Later (W.markDirty key mask bounds) := by
  refine later_update fun r _ => ?_
  by_cases h : mask = 0
  · simp only [ChunkDirty.metaMarkDirty, h, if_true]
    exact .refl r
  · have hv := metaMarkDirty_version r.dirty h bounds
    exact ⟨rfl, rfl, by simp only [hv]; omega, fun _ => rfl, fun h' => by simp only [hv] at h'; omega⟩

/-- **An edit** is a new version. -/
theorem later_edit (content : C) (mask : BitVec 32) (bounds : Box3) :
    W.Later (W.edit key content mask bounds) := by
  refine later_update fun r _ => ?_
  have hv : (if mask = 0 then r.dirty.metaMarkContentChanged
      else r.dirty.metaMarkDirty mask bounds).contentVersion = r.dirty.contentVersion + 1 := by
    split_ifs with h
    · rfl
    · exact metaMarkDirty_version r.dirty h bounds
  exact ⟨rfl, rfl, by simp only [hv]; omega, fun h' => by simp only [hv] at h'; omega,
    fun h' => by simp only [hv] at h'; omega⟩

/-- **A clear** makes no marks. -/
theorem later_setMarks {f : ResidentChunk C → ChunkDirty}
    (hversion : ∀ r, W.resident key = some r → (f r).contentVersion = r.dirty.contentVersion)
    (hmask : ∀ r, W.resident key = some r →
      ∀ b, (f r).mask.getLsbD b = true → r.dirty.mask.getLsbD b = true) :
    W.Later (W.update key fun r => (f r, r.content)) :=
  later_update fun r hr => ⟨rfl, rfl, (hversion r hr).ge, fun _ => rfl, fun _ => hmask r hr⟩

theorem getLsbD_of_clear {d : ChunkDirty} {mask : BitVec 32} {b : ℕ}
    (h : (d.metaClearDirty mask).mask.getLsbD b = true) :
    d.mask.getLsbD b = true ∧ mask.getLsbD b = false := by
  rw [metaClearDirty_mask, BitVec.getLsbD_and, Bool.and_eq_true] at h
  refine ⟨h.1, ?_⟩
  have := h.2
  rw [BitVec.getLsbD_not, Bool.and_eq_true] at this
  simpa using this.2

theorem getLsbD_metaClearDirty {d : ChunkDirty} {mask : BitVec 32} {b : ℕ}
    (h : d.mask.getLsbD b = true) (hmask : mask.getLsbD b = false) :
    (d.metaClearDirty mask).mask.getLsbD b = true := by
  have hlt : b < 32 := BitVec.lt_of_getLsbD h
  rw [metaClearDirty_mask, BitVec.getLsbD_and, BitVec.getLsbD_not, h, hmask]
  simp [hlt]

theorem later_clearDirty (mask : BitVec 32) : W.Later (W.clearDirty key mask) :=
  later_setMarks (fun r _ => metaClearDirty_version r.dirty mask)
    fun _ _ _ h => (getLsbD_of_clear h).1

/-- **A clear that succeeds** saw the present version in the present residency. -/
theorem clearDirtyObserved_eq_some {observed : DirtyObservation}
    (h : W.clearDirtyObserved key observed = some W') :
    ∃ r, W.resident key = some r ∧ r.generation = observed.residencyGeneration ∧
      r.dirty.contentVersion = observed.contentVersion ∧
      W' = W.clearDirty key observed.mask := by
  rw [clearDirtyObserved] at h
  split at h
  · cases h
  rename_i r hr
  obtain ⟨d, hd, rfl⟩ := Option.map_eq_some_iff.1 h
  rw [ChunkDirty.metaClearDirtyObserved] at hd
  split_ifs at hd with h1 h2
  obtain rfl := Option.some.inj hd
  refine ⟨r, hr, not_not.1 h1, not_not.1 h2, ?_⟩
  have hmodify : W.modify key (fun r' => (r.dirty.metaClearDirty observed.mask, r'.content)) =
      W.modify key fun r' => (r'.dirty.metaClearDirty observed.mask, r'.content) := by
    funext k
    rw [modify, modify]
    split_ifs with hk
    · rw [hk, hr]
      rfl
    · rfl
  rw [clearDirty]
  simp only [update, hmodify]

/-- **A clear that fails** missed a newer version or a newer residency. -/
theorem clearDirtyObserved_eq_none {observed : DirtyObservation} {r : ResidentChunk C}
    (h : W.clearDirtyObserved key observed = none) (hr : W.resident key = some r) :
    r.generation ≠ observed.residencyGeneration ∨
      r.dirty.contentVersion ≠ observed.contentVersion := by
  rw [clearDirtyObserved, hr] at h
  simp only [Option.map_eq_none_iff, ChunkDirty.metaClearDirtyObserved] at h
  split_ifs at h with h1 h2
  · exact Or.inl h1
  · exact Or.inr h2

theorem later_touch : W.Later (W.touch key) := by
  rw [touch]
  split_ifs with h
  · exact ⟨rfl, rfl, rfl, le_rfl, fun _ r hr => Or.inl ⟨r, hr, .refl r⟩⟩
  · exact .refl W

theorem resident_evict {k : ℕ} {r : ResidentChunk C} (h : (W.evict key).resident k = some r) :
    W.resident k = some r := by
  rw [evict] at h
  split_ifs at h with hd
  · exact h
  · split at h
    · exact h
    · change Function.update W.resident key none k = some r at h
      rw [Function.update_apply] at h
      split_ifs at h
      exact h

theorem evict_fields : (W.evict key).residency = W.residency ∧
    (W.evict key).chunkCount = W.chunkCount ∧ (W.evict key).capacity = W.capacity ∧
    (W.evict key).generationClock = W.generationClock := by
  rw [evict]
  split_ifs with hd
  · exact ⟨rfl, rfl, rfl, rfl⟩
  · split <;> exact ⟨rfl, rfl, rfl, rfl⟩

theorem later_evict : W.Later (W.evict key) := by
  obtain ⟨h1, h2, h3, h4⟩ := evict_fields (W := W)
  exact ⟨h1, h2, h3, h4.ge, fun k r hr => Or.inl ⟨r, resident_evict hr, .refl r⟩⟩

theorem later_makeRoom : W.Later W.makeRoom := by
  rw [makeRoom]
  split
  · exact later_evict
  · exact .refl W

/-- **A materialised chunk** has a new generation; the other chunks stay. -/
theorem resident_materialize [Inhabited C] {k : ℕ} {r : ResidentChunk C}
    (h : (W.materialize key).resident k = some r) : W.resident k = some r ∨
      k = key ∧ W.resident key = none ∧ r.generation = W.generationClock + 1 ∧
        r.dirty = {} ∧ r.content = default := by
  rw [materialize] at h
  split at h
  · rename_i hr
    change Function.update W.resident key _ k = some r at h
    rw [Function.update_apply] at h
    split_ifs at h with hk
    · obtain rfl := Option.some.inj h
      exact Or.inr ⟨hk, hr, rfl, rfl, rfl⟩
    · exact Or.inl h
  · exact Or.inl h

theorem later_materialize [Inhabited C] : W.Later (W.materialize key) := by
  have hfields : (W.materialize key).residency = W.residency ∧
      (W.materialize key).chunkCount = W.chunkCount ∧
      (W.materialize key).capacity = W.capacity ∧
      W.generationClock ≤ (W.materialize key).generationClock := by
    rw [materialize]
    split
    · exact ⟨rfl, rfl, rfl, Nat.le_succ _⟩
    · exact ⟨rfl, rfl, rfl, le_rfl⟩
  obtain ⟨h1, h2, h3, h4⟩ := hfields
  refine ⟨h1, h2, h3, h4, fun k r hr => ?_⟩
  rcases resident_materialize hr with hr | ⟨-, -, hg, -⟩
  · exact Or.inl ⟨r, hr, .refl r⟩
  · exact Or.inr (by omega)

theorem resident_touch {k : ℕ} : (W.touch key).resident k = W.resident k := by
  rw [touch]
  split_ifs <;> rfl

theorem resident_makeRoom {k : ℕ} {r : ResidentChunk C} (h : W.makeRoom.resident k = some r) :
    W.resident k = some r := by
  rw [makeRoom] at h
  split at h
  · exact resident_evict h
  · exact h

/-- **Only the key itself** can become resident. -/
theorem resident_ensureResident [Inhabited C] {k : ℕ} {r : ResidentChunk C}
    (h : (W.ensureResident key).resident k = some r) :
    W.resident k = some r ∨ k = key ∧ W.resident key = none := by
  rw [ensureResident] at h
  split_ifs at h with h1 h2
  · exact Or.inl h
  · exact Or.inl (resident_touch ▸ h)
  · rcases resident_materialize h with h | ⟨hk, -⟩
    · exact Or.inl (resident_makeRoom h)
    · exact Or.inr ⟨hk, by simpa using h2⟩

theorem later_ensureResident [Inhabited C] : W.Later (W.ensureResident key) := by
  rw [ensureResident]
  split_ifs
  · exact .refl W
  · exact later_touch
  · exact later_makeRoom.trans later_materialize

end ChunkStore

end Tess
