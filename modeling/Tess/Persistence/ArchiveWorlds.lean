import Tess.Persistence.WorldArchive

/-!
# Chunks of an archived world

What the operations of a world do to its chunks, whatever its residency policy.

* `ArchiveWorld.Valid.chunk_iff` : the resident keys are those with a chunk;
* `ArchiveWorld.Valid.setChunk` : **a write changes one chunk**;
* `ArchiveWorld.Valid.prepareWorldForLoad` : **preparation leaves exactly the keys of the
  archive**, and new chunks in a sparse world.
-/

namespace Tess

/-- Keys in order that are as many as there are chunks are all keys. -/
theorem eq_range_of_sorted {n : ℕ} {keys : List ℕ} (hsorted : keys.Pairwise (· < ·))
    (hlt : ∀ key ∈ keys, key < n) (hlen : keys.length = n) : keys = List.range n := by
  have hsub : keys ⊆ List.range n := fun key hk => List.mem_range.2 (hlt key hk)
  have hperm : keys.Perm (List.range n) := by
    have hnodup : keys.Nodup := hsorted.imp fun h => h.ne
    exact (hnodup.subperm hsub).perm_of_length_le (by rw [List.length_range, hlen])
  exact hperm.eq_of_pairwise' hsorted List.pairwise_lt_range

/-! ### Sparse worlds -/

namespace SparseWorld

variable {C : Type} {W W' : SparseWorld C} {S : ResidentSet} {key k slot : ℕ}
  {keys : List ℕ}

/-- The columns are no part of the bookkeeping. -/
theorem Refines.withColumns (h : W.Refines [] S) (columns : ℕ → C) :
    Refines { W with columns := columns } [] S := by
  obtain ⟨order, hcons, hused⟩ := h.order
  exact { h with order := ⟨order, { hcons with }, hused⟩ }

/-- A key that is found is the key of its slot, which is resident. -/
theorem Refines.of_find (h : W.Refines [] S) (hfind : (W.directory.find key).join = some slot) :
    slot ∈ W.residentSlots ∧ W.slotKey slot = key := by
  obtain ⟨order, hcons, -⟩ := h.order
  obtain ⟨r, hr, hmaps⟩ := hcons.find_spec key
  rw [hr, Option.join_some] at hfind
  exact (hmaps slot).1 hfind

theorem Refines.find_isSome_iff (h : W.Refines [] S) :
    (∃ slot, (W.directory.find key).join = some slot) ↔ key ∈ W.residentKeys := by
  obtain ⟨order, hcons, -⟩ := h.order
  constructor
  · rintro ⟨slot, hfind⟩
    obtain ⟨hs, rfl⟩ := h.of_find hfind
    exact hcons.keys ▸ List.mem_map_of_mem hs
  · intro hk
    obtain ⟨slot, -, -, hfind, -⟩ := h.exists_slot (h.mem_used.2 hk)
    exact ⟨slot, by rw [hfind, Option.join_some]⟩

/-- **Evicting every chunk** ends with none. -/
theorem Refines.evictAll (h : W.Refines [] S) (hperm : S.used.Perm keys) :
    ∃ W' S', keys.foldlM (fun W key => (W.evict key).map Prod.fst) W = some W' ∧
      W'.Refines [] S' ∧ S'.used = [] ∧ S'.chunkCount = S.chunkCount ∧
      S'.capacity = S.capacity := by
  induction keys generalizing W S with
  | nil => exact ⟨W, S, rfl, h, hperm.eq_nil, rfl, rfl⟩
  | cons key keys ih =>
    have hmem : key ∈ S.used := hperm.mem_iff.2 List.mem_cons_self
    obtain ⟨W₁, hcall, h₁⟩ := h.call (fun _ => W.columns 0) (.evict key)
    simp only [ResidentSet.step, if_pos hmem] at hcall h₁
    rw [SparseWorld.call, Option.map_eq_some_iff] at hcall
    obtain ⟨r, hevict, hr⟩ := hcall
    have hstep : (W.evict key).map Prod.fst = some W₁ := by
      rw [hevict, Option.map_some, (Prod.mk.inj hr).1]
    obtain ⟨W', S', hrun, h', hnone, hcount, hcap⟩ := ih h₁
      (by simpa [ResidentSet.leave] using hperm.erase key)
    refine ⟨W', S', ?_, h', hnone, hcount, hcap⟩
    rw [List.foldlM_cons, hstep]
    exact hrun

/-- **Entering new keys** into an empty world of enough capacity. -/
theorem Refines.ensureAll (fresh : ℕ → C) (h : W.Refines [] S)
    (hroom : S.used.length + keys.length ≤ S.capacity) (hlt : ∀ key ∈ keys, key < S.chunkCount)
    (hnodup : (S.used ++ keys).Nodup) :
    ∃ W' S', keys.foldlM (fun W key => (W.ensureResident key fresh).map Prod.fst) W = some W' ∧
      W'.Refines [] S' ∧ S'.used = S.used ++ keys ∧ S'.chunkCount = S.chunkCount := by
  induction keys generalizing W S with
  | nil => exact ⟨W, S, rfl, h, by simp, rfl⟩
  | cons key keys ih =>
    rw [List.length_cons] at hroom
    have hkey : key < S.chunkCount := hlt key List.mem_cons_self
    have hnew : key ∉ S.used := fun hk =>
      (List.nodup_append'.1 hnodup).2.2 hk List.mem_cons_self
    have hmake : S.makeRoom = S := by rw [ResidentSet.makeRoom, if_neg (by omega)]
    obtain ⟨W₁, hcall, h₁⟩ := h.call fresh (.ensureResident key)
    simp only [ResidentSet.step, hkey, not_true_eq_false, if_false, if_neg hnew, hmake]
      at hcall h₁
    rw [SparseWorld.call, Option.map_eq_some_iff] at hcall
    obtain ⟨⟨W₂, handle⟩, hensure, hr⟩ := hcall
    obtain rfl : W₂ = W₁ := (Prod.mk.inj hr).1
    have hstep : (W.ensureResident key fresh).map Prod.fst = some W₂ := by
      rw [hensure, Option.map_some]
    obtain ⟨W', S', hrun, h', hused, hcount⟩ := ih h₁
      (by simp only [ResidentSet.enter, List.length_append, List.length_singleton]; omega)
      (fun k hk => hlt k (List.mem_cons_of_mem _ hk)) (by simpa [ResidentSet.enter] using hnodup)
    refine ⟨W', S', ?_, h', ?_, hcount⟩
    · rw [List.foldlM_cons, hstep]
      exact hrun
    · rw [hused]
      simp [ResidentSet.enter]

end SparseWorld

/-! ### Worlds of either policy -/

namespace ArchiveWorld

/-- **Residency calls keep a world valid.** -/
theorem Valid.call {C : Type} {chunkCount : ℕ} {world : SparseWorld C} (fresh : ℕ → C)
    (h : (sparse world : ArchiveWorld C chunkCount .sparseResident).Valid) (c : ResidencyCall) :
    ∃ world' result, world.call fresh c = some (world', result) ∧
      (sparse world' : ArchiveWorld C chunkCount .sparseResident).Valid := by
  obtain ⟨hcount, set, hset⟩ := h
  obtain ⟨world', hcall, h'⟩ := hset.call fresh c
  refine ⟨world', _, hcall, ?_, _, h'⟩
  have hsame : (set.step c).1.chunkCount = set.chunkCount := by
    cases c <;> simp only [ResidentSet.step] <;> split_ifs <;>
      simp [ResidentSet.use, ResidentSet.leave, ResidentSet.enter]
  rw [← h'.chunkCount, hsame, hset.chunkCount, hcount]

variable {C : Type} {chunkCount : ℕ} {residency : Residency}
  {w w' : ArchiveWorld C chunkCount residency} {key k : ℕ} {column : C} {keys : List ℕ}

/-- **The resident keys** are those with a chunk. -/
theorem Valid.chunk_iff (h : w.Valid) :
    (∃ column, w.chunk key = some column) ↔ key ∈ w.archiveChunkKeys := by
  cases w with
  | dense columns =>
    simp only [chunk, archiveChunkKeys, List.mem_range]
    constructor
    · rintro ⟨column, hc⟩
      split_ifs at hc with hlt
      exact hlt
    · intro hlt
      exact ⟨_, dif_pos hlt⟩
  | sparse world =>
    obtain ⟨-, set, hset⟩ := h
    simp only [chunk, archiveChunkKeys, List.mem_insertionSort, ← hset.find_isSome_iff,
      Option.map_eq_some_iff]
    constructor
    · rintro ⟨-, slot, hfind, -⟩
      exact ⟨slot, hfind⟩
    · rintro ⟨slot, hfind⟩
      exact ⟨_, slot, hfind, rfl⟩

/-- The keys stand in order. -/
theorem Valid.sorted (h : w.Valid) : w.archiveChunkKeys.Pairwise (· < ·) := by
  cases w with
  | dense columns => exact List.pairwise_lt_range
  | sparse world =>
    obtain ⟨-, set, hset⟩ := h
    obtain ⟨order, hcons, -⟩ := hset.order
    have hle := List.pairwise_insertionSort (· ≤ ·) world.residentKeys
    have hnodup := (List.perm_insertionSort (· ≤ ·) world.residentKeys).nodup_iff.2
      hcons.keys_nodup
    exact (hle.and hnodup).imp fun hboth => lt_of_le_of_ne hboth.1 hboth.2

theorem Valid.lt (h : w.Valid) (hk : key ∈ w.archiveChunkKeys) : key < chunkCount := by
  cases w with
  | dense columns => exact List.mem_range.1 hk
  | sparse world =>
    obtain ⟨hcount, set, hset⟩ := h
    obtain ⟨order, hcons, -⟩ := hset.order
    exact hcount ▸ hcons.key_lt key ((List.mem_insertionSort (· ≤ ·)).1 hk)

/-- A dense world has every chunk. -/
theorem length_archiveChunkKeys (h : residency = .alwaysResident) :
    w.archiveChunkKeys.length = chunkCount := by
  cases w with
  | dense columns => exact List.length_range
  | sparse world => cases h

/-- As many chunks as a world of the type can have find room in it. -/
theorem le_capacity {count : ℕ} (hcap : residency = .sparseResident → count ≤ w.capacity)
    (hdense : residency = .alwaysResident → count = chunkCount) : count ≤ w.capacity := by
  cases w with
  | dense columns => exact (hdense rfl).le
  | sparse world => exact hcap rfl

/-- **A write** changes one chunk and nothing else. -/
theorem Valid.setChunk (h : w.Valid) (hk : key ∈ w.archiveChunkKeys) (column : C) :
    ∃ w', w.setChunk key column = some w' ∧ w'.Valid ∧
      w'.archiveChunkKeys = w.archiveChunkKeys ∧
      ∀ k, w'.chunk k = if k = key then some column else w.chunk k := by
  cases w with
  | dense columns =>
    have hlt := List.mem_range.1 hk
    refine ⟨dense (Function.update columns ⟨key, hlt⟩ column), dif_pos hlt, trivial, rfl,
      fun k => ?_⟩
    simp only [chunk]
    split_ifs with h₁ h₂ h₂
    · subst h₂
      rw [Function.update_self]
    · rw [Function.update_of_ne (fun heq => h₂ (Fin.mk.inj heq))]
    · exact absurd (h₂ ▸ hlt) h₁
    · rfl
  | sparse world =>
    obtain ⟨hcount, set, hset⟩ := h
    obtain ⟨slot, hfind⟩ := hset.find_isSome_iff.2 ((List.mem_insertionSort (· ≤ ·)).1 hk)
    refine ⟨sparse { world with columns := Function.update world.columns slot column },
      by rw [ArchiveWorld.setChunk, hfind, Option.map_some],
      ⟨hcount, set, hset.withColumns _⟩, rfl, fun k => ?_⟩
    simp only [chunk]
    split_ifs with hkey
    · rw [hkey, hfind, Option.map_some, Function.update_self]
    · cases hother : (world.directory.find k).join with
      | none => rfl
      | some slot' =>
        -- another key has another slot
        have hne : slot' ≠ slot := by
          rintro rfl
          exact hkey ((hset.of_find hother).2.symm.trans (hset.of_find hfind).2)
        rw [Option.map_some, Option.map_some, Function.update_of_ne hne]

/-- **Preparation** leaves exactly the keys of the archive; it fails for none that a world of the
type can hold. -/
theorem Valid.prepareWorldForLoad (h : w.Valid) (fresh : ℕ → C)
    (hsorted : keys.Pairwise (· < ·)) (hlt : ∀ key ∈ keys, key < chunkCount)
    (hcap : keys.length ≤ w.capacity)
    (hdense : residency = .alwaysResident → keys.length = chunkCount) :
    ∃ w', w.prepareWorldForLoad fresh keys = some w' ∧ w'.Valid ∧ w'.archiveChunkKeys = keys := by
  cases w with
  | dense columns =>
    exact ⟨_, rfl, trivial, (eq_range_of_sorted hsorted hlt (hdense rfl)).symm⟩
  | sparse world =>
    obtain ⟨hcount, set, hset⟩ := h
    have hperm : set.used.Perm world.residentKeys := by
      obtain ⟨order, hcons, hused⟩ := hset.order
      exact hused ▸ hcons.order_keys
    obtain ⟨W₁, S₁, hevict, h₁, hnone, hcount₁, hcap₁⟩ := hset.evictAll hperm
    have hchunks : S₁.chunkCount = chunkCount := by rw [hcount₁, hset.chunkCount, hcount]
    have hcapacity : S₁.capacity = world.capacity := by rw [hcap₁, hset.capacity]
    obtain ⟨W₂, S₂, hensure, h₂, hused, hcount₂⟩ := h₁.ensureAll fresh
      (by rw [hnone, hcapacity, List.length_nil, Nat.zero_add]; exact hcap)
      (fun key hk => hchunks ▸ hlt key hk)
      (by rw [hnone, List.nil_append]; exact hsorted.imp fun hlt => hlt.ne)
    refine ⟨sparse W₂, ?_, ⟨by rw [← h₂.chunkCount, hcount₂, hchunks], S₂, h₂⟩, ?_⟩
    · simp [ArchiveWorld.prepareWorldForLoad, hevict, hensure]
    · rw [hnone, List.nil_append] at hused
      obtain ⟨order, hcons, hused₂⟩ := h₂.order
      have hkeys : W₂.residentKeys.Perm keys := by
        rw [← hused, hused₂]
        exact hcons.order_keys.symm
      exact ((List.perm_insertionSort (· ≤ ·) _).trans hkeys).eq_of_pairwise'
        (List.pairwise_insertionSort _ _) (hsorted.imp fun hlt => hlt.le)

end ArchiveWorld

end Tess
