import Tess.Lib.LinkedList
import Tess.Storage.ChunkDirectory

/-!
# The residency bookkeeping of a sparse world

A sparse world keeps at most `capacity` chunks.  Each resident chunk has a slot, and five
structures say so: the directory from keys to slots, the dense arrays of resident keys and slots
with the position of each slot in them, the stack of free slots, and the intrusive list of slots
in order of their last use.

* `SparseWorld.ensureResident`, `SparseWorld.touch`, `SparseWorld.evict` : the residency
  operations, none when a probe loop would not end or an access would be out of range;
* `SparseWorld.Consistent` : **what the five structures agree on**, for a given order of use;
* `find_spec`, `materialize`, `giveBack` : what the parts of a call do to these structures.
-/

namespace Tess

open Linked

/-- Generation-stamped identity of one residency interval of a chunk. -/
structure ResidencyHandle where
  /-- Chunk key. -/
  key : ℕ := 0
  /-- Residency generation; zero is invalid. -/
  generation : ℕ := 0
  deriving DecidableEq, Repr

/-- `World<Shape, Schema, SparseResident>`, with pages and metadata of type `C` by slot. -/
structure SparseWorld (C : Type) where
  /-- Number of chunks of the shape. -/
  chunkCount : ℕ
  /-- Number of slots. -/
  capacity : ℕ
  /-- Number of materialisations so far. -/
  generationClock : ℕ
  /-- Page and metadata of a slot. -/
  columns : ℕ → C
  /-- Key of a slot. -/
  slotKey : ℕ → ℕ
  /-- Generation of a slot. -/
  slotGeneration : ℕ → ℕ
  /-- `lru_prev_`, `lru_next_`, `lru_head_` and `lru_tail_`. -/
  lru : Links ℕ
  /-- Position of a slot among the resident ones. -/
  slotPosition : ℕ → ℕ
  /-- Resident keys, in no particular order. -/
  residentKeys : List ℕ
  /-- The slots of the resident keys. -/
  residentSlots : List ℕ
  /-- Free slots; the last one is taken next. -/
  freeSlots : List ℕ
  /-- Directory from keys to slots. -/
  directory : ChunkDirectory

namespace SparseWorld

variable {C : Type}

/-! ### The operations -/

/-- `World::clamp_capacity`. -/
def clampCapacity (pageByteSize byteBudget : ℕ) : ℕ :=
  if pageByteSize = 0 then 1
  else if byteBudget / pageByteSize < 1 then 1 else byteBudget / pageByteSize

/-- The world that the constructor makes. -/
def create (fresh : ℕ → C) (chunkCount capacity : ℕ) : SparseWorld C where
  chunkCount := chunkCount
  capacity := capacity
  generationClock := 0
  columns := fun _ => fresh 0
  slotKey := fun _ => 0
  slotGeneration := fun _ => 0
  lru := .empty
  slotPosition := fun _ => 0
  residentKeys := []
  residentSlots := []
  freeSlots := (List.range capacity).reverse
  directory := .reset capacity chunkCount

section Operations

variable (W : SparseWorld C) (key slot : ℕ)

/-- `World::residency_generation`. -/
def residencyGeneration : Option ℕ :=
  (W.directory.find key).map fun r => (r.map W.slotGeneration).getD 0

/-- `World::valid`. -/
def valid (handle : ResidencyHandle) : Option Bool :=
  (W.residencyGeneration handle.key).map fun g =>
    handle.generation ≠ 0 && g = handle.generation

/-- `World::release_slot`. -/
def releaseSlot : Option (SparseWorld C) := do
  let (directory, _) ← W.directory.erase (W.slotKey slot)
  let position := W.slotPosition slot
  let lastKey ← W.residentKeys.getLast?
  let lastSlot ← W.residentSlots.getLast?
  -- an out-of-range position would write past the arrays
  guard (position < W.residentKeys.length)
  return { W with
    lru := W.lru.unlink slot
    directory := directory
    residentKeys := (W.residentKeys.set position lastKey).dropLast
    residentSlots := (W.residentSlots.set position lastSlot).dropLast
    slotPosition := Function.update W.slotPosition lastSlot position }

/-- `World::evict_least_recently_used`, with the slot it frees. -/
def evictLeastRecentlyUsed : Option (SparseWorld C × ℕ) := do
  let victim ← W.lru.head
  let W ← W.releaseSlot victim
  return (W, victim)

/-- `World::acquire_slot`. -/
def acquireSlot : Option (SparseWorld C × ℕ) :=
  match W.freeSlots.getLast? with
  | some slot => some ({ W with freeSlots := W.freeSlots.dropLast }, slot)
  | none => W.evictLeastRecentlyUsed

/-- `World::ensure_resident`, with the page that a reset gives a key. -/
def ensureResident (fresh : ℕ → C) : Option (SparseWorld C × ResidencyHandle) :=
  if ¬ key < W.chunkCount then some (W, {})
  else do
    match ← W.directory.find key with
    | some slot =>
      return ({ W with lru := W.lru.moveToBack slot }, ⟨key, W.slotGeneration slot⟩)
    | none =>
      let (W, slot) ← W.acquireSlot
      let directory ← W.directory.insert key slot
      return ({ W with
        columns := Function.update W.columns slot (fresh key)
        slotKey := Function.update W.slotKey slot key
        slotGeneration := Function.update W.slotGeneration slot (W.generationClock + 1)
        generationClock := W.generationClock + 1
        lru := W.lru.pushBack slot
        slotPosition := Function.update W.slotPosition slot W.residentKeys.length
        residentKeys := W.residentKeys ++ [key]
        residentSlots := W.residentSlots ++ [slot]
        directory := directory }, ⟨key, W.generationClock + 1⟩)

/-- `World::touch`. -/
def touch : Option (SparseWorld C × Bool) := do
  match ← W.directory.find key with
  | none => return (W, false)
  | some slot => return ({ W with lru := W.lru.moveToBack slot }, true)

/-- `World::evict`. -/
def evict : Option (SparseWorld C × Bool) := do
  match ← W.directory.find key with
  | none => return (W, false)
  | some slot =>
    let W ← W.releaseSlot slot
    return ({ W with freeSlots := W.freeSlots ++ [slot] }, true)

end Operations

/-! ### Removal by swapping with the last -/

section SwapRemove

variable {α : Type*} {xs : List α} {x last : α} {p : ℕ}

theorem getElem?_swapRemove (i : ℕ) :
    (xs.set p last).dropLast[i]? =
      if i + 1 < xs.length then if i = p then some last else xs[i]? else none := by
  rw [List.getElem?_dropLast, List.length_set, List.getElem?_set]
  split_ifs <;> first | rfl | omega

/-- Removing a position removes its element. -/
theorem perm_swapRemove (hlast : xs.getLast? = some last) (hx : xs[p]? = some x) :
    (x :: (xs.set p last).dropLast).Perm xs := by
  obtain ⟨l, rfl⟩ := List.getLast?_eq_some_iff.1 hlast
  rcases lt_or_ge p l.length with hlt | hge
  · rw [List.getElem?_append_left hlt, List.getElem?_eq_getElem hlt, Option.some.injEq] at hx
    rw [List.set_append_left _ _ hlt, List.dropLast_concat]
    obtain ⟨a, b, rfl, rfl⟩ : ∃ a b, l = a ++ x :: b ∧ p = a.length :=
      ⟨l.take p, l.drop (p + 1), by rw [← hx, List.cons_getElem_drop_succ, List.take_append_drop],
        by rw [List.length_take]; omega⟩
    rw [List.set_append_right _ _ le_rfl, Nat.sub_self, List.set_cons_zero]
    calc (x :: (a ++ last :: b)).Perm (x :: last :: (a ++ b)) := List.perm_middle.cons x
      _ |>.Perm (last :: x :: (a ++ b)) := List.Perm.swap ..
      _ |>.Perm (last :: (a ++ x :: b)) := List.perm_middle.symm.cons last
      _ |>.Perm (a ++ x :: b ++ [last]) := (List.perm_append_singleton ..).symm
  · have hp : p = l.length := by
      have := (List.getElem?_eq_some_iff.1 hx).1
      simp only [List.length_append, List.length_singleton] at this
      omega
    subst hp
    rw [List.getElem?_concat_length, Option.some.injEq] at hx
    subst hx
    rw [List.set_append_right _ _ le_rfl, Nat.sub_self, List.set_cons_zero, List.dropLast_concat]
    exact (List.perm_append_singleton ..).symm

end SwapRemove

/-! ### The invariant -/

/-- **What the bookkeeping agrees on**, for slots in order of their last use; a slot in hand is one
that was taken and has no chunk yet. -/
structure Consistent (W : SparseWorld C) (inHand order : List ℕ) : Prop where
  /-- There is a slot. -/
  capacity_pos : 0 < W.capacity
  /-- The directory is in order. -/
  directory : W.directory.Ok W.chunkCount W.capacity
  /-- The directory maps the keys of the resident slots. -/
  maps : ∀ key slot, W.directory.Maps key slot ↔ slot ∈ W.residentSlots ∧ W.slotKey slot = key
  /-- The resident keys are the keys of the resident slots. -/
  keys : W.residentKeys = W.residentSlots.map W.slotKey
  /-- No key is resident twice. -/
  keys_nodup : W.residentKeys.Nodup
  /-- Resident keys are keys of the shape. -/
  key_lt : ∀ key ∈ W.residentKeys, key < W.chunkCount
  /-- Every resident slot knows its position. -/
  position : ∀ i slot, W.residentSlots[i]? = some slot → W.slotPosition slot = i
  /-- Free and resident slots are all slots, each once. -/
  partition : (W.freeSlots ++ inHand ++ W.residentSlots).Perm (List.range W.capacity)
  /-- The list of use visits the order. -/
  lru : W.lru.Spells order
  /-- The order is one of the resident slots. -/
  order : order.Perm W.residentSlots
  /-- Generations of resident slots are nonzero and were handed out. -/
  generation : ∀ slot ∈ W.residentSlots,
    0 < W.slotGeneration slot ∧ W.slotGeneration slot ≤ W.generationClock

variable {W W' : SparseWorld C} {inHand order : List ℕ} {key slot : ℕ} {fresh : ℕ → C}

/-- The world that the constructor makes is consistent. -/
theorem consistent_create (chunkCount : ℕ) {capacity : ℕ} (h : 0 < capacity) :
    (create fresh chunkCount capacity).Consistent [] [] where
  capacity_pos := h
  directory := ChunkDirectory.ok_reset
  maps key slot := by
    simp only [create, List.not_mem_nil, false_and, iff_false]
    exact ChunkDirectory.maps_reset
  keys := rfl
  keys_nodup := List.nodup_nil
  key_lt key hk := by cases hk
  position i slot hi := by simp [create] at hi
  partition := by simp [create]
  lru := Links.spells_empty
  order := List.Perm.nil
  generation slot hs := by cases hs

theorem one_le_clampCapacity (pageByteSize byteBudget : ℕ) :
    0 < clampCapacity pageByteSize byteBudget := by
  unfold clampCapacity
  split_ifs <;> omega

namespace Consistent

section Facts

variable (h : W.Consistent inHand order)

include h

/-- Resident slots are distinct. -/
theorem slots_nodup : W.residentSlots.Nodup :=
  (List.nodup_append'.1 (h.partition.nodup_iff.2 List.nodup_range)).2.1

/-- Resident keys and slots pair up. -/
theorem length_keys : W.residentKeys.length = W.residentSlots.length := by
  rw [h.keys, List.length_map]

/-- Every slot is free, in hand or resident. -/
theorem length_slots :
    W.freeSlots.length + inHand.length + W.residentSlots.length = W.capacity := by
  have := h.partition.length_eq
  rwa [List.length_append, List.length_append, List.length_range] at this

/-- There are at most as many resident chunks as slots. -/
theorem length_le : W.residentKeys.length ≤ W.capacity := by
  have := h.length_slots
  rw [h.length_keys]
  omega

theorem mem_keys : key ∈ W.residentKeys ↔ ∃ slot, W.directory.Maps key slot := by
  rw [h.keys, List.mem_map]
  simp only [h.maps]

theorem mem_order : slot ∈ order ↔ slot ∈ W.residentSlots := h.order.mem_iff

/-- The keys in order of use are the resident ones. -/
theorem order_keys : (order.map W.slotKey).Perm W.residentKeys := h.keys ▸ h.order.map _

/-- Distinct resident slots have distinct keys. -/
theorem slotKey_inj {slot slot' : ℕ} (hs : slot ∈ W.residentSlots) (hs' : slot' ∈ W.residentSlots)
    (heq : W.slotKey slot = W.slotKey slot') : slot = slot' :=
  List.inj_on_of_nodup_map (h.keys ▸ h.keys_nodup) hs hs' heq

/-- A slot in hand is not resident. -/
theorem not_mem_of_inHand (hs : slot ∈ inHand) : slot ∉ W.residentSlots := fun hr =>
  (List.nodup_append'.1 (h.partition.nodup_iff.2 List.nodup_range)).2.2
    (List.mem_append_right _ hs) hr

/-- **A lookup** ends and finds the slot of a resident key. -/
theorem find_spec (key : ℕ) : ∃ r, W.directory.find key = some r ∧
    ∀ slot, r = some slot ↔ slot ∈ W.residentSlots ∧ W.slotKey slot = key := by
  obtain ⟨r, hr, hmaps⟩ := ChunkDirectory.find_spec h.directory
    (fun k s hk => h.mem_keys.2 ⟨s, hk⟩) h.length_le
  exact ⟨r, hr, fun slot => (hmaps slot).trans (h.maps key slot)⟩

/-- The lookup of a resident key. -/
theorem find_resident (hs : slot ∈ W.residentSlots) :
    W.directory.find (W.slotKey slot) = some (some slot) := by
  obtain ⟨r, hr, hmaps⟩ := h.find_spec (W.slotKey slot)
  rw [hr, (hmaps slot).2 ⟨hs, rfl⟩]

/-- The lookup of a key that is not resident. -/
theorem find_missing (hk : key ∉ W.residentKeys) : W.directory.find key = some none := by
  obtain ⟨r, hr, hmaps⟩ := h.find_spec key
  rw [hr]
  cases r with
  | none => rfl
  | some slot =>
    obtain ⟨hs, rfl⟩ := (hmaps slot).1 rfl
    exact absurd (h.keys ▸ List.mem_map_of_mem hs) hk

/-- The keys in order of use without that of one slot. -/
theorem map_erase (hs : slot ∈ W.residentSlots) :
    (order.map W.slotKey).erase (W.slotKey slot) = (order.erase slot).map W.slotKey := by
  obtain ⟨l₁, l₂, rfl⟩ := List.append_of_mem (h.mem_order.2 hs)
  have hnd := h.lru.nodup
  have hnd' := h.order_keys.nodup_iff.2 h.keys_nodup
  rw [List.map_append, List.map_cons] at hnd' ⊢
  have h₁ : slot ∉ l₁ := fun hm => (List.nodup_append'.1 hnd).2.2 hm List.mem_cons_self
  have h₂ : W.slotKey slot ∉ l₁.map W.slotKey := fun hm =>
    (List.nodup_append'.1 hnd').2.2 hm List.mem_cons_self
  rw [List.erase_append_right _ h₁, List.erase_append_right _ h₂, List.erase_cons_head,
    List.erase_cons_head, List.map_append]

/-- Moving a resident slot to the recently used end. -/
theorem moveToBack (hs : slot ∈ W.residentSlots) :
    Consistent { W with lru := W.lru.moveToBack slot } inHand (order.erase slot ++ [slot]) := by
  have hmem : slot ∈ order := h.order.mem_iff.2 hs
  refine { h with lru := h.lru.moveToBack hmem, order := ?_ }
  calc (order.erase slot ++ [slot]).Perm (slot :: order.erase slot) := List.perm_append_singleton ..
    _ |>.Perm order := (List.perm_cons_erase hmem).symm
    _ |>.Perm W.residentSlots := h.order

/-- **Releasing a resident slot** ends, and leaves the slot in hand. -/
theorem releaseSlot (hs : slot ∈ W.residentSlots) : ∃ W', W.releaseSlot slot = some W' ∧
    W'.Consistent (slot :: inHand) (order.erase slot) ∧ W'.chunkCount = W.chunkCount ∧
      W'.capacity = W.capacity ∧ W'.generationClock = W.generationClock ∧
      W'.columns = W.columns ∧ W'.slotKey = W.slotKey ∧
      W'.slotGeneration = W.slotGeneration ∧ W'.freeSlots = W.freeSlots := by
  obtain ⟨directory, herase, hok, hmaps⟩ := ChunkDirectory.erase_spec
    h.directory (fun k s hk => h.mem_keys.2 ⟨s, hk⟩) h.length_le ((h.maps _ _).2 ⟨hs, rfl⟩)
  obtain ⟨p, hp⟩ := List.mem_iff_getElem?.1 hs
  have hpos := h.position p slot hp
  have hplt : p < W.residentSlots.length := (List.getElem?_eq_some_iff.1 hp).1
  obtain ⟨lastSlot, hlast⟩ : ∃ s, W.residentSlots.getLast? = some s :=
    Option.ne_none_iff_exists'.1 fun hnone => by
      rw [List.getLast?_eq_none_iff] at hnone
      simp [hnone] at hs
  have hlastKey : W.residentKeys.getLast? = some (W.slotKey lastSlot) := by
    rw [h.keys, List.getLast?_map, hlast]; rfl
  -- the keys are those of the slots, before and after the last one moved
  have hkeys : (W.residentKeys.set p (W.slotKey lastSlot)).dropLast =
      ((W.residentSlots.set p lastSlot).dropLast).map W.slotKey := by
    rw [h.keys, List.map_dropLast, List.map_set]
  have hperm := perm_swapRemove hlast hp
  have hmem : ∀ s, s ∈ (W.residentSlots.set p lastSlot).dropLast ↔
      s ∈ W.residentSlots ∧ s ≠ slot := by
    have hnd := hperm.nodup_iff.2 h.slots_nodup
    intro s
    rw [← hperm.mem_iff, List.mem_cons]
    constructor
    · intro hs'
      refine ⟨Or.inr hs', ?_⟩
      rintro rfl
      exact (List.nodup_cons.1 hnd).1 hs'
    · rintro ⟨rfl | hs', hne⟩
      · exact absurd rfl hne
      · exact hs'
  refine ⟨{ W with
    lru := W.lru.unlink slot
    directory := directory
    residentKeys := (W.residentKeys.set p (W.slotKey lastSlot)).dropLast
    residentSlots := (W.residentSlots.set p lastSlot).dropLast
    slotPosition := Function.update W.slotPosition lastSlot p }, ?_, ?_,
    rfl, rfl, rfl, rfl, rfl, rfl, rfl⟩
  · have hguard : p < W.residentKeys.length := by rwa [h.length_keys]
    simp [SparseWorld.releaseSlot, herase, hpos, hlast, hlastKey, hguard, guard]
  · refine ⟨h.capacity_pos, hok, ?_, hkeys, ?_, ?_, ?_, ?_, ?_, ?_, ?_⟩
    · intro k s
      simp only [hmaps, h.maps, hmem]
      constructor
      · rintro ⟨hk, hs', rfl⟩
        exact ⟨⟨hs', fun heq => hk (congrArg W.slotKey heq)⟩, rfl⟩
      · rintro ⟨⟨hs', hne⟩, rfl⟩
        exact ⟨fun heq => hne (h.slotKey_inj hs' hs heq), hs', rfl⟩
    · have := (hperm.map W.slotKey).nodup_iff.2 (h.keys ▸ h.keys_nodup)
      rw [List.map_cons, List.nodup_cons, ← hkeys] at this
      exact this.2
    · intro k hk
      simp only [hkeys, List.mem_map, hmem] at hk
      obtain ⟨s, ⟨hs', -⟩, rfl⟩ := hk
      exact h.key_lt _ (h.keys ▸ List.mem_map_of_mem hs')
    · intro i s hi
      simp only [getElem?_swapRemove] at hi
      split_ifs at hi with hlt hip
      · obtain rfl := Option.some.inj hi
        simp [hip]
      · -- the last slot stands at no other position that is left
        have hne : s ≠ lastSlot := by
          rintro rfl
          have h1 := h.position i s hi
          have h2 := h.position (W.residentSlots.length - 1) s
            (by rw [← List.getLast?_eq_getElem?, hlast])
          omega
        simp only [Function.update_of_ne hne]
        exact h.position i s hi
    · calc (W.freeSlots ++ slot :: inHand ++ (W.residentSlots.set p lastSlot).dropLast).Perm
            (W.freeSlots ++ inHand ++ slot :: (W.residentSlots.set p lastSlot).dropLast) := by
            simp only [List.append_assoc, List.cons_append]
            exact (List.perm_middle.symm).append_left _
        _ |>.Perm (W.freeSlots ++ inHand ++ W.residentSlots) := hperm.append_left _
        _ |>.Perm (List.range W.capacity) := h.partition
    · exact h.lru.unlink (h.mem_order.2 hs)
    · have := (List.perm_cons_erase (h.mem_order.2 hs)).symm.trans (h.order.trans hperm.symm)
      exact this.cons_inv
    · intro s hs'
      exact h.generation s ((hmem s).1 hs').1

end Facts

/-- **A slot for a new chunk**: a free one, or that of the least recently used chunk, which is
released. -/
theorem acquireSlot (h : W.Consistent [] order) : ∃ W' slot, W.acquireSlot = some (W', slot) ∧
    W'.Consistent [slot] (if W.residentKeys.length = W.capacity then order.tail else order) ∧
      W'.chunkCount = W.chunkCount ∧ W'.capacity = W.capacity ∧
      W'.generationClock = W.generationClock ∧ W'.columns = W.columns ∧ W'.slotKey = W.slotKey ∧
      W'.slotGeneration = W.slotGeneration := by
  have hlen := h.length_slots
  rw [List.length_nil, Nat.add_zero] at hlen
  have hpos := h.capacity_pos
  unfold SparseWorld.acquireSlot
  cases hf : W.freeSlots.getLast? with
  | some slot =>
    obtain ⟨free, hfree⟩ := List.getLast?_eq_some_iff.1 hf
    have hroom : W.residentKeys.length ≠ W.capacity := by
      rw [h.length_keys]
      have : 0 < W.freeSlots.length := by simp [hfree]
      omega
    rw [if_neg hroom]
    refine ⟨_, slot, rfl, { h with partition := ?_ }, rfl, rfl, rfl, rfl, rfl, rfl⟩
    have := h.partition
    rw [List.append_nil, hfree] at this
    simpa only [hfree, List.dropLast_concat] using this
  | none =>
    rw [List.getLast?_eq_none_iff] at hf
    have hfull : W.residentKeys.length = W.capacity := by
      rw [h.length_keys]
      simp only [hf, List.length_nil] at hlen
      omega
    obtain ⟨victim, rest, horder⟩ : ∃ v r, order = v :: r := by
      cases horder : order with
      | nil =>
        have := h.order.length_eq
        rw [horder, List.length_nil, ← h.length_keys] at this
        omega
      | cons v r => exact ⟨v, r, rfl⟩
    have hvictim : victim ∈ W.residentSlots := h.mem_order.1 (horder ▸ List.mem_cons_self)
    obtain ⟨W', hrun, hcons, hsame⟩ := h.releaseSlot hvictim
    have hhead : W.lru.head = some victim := by rw [h.lru.head, horder, List.head?_cons]
    rw [if_pos hfull, horder, List.tail_cons]
    rw [horder, List.erase_cons_head] at hcons
    refine ⟨W', victim, ?_, hcons, hsame.1, hsame.2.1, hsame.2.2.1, hsame.2.2.2.1,
      hsame.2.2.2.2.1, hsame.2.2.2.2.2.1⟩
    simp [SparseWorld.evictLeastRecentlyUsed, hhead, hrun]

variable (fresh) in
/-- **A new chunk** in a slot in hand is the most recently used one. -/
theorem materialize (h : W.Consistent [slot] order) (hkey : key < W.chunkCount)
    (hnew : key ∉ W.residentKeys) : ∃ directory, W.directory.insert key slot = some directory ∧
      Consistent { W with
        columns := Function.update W.columns slot (fresh key)
        slotKey := Function.update W.slotKey slot key
        slotGeneration := Function.update W.slotGeneration slot (W.generationClock + 1)
        generationClock := W.generationClock + 1
        lru := W.lru.pushBack slot
        slotPosition := Function.update W.slotPosition slot W.residentKeys.length
        residentKeys := W.residentKeys ++ [key]
        residentSlots := W.residentSlots ++ [slot]
        directory := directory } [] (order ++ [slot]) := by
  have hslot := h.not_mem_of_inHand (List.mem_singleton_self slot)
  have hne : ∀ s ∈ W.residentSlots, s ≠ slot := fun s hs heq => hslot (heq ▸ hs)
  obtain ⟨directory, hinsert, hok, hmaps⟩ := ChunkDirectory.insert_spec h.directory
    (fun k s hk => h.mem_keys.2 ⟨s, hk⟩) h.length_le hkey
    (fun s hs => hnew (h.mem_keys.2 ⟨s, hs⟩))
  refine ⟨directory, hinsert, ?_⟩
  refine ⟨h.capacity_pos, hok, ?_, ?_, ?_, ?_, ?_, ?_, ?_, ?_, ?_⟩
  · intro k s
    simp only [hmaps, h.maps, List.mem_append, List.mem_singleton, Function.update_apply]
    constructor
    · rintro (⟨rfl, rfl⟩ | ⟨hs, rfl⟩)
      · simp
      · simp [hs, hne s hs]
    · rintro ⟨hs | rfl, hk⟩
      · rw [if_neg (hne s hs)] at hk
        exact Or.inr ⟨hs, hk⟩
      · rw [if_pos rfl] at hk
        exact Or.inl ⟨hk.symm, rfl⟩
  · simp only [List.map_append, List.map_singleton, Function.update_self, h.keys]
    congr 1
    exact List.map_congr_left fun s hs => (Function.update_of_ne (hne s hs) ..).symm
  · exact List.nodup_append'.2 ⟨h.keys_nodup, List.nodup_singleton key, by simpa using hnew⟩
  · intro k hk
    rcases List.mem_append.1 hk with hk | hk
    · exact h.key_lt k hk
    · rwa [List.mem_singleton.1 hk]
  · intro i s hi
    simp only [List.getElem?_append, Function.update_apply] at hi ⊢
    split_ifs at hi with hlt
    · rw [if_neg (hne s (List.mem_of_getElem? hi)), h.position i s hi]
    · obtain ⟨hi0, rfl⟩ : i - W.residentSlots.length = 0 ∧ slot = s := by
        simpa [List.getElem?_singleton] using hi
      rw [if_pos rfl, h.length_keys]
      omega
  · have := h.partition
    simp only [List.append_nil]
    calc (W.freeSlots ++ (W.residentSlots ++ [slot])).Perm
          (W.freeSlots ++ ([slot] ++ W.residentSlots)) :=
          List.perm_append_comm.append_left _
      _ |>.Perm (List.range W.capacity) := by rwa [← List.append_assoc]
  · exact h.lru.pushBack fun hs => hslot (h.mem_order.1 hs)
  · exact h.order.append_right _
  · intro s hs
    simp only [Function.update_apply]
    rcases List.mem_append.1 hs with hs | hs
    · rw [if_neg (hne s hs)]
      have := h.generation s hs
      omega
    · rw [if_pos (List.mem_singleton.1 hs)]
      omega

/-- A slot in hand goes back to the free ones. -/
theorem giveBack (h : W.Consistent [slot] order) :
    Consistent { W with freeSlots := W.freeSlots ++ [slot] } [] order := by
  refine { h with partition := ?_ }
  simpa only [List.append_nil] using h.partition

end Consistent

end SparseWorld

end Tess
