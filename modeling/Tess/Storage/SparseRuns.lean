import Tess.Storage.SparseWorld

/-!
# Runs of residency calls

`ResidentSet` says what a sparse world is for: a bounded set of chunks in order of their last use,
each with the generation of its residency.  The bookkeeping of `SparseWorld` refines it, call by
call, and what holds along every run of calls is proved of the set.

* `ResidentSet.step` : one call on the set;
* `SparseWorld.Refines` and `SparseWorld.Refines.call` : **the bookkeeping refines the set**;
* `ResidencyHistory` : a run with the time of the last use of every chunk and the handles that
  were handed out;
* `sparse_residency` : **the claim about every run of calls**.
-/

namespace Tess

/-- A residency operation. -/
inductive ResidencyCall
  | ensureResident (key : ℕ)
  | touch (key : ℕ)
  | evict (key : ℕ)
  deriving DecidableEq, Repr

/-- What a residency operation returns. -/
inductive ResidencyResult
  | handle (handle : ResidencyHandle)
  | found (found : Bool)
  deriving DecidableEq, Repr

namespace ResidencyCall

/-- The chunk that the call is about. -/
def key : ResidencyCall → ℕ
  | ensureResident key => key
  | touch key => key
  | evict key => key

end ResidencyCall

/-- Call an operation. -/
def SparseWorld.call {C : Type} (fresh : ℕ → C) (W : SparseWorld C) :
    ResidencyCall → Option (SparseWorld C × ResidencyResult)
  | .ensureResident key => (W.ensureResident key fresh).map fun p => (p.1, .handle p.2)
  | .touch key => (W.touch key).map fun p => (p.1, .found p.2)
  | .evict key => (W.evict key).map fun p => (p.1, .found p.2)

/-! ### The set of resident chunks -/

/-- A bounded set of resident chunks. -/
structure ResidentSet where
  /-- Number of chunks of the shape. -/
  chunkCount : ℕ
  /-- Largest number of resident chunks. -/
  capacity : ℕ
  /-- Number of materialisations so far. -/
  clock : ℕ
  /-- Resident chunks, the least recently used first. -/
  used : List ℕ
  /-- Generation of a resident chunk; zero for the others. -/
  generation : ℕ → ℕ

namespace ResidentSet

variable (S : ResidentSet) (key : ℕ)

/-- A resident chunk is used. -/
def use : ResidentSet := { S with used := S.used.erase key ++ [key] }

/-- A resident chunk leaves. -/
def leave : ResidentSet :=
  { S with
    used := S.used.erase key
    generation := Function.update S.generation key 0 }

/-- A full set gives up its least recently used chunk. -/
def makeRoom : ResidentSet :=
  if S.used.length = S.capacity then
    match S.used with
    | [] => S
    | victim :: _ => S.leave victim
  else S

/-- A chunk enters with a new generation. -/
def enter : ResidentSet :=
  { S with
    clock := S.clock + 1
    used := S.used ++ [key]
    generation := Function.update S.generation key (S.clock + 1) }

/-- One call on the set. -/
def step : ResidencyCall → ResidentSet × ResidencyResult
  | .ensureResident key =>
    if ¬ key < S.chunkCount then (S, .handle {})
    else if key ∈ S.used then (S.use key, .handle ⟨key, S.generation key⟩)
    else (S.makeRoom.enter key, .handle ⟨key, S.clock + 1⟩)
  | .touch key => if key ∈ S.used then (S.use key, .found true) else (S, .found false)
  | .evict key => if key ∈ S.used then (S.leave key, .found true) else (S, .found false)

@[simp] theorem makeRoom_chunkCount : S.makeRoom.chunkCount = S.chunkCount := by
  unfold makeRoom
  split_ifs
  · cases S.used <;> rfl
  · rfl

@[simp] theorem makeRoom_capacity : S.makeRoom.capacity = S.capacity := by
  unfold makeRoom
  split_ifs
  · cases S.used <;> rfl
  · rfl

@[simp] theorem makeRoom_clock : S.makeRoom.clock = S.clock := by
  unfold makeRoom
  split_ifs
  · cases S.used <;> rfl
  · rfl

theorem makeRoom_used :
    S.makeRoom.used = if S.used.length = S.capacity then S.used.tail else S.used := by
  unfold makeRoom
  split_ifs
  · cases h : S.used with
    | nil => exact h
    | cons victim rest => simp [leave, h]
  · rfl

end ResidentSet

/-! ### The bookkeeping refines the set -/

namespace SparseWorld

variable {C : Type} {W W' : SparseWorld C} {S : ResidentSet} {key slot : ℕ} {fresh : ℕ → C}

/-- **The bookkeeping represents the set**, with some slots in hand. -/
structure Refines (W : SparseWorld C) (inHand : List ℕ) (S : ResidentSet) : Prop where
  /-- The order of use is that of the slots. -/
  order : ∃ order, W.Consistent inHand order ∧ S.used = order.map W.slotKey
  /-- The shape is the same. -/
  chunkCount : S.chunkCount = W.chunkCount
  /-- The bound is the same. -/
  capacity : S.capacity = W.capacity
  /-- The clock is the same. -/
  clock : S.clock = W.generationClock
  /-- Slots have the generations of their chunks. -/
  generation : ∀ slot ∈ W.residentSlots, S.generation (W.slotKey slot) = W.slotGeneration slot
  /-- Other chunks have none. -/
  absent : ∀ key, key ∉ S.used → S.generation key = 0

/-- The empty world represents the empty set. -/
theorem refines_create (chunkCount : ℕ) {capacity : ℕ} (h : 0 < capacity) :
    (create fresh chunkCount capacity).Refines [] ⟨chunkCount, capacity, 0, [], fun _ => 0⟩ where
  order := ⟨[], consistent_create chunkCount h, rfl⟩
  chunkCount := rfl
  capacity := rfl
  clock := rfl
  generation slot hs := by cases hs
  absent _ _ := rfl

namespace Refines

section Facts

variable {inHand : List ℕ} (h : W.Refines inHand S)

include h

theorem mem_used : key ∈ S.used ↔ key ∈ W.residentKeys := by
  obtain ⟨order, hcons, hused⟩ := h.order
  rw [hused, hcons.order_keys.mem_iff]

theorem used_nodup : S.used.Nodup := by
  obtain ⟨order, hcons, hused⟩ := h.order
  rw [hused, hcons.order_keys.nodup_iff]
  exact hcons.keys_nodup

theorem length_used : S.used.length = W.residentKeys.length := by
  obtain ⟨order, hcons, hused⟩ := h.order
  rw [hused, hcons.order_keys.length_eq]

/-- A resident chunk has a slot. -/
theorem exists_slot (hk : key ∈ S.used) : ∃ slot ∈ W.residentSlots, W.slotKey slot = key ∧
    W.directory.find key = some (some slot) ∧ W.slotGeneration slot = S.generation key := by
  obtain ⟨order, hcons, hused⟩ := h.order
  rw [hused, List.mem_map] at hk
  obtain ⟨slot, hslot, rfl⟩ := hk
  have hs := hcons.mem_order.1 hslot
  exact ⟨slot, hs, rfl, hcons.find_resident hs, (h.generation slot hs).symm⟩

/-- Other chunks are not found. -/
theorem find_missing (hk : key ∉ S.used) : W.directory.find key = some none := by
  obtain ⟨order, hcons, -⟩ := h.order
  exact hcons.find_missing fun hr => hk (h.mem_used.2 hr)

/-- Generations come from the clock. -/
theorem generation_le (key : ℕ) : S.generation key ≤ S.clock := by
  obtain ⟨order, hcons, -⟩ := h.order
  by_cases hk : key ∈ S.used
  · obtain ⟨slot, hs, rfl, -, hgen⟩ := h.exists_slot hk
    rw [← hgen, h.clock]
    exact (hcons.generation slot hs).2
  · rw [h.absent key hk]
    exact Nat.zero_le _

/-- Resident chunks have a generation. -/
theorem generation_pos (hk : key ∈ S.used) : 0 < S.generation key := by
  obtain ⟨order, hcons, -⟩ := h.order
  obtain ⟨slot, hs, rfl, -, hgen⟩ := h.exists_slot hk
  rw [← hgen]
  exact (hcons.generation slot hs).1

/-- **Reading a generation** ends with that of the set. -/
theorem residencyGeneration : W.residencyGeneration key = some (S.generation key) := by
  by_cases hk : key ∈ S.used
  · obtain ⟨slot, -, -, hfind, hgen⟩ := h.exists_slot hk
    simp [SparseWorld.residencyGeneration, hfind, hgen]
  · simp [SparseWorld.residencyGeneration, h.find_missing hk, h.absent key hk]

/-- **A handle is valid** when it has the generation of its chunk. -/
theorem valid_eq (handle : ResidencyHandle) : W.valid handle =
    some (handle.generation ≠ 0 && S.generation handle.key = handle.generation) := by
  simp [SparseWorld.valid, h.residencyGeneration]

/-- Using a resident slot. -/
theorem use (hs : slot ∈ W.residentSlots) :
    Refines { W with lru := W.lru.moveToBack slot } inHand (S.use (W.slotKey slot)) := by
  obtain ⟨order, hcons, hused⟩ := h.order
  refine ⟨⟨_, hcons.moveToBack hs, ?_⟩, h.chunkCount, h.capacity, h.clock, h.generation, ?_⟩
  · simp only [ResidentSet.use, hused, hcons.map_erase hs, List.map_append, List.map_singleton]
  · intro k hk
    refine h.absent k fun hk' => hk ?_
    by_cases heq : k = W.slotKey slot
    · simp [ResidentSet.use, heq]
    · exact List.mem_append_left _ ((List.mem_erase_of_ne heq).2 hk')

/-- A world in which the chunk of one slot left. -/
theorem leave {order : List ℕ} {inHand' : List ℕ} (hs : slot ∈ W.residentSlots)
    (hcons : W.Consistent inHand order) (hused : S.used = order.map W.slotKey)
    (hcons' : W'.Consistent inHand' (order.erase slot)) (hcount : W'.chunkCount = W.chunkCount)
    (hcap : W'.capacity = W.capacity) (hclock : W'.generationClock = W.generationClock)
    (hkey : W'.slotKey = W.slotKey) (hgen : W'.slotGeneration = W.slotGeneration) :
    W'.Refines inHand' (S.leave (W.slotKey slot)) := by
  refine ⟨⟨_, hcons', ?_⟩, by rw [hcount]; exact h.chunkCount, by rw [hcap]; exact h.capacity,
    by rw [hclock]; exact h.clock, ?_, ?_⟩
  · simp only [ResidentSet.leave, hused, hkey, hcons.map_erase hs]
  · intro s hs'
    have hs'' := (hcons.lru.nodup.mem_erase_iff).1 (hcons'.mem_order.2 hs')
    have hs₀ := hcons.mem_order.1 hs''.2
    have hne : W.slotKey s ≠ W.slotKey slot := fun heq => hs''.1 (hcons.slotKey_inj hs₀ hs heq)
    simp only [ResidentSet.leave, hkey, hgen, Function.update_of_ne hne]
    exact h.generation s hs₀
  · intro k hk
    simp only [ResidentSet.leave, Function.update_apply]
    split_ifs with heq
    · rfl
    · exact h.absent k fun hk' => hk ((List.mem_erase_of_ne heq).2 hk')

/-- **Releasing** the slot of a resident chunk. -/
theorem releaseSlot (hs : slot ∈ W.residentSlots) : ∃ W', W.releaseSlot slot = some W' ∧
    W'.Refines (slot :: inHand) (S.leave (W.slotKey slot)) := by
  obtain ⟨order, hcons, hused⟩ := h.order
  obtain ⟨W', hrun, hcons', hcount, hcap, hclock, -, hkey, hgen, -⟩ := hcons.releaseSlot hs
  exact ⟨W', hrun, h.leave hs hcons hused hcons' hcount hcap hclock hkey hgen⟩

end Facts

section Calls

variable (h : W.Refines [] S)

include h

/-- **Taking a slot** makes room. -/
theorem acquireSlot : ∃ W' slot, W.acquireSlot = some (W', slot) ∧
    W'.Refines [slot] S.makeRoom := by
  obtain ⟨order, hcons, hused⟩ := h.order
  obtain ⟨W', slot, hrun, hcons', hcount, hcap, hclock, -, hkey, hgen⟩ := hcons.acquireSlot
  refine ⟨W', slot, hrun, ?_⟩
  unfold ResidentSet.makeRoom
  rw [h.length_used, h.capacity]
  split_ifs at hcons' ⊢ with hfull
  · -- the least recently used chunk left
    cases horder : order with
    | nil =>
      have hpos := hcons.capacity_pos
      have := h.length_used
      rw [hused, horder, List.map_nil, List.length_nil] at this
      omega
    | cons victim rest =>
      rw [hused, horder, List.map_cons]
      refine h.leave (hcons.mem_order.1 (horder ▸ List.mem_cons_self)) hcons hused ?_ hcount hcap
        hclock hkey hgen
      have hrest : rest = order.tail := by rw [horder, List.tail_cons]
      rwa [horder, List.erase_cons_head, hrest]
  · refine ⟨⟨order, hcons', by rw [hused, hkey]⟩, by rw [hcount]; exact h.chunkCount,
      by rw [hcap]; exact h.capacity, by rw [hclock]; exact h.clock, ?_, h.absent⟩
    intro s hs
    rw [hkey, hgen]
    exact h.generation s (hcons.mem_order.1 (hcons'.mem_order.2 hs))

end Calls

variable (fresh) in
/-- **Entering** a new chunk in a slot in hand. -/
theorem materialize (h : W.Refines [slot] S) (hkey : key < W.chunkCount) (hnew : key ∉ S.used) :
    ∃ directory, W.directory.insert key slot = some directory ∧ Refines { W with
      columns := Function.update W.columns slot (fresh key)
      slotKey := Function.update W.slotKey slot key
      slotGeneration := Function.update W.slotGeneration slot (W.generationClock + 1)
      generationClock := W.generationClock + 1
      lru := W.lru.pushBack slot
      slotPosition := Function.update W.slotPosition slot W.residentKeys.length
      residentKeys := W.residentKeys ++ [key]
      residentSlots := W.residentSlots ++ [slot]
      directory := directory } [] (S.enter key) := by
  obtain ⟨order, hcons, hused⟩ := h.order
  have hslot := hcons.not_mem_of_inHand (List.mem_singleton_self slot)
  obtain ⟨directory, hinsert, hcons'⟩ := hcons.materialize fresh hkey
    fun hk => hnew (h.mem_used.2 hk)
  refine ⟨directory, hinsert, ⟨_, hcons', ?_⟩, h.chunkCount, h.capacity, ?_, ?_, ?_⟩
  · simp only [ResidentSet.enter, hused, List.map_append, List.map_singleton,
      Function.update_self]
    congr 1
    refine List.map_congr_left fun s hs => (Function.update_of_ne ?_ ..).symm
    rintro rfl
    exact hslot (hcons.mem_order.1 hs)
  · simp only [ResidentSet.enter, h.clock]
  · intro s hs
    simp only [ResidentSet.enter]
    rcases List.mem_append.1 hs with hold | hs
    · have hne : s ≠ slot := by
        rintro rfl
        exact hslot hold
      have hk : W.slotKey s ≠ key := by
        rintro rfl
        exact hnew (h.mem_used.2 (hcons.keys ▸ List.mem_map_of_mem hold))
      rw [Function.update_of_ne hne, Function.update_of_ne hk, Function.update_of_ne hne]
      exact h.generation s hold
    · obtain rfl := List.mem_singleton.1 hs
      simp only [Function.update_self, h.clock]
  · intro k hk
    simp only [ResidentSet.enter, List.mem_append, List.mem_singleton, not_or] at hk ⊢
    rw [Function.update_of_ne hk.2]
    exact h.absent k hk.1

variable (fresh) in
/-- **The bookkeeping refines the set**: every call ends, returns what it returns on the set, and
leaves a world that represents what is left of the set. -/
theorem call (h : W.Refines [] S) (c : ResidencyCall) :
    ∃ W', W.call fresh c = some (W', (S.step c).2) ∧ W'.Refines [] (S.step c).1 := by
  cases c with
  | ensureResident key =>
    simp only [SparseWorld.call, SparseWorld.ensureResident, ResidentSet.step, h.chunkCount]
    split_ifs with hkey hused
    · obtain ⟨slot, hs, rfl, hfind, hgen⟩ := h.exists_slot hused
      exact ⟨_, by simp [hfind, hgen], h.use hs⟩
    · obtain ⟨W₁, slot, hacquire, h₁⟩ := h.acquireSlot
      have hkey₁ : key < W₁.chunkCount := by
        rw [← h₁.chunkCount, ResidentSet.makeRoom_chunkCount, h.chunkCount]
        exact hkey
      have hnew₁ : key ∉ S.makeRoom.used := by
        rw [ResidentSet.makeRoom_used]
        split_ifs
        · exact fun hk => hused (List.mem_of_mem_tail hk)
        · exact hused
      obtain ⟨directory, hinsert, h₂⟩ := h₁.materialize fresh hkey₁ hnew₁
      refine ⟨_, ?_, h₂⟩
      have hclock : W₁.generationClock = S.clock := by
        rw [← h₁.clock, ResidentSet.makeRoom_clock]
      simp [h.find_missing hused, hacquire, hinsert, hclock]
    · -- the key lies outside the shape
      exact ⟨W, rfl, h⟩
  | touch key =>
    simp only [SparseWorld.call, SparseWorld.touch, ResidentSet.step]
    split_ifs with hused
    · obtain ⟨slot, hs, rfl, hfind, -⟩ := h.exists_slot hused
      exact ⟨_, by simp [hfind], h.use hs⟩
    · exact ⟨W, by simp [h.find_missing hused], h⟩
  | evict key =>
    simp only [SparseWorld.call, SparseWorld.evict, ResidentSet.step]
    split_ifs with hused
    · obtain ⟨slot, hs, rfl, hfind, -⟩ := h.exists_slot hused
      obtain ⟨W₁, hrelease, h₁⟩ := h.releaseSlot hs
      obtain ⟨order, hcons, hused₁⟩ := h₁.order
      refine ⟨{ W₁ with freeSlots := W₁.freeSlots ++ [slot] }, by simp [hfind, hrelease],
        { h₁ with order := ⟨order, hcons.giveBack, hused₁⟩ }⟩
    · exact ⟨W, by simp [h.find_missing hused], h⟩

end Refines

end SparseWorld

/-! ### Runs -/

/-- A sparse world with what happened to it. -/
structure ResidencyHistory (C : Type) where
  /-- The world. -/
  world : SparseWorld C
  /-- Number of calls so far. -/
  now : ℕ := 0
  /-- Time of the last call that made a chunk resident or touched it. -/
  lastUse : ℕ → ℕ := fun _ => 0
  /-- Generations given to new residency intervals, the latest first. -/
  generations : List ℕ := []
  /-- Handles that were handed out, each with whether its chunk was evicted since. -/
  issued : List (ResidencyHandle × Bool) := []

namespace ResidencyHistory

variable {C : Type} (fresh : ℕ → C)

/-- A world before any call. -/
def start (chunkCount capacity : ℕ) : ResidencyHistory C :=
  { world := .create fresh chunkCount capacity }

variable (H : ResidencyHistory C)

/-- A chunk was evicted between two worlds. -/
def evicted (W W' : SparseWorld C) (key : ℕ) : Bool :=
  key ∈ W.residentKeys && key ∉ W'.residentKeys

/-- The earlier handles after a call. -/
def olderHandles (W' : SparseWorld C) : List (ResidencyHandle × Bool) :=
  H.issued.map fun p => (p.1, p.2 || evicted H.world W' p.1.key)

/-- The handles after a call. -/
def issuedAfter (c : ResidencyCall) (W' : SparseWorld C) :
    ResidencyResult → List (ResidencyHandle × Bool)
  | .handle handle =>
    if c.key ∈ W'.residentKeys then (handle, false) :: H.olderHandles W' else H.olderHandles W'
  | .found _ => H.olderHandles W'

/-- The generations after a call. -/
def generationsAfter (c : ResidencyCall) (W' : SparseWorld C) : ResidencyResult → List ℕ
  | .handle handle =>
    if c.key ∈ W'.residentKeys ∧ c.key ∉ H.world.residentKeys then
      handle.generation :: H.generations
    else H.generations
  | .found _ => H.generations

/-- The last uses after a call. -/
def lastUseAfter (c : ResidencyCall) (W' : SparseWorld C) : ℕ → ℕ :=
  if c.key ∈ W'.residentKeys then Function.update H.lastUse c.key (H.now + 1) else H.lastUse

/-- One call. -/
def step (c : ResidencyCall) : Option (ResidencyHistory C) :=
  (H.world.call fresh c).map fun (W', result) =>
    { world := W'
      now := H.now + 1
      lastUse := H.lastUseAfter c W'
      generations := H.generationsAfter c W' result
      issued := H.issuedAfter c W' result }

/-- A run of calls. -/
def run : ResidencyHistory C → List ResidencyCall → Option (ResidencyHistory C)
  | H, [] => some H
  | H, c :: calls => (H.step fresh c).bind fun H => run H calls

/-- **What holds after every call.** -/
structure Holds : Prop where
  /-- The bookkeeping is consistent, and lists the resident slots by their last use. -/
  consistent : ∃ order, H.world.Consistent [] order ∧
    (order.map H.world.slotKey).Pairwise fun k k' => H.lastUse k < H.lastUse k'
  /-- A new chunk of a full world evicts the least recently used one and no other. -/
  evicts_lru : ∀ key < H.world.chunkCount, key ∉ H.world.residentKeys →
    H.world.residentKeys.length = H.world.capacity →
    ∃ W' handle, H.world.ensureResident key fresh = some (W', handle) ∧
      ∃ victim ∈ H.world.residentKeys,
        (∀ k ∈ H.world.residentKeys, k ≠ victim → H.lastUse victim < H.lastUse k) ∧
        ∀ k, k ∈ W'.residentKeys ↔ k = key ∨ k ∈ H.world.residentKeys ∧ k ≠ victim
  /-- Without a full world, or for a resident chunk, nothing is evicted. -/
  evicts_none : ∀ key, key ∈ H.world.residentKeys ∨
      H.world.residentKeys.length ≠ H.world.capacity →
    ∃ W' handle, H.world.ensureResident key fresh = some (W', handle) ∧
      ∀ k ∈ H.world.residentKeys, k ∈ W'.residentKeys
  /-- Later generations are larger. -/
  generations : H.generations.Pairwise (· > ·)
  /-- A handle is valid until its chunk is evicted. -/
  handles : ∀ p ∈ H.issued, H.world.valid p.1 = some (!p.2)

/-- **The history of a set of resident chunks**: what a run keeps. -/
structure Tracks (S : ResidentSet) : Prop where
  /-- The world represents the set. -/
  refines : H.world.Refines [] S
  /-- The order of use is the order of the last uses. -/
  lastUse : S.used.Pairwise fun k k' => H.lastUse k < H.lastUse k'
  /-- Uses lie in the past. -/
  lastUse_le : ∀ k, H.lastUse k ≤ H.now
  /-- Later generations are larger. -/
  generations : H.generations.Pairwise (· > ·)
  /-- Generations come from the clock. -/
  generations_le : ∀ g ∈ H.generations, g ≤ S.clock
  /-- Handles have a generation from the clock. -/
  issued_le : ∀ p ∈ H.issued, 0 < p.1.generation ∧ p.1.generation ≤ S.clock
  /-- Chunks that were not evicted are resident with the generation of their handles. -/
  issued_valid : ∀ p ∈ H.issued, p.2 = false →
    p.1.key ∈ S.used ∧ S.generation p.1.key = p.1.generation
  /-- Evicted chunks have another generation. -/
  issued_gone : ∀ p ∈ H.issued, p.2 = true → S.generation p.1.key ≠ p.1.generation

variable {H} {S : ResidentSet} {fresh}

end ResidencyHistory

/-! ### What a call does to the set -/

namespace ResidentSet

variable {S S' : ResidentSet} {key k : ℕ} {c : ResidencyCall} {l : List ℕ} {lastUse : ℕ → ℕ}
  {now : ℕ}

/-- **What one call can do.** -/
theorem step_cases (S : ResidentSet) (c : ResidencyCall)
    (hlt : ∀ k ∈ S.used, k < S.chunkCount) :
    ((S.step c).1 = S ∧ c.key ∉ S.used) ∨
    (c.key ∈ S.used ∧ (S.step c).1 = S.use c.key ∧
      ((S.step c).2 = .handle ⟨c.key, S.generation c.key⟩ ∨ (S.step c).2 = .found true)) ∨
    (c.key ∉ S.used ∧ (S.step c).1 = S.makeRoom.enter c.key ∧
      (S.step c).2 = .handle ⟨c.key, S.clock + 1⟩) ∨
    (c.key ∈ S.used ∧ (S.step c).1 = S.leave c.key ∧ (S.step c).2 = .found true) := by
  cases c with
  | ensureResident key =>
    simp only [step, ResidencyCall.key]
    split_ifs with hkey hused
    · exact Or.inr (Or.inl ⟨hused, rfl, Or.inl rfl⟩)
    · exact Or.inr (Or.inr (Or.inl ⟨hused, rfl, rfl⟩))
    · exact Or.inl ⟨rfl, fun hk => hkey (hlt key hk)⟩
  | touch key =>
    simp only [step, ResidencyCall.key]
    split_ifs with hused
    · exact Or.inr (Or.inl ⟨hused, rfl, Or.inr rfl⟩)
    · exact Or.inl ⟨rfl, hused⟩
  | evict key =>
    simp only [step, ResidencyCall.key]
    split_ifs with hused
    · exact Or.inr (Or.inr (Or.inr ⟨hused, rfl, rfl⟩))
    · exact Or.inl ⟨rfl, hused⟩

theorem makeRoom_sublist : S.makeRoom.used.Sublist S.used := by
  rw [makeRoom_used]
  split_ifs
  · exact List.tail_sublist _
  · exact List.Sublist.refl _

/-- Chunks that keep their place keep their generation. -/
theorem generation_makeRoom (hnd : S.used.Nodup) (hk : k ∈ S.makeRoom.used) :
    S.makeRoom.generation k = S.generation k := by
  unfold makeRoom at hk ⊢
  split_ifs at hk ⊢
  · cases hused : S.used with
    | nil => simp only
    | cons victim rest =>
      simp only [hused, leave, List.erase_cons_head] at hk ⊢
      have hne : k ≠ victim := by
        rintro rfl
        exact (List.nodup_cons.1 (hused ▸ hnd)).1 hk
      exact Function.update_of_ne hne ..
  · rfl

/-- **What no call undoes**: chunks that stay keep their generation, and new ones get later
generations. -/
structure Evolves (S S' : ResidentSet) : Prop where
  /-- The clock advances. -/
  clock : S.clock ≤ S'.clock
  /-- Chunks that stay keep their generation. -/
  keep : ∀ k ∈ S.used, k ∈ S'.used → S'.generation k = S.generation k
  /-- New chunks get a later generation. -/
  new : ∀ k ∈ S'.used, k ∉ S.used → S.clock < S'.generation k

theorem Evolves.refl : S.Evolves S := ⟨le_rfl, fun _ _ _ => rfl, fun _ h h' => absurd h h'⟩

theorem step_evolves (hlt : ∀ k ∈ S.used, k < S.chunkCount) (hnd : S.used.Nodup)
    (c : ResidencyCall) : S.Evolves (S.step c).1 := by
  rcases S.step_cases c hlt with ⟨heq, -⟩ | ⟨hk, heq, -⟩ | ⟨hk, heq, -⟩ | ⟨hk, heq, -⟩ <;> rw [heq]
  · exact .refl
  · refine ⟨le_rfl, fun _ _ _ => rfl, fun k hk' hno => absurd ?_ hno⟩
    rcases List.mem_append.1 hk' with hk' | hk'
    · exact List.mem_of_mem_erase hk'
    · rwa [List.mem_singleton.1 hk']
  · refine ⟨by simp [enter], fun k hold hk' => ?_, fun k hk' hno => ?_⟩
    · have hne : k ≠ c.key := by
        rintro rfl
        exact hk hold
      simp only [enter, List.mem_append, List.mem_singleton, hne, or_false] at hk' ⊢
      rw [Function.update_of_ne hne, generation_makeRoom hnd hk']
    · simp only [enter, List.mem_append, List.mem_singleton] at hk' ⊢
      rcases hk' with hk' | rfl
      · exact absurd (makeRoom_sublist.subset hk') hno
      · simp
  · refine ⟨le_rfl, fun k _ hk' => ?_, fun k hk' hno => absurd (List.mem_of_mem_erase hk') hno⟩
    have hne : k ≠ c.key := (hnd.mem_erase_iff.1 hk').1
    simp only [leave, Function.update_of_ne hne]

/-- A handle of a resident chunk has its generation. -/
theorem step_handle (hlt : ∀ k ∈ S.used, k < S.chunkCount) {handle : ResidencyHandle}
    (hres : (S.step c).2 = .handle handle) (hk : c.key ∈ (S.step c).1.used) :
    handle.key = c.key ∧ handle.generation = (S.step c).1.generation c.key := by
  rcases S.step_cases c hlt with ⟨heq, hno⟩ | ⟨-, heq, hres' | hres'⟩ | ⟨-, heq, hres'⟩ |
    ⟨-, heq, hres'⟩
  · exact absurd (heq ▸ hk) hno
  · rw [hres'] at hres
    cases hres
    rw [heq]
    exact ⟨rfl, rfl⟩
  · rw [hres'] at hres
    cases hres
  · rw [hres'] at hres
    cases hres
    rw [heq]
    simp [enter]
  · rw [hres'] at hres
    cases hres

/-- A new chunk gets the next generation. -/
theorem step_new (hlt : ∀ k ∈ S.used, k < S.chunkCount) {handle : ResidencyHandle}
    (hres : (S.step c).2 = .handle handle) (hk : c.key ∈ (S.step c).1.used) (hno : c.key ∉ S.used) :
    handle.generation = S.clock + 1 ∧ (S.step c).1.clock = S.clock + 1 := by
  rcases S.step_cases c hlt with ⟨heq, -⟩ | ⟨hused, -⟩ | ⟨-, heq, hres'⟩ | ⟨hused, -⟩
  · exact absurd (heq ▸ hk) hno
  · exact absurd hused hno
  · rw [hres'] at hres
    cases hres
    rw [heq]
    simp [enter]
  · exact absurd hused hno

/-- A chunk that was used last comes last. -/
theorem pairwise_concat (h : l.Pairwise fun k k' => lastUse k < lastUse k')
    (hle : ∀ k, lastUse k ≤ now) (hnew : key ∉ l) :
    (l ++ [key]).Pairwise fun k k' =>
      Function.update lastUse key (now + 1) k < Function.update lastUse key (now + 1) k' := by
  have hne : ∀ k ∈ l, k ≠ key := fun k hk heq => hnew (heq ▸ hk)
  rw [List.pairwise_append]
  refine ⟨?_, List.pairwise_singleton .., ?_⟩
  · refine h.imp_of_mem fun {k k'} hk hk' hlt => ?_
    rwa [Function.update_of_ne (hne k hk), Function.update_of_ne (hne k' hk')]
  · intro k hk k' hk'
    obtain rfl := List.mem_singleton.1 hk'
    rw [Function.update_self, Function.update_of_ne (hne k hk)]
    exact Nat.lt_succ_of_le (hle k)

/-- **A call keeps the order of the last uses.** -/
theorem step_lastUse (hlt : ∀ k ∈ S.used, k < S.chunkCount) (hnd : S.used.Nodup)
    (h : S.used.Pairwise fun k k' => lastUse k < lastUse k') (hle : ∀ k, lastUse k ≤ now) :
    (S.step c).1.used.Pairwise fun k k' =>
      (if c.key ∈ (S.step c).1.used then Function.update lastUse c.key (now + 1) else lastUse) k <
      (if c.key ∈ (S.step c).1.used then Function.update lastUse c.key (now + 1) else lastUse)
        k' := by
  rcases S.step_cases c hlt with ⟨heq, hk⟩ | ⟨-, heq, -⟩ | ⟨hk, heq, -⟩ | ⟨-, heq, -⟩ <;> rw [heq]
  · simpa only [hk, if_false] using h
  · have hmem : c.key ∈ (S.use c.key).used := by simp [use]
    simp only [hmem, if_true]
    exact pairwise_concat (h.sublist List.erase_sublist) hle
      fun hk => (hnd.mem_erase_iff.1 hk).1 rfl
  · have hmem : c.key ∈ (S.makeRoom.enter c.key).used := by simp [enter]
    simp only [hmem, if_true]
    exact pairwise_concat (h.sublist makeRoom_sublist) hle fun hk' => hk (makeRoom_sublist.subset hk')
  · have hmem : c.key ∉ (S.leave c.key).used := fun hk => (hnd.mem_erase_iff.1 hk).1 rfl
    simp only [hmem, if_false]
    exact h.sublist List.erase_sublist

end ResidentSet

/-! ### What a run keeps -/

namespace ResidencyHistory

variable {C : Type} {fresh : ℕ → C} {H H' : ResidencyHistory C} {S : ResidentSet}

variable (fresh) in
/-- A fresh world has the history of the empty set. -/
theorem tracks_start (chunkCount : ℕ) {capacity : ℕ} (h : 0 < capacity) :
    (start fresh chunkCount capacity).Tracks ⟨chunkCount, capacity, 0, [], fun _ => 0⟩ where
  refines := SparseWorld.refines_create chunkCount h
  lastUse := List.Pairwise.nil
  lastUse_le _ := le_rfl
  generations := List.Pairwise.nil
  generations_le g hg := by cases hg
  issued_le p hp := by cases hp
  issued_valid p hp := by cases hp
  issued_gone p hp := by cases hp

namespace Tracks

section Facts

variable (h : H.Tracks S)

include h

theorem key_lt {k : ℕ} (hk : k ∈ S.used) : k < S.chunkCount := by
  obtain ⟨order, hcons, -⟩ := h.refines.order
  rw [h.refines.chunkCount]
  exact hcons.key_lt k (h.refines.mem_used.1 hk)

/-- Handles of earlier calls after another call. -/
theorem older {W' : SparseWorld C} {S' : ResidentSet} (hev : S.Evolves S')
    (h' : W'.Refines [] S') {p : ResidencyHandle × Bool}
    (hp : p ∈ H.olderHandles W') :
    (0 < p.1.generation ∧ p.1.generation ≤ S'.clock) ∧
      (p.2 = false → p.1.key ∈ S'.used ∧ S'.generation p.1.key = p.1.generation) ∧
      (p.2 = true → S'.generation p.1.key ≠ p.1.generation) := by
  obtain ⟨⟨handle, gone⟩, hmem, rfl⟩ := List.mem_map.1 hp
  have hle := h.issued_le _ hmem
  have hvalid := h.issued_valid _ hmem
  have hgone := h.issued_gone _ hmem
  simp only [evicted, ← h.refines.mem_used, ← h'.mem_used, Bool.or_eq_false_iff,
    Bool.or_eq_true, Bool.and_eq_true, Bool.and_eq_false_iff, decide_eq_true_eq,
    decide_eq_false_iff_not, not_not] at hle hvalid hgone ⊢
  refine ⟨⟨hle.1, hle.2.trans hev.clock⟩, ?_, ?_⟩
  · rintro ⟨hg, hstay⟩
    obtain ⟨hk, hgen⟩ := hvalid hg
    have hk' := hstay.resolve_left (not_not.2 hk)
    exact ⟨hk', (hev.keep _ hk hk').trans hgen⟩
  · intro hg heq
    by_cases hk' : handle.key ∈ S'.used
    · by_cases hk : handle.key ∈ S.used
      · rcases hg with hg | ⟨-, hno⟩
        · exact hgone hg ((hev.keep _ hk hk').symm.trans heq)
        · exact hno hk'
      · have := hev.new _ hk' hk
        omega
    · rw [h'.absent _ hk'] at heq
      omega

/-- Handles after a call. -/
theorem issuedAfter {c : ResidencyCall} {W' : SparseWorld C}
    (h' : W'.Refines [] (S.step c).1) {p : ResidencyHandle × Bool}
    (hp : p ∈ H.issuedAfter c W' (S.step c).2) :
    (0 < p.1.generation ∧ p.1.generation ≤ (S.step c).1.clock) ∧
      (p.2 = false → p.1.key ∈ (S.step c).1.used ∧
        (S.step c).1.generation p.1.key = p.1.generation) ∧
      (p.2 = true → (S.step c).1.generation p.1.key ≠ p.1.generation) := by
  have hlt : ∀ k ∈ S.used, k < S.chunkCount := fun k hk => h.key_lt hk
  have hev := ResidentSet.step_evolves hlt h.refines.used_nodup c
  cases hres : (S.step c).2 with
  | found b =>
    rw [hres] at hp
    exact h.older hev h' hp
  | handle handle =>
    simp only [hres, ResidencyHistory.issuedAfter, ← h'.mem_used] at hp
    split_ifs at hp with hk
    · rcases List.mem_cons.1 hp with rfl | hp
      · -- the handle of this call
        obtain ⟨hkey, hgen⟩ := ResidentSet.step_handle hlt hres hk
        simp only [hkey, hgen]
        exact ⟨⟨h'.generation_pos hk, h'.generation_le _⟩, fun _ => ⟨hk, trivial⟩,
          fun hf => absurd hf Bool.false_ne_true⟩
      · exact h.older hev h' hp
    · exact h.older hev h' hp

/-- Generations after a call. -/
theorem generationsAfter {c : ResidencyCall} {W' : SparseWorld C}
    (h' : W'.Refines [] (S.step c).1) :
    (H.generationsAfter c W' (S.step c).2).Pairwise (· > ·) ∧
      ∀ g ∈ H.generationsAfter c W' (S.step c).2, g ≤ (S.step c).1.clock := by
  have hlt : ∀ k ∈ S.used, k < S.chunkCount := fun k hk => h.key_lt hk
  have hev := ResidentSet.step_evolves hlt h.refines.used_nodup c
  have hold : ∀ g ∈ H.generations, g ≤ (S.step c).1.clock := fun g hg =>
    (h.generations_le g hg).trans hev.clock
  cases hres : (S.step c).2 with
  | found b => exact ⟨h.generations, hold⟩
  | handle handle =>
    simp only [ResidencyHistory.generationsAfter, ← h'.mem_used, ← h.refines.mem_used]
    split_ifs with hk
    · -- a new chunk gets the next generation
      obtain ⟨hgen, hclock⟩ := ResidentSet.step_new hlt hres hk.1 hk.2
      rw [hgen]
      refine ⟨h.generations.cons fun g hg => Nat.lt_succ_of_le (h.generations_le g hg), ?_⟩
      intro g hg
      rcases List.mem_cons.1 hg with rfl | hg
      · exact hclock.ge
      · exact hold g hg
    · exact ⟨h.generations, hold⟩

/-- **One call** ends and keeps the history. -/
theorem step (c : ResidencyCall) :
    ∃ H', H.step fresh c = some H' ∧ H'.Tracks (S.step c).1 := by
  obtain ⟨W', hcall, h'⟩ := h.refines.call fresh c
  have hlt : ∀ k ∈ S.used, k < S.chunkCount := fun k hk => h.key_lt hk
  have huse := ResidentSet.step_lastUse (c := c) hlt h.refines.used_nodup h.lastUse h.lastUse_le
  have hgens := h.generationsAfter h'
  refine ⟨_, by rw [ResidencyHistory.step, hcall]; rfl, h', ?_, ?_, hgens.1, hgens.2,
    fun p hp => (h.issuedAfter h' hp).1, fun p hp => (h.issuedAfter h' hp).2.1,
    fun p hp => (h.issuedAfter h' hp).2.2⟩
  · simp only [lastUseAfter, ← h'.mem_used]
    exact huse
  · intro k
    have hk := (h.lastUse_le k).trans (Nat.le_succ _)
    simp only [lastUseAfter]
    split_ifs
    · rw [Function.update_apply]
      split_ifs
      · exact le_rfl
      · exact hk
    · exact hk

/-- **A run** ends and keeps the history. -/
theorem run (calls : List ResidencyCall) :
    ∃ H' S', H.run fresh calls = some H' ∧ H'.Tracks S' := by
  induction calls generalizing H S with
  | nil => exact ⟨H, S, rfl, h⟩
  | cons c calls ih =>
    obtain ⟨H₁, hstep, h₁⟩ := h.step c
    obtain ⟨H', S', hrun, h'⟩ := ih h₁
    exact ⟨H', S', by rw [ResidencyHistory.run, hstep]; exact hrun, h'⟩

/-- **The history says what holds** of the bookkeeping. -/
theorem holds : H.Holds fresh := by
  obtain ⟨order, hcons, hused⟩ := h.refines.order
  have hlt : ∀ k ∈ S.used, k < S.chunkCount := fun k hk => h.key_lt hk
  refine ⟨⟨order, hcons, hused ▸ h.lastUse⟩, ?_, ?_, h.generations, ?_⟩
  · intro key hkey hnew hfull
    rw [← h.refines.mem_used] at hnew
    rw [← h.refines.length_used, ← h.refines.capacity] at hfull
    obtain ⟨W', hcall, h'⟩ := h.refines.call fresh (.ensureResident key)
    rw [← h.refines.chunkCount] at hkey
    simp only [SparseWorld.call, Option.map_eq_some_iff, ResidentSet.step, hkey, not_true,
      if_false, hnew, Prod.mk.injEq] at hcall h'
    obtain ⟨⟨W'', handle⟩, hcall, rfl, -⟩ := hcall
    cases hcase : S.used with
    | nil =>
      have := hcons.capacity_pos
      rw [hcase, List.length_nil, h.refines.capacity] at hfull
      omega
    | cons victim rest =>
      have hnd := hcase ▸ h.refines.used_nodup
      have hpair := hcase ▸ h.lastUse
      refine ⟨W'', handle, hcall, victim, h.refines.mem_used.1 (hcase ▸ List.mem_cons_self), ?_, ?_⟩
      · intro k hk hne
        rw [← h.refines.mem_used, hcase] at hk
        exact (List.pairwise_cons.1 hpair).1 k ((List.mem_cons.1 hk).resolve_left hne)
      · intro k
        rw [← h'.mem_used, ← h.refines.mem_used]
        have hroom : S.makeRoom.used = rest := by
          rw [ResidentSet.makeRoom_used, if_pos hfull, hcase, List.tail_cons]
        simp only [ResidentSet.enter, hroom, hcase, List.mem_append, List.mem_singleton,
          List.mem_cons (a := k) (b := victim)]
        constructor
        · rintro (hk | rfl)
          · refine Or.inr ⟨Or.inr hk, ?_⟩
            rintro rfl
            exact (List.nodup_cons.1 hnd).1 hk
          · exact Or.inl rfl
        · rintro (rfl | ⟨rfl | hk, hne⟩)
          · exact Or.inr rfl
          · exact absurd rfl hne
          · exact Or.inl hk
  · intro key hcase
    rw [← h.refines.mem_used, ← h.refines.length_used, ← h.refines.capacity] at hcase
    obtain ⟨W', hcall, h'⟩ := h.refines.call fresh (.ensureResident key)
    simp only [SparseWorld.call, Option.map_eq_some_iff, Prod.mk.injEq] at hcall
    obtain ⟨⟨W'', handle⟩, hcall, rfl, -⟩ := hcall
    refine ⟨W'', handle, hcall, fun k hk => ?_⟩
    rw [← h.refines.mem_used] at hk
    rw [← h'.mem_used]
    simp only [ResidentSet.step]
    split_ifs with hkey hmem
    · by_cases hne : k = key
      · simp [ResidentSet.use, hne]
      · exact List.mem_append_left _ ((List.mem_erase_of_ne hne).2 hk)
    · refine List.mem_append_left _ ?_
      rwa [ResidentSet.makeRoom_used, if_neg (hcase.resolve_left hmem)]
    · exact hk
  · intro p hp
    have hpos := (h.issued_le p hp).1.ne'
    rw [h.refines.valid_eq]
    cases hgone : p.2 with
    | false => simp [(h.issued_valid p hp hgone).2, hpos]
    | true => simp [h.issued_gone p hp hgone]

end Facts

end Tracks

end ResidencyHistory

/-- **Residency of a sparse world.**  After every sequence of calls on a world of any capacity and
any number of chunks, the directory, the arrays, the free slots and the list of use agree, the list
is in order of the last uses, a new chunk of a full world evicts exactly the least recently used
one, generations increase, and a handle is valid exactly until its chunk is evicted. -/
theorem sparse_residency {C : Type} (fresh : ℕ → C) (chunkCount pageByteSize byteBudget : ℕ)
    (calls : List ResidencyCall) :
    ∃ H, (ResidencyHistory.start fresh chunkCount
      (SparseWorld.clampCapacity pageByteSize byteBudget)).run fresh calls = some H ∧
        H.Holds fresh := by
  have h := ResidencyHistory.tracks_start fresh chunkCount
    (SparseWorld.one_le_clampCapacity pageByteSize byteBudget)
  obtain ⟨H, S, hrun, hH⟩ := h.run calls
  exact ⟨H, hrun, hH.holds⟩

end Tess
