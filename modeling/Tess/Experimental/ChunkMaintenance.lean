import Tess.Storage.Residency
import Mathlib.Logic.Relation

/-!
# The chunk maintenance adapter

`Adapter` keeps one derived product per chunk.  A successful rebuild publishes a token that
names the content version and the residency it observed; the product is current while that
token still names the chunk and no owned dirty bit is set.  Which tasks run, and when, is the
matter of a scheduler backend.

* `Adapter.product` : the product of a chunk with its freshness;
* `Adapter.startRun`, `Adapter.throwRebuild`, `Adapter.finishRun` : a task run up to its rebuild
  callback, and what follows the callback;
* `Adapter.Step` : what can happen under **any** backend: tasks run in any order and number, one
  run of a task at a time, and the callbacks mark, retry, edit and throw as they like;
* `Adapter.product_current` : **a current product is the rebuild of the present content**.
-/

namespace Tess

/-- Freshness of one derived chunk product. -/
inductive ChunkProductState
  | unavailable
  | stale
  | current
  deriving DecidableEq, Repr

/-- Result of a dirty mark and its maintenance offer. -/
inductive ChunkMarkResult
  | accepted
  | capacityExhausted
  | stalled
  | invalidMask
  | missing
  | released
  deriving DecidableEq, Repr

/-- Result of a sparse residency acquisition or reconciliation. -/
inductive ChunkResidencyStatus
  | ready
  | missing
  | notIdle
  | released
  deriving DecidableEq, Repr

/-- Result of a sparse eviction. -/
inductive ChunkEvictionResult
  | evicted
  | missing
  | notIdle
  | released
  deriving DecidableEq, Repr

/-- Version and residency identity of one completed derived product. -/
structure ChunkProductToken where
  /-- Chunk key. -/
  key : ℕ := 0
  /-- Content version that the rebuild observed. -/
  contentVersion : ℕ := 0
  /-- Residency interval of the chunk. -/
  residencyGeneration : ℕ := 0
  deriving DecidableEq, Repr

/-- A product with its freshness. -/
structure ChunkProductView (P : Type) where
  /-- The product, unless it is unavailable. -/
  value : Option P := none
  /-- Identity of the product. -/
  token : ChunkProductToken := {}
  /-- Freshness of the product. -/
  state : ChunkProductState := .unavailable

/-- One slot of the adapter. -/
structure AdapterSlot (P : Type) where
  /-- The derived product. -/
  product : P
  /-- Identity of the last completed rebuild. -/
  token : ChunkProductToken := {}
  /-- Chunk of the slot. -/
  key : ℕ := 0
  /-- Residency interval of the chunk. -/
  residencyGeneration : ℕ := 0
  /-- The slot has a chunk. -/
  bound : Bool := false
  /-- A rebuild completed. -/
  built : Bool := false
  /-- An offer that the backend refused is owed. -/
  retryDebt : Bool := false

/-- `bind_slot`: another identity forgets the product and the debt. -/
def AdapterSlot.bind {P : Type} (slot : AdapterSlot P) (key generation : ℕ) : AdapterSlot P :=
  let changed := !slot.bound || slot.key != key || slot.residencyGeneration != generation
  { slot with
    built := if changed then false else slot.built
    retryDebt := if changed then false else slot.retryDebt
    bound := true
    key := key
    residencyGeneration := generation }

/-- `unbind_slot`. -/
def AdapterSlot.unbind {P : Type} (slot : AdapterSlot P) : AdapterSlot P :=
  { slot with bound := false, built := false, residencyGeneration := 0, retryDebt := false }

/-- A rebuild callback that runs on a slot. -/
structure OpenRebuild (C : Type) where
  /-- What the run observed before it called. -/
  observed : DirtyObservation
  /-- Content of the chunk at the call. -/
  content : C
  /-- The chunk was edited since. -/
  edited : Bool := false

/-- What other code does to the world. -/
inductive WorldAct (C : Type)
  | edit (key : ℕ) (content : C) (mask : BitVec 32) (bounds : Box3)
  | markDirty (key : ℕ) (mask : BitVec 32) (bounds : Box3)
  | clearDirty (key : ℕ) (mask : BitVec 32)
  | touch (key : ℕ)
  | evict (key : ℕ)
  | ensureResident (key : ℕ)

namespace WorldAct

variable {C : Type}

/-- The world after the action. -/
def apply [Inhabited C] (W : ChunkStore C) : WorldAct C → ChunkStore C
  | edit key content mask bounds => W.edit key content mask bounds
  | markDirty key mask bounds => W.markDirty key mask bounds
  | clearDirty key mask => W.clearDirty key mask
  | touch key => W.touch key
  | evict key => W.evict key
  | ensureResident key => if W.IsDense then W else W.ensureResident key

/-- The chunk whose content the action changes. -/
def edits : WorldAct C → Option ℕ
  | edit key _ _ _ => some key
  | _ => none

end WorldAct

/-- The adapter, its world and the rebuild callbacks in progress. -/
structure Adapter (C P : Type) where
  /-- The borrowed world. -/
  world : ChunkStore C
  /-- The dirty bits that the adapter clears. -/
  owned : BitVec 32
  /-- Fixed slots; a dense slot is its chunk key, a sparse slot the resident slot. -/
  slots : ℕ → AdapterSlot P
  /-- The callback that runs on a slot. -/
  rebuilding : ℕ → Option (OpenRebuild C) := fun _ => none
  /-- The last drain was idle and nothing was offered since. -/
  transitionReady : Bool := false
  /-- Every task is retired. -/
  released : Bool := false

namespace Adapter

variable {C P : Type} (a : Adapter C P)

/-! ### Slots -/

/-- Replace one slot. -/
def setSlot (s : ℕ) (slot : AdapterSlot P) : Adapter C P :=
  { a with slots := Function.update a.slots s slot }

/-- `bound_slot`. -/
def boundSlot (key : ℕ) : Option ℕ :=
  if a.world.IsDense then if key < a.world.chunkCount then some key else none
  else match a.world.resident key with
    | none => none
    | some ref =>
      if ref.slot ≥ a.world.capacity then none
      else if !(a.slots ref.slot).bound ∨ (a.slots ref.slot).key ≠ key ∨
          (a.slots ref.slot).residencyGeneration ≠ ref.generation then none
      else some ref.slot

/-- `sparse_binding_current`. -/
def bindingCurrent (s : ℕ) : Bool :=
  if a.world.IsDense then true
  else match a.world.resident (a.slots s).key with
    | none => false
    | some ref => ref.slot = s && ref.generation = (a.slots s).residencyGeneration

/-- `token_current`. -/
def tokenCurrent (token : ChunkProductToken) (s : ℕ) : Bool :=
  if !a.bindingCurrent s ∨ (a.slots s).key ≠ token.key ∨
      (a.slots s).residencyGeneration ≠ token.residencyGeneration then false
  else match a.world.resident token.key with
    | none => false
    | some r => r.dirty.contentVersion = token.contentVersion && r.dirty.mask &&& a.owned = 0

/-- `product`: the product of a chunk, validated against the world. -/
def product (key : ℕ) : ChunkProductView P :=
  match a.boundSlot key with
  | none => {}
  | some s =>
    if !(a.slots s).built ∨ (a.slots s).token.key ≠ key then {}
    else
      { value := some (a.slots s).product
        token := (a.slots s).token
        state := if a.tokenCurrent (a.slots s).token s then .current else .stale }

/-! ### Offers and marks -/

/-- What `schedule_slot` does before it asks the scheduler: claim the debt of the slot. -/
def claimDebt (s : ℕ) : Adapter C P :=
  { a.setSlot s { a.slots s with retryDebt := false } with transitionReady := false }

/-- Owe an offer. -/
def oweRetry (s : ℕ) : Adapter C P := a.setSlot s { a.slots s with retryDebt := true }

/-- `mark_dirty` up to its offer: the slot to offer, or why there is none. -/
def mark (key : ℕ) (mask : BitVec 32) (bounds : Box3) :
    Except ChunkMarkResult (ℕ × Adapter C P) :=
  if a.released then .error .released
  else if mask = 0 ∨ mask &&& ~~~a.owned ≠ 0 then .error .invalidMask
  else match a.boundSlot key with
    | none => .error .missing
    | some s => .ok (s, { a with world := a.world.markDirty key mask bounds })

/-! ### Task runs -/

/-- What a task run does before its callback. -/
inductive RunStart (C P : Type)
  /-- Nothing to rebuild. -/
  | done (a : Adapter C P)
  /-- The callback runs. -/
  | rebuild (a : Adapter C P)

/-- `run_slot` of a bound slot up to the callback. -/
def startRun (s : ℕ) : RunStart C P :=
  if a.bindingCurrent s then
    match a.world.resident (a.slots s).key with
    | none => .done a
    | some r =>
      let observed := r.dirty.metaObserveDirty a.owned r.generation
      if observed.mask = 0 ∧
          (!(a.slots s).built ∨ (a.slots s).token.contentVersion = observed.contentVersion) then
        .done (a.setSlot s { a.slots s with retryDebt := false })
      else
        .rebuild { a with
          rebuilding := Function.update a.rebuilding s (some ⟨observed, r.content, false⟩) }
  else .done a

/-- The callback writes into the product. -/
def writeProduct (s : ℕ) (p : P) : Adapter C P :=
  if (a.rebuilding s).isSome then a.setSlot s { a.slots s with product := p } else a

/-- The callback throws: whatever it wrote stays. -/
def throwRebuild (s : ℕ) : Adapter C P :=
  { a with rebuilding := Function.update a.rebuilding s none }

/-- The callback returns.  It reads only its chunk: unless the chunk was edited meanwhile, it
leaves the product of the content it was called with. -/
def returnRebuild (rebuild : ℕ → C → P) (s : ℕ) (o : OpenRebuild C) : Adapter C P :=
  let slot := a.slots s
  { a.setSlot s
      { slot with product := if o.edited then slot.product else rebuild slot.key o.content } with
    rebuilding := Function.update a.rebuilding s none }

/-- How a task run ends. -/
inductive RunEnd
  /-- The binding changed: nothing is published. -/
  | unbound
  /-- Published, and the observed bits are cleared. -/
  | cleared
  /-- Published, but the chunk has changed since: another pass is due. -/
  | outdated
  deriving DecidableEq, Repr

/-- `run_slot` after the callback returned, up to its own offer. -/
def publish (s : ℕ) (observed : DirtyObservation) : RunEnd × Adapter C P :=
  let slot := a.slots s
  if a.bindingCurrent s then
    let built := { slot with
      token := ⟨slot.key, observed.contentVersion, slot.residencyGeneration⟩
      built := true }
    match a.world.clearDirtyObserved slot.key observed with
    | some W => (.cleared, { a.setSlot s { built with retryDebt := false } with world := W })
    | none => (.outdated, a.setSlot s built)
  else (.unbound, a)

/-- `run_slot` from the return of the callback up to its own offer. -/
def finishRun (rebuild : ℕ → C → P) (s : ℕ) (o : OpenRebuild C) : RunEnd × Adapter C P :=
  (a.returnRebuild rebuild s o).publish s o.observed

/-! ### Residency -/

/-- `bind_slot`. -/
def bindSlot (s key generation : ℕ) : Adapter C P :=
  a.setSlot s ((a.slots s).bind key generation)

/-- Bind the slot of one resident key. -/
def bindResident (key : ℕ) : Adapter C P :=
  match a.world.resident key with
  | none => a
  | some ref => a.bindSlot ref.slot key ref.generation

/-- `bind_current_sparse_residency`. -/
def bindCurrentResidency : Adapter C P := a.world.lru.foldl bindResident a

/-- The constructor: dense slots are bound to their keys, sparse ones to what is resident. -/
def init [Inhabited P] (world : ChunkStore C) (owned : BitVec 32) : Adapter C P :=
  if world.IsDense then
    { world, owned, slots := fun s => AdapterSlot.bind { product := default } s 0 }
  else bindCurrentResidency { world, owned, slots := fun _ => { product := default } }

/-- `ensure_resident`. -/
def ensureResident [Inhabited C] (key : ℕ) : ChunkResidencyStatus × Adapter C P :=
  if a.released then (.released, a)
  else if !a.transitionReady then (.notIdle, a)
  else
    let a := { a with world := a.world.ensureResident key }
    match a.world.resident key with
    | none => (.missing, a)
    | some ref => (.ready, a.bindSlot ref.slot key ref.generation)

/-- `evict`. -/
def evict (key : ℕ) : ChunkEvictionResult × Adapter C P :=
  if a.released then (.released, a)
  else if !a.transitionReady then (.notIdle, a)
  else match a.world.resident key with
    | none => (.missing, a)
    | some ref =>
      (.evicted, { a.setSlot ref.slot (a.slots ref.slot).unbind with world := a.world.evict key })

/-- `reconcile_residency`. -/
def reconcileResidency : ChunkResidencyStatus × Adapter C P :=
  if a.released then (.released, a)
  else if !a.transitionReady then (.notIdle, a)
  else
    (.ready, bindCurrentResidency { a with slots := fun s => (a.slots s).unbind })

/-- An action of other code; callbacks on an edited chunk may see the edit. -/
def worldAct [Inhabited C] (act : WorldAct C) : Adapter C P :=
  { a with
    world := act.apply a.world
    rebuilding := fun s =>
      if act.edits = some (a.slots s).key then
        (a.rebuilding s).map fun o => { o with edited := true }
      else a.rebuilding s }

/-! ### Any backend -/

/-- **What can happen, whatever the backend.**  Other code acts on the world, the adapter marks
chunks and offers slots, and the backend runs tasks: any slot at any time after an offer or
during a drain, but no slot whose task still runs. -/
inductive Step [Inhabited C] (rebuild : ℕ → C → P) : Adapter C P → Adapter C P → Prop
  /-- Other code acts on the world, perhaps inside a callback. -/
  | world (a : Adapter C P) (act : WorldAct C) : Step rebuild a (a.worldAct act)
  /-- `mark_dirty` marks a chunk. -/
  | mark {a a' : Adapter C P} {key : ℕ} {mask : BitVec 32} {bounds : Box3} {s : ℕ}
      (h : a.mark key mask bounds = .ok (s, a')) : Step rebuild a a'
  /-- A slot is offered. -/
  | offer (a : Adapter C P) (s : ℕ) : Step rebuild a (a.claimDebt s)
  /-- The backend refused an offer. -/
  | refuse (a : Adapter C P) (s : ℕ) : Step rebuild a (a.oweRetry s)
  /-- A drain begins. -/
  | drain (a : Adapter C P) : Step rebuild a { a with transitionReady := false }
  /-- A task run finds nothing to rebuild. -/
  | skip {a a' : Adapter C P} {s : ℕ} (hbound : (a.slots s).bound = true)
      (h : a.startRun s = .done a') : Step rebuild a a'
  /-- A task run calls back. -/
  | start {a a' : Adapter C P} {s : ℕ} (hbusy : a.transitionReady = false)
      (halone : a.rebuilding s = none) (hbound : (a.slots s).bound = true)
      (h : a.startRun s = .rebuild a') : Step rebuild a a'
  /-- A callback writes into its product. -/
  | write (a : Adapter C P) (s : ℕ) (p : P) : Step rebuild a (a.writeProduct s p)
  /-- A callback throws. -/
  | throws (a : Adapter C P) (s : ℕ) : Step rebuild a (a.throwRebuild s)
  /-- A callback returns. -/
  | finish {a : Adapter C P} {s : ℕ} {o : OpenRebuild C} (h : a.rebuilding s = some o) :
      Step rebuild a (a.finishRun rebuild s o).2
  /-- A drain ends; no callback runs any more. -/
  | settle {a : Adapter C P} (ready : Bool) (h : ∀ s, a.rebuilding s = none) :
      Step rebuild a { a with transitionReady := ready }
  /-- `ensure_resident`. -/
  | ensureResident {a : Adapter C P} (hsparse : ¬ a.world.IsDense) (key : ℕ) :
      Step rebuild a (a.ensureResident key).2
  /-- `evict`. -/
  | evict {a : Adapter C P} (hsparse : ¬ a.world.IsDense) (key : ℕ) :
      Step rebuild a (a.evict key).2
  /-- `reconcile_residency`. -/
  | reconcile {a : Adapter C P} (hsparse : ¬ a.world.IsDense) :
      Step rebuild a a.reconcileResidency.2
  /-- `try_release` retires every task. -/
  | release {a : Adapter C P} (hready : a.transitionReady = true) :
      Step rebuild a { a with released := true, transitionReady := false }

end Adapter

/-! ### Current products -/

namespace Adapter

variable {C P : Type} {a a' : Adapter C P} {rebuild : ℕ → C → P} {key s : ℕ}
  {r : ResidentChunk C} {o : OpenRebuild C}

/-- A resident chunk whose slot is bound to its present residency. -/
structure Bound (a : Adapter C P) (key : ℕ) (r : ResidentChunk C) : Prop where
  /-- The chunk is resident. -/
  resident : a.world.resident key = some r
  /-- The slot has a chunk. -/
  bound : (a.slots r.slot).bound = true
  /-- It is this one. -/
  key_eq : (a.slots r.slot).key = key
  /-- The slot knows its residency. -/
  generation : (a.slots r.slot).residencyGeneration = r.generation

/-- What holds of an adapter after any steps. -/
structure Inv (rebuild : ℕ → C → P) (a : Adapter C P) : Prop where
  /-- Slots know no generation that the clock did not reach. -/
  generation_le : ∀ s, (a.slots s).residencyGeneration ≤ a.world.generationClock
  /-- Dense slots stay bound to their keys. -/
  dense : a.world.IsDense → ∀ s, (a.slots s).bound = true ∧ (a.slots s).key = s ∧
    (a.slots s).residencyGeneration = 0
  /-- A token that names the present version names the present content, and no callback runs. -/
  fresh : ∀ key r, a.Bound key r → (a.slots r.slot).built = true →
    (a.slots r.slot).token.contentVersion ≤ r.dirty.contentVersion ∧
      ((a.slots r.slot).token.contentVersion = r.dirty.contentVersion →
        r.dirty.mask &&& a.owned = 0 ∧ a.rebuilding r.slot = none ∧
          (a.slots r.slot).product = rebuild key r.content)
  /-- A callback's observation is as good as its chunk is unedited. -/
  observed : ∀ key r o, a.Bound key r → a.rebuilding r.slot = some o →
    o.observed.residencyGeneration = r.generation ∧
      o.observed.contentVersion ≤ r.dirty.contentVersion ∧
      (o.observed.contentVersion = r.dirty.contentVersion →
        o.edited = false ∧ o.content = r.content ∧
          ∀ b, (r.dirty.mask &&& a.owned).getLsbD b = true → o.observed.mask.getLsbD b = true)
  /-- No callback runs at a transition boundary. -/
  quiet : a.transitionReady = true → ∀ s, a.rebuilding s = none

/-- **The slot of a chunk** is bound to its residency. -/
theorem Inv.bound_of_boundSlot (I : a.Inv rebuild) (h : a.boundSlot key = some s) :
    ∃ r, a.Bound key r ∧ r.slot = s := by
  rw [boundSlot] at h
  split_ifs at h with hd hkey
  · obtain rfl := Option.some.inj h
    obtain ⟨r, hr, hs, hg⟩ := a.world.dense_resident hd key hkey
    obtain ⟨h1, h2, h3⟩ := I.dense hd key
    exact ⟨r, ⟨hr, by rw [hs, h1], by rw [hs, h2], by rw [hs, h3, hg]⟩, hs⟩
  · split at h
    · cases h
    rename_i ref href
    split_ifs at h with h1 h2
    obtain rfl := Option.some.inj h
    simp only [Bool.not_eq_true', not_or, Bool.not_eq_false, ne_eq, not_not] at h2
    exact ⟨ref, ⟨href, h2.1, h2.2.1, h2.2.2⟩, rfl⟩

/-- A bound chunk has a slot. -/
theorem Bound.boundSlot (h : a.Bound key r) : a.boundSlot key = some r.slot := by
  rw [Adapter.boundSlot]
  split_ifs with hd hkey
  · obtain ⟨r', hr', hs, -⟩ := a.world.dense_resident hd key hkey
    rw [h.resident] at hr'
    obtain rfl := Option.some.inj hr'
    rw [hs]
  · exact absurd (a.world.dense_lt hd key r h.resident) hkey
  · have hlt := a.world.slot_lt key r h.resident
    rw [h.resident]
    simp [h.bound, h.key_eq, h.generation, Nat.not_le.2 hlt]

/-- A binding that is current is the one of a bound chunk. -/
theorem Inv.bound_of_bindingCurrent (I : a.Inv rebuild) (hb : (a.slots s).bound = true)
    (h : a.bindingCurrent s = true) (hr : a.world.resident (a.slots s).key = some r) :
    a.Bound (a.slots s).key r ∧ r.slot = s := by
  rw [bindingCurrent] at h
  split_ifs at h with hd
  · obtain ⟨-, h2, h3⟩ := I.dense hd s
    rw [h2] at hr
    obtain ⟨r', hr', hs, hg⟩ := a.world.dense_resident hd s (a.world.dense_lt hd s r hr)
    rw [hr] at hr'
    obtain rfl := Option.some.inj hr'
    exact ⟨⟨by rw [h2, hr], by rw [hs, hb], by rw [hs], by rw [hs, h3, hg]⟩, hs⟩
  · rw [hr] at h
    simp only [Bool.and_eq_true, decide_eq_true_eq] at h
    exact ⟨⟨hr, by rw [h.1, hb], by rw [h.1], by rw [h.1, h.2]⟩, h.1⟩

theorem Bound.bindingCurrent (h : a.Bound key r) : a.bindingCurrent r.slot = true := by
  rw [Adapter.bindingCurrent]
  split_ifs with hd
  · rfl
  · rw [h.key_eq, h.resident]
    simp [h.generation]

/-- A slot has one bound chunk. -/
theorem Bound.unique {key' : ℕ} {r' : ResidentChunk C} (h : a.Bound key r)
    (h' : a.Bound key' r') (hs : r.slot = r'.slot) : key = key' ∧ r = r' := by
  obtain rfl : key = key' := by rw [← h.key_eq, ← h'.key_eq, hs]
  exact ⟨rfl, Option.some.inj (h.resident.symm.trans h'.resident)⟩

/-- **A current product is the rebuild of the present content**, by the invariant. -/
theorem Inv.current (I : a.Inv rebuild) (h : (a.product key).state = .current) :
    ∃ r, a.world.resident key = some r ∧
      (a.product key).value = some (rebuild key r.content) ∧
      (a.product key).token = ⟨key, r.dirty.contentVersion, r.generation⟩ := by
  rw [product] at h ⊢
  split at h
  · cases h
  rename_i s hslot
  obtain ⟨r, hbound, rfl⟩ := I.bound_of_boundSlot hslot
  split_ifs at h with hbuilt hcurrent
  simp only [if_neg hbuilt]
  simp only [Bool.not_eq_true', not_or, Bool.not_eq_false, ne_eq, not_not] at hbuilt
  rw [tokenCurrent] at hcurrent
  split_ifs at hcurrent with hident
  simp only [Bool.not_eq_true', not_or, Bool.not_eq_false, ne_eq, not_not] at hident
  rw [hbuilt.2, hbound.resident] at hcurrent
  simp only [Bool.and_eq_true, decide_eq_true_eq] at hcurrent
  obtain ⟨-, hfresh⟩ := I.fresh key r hbound hbuilt.1
  obtain ⟨-, -, hproduct⟩ := hfresh hcurrent.1.symm
  refine ⟨r, hbound.resident, by rw [hproduct], ?_⟩
  rw [hcurrent.1, ← hbound.generation, hident.2.2, ← hbuilt.2]

/-! ### Steps keep the invariant -/

/-- Debts and boundaries are no part of it. -/
theorem Inv.congr (I : a.Inv rebuild) (hworld : a'.world = a.world) (howned : a'.owned = a.owned)
    (hreb : a'.rebuilding = a.rebuilding)
    (hslots : ∀ s, a'.slots s = { a.slots s with retryDebt := (a'.slots s).retryDebt })
    (hquiet : a'.transitionReady = true → ∀ s, a.rebuilding s = none) : a'.Inv rebuild := by
  have hbound : ∀ {key r}, a'.Bound key r → a.Bound key r := by
    intro key r h
    obtain ⟨h1, h2, h3, h4⟩ := h
    rw [hworld] at h1
    rw [hslots] at h2 h3 h4
    exact ⟨h1, h2, h3, h4⟩
  refine ⟨?_, ?_, ?_, ?_, ?_⟩
  · intro s
    rw [hworld, hslots]
    exact I.generation_le s
  · intro hd s
    rw [hworld] at hd
    rw [hslots]
    exact I.dense hd s
  · intro key r h hbuilt
    rw [hslots] at hbuilt
    rw [hslots, howned, hreb]
    exact I.fresh key r (hbound h) hbuilt
  · intro key r o h ho
    rw [hreb] at ho
    rw [howned]
    exact I.observed key r o (hbound h) ho
  · rw [hreb]
    exact hquiet

theorem setSlot_slots (slot : AdapterSlot P) (k : ℕ) :
    (a.setSlot s slot).slots k = if k = s then slot else a.slots k :=
  Function.update_apply ..

theorem Inv.setDebt (I : a.Inv rebuild) (s : ℕ) (debt : Bool) :
    (a.setSlot s { a.slots s with retryDebt := debt }).Inv rebuild := by
  refine I.congr rfl rfl rfl (fun k => ?_) I.quiet
  rw [setSlot_slots]
  split_ifs with hk
  · rw [hk]
  · rfl

/-- **A later world** keeps it, when the callbacks on edited chunks know. -/
theorem Inv.later {W : ChunkStore C} {reb : ℕ → Option (OpenRebuild C)} (I : a.Inv rebuild)
    (h : a.world.Later W) (hnone : ∀ s, a.rebuilding s = none → reb s = none)
    (hsome : ∀ s o', reb s = some o' → ∃ o, a.rebuilding s = some o ∧ o'.observed = o.observed ∧
      o'.content = o.content ∧ (o'.edited = o.edited ∨
        ∀ r r', a.world.resident (a.slots s).key = some r →
          W.resident (a.slots s).key = some r' →
            r.dirty.contentVersion < r'.dirty.contentVersion)) :
    Inv rebuild { a with world := W, rebuilding := reb } := by
  -- a bound chunk has the generation its slot knew, so its residency is not new
  have hback : ∀ {key r'}, Bound { a with world := W, rebuilding := reb } key r' →
      ∃ r, a.Bound key r ∧ r.Later r' := by
    intro key r' hb
    rcases h.resident key r' hb.resident with ⟨r, hr, hlater⟩ | hnew
    · have hs := hlater.slot
      have hg := hlater.generation
      obtain ⟨-, h2, h3, h4⟩ := hb
      simp only [hs, hg] at h2 h3 h4
      exact ⟨r, ⟨hr, h2, h3, h4⟩, hlater⟩
    · have h1 := I.generation_le r'.slot
      have h2 := hb.generation
      simp only at h2
      omega
  refine ⟨fun s => (I.generation_le s).trans h.clock, fun hd => ?_, ?_, ?_, ?_⟩
  · exact I.dense (h.residency.symm.trans hd)
  · intro key r' hb hbuilt
    obtain ⟨r, hr, hlater⟩ := hback hb
    have hs := hlater.slot
    have hv := hlater.version
    simp only [hs] at hbuilt ⊢
    obtain ⟨h1, h2⟩ := I.fresh key r hr hbuilt
    refine ⟨h1.trans hv, fun heq => ?_⟩
    obtain ⟨hclean, hidle, hproduct⟩ := h2 (by omega)
    refine ⟨?_, hnone _ hidle, by rw [hproduct, hlater.content (by omega)]⟩
    refine BitVec.eq_of_getLsbD_eq fun b _ => ?_
    rw [BitVec.getLsbD_and]
    have hb0 := congrArg (fun m : BitVec 32 => m.getLsbD b) hclean
    simp only [BitVec.getLsbD_and] at hb0
    have hmark := hlater.marks (by omega) b
    cases hr' : r'.dirty.mask.getLsbD b with
    | false => simp
    | true =>
      rw [hmark hr'] at hb0
      simpa using hb0
  · intro key r' o' hb ho'
    obtain ⟨r, hr, hlater⟩ := hback hb
    have hs := hlater.slot
    have hv := hlater.version
    simp only [hs] at ho'
    obtain ⟨o, ho, hobs, hcontent, hedited⟩ := hsome _ _ ho'
    obtain ⟨h1, h2, h3⟩ := I.observed key r o hr ho
    rw [hobs, hcontent]
    refine ⟨h1.trans hlater.generation.symm, h2.trans hv, fun heq => ?_⟩
    obtain ⟨h4, h5, h6⟩ := h3 (by omega)
    refine ⟨?_, by rw [h5, hlater.content (by omega)], fun b hbit => ?_⟩
    · rcases hedited with hedited | hgrows
      · rw [hedited, h4]
      · rw [hr.key_eq] at hgrows
        have := hgrows r r' hr.resident hb.resident
        omega
    · refine h6 b ?_
      rw [BitVec.getLsbD_and, Bool.and_eq_true] at hbit ⊢
      exact ⟨hlater.marks (by omega) b hbit.1, hbit.2⟩
  · intro hready s
    exact hnone s (I.quiet hready s)

end Adapter

/-- Other code leaves a later world. -/
theorem WorldAct.later {C : Type} [Inhabited C] (act : WorldAct C) (W : ChunkStore C) :
    W.Later (act.apply W) := by
  cases act with
  | edit key content mask bounds => exact ChunkStore.later_edit content mask bounds
  | markDirty key mask bounds => exact ChunkStore.later_markDirty mask bounds
  | clearDirty key mask => exact ChunkStore.later_clearDirty mask
  | touch key => exact ChunkStore.later_touch
  | evict key => exact ChunkStore.later_evict
  | ensureResident key =>
    rw [WorldAct.apply]
    split_ifs
    · exact .refl W
    · exact ChunkStore.later_ensureResident

/-- **Every edit of a chunk** gives it a new version. -/
theorem WorldAct.edits_version {C : Type} [Inhabited C] {act : WorldAct C} {W : ChunkStore C}
    {key : ℕ} {r r' : ResidentChunk C} (h : act.edits = some key)
    (hr : W.resident key = some r) (hr' : (act.apply W).resident key = some r') :
    r.dirty.contentVersion < r'.dirty.contentVersion := by
  cases act with
  | edit k content mask bounds =>
    obtain rfl := Option.some.inj h
    change W.modify k _ k = some r' at hr'
    rw [ChunkStore.modify, if_pos rfl, hr] at hr'
    obtain rfl := Option.some.inj hr'
    simp only
    split_ifs with hmask
    · exact Nat.lt_succ_self _
    · rw [ChunkStore.metaMarkDirty_version _ hmask]
      exact Nat.lt_succ_self _
  | _ => cases h

namespace Adapter

variable {C P : Type} {a a' : Adapter C P} {rebuild : ℕ → C → P} {key s : ℕ}
  {r : ResidentChunk C} {o : OpenRebuild C}

theorem Inv.worldAct [Inhabited C] (I : a.Inv rebuild) (act : WorldAct C) :
    (a.worldAct act).Inv rebuild := by
  refine I.later (act.later a.world) (fun s hs => ?_) fun s o' ho' => ?_
  · simp [hs]
  · split_ifs at ho' with hkey
    · obtain ⟨o, ho, rfl⟩ := Option.map_eq_some_iff.1 ho'
      exact ⟨o, ho, rfl, rfl, Or.inr fun r r' hr hr' => act.edits_version hkey hr hr'⟩
    · exact ⟨o', ho', rfl, rfl, Or.inl rfl⟩

theorem mark_eq_ok {mask : BitVec 32} {bounds : Box3} (h : a.mark key mask bounds = .ok (s, a')) :
    a.released = false ∧ mask ≠ 0 ∧ mask &&& ~~~a.owned = 0 ∧ a.boundSlot key = some s ∧
      a' = { a with world := a.world.markDirty key mask bounds } := by
  rw [mark] at h
  split_ifs at h with h1 h2
  split at h
  · cases h
  rename_i s' hs
  obtain ⟨rfl, rfl⟩ := Prod.mk.inj (Except.ok.inj h)
  rw [not_or, not_not] at h2
  exact ⟨by simpa using h1, h2.1, h2.2, hs, rfl⟩

theorem Inv.mark {mask : BitVec 32} {bounds : Box3} (I : a.Inv rebuild)
    (h : a.mark key mask bounds = .ok (s, a')) : a'.Inv rebuild := by
  obtain ⟨-, -, -, -, rfl⟩ := mark_eq_ok h
  exact I.later (ChunkStore.later_markDirty mask bounds) (fun _ h => h)
    fun _ o' ho' => ⟨o', ho', rfl, rfl, Or.inl rfl⟩

/-- What a task run does before its callback. -/
theorem startRun_done (h : a.startRun s = .done a') :
    a' = a ∨ a' = a.setSlot s { a.slots s with retryDebt := false } := by
  rw [startRun] at h
  split_ifs at h with hb
  · split at h
    · exact Or.inl (RunStart.done.inj h).symm
    · simp only at h
      split_ifs at h
      exact Or.inr (RunStart.done.inj h).symm
  · exact Or.inl (RunStart.done.inj h).symm

theorem startRun_rebuild (h : a.startRun s = .rebuild a') : a.bindingCurrent s = true ∧
    ∃ r, a.world.resident (a.slots s).key = some r ∧
      ¬ (r.dirty.mask &&& a.owned = 0 ∧ ((a.slots s).built = false ∨
        (a.slots s).token.contentVersion = r.dirty.contentVersion)) ∧
      a' = { a with
        rebuilding := Function.update a.rebuilding s
          (some ⟨r.dirty.metaObserveDirty a.owned r.generation, r.content, false⟩) } := by
  rw [startRun] at h
  split_ifs at h with hb
  split at h
  · cases h
  rename_i r hr
  simp only at h
  split_ifs at h with hclean
  refine ⟨hb, r, hr, ?_, (RunStart.rebuild.inj h).symm⟩
  simpa [ChunkDirty.metaObserveDirty] using hclean

/-- **A callback starts** on an outdated chunk only. -/
theorem Inv.startRun (I : a.Inv rebuild) (hbusy : a.transitionReady = false)
    (hbound : (a.slots s).bound = true) (h : a.startRun s = .rebuild a') : a'.Inv rebuild := by
  obtain ⟨hcur, r, hr, hwork, rfl⟩ := startRun_rebuild h
  obtain ⟨hb, rfl⟩ := I.bound_of_bindingCurrent hbound hcur hr
  refine ⟨I.generation_le, I.dense, ?_, ?_, ?_⟩
  · intro key r' hb' hbuilt
    have hb'' : a.Bound key r' := ⟨hb'.1, hb'.2, hb'.3, hb'.4⟩
    obtain ⟨h1, h2⟩ := I.fresh key r' hb'' hbuilt
    refine ⟨h1, fun heq => ?_⟩
    obtain ⟨h3, h4, h5⟩ := h2 heq
    by_cases hs : r'.slot = r.slot
    · -- that slot had nothing to rebuild
      obtain ⟨-, rfl⟩ := hb''.unique hb hs
      exact absurd ⟨h3, Or.inr heq⟩ hwork
    · exact ⟨h3, by simp only [Function.update_of_ne hs, h4], h5⟩
  · intro key r' o hb' ho
    have hb'' : a.Bound key r' := ⟨hb'.1, hb'.2, hb'.3, hb'.4⟩
    by_cases hs : r'.slot = r.slot
    · obtain ⟨-, rfl⟩ := hb''.unique hb hs
      simp only [Function.update_self] at ho
      obtain rfl := Option.some.inj ho
      exact ⟨rfl, le_rfl, fun _ => ⟨rfl, rfl, fun _ h => h⟩⟩
    · simp only [Function.update_of_ne hs] at ho
      exact I.observed key r' o hb'' ho
  · intro hready
    simp only [hbusy, Bool.false_eq_true] at hready

theorem Inv.writeProduct (I : a.Inv rebuild) (s : ℕ) (p : P) :
    (a.writeProduct s p).Inv rebuild := by
  rw [Adapter.writeProduct]
  split_ifs with hopen
  swap
  · exact I
  have hslot : ∀ k, (a.setSlot s { a.slots s with product := p }).slots k =
      { a.slots k with product := if k = s then p else (a.slots k).product } := by
    intro k
    rw [setSlot_slots]
    split_ifs with hk
    · rw [hk]
    · rfl
  have hback : ∀ {key r}, (a.setSlot s { a.slots s with product := p }).Bound key r →
      a.Bound key r := by
    intro key r hb
    obtain ⟨h1, h2, h3, h4⟩ := hb
    rw [hslot] at h2 h3 h4
    exact ⟨h1, h2, h3, h4⟩
  refine ⟨?_, ?_, ?_, ?_, I.quiet⟩
  · intro k
    rw [hslot]
    exact I.generation_le k
  · intro hd k
    rw [hslot]
    exact I.dense hd k
  · intro key r hb hbuilt
    rw [hslot] at hbuilt ⊢
    obtain ⟨h1, h2⟩ := I.fresh key r (hback hb) hbuilt
    refine ⟨h1, fun heq => ?_⟩
    obtain ⟨h3, h4, h5⟩ := h2 heq
    -- the slot whose callback writes has no fresh token
    have hne : r.slot ≠ s := by
      rintro rfl
      rw [h4] at hopen
      cases hopen
    exact ⟨h3, h4, by rw [if_neg hne, h5]⟩
  · intro key r o hb ho
    exact I.observed key r o (hback hb) ho

theorem Inv.throwRebuild (I : a.Inv rebuild) (s : ℕ) : (a.throwRebuild s).Inv rebuild := by
  have hreb : ∀ k, (a.throwRebuild s).rebuilding k = none ∨
      (a.throwRebuild s).rebuilding k = a.rebuilding k := by
    intro k
    by_cases hk : k = s
    · exact Or.inl (by rw [hk, Adapter.throwRebuild]; exact Function.update_self ..)
    · exact Or.inr (Function.update_of_ne hk ..)
  refine ⟨I.generation_le, I.dense, ?_, ?_, ?_⟩
  · intro key r hb hbuilt
    obtain ⟨h1, h2⟩ := I.fresh key r ⟨hb.1, hb.2, hb.3, hb.4⟩ hbuilt
    refine ⟨h1, fun heq => ?_⟩
    obtain ⟨h3, h4, h5⟩ := h2 heq
    exact ⟨h3, (hreb r.slot).elim id fun h => h.trans h4, h5⟩
  · intro key r o hb ho
    rcases hreb r.slot with h | h
    · rw [h] at ho
      cases ho
    · rw [h] at ho
      exact I.observed key r o ⟨hb.1, hb.2, hb.3, hb.4⟩ ho
  · intro hready k
    exact (hreb k).elim id fun h => h.trans (I.quiet hready k)

/-- A slot that keeps its identity gets new contents, and its callback is over. -/
def replaceSlot (a : Adapter C P) (s : ℕ) (slot : AdapterSlot P) (W : ChunkStore C) :
    Adapter C P :=
  { a.setSlot s slot with world := W, rebuilding := Function.update a.rebuilding s none }

theorem replaceSlot_bound {slot : AdapterSlot P} {W : ChunkStore C}
    (hid : slot.bound = (a.slots s).bound ∧ slot.key = (a.slots s).key ∧
      slot.residencyGeneration = (a.slots s).residencyGeneration)
    (h : (a.replaceSlot s slot W).Bound key r) : Bound { a with world := W } key r := by
  obtain ⟨h1, h2, h3, h4⟩ := h
  obtain ⟨hb, hk, hg⟩ := hid
  have hslots : (a.replaceSlot s slot W).slots r.slot =
      if r.slot = s then slot else a.slots r.slot := setSlot_slots ..
  rw [hslots] at h2 h3 h4
  by_cases hs : r.slot = s
  · rw [if_pos hs] at h2 h3 h4
    exact ⟨h1, by rw [← h2, hb, hs], by rw [← h3, hk, hs], by rw [hs]; exact hg.symm.trans h4⟩
  · rw [if_neg hs] at h2 h3 h4
    exact ⟨h1, h2, h3, h4⟩

theorem Inv.replaceSlot {slot : AdapterSlot P} {W : ChunkStore C} (I : a.Inv rebuild)
    (hid : slot.bound = (a.slots s).bound ∧ slot.key = (a.slots s).key ∧
      slot.residencyGeneration = (a.slots s).residencyGeneration)
    (hlater : a.world.Later W)
    (hfresh : ∀ r, Bound { a with world := W } (a.slots s).key r → r.slot = s →
      slot.built = true → slot.token.contentVersion ≤ r.dirty.contentVersion ∧
        (slot.token.contentVersion = r.dirty.contentVersion →
          r.dirty.mask &&& a.owned = 0 ∧ slot.product = rebuild (a.slots s).key r.content)) :
    (a.replaceSlot s slot W).Inv rebuild := by
  have hnone : ∀ k, Function.update a.rebuilding s none k = none ∨
      Function.update a.rebuilding s none k = a.rebuilding k := by
    intro k
    by_cases hk : k = s
    · exact Or.inl (by rw [hk, Function.update_self])
    · exact Or.inr (Function.update_of_ne hk ..)
  have I' : Inv rebuild
      { a with world := W, rebuilding := Function.update a.rebuilding s none } := by
    refine I.later hlater (fun k hk => (hnone k).elim id fun h => h.trans hk) fun k o' ho' => ?_
    rcases hnone k with h | h
    · rw [h] at ho'
      cases ho'
    · exact ⟨o', h.symm.trans ho', rfl, rfl, Or.inl rfl⟩
  have hslots : ∀ k, (a.replaceSlot s slot W).slots k = if k = s then slot else a.slots k :=
    fun k => setSlot_slots ..
  refine ⟨fun k => ?_, fun hd k => ?_, ?_, ?_, I'.quiet⟩
  · rw [hslots]
    split_ifs with hk
    · rw [hid.2.2]
      exact I'.generation_le s
    · exact I'.generation_le k
  · rw [hslots]
    split_ifs with hk
    · rw [hid.1, hid.2.1, hid.2.2, hk]
      exact I'.dense hd s
    · exact I'.dense hd k
  · intro key r hb hbuilt
    have hb' := replaceSlot_bound hid hb
    rw [hslots] at hbuilt ⊢
    split_ifs at hbuilt ⊢ with hs
    · obtain rfl : (a.slots s).key = key := by
        rw [← hs]
        exact hb'.key_eq
      obtain ⟨h1, h2⟩ := hfresh r hb' hs hbuilt
      refine ⟨h1, fun heq => ?_⟩
      obtain ⟨h3, h4⟩ := h2 heq
      exact ⟨h3, by rw [hs]; exact Function.update_self .., h4⟩
    · exact I'.fresh key r ⟨hb'.1, hb'.2, hb'.3, hb'.4⟩ hbuilt
  · intro key r o hb ho
    have hb' := replaceSlot_bound hid hb
    exact I'.observed key r o ⟨hb'.1, hb'.2, hb'.3, hb'.4⟩ ho

/-- The slot after its callback returned. -/
def returnedSlot (a : Adapter C P) (rebuild : ℕ → C → P) (s : ℕ) (o : OpenRebuild C) :
    AdapterSlot P :=
  { a.slots s with
    product := if o.edited then (a.slots s).product else rebuild (a.slots s).key o.content }

/-- The slot after its product was published. -/
def publishedSlot (a : Adapter C P) (rebuild : ℕ → C → P) (s : ℕ) (o : OpenRebuild C) :
    AdapterSlot P :=
  { a.slots s with
    product := if o.edited then (a.slots s).product else rebuild (a.slots s).key o.content
    token := ⟨(a.slots s).key, o.observed.contentVersion, (a.slots s).residencyGeneration⟩
    built := true }

/-- The slot after its observed bits were cleared, too. -/
def clearedSlot (a : Adapter C P) (rebuild : ℕ → C → P) (s : ℕ) (o : OpenRebuild C) :
    AdapterSlot P :=
  { a.slots s with
    product := if o.edited then (a.slots s).product else rebuild (a.slots s).key o.content
    token := ⟨(a.slots s).key, o.observed.contentVersion, (a.slots s).residencyGeneration⟩
    built := true
    retryDebt := false }

/-- **The ends of a task run.** -/
theorem finishRun_cases (a : Adapter C P) (rebuild : ℕ → C → P) (s : ℕ) (o : OpenRebuild C) :
    (a.bindingCurrent s = false ∧ a.finishRun rebuild s o =
      (.unbound, a.replaceSlot s (a.returnedSlot rebuild s o) a.world)) ∨
    (a.bindingCurrent s = true ∧ ∃ W,
      a.world.clearDirtyObserved (a.slots s).key o.observed = some W ∧ a.finishRun rebuild s o =
        (.cleared, a.replaceSlot s (a.clearedSlot rebuild s o) W)) ∨
    (a.bindingCurrent s = true ∧
      a.world.clearDirtyObserved (a.slots s).key o.observed = none ∧ a.finishRun rebuild s o =
        (.outdated, a.replaceSlot s (a.publishedSlot rebuild s o) a.world)) := by
  have hslot : (a.returnRebuild rebuild s o).slots s = a.returnedSlot rebuild s o :=
    Function.update_self ..
  have hcur : (a.returnRebuild rebuild s o).bindingCurrent s = a.bindingCurrent s := by
    rw [bindingCurrent, bindingCurrent, hslot]
    rfl
  have hset (q : AdapterSlot P) : ((a.returnRebuild rebuild s o).setSlot s q).slots =
      (a.setSlot s q).slots := Function.update_idem ..
  rw [finishRun, publish, hcur]
  cases hb : a.bindingCurrent s with
  | false => exact Or.inl ⟨rfl, rfl⟩
  | true =>
    refine Or.inr ?_
    simp only [hslot, if_true]
    cases hclear : a.world.clearDirtyObserved (a.slots s).key o.observed with
    | some W =>
      refine Or.inl ⟨trivial, W, rfl, ?_⟩
      have hclear' : (a.returnRebuild rebuild s o).world.clearDirtyObserved
          (a.returnedSlot rebuild s o).key o.observed = some W := hclear
      simp only [hclear']
      simp only [replaceSlot, setSlot, returnRebuild, Function.update_idem]
      rfl
    | none =>
      refine Or.inr ⟨trivial, rfl, ?_⟩
      have hclear' : (a.returnRebuild rebuild s o).world.clearDirtyObserved
          (a.returnedSlot rebuild s o).key o.observed = none := hclear
      simp only [hclear']
      simp only [replaceSlot, setSlot, returnRebuild, Function.update_idem]
      rfl

/-- **A published product** is fresh if its chunk is unedited since the observation. -/
theorem Inv.finishRun (I : a.Inv rebuild) (ho : a.rebuilding s = some o) :
    (a.finishRun rebuild s o).2.Inv rebuild := by
  rcases a.finishRun_cases rebuild s o with ⟨hb, heq⟩ | ⟨hb, W, hclear, heq⟩ | ⟨hb, hclear, heq⟩
  · rw [heq]
    refine I.replaceSlot ⟨rfl, rfl, rfl⟩ (.refl _) fun r hbound hs => ?_
    obtain rfl := hs
    have hb' : a.Bound (a.slots r.slot).key r := ⟨hbound.1, hbound.2, hbound.3, hbound.4⟩
    rw [hb'.bindingCurrent] at hb
    cases hb
  · rw [heq]
    obtain ⟨r, hr, hg, hv, rfl⟩ := ChunkStore.clearDirtyObserved_eq_some hclear
    refine I.replaceSlot ⟨rfl, rfl, rfl⟩ (ChunkStore.later_clearDirty _) fun r' hbound hs _ => ?_
    -- the chunk of the slot, before its bits were cleared
    have hr' : a.world.modify (a.slots s).key
        (fun q => (q.dirty.metaClearDirty o.observed.mask, q.content)) (a.slots s).key =
        some r' := hbound.resident
    rw [ChunkStore.modify, if_pos rfl, hr] at hr'
    obtain rfl := Option.some.inj hr'
    have hb' : a.Bound (a.slots s).key r := ⟨hr, hbound.2, hbound.3, hbound.4⟩
    obtain rfl : r.slot = s := hs
    obtain ⟨h1, h2, h3⟩ := I.observed _ r o hb' ho
    obtain ⟨h4, h5, h6⟩ := h3 hv.symm
    have hversion : (r.dirty.metaClearDirty o.observed.mask).contentVersion =
        o.observed.contentVersion := (ChunkStore.metaClearDirty_version _ _).trans hv
    refine ⟨hversion.ge, fun _ => ⟨?_, ?_⟩⟩
    · refine BitVec.eq_of_getLsbD_eq fun b _ => ?_
      rw [BitVec.getLsbD_and]
      cases hm : (r.dirty.metaClearDirty o.observed.mask).mask.getLsbD b with
      | false => simp
      | true =>
        obtain ⟨hm1, hm2⟩ := ChunkStore.getLsbD_of_clear hm
        cases how : a.owned.getLsbD b with
        | false => simp
        | true =>
          have := h6 b (by rw [BitVec.getLsbD_and, hm1, how]; rfl)
          rw [hm2] at this
          cases this
    · simp only [clearedSlot, h4, Bool.false_eq_true, if_false, h5]
  · rw [heq]
    refine I.replaceSlot ⟨rfl, rfl, rfl⟩ (.refl _) fun r hbound hs _ => ?_
    have hb' : a.Bound (a.slots s).key r := ⟨hbound.1, hbound.2, hbound.3, hbound.4⟩
    obtain rfl := hs
    obtain ⟨h1, h2, -⟩ := I.observed _ r o hb' ho
    have hne : o.observed.contentVersion ≠ r.dirty.contentVersion := by
      rcases ChunkStore.clearDirtyObserved_eq_none hclear hb'.resident with h | h
      · exact absurd h1.symm h
      · exact h.symm
    exact ⟨h2, fun heq => absurd heq hne⟩

/-! ### Residency changes keep the invariant -/

theorem bind_built {slot : AdapterSlot P} {g : ℕ} (h : (slot.bind key g).built = true) :
    slot.bound = true ∧ slot.key = key ∧ slot.residencyGeneration = g ∧ slot.built = true := by
  simp only [AdapterSlot.bind] at h
  split_ifs at h with hchanged
  simp only [Bool.or_eq_true, Bool.not_eq_true', bne_iff_ne, ne_eq, not_or, not_not,
    Bool.not_eq_false] at hchanged
  exact ⟨hchanged.1.1, hchanged.1.2, hchanged.2, h⟩

theorem Inv.bindSlot (I : a.Inv rebuild) (hquiet : ∀ k, a.rebuilding k = none)
    (hsparse : ¬ a.world.IsDense) {ref : ResidentChunk C}
    (href : a.world.resident key = some ref) :
    (a.bindSlot ref.slot key ref.generation).Inv rebuild := by
  have hslots : ∀ k, (a.bindSlot ref.slot key ref.generation).slots k =
      if k = ref.slot then (a.slots ref.slot).bind key ref.generation else a.slots k :=
    fun k => setSlot_slots ..
  refine ⟨fun k => ?_, fun hd => absurd hd hsparse, ?_, ?_, fun _ => hquiet⟩
  · rw [hslots]
    split_ifs
    · exact a.world.generation_le key ref href
    · exact I.generation_le k
  · intro key' r hb hbuilt
    obtain ⟨h1, h2, h3, h4⟩ := hb
    rw [hslots] at h2 h3 h4 hbuilt ⊢
    split_ifs at h2 h3 h4 hbuilt ⊢ with hs
    · -- the slot kept its product, so it kept its chunk
      obtain rfl : key = key' := h3
      obtain rfl : ref = r := Option.some.inj (href.symm.trans h1)
      obtain ⟨hbound, hkey, hgen, hbuilt'⟩ := bind_built hbuilt
      exact I.fresh key ref ⟨h1, hbound, hkey, hgen⟩ hbuilt'
    · exact I.fresh key' r ⟨h1, h2, h3, h4⟩ hbuilt
  · intro key' r o _ ho
    change a.rebuilding r.slot = some o at ho
    rw [hquiet] at ho
    cases ho

theorem Inv.bindResidents (I : a.Inv rebuild) (hquiet : ∀ k, a.rebuilding k = none)
    (hsparse : ¬ a.world.IsDense) (keys : List ℕ) :
    (keys.foldl bindResident a).Inv rebuild := by
  induction keys generalizing a with
  | nil => exact I
  | cons key keys ih =>
    rw [List.foldl_cons, bindResident]
    split
    · exact ih I hquiet hsparse
    · rename_i ref href
      exact ih (I.bindSlot hquiet hsparse href) hquiet hsparse

theorem bindSlot_bound {ref : ResidentChunk C} {k : ℕ}
    (href : a.world.resident key = some ref) (hr : a.world.resident k = some r)
    (h : k = key ∨ a.Bound k r) : (a.bindSlot ref.slot key ref.generation).Bound k r := by
  have hslots : (a.bindSlot ref.slot key ref.generation).slots r.slot =
      if r.slot = ref.slot then (a.slots ref.slot).bind key ref.generation else a.slots r.slot :=
    setSlot_slots ..
  by_cases hs : r.slot = ref.slot
  · obtain rfl := a.world.slot_inj k key r ref hr href hs
    obtain rfl : ref = r := Option.some.inj (href.symm.trans hr)
    exact ⟨hr, by rw [hslots, if_pos rfl]; rfl, by rw [hslots, if_pos rfl]; rfl,
      by rw [hslots, if_pos rfl]; rfl⟩
  · rcases h with rfl | h
    · exact absurd (congrArg ResidentChunk.slot (Option.some.inj (hr.symm.trans href))) hs
    · exact ⟨hr, by rw [hslots, if_neg hs, h.bound], by rw [hslots, if_neg hs, h.key_eq],
        by rw [hslots, if_neg hs, h.generation]⟩

/-- **Binding what is resident** changes the slots only, and binds all of it. -/
theorem bindResidents_spec (keys : List ℕ) (a : Adapter C P) :
    (keys.foldl bindResident a).world = a.world ∧
      (keys.foldl bindResident a).owned = a.owned ∧
      (keys.foldl bindResident a).rebuilding = a.rebuilding ∧
      ∀ k r, a.world.resident k = some r → k ∈ keys ∨ a.Bound k r →
        (keys.foldl bindResident a).Bound k r := by
  induction keys generalizing a with
  | nil => exact ⟨rfl, rfl, rfl, fun k r _ h => h.resolve_left (by simp)⟩
  | cons key keys ih =>
    obtain ⟨h1, h2, h3, h4⟩ := ih (bindResident a key)
    have hfields : (bindResident a key).world = a.world ∧
        (bindResident a key).owned = a.owned ∧
        (bindResident a key).rebuilding = a.rebuilding := by
      rw [bindResident]
      split <;> exact ⟨rfl, rfl, rfl⟩
    obtain ⟨hw, ho, hb⟩ := hfields
    refine ⟨h1.trans hw, h2.trans ho, h3.trans hb, fun k r hr h => ?_⟩
    refine h4 k r (by rw [hw, hr]) ?_
    have hbound : k = key ∨ a.Bound k r → (bindResident a key).Bound k r := by
      intro h
      rw [bindResident]
      split
      · rename_i hnone
        rcases h with rfl | h
        · rw [hnone] at hr
          cases hr
        · exact h
      · rename_i ref href
        exact bindSlot_bound href hr h
    rcases h with h | h
    · exact (List.mem_cons.1 h).elim (fun h => Or.inr (hbound (Or.inl h))) Or.inl
    · exact Or.inr (hbound (Or.inr h))

/-- Slots without chunks have no products. -/
theorem inv_unbound (hquiet : ∀ k, a.rebuilding k = none) (hsparse : ¬ a.world.IsDense)
    (hslots : ∀ s, (a.slots s).bound = false ∧ (a.slots s).residencyGeneration = 0) :
    a.Inv rebuild := by
  refine ⟨fun s => ?_, fun hd => absurd hd hsparse, ?_, ?_, fun _ => hquiet⟩
  · rw [(hslots s).2]
    exact Nat.zero_le _
  · intro key r hb _
    have := hb.bound
    rw [(hslots _).1] at this
    cases this
  · intro key r o _ ho
    rw [hquiet] at ho
    cases ho

theorem inv_init [Inhabited P] (world : ChunkStore C) (owned : BitVec 32) :
    (init world owned : Adapter C P).Inv rebuild := by
  rw [init]
  split_ifs with hd
  · refine ⟨fun _ => Nat.zero_le _, fun _ s => ⟨rfl, rfl, rfl⟩, ?_, ?_, fun _ _ => rfl⟩
    · intro key r _ hbuilt
      obtain ⟨h, -⟩ := bind_built hbuilt
      cases h
    · intro key r o _ ho
      cases ho
  · have I : Inv rebuild
        { world, owned, slots := fun _ => { product := default } : Adapter C P } :=
      inv_unbound (fun _ => rfl) hd fun _ => ⟨rfl, rfl⟩
    exact I.bindResidents (fun _ => rfl) hd _

theorem Inv.ensureResident [Inhabited C] (I : a.Inv rebuild) (hsparse : ¬ a.world.IsDense)
    (key : ℕ) : (a.ensureResident key).2.Inv rebuild := by
  rw [Adapter.ensureResident]
  split_ifs with h1 h2
  · exact I
  · exact I
  · have hquiet := I.quiet (by simpa using h2)
    have hlater : a.world.Later (a.world.ensureResident key) := ChunkStore.later_ensureResident
    have I' : Inv rebuild { a with world := a.world.ensureResident key } :=
      I.later hlater (fun _ h => h) fun _ o' ho' => ⟨o', ho', rfl, rfl, Or.inl rfl⟩
    simp only
    split
    · exact I'
    · rename_i ref href
      exact I'.bindSlot hquiet (fun hd => hsparse (hlater.residency.symm.trans hd)) href

theorem Inv.evict (I : a.Inv rebuild) (hsparse : ¬ a.world.IsDense) (key : ℕ) :
    (a.evict key).2.Inv rebuild := by
  rw [Adapter.evict]
  split_ifs with h1 h2
  · exact I
  · exact I
  · split
    · exact I
    rename_i ref href
    have hquiet := I.quiet (by simpa using h2)
    have hlater : a.world.Later (a.world.evict key) := ChunkStore.later_evict
    have I' : Inv rebuild { a with world := a.world.evict key } :=
      I.later hlater (fun _ h => h) fun _ o' ho' => ⟨o', ho', rfl, rfl, Or.inl rfl⟩
    have hslots : ∀ k, (a.setSlot ref.slot (a.slots ref.slot).unbind).slots k =
        if k = ref.slot then (a.slots ref.slot).unbind else a.slots k := fun k => setSlot_slots ..
    refine ⟨fun k => ?_, fun hd => absurd (hlater.residency.symm.trans hd) hsparse, ?_, ?_,
      fun _ => hquiet⟩
    · simp only [hslots]
      split_ifs
      · exact Nat.zero_le _
      · exact I'.generation_le k
    · intro key' r hb hbuilt
      obtain ⟨hb1, hb2, hb3, hb4⟩ := hb
      simp only [hslots] at hb2 hb3 hb4 hbuilt ⊢
      split_ifs at hb2 hb3 hb4 hbuilt ⊢ with hs
      · cases hbuilt
      · exact I'.fresh key' r ⟨hb1, hb2, hb3, hb4⟩ hbuilt
    · intro key' r o _ ho
      change a.rebuilding r.slot = some o at ho
      rw [hquiet] at ho
      cases ho

theorem Inv.reconcileResidency (I : a.Inv rebuild) (hsparse : ¬ a.world.IsDense) :
    a.reconcileResidency.2.Inv rebuild := by
  rw [Adapter.reconcileResidency]
  split_ifs with h1 h2
  · exact I
  · exact I
  · have hquiet := I.quiet (by simpa using h2)
    have I' : Inv rebuild { a with slots := fun s => (a.slots s).unbind } :=
      inv_unbound hquiet hsparse fun _ => ⟨rfl, rfl⟩
    exact I'.bindResidents hquiet hsparse _

/-- **Every step keeps the invariant.** -/
theorem Inv.step [Inhabited C] (I : a.Inv rebuild) (h : Step rebuild a a') : a'.Inv rebuild := by
  cases h with
  | world act => exact I.worldAct act
  | mark h => exact I.mark h
  | offer s =>
    refine (I.setDebt s false).congr rfl rfl rfl (fun _ => rfl) fun hready => ?_
    cases hready
  | refuse s => exact I.setDebt s true
  | drain =>
    refine I.congr rfl rfl rfl (fun _ => rfl) fun hready => ?_
    cases hready
  | skip _ h =>
    rcases startRun_done h with rfl | rfl
    · exact I
    · exact I.setDebt _ false
  | start hbusy _ hbound h => exact I.startRun hbusy hbound h
  | write s p => exact I.writeProduct s p
  | throws s => exact I.throwRebuild s
  | finish h => exact I.finishRun h
  | settle ready h => exact I.congr rfl rfl rfl (fun _ => rfl) fun _ => h
  | ensureResident hsparse key => exact I.ensureResident hsparse key
  | evict hsparse key => exact I.evict hsparse key
  | reconcile hsparse => exact I.reconcileResidency hsparse
  | release hready =>
    refine I.congr rfl rfl rfl (fun _ => rfl) fun h => ?_
    cases h

/-- An adapter over a world, after any steps. -/
def Reachable [Inhabited C] [Inhabited P] (rebuild : ℕ → C → P) (a : Adapter C P) : Prop :=
  ∃ world owned, Relation.ReflTransGen (Step rebuild) (init world owned) a

theorem Reachable.inv [Inhabited C] [Inhabited P] (h : Reachable rebuild a) : a.Inv rebuild := by
  obtain ⟨world, owned, hsteps⟩ := h
  induction hsteps with
  | refl => exact inv_init world owned
  | tail _ hstep ih => exact ih.step hstep

/-- **A current product is the rebuild of the present content** in the present residency, under
any backend. -/
theorem Reachable.product_current [Inhabited C] [Inhabited P] (h : Reachable rebuild a)
    (hcurrent : (a.product key).state = .current) :
    ∃ r, a.world.resident key = some r ∧
      (a.product key).value = some (rebuild key r.content) ∧
      (a.product key).token = ⟨key, r.dirty.contentVersion, r.generation⟩ :=
  h.inv.current hcurrent

end Adapter

end Tess
