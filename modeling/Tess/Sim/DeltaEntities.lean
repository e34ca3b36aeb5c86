import Tess.Sim.DeltaFrame
import Tess.Storage.ChunkDirectory

/-!
# Entity records of delta frames

The whole collector: beside the records of tiles it keeps records of entities.  Consecutive moves
of one entity fold into one record; an open-addressed table tells for every entity of the pending
frame which record may take its next move.

* `EntityDeltaCollector` : the collector with its entity records and the table;
* `recordMove`, `recordBarrier`, `publish`, `clear`, `reserve`, `movedSource` : the operations, none
  when a probe loop of the table would not end;
* `CollectorOp`, `EntityDeltaCollector.step` : one call, with the frame that it publishes.
-/

namespace Tess

open Probing

/-- `EntityHandle`. -/
abbrev EntityHandle := BitVec 64

/-- `kNullEntityHandle`. -/
def kNullEntityHandle : EntityHandle := 0xFFFFFFFFFFFFFFFF

/-- `EntityDeltaKind`. -/
inductive EntityDeltaKind
  | moved
  | teleported
  | spawned
  | despawned
  | parked
  | placed
  deriving DecidableEq, Repr

/-- `EntityDelta`. -/
structure EntityDelta where
  /-- The entity. -/
  entity : EntityHandle
  /-- What happened to it. -/
  kind : EntityDeltaKind
  /-- `from`. -/
  fromCoord : Coord3
  /-- `to`. -/
  toCoord : Coord3
  /-- Tick of the last commit. -/
  lastTick : BitVec 64
  deriving DecidableEq

/-- What a slot of the table says about its entity. -/
inductive CoalesceSlot
  /-- `kBarrier`: its next move starts a record. -/
  | barrier
  /-- The record that may take its next move. -/
  | record (index : ℕ)
  deriving DecidableEq, Repr

/-- A published frame with its entity records. -/
structure EntityDeltaFrame extends DeltaFrame where
  /-- First tick of the frame. -/
  firstTick : BitVec 64
  /-- Last tick of the frame. -/
  lastTick : BitVec 64
  /-- Number of ticks. -/
  ticks : BitVec 32
  /-- Entity records. -/
  entities : List EntityDelta

/-- `delta_frame_applicable`. -/
def deltaFrameApplicable (frame : DeltaFrame) (consumer : ℕ) : Bool :=
  if frame.truncated then false
  else if frame.baseline then true
  else consumer ≠ 0 && consumer = frame.fromVersion

/-- The whole `DeltaCollector`. -/
structure EntityDeltaCollector where
  /-- Tile records, flags and version. -/
  base : DeltaCollector := {}
  /-- Moves of one entity fold. -/
  coalesceMoves : Bool := true
  /-- Capacity of the pending entity records. -/
  pendingEntityCapacity : ℕ := 0
  /-- Capacity of the published entity records. -/
  publishedEntityCapacity : ℕ := 0
  /-- Pending entity records. -/
  pendingEntities : List EntityDelta := []
  /-- Length of the table. -/
  slotCount : ℕ := 0
  /-- Slots of the table; a slot with the null entity is free. -/
  slots : ℕ → Option (EntityHandle × CoalesceSlot) := fun _ => none
  /-- The tick of records. -/
  currentTick : BitVec 64 := 0
  /-- First tick of the pending frame. -/
  pendingFirstTick : BitVec 64 := 0
  /-- Last tick of the pending frame. -/
  pendingLastTick : BitVec 64 := 0
  /-- Ticks of the pending frame. -/
  pendingTicks : BitVec 32 := 0

namespace EntityDeltaCollector

variable (c : EntityDeltaCollector)

/-! ### The table -/

/-- `mix`: the mixer that the chunk directory has too. -/
def mix (value : BitVec 64) : BitVec 64 := ChunkDirectory.mix value

/-- `slot_mask`. -/
def slotMask : ℕ := c.slotCount - 1

/-- The slot at which the probes for an entity start. -/
def home (entity : EntityHandle) : ℕ := (mix entity).toNat &&& c.slotMask

/-- The slot that a probe loop looks at next. -/
def probe (index : ℕ) : ℕ := (index + 1) &&& c.slotMask

/-- `find_coalesce_slot`; the inner value is none for a null pointer. -/
def findCoalesceSlot (entity : EntityHandle) : Option (Option CoalesceSlot) :=
  if c.slotCount = 0 then some none
  else (scan c.probe (settles c.slots entity) c.slotCount (c.home entity)).map fun index =>
    (c.slots index).map Prod.snd

/-- `upsert_coalesce_slot`. -/
def upsertCoalesceSlot (entity : EntityHandle) (slot : CoalesceSlot) :
    Option EntityDeltaCollector :=
  if c.slotCount = 0 then some c
  else (scan c.probe (settles c.slots entity) c.slotCount (c.home entity)).map fun index =>
    -- a slot of the null entity counts as free
    let value := if entity = kNullEntityHandle then none else some (entity, slot)
    { c with slots := Function.update c.slots index value }

/-- `in_gap`: the home slot lies behind the hole, up to the candidate. -/
def inGap (hole ideal next : ℕ) : Bool :=
  if next > hole then ideal > hole && ideal ≤ next else ideal > hole || ideal ≤ next

/-- The test and the library's agree except at the hole. -/
theorem inGap_eq {lo pos hi : ℕ} (hne : hi ≠ lo) : inGap lo pos hi = inCyclicRange lo pos hi := by
  unfold inGap inCyclicRange
  by_cases hlt : lo < hi
  · rw [if_pos hlt, if_pos hlt.le]
  · rw [if_neg hlt, if_neg (by omega)]

/-- The loop of `erase_coalesce_slot` that shifts slots back into the hole. -/
def closeGap (step : ℕ → ℕ) (home : EntityHandle → ℕ) :
    ℕ → (ℕ → Option (EntityHandle × CoalesceSlot)) → ℕ → ℕ →
      Option (ℕ → Option (EntityHandle × CoalesceSlot))
  | 0, _, _, _ => none
  | fuel + 1, slots, hole, next =>
    match slots (step next) with
    | none => some (Function.update slots hole none)
    | some (entity, slot) =>
      if inGap hole (home entity) (step next) then closeGap step home fuel slots hole (step next)
      else
        closeGap step home fuel (Function.update slots hole (some (entity, slot))) (step next)
          (step next)

/-- `erase_coalesce_slot`. -/
def eraseCoalesceSlot (entity : EntityHandle) : Option EntityDeltaCollector :=
  match scan c.probe (settles c.slots entity) c.slotCount (c.home entity) with
  | none => none
  | some index =>
    if c.slots index = none then some c
    else (closeGap c.probe c.home c.slotCount c.slots index index).map fun slots =>
      { c with slots := slots }

/-- The loop of `clear_coalesce_slots`. -/
def eraseCoalesceSlots : List EntityDelta → EntityDeltaCollector → Option EntityDeltaCollector
  | [], c => some c
  | record :: records, c => (c.eraseCoalesceSlot record.entity).bind (eraseCoalesceSlots records)

/-- `clear_coalesce_slots`. -/
def clearCoalesceSlots : Option EntityDeltaCollector :=
  if c.slotCount = 0 then some c else eraseCoalesceSlots c.pendingEntities c

/-! ### Recording -/

/-- `note_truncation`. -/
def noteTruncation : EntityDeltaCollector :=
  { c with base := { c.base with pendingTruncated := true } }

/-- `append_entity`; none for `kDropped`. -/
def appendEntity (record : EntityDelta) : EntityDeltaCollector × Option ℕ :=
  if c.pendingEntities.length = c.pendingEntityCapacity then (c.noteTruncation, none)
  else ({ c with pendingEntities := c.pendingEntities ++ [record] }, some c.pendingEntities.length)

/-- A new record, with what the table says about its entity from now on. -/
def appendWith (record : EntityDelta) (slot : ℕ → CoalesceSlot) : Option EntityDeltaCollector :=
  match c.appendEntity record with
  | (c, none) => some c
  | (c, some index) =>
    if c.coalesceMoves then c.upsertCoalesceSlot record.entity (slot index) else some c

/-- `record_move`. -/
def recordMove (entity : EntityHandle) (fromCoord toCoord : Coord3) :
    Option EntityDeltaCollector :=
  let record : EntityDelta := ⟨entity, .moved, fromCoord, toCoord, c.currentTick⟩
  if c.coalesceMoves then
    match c.findCoalesceSlot entity with
    | none => none
    | some (some (.record index)) =>
      match c.pendingEntities[index]? with
      | none => none
      | some last =>
        if last.toCoord = fromCoord then
          let last := { last with toCoord := toCoord, lastTick := c.currentTick }
          some { c with pendingEntities := c.pendingEntities.set index last }
        else c.appendWith record .record
    | some _ => c.appendWith record .record
  else c.appendWith record .record

/-- `record_barrier`. -/
def recordBarrier (record : EntityDelta) : Option EntityDeltaCollector :=
  c.appendWith record fun _ => .barrier

/-- `record_teleport`. -/
def recordTeleport (entity : EntityHandle) (fromCoord toCoord : Coord3) :
    Option EntityDeltaCollector :=
  c.recordBarrier ⟨entity, .teleported, fromCoord, toCoord, c.currentTick⟩

/-- `record_spawn`. -/
def recordSpawn (entity : EntityHandle) (coord : Coord3) : Option EntityDeltaCollector :=
  c.recordBarrier ⟨entity, .spawned, coord, coord, c.currentTick⟩

/-- `record_despawn`. -/
def recordDespawn (entity : EntityHandle) (coord : Coord3) : Option EntityDeltaCollector :=
  c.recordBarrier ⟨entity, .despawned, coord, coord, c.currentTick⟩

/-- `record_park`. -/
def recordPark (entity : EntityHandle) (coord : Coord3) : Option EntityDeltaCollector :=
  c.recordBarrier ⟨entity, .parked, coord, coord, c.currentTick⟩

/-- `record_place`. -/
def recordPlace (entity : EntityHandle) (coord : Coord3) : Option EntityDeltaCollector :=
  c.recordBarrier ⟨entity, .placed, coord, coord, c.currentTick⟩

/-- `begin_tick`. -/
def beginTick (tick : BitVec 64) : EntityDeltaCollector :=
  { c with
    currentTick := tick
    pendingFirstTick := if c.pendingTicks = 0 then tick else c.pendingFirstTick
    pendingLastTick := tick
    pendingTicks := c.pendingTicks + 1 }

/-! ### Tile records -/

/-- `collect_tile_deltas` over the chunks of a world: all of a dense one, the resident ones of a
sparse one. -/
def collectTileDeltas (S : Shape) (marks : ℕ → ChunkDirty) (keys : List ℕ) (mask : BitVec 32) :
    EntityDeltaCollector :=
  if mask = 0 then c
  else
    let start : DeltaState := ⟨marks, c.base.noteCollectedMask mask⟩
    let collected := keys.foldl (fun s key => s.collectChunkTileDeltas S mask key) start
    { c with base := collected.collector }

/-- `collect_baseline` over the chunks of a world. -/
def collectBaseline (S : Shape) (marks : ℕ → ChunkDirty) (keys : List ℕ) (mask : BitVec 32) :
    EntityDeltaCollector :=
  let start : DeltaState := ⟨marks, (c.base.noteCollectedMask mask).dropPendingTileState⟩
  let collected := keys.foldl (fun s key => s.emitBaseline S mask key) start
  { c with base := { collected.collector with baselinePending := true } }

/-! ### Frames -/

/-- `drop_pending_entities`. -/
def dropPendingEntities : Option EntityDeltaCollector :=
  c.clearCoalesceSlots.map fun c => { c with pendingEntities := [] }

/-- The header and the records that `publish` returns. -/
def frame : EntityDeltaFrame :=
  { c.base.frame with
    -- entity records advance the version as tile records do
    toVersion :=
      if c.pendingEntities ≠ [] then c.base.version + 1 else c.base.frame.toVersion
    firstTick := c.pendingFirstTick
    lastTick := c.pendingLastTick
    ticks := c.pendingTicks
    entities := c.pendingEntities }

/-- `publish`, with the frame. -/
def publish : Option (EntityDeltaFrame × EntityDeltaCollector) :=
  (if c.base.baselinePending then c.dropPendingEntities else some c).bind fun c =>
    c.clearCoalesceSlots.map fun cleared =>
      (c.frame,
        { cleared with
          base := { c.base.publish with version := c.frame.toVersion }
          pendingEntityCapacity := c.publishedEntityCapacity
          publishedEntityCapacity := c.pendingEntityCapacity
          pendingEntities := []
          pendingFirstTick := 0
          pendingLastTick := 0
          pendingTicks := 0 })

/-- `clear`. -/
def clear : Option EntityDeltaCollector :=
  c.clearCoalesceSlots.map fun cleared =>
    { cleared with
      base := c.base.clear
      pendingEntities := []
      pendingFirstTick := 0
      pendingLastTick := 0
      pendingTicks := 0 }

/-- The capacity of a vector behind `reserve`; `grow` tells what an allocation for some elements
leaves. -/
def reserveCapacity (grow : ℕ → ℕ) (capacity wanted : ℕ) : ℕ :=
  if wanted ≤ capacity then capacity else grow wanted

/-- `reserve`; the table is sized from the capacities that came about. -/
def reserve (grow : ℕ → ℕ) (chunkCapacity tileCapacity entityCapacity : ℕ) :
    EntityDeltaCollector :=
  let pendingEntityCapacity := reserveCapacity grow c.pendingEntityCapacity entityCapacity
  let publishedEntityCapacity := reserveCapacity grow c.publishedEntityCapacity entityCapacity
  let entitySlots := max pendingEntityCapacity publishedEntityCapacity
  let slotCount := ChunkDirectory.growTable (entitySlots * 2) (entitySlots * 2) 8
  { c with
    base := { c.base with
      pendingChunkCapacity := reserveCapacity grow c.base.pendingChunkCapacity chunkCapacity
      publishedChunkCapacity := reserveCapacity grow c.base.publishedChunkCapacity chunkCapacity
      pendingTileCapacity := reserveCapacity grow c.base.pendingTileCapacity tileCapacity
      publishedTileCapacity := reserveCapacity grow c.base.publishedTileCapacity tileCapacity }
    pendingEntityCapacity := pendingEntityCapacity
    publishedEntityCapacity := publishedEntityCapacity
    slotCount := if slotCount > c.slotCount then slotCount else c.slotCount
    slots := if slotCount > c.slotCount then fun _ => none else c.slots }

/-- The source of a move, by construction or by assignment: its vectors are empty and without
storage, its flag is set, and everything else is what it was. -/
def movedSource : EntityDeltaCollector :=
  { c with
    base := { c.base with
      pendingChunkCapacity := 0
      publishedChunkCapacity := 0
      pendingTileCapacity := 0
      publishedTileCapacity := 0
      pendingChunks := []
      pendingTiles := []
      movedFrom := true }
    pendingEntityCapacity := 0
    publishedEntityCapacity := 0
    pendingEntities := []
    slotCount := 0
    slots := fun _ => none }

end EntityDeltaCollector

/-! ### Calls -/

/-- The calls on a collector. -/
inductive CollectorOp
  | beginTick (tick : BitVec 64)
  | recordMove (entity : EntityHandle) (fromCoord toCoord : Coord3)
  | recordTeleport (entity : EntityHandle) (fromCoord toCoord : Coord3)
  | recordSpawn (entity : EntityHandle) (coord : Coord3)
  | recordDespawn (entity : EntityHandle) (coord : Coord3)
  | recordPark (entity : EntityHandle) (coord : Coord3)
  | recordPlace (entity : EntityHandle) (coord : Coord3)
  /-- The marks of the world are those at the call. -/
  | collectTileDeltas (marks : ℕ → ChunkDirty) (keys : List ℕ) (mask : BitVec 32)
  /-- The marks of the world are those at the call. -/
  | collectBaseline (marks : ℕ → ChunkDirty) (keys : List ℕ) (mask : BitVec 32)
  | publish
  | clear

/-- The entity record that a call asks for, before any folding. -/
def CollectorOp.delta (tick : BitVec 64) : CollectorOp → Option EntityDelta
  | .recordMove entity fromCoord toCoord => some ⟨entity, .moved, fromCoord, toCoord, tick⟩
  | .recordTeleport entity fromCoord toCoord =>
    some ⟨entity, .teleported, fromCoord, toCoord, tick⟩
  | .recordSpawn entity coord => some ⟨entity, .spawned, coord, coord, tick⟩
  | .recordDespawn entity coord => some ⟨entity, .despawned, coord, coord, tick⟩
  | .recordPark entity coord => some ⟨entity, .parked, coord, coord, tick⟩
  | .recordPlace entity coord => some ⟨entity, .placed, coord, coord, tick⟩
  | _ => none

namespace EntityDeltaCollector

/-- One call, with the frame that it publishes; none when a probe loop would not end. -/
def step (S : Shape) (c : EntityDeltaCollector) :
    CollectorOp → Option (Option EntityDeltaFrame × EntityDeltaCollector)
  | .beginTick tick => some (none, c.beginTick tick)
  | .recordMove entity fromCoord toCoord =>
    (c.recordMove entity fromCoord toCoord).map fun c => (none, c)
  | .recordTeleport entity fromCoord toCoord =>
    (c.recordTeleport entity fromCoord toCoord).map fun c => (none, c)
  | .recordSpawn entity coord => (c.recordSpawn entity coord).map fun c => (none, c)
  | .recordDespawn entity coord => (c.recordDespawn entity coord).map fun c => (none, c)
  | .recordPark entity coord => (c.recordPark entity coord).map fun c => (none, c)
  | .recordPlace entity coord => (c.recordPlace entity coord).map fun c => (none, c)
  | .collectTileDeltas marks keys mask => some (none, c.collectTileDeltas S marks keys mask)
  | .collectBaseline marks keys mask => some (none, c.collectBaseline S marks keys mask)
  | .publish => c.publish.map fun r => (some r.1, r.2)
  | .clear => c.clear.map fun c => (none, c)

/-- A sequence of calls with the frames that it publishes. -/
def frames (S : Shape) (c : EntityDeltaCollector) :
    List CollectorOp → Option (List EntityDeltaFrame)
  | [] => some []
  | op :: ops => (c.step S op).bind fun r => (r.2.frames S ops).map fun l => r.1.toList ++ l

end EntityDeltaCollector

end Tess
