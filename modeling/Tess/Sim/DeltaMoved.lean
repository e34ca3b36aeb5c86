import Tess.Sim.DeltaEntities
import Mathlib.Data.List.TakeWhile

/-!
# Collectors that were moved from

A collector that was moved from keeps its flags and loses its storage.  Its own flag forces its
next frames to be truncated, unless a baseline was pending at the move: then the first frame is
taken for that baseline, which resets the flag.

* `EntityDeltaCollector.Emptied` : a collector without storage and records;
* `EntityDeltaCollector.FrameFlags` : what its frames depend on;
* `Rescued` : the calls that keep the frames truncated although a baseline was pending;
* `moved_frames_truncated_iff` : **when every frame of a moved-from collector is truncated**;
* `moved_baseline_applies` : a moved-from collector may publish an empty frame that applies.
-/

namespace Tess

/-- A call of `collect_baseline`. -/
def CollectorOp.isBaseline : CollectorOp → Bool
  | .collectBaseline .. => true
  | _ => false

/-- The calls in front of the first `collect_baseline`. -/
def beforeBaseline (ops : List CollectorOp) : List CollectorOp :=
  ops.takeWhile fun op => !op.isBaseline

/-- A collector without storage drops a record at this call: at every record of an entity, and at
a collection that finds a dirty chunk. -/
def CollectorOp.drops : CollectorOp → Bool
  | .beginTick _ | .collectBaseline .. | .publish | .clear => false
  | .collectTileDeltas marks keys mask =>
    mask ≠ 0 && keys.any fun key => ((marks key).metaObserveDirty mask).mask ≠ 0
  | .recordMove .. | .recordTeleport .. | .recordSpawn .. | .recordDespawn .. | .recordPark ..
  | .recordPlace .. => true

/-- Up to the first clear, a record is dropped between every two frames, and before the first one
unless a record was dropped already. -/
def Rescued : Bool → List CollectorOp → Bool
  | _, [] => true
  | _, .clear :: _ => true
  | dropped, .publish :: ops => dropped && Rescued false ops
  | dropped, op :: ops => Rescued (dropped || op.drops) ops

namespace EntityDeltaCollector

variable {S : Shape} {c c' : EntityDeltaCollector}

/-! ### Collectors without storage -/

/-- **A collector without storage** and without records. -/
structure Emptied (c : EntityDeltaCollector) : Prop where
  /-- No room for chunk records, now and behind the next frame. -/
  chunkCapacity : c.base.pendingChunkCapacity = 0 ∧ c.base.publishedChunkCapacity = 0
  /-- No room for tile records. -/
  tileCapacity : c.base.pendingTileCapacity = 0 ∧ c.base.publishedTileCapacity = 0
  /-- No room for entity records. -/
  entityCapacity : c.pendingEntityCapacity = 0 ∧ c.publishedEntityCapacity = 0
  /-- No chunk records. -/
  chunks : c.base.pendingChunks = []
  /-- No tile records. -/
  tiles : c.base.pendingTiles = []
  /-- No entity records. -/
  entities : c.pendingEntities = []
  /-- No table. -/
  slotCount : c.slotCount = 0

theorem emptied_movedSource (c : EntityDeltaCollector) : c.movedSource.Emptied :=
  ⟨⟨rfl, rfl⟩, ⟨rfl, rfl⟩, ⟨rfl, rfl⟩, rfl, rfl, rfl, rfl⟩

/-- The flags that decide whether a frame is truncated. -/
@[ext]
structure FrameFlags where
  /-- `pending_truncated_`. -/
  truncated : Bool
  /-- `baseline_pending_`. -/
  baseline : Bool
  /-- `needs_baseline_`. -/
  needsBaseline : Bool
  /-- `moved_from_`. -/
  movedFrom : Bool
  deriving DecidableEq

/-- The flags of a collector. -/
def flags (c : EntityDeltaCollector) : FrameFlags :=
  ⟨c.base.pendingTruncated, c.base.baselinePending, c.base.needsBaseline, c.base.movedFrom⟩

/-- The flags behind a call on a collector without storage. -/
def FrameFlags.step (f : FrameFlags) : CollectorOp → FrameFlags
  | .publish =>
    ⟨false, false, f.needsBaseline && !f.baseline, f.movedFrom && !f.baseline⟩
  | .clear => ⟨false, false, true, f.movedFrom⟩
  | op => { f with truncated := f.truncated || op.drops }

/-- Whether the next frame is truncated. -/
def FrameFlags.frameTruncated (f : FrameFlags) : Bool :=
  f.truncated || ((f.needsBaseline || f.movedFrom) && !f.baseline)

theorem frame_truncated (c : EntityDeltaCollector) :
    c.frame.truncated = c.flags.frameTruncated := rfl

/-- A record was dropped, or not. -/
def truncateIf (d : DeltaCollector) (dropped : Bool) : DeltaCollector :=
  { d with pendingTruncated := d.pendingTruncated || dropped }

/-- Tile records find no room. -/
theorem appendTileRecords_full {d : DeltaCollector} (hcap : d.pendingTileCapacity = 0)
    (htiles : d.pendingTiles = []) (tiles : List TileDelta) :
    (d.appendTileRecords tiles).1 = d := by
  cases tiles with
  | nil => rfl
  | cons tile tiles => simp [DeltaCollector.appendTileRecords, hcap, htiles]

/-- A dirty chunk finds no room: it only sets the flag. -/
theorem collectChunk_full {s : DeltaState} {mask : BitVec 32} {key : ℕ}
    (hchunk : s.collector.pendingChunkCapacity = 0) (hchunks : s.collector.pendingChunks = [])
    (htile : s.collector.pendingTileCapacity = 0) (htiles : s.collector.pendingTiles = []) :
    s.collectChunkTileDeltas S mask key =
      ⟨s.marks, truncateIf s.collector (((s.marks key).metaObserveDirty mask).mask ≠ 0)⟩ := by
  have hobserved (observed : DirtyObservation) :
      (s.recordObserved S key observed).1 = s.collector := by
    unfold DeltaState.recordObserved
    dsimp only
    split_ifs
    · have hsame := appendTileRecords_full htile htiles
        (tileDeltas S observed.mask (clipDirtyBoundsToChunk S key observed.bounds))
      split
      next heq => simpa [heq] using hsame
      next heq => simpa [heq] using hsame
    · rfl
  have happend (record : TileChunkDelta) : s.collector.appendChunkRecord record =
      (truncateIf s.collector true, false) := by
    unfold DeltaCollector.appendChunkRecord truncateIf
    rw [if_pos (by rw [hchunks, hchunk]; rfl), Bool.or_true]
  unfold DeltaState.collectChunkTileDeltas
  dsimp only
  split_ifs with hmask
  · rw [hmask]
    simp [truncateIf]
  · rw [hobserved, happend, decide_eq_true hmask]

/-- A collection finds no room: it only sets the flag. -/
theorem collect_full {mask : BitVec 32} {keys : List ℕ} {s : DeltaState}
    (hchunk : s.collector.pendingChunkCapacity = 0) (hchunks : s.collector.pendingChunks = [])
    (htile : s.collector.pendingTileCapacity = 0) (htiles : s.collector.pendingTiles = []) :
    keys.foldl (fun s key => s.collectChunkTileDeltas S mask key) s =
      ⟨s.marks, truncateIf s.collector
        (keys.any fun key => ((s.marks key).metaObserveDirty mask).mask ≠ 0)⟩ := by
  induction keys generalizing s with
  | nil => simp [truncateIf]
  | cons key keys ih =>
    rw [List.foldl_cons, collectChunk_full hchunk hchunks htile htiles]
    refine (ih ?_ ?_ ?_ ?_).trans ?_
    · exact hchunk
    · exact hchunks
    · exact htile
    · exact htiles
    · simp [truncateIf, Bool.or_assoc]

/-- A record of an entity finds no room. -/
theorem appendWith_full (h : c.Emptied) (record : EntityDelta) (slot : ℕ → CoalesceSlot) :
    c.appendWith record slot = some c.noteTruncation := by
  unfold appendWith appendEntity
  rw [if_pos (by rw [h.entities, h.entityCapacity.1]; rfl)]

theorem recordMove_full (h : c.Emptied) (entity : EntityHandle) (fromCoord toCoord : Coord3) :
    c.recordMove entity fromCoord toCoord = some c.noteTruncation := by
  unfold recordMove findCoalesceSlot
  dsimp only
  rw [if_pos h.slotCount]
  split_ifs
  · exact appendWith_full h _ _
  · exact appendWith_full h _ _

theorem Emptied.noteTruncation (h : c.Emptied) : c.noteTruncation.Emptied :=
  ⟨h.chunkCapacity, h.tileCapacity, h.entityCapacity, h.chunks, h.tiles, h.entities, h.slotCount⟩

theorem flags_noteTruncation (c : EntityDeltaCollector) :
    c.noteTruncation.flags = { c.flags with truncated := c.flags.truncated || true } := by
  rw [Bool.or_true]
  rfl

theorem clearCoalesceSlots_full (h : c.Emptied) : c.clearCoalesceSlots = some c := by
  unfold clearCoalesceSlots
  rw [if_pos h.slotCount]

/-- Without entity records a collector publishes its tile records alone. -/
theorem publish_full (h : c.Emptied) :
    ∃ c', c.publish = some (c.frame, c') ∧ c'.Emptied ∧ c'.flags = c.flags.step .publish := by
  have hdrop : (if c.base.baselinePending then c.dropPendingEntities else some c) = some c := by
    split_ifs
    · unfold dropPendingEntities
      rw [clearCoalesceSlots_full h, Option.map_some, ← h.entities]
    · rfl
  unfold publish
  rw [hdrop, Option.bind_some, clearCoalesceSlots_full h]
  refine ⟨_, rfl, ?_, rfl⟩
  exact ⟨h.chunkCapacity.symm, h.tileCapacity.symm, h.entityCapacity.symm, rfl, rfl, rfl,
    h.slotCount⟩

/-- **One call** on a collector without storage. -/
theorem step_full (h : c.Emptied) {op : CollectorOp} (hop : op.isBaseline = false) :
    ∃ c', c'.Emptied ∧ c'.flags = c.flags.step op ∧
      c.step S op = some (if op matches .publish then some c.frame else none, c') := by
  cases op with
  | beginTick tick =>
    refine ⟨c.beginTick tick, ?_, ?_, rfl⟩
    · exact ⟨h.chunkCapacity, h.tileCapacity, h.entityCapacity, h.chunks, h.tiles, h.entities,
        h.slotCount⟩
    · simp [FrameFlags.step, CollectorOp.drops, flags, beginTick]
  | recordMove entity fromCoord toCoord =>
    refine ⟨c.noteTruncation, h.noteTruncation, flags_noteTruncation c, ?_⟩
    simp only [EntityDeltaCollector.step, recordMove_full h, Option.map_some]
    rfl
  | recordTeleport entity fromCoord toCoord =>
    refine ⟨c.noteTruncation, h.noteTruncation, flags_noteTruncation c, ?_⟩
    simp only [EntityDeltaCollector.step, recordTeleport, recordBarrier, appendWith_full h,
      Option.map_some]
    rfl
  | recordSpawn entity coord =>
    refine ⟨c.noteTruncation, h.noteTruncation, flags_noteTruncation c, ?_⟩
    simp only [EntityDeltaCollector.step, recordSpawn, recordBarrier, appendWith_full h,
      Option.map_some]
    rfl
  | recordDespawn entity coord =>
    refine ⟨c.noteTruncation, h.noteTruncation, flags_noteTruncation c, ?_⟩
    simp only [EntityDeltaCollector.step, recordDespawn, recordBarrier, appendWith_full h,
      Option.map_some]
    rfl
  | recordPark entity coord =>
    refine ⟨c.noteTruncation, h.noteTruncation, flags_noteTruncation c, ?_⟩
    simp only [EntityDeltaCollector.step, recordPark, recordBarrier, appendWith_full h,
      Option.map_some]
    rfl
  | recordPlace entity coord =>
    refine ⟨c.noteTruncation, h.noteTruncation, flags_noteTruncation c, ?_⟩
    simp only [EntityDeltaCollector.step, recordPlace, recordBarrier, appendWith_full h,
      Option.map_some]
    rfl
  | collectTileDeltas marks keys mask =>
    refine ⟨c.collectTileDeltas S marks keys mask, ?_, ?_, rfl⟩
    · unfold collectTileDeltas
      split_ifs
      · exact h
      · dsimp only
        rw [collect_full h.chunkCapacity.1 h.chunks h.tileCapacity.1 h.tiles]
        exact ⟨h.chunkCapacity, h.tileCapacity, h.entityCapacity, h.chunks, h.tiles, h.entities,
          h.slotCount⟩
    · unfold collectTileDeltas
      split_ifs with hmask
      · simp [FrameFlags.step, CollectorOp.drops, hmask, flags]
      · dsimp only
        rw [collect_full h.chunkCapacity.1 h.chunks h.tileCapacity.1 h.tiles]
        have hmask' : mask ≠ 0#32 := hmask
        simp [FrameFlags.step, CollectorOp.drops, hmask', flags, truncateIf,
          DeltaCollector.noteCollectedMask]
  | collectBaseline marks keys mask => cases hop
  | publish =>
    obtain ⟨c', hpublish, hempty', hflags'⟩ := publish_full h
    refine ⟨c', hempty', hflags', ?_⟩
    simp only [EntityDeltaCollector.step, hpublish, Option.map_some]
    rfl
  | clear =>
    refine ⟨{ c with
      base := c.base.clear
      pendingEntities := []
      pendingFirstTick := 0
      pendingLastTick := 0
      pendingTicks := 0 }, ?_, rfl, ?_⟩
    · exact ⟨h.chunkCapacity, h.tileCapacity, h.entityCapacity, rfl, rfl, rfl, h.slotCount⟩
    · simp only [EntityDeltaCollector.step, clear, clearCoalesceSlots_full h, Option.map_some]
      rfl

/-! ### Frames up to the first baseline -/

theorem frames_nil : c.frames S [] = some [] := rfl

theorem frames_cons_of_step {op : CollectorOp} {ops : List CollectorOp}
    {frame : Option EntityDeltaFrame} (hstep : c.step S op = some (frame, c')) :
    c.frames S (op :: ops) = (c'.frames S ops).map fun l => frame.toList ++ l := by
  rw [frames, hstep, Option.bind_some]

/-- Without storage every sequence of calls runs through. -/
theorem exists_frames_full (h : c.Emptied) {ops : List CollectorOp}
    (hops : ∀ op ∈ ops, op.isBaseline = false) : ∃ frames, c.frames S ops = some frames := by
  induction ops generalizing c with
  | nil => exact ⟨[], rfl⟩
  | cons op ops ih =>
    obtain ⟨c', hempty, -, hstep⟩ := step_full (S := S) h (hops op List.mem_cons_self)
    obtain ⟨frames, hframes⟩ := ih hempty fun op hop => hops op (List.mem_cons_of_mem _ hop)
    exact ⟨_, by rw [frames_cons_of_step hstep, hframes, Option.map_some]⟩

/-- The flags that truncate every frame up to a baseline. -/
def FrameFlags.Poisoned (f : FrameFlags) : Prop :=
  f.baseline = false ∧ (f.needsBaseline || f.movedFrom) = true

theorem FrameFlags.Poisoned.step {f : FrameFlags} (h : f.Poisoned) (op : CollectorOp) :
    (f.step op).Poisoned := by
  obtain ⟨hb, hp⟩ := h
  cases op with
  | publish => exact ⟨rfl, by simpa [FrameFlags.step, hb] using hp⟩
  | clear => exact ⟨rfl, rfl⟩
  | _ => exact ⟨hb, hp⟩

theorem FrameFlags.Poisoned.frameTruncated {f : FrameFlags} (h : f.Poisoned) :
    f.frameTruncated = true := by
  obtain ⟨hb, hp⟩ := h
  simp [FrameFlags.frameTruncated, hb, hp]

/-- **A poisoned collector** publishes truncated frames up to a baseline. -/
theorem frames_poisoned {frames : List EntityDeltaFrame} {ops : List CollectorOp} (h : c.Emptied)
    (hflags : c.flags.Poisoned) (hops : ∀ op ∈ ops, op.isBaseline = false)
    (hframes : c.frames S ops = some frames) : ∀ frame ∈ frames, frame.truncated = true := by
  induction ops generalizing c frames with
  | nil =>
    rw [frames_nil, Option.some.injEq] at hframes
    subst hframes
    simp
  | cons op ops ih =>
    obtain ⟨c', hempty, hf, hstep⟩ := step_full (S := S) h (hops op List.mem_cons_self)
    rw [frames_cons_of_step hstep] at hframes
    obtain ⟨rest, hrest, rfl⟩ := Option.map_eq_some_iff.1 hframes
    have hlater := ih hempty (hf ▸ hflags.step op)
      (fun op hop => hops op (List.mem_cons_of_mem _ hop)) hrest
    intro frame hmem
    rcases List.mem_append.1 hmem with hnow | hmem
    · split at hnow
      · obtain rfl : frame = c.frame := by simpa using hnow
        rw [frame_truncated]
        exact hflags.frameTruncated
      · simp at hnow
    · exact hlater frame hmem

/-- The flags that leave a frame without a dropped record untruncated. -/
def FrameFlags.Unpoisoned (f : FrameFlags) : Prop :=
  f.baseline = true ∨ (f.needsBaseline || f.movedFrom) = false

theorem FrameFlags.Unpoisoned.frameTruncated {f : FrameFlags} (h : f.Unpoisoned) :
    f.frameTruncated = f.truncated := by
  rcases h with h | h <;> simp [FrameFlags.frameTruncated, h]

theorem FrameFlags.Unpoisoned.publish {f : FrameFlags} (h : f.Unpoisoned) :
    (f.step .publish).Unpoisoned := by
  refine .inr ?_
  rcases h with h | h
  · simp [FrameFlags.step, h]
  · rw [Bool.or_eq_false_iff] at h
    simp [FrameFlags.step, h.1, h.2]

/-- **Without the poison** only dropped records and a clear truncate the frames. -/
theorem frames_unpoisoned {frames : List EntityDeltaFrame} {ops : List CollectorOp}
    (h : c.Emptied) (hflags : c.flags.Unpoisoned) (hops : ∀ op ∈ ops, op.isBaseline = false)
    (hframes : c.frames S ops = some frames) :
    (∀ frame ∈ frames, frame.truncated = true) ↔ Rescued c.flags.truncated ops = true := by
  induction ops generalizing c frames with
  | nil =>
    rw [frames_nil, Option.some.injEq] at hframes
    subst hframes
    simp [Rescued]
  | cons op ops ih =>
    obtain ⟨c', hempty, hf, hstep⟩ := step_full (S := S) h (hops op List.mem_cons_self)
    rw [frames_cons_of_step hstep] at hframes
    obtain ⟨rest, hrest, rfl⟩ := Option.map_eq_some_iff.1 hframes
    have hops' : ∀ op ∈ ops, op.isBaseline = false := fun op hop =>
      hops op (List.mem_cons_of_mem _ hop)
    -- a call that publishes nothing and keeps the other flags
    have hplain (hkeep : c'.flags = { c.flags with truncated := c.flags.truncated || op.drops }) :
        (∀ frame ∈ rest, frame.truncated = true) ↔
          Rescued (c.flags.truncated || op.drops) ops = true := by
      have hun : c'.flags.Unpoisoned := by
        rw [hkeep]
        exact hflags
      rw [ih hempty hun hops' hrest, hkeep]
    cases op with
    | publish =>
      have hun : c'.flags.Unpoisoned := hf ▸ hflags.publish
      have hlater := ih hempty hun hops' hrest
      have hclean : c'.flags.truncated = false := by
        rw [hf]
        rfl
      rw [hclean] at hlater
      have hnow : c.frame.truncated = c.flags.truncated :=
        (frame_truncated c).trans hflags.frameTruncated
      simp only [Rescued, Bool.and_eq_true]
      rw [← hlater, ← hnow]
      simp
    | clear =>
      have hpoison : c'.flags.Poisoned := by
        rw [hf]
        exact ⟨rfl, rfl⟩
      simpa [Rescued] using frames_poisoned hempty hpoison hops' hrest
    | beginTick tick => simpa [Rescued] using hplain hf
    | recordMove entity fromCoord toCoord => simpa [Rescued] using hplain hf
    | recordTeleport entity fromCoord toCoord => simpa [Rescued] using hplain hf
    | recordSpawn entity coord => simpa [Rescued] using hplain hf
    | recordDespawn entity coord => simpa [Rescued] using hplain hf
    | recordPark entity coord => simpa [Rescued] using hplain hf
    | recordPlace entity coord => simpa [Rescued] using hplain hf
    | collectTileDeltas marks keys mask => simpa [Rescued] using hplain hf
    | collectBaseline marks keys mask =>
      exact absurd (hops _ List.mem_cons_self) (by simp [CollectorOp.isBaseline])

end EntityDeltaCollector

open EntityDeltaCollector

theorem isBaseline_of_mem_beforeBaseline {ops : List CollectorOp} {op : CollectorOp}
    (h : op ∈ beforeBaseline ops) : op.isBaseline = false := by
  simpa using List.mem_takeWhile_imp h

/-- A truncated frame never applies. -/
theorem not_applicable {frame : DeltaFrame} (h : frame.truncated = true) (consumer : ℕ) :
    deltaFrameApplicable frame consumer = false := by
  unfold deltaFrameApplicable
  rw [if_pos h]

/-- **When the frames of a moved-from collector are truncated**: if no baseline was pending at the
move, or if up to the first clear every frame has a dropped record of its own. -/
theorem moved_frames_truncated_iff (S : Shape) (c : EntityDeltaCollector)
    (ops : List CollectorOp) :
    ∃ frames, c.movedSource.frames S (beforeBaseline ops) = some frames ∧
      ((∀ frame ∈ frames, frame.truncated = true ∧
          ∀ consumer, deltaFrameApplicable frame.toDeltaFrame consumer = false) ↔
        c.base.baselinePending = false ∨
          Rescued c.base.pendingTruncated (beforeBaseline ops) = true) := by
  have hempty := emptied_movedSource c
  have hops : ∀ op ∈ beforeBaseline ops, op.isBaseline = false := fun op =>
    isBaseline_of_mem_beforeBaseline
  obtain ⟨frames, hframes⟩ := exists_frames_full (S := S) hempty hops
  refine ⟨frames, hframes, ?_⟩
  have hdrop : (∀ frame ∈ frames, frame.truncated = true ∧
      ∀ consumer, deltaFrameApplicable frame.toDeltaFrame consumer = false) ↔
      ∀ frame ∈ frames, frame.truncated = true :=
    ⟨fun h frame hmem => (h frame hmem).1, fun h frame hmem =>
      ⟨h frame hmem, not_applicable (h frame hmem)⟩⟩
  rw [hdrop]
  cases hbaseline : c.base.baselinePending with
  | false =>
    have hpoison : c.movedSource.flags.Poisoned := ⟨hbaseline, by simp [flags, movedSource]⟩
    simpa using frames_poisoned hempty hpoison hops hframes
  | true =>
    have hun : c.movedSource.flags.Unpoisoned := .inl hbaseline
    have hrescued := frames_unpoisoned hempty hun hops hframes
    have hflag : c.movedSource.flags.truncated = c.base.pendingTruncated := rfl
    rw [hflag] at hrescued
    simpa using hrescued

/-- **An empty frame that applies**: a collector with a pending baseline is moved from, and its
next frame is an untruncated baseline without a record. -/
theorem moved_baseline_applies :
    ∃ (c : EntityDeltaCollector) (frame : EntityDeltaFrame),
      c = (({} : EntityDeltaCollector).reserve id 2 1 1).collectBaseline twoCells
        (fun _ => {}) [0, 1] 1 ∧
      c.base.pendingChunks.length = 2 ∧
      c.movedSource.frames twoCells (beforeBaseline [.publish]) = some [frame] ∧
      frame.truncated = false ∧ frame.chunks = [] ∧
      ∀ consumer, deltaFrameApplicable frame.toDeltaFrame consumer = true := by
  refine ⟨_, _, rfl, rfl, rfl, rfl, rfl, fun consumer => rfl⟩

end Tess
