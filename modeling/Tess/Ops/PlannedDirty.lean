import Tess.Storage.Dirty
import Mathlib.Algebra.BigOperators.Group.List.Basic
import Mathlib.Algebra.Group.Defs
import Mathlib.Order.WithBot

/-!
# Deferred dirty records

Planned operations do not mark chunks dirty as they run: they record what they touch, and a later
merge coalesces the records of each chunk into one mark.

* `mergePlannedDirty`, `mergePartitions`, `mergePhaseScratch`, `mergeAfterException` and
  `mergePhase` : the overloads of `merge_planned_dirty` and what automatic execution makes of them;
* `Marks` : mask and box of a set of marks, a commutative monoid under their union;
* `Merges` : **a merge is as good as the marks it defers**, in any order, and advances the version
  of each chunk once.
-/

namespace Tess

/-! ### Records and merges -/

/-- The shape identity and chunk count that records were validated for. -/
structure PlannedWorldStamp where
  /-- Identity of the shape. -/
  shapeIdentity : ℕ
  /-- Number of chunks. -/
  chunkLimit : ℕ
  deriving DecidableEq

/-- A deferred mark; the empty mask is never recorded. -/
structure PlannedDirtyRecord where
  /-- The chunk. -/
  chunk : ℕ
  /-- Dirty bits. -/
  dirtyMask : BitVec 32
  /-- Box of the mark. -/
  bounds : Box3
  /-- Empty masks are ignored. -/
  mask_ne : dirtyMask ≠ 0

/-- Outcome of a merge. -/
inductive PlannedDirtyMergeStatus
  | merged
  | invalidShape
  | invalidChunk
  | capacityExceeded
  deriving DecidableEq, Repr

/-- Deferred records with the world they belong to. -/
structure PlannedDirtyAccumulator where
  /-- Records in the order they were made. -/
  records : List PlannedDirtyRecord := []
  /-- Stamp of the world. -/
  worldStamp : Option PlannedWorldStamp := none
  /-- Records bind their world. -/
  bound : worldStamp = none → records = [] := by simp

/-- The reusable state of phase execution. -/
structure PlannedPhaseExecutionScratch where
  /-- Records of each operation. -/
  dirtyPartitions : List (List PlannedDirtyRecord) := []
  /-- Stamp of the world. -/
  worldStamp : Option PlannedWorldStamp := none
  /-- Preparing a phase binds the world. -/
  bound : worldStamp = none → dirtyPartitions.flatten = [] := by simp

/-- The marks of a world by chunk key. -/
abbrev ChunkMarks := ℕ → ChunkDirty

namespace ChunkMarks

/-- `World::mark_dirty`. -/
def markDirty (marks : ChunkMarks) (key : ℕ) (mask : BitVec 32) (bounds : Box3) : ChunkMarks :=
  Function.update marks key ((marks key).metaMarkDirty mask bounds)

/-- Mark what a record defers. -/
def markRecord (marks : ChunkMarks) (r : PlannedDirtyRecord) : ChunkMarks :=
  marks.markDirty r.chunk r.dirtyMask r.bounds

/-- Mark what some records defer, one after the other. -/
def markAll (marks : ChunkMarks) (records : List PlannedDirtyRecord) : ChunkMarks :=
  records.foldl markRecord marks

end ChunkMarks

/-- What a merge leaves: the marks, its source and its result. -/
structure MergeOutcome (σ : Type) where
  /-- Marks after the merge. -/
  marks : ChunkMarks
  /-- Source after the merge. -/
  source : σ
  /-- Status. -/
  status : PlannedDirtyMergeStatus
  /-- Number of chunks marked. -/
  mergedChunkCount : ℕ := 0

/-- `PlannedDirtyAccumulator::validation_status`. -/
def validationStatus (world : PlannedWorldStamp) :
    Option PlannedWorldStamp → PlannedDirtyMergeStatus
  | none => .merged
  | some stamp =>
    if stamp = world then .merged
    else if stamp.shapeIdentity ≠ world.shapeIdentity then .invalidShape
    else if stamp.chunkLimit ≠ world.chunkLimit then .invalidChunk
    else .merged

theorem or_ne_zero {a b : BitVec 32} (h : a ≠ 0) : a ||| b ≠ 0 := by
  intro h0
  refine h (BitVec.eq_of_getLsbD_eq fun i _ => ?_)
  have := congrArg (fun x => BitVec.getLsbD x i) h0
  simp only [BitVec.getLsbD_or, BitVec.ofNat_eq_ofNat, BitVec.getLsbD_zero, Bool.or_eq_false_iff]
    at this
  simpa using this.1

/-- Union of two records of one chunk. -/
def PlannedDirtyRecord.coalesce (r r' : PlannedDirtyRecord) : PlannedDirtyRecord :=
  { r with
    dirtyMask := r.dirtyMask ||| r'.dirtyMask
    bounds := unionBox r.bounds r'.bounds
    mask_ne := or_ne_zero r.mask_ne }

/-- The loop over sorted records: neighbours of one chunk are coalesced and marked once. -/
def mergeSorted (cur : PlannedDirtyRecord) :
    List PlannedDirtyRecord → ChunkMarks → ℕ → ChunkMarks × ℕ
  | [], marks, count => (marks.markRecord cur, count + 1)
  | r :: rs, marks, count =>
    if r.chunk = cur.chunk then mergeSorted (cur.coalesce r) rs marks count
    else mergeSorted r rs (marks.markRecord cur) (count + 1)

/-- A sort by chunk, in no particular order within a chunk. -/
structure ChunkSort where
  /-- The sort. -/
  sort : List PlannedDirtyRecord → List PlannedDirtyRecord
  /-- Nothing is lost. -/
  perm : ∀ l, (sort l).Perm l
  /-- Chunks ascend. -/
  sorted : ∀ l, (sort l).Pairwise fun r r' => r.chunk ≤ r'.chunk

/-- `merge_planned_dirty` on an accumulator. -/
def mergePlannedDirty (sort : ChunkSort) (world : PlannedWorldStamp) (marks : ChunkMarks)
    (dirty : PlannedDirtyAccumulator) : MergeOutcome PlannedDirtyAccumulator :=
  let validation := validationStatus world dirty.worldStamp
  if validation ≠ .merged then { marks := marks, source := dirty, status := validation }
  else
    match sort.sort dirty.records with
    | [] => { marks := marks, source := {}, status := .merged }
    | r :: rs =>
      let (marks', count) := mergeSorted r rs marks 0
      { marks := marks', source := {}, status := .merged, mergedChunkCount := count }

/-- The stamps of the partitions agree with each other and with the one so far. -/
def collectStatus : Option PlannedWorldStamp → List PlannedDirtyAccumulator →
    PlannedDirtyMergeStatus
  | _, [] => .merged
  | stamp, partition :: partitions =>
    match partition.worldStamp, stamp with
    | none, stamp => collectStatus stamp partitions
    | some s, none => collectStatus (some s) partitions
    | some s, some stamp =>
      if stamp.shapeIdentity ≠ s.shapeIdentity then .invalidShape
      else if stamp.chunkLimit ≠ s.chunkLimit then .invalidChunk
      else collectStatus (some stamp) partitions

/-- The records fit below a limit; sizes are compared without overflow. -/
def fitsBelow (limit : ℕ) : List ℕ → ℕ → Bool
  | [], _ => true
  | size :: sizes, required =>
    if size > limit - required then false else fitsBelow limit sizes (required + size)

/-- Transfer of every partition, the last stamp being the one kept. -/
def collectRecords (dirty : PlannedDirtyAccumulator) (partition : PlannedDirtyAccumulator) :
    PlannedDirtyAccumulator :=
  { records := dirty.records ++ partition.records
    worldStamp := partition.worldStamp <|> dirty.worldStamp
    bound := by
      intro h
      have := partition.bound
      have := dirty.bound
      cases hp : partition.worldStamp <;> simp_all }

/-- The first partition whose stamp is not the world's. -/
def firstInvalid (world : PlannedWorldStamp) : List PlannedDirtyAccumulator →
    PlannedDirtyMergeStatus
  | [] => .merged
  | partition :: partitions =>
    let validation := validationStatus world partition.worldStamp
    if validation ≠ .merged then validation else firstInvalid world partitions

/-- `merge_planned_dirty` on partitions, with `collect_planned_dirty` inlined; `limit` is the
largest number of records. -/
def mergePartitions (sort : ChunkSort) (limit : ℕ) (world : PlannedWorldStamp)
    (marks : ChunkMarks) (partitions : List PlannedDirtyAccumulator) :
    MergeOutcome (List PlannedDirtyAccumulator) :=
  let validation := firstInvalid world partitions
  if validation ≠ .merged then { marks := marks, source := partitions, status := validation }
  else
    let collected := collectStatus none partitions
    if collected ≠ .merged then { marks := marks, source := partitions, status := collected }
    else if !fitsBelow limit (partitions.map (·.records.length)) 0 then
      { marks := marks, source := partitions, status := .capacityExceeded }
    else
      let out := mergePlannedDirty sort world marks (partitions.foldl collectRecords {})
      { marks := out.marks, source := partitions.map fun _ => {}
        status := out.status, mergedChunkCount := out.mergedChunkCount }

/-- `validate_planned_world_stamp` on a bound scratch. -/
def scratchStatus (world stamp : PlannedWorldStamp) : PlannedDirtyMergeStatus :=
  validationStatus world (some stamp)

/-- The scratch with its partitions emptied. -/
def PlannedPhaseExecutionScratch.cleared (scratch : PlannedPhaseExecutionScratch) :
    PlannedPhaseExecutionScratch :=
  { scratch with
    dirtyPartitions := scratch.dirtyPartitions.map fun _ => []
    bound := fun _ => by simp }

/-- `merge_planned_dirty` on the scratch of a phase. -/
def mergePhaseScratch (sort : ChunkSort) (limit : ℕ) (world : PlannedWorldStamp)
    (marks : ChunkMarks) (scratch : PlannedPhaseExecutionScratch) :
    MergeOutcome PlannedPhaseExecutionScratch :=
  match scratch.worldStamp with
  | none => { marks := marks, source := scratch, status := .merged }
  | some stamp =>
    let validation := scratchStatus world stamp
    if validation ≠ .merged then { marks := marks, source := scratch, status := validation }
    else if !fitsBelow limit (scratch.dirtyPartitions.map List.length) 0 then
      { marks := marks, source := scratch, status := .capacityExceeded }
    else
      let out := mergePlannedDirty sort world marks
        { records := scratch.dirtyPartitions.flatten, worldStamp := some stamp }
      { marks := out.marks, source := scratch.cleared, status := out.status
        mergedChunkCount := out.mergedChunkCount }

/-- The quadratic scan: a record whose chunk did not appear earlier is coalesced with the later
ones of its chunk. -/
def mergeUnsorted (earlier : List PlannedDirtyRecord) :
    List PlannedDirtyRecord → ChunkMarks → ℕ → ChunkMarks × ℕ
  | [], marks, count => (marks, count)
  | r :: rs, marks, count =>
    if earlier.any (·.chunk = r.chunk) then mergeUnsorted (earlier ++ [r]) rs marks count
    else
      let r' := rs.foldl (fun r later => if later.chunk = r.chunk then r.coalesce later else r) r
      mergeUnsorted (earlier ++ [r]) rs (marks.markRecord r') (count + 1)

/-- `detail::merge_planned_dirty_after_exception`. -/
def mergeAfterException (world : PlannedWorldStamp) (marks : ChunkMarks)
    (scratch : PlannedPhaseExecutionScratch) : MergeOutcome PlannedPhaseExecutionScratch :=
  match scratch.worldStamp with
  | none => { marks := marks, source := scratch, status := .merged }
  | some stamp =>
    let validation := scratchStatus world stamp
    if validation ≠ .merged then { marks := marks, source := scratch, status := validation }
    else
      let (marks', count) := mergeUnsorted [] scratch.dirtyPartitions.flatten marks 0
      { marks := marks', source := scratch.cleared, status := .merged, mergedChunkCount := count }

/-- The merge after a phase in automatic execution: records that exceed the capacity are merged
like those of a phase that threw. -/
def mergePhase (sort : ChunkSort) (limit : ℕ) (world : PlannedWorldStamp) (marks : ChunkMarks)
    (scratch : PlannedPhaseExecutionScratch) : MergeOutcome PlannedPhaseExecutionScratch :=
  let merged := mergePhaseScratch sort limit world marks scratch
  if merged.status = .capacityExceeded then
    mergeAfterException world merged.marks merged.source
  else merged

/-! ### Sums of marks -/

/-- Dirty bits and the box behind them. -/
@[ext]
structure Marks where
  /-- Dirty bits. -/
  mask : BitVec 32
  /-- Ends of the box; none without marks. -/
  ends : WithBot Ends

namespace Marks

instance : Zero Marks := ⟨⟨0, ⊥⟩⟩

instance : Add Marks := ⟨fun a b => ⟨a.mask ||| b.mask, a.ends ⊔ b.ends⟩⟩

/-- Marks add up in any order. -/
instance : AddCommMonoid Marks where
  add_assoc _ _ _ := Marks.ext (BitVec.or_assoc _ _ _) (sup_assoc _ _ _)
  zero_add _ := Marks.ext BitVec.zero_or (bot_sup_eq _)
  add_zero _ := Marks.ext BitVec.or_zero (sup_bot_eq _)
  add_comm _ _ := Marks.ext (BitVec.or_comm _ _) (sup_comm _ _)
  nsmul := nsmulRec

theorem add_def (a b : Marks) : a + b = ⟨a.mask ||| b.mask, a.ends ⊔ b.ends⟩ := rfl

/-- The box of the marks. -/
def bounds (m : Marks) : Box3 :=
  match m.ends with
  | ⊥ => {}
  | (e : Ends) => e.box

end Marks

/-- Bits and box of a record. -/
def PlannedDirtyRecord.marks (r : PlannedDirtyRecord) : Marks := ⟨r.dirtyMask, r.bounds.ends⟩

namespace ChunkDirty

variable {S : Shape} {d : ChunkDirty} {r : PlannedDirtyRecord} {l : List PlannedDirtyRecord}

/-- Bits and box of a chunk. -/
def marked (d : ChunkDirty) : Marks := ⟨d.mask, if d.mask = 0 then ⊥ else d.bounds.ends⟩

/-- The box of the marks does not start below zero. -/
def Tame (d : ChunkDirty) : Prop := d.mask ≠ 0 → ∀ a, 0 ≤ d.bounds.origin.get a

/-- Mark what a record of the chunk defers. -/
def mark (d : ChunkDirty) (r : PlannedDirtyRecord) : ChunkDirty :=
  d.metaMarkDirty r.dirtyMask r.bounds

/-- **A mark adds its record** to the marks of a chunk. -/
theorem mark_spec (hd : d.Tame) (hr : r.bounds.InShape S) :
    (d.mark r).marked = d.marked + r.marks ∧ (d.mark r).bounds = (d.mark r).marked.bounds ∧
      (d.mark r).Tame ∧ (d.mark r).contentVersion = d.contentVersion + 1 := by
  have hne : d.mask ||| r.dirtyMask ≠ 0 := by
    rw [BitVec.or_comm]
    exact or_ne_zero r.mask_ne
  have hmark : d.mark r = { mask := d.mask ||| r.dirtyMask, contentVersion := d.contentVersion + 1
                            bounds := if d.mask = 0 then r.bounds
                              else unionBox d.bounds r.bounds } := by
    rw [mark, metaMarkDirty, if_neg r.mask_ne]
  rw [hmark]
  by_cases h0 : d.mask = 0
  · have hmarked : d.marked + r.marks = ⟨d.mask ||| r.dirtyMask, r.bounds.ends⟩ := by
      rw [Marks.add_def, marked, if_pos h0]
      exact Marks.ext rfl (bot_sup_eq _)
    rw [hmarked]
    simp only [marked, if_pos h0, if_neg hne, Marks.bounds, Tame, hr.box_ends, true_and]
    exact ⟨fun _ a => (hr a).1, trivial⟩
  · have hproper := hr.proper_sup (hd h0)
    have hmarked : d.marked + r.marks =
        ⟨d.mask ||| r.dirtyMask, ((d.bounds.ends ⊔ r.bounds.ends : Ends) : WithBot Ends)⟩ := by
      rw [Marks.add_def, marked, if_neg h0]
      rfl
    rw [hmarked]
    simp only [marked, if_neg h0, if_neg hne, Marks.bounds, Tame, Box3.unionBox_eq,
      Box3.ends_box hproper, true_and]
    refine ⟨fun _ a => ?_, trivial⟩
    have := (hproper a).1
    exact this.trans_eq (@Box3.ofEnds_origin a (OrderDual.ofDual (d.bounds.ends ⊔
      r.bounds.ends).1) _).symm

/-- **Many marks add all their records.** -/
theorem foldl_mark_spec (hd : d.Tame) (hl : ∀ r ∈ l, r.bounds.InShape S) :
    (l.foldl mark d).marked = d.marked + (l.map PlannedDirtyRecord.marks).sum ∧
      (l ≠ [] → (l.foldl mark d).bounds = (l.foldl mark d).marked.bounds) ∧
      (l.foldl mark d).contentVersion = d.contentVersion + l.length := by
  induction l generalizing d with
  | nil => exact ⟨(add_zero _).symm, fun h => absurd rfl h, rfl⟩
  | cons r l ih =>
    obtain ⟨h1, h2, h3, h4⟩ := mark_spec hd (hl r List.mem_cons_self)
    obtain ⟨i1, i2, i3⟩ := ih h3 fun r hr => hl r (List.mem_cons_of_mem _ hr)
    rw [List.foldl_cons]
    refine ⟨by rw [i1, h1, List.map_cons, List.sum_cons, add_assoc], fun _ => ?_, ?_⟩
    · cases l with
      | nil => exact h2
      | cons r' l => exact i2 (List.cons_ne_nil _ _)
    · rw [i3, h4, List.length_cons]
      omega

end ChunkDirty

namespace ChunkMarks

variable {S : Shape} {marks : ChunkMarks} {l l' : List PlannedDirtyRecord} {key : ℕ}

/-- The records of one chunk, in their order. -/
def recordsOf (l : List PlannedDirtyRecord) (key : ℕ) : List PlannedDirtyRecord :=
  l.filter fun r => r.chunk = key

theorem mem_recordsOf {r : PlannedDirtyRecord} : r ∈ recordsOf l key ↔ r ∈ l ∧ r.chunk = key := by
  simp [recordsOf]

theorem recordsOf_ne_nil : recordsOf l key ≠ [] ↔ key ∈ l.map (·.chunk) := by
  rw [ne_eq, List.eq_nil_iff_forall_not_mem]
  simp only [mem_recordsOf, List.mem_map]
  push Not
  rfl

/-- Marking many chunks marks each with its own records. -/
theorem markAll_apply (marks : ChunkMarks) (l : List PlannedDirtyRecord) (key : ℕ) :
    marks.markAll l key = (recordsOf l key).foldl ChunkDirty.mark (marks key) := by
  induction l generalizing marks with
  | nil => rfl
  | cons r l ih =>
    rw [markAll, List.foldl_cons]
    refine (ih (marks.markRecord r)).trans ?_
    unfold recordsOf
    by_cases h : r.chunk = key
    · subst h
      simp [markRecord, markDirty, ChunkDirty.mark]
    · simp [h, markRecord, markDirty, Function.update_of_ne (Ne.symm h)]

/-- No dirty chunk has a box that starts below zero. -/
def Tame (marks : ChunkMarks) : Prop := ∀ key, (marks key).Tame

/-- **Two lists of records mark alike** when each chunk has the same marks in both. -/
theorem markAll_congr (hmarks : marks.Tame) (hl : ∀ r ∈ l, r.bounds.InShape S)
    (hl' : ∀ r ∈ l', r.bounds.InShape S) (hkey : key ∈ l.map (·.chunk) ↔ key ∈ l'.map (·.chunk))
    (hsum : ((recordsOf l key).map PlannedDirtyRecord.marks).sum =
      ((recordsOf l' key).map PlannedDirtyRecord.marks).sum) :
    (marks.markAll l key).mask = (marks.markAll l' key).mask ∧
      (marks.markAll l key).bounds = (marks.markAll l' key).bounds := by
  have hin {l : List PlannedDirtyRecord} (hl : ∀ r ∈ l, r.bounds.InShape S) :
      ∀ r ∈ recordsOf l key, r.bounds.InShape S := fun r hr => hl r (mem_recordsOf.1 hr).1
  obtain ⟨h1, h2, -⟩ := ChunkDirty.foldl_mark_spec (hmarks key) (hin hl)
  obtain ⟨h1', h2', -⟩ := ChunkDirty.foldl_mark_spec (hmarks key) (hin hl')
  have hmarked : (marks.markAll l key).marked = (marks.markAll l' key).marked := by
    rw [markAll_apply, markAll_apply, h1, h1', hsum]
  refine ⟨congrArg Marks.mask hmarked, ?_⟩
  by_cases hnil : recordsOf l key = []
  · have hnil' : recordsOf l' key = [] := by
      by_contra h
      exact recordsOf_ne_nil.2 (hkey.2 (recordsOf_ne_nil.1 h)) hnil
    rw [markAll_apply, markAll_apply, hnil, hnil']
  · have hnil' : recordsOf l' key ≠ [] := recordsOf_ne_nil.2 (hkey.1 (recordsOf_ne_nil.1 hnil))
    rw [← markAll_apply] at h2 h2'
    rw [h2 hnil, h2' hnil', hmarked]

end ChunkMarks

/-! ### Coalescing -/

section Coalescing

variable {S : Shape} {cur r : PlannedDirtyRecord} {rs records groups : List PlannedDirtyRecord}
  {marks : ChunkMarks} {count : ℕ}

open ChunkMarks

/-- The marks of the records of a chunk. -/
def marksOf (l : List PlannedDirtyRecord) (key : ℕ) : Marks :=
  ((recordsOf l key).map PlannedDirtyRecord.marks).sum

theorem marksOf_cons (r : PlannedDirtyRecord) (l : List PlannedDirtyRecord) (key : ℕ) :
    marksOf (r :: l) key = (if r.chunk = key then r.marks else 0) + marksOf l key := by
  unfold marksOf recordsOf
  by_cases h : r.chunk = key <;> simp [h]

/-- Each chunk of the records has one group, with the marks of all of them. -/
structure Coalesces (S : Shape) (groups records : List PlannedDirtyRecord) : Prop where
  /-- One group for each chunk. -/
  nodup : (groups.map (·.chunk)).Nodup
  /-- Boxes stay in the shape. -/
  inShape : ∀ g ∈ groups, g.bounds.InShape S
  /-- The marks are the same. -/
  marksOf_eq : ∀ key, marksOf groups key = marksOf records key
  /-- The chunks are the same. -/
  mem_iff : ∀ key, key ∈ groups.map (·.chunk) ↔ key ∈ records.map (·.chunk)

theorem marks_coalesce (hr : r.bounds.InShape S) (hcur : cur.bounds.InShape S) :
    (cur.coalesce r).marks = cur.marks + r.marks := by
  have hproper := hr.proper_sup fun a => (hcur a).1
  refine Marks.ext rfl ?_
  change ((unionBox cur.bounds r.bounds).ends : WithBot Ends) = _
  rw [Box3.unionBox_eq, Box3.ends_box hproper]
  rfl

/-- **Sorted records** are coalesced by their loop. -/
theorem mergeSorted_spec (hcur : cur.bounds.InShape S) (hrs : ∀ r ∈ rs, r.bounds.InShape S)
    (hsorted : (cur :: rs).Pairwise fun r r' => r.chunk ≤ r'.chunk) :
    ∃ groups, mergeSorted cur rs marks count =
      (marks.markAll groups, count + groups.length) ∧ Coalesces S groups (cur :: rs) := by
  induction rs generalizing cur marks count with
  | nil =>
    refine ⟨[cur], rfl, by simp, by simpa using hcur, fun _ => rfl, fun _ => Iff.rfl⟩
  | cons r rs ih =>
    have hr := hrs r List.mem_cons_self
    have hrs' : ∀ r ∈ rs, r.bounds.InShape S := fun r h => hrs r (List.mem_cons_of_mem _ h)
    obtain ⟨hle, hsorted'⟩ := List.pairwise_cons.1 hsorted
    rw [mergeSorted]
    split_ifs with h
    · have hchunk : (cur.coalesce r).chunk = cur.chunk := rfl
      have hsorted'' : (cur.coalesce r :: rs).Pairwise fun r r' => r.chunk ≤ r'.chunk :=
        List.pairwise_cons.2 ⟨fun r' h' => hle r' (List.mem_cons_of_mem _ h'),
          (List.pairwise_cons.1 hsorted').2⟩
      obtain ⟨groups, hmerge, hnodup, hin, hmarks, hmem⟩ :=
        @ih (cur.coalesce r) marks count (hcur.unionBox hr) hrs' hsorted''
      refine ⟨groups, hmerge, hnodup, hin, fun key => ?_, fun key => ?_⟩
      · rw [hmarks, marksOf_cons, marksOf_cons, marksOf_cons, marks_coalesce hr hcur, hchunk, h]
        split_ifs <;> simp [add_assoc]
      · rw [hmem]
        simp [hchunk, h]
    · obtain ⟨groups, hmerge, hnodup, hin, hmarks, hmem⟩ :=
        @ih r (marks.markRecord cur) (count + 1) hr hrs' hsorted'
      refine ⟨cur :: groups, ?_, ?_, ?_, fun key => ?_, fun key => ?_⟩
      · rw [hmerge, List.length_cons]
        exact Prod.ext rfl (by omega)
      · rw [List.map_cons, List.nodup_cons, hmem]
        refine ⟨fun hcontra => ?_, hnodup⟩
        obtain ⟨r', hr', heq⟩ := List.mem_map.1 hcontra
        have h1 : cur.chunk ≤ r.chunk := hle r List.mem_cons_self
        have h2 : r.chunk ≤ r'.chunk := by
          rcases List.mem_cons.1 hr' with rfl | hr'
          · exact le_rfl
          · exact (List.pairwise_cons.1 hsorted').1 r' hr'
        omega
      · intro g hg
        rcases List.mem_cons.1 hg with rfl | hg
        · exact hcur
        · exact hin g hg
      · rw [marksOf_cons, hmarks, ← marksOf_cons]
      · rw [List.map_cons, List.mem_cons, hmem, List.map_cons (l := r :: rs), List.mem_cons]

/-- Coalescing with the later records of the chunk. -/
theorem foldl_coalesce_spec (hcur : cur.bounds.InShape S) (hrs : ∀ r ∈ rs, r.bounds.InShape S) :
    (rs.foldl (fun r later => if later.chunk = r.chunk then r.coalesce later else r) cur).chunk =
        cur.chunk ∧
      (rs.foldl (fun r later => if later.chunk = r.chunk then r.coalesce later else r)
        cur).bounds.InShape S ∧
      (rs.foldl (fun r later => if later.chunk = r.chunk then r.coalesce later else r)
        cur).marks = cur.marks + marksOf rs cur.chunk := by
  induction rs generalizing cur with
  | nil => exact ⟨rfl, hcur, (add_zero _).symm⟩
  | cons r rs ih =>
    have hr := hrs r List.mem_cons_self
    have hrs' : ∀ r ∈ rs, r.bounds.InShape S := fun r h => hrs r (List.mem_cons_of_mem _ h)
    rw [List.foldl_cons, marksOf_cons]
    split_ifs with h
    · obtain ⟨h1, h2, h3⟩ := @ih (cur.coalesce r) (hcur.unionBox hr) hrs'
      refine ⟨h1, h2, ?_⟩
      rw [h3, marks_coalesce hr hcur, add_assoc]
      rfl
    · rw [zero_add]
      exact ih hcur hrs'

/-- **The quadratic scan** coalesces the records whose chunks did not appear before. -/
theorem mergeUnsorted_spec (earlier : List PlannedDirtyRecord)
    (hrs : ∀ r ∈ rs, r.bounds.InShape S) :
    ∃ groups, mergeUnsorted earlier rs marks count =
      (marks.markAll groups, count + groups.length) ∧
      Coalesces S groups (rs.filter fun r => r.chunk ∉ earlier.map (·.chunk)) := by
  induction rs generalizing earlier marks count with
  | nil => exact ⟨[], rfl, by simp, by simp, fun _ => rfl, fun _ => Iff.rfl⟩
  | cons r rs ih =>
    have hr := hrs r List.mem_cons_self
    have hrs' : ∀ r ∈ rs, r.bounds.InShape S := fun r h => hrs r (List.mem_cons_of_mem _ h)
    have hany : earlier.any (·.chunk = r.chunk) = true ↔ r.chunk ∈ earlier.map (·.chunk) := by
      simp
    rw [mergeUnsorted]
    split_ifs with h
    · rw [hany] at h
      obtain ⟨groups, hmerge, hco⟩ := @ih marks count (earlier ++ [r]) hrs'
      refine ⟨groups, hmerge, ?_⟩
      have hfilter : (r :: rs).filter (fun r => r.chunk ∉ earlier.map (·.chunk)) =
          rs.filter fun r' => r'.chunk ∉ (earlier ++ [r]).map (·.chunk) := by
        rw [List.filter_cons_of_neg (by simpa using h)]
        refine List.filter_congr fun r' _ => ?_
        by_cases h' : r'.chunk = r.chunk
        · simp only [h', List.map_append, List.map_cons, List.map_nil, List.mem_append, h]
          simp
        · simp [h']
      rwa [hfilter]
    · rw [hany] at h
      obtain ⟨groups, hmerge, hnodup, hin, hmarks, hmem⟩ := @ih (marks.markRecord (rs.foldl
        (fun r later => if later.chunk = r.chunk then r.coalesce later else r) r)) (count + 1)
        (earlier ++ [r]) hrs'
      obtain ⟨h1, h2, h3⟩ := foldl_coalesce_spec hr hrs'
      have hcount : count + 1 + groups.length = count + (groups.length + 1) := by omega
      refine ⟨_ :: groups, by rw [hmerge, hcount]; rfl, ?_, ?_, fun key => ?_, fun key => ?_⟩
      · rw [List.map_cons, List.nodup_cons, h1, hmem]
        refine ⟨fun hcontra => ?_, hnodup⟩
        obtain ⟨r', hr', heq⟩ := List.mem_map.1 hcontra
        have := (List.mem_filter.1 hr').2
        simp [heq] at this
      · intro g hg
        rcases List.mem_cons.1 hg with rfl | hg
        · exact h2
        · exact hin g hg
      · rw [marksOf_cons, h1, h3, hmarks, List.filter_cons_of_pos (by simpa using h),
          marksOf_cons]
        by_cases hk : r.chunk = key
        · subst hk
          have hnil : marksOf (rs.filter fun r' => r'.chunk ∉ (earlier ++ [r]).map (·.chunk))
              r.chunk = 0 := by
            have : recordsOf (rs.filter fun r' => r'.chunk ∉ (earlier ++ [r]).map (·.chunk))
                r.chunk = [] := by
              rw [List.eq_nil_iff_forall_not_mem]
              intro r' hr'
              obtain ⟨hr', heq⟩ := mem_recordsOf.1 hr'
              have := (List.mem_filter.1 hr').2
              simp [heq] at this
            rw [marksOf, this]
            rfl
          have hall : recordsOf (rs.filter fun r' => r'.chunk ∉ earlier.map (·.chunk)) r.chunk =
              recordsOf rs r.chunk := by
            unfold recordsOf
            rw [List.filter_filter]
            refine List.filter_congr fun r' _ => ?_
            by_cases hc : r'.chunk = r.chunk
            · simpa [hc] using h
            · simp [hc]
          rw [hnil, if_pos rfl, if_pos rfl, add_zero, marksOf, marksOf, hall]
        · rw [if_neg hk, if_neg hk, zero_add, zero_add]
          unfold marksOf recordsOf
          rw [List.filter_filter, List.filter_filter]
          refine congrArg (fun l => (List.map PlannedDirtyRecord.marks l).sum)
            (List.filter_congr fun r' _ => ?_)
          by_cases hc : r'.chunk = key
          · subst hc
            simp [Ne.symm hk]
          · simp [hc]
      · rw [List.map_cons, List.mem_cons, h1, hmem, List.filter_cons_of_pos (by simpa using h),
          List.map_cons, List.mem_cons]
        by_cases hk : key = r.chunk
        · simp [hk]
        · simp only [hk, false_or, List.mem_map, List.mem_filter, decide_eq_true_eq]
          refine exists_congr fun r' => and_congr_left fun heq => and_congr_right fun _ => ?_
          subst heq
          simp [Ne.symm hk]

end Coalescing

/-! ### Merging -/

/-- Records of the partitions, in order. -/
def partitionRecords (partitions : List PlannedDirtyAccumulator) : List PlannedDirtyRecord :=
  partitions.flatMap (·.records)

/-- Records of the partitions of a phase, in order. -/
def PlannedPhaseExecutionScratch.records (scratch : PlannedPhaseExecutionScratch) :
    List PlannedDirtyRecord := scratch.dirtyPartitions.flatten

section Merging

variable {S : Shape} {records groups : List PlannedDirtyRecord} {marks marks' : ChunkMarks}
  {count limit : ℕ} {sort : ChunkSort} {world : PlannedWorldStamp}

open ChunkMarks

/-- **A merge** leaves what marking every record at once would have left, in any order, and marks
each named chunk once. -/
structure Merges (marks : ChunkMarks) (records : List PlannedDirtyRecord) (marks' : ChunkMarks)
    (count : ℕ) : Prop where
  /-- Masks and boxes are those of immediate marks. -/
  same : ∀ order, order.Perm records → ∀ key,
    (marks' key).mask = (marks.markAll order key).mask ∧
      (marks' key).bounds = (marks.markAll order key).bounds
  /-- Each named chunk is marked once. -/
  once : ∀ key, (marks' key).contentVersion = (marks key).contentVersion +
    if key ∈ records.map (·.chunk) then 1 else 0
  /-- The count is the number of named chunks. -/
  count_eq : count = (records.map (·.chunk)).dedup.length

theorem merges_nil (marks : ChunkMarks) : Merges marks [] marks 0 := by
  refine ⟨fun order h key => ?_, fun key => by simp, rfl⟩
  rw [List.Perm.eq_nil h]
  exact ⟨rfl, rfl⟩

theorem Merges.of_perm {records' : List PlannedDirtyRecord}
    (h : Merges marks records marks' count) (hperm : records.Perm records') :
    Merges marks records' marks' count := by
  refine ⟨fun order ho => h.same order (ho.trans hperm.symm), fun key => ?_,
    h.count_eq.trans (hperm.map _).dedup.length_eq⟩
  rw [h.once]
  exact congrArg _ (if_congr (hperm.map _).mem_iff rfl rfl)

/-- Marking the groups merges the records. -/
theorem Coalesces.merges (h : Coalesces S groups records) (hmarks : marks.Tame)
    (hrecords : ∀ r ∈ records, r.bounds.InShape S) :
    Merges marks records (marks.markAll groups) groups.length := by
  refine ⟨fun order hperm key => ?_, fun key => ?_, ?_⟩
  · refine markAll_congr hmarks h.inShape (fun r hr => hrecords r (hperm.mem_iff.1 hr)) ?_ ?_
    · rw [h.mem_iff]
      exact (hperm.map _).mem_iff.symm
    · exact (h.marksOf_eq key).trans ((hperm.filter _).map _).sum_eq.symm
  · have hin : ∀ r ∈ recordsOf groups key, r.bounds.InShape S := fun r hr =>
      h.inShape r (mem_recordsOf.1 hr).1
    rw [markAll_apply, (ChunkDirty.foldl_mark_spec (hmarks key) hin).2.2]
    have hcount : (recordsOf groups key).length = (groups.map (·.chunk)).count key := by
      rw [recordsOf, List.count, List.countP_map, List.countP_eq_length_filter]
      congr 1
    rw [hcount, List.Nodup.count h.nodup]
    exact congrArg _ (if_congr (h.mem_iff key) rfl rfl)
  · have hperm : (groups.map (·.chunk)).Perm (records.map (·.chunk)).dedup :=
      (List.perm_ext_iff_of_nodup h.nodup (List.nodup_dedup _)).2 fun key => by
        rw [h.mem_iff, List.mem_dedup]
    rw [← hperm.length_eq, List.length_map]

/-- A merge with its source either takes all of it, or is rejected and touches nothing. -/
def MergesOrRejects {σ : Type} (records : σ → List PlannedDirtyRecord) (marks : ChunkMarks)
    (source : σ) (out : MergeOutcome σ) : Prop :=
  (out.status = .merged ∧ Merges marks (records source) out.marks out.mergedChunkCount ∧
      records out.source = []) ∨
    (out.status ≠ .merged ∧ out.marks = marks ∧ out.source = source)

/-- **The accumulator overload.** -/
theorem mergePlannedDirty_spec (sort : ChunkSort) (world : PlannedWorldStamp)
    (dirty : PlannedDirtyAccumulator) (hmarks : marks.Tame)
    (hrecords : ∀ r ∈ dirty.records, r.bounds.InShape S) :
    MergesOrRejects PlannedDirtyAccumulator.records marks dirty
        (mergePlannedDirty sort world marks dirty) ∧
      (mergePlannedDirty sort world marks dirty).status = validationStatus world dirty.worldStamp := by
  unfold mergePlannedDirty
  simp only
  split_ifs with h
  · exact ⟨Or.inr ⟨h, rfl, rfl⟩, rfl⟩
  · have hperm := sort.perm dirty.records
    have hsorted := sort.sorted dirty.records
    have hvalid : validationStatus world dirty.worldStamp = .merged := by simpa using h
    split
    · rename_i hnil
      rw [hnil] at hperm
      refine ⟨Or.inl ⟨rfl, ?_, rfl⟩, hvalid.symm⟩
      rw [List.Perm.eq_nil hperm.symm]
      exact merges_nil marks
    · rename_i r rs hcons
      rw [hcons] at hperm hsorted
      have hin : ∀ r' ∈ r :: rs, r'.bounds.InShape S := fun r' hr' =>
        hrecords r' (hperm.mem_iff.1 hr')
      obtain ⟨groups, hmerge, hco⟩ := @mergeSorted_spec _ r rs marks 0
        (hin r List.mem_cons_self) (fun r' hr' => hin r' (List.mem_cons_of_mem _ hr')) hsorted
      rw [hmerge]
      refine ⟨Or.inl ⟨rfl, ?_, rfl⟩, hvalid.symm⟩
      have hm := hco.merges hmarks hin
      simp only [Nat.zero_add]
      exact hm.of_perm hperm

/-- Transferring valid partitions keeps their records and a valid stamp. -/
theorem foldl_collectRecords (partitions : List PlannedDirtyAccumulator)
    (dirty : PlannedDirtyAccumulator) (hdirty : validationStatus world dirty.worldStamp = .merged)
    (h : firstInvalid world partitions = .merged) :
    (partitions.foldl collectRecords dirty).records =
        dirty.records ++ partitionRecords partitions ∧
      validationStatus world (partitions.foldl collectRecords dirty).worldStamp = .merged := by
  induction partitions generalizing dirty with
  | nil => exact ⟨(List.append_nil _).symm, hdirty⟩
  | cons partition partitions ih =>
    unfold firstInvalid at h
    simp only at h
    split_ifs at h with hvalid
    · exact absurd h hvalid
    · have hstamp : validationStatus world (collectRecords dirty partition).worldStamp =
          .merged := by
        cases hp : partition.worldStamp with
        | none => simpa [collectRecords, hp] using hdirty
        | some s => simpa [collectRecords, hp] using hvalid
      obtain ⟨h1, h2⟩ := ih (collectRecords dirty partition) hstamp h
      refine ⟨h1.trans ?_, h2⟩
      simp [partitionRecords, collectRecords]

/-- **The overload on partitions.** -/
theorem mergePartitions_spec (sort : ChunkSort) (limit : ℕ) (world : PlannedWorldStamp)
    (partitions : List PlannedDirtyAccumulator) (hmarks : marks.Tame)
    (hrecords : ∀ r ∈ partitionRecords partitions, r.bounds.InShape S) :
    MergesOrRejects partitionRecords marks partitions
      (mergePartitions sort limit world marks partitions) := by
  unfold mergePartitions
  simp only
  split_ifs with h1 h2 h3
  · exact Or.inr ⟨h1, rfl, rfl⟩
  · exact Or.inr ⟨h2, rfl, rfl⟩
  · exact Or.inr ⟨by simp, rfl, rfl⟩
  · obtain ⟨hrec, hstamp⟩ := foldl_collectRecords partitions {} rfl (by simpa using h1)
    rw [List.nil_append] at hrec
    obtain ⟨hmerge, hstatus⟩ := mergePlannedDirty_spec (S := S) sort world
      (partitions.foldl collectRecords {}) hmarks (by rwa [hrec])
    rw [hstamp] at hstatus
    rcases hmerge with ⟨-, hmerge, -⟩ | ⟨hne, -⟩
    · rw [hrec] at hmerge
      exact Or.inl ⟨hstatus, hmerge, by simp [partitionRecords]⟩
    · exact absurd hstatus hne

theorem cleared_records (scratch : PlannedPhaseExecutionScratch) : scratch.cleared.records = [] := by
  simp [PlannedPhaseExecutionScratch.records, PlannedPhaseExecutionScratch.cleared]

/-- **The overload on the scratch of a phase.** -/
theorem mergePhaseScratch_spec (sort : ChunkSort) (limit : ℕ) (world : PlannedWorldStamp)
    (scratch : PlannedPhaseExecutionScratch) (hmarks : marks.Tame)
    (hrecords : ∀ r ∈ scratch.records, r.bounds.InShape S) :
    MergesOrRejects PlannedPhaseExecutionScratch.records marks scratch
      (mergePhaseScratch sort limit world marks scratch) := by
  unfold mergePhaseScratch
  split
  · rename_i hnone
    have hnil : scratch.records = [] := scratch.bound hnone
    exact Or.inl ⟨rfl, hnil ▸ merges_nil marks, hnil⟩
  · rename_i stamp hstamp
    simp only
    split_ifs with h1 h2
    · exact Or.inr ⟨h1, rfl, rfl⟩
    · exact Or.inr ⟨by simp, rfl, rfl⟩
    · obtain ⟨hmerge, hstatus⟩ := mergePlannedDirty_spec (S := S) sort world
        { records := scratch.dirtyPartitions.flatten, worldStamp := some stamp } hmarks hrecords
      have hvalid : validationStatus world (some stamp) = .merged := by simpa [scratchStatus] using h1
      rw [hvalid] at hstatus
      rcases hmerge with ⟨-, hmerge, -⟩ | ⟨hne, -⟩
      · exact Or.inl ⟨hstatus, hmerge, cleared_records scratch⟩
      · exact absurd hstatus hne

/-- **The merge after an exception**, which no capacity can reject. -/
theorem mergeAfterException_spec (world : PlannedWorldStamp)
    (scratch : PlannedPhaseExecutionScratch) (hmarks : marks.Tame)
    (hrecords : ∀ r ∈ scratch.records, r.bounds.InShape S) :
    MergesOrRejects PlannedPhaseExecutionScratch.records marks scratch
        (mergeAfterException world marks scratch) ∧
      (mergeAfterException world marks scratch).status =
        validationStatus world scratch.worldStamp := by
  unfold mergeAfterException
  split
  · rename_i hnone
    have hnil : scratch.records = [] := scratch.bound hnone
    exact ⟨Or.inl ⟨rfl, hnil ▸ merges_nil marks, hnil⟩, by rw [hnone]; rfl⟩
  · rename_i stamp hstamp
    simp only
    rw [hstamp]
    split_ifs with h1
    · exact ⟨Or.inr ⟨h1, rfl, rfl⟩, rfl⟩
    · obtain ⟨groups, hmerge, hco⟩ := @mergeUnsorted_spec _ _ marks 0 [] hrecords
      have hvalid : validationStatus world (some stamp) = .merged := by simpa [scratchStatus] using h1
      change mergeUnsorted [] scratch.dirtyPartitions.flatten marks 0 = _ at hmerge
      rw [hmerge]
      have hall : scratch.records.filter (fun r => r.chunk ∉ ([] : List PlannedDirtyRecord).map
          (·.chunk)) = scratch.records := List.filter_eq_self.2 fun r _ => by simp
      rw [hall] at hco
      refine ⟨Or.inl ⟨rfl, ?_, cleared_records scratch⟩, hvalid.symm⟩
      simpa using hco.merges hmarks hrecords

/-- **The merge of automatic execution** falls back to the one after an exception. -/
theorem mergePhase_spec (sort : ChunkSort) (limit : ℕ) (world : PlannedWorldStamp)
    (scratch : PlannedPhaseExecutionScratch) (hmarks : marks.Tame)
    (hrecords : ∀ r ∈ scratch.records, r.bounds.InShape S) :
    MergesOrRejects PlannedPhaseExecutionScratch.records marks scratch
        (mergePhase sort limit world marks scratch) ∧
      (mergePhase sort limit world marks scratch).status ≠ .capacityExceeded := by
  have hphase := mergePhaseScratch_spec sort limit world scratch hmarks hrecords
  unfold mergePhase
  simp only
  split_ifs with h
  · rcases hphase with ⟨hne, -⟩ | ⟨-, hm, hs⟩
    · rw [h] at hne
      cases hne
    · rw [hm, hs]
      obtain ⟨h1, h2⟩ := mergeAfterException_spec world scratch hmarks hrecords
      refine ⟨h1, ?_⟩
      rw [h2, validationStatus.eq_def]
      split
      · simp
      · split_ifs <;> simp
  · exact ⟨hphase, h⟩

end Merging

end Tess
