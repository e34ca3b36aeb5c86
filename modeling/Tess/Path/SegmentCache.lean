import Tess.Lib.Slices
import Tess.Path.Product

/-!
# The cache of portal segments

Weighted segments are kept with the slices of one flat list of tiles, under one movement class and
within a budget of entries.  A store at the budget first drops the stale entries in one compaction
and then the oldest ones.

* `segmentLayout` : the slice of an entry;
* `SegmentCache.compactChecked`, `SegmentCache.evictOldest` : the two ways slices move;
* `SegmentCache.storeCheckedForClass`, `SegmentCache.lookupAppendForClass` : the calls of a view;
* `SegmentCall`, `SegmentRun` : calls between marked edits of a dense world.
-/

namespace Tess

/-- `WeightedPortalSegmentCache::Entry`. -/
structure SegmentEntry where
  /-- Ends of the segment. -/
  request : PathRequest
  /-- Outcome stored. -/
  status : PathStatus
  /-- Cost stored. -/
  cost : ℕ
  /-- First tile in the flat list. -/
  pathOffset : ℕ
  /-- Number of tiles. -/
  pathSize : ℕ
  /-- Content versions of the chunks of the tiles. -/
  dependencies : List ContentVersionDependency
  deriving DecidableEq

/-- An entry with another first tile. -/
def SegmentEntry.withOffset (e : SegmentEntry) (n : ℕ) : SegmentEntry := { e with pathOffset := n }

theorem SegmentEntry.pathOffset_withOffset (e : SegmentEntry) (n : ℕ) :
    (e.withOffset n).pathOffset = n := rfl

theorem SegmentEntry.pathSize_withOffset (e : SegmentEntry) (n : ℕ) :
    (e.withOffset n).pathSize = e.pathSize := rfl

/-- **The slice of an entry.** -/
def segmentLayout : Layout SegmentEntry where
  offset := SegmentEntry.pathOffset
  size := SegmentEntry.pathSize
  place := SegmentEntry.withOffset
  offset_place := SegmentEntry.pathOffset_withOffset
  size_place := SegmentEntry.pathSize_withOffset

/-- `SegmentHit`. -/
structure SegmentHit where
  /-- Something was found. -/
  found : Bool := false
  /-- Outcome stored. -/
  status : PathStatus := .notComputed
  /-- Cost stored. -/
  cost : ℕ := 0
  deriving DecidableEq

/-- `PortalSegmentStoreStatus`. -/
inductive PortalSegmentStoreStatus
  | completed
  | capacityExceeded
  deriving DecidableEq

/-- `detail::effective_capacity_limit` of the vectors during one call; the two vectors of entries,
and the two of tiles, are of one type. -/
structure SegmentLimits where
  /-- Of `entries_` and `compact_entries_`. -/
  entries : ℕ
  /-- Of `paths_` and `compact_paths_`. -/
  paths : ℕ
  /-- Of `compact_indices_`. -/
  indices : ℕ

/-- `detail::tag_identity` of a movement class; zero stands for none. -/
structure ClassIdentity where
  /-- Address of the static byte. -/
  identity : ℕ
  /-- It is not null. -/
  identity_ne : identity ≠ 0

/-- `WeightedPortalSegmentCache`; the vectors of a compaction are empty between calls. -/
structure SegmentCache where
  /-- Entries, in insertion order. -/
  entries : List SegmentEntry := []
  /-- Tiles of all entries. -/
  paths : List Coord3 := []
  /-- Budget of entries. -/
  budget : ℕ := 256
  /-- Compactions. -/
  sweeps : ℕ := 0
  /-- Entries that made room. -/
  evictions : ℕ := 0
  /-- Entries that were found but stale. -/
  staleRejections : ℕ := 0
  /-- Drops for another class. -/
  classRebinds : ℕ := 0
  /-- Class of the entries. -/
  boundClass : ℕ := 0
  deriving DecidableEq

/-- What a store leaves. -/
structure SegmentStoreResult where
  /-- The cache. -/
  cache : SegmentCache
  /-- Outcome. -/
  status : PortalSegmentStoreStatus

/-- What a lookup leaves: the cache, the answer, and the path of the caller. -/
structure SegmentLookupResult where
  /-- The cache. -/
  cache : SegmentCache
  /-- The answer. -/
  hit : SegmentHit
  /-- The path of the caller. -/
  outPath : List Coord3

namespace SegmentCache

variable {S : Shape} {Tag : Type*} (limits : SegmentLimits) (W : World S Tag) (c : SegmentCache)

/-! ### Storage -/

/-- `clear_storage`. -/
def clearStorage : SegmentCache := { c with entries := [], paths := [] }

/-- `clear`. -/
def clear : SegmentCache := { c.clearStorage with boundClass := 0 }

/-- `reset_stats`. -/
def resetStats : SegmentCache :=
  { c with sweeps := 0, evictions := 0, staleRejections := 0, classRebinds := 0 }

/-- `bind_class`. -/
def bindClass (identity : ClassIdentity) : SegmentCache :=
  if c.boundClass = identity.identity then c
  else if c.boundClass ≠ 0 then
    { c.clearStorage with
      classRebinds := c.classRebinds + 1
      boundClass := identity.identity }
  else { c with boundClass := identity.identity }

/-- `evict_oldest`. -/
def evictOldest (count : ℕ) : SegmentCache :=
  let evicted := if count < c.entries.length then count else c.entries.length
  if evicted = 0 then c
  else
    let firstPath := segmentLayout.cut c.entries evicted c.paths.length
    { c with
      -- the tiles behind `firstPath` move to the front and the rest is erased
      paths := c.paths.drop firstPath
      entries := (c.entries.drop evicted).map fun e => e.withOffset (e.pathOffset - firstPath)
      evictions := c.evictions + evicted }

/-- `set_segment_budget`. -/
def setSegmentBudget (budget : ℕ) : SegmentCache :=
  let c := { c with budget := budget }
  if c.budget < c.entries.length then c.evictOldest (c.entries.length - c.budget) else c

/-! ### Capacity -/

/-- `reserve_append_capacity_checked`. -/
def reserveAppendCapacityChecked (additionalEntries additionalPathNodes : ℕ) :
    PortalSegmentStoreStatus :=
  if limits.entries < c.entries.length ∨ limits.paths < c.paths.length ∨
      limits.entries - c.entries.length < additionalEntries ∨
      limits.paths - c.paths.length < additionalPathNodes then .capacityExceeded
  else .completed

/-- `store_capacity_precheck`. -/
def storeCapacityPrecheck (pathNodes : ℕ) : PortalSegmentStoreStatus :=
  if c.entries.length < c.budget then
    if limits.entries ≤ c.entries.length ∨ limits.paths < c.paths.length ∨
        limits.paths - c.paths.length < pathNodes then .capacityExceeded
    else .completed
  else if limits.entries = 0 ∨ limits.paths < pathNodes then .capacityExceeded
  else .completed

/-! ### Compaction -/

/-- The first loop of `compact_checked`: the entries kept and the number of their tiles. -/
def compactIndices (keep : SegmentEntry → Bool) :
    List SegmentEntry → List SegmentEntry → ℕ → Option (List SegmentEntry × ℕ)
  | [], kept, keptPathNodes => some (kept, keptPathNodes)
  | e :: es, kept, keptPathNodes =>
    if !keep e then compactIndices keep es kept keptPathNodes
    else if limits.indices ≤ kept.length ∨ limits.paths < keptPathNodes ∨
        limits.paths - keptPathNodes < e.pathSize then none
    else compactIndices keep es (kept ++ [e]) (keptPathNodes + e.pathSize)

/-- `compact_checked`. -/
def compactChecked (keep : SegmentEntry → Bool) (additionalEntries additionalPathNodes : ℕ) :
    SegmentStoreResult :=
  match compactIndices limits keep c.entries [] 0 with
  | none => ⟨c, .capacityExceeded⟩
  | some (kept, keptPathNodes) =>
    if limits.entries < kept.length ∨ limits.paths < keptPathNodes ∨
        limits.entries - kept.length < additionalEntries ∨
        limits.paths - keptPathNodes < additionalPathNodes then ⟨c, .capacityExceeded⟩
    else
      let compact := segmentLayout.rebuild c.paths kept ([], [])
      ⟨{ c with entries := compact.1, paths := compact.2 }, .completed⟩

/-- `sweep_stale`; an error stands for the exception. -/
def sweepStale : SegmentStoreResult :=
  let r := c.compactChecked limits (fun e => depsValid W e.dependencies) 0 0
  match r.status with
  | .completed => ⟨{ r.cache with sweeps := r.cache.sweeps + 1 }, .completed⟩
  | .capacityExceeded => r

/-! ### Lookups and stores -/

/-- `find`: the entry of a request, and the stale ones passed on the way. -/
def find (request : PathRequest) : List SegmentEntry → Option SegmentEntry × ℕ
  | [] => (none, 0)
  | e :: es =>
    if e.request.start ≠ request.start ∨ e.request.goal ≠ request.goal then find request es
    else if !depsValid W e.dependencies then
      let r := find request es
      (r.1, r.2 + 1)
    else (some e, 0)

/-- `path`. -/
def path (e : SegmentEntry) : List Coord3 := segmentLayout.slice c.paths e

/-- How a segment joins the path of the caller: a junction is not repeated. -/
def stitch (outPath cached : List Coord3) : List Coord3 :=
  outPath ++ if outPath ≠ [] ∧ cached ≠ [] ∧ outPath.getLast? = cached.head? then cached.tail
    else cached

/-- `lookup_append`. -/
def lookupAppend (request : PathRequest) (outPath : List Coord3) : SegmentLookupResult :=
  let r := find W request c.entries
  let counted := { c with staleRejections := c.staleRejections + r.2 }
  match r.1 with
  | none => ⟨counted, {}, outPath⟩
  | some e => ⟨counted, ⟨true, e.status, e.cost⟩, stitch outPath (c.path e)⟩

/-- The entry of a store, before its tiles have a place. -/
def newEntry (request : PathRequest) (result : PathResult) : SegmentEntry where
  request := request
  status := result.status
  cost := result.cost
  pathOffset := 0
  pathSize := result.path.length
  dependencies := pathDependencies W result.path

/-- The end of a store: the entry takes its place behind all others. -/
def append (e : SegmentEntry) (path : List Coord3) : SegmentCache :=
  { c with paths := c.paths ++ path, entries := c.entries ++ [e.withOffset c.paths.length] }

/-- How a store makes room for one entry. -/
def makeRoom (pathNodes : ℕ) : SegmentStoreResult :=
  if c.budget ≤ c.entries.length then
    let r := c.compactChecked limits (fun e => depsValid W e.dependencies) 1 pathNodes
    match r.status with
    | .capacityExceeded => r
    | .completed =>
      let swept := { r.cache with sweeps := r.cache.sweeps + 1 }
      if swept.budget ≤ swept.entries.length then
        ⟨swept.evictOldest (swept.entries.length - swept.budget + 1), .completed⟩
      else ⟨swept, .completed⟩
  else ⟨c, c.reserveAppendCapacityChecked limits 1 pathNodes⟩

/-- `store_checked`. -/
def storeChecked (request : PathRequest) (result : PathResult) : SegmentStoreResult :=
  if c.budget = 0 ∨ result.status ≠ .found then ⟨c, .completed⟩
  else
    let r := find W request c.entries
    if r.1.isSome then ⟨{ c with staleRejections := c.staleRejections + r.2 }, .completed⟩
    else
      match c.storeCapacityPrecheck limits result.path.length with
      | .capacityExceeded => ⟨c, .capacityExceeded⟩
      | .completed =>
        let room := c.makeRoom limits W result.path.length
        match room.status with
        | .capacityExceeded => room
        | .completed =>
          let stored := room.cache.append (newEntry W request result) result.path
          ⟨{ stored with staleRejections := stored.staleRejections + r.2 }, .completed⟩

/-- `store_checked_for_class`, the store of a view. -/
def storeCheckedForClass (identity : ClassIdentity) (request : PathRequest) (result : PathResult) :
    SegmentStoreResult :=
  if c.budget ≠ 0 ∧ result.status = .found ∧ c.boundClass ≠ identity.identity ∧
      (limits.entries = 0 ∨ limits.paths < result.path.length) then ⟨c, .capacityExceeded⟩
  else (c.bindClass identity).storeChecked limits W request result

/-- `ClassView::lookup_append`. -/
def lookupAppendForClass (identity : ClassIdentity) (request : PathRequest)
    (outPath : List Coord3) : SegmentLookupResult :=
  (c.bindClass identity).lookupAppend W request outPath

end SegmentCache

/-! ### Runs -/

/-- A call of the cache; views of any class may be used at any time. -/
inductive SegmentCall
  /-- `ClassView::lookup_append`. -/
  | lookup (identity : ClassIdentity) (request : PathRequest) (outPath : List Coord3)
  /-- `ClassView::store_checked`; `store` fails after it. -/
  | store (limits : SegmentLimits) (identity : ClassIdentity) (request : PathRequest)
      (result : PathResult)
  /-- `set_segment_budget`. -/
  | setSegmentBudget (budget : ℕ)
  /-- `clear`. -/
  | clear
  /-- `for_class`. -/
  | forClass (identity : ClassIdentity)
  /-- `sweep_stale`. -/
  | sweepStale (limits : SegmentLimits)
  /-- `reset_stats`. -/
  | resetStats

/-- A store: the world it read, the class it was for and what it was given. -/
structure SegmentStore (S : Shape) (Tag : Type*) where
  /-- Movement class. -/
  identity : ℕ
  /-- The world at the store. -/
  world : World S Tag
  /-- Ends of the segment. -/
  request : PathRequest
  /-- The result stored. -/
  result : PathResult

section Runs

variable {S : Shape} {Tag : Type*}

/-- One call in a world. -/
def SegmentCache.step (W : World S Tag) (c : SegmentCache) : SegmentCall → SegmentCache
  | .lookup identity request outPath => (c.lookupAppendForClass W identity request outPath).cache
  | .store limits identity request result =>
    (c.storeCheckedForClass limits W identity request result).cache
  | .setSegmentBudget budget => c.setSegmentBudget budget
  | .clear => c.clear
  | .forClass identity => c.bindClass identity
  | .sweepStale limits => (c.sweepStale limits W).cache
  | .resetStats => c.resetStats

/-- The store of a call. -/
def SegmentCall.stores (W : World S Tag) : SegmentCall → List (SegmentStore S Tag)
  | .store _ identity request result => [⟨identity.identity, W, request, result⟩]
  | _ => []

/-- **Runs**: calls on a cache between marked edits of a dense world, with the stores so far. -/
inductive SegmentRun : World S Tag → SegmentCache → List (SegmentStore S Tag) → Prop
  | init {W : World S Tag} (hd : W.IsDense) : SegmentRun W {} []
  | call {W : World S Tag} {c : SegmentCache} {log : List (SegmentStore S Tag)}
      (call : SegmentCall) : SegmentRun W c log → SegmentRun W (c.step W call) (call.stores W ++ log)
  | edit {W W' : World S Tag} {c : SegmentCache} {log : List (SegmentStore S Tag)} {key : ℕ} :
      SegmentRun W c log → World.EditStep key W W' → SegmentRun W' c log

end Runs

end Tess
