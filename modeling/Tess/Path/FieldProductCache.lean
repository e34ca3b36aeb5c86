import Tess.Lib.LeastRecent
import Tess.Path.Types
import Tess.Path.Product

/-!
# The cache of distance fields

Distance-field products are kept under what they were built for, within a budget of bytes.  A
lookup marks the entry as used; a store replaces the entry of its key or adds one, and the entries
that were not used for longest make room.

* `ResolvedModel` : a world type with a movement class and a provider;
* `DistanceFieldProduct` : a field with the stamps of its build;
* `FieldProductCache.lookup`, `FieldProductCache.storeWithKey` : the operations;
* `FieldCacheOp`, `FieldProductCache.run` : sequences of calls;
* `DistanceFieldProduct.rejectedBy` : the check of the readers.
-/

namespace Tess

/-! ### What a field is built for -/

/-- `lattice_version`. -/
def Lattice.version : Lattice → ℕ
  | .orthogonal => 1
  | .hexAxial => 1

/-- A movement class: the identity of its type, that of the unit class made from it, and its step
policy. -/
structure FieldClass where
  /-- `detail::tag_identity` of the class. -/
  identity : ℕ
  /-- `detail::tag_identity` of its `UnitMovementClass`. -/
  unitIdentity : ℕ
  /-- Step policy. -/
  stepPolicy : StepPolicy
  deriving DecidableEq

/-- `UnitMovementClass` of a class. -/
def FieldClass.unit (C : FieldClass) : FieldClass := ⟨C.unitIdentity, C.unitIdentity, C.stepPolicy⟩

/-- A provider: the identities of its type and of the object, none for a type without state, and
its revision. -/
structure FieldProvider where
  /-- `detail::tag_identity` of the type. -/
  identity : ℕ
  /-- `detail::transition_provider_instance_identity`. -/
  instanceIdentity : Option ℕ
  /-- `transition_revision()`. -/
  revision : ℕ
  deriving DecidableEq

/-- `ResolvedTransitionModel<World, Class, Provider>` with its provider. -/
structure ResolvedModel where
  /-- `World::shape_type`. -/
  shape : Shape
  /-- Movement class. -/
  cls : FieldClass
  /-- Provider. -/
  provider : FieldProvider

/-- `DistanceFieldProduct`. -/
structure DistanceFieldProduct where
  /-- Outcome of the build. -/
  status : PathStatus := .notComputed
  /-- Tiles expanded by the build. -/
  expandedNodes : ℕ := 0
  /-- Tiles labelled by the build. -/
  reachedNodes : ℕ := 0
  /-- Number of tiles. -/
  tileCount : ℕ := 0
  /-- Number of chunks. -/
  chunkCount : ℕ := 0
  /-- Tiles of one chunk. -/
  localTileCount : ℕ := 0
  /-- Tiles along each axis. -/
  shapeSize : Extent3 := ⟨0, 0, 0⟩
  /-- Tiles of one chunk along each axis. -/
  chunkExtent : Extent3 := ⟨0, 0, 0⟩
  /-- Identity of the movement class; zero for none. -/
  modelClassIdentity : ℕ := 0
  /-- Identity of the lattice; none before a build. -/
  modelLatticeIdentity : Option Lattice := none
  /-- Version of the lattice. -/
  modelLatticeVersion : ℕ := 0
  /-- Identity of the step policy; none before a build. -/
  modelStepIdentity : Option StepPolicy := none
  /-- Ticks per unit of cost. -/
  modelCostScale : ℕ := 0
  /-- Identity of the provider type; zero for none. -/
  modelProviderIdentity : ℕ := 0
  /-- Identity of the provider object. -/
  modelProviderInstanceIdentity : Option ℕ := none
  /-- Revision of the provider. -/
  modelProviderRevision : ℕ := 0
  /-- Goals. -/
  goals : List Coord3 := []
  /-- Label of each tile. -/
  distance : List ℕ := []
  /-- Content versions of the chunks that the labels depend on. -/
  dependencies : List ContentVersionDependency := []
  deriving DecidableEq

namespace DistanceFieldProduct

variable (product : DistanceFieldProduct)

/-- `clear`; it leaves the extents. -/
def clear : DistanceFieldProduct :=
  { shapeSize := product.shapeSize, chunkExtent := product.chunkExtent }

/-- What is left of a product that is moved from: the vectors are empty. -/
def movedFrom : DistanceFieldProduct := { product with goals := [], distance := [], dependencies := [] }

/-- `is_valid`, for the content versions of a world. -/
def isValid (versions : ℕ → ℕ) : Bool :=
  !product.dependencies.isEmpty &&
    product.dependencies.all fun d => versions d.key == d.contentVersion

/-- How a build of a product begins: it is cleared and stamped. -/
def stamp (model : ResolvedModel) (goals : List Coord3) : DistanceFieldProduct :=
  { product.clear with
    goals := goals
    tileCount := model.shape.tileCount
    chunkCount := model.shape.chunkCount
    localTileCount := model.shape.localTileCount
    shapeSize := model.shape.size
    chunkExtent := model.shape.chunk
    modelClassIdentity := model.cls.identity
    modelLatticeIdentity := some model.shape.lattice
    modelLatticeVersion := model.shape.lattice.version
    modelStepIdentity := some model.cls.stepPolicy
    modelCostScale := model.cls.stepPolicy.costScale
    modelProviderIdentity := model.provider.identity
    modelProviderInstanceIdentity := model.provider.instanceIdentity
    modelProviderRevision := model.provider.revision }

/-- The check of `distance_field_product_path` and `weighted_distance_field_product_path` that makes
them return `NotComputed` before they look at a label. -/
def rejectedBy (model : ResolvedModel) (versions : ℕ → ℕ) : Bool :=
  product.status != .found || !product.isValid versions ||
    product.tileCount != model.shape.tileCount ||
    product.chunkCount != model.shape.chunkCount ||
    product.localTileCount != model.shape.localTileCount ||
    product.shapeSize != model.shape.size ||
    product.chunkExtent != model.shape.chunk ||
    product.modelClassIdentity != model.cls.identity ||
    product.modelLatticeIdentity != some model.shape.lattice ||
    product.modelLatticeVersion != model.shape.lattice.version ||
    product.modelStepIdentity != some model.cls.stepPolicy ||
    product.modelCostScale != model.cls.stepPolicy.costScale ||
    product.modelProviderIdentity != model.provider.identity ||
    product.modelProviderInstanceIdentity != model.provider.instanceIdentity ||
    product.modelProviderRevision != model.provider.revision

end DistanceFieldProduct

/-! ### Keys -/

/-- `FieldProductCache::Key`. -/
structure FieldKey where
  /-- Identity of the movement class. -/
  movementClass : ℕ
  /-- Number of tiles. -/
  tileCount : ℕ
  /-- Number of chunks. -/
  chunkCount : ℕ
  /-- Tiles of one chunk. -/
  localTileCount : ℕ
  /-- Tiles along each axis. -/
  shapeSize : Extent3
  /-- Tiles of one chunk along each axis. -/
  chunkExtent : Extent3
  /-- Identity of the lattice. -/
  latticeIdentity : Lattice
  /-- Version of the lattice. -/
  latticeVersion : ℕ
  /-- Identity of the step policy. -/
  stepIdentity : StepPolicy
  /-- Ticks per unit of cost. -/
  costScale : ℕ
  /-- Identity of the provider type. -/
  providerIdentity : ℕ
  /-- Identity of the provider object. -/
  providerInstanceIdentity : Option ℕ
  /-- Revision of the provider. -/
  providerRevision : ℕ
  /-- Goals. -/
  goals : List Coord3
  deriving DecidableEq

/-- `make_key_for_class`. -/
def makeKeyForClass (model : ResolvedModel) (goals : List Coord3) : FieldKey where
  movementClass := model.cls.identity
  tileCount := model.shape.tileCount
  chunkCount := model.shape.chunkCount
  localTileCount := model.shape.localTileCount
  shapeSize := model.shape.size
  chunkExtent := model.shape.chunk
  latticeIdentity := model.shape.lattice
  latticeVersion := model.shape.lattice.version
  stepIdentity := model.cls.stepPolicy
  costScale := model.cls.stepPolicy.costScale
  providerIdentity := model.provider.identity
  providerInstanceIdentity := model.provider.instanceIdentity
  providerRevision := model.provider.revision
  goals := goals

namespace FieldKey

variable (key : FieldKey)

/-- `key_matches_product`. -/
def matchesProduct (product : DistanceFieldProduct) : Bool :=
  product.modelClassIdentity = key.movementClass &&
    product.tileCount = key.tileCount &&
    product.chunkCount = key.chunkCount &&
    product.localTileCount = key.localTileCount &&
    product.modelLatticeIdentity = some key.latticeIdentity &&
    product.modelLatticeVersion = key.latticeVersion &&
    product.modelStepIdentity = some key.stepIdentity &&
    product.modelCostScale = key.costScale &&
    product.modelProviderIdentity = key.providerIdentity &&
    product.modelProviderInstanceIdentity = key.providerInstanceIdentity &&
    product.modelProviderRevision = key.providerRevision

/-- `keys_equal`. -/
def keysEqual (rhs : FieldKey) : Bool :=
  key.movementClass = rhs.movementClass &&
    key.tileCount = rhs.tileCount &&
    key.chunkCount = rhs.chunkCount &&
    key.localTileCount = rhs.localTileCount &&
    key.shapeSize = rhs.shapeSize &&
    key.chunkExtent = rhs.chunkExtent &&
    key.latticeIdentity = rhs.latticeIdentity &&
    key.latticeVersion = rhs.latticeVersion &&
    key.stepIdentity = rhs.stepIdentity &&
    key.costScale = rhs.costScale &&
    key.providerIdentity = rhs.providerIdentity &&
    key.providerInstanceIdentity = rhs.providerInstanceIdentity &&
    key.providerRevision = rhs.providerRevision &&
    key.goals = rhs.goals

/-- `key_matches_class`. -/
def matchesClass (model : ResolvedModel) (goals : List Coord3) : Bool :=
  key.movementClass = model.cls.identity &&
    key.tileCount = model.shape.tileCount &&
    key.chunkCount = model.shape.chunkCount &&
    key.localTileCount = model.shape.localTileCount &&
    key.shapeSize = model.shape.size &&
    key.chunkExtent = model.shape.chunk &&
    key.latticeIdentity = model.shape.lattice &&
    key.latticeVersion = model.shape.lattice.version &&
    key.stepIdentity = model.cls.stepPolicy &&
    key.costScale = model.cls.stepPolicy.costScale &&
    key.providerIdentity = model.provider.identity &&
    key.providerInstanceIdentity = model.provider.instanceIdentity &&
    key.providerRevision = model.provider.revision &&
    key.goals = goals

end FieldKey

/-! ### The cache -/

/-- `sizeof` of the objects of an entry; `std::uint32_t` has four bytes. -/
structure FieldSizes where
  /-- `FieldProductCache::Entry`. -/
  entry : ℕ
  /-- `DistanceFieldProduct`. -/
  product : ℕ
  /-- `Coord3`. -/
  coord : ℕ
  /-- `ContentVersionDependency`. -/
  dependency : ℕ

/-- `FieldProductCache::Entry`. -/
structure FieldCacheEntry where
  /-- Key. -/
  key : FieldKey
  /-- Product. -/
  product : DistanceFieldProduct
  /-- Clock at the last use. -/
  lastUsed : ℕ
  /-- Bytes charged. -/
  bytes : ℕ
  deriving DecidableEq

/-- `FieldProductCache`; bytes are those of objects that live together in memory. -/
structure FieldProductCache where
  /-- Entries. -/
  entries : List FieldCacheEntry := []
  /-- Budget. -/
  byteBudget : ℕ
  /-- Bytes of all entries. -/
  bytes : ℕ := 0
  /-- Lookups that found a product. -/
  hits : ℕ := 0
  /-- Lookups that found none. -/
  misses : ℕ := 0
  /-- Entries that made room. -/
  evictions : ℕ := 0
  /-- Entries that were found but stale. -/
  staleRejections : ℕ := 0
  /-- 64-bit clock of uses. -/
  clock : ℕ := 0

/-- The clock of the next use. -/
def nextClock (clock : ℕ) : ℕ := (clock + 1) % 2 ^ 64

/-- `DistanceFieldProduct::byte_size`. -/
def DistanceFieldProduct.byteSize (sizes : FieldSizes) (product : DistanceFieldProduct) : ℕ :=
  product.distance.length * 4 + product.goals.length * sizes.coord +
    product.dependencies.length * sizes.dependency

/-- `entry_byte_size`. -/
def entryByteSize (sizes : FieldSizes) (key : FieldKey) (product : DistanceFieldProduct) : ℕ :=
  sizes.entry + sizes.product + key.goals.length * sizes.coord + product.byteSize sizes

/-- What a store leaves: the cache, the object of the caller, and the product stored. -/
structure FieldStoreResult where
  /-- The cache. -/
  cache : FieldProductCache
  /-- The object of the caller. -/
  product : DistanceFieldProduct
  /-- The product stored; none for a null pointer. -/
  stored : Option DistanceFieldProduct

namespace FieldProductCache

variable (sizes : FieldSizes) (c : FieldProductCache)

/-- `erase_entry`. -/
def eraseEntry (index : ℕ) : FieldProductCache :=
  { c with
    bytes := c.bytes - (c.entries[index]?.map FieldCacheEntry.bytes).getD 0
    entries := c.entries.eraseIdx index }

/-- The loop of `evict_to_budget`, with the product evicted last. -/
def evictLoop : ℕ → Option DistanceFieldProduct → FieldProductCache →
    FieldProductCache × Option DistanceFieldProduct
  | 0, recycled, c => (c, recycled)
  | fuel + 1, recycled, c =>
    if c.byteBudget < c.bytes ∧ c.entries ≠ [] then
      let oldest := Recency.oldest FieldCacheEntry.lastUsed c.entries
      let evicted := c.eraseEntry oldest
      evictLoop fuel (c.entries[oldest]?.map FieldCacheEntry.product)
        { evicted with evictions := evicted.evictions + 1 }
    else (c, recycled)

/-- `evict_to_budget`; each round takes one entry. -/
def evictToBudget : FieldProductCache × Option DistanceFieldProduct :=
  evictLoop c.entries.length none c

/-- `set_byte_budget`. -/
def setByteBudget (byteBudget : ℕ) : FieldProductCache :=
  ({ c with byteBudget := byteBudget } : FieldProductCache).evictToBudget.1

/-- `clear`. -/
def clear : FieldProductCache := { c with entries := [], bytes := 0 }

/-- The scan of a lookup. -/
def lookupModel (model : ResolvedModel) (goals : List Coord3) (versions : ℕ → ℕ) :
    FieldProductCache × Option DistanceFieldProduct :=
  let index := c.entries.findIdx fun entry => entry.key.matchesClass model goals
  match c.entries[index]? with
  | none => ({ c with misses := c.misses + 1 }, none)
  | some entry =>
    if !entry.product.isValid versions then
      (({ c with staleRejections := c.staleRejections + 1 } : FieldProductCache).eraseEntry index,
        none)
    else
      let clock := nextClock c.clock
      ({ c with
        hits := c.hits + 1
        clock := clock
        entries := c.entries.set index { entry with lastUsed := clock } }, some entry.product)

/-- `lookup`, for the content versions of a world. -/
def lookup (S : Shape) (C : FieldClass) (P : FieldProvider) (goals : List Coord3)
    (versions : ℕ → ℕ) : FieldProductCache × Option DistanceFieldProduct :=
  c.lookupModel ⟨S, C.unit, P⟩ goals versions

/-- `lookup_weighted`. -/
def lookupWeighted (S : Shape) (C : FieldClass) (P : FieldProvider) (goals : List Coord3)
    (versions : ℕ → ℕ) : FieldProductCache × Option DistanceFieldProduct :=
  c.lookupModel ⟨S, C, P⟩ goals versions

/-- `store_with_key`: the entry of the key takes the product, or a new one does. -/
def storeWithKey (product : DistanceFieldProduct) (key : FieldKey) : FieldStoreResult :=
  let bytes := entryByteSize sizes key product
  if c.byteBudget < bytes then ⟨c, product, none⟩
  else
    let clock := nextClock c.clock
    let index := c.entries.findIdx fun entry => entry.key.keysEqual key
    match c.entries[index]? with
    | some entry =>
      let replaced : FieldProductCache := { c with
        bytes := c.bytes - entry.bytes + bytes
        clock := clock
        entries := c.entries.set index ⟨entry.key, product, clock, bytes⟩ }
      -- the caller gets the buffers of the old product
      ⟨replaced.evictToBudget.1, entry.product.clear, some product⟩
    | none =>
      let appended : FieldProductCache := { c with
        bytes := c.bytes + bytes
        clock := clock
        entries := c.entries ++ [⟨key, product, clock, bytes⟩] }
      let evicted := appended.evictToBudget
      match evicted.2 with
      | some recycled => ⟨evicted.1, recycled.clear, some product⟩
      | none => ⟨evicted.1, product.movedFrom, some product⟩

/-- A store of a product under a model. -/
def storeModel (model : ResolvedModel) (product : DistanceFieldProduct) : FieldStoreResult :=
  if product.status ≠ .found then ⟨c, product, none⟩
  else
    let key := makeKeyForClass model product.goals
    if !key.matchesProduct product then ⟨c, product, none⟩ else c.storeWithKey sizes product key

/-- `store` and `store_reusing`. -/
def store (S : Shape) (C : FieldClass) (P : FieldProvider) (product : DistanceFieldProduct) :
    FieldStoreResult := c.storeModel sizes ⟨S, C.unit, P⟩ product

/-- `store_weighted` and `store_weighted_reusing`. -/
def storeWeighted (S : Shape) (C : FieldClass) (P : FieldProvider)
    (product : DistanceFieldProduct) : FieldStoreResult := c.storeModel sizes ⟨S, C, P⟩ product

end FieldProductCache

/-! ### Sequences of calls -/

/-- Calls of a cache. -/
inductive FieldCacheOp
  | lookup (S : Shape) (C : FieldClass) (P : FieldProvider) (goals : List Coord3)
      (versions : ℕ → ℕ)
  | lookupWeighted (S : Shape) (C : FieldClass) (P : FieldProvider) (goals : List Coord3)
      (versions : ℕ → ℕ)
  | store (S : Shape) (C : FieldClass) (P : FieldProvider) (product : DistanceFieldProduct)
  | storeWeighted (S : Shape) (C : FieldClass) (P : FieldProvider)
      (product : DistanceFieldProduct)
  | setByteBudget (byteBudget : ℕ)
  | clear

namespace FieldProductCache

variable (sizes : FieldSizes)

/-- One call. -/
def step (c : FieldProductCache) : FieldCacheOp → FieldProductCache
  | .lookup S C P goals versions => (c.lookup S C P goals versions).1
  | .lookupWeighted S C P goals versions => (c.lookupWeighted S C P goals versions).1
  | .store S C P product => (c.store sizes S C P product).cache
  | .storeWeighted S C P product => (c.storeWeighted sizes S C P product).cache
  | .setByteBudget byteBudget => c.setByteBudget byteBudget
  | .clear => c.clear

/-- A sequence of calls. -/
def run (ops : List FieldCacheOp) (c : FieldProductCache) : FieldProductCache :=
  ops.foldl (step sizes) c

end FieldProductCache

end Tess
