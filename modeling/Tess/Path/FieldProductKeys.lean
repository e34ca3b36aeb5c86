import Tess.Path.FieldProductRuns

/-!
# What a cached field was built for

A key, the check of a store, the comparison of keys and the check of the readers each list the
stamps of a product.  The check of a store leaves out the extents of shape and chunk.

* `DistanceFieldProduct.BuiltFor` : the stamps of a product are those of a model;
* `ExtentsKept` : the extents are right whenever the other stamps are;
* `FieldProductCache.Described` : the keys describe the products, in every state;
* `field_product_lookup_built` : **a lookup finds what was built for its world**, if all stores
  keep the extents.
-/

namespace Tess

open FieldProductCache

/-! ### Stamps -/

/-- **The product was built for the model.** -/
structure DistanceFieldProduct.BuiltFor (product : DistanceFieldProduct) (model : ResolvedModel) :
    Prop where
  /-- Number of tiles. -/
  tileCount : product.tileCount = model.shape.tileCount
  /-- Number of chunks. -/
  chunkCount : product.chunkCount = model.shape.chunkCount
  /-- Tiles of one chunk. -/
  localTileCount : product.localTileCount = model.shape.localTileCount
  /-- Tiles along each axis. -/
  shapeSize : product.shapeSize = model.shape.size
  /-- Tiles of one chunk along each axis. -/
  chunkExtent : product.chunkExtent = model.shape.chunk
  /-- Movement class. -/
  classIdentity : product.modelClassIdentity = model.cls.identity
  /-- Lattice. -/
  lattice : product.modelLatticeIdentity = some model.shape.lattice
  /-- Version of the lattice. -/
  latticeVersion : product.modelLatticeVersion = model.shape.lattice.version
  /-- Step policy. -/
  stepPolicy : product.modelStepIdentity = some model.cls.stepPolicy
  /-- Ticks per unit of cost. -/
  costScale : product.modelCostScale = model.cls.stepPolicy.costScale
  /-- Type of the provider. -/
  provider : product.modelProviderIdentity = model.provider.identity
  /-- The provider. -/
  providerInstance : product.modelProviderInstanceIdentity = model.provider.instanceIdentity
  /-- Its revision. -/
  providerRevision : product.modelProviderRevision = model.provider.revision

section Stamps

variable {product : DistanceFieldProduct} {model : ResolvedModel} {goals : List Coord3}
  {versions : ℕ → ℕ}

variable (goals) in
/-- **The check of a store** is that of the stamps, but for the extents. -/
theorem builtFor_iff : product.BuiltFor model ↔
    (makeKeyForClass model goals).matchesProduct product = true ∧
      product.shapeSize = model.shape.size ∧ product.chunkExtent = model.shape.chunk := by
  simp only [FieldKey.matchesProduct, Bool.and_eq_true, decide_eq_true_eq]
  constructor
  · intro h
    exact ⟨⟨⟨⟨⟨⟨⟨⟨⟨⟨⟨h.classIdentity, h.tileCount⟩, h.chunkCount⟩, h.localTileCount⟩, h.lattice⟩,
      h.latticeVersion⟩, h.stepPolicy⟩, h.costScale⟩, h.provider⟩, h.providerInstance⟩,
      h.providerRevision⟩, h.shapeSize, h.chunkExtent⟩
  · rintro ⟨⟨⟨⟨⟨⟨⟨⟨⟨⟨⟨hcls, htile⟩, hchunk⟩, hlocal⟩, hlattice⟩, hversion⟩, hstep⟩, hcost⟩, hprov⟩,
      hinst⟩, hrev⟩, hsize, hextent⟩
    exact ⟨htile, hchunk, hlocal, hsize, hextent, hcls, hlattice, hversion, hstep, hcost, hprov,
      hinst, hrev⟩

/-- **The check of the readers** is that of all stamps. -/
theorem rejectedBy_eq_false : product.rejectedBy model versions = false ↔
    product.status = .found ∧ product.isValid versions = true ∧ product.BuiltFor model := by
  simp only [DistanceFieldProduct.rejectedBy, Bool.or_eq_false_iff, bne_eq_false_iff_eq,
    Bool.not_eq_false']
  constructor
  · rintro ⟨⟨⟨⟨⟨⟨⟨⟨⟨⟨⟨⟨⟨⟨hstatus, hvalid⟩, htile⟩, hchunk⟩, hlocal⟩, hsize⟩, hextent⟩, hcls⟩, hlattice⟩,
      hversion⟩, hstep⟩, hcost⟩, hprov⟩, hinst⟩, hrev⟩
    exact ⟨hstatus, hvalid, htile, hchunk, hlocal, hsize, hextent, hcls, hlattice, hversion, hstep,
      hcost, hprov, hinst, hrev⟩
  · rintro ⟨hstatus, hvalid, h⟩
    exact ⟨⟨⟨⟨⟨⟨⟨⟨⟨⟨⟨⟨⟨⟨hstatus, hvalid⟩, h.tileCount⟩, h.chunkCount⟩, h.localTileCount⟩,
      h.shapeSize⟩, h.chunkExtent⟩, h.classIdentity⟩, h.lattice⟩, h.latticeVersion⟩, h.stepPolicy⟩,
      h.costScale⟩, h.provider⟩, h.providerInstance⟩, h.providerRevision⟩

end Stamps

/-- **A store keeps the extents**: a product whose other stamps are those of the model has its
extents too. -/
def ExtentsKept (model : ResolvedModel) (product : DistanceFieldProduct) : Prop :=
  (makeKeyForClass model product.goals).matchesProduct product = true →
    product.shapeSize = model.shape.size ∧ product.chunkExtent = model.shape.chunk

/-- The stores among the calls keep the extents. -/
def FieldCacheOp.ExtentsKept : FieldCacheOp → Prop
  | .store S C P product => Tess.ExtentsKept ⟨S, C.unit, P⟩ product
  | .storeWeighted S C P product => Tess.ExtentsKept ⟨S, C, P⟩ product
  | _ => True

namespace FieldProductCache

variable {sizes : FieldSizes} {c : FieldProductCache}

/-- **The key of an entry describes its product**, for every model that has this key. -/
def Described (e : FieldCacheEntry) : Prop :=
  e.product.status = .found ∧ ∀ (model : ResolvedModel) (goals : List Coord3),
    e.key = makeKeyForClass model goals → e.product.BuiltFor model ∧ e.product.goals = goals

theorem described_of_store {model : ResolvedModel} {product : DistanceFieldProduct}
    (hstatus : product.status = .found) (hbuilt : product.BuiltFor model) (clock bytes : ℕ) :
    Described ⟨makeKeyForClass model product.goals, product, clock, bytes⟩ := by
  refine ⟨hstatus, fun model' goals hkey => ?_⟩
  have hkey' : makeKeyForClass model product.goals = makeKeyForClass model' goals := hkey
  have hbuilt' := (builtFor_iff product.goals).1 hbuilt
  -- the keys agree, and with them the checks against the two models
  have hextents : model.shape.size = model'.shape.size ∧ model.shape.chunk = model'.shape.chunk :=
    ⟨congrArg FieldKey.shapeSize hkey', congrArg FieldKey.chunkExtent hkey'⟩
  refine ⟨(builtFor_iff goals).2 ⟨hkey' ▸ hbuilt'.1, hbuilt'.2.1.trans hextents.1,
    hbuilt'.2.2.trans hextents.2⟩, congrArg FieldKey.goals hkey'⟩

/-- Described by another clock. -/
theorem Described.congr {e e' : FieldCacheEntry} (h : Described e) (hkey : e'.key = e.key)
    (hproduct : e'.product = e.product) : Described e' := by
  unfold Described
  rw [hkey, hproduct]
  exact h

/-- All entries are described. -/
def AllDescribed (c : FieldProductCache) : Prop := ∀ e ∈ c.entries, Described e

theorem evictLoop_sublist (fuel : ℕ) (recycled : Option DistanceFieldProduct)
    (c : FieldProductCache) : (evictLoop fuel recycled c).1.entries.Sublist c.entries := by
  induction fuel generalizing c recycled with
  | zero => exact .refl _
  | succ fuel ih =>
    rw [evictLoop]
    split
    · exact (ih _ _).trans (List.eraseIdx_sublist _ _)
    · exact .refl _

theorem AllDescribed.evictToBudget (h : AllDescribed c) : AllDescribed c.evictToBudget.1 :=
  fun e he => h e ((evictLoop_sublist _ _ _).mem he)

theorem AllDescribed.set (h : AllDescribed c) {e : FieldCacheEntry} (he : Described e) (i : ℕ) :
    ∀ e' ∈ c.entries.set i e, Described e' := by
  intro e' he'
  rcases List.mem_or_eq_of_mem_set he' with he' | rfl
  · exact h e' he'
  · exact he

/-- **A lookup** keeps the keys, and finds a product of its model. -/
theorem lookupModel_built (h : AllDescribed c) (model : ResolvedModel) (goals : List Coord3)
    (versions : ℕ → ℕ) :
    AllDescribed (c.lookupModel model goals versions).1 ∧
      ∀ product, (c.lookupModel model goals versions).2 = some product →
        product.BuiltFor model ∧ product.goals = goals ∧
          product.rejectedBy model versions = false := by
  have hp (e : FieldCacheEntry) : e.key.matchesClass model goals = true ↔
      e.key = makeKeyForClass model goals := FieldKey.matchesClass_iff
  unfold lookupModel
  dsimp only
  rcases find_spec hp c.entries with ⟨hnone, -⟩ | ⟨a, ha, hkey⟩
  · rw [hnone]
    exact ⟨h, fun product hproduct => by cases hproduct⟩
  · rw [ha]
    have hmem := List.mem_of_getElem? ha
    dsimp only
    cases hvalid : a.product.isValid versions with
    | false =>
      rw [if_pos (show (!false) = true from rfl)]
      exact ⟨fun e he => h e ((List.eraseIdx_sublist _ _).mem he),
        fun product hproduct => by cases hproduct⟩
    | true =>
      rw [if_neg (show ¬ (!true) = true by simp)]
      have hused : Described { a with lastUsed := nextClock c.clock } := (h a hmem).congr rfl rfl
      refine ⟨h.set hused _, fun product hproduct => ?_⟩
      obtain rfl := Option.some.inj hproduct
      obtain ⟨hstatus, hdescribed⟩ := h a hmem
      obtain ⟨hbuilt, hgoals⟩ := hdescribed model goals hkey
      exact ⟨hbuilt, hgoals, rejectedBy_eq_false.2 ⟨hstatus, hvalid, hbuilt⟩⟩

/-- **A store** under a key keeps the keys. -/
theorem AllDescribed.storeWithKey (h : AllDescribed c) {model : ResolvedModel}
    {product : DistanceFieldProduct} (hstatus : product.status = .found)
    (hbuilt : product.BuiltFor model) :
    AllDescribed (c.storeWithKey sizes product (makeKeyForClass model product.goals)).cache := by
  have hp (e : FieldCacheEntry) : e.key.keysEqual (makeKeyForClass model product.goals) = true ↔
      e.key = makeKeyForClass model product.goals := FieldKey.keysEqual_iff
  unfold FieldProductCache.storeWithKey
  dsimp only
  split
  · exact h
  rcases find_spec hp c.entries with ⟨hnone, -⟩ | ⟨a, ha, hkey⟩
  · rw [hnone]
    dsimp only
    set c' : FieldProductCache := { c with
      bytes := c.bytes + entryByteSize sizes (makeKeyForClass model product.goals) product
      clock := nextClock c.clock
      entries := c.entries ++ [⟨makeKeyForClass model product.goals, product, nextClock c.clock,
        entryByteSize sizes (makeKeyForClass model product.goals) product⟩] }
    have hall : AllDescribed c' := fun e he => by
      rcases List.mem_append.1 he with he | he
      · exact h e he
      · rw [List.mem_singleton.1 he]
        exact described_of_store hstatus hbuilt _ _
    cases c'.evictToBudget.2 <;> exact hall.evictToBudget
  · rw [ha]
    dsimp only
    rw [hkey]
    refine AllDescribed.evictToBudget ?_
    exact h.set (described_of_store hstatus hbuilt _ _) _

theorem AllDescribed.storeModel (h : AllDescribed c) {model : ResolvedModel}
    {product : DistanceFieldProduct} (hkept : ExtentsKept model product) :
    AllDescribed (c.storeModel sizes model product).cache := by
  unfold FieldProductCache.storeModel
  dsimp only
  by_cases hstatus : product.status ≠ .found
  · rw [if_pos hstatus]
    exact h
  rw [if_neg hstatus]
  push Not at hstatus
  cases hmatch : (makeKeyForClass model product.goals).matchesProduct product with
  | false =>
    rw [if_pos (show (!false) = true from rfl)]
    exact h
  | true =>
    rw [if_neg (show ¬ (!true) = true by simp)]
    exact h.storeWithKey hstatus ((builtFor_iff product.goals).2
      ⟨hmatch, hkept hmatch⟩)

/-- **One call.** -/
theorem AllDescribed.step (h : AllDescribed c) {op : FieldCacheOp} (hop : op.ExtentsKept) :
    AllDescribed (c.step sizes op) := by
  cases op with
  | lookup S C P goals versions => exact (lookupModel_built h ⟨S, C.unit, P⟩ goals versions).1
  | lookupWeighted S C P goals versions => exact (lookupModel_built h ⟨S, C, P⟩ goals versions).1
  | store S C P product => exact h.storeModel hop
  | storeWeighted S C P product => exact h.storeModel hop
  | setByteBudget byteBudget => exact AllDescribed.evictToBudget h
  | clear => exact fun e he => by cases he

/-- **Any calls.** -/
theorem AllDescribed.run (h : AllDescribed c) {ops : List FieldCacheOp}
    (hops : ∀ op ∈ ops, op.ExtentsKept) : AllDescribed (run sizes ops c) := by
  induction ops generalizing c with
  | nil => exact h
  | cons op ops ih =>
    exact ih (h.step (hops op List.mem_cons_self)) fun o ho => hops o (List.mem_cons_of_mem _ ho)

/-- **A store that fits** succeeds if and only if the check of its key does. -/
theorem storeModel_stored {model : ResolvedModel} {product : DistanceFieldProduct}
    (hstatus : product.status = .found)
    (hfit : entryByteSize sizes (makeKeyForClass model product.goals) product ≤ c.byteBudget) :
    (c.storeModel sizes model product).stored.isSome ↔
      (makeKeyForClass model product.goals).matchesProduct product = true := by
  unfold FieldProductCache.storeModel
  dsimp only
  rw [if_neg (by simp [hstatus])]
  cases hmatch : (makeKeyForClass model product.goals).matchesProduct product with
  | false => simp
  | true =>
    rw [if_neg (show ¬ (!true) = true by simp)]
    refine iff_of_true ?_ rfl
    unfold FieldProductCache.storeWithKey
    dsimp only
    rw [if_neg (not_lt.2 hfit)]
    split
    · rfl
    · split <;> rfl

end FieldProductCache

/-- **A lookup finds what was built for its world**, and the reader takes it, after any calls whose
stores keep the extents; and a store that fits refuses what was not built for its world if and only
if it keeps the extents. -/
theorem field_product_lookup_built (sizes : FieldSizes) (byteBudget : ℕ)
    (ops : List FieldCacheOp) (hops : ∀ op ∈ ops, op.ExtentsKept) :
    let c := run sizes ops { byteBudget := byteBudget }
    (∀ S C P goals versions product, (c.lookup S C P goals versions).2 = some product →
      product.BuiltFor ⟨S, C.unit, P⟩ ∧ product.goals = goals ∧
        product.rejectedBy ⟨S, C.unit, P⟩ versions = false) ∧
    (∀ S C P goals versions product, (c.lookupWeighted S C P goals versions).2 = some product →
      product.BuiltFor ⟨S, C, P⟩ ∧ product.goals = goals ∧
        product.rejectedBy ⟨S, C, P⟩ versions = false) ∧
    ∀ (model : ResolvedModel) (product : DistanceFieldProduct), product.status = .found →
      entryByteSize sizes (makeKeyForClass model product.goals) product ≤ c.byteBudget →
        (((c.storeModel sizes model product).stored.isSome → product.BuiltFor model) ↔
          ExtentsKept model product) := by
  intro c
  have hall : AllDescribed c :=
    AllDescribed.run (c := { byteBudget := byteBudget }) (fun e he => by cases he) hops
  refine ⟨fun S C P goals versions product hfound => ?_,
    fun S C P goals versions product hfound => ?_, fun model product hstatus hfit => ?_⟩
  · exact (lookupModel_built hall ⟨S, C.unit, P⟩ goals versions).2 product hfound
  · exact (lookupModel_built hall ⟨S, C, P⟩ goals versions).2 product hfound
  · rw [storeModel_stored hstatus hfit, builtFor_iff product.goals]
    exact ⟨fun h hmatch => (h hmatch).2, fun h hmatch => ⟨hmatch, h hmatch⟩⟩

/-! ### Two shapes with the same counts -/

theorem stacked_size : (⟨1, 2, 1⟩ : Extent3).IsValid := by decide

theorem stacked_chunk :
    isPowerOfTwo 1 = true ∧ isPowerOfTwo 1 = true ∧ isPowerOfTwo 1 = true := by decide

theorem stacked_divisible : 1 % 1 = 0 ∧ 2 % 1 = 0 ∧ 1 % 1 = 0 := by decide

theorem stacked_lattice : Lattice.orthogonal = .hexAxial → 1 = 1 ∧ 1 = 1 := by decide

theorem stacked_chunk_count : 1 / 1 * (2 / 1) * (1 / 1) < 2 ^ 64 := by decide

theorem stacked_local : 1 * 1 * 1 < 2 ^ 64 := by decide

theorem stacked_axis : 1 < 2 ^ 63 ∧ 2 < 2 ^ 63 ∧ 1 < 2 ^ 63 := by decide

/-- Two cells, one above the other. -/
def stackedCells : Shape where
  size := ⟨1, 2, 1⟩
  chunk := ⟨1, 1, 1⟩
  lattice := .orthogonal
  size_valid := stacked_size
  chunk_pow := stacked_chunk
  divisible := stacked_divisible
  lattice_valid := stacked_lattice
  chunk_count_fits := stacked_chunk_count
  local_count_fits := stacked_local
  axis_fits := stacked_axis

/-- **A field of a row is stored under a column**, found there, and rejected by the reader. -/
theorem stacked_lookup_rejected :
    leftField.BuiltFor pairModel ∧
    (({ byteBudget := pairBudget } : FieldProductCache).store pairSizes stackedCells pairClass
      plainProvider leftField).stored = some leftField ∧
    ((run pairSizes [.store stackedCells pairClass plainProvider leftField]
      { byteBudget := pairBudget }).lookup stackedCells pairClass plainProvider [⟨0, 0, 0⟩]
        fun _ => 0).2 = some leftField ∧
    leftField.shapeSize ≠ stackedCells.size ∧
    leftField.rejectedBy ⟨stackedCells, pairClass.unit, plainProvider⟩ (fun _ => 0) = true :=
  ⟨⟨rfl, rfl, rfl, rfl, rfl, rfl, rfl, rfl, rfl, rfl, rfl, rfl, rfl⟩, by decide +kernel,
    by decide +kernel, by decide, by decide +kernel⟩

/-- A store under its own world. -/
theorem field_product_lookup_built_left :
    leftField.rejectedBy pairModel (fun _ => 0) = false :=
  ((field_product_lookup_built pairSizes pairBudget
    [.store twoCells pairClass plainProvider leftField] (by
      intro op hop
      rw [List.mem_singleton.1 hop]
      exact fun _ => ⟨rfl, rfl⟩)).1 twoCells pairClass plainProvider [⟨0, 0, 0⟩] (fun _ => 0)
        leftField (by decide +kernel)).2.2

end Tess
