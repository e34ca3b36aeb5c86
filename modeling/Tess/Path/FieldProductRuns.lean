import Tess.Path.FieldProductCache
import Tess.Storage.Dirty
import Mathlib.Algebra.BigOperators.Group.List.Basic

/-!
# Runs of the cache of distance fields

The cache keeps the products in any order with the clock of their last use.  It is to behave as a
list of products from the oldest use on, which forgets from the front.

* `FieldLru` : that list, with the same calls;
* `FieldProductCache.Inv` : bytes, budget and keys, in every state;
* `FieldProductCache.Follows` : **the cache follows the list** until the clock wraps;
* `field_product_cache_runs` : **what holds after any calls**.
-/

namespace Tess

open Recency

/-! ### The list of uses -/

/-- A product with its key and its bytes. -/
structure FieldUse where
  /-- Key. -/
  key : FieldKey
  /-- Product. -/
  product : DistanceFieldProduct
  /-- Bytes. -/
  bytes : ℕ

/-- An entry without its clock. -/
def FieldCacheEntry.use (e : FieldCacheEntry) : FieldUse := ⟨e.key, e.product, e.bytes⟩

/-- **A cache as it should be**: products from the oldest use on, and a budget. -/
structure FieldLru where
  /-- Products, the oldest use first. -/
  uses : List FieldUse := []
  /-- Budget. -/
  byteBudget : ℕ

namespace FieldLru

variable (sizes : FieldSizes) (l : FieldLru)

/-- A stale product is dropped, and a valid one becomes the newest. -/
def lookupModel (model : ResolvedModel) (goals : List Coord3) (versions : ℕ → ℕ) : FieldLru :=
  let key := makeKeyForClass model goals
  match l.uses.find? fun u => u.key = key with
  | none => l
  | some u =>
    let others := l.uses.filter fun v => v.key ≠ key
    if u.product.isValid versions then { l with uses := others ++ [u] }
    else { l with uses := others }

/-- A product that fits takes the place of that of its key and becomes the newest; the oldest make
room. -/
def storeWithKey (product : DistanceFieldProduct) (key : FieldKey) : FieldLru :=
  let bytes := entryByteSize sizes key product
  if l.byteBudget < bytes then l
  else
    { l with
      uses := trim FieldUse.bytes l.byteBudget
        ((l.uses.filter fun v => v.key ≠ key) ++ [⟨key, product, bytes⟩]) }

/-- A found product whose stamps are those of the model is stored. -/
def storeModel (model : ResolvedModel) (product : DistanceFieldProduct) : FieldLru :=
  let key := makeKeyForClass model product.goals
  if product.status = .found ∧ key.matchesProduct product = true then
    l.storeWithKey sizes product key
  else l

/-- One call. -/
def step : FieldCacheOp → FieldLru
  | .lookup S C P goals versions => l.lookupModel ⟨S, C.unit, P⟩ goals versions
  | .lookupWeighted S C P goals versions => l.lookupModel ⟨S, C, P⟩ goals versions
  | .store S C P product => l.storeModel sizes ⟨S, C.unit, P⟩ product
  | .storeWeighted S C P product => l.storeModel sizes ⟨S, C, P⟩ product
  | .setByteBudget byteBudget => ⟨trim FieldUse.bytes byteBudget l.uses, byteBudget⟩
  | .clear => { l with uses := [] }

/-- A sequence of calls. -/
def run (ops : List FieldCacheOp) : FieldLru := ops.foldl (step sizes) l

end FieldLru

/-- **A product is empty**: it has no goals, labels or dependencies. -/
def DistanceFieldProduct.Empty (product : DistanceFieldProduct) : Prop :=
  product.goals = [] ∧ product.distance = [] ∧ product.dependencies = []

/-! ### Keys -/

theorem FieldKey.keysEqual_iff {key rhs : FieldKey} : key.keysEqual rhs = true ↔ key = rhs := by
  cases key
  cases rhs
  simp only [FieldKey.keysEqual, Bool.and_eq_true, decide_eq_true_eq, FieldKey.mk.injEq, and_assoc]

theorem FieldKey.matchesClass_iff {key : FieldKey} {model : ResolvedModel} {goals : List Coord3} :
    key.matchesClass model goals = true ↔ key = makeKeyForClass model goals := by
  cases key
  simp only [FieldKey.matchesClass, makeKeyForClass, Bool.and_eq_true, decide_eq_true_eq,
    FieldKey.mk.injEq, and_assoc]

namespace FieldProductCache

variable {sizes : FieldSizes} {c : FieldProductCache} {l : FieldLru}

/-! ### The invariant -/

/-- **What holds in every state.** -/
structure Inv (sizes : FieldSizes) (c : FieldProductCache) : Prop where
  /-- Bytes are those of the entries. -/
  bytes_eq : c.bytes = (c.entries.map FieldCacheEntry.bytes).sum
  /-- An entry is charged for what it has. -/
  charged : ∀ e ∈ c.entries, e.bytes = entryByteSize sizes e.key e.product
  /-- Keys are distinct. -/
  nodup : (c.entries.map FieldCacheEntry.key).Nodup

theorem Inv.key_inj (h : Inv sizes c) {a b : FieldCacheEntry} (ha : a ∈ c.entries)
    (hb : b ∈ c.entries) (heq : a.key = b.key) : a = b :=
  List.inj_on_of_nodup_map h.nodup ha hb heq

/-- The sum with one entry less. -/
theorem sum_eraseIdx {E : Type*} (f : E → ℕ) {es : List E} {i : ℕ} {a : E}
    (ha : es[i]? = some a) : ((es.eraseIdx i).map f).sum + f a = (es.map f).sum := by
  obtain ⟨hi, rfl⟩ := List.getElem?_eq_some_iff.1 ha
  have hperm : (es[i] :: es.eraseIdx i).Perm es := List.getElem_cons_eraseIdx_perm hi
  have hsum := (hperm.map f).sum_eq
  rw [List.map_cons, List.sum_cons] at hsum
  omega

/-- **An entry is taken out.** -/
theorem Inv.eraseEntry (h : Inv sizes c) (i : ℕ) : Inv sizes (c.eraseEntry i) := by
  have hsub : (c.entries.eraseIdx i).Sublist c.entries := List.eraseIdx_sublist _ _
  refine ⟨?_, fun e he => h.charged e (hsub.mem he), h.nodup.sublist (hsub.map _)⟩
  show c.bytes - _ = ((c.entries.eraseIdx i).map _).sum
  cases ha : c.entries[i]? with
  | none =>
    rw [List.eraseIdx_of_length_le (List.getElem?_eq_none_iff.1 ha)]
    exact h.bytes_eq
  | some a =>
    have hsum := sum_eraseIdx FieldCacheEntry.bytes ha
    have hbytes := h.bytes_eq
    rw [Option.map_some, Option.getD_some]
    omega

/-! ### Making room -/

/-- **What making room leaves.** -/
structure Evicted (sizes : FieldSizes) (c c' : FieldProductCache) : Prop where
  /-- The invariant. -/
  inv : Inv sizes c'
  /-- The budget is met. -/
  within : c'.bytes ≤ c'.byteBudget
  /-- The budget is the same. -/
  budget : c'.byteBudget = c.byteBudget
  /-- The clock is the same. -/
  clock : c'.clock = c.clock
  /-- No entry is new. -/
  sublist : c'.entries.Sublist c.entries
  /-- The oldest uses are forgotten. -/
  uses : ∀ uses, ByUse FieldCacheEntry.lastUsed c.entries uses →
    ByUse FieldCacheEntry.lastUsed c'.entries (trim FieldCacheEntry.bytes c.byteBudget uses)

/-- **The loop that makes room.** -/
theorem evictLoop_spec {fuel : ℕ} (recycled : Option DistanceFieldProduct) (h : Inv sizes c)
    (hfuel : c.entries.length ≤ fuel) : Evicted sizes c (evictLoop fuel recycled c).1 := by
  induction fuel generalizing c recycled with
  | zero =>
    have hnil : c.entries = [] := List.length_eq_zero_iff.1 (by omega)
    have hbytes := h.bytes_eq
    rw [hnil] at hbytes
    refine ⟨h, by rw [evictLoop, hbytes]; exact Nat.zero_le _, rfl, rfl, .refl _, fun uses hu => ?_⟩
    rw [hnil] at hu
    rw [List.Perm.eq_nil hu.perm, evictLoop, hnil]
    exact .nil _
  | succ fuel ih =>
    rw [evictLoop]
    by_cases hover : c.byteBudget < c.bytes ∧ c.entries ≠ []
    · rw [if_pos hover]
      obtain ⟨a, ha, -⟩ := @oldest_spec _ FieldCacheEntry.lastUsed _ hover.2
      have hlen : (c.eraseEntry (oldest FieldCacheEntry.lastUsed c.entries)).entries.length ≤
          fuel := by
        have hi := (List.getElem?_eq_some_iff.1 ha).1
        show (c.entries.eraseIdx _).length ≤ fuel
        rw [List.length_eraseIdx_of_lt hi]
        omega
      have herased := h.eraseEntry (oldest FieldCacheEntry.lastUsed c.entries)
      have hrec := @ih { c.eraseEntry (oldest FieldCacheEntry.lastUsed c.entries) with
        evictions := c.evictions + 1 } (c.entries[oldest FieldCacheEntry.lastUsed c.entries]?.map
          FieldCacheEntry.product) ⟨herased.bytes_eq, herased.charged, herased.nodup⟩ hlen
      refine ⟨hrec.inv, hrec.within, hrec.budget, hrec.clock,
        hrec.sublist.trans (List.eraseIdx_sublist _ _), fun uses hu => ?_⟩
      cases uses with
      | nil =>
        have hnil := List.Perm.nil_eq hu.perm
        exact absurd hnil.symm hover.2
      | cons b uses =>
        obtain ⟨-, herase⟩ := hu.eraseOldest
        have hsum : ((b :: uses).map FieldCacheEntry.bytes).sum = c.bytes :=
          (hu.perm.map _).sum_eq.trans h.bytes_eq.symm
        rw [trim_cons, if_pos (hsum ▸ hover.1)]
        exact hrec.uses uses herase
    · rw [if_neg hover]
      have hwithin : c.bytes ≤ c.byteBudget := by
        by_contra hlt
        refine hover ⟨not_le.1 hlt, fun hnil => ?_⟩
        have hbytes := h.bytes_eq
        rw [hnil] at hbytes
        exact hlt (hbytes ▸ Nat.zero_le _)
      refine ⟨h, hwithin, rfl, rfl, .refl _, fun uses hu => ?_⟩
      have hsum : (uses.map FieldCacheEntry.bytes).sum = c.bytes :=
        (hu.perm.map _).sum_eq.trans h.bytes_eq.symm
      cases uses with
      | nil => exact hu
      | cons b uses =>
        rw [trim_cons, if_neg (by omega)]
        exact hu

theorem evictToBudget_spec (h : Inv sizes c) : Evicted sizes c c.evictToBudget.1 :=
  evictLoop_spec none h le_rfl

/-! ### Finding the entry of a key -/

variable {key : FieldKey} {uses : List FieldCacheEntry}

theorem find_spec {p : FieldCacheEntry → Bool} (hp : ∀ e, p e = true ↔ e.key = key)
    (es : List FieldCacheEntry) :
    (es[es.findIdx p]? = none ∧ ∀ e ∈ es, e.key ≠ key) ∨
      ∃ a, es[es.findIdx p]? = some a ∧ a.key = key := by
  by_cases hlt : es.findIdx p < es.length
  · refine .inr ⟨es[es.findIdx p], List.getElem?_eq_getElem hlt, ?_⟩
    exact (hp _).1 (List.findIdx_getElem)
  · refine .inl ⟨List.getElem?_eq_none (not_lt.1 hlt), fun e he hkey => hlt ?_⟩
    exact List.findIdx_lt_length.2 ⟨e, he, (hp e).2 hkey⟩

/-- Entries of other keys are those of other times. -/
theorem Inv.filter_uses (h : Inv sizes c) (hu : ByUse FieldCacheEntry.lastUsed c.entries uses)
    {a : FieldCacheEntry} (ha : a ∈ c.entries) :
    (uses.filter fun b => b.lastUsed ≠ a.lastUsed).map FieldCacheEntry.use =
      (uses.map FieldCacheEntry.use).filter fun v => v.key ≠ a.key := by
  rw [List.filter_map]
  refine congrArg _ (List.filter_congr fun b hb => ?_)
  have hb' := hu.mem_iff.1 hb
  have hiff : b.lastUsed ≠ a.lastUsed ↔ b.key ≠ a.key := by
    refine not_congr ⟨fun heq => ?_, fun heq => ?_⟩
    · rw [hu.time_inj hb' ha heq]
    · rw [h.key_inj hb' ha heq]
  exact decide_eq_decide.2 hiff

/-- A key without an entry is none of the list. -/
theorem filter_uses_of_fresh (hu : ByUse FieldCacheEntry.lastUsed c.entries uses)
    (hfresh : ∀ e ∈ c.entries, e.key ≠ key) :
    (uses.map FieldCacheEntry.use).filter (fun v => v.key ≠ key) =
      uses.map FieldCacheEntry.use := by
  refine List.filter_eq_self.2 fun v hv => ?_
  obtain ⟨e, he, rfl⟩ := List.mem_map.1 hv
  exact decide_eq_true (hfresh e (hu.mem_iff.1 he))

theorem find?_uses (h : Inv sizes c) (hu : ByUse FieldCacheEntry.lastUsed c.entries uses)
    {a : FieldCacheEntry} (ha : a ∈ c.entries) :
    (uses.map FieldCacheEntry.use).find? (fun v => v.key = a.key) = some a.use := by
  have hmem : a.use ∈ uses.map FieldCacheEntry.use := List.mem_map_of_mem (hu.mem_iff.2 ha)
  cases hfind : (uses.map FieldCacheEntry.use).find? (fun v => v.key = a.key) with
  | none =>
    have hne : ¬ a.use.key = a.key := by simpa using List.find?_eq_none.1 hfind a.use hmem
    exact absurd rfl hne
  | some u =>
    have hkey : u.key = a.key := by simpa using List.find?_some hfind
    obtain ⟨b, hb, rfl⟩ := List.mem_map.1 (List.mem_of_find?_eq_some hfind)
    rw [h.key_inj (hu.mem_iff.1 hb) ha hkey]

theorem find?_uses_of_fresh (hu : ByUse FieldCacheEntry.lastUsed c.entries uses)
    (hfresh : ∀ e ∈ c.entries, e.key ≠ key) :
    (uses.map FieldCacheEntry.use).find? (fun v => v.key = key) = none := by
  refine List.find?_eq_none.2 fun v hv => ?_
  obtain ⟨e, he, rfl⟩ := List.mem_map.1 hv
  rw [decide_eq_true_eq]
  exact hfresh e (hu.mem_iff.1 he)

/-! ### Calls -/

/-- **The cache follows the list of uses.** -/
structure Follows (c : FieldProductCache) (l : FieldLru) : Prop where
  /-- In order of their last uses, the entries are those of the list. -/
  uses : ∃ uses, ByUse FieldCacheEntry.lastUsed c.entries uses ∧
    uses.map FieldCacheEntry.use = l.uses
  /-- The budgets agree. -/
  budget : l.byteBudget = c.byteBudget
  /-- No use is ahead of the clock. -/
  clock : ∀ e ∈ c.entries, e.lastUsed ≤ c.clock

/-- **An entry changes** under its key. -/
theorem Inv.set (h : Inv sizes c) {i : ℕ} {a b : FieldCacheEntry} (ha : c.entries[i]? = some a)
    (hkey : b.key = a.key) (hb : b.bytes = entryByteSize sizes b.key b.product) {bytes : ℕ}
    (hbytes : bytes + a.bytes = c.bytes + b.bytes) :
    Inv sizes { c with bytes := bytes, entries := c.entries.set i b } := by
  obtain ⟨hi, hget⟩ := List.getElem?_eq_some_iff.1 ha
  refine ⟨?_, fun e he => ?_, ?_⟩
  · have hsum := sum_eraseIdx FieldCacheEntry.bytes ha
    have hset : (c.entries.set i b)[i]? = some b := by
      rw [List.getElem?_set_self hi]
    have hsum' := sum_eraseIdx FieldCacheEntry.bytes hset
    rw [List.eraseIdx_set_eq] at hsum'
    have hall := h.bytes_eq
    show bytes = ((c.entries.set i b).map _).sum
    omega
  · rcases List.mem_or_eq_of_mem_set he with he | rfl
    · exact h.charged e he
    · exact hb
  · show ((c.entries.set i b).map FieldCacheEntry.key).Nodup
    have hsame : (c.entries.set i b).map FieldCacheEntry.key =
        c.entries.map FieldCacheEntry.key := by
      rw [List.map_set, hkey, ← hget, ← List.getElem_map FieldCacheEntry.key,
        List.set_getElem_self]
      simpa using hi
    rw [hsame]
    exact h.nodup

theorem Inv.append (h : Inv sizes c) {b : FieldCacheEntry} (hfresh : ∀ e ∈ c.entries, e.key ≠ b.key)
    (hb : b.bytes = entryByteSize sizes b.key b.product) :
    Inv sizes { c with bytes := c.bytes + b.bytes, entries := c.entries ++ [b] } := by
  refine ⟨?_, fun e he => ?_, ?_⟩
  · show c.bytes + b.bytes = ((c.entries ++ [b]).map _).sum
    rw [List.map_append, List.sum_append, h.bytes_eq, List.map_singleton, List.sum_singleton]
  · rcases List.mem_append.1 he with he | he
    · exact h.charged e he
    · rw [List.mem_singleton.1 he]
      exact hb
  · show ((c.entries ++ [b]).map FieldCacheEntry.key).Nodup
    rw [List.map_append, List.map_singleton]
    refine List.nodup_append.2 ⟨h.nodup, List.nodup_singleton _, fun k hk k' hk' => ?_⟩
    obtain ⟨e, he, rfl⟩ := List.mem_map.1 hk
    rw [List.mem_singleton.1 hk']
    exact hfresh e he

/-- **What a call leaves**: the list of uses changes in its own way. -/
structure Called (sizes : FieldSizes) (c c' : FieldProductCache) (f : FieldLru → FieldLru) :
    Prop where
  /-- The invariant. -/
  inv : Inv sizes c'
  /-- The budget is met. -/
  within : c'.bytes ≤ c'.byteBudget
  /-- The list of uses is followed, as long as the clock does not wrap. -/
  follows : ∀ l, Follows c l → c.clock + 1 < 2 ^ 64 → Follows c' (f l) ∧ c'.clock ≤ c.clock + 1

theorem nextClock_eq {clock : ℕ} (h : clock + 1 < 2 ^ 64) : nextClock clock = clock + 1 :=
  Nat.mod_eq_of_lt h

/-- A call that leaves the cache and the list as they are. -/
theorem Called.same {f : FieldLru → FieldLru} (h : Inv sizes c) (hw : c.bytes ≤ c.byteBudget)
    (hf : ∀ l, Follows c l → f l = l) : Called sizes c c f :=
  ⟨h, hw, fun l hl _ => ⟨(hf l hl).symm ▸ hl, Nat.le_succ _⟩⟩

/-- A lookup of a key that has an entry. -/
theorem lookupModel_uses (h : Inv sizes c) (hu : ByUse FieldCacheEntry.lastUsed c.entries uses)
    (hmap : uses.map FieldCacheEntry.use = l.uses) {a : FieldCacheEntry} (ha : a ∈ c.entries)
    {model : ResolvedModel} {goals : List Coord3} (hkey : a.key = makeKeyForClass model goals)
    {versions : ℕ → ℕ} :
    l.lookupModel model goals versions =
      if a.product.isValid versions then
        { l with
          uses := (l.uses.filter fun v => v.key ≠ makeKeyForClass model goals) ++ [a.use] }
      else { l with uses := l.uses.filter fun v => v.key ≠ makeKeyForClass model goals } := by
  have hfind := find?_uses h hu ha
  rw [hmap, hkey] at hfind
  unfold FieldLru.lookupModel
  dsimp only
  rw [hfind]
  rfl

/-- **A lookup.** -/
theorem lookupModel_called (h : Inv sizes c) (hw : c.bytes ≤ c.byteBudget) (model : ResolvedModel)
    (goals : List Coord3) (versions : ℕ → ℕ) :
    Called sizes c (c.lookupModel model goals versions).1
      fun l => l.lookupModel model goals versions := by
  have hp (e : FieldCacheEntry) : e.key.matchesClass model goals = true ↔
      e.key = makeKeyForClass model goals := FieldKey.matchesClass_iff
  unfold lookupModel
  dsimp only
  rcases find_spec hp c.entries with ⟨hnone, hfresh⟩ | ⟨a, ha, hkey⟩
  · rw [hnone]
    refine ⟨⟨h.bytes_eq, h.charged, h.nodup⟩, hw, fun l hl _ => ⟨?_, Nat.le_succ _⟩⟩
    obtain ⟨uses, hu, hmap⟩ := hl.uses
    have hsame : l.lookupModel model goals versions = l := by
      unfold FieldLru.lookupModel
      dsimp only
      rw [← hmap, find?_uses_of_fresh hu hfresh]
    rw [hsame]
    exact ⟨hl.uses, hl.budget, hl.clock⟩
  · rw [ha]
    have hmem := List.mem_of_getElem? ha
    dsimp only
    cases hvalid : a.product.isValid versions with
    | false =>
      rw [if_pos (show (!false) = true from rfl)]
      have herase := h.eraseEntry (c.entries.findIdx fun e => e.key.matchesClass model goals)
      refine ⟨⟨herase.bytes_eq, herase.charged, herase.nodup⟩, (Nat.sub_le _ _).trans hw,
        fun l hl _ => ⟨?_, Nat.le_succ _⟩⟩
      obtain ⟨uses, hu, hmap⟩ := hl.uses
      rw [lookupModel_uses h hu hmap hmem hkey, if_neg (by simp [hvalid])]
      refine ⟨⟨_, hu.eraseIdx ha, ?_⟩, hl.budget, fun e he => ?_⟩
      · rw [h.filter_uses hu hmem, hmap, hkey]
      · exact hl.clock e ((List.eraseIdx_sublist _ _).mem he)
    | true =>
      rw [if_neg (show ¬ (!true) = true by simp)]
      have hset := @Inv.set _ _ h _ a { a with lastUsed := nextClock c.clock } ha rfl
        (h.charged a hmem) c.bytes rfl
      refine ⟨⟨hset.bytes_eq, hset.charged, hset.nodup⟩, hw, fun l hl hclock => ?_⟩
      have hnext := nextClock_eq hclock
      refine ⟨?_, hnext.le⟩
      obtain ⟨uses, hu, hmap⟩ := hl.uses
      have hnew (e : FieldCacheEntry) (he : e ∈ c.entries) :
          e.lastUsed < ({ a with lastUsed := nextClock c.clock } : FieldCacheEntry).lastUsed := by
        have := hl.clock e he
        show e.lastUsed < nextClock c.clock
        omega
      rw [lookupModel_uses h hu hmap hmem hkey, if_pos hvalid]
      refine ⟨⟨_, hu.set ha hnew, ?_⟩, hl.budget, fun e he => ?_⟩
      · rw [List.map_append, h.filter_uses hu hmem, hmap, ← hkey]
        rfl
      · show e.lastUsed ≤ nextClock c.clock
        rcases List.mem_or_eq_of_mem_set he with he | rfl
        · have := hl.clock e he
          omega
        · exact le_rfl

/-- **What a store leaves.** -/
structure Stored (sizes : FieldSizes) (c : FieldProductCache) (product : DistanceFieldProduct)
    (key : FieldKey) (r : FieldStoreResult) : Prop where
  /-- A product that does not fit changes nothing. -/
  rejected : c.byteBudget < entryByteSize sizes key product → r = ⟨c, product, none⟩
  /-- A product that fits is stored. -/
  stored : entryByteSize sizes key product ≤ c.byteBudget → r.stored = some product
  /-- The object of the caller is empty then. -/
  empty : r.stored.isSome → r.product.Empty
  /-- The product stored is in the cache. -/
  kept : ∀ l, Follows c l → c.clock + 1 < 2 ^ 64 → r.stored.isSome →
    ∃ e ∈ r.cache.entries, e.key = key ∧ e.product = product

/-- A newest entry that fits is not evicted. -/
theorem Evicted.newest {c' : FieldProductCache} (h : Evicted sizes c c') {b : FieldCacheEntry}
    (hu : ByUse FieldCacheEntry.lastUsed c.entries (uses ++ [b])) (hb : b.bytes ≤ c.byteBudget) :
    b ∈ c'.entries := by
  obtain ⟨es, hes⟩ := @trim_concat _ FieldCacheEntry.bytes c.byteBudget uses b hb
  have hkept := h.uses _ hu
  rw [hes] at hkept
  exact hkept.mem_iff.1 (by simp)

/-- **Room is made** after an entry was written as the newest. -/
theorem storeWithKey_room {c' : FieldProductCache} {b : FieldCacheEntry} (h : Inv sizes c')
    (hbudget : c'.byteBudget = c.byteBudget) (hclock : c'.clock = nextClock c.clock)
    (hb : b.bytes = entryByteSize sizes b.key b.product) (hfit : b.bytes ≤ c.byteBudget)
    (hnew : ∀ e ∈ c'.entries, e ∈ c.entries ∨ e.lastUsed = nextClock c.clock)
    (huses : ∀ l, Follows c l → c.clock + 1 < 2 ^ 64 → ∃ uses,
      ByUse FieldCacheEntry.lastUsed c'.entries (uses ++ [b]) ∧
        uses.map FieldCacheEntry.use = l.uses.filter fun v => v.key ≠ b.key) :
    Called sizes c c'.evictToBudget.1 (fun l => l.storeWithKey sizes b.product b.key) ∧
      ∀ l, Follows c l → c.clock + 1 < 2 ^ 64 → b ∈ c'.evictToBudget.1.entries := by
  have hev := evictToBudget_spec h
  refine ⟨⟨hev.inv, hev.within, fun l hl hlt => ⟨⟨?_, ?_, fun e he => ?_⟩, ?_⟩⟩, fun l hl hlt => ?_⟩
  · obtain ⟨uses, hu, hmap⟩ := huses l hl hlt
    refine ⟨_, hev.uses _ hu, ?_⟩
    have hover : ¬ l.byteBudget < entryByteSize sizes b.key b.product := by
      rw [hl.budget, ← hb]
      exact not_lt.2 hfit
    have htrim := @trim_map _ c'.byteBudget _ FieldUse.bytes FieldCacheEntry.use (uses ++ [b])
    unfold FieldLru.storeWithKey
    dsimp only
    rw [if_neg hover, ← hmap, hl.budget, ← hbudget, ← hb]
    refine htrim.symm.trans ?_
    rw [List.map_append]
    rfl
  · unfold FieldLru.storeWithKey
    dsimp only
    rw [hev.budget, hbudget, ← hl.budget]
    split <;> rfl
  · rw [hev.clock, hclock, nextClock_eq hlt]
    rcases hnew e (hev.sublist.mem he) with he | he
    · exact Nat.le_succ_of_le (hl.clock e he)
    · rw [he, nextClock_eq hlt]
  · rw [hev.clock, hclock, nextClock_eq hlt]
  · obtain ⟨uses, hu, -⟩ := huses l hl hlt
    exact hev.newest hu (hbudget ▸ hfit)

/-- **A store** under a key. -/
theorem storeWithKey_spec (h : Inv sizes c) (hw : c.bytes ≤ c.byteBudget)
    (product : DistanceFieldProduct) (key : FieldKey) :
    Called sizes c (c.storeWithKey sizes product key).cache
        (fun l => l.storeWithKey sizes product key) ∧
      Stored sizes c product key (c.storeWithKey sizes product key) := by
  have hp (e : FieldCacheEntry) : e.key.keysEqual key = true ↔ e.key = key := FieldKey.keysEqual_iff
  unfold storeWithKey
  dsimp only
  by_cases hover : c.byteBudget < entryByteSize sizes key product
  · rw [if_pos hover]
    refine ⟨.same h hw fun l hl => ?_, fun _ => rfl, fun hle => absurd hover (not_lt.2 hle),
      fun h => by simp at h, fun _ _ _ h => by simp at h⟩
    unfold FieldLru.storeWithKey
    dsimp only
    rw [if_pos (hl.budget ▸ hover)]
  rw [if_neg hover]
  have hfit := not_lt.1 hover
  set b : FieldCacheEntry := ⟨key, product, nextClock c.clock, entryByteSize sizes key product⟩
    with hbdef
  have hold (l : FieldLru) (hl : Follows c l) (hlt : c.clock + 1 < 2 ^ 64) (e : FieldCacheEntry)
      (he : e ∈ c.entries) : e.lastUsed < b.lastUsed := by
    have := hl.clock e he
    show e.lastUsed < nextClock c.clock
    rw [nextClock_eq hlt]
    omega
  rcases find_spec hp c.entries with ⟨hnone, hfresh⟩ | ⟨a, ha, hkey⟩
  · -- the key is new
    rw [hnone]
    dsimp only
    have happend := @Inv.append _ _ h b hfresh rfl
    set c' : FieldProductCache := { c with
      bytes := c.bytes + entryByteSize sizes key product
      clock := nextClock c.clock
      entries := c.entries ++ [b] } with hc'
    have hinv : Inv sizes c' := ⟨happend.bytes_eq, happend.charged, happend.nodup⟩
    obtain ⟨hcalled, hkept⟩ := @storeWithKey_room sizes c c' b hinv rfl rfl rfl hfit
      (fun e he => (List.mem_append.1 he).imp_right fun he => by rw [List.mem_singleton.1 he])
      fun l hl hlt => by
        obtain ⟨uses, hu, hmap⟩ := hl.uses
        refine ⟨uses, hu.append (hold l hl hlt), ?_⟩
        rw [← hmap]
        exact (filter_uses_of_fresh hu hfresh).symm
    cases hrecycled : c'.evictToBudget.2 with
    | none =>
      exact ⟨hcalled, fun h => absurd h hover, fun _ => rfl, fun _ => ⟨rfl, rfl, rfl⟩,
        fun l hl hlt _ => ⟨b, hkept l hl hlt, rfl, rfl⟩⟩
    | some recycled =>
      exact ⟨hcalled, fun h => absurd h hover, fun _ => rfl, fun _ => ⟨rfl, rfl, rfl⟩,
        fun l hl hlt _ => ⟨b, hkept l hl hlt, rfl, rfl⟩⟩
  · -- the entry of the key takes the product
    rw [ha]
    dsimp only
    have hmem := List.mem_of_getElem? ha
    have hbytes : a.bytes ≤ c.bytes := by
      have := sum_eraseIdx FieldCacheEntry.bytes ha
      have := h.bytes_eq
      omega
    rw [hkey]
    have hset := @Inv.set _ _ h _ a b ha hkey.symm rfl
      (c.bytes - a.bytes + entryByteSize sizes key product) (by
        show c.bytes - a.bytes + entryByteSize sizes key product + a.bytes =
          c.bytes + entryByteSize sizes key product
        omega)
    set c' : FieldProductCache := { c with
      bytes := c.bytes - a.bytes + entryByteSize sizes key product
      clock := nextClock c.clock
      entries := c.entries.set (c.entries.findIdx fun entry => entry.key.keysEqual key) b } with hc'
    have hinv : Inv sizes c' := ⟨hset.bytes_eq, hset.charged, hset.nodup⟩
    obtain ⟨hcalled, hkept⟩ := @storeWithKey_room sizes c c' b hinv rfl rfl rfl hfit
      (fun e he => (List.mem_or_eq_of_mem_set he).imp_right fun he => by rw [he])
      fun l hl hlt => by
        obtain ⟨uses, hu, hmap⟩ := hl.uses
        refine ⟨_, hu.set ha (hold l hl hlt), ?_⟩
        rw [h.filter_uses hu hmem, hmap, hkey]
    exact ⟨hcalled, fun h => absurd h hover, fun _ => rfl, fun _ => ⟨rfl, rfl, rfl⟩,
      fun l hl hlt _ => ⟨b, hkept l hl hlt, rfl, rfl⟩⟩

/-- **A store** under a model, which refuses products of other models. -/
theorem storeModel_spec (h : Inv sizes c) (hw : c.bytes ≤ c.byteBudget) (model : ResolvedModel)
    (product : DistanceFieldProduct) :
    Called sizes c (c.storeModel sizes model product).cache
        (fun l => l.storeModel sizes model product) ∧
      ((c.storeModel sizes model product).stored = none →
        c.storeModel sizes model product = ⟨c, product, none⟩) ∧
      ((c.storeModel sizes model product).stored.isSome →
        Stored sizes c product (makeKeyForClass model product.goals)
          (c.storeModel sizes model product)) := by
  unfold storeModel FieldLru.storeModel
  dsimp only
  by_cases hstatus : product.status ≠ .found
  · rw [if_pos hstatus]
    refine ⟨.same h hw fun l _ => if_neg fun h => hstatus h.1, fun _ => rfl, fun h => by simp at h⟩
  rw [if_neg hstatus]
  push Not at hstatus
  cases hmatch : (makeKeyForClass model product.goals).matchesProduct product with
  | false =>
    rw [if_pos (show (!false) = true from rfl)]
    refine ⟨.same h hw fun l _ => if_neg fun h => by simp at h, fun _ => rfl, fun h => by simp at h⟩
  | true =>
    rw [if_neg (show ¬ (!true) = true by simp)]
    obtain ⟨hcalled, hstored⟩ := storeWithKey_spec h hw product (makeKeyForClass model product.goals)
    refine ⟨⟨hcalled.inv, hcalled.within, fun l hl hlt => ?_⟩, fun hnone => ?_, fun _ => hstored⟩
    · rw [if_pos ⟨hstatus, rfl⟩]
      exact hcalled.follows l hl hlt
    · refine hstored.rejected (not_le.1 fun hle => ?_)
      rw [hstored.stored hle] at hnone
      cases hnone

theorem setByteBudget_called (h : Inv sizes c) (byteBudget : ℕ) :
    Called sizes c (c.setByteBudget byteBudget)
      fun l => ⟨trim FieldUse.bytes byteBudget l.uses, byteBudget⟩ := by
  have hinv : Inv sizes { c with byteBudget := byteBudget } := ⟨h.bytes_eq, h.charged, h.nodup⟩
  have hev := evictToBudget_spec hinv
  refine ⟨hev.inv, hev.within, fun l hl _ => ⟨⟨?_, hev.budget.symm, fun e he => ?_⟩, ?_⟩⟩
  · obtain ⟨uses, hu, hmap⟩ := hl.uses
    refine ⟨_, hev.uses uses hu, ?_⟩
    have htrim := @trim_map _ byteBudget _ FieldUse.bytes FieldCacheEntry.use uses
    rw [hmap] at htrim
    exact htrim.symm
  · exact (hl.clock e (hev.sublist.mem he)).trans hev.clock.ge
  · exact hev.clock.le.trans (Nat.le_succ _)

theorem clear_called : Called sizes c c.clear fun l => { l with uses := [] } := by
  refine ⟨⟨rfl, fun e he => (by cases he), List.nodup_nil⟩, Nat.zero_le _, fun l hl _ => ?_⟩
  exact ⟨⟨⟨[], .nil _, rfl⟩, hl.budget, fun e he => by cases he⟩, Nat.le_succ _⟩

/-! ### Runs -/

/-- **One call.** -/
theorem step_called (h : Inv sizes c) (hw : c.bytes ≤ c.byteBudget) (op : FieldCacheOp) :
    Called sizes c (c.step sizes op) fun l => l.step sizes op := by
  cases op with
  | lookup S C P goals versions => exact lookupModel_called h hw ⟨S, C.unit, P⟩ goals versions
  | lookupWeighted S C P goals versions => exact lookupModel_called h hw ⟨S, C, P⟩ goals versions
  | store S C P product => exact (storeModel_spec h hw ⟨S, C.unit, P⟩ product).1
  | storeWeighted S C P product => exact (storeModel_spec h hw ⟨S, C, P⟩ product).1
  | setByteBudget byteBudget => exact setByteBudget_called h byteBudget
  | clear => exact clear_called

/-- **Any calls.** -/
theorem run_called (ops : List FieldCacheOp) (h : Inv sizes c) (hw : c.bytes ≤ c.byteBudget) :
    Inv sizes (run sizes ops c) ∧ (run sizes ops c).bytes ≤ (run sizes ops c).byteBudget ∧
      ∀ l, Follows c l → c.clock + ops.length < 2 ^ 64 →
        Follows (run sizes ops c) (l.run sizes ops) ∧
          (run sizes ops c).clock ≤ c.clock + ops.length := by
  induction ops generalizing c with
  | nil => exact ⟨h, hw, fun l hl _ => ⟨hl, le_rfl⟩⟩
  | cons op ops ih =>
    have hstep := step_called h hw op
    obtain ⟨hinv, hwithin, hfollows⟩ := ih hstep.inv hstep.within
    refine ⟨hinv, hwithin, fun l hl hlt => ?_⟩
    rw [List.length_cons] at hlt ⊢
    obtain ⟨hl', hclock⟩ := hstep.follows l hl (by omega)
    obtain ⟨hend, hlast⟩ := hfollows (l.step sizes op) hl' (by omega)
    exact ⟨hend, hlast.trans (by omega)⟩

theorem inv_new (sizes : FieldSizes) (byteBudget : ℕ) : Inv sizes { byteBudget := byteBudget } :=
  ⟨rfl, fun e he => (by cases he), List.nodup_nil⟩

theorem follows_new (byteBudget : ℕ) :
    Follows { byteBudget := byteBudget } { byteBudget := byteBudget } :=
  ⟨⟨[], .nil _, rfl⟩, rfl, fun e he => by cases he⟩

end FieldProductCache

open FieldProductCache

/-- **What holds after any calls**, fewer than the clock can count:

* the bytes are those of the entries, each charged for what it has, and meet the budget;
* keys are distinct;
* in order of their last uses, the entries are the list that forgets the oldest use first;
* a store that is rejected changes neither the cache nor the object of the caller, and one that
  does not fit is rejected;
* a store that succeeds has its product in the cache and leaves the object of the caller empty. -/
theorem field_product_cache_runs (sizes : FieldSizes) (byteBudget : ℕ) (ops : List FieldCacheOp)
    (hlen : ops.length + 1 < 2 ^ 64) :
    let c := run sizes ops { byteBudget := byteBudget }
    let l := FieldLru.run sizes { byteBudget := byteBudget } ops
    c.bytes = (c.entries.map FieldCacheEntry.bytes).sum ∧
    (∀ e ∈ c.entries, e.bytes = entryByteSize sizes e.key e.product) ∧
    c.bytes ≤ c.byteBudget ∧
    (c.entries.map FieldCacheEntry.key).Nodup ∧
    l.byteBudget = c.byteBudget ∧
    (∃ uses, ByUse FieldCacheEntry.lastUsed c.entries uses ∧
      uses.map FieldCacheEntry.use = l.uses) ∧
    ∀ (model : ResolvedModel) (product : DistanceFieldProduct),
      let key := makeKeyForClass model product.goals
      let r := c.storeModel sizes model product
      (c.byteBudget < entryByteSize sizes key product → r.stored = none) ∧
      (r.stored = none → r = ⟨c, product, none⟩) ∧
      (r.stored.isSome → r.stored = some product ∧
        (∃ e ∈ r.cache.entries, e.key = key ∧ e.product = product) ∧ r.product.Empty) := by
  intro c l
  obtain ⟨hinv, hwithin, hfollows⟩ := run_called ops (inv_new sizes byteBudget) (Nat.zero_le _)
  obtain ⟨hf, hclock⟩ := hfollows _ (follows_new byteBudget) (by dsimp only; omega)
  refine ⟨hinv.bytes_eq, hinv.charged, hwithin, hinv.nodup, hf.budget, hf.uses,
    fun model product => ?_⟩
  intro key r
  obtain ⟨-, hnone, hstored⟩ := storeModel_spec hinv hwithin model product
  refine ⟨fun hover => ?_, hnone, fun hsome => ?_⟩
  · cases hr : r.stored with
    | none => rfl
    | some stored =>
      have hrejected := (hstored (by rw [hr]; rfl)).rejected hover
      have hsame : r.stored = none := congrArg FieldStoreResult.stored hrejected
      rw [hr] at hsame
      exact hsame
  · have hs := hstored hsome
    have hfit : entryByteSize sizes key product ≤ c.byteBudget := by
      by_contra hlt
      have hrejected : r = ⟨c, product, none⟩ := hs.rejected (not_le.1 hlt)
      rw [hrejected] at hsome
      cases hsome
    refine ⟨hs.stored hfit, hs.kept l hf ?_ hsome, hs.empty hsome⟩
    dsimp only at hclock
    omega

/-! ### When the clock wraps -/

/-- A class. -/
def pairClass : FieldClass := ⟨1, 2, .defaultSteps⟩

/-- A provider without state. -/
def plainProvider : FieldProvider := ⟨3, none, 0⟩

/-- Two cells, at unit cost. -/
def pairModel : ResolvedModel := ⟨twoCells, pairClass.unit, plainProvider⟩

/-- A field over the two cells. -/
def pairField (goal : Coord3) (labels : List ℕ) : DistanceFieldProduct :=
  { ({} : DistanceFieldProduct).stamp pairModel [goal] with
    status := .found
    expandedNodes := 2
    reachedNodes := 2
    distance := labels
    dependencies := [⟨0, 0⟩, ⟨1, 0⟩] }

/-- The field of the left cell. -/
def leftField : DistanceFieldProduct := pairField ⟨0, 0, 0⟩ [0, 1]

/-- The field of the right cell. -/
def rightField : DistanceFieldProduct := pairField ⟨1, 0, 0⟩ [1, 0]

/-- Sizes of the objects. -/
def pairSizes : FieldSizes := ⟨200, 300, 24, 16⟩

/-- A budget for one field. -/
def pairBudget : ℕ := 588

/-- A lookup of the field of the left cell. -/
def leftLookup : FieldCacheOp :=
  .lookup twoCells pairClass plainProvider [⟨0, 0, 0⟩] fun _ => 0

/-- The cache with the field of the left cell. -/
def leftCache (clock hits : ℕ) : FieldProductCache where
  entries := [⟨makeKeyForClass pairModel leftField.goals, leftField, clock, 588⟩]
  byteBudget := pairBudget
  bytes := 588
  hits := hits
  clock := clock

theorem step_leftLookup (clock hits : ℕ) :
    (leftCache clock hits).step pairSizes leftLookup = leftCache (nextClock clock) (hits + 1) := by
  have hmatch : (makeKeyForClass pairModel leftField.goals).matchesClass pairModel
      [⟨0, 0, 0⟩] = true := FieldKey.matchesClass_iff.2 rfl
  have hvalid : leftField.isValid (fun _ => 0) = true := by decide
  show ((leftCache clock hits).lookupModel pairModel [⟨0, 0, 0⟩] fun _ => 0).1 = _
  unfold lookupModel leftCache
  simp only [List.findIdx_cons, hmatch, cond_true, List.getElem?_cons_zero, hvalid, Bool.not_true,
    Bool.false_eq_true, if_false, List.set_cons_zero]

theorem run_leftLookup (n clock hits : ℕ) (hclock : clock < 2 ^ 64) :
    run pairSizes (List.replicate n leftLookup) (leftCache clock hits) =
      leftCache ((clock + n) % 2 ^ 64) (hits + n) := by
  induction n with
  | zero => rw [Nat.add_zero, Nat.mod_eq_of_lt hclock, Nat.add_zero]; rfl
  | succ n ih =>
    have hsnoc : run pairSizes (List.replicate (n + 1) leftLookup) (leftCache clock hits) =
        (run pairSizes (List.replicate n leftLookup) (leftCache clock hits)).step pairSizes
          leftLookup := by
      unfold run
      rw [List.replicate_succ', List.foldl_append]
      rfl
    rw [hsnoc, ih, step_leftLookup, nextClock, Nat.mod_add_mod, Nat.add_assoc, Nat.add_assoc]

theorem step_leftStore :
    (({ byteBudget := pairBudget } : FieldProductCache).step pairSizes
      (.store twoCells pairClass plainProvider leftField)) = leftCache 1 0 := by
  rfl

theorem run_leftStore (n : ℕ) :
    run pairSizes (.store twoCells pairClass plainProvider leftField :: List.replicate n leftLookup)
      { byteBudget := pairBudget } = leftCache ((1 + n) % 2 ^ 64) n := by
  have hlookups := run_leftLookup n 1 0 (by omega)
  rw [Nat.zero_add] at hlookups
  rw [← hlookups, ← step_leftStore]
  rfl

/-- **When the clock wraps, a store evicts what it stores**: after one store and enough lookups of
that field, the entry of another field has the least clock, and makes room for the first.  Also,
the object of the caller is not cleared by a store that takes no entry away. -/
theorem field_clock_returns :
    (let c := run pairSizes (.store twoCells pairClass plainProvider leftField ::
        List.replicate (2 ^ 64 - 2) leftLookup) { byteBudget := pairBudget }
      let r := c.storeModel pairSizes pairModel rightField
      r.stored = some rightField ∧ r.cache.evictions = 1 ∧
        r.cache.entries.map FieldCacheEntry.key = [makeKeyForClass pairModel leftField.goals]) ∧
    (({ byteBudget := pairBudget } : FieldProductCache).storeModel pairSizes pairModel
      leftField).product.status = .found := by
  refine ⟨?_, by decide +kernel⟩
  rw [run_leftStore]
  decide +kernel

/-- A field that fits. -/
theorem field_product_cache_runs_left :
    (run pairSizes [.store twoCells pairClass plainProvider leftField]
      { byteBudget := pairBudget }).bytes ≤
    (run pairSizes [.store twoCells pairClass plainProvider leftField]
      { byteBudget := pairBudget }).byteBudget :=
  (field_product_cache_runs pairSizes pairBudget
    [.store twoCells pairClass plainProvider leftField] (by decide)).2.2.1

end Tess
