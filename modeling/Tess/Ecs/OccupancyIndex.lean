import Tess.Lib.LinearProbe
import Tess.Core.Shape
import Tess.Sim.DeltaEntities
import Mathlib.Data.Finmap

/-!
# The tile occupancy index

`TileOccupancyIndex` maps tiles to entities in an open-addressed table of two to some power slots,
at most half of them taken, which deletes by shifting slots back.

* `TileOccupancyIndex.insert`, `TileOccupancyIndex.erase`, `TileOccupancyIndex.move` : the calls,
  none when a loop would not end;
* `OccupancyRun` : calls from an empty index, beside the finite map that it stands for;
* `OccupancyRun.holds` : **the index and the map stay together**.
-/

namespace Tess

open Probing

/-- What a call that may allocate does. -/
inductive Allocating (α : Type*)
  | badAlloc
  | returned (value : α)

/-- Apply a function to what is returned. -/
def Allocating.map {α β : Type*} (f : α → β) : Allocating α → Allocating β
  | .badAlloc => .badAlloc
  | .returned a => .returned (f a)

/-- `TileOccupancyIndex`; a slot of the null entity is free. -/
structure TileOccupancyIndex where
  /-- Slots of the table. -/
  slots : ℕ → Option (Coord3 × EntityHandle) := fun _ => none
  /-- Length of the table. -/
  slotCount : ℕ := 0
  /-- `size_`. -/
  size : ℕ := 0

namespace TileOccupancyIndex

variable (d : TileOccupancyIndex)

/-- `mask`. -/
def mask : ℕ := d.slotCount - 1

/-- The hash of a tile: one round of the mixer over a product for each component. -/
def hash (tile : Coord3) : BitVec 64 :=
  ChunkDirectory.mix (BitVec.ofInt 64 tile.x * 0x9E3779B97F4A7C15 ^^^
    BitVec.ofInt 64 tile.y * 0xC2B2AE3D27D4EB4F ^^^ BitVec.ofInt 64 tile.z * 0x165667B19E3779F9)

/-- `probe_start`. -/
def probeStart (tile : Coord3) : ℕ := (hash tile).toNat &&& d.mask

/-- The slot that a probe loop looks at next. -/
def probe (index : ℕ) : ℕ := (index + 1) &&& d.mask

/-- The value of a slot. -/
def slotOf (tile : Coord3) (entity : EntityHandle) : Option (Coord3 × EntityHandle) :=
  if entity = kNullEntityHandle then none else some (tile, entity)

/-- The entity of a slot. -/
def entityOf : Option (Coord3 × EntityHandle) → EntityHandle
  | none => kNullEntityHandle
  | some (_, entity) => entity

/-- The slot at which a lookup stops. -/
def find (tile : Coord3) : Option ℕ :=
  scan d.probe (settles d.slots tile) d.slotCount (d.probeStart tile)

/-- The first free slot for a tile. -/
def findFree (tile : Coord3) : Option ℕ :=
  scan d.probe (isFree d.slots) d.slotCount (d.probeStart tile)

/-- Write a free slot. -/
def put (tile : Coord3) (entity : EntityHandle) (index : ℕ) : TileOccupancyIndex :=
  { d with slots := Function.update d.slots index (slotOf tile entity), size := d.size + 1 }

/-- One slot of the old table in `rehash`. -/
def rehashSlot (d : TileOccupancyIndex) : Option (Coord3 × EntityHandle) → Option TileOccupancyIndex
  | none => some d
  | some (tile, entity) => (d.findFree tile).map (d.put tile entity)

/-- The loop of `rehash` over the old table. -/
def rehashSlots (old : ℕ → Option (Coord3 × EntityHandle)) :
    List ℕ → TileOccupancyIndex → Option TileOccupancyIndex
  | [], d => some d
  | index :: rest, d => (d.rehashSlot (old index)).bind (rehashSlots old rest)

/-- `rehash`; `room` is the number of slots that can be allocated. -/
def rehash (room newCapacity : ℕ) : Option (Allocating TileOccupancyIndex) :=
  if newCapacity > room then some .badAlloc
  else
    (rehashSlots d.slots (List.range d.slotCount) { slotCount := newCapacity }).map .returned

/-- The loop of `reserve`, in 64-bit arithmetic; none when it does not end. -/
def reserveTarget (wanted : ℕ) : ℕ → ℕ → Option ℕ
  | 0, _ => none
  | fuel + 1, target =>
    if target < wanted then reserveTarget wanted fuel (target * 2 % 2 ^ 64) else some target

/-- `reserve`. -/
def reserve (room entityCapacity : ℕ) : Option (Allocating TileOccupancyIndex) :=
  -- from 8 the target is zero after 61 doublings, and stays so
  (reserveTarget (entityCapacity * 2 % 2 ^ 64) 64 8).bind fun target =>
    if target > d.slotCount then d.rehash room target else some (.returned d)

/-- The table in which `insert` probes. -/
def grown (room : ℕ) : Option (Allocating TileOccupancyIndex) :=
  if d.slotCount = 0 ∨ (d.size + 1) * 2 > d.slotCount then
    d.rehash room (if d.slotCount = 0 then 8 else d.slotCount * 2)
  else some (.returned d)

/-- The probe loop of `insert`, with its result. -/
def insertGrown (tile : Coord3) (entity : EntityHandle) : Option (TileOccupancyIndex × Bool) :=
  (d.find tile).map fun index =>
    match d.slots index with
    | none => (d.put tile entity index, true)
    | some (_, held) => (d, held = entity)

/-- `insert`, with its result. -/
def insert (room : ℕ) (tile : Coord3) (entity : EntityHandle) :
    Option (Allocating (TileOccupancyIndex × Bool)) :=
  if entity = kNullEntityHandle then some (.returned (d, false))
  else
    match d.grown room with
    | none => none
    | some .badAlloc => some .badAlloc
    | some (.returned d) => (d.insertGrown tile entity).map .returned

/-- `erase`, with the entity it held; its `in_gap` is the collector's. -/
def erase (tile : Coord3) : Option (TileOccupancyIndex × EntityHandle) :=
  if d.slotCount = 0 then some (d, kNullEntityHandle)
  else
    match d.find tile with
    | none => none
    | some index =>
      match d.slots index with
      | none => some (d, kNullEntityHandle)
      | some (_, erased) =>
        (shiftBackBy EntityDeltaCollector.inGap d.probe d.probeStart d.slotCount d.slots index
          index).map fun slots => ({ d with slots := slots, size := d.size - 1 }, erased)

/-- `move`. -/
def move (fromTile toTile : Coord3) (entity : EntityHandle) : Option TileOccupancyIndex :=
  match d.erase fromTile with
  | none => none
  | some (d, _) => (d.findFree toTile).map (d.put toTile entity)

/-- `entity_at`. -/
def entityAt (tile : Coord3) : Option EntityHandle :=
  if d.slotCount = 0 then some kNullEntityHandle
  else (d.find tile).map fun index => entityOf (d.slots index)

/-- `clear`. -/
def clear : TileOccupancyIndex := { d with slots := fun _ => none, size := 0 }

end TileOccupancyIndex

/-! ### The map -/

/-- The finite map that an index stands for. -/
abbrev OccupancyMap := Finmap fun _ : Coord3 => EntityHandle

/-- A call on an index; `room` is what can be allocated during it. -/
inductive OccupancyCall
  | reserve (room entityCapacity : ℕ)
  | insert (room : ℕ) (tile : Coord3) (entity : EntityHandle)
  | erase (tile : Coord3)
  | move (fromTile toTile : Coord3) (entity : EntityHandle)
  | entityAt (tile : Coord3)
  | size
  | clear

/-- What a call returns. -/
inductive OccupancyAnswer
  | done
  | inserted (success : Bool)
  | entity (entity : EntityHandle)
  | count (n : ℕ)
  deriving DecidableEq

/-- One call on the index, with what it returns. -/
def TileOccupancyIndex.call (d : TileOccupancyIndex) :
    OccupancyCall → Option (Allocating (TileOccupancyIndex × OccupancyAnswer))
  | .reserve room entityCapacity =>
    (d.reserve room entityCapacity).map (.map fun d => (d, .done))
  | .insert room tile entity =>
    (d.insert room tile entity).map (.map fun r => (r.1, .inserted r.2))
  | .erase tile => (d.erase tile).map fun r => .returned (r.1, .entity r.2)
  | .move fromTile toTile entity =>
    (d.move fromTile toTile entity).map fun d => .returned (d, .done)
  | .entityAt tile => (d.entityAt tile).map fun entity => .returned (d, .entity entity)
  | .size => some (.returned (d, .count d.size))
  | .clear => some (.returned (d.clear, .done))

namespace OccupancyMap

variable (m : OccupancyMap)

/-- The entity of a tile. -/
def entityAt (tile : Coord3) : EntityHandle := (m.lookup tile).getD kNullEntityHandle

/-- The tile is unmapped or maps to the entity. -/
def Accepts (tile : Coord3) (entity : EntityHandle) : Prop :=
  m.lookup tile = none ∨ m.lookup tile = some entity

instance (tile : Coord3) (entity : EntityHandle) : Decidable (m.Accepts tile entity) :=
  inferInstanceAs (Decidable (_ ∨ _))

/-- One call on the map. -/
def call : OccupancyCall → OccupancyMap × OccupancyAnswer
  | .reserve _ _ => (m, .done)
  | .insert _ tile entity =>
    if m.Accepts tile entity then (Finmap.insert tile entity m, .inserted true)
    else (m, .inserted false)
  | .erase tile => (m.erase tile, .entity (m.entityAt tile))
  | .move fromTile toTile entity => (Finmap.insert toTile entity (m.erase fromTile), .done)
  | .entityAt tile => (m, .entity (m.entityAt tile))
  | .size => (m, .count m.keys.card)
  | .clear => (∅, .done)

/-- The calls that are allowed: entities are not null, and a move is of an entity from its tile to
an unmapped one. -/
def Admits : OccupancyCall → Prop
  | .insert _ _ entity => entity ≠ kNullEntityHandle
  | .move fromTile toTile entity => m.lookup fromTile = some entity ∧ m.lookup toTile = none
  | _ => True

end OccupancyMap

/-- Allowed calls from an empty index, beside the map; a call whose allocation fails leaves both. -/
inductive OccupancyRun : TileOccupancyIndex → OccupancyMap → Prop
  | empty : OccupancyRun {} ∅
  | call {d d' : TileOccupancyIndex} {m : OccupancyMap} {c : OccupancyCall}
      {answer : OccupancyAnswer} (h : OccupancyRun d m) (hc : m.Admits c)
      (hd : d.call c = some (.returned (d', answer))) : OccupancyRun d' (m.call c).1

namespace TileOccupancyIndex

variable {d d' : TileOccupancyIndex} {m : OccupancyMap} {tile : Coord3} {entity : EntityHandle}
  {i room n : ℕ}

/-- **The index holds the map.** -/
structure Holds (d : TileOccupancyIndex) (m : OccupancyMap) : Prop where
  /-- The table is empty or has two to some power slots. -/
  length : d.slotCount = 0 ∨ ∃ e, d.slotCount = 2 ^ e
  /-- The invariant of the table. -/
  probed : Probed d.slotCount d.probeStart d.slots
  /-- The table maps what the map does. -/
  maps : ∀ t e, Maps d.slotCount d.slots t e ↔ m.lookup t = some e
  /-- Entities are not null. -/
  entity_ne : ∀ t, m.lookup t ≠ some kNullEntityHandle
  /-- `size_` is the number of mappings. -/
  size : d.size = m.keys.card

theorem holds_empty : Holds {} ∅ where
  length := .inl rfl
  probed := probed_empty
  maps t e := by simp [Probing.Maps]
  entity_ne t := by simp
  size := by simp

/-- In a table of two to some power slots the mask wraps round. -/
theorem Holds.probe_eq (h : Holds d m) (hpos : 0 < d.slotCount) (i : ℕ) (hi : i < d.slotCount) :
    d.probe i = next d.slotCount i := by
  obtain ⟨e, he⟩ := h.length.resolve_left hpos.ne'
  unfold probe next mask
  rw [he, Nat.and_two_pow_sub_one_eq_mod, ← he]
  split_ifs with hlt
  · exact Nat.mod_eq_of_lt hlt
  · rw [show i + 1 = d.slotCount by omega, Nat.mod_self]

theorem probeStart_lt (hpos : 0 < d.slotCount) (t : Coord3) : d.probeStart t < d.slotCount := by
  have hle : d.probeStart t ≤ d.mask := Nat.and_le_right
  unfold mask at hle
  omega

/-- Fewer mappings than slots leave a free slot. -/
theorem Holds.exists_free (h : Holds d m) (hlt : d.size < d.slotCount) :
    ∃ f < d.slotCount, d.slots f = none := by
  refine @Probed.exists_free _ _ _ _ _ h.probed m.keys.toList (fun t e ht => ?_) ?_
  · rw [Finset.mem_toList, Finmap.mem_keys, Finmap.mem_iff]
    exact ⟨e, (h.maps t e).1 ht⟩
  · rw [Finset.length_toList, ← h.size]
    exact hlt

/-- **A lookup** stops at the slot of the tile, or where an insertion would. -/
theorem Holds.find_spec (h : Holds d m) (hlt : d.size < d.slotCount) (tile : Coord3) :
    ∃ i < d.slotCount, d.find tile = some i ∧
      ((∃ e, d.slots i = some (tile, e) ∧ m.lookup tile = some e) ∨
        d.slots i = none ∧ m.lookup tile = none ∧ d.findFree tile = some i) := by
  have hpos : 0 < d.slotCount := by omega
  obtain ⟨i, hi, hscan, ⟨e, he⟩ | ⟨hnone, hno⟩⟩ :=
    h.probed.scan_find (h.probe_eq hpos) (probeStart_lt hpos tile) (h.exists_free hlt)
  · exact ⟨i, hi, hscan, .inl ⟨e, he, (h.maps tile e).1 ⟨i, hi, he⟩⟩⟩
  · refine ⟨i, hi, hscan, .inr ⟨hnone, ?_, ?_⟩⟩
    · rw [Option.eq_none_iff_forall_ne_some]
      exact fun e he => hno e ((h.maps tile e).2 he)
    · -- the tile is in no slot, so the two loops have the same test
      have hsame : ∀ j < d.slotCount, isFree d.slots j = settles d.slots tile j := by
        intro j hj
        rw [Bool.eq_iff_iff, settles_iff, isFree_iff]
        refine ⟨.inl, fun hset => hset.resolve_right ?_⟩
        rintro ⟨e, he⟩
        exact hno e ⟨j, hj, he⟩
      rw [findFree, scan_congr (h.probe_eq hpos) (probeStart_lt hpos tile) hsame]
      exact hscan

/-- An unmapped tile has a first free slot. -/
theorem Holds.exists_findFree (h : Holds d m) (hlt : d.size < d.slotCount) (tile : Coord3) :
    ∃ i, d.findFree tile = some i := by
  have hpos : 0 < d.slotCount := by omega
  exact exists_scan_free (h.probe_eq hpos) (probeStart_lt hpos tile) (h.exists_free hlt)

theorem keys_insert (m : OccupancyMap) (tile : Coord3) (entity : EntityHandle) :
    (Finmap.insert tile entity m).keys = Insert.insert tile m.keys := by
  ext t
  simp only [Finmap.mem_keys, Finmap.mem_insert, Finset.mem_insert]

/-- **A write at the first free slot** adds a mapping. -/
theorem Holds.put (h : Holds d m) (hnew : m.lookup tile = none) (hentity : entity ≠ kNullEntityHandle)
    (hpos : 0 < d.slotCount) (hfree : d.findFree tile = some i) :
    Holds (d.put tile entity i) (Finmap.insert tile entity m) := by
  obtain ⟨hi, hnone, -⟩ := scan_spec (h.probe_eq hpos) (probeStart_lt hpos tile) hfree
  rw [isFree_iff] at hnone
  have hslot : slotOf tile entity = some (tile, entity) := if_neg hentity
  refine ⟨h.length, ?_, fun t e => ?_, fun t => ?_, ?_⟩
  · unfold TileOccupancyIndex.put
    rw [hslot]
    refine h.probed.insert (h.probe_eq hpos) (probeStart_lt hpos tile) (fun w hw => ?_) hfree
    rw [h.maps, hnew] at hw
    cases hw
  · unfold TileOccupancyIndex.put
    rw [hslot]
    refine (maps_update hi hnone).trans ?_
    rw [h.maps]
    by_cases ht : t = tile
    · subst ht
      simp [hnew, eq_comm]
    · simp [ht, Finmap.lookup_insert_of_ne m ht]
  · by_cases ht : t = tile
    · subst ht
      simpa using hentity
    · rw [Finmap.lookup_insert_of_ne m ht]
      exact h.entity_ne t
  · rw [keys_insert, Finset.card_insert_of_notMem, ← h.size]
    · rfl
    · rw [Finmap.mem_keys]
      exact Finmap.lookup_eq_none.1 hnew

/-! ### Growth -/

/-- A map inside another, without one of its tiles, is smaller. -/
theorem card_keys_lt {m₀ : OccupancyMap} (hsub : ∀ t e, m.lookup t = some e → m₀.lookup t = some e)
    (hnew : m.lookup tile = none) (hold : m₀.lookup tile = some entity) :
    m.keys.card < m₀.keys.card := by
  refine Finset.card_lt_card (Finset.ssubset_iff_of_subset ?_ |>.2 ⟨tile, ?_, ?_⟩)
  · intro t ht
    rw [Finmap.mem_keys, Finmap.mem_iff] at ht ⊢
    obtain ⟨e, he⟩ := ht
    exact ⟨e, hsub t e he⟩
  · rw [Finmap.mem_keys, Finmap.mem_iff]
    exact ⟨entity, hold⟩
  · rw [Finmap.mem_keys]
    exact Finmap.lookup_eq_none.1 hnew

/-- The loop of `rehash` adds the mappings of the slots it has seen. -/
theorem Holds.rehashSlots {old : ℕ → Option (Coord3 × EntityHandle)} {m₀ : OccupancyMap}
    (h : Holds d m) (h₀ : ∀ t, m₀.lookup t ≠ some kNullEntityHandle)
    (hroom : m₀.keys.card < d.slotCount)
    (hsub : ∀ t e, m.lookup t = some e → m₀.lookup t = some e) {ps : List ℕ}
    (hold : ∀ p ∈ ps, ∀ t e, old p = some (t, e) → m₀.lookup t = some e ∧ m.lookup t = none)
    (hkeys : ps.Pairwise fun p q => ∀ t e w, old p = some (t, e) → old q ≠ some (t, w)) :
    ∃ d' m', rehashSlots old ps d = some d' ∧ Holds d' m' ∧ d'.slotCount = d.slotCount ∧
      ∀ t e, m'.lookup t = some e ↔ m.lookup t = some e ∨ ∃ p ∈ ps, old p = some (t, e) := by
  induction ps generalizing d m with
  | nil => exact ⟨d, m, rfl, h, rfl, by simp⟩
  | cons p ps ih =>
    obtain ⟨hp, hps⟩ := List.pairwise_cons.1 hkeys
    cases hslot : old p with
    | none =>
      obtain ⟨d', m', hrun, h', hcount, hmaps⟩ :=
        ih h hroom hsub (fun q hq => hold q (List.mem_cons_of_mem _ hq)) hps
      refine ⟨d', m', ?_, h', hcount, fun t e => ?_⟩
      · simp only [TileOccupancyIndex.rehashSlots, hslot, rehashSlot, Option.bind_some, hrun]
      · rw [hmaps]
        simp [hslot]
    | some slot =>
      obtain ⟨t, e⟩ := slot
      obtain ⟨hm₀, hnew⟩ := hold p List.mem_cons_self t e hslot
      have hlt := card_keys_lt hsub hnew hm₀
      have hentity : e ≠ kNullEntityHandle := by
        rintro rfl
        exact h₀ t hm₀
      obtain ⟨i, hi⟩ := h.exists_findFree (by rw [h.size]; omega) t
      have hsub' : ∀ u w, (Finmap.insert t e m).lookup u = some w → m₀.lookup u = some w := by
        intro u w hu
        by_cases hut : u = t
        · subst hut
          rw [Finmap.lookup_insert] at hu
          exact Option.some.inj hu ▸ hm₀
        · rw [Finmap.lookup_insert_of_ne m hut] at hu
          exact hsub u w hu
      have hold' : ∀ q ∈ ps, ∀ u w, old q = some (u, w) →
          m₀.lookup u = some w ∧ (Finmap.insert t e m).lookup u = none := by
        intro q hq u w hw
        obtain ⟨hu, hu'⟩ := hold q (List.mem_cons_of_mem _ hq) u w hw
        refine ⟨hu, ?_⟩
        have hut : u ≠ t := by
          rintro rfl
          exact hp q hq u e w hslot hw
        rw [Finmap.lookup_insert_of_ne m hut, hu']
      obtain ⟨d', m', hrun, h', hcount, hmaps⟩ :=
        ih (h.put hnew hentity (by omega) hi) hroom hsub' hold' hps
      refine ⟨d', m', ?_, h', hcount, fun u w => ?_⟩
      · simp only [TileOccupancyIndex.rehashSlots, hslot, rehashSlot, hi, Option.map_some,
          Option.bind_some, hrun]
      · rw [hmaps, List.exists_mem_cons_iff, hslot, Option.some.injEq, Prod.mk.injEq, ← or_assoc]
        refine or_congr_left ?_
        by_cases hut : u = t
        · subst hut
          simp [hnew]
        · simp [Finmap.lookup_insert_of_ne m hut, Ne.symm hut]

/-- **A rehash** that returns keeps the map. -/
theorem Holds.rehash (h : Holds d m) {e : ℕ} (hn : n = 2 ^ e) (hroom : d.size < n) :
    d.rehash room n = some .badAlloc ∨
      ∃ d', d.rehash room n = some (.returned d') ∧ Holds d' m ∧ d'.slotCount = n := by
  unfold TileOccupancyIndex.rehash
  split_ifs
  · exact .inl rfl
  · refine .inr ?_
    have hempty : Holds { slotCount := n } ∅ :=
      { length := .inr ⟨e, hn⟩
        probed := probed_empty
        maps := fun t e => by simp [Probing.Maps]
        entity_ne := fun t => by simp
        size := by simp }
    obtain ⟨d', m', hrun, h', hcount, hmaps⟩ :=
      @Holds.rehashSlots _ _ d.slots m hempty h.entity_ne
        (by rw [← h.size]; exact hroom) (by simp) (List.range d.slotCount)
        (fun p hp t e hslot => ⟨(h.maps t e).1 ⟨p, List.mem_range.1 hp, hslot⟩, by simp⟩)
        (List.pairwise_lt_range.imp_of_mem fun {p q} hp hq hlt t e w hslot hslot' =>
          hlt.ne (h.probed.unique p (List.mem_range.1 hp) q (List.mem_range.1 hq) t e w hslot
            hslot'))
    have hm : m' = m := by
      refine Finmap.ext_lookup fun t => Option.ext fun e => ?_
      rw [hmaps, ← h.maps]
      simp [Probing.Maps]
    subst hm
    exact ⟨d', by rw [hrun]; rfl, h', hcount⟩

/-- The doubling loop from a power of two, which fits 64 bits as long as it goes on. -/
theorem reserveTarget_spec {wanted fuel k : ℕ} (hwanted : wanted ≤ 2 ^ 63) (hk : k ≤ 63)
    (hfuel : 64 ≤ fuel + k) :
    ∃ j, reserveTarget wanted fuel (2 ^ k) = some (2 ^ j) ∧ wanted ≤ 2 ^ j := by
  induction fuel generalizing k with
  | zero => omega
  | succ fuel ih =>
    unfold reserveTarget
    split_ifs with hlt
    · have hk' : k < 63 := by
        by_contra hge
        rw [show k = 63 by omega] at hlt
        omega
      have hdouble : 2 ^ k * 2 % 2 ^ 64 = 2 ^ (k + 1) := by
        rw [← pow_succ]
        exact Nat.mod_eq_of_lt (Nat.pow_lt_pow_right (by decide) (by omega))
      rw [hdouble]
      exact ih (by omega) (by omega)
    · exact ⟨k, rfl, not_lt.1 hlt⟩

theorem reserveTarget_zero {wanted fuel : ℕ} (hwanted : 0 < wanted) :
    reserveTarget wanted fuel 0 = none := by
  induction fuel with
  | zero => rfl
  | succ fuel ih => rw [reserveTarget, if_pos hwanted, Nat.zero_mul, Nat.zero_mod, ih]

/-- Past the greatest power of two the loop does not end. -/
theorem reserveTarget_none {wanted fuel k : ℕ} (hwanted : 2 ^ 63 < wanted) (hk : k ≤ 63) :
    reserveTarget wanted fuel (2 ^ k) = none := by
  induction fuel generalizing k with
  | zero => rfl
  | succ fuel ih =>
    have hle : 2 ^ k ≤ 2 ^ 63 := Nat.pow_le_pow_right (by decide) hk
    rw [reserveTarget, if_pos (by omega), ← pow_succ]
    rcases hk.lt_or_eq with hlt | rfl
    · rw [Nat.mod_eq_of_lt (Nat.pow_lt_pow_right (by decide) (by omega))]
      exact ih hlt
    · rw [Nat.mod_self]
      exact reserveTarget_zero (by omega)

/-! ### The calls -/

/-- **At most half of the slots are taken.** -/
structure Ready (d : TileOccupancyIndex) (m : OccupancyMap) : Prop extends Holds d m where
  /-- No more mappings than half the slots. -/
  half : d.size * 2 ≤ d.slotCount

theorem ready_empty : Ready {} ∅ := { holds_empty with half := le_rfl }

theorem Ready.size_lt (h : Ready d m) (hpos : d.slotCount ≠ 0) : d.size < d.slotCount := by
  have := h.half
  omega

/-- The table without slots maps nothing. -/
theorem Holds.lookup_of_slotCount (h : Holds d m) (hzero : d.slotCount = 0) (t : Coord3) :
    m.lookup t = none := by
  rw [Option.eq_none_iff_forall_ne_some]
  intro e he
  obtain ⟨p, hp, -⟩ := (h.maps t e).2 he
  omega

/-- The entity in the slot of a lookup. -/
theorem Ready.entityAt_spec (h : Ready d m) (tile : Coord3) :
    d.entityAt tile = some (m.entityAt tile) := by
  unfold TileOccupancyIndex.entityAt OccupancyMap.entityAt
  split_ifs with hzero
  · rw [h.lookup_of_slotCount hzero]
    rfl
  · obtain ⟨i, -, hfind, ⟨e, hslot, hm⟩ | ⟨hslot, hm, -⟩⟩ := h.find_spec (h.size_lt hzero) tile
    · rw [hfind, hm, Option.map_some, hslot]
      rfl
    · rw [hfind, hm, Option.map_some, hslot]
      rfl

/-- **A rehash to a greater power of two** keeps the invariant. -/
theorem Ready.rehash (h : Ready d m) {e : ℕ} (hn : n = 2 ^ e) (hle : d.slotCount ≤ n) :
    d.rehash room n = some .badAlloc ∨
      ∃ d', d.rehash room n = some (.returned d') ∧ Ready d' m ∧ d'.slotCount = n := by
  have hhalf := h.half
  have hpos : 0 < n := hn ▸ Nat.two_pow_pos e
  refine (h.toHolds.rehash hn (by omega)).imp_right ?_
  rintro ⟨d', hrun, h', hcount⟩
  refine ⟨d', hrun, { h' with half := ?_ }, hcount⟩
  rw [h'.size, ← h.size]
  omega

/-- `reserve` ends unless twice the capacity, in 64 bits, is past the greatest power of two. -/
theorem Ready.reserve (h : Ready d m) (room n : ℕ) :
    (d.reserve room n = none ↔ 2 ^ 63 < n * 2 % 2 ^ 64) ∧
      ∀ d', d.reserve room n = some (.returned d') → Ready d' m := by
  unfold TileOccupancyIndex.reserve
  by_cases hbig : 2 ^ 63 < n * 2 % 2 ^ 64
  · rw [show (8 : ℕ) = 2 ^ 3 from rfl, reserveTarget_none hbig (by decide)]
    refine ⟨iff_of_true rfl hbig, fun d' hd => ?_⟩
    cases hd
  · obtain ⟨j, hj, -⟩ := reserveTarget_spec (not_lt.1 hbig) (show 3 ≤ 63 by decide)
      (show 64 ≤ 64 + 3 by decide)
    rw [show (8 : ℕ) = 2 ^ 3 from rfl, hj, Option.bind_some]
    split_ifs with hlt
    · rcases @Ready.rehash _ _ room _ h _ rfl hlt.le with hbad | ⟨d₁, hrun, h₁, -⟩
      · rw [hbad]
        exact ⟨iff_of_false (by simp) hbig, fun d' hd => by cases hd⟩
      · rw [hrun]
        refine ⟨iff_of_false (by simp) hbig, fun d' hd => ?_⟩
        cases hd
        exact h₁
    · refine ⟨iff_of_false (by simp) hbig, fun d' hd => ?_⟩
      cases hd
      exact h

/-- The table in which `insert` probes has room for one more mapping. -/
theorem Ready.grown (h : Ready d m) (room : ℕ) :
    d.grown room = some .badAlloc ∨ ∃ d', d.grown room = some (.returned d') ∧ Ready d' m ∧
      (d'.size + 1) * 2 ≤ d'.slotCount := by
  unfold TileOccupancyIndex.grown
  split_ifs with hgrow hzero
  · refine (h.rehash (n := 8) (e := 3) rfl (by omega)).imp_right ?_
    rintro ⟨d', hrun, h', hcount⟩
    have hhalf := h.half
    refine ⟨d', hrun, h', ?_⟩
    rw [h'.size, ← h.size, hcount]
    omega
  · obtain ⟨e, he⟩ := h.length.resolve_left hzero
    refine (h.rehash (n := d.slotCount * 2) (e := e + 1) (by rw [he, pow_succ])
      (by omega)).imp_right ?_
    rintro ⟨d', hrun, h', hcount⟩
    have hhalf := h.half
    refine ⟨d', hrun, h', ?_⟩
    rw [h'.size, ← h.size, hcount]
    omega
  · exact .inr ⟨d, rfl, h, by omega⟩

/-- **An insertion** succeeds when the tile is unmapped or maps to the entity. -/
theorem Ready.insert (h : Ready d m) (hentity : entity ≠ kNullEntityHandle) (room : ℕ)
    (tile : Coord3) : d.insert room tile entity = some .badAlloc ∨
      ∃ d' success, d.insert room tile entity = some (.returned (d', success)) ∧
        (success = true ↔ m.Accepts tile entity) ∧
        Ready d' (if m.Accepts tile entity then Finmap.insert tile entity m else m) := by
  unfold TileOccupancyIndex.insert
  rw [if_neg hentity]
  rcases h.grown room with hbad | ⟨d₁, hgrown, h₁, hroom⟩
  · rw [hbad]
    exact .inl rfl
  · rw [hgrown]
    refine .inr ?_
    obtain ⟨i, hi, hfind, ⟨e, hslot, hm⟩ | ⟨hslot, hm, hfree⟩⟩ := h₁.find_spec (by omega) tile
    · refine ⟨d₁, e = entity, ?_, ?_, ?_⟩
      · simp only [insertGrown, hfind, hslot, Option.map_some]
      · simp [OccupancyMap.Accepts, hm]
      · split_ifs with hacc
        · have he : e = entity := by simpa [OccupancyMap.Accepts, hm] using hacc
          have hsame : Finmap.insert tile entity m = m := by
            refine Finmap.ext_lookup fun t => ?_
            by_cases ht : t = tile
            · rw [ht, Finmap.lookup_insert, hm, he]
            · rw [Finmap.lookup_insert_of_ne m ht]
          rw [hsame]
          exact h₁
        · exact h₁
    · have hacc : m.Accepts tile entity := .inl hm
      refine ⟨d₁.put tile entity i, true, ?_, by simp [hacc], ?_⟩
      · simp only [insertGrown, hfind, hslot, Option.map_some]
      · rw [if_pos hacc]
        exact { h₁.toHolds.put hm hentity (by omega) hfree with half := hroom }

theorem erase_of_lookup_none (hm : m.lookup tile = none) : m.erase tile = m := by
  refine Finmap.ext_lookup fun t => ?_
  by_cases ht : t = tile
  · rw [ht, Finmap.lookup_erase, hm]
  · rw [Finmap.lookup_erase_ne ht]

/-- **An erasure** removes the mapping of the tile, and leaves room for another. -/
theorem Ready.erase (h : Ready d m) (tile : Coord3) :
    ∃ d', d.erase tile = some (d', m.entityAt tile) ∧ Ready d' (m.erase tile) ∧
      ((m.lookup tile).isSome → d'.size + 1 = d.size) ∧ d'.slotCount = d.slotCount := by
  unfold TileOccupancyIndex.erase OccupancyMap.entityAt
  split_ifs with hzero
  · have hm := h.lookup_of_slotCount hzero tile
    rw [hm, erase_of_lookup_none hm]
    exact ⟨d, rfl, h, by simp, rfl⟩
  · obtain ⟨i, hi, hfind, ⟨e, hslot, hm⟩ | ⟨hslot, hm, -⟩⟩ := h.find_spec (h.size_lt hzero) tile
    · have hpos : 0 < d.slotCount := by omega
      obtain ⟨f, hf, hfree⟩ := h.exists_free (h.size_lt hzero)
      obtain ⟨slots, hrun, hprobed, hmaps⟩ :=
        Probed.shiftBack (probeStart_lt hpos) (h.probe_eq hpos) h.probed hf hfree hi hslot
      have hfi : f ≠ i := by
        rintro rfl
        rw [hfree] at hslot
        cases hslot
      have hgap := @shiftBackBy_eq _ _ _ d.probeStart _ _ _ _ _ d.slotCount _
        (fun _ _ _ => EntityDeltaCollector.inGap_eq) (h.probe_eq hpos) hf hfree hi hi hfi (.inl rfl)
      have hmem : tile ∈ m.keys := by
        rw [Finmap.mem_keys, Finmap.mem_iff]
        exact ⟨e, hm⟩
      have hcard : d.size - 1 + 1 = d.size := by
        have := Finset.card_pos.2 ⟨tile, hmem⟩
        rw [h.size]
        omega
      refine ⟨{ d with slots := slots, size := d.size - 1 }, ?_, ?_, fun _ => hcard, rfl⟩
      · simp only [hfind, hslot, hgap, hrun, Option.map_some, hm, Option.getD_some]
      · refine ⟨⟨h.length, hprobed, fun t w => ?_, fun t => ?_, ?_⟩, ?_⟩
        · rw [hmaps, h.maps]
          by_cases ht : t = tile
          · subst ht
            simp
          · simp [ht, Finmap.lookup_erase_ne ht]
        · by_cases ht : t = tile
          · subst ht
            simp
          · rw [Finmap.lookup_erase_ne ht]
            exact h.entity_ne t
        · rw [Finmap.keys_erase, Finset.card_erase_of_mem hmem, ← h.size]
        · have := h.half
          simp only
          omega
    · rw [hm, erase_of_lookup_none hm]
      refine ⟨d, ?_, h, by simp, rfl⟩
      simp only [hfind, hslot]
      rfl

/-- **A move** takes the mapping to another tile, in the same table. -/
theorem Ready.move {fromTile toTile : Coord3} (h : Ready d m)
    (hfrom : m.lookup fromTile = some entity) (hto : m.lookup toTile = none) :
    ∃ d', d.move fromTile toTile entity = some d' ∧
      Ready d' (Finmap.insert toTile entity (m.erase fromTile)) := by
  obtain ⟨d₁, herase, h₁, hsize, hcount⟩ := h.erase fromTile
  have hsize := hsize (by rw [hfrom]; rfl)
  have hhalf := h.half
  have hne : toTile ≠ fromTile := by
    rintro rfl
    rw [hto] at hfrom
    cases hfrom
  have hnew : (m.erase fromTile).lookup toTile = none := by
    rw [Finmap.lookup_erase_ne hne, hto]
  have hentity : entity ≠ kNullEntityHandle := by
    rintro rfl
    exact h.entity_ne _ hfrom
  obtain ⟨i, hi⟩ := h₁.exists_findFree (by omega) toTile
  refine ⟨d₁.put toTile entity i, ?_, { h₁.toHolds.put hnew hentity (by omega) hi with half := ?_ }⟩
  · simp only [TileOccupancyIndex.move, herase, hi, Option.map_some]
  · show (d₁.size + 1) * 2 ≤ d₁.slotCount
    omega

/-- `clear` unmaps every tile. -/
theorem Ready.clear (h : Ready d m) : Ready d.clear ∅ where
  length := h.length
  probed := probed_empty
  maps t e := by simp [TileOccupancyIndex.clear, Probing.Maps]
  entity_ne t := by simp
  size := by simp [TileOccupancyIndex.clear]
  half := Nat.zero_le _

theorem Ready.call {c : OccupancyCall} (h : Ready d m) (hc : m.Admits c) :
    (d.call c = none ↔ ∃ room n, c = .reserve room n ∧ 2 ^ 63 < n * 2 % 2 ^ 64) ∧
      ∀ d' answer, d.call c = some (.returned (d', answer)) →
        answer = (m.call c).2 ∧ Ready d' (m.call c).1 := by
  cases c with
  | reserve room n =>
    obtain ⟨hnone, hready⟩ := h.reserve room n
    refine ⟨?_, fun d' answer hd => ?_⟩
    · simp [TileOccupancyIndex.call, hnone]
    · cases hr : d.reserve room n with
      | none => simp [TileOccupancyIndex.call, hr] at hd
      | some r =>
        cases r with
        | badAlloc => simp [TileOccupancyIndex.call, hr, Allocating.map] at hd
        | returned d₁ =>
          simp only [TileOccupancyIndex.call, hr, Allocating.map, Option.map_some,
            Option.some.injEq, Allocating.returned.injEq, Prod.mk.injEq] at hd
          obtain ⟨rfl, rfl⟩ := hd
          exact ⟨rfl, hready d₁ hr⟩
  | insert room tile entity =>
    rcases h.insert hc room tile with hbad | ⟨d₁, success, hrun, hsuccess, h₁⟩
    · simp [TileOccupancyIndex.call, hbad, Allocating.map]
    · refine ⟨by simp [TileOccupancyIndex.call, hrun], fun d' answer hd => ?_⟩
      simp only [TileOccupancyIndex.call, hrun, Allocating.map, Option.map_some,
        Option.some.injEq, Allocating.returned.injEq, Prod.mk.injEq] at hd
      obtain ⟨rfl, rfl⟩ := hd
      dsimp only [OccupancyMap.call]
      by_cases hacc : m.Accepts tile entity
      · rw [if_pos hacc] at h₁ ⊢
        rw [hsuccess.2 hacc]
        exact ⟨rfl, h₁⟩
      · rw [if_neg hacc] at h₁ ⊢
        rw [Bool.eq_false_iff.2 (mt hsuccess.1 hacc)]
        exact ⟨rfl, h₁⟩
  | erase tile =>
    obtain ⟨d₁, hrun, h₁, -⟩ := h.erase tile
    refine ⟨by simp [TileOccupancyIndex.call, hrun], fun d' answer hd => ?_⟩
    simp only [TileOccupancyIndex.call, hrun, Option.map_some, Option.some.injEq,
      Allocating.returned.injEq, Prod.mk.injEq] at hd
    obtain ⟨rfl, rfl⟩ := hd
    exact ⟨rfl, h₁⟩
  | move fromTile toTile entity =>
    obtain ⟨d₁, hrun, h₁⟩ := h.move hc.1 hc.2
    refine ⟨by simp [TileOccupancyIndex.call, hrun], fun d' answer hd => ?_⟩
    simp only [TileOccupancyIndex.call, hrun, Option.map_some, Option.some.injEq,
      Allocating.returned.injEq, Prod.mk.injEq] at hd
    obtain ⟨rfl, rfl⟩ := hd
    exact ⟨rfl, h₁⟩
  | entityAt tile =>
    refine ⟨by simp [TileOccupancyIndex.call, h.entityAt_spec], fun d' answer hd => ?_⟩
    simp only [TileOccupancyIndex.call, h.entityAt_spec, Option.map_some, Option.some.injEq,
      Allocating.returned.injEq, Prod.mk.injEq] at hd
    obtain ⟨rfl, rfl⟩ := hd
    exact ⟨rfl, h⟩
  | size =>
    refine ⟨by simp [TileOccupancyIndex.call], fun d' answer hd => ?_⟩
    simp only [TileOccupancyIndex.call, Option.some.injEq, Allocating.returned.injEq,
      Prod.mk.injEq] at hd
    obtain ⟨rfl, rfl⟩ := hd
    exact ⟨by rw [h.size]; rfl, h⟩
  | clear =>
    refine ⟨by simp [TileOccupancyIndex.call], fun d' answer hd => ?_⟩
    simp only [TileOccupancyIndex.call, Option.some.injEq, Allocating.returned.injEq,
      Prod.mk.injEq] at hd
    obtain ⟨rfl, rfl⟩ := hd
    exact ⟨rfl, h.clear⟩

/-- With room for a doubled table an insertion returns. -/
theorem insert_ne_badAlloc (h8 : 8 ≤ room) (hroom : d.slotCount * 2 ≤ room) :
    d.insert room tile entity ≠ some .badAlloc := by
  have hgrown : d.grown room ≠ some .badAlloc := by
    unfold grown rehash
    split_ifs with hgrow hzero hlt hlt
    · omega
    · simp
    · omega
    · simp
    · simp
  unfold insert
  split_ifs
  · simp
  · cases hr : d.grown room with
    | none => simp
    | some r =>
      cases r with
      | badAlloc => exact absurd hr hgrown
      | returned d₁ => simp

end TileOccupancyIndex

namespace OccupancyRun

open TileOccupancyIndex

variable {d : TileOccupancyIndex} {m : OccupancyMap}

/-- **Every run keeps the index and the map together.** -/
theorem ready (h : OccupancyRun d m) : Ready d m := by
  induction h with
  | empty => exact ready_empty
  | call _ hc hd ih => exact ((ih.call hc).2 _ _ hd).2

/-- **The index is the map**: in every state that allowed calls lead to, a call answers what the
map answers, its probe loops end, and a table has a free slot. -/
theorem answers_as_map (h : OccupancyRun d m) :
    (∀ c, m.Admits c →
      (d.call c = none ↔ ∃ room n, c = .reserve room n ∧ 2 ^ 63 < n * 2 % 2 ^ 64) ∧
        ∀ d' answer, d.call c = some (.returned (d', answer)) → answer = (m.call c).2) ∧
      (∀ room tile entity, 8 ≤ room → d.slotCount * 2 ≤ room →
        d.insert room tile entity ≠ some .badAlloc) ∧
      (∀ tile, d.entityAt tile = some (m.entityAt tile)) ∧ d.size = m.keys.card ∧
      (d.slotCount ≠ 0 → ∃ i < d.slotCount, d.slots i = none) := by
  refine ⟨fun c hc => ⟨(h.ready.call hc).1, fun d' answer hd => ((h.ready.call hc).2 _ _ hd).1⟩,
    fun room tile entity => insert_ne_badAlloc, h.ready.entityAt_spec, h.ready.size, fun hne => ?_⟩
  exact h.ready.exists_free (h.ready.size_lt hne)

/-- One insertion into an empty index. -/
theorem answers_as_map_insert : ∃ d, OccupancyRun d (Finmap.insert ⟨1, 2, 3⟩ 7 ∅) ∧
    d.entityAt ⟨1, 2, 3⟩ = some 7 ∧ d.size = 1 := by
  have hadmits : (∅ : OccupancyMap).Admits (.insert 8 ⟨1, 2, 3⟩ 7) :=
    show (7 : EntityHandle) ≠ kNullEntityHandle by decide
  have haccepts : (∅ : OccupancyMap).Accepts ⟨1, 2, 3⟩ 7 := .inl (by simp)
  obtain hbad | ⟨d, success, hinsert, hsuccess, -⟩ := ready_empty.insert hadmits 8 ⟨1, 2, 3⟩
  · exact absurd hbad (insert_ne_badAlloc (by decide) (by decide))
  · have hcall : TileOccupancyIndex.call {} (.insert 8 ⟨1, 2, 3⟩ 7) =
        some (.returned (d, .inserted success)) := by
      rw [TileOccupancyIndex.call, hinsert]
      rfl
    have hrun := OccupancyRun.call .empty hadmits hcall
    have hmap : ((∅ : OccupancyMap).call (.insert 8 ⟨1, 2, 3⟩ 7)).1 =
        Finmap.insert ⟨1, 2, 3⟩ 7 ∅ := by rw [OccupancyMap.call, if_pos haccepts]
    rw [hmap] at hrun
    obtain ⟨-, -, hentity, hsize, -⟩ := answers_as_map hrun
    refine ⟨d, hrun, ?_, ?_⟩
    · rw [hentity, OccupancyMap.entityAt, Finmap.lookup_insert]
      rfl
    · rw [hsize, keys_insert]
      simp

end OccupancyRun

end Tess
