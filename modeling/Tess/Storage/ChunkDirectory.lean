import Tess.Lib.LinearProbe
import Mathlib.Data.BitVec
import Mathlib.Data.Nat.Bitwise
import Mathlib.Data.Finmap

/-!
# The chunk directory

`ChunkDirectory` maps resident chunk keys to slots.  When the capacity covers the key space it is
an array of slots; otherwise it is an open-addressed table of twice the capacity, which deletes by
shifting cells back.

* `ChunkDirectory.reset`, `ChunkDirectory.find`, `ChunkDirectory.insert`,
  `ChunkDirectory.erase` : the operations, none when a probe loop would not end;
* `ChunkDirectory.Ok` : the invariant of either representation;
* `ChunkDirectory.find_spec`, `ChunkDirectory.insert_spec`, `ChunkDirectory.erase_spec` : **the
  directory is a map** while it has at most `capacity` keys;
* `ChunkDirectory.run_eq_slotMap` : **a run of calls answers as a finite map does**.
-/

namespace Tess

open Probing

/-- `detail::ChunkDirectory`; an absent slot is `npos`. -/
structure ChunkDirectory where
  /-- Open-addressed cells, each free or with a key and its slot. -/
  buckets : ℕ → Option (ℕ × ℕ)
  /-- Slot of every key of a small key space. -/
  directSlots : ℕ → Option ℕ
  /-- Length of the slot array. -/
  directSize : ℕ
  /-- Number of cells less one; zero marks the slot array. -/
  mask : ℕ

namespace ChunkDirectory

/-- `ChunkDirectory::mix`. -/
def mix (x : BitVec 64) : BitVec 64 :=
  let x := x + 0x9e3779b97f4a7c15
  let x := (x ^^^ (x >>> 30)) * 0xbf58476d1ce4e5b9
  let x := (x ^^^ (x >>> 27)) * 0x94d049bb133111eb
  x ^^^ (x >>> 31)

/-- The table size of `reset`: the doubling loop from a table on. -/
def growTable (target : ℕ) : ℕ → ℕ → ℕ
  | 0, table => table
  | fuel + 1, table => if table < target then growTable target fuel (table <<< 1) else table

/-- `ChunkDirectory::reset`. -/
def reset (capacity keyCount : ℕ) : ChunkDirectory :=
  if keyCount ≤ capacity then
    { buckets := fun _ => none
      directSlots := fun _ => none
      directSize := keyCount
      mask := 0 }
  else
    { buckets := fun _ => none
      directSlots := fun _ => none
      directSize := 0
      mask := growTable (capacity * 2) (capacity * 2) 2 - 1 }

variable (D : ChunkDirectory) (key slot : ℕ)

/-- `ChunkDirectory::home`. -/
def home : ℕ := (mix (BitVec.ofNat 64 key)).toNat &&& D.mask

/-- The cell that a probe loop looks at next. -/
def probe (i : ℕ) : ℕ := (i + 1) &&& D.mask

/-- `ChunkDirectory::find`; the inner value is the slot. -/
def find : Option (Option ℕ) :=
  if D.mask = 0 then
    some (if key ≥ D.directSize then none else D.directSlots key)
  else (scan D.probe (settles D.buckets key) (D.mask + 1) (D.home key)).map fun i =>
    (D.buckets i).map Prod.snd

/-- `ChunkDirectory::insert`. -/
def insert : Option ChunkDirectory :=
  if D.mask = 0 then some { D with directSlots := Function.update D.directSlots key (some slot) }
  else (scan D.probe (isFree D.buckets) (D.mask + 1) (D.home key)).map fun i =>
    { D with buckets := Function.update D.buckets i (some (key, slot)) }

/-- `ChunkDirectory::erase`, with its result. -/
def erase : Option (ChunkDirectory × Bool) :=
  if D.mask = 0 then
    some (if key ≥ D.directSize then (D, false)
      else if D.directSlots key = none then (D, false)
      else ({ D with directSlots := Function.update D.directSlots key none }, true))
  else
    match scan D.probe (settles D.buckets key) (D.mask + 1) (D.home key) with
    | none => none
    | some i =>
      if D.buckets i = none then some (D, false)
      else (shiftBack D.probe D.home (D.mask + 1) D.buckets i i).map fun buckets =>
        ({ D with buckets := buckets }, true)

/-! ### The invariant -/

/-- The directory of a world with this many chunks and slots. -/
def Ok (chunkCount capacity : ℕ) : Prop :=
  D.mask = 0 ∧ D.directSize = chunkCount ∨
    D.mask ≠ 0 ∧ (∃ e, D.mask + 1 = 2 ^ e) ∧ capacity * 2 ≤ D.mask + 1 ∧
      Probed (D.mask + 1) D.home D.buckets

/-- The directory maps the key to the slot. -/
def Maps : Prop :=
  if D.mask = 0 then key < D.directSize ∧ D.directSlots key = some slot
  else Probing.Maps (D.mask + 1) D.buckets key slot

variable {D} {key slot} {chunkCount capacity : ℕ} {keys : List ℕ}

theorem growTable_spec (target fuel table : ℕ) :
    (∃ e, growTable target fuel table = table * 2 ^ e) ∧
      (target ≤ table + fuel → 0 < table → target ≤ growTable target fuel table) := by
  induction fuel generalizing table with
  | zero => exact ⟨⟨0, by simp [growTable]⟩, fun h _ => by simpa [growTable] using h⟩
  | succ fuel ih =>
    unfold growTable
    split_ifs with hlt
    · obtain ⟨⟨e, he⟩, hle⟩ := ih (table <<< 1)
      rw [Nat.shiftLeft_eq, pow_one] at *
      refine ⟨⟨e + 1, ?_⟩, fun h h0 => hle (by omega) (by omega)⟩
      rw [he, pow_succ, mul_assoc, mul_comm 2]
    · exact ⟨⟨0, by simp⟩, fun _ _ => not_lt.1 hlt⟩

/-- A fresh directory. -/
theorem ok_reset : (reset capacity chunkCount).Ok chunkCount capacity := by
  unfold reset
  split_ifs
  · exact Or.inl ⟨rfl, rfl⟩
  · obtain ⟨⟨e, he⟩, hle⟩ := growTable_spec (capacity * 2) (capacity * 2) 2
    have hge : 2 ≤ growTable (capacity * 2) (capacity * 2) 2 := by
      rw [he]
      exact Nat.le_mul_of_pos_right 2 (Nat.two_pow_pos e)
    refine Or.inr ⟨by simp only; omega, ⟨e + 1, ?_⟩, ?_, probed_empty⟩
    · simp only
      rw [Nat.sub_add_cancel (by omega), he, pow_succ, mul_comm]
    · simp only
      rw [Nat.sub_add_cancel (by omega)]
      exact hle (by omega) (by omega)

theorem maps_reset : ¬ (reset capacity chunkCount).Maps key slot := by
  unfold reset Maps
  split_ifs <;> simp [Probing.Maps]

/-- In a table of two to some power the mask wraps round. -/
theorem probe_eq {e : ℕ} (he : D.mask + 1 = 2 ^ e) (i : ℕ) (hi : i < D.mask + 1) :
    D.probe i = next (D.mask + 1) i := by
  have hmask : D.mask = 2 ^ e - 1 := by omega
  unfold probe next
  rw [hmask, Nat.and_two_pow_sub_one_eq_mod, ← he]
  split_ifs with hlt
  · exact Nat.mod_eq_of_lt (by omega)
  · rw [show i + 1 = D.mask + 1 by omega, Nat.mod_self]

theorem home_lt (k : ℕ) : D.home k < D.mask + 1 :=
  Nat.lt_succ_of_le Nat.and_le_right

/-- Fewer keys than cells leave a free one. -/
theorem exists_free (hprobed : Probed (D.mask + 1) D.home D.buckets)
    (hcap : capacity * 2 ≤ D.mask + 1)
    (hkeys : ∀ k s, Probing.Maps (D.mask + 1) D.buckets k s → k ∈ keys)
    (hlen : keys.length ≤ capacity) : ∃ f < D.mask + 1, D.buckets f = none :=
  hprobed.exists_free hkeys (by omega)

/-! ### The operations -/

section Operations

variable (hok : D.Ok chunkCount capacity) (hkeys : ∀ k s, D.Maps k s → k ∈ keys)
  (hlen : keys.length ≤ capacity)

include hok hkeys hlen

/-- **A lookup** finds the slot that the directory maps the key to. -/
theorem find_spec : ∃ r, D.find key = some r ∧ ∀ s, r = some s ↔ D.Maps key s := by
  rcases hok with ⟨hm, hsize⟩ | ⟨hm, ⟨e, he⟩, hcap, hprobed⟩
  · refine ⟨_, by rw [find, if_pos hm], fun s => ?_⟩
    rw [Maps, if_pos hm]
    split_ifs with hge
    · exact ⟨fun h => (by cases h), fun h => absurd h.1 (not_lt.2 hge)⟩
    · exact ⟨fun h => ⟨not_le.1 hge, h⟩, fun h => h.2⟩
  · simp only [Maps, if_neg hm] at hkeys ⊢
    obtain ⟨i, hi, hscan, hfound⟩ := hprobed.scan_find (k := key) (probe_eq he) (home_lt key)
      (exists_free hprobed hcap hkeys hlen)
    refine ⟨(D.buckets i).map Prod.snd, by rw [find, if_neg hm, hscan]; rfl, fun s => ?_⟩
    rcases hfound with ⟨v, hv⟩ | ⟨hnone, hno⟩
    · rw [hv]
      simp only [Option.map_some, Option.some.injEq]
      exact ⟨fun h => ⟨i, hi, h ▸ hv⟩, fun h => hprobed.maps_unique ⟨i, hi, hv⟩ h⟩
    · rw [hnone]
      simp only [Option.map_none, reduceCtorEq, false_iff]
      exact hno s

/-- **An insertion** adds one mapping. -/
theorem insert_spec (hkey : key < chunkCount) (hnew : ∀ s, ¬ D.Maps key s) :
    ∃ D', D.insert key slot = some D' ∧ D'.Ok chunkCount capacity ∧
      ∀ k s, D'.Maps k s ↔ k = key ∧ s = slot ∨ D.Maps k s := by
  rcases hok with ⟨hm, hsize⟩ | ⟨hm, ⟨e, he⟩, hcap, hprobed⟩
  · refine ⟨{ D with directSlots := Function.update D.directSlots key (some slot) },
      by rw [insert, if_pos hm], Or.inl ⟨hm, hsize⟩, fun k s => ?_⟩
    have hno := hnew s
    simp only [Maps, hm, if_true, Function.update_apply] at hno ⊢
    by_cases hk : k = key
    · rw [hk, hsize] at *
      simp only [if_true, Option.some.injEq, hkey, true_and] at hno ⊢
      exact ⟨fun h => Or.inl h.symm, fun h => h.elim Eq.symm fun h => absurd h hno⟩
    · simp only [hk, if_false, false_and, false_or]
  · simp only [Maps, if_neg hm] at hkeys hnew
    have hfree := exists_free hprobed hcap hkeys hlen
    obtain ⟨i, hscan⟩ := exists_scan_free (probe_eq he) (home_lt key) hfree
    obtain ⟨hi, hnone, -⟩ := scan_spec (probe_eq he) (home_lt key) hscan
    refine ⟨{ D with buckets := Function.update D.buckets i (some (key, slot)) },
      by rw [insert, if_neg hm, hscan]; rfl, Or.inr ⟨hm, ⟨e, he⟩, hcap, ?_⟩, fun k s => ?_⟩
    · exact hprobed.insert (probe_eq he) (home_lt key) hnew hscan
    · simp only [Maps, if_neg hm]
      exact maps_update hi (isFree_iff.1 hnone)

/-- **An erasure** removes one mapping. -/
theorem erase_spec (hmaps : D.Maps key slot) :
    ∃ D', D.erase key = some (D', true) ∧ D'.Ok chunkCount capacity ∧
      ∀ k s, D'.Maps k s ↔ k ≠ key ∧ D.Maps k s := by
  rcases hok with ⟨hm, hsize⟩ | ⟨hm, ⟨e, he⟩, hcap, hprobed⟩
  · rw [Maps, if_pos hm] at hmaps
    refine ⟨{ D with directSlots := Function.update D.directSlots key none }, ?_,
      Or.inl ⟨hm, hsize⟩, fun k s => ?_⟩
    · simp [erase, hm, hmaps.1, hmaps.2]
    · simp only [Maps, hm, if_true, Function.update_apply]
      by_cases hk : k = key
      · simp [hk]
      · simp [hk]
  · simp only [Maps, if_neg hm] at hkeys hmaps
    obtain ⟨f, hf, hfree⟩ := exists_free hprobed hcap hkeys hlen
    obtain ⟨i, hi, hscan, hc⟩ :=
      hprobed.scan_of_maps (probe_eq he) (home_lt key) ⟨f, hf, hfree⟩ hmaps
    obtain ⟨buckets, hrun, hprobed', hmaps'⟩ :=
      Probed.shiftBack home_lt (probe_eq he) hprobed hf hfree hi hc
    refine ⟨{ D with buckets := buckets }, ?_, Or.inr ⟨hm, ⟨e, he⟩, hcap, hprobed'⟩,
      fun k s => ?_⟩
    · simp [erase, hm, hscan, hc, hrun]
    · simp only [Maps, if_neg hm]
      exact hmaps' k s

/-- **An erasure of an absent key** changes nothing. -/
theorem erase_absent (habsent : ∀ s, ¬ D.Maps key s) : D.erase key = some (D, false) := by
  rcases hok with ⟨hm, hsize⟩ | ⟨hm, ⟨e, he⟩, hcap, hprobed⟩
  · simp only [Maps, if_pos hm] at habsent
    rw [erase, if_pos hm]
    split_ifs with hge hnone
    · rfl
    · rfl
    · obtain ⟨s, hs⟩ := Option.ne_none_iff_exists'.1 hnone
      exact absurd ⟨not_le.1 hge, hs⟩ (habsent s)
  · simp only [Maps, if_neg hm] at hkeys habsent
    obtain ⟨i, hi, hscan, hfound⟩ := hprobed.scan_find (k := key) (probe_eq he) (home_lt key)
      (exists_free hprobed hcap hkeys hlen)
    rcases hfound with ⟨v, hv⟩ | ⟨hnone, -⟩
    · exact absurd ⟨i, hi, hv⟩ (habsent v)
    · simp [erase, hm, hscan, hnone]

end Operations

/-! ### Runs -/

/-- One call on a directory. -/
inductive Call
  | find (key : ℕ)
  | insert (key slot : ℕ)
  | erase (key : ℕ)

/-- What a call returns. -/
inductive Answer
  | found (slot : Option ℕ)
  | inserted
  | erased (present : Bool)
  deriving DecidableEq, Repr

/-- One call on the directory. -/
def call (D : ChunkDirectory) : Call → Option (ChunkDirectory × Answer)
  | .find key => (D.find key).map fun slot => (D, .found slot)
  | .insert key slot => (D.insert key slot).map fun D' => (D', .inserted)
  | .erase key => (D.erase key).map fun r => (r.1, .erased r.2)

/-- A run of calls with what they return. -/
def run (D : ChunkDirectory) : List Call → Option (ChunkDirectory × List Answer)
  | [] => some (D, [])
  | c :: calls =>
    match D.call c with
    | none => none
    | some (D', answer) => (D'.run calls).map fun r => (r.1, answer :: r.2)

/-- The finite map that the directory stands for. -/
abbrev SlotMap := Finmap fun _ : ℕ => ℕ

/-- One call on the finite map. -/
def SlotMap.call (m : SlotMap) : Call → SlotMap × Answer
  | .find key => (m, .found (m.lookup key))
  | .insert key slot => (m.insert key slot, .inserted)
  | .erase key => (m.erase key, .erased (decide (key ∈ m)))

/-- A run of calls on the finite map. -/
def SlotMap.run (m : SlotMap) : List Call → SlotMap × List Answer
  | [] => (m, [])
  | c :: calls => (((m.call c).1.run calls).1, (m.call c).2 :: ((m.call c).1.run calls).2)

/-- Every insertion of the run is of an absent key of the key space, with room for it. -/
def SlotMap.Admits (chunkCount capacity : ℕ) (m : SlotMap) : List Call → Prop
  | [] => True
  | c :: calls =>
    (∀ key slot, c = .insert key slot →
      key < chunkCount ∧ key ∉ m ∧ m.keys.card < capacity) ∧
      (m.call c).1.Admits chunkCount capacity calls

/-- **The directory holds the map**: its invariant, the same pairs, and no more than
`capacity` of them. -/
structure Holds (chunkCount capacity : ℕ) (D : ChunkDirectory) (m : SlotMap) : Prop where
  /-- The invariant of the representation. -/
  ok : D.Ok chunkCount capacity
  /-- The directory maps what the map does. -/
  maps : ∀ k s, D.Maps k s ↔ m.lookup k = some s
  /-- No more keys than slots. -/
  few : m.keys.card ≤ capacity

variable {m : SlotMap}

theorem Holds.mem_keys (h : Holds chunkCount capacity D m) (k s : ℕ) (hk : D.Maps k s) :
    k ∈ m.keys.toList := by
  rw [Finset.mem_toList, Finmap.mem_keys, Finmap.mem_iff]
  exact ⟨s, (h.maps k s).1 hk⟩

theorem Holds.length_keys (h : Holds chunkCount capacity D m) :
    m.keys.toList.length ≤ capacity := by
  rw [Finset.length_toList]
  exact h.few

/-- **A call keeps the directory and the map together**, and both return the same. -/
theorem Holds.call (h : Holds chunkCount capacity D m) {c : Call}
    (hc : ∀ key slot, c = .insert key slot →
      key < chunkCount ∧ key ∉ m ∧ m.keys.card < capacity) :
    ∃ D', D.call c = some (D', (m.call c).2) ∧ Holds chunkCount capacity D' (m.call c).1 := by
  cases c with
  | find key =>
    obtain ⟨r, hfind, hr⟩ : ∃ r, D.find key = some r ∧ ∀ s, r = some s ↔ D.Maps key s :=
      find_spec h.ok h.mem_keys h.length_keys
    have hlookup : r = m.lookup key := by
      ext s
      exact (hr s).trans (h.maps key s)
    exact ⟨D, by rw [ChunkDirectory.call, hfind, hlookup]; rfl, h⟩
  | insert key slot =>
    obtain ⟨hkey, habsent, hroom⟩ := hc key slot rfl
    have hnone := Finmap.lookup_eq_none.2 habsent
    obtain ⟨D', hinsert, hok, hmaps⟩ : ∃ D', D.insert key slot = some D' ∧
        D'.Ok chunkCount capacity ∧ ∀ k s, D'.Maps k s ↔ k = key ∧ s = slot ∨ D.Maps k s :=
      insert_spec h.ok h.mem_keys h.length_keys hkey fun s hs => by
        rw [(h.maps key s).1 hs] at hnone
        cases hnone
    refine ⟨D', by rw [ChunkDirectory.call, hinsert]; rfl, hok, fun k s => ?_, ?_⟩
    · rw [hmaps, h.maps]
      by_cases hk : k = key
      · subst hk
        simp only [true_and, hnone, reduceCtorEq, or_false, SlotMap.call, Finmap.lookup_insert,
          Option.some.injEq]
        exact eq_comm
      · simp [SlotMap.call, hk, Finmap.lookup_insert_of_ne m hk]
    · have hkeys : (m.insert key slot).keys = Insert.insert key m.keys := by
        ext k
        simp only [Finmap.mem_keys, Finmap.mem_insert, Finset.mem_insert]
      rw [SlotMap.call, hkeys]
      exact (Finset.card_insert_le _ _).trans hroom
  | erase key =>
    by_cases hmem : key ∈ m
    · obtain ⟨slot, hslot⟩ := Finmap.mem_iff.1 hmem
      obtain ⟨D', herase, hok, hmaps⟩ :=
        erase_spec h.ok h.mem_keys h.length_keys ((h.maps key slot).2 hslot)
      refine ⟨D', by simp [ChunkDirectory.call, herase, SlotMap.call, hmem], hok,
        fun k s => ?_, ?_⟩
      · rw [hmaps, h.maps]
        by_cases hk : k = key
        · subst hk
          simp [SlotMap.call]
        · simp [SlotMap.call, hk, Finmap.lookup_erase_ne hk]
      · rw [SlotMap.call, Finmap.keys_erase]
        exact Finset.card_erase_le.trans h.few
    · have hnone := Finmap.lookup_eq_none.2 hmem
      have herase : D.erase key = some (D, false) :=
        erase_absent h.ok h.mem_keys h.length_keys fun s hs => by
          rw [(h.maps key s).1 hs] at hnone
          cases hnone
      refine ⟨D, by simp [ChunkDirectory.call, herase, SlotMap.call, hmem], h.ok,
        fun k s => ?_, ?_⟩
      · rw [h.maps]
        by_cases hk : k = key
        · subst hk
          simp [SlotMap.call, hnone]
        · simp [SlotMap.call, Finmap.lookup_erase_ne hk]
      · rw [SlotMap.call, Finmap.keys_erase]
        exact Finset.card_erase_le.trans h.few

/-- A run keeps the directory and the map together. -/
theorem Holds.run (h : Holds chunkCount capacity D m) {calls : List Call}
    (hcalls : m.Admits chunkCount capacity calls) :
    ∃ D', D.run calls = some (D', (m.run calls).2) ∧
      Holds chunkCount capacity D' (m.run calls).1 := by
  induction calls generalizing D m with
  | nil => exact ⟨D, rfl, h⟩
  | cons c calls ih =>
    obtain ⟨D₁, hcall, h₁⟩ := h.call hcalls.1
    obtain ⟨D₂, hrun, h₂⟩ := ih h₁ hcalls.2
    exact ⟨D₂, by rw [ChunkDirectory.run, hcall]; simp only [hrun]; rfl, h₂⟩

/-- A fresh directory holds the empty map. -/
theorem holds_reset : Holds chunkCount capacity (reset capacity chunkCount) ∅ where
  ok := ok_reset
  maps k s := by simp [maps_reset]
  few := by simp

/-- **The directory answers as a finite map does**: every run of calls that inserts only absent
keys of the key space, while there is room, ends with the answers of the map. -/
theorem run_eq_slotMap (capacity chunkCount : ℕ) (calls : List Call)
    (hcalls : (∅ : SlotMap).Admits chunkCount capacity calls) :
    ∃ D, (reset capacity chunkCount).run calls = some (D, ((∅ : SlotMap).run calls).2) := by
  obtain ⟨D, hrun, -⟩ := holds_reset.run hcalls
  exact ⟨D, hrun⟩

theorem run_eq_slotMap_two :
    ∃ D, (reset 1 5).run [.insert 3 0, .find 3, .erase 3, .erase 3, .find 3] =
      some (D, [.inserted, .found (some 0), .erased true, .erased false, .found none]) := by
  obtain ⟨D, hrun⟩ := run_eq_slotMap 1 5 [.insert 3 0, .find 3, .erase 3, .erase 3, .find 3] (by
    refine ⟨fun key slot h => ?_, by simp, by simp, by simp, by simp, trivial⟩
    obtain ⟨rfl, rfl⟩ := Call.insert.inj h
    exact ⟨by decide, Finmap.notMem_empty, by simp⟩)
  refine ⟨D, hrun.trans ?_⟩
  simp [SlotMap.run, SlotMap.call]

end ChunkDirectory

end Tess
