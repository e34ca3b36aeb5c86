import Mathlib.Algebra.Ring.Nat
import Mathlib.Data.List.Range
import Mathlib.Logic.Function.Basic
import Mathlib.Tactic.SplitIfs

/-!
# The chunk index of the planner

A `ChunkOperationIndex` maps chunk keys to the operations that touch them: buckets of chained
nodes, which are numbered in 32 bits.  Buckets carry a generation, so that clearing the index
leaves them in place.

* `ChunkOperationIndex.insert`, `ChunkOperationIndex.forEachSharing` : the operations;
* `ChunkOperationIndex.Linked` : the chain of each bucket lists its nodes, newest first;
* `forEachSharing_spec` : **a lookup finds what was inserted**, as long as the nodes can be
  numbered.
-/

namespace Tess

/-- The end of a chain; no node has this number. -/
@[irreducible] def npos : ℕ := 2 ^ 32 - 1

/-- A bucket: the head of its chain and the generation it belongs to. -/
structure IndexSlot where
  /-- First node. -/
  head : ℕ := npos
  /-- Generation of the head. -/
  generation : ℕ := 0

/-- A node of a chain. -/
structure IndexNode where
  /-- Chunk key. -/
  key : ℕ := 0
  /-- Operation that touches the chunk. -/
  opIndex : ℕ := 0
  /-- Next node. -/
  next : ℕ := npos

/-- Chunk keys with the operations that touch them. -/
structure ChunkOperationIndex where
  /-- Number of buckets. -/
  slotCount : ℕ := 0
  /-- Buckets. -/
  slots : ℕ → IndexSlot := fun _ => {}
  /-- Number of nodes. -/
  nodeCount : ℕ := 0
  /-- Nodes. -/
  nodes : ℕ → IndexNode := fun _ => {}
  /-- Generation of the live buckets. -/
  generation : ℕ := 1

namespace ChunkOperationIndex

variable (idx : ChunkOperationIndex)

/-- `mix`. -/
def mix (key : ℕ) : ℕ :=
  let key := key ^^^ (key >>> 33)
  let key := key * 0xff51afd7ed558ccd % 2 ^ 64
  key ^^^ (key >>> 33)

/-- Bucket of a key. -/
def bucket (key : ℕ) : ℕ := mix key &&& (idx.slotCount - 1)

/-- Head of the chain of a bucket. -/
def headOf (b : ℕ) : ℕ :=
  if (idx.slots b).generation = idx.generation then (idx.slots b).head else npos

/-- `link`: put a node in front of the chain of its bucket. -/
def link (node : ℕ) : ChunkOperationIndex :=
  let b := idx.bucket (idx.nodes node).key
  { idx with
    nodes := Function.update idx.nodes node { idx.nodes node with next := idx.headOf b }
    slots := Function.update idx.slots b { head := node, generation := idx.generation } }

/-- The loop that links the nodes anew. -/
def relink : ℕ → ℕ → ChunkOperationIndex → ChunkOperationIndex
  | 0, _, idx => idx
  | n + 1, i, idx =>
    let idx := { idx with nodes := Function.update idx.nodes i { idx.nodes i with next := npos } }
    relink n (i + 1) (idx.link (i % 2 ^ 32))

/-- `rehash`. -/
def rehash (capacity : ℕ) : ChunkOperationIndex :=
  if capacity ≤ idx.slotCount then idx
  else relink idx.nodeCount 0 { idx with slotCount := capacity, slots := fun _ => {} }

/-- The loop of `capacity_for`. -/
def growCapacity (target : ℕ) : ℕ → ℕ → ℕ
  | 0, capacity => capacity
  | n + 1, capacity =>
    if capacity < target then growCapacity target n (capacity * 2) else capacity

/-- `capacity_for`. -/
def capacityFor (nodes : ℕ) : ℕ := growCapacity (nodes * 2) nodes 16

/-- `reserve`. -/
def reserve (nodes : ℕ) : ChunkOperationIndex := idx.rehash (capacityFor nodes)

/-- `clear`: the buckets stay, unless the generation wraps. -/
def clear : ChunkOperationIndex :=
  let generation := (idx.generation + 1) % 2 ^ 32
  if generation ≠ 0 then { idx with nodeCount := 0, nodes := fun _ => {}, generation := generation }
  else
    { idx with nodeCount := 0, nodes := fun _ => {}, slots := fun _ => {}, generation := 1 }

/-- One node more. -/
def pushNode (key opIndex : ℕ) : ChunkOperationIndex :=
  { idx with
    nodes := Function.update idx.nodes idx.nodeCount { key := key, opIndex := opIndex }
    nodeCount := idx.nodeCount + 1 }

/-- The loop of `insert`. -/
def insertKeys (opIndex : ℕ) : List ℕ → ChunkOperationIndex → ChunkOperationIndex
  | [], idx => idx
  | key :: keys, idx =>
    let idx := idx.pushNode key opIndex
    insertKeys opIndex keys (idx.link ((idx.nodeCount - 1) % 2 ^ 32))

/-- `insert`: the operation touches every key. -/
def insert (chunks : List ℕ) (opIndex : ℕ) : ChunkOperationIndex :=
  let idx := if idx.slotCount = 0 ∨ (idx.nodeCount + chunks.length) * 2 ≥ idx.slotCount then
    idx.rehash (capacityFor (idx.nodeCount + chunks.length)) else idx
  idx.insertKeys opIndex chunks

/-- The nodes of a chain; none when the fuel runs out before the chain ends. -/
def walk (nodes : ℕ → IndexNode) : ℕ → ℕ → Option (List ℕ)
  | 0, _ => none
  | fuel + 1, node =>
    if node = npos then some [] else (walk nodes fuel (nodes node).next).map (node :: ·)

/-- The operations that touch a key, newest first. -/
def sharing (key : ℕ) : Option (List ℕ) :=
  (walk idx.nodes (idx.nodeCount + 1) (idx.headOf (idx.bucket key))).map fun nodes =>
    (nodes.filter fun node => (idx.nodes node).key = key).map fun node => (idx.nodes node).opIndex

/-- The visits of `for_each_sharing`; none when a chain does not end. -/
def forEachSharing (chunks : List ℕ) : Option (List ℕ) :=
  if idx.slotCount = 0 then some []
  else
    match chunks with
    | [] => some []
    | key :: keys =>
      match idx.sharing key, forEachSharing keys with
      | some l, some l' => some (l ++ l')
      | _, _ => none

/-! ### Chains -/

variable {idx} {nodes nodes' : ℕ → IndexNode} {h k : ℕ} {l : List ℕ} {chunks : List ℕ} {opIndex : ℕ}

/-- A chain from a head. -/
def Chain (nodes : ℕ → IndexNode) : ℕ → List ℕ → Prop
  | h, [] => h = npos
  | h, i :: l => h = i ∧ i ≠ npos ∧ Chain nodes (nodes i).next l

theorem Chain.congr (hc : Chain nodes h l) (hn : ∀ i ∈ l, (nodes' i).next = (nodes i).next) :
    Chain nodes' h l := by
  induction l generalizing h with
  | nil => exact hc
  | cons i l ih =>
    obtain ⟨rfl, hne, hc⟩ := hc
    refine ⟨rfl, hne, ?_⟩
    rw [hn h List.mem_cons_self]
    exact ih hc fun i hi => hn i (List.mem_cons_of_mem _ hi)

/-- Walking a chain lists it. -/
theorem walk_eq (hc : Chain nodes h l) {fuel : ℕ} (hfuel : l.length < fuel) :
    walk nodes fuel h = some l := by
  induction l generalizing h fuel with
  | nil =>
    obtain ⟨n, rfl⟩ := Nat.exists_eq_add_of_lt hfuel
    obtain rfl : h = npos := hc
    simp [walk]
  | cons i l ih =>
    obtain ⟨rfl, hne, hc⟩ := hc
    cases fuel with
    | zero => cases hfuel
    | succ fuel =>
      rw [walk, if_neg hne, ih hc (by simpa using hfuel)]
      rfl

variable (idx) in
/-- The first nodes of a bucket, newest first. -/
def bucketNodes (k b : ℕ) : List ℕ :=
  ((List.range k).filter fun i => idx.bucket (idx.nodes i).key = b).reverse

theorem mem_bucketNodes {b i : ℕ} :
    i ∈ idx.bucketNodes k b ↔ i < k ∧ idx.bucket (idx.nodes i).key = b := by
  simp [bucketNodes]

variable (idx) in
/-- **The chains** of the buckets list the first nodes. -/
def Linked (k : ℕ) : Prop := ∀ b, Chain idx.nodes (idx.headOf b) (idx.bucketNodes k b)

/-- The nodes of two indexes have the same keys and operations. -/
def SameKeys (idx idx' : ChunkOperationIndex) : Prop :=
  ∀ i, (idx'.nodes i).key = (idx.nodes i).key ∧ (idx'.nodes i).opIndex = (idx.nodes i).opIndex

theorem link_sameKeys (node : ℕ) : SameKeys idx (idx.link node) := by
  intro i
  by_cases h : i = node
  · subst h
    simp [link]
  · simp [link, Function.update_of_ne h]

theorem bucketNodes_congr {idx' : ChunkOperationIndex} (hs : idx'.slotCount = idx.slotCount)
    (hk : ∀ i < k, (idx'.nodes i).key = (idx.nodes i).key) (b : ℕ) :
    idx'.bucketNodes k b = idx.bucketNodes k b := by
  refine congrArg List.reverse (List.filter_congr fun i hi => ?_)
  rw [bucket, bucket, hs, hk i (List.mem_range.1 hi)]

/-- **Linking the next node** puts it in front of the chain of its bucket. -/
theorem Linked.link (hl : idx.Linked k) (hk : k ≠ npos) : (idx.link k).Linked (k + 1) := by
  intro b
  have hkeys : ∀ i < k + 1, ((idx.link k).nodes i).key = (idx.nodes i).key := fun i _ =>
    (link_sameKeys k i).1
  have hnext : ∀ i ∈ idx.bucketNodes k b, ((idx.link k).nodes i).next = (idx.nodes i).next :=
    fun i hi => by
      have := (mem_bucketNodes.1 hi).1
      simp [ChunkOperationIndex.link, Function.update_of_ne (Nat.ne_of_lt this)]
  have hnodes : (idx.link k).bucketNodes (k + 1) b = idx.bucketNodes (k + 1) b :=
    bucketNodes_congr (show (idx.link k).slotCount = idx.slotCount from rfl) hkeys b
  rw [hnodes, bucketNodes, List.range_succ, List.filter_append, List.reverse_append]
  by_cases hb : idx.bucket (idx.nodes k).key = b
  · have hhead : (idx.link k).headOf b = k := by
      subst hb
      simp [headOf, ChunkOperationIndex.link]
    rw [hhead, List.filter_cons_of_pos (by simpa using hb)]
    refine ⟨rfl, hk, ?_⟩
    have hnode : ((idx.link k).nodes k).next = idx.headOf b := by
      subst hb
      simp [ChunkOperationIndex.link]
    rw [hnode]
    exact (hl b).congr hnext
  · have hhead : (idx.link k).headOf b = idx.headOf b := by
      simp [headOf, ChunkOperationIndex.link, Function.update_of_ne (Ne.symm hb)]
    rw [hhead, List.filter_cons_of_neg (by simpa using hb)]
    exact (hl b).congr hnext

/-- A change that the chains do not see. -/
theorem Linked.congr {idx' : ChunkOperationIndex} (hl : idx.Linked k)
    (hs : idx'.slotCount = idx.slotCount) (hhead : ∀ b, idx'.headOf b = idx.headOf b)
    (hn : ∀ i < k, (idx'.nodes i).key = (idx.nodes i).key ∧
      (idx'.nodes i).next = (idx.nodes i).next) : idx'.Linked k := by
  intro b
  rw [bucketNodes_congr hs (fun i hi => (hn i hi).1), hhead]
  exact (hl b).congr fun i hi => (hn i (mem_bucketNodes.1 hi).1).2

/-- **What an index keeps** while its nodes can be numbered. -/
structure Indexes (idx : ChunkOperationIndex) (entries : List (ℕ × ℕ)) : Prop where
  /-- No bucket is ahead of its index. -/
  stamped : ∀ b, (idx.slots b).generation ≤ idx.generation
  /-- An index without buckets has no nodes. -/
  slots_pos : idx.slotCount = 0 → idx.nodeCount = 0
  /-- Chains list the nodes. -/
  linked : idx.Linked idx.nodeCount
  /-- The nodes are what was inserted. -/
  entries_eq : (List.range idx.nodeCount).map (fun i => ((idx.nodes i).key, (idx.nodes i).opIndex)) =
    entries

/-- Everything but the chains stays. -/
structure Relinked (idx idx' : ChunkOperationIndex) : Prop where
  /-- The keys and operations stay. -/
  keys : SameKeys idx idx'
  /-- The number of nodes stays. -/
  nodeCount : idx'.nodeCount = idx.nodeCount
  /-- The generation stays. -/
  generation : idx'.generation = idx.generation
  /-- No bucket gets ahead. -/
  stamped : (∀ b, (idx.slots b).generation ≤ idx.generation) →
    ∀ b, (idx'.slots b).generation ≤ idx'.generation

theorem Relinked.refl (idx : ChunkOperationIndex) : Relinked idx idx :=
  ⟨fun _ => ⟨rfl, rfl⟩, rfl, rfl, fun h => h⟩

theorem Relinked.trans {idx' idx'' : ChunkOperationIndex} (h : Relinked idx idx')
    (h' : Relinked idx' idx'') : Relinked idx idx'' :=
  ⟨fun i => ⟨(h'.keys i).1.trans (h.keys i).1, (h'.keys i).2.trans (h.keys i).2⟩,
    h'.nodeCount.trans h.nodeCount, h'.generation.trans h.generation,
    fun hs => h'.stamped (h.stamped hs)⟩

theorem link_relinked (node : ℕ) : Relinked idx (idx.link node) := by
  refine ⟨link_sameKeys node, rfl, rfl, fun hs b => ?_⟩
  by_cases h : b = idx.bucket (idx.nodes node).key
  · simp [link, h]
  · simpa [link, Function.update_of_ne h] using hs b

/-- **Linking the nodes anew** lists the next ones too. -/
theorem relink_spec (n i : ℕ) (idx : ChunkOperationIndex) (hl : idx.Linked i)
    (hlt : i + n ≤ npos) : (relink n i idx).Linked (i + n) ∧ Relinked idx (relink n i idx) ∧
      (relink n i idx).slotCount = idx.slotCount := by
  induction n generalizing i idx with
  | zero => exact ⟨hl, .refl idx, rfl⟩
  | succ n ih =>
    have hmod : i % 2 ^ 32 = i := Nat.mod_eq_of_lt (by unfold npos at hlt; omega)
    set idx₁ : ChunkOperationIndex :=
      { idx with nodes := Function.update idx.nodes i { idx.nodes i with next := npos } } with h₁
    have hkeys : Relinked idx idx₁ := by
      refine ⟨fun j => ?_, rfl, rfl, fun hs => hs⟩
      by_cases h : j = i
      · subst h
        simp [h₁]
      · simp [h₁, Function.update_of_ne h]
    have hl₁ : idx₁.Linked i := hl.congr rfl (fun _ => rfl) fun j hj => by
      simp [h₁, Function.update_of_ne (Nat.ne_of_lt hj)]
    rw [relink]
    change (relink n (i + 1) (idx₁.link (i % 2 ^ 32))).Linked _ ∧ _
    rw [hmod]
    obtain ⟨h2, h3, h4⟩ := ih (i + 1) (idx₁.link i) (hl₁.link (by omega)) (by omega)
    refine ⟨?_, (hkeys.trans (link_relinked i)).trans h3, h4⟩
    rwa [show i + (n + 1) = i + 1 + n by omega]

theorem Relinked.indexes {idx' : ChunkOperationIndex} {entries : List (ℕ × ℕ)}
    (h : Relinked idx idx') (hi : idx.Indexes entries) (hl : idx'.Linked idx'.nodeCount)
    (hs : idx'.slotCount = 0 → idx'.nodeCount = 0) : idx'.Indexes entries := by
  refine ⟨h.stamped hi.stamped, hs, hl, ?_⟩
  rw [← hi.entries_eq, h.nodeCount]
  exact List.map_congr_left fun i _ => by rw [(h.keys i).1, (h.keys i).2]

/-- **Rehashing** keeps the entries. -/
theorem Indexes.rehash {entries : List (ℕ × ℕ)} (hi : idx.Indexes entries)
    (hlt : idx.nodeCount ≤ npos) (capacity : ℕ) :
    (idx.rehash capacity).Indexes entries ∧ (idx.rehash capacity).nodeCount = idx.nodeCount ∧
      capacity ≤ (idx.rehash capacity).slotCount := by
  unfold ChunkOperationIndex.rehash
  split_ifs with h
  · exact ⟨hi, rfl, h⟩
  · set idx₁ : ChunkOperationIndex := { idx with slotCount := capacity, slots := fun _ => {} }
      with h₁
    have hrel : Relinked idx idx₁ := ⟨fun _ => ⟨rfl, rfl⟩, rfl, rfl, fun _ b => Nat.zero_le _⟩
    have hl₁ : idx₁.Linked 0 := fun b => by
      have : idx₁.headOf b = npos := by
        simp only [headOf, h₁]
        split_ifs <;> rfl
      rw [this]
      rfl
    obtain ⟨h2, h3, h4⟩ := relink_spec idx.nodeCount 0 idx₁ hl₁ (by omega)
    rw [Nat.zero_add] at h2
    have hcount := (hrel.trans h3).nodeCount
    refine ⟨(hrel.trans h3).indexes hi (by rwa [hcount]) fun h0 => ?_, hcount, h4.ge⟩
    rw [h4] at h0
    change capacity = 0 at h0
    omega

theorem capacityFor_pos (nodes : ℕ) : 0 < capacityFor nodes := by
  have hgrow (target n capacity : ℕ) (h : 0 < capacity) : 0 < growCapacity target n capacity := by
    induction n generalizing capacity with
    | zero => exact h
    | succ n ih =>
      rw [growCapacity]
      split_ifs
      · exact ih _ (by omega)
      · exact h
  exact hgrow _ _ _ (by omega)

/-- One node more is one entry more. -/
theorem Indexes.push {entries : List (ℕ × ℕ)} (hi : idx.Indexes entries) (hs : idx.slotCount ≠ 0)
    (hlt : idx.nodeCount < npos) (key opIndex : ℕ) :
    ((idx.pushNode key opIndex).link (idx.nodeCount % 2 ^ 32)).Indexes
      (entries ++ [(key, opIndex)]) := by
  have hmod : idx.nodeCount % 2 ^ 32 = idx.nodeCount :=
    Nat.mod_eq_of_lt (by unfold npos at hlt; omega)
  have hold : ∀ i < idx.nodeCount, (idx.pushNode key opIndex).nodes i = idx.nodes i := fun i h => by
    simp [pushNode, Function.update_of_ne (Nat.ne_of_lt h)]
  have hl₁ : (idx.pushNode key opIndex).Linked idx.nodeCount :=
    hi.linked.congr rfl (fun _ => rfl) fun i h => by simp [hold i h]
  have hrel := @link_relinked (idx.pushNode key opIndex) idx.nodeCount
  rw [hmod]
  refine ⟨hrel.stamped hi.stamped, fun h => absurd h hs, hl₁.link (by omega), ?_⟩
  rw [hrel.nodeCount]
  change (List.range (idx.nodeCount + 1)).map _ = _
  rw [List.range_succ, List.map_append, ← hi.entries_eq]
  congr 1
  · refine List.map_congr_left fun i h => ?_
    rw [(hrel.keys i).1, (hrel.keys i).2, hold i (List.mem_range.1 h)]
  · rw [List.map_singleton, (hrel.keys _).1, (hrel.keys _).2]
    simp [pushNode]

theorem Indexes.insertKeys {entries : List (ℕ × ℕ)} (hi : idx.Indexes entries)
    (hs : idx.slotCount ≠ 0) (hlt : idx.nodeCount + chunks.length ≤ npos) :
    (idx.insertKeys opIndex chunks).Indexes (entries ++ chunks.map fun key => (key, opIndex)) ∧
      (idx.insertKeys opIndex chunks).nodeCount = idx.nodeCount + chunks.length := by
  induction chunks generalizing idx entries with
  | nil =>
    rw [List.map_nil, List.append_nil]
    exact ⟨hi, rfl⟩
  | cons key keys ih =>
    rw [List.length_cons] at hlt
    obtain ⟨h1, h2⟩ := ih (hi.push hs (by omega) key opIndex) hs (by
      change idx.nodeCount + 1 + keys.length ≤ npos
      omega)
    refine ⟨?_, h2.trans ?_⟩
    · rw [List.append_assoc] at h1
      exact h1
    · change idx.nodeCount + 1 + keys.length = _
      rw [List.length_cons]
      omega

/-- **Inserting** adds an entry for every key. -/
theorem Indexes.insert {entries : List (ℕ × ℕ)} (hi : idx.Indexes entries)
    (hlt : idx.nodeCount + chunks.length ≤ npos) :
    (idx.insert chunks opIndex).Indexes (entries ++ chunks.map fun key => (key, opIndex)) ∧
      (idx.insert chunks opIndex).nodeCount = idx.nodeCount + chunks.length := by
  unfold ChunkOperationIndex.insert
  simp only
  split_ifs with h
  · obtain ⟨h1, h2, h3⟩ := hi.rehash (by omega) (capacityFor (idx.nodeCount + chunks.length))
    have hpos := capacityFor_pos (idx.nodeCount + chunks.length)
    obtain ⟨h4, h5⟩ := @Indexes.insertKeys _ chunks opIndex _ h1 (by omega) (by omega)
    exact ⟨h4, by rw [h5, h2]⟩
  · push Not at h
    exact hi.insertKeys h.1 hlt

/-- **Clearing** forgets every entry. -/
theorem indexes_clear (hstamped : ∀ b, (idx.slots b).generation ≤ idx.generation)
    (hgen : idx.generation < 2 ^ 32) : idx.clear.Indexes [] := by
  unfold clear
  simp only
  split_ifs with h
  · have hsucc : (idx.generation + 1) % 2 ^ 32 = idx.generation + 1 := by omega
    refine ⟨fun b => ?_, fun _ => rfl, fun b => ?_, rfl⟩
    · have := hstamped b
      simp only
      omega
    · have hne : (idx.slots b).generation ≠ (idx.generation + 1) % 2 ^ 32 := by
        have := hstamped b
        omega
      simp only [headOf, if_neg hne]
      rfl
  · refine ⟨fun b => Nat.zero_le _, fun _ => rfl, fun b => ?_, rfl⟩
    simp only [headOf]
    split_ifs <;> rfl

/-- A lookup of one key finds the operations of its entries. -/
theorem Indexes.sharing {entries : List (ℕ × ℕ)} (hi : idx.Indexes entries) (key : ℕ) :
    ∃ l, idx.sharing key = some l ∧ ∀ o, o ∈ l ↔ (key, o) ∈ entries := by
  have hlen : (idx.bucketNodes idx.nodeCount (idx.bucket key)).length < idx.nodeCount + 1 := by
    rw [bucketNodes, List.length_reverse]
    refine Nat.lt_succ_of_le ((List.length_filter_le _ _).trans ?_)
    rw [List.length_range]
  refine ⟨_, by rw [ChunkOperationIndex.sharing, walk_eq (hi.linked _) hlen]; rfl, fun o => ?_⟩
  rw [← hi.entries_eq]
  simp only [List.mem_map, List.mem_filter, mem_bucketNodes, decide_eq_true_eq, List.mem_range,
    Prod.mk.injEq]
  constructor
  · rintro ⟨i, ⟨⟨hi, -⟩, hk⟩, ho⟩
    exact ⟨i, hi, hk, ho⟩
  · rintro ⟨i, hi, hk, ho⟩
    exact ⟨i, ⟨⟨hi, by rw [hk]⟩, hk⟩, ho⟩

/-- **A lookup finds what was inserted.** -/
theorem forEachSharing_spec {entries : List (ℕ × ℕ)} (hi : idx.Indexes entries)
    (chunks : List ℕ) :
    ∃ l, idx.forEachSharing chunks = some l ∧ ∀ o, o ∈ l ↔ ∃ key ∈ chunks, (key, o) ∈ entries := by
  by_cases h0 : idx.slotCount = 0
  · have hnil : entries = [] := by rw [← hi.entries_eq, hi.slots_pos h0]; rfl
    refine ⟨[], ?_, fun o => by simp [hnil]⟩
    cases chunks <;> simp [forEachSharing, h0]
  · induction chunks with
    | nil => exact ⟨[], by simp [forEachSharing], fun o => by simp⟩
    | cons key keys ih =>
      obtain ⟨l, hl, hmem⟩ := hi.sharing key
      obtain ⟨l', hl', hmem'⟩ := ih
      refine ⟨l ++ l', by simp [forEachSharing, h0, hl, hl'], fun o => ?_⟩
      rw [List.mem_append, hmem, hmem']
      simp

theorem insertKeys_append (chunks' : List ℕ) :
    idx.insertKeys opIndex (chunks ++ chunks') =
      (idx.insertKeys opIndex chunks).insertKeys opIndex chunks' := by
  induction chunks generalizing idx with
  | nil => rfl
  | cons key keys ih => exact ih

theorem insertKeys_nodeCount :
    (idx.insertKeys opIndex chunks).nodeCount = idx.nodeCount + chunks.length := by
  induction chunks generalizing idx with
  | nil => rfl
  | cons key keys ih =>
    refine ih.trans ?_
    change idx.nodeCount + 1 + keys.length = _
    rw [List.length_cons]
    omega

/-- **The node whose number ends a chain** makes a lookup of its key find nothing. -/
theorem sharing_insert_full {entries : List (ℕ × ℕ)} (hi : idx.Indexes entries) {key : ℕ}
    (hcount : idx.nodeCount + chunks.length = npos) :
    (idx.insert (chunks ++ [key]) opIndex).sharing key = some [] := by
  have hnpos : npos % 2 ^ 32 = npos := by unfold npos; rfl
  have hlast {idx' : ChunkOperationIndex} (hidx : idx'.nodeCount = idx.nodeCount) :
      (idx'.insertKeys opIndex (chunks ++ [key])).sharing key = some [] := by
    rw [insertKeys_append]
    set idx₁ := idx'.insertKeys opIndex chunks with h₁
    have hcount₁ : idx₁.nodeCount = npos := by rw [h₁, insertKeys_nodeCount, hidx, hcount]
    have hhead : (idx₁.insertKeys opIndex [key]).headOf
        ((idx₁.insertKeys opIndex [key]).bucket key) = npos := by
      change ((idx₁.pushNode key opIndex).link ((idx₁.nodeCount + 1 - 1) % 2 ^ 32)).headOf
        ((idx₁.pushNode key opIndex).bucket key) = npos
      rw [Nat.add_sub_cancel, hcount₁, hnpos]
      have hkey : ((idx₁.pushNode key opIndex).nodes npos).key = key := by
        simp [pushNode, hcount₁]
      simp [headOf, link, hkey]
    rw [ChunkOperationIndex.sharing, hhead, walk, if_pos rfl]
    rfl
  unfold ChunkOperationIndex.insert
  simp only
  split_ifs
  · exact hlast (hi.rehash (by omega) _).2.1
  · exact hlast rfl

/-! ### Reuse -/

/-- **An index that can be cleared**: no bucket is ahead of it, whatever happened before. -/
def Stamped (idx : ChunkOperationIndex) : Prop :=
  (∀ b, (idx.slots b).generation ≤ idx.generation) ∧ idx.generation < 2 ^ 32

theorem Relinked.stamped' {idx' : ChunkOperationIndex} (h : Relinked idx idx')
    (hs : idx.Stamped) : idx'.Stamped :=
  ⟨h.stamped hs.1, h.generation ▸ hs.2⟩

theorem Stamped.relink (n i : ℕ) (idx : ChunkOperationIndex) (hs : idx.Stamped) :
    (relink n i idx).Stamped := by
  induction n generalizing i idx with
  | zero => exact hs
  | succ n ih => exact ih (i + 1) _ ((link_relinked _).stamped' hs)

theorem Stamped.rehash (hs : idx.Stamped) (capacity : ℕ) : (idx.rehash capacity).Stamped := by
  unfold ChunkOperationIndex.rehash
  split_ifs with h
  · exact hs
  · exact Stamped.relink _ _ _ ⟨fun _ => Nat.zero_le _, hs.2⟩

theorem Stamped.insertKeys (hs : idx.Stamped) : (idx.insertKeys opIndex chunks).Stamped := by
  induction chunks generalizing idx with
  | nil => exact hs
  | cons key keys ih =>
    have hlink : ((idx.pushNode key opIndex).link
        (((idx.pushNode key opIndex).nodeCount - 1) % 2 ^ 32)).Stamped :=
      (link_relinked _).stamped' hs
    exact ih hlink

theorem Stamped.insert (hs : idx.Stamped) : (idx.insert chunks opIndex).Stamped := by
  unfold ChunkOperationIndex.insert
  simp only
  split_ifs
  · exact (hs.rehash _).insertKeys
  · exact hs.insertKeys

theorem Stamped.clear (hs : idx.Stamped) : idx.clear.Stamped := by
  refine ⟨(indexes_clear hs.1 hs.2).stamped, ?_⟩
  unfold ChunkOperationIndex.clear
  simp only
  split_ifs
  · exact Nat.mod_lt _ (by decide)
  · exact Nat.one_lt_two_pow (by decide)

end ChunkOperationIndex

end Tess
