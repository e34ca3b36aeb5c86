import Mathlib.Data.List.Nodup
import Mathlib.Data.List.Perm.Subperm
import Mathlib.Data.List.Range
import Mathlib.Logic.Function.Basic

/-!
# Chained membership indexes

A hash index over preallocated nodes: every bucket is the head of a chain of nodes, and a key is
in the chain of its home bucket.

* `Index.search`, `Index.insert`, `Index.unlink` : the operations; the loops have fuel and are none
  when it runs out;
* `Index.Chained` : **the index invariant**: every chain comes to an end, and a node is in the
  chain of its key;
* `Index.Chained.contains`, `Index.Chained.insert`, `Index.Chained.erase` : what the operations say
  about the keys of the nodes.
-/

namespace Chains

/-- A used node. -/
structure Node (K : Type*) where
  /-- Its key. -/
  key : K
  /-- The node behind it. -/
  next : Option ℕ

/-- Buckets and nodes. -/
structure Index (K : Type*) where
  /-- First node of every bucket. -/
  buckets : ℕ → Option ℕ
  /-- The used nodes. -/
  nodes : ℕ → Option (Node K)
  /-- Number of buckets. -/
  bucketCount : ℕ
  /-- Number of nodes. -/
  capacity : ℕ

namespace Index

variable {K : Type*}

/-- An index without keys. -/
def empty (K : Type*) (bucketCount capacity : ℕ) : Index K :=
  ⟨fun _ => none, fun _ => none, bucketCount, capacity⟩

section Operations

variable (ix : Index K)

/-- Key of a used node. -/
def keyAt (n : ℕ) : Option K := (ix.nodes n).map Node.key

/-- The node behind a node. -/
def next (n : ℕ) : Option ℕ := (ix.nodes n).bind Node.next

/-- Follow a chain up to a node with the key. -/
def search [DecidableEq K] (k : K) : ℕ → Option ℕ → Option Bool
  | 0, _ => none
  | _ + 1, none => some false
  | fuel + 1, some n => if ix.keyAt n = some k then some true else search k fuel (ix.next n)

/-- Whether a node has the key. -/
def contains [DecidableEq K] (home : K → ℕ) (k : K) : Option Bool :=
  if ix.bucketCount = 0 then some false
  else ix.search k (ix.capacity + 1) (ix.buckets (home k))

/-- Put a free node with the key in front of its chain. -/
def insert (home : K → ℕ) (k : K) (n : ℕ) : Bool × Index K :=
  if ix.bucketCount = 0 ∨ ix.capacity ≤ n ∨ (ix.nodes n).isSome then (false, ix)
  else (true, { ix with
    nodes := Function.update ix.nodes n (some ⟨k, ix.buckets (home k)⟩)
    buckets := Function.update ix.buckets (home k) (some n) })

/-- Read a link: of the bucket, or of a node. -/
def read (b : ℕ) : Option ℕ → Option ℕ
  | none => ix.buckets b
  | some m => ix.next m

/-- Write a link: of the bucket, or of a node. -/
def write (b : ℕ) (link v : Option ℕ) : Index K :=
  match link with
  | none => { ix with buckets := Function.update ix.buckets b v }
  | some m => { ix with
      nodes := Function.update ix.nodes m ((ix.nodes m).map fun node => { node with next := v }) }

/-- Free a node. -/
def clear (n : ℕ) : Index K := { ix with nodes := Function.update ix.nodes n none }

/-- Follow a chain link by link up to a node and take it out. -/
def unlink (b n : ℕ) : ℕ → Option ℕ → Option (Bool × Index K)
  | 0, _ => none
  | fuel + 1, link =>
    match ix.read b link with
    | none => some (false, ix)
    | some m =>
      if m = n then some (true, (ix.write b link (ix.next n)).clear n)
      else unlink b n fuel (some m)

/-- Take the node of a key out. -/
def erase (home : K → ℕ) (k : K) (n : ℕ) : Option (Bool × Index K) :=
  if ix.bucketCount = 0 ∨ ix.capacity ≤ n then some (false, ix)
  else ix.unlink (home k) n (ix.capacity + 1) none

end Operations

/-! ### Chains -/

/-- The nodes that a link leads to, in order. -/
def Leads (ix : Index K) : Option ℕ → List ℕ → Prop
  | link, [] => link = none
  | link, n :: l => link = some n ∧ (ix.nodes n).isSome ∧ Leads ix (ix.next n) l

/-- **The index invariant.** -/
structure Chained (home : K → ℕ) (ix : Index K) (chain : ℕ → List ℕ) : Prop where
  /-- Every bucket leads through its chain. -/
  leads : ∀ b, ix.Leads (ix.buckets b) (chain b)
  /-- A chain has no node twice. -/
  nodup : ∀ b, (chain b).Nodup
  /-- The chain of a bucket has the nodes whose keys are at home there. -/
  mem : ∀ b n, n ∈ chain b ↔ ∃ k, ix.keyAt n = some k ∧ home k = b
  /-- Used nodes are nodes. -/
  bounded : ∀ n k, ix.keyAt n = some k → n < ix.capacity

variable {home : K → ℕ} {ix ix' : Index K} {chain : ℕ → List ℕ} {k k' : K} {n m b fuel : ℕ}
  {link : Option ℕ} {l : List ℕ}

theorem isSome_nodes : (ix.nodes n).isSome ↔ ∃ k, ix.keyAt n = some k := by
  unfold keyAt
  cases ix.nodes n <;> simp

theorem chained_empty (bucketCount capacity : ℕ) :
    Chained home (empty K bucketCount capacity) (fun _ => []) where
  leads := fun _ => rfl
  nodup := fun _ => List.nodup_nil
  mem := fun b n => by simp [empty, keyAt]
  bounded := fun n k h => by cases h

/-- What a link leads to depends on the nodes on the way. -/
theorem Leads.congr (h : ix.Leads link l) (hsame : ∀ n ∈ l, ix'.nodes n = ix.nodes n) :
    ix'.Leads link l := by
  induction l generalizing link with
  | nil => exact h
  | cons n l ih =>
    obtain ⟨hlink, hused, hrest⟩ := h
    have hn := hsame n List.mem_cons_self
    refine ⟨hlink, by rw [hn]; exact hused, ?_⟩
    rw [next, hn]
    exact ih hrest fun m hm => hsame m (List.mem_cons_of_mem n hm)

/-- **A search** ends, and finds the keys of the nodes on the way. -/
theorem Leads.search [DecidableEq K] (h : ix.Leads link l) (hfuel : l.length < fuel) :
    ix.search k fuel link = some (decide (∃ n ∈ l, ix.keyAt n = some k)) := by
  induction l generalizing link fuel with
  | nil =>
    obtain rfl : link = none := h
    cases fuel with
    | zero => omega
    | succ fuel => simp [Index.search]
  | cons n l ih =>
    obtain ⟨rfl, -, hrest⟩ := h
    cases fuel with
    | zero => omega
    | succ fuel =>
      rw [Index.search]
      split_ifs with hk
      · simp [hk]
      · rw [ih hrest (by simpa using hfuel)]
        simp [hk]

/-- A chain is no longer than the nodes. -/
theorem Chained.length_le (h : Chained home ix chain) : (chain b).length ≤ ix.capacity := by
  have hsub : chain b ⊆ List.range ix.capacity := by
    intro n hn
    obtain ⟨k, hk, -⟩ := (h.mem b n).1 hn
    exact List.mem_range.2 (h.bounded n k hk)
  simpa using (List.subperm_of_subset (h.nodup b) hsub).length_le

/-- **A lookup** ends, and says whether a node has the key. -/
theorem Chained.contains [DecidableEq K] (h : Chained home ix chain)
    (hbuckets : ix.bucketCount = 0 → ix.capacity = 0) :
    ∃ r, ix.contains home k = some r ∧ (r = true ↔ ∃ n, ix.keyAt n = some k) := by
  unfold Index.contains
  split_ifs with hzero
  · refine ⟨false, rfl, ?_⟩
    simp only [Bool.false_eq_true, false_iff, not_exists]
    intro n hn
    have := h.bounded n k hn
    have := hbuckets hzero
    omega
  · refine ⟨_, (h.leads (home k)).search (Nat.lt_succ_of_le h.length_le), ?_⟩
    rw [decide_eq_true_iff]
    constructor
    · rintro ⟨n, -, hn⟩
      exact ⟨n, hn⟩
    · rintro ⟨n, hn⟩
      exact ⟨n, (h.mem (home k) n).2 ⟨k, hn, rfl⟩, hn⟩

/-- **An insertion** gives a free node the key. -/
theorem Chained.insert (h : Chained home ix chain) (hbuckets : ix.bucketCount ≠ 0)
    (hn : n < ix.capacity) (hfree : ix.keyAt n = none) :
    ∃ ix' chain', ix.insert home k n = (true, ix') ∧ Chained home ix' chain' ∧
      ix'.keyAt = Function.update ix.keyAt n (some k) ∧ ix'.bucketCount = ix.bucketCount ∧
      ix'.capacity = ix.capacity := by
  have hnone : ix.nodes n = none := by simpa [keyAt] using hfree
  let ix' : Index K := { ix with
    nodes := Function.update ix.nodes n (some ⟨k, ix.buckets (home k)⟩)
    buckets := Function.update ix.buckets (home k) (some n) }
  have hins : ix.insert home k n = (true, ix') := by
    rw [Index.insert, if_neg]
    simp [hbuckets, hnone, hn]
  have hkey : ix'.keyAt = Function.update ix.keyAt n (some k) := by
    funext m
    simp only [keyAt, ix', Function.update_apply]
    split_ifs <;> rfl
  have hnew : ∀ b, n ∉ chain b := by
    intro b hb
    obtain ⟨k', hk', -⟩ := (h.mem b n).1 hb
    rw [hfree] at hk'
    cases hk'
  have hold : ∀ b, ix'.Leads (ix.buckets b) (chain b) := fun b =>
    (h.leads b).congr fun m hm => by
      have hmn : m ≠ n := by
        rintro rfl
        exact hnew b hm
      exact Function.update_of_ne hmn ..
  refine ⟨ix', Function.update chain (home k) (n :: chain (home k)), hins, ?_, hkey, rfl, rfl⟩
  refine ⟨fun b => ?_, fun b => ?_, fun b m => ?_, fun m k' hm => ?_⟩
  · by_cases hb : b = home k
    · subst hb
      rw [Function.update_self]
      refine ⟨Function.update_self .., by simp [ix'], ?_⟩
      have hnext : ix'.next n = ix.buckets (home k) := by simp [next, ix']
      rw [hnext]
      exact hold (home k)
    · rw [Function.update_of_ne hb, show ix'.buckets b = ix.buckets b from Function.update_of_ne hb ..]
      exact hold b
  · by_cases hb : b = home k
    · subst hb
      rw [Function.update_self]
      exact List.nodup_cons.2 ⟨hnew _, h.nodup _⟩
    · rw [Function.update_of_ne hb]
      exact h.nodup b
  · rw [hkey]
    by_cases hm : m = n
    · subst hm
      rw [Function.update_self]
      by_cases hb : b = home k
      · subst hb
        simp
      · rw [Function.update_of_ne hb]
        simp only [Option.some.injEq, exists_eq_left']
        exact ⟨fun hmem => absurd hmem (hnew b), fun heq => absurd heq.symm hb⟩
    · rw [Function.update_of_ne hm, ← h.mem b m]
      by_cases hb : b = home k
      · subst hb
        rw [Function.update_self, List.mem_cons, or_iff_right hm]
      · rw [Function.update_of_ne hb]
  · rw [hkey, Function.update_apply] at hm
    split_ifs at hm with heq
    · exact heq ▸ hn
    · exact h.bounded m k' hm

/-! ### Taking a node out -/

/-- What a link reads after a write to it. -/
theorem read_write (hused : ∀ m, link = some m → (ix.nodes m).isSome) (v : Option ℕ) :
    (ix.write b link v).read b link = v := by
  cases link with
  | none => exact Function.update_self ..
  | some m =>
    obtain ⟨node, hnode⟩ := Option.isSome_iff_exists.1 (hused m rfl)
    simp [read, write, next, hnode]

/-- A write to a link keeps the other nodes. -/
theorem write_nodes (hm : link ≠ some m) (v : Option ℕ) :
    (ix.write b link v).nodes m = ix.nodes m := by
  cases link with
  | none => rfl
  | some m' => exact Function.update_of_ne (fun heq => hm (by rw [heq])) _ _

/-- A write to a link keeps the keys. -/
theorem keyAt_write (v : Option ℕ) : (ix.write b link v).keyAt = ix.keyAt := by
  funext m
  cases link with
  | none => rfl
  | some m' =>
    simp only [keyAt, write, Function.update_apply]
    split_ifs with heq
    · rw [heq]
      cases ix.nodes m' <;> rfl
    · rfl

theorem clear_nodes (hm : m ≠ n) : (ix.clear n).nodes m = ix.nodes m :=
  Function.update_of_ne hm ..

theorem keyAt_clear : (ix.clear n).keyAt = Function.update ix.keyAt n none := by
  funext m
  simp only [keyAt, clear, Function.update_apply]
  split_ifs <;> rfl

/-- What the loop leaves behind a link: the chain without the node, with the rest as it was. -/
structure Unlinked (ix ix' : Index K) (b n : ℕ) (link : Option ℕ) (l : List ℕ) : Prop where
  /-- The link leads on. -/
  leads : ix'.Leads (ix'.read b link) (l.erase n)
  /-- The node has no key. -/
  keyAt : ix'.keyAt = Function.update ix.keyAt n none
  /-- Nodes elsewhere stay. -/
  nodes : ∀ m, m ∉ l → link ≠ some m → ix'.nodes m = ix.nodes m
  /-- Other buckets stay. -/
  buckets : ∀ c, c ≠ b → ix'.buckets c = ix.buckets c
  /-- Behind a node the bucket stays too. -/
  bucket : link ≠ none → ix'.buckets b = ix.buckets b
  /-- The sizes stay. -/
  sizes : ix'.bucketCount = ix.bucketCount ∧ ix'.capacity = ix.capacity

/-- **The unlinking loop** takes the node out of the chain behind the link. -/
theorem unlink_spec (h : ix.Leads (ix.read b link) l) (hnodup : l.Nodup) (hn : n ∈ l)
    (hlink : ∀ m, link = some m → m ∉ l ∧ (ix.nodes m).isSome) (hfuel : l.length < fuel) :
    ∃ ix', ix.unlink b n fuel link = some (true, ix') ∧ Unlinked ix ix' b n link l := by
  induction l generalizing link fuel with
  | nil => cases hn
  | cons m l ih =>
    obtain ⟨hread, hused, hrest⟩ := h
    obtain ⟨hml, hnodup⟩ := List.nodup_cons.1 hnodup
    cases fuel with
    | zero => omega
    | succ fuel =>
      rw [unlink, hread]
      by_cases hmn : m = n
      · subst hmn
        refine ⟨(ix.write b link (ix.next m)).clear m, if_pos rfl, ?_⟩
        have hne : link ≠ some m := fun heq => (hlink m heq).1 List.mem_cons_self
        have hread' : ((ix.write b link (ix.next m)).clear m).read b link = ix.next m := by
          cases link with
          | none => exact Function.update_self ..
          | some p =>
            have hpm : p ≠ m := fun heq => hne (by rw [heq])
            have := @read_write _ ix b _ (fun q hq => (hlink q hq).2) (ix.next m)
            simpa [read, next, clear, Function.update_of_ne hpm] using this
        refine ⟨?_, ?_, fun p hp hlp => ?_, fun c hc => ?_, fun hnone => ?_, ?_⟩
        · rw [List.erase_cons_head, hread']
          refine hrest.congr fun p hp => ?_
          have hpm : p ≠ m := fun heq => hml (heq ▸ hp)
          have hlp : link ≠ some p := fun heq => (hlink p heq).1 (List.mem_cons_of_mem m hp)
          rw [clear_nodes hpm, write_nodes hlp]
        · rw [keyAt_clear, keyAt_write]
        · have hpm : p ≠ m := fun heq => hp (heq ▸ List.mem_cons_self)
          rw [clear_nodes hpm, write_nodes hlp]
        · cases link with
          | none => exact Function.update_of_ne hc ..
          | some p => rfl
        · cases link with
          | none => exact absurd rfl hnone
          | some p => rfl
        · cases link <;> exact ⟨rfl, rfl⟩
      · simp only [hmn, if_false]
        have hnl : n ∈ l := (List.mem_cons.1 hn).resolve_left (Ne.symm hmn)
        obtain ⟨ix', hrun, hun⟩ := @ih fuel (some m) hrest hnodup hnl
          (fun p hp => by cases hp; exact ⟨hml, hused⟩) (by simpa using hfuel)
        refine ⟨ix', hrun, ?_⟩
        -- the link itself is not behind `m`, so it still leads there
        have hlinkm : link ≠ some m := fun heq => (hlink m heq).1 List.mem_cons_self
        have hread' : ix'.read b link = some m := by
          cases link with
          | none => rw [← hread]; exact hun.bucket (Option.some_ne_none m)
          | some p =>
            have hp : p ∉ l := fun hp => (hlink p rfl).1 (List.mem_cons_of_mem m hp)
            rw [← hread, read, read, next, next,
              hun.nodes p hp fun heq => hlinkm (by rw [heq])]
        refine ⟨?_, hun.keyAt, fun p hp hlp => ?_, hun.buckets, fun _ => ?_, hun.sizes⟩
        · rw [List.erase_cons_tail (by simpa using hmn), hread']
          refine ⟨rfl, ?_, hun.leads⟩
          rw [isSome_nodes, hun.keyAt, Function.update_of_ne hmn, ← isSome_nodes]
          exact hused
        · refine hun.nodes p (fun hpl => hp (List.mem_cons_of_mem m hpl)) fun heq => hp ?_
          cases heq
          exact List.mem_cons_self
        · exact hun.bucket (Option.some_ne_none m)

/-- **An erasure** takes the key from its node. -/
theorem Chained.erase (h : Chained home ix chain) (hbuckets : ix.bucketCount ≠ 0)
    (hk : ix.keyAt n = some k) :
    ∃ ix' chain', ix.erase home k n = some (true, ix') ∧ Chained home ix' chain' ∧
      ix'.keyAt = Function.update ix.keyAt n none ∧ ix'.bucketCount = ix.bucketCount ∧
      ix'.capacity = ix.capacity := by
  have hlt := h.bounded n k hk
  have hmem : n ∈ chain (home k) := (h.mem _ _).2 ⟨k, hk, rfl⟩
  have hfirst : ix.Leads (ix.read (home k) none) (chain (home k)) := h.leads (home k)
  obtain ⟨ix', hrun, hun⟩ := unlink_spec hfirst (h.nodup _) hmem (fun m hm => by cases hm)
    (Nat.lt_succ_of_le h.length_le)
  refine ⟨ix', Function.update chain (home k) ((chain (home k)).erase n), ?_, ?_, hun.keyAt,
    hun.sizes⟩
  · rw [Index.erase, if_neg, hrun]
    simp [hbuckets, hlt]
  have hother : ∀ b, b ≠ home k → n ∉ chain b := by
    intro b hb hnb
    obtain ⟨k', hk', hbk⟩ := (h.mem b n).1 hnb
    rw [hk] at hk'
    cases hk'
    exact hb hbk.symm
  refine ⟨fun b => ?_, fun b => ?_, fun b m => ?_, fun m k' hm => ?_⟩
  · by_cases hb : b = home k
    · subst hb
      rw [Function.update_self]
      exact hun.leads
    · rw [Function.update_of_ne hb, hun.buckets b hb]
      refine (h.leads b).congr fun m hm => hun.nodes m (fun hmk => hb ?_) (Option.some_ne_none m).symm
      -- a node is in the chain of one bucket
      obtain ⟨k₁, hk₁, rfl⟩ := (h.mem _ m).1 hm
      obtain ⟨k₂, hk₂, heq⟩ := (h.mem _ m).1 hmk
      rw [hk₁] at hk₂
      cases hk₂
      exact heq
  · by_cases hb : b = home k
    · subst hb
      rw [Function.update_self]
      exact (h.nodup _).erase n
    · rw [Function.update_of_ne hb]
      exact h.nodup b
  · rw [hun.keyAt]
    by_cases hm : m = n
    · subst hm
      simp only [Function.update_self, reduceCtorEq, false_and, exists_false, iff_false]
      by_cases hb : b = home k
      · subst hb
        rw [Function.update_self]
        exact (h.nodup _).not_mem_erase
      · rw [Function.update_of_ne hb]
        exact hother b hb
    · rw [Function.update_of_ne hm, ← h.mem b m]
      by_cases hb : b = home k
      · subst hb
        rw [Function.update_self, List.mem_erase_of_ne hm]
      · rw [Function.update_of_ne hb]
  · rw [hun.keyAt, Function.update_apply] at hm
    split_ifs at hm
    rw [hun.sizes.2]
    exact h.bounded m k' hm

end Index

end Chains
