import Mathlib.Data.List.Flatten
import Mathlib.Data.Finset.Card
import Mathlib.Tactic.SplitIfs

/-!
# Grouping a list by a key

Two ways of putting the items of one key together.

* `sortByKey` : the stable sort by a key;
* `sortByKey_regroup` : **replacing some groups** of a grouped list and sorting gives the
  grouped list of the new groups;
* `bucketStarts`, `fillBuckets` : the two passes of a counting sort, whose counters pass through
  a function that stands for a machine integer;
* `bucket_eq` : **the bucket of a key** holds the values of the items with that key, in order.
-/

namespace Grouping

variable {α β : Type*}

/-! ### Stable sorting -/

section Sorting

variable (key : α → ℕ)

/-- The stable sort by a key. -/
def sortByKey (l : List α) : List α := l.mergeSort fun a b => decide (key a ≤ key b)

/-- The items of one key. -/
def group (k : ℕ) (l : List α) : List α := l.filter fun a => key a = k

variable {key} {l l' : List α}

theorem pairwise_sortByKey : (sortByKey key l).Pairwise fun a b => key a ≤ key b := by
  have h := @List.pairwise_mergeSort _ (fun a b => decide (key a ≤ key b))
    (fun a b c hab hbc => by simp only [decide_eq_true_eq] at *; omega)
    (fun a b => by simp only [Bool.or_eq_true, decide_eq_true_eq]; omega) l
  simpa [sortByKey] using h

/-- **A stable sort keeps every group** as it is. -/
theorem group_sortByKey (k : ℕ) : group key k (sortByKey key l) = group key k l := by
  have hsub : List.Sublist (group key k l) (sortByKey key l) := by
    refine List.sublist_mergeSort (fun a b c hab hbc => ?_) (fun a b => ?_) ?_
      List.filter_sublist
    · simp only [decide_eq_true_eq] at *; omega
    · simp only [Bool.or_eq_true, decide_eq_true_eq]; omega
    · refine List.pairwise_of_forall_mem_list fun a ha b hb => ?_
      have ha' := (List.mem_filter.1 ha).2
      have hb' := (List.mem_filter.1 hb).2
      simp only [decide_eq_true_eq] at ha' hb' ⊢
      omega
  have hgroup : List.Sublist (group key k l) (group key k (sortByKey key l)) := by
    have h := hsub.filter fun a => key a = k
    simpa only [group, List.filter_filter, Bool.and_self] using h
  refine (hgroup.eq_of_length ?_).symm
  have hperm : (sortByKey key l).Perm l := List.mergeSort_perm l _
  exact (hperm.filter _).length_eq.symm

/-- Two sorted lists with the same groups are equal. -/
theorem eq_of_groups (h : l.Pairwise fun a b => key a ≤ key b)
    (h' : l'.Pairwise fun a b => key a ≤ key b) (hg : ∀ k, group key k l = group key k l') :
    l = l' := by
  induction l generalizing l' with
  | nil =>
    cases l' with
    | nil => rfl
    | cons b t' =>
      have := hg (key b)
      simp [group] at this
  | cons a t ih =>
    have ha : a ∈ l' := by
      have hmem : a ∈ group key (key a) (a :: t) := by simp [group]
      rw [hg] at hmem
      exact (List.mem_filter.1 hmem).1
    cases l' with
    | nil => simp at ha
    | cons b t' =>
      have hb : b ∈ a :: t := by
        have hmem : b ∈ group key (key b) (b :: t') := by simp [group]
        rw [← hg] at hmem
        exact (List.mem_filter.1 hmem).1
      rw [List.pairwise_cons] at h h'
      have hkey : key a = key b := by
        refine le_antisymm ?_ ?_
        · rcases List.mem_cons.1 hb with rfl | hb
          · exact le_rfl
          · exact h.1 b hb
        · rcases List.mem_cons.1 ha with rfl | ha
          · exact le_rfl
          · exact h'.1 a ha
      have hhead := hg (key a)
      simp only [group, List.filter_cons, decide_true, if_true, hkey, List.cons.injEq] at hhead
      obtain ⟨rfl, -⟩ := hhead
      refine congrArg (a :: ·) (ih h.2 h'.2 fun k => ?_)
      have hk := hg k
      simp only [group, List.filter_cons] at hk
      split_ifs at hk
      · exact (List.cons.inj hk).2
      · exact hk

/-! ### Grouped lists -/

variable {keys : List ℕ} {f g : ℕ → List α}

/-- A list that is put together from one group for each of some increasing keys is sorted. -/
theorem pairwise_flatMap (hkeys : keys.Pairwise (· < ·)) (hf : ∀ k, ∀ a ∈ f k, key a = k) :
    (keys.flatMap f).Pairwise fun a b => key a ≤ key b := by
  induction keys with
  | nil => simp
  | cons k keys ih =>
    rw [List.pairwise_cons] at hkeys
    rw [List.flatMap_cons, List.pairwise_append]
    refine ⟨List.pairwise_of_forall_mem_list fun a ha b hb => ?_, ih hkeys.2,
      fun a ha b hb => ?_⟩
    · rw [hf k a ha, hf k b hb]
    · obtain ⟨k', hk', hb⟩ := List.mem_flatMap.1 hb
      rw [hf k a ha, hf k' b hb]
      exact (hkeys.1 k' hk').le

/-- The group of a key in a list that is put together from groups. -/
theorem group_flatMap (hkeys : keys.Nodup) (hf : ∀ k, ∀ a ∈ f k, key a = k) (k : ℕ) :
    group key k (keys.flatMap f) = if k ∈ keys then f k else [] := by
  have hself : group key k (f k) = f k := by
    refine List.filter_eq_self.2 fun a ha => ?_
    simp [hf k a ha]
  have hother : ∀ k', k' ≠ k → group key k (f k') = [] := by
    intro k' hk'
    refine List.filter_eq_nil_iff.2 fun a ha => ?_
    simp [hf k' a ha, hk']
  induction keys with
  | nil => rfl
  | cons k' keys ih =>
    rw [List.nodup_cons] at hkeys
    have happ : group key k ((k' :: keys).flatMap f) =
        group key k (f k') ++ group key k (keys.flatMap f) := by
      rw [List.flatMap_cons, group, List.filter_append]
      rfl
    rw [happ, ih hkeys.2]
    by_cases hk : k' = k
    · subst hk
      simp [hself, hkeys.1]
    · rw [hother k' hk, List.nil_append]
      have hne : k ≠ k' := fun h => hk h.symm
      simp [hne]

/-- **Replacing some groups**: drop the affected groups of a grouped list, append their new
contents and sort; the result is grouped as the new contents are. -/
theorem sortByKey_regroup (hkeys : keys.Pairwise (· < ·)) (hf : ∀ k, ∀ a ∈ f k, key a = k)
    (hg : ∀ k, ∀ a ∈ g k, key a = k) (affected : ℕ → Bool)
    (hsame : ∀ k ∈ keys, affected k = false → g k = f k) :
    sortByKey key (((keys.flatMap f).filter fun a => !affected (key a)) ++
      (keys.filter affected).flatMap g) = keys.flatMap g := by
  have hnodup : keys.Nodup := hkeys.imp fun h => h.ne
  refine eq_of_groups pairwise_sortByKey (pairwise_flatMap hkeys hg) fun k => ?_
  have hkept : group key k ((keys.flatMap f).filter fun a => !affected (key a)) =
      if affected k then [] else group key k (keys.flatMap f) := by
    rw [group, List.filter_filter]
    cases hk : affected k with
    | true =>
      refine List.filter_eq_nil_iff.2 fun a _ => ?_
      rw [Bool.and_eq_true, decide_eq_true_eq]
      rintro ⟨rfl, h⟩
      simp [hk] at h
    | false =>
      refine List.filter_congr fun a _ => ?_
      by_cases ha : key a = k <;> simp [ha, hk]
  rw [group_sortByKey, group, List.filter_append]
  change group key k _ ++ group key k _ = _
  rw [hkept, group_flatMap hnodup hf, group_flatMap hnodup hg,
    group_flatMap (hnodup.filter _) hg]
  by_cases hmem : k ∈ keys
  · cases hk : affected k with
    | true => simp [hmem, hk]
    | false => simp [hmem, hk, hsame k hmem hk]
  · simp [hmem]

end Sorting

/-! ### Counting sort -/

section Buckets

variable (wrap : ℕ → ℕ) (src dst : α → ℕ)

/-- First pass: slot `k + 1` counts the items of key `k`. -/
def countItems (items : List α) : ℕ → ℕ :=
  items.foldl (fun counts a =>
    Function.update counts (src a + 1) (wrap (counts (src a + 1) + 1))) fun _ => 0

/-- The counts become the first slots of the buckets. -/
def prefixSums (counts : ℕ → ℕ) (n : ℕ) : ℕ → ℕ :=
  (List.range n).foldl
    (fun starts i => Function.update starts (i + 1) (wrap (starts (i + 1) + starts i))) counts

/-- First slot of each of `n` buckets. -/
def bucketStarts (n : ℕ) (items : List α) : ℕ → ℕ := prefixSums wrap (countItems wrap src items) n

/-- Put an item into the next slot of its bucket. -/
def fillSlot (st : (ℕ → ℕ) × (ℕ → ℕ)) (a : α) : (ℕ → ℕ) × (ℕ → ℕ) :=
  (Function.update st.1 (src a) (wrap (st.1 (src a) + 1)),
    Function.update st.2 (st.1 (src a)) (dst a))

/-- Second pass: every item goes into its bucket. -/
def fillBuckets (starts : ℕ → ℕ) (items : List α) : (ℕ → ℕ) × (ℕ → ℕ) :=
  items.foldl (fillSlot wrap src dst) (starts, fun _ => 0)

variable {wrap src dst} {items : List α} {n : ℕ}

/-- Items with a smaller key. -/
def rankOf (src : α → ℕ) (items : List α) (k : ℕ) : ℕ := items.countP fun a => src a < k

theorem rankOf_le (k : ℕ) : rankOf src items k ≤ items.length := List.countP_le_length

theorem rankOf_succ (k : ℕ) :
    rankOf src items (k + 1) = rankOf src items k + items.countP fun a => src a = k := by
  induction items with
  | nil => rfl
  | cons a items ih =>
    simp only [rankOf, List.countP_cons] at ih ⊢
    rw [ih]
    rcases lt_trichotomy (src a) k with h | h | h
    · have : src a ≠ k := h.ne
      simp [h, this, Nat.lt_succ_of_lt h]
      omega
    · simp [h]
      omega
    · have h1 : ¬ src a < k + 1 := by omega
      have h2 : ¬ src a < k := by omega
      have h3 : src a ≠ k := h.ne'
      simp [h1, h2, h3]

theorem rankOf_mono {j k : ℕ} (h : j ≤ k) : rankOf src items j ≤ rankOf src items k :=
  List.countP_mono_left fun a _ ha => by
    simp only [decide_eq_true_eq] at ha ⊢
    omega

theorem countItems_spec (hwrap : ∀ i ≤ items.length, wrap i = i) (i : ℕ) :
    countItems wrap src items i = items.countP fun a => src a + 1 = i := by
  suffices H : ∀ (rest done : List α), done.length + rest.length ≤ items.length →
      ∀ counts : ℕ → ℕ, (∀ i, counts i = done.countP fun a => src a + 1 = i) →
        rest.foldl (fun counts a =>
          Function.update counts (src a + 1) (wrap (counts (src a + 1) + 1))) counts i =
            (done ++ rest).countP fun a => src a + 1 = i by
    exact H items [] (by simp) _ fun _ => rfl
  intro rest
  induction rest with
  | nil => intro done _ counts h; rw [List.foldl_nil, List.append_nil, h]
  | cons a rest ih =>
    intro done hlen counts h
    rw [List.length_cons] at hlen
    have hstep := ih (done ++ [a]) (by simp; omega)
      (Function.update counts (src a + 1) (wrap (counts (src a + 1) + 1))) (fun i => ?_)
    · rw [List.foldl_cons, hstep, List.append_assoc]
      rfl
    · have hle : (done.countP fun b => src b + 1 = src a + 1) ≤ done.length :=
        List.countP_le_length
      rw [List.countP_append, List.countP_singleton]
      by_cases hi : i = src a + 1
      · subst hi
        rw [Function.update_self, h, hwrap _ (by omega)]
        simp
      · rw [Function.update_of_ne hi, h]
        have : ¬ src a + 1 = i := fun h => hi h.symm
        simp [this]

/-- **The buckets start** where the items with smaller keys end. -/
theorem bucketStarts_eq (hwrap : ∀ i ≤ items.length, wrap i = i) {k : ℕ} (hk : k ≤ n) :
    bucketStarts wrap src n items k = rankOf src items k := by
  have hcount : ∀ i, countItems wrap src items i = items.countP fun a => src a + 1 = i :=
    countItems_spec hwrap
  have hone : ∀ k, countItems wrap src items (k + 1) = items.countP fun a => src a = k := by
    intro k
    rw [hcount]
    exact List.countP_congr fun a _ => by simp
  suffices H : ∀ m ≤ n, ∀ i, ((List.range m).foldl (fun starts i =>
      Function.update starts (i + 1) (wrap (starts (i + 1) + starts i)))
        (countItems wrap src items)) i =
          if i ≤ m then rankOf src items i else countItems wrap src items i by
    have h := H n le_rfl k
    rw [if_pos hk] at h
    exact h
  intro m
  induction m with
  | zero =>
    intro _ i
    by_cases hi : i = 0
    · subst hi
      rw [if_pos le_rfl, List.range_zero, List.foldl_nil, hcount]
      simp [rankOf]
    · rw [if_neg (by omega), List.range_zero, List.foldl_nil]
  | succ m ih =>
    intro hm i
    have ih' := ih (by omega)
    rw [List.range_succ, List.foldl_append, List.foldl_cons, List.foldl_nil]
    by_cases hi : i = m + 1
    · subst hi
      rw [Function.update_self, ih', ih', if_neg (by omega), if_pos le_rfl, if_pos le_rfl, hone]
      have hsucc : rankOf src items (m + 1) = rankOf src items m +
          items.countP fun a => src a = m := rankOf_succ _
      have hle : rankOf src items (m + 1) ≤ items.length := rankOf_le _
      rw [hwrap _ (by omega)]
      omega
    · rw [Function.update_of_ne hi, ih']
      by_cases hle : i ≤ m
      · rw [if_pos hle, if_pos (by omega)]
      · rw [if_neg hle, if_neg (by omega)]

/-- What the buckets hold once some items are in. -/
structure Filled (src dst : α → ℕ) (n : ℕ) (items done : List α) (st : (ℕ → ℕ) × (ℕ → ℕ)) :
    Prop where
  /-- The next slot of a bucket. -/
  cursor : ∀ k < n, st.1 k = rankOf src items k + (group src k done).length
  /-- The slots that are taken. -/
  slot : ∀ k < n, ∀ j a, (group src k done)[j]? = some a → st.2 (rankOf src items k + j) = dst a

theorem group_snoc (k : ℕ) (done : List α) (a : α) : group src k (done ++ [a]) =
    group src k done ++ if src a = k then [a] else [] := by
  rw [group, List.filter_append, List.filter_singleton]
  by_cases hk : src a = k <;> simp [hk, group]

theorem fillSlot_fst (st : (ℕ → ℕ) × (ℕ → ℕ)) (a : α) : (fillSlot wrap src dst st a).1 =
    Function.update st.1 (src a) (wrap (st.1 (src a) + 1)) := rfl

theorem fillSlot_snd (st : (ℕ → ℕ) × (ℕ → ℕ)) (a : α) : (fillSlot wrap src dst st a).2 =
    Function.update st.2 (st.1 (src a)) (dst a) := rfl

/-- **An item goes into a free slot** of its own bucket. -/
theorem Filled.fillSlot (hwrap : ∀ i ≤ items.length, wrap i = i) {done rest : List α} {a : α}
    {st : (ℕ → ℕ) × (ℕ → ℕ)} (hdone : done ++ a :: rest = items) (ha : src a < n)
    (h : Filled src dst n items done st) :
    Filled src dst n items (done ++ [a]) (Grouping.fillSlot wrap src dst st a) := by
  -- the bucket of the item has room before the next bucket starts
  have hroom : ∀ k, (group src k done).length + (if src a = k then 1 else 0) ≤
      items.countP fun b => src b = k := by
    intro k
    have hcount : (done.countP fun b => src b = k) = (group src k done).length :=
      List.countP_eq_length_filter
    rw [← hdone, List.countP_append, List.countP_cons, hcount]
    by_cases hk : src a = k <;> simp [hk]
  have hcursor := h.cursor _ ha
  have hnext : rankOf src items (src a + 1) = rankOf src items (src a) +
      items.countP fun b => src b = src a := rankOf_succ _
  have hfull := hroom (src a)
  rw [if_pos rfl] at hfull
  refine ⟨fun k hk => ?_, fun k hk j b hb => ?_⟩
  · by_cases hka : k = src a
    · subst hka
      have hle : rankOf src items (src a + 1) ≤ items.length := rankOf_le _
      rw [fillSlot_fst, Function.update_self, hcursor, group_snoc, if_pos rfl,
        List.length_append, List.length_singleton, hwrap _ (by omega)]
      omega
    · have hne : src a ≠ k := fun h => hka h.symm
      rw [fillSlot_fst, Function.update_of_ne hka, h.cursor k hk, group_snoc, if_neg hne,
        List.append_nil]
  · rw [group_snoc] at hb
    rw [fillSlot_snd, hcursor]
    by_cases hka : src a = k
    · subst hka
      rw [if_pos rfl, List.getElem?_append] at hb
      split_ifs at hb with hj
      · rw [Function.update_of_ne (by omega)]
        exact h.slot _ hk j b hb
      · have hj0 : j - (group src (src a) done).length = 0 := by
          by_contra hj0
          rw [List.getElem?_eq_none (by simp; omega)] at hb
          cases hb
        rw [hj0] at hb
        simp only [List.getElem?_cons_zero, Option.some.injEq] at hb
        have hslot : rankOf src items (src a) + j =
            rankOf src items (src a) + (group src (src a) done).length := by omega
        rw [hslot, Function.update_self, hb]
    · rw [if_neg hka, List.append_nil] at hb
      have hj := (List.getElem?_eq_some_iff.1 hb).1
      have hk' := hroom k
      rw [if_neg hka] at hk'
      have hknext : rankOf src items (k + 1) = rankOf src items k +
          items.countP fun b => src b = k := rankOf_succ _
      -- slots of distinct buckets are distinct
      have hne : rankOf src items k + j ≠
          rankOf src items (src a) + (group src (src a) done).length := by
        rcases lt_or_gt_of_ne hka with hlt | hlt
        · have : rankOf src items (src a + 1) ≤ rankOf src items k := rankOf_mono hlt
          omega
        · have : rankOf src items (k + 1) ≤ rankOf src items (src a) := rankOf_mono hlt
          omega
      rw [Function.update_of_ne hne]
      exact h.slot k hk j b hb

/-- **The second pass fills every bucket.** -/
theorem filled_fillBuckets (hwrap : ∀ i ≤ items.length, wrap i = i)
    (hsrc : ∀ a ∈ items, src a < n) :
    Filled src dst n items items
      (fillBuckets wrap src dst (bucketStarts wrap src n items) items) := by
  suffices H : ∀ (rest done : List α) (st : (ℕ → ℕ) × (ℕ → ℕ)), done ++ rest = items →
      Filled src dst n items done st →
        Filled src dst n items items (rest.foldl (Grouping.fillSlot wrap src dst) st) by
    refine H items [] _ rfl ⟨fun k hk => ?_, fun k _ j a ha => ?_⟩
    · exact bucketStarts_eq hwrap hk.le
    · simp [group] at ha
  intro rest
  induction rest with
  | nil =>
    intro done st hdone h
    rw [List.append_nil] at hdone
    subst hdone
    exact h
  | cons a rest ih =>
    intro done st hdone h
    have ha : src a < n := hsrc a (by rw [← hdone]; simp)
    exact ih (done ++ [a]) _ (by simpa using hdone) (h.fillSlot hwrap hdone ha)

/-- **The bucket of a key** holds the values of the items with that key, in order. -/
theorem bucket_eq (hwrap : ∀ i ≤ items.length, wrap i = i) (hsrc : ∀ a ∈ items, src a < n)
    {k : ℕ} (hk : k < n) :
    (List.range' (bucketStarts wrap src n items k) (bucketStarts wrap src n items (k + 1) -
        bucketStarts wrap src n items k)).map
      (fillBuckets wrap src dst (bucketStarts wrap src n items) items).2 =
        (group src k items).map dst := by
  have hF : Filled src dst n items items
      (fillBuckets wrap src dst (bucketStarts wrap src n items) items) :=
    filled_fillBuckets hwrap hsrc
  have hlen : bucketStarts wrap src n items (k + 1) - bucketStarts wrap src n items k =
      (group src k items).length := by
    rw [bucketStarts_eq hwrap hk.le, bucketStarts_eq hwrap hk, rankOf_succ,
      Nat.add_sub_cancel_left, group, ← List.countP_eq_length_filter]
  rw [hlen, bucketStarts_eq hwrap hk.le]
  refine List.ext_getElem? fun j => ?_
  rw [List.getElem?_map, List.getElem?_map]
  cases hj : (group src k items)[j]? with
  | none =>
    have hle := List.getElem?_eq_none_iff.1 hj
    rw [List.getElem?_eq_none (by simpa using hle)]
    rfl
  | some a =>
    have hlt := (List.getElem?_eq_some_iff.1 hj).1
    rw [List.getElem?_range' hlt, Option.map_some, Option.map_some, Nat.one_mul,
      hF.slot k hk j a hj]

/-- Two arrays filled side by side. -/
theorem bucket_eq₂ {dst' : α → ℕ} (hwrap : ∀ i ≤ items.length, wrap i = i)
    (hsrc : ∀ a ∈ items, src a < n) {k : ℕ} (hk : k < n) :
    (List.range' (bucketStarts wrap src n items k) (bucketStarts wrap src n items (k + 1) -
        bucketStarts wrap src n items k)).map
      (fun slot => ((fillBuckets wrap src dst (bucketStarts wrap src n items) items).2 slot,
        (fillBuckets wrap src dst' (bucketStarts wrap src n items) items).2 slot)) =
        (group src k items).map fun a => (dst a, dst' a) := by
  rw [← List.zip_map', ← List.zip_map', bucket_eq hwrap hsrc hk, bucket_eq hwrap hsrc hk]

/-- A bucket lies inside the array. -/
theorem slot_lt (hwrap : ∀ i ≤ items.length, wrap i = i) {k slot : ℕ} (hk : k < n)
    (h : slot ∈ List.range' (bucketStarts wrap src n items k)
      (bucketStarts wrap src n items (k + 1) - bucketStarts wrap src n items k)) :
    slot < items.length := by
  have hk1 : k + 1 ≤ n := hk
  rw [List.mem_range'_1, bucketStarts_eq hwrap hk.le, bucketStarts_eq hwrap hk1] at h
  have hle : rankOf src items (k + 1) ≤ items.length := rankOf_le _
  omega

end Buckets

end Grouping
