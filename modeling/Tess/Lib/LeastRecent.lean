import Mathlib.Algebra.GroupWithZero.Nat
import Mathlib.Data.List.Nodup
import Mathlib.Data.List.Perm.Basic
import Mathlib.Data.List.Sort
import Mathlib.Order.Basic

/-!
# Least recently used entries

Entries carry the time of their last use and lie in any order.  What a cache forgets is decided by
the order of their last uses alone, so it is the list of entries from the oldest use on that counts.

* `oldest` : the scan for the first entry with the least time;
* `ByUse` : **the entries from the oldest use on**;
* `ByUse.eraseOldest`, `ByUse.eraseIdx`, `ByUse.append`, `ByUse.set` : what operations on the
  entries make of that list;
* `trim` : forgetting entries, the oldest first, until the rest is light enough.
-/

namespace Recency

variable {E : Type*}

/-! ### The oldest entry -/

section Oldest

variable (time : E → ℕ)

/-- The scan for an entry that is older than the oldest so far. -/
def scanOldest : ℕ → ℕ → ℕ → List E → ℕ
  | found, _, _, [] => found
  | found, least, i, e :: es =>
    if time e < least then scanOldest i (time e) (i + 1) es else scanOldest found least (i + 1) es

/-- The first of the oldest entries. -/
def oldest : List E → ℕ
  | [] => 0
  | e :: es => scanOldest time 0 (time e) 1 es

variable {time}

theorem scanOldest_spec {seen es : List E} {found : ℕ} {a : E} (ha : seen[found]? = some a)
    (hleast : ∀ b ∈ seen, time a ≤ time b) :
    ∃ a', (seen ++ es)[scanOldest time found (time a) seen.length es]? = some a' ∧
      ∀ b ∈ seen ++ es, time a' ≤ time b := by
  induction es generalizing seen found a with
  | nil =>
    rw [List.append_nil]
    exact ⟨a, ha, hleast⟩
  | cons e es ih =>
    rw [scanOldest]
    have hsplit : seen ++ e :: es = seen ++ [e] ++ es := by simp
    have hlen : (seen ++ [e]).length = seen.length + 1 := by simp
    rw [hsplit, ← hlen]
    by_cases hlt : time e < time a
    · rw [if_pos hlt]
      refine ih (by simp) fun b hb => ?_
      rcases List.mem_append.1 hb with hb | hb
      · exact (hlt.trans_le (hleast b hb)).le
      · rw [List.mem_singleton.1 hb]
    · rw [if_neg hlt]
      refine ih ?_ fun b hb => ?_
      · rw [List.getElem?_append_left (List.getElem?_eq_some_iff.1 ha).1]
        exact ha
      · rcases List.mem_append.1 hb with hb | hb
        · exact hleast b hb
        · rw [List.mem_singleton.1 hb]
          exact not_lt.1 hlt

/-- **The scan finds an entry as old as any.** -/
theorem oldest_spec {es : List E} (hne : es ≠ []) :
    ∃ a, es[oldest time es]? = some a ∧ ∀ b ∈ es, time a ≤ time b := by
  cases es with
  | nil => exact absurd rfl hne
  | cons e es =>
    refine @scanOldest_spec _ time [e] es 0 e rfl fun b hb => ?_
    rw [List.mem_singleton.1 hb]

end Oldest

/-! ### The order of uses -/

section Order

variable {time : E → ℕ} {entries uses : List E} {a b : E} {i : ℕ}

/-- **The entries from the oldest use on.** -/
structure ByUse (time : E → ℕ) (entries uses : List E) : Prop where
  /-- The same entries. -/
  perm : uses.Perm entries
  /-- No two were last used at the same time. -/
  ordered : uses.Pairwise fun a b => time a < time b

theorem ByUse.nil (time : E → ℕ) : ByUse time [] [] := ⟨.nil, .nil⟩

theorem ByUse.mem_iff (h : ByUse time entries uses) : a ∈ uses ↔ a ∈ entries := h.perm.mem_iff

/-- Entries in order of use are no others than their times say. -/
theorem ByUse.time_inj (h : ByUse time entries uses) (ha : a ∈ entries) (hb : b ∈ entries)
    (heq : time a = time b) : a = b := by
  by_contra hne
  have hab := List.pairwise_iff_getElem.1 h.ordered
  obtain ⟨i, hi, rfl⟩ := List.getElem_of_mem (h.mem_iff.2 ha)
  obtain ⟨j, hj, rfl⟩ := List.getElem_of_mem (h.mem_iff.2 hb)
  rcases Nat.lt_trichotomy i j with hlt | rfl | hlt
  · have := hab i j hi hj hlt
    omega
  · exact hne rfl
  · have := hab j i hj hi hlt
    omega

theorem ByUse.nodup (h : ByUse time entries uses) : entries.Nodup := by
  refine h.perm.nodup_iff.1 (h.ordered.imp fun hlt heq => ?_)
  rw [heq] at hlt
  exact lt_irrefl _ hlt

/-- **An entry is taken out.** -/
theorem ByUse.eraseIdx (h : ByUse time entries uses) (ha : entries[i]? = some a) :
    ByUse time (entries.eraseIdx i) (uses.filter fun b => time b ≠ time a) := by
  obtain ⟨hi, rfl⟩ := List.getElem?_eq_some_iff.1 ha
  have hnodup := h.nodup
  refine ⟨?_, h.ordered.filter _⟩
  refine (List.perm_ext_iff_of_nodup ((h.perm.nodup_iff.2 hnodup).filter _)
    (hnodup.sublist (List.eraseIdx_sublist _ _))).2 fun b => ?_
  rw [List.mem_filter, decide_eq_true_iff, h.mem_iff, List.mem_eraseIdx_iff_getElem]
  constructor
  · rintro ⟨hb, hne⟩
    obtain ⟨j, hj, rfl⟩ := List.getElem_of_mem hb
    exact ⟨j, hj, fun heq => hne (by subst heq; rfl), rfl⟩
  · rintro ⟨j, hj, hne, rfl⟩
    refine ⟨List.getElem_mem hj, fun heq => hne ?_⟩
    exact (List.Nodup.getElem_inj_iff hnodup).1
      (h.time_inj (List.getElem_mem hj) (List.getElem_mem hi) heq)

/-- **The oldest entry is taken out.** -/
theorem ByUse.eraseOldest (h : ByUse time entries (a :: uses)) :
    entries[oldest time entries]? = some a ∧
      ByUse time (entries.eraseIdx (oldest time entries)) uses := by
  obtain ⟨hlt, hordered⟩ := List.pairwise_cons.1 h.ordered
  have hmem : a ∈ entries := h.mem_iff.1 List.mem_cons_self
  obtain ⟨a', ha', hleast⟩ := @oldest_spec _ time _ (List.ne_nil_of_mem hmem)
  have heq : a' = a := by
    have hmem' : a' ∈ a :: uses := h.mem_iff.2 (List.mem_of_getElem? ha')
    rcases List.mem_cons.1 hmem' with heq | hin
    · exact heq
    · have := hlt a' hin
      have := hleast a hmem
      omega
  subst heq
  have herase := h.eraseIdx ha'
  have hfilter : (a' :: uses).filter (fun b => time b ≠ time a') = uses := by
    rw [List.filter_cons_of_neg (by simp), List.filter_eq_self]
    intro b hb
    simpa using (hlt b hb).ne'
  rw [hfilter] at herase
  exact ⟨ha', herase⟩

/-- **A newest entry is added.** -/
theorem ByUse.append (h : ByUse time entries uses) (hnew : ∀ b ∈ entries, time b < time a) :
    ByUse time (entries ++ [a]) (uses ++ [a]) := by
  refine ⟨h.perm.append_right _, List.pairwise_append.2 ⟨h.ordered, List.pairwise_singleton _ _,
    fun b hb c hc => ?_⟩⟩
  rw [List.mem_singleton.1 hc]
  exact hnew b (h.mem_iff.1 hb)

/-- **An entry becomes the newest.** -/
theorem ByUse.set (h : ByUse time entries uses) (ha : entries[i]? = some a)
    (hnew : ∀ c ∈ entries, time c < time b) :
    ByUse time (entries.set i b) ((uses.filter fun c => time c ≠ time a) ++ [b]) := by
  have herase := h.eraseIdx ha
  have happend := herase.append (a := b) fun c hc =>
    hnew c ((List.eraseIdx_sublist _ _).mem hc)
  refine ⟨happend.perm.trans ?_, happend.ordered⟩
  obtain ⟨hi, -⟩ := List.getElem?_eq_some_iff.1 ha
  rw [List.eraseIdx_eq_take_drop_succ, List.set_eq_take_append_cons_drop, if_pos hi,
    List.append_assoc]
  have hcomm : (entries.drop (i + 1) ++ [b]).Perm ([b] ++ entries.drop (i + 1)) :=
    List.perm_append_comm
  exact hcomm.append_left _

end Order

/-! ### Forgetting -/

section Trim

variable (weight : E → ℕ) (budget : ℕ)

/-- Entries are forgotten, the oldest first, until the others fit the budget. -/
def trim : List E → List E
  | [] => []
  | e :: es => if budget < ((e :: es).map weight).sum then trim es else e :: es

variable {weight budget}

@[simp] theorem trim_nil : trim weight budget [] = [] := rfl

theorem trim_cons {e : E} {es : List E} : trim weight budget (e :: es) =
    if budget < ((e :: es).map weight).sum then trim weight budget es else e :: es := rfl

/-- Weights of what is kept of the entries. -/
theorem trim_map {F : Type*} {weight : F → ℕ} {f : E → F} (es : List E) :
    trim weight budget (es.map f) = (trim (fun e => weight (f e)) budget es).map f := by
  induction es with
  | nil => rfl
  | cons e es ih =>
    rw [List.map_cons, trim_cons, trim_cons, ← List.map_cons, List.map_map]
    by_cases hover : budget < ((e :: es).map fun e => weight (f e)).sum
    · rw [if_pos hover, if_pos (show budget < ((e :: es).map (weight ∘ f)).sum from hover)]
      exact ih
    · rw [if_neg hover, if_neg (show ¬ budget < ((e :: es).map (weight ∘ f)).sum from hover)]

/-- **The newest entry stays**, if it fits by itself. -/
theorem trim_concat {es : List E} {e : E} (he : weight e ≤ budget) :
    ∃ es', trim weight budget (es ++ [e]) = es' ++ [e] := by
  induction es with
  | nil =>
    refine ⟨[], ?_⟩
    rw [List.nil_append, trim_cons, if_neg (by simpa using he)]
  | cons e' es ih =>
    rw [List.cons_append, trim_cons]
    split
    · exact ih
    · exact ⟨e' :: es, rfl⟩

end Trim

end Recency
