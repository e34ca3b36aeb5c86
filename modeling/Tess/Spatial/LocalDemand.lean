import Tess.Spatial.LocalCoordination
import Mathlib.Data.Prod.Lex
import Mathlib.Data.List.Count

/-!
# Local moves: checks and demand

* `coordKey` : `localCoordLess` is the lexicographic order;
* `accepts_iff` : **the resolver accepts what is well formed**;
* `feasible_scanDemand`, `count_scanDemand` : what the scan of demand notes;
* `congestionOf_spec` : one entry for each destination, in order, with its demand.
-/

namespace Tess

/-! ### The order of coordinates -/

/-- The components of a coordinate, compared one after the other. -/
def coordKey (c : Coord3) : ℤ ×ₗ ℤ ×ₗ ℤ := toLex (c.x, toLex (c.y, c.z))

theorem localCoordLess_iff {a b : Coord3} : localCoordLess a b = true ↔ coordKey a < coordKey b := by
  unfold localCoordLess coordKey
  rw [Prod.Lex.toLex_lt_toLex, Prod.Lex.toLex_lt_toLex]
  split_ifs with hx hy
  · simp only [decide_eq_true_eq]
    constructor
    · exact .inl
    · rintro (h | ⟨h, -⟩)
      · exact h
      · exact absurd h hx
  · rw [not_not] at hx
    simp only [decide_eq_true_eq, hx, lt_irrefl, true_and, false_or]
    constructor
    · exact .inl
    · rintro (h | ⟨h, -⟩)
      · exact h
      · exact absurd h hy
  · rw [not_not] at hx hy
    simp [hx, hy]

theorem coordKey_injective : Function.Injective coordKey := by
  intro a b h
  simp only [coordKey, EmbeddingLike.apply_eq_iff_eq, Prod.mk.injEq] at h
  exact Coord3.ext h.1 h.2.1 h.2.2

theorem localCoordLess_irrefl (a : Coord3) : localCoordLess a a = false := by
  rw [Bool.eq_false_iff, ne_eq, localCoordLess_iff]
  exact lt_irrefl _

theorem localCoordLess_trans {a b c : Coord3} (hab : localCoordLess a b = true)
    (hbc : localCoordLess b c = true) : localCoordLess a c = true := by
  rw [localCoordLess_iff] at *
  exact hab.trans hbc

theorem localCoordLess_total {a b : Coord3} (hne : a ≠ b) :
    localCoordLess a b = true ∨ localCoordLess b a = true := by
  rw [localCoordLess_iff, localCoordLess_iff]
  exact lt_or_gt_of_ne fun h => hne (coordKey_injective h)

theorem localCoordLess_asymm {a b : Coord3} (h : localCoordLess a b = true) :
    localCoordLess b a = false := by
  rw [Bool.eq_false_iff, ne_eq]
  rw [localCoordLess_iff] at *
  exact h.not_gt

/-! ### The checks -/

section Checks

variable {owned owned' : ℕ → Bool} {first count n k : ℕ} {requests : List LocalMoveRequest}
  {options : List LocalMoveOption}

theorem ownRange_spec : ownRange owned first count = some owned' ↔
    (∀ k, first ≤ k → k < first + count → owned k = false) ∧
      ∀ k, owned' k = (owned k || decide (first ≤ k ∧ k < first + count)) := by
  induction count generalizing owned' with
  | zero =>
    rw [ownRange, Option.some.injEq]
    constructor
    · rintro rfl
      exact ⟨fun k h h' => by omega, fun k => by simp⟩
    · rintro ⟨-, h⟩
      funext k
      rw [h]
      simp
  | succ count ih =>
    rw [ownRange]
    constructor
    · intro h
      obtain ⟨mid, hmid, hlast⟩ := Option.bind_eq_some_iff.1 h
      obtain ⟨hfree, hmid⟩ := ih.1 hmid
      split_ifs at hlast with ht
      obtain rfl := Option.some.inj hlast
      rw [Bool.not_eq_true, hmid, Bool.or_eq_false_iff] at ht
      refine ⟨fun k hk hk' => ?_, fun k => ?_⟩
      · by_cases hlt : k < first + count
        · exact hfree k hk hlt
        · rw [show k = first + count by omega]
          exact ht.1
      · rw [Function.update_apply]
        split_ifs with hkeq
        · simp [hkeq]
        · rw [hmid]
          congr 1
          rw [decide_eq_decide]
          omega
    · rintro ⟨hfree, howned⟩
      have hmid : ownRange owned first count = some fun k =>
          owned k || decide (first ≤ k ∧ k < first + count) :=
        ih.2 ⟨fun k hk hk' => hfree k hk (by omega), fun k => rfl⟩
      rw [hmid, Option.bind_some, if_neg]
      · rw [Option.some.injEq]
        funext k
        rw [howned, Function.update_apply]
        split_ifs with hkeq
        · simp [hkeq]
        · congr 1
          rw [decide_eq_decide]
          omega
      · simp [hfree (first + count) (by omega) (by omega)]

theorem ownRanges_isSome : (ownRanges n requests owned).isSome = true ↔
    (∀ r ∈ requests, r.optionOffset + r.optionCount ≤ n) ∧
      (∀ r ∈ requests, ∀ k, r.Owns k → owned k = false) ∧
      requests.Pairwise fun r r' => ∀ k, r.Owns k → ¬ r'.Owns k := by
  induction requests generalizing owned with
  | nil => simp [ownRanges]
  | cons r rest ih =>
    rw [ownRanges]
    split_ifs with hbad
    · refine iff_of_false (by simp) fun h => ?_
      have := h.1 r List.mem_cons_self
      omega
    · simp only [List.forall_mem_cons, List.pairwise_cons]
      cases hown : ownRange owned r.optionOffset r.optionCount with
      | none =>
        refine iff_of_false (by simp) fun h => ?_
        have hsome := (@ownRange_spec _ (fun k =>
          owned k || decide (r.optionOffset ≤ k ∧ k < r.optionOffset + r.optionCount)) _ _).2
            ⟨fun k hk hk' => h.2.1.1 k ⟨hk, hk'⟩, fun k => rfl⟩
        rw [hown] at hsome
        cases hsome
      | some owned' =>
        obtain ⟨hfree, howned'⟩ := ownRange_spec.1 hown
        rw [Option.bind_some, ih]
        have hrest : (∀ r' ∈ rest, ∀ k, r'.Owns k → owned' k = false) ↔
            (∀ r' ∈ rest, ∀ k, r'.Owns k → owned k = false) ∧
              ∀ r' ∈ rest, ∀ k, r.Owns k → ¬ r'.Owns k := by
          simp only [howned', Bool.or_eq_false_iff, decide_eq_false_iff_not]
          constructor
          · exact fun h => ⟨fun r' hr' k hk => (h r' hr' k hk).1,
              fun r' hr' k hk hk' => (h r' hr' k hk').2 hk⟩
          · exact fun h r' hr' k hk => ⟨h.1 r' hr' k hk, fun hk' => h.2 r' hr' k hk' hk⟩
        rw [hrest]
        constructor
        · rintro ⟨hb, ⟨ho, hd⟩, hp⟩
          exact ⟨⟨by omega, hb⟩, ⟨fun k hk => hfree k hk.1 hk.2, ho⟩, hd, hp⟩
        · rintro ⟨⟨-, hb⟩, ⟨-, ho⟩, hd, hp⟩
          exact ⟨hb, ⟨ho, hd⟩, hp⟩

/-- In a sorted list equal elements are neighbours. -/
theorem equalNeighbors_sorted {l : List ℕ} (h : l.Pairwise (· ≤ ·)) :
    equalNeighbors l = false ↔ l.Nodup := by
  induction l with
  | nil => simp [equalNeighbors]
  | cons a l ih =>
    obtain ⟨hle, hl⟩ := List.pairwise_cons.1 h
    cases l with
    | nil => simp [equalNeighbors]
    | cons b l =>
      rw [equalNeighbors, Bool.or_eq_false_iff, ih hl, List.nodup_cons (a := a)]
      refine and_congr_left fun hnodup => ?_
      rw [beq_eq_false_iff_ne]
      constructor
      · intro hne hmem
        have hab := hle b List.mem_cons_self
        rcases List.mem_cons.1 hmem with rfl | hmem
        · exact hne rfl
        · have hba := (List.pairwise_cons.1 hl).1 a hmem
          omega
      · rintro hmem rfl
        exact hmem List.mem_cons_self

/-- Sorting indices by the ids of a list and looking for equal neighbours finds out whether the ids
are different. -/
theorem equalNeighbors_mergeSort {α : Type*} (id : α → ℕ) (xs : List α) :
    equalNeighbors (((List.finRange xs.length).mergeSort fun i j =>
      id (xs.get i) ≤ id (xs.get j)).map fun i => id (xs.get i)) = false ↔ (xs.map id).Nodup := by
  have hsorted := @List.pairwise_mergeSort _
    (fun i j : Fin xs.length => decide (id (xs.get i) ≤ id (xs.get j)))
    (fun a b c hab hbc => by simp only [decide_eq_true_eq] at *; exact hab.trans hbc)
    (fun a b => by simp only [Bool.or_eq_true, decide_eq_true_eq]; exact le_total _ _)
    (List.finRange xs.length)
  have hperm := (List.mergeSort_perm (List.finRange xs.length) fun i j =>
    decide (id (xs.get i) ≤ id (xs.get j))).map fun i => id (xs.get i)
  rw [show (fun i : Fin xs.length => id (xs.get i)) = id ∘ xs.get from rfl,
    ← List.map_map (l := List.finRange _), List.map_get_finRange] at hperm
  rw [equalNeighbors_sorted (List.pairwise_map.2 (hsorted.imp fun hab => of_decide_eq_true hab))]
  exact hperm.nodup_iff

theorem agentOrder_perm : (agentOrder requests).Perm (List.finRange requests.length) :=
  List.mergeSort_perm _ _

/-- **The checks** pass exactly for what is well formed. -/
theorem accepts_iff : WellFormed requests options ↔
    ownRanges options.length requests (fun _ => false) ≠ none ∧
      equalNeighbors ((agentOrder requests).map fun i => (requests.get i).agent) = false := by
  rw [agentOrder, equalNeighbors_mergeSort LocalMoveRequest.agent requests,
    Option.ne_none_iff_isSome, ownRanges_isSome]
  constructor
  · rintro ⟨hb, hd, ha⟩
    exact ⟨⟨hb, fun _ _ _ _ => rfl, hd⟩, ha⟩
  · rintro ⟨⟨hb, -, hd⟩, ha⟩
    exact ⟨hb, hd, ha⟩

end Checks

/-! ### Demand -/

section Demand

variable {requests : List LocalMoveRequest} {options : List LocalMoveOption}
  {canEnter : LocalMoveRequest → LocalMoveOption → Bool} {r : LocalMoveRequest} {s : DemandScan}
  {n k : ℕ} {c : Coord3}

variable (options canEnter) in
/-- The mover can enter the destination of the option. -/
def Enters (r : LocalMoveRequest) (k : ℕ) : Prop :=
  ∃ option, options[k]? = some option ∧ canEnter r option = true

variable (options canEnter) in
/-- One of the first options of the request leads to the coordinate. -/
def Leads (r : LocalMoveRequest) (n : ℕ) (c : Coord3) : Prop :=
  ∃ j < n, ∃ option, options[r.optionOffset + j]? = some option ∧ canEnter r option = true ∧
    option.toCoord = c

/-- What the scan of a request has noted after some options, from a state on. -/
structure Noted (options : List LocalMoveOption)
    (canEnter : LocalMoveRequest → LocalMoveOption → Bool) (r : LocalMoveRequest)
    (s s' : DemandScan) (n : ℕ) : Prop where
  /-- The options that the mover can enter are marked. -/
  feasible : ∀ k, s'.feasible k = true ↔ s.feasible k = true ∨
    (r.optionOffset ≤ k ∧ k < r.optionOffset + n) ∧ Enters options canEnter r k
  /-- Every destination that the mover can enter is noted once. -/
  count : ∀ c, (Leads options canEnter r n c → s'.coords.count c = s.coords.count c + 1) ∧
    (¬ Leads options canEnter r n c → s'.coords.count c = s.coords.count c)

theorem leads_succ : Leads options canEnter r (n + 1) c ↔ Leads options canEnter r n c ∨
    ∃ option, options[r.optionOffset + n]? = some option ∧ canEnter r option = true ∧
      option.toCoord = c := by
  constructor
  · rintro ⟨j, hj, h⟩
    rcases Nat.lt_succ_iff_lt_or_eq.1 hj with hj | rfl
    · exact .inl ⟨j, hj, h⟩
    · exact .inr h
  · rintro (⟨j, hj, h⟩ | h)
    · exact ⟨j, by omega, h⟩
    · exact ⟨n, by omega, h⟩

/-- The test for duplicates looks at the options before. -/
theorem isDuplicate_iff {s' : DemandScan} (hn : n < r.optionCount)
    (hfree : ∀ k, r.Owns k → s.feasible k = false) (h : Noted options canEnter r s s' n) :
    isDuplicate options (Function.update s'.feasible (r.optionOffset + n) true) r.optionOffset n c =
      true ↔ Leads options canEnter r n c := by
  unfold isDuplicate Leads
  rw [List.any_eq_true]
  constructor
  · rintro ⟨j, hj, hdup⟩
    have hj := List.mem_range.1 hj
    rw [Bool.and_eq_true, Function.update_of_ne (by omega), h.feasible, beq_iff_eq] at hdup
    obtain ⟨hf, hto⟩ := hdup
    have hs := hfree (r.optionOffset + j) ⟨by omega, by omega⟩
    rw [hs] at hf
    obtain ⟨-, option, hoption, henter⟩ := hf.resolve_left Bool.false_ne_true
    rw [hoption, Option.map_some, Option.some.injEq] at hto
    exact ⟨j, hj, option, hoption, henter, hto⟩
  · rintro ⟨j, hj, option, hoption, henter, rfl⟩
    refine ⟨j, List.mem_range.2 hj, ?_⟩
    rw [Bool.and_eq_true, Function.update_of_ne (by omega), h.feasible, beq_iff_eq, hoption]
    exact ⟨.inr ⟨⟨by omega, by omega⟩, option, hoption, henter⟩, rfl⟩

/-- **One option.** -/
theorem Noted.scanOption {s' : DemandScan} (hn : n < r.optionCount)
    (hfree : ∀ k, r.Owns k → s.feasible k = false) (h : Noted options canEnter r s s' n) :
    Noted options canEnter r s (scanOption options canEnter r s' n) (n + 1) := by
  unfold Tess.scanOption
  cases hoption : options[r.optionOffset + n]? with
  | none =>
    refine ⟨fun k => (h.feasible k).trans ?_, fun c => ?_⟩
    · refine or_congr_right (and_congr_left fun hk => ?_)
      have hne : k ≠ r.optionOffset + n := by
        rintro rfl
        obtain ⟨option, ho, -⟩ := hk
        rw [hoption] at ho
        cases ho
      omega
    · rw [leads_succ, hoption]
      simpa using h.count c
  | some option =>
    by_cases henter : canEnter r option = true
    · simp only [henter, if_true]
      refine ⟨fun k => ?_, fun c => ?_⟩
      · simp only [Function.update_apply]
        split_ifs with hk
        · subst hk
          exact iff_of_true rfl (.inr ⟨⟨by omega, by omega⟩, option, hoption, henter⟩)
        · rw [h.feasible]
          refine or_congr_right (and_congr_left fun _ => ?_)
          omega
      · simp only [leads_succ, hoption, Option.some.injEq, exists_eq_left', henter, true_and]
        by_cases hlead : Leads options canEnter r n option.toCoord
        · rw [if_pos ((isDuplicate_iff hn hfree h).2 hlead)]
          by_cases hc : option.toCoord = c
          · subst hc
            simpa [hlead] using h.count option.toCoord
          · simpa [hc] using h.count c
        · rw [if_neg (mt (isDuplicate_iff hn hfree h).1 hlead), List.count_append, List.count_singleton]
          by_cases hc : option.toCoord = c
          · subst hc
            have := (h.count option.toCoord).2 hlead
            simp [this]
          · simpa [hc] using h.count c
    · simp only [henter]
      refine ⟨fun k => (h.feasible k).trans ?_, fun c => ?_⟩
      · refine or_congr_right (and_congr_left fun hk => ?_)
        have hne : k ≠ r.optionOffset + n := by
          rintro rfl
          obtain ⟨o, ho, hent⟩ := hk
          rw [hoption] at ho
          exact henter (Option.some.inj ho ▸ hent)
        omega
      · rw [leads_succ, hoption]
        simpa [henter] using h.count c

variable (options canEnter) in
/-- **The options of a request.** -/
theorem noted_scanRequest (hfree : ∀ k, r.Owns k → s.feasible k = false) :
    Noted options canEnter r s (scanRequest options canEnter s r) r.optionCount := by
  have key : ∀ n ≤ r.optionCount, Noted options canEnter r s
      ((List.range n).foldl (Tess.scanOption options canEnter r) s) n := by
    intro n hn
    induction n with
    | zero =>
      refine ⟨fun k => ?_, fun c => ⟨?_, fun _ => rfl⟩⟩
      · simp only [List.range_zero, List.foldl_nil]
        exact ⟨.inl, fun h => h.resolve_right fun h => by omega⟩
      · rintro ⟨j, hj, -⟩
        omega
    | succ n ih =>
      rw [List.range_succ, List.foldl_append, List.foldl_cons, List.foldl_nil]
      exact (ih (by omega)).scanOption hn hfree
  exact key _ le_rfl

/-- The request leads to the coordinate when it offers an option there. -/
theorem leads_iff : Leads options canEnter r r.optionCount c ↔
    ∃ option, Offered options canEnter r option ∧ option.toCoord = c := by
  constructor
  · rintro ⟨j, hj, option, hoption, henter, hc⟩
    exact ⟨option, ⟨⟨_, ⟨by omega, by omega⟩, hoption⟩, henter⟩, hc⟩
  · rintro ⟨option, ⟨⟨k, hk, hoption⟩, henter⟩, hc⟩
    obtain ⟨hle, hlt⟩ := hk
    refine ⟨k - r.optionOffset, by omega, option, ?_, henter, hc⟩
    rwa [Nat.add_sub_cancel' hle]

variable (options canEnter) in
/-- How many of the requests can enter the coordinate. -/
noncomputable def demandOf (rs : List LocalMoveRequest) (c : Coord3) : ℕ := by
  classical
  exact rs.countP fun r => decide (∃ option, Offered options canEnter r option ∧ option.toCoord = c)

variable (options canEnter s) in
/-- The scan of some requests, from a state in which their options are not marked. -/
theorem foldl_scanRequest
    (hpair : requests.Pairwise fun r r' => ∀ k, r.Owns k → ¬ r'.Owns k)
    (hfree : ∀ r ∈ requests, ∀ k, r.Owns k → s.feasible k = false) :
    (∀ k, (requests.foldl (scanRequest options canEnter) s).feasible k = true ↔
      s.feasible k = true ∨ ∃ r ∈ requests, r.Owns k ∧ Enters options canEnter r k) ∧
    ∀ c, (requests.foldl (scanRequest options canEnter) s).coords.count c =
      s.coords.count c + demandOf options canEnter requests c := by
  classical
  induction requests generalizing s with
  | nil => simp [demandOf]
  | cons r rest ih =>
    obtain ⟨hd, hpair⟩ := List.pairwise_cons.1 hpair
    have hr := noted_scanRequest options canEnter (hfree r List.mem_cons_self)
    have hfree' : ∀ r' ∈ rest, ∀ k, r'.Owns k →
        (scanRequest options canEnter s r).feasible k = false := by
      intro r' hr' k hk
      rw [Bool.eq_false_iff, ne_eq, hr.feasible, hfree r' (List.mem_cons_of_mem _ hr') k hk]
      rintro (h | ⟨h, -⟩)
      · cases h
      · exact hd r' hr' k h hk
    obtain ⟨hfeasible, hcount⟩ := ih _ hpair hfree'
    rw [List.foldl_cons]
    refine ⟨fun k => ?_, fun c => ?_⟩
    · rw [hfeasible, hr.feasible, List.exists_mem_cons_iff, or_assoc]
      rfl
    · rw [hcount, demandOf, demandOf, List.countP_cons]
      by_cases hl : Leads options canEnter r r.optionCount c
      · rw [(hr.count c).1 hl, if_pos (by simpa using leads_iff.1 hl)]
        omega
      · rw [(hr.count c).2 hl, if_neg (by simpa using mt leads_iff.2 hl)]
        omega

end Demand

/-! ### Congestion -/

/-- **One entry for each coordinate of a list**, in order, with its demand. -/
structure Congested (coords : List Coord3) (congestion : List LocalCongestion) : Prop where
  /-- Entries are in order. -/
  sorted : (congestion.map LocalCongestion.coord).Pairwise fun a b => localCoordLess a b = true
  /-- Exactly the coordinates of the list have one. -/
  mem : ∀ c, c ∈ congestion.map LocalCongestion.coord ↔ c ∈ coords
  /-- Demand is counted up to the greatest count. -/
  demand : ∀ e ∈ congestion, e.demand = min (coords.count e.coord) countMax
  /-- Nothing is reserved. -/
  reserved : ∀ e ∈ congestion, e.reserved = 0

section Congestion

variable {coords : List Coord3} {congestion : List LocalCongestion} {c : Coord3}

/-- A coordinate behind all others gets an entry of its own. -/
theorem Congested.new (h : Congested coords congestion)
    (hc : ∀ b ∈ coords, localCoordLess b c = true) :
    Congested (coords ++ [c]) (congestion ++ [⟨c, 1, 0⟩]) := by
  have hnot : c ∉ coords := fun hmem => by
    have := hc c hmem
    rw [localCoordLess_irrefl] at this
    cases this
  refine ⟨?_, fun b => ?_, ?_, ?_⟩
  · rw [List.map_append, List.pairwise_append]
    refine ⟨h.sorted, by simp, fun a ha b hb => ?_⟩
    rw [List.map_singleton, List.mem_singleton] at hb
    subst hb
    exact hc a ((h.mem a).1 ha)
  · rw [List.map_append, List.mem_append, List.mem_append, h.mem, List.map_singleton]
  · intro e he
    rw [List.count_append, List.count_singleton]
    rcases List.mem_append.1 he with hold | hlast
    · have hne : c ≠ e.coord := by
        rintro rfl
        exact hnot ((h.mem _).1 (List.mem_map_of_mem hold))
      rw [h.demand e hold, if_neg (by simpa using hne), Nat.add_zero]
    · rw [List.mem_singleton] at hlast
      subst hlast
      rw [List.count_eq_zero_of_not_mem hnot, if_pos (by simp)]
      exact (min_eq_left (show 0 + 1 ≤ countMax by decide)).symm
  · intro e he
    rcases List.mem_append.1 he with he | he
    · exact h.reserved e he
    · rw [List.mem_singleton] at he
      rw [he]

/-- Every entry before the last has another coordinate. -/
theorem Congested.ne_last {L : List LocalCongestion} {b e : LocalCongestion}
    (h : Congested coords (L ++ [b])) (he : e ∈ L) : localCoordLess e.coord b.coord = true := by
  have hs := h.sorted
  rw [List.map_append, List.pairwise_append] at hs
  exact hs.2.2 _ (List.mem_map_of_mem he) _ (by simp)

/-- The last coordinate once more. -/
theorem Congested.again {L : List LocalCongestion} {b b' : LocalCongestion}
    (h : Congested coords (L ++ [b])) (hcoord : b'.coord = b.coord) (hreserved : b'.reserved = 0)
    (hdemand : b'.demand = min (coords.count b.coord + 1) countMax) :
    Congested (coords ++ [b.coord]) (L ++ [b']) := by
  have hmap : (L ++ [b']).map LocalCongestion.coord = (L ++ [b]).map LocalCongestion.coord := by
    simp [hcoord]
  refine ⟨hmap ▸ h.sorted, fun c => ?_, fun e he => ?_, fun e he => ?_⟩
  · rw [hmap, h.mem, List.mem_append, List.mem_singleton]
    constructor
    · exact .inl
    · rintro (hc | rfl)
      · exact hc
      · exact (h.mem _).1 (by simp)
  · rcases List.mem_append.1 he with he | he
    · have hne : b.coord ≠ e.coord := by
        intro heq
        have := h.ne_last he
        rw [heq, localCoordLess_irrefl] at this
        cases this
      rw [h.demand e (List.mem_append_left _ he), List.count_append, List.count_singleton,
        if_neg (by simpa using hne), Nat.add_zero]
    · rw [List.mem_singleton] at he
      subst he
      rw [hdemand, hcoord, List.count_append, List.count_singleton_self]
  · rcases List.mem_append.1 he with he | he
    · exact h.reserved e (List.mem_append_left _ he)
    · rw [List.mem_singleton] at he
      rw [he, hreserved]

/-- **One more coordinate**, not before those seen. -/
theorem Congested.noteDemand (h : Congested coords congestion)
    (hc : ∀ b ∈ coords, localCoordLess c b = false) :
    Congested (coords ++ [c]) (noteDemand congestion c) := by
  have hlast : ∀ b ∈ coords, b ≠ c → localCoordLess b c = true := fun b hb hne => by
    refine (localCoordLess_total hne).resolve_right ?_
    rw [hc b hb]
    exact Bool.false_ne_true
  rcases List.eq_nil_or_concat' congestion with rfl | ⟨L, b, rfl⟩
  · have hnil : coords = [] := List.eq_nil_iff_forall_not_mem.2 fun b hb => by
      have := (h.mem b).2 hb
      simp at this
    exact h.new fun b hb => by simp [hnil] at hb
  · have hb : b.coord ∈ coords := (h.mem _).1 (by simp)
    simp only [Tess.noteDemand, List.getLast?_append_of_ne_nil _ (List.cons_ne_nil b []),
      List.getLast?_singleton, List.dropLast_concat]
    by_cases hbc : b.coord = c
    · subst hbc
      rw [if_neg (by simp)]
      have hd := h.demand b (by simp)
      split_ifs with hmax
      · refine h.again rfl (h.reserved b (by simp)) ?_
        simp only
        omega
      · exact h.again rfl (h.reserved b (by simp)) (by omega)
    · rw [if_pos hbc]
      refine h.new fun d hd => hlast d hd ?_
      rintro rfl
      -- it would have an entry before the last one, which is not behind it
      have hmem := (h.mem d).2 hd
      rw [List.map_append, List.mem_append, List.map_singleton, List.mem_singleton] at hmem
      obtain ⟨e, he, rfl⟩ := List.mem_map.1 (hmem.resolve_right (Ne.symm hbc))
      have := h.ne_last he
      rw [hc _ hb] at this
      cases this

theorem congested_foldl (hs : coords.Pairwise fun a b => localCoordLess b a = false) :
    Congested coords (coords.foldl noteDemand []) := by
  induction coords using List.reverseRecOn with
  | nil => exact ⟨List.Pairwise.nil, by simp, by simp, by simp⟩
  | append_singleton coords c ih =>
    rw [List.pairwise_append] at hs
    rw [List.foldl_append, List.foldl_cons, List.foldl_nil]
    exact (ih hs.1).noteDemand fun b hb => hs.2.2 b hb c (by simp)

/-- **The congestion of some destinations.** -/
theorem congestionOf_spec (coords : List Coord3) : Congested coords (congestionOf coords) := by
  have hperm := List.mergeSort_perm coords fun a b => !localCoordLess b a
  have hsorted := @List.pairwise_mergeSort _ (fun a b => !localCoordLess b a)
    (fun a b c hab hbc => by
      rw [Bool.not_eq_true', Bool.eq_false_iff, ne_eq, localCoordLess_iff, not_lt] at *
      exact hab.trans hbc)
    (fun a b => by
      rw [Bool.or_eq_true, Bool.not_eq_true', Bool.not_eq_true', Bool.eq_false_iff,
        Bool.eq_false_iff, ne_eq, ne_eq, localCoordLess_iff, localCoordLess_iff, not_lt, not_lt]
      exact le_total _ _) coords
  have h := congested_foldl (hsorted.imp fun hab => by simpa using hab)
  refine ⟨h.sorted, fun c => (h.mem c).trans hperm.mem_iff, fun e he => ?_, h.reserved⟩
  rw [h.demand e he, hperm.count_eq]

end Congestion

end Tess
