import Tess.Spatial.LocalDemand
import Mathlib.Data.Fintype.Fin
import Mathlib.Data.List.TakeWhile

/-!
# Local moves: service

* `isClaimed_iff`, `claim_spec` : the sorted vector of claims is a set;
* `bestOption_spec` : the scan of a mover's options;
* `requestOrder_sorted` : the order of service;
* `serviceInv_serveRequests` : **service is serial choice**;
* `resolveLocalMoves_spec` : what the resolver returns.
-/

namespace Tess

open SerialChoice SerialChoice.Market

/-! ### Sorted vectors -/

section Claims

variable {claimed : List Coord3} {c d : Coord3}

/-- Destinations in ascending order. -/
def Ascending (claimed : List Coord3) : Prop :=
  claimed.Pairwise fun a b => localCoordLess a b = true

/-- The elements before the bound are less, the others are not. -/
theorem exists_split {α : Type*} {xs : List α} {key : α → Coord3}
    (h : xs.Pairwise fun a b => localCoordLess (key a) (key b) = true) (c : Coord3) :
    ∃ l r, xs = l ++ r ∧ lowerBoundBy (fun b => localCoordLess (key b) c) xs = l.length ∧
      (∀ b ∈ l, localCoordLess (key b) c = true) ∧ ∀ b ∈ r, localCoordLess (key b) c = false := by
  refine ⟨xs.takeWhile fun b => localCoordLess (key b) c, xs.dropWhile fun b =>
    localCoordLess (key b) c, List.takeWhile_append_dropWhile.symm, rfl,
    fun b hb => List.mem_takeWhile_imp (p := fun b => localCoordLess (key b) c) hb,
    fun b hb => ?_⟩
  induction xs with
  | nil => cases hb
  | cons a xs ih =>
    obtain ⟨ha, h⟩ := List.pairwise_cons.1 h
    rw [List.dropWhile_cons] at hb
    split_ifs at hb with hac
    · exact ih h hb
    · rcases List.mem_cons.1 hb with rfl | hb
      · simpa using hac
      · rw [Bool.eq_false_iff, ne_eq]
        exact fun hbc => hac (localCoordLess_trans (ha b hb) hbc)

theorem Ascending.split (h : Ascending claimed) (c : Coord3) :
    ∃ l r, claimed = l ++ r ∧ lowerBoundBy (fun b => localCoordLess b c) claimed = l.length ∧
      (∀ b ∈ l, localCoordLess b c = true) ∧ ∀ b ∈ r, localCoordLess b c = false :=
  @exists_split _ _ (fun b => b) h c

/-- **The binary search** finds what the vector has. -/
theorem isClaimed_iff (h : Ascending claimed) : isClaimed claimed c = true ↔ c ∈ claimed := by
  obtain ⟨l, r, rfl, hlen, hl, hr⟩ := h.split c
  rw [isClaimed, hlen, List.getElem?_append_right le_rfl, Nat.sub_self]
  have hc : c ∈ l ++ r ↔ c ∈ r := by
    rw [List.mem_append]
    refine or_iff_right fun hmem => ?_
    have := hl c hmem
    rw [localCoordLess_irrefl] at this
    cases this
  rw [hc]
  cases r with
  | nil => simp
  | cons b r =>
    simp only [List.getElem?_cons_zero, Bool.not_eq_true']
    have hb := hr b List.mem_cons_self
    constructor
    · intro hcb
      by_contra hne
      rcases localCoordLess_total (a := b) (b := c) fun heq => hne (heq ▸ List.mem_cons_self) with
        hlt | hlt
      · rw [hb] at hlt
        cases hlt
      · rw [hcb] at hlt
        cases hlt
    · intro hmem
      rcases List.mem_cons.1 hmem with rfl | hmem
      · exact localCoordLess_irrefl _
      · have hs := (List.pairwise_append.1 h).2.1
        exact localCoordLess_asymm ((List.pairwise_cons.1 hs).1 c hmem)

theorem insertIdx_length_append (l r : List Coord3) (c : Coord3) :
    (l ++ r).insertIdx l.length c = l ++ c :: r := by
  induction l with
  | nil => rfl
  | cons a l ih => simp [ih]

/-- **A claim** is inserted in order. -/
theorem claim_spec (h : Ascending claimed) (hc : c ∉ claimed) :
    Ascending (claimed.insertIdx (lowerBoundBy (fun b => localCoordLess b c) claimed) c) ∧
      ∀ b, b ∈ claimed.insertIdx (lowerBoundBy (fun b => localCoordLess b c) claimed) c ↔
        b = c ∨ b ∈ claimed := by
  obtain ⟨l, r, rfl, hlen, hl, hr⟩ := h.split c
  rw [hlen, insertIdx_length_append]
  unfold Ascending at h ⊢
  rw [List.pairwise_append] at h ⊢
  refine ⟨⟨h.1, List.pairwise_cons.2 ⟨fun b hb => ?_, h.2.1⟩, fun a ha b hb => ?_⟩, fun b => ?_⟩
  · have hne : b ≠ c := by
      rintro rfl
      exact hc (List.mem_append_right _ hb)
    refine (localCoordLess_total hne).resolve_left ?_
    rw [hr b hb]
    exact Bool.false_ne_true
  · rcases List.mem_cons.1 hb with rfl | hb
    · exact hl a ha
    · exact h.2.2 a ha b hb
  · simp only [List.mem_append, List.mem_cons]
    tauto

end Claims

/-! ### The options of a mover -/

section Options

variable {options : List LocalMoveOption} {feasible : ℕ → Bool} {claimed : List Coord3}
  {r : LocalMoveRequest} {a b c : LocalMoveOption}

/-- An option compared by its preference and then by its destination. -/
def optionKey (option : LocalMoveOption) : ℤ ×ₗ ℤ ×ₗ ℤ ×ₗ ℤ :=
  toLex (option.preference, coordKey option.toCoord)

theorem betterOption_iff : betterOption a b = true ↔ optionKey a < optionKey b := by
  unfold betterOption optionKey
  rw [Prod.Lex.toLex_lt_toLex, Bool.or_eq_true, Bool.and_eq_true, decide_eq_true_eq, beq_iff_eq,
    localCoordLess_iff]

theorem optionKey_injective : Function.Injective optionKey := by
  intro a b h
  simp only [optionKey, EmbeddingLike.apply_eq_iff_eq, Prod.mk.injEq] at h
  obtain ⟨c, p⟩ := a
  obtain ⟨d, q⟩ := b
  exact congrArg₂ _ (coordKey_injective h.2) h.1

theorem betterOption_total (hne : a ≠ b) : betterOption a b = true ∨ betterOption b a = true := by
  rw [betterOption_iff, betterOption_iff]
  exact lt_or_gt_of_ne fun h => hne (optionKey_injective h)

/-- The option is one of the first of the range, marked and not claimed. -/
def Takeable (options : List LocalMoveOption) (feasible : ℕ → Bool) (claimed : List Coord3)
    (r : LocalMoveRequest) (n : ℕ) (option : LocalMoveOption) : Prop :=
  ∃ j < n, options[r.optionOffset + j]? = some option ∧ feasible (r.optionOffset + j) = true ∧
    option.toCoord ∉ claimed

/-- The best of the takeable options, if there is one. -/
def IsBest (P : LocalMoveOption → Prop) : Option LocalMoveOption → Prop
  | none => ∀ a, ¬ P a
  | some b => P b ∧ ∀ a, P a → betterOption a b = false

theorem takeable_succ {n : ℕ} : Takeable options feasible claimed r (n + 1) a ↔
    Takeable options feasible claimed r n a ∨ options[r.optionOffset + n]? = some a ∧
      feasible (r.optionOffset + n) = true ∧ a.toCoord ∉ claimed := by
  constructor
  · rintro ⟨j, hj, h⟩
    rcases Nat.lt_succ_iff_lt_or_eq.1 hj with hj | rfl
    · exact .inl ⟨j, hj, h⟩
    · exact .inr h
  · rintro (⟨j, hj, h⟩ | h)
    · exact ⟨j, by omega, h⟩
    · exact ⟨n, by omega, h⟩

theorem IsBest.congr {P Q : LocalMoveOption → Prop} {best : Option LocalMoveOption}
    (h : IsBest P best) (hPQ : ∀ a, Q a ↔ P a) : IsBest Q best := by
  cases best with
  | none => exact fun a ha => h a ((hPQ a).1 ha)
  | some b => exact ⟨(hPQ b).2 h.1, fun a ha => h.2 a ((hPQ a).1 ha)⟩

/-- One more option. -/
theorem IsBest.keepBetter {P Q : LocalMoveOption → Prop} {best : Option LocalMoveOption}
    (h : IsBest P best) (hPQ : ∀ a, Q a ↔ P a ∨ a = c) :
    IsBest Q (keepBetter best c) := by
  have hirrefl : betterOption c c = false := by
    rw [Bool.eq_false_iff, ne_eq, betterOption_iff]
    exact lt_irrefl _
  cases best with
  | none =>
    refine ⟨(hPQ c).2 (.inr rfl), fun a ha => ?_⟩
    rcases (hPQ a).1 ha with ha | rfl
    · exact absurd ha (h a)
    · exact hirrefl
  | some b =>
    unfold Tess.keepBetter
    by_cases hcb : betterOption c b = true
    · simp only [hcb, if_true]
      refine ⟨(hPQ c).2 (.inr rfl), fun a ha => ?_⟩
      rcases (hPQ a).1 ha with ha | rfl
      · have hab := h.2 a ha
        rw [Bool.eq_false_iff, ne_eq, betterOption_iff] at hab ⊢
        rw [betterOption_iff] at hcb
        exact fun hac => hab (hac.trans hcb)
      · exact hirrefl
    · simp only [hcb]
      refine ⟨(hPQ b).2 (.inl h.1), fun a ha => ?_⟩
      rcases (hPQ a).1 ha with ha | rfl
      · exact h.2 a ha
      · exact Bool.eq_false_iff.2 hcb

/-- **The scan** keeps the best option. -/
theorem bestOption_spec (h : Ascending claimed) :
    IsBest (Takeable options feasible claimed r r.optionCount)
      (bestOption options feasible claimed r) := by
  have key : ∀ n, IsBest (Takeable options feasible claimed r n)
      ((List.range n).foldl (considerOption options feasible claimed r) none) := by
    intro n
    induction n with
    | zero =>
      rintro a ⟨j, hj, -⟩
      omega
    | succ n ih =>
      rw [List.range_succ, List.foldl_append, List.foldl_cons, List.foldl_nil, considerOption]
      cases hoption : options[r.optionOffset + n]? with
      | none => exact ih.congr fun a => by simp [takeable_succ, hoption]
      | some option =>
        simp only
        split_ifs with hskip
        · refine ih.congr fun a => takeable_succ.trans (or_iff_left ?_)
          rintro ⟨ha, hf, hclaimed⟩
          rw [hoption, Option.some.injEq] at ha
          subst ha
          rw [Bool.or_eq_true, isClaimed_iff h, Bool.not_eq_true', hf] at hskip
          exact hclaimed (hskip.resolve_left (by simp))
        · refine ih.keepBetter fun a => takeable_succ.trans (or_congr_right ?_)
          rw [Bool.or_eq_true, isClaimed_iff h, Bool.not_eq_true', not_or, Bool.not_eq_false]
            at hskip
          rw [hoption, Option.some.injEq]
          constructor
          · exact fun ha => ha.1.symm
          · rintro rfl
            exact ⟨rfl, hskip⟩
  exact key _

end Options

/-! ### The order of service -/

section Order

variable {requests : List LocalMoveRequest} {options : List LocalMoveOption}
  {canEnter : LocalMoveRequest → LocalMoveOption → Bool} {r r' : LocalMoveRequest}

/-- A request compared by descending priority and then by ascending id. -/
def serviceKey (r : LocalMoveRequest) : ℤ ×ₗ ℕ := toLex (-(r.priority : ℤ), r.agent)

theorem servedBefore_iff : servedBefore r r' = true ↔ serviceKey r < serviceKey r' := by
  unfold servedBefore serviceKey
  rw [Prod.Lex.toLex_lt_toLex, neg_lt_neg_iff, Nat.cast_lt, neg_inj, Nat.cast_inj]
  split_ifs with hne
  · simp only [gt_iff_lt, decide_eq_true_eq, hne, false_and, or_false]
  · rw [not_not] at hne
    simp [hne]

theorem WellFormed.agent_injective (h : WellFormed requests options) {i j : Fin requests.length}
    (hij : (requests.get i).agent = (requests.get j).agent) : i = j := by
  have hget := List.inj_on_of_nodup_map h.agents (List.get_mem _ i) (List.get_mem _ j) hij
  exact List.nodup_iff_injective_get.1 (List.Nodup.of_map _ h.agents) hget

variable (canEnter) in
/-- **The market is strict** when ids are different. -/
theorem strict_moveMarket (h : WellFormed requests options) :
    (moveMarket requests options canEnter).Strict where
  irrefl i hi := by
    simp only [moveMarket, servedBefore_iff] at hi
    exact lt_irrefl _ hi
  trans i j k hij hjk := by
    simp only [moveMarket, servedBefore_iff] at hij hjk ⊢
    exact hij.trans hjk
  total i j hne := by
    simp only [moveMarket, servedBefore_iff]
    refine lt_or_gt_of_ne fun heq => hne (h.agent_injective ?_)
    simp only [serviceKey, EmbeddingLike.apply_eq_iff_eq, Prod.mk.injEq] at heq
    exact heq.2
  better_total a b hne := betterOption_total hne

theorem requestOrder_perm : (requestOrder requests).Perm (List.finRange requests.length) :=
  (List.mergeSort_perm _ _).trans agentOrder_perm

/-- **The order of service.** -/
theorem requestOrder_sorted (h : WellFormed requests options) :
    (requestOrder requests).Pairwise fun i j =>
      servedBefore (requests.get i) (requests.get j) = true := by
  have hsorted := @List.pairwise_mergeSort _
    (fun i j : Fin requests.length => !servedBefore (requests.get j) (requests.get i))
    (fun a b c hab hbc => by
      rw [Bool.not_eq_true', Bool.eq_false_iff, ne_eq, servedBefore_iff, not_lt] at *
      exact hab.trans hbc)
    (fun a b => by
      rw [Bool.or_eq_true, Bool.not_eq_true', Bool.not_eq_true', Bool.eq_false_iff,
        Bool.eq_false_iff, ne_eq, ne_eq, servedBefore_iff, servedBefore_iff, not_lt, not_lt]
      exact le_total _ _) (agentOrder requests)
  have hnodup : (requestOrder requests).Nodup :=
    requestOrder_perm.nodup_iff.2 (List.nodup_finRange _)
  refine (hsorted.and hnodup).imp fun {i j} hij => ?_
  refine ((strict_moveMarket (fun _ _ => true) h).total i j hij.2).resolve_right ?_
  have hle := hij.1
  rw [Bool.not_eq_true'] at hle
  show ¬ servedBefore (requests.get j) (requests.get i) = true
  rw [hle]
  exact Bool.false_ne_true

end Order

/-! ### Service -/

/-- The decision about a mover. -/
def decisionOf (r : LocalMoveRequest) : Option LocalMoveOption → LocalMoveDecision
  | none => waiting r
  | some chosen => reserving r chosen

/-- The congestion with the destinations that are claimed. -/
def markReserved (claimed : List Coord3) (e : LocalCongestion) : LocalCongestion :=
  { e with reserved := if e.coord ∈ claimed then 1 else 0 }

/-- Past the end nothing is counted. -/
theorem noteReserved_nil {l : List LocalCongestion} {c : Coord3}
    (h : lowerBoundBy (fun e : LocalCongestion => localCoordLess e.coord c) l = l.length) :
    noteReserved l c = l := by
  simp only [noteReserved, h, List.getElem?_eq_none le_rfl]

/-- The entry at the bound is counted when it is of the destination. -/
theorem noteReserved_cons {l r : List LocalCongestion} {e : LocalCongestion} {c : Coord3}
    (h : lowerBoundBy (fun e : LocalCongestion => localCoordLess e.coord c) (l ++ e :: r) = l.length) :
    noteReserved (l ++ e :: r) c = l ++
      (if e.coord = c ∧ e.reserved ≠ countMax then { e with reserved := e.reserved + 1 } else e) ::
        r := by
  simp only [noteReserved, h, List.getElem?_append_right le_rfl, Nat.sub_self,
    List.getElem?_cons_zero]
  split_ifs
  · rw [List.set_append_right _ _ le_rfl, Nat.sub_self, List.set_cons_zero]
  · rfl

theorem noteReserved_markReserved {base : List LocalCongestion} {claimed claimed' : List Coord3}
    {c : Coord3} (hs : (base.map LocalCongestion.coord).Pairwise fun a b => localCoordLess a b = true)
    (hc : c ∉ claimed) (hclaimed : ∀ b, b ∈ claimed' ↔ b = c ∨ b ∈ claimed) :
    noteReserved (base.map (markReserved claimed)) c = base.map (markReserved claimed') := by
  have hsame : ∀ e : LocalCongestion, e.coord ≠ c → markReserved claimed' e = markReserved claimed e := by
    intro e he
    simp only [markReserved, hclaimed, he, false_or]
  have hsorted : (base.map (markReserved claimed)).Pairwise fun a b =>
      localCoordLess a.coord b.coord = true :=
    List.pairwise_map.2 (List.pairwise_map.1 hs)
  obtain ⟨l, r, hsplit, hlen, hl, hr⟩ := exists_split hsorted c
  obtain ⟨bl, br, rfl, rfl, rfl⟩ := List.map_eq_append_iff.1 hsplit
  have hleft : bl.map (markReserved claimed') = bl.map (markReserved claimed) := by
    refine List.map_congr_left fun e he => hsame e ?_
    rintro rfl
    have := hl _ (List.mem_map_of_mem he)
    rw [show (markReserved claimed e).coord = e.coord from rfl, localCoordLess_irrefl] at this
    cases this
  rw [hsplit] at hlen ⊢
  rw [List.map_append, hleft]
  cases br with
  | nil =>
    rw [List.map_nil, List.append_nil] at hlen ⊢
    rw [noteReserved_nil hlen, List.map_nil, List.append_nil]
  | cons e br =>
    rw [List.map_cons] at hlen ⊢
    rw [noteReserved_cons hlen]
    rw [List.map_append, List.pairwise_append, List.map_cons, List.pairwise_cons] at hs
    by_cases he : e.coord = c
    · -- behind the destination come other coordinates
      have hright : br.map (markReserved claimed') = br.map (markReserved claimed) := by
        refine List.map_congr_left fun d hd => hsame d ?_
        rintro rfl
        have := hs.2.1.1 _ (List.mem_map_of_mem hd)
        rw [he, localCoordLess_irrefl] at this
        cases this
      have hzero : (markReserved claimed e).reserved = 0 := by
        simp [markReserved, he, hc]
      have hone : markReserved claimed' e = { markReserved claimed e with
          reserved := (markReserved claimed e).reserved + 1 } := by
        simp [markReserved, hclaimed, he, hc]
      rw [if_pos ⟨he, by rw [hzero]; decide⟩, List.map_cons, hright, hone]
    · have hnot : ∀ d ∈ e :: br, d.coord ≠ c := by
        rintro d hd rfl
        rcases List.mem_cons.1 hd with rfl | hd
        · exact he rfl
        · have hlt := hs.2.1.1 _ (List.mem_map_of_mem hd)
          have hge := hr _ (List.mem_map_of_mem (List.mem_cons_self (a := e) (l := br)))
          rw [show (markReserved claimed e).coord = e.coord from rfl, hlt] at hge
          cases hge
      rw [if_neg fun h => he h.1, ← List.map_cons]
      exact congrArg _ (List.map_congr_left fun d hd => (hsame d (hnot d hd)).symm)

section Service

variable {requests : List LocalMoveRequest} {options : List LocalMoveOption}
  {canEnter : LocalMoveRequest → LocalMoveOption → Bool} {i j : Fin requests.length} {k : ℕ}

theorem WellFormed.owner_unique (h : WellFormed requests options) (hi : (requests.get i).Owns k)
    (hj : (requests.get j).Owns k) : i = j := by
  have hpair := List.pairwise_iff_get.1 h.disjoint
  rcases lt_trichotomy i j with hlt | heq | hlt
  · exact absurd hj (hpair i j hlt k hi)
  · exact heq
  · exact absurd hi (hpair j i hlt k hj)

/-- An option is marked when the mover that it belongs to can enter it. -/
theorem feasible_scanDemand (h : WellFormed requests options) (hi : (requests.get i).Owns k) :
    (scanDemand requests options canEnter).feasible k = true ↔
      Enters options canEnter (requests.get i) k := by
  have hscan := (foldl_scanRequest options canEnter {} h.disjoint fun _ _ _ _ => rfl).1 k
  rw [scanDemand, hscan]
  constructor
  · rintro (hfalse | ⟨r, hr, hown, henter⟩)
    · cases hfalse
    · obtain ⟨j, rfl⟩ := List.get_of_mem hr
      exact h.owner_unique hi hown ▸ henter
  · exact fun henter => .inr ⟨_, List.get_mem _ i, hi, henter⟩

variable (requests options canEnter) in
/-- What service has reached after some requests: the assignment, and all that goes with it. -/
structure ServiceInv (done : Fin requests.length → Prop) (s : ServiceState requests.length)
    (f : Fin requests.length → Option LocalMoveOption) : Prop where
  /-- Decisions tell the assignment. -/
  decisions : ∀ i, s.decisions i = decisionOf (requests.get i) (f i)
  /-- Nobody else has a destination. -/
  idle : ∀ i, ¬ done i → f i = none
  /-- Claims are in order. -/
  ascending : Ascending s.claimed
  /-- What is claimed is taken. -/
  claimed : ∀ c, c ∈ s.claimed ↔ ∃ i, (moveMarket requests options canEnter).Takes f i c
  /-- **Service is serial choice so far.** -/
  served : (moveMarket requests options canEnter).ServedOn f done
  /-- Reservations are counted. -/
  count : s.reservedCount = (Finset.univ.filter fun i => (f i).isSome = true).card
  /-- Reservations are counted for each destination. -/
  congestion : s.congestion =
    (congestionOf (scanDemand requests options canEnter).coords).map (markReserved s.claimed)

/-- What can be taken is open. -/
theorem ServiceInv.takeable_iff {done : Fin requests.length → Prop}
    {s : ServiceState requests.length} {f : Fin requests.length → Option LocalMoveOption}
    {a : LocalMoveOption} (hw : WellFormed requests options)
    (h : ServiceInv requests options canEnter done s f)
    (hdone : ∀ j, done j ↔ (moveMarket requests options canEnter).before j i) :
    Takeable options (scanDemand requests options canEnter).feasible s.claimed (requests.get i)
      (requests.get i).optionCount a ↔ (moveMarket requests options canEnter).Open f i a := by
  have hfree : a.toCoord ∉ s.claimed ↔
      ((moveMarket requests options canEnter).earlier f i a.toCoord).card < 1 := by
    rw [Nat.lt_one_iff, Finset.card_eq_zero, Finset.eq_empty_iff_forall_notMem, h.claimed,
      not_exists]
    refine forall_congr' fun j => not_congr ?_
    rw [mem_earlier]
    constructor
    · intro hj
      refine ⟨(hdone j).1 ?_, hj⟩
      by_contra hnot
      obtain ⟨c, hc, -⟩ := hj
      rw [h.idle j hnot] at hc
      cases hc
    · exact And.right
  rw [Open, ← show a.toCoord = (moveMarket requests options canEnter).object a from rfl,
    ← show 1 = (moveMarket requests options canEnter).capacity a.toCoord from rfl, ← hfree]
  constructor
  · rintro ⟨j, hj, hoption, hf, hclaimed⟩
    have hown : (requests.get i).Owns ((requests.get i).optionOffset + j) := ⟨by omega, by omega⟩
    obtain ⟨option, hoption', henter⟩ := (feasible_scanDemand hw hown).1 hf
    rw [hoption, Option.some.injEq] at hoption'
    exact ⟨⟨⟨_, hown, hoption⟩, hoption' ▸ henter⟩, hclaimed⟩
  · rintro ⟨⟨⟨k, hown, hoption⟩, henter⟩, hclaimed⟩
    obtain ⟨hle, hlt⟩ := hown
    have hk : (requests.get i).optionOffset + (k - (requests.get i).optionOffset) = k :=
      Nat.add_sub_cancel' hle
    refine ⟨k - (requests.get i).optionOffset, by omega, ?_, ?_, hclaimed⟩
    · rw [hk, hoption]
    · rw [hk]
      exact (feasible_scanDemand hw ⟨hle, hlt⟩).2 ⟨a, hoption, henter⟩

/-- The best option is best in the order of options. -/
theorem IsBest.isBestOf {P : LocalMoveOption → Prop} {best : Option LocalMoveOption}
    (h : IsBest P best) : IsBestOf (fun c d => betterOption c d = true) P best := by
  cases best with
  | none => exact h
  | some b => exact ⟨h.1, fun a ha => Bool.eq_false_iff.1 (h.2 a ha)⟩

/-- **One mover is served.** -/
theorem ServiceInv.serveRequest {done : Fin requests.length → Prop}
    {s : ServiceState requests.length} {f : Fin requests.length → Option LocalMoveOption}
    (hw : WellFormed requests options) (h : ServiceInv requests options canEnter done s f)
    (hdone : ∀ j, done j ↔ (moveMarket requests options canEnter).before j i) :
    ∃ g, ServiceInv requests options canEnter (fun j => done j ∨ j = i)
      (serveRequest requests options (scanDemand requests options canEnter).feasible s i) g := by
  have hM := strict_moveMarket canEnter hw
  have hnot : ¬ done i := fun hi => hM.irrefl i ((hdone i).1 hi)
  have hbest : IsBest ((moveMarket requests options canEnter).Open f i)
      (bestOption options (scanDemand requests options canEnter).feasible s.claimed
        (requests.get i)) :=
    (bestOption_spec h.ascending).congr fun a => (h.takeable_iff hw hdone).symm
  have hfirst : ∀ j, done j → ∀ d, (moveMarket requests options canEnter).before d j → d ≠ i := by
    rintro j hj d hd rfl
    exact hM.irrefl d (hM.trans _ _ _ hd ((hdone j).1 hj))
  unfold Tess.serveRequest
  cases hchosen : bestOption options (scanDemand requests options canEnter).feasible s.claimed
      (requests.get i) with
  | none =>
    rw [hchosen] at hbest
    refine ⟨f, ⟨h.decisions, fun j hj => h.idle j fun hd => hj (.inl hd), h.ascending, h.claimed,
      ?_, h.count, h.congestion⟩⟩
    refine h.served.snoc ?_ (fun _ _ => rfl) hfirst hnot
    refine ServedAt.of_isBestOf (fun _ _ => rfl) ?_
    rw [h.idle i hnot]
    exact hbest.isBestOf
  | some chosen =>
    rw [hchosen] at hbest
    have hclaim : chosen.toCoord ∉ s.claimed := by
      obtain ⟨-, -, -, -, hc⟩ := (h.takeable_iff hw hdone).2 hbest.1
      exact hc
    obtain ⟨hasc, hmem⟩ := claim_spec h.ascending hclaim
    refine ⟨Function.update f i (some chosen), ⟨fun j => ?_, fun j hj => ?_, hasc, fun c => ?_, ?_,
      ?_, ?_⟩⟩
    · simp only [Function.update_apply]
      split_ifs with hji
      · rw [hji]
        rfl
      · exact h.decisions j
    · rw [not_or] at hj
      rw [Function.update_of_ne hj.2]
      exact h.idle j hj.1
    · rw [hmem, h.claimed]
      simp only [takes_update (h.idle i hnot), exists_or, exists_eq_left]
      exact or_congr_left eq_comm
    · refine h.served.snoc ?_ (fun j hj => Function.update_of_ne hj ..) hfirst hnot
      refine ServedAt.of_isBestOf (fun j hj => Function.update_of_ne ?_ ..) ?_
      · rintro rfl
        exact hM.irrefl _ hj
      · rw [Function.update_self]
        exact hbest.isBestOf
    · rw [card_isSome_update (h.idle i hnot), ← h.count]
    · simp only [h.congestion]
      exact noteReserved_markReserved (congestionOf_spec _).sorted hclaim hmem

variable (canEnter) in
/-- **All movers are served.** -/
theorem serviceInv_serveRequests (hw : WellFormed requests options) :
    ∃ f, ServiceInv requests options canEnter (fun _ => True)
      (serveRequests requests options canEnter) f := by
  refine (strict_moveMarket canEnter hw).exists_foldl
    (fun i => requestOrder_perm.mem_iff.2 (List.mem_finRange i)) (requestOrder_sorted hw)
    ⟨fun i => rfl, fun i _ => rfl, List.Pairwise.nil, fun c => ?_, fun i hi => ?_, by simp, ?_⟩
    fun done s f i h hdone => h.serveRequest hw hdone
  · simp [Takes]
  · cases hi
  · have hzero : ∀ e ∈ congestionOf (scanDemand requests options canEnter).coords,
        markReserved [] e = e := by
      intro e he
      have := (congestionOf_spec _).reserved e he
      cases e
      simp_all [markReserved]
    exact (List.map_congr_left hzero).trans (List.map_id _) |>.symm

end Service

/-! ### The resolver -/

section Resolution

variable (requests : List LocalMoveRequest) (options : List LocalMoveOption)
  (canEnter : LocalMoveRequest → LocalMoveOption → Bool)

/-- **What the resolver returns** for the assignment of serial choice. -/
structure Resolution (result : LocalCoordinationResult)
    (f : Fin requests.length → Option LocalMoveOption) : Prop where
  /-- The assignment is that of serial choice. -/
  served : (moveMarket requests options canEnter).Served f
  /-- Decisions tell the assignment. -/
  decisions : result.decisions = List.ofFn fun i => decisionOf (requests.get i) (f i)
  /-- Destinations are different. -/
  distinct : ∀ i j c d, f i = some c → f j = some d → c.toCoord = d.toCoord → i = j
  /-- Who waits could only enter destinations of movers served before. -/
  waits : ∀ i, f i = none → ∀ c, Offered options canEnter (requests.get i) c →
    ∃ j d, servedBefore (requests.get j) (requests.get i) = true ∧ f j = some d ∧
      d.toCoord = c.toCoord
  /-- Reservations are counted. -/
  count : result.reservedCount = (Finset.univ.filter fun i => (f i).isSome = true).card
  /-- The aggregate outcome. -/
  status : result.status =
    if result.reservedCount = requests.length then .complete else .partially
  /-- Congestion is in the order of coordinates, each once. -/
  sorted : (result.congestion.map LocalCongestion.coord).Pairwise fun a b =>
    localCoordLess a b = true
  /-- Congestion is about the destinations that some mover can enter. -/
  demanded : ∀ c, c ∈ result.congestion.map LocalCongestion.coord ↔
    ∃ r ∈ requests, ∃ option, Offered options canEnter r option ∧ option.toCoord = c
  /-- Demand is the number of requests that can enter, up to the greatest count. -/
  demand : ∀ e ∈ result.congestion,
    e.demand = min (demandOf options canEnter requests e.coord) countMax
  /-- A destination is reserved at most once. -/
  reserved : ∀ e ∈ result.congestion, (e.reserved = 0 ∨ e.reserved = 1) ∧
    (e.reserved = 1 ↔ ∃ i c, f i = some c ∧ c.toCoord = e.coord)

variable {requests options canEnter}

theorem resolveLocalMoves_invalid (h : ¬ WellFormed requests options) :
    resolveLocalMoves requests options canEnter = ⟨.invalidInput, 0, [], []⟩ := by
  rw [accepts_iff, not_and_or, not_not] at h
  unfold resolveLocalMoves
  rcases h with h | h
  · rw [if_pos h]
  · rw [Bool.not_eq_false] at h
    split_ifs
    · rfl
    · rfl

theorem resolveLocalMoves_valid (h : WellFormed requests options) :
    resolveLocalMoves requests options canEnter =
      { status :=
          if (serveRequests requests options canEnter).reservedCount = requests.length then
            .complete
          else .partially
        reservedCount := (serveRequests requests options canEnter).reservedCount
        decisions := List.ofFn (serveRequests requests options canEnter).decisions
        congestion := (serveRequests requests options canEnter).congestion } := by
  obtain ⟨hown, hagents⟩ := accepts_iff.1 h
  unfold resolveLocalMoves
  rw [if_neg hown, if_neg (by rw [hagents]; exact Bool.false_ne_true)]

theorem demandOf_pos {c : Coord3} : 0 < demandOf options canEnter requests c ↔
    ∃ r ∈ requests, ∃ option, Offered options canEnter r option ∧ option.toCoord = c := by
  classical
  rw [demandOf, List.countP_pos_iff]
  simp only [decide_eq_true_eq]

theorem count_scanDemand (h : WellFormed requests options) (c : Coord3) :
    (scanDemand requests options canEnter).coords.count c =
      demandOf options canEnter requests c := by
  have hscan := (foldl_scanRequest options canEnter {} h.disjoint fun _ _ _ _ => rfl).2 c
  rw [scanDemand, hscan]
  simp

variable (canEnter) in
/-- **The resolver** returns the assignment of serial choice for what is well formed. -/
theorem exists_resolution (h : WellFormed requests options) :
    ∃ f, Resolution requests options canEnter (resolveLocalMoves requests options canEnter) f := by
  obtain ⟨f, hf⟩ := serviceInv_serveRequests canEnter h
  have hM := strict_moveMarket canEnter h
  have hserved : (moveMarket requests options canEnter).Served f := fun i => hf.served i trivial
  have hcongested := congestionOf_spec (scanDemand requests options canEnter).coords
  have hmap : (serveRequests requests options canEnter).congestion.map LocalCongestion.coord =
      (congestionOf (scanDemand requests options canEnter).coords).map LocalCongestion.coord := by
    rw [hf.congestion, List.map_map]
    rfl
  rw [resolveLocalMoves_valid h]
  refine ⟨f, hserved, ?_, ?_, ?_, hf.count, rfl, hmap ▸ hcongested.sorted, fun c => ?_,
    fun e he => ?_, fun e he => ?_⟩
  · exact congrArg List.ofFn (funext hf.decisions)
  · intro i j c d hi hj hcd
    have hcard := hserved.card_takers_le hM c.toCoord
    rw [show (moveMarket requests options canEnter).capacity c.toCoord = 1 from rfl,
      Finset.card_le_one] at hcard
    exact hcard i (mem_takers.2 ⟨c, hi, rfl⟩) j (mem_takers.2 ⟨d, hj, hcd.symm⟩)
  · intro i hi c hc
    have hfull := hserved.full_of_none hi (c := c) hc
    obtain ⟨j, hj⟩ := Finset.card_pos.1 (Nat.lt_of_lt_of_le Nat.zero_lt_one hfull)
    obtain ⟨hbefore, d, hd, hobj⟩ := mem_earlier.1 hj
    exact ⟨j, d, hbefore, hd, hobj⟩
  · show c ∈ (serveRequests requests options canEnter).congestion.map _ ↔ _
    rw [hmap, hcongested.mem, ← demandOf_pos, ← count_scanDemand h, List.count_pos_iff]
  · simp only [hf.congestion, List.mem_map] at he
    obtain ⟨e, he, rfl⟩ := he
    rw [← count_scanDemand h]
    exact hcongested.demand e he
  · simp only [hf.congestion, List.mem_map] at he
    obtain ⟨e, he, rfl⟩ := he
    have hclaimed := hf.claimed e.coord
    simp only [markReserved]
    by_cases hmem : e.coord ∈ (serveRequests requests options canEnter).claimed
    · rw [if_pos hmem]
      exact ⟨.inr rfl, iff_of_true rfl (hclaimed.1 hmem)⟩
    · rw [if_neg hmem]
      exact ⟨.inl rfl, iff_of_false (by decide) (mt hclaimed.2 hmem)⟩

/-- The options of a request, in order. -/
def optionsOf (options : List LocalMoveOption) (r : LocalMoveRequest) : List LocalMoveOption :=
  (options.drop r.optionOffset).take r.optionCount

theorem mem_optionsOf {r : LocalMoveRequest} {option : LocalMoveOption} :
    option ∈ optionsOf options r ↔ ∃ k, r.Owns k ∧ options[k]? = some option := by
  unfold optionsOf
  rw [List.mem_iff_getElem?]
  constructor
  · rintro ⟨j, hj⟩
    rw [List.getElem?_take] at hj
    split_ifs at hj with hlt
    rw [List.getElem?_drop] at hj
    exact ⟨r.optionOffset + j, ⟨by omega, by omega⟩, hj⟩
  · rintro ⟨k, ⟨hle, hlt⟩, hk⟩
    refine ⟨k - r.optionOffset, ?_⟩
    rw [List.getElem?_take, if_pos (by omega), List.getElem?_drop, Nat.add_sub_cancel' hle, hk]

/-- **The same moves in another order**: requests permuted, with their ranges elsewhere and in
another order. -/
structure SameMoves {requests requests' : List LocalMoveRequest}
    (options options' : List LocalMoveOption)
    (e : Fin requests.length ≃ Fin requests'.length) : Prop where
  /-- Ids are the same. -/
  agent : ∀ i, (requests'.get (e i)).agent = (requests.get i).agent
  /-- Positions are the same. -/
  fromCoord : ∀ i, (requests'.get (e i)).fromCoord = (requests.get i).fromCoord
  /-- Priorities are the same. -/
  priority : ∀ i, (requests'.get (e i)).priority = (requests.get i).priority
  /-- Options are the same. -/
  options : ∀ i, (optionsOf options' (requests'.get (e i))).Perm
    (optionsOf options (requests.get i))

/-- The predicate does not tell the requests of the two lists apart. -/
def SameEntry {requests requests' : List LocalMoveRequest}
    (canEnter : LocalMoveRequest → LocalMoveOption → Bool)
    (e : Fin requests.length ≃ Fin requests'.length) : Prop :=
  ∀ i option, canEnter (requests'.get (e i)) option = canEnter (requests.get i) option

theorem SameMoves.offered_iff {requests requests' : List LocalMoveRequest}
    {options options' : List LocalMoveOption} {e : Fin requests.length ≃ Fin requests'.length}
    (h : SameMoves options options' e) (hsame : SameEntry canEnter e) (i : Fin requests.length)
    (option : LocalMoveOption) : Offered options' canEnter (requests'.get (e i)) option ↔
      Offered options canEnter (requests.get i) option := by
  rw [Offered, Offered, ← mem_optionsOf, ← mem_optionsOf, (h.options i).mem_iff, hsame]

/-- Counting in a list is counting positions. -/
theorem countP_eq_card {α : Type*} (p : α → Bool) (l : List α) :
    l.countP p = (Finset.univ.filter fun i : Fin l.length => p (l.get i) = true).card := by
  induction l with
  | nil => rfl
  | cons a l ih =>
    rw [List.countP_cons, ih]
    refine Eq.symm ((Fin.card_filter_univ_succ _).trans ?_)
    by_cases ha : p a = true
    · rw [if_pos (show p ((a :: l).get 0) = true from ha), if_pos ha]
      rfl
    · rw [if_neg (show ¬ p ((a :: l).get 0) = true from ha), if_neg ha]
      rfl

theorem SameMoves.demandOf_eq {requests requests' : List LocalMoveRequest}
    {options options' : List LocalMoveOption} {e : Fin requests.length ≃ Fin requests'.length}
    (h : SameMoves options options' e) (hsame : SameEntry canEnter e) (c : Coord3) :
    demandOf options' canEnter requests' c = demandOf options canEnter requests c := by
  classical
  rw [demandOf, demandOf, countP_eq_card, countP_eq_card]
  refine (Finset.card_bij (fun i _ => e i) (fun i hi => ?_) (fun i _ j _ hij => e.injective hij)
    fun j hj => ?_).symm
  · simp only [Finset.mem_filter, Finset.mem_univ, true_and, decide_eq_true_eq] at hi ⊢
    obtain ⟨option, hoption, hc⟩ := hi
    exact ⟨option, (h.offered_iff hsame i option).2 hoption, hc⟩
  · obtain ⟨i, rfl⟩ := e.surjective j
    simp only [Finset.mem_filter, Finset.mem_univ, true_and, decide_eq_true_eq] at hj
    obtain ⟨option, hoption, hc⟩ := hj
    refine ⟨i, ?_, rfl⟩
    simp only [Finset.mem_filter, Finset.mem_univ, true_and, decide_eq_true_eq]
    exact ⟨option, (h.offered_iff hsame i option).1 hoption, hc⟩

/-- An entry of the congestion is known from its coordinate. -/
theorem Resolution.entry_eq {requests requests' : List LocalMoveRequest}
    {options options' : List LocalMoveOption} {e : Fin requests.length ≃ Fin requests'.length}
    {result result' : LocalCoordinationResult} {f : Fin requests.length → Option LocalMoveOption}
    {f' : Fin requests'.length → Option LocalMoveOption} {a b : LocalCongestion}
    (h : Resolution requests options canEnter result f)
    (h' : Resolution requests' options' canEnter result' f') (hm : SameMoves options options' e)
    (hsame : SameEntry canEnter e) (hf : ∀ i, f i = f' (e i)) (ha : a ∈ result.congestion)
    (hb : b ∈ result'.congestion) (hcoord : a.coord = b.coord) : a = b := by
  have hdemand : a.demand = b.demand := by
    rw [h.demand a ha, h'.demand b hb, hm.demandOf_eq hsame, hcoord]
  have hreserved : a.reserved = 1 ↔ b.reserved = 1 := by
    rw [(h.reserved a ha).2, (h'.reserved b hb).2, hcoord, e.surjective.exists]
    exact exists_congr fun i => by rw [hf]
  have hra := (h.reserved a ha).1
  have hrb := (h'.reserved b hb).1
  obtain ⟨ca, da, ra⟩ := a
  obtain ⟨cb, db, rb⟩ := b
  simp only at hcoord hdemand hreserved hra hrb
  rw [hcoord, hdemand, show ra = rb by omega]

/-- Lists in order with the same coordinates, whose entries are known from them, are equal. -/
theorem congestion_ext {l l' : List LocalCongestion}
    (hs : (l.map LocalCongestion.coord).Pairwise fun a b => localCoordLess a b = true)
    (hs' : (l'.map LocalCongestion.coord).Pairwise fun a b => localCoordLess a b = true)
    (hmem : ∀ c, c ∈ l.map LocalCongestion.coord ↔ c ∈ l'.map LocalCongestion.coord)
    (hentry : ∀ a ∈ l, ∀ b ∈ l', a.coord = b.coord → a = b) : l = l' := by
  have hne : ∀ {a b : Coord3}, localCoordLess a b = true → a ≠ b := by
    rintro a b hab rfl
    rw [localCoordLess_irrefl] at hab
    cases hab
  have hmap : l.map LocalCongestion.coord = l'.map LocalCongestion.coord := by
    refine @List.Perm.eq_of_pairwise _ (fun a b => localCoordLess a b = true) _ _
      (fun a b _ _ hab hba => ?_) hs hs' ?_
    · rw [localCoordLess_asymm hab] at hba
      cases hba
    · rw [List.perm_ext_iff_of_nodup (hs.imp hne) (hs'.imp hne)]
      exact hmem
  refine List.ext_getElem (by simpa using congrArg List.length hmap) fun k hk hk' => ?_
  refine hentry _ (List.getElem_mem hk) _ (List.getElem_mem hk') ?_
  have hget := congrArg (fun m : List Coord3 => m[k]?) hmap
  simpa [List.getElem?_eq_getElem hk, List.getElem?_eq_getElem hk'] using hget

/-- **The resolver**: exactly malformed input is rejected, well formed input is resolved by serial
choice, and neither the order of the requests nor that of their ranges matters to a predicate that
does not read it. -/
theorem resolveLocalMoves_spec (requests : List LocalMoveRequest)
    (options : List LocalMoveOption) (canEnter : LocalMoveRequest → LocalMoveOption → Bool) :
    (¬ WellFormed requests options →
      resolveLocalMoves requests options canEnter = ⟨.invalidInput, 0, [], []⟩) ∧
    (WellFormed requests options →
      (resolveLocalMoves requests options canEnter).status ≠ .invalidInput ∧
      ∃ f, Resolution requests options canEnter
        (resolveLocalMoves requests options canEnter) f) ∧
    ∀ (requests' : List LocalMoveRequest) (options' : List LocalMoveOption)
      (e : Fin requests.length ≃ Fin requests'.length), WellFormed requests options →
      WellFormed requests' options' → SameMoves options options' e → SameEntry canEnter e →
      (∀ i : Fin requests.length,
        (resolveLocalMoves requests' options' canEnter).decisions[(e i).val]? =
          (resolveLocalMoves requests options canEnter).decisions[i.val]?) ∧
      (resolveLocalMoves requests' options' canEnter).congestion =
        (resolveLocalMoves requests options canEnter).congestion ∧
      (resolveLocalMoves requests' options' canEnter).reservedCount =
        (resolveLocalMoves requests options canEnter).reservedCount ∧
      (resolveLocalMoves requests' options' canEnter).status =
        (resolveLocalMoves requests options canEnter).status := by
  refine ⟨resolveLocalMoves_invalid, fun hw => ⟨?_, exists_resolution canEnter hw⟩, ?_⟩
  · rw [resolveLocalMoves_valid hw]
    simp only
    split_ifs
    · exact LocalCoordinationStatus.noConfusion
    · exact LocalCoordinationStatus.noConfusion
  · intro requests' options' e hw hw' hm hsame
    obtain ⟨f, hf⟩ := exists_resolution canEnter hw
    obtain ⟨f', hf'⟩ := exists_resolution canEnter hw'
    have hassign : ∀ i, f i = f' (e i) := by
      refine hf.served.congr e (strict_moveMarket canEnter hw) hf'.served (fun i j => ?_)
        (fun i c => hm.offered_iff hsame i c) rfl (fun c d => Iff.rfl) rfl
      simp only [moveMarket, servedBefore, hm.agent, hm.priority]
    have hcount : (resolveLocalMoves requests' options' canEnter).reservedCount =
        (resolveLocalMoves requests options canEnter).reservedCount := by
      rw [hf.count, hf'.count]
      refine (Finset.card_bij (fun i _ => e i) (fun i hi => ?_)
        (fun i _ j _ hij => e.injective hij) fun j hj => ?_).symm
      · simp only [Finset.mem_filter, Finset.mem_univ, true_and] at hi ⊢
        rwa [← hassign]
      · obtain ⟨i, rfl⟩ := e.surjective j
        simp only [Finset.mem_filter, Finset.mem_univ, true_and] at hj
        exact ⟨i, by simpa [hassign] using hj, rfl⟩
    refine ⟨fun i => ?_, ?_, hcount, ?_⟩
    · rw [hf.decisions, hf'.decisions]
      rw [List.getElem?_ofFn, List.getElem?_ofFn, dif_pos (e i).isLt, dif_pos i.isLt]
      simp only [Fin.eta, ← hassign]
      congr 1
      unfold decisionOf
      cases f i with
      | none => simp only [waiting, hm.agent, hm.fromCoord]
      | some c => simp only [reserving, hm.agent, hm.fromCoord]
    · refine congestion_ext hf'.sorted hf.sorted (fun c => ?_) fun a ha b hb hab =>
        (hf.entry_eq hf' hm hsame hassign hb ha hab.symm).symm
      rw [hf'.demanded, hf.demanded, ← demandOf_pos, ← demandOf_pos, hm.demandOf_eq hsame]
    · rw [hf.status, hf'.status, hcount, show requests'.length = requests.length by
        simpa using (Fintype.card_congr e).symm]

end Resolution

/-! ### Two movers -/

/-- Two movers with a range of one option each, in either order. -/
def twoMovers (first second : ℕ) : List LocalMoveRequest :=
  [⟨1, ⟨0, 0, 0⟩, 0, first, 1⟩, ⟨2, ⟨5, 0, 0⟩, 0, second, 1⟩]

/-- The options of two movers, in either order. -/
def twoOptions (swapped : Bool) : List LocalMoveOption :=
  if swapped then [⟨⟨4, 0, 0⟩, 0⟩, ⟨⟨1, 0, 0⟩, 0⟩] else [⟨⟨1, 0, 0⟩, 0⟩, ⟨⟨4, 0, 0⟩, 0⟩]

theorem wellFormed_twoMovers : WellFormed (twoMovers 0 1) (twoOptions false) :=
  ⟨by decide, by simp [twoMovers, LocalMoveRequest.Owns], by decide⟩

theorem wellFormed_twoMovers_swapped : WellFormed (twoMovers 1 0) (twoOptions true) :=
  ⟨by decide, by simp [twoMovers, LocalMoveRequest.Owns]; omega, by decide⟩

theorem sameMoves_twoMovers : @SameMoves (twoMovers 0 1) (twoMovers 1 0)
    (twoOptions false) (twoOptions true) (Equiv.refl (Fin 2)) where
  agent := by decide
  fromCoord := by decide
  priority := by decide
  options := by decide

/-- The spec at two movers who can enter everything, with their ranges in either order. -/
theorem resolveLocalMoves_spec_two :
    (∃ f, Resolution (twoMovers 0 1) (twoOptions false) (fun _ _ => true)
      (resolveLocalMoves (twoMovers 0 1) (twoOptions false) fun _ _ => true) f) ∧
    (resolveLocalMoves (twoMovers 1 0) (twoOptions true) fun _ _ => true).congestion =
      (resolveLocalMoves (twoMovers 0 1) (twoOptions false) fun _ _ => true).congestion := by
  obtain ⟨-, hvalid, hsame⟩ :=
    resolveLocalMoves_spec (twoMovers 0 1) (twoOptions false) fun _ _ => true
  refine ⟨(hvalid wellFormed_twoMovers).2, ?_⟩
  exact (hsame (twoMovers 1 0) (twoOptions true) (Equiv.refl (Fin 2)) wellFormed_twoMovers
    wellFormed_twoMovers_swapped sameMoves_twoMovers fun _ _ => rfl).2.1

/-- As many movers as one more than the greatest count, all with one destination. -/
def manyMovers : List LocalMoveRequest :=
  (List.range (countMax + 1)).map fun i => ⟨i, ⟨0, 0, 0⟩, 0, i, 1⟩

/-- Their options. -/
def manyOptions : List LocalMoveOption := List.replicate (countMax + 1) ⟨⟨1, 0, 0⟩, 0⟩

theorem wellFormed_manyMovers : WellFormed manyMovers manyOptions where
  bounds r hr := by
    obtain ⟨i, hi, rfl⟩ := List.mem_map.1 hr
    have hi := List.mem_range.1 hi
    simp only [manyOptions, List.length_replicate]
    omega
  disjoint := by
    refine List.pairwise_map.2 (List.pairwise_lt_range.imp fun {i j} hij k hi hj => ?_)
    obtain ⟨-, hi⟩ := hi
    obtain ⟨hj, -⟩ := hj
    simp only at hi hj
    omega
  agents := by
    rw [manyMovers, List.map_map]
    exact List.nodup_range.map fun i j hij => hij

theorem demandOf_manyMovers :
    demandOf manyOptions (fun _ _ => true) manyMovers ⟨1, 0, 0⟩ = countMax + 1 := by
  classical
  rw [demandOf, List.countP_eq_length.2, manyMovers, List.length_map, List.length_range]
  intro r hr
  obtain ⟨i, hi, rfl⟩ := List.mem_map.1 hr
  rw [decide_eq_true_eq]
  refine ⟨⟨⟨1, 0, 0⟩, 0⟩, ⟨⟨i, ⟨le_rfl, Nat.lt_succ_self i⟩, ?_⟩, rfl⟩, rfl⟩
  rw [manyOptions, List.getElem?_replicate, if_pos (List.mem_range.1 hi)]

/-- The first mover gets its option when its range comes first. -/
theorem reserved_twoMovers {f : Fin 2 → Option LocalMoveOption} {result : LocalCoordinationResult}
    (hf : Resolution (twoMovers 0 1) (twoOptions false) (fun r _ => r.optionOffset == 0) result f) :
    f 0 ≠ none := by
  intro hnone
  have hoffered : Offered (twoOptions false) (fun r _ => r.optionOffset == 0)
      ((twoMovers 0 1).get (0 : Fin 2)) ⟨⟨1, 0, 0⟩, 0⟩ :=
    ⟨⟨0, by simp [twoMovers, LocalMoveRequest.Owns], rfl⟩, rfl⟩
  obtain ⟨j, d, hbefore, -, -⟩ := hf.waits (0 : Fin 2) hnone _ hoffered
  revert hbefore
  revert j
  decide

/-- It waits when its range comes second. -/
theorem waiting_twoMovers {f : Fin 2 → Option LocalMoveOption} {result : LocalCoordinationResult}
    (hf : Resolution (twoMovers 1 0) (twoOptions true) (fun r _ => r.optionOffset == 0) result f) :
    f 0 = none := by
  by_contra hsome
  obtain ⟨c, hc⟩ := Option.ne_none_iff_exists'.1 hsome
  obtain ⟨⟨⟨-, henter⟩, -⟩, -⟩ := (hf.served (0 : Fin 2)).1 c hc
  simp [twoMovers] at henter

/-- A predicate that reads the range tells permuted requests apart, and demand stops at the
greatest count. -/
theorem resolveLocalMoves_limits :
    (WellFormed (twoMovers 0 1) (twoOptions false) ∧ WellFormed (twoMovers 1 0) (twoOptions true) ∧
      @SameMoves (twoMovers 0 1) (twoMovers 1 0) (twoOptions false) (twoOptions true)
        (Equiv.refl (Fin 2)) ∧
      (resolveLocalMoves (twoMovers 0 1) (twoOptions false) fun r _ =>
          r.optionOffset == 0).decisions[0]? ≠
        (resolveLocalMoves (twoMovers 1 0) (twoOptions true) fun r _ =>
          r.optionOffset == 0).decisions[0]?) ∧
    WellFormed manyMovers manyOptions ∧
      ∃ e ∈ (resolveLocalMoves manyMovers manyOptions fun _ _ => true).congestion,
        e.demand ≠ demandOf manyOptions (fun _ _ => true) manyMovers e.coord := by
  refine ⟨⟨wellFormed_twoMovers, wellFormed_twoMovers_swapped, sameMoves_twoMovers, ?_⟩,
    wellFormed_manyMovers, ?_⟩
  · obtain ⟨f, hf⟩ := exists_resolution (fun r _ => r.optionOffset == 0)
      wellFormed_twoMovers
    obtain ⟨f', hf'⟩ := exists_resolution (fun r _ => r.optionOffset == 0)
      wellFormed_twoMovers_swapped
    obtain ⟨c, hc⟩ := Option.ne_none_iff_exists'.1 (reserved_twoMovers hf)
    have hnone := waiting_twoMovers hf'
    rw [hf.decisions, hf'.decisions]
    intro heq
    have hdecision : decisionOf ((twoMovers 0 1).get (0 : Fin 2)) (f (0 : Fin 2)) =
        decisionOf ((twoMovers 1 0).get (0 : Fin 2)) (f' (0 : Fin 2)) := Option.some.inj heq
    rw [hc, hnone] at hdecision
    have hstatus := congrArg LocalMoveDecision.status hdecision
    cases hstatus
  · obtain ⟨f, hf⟩ := exists_resolution (fun _ _ => true) wellFormed_manyMovers
    have hpos : 0 < demandOf manyOptions (fun _ _ => true) manyMovers ⟨1, 0, 0⟩ := by
      rw [demandOf_manyMovers]
      exact Nat.succ_pos _
    obtain ⟨e, he, hcoord⟩ := List.mem_map.1 ((hf.demanded _).2 (demandOf_pos.1 hpos))
    refine ⟨e, he, ?_⟩
    rw [hf.demand e he, hcoord, demandOf_manyMovers]
    omega

end Tess
