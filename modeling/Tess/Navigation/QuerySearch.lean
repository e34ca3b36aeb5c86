import Tess.Navigation.Query
import Tess.Lib.Settling

/-!
# The search of a navigation query

What a query knows between two of its steps, as an instance of the settling search: the labels
with the reserved cost are the nodes that are held.

* `Traversed` : the transitions that a search follows, in either direction;
* `NavigationQuery.view` : the labels as the search sees them;
* `NavigationQuery.SearchInv` : **the invariant of the search**;
* `SearchInv.seed`, `.settle`, `.lower`, `.hold`, `.probe`, `.exhaust` : what its steps preserve.
-/

namespace Tess

open Graphs

/-! ### The labels -/

section Labels

variable {L : NavigationLabels} {k l : NavigationLocation} {x : NavigationLabel}

/-- The labels are in the order of their locations. -/
def LabelsSorted (L : NavigationLabels) : Prop := L.Pairwise fun a b => a.1.Before b.1

theorem lookup_eq_none_of_before (h : ∀ e ∈ L, l.Before e.1) : L.lookup l = none := by
  rw [List.lookup_eq_none_iff]
  intro e he
  have hne : l ≠ e.1 := fun heq => NavigationLocation.Before.irrefl l (by
    have := h e he
    rwa [← heq] at this)
  simpa using hne

/-- **Setting a label** replaces the one of its location, or puts a new one in place. -/
theorem exists_setLabel (hs : LabelsSorted L) (l : NavigationLocation) (x : NavigationLabel) :
    ∃ A B, setLabel L l x = A ++ (l, x) :: B ∧
      L = A ++ ((L.lookup l).map fun y => (l, y)).toList ++ B ∧
      (∀ e ∈ A, e.1.Before l) ∧ ∀ e ∈ B, l.Before e.1 := by
  induction L with
  | nil => exact ⟨[], [], rfl, rfl, fun _ h => absurd h List.not_mem_nil,
      fun _ h => absurd h List.not_mem_nil⟩
  | cons e L ih =>
    obtain ⟨hlt, hs⟩ := List.pairwise_cons.1 hs
    unfold setLabel
    by_cases heq : l = e.1
    · rw [if_pos heq]
      refine ⟨[], L, rfl, ?_, fun _ h => absurd h List.not_mem_nil, fun b hb => heq ▸ hlt b hb⟩
      have hlook : (e :: L).lookup l = some e.2 := by
        rw [List.lookup_cons, heq, beq_self_eq_true]
      rw [hlook, heq]
      rfl
    rw [if_neg heq]
    by_cases hbef : l.Before e.1
    · rw [if_pos hbef]
      have hall : ∀ b ∈ e :: L, l.Before b.1 := by
        intro b hb
        rcases List.mem_cons.1 hb with rfl | hb
        · exact hbef
        · exact hbef.trans (hlt b hb)
      refine ⟨[], e :: L, rfl, ?_, fun _ h => absurd h List.not_mem_nil, hall⟩
      rw [lookup_eq_none_of_before hall]
      rfl
    · rw [if_neg hbef]
      have hafter : e.1.Before l := (NavigationLocation.before_or_eq hbef).resolve_right heq
      obtain ⟨A, B, hset, hL, hA, hB⟩ := ih hs
      have hne : (l == e.1) = false := by simpa using heq
      have hlook : (e :: L).lookup l = L.lookup l := by rw [List.lookup_cons, hne]
      refine ⟨e :: A, B, by rw [hset]; rfl, ?_, ?_, hB⟩
      · rw [hlook, List.cons_append, List.cons_append, ← hL]
      · intro a ha
        rcases List.mem_cons.1 ha with rfl | ha
        · exact hafter
        · exact hA a ha

theorem sorted_setLabel (hs : LabelsSorted L) : LabelsSorted (setLabel L l x) := by
  obtain ⟨A, B, hset, hL, hA, hB⟩ := exists_setLabel hs l x
  have hsub : (A ++ B).Sublist L := by
    conv_rhs => rw [hL]
    exact (List.sublist_append_left A _).append (List.Sublist.refl B)
  obtain ⟨h1, h2, h3⟩ := List.pairwise_append.1 (hs.sublist hsub)
  unfold LabelsSorted
  rw [hset, List.pairwise_append, List.pairwise_cons]
  refine ⟨h1, ⟨hB, h2⟩, fun a ha b hb => ?_⟩
  rcases List.mem_cons.1 hb with rfl | hb
  · exact hA a ha
  · exact h3 a ha b hb

theorem lookup_setLabel (hs : LabelsSorted L) :
    (setLabel L l x).lookup k = if k = l then some x else L.lookup k := by
  induction L with
  | nil =>
    unfold setLabel
    by_cases hkl : k = l
    · rw [if_pos hkl, List.lookup_cons, hkl, beq_self_eq_true]
    · have hne : (k == l) = false := by simpa using hkl
      rw [if_neg hkl, List.lookup_cons, hne]
  | cons e L ih =>
    have hs' := (List.pairwise_cons.1 hs).2
    unfold setLabel
    by_cases heq : l = e.1
    · rw [if_pos heq, List.lookup_cons, List.lookup_cons, heq]
      by_cases hkl : k = e.1
      · rw [if_pos hkl, hkl, beq_self_eq_true]
      · have hne : (k == e.1) = false := by simpa using hkl
        rw [if_neg hkl, hne]
    rw [if_neg heq]
    by_cases hbef : l.Before e.1
    · rw [if_pos hbef, List.lookup_cons]
      by_cases hkl : k = l
      · rw [if_pos hkl, hkl, beq_self_eq_true]
      · have hne : (k == l) = false := by simpa using hkl
        rw [if_neg hkl, hne]
    · rw [if_neg hbef, List.lookup_cons, List.lookup_cons, ih hs']
      by_cases hke : k = e.1
      · have hkl : ¬ k = l := fun h => heq (h ▸ hke)
        simp only [hkl, if_false]
      · have hne : (k == e.1) = false := by simpa using hke
        rw [hne]

/-- Counting the labels of a kind. -/
theorem countP_setLabel (hs : LabelsSorted L) (p : NavigationLabel → Bool) :
    (setLabel L l x).countP (fun e => p e.2) +
      (if (L.lookup l).any p then 1 else 0) =
        L.countP (fun e => p e.2) + if p x then 1 else 0 := by
  obtain ⟨A, B, hset, hL, -, -⟩ := exists_setLabel hs l x
  rw [hset]
  conv_rhs => rw [hL]
  cases hlook : L.lookup l with
  | none => simp only [List.countP_append, List.countP_cons, Option.map_none, Option.toList_none,
      List.countP_nil, Option.any_none, Bool.false_eq_true, if_false]; omega
  | some y => simp only [List.countP_append, List.countP_cons, Option.map_some, Option.toList_some,
      List.countP_nil, Option.any_some]; omega

theorem length_setLabel (hs : LabelsSorted L) :
    (setLabel L l x).length = if (L.lookup l).isSome then L.length else L.length + 1 := by
  have h := @countP_setLabel L l x hs fun _ => true
  simp only [List.countP_true, if_true] at h
  cases hlook : L.lookup l with
  | none => rw [hlook] at h; simpa using h
  | some y => rw [hlook] at h; simpa using h

theorem mem_of_lookup {L : NavigationLabels} (h : L.lookup l = some x) : (l, x) ∈ L := by
  induction L with
  | nil => cases h
  | cons e L ih =>
    rw [List.lookup_cons] at h
    by_cases heq : l = e.1
    · rw [heq, beq_self_eq_true] at h
      rw [← Option.some.inj h, heq]
      exact List.mem_cons_self
    · have hne : (l == e.1) = false := by simpa using heq
      rw [hne] at h
      exact List.mem_cons_of_mem _ (ih h)

theorem lookup_of_mem (hs : LabelsSorted L) (h : (l, x) ∈ L) : L.lookup l = some x := by
  induction L with
  | nil => cases h
  | cons e L ih =>
    obtain ⟨hlt, hs⟩ := List.pairwise_cons.1 hs
    rw [List.lookup_cons]
    rcases List.mem_cons.1 h with rfl | h
    · rw [beq_self_eq_true]
    · have hne : (l == e.1) = false := by
        rw [beq_eq_false_iff_ne]
        intro heq
        have hbef : e.1.Before l := hlt (l, x) h
        exact NavigationLocation.Before.irrefl l (by rwa [← heq] at hbef)
      rw [hne]
      exact ih hs h

end Labels

/-! ### The frontier -/

theorem mem_pushFrontier {F : List NavigationFrontier} {x y : NavigationFrontier} :
    y ∈ pushFrontier F x ↔ y = x ∨ y ∈ F := by
  induction F with
  | nil => simp [pushFrontier]
  | cons z F ih =>
    unfold pushFrontier
    split_ifs with h
    · exact List.mem_cons
    · rw [List.mem_cons, ih, List.mem_cons]
      tauto

/-- The frontier is in the order of its costs. -/
def FrontierSorted (F : List NavigationFrontier) : Prop := F.Pairwise fun a b => a.cost ≤ b.cost

theorem sorted_pushFrontier {F : List NavigationFrontier} (h : FrontierSorted F)
    (x : NavigationFrontier) : FrontierSorted (pushFrontier F x) := by
  induction F with
  | nil => exact List.pairwise_singleton _ _
  | cons z F ih =>
    obtain ⟨hz, hF⟩ := List.pairwise_cons.1 h
    unfold pushFrontier
    split_ifs with hx
    · have hxz : x.cost ≤ z.cost := by
        rcases hx with hx | ⟨hx, -⟩
        · exact hx.le
        · exact hx.le
      refine List.pairwise_cons.2 ⟨fun y hy => ?_, h⟩
      rcases List.mem_cons.1 hy with rfl | hy
      · exact hxz
      · exact hxz.trans (hz y hy)
    · have hzx : z.cost ≤ x.cost := not_lt.1 fun hlt => hx (Or.inl hlt)
      refine List.pairwise_cons.2 ⟨fun y hy => ?_, ih hF⟩
      rcases mem_pushFrontier.1 hy with rfl | hy
      · exact hzx
      · exact hz y hy

/-! ### What a search follows -/

/-- The end of a transition that a search comes from. -/
def nearEnd (reverse : Bool) (e : NavigationTransition) : NavigationLocation :=
  if reverse then e.toLocation else e.fromLocation

/-- The end of a transition that a search goes to. -/
def farEnd (reverse : Bool) (e : NavigationTransition) : NavigationLocation :=
  if reverse then e.fromLocation else e.toLocation

/-- **A transition that a search follows** from one location to another. -/
structure Traversed (N : NavigationSnapshot) (reverse : Bool) (u : NavigationLocation)
    (e : NavigationTransition) (v : NavigationLocation) : Prop where
  /-- It is enumerated. -/
  mem : e ∈ N.candidates u reverse
  /-- It starts where the search is. -/
  near : nearEnd reverse e = u
  /-- It leads to the other location. -/
  far : farEnd reverse e = v
  /-- Its ends are in the snapshot. -/
  ends : N.contains e.fromLocation = true ∧ N.contains e.toLocation = true
  /-- Its cost is not the reserved one. -/
  cost : e.cost ≠ navigationInfinity
  /-- It is legal. -/
  edge_legal : e.availability = .legal
  /-- So is the location it leads to. -/
  legal : N.availability v = .legal

/-- Some transition of the given cost is followed. -/
def Follows (N : NavigationSnapshot) (reverse : Bool) (u v : NavigationLocation) (k : ℕ) : Prop :=
  ∃ e, Traversed N reverse u e v ∧ e.cost = k

/-- The transition, or the location it leads to, is unavailable. -/
def MissingAt (N : NavigationSnapshot) (reverse : Bool) (u : NavigationLocation)
    (e : NavigationTransition) : Prop :=
  e ∈ N.candidates u reverse ∧ (e.availability = .unavailable ∨
    e.availability = .legal ∧ N.availability (farEnd reverse e) = .unavailable)

/-- One of the first seeds, when it can be used. -/
def SeedOf (N : NavigationSnapshot) (goals : List NavigationGoal) (n : ℕ)
    (v : NavigationLocation) (c : ℕ) : Prop :=
  ∃ i < n, ∃ g, goals[i]? = some g ∧ g.location = v ∧ g.cost = c ∧ N.contains v = true ∧
    c ≠ navigationInfinity ∧ N.availability v = .legal

theorem seedOf_succ {N : NavigationSnapshot} {goals : List NavigationGoal} {n : ℕ}
    {g : NavigationGoal} (hg : goals[n]? = some g) {v : NavigationLocation} {c : ℕ} :
    SeedOf N goals (n + 1) v c ↔ SeedOf N goals n v c ∨ (v = g.location ∧ c = g.cost) ∧
      N.contains g.location = true ∧ g.cost ≠ navigationInfinity ∧
        N.availability g.location = .legal := by
  constructor
  · rintro ⟨i, hi, g', hg', rfl, rfl, h⟩
    rcases Nat.lt_succ_iff_lt_or_eq.1 hi with hi | rfl
    · exact Or.inl ⟨i, hi, g', hg', rfl, rfl, h⟩
    · obtain rfl := Option.some.inj (hg.symm.trans hg')
      exact Or.inr ⟨⟨rfl, rfl⟩, h⟩
  · rintro (⟨i, hi, h⟩ | ⟨⟨rfl, rfl⟩, h⟩)
    · exact ⟨i, Nat.lt_succ_of_lt hi, h⟩
    · exact ⟨n, Nat.lt_succ_self n, g, hg, rfl, rfl, h⟩

/-- The labels as the search sees them. -/
def labelView (reverse : Bool) (L : NavigationLabels) : Settling NavigationLocation where
  cost v := (L.lookup v).map (·.cost)
  pred v := (L.lookup v).bind fun x =>
    if x.hasParent then some (nearEnd reverse x.parent, x.parent.cost) else none
  settled v := ∃ x, L.lookup v = some x ∧ x.settled = true

section View

variable {L : NavigationLabels} {reverse : Bool} {l v : NavigationLocation} {x y : NavigationLabel}

theorem cost_setLabel (hs : LabelsSorted L) : (labelView reverse (setLabel L l x)).cost v =
    if v = l then some x.cost else (labelView reverse L).cost v := by
  simp only [labelView, lookup_setLabel hs]
  split_ifs <;> rfl

theorem pred_setLabel (hs : LabelsSorted L) : (labelView reverse (setLabel L l x)).pred v =
    if v = l then (if x.hasParent then some (nearEnd reverse x.parent, x.parent.cost) else none)
    else (labelView reverse L).pred v := by
  simp only [labelView, lookup_setLabel hs]
  by_cases h : v = l
  · simp only [h, if_true, Option.bind_some]
  · simp only [h, if_false]

theorem settled_setLabel (hs : LabelsSorted L) :
    (labelView reverse (setLabel L l x)).settled v ↔
      if v = l then x.settled = true else (labelView reverse L).settled v := by
  simp only [labelView, lookup_setLabel hs]
  split_ifs with h
  · simp
  · rfl

theorem cost_of_lookup (h : L.lookup v = some x) : (labelView reverse L).cost v = some x.cost := by
  simp only [labelView, h, Option.map_some]

theorem settled_of_lookup (h : L.lookup v = some x) :
    (labelView reverse L).settled v ↔ x.settled = true := by
  simp [labelView, h]

end View

/-! ### The invariant -/

namespace NavigationQuery

variable (N : NavigationSnapshot) (q : NavigationQuery)

/-- The labels of the query as the search sees them. -/
def view : Settling NavigationLocation := labelView q.reverse q.labels

/-- The candidates of the active location that have been probed. -/
def probed : List NavigationTransition := (N.candidates q.active q.reverse).take q.cursor

/-- The edges out of the active location that have not been offered. -/
def Todo (probing : Bool) (u v : NavigationLocation) (k : ℕ) : Prop :=
  probing = true ∧ u = q.active ∧
    ¬ ∃ e ∈ q.probed N, Traversed N q.reverse u e v ∧ e.cost = k

/-- **The invariant of the search**; `probing` tells that an active location is being expanded. -/
structure SearchInv (probing : Bool) : Prop where
  /-- The labels are those of a settling search. -/
  inv : q.view.Inv (SeedOf N q.goals q.seed) (Follows N q.reverse) navigationInfinity
    (fun v c => (⟨c, v⟩ : NavigationFrontier) ∈ q.frontier) (q.Todo N probing)
  /-- The labels are in order. -/
  sorted : LabelsSorted q.labels
  /-- So is the frontier. -/
  ordered : FrontierSorted q.frontier
  /-- Every entry of the frontier has a label. -/
  labelled : ∀ x ∈ q.frontier, ∃ y, q.labels.lookup x.location = some y
  /-- The entries of the frontier are below the reserved cost. -/
  below : ∀ x ∈ q.frontier, x.cost < navigationInfinity
  /-- The transition of a label was followed. -/
  parents : ∀ v x, q.labels.lookup v = some x → x.hasParent = true →
    Traversed N q.reverse (nearEnd q.reverse x.parent) x.parent v
  /-- The held labels are counted. -/
  held : q.unresolvedOverflow = q.labels.countP fun e => decide (e.2.cost = navigationInfinity)
  /-- The labels are within their ceiling. -/
  nodes : q.labels.length ≤ q.limits.maxNodes
  /-- Something was unavailable. -/
  seen : q.unknown = true → N.complete = false ∨
    (∃ g ∈ q.goals, N.availability g.location = .unavailable) ∨
    ∃ u e, q.view.settled u ∧ MissingAt N q.reverse u e
  /-- Nothing was, so far. -/
  unseen : q.unknown = false → N.complete = true ∧
    (∀ i < q.seed, ∀ g, q.goals[i]? = some g → N.availability g.location ≠ .unavailable) ∧
    ∀ u e, q.view.settled u → MissingAt N q.reverse u e →
      probing = true ∧ u = q.active ∧ e ∉ q.probed N

variable {N q}

theorem todo_false : q.Todo N false = fun _ _ _ => False := by
  funext u v k
  simp [Todo]

/-- A search that has only begun. -/
theorem searchInv_start (hl : q.labels = []) (hf : q.frontier = []) (hu : q.unresolvedOverflow = 0)
    (hs : q.seed = 0) (hk : q.unknown = !N.complete) : q.SearchInv N false := by
  have hcost : ∀ v, q.view.cost v = none := fun v => by simp [view, labelView, hl]
  have hset : ∀ v, ¬ q.view.settled v := fun v => by simp [view, labelView, hl]
  constructor
  · refine Settling.inv_empty hcost hset fun v c h => ?_
    obtain ⟨i, hi, -⟩ := h
    rw [hs] at hi
    exact absurd hi (Nat.not_lt_zero i)
  · rw [hl]
    exact List.Pairwise.nil
  · rw [hf]
    exact List.Pairwise.nil
  · rw [hf]
    exact fun _ h => absurd h List.not_mem_nil
  · rw [hf]
    exact fun _ h => absurd h List.not_mem_nil
  · rw [hl]
    exact fun _ _ h => by cases h
  · rw [hu, hl]
    rfl
  · rw [hl]
    exact Nat.zero_le _
  · intro h
    rw [hk] at h
    exact Or.inl (by simpa using h)
  · intro h
    rw [hk] at h
    refine ⟨by simpa using h, fun i hi => ?_, fun u e h => absurd h (hset u)⟩
    rw [hs] at hi
    exact absurd hi (Nat.not_lt_zero i)

namespace SearchInv

/-- Held labels are counted, so none is held when the count is zero. -/
theorem not_held {probing : Bool} (I : q.SearchInv N probing) (h : q.unresolvedOverflow = 0)
    (v : NavigationLocation) : q.view.cost v ≠ some navigationInfinity := by
  intro hv
  obtain ⟨x, hx, hc⟩ := Option.map_eq_some_iff.1 hv
  have hzero := I.held
  rw [h, eq_comm, List.countP_eq_zero] at hzero
  exact hzero (v, x) (mem_of_lookup hx) (decide_eq_true hc)

theorem exists_held {probing : Bool} (I : q.SearchInv N probing) (h : q.unresolvedOverflow ≠ 0) :
    ∃ v, q.view.cost v = some navigationInfinity := by
  rw [I.held] at h
  obtain ⟨e, he, hc⟩ := List.countP_pos_iff.1 (Nat.pos_of_ne_zero h)
  refine ⟨e.1, ?_⟩
  rw [view, cost_of_lookup (lookup_of_mem I.sorted he)]
  exact congrArg some (of_decide_eq_true hc)

/-! ### Seeds -/

/-- A seed that cannot be used leaves the search as it is. -/
theorem skipSeed (I : q.SearchInv N false) {g : NavigationGoal} (hg : q.goals[q.seed]? = some g)
    (hno : N.availability g.location ≠ .legal) (b : Bool)
    (hb : b = true ↔ N.availability g.location = .unavailable) :
    { q with seed := q.seed + 1, unknown := b || q.unknown }.SearchInv N false := by
  have hseeds : SeedOf N q.goals (q.seed + 1) = SeedOf N q.goals q.seed := by
    funext v c
    rw [seedOf_succ hg, eq_iff_iff]
    exact or_iff_left fun h => hno h.2.2.2
  refine { I with inv := ?_, seen := fun h => ?_, unseen := fun h => ?_ }
  · show Settling.Inv _ (SeedOf N q.goals (q.seed + 1)) _ _ _ _
    rw [hseeds]
    exact I.inv
  · cases hb' : b with
    | true => exact Or.inr (Or.inl ⟨g, List.mem_of_getElem? hg, hb.1 hb'⟩)
    | false => exact I.seen (by simpa [hb'] using h)
  · obtain ⟨hb', hunknown⟩ := Bool.or_eq_false_iff.1 h
    obtain ⟨h1, h2, h3⟩ := I.unseen hunknown
    refine ⟨h1, fun i hi g' hg' => ?_, h3⟩
    rcases Nat.lt_succ_iff_lt_or_eq.1 hi with hi | rfl
    · exact h2 i hi g' hg'
    · obtain rfl := Option.some.inj (hg.symm.trans hg')
      exact fun h => by rw [hb.2 h] at hb'; cases hb'

theorem unseen_seed (I : q.SearchInv N false) {g : NavigationGoal} (hg : q.goals[q.seed]? = some g)
    (hlegal : N.availability g.location = .legal) (h : q.unknown = false) :
    ∀ i < q.seed + 1, ∀ g', q.goals[i]? = some g' → N.availability g'.location ≠ .unavailable := by
  intro i hi g' hg'
  rcases Nat.lt_succ_iff_lt_or_eq.1 hi with hi | rfl
  · exact (I.unseen h).2.1 i hi g' hg'
  · obtain rfl := Option.some.inj (hg.symm.trans hg')
    rw [hlegal]
    decide

/-- A seed that is no better than the label of its location. -/
theorem reseed (I : q.SearchInv N false) (hnone : ∀ w, ¬ q.view.settled w) {g : NavigationGoal}
    (hg : q.goals[q.seed]? = some g) (hin : N.contains g.location = true)
    (hc : g.cost ≠ navigationInfinity) (hlegal : N.availability g.location = .legal)
    {x : NavigationLabel} (hx : q.labels.lookup g.location = some x) (hle : x.cost ≤ g.cost) :
    { q with seed := q.seed + 1 }.SearchInv N false := by
  refine { I with inv := ?_, unseen := fun h => ⟨(I.unseen h).1, I.unseen_seed hg hlegal h,
    (I.unseen h).2.2⟩ }
  refine I.inv.reseed hnone ⟨_, hle, cost_of_lookup hx⟩ fun w c => ?_
  rw [seedOf_succ hg]
  exact or_congr_right (and_iff_left ⟨hin, hc, hlegal⟩)

/-- The count of held labels when a label below the reserved cost is set. -/
theorem countP_lower {probing : Bool} (I : q.SearchInv N probing) {l : NavigationLocation}
    {x : NavigationLabel} (hx : x.cost ≠ navigationInfinity) :
    (setLabel q.labels l x).countP (fun e => decide (e.2.cost = navigationInfinity)) =
      if (q.labels.lookup l).any
          fun y : NavigationLabel => decide (y.cost = navigationInfinity) then
        q.unresolvedOverflow - 1 else q.unresolvedOverflow := by
  have h := @countP_setLabel q.labels l x I.sorted fun y => decide (y.cost = navigationInfinity)
  rw [decide_eq_false hx, ← I.held] at h
  simp only [Bool.false_eq_true, if_false, Nat.add_zero] at h
  split_ifs at h ⊢ <;> omega

theorem below_push {probing : Bool} (I : q.SearchInv N probing) {l : NavigationLocation} {c : ℕ}
    (hc : c < navigationInfinity) :
    ∀ x ∈ pushFrontier q.frontier ⟨c, l⟩, x.cost < navigationInfinity := by
  intro x hx
  rcases mem_pushFrontier.1 hx with rfl | hx
  · exact hc
  · exact I.below x hx

/-- **A seed** that gives its location a label. -/
theorem seed (I : q.SearchInv N false) (hnone : ∀ w, ¬ q.view.settled w) {g : NavigationGoal}
    (hg : q.goals[q.seed]? = some g) (hin : N.contains g.location = true)
    (hc : g.cost ≠ navigationInfinity) (hlegal : N.availability g.location = .legal)
    (hlow : ∀ x, q.labels.lookup g.location = some x → g.cost < x.cost)
    (hheld : ∀ x, q.labels.lookup g.location = some x → x.cost ≠ navigationInfinity)
    (hroom : ¬ (q.labels.lookup g.location = none ∧ q.labels.length = q.limits.maxNodes)) :
    { q with
      seed := q.seed + 1
      frontier := pushFrontier q.frontier ⟨g.cost, g.location⟩
      labels := setLabel q.labels g.location { cost := g.cost } }.SearchInv N false := by
  have hlt : g.cost < navigationInfinity := lt_of_le_of_ne g.cost_le hc
  have hset (w : NavigationLocation) : ¬ (labelView q.reverse
      (setLabel q.labels g.location { cost := g.cost })).settled w := by
    rw [settled_setLabel I.sorted]
    split_ifs
    · exact not_false
    · exact hnone w
  constructor
  · have hinv := I.inv
    rw [todo_false] at hinv ⊢
    refine hinv.seed hnone hlt (fun x hx => ?_) (fun w c => ?_) (fun w => cost_setLabel I.sorted)
      (fun w => ?_) (fun w => ?_) (fun w x hw h => mem_pushFrontier.2 (Or.inr h))
      (mem_pushFrontier.2 (Or.inl rfl))
    · obtain ⟨y, hy, rfl⟩ := Option.map_eq_some_iff.1 hx
      exact (hlow y hy).le
    · rw [seedOf_succ hg]
      exact or_congr_right (and_iff_left ⟨hin, hc, hlegal⟩)
    · exact (pred_setLabel I.sorted).trans (by simp [view])
    · exact iff_of_false (hset w) (hnone w)
  · exact sorted_setLabel I.sorted
  · exact sorted_pushFrontier I.ordered _
  · intro x hx
    rw [lookup_setLabel I.sorted]
    split_ifs with heq
    · exact ⟨_, rfl⟩
    · rcases mem_pushFrontier.1 hx with rfl | hx
      · exact absurd rfl heq
      · exact I.labelled x hx
  · exact I.below_push hlt
  · intro v x hx hp
    rw [lookup_setLabel I.sorted] at hx
    split_ifs at hx with heq
    · rw [← Option.some.inj hx] at hp
      cases hp
    · exact I.parents v x hx hp
  · rw [I.countP_lower hc]
    split_ifs with hany
    · obtain ⟨y, hy, hinf⟩ := (Option.any_eq_true _ _).1 hany
      exact absurd (of_decide_eq_true hinf) (hheld y hy)
    · rfl
  · show (setLabel _ _ _).length ≤ q.limits.maxNodes
    rw [length_setLabel I.sorted]
    have hnodes := I.nodes
    split_ifs with hsome
    · exact hnodes
    · rw [Option.not_isSome_iff_eq_none] at hsome
      have hne : q.labels.length ≠ q.limits.maxNodes := fun h => hroom ⟨hsome, h⟩
      omega
  · intro h
    rcases I.seen h with h | h | ⟨u, e, hu, -⟩
    · exact Or.inl h
    · exact Or.inr (Or.inl h)
    · exact absurd hu (hnone u)
  · exact fun h => ⟨(I.unseen h).1, I.unseen_seed hg hlegal h, fun u e hu => absurd hu (hset u)⟩

/-! ### The frontier -/

/-- **Popping a stale entry** leaves the search as it is. -/
theorem popStale (I : q.SearchInv N false) {x : NavigationFrontier} {rest : List NavigationFrontier}
    (hf : q.frontier = x :: rest) {y : NavigationLabel}
    (hy : q.labels.lookup x.location = some y) (hstale : y.settled = true ∨ y.cost ≠ x.cost) :
    { q with frontier := rest }.SearchInv N false := by
  have hsub : ∀ z ∈ rest, z ∈ q.frontier := fun z hz => by
    rw [hf]
    exact List.mem_cons_of_mem _ hz
  refine { I with
    inv := ?_
    ordered := ?_
    labelled := fun z hz => I.labelled z (hsub z hz)
    below := fun z hz => I.below z (hsub z hz) }
  · refine I.inv.requeue fun v c hc hlt hv hq => ?_
    rw [hf] at hq
    rcases List.mem_cons.1 hq with heq | hq
    · -- the entry is not the label of an open location
      obtain rfl : v = x.location := congrArg NavigationFrontier.location heq
      have hcost : c = x.cost := congrArg NavigationFrontier.cost heq
      rw [view, cost_of_lookup hy, hcost] at hc
      rcases hstale with hs | hne
      · exact absurd ((settled_of_lookup hy).2 hs) hv
      · exact absurd (Option.some.inj hc) hne
    · exact hq
  · have := I.ordered
    rw [hf] at this
    exact (List.pairwise_cons.1 this).2

/-- The labels after the active one has been settled. -/
theorem countP_settle {probing : Bool} (I : q.SearchInv N probing) {l : NavigationLocation}
    {y : NavigationLabel} (hy : q.labels.lookup l = some y) :
    (setLabel q.labels l { y with settled := true }).countP
      (fun e => decide (e.2.cost = navigationInfinity)) = q.unresolvedOverflow := by
  have h := @countP_setLabel q.labels l { y with settled := true } I.sorted
    fun y => decide (y.cost = navigationInfinity)
  rw [hy, Option.any_some, ← I.held] at h
  exact Nat.add_right_cancel h

/-- **Popping the active location**: its label is final, and its edges are to be offered. -/
theorem settle (I : q.SearchInv N false) {x : NavigationFrontier} {rest : List NavigationFrontier}
    (hf : q.frontier = x :: rest) {y : NavigationLabel}
    (hy : q.labels.lookup x.location = some y) (hopen : y.settled = false) (hc : y.cost = x.cost)
    (hlt : y.cost < navigationInfinity) :
    { q with
      frontier := rest
      labels := setLabel q.labels x.location { y with settled := true }
      active := x.location
      activeCost := y.cost
      cursor := 0
      degree := N.degree x.location q.reverse
      phase := .edges }.SearchInv N true := by
  have hview : ∀ w, (labelView q.reverse
      (setLabel q.labels x.location { y with settled := true })).settled w ↔
        q.view.settled w ∨ w = x.location := by
    intro w
    rw [settled_setLabel I.sorted]
    by_cases h : w = x.location
    · simp [h]
    · rw [if_neg h]
      exact (or_iff_left h).symm
  have hopen' : ¬ q.view.settled x.location := by
    rw [view, settled_of_lookup hy, hopen]
    exact Bool.false_ne_true
  have hordered := I.ordered
  rw [hf] at hordered
  obtain ⟨hmin, hrest⟩ := List.pairwise_cons.1 hordered
  constructor
  · have hinv := I.inv
    rw [todo_false] at hinv
    refine hinv.settle (cost_of_lookup hy) hlt hopen' (fun w c hw => ?_) (fun w => ?_) (fun w => ?_)
      hview (fun w c hw hwc => ?_) fun w k _ => ⟨rfl, rfl, ?_⟩
    · rw [hf] at hw
      rw [hc]
      rcases List.mem_cons.1 hw with heq | hw
      · exact (congrArg NavigationFrontier.cost heq).ge
      · exact hmin _ hw
    · refine (cost_setLabel I.sorted).trans ?_
      by_cases h : w = x.location
      · rw [if_pos h, h, view, cost_of_lookup hy]
      · rw [if_neg h]
        rfl
    · refine (pred_setLabel I.sorted).trans ?_
      by_cases h : w = x.location
      · rw [if_pos h, h]
        simp [view, labelView, hy]
      · rw [if_neg h]
        rfl
    · rw [hf] at hwc
      rcases List.mem_cons.1 hwc with heq | hwc
      · exact absurd (congrArg NavigationFrontier.location heq) hw
      · exact hwc
    · simp [probed]
  · exact sorted_setLabel I.sorted
  · exact hrest
  · intro z hz
    rw [lookup_setLabel I.sorted]
    split_ifs with heq
    · exact ⟨_, rfl⟩
    · exact I.labelled z (by rw [hf]; exact List.mem_cons_of_mem _ hz)
  · exact fun z hz => I.below z (by rw [hf]; exact List.mem_cons_of_mem _ hz)
  · intro v z hz hp
    rw [lookup_setLabel I.sorted] at hz
    split_ifs at hz with heq
    · obtain rfl := Option.some.inj hz
      exact I.parents v y (heq ▸ hy) hp
    · exact I.parents v z hz hp
  · exact (I.countP_settle hy).symm
  · show (setLabel _ _ _).length ≤ q.limits.maxNodes
    rw [length_setLabel I.sorted, hy, Option.isSome_some, if_pos rfl]
    exact I.nodes
  · intro h
    rcases I.seen h with h | h | ⟨u, e, hu, he⟩
    · exact Or.inl h
    · exact Or.inr (Or.inl h)
    · exact Or.inr (Or.inr ⟨u, e, (hview u).2 (Or.inl hu), he⟩)
  · intro h
    obtain ⟨h1, h2, h3⟩ := I.unseen h
    refine ⟨h1, h2, fun u e hu he => ?_⟩
    rcases (hview u).1 hu with hu | rfl
    · exact absurd (h3 u e hu he).1 Bool.false_ne_true
    · exact ⟨rfl, rfl, by simp [probed]⟩

/-! ### Candidates -/

/-- What is known of the active location. -/
structure Active (N : NavigationSnapshot) (q : NavigationQuery) : Prop where
  /-- It is settled. -/
  settled : q.view.settled q.active
  /-- Its label. -/
  cost : q.view.cost q.active = some q.activeCost
  /-- Its degree. -/
  degree : q.degree = N.degree q.active q.reverse

theorem Active.length (A : Active N q) : (N.candidates q.active q.reverse).length = q.degree := by
  rw [NavigationSnapshot.candidates, List.length_map, List.length_range, A.degree]

theorem Active.getElem? (A : Active N q) (hlt : q.cursor < q.degree) :
    (N.candidates q.active q.reverse)[q.cursor]? = some (N.edge q.active q.cursor q.reverse) := by
  rw [NavigationSnapshot.candidates, List.getElem?_map, List.getElem?_range (A.degree ▸ hlt)]
  rfl

/-- The candidates after one more has been probed. -/
theorem Active.probed_succ (A : Active N q) (hlt : q.cursor < q.degree) :
    { q with cursor := q.cursor + 1 }.probed N =
      q.probed N ++ [N.edge q.active q.cursor q.reverse] := by
  have hget := A.getElem? hlt
  simp only [probed]
  rw [List.take_add_one, hget]
  rfl

/-- **All candidates have been probed.** -/
theorem exhaust (I : q.SearchInv N true) (A : Active N q) (hend : q.degree ≤ q.cursor) :
    { q with phase := .pop }.SearchInv N false := by
  have hall : q.probed N = N.candidates q.active q.reverse :=
    List.take_of_length_le (A.length.trans_le hend)
  refine { I with inv := ?_, unseen := fun h => ?_ }
  · refine I.inv.offered fun u v c k hu hc he htodo _ => ?_
    obtain ⟨-, rfl, hno⟩ := htodo
    obtain ⟨e, ho, hk⟩ := he
    exact absurd ⟨e, hall ▸ ho.mem, ho, hk⟩ hno
  · obtain ⟨h1, h2, h3⟩ := I.unseen h
    refine ⟨h1, h2, fun u e hu he => ?_⟩
    obtain ⟨-, rfl, hno⟩ := h3 u e hu he
    exact absurd (hall ▸ he.1) hno

/-- One more candidate has been probed, and its target has a small enough label if it was
offered. -/
theorem probe (I : q.SearchInv N true) (A : Active N q) (hlt : q.cursor < q.degree)
    (hdone : ∀ v, Traversed N q.reverse q.active (N.edge q.active q.cursor q.reverse) v →
      ∃ c' ≤ q.activeCost + (N.edge q.active q.cursor q.reverse).cost, q.view.cost v = some c')
    (b : Bool) (hb : b = true ↔
      MissingAt N q.reverse q.active (N.edge q.active q.cursor q.reverse)) :
    { q with cursor := q.cursor + 1, unknown := b || q.unknown }.SearchInv N true := by
  have hprobed := A.probed_succ hlt
  refine { I with inv := ?_, seen := fun h => ?_, unseen := fun h => ?_ }
  · refine I.inv.offered fun u v c k hu hc _ htodo hnot => ?_
    obtain ⟨-, rfl, hno⟩ := htodo
    have hex : ∃ e ∈ { q with cursor := q.cursor + 1 }.probed N,
        Traversed N q.reverse q.active e v ∧ e.cost = k := by
      by_contra hnone
      exact hnot ⟨rfl, rfl, hnone⟩
    obtain ⟨e, he, ho, rfl⟩ := hex
    rw [hprobed, List.mem_append, List.mem_singleton] at he
    rcases he with he | rfl
    · exact absurd ⟨e, he, ho, rfl⟩ hno
    · rw [A.cost, Option.some.injEq] at hc
      rw [← hc]
      exact hdone v ho
  · cases hb' : b with
    | true => exact Or.inr (Or.inr ⟨q.active, _, A.settled, hb.1 hb'⟩)
    | false => exact I.seen (by simpa [hb'] using h)
  · obtain ⟨hb', hunknown⟩ := Bool.or_eq_false_iff.1 h
    obtain ⟨h1, h2, h3⟩ := I.unseen hunknown
    refine ⟨h1, h2, fun u e hu he => ?_⟩
    obtain ⟨-, rfl, hno⟩ := h3 u e hu he
    refine ⟨rfl, rfl, fun hin => ?_⟩
    have hin : e ∈ { q with cursor := q.cursor + 1 }.probed N := hin
    rw [hprobed, List.mem_append, List.mem_singleton] at hin
    rcases hin with hin | rfl
    · exact hno hin
    · exact absurd (hb.2 he) (by rw [hb']; exact Bool.false_ne_true)

/-- **Lowering a label**: a transition gives an open location a smaller cost. -/
theorem lower (I : q.SearchInv N true) (A : Active N q) {e : NavigationTransition}
    {v : NavigationLocation} (ho : Traversed N q.reverse q.active e v)
    (hlt : q.activeCost + e.cost < navigationInfinity)
    (hlow : ∀ x, q.labels.lookup v = some x →
      x.settled = false ∧ q.activeCost + e.cost < x.cost)
    (hroom : ¬ (q.labels.lookup v = none ∧ q.labels.length = q.limits.maxNodes)) :
    { q with
      frontier := pushFrontier q.frontier ⟨q.activeCost + e.cost, v⟩
      unresolvedOverflow :=
        if (q.labels.lookup v).any
            fun y : NavigationLabel => decide (y.cost = navigationInfinity) then
          q.unresolvedOverflow - 1 else q.unresolvedOverflow
      labels := setLabel q.labels v
        { cost := q.activeCost + e.cost, parent := e, hasParent := true } }.SearchInv N true := by
  have hv : ¬ q.view.settled v := by
    rintro ⟨x, hx, hs⟩
    rw [(hlow x hx).1] at hs
    cases hs
  have hset (w : NavigationLocation) : (labelView q.reverse (setLabel q.labels v
      { cost := q.activeCost + e.cost, parent := e, hasParent := true })).settled w ↔
        q.view.settled w := by
    rw [settled_setLabel I.sorted]
    by_cases h : w = v
    · rw [if_pos h, h]
      exact iff_of_false Bool.false_ne_true hv
    · rw [if_neg h]
      rfl
  constructor
  · refine I.inv.lower A.settled A.cost ⟨e, ho, rfl⟩ hv hlt (fun x hx => ?_)
      (fun w => cost_setLabel I.sorted) (fun w => ?_) hset
      (fun w x hw h => mem_pushFrontier.2 (Or.inr h)) (mem_pushFrontier.2 (Or.inl rfl))
    · obtain ⟨y, hy, rfl⟩ := Option.map_eq_some_iff.1 hx
      exact (hlow y hy).2.le
    · refine (pred_setLabel I.sorted).trans ?_
      rw [if_pos rfl, ho.near]
      rfl
  · exact sorted_setLabel I.sorted
  · exact sorted_pushFrontier I.ordered _
  · intro x hx
    rw [lookup_setLabel I.sorted]
    split_ifs with heq
    · exact ⟨_, rfl⟩
    · rcases mem_pushFrontier.1 hx with rfl | hx
      · exact absurd rfl heq
      · exact I.labelled x hx
  · exact I.below_push hlt
  · intro w x hx hp
    rw [lookup_setLabel I.sorted] at hx
    split_ifs at hx with heq
    · rw [← Option.some.inj hx, heq, ho.near]
      exact ho
    · exact I.parents w x hx hp
  · exact (I.countP_lower hlt.ne).symm
  · show (setLabel _ _ _).length ≤ q.limits.maxNodes
    rw [length_setLabel I.sorted]
    have hnodes := I.nodes
    split_ifs with hsome
    · exact hnodes
    · rw [Option.not_isSome_iff_eq_none] at hsome
      have hne : q.labels.length ≠ q.limits.maxNodes := fun h => hroom ⟨hsome, h⟩
      omega
  · intro h
    rcases I.seen h with h | h | ⟨u, x, hu, hx⟩
    · exact Or.inl h
    · exact Or.inr (Or.inl h)
    · exact Or.inr (Or.inr ⟨u, x, (hset u).2 hu, hx⟩)
  · exact fun h => ⟨(I.unseen h).1, (I.unseen h).2.1, fun u x hu =>
      (I.unseen h).2.2 u x ((hset u).1 hu)⟩

/-- **Holding a location** that a transition reaches beyond the reserved cost only. -/
theorem hold (I : q.SearchInv N true) (A : Active N q) {e : NavigationTransition}
    {v : NavigationLocation} (ho : Traversed N q.reverse q.active e v)
    (hnone : q.labels.lookup v = none) (hroom : q.labels.length ≠ q.limits.maxNodes) :
    { q with
      labels := setLabel q.labels v { cost := navigationInfinity }
      unresolvedOverflow := q.unresolvedOverflow + 1 }.SearchInv N true := by
  have hcost : q.view.cost v = none := by simp [view, labelView, hnone]
  have hset (w : NavigationLocation) : (labelView q.reverse (setLabel q.labels v
      { cost := navigationInfinity })).settled w ↔ q.view.settled w := by
    rw [settled_setLabel I.sorted]
    by_cases h : w = v
    · rw [if_pos h, h]
      exact iff_of_false Bool.false_ne_true (by rintro ⟨x, hx, -⟩; rw [hnone] at hx; cases hx)
    · rw [if_neg h]
      rfl
  constructor
  · refine I.inv.hold A.settled ⟨e, ho, rfl⟩ hcost (fun w => cost_setLabel I.sorted)
      (fun w hw => ?_) hset
    refine (pred_setLabel I.sorted).trans ?_
    rw [if_neg hw]
    rfl
  · exact sorted_setLabel I.sorted
  · exact I.ordered
  · intro x hx
    rw [lookup_setLabel I.sorted]
    split_ifs with heq
    · exact ⟨_, rfl⟩
    · exact I.labelled x hx
  · exact I.below
  · intro w x hx hp
    rw [lookup_setLabel I.sorted] at hx
    split_ifs at hx with heq
    · rw [← Option.some.inj hx] at hp
      cases hp
    · exact I.parents w x hx hp
  · have h := @countP_setLabel q.labels v { cost := navigationInfinity } I.sorted
      fun y => decide (y.cost = navigationInfinity)
    rw [hnone, ← I.held] at h
    simp only [Option.any_none, Bool.false_eq_true, if_false, decide_true, if_true,
      Nat.add_zero] at h
    exact h.symm
  · show (setLabel _ _ _).length ≤ q.limits.maxNodes
    rw [length_setLabel I.sorted, hnone]
    have hnodes := I.nodes
    show q.labels.length + 1 ≤ q.limits.maxNodes
    omega
  · intro h
    rcases I.seen h with h | h | ⟨u, x, hu, hx⟩
    · exact Or.inl h
    · exact Or.inr (Or.inl h)
    · exact Or.inr (Or.inr ⟨u, x, (hset u).2 hu, hx⟩)
  · exact fun h => ⟨(I.unseen h).1, (I.unseen h).2.1, fun u x hu =>
      (I.unseen h).2.2 u x ((hset u).1 hu)⟩

end SearchInv

end NavigationQuery

end Tess
