import Tess.Lib.Walk

/-!
# Label-setting searches

A search from one start node keeps a label `g`, a parent and a closed mark for every node,
and a queue of (node, label) entries.  It repeatedly pops an entry that is least for
`f = min (label + h) M`, closes its node and offers each out-edge to the edge's target.
Labels are cut off at a sentinel `M`: a node that has label `M` is unreached.

* `Labels.Inv` : what holds between any two steps, while the edges in `todo` are still to be
  offered;
* `Labels.Inv.close`, `Labels.Inv.update`, `Labels.Inv.settle`, `Labels.Inv.requeue` : **one
  rule for each kind of step** of a search;
* `Labels.Inv.exists_isRoute` : a label is the cost of a route along the parents;
* `Labels.Inv.opt` : a closed node has the least cost of a route, when that cost plus the
  estimate is below the sentinel;
* `Labels.Inv.closed_of_reaches`, `Labels.Inv.closed_of_reaches_of_lt` : what an exhausted
  search has closed.

The rules need a consistent estimate (`Consistent`) only where a popped entry is closed, and
nothing about the order in which equal entries are popped.
-/

namespace Graphs

variable {ν : Type*}

/-- The estimate drops along every edge by at most the edge's cost. -/
def Consistent (edge : ν → ν → ℕ → Prop) (h : ν → ℕ) : Prop :=
  ∀ a b k, edge a b k → h a ≤ k + h b

/-- What a search knows about the nodes. -/
structure Labels (ν : Type*) where
  /-- Cost of the best route found so far, or the sentinel. -/
  g : ν → ℕ
  /-- Node before this one on that route. -/
  parent : ν → ν
  /-- The label of the node is final. -/
  closed : ν → Prop

namespace Labels

/-- The edge from `u` to `v` of cost `k` has been offered: its target is closed, or labelled
at most the offer, or the offer reached the sentinel, which the search has recorded. -/
def Settled (L : Labels ν) (M : ℕ) (overflow : Prop) (u v : ν) (k : ℕ) : Prop :=
  L.closed v ∨ (L.g v ≤ L.g u + k ∧ L.g v < M) ∨ (M ≤ L.g u + k ∧ overflow)

/-- **The invariant of a label-setting search** between two of its steps. -/
structure Inv (L : Labels ν) (edge : ν → ν → ℕ → Prop) (h : ν → ℕ) (M : ℕ) (start : ν)
    (queue : ν → ℕ → Prop) (overflow : Prop) (todo : ν → ν → ℕ → Prop) : Prop where
  /-- The start has label zero. -/
  start_g : L.g start = 0
  /-- Every other labelled node got its label over an edge from its closed parent. -/
  chain : ∀ v, L.g v < M → v ≠ start →
    L.closed (L.parent v) ∧ ∃ k, edge (L.parent v) v k ∧ L.g v = L.g (L.parent v) + k
  /-- Closed nodes are labelled. -/
  closed_lt : ∀ v, L.closed v → L.g v < M
  /-- Every edge out of a closed node has been offered, up to those still to be. -/
  relaxed : ∀ u v k, L.closed u → edge u v k → ¬ todo u v k → L.Settled M overflow u v k
  /-- Labelled nodes that are not closed are queued under their label. -/
  queued : ∀ v, L.g v < M → ¬ L.closed v → queue v (L.g v)
  /-- Labels of closed nodes are least, as far as the sentinel lets one tell. -/
  opt : ∀ v C, L.closed v → Reaches edge start v C → C + h v < M → L.g v ≤ C

/-- The labels before the first step. -/
def IsInit (L : Labels ν) (M : ℕ) (start : ν) : Prop :=
  L.g start = 0 ∧ (∀ v, v ≠ start → L.g v = M) ∧ ∀ v, ¬ L.closed v

variable {L L' : Labels ν} {edge : ν → ν → ℕ → Prop} {h : ν → ℕ} {M : ℕ} {start u v : ν}
  {queue queue' : ν → ℕ → Prop} {overflow overflow' : Prop} {todo todo' : ν → ν → ℕ → Prop}
  {k C : ℕ}

theorem IsInit.inv (hL : L.IsInit M start) (hq : queue start 0) :
    L.Inv edge h M start queue overflow todo := by
  obtain ⟨h0, hM, hc⟩ := hL
  refine ⟨h0, fun v hv hne => ?_, fun v hv => absurd hv (hc v), fun u _ _ hu => absurd hu (hc u),
    fun v hv _ => ?_, fun v _ hv => absurd hv (hc v)⟩
  · have := hM v hne; omega
  · by_cases hne : v = start
    · subst hne; rwa [h0]
    · have := hM v hne; omega

theorem IsInit.g_le (hL : L.IsInit M start) (v : ν) : L.g v ≤ M := by
  by_cases hv : v = start
  · rw [hv, hL.1]; exact Nat.zero_le _
  · exact (hL.2.1 v hv).le

namespace Inv

/-- The queue may lose any entry that is not the label of an open node. -/
theorem requeue (I : L.Inv edge h M start queue overflow todo)
    (hq : ∀ v, L.g v < M → ¬ L.closed v → queue v (L.g v) → queue' v (L.g v)) :
    L.Inv edge h M start queue' overflow todo :=
  ⟨I.start_g, I.chain, I.closed_lt, I.relaxed, fun v h1 h2 => hq v h1 h2 (I.queued v h1 h2),
    I.opt⟩

/-- Edges that are settled need not be offered any more. -/
theorem settle (I : L.Inv edge h M start queue overflow todo)
    (hov : overflow → overflow')
    (ht : ∀ u v k, L.closed u → edge u v k → todo u v k → ¬ todo' u v k →
      L.Settled M overflow' u v k) :
    L.Inv edge h M start queue overflow' todo' := by
  refine ⟨I.start_g, I.chain, I.closed_lt, fun u v k hu he hn => ?_, I.queued, I.opt⟩
  by_cases htd : todo u v k
  · exact ht u v k hu he htd hn
  · exact (I.relaxed u v k hu he htd).imp_right (Or.imp_right (And.imp_right hov))

/-- On the way to an open node stands an entry of the queue that is no worse than the way. -/
theorem exists_queued (I : L.Inv edge h M start queue overflow (fun _ _ _ => False))
    (hM : 0 < M) (hcons : Consistent edge h) (hr : Reaches edge start v C)
    (hlt : C + h v < M) (hv : ¬ L.closed v) :
    ∃ w x, queue w x ∧ x + h w ≤ C + h v ∧ x < M := by
  by_cases hs : L.closed start
  · obtain ⟨u, w, k, C₁, C₂, h₁, hu, he, hw, h₂, rfl⟩ := hr.exists_crossing hs hv
    have hwv := h₂.potential_le hcons
    have huw := hcons _ _ _ he
    have hu' := I.opt u C₁ hu h₁ (by omega)
    rcases I.relaxed u w k hu he id with hc | ⟨hle, hwM⟩ | ⟨hM', -⟩
    · exact absurd hc hw
    · exact ⟨w, L.g w, I.queued w hwM hw, by omega, hwM⟩
    · omega
  · have hsv := hr.potential_le hcons
    have h0 := I.start_g
    exact ⟨start, 0, h0 ▸ I.queued start (by omega) hs, by omega, hM⟩

/-- **Closing** the node of a least entry: its out-edges are now to be offered. -/
theorem close (I : L.Inv edge h M start queue overflow (fun _ _ _ => False))
    (hcons : Consistent edge h) (hvM : L.g v < M) (hv : ¬ L.closed v)
    (hmin : ∀ w x, queue w x → min (L.g v + h v) M ≤ min (x + h w) M)
    (hg : ∀ w, L'.g w = L.g w) (hp : ∀ w, L'.parent w = L.parent w)
    (hc : ∀ w, L'.closed w ↔ L.closed w ∨ w = v)
    (hq : ∀ w x, w ≠ v → queue w x → queue' w x) (ht : ∀ w k, edge v w k → todo v w k) :
    L'.Inv edge h M start queue' overflow todo := by
  refine ⟨?_, fun w hw hne => ?_, fun w hw => ?_, fun u w k hu he hn => ?_, fun w hw hwc => ?_,
    fun w C hw hr hlt => ?_⟩
  · rw [hg, I.start_g]
  · simp only [hg, hp, hc] at hw ⊢
    exact (I.chain w hw hne).imp_left Or.inl
  · rw [hg]
    rcases (hc w).1 hw with hw | rfl
    · exact I.closed_lt w hw
    · exact hvM
  · rcases (hc u).1 hu with hu | rfl
    · have := I.relaxed u w k hu he id
      simp only [Settled, hg, hc] at this ⊢
      exact this.imp_left Or.inl
    · exact absurd (ht w k he) hn
  · rw [hg] at hw ⊢
    rw [hc, not_or] at hwc
    exact hq w _ hwc.2 (I.queued w hw hwc.1)
  · rw [hg]
    rcases (hc w).1 hw with hw | rfl
    · exact I.opt w C hw hr hlt
    · -- the least entry is no worse than the entry that stands on the way
      obtain ⟨x, y, hxy, hle, -⟩ := I.exists_queued (by omega) hcons hr hlt hv
      have := hmin x y hxy
      omega

/-- **Lowering** the label of an open node over an edge from a closed one. -/
theorem update [DecidableEq ν] (I : L.Inv edge h M start queue overflow todo)
    (hu : L.closed u) (he : edge u v k) (hv : ¬ L.closed v)
    (hlt : L.g u + k < L.g v) (hM : L.g u + k < M)
    (hg : ∀ w, L'.g w = if w = v then L.g u + k else L.g w)
    (hp : ∀ w, L'.parent w = if w = v then u else L.parent w)
    (hc : ∀ w, L'.closed w ↔ L.closed w)
    (hq : ∀ w x, queue w x → queue' w x) (hqv : queue' v (L.g u + k)) :
    L'.Inv edge h M start queue' overflow todo := by
  have hne : ∀ w, L.closed w → w ≠ v := fun w hw hwv => hv (hwv ▸ hw)
  have hg' : ∀ w, L.closed w → L'.g w = L.g w := fun w hw => by rw [hg, if_neg (hne w hw)]
  refine ⟨?_, fun w hw hws => ?_, fun w hw => ?_, fun x w k' hx hxw hn => ?_, fun w hw hwc => ?_,
    fun w C hw hr hlt' => ?_⟩
  · have hsv : start ≠ v := by
      intro hsv
      rw [← hsv, I.start_g] at hlt
      omega
    rw [hg, if_neg hsv, I.start_g]
  · rw [hg] at hw ⊢
    rw [hp]
    by_cases hwv : w = v
    · subst hwv
      rw [if_pos rfl, if_pos rfl, hc, hg' u hu]
      exact ⟨hu, k, he, rfl⟩
    · rw [if_neg hwv] at hw
      rw [if_neg hwv, if_neg hwv, hc]
      obtain ⟨h1, h2⟩ := I.chain w hw hws
      exact ⟨h1, by rwa [hg' _ h1]⟩
  · rw [hc] at hw
    rw [hg' w hw]
    exact I.closed_lt w hw
  · rw [hc] at hx
    rcases I.relaxed x w k' hx hxw hn with h1 | ⟨h1, h2⟩ | ⟨h1, h2⟩
    · exact Or.inl ((hc w).2 h1)
    · refine Or.inr (Or.inl ?_)
      rw [hg' x hx, hg]
      split_ifs with hwv
      · subst hwv; omega
      · exact ⟨h1, h2⟩
    · exact Or.inr (Or.inr ⟨by rwa [hg' x hx], h2⟩)
  · rw [hg] at hw ⊢
    rw [hc] at hwc
    by_cases hwv : w = v
    · subst hwv; rwa [if_pos rfl]
    · rw [if_neg hwv] at hw ⊢
      exact hq _ _ (I.queued w hw hwc)
  · rw [hc] at hw
    rw [hg' w hw]
    exact I.opt w C hw hr hlt'

/-! ### Labels are costs of routes -/

/-- A label is the cost of a route whose nodes before the last are closed and have smaller
labels; such a route visits no node twice. -/
theorem exists_isRoute (I : L.Inv edge h M start queue overflow todo)
    (hpos : ∀ a b k, edge a b k → 0 < k) (v : ν) (hv : L.g v < M) :
    ∃ l, IsRoute edge l start v (L.g v) ∧ l.Nodup ∧
      ∀ w ∈ l, w = v ∨ (L.closed w ∧ L.g w < L.g v) := by
  induction hn : L.g v using Nat.strong_induction_on generalizing v with
  | _ n ih =>
    by_cases hs : v = start
    · subst hs
      rw [← hn, I.start_g]
      exact ⟨[v], .single v, by simp, by simp⟩
    · obtain ⟨hpc, k, he, hk⟩ := I.chain v hv hs
      have hk0 := hpos _ _ _ he
      obtain ⟨l, hl, hnd, hmem⟩ := ih _ (by omega) (L.parent v) (by omega) rfl
      have hlt : ∀ w ∈ l, L.closed w ∧ L.g w < L.g v := by
        intro w hw
        rcases hmem w hw with rfl | ⟨hwc, hlt⟩
        · exact ⟨hpc, by omega⟩
        · exact ⟨hwc, by omega⟩
      refine ⟨l ++ [v], ?_, ?_, ?_⟩
      · rw [← hn, hk]
        exact hl.snoc he
      · refine List.nodup_append.2 ⟨hnd, by simp, ?_⟩
        rintro w hw _ hv' rfl
        rw [List.mem_singleton.1 hv'] at hw
        exact absurd (hlt v hw).2 (lt_irrefl _)
      · intro w hw
        rcases List.mem_append.1 hw with hw | hw
        · exact Or.inr (hn ▸ hlt w hw)
        · exact Or.inl (List.mem_singleton.1 hw)

theorem reaches (I : L.Inv edge h M start queue overflow todo)
    (hpos : ∀ a b k, edge a b k → 0 < k) (hv : L.g v < M) : Reaches edge start v (L.g v) := by
  obtain ⟨l, hl, -⟩ := I.exists_isRoute hpos v hv
  exact ⟨l, hl⟩

/-- The label of a node is at most the greatest edge cost times the number of closed nodes
other than it. -/
theorem g_le_mul_card (I : L.Inv edge h M start queue overflow todo)
    (hpos : ∀ a b k, edge a b k → 0 < k) {K : ℕ} (hK : ∀ a b k, edge a b k → k ≤ K)
    (hv : L.g v < M) {s : Finset ν} (hs : ∀ w, L.closed w → w ≠ v → w ∈ s) :
    L.g v ≤ K * s.card := by
  classical
  obtain ⟨l, hl, hnd, hmem⟩ := I.exists_isRoute hpos v hv
  have hsub : l.toFinset.erase v ⊆ s := by
    intro w hw
    obtain ⟨hwv, hw⟩ := Finset.mem_erase.1 hw
    rcases hmem w (List.mem_toFinset.1 hw) with rfl | ⟨hc, -⟩
    · exact absurd rfl hwv
    · exact hs w hc hwv
  have hcard := Finset.card_le_card hsub
  rw [Finset.card_erase_of_mem (List.mem_toFinset.2 hl.right_mem),
    List.toFinset_card_of_nodup hnd] at hcard
  exact (hl.cost_le hK).trans (Nat.mul_le_mul_left _ hcard)

/-- A search whose reachable nodes are too few for a label to reach the sentinel never has to
record that one did. -/
theorem no_overflow (I : L.Inv edge h M start queue overflow todo)
    (hpos : ∀ a b k, edge a b k → 0 < k) {K : ℕ} (hK : ∀ a b k, edge a b k → k ≤ K)
    {s : Finset ν} (hs : ∀ v C, Reaches edge start v C → v ∈ s) (hcard : K * (s.card - 1) < M) :
    L.Inv edge h M start queue False todo := by
  classical
  refine ⟨I.start_g, I.chain, I.closed_lt, fun u v k hu he hn => ?_, I.queued, I.opt⟩
  rcases I.relaxed u v k hu he hn with hc | hl | ⟨hle, -⟩
  · exact Or.inl hc
  · exact Or.inr (Or.inl hl)
  by_cases hv : L.closed v
  · exact Or.inl hv
  exfalso
  have huM := I.closed_lt u hu
  have hru := I.reaches hpos huM
  have hmem : v ∈ s := hs v _ (hru.tail he)
  have hg := I.g_le_mul_card hpos hK huM (s := (s.erase v).erase u) fun w hw hwu =>
    Finset.mem_erase.2 ⟨hwu, Finset.mem_erase.2
      ⟨fun hwv => hv (hwv ▸ hw), hs w _ (I.reaches hpos (I.closed_lt w hw))⟩⟩
  have huv : u ∈ s.erase v := Finset.mem_erase.2 ⟨fun h => hv (h ▸ hu), hs u _ hru⟩
  rw [Finset.card_erase_of_mem huv, Finset.card_erase_of_mem hmem] at hg
  have hk := hK _ _ _ he
  have hpos' : 0 < s.card - 1 := by
    rw [← Finset.card_erase_of_mem hmem]
    exact Finset.card_pos.2 ⟨u, huv⟩
  have : K * (s.card - 1) = K * (s.card - 1 - 1) + K := by
    rw [← Nat.mul_succ, Nat.succ_eq_add_one, Nat.sub_add_cancel hpos']
  omega

/-! ### Exhausted searches -/

theorem closed_of_empty (I : L.Inv edge h M start queue overflow todo)
    (hq : ∀ w x, ¬ queue w x) (hv : L.g v < M) : L.closed v := by
  by_contra hc
  exact hq _ _ (I.queued v hv hc)

/-- An exhausted search that never reached the sentinel has closed every reachable node. -/
theorem closed_of_reaches (I : L.Inv edge h M start queue overflow (fun _ _ _ => False))
    (hM : 0 < M) (hq : ∀ w x, ¬ queue w x) (hov : ¬ overflow) (hr : Reaches edge start v C) :
    L.closed v := by
  by_contra hv
  have hs : L.closed start := I.closed_of_empty hq (by rw [I.start_g]; exact hM)
  obtain ⟨u, w, k, -, -, -, hu, he, hw, -⟩ := hr.exists_crossing hs hv
  rcases I.relaxed u w k hu he id with hc | ⟨-, hlt⟩ | ⟨-, ho⟩
  · exact hw hc
  · exact hw (I.closed_of_empty hq hlt)
  · exact hov ho

/-- An exhausted search has closed every node that a cheap enough route reaches. -/
theorem closed_of_reaches_of_lt (I : L.Inv edge h M start queue overflow (fun _ _ _ => False))
    (hM : 0 < M) (hcons : Consistent edge h) (hq : ∀ w x, ¬ queue w x)
    (hr : Reaches edge start v C) (hlt : C + h v < M) : L.closed v := by
  by_contra hv
  obtain ⟨w, x, hwx, -, -⟩ := I.exists_queued hM hcons hr hlt hv
  exact hq w x hwx

end Inv

end Labels

end Graphs
