import Tess.Lib.FloodFill
import Tess.Lib.Walk
import Mathlib.Data.List.Nodup
import Mathlib.Data.Finset.Card
import Mathlib.Tactic.SplitIfs

/-!
# Breadth-first search

A breadth-first search keeps the nodes it has discovered in the order of their discovery and
scans the edges out of each, in that order.  It records a datum for every node, learnt from the
datum of the node it came from; which datum is up to the program that searches.

* `breadthFirst` : the search, which may end early at a node that stops it;
* `Layers` : the invariant, for some depth of every node;
* `layers_of_breadthFirst` : **every scan keeps the invariant**;
* `exists_breadthFirst` : a search of finitely many nodes ends;
* `Layers.depth_le`, `Layers.reaches` : **the depth of a node is its distance** from the start;
* `exists_walkBack` : the recorded parents lead back along a shortest route.
-/

namespace Graphs

variable {ν ε δ : Type*}

/-- There is an edge, at unit cost. -/
def Joins (edges : ν → List (ν × ε)) (a b : ν) (k : ℕ) : Prop := k = 1 ∧ ∃ e, (b, e) ∈ edges a

theorem unitCost_joins {edges : ν → List (ν × ε)} : UnitCost (Joins edges) := fun _ _ _ h => h.1

/-- One node reaches another along edges exactly when some route leads there. -/
theorem visits_iff_reaches {edges : ν → List (ν × ε)} {a b : ν} :
    Visits (fun a => (edges a).map Prod.fst) a b ↔ ∃ C, Reaches (Joins edges) a b C := by
  constructor
  · intro h
    induction h with
    | refl => exact ⟨0, .refl a⟩
    | tail _ hbc ih =>
      obtain ⟨C, hC⟩ := ih
      obtain ⟨e, he, rfl⟩ := List.mem_map.1 hbc
      exact ⟨C + 1, hC.tail ⟨rfl, e.2, he⟩⟩
  · rintro ⟨C, l, hl⟩
    induction hl with
    | single => exact .refl
    | cons h _ ih =>
      obtain ⟨-, e, he⟩ := h
      exact .head (List.mem_map.2 ⟨_, he, rfl⟩) ih

/-! ### The search -/

/-- The nodes discovered so far. -/
@[ext]
structure Discovery (ν δ : Type*) where
  /-- The nodes, in the order of their discovery. -/
  order : List ν
  /-- Mark of a node. -/
  seen : ν → Bool
  /-- What is recorded of a node. -/
  data : ν → δ

section Search

variable [DecidableEq ν]

/-- Discover a node. -/
def Discovery.add (d : Discovery ν δ) (v : ν) (x : δ) : Discovery ν δ where
  order := d.order ++ [v]
  seen := Function.update d.seen v true
  data := Function.update d.data v x

variable (edges : ν → List (ν × ε)) (learn : ν → δ → ε → δ) (stop : ν → Bool)

/-- Scan the edges out of one node; the scan breaks off when it discovers a node that stops the
search. -/
def scanEdges (value : ε → δ) : List (ν × ε) → Discovery ν δ → Discovery ν δ × Bool
  | [], d => (d, false)
  | (v, e) :: es, d =>
    if d.seen v then scanEdges value es d
    else if stop v then (d.add v (value e), true)
    else scanEdges value es (d.add v (value e))

/-- Scan the discovered nodes from position `head` on; the search fails when the fuel ends
before the nodes do. -/
def breadthFirst : ℕ → ℕ → Discovery ν δ → Option (Discovery ν δ × Bool)
  | 0, head, d => if d.order.length ≤ head then some (d, false) else none
  | fuel + 1, head, d =>
    match d.order[head]? with
    | none => some (d, false)
    | some u =>
      let r := scanEdges stop (learn u (d.data u)) (edges u) d
      if r.2 then some r else breadthFirst fuel (head + 1) r.1

/-! ### The invariant -/

/-- **The layers of a search** from `start` that has scanned the first `head` nodes: the nodes
are sorted by depth, those to come lie at most one layer below the next one to scan, and each
was discovered along an edge from the layer above. -/
structure Layers (start : ν) (x₀ : δ) (depth : ν → ℕ) (head : ℕ) (d : Discovery ν δ) : Prop where
  /-- The start comes first. -/
  first : d.order[0]? = some start
  /-- The marked nodes are the listed ones. -/
  seen_iff : ∀ v, d.seen v = true ↔ v ∈ d.order
  /-- Every node is listed once. -/
  nodup : d.order.Nodup
  /-- The start is the top layer. -/
  depth_start : depth start = 0
  /-- What the search was given for the start. -/
  data_start : d.data start = x₀
  /-- Layer by layer. -/
  sorted : d.order.Pairwise fun a b => depth a ≤ depth b
  /-- No node lies deeper than the layer being discovered. -/
  near : ∀ u, d.order[head]? = some u → ∀ v ∈ d.order, depth v ≤ depth u + 1
  /-- Every other node was discovered from the layer above. -/
  led : ∀ v ∈ d.order, v ≠ start → ∃ u ∈ d.order, ∃ e, (v, e) ∈ edges u ∧
    depth v = depth u + 1 ∧ d.data v = learn u (d.data u) e
  /-- The successors of a scanned node are discovered. -/
  expanded : ∀ i < head, ∀ u, d.order[i]? = some u → ∀ p ∈ edges u,
    p.1 ∈ d.order ∧ depth p.1 ≤ depth u + 1

variable {edges learn stop} {start u v : ν} {x₀ : δ} {depth : ν → ℕ} {head fuel C : ℕ}
  {d d' : Discovery ν δ} {e : ε} {es : List (ν × ε)} {es' : List ε} {found : Bool}

/-- A search begins with its start alone. -/
theorem layers_start {seen : ν → Bool} {data : ν → δ} (hseen : ∀ w, seen w = false) :
    Layers edges learn start x₀ (fun _ => 0) 0
      ((⟨[], seen, data⟩ : Discovery ν δ).add start x₀) where
  first := rfl
  seen_iff w := by
    by_cases hw : w = start
    · subst hw; simp [Discovery.add]
    · simp [Discovery.add, hw, hseen]
  nodup := List.nodup_singleton _
  depth_start := rfl
  data_start := by simp [Discovery.add]
  sorted := List.pairwise_singleton _ _
  near _ _ _ _ := Nat.zero_le _
  led w hw hne := absurd (List.mem_singleton.1 hw) hne
  expanded _ hi := absurd hi (Nat.not_lt_zero _)

namespace Layers

omit [DecidableEq ν] in
theorem start_mem (L : Layers edges learn start x₀ depth head d) : start ∈ d.order :=
  List.mem_of_getElem? L.first

/-- **Discovering a node keeps the layers**: it is the last of the layer below. -/
theorem add (L : Layers edges learn start x₀ depth head d) (hu : d.order[head]? = some u)
    (hv : ¬ d.seen v = true) (he : (v, e) ∈ edges u) :
    Layers edges learn start x₀ (Function.update depth v (depth u + 1)) head
      (d.add v (learn u (d.data u) e)) := by
  rw [L.seen_iff] at hv
  have hlt := (List.getElem?_eq_some_iff.1 hu).1
  have hold {i : ℕ} (hi : i ≤ head) : (d.order ++ [v])[i]? = d.order[i]? :=
    List.getElem?_append_left (by omega)
  -- the nodes discovered before keep their depths and data
  have hne {w : ν} (hw : w ∈ d.order) : w ≠ v := fun h => hv (h ▸ hw)
  have hdepth {w : ν} (hw : w ∈ d.order) : Function.update depth v (depth u + 1) w = depth w :=
    Function.update_of_ne (hne hw) _ _
  have hdata {w : ν} (hw : w ∈ d.order) :
      Function.update d.data v (learn u (d.data u) e) w = d.data w :=
    Function.update_of_ne (hne hw) _ _
  have humem := List.mem_of_getElem? hu
  constructor
  · exact (hold (Nat.zero_le _)).trans L.first
  · intro w
    by_cases hw : w = v
    · subst hw; simp [Discovery.add]
    · simp [Discovery.add, hw, L.seen_iff]
  · exact List.nodup_append.2 ⟨L.nodup, List.nodup_singleton v, fun a ha b hb hab =>
      hv (by rwa [← List.mem_singleton.1 hb, ← hab])⟩
  · rw [hdepth L.start_mem, L.depth_start]
  · exact (hdata L.start_mem).trans L.data_start
  · show (d.order ++ [v]).Pairwise _
    rw [List.pairwise_append]
    refine ⟨L.sorted.imp_of_mem fun ha hb hab => ?_, List.pairwise_singleton _ _, fun a ha b hb => ?_⟩
    · rwa [hdepth ha, hdepth hb]
    · rw [List.mem_singleton.1 hb, hdepth ha, Function.update_self]
      exact L.near u hu a ha
  · intro w hw a ha
    obtain rfl : w = u := by
      rw [show (d.add v (learn u (d.data u) e)).order = d.order ++ [v] from rfl,
        hold le_rfl, hu, Option.some.injEq] at hw
      exact hw.symm
    rw [hdepth humem]
    rcases List.mem_append.1 ha with ha | ha
    · rw [hdepth ha]
      exact L.near w hu a ha
    · rw [List.mem_singleton.1 ha, Function.update_self]
  · intro w hw hws
    rcases List.mem_append.1 hw with hw | hw
    · obtain ⟨a, ha, b, hab, hda, hdat⟩ := L.led w hw hws
      refine ⟨a, List.mem_append_left _ ha, b, hab, ?_, ?_⟩
      · rw [hdepth hw, hdepth ha, hda]
      · exact (hdata hw).trans (hdat.trans (by rw [← hdata ha]; rfl))
    · obtain rfl := List.mem_singleton.1 hw
      refine ⟨u, List.mem_append_left _ humem, e, he, ?_, ?_⟩
      · rw [Function.update_self, hdepth humem]
      · refine (Function.update_self _ _ _).trans ?_
        exact congrArg (fun x => learn u x e) (hdata humem).symm
  · intro i hi w hw p hp
    rw [show (d.add v (learn u (d.data u) e)).order = d.order ++ [v] from rfl,
      hold (Nat.le_of_lt hi)] at hw
    obtain ⟨hmem, hle⟩ := L.expanded i hi w hw p hp
    rw [hdepth hmem, hdepth (List.mem_of_getElem? hw)]
    exact ⟨List.mem_append_left _ hmem, hle⟩

omit [DecidableEq ν] in
/-- A node whose successors are all discovered has been scanned. -/
theorem advance (L : Layers edges learn start x₀ depth head d) (hu : d.order[head]? = some u)
    (hall : ∀ p ∈ edges u, p.1 ∈ d.order ∧ depth p.1 ≤ depth u + 1) :
    Layers edges learn start x₀ depth (head + 1) d where
  __ := L
  near w hw a ha := by
    obtain ⟨hi, hu⟩ := List.getElem?_eq_some_iff.1 hu
    obtain ⟨hj, hw⟩ := List.getElem?_eq_some_iff.1 hw
    have hle := List.pairwise_iff_getElem.1 L.sorted head (head + 1) hi hj (Nat.lt_succ_self _)
    have hnear := L.near u (List.getElem?_eq_some_iff.2 ⟨hi, hu⟩) a ha
    rw [hu, hw] at hle
    omega
  expanded i hi w hw p hp := by
    rcases Nat.lt_succ_iff_lt_or_eq.1 hi with hi | rfl
    · exact L.expanded i hi w hw p hp
    · rw [hu, Option.some.injEq] at hw
      subst hw
      exact hall p hp

end Layers

variable (stop) in
/-- **A scan keeps the layers.** When it runs to its end, all successors are discovered; when it
breaks off, it has discovered a node that stops the search. -/
theorem layers_of_scanEdges {value : ε → δ} (hvalue : value = learn u (d.data u))
    (L : Layers edges learn start x₀ depth head d) (hu : d.order[head]? = some u)
    (hes : ∀ p ∈ es, p ∈ edges u)
    (hdone : ∀ p ∈ edges u, p ∉ es → p.1 ∈ d.order ∧ depth p.1 ≤ depth u + 1) :
    ∃ depth', Layers edges learn start x₀ depth' head (scanEdges stop value es d).1 ∧
      (scanEdges stop value es d).1.order[head]? = some u ∧
      ((scanEdges stop value es d).2 = true →
        ∃ v ∈ (scanEdges stop value es d).1.order, stop v = true) ∧
      ((scanEdges stop value es d).2 = false →
        (∀ p ∈ edges u, p.1 ∈ (scanEdges stop value es d).1.order ∧ depth' p.1 ≤ depth' u + 1) ∧
        ∀ v ∈ (scanEdges stop value es d).1.order, v ∈ d.order ∨ stop v = false) := by
  induction es generalizing d depth with
  | nil =>
    refine ⟨depth, L, hu, fun h => Bool.noConfusion h, fun _ => ⟨fun p hp => ?_, fun v hv => ?_⟩⟩
    · exact hdone p hp List.not_mem_nil
    · exact Or.inl hv
  | cons p es ih =>
    obtain ⟨v, e⟩ := p
    have he : (v, e) ∈ edges u := hes _ List.mem_cons_self
    have hes' : ∀ p ∈ es, p ∈ edges u := fun p hp => hes p (List.mem_cons_of_mem _ hp)
    have humem := List.mem_of_getElem? hu
    rw [scanEdges]
    split_ifs with hseen hstop
    · -- a node discovered before lies at most one layer below
      have hv := (L.seen_iff v).1 hseen
      refine ih hvalue L hu hes' fun p hp hpes => ?_
      by_cases hpv : p = (v, e)
      · subst hpv
        exact ⟨hv, L.near u hu v hv⟩
      · exact hdone p hp (by simp [hpv, hpes])
    · rw [hvalue]
      refine ⟨_, L.add hu hseen he, ?_, fun _ => ⟨v, ?_, hstop⟩, fun h => absurd h (by decide)⟩
      · exact (List.getElem?_append_left (List.getElem?_eq_some_iff.1 hu).1).trans hu
      · exact List.mem_append_right _ (List.mem_singleton.2 rfl)
    · have hv : v ∉ d.order := fun h => hseen ((L.seen_iff v).2 h)
      have hne : u ≠ v := fun h => hv (h ▸ humem)
      have hu' : (d.add v (value e)).order[head]? = some u :=
        (List.getElem?_append_left (List.getElem?_eq_some_iff.1 hu).1).trans hu
      have hvalue' : value = learn u ((d.add v (value e)).data u) := by
        rw [hvalue]
        exact congrArg _ (Function.update_of_ne hne _ _).symm
      have L' := L.add hu hseen he
      rw [← hvalue] at L'
      obtain ⟨depth', h1, h2, h3, h4⟩ := ih hvalue' L' hu' hes' fun p hp hpes => by
        rw [Function.update_of_ne hne]
        by_cases hpv : p.1 = v
        · rw [hpv, Function.update_self]
          exact ⟨List.mem_append_right _ (List.mem_singleton.2 rfl), le_rfl⟩
        · rw [Function.update_of_ne hpv]
          have hp' := hdone p hp (by
            rw [List.mem_cons, not_or]
            exact ⟨fun h => hpv (by rw [h]), hpes⟩)
          exact ⟨List.mem_append_left _ hp'.1, hp'.2⟩
      refine ⟨depth', h1, h2, h3, fun hf => ⟨(h4 hf).1, fun w hw => ?_⟩⟩
      rcases (h4 hf).2 w hw with hw | hw
      · rcases List.mem_append.1 hw with hw | hw
        · exact Or.inl hw
        · rw [List.mem_singleton.1 hw]
          exact Or.inr (Bool.not_eq_true _ ▸ hstop)
      · exact Or.inr hw

/-- **A search keeps the layers.** It ends with a node that stops it, or with every node scanned
and none that does. -/
theorem layers_of_breadthFirst (L : Layers edges learn start x₀ depth head d)
    (h : breadthFirst edges learn stop fuel head d = some (d', found)) :
    ∃ depth' head', Layers edges learn start x₀ depth' head' d' ∧
      (found = true → ∃ v ∈ d'.order, stop v = true) ∧
      (found = false → d'.order.length ≤ head' ∧
        ∀ v ∈ d'.order, v ∈ d.order ∨ stop v = false) := by
  induction fuel generalizing head d depth with
  | zero =>
    rw [breadthFirst] at h
    split_ifs at h with hlen
    · rw [Option.some.injEq, Prod.mk.injEq] at h
      obtain ⟨rfl, rfl⟩ := h
      exact ⟨depth, head, L, fun h => Bool.noConfusion h, fun _ => ⟨hlen, fun v hv => Or.inl hv⟩⟩
  | succ fuel ih =>
    rw [breadthFirst] at h
    cases hu : d.order[head]? with
    | none =>
      simp only [hu, Option.some.injEq, Prod.mk.injEq] at h
      obtain ⟨rfl, rfl⟩ := h
      exact ⟨depth, head, L, fun h => Bool.noConfusion h,
        fun _ => ⟨List.getElem?_eq_none_iff.1 hu, fun v hv => Or.inl hv⟩⟩
    | some u =>
      simp only [hu] at h
      obtain ⟨depth', L', hu', hfound, hall⟩ :=
        layers_of_scanEdges stop rfl L hu (fun _ hp => hp) fun p hp hno => absurd hp hno
      generalize hr : scanEdges stop (learn u (d.data u)) (edges u) d = r at h L' hu' hfound hall
      split_ifs at h with hstop
      · rw [Option.some.injEq] at h
        subst h
        exact ⟨depth', head, L', fun _ => hfound hstop,
          fun hf => absurd (hf.symm.trans hstop) (by decide)⟩
      · obtain ⟨hexp, hold⟩ := hall (Bool.not_eq_true _ ▸ hstop)
        obtain ⟨depth'', head'', L'', h1, h2⟩ := ih (L'.advance hu' hexp) h
        refine ⟨depth'', head'', L'', h1, fun hf => ⟨(h2 hf).1, fun v hv => ?_⟩⟩
        rcases (h2 hf).2 v hv with hv | hv
        · exact hold v hv
        · exact Or.inr hv

theorem order_of_scanEdges {value : ε → δ} (h : v ∈ (scanEdges stop value es d).1.order) :
    v ∈ d.order ∨ ∃ e, (v, e) ∈ es := by
  induction es generalizing d with
  | nil => exact Or.inl h
  | cons p es ih =>
    obtain ⟨w, e⟩ := p
    have hstep (h : v ∈ d.order ++ [w] ∨ ∃ e, (v, e) ∈ es) :
        v ∈ d.order ∨ ∃ b, (v, b) ∈ (w, e) :: es := by
      rcases h with h | ⟨b, hb⟩
      · rcases List.mem_append.1 h with h | h
        · exact Or.inl h
        · rw [List.mem_singleton.1 h]
          exact Or.inr ⟨e, List.mem_cons_self⟩
      · exact Or.inr ⟨b, List.mem_cons_of_mem _ hb⟩
    rw [scanEdges] at h
    split_ifs at h with hseen hstop
    · exact hstep ((ih h).imp_left (List.mem_append_left _))
    · exact hstep (Or.inl h)
    · exact hstep (ih h)

/-- **A search of finitely many nodes ends**: one unit of fuel for each node not yet scanned is
enough. -/
theorem exists_breadthFirst {U : Finset ν} (L : Layers edges learn start x₀ depth head d)
    (hU : ∀ a ∈ U, ∀ p ∈ edges a, p.1 ∈ U) (hd : ∀ v ∈ d.order, v ∈ U)
    (hfuel : U.card ≤ fuel + head) :
    ∃ r, breadthFirst edges learn stop fuel head d = some r := by
  induction fuel generalizing head d depth with
  | zero =>
    have hlen : d.order.length ≤ head := by
      rw [← List.toFinset_card_of_nodup L.nodup]
      refine le_trans (Finset.card_le_card fun v hv => hd v (List.mem_toFinset.1 hv)) ?_
      omega
    exact ⟨_, by rw [breadthFirst, if_pos hlen]⟩
  | succ fuel ih =>
    rw [breadthFirst]
    cases hu : d.order[head]? with
    | none => exact ⟨_, rfl⟩
    | some u =>
      have huU := hd u (List.mem_of_getElem? hu)
      obtain ⟨depth', L', hu', -, hall⟩ :=
        layers_of_scanEdges stop rfl L hu (fun _ hp => hp) fun p hp hno => absurd hp hno
      have hmem (v : ν) := @order_of_scanEdges _ _ _ _ stop v d (edges u) (learn u (d.data u))
      dsimp only
      generalize hr : scanEdges stop (learn u (d.data u)) (edges u) d = r at L' hu' hall hmem
      split_ifs with hstop
      · exact ⟨_, rfl⟩
      · refine ih (L'.advance hu' (hall (Bool.not_eq_true _ ▸ hstop)).1) (fun v hv => ?_) (by omega)
        rcases hmem v hv with hv | ⟨e, he⟩
        · exact hd v hv
        · exact hU u huU _ he

/-! ### Depth is distance -/

namespace Layers

omit [DecidableEq ν]

/-- A node has been scanned, or lies no higher than the next one to scan. -/
theorem scanned_or (L : Layers edges learn start x₀ depth head d) (hv : v ∈ d.order) :
    (∀ p ∈ edges v, p.1 ∈ d.order ∧ depth p.1 ≤ depth v + 1) ∨
      ∃ u, d.order[head]? = some u ∧ depth u ≤ depth v := by
  obtain ⟨i, hi, rfl⟩ := List.mem_iff_getElem.1 hv
  rcases Nat.lt_or_ge i head with hlt | hge
  · exact Or.inl (L.expanded i hlt _ (List.getElem?_eq_getElem hi))
  · have hhead : head < d.order.length := by omega
    refine Or.inr ⟨_, List.getElem?_eq_getElem hhead, ?_⟩
    rcases Nat.lt_or_eq_of_le hge with hlt | rfl
    · exact List.pairwise_iff_getElem.1 L.sorted head i hhead hi hlt
    · exact le_rfl

/-- A route leads to a discovered node no deeper than it is long, unless the search has only come
to a layer above its end. -/
theorem discovered_or (L : Layers edges learn start x₀ depth head d)
    (hr : Reaches (Joins edges) u v C) (hu : u ∈ d.order) :
    (v ∈ d.order ∧ depth v ≤ depth u + C) ∨
      ∃ w, d.order[head]? = some w ∧ depth w < depth u + C := by
  obtain ⟨l, hr⟩ := hr
  induction hr with
  | single => exact Or.inl ⟨hu, le_rfl⟩
  | @cons a b c l k C he hr ih =>
    obtain ⟨rfl, e, he⟩ := he
    rcases L.scanned_or hu with hall | ⟨w, hw, hle⟩
    · obtain ⟨hb, hdepth : depth b ≤ depth a + 1⟩ := hall _ he
      rcases ih hb with ⟨hc, h⟩ | ⟨w, hw, h⟩
      · exact Or.inl ⟨hc, by omega⟩
      · exact Or.inr ⟨w, hw, by omega⟩
    · exact Or.inr ⟨w, hw, by omega⟩

/-- **No route to a discovered node is shorter than its depth.** -/
theorem depth_le (L : Layers edges learn start x₀ depth head d) (hv : v ∈ d.order)
    (hr : Reaches (Joins edges) start v C) : depth v ≤ C := by
  rcases L.discovered_or hr L.start_mem with ⟨-, h⟩ | ⟨w, hw, h⟩
  · rwa [L.depth_start, Nat.zero_add] at h
  · have hnear := L.near w hw v hv
    rw [L.depth_start] at h
    omega

/-- **A finished search has discovered what the start reaches.** -/
theorem mem_of_reaches (L : Layers edges learn start x₀ depth head d)
    (hdone : d.order.length ≤ head) (hr : Reaches (Joins edges) start v C) : v ∈ d.order := by
  rcases L.discovered_or hr L.start_mem with ⟨h, -⟩ | ⟨w, hw, -⟩
  · exact h
  · rw [List.getElem?_eq_none hdone] at hw
    cases hw

theorem eq_start (L : Layers edges learn start x₀ depth head d) (hv : v ∈ d.order)
    (h : depth v = 0) : v = start := by
  by_contra hne
  obtain ⟨u, -, e, -, hd, -⟩ := L.led v hv hne
  omega

/-- **The depth of a discovered node is the length of a route to it.** -/
theorem reaches (L : Layers edges learn start x₀ depth head d) (hv : v ∈ d.order) :
    Reaches (Joins edges) start v (depth v) := by
  induction hn : depth v generalizing v with
  | zero =>
    rw [L.eq_start hv hn]
    exact .refl start
  | succ n ih =>
    have hne : v ≠ start := fun h => by rw [h, L.depth_start] at hn; cases hn
    obtain ⟨u, hu, e, he, hd, -⟩ := L.led v hv hne
    exact (ih hu (by omega)).tail ⟨rfl, e, he⟩

/-- A discovered node lies less deep than there are nodes. -/
theorem depth_lt_card {U : Finset ν} (L : Layers edges learn start x₀ depth head d)
    (hU : ∀ a ∈ U, ∀ p ∈ edges a, p.1 ∈ U) (hs : start ∈ U) (hv : v ∈ d.order) :
    depth v < U.card := by
  obtain ⟨l, hl⟩ := L.reaches hv
  refine hl.lt_card_of_least unitCost_joins (fun C hC => L.depth_le hv hC) fun w C hw => ?_
  obtain ⟨m, hm⟩ := hw
  refine hm.forall_mem (P := (· ∈ U)) hs (fun a b k hab ha => ?_) w hm.right_mem
  obtain ⟨-, e, he⟩ := hab
  exact hU a ha _ he

end Layers

/-! ### Walking back -/

/-- The nodes of a walk and the edges between them. -/
inductive Trail (edges : ν → List (ν × ε)) : List ν → List ε → ν → ν → Prop
  | single (a : ν) : Trail edges [a] [] a a
  | snoc {a b c : ν} {ns : List ν} {es : List ε} {e : ε} :
      Trail edges ns es a b → (c, e) ∈ edges b → Trail edges (ns ++ [c]) (es ++ [e]) a c

namespace Trail

omit [DecidableEq ν]
variable {ns : List ν} {a b : ν}

theorem length_eq (h : Trail edges ns es' a b) : ns.length = es'.length + 1 := by
  induction h with
  | single => rfl
  | snoc _ _ ih => rw [List.length_append, List.length_append, ih]; rfl

theorem getLast? (h : Trail edges ns es' a b) : ns.getLast? = some b := by
  cases h with
  | single => rfl
  | snoc => simp

/-- A walk is a route of as many steps as it has edges. -/
theorem isRoute (h : Trail edges ns es' a b) : IsRoute (Joins edges) ns a b es'.length := by
  induction h with
  | single => exact .single _
  | snoc _ he ih =>
    rw [List.length_append]
    exact ih.snoc ⟨rfl, _, he⟩

/-- **Each edge of a walk joins the node at its position to the next one.** -/
theorem joins {i : ℕ} (h : Trail edges ns es' a b) (he : es'[i]? = some e) :
    ∃ u w, ns[i]? = some u ∧ ns[i + 1]? = some w ∧ (w, e) ∈ edges u := by
  induction h with
  | single => cases he
  | @snoc a b c ns es' e' h hc ih =>
    have hlen := h.length_eq
    rcases Nat.lt_or_ge i es'.length with hlt | hge
    · rw [List.getElem?_append_left hlt] at he
      obtain ⟨u, w, hu, hw, hjoin⟩ := ih he
      refine ⟨u, w, ?_, ?_, hjoin⟩
      · rwa [List.getElem?_append_left (by omega)]
      · rwa [List.getElem?_append_left (by omega)]
    · rw [List.getElem?_append_right hge, List.getElem?_singleton] at he
      split_ifs at he with h0
      rw [Option.some.injEq] at he
      subst he
      refine ⟨b, c, ?_, ?_, hc⟩
      · rw [List.getElem?_append_left (by omega), ← h.getLast?, List.getLast?_eq_getElem?]
        congr 1
        omega
      · rw [List.getElem?_append_right (by omega), hlen]
        rw [show i + 1 - (es'.length + 1) = 0 by omega]
        rfl

end Trail

/-- Follow the recorded parents from a node back to the start: the nodes passed, and what is
recorded between them. -/
def walkBack (start : ν) (parent : ν → ν) (via : ν → ε) : ℕ → ν → Option (List ν × List ε)
  | 0, v => if v = start then some ([v], []) else none
  | fuel + 1, v =>
    if v = start then some ([v], [])
    else (walkBack start parent via fuel (parent v)).map fun r => (v :: r.1, via v :: r.2)

/-- **The recorded parents lead back along a shortest route**, when a node records the parent and
the edge it was discovered by. -/
theorem exists_walkBack {data : Discovery ν (ν × ε)} {x₀ : ν × ε}
    (L : Layers edges (fun u _ e => (u, e)) start x₀ depth head data) (hv : v ∈ data.order)
    (hfuel : depth v ≤ fuel) :
    ∃ ns es, walkBack start (fun w => (data.data w).1) (fun w => (data.data w).2) fuel v =
        some (ns, es) ∧
      es.length = depth v ∧ Trail edges ns.reverse es.reverse start v := by
  induction fuel generalizing v with
  | zero =>
    obtain rfl := L.eq_start hv (Nat.le_zero.1 hfuel)
    refine ⟨[v], [], by rw [walkBack, if_pos rfl], L.depth_start.symm, .single v⟩
  | succ fuel ih =>
    rw [walkBack]
    by_cases hs : v = start
    · subst hs
      exact ⟨[v], [], by rw [if_pos rfl], L.depth_start.symm, .single v⟩
    · obtain ⟨u, hu, e, he, hd, hdata⟩ := L.led v hv hs
      obtain ⟨ns, es, hwalk, hlen, htrail⟩ := ih hu (by omega)
      refine ⟨v :: ns, e :: es, ?_, ?_, ?_⟩
      · rw [if_neg hs, hdata, hwalk]
        rfl
      · rw [List.length_cons, hlen, hd]
      · rw [List.reverse_cons, List.reverse_cons]
        exact htrail.snoc he

end Search

end Graphs
