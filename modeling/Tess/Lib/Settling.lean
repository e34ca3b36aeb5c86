import Tess.Lib.Walk

/-!
# Settling from weighted seeds

A search from several seeds, each with a cost of its own, over edges that may cost nothing.  Costs
from the sentinel on are not kept: a node that only such a cost is known for has the sentinel as
its label.  The search settles an open node whose label is least among those queued, and then
offers the node's out-edges one by one.

* `ReachedAt` : the costs at which a node is reached from the seeds;
* `Settling.Inv` : what holds between any two steps, while the edges in `todo` are still to be
  offered;
* `Settling.Inv.seed`, `.lower`, `.hold`, `.settle`, `.offered`, `.requeue` : **one rule for each
  kind of step** of a search;
* `Settling.Inv.least` : a settled label is the least cost, whatever the sentinel;
* `Settling.Inv.settled_of_reached`, `.exists_held` : what an exhausted search has settled;
* `Settling.Traced` : the predecessors lead back to a seed, also over edges of no cost.
-/

namespace Graphs

variable {ν : Type*}

/-- The node is reached from a seed at the given cost. -/
inductive ReachedAt (seeds : ν → ℕ → Prop) (edge : ν → ν → ℕ → Prop) : ν → ℕ → Prop
  | seed {v : ν} {c : ℕ} (h : seeds v c) : ReachedAt seeds edge v c
  | step {u v : ν} {c k : ℕ} (h : ReachedAt seeds edge u c) (he : edge u v k) :
      ReachedAt seeds edge v (c + k)

theorem ReachedAt.mono {seeds seeds' : ν → ℕ → Prop} {edge : ν → ν → ℕ → Prop}
    (hs : ∀ v c, seeds v c → seeds' v c) {v : ν} {c : ℕ} (h : ReachedAt seeds edge v c) :
    ReachedAt seeds' edge v c := by
  induction h with
  | seed h => exact .seed (hs _ _ h)
  | step _ he ih => exact .step ih he

/-- What a search knows about the nodes. -/
structure Settling (ν : Type*) where
  /-- Label of a node that has one. -/
  cost : ν → Option ℕ
  /-- Node before this one, and the cost of the edge between them. -/
  pred : ν → Option (ν × ℕ)
  /-- The label is final. -/
  settled : ν → Prop

namespace Settling

/-- The predecessors of the node lead back to a seed, and the labels on the way add up. -/
inductive Traced (L : Settling ν) (seeds : ν → ℕ → Prop) (edge : ν → ν → ℕ → Prop) : ν → Prop
  | seed {v : ν} {c : ℕ} (hs : seeds v c) (hp : L.pred v = none) (hc : L.cost v = some c) :
      Traced L seeds edge v
  | step {u v : ν} {c k : ℕ} (hu : Traced L seeds edge u) (hset : L.settled u)
      (hcu : L.cost u = some c) (he : edge u v k) (hp : L.pred v = some (u, k))
      (hcv : L.cost v = some (c + k)) : Traced L seeds edge v

/-- **The invariant of a search** between two of its steps. -/
structure Inv (L : Settling ν) (seeds : ν → ℕ → Prop) (edge : ν → ν → ℕ → Prop) (M : ℕ)
    (queue : ν → ℕ → Prop) (todo : ν → ν → ℕ → Prop) : Prop where
  /-- Labels do not exceed the sentinel. -/
  le : ∀ v c, L.cost v = some c → c ≤ M
  /-- A label below the sentinel is the cost of the way back to a seed. -/
  traced : ∀ v c, L.cost v = some c → c < M → L.Traced seeds edge v
  /-- A node with the sentinel as its label is reached at some cost. -/
  held : ∀ v, L.cost v = some M → ∃ c, ReachedAt seeds edge v c
  /-- Settled labels are below the sentinel and least. -/
  least : ∀ v, L.settled v → ∃ c, L.cost v = some c ∧ c < M ∧
    ∀ C, ReachedAt seeds edge v C → c ≤ C
  /-- No label of a seed exceeds the seed's cost. -/
  seeded : ∀ v c, seeds v c → ∃ c' ≤ c, L.cost v = some c'
  /-- Every edge out of a settled node has been offered, up to those still to be. -/
  relaxed : ∀ u v c k, L.settled u → L.cost u = some c → edge u v k → ¬ todo u v k →
    ∃ c' ≤ c + k, L.cost v = some c'
  /-- Open nodes with a label below the sentinel are queued under it. -/
  queued : ∀ v c, L.cost v = some c → c < M → ¬ L.settled v → queue v c

variable {L L' : Settling ν} {seeds seeds' : ν → ℕ → Prop} {edge : ν → ν → ℕ → Prop} {M : ℕ}
  {queue queue' : ν → ℕ → Prop} {todo todo' : ν → ν → ℕ → Prop} {u v w : ν} {c k C : ℕ}

/-- The cost of the way back is one at which the node is reached. -/
theorem Traced.reachedAt (h : L.Traced seeds edge v) (hc : L.cost v = some c) :
    ReachedAt seeds edge v c := by
  induction h generalizing c with
  | seed hs _ hc' => exact Option.some.inj (hc'.symm.trans hc) ▸ .seed hs
  | step _ _ hcu he _ hcv ih => exact Option.some.inj (hcv.symm.trans hc) ▸ .step (ih hcu) he

/-- Nodes before the last are settled, so labels may change elsewhere. -/
theorem Traced.congr (hseed : ∀ v c, seeds v c → seeds' v c)
    (hset : ∀ u, L.settled u → L'.settled u)
    (hcost : ∀ u, L.settled u → L'.cost u = L.cost u) (hpred : ∀ u, L.settled u →
      L'.pred u = L.pred u) (h : L.Traced seeds edge v) (hv : L'.cost v = L.cost v)
    (hpv : L'.pred v = L.pred v) : L'.Traced seeds' edge v := by
  induction h with
  | seed hs hp hc => exact .seed (hseed _ _ hs) (hpv.trans hp) (hv.trans hc)
  | step _ hu hcu he hp hcv ih =>
    exact .step (ih (hcost _ hu) (hpred _ hu)) (hset _ hu) ((hcost _ hu).trans hcu) he
      (hpv.trans hp) (hv.trans hcv)

theorem inv_empty (hc : ∀ v, L.cost v = none) (hs : ∀ v, ¬ L.settled v)
    (hseed : ∀ v c, ¬ seeds v c) : L.Inv seeds edge M queue todo := by
  constructor
  · exact fun v c h => by rw [hc] at h; cases h
  · exact fun v c h => by rw [hc] at h; cases h
  · exact fun v h => by rw [hc] at h; cases h
  · exact fun v h => absurd h (hs v)
  · exact fun v c h => absurd h (hseed v c)
  · exact fun u v c k h => absurd h (hs u)
  · exact fun v c h => by rw [hc] at h; cases h

namespace Inv

/-- The queue may lose any entry that is not the label of an open node. -/
theorem requeue (I : L.Inv seeds edge M queue todo)
    (hq : ∀ v c, L.cost v = some c → c < M → ¬ L.settled v → queue v c → queue' v c) :
    L.Inv seeds edge M queue' todo :=
  { I with queued := fun v c hc hlt hv => hq v c hc hlt hv (I.queued v c hc hlt hv) }

/-- Edges whose targets have small enough labels need not be offered any more. -/
theorem offered (I : L.Inv seeds edge M queue todo)
    (ht : ∀ u v c k, L.settled u → L.cost u = some c → edge u v k → todo u v k → ¬ todo' u v k →
      ∃ c' ≤ c + k, L.cost v = some c') : L.Inv seeds edge M queue todo' := by
  refine { I with relaxed := fun u v c k hu hc he hn => ?_ }
  by_cases htd : todo u v k
  · exact ht u v c k hu hc he htd hn
  · exact I.relaxed u v c k hu hc he htd

/-- **What stands on the way** to a node: its own final label, an entry of the queue that is no
worse, or the sentinel. -/
theorem trichotomy (I : L.Inv seeds edge M queue (fun _ _ _ => False))
    (h : ReachedAt seeds edge v C) : (L.settled v ∧ ∃ c ≤ C, L.cost v = some c) ∨
      (∃ w x, queue w x ∧ x ≤ C) ∨ M ≤ C := by
  have hknown {v : ν} {c C : ℕ} (hc : L.cost v = some c) (hle : c ≤ C) :
      (L.settled v ∧ ∃ c ≤ C, L.cost v = some c) ∨ (∃ w x, queue w x ∧ x ≤ C) ∨ M ≤ C := by
    by_cases hv : L.settled v
    · exact Or.inl ⟨hv, c, hle, hc⟩
    · rcases Nat.lt_or_eq_of_le (I.le v c hc) with hlt | rfl
      · exact Or.inr (Or.inl ⟨v, c, I.queued v c hc hlt hv, hle⟩)
      · exact Or.inr (Or.inr hle)
  induction h with
  | seed hs =>
    obtain ⟨c', hle, hc'⟩ := I.seeded _ _ hs
    exact hknown hc' hle
  | @step u v C k _ he ih =>
    rcases ih with ⟨hu, a, ha, hcu⟩ | ⟨w, x, hq, hx⟩ | hM
    · obtain ⟨c', hle, hc'⟩ := I.relaxed u v a k hu hcu he id
      exact hknown hc' (by omega)
    · exact Or.inr (Or.inl ⟨w, x, hq, by omega⟩)
    · exact Or.inr (Or.inr (by omega))

/-- **Settling** the node of a least entry: its out-edges are now to be offered. -/
theorem settle (I : L.Inv seeds edge M queue (fun _ _ _ => False)) (hc : L.cost v = some c)
    (hlt : c < M) (hv : ¬ L.settled v) (hmin : ∀ w x, queue w x → c ≤ x)
    (hcost : ∀ w, L'.cost w = L.cost w) (hpred : ∀ w, L'.pred w = L.pred w)
    (hset : ∀ w, L'.settled w ↔ L.settled w ∨ w = v)
    (hq : ∀ w x, w ≠ v → queue w x → queue' w x) (ht : ∀ w k, edge v w k → todo v w k) :
    L'.Inv seeds edge M queue' todo := by
  constructor
  · exact fun w x hx => I.le w x (hcost w ▸ hx)
  · intro w x hx hlt'
    rw [hcost] at hx
    exact (I.traced w x hx hlt').congr (fun _ _ h => h) (fun u hu => (hset u).2 (Or.inl hu))
      (fun u _ => hcost u) (fun u _ => hpred u) (hcost w) (hpred w)
  · exact fun w hw => I.held w (hcost w ▸ hw)
  · intro w hw
    rcases (hset w).1 hw with hw | rfl
    · obtain ⟨x, hx, h1, h2⟩ := I.least w hw
      exact ⟨x, (hcost w).trans hx, h1, h2⟩
    · refine ⟨c, (hcost w).trans hc, hlt, fun C hC => ?_⟩
      -- the least entry is no worse than what stands on the way
      rcases I.trichotomy hC with ⟨hs, -⟩ | ⟨x, y, hxy, hle⟩ | hM
      · exact absurd hs hv
      · exact (hmin x y hxy).trans hle
      · omega
  · intro w x hx
    rw [hcost]
    exact I.seeded w x hx
  · intro u w x k hu hx he hn
    rw [hcost] at hx ⊢
    rcases (hset u).1 hu with hu | rfl
    · exact I.relaxed u w x k hu hx he id
    · exact absurd (ht w k he) hn
  · intro w x hx hlt' hw
    rw [hcost] at hx
    rw [hset, not_or] at hw
    exact hq w x hw.2 (I.queued w x hx hlt' hw.1)

/-- Where a label is put: at an open node, and not above one that is there. -/
theorem put [DecidableEq ν] (I : L.Inv seeds edge M queue todo) (hv : ¬ L.settled v)
    (hle : c ≤ M) (hlow : ∀ x, L.cost v = some x → c ≤ x)
    (hcost : ∀ w, L'.cost w = if w = v then some c else L.cost w)
    (hpred : ∀ w, w ≠ v → L'.pred w = L.pred w) (hset : ∀ w, L'.settled w ↔ L.settled w)
    (hseed : ∀ w x, seeds w x → seeds' w x)
    (hnew : ∀ w x, seeds' w x → seeds w x ∨ w = v ∧ c ≤ x)
    (hreach : ∀ w C, L.settled w → ReachedAt seeds' edge w C → ∃ x ≤ C, L.cost w = some x)
    (htraced : c < M → L'.Traced seeds' edge v) (hheld : c = M → ∃ x, ReachedAt seeds' edge v x)
    (hq : ∀ w x, w ≠ v → queue w x → queue' w x) (hqv : c < M → queue' v c) :
    L'.Inv seeds' edge M queue' todo := by
  have hne : ∀ w, L.settled w → w ≠ v := fun w hw hwv => hv (hwv ▸ hw)
  have hsame : ∀ w, L.settled w → L'.cost w = L.cost w := fun w hw => by
    rw [hcost, if_neg (hne w hw)]
  constructor
  · intro w x hx
    rw [hcost] at hx
    split_ifs at hx with hwv
    · exact Option.some.inj hx ▸ hle
    · exact I.le w x hx
  · intro w x hx hlt
    rw [hcost] at hx
    split_ifs at hx with hwv
    · subst hwv
      exact htraced (Option.some.inj hx ▸ hlt)
    · exact (I.traced w x hx hlt).congr hseed (fun u hu => (hset u).2 hu) hsame
        (fun u hu => hpred u (hne u hu)) (by rw [hcost, if_neg hwv]) (hpred w hwv)
  · intro w hw
    rw [hcost] at hw
    split_ifs at hw with hwv
    · subst hwv
      exact hheld (Option.some.inj hw)
    · obtain ⟨x, hx⟩ := I.held w hw
      exact ⟨x, hx.mono hseed⟩
  · intro w hw
    rw [hset] at hw
    obtain ⟨x, hx, hlt, -⟩ := I.least w hw
    refine ⟨x, (hsame w hw).trans hx, hlt, fun C hC => ?_⟩
    obtain ⟨y, hy, hwy⟩ := hreach w C hw hC
    exact Option.some.inj (hx.symm.trans hwy) ▸ hy
  · intro w x hx
    rw [hcost]
    rcases hnew w x hx with hx | ⟨rfl, hx⟩
    · obtain ⟨y, hy, hwy⟩ := I.seeded w x hx
      split_ifs with hwv
      · subst hwv
        exact ⟨c, (hlow y hwy).trans hy, rfl⟩
      · exact ⟨y, hy, hwy⟩
    · exact ⟨c, hx, if_pos rfl⟩
  · intro u w x k hu hx he hn
    rw [hset] at hu
    rw [hsame u hu] at hx
    obtain ⟨y, hy, hwy⟩ := I.relaxed u w x k hu hx he hn
    rw [hcost]
    split_ifs with hwv
    · subst hwv
      exact ⟨c, (hlow y hwy).trans hy, rfl⟩
    · exact ⟨y, hy, hwy⟩
  · intro w x hx hlt hw
    rw [hset] at hw
    rw [hcost] at hx
    split_ifs at hx with hwv
    · subst hwv
      obtain rfl := Option.some.inj hx
      exact hqv hlt
    · exact hq w x hwv (I.queued w x hx hlt hw)

/-- **Lowering** the label of an open node over an edge from a settled one. -/
theorem lower [DecidableEq ν] (I : L.Inv seeds edge M queue todo) (hu : L.settled u)
    (hcu : L.cost u = some c) (he : edge u v k) (hv : ¬ L.settled v) (hM : c + k < M)
    (hlow : ∀ x, L.cost v = some x → c + k ≤ x)
    (hcost : ∀ w, L'.cost w = if w = v then some (c + k) else L.cost w)
    (hpred : ∀ w, L'.pred w = if w = v then some (u, k) else L.pred w)
    (hset : ∀ w, L'.settled w ↔ L.settled w)
    (hq : ∀ w x, w ≠ v → queue w x → queue' w x) (hqv : queue' v (c + k)) :
    L'.Inv seeds edge M queue' todo := by
  have huv : u ≠ v := fun h => hv (h ▸ hu)
  have hlt : c < M := by omega
  refine I.put hv hM.le hlow hcost (fun w hw => by rw [hpred, if_neg hw]) hset (fun _ _ h => h)
    (fun _ _ h => Or.inl h) (fun w C hw hC => ?_) (fun _ => ?_) (fun h => absurd h hM.ne) hq
    fun _ => hqv
  · obtain ⟨x, hx, -, hmin⟩ := I.least w hw
    exact ⟨x, hmin C hC, hx⟩
  · have hcu' : L'.cost u = some c := by rw [hcost, if_neg huv, hcu]
    refine .step ?_ ((hset u).2 hu) hcu' he (by rw [hpred, if_pos rfl]) (by rw [hcost, if_pos rfl])
    have hne : ∀ w, L.settled w → w ≠ v := fun w hw hwv => hv (hwv ▸ hw)
    exact (I.traced u c hcu hlt).congr (fun _ _ h => h) (fun w hw => (hset w).2 hw)
      (fun w hw => by rw [hcost, if_neg (hne w hw)]) (fun w hw => by rw [hpred, if_neg (hne w hw)])
      (by rw [hcost, if_neg huv]) (by rw [hpred, if_neg huv])

/-- **Holding** a node that an edge reaches beyond the sentinel only, so far. -/
theorem hold [DecidableEq ν] (I : L.Inv seeds edge M queue todo) (hu : L.settled u)
    (he : edge u v k) (hnone : L.cost v = none)
    (hcost : ∀ w, L'.cost w = if w = v then some M else L.cost w)
    (hpred : ∀ w, w ≠ v → L'.pred w = L.pred w) (hset : ∀ w, L'.settled w ↔ L.settled w) :
    L'.Inv seeds edge M queue todo := by
  have hv : ¬ L.settled v := fun h => by
    obtain ⟨x, hx, -⟩ := I.least v h
    rw [hnone] at hx
    cases hx
  obtain ⟨c', hc', hlt, -⟩ := I.least u hu
  refine I.put hv le_rfl (fun x hx => by rw [hnone] at hx; cases hx) hcost hpred hset
    (fun _ _ h => h) (fun _ _ h => Or.inl h) (fun w C hw hC => ?_)
    (fun h => absurd h (lt_irrefl M)) (fun _ => ?_) (fun _ _ _ h => h)
    fun h => absurd h (lt_irrefl M)
  · obtain ⟨x, hx, -, hmin⟩ := I.least w hw
    exact ⟨x, hmin C hC, hx⟩
  · exact ⟨_, .step ((I.traced u c' hc' hlt).reachedAt hc') he⟩

/-- **Seeding** a node while nothing is settled yet. -/
theorem seed [DecidableEq ν] (I : L.Inv seeds edge M queue todo) (hnone : ∀ w, ¬ L.settled w)
    (hM : c < M) (hlow : ∀ x, L.cost v = some x → c ≤ x)
    (hseed : ∀ w x, seeds' w x ↔ seeds w x ∨ w = v ∧ x = c)
    (hcost : ∀ w, L'.cost w = if w = v then some c else L.cost w)
    (hpred : ∀ w, L'.pred w = if w = v then none else L.pred w)
    (hset : ∀ w, L'.settled w ↔ L.settled w)
    (hq : ∀ w x, w ≠ v → queue w x → queue' w x) (hqv : queue' v c) :
    L'.Inv seeds' edge M queue' todo := by
  refine I.put (hnone v) hM.le hlow hcost (fun w hw => by rw [hpred, if_neg hw]) hset
    (fun w x h => (hseed w x).2 (Or.inl h)) (fun w x h => ?_)
    (fun w C hw => absurd hw (hnone w)) (fun _ => ?_) (fun h => absurd h hM.ne) hq fun _ => hqv
  · exact ((hseed w x).1 h).imp_right fun h => ⟨h.1, h.2.ge⟩
  · exact .seed ((hseed v c).2 (Or.inr ⟨rfl, rfl⟩)) (by rw [hpred, if_pos rfl])
      (by rw [hcost, if_pos rfl])

/-- **A seed that is no better** than the label of its node. -/
theorem reseed (I : L.Inv seeds edge M queue todo) (hnone : ∀ w, ¬ L.settled w)
    (hlow : ∃ x ≤ c, L.cost v = some x)
    (hseed : ∀ w x, seeds' w x ↔ seeds w x ∨ w = v ∧ x = c) : L.Inv seeds' edge M queue todo := by
  have hsub : ∀ w x, seeds w x → seeds' w x := fun w x h => (hseed w x).2 (Or.inl h)
  constructor
  · exact I.le
  · exact fun w x hx hlt => (I.traced w x hx hlt).congr hsub (fun _ h => h) (fun _ _ => rfl)
      (fun _ _ => rfl) rfl rfl
  · exact fun w hw => (I.held w hw).imp fun _ h => h.mono hsub
  · exact fun w hw => absurd hw (hnone w)
  · intro w x hx
    rcases (hseed w x).1 hx with hx | ⟨rfl, rfl⟩
    · exact I.seeded w x hx
    · exact hlow
  · exact I.relaxed
  · exact I.queued

/-! ### Exhausted searches -/

/-- An exhausted search that holds no node has settled every node that is reached at all. -/
theorem settled_of_reached (I : L.Inv seeds edge M queue (fun _ _ _ => False))
    (hq : ∀ w x, ¬ queue w x) (hheld : ∀ w, L.cost w ≠ some M) (h : ReachedAt seeds edge v C) :
    L.settled v := by
  have hknown {v : ν} {c : ℕ} (hc : L.cost v = some c) : L.settled v := by
    by_contra hv
    have hlt : c < M := lt_of_le_of_ne (I.le v c hc) fun h => hheld v (h ▸ hc)
    exact hq v c (I.queued v c hc hlt hv)
  induction h with
  | seed hs =>
    obtain ⟨c', -, hc'⟩ := I.seeded _ _ hs
    exact hknown hc'
  | @step u v C k _ he ih =>
    obtain ⟨a, ha, -, -⟩ := I.least u ih
    obtain ⟨c', -, hc'⟩ := I.relaxed u v a k ih ha he id
    exact hknown hc'

/-- An exhausted search has settled every node that is reached below the sentinel. -/
theorem settled_of_reached_lt (I : L.Inv seeds edge M queue (fun _ _ _ => False))
    (hq : ∀ w x, ¬ queue w x) (h : ReachedAt seeds edge v C) (hlt : C < M) : L.settled v := by
  rcases I.trichotomy h with ⟨hs, -⟩ | ⟨w, x, hwx, -⟩ | hM
  · exact hs
  · exact absurd hwx (hq w x)
  · omega

/-- **A node that is still held** when the search is exhausted is reached, and beyond the sentinel
only. -/
theorem exists_held (I : L.Inv seeds edge M queue (fun _ _ _ => False)) (hq : ∀ w x, ¬ queue w x)
    (hv : L.cost v = some M) :
    (∃ c, ReachedAt seeds edge v c) ∧ ∀ c, ReachedAt seeds edge v c → M ≤ c := by
  refine ⟨I.held v hv, fun c hc => not_lt.1 fun hlt => ?_⟩
  obtain ⟨x, hx, hxM, -⟩ := I.least v (I.settled_of_reached_lt hq hc hlt)
  have := Option.some.inj (hx.symm.trans hv)
  omega

end Inv

end Settling

end Graphs
