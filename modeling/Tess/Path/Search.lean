import Tess.Path.Scratch
import Tess.Topology.Legal
import Mathlib.Algebra.BigOperators.Group.Finset.Basic
import Mathlib.Algebra.Order.BigOperators.Group.Finset

/-!
# The heap search

The main loop of `weighted_astar_path`: pop the best node of the heap, skip it when it is
stale, close it, stop at the goal, offer its out-edges otherwise.

* `relaxProbe`, `weightedLoop`, `heapSearch` : the loop as the source runs it;
* `tileLabels` : the labels, parents and closed marks the node arrays hold for the tiles;
* `HeapInv` : the invariant of the loop, an instance of the label-setting invariant;
* `HeapInv.relaxProbe`, `HeapInv.foldl_relaxProbe` : one offered edge, and all edges of a tile;
* `weightedLoop_spec` : **the loop ends within its fuel**, at a closed goal or with an empty
  heap, and the invariant holds of where it ended.
-/

namespace Tess

open Graphs

/-- The mutable locals of a search loop. -/
structure SearchState where
  /-- Caller-owned storage. -/
  scratch : PathScratch
  /-- Tiles closed so far. -/
  expandedNodes : ℕ := 0
  /-- A neighbour was skipped because its chunk is missing. -/
  crossedMissing : Bool := false
  /-- A cost reached the sentinel. -/
  costOverflow : Bool := false

namespace PathScratch

/-- Replace the open list, as popping one of its entries does. -/
def setOpen (s : PathScratch) (l : List PackedOpenNode) : PathScratch := { s with openList := l }

@[simp] theorem openList_setOpen (s : PathScratch) (l : List PackedOpenNode) :
    (s.setOpen l).openList = l := rfl

@[simp] theorem stateAt_setOpen (s : PathScratch) (l : List PackedOpenNode) :
    (s.setOpen l).stateAt = s.stateAt := rfl

@[simp] theorem gAt_setOpen (s : PathScratch) (l : List PackedOpenNode) :
    (s.setOpen l).gAt = s.gAt := rfl

@[simp] theorem isCurrent_setOpen (s : PathScratch) (l : List PackedOpenNode) :
    (s.setOpen l).isCurrent = s.isCurrent := rfl

/-- Push a node on the open list. -/
def push (s : PathScratch) (n : PackedOpenNode) : PathScratch :=
  { s with openList := n :: s.openList }

@[simp] theorem openList_push (s : PathScratch) (n : PackedOpenNode) :
    (s.push n).openList = n :: s.openList := rfl

@[simp] theorem stateAt_push (s : PathScratch) (n : PackedOpenNode) :
    (s.push n).stateAt = s.stateAt := rfl

@[simp] theorem gAt_push (s : PathScratch) (n : PackedOpenNode) : (s.push n).gAt = s.gAt := rfl

@[simp] theorem parent_push (s : PathScratch) (n : PackedOpenNode) :
    (s.push n).parent = s.parent := rfl

@[simp] theorem path_push (s : PathScratch) (n : PackedOpenNode) :
    (s.push n).path = s.path := rfl

/-- Push a node on the second band. -/
def pushNext (s : PathScratch) (n : PackedOpenNode) : PathScratch :=
  { s with openNext := n :: s.openNext }

/-- Entries of both bands. -/
def openCount (s : PathScratch) : ℕ := s.openList.length + s.openNext.length

end PathScratch

section Search

variable {S : Shape} {Tag : Type*} (W : World S Tag) (cls : MovementClass S Tag)
  (prov : Provider S Tag)

/-- The sink of `for_each_forward` in the weighted loop: offer one probed edge. -/
def relaxProbe (goal : Coord3) (seed : BitVec 64) (index g : ℕ) (st : SearchState)
    (probe : TransitionProbe) : SearchState :=
  if probe.availability = .missingTopology then { st with crossedMissing := true }
  else if probe.costOverflow then { st with costOverflow := true }
  else match residentOffset W probe.destIndex with
    | none => { st with crossedMissing := true }
    | some neighborOffset =>
      if st.scratch.stateAt neighborOffset = .closed then st
      else
        let tentativeG := saturatingAdd g probe.cost
        if tentativeG = infiniteCost then { st with costOverflow := true }
        else if tentativeG < st.scratch.gAt neighborOffset then
          { st with
            scratch := (st.scratch.lowerNode neighborOffset tentativeG index).push
              (.make probe.destIndex tentativeG
                (saturatingAdd tentativeG (heuristic cls prov probe.dest goal)) seed) }
        else st

/-- The loop that follows the parents from a closed tile back to the start; `path` holds the
tiles pushed so far, which `std::reverse` puts in this order. -/
def reconstruct (s : PathScratch) (start : ℕ) : ℕ → ℕ → List Coord3 → List Coord3
  | 0, _, path => path
  | fuel + 1, step, path =>
    if step = start then S.coord step :: path
    else reconstruct s start fuel (s.parent (offset W step)) (S.coord step :: path)

/-- What the search returns at a closed goal with label `g`. -/
def foundResult (start goal g : ℕ) (st : SearchState) : PathResult × PathScratch :=
  let path := reconstruct W st.scratch start (g + 1) goal st.scratch.path
  ({ status := .found, cost := g, expandedNodes := st.expandedNodes,
     reachedNodes := st.scratch.touchedCount, path := path,
     costScale := cls.stepPolicy.costScale }, { st.scratch with path := path })

/-- What the search returns when the frontier is exhausted. -/
def exhaustedResult (policy : MissingChunkPolicy) (st : SearchState) :
    PathResult × PathScratch :=
  let status : PathStatus :=
    if W.residency = .sparseResident ∧ st.crossedMissing = true ∧
        policy = .reportIndeterminate then .indeterminate
    else if st.costOverflow then .costOverflow else .noPath
  ({ status := status, cost := 0, expandedNodes := st.expandedNodes,
     reachedNodes := st.scratch.touchedCount, path := st.scratch.path,
     costScale := cls.stepPolicy.costScale }, st.scratch)

/-- The main loop of `weighted_astar_path`. -/
def weightedLoop (policy : MissingChunkPolicy) (request : PathRequest) (seed : BitVec 64) :
    ℕ → SearchState → PathResult × PathScratch
  | 0, st => ({}, st.scratch)
  | fuel + 1, st =>
    match popHeap st.scratch.openList with
    | none => exhaustedResult W cls policy st
    | some (current, rest) =>
      let st := { st with scratch := st.scratch.setOpen rest }
      let index := current.nodeIndex seed
      if st.scratch.stateAt (offset W index) = .closed ∨
          current.g ≠ st.scratch.gAt (offset W index) then
        weightedLoop policy request seed fuel st
      else
        let st := { st with
          scratch := st.scratch.closeNode (offset W index)
          expandedNodes := st.expandedNodes + 1 }
        if index = S.tileKey request.goal then
          foundResult W cls (S.tileKey request.start) index current.g st
        else
          weightedLoop policy request seed fuel
            ((forEachForward W cls prov (S.coord index)).foldl
              (relaxProbe W cls prov request.goal seed index current.g) st)

/-- Iterations that always suffice: one pop for the start, one for every edge, and the last
look at an empty frontier. -/
def searchFuel : ℕ :=
  ∑ key ∈ Finset.range S.tileCount, (forEachForward W cls prov (S.coord key)).length + 2

/-- `weighted_astar_path` from the node arrays on: size them, open the start and run the
loop. -/
def heapSearch (policy : MissingChunkPolicy) (request : PathRequest) (seed : BitVec 64)
    (s : PathScratch) : PathResult × PathScratch :=
  let start := S.tileKey request.start
  let s := (s.resize (capacityHint W)).openStart (offset W start)
  weightedLoop W cls prov policy request seed (searchFuel W cls prov)
    { scratch := s.push (.make start 0 (heuristic cls prov request.start request.goal) seed) }

/-! ### The labels the node arrays hold -/

/-- Labels, parents and closed marks of the tiles. -/
def tileLabels (s : PathScratch) : Labels Coord3 where
  g c := if W.Resident c then s.gAt (offset W (S.tileKey c)) else infiniteCost
  parent c := if W.Resident c then S.coord (s.parent (offset W (S.tileKey c))) else c
  closed c := W.Resident c ∧ s.stateAt (offset W (S.tileKey c)) = .closed

variable {W cls prov} {s : PathScratch} {c d : Coord3}

theorem tileLabels_g (h : W.Resident c) :
    (tileLabels W s).g c = s.gAt (offset W (S.tileKey c)) := if_pos h

theorem resident_of_g_lt (h : (tileLabels W s).g c < infiniteCost) : W.Resident c := by
  by_contra hc
  simp [tileLabels, hc] at h

theorem isCurrent_of_gAt_lt {o : ℕ} (h : s.gAt o < infiniteCost) : s.isCurrent o = true := by
  by_contra hn
  simp [PathScratch.gAt, hn] at h

theorem tileLabels_closed (h : W.Resident c) :
    (tileLabels W s).closed c ↔ s.stateAt (offset W (S.tileKey c)) = .closed :=
  and_iff_right h

@[simp] theorem tileLabels_push (n : PackedOpenNode) :
    tileLabels W (s.push n) = tileLabels W s := rfl

/-- Lowering the node of a tile changes the label, the parent and the mark of that tile. -/
theorem tileLabels_lowerNode (hc : W.Resident c) (g : ℕ) {u : Coord3}
    (hu : S.contains u = true) :
    let L := tileLabels W (s.lowerNode (offset W (S.tileKey c)) g (S.tileKey u))
    (∀ d, L.g d = if d = c then g else (tileLabels W s).g d) ∧
      (∀ d, L.parent d = if d = c then u else (tileLabels W s).parent d) ∧
      ∀ d, L.closed d ↔ (tileLabels W s).closed d ∧ d ≠ c := by
  have hoff : ∀ d, W.Resident d → d ≠ c → offset W (S.tileKey d) ≠ offset W (S.tileKey c) :=
    fun d hd hdc h => hdc (offset_injOn hd hc h)
  refine ⟨fun d => ?_, fun d => ?_, fun d => ?_⟩ <;>
    simp only [tileLabels, PathScratch.gAt_lowerNode, PathScratch.parent_lowerNode,
      PathScratch.stateAt_lowerNode] <;>
    by_cases hdc : d = c
  · subst hdc; simp [hc]
  · by_cases hd : W.Resident d
    · simp [hd, hdc, hoff d hd hdc]
    · simp [hd, hdc]
  · subst hdc; simp [hc, hu]
  · by_cases hd : W.Resident d
    · simp [hd, hdc, hoff d hd hdc]
    · simp [hd, hdc]
  · subst hdc; simp
  · by_cases hd : W.Resident d
    · simp [hd, hdc, hoff d hd hdc]
    · simp [hd]

/-- Closing the node of a touched tile changes the mark of that tile. -/
theorem tileLabels_closeNode (hc : W.Resident c)
    (hcur : s.isCurrent (offset W (S.tileKey c)) = true) :
    let L := tileLabels W (s.closeNode (offset W (S.tileKey c)))
    (∀ d, L.g d = (tileLabels W s).g d) ∧ (∀ d, L.parent d = (tileLabels W s).parent d) ∧
      ∀ d, L.closed d ↔ (tileLabels W s).closed d ∨ d = c := by
  refine ⟨fun d => rfl, fun d => rfl, fun d => ?_⟩
  simp only [tileLabels, PathScratch.stateAt_closeNode hcur]
  by_cases hdc : d = c
  · subst hdc; simp [hc]
  · by_cases hd : W.Resident d
    · have : offset W (S.tileKey d) ≠ offset W (S.tileKey c) := fun h =>
        hdc (offset_injOn hd hc h)
      simp [hd, hdc, this]
    · simp [hd, hdc]

/-- The labels of cleared node arrays in which only the start is open. -/
theorem tileLabels_openStart (hc : W.Resident c) (hs : ∀ o, s.isCurrent o = false) :
    (tileLabels W (s.openStart (offset W (S.tileKey c)))).IsInit infiniteCost c := by
  have hg : ∀ o, s.gAt o = infiniteCost := fun o => by simp [PathScratch.gAt, hs]
  have hst : ∀ o, s.stateAt o = .unseen := fun o => by simp [PathScratch.stateAt, hs]
  refine ⟨?_, fun d hd => ?_, fun d hd => ?_⟩
  · simp [tileLabels, hc, PathScratch.gAt_openStart]
  · simp only [tileLabels, PathScratch.gAt_openStart, hg]
    by_cases hdr : W.Resident d
    · have : offset W (S.tileKey d) ≠ offset W (S.tileKey c) := fun h =>
        hd (offset_injOn hdr hc h)
      simp [this]
    · simp [hdr]
  · have := hd.2
    rw [PathScratch.stateAt_openStart, hst] at this
    split_ifs at this

end Search

/-! ### The invariant shared by the searches -/

section Invariant

variable {S : Shape} {Tag : Type*} (W : World S Tag) (cls : MovementClass S Tag)
  (prov : Provider S Tag)

/-- The edges out of `cur` that the probes still to be offered report. -/
def Pending (S : Shape) (cur : Coord3) (probes : List TransitionProbe) (u v : Coord3) (k : ℕ) :
    Prop := u = cur ∧ ∃ p ∈ probes, p.Reports S v k

/-- The flags of a search have a reason: a missing chunk beside a closed tile, or a legal step
out of a closed tile whose cost reaches the sentinel. -/
structure Noticed (st : SearchState) : Prop where
  /-- Why a missing chunk is on record. -/
  crossedMissing : st.crossedMissing = true → ∃ u, (tileLabels W st.scratch).closed u ∧
    ∃ p ∈ forEachForward W cls prov u, p.availability = .missingTopology
  /-- Why an overflow is on record. -/
  costOverflow : st.costOverflow = true → ∃ u v k, (tileLabels W st.scratch).closed u ∧
    LegalStep W cls prov u v k ∧ infiniteCost ≤ (tileLabels W st.scratch).g u + k

/-- **The invariant of a tile search** while the probes of `cur` are being offered: the
label-setting invariant of the node arrays, stored parents are tiles, and a missing chunk
beside a closed tile has been noticed, as nothing else has. -/
structure SearchInv (request : PathRequest) (queue : Coord3 → ℕ → Prop) (overflow : Prop)
    (st : SearchState) (cur : Coord3) (probes : List TransitionProbe) : Prop where
  /-- The label-setting invariant. -/
  labels : (tileLabels W st.scratch).Inv (LegalStep W cls prov)
    (estimate cls prov request.goal) infiniteCost request.start queue overflow
    (Pending S cur probes)
  /-- Labels are at most the sentinel. -/
  label_le : ∀ c, (tileLabels W st.scratch).g c ≤ infiniteCost
  /-- Stored parents are tile indices. -/
  parent_lt : ∀ c, (tileLabels W st.scratch).g c < infiniteCost → c ≠ request.start →
    st.scratch.parent (offset W (S.tileKey c)) < S.tileCount
  /-- No path has been stored yet. -/
  path_nil : st.scratch.path = []
  /-- Missing chunks beside closed tiles have been noticed. -/
  missing : ∀ u, (tileLabels W st.scratch).closed u → ∀ p ∈ forEachForward W cls prov u,
    p.availability = .missingTopology → (u = cur ∧ p ∈ probes) ∨ st.crossedMissing = true
  /-- The flags have a reason. -/
  noticed : Noticed W cls prov st

variable {W cls prov} {request : PathRequest} {c : Coord3} {queue queue' : Coord3 → ℕ → Prop}
  {overflow overflow' : Prop} {st st' : SearchState} {cur v : Coord3} {p : TransitionProbe}
  {probes : List TransitionProbe} {k : ℕ}

theorem TransitionProbe.Reports.cost_eq {j : ℕ} {w : Coord3} (h : p.Reports S v k)
    (h' : p.Reports S w j) (hk : k < infiniteCost) : w = v ∧ j = k := by
  obtain ⟨-, h1, -, h2, -⟩ := h
  obtain ⟨-, h3, -, h4, -⟩ := h'
  exact ⟨h3.symm.trans h1, by omega⟩

/-- The flags keep their reason while closed tiles keep their labels. -/
theorem Noticed.mono (N : Noticed W cls prov st)
    (hcl : ∀ u, (tileLabels W st.scratch).closed u → (tileLabels W st'.scratch).closed u ∧
      (tileLabels W st'.scratch).g u = (tileLabels W st.scratch).g u)
    (hcm : st'.crossedMissing = true → st.crossedMissing = true)
    (hco : st'.costOverflow = true → st.costOverflow = true) : Noticed W cls prov st' := by
  refine ⟨fun h => ?_, fun h => ?_⟩
  · obtain ⟨u, hu, hp⟩ := N.crossedMissing (hcm h)
    exact ⟨u, (hcl u hu).1, hp⟩
  · obtain ⟨u, v, k, hu, hs, hM⟩ := N.costOverflow (hco h)
    exact ⟨u, v, k, (hcl u hu).1, hs, by rwa [(hcl u hu).2]⟩

namespace SearchInv

/-- A probe whose edge is settled has been offered. -/
theorem offered (I : SearchInv W cls prov request queue overflow st cur (p :: probes))
    (hcur : (tileLabels W st.scratch).closed cur) (hp : p ∈ forEachForward W cls prov cur)
    (hs : st'.scratch = st.scratch) (hov : overflow → overflow')
    (hcm : st'.crossedMissing = true ↔
      st.crossedMissing = true ∨ p.availability = .missingTopology)
    (hco : st'.costOverflow = true → st.costOverflow = true ∨ ∃ w j,
      LegalStep W cls prov cur w j ∧ infiniteCost ≤ (tileLabels W st.scratch).g cur + j)
    (hset : ∀ w j, (tileLabels W st.scratch).closed cur → p.Reports S w j →
      (tileLabels W st.scratch).Settled infiniteCost overflow' cur w j) :
    SearchInv W cls prov request queue overflow' st' cur probes := by
  refine ⟨?_, by rw [hs]; exact I.label_le, by rw [hs]; exact I.parent_lt,
    by rw [hs]; exact I.path_nil,
    fun u hu q hq hm => ?_, fun h => ?_, fun h => ?_⟩
  · rw [hs]
    refine I.labels.settle hov fun u w j hu _ htd hn => ?_
    obtain ⟨rfl, q, hq, hrep⟩ := htd
    rcases List.mem_cons.1 hq with rfl | hq
    · exact hset w j hu hrep
    · exact absurd ⟨rfl, q, hq, hrep⟩ hn
  · rw [hs] at hu
    rcases I.missing u hu q hq hm with ⟨rfl, hmem⟩ | h
    · rcases List.mem_cons.1 hmem with rfl | hmem
      · exact Or.inr (hcm.2 (Or.inr hm))
      · exact Or.inl ⟨rfl, hmem⟩
    · exact Or.inr (hcm.2 (Or.inl h))
  · rw [hs]
    rcases hcm.1 h with h | h
    · exact I.noticed.crossedMissing h
    · exact ⟨cur, hcur, p, hp, h⟩
  · rw [hs]
    rcases hco h with h | ⟨w, j, hstep, hM⟩
    · exact I.noticed.costOverflow h
    · exact ⟨cur, w, j, hcur, hstep, hM⟩

/-- A probe whose edge gives its target a better label has been offered once the node is
lowered and queued. -/
theorem lowered (I : SearchInv W cls prov request queue overflow st cur (p :: probes))
    (hcur : (tileLabels W st.scratch).closed cur) (hrep : p.Reports S v k)
    (hstep : LegalStep W cls prov cur v k) (hv : ¬ (tileLabels W st.scratch).closed v)
    (hlt : (tileLabels W st.scratch).g cur + k < (tileLabels W st.scratch).g v)
    (hM : (tileLabels W st.scratch).g cur + k < infiniteCost)
    (hs : tileLabels W st'.scratch = tileLabels W (st.scratch.lowerNode (offset W (S.tileKey v))
      ((tileLabels W st.scratch).g cur + k) (S.tileKey cur)))
    (hp : st'.scratch.parent = (st.scratch.lowerNode (offset W (S.tileKey v))
      ((tileLabels W st.scratch).g cur + k) (S.tileKey cur)).parent)
    (hpath : st'.scratch.path = st.scratch.path)
    (hcm : st'.crossedMissing = st.crossedMissing) (hco : st'.costOverflow = st.costOverflow)
    (hq : ∀ w x, queue w x → queue' w x)
    (hqv : queue' v ((tileLabels W st.scratch).g cur + k)) :
    SearchInv W cls prov request queue' overflow st' cur probes := by
  obtain ⟨hg, hpar, hc⟩ := tileLabels_lowerNode (s := st.scratch) hstep.resident_right
    ((tileLabels W st.scratch).g cur + k) hcur.1.contains
  rw [← hs] at hg hpar hc
  have hc' : ∀ w, (tileLabels W st'.scratch).closed w ↔ (tileLabels W st.scratch).closed w := by
    refine fun w => (hc w).trans ⟨And.left, fun h => ⟨h, fun hwv => hv (hwv ▸ h)⟩⟩
  have hcurv : cur ≠ v := fun h => hv (h ▸ hcur)
  refine ⟨?_, fun w => ?_, fun w hw hne => ?_, hpath.trans I.path_nil,
    fun u hu q hqm hm => ?_, I.noticed.mono (fun u hu => ⟨(hc' u).2 hu, ?_⟩) (by rw [hcm]; exact id)
      (by rw [hco]; exact id)⟩
  · refine (I.labels.update hcur hstep hv hlt hM hg hpar hc' hq hqv).settle id
      fun u w j hu _ htd hn => ?_
    obtain ⟨rfl, q, hqm, hrep'⟩ := htd
    rcases List.mem_cons.1 hqm with rfl | hqm
    · obtain ⟨rfl, rfl⟩ := hrep.cost_eq hrep' (by omega)
      refine Or.inr (Or.inl ?_)
      rw [hg, hg, if_pos rfl, if_neg hcurv]
      exact ⟨le_rfl, hM⟩
    · exact absurd ⟨rfl, q, hqm, hrep'⟩ hn
  · rw [hg]
    split_ifs
    · exact hM.le
    · exact I.label_le w
  · rw [hp, PathScratch.parent_lowerNode]
    split_ifs with ho
    · exact Shape.tileKey_lt hcur.1.contains
    · rw [hg] at hw
      split_ifs at hw with hwv
      · exact absurd (by rw [hwv]) ho
      · exact I.parent_lt w hw hne
  · rw [hcm]
    rcases I.missing u ((hc' u).1 hu) q hqm hm with ⟨rfl, hmem⟩ | h
    · rcases List.mem_cons.1 hmem with rfl | hmem
      · exact absurd hm (by rw [hrep.1]; decide)
      · exact Or.inl ⟨rfl, hmem⟩
    · exact Or.inr h
  · have huv : u ≠ v := fun h => hv (h ▸ hu)
    rw [hg, if_neg huv]

theorem pending_nil : Pending S cur [] = fun _ _ _ => False := by
  funext u w j
  simp [Pending]

/-- Between two pops no edge is pending, whichever tile was expanded last. -/
theorem labels_nil (I : SearchInv W cls prov request queue overflow st cur []) :
    (tileLabels W st.scratch).Inv (LegalStep W cls prov)
      (estimate cls prov request.goal) infiniteCost request.start queue overflow
      (fun _ _ _ => False) := by
  have := I.labels
  rwa [pending_nil] at this

/-- Closing the tile of a least fresh entry makes its probes pending. -/
theorem closed (I : SearchInv W cls prov request queue overflow st cur [])
    (hc : W.Resident c) (hcM : (tileLabels W st.scratch).g c < infiniteCost)
    (hv : ¬ (tileLabels W st.scratch).closed c)
    (hmin : ∀ w x, queue w x → min ((tileLabels W st.scratch).g c +
      estimate cls prov request.goal c) infiniteCost ≤
        min (x + estimate cls prov request.goal w) infiniteCost)
    (hs : tileLabels W st'.scratch =
      tileLabels W (st.scratch.closeNode (offset W (S.tileKey c))))
    (hp : st'.scratch.parent = st.scratch.parent)
    (hpath : st'.scratch.path = st.scratch.path)
    (hcm : st'.crossedMissing = st.crossedMissing) (hco : st'.costOverflow = st.costOverflow)
    (hq : ∀ w x, w ≠ c → queue w x → queue' w x) :
    SearchInv W cls prov request queue' overflow st' c (forEachForward W cls prov c) := by
  have hcurr : st.scratch.isCurrent (offset W (S.tileKey c)) = true :=
    isCurrent_of_gAt_lt (by rwa [← tileLabels_g hc])
  obtain ⟨hg, hpar, hcl⟩ := tileLabels_closeNode hc hcurr
  rw [← hs] at hg hpar hcl
  refine ⟨?_, fun w => by rw [hg]; exact I.label_le w, fun w hw hne => ?_,
    hpath.trans I.path_nil, fun u hu q hqm hm => ?_,
    I.noticed.mono (fun u hu => ⟨(hcl u).2 (Or.inl hu), hg u⟩) (by rw [hcm]; exact id)
      (by rw [hco]; exact id)⟩
  · refine I.labels_nil.close (consistent_estimate _) hcM hv hmin hg hpar hcl hq
      fun w j hstep => ?_
    obtain ⟨q, hqm, hrep⟩ := mem_forEachForward_of_legalStep hstep
    exact ⟨rfl, q, hqm, hrep⟩
  · rw [hp]
    rw [hg] at hw
    exact I.parent_lt w hw hne
  · rcases (hcl u).1 hu with hu | rfl
    · rcases I.missing u hu q hqm hm with ⟨-, hmem⟩ | h
      · exact absurd hmem List.not_mem_nil
      · exact Or.inr (hcm ▸ h)
    · exact Or.inl ⟨rfl, hqm⟩

/-- **Following the parents** from a labelled tile spells out a legal route whose cost is the
label. -/
theorem reconstruct (I : SearchInv W cls prov request queue overflow st cur probes)
    (hstart : S.contains request.start = true) (fuel : ℕ) (c : Coord3) (path : List Coord3)
    (hfuel : (tileLabels W st.scratch).g c < fuel)
    (hc : (tileLabels W st.scratch).g c < infiniteCost) :
    ∃ l, Tess.reconstruct W st.scratch (S.tileKey request.start) fuel (S.tileKey c) path =
      l ++ path ∧ IsRoute (LegalStep W cls prov) l request.start c
        ((tileLabels W st.scratch).g c) := by
  induction fuel generalizing c path with
  | zero => omega
  | succ fuel ih =>
    have hres := resident_of_g_lt hc
    rw [Tess.reconstruct, Shape.coord_tileKey hres.contains]
    by_cases hcs : c = request.start
    · subst hcs
      rw [if_pos rfl, I.labels.start_g]
      exact ⟨[request.start], rfl, .single _⟩
    · rw [if_neg fun h => hcs (Shape.tileKey_inj hres.contains hstart h)]
      obtain ⟨hpc, k, hstep, hk⟩ := I.labels.chain c hc hcs
      have hpar : S.tileKey ((tileLabels W st.scratch).parent c) =
          st.scratch.parent (offset W (S.tileKey c)) := by
        simp only [tileLabels, hres, ↓reduceIte]
        exact Shape.tileKey_coord (I.parent_lt c hc hcs)
      have hpos := hstep.pos
      obtain ⟨l, hl, hroute⟩ := ih ((tileLabels W st.scratch).parent c) (c :: path) (by omega)
        (by omega)
      refine ⟨l ++ [c], ?_, ?_⟩
      · rw [← hpar, hl]
        simp
      · rw [hk]
        exact hroute.snoc hstep

end SearchInv

end Invariant

/-! ### The heap loop -/

section HeapLoop

variable {S : Shape} {Tag : Type*} (W : World S Tag) (cls : MovementClass S Tag)
  (prov : Provider S Tag)

/-- The open-list entry of a tile under a label. -/
def openEntry (goal : Coord3) (seed : BitVec 64) (c : Coord3) (x : ℕ) : PackedOpenNode :=
  .make (S.tileKey c) x (min (x + estimate cls prov goal c) infiniteCost) seed

/-- The invariant of the heap loop: every entry of the heap is the entry of a resident tile, and
the heap is the queue of the search. -/
structure HeapInv (request : PathRequest) (seed : BitVec 64) (st : SearchState) (cur : Coord3)
    (probes : List TransitionProbe) : Prop where
  /-- The invariant of the search. -/
  search : SearchInv W cls prov request
    (fun c x => W.Resident c ∧ openEntry cls prov request.goal seed c x ∈ st.scratch.openList)
    (st.costOverflow = true) st cur probes
  /-- What the heap holds. -/
  entries : ∀ n ∈ st.scratch.openList, ∃ c x, W.Resident c ∧ x < infiniteCost ∧
    n = openEntry cls prov request.goal seed c x

variable {W cls prov} {request : PathRequest} {seed : BitVec 64} {st : SearchState}
  {cur c d : Coord3} {probes : List TransitionProbe} {p : TransitionProbe} {x y : ℕ}

theorem openEntry_inj (hc : S.contains c = true) (hd : S.contains d = true)
    (hx : x ≤ infiniteCost) (hy : y ≤ infiniteCost)
    (h : openEntry cls prov request.goal seed c x = openEntry cls prov request.goal seed d y) :
    c = d ∧ x = y := by
  have h1 := congrArg (fun n => n.nodeIndex seed) h
  have h2 := congrArg PackedOpenNode.g h
  simp only [openEntry, PackedOpenNode.nodeIndex_make (cls.tileKey_lt_two_pow hc),
    PackedOpenNode.nodeIndex_make (cls.tileKey_lt_two_pow hd)] at h1
  simp only [openEntry, PackedOpenNode.g_make _ _ hx, PackedOpenNode.g_make _ _ hy] at h2
  exact ⟨Shape.tileKey_inj hc hd h1, h2⟩

/-- What `make` packs for a lowered neighbour is its open-list entry. -/
theorem make_eq_openEntry (hx : x ≤ infiniteCost) :
    PackedOpenNode.make (S.tileKey c) x
      (saturatingAdd x (heuristic cls prov c request.goal)) seed =
      openEntry cls prov request.goal seed c x := by
  rw [openEntry, saturatingAdd_eq_min hx, heuristic_eq_min]
  congr 1
  omega

namespace HeapInv

/-- **Offering one probe** of the tile that was closed last. -/
theorem relaxProbe (I : HeapInv W cls prov request seed st cur (p :: probes))
    (hcur : (tileLabels W st.scratch).closed cur) (hp : p ∈ forEachForward W cls prov cur) :
    HeapInv W cls prov request seed
      (relaxProbe W cls prov request.goal seed (S.tileKey cur)
        ((tileLabels W st.scratch).g cur) st p) cur probes := by
  have hgM := I.search.labels.closed_lt cur hcur
  set g := (tileLabels W st.scratch).g cur with hg
  unfold Tess.relaxProbe
  by_cases h1 : p.availability = .missingTopology
  · rw [if_pos h1]
    refine ⟨I.search.offered hcur hp rfl id (by simp [h1]) Or.inl fun w j _ hrep => ?_, I.entries⟩
    exact absurd (hrep.1.symm.trans h1) (by decide)
  rw [if_neg h1]
  have hl : p.availability = .legal := by
    cases ha : p.availability with
    | legal => rfl
    | missingTopology => exact absurd ha h1
    | blocked => exact absurd ha (not_blocked_of_mem_forEachForward hp)
  obtain ⟨k, hstep, hrep⟩ := legalStep_of_mem_forEachForward hcur.1.contains hp hl
  split_ifs with h2
  · have hM := hrep.2.2.2.2
    rw [h2, eq_comm, decide_eq_true_eq] at hM
    refine ⟨I.search.offered hcur hp rfl (fun _ => rfl) (by simp [h1])
      (fun _ => Or.inr ⟨_, k, hstep, by omega⟩) fun w j _ hrep => ?_, I.entries⟩
    have := hrep.2.2.2.2
    rw [h2, eq_comm, decide_eq_true_eq] at this
    exact Or.inr (Or.inr ⟨by omega, rfl⟩)
  · have hk : k < infiniteCost := by
      have := hrep.2.2.2.2
      simp only [Bool.not_eq_true] at h2
      rw [h2, eq_comm, decide_eq_false_iff_not] at this
      omega
    have hcost : p.cost = k := by rw [hrep.2.2.2.1]; omega
    have hset : ∀ w j, p.Reports S w j → w = p.dest ∧ j = k := fun w j h => hrep.cost_eq h hk
    rw [hrep.2.2.1, residentOffset_tileKey hstep.resident_right]
    simp only [hcost, saturatingAdd_eq_min hgM.le]
    split_ifs with h3 h4 h5
    · refine ⟨I.search.offered hcur hp rfl id (by simp [h1]) Or.inl fun w j _ h => ?_, I.entries⟩
      obtain ⟨rfl, rfl⟩ := hset w j h
      exact Or.inl ((tileLabels_closed hstep.resident_right).2 h3)
    · refine ⟨I.search.offered hcur hp rfl (fun _ => rfl) (by simp [h1])
        (fun _ => Or.inr ⟨_, k, hstep, by omega⟩) fun w j _ h => ?_, I.entries⟩
      obtain ⟨rfl, rfl⟩ := hset w j h
      exact Or.inr (Or.inr ⟨by omega, rfl⟩)
    · have ht : min (g + k) infiniteCost = g + k := by omega
      rw [ht] at h5 ⊢
      have hne : ¬ (tileLabels W st.scratch).closed p.dest := fun h =>
        h3 ((tileLabels_closed hstep.resident_right).1 h)
      have hentry : PackedOpenNode.make (S.tileKey p.dest) (g + k)
          (saturatingAdd (g + k) (heuristic cls prov p.dest request.goal)) seed =
          openEntry cls prov request.goal seed p.dest (g + k) := make_eq_openEntry (by omega)
      refine ⟨I.search.lowered hcur hrep hstep hne ?_ (by omega) rfl rfl (by simp) rfl rfl ?_ ?_,
        ?_⟩
      · rw [tileLabels_g hstep.resident_right]
        exact h5
      · intro w x hw
        simpa using ⟨hw.1, Or.inr hw.2⟩
      · exact ⟨hstep.resident_right, List.mem_cons.2 (Or.inl hentry.symm)⟩
      · intro n hn
        simp only [PathScratch.openList_push, PathScratch.openList_lowerNode,
          List.mem_cons] at hn
        rcases hn with rfl | hn
        · exact ⟨p.dest, g + k, hstep.resident_right, by omega, hentry⟩
        · exact I.entries n hn
    · refine ⟨I.search.offered hcur hp rfl id (by simp [h1]) Or.inl fun w j _ h => ?_, I.entries⟩
      obtain ⟨rfl, rfl⟩ := hset w j h
      refine Or.inr (Or.inl ?_)
      rw [tileLabels_g hstep.resident_right]
      omega

theorem openEntry_nodeIndex (hc : S.contains c = true) :
    (openEntry cls prov request.goal seed c x).nodeIndex seed = S.tileKey c :=
  PackedOpenNode.nodeIndex_make (cls.tileKey_lt_two_pow hc) _ _ _

theorem openEntry_g (hx : x ≤ infiniteCost) :
    (openEntry cls prov request.goal seed c x).g = x := PackedOpenNode.g_make _ _ hx _

/-- **Popping a stale entry** loses nothing. -/
theorem pop_stale (I : HeapInv W cls prov request seed st cur [])
    {n : PackedOpenNode} {rest : List PackedOpenNode}
    (hpop : popHeap st.scratch.openList = some (n, rest)) (hc : W.Resident c)
    (hx : x < infiniteCost) (hn : n = openEntry cls prov request.goal seed c x)
    (hstale : (tileLabels W st.scratch).closed c ∨ x ≠ (tileLabels W st.scratch).g c) :
    HeapInv W cls prov request seed
      { st with scratch := st.scratch.setOpen rest } cur [] := by
  obtain ⟨-, -, hkeep, hsub, -⟩ := popHeap_eq_some hpop
  refine ⟨⟨?_, I.search.label_le, I.search.parent_lt, I.search.path_nil, I.search.missing,
    I.search.noticed.mono (fun u hu => ⟨hu, rfl⟩) id id⟩, fun m hm => I.entries m (hsub m hm)⟩
  refine I.search.labels.requeue fun w hw hwc hmem => ⟨hmem.1, hkeep _ hmem.2 fun heq => ?_⟩
  obtain ⟨rfl, hxw⟩ := openEntry_inj (resident_of_g_lt hw).contains hc.contains hw.le hx.le
    (heq.trans hn)
  rcases hstale with h | h
  · exact hwc h
  · exact h hxw.symm

/-- **Popping a fresh entry** closes its tile. -/
theorem pop_fresh (I : HeapInv W cls prov request seed st cur [])
    {n : PackedOpenNode} {rest : List PackedOpenNode}
    (hpop : popHeap st.scratch.openList = some (n, rest)) (hc : W.Resident c)
    (hx : x < infiniteCost) (hn : n = openEntry cls prov request.goal seed c x)
    (hclosed : ¬ (tileLabels W st.scratch).closed c) (hg : x = (tileLabels W st.scratch).g c) :
    HeapInv W cls prov request seed
      { st with
        scratch := (st.scratch.setOpen rest).closeNode (offset W (S.tileKey c))
        expandedNodes := st.expandedNodes + 1 } c (forEachForward W cls prov c) := by
  obtain ⟨-, hmin, hkeep, hsub, -⟩ := popHeap_eq_some hpop
  subst hg
  refine ⟨I.search.closed hc hx hclosed (fun w y hw => ?_) rfl rfl rfl rfl rfl fun w y hwc hw =>
    ⟨hw.1, hkeep _ hw.2 fun heq => hwc ?_⟩, fun m hm => I.entries m (hsub m hm)⟩
  · have := PackedOpenNode.f_le_of_key_le (hmin _ hw.2)
    simpa only [hn, openEntry, PackedOpenNode.f_make] using this
  · have h := congrArg (fun n => n.nodeIndex seed) (heq.trans hn)
    simp only [openEntry_nodeIndex hc.contains, openEntry_nodeIndex hw.1.contains] at h
    exact Shape.tileKey_inj hw.1.contains hc.contains h

end HeapInv

/-- What offering a probe leaves besides flags: nothing, or one node lowered and pushed. -/
def OffersOne (offer : SearchState → TransitionProbe → SearchState) : Prop :=
  ∀ st p, (offer st p).scratch = st.scratch ∨
    ∃ o t index n, st.scratch.stateAt o ≠ .closed ∧
      ((offer st p).scratch = (st.scratch.lowerNode o t index).push n ∨
        (offer st p).scratch = (st.scratch.lowerNode o t index).pushNext n)

theorem offersOne_relaxProbe (W : World S Tag) (cls : MovementClass S Tag) (prov : Provider S Tag)
    (goal : Coord3) (seed : BitVec 64) (index g : ℕ) :
    OffersOne (Tess.relaxProbe W cls prov goal seed index g) := by
  intro st p
  unfold Tess.relaxProbe
  split_ifs
  · exact Or.inl rfl
  · exact Or.inl rfl
  · split
    · exact Or.inl rfl
    · simp only
      split_ifs with h1 h2 h3
      · exact Or.inl rfl
      · exact Or.inl rfl
      · exact Or.inr ⟨_, _, _, _, h1, Or.inl rfl⟩
      · exact Or.inl rfl

/-- Offering probes closes nothing, keeps the labels of closed nodes and pushes at most one
entry for each probe. -/
theorem OffersOne.foldl {offer : SearchState → TransitionProbe → SearchState}
    (ho : OffersOne offer) (probes : List TransitionProbe) (st : SearchState) :
    let st' := probes.foldl offer st
    (∀ o, st'.scratch.stateAt o = .closed ↔ st.scratch.stateAt o = .closed) ∧
      (∀ o, st.scratch.stateAt o = .closed → st'.scratch.gAt o = st.scratch.gAt o) ∧
      st'.scratch.openCount ≤ st.scratch.openCount + probes.length := by
  induction probes generalizing st with
  | nil => simp
  | cons p ps ih =>
    obtain ⟨h1, h2, h3⟩ := ih (offer st p)
    simp only [List.foldl_cons, List.length_cons]
    rcases ho st p with h | ⟨o, t, index, n, hopen, h⟩
    · rw [h] at h1 h2 h3
      exact ⟨h1, h2, by omega⟩
    -- pushing on either band changes no node
    have hstate : ∀ o', (offer st p).scratch.stateAt o' =
        (st.scratch.lowerNode o t index).stateAt o' := by
      rcases h with h | h <;> rw [h] <;> exact fun _ => rfl
    have hlabel : ∀ o', (offer st p).scratch.gAt o' =
        (st.scratch.lowerNode o t index).gAt o' := by
      rcases h with h | h <;> rw [h] <;> exact fun _ => rfl
    have hcount : (offer st p).scratch.openCount = st.scratch.openCount + 1 := by
      rcases h with h | h <;> rw [h] <;>
        simp only [PathScratch.openCount, PathScratch.push, PathScratch.pushNext,
          PathScratch.openList_lowerNode, PathScratch.openNext_lowerNode, List.length_cons] <;>
        omega
    simp only [hstate, hlabel, PathScratch.stateAt_lowerNode, PathScratch.gAt_lowerNode] at h1 h2
    refine ⟨fun o' => ?_, fun o' ho' => ?_, by omega⟩
    · rw [h1]
      split_ifs with hoo
      · subst hoo; simp [hopen]
      · exact Iff.rfl
    · have hne : o' ≠ o := fun hoo => hopen (hoo ▸ ho')
      simpa [hne] using h2 o' (by simpa [hne] using ho')

namespace HeapInv

/-- **Offering all probes** of the tile that was closed last. -/
theorem foldl_relaxProbe (I : HeapInv W cls prov request seed st cur probes)
    (hcur : (tileLabels W st.scratch).closed cur)
    (hsub : ∀ p ∈ probes, p ∈ forEachForward W cls prov cur) :
    HeapInv W cls prov request seed
      (probes.foldl (Tess.relaxProbe W cls prov request.goal seed (S.tileKey cur)
        ((tileLabels W st.scratch).g cur)) st) cur [] := by
  induction probes generalizing st with
  | nil => exact I
  | cons p ps ih =>
    have hstep := I.relaxProbe hcur (hsub p List.mem_cons_self)
    obtain ⟨h1, h2, -⟩ := (offersOne_relaxProbe W cls prov request.goal seed (S.tileKey cur)
      ((tileLabels W st.scratch).g cur)).foldl [p] st
    rw [List.foldl_cons, List.foldl_nil] at h1 h2
    have hg := h2 _ ((tileLabels_closed hcur.1).1 hcur)
    rw [← tileLabels_g hcur.1, ← tileLabels_g hcur.1] at hg
    have := ih hstep ⟨hcur.1, (h1 _).2 hcur.2⟩ fun q hq => hsub q (List.mem_cons_of_mem _ hq)
    rw [hg] at this
    exact this

end HeapInv

/-! ### Termination -/

variable (W cls prov) in
/-- Edges out of the tiles that are not closed. -/
def openEdges (s : PathScratch) : ℕ :=
  ∑ key ∈ Finset.range S.tileCount,
    if s.stateAt (offset W key) = .closed then 0
    else (forEachForward W cls prov (S.coord key)).length

theorem openEdges_congr {s s' : PathScratch}
    (h : ∀ o, s'.stateAt o = .closed ↔ s.stateAt o = .closed) :
    openEdges W cls prov s' = openEdges W cls prov s := by
  simp only [openEdges, h]

variable (W cls prov) in
theorem openEdges_le (s : PathScratch) : openEdges W cls prov s ≤
    ∑ key ∈ Finset.range S.tileCount, (forEachForward W cls prov (S.coord key)).length := by
  refine Finset.sum_le_sum fun key _ => ?_
  split_ifs <;> omega

/-- Closing an open tile takes its edges out of the count. -/
theorem openEdges_closeNode {s : PathScratch} (hc : S.contains c = true)
    (hcur : s.isCurrent (offset W (S.tileKey c)) = true)
    (hopen : s.stateAt (offset W (S.tileKey c)) ≠ .closed) :
    openEdges W cls prov (s.closeNode (offset W (S.tileKey c))) +
      (forEachForward W cls prov c).length ≤ openEdges W cls prov s := by
  have hmem : S.tileKey c ∈ Finset.range S.tileCount := Finset.mem_range.2 (Shape.tileKey_lt hc)
  simp only [openEdges]
  rw [← Finset.add_sum_erase _ _ hmem, ← Finset.add_sum_erase _ _ hmem, if_neg hopen,
    if_pos (by rw [PathScratch.stateAt_closeNode hcur, if_pos rfl]), Shape.coord_tileKey hc]
  have hle : ∑ key ∈ (Finset.range S.tileCount).erase (S.tileKey c),
      (if (s.closeNode (offset W (S.tileKey c))).stateAt (offset W key) = .closed then 0
        else (forEachForward W cls prov (S.coord key)).length) ≤
      ∑ key ∈ (Finset.range S.tileCount).erase (S.tileKey c),
        if s.stateAt (offset W key) = .closed then 0
        else (forEachForward W cls prov (S.coord key)).length := by
    refine Finset.sum_le_sum fun key _ => ?_
    rw [PathScratch.stateAt_closeNode hcur]
    split_ifs <;> simp_all
  omega

/-! ### How a search ends -/

variable (W cls prov) in
/-- **The two ways a search ends**: at a closed goal, whose parents spell out the path, or with
an exhausted frontier and an open goal. -/
def SearchEnds (policy : MissingChunkPolicy) (request : PathRequest)
    (overflow : SearchState → Prop) (r : PathResult × PathScratch) : Prop :=
  (∃ st cur probes queue, SearchInv W cls prov request queue (overflow st) st cur probes ∧
    (tileLabels W st.scratch).closed request.goal ∧
    r = foundResult W cls (S.tileKey request.start) (S.tileKey request.goal)
      ((tileLabels W st.scratch).g request.goal) st) ∨
  ∃ st cur queue, SearchInv W cls prov request queue (overflow st) st cur [] ∧
    (∀ c x, ¬ queue c x) ∧ ¬ (tileLabels W st.scratch).closed request.goal ∧
    r = exhaustedResult W cls policy st

/-- **The heap loop ends within its fuel**, and its invariant holds of where it ended. -/
theorem weightedLoop_spec (policy : MissingChunkPolicy) (hgoal : S.contains request.goal = true)
    (fuel : ℕ) (cur : Coord3) (I : HeapInv W cls prov request seed st cur [])
    (hopen : ¬ (tileLabels W st.scratch).closed request.goal)
    (hfuel : st.scratch.openCount + openEdges W cls prov st.scratch < fuel) :
    SearchEnds W cls prov policy request (fun st => st.costOverflow = true)
      (weightedLoop W cls prov policy request seed fuel st) := by
  induction fuel generalizing st cur with
  | zero => omega
  | succ fuel ih =>
    rw [weightedLoop]
    cases hpop : popHeap st.scratch.openList with
    | none =>
      have hnil : st.scratch.openList = [] := by
        cases h : st.scratch.openList with
        | nil => rfl
        | cons n l => rw [h] at hpop; simp [popHeap] at hpop
      exact Or.inr ⟨st, cur, _, I.search, fun c x h => by simp [hnil] at h, hopen, rfl⟩
    | some pair =>
      obtain ⟨n, rest⟩ := pair
      obtain ⟨hmem, -, -, -, hlen⟩ := popHeap_eq_some hpop
      obtain ⟨c, x, hc, hx, hn⟩ := I.entries n hmem
      have hidx : n.nodeIndex seed = S.tileKey c := by
        rw [hn]; exact HeapInv.openEntry_nodeIndex hc.contains
      have hg : n.g = x := by rw [hn]; exact HeapInv.openEntry_g hx.le
      simp only [hidx, hg, PathScratch.stateAt_setOpen, PathScratch.gAt_setOpen]
      by_cases hstale : st.scratch.stateAt (offset W (S.tileKey c)) = .closed ∨
          x ≠ st.scratch.gAt (offset W (S.tileKey c))
      · rw [if_pos hstale]
        refine ih _ (I.pop_stale hpop hc hx hn ?_) hopen ?_
        · exact hstale.imp (tileLabels_closed hc).2 fun h => by rwa [tileLabels_g hc]
        · change rest.length + st.scratch.openNext.length + openEdges W cls prov st.scratch < fuel
          unfold PathScratch.openCount at hfuel
          omega
      · rw [if_neg hstale]
        simp only [not_or, not_not] at hstale
        have hcur : (st.scratch.setOpen rest).isCurrent (offset W (S.tileKey c)) = true :=
          isCurrent_of_gAt_lt (hstale.2 ▸ hx)
        have I' := I.pop_fresh hpop hc hx hn (fun h => hstale.1 ((tileLabels_closed hc).1 h))
          (by rw [tileLabels_g hc]; exact hstale.2)
        have hclosed : (tileLabels W ((st.scratch.setOpen rest).closeNode
            (offset W (S.tileKey c)))).closed c :=
          ⟨hc, by rw [PathScratch.stateAt_closeNode hcur, if_pos rfl]⟩
        have hgc : (tileLabels W ((st.scratch.setOpen rest).closeNode
            (offset W (S.tileKey c)))).g c = x := by
          rw [tileLabels_g hc, PathScratch.gAt_closeNode, PathScratch.gAt_setOpen, hstale.2]
        split_ifs with hfound
        · obtain rfl := Shape.tileKey_inj hc.contains hgoal hfound
          exact Or.inl ⟨_, _, _, _, I'.search, hclosed, by rw [hgc]⟩
        · rw [Shape.coord_tileKey hc.contains]
          have I'' := I'.foldl_relaxProbe hclosed fun p hp => hp
          obtain ⟨h1, -, h3⟩ := (offersOne_relaxProbe W cls prov request.goal seed
            (S.tileKey c) x).foldl (forEachForward W cls prov c) { st with
              scratch := (st.scratch.setOpen rest).closeNode (offset W (S.tileKey c))
              expandedNodes := st.expandedNodes + 1 }
          rw [hgc] at I''
          refine ih _ I'' ?_ ?_
          · rintro ⟨hgr, hgs⟩
            rw [h1, PathScratch.stateAt_closeNode hcur] at hgs
            split_ifs at hgs with ho
            · exact hfound (congrArg S.tileKey (offset_injOn hgr hc ho)).symm
            · exact hopen ⟨hgr, hgs⟩
          · have hedges : openEdges W cls prov ((st.scratch.setOpen rest).closeNode
                (offset W (S.tileKey c))) + (forEachForward W cls prov c).length ≤
                  openEdges W cls prov (st.scratch.setOpen rest) :=
              openEdges_closeNode hc.contains hcur hstale.1
            have hlen' : ((st.scratch.setOpen rest).closeNode
              (offset W (S.tileKey c))).openCount = rest.length + st.scratch.openNext.length := rfl
            unfold PathScratch.openCount at hfuel
            rw [openEdges_congr h1]
            dsimp only
            have hset : openEdges W cls prov (st.scratch.setOpen rest) =
              openEdges W cls prov st.scratch := rfl
            simp only [hlen'] at h3
            omega

/-- **The search ends** from any scratch whose node arrays are cleared. -/
theorem heapSearch_spec (policy : MissingChunkPolicy) (seed : BitVec 64)
    (hstart : W.Resident request.start) (hgoal : S.contains request.goal = true)
    {s : PathScratch} (hs : ∀ o, s.isCurrent o = false) (hopen : s.openList = [])
    (hnext : s.openNext = []) (hpath : s.path = []) :
    SearchEnds W cls prov policy request (fun st => st.costOverflow = true)
      (heapSearch W cls prov policy request seed s) := by
  have hcur : ∀ o, (s.resize (capacityHint W)).isCurrent o = false :=
    fun o => PathScratch.not_isCurrent_resize hs _ o
  have hinit := tileLabels_openStart hstart hcur
  set s' := (s.resize (capacityHint W)).openStart (offset W (S.tileKey request.start)) with hs'
  have hentry : PackedOpenNode.make (S.tileKey request.start) 0
      (heuristic cls prov request.start request.goal) seed =
      openEntry cls prov request.goal seed request.start 0 := by
    rw [openEntry, heuristic_eq_min, Nat.zero_add]
  have hlist : (s'.push (openEntry cls prov request.goal seed request.start 0)).openList =
      [openEntry cls prov request.goal seed request.start 0] := by
    simp [hs', hopen]
  have hclosed : ∀ c, ¬ (tileLabels W s').closed c := hinit.2.2
  rw [heapSearch, ← hs', hentry]
  refine weightedLoop_spec policy hgoal _ request.start
    ⟨⟨hinit.inv ⟨hstart, by simp⟩, hinit.g_le, fun c hc hne => ?_, by simpa [hs'] using hpath,
      fun u hu => absurd hu (hclosed u), ⟨fun h => ?_, fun h => ?_⟩⟩, fun n hn => ?_⟩
    (hclosed _) ?_
  · exact absurd (hinit.2.1 c hne) hc.ne
  · cases h
  · cases h
  · rw [hlist, List.mem_singleton] at hn
    exact ⟨request.start, 0, hstart, by decide, hn⟩
  · have hedges := openEdges_le W cls prov
      (s'.push (openEntry cls prov request.goal seed request.start 0))
    have hcount : (s'.push (openEntry cls prov request.goal seed request.start 0)).openCount =
        1 := by
      rw [PathScratch.openCount, hlist]
      simp [PathScratch.push, hs', hnext]
    dsimp only
    rw [hcount, searchFuel]
    omega

end HeapLoop

/-! ### What an ended search says -/

namespace SearchEnds

variable {S : Shape} {Tag : Type*} {W : World S Tag} {cls : MovementClass S Tag}
  {prov : Provider S Tag} {policy : MissingChunkPolicy} {request : PathRequest}
  {overflow : SearchState → Prop} {r : PathResult × PathScratch} {C : ℕ}

theorem status (h : SearchEnds W cls prov policy request overflow r) :
    r.1.status = .found ∨ r.1.status = .noPath ∨ r.1.status = .costOverflow ∨
      (r.1.status = .indeterminate ∧ W.residency = .sparseResident ∧
        policy = .reportIndeterminate) := by
  rcases h with ⟨_, _, _, _, -, -, rfl⟩ | ⟨st, _, _, -, -, -, rfl⟩
  · exact Or.inl rfl
  · simp only [exhaustedResult]
    split_ifs with h1 h2
    · exact Or.inr (Or.inr (Or.inr ⟨rfl, h1.1, h1.2.2⟩))
    · exact Or.inr (Or.inr (Or.inl rfl))
    · exact Or.inr (Or.inl rfl)

/-- **A found path** is a legal route of the reported cost, and no route is cheaper. -/
theorem found (h : SearchEnds W cls prov policy request overflow r)
    (hstart : S.contains request.start = true) (hf : r.1.status = .found) :
    IsRoute (LegalStep W cls prov) r.1.path request.start request.goal r.1.cost ∧
      r.1.cost < infiniteCost ∧
      ∀ C, Reaches (LegalStep W cls prov) request.start request.goal C → r.1.cost ≤ C := by
  rcases h with ⟨st, _, _, _, I, hc, rfl⟩ | ⟨st, _, _, -, -, -, rfl⟩
  · have hlt := I.labels.closed_lt _ hc
    refine ⟨?_, hlt, fun C hr => ?_⟩
    · obtain ⟨l, hl, hroute⟩ := I.reconstruct hstart _ request.goal [] (Nat.lt_succ_self _) hlt
      simp only [foundResult, I.path_nil, hl, List.append_nil]
      exact hroute
    · by_cases hC : C < infiniteCost
      · exact I.labels.opt _ C hc hr (by rwa [estimate_self])
      · exact hlt.le.trans (not_lt.1 hC)
  · exfalso
    simp only [exhaustedResult] at hf
    split_ifs at hf

/-- A goal that a cheap enough route reaches is found. -/
theorem found_of_reaches (h : SearchEnds W cls prov policy request overflow r)
    (hr : Reaches (LegalStep W cls prov) request.start request.goal C) (hC : C < infiniteCost) :
    r.1.status = .found := by
  rcases h with ⟨_, _, _, _, -, -, rfl⟩ | ⟨st, _, _, I, hq, hg, rfl⟩
  · rfl
  · exact absurd (I.labels_nil.closed_of_reaches_of_lt (by decide) (consistent_estimate _) hq hr
      (by rwa [estimate_self])) hg

/-- **An exhausted search** that never reached the sentinel has closed a set of tiles that no
legal step leaves and that does not hold the goal. -/
theorem separated (h : SearchEnds W cls prov policy request overflow r)
    (hov : ∀ st, overflow st → st.costOverflow = true) (hn : r.1.status = .noPath) :
    ∃ P : Coord3 → Prop, P request.start ∧ ¬ P request.goal ∧
      (∀ u v k, P u → LegalStep W cls prov u v k → P v) ∧
      (W.residency = .sparseResident → policy = .reportIndeterminate → ∀ u, P u →
        ∀ p ∈ forEachForward W cls prov u, p.availability ≠ .missingTopology) := by
  rcases h with ⟨_, _, _, _, -, -, rfl⟩ | ⟨st, _, _, I, hq, hg, rfl⟩
  · exact absurd hn (by simp [foundResult])
  · simp only [exhaustedResult] at hn
    split_ifs at hn with h1 h2
    refine ⟨(tileLabels W st.scratch).closed, ?_, hg, fun u v k hu he => ?_,
      fun hsp hpol u hu p hp hm => ?_⟩
    · exact I.labels.closed_of_empty hq (by rw [I.labels.start_g]; decide)
    · rcases I.labels_nil.relaxed u v k hu he id with hc | ⟨-, hlt⟩ | ⟨-, ho⟩
      · exact hc
      · exact I.labels.closed_of_empty hq hlt
      · exact absurd (hov st ho) h2
    · rcases I.missing u hu p hp hm with ⟨-, hmem⟩ | hmiss
      · exact absurd hmem List.not_mem_nil
      · exact h1 ⟨hsp, hmiss, hpol⟩

/-- **A missing chunk within the sentinel's range** keeps an exhausted search from reporting no
path. -/
theorem near (h : SearchEnds W cls prov policy request overflow r) (hn : r.1.status = .noPath)
    (hsp : W.residency = .sparseResident) (hpol : policy = .reportIndeterminate) {u : Coord3}
    (hr : Reaches (LegalStep W cls prov) request.start u C)
    (hlt : C + estimate cls prov request.goal u < infiniteCost) :
    ∀ p ∈ forEachForward W cls prov u, p.availability ≠ .missingTopology := by
  rcases h with ⟨_, _, _, _, -, -, rfl⟩ | ⟨st, _, _, I, hq, hg, rfl⟩
  · exact absurd hn (by simp [foundResult])
  · intro p hp hm
    have hclosed := I.labels_nil.closed_of_reaches_of_lt (by decide) (consistent_estimate _) hq hr
      hlt
    rcases I.missing u hclosed p hp hm with ⟨-, hmem⟩ | hmiss
    · exact absurd hmem List.not_mem_nil
    · simp [exhaustedResult, hsp, hpol, hmiss] at hn

/-- An undecided search has reached a tile beside a missing chunk. -/
theorem exists_missing (h : SearchEnds W cls prov policy request overflow r)
    (hi : r.1.status = .indeterminate) :
    ∃ u C, Reaches (LegalStep W cls prov) request.start u C ∧
      ∃ p ∈ forEachForward W cls prov u, p.availability = .missingTopology := by
  rcases h with ⟨_, _, _, _, -, -, rfl⟩ | ⟨st, _, _, I, hq, hg, rfl⟩
  · exact absurd hi (by simp [foundResult])
  · simp only [exhaustedResult] at hi
    split_ifs at hi with h1
    obtain ⟨u, hu, hp⟩ := I.noticed.crossedMissing h1.2.1
    exact ⟨u, _, I.labels.reaches (fun _ _ _ => LegalStep.pos) (I.labels.closed_lt u hu), hp⟩

/-- At unit cost a search with too few tiles in reach never reaches the sentinel. -/
theorem of_card (h : SearchEnds W cls prov policy request overflow r)
    (hu : UnitCost (LegalStep W cls prov)) {s : Finset Coord3}
    (hs : ∀ v C, Reaches (LegalStep W cls prov) request.start v C → v ∈ s)
    (hcard : s.card ≤ infiniteCost) :
    SearchEnds W cls prov policy request (fun _ => False) r := by
  have hpos : ∀ a b k, LegalStep W cls prov a b k → 0 < k := fun _ _ _ => LegalStep.pos
  have hK : ∀ a b k, LegalStep W cls prov a b k → k ≤ 1 := fun _ _ _ he => (hu _ _ _ he).le
  have hlt : 1 * (s.card - 1) < infiniteCost := by
    have := infiniteCost_pos
    omega
  have strengthen : ∀ {queue st cur probes},
      SearchInv W cls prov request queue (overflow st) st cur probes →
        SearchInv W cls prov request queue False st cur probes := fun I =>
    ⟨I.labels.no_overflow hpos hK hs hlt, I.label_le, I.parent_lt, I.path_nil, I.missing,
      I.noticed⟩
  rcases h with ⟨st, cur, probes, queue, I, hc, rfl⟩ | ⟨st, cur, queue, I, hq, hg, rfl⟩
  · exact Or.inl ⟨st, cur, probes, queue, strengthen I, hc, rfl⟩
  · exact Or.inr ⟨st, cur, queue, strengthen I, hq, hg, rfl⟩

end SearchEnds

end Tess
