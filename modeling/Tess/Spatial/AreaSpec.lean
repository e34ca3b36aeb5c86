import Tess.Spatial.AreaIndex

/-!
# What the area index says

* `AreaSummary.Sums` : the summary of some regions, with the least box around them;
* `AreaIndex.Describes` : **what an index says of a graph**: the area of every region, the sums of
  every area, and every connection with its portals;
* `buildAreaIndex_spec` : a build describes the graph, unless the caller has too many keys.
-/

namespace Tess

open Sorted

/-! ### Boxes -/

namespace Box3

/-- The box covers another one along every axis. -/
def Covers (b c : Box3) : Prop :=
  ∀ a, b.origin.get a ≤ c.origin.get a ∧
    c.origin.get a + c.extent.get a ≤ b.origin.get a + b.extent.get a

/-- The least box that covers some boxes. -/
structure LeastAround (b : Box3) (boxes : List Box3) : Prop where
  /-- It covers them. -/
  covers : ∀ c ∈ boxes, b.Covers c
  /-- So does every box that covers it, and no other. -/
  least : ∀ d : Box3, (∀ c ∈ boxes, d.Covers c) → d.Covers b

variable {b c d : Box3} {boxes : List Box3}

/-- A box covers the extended one when it covers both. -/
theorem covers_extendAreaBounds :
    d.Covers (extendAreaBounds b c false) ↔ d.Covers b ∧ d.Covers c := by
  have hend : ∀ a, (extendAreaBounds b c false).origin.get a +
      (extendAreaBounds b c false).extent.get a =
        max (b.origin.get a + b.extent.get a) (c.origin.get a + c.extent.get a) := by
    intro a
    simp only [extendAreaBounds, Bool.false_eq_true, if_false, ofEnds_origin, ofEnds_extent,
      absDelta_eq]
    omega
  have horigin : ∀ a, (extendAreaBounds b c false).origin.get a =
      min (b.origin.get a) (c.origin.get a) := by
    intro a
    simp only [extendAreaBounds, Bool.false_eq_true, if_false, ofEnds_origin]
  unfold Covers
  simp only [hend]
  simp only [horigin, le_min_iff, max_le_iff]
  exact ⟨fun h => ⟨fun a => ⟨(h a).1.1, (h a).2.1⟩, fun a => ⟨(h a).1.2, (h a).2.2⟩⟩,
    fun h a => ⟨⟨(h.1 a).1, (h.2 a).1⟩, (h.1 a).2, (h.2 a).2⟩⟩

theorem Covers.refl : b.Covers b := fun _ => ⟨le_rfl, le_rfl⟩

theorem Covers.trans (h : b.Covers c) (h' : c.Covers d) : b.Covers d :=
  fun a => ⟨(h a).1.trans (h' a).1, (h' a).2.trans (h a).2⟩

/-- **One more box** in the least one around some boxes. -/
theorem LeastAround.extend (h : b.LeastAround boxes) :
    (extendAreaBounds b c false).LeastAround (boxes ++ [c]) := by
  obtain ⟨hb, hc⟩ := covers_extendAreaBounds.1 (Covers.refl (b := extendAreaBounds b c false))
  constructor
  case covers =>
    intro d hd
    rcases List.mem_append.1 hd with hd | hd
    · exact hb.trans (h.covers d hd)
    · rw [List.mem_singleton.1 hd]
      exact hc
  case least =>
    intro d hd
    exact covers_extendAreaBounds.2 ⟨h.least d fun e he => hd e (List.mem_append_left _ he),
      hd c (List.mem_append_right _ (List.mem_singleton.2 rfl))⟩

end Box3

/-! ### What the index says -/

/-- **The summary of some regions.** -/
structure AreaSummary.Sums (area : AreaSummary) (members : List LocalRegion) : Prop where
  /-- It counts the regions. -/
  regionCount : area.regionCount = members.length
  /-- It counts their tiles. -/
  tileCount : area.tileCount = (members.map (·.tileCount)).sum
  /-- It has the least box around them. -/
  bounds : members ≠ [] → area.bounds.LeastAround (members.map (·.bounds))

section Summaries

variable {area : AreaSummary} {members : List LocalRegion} {region : LocalRegion} {id key : ℕ}

theorem AreaSummary.Sums.addRegion (h : area.Sums members) :
    (area.addRegion region).Sums (members ++ [region]) := by
  constructor
  case regionCount => simp [AreaSummary.addRegion, h.regionCount]
  case tileCount => simp [AreaSummary.addRegion, h.tileCount]
  case bounds =>
    intro _
    rw [List.map_append, List.map_singleton, AreaSummary.addRegion, h.regionCount]
    cases members with
    | nil => exact ⟨fun c hc => List.mem_singleton.1 hc ▸ Box3.Covers.refl,
        fun d hd => hd _ (List.mem_singleton.2 rfl)⟩
    | cons m members => exact (h.bounds (List.cons_ne_nil m members)).extend

theorem summaryOf_snoc : summaryOf id key (members ++ [region]) =
    (summaryOf id key members).addRegion region := by
  rw [summaryOf, List.foldl_append]
  rfl

/-- **The loop sums up.** -/
theorem sums_summaryOf : (summaryOf id key members).Sums members ∧
    (summaryOf id key members).id = id ∧ (summaryOf id key members).key = key := by
  induction members using List.reverseRecOn with
  | nil => exact ⟨⟨rfl, rfl, fun h => absurd rfl h⟩, rfl, rfl⟩
  | append_singleton members region ih =>
    rw [summaryOf_snoc]
    exact ⟨ih.1.addRegion, ih.2⟩

end Summaries

namespace AreaIndex

variable (index : AreaIndex) (g : GraphContents) (grouper : RegionRef → LocalRegion → ℕ)

/-- The portal leads from one of two areas to the other. -/
def Joins (a b : ℕ) (p : RegionPortal) : Prop :=
  index.areaOf p.fromRegion = a ∧ index.areaOf p.toRegion = b ∨
    index.areaOf p.fromRegion = b ∧ index.areaOf p.toRegion = a

instance (a b : ℕ) (p : RegionPortal) : Decidable (index.Joins a b p) :=
  inferInstanceAs (Decidable (_ ∨ _))

/-- **The index describes a graph** under the keys of a caller. -/
structure Describes : Prop where
  /-- A region with a key is in the area of that key. -/
  grouped : ∀ ref region, (ref, region) ∈ areaRegions g → grouper ref region ≠ 0 →
    ∃ area ∈ index.areas, index.areaOf ref = area.id ∧ area.key = grouper ref region
  /-- A region without a key is in no area. -/
  ungrouped : ∀ ref region, (ref, region) ∈ areaRegions g → grouper ref region = 0 →
    index.areaOf ref = 0
  /-- What is no region is in no area. -/
  absent : ∀ ref, (∀ region, (ref, region) ∉ areaRegions g) → index.areaOf ref = 0
  /-- Areas are numbered from one. -/
  ids : ∀ i area, index.areas[i]? = some area → area.id = i + 1
  /-- Their keys increase. -/
  keys : (index.areas.map (·.key)).Pairwise (· < ·)
  /-- Each of them sums up the regions of its key, which is not zero; there are some. -/
  sums : ∀ area ∈ index.areas, area.key ≠ 0 ∧ membersOf grouper (areaRegions g) area.key ≠ [] ∧
    area.Sums (membersOf grouper (areaRegions g) area.key)
  /-- Connections are in order, each pair once. -/
  ordered : index.connections.Pairwise fun c d =>
    c.first < d.first ∨ c.first = d.first ∧ c.second < d.second
  /-- Two areas are connected when some portal joins them; the portals of both ways count. -/
  mem_connections : ∀ a b n, ⟨a, b, n⟩ ∈ index.connections ↔
    0 < a ∧ a < b ∧ 0 < n ∧ n = g.portals.countP fun p => index.Joins a b p

end AreaIndex

section Connections

variable {a b c d n : ℕ} {edges : List ℕ}

/-- The sort key of two areas. -/
theorem packed_eq (hb : b < 2 ^ 32) : a <<< 32 ||| b = a * 2 ^ 32 + b := by
  rw [← Nat.shiftLeft_add_eq_or_of_lt hb, Nat.shiftLeft_eq]

/-- **The sort key gives both areas back.** -/
theorem ofRun_packed (ha : a < 2 ^ 32) (hb : b < 2 ^ 32) :
    AreaConnection.ofRun (a <<< 32 ||| b, n) = ⟨a, b, n⟩ := by
  rw [AreaConnection.ofRun]
  simp only [packed_eq hb, Nat.shiftRight_eq_div_pow, wrap32]
  congr 1 <;> omega

theorem packed_inj (hb : b < 2 ^ 32) (hd : d < 2 ^ 32)
    (h : a <<< 32 ||| b = c <<< 32 ||| d) : a = c ∧ b = d := by
  rw [packed_eq hb, packed_eq hd] at h
  omega

/-- Greater sort keys are greater pairs. -/
theorem lex_of_packed_lt (hb : b < 2 ^ 32) (hd : d < 2 ^ 32)
    (h : a <<< 32 ||| b < c <<< 32 ||| d) : a < c ∨ a = c ∧ b < d := by
  rw [packed_eq hb, packed_eq hd] at h
  omega

end Connections

section Spec

variable {g : GraphContents} {grouper : RegionRef → LocalRegion → ℕ} {uniqueKeys : List ℕ}
  {index : AreaIndex} {ref : RegionRef}

theorem areaId_lt {key : ℕ} : areaId uniqueKeys key < 2 ^ 32 := by
  rw [areaId]
  split_ifs
  · decide
  · exact Nat.mod_lt _ (by decide)

/-- The regions of an index, with their areas. -/
structure AreaIndex.Lists (index : AreaIndex) (g : GraphContents) (areas : List ℕ) : Prop where
  /-- The regions of the graph in order. -/
  refs : index.regionRefs = (areaRegions g).map Prod.fst
  /-- Their areas. -/
  areas_eq : index.regionAreas = areas
  /-- One for each region. -/
  length_eq : areas.length = (areaRegions g).length

variable (h : Numbered g) (hfew : totalRegions g.labels.localTopologies < 2 ^ 32)
include h hfew

/-- **The area of a region** is the one at its index. -/
theorem AreaIndex.Lists.areaOf_eq {areas : List ℕ} (hl : index.Lists g areas) :
    index.areaOf ref =
      if g.indexOf ref = invalidRegionIndex then 0 else areas.getD (g.indexOf ref) 0 := by
  have hpair := h.pairwise_refs hfew
  rw [AreaIndex.areaOf]
  simp only [hl.refs, hl.areas_eq]
  split_ifs with hget hinvalid hinvalid
  · obtain ⟨m, hm⟩ : ∃ m, Sorted.lowerBoundBy refLess ((areaRegions g).map Prod.fst) ref = m :=
      ⟨_, rfl⟩
    rw [hm, List.getElem?_map] at hget
    obtain ⟨e, he, rfl⟩ := Option.map_eq_some_iff.1 hget
    have hlt := (List.getElem?_eq_some_iff.1 he).1
    rw [length_areaRegions] at hlt
    rw [h.indexOf_entry hfew he, invalidRegionIndex] at hinvalid
    omega
  · congr 1
    obtain ⟨r, hr⟩ := h.exists_entry hfew hinvalid
    refine lowerBoundBy_eq refLess_irrefl hpair ?_
    rw [List.getElem?_map, hr, Option.map_some]
  · rfl
  · obtain ⟨r, hr⟩ := h.exists_entry hfew hinvalid
    have hr' : ((areaRegions g).map Prod.fst)[g.indexOf ref]? = some ref := by
      rw [List.getElem?_map, hr, Option.map_some]
    rw [lowerBoundBy_eq refLess_irrefl hpair hr'] at hget
    exact absurd hr' hget

/-- What is no region is in no area. -/
theorem AreaIndex.Lists.areaOf_absent {areas : List ℕ} (hl : index.Lists g areas)
    (hno : ∀ region, (ref, region) ∉ areaRegions g) : index.areaOf ref = 0 := by
  rw [hl.areaOf_eq h hfew]
  by_cases hinvalid : g.indexOf ref = invalidRegionIndex
  · rw [if_pos hinvalid]
  · obtain ⟨r, hr⟩ := h.exists_entry hfew hinvalid
    exact absurd (List.mem_of_getElem? hr) (hno r)

/-- The area of a region is that of its key. -/
theorem AreaIndex.Lists.areaOf_entry {region : LocalRegion}
    (hl : index.Lists g ((groupKeys grouper (areaRegions g)).map (areaId uniqueKeys)))
    (hin : (ref, region) ∈ areaRegions g) :
    index.areaOf ref = areaId uniqueKeys (grouper ref region) := by
  obtain ⟨m, hm⟩ := List.mem_iff_getElem?.1 hin
  have hindex := h.indexOf_entry hfew hm
  have hlt := (List.getElem?_eq_some_iff.1 hm).1
  rw [length_areaRegions] at hlt
  have hvalid : ¬ m = invalidRegionIndex := by
    unfold invalidRegionIndex
    omega
  rw [hl.areaOf_eq h hfew, hindex, if_neg hvalid, List.getD_eq_getElem?_getD, List.getElem?_map,
    groupKeys, List.getElem?_map, hm]
  rfl

/-- The sort key of a portal, in terms of the index. -/
theorem AreaIndex.Lists.areaEdge_eq {areas : List ℕ} (hl : index.Lists g areas) (p : RegionPortal) :
    areaEdge g areas p =
      if index.areaOf p.fromRegion = 0 ∨ index.areaOf p.toRegion = 0 ∨
          index.areaOf p.fromRegion = index.areaOf p.toRegion then none
      else some (min (index.areaOf p.fromRegion) (index.areaOf p.toRegion) <<< 32 |||
        max (index.areaOf p.fromRegion) (index.areaOf p.toRegion)) := by
  rw [areaEdge]
  simp only [hl.areaOf_eq h hfew]
  by_cases hfrom : g.indexOf p.fromRegion = invalidRegionIndex
  · simp [hfrom]
  · by_cases hto : g.indexOf p.toRegion = invalidRegionIndex
    · simp [hto]
    · simp only [hfrom, hto, or_self, if_false]

omit h hfew in
theorem joins_iff {a b : ℕ} {p : RegionPortal} (hlt : ∀ ref, index.areaOf ref < 2 ^ 32)
    (ha : 0 < a) (hab : a < b) (hb : b < 2 ^ 32) :
    (if index.areaOf p.fromRegion = 0 ∨ index.areaOf p.toRegion = 0 ∨
        index.areaOf p.fromRegion = index.areaOf p.toRegion then none
      else some (min (index.areaOf p.fromRegion) (index.areaOf p.toRegion) <<< 32 |||
        max (index.areaOf p.fromRegion) (index.areaOf p.toRegion))) = some (a <<< 32 ||| b) ↔
      index.Joins a b p := by
  have hs := hlt p.fromRegion
  have ht := hlt p.toRegion
  rw [AreaIndex.Joins]
  generalize index.areaOf p.fromRegion = s at *
  generalize index.areaOf p.toRegion = t at *
  constructor
  · intro heq
    split_ifs at heq with hno
    obtain ⟨hmin, hmax⟩ := packed_inj (max_lt hs ht) hb (Option.some.inj heq)
    omega
  · rintro (⟨rfl, rfl⟩ | ⟨rfl, rfl⟩)
    · rw [if_neg (by omega), min_eq_left hab.le, max_eq_right hab.le]
    · rw [if_neg (by omega), min_eq_right hab.le, max_eq_left hab.le]

/-- **The connections of an index** are the pairs of areas that portals join. -/
theorem connections_spec {areas : List ℕ} (hl : index.Lists g areas)
    (hlt : ∀ ref, index.areaOf ref < 2 ^ 32)
    (hconnections : index.connections =
      (runLengths (sorted (g.portals.filterMap (areaEdge g areas)))).map AreaConnection.ofRun) :
    (index.connections.Pairwise fun c d =>
      c.first < d.first ∨ c.first = d.first ∧ c.second < d.second) ∧
    ∀ a b n, ⟨a, b, n⟩ ∈ index.connections ↔
      0 < a ∧ a < b ∧ 0 < n ∧ n = g.portals.countP fun p => index.Joins a b p := by
  obtain ⟨hpair, hruns⟩ := runLengths_spec
    (pairwise_sorted (l := g.portals.filterMap (areaEdge g areas)))
  have hcount : ∀ e, (sorted (g.portals.filterMap (areaEdge g areas))).count e =
      g.portals.countP fun p => areaEdge g areas p == some e := fun e => by
    rw [perm_sorted.count_eq, List.count_filterMap]
  -- every run is one of a pair of areas
  have hrun : ∀ run ∈ runLengths (sorted (g.portals.filterMap (areaEdge g areas))),
      ∃ a b, 0 < a ∧ a < b ∧ b < 2 ^ 32 ∧ run.1 = a <<< 32 ||| b := by
    rintro ⟨e, n⟩ hin
    obtain ⟨hpos, hn⟩ := (hruns e n).1 hin
    rw [hn, hcount, List.countP_pos_iff] at hpos
    obtain ⟨p, -, hp⟩ := hpos
    rw [beq_iff_eq, hl.areaEdge_eq h hfew] at hp
    split_ifs at hp with hno
    have hs := hlt p.fromRegion
    have ht := hlt p.toRegion
    exact ⟨_, _, by omega, by omega, max_lt hs ht, (Option.some.inj hp).symm⟩
  rw [hconnections]
  constructor
  · rw [List.pairwise_map] at hpair ⊢
    refine hpair.imp_of_mem fun {x y} hx hy hlt => ?_
    obtain ⟨a, b, ha, hab, hb, hxe⟩ := hrun x hx
    obtain ⟨c, d, hc, hcd, hd, hye⟩ := hrun y hy
    obtain ⟨x, n⟩ := x
    obtain ⟨y, m⟩ := y
    subst hxe hye
    rw [ofRun_packed (hab.trans hb) hb, ofRun_packed (hcd.trans hd) hd]
    exact lex_of_packed_lt hb hd hlt
  · intro a b n
    rw [List.mem_map]
    constructor
    · rintro ⟨run, hin, heq⟩
      obtain ⟨c, d, hc, hcd, hd, hrune⟩ := hrun run hin
      obtain ⟨e, m⟩ := run
      subst hrune
      rw [ofRun_packed (hcd.trans hd) hd] at heq
      obtain ⟨rfl, rfl, rfl⟩ := AreaConnection.mk.inj heq
      obtain ⟨hpos, hm⟩ := (hruns _ _).1 hin
      refine ⟨hc, hcd, hpos, hm.trans ((hcount _).trans (List.countP_congr fun p _ => ?_))⟩
      rw [beq_iff_eq, hl.areaEdge_eq h hfew, joins_iff hlt hc hcd hd, decide_eq_true_iff]
    · rintro ⟨ha, hab, hpos, hn⟩
      have hb : b < 2 ^ 32 := by
        rw [hn, List.countP_pos_iff] at hpos
        obtain ⟨p, -, hp⟩ := hpos
        rcases of_decide_eq_true hp with ⟨-, rfl⟩ | ⟨rfl, -⟩
        · exact hlt _
        · exact hlt _
      refine ⟨(a <<< 32 ||| b, n), (hruns _ _).2 ⟨hpos, ?_⟩, ofRun_packed (hab.trans hb) hb⟩
      rw [hn, hcount]
      refine List.countP_congr fun p _ => ?_
      rw [beq_iff_eq, hl.areaEdge_eq h hfew, joins_iff hlt ha hab hb, decide_eq_true_iff]

/-- **An index with the arrays of the passes** describes the graph. -/
theorem describes_of_passes (hsorted : uniqueKeys.Pairwise (· < ·))
    (hmem : ∀ key, key ∈ uniqueKeys ↔ key ∈ groupKeys grouper (areaRegions g) ∧ key ≠ 0)
    (hfits : uniqueKeys.length < invalidRegionIndex)
    (hl : index.Lists g ((groupKeys grouper (areaRegions g)).map (areaId uniqueKeys)))
    (hareas : index.areas = areasOf grouper uniqueKeys (areaRegions g))
    (hconnections : index.connections =
      (runLengths (sorted (g.portals.filterMap (areaEdge g
        ((groupKeys grouper (areaRegions g)).map (areaId uniqueKeys)))))).map
          AreaConnection.ofRun) : index.Describes g grouper := by
  have hlt : ∀ ref, index.areaOf ref < 2 ^ 32 := by
    intro ref
    by_cases hin : ∃ region, (ref, region) ∈ areaRegions g
    · obtain ⟨region, hin⟩ := hin
      rw [hl.areaOf_entry h hfew hin]
      exact areaId_lt
    · rw [hl.areaOf_absent h hfew (not_exists.1 hin)]
      decide
  have hwrap : ∀ i < uniqueKeys.length, wrap32 (i + 1) = i + 1 := fun i hi => by
    rw [invalidRegionIndex] at hfits
    exact Nat.mod_eq_of_lt (by omega)
  have harea : ∀ i area, index.areas[i]? = some area → ∃ key, uniqueKeys[i]? = some key ∧
      area = summaryOf (i + 1) key (membersOf grouper (areaRegions g) key) := by
    intro i area hi
    rw [hareas, areasOf, List.getElem?_map, List.getElem?_zipIdx, Option.map_map] at hi
    obtain ⟨key, hkey, rfl⟩ := Option.map_eq_some_iff.1 hi
    refine ⟨key, hkey, ?_⟩
    simp only [Function.comp_apply, Nat.zero_add, hwrap i (List.getElem?_eq_some_iff.1 hkey).1]
  obtain ⟨hordered, hjoined⟩ := connections_spec h hfew hl hlt hconnections
  constructor
  case grouped =>
    intro ref region hin hkey
    have hunique : grouper ref region ∈ uniqueKeys :=
      (hmem _).2 ⟨List.mem_map_of_mem (f := fun e => grouper e.1 e.2) hin, hkey⟩
    obtain ⟨i, hi⟩ := List.mem_iff_getElem?.1 hunique
    have hlen := (List.getElem?_eq_some_iff.1 hi).1
    refine ⟨summaryOf (i + 1) (grouper ref region)
      (membersOf grouper (areaRegions g) (grouper ref region)), ?_, ?_, sums_summaryOf.2.2⟩
    · refine List.mem_of_getElem? (i := i) ?_
      rw [hareas, areasOf, List.getElem?_map, List.getElem?_zipIdx, hi]
      simp only [Option.map_some, Nat.zero_add, hwrap i hlen]
    · rw [hl.areaOf_entry h hfew hin, areaId, if_neg hkey, lowerBound_of_getElem? hsorted hi,
        hwrap i hlen, sums_summaryOf.2.1]
  case ungrouped =>
    intro ref region hin hkey
    rw [hl.areaOf_entry h hfew hin, hkey]
    rfl
  case absent => exact fun ref hno => hl.areaOf_absent h hfew hno
  case ids =>
    intro i area hi
    obtain ⟨key, -, rfl⟩ := harea i area hi
    exact sums_summaryOf.2.1
  case keys =>
    have hkeys : index.areas.map (·.key) = uniqueKeys := by
      refine List.ext_getElem? fun i => ?_
      rw [List.getElem?_map]
      cases hi : index.areas[i]? with
      | none =>
        have hlen : index.areas.length = uniqueKeys.length := by
          rw [hareas, areasOf, List.length_map, List.length_zipIdx]
        rw [List.getElem?_eq_none_iff, hlen] at hi
        exact (List.getElem?_eq_none hi).symm
      | some area =>
        obtain ⟨key, hkey, rfl⟩ := harea i area hi
        rw [hkey, Option.map_some, sums_summaryOf.2.2]
    rw [hkeys]
    exact hsorted
  case sums =>
    intro area hin
    obtain ⟨i, hi⟩ := List.mem_iff_getElem?.1 hin
    obtain ⟨key, hkey, rfl⟩ := harea i area hi
    obtain ⟨hsums, -, hk⟩ := @sums_summaryOf (membersOf grouper (areaRegions g) key) (i + 1) key
    obtain ⟨hgroup, hne⟩ := (hmem key).1 (List.mem_of_getElem? hkey)
    rw [hk]
    refine ⟨hne, ?_, hsums⟩
    obtain ⟨e, he, rfl⟩ := List.mem_map.1 hgroup
    refine List.ne_nil_of_mem (a := e.2) (List.mem_map_of_mem (List.mem_filter.2 ⟨he, ?_⟩))
    exact decide_eq_true rfl
  case ordered => exact hordered
  case mem_connections => exact hjoined

end Spec

section Build

variable {g : RegionGraph} (grouper : RegionRef → LocalRegion → ℕ)

theorem mem_uniqueKeys {entries : List (RegionRef × LocalRegion)} {key : ℕ} :
    key ∈ sortUnique (areaKeys grouper entries) ↔ key ∈ groupKeys grouper entries ∧ key ≠ 0 := by
  rw [mem_sortUnique, areaKeys, List.mem_filter, decide_eq_true_iff]

/-- The number of areas is that of the keys other than zero. -/
theorem length_uniqueKeys {entries : List (RegionRef × LocalRegion)} :
    (sortUnique (areaKeys grouper entries)).length =
      ((groupKeys grouper entries).toFinset.erase 0).card := by
  rw [← List.toFinset_card_of_nodup (pairwise_sortUnique.imp fun hlt => hlt.ne)]
  congr 1
  ext key
  rw [Finset.mem_erase, List.mem_toFinset, List.mem_toFinset, mem_uniqueKeys, and_comm]

/-- **A build** describes the graph, unless the caller has too many keys. -/
theorem buildAreaIndex_spec (address : ℕ) (h : Numbered g.toGraphContents)
    (hfew : totalRegions g.labels.localTopologies < 2 ^ 32) :
    ∃ r index, buildAreaIndex address g grouper = some (r, index) ∧
      if ((groupKeys grouper (areaRegions g.toGraphContents)).toFinset.erase 0).card <
          invalidRegionIndex then
        r = { areaCount := index.areas.length, connectionCount := index.connections.length } ∧
          index.Describes g.toGraphContents grouper ∧
          index.graphIdentity = some address ∧ index.graphRevision = g.revision
      else r = { status := .tooManyAreas } ∧ index.graphIdentity = none ∧
        ∀ ref, index.areaOf ref = 0 := by
  have hrange : ∀ ref, indexInRange g.toGraphContents ref = true := by
    intro ref
    rw [indexInRange, Bool.or_eq_true, beq_iff_eq, decide_eq_true_iff]
    exact or_iff_not_imp_left.2 fun hne => h.indexOf_lt hfew hne
  have hcount := h.count_eq hfew
  have hkeys := @foldl_noteKeys g.toGraphContents grouper [] (areaRegions g.toGraphContents) h
    hfew rfl
  have hfill := @foldl_noteFill g.toGraphContents grouper [] (areaRegions g.toGraphContents)
    (sortUnique (areaKeys grouper (areaRegions g.toGraphContents))) h hfew pairwise_sortUnique
    (fun key => mem_uniqueKeys grouper) rfl
  rw [← hcount] at hkeys hfill
  rw [buildAreaIndex, if_pos (by simp only [hrange, Bool.and_self, List.all_eq_true,
    implies_true, and_self]), ← length_uniqueKeys]
  have hstart : (areaRegions g.toGraphContents).foldl (AreaKeys.note g.toGraphContents grouper)
      { regionRefs := List.replicate g.count ⟨0, 0⟩, regionKeys := List.replicate g.count 0 } =
        { regionRefs := (areaRegions g.toGraphContents).map Prod.fst
          regionKeys := groupKeys grouper (areaRegions g.toGraphContents)
          uniqueKeys := areaKeys grouper (areaRegions g.toGraphContents) } := hkeys
  simp only [hstart]
  by_cases hfits : invalidRegionIndex ≤
      (sortUnique (areaKeys grouper (areaRegions g.toGraphContents))).length
  · simp only [if_pos hfits, if_neg (Nat.not_lt.2 hfits)]
    have hl : AreaIndex.Lists { regionRefs := (areaRegions g.toGraphContents).map Prod.fst
                                regionAreas := List.replicate g.count 0 }
        g.toGraphContents (List.replicate g.count 0) :=
      ⟨rfl, rfl, by rw [List.length_replicate, hcount]⟩
    refine ⟨_, _, rfl, rfl, rfl, fun ref => ?_⟩
    rw [hl.areaOf_eq h hfew]
    split_ifs
    · rfl
    · rw [List.getD_eq_getElem?_getD, List.getElem?_replicate]
      split_ifs <;> rfl
  · simp only [if_neg hfits, if_pos (Nat.not_le.1 hfits)]
    have hpass : (areaRegions g.toGraphContents).foldl
        (AreaFill.note g.toGraphContents (groupKeys grouper (areaRegions g.toGraphContents))
          (sortUnique (areaKeys grouper (areaRegions g.toGraphContents))))
        { regionAreas := List.replicate g.count 0
          areas := (sortUnique (areaKeys grouper (areaRegions g.toGraphContents))).zipIdx.map
            fun e => { id := wrap32 (e.2 + 1), key := e.1 } } = _ := hfill
    simp only [hpass]
    refine ⟨_, _, rfl, rfl, ?_, rfl, rfl⟩
    exact describes_of_passes h hfew pairwise_sortUnique (fun key => mem_uniqueKeys grouper)
      (Nat.not_le.1 hfits) ⟨rfl, rfl, by simp [groupKeys]⟩ rfl rfl

end Build

end Tess
