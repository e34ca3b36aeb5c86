import Tess.Path.SegmentCache

/-!
# Runs of the cache of portal segments

Read through their slices, the entries are a list of segments that knows nothing of offsets.  The
cache behaves as that list, and each segment of it is one that was stored.

* `Segment`, `storeSegments` : the list, and what a store does to it;
* `SegmentCache.Becomes` : a change of the cache, read as a list;
* `SegmentCache.Inv` : tiling, budget and class, in every state;
* `segment_cache_runs` : **what holds in every run**.
-/

namespace Tess

/-! ### Segments -/

/-- A segment with its path. -/
structure Segment where
  /-- Ends of the segment. -/
  request : PathRequest
  /-- Outcome stored. -/
  status : PathStatus
  /-- Cost stored. -/
  cost : ℕ
  /-- Tiles. -/
  path : List Coord3
  /-- Content versions of the chunks of the tiles. -/
  dependencies : List ContentVersionDependency
  deriving DecidableEq

/-- An entry with its tiles. -/
def SegmentEntry.segment (e : SegmentEntry) (path : List Coord3) : Segment :=
  ⟨e.request, e.status, e.cost, path, e.dependencies⟩

/-- **What the cache holds**, read through the slices. -/
def SegmentCache.segments (c : SegmentCache) : List Segment :=
  c.entries.map fun e => e.segment (segmentLayout.slice c.paths e)

section Lists

variable {S : Shape} {Tag : Type*} (W : World S Tag)

/-- Every recorded version is current. -/
def Segment.valid (s : Segment) : Bool := depsValid W s.dependencies

/-- The segment of a store. -/
def SegmentStore.segment (st : SegmentStore S Tag) : Segment :=
  ⟨st.request, st.result.status, st.result.cost, st.result.path,
    pathDependencies st.world st.result.path⟩

/-- Room for one segment: at the budget the stale ones go, and then the oldest. -/
def roomSegments (budget : ℕ) (segments : List Segment) : List Segment :=
  if segments.length < budget then segments
  else
    let valid := segments.filter (Segment.valid W)
    valid.drop (valid.length + 1 - budget)

/-- **What a store does**: a found segment is added unless a valid one of its ends is there. -/
def storeSegments (budget : ℕ) (request : PathRequest) (result : PathResult)
    (segments : List Segment) : List Segment :=
  if budget = 0 ∨ result.status ≠ .found ∨
      ∃ s ∈ segments, s.request = request ∧ s.valid W = true then segments
  else
    roomSegments W budget segments ++
      [⟨request, result.status, result.cost, result.path, pathDependencies W result.path⟩]

/-- **Stale segments go first**: a valid one is gone only if no stale one is left. -/
def StaleFirst (before after : List Segment) : Prop :=
  (∃ s ∈ before, s.valid W = true ∧ s ∉ after) → ∀ s ∈ after, s.valid W = true

variable {W} {budget : ℕ} {segments : List Segment}

theorem length_roomSegments_lt (hpos : budget ≠ 0) :
    (roomSegments W budget segments).length < budget := by
  unfold roomSegments
  split_ifs with hlt
  · exact hlt
  · simp only [List.length_drop]
    omega

/-- What is recorded of a path is valid in the world it was recorded in. -/
theorem depsValid_pathDependencies (W : World S Tag) (path : List Coord3) :
    depsValid W (pathDependencies W path) = true := by
  refine List.all_eq_true.2 fun d hd => ?_
  rw [beq_iff_eq]
  exact ((pathDependencies_spec W path).1 d hd).symm

theorem staleFirst_storeSegments (W : World S Tag) (budget : ℕ) (request : PathRequest)
    (result : PathResult) (segments : List Segment) :
    StaleFirst W segments (storeSegments W budget request result segments) := by
  rintro ⟨s, hs, -, hgone⟩ t ht
  unfold storeSegments at hgone ht
  split_ifs at hgone ht with hkeep
  · exact absurd hs hgone
  · rcases List.mem_append.1 ht with ht | ht
    · unfold roomSegments at hgone ht
      split_ifs at hgone ht with hlt
      · exact absurd (List.mem_append_left _ hs) hgone
      · exact (List.mem_filter.1 (List.mem_of_mem_drop ht)).2
    · rw [List.mem_singleton.1 ht]
      exact depsValid_pathDependencies W result.path

end Lists

namespace SegmentCache

variable {S : Shape} {Tag : Type*} {W : World S Tag} {c c' c'' : SegmentCache}
  {limits : SegmentLimits} {segments : List Segment}

/-! ### Changes of the slices -/

/-- The slices lie one after the other in the whole list of tiles. -/
def Tiled (c : SegmentCache) : Prop := segmentLayout.Tiles 0 c.entries c.paths.length

/-- **A change of the cache**, read as a list of segments. -/
structure Becomes (c c' : SegmentCache) (segments : List Segment) : Prop where
  /-- The slices tile the list. -/
  tiled : c'.Tiled
  /-- What is read. -/
  segments_eq : c'.segments = segments
  /-- The budget stays. -/
  budget : c'.budget = c.budget
  /-- The class stays. -/
  boundClass : c'.boundClass = c.boundClass

theorem length_segments (c : SegmentCache) : c.segments.length = c.entries.length :=
  List.length_map _

theorem segment_withOffset (e : SegmentEntry) (n : ℕ) (path : List Coord3) :
    (segmentLayout.place e n).segment path = e.segment path := rfl

theorem Becomes.refl (h : c.Tiled) : Becomes c c c.segments := ⟨h, rfl, rfl, rfl⟩

/-- **The oldest entries go**, and the tiles of the others are read as before. -/
theorem evictOldest_spec (h : c.Tiled) (count : ℕ) :
    Becomes c (c.evictOldest count) (c.segments.drop count) := by
  obtain ⟨evicted, hev, hdrop⟩ : ∃ n,
      (if count < c.entries.length then count else c.entries.length) = n ∧
        c.segments.drop n = c.segments.drop count := by
    refine ⟨_, rfl, ?_⟩
    split_ifs with hlt
    · rfl
    · have hlen := length_segments c
      rw [List.drop_eq_nil_iff.2 (by omega), List.drop_eq_nil_iff.2 (by omega)]
  unfold evictOldest
  simp only [hev]
  rw [← hdrop]
  split_ifs with hzero
  · rw [hzero]
    exact .refl h
  · obtain ⟨htiles, hread⟩ := Layout.tiles_evict SegmentEntry.segment
      segment_withOffset evicted h
    exact ⟨htiles, hread, rfl, rfl⟩

theorem compactIndices_eq {keep : SegmentEntry → Bool} {es kept : List SegmentEntry} {nodes : ℕ}
    {r : List SegmentEntry × ℕ} (h : compactIndices limits keep es kept nodes = some r) :
    r.1 = kept ++ es.filter keep := by
  induction es generalizing kept nodes with
  | nil =>
    cases h
    rw [List.filter_nil, List.append_nil]
  | cons e es ih =>
    rw [compactIndices] at h
    cases hkeep : keep e with
    | false =>
      rw [if_pos (by rw [hkeep]; rfl)] at h
      rw [ih h, List.filter_cons_of_neg (by simp [hkeep])]
    | true =>
      rw [if_neg (by simp [hkeep])] at h
      split_ifs at h
      rw [ih h, List.filter_cons_of_pos hkeep, List.append_assoc, List.singleton_append]

/-- **A compaction** keeps the tiles of the entries it keeps, or changes nothing. -/
theorem compactChecked_spec (h : c.Tiled) (W : World S Tag) (m n : ℕ) :
    let r := c.compactChecked limits (fun e => depsValid W e.dependencies) m n
    (r.status = .capacityExceeded → r.cache = c) ∧
      (r.status = .completed → Becomes c r.cache (c.segments.filter (Segment.valid W))) := by
  unfold compactChecked
  cases hloop : compactIndices limits (fun e => depsValid W e.dependencies) c.entries [] 0 with
  | none => exact ⟨fun _ => rfl, fun hs => (by cases hs)⟩
  | some r =>
    obtain ⟨kept, nodes⟩ := r
    have hkept : kept = c.entries.filter fun e => depsValid W e.dependencies := by
      have := compactIndices_eq hloop
      rwa [List.nil_append] at this
    simp only
    split_ifs with hfull
    · exact ⟨fun _ => rfl, fun hs => (by cases hs)⟩
    · refine ⟨fun hs => (by cases hs), fun _ => ?_⟩
      have hbounds : ∀ e ∈ kept,
          segmentLayout.offset e + segmentLayout.size e ≤ c.paths.length := by
        intro e he
        rw [hkept] at he
        exact (Layout.Tiles.bounds h (List.mem_filter.1 he).1).2
      obtain ⟨htiles, hread⟩ := Layout.tiles_rebuild SegmentEntry.segment
        segment_withOffset hbounds
      refine ⟨htiles, hread.trans ?_, rfl, rfl⟩
      rw [hkept, segments, List.filter_map]
      rfl

/-- **An entry is added** behind all others. -/
theorem append_spec (h : c.Tiled) {e : SegmentEntry} {path : List Coord3}
    (hsize : e.pathSize = path.length) :
    Becomes c (c.append e path) (c.segments ++ [e.segment path]) := by
  obtain ⟨htiles, hread⟩ := Layout.tiles_append SegmentEntry.segment
    (e := e.withOffset c.paths.length) h rfl hsize
  exact ⟨htiles, hread, rfl, rfl⟩

/-! ### Calls -/

/-- **Room for one entry**, or nothing changes. -/
theorem makeRoom_spec (h : c.Tiled) (W : World S Tag) (n : ℕ) :
    ((c.makeRoom limits W n).status = .capacityExceeded → (c.makeRoom limits W n).cache = c) ∧
      ((c.makeRoom limits W n).status = .completed →
        Becomes c (c.makeRoom limits W n).cache (roomSegments W c.budget c.segments)) := by
  obtain ⟨hfail, hdone⟩ := @compactChecked_spec S Tag c limits h W 1 n
  unfold makeRoom
  by_cases hfull : c.budget ≤ c.entries.length
  · have hroom : roomSegments W c.budget c.segments =
        (c.segments.filter (Segment.valid W)).drop
          ((c.segments.filter (Segment.valid W)).length + 1 - c.budget) := by
      rw [roomSegments, if_neg (by rw [length_segments]; omega)]
    rw [if_pos hfull, hroom]
    generalize c.compactChecked limits (fun e => depsValid W e.dependencies) 1 n = r at hfail hdone
    cases hstatus : r.status with
    | capacityExceeded =>
      simp only [hstatus]
      exact ⟨fun _ => hfail hstatus, fun hs => (by simp at hs)⟩
    | completed =>
      have hkept := hdone hstatus
      have hlen : r.cache.entries.length = (c.segments.filter (Segment.valid W)).length := by
        rw [← length_segments, hkept.segments_eq]
      simp only [hstatus]
      split_ifs with hover
      · refine ⟨fun hs => (by cases hs), fun _ => ?_⟩
        obtain ⟨h1, h2, h3, h4⟩ := @evictOldest_spec { r.cache with sweeps := r.cache.sweeps + 1 }
          hkept.tiled (r.cache.entries.length - r.cache.budget + 1)
        refine ⟨h1, h2.trans ?_, h3.trans hkept.budget, h4.trans hkept.boundClass⟩
        show r.cache.segments.drop _ = _
        have hbudget : r.cache.budget ≤ r.cache.entries.length := hover
        rw [hkept.segments_eq, ← hlen, ← hkept.budget]
        congr 1
        omega
      · refine ⟨fun hs => (by cases hs), fun _ => ⟨hkept.tiled, ?_, hkept.budget, hkept.boundClass⟩⟩
        show r.cache.segments = _
        have hbudget : ¬ r.cache.budget ≤ r.cache.entries.length := hover
        rw [hkept.budget, hlen] at hbudget
        rw [hkept.segments_eq, Nat.sub_eq_zero_of_le (by omega), List.drop_zero]
  · rw [if_neg hfull]
    refine ⟨fun _ => rfl, fun _ => ?_⟩
    rw [roomSegments, if_pos (by rw [length_segments]; omega)]
    exact .refl h

/-- **The scan of the entries** finds a valid one of the request if there is one. -/
theorem find_spec (W : World S Tag) (request : PathRequest) (es : List SegmentEntry) :
    ((find W request es).1 = none ∧
        ∀ e ∈ es, e.request = request → depsValid W e.dependencies = false) ∨
      ∃ e ∈ es, (find W request es).1 = some e ∧ e.request = request ∧
        depsValid W e.dependencies = true := by
  induction es with
  | nil => exact .inl ⟨rfl, fun e he => absurd he List.not_mem_nil⟩
  | cons a es ih =>
    rw [find]
    by_cases hother : a.request.start ≠ request.start ∨ a.request.goal ≠ request.goal
    · have hne : a.request ≠ request := by
        rintro rfl
        rcases hother with h | h <;> exact h rfl
      rw [if_pos hother]
      rcases ih with ⟨hnone, hall⟩ | ⟨e, he, hfound⟩
      · exact .inl ⟨hnone, List.forall_mem_cons.2 ⟨fun h => absurd h hne, hall⟩⟩
      · exact .inr ⟨e, List.mem_cons_of_mem _ he, hfound⟩
    · have heq : a.request = request := by
        rw [not_or, not_not, not_not] at hother
        cases hreq : a.request
        cases request
        rw [hreq] at hother
        exact congrArg₂ PathRequest.mk hother.1 hother.2
      rw [if_neg hother]
      cases hvalid : depsValid W a.dependencies with
      | false =>
        rw [if_pos (by rfl)]
        rcases ih with ⟨hnone, hall⟩ | ⟨e, he, hfound⟩
        · exact .inl ⟨hnone, List.forall_mem_cons.2 ⟨fun _ => hvalid, hall⟩⟩
        · exact .inr ⟨e, List.mem_cons_of_mem _ he, hfound⟩
      | true =>
        rw [if_neg (by simp)]
        exact .inr ⟨a, List.mem_cons_self, rfl, heq, hvalid⟩

/-- A valid entry of the request, read as a segment. -/
theorem find_isSome_iff (W : World S Tag) (request : PathRequest) (c : SegmentCache) :
    (find W request c.entries).1.isSome = true ↔
      ∃ s ∈ c.segments, s.request = request ∧ s.valid W = true := by
  rcases find_spec W request c.entries with ⟨hnone, hall⟩ | ⟨e, he, hsome, hreq, hvalid⟩
  · rw [hnone]
    refine ⟨fun h => (by cases h), ?_⟩
    rintro ⟨s, hs, hreq, hvalid⟩
    obtain ⟨e, he, rfl⟩ := List.mem_map.1 hs
    have hstale : depsValid W e.dependencies = false := hall e he hreq
    rw [Segment.valid, SegmentEntry.segment, hstale] at hvalid
    cases hvalid
  · rw [hsome]
    exact ⟨fun _ => ⟨_, List.mem_map_of_mem he, hreq, hvalid⟩, fun _ => rfl⟩

/-- **A store** does what it does to the list, or changes nothing. -/
theorem storeChecked_spec (h : c.Tiled) (W : World S Tag) (request : PathRequest)
    (result : PathResult) :
    let r := c.storeChecked limits W request result
    (r.status = .capacityExceeded → r.cache = c) ∧
      (r.status = .completed →
        Becomes c r.cache (storeSegments W c.budget request result c.segments)) := by
  have hfind := find_isSome_iff W request c
  obtain ⟨hfail, hdone⟩ := @makeRoom_spec S Tag c limits h W result.path.length
  unfold storeChecked storeSegments
  by_cases hskip : c.budget = 0 ∨ result.status ≠ .found
  · rw [if_pos hskip, if_pos (by tauto)]
    exact ⟨fun _ => rfl, fun _ => .refl h⟩
  rw [if_neg hskip]
  simp only
  by_cases hthere : (find W request c.entries).1.isSome = true
  · rw [if_pos hthere, if_pos (.inr (.inr (hfind.1 hthere)))]
    exact ⟨fun hs => (by cases hs), fun _ => ⟨h, rfl, rfl, rfl⟩⟩
  · rw [if_neg hthere, if_neg (by rw [← hfind]; tauto)]
    cases c.storeCapacityPrecheck limits result.path.length with
    | capacityExceeded => exact ⟨fun _ => rfl, fun hs => (by cases hs)⟩
    | completed =>
      simp only
      cases hroom : (c.makeRoom limits W result.path.length).status with
      | capacityExceeded => exact ⟨fun _ => hfail hroom, fun hs => (by simp [hroom] at hs)⟩
      | completed =>
        refine ⟨fun hs => (by cases hs), fun _ => ?_⟩
        obtain ⟨h1, h2, h3, h4⟩ := hdone hroom
        obtain ⟨a1, a2, a3, a4⟩ := append_spec h1
          (show (newEntry W request result).pathSize = result.path.length from rfl)
        exact ⟨a1, a2.trans (by rw [h2]; rfl), a3.trans h3, a4.trans h4⟩

/-! ### Classes -/

/-- **What holds in every state** of a cache. -/
structure Inv (c : SegmentCache) : Prop where
  /-- The slices tile the list. -/
  tiled : c.Tiled
  /-- The budget is met. -/
  within : c.entries.length ≤ c.budget
  /-- Without a class there are no entries. -/
  unbound : c.boundClass = 0 → c.entries = []

/-- Tiles without an entry are none. -/
theorem Tiled.paths_eq_nil (h : c.Tiled) (hnil : c.entries = []) : c.paths = [] := by
  unfold Tiled at h
  rw [hnil] at h
  exact List.length_eq_zero_iff.1 (Eq.symm h)

theorem bindClass_of_eq {k : ClassIdentity} (heq : c.boundClass = k.identity) :
    c.bindClass k = c := if_pos heq

/-- **Another class** drops everything. -/
theorem Inv.bindClass_of_ne (h : Inv c) {k : ClassIdentity} (hne : c.boundClass ≠ k.identity) :
    (c.bindClass k).entries = [] ∧ (c.bindClass k).paths = [] := by
  rw [bindClass, if_neg hne]
  split_ifs with hunbound
  · exact ⟨rfl, rfl⟩
  · have hnil := h.unbound (not_not.1 hunbound)
    exact ⟨hnil, h.tiled.paths_eq_nil hnil⟩

theorem boundClass_bindClass (c : SegmentCache) (k : ClassIdentity) :
    (c.bindClass k).boundClass = k.identity := by
  unfold bindClass
  split_ifs with heq hunbound
  · exact heq
  · rfl
  · rfl

theorem budget_bindClass (c : SegmentCache) (k : ClassIdentity) :
    (c.bindClass k).budget = c.budget := by
  unfold bindClass
  split_ifs <;> rfl

/-- What a view of a class finds. -/
def boundSegments (c : SegmentCache) (k : ClassIdentity) : List Segment :=
  if c.boundClass = k.identity then c.segments else []

theorem Inv.bindClass (h : Inv c) (k : ClassIdentity) :
    Inv (c.bindClass k) ∧ (c.bindClass k).segments = c.boundSegments k := by
  have hbound : (c.bindClass k).boundClass ≠ 0 := by
    rw [boundClass_bindClass]
    exact k.identity_ne
  by_cases heq : c.boundClass = k.identity
  · rw [bindClass_of_eq heq, boundSegments, if_pos heq]
    exact ⟨h, rfl⟩
  · obtain ⟨hentries, hpaths⟩ := h.bindClass_of_ne heq
    refine ⟨⟨?_, ?_, fun hunbound => absurd hunbound hbound⟩, ?_⟩
    · unfold Tiled
      rw [hentries, hpaths]
      rfl
    · rw [hentries]
      exact Nat.zero_le _
    · rw [boundSegments, if_neg heq, segments, hentries]
      rfl

/-- A store in an empty cache fails only for what does not fit at all. -/
theorem storeChecked_of_empty (hentries : c.entries = []) (hpaths : c.paths = [])
    {request : PathRequest} {result : PathResult}
    (hfits : ¬ (c.budget ≠ 0 ∧ result.status = .found ∧
      (limits.entries = 0 ∨ limits.paths < result.path.length))) :
    (c.storeChecked limits W request result).status = .completed := by
  unfold storeChecked
  by_cases hskip : c.budget = 0 ∨ result.status ≠ .found
  · rw [if_pos hskip]
  · rw [not_or, not_not] at hskip
    have hroom : ¬ (limits.entries = 0 ∨ limits.paths < result.path.length) :=
      fun hfull => hfits ⟨hskip.1, hskip.2, hfull⟩
    have hpre : c.storeCapacityPrecheck limits result.path.length = .completed := by
      rw [storeCapacityPrecheck, hentries, hpaths, List.length_nil, List.length_nil,
        if_pos (by omega), if_neg (by omega)]
    have hmake : (c.makeRoom limits W result.path.length).status = .completed := by
      rw [makeRoom, hentries, List.length_nil, if_neg (by omega)]
      show c.reserveAppendCapacityChecked limits 1 result.path.length = _
      rw [reserveAppendCapacityChecked, hentries, hpaths, List.length_nil, List.length_nil,
        if_neg (by omega)]
    rw [if_neg (by tauto), hentries]
    simp only [find, hpre, hmake]
    rfl

/-- **The store of a view** works on what the view finds, or changes nothing at all. -/
theorem storeCheckedForClass_spec (h : Inv c) (W : World S Tag) (k : ClassIdentity)
    (request : PathRequest) (result : PathResult) :
    let r := c.storeCheckedForClass limits W k request result
    (r.status = .capacityExceeded → r.cache = c) ∧
      (r.status = .completed → Becomes (c.bindClass k) r.cache
        (storeSegments W c.budget request result (c.boundSegments k))) := by
  intro r
  obtain ⟨hbind, hsegs⟩ := h.bindClass k
  obtain ⟨hfail, hdone⟩ :=
    @storeChecked_spec S Tag (c.bindClass k) limits hbind.tiled W request result
  by_cases hpre : c.budget ≠ 0 ∧ result.status = .found ∧ c.boundClass ≠ k.identity ∧
      (limits.entries = 0 ∨ limits.paths < result.path.length)
  · have hr : r = ⟨c, .capacityExceeded⟩ := if_pos hpre
    rw [hr]
    exact ⟨fun _ => rfl, fun hs => (by cases hs)⟩
  · have hr : r = (c.bindClass k).storeChecked limits W request result := if_neg hpre
    rw [hr]
    rw [hsegs, budget_bindClass] at hdone
    refine ⟨fun hs => ?_, hdone⟩
    by_cases heq : c.boundClass = k.identity
    · rw [hfail hs, bindClass_of_eq heq]
    · obtain ⟨hentries, hpaths⟩ := h.bindClass_of_ne heq
      have hok := @storeChecked_of_empty S Tag W (c.bindClass k) limits hentries hpaths request
        result fun hbad => hpre ⟨budget_bindClass c k ▸ hbad.1, hbad.2.1, heq, hbad.2.2⟩
      rw [hok] at hs
      cases hs

/-- **A lookup** answers with a valid segment of its ends, or leaves the path alone. -/
theorem lookupAppend_spec (W : World S Tag) (c : SegmentCache) (request : PathRequest)
    (outPath : List Coord3) :
    let r := c.lookupAppend W request outPath
    (r.hit = {} ∧ r.outPath = outPath ∨
      ∃ s ∈ c.segments, s.request = request ∧ s.valid W = true ∧
        r.hit = ⟨true, s.status, s.cost⟩ ∧ r.outPath = stitch outPath s.path) ∧
      r.cache.entries = c.entries ∧ r.cache.paths = c.paths ∧ r.cache.budget = c.budget ∧
        r.cache.boundClass = c.boundClass := by
  unfold lookupAppend
  dsimp only
  rcases find_spec W request c.entries with ⟨hnone, -⟩ | ⟨e, he, hsome, hreq, hvalid⟩
  · rw [hnone]
    exact ⟨.inl ⟨rfl, rfl⟩, rfl, rfl, rfl, rfl⟩
  · rw [hsome]
    exact ⟨.inr ⟨_, List.mem_map_of_mem he, hreq, hvalid, rfl, rfl⟩, rfl, rfl, rfl, rfl⟩

/-! ### Every call -/

/-- **A new budget** drops the oldest segments, stale or not. -/
theorem setSegmentBudget_spec (h : c.Tiled) (budget : ℕ) :
    Becomes { c with budget := budget } (c.setSegmentBudget budget)
      (c.segments.drop (c.segments.length - budget)) := by
  unfold setSegmentBudget
  simp only
  split_ifs with hover
  · rw [length_segments]
    exact @evictOldest_spec { c with budget := budget } h (c.entries.length - budget)
  · rw [length_segments, Nat.sub_eq_zero_of_le (not_lt.1 hover), List.drop_zero]
    exact ⟨h, rfl, rfl, rfl⟩

/-- **A sweep** keeps the valid segments, or changes nothing. -/
theorem sweepStale_spec (h : c.Tiled) (W : World S Tag) :
    let r := c.sweepStale limits W
    (r.status = .capacityExceeded → r.cache = c) ∧
      (r.status = .completed → Becomes c r.cache (c.segments.filter (Segment.valid W))) := by
  obtain ⟨hfail, hdone⟩ := @compactChecked_spec S Tag c limits h W 0 0
  unfold sweepStale
  generalize c.compactChecked limits (fun e => depsValid W e.dependencies) 0 0 = r at hfail hdone
  cases hstatus : r.status with
  | capacityExceeded =>
    simp only [hstatus]
    exact ⟨fun _ => hfail hstatus, fun hs => (by simp at hs)⟩
  | completed =>
    simp only [hstatus]
    obtain ⟨h1, h2, h3, h4⟩ := hdone hstatus
    exact ⟨fun hs => (by simp at hs), fun _ => ⟨h1, h2, h3, h4⟩⟩

/-- A change keeps what holds in every state. -/
theorem Becomes.inv (hc : Becomes c c' segments) (hlen : segments.length ≤ c.budget)
    (hunbound : c.boundClass = 0 → segments = []) : Inv c' := by
  refine ⟨hc.tiled, ?_, fun hzero => ?_⟩
  · rw [← length_segments, hc.segments_eq, hc.budget]
    exact hlen
  · have hnil := hunbound (hc.boundClass ▸ hzero)
    rw [← List.length_eq_zero_iff, ← length_segments, hc.segments_eq, hnil, List.length_nil]

theorem Inv.segments_eq_nil (h : Inv c) (hzero : c.boundClass = 0) : c.segments = [] := by
  rw [segments, h.unbound hzero, List.map_nil]

theorem Inv.length_segments_le (h : Inv c) : c.segments.length ≤ c.budget :=
  (length_segments c).trans_le h.within

end SegmentCache

section Lists

variable {S : Shape} {Tag : Type*} {W : World S Tag} {budget : ℕ} {segments : List Segment}
  {request : PathRequest} {result : PathResult}

theorem length_storeSegments_le (hlen : segments.length ≤ budget) :
    (storeSegments W budget request result segments).length ≤ budget := by
  unfold storeSegments
  split_ifs with hskip
  · exact hlen
  · rw [not_or] at hskip
    have hroom := @length_roomSegments_lt S Tag W budget segments hskip.1
    rw [List.length_append, List.length_singleton]
    exact hroom

theorem mem_roomSegments {s : Segment} (hs : s ∈ roomSegments W budget segments) :
    s ∈ segments := by
  unfold roomSegments at hs
  split_ifs at hs
  · exact hs
  · exact (List.mem_filter.1 (List.mem_of_mem_drop hs)).1

/-- A segment after a store was there before it or is the one stored. -/
theorem mem_storeSegments {s : Segment}
    (hs : s ∈ storeSegments W budget request result segments) :
    s ∈ segments ∨ result.status = .found ∧ ∀ k : ℕ,
      s = (⟨k, W, request, result⟩ : SegmentStore S Tag).segment := by
  unfold storeSegments at hs
  split_ifs at hs with hskip
  · exact .inl hs
  · rw [not_or, not_or, not_not] at hskip
    rcases List.mem_append.1 hs with hs | hs
    · exact .inl (mem_roomSegments hs)
    · exact .inr ⟨hskip.2.1, fun k => List.mem_singleton.1 hs⟩

end Lists

namespace SegmentCache

variable {S : Shape} {Tag : Type*} {W : World S Tag} {c : SegmentCache}
  {log : List (SegmentStore S Tag)}

/-- Where the segments of a state come from: they were there, or the call stored them. -/
def Sources (W : World S Tag) (c c' : SegmentCache) (call : SegmentCall) : Prop :=
  ∀ s ∈ c'.segments, (s ∈ c.segments ∧ c'.boundClass = c.boundClass) ∨
    ∃ st ∈ call.stores W, st.identity = c'.boundClass ∧ s = st.segment ∧ st.result.status = .found

/-- **One call.** -/
theorem Inv.step (h : Inv c) (W : World S Tag) (call : SegmentCall) :
    Inv (c.step W call) ∧ Sources W c (c.step W call) call := by
  -- what a view of a class sees first
  have hbound : ∀ k : ClassIdentity, ∀ s ∈ (c.bindClass k).segments,
      s ∈ c.segments ∧ (c.bindClass k).boundClass = c.boundClass := by
    intro k s hs
    rw [(h.bindClass k).2, boundSegments] at hs
    split_ifs at hs with heq
    · exact ⟨hs, (boundClass_bindClass c k).trans heq.symm⟩
    · exact absurd hs List.not_mem_nil
  cases call with
  | lookup k request outPath =>
    obtain ⟨-, h1, h2, h3, h4⟩ := lookupAppend_spec W (c.bindClass k) request outPath
    obtain ⟨hinv, -⟩ := h.bindClass k
    have hsame : (c.step W (.lookup k request outPath)).segments = (c.bindClass k).segments := by
      show (((c.bindClass k).lookupAppend W request outPath).cache).segments = _
      rw [segments, h1, h2]
      rfl
    refine ⟨⟨?_, ?_, ?_⟩, fun s hs => .inl ?_⟩
    · show segmentLayout.Tiles 0 ((c.bindClass k).lookupAppend W request outPath).cache.entries
        ((c.bindClass k).lookupAppend W request outPath).cache.paths.length
      rw [h1, h2]
      exact hinv.tiled
    · show ((c.bindClass k).lookupAppend W request outPath).cache.entries.length ≤
        ((c.bindClass k).lookupAppend W request outPath).cache.budget
      rw [h1, h3]
      exact hinv.within
    · show ((c.bindClass k).lookupAppend W request outPath).cache.boundClass = 0 →
        ((c.bindClass k).lookupAppend W request outPath).cache.entries = []
      rw [h1, h4]
      exact hinv.unbound
    · rw [hsame] at hs
      obtain ⟨hmem, hclass⟩ := hbound k s hs
      exact ⟨hmem, h4.trans hclass⟩
  | store limits k request result =>
    obtain ⟨hfail, hdone⟩ := @storeCheckedForClass_spec S Tag c limits h W k request result
    show Inv (c.storeCheckedForClass limits W k request result).cache ∧
      Sources W c (c.storeCheckedForClass limits W k request result).cache _
    cases hstatus : (c.storeCheckedForClass limits W k request result).status with
    | capacityExceeded =>
      rw [hfail hstatus]
      exact ⟨h, fun s hs => .inl ⟨hs, rfl⟩⟩
    | completed =>
      have hbecomes := hdone hstatus
      have hlen : (c.boundSegments k).length ≤ c.budget := by
        rw [← (h.bindClass k).2, ← budget_bindClass c k]
        exact (h.bindClass k).1.length_segments_le
      refine ⟨hbecomes.inv ?_ fun hzero => ?_, fun s hs => ?_⟩
      · rw [budget_bindClass]
        exact length_storeSegments_le hlen
      · rw [boundClass_bindClass] at hzero
        exact absurd hzero k.identity_ne
      · have hclass : (c.storeCheckedForClass limits W k request result).cache.boundClass =
            k.identity := hbecomes.boundClass.trans (boundClass_bindClass c k)
        rw [hbecomes.segments_eq] at hs
        rcases mem_storeSegments hs with hs | ⟨hfound, hnew⟩
        · rw [← (h.bindClass k).2] at hs
          obtain ⟨hmem, heq⟩ := hbound k s hs
          exact .inl ⟨hmem, hbecomes.boundClass.trans heq⟩
        · exact .inr ⟨_, List.mem_singleton.2 rfl, hclass.symm, hnew k.identity, hfound⟩
  | setSegmentBudget budget =>
    have hbecomes := setSegmentBudget_spec h.tiled budget
    refine ⟨hbecomes.inv ?_ fun hzero => ?_, fun s hs => .inl ⟨?_, hbecomes.boundClass⟩⟩
    · rw [List.length_drop]
      show c.segments.length - (c.segments.length - budget) ≤ budget
      omega
    · rw [h.segments_eq_nil hzero, List.drop_nil]
    · rw [show (c.step W (.setSegmentBudget budget)).segments = _ from hbecomes.segments_eq] at hs
      exact List.mem_of_mem_drop hs
  | clear => exact ⟨⟨rfl, Nat.zero_le _, fun _ => rfl⟩, fun s hs => absurd hs List.not_mem_nil⟩
  | forClass k => exact ⟨(h.bindClass k).1, fun s hs => .inl (hbound k s hs)⟩
  | sweepStale limits =>
    obtain ⟨hfail, hdone⟩ := @sweepStale_spec S Tag c limits h.tiled W
    show Inv (c.sweepStale limits W).cache ∧ Sources W c (c.sweepStale limits W).cache _
    cases hstatus : (c.sweepStale limits W).status with
    | capacityExceeded =>
      rw [hfail hstatus]
      exact ⟨h, fun s hs => .inl ⟨hs, rfl⟩⟩
    | completed =>
      have hbecomes := hdone hstatus
      refine ⟨hbecomes.inv ((List.length_filter_le _ _).trans h.length_segments_le) fun hzero => ?_,
        fun s hs => .inl ⟨?_, hbecomes.boundClass⟩⟩
      · rw [h.segments_eq_nil hzero, List.filter_nil]
      · rw [hbecomes.segments_eq] at hs
        exact (List.mem_filter.1 hs).1
  | resetStats => exact ⟨⟨h.tiled, h.within, h.unbound⟩, fun s hs => .inl ⟨hs, rfl⟩⟩

/-! ### Runs -/

/-- **Every segment was stored** under the class of the cache, in a world that marked edits led on
from. -/
def Stored (W : World S Tag) (c : SegmentCache) (log : List (SegmentStore S Tag)) : Prop :=
  ∀ s ∈ c.segments, ∃ st ∈ log, st.identity = c.boundClass ∧ s = st.segment ∧
    st.result.status = .found ∧ ∃ keys, st.world.EditRun W keys

/-- **Every run** keeps the invariant, and its segments are those that were stored. -/
theorem inv_of_run (h : SegmentRun W c log) : Inv c ∧ Stored W c log := by
  induction h with
  | init _ =>
    exact ⟨⟨rfl, Nat.zero_le _, fun _ => rfl⟩, fun s hs => absurd hs List.not_mem_nil⟩
  | @call W c log call _ ih =>
    obtain ⟨hinv, hstored⟩ := ih
    obtain ⟨hinv', hsources⟩ := hinv.step W call
    refine ⟨hinv', fun s hs => ?_⟩
    rcases hsources s hs with ⟨hmem, hclass⟩ | ⟨st, hst, hclass, hseg, hfound⟩
    · obtain ⟨st, hst, hk, hrest⟩ := hstored s hmem
      exact ⟨st, List.mem_append_right _ hst, hk.trans hclass.symm, hrest⟩
    · refine ⟨st, List.mem_append_left _ hst, hclass, hseg, hfound, [], ?_⟩
      have hworld : st.world = W := by
        cases call with
        | store limits k request result =>
          rw [List.mem_singleton.1 hst]
        | _ => exact absurd hst List.not_mem_nil
      rw [hworld]
      exact .refl W
  | edit _ hedit ih =>
    obtain ⟨hinv, hstored⟩ := ih
    refine ⟨hinv, fun s hs => ?_⟩
    obtain ⟨st, hst, hk, hseg, hfound, keys, hrun⟩ := hstored s hs
    exact ⟨st, hst, hk, hseg, hfound, _, hrun.tail hedit⟩

/-- What a store records of a tile is its version in the world of the store. -/
theorem version_of_valid {st : SegmentStore S Tag} (hvalid : st.segment.valid W = true)
    {x : Coord3} (hx : x ∈ st.result.path) :
    W.contentVersion (chunkOf S x) = st.world.contentVersion (chunkOf S x) := by
  obtain ⟨hrecords, hdepends⟩ := pathDependencies_spec st.world st.result.path
  obtain ⟨d, hd, hkey⟩ := hdepends x hx
  have hcurrent := List.all_eq_true.1 hvalid d hd
  rw [beq_iff_eq, hrecords d hd, hkey] at hcurrent
  exact hcurrent

/-- **Lookups in a run**: a hit is a store of the class and of the ends whose tiles lie in chunks
with the versions they had. -/
theorem lookup_of_run (h : SegmentRun W c log) (k : ClassIdentity) (request : PathRequest)
    (outPath : List Coord3) :
    let r := c.lookupAppendForClass W k request outPath
    (r.hit.found = false → r.outPath = outPath) ∧
      (r.hit.found = true → ∃ st ∈ log, st.identity = k.identity ∧ st.request = request ∧
        st.result.status = .found ∧
        r.hit.status = st.result.status ∧ r.hit.cost = st.result.cost ∧
        r.outPath = stitch outPath st.result.path ∧
        depsValid W (pathDependencies st.world st.result.path) = true ∧
        ∀ x ∈ st.result.path,
          W.contentVersion (chunkOf S x) = st.world.contentVersion (chunkOf S x)) := by
  intro r
  obtain ⟨hinv, hstored⟩ := inv_of_run h
  obtain ⟨hanswer, -⟩ := lookupAppend_spec W (c.bindClass k) request outPath
  rcases hanswer with ⟨hmiss, hsame⟩ | ⟨s, hs, hreq, hvalid, hhit, hout⟩
  · refine ⟨fun _ => hsame, fun hfound => ?_⟩
    have hnone : r.hit.found = false := congrArg SegmentHit.found hmiss
    rw [hnone] at hfound
    cases hfound
  · refine ⟨fun hfound => ?_, fun _ => ?_⟩
    · have hsome : r.hit.found = true := congrArg SegmentHit.found hhit
      rw [hsome] at hfound
      cases hfound
    · rw [(hinv.bindClass k).2, boundSegments] at hs
      split_ifs at hs with hclass
      · obtain ⟨st, hst, hk, rfl, hfound, -⟩ := hstored s hs
        exact ⟨st, hst, hk.trans hclass, hreq, hfound, congrArg SegmentHit.status hhit,
          congrArg SegmentHit.cost hhit, hout, hvalid, fun x hx => version_of_valid hvalid hx⟩
      · exact absurd hs List.not_mem_nil

/-- A store drops stale segments first, whatever its class. -/
theorem staleFirst_storeCheckedForClass (h : Inv c) (W : World S Tag) (limits : SegmentLimits)
    (k : ClassIdentity) (request : PathRequest) (result : PathResult) :
    StaleFirst W c.segments (c.storeCheckedForClass limits W k request result).cache.segments := by
  obtain ⟨hfail, hdone⟩ := @storeCheckedForClass_spec S Tag c limits h W k request result
  cases hstatus : (c.storeCheckedForClass limits W k request result).status with
  | capacityExceeded =>
    rw [hfail hstatus]
    rintro ⟨s, hs, -, hgone⟩
    exact absurd hs hgone
  | completed =>
    rw [(hdone hstatus).segments_eq, boundSegments]
    split_ifs with hclass
    · exact staleFirst_storeSegments W c.budget request result c.segments
    · rintro - t ht
      rcases mem_storeSegments ht with ht | ⟨-, hnew⟩
      · exact absurd ht List.not_mem_nil
      · rw [hnew 0]
        exact depsValid_pathDependencies W result.path

/-- **The cache in every run**: its slices tile the tiles in order, it meets its budget, a lookup
answers with what was stored and is still valid, a store that cannot fit changes nothing and any
other drops what is stale before what is old, a new budget drops what is old, and another class
drops everything. -/
theorem segment_cache_runs (h : SegmentRun W c log) :
    (c.Tiled ∧ c.segments.flatMap Segment.path = c.paths ∧
      c.entries.Pairwise fun a b => a.pathOffset + a.pathSize ≤ b.pathOffset) ∧
    c.entries.length ≤ c.budget ∧
    (∀ k request outPath,
      let r := c.lookupAppendForClass W k request outPath
      (r.hit.found = false → r.outPath = outPath) ∧
        (r.hit.found = true → ∃ st ∈ log, st.identity = k.identity ∧ st.request = request ∧
          st.result.status = .found ∧
          r.hit.status = st.result.status ∧ r.hit.cost = st.result.cost ∧
          r.outPath = stitch outPath st.result.path ∧
          depsValid W (pathDependencies st.world st.result.path) = true ∧
          ∀ x ∈ st.result.path,
            W.contentVersion (chunkOf S x) = st.world.contentVersion (chunkOf S x))) ∧
    (∀ limits k request result,
      let r := c.storeCheckedForClass limits W k request result
      (r.status = .capacityExceeded → r.cache = c) ∧
        (r.status = .completed → r.cache.segments =
          storeSegments W c.budget request result (c.boundSegments k)) ∧
        StaleFirst W c.segments r.cache.segments) ∧
    (∀ limits,
      let r := c.sweepStale limits W
      (r.status = .capacityExceeded → r.cache = c) ∧
        (r.status = .completed → r.cache.segments = c.segments.filter (Segment.valid W))) ∧
    (∀ budget, (c.setSegmentBudget budget).segments =
      c.segments.drop (c.segments.length - budget)) ∧
    ∀ k : ClassIdentity, c.boundClass ≠ k.identity →
      (c.bindClass k).entries = [] ∧ (c.bindClass k).paths = [] := by
  obtain ⟨hinv, -⟩ := inv_of_run h
  refine ⟨⟨hinv.tiled, ?_, Layout.Tiles.pairwise hinv.tiled⟩, hinv.within, lookup_of_run h,
    fun limits k request result => ?_, fun limits => ?_, fun budget => ?_,
    fun k hne => hinv.bindClass_of_ne hne⟩
  · rw [segments, List.flatMap_map]
    exact Layout.Tiles.flatMap_slice hinv.tiled
  · obtain ⟨hfail, hdone⟩ := @storeCheckedForClass_spec S Tag c limits hinv W k request result
    exact ⟨hfail, fun hs => (hdone hs).segments_eq,
      staleFirst_storeCheckedForClass hinv W limits k request result⟩
  · obtain ⟨hfail, hdone⟩ := @sweepStale_spec S Tag c limits hinv.tiled W
    exact ⟨hfail, fun hs => (hdone hs).segments_eq⟩
  · exact (setSegmentBudget_spec hinv.tiled budget).segments_eq

end SegmentCache

/-! ### Two segments -/

/-- Room for a few. -/
def fewSegments : SegmentLimits := ⟨4, 4, 4⟩

/-- Some class. -/
def someClass : ClassIdentity := ⟨1, one_ne_zero⟩

/-- From a tile to itself. -/
def stay (x : Coord3) : PathRequest := ⟨x, x⟩

/-- The path of one tile. -/
def stayed (x : Coord3) : PathResult := { status := .found, path := [x] }

/-- Two opposite corners are stored. -/
def twoStored : SegmentCache :=
  ((({} : SegmentCache).step (openWorld cells)
    (.store fewSegments someClass (stay ⟨0, 0, 0⟩) (stayed ⟨0, 0, 0⟩))).step (openWorld cells)
    (.store fewSegments someClass (stay ⟨1, 1, 0⟩) (stayed ⟨1, 1, 0⟩)))

theorem run_twoStored : ∃ log, SegmentRun (closedCells ⟨1, 1, 0⟩) twoStored log :=
  ⟨_, .edit (.call _ (.call _ (.init rfl))) (World.editStep_write () (by decide) 0)⟩

/-- **A budget change evicts a valid segment and keeps a stale one**: it looks at no world. -/
theorem budget_change_keeps_stale :
    (∃ log, SegmentRun (closedCells ⟨1, 1, 0⟩) twoStored log) ∧
      ¬ StaleFirst (closedCells ⟨1, 1, 0⟩) twoStored.segments
        (twoStored.setSegmentBudget 1).segments := by
  refine ⟨run_twoStored, ?_⟩
  unfold StaleFirst
  decide +kernel

/-- In that run, a lookup of the segment that is valid. -/
theorem segment_cache_runs_cells :
    (twoStored.lookupAppendForClass (closedCells ⟨1, 1, 0⟩) someClass (stay ⟨0, 0, 0⟩) []).outPath =
      [⟨0, 0, 0⟩] ∧ twoStored.entries.length ≤ twoStored.budget := by
  obtain ⟨log, hrun⟩ := run_twoStored
  exact ⟨by decide +kernel, (SegmentCache.segment_cache_runs hrun).2.1⟩

end Tess
