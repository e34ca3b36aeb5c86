import Tess.Topology.ChunkNeighbors
import Tess.Topology.Stairs

/-!
# The stairs of a chunk

The region graph asks a provider for the directed edges whose source lies in one chunk, the
searches ask it for the edges out of one tile and into one tile.  `StairTransitions` answers the
first question by a scan over the feet of the chunk and of five neighbours, and the other two by
a probe of four possible feet.

* `mem_emitForFeet` : what one scan emits, in terms of `tryLanding`;
* `forEachTransition_nodup`, `mem_forEachTransition` : what the scans of one chunk emit;
* `stairEdges_exact` : **the three enumerations give the same edges**, each once.
-/

namespace Tess

section Definitions

variable {S : Shape} {Tag : Type*} (tag : Tag) (W : World S Tag)

/-- `StairTransitions::emit_for_feet`: the edges of the stairs with a foot in one chunk and
their source in another. -/
def emitForFeet (footChunk originChunk : ℕ) : List (Coord3 × Coord3) :=
  match W.tryChunk footChunk with
  | none => []
  | some page =>
    (List.range S.localTileCount).flatMap fun rawId =>
      match stairDirection (page.field tag rawId) with
      | none => []
      | some (dx, dy) =>
        let foot := S.coordOf (S.chunkGrid.unrank footChunk) rawId
        let landing : Coord3 := ⟨foot.x + dx, foot.y + dy, foot.z + 1⟩
        if !S.contains landing then []
        else if chunkCrossings S foot landing > 1 then []
        else
          let landingChunk := S.chunkKey (S.chunkCoord landing)
          if footChunk = originChunk then
            (foot, landing) :: if landingChunk = originChunk then [(landing, foot)] else []
          else if landingChunk = originChunk then [(landing, foot)] else []

/-- The neighbours whose feet may have a landing in the chunk: below, west, east, south, north. -/
def footChunks (S : Shape) (g : GridCoord3) : List GridCoord3 :=
  (if g.z > 0 then [⟨g.x, g.y, g.z - 1⟩] else []) ++
  (if g.x > 0 then [⟨g.x - 1, g.y, g.z⟩] else []) ++
  (if g.x + 1 < S.chunkGrid.x then [⟨g.x + 1, g.y, g.z⟩] else []) ++
  (if g.y > 0 then [⟨g.x, g.y - 1, g.z⟩] else []) ++
  if g.y + 1 < S.chunkGrid.y then [⟨g.x, g.y + 1, g.z⟩] else []

/-- `scan_foot_chunk`: a chunk that is not resident holds no readable stairs. -/
def scanFootChunk (chunk : ℕ) (neighbor : GridCoord3) : List (Coord3 × Coord3) :=
  if W.residency = .sparseResident ∧ (W.tryChunk (S.chunkKey neighbor)).isNone then []
  else emitForFeet tag W (S.chunkKey neighbor) chunk

/-- `StairTransitions::for_each_transition`. -/
def forEachTransition (chunk : ℕ) : List (Coord3 × Coord3) :=
  emitForFeet tag W chunk chunk ++
    (footChunks S (S.chunkGrid.unrank chunk)).flatMap (scanFootChunk tag W chunk)

/-- The edges that `for_each_transition` emits over all chunks. -/
def chunkEdges : List (Coord3 × Coord3) :=
  (List.range S.chunkCount).flatMap (forEachTransition tag W)

/-- The edges that `for_each_forward` emits over all tiles. -/
def forwardEdges : List (Coord3 × Coord3) :=
  (List.range S.tileCount).flatMap fun key =>
    ((stairTransitions S tag).forEachForward W (S.coord key)).map fun candidate =>
      (S.coord key, candidate.dest)

/-- The edges that `for_each_reverse` emits over all tiles, from the tile they enter to the tile
they leave. -/
def reverseEdges : List (Coord3 × Coord3) :=
  (List.range S.tileCount).flatMap fun key =>
    ((stairTransitions S tag).forEachReverse W (S.coord key)).map fun candidate =>
      (S.coord key, candidate.dest)

/-- A stair joins the two tiles, in one direction or in the other. -/
def StairEdge (a b : Coord3) : Prop := tryLanding tag W a = some b ∨ tryLanding tag W b = some a

end Definitions

variable {S : Shape} {Tag : Type*} {tag : Tag} {W : World S Tag}

theorem stairEdge_comm {a b : Coord3} : StairEdge tag W a b ↔ StairEdge tag W b a := or_comm

/-! ### One stair -/

/-- What is known of a stair: its ends lie in the box, one step apart in the plane and one up,
with at most one chunk boundary between them. -/
structure IsStair (S : Shape) (foot landing : Coord3) : Prop where
  /-- The foot lies in the box. -/
  foot_mem : S.contains foot = true
  /-- So does the landing. -/
  landing_mem : S.contains landing = true
  /-- The landing is one level up. -/
  up : landing.z = foot.z + 1
  /-- And one step aside. -/
  aside : (landing.x = foot.x ∧ (landing.y - foot.y).natAbs = 1) ∨
    (landing.y = foot.y ∧ (landing.x - foot.x).natAbs = 1)
  /-- One boundary at most is crossed. -/
  crossings : chunkCrossings S foot landing ≤ 1

theorem stairDirection_aside {value dx dy : ℤ} (h : stairDirection value = some (dx, dy)) :
    (dx = 0 ∧ dy.natAbs = 1) ∨ (dy = 0 ∧ dx.natAbs = 1) := by
  unfold stairDirection at h
  split_ifs at h <;> simp only [Option.some.injEq, Prod.mk.injEq] at h <;> omega

theorem isStair_of_tryLanding {foot landing : Coord3}
    (h : tryLanding tag W foot = some landing) : IsStair S foot landing := by
  unfold tryLanding at h
  split_ifs at h with hf
  cases hp : W.tryChunk (W.resolve foot).chunkKey with
  | none => simp [hp] at h
  | some page =>
    cases hd : stairDirection (page.field tag (W.resolve foot).localTileId) with
    | none => simp [hp, hd] at h
    | some d =>
      obtain ⟨dx, dy⟩ := d
      simp only [hp, hd] at h
      split_ifs at h with hl hc
      simp only [Option.some.injEq] at h
      subst h
      refine ⟨by simpa using hf, by simpa using hl, rfl, ?_, hc⟩
      have := stairDirection_aside hd
      simp only
      omega

/-! ### One scan -/

/-- The edges of one stair whose source lies in `originChunk`. -/
def edgesOfStair (S : Shape) (footChunk originChunk : ℕ) (foot landing : Coord3) :
    List (Coord3 × Coord3) :=
  (if footChunk = originChunk then [(foot, landing)] else []) ++
    if S.chunkKey (S.chunkCoord landing) = originChunk then [(landing, foot)] else []

/-- **A scan** is a probe of `tryLanding` at every tile of the chunk. -/
theorem emitForFeet_eq {k : ℕ} (hk : k < S.chunkCount) (o : ℕ) :
    emitForFeet tag W k o = (List.range S.localTileCount).flatMap fun id =>
      match tryLanding tag W (S.coordOf (S.chunkGrid.unrank k) id) with
      | none => []
      | some landing => edgesOfStair S k o (S.coordOf (S.chunkGrid.unrank k) id) landing := by
  have hresolve (id : ℕ) (hid : id < S.localTileCount) :
      W.resolve (S.coordOf (S.chunkGrid.unrank k) id) = ⟨k, id⟩ := by
    rw [World.resolve, Shape.chunkCoord_coordOf hid, Shape.localCoord_coordOf hid,
      Shape.chunkKey, Shape.localTileId, Extent3.rank_unrank, Extent3.rank_unrank]
  have hmem (id : ℕ) (hid : id < S.localTileCount) :
      S.contains (S.coordOf (S.chunkGrid.unrank k) id) = true :=
    Shape.contains_coordOf (Extent3.has_unrank hk) hid
  unfold emitForFeet
  cases hp : W.tryChunk k with
  | none =>
    refine (List.flatMap_eq_nil_iff.2 fun id hid => ?_).symm
    have hid := List.mem_range.1 hid
    simp [tryLanding, hmem id hid, hresolve id hid, hp]
  | some page =>
    refine List.flatMap_congr fun id hid => ?_
    have hid := List.mem_range.1 hid
    cases hd : stairDirection (page.field tag id) with
    | none => simp [tryLanding, hmem id hid, hresolve id hid, hp, hd]
    | some d =>
      obtain ⟨dx, dy⟩ := d
      simp only [tryLanding, hmem id hid, hresolve id hid, hp, hd, Bool.not_true,
        Bool.false_eq_true, if_false]
      split_ifs <;> first | rfl | omega | simp_all [edgesOfStair]

/-- A list of lists has no duplicates when each element tells the list it comes from. -/
theorem nodup_flatMap_of_key {α β : Type*} {l : List α} {f : α → List β} (key : β → α)
    (hl : l.Nodup) (hf : ∀ a ∈ l, (f a).Nodup) (hkey : ∀ a ∈ l, ∀ b ∈ f a, key b = a) :
    (l.flatMap f).Nodup := by
  refine List.nodup_flatMap.2 ⟨hf, ?_⟩
  refine List.Pairwise.imp_of_mem (fun {a b} ha hb hab => ?_) hl
  intro x hx hx'
  exact hab ((hkey a ha x hx).symm.trans (hkey b hb x hx'))

theorem mem_edgesOfStair {k o : ℕ} {foot landing : Coord3} {e : Coord3 × Coord3} :
    e ∈ edgesOfStair S k o foot landing ↔
      (k = o ∧ e = (foot, landing)) ∨
        (S.chunkKey (S.chunkCoord landing) = o ∧ e = (landing, foot)) := by
  simp only [edgesOfStair, List.mem_append, mem_ite_singleton]

/-- **What one scan emits**: the stairs up that leave the chunk, and the stairs down to it. -/
theorem mem_emitForFeet {k : ℕ} (hk : k < S.chunkCount) {o : ℕ} {a b : Coord3} :
    (a, b) ∈ emitForFeet tag W k o ↔
      (k = o ∧ S.chunkKey (S.chunkCoord a) = k ∧ tryLanding tag W a = some b) ∨
        (S.chunkKey (S.chunkCoord b) = k ∧ S.chunkKey (S.chunkCoord a) = o ∧
          tryLanding tag W b = some a) := by
  have hchunk (id : ℕ) (hid : id < S.localTileCount) :
      S.chunkKey (S.chunkCoord (S.coordOf (S.chunkGrid.unrank k) id)) = k := by
    rw [Shape.chunkCoord_coordOf hid, Shape.chunkKey, Extent3.rank_unrank]
  have hback (c : Coord3) (hc : S.contains c = true) (hck : S.chunkKey (S.chunkCoord c) = k) :
      S.coordOf (S.chunkGrid.unrank k) (S.localTileId (S.localCoord c)) = c := by
    rw [← hck, Shape.chunkKey, Extent3.unrank_rank (Shape.has_chunkCoord hc),
      Shape.coordOf_chunkCoord hc]
  have hscan {foot landing : Coord3} (hck : S.chunkKey (S.chunkCoord foot) = k)
      (hl : tryLanding tag W foot = some landing)
      (he : (a, b) ∈ edgesOfStair S k o foot landing) : (a, b) ∈ emitForFeet tag W k o := by
    rw [emitForFeet_eq hk]
    refine List.mem_flatMap.2 ⟨_, List.mem_range.2 (Shape.localTileId_lt foot), ?_⟩
    rw [hback _ (isStair_of_tryLanding hl).foot_mem hck, hl]
    exact he
  constructor
  · rw [emitForFeet_eq hk]
    intro h
    obtain ⟨id, hid, h⟩ := List.mem_flatMap.1 h
    have hfoot := hchunk id (List.mem_range.1 hid)
    revert h hfoot
    generalize S.coordOf (S.chunkGrid.unrank k) id = foot
    intro h hfoot
    cases hl : tryLanding tag W foot with
    | none => simp [hl] at h
    | some landing =>
      rw [hl] at h
      rcases mem_edgesOfStair.1 h with ⟨hko, he⟩ | ⟨ho, he⟩
      · obtain ⟨rfl, rfl⟩ := Prod.mk.injEq .. ▸ he
        exact Or.inl ⟨hko, hfoot, hl⟩
      · obtain ⟨rfl, rfl⟩ := Prod.mk.injEq .. ▸ he
        exact Or.inr ⟨hfoot, ho, hl⟩
  · rintro (⟨hko, ha, hl⟩ | ⟨hb, ha, hl⟩)
    · exact hscan ha hl (mem_edgesOfStair.2 (Or.inl ⟨hko, rfl⟩))
    · exact hscan hb hl (mem_edgesOfStair.2 (Or.inr ⟨ha, rfl⟩))

/-- The lower end of an edge. -/
def lowerEnd (e : Coord3 × Coord3) : Coord3 := if e.1.z < e.2.z then e.1 else e.2

theorem lowerEnd_of_mem {k o : ℕ} {foot landing : Coord3} {e : Coord3 × Coord3}
    (hs : IsStair S foot landing) (he : e ∈ edgesOfStair S k o foot landing) :
    lowerEnd e = foot := by
  have hup := hs.up
  rcases mem_edgesOfStair.1 he with ⟨-, rfl⟩ | ⟨-, rfl⟩
  · exact if_pos (by simp only; omega)
  · exact if_neg (by simp only; omega)

theorem edgesOfStair_nodup {k o : ℕ} {foot landing : Coord3} (hs : IsStair S foot landing) :
    (edgesOfStair S k o foot landing).Nodup := by
  have hne : foot ≠ landing := by
    intro h
    have := hs.up
    rw [h] at this
    omega
  unfold edgesOfStair
  split_ifs <;> simp [hne]

theorem emitForFeet_nodup {k : ℕ} (hk : k < S.chunkCount) (o : ℕ) :
    (emitForFeet tag W k o).Nodup := by
  rw [emitForFeet_eq hk]
  refine nodup_flatMap_of_key (fun e => S.localTileId (S.localCoord (lowerEnd e)))
    List.nodup_range (fun id _ => ?_) fun id hid e he => ?_
  · cases hl : tryLanding tag W (S.coordOf (S.chunkGrid.unrank k) id) with
    | none => exact List.nodup_nil
    | some landing => exact edgesOfStair_nodup (isStair_of_tryLanding hl)
  · cases hl : tryLanding tag W (S.coordOf (S.chunkGrid.unrank k) id) with
    | none => simp [hl] at he
    | some landing =>
      rw [hl] at he
      rw [lowerEnd_of_mem (isStair_of_tryLanding hl) he,
        Shape.localCoord_coordOf (List.mem_range.1 hid), Shape.localTileId, Extent3.rank_unrank]

/-! ### The scans of one chunk -/

/-- The chunk itself and the neighbours that are scanned with it. -/
theorem forEachTransition_eq {k : ℕ} : forEachTransition tag W k =
    (S.chunkGrid.unrank k :: footChunks S (S.chunkGrid.unrank k)).flatMap fun n =>
      emitForFeet tag W (S.chunkKey n) k := by
  have hscan (n : GridCoord3) : scanFootChunk tag W k n = emitForFeet tag W (S.chunkKey n) k := by
    unfold scanFootChunk
    split_ifs with h
    · rw [emitForFeet, Option.isNone_iff_eq_none.1 h.2]
    · rfl
  have hown : S.chunkKey (S.chunkGrid.unrank k) = k := Extent3.rank_unrank k
  rw [List.flatMap_cons, hown, forEachTransition]
  congr 2
  funext n
  exact hscan n

theorem ite_singleton_sublist {α : Type*} {p : Prop} [Decidable p] {a b : α} (h : p → a = b) :
    (if p then [a] else []).Sublist [b] := by
  split_ifs with hp
  · rw [h hp]
  · exact List.nil_sublist _

theorem footChunks_nodup (g : GridCoord3) : (g :: footChunks S g).Nodup := by
  refine List.Nodup.of_map GridCoord3.toCoord ?_
  have hsub : ((g :: footChunks S g).map GridCoord3.toCoord).Sublist
      ([g.toCoord] ++ [⟨g.x, g.y, g.z - 1⟩] ++ [⟨g.x - 1, g.y, g.z⟩] ++ [⟨g.x + 1, g.y, g.z⟩] ++
        [⟨g.x, g.y - 1, g.z⟩] ++ [⟨g.x, g.y + 1, g.z⟩]) := by
    rw [List.map_cons, footChunks]
    simp only [List.map_append, apply_ite (List.map GridCoord3.toCoord), List.map_cons,
      List.map_nil]
    rw [← List.singleton_append]
    simp only [← List.append_assoc]
    refine .append (.append (.append (.append (.append (.refl _) ?_) ?_) ?_) ?_) ?_ <;>
      refine ite_singleton_sublist fun hp => ?_ <;> simp only [GridCoord3.toCoord] <;> congr 1 <;>
      omega
  refine hsub.nodup ?_
  simp [GridCoord3.toCoord]
  omega

theorem has_of_mem_footChunks {g n : GridCoord3} (hg : S.chunkGrid.Has g)
    (hn : n ∈ g :: footChunks S g) : S.chunkGrid.Has n := by
  obtain ⟨gx, gy, gz⟩ := hg
  rcases List.mem_cons.1 hn with rfl | hn
  · exact ⟨gx, gy, gz⟩
  · simp only [footChunks, List.mem_append, mem_ite_singleton] at hn
    rcases hn with (((⟨h, rfl⟩ | ⟨h, rfl⟩) | ⟨h, rfl⟩) | ⟨h, rfl⟩) | ⟨h, rfl⟩ <;>
      refine ⟨?_, ?_, ?_⟩ <;> simp only <;> omega

/-- A step of one along an axis crosses at most one boundary, and the one it faces. -/
theorem div_step {a b : ℤ} {w : ℕ} (ha : 0 ≤ a) (hab : a ≤ b) (hb : b ≤ a + 1) :
    a.toNat / w ≤ b.toNat / w ∧ b.toNat / w ≤ a.toNat / w + 1 := by
  have h1 : a.toNat ≤ b.toNat := by omega
  have h2 : b.toNat ≤ a.toNat + 1 := by omega
  refine ⟨Nat.div_le_div_right h1, (Nat.div_le_div_right h2).trans ?_⟩
  rw [Nat.succ_div]
  split_ifs <;> omega

/-- One chunk is the other, lies above it, or lies beside it in the plane. -/
def ChunkStep (g h : GridCoord3) : Prop :=
  (h.x = g.x ∧ h.y = g.y ∧ (h.z = g.z ∨ h.z = g.z + 1)) ∨
    (h.z = g.z ∧ h.y = g.y ∧ (h.x = g.x + 1 ∨ h.x + 1 = g.x)) ∨
    (h.z = g.z ∧ h.x = g.x ∧ (h.y = g.y + 1 ∨ h.y + 1 = g.y))

theorem one_of_three {p q r : Prop} [Decidable p] [Decidable q] [Decidable r]
    (h : (if p then 1 else 0) + (if q then 1 else 0) + (if r then 1 else 0) ≤ 1) :
    (¬ p ∧ ¬ q) ∨ (¬ p ∧ ¬ r) ∨ (¬ q ∧ ¬ r) := by
  by_cases hp : p <;> by_cases hq : q <;> by_cases hr : r <;> simp_all

theorem IsStair.chunkStep {foot landing : Coord3} (hs : IsStair S foot landing) :
    ChunkStep (S.chunkCoord foot) (S.chunkCoord landing) := by
  obtain ⟨⟨fx, -⟩, ⟨fy, -⟩, fz, -⟩ := Shape.contains_iff.1 hs.foot_mem
  obtain ⟨⟨lx, -⟩, ⟨ly, -⟩, -, -⟩ := Shape.contains_iff.1 hs.landing_mem
  have hup := hs.up
  have haside := hs.aside
  have hside (a b : ℤ) (w : ℕ) (ha : 0 ≤ a) (hb : 0 ≤ b) (hab : (a - b).natAbs ≤ 1) :
      a.toNat / w ≤ b.toNat / w + 1 ∧ b.toNat / w ≤ a.toNat / w + 1 := by
    rcases le_total a b with h | h
    · have := div_step (w := w) ha h (by omega)
      omega
    · have := div_step (w := w) hb h (by omega)
      omega
  have hx := hside foot.x landing.x S.chunk.x fx lx (by omega)
  have hy := hside foot.y landing.y S.chunk.y fy ly (by omega)
  have hz := div_step (w := S.chunk.z) fz (b := landing.z) (by omega) (by omega)
  have hcross := one_of_three hs.crossings
  simp only [Shape.chunkCoord, not_not] at hcross
  simp only [ChunkStep, Shape.chunkCoord]
  omega

/-- **The foot of a stair lies in a scanned chunk** of its landing. -/
theorem ChunkStep.mem_footChunks {g h : GridCoord3} (hs : ChunkStep g h)
    (hg : S.chunkGrid.Has g) : g ∈ h :: footChunks S h := by
  obtain ⟨gx, gy, gz⟩ := hg
  obtain ⟨a, b, c⟩ := g
  obtain ⟨a', b', c'⟩ := h
  simp only [footChunks, List.mem_cons, List.mem_append, mem_ite_singleton, GridCoord3.mk.injEq]
  simp only [ChunkStep] at hs
  simp only at gx gy gz
  rcases hs with ⟨rfl, rfl, rfl | rfl⟩ | ⟨rfl, rfl, rfl | rfl⟩ | ⟨rfl, rfl, rfl | rfl⟩
  · simp
  · simp
  · simp
  · simp [gx]
  · simp
  · simp [gy]

/-- Stairs have two levels, and the hex lattice has one. -/
theorem IsStair.orthogonal {foot landing : Coord3} (hs : IsStair S foot landing) :
    S.lattice = .orthogonal := by
  cases hl : S.lattice with
  | orthogonal => rfl
  | hexAxial =>
    obtain ⟨hz, -⟩ := S.lattice_valid hl
    have h1 := (Shape.contains_iff.1 hs.foot_mem).2.2
    have h2 := (Shape.contains_iff.1 hs.landing_mem).2.2
    have h3 := hs.up
    omega

/-- **A stair joins a chunk with itself or with a neighbour.** -/
theorem IsStair.sameOrFaceNeighborChunk {foot landing : Coord3} (hs : IsStair S foot landing) :
    sameOrFaceNeighborChunk S foot landing = true := by
  have hl := hs.orthogonal
  rw [sameOrFaceNeighborChunk_iff hs.foot_mem hs.landing_mem, ChunkAdjacent, hl]
  have hstep := hs.chunkStep
  revert hstep
  generalize S.chunkCoord foot = g
  generalize S.chunkCoord landing = h
  intro hstep
  simp only [ChunkStep] at hstep
  simp only [FaceAdjacent, gridDist, GridCoord3.toCoord, GridCoord3.ext_iff]
  omega

/-- **What the scans of one chunk emit**: the stairs with their source in it. -/
theorem mem_forEachTransition {k : ℕ} (hk : k < S.chunkCount) {a b : Coord3} :
    (a, b) ∈ forEachTransition tag W k ↔
      StairEdge tag W a b ∧ S.chunkKey (S.chunkCoord a) = k := by
  have hg := Extent3.has_unrank hk
  have hkey (n : GridCoord3) (hn : S.chunkGrid.Has n) : S.chunkKey n < S.chunkCount :=
    Extent3.rank_lt hn
  rw [forEachTransition_eq, List.mem_flatMap]
  constructor
  · rintro ⟨n, hn, he⟩
    rcases (mem_emitForFeet (hkey n (has_of_mem_footChunks hg hn))).1 he with
      ⟨hko, ha, hl⟩ | ⟨-, ha, hl⟩
    · exact ⟨Or.inl hl, ha.trans hko⟩
    · exact ⟨Or.inr hl, ha⟩
  · rintro ⟨hl | hl, ha⟩
    · refine ⟨_, List.mem_cons_self, (mem_emitForFeet (hkey _ hg)).2 (Or.inl ⟨?_, ?_, hl⟩)⟩
      · exact Extent3.rank_unrank k
      · rw [ha]
        exact (Extent3.rank_unrank k).symm
    · have hs := isStair_of_tryLanding hl
      have hb := Shape.has_chunkCoord hs.foot_mem
      have hown : S.chunkGrid.unrank k = S.chunkCoord a := by
        rw [← ha, Shape.chunkKey, Extent3.unrank_rank (Shape.has_chunkCoord hs.landing_mem)]
      rw [hown]
      exact ⟨_, hs.chunkStep.mem_footChunks hb,
        (mem_emitForFeet (hkey _ hb)).2 (Or.inr ⟨rfl, ha, hl⟩)⟩

theorem forEachTransition_nodup {k : ℕ} (hk : k < S.chunkCount) :
    (forEachTransition tag W k).Nodup := by
  have hg := Extent3.has_unrank hk
  rw [forEachTransition_eq]
  refine nodup_flatMap_of_key (fun e => S.chunkCoord (lowerEnd e)) (footChunks_nodup _)
    (fun n hn => emitForFeet_nodup (Extent3.rank_lt (has_of_mem_footChunks hg hn)) k) ?_
  intro n hn e he
  obtain ⟨a, b⟩ := e
  have hn' := has_of_mem_footChunks hg hn
  have hchunk (foot : Coord3) (hf : S.contains foot = true)
      (hkey : S.chunkKey (S.chunkCoord foot) = S.chunkKey n) : S.chunkCoord foot = n := by
    rw [← Extent3.unrank_rank (Shape.has_chunkCoord hf), ← Extent3.unrank_rank hn']
    exact congrArg S.chunkGrid.unrank hkey
  rcases (mem_emitForFeet (Extent3.rank_lt hn')).1 he with ⟨-, ha, hl⟩ | ⟨hb, -, hl⟩
  · have hs := isStair_of_tryLanding hl
    have hup := hs.up
    rw [lowerEnd, if_pos (by simp only; omega)]
    exact hchunk a hs.foot_mem ha
  · have hs := isStair_of_tryLanding hl
    have hup := hs.up
    rw [lowerEnd, if_neg (by simp only; omega)]
    exact hchunk b hs.foot_mem hb

/-! ### The edges of one tile -/

theorem StairEdge.contains {a b : Coord3} (h : StairEdge tag W a b) :
    S.contains a = true ∧ S.contains b = true := by
  rcases h with h | h
  · have hs := isStair_of_tryLanding h
    exact ⟨hs.foot_mem, hs.landing_mem⟩
  · have hs := isStair_of_tryLanding h
    exact ⟨hs.landing_mem, hs.foot_mem⟩

/-- With every chunk present, a probe answers whether the stair is there. -/
theorem probeFoot_of_dense (hd : W.IsDense) {c foot : Coord3} : probeFoot tag W c foot =
    if tryLanding tag W foot = some c then [{ dest := foot }] else [] := by
  unfold probeFoot
  by_cases hc : S.contains foot = true
  · have hp : W.tryChunk (W.resolve foot).chunkKey ≠ none := by
      rw [Ne, tryChunk_resolve_eq_none hc, not_not, hd.resident_iff]
      exact hc
    obtain ⟨page, hp⟩ := Option.ne_none_iff_exists'.1 hp
    simp [hc, hp]
  · have hl : tryLanding tag W foot ≠ some c := fun hl =>
      hc (isStair_of_tryLanding hl).foot_mem
    simp [hc, hl]

/-- The tiles that a stair of a tile may have its other end at: above it, then below it. -/
def stairEnds (c : Coord3) : List Coord3 :=
  [⟨c.x - 1, c.y, c.z - 1⟩, ⟨c.x + 1, c.y, c.z - 1⟩, ⟨c.x, c.y - 1, c.z - 1⟩,
    ⟨c.x, c.y + 1, c.z - 1⟩]

theorem IsStair.mem_stairEnds {foot landing : Coord3} (hs : IsStair S foot landing) :
    foot ∈ stairEnds landing := by
  have hup := hs.up
  have haside := hs.aside
  obtain ⟨x, y, z⟩ := foot
  simp only [stairEnds, List.mem_cons, List.not_mem_nil, or_false, Coord3.mk.injEq]
  simp only at hup haside
  omega

/-- **The edges of a tile** of a dense world: its own stair up, and the stairs that land on it. -/
theorem stairsOf_eq (hd : W.IsDense) {c : Coord3} (hc : S.contains c = true) :
    stairsOf tag W c = ((tryLanding tag W c).toList ++
      (stairEnds c).filter fun foot => tryLanding tag W foot = some c).map
        fun b => { dest := b } := by
  have hfilter (l : List Coord3) : ((l.filter fun foot => tryLanding tag W foot = some c).map
      fun b => ({ dest := b } : SpecialTransitionCandidate)) = l.flatMap (probeFoot tag W c) := by
    induction l with
    | nil => rfl
    | cons foot l ih =>
      rw [List.filter_cons, List.flatMap_cons, probeFoot_of_dense hd, ← ih]
      split_ifs with h <;> simp_all
  have hdown : (if c.z = 0 then [] else
      probeFoot tag W c ⟨c.x - 1, c.y, c.z - 1⟩ ++ probeFoot tag W c ⟨c.x + 1, c.y, c.z - 1⟩ ++
        probeFoot tag W c ⟨c.x, c.y - 1, c.z - 1⟩ ++ probeFoot tag W c ⟨c.x, c.y + 1, c.z - 1⟩) =
      (stairEnds c).flatMap (probeFoot tag W c) := by
    by_cases hz : c.z = 0
    · rw [if_pos hz]
      refine (List.flatMap_eq_nil_iff.2 fun foot hfoot => ?_).symm
      rw [probeFoot_of_dense hd]
      refine if_neg fun hl => ?_
      have hs := isStair_of_tryLanding hl
      have hup := hs.up
      have hfoot := (Shape.contains_iff.1 hs.foot_mem).2.2
      omega
    · rw [if_neg hz]
      simp [stairEnds]
  rw [stairsOf, hdown, List.map_append, hfilter, hc]
  cases tryLanding tag W c <;> rfl

theorem mem_stairsOf (hd : W.IsDense) {a b : Coord3} (ha : S.contains a = true) :
    b ∈ (stairsOf tag W a).map SpecialTransitionCandidate.dest ↔ StairEdge tag W a b := by
  have hdest : (SpecialTransitionCandidate.dest ∘ fun b => { dest := b }) = id := rfl
  rw [stairsOf_eq hd ha, List.map_map, hdest, List.map_id, List.mem_append, List.mem_filter,
    Option.mem_toList, decide_eq_true_eq]
  exact or_congr Iff.rfl (and_iff_right_of_imp fun hl => (isStair_of_tryLanding hl).mem_stairEnds)

theorem stairsOf_nodup (hd : W.IsDense) {a : Coord3} (ha : S.contains a = true) :
    ((stairsOf tag W a).map SpecialTransitionCandidate.dest).Nodup := by
  have hdest : (SpecialTransitionCandidate.dest ∘ fun b => { dest := b }) = id := rfl
  rw [stairsOf_eq hd ha, List.map_map, hdest, List.map_id]
  refine List.nodup_append'.2 ⟨?_, List.Nodup.filter _ ?_, fun b hb hb' => ?_⟩
  · cases tryLanding tag W a <;> simp
  · simp [stairEnds]
    omega
  · rw [Option.mem_toList] at hb
    have h1 := (isStair_of_tryLanding hb).up
    have h2 := (isStair_of_tryLanding (of_decide_eq_true (List.mem_filter.1 hb').2)).up
    omega

/-! ### The three enumerations -/

theorem chunkEdges_nodup : (chunkEdges tag W).Nodup := by
  refine nodup_flatMap_of_key (fun e => S.chunkKey (S.chunkCoord e.1)) List.nodup_range
    (fun k hk => forEachTransition_nodup (List.mem_range.1 hk)) fun k hk e he => ?_
  obtain ⟨a, b⟩ := e
  exact ((mem_forEachTransition (List.mem_range.1 hk)).1 he).2

theorem mem_chunkEdges {a b : Coord3} : (a, b) ∈ chunkEdges tag W ↔ StairEdge tag W a b := by
  rw [chunkEdges, List.mem_flatMap]
  constructor
  · rintro ⟨k, hk, he⟩
    exact ((mem_forEachTransition (List.mem_range.1 hk)).1 he).1
  · intro h
    have hlt := Shape.chunkKey_lt h.contains.1
    exact ⟨_, List.mem_range.2 hlt, (mem_forEachTransition hlt).2 ⟨h, rfl⟩⟩

theorem forwardEdges_nodup (hd : W.IsDense) : (forwardEdges tag W).Nodup := by
  refine nodup_flatMap_of_key (fun e => S.tileKey e.1) List.nodup_range (fun key hkey => ?_)
    fun key hkey e he => ?_
  · have hc := Shape.contains_coord (List.mem_range.1 hkey)
    have hnodup : ((stairsOf tag W (S.coord key)).map SpecialTransitionCandidate.dest).Nodup :=
      stairsOf_nodup hd hc
    have hpairs := hnodup.map (Prod.mk_right_injective (S.coord key))
    rwa [List.map_map] at hpairs
  · obtain ⟨candidate, -, rfl⟩ := List.mem_map.1 he
    exact Shape.tileKey_coord (List.mem_range.1 hkey)

theorem mem_forwardEdges (hd : W.IsDense) {a b : Coord3} :
    (a, b) ∈ forwardEdges tag W ↔ StairEdge tag W a b := by
  rw [forwardEdges, List.mem_flatMap]
  constructor
  · rintro ⟨key, hkey, he⟩
    obtain ⟨candidate, hcand, he⟩ := List.mem_map.1 he
    obtain ⟨rfl, rfl⟩ := Prod.mk.inj he
    exact (mem_stairsOf hd (Shape.contains_coord (List.mem_range.1 hkey))).1
      (List.mem_map.2 ⟨candidate, hcand, rfl⟩)
  · intro h
    have ha := h.contains.1
    obtain ⟨candidate, hcand, hdest⟩ := List.mem_map.1 ((mem_stairsOf hd ha).2 h)
    refine ⟨S.tileKey a, List.mem_range.2 (Shape.tileKey_lt ha), ?_⟩
    rw [Shape.coord_tileKey ha]
    exact List.mem_map.2 ⟨candidate, hcand, Prod.ext rfl hdest⟩

/-- **The three enumerations of the stairs give the same edges**: the scans of all chunks, the
edges out of all tiles, and the edges into all tiles read backwards.  Every edge is emitted once,
by the chunk of its source, stays in that chunk or enters a neighbour, and is there both ways. -/
theorem stairEdges_exact (hd : W.IsDense) :
    (chunkEdges tag W).Nodup ∧
    (chunkEdges tag W).Perm (forwardEdges tag W) ∧
    (chunkEdges tag W).Perm ((reverseEdges tag W).map Prod.swap) ∧
    (∀ a b, (a, b) ∈ chunkEdges tag W ↔
      tryLanding tag W a = some b ∨ tryLanding tag W b = some a) ∧
    (∀ k < S.chunkCount, ∀ e ∈ forEachTransition tag W k,
      S.chunkKey (S.chunkCoord e.1) = k ∧ sameOrFaceNeighborChunk S e.1 e.2 = true) ∧
    (∀ c, S.contains c = true → ∀ candidate ∈ stairsOf tag W c,
      candidate.missingTopology = false) ∧
    ∀ e ∈ chunkEdges tag W, e.swap ∈ chunkEdges tag W := by
  have hswap (e : Coord3 × Coord3) (he : e ∈ chunkEdges tag W) : e.swap ∈ chunkEdges tag W :=
    mem_chunkEdges.2 (stairEdge_comm.1 (mem_chunkEdges.1 he))
  refine ⟨chunkEdges_nodup, ?_, ?_, fun a b => mem_chunkEdges, fun k hk e he => ?_,
    fun c hc candidate hcand => ?_, hswap⟩
  · refine (List.perm_ext_iff_of_nodup chunkEdges_nodup (forwardEdges_nodup hd)).2 fun e => ?_
    rw [mem_chunkEdges, mem_forwardEdges hd]
  · have hnodup : ((forwardEdges tag W).map Prod.swap).Nodup :=
      (forwardEdges_nodup hd).map Prod.swap_injective
    refine (List.perm_ext_iff_of_nodup chunkEdges_nodup hnodup).2 fun e => ?_
    have hback : e ∈ (forwardEdges tag W).map Prod.swap ↔ e.swap ∈ forwardEdges tag W := by
      rw [← Prod.swap_swap e, List.mem_map_of_injective Prod.swap_injective, Prod.swap_swap]
    rw [hback, mem_chunkEdges, stairEdge_comm]
    exact (mem_forwardEdges hd).symm
  · obtain ⟨hedge, hsource⟩ := (mem_forEachTransition hk).1 he
    have hin := hedge.contains
    refine ⟨hsource, ?_⟩
    rcases hedge with hl | hl
    · exact (isStair_of_tryLanding hl).sameOrFaceNeighborChunk
    · rw [sameOrFaceNeighborChunk_comm hin.1 hin.2]
      exact (isStair_of_tryLanding hl).sameOrFaceNeighborChunk
  · rw [stairsOf_eq hd hc] at hcand
    obtain ⟨b, -, rfl⟩ := List.mem_map.1 hcand
    rfl

/-- Three columns of two levels, each a chunk of its own. -/
def columns : Shape where
  size := ⟨3, 1, 2⟩
  chunk := ⟨1, 1, 2⟩
  lattice := .orthogonal
  size_valid := by decide
  chunk_pow := by decide
  divisible := by decide
  lattice_valid := by decide
  chunk_count_fits := by decide
  local_count_fits := by decide
  axis_fits := by decide

/-- Every tile of the columns is the foot of a stair to the next one. -/
example : chunkEdges () (openWorld columns) =
    [(⟨0, 0, 0⟩, ⟨1, 0, 1⟩), (⟨1, 0, 0⟩, ⟨2, 0, 1⟩), (⟨1, 0, 1⟩, ⟨0, 0, 0⟩),
      (⟨2, 0, 1⟩, ⟨1, 0, 0⟩)] := by decide

theorem stairEdges_exact_columns :
    (chunkEdges () (openWorld columns)).Nodup ∧
    (chunkEdges () (openWorld columns)).Perm (forwardEdges () (openWorld columns)) ∧
    (chunkEdges () (openWorld columns)).Perm
      ((reverseEdges () (openWorld columns)).map Prod.swap) ∧
    (∀ a b, (a, b) ∈ chunkEdges () (openWorld columns) ↔
      tryLanding () (openWorld columns) a = some b ∨
        tryLanding () (openWorld columns) b = some a) ∧
    (∀ k < columns.chunkCount, ∀ e ∈ forEachTransition () (openWorld columns) k,
      columns.chunkKey (columns.chunkCoord e.1) = k ∧
        sameOrFaceNeighborChunk columns e.1 e.2 = true) ∧
    (∀ c, columns.contains c = true → ∀ candidate ∈ stairsOf () (openWorld columns) c,
      candidate.missingTopology = false) ∧
    ∀ e ∈ chunkEdges () (openWorld columns), e.swap ∈ chunkEdges () (openWorld columns) :=
  stairEdges_exact rfl

end Tess
