import Tess.Sim.DeltaEntities
import Mathlib.Data.List.SplitBy

/-!
# Folded moves of a frame

The records of one entity in a frame are its recorded sequence with every maximal run of moves
whose ends meet folded into one record.

* `foldMoves` : the folded sequence, by maximal runs;
* `LastSlot` : what the records say about the slot of an entity;
* `EntityDeltaCollector.Table` : **the table invariant**: the table says of every entity what its
  last record says, and nothing else;
* `CollectorRun.Coalesced` : the records of the pending frame are folded;
* `coalesced_frames` : **every complete frame is folded**, the table is empty between frames, and
  no probe loop runs on.
-/

namespace Tess

open Probing

/-! ### Folded sequences -/

/-- The second record moves on from where the first one moved to. -/
def chains (a b : EntityDelta) : Bool :=
  a.kind = .moved && b.kind = .moved && a.toCoord = b.fromCoord

/-- A run of records as one: the first `from`, the last `to` and the last tick. -/
def mergeRun : List EntityDelta → Option EntityDelta
  | [] => none
  | a :: l =>
    let last := (a :: l).getLast (List.cons_ne_nil a l)
    some { a with toCoord := last.toCoord, lastTick := last.lastTick }

/-- The records of one entity with every maximal run of meeting moves folded. -/
def foldMoves (l : List EntityDelta) : List EntityDelta := (l.splitBy chains).filterMap mergeRun

section Folding

variable {l g : List EntityDelta} {a r : EntityDelta}

theorem mergeRun_concat (g : List EntityDelta) (a : EntityDelta) :
    mergeRun (g ++ [a]) =
      some { (g ++ [a]).head (by simp) with toCoord := a.toCoord, lastTick := a.lastTick } := by
  cases g with
  | nil => rfl
  | cons b g => simp [mergeRun]

/-- The kind of a run is the kind of its last record. -/
theorem head_kind (hchain : (g ++ [a]).IsChain fun a b => chains a b) :
    ((g ++ [a]).head (by simp)).kind = .moved ↔ a.kind = .moved := by
  induction g with
  | nil => rfl
  | cons b g ih =>
    have hmoved : ∀ {g : List EntityDelta}, (b :: (g ++ [a])).IsChain (fun a b => chains a b) →
        b.kind = .moved ∧ ((g ++ [a]).head (by simp)).kind = .moved := by
      intro g hg
      cases g with
      | nil =>
        have hab : chains b a = true := by simpa using hg
        simp only [chains, Bool.and_eq_true, decide_eq_true_eq] at hab
        exact hab.1
      | cons d g =>
        rw [List.cons_append, List.isChain_cons_cons] at hg
        have hbd := hg.1
        simp only [chains, Bool.and_eq_true, decide_eq_true_eq] at hbd
        exact hbd.1
    have htail := ih (List.IsChain.tail hchain)
    obtain ⟨hb, hd⟩ := hmoved hchain
    simp only [List.cons_append, List.head_cons, hb, true_iff]
    exact htail.1 hd

/-- **The last run** of a sequence, and what one more record makes of it. -/
theorem splitBy_concat (l : List EntityDelta) (a r : EntityDelta) :
    ∃ gs g, (l ++ [a]).splitBy chains = gs ++ [g ++ [a]] ∧
      (g ++ [a]).IsChain (fun a b => chains a b) ∧
      (l ++ [a, r]).splitBy chains =
        if chains a r then gs ++ [g ++ [a, r]] else gs ++ [g ++ [a], [r]] := by
  have hne : (l ++ [a]).splitBy chains ≠ [] := by
    rw [List.splitBy_ne_nil]
    simp
  obtain ⟨gs, last, hsplit⟩ : ∃ gs last, (l ++ [a]).splitBy chains = gs ++ [last] :=
    ⟨_, _, (List.dropLast_append_getLast hne).symm⟩
  obtain ⟨hflat, hnil, hruns, hcuts⟩ := List.splitBy_eq_iff.1 hsplit
  have hlast : last ≠ [] := by
    rintro rfl
    exact hnil (by simp)
  obtain ⟨g, b, rfl⟩ : ∃ g b, last = g ++ [b] :=
    ⟨_, _, (List.dropLast_append_getLast hlast).symm⟩
  have hb : a = b := by
    have := congrArg List.getLast? hflat
    simpa using this
  subst hb
  refine ⟨gs, g, hsplit, hruns _ (by simp), ?_⟩
  have hl : l = gs.flatten ++ g := by simpa [← List.append_assoc] using hflat
  split_ifs with hmeet
  · rw [List.splitBy_eq_iff]
    refine ⟨by simp [hl], ?_, fun m hm => ?_, ?_⟩
    · simp only [List.mem_append, List.mem_singleton, not_or] at hnil ⊢
      exact ⟨hnil.1, by simp⟩
    · rcases List.mem_append.1 hm with hm | hm
      · exact hruns m (List.mem_append_left _ hm)
      · rw [List.mem_singleton.1 hm]
        have hg := hruns (g ++ [a]) (by simp)
        rw [show g ++ [a, r] = (g ++ [a]) ++ [r] by simp, List.isChain_append]
        exact ⟨hg, by simp, by simpa using hmeet⟩
    · rw [List.isChain_append] at hcuts ⊢
      refine ⟨hcuts.1, by simp, fun m hm m' hm' => ?_⟩
      obtain rfl : g ++ [a, r] = m' := by simpa using hm'
      obtain ⟨ha, hb, hcut⟩ := hcuts.2.2 m hm (g ++ [a]) (by simp)
      refine ⟨ha, by simp, ?_⟩
      rw [← hcut]
      cases g <;> rfl
  · rw [List.splitBy_eq_iff]
    refine ⟨by simp [hl], ?_, fun m hm => ?_, ?_⟩
    · simp only [List.mem_append, List.mem_cons, List.not_mem_nil, or_false, not_or] at hnil ⊢
      exact ⟨hnil.1, by simp⟩
    · rcases List.mem_append.1 hm with hm | hm
      · exact hruns m (List.mem_append_left _ hm)
      · simp only [List.mem_cons, List.not_mem_nil, or_false] at hm
        rcases hm with rfl | rfl
        · exact hruns _ (by simp)
        · simp
    · rw [show gs ++ [g ++ [a], [r]] = (gs ++ [g ++ [a]]) ++ [[r]] by simp, List.isChain_append]
      refine ⟨hcuts, by simp, fun m hm m' hm' => ?_⟩
      obtain rfl : g ++ [a] = m := by simpa using hm
      obtain rfl : [r] = m' := by simpa using hm'
      exact ⟨by simp, by simp, by simpa using hmeet⟩

/-- **One more record** of an entity: it is folded into the last record, or stands behind it. -/
theorem foldMoves_concat (l : List EntityDelta) (a r : EntityDelta) :
    ∃ front last, foldMoves (l ++ [a]) = front ++ [last] ∧ last.toCoord = a.toCoord ∧
      (last.kind = .moved ↔ a.kind = .moved) ∧
      foldMoves (l ++ [a, r]) =
        if chains a r then
          front ++ [{ last with toCoord := r.toCoord, lastTick := r.lastTick }]
        else front ++ [last, r] := by
  obtain ⟨gs, g, hsplit, hchain, hnext⟩ := splitBy_concat l a r
  refine ⟨gs.filterMap mergeRun,
    { (g ++ [a]).head (by simp) with toCoord := a.toCoord, lastTick := a.lastTick }, ?_, rfl,
    head_kind hchain, ?_⟩
  · rw [foldMoves, hsplit, List.filterMap_append]
    simp [mergeRun_concat]
  · rw [foldMoves, hnext]
    split_ifs with hmeet
    · rw [List.filterMap_append]
      have hrun : mergeRun (g ++ [a, r]) =
          some { (g ++ [a]).head (by simp) with toCoord := r.toCoord, lastTick := r.lastTick } := by
        rw [show g ++ [a, r] = (g ++ [a]) ++ [r] by simp, mergeRun_concat]
        cases g <;> rfl
      simp [hrun]
    · have hone : mergeRun [r] = some r := rfl
      rw [List.filterMap_append, List.filterMap_cons_some (mergeRun_concat g a),
        List.filterMap_cons_some hone, List.filterMap_nil]

theorem foldMoves_nil : foldMoves [] = [] := rfl

/-- A record that meets no last record stands for itself. -/
theorem foldMoves_append_of_not_chains
    (h : ∀ last ∈ (foldMoves l).getLast?, chains last r = false) :
    foldMoves (l ++ [r]) = foldMoves l ++ [r] := by
  rcases List.eq_nil_or_concat l with rfl | ⟨l, a, rfl⟩
  · rfl
  · rw [List.concat_eq_append] at *
    obtain ⟨front, last, hfold, hto, hkind, hnext⟩ := foldMoves_concat l a r
    rw [hfold] at h ⊢
    have hlast := h last (by simp)
    have hmeet : chains a r = false := by
      rw [← hlast]
      unfold chains
      rw [hto]
      simp only [hkind]
    rw [List.append_assoc, List.singleton_append, hnext, if_neg (by simp [hmeet])]
    simp

/-- A record that meets the last record is folded into it. -/
theorem foldMoves_append_of_chains {front : List EntityDelta} {last : EntityDelta}
    (hfold : foldMoves l = front ++ [last]) (h : chains last r = true) :
    foldMoves (l ++ [r]) =
      front ++ [{ last with toCoord := r.toCoord, lastTick := r.lastTick }] := by
  rcases List.eq_nil_or_concat l with rfl | ⟨l, a, rfl⟩
  · simp [foldMoves_nil] at hfold
  · rw [List.concat_eq_append] at *
    obtain ⟨front', last', hfold', hto, hkind, hnext⟩ := foldMoves_concat l a r
    rw [hfold] at hfold'
    obtain ⟨rfl, hl⟩ := List.append_inj' hfold' rfl
    obtain rfl : last = last' := by simpa using hl
    have hmeet : chains a r = true := by
      rw [← h]
      unfold chains
      rw [hto]
      simp only [hkind]
    rw [List.append_assoc, List.singleton_append, hnext, if_pos hmeet]

end Folding

/-! ### The last record of an entity -/

/-- What the table keeps of a record: its entity and its kind. -/
def EntityDelta.tag (r : EntityDelta) : EntityHandle × EntityDeltaKind := (r.entity, r.kind)

/-- The slot of an entity as its last record has it: that record when it is a move. -/
def LastSlot (tags : List (EntityHandle × EntityDeltaKind)) (e : EntityHandle)
    (slot : CoalesceSlot) : Prop :=
  ∃ before kind after, tags = before ++ (e, kind) :: after ∧ (∀ t ∈ after, t.1 ≠ e) ∧
    slot = if kind = .moved then .record before.length else .barrier

section Last

variable {tags : List (EntityHandle × EntityDeltaKind)} {e e' : EntityHandle} {slot : CoalesceSlot}
  {kind : EntityDeltaKind}

theorem not_lastSlot_nil : ¬ LastSlot [] e slot := by
  rintro ⟨before, kind, after, h, -⟩
  simp at h

/-- The last record of an entity, one record further. -/
theorem lastSlot_concat : LastSlot (tags ++ [(e', kind)]) e slot ↔
    e = e' ∧ slot = (if kind = .moved then .record tags.length else .barrier) ∨
      e ≠ e' ∧ LastSlot tags e slot := by
  constructor
  · rintro ⟨before, k, after, heq, hafter, rfl⟩
    rcases List.eq_nil_or_concat after with rfl | ⟨after, t, rfl⟩
    · obtain ⟨rfl, hlast⟩ := List.append_inj' heq rfl
      obtain ⟨rfl, rfl⟩ : e' = e ∧ kind = k := by simpa using hlast
      exact .inl ⟨rfl, rfl⟩
    · rw [List.concat_eq_append, ← List.cons_append, ← List.append_assoc] at heq
      obtain ⟨rfl, hlast⟩ := List.append_inj' heq rfl
      obtain rfl : (e', kind) = t := by simpa using hlast
      refine .inr ⟨fun h => hafter (e', kind) (by simp) h.symm, before, k, after, rfl, ?_, rfl⟩
      intro t ht
      exact hafter t (by simp [ht])
  · rintro (⟨rfl, rfl⟩ | ⟨hne, before, k, after, rfl, hafter, rfl⟩)
    · exact ⟨tags, kind, [], rfl, by simp, rfl⟩
    · refine ⟨before, k, after ++ [(e', kind)], by simp, fun t ht => ?_, rfl⟩
      rcases List.mem_append.1 ht with ht | ht
      · exact hafter t ht
      · rw [List.mem_singleton.1 ht]
        exact hne.symm

theorem LastSlot.mem (h : LastSlot tags e slot) : e ∈ tags.map Prod.fst := by
  obtain ⟨before, kind, after, rfl, -⟩ := h
  simp

end Last

namespace EntityDeltaCollector

variable {c c' : EntityDeltaCollector} {e e' : EntityHandle} {slot : CoalesceSlot}
  {r : EntityDelta} {keys : List EntityHandle}

/-! ### The table of a collector -/

/-- **The table invariant**: the slot of an entity is what its last record says. -/
structure Table (c : EntityDeltaCollector) : Prop where
  /-- The length is a power of two. -/
  length : ∃ k, c.slotCount = 2 ^ k
  /-- The table has twice as many slots as there may be records, now and after the next frame. -/
  room : c.pendingEntityCapacity * 2 ≤ c.slotCount ∧ c.publishedEntityCapacity * 2 ≤ c.slotCount
  /-- The records fit. -/
  fits : c.pendingEntities.length ≤ c.pendingEntityCapacity
  /-- Probes find every slot. -/
  probed : Probed c.slotCount c.home c.slots
  /-- A slot says what the last record of its entity says. -/
  maps : ∀ e slot, Maps c.slotCount c.slots e slot ↔
    LastSlot (c.pendingEntities.map EntityDelta.tag) e slot
  /-- No record has the null entity. -/
  nonnull : ∀ r ∈ c.pendingEntities, r.entity ≠ kNullEntityHandle

theorem slotCount_pos (h : ∃ k, c.slotCount = 2 ^ k) : 0 < c.slotCount := by
  obtain ⟨k, hk⟩ := h
  rw [hk]
  exact Nat.two_pow_pos k

/-- The mask wraps round. -/
theorem probe_eq (h : ∃ k, c.slotCount = 2 ^ k) (i : ℕ) (hi : i < c.slotCount) :
    c.probe i = next c.slotCount i := by
  obtain ⟨k, hk⟩ := h
  unfold probe next slotMask
  rw [hk] at hi ⊢
  rw [Nat.and_two_pow_sub_one_eq_mod]
  split_ifs with hlt
  · exact Nat.mod_eq_of_lt hlt
  · rw [show i + 1 = 2 ^ k by omega, Nat.mod_self]

theorem home_lt (h : ∃ k, c.slotCount = 2 ^ k) (e : EntityHandle) : c.home e < c.slotCount := by
  have hpos := slotCount_pos h
  have hle : c.home e ≤ c.slotMask := Nat.and_le_right
  unfold slotMask at hle
  omega

theorem closeGap_eq_by {step : ℕ → ℕ} {home : EntityHandle → ℕ} {fuel hole last : ℕ}
    {slots : ℕ → Option (EntityHandle × CoalesceSlot)} :
    closeGap step home fuel slots hole last = shiftBackBy inGap step home fuel slots hole last := by
  induction fuel generalizing slots hole last with
  | zero => rfl
  | succ fuel ih =>
    unfold closeGap shiftBackBy
    cases slots (step last) with
    | none => rfl
    | some p => simp only [ih]

/-- While the hole is not passed, the loop shifts back as the library's does. -/
theorem closeGap_eq {step : ℕ → ℕ} {home : EntityHandle → ℕ} {m f fuel hole last : ℕ}
    {slots : ℕ → Option (EntityHandle × CoalesceSlot)} (hstep : ∀ i < m, step i = next m i)
    (hf : f < m) (hfree : slots f = none) (hhole : hole < m) (hlast : last < m)
    (hfl : f ≠ last) (hahead : hole = last ∨ Probing.dist m last f < Probing.dist m last hole) :
    closeGap step home fuel slots hole last = shiftBack step home fuel slots hole last :=
  closeGap_eq_by.trans <|
    shiftBackBy_eq (fun _ _ _ => inGap_eq) hstep hf hfree hhole hlast hfl hahead

/-- Fewer entities than slots leave a free slot. -/
theorem exists_free (hprobed : Probed c.slotCount c.home c.slots)
    (hkeys : ∀ e slot, Maps c.slotCount c.slots e slot → e ∈ keys)
    (hlen : keys.length < c.slotCount) : ∃ f < c.slotCount, c.slots f = none :=
  hprobed.exists_free hkeys hlen

theorem Table.keys_length_lt (h : c.Table) :
    ((c.pendingEntities.map EntityDelta.tag).map Prod.fst).length < c.slotCount := by
  have hpos := slotCount_pos h.length
  have hroom := h.room.1
  have hfits := h.fits
  simp only [List.length_map]
  omega

theorem Table.exists_free (h : c.Table) : ∃ f < c.slotCount, c.slots f = none :=
  EntityDeltaCollector.exists_free h.probed (fun e slot hmaps => ((h.maps e slot).1 hmaps).mem)
    h.keys_length_lt

/-- **A lookup** ends, with the slot of the entity. -/
theorem Table.find (h : c.Table) (e : EntityHandle) :
    ∃ found, c.findCoalesceSlot e = some found ∧
      ∀ slot, found = some slot ↔ LastSlot (c.pendingEntities.map EntityDelta.tag) e slot := by
  obtain ⟨i, hi, hscan, hfound⟩ :=
    h.probed.scan_find (k := e) (probe_eq h.length) (home_lt h.length e) h.exists_free
  refine ⟨(c.slots i).map Prod.snd, ?_, fun slot => ?_⟩
  · unfold findCoalesceSlot
    rw [if_neg (slotCount_pos h.length).ne', hscan, Option.map_some]
  · rw [← h.maps]
    rcases hfound with ⟨v, hv⟩ | ⟨hnone, hno⟩
    · rw [hv, Option.map_some, Option.some.injEq]
      exact ⟨fun hvs => ⟨i, hi, hvs ▸ hv⟩, fun hmaps => h.probed.maps_unique ⟨i, hi, hv⟩ hmaps⟩
    · rw [hnone, Option.map_none]
      exact ⟨fun hn => (by cases hn), fun hmaps => absurd hmaps (hno slot)⟩

/-- **An erasure** ends and takes the slot of the entity out. -/
theorem eraseCoalesceSlot_spec (hlength : ∃ k, c.slotCount = 2 ^ k)
    (hprobed : Probed c.slotCount c.home c.slots)
    (hkeys : ∀ e slot, Maps c.slotCount c.slots e slot → e ∈ keys)
    (hlen : keys.length < c.slotCount) (e : EntityHandle) :
    ∃ slots, c.eraseCoalesceSlot e = some { c with slots := slots } ∧
      Probed c.slotCount c.home slots ∧
      ∀ k slot, Maps c.slotCount slots k slot ↔ k ≠ e ∧ Maps c.slotCount c.slots k slot := by
  obtain ⟨f, hf, hfree⟩ := EntityDeltaCollector.exists_free hprobed hkeys hlen
  obtain ⟨i, hi, hscan, hfound⟩ :=
    hprobed.scan_find (k := e) (probe_eq hlength) (home_lt hlength e) ⟨f, hf, hfree⟩
  unfold eraseCoalesceSlot
  rw [hscan]
  dsimp only
  rcases hfound with ⟨v, hv⟩ | ⟨hnone, hno⟩
  · have hfi : f ≠ i := by
      rintro rfl
      rw [hfree] at hv
      cases hv
    obtain ⟨slots, hshift, hprobed', hmaps⟩ :=
      Probed.shiftBack (home_lt hlength) (probe_eq hlength) hprobed hf hfree hi hv
    refine ⟨slots, ?_, hprobed', hmaps⟩
    rw [if_neg (by rw [hv]; simp), closeGap_eq (probe_eq hlength) hf hfree hi hi hfi (.inl rfl),
      hshift, Option.map_some]
  · refine ⟨c.slots, if_pos hnone, hprobed, fun k slot => ?_⟩
    constructor
    · intro hmaps
      refine ⟨?_, hmaps⟩
      rintro rfl
      exact hno slot hmaps
    · exact fun hmaps => hmaps.2

/-- **The clearing loop** ends and takes the slots of all its entities out. -/
theorem eraseCoalesceSlots_spec (records : List EntityDelta)
    (hlength : ∃ k, c.slotCount = 2 ^ k) (hprobed : Probed c.slotCount c.home c.slots)
    (hkeys : ∀ e slot, Maps c.slotCount c.slots e slot → e ∈ keys)
    (hlen : keys.length < c.slotCount) :
    ∃ slots, eraseCoalesceSlots records c = some { c with slots := slots } ∧
      Probed c.slotCount c.home slots ∧
      ∀ k slot, Maps c.slotCount slots k slot ↔
        (∀ r ∈ records, r.entity ≠ k) ∧ Maps c.slotCount c.slots k slot := by
  induction records generalizing c with
  | nil => exact ⟨c.slots, rfl, hprobed, fun k slot => by simp⟩
  | cons record records ih =>
    obtain ⟨slots, herase, hprobed', hmaps⟩ :=
      eraseCoalesceSlot_spec hlength hprobed hkeys hlen record.entity
    obtain ⟨slots', hrest, hprobed'', hmaps'⟩ :=
      ih (c := { c with slots := slots }) hlength hprobed'
        (fun e slot h => hkeys e slot ((hmaps e slot).1 h).2) hlen
    refine ⟨slots', ?_, hprobed'', fun k slot => (hmaps' k slot).trans ?_⟩
    · rw [eraseCoalesceSlots, herase, Option.bind_some, hrest]
    · dsimp only
      rw [hmaps k slot]
      constructor
      · rintro ⟨hall, hne, hmap⟩
        refine ⟨fun r hr => ?_, hmap⟩
        rcases List.mem_cons.1 hr with rfl | hr
        · exact hne.symm
        · exact hall r hr
      · rintro ⟨hall, hmap⟩
        exact ⟨fun r hr => hall r (List.mem_cons_of_mem _ hr),
          (hall record List.mem_cons_self).symm, hmap⟩

/-- **Clearing** ends and empties the table. -/
theorem Table.clearSlots (h : c.Table) :
    ∃ slots, c.clearCoalesceSlots = some { c with slots := slots } ∧
      Probed c.slotCount c.home slots ∧ ∀ p < c.slotCount, slots p = none := by
  obtain ⟨slots, herase, hprobed, hmaps⟩ :=
    eraseCoalesceSlots_spec c.pendingEntities h.length h.probed
      (fun e slot hmap => ((h.maps e slot).1 hmap).mem) h.keys_length_lt
  refine ⟨slots, ?_, hprobed, fun p hp => ?_⟩
  · unfold clearCoalesceSlots
    rw [if_neg (slotCount_pos h.length).ne', herase]
  · by_contra hne
    obtain ⟨⟨e, slot⟩, hslot⟩ := Option.ne_none_iff_exists'.1 hne
    obtain ⟨hall, hmap⟩ := (hmaps e slot).1 ⟨p, hp, hslot⟩
    have hmem := ((h.maps e slot).1 hmap).mem
    rw [List.map_map, List.mem_map] at hmem
    obtain ⟨r, hr, hre⟩ := hmem
    exact hall r hr hre

/-- A table without records. -/
theorem Table.of_empty (hlength : ∃ k, c.slotCount = 2 ^ k)
    (hroom : c.pendingEntityCapacity * 2 ≤ c.slotCount ∧
      c.publishedEntityCapacity * 2 ≤ c.slotCount)
    (hslots : ∀ p < c.slotCount, c.slots p = none) (hrecords : c.pendingEntities = []) :
    c.Table := by
  have hno (e : EntityHandle) (slot : CoalesceSlot) : ¬ Maps c.slotCount c.slots e slot := by
    rintro ⟨p, hp, hslot⟩
    rw [hslots p hp] at hslot
    cases hslot
  refine ⟨hlength, hroom, by simp [hrecords], ⟨?_, ?_⟩, fun e slot => ?_, by simp [hrecords]⟩
  · intro p hp e slot hslot
    exact absurd ⟨p, hp, hslot⟩ (hno e slot)
  · intro p hp q hq e slot slot' hslot
    exact absurd ⟨p, hp, hslot⟩ (hno e slot)
  · rw [hrecords]
    exact ⟨fun h => absurd h (hno e slot), fun h => absurd h not_lastSlot_nil⟩

/-! ### Recording -/

theorem Table.noteTruncation (h : c.Table) : c.noteTruncation.Table :=
  ⟨h.length, h.room, h.fits, h.probed, h.maps, h.nonnull⟩

/-- **A new record** ends with the table in order: the record is dropped, or stands at the end. -/
theorem Table.appendWith (h : c.Table) (hon : c.coalesceMoves = true)
    (hr : r.entity ≠ kNullEntityHandle) {slotFor : ℕ → CoalesceSlot}
    (hslot : ∀ i, slotFor i = if r.kind = .moved then .record i else .barrier) :
    ∃ c', c.appendWith r slotFor = some c' ∧ c'.Table ∧
      (c' = c.noteTruncation ∨
        ∃ slots, c' = { c with pendingEntities := c.pendingEntities ++ [r], slots := slots }) := by
  unfold EntityDeltaCollector.appendWith appendEntity
  by_cases hfull : c.pendingEntities.length = c.pendingEntityCapacity
  · rw [if_pos hfull]
    exact ⟨_, rfl, h.noteTruncation, .inl rfl⟩
  · rw [if_neg hfull]
    dsimp only
    rw [if_pos hon]
    obtain ⟨i, hi, hscan, hprobed, hmaps⟩ := h.probed.assign (k := r.entity) (probe_eq h.length)
      (home_lt h.length r.entity) h.exists_free (slotFor c.pendingEntities.length)
    refine ⟨{ c with
      pendingEntities := c.pendingEntities ++ [r]
      slots := Function.update c.slots i (some (r.entity, slotFor c.pendingEntities.length)) },
      ?_, ?_, .inr ⟨_, rfl⟩⟩
    · unfold upsertCoalesceSlot
      rw [if_neg (slotCount_pos h.length).ne']
      change Option.map _ (scan c.probe _ _ (c.home r.entity)) = _
      rw [hscan, Option.map_some, if_neg hr]
    · have hfits := h.fits
      refine ⟨h.length, h.room, ?_, hprobed, fun e slot => ?_, fun r' hr' => ?_⟩
      · simp only [List.length_append, List.length_singleton]
        omega
      · dsimp only
        rw [hmaps e slot, List.map_append, List.map_singleton, EntityDelta.tag, lastSlot_concat,
          List.length_map, hslot, h.maps]
      · rcases List.mem_append.1 hr' with hr' | hr'
        · exact h.nonnull r' hr'
        · rw [List.mem_singleton.1 hr']
          exact hr

/-- **A folded move** changes no tag, so the table stays in order. -/
theorem Table.set (h : c.Table) {i : ℕ} {last last' : EntityDelta}
    (hget : c.pendingEntities[i]? = some last) (htag : last'.tag = last.tag) :
    Table { c with pendingEntities := c.pendingEntities.set i last' } := by
  have htags : (c.pendingEntities.set i last').map EntityDelta.tag =
      c.pendingEntities.map EntityDelta.tag := by
    obtain ⟨hi, hlast⟩ := List.getElem?_eq_some_iff.1 hget
    rw [List.map_set, htag, ← hlast, ← List.getElem_map EntityDelta.tag (h := by simpa using hi),
      List.set_getElem_self]
  refine ⟨h.length, h.room, by simpa using h.fits, h.probed, fun e slot => ?_, fun r' hr' => ?_⟩
  · dsimp only
    rw [htags]
    exact h.maps e slot
  · rcases List.mem_or_eq_of_mem_set hr' with hr' | rfl
    · exact h.nonnull r' hr'
    · have hentity : r'.entity = last.entity := congrArg Prod.fst htag
      rw [hentity]
      exact h.nonnull last (List.mem_of_getElem? hget)

/-- The records of one entity. -/
def recordsOf (e : EntityHandle) (l : List EntityDelta) : List EntityDelta :=
  l.filter fun r => r.entity = e

theorem recordsOf_append (e : EntityHandle) (l l' : List EntityDelta) :
    recordsOf e (l ++ l') = recordsOf e l ++ recordsOf e l' := List.filter_append ..

/-- The last record of an entity, where the table says that it has one. -/
theorem exists_last {l : List EntityDelta} (h : LastSlot (l.map EntityDelta.tag) e slot) :
    ∃ before r after, l = before ++ r :: after ∧ r.entity = e ∧
      recordsOf e l = recordsOf e before ++ [r] ∧
      slot = if r.kind = .moved then .record before.length else .barrier := by
  obtain ⟨tags, kind, tags', htags, hafter, rfl⟩ := h
  obtain ⟨before, rest, rfl, rfl, hrest⟩ := List.map_eq_append_iff.1 htags
  obtain ⟨r, after, rfl, hr, rfl⟩ := List.map_eq_cons_iff.1 hrest
  obtain ⟨rfl, rfl⟩ := Prod.mk.inj hr
  refine ⟨before, r, after, rfl, rfl, ?_, by rw [List.length_map]⟩
  have hnone : recordsOf r.entity after = [] := by
    refine List.filter_eq_nil_iff.2 fun r' hr' => ?_
    have hne := hafter r'.tag (List.mem_map_of_mem hr')
    simpa [EntityDelta.tag] using hne
  have hcons : recordsOf r.entity (r :: after) = [r] := by
    have hself : recordsOf r.entity (r :: after) = r :: recordsOf r.entity after := by
      simp [recordsOf]
    rw [hself, hnone]
  rw [recordsOf_append, hcons]

/-- An entity without a slot has no record. -/
theorem recordsOf_eq_nil {l : List EntityDelta}
    (h : ∀ slot, ¬ LastSlot (l.map EntityDelta.tag) e slot) : recordsOf e l = [] := by
  induction l using List.reverseRecOn with
  | nil => rfl
  | append_singleton l r ih =>
    rw [recordsOf_append]
    have hconcat (slot : CoalesceSlot) := h slot
    simp only [List.map_append, List.map_singleton, EntityDelta.tag, lastSlot_concat, not_or,
      not_and] at hconcat
    have hne : e ≠ r.entity := fun heq => (hconcat _).1 heq rfl
    rw [ih fun slot => (hconcat slot).2 hne]
    simpa [recordsOf] using hne.symm

/-- Every entity's records are its recorded sequence with the moves folded. -/
def Folded (records log : List EntityDelta) : Prop :=
  ∀ e, recordsOf e records = foldMoves (recordsOf e log)

section Folded

variable {records log before after : List EntityDelta} {last : EntityDelta}

/-- A record that continues no move stands behind the others. -/
theorem Folded.append (h : Folded records log)
    (hr : ∀ last ∈ (recordsOf r.entity records).getLast?, chains last r = false) :
    Folded (records ++ [r]) (log ++ [r]) := by
  intro e
  rw [recordsOf_append, recordsOf_append, h e]
  by_cases he : r.entity = e
  · have hone : recordsOf e [r] = [r] := by simp [recordsOf, he]
    rw [hone, foldMoves_append_of_not_chains]
    rw [← he, ← h r.entity]
    exact hr
  · have hnone : recordsOf e [r] = [] := by simp [recordsOf, he]
    rw [hnone, List.append_nil, List.append_nil]

/-- A move that continues the last one of its entity is folded into it. -/
theorem Folded.fold (h : Folded (before ++ last :: after) log) (hentity : last.entity = r.entity)
    (hrecords : recordsOf r.entity (before ++ last :: after) =
      recordsOf r.entity before ++ [last])
    (hr : chains last r = true) :
    Folded (before ++ { last with toCoord := r.toCoord, lastTick := r.lastTick } :: after)
      (log ++ [r]) := by
  intro e
  rw [recordsOf_append e log]
  by_cases he : r.entity = e
  · have hone : recordsOf e [r] = [r] := by simp [recordsOf, he]
    have hfold := h e
    subst he
    rw [hrecords] at hfold
    rw [hone, foldMoves_append_of_chains hfold.symm hr]
    -- behind the last record of the entity there is none of it
    have hnone : recordsOf r.entity after = [] := by
      have hlen := congrArg List.length hrecords
      simp only [recordsOf, List.filter_append, List.filter_cons, hentity, decide_true, if_true,
        List.length_append, List.length_cons, List.length_nil] at hlen
      exact List.length_eq_zero_iff.1 (by simp only [recordsOf]; omega)
    simp only [recordsOf, List.filter_append, List.filter_cons, hentity, decide_true,
      if_true] at hnone ⊢
    rw [hnone]
  · have hnone : recordsOf e [r] = [] := by simp [recordsOf, he]
    rw [hnone, List.append_nil, ← h e]
    have hne : ¬ last.entity = e := fun heq => he (hentity.symm.trans heq)
    simp [recordsOf, hne]

end Folded

/-- **What a record does**: the table stays in order, and as long as no record was dropped the
pending records stay folded. -/
structure Recorded (c c' : EntityDeltaCollector) (d : EntityDelta) : Prop where
  /-- The table stays in order. -/
  table : c'.Table
  /-- The options stay. -/
  coalesceMoves : c'.coalesceMoves = c.coalesceMoves
  /-- No call takes a truncation back. -/
  truncated : c'.base.pendingTruncated = false → c.base.pendingTruncated = false
  /-- No record makes a baseline. -/
  baseline : c'.base.baselinePending = c.base.baselinePending
  /-- The records stay folded. -/
  folded : ∀ log, c'.base.pendingTruncated = false → Folded c.pendingEntities log →
    Folded c'.pendingEntities (log ++ [d])

/-- A record that continues no move. -/
theorem Table.appendWith_recorded (h : c.Table) (hon : c.coalesceMoves = true)
    (hr : r.entity ≠ kNullEntityHandle) {slotFor : ℕ → CoalesceSlot}
    (hslot : ∀ i, slotFor i = if r.kind = .moved then .record i else .barrier)
    (hlast : ∀ last ∈ (recordsOf r.entity c.pendingEntities).getLast?, chains last r = false) :
    ∃ c', c.appendWith r slotFor = some c' ∧ Recorded c c' r := by
  obtain ⟨c', happend, htable, rfl | ⟨slots, rfl⟩⟩ := h.appendWith hon hr hslot
  · exact ⟨_, happend, htable, rfl, fun ht => (by cases ht), rfl, fun log ht => (by cases ht)⟩
  · exact ⟨_, happend, htable, rfl, id, rfl, fun log _ hfolded => hfolded.append hlast⟩

theorem Table.recordBarrier (h : c.Table) (hon : c.coalesceMoves = true)
    (hr : r.entity ≠ kNullEntityHandle) (hkind : r.kind ≠ .moved) :
    ∃ c', c.recordBarrier r = some c' ∧ Recorded c c' r := by
  refine h.appendWith_recorded hon hr (fun i => by rw [if_neg hkind]) fun last _ => ?_
  simp [chains, hkind]

theorem Table.recordMove (h : c.Table) (hon : c.coalesceMoves = true)
    (he : e ≠ kNullEntityHandle) (fromCoord toCoord : Coord3) :
    ∃ c', c.recordMove e fromCoord toCoord = some c' ∧
      Recorded c c' ⟨e, .moved, fromCoord, toCoord, c.currentTick⟩ := by
  obtain ⟨found, hfind, hfound⟩ := h.find e
  have happend := @Table.appendWith_recorded _ ⟨e, .moved, fromCoord, toCoord, c.currentTick⟩ h
    hon he .record fun i => rfl
  unfold EntityDeltaCollector.recordMove
  dsimp only
  rw [if_pos hon, hfind]
  cases found with
  | none =>
    -- the entity has no record
    refine happend fun last hlast => ?_
    have hnil := recordsOf_eq_nil (e := e) (l := c.pendingEntities) fun slot hslot =>
      nomatch (hfound slot).2 hslot
    rw [hnil] at hlast
    cases hlast
  | some slot =>
    obtain ⟨before, last, after, hpend, hentity, hrecords, hslot⟩ :=
      exists_last ((hfound slot).1 rfl)
    have hgetLast : (recordsOf e c.pendingEntities).getLast? = some last := by
      rw [hrecords]
      simp
    cases slot with
    | barrier =>
      -- its last record is not a move
      refine happend fun last' hlast' => ?_
      obtain rfl : last = last' := by simpa [hgetLast] using hlast'
      have hkind : last.kind ≠ .moved := by
        intro hmoved
        rw [if_pos hmoved] at hslot
        cases hslot
      simp [chains, hkind]
    | record index =>
      have hmoved : last.kind = .moved := by
        by_contra hne
        rw [if_neg hne] at hslot
        cases hslot
      rw [if_pos hmoved] at hslot
      obtain rfl : index = before.length := by simpa using hslot
      have hget : c.pendingEntities[before.length]? = some last := by
        rw [hpend]
        simp
      dsimp only
      rw [hget]
      dsimp only
      split_ifs with hmeet
      · refine ⟨_, rfl, h.set hget rfl, rfl, id, rfl, fun log _ hfolded => ?_⟩
        have hset : c.pendingEntities.set before.length
            { last with toCoord := toCoord, lastTick := c.currentTick } =
            before ++ { last with toCoord := toCoord, lastTick := c.currentTick } :: after := by
          rw [hpend]
          simp
        dsimp only
        rw [hset]
        rw [hpend] at hfolded hrecords
        exact Folded.fold (r := ⟨e, .moved, fromCoord, toCoord, c.currentTick⟩) hfolded hentity
          hrecords (by simp [chains, hmoved, hmeet])
      · refine happend fun last' hlast' => ?_
        obtain rfl : last = last' := by simpa [hgetLast] using hlast'
        simp [chains, hmeet]

/-! ### Tile records leave entity records alone -/

theorem appendTileRecords_flags (tiles : List TileDelta) (d : DeltaCollector) :
    (d.appendTileRecords tiles).1.pendingTruncated = d.pendingTruncated ∧
      (d.appendTileRecords tiles).1.baselinePending = d.baselinePending := by
  induction tiles generalizing d with
  | nil => exact ⟨rfl, rfl⟩
  | cons tile tiles ih =>
    rw [DeltaCollector.appendTileRecords]
    split_ifs
    · exact ⟨rfl, rfl⟩
    · exact ih { d with pendingTiles := d.pendingTiles ++ [tile] }

theorem appendChunkRecord_flags (d : DeltaCollector) (record : TileChunkDelta) :
    ((d.appendChunkRecord record).1.pendingTruncated = false → d.pendingTruncated = false) ∧
      (d.appendChunkRecord record).1.baselinePending = d.baselinePending := by
  unfold DeltaCollector.appendChunkRecord
  split_ifs
  · exact ⟨fun h => (by cases h), rfl⟩
  · exact ⟨id, rfl⟩

variable {S : Shape}

/-- A collection takes no truncation back and makes no baseline. -/
theorem collectChunk_flags (s : DeltaState) (mask : BitVec 32) (key : ℕ) :
    ((s.collectChunkTileDeltas S mask key).collector.pendingTruncated = false →
      s.collector.pendingTruncated = false) ∧
    (s.collectChunkTileDeltas S mask key).collector.baselinePending =
      s.collector.baselinePending := by
  have hobserved (observed : DirtyObservation) :
      (s.recordObserved S key observed).1.pendingTruncated = s.collector.pendingTruncated ∧
        (s.recordObserved S key observed).1.baselinePending = s.collector.baselinePending := by
    unfold DeltaState.recordObserved
    dsimp only
    split_ifs
    · have hsame := appendTileRecords_flags
        (tileDeltas S observed.mask (clipDirtyBoundsToChunk S key observed.bounds)) s.collector
      split
      next heq => simpa [heq] using hsame
      next heq => simpa [heq] using hsame
    · exact ⟨rfl, rfl⟩
  unfold DeltaState.collectChunkTileDeltas
  dsimp only
  split_ifs
  · exact ⟨id, rfl⟩
  · obtain ⟨ht, hb⟩ := hobserved ((s.marks key).metaObserveDirty mask)
    obtain ⟨ht', hb'⟩ := appendChunkRecord_flags
      (s.recordObserved S key ((s.marks key).metaObserveDirty mask)).1
      (s.recordObserved S key ((s.marks key).metaObserveDirty mask)).2
    rw [ht] at ht'
    rw [hb] at hb'
    split
    next d heq =>
      rw [heq] at ht' hb'
      exact ⟨ht', hb'⟩
    next d heq =>
      rw [heq] at ht' hb'
      split
      · exact ⟨ht', hb'⟩
      · exact ⟨ht', hb'⟩

theorem collect_flags (keys : List ℕ) (s : DeltaState) (mask : BitVec 32) :
    ((keys.foldl (fun s key => s.collectChunkTileDeltas S mask key)
        s).collector.pendingTruncated = false → s.collector.pendingTruncated = false) ∧
    (keys.foldl (fun s key => s.collectChunkTileDeltas S mask key) s).collector.baselinePending =
      s.collector.baselinePending := by
  induction keys generalizing s with
  | nil => exact ⟨id, rfl⟩
  | cons key keys ih =>
    obtain ⟨ht, hb⟩ := ih (s.collectChunkTileDeltas S mask key)
    obtain ⟨ht', hb'⟩ := collectChunk_flags (S := S) s mask key
    exact ⟨fun h => ht' (ht h), hb.trans hb'⟩

/-- The entity records and the table of a collector, without its tile records. -/
theorem Table.congr (h : c.Table) (base : DeltaCollector) : Table { c with base := base } :=
  ⟨h.length, h.room, h.fits, h.probed, h.maps, h.nonnull⟩

/-! ### Frames -/

/-- A published or cleared collector has an empty table. -/
structure Restarted (c c' : EntityDeltaCollector) : Prop where
  /-- The table is in order. -/
  table : c'.Table
  /-- The options stay. -/
  coalesceMoves : c'.coalesceMoves = c.coalesceMoves
  /-- No record is pending. -/
  records : c'.pendingEntities = []
  /-- No slot survives. -/
  slots : ∀ p < c'.slotCount, c'.slots p = none

theorem Table.clear (h : c.Table) : ∃ c', c.clear = some c' ∧ Restarted c c' := by
  obtain ⟨slots, hclear, -, hnone⟩ := h.clearSlots
  refine ⟨_, by rw [EntityDeltaCollector.clear, hclear, Option.map_some], ?_⟩
  exact ⟨.of_empty h.length h.room hnone rfl, rfl, rfl, hnone⟩

/-- **A publication** ends with an empty table; its frame has the pending records unless it is a
baseline. -/
theorem Table.publish (h : c.Table) : ∃ frame c', c.publish = some (frame, c') ∧
    Restarted c c' ∧ frame.baseline = c.base.baselinePending ∧
    (frame.truncated = false → c.base.pendingTruncated = false) ∧
    (c.base.baselinePending = false → frame.entities = c.pendingEntities) := by
  -- what follows the records that a baseline drops
  have hrest (d : EntityDeltaCollector) (hd : d.Table) : ∃ c', d.clearCoalesceSlots.map
      (fun cleared => (d.frame,
        { cleared with
          base := { d.base.publish with version := d.frame.toVersion }
          pendingEntityCapacity := d.publishedEntityCapacity
          publishedEntityCapacity := d.pendingEntityCapacity
          pendingEntities := []
          pendingFirstTick := 0
          pendingLastTick := 0
          pendingTicks := 0 })) = some (d.frame, c') ∧ Restarted d c' := by
    obtain ⟨slots, hclear, -, hnone⟩ := hd.clearSlots
    refine ⟨_, by rw [hclear, Option.map_some], ?_⟩
    exact ⟨.of_empty hd.length hd.room.symm hnone rfl, rfl, rfl, hnone⟩
  have htruncated (d : EntityDeltaCollector) (hframe : d.frame.truncated = false) :
      d.base.pendingTruncated = false := (Bool.or_eq_false_iff.1 hframe).1
  unfold EntityDeltaCollector.publish
  cases hbaseline : c.base.baselinePending with
  | false =>
    obtain ⟨c', hmap, hrestart⟩ := hrest c h
    exact ⟨c.frame, c', hmap, hrestart, hbaseline, htruncated c, fun _ => rfl⟩
  | true =>
    obtain ⟨slots, hclear, -, hnone⟩ := h.clearSlots
    have hd : Table { c with slots := slots, pendingEntities := [] } :=
      .of_empty h.length h.room hnone rfl
    obtain ⟨c', hmap, hrestart⟩ := hrest _ hd
    refine ⟨_, c', ?_, ⟨hrestart.table, hrestart.coalesceMoves, hrestart.records,
      hrestart.slots⟩, hbaseline, htruncated { c with slots := slots, pendingEntities := [] },
      fun hno => nomatch hno⟩
    rw [if_pos rfl, dropPendingEntities, hclear, Option.map_some, Option.bind_some]
    exact hmap

end EntityDeltaCollector

/-! ### Runs -/

open EntityDeltaCollector

/-- A run with what it has recorded since the last frame, and its frames with what was recorded
for each. -/
structure CollectorRun where
  /-- The collector. -/
  collector : EntityDeltaCollector
  /-- Recorded deltas since the last publish or clear. -/
  log : List EntityDelta := []
  /-- Frames, each with the deltas recorded for it. -/
  published : List (EntityDeltaFrame × List EntityDelta) := []

namespace CollectorRun

/-- What is recorded for the pending frame, behind a call. -/
def logAfter (r : CollectorRun) (op : CollectorOp) : List EntityDelta :=
  match op with
  | .publish | .clear => []
  | op => r.log ++ (op.delta r.collector.currentTick).toList

/-- One call. -/
def step (S : Shape) (r : CollectorRun) (op : CollectorOp) : Option CollectorRun :=
  (r.collector.step S op).map fun result =>
    { collector := result.2
      log := r.logAfter op
      published := r.published ++ (result.1.map fun frame => (frame, r.log)).toList }

/-- A sequence of calls. -/
def run (S : Shape) : List CollectorOp → CollectorRun → Option CollectorRun
  | [], r => some r
  | op :: ops, r => (r.step S op).bind (run S ops)

variable {S : Shape} {r r' : CollectorRun}

/-- **The pending records are folded**, unless the frame is not one to apply as a delta; so are
those of the frames. -/
structure Coalesced (r : CollectorRun) : Prop where
  /-- Moves fold. -/
  coalesceMoves : r.collector.coalesceMoves = true
  /-- The table is in order. -/
  table : r.collector.Table
  /-- The pending records are folded. -/
  pending : r.collector.base.pendingTruncated = false → r.collector.base.baselinePending = false →
    Folded r.collector.pendingEntities r.log
  /-- The records of the frames are folded. -/
  published : ∀ p ∈ r.published, p.1.truncated = false → p.1.baseline = false →
    Folded p.1.entities p.2

/-- A call ends, keeps what is folded, and leaves the table empty between frames. -/
def Proceeds (S : Shape) (r : CollectorRun) (op : CollectorOp) : Prop :=
  ∃ r', r.step S op = some r' ∧ r'.Coalesced ∧
    (op = .publish ∨ op = .clear → ∀ p < r'.collector.slotCount, r'.collector.slots p = none)

/-- A record keeps what is folded. -/
theorem Coalesced.recorded (h : r.Coalesced) {op : CollectorOp} {d : EntityDelta}
    {c' : EntityDeltaCollector} (hop : ¬ (op = .publish ∨ op = .clear))
    (hstep : r.collector.step S op = some (none, c'))
    (hdelta : r.logAfter op = r.log ++ [d]) (hrecorded : Recorded r.collector c' d) :
    r.Proceeds S op := by
  refine ⟨_, by rw [step, hstep, Option.map_some], ?_, fun hend => absurd hend hop⟩
  refine ⟨hrecorded.coalesceMoves.trans h.coalesceMoves, hrecorded.table, fun ht hb => ?_, ?_⟩
  · dsimp only at ht hb ⊢
    rw [hdelta]
    exact hrecorded.folded r.log ht
      (h.pending (hrecorded.truncated ht) (hrecorded.baseline ▸ hb))
  · simpa using h.published

/-- A call that records no entity and publishes nothing keeps what is folded. -/
theorem Coalesced.tiles (h : r.Coalesced) {op : CollectorOp} {c' : EntityDeltaCollector}
    (hop : ¬ (op = .publish ∨ op = .clear)) (hstep : r.collector.step S op = some (none, c')) (hlog : r.logAfter op = r.log)
    (htable : c'.Table) (hon : c'.coalesceMoves = r.collector.coalesceMoves)
    (hrecords : c'.pendingEntities = r.collector.pendingEntities)
    (hflags : c'.base.pendingTruncated = false → c'.base.baselinePending = false →
      r.collector.base.pendingTruncated = false ∧ r.collector.base.baselinePending = false) :
    r.Proceeds S op := by
  refine ⟨_, by rw [step, hstep, Option.map_some], ?_, fun hend => absurd hend hop⟩
  refine ⟨hon.trans h.coalesceMoves, htable, fun ht hb => ?_, by simpa using h.published⟩
  obtain ⟨ht', hb'⟩ := hflags ht hb
  dsimp only
  rw [hlog, hrecords]
  exact h.pending ht' hb'

/-- **One call** ends, keeps the records folded, and leaves the table empty between frames. -/
theorem Coalesced.step (h : r.Coalesced) (S : Shape) (op : CollectorOp)
    (hnull : ∀ tick, ∀ d ∈ op.delta tick, d.entity ≠ kNullEntityHandle) : r.Proceeds S op := by
  have hbarrier (d : EntityDelta) (hd : d.entity ≠ kNullEntityHandle) (hkind : d.kind ≠ .moved) :=
    h.table.recordBarrier (r := d) h.coalesceMoves hd hkind
  cases op with
  | beginTick tick =>
    refine h.tiles (by simp) rfl (by simp [logAfter, CollectorOp.delta]) ?_ rfl rfl
      fun ht hb => ⟨ht, hb⟩
    exact ⟨h.table.length, h.table.room, h.table.fits, h.table.probed, h.table.maps,
      h.table.nonnull⟩
  | recordMove e fromCoord toCoord =>
    obtain ⟨c', hc', hrecorded⟩ := h.table.recordMove h.coalesceMoves
      (hnull r.collector.currentTick _ rfl) fromCoord toCoord
    exact h.recorded (by simp) (by rw [EntityDeltaCollector.step, hc', Option.map_some]) rfl
      hrecorded
  | recordTeleport e fromCoord toCoord =>
    obtain ⟨c', hc', hrecorded⟩ := hbarrier
      ⟨e, .teleported, fromCoord, toCoord, r.collector.currentTick⟩ (hnull _ _ rfl) (by simp)
    exact h.recorded (by simp)
      (by rw [EntityDeltaCollector.step, recordTeleport, hc', Option.map_some]) rfl hrecorded
  | recordSpawn e coord =>
    obtain ⟨c', hc', hrecorded⟩ := hbarrier ⟨e, .spawned, coord, coord, r.collector.currentTick⟩
      (hnull _ _ rfl) (by simp)
    exact h.recorded (by simp)
      (by rw [EntityDeltaCollector.step, recordSpawn, hc', Option.map_some]) rfl hrecorded
  | recordDespawn e coord =>
    obtain ⟨c', hc', hrecorded⟩ := hbarrier
      ⟨e, .despawned, coord, coord, r.collector.currentTick⟩ (hnull _ _ rfl) (by simp)
    exact h.recorded (by simp)
      (by rw [EntityDeltaCollector.step, recordDespawn, hc', Option.map_some]) rfl hrecorded
  | recordPark e coord =>
    obtain ⟨c', hc', hrecorded⟩ := hbarrier ⟨e, .parked, coord, coord, r.collector.currentTick⟩
      (hnull _ _ rfl) (by simp)
    exact h.recorded (by simp)
      (by rw [EntityDeltaCollector.step, recordPark, hc', Option.map_some]) rfl hrecorded
  | recordPlace e coord =>
    obtain ⟨c', hc', hrecorded⟩ := hbarrier ⟨e, .placed, coord, coord, r.collector.currentTick⟩
      (hnull _ _ rfl) (by simp)
    exact h.recorded (by simp)
      (by rw [EntityDeltaCollector.step, recordPlace, hc', Option.map_some]) rfl hrecorded
  | collectTileDeltas marks keys mask =>
    have hsame : ∃ base, r.collector.collectTileDeltas S marks keys mask =
        { r.collector with base := base } ∧
        (base.pendingTruncated = false → r.collector.base.pendingTruncated = false) ∧
        base.baselinePending = r.collector.base.baselinePending := by
      unfold EntityDeltaCollector.collectTileDeltas
      split_ifs
      · exact ⟨_, rfl, id, rfl⟩
      · exact ⟨_, rfl, collect_flags keys ⟨marks, r.collector.base.noteCollectedMask mask⟩ mask⟩
    obtain ⟨base, hcollect, ht', hb'⟩ := hsame
    exact h.tiles (by simp) (by rw [EntityDeltaCollector.step, hcollect])
      (by simp [logAfter, CollectorOp.delta]) (h.table.congr base) rfl rfl
      fun ht hb => ⟨ht' ht, hb' ▸ hb⟩
  | collectBaseline marks keys mask =>
    exact h.tiles (by simp) rfl (by simp [logAfter, CollectorOp.delta]) (h.table.congr _) rfl rfl
      fun _ hb => nomatch hb
  | publish =>
    obtain ⟨frame, c', hpublish, hrestart, hbaseline, htruncated, hentities⟩ := h.table.publish
    refine ⟨_, by rw [CollectorRun.step, EntityDeltaCollector.step, hpublish]; rfl, ?_,
      fun _ => hrestart.slots⟩
    refine ⟨hrestart.coalesceMoves.trans h.coalesceMoves, hrestart.table, fun _ _ => ?_, ?_⟩
    · dsimp only
      rw [hrestart.records]
      exact fun e => rfl
    · intro p hp ht hb
      rcases List.mem_append.1 hp with hp | hp
      · exact h.published p hp ht hb
      · obtain rfl : p = (frame, r.log) := by simpa using hp
        rw [hbaseline] at hb
        dsimp only
        rw [hentities hb]
        exact h.pending (htruncated ht) hb
  | clear =>
    obtain ⟨c', hclear, hrestart⟩ := h.table.clear
    refine ⟨_, by rw [CollectorRun.step, EntityDeltaCollector.step, hclear]; rfl, ?_,
      fun _ => hrestart.slots⟩
    refine ⟨hrestart.coalesceMoves.trans h.coalesceMoves, hrestart.table, fun _ _ => ?_, ?_⟩
    · dsimp only
      rw [hrestart.records]
      exact fun e => rfl
    · simpa using h.published

/-- **Every sequence of calls** with entities ends and keeps what is folded. -/
theorem Coalesced.run (h : r.Coalesced) (S : Shape) (ops : List CollectorOp)
    (hnull : ∀ op ∈ ops, ∀ tick, ∀ d ∈ op.delta tick, d.entity ≠ kNullEntityHandle) :
    ∃ r', r.run S ops = some r' ∧ r'.Coalesced ∧
      ∀ before op, ops = before ++ [op] → op = .publish ∨ op = .clear →
        ∀ p < r'.collector.slotCount, r'.collector.slots p = none := by
  induction ops generalizing r with
  | nil => exact ⟨r, rfl, h, fun before op heq => by simp at heq⟩
  | cons op ops ih =>
    obtain ⟨r₁, hstep, hr₁, hend⟩ := h.step S op (hnull op List.mem_cons_self)
    obtain ⟨r', hrun, hr', hlast⟩ :=
      ih hr₁ fun op hop => hnull op (List.mem_cons_of_mem _ hop)
    refine ⟨r', by rw [CollectorRun.run, hstep, Option.bind_some, hrun], hr', ?_⟩
    intro before op' heq hop'
    cases before with
    | nil =>
      obtain ⟨rfl, rfl⟩ : op = op' ∧ ops = [] := by simpa using heq
      obtain rfl : r₁ = r' := Option.some.inj hrun
      exact hend hop'
    | cons b before =>
      obtain ⟨-, hops⟩ := List.cons.inj heq
      exact hlast before op' hops hop'

end CollectorRun

/-- Collectors with folding that `reserve` has given storage, once or several times. -/
inductive Reserved (grow : ℕ → ℕ) : EntityDeltaCollector → Prop
  /-- The first time. -/
  | first (sparseTileThreshold chunks tiles entities : ℕ) : Reserved grow
      (reserve { base := { sparseTileThreshold := sparseTileThreshold } } grow chunks tiles entities)
  /-- Once more. -/
  | again {c : EntityDeltaCollector} (chunks tiles entities : ℕ) (h : Reserved grow c) :
    Reserved grow (c.reserve grow chunks tiles entities)

/-- `reserve` leaves a table that is empty and large enough. -/
theorem table_reserve (c : EntityDeltaCollector) (grow : ℕ → ℕ) (chunks tiles entities : ℕ)
    (hlength : c.slotCount = 0 ∨ ∃ k, c.slotCount = 2 ^ k)
    (hslots : ∀ p, c.slots p = none) (hrecords : c.pendingEntities = []) :
    (c.reserve grow chunks tiles entities).Table ∧
      ∀ p, (c.reserve grow chunks tiles entities).slots p = none := by
  obtain ⟨⟨k, hk⟩, hroom⟩ := ChunkDirectory.growTable_spec
    (max (reserveCapacity grow c.pendingEntityCapacity entities)
      (reserveCapacity grow c.publishedEntityCapacity entities) * 2)
    (max (reserveCapacity grow c.pendingEntityCapacity entities)
      (reserveCapacity grow c.publishedEntityCapacity entities) * 2) 8
  have hlarge := hroom (by omega) (by omega)
  have hnone : ∀ p, (c.reserve grow chunks tiles entities).slots p = none := by
    intro p
    unfold reserve
    dsimp only
    split_ifs
    · rfl
    · exact hslots p
  refine ⟨.of_empty ?_ ?_ (fun p _ => hnone p) hrecords, hnone⟩
  · unfold reserve
    dsimp only
    split_ifs with hgrow
    · exact ⟨3 + k, by rw [hk, pow_add]; rfl⟩
    · rcases hlength with hzero | hpow
      · rw [hk, hzero] at hgrow
        have hpos := Nat.two_pow_pos k
        omega
      · exact hpow
  · unfold reserve
    dsimp only
    generalize reserveCapacity grow c.pendingEntityCapacity entities = a at *
    generalize reserveCapacity grow c.publishedEntityCapacity entities = b at *
    split_ifs with hgrow <;> omega

/-- A collector with storage has an empty table. -/
theorem Reserved.table {grow : ℕ → ℕ} {c : EntityDeltaCollector} (h : Reserved grow c) :
    c.Table ∧ (∀ p, c.slots p = none) ∧ c.pendingEntities = [] ∧ c.coalesceMoves = true := by
  induction h with
  | first threshold chunks tiles entities =>
    obtain ⟨htable, hslots⟩ := table_reserve
      { base := { sparseTileThreshold := threshold } } grow chunks tiles entities (.inl rfl)
      (fun p => rfl) rfl
    exact ⟨htable, hslots, rfl, rfl⟩
  | again chunks tiles entities _ ih =>
    obtain ⟨htable, hslots, hrecords, hon⟩ := ih
    obtain ⟨htable', hslots'⟩ :=
      table_reserve _ grow chunks tiles entities (.inr htable.length) hslots hrecords
    exact ⟨htable', hslots', hrecords, hon⟩

/-- **Complete frames are folded.**  For every sequence of calls with entities on a collector with
storage: every probe loop ends, no slot survives a publish or a clear, and in a frame that is
neither truncated nor a baseline the records of every entity are what was recorded of it for the
frame, with every maximal run of meeting moves folded. -/
theorem coalesced_frames (S : Shape) (grow : ℕ → ℕ) (c : EntityDeltaCollector)
    (h : Reserved grow c) (ops : List CollectorOp)
    (hnull : ∀ op ∈ ops, ∀ tick, ∀ d ∈ op.delta tick, d.entity ≠ kNullEntityHandle) :
    ∃ r, CollectorRun.run S ops { collector := c } = some r ∧
      (∀ p ∈ r.published, p.1.truncated = false → p.1.baseline = false →
        ∀ e, recordsOf e p.1.entities = foldMoves (recordsOf e p.2)) ∧
      ∀ before op, ops = before ++ [op] → op = .publish ∨ op = .clear →
        ∀ p < r.collector.slotCount, r.collector.slots p = none := by
  obtain ⟨htable, -, hrecords, hon⟩ := h.table
  have hstart : CollectorRun.Coalesced { collector := c } := by
    refine ⟨hon, htable, fun _ _ e => ?_, by simp⟩
    dsimp only
    rw [hrecords]
    rfl
  obtain ⟨r, hrun, hr, hend⟩ := hstart.run S ops hnull
  exact ⟨r, hrun, hr.published, hend⟩

/-- The theorem at two meeting moves and one that does not meet them. -/
theorem coalesced_frames_threeMoves :
    ∃ r, CollectorRun.run twoCells
      [.recordMove 7 ⟨0, 0, 0⟩ ⟨1, 0, 0⟩, .recordMove 7 ⟨1, 0, 0⟩ ⟨2, 0, 0⟩,
        .recordMove 7 ⟨5, 0, 0⟩ ⟨6, 0, 0⟩, .publish]
      { collector := ({} : EntityDeltaCollector).reserve id 1 1 4 } = some r ∧
      (∀ p ∈ r.published, p.1.truncated = false → p.1.baseline = false →
        ∀ e, recordsOf e p.1.entities = foldMoves (recordsOf e p.2)) := by
  obtain ⟨r, hrun, hframes, -⟩ := coalesced_frames twoCells id
    (({} : EntityDeltaCollector).reserve id 1 1 4) (.first 64 1 1 4)
    [.recordMove 7 ⟨0, 0, 0⟩ ⟨1, 0, 0⟩, .recordMove 7 ⟨1, 0, 0⟩ ⟨2, 0, 0⟩,
      .recordMove 7 ⟨5, 0, 0⟩ ⟨6, 0, 0⟩, .publish]
    (by
      intro op hop tick d hd
      simp only [List.mem_cons, List.not_mem_nil, or_false] at hop
      rcases hop with rfl | rfl | rfl | rfl <;>
        simp only [CollectorOp.delta, Option.mem_def, Option.some.injEq, reduceCtorEq] at hd <;>
        · subst hd
          exact (by decide : (7 : EntityHandle) ≠ kNullEntityHandle))
  exact ⟨r, hrun, hframes⟩

end Tess
