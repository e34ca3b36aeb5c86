import Tess.Storage.World

/-!
# Runs of marked edits

An edit changes the fields of one chunk and marks that chunk, which advances its content
version.  Derived data remembers versions, so what matters about a run of edits is which chunks
it touched and what their versions say afterwards.

* `EditStep`, `EditRun` : one marked edit, and a run of them with the chunks it edited;
* `editStep_write` : writing one tile and marking its chunk is an edit;
* `EditRun.not_mem_of_version` : **an unchanged version means an unedited chunk**.
-/

namespace Tess

namespace World

variable {S : Shape} {Tag : Type*} {W W' W'' : World S Tag} {key k : ℕ} {keys : List ℕ}

/-- The contents of one chunk change and its content version advances. -/
structure EditStep (key : ℕ) (W W' : World S Tag) : Prop where
  /-- The chunk belongs to the world. -/
  key_lt : key < S.chunkCount
  /-- The residency policy stays. -/
  residency : W'.residency = W.residency
  /-- The resident chunks stay in their slots. -/
  residentSlot : W'.residentSlot = W.residentSlot
  /-- Other chunks keep their contents. -/
  tryChunk : ∀ k ≠ key, W'.tryChunk k = W.tryChunk k
  /-- The chunk is marked. -/
  version : W'.contentVersion key = W.contentVersion key + 1
  /-- Other chunks keep their versions. -/
  version_of_ne : ∀ k ≠ key, W'.contentVersion k = W.contentVersion k

/-- A run of marked edits; the list names the edited chunks, the last one first. -/
inductive EditRun : World S Tag → World S Tag → List ℕ → Prop
  | refl (W : World S Tag) : EditRun W W []
  | tail {W W' W'' : World S Tag} {key : ℕ} {keys : List ℕ} :
      EditRun W W' keys → EditStep key W' W'' → EditRun W W'' (key :: keys)

/-- **Writing one tile and marking its chunk** is an edit. -/
theorem editStep_write [DecidableEq Tag] (tag : Tag) {c : Coord3} (hc : S.contains c = true)
    (value : ℤ) : EditStep (W.resolve c).chunkKey W
      ((W.writeField tag c value).markContentChanged (W.resolve c).chunkKey) := by
  have hslot : (W.writeField tag c value).residentSlot = W.residentSlot := by
    unfold writeField
    split <;> rfl
  have hversion : (W.writeField tag c value).contentVersion = W.contentVersion := by
    unfold writeField
    split <;> rfl
  refine ⟨Shape.chunkKey_lt hc, ?_, hslot, fun k hk => ?_, ?_, fun k hk => ?_⟩
  · change (W.writeField tag c value).residency = _
    unfold writeField
    split <;> rfl
  · change (W.writeField tag c value).tryChunk k = _
    unfold writeField
    split
    · rfl
    · rename_i slot hs
      simp only [World.tryChunk]
      cases hk' : W.residentSlot k with
      | none => rfl
      | some slot' =>
        have hne : slot' ≠ slot := fun h => hk (W.slot_inj _ _ _ (h ▸ hk') hs)
        simp [hne]
  · simp [markContentChanged, hversion]
  · simp [markContentChanged, hversion, hk]

namespace EditRun

theorem residency (h : EditRun W W' keys) : W'.residency = W.residency := by
  induction h with
  | refl => rfl
  | tail _ hs ih => rw [hs.residency, ih]

theorem isDense (h : EditRun W W' keys) (hd : W.IsDense) : W'.IsDense := h.residency.trans hd

theorem tryChunk (h : EditRun W W' keys) (hk : k ∉ keys) : W'.tryChunk k = W.tryChunk k := by
  induction h with
  | refl => rfl
  | tail _ hs ih =>
    rw [List.mem_cons, not_or] at hk
    rw [hs.tryChunk k hk.1, ih hk.2]

theorem tileAt (h : EditRun W W' keys) {c : Coord3} (hk : (W.resolve c).chunkKey ∉ keys) :
    W'.tileAt c = W.tileAt c := by
  by_cases hc : S.contains c = true
  · rw [tileAt_of_contains hc, tileAt_of_contains hc]
    exact congrArg _ (h.tryChunk hk)
  · rw [tileAt_of_not_contains hc, tileAt_of_not_contains hc]

theorem key_lt (h : EditRun W W' keys) (hk : k ∈ keys) : k < S.chunkCount := by
  induction h with
  | refl => exact absurd hk List.not_mem_nil
  | tail _ hs ih =>
    rcases List.mem_cons.1 hk with rfl | hk
    · exact hs.key_lt
    · exact ih hk

/-- Versions count the edits of their chunk. -/
theorem version_eq (h : EditRun W W' keys) (k : ℕ) :
    W'.contentVersion k = W.contentVersion k + keys.count k := by
  induction h with
  | refl => rfl
  | @tail _ _ key keys _ hs ih =>
    by_cases hk : k = key
    · subst hk
      rw [hs.version, List.count_cons_self, ih, Nat.add_assoc]
    · rw [hs.version_of_ne k hk, List.count_cons_of_ne (Ne.symm hk), ih]

/-- **An unchanged version means an unedited chunk.** -/
theorem not_mem_of_version (h : EditRun W W' keys)
    (hv : W'.contentVersion k = W.contentVersion k) : k ∉ keys := by
  have hcount := h.version_eq k
  exact List.count_eq_zero.1 (by omega)

/-- A run that leaves every version alone has no edit. -/
theorem eq_of_version (h : EditRun W W' keys)
    (hv : ∀ k < S.chunkCount, W'.contentVersion k = W.contentVersion k) : W' = W := by
  cases h with
  | refl => rfl
  | @tail W₁ _ key keys hrun hs =>
    have hmem : key ∈ key :: keys := List.mem_cons_self
    exact absurd hmem (not_mem_of_version (hrun.tail hs) (hv key hs.key_lt))

end EditRun

end World

end Tess
