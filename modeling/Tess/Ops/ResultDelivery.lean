import Tess.Ops.ResultChannel

/-!
# Delivery of results

Every settled operation is delivered once: the flag of its slot says whether a visitor has
returned from it, or is still at it.

* `ResultChannel.Matches` : the slots hold what was settled since the last clear;
* `ChannelRun.Inv` : **the invariant**, with the visits that have not ended;
* `ChannelRun.Later` : what any call of a visitor may change;
* `ChannelRun.drainSlots_spec` : **the loop of a drain** keeps the invariant and passes no settled
  slot;
* `ChannelRun.drain_spec` : **a drain**, with a visitor that may drain and clear.
-/

namespace Tess

variable {T : Type}

/-! ### Slots -/

/-- The slot holds the settled operation. -/
structure ResultSlot.Holds (slot : ResultSlot T) (s : SettledOperation T) : Prop where
  /-- A drain visits it. -/
  settled : slot.Settled
  /-- Its completion. -/
  completion : slot.completion = s.completion
  /-- The value that a visitor gets. -/
  value : (if slot.state = .ready then some slot.value else none) = s.value

namespace ResultChannel

variable {channel channel' : ResultChannel T} {h j : ℕ}

/-- The flag of a slot. -/
def drained (channel : ResultChannel T) (h : ℕ) : Bool :=
  (channel.slots[h]?.map ResultSlot.drained).getD false

theorem slots_modify (f : ResultSlot T → ResultSlot T) :
    (channel.modify h f).slots[j]? =
      if j = h then channel.slots[j]?.map f else channel.slots[j]? := by
  unfold modify
  rw [List.getElem?_modify]
  by_cases hj : j = h
  · subst hj
    cases channel.slots[j]? <;> simp
  · have hne : h ≠ j := Ne.symm hj
    cases channel.slots[j]? <;> simp [hj, hne]

/-- The slots hold the operations that were settled since the last clear. -/
structure Matches (channel : ResultChannel T) (epoch : ℕ) (settled : List (SettledOperation T)) :
    Prop where
  /-- What was settled has a slot. -/
  slot_of_settled : ∀ s ∈ settled, s.epoch = epoch →
    ∃ slot, channel.slots[s.handle]? = some slot ∧ slot.Holds s
  /-- A slot that a drain visits was settled. -/
  settled_of_slot : ∀ (h : ℕ) (slot : ResultSlot T), channel.slots[h]? = some slot →
    slot.Settled → ∃ s ∈ settled, s.epoch = epoch ∧ s.handle = h
  /-- Other slots have no completion. -/
  unsettled : ∀ (h : ℕ) (slot : ResultSlot T), channel.slots[h]? = some slot →
    ¬ slot.Settled → slot.completion = {}

/-- The slots are the same but for their flags. -/
def SameSlots (channel channel' : ResultChannel T) : Prop :=
  ∀ h : ℕ, channel'.slots[h]?.map (fun slot : ResultSlot T => { slot with drained := false }) =
    channel.slots[h]?.map fun slot : ResultSlot T => { slot with drained := false }

theorem SameSlots.refl (channel : ResultChannel T) : SameSlots channel channel := fun _ => rfl

theorem SameSlots.symm (hs : SameSlots channel channel') : SameSlots channel' channel := fun h =>
  (hs h).symm

theorem SameSlots.trans {channel'' : ResultChannel T} (hs : SameSlots channel channel')
    (hs' : SameSlots channel' channel'') : SameSlots channel channel'' := fun h =>
  (hs' h).trans (hs h)

/-- A slot of one channel is one of the other, with another flag at most. -/
theorem SameSlots.get (hs : SameSlots channel channel') {slot : ResultSlot T}
    (hslot : channel.slots[h]? = some slot) :
    ∃ slot', channel'.slots[h]? = some slot' ∧ slot'.state = slot.state ∧
      slot'.completion = slot.completion ∧ slot'.value = slot.value := by
  have heq := hs h
  rw [hslot, Option.map_some] at heq
  obtain ⟨slot', hslot', hsame⟩ := Option.map_eq_some_iff.1 heq
  injection hsame with hvalue hcompletion hstate
  exact ⟨slot', hslot', hstate, hcompletion, hvalue⟩

theorem SameSlots.length_eq (hs : SameSlots channel channel') :
    channel'.slots.length = channel.slots.length := by
  have hmap : channel'.slots.map (fun slot : ResultSlot T => { slot with drained := false }) =
      channel.slots.map fun slot : ResultSlot T => { slot with drained := false } := by
    refine List.ext_getElem? fun h => ?_
    rw [List.getElem?_map, List.getElem?_map]
    exact hs h
  simpa using congrArg List.length hmap

theorem SameSlots.modify (f : ResultSlot T → ResultSlot T)
    (hf : ∀ slot, ({ f slot with drained := false } : ResultSlot T) = { slot with drained := false }) :
    SameSlots channel (channel.modify h f) := by
  intro j
  rw [slots_modify]
  split
  · cases channel.slots[j]? with
    | none => rfl
    | some slot => exact congrArg some (hf slot)
  · rfl

theorem Matches.congr {epoch : ℕ} {settled : List (SettledOperation T)}
    (hm : channel.Matches epoch settled) (hs : SameSlots channel channel') :
    channel'.Matches epoch settled := by
  refine ⟨fun s hmem he => ?_, fun h slot hslot hsettled => ?_, fun h slot hslot hsettled => ?_⟩
  · obtain ⟨slot, hslot, hholds⟩ := hm.slot_of_settled s hmem he
    obtain ⟨slot', hslot', hstate, hcompletion, hvalue⟩ := hs.get hslot
    refine ⟨slot', hslot', ?_, hcompletion.trans hholds.completion, ?_⟩
    · unfold ResultSlot.Settled
      rw [hstate]
      exact hholds.settled
    · rw [hstate, hvalue]
      exact hholds.value
  · obtain ⟨slot', hslot', hstate, -, -⟩ := hs.symm.get hslot
    refine hm.settled_of_slot h slot' hslot' ?_
    unfold ResultSlot.Settled
    rw [hstate]
    exact hsettled
  · obtain ⟨slot', hslot', hstate, hcompletion, -⟩ := hs.symm.get hslot
    rw [← hcompletion]
    refine hm.unsettled h slot' hslot' ?_
    unfold ResultSlot.Settled
    rw [hstate]
    exact hsettled

end ResultChannel

namespace ChannelRun

open ResultChannel

variable {r r' r'' : ChannelRun T} {busy : List (ℕ × ℕ)} {n e h index : ℕ}

/-! ### The invariant -/

/-- Visits of an operation from which the visitor returned. -/
def returnedCount (r : ChannelRun T) (e h : ℕ) : ℕ :=
  r.visits.countP fun v => v.returned && v.epoch = e && v.handle = h

/-- **The invariant**, with the operations at which a visitor is. -/
structure Inv (busy : List (ℕ × ℕ)) (r : ChannelRun T) : Prop where
  /-- The generation counts the clears. -/
  generation : r.channel.generation = r.clears % 2 ^ 64
  /-- The drains are numbered. -/
  drain_lt : ∀ v ∈ r.visits, v.drain < r.drains
  /-- A drain goes up. -/
  ordered : r.visits.Pairwise fun a b => a.drain = b.drain → a.handle < b.handle
  /-- An operation is delivered at most once, also by the visits that have not ended. -/
  once : ∀ e h, r.returnedCount e h + busy.count (e, h) ≤ 1
  /-- The flags tell the delivered operations. -/
  flags : ∀ h, r.channel.drained h = true ↔
    0 < r.returnedCount r.clears h + busy.count (r.clears, h)
  /-- Nothing was settled after the next clear. -/
  epochs : ∀ s ∈ r.settled, s.epoch ≤ r.clears
  /-- Nothing is visited after the next clear. -/
  busy_epochs : ∀ p ∈ busy, p.1 ≤ r.clears
  /-- The slots hold what was settled. -/
  holds : r.channel.Matches r.clears r.settled
  /-- A visit gets what was settled. -/
  visit_settled : ∀ v ∈ r.visits, ∃ s ∈ r.settled, s.epoch = v.epoch ∧ s.handle = v.handle ∧
    s.completion = v.completion ∧ s.value = v.value
  /-- The operations with a value are those that executed. -/
  value_iff : ∀ s ∈ r.settled, s.value.isSome ↔ s.completion.ok = true

theorem Inv.visit_epochs (hr : r.Inv busy) {v : ChannelVisit T} (hv : v ∈ r.visits) :
    v.epoch ≤ r.clears := by
  obtain ⟨s, hs, he, -⟩ := hr.visit_settled v hv
  exact he ▸ hr.epochs s hs

/-- **What a call of a visitor may change**: it adds visits of later drains, and it clears, or
changes flags of slots only. -/
structure Later (n : ℕ) (r r' : ChannelRun T) : Prop where
  /-- Drains are added. -/
  drains : r.drains ≤ r'.drains
  /-- Nothing is settled. -/
  settled : r'.settled = r.settled
  /-- Visits are added, of drains from a number on. -/
  visits : ∃ new, r'.visits = r.visits ++ new ∧ ∀ v ∈ new, n ≤ v.drain
  /-- The slots are gone, or are the same, and no flag is taken back. -/
  slots : r'.clears = r.clears ∧ SameSlots r.channel r'.channel ∧
      (∀ h, r.channel.drained h = true → r'.channel.drained h = true) ∨
    r.clears < r'.clears ∧ r'.channel.slots = []

theorem Later.refl (n : ℕ) (r : ChannelRun T) : Later n r r :=
  ⟨le_rfl, rfl, ⟨[], by simp, by simp⟩, .inl ⟨rfl, .refl _, fun _ => id⟩⟩

theorem Later.clears_le (hr : Later n r r') : r.clears ≤ r'.clears := by
  rcases hr.slots with ⟨heq, -⟩ | ⟨hlt, -⟩ <;> omega

theorem Later.trans (hr : Later n r r') (hr' : Later n r' r'') : Later n r r'' := by
  refine ⟨hr.drains.trans hr'.drains, hr'.settled.trans hr.settled, ?_, ?_⟩
  · obtain ⟨new, hnew, hn⟩ := hr.visits
    obtain ⟨new', hnew', hn'⟩ := hr'.visits
    refine ⟨new ++ new', by rw [hnew', hnew, List.append_assoc], fun v hv => ?_⟩
    rcases List.mem_append.1 hv with hv | hv
    · exact hn v hv
    · exact hn' v hv
  · rcases hr.slots with ⟨hc, hs, hf⟩ | ⟨hlt, hnil⟩
    · rcases hr'.slots with ⟨hc', hs', hf'⟩ | ⟨hlt', hnil'⟩
      · exact .inl ⟨hc'.trans hc, hs.trans hs', fun h hd => hf' h (hf h hd)⟩
      · exact .inr ⟨hc ▸ hlt', hnil'⟩
    · refine .inr ⟨hlt.trans_le hr'.clears_le, ?_⟩
      rcases hr'.slots with ⟨-, hs', -⟩ | ⟨-, hnil'⟩
      · refine List.eq_nil_iff_forall_not_mem.2 fun slot hslot => ?_
        obtain ⟨i, hi, hget⟩ := List.getElem_of_mem hslot
        obtain ⟨slot', hslot', -⟩ := hs'.symm.get (List.getElem?_eq_getElem hi)
        rw [hnil] at hslot'
        simp at hslot'
      · exact hnil'

theorem Later.mono {m : ℕ} (hr : Later n r r') (hmn : m ≤ n) : Later m r r' := by
  obtain ⟨new, hnew, hn⟩ := hr.visits
  exact ⟨hr.drains, hr.settled, ⟨new, hnew, fun v hv => hmn.trans (hn v hv)⟩, hr.slots⟩

theorem Later.channel_slots (hr : Later n r r') (hc : r'.clears = r.clears) :
    SameSlots r.channel r'.channel ∧
      ∀ h, r.channel.drained h = true → r'.channel.drained h = true := by
  rcases hr.slots with ⟨-, hs⟩ | ⟨hlt, -⟩
  · exact hs
  · omega

/-! ### One visit -/

theorem drained_of_slot {slot : ResultSlot T} (hslot : r.channel.slots[h]? = some slot) :
    r.channel.drained h = slot.drained := by
  unfold drained
  rw [hslot]
  rfl

@[simp] theorem drained_setDrained (b : Bool) (j : ℕ) :
    (r.setDrained h b).channel.drained j =
      if j = h then r.channel.slots[j]?.isSome && b else r.channel.drained j := by
  unfold drained setDrained
  rw [slots_modify]
  split
  · cases r.channel.slots[j]? <;> simp
  · rfl

theorem sameSlots_setDrained (r : ChannelRun T) (h : ℕ) (b : Bool) :
    SameSlots r.channel (r.setDrained h b).channel := SameSlots.modify _ fun _ => rfl

/-- A visitor is called. -/
theorem Inv.call (hr : r.Inv busy) {slot : ResultSlot T}
    (hslot : r.channel.slots[h]? = some slot) (hd : slot.drained = false) :
    (r.setDrained h true).Inv ((r.clears, h) :: busy) := by
  have hnone : r.returnedCount r.clears h + busy.count (r.clears, h) = 0 := by
    have hflag := (hr.flags h).not
    rw [drained_of_slot hslot, hd] at hflag
    have := hflag.1 (by simp)
    omega
  refine
    { generation := hr.generation
      drain_lt := hr.drain_lt
      ordered := hr.ordered
      once := fun e j => ?_
      flags := fun j => ?_
      epochs := hr.epochs
      busy_epochs := fun p hp => ?_
      holds := hr.holds.congr (sameSlots_setDrained r h true)
      visit_settled := hr.visit_settled
      value_iff := hr.value_iff }
  · show r.returnedCount e j + _ ≤ 1
    have := hr.once e j
    rw [List.count_cons]
    split
    · next heq =>
      obtain ⟨rfl, rfl⟩ := Prod.mk.inj (eq_of_beq heq)
      omega
    · omega
  · show _ ↔ 0 < r.returnedCount r.clears j + ((r.clears, h) :: busy).count (r.clears, j)
    rw [drained_setDrained, List.count_cons]
    by_cases hj : j = h
    · subst hj
      rw [if_pos rfl, hslot]
      simp
    · have hne : ((r.clears, h) == (r.clears, j)) = false := by
        simpa using fun heq => hj heq.symm
      rw [if_neg hj, hr.flags j, hne]
      simp
  · rcases List.mem_cons.1 hp with rfl | hp
    · exact le_rfl
    · exact hr.busy_epochs p hp

theorem returnedCount_append (r : ChannelRun T) (v : ChannelVisit T) (e h : ℕ) :
    ({ r with visits := r.visits ++ [v] } : ChannelRun T).returnedCount e h =
      r.returnedCount e h + if v.returned && v.epoch = e && v.handle = h then 1 else 0 := by
  unfold returnedCount
  rw [List.countP_append, List.countP_singleton]

/-- **A visitor returns or throws**; after a throw the flag of a slot of the same epoch is
restored. -/
theorem Inv.ret (hr : r.Inv ((e, h) :: busy)) {v : ChannelVisit T} (he : v.epoch = e)
    (hh : v.handle = h) (hdrain : v.drain < r.drains)
    (hlast : ∀ w ∈ r.visits, w.drain = v.drain → w.handle < v.handle)
    (hsettled : ∃ s ∈ r.settled, s.epoch = v.epoch ∧ s.handle = v.handle ∧
      s.completion = v.completion ∧ s.value = v.value)
    {channel : ResultChannel T} (hgen : channel.generation = r.channel.generation)
    (hsame : SameSlots r.channel channel)
    (hflags : ∀ j, channel.drained j =
      if v.returned = false ∧ e = r.clears ∧ j = h then false else r.channel.drained j) :
    ({ r with channel := channel, visits := r.visits ++ [v] } : ChannelRun T).Inv busy := by
  subst he hh
  -- at the operation of the visit, a call that returns is counted and one that throws is not
  have hsum (e j : ℕ) :
      (({ r with channel := channel, visits := r.visits ++ [v] } :
          ChannelRun T).returnedCount e j + busy.count (e, j)) +
        (if v.returned = false ∧ v.epoch = e ∧ v.handle = j then 1 else 0) =
      r.returnedCount e j + ((v.epoch, v.handle) :: busy).count (e, j) := by
    have happend := returnedCount_append r v e j
    rw [List.count_cons]
    have hbeq : ((v.epoch, v.handle) == (e, j)) = (v.epoch = e && v.handle = j) := by
      rw [Bool.eq_iff_iff]
      simp
    rw [hbeq]
    unfold returnedCount at happend ⊢
    rw [happend]
    cases v.returned <;> by_cases h1 : v.epoch = e <;> by_cases h2 : v.handle = j <;>
      simp [h1, h2] <;> omega
  refine
    { generation := hgen.trans hr.generation
      drain_lt := fun w hw => ?_
      ordered := ?_
      once := fun e j => ?_
      flags := fun j => ?_
      epochs := hr.epochs
      busy_epochs := fun p hp => hr.busy_epochs p (List.mem_cons_of_mem _ hp)
      holds := hr.holds.congr hsame
      visit_settled := fun w hw => ?_
      value_iff := hr.value_iff }
  · rcases List.mem_append.1 hw with hw | hw
    · exact hr.drain_lt w hw
    · rw [List.mem_singleton.1 hw]
      exact hdrain
  · refine List.pairwise_append.2 ⟨hr.ordered, List.pairwise_singleton _ _, fun w hw u hu => ?_⟩
    rw [List.mem_singleton.1 hu]
    exact hlast w hw
  · have := hsum e j
    have := hr.once e j
    omega
  · show channel.drained j = true ↔ 0 < ({ r with channel := channel, visits := r.visits ++ [v] } :
      ChannelRun T).returnedCount r.clears j + busy.count (r.clears, j)
    have hs := hsum r.clears j
    have honce := hr.once r.clears j
    rw [hflags]
    by_cases hc : v.returned = false ∧ v.epoch = r.clears ∧ j = v.handle
    · rw [if_pos hc]
      rw [if_pos ⟨hc.1, hc.2.1, hc.2.2.symm⟩] at hs
      refine iff_of_false (by simp) ?_
      omega
    · rw [if_neg hc, hr.flags j]
      rw [if_neg fun h => hc ⟨h.1, h.2.1, h.2.2.symm⟩] at hs
      omega
  · rcases List.mem_append.1 hw with hw | hw
    · exact hr.visit_settled w hw
    · rw [List.mem_singleton.1 hw]
      exact hsettled

/-- A clear. -/
theorem Inv.clear (hr : r.Inv busy) : r.clear.Inv busy := by
  have hempty (h : ℕ) : r.clear.channel.slots[h]? = none := by
    simp [ChannelRun.clear, ResultChannel.clear]
  refine
    { generation := ?_
      drain_lt := hr.drain_lt
      ordered := hr.ordered
      once := hr.once
      flags := fun h => ?_
      epochs := fun s hs => Nat.le_succ_of_le (hr.epochs s hs)
      busy_epochs := fun p hp => Nat.le_succ_of_le (hr.busy_epochs p hp)
      holds := ?_
      visit_settled := hr.visit_settled
      value_iff := hr.value_iff }
  · show (r.channel.generation + 1) % 2 ^ 64 = (r.clears + 1) % 2 ^ 64
    rw [hr.generation, Nat.mod_add_mod]
  · have hcount : r.clear.returnedCount r.clear.clears h = 0 := by
      refine List.countP_eq_zero.2 fun v hv hc => ?_
      have hle := hr.visit_epochs hv
      have heq : v.epoch = r.clears + 1 := by
        simp only [Bool.and_eq_true, decide_eq_true_eq] at hc
        exact hc.1.2
      omega
    have hbusy : busy.count (r.clear.clears, h) = 0 := by
      refine List.count_eq_zero.2 fun hmem => ?_
      have hle : r.clears + 1 ≤ r.clears := hr.busy_epochs _ hmem
      omega
    rw [hcount, hbusy]
    unfold drained
    rw [hempty]
    simp
  · refine ⟨fun s hs he => ?_, fun h slot hslot => ?_, fun h slot hslot => ?_⟩
    · have hle := hr.epochs s hs
      have hlt : s.epoch = r.clears + 1 := he
      omega
    · rw [hempty] at hslot
      cases hslot
    · rw [hempty] at hslot
      cases hslot

theorem Later.clear (n : ℕ) (r : ChannelRun T) : Later n r r.clear :=
  ⟨le_rfl, rfl, ⟨[], by simp [ChannelRun.clear], by simp⟩, .inr ⟨Nat.lt_succ_self _, rfl⟩⟩

/-! ### A drain -/

/-- A visit that was not there before. -/
def NewVisit (r r' : ChannelRun T) (v : ChannelVisit T) : Prop :=
  ∃ new, r'.visits = r.visits ++ new ∧ v ∈ new

theorem NewVisit.of_later {v : ChannelVisit T} (hv : NewVisit r r' v) (h : Later n r' r'') :
    NewVisit r r'' v := by
  obtain ⟨new, hnew, hmem⟩ := hv
  obtain ⟨new', hnew', -⟩ := h.visits
  exact ⟨new ++ new', by rw [hnew', hnew, List.append_assoc], List.mem_append_left _ hmem⟩

theorem NewVisit.after_later {v : ChannelVisit T} (h : Later n r r') (hv : NewVisit r' r'' v) :
    NewVisit r r'' v := by
  obtain ⟨new, hnew, -⟩ := h.visits
  obtain ⟨new', hnew', hmem⟩ := hv
  exact ⟨new ++ new', by rw [hnew', hnew, List.append_assoc], List.mem_append_right _ hmem⟩

/-- A flag that was set since tells of a visit. -/
theorem Inv.exists_newVisit (hr : r.Inv busy) (hr' : r'.Inv busy) (hlater : Later n r r')
    (hc : r'.clears = r.clears) (hd : r.channel.drained h = false)
    (hd' : r'.channel.drained h = true) :
    ∃ v, NewVisit r r' v ∧ v.epoch = r.clears ∧ v.handle = h := by
  obtain ⟨new, hnew, -⟩ := hlater.visits
  have hbefore := (hr.flags h).not.1 (by simp [hd])
  have hafter := (hr'.flags h).1 hd'
  rw [hc] at hafter
  have hcount : r'.returnedCount r.clears h = r.returnedCount r.clears h +
      new.countP fun v => v.returned && v.epoch = r.clears && v.handle = h := by
    unfold returnedCount
    rw [hnew, List.countP_append]
  have hpos : 0 < new.countP fun v => v.returned && v.epoch = r.clears && v.handle = h := by
    omega
  obtain ⟨v, hv, hp⟩ := List.countP_pos_iff.1 hpos
  simp only [Bool.and_eq_true, decide_eq_true_eq] at hp
  exact ⟨v, ⟨new, hnew, hv⟩, hp.1.2, hp.2⟩

/-- What a visitor does keeps the invariant. -/
def Keeps (visit : ℕ → OpCompletion → Option T → ChannelRun T → ChannelRun T × Bool) : Prop :=
  ∀ (busy : List (ℕ × ℕ)) (r : ChannelRun T) (h : ℕ) (completion : OpCompletion)
    (value : Option T), r.Inv busy →
      (visit h completion value r).1.Inv busy ∧ Later r.drains r (visit h completion value r).1

/-- **What a drain reaches**: an operation that waits is visited, unless the channel is cleared or
a visitor throws at an operation before it. -/
def Reaches (drain h : ℕ) (r : ChannelRun T) (result : ChannelRun T × Option ℕ) : Prop :=
  r.clears < result.1.clears ∨
    (∃ v, NewVisit r result.1 v ∧ v.epoch = r.clears ∧ v.handle = h) ∨
    result.2 = none ∧ ∃ v, NewVisit r result.1 v ∧ v.drain = drain ∧ v.epoch = r.clears ∧
      v.handle < h ∧ v.returned = false

/-- **What a drain leaves behind** from a handle on. -/
structure Drained (busy : List (ℕ × ℕ)) (drain index : ℕ) (r : ChannelRun T)
    (result : ChannelRun T × Option ℕ) : Prop where
  /-- The invariant. -/
  inv : result.1.Inv busy
  /-- What may change. -/
  later : Later drain r result.1
  /-- A drain that ends without a clear passes no settled slot. -/
  passed : result.2.isSome → result.1.clears = r.clears → ∀ (h : ℕ) (slot : ResultSlot T),
    index ≤ h → result.1.channel.slots[h]? = some slot → slot.Settled → slot.drained = true
  /-- What waits is reached. -/
  reaches : ∀ (h : ℕ) (slot : ResultSlot T), index ≤ h → r.channel.slots[h]? = some slot →
    slot.Settled → slot.drained = false → Reaches drain h r result

section Loop

variable {visit : ℕ → OpCompletion → Option T → ChannelRun T → ChannelRun T × Bool}
  {drain generation fuel visited : ℕ}

/-- A loop that has no slots ahead. -/
theorem Drained.stop (hr : r.Inv busy)
    (hnone : ∀ h, index ≤ h → r.channel.slots[h]? = none) (visited : ℕ) :
    Drained busy drain index r (r, some visited) := by
  refine ⟨hr, .refl _ _, fun _ _ h slot hi hslot _ => ?_, fun h slot hi hslot _ _ => ?_⟩
  · rw [hnone h hi] at hslot
    cases hslot
  · rw [hnone h hi] at hslot
    cases hslot

theorem Settled_congr {slot slot' : ResultSlot T} (h : slot'.state = slot.state) :
    slot'.Settled ↔ slot.Settled := by
  unfold ResultSlot.Settled
  rw [h]

/-- A slot that a drain skips. -/
theorem Drained.skip {slot : ResultSlot T} {result : ChannelRun T × Option ℕ}
    (hd : Drained busy drain (index + 1) r result) (hslot : r.channel.slots[index]? = some slot)
    (hskip : slot.drained = true ∨ ¬ slot.Settled) : Drained busy drain index r result := by
  refine ⟨hd.inv, hd.later, fun hend hc h s hi hs hsettled => ?_, fun h s hi hs hsettled hw => ?_⟩
  · rcases Nat.eq_or_lt_of_le hi with rfl | hi
    · obtain ⟨hsame, hflags⟩ := hd.later.channel_slots hc
      obtain ⟨s', hs', hstate, -⟩ := hsame.symm.get hs
      obtain rfl : s' = slot := Option.some.inj (hs'.symm.trans hslot)
      rcases hskip with hdrained | hnot
      · rw [← drained_of_slot hs]
        exact hflags _ ((drained_of_slot hslot).trans hdrained)
      · exact absurd ((Settled_congr hstate).2 hsettled) hnot
    · exact hd.passed hend hc h s hi hs hsettled
  · rcases Nat.eq_or_lt_of_le hi with rfl | hi
    · obtain rfl : s = slot := Option.some.inj (hs.symm.trans hslot)
      rcases hskip with hdrained | hnot
      · simp [hw] at hdrained
      · exact absurd hsettled hnot
    · exact hd.reaches h s hi hs hsettled hw

theorem Later.setDrained (n : ℕ) (r : ChannelRun T) (h : ℕ) :
    Later n r (r.setDrained h true) := by
  refine ⟨le_rfl, rfl, ⟨[], by simp [ChannelRun.setDrained], by simp⟩,
    .inl ⟨rfl, sameSlots_setDrained r h true, fun j hj => ?_⟩⟩
  rw [drained_setDrained]
  split
  · unfold drained at hj
    cases hslot : r.channel.slots[j]? with
    | none => simp [hslot] at hj
    | some slot => rfl
  · exact hj

theorem Later.append (r : ChannelRun T) {v : ChannelVisit T} (hv : n ≤ v.drain) :
    Later n r { r with visits := r.visits ++ [v] } :=
  ⟨le_rfl, rfl, ⟨[v], rfl, by simpa using hv⟩, .inl ⟨rfl, .refl _, fun _ => id⟩⟩

/-- What the visit of a settled slot gets was settled. -/
theorem Inv.settled_at (hr : r.Inv busy) {slot : ResultSlot T}
    (hslot : r.channel.slots[h]? = some slot) (hset : slot.Settled) :
    ∃ s ∈ r.settled, s.epoch = r.clears ∧ s.handle = h ∧ s.completion = slot.completion ∧
      s.value = if slot.state = .ready then some slot.value else none := by
  obtain ⟨s, hs, he, rfl⟩ := hr.holds.settled_of_slot h slot hslot hset
  obtain ⟨slot', hslot', hholds⟩ := hr.holds.slot_of_settled s hs he
  obtain rfl : slot' = slot := Option.some.inj (hslot'.symm.trans hslot)
  exact ⟨s, hs, he, rfl, hholds.completion.symm, hholds.value.symm⟩

section Visit

variable {slot : ResultSlot T} {threw : Bool}

/-- The visit of a slot by a drain. -/
def slotVisit (drain : ℕ) (r : ChannelRun T) (index : ℕ) (slot : ResultSlot T) (threw : Bool) :
    ChannelVisit T :=
  ⟨drain, r.clears, index, slot.completion,
    if slot.state = .ready then some slot.value else none, !threw⟩

/-- No visit of the drain is at the slot yet, or after it. -/
theorem Later.visit_lt (hlater : Later r.drains (r.setDrained index true) r')
    (hdrain : drain < r.drains) (hvisits : ∀ v ∈ r.visits, v.drain = drain → v.handle < index) :
    ∀ w ∈ r'.visits, w.drain = drain → w.handle < index := by
  intro w hw hwd
  obtain ⟨new, hnew, hn⟩ := hlater.visits
  rw [hnew] at hw
  rcases List.mem_append.1 hw with hw | hw
  · exact hvisits w hw hwd
  · have := hn w hw
    omega

/-- **The visitor returns.** -/
theorem Inv.visit_returns (hr : r.Inv busy) (hslot : r.channel.slots[index]? = some slot)
    (hset : slot.Settled) (hinv : r'.Inv ((r.clears, index) :: busy))
    (hlater : Later r.drains (r.setDrained index true) r') (hdrain : drain < r.drains)
    (hvisits : ∀ v ∈ r.visits, v.drain = drain → v.handle < index) :
    ({ r' with visits := r'.visits ++ [slotVisit drain r index slot false] } :
      ChannelRun T).Inv busy := by
  refine hinv.ret rfl rfl (hdrain.trans_le hlater.drains) (hlater.visit_lt hdrain hvisits) ?_ rfl
    (.refl _) fun j => by simp [slotVisit]
  rw [hlater.settled]
  exact hr.settled_at hslot hset

/-- **The visitor throws.** -/
theorem Drained.visit_throws (hr : r.Inv busy) (hslot : r.channel.slots[index]? = some slot)
    (hset : slot.Settled) (hd : slot.drained = false)
    (hinv : r'.Inv ((r.clears, index) :: busy))
    (hlater : Later r.drains (r.setDrained index true) r') (hdrain : drain < r.drains)
    (hvisits : ∀ v ∈ r.visits, v.drain = drain → v.handle < index)
    (hgen : r.channel.generation = generation) :
    let after : ChannelRun T :=
      { r' with visits := r'.visits ++ [slotVisit drain r index slot true] }
    Drained busy drain index r
      (if after.channel.generation = generation ∧ index < after.channel.slots.length then
        (after.setDrained index false, none)
      else (after, none)) := by
  intro after
  have hsettled : ∃ s ∈ r'.settled, s.epoch = r.clears ∧ s.handle = index ∧
      s.completion = slot.completion ∧
      s.value = if slot.state = .ready then some slot.value else none := by
    rw [hlater.settled]
    exact hr.settled_at hslot hset
  have hlast := hlater.visit_lt hdrain hvisits
  have hdrains := hdrain.trans_le hlater.drains
  -- the visit is new, and is before all that the drain does not reach
  have hreach (last : ChannelRun T) (hl : last.visits = after.visits)
      (hlr : Later drain r last) (h : ℕ) (hi : index ≤ h) : Reaches drain h r (last, none) := by
    have hnew : NewVisit r last (slotVisit drain r index slot true) := by
      obtain ⟨new, hnew, -⟩ := hlater.visits
      refine ⟨new ++ [slotVisit drain r index slot true], ?_, by simp⟩
      rw [hl, ← List.append_assoc]
      exact congrArg (· ++ _) hnew
    rcases Nat.eq_or_lt_of_le hi with rfl | hi
    · exact .inr (.inl ⟨_, hnew, rfl, rfl⟩)
    · exact .inr (.inr ⟨rfl, _, hnew, rfl, rfl, hi, rfl⟩)
  have hafter : Later drain r after :=
    ((Later.setDrained drain r index).trans (hlater.mono hdrain.le)).trans (.append r' le_rfl)
  rcases hlater.slots with ⟨hc, hsame, hflags⟩ | ⟨hlt, hnil⟩
  · -- the slots are there still
    have hsame' : SameSlots r.channel r'.channel := (sameSlots_setDrained r index true).trans hsame
    obtain ⟨slot', hslot', -⟩ := hsame'.get hslot
    have hgen' : r'.channel.generation = generation := by
      rw [← hgen, hinv.generation, hr.generation, hc]
      rfl
    rw [if_pos ⟨hgen', (List.getElem?_eq_some_iff.1 hslot').1⟩]
    have hlater' : Later drain r (after.setDrained index false) := by
      refine ⟨hafter.drains, hafter.settled, hafter.visits,
        .inl ⟨hc, hsame'.trans (sameSlots_setDrained after index false), fun j hj => ?_⟩⟩
      rw [drained_setDrained]
      by_cases hji : j = index
      · subst hji
        rw [drained_of_slot hslot, hd] at hj
        cases hj
      · rw [if_neg hji]
        refine hflags j ?_
        rw [drained_setDrained, if_neg hji]
        exact hj
    refine ⟨?_, hlater', fun h => by simp at h,
      fun h s hi _ _ _ => hreach (after.setDrained index false) rfl hlater' h hi⟩
    refine hinv.ret (v := slotVisit drain r index slot true) rfl rfl hdrains hlast hsettled rfl
      (sameSlots_setDrained r' index false) fun j => ?_
    have hat : (slotVisit drain r index slot true).returned = false ∧ r.clears = r'.clears :=
      ⟨rfl, hc.symm⟩
    show (r'.setDrained index false).channel.drained j = _
    rw [drained_setDrained]
    by_cases hji : j = index
    · rw [if_pos hji, if_pos ⟨hat.1, hat.2, hji⟩, Bool.and_false]
    · rw [if_neg hji, if_neg fun h => hji h.2.2]
  · -- the slots are gone
    have hnot : ¬ (after.channel.generation = generation ∧ index < after.channel.slots.length) := by
      rintro ⟨-, hlen⟩
      have : r'.channel.slots.length = 0 := by rw [hnil]; rfl
      have : index < r'.channel.slots.length := hlen
      omega
    rw [if_neg hnot]
    refine ⟨?_, hafter, fun h => by simp at h, fun h s hi _ _ _ => hreach _ rfl hafter h hi⟩
    refine hinv.ret (v := slotVisit drain r index slot true) rfl rfl hdrains hlast hsettled rfl
      (.refl _) fun j => ?_
    have hne : ¬ r.clears = r'.clears := Nat.ne_of_lt hlt
    rw [if_neg fun h => hne h.2.1]

/-- **After a visitor returned**, the drain goes on. -/
theorem Drained.visit_returns {after : ChannelRun T} {result : ChannelRun T × Option ℕ}
    (hd : Drained busy drain (index + 1) after result) (hr : r.Inv busy)
    (hinv : after.Inv busy) (hlater : Later drain r after)
    (hflag : after.clears = r.clears → after.channel.drained index = true)
    (hnew : NewVisit r after (slotVisit drain r index slot false)) :
    Drained busy drain index r result := by
  have hc := hd.later.clears_le
  refine ⟨hd.inv, hlater.trans hd.later, fun hend heq h s hi hs hsettled => ?_,
    fun h s hi hs hsettled hw => ?_⟩
  · have hsub := hlater.clears_le
    have heq' : result.1.clears = after.clears := by omega
    rcases Nat.eq_or_lt_of_le hi with rfl | hi
    · rw [← drained_of_slot hs]
      exact (hd.later.channel_slots heq').2 _ (hflag (by omega))
    · exact hd.passed hend heq' h s hi hs hsettled
  · rcases Nat.eq_or_lt_of_le hi with rfl | hi
    · exact .inr (.inl ⟨_, hnew.of_later hd.later, rfl, rfl⟩)
    rcases Nat.eq_or_lt_of_le hlater.clears_le with hsame | hlt
    · obtain ⟨hslots, -⟩ := hlater.channel_slots hsame.symm
      obtain ⟨s', hs', hstate, -⟩ := hslots.get hs
      by_cases hflag' : s'.drained = true
      · -- a drain by the visitor got there first
        obtain ⟨v, hv, he, hh⟩ := hr.exists_newVisit hinv hlater hsame.symm
          ((drained_of_slot hs).trans hw) ((drained_of_slot hs').trans hflag')
        exact .inr (.inl ⟨v, hv.of_later hd.later, he, hh⟩)
      · have hreach := hd.reaches h s' hi hs' ((Settled_congr hstate).2 hsettled) (by simpa using hflag')
        rcases hreach with hlt | ⟨v, hv, he, hh⟩ | ⟨hnone, v, hv, hvd, he, hh, hret⟩
        · exact .inl (hsame ▸ hlt)
        · exact .inr (.inl ⟨v, hv.after_later hlater, hsame ▸ he, hh⟩)
        · exact .inr (.inr ⟨hnone, v, hv.after_later hlater, hvd, hsame ▸ he, hh, hret⟩)
    · exact .inl (hlt.trans_le hc)

end Visit

/-- **The loop of a drain.** -/
theorem drainSlots_spec (hvisit : Keeps visit) (hr : r.Inv busy) (hdrain : drain < r.drains)
    (hvisits : ∀ v ∈ r.visits, v.drain = drain → v.handle < index)
    (hgen : r.channel.generation = generation ∨ r.channel.slots = [])
    (hfuel : r.channel.slots.length ≤ index + fuel) :
    Drained busy drain index r (drainSlots visit drain generation fuel visited index r) := by
  induction fuel generalizing visited index r with
  | zero =>
    refine .stop hr (fun h hi => List.getElem?_eq_none (by omega)) visited
  | succ fuel ih =>
    rw [drainSlots]
    by_cases hcleared : r.channel.generation ≠ generation
    · rw [if_pos hcleared]
      refine .stop hr (fun h _ => ?_) visited
      simp [hgen.resolve_left hcleared]
    rw [if_neg hcleared]
    cases hslot : r.channel.slots[index]? with
    | none =>
      have hlen := List.getElem?_eq_none_iff.1 hslot
      exact .stop hr (fun h hi => List.getElem?_eq_none (by omega)) visited
    | some slot =>
      dsimp only
      by_cases hskip : slot.drained = true ∨ ¬ slot.Settled
      · rw [if_pos hskip]
        refine .skip (ih hr hdrain (fun v hv hd => ?_) hgen (by omega)) hslot hskip
        exact Nat.lt_succ_of_lt (hvisits v hv hd)
      rw [if_neg hskip]
      push Not at hskip hcleared
      have hd : slot.drained = false := by simpa using hskip.1
      have hset : slot.Settled := hskip.2
      obtain ⟨hinv, hlater⟩ := hvisit _ _ index slot.completion
        (if slot.state = .ready then some slot.value else none) (hr.call hslot hd)
      generalize visit index slot.completion _ (r.setDrained index true) = result at *
      cases hthrew : result.2 with
      | true =>
        simp only [if_true, Bool.not_true]
        exact .visit_throws hr hslot hset hd hinv hlater hdrain hvisits hcleared
      | false =>
        simp only [Bool.false_eq_true, if_false, Bool.not_false]
        set after : ChannelRun T := { result.1 with
          visits := result.1.visits ++ [slotVisit drain r index slot false] } with hafter
        have hlater' : Later drain r after :=
          ((Later.setDrained drain r index).trans (hlater.mono hdrain.le)).trans
            (.append result.1 le_rfl)
        have hinv' : after.Inv busy := hr.visit_returns hslot hset hinv hlater hdrain hvisits
        suffices hrec : Drained busy drain (index + 1) after
            (drainSlots visit drain generation fuel (visited + 1) (index + 1) after) by
          have hnew : NewVisit r after (slotVisit drain r index slot false) := by
            obtain ⟨new, hnew, -⟩ := hlater.visits
            refine ⟨new ++ [slotVisit drain r index slot false], ?_, by simp⟩
            rw [hafter, ← List.append_assoc]
            exact congrArg (· ++ _) hnew
          refine Drained.visit_returns hrec hr hinv' hlater' (fun hc => ?_) hnew
          refine (hlater.channel_slots hc).2 index ?_
          rw [drained_setDrained, if_pos rfl, hslot]
          rfl
        refine ih hinv' (hdrain.trans_le hlater.drains) (fun w hw hwd => ?_) ?_ ?_
        · rcases List.mem_append.1 hw with hw | hw
          · exact Nat.lt_succ_of_lt (hlater.visit_lt hdrain hvisits w hw hwd)
          · rw [List.mem_singleton.1 hw]
            exact Nat.lt_succ_self _
        · rcases hlater.slots with ⟨hc, -⟩ | ⟨-, hnil⟩
          · left
            show result.1.channel.generation = generation
            rw [← hcleared, hinv.generation, hr.generation, hc]
            rfl
          · exact .inr hnil
        · show result.1.channel.slots.length ≤ _
          rcases hlater.slots with ⟨hc, hsame, -⟩ | ⟨-, hnil⟩
          · have hlen := ((sameSlots_setDrained r index true).trans hsame).length_eq
            omega
          · rw [hnil]
            exact Nat.zero_le _

end Loop

/-- **A drain** keeps the invariant and reaches what waits. -/
theorem drainResults_spec
    {visit : ℕ → OpCompletion → Option T → ChannelRun T → ChannelRun T × Bool}
    (hvisit : Keeps visit) (hr : r.Inv busy) :
    Drained busy r.drains 0 r (r.drainResults visit) := by
  have hr' : ({ r with drains := r.drains + 1 } : ChannelRun T).Inv busy :=
    { hr with drain_lt := fun v hv => Nat.lt_succ_of_lt (hr.drain_lt v hv) }
  have hspec : Drained busy r.drains 0 { r with drains := r.drains + 1 } (r.drainResults visit) := by
    refine drainSlots_spec hvisit hr' (Nat.lt_succ_self _) (fun v hv hd => ?_) (.inl rfl) ?_
    · exact absurd hd (Nat.ne_of_lt (hr.drain_lt v hv))
    · exact Nat.le_add_left _ _
  have hstart : Later r.drains r { r with drains := r.drains + 1 } :=
    ⟨Nat.le_succ _, rfl, ⟨[], by simp, by simp⟩, .inl ⟨rfl, .refl _, fun _ => id⟩⟩
  exact ⟨hspec.inv, hstart.trans hspec.later, hspec.passed, hspec.reaches⟩

/-- **What a visitor does** keeps the invariant. -/
theorem visitorBody_run_spec (body : VisitorBody T) : ∀ (busy : List (ℕ × ℕ))
    (r : ChannelRun T), r.Inv busy →
      (body.run r).1.Inv busy ∧ Later r.drains r (body.run r).1 := by
  induction body with
  | returns => exact fun busy r hr => ⟨hr, .refl _ _⟩
  | throws => exact fun busy r hr => ⟨hr, .refl _ _⟩
  | clear rest ih =>
    intro busy r hr
    obtain ⟨hinv, hlater⟩ := ih busy r.clear hr.clear
    exact ⟨hinv, (Later.clear _ r).trans hlater⟩
  | drain visitor rest ihv ihr =>
    intro busy r hr
    rw [VisitorBody.run]
    have hspec := drainResults_spec (fun busy r h completion value hr =>
      ihv h completion value busy r hr) hr
    obtain ⟨hinv, hlater⟩ := ihr _ busy _ hspec.inv
    exact ⟨hinv, hspec.later.trans (hlater.mono hspec.later.drains)⟩

/-- **A drain with a visitor.** -/
theorem drain_spec (visitor : Visitor T) (hr : r.Inv busy) :
    Drained busy r.drains 0 r (r.drain visitor) :=
  drainResults_spec (fun busy r h completion value hr =>
    visitorBody_run_spec (visitor h completion value) busy r hr) hr

end ChannelRun

end Tess
