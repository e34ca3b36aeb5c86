import Mathlib.Data.Fintype.EquivFin
import Mathlib.Data.Finset.Max
import Mathlib.Order.WellFounded

/-!
# Serial choice

Agents are served one after the other; each takes the best of its offers whose object still has
capacity, and goes without only when it has no such offer.

* `Market.Served` : an assignment that comes about so;
* `Market.Served.unique` : **there is at most one**, so that neither the order in which agents are
  listed nor the order of their offers matters (`Market.Served.congr`);
* `Market.Served.card_takers_le` : no object is taken beyond its capacity;
* `Market.ServedOn.snoc` : serving one more agent, and `Market.Strict.exists_foldl` : **serving
  everyone in order**.
-/

namespace SerialChoice

open Finset

variable {A B C O : Type*}

/-- Who is served before whom, and what each may take. -/
structure Market (A C O : Type*) where
  /-- The first agent is served before the second. -/
  before : A → A → Prop
  /-- The agent is offered the choice. -/
  offers : A → C → Prop
  /-- What is taken with a choice. -/
  object : C → O
  /-- The first choice is preferred to the second. -/
  better : C → C → Prop
  /-- How often an object may be taken. -/
  capacity : O → ℕ

namespace Market

section Definitions

variable (M : Market A C O) (f : A → Option C)

/-- The agent takes the object. -/
def Takes (b : A) (o : O) : Prop := ∃ c, f b = some c ∧ M.object c = o

open Classical in
/-- The agents served before that take the object. -/
noncomputable def earlier [Fintype A] (a : A) (o : O) : Finset A :=
  univ.filter fun b => M.before b a ∧ M.Takes f b o

open Classical in
/-- The agents that take the object. -/
noncomputable def takers [Fintype A] (o : O) : Finset A := univ.filter fun b => M.Takes f b o

/-- The choice is offered and its object is still to be had. -/
def Open [Fintype A] (a : A) (c : C) : Prop :=
  M.offers a c ∧ (M.earlier f a (M.object c)).card < M.capacity (M.object c)

/-- The agent has the best of its open choices, or nothing when none is open. -/
def ServedAt [Fintype A] (a : A) : Prop :=
  (∀ c, f a = some c → M.Open f a c ∧ ∀ d, M.Open f a d → ¬ M.better d c) ∧
    (f a = none → ∀ c, ¬ M.Open f a c)

/-- **The assignment of serial choice.** -/
def Served [Fintype A] : Prop := ∀ a, M.ServedAt f a

/-- The agents of a set are served. -/
def ServedOn [Fintype A] (done : A → Prop) : Prop := ∀ a, done a → M.ServedAt f a

/-- Agents are served in a strict order, and no two choices are equally good. -/
structure Strict : Prop where
  /-- No agent is served before itself. -/
  irrefl : ∀ a, ¬ M.before a a
  /-- The order of service is transitive. -/
  trans : ∀ a b c, M.before a b → M.before b c → M.before a c
  /-- Of two agents one is served first. -/
  total : ∀ a b, a ≠ b → M.before a b ∨ M.before b a
  /-- Of two choices one is better. -/
  better_total : ∀ c d, c ≠ d → M.better c d ∨ M.better d c

/-- The best of some choices, or nothing when there is none. -/
def IsBestOf (better : C → C → Prop) (P : C → Prop) : Option C → Prop
  | none => ∀ c, ¬ P c
  | some c => P c ∧ ∀ d, P d → ¬ better d c

end Definitions

variable [Fintype A] {M : Market A C O} {f g : A → Option C} {a b : A} {c : C} {o : O}

@[simp] theorem mem_earlier : b ∈ M.earlier f a o ↔ M.before b a ∧ M.Takes f b o := by
  classical simp [earlier]

@[simp] theorem mem_takers : b ∈ M.takers f o ↔ M.Takes f b o := by
  classical simp [takers]

omit [Fintype A] in
theorem takes_congr (h : f b = g b) : M.Takes f b o ↔ M.Takes g b o := by
  simp only [Takes, h]

section Update

variable [DecidableEq A] (ha : f a = none)

include ha

omit [Fintype A] in
/-- One more agent takes something. -/
theorem takes_update : M.Takes (Function.update f a (some c)) b o ↔
    b = a ∧ M.object c = o ∨ M.Takes f b o := by
  simp only [Takes, Function.update_apply]
  split_ifs with hba
  · subst hba
    simp [ha]
  · simp [hba]

theorem card_takers_update [DecidableEq O] :
    (M.takers (Function.update f a (some c)) o).card =
      (M.takers f o).card + if M.object c = o then 1 else 0 := by
  have hnot : a ∉ M.takers f o := by simp [mem_takers, Takes, ha]
  split_ifs with ho
  · rw [← card_insert_of_notMem hnot]
    congr 1
    ext b
    rw [mem_takers, takes_update ha, mem_insert, mem_takers, and_iff_left ho]
  · congr 1
    ext b
    rw [mem_takers, takes_update ha, mem_takers]
    simp [ho]

omit M in
/-- One more agent has something. -/
theorem card_isSome_update :
    (univ.filter fun b => (Function.update f a (some c) b).isSome = true).card =
      (univ.filter fun b => (f b).isSome = true).card + 1 := by
  rw [← card_insert_of_notMem (a := a) (by simp [ha])]
  congr 1
  ext b
  simp only [mem_filter, mem_univ, true_and, mem_insert, Function.update_apply]
  split_ifs with hba
  · simp [hba]
  · simp [hba]

end Update

/-- Open choices depend on the earlier agents only. -/
theorem earlier_congr (h : ∀ b, M.before b a → f b = g b) : M.earlier f a o = M.earlier g a o := by
  ext b
  simp only [mem_earlier]
  exact and_congr_right fun hb => takes_congr (h b hb)

theorem open_congr (h : ∀ b, M.before b a → f b = g b) : M.Open f a c ↔ M.Open g a c := by
  rw [Open, Open, earlier_congr h]

theorem servedAt_congr (h : ∀ b, M.before b a → f b = g b) (ha : f a = g a) :
    M.ServedAt f a ↔ M.ServedAt g a := by
  simp only [ServedAt, ha, open_congr h]

theorem Strict.wellFounded (hM : M.Strict) : WellFounded M.before := by
  have : IsTrans A M.before := ⟨hM.trans⟩
  have : Std.Irrefl M.before := ⟨hM.irrefl⟩
  exact Finite.wellFounded_of_trans_of_irrefl M.before

/-- **Serial choice has one outcome.** -/
theorem Served.unique (hM : M.Strict) (hf : M.Served f) (hg : M.Served g) : f = g := by
  funext a
  induction a using hM.wellFounded.induction with
  | h a ih =>
    have hopen : ∀ c, M.Open f a c ↔ M.Open g a c := fun c => open_congr ih
    cases hfa : f a with
    | none =>
      cases hga : g a with
      | none => rfl
      | some d => exact absurd ((hopen d).2 ((hg a).1 d hga).1) ((hf a).2 hfa d)
    | some c =>
      obtain ⟨hc, hcbest⟩ := (hf a).1 c hfa
      cases hga : g a with
      | none => exact absurd ((hopen c).1 hc) ((hg a).2 hga c)
      | some d =>
        obtain ⟨hd, hdbest⟩ := (hg a).1 d hga
        by_contra hne
        rcases hM.better_total c d fun heq => hne (heq ▸ rfl) with hlt | hlt
        · exact hdbest c ((hopen c).1 hc) hlt
        · exact hcbest d ((hopen d).2 hd) hlt

/-- **Capacities are kept.** -/
theorem Served.card_takers_le (hM : M.Strict) (hf : M.Served f) (o : O) :
    (M.takers f o).card ≤ M.capacity o := by
  classical
  by_cases hne : (M.takers f o).Nonempty
  · -- the last agent that takes the object found capacity left
    obtain ⟨a, ha, hlast⟩ : ∃ a ∈ M.takers f o, ∀ b ∈ M.takers f o, ¬ M.before a b := by
      have : IsTrans A (fun x y => M.before y x) := ⟨fun a b c hab hbc => hM.trans _ _ _ hbc hab⟩
      have : Std.Irrefl (fun x y => M.before y x) := ⟨fun a => hM.irrefl a⟩
      have hwf := Finite.wellFounded_of_trans_of_irrefl (fun x y => M.before y x)
      obtain ⟨a, ha, hmin⟩ := hwf.has_min (M.takers f o : Set A) hne
      exact ⟨a, ha, fun b hb => hmin b hb⟩
    obtain ⟨c, hc, rfl⟩ := mem_takers.1 ha
    have hsub : M.takers f (M.object c) ⊆ insert a (M.earlier f a (M.object c)) := by
      intro b hb
      by_cases hba : b = a
      · exact Finset.mem_insert.2 (.inl hba)
      · refine Finset.mem_insert.2 (.inr (mem_earlier.2 ⟨?_, mem_takers.1 hb⟩))
        exact (hM.total b a hba).resolve_right (hlast b hb)
    have hcard := ((hf a).1 c hc).1.2
    calc (M.takers f (M.object c)).card
        ≤ (insert a (M.earlier f a (M.object c))).card := card_le_card hsub
      _ ≤ (M.earlier f a (M.object c)).card + 1 := card_insert_le _ _
      _ ≤ M.capacity (M.object c) := hcard
  · rw [not_nonempty_iff_eq_empty.1 hne]
    exact Nat.zero_le _

/-- Who goes without finds every offer taken up by those before. -/
theorem Served.full_of_none (hf : M.Served f) (ha : f a = none) (hc : M.offers a c) :
    M.capacity (M.object c) ≤ (M.earlier f a (M.object c)).card :=
  not_lt.1 fun hlt => (hf a).2 ha c ⟨hc, hlt⟩

omit [Fintype A] in
theorem IsBestOf.congr {better : C → C → Prop} {P Q : C → Prop} {best : Option C}
    (h : IsBestOf better P best) (hPQ : ∀ c, Q c ↔ P c) : IsBestOf better Q best := by
  cases best with
  | none => exact fun c hc => h c ((hPQ c).1 hc)
  | some b => exact ⟨(hPQ b).2 h.1, fun c hc => h.2 c ((hPQ c).1 hc)⟩

omit [Fintype A] in
/-- One more choice, which is better than the best so far. -/
theorem IsBestOf.replace {better : C → C → Prop} {P Q : C → Prop} {best : Option C}
    (hirrefl : ∀ c, ¬ better c c) (htrans : ∀ a b c, better a b → better b c → better a c)
    (h : IsBestOf better P best) (hPQ : ∀ a, Q a ↔ P a ∨ a = c)
    (hc : ∀ b, best = some b → better c b) : IsBestOf better Q (some c) := by
  refine ⟨(hPQ c).2 (.inr rfl), fun a ha => ?_⟩
  rcases (hPQ a).1 ha with ha | rfl
  · cases best with
    | none => exact absurd ha (h a)
    | some b => exact fun hac => h.2 a ha (htrans _ _ _ hac (hc b rfl))
  · exact hirrefl a

omit [Fintype A] in
/-- One more choice, which is not better than the best so far. -/
theorem IsBestOf.keep {better : C → C → Prop} {P Q : C → Prop} {b : C}
    (h : IsBestOf better P (some b)) (hPQ : ∀ a, Q a ↔ P a ∨ a = c) (hc : ¬ better c b) :
    IsBestOf better Q (some b) := by
  refine ⟨(hPQ b).2 (.inl h.1), fun a ha => ?_⟩
  rcases (hPQ a).1 ha with ha | rfl
  · exact h.2 a ha
  · exact hc

/-- Who takes the best of what is open is served. -/
theorem ServedAt.of_isBestOf (hsame : ∀ b, M.before b a → g b = f b)
    (h : IsBestOf M.better (M.Open f a) (g a)) : M.ServedAt g a := by
  have hopen : ∀ c, M.Open g a c ↔ M.Open f a c := fun c => open_congr hsame
  constructor
  · intro c hc
    rw [hc] at h
    exact ⟨(hopen c).2 h.1, fun d hd => h.2 d ((hopen d).1 hd)⟩
  · intro hnone c hc
    rw [hnone] at h
    exact h c ((hopen c).1 hc)

/-- **Serving one more agent**, after everyone who comes before it. -/
theorem ServedOn.snoc {done : A → Prop} (hf : M.ServedOn f done) (hg : M.ServedAt g a)
    (hsame : ∀ b, b ≠ a → g b = f b) (hdone : ∀ b, done b → ∀ d, M.before d b → d ≠ a)
    (ha : ¬ done a) : M.ServedOn g fun b => done b ∨ b = a := by
  rintro b (hb | rfl)
  · have hne : b ≠ a := by
      rintro rfl
      exact ha hb
    exact (servedAt_congr (fun d hd => hsame d (hdone b hb d hd)) (hsame b hne)).2 (hf b hb)
  · exact hg

omit [Fintype A] in
/-- **Serving everyone in order.** What each service keeps, when exactly those served before have
been served, holds at the end. -/
theorem Strict.exists_foldl {σ : Type*} (hM : M.Strict) {order : List A}
    (hall : ∀ a, a ∈ order) (hsorted : order.Pairwise M.before) {step : σ → A → σ} {start : σ}
    {Inv : (A → Prop) → σ → (A → Option C) → Prop}
    (hstart : Inv (fun _ => False) start fun _ => none)
    (hstep : ∀ done s f a, Inv done s f → (∀ b, done b ↔ M.before b a) →
      ∃ g, Inv (fun b => done b ∨ b = a) (step s a) g) :
    ∃ f, Inv (fun _ => True) (order.foldl step start) f := by
  -- the induction is on the agents served so far, a prefix of the order
  have key : ∀ before after, order = before ++ after →
      ∃ f, Inv (fun a => a ∈ before) (before.foldl step start) f := by
    intro before
    induction before using List.reverseRecOn with
    | nil =>
      intro after _
      refine ⟨fun _ => none, ?_⟩
      have hnone : (fun a : A => a ∈ ([] : List A)) = fun _ => False := by
        funext a
        exact eq_false List.not_mem_nil
      rw [hnone]
      exact hstart
    | append_singleton before a ih =>
      intro after horder
      rw [List.append_assoc, List.singleton_append] at horder
      obtain ⟨f, hf⟩ := ih (a :: after) horder
      have hpair := hsorted
      rw [horder, List.pairwise_append, List.pairwise_cons] at hpair
      have hdone : ∀ b, b ∈ before ↔ M.before b a := by
        intro b
        refine ⟨fun hb => hpair.2.2 b hb a List.mem_cons_self, fun hba => ?_⟩
        have hmem := hall b
        rw [horder, List.mem_append, List.mem_cons] at hmem
        rcases hmem with hb | rfl | hb
        · exact hb
        · exact absurd hba (hM.irrefl b)
        · exact absurd (hM.trans _ _ _ hba (hpair.2.1.1 b hb)) (hM.irrefl b)
      obtain ⟨g, hg⟩ := hstep _ _ _ a hf hdone
      refine ⟨g, ?_⟩
      rw [List.foldl_append, List.foldl_cons, List.foldl_nil]
      simpa only [List.mem_append, List.mem_singleton] using hg
  obtain ⟨f, hf⟩ := key order [] (List.append_nil _).symm
  have htrue : (fun a => a ∈ order) = fun _ => True := by
    funext a
    exact eq_true (hall a)
  rw [htrue] at hf
  exact ⟨f, hf⟩

/-- Two lists of the same agents, with the same offers, have the same outcome. -/
theorem Served.congr [Fintype B] {N : Market B C O} {g : B → Option C} (e : A ≃ B) (hM : M.Strict)
    (hf : M.Served f) (hg : N.Served g) (hbefore : ∀ a b, N.before (e a) (e b) ↔ M.before a b)
    (hoffers : ∀ a c, N.offers (e a) c ↔ M.offers a c) (hobject : N.object = M.object)
    (hbetter : ∀ c d, N.better c d ↔ M.better c d) (hcapacity : N.capacity = M.capacity) (a : A) :
    f a = g (e a) := by
  have htakes : ∀ b o, N.Takes g (e b) o ↔ M.Takes (fun a => g (e a)) b o := fun b o => by
    simp only [Takes, hobject]
  have hearlier : ∀ a o, (N.earlier g (e a) o).card = (M.earlier (fun a => g (e a)) a o).card := by
    intro a o
    refine (card_bij (fun b _ => e b) (fun b hb => ?_) (fun b _ d _ h => e.injective h)
      fun b hb => ?_).symm
    · rw [mem_earlier] at hb ⊢
      exact ⟨(hbefore b a).2 hb.1, (htakes b o).2 hb.2⟩
    · obtain ⟨b, rfl⟩ := e.surjective b
      rw [mem_earlier] at hb
      exact ⟨b, mem_earlier.2 ⟨(hbefore b a).1 hb.1, (htakes b o).1 hb.2⟩, rfl⟩
  have hopen : ∀ a c, N.Open g (e a) c ↔ M.Open (fun a => g (e a)) a c := by
    intro a c
    rw [Open, Open, hoffers, hobject, hearlier, hcapacity]
  have hserved : M.Served fun a => g (e a) := by
    intro a
    have h := hg (e a)
    simp only [ServedAt, hopen, hbetter] at h
    exact h
  exact congrFun (hf.unique hM hserved) a

end Market

end SerialChoice
