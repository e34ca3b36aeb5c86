import Mathlib.Logic.Relation
import Mathlib.Data.Finset.Card
import Mathlib.Tactic.SplitIfs

/-!
# Marking what a stack search reaches

A stack search keeps a label on every node and a stack of nodes still to expand: it takes the
top of the stack and pushes its unmarked successors, each marked as it is pushed.

* `Frontier.pushAll` : one expansion;
* `Exploring` : the invariant of a search, kept by every expansion (`Exploring.expand`);
* `Exploring.labels_eq` : **a finished search has marked what the start reaches**;
* `Frontier.pending_pushAll` : an expansion moves nodes from unmarked to stacked, so that every
  search ends;
* `labelComponents` : label the components of a symmetric graph one after the other;
* `labelling_labelComponents` : **two labelled nodes share their label** exactly when one
  reaches the other.
-/

namespace Graphs

variable {ν β γ : Type*} [DecidableEq ν]

/-- Labels of the nodes and the nodes still to expand, last pushed first. -/
@[ext]
structure Frontier (ν : Type*) where
  /-- Label of a node. -/
  labels : ν → ℕ
  /-- Nodes pushed but not expanded. -/
  stack : List ν

/-- The successor relation of a search. -/
def Succ (next : ν → List ν) (a b : ν) : Prop := b ∈ next a

/-- One node reaches the other. -/
def Visits (next : ν → List ν) : ν → ν → Prop := Relation.ReflTransGen (Succ next)

namespace Frontier

section Push

variable (marks : ℕ → Bool) (label : ℕ)

/-- Mark and stack a node that is not marked. -/
def push (f : Frontier ν) (b : ν) : Frontier ν :=
  if marks (f.labels b) then f else ⟨Function.update f.labels b label, b :: f.stack⟩

/-- Push every node of a list. -/
def pushAll (f : Frontier ν) (bs : List ν) : Frontier ν := bs.foldl (push marks label) f

end Push

variable {marks : ℕ → Bool} {label : ℕ} {f : Frontier ν} {a b x : ν} {bs : List ν}

theorem push_labels : (f.push marks label b).labels x =
    if x = b ∧ marks (f.labels x) = false then label else f.labels x := by
  unfold push
  by_cases hx : x = b
  · subst hx
    cases hm : marks (f.labels x) <;> simp
  · split_ifs with hm h <;> simp_all

theorem mem_push_stack : x ∈ (f.push marks label b).stack ↔
    x ∈ f.stack ∨ (x = b ∧ marks (f.labels x) = false) := by
  unfold push
  split_ifs with hm
  · constructor
    · exact Or.inl
    · rintro (h | ⟨rfl, h⟩)
      · exact h
      · rw [hm] at h; cases h
  · simp only [List.mem_cons]
    constructor
    · rintro (rfl | h)
      · exact Or.inr ⟨rfl, by simpa using hm⟩
      · exact Or.inl h
    · rintro (h | ⟨rfl, -⟩)
      · exact Or.inr h
      · exact Or.inl rfl

@[simp] theorem pushAll_nil : f.pushAll marks label [] = f := rfl

@[simp] theorem pushAll_cons :
    f.pushAll marks label (b :: bs) = (f.push marks label b).pushAll marks label bs := rfl

/-- **Pushing labels the unmarked nodes** of the list and no others. -/
theorem pushAll_labels (hl : marks label = true) : (f.pushAll marks label bs).labels x =
    if x ∈ bs ∧ marks (f.labels x) = false then label else f.labels x := by
  induction bs generalizing f with
  | nil => simp
  | cons b bs ih =>
    rw [pushAll_cons, ih, push_labels]
    by_cases hb : x = b
    · subst hb
      cases hm : marks (f.labels x) <;> simp [hl, hm]
    · simp [hb]

/-- **Pushing stacks the nodes it labels.** -/
theorem mem_pushAll_stack (hl : marks label = true) : x ∈ (f.pushAll marks label bs).stack ↔
    x ∈ f.stack ∨ (x ∈ bs ∧ marks (f.labels x) = false) := by
  induction bs generalizing f with
  | nil => simp
  | cons b bs ih =>
    rw [pushAll_cons, ih, mem_push_stack, push_labels]
    by_cases hb : x = b
    · subst hb
      cases hm : marks (f.labels x) <;> simp [hl, hm]
    · simp [hb]

variable (marks) in
/-- Nodes of the universe that are stacked or not yet marked. -/
def pending (U : Finset ν) (f : Frontier ν) : ℕ :=
  f.stack.length + (U.filter fun x => marks (f.labels x) = false).card

theorem pending_push {U : Finset ν} (hl : marks label = true) (hb : b ∈ U) :
    (f.push marks label b).pending marks U = f.pending marks U := by
  by_cases hm : marks (f.labels b) = true
  · simp [push, hm]
  rw [Bool.not_eq_true] at hm
  have herase : (U.filter fun x => marks ((f.push marks label b).labels x) = false) =
      (U.filter fun x => marks (f.labels x) = false).erase b := by
    ext x
    simp only [Finset.mem_filter, Finset.mem_erase, push_labels]
    by_cases hx : x = b
    · subst hx; simp [hm, hl]
    · simp [hx]
  have hmem : b ∈ U.filter fun x => marks (f.labels x) = false := Finset.mem_filter.2 ⟨hb, hm⟩
  have hpos := Finset.card_pos.2 ⟨b, hmem⟩
  have hstack : (f.push marks label b).stack = b :: f.stack := by simp [push, hm]
  rw [pending, herase, Finset.card_erase_of_mem hmem, hstack, List.length_cons, pending]
  omega

/-- Pushing takes a node from the unmarked ones for each node it stacks. -/
theorem pending_pushAll {U : Finset ν} (hl : marks label = true) (hbs : ∀ b ∈ bs, b ∈ U) :
    (f.pushAll marks label bs).pending marks U = f.pending marks U := by
  induction bs generalizing f with
  | nil => rfl
  | cons b bs ih =>
    rw [pushAll_cons, ih fun c hc => hbs c (List.mem_cons_of_mem _ hc),
      pending_push hl (hbs b List.mem_cons_self)]

/-- A search begins with no more nodes than there are. -/
theorem pending_start {U : Finset ν} {labels : ν → ℕ} (hl : marks label = true) (ha : a ∈ U) :
    (⟨Function.update labels a label, [a]⟩ : Frontier ν).pending marks U ≤ U.card := by
  have hsub : (U.filter fun x => marks (Function.update labels a label x) = false) ⊆
      U.erase a := by
    intro x hx
    obtain ⟨hxU, hx0⟩ := Finset.mem_filter.1 hx
    refine Finset.mem_erase.2 ⟨?_, hxU⟩
    rintro rfl
    simp [hl] at hx0
  have hcard := Finset.card_le_card hsub
  have hpos := Finset.card_pos.2 ⟨a, ha⟩
  rw [Finset.card_erase_of_mem ha] at hcard
  simp only [pending, List.length_singleton]
  omega

end Frontier

/-! ### The invariant of a search -/

/-- **A search from `a₀`** that began with the labels `before`: the nodes it has marked are
reached from `a₀`, and the ones it has also expanded have no unmarked successor. -/
structure Exploring (next : ν → List ν) (marks : ℕ → Bool) (label : ℕ) (before : ν → ℕ) (a₀ : ν)
    (f : Frontier ν) : Prop where
  /-- The start is marked. -/
  start : f.labels a₀ = label
  /-- Every label is an earlier one or marks a node that the start reaches. -/
  new : ∀ x, f.labels x = before x ∨
    (marks (before x) = false ∧ f.labels x = label ∧ Visits next a₀ x)
  /-- The stacked nodes are new. -/
  stacked : ∀ x ∈ f.stack, marks (before x) = false ∧ f.labels x = label ∧ Visits next a₀ x
  /-- Expanded nodes have marked successors only. -/
  expanded : ∀ x, marks (before x) = false → marks (f.labels x) = true → x ∉ f.stack →
    ∀ y ∈ next x, marks (f.labels y) = true

namespace Exploring

variable {next : ν → List ν} {marks : ℕ → Bool} {label : ℕ} {before labels : ν → ℕ} {a₀ a x : ν}
  {rest : List ν} {f : Frontier ν}

/-- A search begins with its start marked and stacked. -/
theorem init (h : marks (before a₀) = false) :
    Exploring next marks label before a₀ ⟨Function.update before a₀ label, [a₀]⟩ where
  start := by simp
  new x := by
    by_cases hx : x = a₀
    · subst hx
      exact Or.inr ⟨h, by simp, .refl⟩
    · exact Or.inl (by simp [hx])
  stacked x hx := by
    rw [List.mem_singleton.1 hx]
    exact ⟨h, by simp, .refl⟩
  expanded x h0 h1 hx := by
    have hne : x ≠ a₀ := fun h => hx (by simp [h])
    change marks (Function.update before a₀ label x) = true at h1
    rw [Function.update_of_ne hne, h0] at h1
    cases h1

/-- **An expansion keeps the invariant.** -/
theorem expand (hl : marks label = true)
    (E : Exploring next marks label before a₀ ⟨labels, a :: rest⟩) :
    Exploring next marks label before a₀
      ((⟨labels, rest⟩ : Frontier ν).pushAll marks label (next a)) := by
  obtain ⟨ha, hla, hleads⟩ := E.stacked a List.mem_cons_self
  have hfresh : ∀ x, marks (labels x) = false → marks (before x) = false := by
    intro x hx
    rcases E.new x with h | ⟨h, -, -⟩
    · rwa [show labels x = before x from h] at hx
    · exact h
  have hmarked : ∀ x, labels x = label → ¬ (marks (labels x) = false) := by
    intro x hx h
    rw [hx, hl] at h
    cases h
  constructor
  · rw [Frontier.pushAll_labels hl, if_neg fun h => hmarked a₀ E.start h.2]
    exact E.start
  · intro x
    rw [Frontier.pushAll_labels hl]
    split_ifs with h
    · exact Or.inr ⟨hfresh x h.2, rfl, hleads.tail h.1⟩
    · exact E.new x
  · intro x hx
    rw [Frontier.pushAll_labels hl]
    rcases (Frontier.mem_pushAll_stack hl).1 hx with h | ⟨hmem, hm⟩
    · obtain ⟨h0, h1, h2⟩ := E.stacked x (List.mem_cons_of_mem _ h)
      rw [if_neg fun h => hmarked x h1 h.2]
      exact ⟨h0, h1, h2⟩
    · rw [if_pos ⟨hmem, hm⟩]
      exact ⟨hfresh x hm, rfl, hleads.tail hmem⟩
  · intro x h0 h1 hx y hy
    rw [Frontier.mem_pushAll_stack hl, not_or] at hx
    rw [Frontier.pushAll_labels hl] at h1 ⊢
    -- a node that is marked and not stacked was marked before this expansion
    have hmark : marks (labels x) = true := by
      by_contra hm
      rw [Bool.not_eq_true] at hm
      by_cases hmem : x ∈ next a
      · exact hx.2 ⟨hmem, hm⟩
      · rw [if_neg (fun h => hmem h.1), hm] at h1
        cases h1
    split_ifs with h
    · exact hl
    · by_cases hxa : x = a
      · subst hxa
        by_contra hm
        rw [Bool.not_eq_true] at hm
        exact h ⟨hy, hm⟩
      · exact E.expanded x h0 hmark (by simp [hxa, hx.1]) y hy

omit [DecidableEq ν] in
/-- **A finished search has marked what the start reaches**, when nothing that was marked
before it can be reached. -/
theorem labels_eq (hl : marks label = true) (E : Exploring next marks label before a₀ f)
    (h₀ : marks (before a₀) = false) (hdone : f.stack = [])
    (hsep : ∀ x y, Visits next a₀ x → marks (before x) = false → y ∈ next x →
      marks (before y) = false)
    (hx : Visits next a₀ x) : marks (before x) = false ∧ f.labels x = label := by
  induction hx with
  | refl => exact ⟨h₀, E.start⟩
  | @tail x y hlead hy ih =>
    have hnew := hsep x y hlead ih.1 hy
    have hmark := E.expanded x ih.1 (by rw [ih.2, hl]) (by simp [hdone]) y hy
    rcases E.new y with h | ⟨-, h, -⟩
    · rw [h, hnew] at hmark
      cases hmark
    · exact ⟨hnew, h⟩

end Exploring

/-! ### Flooding one component -/

section Flood

variable (next : ν → List ν) (marks : ℕ → Bool) (label : ℕ) (visit : β → ν → β)

/-- Expand until the stack is empty, visiting every expanded node; the search fails when the
fuel ends before the stack does. -/
def flood : ℕ → Frontier ν → β → Option ((ν → ℕ) × β)
  | _, ⟨labels, []⟩, out => some (labels, out)
  | 0, ⟨_, _ :: _⟩, _ => none
  | fuel + 1, ⟨labels, a :: rest⟩, out =>
    flood fuel ((⟨labels, rest⟩ : Frontier ν).pushAll marks label (next a)) (visit out a)

variable {next marks label visit} {before labels : ν → ℕ} {a₀ : ν} {f : Frontier ν} {out out' : β}
  {fuel : ℕ}

theorem flood_nil : flood next marks label visit fuel ⟨labels, []⟩ out = some (labels, out) := by
  cases fuel <;> rfl

theorem flood_zero_cons {a : ν} {rest : List ν} :
    flood next marks label visit 0 ⟨labels, a :: rest⟩ out = none := rfl

theorem flood_succ_cons {a : ν} {rest : List ν} :
    flood next marks label visit (fuel + 1) ⟨labels, a :: rest⟩ out =
      flood next marks label visit fuel ((⟨labels, rest⟩ : Frontier ν).pushAll marks label (next a))
        (visit out a) := rfl

/-- A flood ends with the invariant and no stack. -/
theorem exploring_of_flood (hl : marks label = true)
    (E : Exploring next marks label before a₀ f)
    (h : flood next marks label visit fuel f out = some (labels, out')) :
    Exploring next marks label before a₀ ⟨labels, []⟩ := by
  induction fuel generalizing f out with
  | zero =>
    obtain ⟨ls, _ | ⟨a, rest⟩⟩ := f
    · simp only [flood_nil, Option.some.injEq, Prod.mk.injEq] at h
      rwa [← h.1]
    · simp [flood_zero_cons] at h
  | succ fuel ih =>
    obtain ⟨ls, _ | ⟨a, rest⟩⟩ := f
    · simp only [flood_nil, Option.some.injEq, Prod.mk.injEq] at h
      rwa [← h.1]
    · exact ih (E.expand hl) h

/-- A property of the output that every visit keeps holds after a flood. -/
theorem flood_keeps {P : β → Prop} {N : ν → Prop} (hnext : ∀ a, N a → ∀ b ∈ next a, N b)
    (hvisit : ∀ out a, N a → P out → P (visit out a)) (hf : ∀ a ∈ f.stack, N a)
    (hout : P out) (h : flood next marks label visit fuel f out = some (labels, out')) :
    P out' := by
  induction fuel generalizing f out with
  | zero =>
    obtain ⟨ls, _ | ⟨a, rest⟩⟩ := f
    · simp only [flood_nil, Option.some.injEq, Prod.mk.injEq] at h
      rwa [← h.2]
    · simp [flood_zero_cons] at h
  | succ fuel ih =>
    obtain ⟨ls, _ | ⟨a, rest⟩⟩ := f
    · simp only [flood_nil, Option.some.injEq, Prod.mk.injEq] at h
      rwa [← h.2]
    · have ha := hf a List.mem_cons_self
      refine ih (fun b hb => ?_) (hvisit out a ha hout) h
      have hmem : ∀ bs (g : Frontier ν), (∀ c ∈ g.stack, N c) → (∀ c ∈ bs, N c) →
          ∀ c ∈ (g.pushAll marks label bs).stack, N c := by
        intro bs
        induction bs with
        | nil => exact fun g hg _ => hg
        | cons c bs ihb =>
          refine fun g hg hbs => ihb _ (fun d hd => ?_) fun d hd =>
            hbs d (List.mem_cons_of_mem _ hd)
          rcases Frontier.mem_push_stack.1 hd with h | ⟨rfl, -⟩
          · exact hg d h
          · exact hbs d List.mem_cons_self
      exact hmem _ _ (fun c hc => hf c (List.mem_cons_of_mem _ hc)) (hnext a ha) b hb

/-- A flood leaves the nodes alone that are marked already. -/
theorem flood_labels_of_marked {x : ν} (hl : marks label = true)
    (h : flood next marks label visit fuel f out = some (labels, out'))
    (hm : marks (f.labels x) = true) : labels x = f.labels x := by
  induction fuel generalizing f out with
  | zero =>
    obtain ⟨ls, _ | ⟨a, rest⟩⟩ := f
    · simp only [flood_nil, Option.some.injEq, Prod.mk.injEq] at h
      rw [← h.1]
    · simp [flood_zero_cons] at h
  | succ fuel ih =>
    obtain ⟨ls, _ | ⟨a, rest⟩⟩ := f
    · simp only [flood_nil, Option.some.injEq, Prod.mk.injEq] at h
      rw [← h.1]
    · have hstay : ((⟨ls, rest⟩ : Frontier ν).pushAll marks label (next a)).labels x = ls x := by
        rw [Frontier.pushAll_labels hl, if_neg]
        rintro ⟨-, hno⟩
        rw [show marks (ls x) = true from hm] at hno
        cases hno
      rw [ih h (by rw [hstay]; exact hm), hstay]

end Flood

/-! ### Labelling every component -/

/-- Labels that are not zero mark a node. -/
def labelled (label : ℕ) : Bool := label != 0

@[simp] theorem labelled_eq_true {label : ℕ} : labelled label = true ↔ label ≠ 0 := by
  simp [labelled]

@[simp] theorem labelled_eq_false {label : ℕ} : labelled label = false ↔ label = 0 := by
  simp [labelled]

/-- **A labelling by `count` components**: a labelled node shares its label with its successors,
and with the nodes it reaches alone. -/
structure Labelling (next : ν → List ν) (labels : ν → ℕ) (count : ℕ) : Prop where
  /-- Labels number the components from one. -/
  le : ∀ x, labels x ≤ count
  /-- A successor has the same label. -/
  closed : ∀ x y, labels x ≠ 0 → y ∈ next x → labels y = labels x
  /-- Nodes of one label reach each other. -/
  connected : ∀ x y, labels x ≠ 0 → labels x = labels y → Visits next x y

section Components

variable (next : ν → List ν) (admitted : ν → Bool) (fresh : β → ℕ) (opened : β → β)
  (visit : ℕ → β → ν → β)

/-- Flood from every admitted node of the list that no earlier flood has labelled. -/
def labelComponents (fuel : ℕ) : List ν → (ν → ℕ) → β → Option ((ν → ℕ) × β)
  | [], labels, out => some (labels, out)
  | a :: rest, labels, out =>
    if admitted a = false ∨ labelled (labels a) = true then
      labelComponents fuel rest labels out
    else
      match flood next labelled (fresh out) (visit (fresh out)) fuel
        ⟨Function.update labels a (fresh out), [a]⟩ (opened out) with
      | none => none
      | some (labels', out') => labelComponents fuel rest labels' out'

variable {next admitted fresh opened visit} {fuel : ℕ} {nodes : List ν} {labels labels' : ν → ℕ}
  {out out' : β} {a x y : ν}

theorem labelComponents_nil :
    labelComponents next admitted fresh opened visit fuel [] labels out = some (labels, out) := rfl

theorem labelComponents_cons : labelComponents next admitted fresh opened visit fuel (a :: nodes)
    labels out =
      if admitted a = false ∨ labelled (labels a) = true then
        labelComponents next admitted fresh opened visit fuel nodes labels out
      else
        match flood next labelled (fresh out) (visit (fresh out)) fuel
          ⟨Function.update labels a (fresh out), [a]⟩ (opened out) with
        | none => none
        | some (labels', out') =>
          labelComponents next admitted fresh opened visit fuel nodes labels' out' := rfl

/-- A property of the output that every opening and every visit keeps holds at the end. -/
theorem labelComponents_keeps {P : β → Prop} {N : ν → Prop} (hnext : ∀ a, N a → ∀ b ∈ next a, N b)
    (hopened : ∀ out, P out → P (opened out))
    (hvisit : ∀ label out a, N a → P out → P (visit label out a)) (hnodes : ∀ a ∈ nodes, N a)
    (hout : P out) (h : labelComponents next admitted fresh opened visit fuel nodes labels out =
      some (labels', out')) : P out' := by
  induction nodes generalizing labels out with
  | nil =>
    simp only [labelComponents_nil, Option.some.injEq, Prod.mk.injEq] at h
    exact h.2 ▸ hout
  | cons a rest ih =>
    have hrest := fun b hb => hnodes b (List.mem_cons_of_mem a hb)
    rw [labelComponents_cons] at h
    split_ifs at h with hskip
    · exact ih hrest hout h
    · split at h
      · cases h
      · rename_i labels₁ out₁ hflood
        refine ih hrest (flood_keeps hnext (hvisit _) (fun b hb => ?_) (hopened _ hout) hflood) h
        rw [List.mem_singleton.1 hb]
        exact hnodes a List.mem_cons_self

omit [DecidableEq ν] in
omit [DecidableEq ν] in
/-- Nothing is labelled before the first flood. -/
theorem labelling_zero : Labelling next (fun _ => 0) 0 :=
  ⟨fun _ => le_rfl, fun _ _ h => absurd rfl h, fun _ _ h => absurd rfl h⟩

omit [DecidableEq ν] in
/-- In a symmetric graph one node leads to the other and back. -/
theorem visits_symm (hsymm : ∀ a b, admitted a = true → b ∈ next a → a ∈ next b)
    (hnext : ∀ a, ∀ b ∈ next a, admitted b = true) (ha : admitted a = true)
    (h : Visits next a x) : Visits next x a ∧ admitted x = true := by
  induction h with
  | refl => exact ⟨.refl, ha⟩
  | @tail y z _ hz ih => exact ⟨.head (hsymm y z ih.2 hz) ih.1, hnext y z hz⟩

/-- **A flood from a node without a label** adds its component to a labelling. -/
theorem Labelling.flood {count : ℕ} {visit : β → ν → β}
    (hsymm : ∀ a b, admitted a = true → b ∈ next a → a ∈ next b)
    (hnext : ∀ a, ∀ b ∈ next a, admitted b = true) (L : Labelling next labels count)
    (ha : admitted a = true) (ha0 : labels a = 0) (hadm : ∀ x, labels x ≠ 0 → admitted x = true)
    (h : Graphs.flood next labelled (count + 1) visit fuel
      ⟨Function.update labels a (count + 1), [a]⟩ out = some (labels', out')) :
    Labelling next labels' (count + 1) ∧
      (∀ x, labels' x ≠ 0 ↔ labels x ≠ 0 ∨ Visits next a x) ∧
      ∀ x, labels' x ≠ 0 → admitted x = true := by
  have hl : labelled (count + 1) = true := by simp
  have h₀ : labelled (labels a) = false := by simpa using ha0
  have E := exploring_of_flood hl (.init h₀) h
  -- the earlier components cannot be entered from outside
  have hsep : ∀ x y, Visits next a x → labelled (labels x) = false → y ∈ next x →
      labelled (labels y) = false := by
    intro x y hlead hx hy
    rw [labelled_eq_false] at hx ⊢
    by_contra hy0
    have hback := hsymm x y (visits_symm hsymm hnext ha hlead).2 hy
    exact hy0 (L.closed y x hy0 hback ▸ hx)
  have hnew : ∀ x, Visits next a x → labels x = 0 ∧ labels' x = count + 1 := by
    intro x hx
    obtain ⟨h0, h1⟩ := E.labels_eq hl h₀ rfl hsep hx
    exact ⟨labelled_eq_false.1 h0, h1⟩
  have hcases : ∀ x, labels' x = labels x ∨ labels' x = count + 1 ∧ Visits next a x := fun x =>
    (E.new x).imp id And.right
  have hold : ∀ x, labels x ≠ 0 → labels' x = labels x := by
    intro x hx
    rcases hcases x with h | ⟨-, h⟩
    · exact h
    · exact absurd (hnew x h).1 hx
  refine ⟨⟨fun x => ?_, fun x y hx hy => ?_, fun x y hx hxy => ?_⟩, fun x => ⟨fun hx => ?_, ?_⟩,
    fun x hx => ?_⟩
  · have := L.le x
    rcases hcases x with h | ⟨h, -⟩ <;> omega
  · rcases hcases x with h | ⟨h, hlead⟩
    · have hx0 : labels x ≠ 0 := h ▸ hx
      have hyx := L.closed x y hx0 hy
      rw [h, hold y (hyx ▸ hx0), hyx]
    · rw [h, (hnew y (hlead.tail hy)).2]
  · have hle := fun z => L.le z
    rcases hcases x with h | ⟨h, hlead⟩ <;> rcases hcases y with h' | ⟨h', hlead'⟩
    · exact L.connected x y (h ▸ hx) (by rw [← h, ← h', hxy])
    · exact absurd (hle x) (by omega)
    · exact absurd (hle y) (by omega)
    · exact (visits_symm hsymm hnext ha hlead).1.trans hlead'
  · rcases hcases x with h | ⟨-, h⟩
    · exact Or.inl (h ▸ hx)
    · exact Or.inr h
  · rintro (hx | hx)
    · rw [hold x hx]
      exact hx
    · rw [(hnew x hx).2]
      omega
  · rcases hcases x with h | ⟨-, h⟩
    · exact hadm x (h ▸ hx)
    · exact (visits_symm hsymm hnext ha h).2

section Runs

variable {limit : ℕ} {size : β → ℕ}

/-- Counts the components of the output and stays the same over a visit. -/
structure CountsOpened (limit : ℕ) (size fresh : β → ℕ) (opened : β → β)
    (visit : ℕ → β → ν → β) : Prop where
  /-- Opening a component counts it. -/
  opened : ∀ out, size (opened out) = size out + 1
  /-- A visit opens none. -/
  visit : ∀ label out a, size (visit label out a) = size out
  /-- As long as the label does not wrap, it is the number of the component. -/
  fresh : ∀ out, size out + 1 < limit → fresh out = size out + 1

/-- One flood opens one component. -/
theorem size_of_flood (hsize : CountsOpened limit size fresh opened visit)
    (h : flood next labelled (fresh out) (visit (fresh out)) fuel
      ⟨Function.update labels a (fresh out), [a]⟩ (opened out) = some (labels', out')) :
    size out' = size out + 1 := by
  refine flood_keeps (P := fun o => size o = size out + 1) (N := fun _ => True)
    (fun _ _ _ _ => trivial) (fun o b _ ho => ?_) (fun _ _ => trivial) (hsize.opened out) h
  rw [hsize.visit, ho]

/-- The size of the output only grows. -/
theorem size_le_labelComponents (hsize : CountsOpened limit size fresh opened visit)
    (h : labelComponents next admitted fresh opened visit fuel nodes labels out =
      some (labels', out')) : size out ≤ size out' := by
  induction nodes generalizing labels out with
  | nil =>
    simp only [labelComponents_nil, Option.some.injEq, Prod.mk.injEq] at h
    rw [h.2]
  | cons a rest ih =>
    rw [labelComponents_cons] at h
    split_ifs at h with hskip
    · exact ih h
    · split at h
      · cases h
      · rename_i labels₁ out₁ hflood
        have hkeep := size_of_flood hsize hflood
        have := ih h
        omega

/-- A flood from an unlabelled node leaves the labelled ones alone. -/
theorem labels_of_flood {label : ℕ} {visit : β → ν → β} (hl : label ≠ 0) (ha : labels a = 0)
    (h : flood next labelled label visit fuel ⟨Function.update labels a label, [a]⟩ out =
      some (labels', out')) (hx : labels x ≠ 0) : labels' x = labels x := by
  have hxa : x ≠ a := fun heq => hx (heq ▸ ha)
  have hm := flood_labels_of_marked (x := x) (labelled_eq_true.2 hl) h
  simp only [Function.update_of_ne hxa] at hm
  exact hm (labelled_eq_true.2 hx)

/-- Labels stay. -/
theorem labels_of_labelComponents (hsize : CountsOpened limit size fresh opened visit)
    (h : labelComponents next admitted fresh opened visit fuel nodes labels out =
      some (labels', out')) (hfew : size out' < limit) (hx : labels x ≠ 0) :
    labels' x = labels x := by
  induction nodes generalizing labels out with
  | nil =>
    simp only [labelComponents_nil, Option.some.injEq, Prod.mk.injEq] at h
    rw [h.1]
  | cons a rest ih =>
    rw [labelComponents_cons] at h
    split_ifs at h with hskip
    · exact ih h hx
    · split at h
      · cases h
      · rename_i labels₁ out₁ hflood
        rw [not_or, Bool.not_eq_true, labelled_eq_false] at hskip
        have hkeep := size_of_flood hsize hflood
        have hle := size_le_labelComponents hsize h
        have hfresh := hsize.fresh out (by omega)
        have hstay := labels_of_flood (by omega) hskip.2 hflood hx
        rw [ih h (by rw [hstay]; exact hx), hstay]

/-- **Two labelled nodes share their label** exactly when one reaches the other, and every
admitted node of the list is labelled. -/
theorem labelling_labelComponents (hsize : CountsOpened limit size fresh opened visit)
    (hsymm : ∀ a b, admitted a = true → b ∈ next a → a ∈ next b)
    (hnext : ∀ a, ∀ b ∈ next a, admitted b = true) (L : Labelling next labels (size out))
    (hadm : ∀ x, labels x ≠ 0 → admitted x = true)
    (h : labelComponents next admitted fresh opened visit fuel nodes labels out =
      some (labels', out')) (hfew : size out' < limit) :
    Labelling next labels' (size out') ∧ (∀ x, labels' x ≠ 0 → admitted x = true) ∧
      ∀ x ∈ nodes, admitted x = true → labels' x ≠ 0 := by
  induction nodes generalizing labels out with
  | nil =>
    simp only [labelComponents_nil, Option.some.injEq, Prod.mk.injEq] at h
    obtain ⟨rfl, rfl⟩ := h
    exact ⟨L, hadm, fun _ h => absurd h List.not_mem_nil⟩
  | cons a rest ih =>
    rw [labelComponents_cons] at h
    split_ifs at h with hskip
    · obtain ⟨L', hadm', hall⟩ := ih L hadm h
      refine ⟨L', hadm', fun x hx hax => ?_⟩
      rcases List.mem_cons.1 hx with rfl | hx
      · have hx0 : labels x ≠ 0 := by
          rcases hskip with hno | hyes
          · rw [hno] at hax; cases hax
          · exact labelled_eq_true.1 hyes
        rw [labels_of_labelComponents hsize h hfew hx0]
        exact hx0
      · exact hall x hx hax
    · split at h
      · cases h
      · rename_i labels₁ out₁ hflood
        rw [not_or, Bool.not_eq_false, Bool.not_eq_true, labelled_eq_false] at hskip
        have hkeep := size_of_flood hsize hflood
        have hle := size_le_labelComponents hsize h
        rw [hsize.fresh out (by omega)] at hflood
        obtain ⟨L₁, hiff, hadm₁⟩ := L.flood hsymm hnext hskip.1 hskip.2 hadm hflood
        rw [← hkeep] at L₁
        obtain ⟨L', hadm', hall⟩ := ih L₁ hadm₁ h
        refine ⟨L', hadm', fun x hx hax => ?_⟩
        rcases List.mem_cons.1 hx with rfl | hx
        · have hx₁ : labels₁ x ≠ 0 := (hiff x).2 (Or.inr .refl)
          rw [labels_of_labelComponents hsize h hfew hx₁]
          exact hx₁
        · exact hall x hx hax

/-- The flood of a node without successors ends at once. -/
theorem labelComponents_isolated (hfuel : 0 < fuel) (ha : admitted a = true) (h0 : labels a = 0)
    (hnext : next a = []) :
    labelComponents next admitted fresh opened visit fuel (a :: nodes) labels out =
      labelComponents next admitted fresh opened visit fuel nodes
        (Function.update labels a (fresh out)) (visit (fresh out) (opened out) a) := by
  obtain ⟨n, rfl⟩ := Nat.exists_eq_succ_of_ne_zero hfuel.ne'
  have hskip : ¬ (admitted a = false ∨ labelled (labels a) = true) := by simp [ha, h0]
  have hflood : flood next labelled (fresh out) (visit (fresh out)) (n + 1)
      ⟨Function.update labels a (fresh out), [a]⟩ (opened out) =
        some (Function.update labels a (fresh out), visit (fresh out) (opened out) a) := by
    rw [flood_succ_cons, hnext, Frontier.pushAll_nil]
    cases n <;> rfl
  rw [labelComponents_cons, if_neg hskip, hflood]

/-- **Nodes without successors are components of their own**, whatever their labels. -/
theorem exists_labelComponents_isolated (hsize : CountsOpened limit size fresh opened visit)
    (hfuel : 0 < fuel) (hnext : ∀ a, admitted a = true → next a = []) (hnodup : nodes.Nodup)
    (h0 : ∀ a ∈ nodes, labels a = 0) :
    ∃ labels' out', labelComponents next admitted fresh opened visit fuel nodes labels out =
        some (labels', out') ∧ size out' = size out + nodes.countP admitted ∧
      ∀ x, x ∉ nodes → labels' x = labels x := by
  induction nodes generalizing labels out with
  | nil => exact ⟨labels, out, rfl, rfl, fun _ _ => rfl⟩
  | cons a rest ih =>
    obtain ⟨hno, hrest⟩ := List.nodup_cons.1 hnodup
    have h0' := fun b hb => h0 b (List.mem_cons_of_mem a hb)
    cases ha : admitted a with
    | false =>
      obtain ⟨labels', out', hr, hout, hkeep⟩ := @ih labels out hrest h0'
      refine ⟨labels', out', ?_, ?_, fun x hx => hkeep x fun h => hx (List.mem_cons_of_mem a h)⟩
      · rw [labelComponents_cons, if_pos (Or.inl ha), hr]
      · rw [hout, List.countP_cons_of_neg (by simp [ha])]
    | true =>
      obtain ⟨labels', out', hr, hout, hkeep⟩ := @ih (Function.update labels a (fresh out))
        (visit (fresh out) (opened out) a) hrest fun b hb => by
          rw [Function.update_of_ne fun h : b = a => hno (h ▸ hb)]
          exact h0' b hb
      refine ⟨labels', out', ?_, ?_, fun x hx => ?_⟩
      · rw [labelComponents_isolated hfuel ha (h0 a List.mem_cons_self) (hnext a ha), hr]
      · rw [hout, hsize.visit, hsize.opened, List.countP_cons_of_pos ha]
        omega
      · rw [List.mem_cons, not_or] at hx
        rw [hkeep x hx.2, Function.update_of_ne hx.1]

end Runs

end Components

end Graphs
