import Mathlib.Algebra.GroupWithZero.Nat
import Mathlib.Data.List.Nodup
import Mathlib.Data.List.Range
import Mathlib.Data.Nat.Notation

/-!
# Navigation domains and snapshots

A domain is an indexed directed graph behind an interface: one edge is looked up at a time, in
either direction.  A snapshot composes domains and connects them by further edges.

* `NavigationDomain` : the interface;
* `NavigationGraph` : a domain that owns its edges;
* `NavigationSnapshot` : domains and connections;
* `Mirrored` : **the reverse enumeration lists the edges of the forward one**;
* `NavigationGraph.mirrored`, `NavigationSnapshot.mirrored` : graphs are mirrored, and what is
  composed of mirrored domains is.
-/

namespace Tess

/-! ### Locations and edges -/

/-- A local state qualified by the identity of its domain. -/
structure NavigationLocation where
  /-- Identity of the domain. -/
  domain : ℕ := 0
  /-- Node of the domain. -/
  node : ℕ := 0
  deriving DecidableEq, Repr

namespace NavigationLocation

/-- `operator<`: by domain, then by node. -/
def Before (a b : NavigationLocation) : Prop :=
  a.domain < b.domain ∨ a.domain = b.domain ∧ a.node < b.node

instance (a b : NavigationLocation) : Decidable (a.Before b) :=
  inferInstanceAs (Decidable (_ ∨ _))

theorem Before.trans {a b c : NavigationLocation} (h : a.Before b) (h' : b.Before c) :
    a.Before c := by
  unfold Before at *
  omega

theorem Before.irrefl (a : NavigationLocation) : ¬ a.Before a := by
  unfold Before
  omega

theorem before_or_eq {a b : NavigationLocation} (h : ¬ a.Before b) : b.Before a ∨ a = b := by
  unfold Before at *
  by_cases heq : a = b
  · exact Or.inr heq
  · left
    have : a.domain ≠ b.domain ∨ a.node ≠ b.node := by
      by_contra hno
      rw [not_or, not_not, not_not] at hno
      obtain ⟨ad, an⟩ := a
      obtain ⟨bd, bn⟩ := b
      exact heq (by simp_all)
    omega

end NavigationLocation

/-- Availability is separate from endpoint membership and edge cost. -/
inductive NavigationAvailability
  | legal
  | blocked
  | unavailable
  | invalid
  | overflow
  deriving DecidableEq, Repr

/-- The reserved cost, `UINT64_MAX`. -/
def navigationInfinity : ℕ := 2 ^ 64 - 1

/-- An original directed local edge, including during reverse enumeration. -/
structure NavigationLocalEdge where
  /-- Node it leaves. -/
  fromNode : ℕ := 0
  /-- Node it enters. -/
  toNode : ℕ := 0
  /-- Identity within its source node. -/
  id : ℕ := 0
  /-- Cost. -/
  cost : ℕ := 0
  /-- Opaque key of the host. -/
  key : ℕ := 0
  /-- Availability. -/
  availability : NavigationAvailability := .legal
  deriving DecidableEq, Repr

/-- Checked directed attachment between two locations. -/
structure NavigationConnection where
  /-- Location it leaves. -/
  fromLocation : NavigationLocation := {}
  /-- Location it enters. -/
  toLocation : NavigationLocation := {}
  /-- Identity. -/
  id : ℕ := 0
  /-- Cost. -/
  cost : ℕ := 0
  /-- Opaque key of the host. -/
  key : ℕ := 0
  /-- Availability. -/
  availability : NavigationAvailability := .legal
  deriving DecidableEq, Repr

/-- A retained selected transition. -/
structure NavigationTransition extends NavigationConnection where
  /-- It is a connection, not an edge of a domain. -/
  connection : Bool := false
  deriving DecidableEq, Repr

/-! ### Domains -/

/-- `NavigationDomain`: the indexed interface; the identity is the one its construction drew. -/
structure NavigationDomain where
  /-- `identity()`. -/
  identity : ℕ
  /-- `valid()`. -/
  valid : Bool
  /-- `contains(node)`. -/
  contains : ℕ → Bool
  /-- `availability(node)`. -/
  availability : ℕ → NavigationAvailability
  /-- `degree(node, reverse)`. -/
  degree : ℕ → Bool → ℕ
  /-- `edge(node, cursor, reverse)`. -/
  edge : ℕ → ℕ → Bool → NavigationLocalEdge
  /-- `complete()`. -/
  complete : Bool

/-- `location(node)`. -/
def NavigationDomain.location (D : NavigationDomain) (node : ℕ) : NavigationLocation :=
  ⟨D.identity, node⟩

/-- The edges that the cursors of a node enumerate. -/
def NavigationDomain.edges (D : NavigationDomain) (node : ℕ) (reverse : Bool) :
    List NavigationLocalEdge :=
  (List.range (D.degree node reverse)).map fun cursor => D.edge node cursor reverse

/-- **The reverse enumeration lists the edges of the forward one**, each at the node it enters. -/
structure NavigationDomain.Mirrored (D : NavigationDomain) : Prop where
  /-- An edge that a node lists forward is listed by its target. -/
  forward : ∀ node, D.contains node = true → ∀ e ∈ D.edges node false, e.fromNode = node →
    D.contains e.toNode = true → e ∈ D.edges e.toNode true
  /-- An edge that a node lists in reverse is listed by its source. -/
  reverse : ∀ node, D.contains node = true → ∀ e ∈ D.edges node true, e.toNode = node →
    D.contains e.fromNode = true → e ∈ D.edges e.fromNode false

/-- Append an index to the list of one key. -/
def appendAt {κ : Type*} [DecidableEq κ] (index : κ → List ℕ) (at' : κ) (i : ℕ) : κ → List ℕ :=
  fun k => if k = at' then index k ++ [i] else index k

/-- `NavigationGraph`: owns a finite directed graph. -/
structure NavigationGraph where
  /-- Edges, in input order. -/
  edges : List NavigationLocalEdge
  /-- Number of nodes. -/
  nodes : ℕ
  /-- Positions of the edges out of a node. -/
  forward : ℕ → List ℕ := fun _ => []
  /-- Positions of the edges into a node. -/
  reverse : ℕ → List ℕ := fun _ => []
  /-- No edge is unavailable, as far as the graph knows. -/
  complete : Bool
  /-- Every edge was accepted. -/
  valid : Bool := true
  /-- Edge identities seen while it is built. -/
  ids : List ℕ := []

namespace NavigationGraph

/-- The loop body of the constructor. -/
def add (G : NavigationGraph) (e : NavigationLocalEdge) (i : ℕ) : NavigationGraph :=
  if G.nodes ≤ e.fromNode ∨ G.nodes ≤ e.toNode ∨ e.cost = navigationInfinity ∨ e.id ∈ G.ids then
    { G with valid := false }
  else
    { G with
      ids := e.id :: G.ids
      forward := appendAt G.forward e.fromNode i
      reverse := appendAt G.reverse e.toNode i
      complete := if e.availability = .unavailable then false else G.complete }

/-- The constructor. -/
def make (nodes : ℕ) (edges : List NavigationLocalEdge) (complete : Bool) : NavigationGraph :=
  edges.zipIdx.foldl (fun G e => G.add e.1 e.2) { edges, nodes, complete }

variable (G : NavigationGraph)

/-- `contains`. -/
def contains (node : ℕ) : Bool := G.valid && decide (node < G.nodes)

/-- Positions of the edges of a node. -/
def positions (node : ℕ) (reverse : Bool) : List ℕ :=
  if reverse then G.reverse node else G.forward node

/-- The graph behind the interface. -/
def toDomain (identity : ℕ) : NavigationDomain where
  identity
  valid := G.valid
  contains := G.contains
  availability node := if G.contains node then .legal else .invalid
  degree node reverse := if G.contains node then (G.positions node reverse).length else 0
  edge node cursor reverse :=
    if !G.contains node then { availability := .invalid }
    else match (G.positions node reverse)[cursor]? with
      | none => { availability := .invalid }
      | some i => G.edges.getD i {}
  complete := G.complete

variable {G}

/-- Where the positions of the nodes come from, while the graph is built. -/
structure Indexed (G : NavigationGraph) (es : List NavigationLocalEdge) : Prop where
  /-- The edges are those given. -/
  edges : G.edges = es
  /-- A position listed at a node is one of an edge out of it, and listed at its target. -/
  forward : ∀ node, ∀ i ∈ G.forward node, ∃ e, es[i]? = some e ∧ e.fromNode = node ∧
    i ∈ G.reverse e.toNode
  /-- A position listed in reverse is one of an edge into the node, and listed at its source. -/
  reverse : ∀ node, ∀ i ∈ G.reverse node, ∃ e, es[i]? = some e ∧ e.toNode = node ∧
    i ∈ G.forward e.fromNode

theorem mem_appendAt {κ : Type*} [DecidableEq κ] {index : κ → List ℕ} {a k : κ} {i j : ℕ} :
    j ∈ appendAt index a i k ↔ j ∈ index k ∨ k = a ∧ j = i := by
  unfold appendAt
  split_ifs with h
  · rw [List.mem_append, List.mem_singleton]
    simp [h]
  · simp [h]

theorem Indexed.add {es : List NavigationLocalEdge} (h : G.Indexed es) {e : NavigationLocalEdge}
    {i : ℕ} (hi : es[i]? = some e) : (G.add e i).Indexed es := by
  unfold NavigationGraph.add
  by_cases hno : G.nodes ≤ e.fromNode ∨ G.nodes ≤ e.toNode ∨ e.cost = navigationInfinity ∨
      e.id ∈ G.ids
  · rw [if_pos hno]
    exact ⟨h.edges, h.forward, h.reverse⟩
  rw [if_neg hno]
  -- a position is listed at both ends of its edge
  refine ⟨h.edges, fun node j hj => ?_, fun node j hj => ?_⟩
  · rcases mem_appendAt.1 hj with hj | ⟨rfl, rfl⟩
    · obtain ⟨x, hx, hnode, hr⟩ := h.forward node j hj
      exact ⟨x, hx, hnode, mem_appendAt.2 (Or.inl hr)⟩
    · exact ⟨e, hi, rfl, mem_appendAt.2 (Or.inr ⟨rfl, rfl⟩)⟩
  · rcases mem_appendAt.1 hj with hj | ⟨rfl, rfl⟩
    · obtain ⟨x, hx, hnode, hr⟩ := h.reverse node j hj
      exact ⟨x, hx, hnode, mem_appendAt.2 (Or.inl hr)⟩
    · exact ⟨e, hi, rfl, mem_appendAt.2 (Or.inr ⟨rfl, rfl⟩)⟩

theorem indexed_foldl {es : List NavigationLocalEdge} (l : List (NavigationLocalEdge × ℕ))
    (hl : ∀ x ∈ l, es[x.2]? = some x.1) (h : G.Indexed es) :
    (l.foldl (fun G e => G.add e.1 e.2) G).Indexed es := by
  induction l generalizing G with
  | nil => exact h
  | cons x l ih =>
    exact ih (fun y hy => hl y (List.mem_cons_of_mem _ hy)) (h.add (hl x List.mem_cons_self))

theorem indexed_make (nodes : ℕ) (es : List NavigationLocalEdge) (complete : Bool) :
    (make nodes es complete).Indexed es := by
  refine indexed_foldl _ (fun x hx => ?_) ⟨rfl, fun _ _ h => absurd h List.not_mem_nil,
    fun _ _ h => absurd h List.not_mem_nil⟩
  obtain ⟨e, i⟩ := x
  exact List.mem_zipIdx_iff_getElem?.1 hx

theorem mem_edges_toDomain {identity node : ℕ} {reverse : Bool} {e : NavigationLocalEdge}
    (hn : G.contains node = true) : e ∈ (G.toDomain identity).edges node reverse ↔
      ∃ i ∈ G.positions node reverse, e = G.edges.getD i {} := by
  have hdeg : (G.toDomain identity).degree node reverse = (G.positions node reverse).length :=
    if_pos hn
  have hedge (c i : ℕ) (hc : (G.positions node reverse)[c]? = some i) :
      (G.toDomain identity).edge node c reverse = G.edges.getD i {} := by
    simp [toDomain, hn, hc]
  simp only [NavigationDomain.edges, hdeg, List.mem_map, List.mem_range]
  constructor
  · rintro ⟨c, hc, rfl⟩
    have hget := List.getElem?_eq_getElem hc
    exact ⟨_, List.getElem_mem hc, hedge c _ hget⟩
  · rintro ⟨i, hi, rfl⟩
    obtain ⟨c, hc, rfl⟩ := List.mem_iff_getElem.1 hi
    exact ⟨c, hc, hedge c _ (List.getElem?_eq_getElem hc)⟩

/-- **A graph is mirrored.** -/
theorem mirrored (nodes : ℕ) (es : List NavigationLocalEdge) (complete : Bool) (identity : ℕ) :
    ((make nodes es complete).toDomain identity).Mirrored := by
  have h := indexed_make nodes es complete
  generalize make nodes es complete = G at h
  refine ⟨fun node hn e he hfrom hto => ?_, fun node hn e he hto hfrom => ?_⟩
  · obtain ⟨i, hi, rfl⟩ := (mem_edges_toDomain hn).1 he
    obtain ⟨x, hx, -, hr⟩ := h.forward node i hi
    have heq : G.edges.getD i {} = x := by rw [h.edges, List.getD_eq_getElem?_getD, hx]; rfl
    rw [heq] at hto ⊢
    exact (mem_edges_toDomain hto).2 ⟨i, hr, heq.symm⟩
  · obtain ⟨i, hi, rfl⟩ := (mem_edges_toDomain hn).1 he
    obtain ⟨x, hx, -, hr⟩ := h.reverse node i hi
    have heq : G.edges.getD i {} = x := by rw [h.edges, List.getD_eq_getElem?_getD, hx]; rfl
    rw [heq] at hfrom ⊢
    exact (mem_edges_toDomain hfrom).2 ⟨i, hr, heq.symm⟩

/-! ### Degrees -/

theorem length_appendAt_le {κ : Type*} [DecidableEq κ] (index : κ → List ℕ) (a k : κ) (i : ℕ) :
    (appendAt index a i k).length ≤ (index k).length + 1 := by
  unfold appendAt
  split_ifs
  · rw [List.length_append, List.length_singleton]
  · exact Nat.le_succ _

theorem length_positions_add (e : NavigationLocalEdge) (i node : ℕ) (reverse : Bool) :
    ((G.add e i).positions node reverse).length ≤ (G.positions node reverse).length + 1 := by
  unfold add
  by_cases hno : G.nodes ≤ e.fromNode ∨ G.nodes ≤ e.toNode ∨ e.cost = navigationInfinity ∨
      e.id ∈ G.ids
  · rw [if_pos hno]
    exact Nat.le_succ _
  rw [if_neg hno]
  cases reverse with
  | false => exact length_appendAt_le G.forward e.fromNode node i
  | true => exact length_appendAt_le G.reverse e.toNode node i

theorem length_positions_foldl (l : List (NavigationLocalEdge × ℕ)) (node : ℕ) (reverse : Bool) :
    ((l.foldl (fun G e => G.add e.1 e.2) G).positions node reverse).length ≤
      (G.positions node reverse).length + l.length := by
  induction l generalizing G with
  | nil => exact le_rfl
  | cons x l ih =>
    have h := length_positions_add (G := G) x.1 x.2 node reverse
    have h' := ih (G := G.add x.1 x.2)
    rw [List.foldl_cons, List.length_cons]
    omega

/-- **A node has no more edges than the graph.** -/
theorem degree_make_le (nodes : ℕ) (es : List NavigationLocalEdge) (complete : Bool)
    (identity node : ℕ) (reverse : Bool) :
    ((make nodes es complete).toDomain identity).degree node reverse ≤ es.length := by
  have h := length_positions_foldl (G := { edges := es, nodes, complete }) es.zipIdx node reverse
  have h0 : (NavigationGraph.positions { edges := es, nodes, complete } node reverse).length =
      0 := by
    cases reverse <;> rfl
  rw [h0, Nat.zero_add, List.length_zipIdx] at h
  show (if _ then _ else _) ≤ _
  split_ifs
  · exact h
  · exact Nat.zero_le _

end NavigationGraph

/-! ### Snapshots -/

/-- First preparation failure. -/
inductive NavigationPreparationError
  | none
  | nullDomain
  | invalidDomain
  | duplicateDomain
  | invalidConnectionFrom
  | invalidConnectionTo
  | reservedConnectionCost
  | duplicateConnectionId
  deriving DecidableEq, Repr

/-- Compact first-failure diagnostic. -/
structure NavigationPreparationDiagnostic where
  /-- What was rejected. -/
  reason : NavigationPreparationError := .none
  /-- Position in the list of domains or of connections. -/
  index : ℕ := 2 ^ 64 - 1
  /-- Identity of the domain or of the connection. -/
  id : ℕ := 0
  deriving DecidableEq, Repr

/-- `NavigationSnapshot`: domains and explicit connections. -/
structure NavigationSnapshot where
  /-- First rejected input. -/
  diagnostic : NavigationPreparationDiagnostic := {}
  /-- Domains; no two have one identity. -/
  domains : List NavigationDomain := []
  /-- Connections, in input order. -/
  connections : List NavigationConnection
  /-- Positions of the connections out of a location. -/
  forward : NavigationLocation → List ℕ := fun _ => []
  /-- Positions of the connections into a location. -/
  reverse : NavigationLocation → List ℕ := fun _ => []
  /-- Connection identities seen while it is built. -/
  ids : List ℕ := []
  /-- Caller's tag. -/
  profile : ℕ := 0
  /-- Every input was accepted. -/
  valid : Bool := true
  /-- Nothing is unavailable, as far as domains and connections know. -/
  complete : Bool := true

namespace NavigationSnapshot

variable (N : NavigationSnapshot)

/-- `reject`. -/
def reject (reason : NavigationPreparationError) (index id : ℕ) : NavigationSnapshot :=
  { N with
    valid := false
    diagnostic := if N.diagnostic.reason = .none then ⟨reason, index, id⟩ else N.diagnostic }

/-- `domains_.find`. -/
def domain? (id : ℕ) : Option NavigationDomain := N.domains.find? fun D => D.identity = id

/-- `contains`. -/
def contains (l : NavigationLocation) : Bool := (N.domain? l.domain).any fun D => D.contains l.node

/-- `availability`. -/
def availability (l : NavigationLocation) : NavigationAvailability :=
  match N.domain? l.domain with
  | none => .invalid
  | some D => D.availability l.node

/-- The first loop of the constructor; a null domain is `none`. -/
def addDomain (D? : Option NavigationDomain) (i : ℕ) : NavigationSnapshot :=
  match D? with
  | none => N.reject .nullDomain i 0
  | some D =>
    let N := if D.valid then N else N.reject .invalidDomain i D.identity
    let N := { N with complete := N.complete && D.complete }
    if (N.domain? D.identity).isSome then N.reject .duplicateDomain i D.identity
    else { N with domains := N.domains ++ [D] }

/-- What is wrong with a connection. -/
def connectionError (e : NavigationConnection) : NavigationPreparationError :=
  if !N.contains e.fromLocation then .invalidConnectionFrom
  else if !N.contains e.toLocation then .invalidConnectionTo
  else if e.cost = navigationInfinity then .reservedConnectionCost
  else if e.id ∈ N.ids then .duplicateConnectionId
  else .none

/-- The second loop of the constructor. -/
def addConnection (e : NavigationConnection) (i : ℕ) : NavigationSnapshot :=
  if N.connectionError e ≠ .none then N.reject (N.connectionError e) i e.id
  else
    { N with
      ids := e.id :: N.ids
      forward := appendAt N.forward e.fromLocation i
      reverse := appendAt N.reverse e.toLocation i
      complete := if e.availability = .unavailable then false else N.complete }

/-- The constructor. -/
def make (domains : List (Option NavigationDomain)) (connections : List NavigationConnection)
    (profile : ℕ) : NavigationSnapshot :=
  connections.zipIdx.foldl (fun N e => N.addConnection e.1 e.2)
    (domains.zipIdx.foldl (fun N D => N.addDomain D.1 D.2) { connections, profile })

/-- Positions of the connections of a location. -/
def positions (l : NavigationLocation) (reverse : Bool) : List ℕ :=
  if reverse then N.reverse l else N.forward l

/-- `degree`; a location of no domain is not asked for. -/
def degree (l : NavigationLocation) (reverse : Bool) : ℕ :=
  let extra := (N.positions l reverse).length
  let localDegree := ((N.domain? l.domain).map fun D => D.degree l.node reverse).getD 0
  if localDegree > 2 ^ 64 - 1 - extra then 2 ^ 64 - 1 else localDegree + extra

/-- An edge of a domain as a transition. -/
def transitionOf (D : NavigationDomain) (e : NavigationLocalEdge) : NavigationTransition where
  fromLocation := D.location e.fromNode
  toLocation := D.location e.toNode
  id := e.id
  cost := e.cost
  key := e.key
  availability := e.availability
  connection := false

/-- A connection as a transition. -/
def connectionAt (i : ℕ) : NavigationTransition where
  toNavigationConnection := N.connections.getD i {}
  connection := true

/-- `edge`; a location of no domain is not asked for. -/
def edge (l : NavigationLocation) (cursor : ℕ) (reverse : Bool) : NavigationTransition :=
  match N.domain? l.domain with
  | none => {}
  | some D =>
    let localDegree := D.degree l.node reverse
    if cursor < localDegree then transitionOf D (D.edge l.node cursor reverse)
    else N.connectionAt ((N.positions l reverse).getD (cursor - localDegree) 0)

/-- The transitions that the cursors of a location enumerate. -/
def candidates (l : NavigationLocation) (reverse : Bool) : List NavigationTransition :=
  (List.range (N.degree l reverse)).map fun cursor => N.edge l cursor reverse

/-- **The reverse enumeration lists the transitions of the forward one.** -/
structure Mirrored : Prop where
  /-- A transition that a location lists forward is listed by its target. -/
  forward : ∀ l, N.contains l = true → ∀ e ∈ N.candidates l false, e.fromLocation = l →
    N.contains e.toLocation = true → e ∈ N.candidates e.toLocation true
  /-- A transition that a location lists in reverse is listed by its source. -/
  reverse : ∀ l, N.contains l = true → ∀ e ∈ N.candidates l true, e.toLocation = l →
    N.contains e.fromLocation = true → e ∈ N.candidates e.fromLocation false

/-- The degrees fit their type; a location has no more edges than there is memory for. -/
def Fits : Prop :=
  ∀ D ∈ N.domains, ∀ l : NavigationLocation, l.domain = D.identity → ∀ reverse,
    D.degree l.node reverse + (N.positions l reverse).length ≤ 2 ^ 64 - 1

variable {N}

/-! ### How a snapshot is built -/

/-- Where the positions of the locations come from, while the snapshot is built. -/
structure Indexed (N : NavigationSnapshot) (es : List NavigationConnection) : Prop where
  /-- The connections are those given. -/
  connections : N.connections = es
  /-- A position listed at a location is one of a connection out of it, and listed at its
  target. -/
  forward : ∀ l, ∀ i ∈ N.forward l, ∃ e, es[i]? = some e ∧ e.fromLocation = l ∧
    i ∈ N.reverse e.toLocation
  /-- A position listed in reverse is one of a connection into the location, and listed at its
  source. -/
  reverse : ∀ l, ∀ i ∈ N.reverse l, ∃ e, es[i]? = some e ∧ e.toLocation = l ∧
    i ∈ N.forward e.fromLocation

open NavigationGraph (mem_appendAt)

theorem Indexed.addConnection {es : List NavigationConnection} (h : N.Indexed es)
    {e : NavigationConnection} {i : ℕ} (hi : es[i]? = some e) :
    (N.addConnection e i).Indexed es := by
  unfold NavigationSnapshot.addConnection
  by_cases hno : N.connectionError e ≠ .none
  · rw [if_pos hno]
    exact ⟨h.connections, h.forward, h.reverse⟩
  rw [if_neg hno]
  refine ⟨h.connections, fun l j hj => ?_, fun l j hj => ?_⟩
  · rcases mem_appendAt.1 hj with hj | ⟨rfl, rfl⟩
    · obtain ⟨x, hx, hl, hr⟩ := h.forward l j hj
      exact ⟨x, hx, hl, mem_appendAt.2 (Or.inl hr)⟩
    · exact ⟨e, hi, rfl, mem_appendAt.2 (Or.inr ⟨rfl, rfl⟩)⟩
  · rcases mem_appendAt.1 hj with hj | ⟨rfl, rfl⟩
    · obtain ⟨x, hx, hl, hr⟩ := h.reverse l j hj
      exact ⟨x, hx, hl, mem_appendAt.2 (Or.inl hr)⟩
    · exact ⟨e, hi, rfl, mem_appendAt.2 (Or.inr ⟨rfl, rfl⟩)⟩

theorem indexed_foldl {es : List NavigationConnection} (l : List (NavigationConnection × ℕ))
    (hl : ∀ x ∈ l, es[x.2]? = some x.1) (h : N.Indexed es) :
    (l.foldl (fun N e => N.addConnection e.1 e.2) N).Indexed es := by
  induction l generalizing N with
  | nil => exact h
  | cons x l ih =>
    exact ih (fun y hy => hl y (List.mem_cons_of_mem _ hy))
      (h.addConnection (hl x List.mem_cons_self))

/-- What the domains of a snapshot under construction are. -/
structure Composed (N : NavigationSnapshot) (domains : List NavigationDomain) : Prop where
  /-- Each was given. -/
  given : ∀ D ∈ N.domains, D ∈ domains
  /-- No two have one identity. -/
  distinct : (N.domains.map (·.identity)).Nodup
  /-- No connection is listed yet. -/
  bare : N.forward = (fun _ => []) ∧ N.reverse = fun _ => []

theorem domain?_eq_none {id : ℕ} : N.domain? id = none ↔ id ∉ N.domains.map (·.identity) := by
  simp [domain?, List.find?_eq_none]

theorem Composed.addDomain {domains : List NavigationDomain} (h : N.Composed domains)
    {D? : Option NavigationDomain} {i : ℕ} (hD : ∀ D, D? = some D → D ∈ domains) :
    (N.addDomain D? i).Composed domains ∧ (N.addDomain D? i).connections = N.connections := by
  obtain ⟨h1, h2, h3⟩ := h
  cases D? with
  | none => exact ⟨⟨h1, h2, h3⟩, rfl⟩
  | some D =>
    have hkeep (M : NavigationSnapshot) (hM : M.domains = N.domains ∧ M.forward = N.forward ∧
        M.reverse = N.reverse ∧ M.connections = N.connections) :
        (if (M.domain? D.identity).isSome then M.reject .duplicateDomain i D.identity
          else { M with domains := M.domains ++ [D] }).Composed domains ∧
        (if (M.domain? D.identity).isSome then M.reject .duplicateDomain i D.identity
          else { M with domains := M.domains ++ [D] }).connections = N.connections := by
      obtain ⟨hd, hf, hr, hc⟩ := hM
      split_ifs with hdup
      · exact ⟨⟨fun x hx => h1 x (hd ▸ hx), hd ▸ h2, hf ▸ hr ▸ h3⟩, hc⟩
      · rw [Option.not_isSome_iff_eq_none, domain?_eq_none, hd] at hdup
        refine ⟨⟨fun x hx => ?_, ?_, hf ▸ hr ▸ h3⟩, hc⟩
        · rcases List.mem_append.1 hx with hx | hx
          · exact h1 x (hd ▸ hx)
          · exact List.mem_singleton.1 hx ▸ hD D rfl
        · show ((M.domains ++ [D]).map (·.identity)).Nodup
          rw [List.map_append, hd, List.nodup_append]
          refine ⟨h2, List.nodup_singleton _, fun a ha b hb => ?_⟩
          rw [List.map_singleton, List.mem_singleton] at hb
          exact fun hab => hdup (hb ▸ hab ▸ ha)
    by_cases hv : D.valid = true
    · simp only [NavigationSnapshot.addDomain, hv, if_true]
      exact hkeep { N with complete := N.complete && D.complete } ⟨rfl, rfl, rfl, rfl⟩
    · simp only [NavigationSnapshot.addDomain, hv]
      exact hkeep { N.reject .invalidDomain i D.identity with
        complete := (N.reject .invalidDomain i D.identity).complete && D.complete }
        ⟨rfl, rfl, rfl, rfl⟩

theorem domains_addConnection (e : NavigationConnection) (i : ℕ) :
    (N.addConnection e i).domains = N.domains := by
  unfold NavigationSnapshot.addConnection
  by_cases hno : N.connectionError e ≠ .none
  · rw [if_pos hno]
    rfl
  · rw [if_neg hno]

/-- The domains of a snapshot, before its connections are added. -/
theorem composed_domains (domains : List (Option NavigationDomain))
    (connections : List NavigationConnection) (profile : ℕ) :
    (domains.zipIdx.foldl (fun (N : NavigationSnapshot) D => N.addDomain D.1 D.2)
      { connections, profile }).Composed (domains.filterMap id) ∧
    (domains.zipIdx.foldl (fun (N : NavigationSnapshot) D => N.addDomain D.1 D.2)
      { connections, profile }).connections = connections := by
  have hall (l : List (Option NavigationDomain × ℕ)) (N : NavigationSnapshot)
      (hl : ∀ x ∈ l, x.1 ∈ domains) (hN : N.Composed (domains.filterMap id)) :
      (l.foldl (fun N D => N.addDomain D.1 D.2) N).Composed (domains.filterMap id) ∧
        (l.foldl (fun N D => N.addDomain D.1 D.2) N).connections = N.connections := by
    induction l generalizing N with
    | nil => exact ⟨hN, rfl⟩
    | cons x l ih =>
      obtain ⟨h1, h2⟩ := @Composed.addDomain _ _ hN x.1 x.2 fun D hD =>
        List.mem_filterMap.2 ⟨x.1, hl x List.mem_cons_self, hD⟩
      obtain ⟨h3, h4⟩ := ih _ (fun y hy => hl y (List.mem_cons_of_mem _ hy)) h1
      exact ⟨h3, h4.trans h2⟩
  exact hall domains.zipIdx { connections, profile }
    (fun x hx => List.mem_of_getElem? (List.mem_zipIdx_iff_getElem?.1 hx))
    ⟨fun _ h => absurd h List.not_mem_nil, List.nodup_nil, rfl, rfl⟩

/-- **What a snapshot is composed of**: domains that were given, under distinct identities, and
connections that both their ends list. -/
theorem make_spec (domains : List (Option NavigationDomain))
    (connections : List NavigationConnection) (profile : ℕ) :
    (∀ D ∈ (make domains connections profile).domains, some D ∈ domains) ∧
      ((make domains connections profile).domains.map (·.identity)).Nodup ∧
      (make domains connections profile).Indexed connections := by
  obtain ⟨⟨hgiven, hnodup, hbare⟩, hconn⟩ := composed_domains domains connections profile
  unfold make
  generalize domains.zipIdx.foldl (fun (N : NavigationSnapshot) D => N.addDomain D.1 D.2)
    { connections, profile } = N at *
  have hdomains (l : List (NavigationConnection × ℕ)) (N : NavigationSnapshot) :
      (l.foldl (fun N e => N.addConnection e.1 e.2) N).domains = N.domains := by
    induction l generalizing N with
    | nil => rfl
    | cons x l ih => exact (ih _).trans (domains_addConnection x.1 x.2)
  rw [hdomains]
  refine ⟨fun D hD => ?_, hnodup, indexed_foldl _ (fun x hx => ?_) ⟨hconn, ?_, ?_⟩⟩
  · obtain ⟨o, ho, rfl⟩ := List.mem_filterMap.1 (hgiven D hD)
    exact ho
  · obtain ⟨e, i⟩ := x
    exact List.mem_zipIdx_iff_getElem?.1 hx
  · rw [hbare.1]
    exact fun _ _ h => absurd h List.not_mem_nil
  · rw [hbare.2]
    exact fun _ _ h => absurd h List.not_mem_nil

theorem length_positions_add (e : NavigationConnection) (i : ℕ) (l : NavigationLocation)
    (reverse : Bool) :
    ((N.addConnection e i).positions l reverse).length ≤ (N.positions l reverse).length + 1 := by
  unfold NavigationSnapshot.addConnection
  by_cases hno : N.connectionError e ≠ .none
  · rw [if_pos hno]
    exact Nat.le_succ _
  rw [if_neg hno]
  cases reverse with
  | false => exact NavigationGraph.length_appendAt_le N.forward e.fromLocation l i
  | true => exact NavigationGraph.length_appendAt_le N.reverse e.toLocation l i

theorem length_positions_foldl (es : List (NavigationConnection × ℕ)) (l : NavigationLocation)
    (reverse : Bool) :
    ((es.foldl (fun N e => N.addConnection e.1 e.2) N).positions l reverse).length ≤
      (N.positions l reverse).length + es.length := by
  induction es generalizing N with
  | nil => exact le_rfl
  | cons x es ih =>
    have h := length_positions_add (N := N) x.1 x.2 l reverse
    have h' := ih (N := N.addConnection x.1 x.2)
    rw [List.foldl_cons, List.length_cons]
    omega

/-- **Degrees fit their type** when the edges of a domain and the connections do. -/
theorem fits_make (domains : List (Option NavigationDomain))
    (connections : List NavigationConnection) (profile : ℕ)
    (h : ∀ D, some D ∈ domains → ∀ node reverse,
      D.degree node reverse + connections.length ≤ 2 ^ 64 - 1) :
    (make domains connections profile).Fits := by
  obtain ⟨hgiven, -, -⟩ := make_spec domains connections profile
  intro D hD l _ reverse
  have hbound := h D (hgiven D hD) l.node reverse
  have hlen := length_positions_foldl (N := domains.zipIdx.foldl
    (fun (N : NavigationSnapshot) D => N.addDomain D.1 D.2) { connections, profile })
    connections.zipIdx l reverse
  rw [List.length_zipIdx] at hlen
  have hbare : ((domains.zipIdx.foldl (fun (N : NavigationSnapshot) D => N.addDomain D.1 D.2)
      { connections, profile }).positions l reverse).length = 0 := by
    obtain ⟨⟨-, -, hforward, hreverse⟩, -⟩ := composed_domains domains connections profile
    cases reverse with
    | false => exact congrArg (fun f => (f l).length) hforward
    | true => exact congrArg (fun f => (f l).length) hreverse
  rw [hbare, Nat.zero_add] at hlen
  exact (Nat.add_le_add_left hlen _).trans hbound

/-! ### The transitions of a location -/

theorem mem_of_domain? {id : ℕ} {D : NavigationDomain} (h : N.domain? id = some D) :
    D ∈ N.domains ∧ D.identity = id := by
  have hfound := List.find?_some h
  exact ⟨List.mem_of_find?_eq_some h, of_decide_eq_true hfound⟩

theorem exists_domain {l : NavigationLocation} (h : N.contains l = true) :
    ∃ D, N.domain? l.domain = some D ∧ D.contains l.node = true := by
  unfold NavigationSnapshot.contains at h
  cases hD : N.domain? l.domain with
  | none => rw [hD] at h; cases h
  | some D => rw [hD] at h; exact ⟨D, rfl, h⟩

/-- **The transitions of a location** are the edges of its domain and its connections. -/
theorem mem_candidates (hfits : N.Fits) {l : NavigationLocation} {D : NavigationDomain}
    (hD : N.domain? l.domain = some D) {reverse : Bool} {e : NavigationTransition} :
    e ∈ N.candidates l reverse ↔ (∃ x ∈ D.edges l.node reverse, e = transitionOf D x) ∨
      ∃ i ∈ N.positions l reverse, e = N.connectionAt i := by
  obtain ⟨hmem, hid⟩ := mem_of_domain? hD
  have hfit := hfits D hmem l hid.symm reverse
  have hdeg : N.degree l reverse =
      D.degree l.node reverse + (N.positions l reverse).length := by
    simp only [degree, hD, Option.map_some, Option.getD_some]
    rw [if_neg (by omega)]
  have hedge (c : ℕ) : N.edge l c reverse = if c < D.degree l.node reverse then
      transitionOf D (D.edge l.node c reverse) else
      N.connectionAt ((N.positions l reverse).getD (c - D.degree l.node reverse) 0) := by
    simp only [edge, hD]
  simp only [candidates, hdeg, List.mem_map, List.mem_range, NavigationDomain.edges]
  constructor
  · rintro ⟨c, hc, rfl⟩
    rw [hedge]
    split_ifs with hlt
    · exact Or.inl ⟨_, ⟨c, hlt, rfl⟩, rfl⟩
    · have hin : c - D.degree l.node reverse < (N.positions l reverse).length := by omega
      refine Or.inr ⟨_, List.getElem_mem hin, ?_⟩
      rw [List.getD_eq_getElem?_getD, List.getElem?_eq_getElem hin, Option.getD_some]
  · rintro (⟨x, ⟨c, hc, rfl⟩, rfl⟩ | ⟨i, hi, rfl⟩)
    · exact ⟨c, by omega, by rw [hedge, if_pos hc]⟩
    · obtain ⟨c, hc, rfl⟩ := List.mem_iff_getElem.1 hi
      refine ⟨D.degree l.node reverse + c, by omega, ?_⟩
      rw [hedge, if_neg (by omega), Nat.add_sub_cancel_left, List.getD_eq_getElem?_getD,
        List.getElem?_eq_getElem hc, Option.getD_some]

/-- A location of one of the domains is found in it. -/
theorem contains_location {id : ℕ} {D : NavigationDomain} (hD : N.domain? id = some D)
    {node : ℕ} (h : N.contains (D.location node) = true) : D.contains node = true := by
  obtain ⟨D', hD', hin⟩ := exists_domain h
  have hid : (D.location node).domain = id := (mem_of_domain? hD).2
  rw [hid, hD] at hD'
  exact Option.some.inj hD' ▸ hin

/-- **A snapshot of mirrored domains is mirrored.** -/
theorem mirrored_make (domains : List (Option NavigationDomain))
    (connections : List NavigationConnection) (profile : ℕ)
    (hdomains : ∀ D, some D ∈ domains → D.Mirrored)
    (hfits : (make domains connections profile).Fits) :
    (make domains connections profile).Mirrored := by
  obtain ⟨hgiven, -, hindexed⟩ := make_spec domains connections profile
  generalize make domains connections profile = N at *
  have hmirror {id : ℕ} {D : NavigationDomain} (hD : N.domain? id = some D) : D.Mirrored :=
    hdomains D (hgiven D (mem_of_domain? hD).1)
  have hconnection {i : ℕ} {e : NavigationConnection} (he : connections[i]? = some e) :
      (N.connectionAt i).toNavigationConnection = e := by
    rw [connectionAt, hindexed.connections]
    simp [List.getD_eq_getElem?_getD, he]
  refine ⟨fun l hl e he hfrom hto => ?_, fun l hl e he hto hfrom => ?_⟩
  · obtain ⟨D, hD, hin⟩ := exists_domain hl
    obtain ⟨D', hD', -⟩ := exists_domain hto
    rcases (mem_candidates hfits hD).1 he with ⟨x, hx, rfl⟩ | ⟨i, hi, rfl⟩
    · -- an edge of the domain stays in the domain
      have hid : (transitionOf D x).toLocation.domain = l.domain := (mem_of_domain? hD).2
      rw [hid, hD, Option.some.injEq] at hD'
      subst hD'
      have hfrom' : x.fromNode = l.node := congrArg NavigationLocation.node hfrom
      exact (mem_candidates hfits (hid ▸ hD)).2 (Or.inl ⟨x, (hmirror hD).forward _ hin x hx hfrom'
        (contains_location hD hto), rfl⟩)
    · obtain ⟨e, he, -, hr⟩ := hindexed.forward l i hi
      refine (mem_candidates hfits hD').2 (Or.inr ⟨i, ?_, rfl⟩)
      rw [hconnection he]
      exact hr
  · obtain ⟨D, hD, hin⟩ := exists_domain hl
    obtain ⟨D', hD', -⟩ := exists_domain hfrom
    rcases (mem_candidates hfits hD).1 he with ⟨x, hx, rfl⟩ | ⟨i, hi, rfl⟩
    · have hid : (transitionOf D x).fromLocation.domain = l.domain := (mem_of_domain? hD).2
      rw [hid, hD, Option.some.injEq] at hD'
      subst hD'
      have hto' : x.toNode = l.node := congrArg NavigationLocation.node hto
      exact (mem_candidates hfits (hid ▸ hD)).2 (Or.inl ⟨x, (hmirror hD).reverse _ hin x hx hto'
        (contains_location hD hfrom), rfl⟩)
    · obtain ⟨e, he, -, hr⟩ := hindexed.reverse l i hi
      refine (mem_candidates hfits hD').2 (Or.inr ⟨i, ?_, rfl⟩)
      rw [hconnection he]
      exact hr

end NavigationSnapshot

end Tess
