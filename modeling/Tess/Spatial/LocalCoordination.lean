import Tess.Lib.SerialChoice
import Tess.Core.Distance
import Mathlib.Data.List.Sort
import Mathlib.Data.List.FinRange

/-!
# Local move coordination

`resolveLocalMoves` reserves a destination for each mover: movers are served by descending
priority and ascending id, and each takes the destination of least preference that it can enter and
that nobody has claimed.

* `resolveLocalMoves` : the resolver, with its checks, its claims and its congestion counts;
* `WellFormed` : what it accepts;
* `moveMarket` : what it decides, as a market of serial choice.
-/

namespace Tess

open SerialChoice

/-- `LocalMoveRequest`. -/
structure LocalMoveRequest where
  /-- Stable id. -/
  agent : ℕ
  /-- Where the mover is. -/
  fromCoord : Coord3
  /-- Greater ones are served first. -/
  priority : ℕ
  /-- First option. -/
  optionOffset : ℕ
  /-- Number of options. -/
  optionCount : ℕ
  deriving DecidableEq

/-- `LocalMoveOption`; lower preference wins. -/
structure LocalMoveOption where
  /-- The destination. -/
  toCoord : Coord3
  /-- Rank of the destination. -/
  preference : ℤ
  deriving DecidableEq

/-- `LocalMoveDecisionStatus`. -/
inductive LocalMoveDecisionStatus
  | wait
  | reserved
  deriving DecidableEq

/-- `LocalMoveDecision`. -/
structure LocalMoveDecision where
  /-- Id of the mover. -/
  agent : ℕ
  /-- Where it is. -/
  fromCoord : Coord3
  /-- Its destination. -/
  toCoord : Coord3
  /-- Rank of the destination. -/
  preference : ℤ
  /-- Whether the destination is reserved. -/
  status : LocalMoveDecisionStatus
  deriving DecidableEq

/-- `LocalCongestion`. -/
structure LocalCongestion where
  /-- A destination. -/
  coord : Coord3
  /-- Requests that can enter it. -/
  demand : ℕ
  /-- Requests that reserved it. -/
  reserved : ℕ
  deriving DecidableEq

/-- `LocalCoordinationStatus`. -/
inductive LocalCoordinationStatus
  | complete
  | partially
  | invalidInput
  deriving DecidableEq

/-- `LocalCoordinationResult`. -/
structure LocalCoordinationResult where
  /-- Aggregate outcome. -/
  status : LocalCoordinationStatus
  /-- Number of reservations. -/
  reservedCount : ℕ
  /-- A decision for each request. -/
  decisions : List LocalMoveDecision
  /-- Demand for each destination. -/
  congestion : List LocalCongestion
  deriving DecidableEq

/-- Greatest count of a destination. -/
def countMax : ℕ := 2 ^ 32 - 1

/-- `detail::local_coord_less`. -/
def localCoordLess (lhs rhs : Coord3) : Bool :=
  if lhs.x ≠ rhs.x then lhs.x < rhs.x
  else if lhs.y ≠ rhs.y then lhs.y < rhs.y
  else lhs.z < rhs.z

/-! ### The checks -/

/-- Take the options of a range, in order; none when one is taken already. -/
def ownRange (owned : ℕ → Bool) (first : ℕ) : ℕ → Option (ℕ → Bool)
  | 0 => some owned
  | count + 1 => (ownRange owned first count).bind fun owned =>
    if owned (first + count) then none else some (Function.update owned (first + count) true)

/-- The loop over the requests that checks the ranges, among some options. -/
def ownRanges (size : ℕ) : List LocalMoveRequest → (ℕ → Bool) → Option (ℕ → Bool)
  | [], owned => some owned
  | r :: rest, owned =>
    if r.optionOffset > size ∨ r.optionCount > size - r.optionOffset then none
    else (ownRange owned r.optionOffset r.optionCount).bind (ownRanges size rest)

/-- The loop that looks for equal neighbours. -/
def equalNeighbors : List ℕ → Bool
  | a :: b :: rest => a == b || equalNeighbors (b :: rest)
  | _ => false

section Resolver

variable (requests : List LocalMoveRequest) (options : List LocalMoveOption)
  (canEnter : LocalMoveRequest → LocalMoveOption → Bool)

/-- Indices of requests by ascending id. -/
def agentOrder : List (Fin requests.length) :=
  (List.finRange requests.length).mergeSort fun i j =>
    (requests.get i).agent ≤ (requests.get j).agent

/-- A request is served before another. -/
def servedBefore (lhs rhs : LocalMoveRequest) : Bool :=
  if lhs.priority ≠ rhs.priority then lhs.priority > rhs.priority else lhs.agent < rhs.agent

/-- Indices of requests in the order of service. -/
def requestOrder : List (Fin requests.length) :=
  (agentOrder requests).mergeSort fun i j => !servedBefore (requests.get j) (requests.get i)

/-! ### Demand -/

/-- `option_feasible_` and `demand_coords_`. -/
structure DemandScan where
  /-- Options that their mover can enter. -/
  feasible : ℕ → Bool := fun _ => false
  /-- Destinations, once for each request that can enter them. -/
  coords : List Coord3 := []

/-- An option before this one in the range, that its mover can enter, has this destination. -/
def isDuplicate (feasible : ℕ → Bool) (offset j : ℕ) (coord : Coord3) : Bool :=
  (List.range j).any fun previous =>
    feasible (offset + previous) &&
      ((options[offset + previous]?).map LocalMoveOption.toCoord == some coord)

/-- One option of a request. -/
def scanOption (r : LocalMoveRequest) (s : DemandScan) (j : ℕ) : DemandScan :=
  match options[r.optionOffset + j]? with
  | none => s
  | some option =>
    if canEnter r option then
      let feasible := Function.update s.feasible (r.optionOffset + j) true
      { feasible := feasible
        coords :=
          if isDuplicate options feasible r.optionOffset j option.toCoord then s.coords
          else s.coords ++ [option.toCoord] }
    else s

/-- The options of a request. -/
def scanRequest (s : DemandScan) (r : LocalMoveRequest) : DemandScan :=
  (List.range r.optionCount).foldl (scanOption options canEnter r) s

/-- The loop over the requests that notes demand. -/
def scanDemand : DemandScan := requests.foldl (scanRequest options canEnter) {}

/-- One demanded destination, of a sorted list. -/
def noteDemand (congestion : List LocalCongestion) (coord : Coord3) : List LocalCongestion :=
  match congestion.getLast? with
  | none => congestion ++ [⟨coord, 1, 0⟩]
  | some back =>
    if back.coord ≠ coord then congestion ++ [⟨coord, 1, 0⟩]
    else if back.demand ≠ countMax then
      congestion.dropLast ++ [{ back with demand := back.demand + 1 }]
    else congestion

/-- The destinations with their demand. -/
def congestionOf (coords : List Coord3) : List LocalCongestion :=
  (coords.mergeSort fun a b => !localCoordLess b a).foldl noteDemand []

/-! ### Service -/

/-- `std::lower_bound` in a sorted vector: how many elements are less. -/
def lowerBoundBy {α : Type*} (less : α → Bool) (xs : List α) : ℕ := (xs.takeWhile less).length

/-- `std::binary_search` for a destination. -/
def isClaimed (claimed : List Coord3) (coord : Coord3) : Bool :=
  match claimed[lowerBoundBy (fun c => localCoordLess c coord) claimed]? with
  | none => false
  | some c => !localCoordLess coord c

/-- The first option is preferred. -/
def betterOption (lhs rhs : LocalMoveOption) : Bool :=
  lhs.preference < rhs.preference ||
    (lhs.preference == rhs.preference && localCoordLess lhs.toCoord rhs.toCoord)

/-- The option replaces the best one when it is the first or preferred to it. -/
def keepBetter (best : Option LocalMoveOption) (option : LocalMoveOption) :
    Option LocalMoveOption :=
  match best with
  | none => some option
  | some b => if betterOption option b then some option else best

/-- One option of the mover that is served. -/
def considerOption (feasible : ℕ → Bool) (claimed : List Coord3) (r : LocalMoveRequest)
    (best : Option LocalMoveOption) (j : ℕ) : Option LocalMoveOption :=
  match options[r.optionOffset + j]? with
  | none => best
  | some option =>
    if !feasible (r.optionOffset + j) || isClaimed claimed option.toCoord then best
    else keepBetter best option

/-- The option that the mover takes. -/
def bestOption (feasible : ℕ → Bool) (claimed : List Coord3) (r : LocalMoveRequest) :
    Option LocalMoveOption :=
  (List.range r.optionCount).foldl (considerOption options feasible claimed r) none

/-- What service has decided. -/
structure ServiceState (n : ℕ) where
  /-- `claimed_`. -/
  claimed : List Coord3
  /-- `decisions_`. -/
  decisions : Fin n → LocalMoveDecision
  /-- `congestion_`. -/
  congestion : List LocalCongestion
  /-- `reserved_count`. -/
  reservedCount : ℕ

/-- The decision of a mover that waits. -/
def waiting (r : LocalMoveRequest) : LocalMoveDecision :=
  ⟨r.agent, r.fromCoord, r.fromCoord, 0, .wait⟩

/-- The decision of a mover with a destination. -/
def reserving (r : LocalMoveRequest) (chosen : LocalMoveOption) : LocalMoveDecision :=
  ⟨r.agent, r.fromCoord, chosen.toCoord, chosen.preference, .reserved⟩

/-- Count a reservation. -/
def noteReserved (congestion : List LocalCongestion) (coord : Coord3) : List LocalCongestion :=
  let index := lowerBoundBy (fun c : LocalCongestion => localCoordLess c.coord coord) congestion
  match congestion[index]? with
  | none => congestion
  | some c =>
    if c.coord = coord ∧ c.reserved ≠ countMax then
      congestion.set index { c with reserved := c.reserved + 1 }
    else congestion

/-- Serve one request. -/
def serveRequest (feasible : ℕ → Bool) (s : ServiceState requests.length)
    (i : Fin requests.length) : ServiceState requests.length :=
  match bestOption options feasible s.claimed (requests.get i) with
  | none => s
  | some chosen =>
    { claimed := s.claimed.insertIdx
        (lowerBoundBy (fun c => localCoordLess c chosen.toCoord) s.claimed) chosen.toCoord
      decisions := Function.update s.decisions i (reserving (requests.get i) chosen)
      congestion := noteReserved s.congestion chosen.toCoord
      reservedCount := s.reservedCount + 1 }

/-- Serve the requests in order. -/
def serveRequests : ServiceState requests.length :=
  let demand := scanDemand requests options canEnter
  (requestOrder requests).foldl (serveRequest requests options demand.feasible)
    ⟨[], fun i => waiting (requests.get i), congestionOf demand.coords, 0⟩

/-- `resolve_local_moves`. -/
def resolveLocalMoves : LocalCoordinationResult :=
  if (ownRanges options.length requests fun _ => false) = none then ⟨.invalidInput, 0, [], []⟩
  else if equalNeighbors ((agentOrder requests).map fun i => (requests.get i).agent) then
    ⟨.invalidInput, 0, [], []⟩
  else
    let s := serveRequests requests options canEnter
    { status := if s.reservedCount = requests.length then .complete else .partially
      reservedCount := s.reservedCount
      decisions := List.ofFn s.decisions
      congestion := s.congestion }

/-! ### What is accepted and what is decided -/

/-- The option belongs to the request. -/
def LocalMoveRequest.Owns (r : LocalMoveRequest) (k : ℕ) : Prop :=
  r.optionOffset ≤ k ∧ k < r.optionOffset + r.optionCount

/-- **What the resolver accepts**: ranges in bounds and disjoint, and different ids. -/
structure WellFormed : Prop where
  /-- Ranges are in bounds. -/
  bounds : ∀ r ∈ requests, r.optionOffset + r.optionCount ≤ options.length
  /-- Ranges are disjoint. -/
  disjoint : requests.Pairwise fun r r' => ∀ k, r.Owns k → ¬ r'.Owns k
  /-- Ids are different. -/
  agents : (requests.map LocalMoveRequest.agent).Nodup

/-- The request offers the option, and the mover can enter it. -/
def Offered (r : LocalMoveRequest) (option : LocalMoveOption) : Prop :=
  (∃ k, r.Owns k ∧ options[k]? = some option) ∧ canEnter r option = true

/-- **Who is served before whom, and what each may take.** -/
def moveMarket : Market (Fin requests.length) LocalMoveOption Coord3 where
  before i j := servedBefore (requests.get i) (requests.get j) = true
  offers i option := Offered options canEnter (requests.get i) option
  object := LocalMoveOption.toCoord
  better a b := betterOption a b = true
  capacity _ := 1

end Resolver

end Tess
