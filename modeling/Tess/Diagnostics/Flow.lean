import Mathlib.Data.BitVec

/-!
# Flow accounting

A flow that admits items and retires them updates an attached accountant at every transition.

* `FlowCounters` : what was offered, admitted, refused and terminated, and the time it took;
* `FlowAccounting` : the counters and the clock they are read against;
* `FlowAccounting.terminate` : one item leaves the outstanding set for a terminal bucket.
-/

namespace Tess

/-- Admission and terminal accounting of one flow. -/
@[ext]
structure FlowCounters where
  /-- Admission offers, including rejected and coalesced ones. -/
  offered : BitVec 64 := 0
  /-- Offers accepted as new flow items. -/
  admitted : BitVec 64 := 0
  /-- Offers refused at the admission boundary. -/
  rejected : BitVec 64 := 0
  /-- Offers absorbed by an item that was already pending. -/
  coalescedIntoPending : BitVec 64 := 0
  /-- Items that reached their intended result. -/
  completed : BitVec 64 := 0
  /-- Items explicitly cancelled. -/
  cancelled : BitVec 64 := 0
  /-- Items replaced by a newer admission. -/
  superseded : BitVec 64 := 0
  /-- Items whose result no longer satisfies its version requirement. -/
  stale : BitVec 64 := 0
  /-- Items that terminated in an error state. -/
  failed : BitVec 64 := 0
  /-- Items discarded before reaching any other terminal state. -/
  droppedAfterAdmission : BitVec 64 := 0
  /-- Work units offered through bounded budgets. -/
  offeredWorkUnits : BitVec 64 := 0
  /-- Work units consumed by flow items. -/
  consumedWorkUnits : BitVec 64 := 0
  /-- Admitted, non-terminal items right now. -/
  outstandingCurrent : BitVec 64 := 0
  /-- Highest simultaneous outstanding count observed. -/
  outstandingHighWater : BitVec 64 := 0
  /-- Sum over observed ticks of outstanding items times elapsed ticks. -/
  inventoryTickWeighted : BitVec 64 := 0
  /-- Admission-to-terminal ticks over terminalized items. -/
  residenceTicksAccumulated : BitVec 64 := 0
  /-- Age of the oldest outstanding item, as last observed. -/
  oldestOutstandingAgeTicks : BitVec 64 := 0
  deriving DecidableEq, Repr

namespace FlowCounters

/-- Sum of every terminal outcome bucket. -/
def terminal (c : FlowCounters) : BitVec 64 :=
  c.completed + c.cancelled + c.superseded + c.stale + c.failed + c.droppedAfterAdmission

/-- Every offer was admitted, rejected or coalesced. -/
def admissionIdentityHolds (c : FlowCounters) : Bool :=
  c.offered == c.admitted + c.rejected + c.coalescedIntoPending

/-- Every admitted item is terminal or still outstanding. -/
def retentionIdentityHolds (c : FlowCounters) : Bool :=
  c.admitted == c.terminal + c.outstandingCurrent

end FlowCounters

/-- Terminal outcome buckets. -/
inductive FlowBucket
  | completed
  | cancelled
  | superseded
  | stale
  | failed
  | droppedAfterAdmission
  deriving DecidableEq, Repr

/-- One more item in a terminal bucket. -/
def FlowCounters.bump (c : FlowCounters) : FlowBucket → FlowCounters
  | .completed => { c with completed := c.completed + 1 }
  | .cancelled => { c with cancelled := c.cancelled + 1 }
  | .superseded => { c with superseded := c.superseded + 1 }
  | .stale => { c with stale := c.stale + 1 }
  | .failed => { c with failed := c.failed + 1 }
  | .droppedAfterAdmission => { c with droppedAfterAdmission := c.droppedAfterAdmission + 1 }

/-- Caller-owned accountant of one flow. -/
@[ext]
structure FlowAccounting where
  /-- Accumulated counters. -/
  counters : FlowCounters := {}
  /-- Most recent tick passed to an observation. -/
  lastObservedTick : BitVec 64 := 0
  deriving DecidableEq, Repr

namespace FlowAccounting

variable (a : FlowAccounting)

/-- `observe_tick`: weigh the inventory by the elapsed ticks and advance the clock. -/
def observeTick (tick : BitVec 64) : FlowAccounting :=
  if a.lastObservedTick < tick then
    { counters :=
        { a.counters with
          inventoryTickWeighted := a.counters.inventoryTickWeighted +
            a.counters.outstandingCurrent * (tick - a.lastObservedTick) }
      lastObservedTick := tick }
  else a

/-- `record_admitted`. -/
def recordAdmitted : FlowAccounting :=
  let outstanding := a.counters.outstandingCurrent + 1
  { a with
    counters :=
      { a.counters with
        admitted := a.counters.admitted + 1
        outstandingCurrent := outstanding
        outstandingHighWater :=
          if a.counters.outstandingHighWater < outstanding then outstanding
          else a.counters.outstandingHighWater } }

/-- `record_left_outstanding`: the counter stops at zero. -/
def recordLeftOutstanding : FlowAccounting :=
  if 0 < a.counters.outstandingCurrent then
    { a with
      counters :=
        { a.counters with outstandingCurrent := a.counters.outstandingCurrent - 1 } }
  else a

/-- One item admitted at a tick leaves the outstanding set for a terminal bucket: the three
updates that every terminal transition of a single item makes. -/
def terminate (bucket : FlowBucket) (admittedTick : BitVec 64) : FlowAccounting :=
  let left := recordLeftOutstanding { a with counters := a.counters.bump bucket }
  { left with
    counters :=
      { left.counters with
        residenceTicksAccumulated := left.counters.residenceTicksAccumulated +
          (left.lastObservedTick - admittedTick) } }

end FlowAccounting

end Tess
