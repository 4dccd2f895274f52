import RegisterAllocation.Scan.State

/-!
Finding a register for an interval: one that is free for it, at least up to some position, or else
one that can be taken away from the intervals that need it last. What does not fit is split off and
queued, or sent to memory until its next use.
-/

namespace RegisterAllocation

namespace Scan

def freeDemands (c : Pass) (s : Scan) (i : Interval) : Except Fault (List Demand) := do
  let active ← s.demandsOf c (fun _ => some 0) s.active
  let inactive ← s.demandsOf c (·.meets? i i.start) s.inactive
  return active ++ inactive ++ (← s.callDemands c i)

def hinted? (c : Pass) (i : Interval) (limitOf : Nat → Position) : Option Nat :=
  ((i.hint?.filter (·.inClass c.regClass)).map Location.index).filter fun reg =>
    c.regs.contains reg && i.stop ≤ limitOf reg

/-- Gives an interval a free register, with its rest queued if the register is free for a part of
it only. `none` if no register is free. -/
def tryFree (c : Pass) (s : Scan) (id : IntervalId) : Except Fault (Option Scan) := do
  let i ← s.pool.get id
  let limitOf := limit (← s.freeDemands c i)
  let best := match hinted? c i limitOf with
    | some reg => some (reg, limitOf reg)
    | none => furthest c.regs.toList limitOf
  match best with
  | none => return none
  | some (reg, pos) =>
    if pos ≤ i.start then return none
    if pos < i.stop then
      if gapBefore pos ≤ i.start then return none
      return some (← (← s.splitAndQueue id (gapBefore pos)).assign id reg)
    return some (← s.assign id reg)

/-- Demands that cannot be overridden: those of pinned intervals and of calls. -/
def hardDemands (c : Pass) (s : Scan) (i : Interval) : Except Fault (List Demand) := do
  let active ← s.demandsOf c (fun other => if other.pinned then some 0 else none) s.active
  let inactive ← s.demandsOf c
    (fun other => if other.pinned then other.meets? i i.start else none) s.inactive
  return active ++ inactive ++ (← s.callDemands c i)

/-- Demands of intervals that can be sent to memory, by their next use. -/
def softDemands (c : Pass) (s : Scan) (i : Interval) : Except Fault (List Demand) := do
  let next (other : Interval) := if other.pinned then none else other.nextUse? i.start
  let active ← s.demandsOf c next s.active
  let inactive ← s.demandsOf c
    (fun other => if (other.meets? i i.start).isSome then next other else none) s.inactive
  return active ++ inactive

/-- Sends an interval to memory, up to the gap before its next use, from where it is queued
again. -/
def retire (c : Pass) (s : Scan) (id : IntervalId) : Attempt AllocationError Scan := do
  let i ← s.pool.get id
  match i.nextUse? i.start with
  | none => s.spill c id
  | some use =>
    if i.start < gapBefore use then
      (← s.spill c id).splitAndQueue id (gapBefore use)
    else
      (← s.modify id (·.place .invalid)).enqueue id

/-- Takes its register away from an interval, from right after its last use before `pos` on. -/
def evict (c : Pass) (pos : Position) (s : Scan) (id : IntervalId) :
    Attempt AllocationError Scan := do
  let i ← s.pool.get id
  let splitPos := match i.lastUseBefore? (gapBefore pos) with
    | some last => last + 1
    | none => gapBefore pos
  let (child, s) ← if splitPos ≤ i.start then pure (id, s) else s.splitAt id splitPos
  s.retire c child

def holders (c : Pass) (s : Scan) (reg : Nat) (test : IntervalId → Interval → Bool)
    (ids : List IntervalId) : Except Fault (List IntervalId) :=
  ids.filterM fun id => do
    return (← s.regOf c id) == some reg && test id (← s.pool.get id)

def takeOver (c : Pass) (s : Scan) (id : IntervalId) (start : Position) (reg : Nat)
    (blocked : Position) : Attempt AllocationError Scan := do
  let s ← s.assign id reg
  let s ← if blocked < (← s.pool.get id).stop then s.splitAndQueue id (gapBefore blocked)
    else pure s
  let leaving ← s.holders c reg (fun other _ => other != id) s.active
  let s ← leaving.foldlM (evict c start) { s with active := s.active.filter (· ∉ leaving) }
  let i ← s.pool.get id
  let leaving ← s.holders c reg
    (fun _ other => !other.pinned && (other.meets? i start).isSome) s.inactive
  leaving.foldlM (evict c start) { s with inactive := s.inactive.filter (· ∉ leaving) }

/-- Finds a place for an interval when no register is free: memory if it needs no register, the
register that is needed last if it needs one sooner, or memory up to its first use. -/
def allocateBlocked (c : Pass) (s : Scan) (id : IntervalId) : Attempt AllocationError Scan := do
  let i ← s.pool.get id
  match i.nextUse? i.start with
  | none => s.spill c id
  | some firstUse =>
    let hard ← s.hardDemands c i
    let soft ← s.softDemands c i
    match furthest c.regs.toList (limit (hard ++ soft)) with
    | none => refuse (.outOfRegisters c.regClass)
    | some (reg, pos) =>
      if pos ≤ firstUse then
        if gapBefore firstUse ≤ i.start then refuse (.outOfRegisters c.regClass)
        let (child, s) ← s.splitAt id (gapBefore firstUse)
        (← s.spill c id).enqueue child
      else
        s.takeOver c id i.start reg (limit hard reg)

def placeNext (c : Pass) (s : Scan) (id : IntervalId) : Attempt AllocationError Scan := do
  let s ← s.advance (← s.start id)
  let s ← match ← s.tryFree c id with
    | some s => pure s
    | none => s.allocateBlocked c id
  if (← s.regOf c id).isSome then
    return { s with active := s.active ++ [id] }
  return s

/-- Places the intervals of the queue, none of which starts before one that came earlier. -/
def drain (c : Pass) : (bound : Nat) → (previous : Position) → Scan → Attempt AllocationError Scan
  | bound, previous, s =>
    match s.queue, bound with
    | [], _ => return s
    | _ :: _, 0 => .error (.fault .endless)
    | id :: rest, bound + 1 => do
      let start ← s.start id
      ensure (previous ≤ start) .noProgress
      drain c bound start (← placeNext c { s with queue := rest } id)

/-- At one position every value is queued once, and once more whenever it loses the register it was
just given. The register then goes to a value that needs it strictly sooner. -/
def drainBound (p : IntervalPool) : Nat :=
  let positions := (p.intervals.toList.map Interval.stop).foldl max 0 + 2
  positions * (p.size + RegisterSet.capacity * positions)

end Scan

end RegisterAllocation
