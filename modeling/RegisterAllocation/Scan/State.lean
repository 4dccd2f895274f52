import RegisterAllocation.Liveness.Intervals
import RegisterAllocation.Scan.Frame

/-!
The state of a scan over the intervals of one register class in the order of their starts. The
intervals that have a register are kept apart by whether they cover the start of the interval at
hand.
-/

namespace RegisterAllocation

/-- What does not change during the pass over a register class. -/
structure Pass where
  graph : Graph
  target : Target
  regClass : RegisterClass
  regs : RegisterSet
  fixed : List IntervalId

structure Scan where
  pool : IntervalPool
  frame : Frame
  queue : List IntervalId
  active : List IntervalId
  inactive : List IntervalId
  deriving DecidableEq, Repr

def lastPosition : Position := wordLimit - 1

namespace Scan

def start (s : Scan) (id : IntervalId) : Except Fault Position :=
  return (← s.pool.get id).start

/-- Puts an interval into a queue: behind those that start before it, and behind the first one
that starts where it does. -/
def insertByStart (p : IntervalPool) (id : IntervalId) (start : Position) :
    List IntervalId → Except Fault (List IntervalId)
  | [] => return [id]
  | other :: rest => do
    let otherStart := (← p.get other).start
    if otherStart < start then return other :: (← insertByStart p id start rest)
    if otherStart = start then return other :: id :: rest
    return id :: other :: rest

def enqueue (s : Scan) (id : IntervalId) : Except Fault Scan := do
  return { s with queue := ← insertByStart s.pool id (← s.start id) s.queue }

def modify (s : Scan) (id : IntervalId) (f : Interval → Except Fault Interval) :
    Except Fault Scan := do
  return { s with pool := ← s.pool.modify id f }

def splitAt (s : Scan) (id : IntervalId) (pos : Position) : Except Fault (IntervalId × Scan) := do
  let (child, pool) ← s.pool.splitAt id pos
  return (child, { s with pool })

def splitAndQueue (s : Scan) (id : IntervalId) (pos : Position) : Except Fault Scan := do
  let (child, s) ← s.splitAt id pos
  s.enqueue child

def regOf (c : Pass) (s : Scan) (id : IntervalId) : Except Fault (Option Nat) := do
  let l := (← s.pool.get id).location
  return if l.inClass c.regClass then some l.index else none

def assign (s : Scan) (id : IntervalId) (reg : Nat) : Except Fault Scan :=
  s.modify id fun i => i.place (.registerFor reg i.ty)

def spill (c : Pass) (s : Scan) (id : IntervalId) : Attempt AllocationError Scan := do
  let i ← s.pool.get id
  ensure (i.physical = false ∧ i.pinned = false) (.cannotSpill id)
  match i.value with
  | none => refuse (.spillsFixed id)
  | some v =>
    let constant? ← match s.frame.home? v with
      | some _ => pure none
      | none => c.graph.constantOf? v
    let (l, frame) ← s.frame.spill v constant? i.start (← s.pool.chainEnd i.root)
    let frame := { frame with spilled := frame.spilled + 1 }
    { s with frame }.modify id (·.place l)

/-- Sorts the intervals that have a register anew at a position, and drops those that ended. -/
def advance (s : Scan) (pos : Position) : Except Fault Scan := do
  let known ← (s.active ++ s.inactive).mapM fun id => return (id, ← s.pool.get id)
  let current := known.filter (pos < ·.2.stop)
  let (active, inactive) := current.partition (·.2.covers pos)
  return { s with active := active.map Prod.fst, inactive := inactive.map Prod.fst }

/-- From where an interval conflicts with calls. The result of a call is written when the call has
destroyed what it destroys. -/
def callsFrom (c : Pass) (i : Interval) : Except Fault Position := do
  match i.definedBy with
  | none => return i.start
  | some d => return if (← c.graph.instr d).isCall then i.start + 1 else i.start

/-- A register with a position from which it is wanted for something else. -/
abbrev Demand := Nat × Position

/-- The first position from which a register is wanted. -/
def limit (demands : List Demand) (reg : Nat) : Position :=
  demands.foldl (fun pos demand => if demand.1 = reg then min pos demand.2 else pos) lastPosition

/-- The register with the furthest limit, the lowest one if there are several. -/
def furthest (regs : List Nat) (limitOf : Nat → Position) : Option (Nat × Position) :=
  regs.foldl (fun best reg =>
    match best with
    | some (_, pos) => if limitOf reg ≤ pos then best else some (reg, limitOf reg)
    | none => some (reg, limitOf reg)) none

/-- The demands that intervals of a list make on their registers, as given by `demand`. -/
def demandsOf (c : Pass) (s : Scan) (demand : Interval → Option Position) (ids : List IntervalId) :
    Except Fault (List Demand) := do
  let found ← ids.mapM fun id => do
    match ← s.regOf c id with
    | none => return none
    | some reg => return (demand (← s.pool.get id)).map ((reg, ·))
  return found.filterMap id

def callDemands (c : Pass) (s : Scan) (i : Interval) : Except Fault (List Demand) := do
  let lo ← callsFrom c i
  let found ← c.fixed.mapM fun id => do
    let other ← s.pool.get id
    return (other.meets? i lo).map ((other.location.index, ·))
  return found.filterMap id

end Scan

end RegisterAllocation
