import RegisterAllocation.Interval.Basic

/-!
All intervals of a program. Splitting an interval adds a sibling at the end of the pool and links
it in behind the interval it was split off from, so the siblings of a value form a chain in
increasing position order.
-/

namespace RegisterAllocation

structure IntervalPool where
  intervals : Array Interval
  deriving DecidableEq, Repr

namespace IntervalPool

def empty : IntervalPool := ⟨#[]⟩

def size (p : IntervalPool) : Nat := p.intervals.size

def get (p : IntervalPool) (id : IntervalId) : Except Fault Interval := need p.intervals[id]?

def set (p : IntervalPool) (id : IntervalId) (i : Interval) : IntervalPool :=
  ⟨p.intervals.setIfInBounds id i⟩

def modify (p : IntervalPool) (id : IntervalId) (f : Interval → Except Fault Interval) :
    Except Fault IntervalPool := do
  return p.set id (← f (← p.get id))

def addValue (p : IntervalPool) (value : ValueId) (ty : ValueType) (definedBy : InstrId) :
    IntervalId × IntervalPool :=
  (p.size, ⟨p.intervals.push (.ofValue p.size value ty definedBy)⟩)

def addRegister (p : IntervalPool) (l : Location) (ty : ValueType) : IntervalId × IntervalPool :=
  (p.size, ⟨p.intervals.push (.ofRegister p.size l ty)⟩)

/-- Ends an interval at `pos` and gives the rest of it to a new sibling. At or before its start
there is nothing to split, and the interval itself is the answer. -/
def splitAt (p : IntervalPool) (id : IntervalId) (pos : Position) :
    Except Fault (IntervalId × IntervalPool) := do
  let i ← p.get id
  ensure (i.physical = false) .splitsFixed
  if pos ≤ i.start then
    return (id, p)
  ensure (pos < i.stop) (.splitOutOfRange i.text pos)
  let kept := { i.upTo pos with sibling := some p.size }
  return (p.size, ⟨(p.set id kept).intervals.push (i.rest pos)⟩)

/-- The siblings from an interval on. A chain visits no interval twice, so `bound` may be the
size of the pool. -/
def chainWithin (p : IntervalPool) : (bound : Nat) → IntervalId → Except Fault (List IntervalId)
  | 0, _ => .error .endless
  | bound + 1, id => do
    let i ← p.get id
    match i.sibling with
    | none => return [id]
    | some next => return id :: (← p.chainWithin bound next)

def chain (p : IntervalPool) (first : IntervalId) : Except Fault (List IntervalId) :=
  p.chainWithin (p.size + 1) first

def findIn (p : IntervalPool) (test : Interval → Bool) :
    List IntervalId → Except Fault (Option IntervalId)
  | [] => return none
  | id :: rest => do
    if test (← p.get id) then return some id else p.findIn test rest

def siblingAt (p : IntervalPool) (root : IntervalId) (pos : Position) :
    Except Fault (Option IntervalId) := do
  p.findIn (·.covers pos) (← p.chain root)

def locationAt (p : IntervalPool) (root : IntervalId) (pos : Position) :
    Except Fault (Option Location) := do
  match ← p.siblingAt root pos with
  | none => return none
  | some id => return some (← p.get id).location

/-- Splits the sibling from `root` on that has `pos` strictly inside, holes included. -/
def splitChain (p : IntervalPool) (root : IntervalId) (pos : Position) :
    Except Fault (Option IntervalId × IntervalPool) := do
  match ← p.findIn (fun i => i.start < pos && pos < i.stop) (← p.chain root) with
  | none => return (none, p)
  | some id =>
    let (child, p) ← p.splitAt id pos
    return (some child, p)

def chainEnd (p : IntervalPool) (first : IntervalId) : Except Fault Position := do
  match (← p.chain first).getLast? with
  | none => return 0
  | some last => return (← p.get last).stop

def ids (p : IntervalPool) : List IntervalId := List.range p.size

/-- Gives every interval without a location a stack slot of its own, from slot `base` on, and
counts those intervals. -/
def fillSlots (p : IntervalPool) (base : Nat) : Except Fault (Nat × IntervalPool) :=
  p.ids.foldlM (fun (count, q) id => do
    if (← q.get id).isPlaced then return (count, q)
    let slot ← addWord base id
    return (count + 1, ← q.modify id (·.place (.stackSlot slot)))) (0, p)

def text (p : IntervalPool) : String :=
  Text.ofLines (p.intervals.toList.mapIdx fun id i => IntervalId.text id ++ ": " ++ i.text)

@[simp] theorem size_set (p : IntervalPool) (id : IntervalId) (i : Interval) :
    (p.set id i).size = p.size := by
  simp [set, size]

end IntervalPool

end RegisterAllocation
