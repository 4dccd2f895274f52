import RegisterAllocation.AllocationError

/-!
The stack frame and the immediate table, filled as values are spilled. A slot can be used again by
a value that is spilled when the previous owner is no longer needed.
-/

namespace RegisterAllocation

structure Frame where
  numSlots : Nat
  numParams : Nat
  numArgs : Nat
  immediates : List Word
  spilled : Nat
  budget : Nat
  firstSlot : Nat
  slotEnds : List Position
  homes : List (ValueId × Location)
  deriving DecidableEq, Repr

namespace Frame

def ofGraph (g : Graph) (target : Target) (budget : Nat) : Frame where
  numSlots := target.firstSlot
  numParams := 0
  numArgs := 0
  immediates := g.immediates
  spilled := 0
  budget := budget
  firstSlot := target.firstSlot
  slotEnds := []
  homes := []

def home? (f : Frame) (v : ValueId) : Option Location := f.homes.lookup v

def setHome (f : Frame) (v : ValueId) (l : Location) : Frame :=
  { f with homes := (v, l) :: f.homes }

def takeSlot (f : Frame) (start stop : Position) : Attempt AllocationError (Nat × Frame) :=
  let index := f.slotEnds.findIdx (· ≤ start)
  let slot := f.firstSlot + index
  if slot < f.budget then
    let slotEnds :=
      if index < f.slotEnds.length then f.slotEnds.set index stop else f.slotEnds ++ [stop]
    .ok (slot, { f with slotEnds, numSlots := max f.numSlots (slot + 1) })
  else refuse (.outOfSlots f.budget)

/-- Finds a place in memory for a value that is spilled from `start` on: the one it has, its entry
of the immediate table if it is a constant, or else a slot. -/
def spill (f : Frame) (v : ValueId) (constant? : Option Word) (start stop : Position) :
    Attempt AllocationError (Location × Frame) := do
  match f.home? v, constant? with
  | some l, _ => return (l, f)
  | none, some c =>
    let (index, immediates) := Graph.immediateIndex f.immediates c
    let l := Location.immediate index
    return (l, { f with immediates }.setHome v l)
  | none, none =>
    let (slot, f) ← f.takeSlot start stop
    let l := Location.stackSlot slot
    return (l, f.setHome v l)

end Frame

end RegisterAllocation
