import RegisterAllocation.Location

/-!
One move of a value from a location to another.
-/

namespace RegisterAllocation

structure Move where
  src : Location
  dst : Location
  ty : ValueType
  deriving DecidableEq, Repr

namespace Move

inductive Action where
  | move
  | spill
  | fill
  | memCopy
  deriving DecidableEq, Repr

def Action.name : Action → String
  | move => "Move"
  | spill => "Spill"
  | fill => "Fill"
  | memCopy => "MemCopy"

def action (m : Move) : Action :=
  match m.src.isAnyRegister, m.dst.isAnyRegister with
  | true, true => .move
  | true, false => .spill
  | false, true => .fill
  | false, false => .memCopy

/-- Whether the two ends are of the kinds the action asks for. -/
def wellShaped (m : Move) : Bool :=
  match m.action with
  | .move => true
  | .spill => m.dst.isStack
  | .fill => m.src.isMemory
  | .memCopy => m.src.isMemory && m.dst.isStack

def text (m : Move) : String :=
  m.action.name ++ "(" ++ m.src.text ++ " -> " ++ m.dst.text ++ "):" ++ m.ty.name

end Move

end RegisterAllocation
