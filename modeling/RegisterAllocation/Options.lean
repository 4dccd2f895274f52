import RegisterAllocation.Target

/-!
What the allocator is allowed to use.
-/

namespace RegisterAllocation

structure Options where
  ints : Option RegisterSet
  floats : Option RegisterSet
  slotBudget : Nat
  mayFail : Bool
  verify : Bool
  deriving DecidableEq, Repr

namespace Options

def default : Options where
  ints := none
  floats := none
  slotBudget := 256
  mayFail := true
  verify := true

def registers (o : Options) (target : Target) (c : RegisterClass) : RegisterSet :=
  let given := match c with
    | .int => o.ints
    | .float => o.floats
  match given with
  | some s => (target.allocatable c).inter s
  | none => target.allocatable c

end Options

end RegisterAllocation
