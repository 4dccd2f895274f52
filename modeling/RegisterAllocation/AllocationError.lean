import RegisterAllocation.Verify.Flow

/-!
Why a program cannot be allocated.
-/

namespace RegisterAllocation

inductive AllocationError where
  | unsupported (arch : Arch)
  | outOfRegisters (c : RegisterClass)
  | outOfSlots (budget : Nat)
  | rejected (defects : List AllocationDefect)
  | notAllocated (v : ValueId)
  | notNumbered (i : InstrId)
  | notLive (v : ValueId) (pos : Position) (i : InstrId)
  | spillsFixed (i : IntervalId)
  deriving DecidableEq, Repr

namespace AllocationError

def kind : AllocationError → String
  | unsupported _ => "BackendUnsupported"
  | outOfRegisters _ => "OutOfRegisters"
  | outOfSlots _ => "OutOfStackSlots"
  | rejected _ => "Verifier"
  | notAllocated _ | notNumbered _ | notLive .. | spillsFixed _ => "Other"

def message : AllocationError → String
  | unsupported arch => "no code generation support for " ++ arch.name
  | outOfRegisters c => "out of " ++ c.name ++ " registers"
  | outOfSlots budget => s!"more than {budget} stack slots needed"
  | rejected defects => "checker failed: " ++ AllocationDefect.report defects
  | notAllocated v => ValueId.text v ++ " was not allocated"
  | notNumbered i => InstrId.text i ++ " has no life number"
  | notLive v pos i => ValueId.text v ++ s!" is not live at {pos} (" ++ InstrId.text i ++ ")"
  | spillsFixed i => "spilling fixed interval " ++ IntervalId.text i

/-- Whether more registers or stack slots might help. -/
def isStructural : AllocationError → Bool
  | outOfRegisters _ | outOfSlots _ => true
  | _ => false

end AllocationError

end RegisterAllocation
