import RegisterAllocation.Generator.Source
import RegisterAllocation.MoveGroup.Sequence

/-!
Groups of moves made from bytes, over a small stack frame and with distinct destinations.
-/

namespace RegisterAllocation

/-- A group of moves to be ordered, with the frame it is meant for. -/
structure MoveProblem where
  arch : Arch
  slots : Nat
  group : MoveGroup
  immediates : Nat
  deriving DecidableEq, Repr

namespace MoveProblem

def numSlots : Nat := 6

def numImmediates : Nat := 4

/-- Locations that moves of a class may use: its first registers, and half of the slots. Scratch
places are left out. -/
def places (target : Target) (c : RegisterClass) : List Location :=
  let half := numSlots / 2
  let firstSlot := target.firstSlot + (match c with
    | .int => 0
    | .float => half)
  let regs := (target.allocatable c).toList.filter fun r => target.tempReg c != some r
  let ofReg : Nat → Location := match c with
    | .int => .register
    | .float => .fpRegister
  (regs.map ofReg).take 8 ++ (List.range half).map fun k => .stackSlot (firstSlot + k)

end MoveProblem

namespace Gen

open MoveProblem

def moveSource (target : Target) (c : RegisterClass) (ls : List Location) : Gen Location := do
  match ← below 8, target.zeroReg, c with
  | 0, _, _ => return .immediate ((← natural 4) % numImmediates)
  | 1, some reg, .int => return .register reg
  | _, _, _ => pick ls

/-- Tries to add one more move; a destination that is already written is passed over. -/
def addMove (target : Target) (group : MoveGroup) : Gen MoveGroup := do
  let (c, ty) := if ← flip then (RegisterClass.int, ValueType.int64) else (.float, .float64)
  let ls := places target c
  let dst ← pick ls
  if group.moves.any (·.dst == dst) then return group
  let src ← moveSource target c ls
  group.add ⟨src, dst, ty⟩

def addMoves (target : Target) : (count : Nat) → MoveGroup → Gen MoveGroup
  | 0, group => return group
  | count + 1, group => do addMoves target count (← addMove target group)

def moveProblem : Gen MoveProblem := do
  let arch ← arch
  let target := Target.ofArch arch
  let group ← addMoves target (← indexBelow 16) (.empty .splitMove)
  return ⟨arch, target.firstSlot + numSlots, group, numImmediates⟩

end Gen

namespace MoveProblem

def ofBytes (bytes : Bytes) : Except Fault MoveProblem := do
  let ((problem, _), _) ← (Gen.moveProblem.run bytes).run (.new "" .none)
  return problem

def solve (p : MoveProblem) : Except Fault MoveGroup :=
  p.group.sequence ⟨p.slots, 0⟩ (.ofArch p.arch)

end MoveProblem

end RegisterAllocation
