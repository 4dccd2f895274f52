import RegisterAllocation.Connection
import RegisterAllocation.MoveGroup.Sequence
import RegisterAllocation.Placement
import RegisterAllocation.Scan.Run

/-!
Register allocation of a program: liveness, scan, placement, connection, sequencing of all groups of
moves, and verification of the result.
-/

namespace RegisterAllocation

structure Summary where
  numSlots : Nat
  numParams : Nat
  numArgs : Nat
  spilled : Nat
  groups : Nat
  edgeBlocks : Nat
  deriving DecidableEq, Repr

namespace Graph

/-- The stack of a program, its outgoing arguments behind the incoming ones. -/
def stackShape (g : Graph) : Except Fault StackShape := do
  return ⟨g.numSlots, ← addWord g.numParams g.numArgs⟩

/-- Sequences the group of an instruction, if it has one that is not sequenced yet. -/
def sequenceInstr (shape : StackShape) (target : Target) (x : Instr) :
    Except Fault (Bool × Instr) := do
  match x.group with
  | none => return (false, x)
  | some group =>
    if group.sequenced then return (false, x)
    return (true, { x with group := some (← group.sequence shape target) })

/-- Puts the moves of all groups in order. Gives the number of groups that were not. -/
def sequenceMoves (g : Graph) : Except Fault (Nat × Graph) := do
  let shape ← g.stackShape
  let instrs ← g.instrs.mapM (sequenceInstr shape g.target)
  return ((instrs.filter Prod.fst).size, { g with instrs := instrs.map Prod.snd })

def setFrame (g : Graph) (f : Frame) : Graph :=
  { g with
    immediates := f.immediates
    numSlots := f.numSlots
    numParams := f.numParams
    numArgs := f.numArgs }

/-- Allocates registers, and gives the program as far as it was changed together with the outcome.
A program changes only once the scan has succeeded. -/
def allocateOrError (g : Graph) (o : Options) :
    Except Fault (Graph × Except AllocationError Summary) := do
  let target := g.target
  if target.convention.isNone then
    return (g, .error (.unsupported g.arch))
  let live ← Liveness.ofGraph g target
  match ← Halt.split (live.scan g target o) with
  | .error e => return (g, .error e)
  | .ok (live, frame) =>
    match ← live.place (g.setFrame frame) target with
    | (g, .error e) => return (g, .error e)
    | (g, .ok ()) =>
      let (edgeBlocks, g) ← live.connect.run g
      let (groups, g) ← g.sequenceMoves
      let defects ← if o.verify then g.allocationDefects else pure []
      if defects.isEmpty then
        return (g, .ok ⟨frame.numSlots, frame.numParams, frame.numArgs, frame.spilled, groups,
          edgeBlocks⟩)
      return (g, .error (.rejected defects))

/-- Allocates registers. Where the options do not allow it, a lack of registers or slots is a
fault. -/
def allocate (g : Graph) (o : Options) :
    Except Fault (Graph × Except AllocationError Summary) := do
  match ← g.allocateOrError o with
  | (g, .error e) =>
    ensure (e.isStructural = false ∨ o.mayFail = true) (.allocationFailed g.name e.message)
    return (g, .error e)
  | done => return done

end Graph

end RegisterAllocation
