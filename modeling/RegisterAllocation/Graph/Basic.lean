import RegisterAllocation.MoveGroup.Basic
import RegisterAllocation.Opcode
import RegisterAllocation.Target

/-!
Programs in single-assignment form: a graph of blocks that list instructions, with tables of the
instructions and of the values they define. The tables are raw data; nothing keeps an index from
naming an entry that does not exist, and looking such an entry up is a fault.
-/

namespace RegisterAllocation

structure Instr where
  opcode : Opcode
  block : BlockId
  ty : ValueType
  inputs : List ValueId
  results : List ValueId
  inputLocations : List Location
  resultLocations : List Location
  group : Option MoveGroup
  deriving DecidableEq, Repr

namespace Instr

def ofOpcode (opcode : Opcode) (block : BlockId) (ty : ValueType) : Instr where
  opcode := opcode
  block := block
  ty := ty
  inputs := []
  results := []
  inputLocations := []
  resultLocations := []
  group := none

def ofGroup (block : BlockId) (group : MoveGroup) : Instr :=
  { ofOpcode .spillFill block .void with group := some group }

def isPhi (x : Instr) : Bool := x.opcode == .phi

def isCall (x : Instr) : Bool := x.opcode.isCall

def isSpillFill (x : Instr) : Bool := x.opcode == .spillFill

def purpose? (x : Instr) : Option MoveGroup.Purpose := x.group.map MoveGroup.purpose

end Instr

structure Definition where
  definedBy : InstrId
  ty : ValueType
  deriving DecidableEq, Repr

structure Block where
  instrs : List InstrId
  preds : List BlockId
  succs : List BlockId
  deriving DecidableEq, Repr

def Block.empty : Block := ⟨[], [], []⟩

structure Graph where
  name : String
  arch : Arch
  blocks : Array Block
  instrs : Array Instr
  values : Array Definition
  entry : BlockId
  immediates : List Word
  numSlots : Nat
  numParams : Nat
  numArgs : Nat
  deriving DecidableEq, Repr

namespace Graph

def new (name : String) (arch : Arch) : Graph where
  name := name
  arch := arch
  blocks := #[.empty]
  instrs := #[]
  values := #[]
  entry := 0
  immediates := []
  numSlots := 0
  numParams := 0
  numArgs := 0

def target (g : Graph) : Target := .ofArch g.arch

def block (g : Graph) (b : BlockId) : Except Fault Block := need g.blocks[b]?

def instr (g : Graph) (i : InstrId) : Except Fault Instr := need g.instrs[i]?

def value (g : Graph) (v : ValueId) : Except Fault Definition := need g.values[v]?

def modifyBlock (g : Graph) (b : BlockId) (f : Block → Block) : Except Fault Graph := do
  let x ← g.block b
  return { g with blocks := g.blocks.setIfInBounds b (f x) }

def modifyInstr (g : Graph) (i : InstrId) (f : Instr → Instr) : Except Fault Graph := do
  let x ← g.instr i
  return { g with instrs := g.instrs.setIfInBounds i (f x) }

def modifyValue (g : Graph) (v : ValueId) (f : Definition → Definition) : Except Fault Graph := do
  let x ← g.value v
  return { g with values := g.values.setIfInBounds v (f x) }

def typeOf (g : Graph) (v : ValueId) : Except Fault ValueType :=
  return (← g.value v).ty

def typesOf (g : Graph) (vs : List ValueId) : Except Fault (List ValueType) :=
  vs.mapM g.typeOf

def constantOf? (g : Graph) (v : ValueId) : Except Fault (Option Word) := do
  return (← g.instr (← g.value v).definedBy).opcode.constant?

def phisAmong (g : Graph) : List InstrId → Except Fault (List InstrId)
  | [] => return []
  | i :: rest => do
    if (← g.instr i).isPhi then return i :: (← g.phisAmong rest) else return []

def phis (g : Graph) (b : BlockId) : Except Fault (List InstrId) := do
  g.phisAmong (← g.block b).instrs

def numPhis (g : Graph) (b : BlockId) : Except Fault Nat :=
  return (← g.phis b).length

def lastInstr? (g : Graph) (b : BlockId) : Except Fault (Option InstrId) :=
  return (← g.block b).instrs.getLast?

def positionInBlock (g : Graph) (i : InstrId) : Except Fault Nat := do
  let b := (← g.instr i).block
  let instrs := (← g.block b).instrs
  ensure (i ∈ instrs) (.notInBlock i b)
  return instrs.idxOf i

def isCritical (g : Graph) (pred succ : BlockId) : Except Fault Bool := do
  let tail ← g.block pred
  if 1 < tail.succs.length then
    return 1 < (← g.block succ).preds.length
  return false

/-- The values that hold the incoming arguments, in calling convention order. -/
def parameters (g : Graph) : Except Fault (List ValueId) := do
  let instrs ← (← g.block g.entry).instrs.mapM g.instr
  return (instrs.filter (·.opcode == .parameter)).flatMap Instr.results

def immediateIndex (immediates : List Word) (c : Word) : Nat × List Word :=
  if c ∈ immediates then (immediates.idxOf c, immediates)
  else (immediates.length, immediates ++ [c])

end Graph

end RegisterAllocation
