import RegisterAllocation.Graph.Dominance

/-!
Well-formed programs: every block is reachable, every value is defined once, at a place that
dominates its uses, operands have the number and class their operation asks for, and blocks end in
the control flow their successors call for.
-/

namespace RegisterAllocation

namespace Graph

inductive Defect where
  | entryHasPreds
  | unreachable (count : Nat)
  | notAResult (v : ValueId)
  | definedTwice (v : ValueId)
  | foreign (i : InstrId) (listedIn owner : BlockId)
  | hasMoves (i : InstrId) (b : BlockId)
  | lateParameter (i : InstrId)
  | latePhi (i : InstrId) (b : BlockId)
  | wrongInputs (i : InstrId) (count expected : Nat)
  | wrongResults (i : InstrId) (count : Nat)
  | undefinedInput (i : InstrId) (v : ValueId)
  | notDominated (i : InstrId) (v : ValueId)
  | illTyped (i : InstrId) (b : BlockId)
  | earlyTerminator (i : InstrId) (b : BlockId)
  | wrongSuccs (b : BlockId) (count expected : Nat)
  deriving DecidableEq, Repr

namespace Defect

def message : Defect → String
  | entryHasPreds => "the entry block has predecessors"
  | unreachable count => s!"{count} blocks are unreachable"
  | notAResult v => ValueId.text v ++ " is not a result of its definition"
  | definedTwice v => ValueId.text v ++ " is defined twice"
  | foreign i listedIn owner =>
    InstrId.text i ++ " is listed in " ++ BlockId.text listedIn ++ " but belongs to "
      ++ BlockId.text owner
  | hasMoves i b => "unexpected spill-fill " ++ InstrId.text i ++ " in " ++ BlockId.text b
  | lateParameter i => "parameter " ++ InstrId.text i ++ " outside of the entry block"
  | latePhi i b =>
    "phi " ++ InstrId.text i ++ " after the first instructions of " ++ BlockId.text b
  | wrongInputs i count expected =>
    InstrId.text i ++ s!" has {count} inputs instead of {expected}"
  | wrongResults i count => InstrId.text i ++ s!" has {count} results"
  | undefinedInput i v => InstrId.text i ++ ": undefined input " ++ ValueId.text v
  | notDominated i v =>
    InstrId.text i ++ ": " ++ ValueId.text v ++ " is used where its definition does not dominate"
  | illTyped i b => InstrId.text i ++ " in " ++ BlockId.text b ++ " does not type check"
  | earlyTerminator i b =>
    "control flow inst " ++ InstrId.text i ++ " in the middle of " ++ BlockId.text b
  | wrongSuccs b count expected =>
    BlockId.text b ++ s!" has {count} successors, its last instruction wants {expected}"

end Defect

def unlessDefect (p : Prop) [Decidable p] (d : Defect) : Attempt Defect Unit :=
  if p then .ok () else refuse d

def typeChecks (g : Graph) (x : Instr) : Except Fault Bool := do
  let types ← g.typesOf x.inputs
  let classes := types.map ValueType.regClass
  let same (a b : Nat) : Except Fault Bool := return (← need classes[a]?) == (← need classes[b]?)
  let isClass (a : Nat) (c : RegisterClass) : Except Fault Bool :=
    return (← need classes[a]?) == c
  match x.opcode with
  | .add | .sub | .mul | .and => return (← same 0 1) && (← isClass 0 x.ty.regClass)
  | .compare _ | .branch _ => same 0 1
  | .select _ => return (← same 0 1) && (← same 2 3) && (← isClass 2 x.ty.regClass)
  | .load | .loadPair | .store => return (← isClass 0 .int) && (← isClass 1 .int)
  | .phi => return classes.all (· == x.ty.regClass)
  | .ret => return x.ty != .void && (← isClass 0 x.ty.regClass)
  | _ => return true

/-- Whether a value is available to operand `k` of an instruction at index `pos` of its block. -/
def isAvailable (g : Graph) (tree : DominatorTree) (x : Instr) (pos k : Nat) (v : ValueId) :
    Except Fault Bool := do
  let d := (← g.value v).definedBy
  let home := (← g.instr d).block
  if x.isPhi then
    match (← g.block x.block).preds[k]? with
    | some pred => tree.dominates home pred
    | none => return false
  else if home = x.block then
    return (← g.positionInBlock d) < pos
  else
    tree.dominates home x.block

def checkInputs (g : Graph) (tree : DominatorTree) (i : InstrId) (x : Instr) (pos : Nat) :
    Attempt Defect Unit :=
  x.inputs.zipIdx.forM fun (v, k) => do
    unlessDefect (v < g.values.size) (.undefinedInput i v)
    unlessDefect ((← g.isAvailable tree x pos k v) = true) (.notDominated i v)

def expectedInputs? (b : Block) (op : Opcode) : Option Nat :=
  if op = .phi then some b.preds.length else op.numInputs?

def checkInstr (g : Graph) (tree : DominatorTree) (b : BlockId) (blk : Block) (pos : Nat)
    (i : InstrId) : Attempt Defect Unit := do
  let x ← g.instr i
  unlessDefect (x.block = b) (.foreign i b x.block)
  unlessDefect (x.isSpillFill = false) (.hasMoves i b)
  unlessDefect (x.opcode ≠ .parameter ∨ b = g.entry) (.lateParameter i)
  if x.isPhi then
    unlessDefect (pos < (← g.numPhis b)) (.latePhi i b)
  match expectedInputs? blk x.opcode with
  | some n => unlessDefect (x.inputs.length = n) (.wrongInputs i x.inputs.length n)
  | none => pure ()
  unlessDefect (x.results.length = x.opcode.numResults x.ty) (.wrongResults i x.results.length)
  g.checkInputs tree i x pos
  unlessDefect ((← g.typeChecks x) = true) (.illTyped i b)
  unlessDefect (x.opcode.isTerminator = false ∨ pos + 1 = blk.instrs.length) (.earlyTerminator i b)

/-- The number of successors a block with this last operation has to have. -/
def expectedSuccs : Option Opcode → Nat
  | some (.branch _) => 2
  | some .ret | some .retVoid => 0
  | _ => 1

def checkBlock (g : Graph) (tree : DominatorTree) (b : BlockId) : Attempt Defect Unit := do
  let blk ← g.block b
  blk.instrs.zipIdx.forM fun (i, pos) => g.checkInstr tree b blk pos i
  let last ← match blk.instrs.getLast? with
    | some i => pure (some (← g.instr i).opcode)
    | none => pure none
  unlessDefect (blk.succs.length = expectedSuccs last)
    (.wrongSuccs b blk.succs.length (expectedSuccs last))

/-- Every value is a result of the instruction that is said to define it. -/
def checkDefinitions (g : Graph) : Attempt Defect Unit :=
  g.values.toList.zipIdx.forM fun (d, v) => do
    unlessDefect (v ∈ (← g.instr d.definedBy).results) (.notAResult v)

def firstRepeated? : (seen : List ValueId) → List ValueId → Option ValueId
  | _, [] => none
  | seen, v :: rest => if v ∈ seen then some v else firstRepeated? (v :: seen) rest

def checkResults (g : Graph) : Attempt Defect Unit :=
  match firstRepeated? [] (g.instrs.toList.flatMap Instr.results) with
  | some v => refuse (.definedTwice v)
  | none => .ok ()

def validate (g : Graph) : Attempt Defect Unit := do
  let tree ← g.dominators
  unlessDefect ((← g.block g.entry).preds = []) .entryHasPreds
  let order ← g.reversePostOrder
  unlessDefect (order.length = g.blocks.size) (.unreachable (g.blocks.size - order.length))
  g.checkDefinitions
  g.checkResults
  order.forM (g.checkBlock tree)

end Graph

end RegisterAllocation
