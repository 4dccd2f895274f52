import RegisterAllocation.Graph.Basic

/-!
Building and editing programs. An operation names the entries it adds by their indices.
-/

namespace RegisterAllocation

abbrev Build := StateT Graph (Except Fault)

namespace Build

def ask {α : Type} (f : Graph → Except Fault α) : Build α := fun g => return (← f g, g)

def edit (f : Graph → Except Fault Graph) : Build Unit := fun g => return ((), ← f g)

def addBlock : Build BlockId := fun g =>
  return (g.blocks.size, { g with blocks := g.blocks.push .empty })

def addEdge (pred succ : BlockId) : Build Unit := do
  edit (·.modifyBlock pred fun b => { b with succs := b.succs ++ [succ] })
  edit (·.modifyBlock succ fun b => { b with preds := b.preds ++ [pred] })

def addInstr (x : Instr) : Build InstrId := fun g =>
  return (g.instrs.size, { g with instrs := g.instrs.push x })

def addValue (definedBy : InstrId) (ty : ValueType) : Build ValueId := fun g =>
  return (g.values.size, { g with values := g.values.push ⟨definedBy, ty⟩ })

def addResults (i : InstrId) (ty : ValueType) : (count : Nat) → Build Unit
  | 0 => return
  | count + 1 => do
    let v ← addValue i ty
    edit (·.modifyInstr i fun x => { x with results := x.results ++ [v] })
    addResults i ty count

/-- Lists an instruction in a block, at a place between its instructions or at either end. -/
def listAt (b : BlockId) (pos : Nat) (i : InstrId) : Build Unit := do
  let instrs := (← ask (·.block b)).instrs
  ensure (pos ≤ instrs.length) .outOfRange
  edit (·.modifyBlock b fun x => { x with instrs := instrs.insertIdx pos i })

/-- Adds an instruction and its results to a block: a phi behind the phis at its head, anything
else at its end. -/
def append (b : BlockId) (op : Opcode) (ty : ValueType) (inputs : List ValueId) :
    Build InstrId := do
  let i ← addInstr { Instr.ofOpcode op b ty with inputs := inputs }
  addResults i ty (op.numResults ty)
  let pos ← ask fun g =>
    if op = .phi then g.numPhis b else return (← g.block b).instrs.length
  listAt b pos i
  return i

def value (b : BlockId) (op : Opcode) (ty : ValueType) (inputs : List ValueId) :
    Build ValueId := do
  let i ← append b op ty inputs
  need (← ask (·.instr i)).results.head?

def param (ty : ValueType) : Build ValueId := do
  value (← get).entry .parameter ty []

def constant (b : BlockId) (ty : ValueType) (c : Word) : Build ValueId :=
  value b (.constant c) ty []

/-- An operation on two operands. A comparison gives a truth value, anything else a value of the
type of its left operand. -/
def binary (b : BlockId) (op : Opcode) (lhs rhs : ValueId) : Build ValueId := do
  let ty ← match op with
    | .compare _ => pure .bool
    | _ => ask (·.typeOf lhs)
  value b op ty [lhs, rhs]

def phi (b : BlockId) (ty : ValueType) (inputs : List ValueId) : Build ValueId :=
  value b .phi ty inputs

def addPhiInput (phi input : ValueId) : Build Unit := do
  let i := (← ask (·.value phi)).definedBy
  ensure ((← ask (·.instr i)).isPhi = true) .brokenRule
  edit (·.modifyInstr i fun x => { x with inputs := x.inputs ++ [input] })

def call (b : BlockId) (callee : Nat) (ty : ValueType) (args : List ValueId) :
    Build (Option ValueId) := do
  let i ← append b (.call callee) ty args
  return (← ask (·.instr i)).results.head?

def ret (b : BlockId) (v : ValueId) : Build InstrId := do
  append b .ret (← ask (·.typeOf v)) [v]

def addImmediate (c : Word) : Build Nat := fun g =>
  let (index, immediates) := Graph.immediateIndex g.immediates c
  return (index, { g with immediates := immediates })

def insertAt (b : BlockId) (pos : Nat) (x : Instr) : Build InstrId := do
  let i ← addInstr { x with block := b }
  listAt b pos i
  return i

def insertBefore (anchor : InstrId) (x : Instr) : Build InstrId := do
  insertAt (← ask (·.instr anchor)).block (← ask (·.positionInBlock anchor)) x

def insertAfter (anchor : InstrId) (x : Instr) : Build InstrId := do
  insertAt (← ask (·.instr anchor)).block ((← ask (·.positionInBlock anchor)) + 1) x

/-- Changes the group of moves of an instruction, which has to have one. -/
def modifyGroup (i : InstrId) (f : MoveGroup → Except Fault MoveGroup) : Build Unit := do
  let group ← f (← need (← ask (·.instr i)).group)
  edit (·.modifyInstr i fun x => { x with group := some group })

def replaceFirst (old new : BlockId) : List BlockId → List BlockId
  | [] => []
  | b :: rest => if b = old then new :: rest else b :: replaceFirst old new rest

/-- Puts a new empty block on an edge. It takes the place of either end in the lists of the other,
so the operands of phis stay in line with the predecessors. -/
def splitEdge (pred succ : BlockId) : Build BlockId := do
  let b ← addBlock
  ensure (succ ∈ (← ask (·.block pred)).succs) (.noEdge pred succ)
  ensure (pred ∈ (← ask (·.block succ)).preds) (.noEdge pred succ)
  edit (·.modifyBlock pred fun x => { x with succs := replaceFirst succ b x.succs })
  edit (·.modifyBlock succ fun x => { x with preds := replaceFirst pred b x.preds })
  edit (·.modifyBlock b fun x => { x with preds := x.preds ++ [pred], succs := x.succs ++ [succ] })
  return b

end Build

end RegisterAllocation
