import RegisterAllocation.Machine.State

/-!
One step of the machine: an instruction, or falling through to the only successor at the end of a
block.
-/

namespace RegisterAllocation

/-- What a call returns: a mix of its arguments that depends on their order. -/
def callResult (callee : Nat) (args : List Word) : Word :=
  args.foldl (fun acc arg => acc * 31 + arg) (Int64.ofNat callee)

/-- Arithmetic on floats, except for `and`, which works on the bits. -/
def Opcode.apply (op : Opcode) (ty : ValueType) (a b : Word) : Word :=
  if ty.isFloat then
    match op with
    | .add => .ofFloat (a.toFloat + b.toFloat)
    | .sub => .ofFloat (a.toFloat - b.toFloat)
    | .mul => .ofFloat (a.toFloat * b.toFloat)
    | _ => a &&& b
  else
    match op with
    | .add => a + b
    | .sub => a - b
    | .mul => a * b
    | _ => a &&& b

namespace Machine

inductive Next where
  | running (m : Machine)
  | finished (m : Machine)
  deriving DecidableEq, Repr

def input (g : Graph) (m : Machine) (x : Instr) (k : Nat) : Attempt RunError Word :=
  match m.stage with
  | .values => do
    let v ← need x.inputs[k]?
    match ← need m.values[v]? with
    | some w => return w
    | none => refuse (.undefined v)
  | .locations =>
    match x.inputLocations[k]? with
    | some l => m.read g l
    | none => refuse (.noInputLocation k x.opcode)

def setResult (m : Machine) (x : Instr) (k : Nat) (w : Word) : Attempt RunError Machine :=
  match m.stage with
  | .values => do m.setValue (← need x.results[k]?) w
  | .locations =>
    match x.resultLocations[k]? with
    | some l => m.write l w
    | none => refuse (.noResultLocation k x.opcode)

def address (g : Graph) (m : Machine) (x : Instr) : Attempt RunError Nat := do
  let base ← m.input g x 0
  let index ← m.input g x 1
  let addr := base + index
  if 0 ≤ addr ∧ addr.toInt < memorySize then return addr.toNatClampNeg
  refuse (.address addr.toInt)

def test (g : Graph) (m : Machine) (x : Instr) (c : Condition) : Attempt RunError Bool := do
  let a ← m.input g x 0
  let b ← m.input g x 1
  if (← g.typeOf (← need x.inputs.head?)).isFloat then
    return c.holdsFloat a.toFloat b.toFloat
  return c.holds a b

/-- The values of the phis at the head of a list of instructions, for predecessor `k`. -/
def phiValues (g : Graph) (m : Machine) (k : Nat) :
    List InstrId → Attempt RunError (List (ValueId × Word))
  | [] => return []
  | i :: rest => do
    let x ← g.instr i
    if x.isPhi then
      let v ← need x.results.head?
      let w ← m.input g x k
      return (v, w) :: (← m.phiValues g k rest)
    return []

/-- Goes to a successor. On values, its phis take their operands all at once; as allocated, the
moves on the edge have done so already. -/
def enter (g : Graph) (m : Machine) (succ : BlockId) : Attempt RunError Machine :=
  let arrived := { m with block := succ, pc := 0 }
  match m.stage with
  | .locations => .ok arrived
  | .values => do
    let b ← g.block succ
    if m.block ∉ b.preds then
      refuse (.notAPredecessor m.block succ)
    let updates ← m.phiValues g (b.preds.idxOf m.block) b.instrs
    updates.foldlM (fun m (v, w) => m.setValue v w) arrived

def fallThrough (g : Graph) (m : Machine) (b : Block) : Attempt RunError Machine :=
  match b.succs with
  | [succ] => m.enter g succ
  | succs => refuse (.noWayOn m.block succs.length)

def transfer (g : Graph) (m : Machine) (mv : Move) : Attempt RunError Machine := do
  m.write mv.dst (← m.read g mv.src)

/-- The moves of a group: one after the other if it is sequenced, else all reads first. -/
def moveGroup (g : Graph) (m : Machine) (group : MoveGroup) : Attempt RunError Machine := do
  let m := { m with groups := m.groups + 1 }
  if group.sequenced then
    group.moves.foldlM (transfer g) m
  else
    let contents ← group.moves.mapM fun mv => m.read g mv.src
    (group.moves.zip contents).foldlM (fun m (mv, w) => m.write mv.dst w) m

def arguments (g : Graph) (m : Machine) (x : Instr) : Attempt RunError (List Word) :=
  (List.range x.inputs.length).mapM (m.input g x)

def compute (g : Graph) (m : Machine) (x : Instr) : Attempt RunError Machine :=
  match x.opcode with
  | .constant c => m.setResult x 0 c
  | .nullPtr => m.setResult x 0 0
  | .add | .sub | .mul | .and => do
    let a ← m.input g x 0
    let b ← m.input g x 1
    m.setResult x 0 (x.opcode.apply x.ty a b)
  | .compare c => do
    m.setResult x 0 (if ← m.test g x c then 1 else 0)
  | .select c => do
    let w ← if ← m.test g x c then m.input g x 2 else m.input g x 3
    m.setResult x 0 w
  | .load => do
    let addr ← m.address g x
    m.setResult x 0 (← need m.memory[addr]?)
  | .loadPair => do
    let addr ← m.address g x
    if memorySize ≤ addr + 1 then
      refuse (.address (addr + 1))
    let first ← need m.memory[addr]?
    let second ← need m.memory[addr + 1]?
    (← m.setResult x 0 first).setResult x 1 second
  | .store => do
    let addr ← m.address g x
    let w ← m.input g x 2
    return { m with memory := m.memory.setIfInBounds addr w }
  | .call callee => do
    let args ← m.arguments g x
    let m ← if m.stage = .locations then m.clobber g else pure m
    if x.results.isEmpty then return m
    m.setResult x 0 (callResult callee args)
  | .spillFill =>
    match x.group with
    | some group => m.moveGroup g group
    | none => .ok m
  | .parameter | .phi | .branch _ | .ret | .retVoid => .ok m

def execute (g : Graph) (m : Machine) (b : Block) (x : Instr) : Attempt RunError Next :=
  match x.opcode with
  | .branch c => do
    let taken ← m.test g x c
    match b.succs with
    | [yes, no] => return .running (← m.enter g (if taken then yes else no))
    | succs => refuse (.notTwoWays m.block succs.length)
  | .ret => do
    let w ← m.input g x 0
    return .finished { m with result := some w }
  | .retVoid => .ok (.finished m)
  | _ => return .running (← m.compute g x)

def count (m : Machine) (x : Instr) : Machine :=
  { m with
    pc := m.pc + 1
    steps := m.steps + 1
    counted := if x.isSpillFill then m.counted else m.counted + 1 }

def step (g : Graph) (m : Machine) : Attempt RunError Next := do
  let b ← g.block m.block
  match b.instrs[m.pc]? with
  | none => return .running (← m.fallThrough g b)
  | some i =>
    let x ← g.instr i
    let m := m.count x
    if maxSteps < m.counted then
      refuse .tooManySteps
    m.execute g b x

end Machine

end RegisterAllocation
