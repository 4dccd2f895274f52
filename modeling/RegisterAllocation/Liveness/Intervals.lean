import RegisterAllocation.Interval.Pool
import RegisterAllocation.Liveness.Flow
import RegisterAllocation.Liveness.Numbering

/-!
The intervals of a program. Every value has one that covers the positions at which it is live, with
a use at its definition and at each instruction that reads it; every register that calls destroy
has one that covers the calls. They are built backwards: a value live at the end of a block covers
the whole block, and its definition then cuts off what comes before.
-/

namespace RegisterAllocation

structure Liveness where
  numbering : Numbering
  liveIn : Array ValueSet
  pool : IntervalPool
  roots : Array (Option IntervalId)
  physical : List IntervalId
  deriving DecidableEq, Repr

/-- Whether an operand has to be in a register, and where it had better be. -/
def Instr.inputUse (g : Graph) (target : Target) (x : Instr) (k : Nat) (pos : Position) :
    Except Fault Use :=
  match x.opcode with
  | .phi => .ok ⟨pos, false, none⟩
  | .call _ =>
    match target.convention with
    | none => .ok ⟨pos, false, none⟩
    | some cc => do
      let places := cc.paramLocations (← g.typesOf x.inputs)
      return ⟨pos, false, places[k]?.filter Location.isAnyRegister⟩
  | .ret => .ok ⟨pos, true, target.convention.map (·.returnLocation x.ty)⟩
  | _ => .ok ⟨pos, true, none⟩

/-- Whether a result is written to a register, and where it had better be. -/
def Instr.resultUse (target : Target) (x : Instr) (pos : Position) : Use :=
  match x.opcode with
  | .phi | .parameter | .constant _ | .nullPtr => ⟨pos, false, none⟩
  | .call _ => ⟨pos, false, target.convention.map (·.returnLocation x.ty)⟩
  | _ => ⟨pos, true, none⟩

namespace Liveness

def intervalOf? (l : Liveness) (v : ValueId) : Option IntervalId := l.roots[v]?.join

def locationAt (l : Liveness) (v : ValueId) (pos : Position) : Except Fault (Option Location) :=
  match l.intervalOf? v with
  | none => .ok none
  | some root => l.pool.locationAt root pos

/-- The intervals of a program under construction. -/
structure Draft where
  pool : IntervalPool
  roots : Array (Option IntervalId)
  registers : List (Location × IntervalId)
  deriving DecidableEq, Repr

namespace Draft

def addValue (g : Graph) (i : InstrId) (d : Draft) (v : ValueId) : Except Fault Draft := do
  let (id, pool) := d.pool.addValue v (← g.typeOf v) i
  return { d with pool, roots := d.roots.setIfInBounds v (some id) }

/-- One interval for each result of the reachable instructions. -/
def ofGraph (g : Graph) (order : List BlockId) : Except Fault Draft := do
  let instrs := (← order.mapM g.block).flatMap Block.instrs
  instrs.foldlM (fun d i => do (← g.instr i).results.foldlM (addValue g i) d)
    ⟨.empty, Array.replicate g.values.size none, []⟩

def root (d : Draft) (v : ValueId) : Except Fault IntervalId := do
  match ← need d.roots[v]? with
  | some id => return id
  | none => .error (.neverDefined v)

def modifyRoot (d : Draft) (v : ValueId) (f : Interval → Except Fault Interval) :
    Except Fault Draft := do
  return { d with pool := ← d.pool.modify (← d.root v) f }

def addResult (target : Target) (x : Instr) (pos : Position) (d : Draft) (v : ValueId) :
    Except Fault Draft :=
  d.modifyRoot v fun i => return (← i.startAt pos).addUse (x.resultUse target pos)

def addInput (g : Graph) (target : Target) (start : Position) (x : Instr) (pos : Position)
    (d : Draft) (operand : ValueId × Nat) : Except Fault Draft := do
  let use ← x.inputUse g target operand.2 pos
  d.modifyRoot operand.1 fun i => do
    let i ← if start < pos then i.addRange start pos else pure i
    return i.addUse use

def blockRegister (pos : Position) (ty : ValueType) (d : Draft) (reg : Nat) :
    Except Fault Draft := do
  let l := Location.registerFor reg ty
  let (id, d) := match d.registers.lookup l with
    | some id => (id, d)
    | none =>
      let (id, pool) := d.pool.addRegister l ty
      (id, { d with pool, registers := (l, id) :: d.registers })
  return { d with pool := ← d.pool.modify id (·.addRange pos (pos + 1)) }

/-- The type that stands for a whole class of registers. -/
def fullType : RegisterClass → ValueType
  | .int => .int64
  | .float => .float64

def blockClass (target : Target) (cc : CallingConvention) (pos : Position) (d : Draft)
    (c : RegisterClass) : Except Fault Draft :=
  ((cc.callerSaved c).toList.filter (· < target.numRegs c)).foldlM
    (blockRegister pos (fullType c)) d

def addInstr (g : Graph) (target : Target) (n : Numbering) (start : Position) (i : InstrId)
    (d : Draft) : Except Fault Draft := do
  let x ← g.instr i
  if x.isPhi then
    return ← x.results.foldlM (fun d v => d.modifyRoot v (·.startAt start)) d
  let pos ← need (n.numberOf? i)
  let d ← x.results.foldlM (addResult target x pos) d
  let d ← x.inputs.zipIdx.foldlM (addInput g target start x pos) d
  match x.isCall, target.convention with
  | true, some cc => RegisterClass.all.foldlM (blockClass target cc pos) d
  | _, _ => return d

def addBlock (g : Graph) (target : Target) (n : Numbering) (sets : LiveSets) (b : BlockId)
    (d : Draft) : Except Fault Draft := do
  let range ← need (n.rangeOf? b)
  let d ← (← need sets.liveOut[b]?).foldlM
    (fun d v => d.modifyRoot v (·.addRange range.start range.stop)) d
  (← g.block b).instrs.foldrM (addInstr g target n range.start) d

/-- The intervals of the registers, in register order. -/
def physical (target : Target) (d : Draft) : List IntervalId :=
  RegisterClass.all.flatMap fun c =>
    (List.range (target.numRegs c)).filterMap fun reg =>
      d.registers.lookup (.registerFor reg (fullType c))

end Draft

def ofGraph (g : Graph) (target : Target) : Except Fault Liveness := do
  let n ← Numbering.ofGraph g
  let sets ← LiveSets.ofGraph g n.order
  let d ← n.order.foldrM (Draft.addBlock g target n sets) (← Draft.ofGraph g n.order)
  return ⟨n, sets.liveIn, d.pool, d.roots, d.physical target⟩

end Liveness

end RegisterAllocation
