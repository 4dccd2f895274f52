import RegisterAllocation.Graph.Order
import RegisterAllocation.Verify.Symbol

/-!
Verification of allocated programs. Symbols for the values are followed through locations along
all ways that control can take, until what is known at the ends of blocks no longer changes. Then
every operand has to be read from a location that is known to hold it.
-/

namespace RegisterAllocation

inductive AllocationDefect where
  | missingLocations (i : InstrId)
  | incorrectValue (i : InstrId) (k : Nat) (l : Location) (expected : ValueId) (actual : Symbol)
  | unknownSource (i : InstrId) (src : Location) (actual : Symbol)
  | unsequenced (i : InstrId)
  | argumentOverlap (i : InstrId) (l : Location)
  deriving DecidableEq, Repr

namespace AllocationDefect

def kind : AllocationDefect → String
  | missingLocations _ => "MissingLocations"
  | incorrectValue .. => "IncorrectValue"
  | unknownSource .. => "UnknownSource"
  | unsequenced _ => "UnresolvedSpillFill"
  | argumentOverlap .. => "ArgumentOverlap"

def message : AllocationDefect → String
  | missingLocations i => InstrId.text i ++ ": locations missing"
  | incorrectValue i k l expected actual =>
    InstrId.text i ++ s!": input {k} expects " ++ ValueId.text expected ++ " in " ++ l.text
      ++ ", found " ++ actual.text
  | unknownSource i src actual =>
    InstrId.text i ++ ": move from " ++ src.text ++ " holding " ++ actual.text
  | unsequenced i => InstrId.text i ++ ": spill-fill not resolved"
  | argumentOverlap i l => InstrId.text i ++ ": several arguments in " ++ l.text

def report (defects : List AllocationDefect) : String :=
  s!"{defects.length} allocation errors" ++ String.join (defects.map fun d => "\n  " ++ d.message)

end AllocationDefect

namespace Verify

/-- What is known at a point, and the defects met on the way there, latest first. -/
structure Trace where
  known : Knowledge
  defects : List AllocationDefect
  deriving DecidableEq, Repr

def Trace.report (t : Trace) (d : AllocationDefect) : Trace :=
  { t with defects := d :: t.defects }

/-- Immediates and the zero register are known without having been written. -/
def read (g : Graph) (k : Knowledge) (l : Location) : Symbol :=
  if l.isImmediate then
    match g.immediates[l.index]? with
    | some c => .constant c
    | none => .unknown
  else if g.target.isZeroReg l then .constant 0
  else k.get l

def write (g : Graph) (k : Knowledge) (l : Location) (s : Symbol) : Knowledge :=
  if l.isImmediate || l.isInvalid || g.target.isZeroReg l then k else k.set l s

/-- Whether a location that holds a symbol may be read for a value. -/
def holds (g : Graph) (s : Symbol) (v : ValueId) : Except Fault Bool :=
  match s with
  | .value w => .ok (w == v)
  | .constant c => return (← g.constantOf? v) == some c
  | _ => .ok false

def resultSymbol (x : Instr) (v : ValueId) : Symbol :=
  match x.opcode.constant? with
  | some c => .constant c
  | none => .value v

def moveSymbol (g : Graph) (i : InstrId) (t : Trace) (m : Move) (s : Symbol) : Trace :=
  let t := if s.isDefinite then t else t.report (.unknownSource i m.src s)
  { t with known := write g t.known m.dst s }

def group (g : Graph) (i : InstrId) (x : MoveGroup) (t : Trace) : Trace :=
  if x.sequenced then
    x.moves.foldl (fun t m => moveSymbol g i t m (read g t.known m.src)) t
  else
    let sources := x.moves.map fun m => read g t.known m.src
    (x.moves.zip sources).foldl (fun t (m, s) => moveSymbol g i t m s)
      (t.report (.unsequenced i))

def input (g : Graph) (i : InstrId) (t : Trace) (operand : (ValueId × Location) × Nat) :
    Except Fault Trace := do
  let ((v, l), k) := operand
  let actual := read g t.known l
  if ← holds g actual v then return t
  return t.report (.incorrectValue i k l v actual)

/-- Arguments passed in registers that an earlier such argument shares. -/
def overlaps (i : InstrId) :
    (seen : List Location) → List (Location × Location) → List AllocationDefect
  | _, [] => []
  | seen, (l, param) :: rest =>
    if param.isAnyRegister then
      (if l ∈ seen then [.argumentOverlap i l] else []) ++ overlaps i (l :: seen) rest
    else overlaps i seen rest

def isCallerSaved (target : Target) (l : Location) : Bool :=
  match target.convention with
  | none => false
  | some cc =>
    (l.isRegister && (cc.callerSaved .int).contains l.index)
      || (l.isFpRegister && (cc.callerSaved .float).contains l.index)

def call (g : Graph) (i : InstrId) (x : Instr) (t : Trace) : Except Fault Trace := do
  let types ← g.typesOf x.inputs
  let found := match g.target.convention with
    | some cc => overlaps i [] (x.inputLocations.zip (cc.paramLocations types))
    | none => []
  return { known := t.known.destroy (isCallerSaved g.target), defects := found.reverse ++ t.defects }

def instr (g : Graph) (t : Trace) (i : InstrId) : Except Fault Trace := do
  let x ← g.instr i
  if let some moves := x.group then
    return group g i moves t
  if x.isPhi then
    return t
  if x.inputLocations.length ≠ x.inputs.length ∨ x.resultLocations.length ≠ x.results.length then
    return t.report (.missingLocations i)
  let t ← (x.inputs.zip x.inputLocations).zipIdx.foldlM (input g i) t
  let t ← if x.isCall then call g i x t else pure t
  let known := (x.results.zip x.resultLocations).foldl
    (fun k (v, l) => write g k l (resultSymbol x v)) t.known
  return { t with known }

def block (g : Graph) (b : BlockId) (t : Trace) : Except Fault Trace := do
  (← g.block b).instrs.foldlM (instr g) t

/-- What a phi makes known when control comes from predecessor `k`, where `out` is known. -/
def phi? (g : Graph) (out : Knowledge) (k : Nat) (i : InstrId) :
    Except Fault (Option (Location × Symbol)) := do
  let x ← g.instr i
  match x.resultLocations.head?, x.inputs[k]? with
  | some l, some v =>
    if ← holds g (read g out l) v then
      return some (l, .value (← need x.results.head?))
    return some (l, .conflicted)
  | _, _ => return none

/-- What is known at the start of a block when control comes from predecessor `k`. -/
def edge (g : Graph) (out : Knowledge) (succ : BlockId) (k : Nat) : Except Fault Knowledge := do
  let updates ← (← g.phis succ).mapM (phi? g out k)
  return updates.foldl (fun known u =>
    match u with
    | some (l, s) => write g known l s
    | none => known) out

/-- What is known at the ends of blocks; nothing is said of blocks not visited yet. -/
abbrev Exits := Array (Option Knowledge)

/-- What is known at the start of a block, whichever visited predecessor control comes from. -/
def entry (g : Graph) (exits : Exits) (b : BlockId) : Except Fault Knowledge := do
  if b = g.entry then return []
  let merged ← (← g.block b).preds.zipIdx.foldlM (fun merged (pred, k) => do
    match ← need exits[pred]? with
    | none => return merged
    | some out =>
      let known ← edge g out b k
      match merged with
      | none => return some known
      | some other => return some (Knowledge.meet other known)) none
  return merged.getD []

def visit (g : Graph) (exits : Exits) (b : BlockId) : Except Fault Exits := do
  let t ← block g b ⟨← entry g exits b, []⟩
  return exits.setIfInBounds b (some t.known)

def settle (g : Graph) (order : List BlockId) : (bound : Nat) → Exits → Except Fault Exits
  | 0, _ => .error .endless
  | bound + 1, exits => do
    let next ← order.foldlM (visit g) exits
    if next = exits then return exits else settle g order bound next

/-- Knowledge only decreases from visit to visit: a location that is written somewhere goes from a
definite symbol to a conflict and from there to nothing. -/
def settleBound (g : Graph) : Nat :=
  let written := (g.instrs.toList.map fun x =>
    x.resultLocations.length + (x.group.map (·.moves.length)).getD 0).foldr (· + ·) 0
  g.blocks.size * (2 * written + 1) + 2

end Verify

def Graph.allocationDefects (g : Graph) : Except Fault (List AllocationDefect) := do
  let order ← g.reversePostOrder
  let exits ← Verify.settle g order (Verify.settleBound g) (Array.replicate g.blocks.size none)
  let defects ← order.mapM fun b => do
    return (← Verify.block g b ⟨← Verify.entry g exits b, []⟩).defects.reverse
  return defects.flatten

end RegisterAllocation
