import RegisterAllocation.Graph.Basic

/-!
The machine that runs programs. A program can be run as it is, with a table of all its values, or
as allocated, where values are only found in the places that instructions name. A place that holds
nothing yet, or whose content a call has destroyed, cannot be read.
-/

namespace RegisterAllocation

inductive Stage where
  | values
  | locations
  deriving DecidableEq, Repr

inductive RunError where
  | argumentCount (given expected : Nat)
  | noConvention (arch : Arch)
  | undefined (v : ValueId)
  | uninitialized (l : Location) (b : BlockId) (pc : Nat)
  | noSuchPlace (l : Location)
  | noImmediate (index : Nat)
  | invalidRead
  | invalidWrite
  | noInputLocation (k : Nat) (op : Opcode)
  | noResultLocation (k : Nat) (op : Opcode)
  | address (addr : Int)
  | notAPredecessor (pred succ : BlockId)
  | noWayOn (b : BlockId) (succs : Nat)
  | notTwoWays (b : BlockId) (succs : Nat)
  | tooManySteps
  deriving DecidableEq, Repr

/-- Bound on the number of instructions a run may execute, groups of moves aside. -/
def maxSteps : Nat := 100000

namespace RunError

def message : RunError → String
  | argumentCount given expected => s!"{given} arguments for {expected} parameters"
  | noConvention arch => "no calling convention for " ++ arch.name
  | undefined v => "read of undefined " ++ ValueId.text v
  | uninitialized l b pc =>
    "read of uninit " ++ l.text ++ " in " ++ BlockId.text b ++ s!" at {pc}"
  | noSuchPlace l => l.text ++ " is outside of the machine"
  | noImmediate index => s!"no immediate #{index}"
  | invalidRead => "read of an invalid location"
  | invalidWrite => "write to an invalid location"
  | noInputLocation k op => s!"no location for input {k} of " ++ op.describe
  | noResultLocation k op => s!"no location for result {k} of " ++ op.describe
  | address addr => s!"invalid address {addr}"
  | notAPredecessor pred succ =>
    BlockId.text pred ++ " is not a predecessor of " ++ BlockId.text succ
  | noWayOn b succs => BlockId.text b ++ s!" ends without a branch and has {succs} successors"
  | notTwoWays b succs => "branch in " ++ BlockId.text b ++ s!" with {succs} successors"
  | tooManySteps => s!"more than {maxSteps} steps"

end RunError

abbrev Bank := Array (Option Word)

def memorySize : Nat := 1024

structure Machine where
  stage : Stage
  target : Target
  block : BlockId
  pc : Nat
  values : Bank
  regs : Bank
  fpRegs : Bank
  slots : Bank
  params : Bank
  memory : Array Word
  steps : Nat
  counted : Nat
  groups : Nat
  result : Option Word
  deriving DecidableEq, Repr

namespace Machine

/-- The bank that a location belongs to, for the kinds that can be written. -/
def bank? (m : Machine) : Location.Kind → Option Bank
  | .register => some m.regs
  | .fpRegister => some m.fpRegs
  | .stackSlot => some m.slots
  | .stackParameter => some m.params
  | .immediate | .invalid => none

def setBank (m : Machine) (k : Location.Kind) (b : Bank) : Machine :=
  match k with
  | .register => { m with regs := b }
  | .fpRegister => { m with fpRegs := b }
  | .stackSlot => { m with slots := b }
  | .stackParameter => { m with params := b }
  | .immediate | .invalid => m

/-- The content of a location. The zero register and the immediates need no writing. -/
def read (g : Graph) (m : Machine) (l : Location) : Attempt RunError Word :=
  if m.target.isZeroReg l then .ok 0
  else
    match m.bank? l.kind with
    | some bank =>
      match bank[l.index]? with
      | some (some w) => .ok w
      | some none => refuse (.uninitialized l m.block m.pc)
      | none => refuse (.noSuchPlace l)
    | none =>
      if l.isInvalid then refuse .invalidRead
      else
        match g.immediates[l.index]? with
        | some w => .ok w
        | none => refuse (.noImmediate l.index)

/-- Writes a location. Writes to the zero register and to immediates vanish. -/
def write (m : Machine) (l : Location) (w : Word) : Attempt RunError Machine :=
  if m.target.isZeroReg l then .ok m
  else
    match m.bank? l.kind with
    | some bank =>
      if l.index < bank.size then .ok (m.setBank l.kind (bank.setIfInBounds l.index (some w)))
      else refuse (.noSuchPlace l)
    | none => if l.isInvalid then refuse .invalidWrite else .ok m

def forget (saved : RegisterSet) (bank : Bank) : Bank :=
  bank.mapIdx fun reg content => if saved.contains reg then none else content

def clobber (g : Graph) (m : Machine) : Attempt RunError Machine :=
  match m.target.convention with
  | none => refuse (.noConvention g.arch)
  | some cc =>
    .ok { m with
      regs := forget (cc.callerSaved .int) m.regs
      fpRegs := forget (cc.callerSaved .float) m.fpRegs }

def setValue (m : Machine) (v : ValueId) (w : Word) : Except Fault Machine := do
  ensure (v < m.values.size) .outOfRange
  return { m with values := m.values.setIfInBounds v (some w) }

/-- Programs without a machine of their own still run on values. -/
def targetFor (g : Graph) : Stage → Target
  | .values => if g.arch = .none then .aarch64 else g.target
  | .locations => g.target

def blank (g : Graph) (stage : Stage) (numParams : Nat) : Machine :=
  let target := targetFor g stage
  { stage
    target
    block := g.entry
    pc := 0
    values := Array.replicate g.values.size none
    regs := Array.replicate target.intRegs none
    fpRegs := Array.replicate target.floatRegs none
    slots := Array.replicate g.numSlots none
    params := Array.replicate numParams none
    memory := Array.replicate memorySize 0
    steps := 0
    counted := 0
    groups := 0
    result := none }

/-- The machine at the entry of a program, with the arguments where the program looks for them. -/
def start (g : Graph) (args : List Word) (stage : Stage) : Attempt RunError Machine := do
  let params ← g.parameters
  if params.length ≠ args.length then
    refuse (.argumentCount args.length params.length)
  match stage with
  | .values =>
    (params.zip args).foldlM (fun m (v, w) => m.setValue v w) (blank g .values 0)
  | .locations =>
    let types ← g.typesOf params
    match g.target.convention with
    | none => refuse (.noConvention g.arch)
    | some cc =>
      let places := cc.paramLocations types
      let numParams := (places.filter Location.isStackParameter).length + g.numArgs
      (places.zip args).foldlM (fun m (l, w) => m.write l w) (blank g .locations numParams)

end Machine

end RegisterAllocation
