import RegisterAllocation.Graph.Build
import RegisterAllocation.Liveness.Intervals
import RegisterAllocation.AllocationError

/-!
Writing the locations that intervals were given into the instructions. An operand is read where its
value is just before the instruction, a result is written where its value starts out. A call has
its arguments moved to where the calling convention wants them; those passed on the stack go behind
the incoming parameters, unless they are in memory already and can be passed from there.
-/

namespace RegisterAllocation

namespace Placement

/-- A group of moves to put next to an instruction. -/
structure Insertion where
  anchor : InstrId
  before : Bool
  group : MoveGroup
  deriving DecidableEq, Repr

def rootLocation (l : Liveness) (v : ValueId) : Attempt AllocationError Location :=
  match l.intervalOf? v with
  | none => refuse (.notAllocated v)
  | some root => do
    let place := (← l.pool.get root).location
    if place.isInvalid then refuse (.notAllocated v) else return place

def inputLocation (l : Liveness) (i : InstrId) (pos : Position) (v : ValueId) :
    Attempt AllocationError Location := do
  match ← l.locationAt v (pos - 1) with
  | some place => return place
  | none => refuse (.notLive v (pos - 1) i)

/-- Where an argument has to be for a call, if it is kept at `place` and the convention passes it
at `param`. -/
def argumentLocation (g : Graph) (place param : Location) : Location :=
  if param.isAnyRegister then param
  else if place.isMemory then place
  else .stackParameter (g.numParams + param.index)

/-- Brings arguments into place. Gives the places and the moves to get there. -/
def arguments (g : Graph) : List (Location × Location × ValueType) → MoveGroup →
    Except Fault (List Location × MoveGroup)
  | [], moves => return ([], moves)
  | (place, param, ty) :: rest, moves => do
    let dst := argumentLocation g place param
    let moves ← if place = dst then pure moves else moves.add ⟨place, dst, ty⟩
    let (places, moves) ← arguments g rest moves
    return (dst :: places, moves)

/-- The places of the operands and results of an instruction, and the moves it needs. -/
structure Sites where
  inputs : List Location
  results : List Location
  insertions : List Insertion
  deriving DecidableEq, Repr

def callSites (g : Graph) (l : Liveness) (cc : CallingConvention) (i : InstrId) (x : Instr)
    (places : List Location) : Attempt AllocationError Sites := do
  let types ← g.typesOf x.inputs
  let (inputs, fills) ← arguments g (places.zip ((cc.paramLocations types).zip types))
    (.empty .inputFill)
  let before := if fills.isEmpty then [] else [⟨i, true, fills⟩]
  match x.results.head? with
  | none => return ⟨inputs, [], before⟩
  | some v =>
    let ret := cc.returnLocation x.ty
    let place ← rootLocation l v
    if place = ret then return ⟨inputs, [ret], before⟩
    let spill ← (MoveGroup.empty .resultSpill).add ⟨ret, place, x.ty⟩
    return ⟨inputs, [ret], before ++ [⟨i, false, spill⟩]⟩

def sites (g : Graph) (l : Liveness) (target : Target) (i : InstrId) (x : Instr) :
    Attempt AllocationError Sites := do
  if x.isPhi then
    let place ← rootLocation l (← need x.results.head?)
    return ⟨List.replicate x.inputs.length place, [place], []⟩
  match l.numbering.numberOf? i with
  | none => refuse (.notNumbered i)
  | some pos =>
    let places ← x.inputs.mapM (inputLocation l i pos)
    if x.isCall then
      match target.convention with
      | none => refuse (.unsupported g.arch)
      | some cc => callSites g l cc i x places
    else
      return ⟨places, ← x.results.mapM (rootLocation l), []⟩

def placeInstr (g : Graph) (l : Liveness) (target : Target) (i : InstrId) :
    Attempt AllocationError (Graph × List Insertion) := do
  let s ← sites g l target i (← g.instr i)
  let g ← g.modifyInstr i fun x =>
    { x with inputLocations := s.inputs, resultLocations := s.results }
  return (g, s.insertions)

/-- Places instructions one after the other. If one of them cannot be placed, those before it
are. -/
def placeInstrs (l : Liveness) (target : Target) : List InstrId → Graph → List Insertion →
    Except Fault (Graph × Except AllocationError (List Insertion))
  | [], g, insertions => return (g, .ok insertions)
  | i :: rest, g, insertions =>
    match placeInstr g l target i with
    | .ok (g, more) => placeInstrs l target rest g (insertions ++ more)
    | .error (.error e) => return (g, .error e)
    | .error (.fault f) => .error f

def insert (n : Insertion) : Build Unit := do
  let x := Instr.ofGroup 0 n.group
  let _ ← if n.before then Build.insertBefore n.anchor x else Build.insertAfter n.anchor x

end Placement

/-- Writes the locations of a scan into a program and adds the moves around calls. -/
def Liveness.place (l : Liveness) (g : Graph) (target : Target) :
    Except Fault (Graph × Except AllocationError Unit) := do
  let instrs := (← l.numbering.order.mapM g.block).flatMap Block.instrs
  match ← Placement.placeInstrs l target instrs g [] with
  | (g, .error e) => return (g, .error e)
  | (g, .ok insertions) =>
    let ((), g) ← (insertions.forM Placement.insert).run g
    return (g, .ok ())

end RegisterAllocation
