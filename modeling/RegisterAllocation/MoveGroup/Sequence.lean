import RegisterAllocation.MoveGroup.Basic
import RegisterAllocation.Target

/-!
Schedule the moves of a group so that doing them one after the other has the effect of doing them
all at once.

A move whose destination no pending move reads can be done right away, and then the move that
writes the source it has just read, and so on: once a value has been copied, its other readers
read the copy. What is left when no such chain remains are cycles; each is opened by saving one of
its values to a scratch place.
-/

namespace RegisterAllocation

/-- The stack of a function: its own slots, and the parameter slots it reads and writes. -/
structure StackShape where
  slots : Nat
  params : Nat
  deriving DecidableEq, Repr

namespace StackShape

def numPlaces (shape : StackShape) (target : Target) : Except Fault Nat := do
  addWord (← addWord (target.intRegs + target.floatRegs) shape.slots) shape.params

/-- Whether a location is one of the places that can be written. Immediates and the zero register
are not; a register or slot that does not exist is a fault. -/
def isPlace (shape : StackShape) (target : Target) (l : Location) : Except Fault Bool :=
  match l.kind with
  | .register =>
    if target.isZeroReg l then .ok false
    else do ensure (l.index < target.intRegs) (.registerOutOfRange l); return true
  | .fpRegister => do ensure (l.index < target.floatRegs) (.registerOutOfRange l); return true
  | .stackSlot => do ensure (l.index < shape.slots) (.slotOutOfRange l); return true
  | .stackParameter => do ensure (l.index < shape.params) (.slotOutOfRange l); return true
  | .immediate | .invalid => .ok false

end StackShape

namespace MoveGroup

/-- A step of ordering: the moves still to do, the places that hold a copy of what another place
held at first, and the moves done so far, latest first. -/
structure Schedule where
  pending : List Move
  copies : List (Location × Location)
  done : List Move
  deriving DecidableEq, Repr

namespace Schedule

/-- Where the value first held by `l` can be read now. -/
def current (o : Schedule) (l : Location) : Location :=
  (o.copies.lookup l).getD l

def writer? (o : Schedule) (l : Location) : Option Move :=
  o.pending.find? (·.dst == l)

def isRead (o : Schedule) (l : Location) : Bool :=
  o.pending.any (·.src == l)

/-- Does the move that writes `l`, then the one that writes the place it read, as long as there
is one. Every round uses up a pending move, so their number is a sufficient `bound`. -/
def chain (readOnly : Location → Bool) : (bound : Nat) → Location → Schedule → Schedule
  | 0, _, o => o
  | bound + 1, l, o =>
    match o.writer? l with
    | none => o
    | some m =>
      let pending := o.pending.erase m
      if readOnly m.src then { o with pending, done := m :: o.done }
      else
        chain readOnly bound m.src
          { pending
            copies := (m.src, m.dst) :: o.copies
            done := { m with src := o.current m.src } :: o.done }

/-- Starts a chain at a place that a pending move writes and none reads. -/
def release (readOnly : Location → Bool) (o : Schedule) (l : Location) : Schedule :=
  if (o.writer? l).isSome && !o.isRead l then chain readOnly o.pending.length l o else o

/-- Saves the value of a place on a cycle to a scratch place, and does the moves of the cycle. -/
def breakCycle (readOnly : Location → Bool) (temp : ValueType → Location)
    (readType : Location → ValueType) (o : Schedule) (l : Location) : Schedule :=
  if (o.writer? l).isSome then
    let ty := readType l
    chain readOnly o.pending.length l
      { o with
        copies := (l, temp ty) :: o.copies
        done := ⟨o.current l, temp ty, ty⟩ :: o.done }
  else o

end Schedule

def insertLocation (l : Location) : List Location → List Location
  | [] => [l]
  | k :: rest => if l.before k then l :: k :: rest else k :: insertLocation l rest

/-- Each move writes a place of its own and reads something that exists. -/
def checkPlaces (shape : StackShape) (target : Target) :
    (written : List Location) → List Move → Except Fault Unit
  | _, [] => return
  | written, m :: rest => do
    if ← shape.isPlace target m.dst then
      ensure (m.dst ∉ written) (.writtenTwice m.dst)
    else
      throw (.readOnlyWritten m)
    let _ ← shape.isPlace target m.src
    checkPlaces shape target (m.dst :: written) rest

def readType (moves : List Move) (l : Location) : ValueType :=
  ((moves.reverse.find? (·.src == l)).map Move.ty).getD .void

def scratch (target : Target) (ty : ValueType) : Location :=
  (target.tempLocation? ty).getD (.stackSlot 0)

/-- Places that keep their content whatever is written. -/
def isReadOnly (target : Target) (l : Location) : Bool :=
  l.isImmediate || l.isInvalid || target.isZeroReg l

/-- The order in which moves with distinct destinations are done: chains first, then cycles, both
in the order of the destinations. -/
def order (target : Target) (moves : List Move) : List Move :=
  let places := moves.foldr (fun m => insertLocation m.dst) []
  let readOnly := isReadOnly target
  let start : Schedule := ⟨moves, [], []⟩
  let chains := places.foldl (Schedule.release readOnly) start
  let cycles := places.foldl (Schedule.breakCycle readOnly (scratch target) (readType moves)) chains
  cycles.done.reverse

/-- Turns the moves of a group that happen at once into a sequence. -/
def sequence (shape : StackShape) (target : Target) (g : MoveGroup) : Except Fault MoveGroup := do
  ensure (g.sequenced = false) .sequencedTwice
  let moves := g.moves.filter fun m => m.src != m.dst
  let _ ← shape.numPlaces target
  checkPlaces shape target [] moves
  return { g with moves := order target moves, sequenced := true }

end MoveGroup

end RegisterAllocation
