import RegisterAllocation.Fault
import RegisterAllocation.Text

/-!
Groups of moves placed between instructions. A group starts as a set of moves that happen at once;
once sequenced, its moves are carried out one after the other.
-/

namespace RegisterAllocation

namespace MoveGroup

inductive Purpose where
  | inputFill
  | resultSpill
  | splitMove
  | phiMove
  deriving DecidableEq, Repr

namespace Purpose

def all : List Purpose := [inputFill, resultSpill, splitMove, phiMove]

def name : Purpose → String
  | inputFill => "InputFill"
  | resultSpill => "ResultSpill"
  | splitMove => "SplitMove"
  | phiMove => "PhiMove"

def ofName? (text : String) : Option Purpose := all.find? (·.name == text)

/-- Only moves that serve no particular instruction may be shared. -/
def isShareable : Purpose → Bool
  | splitMove | phiMove => true
  | _ => false

end Purpose

end MoveGroup

structure MoveGroup where
  purpose : MoveGroup.Purpose
  moves : List Move
  sequenced : Bool
  deriving DecidableEq, Repr

namespace MoveGroup

def empty (purpose : Purpose) : MoveGroup := ⟨purpose, [], false⟩

def isEmpty (g : MoveGroup) : Bool := g.moves.isEmpty

def add (g : MoveGroup) (m : Move) : Except Fault MoveGroup := do
  ensure (m.wellShaped = true) .brokenRule
  ensure (g.sequenced = false) .groupClosed
  ensure (m.dst.isImmediate = false ∧ m.dst.isInvalid = false) .brokenRule
  return { g with moves := g.moves ++ [m] }

def addAll (g : MoveGroup) (moves : List Move) : Except Fault MoveGroup :=
  moves.foldlM add g

/-- A group with moves in a given state. Moves that are to happen at once are added one by one;
a sequence is taken as it is. -/
def ofMoves (purpose : Purpose) (moves : List Move) (sequenced : Bool) : Except Fault MoveGroup :=
  if sequenced then .ok ⟨purpose, moves, true⟩ else (empty purpose).addAll moves

/-- Forgets the moves; the group may be filled and sequenced again. -/
def clear (g : MoveGroup) : MoveGroup := { g with moves := [], sequenced := false }

def movesText (g : MoveGroup) : String := Text.list (g.moves.map Move.text)

end MoveGroup

end RegisterAllocation
