import RegisterAllocation.Fault
import RegisterAllocation.Opcode

/-!
What is known of the content of a location: nothing, that it differs between the ways control can
take, or that it is a certain value or constant. A map from locations to symbols is kept as a list
in location order without unknown entries, so equal maps are equal lists.
-/

namespace RegisterAllocation

inductive Symbol where
  | unknown
  | conflicted
  | value (v : ValueId)
  | constant (c : Word)
  deriving DecidableEq, Repr

namespace Symbol

def meet : Symbol → Symbol → Symbol
  | unknown, t => t
  | s, unknown => s
  | conflicted, _ => conflicted
  | _, conflicted => conflicted
  | s, t => if s = t then s else conflicted

def text : Symbol → String
  | unknown => "unknown"
  | conflicted => "conflicted"
  | value v => ValueId.text v
  | constant c => s!"#{c}"

def isDefinite : Symbol → Bool
  | unknown | conflicted => false
  | _ => true

end Symbol

abbrev Knowledge := List (Location × Symbol)

namespace Knowledge

def get (k : Knowledge) (l : Location) : Symbol := (k.lookup l).getD .unknown

def put (l : Location) (s : Symbol) : Knowledge → Knowledge
  | [] => [(l, s)]
  | (k, t) :: rest =>
    if k = l then (l, s) :: rest
    else if l.before k then (l, s) :: (k, t) :: rest
    else (k, t) :: put l s rest

def erase (l : Location) (k : Knowledge) : Knowledge := k.filter (·.1 ≠ l)

def set (k : Knowledge) (l : Location) (s : Symbol) : Knowledge :=
  if s = .unknown then k.erase l else k.put l s

/-- What is known whichever of two ways is taken: a location has to be known on both. -/
def meet (k other : Knowledge) : Knowledge :=
  k.filterMap fun (l, s) => (other.lookup l).map fun t => (l, s.meet t)

def destroy (test : Location → Bool) (k : Knowledge) : Knowledge :=
  k.map fun (l, s) => if test l then (l, .conflicted) else (l, s)

end Knowledge

end RegisterAllocation
