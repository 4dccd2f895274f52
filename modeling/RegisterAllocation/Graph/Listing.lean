import RegisterAllocation.Graph.Order

/-!
Programs as text. A listing that meets a fault keeps the lines before it.
-/

namespace RegisterAllocation

structure Listing where
  lines : List String
  fault : Option Fault
  deriving DecidableEq, Repr

namespace Listing

def ofLines (lines : List String) : Listing := ⟨lines, none⟩

def ofFault (f : Fault) : Listing := ⟨[], some f⟩

def append (a b : Listing) : Listing :=
  match a.fault with
  | some _ => a
  | none => ⟨a.lines ++ b.lines, b.fault⟩

def concat (parts : List Listing) : Listing := parts.foldr append (ofLines [])

def check (l : Listing) : Except Fault (List String) :=
  match l.fault with
  | some f => .error f
  | none => .ok l.lines

end Listing

namespace Instr

def operands (vs : List ValueId) (ls : List Location) : String :=
  ", ".intercalate (vs.mapIdx fun k v =>
    ValueId.text v ++ (match ls[k]? with
      | some l => "(" ++ l.text ++ ")"
      | none => ""))

def text (x : Instr) : String :=
  match x.group with
  | some group => "SpillFill " ++ group.purpose.name ++ " " ++ group.movesText
  | none =>
    (if x.results.isEmpty then "" else operands x.results x.resultLocations ++ " = ")
      ++ x.opcode.text ++ "." ++ x.ty.name
      ++ (if x.inputs.isEmpty then "" else " " ++ operands x.inputs x.inputLocations)

end Instr

namespace Graph

def instrListing (g : Graph) (i : InstrId) : Listing :=
  match g.instr i with
  | .ok x => .ofLines ["  " ++ Text.rightAligned 4 (InstrId.text i) ++ ": " ++ x.text]
  | .error f => .ofFault f

def blockListing (g : Graph) (b : BlockId) : Listing :=
  match g.block b with
  | .ok x =>
    (Listing.ofLines [BlockId.text b ++ ": preds " ++ Text.list (x.preds.map BlockId.text)
      ++ " succs " ++ Text.list (x.succs.map BlockId.text)]).append
      (.concat (x.instrs.map g.instrListing))
  | .error f => .ofFault f

def listing (g : Graph) : Listing :=
  let header := s!"graph {g.name} (" ++ g.arch.name ++ ")"
  let immediates :=
    if g.immediates.isEmpty then []
    else ["  immediates " ++ Text.list (g.immediates.map toString)]
  (Listing.ofLines (header :: immediates)).append
    (match g.reversePostOrder with
      | .ok order => .concat (order.map g.blockListing)
      | .error f => .ofFault f)

end Graph

end RegisterAllocation
