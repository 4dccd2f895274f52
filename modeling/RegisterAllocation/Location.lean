import RegisterAllocation.ValueType

/-!
Places where a value can be kept: a kind of place and an index within that kind. Two locations are
the same place exactly when kind and index agree.
-/

namespace RegisterAllocation

namespace Location

inductive Kind where
  | invalid
  | register
  | fpRegister
  | stackSlot
  | stackParameter
  | immediate
  deriving DecidableEq, Repr

def Kind.rank : Kind → Nat
  | invalid => 0
  | register => 1
  | fpRegister => 2
  | stackSlot => 3
  | stackParameter => 4
  | immediate => 5

def Kind.all : List Kind :=
  [invalid, register, fpRegister, stackSlot, stackParameter, immediate]

def Kind.name : Kind → String
  | invalid => "Invalid"
  | register => "Register"
  | fpRegister => "FpRegister"
  | stackSlot => "StackSlot"
  | stackParameter => "StackParameter"
  | immediate => "Immediate"

def Kind.letter : Kind → String
  | invalid => "-"
  | register => "r"
  | fpRegister => "v"
  | stackSlot => "s"
  | stackParameter => "p"
  | immediate => "imm"

end Location

structure Location where
  kind : Location.Kind
  index : Nat
  deriving DecidableEq, Repr

namespace Location

def invalid : Location := ⟨.invalid, 0⟩
def register (n : Nat) : Location := ⟨.register, n⟩
def fpRegister (n : Nat) : Location := ⟨.fpRegister, n⟩
def stackSlot (n : Nat) : Location := ⟨.stackSlot, n⟩
def stackParameter (n : Nat) : Location := ⟨.stackParameter, n⟩
def immediate (n : Nat) : Location := ⟨.immediate, n⟩

def registerFor (n : Nat) (ty : ValueType) : Location :=
  if ty.isFloat then fpRegister n else register n

def isInvalid (l : Location) : Bool := l.kind == .invalid
def isRegister (l : Location) : Bool := l.kind == .register
def isFpRegister (l : Location) : Bool := l.kind == .fpRegister
def isAnyRegister (l : Location) : Bool := l.isRegister || l.isFpRegister
def isStackSlot (l : Location) : Bool := l.kind == .stackSlot
def isStackParameter (l : Location) : Bool := l.kind == .stackParameter
def isStack (l : Location) : Bool := l.isStackSlot || l.isStackParameter
def isImmediate (l : Location) : Bool := l.kind == .immediate

/-- Places a move reads from memory: the stack and the immediate table. -/
def isMemory (l : Location) : Bool := l.isStack || l.isImmediate

def inClass (l : Location) : RegisterClass → Bool
  | .int => l.isRegister
  | .float => l.isFpRegister

def registerNumber? (l : Location) : Option Nat :=
  if l.isAnyRegister then some l.index else none

def text (l : Location) : String :=
  match l.kind with
  | .invalid => "-"
  | k => k.letter ++ toString l.index

def ofText? (text : String) : Option Location :=
  if text = "-" then some invalid
  else
    Kind.all.findSome? fun k =>
      if k ≠ .invalid ∧ text.startsWith k.letter then
        (text.drop k.letter.length).toNat?.map (⟨k, ·⟩)
      else none

def compare (a b : Location) : Ordering :=
  (Ord.compare a.kind.rank b.kind.rank).then (Ord.compare a.index b.index)

def before (a b : Location) : Bool :=
  a.kind.rank < b.kind.rank || (a.kind == b.kind && a.index < b.index)

end Location

end RegisterAllocation
