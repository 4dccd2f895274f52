import RegisterAllocation.ValueType

/-!
What instructions do: the operations, how many operands they take and results they give, and the
conditions that comparisons and branches test.
-/

namespace RegisterAllocation

/-- The words programs compute with; a float is the word with its bits. -/
abbrev Word := Int64

namespace Word

def toFloat (w : Word) : Float := Float.ofBits w.toUInt64

def ofFloat (f : Float) : Word := f.toBits.toInt64

end Word

inductive Condition where
  | eq
  | ne
  | lt
  | le
  | gt
  | ge
  deriving DecidableEq, Repr

namespace Condition

def all : List Condition := [eq, ne, lt, le, gt, ge]

def name : Condition → String
  | eq => "Eq"
  | ne => "Ne"
  | lt => "Lt"
  | le => "Le"
  | gt => "Gt"
  | ge => "Ge"

def ofName? (text : String) : Option Condition := all.find? (·.name == text)

def holds (c : Condition) (a b : Word) : Bool :=
  match c with
  | eq => a == b
  | ne => a != b
  | lt => a < b
  | le => a ≤ b
  | gt => b < a
  | ge => b ≤ a

/-- Comparisons with a value that is not a number fail, except for `ne`. -/
def holdsFloat (c : Condition) (a b : Float) : Bool :=
  match c with
  | eq => a == b
  | ne => a != b
  | lt => a < b
  | le => a ≤ b
  | gt => b < a
  | ge => b ≤ a

end Condition

inductive Opcode where
  | parameter
  | constant (c : Word)
  | nullPtr
  | add
  | sub
  | mul
  | and
  | compare (cond : Condition)
  | select (cond : Condition)
  | load
  | loadPair
  | store
  | call (callee : Nat)
  | branch (cond : Condition)
  | phi
  | ret
  | retVoid
  | spillFill
  deriving DecidableEq, Repr

namespace Opcode

def numResults (op : Opcode) (ty : ValueType) : Nat :=
  match op with
  | loadPair => 2
  | call _ => if ty = .void then 0 else 1
  | store | branch _ | ret | retVoid | spillFill => 0
  | _ => 1

def numInputs? : Opcode → Option Nat
  | parameter | constant _ | nullPtr | retVoid | spillFill => some 0
  | ret => some 1
  | add | sub | mul | and | compare _ | load | loadPair | branch _ => some 2
  | store => some 3
  | select _ => some 4
  | call _ | phi => none

def isTerminator : Opcode → Bool
  | branch _ | ret | retVoid => true
  | _ => false

def constant? : Opcode → Option Word
  | constant c => some c
  | nullPtr => some 0
  | _ => none

def isConstant (op : Opcode) : Bool := op.constant?.isSome

def isCall : Opcode → Bool
  | call _ => true
  | _ => false

def word : Opcode → String
  | parameter => "Parameter"
  | constant _ => "Constant"
  | nullPtr => "NullPtr"
  | add => "Add"
  | sub => "Sub"
  | mul => "Mul"
  | and => "And"
  | compare _ => "Compare"
  | select _ => "Select"
  | load => "Load"
  | loadPair => "LoadPair"
  | store => "Store"
  | call _ => "Call"
  | branch _ => "If"
  | phi => "Phi"
  | ret => "Return"
  | retVoid => "ReturnVoid"
  | spillFill => "SpillFill"

def text : Opcode → String
  | constant c => s!"Constant {c}"
  | call callee => s!"Call #{callee}"
  | compare c => "Compare " ++ c.name
  | select c => "Select " ++ c.name
  | branch c => "If " ++ c.name
  | op => op.word

def describe : Opcode → String
  | constant c => s!"Constant({c})"
  | call callee => "Call \x7b callee: " ++ toString callee ++ " \x7d"
  | compare c => "Compare(" ++ c.name ++ ")"
  | select c => "Select(" ++ c.name ++ ")"
  | branch c => "If(" ++ c.name ++ ")"
  | op => op.word

/-- Reads the form of a listing, except that a callee is a bare number. -/
def ofText? (text : String) : Option Opcode :=
  match text.splitOn " " with
  | ["Constant", n] => n.toInt?.map (constant ∘ Int64.ofInt)
  | ["Call", n] => n.toNat?.map call
  | ["Compare", c] => (Condition.ofName? c).map compare
  | ["Select", c] => (Condition.ofName? c).map select
  | ["If", c] => (Condition.ofName? c).map branch
  | [w] =>
    [parameter, nullPtr, add, sub, mul, and, load, loadPair, store, phi, ret, retVoid,
      spillFill].find? (·.word == w)
  | _ => none

end Opcode

end RegisterAllocation
