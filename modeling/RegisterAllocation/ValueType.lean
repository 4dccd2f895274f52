/-!
The types of the values a program computes with, and the two classes of registers that hold them.
-/

namespace RegisterAllocation

inductive RegisterClass where
  | int
  | float
  deriving DecidableEq, Repr

namespace RegisterClass

def name : RegisterClass → String
  | int => "int"
  | float => "float"

def all : List RegisterClass := [int, float]

end RegisterClass

inductive ValueType where
  | bool
  | int32
  | uint32
  | int64
  | uint64
  | reference
  | float32
  | float64
  | void
  deriving DecidableEq, Repr

namespace ValueType

def all : List ValueType :=
  [bool, int32, uint32, int64, uint64, reference, float32, float64, void]

def name : ValueType → String
  | bool => "b1"
  | int32 => "i32"
  | uint32 => "u32"
  | int64 => "i64"
  | uint64 => "u64"
  | reference => "ref"
  | float32 => "f32"
  | float64 => "f64"
  | void => "void"

def ofName? (text : String) : Option ValueType :=
  all.find? (·.name == text)

def isFloat : ValueType → Bool
  | float32 | float64 => true
  | _ => false

def is64Bits : ValueType → Bool
  | int64 | uint64 | reference | float64 => true
  | _ => false

/-- Floats live in their own registers; everything else, `void` included, counts as an integer. -/
def regClass (ty : ValueType) : RegisterClass :=
  if ty.isFloat then .float else .int

/-- Whether a zero of this type can be read from a register that always holds zero. -/
def fitsZeroRegister (ty : ValueType) : Bool :=
  !ty.isFloat && ty != void

end ValueType

end RegisterAllocation
