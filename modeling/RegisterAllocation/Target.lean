import RegisterAllocation.Location
import RegisterAllocation.RegisterSet

/-!
Machines that programs are allocated for: register files, registers kept out of allocation, scratch
registers and the calling convention.
-/

namespace RegisterAllocation

inductive Arch where
  | aarch64
  | x86_64
  | aarch32
  | none
  deriving DecidableEq, Repr

namespace Arch

def all : List Arch := [aarch64, x86_64, aarch32, none]

def name : Arch → String
  | aarch64 => "aarch64"
  | x86_64 => "x86_64"
  | aarch32 => "aarch32"
  | none => "none"

def ofName? : String → Option Arch
  | "aarch64" | "arm64" => some aarch64
  | "x86_64" | "amd64" => some x86_64
  | "aarch32" | "arm" => some aarch32
  | "none" => some none
  | _ => Option.none

end Arch

structure CallingConvention where
  paramRegs : List Nat
  fpParamRegs : List Nat
  returnReg : Nat
  fpReturnReg : Nat
  callerSavedInt : RegisterSet
  callerSavedFloat : RegisterSet
  deriving DecidableEq, Repr

namespace CallingConvention

/-- Hands out argument registers of each class while they last, then stack slots from `slot` on. -/
def assign (regs fpRegs : List Nat) (slot : Nat) : List ValueType → List Location
  | [] => []
  | ty :: rest =>
    if ty.isFloat then
      match fpRegs with
      | r :: fpRegs => .fpRegister r :: assign regs fpRegs slot rest
      | [] => .stackParameter slot :: assign regs [] (slot + 1) rest
    else
      match regs with
      | r :: regs => .register r :: assign regs fpRegs slot rest
      | [] => .stackParameter slot :: assign [] fpRegs (slot + 1) rest

/-- Where arguments of the given types are passed. The two classes of registers are used up
independently; what is left goes to consecutive stack parameters. -/
def paramLocations (cc : CallingConvention) (types : List ValueType) : List Location :=
  assign cc.paramRegs cc.fpParamRegs 0 types

def returnLocation (cc : CallingConvention) (ty : ValueType) : Location :=
  if ty.isFloat then .fpRegister cc.fpReturnReg else .register cc.returnReg

def callerSaved (cc : CallingConvention) : RegisterClass → RegisterSet
  | .int => cc.callerSavedInt
  | .float => cc.callerSavedFloat

theorem length_assign (regs fpRegs : List Nat) (slot : Nat) (types : List ValueType) :
    (assign regs fpRegs slot types).length = types.length := by
  fun_induction assign regs fpRegs slot types <;> simp_all

@[simp] theorem length_paramLocations (cc : CallingConvention) (types : List ValueType) :
    (cc.paramLocations types).length = types.length :=
  length_assign ..

end CallingConvention

structure Target where
  arch : Arch
  intRegs : Nat
  floatRegs : Nat
  zeroReg : Option Nat
  tempInt : Option Nat
  tempFloat : Option Nat
  reservedInt : RegisterSet
  reservedFloat : RegisterSet
  convention : Option CallingConvention
  deriving DecidableEq, Repr

namespace Target

/-- Scratch, platform, frame, link and zero registers stay out of allocation. -/
def aarch64 : Target where
  arch := .aarch64
  intRegs := 32
  floatRegs := 32
  zeroReg := some 31
  tempInt := some 16
  tempFloat := some 31
  reservedInt := .ofList [16, 17, 18, 29, 30, 31]
  reservedFloat := .ofList [31]
  convention := some
    { paramRegs := List.range 8
      fpParamRegs := List.range 8
      returnReg := 0
      fpReturnReg := 0
      callerSavedInt := .first 19
      callerSavedFloat := .ofBits 0xffff00ff }

/-- Stack pointer, frame pointer and scratch register stay out of allocation. -/
def x86_64 : Target where
  arch := .x86_64
  intRegs := 16
  floatRegs := 16
  zeroReg := none
  tempInt := some 11
  tempFloat := some 15
  reservedInt := .ofList [4, 5, 11]
  reservedFloat := .ofList [15]
  convention := some
    { paramRegs := [7, 6, 2, 1, 8, 9]
      fpParamRegs := List.range 8
      returnReg := 0
      fpReturnReg := 0
      callerSavedInt := .ofList [0, 1, 2, 6, 7, 8, 9, 10, 11]
      callerSavedFloat := .first 16 }

/-- A 64-bit value takes a pair of registers here, so no single one can serve as scratch. -/
def aarch32 : Target where
  arch := .aarch32
  intRegs := 16
  floatRegs := 16
  zeroReg := none
  tempInt := none
  tempFloat := none
  reservedInt := .ofList [11, 13, 14, 15]
  reservedFloat := .empty
  convention := some
    { paramRegs := List.range 4
      fpParamRegs := List.range 8
      returnReg := 0
      fpReturnReg := 0
      callerSavedInt := .ofList [0, 1, 2, 3, 12]
      callerSavedFloat := .first 8 }

def unsupported : Target where
  arch := .none
  intRegs := 0
  floatRegs := 0
  zeroReg := none
  tempInt := none
  tempFloat := none
  reservedInt := .empty
  reservedFloat := .empty
  convention := none

def ofArch : Arch → Target
  | .aarch64 => aarch64
  | .x86_64 => x86_64
  | .aarch32 => aarch32
  | .none => unsupported

def numRegs (t : Target) : RegisterClass → Nat
  | .int => t.intRegs
  | .float => t.floatRegs

def reserved (t : Target) : RegisterClass → RegisterSet
  | .int => t.reservedInt
  | .float => t.reservedFloat

def tempReg (t : Target) : RegisterClass → Option Nat
  | .int => t.tempInt
  | .float => t.tempFloat

/-- The register that reads as zero and ignores writes. -/
def isZeroReg (t : Target) (l : Location) : Bool :=
  l.isRegister && t.zeroReg == some l.index

def tempLocation? (t : Target) (ty : ValueType) : Option Location :=
  (t.tempReg ty.regClass).map (Location.registerFor · ty)

/-- Without a scratch register in both classes, stack slot 0 is kept free in its place. -/
def needsScratchSlot (t : Target) : Bool :=
  t.tempInt.isNone || t.tempFloat.isNone

/-- Slots below this one are not handed out to values. -/
def firstSlot (t : Target) : Nat :=
  if t.needsScratchSlot then 1 else 0

def allocatable (t : Target) (c : RegisterClass) : RegisterSet :=
  (RegisterSet.first (t.numRegs c)).diff (t.reserved c)

end Target

end RegisterAllocation
