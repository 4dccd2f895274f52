import RegisterAllocation.Fault

/-!
Sets of register numbers. A register file has at most 64 registers, so a set is one 64-bit word
and membership is a bit test; `mem_toList` ties the word to the list of its members.
-/

namespace RegisterAllocation

structure RegisterSet where
  bits : BitVec 64
  deriving DecidableEq, Repr

namespace RegisterSet

def capacity : Nat := 64

def empty : RegisterSet := ⟨0#64⟩

def ofBits (bits : Nat) : RegisterSet := ⟨BitVec.ofNat 64 bits⟩

def first (count : Nat) : RegisterSet := ofBits (1 <<< min count capacity - 1)

def contains (s : RegisterSet) (reg : Nat) : Bool := s.bits.getLsbD reg

def insert (s : RegisterSet) (reg : Nat) : RegisterSet := ⟨s.bits ||| BitVec.twoPow 64 reg⟩

def erase (s : RegisterSet) (reg : Nat) : RegisterSet := ⟨s.bits &&& ~~~BitVec.twoPow 64 reg⟩

def ofList (regs : List Nat) : RegisterSet := regs.foldl insert empty

def inter (s t : RegisterSet) : RegisterSet := ⟨s.bits &&& t.bits⟩

def diff (s t : RegisterSet) : RegisterSet := ⟨s.bits &&& ~~~t.bits⟩

def toList (s : RegisterSet) : List Nat := (List.range capacity).filter s.contains

def size (s : RegisterSet) : Nat := s.toList.length

def isEmpty (s : RegisterSet) : Bool := s.bits == 0#64

def take (s : RegisterSet) (count : Nat) : RegisterSet := ofList (s.toList.take count)

def named (reg : Nat) : Except Fault Nat := do
  ensure (reg < capacity) .brokenRule
  return reg

def insertNamed (s : RegisterSet) (reg : Nat) : Except Fault RegisterSet :=
  return s.insert (← named reg)

def eraseNamed (s : RegisterSet) (reg : Nat) : Except Fault RegisterSet :=
  return s.erase (← named reg)

def ofNamed (regs : List Nat) : Except Fault RegisterSet :=
  return ofList (← regs.mapM named)

def text (s : RegisterSet) : String :=
  "\x7b" ++ ", ".intercalate (s.toList.map toString) ++ "\x7d"

@[simp] theorem contains_inter (s t : RegisterSet) (reg : Nat) :
    (s.inter t).contains reg = (s.contains reg && t.contains reg) := by
  simp [inter, contains]

theorem lt_capacity_of_contains {s : RegisterSet} {reg : Nat} (h : s.contains reg = true) :
    reg < capacity :=
  BitVec.lt_of_getLsbD h

@[simp] theorem mem_toList {s : RegisterSet} {reg : Nat} :
    reg ∈ s.toList ↔ s.contains reg = true := by
  simp only [toList, List.mem_filter, List.mem_range]
  exact ⟨fun h => h.2, fun h => ⟨lt_capacity_of_contains h, h⟩⟩

end RegisterSet

end RegisterAllocation
