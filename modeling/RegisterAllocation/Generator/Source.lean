import RegisterAllocation.Graph.Build
import RegisterAllocation.Codec

/-!
Choices read off a string of bytes, lowest byte first. A string that has run out goes on with
zeros, so there is always a next choice.
-/

namespace RegisterAllocation

/-- A step that edits a program by choices read off some bytes. -/
abbrev Gen := StateT Bytes Build

namespace Gen

def byte : Gen Nat := do
  match ← get with
  | [] => return 0
  | b :: rest =>
    set rest
    return b.toNat

def natural : (width : Nat) → Gen Nat
  | 0 => return 0
  | width + 1 => do
    let low ← byte
    return low + 256 * (← natural width)

def integer (width : Nat) : Gen Int := do
  let n ← natural width
  return (n : Int).bmod (1 <<< (8 * width))

def flip : Gen Bool := return (← byte) % 2 == 1

def below (n : Nat) : Gen Nat := return (← byte) % n

def indexBelow (n : Nat) : Gen Nat := return (← natural 8) % n

def pick {α : Type} (xs : List α) : Gen α := do
  need xs[← indexBelow xs.length]?

def arch : Gen Arch := do
  match ← below 3 with
  | 0 => return .aarch64
  | 1 => return .x86_64
  | _ => return .aarch32

def condition : Gen Condition := do
  match ← below 6 with
  | 0 => return .eq
  | 1 => return .ne
  | 2 => return .lt
  | 3 => return .le
  | 4 => return .gt
  | _ => return .ge

end Gen

end RegisterAllocation
