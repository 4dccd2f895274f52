import RegisterAllocation.Generator.Source
import RegisterAllocation.Machine.State

/-!
Programs made from bytes. A program is a sequence of nested regions (straight code, two-way
branches with and without an alternative, counted loops), so it is always well formed and its runs
always end. Addresses are masked to stay within memory.
-/

namespace RegisterAllocation

namespace Gen

/-- The values that can be used at some point, by class. -/
structure Scope where
  ints : List ValueId
  floats : List ValueId
  deriving DecidableEq, Repr

namespace Scope

def of (s : Scope) : RegisterClass → List ValueId
  | .int => s.ints
  | .float => s.floats

def addInts (s : Scope) (vs : List ValueId) : Scope := { s with ints := s.ints ++ vs }

def add (s : Scope) (v : ValueId) : Gen Scope := do
  match (← Build.ask (·.typeOf v)).regClass with
  | .int => return s.addInts [v]
  | .float => return { s with floats := s.floats ++ [v] }

end Scope

/-- Constants of the entry block that can be used everywhere. -/
structure Constants where
  zero : ValueId
  one : ValueId
  mask : ValueId
  deriving DecidableEq, Repr

def classIn (hasFloats : Bool) (choose : Gen Bool) : Gen RegisterClass := do
  if hasFloats then
    if ← choose then return .float
  return .int

def someClass (s : Scope) : Gen RegisterClass := classIn (!s.floats.isEmpty) flip

def addressIn (c : Constants) (b : BlockId) (s : Scope) : Gen ValueId := do
  let v ← pick s.ints
  Build.binary b .and v c.mask

def arithmetic : Gen Opcode := do
  match ← below 4 with
  | 0 => return .add
  | 1 => return .sub
  | 2 => return .mul
  | _ => return .and

def callArgument (s : Scope) : Gen ValueId := do
  let cls ← classIn (!s.floats.isEmpty) (return (← below 4) == 0)
  pick (s.of cls)

def many {α : Type} (step : Gen α) : (count : Nat) → Gen (List α)
  | 0 => return []
  | count + 1 => do
    let a ← step
    return a :: (← many step count)

/-- Adds one instruction, or an address and an instruction, to a block. -/
def instruction (c : Constants) (b : BlockId) (s : Scope) : Gen Scope := do
  match ← below 10 with
  | 0 =>
    let k ← if (← below 4) = 0 then pure 0 else integer 2
    let ty := if ← flip then ValueType.int64 else .int32
    s.add (← Build.constant b ty (Int64.ofInt k))
  | 1 | 2 =>
    let cls ← someClass s
    let op ← arithmetic
    let lhs ← pick (s.of cls)
    let rhs ← pick (s.of cls)
    s.add (← Build.binary b op lhs rhs)
  | 3 =>
    let lhs ← pick s.ints
    let rhs ← pick s.ints
    s.add (← Build.binary b (.compare (← condition)) lhs rhs)
  | 4 =>
    let inputs ← many (pick s.ints) 4
    s.add (← Build.value b (.select (← condition)) .int64 inputs)
  | 5 =>
    let index ← addressIn c b s
    s.add (← Build.binary b .load c.zero index)
  | 6 =>
    let index ← addressIn c b s
    let i ← Build.append b .loadPair .int64 [c.zero, index]
    (← Build.ask (·.instr i)).results.foldlM Scope.add s
  | 7 =>
    let index ← addressIn c b s
    let v ← pick (s.of (← someClass s))
    let _ ← Build.append b .store .void [c.zero, index, v]
    return s
  | 8 =>
    let args ← many (callArgument s) (← indexBelow 11)
    let ty ← match ← below 4 with
      | 0 => pure ValueType.void
      | 1 => pure .float64
      | _ => pure .int64
    match ← Build.call b (← byte) ty args with
    | some v => s.add v
    | none => return s
  | _ => s.add (← Build.value b .nullPtr .reference [])

def instructions (c : Constants) (b : BlockId) : (count : Nat) → Scope → Gen Scope
  | 0, s => return s
  | count + 1, s => do instructions c b count (← instruction c b s)

def straightCode (c : Constants) (b : BlockId) (s : Scope) : Gen Scope := do
  instructions c b (← below 12) s

def branchOn (b : BlockId) (s : Scope) : Gen Unit := do
  let lhs ← pick s.ints
  let rhs ← pick s.ints
  let _ ← Build.append b (.branch (← condition)) .void [lhs, rhs]

/-- What fills a branch or a loop: code that starts in a block and tells where it ends. -/
abbrev Region := BlockId → Scope → Gen (BlockId × Scope)

def joinPhis (join : BlockId) (choose : Gen (ValueId × ValueId)) :
    (count : Nat) → Scope → Gen Scope
  | 0, s => return s
  | count + 1, s => do
    let (l, r) ← choose
    let p ← Build.phi join (← Build.ask (·.typeOf l)) [l, r]
    joinPhis join choose count (← s.add p)

def ifElse (c : Constants) (inner : Region) : Region := fun b s => do
  let s ← straightCode c b s
  branchOn b s
  let left ← Build.addBlock
  let right ← Build.addBlock
  let join ← Build.addBlock
  Build.addEdge b left
  Build.addEdge b right
  let (leftEnd, leftScope) ← inner left s
  let (rightEnd, rightScope) ← inner right s
  Build.addEdge leftEnd join
  Build.addEdge rightEnd join
  let choose : Gen (ValueId × ValueId) := do
    let cls ← classIn (!leftScope.floats.isEmpty && !rightScope.floats.isEmpty) flip
    let l ← pick (leftScope.of cls)
    let r ← pick (rightScope.of cls)
    return (l, r)
  return (join, ← joinPhis join choose (← below 3) s)

/-- A way that may be skipped, along a critical edge. -/
def ifThen (c : Constants) (inner : Region) : Region := fun b s => do
  let s ← straightCode c b s
  branchOn b s
  let taken ← Build.addBlock
  let join ← Build.addBlock
  Build.addEdge b taken
  Build.addEdge b join
  let (takenEnd, takenScope) ← inner taken s
  Build.addEdge takenEnd join
  let choose : Gen (ValueId × ValueId) := do
    let l ← pick s.ints
    let r ← pick takenScope.ints
    return (l, r)
  return (join, ← joinPhis join choose (← below 3) s)

def carriedPhi (header : BlockId) (s : Scope) : Gen ValueId := do
  let start ← pick s.ints
  Build.phi header (← Build.ask (·.typeOf start)) [start]

/-- A loop that counts its rounds; what it carries can be used after it. -/
def countedLoop (c : Constants) (inner : Region) : Region := fun b s => do
  let s ← straightCode c b s
  let rounds ← Build.constant b .int64 (Int64.ofNat (1 + (← below 5)))
  let header ← Build.addBlock
  Build.addEdge b header
  let counter ← Build.phi header .int64 [c.zero]
  let carried ← many (carriedPhi header s) (1 + (← below 3))
  let (latch, body) ← inner header (s.addInts (counter :: carried))
  let next ← Build.binary latch .add counter c.one
  carried.forM fun p => do Build.addPhiInput p (← pick body.ints)
  Build.addPhiInput counter next
  let _ ← Build.append latch (.branch .lt) .void [next, rounds]
  let exit ← Build.addBlock
  Build.addEdge latch header
  Build.addEdge latch exit
  return (exit, s.addInts (counter :: carried))

def region (c : Constants) : (depth : Nat) → Region
  | 0 => fun b s => return (b, ← straightCode c b s)
  | depth + 1 => fun b s => do
    match ← below 4 with
    | 1 => ifElse c (region c depth) b s
    | 2 => ifThen c (region c depth) b s
    | 3 => countedLoop c (region c depth) b s
    | _ => return (b, ← straightCode c b s)

def maxDepth : Nat := 3

def regions (c : Constants) : (count : Nat) → Region
  | 0 => fun b s => return (b, s)
  | count + 1 => fun b s => do
    let (b, s) ← region c maxDepth b s
    regions c count b s

/-- A parameter with the argument for it: an eighth of a small number, or an integer. -/
def parameter : Gen (ValueId × Word) := do
  if (← below 4) = 0 then
    let f := Float.ofInt (← integer 2) / 8.0
    return (← Build.param .float64, .ofFloat f)
  let n ← integer 4
  return (← Build.param .int64, Int64.ofInt n)

def finish (b : BlockId) (s : Scope) : Gen Unit := do
  if ← flip then
    let v ← pick (s.of (← someClass s))
    let _ ← Build.ret b v
  else
    let _ ← Build.append b .retVoid .void []

/-- A whole program; the answer is the arguments to run it on. -/
def program : Gen (List Word) := do
  let machine ← arch
  modifyThe Graph fun g => { g with arch := machine }
  let entry := (← getThe Graph).entry
  let params ← many parameter (← below 10)
  let scope ← (params.map Prod.fst).foldlM Scope.add (Scope.mk [] [])
  let nought ← Build.constant entry .int64 0
  let one ← Build.constant entry .int64 1
  let mask ← Build.constant entry .int64 (Int64.ofNat (memorySize / 2 - 1))
  let c : Constants := { zero := nought, one, mask }
  let (b, s) ← regions c (1 + (← below 4)) entry (scope.addInts [nought, one])
  finish b s
  return params.map Prod.snd

end Gen

/-- The program that some bytes stand for, and the arguments to run it on. -/
def programOfBytes (bytes : Bytes) : Except Fault (List Word × Graph) := do
  let ((args, _), g) ← (Gen.program.run bytes).run (.new "funk" .aarch64)
  return (args, g)

end RegisterAllocation
