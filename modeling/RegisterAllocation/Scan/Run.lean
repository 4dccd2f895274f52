import RegisterAllocation.Options
import RegisterAllocation.Scan.Allocate

/-!
The scan of a whole program: integer registers first, then float registers, over one frame.

Parameters that arrive in registers are pinned there until all parameters of their class are
defined; those that arrive on the stack stay there until their first use. Zeros live in the zero
register, where there is one.
-/

namespace RegisterAllocation

namespace Scan

/-- Where the parameters of a program arrive; a value listed twice counts by its last place. -/
abbrev Arrivals := List (ValueId × Location)

def Arrivals.find? (arrivals : Arrivals) (v : ValueId) : Option Location :=
  arrivals.reverse.lookup v

def rootsOf (p : IntervalPool) (c : RegisterClass) : List (IntervalId × Interval) :=
  (p.intervals.toList.zipIdx.map Prod.swap).filter fun (_, i) =>
    !i.physical && !i.splitOff && !i.isEmpty && i.regClass == c

def lastArrival (arrivals : Arrivals) (roots : List (IntervalId × Interval)) : Position :=
  ((roots.filter fun (_, i) => (i.value.bind arrivals.find?).isSome).map (·.2.start)).foldl max 0

def firstClobber? (c : Pass) (s : Scan) (i : Interval) (l : Location) :
    Except Fault (Option Position) := do
  let fixed ← c.fixed.mapM s.pool.get
  return fixed.findSome? fun f => if f.location = l then f.meets? i 0 else none

def arriveOnStack (s : Scan) (id : IntervalId) (v : ValueId) (l : Location) (start : Position) :
    Except Fault Scan := do
  let s := { s with frame := s.frame.setHome v l }
  match (← s.pool.get id).nextUse? start with
  | none => return s
  | some use => s.splitAndQueue id (gapBefore use)

/-- Where a parameter leaves its register: when the last parameter is there, or in the gap before a
call would destroy it. -/
def releasePoint (start last : Position) : (clobber : Option Position) → Position
  | some pos => max (min (last + 1) (gapBefore pos)) (start + 1)
  | none => last + 1

/-- Pins a parameter in its register from the entry on, until it is released. -/
def arriveInRegister (c : Pass) (s : Scan) (id : IntervalId) (l : Location)
    (start last : Position) : Except Fault Scan := do
  let s ← if 0 < start then s.modify id (·.addRange 0 start) else pure s
  let i ← s.pool.get id
  let release := releasePoint start last (← s.firstClobber? c i l)
  let s ← if release < i.stop then do
      let (child, s) ← s.splitAt id release
      let s ← s.modify child fun i => return i.prefer l
      s.enqueue child
    else pure s
  return { s with inactive := s.inactive ++ [id] }

def receive (c : Pass) (arrivals : Arrivals) (last : Position) (s : Scan)
    (root : IntervalId × Interval) : Except Fault Scan := do
  let (id, i) := root
  match i.value with
  | none => return s
  | some v =>
    match ← c.graph.constantOf? v, c.target.zeroReg, i.ty.fitsZeroRegister with
    | some 0, some reg, true => s.modify id fun i => return i.pin (.register reg)
    | _, _, _ =>
      match arrivals.find? v with
      | none => s.enqueue id
      | some l =>
        let s ← s.modify id fun i => return i.pin l
        if l.isAnyRegister then s.arriveInRegister c id l i.start last
        else s.arriveOnStack id v l i.start

def enter (c : Pass) (arrivals : Arrivals) (pool : IntervalPool) (frame : Frame) :
    Except Fault Scan :=
  let roots := rootsOf pool c.regClass
  roots.foldlM (receive c arrivals (lastArrival arrivals roots)) ⟨pool, frame, [], [], []⟩

def runClass (g : Graph) (target : Target) (o : Options) (arrivals : Arrivals)
    (physical : List IntervalId) (state : IntervalPool × Frame) (cls : RegisterClass) :
    Attempt AllocationError (IntervalPool × Frame) := do
  let (pool, frame) := state
  let fixed ← physical.filterM fun id => return (← pool.get id).regClass == cls
  let c : Pass := ⟨g, target, cls, o.registers target cls, fixed⟩
  let s ← enter c arrivals pool frame
  let s ← drain c (drainBound s.pool) 0 s
  return (s.pool, s.frame)

end Scan

def CallingConvention.numStackParams (cc : CallingConvention) (types : List ValueType) : Nat :=
  ((cc.paramLocations types).filter Location.isStackParameter).length

def Liveness.scan (l : Liveness) (g : Graph) (target : Target) (o : Options) :
    Attempt AllocationError (Liveness × Frame) := do
  match target.convention with
  | none => refuse (.unsupported g.arch)
  | some cc =>
    let params ← g.parameters
    let types ← g.typesOf params
    let calls := g.instrs.toList.filter Instr.isCall
    let args ← calls.mapM fun x => return cc.numStackParams (← g.typesOf x.inputs)
    let frame := { Frame.ofGraph g target o.slotBudget with
      numParams := cc.numStackParams types
      numArgs := args.foldl max 0 }
    let arrivals := params.zip (cc.paramLocations types)
    let (pool, frame) ← RegisterClass.all.foldlM
      (Scan.runClass g target o arrivals l.physical) (l.pool, frame)
    return ({ l with pool }, frame)

end RegisterAllocation
