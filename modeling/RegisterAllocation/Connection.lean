import RegisterAllocation.Graph.Build
import RegisterAllocation.Liveness.Intervals

/-!
Connecting the siblings of split intervals. Where a value changes its location inside a block, it
is moved in the gap before the next instruction. On a control-flow edge every value that lives
across it is moved from where it is at the end of the predecessor to where it is at the start of
the successor, and so are the operands that phis take along the edge. The moves go to whichever end
has no other edge, or else to a new block on the edge.
-/

namespace RegisterAllocation

namespace Connection

/-- The part of a reversed list of instructions behind the argument moves at its head. -/
def behindFills (g : Graph) : List InstrId → Except Fault (List InstrId)
  | [] => return []
  | i :: rest => do
    if (← g.instr i).purpose? = some .inputFill then behindFills g rest else return i :: rest

/-- A group just before a place in a block to which more split moves can be added. -/
def openGroup? (g : Graph) : List InstrId → Except Fault (Option InstrId)
  | [] => return none
  | i :: _ => do
    match (← g.instr i).group with
    | some group =>
      return if group.purpose = .splitMove ∧ group.sequenced = false then some i else none
    | none => return none

/-- Moves a value before an instruction, ahead of the argument moves if it is a call: these read
the new location. -/
def moveBefore (anchor : InstrId) (m : Move) : Build Unit := do
  let b := (← Build.ask (·.instr anchor)).block
  let pos ← Build.ask (·.positionInBlock anchor)
  let instrs := (← Build.ask (·.block b)).instrs
  let earlier ← Build.ask (behindFills · (instrs.take pos).reverse)
  match ← Build.ask (openGroup? · earlier) with
  | some i => Build.modifyGroup i (·.add m)
  | none =>
    let group ← (MoveGroup.empty .splitMove).add m
    let _ ← Build.insertAt b earlier.length (Instr.ofGroup b group)

/-- Connects two siblings that touch. A change at the end of a block is left to the edges, and a
constant that goes to the immediate table needs no move. -/
def connect (n : Numbering) (i j : Interval) : Build Unit := do
  let pos := j.start
  if i.stop = pos ∧ i.location ≠ j.location ∧ j.location.isImmediate = false ∧ pos % 2 = 1 then
    match n.instrAt? (pos + 1) with
    | none => return
    | some anchor => moveBefore anchor ⟨i.location, j.location, i.ty⟩

def connectAll (n : Numbering) : List Interval → Build Unit
  | i :: j :: rest => do
    connect n i j
    connectAll n (j :: rest)
  | _ => return

/-- The intervals of the value that an interval is the first of; none for any other interval. -/
def siblings (p : IntervalPool) (id : IntervalId) : Except Fault (List Interval) := do
  let i ← p.get id
  if i.physical || i.splitOff then return []
  (← p.chain id).mapM p.get

def withinBlocks (l : Liveness) : Build Unit :=
  l.pool.ids.forM fun id => do
    connectAll l.numbering (← siblings l.pool id)

structure EdgeMoves where
  pred : BlockId
  succ : BlockId
  moves : MoveGroup
  deriving DecidableEq, Repr

/-- Adds a move that is needed: between different locations, and not to an immediate. -/
def addNeeded (group : MoveGroup) (m : Move) : Except Fault MoveGroup :=
  if m.src = m.dst ∨ m.dst.isImmediate then .ok group else group.add m

def addCrossing (l : Liveness) (lost : Fault) (src dst : ValueId) (last first : Position)
    (ty : Except Fault ValueType) (group : MoveGroup) : Except Fault MoveGroup := do
  match ← l.locationAt src last, ← l.locationAt dst first with
  | some a, some b => addNeeded group ⟨a, b, ← ty⟩
  | _, _ => .error lost

/-- Adds the moves of the phis at the head of a list of instructions for the edge from `pred`, the
`k`-th predecessor of `succ`. A phi without a location is noticed before what follows it is read. -/
def addPhis (g : Graph) (l : Liveness) (succ pred : BlockId) (k : Nat) (last first : Position) :
    List InstrId → MoveGroup → Except Fault MoveGroup
  | [], group => return group
  | i :: rest, group => do
    let x ← g.instr i
    if x.isPhi then
      let operand ← need x.inputs[k]?
      let result ← need x.results.head?
      let group ← addCrossing l (.phiNotOnEdge i pred succ) operand result last first (.ok x.ty)
        group
      addPhis g l succ pred k last first rest group
    else return group

/-- The moves on the edge to `succ` from its `k`-th predecessor, between the given positions. -/
def edgeMoves (g : Graph) (l : Liveness) (succ pred : BlockId) (k : Nat) (last first : Position) :
    Except Fault MoveGroup := do
  let group ← (← need l.liveIn[succ]?).foldlM (fun group v =>
    addCrossing l (.valueNotOnEdge v pred succ) v v last first (g.typeOf v) group)
    (MoveGroup.empty .phiMove)
  addPhis g l succ pred k last first (← g.block succ).instrs group

def edgesInto (g : Graph) (l : Liveness) (succ : BlockId) : Except Fault (List EdgeMoves) := do
  match l.numbering.rangeOf? succ with
  | none => return []
  | some here =>
    let found ← (← g.block succ).preds.zipIdx.mapM fun (pred, k) => do
      match l.numbering.rangeOf? pred with
      | none => return none
      | some there =>
        let moves ← edgeMoves g l succ pred k (there.stop - 2) here.start
        return if moves.isEmpty then none else some ⟨pred, succ, moves⟩
    return found.filterMap id

def edges (g : Graph) (l : Liveness) : Except Fault (List EdgeMoves) :=
  return (← l.numbering.order.mapM (edgesInto g l)).flatten

/-- The groups made so far at the starts and ends of blocks, and the number of blocks added. -/
structure Joints where
  heads : List (BlockId × InstrId)
  tails : List (BlockId × InstrId)
  newBlocks : Nat
  deriving DecidableEq, Repr

/-- Adds moves to the group that one end of a block has, or makes one at index `pos`. -/
def joinAt (ends : List (BlockId × InstrId)) (b : BlockId) (pos : Nat) (moves : MoveGroup) :
    Build (List (BlockId × InstrId)) := do
  match ends.lookup b with
  | some i =>
    if (← Build.ask (·.instr i)).group.isSome then
      Build.modifyGroup i (·.addAll moves.moves)
    return ends
  | none =>
    let i ← Build.insertAt b pos (Instr.ofGroup b moves)
    return (b, i) :: ends

def joinEdge (j : Joints) (e : EdgeMoves) : Build Joints := do
  let pred ← Build.ask (·.block e.pred)
  if pred.succs.length = 1 then
    return { j with tails := ← joinAt j.tails e.pred pred.instrs.length e.moves }
  let succ ← Build.ask (·.block e.succ)
  let atHead ← if succ.preds.length = 1 then Build.ask fun g => return (← g.numPhis e.succ) == 0
    else pure false
  if atHead then
    return { j with heads := ← joinAt j.heads e.succ 0 e.moves }
  let b ← Build.splitEdge e.pred e.succ
  let _ ← Build.insertAt b 0 (Instr.ofGroup b e.moves)
  return { j with newBlocks := j.newBlocks + 1 }

end Connection

/-- Connects all split intervals. Gives the number of blocks added on edges. -/
def Liveness.connect (l : Liveness) : Build Nat := do
  Connection.withinBlocks l
  let edges ← Build.ask (Connection.edges · l)
  return (← edges.foldlM Connection.joinEdge ⟨[], [], 0⟩).newBlocks

end RegisterAllocation
