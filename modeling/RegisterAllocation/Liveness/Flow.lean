import RegisterAllocation.Graph.Order

/-!
Live values: those whose present content may still be read. What is live at the start of a block
follows from what is live at its end, and that from the starts of its successors and the operands
that their phis take along the edge. Blocks are evaluated in post order, and a block again whenever
a successor has changed, until nothing is left to evaluate.
-/

namespace RegisterAllocation

/-- A set of values, as the list of its elements in increasing order. -/
abbrev ValueSet := List ValueId

namespace ValueSet

def insert (v : ValueId) : ValueSet → ValueSet
  | [] => [v]
  | w :: rest =>
    if v < w then v :: w :: rest else if v = w then w :: rest else w :: insert v rest

def union (vs : List ValueId) (s : ValueSet) : ValueSet := vs.foldl (fun s v => insert v s) s

def diff (s t : ValueSet) : ValueSet := s.filter (· ∉ t)

theorem mem_insert {v w : ValueId} {s : ValueSet} : w ∈ insert v s ↔ w = v ∨ w ∈ s := by
  induction s with
  | nil => simp [insert]
  | cons x rest ih =>
    unfold insert
    split
    · simp
    · split <;> simp_all [or_left_comm]

end ValueSet

namespace Graph

/-- The values that a block defines, and those it reads before any definition of its own. Phis
read their operands on the edges. -/
structure Effect where
  defined : ValueSet
  read : ValueSet
  deriving DecidableEq, Repr

def Effect.add (e : Effect) (x : Instr) : Effect where
  defined := ValueSet.union x.results e.defined
  read := if x.isPhi then e.read else ValueSet.union (x.inputs.filter (· ∉ e.defined)) e.read

def effect (g : Graph) (b : BlockId) : Except Fault Effect := do
  let instrs ← (← g.block b).instrs.mapM g.instr
  return instrs.foldl Effect.add ⟨[], []⟩

/-- The operands that the phis of `succ` take along its edges from `pred`. -/
def phiInputs (g : Graph) (pred succ : BlockId) : Except Fault (List ValueId) := do
  let edges := ((← g.block succ).preds.zipIdx.filter (·.1 = pred)).map Prod.snd
  if edges.isEmpty then return []
  let phis ← (← g.phis succ).mapM g.instr
  return edges.flatMap fun k => phis.filterMap (·.inputs[k]?)

end Graph

/-- The sets of live values at the starts and ends of blocks, as far as known. -/
structure LiveSets where
  liveIn : Array ValueSet
  liveOut : Array ValueSet
  deriving DecidableEq, Repr

namespace LiveSets

def outOf (g : Graph) (sets : LiveSets) (b : BlockId) : Except Fault ValueSet := do
  (← g.block b).succs.foldlM (fun out succ => do
    let atStart ← need sets.liveIn[succ]?
    return ValueSet.union (← g.phiInputs b succ) (ValueSet.union atStart out)) []

/-- Evaluates a block: its new sets, and whether its start has changed. -/
def evaluate (g : Graph) (sets : LiveSets) (b : BlockId) : Except Fault (Bool × LiveSets) := do
  let out ← sets.outOf g b
  let e ← g.effect b
  let atStart := ValueSet.union e.read (ValueSet.diff out e.defined)
  let sets := { sets with liveOut := sets.liveOut.setIfInBounds b out }
  if atStart = (← need sets.liveIn[b]?) then return (false, sets)
  return (true, { sets with liveIn := sets.liveIn.setIfInBounds b atStart })

/-- Queues a predecessor, unless it is waiting already or cannot be reached. -/
def enqueue (g : Graph) (order : List BlockId) (queue : List BlockId) (pred : BlockId) :
    Except Fault (List BlockId) := do
  let _ ← g.block pred
  if pred ∈ order ∧ pred ∉ queue then return queue ++ [pred]
  return queue

def settle (g : Graph) (order : List BlockId) :
    (bound : Nat) → (queue : List BlockId) → LiveSets → Except Fault LiveSets
  | _, [], sets => return sets
  | 0, _, _ => .error .endless
  | bound + 1, b :: queue, sets => do
    let (changed, sets) ← sets.evaluate g b
    if changed then
      let queue ← (← g.block b).preds.foldlM (enqueue g order) queue
      settle g order bound queue sets
    else
      settle g order bound queue sets

/-- The sets only grow, and a block is queued again only by the growth of a successor. -/
def settleBound (g : Graph) : Nat :=
  let operands := (g.instrs.toList.map (·.inputs.length)).foldr (· + ·) 0
  g.blocks.size + (g.blocks.toList.map (·.preds.length)).foldr (· + ·) 0 * operands

def ofGraph (g : Graph) (order : List BlockId) : Except Fault LiveSets :=
  let none := Array.replicate g.blocks.size []
  settle g order (settleBound g) order.reverse ⟨none, none⟩

end LiveSets

end RegisterAllocation
