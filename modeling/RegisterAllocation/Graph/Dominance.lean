import RegisterAllocation.Graph.Order

/-!
Immediate dominators by iteration: each block's dominator is the nearest block at which the chains
of its predecessors meet, recomputed in reverse post order until nothing changes. The entry is its
own dominator; blocks that cannot be reached have none.
-/

namespace RegisterAllocation

/-- The immediate dominator of each block, as far as known. -/
abbrev DominatorTree := Array (Option BlockId)

namespace DominatorTree

def parent (tree : DominatorTree) (b : BlockId) : Except Fault (Option BlockId) :=
  need tree[b]?

/-- Climbs from two blocks to where their chains meet, always from the one that comes later in
`order`. -/
def meetingPoint (tree : DominatorTree) (order : List BlockId) (entry : BlockId) :
    (bound : Nat) → BlockId → BlockId → Except Fault BlockId
  | 0, _, _ => .error .endless
  | bound + 1, a, b =>
    if a = b then return a
    else if order.idxOf b < order.idxOf a then do
      meetingPoint tree order entry bound ((← tree.parent a).getD entry) b
    else if order.idxOf a < order.idxOf b then do
      meetingPoint tree order entry bound a ((← tree.parent b).getD entry)
    else .error .endless

/-- Where the chains of the predecessors met so far and of one more meet. Predecessors that have
no dominator yet do not count. -/
def meetPred (tree : DominatorTree) (order : List BlockId) (entry : BlockId)
    (met : Option BlockId) (pred : BlockId) : Except Fault (Option BlockId) := do
  match ← tree.parent pred, met with
  | none, _ => return met
  | some _, none => return some pred
  | some _, some cur =>
    return some (← tree.meetingPoint order entry (tree.size * tree.size + 1) pred cur)

def refine (g : Graph) (order : List BlockId) (tree : DominatorTree) (b : BlockId) :
    Except Fault DominatorTree := do
  match ← (← g.block b).preds.foldlM (tree.meetPred order g.entry) none with
  | none => return tree
  | some d => return tree.setIfInBounds b (some d)

/-- Rounds over all blocks but the entry, until one changes nothing. -/
def settle (g : Graph) (order : List BlockId) :
    (bound : Nat) → DominatorTree → Except Fault DominatorTree
  | 0, _ => .error .endless
  | bound + 1, tree => do
    let next ← order.tail.foldlM (refine g order) tree
    if next = tree then return tree else settle g order bound next

/-- Whether `a` is on the chain of dominators of `b`. -/
def dominatesWithin (tree : DominatorTree) (a : BlockId) :
    (bound : Nat) → BlockId → Except Fault Bool
  | 0, _ => .error .endless
  | bound + 1, b => do
    if b = a then return true
    match ← tree.parent b with
    | some p => if p = b then return false else dominatesWithin tree a bound p
    | none => return false

def dominates (tree : DominatorTree) (a b : BlockId) : Except Fault Bool :=
  tree.dominatesWithin a (tree.size + 1) b

end DominatorTree

namespace Graph

def dominators (g : Graph) : Except Fault DominatorTree := do
  let order ← g.reversePostOrder
  let n := g.blocks.size
  let tree := (Array.replicate n none).setIfInBounds g.entry (some g.entry)
  DominatorTree.settle g order (n * n + 2) tree

end Graph

end RegisterAllocation
