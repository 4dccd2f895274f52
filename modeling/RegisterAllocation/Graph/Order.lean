import RegisterAllocation.Graph.Basic

/-!
Blocks in reverse post order: a depth-first walk from the entry finishes a block after everything
reached from it, and the blocks are listed from the last one finished to the first.
-/

namespace RegisterAllocation

namespace Graph

/-- Walks on from a stack of blocks, each with the successors it has still to try. Trying a
successor and finishing a block take one round each. -/
def walk (g : Graph) : (bound : Nat) → (seen : List BlockId) →
    (stack : List (BlockId × List BlockId)) → (finished : List BlockId) →
    Except Fault (List BlockId)
  | _, _, [], finished => return finished
  | 0, _, _, _ => .error .endless
  | bound + 1, seen, (b, []) :: stack, finished => g.walk bound seen stack (b :: finished)
  | bound + 1, seen, (b, s :: succs) :: stack, finished =>
    if s ∈ seen then g.walk bound seen ((b, succs) :: stack) finished
    else do
      let next ← g.block s
      g.walk bound (s :: seen) ((s, next.succs) :: (b, succs) :: stack) finished

/-- A walk tries every edge and finishes every block at most once. -/
def walkBound (g : Graph) : Nat :=
  (g.blocks.toList.map fun b => b.succs.length + 1).foldr (· + ·) 0

/-- The blocks that can be reached from the entry, in reverse post order. -/
def reversePostOrder (g : Graph) : Except Fault (List BlockId) := do
  let entry ← g.block g.entry
  g.walk g.walkBound [g.entry] [(g.entry, entry.succs)] []

end Graph

end RegisterAllocation
