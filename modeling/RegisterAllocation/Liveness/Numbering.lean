import RegisterAllocation.Graph.Order
import RegisterAllocation.Interval.Basic

/-!
Positions. The reachable blocks are laid out in reverse post order. A block starts at an even
position, its instructions follow two apart, and the next block starts two behind the last one; so
every instruction has a gap before it. Phis have the position of the start of their block.
-/

namespace RegisterAllocation

structure Numbering where
  order : List BlockId
  ranges : Array (Option Range)
  numbers : Array (Option Position)
  timeline : Array (Option InstrId)
  deriving DecidableEq, Repr

namespace Numbering

def next (n : Numbering) : Position := 2 * n.timeline.size

def addInstr (g : Graph) (start : Position) (n : Numbering) (i : InstrId) :
    Except Fault Numbering := do
  if (← g.instr i).isPhi then
    return { n with numbers := n.numbers.setIfInBounds i (some start) }
  return { n with
    numbers := n.numbers.setIfInBounds i (some n.next)
    timeline := n.timeline.push (some i) }

def addBlock (g : Graph) (n : Numbering) (b : BlockId) : Except Fault Numbering := do
  let start := n.next
  let opened := { n with timeline := n.timeline.push none }
  let n ← (← g.block b).instrs.foldlM (addInstr g start) opened
  ensure (n.next < wordLimit) .overflow
  return { n with ranges := n.ranges.setIfInBounds b (some ⟨start, n.next⟩) }

def ofGraph (g : Graph) : Except Fault Numbering := do
  let order ← g.reversePostOrder
  order.foldlM (addBlock g)
    { order
      ranges := Array.replicate g.blocks.size none
      numbers := Array.replicate g.instrs.size none
      timeline := #[] }

def rangeOf? (n : Numbering) (b : BlockId) : Option Range := n.ranges[b]?.join

def numberOf? (n : Numbering) (i : InstrId) : Option Position := n.numbers[i]?.join

def instrAt? (n : Numbering) (pos : Position) : Option InstrId :=
  if pos % 2 = 0 then n.timeline[pos / 2]?.join else none

/-- The block that a position belongs to: the first one in order that ends behind it. -/
def blockAt? (n : Numbering) (pos : Position) : Option BlockId :=
  (n.order.find? fun b => (n.rangeOf? b).any (pos < ·.stop)).filter fun b =>
    (n.rangeOf? b).any (·.start ≤ pos)

end Numbering

end RegisterAllocation
