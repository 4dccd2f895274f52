import RegisterAllocation.Liveness.Intervals
import RegisterAllocation.Proofs.Positions
import RegisterAllocation.Proofs.Traversal

/-!
The positions of a program as a whole. The stretches of the blocks that can be reached follow each
other without a gap, and the searches by position undo what has been given out: each position of
the whole stretch leads to its block, and the position of an instruction other than a phi to the
instruction.
-/

namespace RegisterAllocation

/-- Ranges that lead from one position to another without a gap, none of them empty. -/
def Range.Tile : Position → List Range → Position → Prop
  | start, [], stop => start = stop
  | start, r :: rest, stop => r.start = start ∧ r.start < r.stop ∧ Tile r.stop rest stop

namespace Numbering

variable {g : Graph} {n : Numbering} {b : BlockId} {p : Position}

theorem span_le_append (xs ys : List BlockId) : span g xs ≤ span g (xs ++ ys) := by
  rw [span_append]
  exact Nat.le_add_right _ _

theorem span_lt_snoc (xs : List BlockId) : span g xs < span g (xs ++ [b]) := by
  rw [span_append, span_cons]
  omega

theorem exists_block_of_lt_span {blocks : List BlockId} (inside : p < span g blocks) :
    ∃ before b after, blocks = before ++ b :: after ∧
      span g before ≤ p ∧ p < span g (before ++ [b]) := by
  induction blocks using List.reverseRecOn with
  | nil => simp [span] at inside
  | append_singleton blocks b ih =>
    by_cases earlier : p < span g blocks
    · obtain ⟨before, c, after, rfl, low, high⟩ := ih earlier
      exact ⟨before, c, after ++ [b], by simp, low, high⟩
    · exact ⟨blocks, b, [], rfl, Nat.le_of_not_lt earlier, inside⟩

namespace Numbered

variable (numbered : Numbered g n)

include numbered

theorem exists_tile {before after : List BlockId} (split : n.order = before ++ after) :
    ∃ ranges, after.map n.rangeOf? = ranges.map some ∧
      Range.Tile (span g before) ranges (span g n.order) := by
  induction after generalizing before with
  | nil => exact ⟨[], rfl, by simp [Range.Tile, split]⟩
  | cons b after ih =>
    have splitNext : n.order = before ++ [b] ++ after := by simp [split]
    obtain ⟨ranges, found, tile⟩ := ih splitNext
    refine ⟨⟨span g before, span g (before ++ [b])⟩ :: ranges, ?_, rfl, span_lt_snoc before, tile⟩
    rw [List.map_cons, numbered.place before b after split, found, List.map_cons]

theorem stop_le_of_before {before after : List BlockId} {a : BlockId} {r : Range}
    (split : n.order = before ++ b :: after) (low : span g before ≤ p) (member : a ∈ before)
    (range : n.rangeOf? a = some r) : r.stop ≤ p := by
  obtain ⟨first, second, rfl⟩ := List.append_of_mem member
  rw [numbered.place first a (second ++ b :: after) (by simp [split]), Option.some.injEq] at range
  subst range
  refine Nat.le_trans ?_ low
  simpa using span_le_append (g := g) (first ++ [a]) second

theorem stops_increase : n.order.Pairwise fun b c =>
    ∀ r s, n.rangeOf? b = some r → n.rangeOf? c = some s → r.stop < s.stop := by
  have once := (Graph.reversePostOrder_ok numbered.ordered).once
  refine List.pairwise_iff_getElem.mpr fun j k insideJ insideK less r s range rangeK => ?_
  have rank : n.order.idxOf n.order[j] < n.order.idxOf n.order[k] := by
    rw [once.idxOf_getElem, once.idxOf_getElem]
    exact less
  have apart := numbered.apart _ _ r s (List.getElem_mem insideK) rank range rangeK
  obtain ⟨s', rangeK', -, stop⟩ := numbered.range _ (List.getElem_mem insideK)
  obtain rfl := Option.mem_unique rangeK rangeK'
  lia

theorem blockAt_iff : n.blockAt? p = some b ↔ ∃ before after, n.order = before ++ b :: after ∧
    span g before ≤ p ∧ p < span g (before ++ [b]) := by
  rw [blockAt?, Option.filter_eq_some_iff, List.find?_eq_some_iff_append]
  constructor
  · rintro ⟨⟨high, before, after, split, -⟩, low⟩
    rw [numbered.place before b after split] at high low
    exact ⟨before, after, split, by simpa using low, by simpa using high⟩
  · rintro ⟨before, after, split, low, high⟩
    rw [numbered.place before b after split]
    refine ⟨⟨by simpa using high, before, after, split, ?_⟩, by simpa using low⟩
    intro a member
    cases range : n.rangeOf? a with
    | none => rfl
    | some r => simpa using numbered.stop_le_of_before split low member range

end Numbered

/-- What the positions of a program are, and what the searches by position find. The end of the last
block is `stop`. A search for a block may halve the order, since the blocks end one after another. -/
structure Tiles (g : Graph) (n : Numbering) (stop : Position) : Prop where
  reachable : ∀ b, b ∈ n.order ↔ g.Reaches g.entry b
  ranges : ∃ ranges, n.order.map n.rangeOf? = ranges.map some ∧ Range.Tile 0 ranges stop
  ordered : n.order.Pairwise fun b c =>
    ∀ r s, n.rangeOf? b = some r → n.rangeOf? c = some s → r.stop < s.stop
  block : ∀ p b, n.blockAt? p = some b ↔
    g.Reaches g.entry b ∧ ∃ r, n.rangeOf? b = some r ∧ r.start ≤ p ∧ p < r.stop
  outside : ∀ p, n.blockAt? p = none ↔ stop ≤ p
  phi : ∀ b B r, g.Reaches g.entry b → g.blocks[b]? = some B → n.rangeOf? b = some r →
    ∀ i ∈ B.instrs, g.phiAt i = true → n.numberOf? i = some r.start
  plain : ∀ b B r, g.Reaches g.entry b → g.blocks[b]? = some B → n.rangeOf? b = some r →
    ∀ i ∈ B.instrs, g.phiAt i = false →
      ∃ p, n.numberOf? i = some p ∧ p % 2 = 0 ∧ r.start + 2 ≤ p ∧ p + 2 ≤ r.stop
  next : ∀ b B, g.Reaches g.entry b → g.blocks[b]? = some B → ∀ before i j after,
    g.steps B.instrs = before ++ i :: j :: after →
      ∃ p, n.numberOf? i = some p ∧ n.numberOf? j = some (p + 2)
  instr : ∀ p i, n.instrAt? p = some i ↔
    (∃ b B, g.Reaches g.entry b ∧ g.blocks[b]? = some B ∧ i ∈ B.instrs) ∧
      g.phiAt i = false ∧ n.numberOf? i = some p

namespace Numbered

variable (numbered : Numbered g n)

include numbered

theorem blockAt_none : n.blockAt? p = none ↔ span g n.order ≤ p := by
  rw [← Nat.not_lt, Option.eq_none_iff_forall_ne_some]
  constructor
  · intro nowhere inside
    obtain ⟨before, b, after, split, low, high⟩ := exists_block_of_lt_span inside
    exact nowhere b (numbered.blockAt_iff.mpr ⟨before, after, split, low, high⟩)
  · intro outside b found
    obtain ⟨before, after, split, -, high⟩ := numbered.blockAt_iff.mp found
    refine outside (Nat.lt_of_lt_of_le high ?_)
    simpa [split] using span_le_append (g := g) (before ++ [b]) after

theorem instrAt_iff {i : InstrId} : n.instrAt? p = some i ↔
    (∃ b ∈ n.order, ∃ B, g.blocks[b]? = some B ∧ i ∈ B.instrs) ∧
      g.phiAt i = false ∧ n.numberOf? i = some p := by
  constructor
  · intro isAt
    obtain ⟨b, r, k, member, -, listed, -⟩ := (numbered.instrAt p i).mp isAt
    obtain ⟨B, stored⟩ := (Graph.reversePostOrder_ok numbered.ordered).stored b member
    obtain ⟨among, plain⟩ := mem_of_body stored listed
    exact ⟨⟨b, member, B, stored, among⟩, plain, numbered.numberOf_instrAt isAt⟩
  · rintro ⟨⟨b, member, B, stored, among⟩, plain, isAt⟩
    obtain ⟨r, range, -⟩ := numbered.range b member
    have listed : i ∈ g.body b := by simp [Graph.body_eq stored, Graph.steps, among, plain]
    obtain ⟨k, found⟩ := List.mem_iff_getElem?.mp listed
    have number := numbered.number b r member range k i found
    exact (numbered.instrAt p i).mpr
      ⟨b, r, k, member, range, found, Option.mem_unique isAt number⟩

theorem to_tiles (reachable : ∀ b, b ∈ n.order ↔ g.Reaches g.entry b) :
    Tiles g n (span g n.order) := by
  refine ⟨reachable, numbered.exists_tile (List.nil_append _).symm, numbered.stops_increase, ?_,
    fun p => numbered.blockAt_none, ?_, ?_, ?_, ?_⟩
  · intro p b
    rw [numbered.blockAt_iff, ← reachable]
    constructor
    · rintro ⟨before, after, split, low, high⟩
      exact ⟨by simp [split], _, numbered.place before b after split, low, high⟩
    · rintro ⟨member, r, range, low, high⟩
      obtain ⟨before, after, split, rfl⟩ := split_of_range numbered.place member range
      exact ⟨before, after, split, low, high⟩
  · intro b B r reaches stored range
    exact numbered.phi b B r ((reachable b).mpr reaches) stored range
  · intro b B r reaches stored range i listed plain
    have member := (reachable b).mpr reaches
    obtain ⟨p, isAt, -, high, even, low⟩ := numbered.number_mem member stored range listed
    obtain ⟨r', range', evenStart, stop⟩ := numbered.range b member
    obtain rfl := Option.mem_unique range range'
    simp only [plain, Bool.false_eq_true, ↓reduceIte] at low
    exact ⟨p, isAt, even, by lia, by lia⟩
  · intro b B reaches stored before i j after split
    have member := (reachable b).mpr reaches
    obtain ⟨r, range, -⟩ := numbered.range b member
    have body := (Graph.body_eq stored).trans split
    refine ⟨_, numbered.number b r member range before.length i (by simp [body]), ?_⟩
    exact numbered.number b r member range (before.length + 1) j (by simp [body])
  · intro p i
    simp only [numbered.instrAt_iff, reachable, exists_and_left]

end Numbered

end Numbering

namespace Liveness

/-- The blocks that can be reached tile the positions of an analysed program, wherever in its block
a phi stands, and positions lead back to their blocks and instructions. -/
theorem positions_tile_program {g : Graph} {target : Target} {l : Liveness}
    (once : g.ListsOnce (g.Reaches g.entry)) (run : ofGraph g target = .ok l) :
    ∃ stop, l.numbering.Tiles g stop := by
  simp only [ofGraph, bind_ok, pure_ok] at run
  obtain ⟨n, isN, -, -, -, -, -, -, rfl⟩ := run
  have reachable {order : List BlockId} (ordered : g.reversePostOrder = .ok order) (b : BlockId) :
      b ∈ order ↔ g.Reaches g.entry b :=
    (Graph.reversePostOrder_ranked ordered).mem_iff.trans Graph.reaches_iff_route.symm
  have numbered : n.Numbered g :=
    Numbering.numbered_of_listsOnce
      (fun order ordered => by simpa only [reachable ordered] using once) isN
  exact ⟨_, numbered.to_tiles (reachable numbered.ordered)⟩

def emptyArms : Graph :=
  { Graph.new "empty arms" .aarch64 with
    blocks := #[⟨[0, 1, 2], [], [1, 2]⟩, ⟨[], [0], [3]⟩, ⟨[], [0], [3]⟩, ⟨[3], [1, 2], [4]⟩,
      ⟨[4], [3], []⟩, ⟨[5], [], []⟩]
    instrs := #[
      { Instr.ofOpcode .parameter 0 .int64 with results := [0] },
      { Instr.ofOpcode (.constant 1) 0 .int64 with results := [1] },
      { Instr.ofOpcode (.branch .lt) 0 .void with inputs := [0, 1] },
      { Instr.ofOpcode .phi 3 .int64 with inputs := [0, 1], results := [2] },
      { Instr.ofOpcode .ret 4 .int64 with inputs := [2] },
      { Instr.ofOpcode .ret 5 .int64 with inputs := [0] }]
    values := #[⟨0, .int64⟩, ⟨1, .int64⟩, ⟨3, .int64⟩] }

example : (ofGraph emptyArms emptyArms.target).map (fun l =>
    (l.numbering.order, l.numbering.numbers.toList,
      [7, 8, 11, 13, 17, 18].map l.numbering.blockAt?)) =
    .ok ([0, 2, 1, 3, 4], [some 2, some 4, some 6, some 12, some 16, none],
      [some 0, some 2, some 1, some 3, some 4, none]) := by
  decide +kernel

theorem emptyArms_tiled : ∃ l stop, ofGraph emptyArms emptyArms.target = .ok l ∧
    l.numbering.Tiles emptyArms stop := by
  have analysed : (ofGraph emptyArms emptyArms.target).map (fun _ => ()) = .ok () := by
    decide +kernel
  cases run : ofGraph emptyArms emptyArms.target with
  | error f => simp [run, Except.map] at analysed
  | ok l =>
    have consistent : emptyArms.Consistent := ⟨by decide +kernel, by decide +kernel⟩
    obtain ⟨stop, tiles⟩ := positions_tile_program (consistent.lists_once _) run
    exact ⟨l, stop, rfl, tiles⟩

end Liveness

end RegisterAllocation
