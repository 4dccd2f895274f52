import RegisterAllocation.Proofs.Traversal
import RegisterAllocation.Proofs.Uses

/-!
What the intervals of an analysed program say, all in all: which positions the interval of a value
covers, which uses it lists, and which positions the intervals of registers cover.
-/

namespace RegisterAllocation

open List Option Graph Instr Interval IntervalPool

namespace Graph

def sites (g : Graph) (n : Numbering) (v : ValueId) (i : InstrId) : List Position :=
  match g.instrs[i]?, n.numberOf? i with
  | some x, some pos => replicate (x.inputs.count v + x.results.count v) pos
  | _, _ => []

theorem map_requests (g : Graph) (n : Numbering) (v : ValueId) (i : InstrId) :
    (g.requests n v i).map Prod.fst = g.sites n v i := by
  simp only [requests, sites]
  cases g.instrs[i]? <;> cases n.numberOf? i <;> simp [replicate_append_replicate]

def usePositions (g : Graph) (n : Numbering) (v : ValueId) : List Position :=
  n.order.flatMap fun b => (g.body b).flatMap (g.sites n v)

/-- A value is read behind a block: it is live at the start of a successor, or a phi there takes it
along the edge. -/
def LiveOut (g : Graph) (l : Liveness) (b : BlockId) (v : ValueId) : Prop :=
  ∃ s, g.Edge b s ∧ ((∃ vs, l.liveIn[s]? = some vs ∧ v ∈ vs) ∨ g.TakenAlong b s v)

/-- From where on a value can be kept in a block: from its definition if that is in the block, and
else from the start. -/
def Begins (g : Graph) (n : Numbering) (B : Block) (r : Range) (v : ValueId) (d : Position) : Prop :=
  g.Writes n B.instrs v d ∨ (d = r.start ∧ ∀ p, ¬g.Writes n B.instrs v p)

end Graph

namespace Liveness

section

variable {g : Graph} {target : Target} {tree : DominatorTree} {sets : LiveSets} {l : Liveness}
  {b : BlockId} {B : Block} {r : Range} {v : ValueId} {id : IntervalId} {i : Interval}
  {p d : Position}

theorem Analysed.register_has_interval (analysed : Analysed g target tree sets l)
    {place : Location} (call : g.CallAt l.numbering p) (clobbers : target.Clobbers place) :
    ∃ (id : IntervalId) (i : Interval), l.pool.intervals[id]? = some i ∧ i.physical = true ∧
      i.location = place := by
  obtain ⟨cc, c, reg, isCC, saved, inside, rfl⟩ := clobbers
  obtain ⟨id, -, i, found, -, isCall⟩ := analysed.calls cc c reg p isCC saved inside call
  obtain ⟨c', reg', -, made⟩ := isCall.made
  refine ⟨id, i, found, ?_, ?_⟩
  all_goals
    rw [made]
    rfl

section

variable (given : g.Accepted tree l.numbering.order)

include given

theorem uses_perm (run : ofGraph g target = .ok l)
    (known : l.intervalOf? v = some id) (found : l.pool.intervals[id]? = some i) :
    (i.uses.map Use.pos).Perm (g.usePositions l.numbering v) := by
  have positions := (requests_perm given run known found).map Prod.fst
  simp only [List.map_map, map_flatMap, g.map_requests] at positions
  exact positions

theorem register_covers (run : ofGraph g target = .ok l) (found : l.pool.intervals[id]? = some i)
    (physical : i.physical = true) :
    id ∈ l.physical ∧ target.Clobbers i.location ∧
      ∀ p, i.covers p = true ↔ g.CallAt l.numbering p := by
  simp only [ofGraph, bind_ok, pure_ok] at run
  obtain ⟨n, isN, sets, -, start, blank, last, drawn, rfl⟩ := run
  have numbered := Numbering.numbered_ofGraph given.consistent isN
  have first := Draft.ofGraph_blank given blank
  obtain ⟨fits, -, blocks⟩ := first.fits.after_addBlocks given numbered (nil_append _).symm drawn
  have logs := Draft.Logs.of_foldrM _ (fun b d d' distinct step => Draft.addBlock_logs distinct step)
    first.fits.to_distinct drawn
  rcases fits.each id (found_lt found) with ⟨v, known⟩ | ⟨place, known⟩
  · obtain ⟨i', found', isFirst⟩ := fits.first v id known
    obtain rfl := mem_unique found found'
    obtain ⟨ty, d, x, -, -, -, made⟩ := isFirst.made
    rw [made] at physical
    simp [ofValue] at physical
  · obtain ⟨i', found', call⟩ := fits.call place id known
    obtain rfl := mem_unique found found'
    obtain ⟨c, reg, -, made⟩ := call.made
    have isPlace : i.location = place := by
      rw [made]
      rfl
    have clobbers : target.Clobbers place :=
      (logs.registers place id known).resolve_left (by simp [first.registers])
    obtain ⟨cc, c, reg, isCC, saved, inside, rfl⟩ := clobbers
    refine ⟨?_, isPlace ▸ ⟨cc, c, reg, isCC, saved, inside, rfl⟩, fun p => ⟨call.covers p, ?_⟩⟩
    · simp only [Draft.physical, mem_flatMap, mem_filterMap, mem_range]
      exact ⟨c, by cases c <;> simp [RegisterClass.all], reg, inside, known⟩
    · rintro ⟨j, x, foundX, isCall, isAt⟩
      obtain ⟨B, stored, listed⟩ := given.consistent.listed_of_instr foundX
      obtain ⟨id', i', known', found', covers⟩ := blocks _ (given.valid.complete _ B stored) B stored
        j listed x p foundX isCall isAt cc c reg isCC saved inside
      obtain rfl := mem_unique known known'
      obtain rfl := mem_unique found found'
      exact covers

theorem Analysed.atEnd_iff
    (analysed : Analysed g target tree sets l) (stored : g.blocks[b]? = some B) :
    sets.AtEnd b v ↔ g.LiveOut l b v := by
  rw [analysed.settled.atEnd_iff given stored, Graph.LiveOut, analysed.liveIn]
  simp [Edge, stored, LiveSets.AtStart]

/-- The interval of a value covers a position of a block if the value has been defined by then, and
is read later, in the block or behind it, or defined right there. -/
theorem Analysed.covers_iff
    (analysed : Analysed g target tree sets l) (known : l.intervalOf? v = some id)
    (found : l.pool.intervals[id]? = some i) (stored : g.blocks[b]? = some B)
    (range : l.numbering.rangeOf? b = some r) (begins : g.Begins l.numbering B r v d)
    (low : r.start ≤ p) (high : p < r.stop) :
    i.covers p = true ↔ d ≤ p ∧ (g.LiveOut l b v ∨
      (∃ u, g.Reads l.numbering B.instrs v u ∧ p < u) ∨
      (g.Writes l.numbering B.instrs v d ∧ p = d)) := by
  obtain ⟨i', found', first⟩ := analysed.first v id known
  obtain rfl := mem_unique found found'
  rw [first.covers, analysed.needed_iff given stored range low high, Kept,
    analysed.atEnd_iff given stored]
  rcases begins with writes | ⟨rfl, nowhere⟩
  · have defined := writes
    obtain ⟨j, -, x, foundX, result, isAt⟩ := defined
    have unique {q : Position} (other : g.Writes l.numbering B.instrs v q) : q = d :=
      (writes_unique given foundX result isAt other).2
    constructor
    · rintro ⟨written, here | behind⟩
      · exact ⟨written d writes, .inr (.inr ⟨writes, unique here⟩)⟩
      · exact ⟨written d writes, behind.imp_right .inl⟩
    · rintro ⟨late, behind | reads | ⟨-, rfl⟩⟩
      · exact ⟨fun q other => unique other ▸ late, .inr (.inl behind)⟩
      · exact ⟨fun q other => unique other ▸ late, .inr (.inr reads)⟩
      · exact ⟨fun q other => (unique other).le, .inl writes⟩
  · simp [nowhere, low]

end

theorem exists_begins (l : Liveness) (B : Block) (r : Range) (v : ValueId) :
    ∃ d, g.Begins l.numbering B r v d := by
  by_cases written : ∃ d, g.Writes l.numbering B.instrs v d
  · exact written.imp fun d writes => .inl writes
  · exact ⟨r.start, .inr ⟨rfl, not_exists.mp written⟩⟩

/-- The intervals of an accepted program. The interval of a value covers the positions from its
definition on at which it is still to be read, and lists a use for each time an instruction reads or
defines it, in order; that of a register covers the calls that destroy it, and once there is a call
each register that calls destroy has one. -/
theorem intervals_cover_live_positions (consistent : g.Consistent) (accepted : g.validate = .ok ())
    (run : ofGraph g target = .ok l) :
    (∀ v < g.values.size, ∃ id i, l.intervalOf? v = some id ∧ l.pool.intervals[id]? = some i ∧
      (∀ b ∈ l.numbering.order, ∃ B r d, g.blocks[b]? = some B ∧
        l.numbering.rangeOf? b = some r ∧ g.Begins l.numbering B r v d ∧
        ∀ p, r.start ≤ p → p < r.stop → (i.covers p = true ↔ d ≤ p ∧ (g.LiveOut l b v ∨
          (∃ u, g.Reads l.numbering B.instrs v u ∧ p < u) ∨
          (g.Writes l.numbering B.instrs v d ∧ p = d)))) ∧
      (i.uses.map Use.pos).Pairwise (· ≤ ·) ∧
      (i.uses.map Use.pos).Perm (g.usePositions l.numbering v)) ∧
    (∀ id i, l.pool.intervals[id]? = some i → i.physical = true → id ∈ l.physical ∧
      target.Clobbers i.location ∧ ∀ p, i.covers p = true ↔ g.CallAt l.numbering p) ∧
    ∀ p place, g.CallAt l.numbering p → target.Clobbers place →
      ∃ (id : IntervalId) (i : Interval), l.pool.intervals[id]? = some i ∧ i.physical = true ∧
        i.location = place := by
  obtain ⟨tree, order, valid⟩ := Graph.validate_ok accepted
  obtain ⟨sets, analysed⟩ := ofGraph_analysed ⟨consistent, valid⟩ run
  obtain rfl : order = l.numbering.order :=
    Except.ok.inj (valid.ordered.symm.trans analysed.numbered.ordered)
  have given : g.Accepted tree l.numbering.order := ⟨consistent, valid⟩
  refine ⟨fun v inside => ?_, fun id i found => register_covers given run found,
    fun p place call clobbers => analysed.register_has_interval call clobbers⟩
  obtain ⟨x, foundX, result⟩ := valid.defined v _ (Array.getElem?_eq_getElem inside)
  obtain ⟨id, known⟩ := analysed.rooted _ x foundX v result
  obtain ⟨i, found, first⟩ := analysed.first v id known
  refine ⟨id, i, known, found, fun b member => ?_, pairwise_map.mpr first.uses,
    uses_perm given run known found⟩
  obtain ⟨B, stored⟩ := (Graph.reversePostOrder_ok valid.ordered).stored b member
  obtain ⟨r, range, -⟩ := analysed.numbered.range b member
  obtain ⟨d, begins⟩ := exists_begins (g := g) l B r v
  exact ⟨B, r, d, stored, range, begins, fun p low high =>
    analysed.covers_iff given known found stored range begins low high⟩

def callInLoop : Graph :=
  { new "call in loop" .aarch64 with
    blocks := #[⟨[0, 1], [], [1]⟩, ⟨[2, 3, 4], [0, 1], [1, 2]⟩, ⟨[5], [1], []⟩]
    instrs := #[
      { ofOpcode .parameter 0 .int64 with results := [0] },
      { ofOpcode (.constant 1) 0 .int64 with results := [1] },
      { ofOpcode .phi 1 .int64 with inputs := [1, 3], results := [2] },
      { ofOpcode (.call 1) 1 .int64 with inputs := [2, 0], results := [3] },
      { ofOpcode (.branch .lt) 1 .void with inputs := [3, 0] },
      { ofOpcode .ret 2 .int64 with inputs := [0] }]
    values := #[⟨0, .int64⟩, ⟨1, .int64⟩, ⟨2, .int64⟩, ⟨3, .int64⟩] }

example : (ofGraph callInLoop callInLoop.target).map (fun l => (l.pool.intervals.toList.take 4).map
    fun i => (i.ranges, i.uses.map Use.pos)) =
    .ok [([⟨2, 14⟩], [2, 8, 10, 14]), ([⟨4, 6⟩], [4]), ([⟨6, 8⟩], [8]), ([⟨8, 12⟩], [8, 10])] := by
  decide +kernel

theorem callInLoop_covered : ∃ l id i, ofGraph callInLoop callInLoop.target = .ok l ∧
    l.intervalOf? 0 = some id ∧ l.pool.intervals[id]? = some i ∧
    (i.uses.map Use.pos).Perm (callInLoop.usePositions l.numbering 0) ∧
    (∀ id i, l.pool.intervals[id]? = some i → i.physical = true → id ∈ l.physical ∧
      callInLoop.target.Clobbers i.location ∧
      ∀ p, i.covers p = true ↔ callInLoop.CallAt l.numbering p) ∧
    ∃ (k : IntervalId) (j : Interval), l.pool.intervals[k]? = some j ∧ j.physical = true ∧
      j.location = .register 0 ∧ j.covers 8 = true := by
  have analysed : (ofGraph callInLoop callInLoop.target).map (·.numbering.numberOf? 3) =
      .ok (some 8) := by
    decide +kernel
  obtain ⟨l, run, isAt⟩ : ∃ l, ofGraph callInLoop callInLoop.target = .ok l ∧
      l.numbering.numberOf? 3 = some 8 := by
    cases isL : ofGraph callInLoop callInLoop.target with
    | ok l => exact ⟨l, rfl, by simpa [isL, Except.map] using analysed⟩
    | error f => simp [isL, Except.map] at analysed
  obtain ⟨values, registers, calls⟩ := intervals_cover_live_positions
    ⟨by decide +kernel, by decide +kernel⟩ (by decide +kernel) run
  obtain ⟨id, i, known, found, -, -, uses⟩ := values 0 (by decide)
  have call : callInLoop.CallAt l.numbering 8 := ⟨3, _, rfl, rfl, isAt⟩
  obtain ⟨k, j, foundJ, physical, isPlace⟩ := calls 8 (.register 0) call
    ⟨_, .int, 0, rfl, by decide, by decide, rfl⟩
  obtain ⟨-, -, covers⟩ := registers k j foundJ physical
  exact ⟨l, id, i, run, known, found, uses, registers, k, j, foundJ, physical, isPlace,
    (covers 8).mpr call⟩

end

end Liveness

end RegisterAllocation
