import RegisterAllocation.Proofs.Chains

/-!
What the intervals of an analysed program say of the flow of values: a value is kept from its
definition on, along every edge, and at every position up to which it is needed.
-/

namespace RegisterAllocation

namespace Liveness

open Graph
open Option (mem_unique)

variable {g : Graph} {target : Target} {tree : DominatorTree} {sets : LiveSets} {l : Liveness}
  {b : BlockId} {B : Block} {r : Range} {v : ValueId} {id : IntervalId} {i : Interval}
  {d : InstrId} {x : Instr} {p q : Position}

section

variable (given : g.Accepted tree l.numbering.order)

include given

theorem Analysed.has_number (analysed : Analysed g target tree sets l)
    (found : g.instrs[d]? = some x) :
    ∃ B r p, g.blocks[x.block]? = some B ∧ d ∈ B.instrs ∧
      l.numbering.rangeOf? x.block = some r ∧ l.numbering.numberOf? d = some p ∧
      r.start ≤ p ∧ p < r.stop ∧ p % 2 = 0 ∧ (if x.isPhi then p = r.start else r.start < p) := by
  obtain ⟨B, stored, listed⟩ := given.consistent.listed_of_instr found
  have member := given.valid.complete _ B stored
  obtain ⟨r, range, -⟩ := analysed.numbered.range _ member
  obtain ⟨p, isAt, low, high, even, place⟩ :=
    analysed.numbered.number_mem member stored range listed
  rw [phiAt_eq found] at place
  exact ⟨B, r, p, stored, listed, range, isAt, low, high, even, place⟩

theorem writes_unique {instrs : List InstrId}
    (found : g.instrs[d]? = some x) (result : v ∈ x.results)
    (isAt : l.numbering.numberOf? d = some p) (writes : g.Writes l.numbering instrs v q) :
    d ∈ instrs ∧ q = p := by
  obtain ⟨j, member, y, foundY, resultY, atY⟩ := writes
  obtain rfl := owner_of_nodup given.valid.results found foundY result resultY
  exact ⟨member, mem_unique atY isAt⟩

theorem Analysed.needed_start
    (analysed : Analysed g target tree sets l) (found : g.instrs[d]? = some x)
    (result : v ∈ x.results) (isAt : l.numbering.numberOf? d = some p) :
    Needed g l.numbering sets l.numbering.order v p ∧
      ∀ q, Needed g l.numbering sets l.numbering.order v q → p ≤ q := by
  obtain ⟨B, r, p', stored, listed, range, isAt', low, high, -, -⟩ := analysed.has_number given found
  obtain rfl := mem_unique isAt isAt'
  have member := given.valid.complete _ B stored
  constructor
  · refine ⟨x.block, member, B, r, stored, range, low, high, ?_, .inl ?_⟩
    · intro q writes
      exact (writes_unique given found result isAt writes).2.le
    · exact ⟨d, listed, x, found, result, isAt⟩
  · rintro q ⟨c, memberC, C, rc, storedC, rangeC, lowC, -, written, needed⟩
    have fromAbove : (∃ home, g.DefinedIn home v ∧ DominatorTree.Above tree g.entry home c) →
        p ≤ q := by
      rintro ⟨home, ⟨j, y, foundY, rfl, resultY⟩, above⟩
      obtain rfl := owner_of_nodup given.valid.results found foundY result resultY
      obtain rfl := mem_unique found foundY
      by_cases here : x.block = c
      · have listedC : d ∈ C.instrs := (given.consistent.listed_iff storedC found).mpr here
        exact written p ⟨d, listedC, x, found, result, isAt⟩
      · have := analysed.numbered.apart _ c r rc memberC (given.rank_lt storedC above here)
          range rangeC
        lia
    rcases needed with writes | live | ⟨u, ⟨j, listedJ, y, foundY, plain, input, -⟩, -⟩
    · exact (writes_unique given found result isAt writes).2.ge
    · exact fromAbove (analysed.settled.passed c v live)
    · refine fromAbove (given.above_used ⟨j, y, foundY, ?_, plain, input⟩)
      exact (given.consistent.listed_iff storedC foundY).mp listedJ

theorem Analysed.start_eq
    (analysed : Analysed g target tree sets l) (root : l.intervalOf? v = some id)
    (isId : l.pool.intervals[id]? = some i) (found : g.instrs[d]? = some x)
    (result : v ∈ x.results) (isAt : l.numbering.numberOf? d = some p) :
    i.ranges ≠ [] ∧ i.start = p := by
  obtain ⟨i', isId', first⟩ := analysed.first v id root
  obtain rfl := mem_unique isId isId'
  obtain ⟨atP, above⟩ := analysed.needed_start given found result isAt
  have covered : i.covers p = true := (first.covers p).mpr atP
  have filled := Interval.ranges_ne_nil covered
  refine ⟨filled, Nat.le_antisymm (Interval.start_le first.sorted covered) ?_⟩
  exact (Interval.le_start_iff first.sorted filled).mpr fun q inside =>
    above q ((first.covers q).mp inside)

theorem Analysed.has_root
    (analysed : Analysed g target tree sets l) (known : l.intervalOf? v = some id) :
    ∃ i ty d x p, l.pool.intervals[id]? = some i ∧ g.typeOf v = .ok ty ∧ g.instrs[d]? = some x ∧
      v ∈ x.results ∧ l.numbering.numberOf? d = some p ∧ i.ranges ≠ [] ∧ i.start = p ∧
      i = { Interval.ofValue id v ty d with ranges := i.ranges, uses := i.uses } := by
  obtain ⟨i, isId, first⟩ := analysed.first v id known
  obtain ⟨ty, d, x, isTy, found, result, made⟩ := first.made
  obtain ⟨-, -, p, -, -, -, isAt, -⟩ := analysed.has_number given found
  obtain ⟨filled, start⟩ := analysed.start_eq given known isId found result isAt
  exact ⟨i, ty, d, x, p, isId, isTy, found, result, isAt, filled, start, made⟩

end

theorem Analysed.has_value (analysed : Analysed g target tree sets l)
    (found : l.pool.intervals[id]? = some i) (virtual : i.physical = false) :
    ∃ v, i.value = some v ∧ l.intervalOf? v = some id := by
  rcases analysed.each id i found with ⟨v, known⟩ | ⟨place, call⟩
  · obtain ⟨i', found', first⟩ := analysed.first v id known
    obtain rfl := mem_unique found found'
    exact ⟨v, first.value_eq, known⟩
  · obtain ⟨c, reg, -, made⟩ := call.made
    rw [made] at virtual
    simp [Interval.ofRegister] at virtual

theorem Analysed.pool_tidy (given : g.Accepted tree l.numbering.order)
    (analysed : Analysed g target tree sets l) (joint : Position → Prop) : l.pool.Tidy joint := by
  have fit : ∀ (id : IntervalId) (i : Interval), l.pool.intervals[id]? = some i → i.Fit := by
    intro id i found
    rcases analysed.each id i found with ⟨v, known⟩ | ⟨place, call⟩
    · obtain ⟨i', found', first⟩ := analysed.first v id known
      obtain rfl := mem_unique found found'
      obtain ⟨i', ty, d, x, p, found', -, -, -, -, filled, -, made⟩ := analysed.has_root given known
      obtain rfl := mem_unique found found'
      refine ⟨first.sorted, fun _ => filled, first.uses, first.even, ?_⟩
      rw [made]
      rfl
    · obtain ⟨c, reg, -, made⟩ := call.made
      refine ⟨call.sorted, ?_, ?_, ?_, ?_⟩
      all_goals rw [made]
      · simp [Interval.ofRegister]
      · exact List.Pairwise.nil
      · simp [Interval.ofRegister]
      · rfl
  have owner : ∀ (id : IntervalId) (i : Interval) (v : ValueId), l.pool.intervals[id]? = some i →
      i.value = some v → l.intervalOf? v = some id := by
    intro id i v found own
    have virtual : i.physical = false := by rw [(fit id i found).kind, own]; rfl
    obtain ⟨w, ownW, known⟩ := analysed.has_value found virtual
    obtain rfl := mem_unique own ownW
    exact known
  refine ⟨fit, fun v => ?_⟩
  cases known : l.intervalOf? v with
  | none =>
    refine ⟨.void, [], List.nodup_nil, ?_, by simp, trivial, .nil⟩
    intro id
    simp only [List.not_mem_nil, false_iff]
    rintro ⟨i, found, own⟩
    simp [owner id i v found own] at known
  | some id =>
    obtain ⟨i, ty, d, x, p, found, -, -, -, -, -, -, made⟩ := analysed.has_root given known
    have own : i.value = some v := by rw [made]; rfl
    refine ⟨ty, [id], by simp, ?_, ?_, ⟨⟨i, found, by rw [made]; rfl, by simp⟩, trivial⟩, by simp⟩
    · intro k
      rw [List.mem_singleton]
      constructor
      · rintro rfl
        exact ⟨i, found, own⟩
      · rintro ⟨j, foundJ, ownJ⟩
        exact mem_unique (owner k j v foundJ ownJ) known
    · intro k member j foundJ
      obtain rfl : k = id := by simpa using member
      obtain rfl := mem_unique found foundJ
      rw [made]
      exact ⟨rfl, rfl⟩

namespace Analysed

section

variable (given : g.Accepted tree l.numbering.order) (analysed : Analysed g target tree sets l)
  (stored : g.blocks[b]? = some B) (range : l.numbering.rangeOf? b = some r)

include given analysed stored range

theorem needed_iff (low : r.start ≤ q) (high : q < r.stop) :
    Needed g l.numbering sets l.numbering.order v q ↔
      g.Kept l.numbering (sets.AtEnd b v) B.instrs v q := by
  have member := given.valid.complete b B stored
  constructor
  · rintro ⟨c, memberC, C, s, storedC, rangeC, lowC, highC, kept⟩
    obtain rfl := analysed.numbered.block_unique member memberC range rangeC low high lowC highC
    obtain rfl := mem_unique stored storedC
    exact kept
  · exact fun kept => ⟨b, member, B, r, stored, range, low, high, kept⟩

theorem needed_at (low : r.start ≤ q) (high : q + 1 < r.stop)
    (needed : Needed g l.numbering sets l.numbering.order v (q + 1)) :
    g.Writes l.numbering B.instrs v (q + 1) ∨ Needed g l.numbering sets l.numbering.order v q := by
  by_cases writes : g.Writes l.numbering B.instrs v (q + 1)
  · exact .inl writes
  right
  rw [analysed.needed_iff given stored range (by lia) high] at needed
  rw [analysed.needed_iff given stored range low (by lia)]
  obtain ⟨written, why⟩ := needed
  refine ⟨fun p writesP => ?_, ?_⟩
  · have := written p writesP
    have : p ≠ q + 1 := fun same => writes (same ▸ writesP)
    lia
  · rcases why with now | atEnd | ⟨u, reads, later⟩
    · exact absurd now writes
    · exact .inr (.inl atEnd)
    · exact .inr (.inr ⟨u, reads, by lia⟩)

theorem needed_at_start (needed : Needed g l.numbering sets l.numbering.order v r.start) :
    g.Writes l.numbering B.instrs v r.start ∨ sets.AtStart b v := by
  by_cases writes : g.Writes l.numbering B.instrs v r.start
  · exact .inl writes
  right
  have member := given.valid.complete b B stored
  obtain ⟨r', range', -, stop⟩ := analysed.numbered.range b member
  obtain rfl := mem_unique range range'
  rw [analysed.needed_iff given stored range (Nat.le_refl _) (by lia)] at needed
  obtain ⟨written, why⟩ := needed
  have nowhere : ¬g.DefinedIn b v := by
    rintro ⟨i, x, found, home, result⟩
    have listed := (given.consistent.listed_iff stored found).mpr home
    obtain ⟨p, isAt, low, -⟩ := analysed.numbered.number_mem member stored range listed
    have writesP : g.Writes l.numbering B.instrs v p := ⟨i, listed, x, found, result, isAt⟩
    obtain rfl := Nat.le_antisymm (written p writesP) low
    exact writes writesP
  refine (analysed.settled.atStart_iff given stored).mpr ⟨nowhere, ?_⟩
  rcases why with now | atEnd | ⟨u, ⟨i, listed, x, found, plain, input, -⟩, -⟩
  · exact absurd now writes
  · exact .inr atEnd
  · exact .inl ⟨i, x, found, (given.consistent.listed_iff stored found).mp listed, plain, input⟩

end

theorem not_needed_at_entry (given : g.Accepted tree l.numbering.order)
    (analysed : Analysed g target tree sets l)
    (noPhi : ∀ pc x, g.At g.entry pc x → x.isPhi = false)
    (range : l.numbering.rangeOf? g.entry = some r) :
    ¬Needed g l.numbering sets l.numbering.order v r.start := by
  intro needed
  have ordered := reversePostOrder_ok given.valid.ordered
  obtain ⟨E, stored⟩ := ordered.stored g.entry ordered.entry
  rcases analysed.needed_at_start given stored range needed with ⟨i, listed, x, found, -, isAt⟩ | live
  · obtain ⟨p, isAt', -, -, -, place⟩ :=
      analysed.numbered.number_mem ordered.entry stored range listed
    obtain rfl := mem_unique isAt isAt'
    obtain ⟨pc, isPc⟩ := List.mem_iff_getElem?.mp listed
    rw [phiAt_eq found, noPhi pc x ⟨E, i, stored, isPc, found⟩] at place
    simp at place
  · obtain ⟨home, -, other, above⟩ := analysed.settled.entered _ v live
    exact other (DominatorTree.above_root given.is_settled.root above rfl)

end Analysed

end Liveness

end RegisterAllocation
