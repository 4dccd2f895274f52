import Mathlib.Order.Bounds.Defs
import RegisterAllocation.Proofs.Splitting

/-!
Ranges as sets of positions. Sorted ranges are determined by the positions they cover, so it does
not matter in which pieces and in which order an interval gets its ranges. The first position that
two intervals have in common is the least one that both cover.
-/

namespace RegisterAllocation

namespace Range

variable {a b r : Range} {as bs rs : List Range} {pos : Position}

theorem Sorted.covers_tail (sorted : Sorted (r :: rs)) :
    Covers rs pos ↔ Covers (r :: rs) pos ∧ r.stop ≤ pos := by
  constructor
  · intro later
    exact ⟨covers_cons.mpr (.inr later), (sorted.stop_lt later).le⟩
  · rintro ⟨covered, behind⟩
    rcases covers_cons.mp covered with ⟨-, here⟩ | later
    · exact absurd here behind.not_gt
    · exact later

theorem Sorted.head_le (sortedA : Sorted (a :: as)) (sortedB : Sorted (b :: bs))
    (same : ∀ pos, Covers (a :: as) pos ↔ Covers (b :: bs) pos) :
    a.start ≤ b.start ∧ a.stop ≤ b.stop := by
  have start := sortedA.first_le ((same b.start).mpr sortedB.covers_start)
  refine ⟨start, ?_⟩
  by_contra longer
  -- Otherwise `a` reaches over the gap behind `b`.
  have filled := (sorted_cons.mp sortedB).1
  exact sortedB.open_stop ((same b.stop).mp (covers_cons.mpr (.inl (by lia))))

theorem Sorted.ext (sortedA : Sorted as) (sortedB : Sorted bs)
    (same : ∀ pos, Covers as pos ↔ Covers bs pos) : as = bs := by
  induction as generalizing bs with
  | nil =>
    cases bs with
    | nil => rfl
    | cons b bs => exact absurd ((same b.start).mpr sortedB.covers_start) covers_nil
  | cons a as ih =>
    cases bs with
    | nil => exact absurd ((same a.start).mp sortedA.covers_start) covers_nil
    | cons b bs =>
      obtain ⟨start, stop⟩ := sortedA.head_le sortedB same
      obtain ⟨start', stop'⟩ := sortedB.head_le sortedA fun pos => (same pos).symm
      obtain rfl : a = b := by
        cases a
        cases b
        exact congrArg₂ Range.mk (start.antisymm start') (stop.antisymm stop')
      rw [ih (sorted_cons.mp sortedA).2.2 (sorted_cons.mp sortedB).2.2 fun pos => ?_]
      rw [sortedA.covers_tail, sortedB.covers_tail, same]

end Range

namespace Interval

variable {i j : Interval} {rs : List Range} {pos lo q : Position}

def addRanges (i : Interval) (rs : List Range) : Except Fault Interval :=
  rs.foldlM (fun i r => i.addRange r.start r.stop) i

theorem addRanges_total (sorted : Range.Sorted i.ranges) (filled : ∀ r ∈ rs, r.start < r.stop) :
    ∃ j, i.addRanges rs = .ok j ∧ Range.Sorted j.ranges ∧
      ∀ q, j.covers q = true ↔ (∃ r ∈ rs, r.contains q = true) ∨ i.covers q = true := by
  induction rs generalizing i with
  | nil => exact ⟨i, rfl, sorted, by simp⟩
  | cons r rest ih =>
    obtain ⟨first, later⟩ := List.forall_mem_cons.mp filled
    have run : i.addRange r.start r.stop = .ok { i with ranges := Range.insert r i.ranges } := by
      rw [addRange, (ensure_ok (u := ())).mpr first]
      rfl
    obtain ⟨-, sorted, covers⟩ := covers_addRange sorted run
    obtain ⟨j, rest, sorted, covers'⟩ := ih sorted later
    refine ⟨j, ?_, sorted, fun q => ?_⟩
    · rw [addRanges, List.foldlM_cons, run, ok_bind]
      exact rest
    · rw [covers', covers, List.exists_mem_cons_iff, Range.contains, Bool.and_eq_true,
        decide_eq_true_eq, decide_eq_true_eq, or_left_comm, or_assoc]

theorem startAt_total (i : Interval) (room : pos < wordLimit - 1) : ∃ j, i.startAt pos = .ok j := by
  have added : ∃ j, (do i.addRange pos (← addWord pos 1)) = .ok j := by
    rw [addWord, if_pos (by lia), ok_bind, addRange, (ensure_ok (u := ())).mpr (by lia)]
    exact ⟨_, rfl⟩
  unfold startAt
  split
  · split
    · exact ⟨_, rfl⟩
    · exact added
  · exact added

/-- Added in any order, ranges end up sorted and apart from each other, and depend on the positions
they cover only. Starting at a position keeps them so. -/
theorem ranges_are_canonical (newI : i.ranges = []) (newJ : j.ranges = []) (rs ss : List Range)
    (filledR : ∀ r ∈ rs, r.start < r.stop) (filledS : ∀ s ∈ ss, s.start < s.stop) :
    ∃ i' j', i.addRanges rs = .ok i' ∧ j.addRanges ss = .ok j' ∧
      Range.Sorted i'.ranges ∧
      (∀ q, i'.covers q = true ↔ ∃ r ∈ rs, r.contains q = true) ∧
      ((∀ q, (∃ r ∈ rs, r.contains q = true) ↔ ∃ s ∈ ss, s.contains q = true) →
        i'.ranges = j'.ranges) ∧
      ∀ (k : Interval) (pos : Position), Range.Sorted k.ranges → pos < wordLimit - 1 →
        ∃ k', k.startAt pos = .ok k' ∧ Range.Sorted k'.ranges ∧
          ∀ r ∈ k.ranges.head?, r.contains pos = true →
            ∀ q, k'.covers q = true ↔ k.covers q = true ∧ pos ≤ q := by
  have empty {k : Interval} (new : k.ranges = []) : Range.Sorted k.ranges ∧ ∀ q, k.covers q = false :=
    ⟨new ▸ .nil, by simp [covers, new]⟩
  obtain ⟨i', runI, sortedI, coversI⟩ := addRanges_total (empty newI).1 filledR
  obtain ⟨j', runJ, sortedJ, coversJ⟩ := addRanges_total (empty newJ).1 filledS
  simp only [(empty newI).2, (empty newJ).2, Bool.false_eq_true, or_false] at coversI coversJ
  refine ⟨i', j', runI, runJ, sortedI, coversI, fun same => ?_, fun k pos sorted room => ?_⟩
  · refine sortedI.ext sortedJ fun q => ?_
    rw [← covers_iff, ← covers_iff, coversI, coversJ, same]
  · obtain ⟨k', run⟩ := k.startAt_total room
    obtain ⟨-, sorted', step⟩ := startAt_cases sorted run
    refine ⟨k', run, sorted', fun r first inside => ?_⟩
    rcases step with ⟨-, covers⟩ | ⟨outside, -⟩
    · exact covers
    · simp [outside r first] at inside

/-- Three ranges that a fourth one joins. -/
theorem joined_is_canonical : ∃ i' j',
    (ofValue 0 7 .int64 3).addRanges [⟨10, 12⟩, ⟨2, 4⟩, ⟨6, 8⟩, ⟨4, 10⟩] = .ok i' ∧
      (ofRegister 1 (.register 0) .int64).addRanges [⟨2, 12⟩] = .ok j' ∧
      i'.ranges = j'.ranges := by
  obtain ⟨i', j', runI, runJ, -, -, unique, -⟩ :=
    ranges_are_canonical (i := ofValue 0 7 .int64 3) (j := ofRegister 1 (.register 0) .int64)
      rfl rfl [⟨10, 12⟩, ⟨2, 4⟩, ⟨6, 8⟩, ⟨4, 10⟩] [⟨2, 12⟩] (by decide) (by decide)
  refine ⟨i', j', runI, runJ, unique fun q => ?_⟩
  simp only [Range.contains, List.exists_mem_cons_iff, Bool.and_eq_true, decide_eq_true_eq,
    List.not_mem_nil, false_and, exists_false, or_false]
  lia

theorem meets_iff (sortedI : Range.Sorted i.ranges) (sortedJ : Range.Sorted j.ranges) :
    i.meets? j lo = some q ↔
      IsLeast {q | lo ≤ q ∧ i.covers q = true ∧ j.covers q = true} q := by
  constructor
  · intro found
    refine ⟨meets_covers found, ?_⟩
    rintro q' ⟨low, inI, inJ⟩
    obtain ⟨p, found', le⟩ := meets_le sortedI sortedJ low inI inJ
    obtain rfl := Option.some.inj (found.symm.trans found')
    exact le
  · rintro ⟨⟨low, inI, inJ⟩, least⟩
    obtain ⟨p, found, le⟩ := meets_le sortedI sortedJ low inI inJ
    rw [found, le.antisymm (least (meets_covers found))]

end Interval

namespace IntervalPool

variable {p p' : IntervalPool} {a b id child : IntervalId} {i j : Interval} {lo pos : Position}

inductive Formed : IntervalPool → Prop where
  | empty : Formed .empty
  | addValue {p : IntervalPool} (v : ValueId) (ty : ValueType) (d : InstrId) :
      Formed p → Formed (p.addValue v ty d).2
  | addRegister {p : IntervalPool} (l : Location) (ty : ValueType) :
      Formed p → Formed (p.addRegister l ty).2
  | addRange {p p' : IntervalPool} {id : IntervalId} {lo hi : Position} :
      Formed p → p.modify id (·.addRange lo hi) = .ok p' → Formed p'
  | startAt {p p' : IntervalPool} {id : IntervalId} {pos : Position} :
      Formed p → p.modify id (·.startAt pos) = .ok p' → Formed p'
  | splitAt {p p' : IntervalPool} {id child : IntervalId} {pos : Position} :
      Formed p → p.splitAt id pos = .ok (child, p') → Formed p'
  | adjust {p p' : IntervalPool} {id : IntervalId} {change : Interval → Except Fault Interval} :
      Formed p → (∀ i j, change i = .ok j → j.ranges = i.ranges) → p.modify id change = .ok p' →
      Formed p'

namespace Formed

theorem sorted_modify {change : Interval → Except Fault Interval}
    (sorted : ∀ (k : IntervalId) (m : Interval), p.intervals[k]? = some m → Range.Sorted m.ranges)
    (keeps : ∀ i j, Range.Sorted i.ranges → change i = .ok j → Range.Sorted j.ranges)
    (run : p.modify id change = .ok p') (k : IntervalId) (m : Interval)
    (found : p'.intervals[k]? = some m) : Range.Sorted m.ranges := by
  obtain ⟨i, j, foundI, changed, rfl⟩ := modify_ok run
  rcases set_cases foundI found with ⟨-, rfl⟩ | ⟨-, before⟩
  · exact keeps i j (sorted id i foundI) changed
  · exact sorted k m before

theorem ranges_sorted (made : Formed p) (k : IntervalId) (m : Interval)
    (found : p.intervals[k]? = some m) :
    Range.Sorted m.ranges := by
  induction made generalizing k m with
  | empty => simp [IntervalPool.empty] at found
  | addValue v ty d _ ih | addRegister l ty _ ih =>
    simp only [IntervalPool.addValue, IntervalPool.addRegister, Array.getElem?_push] at found
    split at found
    · obtain rfl := Option.some.inj found
      exact .nil
    · exact ih k m found
  | addRange _ run ih =>
    exact sorted_modify ih (fun i j sorted added => (Interval.covers_addRange sorted added).2.1) run
      k m found
  | startAt _ run ih =>
    exact sorted_modify ih (fun i j sorted started => (Interval.startAt_cases sorted started).2.1)
      run k m found
  | splitAt _ run ih =>
    obtain ⟨i, foundI, -, ⟨-, -, rfl⟩ | ⟨-, -, -, rfl⟩⟩ := splitAt_ok run
    · exact ih k m found
    · rcases divided_cases foundI found with ⟨-, rfl⟩ | ⟨-, rfl⟩ | ⟨-, before⟩
      · exact (ih _ i foundI).before_sorted
      · exact (ih _ i foundI).after_sorted
      · exact ih k m before
  | adjust _ same run ih =>
    exact sorted_modify ih (fun i j sorted changed => same i j changed ▸ sorted) run k m found

end Formed

/-- Two intervals first meet at the least position that both cover. -/
theorem meets_exactly (made : Formed p) (made' : Formed p') (isI : p.get a = .ok i)
    (isJ : p'.get b = .ok j) (lo : Position) :
    (∀ q, i.meets? j lo = some q ↔
        IsLeast {q | lo ≤ q ∧ i.covers q = true ∧ j.covers q = true} q) ∧
      (i.meets? j lo = none ↔ ∀ q, lo ≤ q → ¬(i.covers q = true ∧ j.covers q = true)) ∧
      i.meets? j lo = j.meets? i lo := by
  have sortedI := made.ranges_sorted a i (get_ok.mp isI)
  have sortedJ := made'.ranges_sorted b j (get_ok.mp isJ)
  refine ⟨fun q => Interval.meets_iff sortedI sortedJ, ?_, ?_⟩
  · constructor
    · rintro none q low ⟨inI, inJ⟩
      obtain ⟨p, found, -⟩ := Interval.meets_le sortedI sortedJ low inI inJ
      simp [none] at found
    · intro apart
      refine Option.eq_none_iff_forall_ne_some.mpr fun q found => ?_
      obtain ⟨low, both⟩ := Interval.meets_covers found
      exact apart q low both
  · refine Option.ext fun q => ?_
    rw [Interval.meets_iff sortedI sortedJ, Interval.meets_iff sortedJ sortedI]
    simp only [and_comm]

/-- The rest of a split interval meets a register that was wanted before the split already. -/
theorem splitOff_meets : ∃ p i j, Formed p ∧ p.get 2 = .ok i ∧ p.get 1 = .ok j ∧
    IsLeast {q | 3 ≤ q ∧ i.covers q = true ∧ j.covers q = true} 9 ∧
      i.meets? j 3 = j.meets? i 3 := by
  have start := (Formed.empty.addValue 7 .int64 3).addRegister (.register 0) .int64
  have low := start.addRange (rfl : modify _ 0 (·.addRange 2 6) = .ok _)
  have high := low.addRange (rfl : modify _ 0 (·.addRange 8 12) = .ok _)
  have early := high.addRange (rfl : modify _ 1 (·.addRange 4 5) = .ok _)
  have late := early.addRange (rfl : modify _ 1 (·.addRange 9 10) = .ok _)
  have made := late.splitAt (rfl : splitAt _ 0 7 = .ok (2, _))
  obtain ⟨first, -, symmetric⟩ := meets_exactly made made (a := 2) (b := 1) rfl rfl 3
  exact ⟨_, _, _, made, rfl, rfl, (first 9).mp (by decide +kernel), symmetric⟩

end IntervalPool

end RegisterAllocation
