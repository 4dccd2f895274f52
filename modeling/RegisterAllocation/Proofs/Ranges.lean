import RegisterAllocation.Interval.Basic
import RegisterAllocation.Proofs.Outcome

/-!
The positions that lists of ranges cover. Sorted ranges do not touch, so where they start and stop,
what they have in common and what splitting them leaves can all be said by the positions covered.
-/

namespace RegisterAllocation

namespace Range

def Covers (rs : List Range) (pos : Position) : Prop :=
  ∃ r ∈ rs, r.start ≤ pos ∧ pos < r.stop

/-- Ranges with positions in them, in order and with gaps between them. -/
structure Sorted (rs : List Range) : Prop where
  filled : ∀ r ∈ rs, r.start < r.stop
  apart : rs.Pairwise fun r s => r.stop < s.start

variable {r c : Range} {rs as bs : List Range} {pos lo : Position}

@[simp] theorem covers_nil : ¬Covers [] pos := by
  simp [Covers]

theorem covers_cons : Covers (r :: rs) pos ↔ (r.start ≤ pos ∧ pos < r.stop) ∨ Covers rs pos := by
  simp [Covers]

theorem Sorted.nil : Sorted [] := ⟨by simp, by simp⟩

theorem sorted_cons : Sorted (r :: rs) ↔
    r.start < r.stop ∧ (∀ s ∈ rs, r.stop < s.start) ∧ Sorted rs := by
  constructor
  · rintro ⟨filled, apart⟩
    obtain ⟨head, tail⟩ := List.pairwise_cons.mp apart
    exact ⟨filled r List.mem_cons_self, head,
      fun s hs => filled s (List.mem_cons_of_mem r hs), tail⟩
  · rintro ⟨here, head, filled, apart⟩
    refine ⟨?_, List.pairwise_cons.mpr ⟨head, apart⟩⟩
    intro s hs
    rcases List.mem_cons.mp hs with rfl | hs
    · exact here
    · exact filled s hs

theorem Sorted.stop_lt (sorted : Sorted (r :: rs)) (covered : Covers rs pos) : r.stop < pos := by
  obtain ⟨s, hs, low, -⟩ := covered
  have := (sorted_cons.mp sorted).2.1 s hs
  lia

theorem Sorted.first_le (sorted : Sorted (r :: rs)) (covered : Covers (r :: rs) pos) :
    r.start ≤ pos := by
  rcases covers_cons.mp covered with here | later
  · exact here.1
  · have := sorted.stop_lt later
    have := (sorted_cons.mp sorted).1
    lia

theorem Sorted.covers_start (sorted : Sorted (r :: rs)) : Covers (r :: rs) r.start :=
  covers_cons.mpr (.inl ⟨Nat.le_refl _, (sorted_cons.mp sorted).1⟩)

theorem Sorted.open_stop (sorted : Sorted (r :: rs)) : ¬Covers (r :: rs) r.stop := by
  intro covered
  rcases covers_cons.mp covered with ⟨-, here⟩ | later
  · exact Nat.lt_irrefl _ here
  · exact Nat.lt_irrefl _ (sorted.stop_lt later)

theorem covers_insert (sorted : Sorted rs) (filled : r.start < r.stop) :
    Covers (insert r rs) pos ↔ (r.start ≤ pos ∧ pos < r.stop) ∨ Covers rs pos := by
  induction rs generalizing r with
  | nil => simp [insert, Covers]
  | cons c rest ih =>
    obtain ⟨here, -, tail⟩ := sorted_cons.mp sorted
    rw [insert]
    split
    · rw [covers_cons, ih tail filled, covers_cons]
      tauto
    · split
      · rw [covers_cons]
      · -- the two ranges overlap or touch, so what they cover together has no hole
        rw [ih tail (by dsimp only; lia), covers_cons]
        dsimp only
        constructor
        · rintro (inside | later)
          · lia
          · exact .inr (.inr later)
        · rintro (inside | inside | later)
          · exact .inl (by lia)
          · exact .inl (by lia)
          · exact .inr later

theorem start_insert {s : Range} (member : s ∈ insert r rs) :
    r.start ≤ s.start ∨ ∃ c ∈ rs, c.start ≤ s.start := by
  induction rs generalizing r with
  | nil =>
    obtain rfl : s = r := by simpa [insert] using member
    exact .inl (Nat.le_refl _)
  | cons c rest ih =>
    rw [insert] at member
    split at member
    · rcases List.mem_cons.mp member with rfl | member
      · exact .inr ⟨s, List.mem_cons_self, Nat.le_refl _⟩
      · rcases ih member with low | ⟨d, hd, low⟩
        · exact .inl low
        · exact .inr ⟨d, List.mem_cons_of_mem c hd, low⟩
    · split at member
      · rcases List.mem_cons.mp member with rfl | member
        · exact .inl (Nat.le_refl _)
        · exact .inr ⟨s, member, Nat.le_refl _⟩
      · rcases ih member with low | ⟨d, hd, low⟩
        · by_cases least : r.start ≤ c.start
          · exact .inl (by dsimp only at low; lia)
          · exact .inr ⟨c, List.mem_cons_self, by dsimp only at low; lia⟩
        · exact .inr ⟨d, List.mem_cons_of_mem c hd, low⟩

theorem sorted_insert (sorted : Sorted rs) (filled : r.start < r.stop) : Sorted (insert r rs) := by
  induction rs generalizing r with
  | nil => exact sorted_cons.mpr ⟨filled, by simp, .nil⟩
  | cons c rest ih =>
    obtain ⟨here, head, tail⟩ := sorted_cons.mp sorted
    rw [insert]
    split
    · rename_i before
      refine sorted_cons.mpr ⟨here, ?_, ih tail filled⟩
      intro s hs
      rcases start_insert hs with low | ⟨d, hd, low⟩
      · lia
      · have := head d hd
        lia
    · split
      · rename_i after
        refine sorted_cons.mpr ⟨filled, ?_, sorted⟩
        intro s hs
        rcases List.mem_cons.mp hs with rfl | hs
        · exact after
        · have := head s hs
          lia
      · exact ih tail (by dsimp only; lia)

theorem firstShared_le {a : Range} {next : List Range → Option Position} {q : Position}
    (sortedA : Sorted (a :: as)) (sortedB : Sorted bs) (low : lo ≤ q)
    (coveredA : Covers (a :: as) q) (coveredB : Covers bs q)
    (later : ∀ bs, Sorted bs → Covers as q → Covers bs q → ∃ p, next bs = some p ∧ p ≤ q) :
    ∃ p, firstShared lo a next bs = some p ∧ p ≤ q := by
  induction bs with
  | nil => simp at coveredB
  | cons b rest ih =>
    have startA := sortedA.first_le coveredA
    have startB := sortedB.first_le coveredB
    rw [firstShared]
    split
    · exact ⟨_, rfl, by lia⟩
    · rename_i disjoint
      split
      · rename_i shorter
        refine later _ sortedB ?_ coveredB
        rcases covers_cons.mp coveredA with here | inAs
        · rcases covers_cons.mp coveredB with there | inRest
          · lia
          · have := sortedB.stop_lt inRest
            lia
        · exact inAs
      · refine ih (sorted_cons.mp sortedB).2.2 ?_
        rcases covers_cons.mp coveredB with there | inRest
        · rcases covers_cons.mp coveredA with here | inAs
          · lia
          · have := sortedA.stop_lt inAs
            lia
        · exact inRest

theorem firstCommon_le {q : Position} (sortedA : Sorted as) (sortedB : Sorted bs) (low : lo ≤ q)
    (coveredA : Covers as q) (coveredB : Covers bs q) :
    ∃ p, firstCommon lo as bs = some p ∧ p ≤ q := by
  induction as generalizing bs with
  | nil => simp at coveredA
  | cons a rest ih =>
    refine firstShared_le sortedA sortedB low coveredA coveredB ?_
    intro bs sortedB inRest inBs
    exact ih (sorted_cons.mp sortedA).2.2 sortedB inRest inBs

theorem firstShared_covers {a : Range} {next : List Range → Option Position} {q : Position}
    (later : ∀ bs, next bs = some q → lo ≤ q ∧ Covers as q ∧ Covers bs q)
    (found : firstShared lo a next bs = some q) : lo ≤ q ∧ Covers (a :: as) q ∧ Covers bs q := by
  induction bs with
  | nil => simp [firstShared] at found
  | cons b rest ih =>
    rw [firstShared] at found
    split at found
    · obtain rfl := Option.some.inj found
      exact ⟨by lia, covers_cons.mpr (.inl (by lia)), covers_cons.mpr (.inl (by lia))⟩
    · split at found
      · obtain ⟨low, inAs, inBs⟩ := later _ found
        exact ⟨low, covers_cons.mpr (.inr inAs), inBs⟩
      · obtain ⟨low, inAs, inBs⟩ := ih found
        exact ⟨low, inAs, covers_cons.mpr (.inr inBs)⟩

theorem firstCommon_covers {q : Position} (found : firstCommon lo as bs = some q) :
    lo ≤ q ∧ Covers as q ∧ Covers bs q := by
  induction as generalizing bs with
  | nil => simp [firstCommon] at found
  | cons a rest ih => exact firstShared_covers (fun bs found => ih found) found

theorem covers_before : Covers (rs.filterMap (before? pos)) lo ↔ Covers rs lo ∧ lo < pos := by
  simp only [Covers, List.mem_filterMap, before?]
  constructor
  · rintro ⟨s, ⟨r, hr, cut⟩, low, high⟩
    split at cut
    · obtain rfl := Option.some.inj cut
      exact ⟨⟨r, hr, low, by dsimp only at high; lia⟩, by dsimp only at high; lia⟩
    · simp at cut
  · rintro ⟨⟨r, hr, low, high⟩, before⟩
    exact ⟨_, ⟨r, hr, if_pos (by lia)⟩, low, by dsimp only; lia⟩

theorem covers_after : Covers (rs.filterMap (after? pos)) lo ↔ Covers rs lo ∧ pos ≤ lo := by
  simp only [Covers, List.mem_filterMap, after?]
  constructor
  · rintro ⟨s, ⟨r, hr, cut⟩, low, high⟩
    split at cut
    · obtain rfl := Option.some.inj cut
      exact ⟨⟨r, hr, by dsimp only at low; lia, high⟩, by dsimp only at low; lia⟩
    · simp at cut
  · rintro ⟨⟨r, hr, low, high⟩, after⟩
    exact ⟨_, ⟨r, hr, if_pos (by lia)⟩, by dsimp only; lia, high⟩

theorem Sorted.filterMap_sorted {cut : Range → Option Range} (sorted : Sorted rs)
    (within : ∀ r s, cut r = some s →
      r.start ≤ s.start ∧ s.stop ≤ r.stop ∧ (r.start < r.stop → s.start < s.stop)) :
    Sorted (rs.filterMap cut) := by
  constructor
  · intro s hs
    obtain ⟨r, hr, isCut⟩ := List.mem_filterMap.mp hs
    exact (within r s isCut).2.2 (sorted.filled r hr)
  · refine List.Pairwise.filterMap _ ?_ sorted.apart
    intro r r' apart s hs s' hs'
    have first := within r s hs
    have second := within r' s' hs'
    lia

theorem Sorted.before_sorted (sorted : Sorted rs) : Sorted (rs.filterMap (before? pos)) := by
  refine sorted.filterMap_sorted fun r s isCut => ?_
  simp only [before?, Option.ite_none_right_eq_some, Option.some.injEq] at isCut
  obtain ⟨inside, rfl⟩ := isCut
  dsimp only
  lia

theorem Sorted.after_sorted (sorted : Sorted rs) : Sorted (rs.filterMap (after? pos)) := by
  refine sorted.filterMap_sorted fun r s isCut => ?_
  simp only [after?, Option.ite_none_right_eq_some, Option.some.injEq] at isCut
  obtain ⟨inside, rfl⟩ := isCut
  dsimp only
  lia

end Range

namespace Interval

variable {i j : Interval} {pos lo : Position}

theorem covers_iff : i.covers pos = true ↔ Range.Covers i.ranges pos := by
  simp [covers, Range.Covers, Range.contains]

section

variable (sorted : Range.Sorted i.ranges)

include sorted

theorem covers_start (some : i.ranges ≠ []) : i.covers i.start = true := by
  rw [covers_iff, start]
  cases ranges : i.ranges with
  | nil => exact absurd ranges some
  | cons r rest =>
    rw [ranges] at sorted
    exact sorted.covers_start

theorem start_le (covered : i.covers pos = true) : i.start ≤ pos := by
  rw [covers_iff] at covered
  rw [start]
  cases ranges : i.ranges with
  | nil => simp [ranges] at covered
  | cons r rest =>
    rw [ranges] at sorted covered
    exact sorted.first_le covered

theorem lt_stop (covered : i.covers pos = true) : pos < i.stop := by
  rw [covers_iff] at covered
  rw [stop]
  obtain none | ⟨init, last, split⟩ := List.eq_nil_or_concat i.ranges
  · simp [none] at covered
  · rw [List.concat_eq_append] at split
    rw [split] at sorted covered ⊢
    rw [List.getLast?_append]
    obtain ⟨r, member, low, high⟩ := covered
    rcases List.mem_append.mp member with inside | inside
    · have := (List.pairwise_append.mp sorted.apart).2.2 r inside last List.mem_cons_self
      have := sorted.filled last (by simp)
      simpa using (by lia : pos < last.stop)
    · obtain rfl := List.mem_singleton.mp inside
      simpa using high

theorem covers_last (some : i.ranges ≠ []) : 0 < i.stop ∧ i.covers (i.stop - 1) = true := by
  rw [covers_iff, stop]
  obtain none | ⟨init, last, split⟩ := List.eq_nil_or_concat i.ranges
  · exact absurd none some
  · rw [List.concat_eq_append] at split
    rw [split] at sorted ⊢
    have filled := sorted.filled last (by simp)
    have here : ((init ++ [last]).getLast?.map Range.stop).getD 0 = last.stop := by simp
    rw [here]
    exact ⟨by lia, last, by simp, by lia, by lia⟩

theorem stop_le_iff : i.stop ≤ pos ↔ ∀ q, i.covers q = true → q < pos := by
  constructor
  · intro bound q covered
    have := lt_stop sorted covered
    lia
  · intro below
    by_cases some : i.ranges = []
    · simp [stop, some]
    · obtain ⟨positive, covered⟩ := covers_last sorted some
      have := below _ covered
      lia

theorem le_start_iff (some : i.ranges ≠ []) : pos ≤ i.start ↔ ∀ q, i.covers q = true → pos ≤ q := by
  constructor
  · intro bound q covered
    have := start_le sorted covered
    lia
  · intro above
    exact above _ (covers_start sorted some)

theorem start_lt_stop (some : i.ranges ≠ []) : i.start < i.stop :=
  lt_stop sorted (covers_start sorted some)

end

theorem ranges_ne_nil (covered : i.covers pos = true) : i.ranges ≠ [] := by
  intro none
  simp [covers, none] at covered

theorem covers_upTo : (i.upTo pos).covers lo = true ↔ i.covers lo = true ∧ lo < pos := by
  rw [covers_iff, covers_iff]
  exact Range.covers_before

theorem covers_rest : (i.rest pos).covers lo = true ↔ i.covers lo = true ∧ pos ≤ lo := by
  rw [covers_iff, covers_iff]
  exact Range.covers_after

theorem meets_le {q : Position} (sortedI : Range.Sorted i.ranges) (sortedJ : Range.Sorted j.ranges)
    (low : lo ≤ q) (inI : i.covers q = true) (inJ : j.covers q = true) :
    ∃ p, i.meets? j lo = some p ∧ p ≤ q :=
  Range.firstCommon_le sortedI sortedJ low (covers_iff.mp inI) (covers_iff.mp inJ)

theorem meets_covers {q : Position} (found : i.meets? j lo = some q) :
    lo ≤ q ∧ i.covers q = true ∧ j.covers q = true := by
  obtain ⟨low, inI, inJ⟩ := Range.firstCommon_covers found
  exact ⟨low, covers_iff.mpr inI, covers_iff.mpr inJ⟩

theorem nonempty_of_lt (before : pos < i.stop) : i.ranges ≠ [] := by
  intro none
  simp [stop, none] at before

variable (sorted : Range.Sorted i.ranges)

include sorted

theorem upTo_ne_nil (after : i.start < pos) (before : pos < i.stop) : (i.upTo pos).ranges ≠ [] :=
  ranges_ne_nil (covers_upTo.mpr ⟨covers_start sorted (nonempty_of_lt before), after⟩)

theorem rest_ne_nil (before : pos < i.stop) : (i.rest pos).ranges ≠ [] := by
  obtain ⟨positive, covered⟩ := covers_last sorted (nonempty_of_lt before)
  exact ranges_ne_nil (covers_rest.mpr ⟨covered, by lia⟩)

theorem start_upTo (after : i.start < pos)
    (before : pos < i.stop) : (i.upTo pos).start = i.start := by
  apply Nat.le_antisymm
  · exact start_le sorted.before_sorted
      (covers_upTo.mpr ⟨covers_start sorted (nonempty_of_lt before), after⟩)
  · rw [le_start_iff sorted.before_sorted (upTo_ne_nil sorted after before)]
    intro q covered
    exact start_le sorted (covers_upTo.mp covered).1

theorem stop_rest (before : pos < i.stop) : (i.rest pos).stop = i.stop := by
  obtain ⟨positive, covered⟩ := covers_last sorted (nonempty_of_lt before)
  apply Nat.le_antisymm
  · rw [stop_le_iff sorted.after_sorted]
    intro q covered
    exact lt_stop sorted (covers_rest.mp covered).1
  · have reached : (i.rest pos).covers (i.stop - 1) = true := covers_rest.mpr ⟨covered, by lia⟩
    have := lt_stop sorted.after_sorted reached
    lia

theorem stop_upTo_le : (i.upTo pos).stop ≤ pos := by
  rw [stop_le_iff sorted.before_sorted]
  exact fun q covered => (covers_upTo.mp covered).2

theorem stop_upTo_le_stop : (i.upTo pos).stop ≤ i.stop := by
  rw [stop_le_iff sorted.before_sorted]
  exact fun q covered => lt_stop sorted (covers_upTo.mp covered).1

theorem le_start_rest (before : pos < i.stop) : pos ≤ (i.rest pos).start := by
  rw [le_start_iff sorted.after_sorted (rest_ne_nil sorted before)]
  exact fun q covered => (covers_rest.mp covered).2

theorem start_le_start_rest (before : pos < i.stop) : i.start ≤ (i.rest pos).start := by
  rw [le_start_iff sorted.after_sorted (rest_ne_nil sorted before)]
  exact fun q covered => start_le sorted (covers_rest.mp covered).1

end Interval

end RegisterAllocation
