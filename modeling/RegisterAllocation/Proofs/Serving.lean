import RegisterAllocation.Proofs.Placing
import RegisterAllocation.Proofs.Uses

/-!
A scan hands the uses of a value on to the right pieces of its interval. Whatever is split, sent to
memory or queued again, a use belongs to the piece that covers the gap before it, and a piece in
memory has no use that needs a register.
-/

namespace RegisterAllocation

open List Option Interval IntervalPool Location

namespace Interval

variable {i j : Interval} {u : Use} {pos cut use : Position}

theorem takeWhile_uses {us : List Use} (sorted : Use.Sorted us) :
    u ∈ us.takeWhile (·.pos < cut) ↔ u ∈ us ∧ u.pos < cut := by
  induction us with
  | nil => simp
  | cons w rest ih =>
    obtain ⟨first, others⟩ := pairwise_cons.mp sorted
    by_cases early : w.pos < cut
    · rw [takeWhile_cons_of_pos (by simpa using early), mem_cons, mem_cons, ih others]
      constructor
      · rintro (rfl | ⟨member, before⟩)
        · exact ⟨.inl rfl, early⟩
        · exact ⟨.inr member, before⟩
      · rintro ⟨rfl | member, before⟩
        · exact .inl rfl
        · exact .inr ⟨member, before⟩
    · rw [takeWhile_cons_of_neg (by simpa using early)]
      simp only [not_mem_nil, mem_cons, false_iff, not_and]
      rintro (rfl | member) before
      · exact early before
      · have := first u member
        lia

theorem dropWhile_uses {us : List Use} (sorted : Use.Sorted us) :
    u ∈ us.dropWhile (·.pos < cut) ↔ u ∈ us ∧ cut ≤ u.pos := by
  induction us with
  | nil => simp
  | cons w rest ih =>
    obtain ⟨first, others⟩ := pairwise_cons.mp sorted
    by_cases early : w.pos < cut
    · rw [dropWhile_cons_of_pos (by simpa using early), ih others, mem_cons]
      constructor
      · rintro ⟨member, late⟩
        exact ⟨.inr member, late⟩
      · rintro ⟨rfl | member, late⟩
        · lia
        · exact ⟨member, late⟩
    · rw [dropWhile_cons_of_neg (by simpa using early)]
      refine ⟨fun member => ⟨member, ?_⟩, And.left⟩
      rcases mem_cons.mp member with rfl | member
      · exact Nat.le_of_not_lt early
      · have := first u member
        lia

theorem mem_uses_upTo (fit : i.Fit) : u ∈ (i.upTo cut).uses ↔ u ∈ i.uses ∧ u.pos < cut :=
  takeWhile_uses fit.uses

theorem mem_uses_rest (fit : i.Fit) : u ∈ (i.rest cut).uses ↔ u ∈ i.uses ∧ cut ≤ u.pos :=
  dropWhile_uses fit.uses

theorem nextUse_le (fit : i.Fit) (isUse : i.nextUse? pos = some use) (member : u ∈ i.uses)
    (needs : u.needsRegister = true) (late : pos ≤ u.pos) : use ≤ u.pos := by
  simp only [nextUse?, map_eq_some_iff] at isUse
  obtain ⟨w, isFirst, rfl⟩ := isUse
  obtain ⟨-, before, after, isUses, others⟩ := find?_eq_some_iff_append.mp isFirst
  have sorted := fit.uses
  rw [Use.Sorted, isUses] at sorted
  rw [isUses] at member
  rcases mem_append.mp member with early | later
  · have := others u early
    simp [needs, late] at this
  · rcases mem_cons.mp later with rfl | later
    · exact Nat.le_refl _
    · exact (pairwise_cons.mp (pairwise_append.mp sorted).2.1).1 u later

theorem lt_of_nextUse_none (none : i.nextUse? pos = none) (member : u ∈ i.uses)
    (needs : u.needsRegister = true) : u.pos < pos := by
  simp only [nextUse?, map_eq_none_iff, find?_eq_none] at none
  have := none u member
  simp only [needs, Bool.true_and, decide_eq_true_eq] at this
  exact Nat.lt_of_not_le this

structure Apt (i : Interval) : Prop where
  used : ∀ u ∈ i.uses, u.needsRegister = true →
    (i.splitOff = false ∧ u.pos = i.start) ∨ (0 < u.pos ∧ i.covers (u.pos - 1) = true)
  spared : i.location.isMemory = true → ∀ u ∈ i.uses, u.needsRegister = false
  kind : i.physical = false → i.location.isAnyRegister = true → i.location.inClass i.regClass = true

namespace Apt

theorem start_le (apt : i.Apt) (fit : i.Fit) (member : u ∈ i.uses)
    (needs : u.needsRegister = true) : i.start ≤ u.pos := by
  rcases apt.used u member needs with ⟨-, here⟩ | ⟨-, covered⟩
  · exact here.ge
  · have := Interval.start_le fit.sorted covered
    lia

theorem after_relabel (apt : i.Apt) (same : i.Relabelled j)
    (spared : j.location.isMemory = true → ∀ u ∈ i.uses, u.needsRegister = false)
    (kind : j.location.isAnyRegister = true → j.location.inClass i.regClass = true) : j.Apt := by
  refine ⟨?_, ?_, ?_⟩
  · intro u member needs
    rw [same.uses_eq] at member
    rw [same.start_eq, same.covers_eq, show j.splitOff = i.splitOff by rw [same]]
    exact apt.used u member needs
  · rw [same.uses_eq]
    exact spared
  · intro _ register
    rw [regClass, same.ty_eq]
    exact kind register

theorem upTo_apt (apt : i.Apt) (fit : i.Fit) (next : IntervalId) (late : i.start < cut)
    (inside : cut < i.stop) : ({ i.upTo cut with sibling := some next }).Apt := by
  refine ⟨?_, ?_, apt.kind⟩
  · intro u member needs
    obtain ⟨member, early⟩ := (mem_uses_upTo fit).mp member
    rcases apt.used u member needs with ⟨first, here⟩ | ⟨positive, covered⟩
    · exact .inl ⟨first, here.trans (start_upTo fit.sorted late inside).symm⟩
    · exact .inr ⟨positive, covers_upTo.mpr ⟨covered, by lia⟩⟩
  · intro memory u member
    exact apt.spared memory u ((mem_uses_upTo fit).mp member).1

theorem rest_apt (apt : i.Apt) (fit : i.Fit) (late : i.start < cut) (odd : cut % 2 = 1) :
    (i.rest cut).Apt := by
  refine ⟨?_, by simp [rest], by simp [rest]⟩
  intro u member needs
  obtain ⟨member, behind⟩ := (mem_uses_rest fit).mp member
  have even := fit.even u member
  rcases apt.used u member needs with ⟨-, here⟩ | ⟨positive, covered⟩
  · lia
  · exact .inr ⟨positive, covers_rest.mpr ⟨covered, by lia⟩⟩

theorem upTo_spared (apt : i.Apt) (fit : i.Fit) (isUse : i.nextUse? i.start = some use) :
    ∀ u ∈ (i.upTo (gapBefore use)).uses, u.needsRegister = false := by
  intro u member
  obtain ⟨member, early⟩ := (mem_uses_upTo fit).mp member
  by_contra needs
  simp only [Bool.not_eq_false] at needs
  have := nextUse_le fit isUse member needs (apt.start_le fit member needs)
  have := Scan.gapBefore_le use
  lia

theorem spared_of_none (apt : i.Apt) (fit : i.Fit) (none : i.nextUse? i.start = none) :
    ∀ u ∈ i.uses, u.needsRegister = false := by
  intro u member
  by_contra needs
  simp only [Bool.not_eq_false] at needs
  have := lt_of_nextUse_none none member needs
  have := apt.start_le fit member needs
  lia

end Apt

end Interval

namespace IntervalPool

variable {base p : IntervalPool} {id : IntervalId} {i j : Interval} {cut : Position} {v : ValueId}

/-- What the pieces in a pool owe to the intervals that they were cut from. -/
structure Served (base p : IntervalPool) : Prop where
  tidy : p.Tidy (· % 2 = 1)
  each : ∀ (id : IntervalId) (i : Interval), p.intervals[id]? = some i → i.Apt
  stays : ∀ (id : IntervalId) (i : Interval), base.intervals[id]? = some i →
    ∃ j, p.intervals[id]? = some j ∧ j.value = i.value ∧ j.ty = i.ty ∧ j.root = i.root
  whole : ∀ (k : IntervalId) (i : Interval) v q, base.intervals[k]? = some i → i.value = some v →
    i.covers q = true → ∃ (id : IntervalId) (j : Interval), p.intervals[id]? = some j ∧
      j.value = some v ∧ j.covers q = true
  reads : ∀ (k : IntervalId) (i : Interval) v u, base.intervals[k]? = some i → i.value = some v →
    u ∈ i.uses → 0 < u.pos → ∀ (id : IntervalId) (j : Interval), p.intervals[id]? = some j →
      j.value = some v → j.covers (u.pos - 1) = true → u ∈ j.uses
  writes : ∀ (k : IntervalId) (i : Interval) u, base.intervals[k]? = some i → u ∈ i.uses →
    u.needsRegister = true → u.pos = i.start → ∃ j, p.intervals[k]? = some j ∧
      j.start = i.start ∧ u ∈ j.uses
  origin : ∀ (id : IntervalId) (j : Interval), p.intervals[id]? = some j →
    ∃ (k : IntervalId) (i : Interval), base.intervals[k]? = some i ∧ j.value = i.value ∧
      (∀ u ∈ j.uses, u ∈ i.uses) ∧ ∀ d, j.definedBy = some d → i.definedBy = some d
  rooted : ∀ (id : IntervalId) (j : Interval), p.intervals[id]? = some j → j.splitOff = false →
    j.root = id

namespace Served

variable (served : Served base p) (found : p.intervals[id]? = some i)

include served found

theorem after_reset (tidy : (p.set id j).Tidy (· % 2 = 1)) (apt : j.Apt)
    (same : j = { i with
      ranges := j.ranges, location := j.location, preferred := j.preferred, pinned := j.pinned })
    (more : ∀ q, i.covers q = true → j.covers q = true)
    (reads : ∀ (k : IntervalId) (m : Interval) v u, base.intervals[k]? = some m →
      m.value = some v → i.value = some v → u ∈ m.uses → 0 < u.pos →
      j.covers (u.pos - 1) = true → u ∈ i.uses)
    (start : ∀ u ∈ i.uses, u.needsRegister = true → u.pos = i.start → j.start = i.start) :
    Served base (p.set id j) := by
  have isJ := set_self found j
  have uses : j.uses = i.uses := by rw [same]
  have value : j.value = i.value := by rw [same]
  refine ⟨tidy, ?_, ?_, ?_, ?_, ?_, ?_, ?_⟩
  · intro k m foundM
    rcases set_cases found foundM with ⟨-, rfl⟩ | ⟨-, old⟩
    · exact apt
    · exact served.each k m old
  · intro k m foundM
    obtain ⟨m', found', rest⟩ := served.stays k m foundM
    by_cases here : k = id
    · subst here
      obtain rfl := mem_unique found found'
      refine ⟨j, isJ, ?_⟩
      rw [same]
      exact rest
    · exact ⟨m', by rwa [set_other here], rest⟩
  · intro k m v q foundM own covered
    obtain ⟨k', m', found', own', covered'⟩ := served.whole k m v q foundM own covered
    obtain ⟨w, foundW, valueW, moreW⟩ := set_forth
      (R := fun m m' => m'.value = m.value ∧ ∀ q, m.covers q = true → m'.covers q = true) found
      ⟨value, more⟩ (fun _ => ⟨rfl, fun _ h => h⟩) found'
    exact ⟨k', w, foundW, valueW.trans own', moreW q covered'⟩
  · intro k m v u foundM own member positive k' m' found' own' covered
    rcases set_cases found found' with ⟨rfl, rfl⟩ | ⟨-, old⟩
    · exact uses ▸ reads k m v u foundM own (value.symm.trans own') member positive covered
    · exact served.reads k m v u foundM own member positive k' m' old own' covered
  · intro k m u foundM member needs here
    obtain ⟨m', found', startM, member'⟩ := served.writes k m u foundM member needs here
    by_cases isId : k = id
    · subst isId
      obtain rfl := mem_unique found found'
      have startJ := start u member' needs (here.trans startM.symm)
      exact ⟨j, isJ, startJ.trans startM, uses ▸ member'⟩
    · exact ⟨m', by rwa [set_other isId], startM, member'⟩
  · intro k m foundM
    rcases set_cases found foundM with ⟨rfl, rfl⟩ | ⟨-, old⟩
    · rw [value, uses, show j.definedBy = i.definedBy by rw [same]]
      exact served.origin _ i found
    · exact served.origin k m old
  · intro k m foundM
    rcases set_cases found foundM with ⟨rfl, rfl⟩ | ⟨-, old⟩
    · rw [same]
      exact served.rooted _ i found
    · exact served.rooted k m old

theorem after_relabel (same : i.Relabelled j) (apt : j.Apt) : Served base (p.set id j) := by
  refine served.after_reset found (served.tidy.after_relabel found same) apt (by rw [same]) ?_ ?_ ?_
  · exact fun q covered => same.covers_eq.trans covered
  · intro k m v u foundM own ownI member positive covered
    exact served.reads k m v u foundM own member positive id i found ownI (same.covers_eq ▸ covered)
  · exact fun _ _ _ _ => same.start_eq

theorem after_divide (virtual : i.physical = false) (late : i.start < cut) (inside : cut < i.stop)
    (odd : cut % 2 = 1) : Served base (p.divided id i cut) := by
  have fit := served.tidy.fit id i found
  have apt := served.each id i found
  have isKept := divided_kept found cut
  have isRest := divided_rest found cut
  refine ⟨served.tidy.after_divide found virtual late inside odd, ?_, ?_, ?_, ?_, ?_, ?_, ?_⟩
  · intro k m foundM
    rcases divided_cases found foundM with ⟨-, rfl⟩ | ⟨-, rfl⟩ | ⟨-, old⟩
    · exact apt.upTo_apt fit p.size late inside
    · exact apt.rest_apt fit late odd
    · exact served.each k m old
  · intro k m foundM
    obtain ⟨m', found', value, ty, root⟩ := served.stays k m foundM
    by_cases here : k = id
    · subst here
      obtain rfl := mem_unique found found'
      exact ⟨_, isKept, value, ty, root⟩
    · exact ⟨m', divided_other found here found', value, ty, root⟩
  · intro k m v q foundM own covered
    obtain ⟨k', m', found', own', covered'⟩ := served.whole k m v q foundM own covered
    by_cases here : k' = id
    · subst here
      obtain rfl := mem_unique found found'
      by_cases early : q < cut
      · exact ⟨k', _, isKept, own', Interval.covers_upTo.mpr ⟨covered', early⟩⟩
      · exact ⟨p.size, _, isRest, own',
          Interval.covers_rest.mpr ⟨covered', Nat.le_of_not_lt early⟩⟩
    · exact ⟨k', m', divided_other found here found', own', covered'⟩
  · intro k m v u foundM own member positive k' m' found' own' covered
    have isUse := served.reads k m v u foundM own member positive
    rcases divided_cases found found' with ⟨rfl, rfl⟩ | ⟨rfl, rfl⟩ | ⟨-, old⟩
    · obtain ⟨covered, early⟩ := Interval.covers_upTo.mp covered
      have member' := isUse k' i found own' covered
      have even := fit.even u member'
      exact (Interval.mem_uses_upTo fit).mpr ⟨member', by lia⟩
    · obtain ⟨covered, behind⟩ := Interval.covers_rest.mp covered
      exact (Interval.mem_uses_rest fit).mpr ⟨isUse id i found own' covered, by lia⟩
    · exact isUse k' m' old own' covered
  · intro k m u foundM member needs here
    obtain ⟨m', found', start, member'⟩ := served.writes k m u foundM member needs here
    by_cases isId : k = id
    · subst isId
      obtain rfl := mem_unique found found'
      refine ⟨_, isKept, (Interval.start_upTo fit.sorted late inside).trans start, ?_⟩
      exact (Interval.mem_uses_upTo fit).mpr ⟨member', by lia⟩
    · exact ⟨m', divided_other found isId found', start, member'⟩
  · intro k m foundM
    obtain ⟨k', m', found', value, uses, defined⟩ := served.origin id i found
    rcases divided_cases found foundM with ⟨-, rfl⟩ | ⟨-, rfl⟩ | ⟨-, old⟩
    · exact ⟨k', m', found', value,
        fun u member => uses u ((Interval.mem_uses_upTo fit).mp member).1, defined⟩
    · exact ⟨k', m', found', value,
        fun u member => uses u ((Interval.mem_uses_rest fit).mp member).1,
        fun d isD => by simp [Interval.rest] at isD⟩
    · exact served.origin k m old
  · intro k m foundM
    rcases divided_cases found foundM with ⟨rfl, rfl⟩ | ⟨-, rfl⟩ | ⟨-, old⟩
    · exact served.rooted k i found
    · simp [Interval.rest]
    · exact served.rooted k m old

theorem after_stretch (own : i.value = some v) (alone : i.root = id ∧ i.sibling = none)
    (same : j = { i with ranges := j.ranges }) (fit : j.Fit)
    (more : ∀ q, i.covers q = true → j.covers q = true)
    (uncomputed : ∀ u ∈ i.uses, u.needsRegister = true → u.pos ≠ i.start)
    (all : ∀ (k : IntervalId) (m : Interval), base.intervals[k]? = some m → m.value = some v →
      ∀ u ∈ m.uses, u ∈ i.uses) : Served base (p.set id j) := by
  have apt := served.each id i found
  have aptJ : j.Apt := by
    refine ⟨?_, by rw [same]; exact apt.spared, by rw [same]; exact apt.kind⟩
    intro u member needs
    rw [show j.uses = i.uses by rw [same]] at member
    rcases apt.used u member needs with ⟨-, start⟩ | ⟨positive, covered⟩
    · exact absurd start (uncomputed u member needs)
    · exact .inr ⟨positive, more _ covered⟩
  refine served.after_reset found (served.tidy.after_stretch found own alone same fit) aptJ
    (by rw [same]) more ?_ ?_
  · intro k m w u foundM ownM ownI member _ _
    obtain rfl := mem_unique own ownI
    exact all k m foundM ownM u member
  · exact fun u member needs here => absurd here (uncomputed u member needs)

end Served

end IntervalPool

namespace Scan

variable {c : Pass} {base first : IntervalPool} {hold : List IntervalId} {s s' : Scan}
  {id child : IntervalId} {i j : Interval} {pos cut use : Position} {reg : Nat}

def OfClass (c : Pass) (p : IntervalPool) (id : IntervalId) : Prop :=
  ∃ i, p.intervals[id]? = some i ∧ i.regClass = c.regClass

theorem OfClass.of_found (own : OfClass c s.pool id) (found : s.pool.intervals[id]? = some i) :
    i.regClass = c.regClass := by
  obtain ⟨i', found', cls⟩ := own
  obtain rfl := mem_unique found found'
  exact cls

/-- What holds of uses while a class is scanned, `first` being the pool before that. Intervals of
the class without a location are queued, or on hold. -/
structure Serving (c : Pass) (base first : IntervalPool) (hold : List IntervalId) (s : Scan) :
    Prop where
  served : base.Served s.pool
  homes : ∀ v l, s.frame.home? v = some l → l.isMemory = true
  placed : ∀ (id : IntervalId) (i : Interval), s.pool.intervals[id]? = some i → Mine c i →
    i.location.isInvalid = true → id ∈ s.queue ++ hold
  own : ∀ id ∈ s.queue ++ (s.active ++ s.inactive), OfClass c s.pool id
  kept : ∀ (id : IntervalId) (i : Interval), i.regClass ≠ c.regClass →
    (s.pool.intervals[id]? = some i ↔ first.intervals[id]? = some i)

structure Steady (p p' : IntervalPool) : Prop where
  forth : ∀ (k : IntervalId) (i : Interval), p.intervals[k]? = some i →
    ∃ j, p'.intervals[k]? = some j ∧ j.start = i.start ∧ j.ty = i.ty
  back : ∀ (k : IntervalId) (j : Interval), p'.intervals[k]? = some j →
    ∃ (k' : IntervalId) (i : Interval), p.intervals[k']? = some i ∧ j.stop ≤ i.stop

namespace Steady

variable {p p' p'' : IntervalPool}

theorem refl : Steady p p :=
  ⟨fun _ i found => ⟨i, found, rfl, rfl⟩, fun k j found => ⟨k, j, found, Nat.le_refl _⟩⟩

theorem trans (one : Steady p p') (two : Steady p' p'') : Steady p p'' := by
  refine ⟨fun k i found => ?_, fun k j found => ?_⟩
  · obtain ⟨i', found, start, ty⟩ := one.forth k i found
    obtain ⟨i'', found, start', ty'⟩ := two.forth k i' found
    exact ⟨i'', found, start'.trans start, ty'.trans ty⟩
  · obtain ⟨k', j', found, le⟩ := two.back k j found
    obtain ⟨k'', j'', found, le'⟩ := one.back k' j' found
    exact ⟨k'', j'', found, le.trans le'⟩

theorem ofClass_kept {k : IntervalId} (steady : Steady p p') (own : OfClass c p k) :
    OfClass c p' k := by
  obtain ⟨i, found, cls⟩ := own
  obtain ⟨j, foundJ, -, ty⟩ := steady.forth k i found
  refine ⟨j, foundJ, ?_⟩
  rw [Interval.regClass, ty]
  exact cls

theorem of_set (found : p.intervals[id]? = some i) (same : i.Relabelled j) :
    Steady p (p.set id j) := by
  refine ⟨fun k m foundM => ?_, fun k m foundM => ?_⟩
  · obtain ⟨w, foundW, sameW⟩ := IntervalPool.set_forth found same (fun _ => rfl) foundM
    exact ⟨w, foundW, sameW.start_eq, sameW.ty_eq⟩
  · obtain ⟨w, foundW, sameW⟩ := IntervalPool.set_back found same (fun _ => rfl) foundM
    exact ⟨k, w, foundW, sameW.stop_eq.le⟩

theorem of_divided (found : p.intervals[id]? = some i) (sorted : Range.Sorted i.ranges)
    (late : i.start < cut) (inside : cut < i.stop) : Steady p (p.divided id i cut) := by
  refine ⟨fun k m foundM => ?_, fun k m foundM => ?_⟩
  · by_cases here : k = id
    · subst here
      obtain rfl := mem_unique found foundM
      exact ⟨_, divided_kept found cut, Interval.start_upTo sorted late inside, rfl⟩
    · exact ⟨m, IntervalPool.divided_other found here foundM, rfl, rfl⟩
  · rcases IntervalPool.divided_cases found foundM with ⟨-, rfl⟩ | ⟨-, rfl⟩ | ⟨-, old⟩
    · exact ⟨id, i, found, stop_upTo_le_stop sorted⟩
    · exact ⟨id, i, found, (stop_rest sorted inside).le⟩
    · exact ⟨k, m, old, Nat.le_refl _⟩

end Steady

theorem ofClass_rest {p : IntervalPool} (found : p.intervals[id]? = some i)
    (cls : i.regClass = c.regClass) : OfClass c (p.divided id i cut) p.size :=
  ⟨i.rest cut, divided_rest found cut, cls⟩

namespace Serving

theorem hold_mono (serving : Serving c base first hold s) {hold' : List IntervalId}
    (more : ∀ k ∈ hold, k ∈ hold') : Serving c base first hold' s := by
  refine { serving with placed := fun k m found isMine invalid => ?_ }
  have := serving.placed k m found isMine invalid
  grind

theorem after_release (serving : Serving c base first (id :: hold) s)
    (valid : ∀ i, s.pool.intervals[id]? = some i → i.location.isInvalid = false) :
    Serving c base first hold s := by
  refine { serving with placed := fun k m found isMine invalid => ?_ }
  have := serving.placed k m found isMine invalid
  have apart : k ≠ id := by
    rintro rfl
    simp [valid m found] at invalid
  grind

section

variable (serving : Serving c base first hold s) (found : s.pool.intervals[id]? = some i)
  (cls : i.regClass = c.regClass)

include serving found cls

theorem after_set (clsJ : j.regClass = c.regClass)
    (served : base.Served (s.pool.set id j)) (held : j.location.isInvalid = true → id ∈ hold)
    {frame : Frame} (homes : ∀ v l, frame.home? v = some l → l.isMemory = true) :
    Serving c base first hold { s with pool := s.pool.set id j, frame } := by
  refine ⟨served, homes, ?_, ?_, ?_⟩
  · intro k m foundM isMine invalid
    rcases IntervalPool.set_cases found foundM with ⟨rfl, rfl⟩ | ⟨-, foundM⟩
    · exact mem_append_right _ (held invalid)
    · exact serving.placed k m foundM isMine invalid
  · intro k member
    obtain ⟨m, foundM, clsM⟩ := serving.own k member
    obtain ⟨m', foundM', same⟩ := IntervalPool.set_forth
      (R := fun i j => j.regClass = i.regClass) found (clsJ.trans cls.symm) (fun _ => rfl) foundM
    exact ⟨m', foundM', same.trans clsM⟩
  · intro k m other
    rw [← serving.kept k m other, intervals_set found]
    by_cases here : k = id
    · subst here
      simp only [if_true, some.injEq, found]
      constructor
      · rintro rfl
        exact absurd clsJ other
      · rintro rfl
        exact absurd cls other
    · simp [here]

theorem after_relabel (same : i.Relabelled j) (frame : Frame)
    (held : j.location.isInvalid = true → id ∈ hold)
    (spared : j.location.isMemory = true → ∀ u ∈ i.uses, u.needsRegister = false)
    (kind : j.location.isAnyRegister = true → j.location.inClass i.regClass = true)
    (homes : ∀ v l, frame.home? v = some l → l.isMemory = true) :
    Serving c base first hold { s with pool := s.pool.set id j, frame } := by
  have apt := (serving.served.each id i found).after_relabel same spared kind
  refine serving.after_set found cls ?_ (serving.served.after_relabel found same apt) held homes
  rw [Interval.regClass, same.ty_eq]
  exact cls

theorem after_divide (virtual : i.physical = false) (late : i.start < cut)
    (inside : cut < i.stop) (odd : cut % 2 = 1) :
    Serving c base first (s.pool.size :: hold) { s with pool := s.pool.divided id i cut } := by
  have steady := Steady.of_divided found (serving.served.tidy.fit id i found).sorted late inside
  refine ⟨serving.served.after_divide found virtual late inside odd, serving.homes, ?_,
    fun k member => steady.ofClass_kept (serving.own k member), ?_⟩
  · intro k m foundM isMine invalid
    rcases IntervalPool.divided_cases found foundM with ⟨rfl, rfl⟩ | ⟨rfl, rfl⟩ | ⟨-, old⟩
    · have := serving.placed k i found isMine invalid
      grind
    · simp
    · have := serving.placed k m old isMine invalid
      grind
  · intro k m other
    rw [← serving.kept k m other]
    constructor
    · intro foundM
      rcases IntervalPool.divided_cases found foundM with ⟨rfl, rfl⟩ | ⟨rfl, rfl⟩ | ⟨-, old⟩
      · exact absurd cls other
      · exact absurd cls other
      · exact old
    · intro old
      refine IntervalPool.divided_other found ?_ old
      rintro rfl
      obtain rfl := mem_unique found old
      exact other cls

end

theorem after_enqueue (serving : Serving c base first (id :: hold) s) (own : OfClass c s.pool id)
    (run : s.enqueue id = .ok s') : Serving c base first hold s' ∧ s'.pool = s.pool := by
  obtain ⟨queue, rfl, same⟩ := Scanning.enqueue_ok run
  refine ⟨⟨serving.served, serving.homes, ?_, ?_, serving.kept⟩, rfl⟩
  · intro k m found isMine invalid
    have := serving.placed k m found isMine invalid
    have := same.mem_iff (a := k)
    grind
  · intro k member
    have := same.mem_iff (a := k)
    have := serving.own k
    grind

theorem after_splitAndQueue (serving : Serving c base first hold s)
    (found : s.pool.intervals[id]? = some i) (cls : i.regClass = c.regClass)
    (virtual : i.physical = false) (late : i.start < cut) (odd : cut % 2 = 1)
    (run : s.splitAndQueue id cut = .ok s') :
    Serving c base first hold s' ∧ cut < i.stop ∧ s'.pool = s.pool.divided id i cut := by
  simp only [splitAndQueue, bind_ok, Prod.exists] at run
  obtain ⟨child, mid, split, run⟩ := run
  obtain ⟨inside, rfl, rfl⟩ := Scanning.splitAt_divided found late split
  obtain ⟨after, pool⟩ :=
    (serving.after_divide found cls virtual late inside odd).after_enqueue
    (ofClass_rest found cls) run
  exact ⟨after, inside, pool⟩

theorem after_assign (serving : Serving c base first (id :: hold) s) (own : OfClass c s.pool id)
    (run : s.assign id reg = .ok s') :
    Serving c base first hold s' ∧ Steady s.pool s'.pool := by
  obtain ⟨i, found, rfl⟩ := Scanning.modify_place run
  have inClass : (registerFor reg i.ty).inClass i.regClass = true :=
    Scanning.inClass_registerFor
  have same : i.Relabelled { i with location := .registerFor reg i.ty } := rfl
  have relabelled := serving.after_relabel found (own.of_found found) same s.frame (by simp) (by
    intro memory
    have := Scanning.isAnyRegister_of_isMemory memory
    simp [Scanning.isAnyRegister_of_inClass inClass] at this) (fun _ => inClass) serving.homes
  refine ⟨relabelled.after_release ?_, .of_set found same⟩
  intro m foundM
  obtain rfl := mem_unique (set_self found _) foundM
  exact isInvalid_of_inClass inClass

theorem home_of_spill {f f' : Frame} {v : ValueId} {constant? : Option Word} {start stop : Position}
    {l : Location} (homes : ∀ v l, f.home? v = some l → l.isMemory = true)
    (run : f.spill v constant? start stop = .ok (l, f')) :
    l.isMemory = true ∧ ∀ v l, f'.home? v = some l → l.isMemory = true := by
  rcases Frame.spill_ok run with ⟨home, rfl⟩ | ⟨-, housed, place⟩
  · exact ⟨homes v l home, homes⟩
  · have memory : l.isMemory = true := by
      rcases place with ⟨immediate, -⟩ | ⟨index, rfl, -⟩
      · simp [isMemory, immediate]
      · rfl
    refine ⟨memory, fun w l' home => ?_⟩
    rw [housed.home] at home
    split at home
    · exact some.inj home ▸ memory
    · exact homes w l' home

theorem after_settle (serving : Serving c base first (id :: hold) s)
    (found : s.pool.intervals[id]? = some i) (cls : i.regClass = c.regClass)
    (free : ∀ u ∈ i.uses, u.needsRegister = false) (same : i.Relabelled j)
    (memory : j.location.isMemory = true) (frame : Frame)
    (homes : ∀ v l, frame.home? v = some l → l.isMemory = true) :
    Serving c base first hold { s with pool := s.pool.set id j, frame } := by
  refine (serving.after_relabel found cls same frame (by simp) (fun _ => free) (fun register => ?_)
    homes).after_release ?_
  · simp [Scanning.isAnyRegister_of_isMemory memory] at register
  · intro m foundM
    obtain rfl := mem_unique (set_self found _) foundM
    exact valid_of_isMemory memory

theorem after_spill (serving : Serving c base first (id :: hold) s) (own : OfClass c s.pool id)
    (found : s.pool.intervals[id]? = some i) (free : ∀ u ∈ i.uses, u.needsRegister = false)
    (run : s.spill c id = .ok s') :
    Serving c base first hold s' ∧ Steady s.pool s'.pool := by
  obtain ⟨i', v, constant?, stop, l, frame, found', -, -, spilled, -, rfl⟩ := Scanning.spill_ok run
  obtain rfl := mem_unique found found'
  obtain ⟨memory, homes⟩ := home_of_spill serving.homes spilled
  have same : i.Relabelled { i with location := l } := rfl
  exact ⟨serving.after_settle found (own.of_found found) free same memory _ homes, .of_set found same⟩

end Serving

theorem retire_ok (run : s.retire c id = .ok s') :
    ∃ i, s.pool.intervals[id]? = some i ∧
      ((i.nextUse? i.start = none ∧ s.spill c id = .ok s') ∨
        ∃ use, i.nextUse? i.start = some use ∧
          ((i.start < gapBefore use ∧ ∃ mid, s.spill c id = .ok mid ∧
              mid.splitAndQueue id (gapBefore use) = .ok s') ∨
            ∃ mid, s.modify id (·.place .invalid) = .ok mid ∧ mid.enqueue id = .ok s')) := by
  simp only [retire, bind_ok, lift_ok, get_ok] at run
  obtain ⟨i, found, run⟩ := run
  refine ⟨i, found, ?_⟩
  split at run
  · exact .inl ⟨‹_›, run⟩
  · rename_i use isUse
    refine .inr ⟨use, isUse, ?_⟩
    split at run
    · simp only [bind_ok, lift_ok] at run
      exact .inl ⟨‹_›, run⟩
    · simp only [bind_ok, lift_ok] at run
      exact .inr run

theorem spill_virtual (found : s.pool.intervals[id]? = some i) (run : s.spill c id = .ok s') :
    i.physical = false := by
  simp only [spill, bind_ok, lift_ok, ensure_ok, get_ok, found,
    some.injEq, exists_eq_left'] at run
  exact run.choose_spec.1.1

theorem splitAt_virtual (found : s.pool.intervals[id]? = some i)
    (run : s.splitAt id cut = .ok (child, s')) : i.physical = false := by
  simp only [splitAt, bind_ok, pure_ok, Prod.exists] at run
  obtain ⟨_, _, split, -⟩ := run
  obtain ⟨i', found', virtual, -⟩ := splitAt_ok split
  obtain rfl := mem_unique found found'
  exact virtual

namespace Serving

/-- The front of an interval goes to memory, up to the gap before its next use, and the rest is put
off. -/
theorem after_settleFront (serving : Serving c base first (id :: hold) s) (own : OfClass c s.pool id)
    (found : s.pool.intervals[id]? = some i) (virtual : i.physical = false)
    (isUse : i.nextUse? i.start = some use) (late : i.start < gapBefore use)
    (same : i.Relabelled j) (memory : j.location.isMemory = true) (frame : Frame)
    (homes : ∀ v l, frame.home? v = some l → l.isMemory = true)
    (run : ({ s with pool := s.pool.set id j, frame } : Scan).splitAndQueue id (gapBefore use) =
      .ok s') : Serving c base first hold s' ∧ Steady s.pool s'.pool := by
  have fit := serving.served.tidy.fit id i found
  have apt := serving.served.each id i found
  have cls := own.of_found found
  have odd := gapBefore_odd (Nat.zero_lt_of_lt late)
  simp only [splitAndQueue, bind_ok, Prod.exists] at run
  obtain ⟨child, last, split, queued⟩ := run
  obtain ⟨inside, rfl, rfl⟩ := Scanning.splitAt_divided (i := j)
    (set_self found j) (by rw [same.start_eq]; exact late) split
  rw [same.stop_eq] at inside
  -- Cutting first and sending the front to memory then comes to the same.
  simp only [size_set, divided_relabel found same] at queued
  have isKept := IntervalPool.divided_kept found (gapBefore use)
  have sameKept : Relabelled { i.upTo (gapBefore use) with sibling := some s.pool.size }
      { j.upTo (gapBefore use) with sibling := some s.pool.size } := by
    rw [same]
    rfl
  have divided : Serving c base first (id :: s.pool.size :: hold)
      { s with pool := s.pool.divided id i (gapBefore use) } :=
    (serving.after_divide found cls virtual late inside odd).hold_mono (by grind)
  have settled := divided.after_settle isKept cls (apt.upTo_spared fit isUse) sameKept memory
    frame homes
  have steady := Steady.of_set isKept sameKept
  obtain ⟨after, pool⟩ := settled.after_enqueue (steady.ofClass_kept (ofClass_rest found cls)) queued
  refine ⟨after, ?_⟩
  rw [pool]
  exact (Steady.of_divided found fit.sorted late inside).trans steady

theorem after_retire (serving : Serving c base first (id :: hold) s) (own : OfClass c s.pool id)
    (run : s.retire c id = .ok s') :
    Serving c base first hold s' ∧ Steady s.pool s'.pool := by
  obtain ⟨i, found, step⟩ := retire_ok run
  have fit := serving.served.tidy.fit id i found
  have apt := serving.served.each id i found
  rcases step with ⟨none, spilled⟩ | ⟨use, isUse, ⟨late, mid, spilled, split⟩ |
    ⟨mid, vacated, queued⟩⟩
  · exact serving.after_spill own found (apt.spared_of_none fit none) spilled
  · have virtual := spill_virtual found spilled
    obtain ⟨i', v, constant?, stop, l, frame, found', -, -, home, -, rfl⟩ := Scanning.spill_ok spilled
    obtain rfl := mem_unique found found'
    obtain ⟨memory, homes⟩ := home_of_spill serving.homes home
    have same : i.Relabelled { i with location := l } := rfl
    exact serving.after_settleFront own found virtual isUse late same memory
      { frame with spilled := frame.spilled + 1 } homes split
  · obtain ⟨i', found', rfl⟩ := Scanning.modify_place vacated
    obtain rfl := mem_unique found found'
    have same : i.Relabelled { i with location := .invalid } := rfl
    have steady := Steady.of_set found same
    have vacant := serving.after_relabel found (own.of_found found) same s.frame (by simp) (by simp)
      (by simp) serving.homes
    obtain ⟨after, pool⟩ := vacant.after_enqueue (steady.ofClass_kept own) queued
    exact ⟨after, pool ▸ steady⟩

theorem after_evict (serving : Serving c base first hold s) (own : OfClass c s.pool id)
    (run : evict c pos s id = .ok s') :
    Serving c base first hold s' ∧ Steady s.pool s'.pool := by
  obtain ⟨i, cut, found, -, place, step⟩ := Scanning.evict_ok run
  have cls := own.of_found found
  rcases step with ⟨-, retired⟩ | ⟨late, child, mid, split, retired⟩
  · exact (serving.hold_mono fun k member => mem_cons_of_mem id member).after_retire own retired
  · have odd : cut % 2 = 1 := by
      rcases place with rfl | ⟨u, member, rfl⟩
      · exact gapBefore_odd (Nat.zero_lt_of_lt late)
      · have := (serving.served.tidy.fit id i found).even u member
        lia
    have virtual := splitAt_virtual found split
    obtain ⟨inside, rfl, rfl⟩ := Scanning.splitAt_divided found late split
    obtain ⟨after, steady⟩ :=
      (serving.after_divide found cls virtual late inside odd).after_retire
      (ofClass_rest found cls) retired
    have fit := serving.served.tidy.fit id i found
    exact ⟨after, (Steady.of_divided found fit.sorted late inside).trans steady⟩

theorem after_evictAll {leaving : List IntervalId} (serving : Serving c base first hold s)
    (own : ∀ k ∈ leaving, OfClass c s.pool k)
    (run : leaving.foldlM (evict c pos) s = .ok s') :
    Serving c base first hold s' ∧ Steady s.pool s'.pool := by
  induction leaving generalizing s with
  | nil =>
    obtain rfl : s = s' := by simpa using run
    exact ⟨serving, .refl⟩
  | cons k rest ih =>
    obtain ⟨mid, head, run⟩ := foldlM_cons_ok.mp run
    obtain ⟨next, steady⟩ := serving.after_evict (own k mem_cons_self) head
    obtain ⟨after, steady'⟩ :=
      ih next (fun m member => steady.ofClass_kept (own m (mem_cons_of_mem k member))) run
    exact ⟨after, steady.trans steady'⟩

theorem after_unlist (serving : Serving c base first hold s) (active inactive : List IntervalId)
    (less : ∀ k ∈ active ++ inactive, k ∈ s.active ++ s.inactive) :
    Serving c base first hold { s with active, inactive } := by
  refine { serving with own := fun k member => serving.own k ?_ }
  rcases mem_append.mp member with queued | listed
  · exact mem_append_left _ queued
  · exact mem_append_right _ (less k listed)

theorem after_letGo {test : IntervalId → Interval → Bool} {ids leaving : List IntervalId}
    (serving : Serving c base first hold s) (isLeaving : s.holders c reg test ids = .ok leaving)
    (listed : ∀ k ∈ ids, k ∈ s.active ++ s.inactive) (active inactive : List IntervalId)
    (less : ∀ k ∈ active ++ inactive, k ∈ s.active ++ s.inactive) :
    Serving c base first hold { s with active, inactive } ∧
      ∀ k ∈ leaving, OfClass c s.pool k := by
  refine ⟨serving.after_unlist active inactive less, fun k member => serving.own k ?_⟩
  have := (holders_ok isLeaving).1.mem_iff.mp (mem_append_left _ member)
  exact mem_append_right _ (listed k this)

theorem advance_ok (run : s.advance pos = .ok s') :
    ∃ active inactive, s' = { s with active, inactive } ∧
      ∀ k ∈ active ++ inactive, k ∈ s.active ++ s.inactive := by
  simp only [advance, bind_ok, pure_ok] at run
  obtain ⟨known, isKnown, rfl⟩ := run
  obtain ⟨names, -⟩ := Occupancy.pairs_ok isKnown
  refine ⟨_, _, rfl, fun k member => ?_⟩
  rw [← names]
  simp only [partition_eq_filter_filter, mem_append, List.mem_map,
    mem_filter] at member ⊢
  rcases member with ⟨e, ⟨⟨inside, -⟩, -⟩, rfl⟩ | ⟨e, ⟨⟨inside, -⟩, -⟩, rfl⟩
  · exact ⟨e, inside, rfl⟩
  · exact ⟨e, inside, rfl⟩

section

variable (serving : Serving c base first [id] s) (own : OfClass c s.pool id)

include serving own

theorem after_tryFree (run : s.tryFree c id = .ok (some s')) :
    Serving c base first [] s' ∧ Steady s.pool s'.pool := by
  obtain ⟨i, demands, reg, found, -, -, -, step⟩ := tryFree_ok run
  rcases step with ⟨-, assigned⟩ | ⟨mid, gap, split, assigned⟩
  · exact serving.after_assign own assigned
  · have odd := gapBefore_odd (Nat.zero_lt_of_lt gap)
    have virtual : i.physical = false := by
      simp only [splitAndQueue, bind_ok, Prod.exists] at split
      obtain ⟨_, _, split, -⟩ := split
      exact splitAt_virtual found split
    have fit := serving.served.tidy.fit id i found
    obtain ⟨serving, inside, pool⟩ :=
      serving.after_splitAndQueue found (own.of_found found) virtual gap odd split
    have steady : Steady s.pool mid.pool := pool ▸ .of_divided found fit.sorted gap inside
    obtain ⟨after, steady'⟩ := serving.after_assign (steady.ofClass_kept own) assigned
    exact ⟨after, steady.trans steady'⟩

theorem after_seize {blocked : Position} {given last : Scan} {m : Interval}
        (found : s.pool.intervals[id]? = some i) (late : i.start < gapBefore blocked)
    (assigned : s.assign id reg = .ok given) (isGiven : given.pool.intervals[id]? = some m)
    (step : (blocked < m.stop ∧ given.splitAndQueue id (gapBefore blocked) = .ok last) ∨
      (m.stop ≤ blocked ∧ last = given)) :
    Serving c base first [] last ∧ Steady s.pool last.pool := by
  have fit := serving.served.tidy.fit id i found
  obtain ⟨assignedTo, steady⟩ := serving.after_assign own assigned
  obtain ⟨i', found', rfl⟩ := Scanning.modify_place assigned
  obtain rfl := mem_unique found found'
  obtain rfl := mem_unique (set_self found _) isGiven
  rcases step with ⟨-, split⟩ | ⟨-, rfl⟩
  · have virtual : i.physical = false := by
      simp only [splitAndQueue, bind_ok, Prod.exists] at split
      obtain ⟨_, _, split, -⟩ := split
      have := splitAt_virtual isGiven split
      exact this
    have cls := own.of_found found
    have odd := gapBefore_odd (Nat.zero_lt_of_lt late)
    obtain ⟨seized, inside, pool⟩ := assignedTo.after_splitAndQueue isGiven cls virtual late odd split
    exact ⟨seized, steady.trans (pool ▸ .of_divided isGiven fit.sorted late inside)⟩
  · exact ⟨assignedTo, steady⟩

theorem after_takeOver {start blocked : Position} (found : s.pool.intervals[id]? = some i)
    (late : i.start < gapBefore blocked) (run : s.takeOver c id start reg blocked = .ok s') :
    Serving c base first [] s' ∧ Steady s.pool s'.pool := by
  obtain ⟨given, m, cut, leaving, left, j, leaving', assigned, isGiven, split, isLeaving, evicted,
    foundJ, isLeaving', evicted'⟩ := takeOver_ok run
  obtain ⟨seized, steady⟩ := serving.after_seize own found late assigned isGiven split
  obtain ⟨unlisted, leavers⟩ := seized.after_letGo isLeaving (by grind)
    (cut.active.filter (· ∉ leaving)) cut.inactive (by grind)
  obtain ⟨cleared, steady'⟩ := unlisted.after_evictAll leavers evicted
  obtain ⟨unlisted', leavers'⟩ := cleared.after_letGo isLeaving' (by grind) left.active
    (left.inactive.filter (· ∉ leaving')) (by grind)
  obtain ⟨after, steadyLast⟩ := unlisted'.after_evictAll leavers' evicted'
  exact ⟨after, (steady.trans steady').trans steadyLast⟩

theorem after_allocateBlocked (run : s.allocateBlocked c id = .ok s') :
    Serving c base first [] s' ∧ Steady s.pool s'.pool := by
  obtain ⟨i, found, step⟩ := allocateBlocked_ok run
  have fit := serving.served.tidy.fit id i found
  have apt := serving.served.each id i found
  have cls := own.of_found found
  rcases step with ⟨none, spilled⟩ | ⟨use, hard, soft, reg, isUse, -, -, step⟩
  · exact serving.after_spill own found (apt.spared_of_none fit none) spilled
  · rcases step with ⟨gap, child, mid, last, split, spilled, queued⟩ | ⟨later, taken⟩
    · have odd := gapBefore_odd (Nat.zero_lt_of_lt gap)
      have virtual := splitAt_virtual found split
      obtain ⟨inside, rfl, rfl⟩ := Scanning.splitAt_divided found gap split
      have divided : Serving c base first [id, s.pool.size]
          { s with pool := s.pool.divided id i (gapBefore use) } :=
        (serving.after_divide found cls virtual gap inside odd).hold_mono (by grind)
      have steady := Steady.of_divided found fit.sorted gap inside
      have isKept := IntervalPool.divided_kept found (gapBefore use)
      obtain ⟨after, steady'⟩ :=
        divided.after_spill (steady.ofClass_kept own) isKept (apt.upTo_spared fit isUse) spilled
      obtain ⟨after, pool⟩ := after.after_enqueue (steady'.ofClass_kept (ofClass_rest found cls))
        queued
      exact ⟨after, pool ▸ steady.trans steady'⟩
    · obtain ⟨from', u, member, rfl, -⟩ := nextUse_ok isUse
      have late : i.start < gapBefore (limit hard reg) := by
        have bound : limit (hard ++ soft) reg ≤ limit hard reg := limit_append_le
        have := lt_gapBefore (fit.even u member) (Nat.lt_of_lt_of_le later bound)
        lia
      exact serving.after_takeOver own found late taken

end

theorem after_pop (serving : Serving c base first [] s) {rest : List IntervalId}
    (isQueue : s.queue = id :: rest) : Serving c base first [id] { s with queue := rest } := by
  refine { serving with placed := fun k m found isMine invalid => ?_, own := fun k member => ?_ }
  · have := serving.placed k m found isMine invalid
    rw [isQueue] at this
    grind
  · refine serving.own k ?_
    rw [isQueue]
    grind

theorem after_placeNext (serving : Serving c base first [] s) {rest : List IntervalId}
    (isQueue : s.queue = id :: rest) (run : placeNext c { s with queue := rest } id = .ok s') :
    Serving c base first [] s' ∧ Steady s.pool s'.pool := by
  have own : OfClass c s.pool id := serving.own id (by simp [isQueue])
  have popped := serving.after_pop isQueue
  obtain ⟨start, mid, last, r, -, advanced, step, -, rfl⟩ := placeNext_ok run
  obtain ⟨active, inactive, rfl, less⟩ := advance_ok advanced
  have advanced := popped.after_unlist active inactive less
  obtain ⟨placed, steady⟩ : Serving c base first [] last ∧ Steady s.pool last.pool := by
    rcases step with free | blocked
    · exact advanced.after_tryFree own free
    · exact advanced.after_allocateBlocked own blocked
  split
  · refine ⟨{ placed with own := fun k member => ?_ }, steady⟩
    have := placed.own k
    have := steady.ofClass_kept own
    grind
  · exact ⟨placed, steady⟩

theorem after_drain {bound : Nat} (serving : Serving c base first [] s)
    (run : drain c bound pos s = .ok s') : Serving c base first [] s' ∧ s'.queue = [] := by
  obtain ⟨-, after⟩ := drain_keeps (P := fun _ s => Serving c base first [] s)
    (fun _ _ _ _ _ _ serving isQueue _ _ placed => (serving.after_placeNext isQueue placed).1)
    serving run
  exact after

end Serving

end Scan

end RegisterAllocation
