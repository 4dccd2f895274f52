import RegisterAllocation.Proofs.EdgeGroups

/-!
Intervals that are cut at joints in any way, and put anywhere. The pieces of a value cover what its
interval covered, the first of them starts at the definition, and two of them that touch are
neighbours.
-/

namespace RegisterAllocation

open List Option Interval

namespace IntervalPool

variable {joint : Position → Prop} {base p p' : IntervalPool} {id next : IntervalId}
  {i j : Interval} {v : ValueId} {q : Position}

/-- Pools that come from another one when intervals are split at joints and get places. -/
inductive Recut (joint : Position → Prop) (base : IntervalPool) : IntervalPool → Prop where
  | base : Recut joint base base
  | split {p p' : IntervalPool} {id child : IntervalId} {pos : Position} (recut : Recut joint base p)
      (isJoint : joint pos) (run : p.splitAt id pos = .ok (child, p')) : Recut joint base p'
  | place {p : IntervalPool} {id : IntervalId} {i : Interval} (recut : Recut joint base p)
      (found : p.intervals[id]? = some i) (place : Location) :
      Recut joint base (p.set id { i with location := place })

structure Parts (joint : Position → Prop) (base p : IntervalPool) : Prop where
  tidy : p.Tidy joint
  stays : ∀ (id : IntervalId) (i : Interval), base.intervals[id]? = some i →
    ∃ j, p.intervals[id]? = some j ∧ j.value = i.value ∧ j.root = i.root ∧ j.splitOff = i.splitOff
  rooted : ∀ (id : IntervalId) (i : Interval), p.intervals[id]? = some i → i.splitOff = false →
    i.root = id
  covers : ∀ v q, (∃ i, p.Piece v q i) ↔ ∃ i, base.Piece v q i

theorem Recut.to_parts (tidy : base.Tidy joint)
    (rooted : ∀ (id : IntervalId) (i : Interval), base.intervals[id]? = some i →
      i.splitOff = false → i.root = id) (recut : Recut joint base p) : Parts joint base p := by
  induction recut with
  | base => exact ⟨tidy, fun _ i found => ⟨i, found, rfl, rfl, rfl⟩, rooted, fun _ _ => .rfl⟩
  | @split p p' id child pos _ isJoint run parts =>
    obtain ⟨i, found, virtual, ⟨-, -, rfl⟩ | ⟨late, inside, -, rfl⟩⟩ := splitAt_ok run
    · exact parts
    have isKept := divided_kept found pos
    have isRest := divided_rest found pos
    refine ⟨parts.tidy.after_divide found virtual late inside isJoint, ?_, ?_, fun v q => ?_⟩
    · intro k m foundM
      obtain ⟨j, foundJ, value, root, off⟩ := parts.stays k m foundM
      by_cases here : k = id
      · subst here
        obtain rfl := mem_unique found foundJ
        exact ⟨_, isKept, value, root, off⟩
      · exact ⟨j, divided_other found here foundJ, value, root, off⟩
    · intro k m foundM
      rcases divided_cases found foundM with ⟨rfl, rfl⟩ | ⟨-, rfl⟩ | ⟨-, old⟩
      · exact parts.rooted k i found
      · simp [Interval.rest]
      · exact parts.rooted k m old
    · rw [← parts.covers v q]
      constructor
      · rintro ⟨j, k, foundJ, own, covered⟩
        rcases divided_cases found foundJ with ⟨-, rfl⟩ | ⟨-, rfl⟩ | ⟨-, old⟩
        · exact ⟨i, id, found, own, (covers_upTo.mp covered).1⟩
        · exact ⟨i, id, found, own, (covers_rest.mp covered).1⟩
        · exact ⟨j, k, old, own, covered⟩
      · rintro ⟨j, k, foundJ, own, covered⟩
        by_cases here : k = id
        · subst here
          obtain rfl := mem_unique found foundJ
          by_cases early : q < pos
          · exact ⟨_, k, isKept, own, covers_upTo.mpr ⟨covered, early⟩⟩
          · exact ⟨_, p.size, isRest, own,
              covers_rest.mpr ⟨covered, Nat.le_of_not_lt early⟩⟩
        · exact ⟨j, k, divided_other found here foundJ, own, covered⟩
  | @place p id i _ found place parts =>
    have same : i.Relabelled { i with location := place } := rfl
    have forth {k : IntervalId} {m : Interval} (foundM : p.intervals[k]? = some m) :=
      set_forth found same (fun _ => rfl) foundM
    have back {k : IntervalId} {m : Interval}
        (foundM : (p.set id { i with location := place }).intervals[k]? = some m) :=
      set_back found same (fun _ => rfl) foundM
    refine ⟨parts.tidy.after_relabel found same, ?_, ?_, fun v q => ?_⟩
    · intro k m foundM
      obtain ⟨j, foundJ, value, root, off⟩ := parts.stays k m foundM
      obtain ⟨j', foundJ', sameJ⟩ := forth foundJ
      exact ⟨j', foundJ', sameJ.value_eq.trans value, sameJ.root_eq.trans root, by rw [sameJ, ← off]⟩
    · intro k m foundM
      obtain ⟨j, foundJ, sameJ⟩ := back foundM
      rw [sameJ.root_eq, show m.splitOff = j.splitOff by rw [sameJ]]
      exact parts.rooted k j foundJ
    · rw [← parts.covers v q]
      constructor
      · rintro ⟨j, k, foundJ, own, covered⟩
        obtain ⟨m, foundM, sameM⟩ := back foundJ
        exact ⟨m, k, foundM, sameM.value_eq ▸ own, sameM.covers_eq ▸ covered⟩
      · rintro ⟨j, k, foundJ, own, covered⟩
        obtain ⟨m, foundM, sameM⟩ := forth foundJ
        exact ⟨m, k, foundM, sameM.value_eq.trans own, sameM.covers_eq.trans covered⟩

namespace Tidy

variable {a b : IntervalId}

theorem meet_of_next (tidy : Tidy joint p) (foundI : p.intervals[a]? = some i)
    (foundJ : p.intervals[b]? = some j) (ownI : i.value = some v) (ownJ : j.value = some v)
    (coversI : i.covers q = true) (coversJ : j.covers (q + 1) = true) (other : i ≠ j) :
    i.stop = q + 1 ∧ j.start = q + 1 := by
  have sortedI := (tidy.fit a i foundI).sorted
  have sortedJ := (tidy.fit b j foundJ).sorted
  have := start_le sortedI coversI
  have := start_le sortedJ coversJ
  have := lt_stop sortedI coversI
  have := lt_stop sortedJ coversJ
  have apart : a ≠ b := by
    rintro rfl
    exact other (mem_unique foundI foundJ)
  rcases tidy.stop_le_or apart foundI foundJ ownI ownJ with _ | _ <;> lia

theorem adjacent_of_meet (tidy : Tidy joint p) {ty : ValueType} {ids : List IntervalId}
    (siblings : Siblings joint p v ty ids) (foundI : p.intervals[a]? = some i)
    (foundJ : p.intervals[b]? = some j) (ownI : i.value = some v) (ownJ : j.value = some v)
    (meet : i.stop = j.start) : ∃ before after, ids = before ++ a :: b :: after := by
  have filled : ∀ (k : IntervalId) (m : Interval), p.intervals[k]? = some m → m.value = some v →
      m.start < m.stop := by
    intro k m found own
    have fit := tidy.fit k m found
    exact fit.start_lt (by rw [fit.kind, own]; rfl)
  obtain ⟨before, rest, rfl⟩ := append_of_mem ((siblings.member a).mpr ⟨i, foundI, ownI⟩)
  have memberJ := (siblings.member b).mpr ⟨j, foundJ, ownJ⟩
  obtain ⟨-, pairs, cross⟩ := pairwise_append.mp siblings.ordered
  have startI := filled a i foundI ownI
  have startJ := filled b j foundJ ownJ
  rcases mem_append.mp memberJ with early | late
  · have := cross b early a mem_cons_self j i foundJ foundI
    lia
  rcases mem_cons.mp late with rfl | late
  · obtain rfl := mem_unique foundI foundJ
    lia
  cases rest with
  | nil => simp at late
  | cons c rest =>
    rcases mem_cons.mp late with rfl | late
    · exact ⟨before, rest, rfl⟩
    · obtain ⟨m, foundM, ownM⟩ := (siblings.member c).mp (by simp)
      obtain ⟨head, pairs⟩ := pairwise_cons.mp pairs
      have := head c mem_cons_self i m foundI foundM
      have := (pairwise_cons.mp pairs).1 b late m j foundM foundJ
      have := filled c m foundM ownM
      lia

theorem meet_joint (tidy : Tidy joint p) (foundI : p.intervals[a]? = some i)
    (foundJ : p.intervals[b]? = some j) (ownI : i.value = some v) (ownJ : j.value = some v)
    (meet : i.stop = j.start) : joint i.stop := by
  obtain ⟨ty, ids, siblings⟩ := tidy.siblings v
  obtain ⟨before, after, rfl⟩ := tidy.adjacent_of_meet siblings foundI foundJ ownI ownJ meet
  have linked := siblings.linked
  clear siblings
  induction before with
  | nil =>
    obtain ⟨⟨i', foundI', -, touch⟩, -⟩ := linked
    obtain rfl := mem_unique foundI foundI'
    exact touch b j rfl foundJ meet
  | cons c before ih => exact ih linked.2

end Tidy

theorem zip_of_neighbours {a b : IntervalId} {before after : List IntervalId} {is : List Interval}
    (each : Forall₂ (fun k m => p.get k = .ok m) (before ++ a :: b :: after) is)
    (foundI : p.intervals[a]? = some i) (foundJ : p.intervals[b]? = some j) :
    (i, j) ∈ is.zip is.tail := by
  induction before generalizing is with
  | nil =>
    obtain _ | ⟨isI, _ | ⟨isJ, -⟩⟩ := each
    obtain rfl := Except.ok.inj ((get_ok.mpr foundI).symm.trans isI)
    obtain rfl := Except.ok.inj ((get_ok.mpr foundJ).symm.trans isJ)
    exact mem_cons_self
  | cons c before ih =>
    obtain _ | ⟨-, rest⟩ := each
    rename_i m is
    have among := ih rest
    cases is with
    | nil => simp at among
    | cons n is => exact mem_cons_of_mem _ among

theorem Parts.pair_visited (parts : Parts joint base p) {a b root : IntervalId} {m : Interval}
    (foundM : base.intervals[root]? = some m) (own : m.value = some v) (isRoot : m.root = root)
    (whole : m.splitOff = false) (foundI : p.intervals[a]? = some i)
    (foundJ : p.intervals[b]? = some j) (ownI : i.value = some v) (ownJ : j.value = some v)
    (meet : i.stop = j.start) : ∃ id ∈ p.ids, ∃ is, Connection.siblings p id = .ok is ∧
      (i, j) ∈ is.zip is.tail := by
  obtain ⟨r, foundR, value, rootR, off⟩ := parts.stays root m foundM
  obtain ⟨ty, ids, siblings⟩ := parts.tidy.siblings v
  have chain := siblings.chain_eq foundR (value.trans own)
  rw [rootR, isRoot] at chain
  obtain ⟨before, after, rfl⟩ := parts.tidy.adjacent_of_meet siblings foundI foundJ ownI ownJ meet
  obtain ⟨is, each⟩ : ∃ is, (before ++ a :: b :: after).mapM p.get = .ok is :=
    mapM_total fun k member => by
      obtain ⟨m, found, -⟩ := (siblings.member k).mp member
      exact ⟨m, get_ok.mpr found⟩
  refine ⟨root, ?_, is, ?_, zip_of_neighbours (mapM_ok.mp each) foundI foundJ⟩
  · exact mem_range.mpr (found_lt foundR)
  · have virtual : r.physical = false := by
      rw [(parts.tidy.fit root r foundR).kind, value, own]
      rfl
    simp [Connection.siblings, get_ok.mpr foundR, virtual, off, whole, chain, each]

end IntervalPool

end RegisterAllocation
