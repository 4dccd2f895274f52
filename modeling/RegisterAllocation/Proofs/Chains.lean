import RegisterAllocation.Proofs.Drafts

/-!
Pools whose intervals are linked up properly. The intervals of a value, from its first one on,
follow each other in increasing position order, and touch only at joints. Splitting at a joint and
choosing other locations keep a pool so.
-/

namespace RegisterAllocation

open List Option Interval

namespace Location

@[simp] theorem isMemory_invalid : invalid.isMemory = false := rfl

@[simp] theorem isAnyRegister_invalid : invalid.isAnyRegister = false := rfl

@[simp] theorem isInvalid_invalid : invalid.isInvalid = true := rfl

end Location

namespace Interval

variable {i j : Interval} {pos : Position}

structure Fit (i : Interval) : Prop where
  sorted : Range.Sorted i.ranges
  filled : i.physical = false → i.ranges ≠ []
  uses : Use.Sorted i.uses
  even : ∀ u ∈ i.uses, u.pos % 2 = 0
  kind : i.physical = i.value.isNone

def Relabelled (i j : Interval) : Prop :=
  j = { i with location := j.location, preferred := j.preferred, pinned := j.pinned }

namespace Relabelled

variable (same : Relabelled i j)

include same

theorem ranges_eq : j.ranges = i.ranges := by rw [same]

theorem uses_eq : j.uses = i.uses := by rw [same]

theorem value_eq : j.value = i.value := by rw [same]

theorem ty_eq : j.ty = i.ty := by rw [same]

theorem sibling_eq : j.sibling = i.sibling := by rw [same]

theorem root_eq : j.root = i.root := by rw [same]

theorem physical_eq : j.physical = i.physical := by rw [same]

theorem definedBy_eq : j.definedBy = i.definedBy := by rw [same]

theorem start_eq : j.start = i.start := by rw [start, same.ranges_eq]; rfl

theorem stop_eq : j.stop = i.stop := by rw [stop, same.ranges_eq]; rfl

theorem covers_eq : j.covers pos = i.covers pos := by
  rw [covers, same.ranges_eq]; rfl

theorem keeps_fit (fit : i.Fit) : j.Fit := by
  refine ⟨?_, ?_, ?_, ?_, ?_⟩
  · rw [same.ranges_eq]
    exact fit.sorted
  · rw [same.ranges_eq, same.physical_eq]
    exact fit.filled
  · rw [same.uses_eq]
    exact fit.uses
  · rw [same.uses_eq]
    exact fit.even
  · rw [same.physical_eq, same.value_eq]
    exact fit.kind

end Relabelled

theorem Fit.start_lt (fit : i.Fit) (virtual : i.physical = false) : i.start < i.stop :=
  start_lt_stop fit.sorted (fit.filled virtual)

theorem Fit.upTo_fit (fit : i.Fit) (next : IntervalId) (after : i.start < pos)
    (before : pos < i.stop) :
    ({ i.upTo pos with sibling := some next }).Fit := by
  refine ⟨fit.sorted.before_sorted, fun _ => upTo_ne_nil fit.sorted after before, ?_, ?_, fit.kind⟩
  · exact fit.uses.sublist (takeWhile_sublist _)
  · intro u member
    exact fit.even u ((takeWhile_sublist _).mem member)

theorem Fit.rest_fit (fit : i.Fit) (virtual : i.physical = false) (before : pos < i.stop) :
    (i.rest pos).Fit := by
  refine ⟨fit.sorted.after_sorted, fun _ => rest_ne_nil fit.sorted before, ?_, ?_, ?_⟩
  · exact fit.uses.sublist (dropWhile_sublist _)
  · intro u member
    exact fit.even u ((dropWhile_sublist _).mem member)
  · have kind := fit.kind
    rw [virtual] at kind
    exact kind

end Interval

namespace IntervalPool

variable {joint : Position → Prop} {p p' : IntervalPool} {id next child : IntervalId}
  {i j : Interval} {pos : Position} {ids before after : List IntervalId} {v : ValueId}

/-- Each interval of a list has the next one as its sibling, and touches it at a joint if at all. -/
def Strung (joint : Position → Prop) (p : IntervalPool) : List IntervalId → Prop
  | [] => True
  | id :: rest =>
    (∃ i, p.intervals[id]? = some i ∧ i.sibling = rest.head? ∧
      ∀ next j, rest.head? = some next → p.intervals[next]? = some j → i.stop = j.start →
        joint i.stop) ∧
    Strung joint p rest

structure Siblings (joint : Position → Prop) (p : IntervalPool) (v : ValueId) (ty : ValueType)
    (ids : List IntervalId) : Prop where
  once : ids.Nodup
  member : ∀ id, id ∈ ids ↔ ∃ i, p.intervals[id]? = some i ∧ i.value = some v
  first : ∀ id ∈ ids, ∀ i, p.intervals[id]? = some i → ids.head? = some i.root ∧ i.ty = ty
  linked : Strung joint p ids
  ordered : ids.Pairwise fun a b =>
    ∀ i j, p.intervals[a]? = some i → p.intervals[b]? = some j → i.stop ≤ j.start

structure Tidy (joint : Position → Prop) (p : IntervalPool) : Prop where
  fit : ∀ (id : IntervalId) (i : Interval), p.intervals[id]? = some i → i.Fit
  siblings : ∀ v, ∃ ty ids, Siblings joint p v ty ids

theorem Strung.found_of_mem (linked : Strung joint p ids) (member : id ∈ ids) :
    ∃ i, p.intervals[id]? = some i := by
  induction ids with
  | nil => simp at member
  | cons k rest ih =>
    obtain ⟨⟨i, found, -⟩, others⟩ := linked
    rcases mem_cons.mp member with rfl | member
    · exact ⟨i, found⟩
    · exact ih others member

theorem Strung.congr (linked : Strung joint p ids)
    (same : ∀ id ∈ ids, ∀ i, p.intervals[id]? = some i → ∃ j, p'.intervals[id]? = some j ∧
      j.sibling = i.sibling ∧ j.start = i.start ∧ j.stop = i.stop) : Strung joint p' ids := by
  induction ids with
  | nil => trivial
  | cons id rest ih =>
    obtain ⟨⟨i, found, sibling, touch⟩, others⟩ := linked
    obtain ⟨i', found', sibling', start', stop'⟩ := same id mem_cons_self i found
    refine ⟨⟨i', found', sibling'.trans sibling, ?_⟩,
      ih others fun k member => same k (mem_cons_of_mem id member)⟩
    intro next j' head foundNext meet
    have member : next ∈ rest := mem_of_mem_head? head
    cases rest with
    | nil => simp at member
    | cons second rest =>
      obtain rfl : second = next := by simpa using head
      obtain ⟨⟨j, foundJ, -⟩, -⟩ := others
      obtain ⟨k, foundK, -, startK, -⟩ := same second (by simp) j foundJ
      obtain rfl := mem_unique foundNext foundK
      rw [stop'] at meet ⊢
      exact touch second j rfl foundJ (meet.trans startK)

theorem Siblings.congr {ty : ValueType} (siblings : Siblings joint p v ty ids)
    (values : ∀ k : IntervalId, (∃ m, p.intervals[k]? = some m ∧ m.value = some v) ↔
      ∃ m, p'.intervals[k]? = some m ∧ m.value = some v)
    (same : ∀ k ∈ ids, ∀ m, p'.intervals[k]? = some m → ∃ l, p.intervals[k]? = some l ∧
      m.root = l.root ∧ m.ty = l.ty ∧ m.sibling = l.sibling ∧ m.start = l.start ∧ m.stop = l.stop) :
    Siblings joint p' v ty ids := by
  refine ⟨siblings.once, fun k => (siblings.member k).trans (values k), ?_, ?_, ?_⟩
  · intro k member m foundM
    obtain ⟨l, foundL, root, ty, -⟩ := same k member m foundM
    rw [root, ty]
    exact siblings.first k member l foundL
  · apply siblings.linked.congr
    intro k member l foundL
    obtain ⟨m, foundM, -⟩ := (values k).mp ((siblings.member k).mp member)
    obtain ⟨l', foundL', -, -, rest⟩ := same k member m foundM
    obtain rfl := mem_unique foundL foundL'
    exact ⟨m, foundM, rest⟩
  · apply siblings.ordered.imp_of_mem
    intro a b memberA memberB before m m' foundM foundM'
    obtain ⟨l, foundL, -, -, -, -, stop⟩ := same a memberA m foundM
    obtain ⟨l', foundL', -, -, -, start, -⟩ := same b memberB m' foundM'
    rw [stop, start]
    exact before l l' foundL foundL'

theorem Siblings.after_relabel {ty : ValueType} (siblings : Siblings joint p v ty ids)
    (found : p.intervals[id]? = some i) (same : i.Relabelled j) :
    Siblings joint (p.set id j) v ty ids := by
  refine siblings.congr (fun k => ⟨?_, ?_⟩) fun k _ m foundM => ?_
  · rintro ⟨l, foundL, value⟩
    obtain ⟨m, foundM, sameM⟩ := set_forth found same (fun _ => rfl) foundL
    exact ⟨m, foundM, sameM.value_eq.trans value⟩
  · rintro ⟨m, foundM, value⟩
    obtain ⟨l, foundL, sameL⟩ := set_back found same (fun _ => rfl) foundM
    exact ⟨l, foundL, sameL.value_eq.symm.trans value⟩
  · obtain ⟨l, foundL, sameL⟩ := set_back found same (fun _ => rfl) foundM
    exact ⟨l, foundL, sameL.root_eq, sameL.ty_eq, sameL.sibling_eq, sameL.start_eq, sameL.stop_eq⟩

theorem Tidy.after_relabel (tidy : Tidy joint p) (found : p.intervals[id]? = some i)
    (same : i.Relabelled j) : Tidy joint (p.set id j) := by
  refine ⟨?_, fun v => ?_⟩
  · intro k m foundM
    obtain ⟨l, foundL, sameL⟩ := set_back found same (fun _ => rfl) foundM
    exact sameL.keeps_fit (tidy.fit k l foundL)
  · obtain ⟨ty, ids, siblings⟩ := tidy.siblings v
    exact ⟨ty, ids, siblings.after_relabel found same⟩

def divided (p : IntervalPool) (id : IntervalId) (i : Interval) (pos : Position) : IntervalPool :=
  ⟨(p.set id { i.upTo pos with sibling := some p.size }).intervals.push (i.rest pos)⟩

theorem splitAt_ok (run : p.splitAt id pos = .ok (child, p')) :
    ∃ i, p.intervals[id]? = some i ∧ i.physical = false ∧
      ((pos ≤ i.start ∧ child = id ∧ p' = p) ∨
        (i.start < pos ∧ pos < i.stop ∧ child = p.size ∧ p' = p.divided id i pos)) := by
  simp only [splitAt, bind_ok, get_ok, ensure_ok] at run
  obtain ⟨i, found, _, virtual, run⟩ := run
  refine ⟨i, found, virtual, ?_⟩
  split at run
  · rename_i early
    obtain ⟨rfl, rfl⟩ := Prod.mk.inj (pure_ok.mp run)
    exact .inl ⟨early, rfl, rfl⟩
  · rename_i late
    simp only [bind_ok, ensure_ok, pure_ok, Prod.mk.injEq] at run
    obtain ⟨_, inside, rfl, rfl⟩ := run
    exact .inr ⟨Nat.lt_of_not_le late, inside, rfl, rfl⟩

section

variable (found : p.intervals[id]? = some i)

include found

theorem getElem_divided (k : IntervalId) : (p.divided id i pos).intervals[k]? =
      if k = id then some { i.upTo pos with sibling := some p.size }
      else if k = p.size then some (i.rest pos) else p.intervals[k]? := by
  have inside : id < p.size := found_lt found
  have size : (p.set id { i.upTo pos with sibling := some p.size }).intervals.size = p.size :=
    size_set p id _
  rw [divided, Array.getElem?_push, size, intervals_set found]
  by_cases new : k = p.size
  · have other : k ≠ id := by lia
    simp [new, Nat.ne_of_gt inside]
  · simp [new]

theorem size_ne : p.size ≠ id :=
  Nat.ne_of_gt (found_lt found)

theorem divided_kept (pos : Position) :
    (p.divided id i pos).intervals[id]? = some { i.upTo pos with sibling := some p.size } := by
  rw [getElem_divided found, if_pos rfl]

theorem divided_rest (pos : Position) :
    (p.divided id i pos).intervals[p.size]? = some (i.rest pos) := by
  rw [getElem_divided found, if_neg (size_ne found), if_pos rfl]

theorem divided_cases {k : IntervalId} (foundJ : (p.divided id i pos).intervals[k]? = some j) :
    (k = id ∧ j = { i.upTo pos with sibling := some p.size }) ∨ (k = p.size ∧ j = i.rest pos) ∨
      (k ≠ id ∧ p.intervals[k]? = some j) := by
  rw [getElem_divided found] at foundJ
  split at foundJ
  · exact .inl ⟨‹_›, (some.inj foundJ).symm⟩
  · split at foundJ
    · exact .inr (.inl ⟨‹_›, (some.inj foundJ).symm⟩)
    · exact .inr (.inr ⟨‹_›, foundJ⟩)

theorem divided_other {k : IntervalId} (other : k ≠ id)
    (foundJ : p.intervals[k]? = some j) : (p.divided id i pos).intervals[k]? = some j := by
  have : k ≠ p.size := Nat.ne_of_lt (found_lt foundJ)
  simp [getElem_divided found, other, this, foundJ]

end

@[simp] theorem size_divided : (p.divided id i pos).size = p.size + 1 := by
  simp [divided, size, set]

/-- Giving an interval another location and dividing it can change places: the rest of it starts
without one. -/
theorem divided_relabel (found : p.intervals[id]? = some i) (same : i.Relabelled j) :
    (p.set id j).divided id j pos =
      (p.divided id i pos).set id { j.upTo pos with sibling := some p.size } := by
  have kept : (p.divided id i pos).intervals[id]? =
      some { i.upTo pos with sibling := some p.size } := by
    rw [getElem_divided found, if_pos rfl]
  have isJ := set_self found j
  have rest : j.rest pos = i.rest pos := by rw [same]; rfl
  have agree (k : Nat) : ((p.set id j).divided id j pos).intervals[k]? =
      ((p.divided id i pos).set id
        { j.upTo pos with sibling := some p.size }).intervals[k]? := by
    rw [getElem_divided isJ, intervals_set kept, getElem_divided found, intervals_set found, size_set,
      rest]
    split <;> simp_all
  exact congrArg mk (Array.ext_getElem? agree)

theorem getElem_size : p.intervals[p.size]? = none := by
  simp [size]

theorem Strung.after_divide (fit : i.Fit) (found : p.intervals[id]? = some i) (after' : i.start < pos)
    (inside : pos < i.stop) (isJoint : joint pos) (once : (before ++ id :: after).Nodup)
    (linked : Strung joint p (before ++ id :: after)) :
    Strung joint (p.divided id i pos) (before ++ id :: p.size :: after) := by
  have old : ∀ k, k ≠ id → ∀ m, p.intervals[k]? = some m →
      (p.divided id i pos).intervals[k]? = some m :=
    fun k other m foundM => divided_other found other foundM
  induction before with
  | nil =>
    obtain ⟨⟨i', found', sibling, touch⟩, others⟩ := linked
    obtain rfl := mem_unique found found'
    have new : p.size ≠ id := size_ne found
    refine ⟨⟨_, divided_kept found pos, rfl, ?_⟩,
      ⟨i.rest pos, by simp [getElem_divided found, new], sibling, ?_⟩, ?_⟩
    · intro next j head foundJ meet
      obtain rfl : p.size = next := by simpa using head
      obtain rfl : i.rest pos = j := by simpa [getElem_divided found, new] using foundJ
      have below : (i.upTo pos).stop ≤ pos := stop_upTo_le fit.sorted
      have above : pos ≤ (i.rest pos).start := le_start_rest fit.sorted inside
      have here : (i.upTo pos).stop = pos := by
        have : (i.upTo pos).stop = (i.rest pos).start := meet
        lia
      have same : joint (i.upTo pos).stop := by rwa [here]
      exact same
    · intro next j head foundJ meet
      have member : next ∈ after := mem_of_mem_head? head
      have other : next ≠ id := fun same => (nodup_cons.mp once).1 (same ▸ member)
      obtain ⟨m, foundM⟩ := others.found_of_mem member
      obtain rfl := mem_unique (old next other m foundM) foundJ
      rw [stop_rest fit.sorted inside] at meet ⊢
      exact touch next m head foundM meet
    · apply others.congr
      intro k member m foundM
      have other : k ≠ id := fun same => (nodup_cons.mp once).1 (same ▸ member)
      exact ⟨m, old k other m foundM, rfl, rfl, rfl⟩
  | cons a before ih =>
    obtain ⟨fresh, once⟩ := nodup_cons.mp once
    obtain ⟨⟨m, foundM, sibling, touch⟩, others⟩ := linked
    have other : a ≠ id := fun same => fresh (by simp [same])
    have heads : (before ++ id :: p.size :: after).head? = (before ++ id :: after).head? := by
      cases before <;> rfl
    refine ⟨⟨m, old a other m foundM, ?_, ?_⟩, ih once others⟩
    · exact sibling.trans heads.symm
    · intro next j head foundJ meet
      replace head : (before ++ id :: after).head? = some next := heads.symm.trans head
      obtain ⟨k, foundK⟩ := others.found_of_mem (mem_of_mem_head? head)
      refine touch next k head foundK (meet.trans ?_)
      by_cases here : next = id
      · subst here
        obtain rfl := mem_unique found foundK
        obtain rfl := some.inj (by simpa [getElem_divided found] using foundJ)
        exact start_upTo fit.sorted after' inside
      · obtain rfl := mem_unique (old next here k foundK) foundJ
        rfl

theorem Siblings.divide_other {ty : ValueType} (siblings : Siblings joint p v ty ids)
    (found : p.intervals[id]? = some i) (other : i.value ≠ some v) :
    Siblings joint (p.divided id i pos) v ty ids := by
  have away : ∀ {k : IntervalId} {m : Interval}, p.intervals[k]? = some m → m.value = some v →
      k ≠ id := by
    rintro k m foundM value rfl
    obtain rfl := mem_unique found foundM
    exact other value
  refine siblings.congr (fun k => ⟨?_, ?_⟩) fun k member m foundM => ?_
  · rintro ⟨m, foundM, value⟩
    exact ⟨m, divided_other found (away foundM value) foundM, value⟩
  · rintro ⟨m, foundM, value⟩
    rcases divided_cases found foundM with ⟨-, rfl⟩ | ⟨-, rfl⟩ | ⟨-, old⟩
    · exact absurd value other
    · exact absurd value other
    · exact ⟨m, old, value⟩
  · obtain ⟨l, foundL, value⟩ := (siblings.member k).mp member
    obtain rfl := mem_unique foundM (divided_other found (away foundL value) foundL)
    exact ⟨m, foundL, rfl, rfl, rfl, rfl, rfl⟩

section

variable {ty : ValueType} (siblings : Siblings joint p v ty (before ++ id :: after))
  (found : p.intervals[id]? = some i)

include siblings

omit found in
theorem Siblings.size_not_mem : p.size ∉ before ++ id :: after := by
  intro member
  obtain ⟨m, foundM, -⟩ := (siblings.member p.size).mp member
  simp [getElem_size] at foundM

include found

theorem Siblings.old_of_divided {k : IntervalId} (member : k ∈ before ++ after)
    (foundJ : (p.divided id i pos).intervals[k]? = some j) : p.intervals[k]? = some j := by
  obtain ⟨-, onceRest, apart⟩ := nodup_append.mp siblings.once
  have notThis : k ≠ id := by
    rintro rfl
    rcases mem_append.mp member with early | late
    · exact apart k early k mem_cons_self rfl
    · exact (nodup_cons.mp onceRest).1 late
  have notNew : k ≠ p.size := by
    rintro rfl
    exact siblings.size_not_mem (by simpa using Or.imp_right .inr (mem_append.mp member))
  simpa [getElem_divided found, notThis, notNew] using foundJ

/-- The two parts of a divided interval take its place in the order: the first ends where the second
may start. -/
theorem Siblings.ordered_divided (fit : i.Fit) (late : i.start < pos) (inside : pos < i.stop) :
    (before ++ id :: p.size :: after).Pairwise fun a b => ∀ j k,
      (p.divided id i pos).intervals[a]? = some j → (p.divided id i pos).intervals[b]? = some k →
        j.stop ≤ k.start := by
  have old : ∀ k ∈ before ++ after, ∀ m, (p.divided id i pos).intervals[k]? = some m →
      p.intervals[k]? = some m := fun k member m => siblings.old_of_divided found member
  have isKept : ∀ m, (p.divided id i pos).intervals[id]? = some m →
      m.start = i.start ∧ m.stop ≤ pos := by
    intro m foundM
    obtain rfl := mem_unique (divided_kept found pos) foundM
    exact ⟨start_upTo fit.sorted late inside, stop_upTo_le fit.sorted⟩
  have isRest : ∀ m, (p.divided id i pos).intervals[p.size]? = some m →
      pos ≤ m.start ∧ m.stop = i.stop := by
    intro m foundM
    obtain rfl := mem_unique (divided_rest found pos) foundM
    exact ⟨le_start_rest fit.sorted inside, stop_rest fit.sorted inside⟩
  obtain ⟨early, pairs, cross⟩ := pairwise_append.mp siblings.ordered
  obtain ⟨behind, pairs⟩ := pairwise_cons.mp pairs
  refine pairwise_append.mpr ⟨?_, pairwise_cons.mpr ⟨?_,
    pairwise_cons.mpr ⟨?_, ?_⟩⟩, ?_⟩
  · apply early.imp_of_mem
    intro a b memberA memberB le m m' foundM foundM'
    exact le m m' (old a (by simp [memberA]) m foundM) (old b (by simp [memberB]) m' foundM')
  · intro b member m m' foundM foundM'
    have kept := isKept m foundM
    rcases mem_cons.mp member with rfl | member
    · have rest := isRest m' foundM'
      lia
    · have := behind b member i m' found (old b (by simp [member]) m' foundM')
      lia
  · intro b member m m' foundM foundM'
    have rest := isRest m foundM
    have := behind b member i m' found (old b (by simp [member]) m' foundM')
    lia
  · apply pairs.imp_of_mem
    intro a b memberA memberB le m m' foundM foundM'
    exact le m m' (old a (by simp [memberA]) m foundM) (old b (by simp [memberB]) m' foundM')
  · intro a memberA b memberB m m' foundM foundM'
    have foundA := old a (by simp [memberA]) m foundM
    have first := cross a memberA id mem_cons_self m i foundA found
    rcases mem_cons.mp memberB with rfl | memberB
    · have kept := isKept m' foundM'
      lia
    rcases mem_cons.mp memberB with rfl | memberB
    · have rest := isRest m' foundM'
      lia
    · exact cross a memberA b (mem_cons_of_mem id memberB) m m' foundA
        (old b (by simp [memberB]) m' foundM')

theorem Siblings.after_divide (fit : i.Fit) (own : i.value = some v) (late : i.start < pos)
    (inside : pos < i.stop) (isJoint : joint pos) :
    Siblings joint (p.divided id i pos) v ty (before ++ id :: p.size :: after) := by
  have new : p.size ≠ id := size_ne found
  have perm : (before ++ id :: p.size :: after).Perm (p.size :: (before ++ id :: after)) := by
    rw [show before ++ id :: p.size :: after = (before ++ [id]) ++ p.size :: after by simp,
      show before ++ id :: after = (before ++ [id]) ++ after by simp]
    exact perm_middle
  refine ⟨?_, ?_, ?_, siblings.linked.after_divide fit found late inside isJoint siblings.once,
    siblings.ordered_divided found fit late inside⟩
  · exact perm.nodup_iff.mpr (nodup_cons.mpr ⟨siblings.size_not_mem, siblings.once⟩)
  · intro k
    rw [perm.mem_iff, mem_cons, siblings.member, getElem_divided found]
    by_cases here : k = id
    · subst here
      simp [found, own, upTo]
    · by_cases isNew : k = p.size
      · simp [isNew, new, own, Interval.rest]
      · simp [here, isNew]
  · intro k member m foundM
    have head : (before ++ id :: p.size :: after).head? = (before ++ id :: after).head? := by
      cases before <;> rfl
    rw [head]
    have ofI := siblings.first id (by simp) i found
    rcases divided_cases found foundM with ⟨-, rfl⟩ | ⟨-, rfl⟩ | ⟨-, old⟩
    · exact ofI
    · exact ofI
    · refine siblings.first k ((mem_cons.mp (perm.mem_iff.mp member)).resolve_left ?_) m old
      rintro rfl
      simp [getElem_size] at old

end

theorem Tidy.after_divide (tidy : Tidy joint p) (found : p.intervals[id]? = some i)
    (virtual : i.physical = false) (late : i.start < pos) (inside : pos < i.stop)
    (isJoint : joint pos) : Tidy joint (p.divided id i pos) := by
  have fit := tidy.fit id i found
  refine ⟨?_, fun v => ?_⟩
  · intro k m foundM
    rcases divided_cases found foundM with ⟨-, rfl⟩ | ⟨-, rfl⟩ | ⟨-, old⟩
    · exact fit.upTo_fit p.size late inside
    · exact fit.rest_fit virtual inside
    · exact tidy.fit k m old
  · obtain ⟨ty, ids, siblings⟩ := tidy.siblings v
    by_cases own : i.value = some v
    · obtain ⟨before, after, rfl⟩ :=
        append_of_mem ((siblings.member id).mpr ⟨i, found, own⟩)
      exact ⟨ty, _, siblings.after_divide found fit own late inside isJoint⟩
    · exact ⟨ty, ids, siblings.divide_other found own⟩

theorem chainWithin_ok {rest : List IntervalId} {bound : Nat}
    (linked : Strung joint p (id :: rest)) (enough : rest.length < bound) :
    p.chainWithin bound id = .ok (id :: rest) := by
  induction rest generalizing id bound with
  | nil =>
    obtain ⟨⟨i, found, sibling, -⟩, -⟩ := linked
    obtain ⟨bound, rfl⟩ := Nat.exists_eq_add_of_lt enough
    simp [chainWithin, get_ok.mpr found, sibling, pure, Except.pure]
  | cons next rest ih =>
    obtain ⟨⟨i, found, sibling, -⟩, others⟩ := linked
    cases bound with
    | zero => simp at enough
    | succ bound =>
      have tail := ih others (by simpa using enough)
      simp [chainWithin, get_ok.mpr found, sibling, tail, pure, Except.pure]

namespace Siblings

variable {ty : ValueType}

theorem length_le (siblings : Siblings joint p v ty ids) : ids.length ≤ p.size := by
  have inside : ids ⊆ range p.size := by
    intro id member
    obtain ⟨i, found, -⟩ := (siblings.member id).mp member
    exact mem_range.mpr (found_lt found)
  simpa using (siblings.once.subperm inside).length_le

theorem eq_singleton (siblings : Siblings joint p v ty ids) (found : p.intervals[id]? = some i)
    (own : i.value = some v) (alone : i.root = id ∧ i.sibling = none) : ids = [id] := by
  have first := (siblings.first id ((siblings.member id).mpr ⟨i, found, own⟩) i found).1
  cases ids with
  | nil => simp at first
  | cons head rest =>
    obtain rfl : head = id := by simpa [alone.1] using first
    obtain ⟨⟨i', found', sibling, -⟩, -⟩ := siblings.linked
    obtain rfl := mem_unique found found'
    rw [alone.2] at sibling
    rw [head?_eq_none_iff.mp sibling.symm]

theorem chain_eq (siblings : Siblings joint p v ty ids) (found : p.intervals[id]? = some i)
    (own : i.value = some v) : p.chain i.root = .ok ids := by
  have first := (siblings.first id ((siblings.member id).mpr ⟨i, found, own⟩) i found).1
  have length := siblings.length_le
  have linked := siblings.linked
  cases ids with
  | nil => simp at first
  | cons head rest =>
    obtain rfl : head = i.root := by simpa using first
    exact chainWithin_ok linked (by simp at length; lia)

end Siblings

def Piece (p : IntervalPool) (v : ValueId) (q : Position) (i : Interval) : Prop :=
  ∃ id : IntervalId, p.intervals[id]? = some i ∧ i.value = some v ∧ i.covers q = true

theorem findIn_total (test : Interval → Bool) (found : ∀ k ∈ ids, ∃ m, p.intervals[k]? = some m) :
    (∃ k ∈ ids, ∃ m, p.intervals[k]? = some m ∧ test m = true ∧ p.findIn test ids = .ok (some k)) ∨
    (∀ k ∈ ids, ∀ m, p.intervals[k]? = some m → test m = false) ∧ p.findIn test ids = .ok none := by
  induction ids with
  | nil => exact .inr ⟨by simp, rfl⟩
  | cons k rest ih =>
    obtain ⟨m, foundM⟩ := found k mem_cons_self
    rw [findIn, get_ok.mpr foundM, ok_bind]
    cases passes : test m with
    | true => exact .inl ⟨k, mem_cons_self, m, foundM, passes, rfl⟩
    | false =>
      simp only [Bool.false_eq_true, ↓reduceIte]
      rcases ih (fun j member => found j (mem_cons_of_mem _ member)) with
        ⟨j, member, others⟩ | ⟨none, isNone⟩
      · exact .inl ⟨j, mem_cons_of_mem _ member, others⟩
      · refine .inr ⟨fun j member n foundN => ?_, isNone⟩
        rcases mem_cons.mp member with rfl | member
        · exact mem_unique foundM foundN ▸ passes
        · exact none j member n foundN

/-- Where a value is kept at a position: in the place of the piece that covers it, or nowhere. -/
theorem Tidy.locationAt_cases (tidy : Tidy joint p) (found : p.intervals[id]? = some i)
    (own : i.value = some v) (isRoot : i.root = id) (q : Position) :
    (∃ j, p.Piece v q j ∧ p.locationAt id q = .ok (some j.location)) ∨
      (∀ j, ¬p.Piece v q j) ∧ p.locationAt id q = .ok none := by
  obtain ⟨ty, ids, siblings⟩ := tidy.siblings v
  have chain := siblings.chain_eq found own
  rw [isRoot] at chain
  rcases p.findIn_total (·.covers q) (fun k => siblings.linked.found_of_mem) with
    ⟨k, member, j, foundJ, covers, isFound⟩ | ⟨none, isFound⟩
  · obtain ⟨j', foundJ', ownJ⟩ := (siblings.member k).mp member
    obtain rfl := mem_unique foundJ foundJ'
    refine .inl ⟨j, ⟨k, foundJ, ownJ, covers⟩, ?_⟩
    simp [locationAt, siblingAt, chain, isFound, get_ok.mpr foundJ, pure, Except.pure]
  · refine .inr ⟨?_, by simp [locationAt, siblingAt, chain, isFound, pure, Except.pure]⟩
    rintro j ⟨k, foundJ, ownJ, covers⟩
    have := none k ((siblings.member k).mpr ⟨j, foundJ, ownJ⟩) j foundJ
    simp [covers] at this

namespace Tidy

theorem stop_le_or (tidy : Tidy joint p) {a b : IntervalId} (other : a ≠ b)
    (foundI : p.intervals[a]? = some i) (foundJ : p.intervals[b]? = some j)
    (ownI : i.value = some v) (ownJ : j.value = some v) : i.stop ≤ j.start ∨ j.stop ≤ i.start := by
  obtain ⟨ty, ids, siblings⟩ := tidy.siblings v
  have memberI := (siblings.member a).mpr ⟨i, foundI, ownI⟩
  have memberJ := (siblings.member b).mpr ⟨j, foundJ, ownJ⟩
  obtain ⟨before, after, rfl⟩ := append_of_mem memberI
  obtain ⟨-, pairs, cross⟩ := pairwise_append.mp siblings.ordered
  rcases mem_append.mp memberJ with early | late
  · exact .inr (cross b early a mem_cons_self j i foundJ foundI)
  · rcases mem_cons.mp late with rfl | late
    · exact absurd rfl other
    · exact .inl ((pairwise_cons.mp pairs).1 b late i j foundI foundJ)

/-- A position is covered by one piece of a value. -/
theorem piece_unique (tidy : Tidy joint p) (first : p.Piece v pos i) (second : p.Piece v pos j) :
    i = j := by
  obtain ⟨a, foundI, ownI, coversI⟩ := first
  obtain ⟨b, foundJ, ownJ, coversJ⟩ := second
  by_cases same : a = b
  · exact mem_unique foundI (same ▸ foundJ)
  · have sortedI := (tidy.fit a i foundI).sorted
    have sortedJ := (tidy.fit b j foundJ).sorted
    have := start_le sortedI coversI
    have := start_le sortedJ coversJ
    have := lt_stop sortedI coversI
    have := lt_stop sortedJ coversJ
    rcases tidy.stop_le_or same foundI foundJ ownI ownJ with _ | _ <;> lia

theorem root_stop_le (tidy : Tidy joint p) {a b : IntervalId} (other : a ≠ b)
    (foundI : p.intervals[a]? = some i) (foundJ : p.intervals[b]? = some j)
    (ownI : i.value = some v) (ownJ : j.value = some v) (isRoot : i.root = a) : i.stop ≤ j.start := by
  obtain ⟨ty, ids, siblings⟩ := tidy.siblings v
  have head := (siblings.first a ((siblings.member a).mpr ⟨i, foundI, ownI⟩) i foundI).1
  have memberJ := (siblings.member b).mpr ⟨j, foundJ, ownJ⟩
  rw [isRoot] at head
  obtain ⟨rest, rfl⟩ := head?_eq_some_iff.mp head
  exact (pairwise_cons.mp siblings.ordered).1 b
    ((mem_cons.mp memberJ).resolve_left other.symm) i j foundI foundJ

theorem stop_le_chainEnd (tidy : Tidy joint p) (found : p.intervals[id]? = some i)
    (own : i.value = some v) {stop : Position} (run : p.chainEnd i.root = .ok stop)
    {k : IntervalId} (foundJ : p.intervals[k]? = some j) (ownJ : j.value = some v) :
    j.stop ≤ stop := by
  obtain ⟨ty, ids, siblings⟩ := tidy.siblings v
  have member := (siblings.member k).mpr ⟨j, foundJ, ownJ⟩
  rw [chainEnd, siblings.chain_eq found own, ok_bind] at run
  rcases eq_nil_or_concat ids with rfl | ⟨before, last, rfl⟩
  · simp at member
  · simp only [concat_eq_append, getLast?_append, getLast?_singleton, some_or,
      bind_ok, get_ok, pure_ok] at run
    obtain ⟨m, foundM, rfl⟩ := run
    rw [concat_eq_append] at member siblings
    rcases mem_append.mp member with early | final
    · have le := (pairwise_append.mp siblings.ordered).2.2 k early last (by simp) j m foundJ
        foundM
      obtain ⟨m', foundM', ownM⟩ := (siblings.member last).mp (by simp)
      obtain rfl := mem_unique foundM foundM'
      have fit := tidy.fit last m foundM
      have virtual : m.physical = false := by
        rw [fit.kind, ownM]
        rfl
      have := fit.start_lt virtual
      lia
    · obtain rfl : k = last := by simpa using final
      obtain rfl := mem_unique foundJ foundM
      exact Nat.le_refl _

theorem strung_touch {joint : Position → Prop} (linked : Strung joint p ids) (member : id ∈ ids)
    (found : p.intervals[id]? = some i) (sibling : i.sibling = some next)
    (foundJ : p.intervals[next]? = some j) (meet : i.stop = j.start) : joint i.stop := by
  induction ids with
  | nil => simp at member
  | cons k rest ih =>
    obtain ⟨⟨i', found', head, touch⟩, others⟩ := linked
    rcases mem_cons.mp member with rfl | member
    · obtain rfl := mem_unique found found'
      exact touch next j (head.symm.trans sibling) foundJ meet
    · exact ih others member

variable (tidy : Tidy joint p) (found : p.intervals[id]? = some i) (own : i.value = some v)

include tidy found own

theorem joint_of_meet (sibling : i.sibling = some next)
    (foundJ : p.intervals[next]? = some j) (meet : i.stop = j.start) : joint i.stop := by
  obtain ⟨ty, ids, siblings⟩ := tidy.siblings v
  exact strung_touch siblings.linked ((siblings.member id).mpr ⟨i, found, own⟩) found sibling foundJ
    meet

theorem eq_of_alone
    (alone : i.root = id ∧ i.sibling = none) {k : IntervalId} (foundJ : p.intervals[k]? = some j)
    (ownJ : j.value = some v) : k = id := by
  obtain ⟨ty, ids, siblings⟩ := tidy.siblings v
  obtain rfl := siblings.eq_singleton found own alone
  simpa using (siblings.member k).mpr ⟨j, foundJ, ownJ⟩

theorem after_stretch (alone : i.root = id ∧ i.sibling = none)
    (same : j = { i with ranges := j.ranges }) (fit : j.Fit) : Tidy joint (p.set id j) := by
  have ownJ : j.value = some v := by rw [same]; exact own
  refine ⟨?_, fun w => ?_⟩
  · intro k m foundM
    rcases set_cases found foundM with ⟨rfl, rfl⟩ | ⟨-, foundM⟩
    · exact fit
    · exact tidy.fit k m foundM
  · obtain ⟨ty, ids, siblings⟩ := tidy.siblings w
    refine ⟨ty, ids, ?_⟩
    have values : ∀ k : IntervalId, (∃ m, p.intervals[k]? = some m ∧ m.value = some w) ↔
        ∃ m, (p.set id j).intervals[k]? = some m ∧ m.value = some w := by
      intro k
      rw [intervals_set found]
      by_cases here : k = id
      · simp [here, found, own, ownJ]
      · simp [here]
    by_cases mine : w = v
    · subst mine
      obtain rfl := siblings.eq_singleton found own alone
      have first := siblings.first id (by simp) i found
      obtain ⟨⟨i', found', sibling, -⟩, -⟩ := siblings.linked
      obtain rfl := mem_unique found found'
      have isJ := set_self found j
      refine ⟨by simp, fun k => (siblings.member k).trans (values k), ?_, ?_, by simp⟩
      · intro k member m foundM
        obtain rfl : k = id := by simpa using member
        obtain rfl := mem_unique isJ foundM
        rw [same]
        exact first
      · refine ⟨⟨j, isJ, ?_, by simp⟩, trivial⟩
        rw [same]
        exact sibling
    · refine siblings.congr values fun k member m foundM => ?_
      rcases set_cases found foundM with ⟨rfl, -⟩ | ⟨-, old⟩
      · obtain ⟨l, foundL, value⟩ := (siblings.member _).mp member
        obtain rfl := mem_unique found foundL
        exact absurd (mem_unique value own) mine
      · exact ⟨m, old, rfl, rfl, rfl, rfl, rfl⟩

end Tidy

end IntervalPool

namespace Liveness

variable {joint : Position → Prop} {l : Liveness} {v : ValueId} {q : Position} {place : Location}
  {id : IntervalId} {i j : Interval}

theorem piece_of_locationAt (tidy : l.pool.Tidy joint)
    (root : ∀ v id, l.intervalOf? v = some id →
      ∃ i, l.pool.intervals[id]? = some i ∧ i.value = some v ∧ i.root = id)
    (isPlace : l.locationAt v q = .ok (some place)) :
    ∃ i, l.pool.Piece v q i ∧ i.location = place := by
  unfold locationAt at isPlace
  split at isPlace
  · simp at isPlace
  · rename_i id known
    obtain ⟨i, found, own, isRoot⟩ := root v id known
    rcases tidy.locationAt_cases found own isRoot q with ⟨j, piece, at'⟩ | ⟨-, at'⟩
    · exact ⟨j, piece, by simpa [at'] using isPlace⟩
    · simp [at'] at isPlace

theorem locationAt_of_piece (tidy : l.pool.Tidy joint) (known : l.intervalOf? v = some id)
    (found : l.pool.intervals[id]? = some i) (own : i.value = some v) (isRoot : i.root = id)
    (piece : l.pool.Piece v q j) : l.locationAt v q = .ok (some j.location) := by
  simp only [locationAt, known]
  rcases tidy.locationAt_cases found own isRoot q with ⟨j', piece', isPlace⟩ | ⟨none, -⟩
  · rw [isPlace, tidy.piece_unique piece piece']
  · exact absurd piece (none j)

end Liveness

end RegisterAllocation
