import RegisterAllocation.Proofs.Chains

/-!
Intervals that are split again and again. Whatever member of a chain is split, and wherever, the
members stay a partition of the interval that was there first: of the positions it covers and of its
uses, in increasing order.
-/

namespace RegisterAllocation

open List Range

namespace Interval

variable {i j m : Interval} {id : IntervalId} {pos : Position} {ms before after : List Interval}

inductive Built (id : IntervalId) : Interval → Prop where
  | ofValue (v : ValueId) (ty : ValueType) (d : InstrId) : Built id (.ofValue id v ty d)
  | addRange {i j : Interval} {lo hi : Position} :
      Built id i → i.addRange lo hi = .ok j → Built id j
  | startAt {i j : Interval} {pos : Position} : Built id i → i.startAt pos = .ok j → Built id j
  | addUse {i : Interval} (u : Use) : Built id i → Built id (i.addUse u)

namespace Built

theorem ranges_sorted (built : Built id i) : Sorted i.ranges := by
  induction built with
  | ofValue => exact .nil
  | addRange _ run ih => exact (covers_addRange ih run).2.1
  | startAt _ run ih => exact (startAt_cases ih run).2.1
  | addUse _ _ ih => exact ih

theorem root_alone (built : Built id i) : i.root = id ∧ i.sibling = none ∧ i.physical = false := by
  induction built with
  | ofValue => exact ⟨rfl, rfl, rfl⟩
  | addRange before run ih =>
    rw [(covers_addRange before.ranges_sorted run).1]
    exact ih
  | startAt before run ih =>
    rw [(startAt_cases before.ranges_sorted run).1]
    exact ih
  | addUse _ _ ih => exact ih

end Built

structure Pieces (i : Interval) (ms : List Interval) : Prop where
  alike : ∀ m ∈ ms, m.root = i.root ∧ m.value = i.value ∧ m.ty = i.ty ∧ m.physical = false
  sorted : ∀ m ∈ ms, Sorted m.ranges
  filled : ∀ m ∈ ms, m.ranges ≠ []
  ordered : ms.Pairwise fun a b => a.stop ≤ b.start
  covers : ∀ pos, i.covers pos = true ↔ ∃ m ∈ ms, m.covers pos = true
  uses : ms.flatMap uses = i.uses
  ends : ms.getLast?.map stop = some i.stop

namespace Pieces

theorem of_whole (sorted : Sorted i.ranges) (filled : i.ranges ≠ [])
    (virtual : i.physical = false) : Pieces i [i] := by
  refine ⟨?_, ?_, ?_, by simp, by simp, by simp, rfl⟩ <;> simp [virtual, sorted, filled]

theorem covers_disjoint (pieces : Pieces i ms) :
    ms.Pairwise fun a b => ∀ pos, ¬(a.covers pos = true ∧ b.covers pos = true) := by
  refine pieces.ordered.imp_of_mem fun memberA memberB apart pos ⟨inA, inB⟩ => ?_
  have := lt_stop (pieces.sorted _ memberA) inA
  have := start_le (pieces.sorted _ memberB) inB
  lia

theorem after_divide (pieces : Pieces i (before ++ m :: after)) (late : m.start < pos)
    (inside : pos < m.stop) (next : Option IntervalId) :
    Pieces i (before ++ { m.upTo pos with sibling := next } :: m.rest pos :: after) := by
  have member : m ∈ before ++ m :: after := by simp
  have sorted := pieces.sorted m member
  have alike := pieces.alike m member
  have each {Q : Interval → Prop} (old : ∀ k ∈ before ++ m :: after, Q k)
      (kept : Q { m.upTo pos with sibling := next }) (new : Q (m.rest pos)) :
      ∀ k ∈ before ++ { m.upTo pos with sibling := next } :: m.rest pos :: after, Q k := by
    intro k among
    simp only [mem_append, mem_cons] at among
    rcases among with early | rfl | rfl | late
    · exact old k (by simp [early])
    · exact kept
    · exact new
    · exact old k (by simp [late])
  refine ⟨each pieces.alike alike ⟨alike.1, alike.2.1, alike.2.2.1, rfl⟩,
    each pieces.sorted sorted.before_sorted sorted.after_sorted,
    each pieces.filled (upTo_ne_nil sorted late inside) (rest_ne_nil sorted inside), ?_, ?_, ?_, ?_⟩
  · obtain ⟨early, here, cross⟩ := pairwise_append.mp pieces.ordered
    obtain ⟨above, later⟩ := pairwise_cons.mp here
    have keptStart : (m.upTo pos).start = m.start := start_upTo sorted late inside
    have keptStop : (m.upTo pos).stop ≤ pos := stop_upTo_le sorted
    have restStart : pos ≤ (m.rest pos).start := le_start_rest sorted inside
    have restStop : (m.rest pos).stop = m.stop := stop_rest sorted inside
    have behind (k : Interval) (among : k ∈ after) : pos ≤ k.start :=
      inside.le.trans (above k among)
    refine pairwise_append.mpr ⟨early, pairwise_cons.mpr ⟨?_, pairwise_cons.mpr
      ⟨fun k among => restStop ▸ above k among, later⟩⟩, ?_⟩
    · intro k among
      rcases mem_cons.mp among with rfl | among
      · exact keptStop.trans restStart
      · exact keptStop.trans (behind k among)
    · intro k among l among'
      have low := cross k among m mem_cons_self
      rcases mem_cons.mp among' with rfl | among'
      · exact keptStart ▸ low
      rcases mem_cons.mp among' with rfl | among'
      · exact (low.trans late.le).trans restStart
      · exact cross k among l (mem_cons_of_mem m among')
  · intro q
    have parts : m.covers q = true ↔
        (m.upTo pos).covers q = true ∨ (m.rest pos).covers q = true := by
      rw [covers_upTo, covers_rest, ← and_or_left]
      exact (and_iff_left (Nat.lt_or_ge q pos)).symm
    have kept : Interval.covers { m.upTo pos with sibling := next } q = (m.upTo pos).covers q := rfl
    rw [pieces.covers]
    simp only [mem_append, mem_cons, or_and_right, exists_or, exists_eq_left, parts, kept,
      or_assoc]
  · have joined : (m.upTo pos).uses ++ (m.rest pos).uses = m.uses :=
      takeWhile_append_dropWhile
    rw [← pieces.uses]
    simp only [flatMap_append, flatMap_cons, ← joined, append_assoc]
  · rw [← pieces.ends]
    cases after with
    | nil => simp [stop_rest sorted inside]
    | cons k rest => simp [getLast?_append, getLast?_cons_cons]

end Pieces

end Interval

namespace IntervalPool

variable {p q q' : IntervalPool} {id k child : IntervalId} {i m : Interval} {pos : Position}
  {ids : List IntervalId} {ms : List Interval}

inductive Chained (p : IntervalPool) : List IntervalId → List Interval → Prop where
  | nil : Chained p [] []
  | cons {id : IntervalId} {i : Interval} {ids : List IntervalId} {ms : List Interval} :
      p.intervals[id]? = some i → i.sibling = ids.head? → Chained p ids ms →
      Chained p (id :: ids) (i :: ms)

namespace Chained

theorem to_strung (chained : Chained p ids ms) : Strung (fun _ => True) p ids := by
  induction chained with
  | nil => trivial
  | cons found sibling _ ih => exact ⟨⟨_, found, sibling, by simp⟩, ih⟩

theorem length_le (chained : Chained p ids ms) (once : ids.Nodup) : ids.length ≤ p.size := by
  have inside : ids ⊆ range p.size := by
    intro k member
    obtain ⟨m, found⟩ := chained.to_strung.found_of_mem member
    exact mem_range.mpr (found_lt found)
  simpa using (once.subperm inside).length_le

theorem chain_eq (chained : Chained p (id :: ids) ms) (once : (id :: ids).Nodup) :
    p.chain id = .ok (id :: ids) :=
  chainWithin_ok chained.to_strung (by have := chained.length_le once; simp at this; lia)

theorem mapM_get (chained : Chained p ids ms) : ids.mapM p.get = .ok ms := by
  induction chained with
  | nil => rfl
  | cons found _ _ ih =>
    rw [mapM_cons, get_ok.mpr found, ok_bind, ih]
    rfl

theorem exists_behind (chained : Chained p ids ms) (member : k ∈ ids)
    (found : p.intervals[k]? = some m) :
    ∃ before after older later, ids = before ++ k :: after ∧ ms = older ++ m :: later ∧
      Chained p (k :: after) (m :: later) := by
  induction chained with
  | nil => simp at member
  | @cons id i ids ms foundI sibling rest ih =>
    rcases mem_cons.mp member with rfl | member
    · obtain rfl := Option.mem_unique found foundI
      exact ⟨[], ids, [], ms, rfl, rfl, .cons found sibling rest⟩
    · obtain ⟨before, after, older, later, rfl, rfl, last⟩ := ih member
      exact ⟨id :: before, after, i :: older, later, rfl, rfl, last⟩

theorem interval_mem (chained : Chained p ids ms) (member : k ∈ ids)
    (found : p.intervals[k]? = some m) :
    m ∈ ms := by
  obtain ⟨_, _, older, later, -, rfl, -⟩ := chained.exists_behind member found
  simp

theorem chainEnd_eq (chained : Chained p (k :: ids) ms) (once : (k :: ids).Nodup)
    (ends : ms.getLast?.map Interval.stop = some pos) : p.chainEnd k = .ok pos := by
  have last {ids : List IntervalId} {ms : List Interval} (chained : Chained p ids ms) :
      ms.getLast? = ids.getLast?.bind (p.intervals[·]?) := by
    induction chained with
    | nil => rfl
    | @cons id i ids ms found _ rest ih =>
      cases rest with
      | nil => simp [found]
      | cons => simpa [getLast?_cons_cons] using ih
  obtain ⟨m, isLast, rfl⟩ := Option.map_eq_some_iff.mp ends
  rw [last chained] at isLast
  obtain ⟨l, isL, foundM⟩ := Option.bind_eq_some_iff.mp isLast
  rw [chainEnd, chained.chain_eq once, ok_bind, isL]
  simp only [get_ok.mpr foundM, ok_bind]
  rfl

theorem exists_owner (chained : Chained p ids ms) (member : m ∈ ms) :
    ∃ k ∈ ids, p.intervals[k]? = some m := by
  induction chained with
  | nil => simp at member
  | @cons id i ids ms found _ _ ih =>
    rcases mem_cons.mp member with rfl | member
    · exact ⟨id, mem_cons_self, found⟩
    · exact (ih member).imp fun k => And.imp_left (mem_cons_of_mem id)

theorem owner_unique {k' : IntervalId} {m' : Interval} (chained : Chained p ids ms)
    (apart : ms.Pairwise fun a b => ∀ pos, ¬(a.covers pos = true ∧ b.covers pos = true))
    (member : k ∈ ids) (found : p.intervals[k]? = some m) (covers : m.covers pos = true)
    (member' : k' ∈ ids) (found' : p.intervals[k']? = some m') (covers' : m'.covers pos = true) :
    k' = k := by
  induction chained with
  | nil => simp at member
  | @cons id i ids ms foundI _ rest ih =>
    obtain ⟨head, tail⟩ := pairwise_cons.mp apart
    rcases mem_cons.mp member with rfl | later
    · rcases mem_cons.mp member' with rfl | later'
      · rfl
      · obtain rfl := Option.mem_unique found foundI
        exact absurd ⟨covers, covers'⟩ (head m' (rest.interval_mem later' found') pos)
    · rcases mem_cons.mp member' with rfl | later'
      · obtain rfl := Option.mem_unique found' foundI
        exact absurd ⟨covers', covers⟩ (head m (rest.interval_mem later found) pos)
      · exact ih tail later later'

theorem after_divide_other (chained : Chained p ids ms) (found : p.intervals[k]? = some m)
    (away : k ∉ ids) :
    Chained (p.divided k m pos) ids ms := by
  induction chained with
  | nil => exact .nil
  | cons foundI sibling _ ih =>
    rw [mem_cons, not_or] at away
    exact .cons (divided_other found (Ne.symm away.1) foundI) sibling (ih away.2)

theorem after_divide (chained : Chained p ids ms) (once : ids.Nodup) (member : k ∈ ids)
    (found : p.intervals[k]? = some m) (pos : Position) :
    ∃ before after older later, ids = before ++ k :: after ∧ ms = older ++ m :: later ∧
      Chained (p.divided k m pos) (before ++ k :: p.size :: after)
        (older ++ { m.upTo pos with sibling := some p.size } :: m.rest pos :: later) := by
  have new : p.size ≠ k := size_ne found
  induction chained with
  | nil => simp at member
  | @cons id i ids ms foundI sibling rest ih =>
    obtain ⟨fresh, once⟩ := nodup_cons.mp once
    rcases mem_cons.mp member with rfl | member
    · obtain rfl := Option.mem_unique found foundI
      exact ⟨[], ids, [], ms, rfl, rfl, .cons (by simp [getElem_divided found]) rfl
        (.cons (by simp [getElem_divided found, new]) sibling (rest.after_divide_other found fresh))⟩
    · obtain ⟨before, after, older, later, rfl, rfl, last⟩ := ih once member
      have other : id ≠ k := fun same => fresh (same ▸ member)
      refine ⟨id :: before, after, i :: older, later, rfl, rfl,
        .cons (divided_other found other foundI) (sibling.trans ?_) last⟩
      cases before <;> rfl

end Chained

structure Partition (p : IntervalPool) (id : IntervalId) (i : Interval) (ids : List IntervalId)
    (ms : List Interval) : Prop where
  first : ids.head? = some id
  once : ids.Nodup
  chained : Chained p ids ms
  pieces : i.Pieces ms

namespace Partition

theorem at_start (built : i.Built id) (filled : i.isEmpty = false)
    (found : p.intervals[id]? = some i) :
    Partition p id i [id] [i] := by
  obtain ⟨-, last, virtual⟩ := built.root_alone
  refine ⟨rfl, by simp, .cons found last .nil, .of_whole built.ranges_sorted ?_ virtual⟩
  intro none
  simp [Interval.isEmpty, none] at filled

variable (partition : Partition p id i ids ms)

include partition

theorem chain_eq : p.chain id = .ok ids := by
  obtain ⟨rest, rfl⟩ := head?_eq_some_iff.mp partition.first
  exact partition.chained.chain_eq partition.once

theorem after_splitAt (member : k ∈ ids)
    (run : p.splitAt k pos = .ok (child, q)) : ∃ ids' ms', Partition q id i ids' ms' := by
  obtain ⟨m, found, -, ⟨-, -, rfl⟩ | ⟨late, inside, -, rfl⟩⟩ := splitAt_ok run
  · exact ⟨ids, ms, partition⟩
  obtain ⟨before, after, older, later, rfl, rfl, chained⟩ :=
    partition.chained.after_divide partition.once member found pos
  have fresh : p.size ∉ before ++ k :: after := by
    intro among
    obtain ⟨l, foundL⟩ := partition.chained.to_strung.found_of_mem among
    simp [getElem_size] at foundL
  have perm : (before ++ k :: p.size :: after).Perm (p.size :: (before ++ k :: after)) := by
    have moved : ((before ++ [k]) ++ p.size :: after).Perm _ := perm_middle
    simpa using moved
  refine ⟨_, _, ?_, perm.nodup_iff.mpr (nodup_cons.mpr ⟨fresh, partition.once⟩), chained,
    partition.pieces.after_divide late inside _⟩
  rw [← partition.first]
  cases before <;> rfl

theorem splitAt_total (member : k ∈ ids)
    (found : p.intervals[k]? = some m) (inside : pos < m.stop) :
    ∃ child q, p.splitAt k pos = .ok (child, q) := by
  have virtual := (partition.pieces.alike m (partition.chained.interval_mem member found)).2.2.2
  rw [splitAt, get_ok.mpr found, ok_bind, (ensure_ok (u := ())).mpr virtual, ok_bind]
  split
  · exact ⟨_, _, rfl⟩
  · rw [(ensure_ok (u := ())).mpr inside, ok_bind]
    exact ⟨_, _, rfl⟩

theorem splitAt_start (member : k ∈ ids)
    (found : p.intervals[k]? = some m) (early : pos ≤ m.start) : p.splitAt k pos = .ok (k, p) := by
  have virtual := (partition.pieces.alike m (partition.chained.interval_mem member found)).2.2.2
  rw [splitAt, get_ok.mpr found, ok_bind, (ensure_ok (u := ())).mpr virtual, ok_bind,
    if_pos early]
  rfl

theorem splitChain_total (pos : Position) :
    ∃ r q, p.splitChain id pos = .ok (r, q) ∧ ∃ ids' ms', Partition q id i ids' ms' := by
  rw [splitChain, partition.chain_eq, ok_bind]
  rcases p.findIn_total (fun i => i.start < pos && pos < i.stop)
    (fun _ => partition.chained.to_strung.found_of_mem) with
    ⟨k, member, m, found, spans, run⟩ | ⟨-, run⟩
  · simp only [Bool.and_eq_true, decide_eq_true_eq] at spans
    obtain ⟨child, q, split⟩ := partition.splitAt_total member found spans.2
    rw [run, ok_bind]
    simp only [split, ok_bind]
    exact ⟨_, q, rfl, partition.after_splitAt member split⟩
  · rw [run, ok_bind]
    exact ⟨_, p, rfl, ids, ms, partition⟩

theorem chainEnd_eq (member : k ∈ ids) : p.chainEnd k = .ok i.stop := by
  obtain ⟨m, found⟩ := partition.chained.to_strung.found_of_mem member
  obtain ⟨before, after, older, later, rfl, rfl, chained⟩ :=
    partition.chained.exists_behind member found
  refine chained.chainEnd_eq (nodup_append.mp partition.once).2.1 ?_
  have ends := partition.pieces.ends
  rwa [getLast?_append_of_ne_nil _ (by simp)] at ends

theorem siblingAt_total (pos : Position) : (p.siblingAt id pos = .ok none ∧ i.covers pos = false) ∨
      ∃ k ∈ ids, ∃ m, p.siblingAt id pos = .ok (some k) ∧ p.intervals[k]? = some m ∧
        m.covers pos = true ∧ ∀ k' ∈ ids, ∀ m', p.intervals[k']? = some m' →
          m'.covers pos = true → k' = k := by
  rw [siblingAt, partition.chain_eq, ok_bind]
  rcases p.findIn_total (fun i => i.covers pos)
    (fun _ => partition.chained.to_strung.found_of_mem) with
    ⟨k, member, m, found, covers, run⟩ | ⟨none, run⟩
  · exact .inr ⟨k, member, m, run, found, covers, fun k' member' m' found' =>
      partition.chained.owner_unique partition.pieces.covers_disjoint member found covers
      member' found'⟩
  · refine .inl ⟨run, ?_⟩
    rw [← Bool.not_eq_true, partition.pieces.covers]
    rintro ⟨m, member, covers⟩
    obtain ⟨k, among, found⟩ := partition.chained.exists_owner member
    simp [none k among m found] at covers

end Partition

inductive Splits (id : IntervalId) (p : IntervalPool) : IntervalPool → Prop where
  | none : Splits id p p
  | splitAt {q q' : IntervalPool} {ids : List IntervalId} {k child : IntervalId} {pos : Position} :
      Splits id p q → q.chain id = .ok ids → k ∈ ids → q.splitAt k pos = .ok (child, q') →
      Splits id p q'
  | splitChain {q q' : IntervalPool} {pos : Position} {r : Option IntervalId} :
      Splits id p q → q.splitChain id pos = .ok (r, q') → Splits id p q'

theorem Splits.keeps_partition (splits : Splits id p q) (start : ∃ ids ms, Partition p id i ids ms) :
    ∃ ids ms, Partition q id i ids ms := by
  induction splits with
  | none => exact start
  | splitAt _ chain member run ih =>
    obtain ⟨ids, ms, partition⟩ := ih
    obtain rfl := Except.ok.inj (chain.symm.trans partition.chain_eq)
    exact partition.after_splitAt member run
  | splitChain _ run ih =>
    obtain ⟨ids, ms, partition⟩ := ih
    obtain ⟨r, q', run', after⟩ := partition.splitChain_total _
    obtain ⟨-, rfl⟩ := Prod.mk.inj (Except.ok.inj (run.symm.trans run'))
    exact after

/-- However the members of a chain are split, they stay a partition of the interval that was there
first, and can be split further. -/
theorem splits_are_partitions (built : i.Built id) (filled : i.isEmpty = false)
    (found : p.intervals[id]? = some i) (splits : Splits id p q) :
    ∃ ids ms, q.chain id = .ok ids ∧ ids.mapM q.get = .ok ms ∧
      (∀ m ∈ ms, m.root = id ∧ m.value = i.value ∧ m.ty = i.ty ∧ m.isEmpty = false) ∧
      (ms.Pairwise fun a b => a.stop ≤ b.start) ∧
      (ms.Pairwise fun a b => ∀ pos, ¬(a.covers pos = true ∧ b.covers pos = true)) ∧
      (∀ pos, i.covers pos = true ↔ ∃ m ∈ ms, m.covers pos = true) ∧
      ms.flatMap Interval.uses = i.uses ∧
      (∀ k ∈ ids, q.chainEnd k = .ok i.stop) ∧
      (∀ pos, (q.siblingAt id pos = .ok none ∧ i.covers pos = false) ∨
        ∃ k ∈ ids, ∃ m, q.siblingAt id pos = .ok (some k) ∧ q.intervals[k]? = some m ∧
          m.covers pos = true ∧ ∀ k' ∈ ids, ∀ m', q.intervals[k']? = some m' →
            m'.covers pos = true → k' = k) ∧
      (∀ k ∈ ids, ∀ m, q.intervals[k]? = some m → ∀ pos,
        (pos ≤ m.start → q.splitAt k pos = .ok (k, q)) ∧
        (pos < m.stop → ∃ child q', q.splitAt k pos = .ok (child, q'))) ∧
      ∀ pos, ∃ r q', q.splitChain id pos = .ok (r, q') := by
  obtain ⟨ids, ms, partition⟩ := splits.keeps_partition ⟨_, _, .at_start built filled found⟩
  refine ⟨ids, ms, partition.chain_eq, partition.chained.mapM_get, ?_, partition.pieces.ordered,
    partition.pieces.covers_disjoint, partition.pieces.covers, partition.pieces.uses,
    fun k member => partition.chainEnd_eq member, partition.siblingAt_total,
    fun k member m found pos => ⟨partition.splitAt_start member found,
      partition.splitAt_total member found⟩, ?_⟩
  · intro m member
    obtain ⟨root, value, ty, -⟩ := partition.pieces.alike m member
    have filled := partition.pieces.filled m member
    exact ⟨root.trans built.root_alone.1, value, ty, by simpa [Interval.isEmpty] using filled⟩
  · intro pos
    obtain ⟨r, q', run, -⟩ := partition.splitChain_total pos
    exact ⟨r, q', run⟩

def withHole : Interval :=
  { Interval.ofValue 0 7 .int64 3 with
    ranges := [⟨2, 6⟩, ⟨8, 12⟩]
    uses := [⟨2, true, none⟩, ⟨8, false, none⟩, ⟨12, true, none⟩] }

/-- Split in the hole, then its second part once more. -/
theorem withHole_partition : ∃ q, Splits 0 ⟨#[withHole]⟩ q ∧ ∃ ids ms, q.chain 0 = .ok ids ∧
    ids.mapM q.get = .ok ms ∧ ids = [0, 1, 2] ∧ ms.flatMap Interval.uses = withHole.uses ∧
    ∀ k ∈ ids, q.chainEnd k = .ok 12 := by
  have low : (Interval.ofValue 0 7 .int64 3).addRange 2 6 = .ok _ := rfl
  have high : Interval.addRange { Interval.ofValue 0 7 .int64 3 with ranges := [⟨2, 6⟩] } 8 12 =
      .ok { Interval.ofValue 0 7 .int64 3 with ranges := [⟨2, 6⟩, ⟨8, 12⟩] } := rfl
  have ranges := Interval.Built.addRange (.addRange (.ofValue 7 .int64 3) low) high
  have built : withHole.Built 0 :=
    ((ranges.addUse ⟨2, true, none⟩).addUse ⟨8, false, none⟩).addUse ⟨12, true, none⟩
  have once : Splits 0 ⟨#[withHole]⟩ _ := .splitAt .none
    (rfl : chain ⟨#[withHole]⟩ 0 = .ok [0]) (by simp) (rfl : splitAt ⟨#[withHole]⟩ 0 7 = .ok (1, _))
  have twice := once.splitChain (rfl : splitChain _ 0 10 = .ok (some 2, _))
  obtain ⟨ids, ms, chain, members, -, -, -, -, uses, ends, -⟩ :=
    splits_are_partitions built rfl rfl twice
  refine ⟨_, twice, ids, ms, chain, members, ?_, uses, ends⟩
  exact Except.ok.inj (chain.symm.trans rfl)

end IntervalPool

end RegisterAllocation
