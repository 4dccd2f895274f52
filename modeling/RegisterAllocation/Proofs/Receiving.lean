import RegisterAllocation.Proofs.Placing

/-!
The state before the first interval of a class is placed. Parameters sit where they arrive, up to
where the last of them is defined, zeros in the zero register, and everything else waits.
-/

namespace RegisterAllocation

open List Option Interval IntervalPool Location

namespace Scan

variable {c : Pass} {arrivals : Arrivals} {pos last : Position} {p : IntervalPool}
  {hold : List IntervalId} {s s' : Scan} {id : IntervalId} {i j : Interval} {v : ValueId}
  {l : Location}

structure Arriving (c : Pass) (arrivals : Arrivals) (last : Position) (p : IntervalPool) :
    Prop where
  blank : ∀ (id : IntervalId) (i : Interval), p.intervals[id]? = some i → Mine c i →
    i.location = .invalid ∧ i.pinned = false ∧ i.splitOff = false ∧ i.root = id ∧ i.sibling = none
  places : ∀ v l, arrivals.find? v = some l → l.isStackParameter = true ∨
    (l.isAnyRegister = true ∧ c.target.isZeroReg l = false)
  once : ∀ v w l, arrivals.find? v = some l → arrivals.find? w = some l → v = w
  inClass : ∀ (id : IntervalId) (i : Interval) v l, p.intervals[id]? = some i → Mine c i →
    i.value = some v → arrivals.find? v = some l → l.isAnyRegister = true →
    l.inClass c.regClass = true
  early : ∀ (id : IntervalId) (i : Interval) v l, p.intervals[id]? = some i → Mine c i →
    i.value = some v → arrivals.find? v = some l → 0 < i.start ∧ i.start ≤ last ∧
      i.start % 2 = 0 ∧ (∀ u ∈ i.uses, u.needsRegister = true → u.pos ≠ i.start) ∧
      c.graph.constantOf? v ≠ .ok (some 0)
  even : last % 2 = 0

structure Seated (c : Pass) (arrivals : Arrivals) (last : Position) (i m : Interval) : Prop where
  value : m.value = i.value
  ty : m.ty = i.ty
  physical : m.physical = i.physical
  definedBy : m.definedBy = i.definedBy
  place : (m = i ∧ ∀ v, i.value = some v → arrivals.find? v = none) ∨
    (m.location.inClass c.regClass = true ∧ c.target.isZeroReg m.location = true ∧
      m.start = i.start ∧ ∃ v, i.value = some v ∧ c.graph.constantOf? v = .ok (some 0)) ∨
    ∃ v, i.value = some v ∧ arrivals.find? v = some m.location ∧ m.pinned = true ∧
      m.covers i.start = true ∧ (m.location.isAnyRegister = true →
        m.start = 0 ∧ m.stop ≤ last + 1 ∧ ∀ q ≤ i.start, m.covers q = true)

structure Received (c : Pass) (arrivals : Arrivals) (last : Position) (id : IntervalId)
    (i : Interval) (s s' : Scan) : Prop where
  here : ∃ m, s'.pool.intervals[id]? = some m ∧ Seated c arrivals last i m
  others : ∀ (k : IntervalId) (m : Interval), k ≠ id → s.pool.intervals[k]? = some m →
    s'.pool.intervals[k]? = some m
  new : ∀ (k : IntervalId) (m : Interval), s'.pool.intervals[k]? = some m → k ≠ id →
    s.pool.intervals[k]? = some m ∨ (Mine c m ∧ m.location = .invalid ∧ m.definedBy = none)
  homes : ∀ w, i.value ≠ some w → s'.frame.home? w = s.frame.home? w

namespace Occupancy

theorem set_set (p : IntervalPool) : (p.set id i).set id j = p.set id j := by
  simp [IntervalPool.set]

theorem after_fasten (occ : Occupancy c pos [] (id :: hold) s)
    (found : s.pool.intervals[id]? = some i)
    (valid : l.isInvalid = false) (outside : ¬InRegister c { i with location := l }) :
    Occupancy c pos [] hold { s with pool := s.pool.set id (i.pin l) } := by
  have same : i.Relabelled { i with location := l } := rfl
  have isJ := set_self found { i with location := l }
  have placed := occ.after_relabel mem_cons_self found same (occ.held_mine mem_cons_self found).2
  have settled := (placed.of_undisturbed not_mem_nil (by
    intro m foundM inside
    obtain rfl := mem_unique isJ foundM
    exact absurd inside outside)).after_drop (by
    intro m foundM
    obtain rfl := mem_unique isJ foundM
    exact ⟨valid, fun inside => absurd inside outside⟩)
  have done : id ∉ s.queue ++ hold :=
    (nodup_cons.mp (perm_middle.nodup_iff.mp occ.once)).1
  have pinned := settled.after_pin isJ done
  simp only [set_set] at pinned
  exact pinned

theorem after_fastenInside (occ : Occupancy c pos [] (id :: hold) s)
    (found : s.pool.intervals[id]? = some i) (inside : InRegister c { i with location := l })
    (started : i.start ≤ pos)
    (alone : Undisturbed c (s.pool.set id (i.pin l)) [] id (i.pin l)) :
    Occupancy c pos [] hold
      { s with pool := s.pool.set id (i.pin l), inactive := s.inactive ++ [id] } := by
  have same : i.Relabelled { i with location := l } := rfl
  have isJ := set_self found { i with location := l }
  have placed := occ.after_relabel mem_cons_self found same (occ.held_mine mem_cons_self found).2
  have longer : (s.active ++ (s.inactive ++ [id])).Perm (id :: (s.active ++ s.inactive)) := by
    rw [← append_assoc]
    exact perm_append_singleton id _
  have listed := placed.after_list isJ inside started longer
  have done : id ∉ s.queue ++ hold :=
    (nodup_cons.mp (perm_middle.nodup_iff.mp occ.once)).1
  have pinned := listed.after_pin isJ done
  simp only [set_set] at pinned
  refine pinned.of_undisturbed not_mem_nil fun m foundM _ => ?_
  obtain rfl : i.pin l = m := by simpa [intervals_set found, Interval.pin] using foundM
  exact alone

end Occupancy

theorem receive_ok (run : receive c arrivals last s (id, i) = .ok s') (own : i.value = some v) :
    (∃ reg, c.graph.constantOf? v = .ok (some 0) ∧ c.target.zeroReg = some reg ∧
      i.ty.fitsZeroRegister = true ∧
      s.modify id (fun i => return i.pin (.register reg)) = .ok s') ∨
    (arrivals.find? v = none ∧ s.enqueue id = .ok s') ∨
    ∃ l mid, arrivals.find? v = some l ∧ s.modify id (fun i => return i.pin l) = .ok mid ∧
      ((l.isAnyRegister = true ∧ mid.arriveInRegister c id l i.start last = .ok s') ∨
        (l.isAnyRegister = false ∧ mid.arriveOnStack id v l i.start = .ok s')) := by
  simp only [receive, own, bind_ok] at run
  obtain ⟨constant?, isConstant, run⟩ := run
  split at run
  · rename_i reg isZero fits
    exact .inl ⟨reg, isConstant, isZero, fits, run⟩
  · split at run
    · exact .inr (.inl ⟨‹_›, run⟩)
    · rename_i l isArrival
      simp only [bind_ok] at run
      obtain ⟨mid, pinned, run⟩ := run
      refine .inr (.inr ⟨l, mid, isArrival, pinned, ?_⟩)
      split at run
      · exact .inl ⟨‹_›, run⟩
      · rename_i outside
        exact .inr ⟨Bool.eq_false_iff.mpr outside, run⟩

theorem modify_pin (run : s.modify id (fun i => return i.pin l) = .ok s') :
    ∃ i, s.pool.intervals[id]? = some i ∧ s' = { s with pool := s.pool.set id (i.pin l) } := by
  simp only [modify, bind_ok, pure_ok] at run
  obtain ⟨pool, run, rfl⟩ := run
  obtain ⟨i, j, found, same, rfl⟩ := modify_ok run
  obtain rfl := pure_ok.mp same
  exact ⟨i, found, rfl⟩

theorem Received.of_set (found : s.pool.intervals[id]? = some i) {frame : Frame}
    {queue active inactive : List IntervalId} (seated : Seated c arrivals last i j)
    (homes : ∀ w, i.value ≠ some w → frame.home? w = s.frame.home? w) :
    Received c arrivals last id i s ⟨s.pool.set id j, frame, queue, active, inactive⟩ := by
  refine ⟨⟨j, set_self found j, seated⟩, ?_, ?_, homes⟩
  · intro k m apart foundM
    rwa [set_other apart]
  · intro k m foundM apart
    exact .inl (by rwa [set_other apart] at foundM)

theorem inClass_of_fitsZeroRegister {ty : ValueType} {reg : Nat}
    (fits : ty.fitsZeroRegister = true) : (Location.register reg).inClass ty.regClass = true := by
  cases ty <;> simp_all [ValueType.fitsZeroRegister, ValueType.isFloat, ValueType.regClass,
    Location.inClass, isRegister, Location.register]

section

variable {lo : ValueId → Position} (occ : Occupancy c pos [] (id :: hold) s)
  (storage : Storage c.regClass arrivals pos lo s.pool s.frame)
  (found : s.pool.intervals[id]? = some i) (own : i.value = some v)

include occ storage found own

theorem receive_zero (isZero : c.graph.constantOf? v = .ok (some 0)) {reg : Nat}
    (isReg : c.target.zeroReg = some reg) (fits : i.ty.fitsZeroRegister = true)
    (run : s.modify id (fun i => return i.pin (.register reg)) = .ok s') :
    Occupancy c pos [] hold s' ∧ Storage c.regClass arrivals pos lo s'.pool s'.frame ∧
      Received c arrivals last id i s s' := by
  obtain ⟨i', found', rfl⟩ := modify_pin run
  obtain rfl := mem_unique found found'
  have zero : c.target.isZeroReg (.register reg) = true := by
    simp [Target.isZeroReg, isReg, isRegister, Location.register]
  have inClass : (Location.register reg).inClass c.regClass = true := by
    rw [← (occ.held_mine mem_cons_self found).1.2]
    exact inClass_of_fitsZeroRegister fits
  have same : i.Relabelled (i.pin (.register reg)) := rfl
  refine ⟨occ.after_fasten found rfl fun inside => ?_, storage.after_relabel found same rfl,
    .of_set found ⟨rfl, rfl, rfl, rfl, .inr (.inl ⟨inClass, zero, rfl, v, own, isZero⟩)⟩
      fun _ _ => rfl⟩
  simp [inside.2.2] at zero

theorem receive_other (invalid : i.location = .invalid)
    (noArrival : arrivals.find? v = none) (run : s.enqueue id = .ok s') :
    Occupancy c pos [] hold s' ∧ Storage c.regClass arrivals pos lo s'.pool s'.frame ∧
      Received c arrivals last id i s s' := by
  obtain ⟨queue, rfl, same⟩ := Scanning.enqueue_ok run
  refine ⟨occ.after_enqueue ?_ same, storage, ⟨i, found, rfl, rfl, rfl, rfl, .inl ⟨rfl, ?_⟩⟩,
    fun _ _ _ foundM => foundM, fun _ _ foundM _ => .inl foundM, fun _ _ => rfl⟩
  · intro m foundM
    obtain rfl := mem_unique found foundM
    rw [invalid]
    rfl
  · intro w ownW
    obtain rfl := mem_unique own ownW
    exact noArrival

end

theorem divided_pin (found : p.intervals[id]? = some i) {cut : Position} :
    (p.set id (i.pin l)).divided id (i.pin l) cut =
      (p.divided id i cut).set id ({ i.upTo cut with sibling := some p.size }.pin l) :=
  divided_relabel found rfl

theorem Received.of_parts {q : IntervalPool} {frame : Frame} {queue active inactive : List IntervalId}
    {m : Interval} (here : q.intervals[id]? = some m) (seated : Seated c arrivals last i m)
    (others : ∀ k, k ≠ id → k ≠ s.pool.size → q.intervals[k]? = s.pool.intervals[k]?)
    (rest : ∀ m, q.intervals[s.pool.size]? = some m →
      Mine c m ∧ m.location = .invalid ∧ m.definedBy = none)
    (homes : ∀ w, i.value ≠ some w → frame.home? w = s.frame.home? w) :
    Received c arrivals last id i s ⟨q, frame, queue, active, inactive⟩ := by
  refine ⟨⟨m, here, seated⟩, ?_, ?_, homes⟩
  · intro k m' apart foundM
    rw [← foundM]
    exact others k apart (Nat.ne_of_lt (found_lt foundM))
  · intro k m' foundM apart
    by_cases isNew : k = s.pool.size
    · exact .inr (rest m' (isNew ▸ foundM))
    · exact .inl ((others k apart isNew).symm.trans foundM)

theorem receive_stack {lo : ValueId → Position} (occ : Occupancy c pos [] (id :: hold) s)
    (storage : Storage c.regClass arrivals pos lo s.pool s.frame)
    (found : s.pool.intervals[id]? = some i) (own : i.value = some v)
    (alone : i.root = id ∧ i.sibling = none) (invalid : i.location = .invalid)
    (isArrival : arrivals.find? v = some l) (parameter : l.isStackParameter = true)
    (even : i.start % 2 = 0) (spared : ∀ u ∈ i.uses, u.needsRegister = true → u.pos ≠ i.start)
    (run : ({ s with pool := s.pool.set id (i.pin l) } : Scan).arriveOnStack id v l
    i.start = .ok s') :
    Occupancy c pos [] hold s' ∧ Storage c.regClass arrivals pos lo s'.pool s'.frame ∧
      Received c arrivals last id i s s' := by
  have fit := occ.tidy.fit id i found
  have isMine := (occ.held_mine mem_cons_self found).1
  have memory : l.isMemory = true := by
    simp [isMemory, isStack, parameter]
  have isPin := set_self found (i.pin l)
  have housed := storage.after_arrive isArrival parameter (by
    rintro m ⟨k, foundM, ownM⟩
    obtain rfl := occ.tidy.eq_of_alone found own alone foundM ownM
    obtain rfl := mem_unique found foundM
    rw [invalid]
    rfl)
  have home : (s.frame.setHome v l).home? v = some l := by simp [Frame.home_setHome]
  have homes : ∀ w, i.value ≠ some w → (s.frame.setHome v l).home? w = s.frame.home? w := by
    intro w apart
    rw [Frame.home_setHome, if_neg]
    rintro rfl
    exact apart own
  have noRegister := Scanning.isAnyRegister_of_isMemory memory
  have startCovered := covers_start fit.sorted (fit.filled isMine.1)
  simp only [arriveOnStack, bind_ok, get_ok, isPin, some.injEq,
    exists_eq_left'] at run
  split at run
  · obtain rfl := pure_ok.mp run
    have same : i.Relabelled (i.pin l) := rfl
    have fastened := occ.after_fasten found (valid_of_isMemory memory)
      (outside_of_isMemory memory rfl)
    refine ⟨fastened.with_frame, housed.after_moor found own home parameter same rfl,
      .of_set found ?_ homes⟩
    exact ⟨rfl, rfl, rfl, rfl, .inr (.inr ⟨v, own, isArrival, rfl, startCovered, fun register => by
      rw [show (i.pin l).location = l from rfl, noRegister] at register
      simp at register⟩)⟩
  · rename_i use isUse
    obtain ⟨from', u, member, isPos, needs⟩ := nextUse_ok isUse
    have late : i.start < gapBefore use := by
      apply lt_gapBefore even
      have := spared u member needs
      lia
    have odd := gapBefore_odd (Nat.zero_lt_of_lt late)
    simp only [splitAndQueue, bind_ok, Prod.exists] at run
    obtain ⟨child, mid, split, run⟩ := run
    have latePin : (i.pin l).start < gapBefore use := late
    obtain ⟨inside, rfl, rfl⟩ := Scanning.splitAt_divided isPin latePin split
    replace inside : gapBefore use < i.stop := inside
    obtain ⟨queue, rfl, perm⟩ := Scanning.enqueue_ok run
    simp only [size_set, divided_pin found] at perm ⊢
    have new : s.pool.size ≠ id := size_ne found
    have isKept := divided_kept found (gapBefore use)
    have isRest := divided_rest found (gapBefore use)
    have queued := (occ.after_divide mem_cons_self found late inside odd).after_enqueue (by
      intro m foundM
      obtain rfl := mem_unique isRest foundM
      rfl) perm
    have fastened := queued.after_fasten isKept (valid_of_isMemory memory)
      (outside_of_isMemory memory rfl)
    have same : Relabelled { i.upTo (gapBefore use) with sibling := some s.pool.size }
        ({ i.upTo (gapBefore use) with sibling := some s.pool.size }.pin l) := rfl
    refine ⟨fastened.with_frame,
      (housed.after_divide fit found late inside).after_moor isKept own home parameter same rfl,
      .of_parts (set_self isKept _) ?_ ?_ ?_ homes⟩
    · refine ⟨rfl, rfl, rfl, rfl, .inr (.inr ⟨v, own, isArrival, rfl, ?_, ?_⟩)⟩
      · exact covers_upTo.mpr ⟨startCovered, late⟩
      · intro register
        rw [pin, noRegister] at register
        simp at register
    · intro k apart old
      simp [intervals_set isKept, getElem_divided found, apart, old]
    · intro m foundM
      rw [set_other new, isRest] at foundM
      obtain rfl := some.inj foundM
      exact ⟨⟨rfl, isMine.2⟩, rfl, rfl⟩

theorem releasePoint_odd {start : Position} {clobber : Option Position} (even : start % 2 = 0)
    (evenLast : last % 2 = 0) : releasePoint start last clobber % 2 = 1 := by
  cases clobber with
  | none =>
    unfold releasePoint
    lia
  | some q =>
    unfold releasePoint gapBefore
    split <;> lia

theorem releasePoint_bounds {start : Position} (clobber : Option Position) (early : start ≤ last) :
    start < releasePoint start last clobber ∧ releasePoint start last clobber ≤ last + 1 := by
  cases clobber with
  | none =>
    unfold releasePoint
    lia
  | some q =>
    unfold releasePoint
    lia

theorem arriveInRegister_steps {start : Position} (positive : 0 < start)
    (run : s.arriveInRegister c id l start last = .ok s') :
    ∃ i j clobber, s.pool.intervals[id]? = some i ∧ i.addRange 0 start = .ok j ∧
      ((∃ child mid mid' mid'', ({ s with pool := s.pool.set id j } : Scan).splitAt id
            (releasePoint start last clobber) = .ok (child, mid) ∧
          mid.modify child (fun i => return i.prefer l) = .ok mid' ∧
          mid'.enqueue child = .ok mid'' ∧ s' = { mid'' with inactive := mid''.inactive ++ [id] }) ∨
        (j.stop ≤ releasePoint start last clobber ∧
          s' = { s with pool := s.pool.set id j, inactive := s.inactive ++ [id] })) := by
  simp only [arriveInRegister, if_pos positive, bind_ok, modify, pure_ok] at run
  obtain ⟨mid, ⟨pool, added, rfl⟩, m, isM, clobber, -, run⟩ := run
  obtain ⟨i, j, found, longer, rfl⟩ := modify_ok added
  refine ⟨i, j, clobber, found, longer, ?_⟩
  obtain rfl : j = m := by
    simpa [get_ok, intervals_set found] using isM
  split at run
  · obtain ⟨⟨child, mid⟩, split, run⟩ := bind_ok.mp run
    obtain ⟨mid', preferred, run⟩ := bind_ok.mp run
    obtain ⟨mid'', queued, run⟩ := bind_ok.mp run
    exact .inl ⟨child, mid, mid', mid'', split, by simpa only [modify, bind_ok, pure_ok] using
      preferred, queued, (pure_ok.mp run).symm⟩
  · simp only [bind_ok, pure_ok, exists_eq_left'] at run
    exact .inr ⟨Nat.le_of_not_lt ‹_›, run.symm⟩

theorem undisturbed_arrival (tidy : s.pool.Tidy (· % 2 = 1)) (found : s.pool.intervals[id]? = some i)
    (own : i.value = some v) (alone : i.root = id ∧ i.sibling = none)
    (once : ∀ v w l, arrivals.find? v = some l → arrivals.find? w = some l → v = w)
    (isArrival : arrivals.find? v = some l)
    (pins : ∀ (k : IntervalId) (m : Interval), s.pool.intervals[k]? = some m → InRegister c m →
      ∃ w, m.value = some w ∧ arrivals.find? w = some m.location)
    (place : j.location = l) (pinned : j.pinned = true) {p : IntervalPool}
    (others : ∀ (k : IntervalId) (m : Interval), p.intervals[k]? = some m → k ≠ id →
      InRegister c m → s.pool.intervals[k]? = some m) : Undisturbed c p [] id j := by
  refine ⟨?_, by simp [pinned]⟩
  intro k m foundM apart _ inside same
  replace foundM := others k m foundM apart inside
  obtain ⟨w, ownM, isArrivalM⟩ := pins k m foundM inside
  rw [same, place] at isArrivalM
  obtain rfl := once v w l isArrival isArrivalM
  exact absurd (tidy.eq_of_alone found own alone foundM ownM) apart

/-- An interval is pinned in a register up to some position; the rest of it waits, and asks for the
same register. -/
theorem fasten_until {lo : ValueId → Position} {cut : Position} {child : IntervalId}
    {mid mid' mid'' : Scan} (occ : Occupancy c pos [] (id :: hold) s)
    (storage : Storage c.regClass arrivals pos lo s.pool s.frame)
    (found : s.pool.intervals[id]? = some i) (late : i.start < cut) (odd : cut % 2 = 1)
    (inside : InRegister c { i with location := l }) (started : i.start ≤ pos)
    (alone : Undisturbed c ((s.pool.divided id i cut).set id
        ({ i.upTo cut with sibling := some s.pool.size }.pin l)) [] id
      ({ i.upTo cut with sibling := some s.pool.size }.pin l))
    (split : ({ s with pool := s.pool.set id (i.pin l) } : Scan).splitAt id cut = .ok (child, mid))
    (preferred : mid.modify child (fun i => return i.prefer l) = .ok mid')
    (queued : mid'.enqueue child = .ok mid'') :
    Occupancy c pos [] hold { mid'' with inactive := mid''.inactive ++ [id] } ∧
      Storage c.regClass arrivals pos lo mid''.pool mid''.frame ∧ mid''.frame = s.frame ∧
      mid''.pool.intervals[id]? = some ({ i.upTo cut with sibling := some s.pool.size }.pin l) ∧
      mid''.pool.intervals[s.pool.size]? = some ((i.rest cut).prefer l) ∧
      ∀ k, k ≠ id → k ≠ s.pool.size → mid''.pool.intervals[k]? = s.pool.intervals[k]? := by
  have fit := occ.tidy.fit id i found
  have isPin := set_self found (i.pin l)
  have latePin : (i.pin l).start < cut := late
  obtain ⟨before, rfl, rfl⟩ := Scanning.splitAt_divided isPin latePin split
  replace before : cut < i.stop := before
  have noMemory : l.isMemory = false := by
    by_contra memory
    exact outside_of_isMemory (by simpa using memory) rfl inside
  have new : s.pool.size ≠ id := size_ne found
  have isKept := divided_kept found cut
  have isRest : ((s.pool.divided id i cut).set id
      ({ i.upTo cut with sibling := some s.pool.size }.pin l)).intervals[s.pool.size]? =
      some (i.rest cut) := by
    simp [intervals_set isKept, getElem_divided found, new]
  simp only [size_set, divided_pin found, modify, bind_ok, pure_ok] at preferred
  obtain ⟨pool, preferred, rfl⟩ := preferred
  obtain ⟨m, m', foundM, same, rfl⟩ := modify_ok preferred
  obtain rfl := mem_unique isRest foundM
  obtain rfl := pure_ok.mp same
  obtain ⟨queue, rfl, perm⟩ := Scanning.enqueue_ok queued
  rw [size_set] at perm
  have divided := (occ.after_divide mem_cons_self found late before odd).perm
    (.swap id s.pool.size hold)
  have keptStart : (i.upTo cut).start ≤ pos :=
    Nat.le_trans (Nat.le_of_eq (start_upTo fit.sorted late before)) started
  have fastened := divided.after_fastenInside isKept inside keptStart alone
  have sameRest : (i.rest cut).Relabelled ((i.rest cut).prefer l) := rfl
  have sameKept : Relabelled { i.upTo cut with sibling := some s.pool.size }
      ({ i.upTo cut with sibling := some s.pool.size }.pin l) := rfl
  have isPreferred := intervals_set isRest ((i.rest cut).prefer l) s.pool.size
  rw [if_pos rfl] at isPreferred
  have waiting := ((fastened.after_relabel mem_cons_self isRest sameRest rfl).of_undisturbed
    not_mem_nil (by
      intro m foundM within
      obtain rfl := mem_unique isPreferred foundM
      exact absurd within (Occupancy.rest_outside i cut))).after_enqueue (by
    intro m foundM
    obtain rfl := mem_unique isPreferred foundM
    rfl) perm
  refine ⟨waiting, ?_, rfl, ?_, isPreferred, ?_⟩
  · exact ((storage.after_divide fit found late before).after_relabel isKept sameKept
      noMemory).after_relabel isRest sameRest rfl
  · rw [intervals_set isRest, if_neg new.symm, intervals_set isKept, if_pos rfl]
  · intro k apart old
    simp [intervals_set isRest, intervals_set isKept,
      getElem_divided found, apart, old]

/-- Stretched back to position 0, an interval covers everything up to where it started. -/
theorem pin_stretched (fit : i.Fit) (filled : i.ranges ≠ [])
    (added : (i.pin l).addRange 0 i.start = .ok j) :
    ∃ ranges, j = pin { i with ranges } l ∧ Fit { i with ranges } ∧
      Interval.start { i with ranges } = 0 ∧
      ∀ q ≤ i.start, Interval.covers { i with ranges } q = true := by
  have sortedPin : Range.Sorted (i.pin l).ranges := fit.sorted
  obtain ⟨same, sorted, coversPin⟩ := covers_addRange sortedPin added
  obtain ⟨ranges, rfl⟩ : ∃ ranges, j = pin { i with ranges } l := ⟨j.ranges, same⟩
  replace sorted : Range.Sorted ranges := sorted
  have covers : ∀ q, Interval.covers { i with ranges } q = true ↔
      q < i.start ∨ i.covers q = true := by
    intro q
    simpa [Interval.covers, pin] using coversPin q
  have upToStart : ∀ q ≤ i.start, Interval.covers { i with ranges } q = true := by
    intro q le
    rcases Nat.lt_or_eq_of_le le with before | here
    · exact (covers q).mpr (.inl before)
    · exact (covers q).mpr (.inr (here ▸ covers_start fit.sorted filled))
  refine ⟨ranges, rfl, ⟨sorted, fun _ => ranges_ne_nil (upToStart 0 (Nat.zero_le _)), fit.uses,
    fit.even, fit.kind⟩, ?_, upToStart⟩
  exact Nat.le_zero.mp (start_le sorted (upToStart 0 (Nat.zero_le _)))

theorem Occupancy.after_stretch (occ : Occupancy c 0 [] (id :: hold) s)
    (found : s.pool.intervals[id]? = some i) (own : i.value = some v)
    (alone : i.root = id ∧ i.sibling = none) (invalid : i.location = .invalid) {ranges : List Range}
    (fit : Fit { i with ranges }) :
    Occupancy c 0 [] (id :: hold) { s with pool := s.pool.set id { i with ranges } } := by
  obtain ⟨isMine, unpinned⟩ := occ.held_mine mem_cons_self found
  refine (occ.after_replace mem_cons_self found (occ.tidy.after_stretch found own alone rfl fit)
    isMine unpinned).of_undisturbed not_mem_nil fun m foundM within => ?_
  obtain rfl := mem_unique (set_self found { i with ranges }) foundM
  have valid := isInvalid_of_inClass within.2.1
  simp [invalid] at valid

section

variable {lo : ValueId → Position} (occ : Occupancy c 0 [] (id :: hold) s)
  (storage : Storage c.regClass arrivals 0 lo s.pool s.frame)
  (found : s.pool.intervals[id]? = some i) (own : i.value = some v)
  (homeless : s.frame.home? v = none) (alone : i.root = id ∧ i.sibling = none)
  (invalid : i.location = .invalid) (isArrival : arrivals.find? v = some l)
  (inside : InRegister c { i with location := l })
  (once : ∀ v w l, arrivals.find? v = some l → arrivals.find? w = some l → v = w)
  (pins : ∀ (k : IntervalId) (m : Interval), s.pool.intervals[k]? = some m → InRegister c m →
    ∃ w, m.value = some w ∧ arrivals.find? w = some m.location)

include occ storage found own homeless alone invalid isArrival inside once pins

section

variable {ranges : List Range} (fit : Fit { i with ranges })
  (startZero : Interval.start { i with ranges } = 0)
  (upToStart : ∀ q ≤ i.start, Interval.covers { i with ranges } q = true)

include fit startZero upToStart

theorem receive_until {cut : Position} {child : IntervalId} {mid mid' mid'' : Scan}
    (behind : i.start < cut) (bound : cut ≤ last + 1) (odd : cut % 2 = 1)
    (split : ({ s with pool := s.pool.set id (pin { i with ranges } l) } : Scan).splitAt id cut =
      .ok (child, mid))
    (preferred : mid.modify child (fun i => return i.prefer l) = .ok mid')
    (queued : mid'.enqueue child = .ok mid'') :
    Occupancy c 0 [] hold { mid'' with inactive := mid''.inactive ++ [id] } ∧
      Storage c.regClass arrivals 0 lo mid''.pool mid''.frame ∧
      Received c arrivals last id i s { mid'' with inactive := mid''.inactive ++ [id] } := by
  have foundJ := set_self found { i with ranges }
  have positiveCut : Interval.start { i with ranges } < cut := by lia
  rw [← Occupancy.set_set (i := { i with ranges }) s.pool] at split
  have isPinned := set_self foundJ (pin { i with ranges } l)
  have startPinned : (pin { i with ranges } l).start < cut := positiveCut
  have late : cut < stop { i with ranges } :=
    (Scanning.splitAt_divided isPinned startPinned split).1
  obtain ⟨after, settled, frame, isHere, isRest, others⟩ :=
    fasten_until (occ.after_stretch found own alone invalid fit)
      (storage.after_reshape found own homeless own (by rw [invalid]; rfl)) foundJ positiveCut
      odd inside (Nat.le_of_eq startZero) (by
        refine undisturbed_arrival occ.tidy found own alone once isArrival pins rfl rfl ?_
        intro k m foundM apart inRegister
        rw [set_other apart] at foundM
        rcases divided_cases foundJ foundM with ⟨here, -⟩ | ⟨-, rfl⟩ | ⟨-, old⟩
        · exact absurd here apart
        · exact absurd inRegister (Occupancy.rest_outside _ _)
        · rwa [set_other apart] at old) split preferred queued
  rw [size_set] at isRest others
  refine ⟨after, settled, .of_parts isHere ?_ ?_ ?_ fun w _ => by rw [frame]⟩
  · refine ⟨rfl, rfl, rfl, rfl, .inr (.inr ⟨v, own, isArrival, rfl, ?_, fun _ => ⟨?_, ?_, ?_⟩⟩)⟩
    · exact covers_upTo.mpr ⟨upToStart _ (Nat.le_refl _), behind⟩
    · exact (start_upTo fit.sorted positiveCut late).trans startZero
    · exact (stop_upTo_le fit.sorted).trans bound
    · intro q le
      exact covers_upTo.mpr ⟨upToStart q le, Nat.lt_of_le_of_lt le behind⟩
  · intro k apart old
    simp [others k apart old, intervals_set found, apart]
  · intro m foundM
    obtain rfl := mem_unique isRest foundM
    exact ⟨⟨rfl, (occ.held_mine mem_cons_self found).1.2⟩, rfl, rfl⟩

theorem receive_whole (short : stop { i with ranges } ≤ last + 1) :
    Occupancy c 0 [] hold { s with
        pool := s.pool.set id (pin { i with ranges } l), inactive := s.inactive ++ [id] } ∧
      Storage c.regClass arrivals 0 lo (s.pool.set id (pin { i with ranges } l)) s.frame ∧
      Received c arrivals last id i s { s with
        pool := s.pool.set id (pin { i with ranges } l), inactive := s.inactive ++ [id] } := by
  have foundJ := set_self found { i with ranges }
  have same : Relabelled { i with ranges } (pin { i with ranges } l) := rfl
  have noMemory : l.isMemory = false := by
    by_contra memory
    exact outside_of_isMemory (by simpa using memory) rfl inside
  have fastened := (occ.after_stretch found own alone invalid fit).after_fastenInside foundJ inside
    (Nat.le_of_eq startZero) (by
      refine undisturbed_arrival occ.tidy found own alone once isArrival pins rfl rfl ?_
      intro k m foundM apart _
      simpa [Occupancy.set_set, intervals_set found, apart] using foundM)
  have shaped : Storage c.regClass arrivals 0 lo (s.pool.set id { i with ranges }) s.frame :=
    storage.after_reshape found own homeless own (by rw [invalid]; rfl)
  have settled := shaped.after_relabel foundJ same noMemory
  simp only [Occupancy.set_set] at fastened settled
  refine ⟨fastened, settled, .of_set found ?_ fun _ _ => rfl⟩
  exact ⟨rfl, rfl, rfl, rfl, .inr (.inr ⟨v, own, isArrival, rfl, upToStart _ (Nat.le_refl _),
    fun _ => ⟨startZero, short, upToStart⟩⟩)⟩

end

theorem receive_register (positive : 0 < i.start) (early : i.start ≤ last) (even : i.start % 2 = 0)
    (evenLast : last % 2 = 0)
    (run : ({ s with pool := s.pool.set id (i.pin l) } : Scan).arriveInRegister c id l i.start last =
      .ok s') :
    Occupancy c 0 [] hold s' ∧ Storage c.regClass arrivals 0 lo s'.pool s'.frame ∧
      Received c arrivals last id i s s' := by
  have fit := occ.tidy.fit id i found
  have filled := fit.filled (occ.held_mine mem_cons_self found).1.1
  obtain ⟨m, m', clobber, foundM, added, step⟩ := arriveInRegister_steps positive run
  obtain rfl := mem_unique (set_self found (i.pin l)) foundM
  obtain ⟨behind, bound⟩ := releasePoint_bounds clobber early
  have odd : releasePoint i.start last clobber % 2 = 1 := releasePoint_odd even evenLast
  obtain ⟨ranges, rfl, fitJ, startZero, upToStart⟩ := pin_stretched fit filled added
  simp only [Occupancy.set_set] at step
  rcases step with ⟨child, mid, mid', mid'', split, preferred, queued, rfl⟩ | ⟨short, rfl⟩
  · exact receive_until occ storage found own homeless alone invalid isArrival inside once pins fitJ
      startZero upToStart behind bound odd split preferred queued
  · exact receive_whole occ storage found own homeless alone invalid isArrival inside once pins fitJ
      startZero upToStart (short.trans bound)

end

structure Entering (c : Pass) (arrivals : Arrivals) (last : Position) (p : IntervalPool) (f : Frame)
    (rest : List (IntervalId × Interval)) (s : Scan) : Prop where
  occupancy : Occupancy c 0 [] (rest.map Prod.fst) s
  storage : ∃ lo, Storage c.regClass arrivals 0 lo s.pool s.frame
  ahead : ∀ e ∈ rest, s.pool.intervals[e.1]? = some e.2 ∧ p.intervals[e.1]? = some e.2 ∧
    ∀ v, e.2.value = some v → s.frame.home? v = none
  foreign : ∀ (id : IntervalId) (i : Interval), p.intervals[id]? = some i → ¬Mine c i →
    s.pool.intervals[id]? = some i
  seated : ∀ (id : IntervalId) (i : Interval), p.intervals[id]? = some i → Mine c i →
    id ∈ rest.map Prod.fst ∨ ∃ m, s.pool.intervals[id]? = some m ∧ Seated c arrivals last i m
  new : ∀ (id : IntervalId) (m : Interval), s.pool.intervals[id]? = some m →
    (∃ i, p.intervals[id]? = some i) ∨ (Mine c m ∧ m.location = .invalid ∧ m.definedBy = none)
  homes : ∀ v, (∀ i, OfValue p v i → ¬Mine c i) → s.frame.home? v = f.home? v

namespace Entering

variable {f : Frame} {rest : List (IntervalId × Interval)} {e : IntervalId × Interval}

section

variable (arriving : Arriving c arrivals last p) (entering : Entering c arrivals last p f rest s)
  (found : s.pool.intervals[id]? = some i)

include arriving entering found

theorem seated_of_valid (isMine : Mine c i) (valid : i.location.isInvalid = false) :
    ∃ i₀, p.intervals[id]? = some i₀ ∧ Mine c i₀ ∧ Seated c arrivals last i₀ i ∧ i ≠ i₀ := by
  have invalid : ∀ {m : Interval}, m.location = .invalid → i ≠ m := by
    rintro m noPlace rfl
    simp [noPlace] at valid
  rcases entering.new id i found with ⟨i₀, found₀⟩ | ⟨-, noPlace, -⟩
  · by_cases isMine₀ : Mine c i₀
    · have blank := (arriving.blank id i₀ found₀ isMine₀).1
      refine ⟨i₀, found₀, isMine₀, ?_, invalid blank⟩
      rcases entering.seated id i₀ found₀ isMine₀ with isAhead | ⟨m, foundM, seated⟩
      · obtain ⟨e, member, rfl⟩ := mem_map.mp isAhead
        obtain ⟨foundE, same, -⟩ := entering.ahead e member
        obtain rfl := mem_unique found foundE
        obtain rfl := mem_unique same found₀
        exact absurd rfl (invalid blank)
      · obtain rfl := mem_unique found foundM
        exact seated
    · have := entering.foreign id i₀ found₀ isMine₀
      obtain rfl := mem_unique found this
      exact absurd isMine isMine₀
  · exact absurd rfl (invalid noPlace)

theorem arrival_of_inside (inside : InRegister c i) :
    ∃ v, i.value = some v ∧ arrivals.find? v = some i.location := by
  obtain ⟨i₀, -, -, seated, other⟩ :=
    entering.seated_of_valid arriving found inside.1 (isInvalid_of_inClass inside.2.1)
  rcases seated.place with ⟨same, -⟩ | ⟨-, zero, -⟩ | ⟨v, own, isArrival, -⟩
  · exact absurd same other
  · simp [inside.2.2] at zero
  · exact ⟨v, seated.value.trans own, isArrival⟩

/-- Whoever is in a register is there from the start, and leaves when the last parameter has
arrived. -/
theorem stop_le_last (inside : InRegister c i) : i.start = 0 ∧ i.stop ≤ last + 1 := by
  obtain ⟨i₀, -, -, seated, other⟩ :=
    entering.seated_of_valid arriving found inside.1 (isInvalid_of_inClass inside.2.1)
  rcases seated.place with ⟨same, -⟩ | ⟨-, zero, -⟩ | ⟨v, -, -, -, -, register⟩
  · exact absurd same other
  · simp [inside.2.2] at zero
  · have := register (Scanning.isAnyRegister_of_inClass inside.2.1)
    exact ⟨this.1, this.2.1⟩

end

theorem after_received (entering : Entering c arrivals last p f (e :: rest) s)
    (occ : Occupancy c 0 [] (rest.map Prod.fst) s') {lo : ValueId → Position}
    (storage : Storage c.regClass arrivals 0 lo s'.pool s'.frame)
    (received : Received c arrivals last e.1 e.2 s s')
    (alone : ∀ (k : IntervalId) (m : Interval), s.pool.intervals[k]? = some m →
      m.value = e.2.value → k = e.1) (isMine : Mine c e.2) :
    Entering c arrivals last p f rest s' := by
  have once : e.1 ∉ rest.map Prod.fst := by
    have := (nodup_append.mp entering.occupancy.once).2.1
    exact (nodup_cons.mp this).1
  obtain ⟨foundE, sameE, -⟩ := entering.ahead e mem_cons_self
  refine ⟨occ, ⟨lo, storage⟩, ?_, ?_, ?_, ?_, ?_⟩
  · intro e' member
    obtain ⟨found, same, homeless⟩ := entering.ahead e' (mem_cons_of_mem e member)
    have apart : e'.1 ≠ e.1 := fun here => once (here ▸ mem_map_of_mem member)
    refine ⟨received.others e'.1 e'.2 apart found, same, fun v own => ?_⟩
    rw [received.homes v ?_]
    · exact homeless v own
    · intro ownE
      exact apart (alone e'.1 e'.2 found (own.trans ownE.symm))
  · intro k m foundM foreign
    refine received.others k m ?_ (entering.foreign k m foundM foreign)
    rintro rfl
    obtain rfl := mem_unique sameE foundM
    exact foreign isMine
  · intro k m foundM isMineM
    by_cases here : k = e.1
    · subst here
      obtain rfl := mem_unique sameE foundM
      exact .inr received.here
    · rcases entering.seated k m foundM isMineM with isAhead | ⟨w, foundW, seated⟩
      · exact .inl (by simpa [here] using isAhead)
      · exact .inr ⟨w, received.others k w here foundW, seated⟩
  · intro k m foundM
    by_cases here : k = e.1
    · exact .inl ⟨e.2, here ▸ sameE⟩
    · rcases received.new k m foundM here with before | isNew
      · exact entering.new k m before
      · exact .inr isNew
  · intro v foreign
    rw [received.homes v fun own => foreign e.2 ⟨e.1, sameE, own⟩ isMine]
    exact entering.homes v foreign

theorem after_receive (arriving : Arriving c arrivals last p)
    (entering : Entering c arrivals last p f (e :: rest) s)
    (run : receive c arrivals last s e = .ok s') : Entering c arrivals last p f rest s' := by
  have occ := entering.occupancy
  obtain ⟨lo, storage⟩ := entering.storage
  obtain ⟨id, i⟩ := e
  obtain ⟨found, same, homeless⟩ := entering.ahead (id, i) mem_cons_self
  have isMine := (occ.held_mine mem_cons_self found).1
  obtain ⟨invalid, -, -, alone⟩ := arriving.blank id i same isMine
  obtain ⟨v, own⟩ : ∃ v, i.value = some v := by
    have := (occ.tidy.fit id i found).kind
    rw [isMine.1] at this
    exact isSome_iff_exists.mp (by simpa using this.symm)
  have only : ∀ (k : IntervalId) (m : Interval), s.pool.intervals[k]? = some m →
      m.value = i.value → k = id :=
    fun k m foundM sameM => occ.tidy.eq_of_alone found own alone foundM (sameM.trans own)
  rcases receive_ok run own with ⟨reg, isZero, isReg, fits, run⟩ | ⟨noArrival, run⟩ |
    ⟨l, mid, isArrival, pinned, step⟩
  · obtain ⟨after, settled, received⟩ := receive_zero occ storage found own isZero isReg fits run
    exact entering.after_received after settled received only isMine
  · obtain ⟨after, settled, received⟩ := receive_other occ storage found own invalid noArrival
      run
    exact entering.after_received after settled received only isMine
  · obtain ⟨i', found', rfl⟩ := modify_pin pinned
    obtain rfl := mem_unique found found'
    obtain ⟨positive, early, even, spared, -⟩ := arriving.early id i v l same isMine own isArrival
    rcases step with ⟨register, run⟩ | ⟨outside, run⟩
    · have inClass := arriving.inClass id i v l same isMine own isArrival register
      have noZero : c.target.isZeroReg l = false := by
        rcases arriving.places v l isArrival with parameter | ⟨-, noZero⟩
        · have memory : l.isMemory = true := by
            simp [isMemory, isStack, parameter]
          simp [Scanning.isAnyRegister_of_isMemory memory] at register
        · exact noZero
      obtain ⟨after, settled, received⟩ := receive_register occ storage found own (homeless v own)
        alone invalid isArrival ⟨isMine, inClass, noZero⟩ arriving.once
        (fun k m foundM inside => entering.arrival_of_inside arriving foundM inside) positive
        early even arriving.even run
      exact entering.after_received after settled received only isMine
    · have parameter : l.isStackParameter = true := by
        rcases arriving.places v l isArrival with parameter | ⟨register, -⟩
        · exact parameter
        · simp [register] at outside
      obtain ⟨after, settled, received⟩ := receive_stack occ storage found own alone invalid
        isArrival parameter even spared run
      exact entering.after_received after settled received only isMine

end Entering

end Scan

end RegisterAllocation
