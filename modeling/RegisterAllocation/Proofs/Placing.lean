import RegisterAllocation.Proofs.Eviction

/-!
The scan of a register class, interval by interval. Placing an interval keeps registers and memory
in order, and so does draining the whole queue.
-/

namespace RegisterAllocation

open List Option IntervalPool

namespace Scan

variable {c : Pass} {arrivals : Arrivals} {base : Scan} {pos next : Position}
  {raw hold : List IntervalId} {s s' : Scan} {id : IntervalId} {i : Interval}

theorem placeNext_ok (run : placeNext c s id = .ok s') :
    ∃ start mid last r, s.start id = .ok start ∧ s.advance start = .ok mid ∧
      (mid.tryFree c id = .ok (some last) ∨ mid.allocateBlocked c id = .ok last) ∧
      last.regOf c id = .ok r ∧
      s' = if r.isSome then { last with active := last.active ++ [id] } else last := by
  simp only [placeNext, bind_ok, lift_ok] at run
  obtain ⟨start, isStart, mid, advanced, free, isFree, run⟩ := run
  cases free with
  | some last =>
    simp only [pure_bind, bind_ok, lift_ok] at run
    obtain ⟨r, isReg, run⟩ := run
    refine ⟨start, mid, last, r, isStart, advanced, .inl isFree, isReg, ?_⟩
    split at run <;> simp_all [pure_ok]
  | none =>
    simp only [bind_ok, lift_ok] at run
    obtain ⟨last, placed, r, isReg, run⟩ := run
    refine ⟨start, mid, last, r, isStart, advanced, .inr placed, isReg, ?_⟩
    split at run <;> simp_all [pure_ok]

/-- The loop keeps what each turn of it keeps, and ends when the queue is empty. -/
theorem drain_keeps {P : Position → Scan → Prop} {bound : Nat}
    (turn : ∀ pos next id rest s s', P pos s → s.queue = id :: rest → s.start id = .ok next →
      pos ≤ next → placeNext c { s with queue := rest } id = .ok s' → P next s')
    (start : P pos s) (run : drain c bound pos s = .ok s') : ∃ last, P last s' ∧ s'.queue = [] := by
  fun_induction drain c bound pos s with
  | case1 _ pos s isQueue =>
    obtain rfl := pure_ok.mp run
    exact ⟨pos, start, isQueue⟩
  | case2 => simp at run
  | case3 pos s id rest bound isQueue ih =>
    simp only [bind_ok, lift_ok, ensure_ok] at run
    obtain ⟨next, isStart, _, later, mid, placed, run⟩ := run
    exact ih next mid (turn pos next id rest s mid start isQueue isStart later placed) run

theorem allocateBlocked_ok (run : s.allocateBlocked c id = .ok s') :
    ∃ i, s.pool.intervals[id]? = some i ∧
      ((i.nextUse? i.start = none ∧ s.spill c id = .ok s') ∨ ∃ use hard soft reg,
        i.nextUse? i.start = some use ∧ s.hardDemands c i = .ok hard ∧ c.regs.contains reg = true ∧
        ((i.start < gapBefore use ∧ ∃ child mid last, s.splitAt id (gapBefore use) = .ok
        (child, mid) ∧
            mid.spill c id = .ok last ∧ last.enqueue child = .ok s') ∨
          (use < limit (hard ++ soft) reg ∧
            s.takeOver c id i.start reg (limit hard reg) = .ok s'))) := by
  simp only [allocateBlocked, bind_ok, lift_ok, get_ok] at run
  obtain ⟨i, found, run⟩ := run
  refine ⟨i, found, ?_⟩
  split at run
  · exact .inl ⟨‹_›, run⟩
  · rename_i use isUse
    simp only [bind_ok, lift_ok] at run
    obtain ⟨hard, isHard, soft, -, run⟩ := run
    split at run
    · exact absurd run refuse_ne_ok
    · rename_i reg pos isBest
      obtain ⟨member, rfl, -⟩ := furthest_ok isBest
      refine .inr ⟨use, hard, soft, reg, isUse, isHard, RegisterSet.mem_toList.mp member, ?_⟩
      split at run
      · split at run
        · exact absurd run refuse_ne_ok
        · rename_i gap
          obtain ⟨⟨child, mid⟩, split, run⟩ := bind_ok.mp run
          obtain ⟨last, spilled, queued⟩ := bind_ok.mp run
          exact .inl ⟨Nat.lt_of_not_le gap, child, mid, last, lift_ok.mp split, spilled,
            lift_ok.mp queued⟩
      · exact .inr ⟨Nat.lt_of_not_le ‹_›, run⟩

theorem lt_gapBefore {use blocked : Position} (even : use % 2 = 0) (later : use < blocked) :
    use < gapBefore blocked := by
  unfold gapBefore
  split <;> lia

theorem nextUse_ok {use : Position} (isUse : i.nextUse? pos = some use) :
    pos ≤ use ∧ ∃ u ∈ i.uses, u.pos = use ∧ u.needsRegister = true := by
  simp only [Interval.nextUse?, map_eq_some_iff] at isUse
  obtain ⟨u, isUse, rfl⟩ := isUse
  have test := find?_some isUse
  simp only [Bool.and_eq_true, decide_eq_true_eq] at test
  exact ⟨test.2, u, mem_of_find?_eq_some isUse, rfl, test.1⟩

namespace Scanning

theorem after_allocateBlocked (proper : Pass.ZeroFree c)
    (scanning : Scanning c arrivals base pos [] [id] s)
    (isStart : ∀ i, s.pool.intervals[id]? = some i → i.start = pos)
    (live : s.Live pos)
    (run : s.allocateBlocked c id = .ok s') :
    Scanning c arrivals base pos [] [id] s' ∧ ∃ j, s'.pool.intervals[id]? = some j ∧
      ((InRegister c j ∧ j.start = pos) ∨ j.location.isMemory = true) := by
  have occ := scanning.occupancy
  obtain ⟨i, found, step⟩ := allocateBlocked_ok run
  have start := isStart i found
  have fit := occ.tidy.fit id i found
  have isMine := (occ.held_mine mem_cons_self found).1
  rcases step with ⟨-, spilled⟩ | ⟨use, hard, soft, reg, isUse, isHard, allowed, step⟩
  · obtain ⟨l, frame, isMemory, rfl, after⟩ := scanning.after_spill mem_cons_self not_mem_nil
      found (start_le_start occ mem_cons_self found (Nat.le_of_eq start))
      (start ▸ fit.start_lt isMine.1) spilled
    exact ⟨after, _, set_self found _, .inr isMemory⟩
  · rcases step with ⟨gap, child, mid, last, split, spilled, queued⟩ | ⟨later, taken⟩
    · have odd := gapBefore_odd (Nat.zero_lt_of_lt gap)
      obtain ⟨inside, rfl, rfl⟩ := splitAt_divided found gap split
      have new : s.pool.size ≠ id := size_ne found
      have divided := scanning.after_divide mem_cons_self found gap inside odd
      have isKept := divided_kept found (gapBefore use)
      have keptStart : (i.upTo (gapBefore use)).start = pos :=
        (Interval.start_upTo fit.sorted gap inside).trans start
      have filled : (i.upTo (gapBefore use)).start < (i.upTo (gapBefore use)).stop :=
        (fit.upTo_fit s.pool.size gap inside).start_lt isMine.1
      obtain ⟨l, frame, isMemory, rfl, after⟩ := divided.after_spill (by simp) not_mem_nil isKept
        (start_le_start divided.occupancy (by simp) isKept (Nat.le_of_eq keptStart))
        (keptStart ▸ filled) spilled
      obtain ⟨after, queue, rfl⟩ := after.after_enqueue (by
        intro m foundM
        obtain rfl : i.rest (gapBefore use) = m := by
          simpa [intervals_set isKept, getElem_divided found, new] using
            foundM
        rfl) queued
      exact ⟨after, _, set_self isKept _, .inr isMemory⟩
    · obtain ⟨from', u, member, rfl, -⟩ := nextUse_ok isUse
      have late : i.start < gapBefore (limit hard reg) := by
        have bound : limit (hard ++ soft) reg ≤ limit hard reg := limit_append_le
        have := lt_gapBefore (fit.even u member) (Nat.lt_of_lt_of_le later bound)
        lia
      obtain ⟨after, j, isJ, inside, startJ⟩ :=
        scanning.after_takeOver proper found start live isHard allowed late taken
      exact ⟨after, j, isJ, .inl ⟨inside, startJ⟩⟩

theorem after_advance (scanning : Scanning c arrivals base pos raw hold s) (later : pos ≤ next)
    (run : s.advance next = .ok s') :
    Scanning c arrivals base next raw hold s' ∧ s'.pool = s.pool ∧ s'.queue = s.queue ∧
      ∀ k ∈ s'.active ++ s'.inactive, ∀ m, s.pool.intervals[k]? = some m → next < m.stop := by
  obtain ⟨occ, pool, frame, queue, live⟩ := scanning.occupancy.after_advance later run
  obtain ⟨lo, storage⟩ := scanning.storage
  refine ⟨⟨occ, ⟨lo, ?_⟩, ?_, ?_, ?_, ?_, ?_, ?_⟩, pool, queue, live⟩
  · rw [pool, frame]
    exact storage.of_later later
  · rw [pool]
    exact scanning.kept
  · rw [pool]
    exact scanning.mine
  · rw [pool]
    exact scanning.origin
  · rw [pool]
    exact scanning.kind
  · rw [pool, frame]
    exact scanning.homes
  · rw [pool]
    exact scanning.pins

theorem after_listing (scanning : Scanning c arrivals base pos [] [id] s)
    (found : s.pool.intervals[id]? = some i)
    (placed : (InRegister c i ∧ i.start = pos) ∨ i.location.isMemory = true)
    {r : Option Nat} (isReg : s.regOf c id = .ok r) : Scanning c arrivals base pos [] []
      (if r.isSome then { s with active := s.active ++ [id] } else s) := by
  simp only [regOf, bind_ok, get_ok, found, pure_ok, some.injEq,
    exists_eq_left'] at isReg
  subst isReg
  rcases placed with ⟨inside, start⟩ | isMemory
  · simp only [inside.2.1, if_true, isSome_some]
    refine scanning.with_lists (scanning.occupancy.after_list found inside (Nat.le_of_eq start) ?_)
    rw [append_assoc]
    exact perm_middle
  · have outside : i.location.inClass c.regClass = false := by
      by_contra inClass
      have := isAnyRegister_of_inClass (by simpa using inClass)
      simp [isAnyRegister_of_isMemory isMemory] at this
    simp only [outside, Bool.false_eq_true, if_false, isSome_none]
    refine scanning.with_lists (scanning.occupancy.after_drop ?_)
    intro m foundM
    obtain rfl := mem_unique found foundM
    exact ⟨valid_of_isMemory isMemory, fun inside => by simp [inside.2.1] at outside⟩

theorem after_placeNext (proper : Pass.ZeroFree c) (scanning : Scanning c arrivals base pos [] [] s)
    {rest : List IntervalId} (isQueue : s.queue = id :: rest) (isStart : s.start id = .ok next)
    (later : pos ≤ next) (run : placeNext c { s with queue := rest } id = .ok s') :
    Scanning c arrivals base next [] [] s' := by
  simp only [start, bind_ok, get_ok, pure_ok] at isStart
  obtain ⟨i, found, rfl⟩ := isStart
  have popped := scanning.with_lists (scanning.occupancy.after_pop isQueue)
  obtain ⟨start, mid, last, r, isStart, advanced, step, isReg, rfl⟩ := placeNext_ok run
  simp only [Scan.start, bind_ok, get_ok, pure_ok] at isStart
  obtain ⟨i', found', rfl⟩ := isStart
  obtain rfl := mem_unique found found'
  obtain ⟨scanning, pool, -, live⟩ := popped.after_advance later advanced
  have starts : ∀ m, mid.pool.intervals[id]? = some m → m.start = i.start := by
    intro m foundM
    rw [pool] at foundM
    obtain rfl := mem_unique found foundM
    rfl
  rcases step with free | blocked
  · obtain ⟨after, j, isJ, inside, startJ⟩ := scanning.after_tryFree proper starts free
    exact after.after_listing isJ (.inl ⟨inside, startJ⟩) isReg
  · obtain ⟨after, j, isJ, placed⟩ := scanning.after_allocateBlocked proper starts
      (fun k member m foundM => live k member m (by rw [pool] at foundM; exact foundM)) blocked
    exact after.after_listing isJ placed isReg

theorem after_drain (proper : Pass.ZeroFree c) {bound : Nat}
    (scanning : Scanning c arrivals base pos [] [] s) (run : drain c bound pos s = .ok s') :
    ∃ last, Scanning c arrivals base last [] [] s' ∧ s'.queue = [] := by
  exact drain_keeps (P := fun pos s => Scanning c arrivals base pos [] [] s)
    (fun _ _ _ _ _ _ scanning => scanning.after_placeNext proper) scanning run

end Scanning

end Scan

end RegisterAllocation
