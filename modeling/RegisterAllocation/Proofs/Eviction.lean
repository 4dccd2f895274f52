import RegisterAllocation.Proofs.Scanning

/-!
Registers are taken away from intervals that need them last. Whoever is sent away is in no register
behind the present position, and nobody else changes.
-/

namespace RegisterAllocation

open List Option Interval IntervalPool Location Range

namespace Scan

variable {c : Pass} {arrivals : Arrivals} {base : Scan} {pos cut : Position}
  {raw hold : List IntervalId} {s s' : Scan} {id child : IntervalId} {i j : Interval} {reg : Nat}

structure Evicted (c : Pass) (pos : Position) (ids : List IntervalId) (s s' : Scan) : Prop where
  active : s'.active = s.active
  inactive : s'.inactive = s.inactive
  size : s.pool.size ≤ s'.pool.size
  others : ∀ k < s.pool.size, k ∉ ids → s'.pool.intervals[k]? = s.pool.intervals[k]?
  old : ∀ (k : IntervalId) (m : Interval), s'.pool.intervals[k]? = some m → InRegister c m →
    pos < m.stop → s.pool.intervals[k]? = some m
  gone : ∀ k ∈ ids, ∀ m, s'.pool.intervals[k]? = some m → InRegister c m → m.stop ≤ pos

namespace Evicted

variable {ids ids' : List IntervalId} {s'' : Scan}

theorem refl : Evicted c pos [] s s :=
  ⟨rfl, rfl, Nat.le_refl _, fun _ _ _ => rfl, fun _ _ found _ _ => found, by simp⟩

theorem trans (first : Evicted c pos ids s s') (second : Evicted c pos ids' s' s'') :
    Evicted c pos (ids ++ ids') s s'' := by
  refine ⟨second.active.trans first.active, second.inactive.trans first.inactive,
    first.size.trans second.size, ?_, ?_, ?_⟩
  · intro k inside fresh
    simp only [mem_append, not_or] at fresh
    rw [second.others k (Nat.lt_of_lt_of_le inside first.size) fresh.2,
      first.others k inside fresh.1]
  · intro k m found inside behind
    exact first.old k m (second.old k m found inside behind) inside behind
  · intro k member m found inside
    rcases mem_append.mp member with early | late
    · by_contra behind
      have found' := second.old k m found inside (Nat.lt_of_not_le behind)
      exact behind (first.gone k early m found' inside)
    · exact second.gone k late m found inside

theorem of_new (evicted : Evicted c pos (ids ++ ids') s s')
    (new : ∀ k ∈ ids', s.pool.size ≤ k) : Evicted c pos ids s s' := by
  refine ⟨evicted.active, evicted.inactive, evicted.size, ?_, evicted.old, ?_⟩
  · intro k inside fresh
    apply evicted.others k inside
    simp only [mem_append, not_or]
    refine ⟨fresh, fun member => ?_⟩
    have := new k member
    lia
  · intro k member
    exact evicted.gone k (mem_append_left _ member)

theorem of_mem (evicted : Evicted c pos ids s s') (same : ∀ k, k ∈ ids ↔ k ∈ ids') :
    Evicted c pos ids' s s' :=
  ⟨evicted.active, evicted.inactive, evicted.size,
    fun k inside fresh => evicted.others k inside fun member => fresh ((same k).mp member),
    evicted.old, fun k member => evicted.gone k ((same k).mpr member)⟩

theorem with_queue {queue : List IntervalId} (evicted : Evicted c pos ids s s') :
    Evicted c pos ids s { s' with queue } :=
  ⟨evicted.active, evicted.inactive, evicted.size, evicted.others, evicted.old, evicted.gone⟩

theorem of_set (found : s.pool.intervals[id]? = some i) (outside : ¬InRegister c j) {frame : Frame} :
    Evicted c pos [id] s { s with pool := s.pool.set id j, frame } := by
  refine ⟨rfl, rfl, by simp, ?_, ?_, ?_⟩
  · intro k _ fresh
    exact set_other (by simpa using fresh)
  · intro k m foundM inside _
    rcases set_cases found foundM with ⟨rfl, rfl⟩ | ⟨-, foundM⟩
    · exact absurd inside outside
    · exact foundM
  · intro k member m foundM inside
    obtain rfl : k = id := by simpa using member
    obtain rfl := mem_unique (set_self found _) foundM
    exact absurd inside outside

theorem of_divided (found : s.pool.intervals[id]? = some i) (sorted : Sorted i.ranges)
    (early : cut ≤ pos ∨ ¬InRegister c i) :
    Evicted c pos [id] s { s with pool := s.pool.divided id i cut } := by
  have stop : (i.upTo cut).stop ≤ cut := stop_upTo_le sorted
  refine ⟨rfl, rfl, by simp, ?_, ?_, ?_⟩
  · intro k inside fresh
    have apart : k ≠ id := by simpa using fresh
    have old : k ≠ s.pool.size := Nat.ne_of_lt inside
    simp [getElem_divided found, apart, old]
  · intro k m foundM inside behind
    rcases divided_cases found foundM with ⟨rfl, rfl⟩ | ⟨rfl, rfl⟩ | ⟨-, before⟩
    · rcases early with early | outside
      · have : (i.upTo cut).stop > pos := behind
        lia
      · exact absurd inside outside
    · exact absurd inside (Occupancy.rest_outside i cut)
    · exact before
  · intro k member m foundM inside
    obtain rfl : k = id := by simpa using member
    rcases divided_cases found foundM with ⟨-, rfl⟩ | ⟨-, rfl⟩ | ⟨other, -⟩
    · rcases early with early | outside
      · exact stop.trans early
      · exact absurd inside outside
    · exact absurd inside (Occupancy.rest_outside i cut)
    · exact absurd rfl other

end Evicted

theorem outside_of_isMemory {l : Location} (memory : l.isMemory = true)
    (place : i.location = l) : ¬InRegister c i := by
  rintro ⟨-, inClass, -⟩
  have := Scanning.isAnyRegister_of_inClass inClass
  rw [place, Scanning.isAnyRegister_of_isMemory memory] at this
  simp at this

theorem valid_of_isMemory {l : Location} (memory : l.isMemory = true) : l.isInvalid = false := by
  obtain ⟨kind, index⟩ := l
  cases kind <;> simp_all [Location.isMemory, isStack, isStackSlot,
    isStackParameter, isImmediate, isInvalid]

def leavingPoint (i : Interval) (pos : Position) : Position :=
  match i.lastUseBefore? (gapBefore pos) with
  | some last => last + 1
  | none => gapBefore pos

theorem leavingPoint_cases (i : Interval) (pos : Position) :
    leavingPoint i pos = gapBefore pos ∨ ∃ u ∈ i.uses, u.pos < gapBefore pos ∧
      leavingPoint i pos = u.pos + 1 := by
  unfold leavingPoint
  split
  · rename_i last isLast
    simp only [lastUseBefore?, map_eq_some_iff] at isLast
    obtain ⟨u, isLast, rfl⟩ := isLast
    have early : u.pos < gapBefore pos := by simpa using find?_some isLast
    have member : u ∈ i.uses := by simpa using mem_of_find?_eq_some isLast
    exact .inr ⟨u, member, early, rfl⟩
  · exact .inl rfl

theorem evict_eq (found : s.pool.intervals[id]? = some i) :
    evict c pos s id = if leavingPoint i pos ≤ i.start then s.retire c id
      else liftM (s.splitAt id (leavingPoint i pos)) >>= fun r => r.2.retire c r.1 := by
  simp only [evict, get_ok.mpr found, lift_of_ok, ok_bind]
  rfl

namespace Scanning

theorem after_retire (scanning : Scanning c arrivals base pos raw (id :: hold) s) (fresh : id ∉ raw)
    (found : s.pool.intervals[id]? = some i)
    (first : ∀ (k : IntervalId) (m : Interval), s.pool.intervals[k]? = some m →
      m.value = i.value → pos < m.stop → i.start ≤ m.start)
    (behind : pos < i.stop)
    (run : s.retire c id = .ok s') :
    Scanning c arrivals base pos raw hold s' ∧ Evicted c pos [id] s s' := by
  have new : s.pool.size ≠ id := size_ne found
  simp only [retire, bind_ok, lift_ok, get_ok, found, some.injEq,
    exists_eq_left'] at run
  split at run
  · obtain ⟨l, frame, isMemory, rfl, after⟩ :=
      scanning.after_spill mem_cons_self fresh found first behind run
    have outside : ¬InRegister c { i with location := l } := outside_of_isMemory isMemory rfl
    refine ⟨after.with_lists (after.occupancy.after_drop ?_), .of_set found outside⟩
    intro m foundM
    obtain rfl := mem_unique (set_self found _) foundM
    exact ⟨valid_of_isMemory isMemory, fun inside => absurd inside outside⟩
  · split at run
    · rename_i use _ gap
      simp only [bind_ok, lift_ok] at run
      obtain ⟨mid, spilled, run⟩ := run
      obtain ⟨l, frame, isMemory, rfl, after⟩ :=
        scanning.after_spill mem_cons_self fresh found first behind spilled
      have outside : ¬InRegister c { i with location := l } := outside_of_isMemory isMemory rfl
      have isJ := set_self found { i with location := l }
      have odd := gapBefore_odd (Nat.zero_lt_of_lt gap)
      obtain ⟨-, after, queue, rfl⟩ := after.after_splitAndQueue mem_cons_self isJ gap odd run
      have sorted := (scanning.occupancy.tidy.fit id i found).sorted
      refine ⟨after.with_lists (after.occupancy.after_drop ?_), ?_⟩
      · intro m foundM
        rcases divided_cases isJ foundM with ⟨-, rfl⟩ | ⟨isNew, -⟩ | ⟨other, -⟩
        · exact ⟨valid_of_isMemory isMemory, fun inside => absurd inside outside⟩
        · simp [size_set] at isNew
          exact absurd isNew.symm new
        · exact absurd rfl other
      · have divided : Evicted c pos [id]
            { s with pool := s.pool.set id { i with location := l }, frame }
            { s with
              pool := (s.pool.set id { i with location := l }).divided id
                { i with location := l } (gapBefore use)
              frame } := .of_divided isJ sorted (.inr outside)
        exact ((Evicted.of_set found outside).trans divided.with_queue).of_mem (by simp)
    · simp only [bind_ok, lift_ok] at run
      obtain ⟨mid, vacated, run⟩ := run
      obtain ⟨i', found', rfl, after⟩ := scanning.after_vacate mem_cons_self fresh vacated
      obtain rfl := mem_unique found found'
      have outside : ¬InRegister c { i with location := .invalid } := by
        rintro ⟨-, inClass, -⟩
        have := isInvalid_of_inClass inClass
        simp [invalid, isInvalid] at this
      obtain ⟨after, queue, rfl⟩ := after.after_enqueue (by simp [intervals_set found,
        invalid, isInvalid]) run
      exact ⟨after, (Evicted.of_set found outside).with_queue⟩

theorem evict_ok (run : evict c pos s id = .ok s') :
    ∃ i cut, s.pool.intervals[id]? = some i ∧ cut ≤ gapBefore pos ∧
      (cut = gapBefore pos ∨ ∃ u ∈ i.uses, cut = u.pos + 1) ∧
      ((cut ≤ i.start ∧ s.retire c id = .ok s') ∨
        (i.start < cut ∧ ∃ child mid, s.splitAt id cut = .ok (child, mid) ∧
          mid.retire c child = .ok s')) := by
  obtain ⟨i, found⟩ : ∃ i, s.pool.intervals[id]? = some i := by
    simp only [evict, bind_ok, lift_ok, get_ok] at run
    exact ⟨run.choose, run.choose_spec.1⟩
  rw [evict_eq found] at run
  refine ⟨i, leavingPoint i pos, found, ?_, ?_, ?_⟩
  · rcases leavingPoint_cases i pos with here | ⟨u, -, early, here⟩
    · exact here.le
    · exact here ▸ early
  · rcases leavingPoint_cases i pos with here | ⟨u, member, -, here⟩
    · exact .inl here
    · exact .inr ⟨u, member, here⟩
  · split at run
    · rename_i early
      exact .inl ⟨early, run⟩
    · rename_i late
      obtain ⟨⟨child, mid⟩, split, run⟩ := bind_ok.mp run
      exact .inr ⟨Nat.lt_of_not_le late, child, mid, lift_ok.mp split, run⟩

theorem stop_le_start (occ : Occupancy c pos raw hold s) (found : s.pool.intervals[id]? = some i)
    (virtual : i.physical = false) (started : i.start ≤ pos) (k : IntervalId) (m : Interval)
    (foundM : s.pool.intervals[k]? = some m) (same : m.value = i.value) (behind : pos < m.stop)
    (other : k ≠ id) : i.stop ≤ m.start := by
  obtain ⟨v, own⟩ : ∃ v, i.value = some v := by
    have := (occ.tidy.fit id i found).kind
    rw [virtual] at this
    exact isSome_iff_exists.mp (by simpa using this.symm)
  rcases occ.tidy.stop_le_or other foundM found (same.trans own) own with before | after
  · lia
  · exact after

theorem start_le_start (occ : Occupancy c pos raw hold s) (held : id ∈ hold)
    (found : s.pool.intervals[id]? = some i) (started : i.start ≤ pos) (k : IntervalId)
    (m : Interval) (foundM : s.pool.intervals[k]? = some m) (same : m.value = i.value)
    (behind : pos < m.stop) : i.start ≤ m.start := by
  have isMine := (occ.held_mine held found).1
  by_cases here : k = id
  · subst here
    obtain rfl := mem_unique found foundM
    exact Nat.le_refl _
  · have := stop_le_start occ found isMine.1 started k m foundM same behind here
    have := (occ.tidy.fit id i found).start_lt isMine.1
    lia

theorem after_evict (scanning : Scanning c arrivals base pos raw (id :: hold) s)
    (known : ∀ r ∈ raw, r ≠ id ∧ r < s.pool.size) (found : s.pool.intervals[id]? = some i)
    (placed : i.location.isInvalid = false) (started : i.start ≤ pos) (behind : pos < i.stop)
    (run : evict c pos s id = .ok s') :
    Scanning c arrivals base pos raw hold s' ∧ Evicted c pos [id] s s' := by
  have occ := scanning.occupancy
  have isMine := (occ.held_mine mem_cons_self found).1
  have next := stop_le_start occ found isMine.1 started
  obtain ⟨i', cut, found', early, parity, step⟩ := evict_ok run
  obtain rfl := mem_unique found found'
  have le : cut ≤ pos := early.trans (gapBefore_le pos)
  have fit := occ.tidy.fit id i found
  rcases step with ⟨-, retired⟩ | ⟨late, child, mid, split, retired⟩
  · exact scanning.after_retire (fun member => (known id member).1 rfl) found
      (start_le_start occ mem_cons_self found started) behind retired
  · have odd : cut % 2 = 1 := by
      rcases parity with rfl | ⟨u, member, rfl⟩
      · exact gapBefore_odd (by lia)
      · have := fit.even u member
        lia
    have inside : cut < i.stop := by lia
    have new : s.pool.size ≠ id := size_ne found
    obtain ⟨-, rfl, rfl⟩ := splitAt_divided found late split
    have isChild := divided_rest found cut
    have divided := (scanning.after_divide mem_cons_self found late inside odd).perm
      (.swap id s.pool.size hold)
    have left := divided.with_lists (divided.occupancy.after_drop (by
      intro m foundM
      obtain rfl := mem_unique (divided_kept found cut) foundM
      exact ⟨placed, fun _ => (stop_upTo_le fit.sorted).trans le⟩))
    have restFirst : ∀ (k : IntervalId) (m : Interval),
        (s.pool.divided id i cut).intervals[k]? = some m → m.value = (i.rest cut).value →
        pos < m.stop → (i.rest cut).start ≤ m.start := by
      intro k m foundM same behindM
      rcases divided_cases found foundM with ⟨-, rfl⟩ | ⟨-, rfl⟩ | ⟨other, before⟩
      · have : (i.upTo cut).stop ≤ cut := stop_upTo_le fit.sorted
        have : pos < (i.upTo cut).stop := behindM
        lia
      · exact Nat.le_refl _
      · have := next k m before same behindM other
        have filled := (fit.rest_fit isMine.1 inside).start_lt rfl
        rw [stop_rest fit.sorted inside] at filled
        lia
    obtain ⟨after, evicted⟩ := left.after_retire (fun member => Nat.lt_irrefl _ (known _ member).2)
      isChild restFirst (by rw [stop_rest fit.sorted inside]; exact behind) retired
    have kept : Evicted c pos [id] s { s with pool := s.pool.divided id i cut } :=
      .of_divided found fit.sorted (.inl le)
    exact ⟨after, (kept.trans evicted).of_new (by simp)⟩

theorem after_evictAll {leaving : List IntervalId}
    (scanning : Scanning c arrivals base pos raw (leaving ++ hold) s)
    (known : ∀ r ∈ raw, r ∉ leaving ∧ r < s.pool.size)
    (each : ∀ k ∈ leaving, ∃ m, s.pool.intervals[k]? = some m ∧ m.location.isInvalid = false ∧
      m.start ≤ pos ∧ pos < m.stop)
    (run : leaving.foldlM (evict c pos) s = .ok s') :
    Scanning c arrivals base pos raw hold s' ∧ Evicted c pos leaving s s' := by
  induction leaving generalizing s with
  | nil =>
    obtain rfl : s = s' := pure_ok.mp run
    exact ⟨scanning, .refl⟩
  | cons id rest ih =>
    obtain ⟨mid, evicted, run⟩ := foldlM_cons_ok.mp run
    obtain ⟨i, found, placed, started, behind⟩ := each id mem_cons_self
    have first : ∀ r ∈ raw, r ≠ id ∧ r < s.pool.size := by
      intro r member
      obtain ⟨fresh, old⟩ := known r member
      exact ⟨fun here => fresh (here ▸ mem_cons_self), old⟩
    obtain ⟨scanning', left⟩ := scanning.after_evict first found placed started behind evicted
    have once : id ∉ rest := by
      have := (nodup_append.mp scanning.occupancy.once).2.1
      exact fun member => (nodup_cons.mp this).1 (mem_append_left hold member)
    have later : ∀ r ∈ raw, r ∉ rest ∧ r < mid.pool.size := by
      intro r member
      obtain ⟨fresh, old⟩ := known r member
      exact ⟨fun inRest => fresh (mem_cons_of_mem id inRest), Nat.lt_of_lt_of_le old left.size⟩
    obtain ⟨after, evicted'⟩ := ih scanning' later (by
      intro k member
      obtain ⟨m, foundM, facts⟩ := each k (mem_cons_of_mem id member)
      refine ⟨m, ?_, facts⟩
      rw [left.others k (found_lt foundM), foundM]
      simp only [mem_singleton]
      rintro rfl
      exact once member) run
    exact ⟨after, left.trans evicted'⟩

end Scanning

theorem holders_ok {test : IntervalId → Interval → Bool} {ids leaving : List IntervalId}
    (run : s.holders c reg test ids = .ok leaving) :
    (leaving ++ ids.filter (· ∉ leaving)).Perm ids ∧ ∀ k ∈ ids, ∃ m,
      s.pool.intervals[k]? = some m ∧ (k ∈ leaving ↔
        m.location.inClass c.regClass = true ∧ m.location.index = reg ∧ test k m = true) := by
  obtain ⟨keep, rfl, each⟩ := filterM_ok run
  refine ⟨?_, ?_⟩
  · have rest : ids.filter (· ∉ ids.filter keep) = ids.filter fun k => !keep k := by
      refine filter_congr fun k member => ?_
      simp [mem_filter, member]
    rw [rest]
    exact filter_append_perm keep ids
  · intro k member
    have isTest := each k member
    simp only [regOf, bind_ok, get_ok, pure_ok] at isTest
    obtain ⟨reg', ⟨m, found, rfl⟩, m', found', isTest⟩ := isTest
    obtain rfl := mem_unique found found'
    refine ⟨m, found, ?_⟩
    rw [mem_filter, ← isTest]
    simp only [member, true_and, Bool.and_eq_true, beq_iff_eq]
    split
    · simp_all
    · simp_all

theorem hardDemands_ok {hard : List Demand} (run : s.hardDemands c i = .ok hard) :
    ∃ active inactive calls,
      s.demandsOf c (fun other => if other.pinned then some 0 else none) s.active = .ok active ∧
      s.demandsOf c (fun other => if other.pinned then other.meets? i i.start else none)
        s.inactive = .ok inactive ∧
      s.callDemands c i = .ok calls ∧ hard = active ++ inactive ++ calls := by
  simp only [hardDemands, bind_ok, pure_ok] at run
  obtain ⟨active, isActive, inactive, isInactive, calls, isCalls, rfl⟩ := run
  exact ⟨active, inactive, calls, isActive, isInactive, isCalls, rfl⟩

theorem takeOver_ok {start blocked : Position} (run : s.takeOver c id start reg blocked = .ok s') :
    ∃ given i cut leaving left j leaving',
      s.assign id reg = .ok given ∧ given.pool.intervals[id]? = some i ∧
      ((blocked < i.stop ∧ given.splitAndQueue id (gapBefore blocked) = .ok cut) ∨
        (i.stop ≤ blocked ∧ cut = given)) ∧
      cut.holders c reg (fun other _ => other != id) cut.active = .ok leaving ∧
      leaving.foldlM (evict c start) { cut with active := cut.active.filter (· ∉ leaving) } =
        .ok left ∧
      left.pool.intervals[id]? = some j ∧
      left.holders c reg (fun _ other => !other.pinned && (other.meets? j start).isSome)
        left.inactive = .ok leaving' ∧
      leaving'.foldlM (evict c start) { left with inactive := left.inactive.filter (· ∉ leaving') } =
        .ok s' := by
  simp only [takeOver, bind_ok, lift_ok, get_ok] at run
  obtain ⟨given, assigned, i, found, run⟩ := run
  split at run
  · simp only [bind_ok, lift_ok, get_ok] at run
    obtain ⟨cut, split, leaving, isLeaving, left, evicted, j, foundJ, leaving', isLeaving', run⟩ :=
      run
    exact ⟨given, i, cut, leaving, left, j, leaving', assigned, found, .inl ⟨‹_›, split⟩, isLeaving,
      evicted, foundJ, isLeaving', run⟩
  · simp only [bind_ok, lift_ok, get_ok, pure_ok, exists_eq_left'] at run
    obtain ⟨leaving, isLeaving, left, evicted, j, foundJ, leaving', isLeaving', run⟩ := run
    exact ⟨given, i, given, leaving, left, j, leaving', assigned, found,
      .inr ⟨Nat.le_of_not_lt ‹_›, rfl⟩, isLeaving, evicted, foundJ, isLeaving', run⟩

namespace Scanning

theorem after_seize (scanning : Scanning c arrivals base pos [] [id] s)
    (found : s.pool.intervals[id]? = some i) {blocked : Position} {given cut : Scan}
    (late : i.start < gapBefore blocked) (assigned : s.assign id reg = .ok given)
    (isGiven : given.pool.intervals[id]? = some j)
    (step : (blocked < j.stop ∧ given.splitAndQueue id (gapBefore blocked) = .ok cut) ∨
      (j.stop ≤ blocked ∧ cut = given)) :
    Scanning c arrivals base pos [id] [id] cut ∧
      (cut.active = s.active ∧ cut.inactive = s.inactive) ∧
      (∃ piece, cut.pool.intervals[id]? = some piece ∧ FirstPart i piece reg blocked ∧
        piece.ty = i.ty ∧ piece.physical = i.physical ∧ Sorted piece.ranges) ∧
      (∀ (k : IntervalId) (m : Interval), cut.pool.intervals[k]? = some m → k ≠ id →
        InRegister c m ∨ k ∈ c.fixed → s.pool.intervals[k]? = some m) ∧
      ∀ (k : IntervalId) (m : Interval), k ≠ id → s.pool.intervals[k]? = some m →
        cut.pool.intervals[k]? = some m := by
  have occ := scanning.occupancy
  have fit := occ.tidy.fit id i found
  obtain ⟨i', found', rfl, after⟩ := scanning.after_assign mem_cons_self assigned
  obtain rfl := mem_unique found found'
  have isJ := set_self found { i with location := .registerFor reg i.ty }
  obtain rfl := mem_unique isGiven isJ
  have other : ∀ k : IntervalId, k ≠ id →
      (s.pool.set id { i with location := .registerFor reg i.ty }).intervals[k]? =
        s.pool.intervals[k]? := fun _ => set_other
  rcases step with ⟨before, split⟩ | ⟨whole, rfl⟩
  · have odd := gapBefore_odd (Nat.zero_lt_of_lt late)
    obtain ⟨inside, after, queue, rfl⟩ :=
      after.after_splitAndQueue mem_cons_self isJ late odd split
    have isPiece : ((s.pool.set id { i with location := .registerFor reg i.ty }).divided id
        { i with location := .registerFor reg i.ty } (gapBefore blocked)).intervals[id]? =
        some { i.upTo (gapBefore blocked) with
          location := .registerFor reg i.ty
          sibling := some (s.pool.set id { i with location := .registerFor reg i.ty }).size } := by
      rw [getElem_divided isJ, if_pos rfl]
      rfl
    refine ⟨after, ⟨rfl, rfl⟩, ⟨_, isPiece, ?_, rfl, rfl, fit.sorted.before_sorted⟩, ?_, ?_⟩
    · refine ⟨start_upTo fit.sorted late inside, rfl, ?_, rfl⟩
      intro q covered
      obtain ⟨coveredI, early⟩ := covers_upTo.mp covered
      exact ⟨coveredI, Nat.lt_of_lt_of_le early (gapBefore_le _)⟩
    · intro k m foundM apart reason
      rcases divided_cases isJ foundM with ⟨rfl, -⟩ | ⟨isNew, rfl⟩ | ⟨-, old⟩
      · exact absurd rfl apart
      · rw [size_set] at isNew
        subst isNew
        exact absurd reason (not_or.mpr ⟨Occupancy.rest_outside _ _, occ.size_notFixed⟩)
      · rw [← other k apart]
        exact old
    · intro k m apart foundM
      exact divided_other isJ apart (by rw [other k apart, foundM])
  · refine ⟨after, ⟨rfl, rfl⟩, ⟨_, isJ, ?_, rfl, rfl, fit.sorted⟩, ?_, ?_⟩
    · exact ⟨rfl, rfl, fun q covered =>
        ⟨covered, Nat.lt_of_lt_of_le (lt_stop fit.sorted covered) whole⟩, rfl⟩
    · intro k m foundM apart _
      rw [← other k apart]
      exact foundM
    · intro k m apart foundM
      rw [other k apart]
      exact foundM

theorem after_clear {leaving active inactive : List IntervalId}
    (scanning : Scanning c arrivals base pos [id] [id] s)
    (same : (leaving ++ (active ++ inactive)).Perm (s.active ++ s.inactive))
    (each : ∀ k ∈ leaving, ∀ m, s.pool.intervals[k]? = some m → m.pinned = false ∧ pos < m.stop)
    (run : leaving.foldlM (evict c pos) { s with active, inactive } = .ok s') :
    Scanning c arrivals base pos [id] [id] s' ∧
      Evicted c pos leaving { s with active, inactive } s' := by
  have occ := scanning.occupancy
  have unlisted := scanning.with_lists (occ.after_unlist same fun k member m foundM =>
    (each k member m foundM).1)
  have listed : ∀ k ∈ leaving, k ∈ s.active ++ s.inactive := fun k member =>
    same.mem_iff.mp (mem_append_left _ member)
  refine unlisted.after_evictAll ?_ ?_ run
  · intro r member
    obtain rfl : r = id := by simpa using member
    obtain ⟨i, found, -⟩ := occ.loose r (by simp)
    exact ⟨fun leaves => occ.not_listed mem_cons_self (listed r leaves),
      (found_lt found)⟩
  · intro k member
    obtain ⟨-, m, foundM, inside, started⟩ := occ.listed k (listed k member)
    exact ⟨m, foundM, isInvalid_of_inClass inside.2.1, started, (each k member m foundM).2⟩

end Scanning

/-- A piece of an interval that ends where pinned intervals and calls want its register disturbs
nobody, once the other intervals there have been sent away. -/
theorem undisturbed_of_hard (occ : Occupancy c pos [] [id] s)
    (found : s.pool.intervals[id]? = some i) (isStart : i.start = pos) {hard : List Demand}
    (isHard : s.hardDemands c i = .ok hard) {p : IntervalPool} (tidy : p.Tidy (· % 2 = 1))
    (piece : FirstPart i j reg (limit hard reg))
    (fixed : ∀ f ∈ c.fixed, ∀ m, p.intervals[f]? = some m → s.pool.intervals[f]? = some m)
    (left : ∀ (k : IntervalId) (m : Interval), p.intervals[k]? = some m → k ≠ id →
      InRegister c m → m.location.index = reg → pos < m.stop →
      s.pool.intervals[k]? = some m ∧ k ∈ s.inactive ∧
        (m.pinned = true ∨ m.meets? j pos = none)) (sortedJ : Sorted j.ranges) :
    Undisturbed c p [] id j := by
  obtain ⟨active, inactive, calls, isActive, isInactive, isCalls, rfl⟩ := hardDemands_ok isHard
  have sorted := (occ.tidy.fit id i found).sorted
  refine ⟨?_, fun _ => spared_of_limit occ found isCalls (by simp +contextual) piece fixed⟩
  intro k m foundM apart _ inside same q covered
  by_contra both
  simp only [Bool.not_eq_false] at both
  have index : m.location.index = reg := by rw [same, piece.place, index_registerFor]
  obtain ⟨coveredI, early⟩ := piece.covers q covered
  have started := start_le sorted coveredI
  have later : pos ≤ q := isStart ▸ started
  obtain ⟨foundM, isIn, reason⟩ : s.pool.intervals[k]? = some m ∧ k ∈ s.inactive ∧
      (m.pinned = true ∨ m.meets? j pos = none) := by
    exact left k m foundM apart inside index
      (Nat.lt_of_le_of_lt later (lt_stop (tidy.fit k m foundM).sorted both))
  have sortedM := (occ.tidy.fit k m foundM).sorted
  rcases reason with pinned | parted
  · obtain ⟨first, meets, le⟩ := meets_le sortedM sorted started both coveredI
    have demand := demandsOf_ok isInactive isIn foundM inside.2.1 (by rw [if_pos pinned, meets])
    rw [index] at demand
    have : limit (active ++ inactive ++ calls) reg ≤ first := limit_le (by simp [demand])
    lia
  · obtain ⟨first, meets, le⟩ := meets_le sortedM sortedJ later both covered
    simp [parted] at meets

theorem unpinned_of_active {hard : List Demand} (isHard : s.hardDemands c i = .ok hard)
    (member : id ∈ s.active) (found : s.pool.intervals[id]? = some j)
    (inClass : j.location.inClass c.regClass = true) (positive : 0 < limit hard j.location.index) :
    j.pinned = false := by
  obtain ⟨active, inactive, calls, isActive, -, -, rfl⟩ := hardDemands_ok isHard
  by_contra pinned
  have demand := demandsOf_ok isActive member found inClass (if_pos (by simpa using pinned))
  have : limit (active ++ inactive ++ calls) j.location.index ≤ 0 := limit_le (by simp [demand])
  lia

def Live (s : Scan) (pos : Position) : Prop :=
  ∀ k ∈ s.active ++ s.inactive, ∀ m, s.pool.intervals[k]? = some m → pos < m.stop

def Removable (s : Scan) (c : Pass) (reg : Nat) : Prop :=
  ∀ k ∈ s.active, ∀ m, s.pool.intervals[k]? = some m → m.location.inClass c.regClass = true →
    m.location.index = reg → m.pinned = false

theorem Live.after_seize (live : s.Live pos) (occ : Occupancy c pos [] [id] s) {hard : List Demand}
    (isHard : s.hardDemands c i = .ok hard) (positive : 0 < limit hard reg) {t : Scan}
    (same : t.active = s.active ∧ t.inactive = s.inactive)
    (others : ∀ (k : IntervalId) (m : Interval), k ≠ id → s.pool.intervals[k]? = some m →
      t.pool.intervals[k]? = some m) :
    (∀ k ∈ s.active ++ s.inactive, ∀ m, t.pool.intervals[k]? = some m →
      s.pool.intervals[k]? = some m) ∧ t.Live pos ∧ t.Removable c reg := by
  have listed : ∀ k ∈ s.active ++ s.inactive, ∀ m, t.pool.intervals[k]? = some m →
      s.pool.intervals[k]? = some m := by
    intro k member m foundM
    obtain ⟨-, w, foundW, -⟩ := occ.listed k member
    have apart : k ≠ id := by
      rintro rfl
      exact occ.not_listed mem_cons_self member
    obtain rfl := mem_unique (others k w apart foundW) foundM
    exact foundW
  refine ⟨listed, ?_, ?_⟩
  · intro k member m foundM
    rw [same.1, same.2] at member
    exact live k member m (listed k member m foundM)
  · rintro k member m foundM inClass rfl
    rw [same.1] at member
    exact unpinned_of_active isHard member (listed k (by simp [member]) m foundM) inClass positive

namespace Scanning

section

variable {leaving leaving' : List IntervalId} {left : Scan} {k : IntervalId} {m : Interval}

theorem leaving_active
    (live : s.Live pos) (unpinned : s.Removable c reg)
    (isLeaving : s.holders c reg (fun other _ => other != id) s.active = .ok leaving)
    (member : k ∈ leaving) (found : s.pool.intervals[k]? = some m) :
    k ∈ s.active ∧ m.location.inClass c.regClass = true ∧ m.location.index = reg ∧
      m.pinned = false ∧ pos < m.stop := by
  obtain ⟨perm, each⟩ := holders_ok isLeaving
  have isActive := perm.mem_iff.mp (mem_append_left _ member)
  obtain ⟨m', found', iff⟩ := each k isActive
  obtain rfl := mem_unique found found'
  obtain ⟨inClass, index, -⟩ := iff.mp member
  exact ⟨isActive, inClass, index, unpinned k isActive m found inClass index,
    live k (by simp [isActive]) m found⟩

theorem after_sweepActive (scanning : Scanning c arrivals base pos [id] [id] s)
    (live : s.Live pos) (unpinned : s.Removable c reg)
    (isLeaving : s.holders c reg (fun other _ => other != id) s.active = .ok leaving)
    (evicted : leaving.foldlM (evict c pos) { s with active := s.active.filter (· ∉ leaving) } =
      .ok left) :
    Scanning c arrivals base pos [id] [id] left ∧
      Evicted c pos leaving { s with active := s.active.filter (· ∉ leaving) } left ∧
      ∀ (k : IntervalId) (m : Interval), k ∉ s.active → s.pool.intervals[k]? = some m →
        left.pool.intervals[k]? = some m := by
  obtain ⟨perm, -⟩ := holders_ok isLeaving
  obtain ⟨after, gone⟩ := scanning.after_clear
    (by rw [← append_assoc]; exact perm.append_right _) (fun k member m found =>
      (leaving_active live unpinned isLeaving member found).2.2.2) evicted
  refine ⟨after, gone, fun k m outside found => ?_⟩
  rw [gone.others k (found_lt found) fun leaves =>
    outside (perm.mem_iff.mp (mem_append_left _ leaves))]
  exact found

theorem leaving_inactive (occ : Occupancy c pos [id] [id] s)
    (live : s.Live pos)
    (sameList : left.inactive = s.inactive)
    (unmoved : ∀ (k : IntervalId) (m : Interval), k ∉ s.active → s.pool.intervals[k]? = some m →
      left.pool.intervals[k]? = some m)
    (isLeaving' : left.holders c reg (fun _ other => !other.pinned && (other.meets? j pos).isSome)
      left.inactive = .ok leaving')
    (member : k ∈ leaving') (found : left.pool.intervals[k]? = some m) :
    k ∈ s.inactive ∧ s.pool.intervals[k]? = some m ∧ m.location.inClass c.regClass = true ∧
      m.location.index = reg ∧ (m.meets? j pos).isSome = true ∧ m.pinned = false ∧
      pos < m.stop := by
  obtain ⟨perm, each⟩ := holders_ok isLeaving'
  have isIn := perm.mem_iff.mp (mem_append_left _ member)
  obtain ⟨m', found', iff⟩ := each k isIn
  obtain rfl := mem_unique found found'
  obtain ⟨inClass, index, test⟩ := iff.mp member
  simp only [Bool.and_eq_true, Bool.not_eq_true'] at test
  rw [sameList] at isIn
  have parted : k ∉ s.active := fun isActive =>
    (nodup_append.mp occ.listedOnce).2.2 k isActive k isIn rfl
  obtain ⟨-, w, foundW, -⟩ := occ.listed k (by simp [isIn])
  obtain rfl := mem_unique (unmoved k w parted foundW) found
  exact ⟨isIn, foundW, inClass, index, test.2, test.1, live k (by simp [isIn]) w foundW⟩

theorem rest_perm (isLeaving' : left.holders c reg
      (fun _ other => !other.pinned && (other.meets? j pos).isSome) left.inactive = .ok leaving') :
    (leaving' ++ (left.active ++ left.inactive.filter (· ∉ leaving'))).Perm
      (left.active ++ left.inactive) :=
  (perm_append_comm_assoc ..).trans ((holders_ok isLeaving').1.append_left left.active)

end

/-- Everybody else who can be sent away from a register is: those that cover the present position,
and then those that cover a later position of the interval that comes in. -/
theorem after_sweep (scanning : Scanning c arrivals base pos [id] [id] s)
    (found : s.pool.intervals[id]? = some i)
    (live : s.Live pos) (unpinned : s.Removable c reg)
    {leaving leaving' : List IntervalId} {left : Scan}
    (isLeaving : s.holders c reg (fun other _ => other != id) s.active = .ok leaving)
    (evicted : leaving.foldlM (evict c pos) { s with active := s.active.filter (· ∉ leaving) } =
      .ok left)
    (foundJ : left.pool.intervals[id]? = some j)
    (isLeaving' : left.holders c reg (fun _ other => !other.pinned && (other.meets? j pos).isSome)
      left.inactive = .ok leaving')
    (evicted' : leaving'.foldlM (evict c pos)
      { left with inactive := left.inactive.filter (· ∉ leaving') } = .ok s') :
    Scanning c arrivals base pos [id] [id] s' ∧ s'.pool.intervals[id]? = some i ∧
      (∀ (k : IntervalId) (m : Interval), k ∉ s.active ++ s.inactive →
        s.pool.intervals[k]? = some m → s'.pool.intervals[k]? = some m) ∧
      ∀ (k : IntervalId) (m : Interval), s'.pool.intervals[k]? = some m → k ≠ id →
        InRegister c m → m.location.index = reg → pos < m.stop →
        s.pool.intervals[k]? = some m ∧ k ∈ s.inactive ∧
          (m.pinned = true ∨ m.meets? i pos = none) := by
  have occ := scanning.occupancy
  have notListed : id ∉ s.active ++ s.inactive := occ.not_listed mem_cons_self
  -- The first round.
  obtain ⟨-, each⟩ := holders_ok isLeaving
  obtain ⟨after, gone, unmoved⟩ := scanning.after_sweepActive live unpinned isLeaving evicted
  have sameList : left.inactive = s.inactive := gone.inactive
  obtain rfl : i = j := by
    have := unmoved id i (fun member => notListed (mem_append_left _ member)) found
    exact mem_unique this foundJ
  -- The second round.
  obtain ⟨perm', each'⟩ := holders_ok isLeaving'
  rw [sameList] at perm' each'
  have within' : ∀ k ∈ leaving', k ∈ s.inactive := fun k member =>
    perm'.mem_iff.mp (mem_append_left _ member)
  obtain ⟨last, gone'⟩ := after.after_clear (rest_perm isLeaving') (fun k member m foundM =>
    (leaving_inactive occ live sameList unmoved isLeaving' member foundM).2.2.2.2.2) evicted'
  have settled : ∀ (k : IntervalId) (m : Interval), k ∉ s.active ++ s.inactive →
      s.pool.intervals[k]? = some m → s'.pool.intervals[k]? = some m := by
    intro k m outside foundM
    simp only [mem_append, not_or] at outside
    have foundLeft := unmoved k m outside.1 foundM
    rw [gone'.others k (found_lt foundLeft) fun leaves =>
      outside.2 (within' k leaves)]
    exact foundLeft
  refine ⟨last, settled id i notListed found, settled, ?_⟩
  intro k m foundM apart inside index behind
  have foundLeft := gone'.old k m foundM inside behind
  have foundS : s.pool.intervals[k]? = some m := gone.old k m foundLeft inside behind
  have listed := (occ.current k m foundS inside behind).resolve_right (by simp [apart])
  rcases mem_append.mp listed with isActive | isInactive
  · obtain ⟨m', foundM', iff⟩ := each k isActive
    obtain rfl := mem_unique foundS foundM'
    have leaves := iff.mpr ⟨inside.2.1, index, by simpa using apart⟩
    have := gone.gone k leaves m foundLeft inside
    lia
  · refine ⟨foundS, isInactive, ?_⟩
    by_contra neither
    simp only [not_or, Bool.not_eq_true] at neither
    obtain ⟨m', foundM', iff⟩ := each' k isInactive
    obtain rfl := mem_unique foundLeft foundM'
    have leaves := iff.mpr ⟨inside.2.1, index, by
      simpa [neither.1, isSome_iff_ne_none] using neither.2⟩
    have := gone'.gone k leaves m foundM inside
    lia

theorem after_takeOver (proper : Pass.ZeroFree c) (scanning : Scanning c arrivals base pos [] [id] s)
    (found : s.pool.intervals[id]? = some i) (isStart : i.start = pos) (live : s.Live pos)
    {hard : List Demand} (isHard : s.hardDemands c i = .ok hard)
    (allowed : c.regs.contains reg = true) (late : i.start < gapBefore (limit hard reg))
    (run : s.takeOver c id i.start reg (limit hard reg) = .ok s') :
    Scanning c arrivals base pos [] [id] s' ∧
      ∃ j, s'.pool.intervals[id]? = some j ∧ InRegister c j ∧ j.start = pos := by
  have occ := scanning.occupancy
  have isMine := (occ.held_mine mem_cons_self found).1
  have positive : 0 < limit hard reg := by
    have := gapBefore_le (limit hard reg)
    lia
  obtain ⟨given, i', cut, leaving, left, j, leaving', assigned, isGiven, split, isLeaving, evicted,
    foundJ, isLeaving', evicted'⟩ := takeOver_ok run
  obtain ⟨seized, ⟨sameActive, sameInactive⟩, ⟨piece, isPiece, isPart, ty, physical, sorted⟩, old,
    same⟩ := scanning.after_seize found late assigned isGiven split
  rw [isStart] at evicted isLeaving' evicted'
  obtain ⟨listed, live', unpinned⟩ :=
    live.after_seize occ isHard positive ⟨sameActive, sameInactive⟩ same
  obtain ⟨swept, isPiece', unmoved, remaining⟩ :=
    seized.after_sweep isPiece live' unpinned isLeaving evicted foundJ isLeaving' evicted'
  have inside : InRegister c piece :=
    inRegister_assigned proper isMine allowed ⟨ty, physical⟩ isPart.place
  refine ⟨swept.with_lists (swept.occupancy.of_undisturbed not_mem_nil ?_), piece, isPiece', inside,
    isPart.start.trans isStart⟩
  intro piece' foundPiece _
  obtain rfl := mem_unique isPiece' foundPiece
  refine undisturbed_of_hard occ found isStart isHard swept.occupancy.tidy isPart ?_ ?_ sorted
  · intro f member m foundM
    obtain ⟨w, foundW, isPhysical⟩ := occ.fixed f member
    have apart : f ≠ id := by
      rintro rfl
      exact occ.not_fixed found isMine.1 member
    obtain rfl : w = m := by
      refine mem_unique (unmoved f w ?_ (same f w apart foundW)) foundM
      intro isListed
      obtain ⟨-, w', foundW', insideW, -⟩ := seized.occupancy.listed f isListed
      exact seized.occupancy.not_fixed foundW' insideW.1.1 member
    exact foundW
  · intro k m foundM apart insideM index behind
    obtain ⟨foundCut, isInactive, reason⟩ := remaining k m foundM apart insideM index behind
    exact ⟨old k m foundCut apart (.inl insideM), sameInactive ▸ isInactive, reason⟩

end Scanning

end Scan

end RegisterAllocation
