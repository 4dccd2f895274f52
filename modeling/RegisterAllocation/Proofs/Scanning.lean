import RegisterAllocation.Proofs.Demands
import RegisterAllocation.Proofs.Storage

/-!
The scan of a register class keeps registers and memory in order: the operations on single
intervals, and the search for a free register.
-/

namespace RegisterAllocation

open List Option Interval IntervalPool Location

namespace Scan

def Pass.ZeroFree (c : Pass) : Prop :=
  ∀ reg ty, c.regs.contains reg = true → c.target.isZeroReg (.registerFor reg ty) = false

structure Scanning (c : Pass) (arrivals : Arrivals) (base : Scan) (pos : Position)
    (raw hold : List IntervalId) (s : Scan) : Prop where
  occupancy : Occupancy c pos raw hold s
  storage : ∃ lo, Storage c.regClass arrivals pos lo s.pool s.frame
  kept : ∀ (id : IntervalId) (i : Interval), base.pool.intervals[id]? = some i →
    (¬Mine c i ∨ i.pinned = true) → s.pool.intervals[id]? = some i
  mine : ∀ (id : IntervalId) (i : Interval), s.pool.intervals[id]? = some i →
    Mine c i ∨ base.pool.intervals[id]? = some i
  origin : ∀ (id : IntervalId) (i : Interval) (d : InstrId), s.pool.intervals[id]? = some i →
    i.definedBy = some d → ∃ i₀, base.pool.intervals[id]? = some i₀ ∧ i₀.definedBy = some d ∧
      i₀.value = i.value ∧ i₀.start = i.start
  kind : ∀ (id : IntervalId) (i : Interval), s.pool.intervals[id]? = some i → Mine c i →
    i.location.isAnyRegister = true → i.location.inClass c.regClass = true
  homes : ∀ v, (∀ i, OfValue s.pool v i → ¬Mine c i) → s.frame.home? v = base.frame.home? v
  pins : ∀ (id : IntervalId) (i : Interval), s.pool.intervals[id]? = some i → i.pinned = true →
    base.pool.intervals[id]? = some i

variable {c : Pass} {arrivals : Arrivals} {base : Scan} {pos cut : Position}
  {raw hold : List IntervalId} {s s' : Scan} {id child : IntervalId} {i j : Interval}

namespace Scanning

section

variable (scanning : Scanning c arrivals base pos raw hold s)

include scanning

theorem after_divide (held : id ∈ hold)
    (found : s.pool.intervals[id]? = some i) (late : i.start < cut) (inside : cut < i.stop)
    (odd : cut % 2 = 1) :
    Scanning c arrivals base pos raw (s.pool.size :: hold)
      { s with pool := s.pool.divided id i cut } := by
  have occ := scanning.occupancy
  have fit := occ.tidy.fit id i found
  obtain ⟨isMine, unpinned⟩ := occ.held_mine held found
  obtain ⟨lo, storage⟩ := scanning.storage
  refine ⟨occ.after_divide held found late inside odd,
    ⟨lo, storage.after_divide fit found late inside⟩, ?_, ?_, ?_, ?_, ?_, ?_⟩
  · intro k m foundM reason
    have before := scanning.kept k m foundM reason
    refine divided_other found ?_ before
    rintro rfl
    obtain rfl := mem_unique found before
    rcases reason with foreign | pinned
    · exact foreign isMine
    · simp [unpinned] at pinned
  · intro k m foundM
    rcases divided_cases found foundM with ⟨rfl, rfl⟩ | ⟨rfl, rfl⟩ | ⟨-, before⟩
    · exact .inl isMine
    · exact .inl ⟨rfl, isMine.2⟩
    · exact scanning.mine k m before
  · intro k m d foundM defined
    rcases divided_cases found foundM with ⟨rfl, rfl⟩ | ⟨rfl, rfl⟩ | ⟨-, before⟩
    · obtain ⟨i₀, foundI₀, defined₀, value, start⟩ := scanning.origin k i d found defined
      exact ⟨i₀, foundI₀, defined₀, value,
        start.trans (start_upTo fit.sorted late inside).symm⟩
    · simp [Interval.rest] at defined
    · exact scanning.origin k m d before defined
  · intro k m foundM isMine' register
    rcases divided_cases found foundM with ⟨rfl, rfl⟩ | ⟨rfl, rfl⟩ | ⟨-, before⟩
    · exact scanning.kind k i found isMine register
    · simp [Interval.rest] at register
    · exact scanning.kind k m before isMine' register
  · intro v foreign
    refine scanning.homes v ?_
    rintro m ⟨k, foundM, own⟩
    by_cases here : k = id
    · subst here
      obtain rfl := mem_unique found foundM
      exact absurd isMine (foreign { i.upTo cut with sibling := some s.pool.size }
        ⟨k, divided_kept found cut, own⟩)
    · exact foreign m ⟨k, divided_other found here foundM, own⟩
  · intro k m foundM pinned
    rcases divided_cases found foundM with ⟨rfl, rfl⟩ | ⟨rfl, rfl⟩ | ⟨-, before⟩
    · simp [upTo, unpinned] at pinned
    · simp [Interval.rest] at pinned
    · exact scanning.pins k m before pinned

theorem after_relabel (held : id ∈ hold)
    (found : s.pool.intervals[id]? = some i) (same : i.Relabelled j) (unpinned : j.pinned = false)
    (kind : j.location.isAnyRegister = true → j.location.inClass c.regClass = true)
    {frame : Frame} {lo : ValueId → Position}
    (storage : Storage c.regClass arrivals pos lo (s.pool.set id j) frame)
    (homes : ∀ v, i.value ≠ some v → frame.home? v = s.frame.home? v) :
    Scanning c arrivals base pos (id :: raw) hold { s with pool := s.pool.set id j, frame } := by
  have occ := scanning.occupancy
  obtain ⟨isMine, unpinnedI⟩ := occ.held_mine held found
  have mineJ : Mine c j := by
    refine ⟨same.physical_eq.trans isMine.1, ?_⟩
    rw [regClass, same.ty_eq]
    exact isMine.2
  refine ⟨(occ.after_relabel held found same unpinned).with_frame, ⟨lo, storage⟩, ?_, ?_, ?_,
    ?_, ?_, ?_⟩
  · intro k m foundM reason
    have before := scanning.kept k m foundM reason
    have other : k ≠ id := by
      rintro rfl
      obtain rfl := mem_unique found before
      rcases reason with foreign | pinned
      · exact foreign isMine
      · simp [unpinnedI] at pinned
    rwa [set_other other]
  · intro k m foundM
    rcases set_cases found foundM with ⟨rfl, rfl⟩ | ⟨-, foundM⟩
    · exact .inl mineJ
    · exact scanning.mine k m foundM
  · intro k m d foundM defined
    rcases set_cases found foundM with ⟨rfl, rfl⟩ | ⟨-, foundM⟩
    · rw [same.definedBy_eq] at defined
      obtain ⟨i₀, foundI₀, defined₀, value, start⟩ := scanning.origin id i d found defined
      exact ⟨i₀, foundI₀, defined₀, value.trans same.value_eq.symm, start.trans same.start_eq.symm⟩
    · exact scanning.origin k m d foundM defined
  · intro k m foundM isMine' register
    rcases set_cases found foundM with ⟨rfl, rfl⟩ | ⟨-, foundM⟩
    · exact kind register
    · exact scanning.kind k m foundM isMine' register
  · intro v foreign
    have isJ := set_self found j
    have apart : i.value ≠ some v := fun own => foreign j ⟨id, isJ, same.value_eq.trans own⟩ mineJ
    rw [homes v apart]
    refine scanning.homes v ?_
    rintro m ⟨k, foundM, own⟩
    have other : k ≠ id := by
      rintro rfl
      obtain rfl := mem_unique found foundM
      exact apart own
    exact foreign m ⟨k, by rwa [set_other other], own⟩
  · intro k m foundM pinned
    rcases set_cases found foundM with ⟨rfl, rfl⟩ | ⟨-, foundM⟩
    · simp [unpinned] at pinned
    · exact scanning.pins k m foundM pinned

theorem with_lists {raw' hold' queue active inactive : List IntervalId}
    (occ : Occupancy c pos raw' hold' { s with queue, active, inactive }) :
    Scanning c arrivals base pos raw' hold' { s with queue, active, inactive } :=
  ⟨occ, scanning.storage, scanning.kept, scanning.mine, scanning.origin, scanning.kind,
    scanning.homes, scanning.pins⟩

end

theorem insertByStart_perm {p : IntervalPool} {start : Position} {queue queue' : List IntervalId}
    (run : insertByStart p id start queue = .ok queue') : queue'.Perm (id :: queue) := by
  induction queue generalizing queue' with
  | nil =>
    obtain rfl : [id] = queue' := by simpa [insertByStart] using run
    exact .refl _
  | cons other rest ih =>
    simp only [insertByStart, bind_ok] at run
    obtain ⟨m, -, run⟩ := run
    split at run
    · simp only [bind_ok, pure_ok] at run
      obtain ⟨tail, run, rfl⟩ := run
      exact ((ih run).cons other).trans (.swap id other rest)
    · split at run
      · obtain rfl := pure_ok.mp run
        exact .swap id other rest
      · obtain rfl := pure_ok.mp run
        exact .refl _

theorem enqueue_ok (run : s.enqueue id = .ok s') :
    ∃ queue, s' = { s with queue } ∧ queue.Perm (id :: s.queue) := by
  simp only [enqueue, bind_ok, pure_ok] at run
  obtain ⟨start, -, queue, inserted, rfl⟩ := run
  exact ⟨queue, rfl, insertByStart_perm inserted⟩

theorem after_enqueue (scanning : Scanning c arrivals base pos raw (id :: hold) s)
    (invalid : ∀ i, s.pool.intervals[id]? = some i → i.location.isInvalid = true)
    (run : s.enqueue id = .ok s') :
    Scanning c arrivals base pos raw hold s' ∧ ∃ queue, s' = { s with queue } := by
  obtain ⟨queue, rfl, same⟩ := enqueue_ok run
  exact ⟨scanning.with_lists (scanning.occupancy.after_enqueue invalid same), queue, rfl⟩

theorem perm (scanning : Scanning c arrivals base pos raw hold s) {hold' : List IntervalId}
    (same : hold.Perm hold') : Scanning c arrivals base pos raw hold' s :=
  scanning.with_lists (scanning.occupancy.perm same)

theorem splitAt_divided {child : IntervalId} {cut : Position} (found : s.pool.intervals[id]? = some i)
    (late : i.start < cut) (run : s.splitAt id cut = .ok (child, s')) :
    cut < i.stop ∧ child = s.pool.size ∧ s' = { s with pool := s.pool.divided id i cut } := by
  simp only [splitAt, bind_ok, pure_ok, Prod.exists, Prod.mk.injEq] at run
  obtain ⟨child', pool, split, rfl, rfl⟩ := run
  obtain ⟨i', found', -, early | ⟨-, inside, rfl, rfl⟩⟩ := splitAt_ok split
  · obtain rfl := mem_unique found found'
    lia
  · obtain rfl := mem_unique found found'
    exact ⟨inside, rfl, rfl⟩

theorem after_splitAndQueue (scanning : Scanning c arrivals base pos raw hold s) (held : id ∈ hold)
    (found : s.pool.intervals[id]? = some i) (late : i.start < cut) (odd : cut % 2 = 1)
    (run : s.splitAndQueue id cut = .ok s') :
    cut < i.stop ∧ Scanning c arrivals base pos raw hold s' ∧
      ∃ queue, s' = { s with pool := s.pool.divided id i cut, queue } := by
  simp only [splitAndQueue, bind_ok, Prod.exists] at run
  obtain ⟨child, mid, split, run⟩ := run
  obtain ⟨inside, rfl, rfl⟩ := splitAt_divided found late split
  refine ⟨inside, (scanning.after_divide held found late inside odd).after_enqueue ?_ run⟩
  intro m foundM
  obtain rfl := mem_unique (divided_rest found cut) foundM
  rfl

theorem modify_place {place : Interval → Location}
    (run : s.modify id (fun i => i.place (place i)) = .ok s') :
    ∃ i, s.pool.intervals[id]? = some i ∧
      s' = { s with pool := s.pool.set id { i with location := place i } } := by
  simp only [modify, bind_ok, pure_ok] at run
  obtain ⟨pool, run, rfl⟩ := run
  obtain ⟨i, j, found, placed, rfl⟩ := modify_ok run
  simp only [Interval.place, bind_ok, ensure_ok, pure_ok] at placed
  obtain ⟨_, -, rfl⟩ := placed
  exact ⟨i, found, rfl⟩

theorem inClass_registerFor {ty : ValueType} {reg : Nat} :
    (registerFor reg ty).inClass ty.regClass = true := by
  cases ty <;> rfl

theorem isAnyRegister_of_inClass {l : Location} {k : RegisterClass} (inside : l.inClass k = true) :
    l.isAnyRegister = true := by
  cases k <;> simp_all [Location.inClass, isAnyRegister]

theorem isAnyRegister_of_isMemory {l : Location} (memory : l.isMemory = true) :
    l.isAnyRegister = false := by
  obtain ⟨kind, index⟩ := l
  cases kind <;> simp_all [Location.isMemory, isAnyRegister, isStack,
    isStackSlot, isStackParameter, isImmediate, isRegister,
    isFpRegister]

theorem after_assign (scanning : Scanning c arrivals base pos raw hold s)
    (held : id ∈ hold) {reg : Nat} (run : s.assign id reg = .ok s') :
    ∃ i, s.pool.intervals[id]? = some i ∧
      s' = { s with pool := s.pool.set id { i with location := .registerFor reg i.ty } } ∧
      Scanning c arrivals base pos (id :: raw) hold s' := by
  obtain ⟨i, found, rfl⟩ := modify_place run
  obtain ⟨isMine, unpinned⟩ := scanning.occupancy.held_mine held found
  obtain ⟨lo, storage⟩ := scanning.storage
  have inClass : (registerFor reg i.ty).inClass c.regClass = true := by
    rw [← isMine.2]
    exact inClass_registerFor
  have outside : (registerFor reg i.ty).isMemory = false := by
    cases i.ty <;> rfl
  have same : i.Relabelled { i with location := .registerFor reg i.ty } := rfl
  refine ⟨i, found, rfl, ?_⟩
  exact scanning.after_relabel held found same unpinned (fun _ => inClass)
    (storage.after_relabel found same outside) fun _ _ => rfl

theorem after_settle (scanning : Scanning c arrivals base pos (id :: raw) hold s) (fresh : id ∉ raw)
    (outside : ∀ i, s.pool.intervals[id]? = some i → ¬InRegister c i) :
    Scanning c arrivals base pos raw hold s :=
  scanning.with_lists (scanning.occupancy.of_undisturbed fresh fun i found inside =>
    absurd inside (outside i found))

theorem after_vacate (scanning : Scanning c arrivals base pos raw hold s) (held : id ∈ hold)
    (fresh : id ∉ raw) (run : s.modify id (·.place .invalid) = .ok s') :
    ∃ i, s.pool.intervals[id]? = some i ∧
      s' = { s with pool := s.pool.set id { i with location := .invalid } } ∧
      Scanning c arrivals base pos raw hold s' := by
  obtain ⟨i, found, rfl⟩ := modify_place run
  obtain ⟨isMine, unpinned⟩ := scanning.occupancy.held_mine held found
  obtain ⟨lo, storage⟩ := scanning.storage
  have same : i.Relabelled { i with location := .invalid } := rfl
  have after := scanning.after_relabel held found same unpinned
    (by simp) (storage.after_relabel found same rfl) fun _ _ => rfl
  refine ⟨i, found, rfl, after.after_settle fresh ?_⟩
  intro m foundM inside
  obtain rfl := mem_unique (set_self found _) foundM
  have := isInvalid_of_inClass inside.2.1
  simp at this

theorem spill_ok (run : s.spill c id = .ok s') :
    ∃ i v constant? stop l frame, s.pool.intervals[id]? = some i ∧ i.value = some v ∧
      s.pool.chainEnd i.root = .ok stop ∧
      s.frame.spill v constant? i.start stop = .ok (l, frame) ∧
      (s.frame.home? v = none → c.graph.constantOf? v = .ok constant?) ∧
      s' = { s with
        pool := s.pool.set id { i with location := l }
        frame := { frame with spilled := frame.spilled + 1 } } := by
  simp only [spill, bind_ok, lift_ok, ensure_ok, get_ok] at run
  obtain ⟨i, found, _, -, run⟩ := run
  cases own : i.value with
  | none =>
    simp only [own] at run
    exact absurd run refuse_ne_ok
  | some v =>
    obtain ⟨constant?, isConstant, stop, isStop, l, frame, spilled, run⟩ : ∃ constant?,
        (s.frame.home? v = none → c.graph.constantOf? v = .ok constant?) ∧ ∃ stop,
        s.pool.chainEnd i.root = .ok stop ∧ ∃ l frame,
        s.frame.spill v constant? i.start stop = .ok (l, frame) ∧
        ({ s with frame := { frame with spilled := frame.spilled + 1 } } : Scan).modify id
          (·.place l) = .ok s' := by
      cases home : s.frame.home? v with
      | some place =>
        simp only [own, home, bind_ok, lift_ok, pure_ok, exists_eq_left', Prod.exists] at run
        exact ⟨none, by simp, run⟩
      | none =>
        simp only [own, home, bind_ok, lift_ok, Prod.exists] at run
        obtain ⟨constant?, isConstant, run⟩ := run
        exact ⟨constant?, fun _ => isConstant, run⟩
    obtain ⟨i', found', rfl⟩ := modify_place run
    obtain rfl := mem_unique found found'
    exact ⟨i, v, constant?, stop, l, frame, found, own, isStop, spilled, isConstant, rfl⟩

theorem after_spill (scanning : Scanning c arrivals base pos raw hold s) (held : id ∈ hold)
    (fresh : id ∉ raw) (found : s.pool.intervals[id]? = some i)
    (first : ∀ (k : IntervalId) (m : Interval), s.pool.intervals[k]? = some m →
      m.value = i.value → pos < m.stop → i.start ≤ m.start)
    (behind : pos < i.stop) (run : s.spill c id = .ok s') :
    ∃ l frame, l.isMemory = true ∧
      s' = { s with pool := s.pool.set id { i with location := l }, frame } ∧
      Scanning c arrivals base pos raw hold s' := by
  obtain ⟨i', v, constant?, stop, l, frame, found', own, isStop, spilled, -, rfl⟩ := spill_ok run
  obtain rfl := mem_unique found found'
  have occ := scanning.occupancy
  obtain ⟨isMine, unpinned⟩ := occ.held_mine held found
  obtain ⟨lo, storage⟩ := scanning.storage
  have same : i.Relabelled { i with location := l } := rfl
  have within : ∀ m, OfValue s.pool v m → m.stop ≤ stop := by
    rintro m ⟨k, foundM, ownM⟩
    exact occ.tidy.stop_le_chainEnd found own isStop foundM ownM
  obtain ⟨isMemory, lo', storage'⟩ :=
    storage.after_spill found own isMine.2
      (fun m ⟨k, foundM, ownM⟩ => first k m foundM (ownM.trans own.symm))
      ((occ.tidy.fit id i found).start_lt isMine.1) behind within spilled same rfl
  have noRegister := isAnyRegister_of_isMemory isMemory
  have counted : Storage c.regClass arrivals pos lo' (s.pool.set id { i with location := l })
      { frame with spilled := frame.spilled + 1 } :=
    ⟨storage'.home, storage'.kinds, storage'.room, storage'.since, storage'.turns⟩
  have homes : ∀ w, i.value ≠ some w → frame.home? w = s.frame.home? w := by
    intro w apart
    rcases Frame.spill_ok spilled with ⟨-, rfl⟩ | ⟨-, housed, -⟩
    · rfl
    · rw [housed.home, if_neg]
      rintro rfl
      exact apart own
  have after := scanning.after_relabel held found same unpinned (by simp [noRegister]) counted homes
  refine ⟨l, _, isMemory, rfl, after.after_settle fresh ?_⟩
  intro m foundM inside
  obtain rfl := mem_unique (set_self found _) foundM
  have := isAnyRegister_of_inClass inside.2.1
  simp [noRegister] at this

end Scanning

variable {reg : Nat} {limit' : Position}

theorem index_registerFor {ty : ValueType} : (registerFor reg ty).index = reg := by
  cases ty <;> rfl

theorem freeDemands_ok {demands : List Demand} (run : s.freeDemands c i = .ok demands) :
    ∃ active inactive calls, s.demandsOf c (fun _ => some 0) s.active = .ok active ∧
      s.demandsOf c (·.meets? i i.start) s.inactive = .ok inactive ∧
      s.callDemands c i = .ok calls ∧ demands = active ++ inactive ++ calls := by
  simp only [freeDemands, bind_ok, pure_ok] at run
  obtain ⟨active, isActive, inactive, isInactive, calls, isCalls, rfl⟩ := run
  exact ⟨active, inactive, calls, isActive, isInactive, isCalls, rfl⟩

structure FirstPart (i j : Interval) (reg : Nat) (stop : Position) : Prop where
  start : j.start = i.start
  definedBy : j.definedBy = i.definedBy
  covers : ∀ q, j.covers q = true → i.covers q = true ∧ q < stop
  place : j.location = .registerFor reg i.ty

theorem spared_of_limit (occ : Occupancy c pos [] [id] s) (found : s.pool.intervals[id]? = some i)
    {demands calls : List Demand} (isCalls : s.callDemands c i = .ok calls)
    (among : ∀ d ∈ calls, d ∈ demands) {p : IntervalPool}
    (piece : FirstPart i j reg (limit demands reg))
    (fixed : ∀ f ∈ c.fixed, ∀ m, p.intervals[f]? = some m → s.pool.intervals[f]? = some m) :
    ∀ f ∈ c.fixed, ∀ m, p.intervals[f]? = some m → m.location = j.location →
      ∀ q, j.covers q = true → m.covers q = true → q = j.start ∧ CallResult c.graph j := by
  intro f member m foundM same q covered destroyed
  replace foundM := fixed f member m foundM
  obtain ⟨coveredI, early⟩ := piece.covers q covered
  have index : m.location.index = reg := by rw [same, piece.place, index_registerFor]
  have below : ∀ q, (m.location.index, q) ∈ calls → limit demands reg ≤ q := by
    intro q demand
    rw [index] at demand
    exact limit_le (among _ demand)
  obtain ⟨isStart, d, x, defined, rest⟩ := spared_by_calls isCalls member foundM
    (occ.tidy.fit id i found).sorted (occ.tidy.fit f m foundM).sorted below coveredI destroyed early
  exact ⟨isStart.trans piece.start.symm, d, x, piece.definedBy.trans defined, rest⟩

theorem undisturbed_of_free (occ : Occupancy c pos [] [id] s) (found : s.pool.intervals[id]? = some i)
    (isStart : i.start = pos) {demands : List Demand} (isFree : s.freeDemands c i = .ok demands)
    {p : IntervalPool} (piece : FirstPart i j reg (limit demands reg))
    (others : ∀ (k : IntervalId) (m : Interval), p.intervals[k]? = some m → k ≠ id →
      InRegister c m ∨ k ∈ c.fixed → s.pool.intervals[k]? = some m) :
    Undisturbed c p [] id j := by
  obtain ⟨active, inactive, calls, isActive, isInactive, isCalls, rfl⟩ := freeDemands_ok isFree
  have sorted := (occ.tidy.fit id i found).sorted
  have isMine := (occ.held_mine mem_cons_self found).1
  have below : ∀ q, (reg, q) ∈ active ++ inactive ++ calls →
      limit (active ++ inactive ++ calls) reg ≤ q := fun q => limit_le
  refine ⟨?_, fun _ => spared_of_limit occ found isCalls (by simp +contextual) piece ?_⟩
  · intro k m foundM apart _ inside same q covered
    by_contra both
    simp only [Bool.not_eq_false] at both
    replace foundM := others k m foundM apart (.inl inside)
    obtain ⟨coveredI, early⟩ := piece.covers q covered
    have sortedM := (occ.tidy.fit k m foundM).sorted
    have started := start_le sorted coveredI
    have behind : pos < m.stop := by
      have := lt_stop sortedM both
      lia
    have index : m.location.index = reg := by rw [same, piece.place, index_registerFor]
    have listed := (occ.current k m foundM inside behind).resolve_right (by simp [apart])
    rcases mem_append.mp listed with isIn | isIn
    · have demand := demandsOf_ok isActive isIn foundM inside.2.1 rfl
      rw [index] at demand
      have := below 0 (by simp [demand])
      lia
    · obtain ⟨first, meets, le⟩ := meets_le sortedM sorted started both coveredI
      have demand := demandsOf_ok isInactive isIn foundM inside.2.1 meets
      rw [index] at demand
      have := below first (by simp [demand])
      lia
  · intro f member m foundM
    refine others f m foundM ?_ (.inr member)
    rintro rfl
    exact occ.not_fixed found isMine.1 member

theorem hinted_ok {limitOf : Nat → Position} (hint : hinted? c i limitOf = some reg) :
    c.regs.contains reg = true := by
  simp only [hinted?, filter_eq_some_iff, Bool.and_eq_true] at hint
  exact hint.2.1

theorem gapBefore_le (pos : Position) : gapBefore pos ≤ pos := by
  unfold gapBefore
  split <;> lia

theorem gapBefore_odd {pos : Position} (positive : 0 < gapBefore pos) : gapBefore pos % 2 = 1 := by
  unfold gapBefore at positive ⊢
  split <;> grind

theorem tryFree_ok (run : s.tryFree c id = .ok (some s')) :
    ∃ i demands reg, s.pool.intervals[id]? = some i ∧ s.freeDemands c i = .ok demands ∧
      c.regs.contains reg = true ∧ i.start < limit demands reg ∧
      ((i.stop ≤ limit demands reg ∧ s.assign id reg = .ok s') ∨
        ∃ mid, i.start < gapBefore (limit demands reg) ∧
          s.splitAndQueue id (gapBefore (limit demands reg)) = .ok mid ∧
          mid.assign id reg = .ok s') := by
  simp only [tryFree, bind_ok, get_ok] at run
  obtain ⟨i, found, demands, isFree, run⟩ := run
  split at run
  · simp at run
  · rename_i reg pos isBest
    obtain ⟨inside, rfl⟩ : c.regs.contains reg = true ∧ pos = limit demands reg := by
      split at isBest
      · rename_i hinted hint
        obtain ⟨rfl, rfl⟩ := Prod.mk.inj (some.inj isBest)
        exact ⟨hinted_ok hint, rfl⟩
      · obtain ⟨member, rfl, -⟩ := furthest_ok isBest
        exact ⟨RegisterSet.mem_toList.mp member, rfl⟩
    refine ⟨i, demands, reg, found, isFree, inside, ?_⟩
    split at run
    · simp at run
    rename_i late
    refine ⟨Nat.lt_of_not_le late, ?_⟩
    split at run
    · split at run
      · simp at run
      · rename_i gap
        simp only [bind_ok, pure_ok, some.injEq] at run
        obtain ⟨mid, split, last, assigned, rfl⟩ := run
        exact .inr ⟨mid, Nat.lt_of_not_le gap, split, assigned⟩
    · rename_i whole
      simp only [bind_ok, pure_ok, some.injEq] at run
      obtain ⟨last, assigned, rfl⟩ := run
      exact .inl ⟨Nat.le_of_not_lt whole, assigned⟩

namespace Scanning

theorem inRegister_assigned (proper : Pass.ZeroFree c) (isMine : Mine c i)
    (inside : c.regs.contains reg = true)
    (same : j.ty = i.ty ∧ j.physical = i.physical) (place : j.location = .registerFor reg i.ty) :
    InRegister c j := by
  have isMineJ : Mine c j := by
    refine ⟨same.2.trans isMine.1, ?_⟩
    rw [regClass, same.1]
    exact isMine.2
  refine ⟨isMineJ, ?_, ?_⟩
  · rw [place, ← isMine.2]
    exact inClass_registerFor
  · rw [place]
    exact proper reg i.ty inside

theorem after_tryFree (proper : Pass.ZeroFree c) (scanning : Scanning c arrivals base pos [] [id] s)
    (isStart : ∀ i, s.pool.intervals[id]? = some i → i.start = pos)
    (run : s.tryFree c id = .ok (some s')) :
    Scanning c arrivals base pos [] [id] s' ∧
      ∃ j, s'.pool.intervals[id]? = some j ∧ InRegister c j ∧ j.start = pos := by
  obtain ⟨i, demands, reg, found, isFree, inside, positive, step⟩ := tryFree_ok run
  have occ := scanning.occupancy
  have fit := occ.tidy.fit id i found
  have isMine := (occ.held_mine mem_cons_self found).1
  rcases step with ⟨whole, assigned⟩ | ⟨mid, gap, split, assigned⟩
  · obtain ⟨i', found', rfl, after⟩ := scanning.after_assign mem_cons_self assigned
    obtain rfl := mem_unique found found'
    have isJ := set_self found { i with location := .registerFor reg i.ty }
    refine ⟨after.with_lists (after.occupancy.of_undisturbed not_mem_nil ?_), _, isJ,
      inRegister_assigned proper isMine inside ⟨rfl, rfl⟩ rfl, isStart i found⟩
    intro j foundJ _
    obtain rfl := mem_unique isJ foundJ
    refine undisturbed_of_free occ found (isStart i found) isFree ⟨rfl, rfl, ?_, rfl⟩ ?_
    · intro q covered
      exact ⟨covered, Nat.lt_of_lt_of_le (lt_stop fit.sorted covered) whole⟩
    · intro k m foundM apart _
      rwa [set_other apart] at foundM
  · have odd := gapBefore_odd (Nat.zero_lt_of_lt gap)
    obtain ⟨before, scanning', queue, rfl⟩ :=
      scanning.after_splitAndQueue mem_cons_self found gap odd split
    obtain ⟨k, foundK, rfl, after⟩ := scanning'.after_assign mem_cons_self assigned
    obtain rfl := mem_unique (divided_kept found _) foundK
    have isJ := intervals_set foundK
      { i.upTo (gapBefore (limit demands reg)) with
        sibling := some s.pool.size, location := .registerFor reg i.ty } id
    rw [if_pos rfl] at isJ
    have start : (i.upTo (gapBefore (limit demands reg))).start = i.start :=
      start_upTo fit.sorted gap before
    refine ⟨after.with_lists (after.occupancy.of_undisturbed not_mem_nil ?_), _, isJ,
      inRegister_assigned proper isMine inside ⟨rfl, rfl⟩ rfl, start.trans (isStart i found)⟩
    intro j foundJ _
    obtain rfl := mem_unique isJ foundJ
    refine undisturbed_of_free occ found (isStart i found) isFree ⟨start, rfl, ?_, rfl⟩ ?_
    · intro q covered
      obtain ⟨coveredI, early⟩ := covers_upTo.mp covered
      exact ⟨coveredI, Nat.lt_of_lt_of_le early (gapBefore_le _)⟩
    · intro k m foundM apart reason
      rw [set_other apart] at foundM
      rcases divided_cases found foundM with ⟨rfl, -⟩ | ⟨rfl, rfl⟩ | ⟨-, old⟩
      · exact absurd rfl apart
      · exact absurd reason (not_or.mpr ⟨Occupancy.rest_outside i _, occ.size_notFixed⟩)
      · exact old

end Scanning

end Scan

end RegisterAllocation
