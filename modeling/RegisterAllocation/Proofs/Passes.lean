import RegisterAllocation.Proofs.Receiving

/-!
A whole pass over a register class: first intervals are received, and the queue is drained. The
intervals of the other class stay as they are.
-/

namespace RegisterAllocation

open List Option Interval Location

namespace Scan

variable {c : Pass} {arrivals : Arrivals} {last : Position} {p p' : IntervalPool} {f f' : Frame}
  {s s' : Scan} {id : IntervalId} {i : Interval} {v : ValueId} {l : Location}

theorem mem_rootsOf {cls : RegisterClass} : (id, i) ∈ rootsOf p cls ↔ p.intervals[id]? = some i ∧
    i.physical = false ∧ i.splitOff = false ∧ i.ranges ≠ [] ∧ i.regClass = cls := by
  simp only [rootsOf, mem_filter, List.mem_map, Prod.exists, Prod.swap_prod_mk, Prod.mk.injEq,
    Bool.and_eq_true, Bool.not_eq_true', beq_iff_eq, Interval.isEmpty, isEmpty_eq_false_iff]
  constructor
  · rintro ⟨⟨i', id', member, rfl, rfl⟩, rest⟩
    exact ⟨by simpa using mk_mem_zipIdx_iff_getElem?.mp member, by tauto⟩
  · rintro ⟨found, rest⟩
    exact ⟨⟨i, id, mk_mem_zipIdx_iff_getElem?.mpr (by simpa using found), rfl, rfl⟩, by tauto⟩

theorem rootsOf_nodup (p : IntervalPool) (cls : RegisterClass) :
    ((rootsOf p cls).map Prod.fst).Nodup := by
  refine Nodup.sublist (filter_sublist.map Prod.fst) ?_
  simp only [List.map_map]
  have : (Prod.fst ∘ Prod.swap : Interval × Nat → Nat) = Prod.snd := rfl
  rw [this, zipIdx_map_snd]
  exact nodup_range'

theorem foldl_max_cases (xs : List Position) (a : Position) :
    xs.foldl max a = a ∨ xs.foldl max a ∈ xs := by
  induction xs generalizing a with
  | nil => exact .inl rfl
  | cons x rest ih =>
    rw [foldl_cons]
    rcases ih (max a x) with same | member
    · rw [same]
      rcases Nat.le_total a x with le | le
      · exact .inr (by simp [Nat.max_eq_right le])
      · exact .inl (Nat.max_eq_left le)
    · exact .inr (mem_cons_of_mem x member)

theorem le_foldl_max {xs : List Position} {x : Position} (member : x ∈ xs) (a : Position) :
    x ≤ xs.foldl max a := by
  have base : ∀ (xs : List Position) (a : Position), a ≤ xs.foldl max a := by
    intro xs
    induction xs with
    | nil => exact fun a => Nat.le_refl a
    | cons y rest ih => exact fun a => (Nat.le_max_left a y).trans (ih (max a y))
  induction xs generalizing a with
  | nil => simp at member
  | cons y rest ih =>
    rcases mem_cons.mp member with rfl | member
    · exact (Nat.le_max_right a x).trans (base rest (max a x))
    · exact ih member (max a y)

theorem lastArrival_cases (arrivals : Arrivals) (roots : List (IntervalId × Interval)) :
    lastArrival arrivals roots = 0 ∨ ∃ id i v l, (id, i) ∈ roots ∧ i.value = some v ∧
      arrivals.find? v = some l ∧ i.start = lastArrival arrivals roots := by
  unfold lastArrival
  refine (foldl_max_cases _ 0).imp_right fun member => ?_
  obtain ⟨⟨id, i⟩, member, isLast⟩ := mem_map.mp member
  obtain ⟨member, arrives⟩ := mem_filter.mp member
  obtain ⟨l, isPlace⟩ := isSome_iff_exists.mp arrives
  obtain ⟨v, own, isArrival⟩ := bind_eq_some_iff.mp isPlace
  exact ⟨id, i, v, l, member, own, isArrival, isLast⟩

theorem le_lastArrival {roots : List (IntervalId × Interval)} (member : (id, i) ∈ roots)
    (own : i.value = some v) (isArrival : arrivals.find? v = some l) :
    i.start ≤ lastArrival arrivals roots := by
  unfold lastArrival
  apply le_foldl_max
  refine mem_map.mpr ⟨(id, i), mem_filter.mpr ⟨member, ?_⟩, rfl⟩
  simp [own, isArrival]

structure Ready (c : Pass) (arrivals : Arrivals) (p : IntervalPool) (f : Frame) : Prop where
  tidy : p.Tidy (· % 2 = 1)
  fixed : ∀ k ∈ c.fixed, ∃ i, p.intervals[k]? = some i ∧ i.physical = true
  arriving : Arriving c arrivals (lastArrival arrivals (rootsOf p c.regClass)) p
  storage : ∃ lo, Storage c.regClass arrivals 0 lo p f
  homeless : ∀ v i, OfValue p v i → Mine c i → f.home? v = none

structure PassDone (c : Pass) (arrivals : Arrivals) (p p' : IntervalPool) : Prop where
  valid : ∀ (id : IntervalId) (i : Interval), p'.intervals[id]? = some i → Mine c i →
    i.location.isInvalid = false
  kind : ∀ (id : IntervalId) (i : Interval), p'.intervals[id]? = some i → Mine c i →
    i.location.isAnyRegister = true → i.location.inClass c.regClass = true
  undisturbed : ∀ (id : IntervalId) (i : Interval), p'.intervals[id]? = some i → InRegister c i →
    Undisturbed c p' [] id i
  origin : ∀ (id : IntervalId) (i : Interval) (d : InstrId), p'.intervals[id]? = some i → Mine c i →
    i.definedBy = some d → ∃ i₀, p.intervals[id]? = some i₀ ∧ Mine c i₀ ∧ i₀.definedBy = some d ∧
      i₀.value = i.value ∧ (i₀.start = i.start ∨ ∃ v l, i.value = some v ∧ arrivals.find? v = some l)
  arrived : ∀ (id : IntervalId) (i : Interval) v l, p.intervals[id]? = some i → Mine c i →
    i.value = some v → arrivals.find? v = some l → ∃ m, p'.intervals[id]? = some m ∧ Mine c m ∧
      m.location = l ∧ m.value = some v ∧ m.covers i.start = true ∧
      (l.isAnyRegister = true → m.start = 0 ∧ ∀ q ≤ i.start, m.covers q = true)
  released : ∀ (id : IntervalId) (i : Interval), p'.intervals[id]? = some i → InRegister c i →
    i.pinned = true → i.start = 0 ∧ ∃ (k : IntervalId) (i₀ : Interval) (v : ValueId) (l : Location),
      p.intervals[k]? = some i₀ ∧ Mine c i₀ ∧ i₀.value = some v ∧ arrivals.find? v = some l ∧
      i.stop ≤ i₀.start + 1

structure Completed (c : Pass) (arrivals : Arrivals) (p p' : IntervalPool) (f f' : Frame) : Prop where
  tidy : p'.Tidy (· % 2 = 1)
  storage : ∃ pos lo, Storage c.regClass arrivals pos lo p' f'
  settled : PassDone c arrivals p p'
  foreign : ∀ (id : IntervalId) (i : Interval), ¬Mine c i →
    (p'.intervals[id]? = some i ↔ p.intervals[id]? = some i)
  homes : ∀ v i, OfValue p v i → ¬Mine c i → f'.home? v = f.home? v

namespace Ready

theorem to_entering (ready : Ready c arrivals p f) :
    Entering c arrivals (lastArrival arrivals (rootsOf p c.regClass)) p f (rootsOf p c.regClass)
      ⟨p, f, [], [], []⟩ := by
  have blank := ready.arriving.blank
  have outside : ∀ (id : IntervalId) (i : Interval), p.intervals[id]? = some i → ¬InRegister c i := by
    intro id i found inside
    have := isInvalid_of_inClass inside.2.1
    simp [(blank id i found inside.1).1] at this
  have isRoot : ∀ (id : IntervalId) (i : Interval), p.intervals[id]? = some i → Mine c i →
      (id, i) ∈ rootsOf p c.regClass := by
    intro id i found isMine
    exact mem_rootsOf.mpr ⟨found, isMine.1, (blank id i found isMine).2.2.1,
      (ready.tidy.fit id i found).filled isMine.1, isMine.2⟩
  have roots : ∀ e ∈ rootsOf p c.regClass, p.intervals[e.1]? = some e.2 ∧ Mine c e.2 := by
    rintro ⟨id, i⟩ member
    obtain ⟨found, virtual, -, -, cls⟩ := mem_rootsOf.mp member
    exact ⟨found, virtual, cls⟩
  refine ⟨⟨ready.tidy, ready.fixed, ?_, rootsOf_nodup p c.regClass, by simp, by simp, by simp, ?_, ?_,
    ?_⟩, ready.storage, ?_, fun _ _ found _ => found, ?_, fun id i found => .inl ⟨i, found⟩,
    fun _ _ => rfl⟩
  · intro id member
    obtain ⟨e, isIn, rfl⟩ := mem_map.mp member
    obtain ⟨found, isMine⟩ := roots e isIn
    exact ⟨e.2, found, isMine, (blank e.1 e.2 found isMine).2.1⟩
  · intro id i found isMine _
    exact mem_map.mpr ⟨(id, i), isRoot id i found isMine, rfl⟩
  · intro id i found inside
    exact absurd inside (outside id i found)
  · intro id i found _ inside
    exact absurd inside (outside id i found)
  · intro e member
    obtain ⟨found, isMine⟩ := roots e member
    exact ⟨found, found, fun v own => ready.homeless v e.2 ⟨e.1, found, own⟩ isMine⟩
  · intro id i found isMine
    exact .inl (mem_map.mpr ⟨(id, i), isRoot id i found isMine, rfl⟩)

theorem after_enter (ready : Ready c arrivals p f) (run : enter c arrivals p f = .ok s) :
    Entering c arrivals (lastArrival arrivals (rootsOf p c.regClass)) p f [] s := by
  have step : ∀ (roots : List (IntervalId × Interval)) (s s' : Scan),
      Entering c arrivals (lastArrival arrivals (rootsOf p c.regClass)) p f roots s →
      roots.foldlM (receive c arrivals (lastArrival arrivals (rootsOf p c.regClass))) s = .ok s' →
      Entering c arrivals (lastArrival arrivals (rootsOf p c.regClass)) p f [] s' := by
    intro roots
    induction roots with
    | nil =>
      intro s s' entering run
      obtain rfl := pure_ok.mp run
      exact entering
    | cons e rest ih =>
      intro s s' entering run
      obtain ⟨mid, received, run⟩ := foldlM_cons_ok.mp run
      exact ih mid s' (entering.after_receive ready.arriving received) run
  exact step _ _ s ready.to_entering run

end Ready

theorem Entering.to_scanning (arriving : Arriving c arrivals last p)
    (entering : Entering c arrivals last p f [] s) : Scanning c arrivals s 0 [] [] s := by
  refine ⟨entering.occupancy, entering.storage, fun _ _ found _ => found,
    fun _ _ found => .inr found, fun _ i _ found defined => ⟨i, found, defined, rfl, rfl⟩, ?_,
    fun _ _ => rfl, fun _ _ found _ => found⟩
  intro id i found isMine register
  have valid : i.location.isInvalid = false := by
    by_contra invalid
    simp only [Bool.not_eq_false, isInvalid, beq_iff_eq] at invalid
    simp [isAnyRegister, Location.isRegister, isFpRegister, invalid] at register
  obtain ⟨i₀, found₀, isMine₀, seated, other⟩ := entering.seated_of_valid arriving found isMine valid
  rcases seated.place with ⟨same, -⟩ | ⟨inClass, -⟩ | ⟨v, own, isArrival, -⟩
  · exact absurd same other
  · exact inClass
  · exact arriving.inClass id i₀ v i.location found₀ isMine₀ own isArrival register

theorem mine_iff {joint : Position → Prop} (tidy : p.Tidy joint) {k : IntervalId} {j : Interval}
    (found : p.intervals[id]? = some i) (foundJ : p.intervals[k]? = some j)
    (own : i.value = some v) (ownJ : j.value = some v) : Mine c i ↔ Mine c j := by
  obtain ⟨ty, ids, siblings⟩ := tidy.siblings v
  have first := siblings.first id ((siblings.member id).mpr ⟨i, found, own⟩) i found
  have firstJ := siblings.first k ((siblings.member k).mpr ⟨j, foundJ, ownJ⟩) j foundJ
  have virtual : i.physical = false := by rw [(tidy.fit id i found).kind, own]; rfl
  have virtualJ : j.physical = false := by rw [(tidy.fit k j foundJ).kind, ownJ]; rfl
  rw [Mine, Mine, virtual, virtualJ, regClass, regClass, first.2, firstJ.2]

theorem Entering.foreign_iff (entering : Entering c arrivals last p f [] s) (other : ¬Mine c i) :
    s.pool.intervals[id]? = some i ↔ p.intervals[id]? = some i := by
  refine ⟨fun found => ?_, fun found => entering.foreign id i found other⟩
  rcases entering.new id i found with ⟨i₀, found₀⟩ | ⟨isMine, -⟩
  · by_cases isMine₀ : Mine c i₀
    · obtain ⟨m, foundM, seated⟩ := (entering.seated id i₀ found₀ isMine₀).resolve_left (by simp)
      obtain rfl := mem_unique found foundM
      refine absurd ⟨seated.physical.trans isMine₀.1, ?_⟩ other
      rw [regClass, seated.ty]
      exact isMine₀.2
    · have := entering.foreign id i₀ found₀ isMine₀
      obtain rfl := mem_unique found this
      exact found₀
  · exact absurd isMine other

theorem Ready.completed_after_drain (proper : Pass.ZeroFree c) (ready : Ready c arrivals p f)
    (entered : enter c arrivals p f = .ok s) {bound : Nat}
    (drained : drain c bound 0 s = .ok s') : Completed c arrivals p s'.pool f s'.frame := by
  have entering := ready.after_enter entered
  obtain ⟨pos, scanning, empty⟩ := (entering.to_scanning ready.arriving).after_drain proper drained
  have occ := scanning.occupancy
  obtain ⟨lo, storage⟩ := scanning.storage
  have foreign : ∀ (id : IntervalId) (i : Interval), ¬Mine c i →
      (s'.pool.intervals[id]? = some i ↔ p.intervals[id]? = some i) := by
    intro id i other
    rw [← entering.foreign_iff other]
    refine ⟨fun found => ?_, fun found => scanning.kept id i found (.inl other)⟩
    exact (scanning.mine id i found).resolve_left other
  refine ⟨occ.tidy, ⟨pos, lo, storage⟩, ⟨?_, scanning.kind, ?_, ?_, ?_, ?_⟩, foreign, ?_⟩
  · intro id i found isMine
    by_contra invalid
    have := occ.placed id i found isMine (by simpa using invalid)
    simp [empty] at this
  · intro id i found inside
    exact occ.undisturbed id i found not_mem_nil inside
  · intro id i d found isMine defined
    obtain ⟨i₁, found₁, defined₁, value₁, start₁⟩ := scanning.origin id i d found defined
    obtain ⟨i₀, found₀⟩ : ∃ i₀, p.intervals[id]? = some i₀ := by
      rcases entering.new id i₁ found₁ with known | ⟨-, -, none⟩
      · exact known
      · simp [defined₁] at none
    have isMine₀ : Mine c i₀ := by
      by_contra other
      have := (foreign id i₀ other).mpr found₀
      obtain rfl := mem_unique found this
      exact other isMine
    obtain ⟨m, foundM, seated⟩ := (entering.seated id i₀ found₀ isMine₀).resolve_left (by simp)
    obtain rfl := mem_unique found₁ foundM
    refine ⟨i₀, found₀, isMine₀, seated.definedBy.symm.trans defined₁,
      seated.value.symm.trans value₁, ?_⟩
    rcases seated.place with ⟨rfl, -⟩ | ⟨-, -, start, -⟩ | ⟨v, own, isArrival, -⟩
    · exact .inl start₁
    · exact .inl (start.symm.trans start₁)
    · exact .inr ⟨v, _, value₁.symm.trans (seated.value.trans own), isArrival⟩
  · intro id i v l found isMine own isArrival
    obtain ⟨m, foundM, seated⟩ := (entering.seated id i found isMine).resolve_left (by simp)
    rcases seated.place with ⟨-, none⟩ | ⟨-, -, -, w, ownW, isZero⟩ |
      ⟨w, ownW, isArrivalW, pinned, covers, register⟩
    · simp [none v own] at isArrival
    · obtain rfl := mem_unique own ownW
      exact absurd isZero (ready.arriving.early id i v l found isMine own isArrival).2.2.2.2
    · obtain rfl := mem_unique own ownW
      obtain rfl := mem_unique isArrival isArrivalW
      have isMineM : Mine c m := by
        refine ⟨seated.physical.trans isMine.1, ?_⟩
        rw [regClass, seated.ty]
        exact isMine.2
      exact ⟨m, scanning.kept id m foundM (.inr pinned), isMineM, rfl, seated.value.trans own, covers,
        fun isRegister => ⟨(register isRegister).1, (register isRegister).2.2⟩⟩
  · intro id i found inside pinned
    have before := scanning.pins id i found pinned
    obtain ⟨start, early⟩ := entering.stop_le_last ready.arriving before inside
    refine ⟨start, ?_⟩
    obtain ⟨v, own, isArrival⟩ := entering.arrival_of_inside ready.arriving before inside
    rcases lastArrival_cases arrivals (rootsOf p c.regClass) with none | ⟨k, i₀, w, l, member, rest⟩
    · obtain ⟨i₀, found₀, isMine₀, seated, -⟩ := entering.seated_of_valid ready.arriving
        before inside.1 (isInvalid_of_inClass inside.2.1)
      have own₀ := seated.value.symm.trans own
      exact ⟨id, i₀, v, _, found₀, isMine₀, own₀, isArrival, by lia⟩
    · obtain ⟨found₀, virtual, -, -, cls⟩ := mem_rootsOf.mp member
      obtain ⟨own₀, isArrival₀, isLast⟩ := rest
      exact ⟨k, i₀, w, l, found₀, ⟨virtual, cls⟩, own₀, isArrival₀, isLast ▸ early⟩
  · rintro v i ⟨id, found, own⟩ other
    have found' := (foreign id i other).mpr found
    rw [scanning.homes v, entering.homes v]
    · rintro j ⟨k, foundJ, ownJ⟩
      rwa [← mine_iff ready.tidy found foundJ own ownJ]
    · rintro j ⟨k, foundJ, ownJ⟩
      rwa [← mine_iff occ.tidy found' foundJ own ownJ]

theorem PassDone.of_later (settled : PassDone c arrivals p p')
    (fixed : ∀ k ∈ c.fixed, ∃ i, p'.intervals[k]? = some i ∧ i.physical = true) {p'' : IntervalPool}
    (same : ∀ (id : IntervalId) (i : Interval), Mine c i ∨ i.physical = true →
      (p''.intervals[id]? = some i ↔ p'.intervals[id]? = some i)) : PassDone c arrivals p p'' := by
  refine ⟨?_, ?_, ?_, ?_, ?_, ?_⟩
  · intro id i found isMine
    exact settled.valid id i ((same id i (.inl isMine)).mp found) isMine
  · intro id i found isMine
    exact settled.kind id i ((same id i (.inl isMine)).mp found) isMine
  · intro id i found inside
    have before := settled.undisturbed id i ((same id i (.inl inside.1)).mp found) inside
    refine ⟨?_, ?_⟩
    · intro k j foundJ apart cooked insideJ
      exact before.others k j ((same k j (.inl insideJ.1)).mp foundJ) apart cooked insideJ
    · intro free k member j foundJ
      obtain ⟨j', foundJ', physical⟩ := fixed k member
      have := (same k j' (.inr physical)).mpr foundJ'
      obtain rfl := mem_unique foundJ this
      exact before.calls free k member j foundJ'
  · intro id i d found isMine
    exact settled.origin id i d ((same id i (.inl isMine)).mp found) isMine
  · intro id i v l found isMine own isArrival
    obtain ⟨m, foundM, isMineM, rest⟩ := settled.arrived id i v l found isMine own isArrival
    exact ⟨m, (same id m (.inl isMineM)).mpr foundM, isMineM, rest⟩
  · intro id i found inside
    exact settled.released id i ((same id i (.inl inside.1)).mp found) inside

theorem PassDone.of_earlier (settled : PassDone c arrivals p p') {p₀ : IntervalPool}
    (same : ∀ (id : IntervalId) (i : Interval), Mine c i →
      (p.intervals[id]? = some i ↔ p₀.intervals[id]? = some i)) : PassDone c arrivals p₀ p' := by
  refine ⟨settled.valid, settled.kind, settled.undisturbed, ?_, ?_, ?_⟩
  · intro id i d found isMine defined
    obtain ⟨i₀, found₀, isMine₀, rest⟩ := settled.origin id i d found isMine defined
    exact ⟨i₀, (same id i₀ isMine₀).mp found₀, isMine₀, rest⟩
  · intro id i v l found isMine
    exact settled.arrived id i v l ((same id i isMine).mpr found) isMine
  · intro id i found inside pinned
    obtain ⟨start, k, i₀, v, l, found₀, isMine₀, rest⟩ := settled.released id i found inside pinned
    exact ⟨start, k, i₀, v, l, (same k i₀ isMine₀).mp found₀, isMine₀, rest⟩

end Scan

end RegisterAllocation
