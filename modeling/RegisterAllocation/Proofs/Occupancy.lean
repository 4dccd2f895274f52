import RegisterAllocation.Scan.Run
import RegisterAllocation.Proofs.Chains

/-!
Who is in which register during the scan of a register class. No two intervals share a register at
a position, and whoever is in a register behind the position reached is listed.

The intervals that are being dealt with are held apart: they are neither waiting nor listed. Those
that have just been given a register are raw, until it is shown that nobody else is in it.
-/

namespace RegisterAllocation

open List Option Interval IntervalPool

namespace Scan

variable {c : Pass} {pos : Position} {raw hold : List IntervalId} {s s' : Scan} {id k : IntervalId}
  {i j : Interval}

def Mine (c : Pass) (i : Interval) : Prop := i.physical = false ∧ i.regClass = c.regClass

def InRegister (c : Pass) (i : Interval) : Prop :=
  Mine c i ∧ i.location.inClass c.regClass = true ∧ c.target.isZeroReg i.location = false

def CallResult (g : Graph) (i : Interval) : Prop :=
  ∃ d x, i.definedBy = some d ∧ g.instrs[d]? = some x ∧ x.isCall = true

/-- Nobody else is in the register of an interval, and no call destroys it, unless it is pinned. -/
structure Undisturbed (c : Pass) (p : IntervalPool) (raw : List IntervalId) (id : IntervalId)
    (i : Interval) : Prop where
  others : ∀ k j, p.intervals[k]? = some j → k ≠ id → k ∉ raw → InRegister c j →
    j.location = i.location → ∀ q, i.covers q = true → j.covers q = false
  calls : i.pinned = false → ∀ f ∈ c.fixed, ∀ j, p.intervals[f]? = some j →
    j.location = i.location → ∀ q, i.covers q = true → j.covers q = true →
    q = i.start ∧ CallResult c.graph i

structure Occupancy (c : Pass) (pos : Position) (raw hold : List IntervalId) (s : Scan) : Prop where
  tidy : s.pool.Tidy (· % 2 = 1)
  fixed : ∀ f ∈ c.fixed, ∃ i, s.pool.intervals[f]? = some i ∧ i.physical = true
  loose : ∀ id ∈ s.queue ++ hold, ∃ i, s.pool.intervals[id]? = some i ∧ Mine c i ∧ i.pinned = false
  once : (s.queue ++ hold).Nodup
  waiting : ∀ id ∈ s.queue, ∀ i, s.pool.intervals[id]? = some i → i.location.isInvalid = true
  listed : ∀ id ∈ s.active ++ s.inactive, id ∉ hold ∧
    ∃ i, s.pool.intervals[id]? = some i ∧ InRegister c i ∧ i.start ≤ pos
  listedOnce : (s.active ++ s.inactive).Nodup
  placed : ∀ id i, s.pool.intervals[id]? = some i → Mine c i → i.location.isInvalid = true →
    id ∈ s.queue ++ hold
  current : ∀ id i, s.pool.intervals[id]? = some i → InRegister c i → pos < i.stop →
    id ∈ s.active ++ s.inactive ∨ id ∈ hold
  undisturbed : ∀ id i, s.pool.intervals[id]? = some i → id ∉ raw → InRegister c i →
    Undisturbed c s.pool raw id i

theorem isInvalid_of_inClass {l : Location} {k : RegisterClass} (inside : l.inClass k = true) :
    l.isInvalid = false := by
  cases k <;> simp_all [Location.inClass, Location.isRegister, Location.isFpRegister,
    Location.isInvalid]

namespace Occupancy

section

variable (occ : Occupancy c pos raw hold s)

include occ

theorem perm {hold' : List IntervalId} (same : hold.Perm hold') : Occupancy c pos raw hold' s where
  tidy := occ.tidy
  fixed := occ.fixed
  loose id member := occ.loose id (by simpa [same.mem_iff] using member)
  once := (same.append_left s.queue).nodup_iff.mp occ.once
  waiting := occ.waiting
  listed id member := by simpa [same.mem_iff] using occ.listed id member
  listedOnce := occ.listedOnce
  placed id i found mine invalid := by simpa [same.mem_iff] using occ.placed id i found mine invalid
  current id i found inside later := by
    simpa [same.mem_iff] using occ.current id i found inside later
  undisturbed := occ.undisturbed

theorem with_frame {frame : Frame} : Occupancy c pos raw hold { s with frame } :=
  ⟨occ.tidy, occ.fixed, occ.loose, occ.once, occ.waiting, occ.listed, occ.listedOnce, occ.placed,
    occ.current, occ.undisturbed⟩

theorem after_pop {rest : List IntervalId}
    (isQueue : s.queue = id :: rest) : Occupancy c pos raw (id :: hold) { s with queue := rest } := by
  have same : (s.queue ++ hold).Perm (rest ++ id :: hold) := by
    rw [isQueue]
    exact perm_middle.symm
  have notListed : id ∉ s.active ++ s.inactive := by
    intro member
    obtain ⟨-, i, found, inside, -⟩ := occ.listed id member
    have invalid := occ.waiting id (by simp [isQueue]) i found
    rw [isInvalid_of_inClass inside.2.1] at invalid
    simp at invalid
  refine ⟨occ.tidy, occ.fixed, ?_, same.nodup_iff.mp occ.once, ?_, ?_, occ.listedOnce, ?_, ?_,
    occ.undisturbed⟩
  · intro k member
    exact occ.loose k (same.mem_iff.mpr member)
  · intro k member
    exact occ.waiting k (by simp [isQueue, show k ∈ rest from member])
  · intro k member
    obtain ⟨notHeld, rest⟩ := occ.listed k member
    refine ⟨?_, rest⟩
    simp only [mem_cons, not_or]
    refine ⟨?_, notHeld⟩
    rintro rfl
    exact notListed member
  · intro k i found mine invalid
    exact same.mem_iff.mp (occ.placed k i found mine invalid)
  · intro k i found inside later
    rcases occ.current k i found inside later with listed | held
    · exact .inl listed
    · exact .inr (mem_cons_of_mem id held)

theorem not_fixed (found : s.pool.intervals[id]? = some i)
    (virtual : i.physical = false) : id ∉ c.fixed := by
  intro member
  obtain ⟨j, found', physical⟩ := occ.fixed id member
  obtain rfl := mem_unique found found'
  simp [virtual] at physical

theorem not_queued (held : id ∈ hold) : id ∉ s.queue :=
  fun member => (nodup_append.mp occ.once).2.2 id member id held rfl

theorem not_listed (held : id ∈ hold) : id ∉ s.active ++ s.inactive :=
  fun member => (occ.listed id member).1 held

theorem held_mine (held : id ∈ hold)
    (found : s.pool.intervals[id]? = some i) : Mine c i ∧ i.pinned = false := by
  obtain ⟨j, found', mine, unpinned⟩ := occ.loose id (mem_append_right _ held)
  obtain rfl := mem_unique found found'
  exact ⟨mine, unpinned⟩

theorem size_notFixed : s.pool.size ∉ c.fixed := by
  intro member
  obtain ⟨m, found, -⟩ := occ.fixed _ member
  simp [getElem_size] at found

end

theorem rest_outside (i : Interval) (cut : Position) : ¬InRegister c (i.rest cut) := by
  rintro ⟨-, inClass, -⟩
  have := isInvalid_of_inClass inClass
  simp [Interval.rest] at this

theorem after_replace (occ : Occupancy c pos raw hold s) (held : id ∈ hold)
    (found : s.pool.intervals[id]? = some i) (tidy : (s.pool.set id j).Tidy (· % 2 = 1))
    (mineJ : Mine c j) (unpinned : j.pinned = false) :
    Occupancy c pos (id :: raw) hold { s with pool := s.pool.set id j } := by
  have isMine := (occ.held_mine held found).1
  have other : ∀ k : IntervalId, k ≠ id →
      (s.pool.set id j).intervals[k]? = s.pool.intervals[k]? := fun _ => set_other
  have notFixed := occ.not_fixed found isMine.1
  refine ⟨tidy, ?_, ?_, occ.once, ?_, ?_, occ.listedOnce, ?_, ?_, ?_⟩
  · intro f member
    rw [other f fun here => notFixed (here ▸ member)]
    exact occ.fixed f member
  · intro k member
    by_cases here : k = id
    · subst here
      exact ⟨j, set_self found j, mineJ, unpinned⟩
    · rw [other k here]
      exact occ.loose k member
  · intro k member
    rw [other k fun here => occ.not_queued held (here ▸ member)]
    exact occ.waiting k member
  · intro k member
    rw [other k fun here => occ.not_listed held (here ▸ member)]
    exact occ.listed k member
  · intro k m foundM mine invalid
    by_cases here : k = id
    · exact mem_append_right _ (here ▸ held)
    · rw [other k here] at foundM
      exact occ.placed k m foundM mine invalid
  · intro k m foundM inside later
    by_cases here : k = id
    · exact .inr (here ▸ held)
    · rw [other k here] at foundM
      exact occ.current k m foundM inside later
  · intro k m foundM cooked inside
    simp only [mem_cons, not_or] at cooked
    rw [other k cooked.1] at foundM
    have before := occ.undisturbed k m foundM cooked.2 inside
    refine ⟨?_, ?_⟩
    · intro k' m' foundM' apart cooked'
      simp only [mem_cons, not_or] at cooked'
      rw [other k' cooked'.1] at foundM'
      exact before.others k' m' foundM' apart cooked'.2
    · intro free f member m' foundM'
      rw [other f fun here => notFixed (here ▸ member)] at foundM'
      exact before.calls free f member m' foundM'

theorem after_relabel (occ : Occupancy c pos raw hold s) (held : id ∈ hold)
    (found : s.pool.intervals[id]? = some i) (same : i.Relabelled j) (unpinned : j.pinned = false) :
    Occupancy c pos (id :: raw) hold { s with pool := s.pool.set id j } := by
  obtain ⟨virtual, cls⟩ := (occ.held_mine held found).1
  refine occ.after_replace held found (occ.tidy.after_relabel found same)
    ⟨same.physical_eq.trans virtual, ?_⟩ unpinned
  rw [regClass, same.ty_eq]
  exact cls

theorem of_undisturbed (occ : Occupancy c pos (id :: raw) hold s) (fresh : id ∉ raw)
    (alone : ∀ i, s.pool.intervals[id]? = some i → InRegister c i →
      Undisturbed c s.pool raw id i) : Occupancy c pos raw hold s where
  tidy := occ.tidy
  fixed := occ.fixed
  loose := occ.loose
  once := occ.once
  waiting := occ.waiting
  listed := occ.listed
  listedOnce := occ.listedOnce
  placed := occ.placed
  current := occ.current
  undisturbed k i found cooked inside := by
    by_cases here : k = id
    · subst here
      exact alone i found inside
    · have before := occ.undisturbed k i found (by simp [here, cooked]) inside
      refine ⟨?_, before.calls⟩
      intro k' j foundJ apart cooked' insideJ same q covered
      by_cases there : k' = id
      · subst there
        by_contra both
        simp only [Bool.not_eq_false] at both
        have := (alone j foundJ insideJ).others k i found (Ne.symm apart) cooked inside same.symm q
          both
        rw [covered] at this
        simp at this
      · exact before.others k' j foundJ apart (by simp [there, cooked']) insideJ same q covered

theorem inRegister_divided (fit : i.Fit) (found : s.pool.intervals[id]? = some i) {cut : Position}
    (late : i.start < cut) (inside : cut < i.stop)
    (foundJ : (s.pool.divided id i cut).intervals[k]? = some j) (inRegister : InRegister c j) :
    ∃ w, s.pool.intervals[k]? = some w ∧ InRegister c w ∧ w.location = j.location ∧
      w.start = j.start ∧ w.definedBy = j.definedBy ∧ w.pinned = j.pinned ∧
      ∀ q, j.covers q = true → w.covers q = true := by
  rcases divided_cases found foundJ with ⟨rfl, rfl⟩ | ⟨rfl, rfl⟩ | ⟨-, before⟩
  · exact ⟨i, found, inRegister, rfl, (start_upTo fit.sorted late inside).symm, rfl, rfl,
      fun q covered => (covers_upTo.mp covered).1⟩
  · exact absurd inRegister (rest_outside i cut)
  · exact ⟨j, before, inRegister, rfl, rfl, rfl, rfl, fun _ h => h⟩

/-- Both parts of an interval cover no more than the whole, and only the first one may be in a
register. -/
theorem undisturbed_divided (occ : Occupancy c pos raw hold s) (held : id ∈ hold)
    (found : s.pool.intervals[id]? = some i) {cut : Position} (late : i.start < cut)
    (inside : cut < i.stop) (foundJ : (s.pool.divided id i cut).intervals[k]? = some j)
    (cooked : k ∉ raw) (inRegister : InRegister c j) :
    Undisturbed c (s.pool.divided id i cut) raw k j := by
  have fit := occ.tidy.fit id i found
  obtain ⟨w, foundW, inRegisterW, place, start, definedBy, pinned, covers⟩ :=
    inRegister_divided fit found late inside foundJ inRegister
  have before := occ.undisturbed k w foundW cooked inRegisterW
  refine ⟨?_, ?_⟩
  · intro k' m' foundM' apart cooked' inRegister' same q covered
    obtain ⟨w', foundW', inRegisterW', place', -, -, -, covers'⟩ :=
      inRegister_divided fit found late inside foundM' inRegister'
    by_contra both
    simp only [Bool.not_eq_false] at both
    have := before.others k' w' foundW' apart cooked' inRegisterW'
      (place'.trans (same.trans place.symm)) q (covers q covered)
    rw [covers' q both] at this
    simp at this
  · intro free f member m' foundM' same q covered coveredF
    rcases divided_cases found foundM' with ⟨rfl, -⟩ | ⟨rfl, -⟩ | ⟨-, foundF⟩
    · exact absurd member (occ.not_fixed found (occ.held_mine held found).1.1)
    · obtain ⟨w', foundW', -⟩ := occ.fixed _ member
      exact absurd rfl (Nat.ne_of_lt (found_lt foundW'))
    · obtain ⟨isStart, d, x, defined, rest⟩ := before.calls (pinned.trans free) f member m' foundF
        (same.trans place.symm) q (covers q covered) coveredF
      exact ⟨isStart.trans start, d, x, definedBy.symm.trans defined, rest⟩

theorem after_divide (occ : Occupancy c pos raw hold s) (held : id ∈ hold)
    (found : s.pool.intervals[id]? = some i) {cut : Position} (late : i.start < cut)
    (inside : cut < i.stop) (odd : cut % 2 = 1) :
    Occupancy c pos raw (s.pool.size :: hold) { s with pool := s.pool.divided id i cut } := by
  obtain ⟨isMine, unpinned⟩ := occ.held_mine held found
  have old : ∀ k m, k ≠ id → s.pool.intervals[k]? = some m →
      (s.pool.divided id i cut).intervals[k]? = some m :=
    fun k m apart => divided_other found apart
  have notFixed := occ.not_fixed found isMine.1
  have new : ∀ k m, s.pool.intervals[k]? = some m → k ≠ s.pool.size :=
    fun k m foundM => Nat.ne_of_lt (found_lt foundM)
  refine ⟨occ.tidy.after_divide found isMine.1 late inside odd, ?_, ?_, ?_, ?_, ?_,
    occ.listedOnce, ?_, ?_,
    fun k m => occ.undisturbed_divided held found late inside⟩
  · intro f member
    obtain ⟨m, foundM, physical⟩ := occ.fixed f member
    exact ⟨m, old f m (fun here => notFixed (here ▸ member)) foundM, physical⟩
  · intro k member
    by_cases isNew : k = s.pool.size
    · exact ⟨i.rest cut, isNew ▸ divided_rest found cut, ⟨rfl, isMine.2⟩, rfl⟩
    by_cases here : k = id
    · subst here
      exact ⟨_, divided_kept found cut, isMine, unpinned⟩
    · have before : k ∈ s.queue ++ hold := by
        simpa [isNew] using member
      obtain ⟨m, foundM, rest⟩ := occ.loose k before
      exact ⟨m, old k m here foundM, rest⟩
  · have fresh : s.pool.size ∉ s.queue ++ hold := by
      intro member
      obtain ⟨m, foundM, -⟩ := occ.loose _ member
      exact new _ m foundM rfl
    exact perm_middle.nodup_iff.mpr (nodup_cons.mpr ⟨fresh, occ.once⟩)
  · intro k member m foundM
    rcases divided_cases found foundM with ⟨rfl, -⟩ | ⟨rfl, rfl⟩ | ⟨-, before⟩
    · exact absurd member (occ.not_queued held)
    · rfl
    · exact occ.waiting k member m before
  · intro k member
    obtain ⟨notHeld, m, foundM, rest⟩ := occ.listed k member
    refine ⟨by simp [notHeld, new k m foundM], m, old k m ?_ foundM, rest⟩
    rintro rfl
    exact notHeld held
  · intro k m foundM mine invalid
    rcases divided_cases found foundM with ⟨rfl, -⟩ | ⟨rfl, -⟩ | ⟨-, before⟩
    · simp [held]
    · simp
    · have := occ.placed k m before mine invalid
      simp only [mem_append, mem_cons] at this ⊢
      tauto
  · intro k m foundM inRegister later
    rcases divided_cases found foundM with ⟨rfl, -⟩ | ⟨rfl, -⟩ | ⟨-, before⟩
    · simp [held]
    · simp
    · rcases occ.current k m before inRegister later with listed | held
      · exact .inl listed
      · exact .inr (mem_cons_of_mem _ held)

theorem after_enqueue (occ : Occupancy c pos raw (id :: hold) s)
    (invalid : ∀ i, s.pool.intervals[id]? = some i → i.location.isInvalid = true)
    {queue : List IntervalId} (same : queue.Perm (id :: s.queue)) :
    Occupancy c pos raw hold { s with queue } := by
  have moved : (queue ++ hold).Perm (s.queue ++ id :: hold) :=
    (same.append_right hold).trans perm_middle.symm
  refine ⟨occ.tidy, occ.fixed, ?_, moved.nodup_iff.mpr occ.once, ?_, ?_, occ.listedOnce, ?_, ?_,
    occ.undisturbed⟩
  · intro k member
    exact occ.loose k (moved.mem_iff.mp member)
  · intro k member i found
    rcases mem_cons.mp (same.mem_iff.mp member) with rfl | member
    · exact invalid i found
    · exact occ.waiting k member i found
  · intro k member
    obtain ⟨notHeld, rest⟩ := occ.listed k member
    exact ⟨fun held => notHeld (mem_cons_of_mem id held), rest⟩
  · intro k i found mine isInvalid
    exact moved.mem_iff.mpr (occ.placed k i found mine isInvalid)
  · intro k i found inside later
    rcases occ.current k i found inside later with listed | held
    · exact .inl listed
    · rcases mem_cons.mp held with rfl | held
      · have := isInvalid_of_inClass inside.2.1
        rw [invalid i found] at this
        simp at this
      · exact .inr held

theorem after_drop (occ : Occupancy c pos raw (id :: hold) s)
    (done : ∀ i, s.pool.intervals[id]? = some i → i.location.isInvalid = false ∧
      (InRegister c i → i.stop ≤ pos)) : Occupancy c pos raw hold s := by
  have within : ∀ k ∈ s.queue ++ hold, k ∈ s.queue ++ id :: hold := by
    intro k member
    simp only [mem_append, mem_cons] at member ⊢
    tauto
  refine ⟨occ.tidy, occ.fixed, fun k member => occ.loose k (within k member), ?_, occ.waiting, ?_,
    occ.listedOnce, ?_, ?_, occ.undisturbed⟩
  · exact (nodup_cons.mp (perm_middle.nodup_iff.mp occ.once)).2
  · intro k member
    obtain ⟨notHeld, rest⟩ := occ.listed k member
    exact ⟨fun held => notHeld (mem_cons_of_mem id held), rest⟩
  · intro k i found mine isInvalid
    rcases mem_append.mp (occ.placed k i found mine isInvalid) with queued | held
    · exact mem_append_left _ queued
    · rcases mem_cons.mp held with rfl | held
      · simp [(done i found).1] at isInvalid
      · exact mem_append_right _ held
  · intro k i found inside later
    rcases occ.current k i found inside later with listed | held
    · exact .inl listed
    · rcases mem_cons.mp held with rfl | held
      · have := (done i found).2 inside
        lia
      · exact .inr held

theorem after_list (occ : Occupancy c pos raw (id :: hold) s) (found : s.pool.intervals[id]? = some i)
    (inside : InRegister c i) (started : i.start ≤ pos) {active inactive : List IntervalId}
    (same : (active ++ inactive).Perm (id :: (s.active ++ s.inactive))) :
    Occupancy c pos raw hold { s with active, inactive } := by
  have notListed : id ∉ s.active ++ s.inactive := occ.not_listed mem_cons_self
  have fresh : id ∉ s.queue ++ hold :=
    (nodup_cons.mp (perm_middle.nodup_iff.mp occ.once)).1
  have within : ∀ k ∈ s.queue ++ hold, k ∈ s.queue ++ id :: hold := by
    intro k member
    simp only [mem_append, mem_cons] at member ⊢
    tauto
  refine ⟨occ.tidy, occ.fixed, fun k member => occ.loose k (within k member), ?_, occ.waiting, ?_,
    ?_, ?_, ?_, occ.undisturbed⟩
  · exact (nodup_cons.mp (perm_middle.nodup_iff.mp occ.once)).2
  · intro k member
    rcases mem_cons.mp (same.mem_iff.mp member) with rfl | member
    · exact ⟨fun held => fresh (mem_append_right _ held), i, found, inside, started⟩
    · obtain ⟨notHeld, rest⟩ := occ.listed k member
      exact ⟨fun held => notHeld (mem_cons_of_mem id held), rest⟩
  · exact same.nodup_iff.mpr (nodup_cons.mpr ⟨notListed, occ.listedOnce⟩)
  · intro k j foundJ mine isInvalid
    rcases mem_append.mp (occ.placed k j foundJ mine isInvalid) with queued | held
    · exact mem_append_left _ queued
    · rcases mem_cons.mp held with rfl | held
      · obtain rfl := mem_unique found foundJ
        simp [isInvalid_of_inClass inside.2.1] at isInvalid
      · exact mem_append_right _ held
  · intro k j foundJ insideJ later
    rcases occ.current k j foundJ insideJ later with listed | held
    · exact .inl (same.mem_iff.mpr (mem_cons_of_mem id listed))
    · rcases mem_cons.mp held with rfl | held
      · exact .inl (same.mem_iff.mpr mem_cons_self)
      · exact .inr held

theorem after_unlist (occ : Occupancy c pos raw hold s) {leaving active inactive : List IntervalId}
    (same : (leaving ++ (active ++ inactive)).Perm (s.active ++ s.inactive))
    (unpinned : ∀ id ∈ leaving, ∀ i, s.pool.intervals[id]? = some i → i.pinned = false) :
    Occupancy c pos raw (leaving ++ hold) { s with active, inactive } := by
  have wasListed : ∀ k ∈ leaving, k ∈ s.active ++ s.inactive := fun k member =>
    same.mem_iff.mp (mem_append_left _ member)
  obtain ⟨onceLeaving, onceLists, apart⟩ :=
    nodup_append.mp (same.nodup_iff.mpr occ.listedOnce)
  refine ⟨occ.tidy, occ.fixed, ?_, ?_, occ.waiting, ?_, onceLists, ?_, ?_, occ.undisturbed⟩
  · intro k member
    by_cases leaves : k ∈ leaving
    · obtain ⟨-, i, found, inside, -⟩ := occ.listed k (wasListed k leaves)
      exact ⟨i, found, inside.1, unpinned k leaves i found⟩
    · refine occ.loose k ?_
      simp only [mem_append] at member ⊢
      tauto
  · have fresh : ∀ k ∈ leaving, k ∉ s.queue ++ hold := by
      intro k leaves member
      obtain ⟨notHeld, i, found, inside, -⟩ := occ.listed k (wasListed k leaves)
      rcases mem_append.mp member with queued | held
      · have invalid := occ.waiting k queued i found
        simp [isInvalid_of_inClass inside.2.1] at invalid
      · exact notHeld held
    have moved : (s.queue ++ (leaving ++ hold)).Perm (leaving ++ (s.queue ++ hold)) := by
      rw [← append_assoc, ← append_assoc]
      exact perm_append_comm.append_right hold
    refine moved.nodup_iff.mpr (nodup_append.mpr ⟨onceLeaving, occ.once, ?_⟩)
    rintro k leaves l member rfl
    exact fresh k leaves member
  · intro k member
    obtain ⟨notHeld, rest⟩ :=
      occ.listed k (same.mem_iff.mp (mem_append_right leaving member))
    refine ⟨?_, rest⟩
    simp only [mem_append, not_or]
    exact ⟨fun leaves => apart k leaves k member rfl, notHeld⟩
  · intro k i found mine isInvalid
    have := occ.placed k i found mine isInvalid
    simp only [mem_append] at this ⊢
    tauto
  · intro k i found inside later
    rcases occ.current k i found inside later with listed | held
    · rcases mem_append.mp (same.mem_iff.mpr listed) with leaves | listed
      · exact .inr (mem_append_left _ leaves)
      · exact .inl listed
    · exact .inr (mem_append_right _ held)

theorem pairs_ok {p : IntervalPool} {ids : List IntervalId} {known : List (IntervalId × Interval)}
    (run : (ids.mapM fun id => do return (id, ← p.get id)) = .ok known) :
    known.map Prod.fst = ids ∧ ∀ e ∈ known, p.intervals[e.1]? = some e.2 := by
  rw [mapM_ok] at run
  induction run with
  | nil => simp
  | cons head _ ih =>
    simp only [bind_ok, pure_ok, get_ok] at head
    obtain ⟨i, found, rfl⟩ := head
    refine ⟨by simp [ih.1], ?_⟩
    intro e member
    rcases mem_cons.mp member with rfl | member
    · exact found
    · exact ih.2 e member

theorem after_advance (occ : Occupancy c pos raw hold s) {next : Position} (later : pos ≤ next)
    (run : s.advance next = .ok s') :
    Occupancy c next raw hold s' ∧ s'.pool = s.pool ∧ s'.frame = s.frame ∧ s'.queue = s.queue ∧
      ∀ id ∈ s'.active ++ s'.inactive, ∀ i, s.pool.intervals[id]? = some i → next < i.stop := by
  simp only [advance, bind_ok, pure_ok] at run
  obtain ⟨known, each, rfl⟩ := run
  obtain ⟨names, isIn⟩ := pairs_ok each
  simp only [partition_eq_filter_filter]
  have split : ((known.filter (next < ·.2.stop)).filter (·.2.covers next) ++
      (known.filter (next < ·.2.stop)).filter (not ∘ (·.2.covers next))).Perm
      (known.filter (next < ·.2.stop)) := filter_append_perm _ _
  have lists (k : IntervalId) :
      k ∈ ((known.filter (next < ·.2.stop)).filter (·.2.covers next)).map Prod.fst ++
        ((known.filter (next < ·.2.stop)).filter (not ∘ (·.2.covers next))).map Prod.fst ↔
      k ∈ s.active ++ s.inactive ∧ ∃ i, s.pool.intervals[k]? = some i ∧ next < i.stop := by
    rw [← map_append, (split.map Prod.fst).mem_iff, ← names]
    simp only [List.mem_map, mem_filter, decide_eq_true_eq]
    constructor
    · rintro ⟨e, ⟨member, behind⟩, rfl⟩
      exact ⟨⟨e, member, rfl⟩, e.2, isIn e member, behind⟩
    · rintro ⟨⟨e, member, rfl⟩, i, found, behind⟩
      obtain rfl := mem_unique (isIn e member) found
      exact ⟨e, ⟨member, behind⟩, rfl⟩
  refine ⟨⟨occ.tidy, occ.fixed, occ.loose, occ.once, occ.waiting, ?_, ?_, occ.placed, ?_,
    occ.undisturbed⟩, trivial, trivial, trivial, ?_⟩
  · intro k member
    obtain ⟨notHeld, i, found, inside, started⟩ := occ.listed k ((lists k).mp member).1
    exact ⟨notHeld, i, found, inside, started.trans later⟩
  · rw [← map_append, (split.map Prod.fst).nodup_iff]
    exact ((names ▸ occ.listedOnce : (known.map Prod.fst).Nodup)).sublist
      (filter_sublist.map Prod.fst)
  · intro k i found inside behind
    rcases occ.current k i found inside (by lia) with listed | held
    · exact .inl ((lists k).mpr ⟨listed, i, found, behind⟩)
    · exact .inr held
  · intro k member i found
    obtain ⟨-, j, foundJ, behind⟩ := (lists k).mp member
    obtain rfl := mem_unique found foundJ
    exact behind

theorem after_pin (occ : Occupancy c pos raw hold s) (found : s.pool.intervals[id]? = some i)
    (done : id ∉ s.queue ++ hold) :
    Occupancy c pos raw hold { s with pool := s.pool.set id { i with pinned := true } } := by
  have same : i.Relabelled { i with pinned := true } := rfl
  -- Up to its pin, every interval is as it was before.
  have old : ∀ (k : IntervalId) (m : Interval),
      (s.pool.set id { i with pinned := true }).intervals[k]? = some m → ∃ w,
        s.pool.intervals[k]? = some w ∧ m = { w with pinned := m.pinned } ∧
        (m.pinned = false → w.pinned = false) := by
    intro k m foundM
    rcases set_cases found foundM with ⟨rfl, rfl⟩ | ⟨-, before⟩
    · exact ⟨i, found, rfl, by simp⟩
    · exact ⟨m, before, rfl, fun free => free⟩
  have new {k : IntervalId} {m : Interval} := set_forth (k := k) (m := m)
    (R := fun w m => m = { w with pinned := m.pinned }) found (j := { i with pinned := true }) rfl
    fun _ => rfl
  refine ⟨occ.tidy.after_relabel found same, ?_, ?_, occ.once, ?_, ?_, occ.listedOnce, ?_, ?_, ?_⟩
  · intro f member
    obtain ⟨m, foundM, physical⟩ := occ.fixed f member
    obtain ⟨m', foundM', same⟩ := new foundM
    rw [same] at foundM'
    exact ⟨_, foundM', physical⟩
  · intro k member
    obtain ⟨m, foundM, rest⟩ := occ.loose k member
    have apart : k ≠ id := fun here => done (here ▸ member)
    exact ⟨m, by rwa [set_other apart], rest⟩
  · intro k member m foundM
    obtain ⟨w, foundW, same, -⟩ := old k m foundM
    rw [same]
    exact occ.waiting k member w foundW
  · intro k member
    obtain ⟨notHeld, m, foundM, inside, started⟩ := occ.listed k member
    obtain ⟨m', foundM', same⟩ := new foundM
    rw [same] at foundM'
    exact ⟨notHeld, _, foundM', inside, started⟩
  · intro k m foundM mine invalid
    obtain ⟨w, foundW, same, -⟩ := old k m foundM
    rw [same] at mine invalid
    exact occ.placed k w foundW mine invalid
  · intro k m foundM inside later
    obtain ⟨w, foundW, same, -⟩ := old k m foundM
    rw [same] at inside later
    exact occ.current k w foundW inside later
  · intro k m foundM cooked inside
    obtain ⟨w, foundW, same, unpinned⟩ := old k m foundM
    rw [same] at inside ⊢
    have before := occ.undisturbed k w foundW cooked inside
    refine ⟨?_, ?_⟩
    · intro k' m' foundM' apart cooked' inside' place q covered
      obtain ⟨w', foundW', same', -⟩ := old k' m' foundM'
      rw [same'] at inside' place ⊢
      exact before.others k' w' foundW' apart cooked' inside' place q covered
    · intro free f member m' foundM' place q covered destroyed
      obtain ⟨w', foundW', same', -⟩ := old f m' foundM'
      rw [same'] at place destroyed
      exact before.calls (unpinned free) f member w' foundW' place q covered destroyed

end Occupancy

end Scan

end RegisterAllocation
