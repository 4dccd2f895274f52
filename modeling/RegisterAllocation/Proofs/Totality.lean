import RegisterAllocation.Proofs.Serving

/-!
The steps of a scan end. Each of them finds what it needs, so it can fail for want of a stack slot
or a register at most. The queue stays in the order of starts, and whoever is queued again starts
behind the present position.
-/

namespace RegisterAllocation

open List Option Interval IntervalPool Scan

/-- A computation that fails for want of a stack slot at most, or of a register of a class in which
they may be scarce, with what it leaves otherwise. -/
def Ends {α : Type} (scarce : RegisterClass → Prop) (post : α → Prop)
    (r : Attempt AllocationError α) : Prop :=
  (∃ a, r = .ok a ∧ post a) ∨ (∃ budget, r = refuse (.outOfSlots budget)) ∨
    ∃ cls, scarce cls ∧ r = refuse (.outOfRegisters cls)

namespace Ends

variable {α β : Type} {scarce : RegisterClass → Prop} {post post' : α → Prop} {goal : β → Prop}
  {r : Attempt AllocationError α} {f : α → Attempt AllocationError β} {a : α}

theorem of_ok (holds : post a) : Ends scarce post (.ok a) := .inl ⟨a, rfl, holds⟩

theorem of_lift {x : Except Fault α} (total : ∃ a, x = .ok a ∧ post a) :
    Ends scarce post (liftM x) := by
  obtain ⟨a, rfl, holds⟩ := total
  exact .of_ok holds

theorem bind (first : Ends scarce post r) (rest : ∀ a, r = .ok a → post a → Ends scarce goal (f a)) :
    Ends scarce goal (r >>= f) := by
  rcases first with ⟨a, isA, holds⟩ | ⟨budget, refused⟩ | ⟨cls, few, refused⟩
  · rw [isA, ok_bind]
    exact rest a isA holds
  · rw [refused]
    exact .inr (.inl ⟨budget, rfl⟩)
  · rw [refused]
    exact .inr (.inr ⟨cls, few, rfl⟩)

theorem mono (ends : Ends scarce post r) (imp : ∀ a, r = .ok a → post a → post' a) :
    Ends scarce post' r := by
  rcases ends with ⟨a, isA, holds⟩ | refused
  · exact .inl ⟨a, isA, imp a isA holds⟩
  · exact .inr refused

end Ends

namespace Scan

variable {c : Pass} {arrivals : Arrivals} {start : Scan} {base first p : IntervalPool}
  {pos cut use : Position} {raw hold hold' queue queue' : List IntervalId} {s s' s'' : Scan}
  {id : IntervalId} {i j : Interval} {reg : Nat} {v : ValueId}

def Before (p : IntervalPool) (a b : IntervalId) : Prop :=
  ∀ i j, p.intervals[a]? = some i → p.intervals[b]? = some j → i.start ≤ j.start

def InTurn (s : Scan) : Prop := s.queue.Pairwise (Before s.pool)

theorem InTurn.congr (inTurn : s.InTurn) (same : s'.queue = s.queue)
    (starts : ∀ k ∈ s.queue, ∀ j, s'.pool.intervals[k]? = some j →
      ∃ i, s.pool.intervals[k]? = some i ∧ i.start = j.start) : s'.InTurn := by
  rw [InTurn, same]
  refine List.Pairwise.imp_of_mem ?_ inTurn
  intro a b memberA memberB before i j foundI foundJ
  obtain ⟨i', foundI', startI⟩ := starts a memberA i foundI
  obtain ⟨j', foundJ', startJ⟩ := starts b memberB j foundJ
  rw [← startI, ← startJ]
  exact before i' j' foundI' foundJ'

theorem insertByStart_total (begin : Position)
    (known : ∀ k ∈ queue, ∃ m, p.intervals[k]? = some m) :
    ∃ queue', insertByStart p id begin queue = .ok queue' := by
  induction queue with
  | nil => exact ⟨[id], rfl⟩
  | cons other rest ih =>
    obtain ⟨m, found⟩ := known other mem_cons_self
    obtain ⟨tail, inserted⟩ := ih fun k member => known k (mem_cons_of_mem other member)
    simp only [insertByStart, IntervalPool.get_ok.mpr found, ok_bind, inserted]
    split
    · exact ⟨_, rfl⟩
    · split
      · exact ⟨_, rfl⟩
      · exact ⟨_, rfl⟩

theorem insertByStart_before (found : p.intervals[id]? = some i)
    (inTurn : queue.Pairwise (Before p)) (run : insertByStart p id i.start queue = .ok queue') :
    queue'.Pairwise (Before p) := by
  induction queue generalizing queue' with
  | nil =>
    obtain rfl : [id] = queue' := by simpa [insertByStart] using run
    simp
  | cons other rest ih =>
    obtain ⟨ahead, others⟩ := pairwise_cons.mp inTurn
    simp only [insertByStart, bind_ok, IntervalPool.get_ok] at run
    obtain ⟨m, foundM, run⟩ := run
    split at run
    · simp only [bind_ok, pure_ok] at run
      obtain ⟨tail, run, rfl⟩ := run
      refine pairwise_cons.mpr ⟨fun k member => ?_, ih others run⟩
      rcases mem_cons.mp ((Scanning.insertByStart_perm run).mem_iff.mp member) with rfl | isIn
      · intro a b foundA foundB
        obtain rfl := mem_unique foundM foundA
        obtain rfl := mem_unique found foundB
        exact Nat.le_of_lt ‹_›
      · exact ahead k isIn
    · have behind : i.start ≤ m.start := Nat.le_of_not_lt ‹_›
      have aheadOfAll : ∀ k ∈ other :: rest, Before p id k := by
        intro k member a b foundA foundB
        obtain rfl := mem_unique found foundA
        rcases mem_cons.mp member with rfl | isIn
        · obtain rfl := mem_unique foundM foundB
          exact behind
        · exact behind.trans (ahead k isIn m b foundM foundB)
      split at run
      · rename_i same
        obtain rfl := pure_ok.mp run
        refine pairwise_cons.mpr ⟨fun k member => ?_, pairwise_cons.mpr
          ⟨fun k member => aheadOfAll k (mem_cons_of_mem other member), others⟩⟩
        rcases mem_cons.mp member with rfl | isIn
        · intro a b foundA foundB
          obtain rfl := mem_unique foundM foundA
          obtain rfl := mem_unique found foundB
          exact same.le
        · exact ahead k isIn
      · obtain rfl := pure_ok.mp run
        exact pairwise_cons.mpr ⟨aheadOfAll, inTurn⟩

theorem enqueue_total (known : ∀ k ∈ s.queue, ∃ m, s.pool.intervals[k]? = some m)
    (found : s.pool.intervals[id]? = some i) :
    ∃ queue, s.enqueue id = .ok { s with queue } ∧ queue.Perm (id :: s.queue) ∧
      (s.InTurn → InTurn { s with queue }) := by
  obtain ⟨queue, inserted⟩ := insertByStart_total i.start known
  refine ⟨queue, ?_, Scanning.insertByStart_perm inserted, fun inTurn =>
    insertByStart_before found inTurn inserted⟩
  simp only [enqueue, start, IntervalPool.get_ok.mpr found, ok_bind]
  simp only [pure, Except.pure, ok_bind, inserted]

def Known (s : Scan) : Prop := ∀ k ∈ s.queue, ∃ m, s.pool.intervals[k]? = some m

theorem Serving.all_known (serving : Serving c base first hold s) : s.Known := by
  intro k member
  obtain ⟨m, found, -⟩ := serving.own k (mem_append_left _ member)
  exact ⟨m, found⟩

structure Queues (pos : Position) (s s' : Scan) : Prop where
  steady : Steady s.pool s'.pool
  inTurn : s.InTurn → s'.InTurn
  behind : ∀ k ∈ s'.queue, k ∈ s.queue ∨ ∃ m, s'.pool.intervals[k]? = some m ∧ pos < m.start

namespace Queues

theorem trans (one : Queues pos s s') (two : Queues pos s' s'') : Queues pos s s'' := by
  refine ⟨one.steady.trans two.steady, fun inTurn => two.inTurn (one.inTurn inTurn), ?_⟩
  intro k member
  rcases two.behind k member with before | late
  · rcases one.behind k before with old | ⟨m, found, late⟩
    · exact .inl old
    · obtain ⟨m', found', same, -⟩ := two.steady.forth k m found
      exact .inr ⟨m', found', by rw [same]; exact late⟩
  · exact .inr late

theorem of_steady (known : s.Known) (steady : Steady s.pool s'.pool) (same : s'.queue = s.queue) :
    Queues pos s s' := by
  refine ⟨steady, fun inTurn => inTurn.congr same ?_, fun k member => .inl (same ▸ member)⟩
  intro k member j foundJ
  obtain ⟨m, found⟩ := known k member
  obtain ⟨j', foundJ', sameStart, -⟩ := steady.forth k m found
  obtain rfl := mem_unique foundJ foundJ'
  exact ⟨m, found, sameStart.symm⟩

theorem keeps_known (queues : Queues pos s s') (known : s.Known) : s'.Known := by
  intro k member
  rcases queues.behind k member with old | ⟨m, found, -⟩
  · obtain ⟨m, found⟩ := known k old
    obtain ⟨m', found', -⟩ := queues.steady.forth k m found
    exact ⟨m', found'⟩
  · exact ⟨m, found⟩

end Queues

theorem enqueue_queues (known : s.Known) (found : s.pool.intervals[id]? = some i)
    (late : pos < i.start) : ∃ queue, s.enqueue id = .ok { s with queue } ∧
      Queues pos s { s with queue } := by
  obtain ⟨queue, run, perm, inTurn⟩ := enqueue_total known found
  refine ⟨queue, run, .refl, inTurn, fun k member => ?_⟩
  rcases mem_cons.mp (perm.mem_iff.mp member) with rfl | old
  · exact .inr ⟨i, found, late⟩
  · exact .inl old

theorem splitAt_eq (found : s.pool.intervals[id]? = some i) (virtual : i.physical = false)
    (late : i.start < cut) (inside : cut < i.stop) :
    s.splitAt id cut = .ok (s.pool.size, { s with pool := s.pool.divided id i cut }) := by
  simp only [splitAt, IntervalPool.splitAt, IntervalPool.get_ok.mpr found, ok_bind, ensure,
    if_pos virtual, if_neg (Nat.not_le_of_lt late), if_pos inside]
  rfl

theorem splitAndQueue_queues (known : s.Known) (found : s.pool.intervals[id]? = some i)
    (virtual : i.physical = false) (sorted : Range.Sorted i.ranges) (late : i.start < cut)
    (inside : cut < i.stop) (behind : pos < cut) :
    ∃ queue, s.splitAndQueue id cut = .ok { s with pool := s.pool.divided id i cut, queue } ∧
      Queues pos s { s with pool := s.pool.divided id i cut, queue } := by
  have divided : Queues pos s { s with pool := s.pool.divided id i cut } :=
    .of_steady known (.of_divided found sorted late inside) rfl
  have isRest := divided_rest found cut
  obtain ⟨queue, run, queues⟩ := enqueue_queues (divided.keeps_known known) isRest
    (Nat.lt_of_lt_of_le behind (le_start_rest sorted inside))
  refine ⟨queue, ?_, divided.trans queues⟩
  rw [splitAndQueue, splitAt_eq found virtual late inside]
  exact run

theorem place_eq {place : Interval → Location} (found : s.pool.intervals[id]? = some i)
    (virtual : i.physical = false) : s.modify id (fun i => i.place (place i)) =
      .ok { s with pool := s.pool.set id { i with location := place i } } := by
  simp only [modify, IntervalPool.modify, IntervalPool.get_ok.mpr found, ok_bind,
    Interval.place, ensure, if_pos virtual]
  rfl

theorem assign_eq (found : s.pool.intervals[id]? = some i) (virtual : i.physical = false) :
    s.assign id reg =
      .ok { s with pool := s.pool.set id { i with location := .registerFor reg i.ty } } :=
  place_eq found virtual

end Scan

theorem Frame.spill_ends {scarce : RegisterClass → Prop} {f : Frame} {v : ValueId}
    {constant? : Option Word} {start stop : Position} :
    Ends scarce (fun _ => True) (f.spill v constant? start stop) := by
  unfold Frame.spill
  split
  · exact .of_ok trivial
  · exact .of_ok trivial
  · refine Ends.bind (?_ : Ends scarce (fun _ => True) _) fun _ _ _ => .of_ok trivial
    unfold Frame.takeSlot
    dsimp only
    split
    · exact .of_ok trivial
    · exact .inr (.inl ⟨_, rfl⟩)

namespace IntervalPool

variable {joint : Position → Prop} {p : IntervalPool} {id : IntervalId} {i : Interval} {v : ValueId}

theorem Tidy.chainEnd_total (tidy : Tidy joint p) (found : p.intervals[id]? = some i)
    (own : i.value = some v) : ∃ stop, p.chainEnd i.root = .ok stop := by
  obtain ⟨ty, ids, siblings⟩ := tidy.siblings v
  rw [chainEnd, siblings.chain_eq found own, ok_bind]
  split
  · exact ⟨0, rfl⟩
  · rename_i last isLast
    obtain ⟨m, foundM, -⟩ := (siblings.member last).mp (mem_of_getLast? isLast)
    rw [get_ok.mpr foundM, ok_bind]
    exact ⟨m.stop, rfl⟩

end IntervalPool

namespace Interval

variable {i : Interval} {pos use : Position} {u : Use}

theorem Apt.gap_lt_stop (apt : i.Apt) (fit : i.Fit) (isUse : i.nextUse? i.start = some use)
    (late : i.start < gapBefore use) : gapBefore use < i.stop := by
  obtain ⟨-, u, member, rfl, needs⟩ := Scan.nextUse_ok isUse
  rcases apt.used u member needs with ⟨-, here⟩ | ⟨positive, covered⟩
  · have := Scan.gapBefore_le u.pos
    lia
  · have := lt_stop fit.sorted covered
    have even := fit.even u member
    unfold gapBefore
    split <;> lia

def UsedLater (i : Interval) (pos : Position) : Prop :=
  ∀ use, i.nextUse? pos = some use → pos + 1 < use

theorem UsedLater.lt_gap (idle : i.UsedLater pos) (fit : i.Fit) (member : u ∈ i.uses)
    (needs : u.needsRegister = true) (late : gapBefore pos ≤ u.pos) : pos < gapBefore u.pos := by
  have even := fit.even u member
  have behind : pos ≤ u.pos := by
    unfold gapBefore at late
    split at late <;> lia
  have far : pos + 1 < u.pos := by
    cases isUse : i.nextUse? pos with
    | none =>
      have := lt_of_nextUse_none isUse member needs
      lia
    | some use =>
      have := nextUse_le fit isUse member needs behind
      have := idle use isUse
      lia
  unfold gapBefore
  split <;> lia

end Interval

namespace Scan

variable {scarce : RegisterClass → Prop} {c : Pass} {arrivals : Arrivals} {start : Scan}
  {base first p : IntervalPool} {pos cut use : Position} {raw hold hold' : List IntervalId}
  {s s' : Scan}
  {id : IntervalId} {i j : Interval} {reg : Nat} {v : ValueId}

structure Grounded (c : Pass) (p : IntervalPool) : Prop where
  constants : ∀ (id : IntervalId) (i : Interval) v, p.intervals[id]? = some i → i.value = some v →
    ∃ constant?, c.graph.constantOf? v = .ok constant?
  definitions : ∀ (id : IntervalId) (i : Interval) (d : InstrId), p.intervals[id]? = some i →
    i.definedBy = some d → ∃ x, c.graph.instrs[d]? = some x
  fixed : ∀ k ∈ c.fixed, ∃ i, p.intervals[k]? = some i

theorem Grounded.of_served (grounded : Grounded c base) (served : base.Served p) : Grounded c p := by
  refine ⟨?_, ?_, ?_⟩
  · intro id i v found own
    obtain ⟨k, i₀, found₀, value, -⟩ := served.origin id i found
    exact grounded.constants k i₀ v found₀ (value.symm.trans own)
  · intro id i d found defined
    obtain ⟨k, i₀, found₀, -, -, origin⟩ := served.origin id i found
    exact grounded.definitions k i₀ d found₀ (origin d defined)
  · intro k member
    obtain ⟨i, found⟩ := grounded.fixed k member
    obtain ⟨j, foundJ, -⟩ := served.stays k i found
    exact ⟨j, foundJ⟩

section

variable (grounded : Grounded c base) (serving : Serving c base first hold s)
  (found : s.pool.intervals[id]? = some i) (virtual : i.physical = false)
  (unpinned : i.pinned = false)

include grounded serving found virtual unpinned

theorem spill_ends : Ends scarce (Queues pos s) (s.spill c id) := by
  have tidy := serving.served.tidy
  obtain ⟨v, own⟩ : ∃ v, i.value = some v := isSome_iff_exists.mp
    (by simpa [virtual] using (tidy.fit id i found).kind.symm)
  obtain ⟨stop, isStop⟩ := tidy.chainEnd_total found own
  obtain ⟨constant?, constant⟩ := (grounded.of_served serving.served).constants id i v found own
  have finish : ∀ constant?, Ends scarce (Queues pos s)
      (s.frame.spill v constant? i.start stop >>= fun r =>
      (liftM (modify { s with frame := { r.2 with spilled := r.2.spilled + 1 } } id
        (·.place r.1)) : Attempt AllocationError Scan)) := by
    intro constant?
    refine Frame.spill_ends.bind fun r _ _ => .of_lift ⟨_, place_eq found virtual, ?_⟩
    have same : i.Relabelled { i with location := r.1 } := rfl
    exact .of_steady serving.all_known (.of_set found same) rfl
  simp only [spill, IntervalPool.get_ok.mpr found, lift_of_ok, ok_bind, ensure,
    if_pos (And.intro virtual unpinned), own, isStop]
  cases home : s.frame.home? v with
  | some place => exact finish none
  | none =>
    simp only [constant, lift_of_ok, ok_bind]
    exact finish constant?

theorem retire_ends (behind : ∀ use, i.nextUse? i.start = some use → pos < gapBefore use) :
    Ends scarce (Queues pos s) (s.retire c id) := by
  have fit := serving.served.tidy.fit id i found
  have apt := serving.served.each id i found
  have spilled : Ends scarce (Queues pos s) (s.spill c id) :=
    spill_ends grounded serving found virtual unpinned
  simp only [retire, IntervalPool.get_ok.mpr found, lift_of_ok, ok_bind]
  split
  · exact spilled
  · rename_i use isUse
    split
    · rename_i late
      refine spilled.bind fun mid isMid queues => .of_lift ?_
      obtain ⟨i', v, constant?, stop, l, frame, found', -, -, -, -, rfl⟩ := Scanning.spill_ok isMid
      obtain rfl := mem_unique found found'
      have isJ := set_self found { i with location := l }
      obtain ⟨queue, run, more⟩ := splitAndQueue_queues (queues.keeps_known serving.all_known)
        isJ virtual fit.sorted late (apt.gap_lt_stop fit isUse late) (behind use isUse)
      exact ⟨_, run, queues.trans more⟩
    · rename_i early
      simp only [place_eq found virtual, lift_of_ok, ok_bind]
      have same : i.Relabelled { i with location := .invalid } := rfl
      have vacated : Queues pos s { s with pool := s.pool.set id { i with location := .invalid } } :=
        .of_steady serving.all_known (.of_set found same) rfl
      have isJ := set_self found { i with location := .invalid }
      obtain ⟨queue, run, more⟩ := enqueue_queues (vacated.keeps_known serving.all_known) isJ
        (Nat.lt_of_lt_of_le (behind use isUse) (Nat.le_of_not_lt early))
      exact .of_lift ⟨_, run, vacated.trans more⟩

end

theorem gap_le_of_leavingPoint (fit : i.Fit) {u : Use} (member : u ∈ i.uses)
    (late : leavingPoint i pos ≤ u.pos) : gapBefore pos ≤ u.pos := by
  by_contra early
  unfold leavingPoint at late
  split at late
  · rename_i last isLast
    simp only [lastUseBefore?, map_eq_some_iff] at isLast
    obtain ⟨w, isLast, rfl⟩ := isLast
    obtain ⟨-, after, before, split, others⟩ := find?_eq_some_iff_append.mp isLast
    have inReverse : u ∈ i.uses.reverse := mem_reverse.mpr member
    have sorted : i.uses.reverse.Pairwise fun u v => v.pos ≤ u.pos :=
      pairwise_reverse.mpr fit.uses
    rw [split] at inReverse sorted
    rcases mem_append.mp inReverse with isLater | isRest
    · have := others u isLater
      simp only [Bool.not_eq_true', decide_eq_false_iff_not] at this
      exact this (Nat.lt_of_not_le early)
    · rcases mem_cons.mp isRest with rfl | isEarlier
      · lia
      · have := (pairwise_cons.mp (pairwise_append.mp sorted).2.1).1 u isEarlier
        lia
  · exact early late

theorem evict_ends (grounded : Grounded c base) (serving : Serving c base first hold s)
    (found : s.pool.intervals[id]? = some i) (cls : i.regClass = c.regClass)
    (virtual : i.physical = false) (unpinned : i.pinned = false) (behind : pos < i.stop)
    (idle : i.UsedLater pos) : Ends scarce (Queues pos s) (evict c pos s id) := by
  have fit := serving.served.tidy.fit id i found
  have apt := serving.served.each id i found
  rw [evict_eq found]
  split
  · rename_i early
    refine retire_ends grounded serving found virtual unpinned fun use isUse => ?_
    obtain ⟨started, u, member, rfl, needs⟩ := nextUse_ok isUse
    exact idle.lt_gap fit member needs (gap_le_of_leavingPoint fit member (early.trans started))
  · rename_i late
    replace late := Nat.lt_of_not_le late
    have inside : leavingPoint i pos < i.stop := by
      have := gapBefore_le pos
      rcases leavingPoint_cases i pos with here | ⟨u, -, early, here⟩
      · lia
      · lia
    have odd : leavingPoint i pos % 2 = 1 := by
      rcases leavingPoint_cases i pos with here | ⟨u, member, -, here⟩
      · rw [here] at late ⊢
        exact gapBefore_odd (Nat.zero_lt_of_lt late)
      · have := fit.even u member
        lia
    rw [splitAt_eq found virtual late inside, lift_of_ok, ok_bind]
    have divided := serving.after_divide found cls virtual late inside odd
    have kept : Queues pos s { s with pool := s.pool.divided id i (leavingPoint i pos) } :=
      .of_steady serving.all_known (.of_divided found fit.sorted late inside) rfl
    have isRest := divided_rest found (leavingPoint i pos)
    refine (retire_ends grounded divided isRest rfl rfl fun use isUse => ?_).mono
      fun s' _ queues => kept.trans queues
    obtain ⟨-, u, member, rfl, needs⟩ := nextUse_ok isUse
    obtain ⟨member, later⟩ := (mem_uses_rest fit).mp member
    exact idle.lt_gap fit member needs (gap_le_of_leavingPoint fit member later)

theorem evictAll_ends {leaving : List IntervalId} (grounded : Grounded c base)
    (scanning : Scanning c arrivals start pos raw (leaving ++ hold) s)
    (serving : Serving c base first hold' s)
    (known : ∀ r ∈ raw, r ∉ leaving ∧ r < s.pool.size)
    (each : ∀ k ∈ leaving, ∃ m, s.pool.intervals[k]? = some m ∧ m.location.isInvalid = false ∧
      m.start ≤ pos ∧ pos < m.stop ∧ m.UsedLater pos) :
    Ends scarce (Queues pos s) (leaving.foldlM (evict c pos) s) := by
  induction leaving generalizing s with
  | nil => exact .of_ok (.of_steady serving.all_known .refl rfl)
  | cons id rest ih =>
    obtain ⟨i, found, placed, started, behind, idle⟩ := each id mem_cons_self
    obtain ⟨isMine, unpinned⟩ := scanning.occupancy.held_mine mem_cons_self found
    have once : id ∉ rest := by
      have := (nodup_append.mp scanning.occupancy.once).2.1
      exact fun member => (nodup_cons.mp this).1 (mem_append_left hold member)
    rw [foldlM_cons]
    refine (evict_ends grounded serving found isMine.2 isMine.1 unpinned behind idle).bind
      fun mid evicted queues => ?_
    obtain ⟨scanning', left⟩ := scanning.after_evict (fun r member =>
      ⟨fun here => (known r member).1 (here ▸ mem_cons_self), (known r member).2⟩) found placed
      started behind evicted
    obtain ⟨serving', -⟩ := serving.after_evict ⟨i, found, isMine.2⟩ evicted
    refine (ih scanning' serving' ?_ ?_).mono fun s' _ more => queues.trans more
    · intro r member
      obtain ⟨fresh, old⟩ := known r member
      exact ⟨fun inRest => fresh (mem_cons_of_mem id inRest), Nat.lt_of_lt_of_le old left.size⟩
    · intro k member
      obtain ⟨m, foundM, facts⟩ := each k (mem_cons_of_mem id member)
      refine ⟨m, ?_, facts⟩
      rw [left.others k (found_lt foundM), foundM]
      simp only [mem_singleton]
      rintro rfl
      exact once member

theorem clear_ends {leaving active inactive : List IntervalId} (grounded : Grounded c base)
    (scanning : Scanning c arrivals start pos [id] [id] s) (serving : Serving c base first hold s)
    (same : (leaving ++ (active ++ inactive)).Perm (s.active ++ s.inactive))
    (each : ∀ k ∈ leaving, ∀ m, s.pool.intervals[k]? = some m →
      m.pinned = false ∧ pos < m.stop ∧ m.UsedLater pos) :
    Ends scarce (Queues pos s) (leaving.foldlM (evict c pos) { s with active, inactive }) := by
  have occ := scanning.occupancy
  have listed : ∀ k ∈ leaving, k ∈ s.active ++ s.inactive := fun k member =>
    same.mem_iff.mp (mem_append_left _ member)
  have unlisted := scanning.with_lists (occ.after_unlist same fun k member m foundM =>
    (each k member m foundM).1)
  have unlisting : Queues pos s { s with active, inactive } :=
    .of_steady serving.all_known .refl rfl
  refine (evictAll_ends grounded unlisted (serving.after_unlist active inactive fun k member =>
    same.mem_iff.mp (mem_append_right _ member)) ?_ ?_).mono fun s' _ more =>
      unlisting.trans more
  · intro r member
    obtain rfl : r = id := by simpa using member
    obtain ⟨i, found, -⟩ := occ.loose r (by simp)
    exact ⟨fun leaves => occ.not_listed mem_cons_self (listed r leaves),
      (found_lt found)⟩
  · intro k member
    obtain ⟨-, m, foundM, inside, started⟩ := occ.listed k (listed k member)
    obtain ⟨-, behind, idle⟩ := each k member m foundM
    exact ⟨m, foundM, isInvalid_of_inClass inside.2.1, started, behind, idle⟩

theorem regOf_eq (found : s.pool.intervals[id]? = some i) :
    s.regOf c id = .ok (if i.location.inClass c.regClass then some i.location.index else none) := by
  simp only [regOf, IntervalPool.get_ok.mpr found, ok_bind]
  rfl

theorem holders_total {test : IntervalId → Interval → Bool} {ids : List IntervalId}
    (known : ∀ k ∈ ids, ∃ m, s.pool.intervals[k]? = some m) :
    ∃ leaving, s.holders c reg test ids = .ok leaving := by
  refine filterM_total fun k member => ?_
  obtain ⟨m, found⟩ := known k member
  simp only [regOf_eq found, IntervalPool.get_ok.mpr found, ok_bind]
  exact ⟨_, rfl⟩

theorem sweep_ends (grounded : Grounded c base)
    (scanning : Scanning c arrivals start pos [id] [id] s) (serving : Serving c base first [] s)
    (found : s.pool.intervals[id]? = some i)
    (live : s.Live pos) (unpinned : s.Removable c reg)
    (idle : ∀ k m, s.pool.intervals[k]? = some m → m.location.inClass c.regClass = true →
      m.location.index = reg → m.pinned = false →
      k ∈ s.active ∨ (k ∈ s.inactive ∧ (m.meets? i pos).isSome = true) → m.UsedLater pos) :
    Ends scarce (Queues pos s) (do
      let leaving ← (s.holders c reg (fun other _ => other != id) s.active :)
      let s ← leaving.foldlM (evict c pos) { s with active := s.active.filter (· ∉ leaving) }
      let i ← (s.pool.get id :)
      let leaving ← (s.holders c reg
        (fun _ other => !other.pinned && (other.meets? i pos).isSome) s.inactive :)
      leaving.foldlM (evict c pos) { s with inactive := s.inactive.filter (· ∉ leaving) }) := by
  have occ := scanning.occupancy
  have notListed : id ∉ s.active ++ s.inactive := occ.not_listed mem_cons_self
  obtain ⟨leaving, isLeaving⟩ : ∃ leaving,
      s.holders c reg (fun other _ => other != id) s.active = .ok leaving :=
    holders_total fun k member => by
      obtain ⟨-, m, foundM, -⟩ := occ.listed k (mem_append_left _ member)
      exact ⟨m, foundM⟩
  rw [isLeaving, lift_of_ok, ok_bind]
  obtain ⟨perm, -⟩ := holders_ok isLeaving
  refine (clear_ends grounded scanning serving
    (by rw [← append_assoc]; exact perm.append_right _) fun k member m foundM => ?_).bind
    fun left evicted queues => ?_
  · obtain ⟨isActive, inClass, index, free, behind⟩ :=
      Scanning.leaving_active live unpinned isLeaving member foundM
    exact ⟨free, behind, idle k m foundM inClass index free (.inl isActive)⟩
  obtain ⟨after, gone, unmoved⟩ := scanning.after_sweepActive live unpinned isLeaving evicted
  have sameList : left.inactive = s.inactive := gone.inactive
  obtain ⟨unlisted, leavers⟩ := serving.after_letGo isLeaving (by grind)
    (s.active.filter (· ∉ leaving)) s.inactive (by grind)
  obtain ⟨cleared, -⟩ := unlisted.after_evictAll leavers evicted
  have isLeft := unmoved id i (fun member => notListed (mem_append_left _ member)) found
  obtain ⟨leaving', isLeaving'⟩ : ∃ leaving', left.holders c reg
      (fun _ other => !other.pinned && (other.meets? i pos).isSome) left.inactive = .ok leaving' :=
    holders_total fun k member => by
      obtain ⟨-, m, foundM, -⟩ := after.occupancy.listed k (mem_append_right _ member)
      exact ⟨m, foundM⟩
  rw [IntervalPool.get_ok.mpr isLeft, lift_of_ok, ok_bind, isLeaving', lift_of_ok, ok_bind]
  refine (clear_ends grounded after cleared (Scanning.rest_perm isLeaving') fun k member m foundM =>
    ?_).mono fun s' _ more => queues.trans more
  obtain ⟨isIn, foundS, inClass, index, meets, free, behind⟩ :=
    Scanning.leaving_inactive occ live sameList unmoved isLeaving' member foundM
  exact ⟨free, behind, idle k m foundS inClass index free (.inr ⟨isIn, meets⟩)⟩

theorem takeOver_ends (grounded : Grounded c base)
    (scanning : Scanning c arrivals start pos [] [id] s) (serving : Serving c base first [id] s)
    (found : s.pool.intervals[id]? = some i) (isStart : i.start = pos) (live : s.Live pos)
    {hard : List Demand} (isHard : s.hardDemands c i = .ok hard)
    (late : i.start < gapBefore (limit hard reg))
    (idle : ∀ k m, s.pool.intervals[k]? = some m → m.location.inClass c.regClass = true →
      m.location.index = reg → m.pinned = false →
      k ∈ s.active ∨ (k ∈ s.inactive ∧ (m.meets? i pos).isSome = true) → m.UsedLater pos) :
    Ends scarce (Queues pos s) (s.takeOver c id i.start reg (limit hard reg)) := by
  have occ := scanning.occupancy
  have fit := occ.tidy.fit id i found
  have isMine := (occ.held_mine mem_cons_self found).1
  have positive : 0 < limit hard reg := by
    have := gapBefore_le (limit hard reg)
    lia
  have same : i.Relabelled { i with location := .registerFor reg i.ty } := rfl
  have isJ := set_self found { i with location := .registerFor reg i.ty }
  have given : Queues pos s
      { s with pool := s.pool.set id { i with location := .registerFor reg i.ty } } :=
    .of_steady serving.all_known (.of_set found same) rfl
  have assigned : s.assign id reg =
      .ok { s with pool := s.pool.set id { i with location := .registerFor reg i.ty } } :=
    assign_eq found isMine.1
  -- Once the interval has its register, others are swept out of it.
  have rest : ∀ last : Scan, Queues pos s last →
      (limit hard reg < Interval.stop { i with location := .registerFor reg i.ty } ∧
        splitAndQueue { s with pool := s.pool.set id { i with location := .registerFor reg i.ty } }
          id (gapBefore (limit hard reg)) = .ok last) ∨
      (Interval.stop { i with location := .registerFor reg i.ty } ≤ limit hard reg ∧
        last = { s with pool := s.pool.set id { i with location := .registerFor reg i.ty } }) →
      Ends scarce (Queues pos s) (do
        let leaving ← (last.holders c reg (fun other _ => other != id) last.active :)
        let s ← leaving.foldlM (evict c i.start)
          { last with active := last.active.filter (· ∉ leaving) }
        let j ← (s.pool.get id :)
        let leaving ← (s.holders c reg
          (fun _ other => !other.pinned && (other.meets? j i.start).isSome) s.inactive :)
        leaving.foldlM (evict c i.start)
          { s with inactive := s.inactive.filter (· ∉ leaving) }) := by
    intro last queues step
    obtain ⟨seized, ⟨sameActive, sameInactive⟩, ⟨piece, isPiece, isPart, -⟩, -, others⟩ :=
      scanning.after_seize found late assigned isJ step
    obtain ⟨servingLast, -⟩ := serving.after_seize ⟨i, found, isMine.2⟩ found late assigned isJ step
    obtain ⟨listed, live', unpinned⟩ :=
      live.after_seize occ isHard positive ⟨sameActive, sameInactive⟩ others
    rw [isStart]
    refine (sweep_ends grounded seized servingLast isPiece live' unpinned ?_).mono fun s' _ more =>
      queues.trans more
    · rw [sameActive, sameInactive]
      intro k m foundM inClass index free reason
      rcases reason with isActive | ⟨isIn, meets⟩
      · exact idle k m (listed k (by simp [isActive]) m foundM) inClass index free (.inl isActive)
      · have foundS := listed k (by simp [isIn]) m foundM
        refine idle k m foundS inClass index free (.inr ⟨isIn, ?_⟩)
        obtain ⟨q, isQ⟩ := isSome_iff_exists.mp meets
        obtain ⟨-, coversM, coversJ⟩ := meets_covers isQ
        have coversI := (isPart.covers q coversJ).1
        obtain ⟨first, meets', -⟩ := meets_le (occ.tidy.fit k m foundS).sorted fit.sorted
          (isStart ▸ start_le fit.sorted coversI) coversM coversI
        simp [meets']
  simp only [takeOver, assigned, lift_of_ok, ok_bind, IntervalPool.get_ok.mpr isJ]
  split
  · rename_i before
    have lateJ : Interval.start { i with location := .registerFor reg i.ty } <
        gapBefore (limit hard reg) := late
    obtain ⟨queue, run, more⟩ := splitAndQueue_queues (given.keeps_known serving.all_known)
      isJ isMine.1 fit.sorted lateJ (Nat.lt_of_le_of_lt (gapBefore_le _) before)
      (show pos < gapBefore (limit hard reg) from isStart ▸ late)
    rw [run, lift_of_ok, ok_bind]
    exact rest _ (given.trans more) (.inl ⟨before, run⟩)
  · exact rest _ given (.inr ⟨Nat.le_of_not_lt ‹_›, rfl⟩)

theorem demandsOf_total (demand : Interval → Option Position) {ids : List IntervalId}
    (known : ∀ k ∈ ids, ∃ m, s.pool.intervals[k]? = some m) :
    ∃ demands, s.demandsOf c demand ids = .ok demands := by
  refine bind_total (mapM_total fun k member => ?_) fun _ _ => ⟨_, rfl⟩
  obtain ⟨m, found⟩ := known k member
  rw [regOf_eq found, ok_bind]
  split
  · exact ⟨_, rfl⟩
  · rw [IntervalPool.get_ok.mpr found]
    exact ⟨_, rfl⟩

theorem callDemands_total (grounded : Grounded c s.pool)
    (found : s.pool.intervals[id]? = some i) : ∃ demands, s.callDemands c i = .ok demands := by
  refine bind_total ?_ fun lo _ => bind_total (mapM_total fun k member => ?_) fun _ _ => ⟨_, rfl⟩
  · unfold callsFrom
    split
    · exact ⟨_, rfl⟩
    · rename_i d defined
      obtain ⟨x, foundX⟩ := grounded.definitions id i d found defined
      rw [Graph.instr_ok.mpr foundX]
      exact ⟨_, rfl⟩
  · obtain ⟨m, foundM⟩ := grounded.fixed k member
    rw [IntervalPool.get_ok.mpr foundM]
    exact ⟨_, rfl⟩

theorem Serving.listed_found (serving : Serving c base first hold s) :
    ∀ k ∈ s.active ++ s.inactive, ∃ m, s.pool.intervals[k]? = some m := by
  intro k member
  obtain ⟨m, found, -⟩ := serving.own k (mem_append_right _ member)
  exact ⟨m, found⟩

section

variable (grounded : Grounded c base) (serving : Serving c base first hold s)
  (found : s.pool.intervals[id]? = some i)

include grounded serving found

theorem demands_total :
    (∃ free, s.freeDemands c i = .ok free) ∧ (∃ hard, s.hardDemands c i = .ok hard) ∧
      ∃ soft, s.softDemands c i = .ok soft := by
  have active : ∀ k ∈ s.active, ∃ m, s.pool.intervals[k]? = some m := fun k member =>
    serving.listed_found k (mem_append_left _ member)
  have inactive : ∀ k ∈ s.inactive, ∃ m, s.pool.intervals[k]? = some m := fun k member =>
    serving.listed_found k (mem_append_right _ member)
  obtain ⟨calls, isCalls⟩ := callDemands_total (grounded.of_served serving.served) found
  refine ⟨?_, ?_, ?_⟩
  · exact bind_total (demandsOf_total _ active) fun _ _ =>
      bind_total (demandsOf_total _ inactive) fun _ _ => bind_total ⟨calls, isCalls⟩ fun _ _ =>
        ⟨_, rfl⟩
  · exact bind_total (demandsOf_total _ active) fun _ _ =>
      bind_total (demandsOf_total _ inactive) fun _ _ => bind_total ⟨calls, isCalls⟩ fun _ _ =>
        ⟨_, rfl⟩
  · exact bind_total (demandsOf_total _ active) fun _ _ =>
      bind_total (demandsOf_total _ inactive) fun _ _ => ⟨_, rfl⟩

theorem tryFree_total (virtual : i.physical = false) :
    ∃ free, s.tryFree c id = .ok free ∧ ∀ s', free = some s' → Queues i.start s s' := by
  have fit := serving.served.tidy.fit id i found
  obtain ⟨⟨demands, isFree⟩, -⟩ := demands_total grounded serving found
  simp only [tryFree, IntervalPool.get_ok.mpr found, ok_bind, isFree]
  split
  · exact ⟨none, rfl, by simp⟩
  · rename_i reg lim isBest
    split
    · exact ⟨none, rfl, by simp⟩
    split
    · rename_i short
      split
      · exact ⟨none, rfl, by simp⟩
      · rename_i gap
        replace gap := Nat.lt_of_not_le gap
        obtain ⟨queue, run, queues⟩ := splitAndQueue_queues serving.all_known found virtual fit.sorted
          gap (Nat.lt_of_le_of_lt (gapBefore_le lim) short) gap
        have isKept := divided_kept found (gapBefore lim)
        have isVirtual : physical
            { i.upTo (gapBefore lim) with sibling := some s.pool.size } = false := virtual
        rw [run, ok_bind, assign_eq isKept isVirtual, ok_bind]
        refine ⟨_, rfl, fun s' isS' => ?_⟩
        obtain rfl := some.inj isS'
        have same : Relabelled { i.upTo (gapBefore lim) with sibling := some s.pool.size }
            { i.upTo (gapBefore lim) with
              sibling := some s.pool.size, location := .registerFor reg i.ty } := rfl
        exact queues.trans (.of_steady (queues.keeps_known serving.all_known)
          (.of_set isKept same) rfl)
    · rw [assign_eq found virtual, ok_bind]
      refine ⟨_, rfl, fun s' isS' => ?_⟩
      obtain rfl := some.inj isS'
      have same : i.Relabelled { i with location := .registerFor reg i.ty } := rfl
      exact .of_steady serving.all_known (.of_set found same) rfl

end

theorem softDemands_ok {soft : List Demand} (run : s.softDemands c i = .ok soft) :
    ∃ active inactive,
      s.demandsOf c (fun other => if other.pinned then none else other.nextUse? i.start) s.active =
        .ok active ∧
      s.demandsOf c (fun other => if (other.meets? i i.start).isSome then
          if other.pinned then none else other.nextUse? i.start else none) s.inactive =
        .ok inactive ∧ soft = active ++ inactive := by
  simp only [softDemands, bind_ok, pure_ok] at run
  obtain ⟨active, isActive, inactive, isInactive, rfl⟩ := run
  exact ⟨active, inactive, isActive, isInactive, rfl⟩

theorem usedLater_of_soft {hard soft : List Demand} (served : base.Served s.pool)
    (isSoft : s.softDemands c i = .ok soft) (isStart : i.start = pos) (started : pos ≤ use)
    (even : use % 2 = 0) (later : use < limit (hard ++ soft) reg) {k : IntervalId} {m : Interval}
    (found : s.pool.intervals[k]? = some m) (inClass : m.location.inClass c.regClass = true)
    (index : m.location.index = reg) (free : m.pinned = false)
    (reason : k ∈ s.active ∨ (k ∈ s.inactive ∧ (m.meets? i pos).isSome = true)) :
    m.UsedLater pos := by
  intro use' isUse
  obtain ⟨active, inactive, isActive, isInactive, rfl⟩ := softDemands_ok isSoft
  have demand : (reg, use') ∈ hard ++ (active ++ inactive) := by
    rw [← index]
    rcases reason with isIn | ⟨isIn, meets⟩
    · have := demandsOf_ok isActive isIn found inClass (q := use') (by simp [free, isStart, isUse])
      simp [this]
    · have := demandsOf_ok isInactive isIn found inClass (q := use')
        (by simp [free, isStart, isUse, meets])
      simp [this]
  obtain ⟨-, u, member, rfl, -⟩ := nextUse_ok isUse
  have evenU := (served.tidy.fit k m found).even u member
  have := limit_le demand
  lia

/-- Finding a place takes a slot at most, unless registers may be scarce or there is no relief where
they are wanted. -/
theorem allocateBlocked_ends (grounded : Grounded c base)
    (scanning : Scanning c arrivals start pos [] [id] s) (serving : Serving c base first [id] s)
    (found : s.pool.intervals[id]? = some i) (isStart : i.start = pos) (live : s.Live pos)
    (filled : ¬scarce c.regClass → c.regs.toList ≠ [])
    (relief : ¬scarce c.regClass → ∀ use hard soft reg lim, i.nextUse? i.start = some use →
      s.hardDemands c i = .ok hard → s.softDemands c i = .ok soft →
      furthest c.regs.toList (limit (hard ++ soft)) = some (reg, lim) → lim ≤ use →
      i.start < gapBefore use) : Ends scarce (Queues pos s) (s.allocateBlocked c id) := by
  have fit := serving.served.tidy.fit id i found
  have apt := serving.served.each id i found
  obtain ⟨isMine, unpinned⟩ := scanning.occupancy.held_mine mem_cons_self found
  obtain ⟨-, ⟨hard, isHard⟩, soft, isSoft⟩ := demands_total grounded serving found
  simp only [allocateBlocked, IntervalPool.get_ok.mpr found, lift_of_ok, ok_bind]
  cases isUse : i.nextUse? i.start with
  | none => exact spill_ends grounded serving found isMine.1 unpinned
  | some use =>
    simp only [isHard, isSoft, lift_of_ok, ok_bind]
    split
    · rename_i none
      refine .inr (.inr ⟨c.regClass, ?_, rfl⟩)
      by_contra plenty
      rcases furthest_cases c.regs.toList (limit (hard ++ soft)) with ⟨empty, -⟩ | ⟨_, -, isBest, -⟩
      · exact filled plenty empty
      · simp [none] at isBest
    rename_i reg lim isBest
    obtain ⟨-, rfl, -⟩ := furthest_ok isBest
    obtain ⟨started, u, member, rfl, -⟩ := nextUse_ok isUse
    split
    · by_cases tight : gapBefore u.pos ≤ i.start
      · rw [if_pos tight]
        refine .inr (.inr ⟨c.regClass, ?_, rfl⟩)
        by_contra plenty
        have := relief plenty u.pos hard soft reg _ isUse isHard isSoft isBest ‹_›
        lia
      have gap := Nat.lt_of_not_le tight
      have inside := apt.gap_lt_stop fit isUse gap
      have odd := gapBefore_odd (Nat.zero_lt_of_lt gap)
      rw [if_neg (Nat.not_le_of_lt gap), splitAt_eq found isMine.1 gap inside, lift_of_ok, ok_bind]
      have divided := serving.after_divide found isMine.2 isMine.1 gap inside odd
      have cutOff : Queues pos s { s with pool := s.pool.divided id i (gapBefore u.pos) } :=
        .of_steady serving.all_known (.of_divided found fit.sorted gap inside) rfl
      have isKept := divided_kept found (gapBefore u.pos)
      have isRest := divided_rest found (gapBefore u.pos)
      have spilled : Ends scarce (Queues pos { s with pool := s.pool.divided id i (gapBefore u.pos) })
          (spill c { s with pool := s.pool.divided id i (gapBefore u.pos) } id) :=
        spill_ends grounded divided isKept isMine.1 unpinned
      refine spilled.bind fun mid _ queues => .of_lift ?_
      have before := cutOff.trans queues
      obtain ⟨m, foundM, sameStart, -⟩ := queues.steady.forth _ _ isRest
      have := le_start_rest fit.sorted inside
      have behind : pos < m.start := by
        have : (i.rest (gapBefore u.pos)).start = m.start := sameStart.symm
        lia
      obtain ⟨queue, run, more⟩ := enqueue_queues (before.keeps_known serving.all_known) foundM behind
      exact ⟨_, run, before.trans more⟩
    · rename_i later
      replace later := Nat.lt_of_not_le later
      have even := fit.even u member
      have bound : limit (hard ++ soft) reg ≤ limit hard reg := limit_append_le
      have late : i.start < gapBefore (limit hard reg) := by
        have := lt_gapBefore even (Nat.lt_of_lt_of_le later bound)
        lia
      refine takeOver_ends grounded scanning serving found isStart live isHard late ?_
      intro k m foundM inClass index free reason
      exact usedLater_of_soft serving.served isSoft isStart (isStart ▸ started) even later foundM
        inClass index free reason

theorem advance_total (pos : Position)
    (known : ∀ k ∈ s.active ++ s.inactive, ∃ m, s.pool.intervals[k]? = some m) :
    ∃ s', s.advance pos = .ok s' := by
  refine bind_total (mapM_total fun k member => ?_) fun _ _ => ⟨_, rfl⟩
  obtain ⟨m, found⟩ := known k member
  rw [IntervalPool.get_ok.mpr found]
  exact ⟨_, rfl⟩

theorem placeNext_ends {next : Position} {rest : List IntervalId} (grounded : Grounded c base)
    (scanning : Scanning c arrivals start pos [] [] s) (serving : Serving c base first [] s)
    (isQueue : s.queue = id :: rest) (found : s.pool.intervals[id]? = some i)
    (isStart : i.start = next) (later : pos ≤ next)
    (filled : ¬scarce c.regClass → c.regs.toList ≠ [])
    (relief : ¬scarce c.regClass → ∀ t : Scan, Scanning c arrivals start next [] [id] t →
      Serving c base first [id] t →
      t.pool.intervals[id]? = some i →
      (∀ k ∈ t.active ++ t.inactive, ∀ m, t.pool.intervals[k]? = some m → next < m.stop) →
      ∀ use hard soft reg lim, i.nextUse? i.start = some use → t.hardDemands c i = .ok hard →
        t.softDemands c i = .ok soft →
        furthest c.regs.toList (limit (hard ++ soft)) = some (reg, lim) → lim ≤ use →
        i.start < gapBefore use) :
    Ends scarce (Queues next { s with queue := rest }) (placeNext c { s with queue := rest } id) := by
  have popped := scanning.with_lists (scanning.occupancy.after_pop isQueue)
  have poppedServing := serving.after_pop isQueue
  obtain ⟨mid, advanced⟩ := advance_total next poppedServing.listed_found
  obtain ⟨scanning', samePool, -, live⟩ := popped.after_advance later advanced
  obtain ⟨active, inactive, rfl, less⟩ := Serving.advance_ok advanced
  have serving' := poppedServing.after_unlist active inactive less
  have known : Known { s with queue := rest } := poppedServing.all_known
  have foundMid : ({ s with queue := rest, active, inactive } : Scan).pool.intervals[id]? =
    some i := found
  have isMine := (scanning'.occupancy.held_mine mem_cons_self foundMid).1
  -- In the end the interval is listed if it is in a register.
  have conclude : ∀ last : Scan, Queues next { s with queue := rest } last →
      Ends scarce (Queues next { s with queue := rest }) (do
        if (← (last.regOf c id :)).isSome then return { last with active := last.active ++ [id] }
        return last) := by
    intro last queues
    obtain ⟨m, foundM, -⟩ := queues.steady.forth id i found
    rw [regOf_eq foundM, lift_of_ok, ok_bind]
    split
    · exact .of_ok (queues.trans (.of_steady (queues.keeps_known known) .refl rfl))
    · exact .of_ok queues
  have listing : Queues next { s with queue := rest } { s with queue := rest, active, inactive } :=
    .of_steady known .refl rfl
  obtain ⟨free, isFree, given⟩ := tryFree_total grounded serving' foundMid isMine.1
  have begins : Scan.start { s with queue := rest } id = .ok next := by
    simp only [Scan.start, IntervalPool.get_ok.mpr found, ok_bind]
    rw [isStart]
    rfl
  simp only [placeNext, begins, lift_of_ok, ok_bind, advanced, isFree]
  cases free with
  | some last => exact conclude last (listing.trans (isStart ▸ given last rfl))
  | none =>
    exact (allocateBlocked_ends grounded scanning' serving' foundMid isStart live filled
      fun plenty => relief plenty _ scanning' serving' foundMid live).bind fun last _ queues =>
        conclude last (listing.trans queues)

end Scan

end RegisterAllocation
