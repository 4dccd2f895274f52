import RegisterAllocation.Proofs.Pressure
import RegisterAllocation.Proofs.Progress

/-!
Five registers in each class are enough. Parameters and zeros are received without fail, each step of
the scan leaves less to do, and an interval that finds all registers wanted can wait. So a scan gives
every interval a location, unless it runs out of stack slots.
-/

namespace RegisterAllocation

open List Option Graph Instr Interval IntervalPool

namespace Scan

variable {scarce : RegisterClass → Prop} {c : Pass} {arrivals : Arrivals} {start : Scan}
  {base first : IntervalPool} {pos next q last : Position} {s s' : Scan} {id : IntervalId}
  {i j : Interval} {v : ValueId} {l : Location}

theorem modify_eq {f : Interval → Interval} (found : s.pool.intervals[id]? = some i) :
    s.modify id (fun i => return f i) = .ok { s with pool := s.pool.set id (f i) } := by
  simp only [modify, IntervalPool.modify, get_ok.mpr found, ok_bind]
  rfl

theorem InTurn.known_apart {p : IntervalPool} (inTurn : s.InTurn) (known : s.Known)
    (free : id ∉ s.queue)
    (others : ∀ k, k ≠ id → k ≠ s.pool.size → p.intervals[k]? = s.pool.intervals[k]?) :
    Known { s with pool := p } ∧ InTurn { s with pool := p } := by
  have same : ∀ k ∈ s.queue, p.intervals[k]? = s.pool.intervals[k]? := by
    intro k member
    obtain ⟨m, found⟩ := known k member
    refine others k ?_ (Nat.ne_of_lt (found_lt found))
    rintro rfl
    exact free member
  refine ⟨fun k member => ?_, inTurn.congr rfl fun k member m foundM => ?_⟩
  · obtain ⟨m, found⟩ := known k member
    exact ⟨m, (same k member).trans found⟩
  · exact ⟨m, (same k member).symm.trans foundM, rfl⟩

theorem arriveInRegister_total (fixed : ∀ k ∈ c.fixed, ∃ m, s.pool.intervals[k]? = some m)
    (known : s.Known) (inTurn : s.InTurn) (free : id ∉ s.queue)
    (found : s.pool.intervals[id]? = some i) (virtual : i.physical = false)
    (sorted : Range.Sorted i.ranges) (positive : 0 < i.start) (even : i.start % 2 = 0)
    (evenLast : last % 2 = 0) :
    ∃ s', s.arriveInRegister c id l i.start last = .ok s' ∧ s'.InTurn := by
  obtain ⟨j, added⟩ : ∃ j, i.addRange 0 i.start = .ok j := by
    simp only [addRange, ensure, if_pos positive, ok_bind]
    exact ⟨_, rfl⟩
  obtain ⟨same, sortedJ, covers⟩ := covers_addRange sorted added
  have isJ := set_self found j
  have others : ∀ k, k ≠ id → (s.pool.set id j).intervals[k]? = s.pool.intervals[k]? :=
    fun _ => set_other
  obtain ⟨clobber, isClobber⟩ : ∃ clobber,
      firstClobber? c { s with pool := s.pool.set id j } j l = .ok clobber := by
    refine bind_total (mapM_total fun k member => ?_) fun _ _ => ⟨_, rfl⟩
    obtain ⟨m, foundM⟩ := fixed k member
    by_cases here : k = id
    · exact ⟨j, get_ok.mpr (here ▸ isJ)⟩
    · exact ⟨m, get_ok.mpr ((others k here).trans foundM)⟩
  have stretched : s.modify id (·.addRange 0 i.start) = .ok { s with pool := s.pool.set id j } := by
    simp only [modify, IntervalPool.modify, get_ok.mpr found, ok_bind, added]
    rfl
  simp only [arriveInRegister, if_pos positive, stretched, ok_bind, get_ok.mpr isJ,
    isClobber]
  split
  · rename_i inside
    have startJ : j.start = 0 :=
      Nat.le_zero.mp (start_le sortedJ ((covers 0).mpr (.inl ⟨Nat.le_refl _, positive⟩)))
    have odd : releasePoint i.start last clobber % 2 = 1 := releasePoint_odd even evenLast
    generalize releasePoint i.start last clobber = release at inside odd ⊢
    have virtualJ : j.physical = false := by
      rw [same]
      exact virtual
    have isRest := divided_rest isJ release
    have isChild := set_self isRest ((j.rest release).prefer l)
    obtain ⟨knownQ, inTurnQ⟩ := inTurn.known_apart known free (p := ((s.pool.set id j).divided id j
      release).set (s.pool.set id j).size ((j.rest release).prefer l)) fun k apart old => by
        rw [← size_set s.pool id j] at old
        rw [set_other old, getElem_divided isJ,
          if_neg apart, if_neg old, others k apart]
    obtain ⟨queue, queued, -, order⟩ := enqueue_total knownQ isChild
    have late : j.start < release := by lia
    have split := splitAt_eq (s := { s with pool := s.pool.set id j }) isJ virtualJ late inside
    have preferred := modify_eq (f := (·.prefer l))
      (s := { s with pool := (s.pool.set id j).divided id j release }) isRest
    simp only [split, ok_bind, preferred, queued]
    exact ⟨_, rfl, order inTurnQ⟩
  · exact ⟨_, rfl, (inTurn.known_apart known free fun k apart _ => others k apart).2⟩

theorem arriveOnStack_total (known : s.Known) (inTurn : s.InTurn)
    (found : s.pool.intervals[id]? = some i) (virtual : i.physical = false)
    (sorted : Range.Sorted i.ranges)
    (inside : ∀ use, i.nextUse? i.start = some use →
      i.start < gapBefore use ∧ gapBefore use < i.stop) :
    ∃ s', s.arriveOnStack id v l i.start = .ok s' ∧ s'.InTurn := by
  simp only [arriveOnStack, get_ok.mpr found, ok_bind]
  cases isUse : i.nextUse? i.start with
  | none => exact ⟨_, rfl, inTurn⟩
  | some use =>
    obtain ⟨late, inside⟩ := inside use isUse
    obtain ⟨queue, run, queues⟩ := splitAndQueue_queues (s := { s with frame := s.frame.setHome v l })
      known found virtual sorted late inside late
    exact ⟨_, run, queues.inTurn inTurn⟩

theorem receive_total {rest : List (IntervalId × Interval)}
    (arriving : Arriving c arrivals last first) (grounded : Grounded c base)
    (awaiting : Awaiting c base first ((id, i) :: rest) s)
    (isRoot : (id, i) ∈ rootsOf first c.regClass) (free : id ∉ s.queue) (inTurn : s.InTurn) :
    ∃ s', receive c arrivals last s (id, i) = .ok s' ∧ s'.InTurn := by
  obtain ⟨foundFirst, virtual, -, -, cls⟩ := mem_rootsOf.mp isRoot
  have found := awaiting.untouched (id, i) mem_cons_self
  have served := awaiting.serving.served
  have known := awaiting.serving.all_known
  have fit := served.tidy.fit id i found
  obtain ⟨v, own⟩ : ∃ v, i.value = some v := isSome_iff_exists.mp
    (by simpa [virtual] using fit.kind.symm)
  obtain ⟨constant?, isConstant⟩ := (grounded.of_served served).constants id i v found own
  have pinned : ∀ l, Known { s with pool := s.pool.set id (i.pin l) } ∧
      InTurn { s with pool := s.pool.set id (i.pin l) } := by
    intro l
    refine inTurn.known_apart known free fun k apart _ => ?_
    exact set_other apart
  simp only [receive, own, isConstant, ok_bind]
  split
  · rename_i reg _ _
    rw [modify_eq found]
    exact ⟨_, rfl, (pinned (.register reg)).2⟩
  · split
    · obtain ⟨queue, queued, -, order⟩ := enqueue_total known found
      exact ⟨_, queued, order inTurn⟩
    · rename_i l isArrival
      obtain ⟨knownPin, inTurnPin⟩ := pinned l
      obtain ⟨positive, -, even, uncomputed, -⟩ :=
        arriving.early id i v l foundFirst ⟨virtual, cls⟩ own isArrival
      have isPin := set_self found (i.pin l)
      rw [modify_eq found, ok_bind]
      split
      · have fixed : ∀ k ∈ c.fixed, ∃ m, (s.pool.set id (i.pin l)).intervals[k]? = some m := by
          intro k member
          obtain ⟨m, foundM⟩ := (grounded.of_served served).fixed k member
          by_cases here : k = id
          · subst here
            exact ⟨_, isPin⟩
          · exact ⟨m, by rwa [set_other here]⟩
        have arrived := arriveInRegister_total (l := l) fixed knownPin inTurnPin free isPin virtual
          fit.sorted positive even arriving.even
        exact arrived
      · have arrived := arriveOnStack_total (v := v) (l := l) knownPin inTurnPin isPin virtual
          fit.sorted fun use isUse => ?_
        · exact arrived
        · replace isUse : i.nextUse? i.start = some use := isUse
          obtain ⟨from', u, member, rfl, needs⟩ := nextUse_ok isUse
          have apart := uncomputed u member needs
          have evenU := fit.even u member
          have late : i.start < gapBefore u.pos := by
            unfold gapBefore
            split <;> lia
          exact ⟨late, (served.each id i found).gap_lt_stop fit isUse late⟩

theorem receiveAll_total {rest : List (IntervalId × Interval)} {f : Frame}
    (arriving : Arriving c arrivals last first) (grounded : Grounded c base)
    (known : ∀ e ∈ rest, e ∈ rootsOf first c.regClass)
    (all : ∀ e ∈ rest, ∀ (k : IntervalId) (m : Interval), base.intervals[k]? = some m →
      m.value = e.2.value → ∀ u ∈ m.uses, u ∈ e.2.uses)
    (entering : Entering c arrivals last first f rest s) (awaiting : Awaiting c base first rest s)
    (inTurn : s.InTurn) :
    ∃ s', rest.foldlM (receive c arrivals last) s = .ok s' ∧ s'.InTurn := by
  induction rest generalizing s with
  | nil => exact ⟨s, rfl, inTurn⟩
  | cons e rest ih =>
    have free : e.1 ∉ s.queue := fun queued =>
      (nodup_append.mp entering.occupancy.once).2.2 e.1 queued e.1 mem_cons_self rfl
    obtain ⟨mid, received, order⟩ := receive_total arriving grounded awaiting
      (known e mem_cons_self) free inTurn
    rw [foldlM_cons, received, ok_bind]
    exact ih (fun e' member => known e' (mem_cons_of_mem e member))
      (fun e' member => all e' (mem_cons_of_mem e member)) (entering.after_receive arriving received)
      (awaiting.after_receive arriving (known e mem_cons_self) (all e mem_cons_self)
        received) order

def waitingAt (s : Scan) (q : Position) : List IntervalId :=
  s.queue.filter fun k => s.pool.intervals[k]?.any (·.start == q)

theorem mem_waitingAt : id ∈ s.waitingAt q ↔
    id ∈ s.queue ∧ ∃ i, s.pool.intervals[id]? = some i ∧ i.start = q := by
  simp [waitingAt, Option.any_eq_true]

theorem waitingAt_le (scanning : Scanning c arrivals start pos [] [] s)
    (served : base.Served s.pool) (q : Position) : (s.waitingAt q).length ≤ base.size := by
  have occ := scanning.occupancy
  rw [← length_range (n := base.size)]
  refine length_le_of_matching (R := fun id k => ∃ i i₀ v, s.pool.intervals[id]? = some i ∧
      i.start = q ∧ i.value = some v ∧ base.intervals[k]? = some i₀ ∧ i₀.value = some v)
    ((nodup_append.mp occ.once).1.filter _) ?_ ?_
  · intro id member
    obtain ⟨queued, i, found, here⟩ := mem_waitingAt.mp member
    obtain ⟨i', found', isMine, -⟩ := occ.loose id (mem_append_left _ queued)
    obtain rfl := mem_unique found found'
    obtain ⟨v, own⟩ : ∃ v, i.value = some v := isSome_iff_exists.mp
      (by simpa [isMine.1] using (occ.tidy.fit id i found).kind.symm)
    obtain ⟨k, i₀, found₀, value, -⟩ := served.origin id i found
    exact ⟨k, mem_range.mpr (found_lt found₀), i, i₀, v, found, here, own,
      found₀, value.symm.trans own⟩
  · rintro id id' k ⟨i, i₀, v, found, here, own, found₀, own₀⟩
      ⟨i', i₀', v', found', here', own', found₀', own₀'⟩
    obtain rfl := mem_unique found₀ found₀'
    obtain rfl := mem_unique own₀ own₀'
    by_contra other
    have filled : ∀ {id : IntervalId} {i : Interval}, s.pool.intervals[id]? = some i →
        i.value = some v → i.start < i.stop := by
      intro id i found own
      have fit := occ.tidy.fit id i found
      exact fit.start_lt (by rw [fit.kind, own]; rfl)
    have := filled found own
    have := filled found' own'
    rcases occ.tidy.stop_le_or other found found' own own' with before | after
    · lia
    · lia

theorem waitingAt_lt {rest : List IntervalId} (isQueue : s.queue = id :: rest)
    (found : s.pool.intervals[id]? = some i) (known : s.Known)
    (queues : Queues i.start { s with queue := rest } s') (once : s'.queue.Nodup) :
    (s'.waitingAt i.start).length < (s.waitingAt i.start).length := by
  have fewer : (s'.waitingAt i.start).length ≤
      (waitingAt { s with queue := rest } i.start).length := by
    refine length_le_of_matching (R := Eq) (once.filter _) (fun k member => ⟨k, ?_, rfl⟩)
      fun _ _ _ one two => one.trans two.symm
    obtain ⟨queued, m, foundM, here⟩ := mem_waitingAt.mp member
    rcases queues.behind k queued with old | ⟨m', foundM', late⟩
    · obtain ⟨m₀, found₀⟩ := known k (by rw [isQueue]; exact mem_cons_of_mem id old)
      obtain ⟨m', foundM', same, -⟩ := queues.steady.forth k m₀ found₀
      obtain rfl := mem_unique foundM foundM'
      exact mem_waitingAt.mpr ⟨old, m₀, found₀, same.symm.trans here⟩
    · obtain rfl := mem_unique foundM foundM'
      lia
  have split : s.waitingAt i.start = id :: waitingAt { s with queue := rest } i.start := by
    rw [waitingAt, isQueue, filter_cons_of_pos (by simp [found])]
    rfl
  rw [split, length_cons]
  lia

theorem waitingAt_later {top : Nat} (scanning : Scanning c arrivals start pos [] [] s)
    (served : base.Served s.pool) (later : pos ≤ next) (inside : next < top) :
    (s.waitingAt next).length + (top - next) * base.size ≤
      (s.waitingAt pos).length + (top - pos) * base.size := by
  rcases Nat.lt_or_eq_of_le later with further | rfl
  · have few := waitingAt_le scanning served next
    calc (s.waitingAt next).length + (top - next) * base.size
        ≤ (top - next + 1) * base.size := by rw [Nat.succ_mul]; lia
      _ ≤ (top - pos) * base.size := Nat.mul_le_mul_right _ (by lia)
      _ ≤ _ := Nat.le_add_left _ _
  · exact Nat.le_refl _

structure Underway (c : Pass) (arrivals : Arrivals) (start : Scan) (base first : IntervalPool)
    (top pos : Position) (s : Scan) : Prop where
  scanning : Scanning c arrivals start pos [] [] s
  serving : Serving c base first [] s
  inTurn : s.InTurn
  ahead : ∀ k ∈ s.queue, ∀ m, s.pool.intervals[k]? = some m → pos ≤ m.start
  ends : ∀ (k : IntervalId) (m : Interval), s.pool.intervals[k]? = some m → m.stop ≤ top

/-- How many turns are left at most: what starts at the position reached is counted, and for each
later position as much as there are values. -/
def budget (base : IntervalPool) (top pos : Position) (s : Scan) : Nat :=
  (s.waitingAt pos).length + (top - pos) * base.size

namespace Underway

variable {top : Position} {rest : List IntervalId}

theorem head_waits (underway : Underway c arrivals start base first top pos s)
    (isQueue : s.queue = id :: rest) :
    ∃ i, s.pool.intervals[id]? = some i ∧ pos ≤ i.start ∧ 0 < (s.waitingAt i.start).length ∧
      budget base top i.start s ≤ budget base top pos s := by
  have queued : id ∈ s.queue := by
    rw [isQueue]
    exact mem_cons_self
  have scanning := underway.scanning
  obtain ⟨i, found, isMine, -⟩ := scanning.occupancy.loose id (mem_append_left _ queued)
  have later := underway.ahead id queued i found
  have inside := (scanning.occupancy.tidy.fit id i found).start_lt isMine.1
  exact ⟨i, found, later, length_pos_of_mem (mem_waitingAt.mpr ⟨queued, i, found, rfl⟩),
    waitingAt_later scanning underway.serving.served later
      (Nat.lt_of_lt_of_le inside (underway.ends id i found))⟩

/-- A turn places the head of the queue, unless registers are scarce or there is no relief where all
of them are wanted, and leaves less to do. -/
theorem next_turn (proper : Pass.ZeroFree c) (grounded : Grounded c base)
    (filled : ¬scarce c.regClass → c.regs.toList ≠ [])
    (relief : ¬scarce c.regClass → ∀ t id i, Scanning c arrivals start i.start [] [id] t →
      Serving c base first [id] t → t.pool.intervals[id]? = some i →
      (∀ k ∈ t.active ++ t.inactive, ∀ m, t.pool.intervals[k]? = some m → i.start < m.stop) →
      ∀ use hard soft reg lim, i.nextUse? i.start = some use → t.hardDemands c i = .ok hard →
        t.softDemands c i = .ok soft →
        furthest c.regs.toList (limit (hard ++ soft)) = some (reg, lim) → lim ≤ use →
        i.start < gapBefore use)
    (underway : Underway c arrivals start base first top pos s) (isQueue : s.queue = id :: rest) :
    ∃ i, s.pool.intervals[id]? = some i ∧ pos ≤ i.start ∧
      Ends scarce (fun s' => Queues i.start { s with queue := rest } s' ∧
        Underway c arrivals start base first top i.start s' ∧
        budget base top i.start s' < budget base top pos s)
        (placeNext c { s with queue := rest } id) := by
  have serving := underway.serving
  obtain ⟨i, found, later, -, less⟩ := underway.head_waits isQueue
  have isStart : s.start id = .ok i.start := by
    simp only [Scan.start, get_ok.mpr found, ok_bind]
    rfl
  have order := underway.inTurn
  rw [InTurn, isQueue, pairwise_cons] at order
  refine ⟨i, found, later, (placeNext_ends grounded underway.scanning serving isQueue found rfl later
    filled fun plenty t scanning serving found => relief plenty t id i scanning serving found).mono
    fun s' placed queues => ⟨queues, ?_, ?_⟩⟩
  · have scanning' := underway.scanning.after_placeNext proper isQueue isStart later placed
    refine ⟨scanning', (serving.after_placeNext isQueue placed).1, queues.inTurn order.2, ?_, ?_⟩
    · intro k member m foundM
      rcases queues.behind k member with old | ⟨m', foundM', late⟩
      · obtain ⟨m₀, found₀⟩ := serving.all_known k (by rw [isQueue]; exact mem_cons_of_mem id old)
        obtain ⟨m', foundM', same, -⟩ := queues.steady.forth k m₀ found₀
        obtain rfl := mem_unique foundM foundM'
        rw [same]
        exact order.1 k old i m₀ found found₀
      · obtain rfl := mem_unique foundM foundM'
        exact Nat.le_of_lt late
    · intro k m foundM
      obtain ⟨k', m', foundM', le⟩ := queues.steady.back k m foundM
      exact le.trans (underway.ends k' m' foundM')
  · have scanning' := underway.scanning.after_placeNext proper isQueue isStart later placed
    have fewer := waitingAt_lt isQueue found serving.all_known queues
      (nodup_append.mp scanning'.occupancy.once).1
    unfold budget at less ⊢
    lia

theorem drain_ends {bound : Nat}
    (turn : ∀ {pos s id rest}, Underway c arrivals start base first top pos s →
      s.queue = id :: rest → ∃ i, s.pool.intervals[id]? = some i ∧ pos ≤ i.start ∧
        Ends scarce (fun s' => Queues i.start { s with queue := rest } s' ∧
          Underway c arrivals start base first top i.start s' ∧
          budget base top i.start s' < budget base top pos s)
          (placeNext c { s with queue := rest } id))
    (underway : Underway c arrivals start base first top pos s)
    (enough : budget base top pos s ≤ bound) : Ends scarce (fun _ => True) (drain c bound pos s) := by
  induction bound generalizing s pos with
  | zero =>
    unfold drain
    split
    · exact .of_ok trivial
    · rename_i id rest isQueue _
      obtain ⟨i, -, -, positive, less⟩ := underway.head_waits isQueue
      unfold budget at less enough
      lia
    · contradiction
  | succ bound ih =>
    unfold drain
    split
    · exact .of_ok trivial
    · contradiction
    · rename_i id rest bound' isQueue same
      obtain rfl : bound = bound' := by simpa using same
      obtain ⟨i, found, later, ends⟩ := turn underway isQueue
      have isStart : s.start id = .ok i.start := by
        simp only [Scan.start, get_ok.mpr found, ok_bind]
        rfl
      simp only [isStart, lift_of_ok, ok_bind, ensure, if_pos later]
      refine ends.bind fun mid _ after => ih after.2.1 ?_
      have := after.2.2
      lia

end Underway

theorem size_le (served : base.Served first) : base.size ≤ first.size := by
  by_contra more
  obtain ⟨j, found, -⟩ := served.stays first.size _
    (Array.getElem?_eq_getElem (Nat.lt_of_not_le more))
  exact absurd (found_lt found) (Nat.lt_irrefl _)

def lastStop (p : IntervalPool) : Position := (p.intervals.toList.map stop).foldl max 0

theorem drainBound_enough (scanning : Scanning c arrivals start 0 [] [] s)
    (served : base.Served s.pool) : budget base (lastStop s.pool) 0 s ≤ drainBound s.pool := by
  have few := waitingAt_le scanning served 0
  have less := size_le served
  unfold budget drainBound
  rw [show (s.pool.intervals.toList.map stop).foldl max 0 = lastStop s.pool from rfl]
  generalize lastStop s.pool = top
  calc (s.waitingAt 0).length + (top - 0) * base.size
      ≤ (top + 1) * base.size := by rw [Nat.succ_mul, Nat.sub_zero]; lia
    _ ≤ (top + 2) * (s.pool.size + RegisterSet.capacity * (top + 2)) :=
      Nat.mul_le_mul (Nat.le_succ _) (less.trans (Nat.le_add_right _ _))

section

variable {g : Graph} {tree : DominatorTree} {sets : LiveSets} {analysis : Liveness} {o : Options}
  {cls : RegisterClass} {p : IntervalPool} {f : Frame} {params : List ValueId}
  {types : List ValueType} {cc : CallingConvention}

theorem grounded_passOf (given : g.Accepted tree analysis.numbering.order)
    (analysed : Liveness.Analysed g g.target tree sets analysis) :
    Grounded (passOf g analysis o cls) analysis.pool := by
  refine ⟨?_, ?_, ?_⟩
  · intro id i v found own
    have virtual : i.physical = false := by
      rw [((analysed.pool_tidy given fun _ => True).fit id i found).kind, own]
      rfl
    obtain ⟨w, ownW, known⟩ := analysed.has_value found virtual
    obtain rfl := mem_unique own ownW
    obtain ⟨-, ty, -, -, -, -, isTy, -⟩ := analysed.has_root given known
    simp only [typeOf, bind_ok, value_ok, pure_ok] at isTy
    obtain ⟨D, foundD, -⟩ := isTy
    obtain ⟨x, foundX, -⟩ := given.valid.defined v D foundD
    have isConstant : g.constantOf? v = .ok x.opcode.constant? := by
      simp only [constantOf?, value_ok.mpr foundD, instr_ok.mpr foundX, ok_bind]
      rfl
    exact ⟨_, isConstant⟩
  · intro id i d found defined
    rcases analysed.each id i found with ⟨v, known⟩ | ⟨place, call⟩
    · obtain ⟨i', ty, d', x, q, found', -, foundX, -, -, -, -, made⟩ := analysed.has_root given known
      obtain rfl := mem_unique found found'
      obtain rfl : d' = d := by
        rw [made] at defined
        exact some.inj defined
      exact ⟨x, foundX⟩
    · obtain ⟨cls, reg, -, made⟩ := call.made
      rw [made] at defined
      cases defined
  · intro k member
    obtain ⟨i, found, -⟩ := physical_found analysed k (mem_fixed member)
    exact ⟨i, found⟩

/-- The pool and the frame that the pass over a class starts with, in a scan with some frame. -/
def ClassStart (g : Graph) (o : Options) (analysis : Liveness) (arrivals : Arrivals) (f₀ : Frame) :
    RegisterClass → IntervalPool → Frame → Prop
  | .int, p, f => p = analysis.pool ∧ f = f₀
  | .float, p, f => runClass g g.target o arrivals analysis.physical (analysis.pool, f₀) .int =
      .ok (p, f)

structure Startable (g : Graph) (o : Options) (analysis : Liveness) (arrivals : Arrivals)
    (cls : RegisterClass) (p : IntervalPool) (f : Frame) : Prop where
  ready : Ready (passOf g analysis o cls) arrivals p f
  served : analysis.pool.Served p
  homes : ∀ v l, f.home? v = some l → l.isMemory = true
  agree : ∀ (id : IntervalId) (i : Interval), p.intervals[id]? = some i → i.regClass = cls →
    analysis.pool.intervals[id]? = some i
  physical : ∀ id ∈ analysis.physical, ∃ i, p.intervals[id]? = some i ∧
    analysis.pool.intervals[id]? = some i

variable (given : g.Accepted tree analysis.numbering.order)
  (analysed : Liveness.Analysed g g.target tree sets analysis)

include given analysed

theorem ClassStart.to_startable {f₀ : Frame}
    (convention : g.target.convention = some cc) (parameters : g.parameters = .ok params)
    (isTypes : g.typesOf params = .ok types) (empty : f₀.homes = [])
    (begins : ClassStart g o analysis (params.zip (cc.paramLocations types)) f₀ cls p f) :
    Startable g o analysis (params.zip (cc.paramLocations types)) cls p f := by
  have physical : ∀ id ∈ analysis.physical, ∃ i, analysis.pool.intervals[id]? = some i ∧
      analysis.pool.intervals[id]? = some i := by
    intro id member
    obtain ⟨i, found, -⟩ := physical_found analysed id member
    exact ⟨i, found, found⟩
  have ready : Ready (passOf g analysis o .int) (params.zip (cc.paramLocations types))
      analysis.pool f₀ := ready_ints given analysed convention parameters isTypes empty
  have homeless : ∀ v l, f₀.home? v = some l → l.isMemory = true := by simp [Frame.home?, empty]
  cases cls with
  | int =>
    obtain ⟨rfl, rfl⟩ := begins
    exact ⟨ready, analysed.pool_served given, homeless, fun _ _ found _ => found, physical⟩
  | float =>
    obtain ⟨s, s', bound, entered, drained, rfl, rfl⟩ := runClass_ok physical begins
    have done := ready.completed_after_drain passOf_proper entered drained
    have serving := (pass_serving ready.arriving (analysed.pool_served given) homeless
      (analysed.uses_of_root given fun _ _ found _ => found) entered drained).1
    refine ⟨done.ready_floats given analysed convention parameters isTypes empty, serving.served,
      serving.homes, fun id i found isFloat => ?_, fun id member => ?_⟩
    · refine (done.foreign id i ?_).mp found
      rintro ⟨-, isInt⟩
      simp [passOf, isFloat] at isInt
    · obtain ⟨i, found, foundL, -⟩ := done.physical_found analysed id member
      exact ⟨i, found, foundL⟩

theorem Startable.enter_underway (startable : Startable g o analysis arrivals cls p f) :
    ∃ s, enter (passOf g analysis o cls) arrivals p f = .ok s ∧
      Underway (passOf g analysis o cls) arrivals s analysis.pool p (lastStop s.pool) 0 s ∧
      budget analysis.pool (lastStop s.pool) 0 s ≤ drainBound s.pool := by
  have ready := startable.ready
  have awaiting := Awaiting.at_start ready.arriving startable.served startable.homes
  have all := analysed.uses_of_root given startable.agree
  obtain ⟨s, received, inTurn⟩ := receiveAll_total ready.arriving (grounded_passOf given analysed)
    (fun _ member => member) all ready.to_entering awaiting List.Pairwise.nil
  have scanning := (ready.after_enter received).to_scanning ready.arriving
  have serving := awaiting.after_receiveAll ready.arriving (fun _ member => member) all received
  refine ⟨s, received, ⟨scanning, serving, inTurn, fun _ _ _ _ => Nat.zero_le _, fun k m found => ?_⟩,
    drainBound_enough scanning serving.served⟩
  exact le_foldl_max (mem_map_of_mem (by simpa using Array.mem_of_getElem? found)) 0

theorem Startable.runClass_ends
    (drawn : Liveness.ofGraph g g.target = .ok analysis) (lead : g.ParametersLead)
    (parameters : g.parameters = .ok params)
    (enough : 5 ≤ (o.registers g.target cls).size)
    (startable : Startable g o analysis (params.zip (cc.paramLocations types)) cls p f) :
    Ends (fun _ => False) (fun _ => True) (runClass g g.target o
      (params.zip (cc.paramLocations types)) analysis.physical (p, f) cls) := by
  obtain ⟨s, entered, underway, bounded⟩ := startable.enter_underway given analysed
  have ready := startable.ready
  have late : ∀ v q, g.Demands analysis.numbering v q →
      lastArrival (params.zip (cc.paramLocations types)) (rootsOf p cls) < q := by
    intro v q demands
    refine analysed.demands_late given lead parameters (fun id i member => ?_) demands
    obtain ⟨found, -, -, -, isClass⟩ := mem_rootsOf.mp member
    exact startable.agree id i found isClass
  have calls : ∀ k ∈ (passOf g analysis o cls).fixed, ∀ m q, p.intervals[k]? = some m →
      m.covers q = true → g.CallAt analysis.numbering q := by
    intro k member m q found covered
    obtain ⟨m', found', foundL⟩ := startable.physical k (mem_fixed member)
    obtain rfl := mem_unique found found'
    obtain ⟨m', place, foundM, call⟩ := analysed.physical k (mem_fixed member)
    obtain rfl := mem_unique foundL foundM
    exact call.covers q covered
  have filled : (passOf g analysis o cls).regs.toList ≠ [] := by
    intro empty
    have : (o.registers g.target cls).toList = [] := empty
    simp [RegisterSet.size, this] at enough
  simp only [runClass_eq startable.physical, entered, lift_of_ok, ok_bind]
  refine (underway.drain_ends (fun underway isQueue => underway.next_turn passOf_proper
    (grounded_passOf given analysed) (fun _ => filled) ?_ isQueue) bounded).bind fun _ _ _ =>
    .of_ok trivial
  intro _ t id i scanning serving found live use hard soft reg lim isUse isHard isSoft isBest soon
  exact start_lt_gapBefore given analysed drawn ready.arriving (ready.after_enter entered) late
    calls enough scanning serving found rfl live isUse isHard isSoft isBest soon

end

end Scan

namespace Liveness

variable {g : Graph} {o : Options} {tree : DominatorTree} {sets : LiveSets} {l : Liveness}

theorem Analysed.typesOf_total (given : g.Accepted tree l.numbering.order)
    (analysed : Analysed g g.target tree sets l) (vs : List ValueId)
    (known : ∀ v ∈ vs, v < g.values.size ∨ ∃ (d : InstrId) (x : Instr), g.instrs[d]? = some x ∧
      v ∈ x.results) : ∃ types, g.typesOf vs = .ok types := by
  refine mapM_total fun v member => ?_
  rcases known v member with inside | ⟨d, x, found, result⟩
  · exact bind_total ⟨_, value_ok.mpr (Array.getElem?_eq_getElem inside)⟩ fun _ _ => ⟨_, rfl⟩
  · obtain ⟨id, isRoot⟩ := analysed.rooted d x found v result
    obtain ⟨-, ty, -, -, -, -, isTy, -⟩ := analysed.has_root given isRoot
    exact ⟨ty, isTy⟩

theorem Analysed.scan_ends {cc : CallingConvention} {scarce : RegisterClass → Prop}
    (given : g.Accepted tree l.numbering.order) (analysed : Analysed g g.target tree sets l)
    (convention : g.target.convention = some cc)
    (passes : ∀ params types f₀ cls p f, g.parameters = .ok params → g.typesOf params = .ok types →
      f₀.homes = [] → Scan.ClassStart g o l (params.zip (cc.paramLocations types)) f₀ cls p f →
      Ends scarce (fun _ => True) (Scan.runClass g g.target o
        (params.zip (cc.paramLocations types)) l.physical (p, f) cls)) :
    Ends scarce (fun _ => True) (l.scan g g.target o) := by
  have ordered := reversePostOrder_ok given.valid.ordered
  obtain ⟨E, stored⟩ := ordered.stored g.entry ordered.entry
  obtain ⟨params, parameters⟩ := parameters_exist stored
    fun i listed => (given.consistent.instr_of_listed stored listed).imp fun _ => And.left
  obtain ⟨types, isTypes⟩ := analysed.typesOf_total given params fun v member => by
    obtain ⟨pc, x, ⟨E, d, -, -, found⟩, -, result⟩ := mem_parameters parameters member
    exact .inr ⟨d, x, found, result⟩
  obtain ⟨args, isArgs⟩ : ∃ args, (g.instrs.toList.filter isCall).mapM
      (fun x => return cc.numStackParams (← g.typesOf x.inputs) :
        Instr → Attempt AllocationError Nat) = .ok args := by
    refine mapM_total fun x member => ?_
    obtain ⟨d, found⟩ := mem_iff_getElem?.mp (mem_filter.mp member).1
    obtain ⟨B, pc, -, -, checked⟩ := given.instr_valid (i := d) (by simpa using found)
    obtain ⟨types, isTypes⟩ := analysed.typesOf_total given x.inputs fun v input => by
      obtain ⟨k, operand⟩ := mem_iff_getElem?.mp input
      exact .inl (checked.operands k v operand).1
    rw [isTypes]
    exact ⟨_, rfl⟩
  simp only [scan, convention, parameters, isTypes, lift_of_ok, ok_bind, isArgs,
    RegisterClass.all, foldlM_cons, foldlM_nil]
  refine Ends.bind (?_ : Ends scarce (fun _ => True) _) fun _ _ _ => .of_ok trivial
  refine (passes _ _ _ .int _ _ parameters isTypes rfl ⟨rfl, rfl⟩).bind ?_
  rintro ⟨p, f⟩ ints -
  exact (passes _ _ _ .float p f parameters isTypes rfl ints).bind fun _ _ _ => .of_ok trivial

/-- With five registers in each class a scan ends well, or runs out of stack slots. -/
theorem five_registers_suffice {cc : CallingConvention} (consistent : g.Consistent)
    (valid : g.validate = .ok ()) (lead : g.ParametersLead)
    (convention : g.target.convention = some cc) (analysed : ofGraph g g.target = .ok l)
    (enough : ∀ cls, 5 ≤ (o.registers g.target cls).size) :
    (∃ l' frame, l.scan g g.target o = .ok (l', frame)) ∨
      ∃ budget, l.scan g g.target o = refuse (.outOfSlots budget) := by
  obtain ⟨tree, order, isValid⟩ := Graph.validate_ok valid
  have given : g.Accepted tree order := ⟨consistent, isValid⟩
  have drawn := analysed
  obtain ⟨sets, analysed⟩ := ofGraph_analysed given analysed
  obtain rfl : order = l.numbering.order :=
    Except.ok.inj (isValid.ordered.symm.trans analysed.numbered.ordered)
  have ends : Ends (fun _ => False) (fun _ => True) (l.scan g g.target o) :=
    analysed.scan_ends given convention fun params types f₀ cls p f parameters isTypes empty begins =>
      (begins.to_startable given analysed convention parameters isTypes empty).runClass_ends given
      analysed drawn
        lead parameters (enough cls)
  rcases ends with ⟨⟨l', frame⟩, run, -⟩ | refused | ⟨_, never, _⟩
  · exact .inl ⟨l', frame, run⟩
  · exact .inr refused
  · exact never.elim

def selecting : Graph :=
  { Graph.new "selecting" .aarch64 with
    blocks := #[⟨[0, 1, 2, 3, 4, 5, 6, 7, 8, 9], [], []⟩]
    instrs := #[
      { ofOpcode .parameter 0 .int64 with results := [0] },
      { ofOpcode .parameter 0 .int64 with results := [1] },
      { ofOpcode .parameter 0 .int64 with results := [2] },
      { ofOpcode .parameter 0 .int64 with results := [3] },
      { ofOpcode (.select .lt) 0 .int64 with inputs := [0, 1, 2, 3], results := [4] },
      { ofOpcode .add 0 .int64 with inputs := [4, 0], results := [5] },
      { ofOpcode .add 0 .int64 with inputs := [5, 1], results := [6] },
      { ofOpcode .add 0 .int64 with inputs := [6, 2], results := [7] },
      { ofOpcode .add 0 .int64 with inputs := [7, 3], results := [8] },
      { ofOpcode .ret 0 .int64 with inputs := [8] }]
    values := #[⟨0, .int64⟩, ⟨1, .int64⟩, ⟨2, .int64⟩, ⟨3, .int64⟩, ⟨4, .int64⟩, ⟨5, .int64⟩,
      ⟨6, .int64⟩, ⟨7, .int64⟩, ⟨8, .int64⟩] }

/-- Four registers are not enough for it, five are. -/
theorem selecting_needs_five :
    ∃ l, ofGraph selecting selecting.target = .ok l ∧
      l.scan selecting selecting.target { Options.default with ints := some (.first 4) } =
        refuse (.outOfRegisters .int) ∧
      ((∃ l' frame, l.scan selecting selecting.target
          { Options.default with ints := some (.first 5) } = .ok (l', frame)) ∨
        ∃ budget, l.scan selecting selecting.target
          { Options.default with ints := some (.first 5) } = refuse (.outOfSlots budget)) := by
  have lead : selecting.ParametersLead := (Graph.parametersLead_iff rfl).mpr (by decide +kernel)
  have scanned : (do
      let l ← ofGraph selecting selecting.target
      let r ← l.scan selecting selecting.target { Options.default with ints := some (.first 4) }
      return r.2.numSlots : Attempt AllocationError Nat) = refuse (.outOfRegisters .int) := by
    decide +kernel
  rcases bind_error.mp scanned with stuck | ⟨l, analysed, scanned⟩
  · exact absurd stuck lift_ne_error
  · have analysed := lift_ok.mp analysed
    refine ⟨l, analysed, ?_, five_registers_suffice ⟨by decide +kernel, by decide +kernel⟩
      (by decide +kernel) lead rfl analysed fun cls => ?_⟩
    · rcases bind_error.mp scanned with refused | ⟨r, -, done⟩
      · exact refused
      · cases done
    · cases cls <;> decide +kernel

end Liveness

end RegisterAllocation
