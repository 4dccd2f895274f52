import RegisterAllocation.Proofs.Interference
import RegisterAllocation.Proofs.Serving

/-!
Register requirements are met. After a scan every operand of an instruction other than a phi or a
call is in a register of its class in the gap before the instruction, and every result that an
instruction computes is in one where it is computed.
-/

namespace RegisterAllocation

open List Option Interval IntervalPool Location Scan

namespace Scan

variable {c : Pass} {arrivals : Arrivals} {base first p : IntervalPool} {last : Position}
  {hold : List IntervalId} {s s' : Scan} {id : IntervalId} {i j : Interval} {v : ValueId}
  {l : Location}

namespace Serving

theorem after_stretch (serving : Serving c base first hold s) (found : s.pool.intervals[id]? = some i)
    (cls : i.regClass = c.regClass) (same : j = { i with ranges := j.ranges })
    (valid : i.location.isInvalid = false) (served : base.Served (s.pool.set id j)) :
    Serving c base first hold { s with pool := s.pool.set id j } := by
  refine serving.after_set found cls ?_ served (fun invalid => ?_) serving.homes
  · rw [same]
    exact cls
  · rw [same, valid] at invalid
    cases invalid

end Serving

structure Awaiting (c : Pass) (base first : IntervalPool) (rest : List (IntervalId × Interval))
    (s : Scan) : Prop where
  serving : Serving c base first (rest.map Prod.fst) s
  untouched : ∀ e ∈ rest, s.pool.intervals[e.1]? = some e.2
  once : (rest.map Prod.fst).Nodup

theorem splitAt_others {cut : Position} {child k : IntervalId} {m : Interval}
    (run : s.splitAt id cut = .ok (child, s')) (other : k ≠ id)
    (found : s.pool.intervals[k]? = some m) : s'.pool.intervals[k]? = some m := by
  simp only [splitAt, bind_ok, pure_ok, Prod.exists, Prod.mk.injEq] at run
  obtain ⟨_, pool, split, -, rfl⟩ := run
  obtain ⟨i, foundI, -, ⟨-, -, rfl⟩ | ⟨-, -, -, rfl⟩⟩ := splitAt_ok split
  · exact found
  · exact divided_other foundI other found

theorem enqueue_pool (run : s.enqueue id = .ok s') : s'.pool = s.pool := by
  obtain ⟨queue, rfl, -⟩ := Scanning.enqueue_ok run
  rfl

namespace Awaiting

variable {e : IntervalId × Interval} {rest : List (IntervalId × Interval)}

theorem after_served (awaiting : Awaiting c base first (e :: rest) s)
    (serving : Serving c base first (rest.map Prod.fst) s')
    (others : ∀ (k : IntervalId) (m : Interval), k ≠ e.1 → s.pool.intervals[k]? = some m →
      s'.pool.intervals[k]? = some m) : Awaiting c base first rest s' := by
  obtain ⟨fresh, once⟩ := nodup_cons.mp awaiting.once
  refine ⟨serving, fun e' member => ?_, once⟩
  refine others e'.1 e'.2 ?_ (awaiting.untouched e' (mem_cons_of_mem e member))
  intro same
  exact fresh (same ▸ mem_map_of_mem member)

section

variable (awaiting : Awaiting c base first ((id, i) :: rest) s) (cls : i.regClass = c.regClass)

include awaiting cls

theorem serving_after_pin (inClass : l.inClass i.regClass = true) :
    Serving c base first (rest.map Prod.fst) { s with pool := s.pool.set id (i.pin l) } := by
  have found := awaiting.untouched (id, i) mem_cons_self
  refine (awaiting.serving.after_relabel found cls (j := i.pin l) rfl s.frame (by simp)
    (fun memory => ?_) (fun _ => inClass) awaiting.serving.homes).after_release fun m foundM => ?_
  · have := Scanning.isAnyRegister_of_isMemory memory
    simp [Interval.pin, Scanning.isAnyRegister_of_inClass inClass] at this
  · obtain rfl := mem_unique (set_self found _) foundM
    exact isInvalid_of_inClass inClass

theorem after_arriveInRegister (own : i.value = some v)
    (alone : i.root = id ∧ i.sibling = none) (inClass : l.inClass i.regClass = true)
    (positive : 0 < i.start) (even : i.start % 2 = 0) (evenLast : last % 2 = 0)
    (uncomputed : ∀ u ∈ i.uses, u.needsRegister = true → u.pos ≠ i.start)
    (all : ∀ (k : IntervalId) (m : Interval), base.intervals[k]? = some m → m.value = some v →
      ∀ u ∈ m.uses, u ∈ i.uses)
    (run : ({ s with pool := s.pool.set id (i.pin l) } : Scan).arriveInRegister c id l i.start last =
      .ok s') : Awaiting c base first rest s' := by
  have found := awaiting.untouched (id, i) mem_cons_self
  have pinned := awaiting.serving_after_pin cls inClass
  have isPin := set_self found (i.pin l)
  have fit : (i.pin l).Fit := pinned.served.tidy.fit id _ isPin
  have virtual : (i.pin l).physical = false := by
    rw [fit.kind]
    simp [Interval.pin, own]
  obtain ⟨m, j, clobber, foundM, added, step⟩ := arriveInRegister_steps positive run
  obtain rfl := mem_unique isPin foundM
  obtain ⟨same, sorted, covers⟩ := covers_addRange fit.sorted added
  have coversPin (q : Position) : (i.pin l).covers q = i.covers q := rfl
  have fitJ : j.Fit := by
    refine ⟨sorted, fun _ => ?_, ?_, ?_, ?_⟩
    · exact ranges_ne_nil ((covers 0).mpr (.inl ⟨Nat.le_refl _, positive⟩))
    all_goals rw [same]
    · exact fit.uses
    · exact fit.even
    · exact fit.kind
  have stretched := pinned.after_stretch isPin cls same (isInvalid_of_inClass inClass)
    (pinned.served.after_stretch isPin own alone same fitJ
    (fun q covered => (covers q).mpr (.inr covered))
      uncomputed all)
  rw [Occupancy.set_set] at stretched
  have isJ := set_self found j
  have clsJ : j.regClass = c.regClass := by
    rw [same]
    exact cls
  have others : ∀ (k : IntervalId) (m : Interval), k ≠ id → s.pool.intervals[k]? = some m →
      (s.pool.set id j).intervals[k]? = some m := by
    intro k m apart foundM
    rwa [set_other apart]
  have list : ∀ {t : Scan}, Serving c base first (rest.map Prod.fst) t → OfClass c t.pool id →
      Serving c base first (rest.map Prod.fst) { t with inactive := t.inactive ++ [id] } := by
    intro t serving ofClass
    refine { serving with own := fun k member => ?_ }
    have := serving.own k
    grind
  simp only [Occupancy.set_set] at step
  rcases step with ⟨child, mid, mid', mid'', split, preferred, queued, rfl⟩ | ⟨-, rfl⟩
  · have startJ : j.start = 0 :=
      Nat.le_zero.mp (start_le sorted ((covers 0).mpr (.inl ⟨Nat.le_refl _, positive⟩)))
    have odd : releasePoint i.start last clobber % 2 = 1 := releasePoint_odd even evenLast
    have late : j.start < releasePoint i.start last clobber := by
      rw [startJ]
      lia
    have virtualJ : j.physical = false := by
      rw [same]
      exact virtual
    have old := fun k m apart foundM => splitAt_others (m := m) (k := k) split apart
      (others k m apart foundM)
    obtain ⟨inside, rfl, rfl⟩ := Scanning.splitAt_divided isJ late split
    have divided := stretched.after_divide isJ clsJ virtualJ late inside odd
    simp only [modify, bind_ok, pure_ok] at preferred
    obtain ⟨pool, modified, rfl⟩ := preferred
    obtain ⟨m, m', foundM, isM', rfl⟩ := modify_ok modified
    obtain rfl := pure_ok.mp isM'
    obtain rfl := mem_unique (divided_rest isJ _) foundM
    have sameM : Relabelled (j.rest (releasePoint i.start last clobber))
        ((j.rest (releasePoint i.start last clobber)).prefer l) := rfl
    have hinted := divided.after_relabel foundM clsJ sameM s.frame (by simp)
      (by simp [prefer, Interval.rest]) (by simp [prefer, Interval.rest]) divided.homes
    have steady := Steady.of_set foundM sameM
    have pool := enqueue_pool queued
    obtain ⟨serving, -⟩ := hinted.after_enqueue (steady.ofClass_kept (ofClass_rest isJ clsJ)) queued
    refine awaiting.after_served (list serving ?_) ?_
    · rw [pool]
      exact steady.ofClass_kept ((Steady.of_divided isJ sorted late inside).ofClass_kept
        ⟨j, isJ, clsJ⟩)
    · intro k m apart foundK
      have kept := old k m apart foundK
      have isOld : k ≠ (s.pool.set id j).size := by
        have := found_lt (others k m apart foundK)
        exact Nat.ne_of_lt this
      rw [pool, set_other isOld]
      exact kept
  · exact awaiting.after_served (list stretched ⟨j, isJ, clsJ⟩) others

theorem after_arriveOnStack (own : i.value = some v) (memory : l.isMemory = true)
    (even : i.start % 2 = 0)
    (uncomputed : ∀ u ∈ i.uses, u.needsRegister = true → u.pos ≠ i.start)
    (run : ({ s with pool := s.pool.set id (i.pin l) } : Scan).arriveOnStack id v l i.start =
      .ok s') : Awaiting c base first rest s' := by
  have found := awaiting.untouched (id, i) mem_cons_self
  have serving := awaiting.serving
  have fit := serving.served.tidy.fit id i found
  have apt := serving.served.each id i found
  have same : i.Relabelled (i.pin l) := rfl
  have homes : ∀ w l', (s.frame.setHome v l).home? w = some l' → l'.isMemory = true := by
    intro w l' home
    rw [Frame.home_setHome] at home
    split at home
    · exact some.inj home ▸ memory
    · exact serving.homes w l' home
  have others : ∀ (k : IntervalId) (m : Interval), k ≠ id → s.pool.intervals[k]? = some m →
      (s.pool.set id (i.pin l)).intervals[k]? = some m := by
    intro k m apart foundM
    rwa [set_other apart]
  simp only [arriveOnStack, bind_ok, get_ok] at run
  obtain ⟨m, foundM, run⟩ := run
  obtain rfl := mem_unique (set_self found _) foundM
  have nextUse : (i.pin l).nextUse? i.start = i.nextUse? i.start := rfl
  rw [nextUse] at run
  split at run
  · rename_i none
    obtain rfl := pure_ok.mp run
    exact awaiting.after_served (serving.after_settle found cls (apt.spared_of_none fit none) same
      memory _ homes) others
  · rename_i use isUse
    obtain ⟨from', u, member, rfl, needs⟩ := nextUse_ok isUse
    have apart := uncomputed u member needs
    have evenU := fit.even u member
    have late : i.start < gapBefore u.pos := by
      unfold gapBefore
      split <;> lia
    have virtual : i.physical = false := by
      rw [fit.kind, own]
      rfl
    obtain ⟨after, -⟩ := serving.after_settleFront ⟨i, found, cls⟩ found virtual isUse late
      same memory _ homes run
    refine awaiting.after_served after fun k m apart foundK => ?_
    simp only [splitAndQueue, bind_ok, Prod.exists] at run
    obtain ⟨child, mid, split, queued⟩ := run
    rw [enqueue_pool queued]
    exact splitAt_others split apart (others k m apart foundK)

end

theorem after_receive (arriving : Arriving c arrivals last first)
    (awaiting : Awaiting c base first ((id, i) :: rest) s)
    (known : (id, i) ∈ rootsOf first c.regClass)
    (all : ∀ (k : IntervalId) (m : Interval), base.intervals[k]? = some m → m.value = i.value →
      ∀ u ∈ m.uses, u ∈ i.uses)
    (run : receive c arrivals last s (id, i) = .ok s') :
    Awaiting c base first rest s' := by
  obtain ⟨foundFirst, virtual, -, -, cls⟩ := mem_rootsOf.mp known
  have isMine : Mine c i := ⟨virtual, cls⟩
  have found := awaiting.untouched (id, i) mem_cons_self
  obtain ⟨-, -, -, alone⟩ := arriving.blank id i foundFirst isMine
  obtain ⟨v, own⟩ : ∃ v, i.value = some v := isSome_iff_exists.mp
    (by simpa [virtual] using (awaiting.serving.served.tidy.fit id i found).kind.symm)
  rcases receive_ok run own with ⟨reg, -, -, fits, pinned⟩ | ⟨-, queued⟩ |
    ⟨l, mid, isArrival, pinned, step⟩
  · obtain ⟨i', found', rfl⟩ := modify_pin pinned
    obtain rfl := mem_unique found found'
    refine awaiting.after_served (awaiting.serving_after_pin cls (inClass_of_fitsZeroRegister fits))
      ?_
    intro k m apart foundM
    rwa [set_other apart]
  · obtain ⟨serving, pool⟩ := awaiting.serving.after_enqueue ⟨i, found, cls⟩ queued
    exact awaiting.after_served serving fun k m _ foundM => pool ▸ foundM
  · obtain ⟨i', found', rfl⟩ := modify_pin pinned
    obtain rfl := mem_unique found found'
    obtain ⟨positive, -, even, uncomputed, -⟩ :=
      arriving.early id i v l foundFirst isMine own isArrival
    rcases step with ⟨register, arrived⟩ | ⟨outside, arrived⟩
    · have inClass := arriving.inClass id i v l foundFirst isMine own isArrival register
      rw [← cls] at inClass
      exact awaiting.after_arriveInRegister cls own alone inClass positive even arriving.even
        uncomputed (fun k m foundM ownM => all k m foundM (ownM.trans own.symm)) arrived
    · have memory : l.isMemory = true := by
        rcases arriving.places v l isArrival with parameter | ⟨register, -⟩
        · simp [isMemory, isStack, parameter]
        · simp [register] at outside
      exact awaiting.after_arriveOnStack cls own memory even uncomputed arrived

theorem after_receiveAll (arriving : Arriving c arrivals last first)
    (known : ∀ e ∈ rest, e ∈ rootsOf first c.regClass)
    (all : ∀ e ∈ rest, ∀ (k : IntervalId) (m : Interval), base.intervals[k]? = some m →
      m.value = e.2.value → ∀ u ∈ m.uses, u ∈ e.2.uses)
    (awaiting : Awaiting c base first rest s)
    (run : rest.foldlM (receive c arrivals last) s = .ok s') :
    Serving c base first [] s' := by
  induction rest generalizing s with
  | nil =>
    obtain rfl : s = s' := by simpa using run
    exact awaiting.serving
  | cons e rest ih =>
    obtain ⟨mid, head, run⟩ := foldlM_cons_ok.mp run
    exact ih (fun e' member => known e' (mem_cons_of_mem e member))
      (fun e' member => all e' (mem_cons_of_mem e member))
      (awaiting.after_receive arriving (known e mem_cons_self) (all e mem_cons_self) head) run

end Awaiting

theorem Awaiting.at_start {f : Frame} (arriving : Arriving c arrivals last first)
    (served : base.Served first) (homes : ∀ v l, f.home? v = some l → l.isMemory = true) :
    Awaiting c base first (rootsOf first c.regClass) ⟨first, f, [], [], []⟩ := by
  refine ⟨⟨served, homes, ?_, by simp, fun _ _ _ => .rfl⟩, ?_, rootsOf_nodup first c.regClass⟩
  · intro id i found isMine _
    obtain ⟨-, -, unsplit, -⟩ := arriving.blank id i found isMine
    have filled := (served.tidy.fit id i found).filled isMine.1
    exact mem_map_of_mem (f := Prod.fst)
      (mem_rootsOf.mpr ⟨found, isMine.1, unsplit, filled, isMine.2⟩)
  · intro e member
    exact (mem_rootsOf.mp member).1

theorem pass_serving {f : Frame} {bound : Nat} (arriving : Arriving c arrivals
      (lastArrival arrivals (rootsOf first c.regClass)) first)
    (served : base.Served first) (homes : ∀ v l, f.home? v = some l → l.isMemory = true)
    (all : ∀ e ∈ rootsOf first c.regClass, ∀ (k : IntervalId) (m : Interval),
      base.intervals[k]? = some m → m.value = e.2.value → ∀ u ∈ m.uses, u ∈ e.2.uses)
    (entered : enter c arrivals first f = .ok s) (drained : drain c bound 0 s = .ok s') :
    Serving c base first [] s' ∧ s'.queue = [] :=
  ((Awaiting.at_start arriving served homes).after_receiveAll arriving (fun _ member => member) all
    entered).after_drain drained

theorem runClass_steps {g : Graph} {target : Target} {o : Options} {physical : List IntervalId}
    {f f' : Frame} {p p' : IntervalPool} {cls : RegisterClass}
    (run : runClass g target o arrivals physical (p, f) cls = .ok (p', f')) :
    ∃ (c : Pass) (s s' : Scan) (bound : Nat), c.graph = g ∧ c.target = target ∧ c.regClass = cls ∧
      enter c arrivals p f = .ok s ∧ drain c bound 0 s = .ok s' ∧ p' = s'.pool ∧ f' = s'.frame := by
  simp only [runClass, bind_ok, lift_ok, pure_ok, Prod.mk.injEq] at run
  obtain ⟨fixed, -, s, entered, s', drained, rfl, rfl⟩ := run
  exact ⟨_, s, s', _, rfl, rfl, rfl, entered, drained, rfl, rfl⟩

end Scan

namespace Liveness

variable {g : Graph} {o : Options} {tree : DominatorTree} {sets : LiveSets} {l l' : Liveness}
  {frame : Frame} {d : InstrId} {x : Instr} {v : ValueId} {id k : IntervalId} {i j : Interval}
  {p q : Position}

section

variable (given : g.Accepted tree l.numbering.order) (analysed : Analysed g g.target tree sets l)

include given analysed

theorem Analysed.needed_before (found : g.instrs[d]? = some x)
    (plain : x.isPhi = false) (input : v ∈ x.inputs) (isAt : l.numbering.numberOf? d = some p) :
    0 < p ∧ Needed g l.numbering sets l.numbering.order v (p - 1) := by
  obtain ⟨B, r, p', stored, listed, range, isAt', -, high, -, low⟩ := analysed.has_number given found
  obtain rfl := mem_unique isAt isAt'
  simp only [plain, Bool.false_eq_true, if_false] at low
  have member := given.valid.complete _ B stored
  refine ⟨by lia, x.block, member, B, r, stored, range, by lia, by lia, ?_, ?_⟩
  · rintro q ⟨e, listedE, y, foundY, result, isAtE⟩
    obtain ⟨before, after, split⟩ := append_of_mem listed
    have noWrite := given.read_after (n := l.numbering) (p := q) stored split found plain input
    have early : e ∈ before := by
      rw [split] at listedE
      rcases mem_append.mp listedE with early | late
      · exact early
      · exact absurd ⟨e, late, y, foundY, result, isAtE⟩ noWrite
    obtain ⟨q', isAtE', -, -, -, place⟩ := analysed.numbered.number_mem member stored range listedE
    obtain rfl := mem_unique isAtE isAtE'
    cases phi : g.phiAt e with
    | true =>
      simp only [phi, if_true] at place
      lia
    | false =>
      obtain ⟨before', after', rfl⟩ := append_of_mem early
      have split' : B.instrs = before' ++ e :: (after' ++ d :: after) := by simp [split]
      have := analysed.numbered.number_lt member stored range split' phi (by simp)
        ((Graph.phiAt_eq found).trans plain) isAtE isAt
      lia
  · exact .inr (.inr ⟨p, ⟨d, listed, x, found, plain, input, isAt⟩, by lia⟩)

theorem Analysed.interval_unique (found : l.pool.intervals[id]? = some i)
    (foundJ : l.pool.intervals[k]? = some j) (own : i.value = some v) (ownJ : j.value = some v) :
    id = k := by
  have tidy := analysed.pool_tidy given fun _ => True
  have isRoot : ∀ {k : IntervalId} {j : Interval}, l.pool.intervals[k]? = some j →
      j.value = some v → l.intervalOf? v = some k := by
    intro k j found own
    have virtual : j.physical = false := by rw [(tidy.fit k j found).kind, own]; rfl
    obtain ⟨w, ownW, known⟩ := analysed.has_value found virtual
    obtain rfl := mem_unique own ownW
    exact known
  exact mem_unique (isRoot found own) (isRoot foundJ ownJ)

theorem Analysed.uses_of_root {pool : IntervalPool} {cls : RegisterClass}
    (agree : ∀ (id : IntervalId) (i : Interval), pool.intervals[id]? = some i → i.regClass = cls →
      l.pool.intervals[id]? = some i) :
    ∀ e ∈ Scan.rootsOf pool cls, ∀ (k : IntervalId) (m : Interval),
      l.pool.intervals[k]? = some m → m.value = e.2.value → ∀ u ∈ m.uses, u ∈ e.2.uses := by
  rintro ⟨id, i⟩ member k m foundM same u isUse
  obtain ⟨found, virtual, -, -, isClass⟩ := Scan.mem_rootsOf.mp member
  have foundL := agree id i found isClass
  obtain ⟨v, own, -⟩ := analysed.has_value foundL virtual
  obtain rfl := analysed.interval_unique given foundM foundL (same.trans own) own
  obtain rfl := mem_unique foundM foundL
  exact isUse

theorem Analysed.pool_served : l.pool.Served l.pool := by
  have tidy : l.pool.Tidy (· % 2 = 1) := analysed.pool_tidy given _
  refine ⟨tidy, ?_, fun _ i found => ⟨i, found, rfl, rfl, rfl⟩,
    fun k i v q found own covered => ⟨k, i, found, own, covered⟩, ?_,
    fun k i u found member _ _ => ⟨i, found, rfl, member⟩,
    fun id i found => ⟨id, i, found, rfl, fun _ member => member, fun _ isD => isD⟩, ?_⟩
  · intro id i found
    rcases analysed.each id i found with ⟨v, known⟩ | ⟨place, call⟩
    · obtain ⟨i', ty, d, x, p, found', -, foundX, result, isAt, -, start, made⟩ :=
        analysed.has_root given known
      obtain rfl := mem_unique found found'
      obtain ⟨i', found', isFirst⟩ := analysed.first v id known
      obtain rfl := mem_unique found found'
      have invalid : i.location = .invalid := by rw [made]; rfl
      refine ⟨?_, by simp [invalid], by simp [invalid]⟩
      intro u member needs
      obtain ⟨e, y, foundY, plain, -, isAtY, input | ⟨resultY, -⟩⟩ := isFirst.demands u member needs
      · obtain ⟨positive, needed⟩ := analysed.needed_before given foundY plain input isAtY
        exact .inr ⟨positive, (isFirst.covers _).mpr needed⟩
      · refine .inl ⟨by rw [made]; rfl, ?_⟩
        exact (analysed.start_eq given known found foundY resultY isAtY).2.symm
    · obtain ⟨cls, reg, rfl, made⟩ := call.made
      have noUses : i.uses = [] := by rw [made]; rfl
      have physical : i.physical = true := by rw [made]; rfl
      exact ⟨by simp [noUses], by simp [noUses], by simp [physical]⟩
  · intro k i v u found own member positive id j foundJ ownJ _
    obtain rfl := analysed.interval_unique given found foundJ own ownJ
    obtain rfl := mem_unique found foundJ
    exact member
  · intro id i found _
    rcases analysed.each id i found with ⟨v, known⟩ | ⟨place, call⟩
    · obtain ⟨i', ty, d, x, p, found', -, -, -, -, -, -, made⟩ := analysed.has_root given known
      obtain rfl := mem_unique found found'
      rw [made]
      rfl
    · obtain ⟨cls, reg, -, made⟩ := call.made
      rw [made]
      rfl

end

theorem locationAt_of_covered (tidy : l.pool.Tidy (· % 2 = 1)) (known : l.intervalOf? v = some id)
    (found : l.pool.intervals[id]? = some i) (own : i.value = some v) (isRoot : i.root = id)
    (covered : ∃ (k : IntervalId) (j : Interval), l.pool.intervals[k]? = some j ∧
      j.value = some v ∧ j.covers q = true) :
    ∃ (k : IntervalId) (j : Interval), l.pool.intervals[k]? = some j ∧ j.value = some v ∧
      j.covers q = true ∧ j.ty = i.ty ∧ l.locationAt v q = .ok (some j.location) := by
  obtain ⟨k, j, foundJ, ownJ, coversJ⟩ := covered
  obtain ⟨ty, ids, siblings⟩ := tidy.siblings v
  have sameTy := (siblings.first k ((siblings.member k).mpr ⟨j, foundJ, ownJ⟩) j foundJ).2
  have ownTy := (siblings.first id ((siblings.member id).mpr ⟨i, found, own⟩) i found).2
  exact ⟨k, j, foundJ, ownJ, coversJ, sameTy.trans ownTy.symm,
    locationAt_of_piece tidy known found own isRoot ⟨k, foundJ, ownJ, coversJ⟩⟩

/-- Operands and results are in registers where instructions want them there. -/
structure MeetsRequirements (g : Graph) (l : Liveness) : Prop where
  reads : ∀ (d : InstrId) (x : Instr), g.instrs[d]? = some x → x.isPhi = false →
    x.isCall = false → ∃ p, l.numbering.numberOf? d = some p ∧ ∀ v ∈ x.inputs, ∃ ty place,
      g.typeOf v = .ok ty ∧ l.locationAt v (p - 1) = .ok (some place) ∧
      place.inClass ty.regClass = true
  computes : ∀ (d : InstrId) (x : Instr), g.instrs[d]? = some x → x.computes = true →
    ∀ v ∈ x.results, ∃ ty id i, g.typeOf v = .ok ty ∧ l.intervalOf? v = some id ∧
      l.pool.intervals[id]? = some i ∧ i.location.inClass ty.regClass = true

theorem scan_serving (given : g.Accepted tree l.numbering.order)
    (analysed : Analysed g g.target tree sets l) (run : l.scan g g.target o = .ok (l', frame)) :
    l' = { l with pool := l'.pool } ∧ l.pool.Served l'.pool ∧
      ∀ (id : IntervalId) (i : Interval), l'.pool.intervals[id]? = some i → i.physical = false →
        i.location.isInvalid = false := by
  obtain ⟨cc, params, types, args, p₁, f₁, convention, parameters, isTypes, -, ints, floats, same⟩ :=
    scan_steps run
  -- Integer registers.
  obtain ⟨c, s, s', bound, rfl, isTarget, isInt, entered, drained, rfl, rfl⟩ :=
    Scan.runClass_steps ints
  have homeless : ∀ v place,
      (startFrame c.graph o (cc.numStackParams types) args).home? v = some place →
        place.isMemory = true := by
    simp [Frame.home?, startFrame, Frame.ofGraph]
  obtain ⟨served, empty⟩ : Scan.Serving c l.pool l.pool [] s' ∧ s'.queue = [] := Scan.pass_serving
    (Scan.arriving_params given analysed rfl isTarget convention parameters isTypes
      fun _ _ found _ => found) (analysed.pool_served given) homeless
    (analysed.uses_of_root given fun _ _ found _ => found) entered drained
  have agree : ∀ (id : IntervalId) (i : Interval), s'.pool.intervals[id]? = some i →
      i.regClass = .float → l.pool.intervals[id]? = some i := by
    intro id i found isFloat
    refine (served.kept id i ?_).mp found
    rw [isFloat, isInt]
    simp
  -- Float registers.
  obtain ⟨c', t, t', bound', isGraph, isTarget', isFloat, entered', drained', isPool, -⟩ :=
    Scan.runClass_steps floats
  obtain ⟨served', empty'⟩ : Scan.Serving c' l.pool s'.pool [] t' ∧ t'.queue = [] :=
    Scan.pass_serving
      (Scan.arriving_params given analysed isGraph isTarget' convention parameters isTypes
        fun id i found isMine => agree id i found (isMine.2.trans isFloat)) served.served
      served.homes (analysed.uses_of_root given fun id i found isClass =>
        agree id i found (isClass.trans isFloat)) entered' drained'
  rw [isPool] at same ⊢
  refine ⟨same, served'.served, fun id i found virtual => ?_⟩
  by_contra invalid
  simp only [Bool.not_eq_false] at invalid
  cases cls : i.regClass with
  | int =>
    have found := (served'.kept id i (by rw [cls, isFloat]; simp)).mp found
    have := served.placed id i found ⟨virtual, cls.trans isInt.symm⟩ invalid
    simp [empty] at this
  | float =>
    have := served'.placed id i found ⟨virtual, cls.trans isFloat.symm⟩ invalid
    simp [empty'] at this

/-- A scan meets all register requirements. -/
theorem scan_meets_requirements (consistent : g.Consistent) (valid : g.validate = .ok ())
    (analysed : ofGraph g g.target = .ok l)
    (run : l.scan g g.target o = .ok (l', frame)) : l'.MeetsRequirements g := by
  obtain ⟨tree, order, isValid⟩ := Graph.validate_ok valid
  have given : g.Accepted tree order := ⟨consistent, isValid⟩
  have drawn := analysed
  obtain ⟨sets, analysed⟩ := ofGraph_analysed given analysed
  obtain rfl : order = l.numbering.order :=
    Except.ok.inj (isValid.ordered.symm.trans analysed.numbered.ordered)
  obtain ⟨same, served, located⟩ := scan_serving given analysed run
  have sameRoots : l'.intervalOf? = l.intervalOf? := by rw [same]; rfl
  -- Whoever has a use that needs a register is in one.
  have inRegister : ∀ {k : IntervalId} {j : Interval} {u : Use} {v : ValueId},
      l'.pool.intervals[k]? = some j → j.value = some v → u ∈ j.uses → u.needsRegister = true →
      j.location.inClass j.regClass = true := by
    intro k j u v found own member needs
    have virtual : j.physical = false := by rw [(served.tidy.fit k j found).kind, own]; rfl
    have apt := served.each k j found
    refine apt.kind virtual ?_
    by_contra outside
    have memory := Scan.isMemory_of_valid (located k j found virtual) (by simpa using outside)
    simp [apt.spared memory u member] at needs
  -- First intervals stay where they were.
  have root : ∀ {v : ValueId} {id : IntervalId} {i : Interval}, l.intervalOf? v = some id →
      l.pool.intervals[id]? = some i → ∃ j, l'.pool.intervals[id]? = some j ∧
        j.value = some v ∧ j.root = id ∧ g.typeOf v = .ok j.ty := by
    intro v id i known found
    obtain ⟨i', ty, d, x, p, found', isTy, -, -, -, -, -, made⟩ := analysed.has_root given known
    obtain rfl := mem_unique found found'
    obtain ⟨j, foundJ, value, sameTy, isRoot⟩ := served.stays id i found
    refine ⟨j, foundJ, value.trans (by rw [made]; rfl), isRoot.trans (by rw [made]; rfl), ?_⟩
    rw [sameTy, isTy, made]
    rfl
  constructor
  case reads =>
    intro d x found plain noCall
    obtain ⟨-, -, p, -, -, -, isAt, -⟩ := analysed.has_number given found
    refine ⟨p, by rw [same]; exact isAt, fun v input => ?_⟩
    obtain ⟨id, i, known, isId, u, member, rfl, needs⟩ :=
      wanted_use given drawn found isAt plain noCall (.inl input)
    obtain ⟨i', isId', isFirst⟩ := analysed.first v id known
    obtain rfl := mem_unique isId isId'
    obtain ⟨positive, needed⟩ := analysed.needed_before given found plain input isAt
    obtain ⟨j, foundJ, ownJ, isRoot, isTy⟩ := root known isId
    have covered := served.whole id i v _ isId isFirst.value_eq ((isFirst.covers _).mpr needed)
    obtain ⟨k, m, foundM, ownM, coversM, sameTy, isPlace⟩ := locationAt_of_covered served.tidy
      (by rw [sameRoots]; exact known) foundJ ownJ isRoot covered
    have isUse := served.reads id i v u isId isFirst.value_eq member positive k m foundM ownM coversM
    refine ⟨j.ty, m.location, isTy, isPlace, ?_⟩
    rw [← sameTy]
    exact inRegister foundM ownM isUse needs
  case computes =>
    intro d x found computes v result
    have plain : x.isPhi = false := by
      rw [Instr.isPhi, beq_eq_false_iff_ne]
      intro isPhi
      simp [Instr.computes, isPhi] at computes
    have noCall : x.isCall = false := by
      by_contra call
      obtain ⟨callee, isCall⟩ := Instr.opcode_of_isCall (by simpa using call)
      simp [Instr.computes, isCall] at computes
    obtain ⟨-, -, p, -, -, -, isAt, -⟩ := analysed.has_number given found
    obtain ⟨id, i, known, isId, u, member, rfl, needs⟩ :=
      wanted_use given drawn found isAt plain noCall (.inr ⟨result, computes⟩)
    have start := (analysed.start_eq given known isId found result isAt).2
    obtain ⟨j, foundJ, ownJ, -, isTy⟩ := root known isId
    obtain ⟨j', foundJ', -, isUse⟩ := served.writes id i u isId member needs start.symm
    obtain rfl := mem_unique foundJ foundJ'
    exact ⟨j.ty, id, j, isTy, by rw [sameRoots]; exact known, foundJ,
      inRegister foundJ ownJ isUse needs⟩

/-- A value that is kept in memory over a call is back in a register where it is read. -/
theorem acrossCall_meets_requirements :
    ∃ l l' frame, ofGraph acrossCall acrossCall.target = .ok l ∧
      l.scan acrossCall acrossCall.target { Options.default with ints := some (.first 2) } =
        .ok (l', frame) ∧
      l'.locationAt 1 6 = .ok (some (.stackSlot 1)) ∧
      l'.locationAt 1 9 = .ok (some (.register 1)) ∧ l'.MeetsRequirements acrossCall := by
  have scanned : (do
      let l ← ofGraph acrossCall acrossCall.target
      let r ← l.scan acrossCall acrossCall.target { Options.default with ints := some (.first 2) }
      return (← r.1.locationAt 1 6, ← r.1.locationAt 1 9) :
        Attempt AllocationError (Option Location × Option Location)) =
      .ok (some (.stackSlot 1), some (.register 1)) := by
    decide +kernel
  obtain ⟨l, analysed, scanned⟩ := bind_ok.mp scanned
  obtain ⟨⟨l', frame⟩, run, places⟩ := bind_ok.mp scanned
  simp only [bind_ok, lift_ok, pure_ok, Prod.mk.injEq] at places
  obtain ⟨_, inside, _, before, rfl, rfl⟩ := places
  exact ⟨l, l', frame, lift_ok.mp analysed, run, inside, before,
    scan_meets_requirements ⟨by decide +kernel, by decide +kernel⟩ (by decide +kernel)
      (lift_ok.mp analysed) run⟩

end Liveness

end RegisterAllocation
