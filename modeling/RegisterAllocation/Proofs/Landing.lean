import RegisterAllocation.Proofs.LiveRanges
import RegisterAllocation.Proofs.Passes

/-!
Where parameters arrive, and when. Each has a place of its own, of the class of its type, and if no
call stands ahead of a parameter, all have arrived before the first call.
-/

namespace RegisterAllocation

open List Option CallingConvention Graph Location

namespace CallingConvention

variable {regs fpRegs : List Nat} {slot : Nat} {types : List ValueType} {l : Location}
  {ty : ValueType}

theorem assign_inClass {k : Nat} (isTy : types[k]? = some ty)
    (isPlace : (assign regs fpRegs slot types)[k]? = some l) (register : l.isAnyRegister = true) :
    l.inClass ty.regClass = true := by
  fun_induction assign regs fpRegs slot types generalizing k with
  | case1 => simp at isTy
  | case2 regs slot ty' rest float r fpRegs ih =>
    cases k with
    | zero =>
      obtain rfl : ty' = ty := by simpa using isTy
      obtain rfl : .fpRegister r = l := by simpa using isPlace
      simp [ValueType.regClass, float, inClass, isFpRegister, fpRegister]
    | succ k => exact ih (by simpa using isTy) (by simpa using isPlace)
  | case4 fpRegs slot ty' rest int r regs ih =>
    cases k with
    | zero =>
      obtain rfl : ty' = ty := by simpa using isTy
      obtain rfl : .register r = l := by simpa using isPlace
      simp [ValueType.regClass, int, inClass, isRegister, Location.register]
    | succ k => exact ih (by simpa using isTy) (by simpa using isPlace)
  | case3 _ slot _ _ _ ih | case5 _ slot _ _ _ ih =>
    cases k with
    | zero =>
      obtain rfl : .stackParameter slot = l := by simpa using isPlace
      simp [isAnyRegister, isRegister, isFpRegister,
        stackParameter] at register
    | succ k => exact ih (by simpa using isTy) (by simpa using isPlace)

end CallingConvention

namespace Scan

variable {params : List ValueId} {places : List Location} {v w : ValueId} {l : Location}

theorem find_arrival (isArrival : Arrivals.find? (params.zip places) v = some l) :
    ∃ k : Nat, params[k]? = some v ∧ places[k]? = some l := by
  rw [Arrivals.find?, lookup_eq_some_iff] at isArrival
  obtain ⟨before, after, split, -⟩ := isArrival
  have member : (v, l) ∈ params.zip places := by
    rw [← mem_reverse, split]
    simp
  obtain ⟨k, isK⟩ := mem_iff_getElem?.mp member
  rw [getElem?_zip_eq_some] at isK
  exact ⟨k, isK⟩

theorem arrivals_once (once : places.Nodup)
    (isArrival : Arrivals.find? (params.zip places) v = some l)
    (isArrival' : Arrivals.find? (params.zip places) w = some l) : v = w := by
  obtain ⟨k, isV, isL⟩ := find_arrival isArrival
  obtain ⟨k', isW, isL'⟩ := find_arrival isArrival'
  obtain rfl : k = k' := by
    obtain ⟨inside, -⟩ := List.getElem?_eq_some_iff.mp isL
    exact (getElem?_inj inside once).mp (isL.trans isL'.symm)
  exact mem_unique isV isW

end Scan

namespace Graph

/-- No call stands ahead of a parameter in the entry block. -/
def ParametersFirst (g : Graph) : Prop :=
  ∀ pc pc' x y, g.At g.entry pc x → g.At g.entry pc' y → x.isCall = true →
    y.opcode = .parameter → pc' < pc

theorem parametersFirst_iff {g : Graph} {B : Block} (stored : g.blocks[g.entry]? = some B) :
    g.ParametersFirst ↔ ∀ pc < B.instrs.length, ∀ x ∈ B.instrs[pc]?.bind (g.instrs[·]?),
      x.isCall = true → ∀ pc' < B.instrs.length, ∀ y ∈ B.instrs[pc']?.bind (g.instrs[·]?),
      y.opcode = .parameter → pc' < pc := by
  simp only [← forall_at_iff stored]
  exact ⟨fun first pc x isAt isCall pc' y isAt' => first pc pc' x y isAt isAt' isCall,
    fun first pc pc' x y isAt isAt' isCall => first pc x isAt isCall pc' y isAt'⟩

end Graph

namespace Liveness

variable {g : Graph} {target : Target} {tree : DominatorTree} {sets : LiveSets} {l : Liveness}
  {i j : InstrId} {x y : Instr} {p q : Position} {v : ValueId}

variable (given : g.Accepted tree l.numbering.order) (analysed : Analysed g target tree sets l)

include given analysed

theorem Analysed.parameter_lt (found : g.instrs[i]? = some x)
    (parameter : x.opcode = .parameter) (isAt : l.numbering.numberOf? i = some p)
    (foundY : g.instrs[j]? = some y) (plainY : y.isPhi = false)
    (isAtY : l.numbering.numberOf? j = some q)
    (first : ∀ pc pc', g.At g.entry pc y → g.At g.entry pc' x → pc' < pc) : p < q := by
  obtain ⟨E, r, p', storedE, listed, range, isAt', -, high, -, -⟩ := analysed.has_number given found
  obtain rfl := mem_unique isAt isAt'
  obtain ⟨B, rB, q', stored, listedY, rangeB, isAtY', -, -, -, low⟩ :=
    analysed.has_number given foundY
  obtain rfl := mem_unique isAtY isAtY'
  obtain ⟨E', pc, storedE', atPc, valid⟩ := given.instr_valid found
  obtain rfl := mem_unique storedE storedE'
  have isEntry : x.block = g.entry := valid.early parameter
  have plainX : x.isPhi = false := by simp [Instr.isPhi, parameter]
  rw [plainY] at low
  have member := given.valid.complete _ E storedE
  by_cases here : y.block = x.block
  · rw [here] at stored
    obtain rfl := mem_unique storedE stored
    obtain ⟨pc', atPc'⟩ := mem_iff_getElem?.mp listedY
    rw [isEntry] at storedE
    have before := first pc' pc ⟨E, j, storedE, atPc', foundY⟩ ⟨E, i, storedE, atPc, found⟩
    obtain ⟨inside, isI⟩ := List.getElem?_eq_some_iff.mp atPc
    have split : E.instrs = E.instrs.take pc ++ i :: E.instrs.drop (pc + 1) := by
      rw [← isI, ← drop_eq_getElem_cons inside, take_append_drop]
    have later : j ∈ E.instrs.drop (pc + 1) := by
      refine mem_iff_getElem?.mpr ⟨pc' - (pc + 1), ?_⟩
      rw [getElem?_drop, show pc + 1 + (pc' - (pc + 1)) = pc' by lia, atPc']
    exact analysed.numbered.number_lt member stored range split
      ((phiAt_eq found).trans plainX) later ((phiAt_eq foundY).trans plainY) isAt isAtY
  · have earlier : l.numbering.order.idxOf x.block < l.numbering.order.idxOf y.block := by
      have head := reversePostOrder_head analysed.numbered.ordered
      rw [isEntry] at here ⊢
      cases isOrder : l.numbering.order with
      | nil => simp [isOrder] at head
      | cons entry rest =>
        obtain rfl : entry = g.entry := by simpa [isOrder] using head
        rw [idxOf_cons_self, idxOf_cons_ne _ (Ne.symm here)]
        exact Nat.succ_pos _
    have := analysed.numbered.apart x.block y.block r rB (given.valid.complete _ B stored) earlier
      range rangeB
    simp only [Bool.false_eq_true, if_false] at low
    lia

theorem Analysed.parameter_lt_call (first : g.ParametersFirst)
    (found : g.instrs[i]? = some x) (parameter : x.opcode = .parameter)
    (isAt : l.numbering.numberOf? i = some p) (call : g.CallAt l.numbering q) : p < q := by
  obtain ⟨j, y, foundY, isCall, isAtY⟩ := call
  have plainY : y.isPhi = false := by
    rw [Instr.isPhi, beq_eq_false_iff_ne]
    intro isPhi
    simp [Instr.isCall, isPhi, Opcode.isCall] at isCall
  exact analysed.parameter_lt given found parameter isAt foundY plainY isAtY
    fun pc pc' atY atX => first pc pc' y x atY atX isCall parameter

theorem Analysed.instrAt_eq (found : g.instrs[i]? = some x)
    (plain : x.isPhi = false) (isAt : l.numbering.numberOf? i = some p) :
    l.numbering.instrAt? p = some i := by
  obtain ⟨B, r, p', stored, listed, range, isAt', -⟩ := analysed.has_number given found
  obtain rfl := mem_unique isAt isAt'
  have member := given.valid.complete _ B stored
  have inBody : i ∈ g.body x.block := by
    rw [body_eq stored, steps, mem_filter, phiAt_eq found, plain]
    exact ⟨listed, rfl⟩
  obtain ⟨k, atK⟩ := mem_iff_getElem?.mp inBody
  have isAtK := analysed.numbered.number _ r member range k i atK
  exact (analysed.numbered.instrAt p i).mpr
    ⟨x.block, r, k, member, range, atK, mem_unique isAt isAtK⟩

end Liveness

namespace Scan

variable {g : Graph} {tree : DominatorTree} {sets : LiveSets} {l : Liveness} {c : Pass}
  {p : IntervalPool} {id : IntervalId} {i : Interval} {v : ValueId} {params : List ValueId}
  {types : List ValueType} {cc : CallingConvention} {place : Location}

variable (given : g.Accepted tree l.numbering.order)
  (analysed : Liveness.Analysed g g.target tree sets l)

include given analysed

theorem arrival_start (parameters : g.parameters = .ok params)
    (found : l.pool.intervals[id]? = some i) (own : i.value = some v)
    (isArrival : Arrivals.find? (params.zip (cc.paramLocations types)) v = some place) :
    ∃ (d : InstrId) (x : Instr), g.instrs[d]? = some x ∧ x.opcode = .parameter ∧ v ∈ x.results ∧
      l.numbering.numberOf? d = some i.start ∧ 0 < i.start ∧ i.start % 2 = 0 := by
  obtain ⟨k, isV, -⟩ := find_arrival isArrival
  obtain ⟨pc, x, ⟨E, d, stored, listed, foundX⟩, parameter, result⟩ :=
    mem_parameters parameters (mem_iff_getElem?.mpr ⟨k, isV⟩)
  obtain ⟨-, r, q, -, -, -, isAt, -, -, even, low⟩ := analysed.has_number given foundX
  have plain : x.isPhi = false := by simp [Instr.isPhi, parameter]
  simp only [plain, Bool.false_eq_true, if_false] at low
  have virtual : i.physical = false := by
    rw [((analysed.pool_tidy given fun _ => True).fit id i found).kind, own]
    rfl
  obtain ⟨w, ownW, known⟩ := analysed.has_value found virtual
  obtain rfl := mem_unique own ownW
  obtain ⟨-, start⟩ := analysed.start_eq given known found foundX result isAt
  rw [start]
  exact ⟨d, x, foundX, parameter, result, isAt, Nat.zero_lt_of_lt low, even⟩

theorem arrival_spared {d : InstrId} {x : Instr}
    (foundX : g.instrs[d]? = some x) (parameter : x.opcode = .parameter) {q : Position}
    (isAt : l.numbering.numberOf? d = some q) :
    ¬g.Demands l.numbering v q := by
  rintro ⟨j, y, foundY, plain, -, isAtY, wants⟩
  obtain ⟨B, pc, -, -, valid⟩ := given.instr_valid foundX
  have plainX : x.isPhi = false := by simp [Instr.isPhi, parameter]
  have same : j = d := by
    have atX := analysed.instrAt_eq given foundX plainX isAt
    have atY := analysed.instrAt_eq given foundY plain isAtY
    exact mem_unique atY atX
  subst same
  obtain rfl := mem_unique foundX foundY
  rcases wants with input | ⟨-, other⟩
  · have none := valid.inputs 0 (by rw [parameter]; rfl)
    simp [length_eq_zero_iff.mp none] at input
  · exact other parameter

theorem arriving_params (isGraph : c.graph = g) (isTarget : c.target = g.target)
    (convention : g.target.convention = some cc) (parameters : g.parameters = .ok params)
    (isTypes : g.typesOf params = .ok types)
    (agree : ∀ (id : IntervalId) (i : Interval), p.intervals[id]? = some i → Mine c i →
      l.pool.intervals[id]? = some i) :
    Arriving c (params.zip (cc.paramLocations types))
      (lastArrival (params.zip (cc.paramLocations types)) (rootsOf p c.regClass)) p := by
  have fits := fits_target convention
  have isRoot : ∀ (id : IntervalId) (i : Interval), (id, i) ∈ rootsOf p c.regClass →
      l.pool.intervals[id]? = some i := by
    intro id i member
    obtain ⟨found, virtual, -, -, cls⟩ := mem_rootsOf.mp member
    exact agree id i found ⟨virtual, cls⟩
  have blank : ∀ (id : IntervalId) (i : Interval), p.intervals[id]? = some i → Mine c i → ∃ ty d v,
      g.typeOf v = .ok ty ∧ l.intervalOf? v = some id ∧ i.ranges ≠ [] ∧
        i = { Interval.ofValue id v ty d with ranges := i.ranges, uses := i.uses } := by
    intro id i found isMine
    have foundL := agree id i found isMine
    obtain ⟨v, own, known⟩ := analysed.has_value foundL isMine.1
    obtain ⟨i', ty, d, x, q, found', isTy, -, -, -, filled, -, made⟩ := analysed.has_root given known
    obtain rfl := mem_unique foundL found'
    exact ⟨ty, d, v, isTy, known, filled, made⟩
  refine ⟨?_, ?_, ?_, ?_, ?_, ?_⟩
  · intro id i found isMine
    obtain ⟨ty, d, v, -, -, -, made⟩ := blank id i found isMine
    rw [made]
    exact ⟨rfl, rfl, rfl, rfl, rfl⟩
  · intro v place isArrival
    obtain ⟨k, -, isPlace⟩ := find_arrival isArrival
    rcases mem_assign (mem_of_getElem? isPlace) with
      ⟨r, member, rfl⟩ | ⟨r, member, rfl⟩ | ⟨k, rfl, -⟩
    · refine .inr ⟨rfl, ?_⟩
      have other := (fits.regs r member).2
      rw [isTarget, Graph.target]
      simp [Target.isZeroReg, Location.register, other]
    · exact .inr ⟨rfl, rfl⟩
    · exact .inl rfl
  · intro v w place isArrival isArrival'
    exact arrivals_once (assign_nodup fits.once fits.fpOnce) isArrival isArrival'
  · intro id i v place found isMine own isArrival register
    obtain ⟨ty, d, w, isTy, -, -, made⟩ := blank id i found isMine
    obtain rfl : w = v := by
      rw [made] at own
      exact some.inj own
    obtain ⟨k, isV, isPlace⟩ := find_arrival isArrival
    obtain ⟨ty', isTy', typed⟩ := (mapM_getElem isTypes k).1 w isV
    obtain rfl : ty = ty' := Except.ok.inj (isTy.symm.trans typed)
    have := CallingConvention.assign_inClass isTy' isPlace register
    rw [← isMine.2, Interval.regClass, made]
    exact this
  · intro id i v place found isMine own isArrival
    have foundL := agree id i found isMine
    obtain ⟨d, x, foundX, parameter, result, isAt, positive, even⟩ :=
      arrival_start given analysed parameters foundL own isArrival
    obtain ⟨_, _, w, -, known, filled, made⟩ := blank id i found isMine
    have isRoot : (id, i) ∈ rootsOf p c.regClass :=
      mem_rootsOf.mpr ⟨found, isMine.1, by rw [made]; rfl, filled, isMine.2⟩
    refine ⟨positive, le_lastArrival isRoot own isArrival, even, ?_, ?_⟩
    · intro u member needs here
      obtain ⟨i', foundI', isFirst⟩ := analysed.first w id known
      obtain rfl := mem_unique foundL foundI'
      obtain rfl := mem_unique isFirst.value_eq own
      exact arrival_spared given analysed foundX parameter isAt
        (here ▸ isFirst.demands u member needs)
    · intro isZero
      rw [isGraph] at isZero
      have isConstant := given.valid.constant_of_result foundX result isZero
      rw [parameter] at isConstant
      cases isConstant
  · rcases lastArrival_cases (params.zip (cc.paramLocations types)) (rootsOf p c.regClass) with
      none | ⟨id, i, v, place, member, own, isArrival, isLast⟩
    · rw [none]
    · obtain ⟨-, -, -, -, -, -, -, even⟩ :=
        arrival_start given analysed parameters (isRoot id i member) own isArrival
      rw [← isLast]
      exact even

end Scan

end RegisterAllocation
