import RegisterAllocation.Proofs.CallSites

/-!
The locations of an allocated program. All of them are places that the machine has, an immediate is
the constant that it stands for, and a register is written only if it may be handed out, by the
calling convention, or to break a ring of moves.
-/

namespace RegisterAllocation

open List Option CallingConvention Instr Location MoveGroup Placement Scan Target

namespace Graph

variable {g g' : Graph} {tree : DominatorTree} {order : List BlockId} {sets : LiveSets}
  {o : Options} {l : Liveness} {f : Frame} {cc : CallingConvention} {arrivals : Arrivals}
  {n : Numbering} {d : InstrId} {x y : Instr} {i : Interval} {id : IntervalId} {v : ValueId}
  {q : Position} {place : Location} {purpose : Purpose} {group : MoveGroup} {m : Move}

def Has (g : Graph) (place : Location) : Prop :=
  match place.kind with
  | .register => place.index < g.target.intRegs
  | .fpRegister => place.index < g.target.floatRegs
  | .stackSlot => place.index < g.numSlots
  | .stackParameter => place.index < g.numParams + g.numArgs
  | .immediate => place.index < g.immediates.length
  | .invalid => False

theorem has_inClass {c : RegisterClass} (inClass : place.inClass c = true) :
    g.Has place ↔ place.index < g.target.numRegs c := by
  obtain ⟨kind, index⟩ := place
  cases c <;> cases kind <;>
    simp_all [Has, Location.inClass, isRegister, isFpRegister, numRegs]

theorem has_param (convention : g.target.convention = some cc)
    (isParam : cc.isParamRegister place = true) : g.Has place := by
  have fits : cc.FitsTarget g.target := fits_target convention
  rcases isParamRegister_cases isParam with ⟨r, member, rfl⟩ | ⟨r, member, rfl⟩
  · exact (fits.regs r member).1
  · exact fits.fpRegs r member

theorem has_return (convention : g.target.convention = some cc) (ty : ValueType) :
    g.Has (cc.returnLocation ty) := by
  have orderly : cc.Orderly g.target := CallingConvention.orderly_of_convention convention
  unfold returnLocation
  split
  · exact orderly.fpReturnReg
  · exact orderly.returnReg

theorem has_scratch (slots : g.target.firstSlot ≤ g.numSlots)
    (isScratch : place ∈ scratchPlaces g.target) : g.Has place := by
  have orderly : g.target.Orderly := Target.ofArch_orderly g.arch
  rcases mem_scratchPlaces isScratch with ⟨cls, inClass, isTemp⟩ | ⟨reserved, rfl⟩
  · exact (has_inClass inClass).mpr (orderly.temp cls _ isTemp)
  · exact show 0 < g.numSlots by omega

end Graph

namespace Liveness

variable {g : Graph} {tree : DominatorTree} {order : List BlockId} {sets : LiveSets}
  {o : Options} {l : Liveness} {f : Frame} {cc : CallingConvention} {arrivals : Arrivals}
  {n : Numbering} {d : InstrId} {x : Instr} {i : Interval} {id : IntervalId} {v : ValueId}
  {q : Position} {place : Location}

theorem Lodges.frame_has (convention : g.target.convention = some cc)
    (lodges : Lodges g o cc arrivals n f v i) : (g.setFrame f).Has i.location := by
  have orderly : g.target.Orderly := Target.ofArch_orderly g.arch
  cases lodges with
  | register cls inClass given =>
    exact (Graph.has_inClass inClass).mpr
      (orderly.allocatable cls _ (Options.allocatable_of_registers given)).1
  | zero isZero isReg =>
    simp only [isZeroReg, Bool.and_eq_true, beq_iff_eq] at isReg
    exact (Graph.has_inClass (c := .int) isReg.1).mpr (orderly.zero _ isReg.2).1
  | slot k isSlot low high =>
    rw [isSlot]
    exact high
  | immediate k w isImmediate found =>
    rw [isImmediate]
    exact listed_lt found
  | stacked k isParam inside =>
    rw [isParam]
    exact Nat.lt_add_right _ inside
  | arrives isParam => exact Graph.has_param (g := g.setFrame f) convention isParam

theorem Located.frame_has (located : Located g o cc arrivals l f)
    (isPlace : l.locationAt v q = .ok (some place)) : (g.setFrame f).Has place := by
  obtain ⟨id, i, found, own, -, rfl⟩ := located.interval_at isPlace
  exact (located.lodges_each found own).frame_has located.convention

theorem Located.root_lodges (located : Located g o cc arrivals l f)
    (isPlace : rootLocation l v = .ok place) :
    ∃ (id : IntervalId) (i : Interval), l.pool.intervals[id]? = some i ∧ i.value = some v ∧
      i.location = place := by
  obtain ⟨id, i, known, found, isPlace, -⟩ := rootLocation_ok isPlace
  obtain ⟨i', found', own, -⟩ := located.root v id known
  obtain rfl := mem_unique found found'
  exact ⟨id, i, found, own, isPlace⟩

theorem Lodges.immediate_constant {k : Nat} (lodges : Lodges g o cc arrivals n f v i)
    (isPlace : i.location = .immediate k) :
    ∃ w, f.immediates[k]? = some w ∧ g.constantOf? v = .ok (some w) := by
  cases lodges with
  | register cls inClass =>
    rw [isPlace] at inClass
    cases cls <;> cases inClass
  | zero isZero isReg =>
    rw [isPlace] at isReg
    cases isReg
  | slot j other => cases isPlace.symm.trans other
  | immediate j w same found constant =>
    obtain rfl : k = j := congrArg Location.index (isPlace.symm.trans same)
    exact ⟨w, found, constant⟩
  | stacked j other => cases isPlace.symm.trans other
  | arrives isParam =>
    rw [isPlace] at isParam
    cases isParam

theorem Lodges.in_register (lodges : Lodges g o cc arrivals n f v i)
    (register : i.location.isAnyRegister = true) :
    (∃ cls, i.location.inClass cls = true ∧
      (o.registers g.target cls).contains i.location.index = true) ∨
    (g.constantOf? v = .ok (some 0) ∧ g.target.isZeroReg i.location = true) ∨
    (cc.isParamRegister i.location = true ∧ Arrives g arrivals n v i) := by
  cases lodges with
  | register cls inClass given => exact .inl ⟨cls, inClass, given⟩
  | zero isZero isReg => exact .inr (.inl ⟨isZero, isReg⟩)
  | slot j other => cases other ▸ register
  | immediate j w other => cases other ▸ register
  | stacked j other => cases other ▸ register
  | arrives isParam arrives => exact .inr (.inr ⟨isParam, arrives⟩)

end Liveness

namespace Graph

variable {g g' : Graph} {tree : DominatorTree} {order : List BlockId} {sets : LiveSets}
  {o : Options} {l : Liveness} {f : Frame} {cc : CallingConvention} {arrivals : Arrivals}
  {d : InstrId} {x y : Instr} {i : Interval} {id : IntervalId} {v : ValueId} {q : Position}
  {place : Location} {purpose : Purpose} {group : MoveGroup} {m : Move}
  {s : Sites}

theorem not_readOnly_scratch (isScratch : place ∈ scratchPlaces g.target) :
    place.isImmediate = false ∧ g.target.isZeroReg place = false := by
  have orderly : g.target.Orderly := Target.ofArch_orderly g.arch
  rcases mem_scratchPlaces isScratch with ⟨cls, inClass, isTemp⟩ | ⟨-, rfl⟩
  · constructor
    · obtain ⟨kind, index⟩ := place
      cases cls <;> cases kind <;> first | rfl | cases inClass
    · by_contra isZero
      simp only [isZeroReg, Bool.not_eq_false, Bool.and_eq_true, beq_iff_eq] at isZero
      obtain rfl := inClass_inj (d := .int) inClass isZero.1
      exact (orderly.zero _ isZero.2).2 isTemp
  · exact ⟨rfl, rfl⟩

theorem Annotated.constantOf_eq (annotated : Annotated g l f g') {c : Option Word}
    (constant : g.constantOf? v = .ok c) : g'.constantOf? v = .ok c := by
  simp only [constantOf?, bind_ok, pure_ok, value_ok, instr_ok] at constant ⊢
  obtain ⟨D, defined, x, found, isConstant⟩ := constant
  obtain ⟨s, group, -, found', -⟩ := annotated.instr _ x found
  have values : g'.values = g.values := by rw [annotated.same]; rfl
  exact ⟨D, values ▸ defined, _, found', isConstant⟩

theorem has_argument (located : Liveness.Located g o cc arrivals l f)
    (found : g.instrs[d]? = some x) (call : x.isCall = true) {types : List ValueType}
    (isTypes : g.typesOf x.inputs = .ok types) (kept : l.locationAt v q = .ok (some place))
    {param : Location} (isParam : param ∈ cc.paramLocations types) :
    (g.setFrame f).Has (argumentLocation (g.setFrame f) place param) := by
  rcases argumentLocation_cases (g.setFrame f) place isParam with
    ⟨isReg, -, same⟩ | ⟨-, -, same⟩ | ⟨j, inside, -, same⟩ <;> rw [same]
  · exact has_param (g := g.setFrame f) located.convention isReg
  · exact located.frame_has kept
  · obtain ⟨types', isTypes', enough⟩ := located.args d x found call
    obtain rfl := Except.ok.inj (isTypes.symm.trans isTypes')
    exact show f.numParams + j < f.numParams + f.numArgs by omega

theorem argument_of_site (call : x.isCall = true) (convention : g.target.convention = some cc)
    (run : Placement.sites (g.setFrame f) l g.target d x = .ok s) {k : Nat}
    (isInput : s.inputs[k]? = some place) :
    ∃ types pos v param kept, g.typesOf x.inputs = .ok types ∧ x.inputs[k]? = some v ∧
      param ∈ cc.paramLocations types ∧ l.locationAt v (pos - 1) = .ok (some kept) ∧
      place = argumentLocation (g.setFrame f) kept param := by
  obtain ⟨-, pos, -, types, -, -, isAt, -, isTypes, -⟩ := sites_call call run
  have isTypes : g.typesOf x.inputs = .ok types := isTypes
  obtain ⟨arity, argument⟩ := argument_site call convention isAt isTypes run
  have inside : k < x.inputs.length := arity ▸ (listed_lt isInput)
  have inParams : k < (cc.paramLocations types).length := by
    rwa [length_paramLocations, ← (mapM_ok.mp isTypes).length_eq]
  obtain ⟨kept, isKept, isInput'⟩ := argument k _ _ (getElem?_eq_getElem inside)
    (getElem?_eq_getElem inParams)
  exact ⟨types, pos, _, _, kept, isTypes, getElem?_eq_getElem inside,
    getElem_mem inParams, isKept, mem_unique isInput isInput'⟩

section

variable (given : g.Accepted tree order) (located : Liveness.Located g o cc arrivals l f)
  (found : g.instrs[d]? = some x) (run : Placement.sites (g.setFrame f) l g.target d x = .ok s)

include given located found run

theorem sites_has :
    ∀ place ∈ s.inputs ++ s.results, (g.setFrame f).Has place := by
  have root : ∀ {v place}, rootLocation l v = .ok place → (g.setFrame f).Has place := by
    intro v place isPlace
    obtain ⟨id, i, foundI, own, rfl⟩ := located.root_lodges isPlace
    exact (located.lodges_each foundI own).frame_has located.convention
  intro place member
  cases phi : x.isPhi with
  | true =>
    obtain ⟨v, home, -, isHome, rfl⟩ := sites_phi phi run
    obtain rfl : place = home := by
      rcases mem_append.mp member with input | result
      · exact eq_of_mem_replicate input
      · exact mem_singleton.mp result
    exact root isHome
  | false =>
    cases call : x.isCall with
    | false =>
      obtain ⟨pos, -, inputs, results, -⟩ := sites_plain phi call run
      rcases mem_append.mp member with input | result
      · obtain ⟨v, -, kept⟩ := mapM_mem_result inputs input
        exact located.frame_has (inputLocation_ok kept)
      · obtain ⟨v, -, isPlace⟩ := mapM_mem_result results result
        exact root isPlace
    | true =>
      rcases mem_append.mp member with input | result
      · obtain ⟨k, isInput⟩ := mem_iff_getElem?.mp input
        obtain ⟨types, pos, v, param, kept, isTypes, -, isParam, isKept, rfl⟩ :=
          argument_of_site call located.convention run isInput
        exact has_argument located found call isTypes isKept isParam
      · rw [result_site given found call located.convention run] at result
        obtain ⟨-, -, rfl⟩ := mem_map.mp result
        exact has_return (g := g.setFrame f) located.convention x.ty

theorem sites_immediate {k n : Nat}
    (input : x.inputs[k]? = some v) (isPlace : s.inputs[k]? = some (.immediate n)) :
    ∃ w, f.immediates[n]? = some w ∧ g.constantOf? v = .ok (some w) := by
  have constant : ∀ {u q}, l.locationAt u q = .ok (some (.immediate n)) →
      ∃ w, f.immediates[n]? = some w ∧ g.constantOf? u = .ok (some w) := by
    intro u q kept
    obtain ⟨id, i, foundI, own, -, isHere⟩ := located.interval_at kept
    exact (located.lodges_each foundI own).immediate_constant isHere
  cases phi : x.isPhi with
  | true =>
    -- a phi is no constant, so it is not kept in the table
    obtain ⟨u, home, isResult, isHome, rfl⟩ := sites_phi phi run
    obtain rfl : home = .immediate n := eq_of_mem_replicate (mem_of_getElem? isPlace) ▸ rfl
    obtain ⟨id, i, foundI, own, isHere⟩ := located.root_lodges isHome
    obtain ⟨w, -, isConstant⟩ := (located.lodges_each foundI own).immediate_constant isHere
    have none := given.valid.constant_of_result found (mem_of_mem_head? isResult) isConstant
    rw [show x.opcode = .phi by simpa [isPhi] using phi] at none
    cases none
  | false =>
    cases call : x.isCall with
    | false =>
      obtain ⟨pos, -, inputs, -⟩ := sites_plain phi call run
      obtain ⟨place, isPlace', kept⟩ := (mapM_getElem inputs k).1 v input
      obtain rfl := mem_unique isPlace isPlace'
      exact constant (inputLocation_ok kept)
    | true =>
      obtain ⟨types, pos, u, param, kept, -, inputU, isParam, isKept, same⟩ :=
        argument_of_site call located.convention run isPlace
      obtain rfl := mem_unique input inputU
      rcases argumentLocation_cases (g.setFrame f) kept isParam with
        ⟨-, register, isReg⟩ | ⟨-, -, inPlace⟩ | ⟨j, -, -, outgoing⟩
      · rw [isReg] at same
        simp [← same, isAnyRegister, Location.immediate, isRegister,
          isFpRegister] at register
      · obtain rfl := same.trans inPlace
        exact constant isKept
      · simp [outgoing, Location.immediate, stackParameter] at same

end

inductive MayDefine (g : Graph) (o : Options) (cc : CallingConvention) (x : Instr)
    (place : Location) : Prop where
  | given (cls : RegisterClass) (inClass : place.inClass cls = true)
      (given : (o.registers g.target cls).contains place.index = true)
  | parameter (isParameter : x.opcode = .parameter) (isParam : cc.isParamRegister place = true)
  | call (isCall : x.isCall = true) (isReturn : place = cc.returnLocation x.ty)
  | zero (isZero : x.opcode.constant? = some 0) (isReg : g.target.isZeroReg place = true)

section

variable (given : g.Accepted tree order) (located : Liveness.Located g o cc arrivals l f)
  (found : g.instrs[d]? = some x)

include given located found

theorem root_register (result : v ∈ x.results) (isPlace : rootLocation l v = .ok place)
    (register : place.isAnyRegister = true) :
    (∃ cls, place.inClass cls = true ∧ (o.registers g.target cls).contains place.index = true) ∨
    (x.opcode.constant? = some 0 ∧ g.target.isZeroReg place = true) ∨
    (x.opcode = .parameter ∧ cc.isParamRegister place = true) := by
  obtain ⟨id, i, foundI, own, rfl⟩ := located.root_lodges isPlace
  rcases (located.lodges_each foundI own).in_register register with isGiven | ⟨isZero, isReg⟩ |
    ⟨isParam, arrives⟩
  · exact .inl isGiven
  · exact .inr (.inl ⟨given.valid.constant_of_result found result isZero, isReg⟩)
  · obtain ⟨d', x', found', parameter, result'⟩ := located.parameter v _ arrives.isArrival
    obtain rfl := owner_of_nodup given.valid.results found found' result result'
    obtain rfl := mem_unique found found'
    exact .inr (.inr ⟨parameter, isParam⟩)

theorem sites_results
    (run : Placement.sites (g.setFrame f) l g.target d x = .ok s) (member : place ∈ s.results)
    (register : place.isAnyRegister = true) : MayDefine g o cc x place := by
  have root : ∀ {v}, v ∈ x.results → rootLocation l v = .ok place →
      MayDefine g o cc x place := by
    intro v result isPlace
    rcases root_register given located found result isPlace register with
      ⟨cls, inClass, isGiven⟩ | ⟨isZero, isReg⟩ | ⟨isParameter, isParam⟩
    · exact .given cls inClass isGiven
    · exact .zero isZero isReg
    · exact .parameter isParameter isParam
  cases phi : x.isPhi with
  | true =>
    obtain ⟨v, home, isResult, isHome, rfl⟩ := sites_phi phi run
    obtain rfl := mem_singleton.mp member
    exact root (mem_of_mem_head? isResult) isHome
  | false =>
    cases call : x.isCall with
    | false =>
      obtain ⟨pos, -, -, results, -⟩ := sites_plain phi call run
      obtain ⟨v, result, isPlace⟩ := mapM_mem_result results member
      exact root result isPlace
    | true =>
      rw [result_site given found call located.convention run] at member
      obtain ⟨-, -, isReturn⟩ := mem_map.mp member
      exact .call call isReturn.symm

end

inductive Lands (g : Graph) (o : Options) (cc : CallingConvention) (arrivals : Arrivals)
    (n : Numbering) (f : Frame) (purpose : Purpose) (place : Location) : Prop where
  | lodged {v : ValueId} {i : Interval} (lodges : Liveness.Lodges g o cc arrivals n f v i)
      (isPlace : i.location = place) (later : ¬Liveness.Arrives g arrivals n v i)
  | argument (fill : purpose = .inputFill) (isParam : cc.isParamRegister place = true)
  | outgoing (k : Nat) (isPlace : place = .stackParameter (f.numParams + k)) (inside : k < f.numArgs)

section

variable (given : g.Accepted tree l.numbering.order) (numbered : l.numbering.Numbered g)
  (located : Liveness.Located g o cc arrivals l f)

include given numbered located

theorem not_arrives_of_edge
    {succ pred : BlockId} {S : Block} {here : Range} (stored : g.blocks[succ]? = some S)
    (edge : pred ∈ S.preds) (range : l.numbering.rangeOf? succ = some here)
    (found : l.pool.intervals[id]? = some i) (covers : i.covers here.start = true) :
    ¬Liveness.Arrives g arrivals l.numbering v i := by
  intro arrives
  obtain ⟨d, x, p, foundX, parameter, isAt, early⟩ := arrives.early
  obtain ⟨E, pc, storedE, listed, valid⟩ := given.instr_valid foundX
  have isEntry := valid.early parameter
  have memberE := given.valid.complete _ E storedE
  obtain ⟨r, rangeE, -⟩ := numbered.range _ memberE
  obtain ⟨p', isAt', -, before, -⟩ :=
    numbered.number_mem memberE storedE rangeE (mem_of_getElem? listed)
  obtain rfl := mem_unique isAt isAt'
  have other : succ ≠ g.entry := by
    rintro rfl
    simp [given.valid.entry S stored] at edge
  have member := given.valid.complete succ S stored
  have rank : l.numbering.order.idxOf x.block < l.numbering.order.idxOf succ := by
    have head := reversePostOrder_head numbered.ordered
    rw [isEntry]
    cases isOrder : l.numbering.order with
    | nil => simp [isOrder] at head
    | cons e rest =>
      obtain rfl : e = g.entry := by simpa [isOrder] using head
      simp [other.symm]
  have apart := numbered.apart _ succ r here member rank rangeE range
  have := Interval.lt_stop (located.tidy.fit id i found).sorted covers
  lia

theorem origin_lands (origin : Origin (g.setFrame f) l purpose m) (changes : m.src ≠ m.dst) :
    (g.setFrame f).Has m.src ∧ Lands g o cc arrivals l.numbering f purpose m.dst := by
  cases origin with
  | argument found call convention isTypes isAt input isPlace isParam =>
    obtain rfl := mem_unique located.convention convention
    refine ⟨located.frame_has isPlace, ?_⟩
    rcases argumentLocation_cases (g.setFrame f) _ (mem_of_getElem? isParam) with
      ⟨isReg, -, same⟩ | ⟨-, -, same⟩ | ⟨j, inside, -, same⟩
    · exact .argument rfl (by rwa [same])
    · exact absurd same.symm changes
    · obtain ⟨types, isTypes', enough⟩ := located.args _ _ found call
      obtain rfl := Except.ok.inj (isTypes.symm.trans isTypes')
      exact .outgoing j same (by omega)
  | result found call convention isResult isPlace =>
    obtain rfl := mem_unique located.convention convention
    refine ⟨has_return (g := g.setFrame f) located.convention _, ?_⟩
    obtain ⟨id, i, foundI, own, isHere⟩ := located.root_lodges isPlace
    refine .lodged (located.lodges_each foundI own) isHere fun arrives => ?_
    obtain ⟨d', x', found', parameter, result'⟩ := located.parameter _ _ arrives.isArrival
    obtain rfl := owner_of_nodup given.valid.results found found'
      (mem_of_mem_head? isResult) result'
    obtain rfl := mem_unique found found'
    simp [Instr.isCall, parameter, Opcode.isCall] at call
  | split found foundJ own ownJ moves =>
    refine ⟨(located.lodges_each found own).frame_has located.convention,
      .lodged (located.lodges_each foundJ ownJ) rfl fun arrives => ?_⟩
    obtain ⟨-, -, -, odd⟩ := moves
    rw [arrives.start] at odd
    simp at odd
  | crossing stored edge range isSrc isDst =>
    refine ⟨located.frame_has isSrc, ?_⟩
    obtain ⟨id, i, found, own, covers, isHere⟩ := located.interval_at isDst
    exact .lodged (located.lodges_each found own) isHere
      (not_arrives_of_edge given numbered located stored edge range found covers)

end

namespace Lands

variable {n : Numbering}

theorem frame_has (convention : g.target.convention = some cc)
    (lands : Lands g o cc arrivals n f purpose place) : (g.setFrame f).Has place := by
  cases lands with
  | lodged lodges isPlace later => exact isPlace ▸ lodges.frame_has convention
  | argument fill isParam => exact has_param (g := g.setFrame f) convention isParam
  | outgoing k isPlace inside =>
    rw [isPlace]
    exact show f.numParams + k < f.numParams + f.numArgs by omega

theorem not_scratch (convention : g.target.convention = some cc)
    (lands : Lands g o cc arrivals n f purpose place) :
    place ∉ scratchPlaces g.target := by
  cases lands with
  | lodged lodges isPlace later => exact isPlace ▸ lodges.not_scratch convention
  | argument fill isParam =>
    exact not_scratch_param (CallingConvention.orderly_of_convention convention) isParam
  | outgoing k isPlace inside => exact isPlace ▸ not_scratch_of_stackParameter _

theorem in_register (lands : Lands g o cc arrivals n f purpose place)
    (register : place.isAnyRegister = true) (notZero : g.target.isZeroReg place = false) :
    (∃ cls, place.inClass cls = true ∧ (o.registers g.target cls).contains place.index = true) ∨
      (purpose = .inputFill ∧ cc.isParamRegister place = true) := by
  cases lands with
  | lodged lodges isPlace later =>
    subst isPlace
    rcases lodges.in_register register with isGiven | ⟨-, isReg⟩ | ⟨-, arrives⟩
    · exact .inl isGiven
    · simp [notZero] at isReg
    · exact absurd arrives later
  | argument fill isParam => exact .inr ⟨fill, isParam⟩
  | outgoing k isPlace => cases isPlace ▸ register

end Lands

def ListsMove (g : Graph) (group : MoveGroup) (m : Move) : Prop :=
  ∃ (i : InstrId) (y : Instr), g.instrs[i]? = some y ∧ y.group = some group ∧ m ∈ group.moves

inductive MayMove (g : Graph) (o : Options) (cc : CallingConvention) (group : MoveGroup)
    (place : Location) : Prop where
  | given (cls : RegisterClass) (inClass : place.inClass cls = true)
      (given : (o.registers g.target cls).contains place.index = true)
  | argument (fill : group.purpose = .inputFill) (isParam : cc.isParamRegister place = true)
  | ring {before : MoveGroup} {shape : StackShape}
      (isScratch : place ∈ scratchPlaces g.target)
      (run : before.sequence shape g.target = .ok group)
      (ring : (isolatedRings (proper before.moves)).Nonempty)

/-- The locations of a program are those of the machine, and are written by whom they are for. -/
structure Disciplined (g : Graph) (o : Options) (cc : CallingConvention) : Prop where
  named : ∀ (i : InstrId) (x : Instr), g.instrs[i]? = some x →
    ∀ place ∈ x.inputLocations ++ x.resultLocations, g.Has place
  moved : ∀ group m, g.ListsMove group m → g.Has m.src ∧ g.Has m.dst
  immediate : ∀ (i : InstrId) (x : Instr) (k n : Nat) v, g.instrs[i]? = some x →
    x.inputs[k]? = some v → x.inputLocations[k]? = some (.immediate n) →
    ∃ w, g.immediates[n]? = some w ∧ g.constantOf? v = .ok (some w)
  writable : ∀ group m, g.ListsMove group m →
    m.dst.isImmediate = false ∧ g.target.isZeroReg m.dst = false
  defined : ∀ (i : InstrId) (x : Instr), g.instrs[i]? = some x → ∀ place ∈ x.resultLocations,
    place.isAnyRegister = true → g.MayDefine o cc x place
  filled : ∀ group m, g.ListsMove group m → m.dst.isAnyRegister = true →
    g.MayMove o cc group m.dst

theorem Annotated.move_disciplined (annotated : Annotated g l f g')
    (given : g.Accepted tree l.numbering.order) (bare : g.Bare)
    (numbered : l.numbering.Numbered g) (located : Liveness.Located g o cc arrivals l f)
    (listed : g'.ListsMove group m) :
    (g.setFrame f).Has m.src ∧ (g.setFrame f).Has m.dst ∧ m.dst.isImmediate = false ∧
      g.target.isZeroReg m.dst = false ∧
      (m.dst.isAnyRegister = true → MayMove g o cc group m.dst) := by
  obtain ⟨i, y, found, has, member⟩ := listed
  obtain ⟨shape, before, made, run⟩ := annotated.sequence_of_group bare found has
  obtain ⟨isGroup, -, writable⟩ := sequence_ok run
  have lands : ∀ n ∈ proper before.moves, (g.setFrame f).Has n.src ∧
      Lands g o cc arrivals l.numbering f before.purpose n.dst := fun n among =>
    origin_lands given numbered located (made.origin n (mem_proper.mp among).1)
      (mem_proper.mp among).2
  have apart : ∀ n ∈ proper before.moves, n.dst ∉ scratchPlaces g.target :=
    fun n among => (lands n among).2.not_scratch located.convention
  have scratch : ∀ {place}, place ∈ scratchPlaces g.target →
      (g.setFrame f).Has place := fun isScratch =>
    has_scratch (g := g.setFrame f) (located.firstSlot ▸ located.slots) isScratch
  have within := order_within g.target (proper before.moves) m
    (by rw [isGroup] at member; exact member)
  have source : (g.setFrame f).Has m.src := by
    rcases within.1 with (isScratch | ⟨n, among, isDst⟩) | ⟨n, among, isSrc⟩
    · exact scratch isScratch
    · exact isDst ▸ (lands n among).2.frame_has located.convention
    · exact isSrc ▸ (lands n among).1
  refine ⟨source, ?_⟩
  rcases within.2 with isScratch | ⟨n, among, isDst⟩
  · obtain ⟨immediate, zero⟩ := not_readOnly_scratch isScratch
    exact ⟨scratch isScratch, immediate, zero, fun _ =>
      .ring isScratch run (sequence_ring run apart member isScratch)⟩
  · have := writable n among
    rw [isDst] at this
    simp only [isReadOnly, Bool.or_eq_false_iff] at this
    refine ⟨isDst ▸ (lands n among).2.frame_has located.convention, this.1.1, this.2,
      fun register => ?_⟩
    rcases (isDst ▸ (lands n among).2).in_register register this.2 with ⟨cls, inClass, isGiven⟩ |
      ⟨fill, isParam⟩
    · exact .given cls inClass isGiven
    · exact .argument (by rw [isGroup]; exact fill) isParam

/-- Every location of an allocated program is in its place. -/
theorem allocate_disciplined (consistent : g.Consistent) (valid : g.validate = .ok ())
    (grouped : g.Grouped) {summary : Summary} (allocated : g.allocate o = .ok (g', .ok summary)) :
    ∃ cc, g'.target.convention = some cc ∧ g'.Disciplined o cc := by
  obtain ⟨tree, order, isValid⟩ := validate_ok valid
  have given : g.Accepted tree order := ⟨consistent, isValid⟩
  obtain ⟨l₀, l, f, analysed, scan, annotated⟩ := allocate_annotates given allocated
  obtain ⟨sets, analysed⟩ := Liveness.ofGraph_analysed given analysed
  obtain rfl : order = l₀.numbering.order :=
    Except.ok.inj (isValid.ordered.symm.trans analysed.numbered.ordered)
  obtain ⟨cc, arrivals, same, located⟩ := Liveness.scan_locates given analysed scan
  have numbering : l.numbering = l₀.numbering := by rw [same]
  rw [← numbering] at given
  have numbered : l.numbering.Numbered g := numbering ▸ analysed.numbered
  have carried {group : MoveGroup} {m : Move} (listed : g'.ListsMove group m) :=
    annotated.move_disciplined given (given.bare_of_grouped grouped) numbered located listed
  have target : g'.target = g.target := by rw [annotated.same]; rfl
  have has : g'.Has = (g.setFrame f).Has := by rw [annotated.same]; rfl
  have immediates : g'.immediates = f.immediates := by rw [annotated.same]; rfl
  refine ⟨cc, target ▸ located.convention, ?_, ?_, ?_, ?_, ?_, ?_⟩
  · intro i y found place member
    rw [has]
    rcases annotated.instr_cases found with ⟨x, s, group, foundX, isSites, rfl, -⟩ |
      ⟨b, -, -, sequence, rfl, -⟩
    · exact sites_has given located foundX isSites place member
    · cases member
  · intro group m listed
    obtain ⟨source, destination, -⟩ := carried listed
    rw [has]
    exact ⟨source, destination⟩
  · intro i y k n v found input isPlace
    rw [immediates]
    rcases annotated.instr_cases found with ⟨x, s, group, foundX, isSites, rfl, -⟩ |
      ⟨b, -, -, sequence, rfl, -⟩
    · obtain ⟨w, inTable, constant⟩ := sites_immediate given located foundX isSites input isPlace
      exact ⟨w, inTable, annotated.constantOf_eq constant⟩
    · cases input
  · intro group m listed
    obtain ⟨-, -, immediate, zero, -⟩ := carried listed
    exact ⟨immediate, target ▸ zero⟩
  · intro i y found place member register
    rcases annotated.instr_cases found with ⟨x, s, group, foundX, isSites, rfl, -⟩ |
      ⟨b, -, -, sequence, rfl, -⟩
    · cases sites_results given located foundX isSites member register with
      | given cls inClass isGiven => exact .given cls inClass (target ▸ isGiven)
      | parameter isParameter isParam => exact .parameter isParameter isParam
      | call isCall isReturn => exact .call isCall isReturn
      | zero isZero isReg => exact .zero isZero (target ▸ isReg)
    · cases member
  · intro group m listed register
    obtain ⟨-, -, -, -, written⟩ := carried listed
    cases written register with
    | given cls inClass isGiven => exact .given cls inClass (target ▸ isGiven)
    | argument fill isParam => exact .argument fill isParam
    | ring isScratch run ring => exact .ring (target ▸ isScratch) (target ▸ run) ring

def mixedPlaces : Graph :=
  { new "mixed" .aarch64 with
    blocks := #[⟨[0, 1, 2, 3, 4, 5, 6], [], []⟩]
    instrs := #[
      { ofOpcode .parameter 0 .int64 with results := [0] },
      { ofOpcode .parameter 0 .int64 with results := [1] },
      { ofOpcode (.constant 0) 0 .int64 with results := [2] },
      { ofOpcode (.constant 7) 0 .int64 with results := [3] },
      { ofOpcode (.call 1) 0 .int64 with
        inputs := [1, 0, 2, 2, 2, 2, 2, 2, 3], results := [4] },
      { ofOpcode .add 0 .int64 with inputs := [3, 4], results := [5] },
      { ofOpcode .ret 0 .int64 with inputs := [5] }]
    values := #[⟨0, .int64⟩, ⟨1, .int64⟩, ⟨2, .int64⟩, ⟨3, .int64⟩, ⟨4, .int64⟩, ⟨5, .int64⟩] }

theorem mixedPlaces_disciplined :
    ∃ a summary cc, mixedPlaces.allocate { Options.default with ints := some (.first 2) } =
        .ok (a, .ok summary) ∧
      (a.instrs.toList.map Instr.resultLocations).take 5 = [[.register 0], [.register 1],
        [.register 31], [.immediate 0], [.register 0]] ∧
      a.instrs[4]?.map Instr.inputLocations =
        some ((range 8).map Location.register ++ [.immediate 0]) ∧
      (a.instrs[7]?.bind Instr.group).map (fun fill => fill.moves.map Move.dst) =
        some ([2, 3, 4, 5, 6, 7, 16, 0, 1].map Location.register) ∧
      a.target.convention = some cc ∧
      a.Disciplined { Options.default with ints := some (.first 2) } cc := by
  obtain ⟨a, summary, allocated, checked⟩ := allocates_of (g := mixedPlaces)
    (o := { Options.default with ints := some (.first 2) })
    (fun a => decide ((a.instrs.toList.map Instr.resultLocations).take 5 = [[.register 0],
        [.register 1], [.register 31], [.immediate 0], [.register 0]] ∧
      a.instrs[4]?.map Instr.inputLocations =
        some ((range 8).map Location.register ++ [.immediate 0]) ∧
      (a.instrs[7]?.bind Instr.group).map (fun fill => fill.moves.map Move.dst) =
        some ([2, 3, 4, 5, 6, 7, 16, 0, 1].map Location.register)))
    (by decide +kernel)
  obtain ⟨results, inputs, moves⟩ := of_decide_eq_true checked
  obtain ⟨cc, convention, disciplined⟩ :=
    allocate_disciplined ⟨by decide +kernel, by decide +kernel⟩ (by decide +kernel)
      (by unfold Grouped; decide +kernel) allocated
  exact ⟨a, summary, cc, allocated, results, inputs, moves, convention, disciplined⟩

def hiddenWrite : Graph :=
  { new "hidden" .aarch64 with
    blocks := #[⟨[0], [], []⟩]
    instrs := #[{ ofOpcode .retVoid 0 .void with
      group := some ⟨.splitMove, [⟨.register 31, .register 17, .int64⟩], false⟩ }] }

/-- A return that carries moves keeps them through allocation, and they write a register that is
set aside. -/
theorem hidden_write_to_reserved :
    hiddenWrite.Consistent ∧ hiddenWrite.validate = .ok () ∧
      (∀ pc x, hiddenWrite.At hiddenWrite.entry pc x → x.isPhi = false) ∧ hiddenWrite.SingleEdges ∧
      ∃ a summary x, hiddenWrite.allocate .default = .ok (a, .ok summary) ∧
        a.instrs[0]? = some x ∧
        x.group = some ⟨.splitMove, [⟨.register 31, .register 17, .int64⟩], true⟩ ∧
        ∀ cc, ¬a.Disciplined .default cc := by
  obtain ⟨a, summary, allocated, checked⟩ := allocates_of (g := hiddenWrite) (o := .default)
    (fun a => decide (a.arch = .aarch64 ∧ a.instrs[0]?.map Instr.group =
      some (some ⟨.splitMove, [⟨.register 31, .register 17, .int64⟩], true⟩))) (by decide +kernel)
  obtain ⟨arch, has⟩ := of_decide_eq_true checked
  obtain ⟨x, found, has⟩ := map_eq_some_iff.mp has
  refine ⟨⟨by decide +kernel, by decide +kernel⟩, by decide +kernel,
    (forall_at_iff rfl).mpr (by decide +kernel), singleEdges_of_each (by decide +kernel),
    a, summary, x, allocated, found, has, fun cc disciplined => ?_⟩
  have target : a.target = .ofArch .aarch64 := congrArg Target.ofArch arch
  cases disciplined.filled _ _ ⟨0, x, found, has, mem_singleton_self _⟩ rfl with
  | given cls inClass isGiven =>
    rw [target] at isGiven
    cases cls with
    | int => exact absurd isGiven (by decide)
    | float => cases inClass
  | argument fill _ => cases fill
  | ring isScratch =>
    rw [target] at isScratch
    exact absurd isScratch (by decide)

end Graph

end RegisterAllocation
