import RegisterAllocation.Proofs.Annotation
import RegisterAllocation.Proofs.Lodging
import RegisterAllocation.Proofs.MovePlaces

/-!
Calls follow the calling convention. A call reads each argument from its register, or from memory
if the convention has no register left for it, and leaves the result in the return register. The
moves that bring arguments into place write nothing that is needed later: registers that the call
destroys, the stack parameters of the callee and scratch places.
-/

namespace RegisterAllocation

open List Option CallingConvention Instr Location MoveGroup Placement RegisterSet Scan Target Verify

structure Target.Orderly (t : Target) : Prop where
  allocatable : ∀ cls r, (t.allocatable cls).contains r = true →
    r < t.numRegs cls ∧ t.tempReg cls ≠ some r
  zero : ∀ r, t.zeroReg = some r → r < t.intRegs ∧ t.tempInt ≠ some r
  temp : ∀ cls r, t.tempReg cls = some r → r < t.numRegs cls

theorem Target.ofArch_orderly (arch : Arch) : (Target.ofArch arch).Orderly := by
  have within : ∀ cls, ∀ r < capacity,
      ((Target.ofArch arch).allocatable cls).contains r = true →
        r < (Target.ofArch arch).numRegs cls ∧ (Target.ofArch arch).tempReg cls ≠ some r := by
    cases arch <;> intro cls <;> cases cls <;> decide +kernel
  refine ⟨fun cls r given =>
    within cls r (lt_capacity_of_contains given) given, ?_, ?_⟩
  · cases arch <;> simp [ofArch, aarch64, x86_64, aarch32, unsupported]
  · cases arch <;> intro cls <;> cases cls <;>
      simp [ofArch, aarch64, x86_64, aarch32, unsupported, tempReg, numRegs]

theorem MoveGroup.mem_scratchPlaces {t : Target} {l : Location} (member : l ∈ scratchPlaces t) :
    (∃ cls, l.inClass cls = true ∧ t.tempReg cls = some l.index) ∨
      (t.firstSlot = 1 ∧ l = .stackSlot 0) := by
  have each : ∀ ty, l = scratch t ty →
      (∃ cls, l.inClass cls = true ∧ t.tempReg cls = some l.index) ∨
        (t.firstSlot = 1 ∧ l = .stackSlot 0) := by
    intro ty isScratch
    cases temp : t.tempReg ty.regClass with
    | none =>
      refine .inr ⟨?_, by simpa [scratch, tempLocation?, temp] using isScratch⟩
      cases cls : ty.regClass <;> rw [cls] at temp <;>
        simp_all [firstSlot, needsScratchSlot, Target.tempReg]
    | some r =>
      obtain rfl : l = .registerFor r ty := by
        simpa [scratch, tempLocation?, temp] using isScratch
      exact .inl ⟨ty.regClass, Scanning.inClass_registerFor, by rw [index_registerFor, temp]⟩
  rcases mem_cons.mp member with first | second
  · exact each _ first
  · exact each _ (mem_singleton.mp second)

theorem MoveGroup.not_scratch_of_inClass {t : Target} {l : Location} {c : RegisterClass}
    (inClass : l.inClass c = true) (other : t.tempReg c ≠ some l.index) : l ∉ scratchPlaces t := by
  intro member
  rcases mem_scratchPlaces member with ⟨cls, inTemp, isTemp⟩ | ⟨-, rfl⟩
  · exact other (inClass_inj inClass inTemp ▸ isTemp)
  · cases c <;> cases inClass

theorem MoveGroup.not_scratch_of_stackParameter {t : Target} (k : Nat) :
    .stackParameter k ∉ scratchPlaces t := by
  intro member
  rcases mem_scratchPlaces member with ⟨cls, inTemp, -⟩ | ⟨-, isSlot⟩
  · cases cls <;> cases inTemp
  · cases isSlot

structure CallingConvention.Orderly (cc : CallingConvention) (t : Target) : Prop where
  regs : ∀ r ∈ cc.paramRegs, cc.callerSavedInt.contains r = true ∧ t.tempInt ≠ some r
  fpRegs : ∀ r ∈ cc.fpParamRegs, cc.callerSavedFloat.contains r = true ∧ t.tempFloat ≠ some r
  returnReg : cc.returnReg < t.intRegs
  fpReturnReg : cc.fpReturnReg < t.floatRegs

theorem CallingConvention.orderly_of_convention {arch : Arch} {cc : CallingConvention}
    (convention : (Target.ofArch arch).convention = some cc) : cc.Orderly (.ofArch arch) := by
  cases arch with
  | none => simp [Target.ofArch, Target.unsupported] at convention
  | _ =>
    obtain rfl := some.inj convention
    exact ⟨by decide, by decide, by decide, by decide⟩

theorem CallingConvention.isParamRegister_cases {cc : CallingConvention} {l : Location}
    (isParam : cc.isParamRegister l = true) :
    (∃ r ∈ cc.paramRegs, l = .register r) ∨ ∃ r ∈ cc.fpParamRegs, l = .fpRegister r := by
  obtain ⟨kind, index⟩ := l
  simp only [isParamRegister, Bool.or_eq_true, Bool.and_eq_true, contains_iff_mem,
    Location.isRegister, isFpRegister, beq_iff_eq] at isParam
  rcases isParam with ⟨rfl, member⟩ | ⟨rfl, member⟩
  · exact .inl ⟨index, member, rfl⟩
  · exact .inr ⟨index, member, rfl⟩

theorem CallingConvention.isCallerSaved_param {arch : Arch} {cc : CallingConvention} {l : Location}
    (convention : (Target.ofArch arch).convention = some cc) (isParam : cc.isParamRegister l = true) :
    isCallerSaved (.ofArch arch) l = true := by
  have orderly := orderly_of_convention convention
  rcases isParamRegister_cases isParam with ⟨r, member, rfl⟩ | ⟨r, member, rfl⟩
  · simp [isCallerSaved, convention, Location.register, Location.isRegister, callerSaved,
      orderly.regs r member]
  · simp [isCallerSaved, convention, fpRegister, isFpRegister, callerSaved,
      orderly.fpRegs r member]

theorem CallingConvention.not_scratch_param {cc : CallingConvention} {t : Target} {l : Location}
    (orderly : cc.Orderly t) (isParam : cc.isParamRegister l = true) :
    l ∉ MoveGroup.scratchPlaces t := by
  rcases isParamRegister_cases isParam with ⟨r, member, rfl⟩ | ⟨r, member, rfl⟩
  · exact not_scratch_of_inClass (c := .int) rfl (orderly.regs r member).2
  · exact not_scratch_of_inClass (c := .float) rfl (orderly.fpRegs r member).2

namespace Liveness

variable {g : Graph} {o : Options} {cc : CallingConvention} {arrivals : Arrivals}
  {l : Liveness} {f : Frame} {id : IntervalId} {i : Interval} {v : ValueId}

inductive Lodges (g : Graph) (o : Options) (cc : CallingConvention) (arrivals : Arrivals)
    (n : Numbering) (f : Frame) (v : ValueId) (i : Interval) : Prop where
  | register (cls : RegisterClass) (inClass : i.location.inClass cls = true)
      (given : (o.registers g.target cls).contains i.location.index = true)
  | zero (isZero : g.constantOf? v = .ok (some 0)) (isReg : g.target.isZeroReg i.location = true)
  | slot (k : Nat) (isSlot : i.location = .stackSlot k) (low : g.target.firstSlot ≤ k)
      (high : k < f.numSlots)
  | immediate (k : Nat) (w : Word) (isImmediate : i.location = .immediate k)
      (found : f.immediates[k]? = some w) (constant : g.constantOf? v = .ok (some w))
  | stacked (k : Nat) (isParam : i.location = .stackParameter k) (inside : k < f.numParams)
  | arrives (isParam : cc.isParamRegister i.location = true) (arrives : Arrives g arrivals n v i)

theorem Located.lodges_each (located : Located g o cc arrivals l f)
    (found : l.pool.intervals[id]? = some i) (own : i.value = some v) :
    Lodges g o cc arrivals l.numbering f v i := by
  obtain ⟨-, suits | arrives⟩ := located.place id i v found own
  · cases suits with
    | register cls inClass given => exact .register cls inClass given
    | zero isZero isReg => exact .zero isZero isReg
    | memory keeps =>
      rcases keeps with ⟨k, isSlot, low, high⟩ | ⟨k, w, isImmediate, found, constant⟩ |
        ⟨noRegister, isArrival⟩
      · exact .slot k isSlot (located.firstSlot ▸ low) high
      · exact .immediate k w isImmediate found constant
      · rcases located.arrival v _ isArrival with ⟨register, -⟩ | ⟨k, inside, isParam⟩
        · simp [noRegister] at register
        · exact .stacked k isParam inside
  · rcases located.arrival v _ arrives.isArrival with ⟨-, isParam⟩ | ⟨k, -, isParam⟩
    · exact .arrives isParam arrives
    · have := arrives.register
      simp [isParam, stackParameter, isAnyRegister, Location.isRegister,
        isFpRegister] at this

theorem Lodges.not_scratch {n : Numbering} (convention : g.target.convention = some cc)
    (lodges : Lodges g o cc arrivals n f v i) : i.location ∉ MoveGroup.scratchPlaces g.target := by
  intro isScratch
  have orderly : g.target.Orderly := Target.ofArch_orderly g.arch
  cases lodges with
  | register cls inClass given =>
    have other := (orderly.allocatable cls _ (Options.allocatable_of_registers given)).2
    exact not_scratch_of_inClass inClass other isScratch
  | zero isZero isReg =>
    simp only [isZeroReg, Bool.and_eq_true, beq_iff_eq] at isReg
    exact not_scratch_of_inClass (c := .int) isReg.1 (orderly.zero _ isReg.2).2 isScratch
  | slot k isPlace low =>
    rw [isPlace] at isScratch
    rcases MoveGroup.mem_scratchPlaces isScratch with ⟨cls, inTemp, -⟩ | ⟨reserved, isSlot⟩
    · cases cls <;> cases inTemp
    · obtain rfl : k = 0 := congrArg Location.index isSlot
      omega
  | immediate k w isPlace =>
    rw [isPlace] at isScratch
    rcases MoveGroup.mem_scratchPlaces isScratch with ⟨cls, inTemp, -⟩ | ⟨-, isSlot⟩
    · cases cls <;> cases inTemp
    · cases isSlot
  | stacked k isPlace =>
    exact not_scratch_of_stackParameter k (isPlace ▸ isScratch)
  | arrives isParam =>
    exact not_scratch_param (CallingConvention.orderly_of_convention convention) isParam isScratch

end Liveness

namespace Graph

variable {g g' : Graph} {tree : DominatorTree} {order : List BlockId} {o : Options} {l : Liveness}
  {f : Frame} {cc : CallingConvention} {arrivals : Arrivals} {d : InstrId} {x y : Instr}
  {pos : Position} {types : List ValueType} {s : Sites} {k : Nat} {v : ValueId}
  {place param : Location} {group : MoveGroup} {m : Move}

theorem Annotated.instr_cases (annotated : Annotated g l f g') (found : g'.instrs[d]? = some y) :
    (∃ x s group, g.instrs[d]? = some x ∧ Placement.sites (g.setFrame f) l g.target d x = .ok s ∧
      y = { x with inputLocations := s.inputs, resultLocations := s.results, group } ∧
      (x.group = none → group = none)) ∨
    ∃ b shape, ∃ group sequence : MoveGroup, y = ofGroup b sequence ∧
      group.Made (g.setFrame f) l ∧ group.sequence shape g.target = .ok sequence := by
  by_cases inside : d < g.instrs.size
  · obtain ⟨s, group, isSites, found', still⟩ :=
      annotated.instr d _ (Array.getElem?_eq_getElem inside)
    exact .inl ⟨_, s, group, Array.getElem?_eq_getElem inside, isSites,
      mem_unique found found', still⟩
  · obtain ⟨b, shape, group, sequence, isGroup, -, made, run⟩ :=
      annotated.added d y (Nat.le_of_not_lt inside) found
    exact .inr ⟨b, shape, group, sequence, isGroup, made, run⟩

theorem Annotated.sequence_of_group (annotated : Annotated g l f g') (bare : g.Bare)
    (found : g'.instrs[d]? = some y) (has : y.group = some group) :
    ∃ shape, ∃ before : MoveGroup, before.Made (g.setFrame f) l ∧
      before.sequence shape g.target = .ok group := by
  rcases annotated.instr_cases found with ⟨x, s, _, foundX, -, rfl, still⟩ |
    ⟨b, shape, before, sequence, rfl, made, run⟩
  · exact absurd (has.symm.trans (still (bare d x foundX))) (by simp)
  · obtain rfl := some.inj has
    exact ⟨shape, before, made, run⟩

theorem argument_site (call : x.isCall = true) (convention : g.target.convention = some cc)
    (isAt : l.numbering.numberOf? d = some pos) (isTypes : g.typesOf x.inputs = .ok types)
    (run : Placement.sites (g.setFrame f) l g.target d x = .ok s) :
    s.inputs.length = x.inputs.length ∧
      ∀ (k : Nat) v param, x.inputs[k]? = some v → (cc.paramLocations types)[k]? = some param →
        ∃ place, l.locationAt v (pos - 1) = .ok (some place) ∧
          s.inputs[k]? = some (argumentLocation (g.setFrame f) place param) := by
  obtain ⟨cc', pos', places, types', fills, convention', isAt', isPlaces, isTypes', filled, -, -⟩ :=
    sites_call call run
  obtain rfl := mem_unique convention convention'
  obtain rfl := mem_unique isAt isAt'
  obtain rfl := Except.ok.inj (isTypes.symm.trans isTypes')
  obtain ⟨isInputs, -⟩ := Placement.arguments_ok filled
  have lengths : places.length = x.inputs.length ∧ types.length = x.inputs.length :=
    ⟨(mapM_ok.mp isPlaces).length_eq.symm, (mapM_ok.mp isTypes).length_eq.symm⟩
  refine ⟨by simp [isInputs, lengths.1, lengths.2], fun k v param input isParam => ?_⟩
  obtain ⟨place, isPlace, kept⟩ := (mapM_getElem isPlaces k).1 v input
  obtain ⟨ty, isTy, -⟩ := (mapM_getElem isTypes k).1 v input
  refine ⟨place, inputLocation_ok kept, ?_⟩
  have entry : (places.zip ((cc.paramLocations types).zip types))[k]? = some (place, param, ty) :=
    getElem?_zip_eq_some.mpr ⟨isPlace, getElem?_zip_eq_some.mpr ⟨isParam, isTy⟩⟩
  rw [isInputs, getElem?_map, entry]
  rfl

/-- How a call finds an argument that the convention passes at a place: in that register, or in
memory. There it may stay where it is kept. -/
inductive Passed (g : Graph) (l : Liveness) (pos : Position) (v : ValueId) (param : Location) :
    Location → Prop where
  | register (isRegister : param.isAnyRegister = true) : Passed g l pos v param param
  | inPlace {place : Location} (stacked : param.isStackParameter = true)
      (kept : l.locationAt v (pos - 1) = .ok (some place)) (memory : place.isMemory = true) :
      Passed g l pos v param place
  | outgoing (stacked : param.isStackParameter = true) :
      Passed g l pos v param (.stackParameter (g.numParams + param.index))

def Spendable (g : Graph) (place : Location) : Prop :=
  isCallerSaved g.target place = true ∨
    (place.isStackParameter = true ∧ g.numParams ≤ place.index) ∨
    place ∈ MoveGroup.scratchPlaces g.target

/-- A call at a position of an allocated program keeps to the calling convention. -/
structure FollowsConvention (g : Graph) (l : Liveness) (cc : CallingConvention) (pos : Position)
    (types : List ValueType) (x : Instr) : Prop where
  arity : x.inputLocations.length = x.inputs.length
  argument : ∀ (k : Nat) v param, x.inputs[k]? = some v →
    (cc.paramLocations types)[k]? = some param →
    ∃ place, x.inputLocations[k]? = some place ∧ Passed g l pos v param place
  shared : ∀ (j k : Nat) v w place, j ≠ k → x.inputs[j]? = some v → x.inputs[k]? = some w →
    x.inputLocations[j]? = some place → x.inputLocations[k]? = some place →
    place.isMemory = true ∧ l.locationAt v (pos - 1) = .ok (some place) ∧
      l.locationAt w (pos - 1) = .ok (some place) ∧
      ∀ param, (cc.paramLocations types)[j]? = some param ∨
        (cc.paramLocations types)[k]? = some param → param.isStackParameter = true
  result : x.resultLocations = x.results.map fun _ => cc.returnLocation x.ty
  fills : ∀ (i : InstrId) (y : Instr) (group : MoveGroup), g.instrs[i]? = some y →
    y.group = some group → group.purpose = .inputFill →
    ∀ m ∈ group.moves, g.Spendable m.dst ∧
      ∀ v ∉ x.results, l.locationAt v pos ≠ .ok (some m.dst)

theorem stackParameter_lt (located : Liveness.Located g o cc arrivals l f) {q : Position}
    (kept : l.locationAt v q = .ok (some (.stackParameter k))) : k < f.numParams := by
  obtain ⟨id, i, found, own, -, isPlace⟩ := located.interval_at kept
  cases located.lodges_each found own with
  | register cls inClass =>
    rw [isPlace] at inClass
    cases cls <;> cases inClass
  | zero isZero isReg =>
    rw [isPlace] at isReg
    cases isReg
  | slot n other => cases isPlace.symm.trans other
  | immediate n w other => cases isPlace.symm.trans other
  | stacked n same inside =>
    obtain rfl : k = n := congrArg Location.index (isPlace.symm.trans same)
    exact inside
  | arrives isParam =>
    rw [isPlace] at isParam
    cases isParam

theorem argumentLocation_cases (g : Graph) (place : Location)
    (isParam : param ∈ cc.paramLocations types) :
    (cc.isParamRegister param = true ∧ param.isAnyRegister = true ∧
      argumentLocation g place param = param) ∨
    (param.isStackParameter = true ∧ place.isMemory = true ∧
      argumentLocation g place param = place) ∨
    ∃ j < cc.numStackParams types, param = .stackParameter j ∧
      argumentLocation g place param = .stackParameter (g.numParams + j) := by
  rcases paramLocations_cases isParam with ⟨register, isReg⟩ | ⟨j, inside, rfl⟩
  · exact .inl ⟨isReg, register, by rw [argumentLocation, if_pos register]⟩
  · right
    by_cases memory : place.isMemory = true
    · exact .inl ⟨rfl, memory, if_pos memory⟩
    · exact .inr ⟨j, inside, rfl, if_neg memory⟩

theorem shared_place (located : Liveness.Located g o cc arrivals l f) {p q : Location}
    (isP : p ∈ cc.paramLocations types) (isQ : q ∈ cc.paramLocations types) (other : p ≠ q)
    {v w : ValueId} {a b : Location} (keptA : l.locationAt v (pos - 1) = .ok (some a))
    (keptB : l.locationAt w (pos - 1) = .ok (some b))
    (same : argumentLocation (g.setFrame f) a p =
      argumentLocation (g.setFrame f) b q) :
    p.isStackParameter = true ∧ q.isStackParameter = true ∧ a.isMemory = true ∧
      argumentLocation (g.setFrame f) a p = a ∧ a = b := by
  -- what is kept in memory is neither in a register nor among the callee's stack parameters
  have apart : ∀ {u : ValueId} {c : Location}, l.locationAt u (pos - 1) = .ok (some c) →
      ∀ j, c ≠ .stackParameter ((g.setFrame f).numParams + j) := by
    rintro u c kept j rfl
    have inside : f.numParams + j < f.numParams := stackParameter_lt located kept
    omega
  have registers : ∀ {c : Location}, c.isAnyRegister = true → c.isMemory = false ∧
      ∀ j, c ≠ .stackParameter j := by
    rintro ⟨kind, index⟩ register
    cases kind <;> simp_all [isAnyRegister, Location.isRegister, isFpRegister,
      isMemory, isStack, isStackSlot, isStackParameter,
      Location.isImmediate, stackParameter]
  rcases argumentLocation_cases (g.setFrame f) a isP with
    ⟨-, regP, isA⟩ | ⟨stackP, memoryA, isA⟩ | ⟨j, -, rfl, isA⟩ <;>
  rcases argumentLocation_cases (g.setFrame f) b isQ with
    ⟨-, regQ, isB⟩ | ⟨stackQ, memoryB, isB⟩ | ⟨k, -, rfl, isB⟩ <;>
  rw [isA, isB] at same
  · exact absurd same other
  · exact absurd memoryB (by simp [← same, registers regP])
  · exact absurd same ((registers regP).2 _)
  · exact absurd memoryA (by simp [same, registers regQ])
  · exact ⟨stackP, stackQ, memoryA, isA, same⟩
  · exact absurd same (apart keptA k)
  · exact absurd same.symm ((registers regQ).2 _)
  · exact absurd same.symm (apart keptB j)
  · obtain rfl : j = k := by simpa [stackParameter] using same
    exact absurd rfl other

/-- The moves ahead of a call write argument registers, the callee's stack parameters and scratch
places. -/
theorem Annotated.fill_dst (annotated : Annotated g l f g') (bare : g.Bare)
    (convention : g.target.convention = some cc) (found : g'.instrs[d]? = some y)
    (has : y.group = some group) (fill : group.purpose = .inputFill) (member : m ∈ group.moves) :
    cc.isParamRegister m.dst = true ∨
      (∃ j, m.dst = .stackParameter (f.numParams + j)) ∨
      m.dst ∈ MoveGroup.scratchPlaces g.target := by
  obtain ⟨shape, before, made, run⟩ := annotated.sequence_of_group bare found has
  obtain ⟨rfl, -⟩ := sequence_ok run
  rcases (order_within _ _ m member).2 with scratch | ⟨n, among, isDst⟩
  · exact .inr (.inr scratch)
  obtain ⟨among, changes⟩ := mem_proper.mp among
  have origin := made.origin n among
  rw [show before.purpose = .inputFill from fill] at origin
  cases origin with
  | argument foundX call convention' isTypes isAt input isPlace isParam =>
    obtain rfl := mem_unique convention convention'
    rw [← isDst]
    rcases argumentLocation_cases (g.setFrame f) _ (mem_of_getElem? isParam) with
      ⟨isReg, -, same⟩ | ⟨-, -, same⟩ | ⟨j, -, -, same⟩
    · exact .inl (by rwa [same])
    · exact absurd same.symm changes
    · exact .inr (.inl ⟨j, same⟩)

theorem result_site (given : g.Accepted tree order) (found : g.instrs[d]? = some x)
    (call : x.isCall = true) (convention : g.target.convention = some cc)
    (run : Placement.sites (g.setFrame f) l g.target d x = .ok s) :
    s.results = x.results.map fun _ => cc.returnLocation x.ty := by
  obtain ⟨cc', -, -, -, -, convention', -, -, -, -, isResults, -⟩ := sites_call call run
  obtain rfl := mem_unique convention convention'
  obtain ⟨B, pc, -, -, valid⟩ := given.instr_valid found
  have single : x.results.length ≤ 1 := by
    rw [valid.results]
    unfold Instr.isCall Opcode.isCall at call
    split at call
    · rename_i isCall
      rw [isCall]
      simp only [Opcode.numResults]
      split <;> omega
    · simp at call
  rw [isResults]
  rcases results : x.results with _ | ⟨v, _ | ⟨w, rest⟩⟩
  · rfl
  · rfl
  · simp [results] at single

theorem spared_at_call {l₀ : Liveness} {sets : LiveSets} (given : g.Accepted tree l₀.numbering.order)
    (analysed : Liveness.Analysed g g.target tree sets l₀) (first : g.ParametersFirst)
    (scan : l₀.scan g g.target o = .ok (l, f)) (located : Liveness.Located g o cc arrivals l f)
    (found : g.instrs[d]? = some x) (call : x.isCall = true)
    (isAt : l.numbering.numberOf? d = some pos) (other : v ∉ x.results)
    (spent : cc.isParamRegister place = true ∨ (∃ j, place = .stackParameter (f.numParams + j)) ∨
      place ∈ MoveGroup.scratchPlaces g.target) : l.locationAt v pos ≠ .ok (some place) := by
  intro kept
  obtain ⟨id, i, foundI, own, covers, rfl⟩ := located.interval_at kept
  rcases spent with isParam | ⟨j, isPlace⟩ | scratch
  · have saved := isCallerSaved_param located.convention isParam
    obtain ⟨cc', params, types, -, parameters, -, same, scanned⟩ := scan_ok given analysed scan
    have virtual : i.physical = false := by rw [(located.tidy.fit id i foundI).kind, own]; rfl
    have isAt' : l₀.numbering.numberOf? d = some pos := by rwa [same] at isAt
    obtain ⟨w, result, isRoot⟩ := scanned.result_of_callerSaved given analysed first parameters
      foundI virtual saved found call isAt' covers
    obtain ⟨i', foundI', own', -⟩ := located.root w id (by rwa [same])
    obtain rfl := mem_unique foundI foundI'
    obtain rfl := mem_unique own own'
    exact other result
  · rw [isPlace] at kept
    have inside := stackParameter_lt located kept
    omega
  · exact (located.lodges_each foundI own).not_scratch located.convention scratch

/-- Every call of an allocated program keeps to the calling convention. -/
theorem allocate_follows_convention (consistent : g.Consistent) (valid : g.validate = .ok ())
    (first : g.ParametersFirst) (grouped : g.Grouped) {summary : Summary}
    (allocated : g.allocate o = .ok (g', .ok summary)) :
    ∃ l l' frame cc, Liveness.ofGraph g g.target = .ok l ∧
      l.scan g g.target o = .ok (l', frame) ∧ g'.target.convention = some cc ∧
      ∀ (d : InstrId) (x : Instr), g'.instrs[d]? = some x → x.isCall = true →
        ∃ pos types, l'.numbering.numberOf? d = some pos ∧ g'.typesOf x.inputs = .ok types ∧
          FollowsConvention g' l' cc pos types x := by
  obtain ⟨tree, order, isValid⟩ := validate_ok valid
  have given : g.Accepted tree order := ⟨consistent, isValid⟩
  obtain ⟨l₀, l, f, analysed₀, scan, annotated⟩ := allocate_annotates given allocated
  obtain ⟨sets, analysed⟩ := Liveness.ofGraph_analysed given analysed₀
  obtain rfl : order = l₀.numbering.order :=
    Except.ok.inj (isValid.ordered.symm.trans analysed.numbered.ordered)
  obtain ⟨cc, arrivals, -, located⟩ := Liveness.scan_locates given analysed scan
  have target : g'.target = g.target := by rw [annotated.same]; rfl
  have numParams : g'.numParams = f.numParams := by rw [annotated.same]; rfl
  have types : g'.typesOf = g.typesOf := by rw [annotated.same]; rfl
  refine ⟨l₀, l, f, cc, analysed₀, scan, target ▸ located.convention, fun d y found call => ?_⟩
  rcases annotated.instr_cases found with ⟨x, s, group, foundX, isSites, rfl, -⟩ |
    ⟨b, -, -, sequence, rfl, -⟩
  swap
  · simp [Instr.ofGroup, Instr.ofOpcode, Instr.isCall, Opcode.isCall] at call
  obtain ⟨-, pos, -, ts, -, -, isAt, -, isTypes, -⟩ := Placement.sites_call call isSites
  have isTypes : g.typesOf x.inputs = .ok ts := isTypes
  obtain ⟨arity, argument⟩ := argument_site call located.convention isAt isTypes isSites
  have once : (cc.paramLocations ts).Nodup :=
    have fits : cc.FitsTarget g.target := CallingConvention.fits_target located.convention
    CallingConvention.assign_nodup fits.once fits.fpOnce
  refine ⟨pos, ts, isAt, types ▸ isTypes, arity, ?_, ?_,
    result_site (x := x) given foundX call located.convention isSites, ?_⟩
  · intro k v param input isParam
    obtain ⟨place, kept, isInput⟩ := argument k v param input isParam
    refine ⟨_, isInput, ?_⟩
    rcases argumentLocation_cases (g.setFrame f) place (mem_of_getElem? isParam) with
      ⟨-, register, same⟩ | ⟨stacked, memory, same⟩ | ⟨j, -, rfl, same⟩ <;> rw [same]
    · exact .register register
    · exact .inPlace stacked kept memory
    · rw [← show g'.numParams = (g.setFrame f).numParams from numParams]
      exact .outgoing rfl
  · intro j k v w place distinct inputJ inputK atJ atK
    have param : ∀ {n : Nat} {u : ValueId}, x.inputs[n]? = some u →
        ∃ p, (cc.paramLocations ts)[n]? = some p := by
      intro n u input
      refine ⟨_, getElem?_eq_getElem ?_⟩
      rw [CallingConvention.length_paramLocations, ← (mapM_ok.mp isTypes).length_eq]
      exact (List.getElem?_eq_some_iff.mp input).1
    obtain ⟨p, isP⟩ := param inputJ
    obtain ⟨q, isQ⟩ := param inputK
    obtain ⟨a, keptA, isA⟩ := argument j v p inputJ isP
    obtain ⟨b, keptB, isB⟩ := argument k w q inputK isQ
    have isA := mem_unique isA atJ
    have isB := mem_unique isB atK
    have other : p ≠ q := by
      rintro rfl
      exact distinct ((List.getElem?_inj (List.getElem?_eq_some_iff.mp isP).1 once).mp
        (isP.trans isQ.symm))
    obtain ⟨stackP, stackQ, memory, stays, rfl⟩ := shared_place located
      (mem_of_getElem? isP) (mem_of_getElem? isQ) other keptA keptB (isA.trans isB.symm)
    obtain rfl := stays.symm.trans isA
    refine ⟨memory, keptA, keptB, fun param isParam => ?_⟩
    rcases isParam with isParam | isParam
    · exact mem_unique isP isParam ▸ stackP
    · exact mem_unique isQ isParam ▸ stackQ
  · intro i y group foundY has fill m member
    have spent := annotated.fill_dst (given.bare_of_grouped grouped) located.convention foundY has
      fill member
    refine ⟨?_, fun v other =>
      spared_at_call given analysed first scan located foundX call isAt other spent⟩
    unfold Spendable
    rw [target, numParams]
    rcases spent with isParam | ⟨j, isPlace⟩ | scratch
    · exact .inl (CallingConvention.isCallerSaved_param located.convention isParam)
    · exact .inr (.inl (by simp [isPlace, Location.stackParameter, Location.isStackParameter]))
    · exact .inr (.inr scratch)

theorem allocates_of (check : Graph → Bool) (ran : (match g.allocate o with
    | .ok (a, .ok _) => check a
    | _ => false) = true) :
    ∃ a summary, g.allocate o = .ok (a, .ok summary) ∧ check a = true := by
  split at ran
  · rename_i a summary allocated
    exact ⟨a, summary, allocated, ran⟩
  · simp at ran

def crowdedCall : Graph :=
  { new "crowded" .aarch32 with
    blocks := #[⟨[0, 1, 2, 3, 4, 5, 6, 7], [], []⟩]
    instrs := #[
      { ofOpcode .parameter 0 .int64 with results := [0] },
      { ofOpcode .parameter 0 .int64 with results := [1] },
      { ofOpcode .parameter 0 .int64 with results := [2] },
      { ofOpcode .parameter 0 .int64 with results := [3] },
      { ofOpcode .parameter 0 .int64 with results := [4] },
      { ofOpcode (.call 1) 0 .int64 with inputs := [1, 0, 2, 3, 4, 4, 2], results := [5] },
      { ofOpcode .add 0 .int64 with inputs := [2, 5], results := [6] },
      { ofOpcode .ret 0 .int64 with inputs := [6] }]
    values := #[⟨0, .int64⟩, ⟨1, .int64⟩, ⟨2, .int64⟩, ⟨3, .int64⟩, ⟨4, .int64⟩, ⟨5, .int64⟩,
      ⟨6, .int64⟩] }

theorem crowdedCall_follows_convention :
    ∃ a summary x, crowdedCall.allocate .default = .ok (a, .ok summary) ∧ a.instrs[5]? = some x ∧
      x.inputLocations = [.register 0, .register 1, .register 2, .register 3, .stackParameter 0,
        .stackParameter 0, .stackParameter 3] ∧
      (a.instrs[8]?.bind Instr.group).map (fun fill => (fill.purpose, fill.moves.map Move.dst)) =
        some (.inputFill, [.register 2, .stackParameter 3, .stackSlot 0, .register 0, .register 1]) ∧
      ∃ l l' frame cc pos types, Liveness.ofGraph crowdedCall crowdedCall.target = .ok l ∧
        l.scan crowdedCall crowdedCall.target .default = .ok (l', frame) ∧
        a.target.convention = some cc ∧ FollowsConvention a l' cc pos types x := by
  obtain ⟨a, summary, allocated, checked⟩ := allocates_of (g := crowdedCall) (o := .default)
    (fun a => decide (a.instrs[5]?.map Instr.isCall = some true ∧
      a.instrs[5]?.map Instr.inputLocations = some [.register 0, .register 1, .register 2,
        .register 3, .stackParameter 0, .stackParameter 0, .stackParameter 3] ∧
      (a.instrs[8]?.bind Instr.group).map (fun fill => (fill.purpose, fill.moves.map Move.dst)) =
        some (.inputFill,
          [.register 2, .stackParameter 3, .stackSlot 0, .register 0, .register 1])))
    (by decide +kernel)
  obtain ⟨isCall, isSite, fill⟩ := of_decide_eq_true checked
  obtain ⟨x, found, places⟩ := map_eq_some_iff.mp isSite
  have call : x.isCall = true := by simpa [found] using isCall
  have first : crowdedCall.ParametersFirst :=
    (parametersFirst_iff rfl).mpr (by decide +kernel)
  obtain ⟨l, l', frame, cc, analysed, scan, convention, calls⟩ := allocate_follows_convention
    ⟨by decide +kernel, by decide +kernel⟩ (by decide +kernel) first
    (by unfold Grouped; decide +kernel) allocated
  obtain ⟨pos, types, -, -, follows⟩ := calls 5 x found call
  exact ⟨a, summary, x, allocated, found, places, fill, l, l', frame, cc, pos, types, analysed,
    scan, convention, follows⟩

def hiddenFill : Graph :=
  { new "hidden" .aarch64 with
    blocks := #[⟨[1, 0, 2], [], []⟩]
    instrs := #[
      ofOpcode (.call 1) 0 .void,
      { ofOpcode (.constant 7) 0 .int64 with
        results := [0]
        group := some ⟨.inputFill, [⟨.register 31, .register 19, .int64⟩], false⟩ },
      ofOpcode .retVoid 0 .void]
    values := #[⟨1, .int64⟩] }

/-- A constant ahead of a call that carries argument moves keeps them through allocation, and they
write a register that belongs to the caller. -/
theorem hidden_fill_breaks_convention :
    hiddenFill.Consistent ∧ hiddenFill.validate = .ok () ∧
      (∀ pc x, hiddenFill.At hiddenFill.entry pc x → x.isPhi = false) ∧ hiddenFill.SingleEdges ∧
      hiddenFill.ParametersFirst ∧ ∃ a summary x y,
        hiddenFill.allocate .default = .ok (a, .ok summary) ∧
        a.blocks = #[⟨[1, 0, 2], [], []⟩] ∧ a.instrs[0]? = some x ∧ x.isCall = true ∧
        a.instrs[1]? = some y ∧
        y.group = some ⟨.inputFill, [⟨.register 31, .register 19, .int64⟩], true⟩ ∧
        ∀ l cc pos types, ¬FollowsConvention a l cc pos types x := by
  obtain ⟨a, summary, allocated, checked⟩ := allocates_of (g := hiddenFill) (o := .default)
    (fun a => decide (a.arch = .aarch64 ∧ a.blocks = #[⟨[1, 0, 2], [], []⟩] ∧
      a.instrs[0]?.map Instr.isCall = some true ∧ a.instrs[1]?.map Instr.group =
        some (some ⟨.inputFill, [⟨.register 31, .register 19, .int64⟩], true⟩))) (by decide +kernel)
  obtain ⟨arch, block, isCall, has⟩ := of_decide_eq_true checked
  obtain ⟨x, found, call⟩ := map_eq_some_iff.mp isCall
  obtain ⟨y, foundY, has⟩ := map_eq_some_iff.mp has
  refine ⟨⟨by decide +kernel, by decide +kernel⟩, by decide +kernel,
    (forall_at_iff rfl).mpr (by decide +kernel), singleEdges_of_each (by decide +kernel),
    (parametersFirst_iff rfl).mpr (by decide +kernel), a, summary, x, y, allocated, block, found,
    call, foundY, has, fun l cc pos types follows => ?_⟩
  have target : a.target = .ofArch .aarch64 := congrArg Target.ofArch arch
  have spendable := (follows.fills 1 y _ foundY has rfl _ (mem_singleton_self _)).1
  rw [Spendable, target] at spendable
  rcases spendable with saved | ⟨stacked, -⟩ | scratch
  · exact absurd saved (by decide)
  · cases stacked
  · exact absurd scratch (by decide)

end Graph

end RegisterAllocation
