import RegisterAllocation.Proofs.Landing

/-!
Both passes of a scan. Afterwards every interval has a location, and no two share one at a position,
apart from the immediate table and the zero register.
-/

namespace RegisterAllocation

open List Option Frame Instr Interval IntervalPool Liveness Location Target Verify

theorem Target.allocatable_zero {arch : Arch} {cls : RegisterClass} {reg : Nat}
    (isZero : (ofArch arch).zeroReg = some reg) :
    ((ofArch arch).allocatable cls).contains reg = false := by
  cases arch with
  | aarch64 =>
    obtain rfl : 31 = reg := by simpa [ofArch, Target.aarch64] using isZero
    cases cls <;> decide
  | _ => simp [ofArch, x86_64, aarch32, unsupported] at isZero

theorem Options.allocatable_of_registers {o : Options} {t : Target} {cls : RegisterClass} {r : Nat}
    (given : (o.registers t cls).contains r = true) : (t.allocatable cls).contains r = true := by
  unfold registers at given
  dsimp only at given
  split at given
  · simp only [RegisterSet.contains_inter, Bool.and_eq_true] at given
    exact given.1
  · exact given

namespace Scan

variable {g : Graph} {tree : DominatorTree} {sets : LiveSets} {l l' : Liveness} {o : Options}
  {arrivals : Arrivals} {p p' : IntervalPool} {f f' : Frame} {cls : RegisterClass} {c : Pass}
  {v : ValueId} {i j : Interval} {id k : IntervalId} {pos : Position}

def passOf (g : Graph) (l : Liveness) (o : Options) (cls : RegisterClass) : Pass where
  graph := g
  target := g.target
  regClass := cls
  regs := o.registers g.target cls
  fixed := l.physical.filter fun id => l.pool.intervals[id]?.any (·.regClass == cls)

theorem passOf_proper : Pass.ZeroFree (passOf g l o cls) := by
  intro reg ty isIn
  have allowed : (g.target.allocatable cls).contains reg = true :=
    Options.allocatable_of_registers isIn
  by_contra isZero
  have zero : (ofArch g.arch).zeroReg = some reg := by
    simp only [passOf, isZeroReg, Bool.not_eq_false, Bool.and_eq_true, beq_iff_eq,
      index_registerFor] at isZero
    exact isZero.2
  rw [Graph.target, allocatable_zero zero] at allowed
  simp at allowed

section

variable
  (physical : ∀ id ∈ l.physical, ∃ i, p.intervals[id]? = some i ∧ l.pool.intervals[id]? = some i)

include physical

theorem runClass_eq :
    runClass g g.target o arrivals l.physical (p, f) cls = (do
      let s ← enter (passOf g l o cls) arrivals p f
      let s ← drain (passOf g l o cls) (drainBound s.pool) 0 s
      return (s.pool, s.frame)) := by
  obtain ⟨fixed, isFixed⟩ : ∃ fixed, l.physical.filterM (fun id =>
      return (← p.get id).regClass == cls : IntervalId → Attempt AllocationError Bool) =
        .ok fixed := by
    refine filterM_total fun id member => ?_
    obtain ⟨i, found, -⟩ := physical id member
    rw [get_ok.mpr found]
    exact ⟨_, rfl⟩
  obtain ⟨test, rfl, each⟩ := filterM_ok isFixed
  have same : l.physical.filter test = (passOf g l o cls).fixed := by
    refine filter_congr fun id member => ?_
    obtain ⟨i, found, foundL⟩ := physical id member
    have isTest := each id member
    simp only [bind_ok, lift_ok, get_ok, found, some.injEq, exists_eq_left',
      pure_ok] at isTest
    rw [← isTest, foundL]
    rfl
  rw [same] at isFixed
  simp only [runClass, isFixed, ok_bind]
  rfl

theorem runClass_ok (run : runClass g g.target o arrivals l.physical (p, f) cls = .ok (p', f')) :
    ∃ s s' bound, enter (passOf g l o cls) arrivals p f = .ok s ∧
      drain (passOf g l o cls) bound 0 s = .ok s' ∧ p' = s'.pool ∧ f' = s'.frame := by
  simp only [runClass_eq physical, bind_ok, lift_ok, pure_ok, Prod.mk.injEq] at run
  obtain ⟨s, entered, s', drained, rfl, rfl⟩ := run
  exact ⟨s, s', _, entered, drained, rfl, rfl⟩

end

theorem Storage.next_class {lo : ValueId → Position} (storage : Storage cls arrivals pos lo p f)
    {cls' : RegisterClass}
    (homeless : ∀ v i, OfValue p v i → i.regClass = cls' → f.home? v = none) :
    Storage cls' arrivals 0 lo p f where
  home := storage.home
  kinds := storage.kinds
  room := storage.room
  since v k i home own reason := by
    rcases reason with place | ⟨isClass, -⟩
    · exact storage.since v k i home own (.inl place)
    · simp [homeless v i own isClass] at home
  turns := storage.turns

structure Scanned (g : Graph) (l : Liveness) (o : Options) (arrivals : Arrivals) (p : IntervalPool)
    (f : Frame) : Prop where
  tidy : p.Tidy (· % 2 = 1)
  storage : ∃ pos lo, Storage .float arrivals pos lo p f
  settled : ∀ cls, PassDone (passOf g l o cls) arrivals l.pool p
  physical : ∀ (id : IntervalId) (i : Interval), i.physical = true →
    (p.intervals[id]? = some i ↔ l.pool.intervals[id]? = some i)

theorem storage_start (given : g.Accepted tree l.numbering.order)
    (analysed : Analysed g g.target tree sets l) (empty : f.homes = []) :
    Storage .int arrivals 0 (fun _ => 0) l.pool f := by
  have homeless : ∀ v, f.home? v = none := by simp [home?, empty]
  refine ⟨?_, by simp [homeless], by simp [homeless], by simp [homeless], by simp [homeless]⟩
  rintro v i ⟨id, found, own⟩ memory
  have virtual : i.physical = false := by
    rw [((analysed.pool_tidy given fun _ => True).fit id i found).kind, own]
    rfl
  obtain ⟨w, -, known⟩ := analysed.has_value found virtual
  obtain ⟨i', ty, d, x, q, found', -, -, -, -, -, -, made⟩ := analysed.has_root given known
  obtain rfl := mem_unique found found'
  rw [made] at memory
  simp [ofValue, invalid, isMemory, isStack,
    isStackSlot, isStackParameter, isImmediate] at memory

theorem mem_fixed (member : k ∈ (passOf g l o cls).fixed) : k ∈ l.physical :=
  (mem_filter.mp member).1

theorem not_mine_of_physical (physical : i.physical = true) : ¬Mine c i := by
  rintro ⟨virtual, -⟩
  simp [physical] at virtual

theorem not_int_of_float (isFloat : Mine (passOf g l o .float) i) : ¬Mine (passOf g l o .int) i := by
  rintro ⟨-, isInt⟩
  have := isFloat.2
  simp [passOf, isInt] at this

theorem physical_found (analysed : Analysed g g.target tree sets l) :
    ∀ id ∈ l.physical, ∃ i, l.pool.intervals[id]? = some i ∧ i.physical = true := by
  intro id member
  obtain ⟨i, place, found, call⟩ := analysed.physical id member
  obtain ⟨cls, reg, -, made⟩ := call.made
  exact ⟨i, found, by rw [made]; rfl⟩

theorem Completed.physical_found (analysed : Analysed g g.target tree sets l)
    (done : Completed c arrivals l.pool p f f') :
    ∀ id ∈ l.physical, ∃ i, p.intervals[id]? = some i ∧ l.pool.intervals[id]? = some i ∧
      i.physical = true := by
  intro id member
  obtain ⟨i, found, physical⟩ := Scan.physical_found analysed id member
  exact ⟨i, (done.foreign id i (not_mine_of_physical physical)).mpr found, found, physical⟩

section

variable {cc : CallingConvention} {params : List ValueId} {types : List ValueType}
  (given : g.Accepted tree l.numbering.order) (analysed : Analysed g g.target tree sets l)
  (convention : g.target.convention = some cc) (parameters : g.parameters = .ok params)
  (isTypes : g.typesOf params = .ok types) (empty : f.homes = [])

include given analysed convention parameters isTypes empty

theorem ready_ints :
    Ready (passOf g l o .int) (params.zip (cc.paramLocations types)) l.pool f :=
  ⟨analysed.pool_tidy given _, fun k member => physical_found analysed k (mem_fixed member),
    arriving_params given analysed rfl rfl convention parameters isTypes fun _ _ found _ => found,
    ⟨_, storage_start given analysed empty⟩, fun v _ _ _ => by simp [home?, empty]⟩

theorem Completed.ready_floats
    (done : Completed (passOf g l o .int) (params.zip (cc.paramLocations types)) l.pool p f f') :
    Ready (passOf g l o .float) (params.zip (cc.paramLocations types)) p f' := by
  have homeless : ∀ v i, OfValue p v i → i.regClass = .float → f'.home? v = none := by
    rintro v i ⟨id, found, own⟩ isFloat
    have virtual : i.physical = false := by rw [(done.tidy.fit id i found).kind, own]; rfl
    have notInt : ¬Mine (passOf g l o .int) i := not_int_of_float ⟨virtual, isFloat⟩
    rw [done.homes v i ⟨id, (done.foreign id i notInt).mp found, own⟩ notInt]
    simp [home?, empty]
  obtain ⟨pos, lo, storage⟩ := done.storage
  refine ⟨done.tidy, ?_, arriving_params given analysed rfl rfl convention parameters isTypes ?_,
    ⟨lo, storage.next_class homeless⟩, fun v i own isMine => homeless v i own isMine.2⟩
  · intro k member
    obtain ⟨i, found, -, physical⟩ := done.physical_found analysed k (mem_fixed member)
    exact ⟨i, found, physical⟩
  · intro id i found isMine
    exact (done.foreign id i (not_int_of_float isMine)).mp found

variable {p₁ p₂ : IntervalPool} {f₁ f₂ : Frame}
  (ints : runClass g g.target o (params.zip (cc.paramLocations types)) l.physical (l.pool, f) .int =
    .ok (p₁, f₁))
  (floats : runClass g g.target o (params.zip (cc.paramLocations types)) l.physical (p₁, f₁) .float =
    .ok (p₂, f₂))

include ints floats

theorem runClasses_steps :
    ∃ s s' t t' bound bound',
      Ready (passOf g l o .int) (params.zip (cc.paramLocations types)) l.pool f ∧
      enter (passOf g l o .int) (params.zip (cc.paramLocations types)) l.pool f = .ok s ∧
      drain (passOf g l o .int) bound 0 s = .ok s' ∧ p₁ = s'.pool ∧ f₁ = s'.frame ∧
      Completed (passOf g l o .int) (params.zip (cc.paramLocations types)) l.pool p₁ f f₁ ∧
      Ready (passOf g l o .float) (params.zip (cc.paramLocations types)) p₁ f₁ ∧
      enter (passOf g l o .float) (params.zip (cc.paramLocations types)) p₁ f₁ = .ok t ∧
      drain (passOf g l o .float) bound' 0 t = .ok t' ∧ p₂ = t'.pool ∧ f₂ = t'.frame ∧
      Completed (passOf g l o .float) (params.zip (cc.paramLocations types)) p₁ p₂ f₁ f₂ := by
  -- Integer registers.
  obtain ⟨s, s', bound, entered, drained, rfl, rfl⟩ := runClass_ok (fun id member => by
    obtain ⟨i, found, -⟩ := physical_found analysed id member
    exact ⟨i, found, found⟩) ints
  have ready := ready_ints (o := o) given analysed convention parameters isTypes empty
  have done := ready.completed_after_drain passOf_proper entered drained
  -- Float registers.
  obtain ⟨t, t', bound', entered', drained', rfl, rfl⟩ := runClass_ok (fun id member => by
    obtain ⟨i, found, foundL, -⟩ := done.physical_found analysed id member
    exact ⟨i, found, foundL⟩) floats
  have ready' := done.ready_floats given analysed convention parameters isTypes empty
  exact ⟨s, s', t, t', bound, bound', ready, entered, drained, rfl, rfl, done, ready', entered',
    drained', rfl, rfl, ready'.completed_after_drain passOf_proper entered' drained'⟩

theorem runClasses_ok : Scanned g l o (params.zip (cc.paramLocations types)) p₂ f₂ := by
  obtain ⟨-, -, -, -, -, -, -, -, -, -, -, done, -, -, -, -, -, done'⟩ :=
    runClasses_steps given analysed convention parameters isTypes empty ints floats
  refine ⟨done'.tidy, done'.storage, fun cls => ?_, fun id i physical => ?_⟩
  · cases cls with
    | int =>
      refine done.settled.of_later (fun k member => ?_) fun id i reason => done'.foreign id i ?_
      · obtain ⟨i, found, -, physical⟩ := done.physical_found analysed k (mem_fixed member)
        exact ⟨i, found, physical⟩
      · rcases reason with isMine | physical
        · exact fun isFloat => not_int_of_float isFloat isMine
        · exact not_mine_of_physical physical
    | float =>
      exact done'.settled.of_earlier fun id i isMine => done.foreign id i (not_int_of_float isMine)
  · exact (done'.foreign id i (not_mine_of_physical physical)).trans
      (done.foreign id i (not_mine_of_physical physical))

end

def startFrame (g : Graph) (o : Options) (numParams : Nat) (args : List Nat) : Frame :=
  { Frame.ofGraph g g.target o.slotBudget with numParams, numArgs := args.foldl max 0 }

theorem scan_steps (run : l.scan g g.target o = .ok (l', f)) :
    ∃ cc params types args p₁ f₁, g.target.convention = some cc ∧ g.parameters = .ok params ∧
      g.typesOf params = .ok types ∧
      (∀ x ∈ g.instrs.toList, x.isCall = true →
        ∃ types, g.typesOf x.inputs = .ok types ∧ cc.numStackParams types ∈ args) ∧
      runClass g g.target o (params.zip (cc.paramLocations types)) l.physical
        (l.pool, startFrame g o (cc.numStackParams types) args) .int = .ok (p₁, f₁) ∧
      runClass g g.target o (params.zip (cc.paramLocations types)) l.physical (p₁, f₁) .float =
        .ok (l'.pool, f) ∧
      l' = { l with pool := l'.pool } := by
  unfold scan at run
  split at run
  · exact absurd run refuse_ne_ok
  · rename_i cc convention
    simp only [bind_ok, lift_ok, RegisterClass.all, foldlM_cons, foldlM_nil, pure_ok,
      Prod.exists, Prod.mk.injEq] at run
    obtain ⟨params, parameters, types, isTypes, args, isArgs, p₂, f₂, ⟨p₁, f₁, ints, floats⟩, rfl,
      rfl⟩ := run
    obtain ⟨_, _, floats, rfl, rfl⟩ := floats
    refine ⟨cc, params, types, args, p₁, f₁, convention, parameters, isTypes, ?_, ints, floats, rfl⟩
    intro x member call
    obtain ⟨n, isIn, counted⟩ := mapM_mem isArgs (mem_filter.mpr ⟨member, call⟩)
    simp only [bind_ok, lift_ok, pure_ok] at counted
    obtain ⟨types, isTypes, rfl⟩ := counted
    exact ⟨types, isTypes, isIn⟩

theorem scan_ok (given : g.Accepted tree l.numbering.order)
    (analysed : Analysed g g.target tree sets l)
    (run : l.scan g g.target o = .ok (l', f)) :
    ∃ cc params types, g.target.convention = some cc ∧ g.parameters = .ok params ∧
      g.typesOf params = .ok types ∧ l' = { l with pool := l'.pool } ∧
      Scanned g l o (params.zip (cc.paramLocations types)) l'.pool f := by
  obtain ⟨cc, params, types, args, p₁, f₁, convention, parameters, isTypes, -, ints, floats, same⟩ :=
    scan_steps run
  exact ⟨cc, params, types, convention, parameters, isTypes, same,
    runClasses_ok given analysed convention parameters isTypes rfl ints floats⟩

theorem inClass_inj {l : Location} {c d : RegisterClass} (inC : l.inClass c = true)
    (inD : l.inClass d = true) : c = d := by
  obtain ⟨kind, index⟩ := l
  cases c <;> cases d <;> cases kind <;>
    simp_all [Location.inClass, isRegister, isFpRegister]

theorem isMemory_of_valid {l : Location} (valid : l.isInvalid = false)
    (outside : l.isAnyRegister = false) : l.isMemory = true := by
  obtain ⟨kind, index⟩ := l
  cases kind <;> simp_all [isMemory, isAnyRegister, isStack,
    isStackSlot, isStackParameter, isImmediate, isRegister,
    isFpRegister, isInvalid]

namespace Scanned

theorem value_apart (scanned : Scanned g l o arrivals p f) (other : id ≠ k)
    (found : p.intervals[id]? = some i) (foundJ : p.intervals[k]? = some j)
    (own : i.value = some v) (ownJ : j.value = some v) (covered : i.covers pos = true) :
    j.covers pos = false := by
  by_contra both
  simp only [Bool.not_eq_false] at both
  have sorted := (scanned.tidy.fit id i found).sorted
  have sortedJ := (scanned.tidy.fit k j foundJ).sorted
  have := start_le sorted covered
  have := lt_stop sorted covered
  have := start_le sortedJ both
  have := lt_stop sortedJ both
  rcases scanned.tidy.stop_le_or other found foundJ own ownJ with before | after
  · lia
  · lia

variable (scanned : Scanned g l o arrivals p f)
  (once : ∀ v w place, arrivals.find? v = some place → arrivals.find? w = some place → v = w)
  (other : id ≠ k) (found : p.intervals[id]? = some i) (foundJ : p.intervals[k]? = some j)
  (virtual : i.physical = false) (virtualJ : j.physical = false)

include scanned once other found foundJ virtual virtualJ

theorem memory_apart (memory : i.location.isMemory = true) (same : j.location = i.location)
    (covered : i.covers pos = true) (both : j.covers pos = true) :
    i.location.isImmediate = true := by
  obtain ⟨last, lo, storage⟩ := scanned.storage
  have fit := scanned.tidy.fit id i found
  have fitJ := scanned.tidy.fit k j foundJ
  obtain ⟨v, own⟩ : ∃ v, i.value = some v :=
    isSome_iff_exists.mp (by simpa [virtual] using fit.kind.symm)
  obtain ⟨w, ownJ⟩ : ∃ w, j.value = some w :=
    isSome_iff_exists.mp (by simpa [virtualJ] using fitJ.kind.symm)
  have differ : v ≠ w := by
    rintro rfl
    have := scanned.value_apart other found foundJ own ownJ covered
    simp [both] at this
  have home := storage.home v i ⟨id, found, own⟩ memory
  have homeJ := storage.home w j ⟨k, foundJ, ownJ⟩ (same ▸ memory)
  rw [same] at homeJ
  rcases storage.kinds v _ home with slot | immediate | ⟨parameter, isArrival⟩
  · -- The one value is no longer needed when the other is spilled.
    obtain ⟨index, isSlot⟩ : ∃ index, i.location = .stackSlot index := by
      refine ⟨i.location.index, ?_⟩
      simp only [isStackSlot, beq_iff_eq] at slot
      rw [stackSlot, ← slot]
    rw [isSlot] at home homeJ same
    have since := storage.since v index i home ⟨id, found, own⟩ (.inl isSlot)
    have sinceJ := storage.since w index j homeJ ⟨k, foundJ, ownJ⟩ (.inl same)
    have := start_le fit.sorted covered
    have := lt_stop fit.sorted covered
    have := start_le fitJ.sorted both
    have := lt_stop fitJ.sorted both
    rcases storage.turns v w index differ home homeJ with before | after
    · have := before i ⟨id, found, own⟩
      lia
    · have := after j ⟨k, foundJ, ownJ⟩
      lia
  · exact immediate
  · rcases storage.kinds w _ homeJ with slot | immediate | ⟨-, isArrival'⟩
    · simp only [isStackSlot, isStackParameter, beq_iff_eq] at slot parameter
      simp [slot] at parameter
    · exact immediate
    · exact absurd (once v w _ isArrival isArrival') differ

theorem immediate_or_zero
    (same : j.location = i.location) (covered : i.covers pos = true) (both : j.covers pos = true) :
    i.location.isImmediate = true ∨ g.target.isZeroReg i.location = true := by
  have settled := scanned.settled i.regClass
  have isMine : Mine (passOf g l o i.regClass) i := ⟨virtual, rfl⟩
  have isMineJ : Mine (passOf g l o j.regClass) j := ⟨virtualJ, rfl⟩
  cases register : i.location.isAnyRegister with
  | false =>
    have memory := isMemory_of_valid (settled.valid id i found isMine) register
    exact .inl (scanned.memory_apart once other found foundJ virtual virtualJ memory same
      covered both)
  | true =>
    cases zero : g.target.isZeroReg i.location with
    | true => exact .inr rfl
    | false =>
      have inClass := settled.kind id i found isMine register
      have inClassJ := (scanned.settled j.regClass).kind k j foundJ isMineJ (same ▸ register)
      rw [same] at inClassJ
      have sameClass : j.regClass = i.regClass := inClass_inj inClassJ inClass
      have inside : InRegister (passOf g l o i.regClass) i := ⟨isMine, inClass, zero⟩
      have insideJ : InRegister (passOf g l o i.regClass) j :=
        ⟨⟨virtualJ, sameClass⟩, by rw [same]; exact inClass, by rw [same]; exact zero⟩
      have := (settled.undisturbed id i found inside).others k j foundJ other.symm not_mem_nil
        insideJ same pos covered
      simp [both] at this

end Scanned

theorem callerSaved_fits {arch : Arch} {cc : CallingConvention}
    (convention : (ofArch arch).convention = some cc) {cls : RegisterClass} {reg : Nat}
    (saved : (cc.callerSaved cls).contains reg = true) :
    reg < (ofArch arch).numRegs cls ∧ (cls = .int → (ofArch arch).zeroReg ≠ some reg) := by
  have inside : reg ∈ (cc.callerSaved cls).toList := RegisterSet.mem_toList.mpr saved
  cases arch with
  | none => simp [ofArch, unsupported] at convention
  | _ =>
    obtain rfl := some.inj convention
    clear saved
    revert reg
    cases cls <;> decide

theorem isCallerSaved_ok {target : Target} {place : Location}
    (saved : isCallerSaved target place = true) : ∃ cc cls, target.convention = some cc ∧
      place = .registerFor place.index (Draft.fullType cls) ∧ place.inClass cls = true ∧
      (cc.callerSaved cls).contains place.index = true := by
  unfold isCallerSaved at saved
  split at saved
  · simp at saved
  · rename_i cc convention
    obtain ⟨kind, index⟩ := place
    simp only [Bool.or_eq_true, Bool.and_eq_true] at saved
    rcases saved with ⟨isInt, saved⟩ | ⟨isFloat, saved⟩
    · obtain rfl : kind = .register := by simpa [isRegister] using isInt
      exact ⟨cc, .int, convention, rfl, rfl, saved⟩
    · obtain rfl : kind = .fpRegister := by simpa [isFpRegister] using isFloat
      exact ⟨cc, .float, convention, rfl, rfl, saved⟩

theorem not_zero_of_callerSaved {place : Location}
    (saved : isCallerSaved g.target place = true) : g.target.isZeroReg place = false := by
  obtain ⟨cc, cls, convention, isPlace, inClass, saved⟩ := isCallerSaved_ok saved
  have fits := (callerSaved_fits convention saved).2
  cases cls with
  | int => simpa [isZeroReg, Graph.target] using fun _ => fits rfl
  | float =>
    rw [isPlace]
    rfl

namespace Scanned

theorem result_of_callerSaved (given : g.Accepted tree l.numbering.order)
    (analysed : Analysed g g.target tree sets l) (first : g.ParametersFirst)
    {params : List ValueId} {types : List ValueType} {cc : CallingConvention}
    (parameters : g.parameters = .ok params)
    (scanned : Scanned g l o (params.zip (cc.paramLocations types)) p f)
    (found : p.intervals[id]? = some i) (virtual : i.physical = false)
    (saved : isCallerSaved g.target i.location = true) {d : InstrId} {x : Instr}
    (foundX : g.instrs[d]? = some x) (isCall : x.isCall = true)
    (isAt : l.numbering.numberOf? d = some pos) (covered : i.covers pos = true) :
    ∃ v ∈ x.results, l.intervalOf? v = some id := by
  have zero := not_zero_of_callerSaved saved
  obtain ⟨cc, cls, convention, isPlace, inClass, saved⟩ := isCallerSaved_ok saved
  have settled := scanned.settled i.regClass
  have isMine : Mine (passOf g l o i.regClass) i := ⟨virtual, rfl⟩
  have inOwn := settled.kind id i found isMine (Scanning.isAnyRegister_of_inClass inClass)
  obtain rfl : cls = i.regClass := inClass_inj inClass inOwn
  -- The call destroys the register.
  obtain ⟨k, isPhysical, m, foundM, destroyed, call⟩ := analysed.calls cc _ _ pos convention saved
    (callerSaved_fits convention saved).1 ⟨d, x, foundX, isCall, isAt⟩
  obtain ⟨cls', reg, samePlace, made⟩ := call.made
  have isFull : ∀ (c : RegisterClass) (n : Nat),
      (registerFor n (Draft.fullType c)).inClass c = true ∧
        (Draft.fullType c).regClass = c := by
    intro c n
    cases c <;> exact ⟨rfl, rfl⟩
  obtain rfl : cls' = i.regClass := by
    refine inClass_inj ?_ (isFull i.regClass i.location.index).1
    rw [samePlace]
    exact (isFull cls' reg).1
  have placeM : m.location = i.location := by
    rw [made]
    exact isPlace.symm
  have physicalM : m.physical = true := by rw [made]; rfl
  have classM : m.regClass = i.regClass := by
    rw [made]
    exact (isFull i.regClass 0).2
  have member : k ∈ (passOf g l o i.regClass).fixed :=
    mem_filter.mpr ⟨isPhysical, by simp [foundM, classM]⟩
  have inside : InRegister (passOf g l o i.regClass) i := ⟨isMine, inOwn, zero⟩
  -- Parameters have left their registers.
  have unpinned : i.pinned = false := by
    by_contra pinned
    obtain ⟨-, k, i₀, v, place, found₀, -, own₀, isArrival, early⟩ :=
      settled.released id i found inside (by simpa using pinned)
    obtain ⟨d₁, x₁, found₁, parameter, -, isAt₁, -⟩ :=
      arrival_start given analysed parameters found₀ own₀ isArrival
    have := analysed.parameter_lt_call given first found₁ parameter isAt₁
      ⟨d, x, foundX, isCall, isAt⟩
    have := lt_stop (scanned.tidy.fit id i found).sorted covered
    lia
  obtain ⟨isStart, d', x', defined, foundX', isCall'⟩ :=
    (settled.undisturbed id i found inside).calls unpinned k member m
      ((scanned.physical k m physicalM).mpr foundM) placeM pos covered destroyed
  -- So the interval starts there, as the result of a call.
  obtain ⟨i₀, found₀, isMine₀, defined₀, value₀, reason⟩ :=
    settled.origin id i d' found isMine defined
  obtain ⟨v, own, known⟩ := analysed.has_value found₀ isMine₀.1
  obtain ⟨i', ty, d₀, x₀, p₀, found', -, foundX₀, result, isAt₀, -, start, made₀⟩ :=
    analysed.has_root given known
  obtain rfl := mem_unique found₀ found'
  obtain rfl : d₀ = d' := by
    rw [made₀] at defined₀
    exact some.inj defined₀
  obtain rfl := mem_unique foundX₀ foundX'
  rcases reason with sameStart | ⟨w, place, ownW, isArrival⟩
  · have plain : ∀ {y : Instr}, y.isCall = true → y.isPhi = false := by
      intro y isCall
      rw [Instr.isPhi, beq_eq_false_iff_ne]
      intro isPhi
      simp [Instr.isCall, isPhi, Opcode.isCall] at isCall
    have here : l.numbering.numberOf? d₀ = some pos := by
      rw [isAt₀, ← start, sameStart, isStart]
    have atD := analysed.instrAt_eq given foundX (plain isCall) isAt
    have atD₀ := analysed.instrAt_eq given foundX₀ (plain isCall') here
    obtain rfl := mem_unique atD atD₀
    obtain rfl := mem_unique foundX foundX₀
    exact ⟨v, result, known⟩
  · obtain rfl : w = v := some.inj ((ownW.symm.trans value₀.symm).trans own)
    obtain ⟨d₁, x₁, found₁, parameter, result₁, -⟩ :=
      arrival_start given analysed parameters found₀ own isArrival
    obtain rfl := Graph.owner_of_nodup given.valid.results found₁ foundX₀ result₁ result
    obtain rfl := mem_unique found₁ foundX₀
    simp [Instr.isCall, parameter, Opcode.isCall] at isCall'

end Scanned

end Scan

namespace Liveness

variable {g : Graph} {o : Options} {l l' : Liveness} {frame : Frame}

/-- Intervals that can be lived in at the same time. -/
structure KeptApart (g : Graph) (l : Liveness) : Prop where
  located : ∀ (id : IntervalId) (i : Interval), l.pool.intervals[id]? = some i →
    i.physical = false → i.location.isInvalid = false
  apart : ∀ (id k : IntervalId) (i j : Interval), id ≠ k → l.pool.intervals[id]? = some i →
    l.pool.intervals[k]? = some j → i.physical = false → j.physical = false → ∀ pos,
    i.covers pos = true → j.covers pos = true → i.location = j.location →
    i.location.isImmediate = true ∨ g.target.isZeroReg i.location = true
  spared : ∀ (id : IntervalId) (i : Interval), l.pool.intervals[id]? = some i →
    i.physical = false → isCallerSaved g.target i.location = true → ∀ d x pos,
    g.instrs[d]? = some x → x.isCall = true → l.numbering.numberOf? d = some pos →
    i.covers pos = true → ∃ v ∈ x.results, l.intervalOf? v = some id
  inGaps : ∀ (id k : IntervalId) (i j : Interval), l.pool.intervals[id]? = some i →
    i.physical = false → i.sibling = some k → l.pool.intervals[k]? = some j →
    i.stop = j.start → i.stop % 2 = 1

/-- The locations that a scan gives can be lived in at the same time. -/
theorem scan_keeps_apart (consistent : g.Consistent) (valid : g.validate = .ok ())
    (first : g.ParametersFirst) (analysed : ofGraph g g.target = .ok l)
    (run : l.scan g g.target o = .ok (l', frame)) : l'.KeptApart g := by
  obtain ⟨tree, order, isValid⟩ := Graph.validate_ok valid
  have given : g.Accepted tree order := ⟨consistent, isValid⟩
  obtain ⟨sets, analysed⟩ := ofGraph_analysed given analysed
  obtain rfl : order = l.numbering.order :=
    Except.ok.inj (isValid.ordered.symm.trans analysed.numbered.ordered)
  obtain ⟨cc, params, types, convention, parameters, isTypes, same, scanned⟩ :=
    Scan.scan_ok given analysed run
  have fits := CallingConvention.fits_target convention
  constructor
  case located =>
    intro id i found virtual
    exact (scanned.settled i.regClass).valid id i found ⟨virtual, rfl⟩
  case apart =>
    intro id k i j other found foundJ virtual virtualJ pos covered both samePlace
    exact scanned.immediate_or_zero (fun v w place => Scan.arrivals_once
      (CallingConvention.assign_nodup fits.once fits.fpOnce)) other found foundJ virtual virtualJ
      samePlace.symm covered both
  case spared =>
    intro id i found virtual saved d x pos foundX isCall isAt covered
    rw [same] at isAt ⊢
    exact scanned.result_of_callerSaved given analysed first parameters found virtual saved foundX
      isCall isAt covered
  case inGaps =>
    intro id k i j found virtual sibling foundJ meet
    obtain ⟨v, own⟩ : ∃ v, i.value = some v := isSome_iff_exists.mp
      (by simpa [virtual] using (scanned.tidy.fit id i found).kind.symm)
    exact scanned.tidy.joint_of_meet found own sibling foundJ meet

def acrossCall : Graph :=
  { Graph.new "across" .aarch64 with
    blocks := #[⟨[0, 1, 2, 3, 4, 5], [], []⟩]
    instrs := #[
      { ofOpcode .parameter 0 .int64 with results := [0] },
      { ofOpcode .parameter 0 .int64 with results := [1] },
      { ofOpcode (.call 1) 0 .int64 with inputs := [0], results := [2] },
      { ofOpcode .add 0 .int64 with inputs := [0, 2], results := [3] },
      { ofOpcode .add 0 .int64 with inputs := [3, 1], results := [4] },
      { ofOpcode .ret 0 .int64 with inputs := [4] }]
    values := #[⟨0, .int64⟩, ⟨1, .int64⟩, ⟨2, .int64⟩, ⟨3, .int64⟩, ⟨4, .int64⟩] }

theorem acrossCall_keptApart :
    ∃ l l' frame, ofGraph acrossCall acrossCall.target = .ok l ∧
      l.scan acrossCall acrossCall.target { Options.default with ints := some (.first 2) } =
        .ok (l', frame) ∧
      (l'.pool.intervals.toList.filter (!·.physical)).map Interval.location =
        [.register 0, .register 1, .register 0, .register 0, .register 0, .stackSlot 0,
          .stackSlot 1, .register 1, .register 1] ∧
      l'.KeptApart acrossCall := by
  have scanned : (do
      let l ← ofGraph acrossCall acrossCall.target
      let r ← l.scan acrossCall acrossCall.target { Options.default with ints := some (.first 2) }
      return (r.1.pool.intervals.toList.filter (!·.physical)).map Interval.location :
        Attempt AllocationError (List Location)) =
      .ok [.register 0, .register 1, .register 0, .register 0, .register 0, .stackSlot 0,
        .stackSlot 1, .register 1, .register 1] := by
    decide +kernel
  obtain ⟨l, analysed, scanned⟩ := bind_ok.mp scanned
  obtain ⟨⟨l', frame⟩, run, places⟩ := bind_ok.mp scanned
  have analysed := lift_ok.mp analysed
  have first : acrossCall.ParametersFirst :=
    (Graph.parametersFirst_iff rfl).mpr (by decide +kernel)
  exact ⟨l, l', frame, analysed, run, pure_ok.mp places,
    scan_keeps_apart ⟨by decide +kernel, by decide +kernel⟩ (by decide +kernel) first analysed
      run⟩

end Liveness

end RegisterAllocation
