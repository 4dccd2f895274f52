import RegisterAllocation.Proofs.Parameters
import RegisterAllocation.Proofs.Validity

/-!
Verification is sound. A program with locations and groups of moves that is found to have no defect
does what the program without the moves does, wherever the locations and the moves came from.
-/

namespace RegisterAllocation

open List Option Graph Instr Location Machine

variable {p a g : Graph}

theorem Machine.start_no_verdict {args : List Word} {e : RunError} (verdict : e.isVerdict = true) :
    start p args .values ≠ .error (.error e) := by
  intro h
  cases found : p.parameters with
  | error f => simp [start, found, liftM, monadLift, MonadLift.monadLift] at h
  | ok params =>
    rcases start_cases found args .values with ⟨_, refused⟩ | ⟨_, same⟩
    · obtain rfl := refuse_error.mp (refused.symm.trans h)
      simp [RunError.isVerdict] at verdict
    · exact setValues_no_verdict (same.symm.trans h)

theorem run_same_end (args : List Word) (given : ∀ m, Machine.start p args .values = .ok m →
      ∃ order known params places, Setting p a order known ∧ a.Ready params places) :
    SameEnd (p.run args .values) (a.run args .locations) := by
  cases starts : Machine.start p args .values with
  | error h =>
    rw [run, starts, error_bind]
    refine ⟨fun _ ends => by simp at ends, fun e verdict ends => ?_⟩
    rw [Except.error.inj ends] at starts
    exact absurd starts (start_no_verdict verdict)
  | ok m =>
    obtain ⟨order, known, params, places, set, ready⟩ := given m starts
    obtain ⟨n, startsA, pc, sim⟩ := start_follows set ready starts
    rw [run, run, starts, startsA, ok_bind, ok_bind]
    have follows (o : Attempt RunError RunResult) (ends : m.runWithin p (Machine.bound p) = some o)
        (settled : (∃ r, o = .ok r) ∨ ∃ e : RunError, e.isVerdict = true ∧ o = .error (.error e)) :
        ∃ o', n.runWithin a (Machine.bound a) = some o' ∧ SameEnd o o' := by
      obtain ⟨bound, o', ends', same⟩ := sim.run_agrees set ends settled
      exact ⟨o', ends_within_bound sim.located pc ends', same⟩
    cases ends : m.runWithin p (Machine.bound p) with
    | none => exact ⟨fun _ h => by simp at h, fun _ _ h => by simp at h⟩
    | some o =>
      constructor
      · intro r hr
        obtain ⟨o', ends', same⟩ := follows o ends (.inl ⟨r, hr⟩)
        rw [ends']
        exact same.result r hr
      · intro e verdict he
        obtain ⟨o', ends', same⟩ := follows o ends (.inr ⟨e, verdict, he⟩)
        rw [ends']
        exact same.verdict e verdict he

namespace Graph

def strip (g : Graph) : Graph :=
  { g with blocks := g.blocks.map fun B => { B with instrs := g.withoutMoves B.instrs } }

theorem strip_block {b : BlockId} {B : Block} :
    g.strip.blocks[b]? = some B ↔
      ∃ A, g.blocks[b]? = some A ∧ B = { A with instrs := g.withoutMoves A.instrs } := by
  simp [strip, eq_comm]

theorem strip_expands (g : Graph) : Expands g.strip g := by
  refine ⟨rfl, rfl, rfl, fun i x found => ⟨x, found, rfl, rfl, rfl, rfl⟩, ?_⟩
  intro b B stored
  obtain ⟨A, storedA, rfl⟩ := strip_block.mp stored
  refine ⟨A, storedA, rfl, rfl, ?_⟩
  intro j s S succ storedS pred
  obtain ⟨S', storedS', rfl⟩ := strip_block.mp storedS
  exact ⟨s, succ, .direct storedS' (getElem?_idxOf pred)⟩

def code (g : Graph) (b : BlockId) : List Instr :=
  ((g.blocks[b]?.map Block.instrs).getD []).filterMap (g.instrs[·]?)

def EndsInTerminators (g : Graph) : Prop :=
  ∀ b < g.blocks.size, ∀ x ∈ (g.code b).dropLast, x.opcode.isTerminator = false

def arguments (g : Graph) : Except Fault (List (ValueId × Location)) := do
  let params ← g.parameters
  let types ← g.typesOf params
  match g.target.convention with
  | some cc => return params.zip (cc.paramLocations types)
  | none => return []

/-- Parameters are defined in the places of the calling convention, and nothing that comes before
overwrites them there. -/
structure ParametersInPlace (g : Graph) : Prop where
  placed : ∀ arguments, g.arguments = .ok arguments → ∀ x ∈ g.code g.entry, x.opcode = .parameter →
    ∀ r ∈ x.results.zip x.resultLocations, r ∈ arguments
  intact : (g.code g.entry).Pairwise fun y x => x.opcode = .parameter →
    ∀ l ∈ x.resultLocations, y.overwrites g.target l = false

def namedBy (x : Instr) : List Location :=
  x.inputLocations ++ x.resultLocations ++
    (x.group.map fun group => group.moves.flatMap fun m => [m.src, m.dst]).getD []

def hasPlace (g : Graph) (numParams : Nat) (l : Location) : Bool :=
  match l.kind with
  | .register => l.index < g.target.intRegs
  | .fpRegister => l.index < g.target.floatRegs
  | .stackSlot => l.index < g.numSlots
  | .stackParameter => l.index < numParams
  | .immediate | .invalid => true

def InsideMachine (g : Graph) : Prop :=
  ∀ arguments, g.arguments = .ok arguments → ∀ x ∈ g.instrs, ∀ l ∈ namedBy x,
    g.hasPlace ((arguments.filter (·.2.isStackParameter)).length + g.numArgs) l = true

def WritesPlaces (g : Graph) : Prop := ∀ x ∈ g.instrs, ∀ l ∈ x.written, l.isInvalid = false

theorem lookups_all {instrs : List InstrId} (all : ∀ i ∈ instrs, ∃ x, g.instrs[i]? = some x) :
    (instrs.filterMap (g.instrs[·]?)).length = instrs.length ∧
      ∀ pc : Nat, (instrs.filterMap (g.instrs[·]?))[pc]? = instrs[pc]?.bind (g.instrs[·]?) := by
  induction instrs with
  | nil => simp
  | cons i rest ih =>
    obtain ⟨x, found⟩ := all i mem_cons_self
    obtain ⟨length, others⟩ := ih fun j hj => all j (mem_cons_of_mem i hj)
    rw [filterMap_cons_some found]
    refine ⟨by simp [length], fun pc => ?_⟩
    cases pc with
    | zero => simp [found]
    | succ pc => simpa using others pc

theorem Consistent.code_at (consistent : g.Consistent) {b : BlockId} {B : Block}
    (stored : g.blocks[b]? = some B) :
    (g.code b).length = B.instrs.length ∧
      ∀ pc x, g.At b pc x → (g.code b)[pc]? = some x := by
  have all : ∀ j ∈ B.instrs, ∃ y, g.instrs[j]? = some y := by
    intro j hj
    obtain ⟨y, hy, -⟩ := consistent.instr_of_listed stored hj
    exact ⟨y, hy⟩
  simp only [code, stored, map_some, getD_some]
  obtain ⟨length, lookup⟩ := lookups_all all
  refine ⟨length, ?_⟩
  rintro pc x ⟨B', i, stored', listed, found⟩
  obtain rfl : B = B' := by simpa [stored] using stored'
  rw [lookup, listed, bind_some, found]

theorem EndsInTerminators.terminator_last (ends : g.EndsInTerminators)
    (consistent : g.Consistent) {b : BlockId}
    {B : Block} {pc : Nat} {x : Instr} (stored : g.blocks[b]? = some B) (hx : g.At b pc x)
    (terminator : x.opcode.isTerminator = true) : pc + 1 = B.instrs.length := by
  obtain ⟨length, lookup⟩ := consistent.code_at stored
  have here := lookup pc x hx
  have bound := listed_lt here
  by_contra inner
  have member : x ∈ (g.code b).dropLast := by
    refine mem_of_getElem? (i := pc) ?_
    rw [getElem?_dropLast, if_pos (by omega), here]
  simp [ends b (found_lt stored) x member] at terminator

theorem ParametersInPlace.not_overwritten (inPlace : g.ParametersInPlace) (consistent : g.Consistent)
    {pc qc : Nat} {x y : Instr} (hx : g.At g.entry pc x) (hy : g.At g.entry qc y) (before : pc < qc)
    (parameter : y.opcode = .parameter) :
    ∀ l ∈ y.resultLocations, x.overwrites g.target l = false := by
  obtain ⟨E, -, stored, -, -⟩ := id hx
  have lookup := (consistent.code_at stored).2
  obtain ⟨hp, atP⟩ := List.getElem?_eq_some_iff.mp (lookup pc x hx)
  obtain ⟨hq, atQ⟩ := List.getElem?_eq_some_iff.mp (lookup qc y hy)
  have pair := pairwise_iff_getElem.mp inPlace.intact pc qc hp hq before
  rw [atP, atQ] at pair
  exact pair parameter

theorem mem_withoutMoves {instrs : List InstrId} {i : InstrId} {x : Instr} (member : i ∈ instrs)
    (found : g.instrs[i]? = some x) (plain : x.isSpillFill = false) : i ∈ g.withoutMoves instrs :=
  mem_filter.mpr ⟨member, by simp [isMoves_eq found, plain]⟩

theorem Valid.instr_of_strip {tree : DominatorTree} {order : List BlockId}
    (valid : g.strip.Valid tree order) {b : BlockId} {pc : Nat} {x : Instr} (hx : g.At b pc x)
    (plain : x.isSpillFill = false) :
    ∃ A pos, g.blocks[b]? = some A ∧
      g.strip.ValidInstr tree b { A with instrs := g.withoutMoves A.instrs } pos x := by
  obtain ⟨A, i, stored, listed, found⟩ := hx
  have member := mem_withoutMoves (mem_of_getElem? listed) found plain
  obtain ⟨pos, listed'⟩ := mem_iff_getElem?.mp member
  obtain ⟨x', found', checked⟩ :=
    (valid.blocks b _ (strip_block.mpr ⟨A, stored, rfl⟩)).instrs pos i listed'
  obtain rfl := mem_unique found found'
  exact ⟨A, pos, stored, checked⟩

theorem proper_of_valid {tree : DominatorTree} {order : List BlockId} (consistent : g.Consistent)
    (grouped : g.Grouped) (ends : g.EndsInTerminators) (valid : g.strip.Valid tree order)
    (inPlace : g.ParametersInPlace) : g.Proper where
  grouped := by
    rintro b pc y ⟨B, i, -, -, found⟩
    exact grouped y (Array.mem_of_getElem? found)
  last b A pc y stored hy terminator := ends.terminator_last consistent stored hy terminator
  results b pc y hy plain := by
    obtain ⟨_, _, _, checked⟩ := valid.instr_of_strip hy plain
    exact checked.results
  arity b A pc y stored hy phi := by
    simp only [isPhi, beq_iff_eq] at phi
    obtain ⟨A', _, stored', checked⟩ := valid.instr_of_strip hy (by simp [isSpillFill, phi])
    obtain rfl : A = A' := by simpa [stored] using stored'
    exact checked.inputs _ (by simp [expectedInputs?, phi])
  early b pc y hy parameter := by
    obtain ⟨_, _, _, checked⟩ :=
      valid.instr_of_strip hy (by simp [isSpillFill, parameter])
    exact checked.early parameter
  owner i j x y hx hy v vx vy := owner_of_nodup valid.results hx hy vx vy
  distinct i x found := by
    refine (nodup_flatMap.mp valid.results).1 x ?_
    exact Array.mem_toList_iff.mpr (Array.mem_of_getElem? found)
  defines _ _ found _ result _ constant := valid.constant_of_result found result constant
  once b c B C pc qc i storedB storedC listedB listedC :=
    consistent.listed_once storedB storedC listedB listedC
  intact pc qc x y hx hy before parameter := inPlace.not_overwritten consistent hx hy before parameter

theorem accepts_of_hasPlace {numParams : Nat} {l : Location}
    (inside : g.hasPlace numParams l = true) (valid : l.isInvalid = false) :
    (blank g .locations numParams).Accepts l := by
  unfold hasPlace at inside
  unfold Accepts
  cases kind : l.kind with
  | invalid => simp [isInvalid, kind] at valid
  | immediate => exact .inr (.inl (by simp [isImmediate, kind]))
  | _ =>
    rw [kind] at inside
    refine .inr (.inr ⟨_, rfl, ?_⟩)
    simpa [blank, targetFor] using inside

theorem mem_namedBy {x : Instr} {l : Location} (writes : l ∈ x.written) : l ∈ namedBy x := by
  unfold written at writes
  unfold namedBy
  split at writes
  · rename_i group grouped
    obtain ⟨m, member, rfl⟩ := mem_map.mp writes
    refine mem_append_right _ ?_
    simp only [grouped, map_some, getD_some, mem_flatMap]
    exact ⟨m, member, by simp⟩
  · split at writes
    · simp at writes
    · exact mem_append_left _ (mem_append_right _ writes)

theorem arguments_ok {params : List ValueId} {cc : CallingConvention}
    (parameters : g.parameters = .ok params) (convention : g.target.convention = some cc)
    (inside : ∀ v ∈ params, v < g.values.size) :
    ∃ types, g.typesOf params = .ok types ∧
      g.arguments = .ok (params.zip (cc.paramLocations types)) := by
  obtain ⟨types, typed⟩ : ∃ types, g.typesOf params = .ok types := by
    clear parameters
    unfold typesOf
    induction params with
    | nil => exact ⟨[], rfl⟩
    | cons v rest ih =>
      obtain ⟨types, typed⟩ := ih fun u hu => inside u (mem_cons_of_mem v hu)
      have bound := inside v mem_cons_self
      have found := value_ok.mpr (Array.getElem?_eq_getElem bound)
      refine ⟨g.values[v].ty :: types, ?_⟩
      rw [mapM_cons, typeOf, found, ok_bind, pure_bind, typed, ok_bind]
      rfl
  refine ⟨types, typed, ?_⟩
  rw [arguments, parameters, ok_bind, typed, ok_bind, convention]
  rfl

theorem convention_of_supported (supported : g.arch ≠ .none) :
    ∃ cc, g.target.convention = some cc := by
  unfold target
  cases arch : g.arch with
  | none => exact absurd arch supported
  | _ => exact ⟨_, rfl⟩

theorem stack_places {params : List ValueId} {places : List Location}
    (length : params.length = places.length) :
    ((params.zip places).filter (·.2.isStackParameter)).length =
      (places.filter isStackParameter).length := by
  have snd : (params.zip places).map Prod.snd = places := map_snd_zip (by omega)
  conv_rhs => rw [← snd, List.filter_map, length_map]
  rfl

/-- Verification is sound: if it finds no defect in a program with locations and moves, the program
ends as it does without them, whenever that is with a result, at an invalid address or at the limit
of steps. -/
theorem verified_same_end (consistent : g.Consistent) (grouped : g.Grouped)
    (ends : g.EndsInTerminators) (supported : g.arch ≠ .none)
    (accepted : g.strip.validate = .ok ()) (inside : g.InsideMachine) (written : g.WritesPlaces)
    (inPlace : g.ParametersInPlace) (verified : g.allocationDefects = .ok []) (args : List Word) :
    SameEnd (g.strip.run args .values) (g.run args .locations) := by
  obtain ⟨tree, blocks, valid⟩ := validate_ok accepted
  obtain ⟨order, known, solution⟩ := solution_of_clean verified
  obtain ⟨cc, convention⟩ := convention_of_supported supported
  refine run_same_end args fun m starts => ?_
  -- a run that starts has its parameters among the values
  obtain ⟨params, found, -⟩ := bind_ok.mp starts
  rw [lift_ok] at found
  have parameters := Machine.parameters_same g.strip_expands solution found
  have among : ∀ v ∈ params, v < g.values.size := by
    rcases Machine.start_cases found args .values with ⟨_, refused⟩ | ⟨count, same⟩
    · exact absurd (refused.symm.trans starts) refuse_ne_ok
    · have stored := (Machine.setValues_ok (same.symm.trans starts)).1
      simpa [Machine.blank, strip] using Machine.params_inside count stored
  obtain ⟨types, typed, arguments⟩ := arguments_ok parameters convention among
  have length : params.length = (cc.paramLocations types).length := by
    rw [CallingConvention.length_paramLocations]
    exact (mapM_ok.mp typed).length_eq
  refine ⟨order, known, params, cc.paramLocations types,
    ⟨g.strip_expands, proper_of_valid consistent grouped ends valid inPlace, solution, valid.entry,
      cc, convention⟩,
    parameters, ⟨types, cc, typed, convention, rfl⟩, ?_, ?_⟩
  · rintro pc y hy parameter
    obtain ⟨E, -, stored, -, -⟩ := id hy
    have member := mem_of_getElem? ((consistent.code_at stored).2 pc y hy)
    exact inPlace.placed _ arguments y member parameter
  · rintro b pc y l ⟨B, i, -, -, stored⟩ writes
    have member := Array.mem_of_getElem? stored
    have has := inside _ arguments y member l (mem_namedBy writes)
    rw [stack_places length] at has
    exact accepts_of_hasPlace has (written y member l writes)

def countdown : Graph :=
  { new "countdown" .aarch64 with
    blocks := #[⟨[0, 1, 2], [], [1]⟩, ⟨[3, 4], [0, 2], [2, 3]⟩, ⟨[5, 6], [1], [1]⟩, ⟨[7], [1], []⟩]
    instrs := #[
      { ofOpcode .parameter 0 .int64 with
        results := [0], resultLocations := [.register 0] },
      { ofOpcode (.constant 1) 0 .int64 with
        results := [1], resultLocations := [.register 2] },
      .ofGroup 0 ⟨.phiMove, [⟨.register 0, .stackSlot 0, .int64⟩], true⟩,
      { ofOpcode .phi 1 .int64 with
        inputs := [0, 3], results := [2], resultLocations := [.stackSlot 0] },
      { ofOpcode (.branch .gt) 1 .void with
        inputs := [2, 1], inputLocations := [.stackSlot 0, .register 2] },
      { ofOpcode .sub 2 .int64 with
        inputs := [2, 1], results := [3], inputLocations := [.stackSlot 0, .immediate 0],
        resultLocations := [.register 3] },
      .ofGroup 2 ⟨.phiMove, [⟨.register 3, .stackSlot 0, .int64⟩], true⟩,
      { ofOpcode .ret 3 .int64 with inputs := [2], inputLocations := [.stackSlot 0] }]
    values := #[⟨0, .int64⟩, ⟨1, .int64⟩, ⟨3, .int64⟩, ⟨5, .int64⟩]
    immediates := [1]
    numSlots := 1 }

theorem countdown_arguments {arguments : List (ValueId × Location)}
    (h : countdown.arguments = .ok arguments) : arguments = [(0, .register 0)] :=
  Except.ok.inj (h.symm.trans (by decide +kernel))

theorem countdown_consistent : countdown.Consistent := ⟨by decide +kernel, by decide +kernel⟩

theorem countdown_insideMachine : countdown.InsideMachine := by
  intro arguments h
  rw [countdown_arguments h]
  decide +kernel

theorem countdown_inPlace : countdown.ParametersInPlace := by
  refine ⟨fun arguments h => ?_, by decide +kernel⟩
  rw [countdown_arguments h]
  decide +kernel

theorem countdown_same_end :
    countdown.Consistent ∧ countdown.Grouped ∧ countdown.EndsInTerminators ∧
      countdown.arch ≠ .none ∧ countdown.strip.validate = .ok () ∧ countdown.InsideMachine ∧
      countdown.WritesPlaces ∧ countdown.ParametersInPlace ∧
      countdown.allocationDefects = .ok [] ∧
      (countdown.strip.run [3] .values).map RunResult.result = .ok (some 1) ∧
      SameEnd (countdown.strip.run [3] .values) (countdown.run [3] .locations) := by
  have grouped : countdown.Grouped := by unfold Grouped; decide +kernel
  have ends : countdown.EndsInTerminators := by unfold EndsInTerminators; decide +kernel
  have accepted : countdown.strip.validate = .ok () := by decide +kernel
  have written : countdown.WritesPlaces := by unfold WritesPlaces; decide +kernel
  have verified : countdown.allocationDefects = .ok [] := by decide +kernel
  exact ⟨countdown_consistent, grouped, ends, by decide, accepted, countdown_insideMachine, written,
    countdown_inPlace, verified, by decide +kernel, verified_same_end countdown_consistent grouped
      ends (by decide) accepted countdown_insideMachine written countdown_inPlace verified [3]⟩

def lostConstant : Graph :=
  { new "lost" .aarch64 with
    blocks := #[⟨[0, 1], [], []⟩]
    instrs := #[
      { ofOpcode (.constant 1) 0 .int64 with
        results := [0], resultLocations := [.invalid] },
      ofOpcode .retVoid 0 .void]
    values := #[⟨0, .int64⟩] }

/-- A result without a place is no defect to verification, but the run stops where it is written. -/
theorem lost_constant_stops :
    lostConstant.Consistent ∧ lostConstant.Grouped ∧ lostConstant.EndsInTerminators ∧
      lostConstant.arch ≠ .none ∧ lostConstant.strip.validate = .ok () ∧
      lostConstant.InsideMachine ∧ lostConstant.ParametersInPlace ∧
      lostConstant.allocationDefects = .ok [] ∧
      (lostConstant.strip.run [] .values).map RunResult.result = .ok none ∧
      lostConstant.run [] .locations = .error (.error .invalidWrite) := by
  have arguments {arguments : List (ValueId × Location)}
      (h : lostConstant.arguments = .ok arguments) : arguments = [] :=
    Except.ok.inj (h.symm.trans (by decide +kernel))
  refine ⟨⟨by decide +kernel, by decide +kernel⟩, by unfold Grouped; decide +kernel,
    by unfold EndsInTerminators; decide +kernel, by decide, by decide +kernel, fun _ h => ?_,
    ⟨fun _ h => ?_, by decide +kernel⟩, by decide +kernel, by decide +kernel, by decide +kernel⟩
  · rw [arguments h]
    decide +kernel
  · rw [arguments h]
    decide +kernel

end Graph

end RegisterAllocation
