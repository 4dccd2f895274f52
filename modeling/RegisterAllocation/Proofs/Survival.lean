import RegisterAllocation.Proofs.Preservation

/-!
Parameters survive until they are defined. An instruction keeps the places that it does not
overwrite, and in an allocated program nothing ahead of a parameter overwrites where the parameter
arrives. Control never comes back to the entry block, so whenever it stands at a parameter, the
argument is still there.
-/

namespace RegisterAllocation

open List Option Instr

namespace Machine

variable {g a : Graph} {m m' n n' : Machine} {x : Instr} {l : Location}

theorem moveGroup_keep {group : MoveGroup} (moved : m.moveGroup g group = .ok m')
    (away : ∀ mv ∈ group.moves, mv.dst ≠ l) : m'.content g l = m.content g l := by
  unfold moveGroup at moved
  simp only at moved
  split at moved
  · have kept := transfers_keep moved away
    exact kept
  · rw [bind_ok] at moved
    obtain ⟨words, -, moved⟩ := moved
    refine foldlM_ok (P := fun n => n.content g l = m.content g l)
      (fun p member n n' kept wrote => ?_) moved rfl
    have among := (of_mem_zip member).1
    rw [(write_effect wrote).2, if_neg fun here => away p.1 among here.1.symm, kept]

theorem afterCall_keep (cleared : m.afterCall g x = .ok n) :
    OnlyPlaces m n ∧ ∀ l, ¬(x.isCall = true ∧ Verify.isCallerSaved m.target l = true) →
      n.content g l = m.content g l := by
  unfold afterCall at cleared
  split at cleared
  · rename_i call
    obtain ⟨only, kept⟩ := clobber_effect cleared
    refine ⟨only, fun l spared => kept l (.inr ?_)⟩
    simpa [call.1] using spared
  · obtain rfl := Except.ok.inj cleared
    exact ⟨.refl _, fun _ _ => rfl⟩

theorem compute_keep (grouped : x.isSpillFill = x.group.isSome) (located : m.stage = .locations)
    (computed : m.compute g x = .ok m') :
    m'.stage = m.stage ∧ m'.target = m.target ∧ m'.block = m.block ∧ m'.pc = m.pc ∧
      ∀ l, x.overwrites m.target l = false → m'.content g l = m.content g l := by
  cases moves : x.isSpillFill with
  | true =>
    rw [moves] at grouped
    obtain ⟨group, isGroup⟩ := isSome_iff_exists.mp grouped.symm
    have opcode : x.opcode = .spillFill := by simpa [isSpillFill] using moves
    simp only [compute, opcode, isGroup] at computed
    have only := (moveGroup_fill computed).1
    refine ⟨by rw [only.same], only.target_eq, by rw [only.same], by rw [only.same], fun l free => ?_⟩
    have away := (overwrites_eq_false.mp free).1
    rw [written_moves isGroup] at away
    exact moveGroup_keep computed fun mv member same => away (same ▸ mem_map_of_mem member)
  | false =>
    have ungrouped : x.group = none := by simpa [moves] using grouped
    by_cases passed : x.isPhi = true ∨ x.opcode = .parameter
    · obtain rfl : m = m' := by
        rcases passed with phi | parameter
        · have opcode : x.opcode = .phi := by simpa [isPhi] using phi
          simpa [compute, opcode] using computed
        · simpa [compute, parameter] using computed
      exact ⟨rfl, rfl, rfl, rfl, fun _ _ => rfl⟩
    · rw [not_or, Bool.not_eq_true] at passed
      simp only [compute_eq moves, bind_ok] at computed
      obtain ⟨r, -, n, cleared, put⟩ := computed
      obtain ⟨only, spared⟩ := afterCall_keep cleared
      have still : n.stage = .locations := by
        rw [only.same]
        exact located
      have only' := putResults_only (m := { n with memory := r.2 }) still put
      refine ⟨?_, only'.target_eq.trans only.target_eq, ?_, ?_, fun l free => ?_⟩
      · rw [only'.same, only.same]
      · rw [only'.same, only.same]
      · rw [only'.same, only.same]
      · obtain ⟨away, kept⟩ := overwrites_eq_false.mp free
        rw [written_plain ungrouped passed.1 passed.2] at away
        exact (putResults_keep (m := { n with memory := r.2 }) still put away).trans (spared l kept)

theorem step_located (grouped : ∀ x, g.At m.block m.pc x → x.isSpillFill = x.group.isSome)
    (located : m.stage = .locations) (stepped : m.step g = .ok (.running m')) :
    m'.stage = .locations ∧ m'.target = m.target ∧
      ((∃ B, g.blocks[m.block]? = some B ∧ m'.block ∈ B.succs) ∨
        ∃ x, g.At m.block m.pc x ∧ m'.block = m.block ∧ m'.pc = m.pc + 1 ∧
          ∀ l, x.overwrites m.target l = false → m'.content g l = m.content g l) := by
  obtain ⟨B, stored, ⟨-, m₁, fell, same⟩ | ⟨i, x, listed, found, -, executed⟩⟩ := step_ok stepped
  · obtain rfl := Next.running.inj same
    obtain ⟨s, succs, rfl⟩ := (fallThrough_located located).mp fell
    exact ⟨located, rfl, .inl ⟨B, stored, by simp [succs]⟩⟩
  have here : g.At m.block m.pc x := ⟨B, i, stored, listed, found⟩
  rcases execute_ok executed with ⟨-, m₁, computed, same⟩ |
    ⟨c, taken, yes, no, m₁, -, -, succs, entered, same⟩ | ⟨-, w, -, same⟩ | ⟨-, same⟩
  · obtain rfl := Next.running.inj same
    have stage : (m.count x).stage = .locations := located
    obtain ⟨same, target, block, pc, kept⟩ := compute_keep (grouped x here) stage computed
    exact ⟨same.trans stage, target, .inr ⟨x, here, block, pc, kept⟩⟩
  · obtain rfl := Next.running.inj same
    have stage : (m.count x).stage = .locations := located
    simp only [enter, stage] at entered
    obtain rfl := Except.ok.inj entered
    refine ⟨rfl, rfl, .inl ⟨B, stored, ?_⟩⟩
    rw [succs]
    cases taken <;> simp
  · cases same
  · cases same

/-- In the entry block, the places of the parameters still to come hold what has arrived there. All
other blocks that control gets to are some other way on. -/
structure Awaits (a : Graph) (past : BlockId → Prop)
    (arrived : List ((ValueId × Location) × Word)) (n : Machine) : Prop where
  located : n.stage = .locations
  target : n.target = a.target
  place : n.block = a.entry ∨ past n.block
  waiting : n.block = a.entry → ∀ q y, a.At a.entry q y → n.pc ≤ q → y.opcode = .parameter →
    ∀ r ∈ y.results.zip y.resultLocations, ∃ w, (r, w) ∈ arrived ∧ n.content a r.2 = some w

namespace Awaits

variable {past : BlockId → Prop} {arrived : List ((ValueId × Location) × Word)}

variable (proper : a.Proper)
  (leads : ∀ b C, b = a.entry ∨ past b → a.blocks[b]? = some C → ∀ t ∈ C.succs, past t ∧ t ≠ a.entry)
  (awaits : Awaits a past arrived n)

include proper leads awaits

theorem after_step (stepped : n.step a = .ok (.running n')) :
    Awaits a past arrived n' := by
  obtain ⟨stage, target, ⟨B, stored, succ⟩ | ⟨x, here, block, pc, kept⟩⟩ :=
    step_located (fun x => proper.grouped _ _ x) awaits.located stepped
  · obtain ⟨isPast, other⟩ := leads n.block B awaits.place stored _ succ
    exact ⟨stage, target.trans awaits.target, .inr isPast, fun entry => absurd entry other⟩
  · refine ⟨stage, target.trans awaits.target, block ▸ awaits.place,
      fun entry q y isAt later parameter r among => ?_⟩
    rw [block] at entry
    rw [pc] at later
    obtain ⟨w, passed, content⟩ :=
      awaits.waiting entry q y isAt (Nat.le_of_succ_le later) parameter r among
    refine ⟨w, passed, ?_⟩
    rw [kept, content]
    rw [awaits.target]
    exact proper.intact n.pc q x y (entry ▸ here) isAt later parameter r.2 (of_mem_zip among).2

theorem after_reaches (reached : Reaches a n n') : Awaits a past arrived n' := by
  induction reached with
  | refl => exact awaits
  | step stepped _ ih => exact ih (awaits.after_step proper leads stepped)

end Awaits

end Machine

namespace Graph

open Connection (ends)

variable {g h g' : Graph} {tree : DominatorTree} {order : List BlockId} {b t : BlockId} {C : Block}
  {due : MoveGroup → InstrId → Prop} {o : Options} {l : Liveness} {f : Frame} {d : InstrId}
  {y : Instr} {n : Nat} {v : ValueId}

def Past (g h : Graph) (t : BlockId) : Prop :=
  (t ≠ g.entry ∧ ∃ T, g.blocks[t]? = some T) ∨
    (g.blocks.size ≤ t ∧ ∃ b s S, ends h t = some ([b], [s]) ∧ s ≠ g.entry ∧ g.blocks[s]? = some S)

theorem Inlaid.past_of_succ (given : g.Accepted tree order) (inlaid : Inlaid g due h)
    (place : b = g.entry ∨ Past g h b) (stored : h.blocks[b]? = some C) (succ : t ∈ C.succs) :
    Past g h t ∧ t ≠ g.entry := by
  have ordered := reversePostOrder_ok given.valid.ordered
  obtain ⟨E, storedE⟩ := ordered.stored g.entry ordered.entry
  have bound := found_lt storedE
  have old : (∃ B, g.blocks[b]? = some B) ∨
      ∃ b' s S, ends h b = some ([b'], [s]) ∧ s ≠ g.entry ∧ g.blocks[s]? = some S := by
    rcases place with rfl | ⟨-, T, storedT⟩ | ⟨-, new⟩
    · exact .inl ⟨E, storedE⟩
    · exact .inl ⟨T, storedT⟩
    · exact .inr new
  have isEnds : ends h b = some (C.preds, C.succs) := by simp [ends, stored]
  rcases old with ⟨B, storedB⟩ | ⟨b', s, S, isEnds', other, storedS⟩
  · obtain ⟨j, isAt⟩ := mem_iff_getElem?.mp succ
    obtain ⟨C', stored', -, -, length⟩ := inlaid.woven.block b B storedB
    obtain rfl := mem_unique stored stored'
    have inside : j < B.succs.length := length ▸ (listed_lt isAt)
    obtain ⟨S, storedS, pred⟩ := given.consistent.pred_of_succ storedB (getElem_mem inside)
    have other : B.succs[j] ≠ g.entry := by
      intro same
      rw [same] at storedS
      rw [given.valid.entry S storedS] at pred
      exact not_mem_nil pred
    obtain ⟨first, last, ⟨_, outs, isEnds', isFirst⟩, -, between⟩ :=
      inlaid.routed b _ B S j storedB (getElem?_eq_getElem inside) storedS pred
    obtain ⟨-, rfl⟩ := Prod.mk.inj (mem_unique isEnds isEnds')
    obtain rfl := mem_unique isAt isFirst
    rcases between with ⟨rfl, -⟩ | ⟨-, new, isEndsT⟩
    · exact ⟨.inl ⟨other, S, storedS⟩, other⟩
    · exact ⟨.inr ⟨new, b, _, S, isEndsT, other, storedS⟩, (bound.trans_le new).ne'⟩
  · obtain ⟨-, succs⟩ := Prod.mk.inj (mem_unique isEnds isEnds')
    obtain rfl : t = s := by simpa [succs] using succ
    exact ⟨.inl ⟨other, S, storedS⟩, other⟩

theorem Annotated.exists_resultLocation (annotated : Annotated g l f g')
    (found : g'.instrs[d]? = some y)
    (parameter : y.opcode = .parameter) (result : y.results[n]? = some v) :
    ∃ place, y.resultLocations[n]? = some place := by
  rcases annotated.instr_cases found with ⟨x, s, _, foundX, isSites, rfl, -⟩ | ⟨_, _, _, _, rfl, -⟩
  · have parameter : x.opcode = .parameter := parameter
    obtain ⟨-, -, -, results, -⟩ := Placement.sites_plain (x := x)
      (by simp [isPhi, parameter]) (by simp [isCall, parameter, Opcode.isCall]) isSites
    obtain ⟨place, isAt, -⟩ := (mapM_getElem results n).1 v result
    exact ⟨place, isAt⟩
  · cases parameter

/-- Where no call stands ahead of a parameter, parameters survive until they are defined: whenever
control comes to a parameter of an allocated program, its place is that of the calling convention,
and it holds the argument that has been passed there. -/
theorem parameters_survive (consistent : g.Consistent) (valid : g.validate = .ok ())
    (single : g.SingleEdges) (first : g.ParametersFirst) (grouped : g.Grouped) {summary : Summary}
    (allocated : g.allocate o = .ok (g', .ok summary)) :
    ∃ params types cc, g'.parameters = .ok params ∧ g'.typesOf params = .ok types ∧
      g'.target.convention = some cc ∧ ∀ args : List Word, params.length = args.length →
        ∃ start, Machine.start g' args .locations = .ok start ∧
          ∀ m, Machine.Reaches g' start m → m.block = g'.entry → ∀ x, g'.At g'.entry m.pc x →
            x.opcode = .parameter → ∀ (n : Nat) v, x.results[n]? = some v →
              ∃ (k : Nat) (place : Location) (w : Word), x.resultLocations[n]? = some place ∧
                params[k]? = some v ∧ (cc.paramLocations types)[k]? = some place ∧
                args[k]? = some w ∧ m.content g' place = some w := by
  obtain ⟨tree, order, isValid⟩ := validate_ok valid
  have given : g.Accepted tree order := ⟨consistent, isValid⟩
  obtain ⟨l₀, l, f, h, insertions, h', k, analysed, scan, stages, -⟩ :=
    allocate_stages given allocated
  obtain ⟨sets, analysed⟩ := Liveness.ofGraph_analysed given analysed
  obtain rfl : order = l₀.numbering.order :=
    Except.ok.inj (isValid.ordered.symm.trans analysed.numbered.ordered)
  obtain ⟨cc, params, types, housed⟩ := Liveness.scan_result given analysed scan
  have numbering : l.numbering = l₀.numbering := by rw [housed.same]
  have bare := given.bare_of_grouped grouped
  have annotated := stages.to_annotated housed.served
  have inlaid := stages.to_inlaid (numbering ▸ given) (numbering ▸ analysed.numbered) bare
    single first housed.served
  have entry : g'.entry = g.entry := inlaid.woven.entry
  have proper := inlaid.to_proper given bare fun pc qc x y isAt isAtY before parameter place =>
    intact_parameters housed given analysed bare first annotated inlaid isAt isAtY before parameter
  have parameters : g'.parameters = .ok params := by
    refine Machine.parameters_of_listed (inlaid.to_expands given) (fun A stored i listed => ?_)
      housed.parameters
    obtain ⟨x, found, -⟩ := (inlaid.woven.listed _ A stored).2 i listed
    exact ⟨x, found⟩
  have ready := annotated.to_ready housed given analysed bare inlaid.woven parameters
  have typed : g'.typesOf params = .ok types := by
    rw [annotated.same]
    exact housed.isTypes
  have convention : g'.target.convention = some cc := by
    rw [annotated.same]
    exact housed.located.convention
  refine ⟨params, types, cc, parameters, typed, convention, fun args count => ?_⟩
  obtain ⟨start, starts, only, held⟩ := Machine.start_places ready count
  refine ⟨start, starts, fun m reached inEntry x isAt parameter n v result => ?_⟩
  -- what has arrived is there at the start
  have awaits : Machine.Awaits g' (Past g g') ((params.zip (cc.paramLocations types)).zip args)
      start := by
    refine ⟨by rw [only.same]; rfl, only.target_eq, .inl (by rw [only.same]; rfl),
      fun _ q y isAtY _ isParameter r among => ?_⟩
    obtain ⟨k, isK⟩ := mem_iff_getElem?.mp (ready.placed q y isAtY isParameter r among)
    obtain ⟨isV, isPlace⟩ := getElem?_zip_eq_some.mp isK
    have inside : k < args.length := count ▸ (List.getElem?_eq_some_iff.mp isV).1
    have isW := getElem?_eq_getElem inside
    exact ⟨args[k], mem_of_getElem? (getElem?_zip_eq_some.mpr ⟨isK, isW⟩),
      held (r.2, args[k]) (mem_of_getElem? (getElem?_zip_eq_some.mpr ⟨isPlace, isW⟩))⟩
  have later := awaits.after_reaches proper (fun b C place stored t succ =>
    entry ▸ inlaid.past_of_succ given (entry ▸ place) stored succ) reached
  obtain ⟨C, d, stored, listed, found⟩ := id isAt
  obtain ⟨place, isPlace⟩ := annotated.exists_resultLocation found parameter result
  obtain ⟨w, among, content⟩ := later.waiting inEntry m.pc x isAt (Nat.le_refl _) parameter
    (v, place) (mem_of_getElem? (getElem?_zip_eq_some.mpr ⟨result, isPlace⟩))
  obtain ⟨k, isK⟩ := mem_iff_getElem?.mp among
  obtain ⟨isR, isW⟩ := getElem?_zip_eq_some.mp isK
  obtain ⟨isV, isL⟩ := getElem?_zip_eq_some.mp isR
  exact ⟨k, place, w, isPlace, isV, isL, isW, content⟩

def lateParameter : Graph :=
  { new "late parameter" .aarch64 with
    blocks := #[⟨[0, 1, 2, 3, 4], [], []⟩]
    instrs := #[
      { ofOpcode .parameter 0 .int64 with results := [0] },
      { ofOpcode .add 0 .int64 with inputs := [0, 0], results := [1] },
      { ofOpcode .parameter 0 .int64 with results := [2] },
      { ofOpcode (.call 7) 0 .int64 with inputs := [1, 2], results := [3] },
      { ofOpcode .ret 0 .int64 with inputs := [3] }]
    values := #[⟨0, .int64⟩, ⟨1, .int64⟩, ⟨2, .int64⟩, ⟨3, .int64⟩] }

theorem lateParameter_survives :
    ∃ a summary start, lateParameter.allocate { Options.default with ints := some (.first 2) } =
        .ok (a, .ok summary) ∧ Machine.start a [5, 9] .locations = .ok start ∧
      ∀ m, Machine.Reaches a start m → m.block = a.entry → ∀ x, a.At a.entry m.pc x →
        x.opcode = .parameter → x.results = [2] →
          ∃ place, x.resultLocations[0]? = some place ∧ m.content a place = some 9 := by
  obtain ⟨a, summary, allocated, checked⟩ := allocates_of (g := lateParameter)
    (o := { Options.default with ints := some (.first 2) })
    (fun a => decide (a.parameters = .ok [0, 2])) (by decide +kernel)
  have single : lateParameter.SingleEdges := singleEdges_of_each (by decide +kernel)
  obtain ⟨params, types, cc, parameters, -, -, runs⟩ := parameters_survive
    (g := lateParameter) ⟨by decide +kernel, by decide +kernel⟩ (by decide +kernel) single
    ((parametersFirst_iff rfl).mpr (by decide +kernel)) (by unfold Grouped; decide +kernel)
    allocated
  obtain rfl := Except.ok.inj (parameters.symm.trans (of_decide_eq_true checked))
  obtain ⟨start, starts, survives⟩ := runs [5, 9] rfl
  refine ⟨a, summary, start, allocated, starts, fun m reached inEntry x isAt parameter result => ?_⟩
  obtain ⟨k, place, w, isPlace, isV, -, isW, content⟩ :=
    survives m reached inEntry x isAt parameter 0 2 (by simp [result])
  refine ⟨place, isPlace, content.trans ?_⟩
  match k with
  | 0 => simp at isV
  | 1 => exact isW.symm
  | k + 2 => simp at isV

def earlyCall : Graph :=
  { new "early call" .aarch64 with
    blocks := #[⟨[0, 1, 2], [], []⟩]
    instrs := #[
      ofOpcode (.call 1) 0 .void,
      { ofOpcode .parameter 0 .int64 with results := [0] },
      { ofOpcode .ret 0 .int64 with inputs := [0] }]
    values := #[⟨1, .int64⟩] }

def losesParameter (a : Graph) : Bool :=
  match Machine.start a [5] .locations with
  | .ok start => match start.step a with
    | .ok (.running m) => decide (start.content a (.register 0) = some 5 ∧ m.block = a.entry ∧
      (∃ B ∈ a.blocks[a.entry]?, ∃ i ∈ B.instrs[m.pc]?, ∃ x ∈ a.instrs[i]?,
        x.opcode = .parameter ∧ x.resultLocations = [.register 0]) ∧
      m.content a (.register 0) = none)
    | _ => false
  | _ => false

/-- A call destroys the register in which a parameter behind it arrives: its argument is lost. -/
theorem early_call_loses_parameter :
    earlyCall.Consistent ∧ earlyCall.validate = .ok () ∧
      (∀ pc x, earlyCall.At earlyCall.entry pc x → x.isPhi = false) ∧ earlyCall.SingleEdges ∧
      ∃ a summary start m, earlyCall.allocate .default = .ok (a, .ok summary) ∧
        Machine.start a [5] .locations = .ok start ∧
        start.content a (.register 0) = some 5 ∧ start.step a = .ok (.running m) ∧
        m.block = a.entry ∧ (∃ x, a.At a.entry m.pc x ∧ x.opcode = .parameter ∧
          x.resultLocations = [.register 0]) ∧ m.content a (.register 0) = none := by
  obtain ⟨a, summary, allocated, checked⟩ := allocates_of (g := earlyCall) (o := .default)
    losesParameter (by decide +kernel)
  refine ⟨⟨by decide +kernel, by decide +kernel⟩, by decide +kernel,
    (forall_at_iff rfl).mpr (by decide +kernel),
    singleEdges_of_each (by decide +kernel), a, summary, ?_⟩
  unfold losesParameter at checked
  split at checked
  · rename_i start starts
    split at checked
    · rename_i m stepped
      obtain ⟨before, block, ⟨B, stored, i, listed, x, found, isX⟩, after⟩ :=
        of_decide_eq_true checked
      exact ⟨start, m, allocated, starts, before, stepped, block,
        ⟨x, ⟨B, i, stored, listed, found⟩, isX⟩, after⟩
    · cases checked
  · cases checked

end Graph

end RegisterAllocation
