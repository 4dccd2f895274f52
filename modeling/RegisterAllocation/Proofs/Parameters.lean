import RegisterAllocation.Proofs.Following

/-!
The start of a run. Arguments are passed in places that are all different and can be written, so at
the entry every parameter is where the calling convention puts it.
-/

namespace RegisterAllocation

open List CallingConvention Instr Location MoveGroup Target

namespace CallingConvention

variable {regs fpRegs : List Nat} {slot : Nat} {types : List ValueType} {l : Location}

theorem mem_assign (h : l ∈ assign regs fpRegs slot types) :
    (∃ r ∈ regs, l = .register r) ∨ (∃ r ∈ fpRegs, l = .fpRegister r) ∨
      ∃ k, l = .stackParameter k ∧ slot ≤ k ∧
        k < slot + ((assign regs fpRegs slot types).filter isStackParameter).length := by
  fun_induction assign regs fpRegs slot types with
  | case1 => simp at h
  | case2 regs slot ty rest float r fpRegs ih =>
    rcases mem_cons.mp h with rfl | h
    · exact .inr (.inl ⟨r, mem_cons_self, rfl⟩)
    rcases ih h with reg | ⟨s, member, rfl⟩ | stack
    · exact .inl reg
    · exact .inr (.inl ⟨s, mem_cons_of_mem r member, rfl⟩)
    · exact .inr (.inr stack)
  | case4 fpRegs slot ty rest int r regs ih =>
    rcases mem_cons.mp h with rfl | h
    · exact .inl ⟨r, mem_cons_self, rfl⟩
    rcases ih h with ⟨s, member, rfl⟩ | fp | stack
    · exact .inl ⟨s, mem_cons_of_mem r member, rfl⟩
    · exact .inr (.inl fp)
    · exact .inr (.inr stack)
  | case3 _ slot _ _ _ ih | case5 _ slot _ _ _ ih =>
    rw [filter_cons_of_pos (by rfl), length_cons]
    rcases mem_cons.mp h with rfl | h
    · exact .inr (.inr ⟨slot, rfl, Nat.le_refl _, by omega⟩)
    rcases ih h with reg | fp | ⟨k, rfl, low, high⟩
    · exact .inl reg
    · exact .inr (.inl fp)
    · exact .inr (.inr ⟨k, rfl, by omega, by omega⟩)

theorem assign_nodup (once : regs.Nodup) (fpOnce : fpRegs.Nodup) :
    (assign regs fpRegs slot types).Nodup := by
  fun_induction assign regs fpRegs slot types with
  | case1 => exact nodup_nil
  | case2 regs slot ty rest float r fpRegs ih =>
    rw [nodup_cons] at fpOnce
    refine nodup_cons.mpr ⟨fun member => ?_, ih once fpOnce.2⟩
    rcases mem_assign member with ⟨s, _, same⟩ | ⟨s, among, same⟩ | ⟨k, same, _⟩
    · simp [register, fpRegister] at same
    · obtain rfl : r = s := by simpa [fpRegister] using same
      exact fpOnce.1 among
    · simp [stackParameter, fpRegister] at same
  | case4 fpRegs slot ty rest int r regs ih =>
    rw [nodup_cons] at once
    refine nodup_cons.mpr ⟨fun member => ?_, ih once.2 fpOnce⟩
    rcases mem_assign member with ⟨s, among, same⟩ | ⟨s, _, same⟩ | ⟨k, same, _⟩
    · obtain rfl : r = s := by simpa [register] using same
      exact once.1 among
    · simp [register, fpRegister] at same
    · simp [stackParameter, register] at same
  | case3 _ slot _ _ _ ih | case5 _ slot _ _ _ ih =>
    refine nodup_cons.mpr ⟨fun member => ?_, ih (by assumption) (by assumption)⟩
    rcases mem_assign member with ⟨s, _, same⟩ | ⟨s, _, same⟩ | ⟨k, same, low, _⟩
    · simp [stackParameter, register] at same
    · simp [stackParameter, fpRegister] at same
    · obtain rfl : slot = k := by simpa [stackParameter] using same
      omega

structure FitsTarget (cc : CallingConvention) (t : Target) : Prop where
  once : cc.paramRegs.Nodup
  fpOnce : cc.fpParamRegs.Nodup
  regs : ∀ r ∈ cc.paramRegs, r < t.intRegs ∧ t.zeroReg ≠ some r
  fpRegs : ∀ r ∈ cc.fpParamRegs, r < t.floatRegs

theorem fits_target {arch : Arch} {cc : CallingConvention}
    (convention : (ofArch arch).convention = some cc) : cc.FitsTarget (.ofArch arch) := by
  cases arch with
  | none => simp [ofArch, unsupported] at convention
  | _ =>
    obtain rfl := Option.some.inj convention
    exact ⟨by decide, by decide, by decide, by decide⟩

end CallingConvention

theorem Machine.writes_hold {g : Graph} {m : Machine} {pairs : List (Location × Word)}
    (once : (pairs.map Prod.fst).Nodup)
    (ok : ∀ q ∈ pairs, m.Accepts q.1 ∧ isReadOnly m.target q.1 = false) :
    ∃ m', pairs.foldlM (fun m q => m.write q.1 q.2) m = .ok m' ∧ OnlyPlaces m m' ∧
      (∀ q ∈ pairs, m'.content g q.1 = some q.2) ∧
      ∀ l ∉ pairs.map Prod.fst, m'.content g l = m.content g l := by
  induction pairs generalizing m with
  | nil => exact ⟨m, rfl, .refl m, by simp, fun _ _ => rfl⟩
  | cons q rest ih =>
    obtain ⟨l, w⟩ := q
    obtain ⟨accepts, writable⟩ := ok (l, w) mem_cons_self
    obtain ⟨next, wrote⟩ := write_of_accepts accepts w
    obtain ⟨only, contents⟩ := write_effect wrote
    rw [map_cons, nodup_cons] at once
    obtain ⟨m', others, only', held, kept⟩ := ih once.2 fun q hq => by
      obtain ⟨accepts, writable⟩ := ok q (mem_cons_of_mem _ hq)
      exact ⟨only.accepts_kept accepts, by rw [only.target_eq]; exact writable⟩
    refine ⟨m', by rw [foldlM_cons, wrote, ok_bind, others], only.trans only', ?_, ?_⟩
    · intro q hq
      rcases mem_cons.mp hq with rfl | hq
      · rw [kept _ once.1, contents, if_pos ⟨rfl, writable⟩]
      · exact held q hq
    · intro j away
      rw [map_cons, mem_cons, not_or] at away
      rw [kept j away.2, contents, if_neg fun here => away.1 here.1]

namespace Graph

variable {p a : Graph} {params : List ValueId}

/-- The parameters among the instructions of an expansion are those among the instructions of the
program. -/
theorem parameters_among (expands : Expands p a) {listed : List InstrId} {xs : List Instr}
    (found : ∀ i ∈ listed, ∃ y, a.instrs[i]? = some y)
    (h : (a.withoutMoves listed).mapM p.instr = .ok xs) :
    ∃ ys, listed.mapM a.instr = .ok ys ∧
      (ys.filter (·.opcode == .parameter)).flatMap results =
        (xs.filter (·.opcode == .parameter)).flatMap results := by
  induction listed generalizing xs with
  | nil =>
    obtain rfl : [] = xs := by simpa [withoutMoves] using h
    exact ⟨[], rfl, rfl⟩
  | cons i rest ih =>
    obtain ⟨y, foundY⟩ := found i mem_cons_self
    have others : ∀ j ∈ rest, ∃ y, a.instrs[j]? = some y :=
      fun j hj => found j (mem_cons_of_mem i hj)
    have first : (i :: rest)[0]? = some i := rfl
    have step := withoutMoves_drop (g := a) first
    simp only [drop_zero, drop_succ_cons] at step
    by_cases moves : a.isMoves i = true
    · rw [step, if_pos moves] at h
      obtain ⟨ys, hys, same⟩ := ih others h
      refine ⟨y :: ys, by simp [mapM_cons, instr_ok.mpr foundY, hys], ?_⟩
      rw [isMoves_eq foundY] at moves
      simp only [isSpillFill, beq_iff_eq] at moves
      rw [filter_cons_of_neg (by simp [moves]), same]
    · rw [step, if_neg moves, mapM_cons, bind_ok] at h
      obtain ⟨x, foundX, h⟩ := h
      rw [bind_ok] at h
      obtain ⟨xs', hxs, h⟩ := h
      obtain rfl := pure_ok.mp h
      obtain ⟨ys, hys, same⟩ := ih others hxs
      refine ⟨y :: ys, by simp [mapM_cons, instr_ok.mpr foundY, hys], ?_⟩
      obtain ⟨y', foundY', code⟩ := expands.instr i x (instr_ok.mp foundX)
      obtain rfl : y = y' := by simpa [foundY] using foundY'
      simp only [filter_cons, code.opcode]
      split <;> simp [same, code.results]

theorem parameters_ok {g : Graph} (h : g.parameters = .ok params) :
    ∃ E instrs, g.blocks[g.entry]? = some E ∧ E.instrs.mapM g.instr = .ok instrs ∧
      params = (instrs.filter (·.opcode == .parameter)).flatMap results := by
  rw [parameters, bind_ok] at h
  obtain ⟨E, found, h⟩ := h
  rw [bind_ok] at h
  obtain ⟨instrs, listed, h⟩ := h
  exact ⟨E, instrs, block_ok.mp found, listed, (pure_ok.mp h).symm⟩

theorem mem_parameters {g : Graph} (h : g.parameters = .ok params) {v : ValueId}
    (member : v ∈ params) :
    ∃ pc y, g.At g.entry pc y ∧ y.opcode = .parameter ∧ v ∈ y.results := by
  obtain ⟨E, instrs, stored, listed, rfl⟩ := parameters_ok h
  obtain ⟨y, hy, result⟩ := mem_flatMap.mp member
  obtain ⟨hy, parameter⟩ := mem_filter.mp hy
  obtain ⟨i, hi, found⟩ := mapM_mem_result listed hy
  obtain ⟨pc, at_pc⟩ := mem_iff_getElem?.mp hi
  exact ⟨pc, y, ⟨E, i, stored, at_pc, instr_ok.mp found⟩, by simpa using parameter, result⟩

theorem parameters_nodup {g : Graph} (proper : g.Proper) (h : g.parameters = .ok params) :
    params.Nodup := by
  obtain ⟨E, instrs, stored, listed, rfl⟩ := parameters_ok h
  have all := mapM_ok.mp listed
  have place : ∀ (pc : Nat) (y : Instr), instrs[pc]? = some y → g.At g.entry pc y := by
    intro pc y hy
    obtain ⟨bound, rfl⟩ := List.getElem?_eq_some_iff.mp hy
    have bound' : pc < E.instrs.length := by rw [all.length_eq]; exact bound
    exact ⟨E, _, stored, getElem?_eq_getElem bound', instr_ok.mp (all.get bound' bound)⟩
  refine nodup_flatMap.mpr ⟨?_, ?_⟩
  · intro y hy
    obtain ⟨pc, hpc⟩ := mem_iff_getElem?.mp (mem_filter.mp hy).1
    obtain ⟨_, i, _, _, found⟩ := place pc y hpc
    exact proper.distinct i y found
  · refine List.Pairwise.filter _ (pairwise_iff_getElem.mpr ?_)
    intro j k hj hk less v vj vk
    have same := proper.def_unique (place j _ (getElem?_eq_getElem hj))
      (place k _ (getElem?_eq_getElem hk)) vj vk
    omega

structure Ready (a : Graph) (params : List ValueId) (places : List Location) : Prop where
  parameters : a.parameters = .ok params
  convention : ∃ types cc, a.typesOf params = .ok types ∧ a.target.convention = some cc ∧
    places = cc.paramLocations types
  placed : ∀ pc y, a.At a.entry pc y → y.opcode = .parameter →
    ∀ r ∈ y.results.zip y.resultLocations, r ∈ params.zip places
  room : ∀ b pc y l, a.At b pc y → l ∈ y.written →
    (Machine.blank a .locations
      ((places.filter isStackParameter).length + a.numArgs)).Accepts l

end Graph

namespace Machine

variable {g p a : Graph} {args : List Word} {params : List ValueId} {places : List Location}
  {m : Machine} {order : List BlockId} {known : BlockId → Nat → Knowledge}

theorem start_cases (parameters : g.parameters = .ok params) (args : List Word) (stage : Stage) :
    (params.length ≠ args.length ∧
      start g args stage = refuse (.argumentCount args.length params.length)) ∨
    (params.length = args.length ∧ start g args stage = match stage with
      | .values => (params.zip args).foldlM
        (fun m p => (liftM (m.setValue p.1 p.2) : Attempt RunError Machine)) (blank g .values 0)
      | .locations => do
        let types ← g.typesOf params
        match g.target.convention with
        | none => refuse (.noConvention g.arch)
        | some cc =>
          ((cc.paramLocations types).zip args).foldlM (fun m q => m.write q.1 q.2)
            (blank g .locations
              (((cc.paramLocations types).filter isStackParameter).length + g.numArgs))) := by
  unfold start
  rw [parameters]
  simp only [lift_of_ok, ok_bind]
  by_cases count : params.length ≠ args.length
  · exact .inl ⟨count, by rw [if_pos count]; rfl⟩
  · refine .inr ⟨not_not.mp count, ?_⟩
    refine (if_neg count).trans ?_
    cases stage <;> rfl

theorem blank_accepts {cc : CallingConvention} {types : List ValueType} {l : Location}
    (convention : g.target.convention = some cc) (member : l ∈ cc.paramLocations types) :
    (blank g .locations (((cc.paramLocations types).filter isStackParameter).length
      + g.numArgs)).Accepts l ∧ isReadOnly g.target l = false := by
  have fits : cc.FitsTarget g.target := CallingConvention.fits_target convention
  rcases CallingConvention.mem_assign member with ⟨r, among, rfl⟩ | ⟨r, among, rfl⟩ |
    ⟨k, rfl, -, high⟩
  · obtain ⟨inside, notZero⟩ := fits.regs r among
    refine ⟨.inr (.inr ⟨_, rfl, ?_⟩), ?_⟩
    · simpa [blank, targetFor, register] using inside
    · simpa [isReadOnly, isZeroReg, register, isImmediate,
        isInvalid, isRegister] using notZero
  · refine ⟨.inr (.inr ⟨_, rfl, ?_⟩), rfl⟩
    simpa [blank, targetFor, fpRegister] using fits.fpRegs r among
  · refine ⟨.inr (.inr ⟨_, rfl, ?_⟩), rfl⟩
    simp only [blank, stackParameter, Array.size_replicate]
    simp only [paramLocations]
    omega

theorem params_inside {vs : List ValueId} {size : Nat} (count : vs.length = args.length)
    (inside : ∀ q ∈ vs.zip args, q.1 < size) : ∀ v ∈ vs, v < size := by
  intro v hv
  obtain ⟨k, hk, rfl⟩ := getElem_of_mem hv
  refine inside (vs[k], args[k]) (mem_of_getElem? (i := k) ?_)
  exact getElem?_zip_eq_some.mpr
    ⟨getElem?_eq_getElem hk, getElem?_eq_getElem (by omega)⟩

theorem parameters_of_listed (expands : Graph.Expands p a)
    (listed : ∀ A, a.blocks[a.entry]? = some A → ∀ i ∈ A.instrs, ∃ y, a.instrs[i]? = some y)
    (h : p.parameters = .ok params) : a.parameters = .ok params := by
  obtain ⟨E, xs, stored, lookups, rfl⟩ := Graph.parameters_ok h
  obtain ⟨A, storedA, listing, -⟩ := expands.block _ E stored
  rw [← expands.entry] at storedA
  rw [← listing] at lookups
  obtain ⟨ys, hys, same⟩ := Graph.parameters_among expands (listed A storedA) lookups
  rw [Graph.parameters, Graph.block_ok.mpr storedA, ok_bind, hys, ok_bind, same]
  rfl

theorem parameters_same (expands : Graph.Expands p a) (solution : Verify.Solution a order known)
    (h : p.parameters = .ok params) : a.parameters = .ok params := by
  refine parameters_of_listed expands (fun A stored i listed => ?_) h
  obtain ⟨pc, at_pc⟩ := mem_iff_getElem?.mp listed
  obtain ⟨y, found, -⟩ := solution.step _ solution.ordered.entry A stored pc i at_pc
  exact ⟨y, found⟩

theorem start_places (ready : a.Ready params places) (count : params.length = args.length) :
    ∃ n, start a args .locations = .ok n ∧
      OnlyPlaces (blank a .locations
        ((places.filter isStackParameter).length + a.numArgs)) n ∧
      ∀ q ∈ places.zip args, n.content a q.1 = some q.2 := by
  obtain ⟨types, cc, typed, convention, rfl⟩ := ready.convention
  have length : params.length = (cc.paramLocations types).length := by
    rw [length_paramLocations]
    exact (mapM_ok.mp typed).length_eq
  have fits : cc.FitsTarget a.target := CallingConvention.fits_target convention
  have keys : ((cc.paramLocations types).zip args).map Prod.fst = cc.paramLocations types :=
    map_fst_zip (by omega)
  have once : (((cc.paramLocations types).zip args).map Prod.fst).Nodup := by
    rw [keys]
    exact CallingConvention.assign_nodup fits.once fits.fpOnce
  obtain ⟨n, wrote, only, held, -⟩ := writes_hold (g := a) (m := blank a .locations
      (((cc.paramLocations types).filter isStackParameter).length + a.numArgs))
    once fun q hq => blank_accepts convention (of_mem_zip hq).1
  refine ⟨n, ?_, only, held⟩
  rcases start_cases ready.parameters args .locations with ⟨different, _⟩ | ⟨_, same⟩
  · exact absurd count different
  · rw [same]
    simp only [typed, lift_of_ok, ok_bind, convention]
    exact wrote

theorem start_follows (set : Setting p a order known) (ready : a.Ready params places)
    (starts : start p args .values = .ok m) :
    ∃ n, start a args .locations = .ok n ∧ n.pc = 0 ∧ Simulates p a order known m n := by
  obtain ⟨params', found, -⟩ := bind_ok.mp starts
  rw [lift_ok] at found
  obtain rfl : params' = params := by
    simpa [parameters_same set.expands set.solution found] using ready.parameters
  have distinct := Graph.parameters_nodup set.proper ready.parameters
  -- the machine on values
  rcases start_cases found args .values with ⟨_, refused⟩ | ⟨count, same⟩
  · exact absurd (refused.symm.trans starts) refuse_ne_ok
  obtain ⟨inside, rfl⟩ := setValues_ok (same.symm.trans starts)
  have valuesInside := params_inside count inside
  have assigned := Bank.assign_zip_get count valuesInside
  have denoted := Bank.assign_zip count valuesInside distinct
  generalize Bank.assign (blank p .values 0).values (params'.zip args) = values
    at assigned denoted ⊢
  have defined : ∀ u w, values[u]? = some (some w) → u ∈ params' := by
    intro u w hu
    rcases assigned u with ⟨member, -⟩ | ⟨-, kept⟩
    · exact member
    · rw [hu] at kept
      simp [blank, Array.getElem?_replicate] at kept
  -- the machine on places
  obtain ⟨n, startsA, only, held⟩ := start_places ready count
  have entry : n.block = a.entry := by rw [only.same]; rfl
  have pc : n.pc = 0 := by rw [only.same]; rfl
  have target : n.target = a.target := only.target_eq
  have defining : ∀ u w, values[u]? = some (some w) →
      ∃ q y, a.At a.entry q y ∧ y.opcode = .parameter ∧ u ∈ y.results :=
    fun u w hu => Graph.mem_parameters ready.parameters (defined u w hu)
  refine ⟨n, startsA, pc, ⟨⟨?_, target, ?_, ?_, ?_, ?_⟩, rfl, ?_, ?_, ?_, ?_, ?_, ?_, ?_, ?_, ?_⟩⟩
  · rw [only.same]
    rfl
  · rw [entry]
    exact set.solution.ordered.entry
  · rw [only.same]
    exact Nat.zero_le _
  · rw [entry, pc, set.solution.start]
    exact .of_empty target
  · intro b qc y l hy writes
    exact only.accepts_kept (ready.room b qc y l hy writes)
  · exact entry.trans set.expands.entry
  · rw [only.same]
    rfl
  · rw [only.same]
    rfl
  · rw [only.same]
    rfl
  · exact Nat.zero_le _
  · intro A B storedA storedB
    rw [entry, set.expands.entry] at storedA
    obtain ⟨A', storedA', listing, -⟩ := set.expands.block p.entry B storedB
    obtain rfl : A = A' := by simpa [storedA] using storedA'
    rw [pc]
    exact ⟨Nat.zero_le _, listing⟩
  · intro v w c hv constant
    obtain ⟨q, y, ⟨_, i, _, _, stored⟩, parameter, result⟩ := defining v w hv
    rcases Opcode.constant_cases (set.proper.defines i y stored v result c constant) with
      opcode | ⟨opcode, -⟩ <;> simp [parameter] at opcode
  · intro u w hu
    obtain ⟨q, y, hy, parameter, result⟩ := defining u w hu
    refine ⟨fun b qc z hz _ computed uz => ?_, fun b qc z hz phi uz => ?_⟩
    · obtain ⟨-, -, rfl⟩ := set.proper.def_unique hy hz result uz
      exact absurd parameter computed
    · obtain ⟨-, -, rfl⟩ := set.proper.def_unique hy hz result uz
      simp [isPhi, parameter] at phi
  · intro _ q y hy _ parameter r hr
    obtain ⟨k, hk⟩ := mem_iff_getElem?.mp (ready.placed q y hy parameter r hr)
    obtain ⟨first, second⟩ := getElem?_zip_eq_some.mp hk
    obtain ⟨bound, first⟩ := List.getElem?_eq_some_iff.mp first
    have bound' : k < args.length := by omega
    refine ⟨args[k], ?_, ?_⟩
    · rw [← first]
      exact denoted.get bound bound'
    · refine held (r.2, args[k]) (mem_of_getElem? (i := k) ?_)
      exact getElem?_zip_eq_some.mpr ⟨second, getElem?_eq_getElem bound'⟩

end Machine

end RegisterAllocation
