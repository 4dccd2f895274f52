import RegisterAllocation.Proofs.Discipline
import RegisterAllocation.Proofs.Inlay
import RegisterAllocation.Proofs.Progress
import RegisterAllocation.Proofs.Soundness

/-!
Allocation preserves what programs do. The allocated program expands the program, its parameters are
in place until they are defined, and verification has found no defect, so it ends as the program
does.
-/

namespace RegisterAllocation

open List Option CallingConvention Graph Instr Interval Location MoveGroup Placement Scan Target

namespace Scan

variable {params : List ValueId} {places : List Location} {v : ValueId}

theorem find_of_mem (member : v ∈ params) (length : params.length = places.length) :
    ∃ place, Arrivals.find? (params.zip places) v = some place := by
  rw [Arrivals.find?]
  have among : v ∈ ((params.zip places).reverse).map Prod.fst := by
    rw [map_reverse, mem_reverse, map_fst_zip (Nat.le_of_eq length)]
    exact member
  cases isAt : (params.zip places).reverse.lookup v with
  | some place => exact ⟨place, rfl⟩
  | none =>
    rw [lookup_eq_none_iff] at isAt
    obtain ⟨e, isIn, rfl⟩ := mem_map.mp among
    simpa using isAt e isIn

end Scan

namespace Liveness

variable {g : Graph} {tree : DominatorTree} {sets : LiveSets} {l₀ l : Liveness} {o : Options}
  {f : Frame} {d : InstrId} {x : Instr} {v w : ValueId} {q : Position} {id k : IntervalId}
  {m j : Interval}

structure ParamInterval (l : Liveness) (v : ValueId) (q : Position) (id : IntervalId) (m : Interval) :
    Prop where
  known : l.intervalOf? v = some id
  found : l.pool.intervals[id]? = some m
  own : m.value = some v
  isRoot : m.root = id
  covers : m.covers q = true
  held : m.location.isAnyRegister = true → ∀ p ≤ q, m.covers p = true

structure ScanResult (g : Graph) (o : Options) (l₀ l : Liveness) (f : Frame) (cc : CallingConvention)
    (params : List ValueId) (types : List ValueType) : Prop where
  parameters : g.parameters = .ok params
  isTypes : g.typesOf params = .ok types
  same : l = { l₀ with pool := l.pool }
  numParams : f.numParams = cc.numStackParams types
  located : Located g o cc (params.zip (cc.paramLocations types)) l f
  scanned : Scanned g l₀ o (params.zip (cc.paramLocations types)) l.pool f
  served : l₀.pool.Served l.pool

variable {cc : CallingConvention} {params : List ValueId} {types : List ValueType}

theorem scan_result (given : g.Accepted tree l₀.numbering.order)
    (analysed : Analysed g g.target tree sets l₀) (run : l₀.scan g g.target o = .ok (l, f)) :
    ∃ cc params types, ScanResult g o l₀ l f cc params types := by
  obtain ⟨cc, params, types, parameters, isTypes, same, numParams, located⟩ :=
    scan_locates_parameters given analysed run
  obtain ⟨cc', params', types', convention, parameters', isTypes', -, scanned⟩ :=
    scan_ok given analysed run
  obtain rfl := mem_unique located.convention convention
  obtain rfl := Except.ok.inj (parameters.symm.trans parameters')
  obtain rfl := Except.ok.inj (isTypes.symm.trans isTypes')
  exact ⟨cc, params, types, parameters, isTypes, same, numParams, located, scanned,
    (scan_serving given analysed run).2.1⟩

variable (housed : ScanResult g o l₀ l f cc params types)

include housed

theorem ScanResult.exists_interval
    (given : g.Accepted tree l₀.numbering.order) (analysed : Analysed g g.target tree sets l₀)
    (found : g.instrs[d]? = some x) (parameter : x.opcode = .parameter) (result : v ∈ x.results)
    (isAt : l.numbering.numberOf? d = some q) :
    ∃ id m, ParamInterval l v q id m ∧
      Scan.Arrivals.find? (params.zip (cc.paramLocations types)) v = some m.location := by
  have isAt₀ : l₀.numbering.numberOf? d = some q := by rwa [housed.same] at isAt
  obtain ⟨E, pc, stored, listed, valid⟩ := given.instr_valid found
  have isEntry := valid.early parameter
  have member : v ∈ params := mem_parameters_of_at housed.parameters
    ⟨E, d, isEntry ▸ stored, listed, found⟩ parameter result
  have length : params.length = (cc.paramLocations types).length := by
    rw [length_paramLocations]
    exact (mapM_ok.mp housed.isTypes).length_eq
  obtain ⟨place, isArrival⟩ := Scan.find_of_mem member length
  obtain ⟨id, known⟩ := analysed.rooted d x found v result
  obtain ⟨i, ty, d', x', p, foundI, -, -, -, -, -, -, made⟩ := analysed.has_root given known
  obtain ⟨-, start⟩ := analysed.start_eq given known foundI found result isAt₀
  have own : i.value = some v := by rw [made]; rfl
  obtain ⟨m, foundM, -, isPlace, ownM, covers, held⟩ :=
    (housed.scanned.settled i.regClass).arrived id i v place foundI
      ⟨by rw [made]; rfl, rfl⟩ own isArrival
  have knownL : l.intervalOf? v = some id := by rw [housed.same]; exact known
  obtain ⟨m', foundM', -, isRoot⟩ := housed.located.root v id knownL
  obtain rfl := mem_unique foundM foundM'
  rw [start] at covers held
  exact ⟨id, m, ⟨knownL, foundM, ownM, isRoot, covers, fun register =>
    (held (isPlace ▸ register)).2⟩, isPlace.symm ▸ isArrival⟩

theorem ScanResult.location_ne (home : ParamInterval l v q id m)
    (isArrival : Scan.Arrivals.find? (params.zip (cc.paramLocations types)) v = some m.location)
    (found : l.pool.intervals[k]? = some j) (own : j.value = some w) (other : k ≠ id)
    (early : j.start < q) : j.location ≠ m.location := by
  intro same
  have tidy := housed.located.tidy
  have fits : cc.FitsTarget g.target := fits_target housed.located.convention
  have once : ∀ v w place,
      Scan.Arrivals.find? (params.zip (cc.paramLocations types)) v = some place →
      Scan.Arrivals.find? (params.zip (cc.paramLocations types)) w = some place → v = w :=
    fun v w place => arrivals_once (assign_nodup fits.once fits.fpOnce)
  have virtual : ∀ {k : IntervalId} {i : Interval} {v : ValueId}, l.pool.intervals[k]? = some i →
      i.value = some v → i.physical = false := by
    intro k i v found own
    rw [(tidy.fit k i found).kind, own]
    rfl
  have fit := tidy.fit k j found
  by_cases sibling : w = v
  · subst sibling
    have := tidy.root_stop_le other.symm home.found found home.own own home.isRoot
    have := lt_stop (tidy.fit id m home.found).sorted home.covers
    lia
  rcases housed.located.arrival v _ isArrival with ⟨register, isParam⟩ | ⟨n, -, isStack⟩
  · have covers := covers_start fit.sorted (fit.filled (virtual found own))
    have shared := housed.scanned.immediate_or_zero once other found home.found (virtual found own)
      (virtual home.found home.own) same.symm covers
      (home.held register _ (Nat.le_of_lt early))
    rw [same] at shared
    rcases isParamRegister_cases isParam with ⟨r, member, isReg⟩ | ⟨r, -, isReg⟩ <;>
      rw [isReg] at shared
    · have := (fits.regs r member).2
      simp [Location.register, Location.isImmediate, isZeroReg, this] at shared
    · simp [fpRegister, Location.isImmediate, isZeroReg,
        isRegister] at shared
  · -- only a value that arrives on the stack is kept there
    rw [isStack] at same
    refine sibling (once w v (.stackParameter n) ?_ (isStack ▸ isArrival))
    rcases (housed.located.place k j w found own).2 with suits | arrives
    · rw [same] at suits
      cases suits with
      | register cls inClass => cases cls <;> cases inClass
      | zero isZero isReg => cases isReg
      | memory keeps =>
        rcases keeps with ⟨k, isSlot, -⟩ | ⟨k, c, isImmediate, -⟩ | ⟨-, isArrival⟩
        · cases isSlot
        · cases isImmediate
        · exact isArrival
    · exact same ▸ arrives.isArrival

theorem ScanResult.start_le
    (given : g.Accepted tree l₀.numbering.order) (analysed : Analysed g g.target tree sets l₀)
    (found : g.instrs[d]? = some x) (result : v ∈ x.results)
    (isAt : l.numbering.numberOf? d = some q) (known : l.intervalOf? v = some id)
    (foundM : l.pool.intervals[id]? = some m) : m.value = some v ∧ m.start ≤ q := by
  have isAt₀ : l₀.numbering.numberOf? d = some q := by rwa [housed.same] at isAt
  have known₀ : l₀.intervalOf? v = some id := by rwa [housed.same] at known
  obtain ⟨i, ty, d', x', p, foundI, -, -, -, -, filled, -, made⟩ := analysed.has_root given known₀
  obtain ⟨-, start⟩ := analysed.start_eq given known₀ foundI found result isAt₀
  have own : i.value = some v := by rw [made]; rfl
  obtain ⟨m', foundM', ownM, isRoot⟩ := housed.located.root v id known
  obtain rfl := mem_unique foundM foundM'
  refine ⟨ownM, ?_⟩
  have tidy := housed.located.tidy
  have covers : i.covers q = true := by
    rw [← start]
    exact covers_start ((analysed.pool_tidy given fun _ => True).fit id i foundI).sorted filled
  obtain ⟨k, j, foundJ, ownJ, coversJ⟩ := housed.served.whole id i v q foundI own covers
  have le := Interval.start_le (tidy.fit k j foundJ).sorted coversJ
  by_cases first : id = k
  · subst first
    obtain rfl := mem_unique foundM foundJ
    exact le
  · have fit := tidy.fit id m foundM
    have := tidy.root_stop_le first foundM foundJ ownM ownJ isRoot
    have := fit.start_lt (by rw [fit.kind, ownM]; rfl)
    lia

end Liveness

namespace Graph

variable {g g' : Graph} {tree : DominatorTree} {sets : LiveSets} {l₀ l : Liveness} {o : Options}
  {f : Frame} {cc : CallingConvention} {params : List ValueId} {types : List ValueType}
  {b : BlockId} {d : InstrId} {x y : Instr} {s : Sites} {v : ValueId} {q : Position}
  {place : Location} {n : Nat}

section

variable (housed : Liveness.ScanResult g o l₀ l f cc params types)

include housed

theorem parameter_site (given : g.Accepted tree l₀.numbering.order)
    (analysed : Liveness.Analysed g g.target tree sets l₀) (found : g.instrs[d]? = some x)
    (parameter : x.opcode = .parameter) (isAt : l.numbering.numberOf? d = some q)
    (run : Placement.sites (g.setFrame f) l g.target d x = .ok s)
    (isPlace : s.results[n]? = some place) :
    ∃ v id m, x.results[n]? = some v ∧ Liveness.ParamInterval l v q id m ∧ m.location = place ∧
      Scan.Arrivals.find? (params.zip (cc.paramLocations types)) v = some place := by
  obtain ⟨-, -, -, results, -⟩ := sites_plain (by simp [isPhi, parameter])
    (by simp [isCall, parameter, Opcode.isCall]) run
  obtain ⟨v, result, isRoot⟩ := (mapM_getElem results n).2 place isPlace
  obtain ⟨id, m, home, isArrival⟩ :=
    housed.exists_interval given analysed found parameter (mem_of_getElem? result) isAt
  obtain ⟨id', i, known, foundI, rfl, -⟩ := rootLocation_ok isRoot
  obtain rfl := mem_unique home.known known
  obtain rfl := mem_unique home.found foundI
  exact ⟨v, id, m, result, home, rfl, isArrival⟩

theorem untouched_by_moves {id : IntervalId} {m : Interval} (home : Liveness.ParamInterval l v q id m)
    (isArrival : Scan.Arrivals.find? (params.zip (cc.paramLocations types)) v = some m.location)
    {group : MoveGroup} (precedes : Precedes l group q) {move : Move} (member : move ∈ group.moves) :
    move.dst ≠ m.location := by
  obtain ⟨id₁, k, i, j, w, foundI, foundJ, ownI, ownJ, ⟨meet, -, -, -⟩, isDst, early⟩ :=
    precedes.2 move member
  rw [isDst]
  refine housed.location_ne home isArrival foundJ ownJ ?_ early
  -- the second of two pieces is not the first interval of its value
  rintro rfl
  obtain rfl := mem_unique foundJ home.found
  have tidy := housed.located.tidy
  have fit := tidy.fit id₁ i foundI
  have nonempty := fit.start_lt (by rw [fit.kind, ownI]; rfl)
  have fitJ := tidy.fit k j foundJ
  have nonemptyJ := fitJ.start_lt (by rw [fitJ.kind, ownJ]; rfl)
  have distinct : k ≠ id₁ := by
    rintro rfl
    obtain rfl := mem_unique foundI foundJ
    lia
  have := tidy.root_stop_le distinct foundJ foundI ownJ ownI home.isRoot
  lia

section

variable (given : g.Accepted tree l₀.numbering.order)
  (analysed : Liveness.Analysed g g.target tree sets l₀)

include given analysed

theorem untouched_by_results {id : IntervalId} {m : Interval}
    (home : Liveness.ParamInterval l v q id m)
    (isArrival : Scan.Arrivals.find? (params.zip (cc.paramLocations types)) v = some m.location)
    (found : g.instrs[d]? = some x) (plain : x.isPhi = false) (noCall : x.isCall = false)
    (other : v ∉ x.results) {p : Position} (isAt : l.numbering.numberOf? d = some p) (early : p < q)
    (run : Placement.sites (g.setFrame f) l g.target d x = .ok s) : m.location ∉ s.results := by
  intro member
  obtain ⟨-, -, -, results, -⟩ := sites_plain plain noCall run
  obtain ⟨w, result, isRoot⟩ := mapM_mem_result results member
  obtain ⟨k, j, known, foundJ, isPlace, -⟩ := rootLocation_ok isRoot
  obtain ⟨ownJ, le⟩ := housed.start_le given analysed found result isAt known foundJ
  refine housed.location_ne home isArrival foundJ ownJ ?_ (by lia) isPlace
  rintro rfl
  obtain rfl := mem_unique foundJ home.found
  obtain rfl := mem_unique ownJ home.own
  exact other result

theorem spared_by_instr (first : g.ParametersFirst)
    {B : Block} {before after : List InstrId} {e : InstrId} {id : IntervalId} {m : Interval}
    (home : Liveness.ParamInterval l v q id m)
    (isArrival : Scan.Arrivals.find? (params.zip (cc.paramLocations types)) v = some m.location)
    (stored : g.blocks[b]? = some B) (split : B.instrs = before ++ e :: after) (behind : d ∈ after)
    (found : g.instrs[e]? = some x) (foundD : g.instrs[d]? = some y)
    (parameter : y.opcode = .parameter) (result : v ∈ y.results)
    (isAt : l.numbering.numberOf? d = some q)
    (run : Placement.sites (g.setFrame f) l g.target e x = .ok s) :
    overwrites g.target
      { x with inputLocations := s.inputs, resultLocations := s.results, group := none }
      m.location = false := by
  have noCall : x.isCall = false := by
    by_contra call
    exact first.not_behind given stored split found (by simpa using call) behind foundD parameter
  refine overwrites_eq_false.mpr ⟨fun writes => ?_, fun clobbers => ?_⟩
  swap
  · exact absurd clobbers.1 (by simpa [isCall] using noCall)
  -- phis and parameters write nothing
  obtain ⟨⟨notPhi, computed⟩, among⟩ :
      (¬x.opcode = .phi ∧ ¬x.opcode = .parameter) ∧ m.location ∈ s.results := by
    simpa [written, isPhi] using writes
  have plain : x.isPhi = false := by simp [isPhi, notPhi]
  obtain ⟨p, isP, -⟩ := sites_plain plain noCall run
  have other : v ∉ x.results := by
    intro own
    obtain rfl := owner_of_nodup given.valid.results found foundD own result
    obtain rfl := mem_unique found foundD
    exact computed parameter
  have numbered : l.numbering.Numbered g := by rw [housed.same]; exact analysed.numbered
  have order : l.numbering.order = l₀.numbering.order := by rw [housed.same]
  have reached : b ∈ l.numbering.order := order ▸ given.valid.complete b B stored
  obtain ⟨r, range, -⟩ := numbered.range b reached
  have early : p < q := numbered.number_lt reached stored range split (by rw [phiAt_eq found, plain])
    behind (by rw [phiAt_eq foundD]; simp [isPhi, parameter]) isP isAt
  exact untouched_by_results housed given analysed home isArrival found plain noCall other isP early
    run among

end

theorem spared_by_group {id : IntervalId} {m : Interval} (home : Liveness.ParamInterval l v q id m)
    (isArrival : Scan.Arrivals.find? (params.zip (cc.paramLocations types)) v = some m.location)
    (found : g.instrs[d]? = some x) (parameter : x.opcode = .parameter)
    (isAt : l.numbering.numberOf? d = some q) {sequence : MoveGroup}
    (due : DueInOrder (g.Spares l) g.target sequence d) :
    overwrites g.target (ofGroup b sequence) m.location = false := by
  refine overwrites_eq_false.mpr ⟨fun writes => ?_, fun clobbers => by cases clobbers.1⟩
  obtain ⟨move, isMove, isDst⟩ := mem_map.mp writes
  obtain ⟨group, inOrder, spares⟩ := due
  have precedes := spares x q found parameter isAt
  rcases inOrder with rfl | ⟨shape, inOrder⟩
  · exact untouched_by_moves housed home isArrival precedes isMove isDst
  · obtain ⟨rfl, -⟩ := sequence_ok inOrder
    rcases (order_within _ _ move isMove).2 with scratch | ⟨proper, among, same⟩
    · rw [isDst] at scratch
      exact (housed.located.lodges_each home.found home.own).not_scratch housed.located.convention
        scratch
    · exact untouched_by_moves housed home isArrival precedes (mem_proper.mp among).1
        (same.trans isDst)

theorem intact_parameters (given : g.Accepted tree l₀.numbering.order)
    (analysed : Liveness.Analysed g g.target tree sets l₀) (bare : g.Bare) (first : g.ParametersFirst)
    (annotated : Annotated g l f g')
    (inlaid : Inlaid g (DueInOrder (g.Spares l) g.target) g') {pc qc : Nat}
    (isAt : g'.At b pc x) (isAtY : g'.At b qc y) (before : pc < qc)
    (parameter : y.opcode = .parameter) (member : place ∈ y.resultLocations) :
    x.overwrites g'.target place = false := by
  have w := inlaid.woven
  have sameTarget : g'.target = g.target := congrArg ofArch w.arch
  obtain ⟨C, e, stored, listedE, foundX⟩ := isAt
  obtain ⟨C', d, stored', listedD, foundY⟩ := isAtY
  obtain rfl := mem_unique stored stored'
  obtain ⟨boundE, rfl⟩ := List.getElem?_eq_some_iff.mp listedE
  have split : C.instrs = C.instrs.take pc ++ C.instrs[pc] :: C.instrs.drop (pc + 1) := by
    rw [← drop_eq_getElem_cons boundE, take_append_drop]
  have behind : d ∈ C.instrs.drop (pc + 1) := by
    refine mem_iff_getElem?.mpr ⟨qc - (pc + 1), ?_⟩
    rw [getElem?_drop, show pc + 1 + (qc - (pc + 1)) = qc by omega, listedD]
  -- the parameter
  rcases annotated.instr_cases foundY with ⟨y₀, sY, _, foundY₀, isSitesY, rfl, -⟩ |
    ⟨_, _, _, _, rfl, -⟩
  swap
  · cases parameter
  have parameter : y₀.opcode = .parameter := parameter
  obtain ⟨q, isQ, -⟩ := sites_plain (x := y₀) (by simp [isPhi, parameter])
    (by simp [isCall, parameter, Opcode.isCall]) isSitesY
  obtain ⟨n, isPlace⟩ := mem_iff_getElem?.mp member
  obtain ⟨v, id, m, result, home, rfl, isArrival⟩ :=
    parameter_site housed given analysed foundY₀ parameter isQ isSitesY isPlace
  have old := found_lt foundY₀
  rw [sameTarget]
  -- what stands ahead of it
  rcases annotated.instr_cases foundX with ⟨x₀, sX, group, foundX₀, isSitesX, rfl, -⟩ |
    ⟨c, shape, _, sequence, rfl, -, -⟩
  · obtain ⟨-, B, storedB, splitB⟩ := w.split_old given.consistent stored split foundX₀
    obtain ⟨_, foundX', -, -, still⟩ := w.instr _ _ foundX₀
    obtain rfl := mem_unique foundX foundX'
    obtain rfl : group = none := still (bare _ _ foundX₀)
    exact spared_by_instr housed given analysed first home isArrival storedB splitB
      (mem_filter.mpr ⟨behind, by simpa using old⟩) foundX₀ foundY₀ parameter
      (mem_of_getElem? result) isQ isSitesX
  · exact spared_by_group housed home isArrival foundY₀ parameter isQ
      (inlaid.due b C _ _ _ _ sequence stored split foundX rfl d behind old)

end

theorem accepts_of_has {count : Nat} (has : g.Has place) (enough : g.numParams + g.numArgs = count) :
    (Machine.blank g .locations count).Accepts place := by
  refine accepts_of_hasPlace ?_ ?_ <;> obtain ⟨kind, index⟩ := place <;>
    cases kind <;> simp_all [Has, hasPlace, isInvalid]

section

variable (housed : Liveness.ScanResult g o l₀ l f cc params types)
  (given : g.Accepted tree l₀.numbering.order)
  (analysed : Liveness.Analysed g g.target tree sets l₀) (bare : g.Bare)
  (annotated : Annotated g l f g') (w : g.Woven g')

include housed given analysed bare annotated w

theorem has_of_written (isAt : g'.At b n y)
    (writes : place ∈ y.written) : g'.Has place := by
  have has : g'.Has = (g.setFrame f).Has := by rw [annotated.same]; rfl
  have numbering : l.numbering = l₀.numbering := by rw [housed.same]
  rw [← numbering] at given
  have numbered : l.numbering.Numbered g := numbering ▸ analysed.numbered
  obtain ⟨C, d, -, -, found⟩ := isAt
  rw [has]
  rcases annotated.instr_cases found with ⟨x, s, group, foundX, isSites, rfl, -⟩ |
    ⟨c, -, -, sequence, rfl, -⟩
  · obtain ⟨_, found', -, -, still⟩ := w.instr _ _ foundX
    obtain rfl := mem_unique found found'
    obtain rfl : group = none := still (bare _ _ foundX)
    refine sites_has given housed.located foundX isSites place (mem_append_right _ ?_)
    unfold written at writes
    split at writes
    · simp at *
    · split at writes
      · simp at writes
      · exact writes
  · obtain ⟨move, isMove, rfl⟩ := mem_map.mp writes
    exact (annotated.move_disciplined given bare numbered housed.located
      ⟨d, _, found, rfl, isMove⟩).2.1

theorem Annotated.to_ready (parameters : g'.parameters = .ok params) :
    g'.Ready params (cc.paramLocations types) := by
  refine ⟨parameters, ⟨types, cc, ?_, ?_, rfl⟩, fun pc y isAt parameter r among => ?_,
    fun b pc y place isAt writes => ?_⟩
  · rw [annotated.same]
    exact housed.isTypes
  · rw [annotated.same]
    exact housed.located.convention
  · obtain ⟨C, d, -, -, found⟩ := isAt
    rcases annotated.instr_cases found with ⟨x, s, _, foundX, isSites, rfl, -⟩ | ⟨_, _, _, _, rfl, -⟩
    swap
    · cases parameter
    have parameter : x.opcode = .parameter := parameter
    obtain ⟨q, isQ, -⟩ := sites_plain (x := x) (by simp [isPhi, parameter])
      (by simp [isCall, parameter, Opcode.isCall]) isSites
    obtain ⟨n, isAt⟩ := mem_iff_getElem?.mp among
    obtain ⟨isValue, isPlace⟩ := getElem?_zip_eq_some.mp isAt
    obtain ⟨v, id, m, result, home, -, isArrival⟩ :=
      parameter_site housed given analysed foundX parameter isQ isSites isPlace
    obtain rfl := mem_unique result isValue
    obtain ⟨k, isV, isL⟩ := find_arrival isArrival
    exact mem_of_getElem? (getElem?_zip_eq_some.mpr ⟨isV, isL⟩)
  · refine accepts_of_has (has_of_written housed given analysed bare annotated w isAt writes) ?_
    have numParams : g'.numParams = cc.numStackParams types := by
      rw [annotated.same]
      exact housed.numParams
    rw [numParams]
    rfl

end

theorem run_count {stage : Stage} {args : List Word} (parameters : g.parameters = .ok params)
    (different : params.length ≠ args.length) :
    g.run args stage = .error (.error (.argumentCount args.length params.length)) := by
  rcases Machine.start_cases parameters args stage with ⟨-, refused⟩ | ⟨count, -⟩
  · rw [run, refused]
    rfl
  · exact absurd count different

/-- Allocation preserves what programs do: a run of the allocated program on locations has the
result and the memory of the run of the program on values, in no fewer steps, or stops with the
same error. -/
theorem allocate_preserves_runs (consistent : g.Consistent) (valid : g.validate = .ok ())
    (noPhi : ∀ pc x, g.At g.entry pc x → x.isPhi = false) (single : g.SingleEdges)
    (first : g.ParametersFirst) (grouped : g.Grouped) (verify : o.verify = true) {summary : Summary}
    (allocated : g.allocate o = .ok (g', .ok summary)) (args : List Word) :
    (∀ r, g.run args .values = .ok r → ∃ r', g'.run args .locations = .ok r' ∧
      r'.result = r.result ∧ r'.memory = r.memory ∧ r.steps ≤ r'.steps) ∧
    ∀ e : RunError, g.run args .values = .error (.error e) →
      g'.run args .locations = .error (.error e) := by
  obtain ⟨tree, order, isValid⟩ := validate_ok valid
  have given : g.Accepted tree order := ⟨consistent, isValid⟩
  obtain ⟨l₀, l, f, h, insertions, h', k, analysed, scan, stages, verified⟩ :=
    allocate_stages given allocated
  obtain ⟨sets, analysed⟩ := Liveness.ofGraph_analysed given analysed
  obtain rfl : order = l₀.numbering.order :=
    Except.ok.inj (isValid.ordered.symm.trans analysed.numbered.ordered)
  obtain ⟨cc, params, types, housed⟩ := Liveness.scan_result given analysed scan
  have numbering : l.numbering = l₀.numbering := by rw [housed.same]
  have bare := given.bare_of_grouped grouped
  have annotated := stages.to_annotated housed.served
  have inlaid := stages.to_inlaid (numbering ▸ given) (numbering ▸ analysed.numbered) bare
    single first housed.served
  obtain ⟨blocks, known, solution⟩ := solution_of_clean (verified verify)
  have expands := inlaid.to_expands given
  have parameters := Machine.parameters_same expands solution housed.parameters
  have convention : g'.target.convention = some cc := by
    rw [annotated.same]
    exact housed.located.convention
  have setting : Setting g g' blocks known :=
    ⟨expands, inlaid.to_proper given bare fun pc qc x y isAt isAtY before parameter place =>
        intact_parameters housed given analysed bare first annotated inlaid isAt isAtY before
          parameter,
      solution, isValid.entry, cc, convention⟩
  have ready := annotated.to_ready housed given analysed bare inlaid.woven parameters
  have same := run_same_end args fun _ _ => ⟨blocks, known, params, _, setting, ready⟩
  refine ⟨same.result, fun e stops => ?_⟩
  rcases given.run_error noPhi housed.parameters stops with verdict | ⟨different, rfl⟩
  · exact same.verdict e verdict stops
  · exact run_count parameters different

def repeatedCall : Graph :=
  { new "repeated call" .aarch64 with
    blocks := #[⟨[0, 1, 2], [], [1]⟩, ⟨[3, 4, 5, 6, 7], [0, 1], [1, 2]⟩, ⟨[8], [1], []⟩]
    instrs := #[
      { ofOpcode .parameter 0 .int64 with results := [0] },
      { ofOpcode .parameter 0 .int64 with results := [1] },
      { ofOpcode (.constant 1) 0 .int64 with results := [2] },
      { ofOpcode .phi 1 .int64 with inputs := [0, 5], results := [3] },
      { ofOpcode .phi 1 .int64 with inputs := [1, 6], results := [4] },
      { ofOpcode .sub 1 .int64 with inputs := [3, 2], results := [5] },
      { ofOpcode (.call 7) 1 .int64 with inputs := [4, 5], results := [6] },
      { ofOpcode (.branch .gt) 1 .void with inputs := [5, 2] },
      { ofOpcode .ret 2 .int64 with inputs := [6] }]
    values := #[⟨0, .int64⟩, ⟨1, .int64⟩, ⟨2, .int64⟩, ⟨3, .int64⟩, ⟨4, .int64⟩, ⟨5, .int64⟩,
      ⟨6, .int64⟩] }

/-- With three registers the loop needs a slot, a block of its own for its moves and, as its phis
change places, the scratch register. -/
theorem repeatedCall_preserved :
    ∃ a summary r r', repeatedCall.allocate { Options.default with ints := some (.first 3) } =
        .ok (a, .ok summary) ∧
      a.blocks.size = 4 ∧ a.numSlots = 1 ∧
      repeatedCall.run [3, 5] .values = .ok r ∧ a.run [3, 5] .locations = .ok r' ∧
      r.result = some 220132 ∧ r'.result = r.result ∧ r'.memory = r.memory ∧ r.steps ≤ r'.steps ∧
      a.run [] .locations = .error (.error (.argumentCount 0 2)) := by
  obtain ⟨a, summary, allocated, checked⟩ := allocates_of (g := repeatedCall)
    (o := { Options.default with ints := some (.first 3) })
    (fun a => decide (a.blocks.size = 4 ∧ a.numSlots = 1)) (by decide +kernel)
  obtain ⟨blocks, slots⟩ := of_decide_eq_true checked
  have consistent : repeatedCall.Consistent := ⟨by decide +kernel, by decide +kernel⟩
  have noPhi : ∀ pc x, repeatedCall.At repeatedCall.entry pc x → x.isPhi = false :=
    (forall_at_iff rfl).mpr (by decide +kernel)
  have single : repeatedCall.SingleEdges := singleEdges_of_each (by decide +kernel)
  have first : repeatedCall.ParametersFirst := (parametersFirst_iff rfl).mpr (by decide +kernel)
  have grouped : repeatedCall.Grouped := by unfold Grouped; decide +kernel
  have preserved := allocate_preserves_runs consistent (by decide +kernel) noPhi single first grouped
    rfl allocated
  obtain ⟨r, ends, result⟩ : ∃ r, repeatedCall.run [3, 5] .values = .ok r ∧
      r.result = some 220132 := by
    have ends : (repeatedCall.run [3, 5] .values).map RunResult.result = .ok (some 220132) := by
      decide +kernel
    cases isRun : repeatedCall.run [3, 5] .values with
    | ok r => exact ⟨r, rfl, by simpa [isRun, Except.map] using ends⟩
    | error e => simp [isRun, Except.map] at ends
  obtain ⟨r', ends', same⟩ := (preserved [3, 5]).1 r ends
  exact ⟨a, summary, r, r', allocated, blocks, slots, ends, ends', result, same.1, same.2.1,
    same.2.2, (preserved []).2 _ (by decide +kernel)⟩

def hiddenMoves : Graph :=
  { new "hidden moves" .aarch64 with
    blocks := #[⟨[0, 1, 2], [], []⟩]
    instrs := #[
      { ofOpcode .parameter 0 .int64 with results := [0] },
      { ofOpcode (.call 1) 0 .void with group := some (.empty .splitMove) },
      { ofOpcode .ret 0 .int64 with inputs := [0] }]
    values := #[⟨0, .int64⟩] }

/-- Moves of an instruction that is not one of moves are lost: allocation adds to them what brings
the parameter back after the call, and verification believes them, but no run makes them. -/
theorem hidden_moves_are_lost :
    hiddenMoves.Consistent ∧ hiddenMoves.validate = .ok () ∧
      (∀ pc x, hiddenMoves.At hiddenMoves.entry pc x → x.isPhi = false) ∧
      hiddenMoves.SingleEdges ∧ hiddenMoves.ParametersFirst ∧
      (hiddenMoves.run [5] .values).map RunResult.result = .ok (some 5) ∧
      ∃ a summary, hiddenMoves.allocate { Options.default with ints := some (.first 1) } =
          .ok (a, .ok summary) ∧
        a.run [5] .locations = .error (.error (.uninitialized (.register 0) 0 4)) := by
  obtain ⟨a, summary, allocated, checked⟩ := allocates_of (g := hiddenMoves)
    (o := { Options.default with ints := some (.first 1) })
    (fun a => decide (a.run [5] .locations =
      .error (.error (.uninitialized (.register 0) 0 4)))) (by decide +kernel)
  exact ⟨⟨by decide +kernel, by decide +kernel⟩, by decide +kernel,
    (forall_at_iff rfl).mpr (by decide +kernel),
    singleEdges_of_each (by decide +kernel),
    (parametersFirst_iff rfl).mpr (by decide +kernel), by decide +kernel, a, summary, allocated,
    of_decide_eq_true checked⟩

end Graph

end RegisterAllocation
