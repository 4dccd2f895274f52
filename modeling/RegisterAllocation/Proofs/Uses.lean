import RegisterAllocation.Proofs.LiveRanges

/-!
The uses of a value. Every instruction that reads or computes a value leaves a use in the value's
interval while intervals are drawn up, and no use is taken away again.

Drawing up the intervals changes the uses of a value by adding some at the position of the instruction
at hand, and changes the table of registers by adding registers that calls destroy. So it is enough to
say of each step what it adds.
-/

namespace RegisterAllocation

open List Option Graph Instr Interval IntervalPool

def Use.request (u : Use) : Position × Bool := (u.pos, u.needsRegister)

namespace Instr

variable {g : Graph} {target : Target} {x : Instr} {pos : Position} {use : Use}

theorem request_inputUse {k : Nat} (plain : x.isPhi = false)
    (run : x.inputUse g target k pos = .ok use) : use.request = (pos, !x.isCall) := by
  rw [Use.request, pos_inputUse run]
  unfold inputUse at run
  cases isOp : x.opcode with
  | phi => simp [isPhi, isOp] at plain
  | call callee =>
    simp only [isOp] at run
    split at run
    · rw [← Except.ok.inj run, isCall, isOp]
      rfl
    · obtain ⟨_, -, rfl⟩ := by simpa only [bind_ok, pure_ok] using run
      rw [isCall, isOp]
      rfl
  | _ =>
    rw [isOp] at run
    rw [← Except.ok.inj run, isCall, isOp]
    rfl

def computes (x : Instr) : Bool :=
  match x.opcode with
  | .phi | .parameter | .constant _ | .nullPtr | .call _ => false
  | _ => true

theorem request_resultUse : (x.resultUse target pos).request = (pos, x.computes) := by
  unfold resultUse computes
  cases x.opcode <;> rfl

end Instr

def Target.Clobbers (target : Target) (place : Location) : Prop :=
  ∃ cc c reg, target.convention = some cc ∧ (cc.callerSaved c).contains reg = true ∧
    reg < target.numRegs c ∧ place = .registerFor reg (Liveness.Draft.fullType c)

namespace Graph

def requests (g : Graph) (n : Numbering) (v : ValueId) (i : InstrId) : List (Position × Bool) :=
  match g.instrs[i]?, n.numberOf? i with
  | some x, some pos => replicate (x.inputs.count v) (pos, !x.isCall) ++
      replicate (x.results.count v) (pos, x.computes)
  | _, _ => []

theorem flatMap_steps {α : Type} {g : Graph} {instrs : List InstrId} (f : InstrId → List α) :
    (g.steps instrs).flatMap f = instrs.flatMap fun i => if g.phiAt i then [] else f i := by
  induction instrs with
  | nil => rfl
  | cons i rest ih =>
    rw [steps] at ih ⊢
    cases phi : g.phiAt i <;> simp [phi, ih]

end Graph

namespace Liveness

namespace Draft

variable {g : Graph} {target : Target} {n : Numbering} {sets : LiveSets} {d d' d'' : Draft}
  {v w : ValueId} {start pos : Position} {adds more : ValueId → List (Position × Bool)}

def Distinct (d : Draft) : Prop :=
  ∀ (v w : ValueId) (id : IntervalId), d.roots[v]? = some (some id) →
    d.roots[w]? = some (some id) → v = w

structure Logs (target : Target) (adds : ValueId → List (Position × Bool)) (d d' : Draft) : Prop where
  roots : d'.roots = d.roots
  uses : ∀ (v : ValueId) (id : IntervalId) (i : Interval), d.roots[v]? = some (some id) →
    d.pool.intervals[id]? = some i → ∃ j, d'.pool.intervals[id]? = some j ∧
      (j.uses.map Use.request).Perm (adds v ++ i.uses.map Use.request)
  registers : ∀ place id, d'.registers.lookup place = some id →
    d.registers.lookup place = some id ∨ target.Clobbers place

namespace Logs

theorem refl : Logs target (fun _ => []) d d :=
  ⟨rfl, fun _ _ i _ found => ⟨i, found, .refl _⟩, fun _ _ known => .inl known⟩

theorem congr (logs : Logs target adds d d') (same : ∀ v, (adds v).Perm (more v)) :
    Logs target more d d' := by
  refine ⟨logs.roots, fun v id i known found => ?_, logs.registers⟩
  obtain ⟨j, found, uses⟩ := logs.uses v id i known found
  exact ⟨j, found, uses.trans ((same v).append_right _)⟩

theorem trans (first : Logs target adds d d') (second : Logs target more d' d'') :
    Logs target (fun v => more v ++ adds v) d d'' := by
  refine ⟨second.roots.trans first.roots, fun v id i known found => ?_, fun place id known => ?_⟩
  · obtain ⟨j, found, uses⟩ := first.uses v id i known found
    obtain ⟨k, found, uses'⟩ := second.uses v id j (first.roots ▸ known) found
    refine ⟨k, found, uses'.trans ?_⟩
    rw [append_assoc]
    exact uses.append_left _
  · rcases second.registers place id known with known | clobbers
    · exact first.registers place id known
    · exact .inr clobbers

theorem keeps_distinct (logs : Logs target adds d d') (distinct : Distinct d) : Distinct d' := by
  rw [Distinct, logs.roots]
  exact distinct

theorem of_modifyRoot (ps : List (Position × Bool)) {f : Interval → Except Fault Interval}
    (distinct : Distinct d)
    (change : ∀ i j, f i = .ok j → (j.uses.map Use.request).Perm (ps ++ i.uses.map Use.request))
    (run : d.modifyRoot w f = .ok d') : Logs target (fun v => if v = w then ps else []) d d' := by
  simp only [modifyRoot, bind_ok, root_ok, pure_ok] at run
  obtain ⟨id, known, pool, modified, rfl⟩ := run
  obtain ⟨i, j, found, isJ, rfl⟩ := modify_ok modified
  refine ⟨rfl, fun v k m knownV foundM => ?_, fun _ _ known => .inl known⟩
  by_cases here : v = w
  · subst here
    obtain rfl : id = k := by simpa [known] using knownV
    obtain rfl := mem_unique found foundM
    exact ⟨j, set_self found j, by simpa using change i j isJ⟩
  · have other : k ≠ id := fun same => here (distinct v w id (same ▸ knownV) known)
    exact ⟨m, by simpa [intervals_set found, other] using foundM, by simp [here]⟩

theorem of_modify {id : IntervalId} {pool : IntervalPool} {f : Interval → Except Fault Interval}
    (keeps : ∀ i j, f i = .ok j → j.uses = i.uses) (run : d.pool.modify id f = .ok pool) :
    Logs target (fun _ => []) d { d with pool } := by
  obtain ⟨i, j, found, isJ, rfl⟩ := modify_ok run
  refine ⟨rfl, fun v k m _ foundM => ?_, fun _ _ known => .inl known⟩
  obtain ⟨m', foundM', same⟩ := set_forth (R := fun i j => j.uses = i.uses) found
    (keeps i j isJ) (fun _ => rfl) foundM
  exact ⟨m', foundM', by simp [same]⟩

theorem of_addRegister {place : Location} {ty : ValueType} (clobbers : target.Clobbers place) :
    Logs target (fun _ => []) d { d with
      pool := (d.pool.addRegister place ty).2
      registers := (place, d.pool.size) :: d.registers } := by
  refine ⟨rfl, fun v k m _ foundM => ⟨m, ?_, .refl _⟩, fun other id known => ?_⟩
  · obtain ⟨inside, rfl⟩ := Array.getElem?_eq_some_iff.mp foundM
    simp [IntervalPool.addRegister, Array.getElem?_push, Nat.ne_of_lt inside]
  · by_cases here : other = place
    · exact .inr (here ▸ clobbers)
    · have differ : (other == place) = false := by simpa using here
      exact .inl (by simpa [lookup_cons, differ] using known)

theorem foldlM_key {β : Type} {r : Position × Bool} {op : Draft → β → Except Fault Draft}
    (key : β → ValueId) (step : ∀ x d d', Distinct d → op d x = .ok d' →
      Logs target (fun v => if v = key x then [r] else []) d d')
    {xs : List β} (distinct : Distinct d) (run : xs.foldlM op d = .ok d') :
    Logs target (fun v => replicate ((xs.map key).count v) r) d d' := by
  induction xs generalizing d with
  | nil =>
    obtain rfl : d = d' := by simpa using run
    exact refl
  | cons x rest ih =>
    obtain ⟨mid, head, run⟩ := foldlM_cons_ok.mp run
    have first := step x d mid distinct head
    refine (first.trans (ih (first.keeps_distinct distinct) run)).congr fun v => ?_
    by_cases here : v = key x
    · subst here
      simp [replicate_succ']
    · simp [here, Ne.symm here]

theorem foldlM_none {β : Type} {op : Draft → β → Except Fault Draft} {xs : List β}
    (step : ∀ x ∈ xs, ∀ d d', Distinct d → op d x = .ok d' → Logs target (fun _ => []) d d')
    (distinct : Distinct d) (run : xs.foldlM op d = .ok d') : Logs target (fun _ => []) d d' := by
  induction xs generalizing d with
  | nil =>
    obtain rfl : d = d' := by simpa using run
    exact refl
  | cons x rest ih =>
    obtain ⟨mid, head, run⟩ := foldlM_cons_ok.mp run
    have first := step x mem_cons_self d mid distinct head
    exact first.trans
      (ih (fun y member => step y (mem_cons_of_mem x member)) (first.keeps_distinct distinct) run)

theorem of_foldrM {β : Type} {op : β → Draft → Except Fault Draft}
    (adds : β → ValueId → List (Position × Bool))
    (step : ∀ x d d', Distinct d → op x d = .ok d' → Logs target (adds x) d d') {xs : List β}
    (distinct : Distinct d) (run : xs.foldrM op d = .ok d') :
    Logs target (fun v => xs.flatMap fun x => adds x v) d d' := by
  induction xs generalizing d' with
  | nil =>
    obtain rfl : d = d' := by simpa using run
    exact refl
  | cons x rest ih =>
    rw [foldrM_cons, bind_ok] at run
    obtain ⟨mid, others, run⟩ := run
    have first := ih others
    exact first.trans (step x mid d' (first.keeps_distinct distinct) run)

end Logs

section

variable {i : InstrId} {x : Instr}

theorem startAt_uses {i j : Interval} (run : i.startAt pos = .ok j) : j.uses = i.uses := by
  have added {q : Position} (run : i.addRange pos q = .ok j) : j.uses = i.uses := by
    obtain ⟨-, rfl⟩ := addRange_ok run
    rfl
  unfold startAt at run
  split at run
  · split at run
    · rw [← Except.ok.inj run]
    · obtain ⟨_, -, run⟩ := bind_ok.mp run
      exact added run
  · obtain ⟨_, -, run⟩ := bind_ok.mp run
    exact added run

theorem perm_insert (u : Use) (us : List Use) : (Use.insert u us).Perm (u :: us) := by
  induction us with
  | nil => exact .refl _
  | cons w rest ih =>
    unfold Use.insert
    split
    · exact .refl _
    · exact (ih.cons w).trans (.swap u w rest)

theorem addUse_requests {j : Interval} {u : Use} :
    ((j.addUse u).uses.map Use.request).Perm ([u.request] ++ j.uses.map Use.request) :=
  (perm_insert u j.uses).map Use.request

theorem addResult_logs (distinct : Distinct d) (run : addResult target x pos d w = .ok d') :
    Logs target (fun v => if v = w then [(pos, x.computes)] else []) d d' := by
  refine .of_modifyRoot [_] distinct (fun i j change => ?_) run
  simp only [bind_ok, pure_ok] at change
  obtain ⟨mid, started, rfl⟩ := change
  have added := addUse_requests (j := mid) (u := x.resultUse target pos)
  rwa [startAt_uses started, request_resultUse] at added

theorem addInput_change {i j : Interval} {use : Use} (change : (do
      let i ← if start < pos then i.addRange start pos else pure i
      return i.addUse use) = .ok j) : ∃ mid : Interval, mid.uses = i.uses ∧ j = mid.addUse use := by
  split at change
  · simp only [bind_ok, pure_ok] at change
    obtain ⟨mid, added, rfl⟩ := change
    obtain ⟨-, rfl⟩ := addRange_ok added
    exact ⟨{ i with ranges := Range.insert ⟨start, pos⟩ i.ranges }, rfl, rfl⟩
  · simp only [bind_ok, pure_ok, exists_eq_left'] at change
    exact ⟨i, rfl, change.symm⟩

theorem addInput_logs {operand : ValueId × Nat} (plain : x.isPhi = false) (distinct : Distinct d)
    (run : addInput g target start x pos d operand = .ok d') :
    Logs target (fun v => if v = operand.1 then [(pos, !x.isCall)] else []) d d' := by
  simp only [addInput, bind_ok] at run
  obtain ⟨use, isUse, run⟩ := run
  refine .of_modifyRoot [_] distinct (fun i j change => ?_) run
  obtain ⟨mid, same, rfl⟩ := addInput_change change
  have added := addUse_requests (j := mid) (u := use)
  rwa [same, request_inputUse plain isUse] at added

theorem blockRegister_logs {cc : CallingConvention} {c : RegisterClass} {reg : Nat}
    (isCC : target.convention = some cc) (saved : (cc.callerSaved c).contains reg = true)
    (inside : reg < target.numRegs c)
    (run : blockRegister pos (fullType c) d reg = .ok d') :
    Logs target (fun _ => []) d d' := by
  have keeps : ∀ i j : Interval, i.addRange pos (pos + 1) = .ok j → j.uses = i.uses := by
    intro i j added
    obtain ⟨-, rfl⟩ := addRange_ok added
    rfl
  unfold blockRegister at run
  dsimp only at run
  split at run
  · simp only [bind_ok, pure_ok] at run
    obtain ⟨pool, modified, rfl⟩ := run
    exact .of_modify keeps modified
  · simp only [bind_ok, pure_ok] at run
    obtain ⟨pool, modified, rfl⟩ := run
    exact (Logs.of_addRegister ⟨cc, c, reg, isCC, saved, inside, rfl⟩).trans
      (.of_modify keeps modified)

theorem addInstr_logs (distinct : Distinct d)
    (run : addInstr g target n start i d = .ok d') :
    Logs target (fun v => if g.phiAt i then [] else g.requests n v i) d d' := by
  simp only [addInstr, bind_ok, instr_ok] at run
  obtain ⟨x, found, run⟩ := run
  rw [phiAt_eq found]
  cases phi : x.isPhi with
  | true =>
    simp only [phi, ↓reduceIte] at run
    refine .foldlM_none (fun v _ d d' distinct step => ?_) distinct run
    refine (Logs.of_modifyRoot [] distinct (fun i j started => ?_) step).congr (by simp)
    simp [startAt_uses started]
  | false =>
    simp only [phi, Bool.false_eq_true, ↓reduceIte, bind_ok, need_eq_ok] at run
    obtain ⟨pos, isAt, d₁, results, d₂, inputs, run⟩ := run
    have first := Logs.foldlM_key (fun v : ValueId => v)
      (fun v d d' distinct step => addResult_logs distinct step) distinct results
    have second := Logs.foldlM_key Prod.fst
      (fun operand d d' distinct step => addInput_logs phi distinct step)
      (first.keeps_distinct distinct) inputs
    have last : Logs target (fun _ => []) d₂ d' := by
      split at run
      · rename_i cc isCC
        refine .foldlM_none (fun c _ d d' distinct step => ?_)
          (second.keeps_distinct (first.keeps_distinct distinct)) run
        refine .foldlM_none (fun reg member d d' distinct step => ?_) distinct step
        simp only [mem_filter, RegisterSet.mem_toList, decide_eq_true_eq] at member
        exact blockRegister_logs isCC member.1 member.2 step
      · obtain rfl := pure_ok.mp run
        exact .refl
    refine ((first.trans second).trans last).congr fun v => ?_
    simp [Graph.requests, found, isAt]

theorem addBlock_logs {b : BlockId} (distinct : Distinct d)
    (run : addBlock g target n sets b d = .ok d') :
    Logs target (fun v => (g.body b).flatMap (g.requests n v)) d d' := by
  simp only [addBlock, bind_ok, need_eq_ok, block_ok] at run
  obtain ⟨r, -, out, -, mid, outs, B, stored, run⟩ := run
  have ranges : Logs target (fun _ => []) d mid := by
    refine .foldlM_none (fun v _ d d' distinct step => ?_) distinct outs
    refine (Logs.of_modifyRoot [] distinct (fun i j added => ?_) step).congr (by simp)
    obtain ⟨-, rfl⟩ := addRange_ok added
    exact .refl _
  have instrs := Logs.of_foldrM _ (fun i d d' distinct step => addInstr_logs distinct step)
    (ranges.keeps_distinct distinct) run
  refine (ranges.trans instrs).congr fun v => ?_
  rw [append_nil, body_eq stored, Graph.flatMap_steps]

def Unused (d : Draft) : Prop :=
  ∀ (id : IntervalId) (i : Interval), d.pool.intervals[id]? = some i → i.uses = []

theorem ofGraph_unused {order : List BlockId} (run : ofGraph g order = .ok d) :
    Unused d := by
  simp only [ofGraph, bind_ok] at run
  obtain ⟨Bs, -, run⟩ := run
  refine foldlM_ok (P := Unused) (fun i _ d d' unused step => ?_) run
    (by simp [Unused, empty])
  simp only [bind_ok] at step
  obtain ⟨x, -, step⟩ := step
  refine foldlM_ok (P := Unused) (fun v _ d d' unused step => ?_) step unused
  simp only [addValue, bind_ok, pure_ok, IntervalPool.addValue] at step
  obtain ⟨ty, -, rfl⟩ := step
  intro id j found
  rw [Array.getElem?_push] at found
  split at found
  · rw [← some.inj found]
    rfl
  · exact unused id j found

theorem Fits.to_distinct {covered : ValueId → Position → Prop} (fits : Fits g n covered d) :
    Distinct d := by
  intro v w id knownV knownW
  obtain ⟨i, found, first⟩ := fits.first v id knownV
  obtain ⟨i', found', second⟩ := fits.first w id knownW
  obtain rfl := mem_unique found found'
  exact mem_unique first.value_eq second.value_eq

end

end Draft

section

variable {g : Graph} {target : Target} {tree : DominatorTree} {sets : LiveSets} {l : Liveness}
  {v : ValueId} {id : IntervalId} {i : Interval} {d : InstrId} {x : Instr} {p : Position}

theorem requests_perm (given : g.Accepted tree l.numbering.order) (run : ofGraph g target = .ok l)
    (known : l.intervalOf? v = some id) (found : l.pool.intervals[id]? = some i) :
    (i.uses.map Use.request).Perm
      (l.numbering.order.flatMap fun b => (g.body b).flatMap (g.requests l.numbering v)) := by
  simp only [ofGraph, bind_ok, pure_ok] at run
  obtain ⟨n, -, sets, -, start, blank, last, drawn, rfl⟩ := run
  have fits := (Draft.ofGraph_blank given blank).fits
  have logs := Draft.Logs.of_foldrM _ (fun b d d' distinct step => Draft.addBlock_logs distinct step)
    fits.to_distinct drawn
  have isRoot : start.roots[v]? = some (some id) := logs.roots ▸ join_eq_some_iff.mp known
  obtain ⟨j, foundJ, -⟩ := fits.first v id isRoot
  obtain ⟨i', found', uses⟩ := logs.uses v id j isRoot foundJ
  obtain rfl := mem_unique found found'
  simpa [Draft.ofGraph_unused blank id j foundJ] using uses

theorem wanted_use (given : g.Accepted tree l.numbering.order) (run : ofGraph g target = .ok l)
    (found : g.instrs[d]? = some x) (isAt : l.numbering.numberOf? d = some p)
    (plain : x.isPhi = false) (noCall : x.isCall = false)
    (wants : v ∈ x.inputs ∨ (v ∈ x.results ∧ x.computes = true)) :
    ∃ id i, l.intervalOf? v = some id ∧ l.pool.intervals[id]? = some i ∧
      ∃ u ∈ i.uses, u.pos = p ∧ u.needsRegister = true := by
  obtain ⟨B, stored, listed⟩ := given.consistent.listed_of_instr found
  obtain ⟨sets, analysed⟩ := ofGraph_analysed given run
  obtain ⟨home, e, y, foundY, -, result⟩ : ∃ home, g.DefinedIn home v := by
    rcases wants with input | ⟨result, -⟩
    · exact (given.above_used ⟨d, x, found, rfl, plain, input⟩).imp fun _ => And.left
    · exact ⟨_, d, x, found, rfl, result⟩
  obtain ⟨id, known⟩ := analysed.rooted e y foundY v result
  obtain ⟨i, isId, -⟩ := analysed.first v id known
  have asked : (p, true) ∈ g.requests l.numbering v d := by
    simp only [requests, found, isAt, noCall, Bool.not_false, mem_append, mem_replicate]
    rcases wants with input | ⟨result, computes⟩
    · exact .inl ⟨(count_pos_iff.mpr input).ne', trivial⟩
    · exact .inr ⟨(count_pos_iff.mpr result).ne', by rw [computes]⟩
  have among : d ∈ g.body x.block := by
    rw [body_eq stored]
    exact mem_filter.mpr ⟨listed, by simp [phiAt_eq found, plain]⟩
  obtain ⟨u, member, isRequest⟩ := mem_map.mp ((requests_perm given run known isId).mem_iff.mpr
    (mem_flatMap.mpr ⟨_, given.valid.complete _ B stored, mem_flatMap.mpr ⟨d, among, asked⟩⟩))
  exact ⟨id, i, known, isId, u, member, Prod.mk.inj isRequest⟩

end

end Liveness

end RegisterAllocation
