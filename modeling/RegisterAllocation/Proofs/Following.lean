import RegisterAllocation.Proofs.Arrival

/-!
Whole runs of an allocated program. Each step of the run on values is followed by a few steps on
places, so a run on values that ends has a run on places that ends in the same way.
-/

namespace RegisterAllocation

open Machine

variable {p a : Graph} {order : List BlockId} {known : BlockId → Nat → Knowledge}
  {m m' n n' : Machine} {x y : Instr} {A B : Block} {i : InstrId} {e : RunError}

/-- The second run ends as the first one does, if that one ends with a result or a verdict, and it
takes no fewer steps to a result. -/
structure SameEnd (first second : Attempt RunError RunResult) : Prop where
  result : ∀ r, first = .ok r →
    ∃ r', second = .ok r' ∧ r'.result = r.result ∧ r'.memory = r.memory ∧ r.steps ≤ r'.steps
  verdict : ∀ e : RunError, e.isVerdict = true → first = .error (.error e) →
    second = .error (.error e)

namespace Machine

theorem test_no_verdict {g : Graph} {c : Condition} (stage : m.stage = .values)
    (verdict : e.isVerdict = true) : m.test g x c ≠ .error (.error e) := by
  intro h
  rw [test] at h
  rcases bind_error.mp h with h | ⟨w, _, h⟩
  · exact input_no_verdict stage verdict h
  rcases bind_error.mp h with h | ⟨w', _, h⟩
  · exact input_no_verdict stage verdict h
  rcases bind_error.mp h with h | ⟨v, _, h⟩
  · exact lift_ne_error h
  rcases bind_error.mp h with h | ⟨ty, _, h⟩
  · exact lift_ne_error h
  split at h <;> simp [pure, Except.pure] at h

theorem phiValues_no_verdict {g : Graph} {k : Nat} {instrs : List InstrId}
    (stage : m.stage = .values) (verdict : e.isVerdict = true) :
    m.phiValues g k instrs ≠ .error (.error e) := by
  induction instrs with
  | nil => simp [phiValues, pure, Except.pure]
  | cons i rest ih =>
    intro h
    rw [phiValues] at h
    rcases bind_error.mp h with h | ⟨x, _, h⟩
    · exact lift_ne_error h
    split at h
    · rcases bind_error.mp h with h | ⟨v, _, h⟩
      · exact lift_ne_error h
      rcases bind_error.mp h with h | ⟨w, _, h⟩
      · exact input_no_verdict stage verdict h
      rcases bind_error.mp h with h | ⟨more, _, h⟩
      · exact ih h
      · simp [pure, Except.pure] at h
    · simp [pure, Except.pure] at h

theorem setValues_no_verdict {pairs : List (ValueId × Word)} :
    pairs.foldlM (fun m p => (liftM (m.setValue p.1 p.2) : Attempt RunError Machine)) m
      ≠ .error (.error e) := by
  induction pairs generalizing m with
  | nil => simp [pure, Except.pure]
  | cons pair rest ih =>
    intro h
    rw [List.foldlM_cons] at h
    rcases bind_error.mp h with h | ⟨next, _, h⟩
    · exact lift_ne_error h
    · exact ih h

theorem enter_no_verdict {g : Graph} {s : BlockId} (stage : m.stage = .values)
    (verdict : e.isVerdict = true) : m.enter g s ≠ .error (.error e) := by
  intro h
  simp only [enter, stage] at h
  rcases bind_error.mp h with h | ⟨S, _, h⟩
  · exact lift_ne_error h
  by_cases pred : m.block ∉ S.preds
  · simp only [if_pos pred] at h
    rcases bind_error.mp h with h | ⟨_, refused, _⟩
    · obtain rfl := refuse_error.mp h
      simp [RunError.isVerdict] at verdict
    · exact absurd refused refuse_ne_ok
  simp only [if_neg pred] at h
  rcases bind_error.mp h with h | ⟨updates, _, h⟩
  · exact phiValues_no_verdict stage verdict h
  · exact setValues_no_verdict h

theorem fallThrough_no_verdict {g : Graph} (stage : m.stage = .values)
    (verdict : e.isVerdict = true) : m.fallThrough g B ≠ .error (.error e) := by
  intro h
  unfold fallThrough at h
  split at h
  · exact enter_no_verdict stage verdict h
  · obtain rfl := refuse_error.mp h
    simp [RunError.isVerdict] at verdict

theorem execute_plain {g : Graph} (plain : x.opcode.isTerminator = false) :
    m.execute g B x = m.compute g x >>= fun m => .ok (.running m) := by
  unfold execute
  cases hop : x.opcode with
  | branch | ret | retVoid => simp [hop, Opcode.isTerminator] at plain
  | _ => rfl

theorem execute_ok {g : Graph} {next : Next} (h : m.execute g B x = .ok next) :
    (x.opcode.isTerminator = false ∧ ∃ m', m.compute g x = .ok m' ∧ next = .running m') ∨
    (∃ c taken yes no m', x.opcode = .branch c ∧ m.test g x c = .ok taken ∧ B.succs = [yes, no] ∧
      m.enter g (if taken then yes else no) = .ok m' ∧ next = .running m') ∨
    (x.opcode = .ret ∧ ∃ w, m.input g x 0 = .ok w ∧ next = .finished { m with result := some w }) ∨
    (x.opcode = .retVoid ∧ next = .finished m) := by
  cases terminator : x.opcode.isTerminator with
  | false =>
    rw [execute_plain terminator, bind_ok] at h
    obtain ⟨m', computed, h⟩ := h
    exact .inl ⟨rfl, m', computed, (Except.ok.inj h).symm⟩
  | true =>
    refine .inr ?_
    cases hop : x.opcode with
    | branch c =>
      simp only [execute, hop, bind_ok] at h
      obtain ⟨taken, tested, h⟩ := h
      split at h
      · rename_i yes no succs
        obtain ⟨m', entered, h⟩ := bind_ok.mp h
        exact .inl ⟨c, taken, yes, no, m', rfl, tested, succs, entered, (pure_ok.mp h).symm⟩
      · exact absurd h refuse_ne_ok
    | ret =>
      simp only [execute, hop, bind_ok, pure_ok] at h
      obtain ⟨w, operand, h⟩ := h
      exact .inr (.inl ⟨rfl, w, operand, h.symm⟩)
    | retVoid =>
      simp only [execute, hop] at h
      exact .inr (.inr ⟨rfl, (Except.ok.inj h).symm⟩)
    | _ => simp [hop, Opcode.isTerminator] at terminator

theorem step_verdict {g : Graph} (stage : m.stage = .values) (verdict : e.isVerdict = true)
    (h : m.step g = .error (.error e)) :
    ∃ B i x, g.blocks[m.block]? = some B ∧ B.instrs[m.pc]? = some i ∧ g.instrs[i]? = some x ∧
      ((maxSteps < (m.count x).counted ∧ e = .tooManySteps) ∨
        ((m.count x).counted ≤ maxSteps ∧ x.opcode.isTerminator = false ∧
          (m.count x).compute g x = .error (.error e))) := by
  rw [step] at h
  rcases bind_error.mp h with h | ⟨B, stored, h⟩
  · exact absurd h lift_ne_error
  rw [lift_ok, Graph.block_ok] at stored
  cases listed : B.instrs[m.pc]? with
  | none =>
    simp only [listed] at h
    rcases bind_error.mp h with h | ⟨next, _, h⟩
    · exact absurd h (fallThrough_no_verdict stage verdict)
    · simp [pure, Except.pure] at h
  | some i =>
    simp only [listed] at h
    rcases bind_error.mp h with h | ⟨x, found, h⟩
    · exact absurd h lift_ne_error
    rw [lift_ok, Graph.instr_ok] at found
    refine ⟨B, i, x, stored, listed, found, ?_⟩
    by_cases beyond : maxSteps < (m.count x).counted
    · rw [if_pos beyond] at h
      rcases bind_error.mp h with h | ⟨_, refused, _⟩
      · exact .inl ⟨beyond, (refuse_error.mp h).symm⟩
      · exact absurd refused refuse_ne_ok
    rw [if_neg beyond] at h
    have counted : (m.count x).stage = .values := stage
    refine .inr ⟨by omega, ?_⟩
    cases terminator : x.opcode.isTerminator with
    | false =>
      rw [execute_plain terminator] at h
      rcases bind_error.mp h with h | ⟨_, _, h⟩
      · exact ⟨rfl, h⟩
      · simp at h
    | true =>
      exfalso
      unfold execute at h
      split at h
      · rename_i c _
        rcases bind_error.mp h with h | ⟨taken, _, h⟩
        · exact test_no_verdict counted verdict h
        split at h
        · rcases bind_error.mp h with h | ⟨_, _, h⟩
          · exact enter_no_verdict counted verdict h
          · simp [pure, Except.pure] at h
        · obtain rfl := refuse_error.mp h
          simp [RunError.isVerdict] at verdict
      · rcases bind_error.mp h with h | ⟨w, _, h⟩
        · exact input_no_verdict counted verdict h
        · simp [pure, Except.pure] at h
      · simp at h
      · rename_i branch ret retVoid
        cases hop : x.opcode <;> simp_all [Opcode.isTerminator]

end Machine

namespace Simulates

variable (set : Setting p a order known) (sim : Simulates p a order known m n)
  (stored : p.blocks[m.block]? = some B)

include set sim stored

theorem exists_facing (listed : B.instrs[m.pc]? = some i)
    (found : p.instrs[i]? = some x) :
    ∃ n' A y, Reaches a n n' ∧ Simulates p a order known m n' ∧ Facing p a m n' A B i x y := by
  obtain ⟨A, storedA, listing, -⟩ := set.expands.block _ B stored
  rw [← sim.block] at storedA
  obtain ⟨n', reached, sim', block, aligned⟩ := sim.catch_up set storedA stored
  obtain ⟨y, foundA, code⟩ := set.expands.instr i x found
  refine ⟨n', A, y, reached, sim', stored, by rw [block, storedA], listed, aligned.trans listed,
    found, foundA, code, ?_⟩
  have member := List.mem_of_getElem? listed
  rw [← listing] at member
  simpa [Graph.isMoves_eq foundA] using (List.mem_filter.mp member).2

theorem face_end (atEnd : B.instrs[m.pc]? = none) :
    ∃ n' A, Reaches a n n' ∧ Simulates p a order known m n' ∧ a.blocks[n'.block]? = some A ∧
      A.succs.length = B.succs.length ∧ n'.pc = A.instrs.length := by
  obtain ⟨A, storedA, -, succs, -⟩ := set.expands.block _ B stored
  rw [← sim.block] at storedA
  obtain ⟨n', reached, sim', block, aligned⟩ := sim.catch_up set storedA stored
  have storedA' : a.blocks[n'.block]? = some A := by rw [block, storedA]
  have inside := (sim'.ahead A B storedA' stored).1
  have outside := List.getElem?_eq_none_iff.mp (aligned.trans atEnd)
  exact ⟨n', A, reached, sim', storedA', succs, by omega⟩

end Simulates

namespace Facing

theorem counted_eq (sim : Simulates p a order known m n) (face : Facing p a m n A B i x y) :
    (n.count y).counted = (m.count x).counted := by
  have spills := face.code.isSpillFill_eq.symm.trans face.plain
  simp [count, face.plain, spills, sim.counted]

theorem step_eq (face : Facing p a m n A B i x y) :
    n.step a = if maxSteps < (n.count y).counted then refuse .tooManySteps
      else (n.count y).execute a A y :=
  step_instr face.storedA face.listedA face.foundA

variable (set : Setting p a order known) (sim : Simulates p a order known m n)
  (face : Facing p a m n A B i x y) (within : (n.count y).counted ≤ maxSteps)

include set sim face within

theorem after_branch {c : Condition}
    {taken : Bool} {yes no : BlockId} (opcode : x.opcode = .branch c)
    (tested : (m.count x).test p x c = .ok taken) (succs : B.succs = [yes, no])
    (entered : (m.count x).enter p (if taken then yes else no) = .ok m') :
    ∃ n', Reaches a n n' ∧ Simulates p a order known m' n' := by
  have opcodeY : y.opcode = .branch c := face.code.opcode.trans opcode
  obtain ⟨n₁, computed, sim₁⟩ := face.after_compute set sim within
    (show (m.count x).compute p x = .ok (m.count x) by simp [Machine.compute, opcode])
  obtain rfl : n.count y = n₁ := by simpa [Machine.compute, opcodeY] using computed
  have testedA : (n.count y).test a y c = .ok taken := by
    have types : a.typeOf = p.typeOf := by
      funext v
      simp only [Graph.typeOf, Graph.value, set.expands.values]
    have same : ∀ input, testOf a y c input = testOf p x c input := by
      intro input
      simp only [testOf, face.code.inputs, types]
    rw [test_eq, same]
    refine (testOf_follows c fun k => face.input_follows set sim ?_ k).result taken tested
    simp [Instr.isPhi, opcodeY]
  have atEnd : (n.count y).pc = A.instrs.length :=
    set.proper.last _ A _ y face.storedA face.at_pc (by simp [opcodeY, Opcode.isTerminator])
  obtain ⟨j, succ⟩ : ∃ j, (j = if taken then 0 else 1) ∧
      B.succs[j]? = some (if taken then yes else no) := by
    cases taken <;> simp [succs]
  obtain ⟨t, succT, n', reached, sim'⟩ := sim₁.after_enter set face.storedA face.storedP atEnd
    succ.2 entered
  obtain ⟨A', storedA', -, length, -⟩ := set.expands.block _ B face.storedP
  obtain rfl : A = A' := by
    rw [← sim.block, face.storedA] at storedA'
    exact Option.some.inj storedA'
  rw [succs] at length
  obtain ⟨yes', no', succsA⟩ := List.length_eq_two.mp length
  have stepped : n.step a = .ok (.running { n.count y with block := t, pc := 0 }) := by
    have located : (n.count y).stage = .locations := sim.located
    have chosen : (if taken then yes' else no') = t := by
      cases taken <;> simp_all
    rw [face.step_eq, if_neg (by omega)]
    simp only [Machine.execute, opcodeY, testedA, ok_bind, succsA, Machine.enter, located, chosen]
    rfl
  exact ⟨n', .step stepped reached, sim'⟩

theorem finish_agrees (ends : (m.count x).execute p B x = .ok (.finished m')) :
    ∃ n', n.step a = .ok (.finished n') ∧ n'.result = m'.result ∧ n'.memory = m'.memory ∧
      m'.steps ≤ n'.steps := by
  rw [face.step_eq, if_neg (by omega)]
  have opcode := face.code.opcode
  rcases execute_ok ends with ⟨_, _, _, h⟩ | ⟨_, _, _, _, _, _, _, _, _, h⟩ | ⟨ret, w, operand, h⟩ |
    ⟨ret, h⟩
  · simp at h
  · simp at h
  · obtain rfl := Next.finished.inj h
    rw [ret] at opcode
    have operandA := (face.input_follows set sim (by simp [Instr.isPhi, opcode]) 0).result w operand
    refine ⟨{ n.count y with result := some w }, ?_, rfl, sim.memory, Nat.succ_le_succ sim.steps⟩
    simp only [Machine.execute, opcode, operandA, ok_bind]
    rfl
  · obtain rfl := Next.finished.inj h
    rw [ret] at opcode
    refine ⟨n.count y, ?_, sim.result, sim.memory, Nat.succ_le_succ sim.steps⟩
    simp only [Machine.execute, opcode]

end Facing

namespace Simulates

variable (set : Setting p a order known) (sim : Simulates p a order known m n)

include set sim

theorem step_running (stepped : m.step p = .ok (.running m')) :
    ∃ n', Reaches a n n' ∧ Simulates p a order known m' n' := by
  obtain ⟨B, stored, ⟨atEnd, m₁, fell, same⟩ | ⟨i, x, listed, found, within, executed⟩⟩ :=
    step_ok stepped
  · obtain rfl := Next.running.inj same
    obtain ⟨n₁, A, reached, sim₁, storedA, length, end₁⟩ := sim.face_end set stored atEnd
    unfold fallThrough at fell
    split at fell
    · rename_i s succs
      obtain ⟨t, succT, n', reached', sim'⟩ := sim₁.after_enter (j := 0) (s := s) set storedA
        stored end₁ (by simp [succs]) fell
      rw [succs] at length
      obtain ⟨t', succsA⟩ := List.length_eq_one_iff.mp length
      obtain rfl : t' = t := by simpa [succsA] using succT
      have fellA := drift_some (drift_end sim₁.located storedA (by simp [end₁]) succsA)
      exact ⟨n', reached.trans (.step fellA.1 reached'), sim'⟩
    · exact absurd fell refuse_ne_ok
  · obtain ⟨n₁, A, y, reached, sim₁, face⟩ := sim.exists_facing set stored listed found
    rw [← face.counted_eq sim₁] at within
    rcases execute_ok executed with ⟨plain, m₁, computed, same⟩ |
      ⟨c, taken, yes, no, m₁, opcode, tested, succs, entered, same⟩ | ⟨_, _, _, same⟩ | ⟨_, same⟩
    · obtain rfl := Next.running.inj same
      obtain ⟨n', computedA, sim'⟩ := face.after_compute set sim₁ within computed
      have steppedA : n₁.step a = .ok (.running n') := by
        rw [face.step_eq, if_neg (by omega), execute_plain (face.code.opcode ▸ plain), computedA,
          ok_bind]
      exact ⟨n', reached.trans (.step steppedA (.refl n')), sim'⟩
    · obtain rfl := Next.running.inj same
      obtain ⟨n', reached', sim'⟩ := face.after_branch set sim₁ within opcode tested succs entered
      exact ⟨n', reached.trans reached', sim'⟩
    · simp at same
    · simp at same

theorem step_finished (stepped : m.step p = .ok (.finished m')) :
    ∃ n₁ n', Reaches a n n₁ ∧ n₁.step a = .ok (.finished n') ∧ n'.result = m'.result ∧
      n'.memory = m'.memory ∧ m'.steps ≤ n'.steps := by
  obtain ⟨B, stored, ⟨_, _, _, same⟩ | ⟨i, x, listed, found, within, executed⟩⟩ := step_ok stepped
  · simp at same
  · obtain ⟨n₁, A, y, reached, sim₁, face⟩ := sim.exists_facing set stored listed found
    rw [← face.counted_eq sim₁] at within
    obtain ⟨n', finished, same⟩ := face.finish_agrees set sim₁ within executed
    exact ⟨n₁, n', reached, finished, same⟩

theorem step_verdict (verdict : e.isVerdict = true) (stepped : m.step p = .error (.error e)) :
    ∃ n₁, Reaches a n n₁ ∧ n₁.step a = .error (.error e) := by
  obtain ⟨B, i, x, stored, listed, found, why⟩ := Machine.step_verdict sim.onValues verdict stepped
  obtain ⟨n₁, A, y, reached, sim₁, face⟩ := sim.exists_facing set stored listed found
  refine ⟨n₁, reached, ?_⟩
  rw [← face.counted_eq sim₁] at why
  rw [face.step_eq]
  rcases why with ⟨beyond, rfl⟩ | ⟨within, plain, computed⟩
  · rw [if_pos beyond]
    rfl
  · rw [if_neg (by omega), execute_plain (face.code.opcode ▸ plain),
      face.computes_verdict set sim₁ verdict computed, error_bind]

theorem run_agrees {bound : Nat}
    {o : Attempt RunError RunResult} (ends : m.runWithin p bound = some o) (settled :
      (∃ r, o = .ok r) ∨ ∃ e : RunError, e.isVerdict = true ∧ o = .error (.error e)) :
    ∃ bound' o', n.runWithin a bound' = some o' ∧ SameEnd o o' := by
  induction bound generalizing m n with
  | zero => simp [runWithin] at ends
  | succ bound ih =>
    rw [runWithin] at ends
    split at ends
    · rename_i m' stepped
      obtain ⟨n', reached, sim'⟩ := sim.step_running set stepped
      obtain ⟨bound', o', ends', same⟩ := ih sim' ends
      obtain ⟨bound'', ends''⟩ := reached.run_before ends'
      exact ⟨bound'', o', ends'', same⟩
    · rename_i m' stepped
      obtain rfl := Option.some.inj ends
      obtain ⟨n₁, n', reached, finished, result, memory, steps⟩ := sim.step_finished set stepped
      have last : n₁.runWithin a 1 = some (.ok n'.outcome) := by simp [runWithin, finished]
      obtain ⟨bound', ends'⟩ := reached.run_before last
      refine ⟨bound', _, ends', ?_, fun _ _ h => by simp at h⟩
      intro r hr
      obtain rfl := Except.ok.inj hr
      exact ⟨n'.outcome, rfl, result, memory, steps⟩
    · rename_i e stepped
      obtain rfl := Option.some.inj ends
      rcases settled with ⟨r, h⟩ | ⟨e', verdict, h⟩
      · simp at h
      obtain rfl := Except.error.inj h
      obtain ⟨n₁, reached, stops⟩ := sim.step_verdict set verdict stepped
      have last : n₁.runWithin a 1 = some (.error (.error e')) := by simp [runWithin, stops]
      obtain ⟨bound', ends'⟩ := reached.run_before last
      exact ⟨bound', _, ends', fun _ h => by simp at h, fun _ _ h => h⟩

end Simulates

end RegisterAllocation
