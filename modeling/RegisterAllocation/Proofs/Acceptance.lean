import RegisterAllocation.Proofs.Dominators

/-!
Programs that are as they should be are accepted: the checks find nothing to refuse in them.
-/

namespace RegisterAllocation

open DominatorTree

namespace Graph

variable {g : Graph} {tree : DominatorTree} {order : List BlockId} {b : BlockId} {B : Block}
  {i : InstrId} {x : Instr} {pos : Nat}

theorem checkInputs_of_valid (operands : ∀ k v, x.inputs[k]? = some v → v < g.values.size ∧
    g.isAvailable tree x pos k v = .ok true) : g.checkInputs tree i x pos = .ok () := by
  rw [checkInputs, forM_ok]
  rintro ⟨v, k⟩ member
  obtain ⟨inside, available⟩ := operands k v (List.mk_mem_zipIdx_iff_getElem?.mp member)
  simp [unlessDefect, inside, available]

theorem checkInstr_of_valid (found : g.instrs[i]? = some x) (valid : g.ValidInstr tree b B pos x) :
    g.checkInstr tree b B pos i = .ok () := by
  have early : x.opcode ≠ .parameter ∨ b = g.entry := by
    by_cases parameter : x.opcode = .parameter
    · exact .inr (valid.early parameter)
    · exact .inl parameter
  have last : x.opcode.isTerminator = false ∨ pos + 1 = B.instrs.length := by
    cases terminator : x.opcode.isTerminator
    · exact .inl rfl
    · exact .inr (valid.last terminator)
  have operands := checkInputs_of_valid (i := i) valid.operands
  rw [checkInstr, instr_ok.mpr found, lift_of_ok, ok_bind]
  simp only [unlessDefect, valid.block, valid.plain, early, ↓reduceIte, ok_bind, valid.results,
    operands, valid.types, lift_of_ok, last]
  by_cases phi : x.isPhi = true
  · obtain ⟨n, count, before⟩ := valid.phi phi
    cases expected : expectedInputs? B x.opcode with
    | none => simp [phi, count, before]
    | some n => simp [phi, count, before, valid.inputs n expected]
  · cases expected : expectedInputs? B x.opcode with
    | none => simp [phi]
    | some n => simp [phi, valid.inputs n expected]

theorem checkBlock_of_valid (stored : g.blocks[b]? = some B) (valid : g.ValidBlock tree b B) :
    g.checkBlock tree b = .ok () := by
  rw [checkBlock, block_ok.mpr stored, lift_of_ok, ok_bind, forM_ok.mpr ?instrs, ok_bind]
  case instrs =>
    rintro ⟨i, pos⟩ member
    obtain ⟨x, found, valid⟩ := valid.instrs pos i (List.mk_mem_zipIdx_iff_getElem?.mp member)
    exact checkInstr_of_valid found valid
  cases last : B.instrs.getLast? with
  | none =>
    have length := valid.empty (List.getLast?_eq_none_iff.mp last)
    simp [unlessDefect, expectedSuccs, length]
  | some i =>
    obtain ⟨x, found, -⟩ := valid.instrs _ i (List.getLast?_eq_getElem? ▸ last)
    simp [unlessDefect, instr_ok.mpr found, valid.ends i x last found]

theorem firstRepeated_of_nodup {seen vs : List ValueId} (once : vs.Nodup)
    (others : ∀ v ∈ vs, v ∉ seen) : firstRepeated? seen vs = none := by
  induction vs generalizing seen with
  | nil => rfl
  | cons v rest ih =>
    obtain ⟨fresh, once⟩ := List.nodup_cons.mp once
    rw [firstRepeated?, if_neg (others v List.mem_cons_self)]
    refine ih once fun u member => ?_
    rw [List.mem_cons, not_or]
    exact ⟨fun same => fresh (same ▸ member), others u (List.mem_cons_of_mem v member)⟩

theorem validate_iff : g.validate = .ok () ↔ ∃ tree order, g.Valid tree order := by
  refine ⟨validate_ok, fun ⟨tree, order, valid⟩ => ?_⟩
  have ordered := reversePostOrder_ok valid.ordered
  obtain ⟨E, storedE⟩ := ordered.stored _ ordered.entry
  have length : order.length = g.blocks.size := by
    have within : order ⊆ List.range g.blocks.size := by
      intro b member
      obtain ⟨B, stored⟩ := ordered.stored b member
      exact List.mem_range.mpr (found_lt stored)
    have all : List.range g.blocks.size ⊆ order := by
      intro b inside
      exact valid.complete b _ (Array.getElem?_eq_getElem (List.mem_range.mp inside))
    have le := (ordered.once.subperm within).length_le
    have ge := (List.nodup_range.subperm all).length_le
    simp only [List.length_range] at le ge
    lia
  have definitions : g.checkDefinitions = .ok () := by
    rw [checkDefinitions, forM_ok]
    rintro ⟨d, v⟩ member
    obtain ⟨x, found, result⟩ := valid.defined v d
      (by simpa using List.mk_mem_zipIdx_iff_getElem?.mp member)
    simp [unlessDefect, instr_ok.mpr found, result]
  have results : g.checkResults = .ok () := by
    rw [checkResults, firstRepeated_of_nodup valid.results (by simp)]
  have blocks : order.forM (g.checkBlock tree) = .ok () := by
    rw [forM_ok]
    intro b member
    obtain ⟨B, stored⟩ := ordered.stored b member
    exact checkBlock_of_valid stored (valid.blocks b B stored)
  simpa [validate, unlessDefect, valid.dominators, block_ok.mpr storedE, valid.entry E storedE,
    valid.ordered, length, definitions, results] using blocks

end Graph

end RegisterAllocation
