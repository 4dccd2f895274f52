import RegisterAllocation.Proofs.Recutting

/-!
What the moves of an edge bring along: each value that is live behind the edge, and each operand
that a phi takes from it, from its place before the edge to that behind.
-/

namespace RegisterAllocation

namespace Connection

open Graph

variable {g : Graph} {l : Liveness} {group group' : MoveGroup} {last start : Position} {m : Move}
  {pairs : ValueId → ValueId → Prop} {src dst : ValueId} {succ pred : BlockId} {index : Nat}

structure Bridges (l : Liveness) (last start : Position) (pairs : ValueId → ValueId → Prop)
    (moves : List Move) : Prop where
  each : ∀ src dst, pairs src dst → ∃ a b, l.locationAt src last = .ok (some a) ∧
    l.locationAt dst start = .ok (some b) ∧ (a = b ∨ b.isImmediate = true ∨ ∃ m ∈ moves, m.dst = b)
  only : ∀ m ∈ moves, ∃ src dst, pairs src dst ∧ l.locationAt src last = .ok (some m.src) ∧
    l.locationAt dst start = .ok (some m.dst)

namespace Bridges

theorem after_addCrossing (bridges : Bridges l last start pairs group.moves) {lost : Fault}
    {ty : Except Fault ValueType}
    (run : addCrossing l lost src dst last start ty group = .ok group') :
    Bridges l last start (fun a b => pairs a b ∨ (src = a ∧ dst = b)) group'.moves := by
  simp only [addCrossing, bind_ok] at run
  obtain ⟨a?, isSrc, b?, isDst, run⟩ := run
  split at run
  · rename_i a b
    simp only [bind_ok] at run
    obtain ⟨ty, -, run⟩ := run
    rw [addNeeded] at run
    split at run
    · rename_i still
      obtain rfl := Except.ok.inj run
      refine ⟨?_, fun m member => ?_⟩
      · rintro c d (old | ⟨rfl, rfl⟩)
        · exact bridges.each c d old
        · exact ⟨a, b, isSrc, isDst, still.imp_right .inl⟩
      · obtain ⟨c, d, old, places⟩ := bridges.only m member
        exact ⟨c, d, .inl old, places⟩
    · obtain ⟨-, rfl⟩ := MoveGroup.add_ok run
      refine ⟨?_, fun m member => ?_⟩
      · rintro c d (old | ⟨rfl, rfl⟩)
        · obtain ⟨a', b', isSrc', isDst', either⟩ := bridges.each c d old
          refine ⟨a', b', isSrc', isDst', either.imp_right (.imp_right ?_)⟩
          rintro ⟨m, member, isM⟩
          exact ⟨m, List.mem_append_left _ member, isM⟩
        · exact ⟨a, b, isSrc, isDst, .inr (.inr ⟨⟨a, b, ty⟩, by simp, rfl⟩)⟩
      · rcases List.mem_append.mp member with member | member
        · obtain ⟨c, d, old, places⟩ := bridges.only m member
          exact ⟨c, d, .inl old, places⟩
        · obtain rfl := List.mem_singleton.mp member
          exact ⟨src, dst, .inr ⟨rfl, rfl⟩, isSrc, isDst⟩
  · simp at run

theorem congr {pairs' : ValueId → ValueId → Prop} {moves : List Move}
    (bridges : Bridges l last start pairs moves) (same : ∀ a b, pairs a b ↔ pairs' a b) :
    Bridges l last start pairs' moves := by
  obtain rfl : pairs = pairs' := by
    funext a b
    exact propext (same a b)
  exact bridges

theorem after_addPhis {instrs : List InstrId} (bridges : Bridges l last start pairs group.moves)
    (first : instrs.Pairwise fun i j => g.phiAt j = true → g.phiAt i = true)
    (run : addPhis g l succ pred index last start instrs group = .ok group') :
    Bridges l last start (fun a b => pairs a b ∨ ∃ i ∈ instrs, ∃ x, g.instrs[i]? = some x ∧
      x.isPhi = true ∧ x.inputs[index]? = some a ∧ x.results.head? = some b) group'.moves := by
  induction instrs generalizing group pairs with
  | nil =>
    obtain rfl := pure_ok.mp run
    exact bridges.congr (by simp)
  | cons i rest ih =>
    obtain ⟨head, tail⟩ := List.pairwise_cons.mp first
    simp only [addPhis, bind_ok, Graph.instr_ok] at run
    obtain ⟨x, found, run⟩ := run
    split at run
    · rename_i phi
      simp only [bind_ok, need_eq_ok] at run
      obtain ⟨operand, isOperand, result, isResult, mid, crossed, run⟩ := run
      refine (ih (bridges.after_addCrossing crossed) tail run).congr fun a b => ?_
      simp only [List.mem_cons, exists_eq_or_imp, or_assoc]
      simp [found, phi, isOperand, isResult]
    · rename_i plain
      obtain rfl := pure_ok.mp run
      refine bridges.congr fun a b => ⟨.inl, fun either => either.resolve_right ?_⟩
      rintro ⟨j, member, y, foundY, phi, -⟩
      rcases List.mem_cons.mp member with rfl | member
      · obtain rfl := Option.mem_unique found foundY
        exact plain phi
      · have := head j member (by rw [Graph.phiAt_eq foundY, phi])
        rw [Graph.phiAt_eq found] at this
        exact plain this

end Bridges

def FlowsInto (g : Graph) (l : Liveness) (succ : BlockId) (S : Block) (index : Nat)
    (src dst : ValueId) :
    Prop :=
  (src = dst ∧ ∃ live, l.liveIn[succ]? = some live ∧ dst ∈ live) ∨
    ∃ i ∈ S.instrs, ∃ x, g.instrs[i]? = some x ∧ x.isPhi = true ∧ x.inputs[index]? = some src ∧
      x.results.head? = some dst

theorem edgeMoves_bridge {S : Block} (stored : g.blocks[succ]? = some S) (first : g.PhisFirst)
    (run : edgeMoves g l succ pred index last start = .ok group) :
    Bridges l last start (FlowsInto g l succ S index) group.moves := by
  simp only [edgeMoves, bind_ok, need_eq_ok, Graph.block_ok.mpr stored, ok_bind] at run
  obtain ⟨live, isLive, mid, crossed, run⟩ := run
  have step : ∀ {vs : List ValueId} {done : ValueId → Prop} {group group' : MoveGroup},
      Bridges l last start (fun a b => a = b ∧ done b) group.moves →
      vs.foldlM (fun group v => addCrossing l (.valueNotOnEdge v pred succ) v v last start
        (g.typeOf v) group) group = .ok group' →
      Bridges l last start (fun a b => a = b ∧ (done b ∨ b ∈ vs)) group'.moves := by
    intro vs done group group' bridges run
    induction vs generalizing group done with
    | nil =>
      obtain rfl := pure_ok.mp run
      exact bridges.congr (by simp)
    | cons v rest ih =>
      obtain ⟨mid, crossed, run⟩ := foldlM_cons_ok.mp run
      have more : Bridges l last start (fun a b => a = b ∧ (done b ∨ b = v)) mid.moves :=
        (bridges.after_addCrossing crossed).congr (by grind)
      exact (ih more run).congr (by grind)
  have start : Bridges l last start (fun a b => a = b ∧ False) (MoveGroup.empty .phiMove).moves :=
    ⟨by simp, by simp [MoveGroup.empty]⟩
  refine ((step start crossed).after_addPhis (first succ S stored) run).congr fun a b => ?_
  simp [FlowsInto, isLive]

end Connection

end RegisterAllocation
