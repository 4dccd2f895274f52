import Mathlib.Data.List.Basic
import RegisterAllocation.Connection
import RegisterAllocation.Proofs.Weaving

/-!
Where the moves of control-flow edges go. An edge that shares both of its ends with others gets a
block of its own, which takes the place of the first predecessor of its name that is left. So of
several edges between the same two blocks, the ones that need moves get the first places, whichever
they are.
-/

namespace RegisterAllocation

open Array List Option Build Graph Instr

namespace Build

variable {old new p : BlockId}

theorem idxsOf_replaceFirst_ne (other : old ≠ p) (fresh : new ≠ p) (ps : List BlockId) (s : Nat) :
    (replaceFirst old new ps).idxsOf p s = ps.idxsOf p s := by
  induction ps generalizing s with
  | nil => rfl
  | cons q rest ih =>
    rw [replaceFirst]
    split
    · rename_i same
      subst same
      simp [idxsOf, fresh, other]
    · have rest := ih (s + 1)
      simp only [idxsOf] at rest
      simp [idxsOf, rest]

theorem idxsOf_replaceFirst_self (fresh : new ≠ p) (ps : List BlockId) (s : Nat) :
    (replaceFirst p new ps).idxsOf p s = (ps.idxsOf p s).tail := by
  induction ps generalizing s with
  | nil => rfl
  | cons q rest ih =>
    rw [replaceFirst]
    split
    · rename_i same
      subst same
      simp [idxsOf, fresh]
    · rename_i other
      simpa [idxsOf, other] using ih (s + 1)

theorem getElem_replaceFirst {ps : List BlockId} {s k : Nat}
    (first : (ps.idxsOf p s).head? = some (s + k)) : (replaceFirst p new ps)[k]? = some new := by
  induction ps generalizing s k with
  | nil => simp [idxsOf] at first
  | cons q rest ih =>
    rw [replaceFirst]
    split
    · rename_i same
      subst same
      have : k = 0 := by simpa [idxsOf] using first
      simp [this]
    · rename_i other
      have first : (rest.idxsOf p (s + 1)).head? = some (s + k) := by
        simpa [idxsOf, other] using first
      have later : s + 1 ≤ s + k :=
        ge_of_mem_findIdxs _ (mem_of_head? first)
      obtain ⟨l, rfl⟩ : ∃ l, k = l + 1 := ⟨k - 1, by omega⟩
      have := ih (k := l) (first.trans (by congr 1; omega))
      simpa using this

theorem getElem_of_idxsOf {ps : List BlockId} {k : Nat} :
    k ∈ ps.idxsOf p ↔ ps[k]? = some p := by
  rw [idxsOf, mem_findIdxs_iff_exists_getElem_pos, List.getElem?_eq_some_iff]
  simp

/-- Replacements made one after the other, each of a first occurrence: the new elements for an
element go to its places in order, and the places left over keep it. -/
theorem getElem_replacements {pairs : List (BlockId × BlockId)} {ps : List BlockId} {j k : Nat}
    (once : (pairs.map Prod.snd).Nodup)
    (apart : ∀ old ∈ pairs.map Prod.fst, old ∉ pairs.map Prod.snd)
    (kept : p ∉ pairs.map Prod.snd) (place : (ps.idxsOf p)[j]? = some k) :
    (pairs.foldl (fun ps pair => replaceFirst pair.1 pair.2 ps) ps)[k]? =
      some ((((pairs.filter (·.1 = p)).map Prod.snd)[j]?).getD p) := by
  induction pairs generalizing ps p j with
  | nil => simpa using getElem_of_idxsOf.mp (mem_of_getElem? place)
  | cons pair rest ih =>
    obtain ⟨old, new⟩ := pair
    simp only [map_cons, nodup_cons, mem_cons, not_or] at once kept apart
    have apartRest : ∀ o ∈ rest.map Prod.fst, o ∉ rest.map Prod.snd :=
      fun o ho => (apart o (.inr ho)).2
    rw [foldl_cons]
    by_cases here : old = p
    · subst here
      have tail := idxsOf_replaceFirst_self (Ne.symm kept.1) ps 0
      cases j with
      | succ j =>
        have next : ((replaceFirst old new ps).idxsOf old)[j]? = some k := by
          rw [tail, getElem?_tail]
          exact place
        simpa using ih once.2 apartRest kept.2 next
      | zero =>
        -- the new element is none of those replaced later
        have put : (replaceFirst old new ps)[k]? = some new :=
          getElem_replaceFirst (s := 0) (by simpa [head?_eq_getElem?] using place)
        obtain ⟨l, isAt⟩ := mem_iff_getElem?.mp (getElem_of_idxsOf.mpr put)
        have stays := ih once.2 apartRest once.1 isAt
        have none : rest.filter (·.1 = new) = [] := by
          rw [filter_eq_nil_iff]
          intro pair member same
          exact (apart pair.1 (.inr (mem_map_of_mem member))).1 (by simpa using same)
        simpa [none] using stays
    · have same := idxsOf_replaceFirst_ne here (Ne.symm kept.1) ps 0
      have next : ((replaceFirst old new ps).idxsOf p)[j]? = some k := by
        rw [same]
        exact place
      simpa [here] using ih once.2 apartRest kept.2 next

end Build
namespace Connection

variable {g h k : Graph} {b : BlockId} {anchor i : InstrId} {l : Liveness}

theorem behindFills_ok {instrs rest : List InstrId} (run : behindFills g instrs = .ok rest) :
    ∃ fills, instrs = fills ++ rest ∧
      ∀ i ∈ fills, ∃ x, g.instrs[i]? = some x ∧ x.purpose? = some .inputFill := by
  induction instrs with
  | nil =>
    obtain rfl : [] = rest := by simpa [behindFills] using run
    exact ⟨[], rfl, by simp⟩
  | cons i more ih =>
    rw [behindFills, bind_ok] at run
    obtain ⟨x, found, run⟩ := run
    split at run
    · rename_i fill
      obtain ⟨fills, rfl, all⟩ := ih run
      refine ⟨i :: fills, rfl, ?_⟩
      intro j hj
      rcases mem_cons.mp hj with rfl | hj
      · exact ⟨x, instr_ok.mp found, fill⟩
      · exact all j hj
    · obtain rfl : i :: more = rest := by simpa using run
      exact ⟨[], rfl, by simp⟩

/-- A move goes to the group that ends the instructions `earlier` before the anchor and its argument
moves `fills`, or to a new group behind them. -/
theorem moveBefore_run {m : Move} {u : Unit} (run : moveBefore anchor m h = .ok (u, k)) :
    ∃ x C earlier fills, h.instrs[anchor]? = some x ∧ h.blocks[x.block]? = some C ∧
      anchor ∈ C.instrs ∧ C.instrs.take (C.instrs.idxOf anchor) = earlier ++ fills ∧
      (∀ i ∈ fills, ∃ y, h.instrs[i]? = some y ∧ y.purpose? = some .inputFill) ∧
      ((∃ i, openGroup? h earlier.reverse = .ok (some i) ∧
          modifyGroup i (·.add m) h = .ok (u, k)) ∨
        ∃ group i, openGroup? h earlier.reverse = .ok none ∧
          (MoveGroup.empty .splitMove).add m = .ok group ∧
          insertAt x.block earlier.length (ofGroup x.block group) h = .ok (i, k)) := by
  rw [moveBefore] at run
  simp only [bind_run, ask_run, instr_ok, block_ok, positionInBlock,
    bind_ok, ensure_ok, pure_ok] at run
  obtain ⟨x, _, ⟨found, rfl⟩, pos, _, ⟨⟨x', found', C, stored, _, listed, rfl⟩, rfl⟩, C', _,
    ⟨stored', rfl⟩, behind, _, ⟨passed, rfl⟩, target, _, ⟨opened, rfl⟩, run⟩ := run
  obtain rfl : x = x' := by simpa [found] using found'
  obtain rfl : C = C' := by simpa [stored] using stored'
  obtain ⟨fills, split, all⟩ := behindFills_ok passed
  refine ⟨x, C, behind.reverse, fills.reverse, found, stored, listed, ?_, by simpa using all, ?_⟩
  · rw [← List.reverse_append, ← split, List.reverse_reverse]
  · rw [List.reverse_reverse, length_reverse]
    cases target with
    | some i => exact .inl ⟨i, opened, run⟩
    | none =>
      simp only [bind_run, lift_run, pure_run] at run
      obtain ⟨group, _, ⟨made, rfl⟩, i, k', inserted, same⟩ := run
      obtain ⟨-, rfl⟩ := Prod.mk.inj same
      exact .inr ⟨group, i, opened, made, inserted⟩

/-- No phi carries a group of moves. -/
def PlainPhis (g : Graph) : Prop :=
  ∀ (i : InstrId) (x : Instr), g.instrs[i]? = some x → x.isPhi = true → x.group = none

theorem not_phi_of_group (w : g.Woven h) (plain : PlainPhis g) {y : Instr}
    (found : h.instrs[i]? = some y) (grouped : y.group ≠ none) : h.phiAt i = false := by
  by_cases old : i < g.instrs.size
  · obtain ⟨z, foundZ, code, -, same⟩ := w.instr i g.instrs[i] (by simp)
    obtain rfl : y = z := by simpa [found] using foundZ
    cases phi : h.phiAt i with
    | false => rfl
    | true =>
      rw [phiAt_eq found, code.isPhi_eq] at phi
      exact absurd (same (plain i _ (by simp) phi)) grouped
  · exact w.phiAt_added (Nat.le_of_not_lt old)

theorem no_phi_behind {C : Block} (first : h.PhisFirst) (stored : h.blocks[b]? = some C)
    (listed : anchor ∈ C.instrs) (notPhi : h.phiAt anchor = false) :
    ∀ j ∈ C.instrs.drop (C.instrs.idxOf anchor), h.phiAt j = false := by
  intro j hj
  have bound : C.instrs.idxOf anchor < C.instrs.length := idxOf_lt_length_of_mem listed
  have ordered := first b C stored
  rw [← take_append_drop (C.instrs.idxOf anchor) C.instrs, List.pairwise_append] at ordered
  have tail := ordered.2.1
  rw [drop_eq_getElem_cons bound, getElem_idxOf] at hj tail
  rcases mem_cons.mp hj with rfl | hj
  · exact notPhi
  · by_contra phi
    have := (pairwise_cons.mp tail).1 j hj (by simpa using phi)
    simp [notPhi] at this

theorem moveBefore_woven (w : g.Woven h) (plain : PlainPhis g) {m : Move} {u : Unit}
    (notPhi : h.phiAt anchor = false) (run : moveBefore anchor m h = .ok (u, k)) :
    g.Woven k := by
  obtain ⟨x, C, earlier, fills, -, stored, listed, split, all, changed⟩ := moveBefore_run run
  rcases changed with ⟨i, -, changed⟩ | ⟨group, i, -, -, changed⟩
  · exact w.after_modifyGroup changed
  · refine w.after_insertAt changed ?_
    intro C' stored' j hj
    obtain rfl : C = C' := by simpa [stored] using stored'
    have rest : C.instrs.drop earlier.length =
        fills ++ C.instrs.drop (C.instrs.idxOf anchor) := by
      conv => lhs; rw [← take_append_drop (C.instrs.idxOf anchor) C.instrs, split]
      simp
    rw [rest, List.mem_append] at hj
    rcases hj with hj | hj
    · obtain ⟨y, found, fill⟩ := all j hj
      refine not_phi_of_group w plain found ?_
      intro none
      simp [purpose?, none] at fill
    · exact no_phi_behind w.phisFirst stored listed notPhi j hj

def ends (g : Graph) (b : BlockId) : Option (List BlockId × List BlockId) :=
  g.blocks[b]?.map fun B => (B.preds, B.succs)

theorem ends_insertAt {pos : Nat} {x : Instr} (run : insertAt b pos x h = .ok (i, k))
    (c : BlockId) : ends k c = ends h c := by
  obtain ⟨-, C, stored, -, rfl⟩ := insertAt_run.mp run
  rw [ends, block_inserted stored]
  split
  · rename_i same
    subst same
    simp [ends, stored]
  · rfl

theorem ends_modifyGroup {f : MoveGroup → Except Fault MoveGroup} {u : Unit}
    (run : modifyGroup i f h = .ok (u, k)) (c : BlockId) : ends k c = ends h c := by
  obtain ⟨_, _, _, -, -, -, rfl⟩ := modifyGroup_run.mp run
  rfl

def Moves (i j : Interval) : Prop :=
  i.stop = j.start ∧ i.location ≠ j.location ∧ j.location.isImmediate = false ∧ j.start % 2 = 1

theorem connect_run {n : Numbering} {i j : Interval} {u : Unit}
    (run : connect n i j h = .ok (u, k)) :
    (k = h ∧ (Moves i j → n.instrAt? (j.start + 1) = none)) ∨
      ∃ anchor, Moves i j ∧ n.instrAt? (j.start + 1) = some anchor ∧
        moveBefore anchor ⟨i.location, j.location, i.ty⟩ h = .ok (u, k) := by
  rw [connect] at run
  split at run
  · rename_i moves
    cases isAt : n.instrAt? (j.start + 1) with
    | none =>
      simp only [isAt, pure_run, Prod.mk.injEq] at run
      exact .inl ⟨run.2, fun _ => rfl⟩
    | some anchor =>
      simp only [isAt] at run
      exact .inr ⟨anchor, moves, rfl, run⟩
  · rename_i still
    obtain ⟨-, rfl⟩ := Prod.mk.inj (pure_run.mp run)
    exact .inl ⟨rfl, fun moves => absurd moves still⟩

theorem connectAll_keeps {P : Graph → Prop} {n : Numbering} {is : List Interval} {u : Unit}
    (step : ∀ i ∈ is, ∀ j ∈ is, ∀ anchor h k u, Moves i j → n.instrAt? (j.start + 1) = some anchor →
      moveBefore anchor ⟨i.location, j.location, i.ty⟩ h = .ok (u, k) → P h → P k)
    (run : connectAll n is h = .ok (u, k)) (start : P h) : P k := by
  fun_induction connectAll n is generalizing h with
  | case1 i j rest ih =>
    obtain ⟨_, next, first, run⟩ := bind_run.mp run
    have behind {m} (member : m ∈ j :: rest) := mem_cons_of_mem i member
    refine ih (fun m hm m' hm' => step m (behind hm) m' (behind hm')) run ?_
    rcases connect_run first with ⟨rfl, -⟩ | ⟨anchor, moves, isAt, moved⟩
    · exact start
    · exact step i mem_cons_self j (behind mem_cons_self) anchor h next _ moves isAt moved
        start
  | case2 is other =>
    obtain ⟨-, rfl⟩ := Prod.mk.inj (pure_run.mp run)
    exact start

theorem withinBlocks_keeps {P : Graph → Prop} {u : Unit}
    (step : ∀ id is, siblings l.pool id = .ok is → ∀ i ∈ is, ∀ j ∈ is, ∀ anchor h k u, Moves i j →
      l.numbering.instrAt? (j.start + 1) = some anchor →
      moveBefore anchor ⟨i.location, j.location, i.ty⟩ h = .ok (u, k) → P h → P k)
    (run : withinBlocks l h = .ok (u, k)) (start : P h) : P k := by
  refine forM_keeps ?_ run start
  intro id _ h k u kept run
  simp only [bind_run, lift_run] at run
  obtain ⟨is, _, ⟨isSiblings, rfl⟩, run⟩ := run
  exact connectAll_keeps (step id is isSiblings) run kept

theorem withinBlocks_woven (numbered : l.numbering.Numbered g) (consistent : g.Consistent)
    (first : g.PhisFirst) (plain : PlainPhis g) {u : Unit}
    (run : withinBlocks l g = .ok (u, h)) : g.Woven h ∧ ∀ c, ends h c = ends g c := by
  refine withinBlocks_keeps (P := fun h => g.Woven h ∧ ∀ c, ends h c = ends g c) ?_ run
    ⟨.refl consistent first, fun _ => rfl⟩
  intro id is _ i _ j _ anchor h k u _ isAt moved w
  obtain ⟨old, notPhi⟩ := numbered.instrAt_plain consistent isAt
  refine ⟨moveBefore_woven w.1 plain (by rw [w.1.phiAt_eq old, notPhi]) moved, ?_⟩
  intro c
  rw [← w.2 c]
  obtain ⟨_, _, _, _, -, -, -, -, -, changed⟩ := moveBefore_run moved
  rcases changed with ⟨i, -, changed⟩ | ⟨group, i, -, -, changed⟩
  · exact ends_modifyGroup changed c
  · exact ends_insertAt changed c

section

variable {succ pred : BlockId} {index : Nat} {last start : Position} {group : MoveGroup}

theorem addPhis_none {instrs : List InstrId} (found : ∀ i ∈ instrs, ∃ x, g.instrs[i]? = some x)
    (none : ∀ i ∈ instrs, g.phiAt i = false) :
    addPhis g l succ pred index last start instrs group = .ok group := by
  cases instrs with
  | nil => rfl
  | cons i rest =>
    obtain ⟨x, here⟩ := found i mem_cons_self
    have notPhi := none i mem_cons_self
    rw [phiAt_eq here] at notPhi
    simp [addPhis, instr_ok.mpr here, notPhi]

theorem addPhis_woven (w : g.Woven h) {instrs : List InstrId}
    (found : ∀ i ∈ instrs, ∃ y, h.instrs[i]? = some y)
    (first : instrs.Pairwise fun i j => h.phiAt j = true → h.phiAt i = true) :
    addPhis h l succ pred index last start instrs group =
      addPhis g l succ pred index last start (instrs.filter (· < g.instrs.size)) group := by
  induction instrs generalizing group with
  | nil => rfl
  | cons i rest ih =>
    obtain ⟨y, foundY⟩ := found i mem_cons_self
    obtain ⟨head, tail⟩ := pairwise_cons.mp first
    have others := fun j hj => found j (mem_cons_of_mem i hj)
    rw [addPhis, instr_ok.mpr foundY, ok_bind]
    by_cases old : i < g.instrs.size
    · have foundX : g.instrs[i]? = some g.instrs[i] := by simp
      obtain ⟨z, foundZ, code, -⟩ := w.instr i _ foundX
      obtain rfl : y = z := by simpa [foundY] using foundZ
      rw [filter_cons_of_pos (by simpa using old), addPhis, instr_ok.mpr foundX, ok_bind,
        code.isPhi_eq, code.inputs, code.results, code.ty]
      split
      · simp only [ih others tail]
      · rfl
    · have notPhi := w.phiAt_added (Nat.le_of_not_lt old)
      have here : y.isPhi = false := by rw [← phiAt_eq foundY, notPhi]
      rw [filter_cons_of_neg (by simpa using old), addPhis_none]
      · simp [here]
      · intro j hj
        obtain ⟨-, inside⟩ := mem_filter.mp hj
        exact ⟨_, Array.getElem?_eq_getElem (by simpa using inside)⟩
      · intro j hj
        obtain ⟨among, inside⟩ := mem_filter.mp hj
        rw [← w.phiAt_eq (by simpa using inside)]
        by_contra phi
        simp [notPhi] at head
        exact phi (by simpa using head j among)

theorem edgeMoves_woven (w : g.Woven h) {S : Block} (stored : g.blocks[succ]? = some S) :
    edgeMoves h l succ pred index last start = edgeMoves g l succ pred index last start := by
  obtain ⟨C, storedC, same, -⟩ := w.block succ S stored
  have types : h.typeOf = g.typeOf := by
    funext v
    rw [typeOf, typeOf, Graph.value, Graph.value, w.values]
  have phis : ∀ group, addPhis h l succ pred index last start C.instrs group =
      addPhis g l succ pred index last start (C.instrs.filter (· < g.instrs.size)) group :=
    fun group => addPhis_woven w
      (fun i hi => ((w.listed succ C storedC).2 i hi).imp fun _ found => found.1)
      (w.phisFirst succ C storedC)
  rw [edgeMoves, edgeMoves, block_ok.mpr storedC, block_ok.mpr stored, types]
  simp only [ok_bind, phis, same]

end

/-- Whether the moves of an edge between two blocks go to a block of their own: the first one has
other successors, and the second one has other predecessors, or phis. -/
def needsBlock (g : Graph) (pred succ : BlockId) : Bool :=
  match g.blocks[pred]?, g.blocks[succ]? with
  | some P, some S =>
    P.succs.length != 1 && !(S.preds.length == 1 && S.instrs.all fun i => !g.phiAt i)
  | _, _ => false

theorem joinAt_run {list list' : List (BlockId × InstrId)} {pos : Nat} {moves : MoveGroup}
    (run : joinAt list b pos moves h = .ok (list', k)) :
    (∃ i u, list.lookup b = some i ∧ list' = list ∧
      (k = h ∨ modifyGroup i (·.addAll moves.moves) h = .ok (u, k))) ∨
    ∃ i, list.lookup b = none ∧ insertAt b pos (ofGroup b moves) h = .ok (i, k) ∧
      list' = (b, i) :: list := by
  rw [joinAt] at run
  cases known : list.lookup b with
  | some i =>
    simp only [known, bind_run, ask_run] at run
    obtain ⟨x, _, ⟨found, rfl⟩, run⟩ := run
    split at run
    · simp only [bind_run, pure_run, Prod.mk.injEq] at run
      obtain ⟨u, k', changed, rfl, rfl⟩ := run
      exact .inl ⟨i, u, rfl, rfl, .inr changed⟩
    · simp only [pure_run, Prod.mk.injEq] at run
      exact .inl ⟨i, (), rfl, run.1, .inl run.2⟩
  | none =>
    simp only [known, bind_run, pure_run, Prod.mk.injEq] at run
    obtain ⟨i, k', inserted, rfl, rfl⟩ := run
    exact .inr ⟨i, rfl, inserted, rfl⟩

theorem joinEdge_run {j j' : Joints} {e : EdgeMoves} (run : joinEdge j e h = .ok (j', k)) :
    ∃ P S, h.blocks[e.pred]? = some P ∧
      ((∃ list, P.succs.length = 1 ∧
          joinAt j.tails e.pred P.instrs.length e.moves h = .ok (list, k) ∧
          j' = { j with tails := list }) ∨
        (∃ list, P.succs.length ≠ 1 ∧ h.blocks[e.succ]? = some S ∧ S.preds.length = 1 ∧
          h.numPhis e.succ = .ok 0 ∧ joinAt j.heads e.succ 0 e.moves h = .ok (list, k) ∧
          j' = { j with heads := list }) ∨
        ∃ n i mid, P.succs.length ≠ 1 ∧ h.blocks[e.succ]? = some S ∧
          (S.preds.length = 1 → h.numPhis e.succ ≠ .ok 0) ∧
          Build.splitEdge e.pred e.succ h = .ok (n, mid) ∧
          insertAt n 0 (ofGroup n e.moves) mid = .ok (i, k) ∧
          j' = { j with newBlocks := j.newBlocks + 1 }) := by
  rw [joinEdge] at run
  simp only [bind_run, ask_run, block_ok] at run
  obtain ⟨P, _, ⟨storedP, rfl⟩, run⟩ := run
  split at run
  · rename_i single
    simp only [bind_run, pure_run, Prod.mk.injEq] at run
    obtain ⟨list, _, joined, rfl, rfl⟩ := run
    exact ⟨P, P, storedP, .inl ⟨list, single, joined, rfl⟩⟩
  · rename_i several
    simp only [bind_run, ask_run, block_ok] at run
    obtain ⟨S, _, ⟨storedS, rfl⟩, run⟩ := run
    refine ⟨P, S, storedP, .inr ?_⟩
    split at run
    · rename_i one
      simp only [bind_run, ask_run, bind_ok, pure_ok] at run
      obtain ⟨atHead, _, ⟨⟨n, counted, rfl⟩, rfl⟩, run⟩ := run
      split at run
      · rename_i none
        obtain rfl : n = 0 := by simpa using none
        simp only [bind_run, pure_run, Prod.mk.injEq] at run
        obtain ⟨list, _, joined, rfl, rfl⟩ := run
        exact .inl ⟨list, several, storedS, one, counted, joined, rfl⟩
      · rename_i some
        simp only [bind_run, pure_run, Prod.mk.injEq] at run
        obtain ⟨n', mid, split, i, _, inserted, rfl, rfl⟩ := run
        refine .inr ⟨n', i, mid, several, storedS, ?_, split, inserted, rfl⟩
        intro _ none
        rw [counted, Except.ok.injEq] at none
        simp [none] at some
    · rename_i more
      simp only [bind_run, pure_run, Prod.mk.injEq] at run
      obtain ⟨_, _, ⟨rfl, rfl⟩, run⟩ := run
      simp only [Bool.false_eq_true, ↓reduceIte, bind_run, pure_run, Prod.mk.injEq]
        at run
      obtain ⟨n, mid, split, i, _, inserted, rfl, rfl⟩ := run
      exact .inr ⟨n, i, mid, several, storedS, fun one => absurd one more, split, inserted, rfl⟩

/-- What holds while the moves of edges are placed: `done` are the edges that got a block. -/
structure Joined (h : Graph) (done : List (EdgeMoves × BlockId)) (j : Joints) (k : Graph) : Prop where
  size : h.blocks.size ≤ k.blocks.size
  fresh : ∀ d ∈ done, h.blocks.size ≤ d.2 ∧ d.2 < k.blocks.size
  once : (done.map Prod.snd).Nodup
  all : ∀ n, h.blocks.size ≤ n → n < k.blocks.size → ∃ d ∈ done, d.2 = n
  block : ∀ d ∈ done, ∃ i, k.blocks[d.2]? = some ⟨[i], [d.1.pred], [d.1.succ]⟩ ∧
    k.instrs[i]? = some (ofGroup d.2 d.1.moves)
  preds : ∀ (b : BlockId) (B : Block), h.blocks[b]? = some B → ∃ C, k.blocks[b]? = some C ∧
    C.preds = (done.filter (·.1.succ = b)).foldl
      (fun ps d => Build.replaceFirst d.1.pred d.2 ps) B.preds
  ends : ∀ e ∈ j.heads ++ j.tails, ∃ y, k.instrs[e.2]? = some y ∧ y.block < h.blocks.size

namespace Joined

variable {done : List (EdgeMoves × BlockId)} {j : Joints} {a : Graph}

theorem at_start : Joined h [] ⟨[], [], 0⟩ h :=
  ⟨Nat.le_refl _, by simp, by simp, by lia, by simp, fun _ B stored => ⟨B, stored, rfl⟩, by simp⟩

theorem after_joinAt (joined : Joined h done j k) {list list' : List (BlockId × InstrId)} {pos : Nat}
    {moves : MoveGroup} (known : ∀ e ∈ list, e ∈ j.heads ++ j.tails) (old : b < h.blocks.size)
    (run : joinAt list b pos moves k = .ok (list', a)) {j' : Joints}
    (within : ∀ e ∈ j'.heads ++ j'.tails, e ∈ j.heads ++ j.tails ∨ e ∈ list') :
    Joined h done j' a := by
  rcases joinAt_run run with ⟨i, u, isAt, rfl, rfl | changed⟩ | ⟨i, -, inserted, rfl⟩
  · refine ⟨joined.size, joined.fresh, joined.once, joined.all, joined.block, joined.preds, ?_⟩
    intro e he
    exact joined.ends e ((within e he).elim id (known e))
  · obtain ⟨z, before, after, found, -, -, rfl⟩ := modifyGroup_run.mp changed
    obtain ⟨_, _, rfl, -⟩ := lookup_eq_some_iff.mp isAt
    have owner : z.block < h.blocks.size := by
      obtain ⟨y, foundY, owner⟩ := joined.ends (b, i) (known (b, i) (by simp))
      obtain rfl : z = y := by simpa [found] using foundY
      exact owner
    have lookup : ∀ m : InstrId, (k.instrs.setIfInBounds i { z with group := some after })[m]? =
        if i = m then some { z with group := some after } else k.instrs[m]? := by
      intro m
      rw [getElem?_setIfInBounds]
      simp [found_lt found]
    refine ⟨joined.size, joined.fresh, joined.once, joined.all, ?_, joined.preds, ?_⟩
    · -- the group of a new block belongs to the new block
      intro d hd
      obtain ⟨m, stored, grouped⟩ := joined.block d hd
      refine ⟨m, stored, ?_⟩
      rw [lookup, if_neg ?_, grouped]
      rintro rfl
      obtain rfl : z = ofGroup d.2 d.1.moves := by simpa [found] using grouped
      have := (joined.fresh d hd).1
      simp only [ofGroup, ofOpcode] at owner
      lia
    · intro e he
      obtain ⟨y, foundY, owned⟩ := joined.ends e ((within e he).elim id (known e))
      rw [lookup]
      split
      · exact ⟨_, rfl, owner⟩
      · exact ⟨y, foundY, owned⟩
  · obtain ⟨rfl, C, stored, -, rfl⟩ := insertAt_run.mp inserted
    have kept : ∀ (m : InstrId) (y : Instr), k.instrs[m]? = some y →
        (Build.inserted k b C pos (ofGroup b moves)).instrs[m]? = some y := by
      intro m y found
      rw [instr_inserted, if_neg (Nat.ne_of_lt (found_lt found)), found]
    refine ⟨?_, ?_, joined.once, ?_, ?_, ?_, ?_⟩
    · simpa [Build.inserted] using joined.size
    · simpa [Build.inserted] using joined.fresh
    · simpa [Build.inserted] using joined.all
    · intro d hd
      obtain ⟨m, storedD, grouped⟩ := joined.block d hd
      refine ⟨m, ?_, kept m _ grouped⟩
      rw [block_inserted stored, if_neg ?_, storedD]
      have := (joined.fresh d hd).1
      lia
    · intro c B storedB
      obtain ⟨D, storedD, preds⟩ := joined.preds c B storedB
      rw [block_inserted stored]
      split
      · rename_i same
        subst same
        obtain rfl : C = D := by simpa [stored] using storedD
        exact ⟨_, rfl, preds⟩
      · exact ⟨D, storedD, preds⟩
    · intro e he
      have : e ∈ j.heads ++ j.tails ∨ e = (b, k.instrs.size) := by
        rcases within e he with mem | mem
        · exact .inl mem
        · rcases mem_cons.mp mem with rfl | mem
          · exact .inr rfl
          · exact .inl (known e mem)
      rcases this with mem | rfl
      · obtain ⟨y, foundY, owned⟩ := joined.ends e mem
        exact ⟨y, kept _ _ foundY, owned⟩
      · exact ⟨_, by rw [instr_inserted, if_pos rfl], old⟩

theorem after_splitEdge (joined : Joined h done j k) {e : EdgeMoves} {n : BlockId} {mid : Graph}
    {moves : MoveGroup} (same : e.moves = moves) (oldP : e.pred < h.blocks.size)
    (oldS : e.succ < h.blocks.size) (split : Build.splitEdge e.pred e.succ k = .ok (n, mid))
    (inserted : insertAt n 0 (ofGroup n moves) mid = .ok (i, a)) {j' : Joints}
    (heads : j'.heads = j.heads) (tails : j'.tails = j.tails) :
    Joined h (done ++ [(e, n)]) j' a := by
  subst same
  obtain ⟨rfl, fields, size, new, others, -⟩ := splitEdge_run split
  obtain ⟨rfl, N, storedN, -, rfl⟩ := insertAt_run.mp inserted
  obtain rfl := mem_unique new storedN
  have instrs : mid.instrs = k.instrs := by rw [fields]
  have kept : ∀ (m : InstrId) (y : Instr), k.instrs[m]? = some y →
      (Build.inserted mid k.blocks.size ⟨[], [e.pred], [e.succ]⟩ 0
        (ofGroup k.blocks.size e.moves)).instrs[m]? = some y := by
    intro m y found
    rw [instr_inserted, instrs, if_neg (Nat.ne_of_lt (found_lt found)), found]
  have grown := joined.size
  refine ⟨?_, ?_, ?_, ?_, ?_, ?_, ?_⟩
  · simp only [Build.inserted, size_setIfInBounds, size]
    omega
  · intro d hd
    simp only [Build.inserted, size_setIfInBounds, size]
    rcases mem_append.mp hd with hd | hd
    · have := joined.fresh d hd
      lia
    · obtain rfl := mem_singleton.mp hd
      dsimp only
      lia
  · rw [List.map_append, nodup_append]
    refine ⟨joined.once, by simp, ?_⟩
    intro m hm m' hm' same
    obtain ⟨d, hd, rfl⟩ := mem_map.mp hm
    have := (joined.fresh d hd).2
    simp only [map_cons, map_nil, List.mem_singleton] at hm'
    lia
  · intro m low high
    simp only [Build.inserted, size_setIfInBounds, size] at high
    by_cases old : m < k.blocks.size
    · obtain ⟨d, hd, rfl⟩ := joined.all m low old
      exact ⟨d, mem_append_left _ hd, rfl⟩
    · exact ⟨(e, k.blocks.size), by simp, by lia⟩
  · intro d hd
    rcases mem_append.mp hd with hd | hd
    · obtain ⟨m, stored, grouped⟩ := joined.block d hd
      have fresh := joined.fresh d hd
      refine ⟨m, ?_, kept m _ grouped⟩
      rw [block_inserted storedN, if_neg (Nat.ne_of_lt fresh.2), others _ _ stored,
        rerouted]
      rw [if_neg (by lia), if_neg (by lia)]
    · obtain rfl := mem_singleton.mp hd
      refine ⟨mid.instrs.size, ?_, ?_⟩
      · rw [block_inserted storedN, if_pos rfl]
        rfl
      · rw [instr_inserted, if_pos rfl]
        rfl
  · intro c B storedB
    obtain ⟨D, storedD, preds⟩ := joined.preds c B storedB
    have bound : c < h.blocks.size := found_lt storedB
    refine ⟨rerouted e.pred e.succ k.blocks.size c D, ?_, ?_⟩
    · rw [block_inserted storedN, if_neg (by lia), others c D storedD]
    · rw [rerouted, List.filter_append, List.foldl_append, ← preds]
      by_cases here : c = e.succ
      · subst here
        simp
      · simp [here, Ne.symm here]
  · rw [heads, tails]
    intro e' he
    obtain ⟨y, foundY, owned⟩ := joined.ends e' he
    exact ⟨y, kept _ _ foundY, owned⟩

end Joined

section

variable (consistent : g.Consistent) (first : g.PhisFirst)

include consistent first

theorem numPhis_eq (w : g.Woven h) {S : Block}
    (stored : g.blocks[b]? = some S) : h.numPhis b = .ok (S.instrs.filter g.phiAt).length := by
  have found : ∀ i ∈ S.instrs, ∃ x, g.instrs[i]? = some x :=
    fun i hi => (consistent.instr_of_listed stored hi).imp fun _ h => h.1
  rw [numPhis, w.phis_eq first stored found, Graph.phis, block_ok.mpr stored, ok_bind,
    phisAmong_eq found (first b S stored)]
  rfl

theorem no_phi_of_numPhis (w : g.Woven h)
    {S C : Block} (stored : g.blocks[b]? = some S) (storedC : h.blocks[b]? = some C)
    (none : h.numPhis b = .ok 0) : ∀ j ∈ C.instrs, h.phiAt j = false := by
  intro j listed
  rw [numPhis_eq consistent first w stored, Except.ok.injEq, length_eq_zero_iff,
    filter_eq_nil_iff] at none
  by_cases old : j < g.instrs.size
  · obtain ⟨C', storedC', same, -⟩ := w.block b S stored
    obtain rfl := mem_unique storedC storedC'
    have among : j ∈ S.instrs := by
      rw [← same]
      exact mem_filter.mpr ⟨listed, by simpa using old⟩
    rw [w.phiAt_eq old]
    simpa using none j among
  · exact w.phiAt_added (Nat.le_of_not_lt old)

theorem needsBlock_iff (w : g.Woven k)
    {pred succ : BlockId} {P S : Block} (oldP : pred < g.blocks.size) (oldS : succ < g.blocks.size)
    (atP : k.blocks[pred]? = some P) (atS : k.blocks[succ]? = some S) :
    needsBlock g pred succ = true ↔
      P.succs.length ≠ 1 ∧ (S.preds.length = 1 → k.numPhis succ ≠ .ok 0) := by
  have storedP := Array.getElem?_eq_getElem oldP
  have storedS := Array.getElem?_eq_getElem oldS
  obtain ⟨P', atP', -, -, succs⟩ := w.block _ _ storedP
  obtain ⟨S', atS', -, preds, -⟩ := w.block _ _ storedS
  obtain rfl := mem_unique atP atP'
  obtain rfl := mem_unique atS atS'
  have noPhis : (g.blocks[succ].instrs.filter g.phiAt).length = 0 ↔
      (g.blocks[succ].instrs.all fun i => !g.phiAt i) = true := by
    rw [length_eq_zero_iff, filter_eq_nil_iff, List.all_eq_true]
    simp
  rw [needsBlock, storedP, storedS, numPhis_eq consistent first w storedS, succs, preds]
  simp only [Bool.and_eq_true, bne_iff_ne, ne_eq, Bool.not_eq_true', Bool.and_eq_false_imp,
    beq_iff_eq, Except.ok.injEq, noPhis, Bool.not_eq_true]

theorem joinEdge_step (w : g.Woven k)
    {done : List (EdgeMoves × BlockId)} {j j' : Joints} {a : Graph} {e : EdgeMoves}
    (joined : Joined h done j k) (size : h.blocks.size = g.blocks.size)
    (oldP : e.pred < g.blocks.size) (oldS : e.succ < g.blocks.size)
    (run : joinEdge j e k = .ok (j', a)) :
    g.Woven a ∧ ∃ more, more.map Prod.fst = [e].filter (fun e => needsBlock g e.pred e.succ) ∧
      Joined h (done ++ more) j' a := by
  have storedP : g.blocks[e.pred]? = some g.blocks[e.pred] := by simp
  have storedS : g.blocks[e.succ]? = some g.blocks[e.succ] := by simp
  obtain ⟨P, atP, -⟩ := w.block _ _ storedP
  obtain ⟨S, atS, -⟩ := w.block _ _ storedS
  have needs := needsBlock_iff consistent first w oldP oldS atP atS
  obtain ⟨P', S', atP', placed⟩ := joinEdge_run run
  obtain rfl : P = P' := by simpa [atP] using atP'
  rw [← size] at oldP oldS
  rcases placed with ⟨list, single, placed, rfl⟩ | ⟨list, several, atS', one, none, placed, rfl⟩ |
    ⟨n, i, mid, several, atS', some, split, inserted, rfl⟩
  · have stays : needsBlock g e.pred e.succ = false := by
      by_contra yes
      exact (needs.mp (by simpa using yes)).1 single
    refine ⟨?_, [], by simp [stays], ?_⟩
    · rcases joinAt_run placed with ⟨i, u, -, -, rfl | changed⟩ | ⟨i, -, inserted, -⟩
      · exact w
      · exact w.after_modifyGroup changed
      · refine w.after_insertAt inserted ?_
        intro C stored j hj
        obtain rfl : P = C := by simpa [atP] using stored
        simp at hj
    · rw [append_nil]
      refine joined.after_joinAt (fun e he => mem_append_right _ he) oldP placed ?_
      intro e he
      rcases mem_append.mp he with he | he
      · exact .inl (mem_append_left _ he)
      · exact .inr he
  · have stays : needsBlock g e.pred e.succ = false := by
      by_contra yes
      obtain rfl : S = S' := by simpa [atS] using atS'
      exact (needs.mp (by simpa using yes)).2 one none
    refine ⟨?_, [], by simp [stays], ?_⟩
    · rcases joinAt_run placed with ⟨i, u, -, -, rfl | changed⟩ | ⟨i, -, inserted, -⟩
      · exact w
      · exact w.after_modifyGroup changed
      · refine w.after_insertAt inserted ?_
        intro C stored j hj
        exact no_phi_of_numPhis consistent first w storedS stored none j (by simpa using hj)
    · rw [append_nil]
      refine joined.after_joinAt (fun e he => mem_append_left _ he) oldS placed ?_
      intro e he
      rcases mem_append.mp he with he | he
      · exact .inr he
      · exact .inl (mem_append_right _ he)
  · obtain rfl : S = S' := by simpa [atS] using atS'
    have goes := needs.mpr ⟨several, some⟩
    refine ⟨?_, [(e, n)], by simp [goes], joined.after_splitEdge rfl oldP oldS split inserted rfl rfl⟩
    refine (w.after_splitEdge split).after_insertAt inserted ?_
    intro C stored j hj
    obtain ⟨rfl, -, -, new, -⟩ := splitEdge_run split
    obtain rfl := mem_unique new stored
    simp at hj

theorem joinEdges_run (size : h.blocks.size = g.blocks.size) {es : List EdgeMoves}
    (old : ∀ e ∈ es, e.pred < g.blocks.size ∧ e.succ < g.blocks.size)
    {done : List (EdgeMoves × BlockId)} {j j' : Joints} {a : Graph} (w : g.Woven k)
    (joined : Joined h done j k) (run : es.foldlM joinEdge j k = .ok (j', a)) :
    g.Woven a ∧ ∃ more, more.map Prod.fst = es.filter (fun e => needsBlock g e.pred e.succ) ∧
      Joined h (done ++ more) j' a := by
  induction es generalizing done j k with
  | nil =>
    obtain ⟨rfl, rfl⟩ := Prod.mk.inj (pure_run.mp run)
    exact ⟨w, [], rfl, by simpa using joined⟩
  | cons e rest ih =>
    rw [foldlM_cons, bind_run] at run
    obtain ⟨mid, next, step, run⟩ := run
    have ends := old e mem_cons_self
    obtain ⟨w, more, here, joined⟩ :=
      joinEdge_step consistent first w joined size ends.1 ends.2 step
    obtain ⟨w, others, there, joined⟩ :=
      ih (fun e he => old e (mem_cons_of_mem _ he)) w joined run
    refine ⟨w, more ++ others, ?_, by simpa using joined⟩
    rw [List.map_append, here, there, ← List.filter_append]
    rfl

end

/-- The moves of the edge into a block from its predecessor at an index. -/
def edgeGroup (g : Graph) (l : Liveness) (succ pred : BlockId) (index : Nat) :
    Except Fault MoveGroup :=
  match l.numbering.rangeOf? succ, l.numbering.rangeOf? pred with
  | some here, some there => edgeMoves g l succ pred index (there.stop - 2) here.start
  | _, _ => .ok (.empty .phiMove)

/-- Whether the edge into a block from its predecessor at an index needs moves. -/
def needsMoves (g : Graph) (l : Liveness) (succ pred : BlockId) (index : Nat) : Bool :=
  match edgeGroup g l succ pred index with
  | .ok group => !group.isEmpty
  | .error _ => false

def edgeAt (g : Graph) (l : Liveness) (succ : BlockId) (entry : BlockId × Nat) : Option EdgeMoves :=
  match edgeGroup g l succ entry.1 entry.2 with
  | .ok group => if group.isEmpty then none else some ⟨entry.1, succ, group⟩
  | .error _ => none

theorem edgesInto_ok {succ : BlockId} {S : Block} {es : List EdgeMoves}
    (stored : g.blocks[succ]? = some S) (run : edgesInto g l succ = .ok es) :
    es = S.preds.zipIdx.filterMap (edgeAt g l succ) ∧
      ∀ entry ∈ S.preds.zipIdx, ∃ group, edgeGroup g l succ entry.1 entry.2 = .ok group := by
  rw [edgesInto] at run
  cases range : l.numbering.rangeOf? succ with
  | none =>
    simp only [range, pure_ok] at run
    subst run
    have empty : ∀ entry : BlockId × Nat,
        edgeGroup g l succ entry.1 entry.2 = .ok (.empty .phiMove) := by
      intro entry
      rw [edgeGroup, range]
    refine ⟨?_, fun entry _ => ⟨_, empty entry⟩⟩
    rw [eq_comm, filterMap_eq_nil_iff]
    intro entry _
    simp [edgeAt, empty entry, MoveGroup.isEmpty, MoveGroup.empty]
  | some here =>
    simp only [range, block_ok.mpr stored, ok_bind, bind_ok, mapM_ok, pure_ok] at run
    obtain ⟨found, each, rfl⟩ := run
    have known : Forall₂ (fun entry edge => edge = edgeAt g l succ entry ∧
        ∃ group, edgeGroup g l succ entry.1 entry.2 = .ok group) S.preds.zipIdx found := by
      refine each.imp ?_
      rintro ⟨pred, index⟩ edge made
      cases there : l.numbering.rangeOf? pred with
      | none =>
        simp only [there, pure_ok] at made
        subst made
        simp [edgeAt, edgeGroup, range, there, MoveGroup.isEmpty, MoveGroup.empty]
      | some there' =>
        simp only [there, bind_ok, pure_ok] at made
        obtain ⟨group, collected, rfl⟩ := made
        simp [edgeAt, edgeGroup, range, there, collected]
    clear each
    refine ⟨?_, ?_⟩
    · have same : found = S.preds.zipIdx.map (edgeAt g l succ) := by
        rw [eq_comm, ← forall₂_eq_eq_eq, forall₂_map_left_iff]
        exact known.imp fun entry edge h => h.1.symm
      rw [same, List.filterMap_map]
      rfl
    · intro entry member
      generalize S.preds.zipIdx = entries at known member
      induction known with
      | nil => simp at member
      | cons head _ ih =>
        rcases mem_cons.mp member with rfl | member
        · exact head.2
        · exact ih member

theorem edgeAt_eq {succ : BlockId} {entry : BlockId × Nat} {e : EdgeMoves} :
    edgeAt g l succ entry = some e ↔ e.pred = entry.1 ∧ e.succ = succ ∧
      edgeGroup g l succ entry.1 entry.2 = .ok e.moves ∧ e.moves.isEmpty = false := by
  obtain ⟨pred, succ', moves⟩ := e
  rw [edgeAt]
  cases edgeGroup g l succ entry.1 entry.2 with
  | error f => simp
  | ok group =>
    simp only [Except.ok.injEq, ite_none_left_eq_some, some.injEq, EdgeMoves.mk.injEq,
      Bool.not_eq_true]
    constructor
    · rintro ⟨some, rfl, rfl, rfl⟩
      exact ⟨rfl, rfl, rfl, some⟩
    · rintro ⟨rfl, rfl, rfl, some⟩
      exact ⟨some, rfl, rfl, rfl⟩

theorem edgesInto_succ {succ : BlockId} {S : Block} {row : List EdgeMoves}
    (stored : g.blocks[succ]? = some S) (run : edgesInto g l succ = .ok row) :
    ∀ e ∈ row, e.succ = succ ∧ e.pred ∈ S.preds := by
  intro e he
  rw [(edgesInto_ok stored run).1, List.mem_filterMap] at he
  obtain ⟨entry, member, made⟩ := he
  obtain ⟨pred, same, -⟩ := edgeAt_eq.mp made
  exact ⟨same, pred ▸ fst_mem_of_mem_zipIdx member⟩

theorem edges_into {order : List BlockId} {rows : List (List EdgeMoves)} {succ : BlockId}
    {row : List EdgeMoves} (once : order.Nodup)
    (stored : ∀ b ∈ order, ∃ B, g.blocks[b]? = some B)
    (each : Forall₂ (fun b row => edgesInto g l b = .ok row) order rows)
    (found : edgesInto g l succ = .ok row) :
    rows.flatten.filter (·.succ = succ) = if succ ∈ order then row else [] := by
  induction each with
  | nil => simp
  | @cons b here order rows run _ ih =>
    obtain ⟨B, storedB⟩ := stored b mem_cons_self
    obtain ⟨fresh, once⟩ := nodup_cons.mp once
    have rest := ih once fun c hc => stored c (mem_cons_of_mem b hc)
    have all := edgesInto_succ storedB run
    rw [flatten_cons, List.filter_append, rest]
    by_cases same : succ = b
    · subst same
      obtain rfl : row = here := by simpa [found] using run
      have every : row.filter (·.succ = succ) = row := by
        rw [List.filter_eq_self]
        exact fun e he => by simpa using (all e he).1
      simp [every, fresh]
    · have none : here.filter (·.succ = succ) = [] := by
        rw [filter_eq_nil_iff]
        intro e he
        simpa [(all e he).1] using Ne.symm same
      simp [none, same]

theorem filterMap_zipIdx {f : BlockId × Nat → Option EdgeMoves} {pred : BlockId}
    (keeps : ∀ entry e, f entry = some e → e.pred = entry.1) (preds : List BlockId) (s : Nat) :
    ((preds.zipIdx s).filterMap f).filter (·.pred = pred) =
      (preds.idxsOf pred s).filterMap fun index => f (pred, index) := by
  induction preds generalizing s with
  | nil => rfl
  | cons p rest ih =>
    have others := ih (s + 1)
    simp only [idxsOf] at others ⊢
    rw [zipIdx_cons, findIdxs_cons, filterMap_cons]
    by_cases same : p = pred
    · subst same
      rw [if_pos (by simp), filterMap_cons]
      cases made : f (p, s) with
      | none => exact others
      | some e => simp [keeps _ _ made, others]
    · rw [if_neg (by simpa using same)]
      cases made : f (p, s) with
      | none => exact others
      | some e => simp [keeps _ _ made, same, others]

theorem getElem_filterMap {α β : Type} (f : α → Option β) (xs : List α) (j : Nat) :
    (xs.filterMap f)[j]? = ((xs.filter fun x => (f x).isSome)[j]?).bind f := by
  induction xs generalizing j with
  | nil => simp
  | cons x rest ih =>
    rw [filterMap_cons, filter_cons]
    cases made : f x with
    | none => simpa using ih j
    | some y =>
      cases j with
      | zero => simp [made]
      | succ j => simpa using ih j

theorem edgesInto_woven (w : g.Woven h) (same : ∀ c, ends h c = ends g c) {succ : BlockId} {S : Block}
    (stored : g.blocks[succ]? = some S) : edgesInto h l succ = edgesInto g l succ := by
  obtain ⟨C, storedC, -⟩ := w.block succ S stored
  have preds : C.preds = S.preds := by
    have := same succ
    simp only [ends, storedC, stored, map_some, some.injEq, Prod.mk.injEq] at this
    exact this.1
  rw [edgesInto, edgesInto, block_ok.mpr storedC, block_ok.mpr stored]
  simp only [ok_bind, preds, edgeMoves_woven w stored]

/-- The places at which a block has a predecessor whose edge there gets a block for its moves. -/
def blockedEdges (g : Graph) (l : Liveness) (S : Block) (succ pred : BlockId) : List Nat :=
  (S.preds.idxsOf pred).filter fun index =>
    needsBlock g pred succ && needsMoves g l succ pred index

theorem isSome_edgeAt (succ pred : BlockId) (index : Nat) :
    (edgeAt g l succ (pred, index)).isSome = needsMoves g l succ pred index := by
  rw [edgeAt, needsMoves]
  cases edgeGroup g l succ pred index with
  | error f => rfl
  | ok group => cases empty : group.isEmpty <;> simp [empty]

theorem connect_ok {count : Nat} {a : Graph} (run : l.connect g = .ok (count, a)) :
    ∃ h es j u, withinBlocks l g = .ok (u, h) ∧ edges h l = .ok es ∧
      es.foldlM joinEdge ⟨[], [], 0⟩ h = .ok (j, a) ∧ count = j.newBlocks := by
  rw [Liveness.connect] at run
  simp only [bind_run, ask_run, pure_run, Prod.mk.injEq] at run
  obtain ⟨u, h, within, es, _, ⟨found, rfl⟩, j, _, joined, rfl, rfl⟩ := run
  exact ⟨_, es, j, u, within, found, joined, rfl⟩

theorem edges_woven (numbered : l.numbering.Numbered g) (w : g.Woven h)
    (same : ∀ c, ends h c = ends g c) : edges h l = edges g l := by
  have stored := (reversePostOrder_ok numbered.ordered).stored
  have rows : l.numbering.order.mapM (edgesInto h l) = l.numbering.order.mapM (edgesInto g l) := by
    refine mapM_congr fun b hb => ?_
    obtain ⟨B, storedB⟩ := stored b hb
    exact edgesInto_woven w same storedB
  rw [edges, edges, rows]

theorem size_of_ends (same : ∀ c, ends h c = ends g c) : h.blocks.size = g.blocks.size := by
  have none : ∀ c : BlockId, h.blocks.size ≤ c ↔ g.blocks.size ≤ c := by
    intro c
    have := same c
    rw [ends, ends] at this
    rw [← Array.getElem?_eq_none_iff, ← Array.getElem?_eq_none_iff]
    cases hc : h.blocks[c]? <;> cases gc : g.blocks[c]? <;> simp_all
  exact Nat.le_antisymm ((none _).mpr (Nat.le_refl _)) ((none _).mp (Nat.le_refl _))

theorem edges_ok {es : List EdgeMoves} : edges g l = .ok es ↔
    ∃ rows, l.numbering.order.mapM (edgesInto g l) = .ok rows ∧ rows.flatten = es := by
  simp only [edges, bind_ok, pure_ok]

theorem edges_old (numbered : l.numbering.Numbered g) (consistent : g.Consistent)
    {es : List EdgeMoves} (found : edges g l = .ok es) :
    ∀ e ∈ es, e.pred < g.blocks.size ∧ e.succ < g.blocks.size := by
  obtain ⟨rows, each, rfl⟩ := edges_ok.mp found
  intro e he
  obtain ⟨row, hrow, he⟩ := mem_flatten.mp he
  obtain ⟨b, hb, run⟩ := mapM_mem_result each hrow
  obtain ⟨B, storedB⟩ := (reversePostOrder_ok numbered.ordered).stored b hb
  obtain ⟨succ, pred⟩ := edgesInto_succ storedB run e he
  obtain ⟨P, storedP, -⟩ := consistent.succ_of_pred storedB pred
  rw [succ]
  exact ⟨(found_lt storedP), (found_lt storedB)⟩

theorem connect_blocks (numbered : l.numbering.Numbered g) (consistent : g.Consistent)
    (first : g.PhisFirst) (plain : PlainPhis g) {count : Nat} {a : Graph}
    (run : l.connect g = .ok (count, a)) :
    g.Woven a ∧ ∃ rows done j h,
      Forall₂ (fun b row => edgesInto g l b = .ok row) l.numbering.order rows ∧
      (∀ c, ends h c = ends g c) ∧
      done.map Prod.fst = rows.flatten.filter (fun e => needsBlock g e.pred e.succ) ∧
      Joined h done j a := by
  obtain ⟨h, es, j, u, within, found, joined, -⟩ := connect_ok run
  obtain ⟨w, same⟩ := withinBlocks_woven numbered consistent first plain within
  rw [edges_woven numbered w same] at found
  have old := edges_old numbered consistent found
  obtain ⟨rows, each, rfl⟩ := edges_ok.mp found
  rw [mapM_ok] at each
  obtain ⟨w, done, made, joined⟩ :=
    joinEdges_run consistent first (size_of_ends same) old w .at_start joined
  exact ⟨w, rows, done, j, h, each, same, made, by simpa using joined⟩

/-- The predecessors of a block once edges have got blocks: each place of a predecessor has the block
of the edge whose turn it is, or keeps the predecessor. -/
theorem landed_of_joined {done : List (EdgeMoves × BlockId)} {j : Joints} {a : Graph}
    (joined : Joined h done j a) (consistent : g.Consistent) (same : ∀ c, ends h c = ends g c)
    {succ pred : BlockId} {S A : Block} (stored : g.blocks[succ]? = some S)
    (storedA : a.blocks[succ]? = some A)
    (olds : ∀ d ∈ done, d.1.succ = succ → d.1.pred ∈ S.preds) {turn place : Nat}
    (isAt : (S.preds.idxsOf pred)[turn]? = some place) :
    A.preds[place]? = some (((((done.filter (·.1.succ = succ)).filter (·.1.pred = pred)).map
      Prod.snd)[turn]?).getD pred) := by
  obtain ⟨B, storedB, preds⟩ : ∃ B, h.blocks[succ]? = some B ∧ B.preds = S.preds := by
    have := same succ
    rw [ends, ends, stored] at this
    obtain ⟨B, storedB, both⟩ := map_eq_some_iff.mp this
    exact ⟨B, storedB, (Prod.mk.inj both).1⟩
  obtain ⟨A', storedA', predsA⟩ := joined.preds succ B storedB
  obtain rfl := mem_unique storedA storedA'
  let pairs := (done.filter (·.1.succ = succ)).map fun d => (d.1.pred, d.2)
  have seconds : pairs.map Prod.snd = (done.filter (·.1.succ = succ)).map Prod.snd := by
    simp [pairs]
  have outside : ∀ p ∈ S.preds, p ∉ pairs.map Prod.snd := by
    intro p hp among
    rw [seconds] at among
    obtain ⟨d, hd, rfl⟩ := mem_map.mp among
    obtain ⟨P, storedP, -⟩ := consistent.succ_of_pred stored hp
    have := (joined.fresh d (mem_filter.mp hd).1).1
    have := found_lt storedP
    have := size_of_ends same
    lia
  have apart : ∀ p ∈ pairs.map Prod.fst, p ∉ pairs.map Prod.snd := by
    intro p hp
    obtain ⟨pair, hpair, rfl⟩ := mem_map.mp hp
    obtain ⟨d, hd, rfl⟩ := mem_map.mp hpair
    obtain ⟨hd, here⟩ := mem_filter.mp hd
    exact outside _ (olds d hd (by simpa using here))
  have once : (pairs.map Prod.snd).Nodup := by
    rw [seconds]
    exact joined.once.sublist (filter_sublist.map _)
  have fold : A.preds = pairs.foldl (fun ps pair => Build.replaceFirst pair.1 pair.2 ps) S.preds := by
    rw [predsA, preds, List.foldl_map]
  have filtered : (pairs.filter (·.1 = pred)).map Prod.snd =
      ((done.filter (·.1.succ = succ)).filter (·.1.pred = pred)).map Prod.snd := by
    rw [List.filter_map, List.map_map]
    rfl
  rw [fold, Build.getElem_replacements once apart
    (outside pred (mem_of_getElem? (Build.getElem_of_idxsOf.mp (mem_of_getElem? isAt))))
    isAt, filtered]

/-- Edges between the same two blocks take turns: the first one that gets a block has it in the
first place of its predecessor, the next one in the next place, and the places left over keep the
predecessor. -/
theorem blocks_take_turns (consistent : g.Consistent) (valid : g.validate = .ok ())
    (isNumbering : Numbering.ofGraph g = .ok l.numbering) (plain : PlainPhis g) {count : Nat}
    {a : Graph} (run : l.connect g = .ok (count, a)) {succ : BlockId} {S : Block}
    (member : succ ∈ l.numbering.order) (stored : g.blocks[succ]? = some S) :
    ∃ A, a.blocks[succ]? = some A ∧ A.preds.length = S.preds.length ∧
      ∀ (pred : BlockId) (turn place : Nat), (S.preds.idxsOf pred)[turn]? = some place →
        (∀ index, (blockedEdges g l S succ pred)[turn]? = some index → ∃ n i group,
          A.preds[place]? = some n ∧ g.blocks.size ≤ n ∧ a.blocks[n]? = some ⟨[i], [pred], [succ]⟩ ∧
          a.instrs[i]? = some (Instr.ofGroup n group) ∧
          edgeGroup g l succ pred index = .ok group) ∧
        ((blockedEdges g l S succ pred)[turn]? = none → A.preds[place]? = some pred) := by
  obtain ⟨tree, order, isValid⟩ := Graph.validate_ok valid
  have numbered := Numbering.numbered_ofGraph consistent isNumbering
  obtain ⟨w, rows, done, j, h, each, same, made, joined⟩ :=
    connect_blocks numbered consistent isValid.phis_first plain run
  have ordered := Graph.reversePostOrder_ok numbered.ordered
  have size := size_of_ends same
  obtain ⟨A, storedA, -, length, -⟩ := w.block succ S stored
  refine ⟨A, storedA, length, ?_⟩
  intro pred turn place isAt
  obtain ⟨row, -, found⟩ := mapM_mem (mapM_ok.mpr each) member
  have into := edges_into ordered.once ordered.stored each found
  rw [if_pos member] at into
  -- the edges from `pred` that got a block, in the order in which they got it
  let own := (done.filter (·.1.succ = succ)).filter (·.1.pred = pred)
  have edgesOf : (own.map Prod.fst)[turn]? =
      ((blockedEdges g l S succ pred)[turn]?).bind fun index => edgeAt g l succ (pred, index) := by
    have list : own.map Prod.fst = ((S.preds.idxsOf pred).filterMap fun index =>
        edgeAt g l succ (pred, index)).filter fun e => needsBlock g e.pred e.succ := by
      rw [← filterMap_zipIdx (fun entry e made => (edgeAt_eq.mp made).1),
        ← (edgesInto_ok stored found).1, ← into]
      have firsts : own.map Prod.fst =
          ((done.map Prod.fst).filter (·.succ = succ)).filter (·.pred = pred) := by
        rw [List.filter_map, List.filter_map]
        rfl
      rw [firsts, made]
      simp only [List.filter_filter]
      refine filter_congr fun e _ => ?_
      ac_rfl
    rw [list]
    cases shared : needsBlock g pred succ with
    | true =>
      rw [List.filter_eq_self.mpr, getElem_filterMap]
      · simp only [blockedEdges, shared, Bool.true_and, isSome_edgeAt]
      · intro e he
        obtain ⟨index, -, made⟩ := mem_filterMap.mp he
        obtain ⟨atPred, atSucc, -⟩ := edgeAt_eq.mp made
        rw [atPred, atSucc, shared]
    | false =>
      rw [filter_eq_nil_iff.mpr]
      · simp [blockedEdges, shared]
      · intro e he
        obtain ⟨index, -, made⟩ := mem_filterMap.mp he
        obtain ⟨atPred, atSucc, -⟩ := edgeAt_eq.mp made
        rw [atPred, atSucc, shared]
        simp
  have landed := landed_of_joined joined consistent same stored storedA (fun d hd here => ?_) isAt
  swap
  · have among : d.1 ∈ done.map Prod.fst := mem_map_of_mem hd
    rw [made] at among
    have : d.1 ∈ row := by
      rw [← into]
      exact mem_filter.mpr ⟨(mem_filter.mp among).1, by simpa using here⟩
    exact (edgesInto_succ stored found d.1 this).2
  constructor
  · intro index turned
    have needed : needsMoves g l succ pred index = true := by
      have := mem_of_getElem? turned
      simp only [blockedEdges, List.mem_filter, Bool.and_eq_true] at this
      exact this.2.2
    rw [turned, bind_some] at edgesOf
    rw [← isSome_edgeAt] at needed
    obtain ⟨e, edge⟩ := isSome_iff_exists.mp needed
    obtain ⟨atPred, atSucc, collected, -⟩ := edgeAt_eq.mp edge
    rw [edge, List.getElem?_map] at edgesOf
    obtain ⟨d, hd, rfl⟩ := map_eq_some_iff.mp edgesOf
    have among : d ∈ done :=
      (mem_filter.mp (mem_filter.mp (mem_of_getElem? hd)).1).1
    obtain ⟨i, block, grouped⟩ := joined.block d among
    rw [List.getElem?_map, hd, Option.map_some, Option.getD_some] at landed
    rw [atPred, atSucc] at block
    exact ⟨d.2, i, d.1.moves, landed, size ▸ (joined.fresh d among).1, block, grouped, collected⟩
  · intro none
    rw [none, Option.bind_none, List.getElem?_map, Option.map_eq_none_iff] at edgesOf
    rw [List.getElem?_map, edgesOf] at landed
    exact landed

/-- Both ways out of the first block lead to the second one, where a phi takes another operand along
each of them. -/
def twoWays : Graph :=
  { Graph.new "two ways" .aarch64 with
    blocks := #[⟨[0, 1, 3], [], [1, 1]⟩, ⟨[2, 4], [0, 0], []⟩]
    instrs := #[
      { ofOpcode .parameter 0 .int64 with results := [0] },
      { ofOpcode .parameter 0 .int64 with results := [1] },
      { ofOpcode .phi 1 .int64 with inputs := [0, 1], results := [2] },
      { ofOpcode (.branch .eq) 0 .void with inputs := [0, 1] },
      { ofOpcode .ret 1 .int64 with inputs := [2] }]
    values := #[⟨0, .int64⟩, ⟨1, .int64⟩, ⟨2, .int64⟩] }

def twoWaysPlaced : Except Fault Liveness := do
  let l ← Liveness.ofGraph twoWays twoWays.target
  let placed := zipWith (fun i r => { i with location := .register r })
    l.pool.intervals.toList [0, 1, 0]
  return { l with pool := ⟨placed.toArray⟩ }

/-- The one block is made for the second edge, and put in the first place. -/
theorem second_edge_in_first_place :
    ∃ l count a, twoWaysPlaced = .ok l ∧ l.connect twoWays = .ok (count, a) ∧
      needsMoves twoWays l 1 0 0 = false ∧ needsMoves twoWays l 1 0 1 = true ∧
      a.blocks[1]? = some ⟨[2, 4], [2, 0], []⟩ ∧ a.blocks[2]? = some ⟨[5], [0], [1]⟩ := by
  have connected : (do
      let l ← twoWaysPlaced
      let (_, a) ← l.connect twoWays
      return (needsMoves twoWays l 1 0 0, needsMoves twoWays l 1 0 1, a.blocks[1]?, a.blocks[2]?)) =
      .ok (false, true, some ⟨[2, 4], [2, 0], []⟩, some ⟨[5], [0], [1]⟩) := by
    decide +kernel
  obtain ⟨l, placed, connected⟩ := bind_ok.mp connected
  obtain ⟨⟨count, a⟩, run, same⟩ := bind_ok.mp connected
  obtain ⟨first, second, one, two⟩ := by simpa only [pure_ok, Prod.mk.injEq] using same
  exact ⟨l, count, a, placed, run, first, second, one, two⟩

/-- The first turn of the predecessor goes to its second edge. -/
theorem twoWays_takes_turns :
    ∃ l count a A, twoWaysPlaced = .ok l ∧ l.connect twoWays = .ok (count, a) ∧
      a.blocks[1]? = some A ∧ blockedEdges twoWays l ⟨[2, 4], [0, 0], []⟩ 1 0 = [1] ∧
      ∃ n i group, A.preds[0]? = some n ∧ a.blocks[n]? = some ⟨[i], [0], [1]⟩ ∧
        a.instrs[i]? = some (Instr.ofGroup n group) ∧ edgeGroup twoWays l 1 0 1 = .ok group := by
  have connected : (do
      let l ← twoWaysPlaced
      let _ ← l.connect twoWays
      return (decide (Numbering.ofGraph twoWays = Except.ok l.numbering),
        decide (1 ∈ l.numbering.order), blockedEdges twoWays l ⟨[2, 4], [0, 0], []⟩ 1 0)) =
      .ok (true, true, [1]) := by
    decide +kernel
  obtain ⟨l, placed, connected⟩ := bind_ok.mp connected
  obtain ⟨⟨count, a⟩, run, same⟩ := bind_ok.mp connected
  obtain ⟨isNumbering, member, turns⟩ := by
    simpa only [pure_ok, Prod.mk.injEq, decide_eq_true_eq] using same
  have plain : PlainPhis twoWays := by
    intro i x found
    have all : ∀ x ∈ twoWays.instrs, x.isPhi = true → x.group = none := by decide +kernel
    exact all x (Array.mem_of_getElem? found)
  have stored : twoWays.blocks[1]? = some ⟨[2, 4], [0, 0], []⟩ := rfl
  obtain ⟨A, storedA, -, lands⟩ := blocks_take_turns ⟨by decide +kernel, by decide +kernel⟩
    (by decide +kernel) isNumbering plain run member stored
  obtain ⟨n, i, group, atPlace, -, block, grouped, collected⟩ :=
    (lands 0 0 0 rfl).1 1 (by rw [turns]; rfl)
  exact ⟨l, count, a, A, placed, run, storedA, turns, n, i, group, atPlace, block, grouped,
    collected⟩

end Connection

end RegisterAllocation
