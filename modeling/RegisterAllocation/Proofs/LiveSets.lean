import RegisterAllocation.Liveness.Flow
import RegisterAllocation.Proofs.Definedness
import RegisterAllocation.Proofs.Weaving

/-!
The sets of live values solve the equations of the analysis, and a value is live only where its
definition has been passed.

A block that is not waiting to be evaluated satisfies its equations: evaluating a block changes
the equations of its predecessors only, and those are queued.
-/

namespace RegisterAllocation

open List
open Option (mem_unique)

namespace Graph

open DominatorTree

variable {g : Graph} {tree : DominatorTree} {order : List BlockId} {a b s : BlockId} {B S : Block}
  {v : ValueId} {i : InstrId} {x : Instr}

namespace Accepted

variable (given : g.Accepted tree order)

include given

theorem rank_pred (member : b ∈ order) (other : b ≠ g.entry)
    (stored : g.blocks[b]? = some B) :
    ∃ p ∈ B.preds, p ∈ order ∧ order.idxOf p < order.idxOf b := by
  obtain ⟨before, after, split, fresh⟩ := eq_append_cons_of_mem member
  rcases reversePostOrder_descends given.valid.ordered before b after split with top | found
  · exact absurd top other
  · obtain ⟨p, earlier, P, storedP, succ⟩ := found
    obtain ⟨B', stored', pred⟩ := given.consistent.pred_of_succ storedP succ
    obtain rfl := mem_unique stored stored'
    refine ⟨p, pred, by simp [split, earlier], ?_⟩
    rw [split, idxOf_append_of_mem earlier, idxOf_append_of_notMem fresh]
    have := idxOf_lt_length_of_mem earlier
    simp
    omega

theorem block_reached (stored : g.blocks[b]? = some B) :
    ∃ d, tree[b]? = some (some d) := by
  induction rank : order.idxOf b using Nat.strongRecOn generalizing b B with
  | ind n ih =>
    by_cases top : b = g.entry
    · exact ⟨g.entry, top ▸ given.is_settled.root⟩
    · obtain ⟨p, pred, _, before⟩ := given.rank_pred (given.valid.complete b B stored) top stored
      obtain ⟨P, storedP, _⟩ := given.consistent.succ_of_pred stored pred
      obtain ⟨d, known⟩ := ih _ (rank ▸ before) storedP rfl
      obtain ⟨d', known', _⟩ := given.is_settled.meets b B stored p pred d known
      exact ⟨d', known'⟩

theorem rank_le (stored : g.blocks[b]? = some B)
    (above : Above tree g.entry a b) : order.idxOf a ≤ order.idxOf b := by
  induction rank : order.idxOf b using Nat.strongRecOn generalizing b B with
  | ind n ih =>
    by_cases same : a = b
    · exact same ▸ rank.le
    by_cases top : b = g.entry
    · rw [above_root given.is_settled.root above top, ← top, rank]
    · obtain ⟨p, pred, _, before⟩ := given.rank_pred (given.valid.complete b B stored) top stored
      obtain ⟨P, storedP, _⟩ := given.consistent.succ_of_pred stored pred
      obtain ⟨d, known⟩ := given.block_reached storedP
      have upper := above_pred given.is_settled stored pred known above same
      have earlier := ih _ (rank ▸ before) storedP upper rfl
      omega

theorem rank_lt (stored : g.blocks[b]? = some B)
    (above : Above tree g.entry a b) (other : a ≠ b) : order.idxOf a < order.idxOf b := by
  have first := given.rank_le stored above
  have member := given.valid.complete b B stored
  have differ : order.idxOf a ≠ order.idxOf b := fun same =>
    other ((idxOf_inj (idxOf_lt_length_iff.mp
      (same ▸ idxOf_lt_length_of_mem member))).mp same)
  omega

end Accepted

def Produces (g : Graph) (b : BlockId) (v : ValueId) : Prop :=
  ∃ (B : Block) (i : InstrId) (x : Instr), g.blocks[b]? = some B ∧ i ∈ B.instrs ∧
    g.instrs[i]? = some x ∧ v ∈ x.results

/-- An instruction of a block, no phi, reads a value that none before it in the block produces. -/
def ReadsFirst (g : Graph) (b : BlockId) (v : ValueId) : Prop :=
  ∃ (B : Block) (pc : Nat) (i : InstrId) (x : Instr), g.blocks[b]? = some B ∧
    B.instrs[pc]? = some i ∧ g.instrs[i]? = some x ∧ x.isPhi = false ∧ v ∈ x.inputs ∧
    ∀ qc < pc, ∀ (j : InstrId) (y : Instr), B.instrs[qc]? = some j → g.instrs[j]? = some y →
      v ∉ y.results

/-- A phi at the head of `s` takes a value along an edge from `b`. -/
def LeadingPhiTakes (g : Graph) (b s : BlockId) (v : ValueId) : Prop :=
  ∃ (S : Block) (k : Nat) (i : InstrId) (x : Instr), g.blocks[s]? = some S ∧
    S.preds[k]? = some b ∧ i ∈ S.instrs.takeWhile g.phiAt ∧ g.instrs[i]? = some x ∧
    x.inputs[k]? = some v

def DefinedIn (g : Graph) (b : BlockId) (v : ValueId) : Prop :=
  ∃ (i : InstrId) (x : Instr), g.instrs[i]? = some x ∧ x.block = b ∧ v ∈ x.results

def UsedIn (g : Graph) (b : BlockId) (v : ValueId) : Prop :=
  ∃ (i : InstrId) (x : Instr), g.instrs[i]? = some x ∧ x.block = b ∧ x.isPhi = false ∧ v ∈ x.inputs

/-- A phi of `succ` takes a value along an edge from `pred`. -/
def TakenAlong (g : Graph) (pred succ : BlockId) (v : ValueId) : Prop :=
  ∃ (S : Block) (i : InstrId) (x : Instr) (k : Nat), g.blocks[succ]? = some S ∧
    S.preds[k]? = some pred ∧ i ∈ S.instrs ∧ g.instrs[i]? = some x ∧ x.isPhi = true ∧
    x.inputs[k]? = some v

end Graph

namespace ValueSet

variable {v : ValueId} {vs : List ValueId} {s t : ValueSet}

theorem mem_union : v ∈ union vs s ↔ v ∈ vs ∨ v ∈ s := by
  unfold union
  induction vs generalizing s with
  | nil => simp
  | cons w rest ih =>
    rw [foldl_cons, ih, mem_insert, mem_cons]
    tauto

theorem mem_diff : v ∈ diff s t ↔ v ∈ s ∧ v ∉ t := by
  simp [diff]

end ValueSet

namespace Graph

open DominatorTree

variable {g : Graph} {tree : DominatorTree} {order : List BlockId} {a b s : BlockId} {B S : Block}
  {v : ValueId} {i : InstrId} {x : Instr}

theorem Effect.mem_defined {xs : List Instr} {e : Effect} :
    v ∈ (xs.foldl Effect.add e).defined ↔ v ∈ e.defined ∨ ∃ x ∈ xs, v ∈ x.results := by
  induction xs generalizing e with
  | nil => simp
  | cons x rest ih =>
    rw [foldl_cons, ih]
    simp only [Effect.add, ValueSet.mem_union, mem_cons, exists_eq_or_imp]
    tauto

theorem Effect.mem_read {xs : List Instr} {e : Effect} :
    v ∈ (xs.foldl Effect.add e).read ↔ v ∈ e.read ∨
      ∃ before x after, xs = before ++ x :: after ∧ x.isPhi = false ∧ v ∈ x.inputs ∧
        v ∉ (before.foldl Effect.add e).defined := by
  induction xs generalizing e with
  | nil => simp
  | cons y rest ih =>
    rw [foldl_cons, ih]
    have here : v ∈ (e.add y).read ↔
        v ∈ e.read ∨ (y.isPhi = false ∧ v ∈ y.inputs ∧ v ∉ e.defined) := by
      unfold Effect.add
      by_cases phi : y.isPhi = true
      · simp [phi]
      · simp only [phi, Bool.false_eq_true, ↓reduceIte, ValueSet.mem_union, mem_filter,
          decide_eq_true_eq]
        tauto
    rw [here, or_assoc]
    apply or_congr_right
    constructor
    · rintro (⟨plain, input, fresh⟩ | ⟨before, x, after, rfl, plain, input, fresh⟩)
      · exact ⟨[], y, rest, rfl, plain, input, fresh⟩
      · exact ⟨y :: before, x, after, rfl, plain, input, fresh⟩
    · rintro ⟨before, x, after, split, plain, input, fresh⟩
      cases before with
      | nil =>
        obtain ⟨rfl, rfl⟩ := cons.inj split
        exact .inl ⟨plain, input, fresh⟩
      | cons z before =>
        obtain ⟨rfl, rfl⟩ := cons.inj split
        exact .inr ⟨before, x, after, rfl, plain, input, fresh⟩

theorem Consistent.listed_iff (consistent : g.Consistent) (stored : g.blocks[b]? = some B)
    (found : g.instrs[i]? = some x) : i ∈ B.instrs ↔ x.block = b := by
  constructor
  · intro listed
    obtain ⟨x', found', home⟩ := consistent.instr_of_listed stored listed
    obtain rfl := mem_unique found found'
    exact home
  · rintro rfl
    obtain ⟨B', stored', listed⟩ := consistent.listed_of_instr found
    obtain rfl := mem_unique stored stored'
    exact listed

theorem effect_ok {e : Effect} (run : g.effect b = .ok e) :
    ∃ B xs, g.blocks[b]? = some B ∧ B.instrs.mapM g.instr = .ok xs ∧
      e = xs.foldl Effect.add ⟨[], []⟩ := by
  simp only [effect, bind_ok, block_ok, pure_ok] at run
  obtain ⟨B, stored, xs, each, rfl⟩ := run
  exact ⟨B, xs, stored, each, rfl⟩

theorem phisAmong_takeWhile {instrs phis : List InstrId} (run : g.phisAmong instrs = .ok phis) :
    phis = instrs.takeWhile g.phiAt := by
  induction instrs generalizing phis with
  | nil =>
    obtain rfl : [] = phis := by simpa [phisAmong] using run
    rfl
  | cons i rest ih =>
    rw [phisAmong, bind_ok] at run
    obtain ⟨x, found, run⟩ := run
    have isPhi := phiAt_eq (instr_ok.mp found)
    split at run
    · rename_i phi
      obtain ⟨more, others, run⟩ := bind_ok.mp run
      obtain rfl : i :: more = phis := by simpa using run
      rw [takeWhile_cons, isPhi, phi, ih others]
      rfl
    · rename_i plain
      obtain rfl : [] = phis := by simpa using run
      rw [takeWhile_cons, isPhi, eq_false_of_ne_true plain]
      rfl

theorem mem_leadingInputs {vs : List ValueId} (run : g.phiInputs b s = .ok vs) :
    v ∈ vs ↔ g.LeadingPhiTakes b s v := by
  simp only [phiInputs, bind_ok, block_ok] at run
  obtain ⟨S, stored, run⟩ := run
  have edge : ∀ k, k ∈ (S.preds.zipIdx.filter (·.1 = b)).map Prod.snd ↔ S.preds[k]? = some b := by
    intro k
    simp [mem_map, mem_zipIdx_iff_getElem?]
  split at run
  · rename_i noEdge
    obtain rfl : [] = vs := by simpa using run
    simp only [not_mem_nil, false_iff]
    rintro ⟨S', k, i, x, stored', pred, -⟩
    obtain rfl := mem_unique stored stored'
    rw [← edge k, isEmpty_iff.mp noEdge] at pred
    simp at pred
  · simp only [phis, block_ok.mpr stored, ok_bind, bind_ok, pure_ok] at run
    obtain ⟨leading, isLeading, xs, each, rfl⟩ := run
    obtain rfl := phisAmong_takeWhile isLeading
    simp only [mem_flatMap, mem_filterMap, edge]
    constructor
    · rintro ⟨k, pred, x, member, input⟩
      obtain ⟨i, leads, found⟩ := mapM_mem_result each member
      exact ⟨S, k, i, x, stored, pred, leads, instr_ok.mp found, input⟩
    · rintro ⟨S', k, i, x, stored', pred, leads, found, input⟩
      obtain rfl := mem_unique stored stored'
      obtain ⟨x', member, found'⟩ := mapM_mem each leads
      obtain rfl := mem_unique found (instr_ok.mp found')
      exact ⟨k, pred, x, member, input⟩

theorem mem_produced {e : Effect} (run : g.effect b = .ok e) : v ∈ e.defined ↔ g.Produces b v := by
  obtain ⟨B, xs, stored, each, rfl⟩ := effect_ok run
  rw [Effect.mem_defined]
  constructor
  · rintro (none | ⟨x, member, result⟩)
    · simp at none
    · obtain ⟨i, listed, found⟩ := mapM_mem_result each member
      exact ⟨B, i, x, stored, listed, instr_ok.mp found, result⟩
  · rintro ⟨B', i, x, stored', listed, found, result⟩
    obtain rfl := mem_unique stored stored'
    obtain ⟨x', member, found'⟩ := mapM_mem each listed
    obtain rfl := mem_unique found (instr_ok.mp found')
    exact .inr ⟨x, member, result⟩

theorem mem_readFirst {e : Effect} (run : g.effect b = .ok e) : v ∈ e.read ↔ g.ReadsFirst b v := by
  obtain ⟨B, xs, stored, each, rfl⟩ := effect_ok run
  rw [Effect.mem_read]
  constructor
  · rintro (none | ⟨before, x, after, rfl, plain, input, fresh⟩)
    · simp at none
    · obtain ⟨i, listed, found⟩ := (mapM_getElem each before.length).2 x (by simp)
      refine ⟨B, before.length, i, x, stored, listed, instr_ok.mp found, plain, input, ?_⟩
      intro qc early j y listedY foundY result
      obtain ⟨y', isAt, foundY'⟩ := (mapM_getElem each qc).1 j listedY
      obtain rfl := mem_unique foundY (instr_ok.mp foundY')
      rw [getElem?_append_left early] at isAt
      exact fresh (Effect.mem_defined.mpr (.inr ⟨y, mem_of_getElem? isAt, result⟩))
  · rintro ⟨B', pc, i, x, stored', listed, found, plain, input, fresh⟩
    obtain rfl := mem_unique stored stored'
    obtain ⟨x', isAt, found'⟩ := (mapM_getElem each pc).1 i listed
    obtain rfl := mem_unique found (instr_ok.mp found')
    obtain ⟨inside, isX⟩ := List.getElem?_eq_some_iff.mp isAt
    have split : xs = xs.take pc ++ x :: xs.drop (pc + 1) := by
      rw [← isX, cons_getElem_drop_succ, take_append_drop]
    refine .inr ⟨xs.take pc, x, xs.drop (pc + 1), split, plain, input, fun defined => ?_⟩
    rcases Effect.mem_defined.mp defined with none | ⟨y, member, result⟩
    · simp at none
    · obtain ⟨qc, isY⟩ := mem_iff_getElem?.mp member
      rw [getElem?_take] at isY
      split at isY
      · rename_i early
        obtain ⟨j, listedY, foundY⟩ := (mapM_getElem each qc).2 y isY
        exact fresh qc early j y listedY (instr_ok.mp foundY) result
      · simp at isY

theorem mem_defined (consistent : g.Consistent) {e : Effect} (run : g.effect b = .ok e) :
    v ∈ e.defined ↔ g.DefinedIn b v := by
  rw [mem_produced run]
  constructor
  · rintro ⟨B, i, x, stored, listed, found, result⟩
    exact ⟨i, x, found, (consistent.listed_iff stored found).mp listed, result⟩
  · rintro ⟨i, x, found, rfl, result⟩
    obtain ⟨B, stored, listed⟩ := consistent.listed_of_instr found
    exact ⟨B, i, x, stored, listed, found, result⟩

section

variable (given : g.Accepted tree order)

include given

theorem Accepted.defined_before (stored : g.blocks[b]? = some B)
    {pos : Nat} (listed : B.instrs[pos]? = some i) (found : g.instrs[i]? = some x)
    (plain : x.isPhi = false) (input : v ∈ x.inputs) (here : g.DefinedIn b v) :
    ∃ pc j y, pc < pos ∧ B.instrs[pc]? = some j ∧ g.instrs[j]? = some y ∧ v ∈ y.results := by
  obtain ⟨k, operand⟩ := mem_iff_getElem?.mp input
  have checked := given.checked_at stored listed found
  obtain ⟨d, y, foundY, result, -, inBlock⟩ :=
    available_cases given.valid (checked.operands k v operand).2
  obtain ⟨j, z, foundZ, home, resultZ⟩ := here
  obtain rfl := owner_of_nodup given.valid.results foundY foundZ result resultZ
  obtain rfl := mem_unique foundY foundZ
  rcases inBlock plain with ⟨-, B', pc, stored', listed', before⟩ | ⟨other, -⟩
  · rw [checked.block] at stored'
    obtain rfl := mem_unique stored stored'
    exact ⟨pc, _, y, before, listed', foundY, result⟩
  · exact absurd (home.trans checked.block.symm) other

theorem Accepted.above_used (used : g.UsedIn b v) :
    ∃ home, g.DefinedIn home v ∧ Above tree g.entry home b := by
  obtain ⟨i, x, found, rfl, plain, input⟩ := used
  obtain ⟨k, operand⟩ := mem_iff_getElem?.mp input
  obtain ⟨B, pos, -, -, checked⟩ := given.instr_valid found
  obtain ⟨d, y, foundY, result, -, inBlock⟩ :=
    available_cases given.valid (checked.operands k v operand).2
  refine ⟨y.block, ⟨_, y, foundY, rfl, result⟩, ?_⟩
  rcases inBlock plain with ⟨same, -⟩ | ⟨-, dominates⟩
  · exact same ▸ .refl
  · exact above_of_dominates dominates

theorem Accepted.above_taken (taken : g.TakenAlong b s v) :
    ∃ home, g.DefinedIn home v ∧ Above tree g.entry home b := by
  obtain ⟨S, i, x, k, stored, pred, listed, found, phi, operand⟩ := taken
  obtain ⟨pos, listedAt⟩ := mem_iff_getElem?.mp listed
  have checked := given.checked_at stored listedAt found
  obtain ⟨d, y, foundY, result, onEdge, -⟩ :=
    available_cases given.valid (checked.operands k v operand).2
  obtain ⟨S', p, stored', pred', dominates⟩ := onEdge phi
  rw [checked.block] at stored'
  obtain rfl := mem_unique stored stored'
  obtain rfl := mem_unique pred pred'
  exact ⟨y.block, ⟨_, y, foundY, rfl, result⟩, above_of_dominates dominates⟩

theorem mem_read {e : Effect} (run : g.effect b = .ok e) :
    v ∈ e.read ↔ g.UsedIn b v ∧ ¬g.DefinedIn b v := by
  rw [mem_readFirst run]
  constructor
  · rintro ⟨B, pos, i, x, stored, listed, found, plain, input, fresh⟩
    have home := (given.consistent.listed_iff stored found).mp (mem_of_getElem? listed)
    refine ⟨⟨i, x, found, home, plain, input⟩, fun here => ?_⟩
    obtain ⟨pc, j, y, early, listedY, foundY, result⟩ :=
      given.defined_before stored listed found plain input here
    exact fresh pc early j y listedY foundY result
  · rintro ⟨⟨i, x, found, rfl, plain, input⟩, nowhere⟩
    obtain ⟨B, stored, listed⟩ := given.consistent.listed_of_instr found
    obtain ⟨pos, listedAt⟩ := mem_iff_getElem?.mp listed
    refine ⟨B, pos, i, x, stored, listedAt, found, plain, input, ?_⟩
    intro qc _ j y listedY foundY result
    have home := (given.consistent.listed_iff stored foundY).mp (mem_of_getElem? listedY)
    exact nowhere ⟨j, y, foundY, home, result⟩

end

theorem mem_phiInputs (consistent : g.Consistent) (first : g.PhisFirst) {vs : List ValueId}
    (run : g.phiInputs b s = .ok vs) : v ∈ vs ↔ g.TakenAlong b s v := by
  have leading {S : Block} (stored : g.blocks[s]? = some S) :
      S.instrs.takeWhile g.phiAt = S.instrs.filter g.phiAt := by
    have found : ∀ i ∈ S.instrs, ∃ x, g.instrs[i]? = some x := fun i listed =>
      (consistent.instr_of_listed stored listed).imp fun _ h => h.1
    exact (phisAmong_takeWhile (phisAmong_eq found (first s S stored))).symm
  rw [mem_leadingInputs run]
  constructor
  · rintro ⟨S, k, i, x, stored, pred, leads, found, input⟩
    rw [leading stored, mem_filter, phiAt_eq found] at leads
    exact ⟨S, i, x, k, stored, pred, leads.1, found, leads.2, input⟩
  · rintro ⟨S, i, x, k, stored, pred, listed, found, phi, input⟩
    refine ⟨S, k, i, x, stored, pred, ?_, found, input⟩
    rw [leading stored, mem_filter, phiAt_eq found]
    exact ⟨listed, phi⟩

end Graph

namespace LiveSets

open DominatorTree

variable {g : Graph} {tree : DominatorTree} {order : List BlockId} {b c s : BlockId} {B : Block}
  {v : ValueId} {sets next : LiveSets}

def AtStart (sets : LiveSets) (b : BlockId) (v : ValueId) : Prop :=
  ∃ vs, sets.liveIn[b]? = some vs ∧ v ∈ vs

def AtEnd (sets : LiveSets) (b : BlockId) (v : ValueId) : Prop :=
  ∃ vs, sets.liveOut[b]? = some vs ∧ v ∈ vs

theorem mem_outs {takes : BlockId → Prop} {succs : List BlockId} {out last : ValueSet}
    (phis : ∀ s vs, g.phiInputs b s = .ok vs → (v ∈ vs ↔ takes s))
    (run : succs.foldlM (fun out succ => do
      let atStart ← need sets.liveIn[succ]?
      return ValueSet.union (← g.phiInputs b succ) (ValueSet.union atStart out)) out = .ok last) :
    v ∈ last ↔ v ∈ out ∨ ∃ s ∈ succs, sets.AtStart s v ∨ takes s := by
  induction succs generalizing out with
  | nil =>
    obtain rfl : out = last := by simpa using run
    simp
  | cons s rest ih =>
    simp only [foldlM_cons, bind_ok, need_eq_ok, pure_ok] at run
    obtain ⟨mid, ⟨atStart, known, inputs, taken, rfl⟩, run⟩ := run
    have here : sets.AtStart s v ↔ v ∈ atStart := by simp [AtStart, known]
    rw [ih run, ValueSet.mem_union, ValueSet.mem_union, phis s inputs taken]
    simp only [mem_cons, exists_eq_or_imp, here]
    grind

theorem mem_outOf {out : ValueSet} (consistent : g.Consistent) (first : g.PhisFirst)
    (stored : g.blocks[b]? = some B) (run : sets.outOf g b = .ok out) :
    v ∈ out ↔ ∃ s ∈ B.succs, sets.AtStart s v ∨ g.TakenAlong b s v := by
  simp only [outOf, Graph.block_ok.mpr stored, ok_bind] at run
  rw [mem_outs (fun s vs => Graph.mem_phiInputs consistent first) run]
  simp

def Solved (g : Graph) (sets : LiveSets) (b : BlockId) : Prop :=
  ∃ out e, sets.outOf g b = .ok out ∧ g.effect b = .ok e ∧ sets.liveOut[b]? = some out ∧
    sets.liveIn[b]? = some (ValueSet.union e.read (ValueSet.diff out e.defined))

theorem evaluate_ok {changed : Bool} (size : sets.liveOut.size = g.blocks.size)
    (run : sets.evaluate g b = .ok (changed, next)) :
    ∃ out e, sets.outOf g b = .ok out ∧ g.effect b = .ok e ∧ next.liveOut[b]? = some out ∧
      next.liveIn[b]? = some (ValueSet.union e.read (ValueSet.diff out e.defined)) ∧
      next.liveOut.size = sets.liveOut.size ∧ next.liveIn.size = sets.liveIn.size ∧
      (∀ c, c ≠ b → next.liveOut[c]? = sets.liveOut[c]? ∧ next.liveIn[c]? = sets.liveIn[c]?) ∧
      (changed = false → next.liveIn = sets.liveIn) := by
  simp only [evaluate, bind_ok, need_eq_ok] at run
  obtain ⟨out, hout, e, he, atStart, known, run⟩ := run
  have inside : b < sets.liveOut.size := by
    obtain ⟨B, _, stored, _⟩ := Graph.effect_ok he
    exact size ▸ (found_lt stored)
  refine ⟨out, e, hout, he, ?_⟩
  split at run
  · rename_i same
    obtain ⟨rfl, rfl⟩ := Prod.mk.inj (pure_ok.mp run)
    refine ⟨by simp [inside], by rw [known, same], by simp, rfl, ?_, fun _ => rfl⟩
    intro c other
    simp [Array.getElem?_setIfInBounds_ne other.symm]
  · obtain ⟨rfl, rfl⟩ := Prod.mk.inj (pure_ok.mp run)
    obtain ⟨within, -⟩ := Array.getElem?_eq_some_iff.mp known
    refine ⟨by simp [inside], by simp [within], by simp, by simp, ?_, by simp⟩
    intro c other
    simp [Array.getElem?_setIfInBounds_ne other.symm]

theorem outOf_congr (stored : g.blocks[b]? = some B)
    (same : ∀ s ∈ B.succs, next.liveIn[s]? = sets.liveIn[s]?) :
    next.outOf g b = sets.outOf g b := by
  simp only [outOf, Graph.block_ok.mpr stored, ok_bind]
  have inOrder : ∀ succs : List BlockId, (∀ s ∈ succs, next.liveIn[s]? = sets.liveIn[s]?) →
      ∀ out : ValueSet, succs.foldlM (fun out succ => do
        let atStart ← need next.liveIn[succ]?
        return ValueSet.union (← g.phiInputs b succ) (ValueSet.union atStart out)) out =
      succs.foldlM (fun out succ => do
        let atStart ← need sets.liveIn[succ]?
        return ValueSet.union (← g.phiInputs b succ) (ValueSet.union atStart out)) out := by
    intro succs
    induction succs with
    | nil => intro _ _; rfl
    | cons s rest ih =>
      intro same out
      simp only [foldlM_cons, same s mem_cons_self]
      congr 1
      funext out
      exact ih (fun t member => same t (mem_cons_of_mem s member)) out
  exact inOrder B.succs same []

theorem enqueue_ok {queue queue' preds : List BlockId}
    (run : preds.foldlM (enqueue g order) queue = .ok queue') :
    (∀ c ∈ queue, c ∈ queue') ∧ ∀ c ∈ preds, c ∈ order → c ∈ queue' := by
  induction preds generalizing queue with
  | nil =>
    obtain rfl : queue = queue' := by simpa using run
    simp
  | cons p rest ih =>
    simp only [foldlM_cons, bind_ok] at run
    obtain ⟨mid, head, run⟩ := run
    simp only [enqueue, bind_ok] at head
    obtain ⟨P, -, head⟩ := head
    obtain ⟨kept, queued⟩ := ih run
    split at head
    · obtain rfl := pure_ok.mp head
      refine ⟨fun c member => kept c (by simp [member]), ?_⟩
      intro c member inOrder
      rcases mem_cons.mp member with rfl | member
      · exact kept c (by simp)
      · exact queued c member inOrder
    · rename_i known
      obtain rfl := pure_ok.mp head
      refine ⟨kept, ?_⟩
      intro c member inOrder
      rcases mem_cons.mp member with rfl | member
      · exact kept c (by grind)
      · exact queued c member inOrder

/-- Evaluating a block solves its equations and leaves those of others solved, but for predecessors
whose equations speak of a set that has changed. -/
theorem solved_step {queue queue' : List BlockId} {changed : Bool}
    (mirrored : ∀ (c : BlockId) (C : Block) (s : BlockId), g.blocks[c]? = some C → s ∈ C.succs →
      ∃ S : Block, g.blocks[s]? = some S ∧ c ∈ S.preds)
    (sizeOut : sets.liveOut.size = g.blocks.size)
    (solved : ∀ c ∈ order, c ∉ b :: queue → Solved g sets c)
    (run : sets.evaluate g b = .ok (changed, next)) (kept : ∀ c ∈ queue, c ∈ queue')
    (queued : changed = true →
      ∀ B, g.blocks[b]? = some B → ∀ c ∈ B.preds, c ∈ order → c ∈ queue') :
    ∀ c ∈ order, c ∉ queue' → Solved g next c := by
  obtain ⟨out, e, isOut, isEffect, atOut, atIn, -, -, others, still⟩ := evaluate_ok sizeOut run
  intro c member waits
  -- The equations of `c` speak of the starts of its successors, none of which has changed.
  have same {C : Block} (storedC : g.blocks[c]? = some C) : next.outOf g c = sets.outOf g c := by
    apply outOf_congr storedC
    intro s succ
    by_cases here : s = b
    · subst here
      obtain ⟨B', stored', pred⟩ := mirrored c C s storedC succ
      cases changed with
      | true => exact absurd (queued rfl B' stored' c pred member) waits
      | false => rw [still rfl]
    · exact (others s here).2
  by_cases here : c = b
  · subst here
    obtain ⟨C, -, storedC, -⟩ := Graph.effect_ok isEffect
    exact ⟨out, e, (same storedC).trans isOut, isEffect, atOut, atIn⟩
  · have before : c ∉ b :: queue := by
      simp only [mem_cons, not_or]
      exact ⟨here, fun member => waits (kept c member)⟩
    obtain ⟨outC, eC, isOutC, isEffectC, atOutC, atInC⟩ := solved c member before
    obtain ⟨C, -, storedC, -⟩ := Graph.effect_ok isEffectC
    rw [← (others c here).1] at atOutC
    rw [← (others c here).2] at atInC
    exact ⟨outC, eC, (same storedC).trans isOutC, isEffectC, atOutC, atInC⟩

structure Settling (g : Graph) (tree : DominatorTree) (order queue : List BlockId)
    (sets : LiveSets) : Prop where
  sizeIn : sets.liveIn.size = g.blocks.size
  sizeOut : sets.liveOut.size = g.blocks.size
  solved : ∀ b ∈ order, b ∉ queue → Solved g sets b
  passed : ∀ b v, sets.AtEnd b v → ∃ home, g.DefinedIn home v ∧ Above tree g.entry home b
  entered : ∀ b v, sets.AtStart b v →
    ∃ home, g.DefinedIn home v ∧ home ≠ b ∧ Above tree g.entry home b

theorem Settling.after_evaluate (given : g.Accepted tree order) {queue queue' : List BlockId}
    {changed : Bool} (settling : Settling g tree order (b :: queue) sets)
    (run : sets.evaluate g b = .ok (changed, next)) (kept : ∀ c ∈ queue, c ∈ queue')
    (queued : changed = true →
      ∀ B, g.blocks[b]? = some B → ∀ c ∈ B.preds, c ∈ order → c ∈ queue') :
    Settling g tree order queue' next := by
  obtain ⟨out, e, isOut, isEffect, atOut, atIn, sizeOut, sizeIn, others, -⟩ :=
    evaluate_ok settling.sizeOut run
  obtain ⟨B, -, stored, -⟩ := Graph.effect_ok isEffect
  have passed : ∀ v ∈ out, ∃ home, g.DefinedIn home v ∧ Above tree g.entry home b := by
    intro v member
    rw [mem_outOf given.consistent given.valid.phis_first stored isOut] at member
    obtain ⟨s, succ, live | taken⟩ := member
    · obtain ⟨home, defined, other, above⟩ := settling.entered s v live
      obtain ⟨S, storedS, pred⟩ := given.consistent.pred_of_succ stored succ
      obtain ⟨d, known⟩ := given.block_reached stored
      exact ⟨home, defined, Graph.above_pred given.is_settled storedS pred known above other⟩
    · exact given.above_taken taken
  refine ⟨sizeIn.trans settling.sizeIn, sizeOut.trans settling.sizeOut, ?_, ?_, ?_⟩
  · exact solved_step (fun c C s => given.consistent.pred_of_succ) settling.sizeOut settling.solved
      run kept queued
  · rintro c v ⟨vs, known, member⟩
    by_cases here : c = b
    · subst here
      obtain rfl := mem_unique atOut known
      exact passed v member
    · exact settling.passed c v ⟨vs, (others c here).1 ▸ known, member⟩
  · rintro c v ⟨vs, known, member⟩
    by_cases here : c = b
    · subst here
      obtain rfl := mem_unique atIn known
      rw [ValueSet.mem_union, ValueSet.mem_diff, Graph.mem_read given isEffect,
        Graph.mem_defined given.consistent isEffect] at member
      rcases member with ⟨used, fresh⟩ | ⟨live, fresh⟩
      · obtain ⟨home, defined, above⟩ := given.above_used used
        exact ⟨home, defined, fun same => fresh (same ▸ defined), above⟩
      · obtain ⟨home, defined, above⟩ := passed v live
        exact ⟨home, defined, fun same => fresh (same ▸ defined), above⟩
    · exact settling.entered c v ⟨vs, (others c here).2 ▸ known, member⟩

theorem settle_ok (given : g.Accepted tree order) {bound : Nat} {queue : List BlockId}
    (settling : Settling g tree order queue sets) (run : settle g order bound queue sets = .ok next) :
    Settling g tree order [] next := by
  induction bound generalizing queue sets with
  | zero =>
    cases queue with
    | nil =>
      obtain rfl : sets = next := by simpa [settle] using run
      exact settling
    | cons b queue => simp [settle] at run
  | succ bound ih =>
    cases queue with
    | nil =>
      obtain rfl : sets = next := by simpa [settle] using run
      exact settling
    | cons b queue =>
      simp only [settle, bind_ok, Prod.exists] at run
      obtain ⟨changed, mid, evaluated, run⟩ := run
      cases changed with
      | true =>
        simp only [↓reduceIte, bind_ok, Graph.block_ok] at run
        obtain ⟨B, stored, queue', enqueued, run⟩ := run
        obtain ⟨kept, queued⟩ := enqueue_ok enqueued
        refine ih (settling.after_evaluate given evaluated kept fun _ B' stored' => ?_) run
        obtain rfl := mem_unique stored stored'
        exact queued
      | false =>
        exact ih (settling.after_evaluate given evaluated (fun c member => member) (by simp)) run

theorem ofGraph_ok (given : g.Accepted tree order) (run : ofGraph g order = .ok sets) :
    Settling g tree order [] sets := by
  refine settle_ok given ⟨by simp, by simp, ?_, ?_, ?_⟩ run
  · intro b member waits
    simp [member] at waits
  · rintro b v ⟨vs, known, member⟩
    obtain ⟨_, rfl⟩ := Array.getElem?_eq_some_iff.mp known
    simp at member
  · rintro b v ⟨vs, known, member⟩
    obtain ⟨_, rfl⟩ := Array.getElem?_eq_some_iff.mp known
    simp at member

namespace Settling

variable (given : g.Accepted tree order) (settled : Settling g tree order [] sets)
  (stored : g.blocks[b]? = some B)

include given settled stored

theorem atEnd_iff :
    sets.AtEnd b v ↔ ∃ s ∈ B.succs, sets.AtStart s v ∨ g.TakenAlong b s v := by
  obtain ⟨out, e, isOut, -, atOut, -⟩ :=
    settled.solved b (given.valid.complete b B stored) not_mem_nil
  rw [← mem_outOf given.consistent given.valid.phis_first stored isOut]
  simp [AtEnd, atOut]

theorem atStart_iff :
    sets.AtStart b v ↔ ¬g.DefinedIn b v ∧ (g.UsedIn b v ∨ sets.AtEnd b v) := by
  obtain ⟨out, e, -, isEffect, atOut, atIn⟩ :=
    settled.solved b (given.valid.complete b B stored) not_mem_nil
  have start : sets.AtStart b v ↔ v ∈ e.read ∨ (v ∈ out ∧ v ∉ e.defined) := by
    simp [AtStart, atIn, ValueSet.mem_union, ValueSet.mem_diff]
  have stop : sets.AtEnd b v ↔ v ∈ out := by simp [AtEnd, atOut]
  rw [start, stop, Graph.mem_read given isEffect, Graph.mem_defined given.consistent isEffect]
  tauto

end Settling

end LiveSets

end RegisterAllocation
