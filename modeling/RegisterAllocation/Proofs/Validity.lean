import Mathlib.Data.List.Perm.Subperm
import Mathlib.Data.List.Nodup
import RegisterAllocation.Graph.Validity
import RegisterAllocation.Proofs.Order

/-!
What it means for a program to be accepted. Acceptance presupposes that the tables of a program fit
together: every edge is listed at both of its ends, and every instruction is listed once, in the
block it belongs to.
-/

namespace RegisterAllocation

open List

namespace Graph

variable {g : Graph} {b c s : BlockId} {B C S : Block} {i : InstrId} {x : Instr}

def outEdges (g : Graph) : List (BlockId × BlockId) :=
  g.blocks.toList.zipIdx.flatMap fun (B, b) => B.succs.map fun s => (b, s)

def inEdges (g : Graph) : List (BlockId × BlockId) :=
  g.blocks.toList.zipIdx.flatMap fun (B, b) => B.preds.map fun p => (p, b)

def listings (g : Graph) : List (InstrId × BlockId) :=
  g.blocks.toList.zipIdx.flatMap fun (B, b) => B.instrs.map fun i => (i, b)

def owners (g : Graph) : List (InstrId × BlockId) :=
  g.instrs.toList.zipIdx.map fun (x, i) => (i, x.block)

/-- Lists of predecessors and successors mirror each other with multiplicity, and every instruction
is listed once, in its own block. -/
structure Consistent (g : Graph) : Prop where
  mirrored : g.outEdges.Perm g.inEdges
  listed : g.listings.Perm g.owners

/-- Groups of moves are the instructions that say so. -/
def Grouped (g : Graph) : Prop := ∀ x ∈ g.instrs, x.isSpillFill = x.group.isSome

def Bare (g : Graph) : Prop := ∀ (i : InstrId) (x : Instr), g.instrs[i]? = some x → x.group = none

def SingleEdges (g : Graph) : Prop :=
  ∀ (b : BlockId) (B : Block), g.blocks[b]? = some B → B.succs.Nodup

theorem singleEdges_of_each (each : ∀ B ∈ g.blocks, B.succs.Nodup) : g.SingleEdges :=
  fun _ B stored => each B (Array.mem_of_getElem? stored)

theorem mem_outEdges : (b, s) ∈ g.outEdges ↔ ∃ B, g.blocks[b]? = some B ∧ s ∈ B.succs := by
  simp [outEdges, mem_zipIdx_iff_getElem?]

theorem mem_inEdges : (b, s) ∈ g.inEdges ↔ ∃ S, g.blocks[s]? = some S ∧ b ∈ S.preds := by
  simp [inEdges, mem_zipIdx_iff_getElem?]

theorem mem_listings : (i, b) ∈ g.listings ↔ ∃ B, g.blocks[b]? = some B ∧ i ∈ B.instrs := by
  simp [listings, mem_zipIdx_iff_getElem?]

theorem mem_owners : (i, b) ∈ g.owners ↔ ∃ x, g.instrs[i]? = some x ∧ x.block = b := by
  simp [owners, mem_zipIdx_iff_getElem?]

namespace Consistent

variable (h : g.Consistent)

include h

theorem pred_of_succ (stored : g.blocks[b]? = some B) (succ : s ∈ B.succs) :
    ∃ S, g.blocks[s]? = some S ∧ b ∈ S.preds :=
  mem_inEdges.mp (h.mirrored.mem_iff.mp (mem_outEdges.mpr ⟨B, stored, succ⟩))

theorem succ_of_pred (stored : g.blocks[s]? = some S) (pred : b ∈ S.preds) :
    ∃ B, g.blocks[b]? = some B ∧ s ∈ B.succs :=
  mem_outEdges.mp (h.mirrored.mem_iff.mpr (mem_inEdges.mpr ⟨S, stored, pred⟩))

theorem instr_of_listed (stored : g.blocks[b]? = some B) (listed : i ∈ B.instrs) :
    ∃ x, g.instrs[i]? = some x ∧ x.block = b :=
  mem_owners.mp (h.listed.mem_iff.mp (mem_listings.mpr ⟨B, stored, listed⟩))

theorem listed_of_instr (found : g.instrs[i]? = some x) :
    ∃ B, g.blocks[x.block]? = some B ∧ i ∈ B.instrs :=
  mem_listings.mp (h.listed.mem_iff.mpr (mem_owners.mpr ⟨x, found, rfl⟩))

theorem block_nodup (stored : g.blocks[b]? = some B) : B.instrs.Nodup := by
  have once : g.owners.Nodup := by
    refine Nodup.of_map Prod.fst ?_
    have keys : g.owners.map Prod.fst = range' 0 g.instrs.toList.length := by
      rw [owners, map_map]
      exact zipIdx_map_snd 0 g.instrs.toList
    rw [keys]
    exact nodup_range'
  have each := (nodup_flatMap.mp (h.listed.nodup_iff.mpr once)).1 (B, b)
    (mk_mem_zipIdx_iff_getElem?.mpr (by simpa using stored))
  exact Nodup.of_map _ each

theorem listed_once {pc qc : Nat} (storedB : g.blocks[b]? = some B)
    (storedC : g.blocks[c]? = some C) (listedB : B.instrs[pc]? = some i)
    (listedC : C.instrs[qc]? = some i) : b = c ∧ pc = qc := by
  obtain ⟨x, found, rfl⟩ := h.instr_of_listed storedB (mem_of_getElem? listedB)
  obtain ⟨y, found', rfl⟩ := h.instr_of_listed storedC (mem_of_getElem? listedC)
  obtain rfl : x = y := by simpa [found] using found'
  obtain rfl : B = C := by simpa [storedB] using storedC
  have nodup := h.block_nodup storedB
  obtain ⟨hp, same⟩ := List.getElem?_eq_some_iff.mp listedB
  obtain ⟨hq, same'⟩ := List.getElem?_eq_some_iff.mp listedC
  exact ⟨rfl, (nodup.getElem_inj_iff).mp (same.trans same'.symm)⟩

end Consistent

theorem unlessDefect_ok {P : Prop} [Decidable P] {d : Defect} {u : Unit} :
    unlessDefect P d = .ok u ↔ P := by
  unfold unlessDefect
  split <;> simp_all [refuse]

structure ValidInstr (g : Graph) (tree : DominatorTree) (b : BlockId) (B : Block) (pos : Nat)
    (x : Instr) : Prop where
  block : x.block = b
  plain : x.isSpillFill = false
  early : x.opcode = .parameter → b = g.entry
  phi : x.isPhi = true → ∃ n, g.numPhis b = .ok n ∧ pos < n
  inputs : ∀ n, expectedInputs? B x.opcode = some n → x.inputs.length = n
  results : x.results.length = x.opcode.numResults x.ty
  operands : ∀ k v, x.inputs[k]? = some v → v < g.values.size ∧
    g.isAvailable tree x pos k v = .ok true
  types : g.typeChecks x = .ok true
  last : x.opcode.isTerminator = true → pos + 1 = B.instrs.length

theorem checkInputs_ok {tree : DominatorTree} {pos : Nat} (h : g.checkInputs tree i x pos = .ok ())
    {k : Nat} {v : ValueId} (operand : x.inputs[k]? = some v) :
    v < g.values.size ∧ g.isAvailable tree x pos k v = .ok true := by
  rw [checkInputs] at h
  have here := forM_ok.mp h (v, k) (mk_mem_zipIdx_iff_getElem?.mpr operand)
  simp only [bind_ok, lift_ok, unlessDefect_ok] at here
  obtain ⟨_, inside, found, available, held⟩ := here
  exact ⟨inside, held ▸ available⟩

theorem positionCheck_ok {P : Prop} [Decidable P] {count : Except Fault Nat} {pos : Nat} {d : Defect}
    {rest : Attempt Defect Unit} (h : (if P then do
        let n ← count
        unlessDefect (pos < n) d
        rest
      else rest) = .ok ()) : (P → ∃ n, count = .ok n ∧ pos < n) ∧ rest = .ok () := by
  by_cases holds : P
  · simp only [if_pos holds, bind_ok, lift_ok, unlessDefect_ok] at h
    obtain ⟨n, found, _, before, h⟩ := h
    exact ⟨fun _ => ⟨n, found, before⟩, h⟩
  · rw [if_neg holds] at h
    exact ⟨fun held => absurd held holds, h⟩

theorem checkInstr_ok {tree : DominatorTree} {pos : Nat}
    (h : g.checkInstr tree b B pos i = .ok ()) :
    ∃ x, g.instrs[i]? = some x ∧ g.ValidInstr tree b B pos x := by
  rw [checkInstr, bind_ok] at h
  obtain ⟨x, found, h⟩ := h
  rw [lift_ok, instr_ok] at found
  simp only [bind_ok, unlessDefect_ok] at h
  obtain ⟨_, block, _, plain, _, early, h⟩ := h
  obtain ⟨phi, rest⟩ := positionCheck_ok h
  have inputs : ∀ n, expectedInputs? B x.opcode = some n → x.inputs.length = n := by
    intro n expected
    simp only [expected, bind_ok, unlessDefect_ok] at rest
    obtain ⟨_, length, _⟩ := rest
    exact length
  have tail : ∃ (_ : x.results.length = x.opcode.numResults x.ty)
      (_ : g.checkInputs tree i x pos = .ok ()) (_ : g.typeChecks x = .ok true),
      x.opcode.isTerminator = false ∨ pos + 1 = B.instrs.length := by
    cases expected : expectedInputs? B x.opcode with
    | some n =>
      simp only [expected, bind_ok, lift_ok, unlessDefect_ok] at rest
      obtain ⟨_, _, _, results, _, operands, typed, types, _, isTyped, last⟩ := rest
      exact ⟨results, operands, isTyped ▸ types, last⟩
    | none =>
      simp only [expected, bind_ok, lift_ok, unlessDefect_ok] at rest
      obtain ⟨_, results, _, operands, typed, types, _, isTyped, last⟩ := rest
      exact ⟨results, operands, isTyped ▸ types, last⟩
  obtain ⟨results, operands, types, last⟩ := tail
  refine ⟨x, found, block, plain, fun parameter => early.resolve_left (not_not.mpr parameter), phi,
    inputs, results, fun k v operand => checkInputs_ok operands operand, types, fun terminator => ?_⟩
  exact last.resolve_left (by simp [terminator])

structure ValidBlock (g : Graph) (tree : DominatorTree) (b : BlockId) (B : Block) : Prop where
  instrs : ∀ pos i, B.instrs[pos]? = some i →
    ∃ x, g.instrs[i]? = some x ∧ g.ValidInstr tree b B pos x
  empty : B.instrs = [] → B.succs.length = 1
  ends : ∀ i x, B.instrs.getLast? = some i → g.instrs[i]? = some x →
    B.succs.length = expectedSuccs (some x.opcode)

theorem checkBlock_ok {tree : DominatorTree} (h : g.checkBlock tree b = .ok ()) :
    ∃ B, g.blocks[b]? = some B ∧ g.ValidBlock tree b B := by
  rw [checkBlock, bind_ok] at h
  obtain ⟨B, stored, h⟩ := h
  rw [lift_ok, block_ok] at stored
  rw [bind_ok] at h
  obtain ⟨_, instrs, h⟩ := h
  refine ⟨B, stored, ?_, ?_, ?_⟩
  · intro pos i listed
    exact checkInstr_ok (forM_ok.mp instrs (i, pos) (mk_mem_zipIdx_iff_getElem?.mpr listed))
  · intro none
    simp only [none, getLast?_nil, pure_bind, unlessDefect_ok] at h
    exact h
  · intro i x last found
    simp only [last, instr_ok.mpr found, lift_of_ok, ok_bind, pure_bind, unlessDefect_ok] at h
    exact h

theorem firstRepeated_none {seen vs : List ValueId} (h : firstRepeated? seen vs = none) :
    vs.Nodup ∧ ∀ v ∈ vs, v ∉ seen := by
  induction vs generalizing seen with
  | nil => simp
  | cons v rest ih =>
    rw [firstRepeated?] at h
    split at h
    · simp at h
    rename_i new
    obtain ⟨once, others⟩ := ih h
    refine ⟨nodup_cons.mpr ⟨fun again => ?_, once⟩, ?_⟩
    · exact others v again mem_cons_self
    · intro u hu
      rcases mem_cons.mp hu with rfl | hu
      · exact new
      · exact fun among => others u hu (mem_cons_of_mem v among)

structure Valid (g : Graph) (tree : DominatorTree) (order : List BlockId) : Prop where
  dominators : g.dominators = .ok tree
  ordered : g.reversePostOrder = .ok order
  entry : ∀ E, g.blocks[g.entry]? = some E → E.preds = []
  complete : ∀ b B, g.blocks[b]? = some B → b ∈ order
  defined : ∀ (v : ValueId) (d : Definition), g.values[v]? = some d →
    ∃ x : Instr, g.instrs[d.definedBy]? = some x ∧ v ∈ x.results
  results : (g.instrs.toList.flatMap Instr.results).Nodup
  blocks : ∀ b B, g.blocks[b]? = some B → g.ValidBlock tree b B

theorem Ordered.mem_order {order : List BlockId} (ordered : g.Ordered order)
    (length : order.length = g.blocks.size) (stored : g.blocks[b]? = some B) : b ∈ order := by
  have inside : order ⊆ range g.blocks.size := by
    intro c hc
    obtain ⟨C, found⟩ := ordered.stored c hc
    exact mem_range.mpr (found_lt found)
  have all := Subperm.perm_of_length_le (ordered.once.subperm inside) (by simp [length])
  exact all.mem_iff.mpr (mem_range.mpr (found_lt stored))

theorem validate_ok (h : g.validate = .ok ()) : ∃ tree order, g.Valid tree order := by
  rw [validate, bind_ok] at h
  obtain ⟨tree, htree, h⟩ := h
  simp only [bind_ok, lift_ok, unlessDefect_ok, block_ok] at htree h
  obtain ⟨E, storedE, _, noPreds, order, horder, _, length, _, definitions, _, results, blocks⟩ := h
  have ordered := reversePostOrder_ok horder
  refine ⟨tree, order, htree, horder, ?_, ?_, ?_, ?_, ?_⟩
  · intro E' stored
    obtain rfl : E = E' := by simpa [storedE] using stored
    exact noPreds
  · exact fun b B stored => ordered.mem_order length stored
  · intro v d found
    rw [checkDefinitions] at definitions
    have here := forM_ok.mp definitions (d, v)
      (mk_mem_zipIdx_iff_getElem?.mpr (by simpa using found))
    simp only [bind_ok, lift_ok, unlessDefect_ok, instr_ok] at here
    exact here
  · unfold checkResults at results
    split at results
    · exact absurd results refuse_ne_ok
    · rename_i none
      exact (firstRepeated_none none).1
  · intro b B stored
    obtain ⟨B', stored', valid⟩ :=
      checkBlock_ok (forM_ok.mp blocks b (ordered.mem_order length stored))
    obtain rfl : B = B' := by simpa [stored] using stored'
    exact valid

theorem owner_of_nodup (once : (g.instrs.toList.flatMap Instr.results).Nodup) {i j : InstrId}
    {x y : Instr} {v : ValueId} (hx : g.instrs[i]? = some x) (hy : g.instrs[j]? = some y)
    (vx : v ∈ x.results) (vy : v ∈ y.results) : i = j := by
  have apart := (nodup_flatMap.mp once).2
  rw [pairwise_iff_getElem] at apart
  obtain ⟨hi, rfl⟩ := List.getElem?_eq_some_iff.mp ((Array.getElem?_toList ..).trans hx)
  obtain ⟨hj, rfl⟩ := List.getElem?_eq_some_iff.mp ((Array.getElem?_toList ..).trans hy)
  rcases Nat.lt_trichotomy i j with less | same | more
  · exact absurd vy (apart i j hi hj less vx)
  · exact same
  · exact absurd vx (apart j i hj hi more vy)

theorem Valid.constant_of_result {tree : DominatorTree} {order : List BlockId}
    (valid : g.Valid tree order) {v : ValueId} {c : Option Word} (found : g.instrs[i]? = some x)
    (result : v ∈ x.results) (constant : g.constantOf? v = .ok c) : x.opcode.constant? = c := by
  simp only [constantOf?, bind_ok, pure_ok, value_ok, instr_ok] at constant
  obtain ⟨d, defined, y, foundY, constant⟩ := constant
  obtain ⟨y', foundY', resultY⟩ := valid.defined v d defined
  obtain rfl := Option.mem_unique foundY foundY'
  obtain rfl := owner_of_nodup valid.results found foundY result resultY
  obtain rfl := Option.mem_unique found foundY
  exact constant

end Graph

end RegisterAllocation
