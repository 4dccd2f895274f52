import RegisterAllocation.Proofs.Editing
import RegisterAllocation.Proofs.Expansion
import RegisterAllocation.Proofs.Positions

/-!
Programs that groups of moves are put into. However many groups are added, the instructions of the
program stay where they were relative to each other, and the phis of a block stay at its head.
-/

namespace RegisterAllocation

open List Build Instr

namespace Graph

variable {g h k : Graph} {b : BlockId} {B : Block} {i : InstrId} {x : Instr}

def PhisFirst (g : Graph) : Prop :=
  ∀ (b : BlockId) (B : Block), g.blocks[b]? = some B →
    B.instrs.Pairwise fun i j => g.phiAt j = true → g.phiAt i = true

theorem phisAmong_eq {instrs : List InstrId} (found : ∀ i ∈ instrs, ∃ x, g.instrs[i]? = some x)
    (first : instrs.Pairwise fun i j => g.phiAt j = true → g.phiAt i = true) :
    g.phisAmong instrs = .ok (instrs.filter g.phiAt) := by
  induction instrs with
  | nil => rfl
  | cons i rest ih =>
    obtain ⟨x, foundI⟩ := found i mem_cons_self
    obtain ⟨head, tail⟩ := pairwise_cons.mp first
    have rest := ih (fun j hj => found j (mem_cons_of_mem i hj)) tail
    rw [phisAmong, instr_ok.mpr foundI, ok_bind, filter_cons, phiAt_eq foundI]
    cases phi : x.isPhi with
    | true => simp [rest]
    | false =>
      have none : ∀ j ∈ ‹List InstrId›, g.phiAt j = false := by
        intro j hj
        by_contra isPhi
        have := head j hj (by simpa using isPhi)
        simp [phiAt_eq foundI, phi] at this
      simpa [filter_eq_nil_iff] using none

theorem phisAmong_take {instrs phis : List InstrId} (run : g.phisAmong instrs = .ok phis) :
    phis = instrs.take phis.length ∧ ∀ i ∈ phis, g.phiAt i = true := by
  induction instrs generalizing phis with
  | nil =>
    obtain rfl : [] = phis := by simpa [phisAmong] using run
    simp
  | cons i rest ih =>
    rw [phisAmong, bind_ok] at run
    obtain ⟨x, found, run⟩ := run
    split at run
    · rename_i phi
      rw [bind_ok] at run
      obtain ⟨more, others, run⟩ := run
      obtain rfl : i :: more = phis := by simpa using run
      obtain ⟨same, all⟩ := ih others
      refine ⟨by simpa using same, ?_⟩
      intro j hj
      rcases mem_cons.mp hj with rfl | hj
      · rw [phiAt_eq (instr_ok.mp found), phi]
      · exact all j hj
    · obtain rfl : [] = phis := by simpa using run
      simp

theorem Valid.phis_first {tree : DominatorTree} {order : List BlockId} (valid : g.Valid tree order) :
    g.PhisFirst := by
  intro b B stored
  rw [pairwise_iff_getElem]
  intro p q hp hq before phi
  obtain ⟨y, found, validInstr⟩ := (valid.blocks b B stored).instrs q B.instrs[q]
    (getElem?_eq_getElem hq)
  rw [phiAt_eq found] at phi
  obtain ⟨n, counted, below⟩ := validInstr.phi phi
  rw [numPhis, phis, block_ok.mpr stored, ok_bind, bind_ok] at counted
  obtain ⟨phis, among, counted⟩ := counted
  obtain rfl : phis.length = n := by simpa using counted
  obtain ⟨same, all⟩ := phisAmong_take among
  refine all _ ?_
  rw [same, mem_take_iff_getElem]
  exact ⟨p, by omega, rfl⟩

/-- The second program is the first one with groups of moves, and blocks for such groups, put in. -/
structure Woven (g h : Graph) : Prop where
  entry : h.entry = g.entry
  arch : h.arch = g.arch
  values : h.values = g.values
  blocks : g.blocks.size ≤ h.blocks.size
  instr : ∀ (i : InstrId) (x : Instr), g.instrs[i]? = some x → ∃ y, h.instrs[i]? = some y ∧
    SameCode x y ∧ y.block = x.block ∧ (x.group = none → y.group = none)
  added : ∀ (i : InstrId) (y : Instr), g.instrs.size ≤ i → h.instrs[i]? = some y →
    ∃ group, y = ofGroup y.block group
  block : ∀ (b : BlockId) (B : Block), g.blocks[b]? = some B → ∃ C, h.blocks[b]? = some C ∧
    C.instrs.filter (· < g.instrs.size) = B.instrs ∧ C.preds.length = B.preds.length ∧
    C.succs.length = B.succs.length
  listed : ∀ (b : BlockId) (C : Block), h.blocks[b]? = some C → C.instrs.Nodup ∧
    ∀ i ∈ C.instrs, ∃ y, h.instrs[i]? = some y ∧ y.block = b
  phisFirst : h.PhisFirst

namespace Woven

theorem refl (consistent : g.Consistent) (first : g.PhisFirst) : Woven g g := by
  refine ⟨rfl, rfl, rfl, Nat.le_refl _, ?_, ?_, ?_, ?_, first⟩
  · exact fun i x found => ⟨x, found, ⟨rfl, rfl, rfl, rfl⟩, rfl, id⟩
  · intro i y outside found
    have := found_lt found
    omega
  · intro b B stored
    refine ⟨B, stored, ?_, rfl, rfl⟩
    rw [filter_eq_self]
    intro i hi
    obtain ⟨x, found, -⟩ := consistent.instr_of_listed stored hi
    simpa using (found_lt found)
  · exact fun b C stored =>
      ⟨consistent.block_nodup stored, fun i hi => consistent.instr_of_listed stored hi⟩

theorem size_le (w : Woven g h) : g.instrs.size ≤ h.instrs.size := by
  by_contra less
  have bound : h.instrs.size < g.instrs.size := by omega
  obtain ⟨y, found, -⟩ := w.instr h.instrs.size g.instrs[h.instrs.size] (by simp)
  simp at found

theorem phiAt_eq (w : Woven g h) (old : i < g.instrs.size) : h.phiAt i = g.phiAt i := by
  obtain ⟨y, found, code, -⟩ := w.instr i g.instrs[i] (by simp)
  rw [Graph.phiAt_eq found, Graph.phiAt_eq (by simp : g.instrs[i]? = some g.instrs[i]), code.isPhi_eq]

theorem phiAt_added (w : Woven g h) (new : g.instrs.size ≤ i) : h.phiAt i = false := by
  cases found : h.instrs[i]? with
  | none => simp [phiAt, found]
  | some y =>
    obtain ⟨group, made⟩ := w.added i y new found
    rw [Graph.phiAt_eq found, made]
    rfl

/-- An instruction is one of the program, or it is there for a group of moves. -/
theorem instr_cases {y : Instr} (w : Woven g h) (found : h.instrs[i]? = some y) :
    (∃ x, g.instrs[i]? = some x ∧ SameCode x y ∧ y.block = x.block ∧
      (x.group = none → y.group = none)) ∨ g.instrs.size ≤ i ∧
      ∃ group, y = ofGroup y.block group := by
  by_cases old : i < g.instrs.size
  · have isX := Array.getElem?_eq_getElem old
    obtain ⟨y', found', rest⟩ := w.instr i _ isX
    obtain rfl := Option.mem_unique found found'
    exact .inl ⟨_, isX, rest⟩
  · have new := Nat.le_of_not_lt old
    exact .inr ⟨new, w.added i y new found⟩

theorem phis_eq (w : Woven g h) (first : g.PhisFirst) (stored : g.blocks[b]? = some B)
    (found : ∀ i ∈ B.instrs, ∃ x, g.instrs[i]? = some x) : h.phis b = g.phis b := by
  obtain ⟨C, storedC, same, -⟩ := w.block b B stored
  rw [phis, phis, block_ok.mpr storedC, block_ok.mpr stored, ok_bind, ok_bind,
    phisAmong_eq found (first b B stored), phisAmong_eq ?_ (w.phisFirst b C storedC), ← same]
  · rw [filter_filter]
    congr 1
    apply filter_congr
    intro i hi
    by_cases old : i < g.instrs.size
    · simp [old, w.phiAt_eq old]
    · simp [old, w.phiAt_added (Nat.le_of_not_lt old)]
  · intro i hi
    obtain ⟨y, foundY, -⟩ := (w.listed b C storedC).2 i hi
    exact ⟨y, foundY⟩

theorem after_insert (w : Woven g h) {C : Block} {pos : Nat} {group : MoveGroup} {owner : BlockId}
    (stored : h.blocks[b]? = some C)
    (behind : ∀ j ∈ C.instrs.drop pos, h.phiAt j = false) :
    Woven g (inserted h b C pos (ofGroup owner group)) := by
  have grown := w.size_le
  have inside := (w.listed b C stored).2
  have fresh : h.instrs.size ∉ C.instrs := by
    intro among
    obtain ⟨y, found, -⟩ := inside _ among
    exact Nat.lt_irrefl _ (found_lt found)
  have phiAt : ∀ j, (inserted h b C pos (ofGroup owner group)).phiAt j = h.phiAt j := by
    intro j
    rw [phiAt, instr_inserted]
    split
    · rename_i last
      subst last
      simp [phiAt, ofGroup, ofOpcode, Instr.isPhi]
    · rfl
  have middle := take_append_drop pos C.instrs
  refine ⟨w.entry, w.arch, w.values, ?_, ?_, ?_, ?_, ?_, ?_⟩
  · simpa [inserted] using w.blocks
  · intro i x found
    obtain ⟨y, foundY, rest⟩ := w.instr i x found
    rw [instr_inserted, if_neg (Nat.ne_of_lt (found_lt foundY))]
    exact ⟨y, foundY, rest⟩
  · intro i y new found
    rw [instr_inserted] at found
    split at found
    · obtain rfl := Option.some.inj found
      exact ⟨group, rfl⟩
    · exact w.added i y new found
  · intro c D storedD
    obtain ⟨E, storedE, same, preds, succs⟩ := w.block c D storedD
    rw [block_inserted stored]
    split
    · rename_i here
      subst here
      obtain rfl : C = E := by simpa [stored] using storedE
      refine ⟨_, rfl, ?_, preds, succs⟩
      have skipped : decide (h.instrs.size < g.instrs.size) = false := by simpa using grown
      rw [filter_append, filter_cons, if_neg (by simp [skipped]), ← filter_append,
        middle, same]
    · exact ⟨E, storedE, same, preds, succs⟩
  · intro c D storedD
    rw [block_inserted stored] at storedD
    split at storedD
    · rename_i here
      subst here
      obtain rfl := Option.some.inj storedD
      refine ⟨?_, ?_⟩
      · rw [perm_middle.nodup_iff, middle]
        exact nodup_cons.mpr ⟨fresh, (w.listed c C stored).1⟩
      · intro i hi
        rw [perm_middle.mem_iff, middle, mem_cons] at hi
        rw [instr_inserted]
        rcases hi with rfl | hi
        · exact ⟨_, if_pos rfl, rfl⟩
        · obtain ⟨y, found, owner⟩ := inside i hi
          exact ⟨y, by rw [if_neg (Nat.ne_of_lt (found_lt found)), found], owner⟩
    · obtain ⟨once, all⟩ := w.listed c D storedD
      refine ⟨once, fun i hi => ?_⟩
      obtain ⟨y, found, owner⟩ := all i hi
      rw [instr_inserted]
      exact ⟨y, by rw [if_neg (Nat.ne_of_lt (found_lt found)), found], owner⟩
  · intro c D storedD
    simp only [phiAt]
    rw [block_inserted stored] at storedD
    split at storedD
    · obtain rfl := Option.some.inj storedD
      have sorted := w.phisFirst b C stored
      rw [← middle, pairwise_append] at sorted
      obtain ⟨before, after, across⟩ := sorted
      rw [pairwise_append, pairwise_cons]
      refine ⟨before, ⟨?_, after⟩, ?_⟩
      · intro j hj phi
        simp [behind j hj] at phi
      · intro i hi j hj phi
        rcases mem_cons.mp hj with rfl | hj
        · simp [w.phiAt_added grown] at phi
        · exact across i hi j hj phi
    · exact w.phisFirst c D storedD

theorem after_insertAt (w : Woven g h) {pos : Nat} {group : MoveGroup} {owner : BlockId}
    (run : Build.insertAt b pos (ofGroup owner group) h = .ok (i, k))
    (behind : ∀ C, h.blocks[b]? = some C → ∀ j ∈ C.instrs.drop pos, h.phiAt j = false) :
    Woven g k := by
  obtain ⟨-, C, stored, -, rfl⟩ := insertAt_run.mp run
  exact w.after_insert stored (behind C stored)

/-- Instructions may be changed one by one, except for what they compute. -/
theorem after_relabel (w : Woven g h)
    (fields : k.entry = h.entry ∧ k.arch = h.arch ∧ k.values = h.values)
    (blocks : k.blocks = h.blocks)
    (forth : ∀ (i : InstrId) (y : Instr), h.instrs[i]? = some y → ∃ z, k.instrs[i]? = some z ∧
      SameCode y z ∧ z.block = y.block ∧ (y.group = none → z.group = none) ∧
      (g.instrs.size ≤ i → ∃ group, z = ofGroup z.block group))
    (back : ∀ (i : InstrId) (z : Instr), k.instrs[i]? = some z → ∃ y, h.instrs[i]? = some y) :
    Woven g k := by
  have phiAt : ∀ i, k.phiAt i = h.phiAt i := by
    intro i
    cases found : h.instrs[i]? with
    | some y =>
      obtain ⟨z, foundZ, code, -⟩ := forth i y found
      rw [Graph.phiAt_eq found, Graph.phiAt_eq foundZ, code.isPhi_eq]
    | none =>
      have outside : k.instrs[i]? = none := by
        rw [Option.eq_none_iff_forall_not_mem]
        intro z foundZ
        obtain ⟨y, foundY⟩ := back i z foundZ
        cases found.symm.trans foundY
      simp [phiAt, found, outside]
  refine ⟨fields.1.trans w.entry, fields.2.1.trans w.arch, fields.2.2.trans w.values,
    blocks ▸ w.blocks, ?_, ?_, blocks ▸ w.block, ?_, ?_⟩
  · intro i x found
    obtain ⟨y, foundY, code, owner, plain⟩ := w.instr i x found
    obtain ⟨z, foundZ, same, owner', plain', -⟩ := forth i y foundY
    exact ⟨z, foundZ, ⟨same.opcode.trans code.opcode, same.ty.trans code.ty,
      same.inputs.trans code.inputs, same.results.trans code.results⟩, owner'.trans owner,
      fun none => plain' (plain none)⟩
  · intro i z new foundZ
    obtain ⟨y, foundY⟩ := back i z foundZ
    obtain ⟨z', foundZ', -, -, -, added⟩ := forth i y foundY
    obtain rfl := Option.mem_unique foundZ foundZ'
    exact added new
  · rw [blocks]
    intro b C stored
    obtain ⟨once, all⟩ := w.listed b C stored
    refine ⟨once, fun i listed => ?_⟩
    obtain ⟨y, found, owner⟩ := all i listed
    obtain ⟨z, foundZ, -, owner', -⟩ := forth i y found
    exact ⟨z, foundZ, owner'.trans owner⟩
  · intro b C stored
    simp only [phiAt]
    exact w.phisFirst b C (blocks ▸ stored)

theorem after_modifyGroup (w : Woven g h) {f : MoveGroup → Except Fault MoveGroup} {u : Unit}
    (run : Build.modifyGroup i f h = .ok (u, k)) : Woven g k := by
  obtain ⟨z, old, new, found, has, -, rfl⟩ := modifyGroup_run.mp run
  refine w.after_relabel ⟨rfl, rfl, rfl⟩ rfl (fun j y foundY => ?_) fun j y foundY => ?_
  · by_cases here : i = j
    · subst here
      obtain rfl := Option.mem_unique found foundY
      refine ⟨_, Array.getElem?_setIfInBounds_self_of_lt (found_lt found), ⟨rfl, rfl, rfl, rfl⟩, rfl,
        fun none => by simp [none] at has, fun isNew => ⟨new, ?_⟩⟩
      obtain ⟨group, made⟩ := w.added i z isNew found
      rw [made]
      rfl
    · exact ⟨y, (Array.getElem?_setIfInBounds_ne here).trans foundY, ⟨rfl, rfl, rfl, rfl⟩, rfl, id,
        fun isNew => w.added j y isNew foundY⟩
  · exact ⟨_, Array.getElem?_eq_getElem (by simpa using found_lt foundY)⟩

theorem after_splitEdge (w : Woven g h) {pred succ n : BlockId}
    (run : Build.splitEdge pred succ h = .ok (n, k)) : Woven g k := by
  obtain ⟨rfl, same, size, -, others, -⟩ := splitEdge_run run
  have instrs : k.instrs = h.instrs := by rw [same]
  have phiAt : ∀ j, k.phiAt j = h.phiAt j := by
    intro j
    rw [phiAt, phiAt, instrs]
  refine ⟨by rw [same]; exact w.entry, by rw [same]; exact w.arch, by rw [same]; exact w.values,
    by have := w.blocks; omega, by rw [instrs]; exact w.instr, by rw [instrs]; exact w.added,
    ?_, ?_, ?_⟩
  · intro c C stored
    obtain ⟨D, storedD, listed, preds, succs⟩ := w.block c C stored
    refine ⟨_, others c D storedD, listed, ?_, ?_⟩
    · rw [length_preds_rerouted, preds]
    · rw [length_succs_rerouted, succs]
  · intro c D stored
    rw [instrs]
    rcases splitEdge_listed run stored with none | ⟨C, storedC, listed⟩
    · simp [none]
    · rw [listed]
      exact w.listed c C storedC
  · intro c D stored
    simp only [phiAt]
    rcases splitEdge_listed run stored with none | ⟨C, storedC, listed⟩
    · simp [none]
    · rw [listed]
      exact w.phisFirst c C storedC

end Woven

end Graph

end RegisterAllocation
