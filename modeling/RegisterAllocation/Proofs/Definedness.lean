import RegisterAllocation.Proofs.Dominance
import RegisterAllocation.Proofs.Parameters
import RegisterAllocation.Proofs.Validity

/-!
Accepted programs do not get stuck. Wherever control is, the values defined above the block at hand
and those defined before in it have words; these are the values that an accepted program reads. A
run on values that stops with an error therefore stops at an invalid address, at the limit of steps,
or for want of arguments.
-/

namespace RegisterAllocation

open List Option Instr

open Machine DominatorTree

variable {g : Graph} {tree : DominatorTree} {order : List BlockId} {m m' : Machine} {x y : Instr}
  {b s : BlockId} {B : Block} {i : InstrId} {v : ValueId} {e : RunError}

def VerdictOnly {α : Type} (h : Attempt RunError α) : Prop :=
  ∀ e : RunError, h = .error (.error e) → e.isVerdict = true

namespace VerdictOnly

variable {α β : Type} {first : Attempt RunError α} {f : α → Attempt RunError β}

theorem of_ok (a : α) : VerdictOnly (.ok a) := by simp [VerdictOnly]

theorem of_lift (x : Except Fault α) : VerdictOnly (liftM x : Attempt RunError α) :=
  fun _ h => absurd h lift_ne_error

theorem of_refuse (verdict : e.isVerdict = true) :
    VerdictOnly (RegisterAllocation.refuse e : Attempt RunError α) := by
  intro e' h
  obtain rfl := refuse_error.mp h
  exact verdict

theorem bind (start : VerdictOnly first) (rest : ∀ a, first = .ok a → VerdictOnly (f a)) :
    VerdictOnly (first >>= f) := by
  intro e h
  rcases bind_error.mp h with h | ⟨a, found, h⟩
  · exact start e h
  · exact rest a found e h

theorem of_mapM {f : α → Attempt RunError β} (xs : List α) (each : ∀ x ∈ xs, VerdictOnly (f x)) :
    VerdictOnly (xs.mapM f) := by
  induction xs with
  | nil => exact .of_ok _
  | cons x rest ih =>
    rw [mapM_cons]
    refine (each x mem_cons_self).bind fun _ _ => ?_
    exact (ih fun y hy => each y (mem_cons_of_mem x hy)).bind fun _ _ => .of_ok _

end VerdictOnly

namespace Machine

variable {input : Operands}

theorem addressOf_verdictOnly (inputs : ∀ k, VerdictOnly (input k)) :
    VerdictOnly (addressOf input) := by
  refine (inputs 0).bind fun base _ => (inputs 1).bind fun index _ => ?_
  dsimp only
  split
  · exact .of_ok _
  · exact .of_refuse rfl

theorem testOf_verdictOnly (c : Condition) (inputs : ∀ k, VerdictOnly (input k)) :
    VerdictOnly (testOf g x c input) := by
  refine (inputs 0).bind fun _ _ => (inputs 1).bind fun _ _ => ?_
  refine (VerdictOnly.of_lift _).bind fun _ _ => (VerdictOnly.of_lift _).bind fun _ _ => ?_
  split <;> exact .of_ok _

theorem evaluate_verdictOnly {memory : Array Word} (inputs : ∀ k, VerdictOnly (input k)) :
    VerdictOnly (evaluate g x memory input) := by
  unfold evaluate
  split
  · exact .of_ok _
  · exact .of_ok _
  iterate 4 exact (inputs 0).bind fun _ _ => (inputs 1).bind fun _ _ => .of_ok _
  · exact (testOf_verdictOnly _ inputs).bind fun _ _ => .of_ok _
  · refine (testOf_verdictOnly _ inputs).bind fun taken _ => ?_
    cases taken
    · exact (inputs 3).bind fun _ _ => .of_ok _
    · exact (inputs 2).bind fun _ _ => .of_ok _
  · exact (addressOf_verdictOnly inputs).bind fun _ _ => (VerdictOnly.of_lift _).bind fun _ _ =>
      .of_ok _
  · refine (addressOf_verdictOnly inputs).bind fun addr _ => ?_
    split
    · exact (VerdictOnly.of_refuse rfl).bind fun _ refused => absurd refused refuse_ne_ok
    · exact (VerdictOnly.of_lift _).bind fun _ _ => (VerdictOnly.of_lift _).bind fun _ _ => .of_ok _
  · exact (addressOf_verdictOnly inputs).bind fun _ _ => (inputs 2).bind fun _ _ => .of_ok _
  · exact (VerdictOnly.of_mapM _ fun k _ => inputs k).bind fun _ _ => .of_ok _
  iterate 6 exact .of_ok _

def HasWord (m : Machine) (v : ValueId) : Prop := ∃ w, m.values[v]? = some (some w)

theorem input_verdictOnly (onValues : m.stage = .values)
    (has : ∀ (k : Nat) v, x.inputs[k]? = some v → m.HasWord v) (k : Nat) :
    VerdictOnly (m.input g x k) := by
  simp only [input, onValues]
  refine (VerdictOnly.of_lift _).bind fun v operand => ?_
  rw [lift_ok, need_eq_ok] at operand
  obtain ⟨w, found⟩ := has k v operand
  simp only [found, need_some, lift_of_ok, ok_bind]
  exact .of_ok _

theorem HasWord.after_assign {pairs : List (ValueId × Word)}
    (inside : ∀ p ∈ pairs, p.1 < m.values.size)
    (has : m.HasWord v) : ({ m with values := m.values.assign pairs } : Machine).HasWord v := by
  obtain ⟨w, found⟩ := has
  rcases Bank.assign_get inside v with ⟨w', -, found'⟩ | ⟨-, same⟩
  · exact ⟨w', found'⟩
  · exact ⟨w, same.trans found⟩

theorem has_assigned {pairs : List (ValueId × Word)} (inside : ∀ p ∈ pairs, p.1 < m.values.size)
    {w : Word} (member : (v, w) ∈ pairs) :
    ({ m with values := m.values.assign pairs } : Machine).HasWord v := by
  rcases Bank.assign_get inside v with ⟨w', -, found⟩ | ⟨none, -⟩
  · exact ⟨w', found⟩
  · exact absurd member (none w)

theorem phiValues_verdictOnly {k : Nat} {instrs : List InstrId} (onValues : m.stage = .values)
    (has : ∀ i ∈ instrs, ∀ x, g.instrs[i]? = some x → x.isPhi = true →
      ∀ v, x.inputs[k]? = some v → m.HasWord v) : VerdictOnly (m.phiValues g k instrs) := by
  induction instrs with
  | nil => exact .of_ok _
  | cons i rest ih =>
    rw [phiValues]
    refine (VerdictOnly.of_lift _).bind fun x found => ?_
    rw [lift_ok, Graph.instr_ok] at found
    split
    · rename_i phi
      refine (VerdictOnly.of_lift _).bind fun v _ => ?_
      refine VerdictOnly.bind ?_ fun w _ => ?_
      · simp only [input, onValues]
        refine (VerdictOnly.of_lift _).bind fun u operand => ?_
        rw [lift_ok, need_eq_ok] at operand
        obtain ⟨w, word⟩ := has i mem_cons_self x found phi u operand
        simp only [word, need_some, lift_of_ok, ok_bind]
        exact .of_ok _
      · exact (ih fun j hj => has j (mem_cons_of_mem i hj)).bind fun _ _ => .of_ok _
    · exact .of_ok _

theorem enter_eq {S : Block} (onValues : m.stage = .values) (stored : g.blocks[s]? = some S)
    (pred : m.block ∈ S.preds) :
    m.enter g s = m.phiValues g (S.preds.idxOf m.block) S.instrs >>= fun updates =>
      updates.foldlM (fun m p => (liftM (m.setValue p.1 p.2) : Attempt RunError Machine))
        { m with block := s, pc := 0 } := by
  unfold enter
  split
  · rename_i located
    simp [located] at onValues
  · rw [Graph.block_ok.mpr stored]
    simp only [lift_of_ok, ok_bind, pred, not_true_eq_false, ↓reduceIte]

theorem phiValues_taken {k : Nat} {instrs phis : List InstrId} {updates : List (ValueId × Word)}
    (h : m.phiValues g k instrs = .ok updates) (heads : g.phisAmong instrs = .ok phis)
    (member : i ∈ phis) (found : g.instrs[i]? = some x) (result : x.results.head? = some v) :
    ∃ w, (v, w) ∈ updates := by
  induction instrs generalizing phis updates with
  | nil =>
    obtain rfl : [] = phis := by simpa [Graph.phisAmong] using heads
    simp at member
  | cons j rest ih =>
    rw [phiValues, bind_ok] at h
    rw [Graph.phisAmong, bind_ok] at heads
    obtain ⟨z, foundZ, h⟩ := h
    obtain ⟨z', foundZ', heads⟩ := heads
    rw [lift_ok] at foundZ
    obtain rfl : z = z' := Except.ok.inj (foundZ.symm.trans foundZ')
    rw [Graph.instr_ok] at foundZ
    by_cases phi : z.isPhi = true
    · simp only [phi, ↓reduceIte, bind_ok, lift_ok, need_eq_ok, pure_ok] at h heads
      obtain ⟨u, hu, w, -, more, others, rfl⟩ := h
      obtain ⟨morePhis, heads, rfl⟩ := heads
      rcases mem_cons.mp member with rfl | member
      · obtain rfl := mem_unique found foundZ
        obtain rfl := mem_unique hu result
        exact ⟨w, mem_cons_self⟩
      · obtain ⟨w', among⟩ := ih others heads member
        exact ⟨w', mem_cons_of_mem _ among⟩
    · simp only [phi, Bool.false_eq_true, ↓reduceIte, pure_ok] at heads
      simp [← heads] at member

end Machine

namespace Graph

theorem mem_phisAmong {instrs phis : List InstrId} {pos : Nat}
    (h : g.phisAmong instrs = .ok phis) (listed : instrs[pos]? = some i) (early : pos < phis.length) :
    i ∈ phis := by
  induction instrs generalizing phis pos with
  | nil => simp at listed
  | cons j rest ih =>
    simp only [phisAmong, bind_ok] at h
    obtain ⟨x, -, h⟩ := h
    by_cases phi : x.isPhi = true
    · simp only [phi, ↓reduceIte, bind_ok, pure_ok] at h
      obtain ⟨more, others, rfl⟩ := h
      cases pos with
      | zero =>
        obtain rfl : j = i := by simpa using listed
        exact mem_cons_self
      | succ pos =>
        exact mem_cons_of_mem j (ih others (by simpa using listed) (by simpa using early))
    · simp only [phi, Bool.false_eq_true, ↓reduceIte, pure_ok] at h
      simp [← h] at early

theorem available_cases (valid : g.Valid tree order) {pos k : Nat}
    (h : g.isAvailable tree x pos k v = .ok true) :
    ∃ d y, g.instrs[d]? = some y ∧ v ∈ y.results ∧
      (x.isPhi = true → ∃ B pred, g.blocks[x.block]? = some B ∧ B.preds[k]? = some pred ∧
        tree.dominates y.block pred = .ok true) ∧
      (x.isPhi = false → (y.block = x.block ∧ ∃ B pc, g.blocks[x.block]? = some B ∧
          B.instrs[pc]? = some d ∧ pc < pos) ∨
        (y.block ≠ x.block ∧ tree.dominates y.block x.block = .ok true)) := by
  simp only [isAvailable, bind_ok, value_ok, instr_ok] at h
  obtain ⟨d, defined, y, found, h⟩ := h
  obtain ⟨y', found', result⟩ := valid.defined v d defined
  obtain rfl := mem_unique found found'
  refine ⟨d.definedBy, y, found, result, fun phi => ?_, fun phi => ?_⟩
  · simp only [phi, ↓reduceIte, bind_ok, block_ok] at h
    obtain ⟨B, stored, h⟩ := h
    cases pred : B.preds[k]? with
    | none => simp [pred] at h
    | some p => exact ⟨B, p, stored, pred, by simpa [pred] using h⟩
  · simp only [phi, Bool.false_eq_true, ↓reduceIte] at h
    by_cases home : y.block = x.block
    · simp only [home, ↓reduceIte, positionInBlock, bind_ok, instr_ok, block_ok] at h
      obtain ⟨n, ⟨y', found', B, stored, _, listed, hn⟩, h⟩ := h
      obtain rfl := mem_unique found found'
      refine .inl ⟨home, B, n, home ▸ stored, ?_, by simpa using h⟩
      rw [← pure_ok.mp hn]
      exact getElem?_idxOf (ensure_eq_ok.mp listed)
    · exact .inr ⟨home, by simpa [home] using h⟩

def Behind (g : Graph) (tree : DominatorTree) (b : BlockId) (pc : Nat) (i : InstrId) (x : Instr) :
    Prop :=
  (x.block ≠ b ∧ Above tree g.entry x.block b) ∨
  (x.block = b ∧ (x.isPhi = true ∨ x.opcode = .parameter ∨
    ∃ B pos, g.blocks[b]? = some B ∧ B.instrs[pos]? = some i ∧ pos < pc))

structure OnTrack (g : Graph) (m : Machine) : Prop where
  onValues : m.stage = .values
  within : ∃ B, g.blocks[m.block]? = some B ∧ m.pc ≤ B.instrs.length
  passed : ∀ pc x, pc + 1 = m.pc → g.At m.block pc x → x.opcode.isTerminator = false

structure Underway (g : Graph) (tree : DominatorTree) (m : Machine) : Prop extends OnTrack g m where
  reached : ∃ p, tree[m.block]? = some (some p)
  has : ∀ i x, g.instrs[i]? = some x → g.Behind tree m.block m.pc i x → ∀ v ∈ x.results, m.HasWord v

structure Accepted (g : Graph) (tree : DominatorTree) (order : List BlockId) : Prop where
  consistent : g.Consistent
  valid : g.Valid tree order

namespace Accepted

variable (given : g.Accepted tree order)

include given

theorem is_settled : Settled g tree :=
  dominators_settled given.valid.dominators given.valid.ordered given.valid.complete
    given.valid.entry

theorem instr_valid (found : g.instrs[i]? = some x) :
    ∃ B pos, g.blocks[x.block]? = some B ∧ B.instrs[pos]? = some i ∧
      g.ValidInstr tree x.block B pos x := by
  obtain ⟨B, stored, listed⟩ := given.consistent.listed_of_instr found
  obtain ⟨pos, atPos⟩ := mem_iff_getElem?.mp listed
  obtain ⟨x', found', valid⟩ := (given.valid.blocks _ B stored).instrs pos i atPos
  obtain rfl := mem_unique found found'
  exact ⟨B, pos, stored, atPos, valid⟩

theorem bare_of_grouped (grouped : g.Grouped) : g.Bare := by
  intro i x found
  obtain ⟨B, pos, -, -, valid⟩ := given.instr_valid found
  have isGroup := grouped x (Array.mem_of_getElem? found)
  rw [valid.plain] at isGroup
  simpa using isGroup.symm

theorem checked_at {pc : Nat} (stored : g.blocks[b]? = some B)
    (listed : B.instrs[pc]? = some i) (found : g.instrs[i]? = some x) :
    g.ValidInstr tree b B pc x := by
  obtain ⟨x', found', valid⟩ := (given.valid.blocks b B stored).instrs pc i listed
  obtain rfl := mem_unique found found'
  exact valid

theorem behind_end {pc : Nat} (stored : g.blocks[b]? = some B)
    (atEnd : B.instrs.length ≤ pc) (found : g.instrs[i]? = some x)
    (above : Above tree g.entry x.block b) : g.Behind tree b pc i x := by
  by_cases home : x.block = b
  · obtain ⟨B', pos, stored', listed, -⟩ := given.instr_valid found
    obtain rfl := mem_unique stored (home ▸ stored')
    refine .inr ⟨home, .inr (.inr ⟨B, pos, stored, listed, ?_⟩)⟩
    have := listed_lt listed
    omega
  · exact .inl ⟨home, above⟩

theorem after_enter (onValues : m.stage = .values)
    (stored : g.blocks[m.block]? = some B) (succ : s ∈ B.succs)
    (reached : ∃ p, tree[m.block]? = some (some p))
    (left : ∀ (i : InstrId) (x : Instr), g.instrs[i]? = some x →
      Above tree g.entry x.block m.block → ∀ v ∈ x.results, m.HasWord v) :
    VerdictOnly (m.enter g s) ∧ ∀ m', m.enter g s = .ok m' → g.Underway tree m' := by
  obtain ⟨S, storedS, pred⟩ := given.consistent.pred_of_succ stored succ
  obtain ⟨p, parent⟩ := reached
  have noPreds : s ≠ g.entry := by
    rintro rfl
    simp [given.valid.entry S storedS] at pred
  have phiOperand : ∀ i ∈ S.instrs, ∀ x, g.instrs[i]? = some x → x.isPhi = true →
      ∀ v, x.inputs[S.preds.idxOf m.block]? = some v → m.HasWord v := by
    intro i hi x found phi v operand
    obtain ⟨pos, listed⟩ := mem_iff_getElem?.mp hi
    have valid := given.checked_at storedS listed found
    obtain ⟨d, y, foundY, member, onEdge, -⟩ :=
      available_cases given.valid (valid.operands _ v operand).2
    obtain ⟨S', pred', storedS', atK, dominates⟩ := onEdge phi
    obtain rfl := mem_unique storedS (valid.block ▸ storedS')
    obtain rfl := mem_unique (getElem?_idxOf pred) atK
    exact left _ y foundY (above_of_dominates dominates) v member
  rw [enter_eq onValues storedS pred]
  constructor
  · refine (phiValues_verdictOnly onValues phiOperand).bind fun updates _ => ?_
    exact fun e h => absurd h setValues_no_verdict
  · intro m' h
    obtain ⟨updates, taken, h⟩ := bind_ok.mp h
    obtain ⟨inside, rfl⟩ := setValues_ok h
    obtain ⟨d, parentS, -⟩ := given.is_settled.meets s S storedS m.block pred p parent
    refine ⟨⟨onValues, ⟨S, storedS, Nat.zero_le _⟩, fun _ _ h => by simp at h⟩, ⟨d, parentS⟩, ?_⟩
    intro i x found (behind : g.Behind tree s 0 i x) v result
    rcases behind with ⟨other, above⟩ | ⟨home, phi | parameter | ⟨_, pos, _, _, less⟩⟩
    · exact (left i x found (above_pred given.is_settled storedS pred parent above other) v
        result).after_assign inside
    · -- a phi of the block has just been given its operand
      obtain ⟨S', pos, storedS', listed, valid⟩ := given.instr_valid found
      obtain rfl := mem_unique storedS (home ▸ storedS')
      obtain ⟨n, count, early⟩ := valid.phi phi
      simp only [numPhis, phis, bind_ok, block_ok, pure_ok] at count
      obtain ⟨phis, ⟨S'', storedS'', heads⟩, rfl⟩ := count
      obtain rfl := mem_unique storedS' storedS''
      have one : x.results.length = 1 := by
        simp only [isPhi, beq_iff_eq] at phi
        rw [valid.results, phi]
        rfl
      obtain ⟨u, hu⟩ := length_eq_one_iff.mp one
      obtain rfl : v = u := by simpa [hu] using result
      obtain ⟨w, member⟩ := phiValues_taken taken heads (mem_phisAmong heads listed early) found
        (by rw [hu]; rfl : x.results.head? = some v)
      exact has_assigned inside member
    · obtain ⟨_, _, _, _, valid⟩ := given.instr_valid found
      exact absurd (home ▸ valid.early parameter) noPreds
    · simp at less

section

variable (underway : g.Underway tree m) (stored : g.blocks[m.block]? = some B)
  (listed : B.instrs[m.pc]? = some i) (found : g.instrs[i]? = some x)

include underway stored listed found

theorem underway_after_compute (plain : x.opcode.isTerminator = false)
    (h : (m.count x).compute g x = .ok m') : g.Underway tree m' := by
  have valid := given.checked_at stored listed found
  have onValues : (m.count x).stage = .values := underway.onValues
  have passed : ∀ pc y, pc + 1 = m.pc + 1 → g.At m.block pc y → y.opcode.isTerminator = false := by
    intro pc y same here
    obtain rfl : pc = m.pc := by omega
    rw [here.instr_unique ⟨B, i, stored, listed, found⟩]
    exact plain
  have within : ∃ B, g.blocks[m.block]? = some B ∧ m.pc + 1 ≤ B.instrs.length :=
    ⟨B, stored, (listed_lt listed)⟩
  -- what lies behind now is the instruction itself, or lay behind before
  have behind : ∀ j y, g.instrs[j]? = some y → g.Behind tree m.block (m.pc + 1) j y →
      g.Behind tree m.block m.pc j y ∨ (j = i ∧ y = x) := by
    intro j y foundY behind
    rcases behind with above | ⟨home, phi | parameter | ⟨B', pos, stored', listed', less⟩⟩
    · exact .inl (.inl above)
    · exact .inl (.inr ⟨home, .inl phi⟩)
    · exact .inl (.inr ⟨home, .inr (.inl parameter)⟩)
    · obtain rfl := mem_unique stored stored'
      by_cases last : pos = m.pc
      · rw [last, listed] at listed'
        obtain rfl : i = j := some.inj listed'
        exact .inr ⟨rfl, mem_unique foundY found⟩
      · exact .inl (.inr ⟨home, .inr (.inr ⟨B, pos, stored, listed', by omega⟩)⟩)
  by_cases given' : x.isPhi = true ∨ x.opcode = .parameter
  · have same : (m.count x).compute g x = .ok (m.count x) := by
      rcases given' with phi | parameter
      · simp only [isPhi, beq_iff_eq] at phi
        simp [compute, phi]
      · simp [compute, parameter]
    obtain rfl := Except.ok.inj (same.symm.trans h)
    refine ⟨⟨onValues, within, passed⟩, underway.reached, ?_⟩
    intro j y foundY later
    rcases behind j y foundY later with before | ⟨rfl, rfl⟩
    · exact underway.has j y foundY before
    · exact underway.has j y foundY (.inr ⟨valid.block, given'.imp_right .inl⟩)
  · simp only [not_or, Bool.not_eq_true] at given'
    obtain ⟨r, -, length, inside, rfl⟩ :=
      compute_values onValues valid.plain valid.results given'.2 given'.1 h
    have pairs : ∀ q ∈ x.results.zip r.1, q.1 < m.values.size :=
      fun q hq => inside q.1 (of_mem_zip hq).1
    refine ⟨⟨onValues, within, passed⟩, underway.reached, ?_⟩
    intro j y foundY later v result
    rcases behind j y foundY later with before | ⟨rfl, rfl⟩
    · exact (underway.has j y foundY before v result).after_assign pairs
    · have inTable : ∀ v ∈ y.results, v < m.values.size := inside
      rcases Bank.assign_zip_get length inTable v with ⟨_, w, -, word⟩ | ⟨none, -⟩
      · exact ⟨w, word⟩
      · exact absurd result none

theorem has_operand (notPhi : x.isPhi = false) (k : Nat) (v : ValueId)
    (operand : x.inputs[k]? = some v) : m.HasWord v := by
  have valid := given.checked_at stored listed found
  obtain ⟨d, y, foundY, result, -, before⟩ :=
    available_cases given.valid (valid.operands k v operand).2
  refine underway.has _ y foundY ?_ v result
  rw [← valid.block]
  rcases before notPhi with ⟨home, B', pc, stored', listed', less⟩ | ⟨other, dominates⟩
  · exact .inr ⟨home, .inr (.inr ⟨B', pc, stored', listed', less⟩)⟩
  · exact .inl ⟨other, above_of_dominates dominates⟩

end

theorem one_succ (track : g.OnTrack m)
    (stored : g.blocks[m.block]? = some B) (atEnd : B.instrs[m.pc]? = none) :
    ∃ s, B.succs = [s] := by
  rw [← length_eq_one_iff]
  have block := given.valid.blocks _ B stored
  have ended : m.pc = B.instrs.length := by
    obtain ⟨B', stored', within⟩ := track.within
    obtain rfl := mem_unique stored stored'
    exact Nat.le_antisymm within (getElem?_eq_none_iff.mp atEnd)
  by_cases empty : B.instrs = []
  · exact block.empty empty
  have bound : m.pc - 1 < B.instrs.length := by
    have := length_pos_iff.mpr empty
    omega
  have listed := getElem?_eq_getElem bound
  obtain ⟨x, found, -⟩ := block.instrs _ _ listed
  have last : B.instrs.getLast? = some B.instrs[m.pc - 1] := by
    rw [getLast?_eq_getElem?, ← ended]
    exact listed
  have plain := track.passed (m.pc - 1) x (by omega) ⟨B, _, stored, listed, found⟩
  rw [block.ends _ x last found]
  cases hop : x.opcode <;> simp_all [Opcode.isTerminator, expectedSuccs]

theorem two_succs {pc : Nat} (stored : g.blocks[b]? = some B)
    (listed : B.instrs[pc]? = some i) (found : g.instrs[i]? = some x) {c : Condition}
    (isBranch : x.opcode = .branch c) : ∃ yes no, B.succs = [yes, no] := by
  have last := (given.checked_at stored listed found).last (by rw [isBranch]; rfl)
  have ends : B.instrs.getLast? = some i := by
    rw [getLast?_eq_getElem?, ← last]
    exact listed
  have two := (given.valid.blocks _ B stored).ends i x ends found
  rw [isBranch] at two
  exact length_eq_two.mp two

section

variable (underway : g.Underway tree m) (stored : g.blocks[m.block]? = some B)
  (listed : B.instrs[m.pc]? = some i) (found : g.instrs[i]? = some x)

include underway stored listed found

theorem has_at_branch {c : Condition} (isBranch : x.opcode = .branch c) :
    ∀ (j : InstrId) (y : Instr), g.instrs[j]? = some y → Above tree g.entry y.block m.block →
      ∀ v ∈ y.results, m.HasWord v := by
  have valid := given.checked_at stored listed found
  have last := valid.last (by rw [isBranch]; rfl)
  intro j y foundY above v result
  refine underway.has j y foundY ?_ v result
  have behind : g.Behind tree m.block (m.pc + 1) j y :=
    given.behind_end stored (by omega) foundY above
  rcases behind with other | ⟨home, phi | parameter | ⟨B', pos, stored', listed', less⟩⟩
  · exact .inl other
  · exact .inr ⟨home, .inl phi⟩
  · exact .inr ⟨home, .inr (.inl parameter)⟩
  · refine .inr ⟨home, .inr (.inr ⟨B', pos, stored', listed', ?_⟩)⟩
    -- the branch itself has no result
    have other : pos ≠ m.pc := by
      rintro rfl
      obtain rfl := mem_unique stored stored'
      obtain rfl := mem_unique listed listed'
      obtain rfl := mem_unique found foundY
      have none := valid.results
      simp only [isBranch, Opcode.numResults, length_eq_zero_iff] at none
      simp [none] at result
    omega

theorem execute_verdictOnly :
    VerdictOnly ((m.count x).execute g B x) ∧
      ∀ m', (m.count x).execute g B x = .ok (.running m') → g.Underway tree m' := by
  have valid := given.checked_at stored listed found
  have onValues : (m.count x).stage = .values := underway.onValues
  have inputs (notPhi : x.isPhi = false) (k : Nat) : VerdictOnly ((m.count x).input g x k) :=
    input_verdictOnly onValues
      (fun k v operand => given.has_operand underway stored listed found notPhi k v operand) k
  cases hop : x.opcode with
  | branch c =>
    obtain ⟨yes, no, succs⟩ := given.two_succs stored listed found hop
    have left := given.has_at_branch underway stored listed found hop
    have notPhi : x.isPhi = false := by simp [isPhi, hop]
    have entered (s : BlockId) (succ : s ∈ B.succs) :=
      given.after_enter (m := m.count x) onValues stored succ underway.reached left
    have way (taken : Bool) : (if taken then yes else no) ∈ B.succs := by
      cases taken <;> simp [succs]
    simp only [execute, hop, succs]
    refine ⟨?_, fun m' h => ?_⟩
    · refine (testOf_verdictOnly c (inputs notPhi)).bind fun taken _ => ?_
      exact (entered _ (way taken)).1.bind fun _ _ => .of_ok _
    · obtain ⟨taken, -, h⟩ := bind_ok.mp h
      obtain ⟨n, arrived, h⟩ := bind_ok.mp h
      obtain rfl := Next.running.inj (pure_ok.mp h)
      exact (entered _ (way taken)).2 n arrived
  | ret =>
    have notPhi : x.isPhi = false := by simp [isPhi, hop]
    simp only [execute, hop]
    refine ⟨(inputs notPhi 0).bind fun _ _ => .of_ok _, fun m' h => ?_⟩
    obtain ⟨w, -, h⟩ := bind_ok.mp h
    simp [pure, Except.pure] at h
  | retVoid =>
    simp only [execute, hop]
    exact ⟨.of_ok _, fun m' h => by simp at h⟩
  | _ =>
    have plain : x.opcode.isTerminator = false := by rw [hop]; rfl
    rw [execute_plain plain]
    refine ⟨VerdictOnly.bind ?_ fun _ _ => .of_ok _, fun m' h => ?_⟩
    · by_cases phi : x.isPhi = true
      · have same : (m.count x).compute g x = .ok (m.count x) := by
          simp only [isPhi, beq_iff_eq] at phi
          simp [compute, phi]
        rw [same]
        exact .of_ok _
      · exact fun e h => evaluate_verdictOnly (inputs (by simpa using phi)) e
          (compute_verdict onValues valid.plain h)
    · obtain ⟨n, computed, h⟩ := bind_ok.mp h
      obtain rfl := Next.running.inj (Except.ok.inj h)
      exact given.underway_after_compute underway stored listed found plain computed

end

theorem step_verdictOnly (underway : g.Underway tree m) :
    VerdictOnly (m.step g) ∧ ∀ m', m.step g = .ok (.running m') → g.Underway tree m' := by
  obtain ⟨B, stored, -⟩ := underway.within
  cases listed : B.instrs[m.pc]? with
  | none =>
    obtain ⟨s, one⟩ := given.one_succ underway.toOnTrack stored listed
    have fell : m.fallThrough g B = m.enter g s := by simp [fallThrough, one]
    have atEnd := getElem?_eq_none_iff.mp listed
    obtain ⟨verdicts, entered⟩ := given.after_enter underway.onValues stored
      (by rw [one]; exact mem_cons_self : s ∈ B.succs) underway.reached
      (fun i x found above => underway.has i x found (given.behind_end stored atEnd found above))
    rw [step_end stored listed, fell]
    refine ⟨verdicts.bind fun _ _ => .of_ok _, fun m' h => ?_⟩
    obtain ⟨n, arrived, h⟩ := bind_ok.mp h
    obtain rfl := Next.running.inj (Except.ok.inj h)
    exact entered n arrived
  | some i =>
    obtain ⟨x, found, -⟩ := (given.valid.blocks _ B stored).instrs _ i listed
    rw [step_instr stored listed found]
    split
    · exact ⟨.of_refuse rfl, fun _ h => absurd h refuse_ne_ok⟩
    · exact given.execute_verdictOnly underway stored listed found

end Accepted

end Graph

end RegisterAllocation
