import RegisterAllocation.Proofs.Runs
import RegisterAllocation.Proofs.ValueTable

/-!
An allocated program follows the program it expands. Both machines stand at the same instruction of
the program, the second one perhaps with moves to make first; they agree on memory and on the number
of counted steps; and the places of the second one hold what verification knows of them, in terms of
the table of values of the first one.

The one thing that verification does not see is time: a location may be known to hold a value that a
loop is about to define anew. It is not, and no property of loops is needed for it. When control
first comes to the definition of a value, the table has no word for the value, so agreement says that
no location is known to hold it there. What is known there does not change from one visit to the
next, so the same is true whenever control comes back.
-/

namespace RegisterAllocation

open Machine

variable {p a : Graph} {order : List BlockId} {known : BlockId → Nat → Knowledge} {values : Bank}
  {m m' n n' : Machine} {x y : Instr} {b s : BlockId} {pc : Nat}

structure Fresh (a : Graph) (known : BlockId → Nat → Knowledge) (u : ValueId) : Prop where
  plain : ∀ b pc y, a.At b pc y → y.isPhi = false → y.opcode ≠ .parameter → u ∈ y.results →
    ∀ l, Verify.read a (known b pc) l ≠ .value u
  phi : ∀ b pc y, a.At b pc y → y.isPhi = true → u ∈ y.results →
    ∀ l, Verify.read a (known b 0) l = .value u → Verify.PhiPlace a b l

structure Setting (p a : Graph) (order : List BlockId) (known : BlockId → Nat → Knowledge) :
    Prop where
  expands : Graph.Expands p a
  proper : a.Proper
  solution : Verify.Solution a order known
  entry : ∀ E, p.blocks[p.entry]? = some E → E.preds = []
  convention : ∃ cc, a.target.convention = some cc

structure Tracks (a : Graph) (order : List BlockId) (known : BlockId → Nat → Knowledge)
    (values : Bank) (n : Machine) : Prop where
  located : n.stage = .locations
  target : n.target = a.target
  reached : n.block ∈ order
  within : n.counted ≤ maxSteps
  agrees : Agrees a (known n.block n.pc) values n
  room : ∀ b pc y l, a.At b pc y → l ∈ y.written → n.Accepts l

namespace Tracks

theorem after_moves (set : Setting p a order known) (f : Tracks a order known values n)
    (here : a.At n.block n.pc y) (moves : y.isSpillFill = true) :
    ∃ n', n.step a = .ok (.running n') ∧ Tracks a order known values n' ∧
      OnlyPlaces { n.count y with groups := n.groups + 1 } n' ∧
      ∀ l ∉ y.written, n'.content a l = n.content a l := by
  obtain ⟨B, i, stored, listed, found⟩ := id here
  obtain ⟨y', found', passes⟩ := set.solution.step _ f.reached B stored _ i listed
  obtain rfl : y = y' := by simpa [found] using found'
  obtain ⟨group, hgroup⟩ : ∃ group, y.group = some group := by
    have some := set.proper.grouped _ _ _ here
    rw [moves] at some
    exact Option.isSome_iff_exists.mp some.symm
  generalize next : known n.block (n.pc + 1) = k' at passes
  cases passes with
  | @moves k' group' hgroup' sequenced carries =>
    obtain rfl : group = group' := by simpa [hgroup] using hgroup'
    have writes : ∀ mv ∈ group.moves, mv.dst ∈ y.written := by
      rw [Instr.written_moves hgroup]
      exact fun mv hmv => List.mem_map_of_mem hmv
    have counted : Agrees a (known n.block n.pc) values (n.count y) := f.agrees
    obtain ⟨n', moved, done⟩ := counted.after_moveGroup f.target sequenced carries
      fun mv hmv => f.room _ _ _ _ here (writes mv hmv)
    have only := (moveGroup_fill moved).1
    have drifted : drift a n = some n' :=
      drift_moves f.located stored listed found moves f.within (by rw [hgroup]; exact moved)
    refine ⟨n', (drift_some drifted).1, ?_, only, ?_⟩
    · refine ⟨?_, ?_, ?_, ?_, ?_, ?_⟩
      · rw [only.same]
        exact f.located
      · rw [only.target_eq]
        exact f.target
      · rw [only.same]
        exact f.reached
      · rw [(drift_some drifted).2]
        exact f.within
      · rw [show n'.block = n.block by rw [only.same]; rfl,
          show n'.pc = n.pc + 1 by rw [only.same]; rfl, next]
        exact done
      · intro b pc z l hz writes
        exact only.accepts_kept (f.room b pc z l hz writes)
    · intro l free
      simp only [moveGroup, sequenced, ↓reduceIte] at moved
      have kept := transfers_keep (l := l) moved fun mv hmv same => free (same ▸ writes mv hmv)
      exact kept
  | phi ungrouped => simp [hgroup] at ungrouped
  | other ungrouped => simp [hgroup] at ungrouped

theorem after_block (set : Setting p a order known) {N : Block} (f : Tracks a order known values n)
    (stored : a.blocks[n.block]? = some N) (all : ∀ i ∈ N.instrs, a.isMoves i = true)
    (inside : n.pc ≤ N.instrs.length) :
    ∃ n', Reaches a n n' ∧ Tracks a order known values n' ∧ n'.block = n.block ∧
      n'.pc = N.instrs.length ∧ n'.memory = n.memory ∧ n'.counted = n.counted ∧
      n'.result = n.result ∧ n.steps ≤ n'.steps := by
  induction left : N.instrs.length - n.pc generalizing n with
  | zero => exact ⟨n, .refl n, f, rfl, by omega, rfl, rfl, rfl, Nat.le_refl _⟩
  | succ left ih =>
    have bound : n.pc < N.instrs.length := by omega
    have listed := List.getElem?_eq_getElem bound
    obtain ⟨y, found, -⟩ := set.solution.step _ f.reached N stored _ _ listed
    have here : a.At n.block n.pc y := ⟨N, _, stored, listed, found⟩
    have moves : y.isSpillFill = true := by
      rw [← Graph.isMoves_eq found]
      exact all _ (List.getElem_mem bound)
    obtain ⟨n₁, stepped, f₁, only, -⟩ := f.after_moves set here moves
    have block : n₁.block = n.block := by rw [only.same]; rfl
    have next : n₁.pc = n.pc + 1 := by rw [only.same]; rfl
    obtain ⟨n', reached, f', block', pc', memory, counted, result, steps⟩ :=
      ih f₁ (by rw [block]; exact stored) (by omega) (by omega)
    refine ⟨n', .step stepped reached, f', block'.trans block, pc', ?_, ?_, ?_, ?_⟩
    · rw [memory, only.same]
      rfl
    · rw [counted, only.same]
      simp [count, moves]
    · rw [result, only.same]
      rfl
    · refine Nat.le_trans ?_ steps
      rw [only.same]
      exact Nat.le_succ _

end Tracks

def Waiting (a : Graph) (values : Bank) (n : Machine) : Prop :=
  n.block = a.entry → ∀ q y, a.At a.entry q y → n.pc ≤ q → y.opcode = .parameter →
    ∀ r ∈ y.results.zip y.resultLocations,
      ∃ w, values[r.1]? = some (some w) ∧ n.content a r.2 = some w

structure Simulates (p a : Graph) (order : List BlockId) (known : BlockId → Nat → Knowledge)
    (m n : Machine) : Prop extends Tracks a order known m.values n where
  onValues : m.stage = .values
  block : n.block = m.block
  memory : n.memory = m.memory
  counted : n.counted = m.counted
  result : n.result = m.result
  steps : m.steps ≤ n.steps
  ahead : ∀ A B, a.blocks[n.block]? = some A → p.blocks[m.block]? = some B →
    n.pc ≤ A.instrs.length ∧ a.withoutMoves (A.instrs.drop n.pc) = B.instrs.drop m.pc
  constants : ConstantsHold a m.values
  fresh : ∀ u w, m.values[u]? = some (some w) → Fresh a known u
  waiting : Waiting a m.values n

namespace Simulates

theorem after_moves (set : Setting p a order known) (sim : Simulates p a order known m n)
    (here : a.At n.block n.pc y) (moves : y.isSpillFill = true) :
    ∃ n', n.step a = .ok (.running n') ∧ Simulates p a order known m n' ∧ n'.pc = n.pc + 1 := by
  obtain ⟨n', stepped, faithful, only, kept⟩ := sim.toTracks.after_moves set here moves
  obtain ⟨A, i, stored, listed, found⟩ := id here
  have block : n'.block = n.block := by rw [only.same]; rfl
  have next : n'.pc = n.pc + 1 := by rw [only.same]; rfl
  refine ⟨n', stepped, ⟨faithful, sim.onValues, block.trans sim.block, ?_, ?_, ?_, ?_, ?_,
    sim.constants, sim.fresh, ?_⟩, next⟩
  · rw [only.same]
    exact sim.memory
  · rw [only.same]
    simpa [count, moves] using sim.counted
  · rw [only.same]
    exact sim.result
  · rw [only.same]
    exact Nat.le_succ_of_le sim.steps
  · intro A' B storedA storedB
    obtain rfl : A = A' := by simpa [block, stored] using storedA
    obtain ⟨_, rest⟩ := sim.ahead A B stored storedB
    have inside := listed_lt listed
    rw [Graph.withoutMoves_drop listed, Graph.isMoves_eq found, moves] at rest
    rw [next]
    exact ⟨inside, rest⟩
  · intro entry q z hz later parameter r hr
    rw [block] at entry
    obtain ⟨w, value, content⟩ := sim.waiting entry q z hz (by omega) parameter r hr
    refine ⟨w, value, ?_⟩
    have away := Instr.overwrites_eq_false.mp
      (set.proper.intact n.pc q y z (entry ▸ here) hz (by omega) parameter r.2
        (List.of_mem_zip hr).2)
    rw [kept r.2 away.1, content]

theorem catch_up (set : Setting p a order known) (sim : Simulates p a order known m n)
    {A B : Block} (storedA : a.blocks[n.block]? = some A) (storedB : p.blocks[m.block]? = some B) :
    ∃ n', Reaches a n n' ∧ Simulates p a order known m n' ∧ n'.block = n.block ∧
      A.instrs[n'.pc]? = B.instrs[m.pc]? := by
  induction left : A.instrs.length - n.pc generalizing n with
  | zero =>
    obtain ⟨inside, rest⟩ := sim.ahead A B storedA storedB
    have atEnd : A.instrs.length ≤ n.pc := by omega
    rw [List.drop_eq_nil_of_le atEnd] at rest
    refine ⟨n, .refl n, sim, rfl, ?_⟩
    rw [List.getElem?_eq_none_iff.mpr atEnd, ← List.head?_drop, ← rest]
    rfl
  | succ left ih =>
    have bound : n.pc < A.instrs.length := by omega
    have listed := List.getElem?_eq_getElem bound
    obtain ⟨y, found, -⟩ := set.solution.step _ sim.reached A storedA _ _ listed
    by_cases moves : y.isSpillFill = true
    · obtain ⟨n₁, stepped, sim₁, next⟩ := sim.after_moves set ⟨A, _, storedA, listed, found⟩ moves
      have block : n₁.block = n.block := by rw [sim₁.block, sim.block]
      obtain ⟨n', reached, sim', block', aligned⟩ := ih sim₁ (by rw [block, storedA]) (by omega)
      exact ⟨n', .step stepped reached, sim', block'.trans block, aligned⟩
    · refine ⟨n, .refl n, sim, rfl, ?_⟩
      have rest := (sim.ahead A B storedA storedB).2
      rw [Graph.withoutMoves_drop listed, Graph.isMoves_eq found, if_neg moves] at rest
      rw [← List.head?_drop (l := B.instrs), ← rest, listed]
      rfl

end Simulates

theorem evaluate_same (expands : Graph.Expands p a) (code : Graph.SameCode x y) (memory : Array Word)
    (input : Operands) : evaluate a y memory input = evaluate p x memory input := by
  have types : a.typeOf = p.typeOf := by
    funext v
    simp only [Graph.typeOf, Graph.value, expands.values]
  simp only [evaluate, testOf, code.opcode, code.ty, code.inputs, code.results, types]

theorem evaluate_constant {g : Graph} {memory : Array Word} {input : Operands} {c : Word}
    {r : List Word × Array Word} (h : evaluate g x memory input = .ok r)
    (constant : x.opcode.constant? = some c) : r.1 = [c] := by
  unfold evaluate at h
  rcases Opcode.constant_cases constant with opcode | ⟨opcode, rfl⟩
  · simp only [opcode, pure_ok] at h
    rw [← h]
  · simp only [opcode, pure_ok] at h
    rw [← h]

structure Facing (p a : Graph) (m n : Machine) (A B : Block) (i : InstrId) (x y : Instr) :
    Prop where
  storedP : p.blocks[m.block]? = some B
  storedA : a.blocks[n.block]? = some A
  listedP : B.instrs[m.pc]? = some i
  listedA : A.instrs[n.pc]? = some i
  foundP : p.instrs[i]? = some x
  foundA : a.instrs[i]? = some y
  code : Graph.SameCode x y
  plain : y.isSpillFill = false

namespace Facing

variable {A B : Block} {i : InstrId}

theorem at_pc (face : Facing p a m n A B i x y) : a.At n.block n.pc y :=
  ⟨A, i, face.storedA, face.listedA, face.foundA⟩

theorem group_none (set : Setting p a order known) (face : Facing p a m n A B i x y) :
    y.group = none := by
  have grouped := set.proper.grouped _ _ _ face.at_pc
  rw [face.plain] at grouped
  simpa using grouped.symm

section

variable (set : Setting p a order known) (sim : Simulates p a order known m n)
  (face : Facing p a m n A B i x y)

include set sim face

theorem passes_known :
    Verify.Passes a y (known n.block n.pc) (known n.block (n.pc + 1)) := by
  obtain ⟨y', found, passes⟩ := set.solution.step _ sim.reached A face.storedA _ i face.listedA
  obtain rfl : y = y' := by simpa [face.foundA] using found
  exact passes

theorem input_follows (notPhi : y.isPhi = false) (k : Nat) :
    Follows ((m.count x).input p x k) ((n.count y).input a y k) := by
  obtain ⟨inputs, -, held, -⟩ := (face.passes_known set sim).of_plain (face.group_none set) notPhi
  refine .of_ok ?_ fun e verdict => input_no_verdict sim.onValues verdict
  intro w found
  obtain ⟨v, operand, value⟩ := (input_values (m := m.count x) sim.onValues).mp found
  rw [← face.code.inputs] at operand
  have bound := listed_lt operand
  obtain ⟨l, place⟩ : ∃ l, y.inputLocations[k]? = some l :=
    ⟨_, List.getElem?_eq_getElem (by omega)⟩
  have member : (v, l) ∈ y.inputs.zip y.inputLocations :=
    List.mem_of_getElem? (List.getElem?_zip_eq_some.mpr ⟨operand, place⟩)
  have content := sim.agrees.content_eq sim.constants (held _ member) value
  have located : (n.count y).stage = .locations := sim.located
  simp only [input, located, place]
  exact read_ok.mpr content

end

theorem simulates_next (sim : Simulates p a order known m n) (face : Facing p a m n A B i x y)
    {values' : Bank} {memory' : Array Word}
    (only : OnlyPlaces { n.count y with memory := memory' } n')
    (within : (n.count y).counted ≤ maxSteps)
    (agrees : Agrees a (known n.block (n.pc + 1)) values' n') (constants : ConstantsHold a values')
    (fresh : ∀ u w, values'[u]? = some (some w) → Fresh a known u)
    (waiting : ∀ q z, n.block = a.entry → a.At a.entry q z → n.pc < q → z.opcode = .parameter →
      ∀ r ∈ z.results.zip z.resultLocations, values'[r.1]? = m.values[r.1]? ∧
        n'.content a r.2 = n.content a r.2) :
    Simulates p a order known { m.count x with memory := memory', values := values' } n' := by
  have block : n'.block = n.block := by rw [only.same]; rfl
  have pc : n'.pc = n.pc + 1 := by rw [only.same]; rfl
  have spills := face.code.isSpillFill_eq.symm.trans face.plain
  refine ⟨⟨?_, ?_, ?_, ?_, ?_, ?_⟩, sim.onValues, block.trans sim.block, ?_, ?_, ?_, ?_, ?_,
    constants, fresh, ?_⟩
  · rw [only.same]
    exact sim.located
  · rw [only.target_eq]
    exact sim.target
  · rw [block]
    exact sim.reached
  · rw [only.same]
    exact within
  · rw [block, pc]
    exact agrees
  · intro b qc z l hz writes
    exact only.accepts_kept (sim.room b qc z l hz writes)
  · rw [only.same]
  · rw [only.same]
    simp [count, face.plain, spills, sim.counted]
  · rw [only.same]
    exact sim.result
  · rw [only.same]
    exact Nat.succ_le_succ sim.steps
  · intro A' B' storedA storedB
    obtain rfl : A = A' := by simpa [block, face.storedA] using storedA
    obtain rfl := Option.mem_unique face.storedP storedB
    obtain ⟨_, rest⟩ := sim.ahead A B face.storedA face.storedP
    obtain ⟨bound, same⟩ := List.getElem?_eq_some_iff.mp face.listedP
    rw [Graph.withoutMoves_drop face.listedA, Graph.isMoves_eq face.foundA, face.plain,
      List.drop_eq_getElem_cons bound] at rest
    rw [pc]
    exact ⟨(listed_lt face.listedA), (List.cons.inj rest).2⟩
  · intro entry q z hz later parameter r hr
    rw [block] at entry
    obtain ⟨w, value, content⟩ := sim.waiting entry q z hz (by omega) parameter r hr
    obtain ⟨sameValue, sameContent⟩ := waiting q z entry hz (by omega) parameter r hr
    exact ⟨w, sameValue.trans value, sameContent.trans content⟩

theorem not_known (sim : Simulates p a order known m n) (face : Facing p a m n A B i x y)
    (notPhi : y.isPhi = false) (computed : y.opcode ≠ .parameter) {u : ValueId}
    (result : u ∈ y.results) (l : Location) :
    Verify.read a (known n.block n.pc) l ≠ .value u := by
  intro held
  obtain ⟨w, -, denotes⟩ := sim.agrees l (by rw [held]; rfl)
  rw [held] at denotes
  exact (sim.fresh u w denotes).plain _ _ y face.at_pc notPhi computed result l held

theorem after_plain_compute (set : Setting p a order known) (sim : Simulates p a order known m n)
    (face : Facing p a m n A B i x y) (within : (n.count y).counted ≤ maxSteps)
    (notPhi : y.isPhi = false) (computed : y.opcode ≠ .parameter)
    (h : (m.count x).compute p x = .ok m') :
    ∃ n', (n.count y).compute a y = .ok n' ∧ Simulates p a order known m' n' := by
  have spills := face.code.isSpillFill_eq.symm.trans face.plain
  have ungrouped := face.group_none set
  have code := face.code
  have sameResults := code.results
  obtain ⟨cc, convention⟩ := set.convention
  obtain ⟨r, evaluated, length, inside, rfl⟩ := compute_values (m := m.count x) sim.onValues spills
    (by rw [← sameResults, ← code.opcode, ← code.ty]
        exact set.proper.results _ _ _ face.at_pc face.plain)
    (code.opcode ▸ computed) (code.isPhi_eq ▸ notPhi) h
  rw [← sameResults] at length inside ⊢
  have assigned := Bank.assign_zip_get length inside
  have denoted := Bank.assign_zip length inside (set.proper.distinct i y face.foundA)
  generalize Bank.assign (m.count x).values (y.results.zip r.1) = values' at assigned denoted ⊢
  obtain ⟨-, locations, -, nextKnown⟩ := (face.passes_known set sim).of_plain ungrouped notPhi
  have written := Instr.written_plain ungrouped notPhi computed
  have evaluated' : evaluate a y (n.count y).memory ((n.count y).input a y) = .ok r := by
    rw [evaluate_same set.expands code]
    have memory : (n.count y).memory = (m.count x).memory := sim.memory
    rw [memory]
    exact (evaluate_follows _ fun k => face.input_follows set sim notPhi k).result r evaluated
  have constant (c : Word) (hc : y.opcode.constant? = some c) : r.1 = [c] :=
    evaluate_constant evaluated' hc
  have denote : List.Forall₂ (fun v w => (Verify.resultSymbol y v).Denotes values' w)
      y.results r.1 := by
    unfold Verify.resultSymbol
    cases hc : y.opcode.constant? with
    | none => exact denoted
    | some c =>
      have all : ∀ w ∈ r.1, w = c := by
        rw [constant c hc]
        simp
      exact List.forall₂_iff_get.mpr ⟨length, fun k _ hw => all _ (List.get_mem r.1 ⟨k, hw⟩)⟩
  have revalued : Agrees a (known n.block n.pc) values' (n.count y) := by
    refine sim.agrees.after_revalue fun l v held => ?_
    rcases assigned v with ⟨result, -⟩ | ⟨-, kept⟩
    · exact absurd held (face.not_known sim notPhi computed result l)
    · exact kept
  obtain ⟨n', done, only, agrees, kept⟩ := revalued.after_compute sim.located sim.target convention
    face.plain evaluated' locations denote fun l hl =>
      sim.room _ _ _ l face.at_pc (written ▸ hl)
  refine ⟨n', done, face.simulates_next sim only within (nextKnown ▸ agrees) ?_ ?_ ?_⟩
  · intro v w c found defined
    rcases assigned v with ⟨result, w', member, found'⟩ | ⟨-, same⟩
    · obtain rfl : w = w' := by simpa [found] using found'
      rw [constant c (set.proper.defines i y face.foundA v result c defined)] at member
      simpa using member
    · exact sim.constants v w c (same ▸ found) defined
  · intro u w found
    rcases assigned u with ⟨result, -⟩ | ⟨-, same⟩
    · refine ⟨fun b pc z hz _ _ uz l => ?_, fun b pc z hz phi uz => ?_⟩
      · obtain ⟨rfl, rfl, rfl⟩ := set.proper.def_unique face.at_pc hz result uz
        exact face.not_known sim notPhi computed result l
      · obtain ⟨rfl, rfl, rfl⟩ := set.proper.def_unique face.at_pc hz result uz
        simp [notPhi] at phi
    · exact sim.fresh u w (same ▸ found)
  · intro q z entry hz later parameter r' hr
    have away := Instr.overwrites_eq_false.mp
      (set.proper.intact n.pc q y z (entry ▸ face.at_pc) hz later parameter r'.2
        (List.of_mem_zip hr).2)
    constructor
    · rcases assigned r'.1 with ⟨result, -⟩ | ⟨-, same⟩
      · obtain ⟨-, rfl, -⟩ := set.proper.def_unique face.at_pc hz result (List.of_mem_zip hr).1
        omega
      · exact same
    · exact kept r'.2 (written ▸ away.1) away.2

theorem after_pass (sim : Simulates p a order known m n) (face : Facing p a m n A B i x y)
    (within : (n.count y).counted ≤ maxSteps)
    (agrees : Agrees a (known n.block (n.pc + 1)) m.values (n.count y)) :
    Simulates p a order known (m.count x) (n.count y) := by
  have only : OnlyPlaces { n.count y with memory := m.memory } (n.count y) := by
    rw [← sim.memory]
    exact .refl _
  exact face.simulates_next sim only within agrees sim.constants sim.fresh
    fun _ _ _ _ _ _ _ _ => ⟨rfl, rfl⟩

variable (set : Setting p a order known) (sim : Simulates p a order known m n)
  (face : Facing p a m n A B i x y)

include set sim face

theorem after_phi (within : (n.count y).counted ≤ maxSteps)
    (phi : y.isPhi = true) : Simulates p a order known (m.count x) (n.count y) := by
  have same := (face.passes_known set sim).eq_of_phi (face.group_none set) phi
  exact face.after_pass sim within (same ▸ sim.agrees)

theorem after_parameter (within : (n.count y).counted ≤ maxSteps)
    (parameter : y.opcode = .parameter) : Simulates p a order known (m.count x) (n.count y) := by
  have entry := set.proper.early _ _ _ face.at_pc parameter
  have waiting := sim.waiting entry n.pc y (entry ▸ face.at_pc) (Nat.le_refl _) parameter
  obtain ⟨-, -, -, nextKnown⟩ := (face.passes_known set sim).of_plain (face.group_none set)
    (by simp [Instr.isPhi, parameter])
  have noCall : y.isCall = false := by simp [Instr.isCall, parameter, Opcode.isCall]
  refine face.after_pass sim within ?_
  rw [nextKnown, noCall]
  refine sim.agrees.after_learns fun r hr => ?_
  obtain ⟨w, value, content⟩ := waiting r hr
  refine ⟨w, content, ?_⟩
  rw [Verify.resultSymbol, parameter]
  exact value

theorem after_compute (within : (n.count y).counted ≤ maxSteps)
    (h : (m.count x).compute p x = .ok m') :
    ∃ n', (n.count y).compute a y = .ok n' ∧ Simulates p a order known m' n' := by
  have opcode := face.code.opcode
  by_cases phi : y.opcode = .phi
  · obtain rfl : m.count x = m' := by simpa [Machine.compute, ← opcode, phi] using h
    exact ⟨n.count y, by simp [Machine.compute, phi],
      face.after_phi set sim within (by simp [Instr.isPhi, phi])⟩
  by_cases parameter : y.opcode = .parameter
  · obtain rfl : m.count x = m' := by simpa [Machine.compute, ← opcode, parameter] using h
    exact ⟨n.count y, by simp [Machine.compute, parameter],
      face.after_parameter set sim within parameter⟩
  · exact face.after_plain_compute set sim within (by simp [Instr.isPhi, phi]) parameter h

theorem computes_verdict {e : RunError} (verdict : e.isVerdict = true)
    (h : (m.count x).compute p x = .error (.error e)) :
    (n.count y).compute a y = .error (.error e) := by
  have spills := face.code.isSpillFill_eq.symm.trans face.plain
  have evaluated := compute_verdict (m := m.count x) sim.onValues spills h
  have notPhi : y.isPhi = false := by
    by_contra phi
    have opcode : x.opcode = .phi := by
      rw [← face.code.opcode]
      simpa [Instr.isPhi] using phi
    simp [evaluate, opcode, pure, Except.pure] at evaluated
  have evaluated' : evaluate a y (n.count y).memory ((n.count y).input a y) = .error (.error e) := by
    rw [evaluate_same set.expands face.code]
    have memory : (n.count y).memory = (m.count x).memory := sim.memory
    rw [memory]
    exact (evaluate_follows _ fun k => face.input_follows set sim notPhi k).verdict e verdict
      evaluated
  rw [compute_eq face.plain, evaluated', error_bind]

end Facing

end RegisterAllocation
