import RegisterAllocation.Proofs.Simulation

/-!
Control goes to another block. On values the phis of the block take their operands; on places they
have been moved to where the phis are kept, perhaps in a block of moves on the way.
-/

namespace RegisterAllocation

open Machine

variable {p a : Graph} {order : List BlockId} {known : BlockId → Nat → Knowledge}
  {values values' : Bank} {m m' n n' : Machine} {s : BlockId} {k : Nat}

/-- What happens to the table of values where control goes from predecessor `k` to a block: the phis
at its head take their operands, and no other values change than those of its phis. -/
structure TakesPhis (a : Graph) (s : BlockId) (k : Nat) (values values' : Bank) : Prop where
  taken : ∀ y u v, Verify.HeadPhi a s y → y.results.head? = some u → y.inputs[k]? = some v →
    ∃ w, values[v]? = some (some w) ∧ values'[u]? = some (some w)
  others : ∀ u, values'[u]? = values[u]? ∨ ∃ pc y, a.At s pc y ∧ y.isPhi = true ∧ u ∈ y.results

namespace Tracks

variable (set : Setting p a order known) (f : Tracks a order known values n)
  (constants : ConstantsHold a values) (fresh : ∀ u w, values[u]? = some (some w) → Fresh a known u)
  {N S : Block} (stored : a.blocks[n.block]? = some N) (atEnd : n.pc = N.instrs.length)
  (successor : s ∈ N.succs) (inner : s ≠ a.entry) (storedS : a.blocks[s]? = some S)
  (pred : S.preds[k]? = some n.block) (takes : TakesPhis a s k values values')

include set f constants fresh stored atEnd successor inner storedS pred takes

theorem agrees_behind :
    Agrees a (known s 0) values' n ∧ ∀ u w, values'[u]? = some (some w) → Fresh a known u := by
  have reached := set.solution.ordered.closed _ f.reached N stored s successor
  obtain ⟨e, hedge, below⟩ := set.solution.edge _ f.reached N stored s reached inner S storedS k pred
  have out := f.agrees
  rw [atEnd] at out
  have arity : ∀ x, Verify.HeadPhi a s x → ∃ v, x.inputs[k]? = some v := by
    intro x hx
    obtain ⟨pc, hat, phi⟩ := hx.exists_at
    have bound := listed_lt pred
    rw [← set.proper.arity s S pc x storedS hat phi] at bound
    exact ⟨_, List.getElem?_eq_getElem bound⟩
  have home (l : Location) := (Verify.edge_get storedS hedge arity l).1
  have away (l : Location) (notHome : ¬Verify.PhiPlace a s l) :
      Verify.read a e l = Verify.read a (known n.block N.instrs.length) l :=
    Verify.read_congr ((Verify.edge_get storedS hedge arity l).2 notHome)
  -- a phi that has a word already is known at the start of its block only where it is kept
  have kept {u : ValueId} {l : Location} {pc : Nat} {y : Instr} (hy : a.At s pc y)
      (phi : y.isPhi = true) (result : u ∈ y.results)
      (held : Verify.read a (known s 0) l = .value u) : Verify.PhiPlace a s l := by
    by_contra notHome
    have same := Agrees.read_below below (g := a) (l := l) (by rw [held]; rfl)
    rw [away l notHome, held] at same
    obtain ⟨w, -, denotes⟩ := out l (by rw [same]; rfl)
    rw [same] at denotes
    exact notHome ((fresh u w denotes).phi s pc y hy phi result l held)
  constructor
  · intro l definite
    have same := Agrees.read_below below definite
    by_cases isHome : Verify.PhiPlace a s l
    · have entry : ∀ k, Verify.read a k l = Knowledge.get k l :=
        fun k => Verify.read_eq_get isHome.1
      rw [entry, entry] at same
      rw [entry] at definite ⊢
      obtain ⟨u, y, v, symbol, head, result, operand, held⟩ := home l isHome (same ▸ definite)
      obtain ⟨w, value, value'⟩ := takes.taken y u v head result operand
      refine ⟨w, out.content_eq constants held value, ?_⟩
      rw [← same, symbol]
      exact value'
    · rw [away l isHome] at same
      obtain ⟨w, content, denotes⟩ := out l (same ▸ definite)
      refine ⟨w, content, ?_⟩
      rw [same] at denotes
      cases hs : Verify.read a (known s 0) l with
      | value u =>
        rw [hs] at denotes
        rcases takes.others u with unchanged | ⟨pc, y, hy, phi, result⟩
        · exact unchanged.trans denotes
        · exact absurd (kept hy phi result hs) isHome
      | constant c =>
        rw [hs] at denotes
        exact denotes
      | unknown | conflicted => simp [hs, Symbol.isDefinite] at definite
  · intro u w found
    rcases takes.others u with unchanged | ⟨pc, y, hy, phi, result⟩
    · exact fresh u w (unchanged ▸ found)
    refine ⟨?_, ?_⟩
    · intro b pc' z hz notPhi _ uz
      obtain ⟨-, -, rfl⟩ := set.proper.def_unique hy hz result uz
      simp [phi] at notPhi
    · intro b pc' z hz _ uz l held
      obtain ⟨rfl, -, -⟩ := set.proper.def_unique hy hz result uz
      exact kept hy phi result held

theorem after_enter :
    Tracks a order known values' { n with block := s, pc := 0 } := by
  have agrees := (f.agrees_behind set constants fresh stored atEnd successor inner storedS pred
    takes).1
  exact ⟨f.located, f.target, set.solution.ordered.closed _ f.reached N stored s successor, f.within,
    agrees, f.room⟩

end Tracks

theorem TakesPhis.of_moves {N : Block} (stored : a.blocks[s]? = some N)
    (all : ∀ i ∈ N.instrs, a.isMoves i = true) : TakesPhis a s k values values := by
  refine ⟨fun y u v head _ _ => ?_, fun u => .inl rfl⟩
  obtain ⟨pc, ⟨N', i, stored', listed, found⟩, phi⟩ := head.exists_at
  obtain rfl : N = N' := by simpa [stored] using stored'
  have moves := all i (List.mem_of_getElem? listed)
  rw [Graph.isMoves_eq found] at moves
  simp only [Instr.isSpillFill, Instr.isPhi, beq_iff_eq] at moves phi
  simp [moves] at phi

theorem TakesPhis.constants_kept (proper : a.Proper) (takes : TakesPhis a s k values values')
    (constants : ConstantsHold a values) : ConstantsHold a values' := by
  intro v w c found defined
  rcases takes.others v with same | ⟨pc, y, ⟨S, i, -, -, stored⟩, phi, result⟩
  · exact constants v w c (same ▸ found) defined
  · have constant := proper.defines i y stored v result c defined
    simp only [Instr.isPhi, beq_iff_eq] at phi
    rcases Opcode.constant_cases constant with opcode | ⟨opcode, -⟩ <;> simp [phi] at opcode

theorem enter_values (set : Setting p a order known) (stage : m.stage = .values)
    (h : m.enter p s = .ok m') :
    ∃ S values', p.blocks[s]? = some S ∧ m.block ∈ S.preds ∧
      m' = { m with block := s, pc := 0, values := values' } ∧
      TakesPhis a s (S.preds.idxOf m.block) m.values values' := by
  simp only [Machine.enter, stage, bind_ok, lift_ok, Graph.block_ok] at h
  obtain ⟨S, stored, h⟩ := h
  by_cases pred : m.block ∉ S.preds
  · simp only [if_pos pred, bind_ok] at h
    obtain ⟨_, refused, -⟩ := h
    exact absurd refused refuse_ne_ok
  simp only [if_neg pred, bind_ok] at h
  obtain ⟨updates, hupdates, h⟩ := h
  obtain ⟨inside, rfl⟩ := setValues_ok h
  obtain ⟨A, storedA, listing, -⟩ := set.expands.block s S stored
  refine ⟨S, m.values.assign updates, stored, not_not.mp pred, by rw [stage], ?_, ?_⟩
  · rintro y u v ⟨A', phis, i, storedA', heads, member, found⟩ result operand
    obtain rfl : A = A' := by simpa [storedA] using storedA'
    rw [← listing] at hupdates
    obtain ⟨x, w, foundX, among, taken⟩ :=
      phiValues_head set.expands hupdates heads member found result
    obtain ⟨y', found', code⟩ := set.expands.instr i x foundX
    obtain rfl : y = y' := by simpa [found] using found'
    obtain ⟨v', operand', value⟩ := (input_values stage).mp taken
    obtain rfl : v = v' := by
      rw [← code.inputs, operand] at operand'
      exact Option.some.inj operand'
    refine ⟨w, value, ?_⟩
    rcases Bank.assign_get inside u with ⟨w', among', found'⟩ | ⟨none, -⟩
    · obtain ⟨j, -, x', foundX', -, result', taken'⟩ := phiValues_mem hupdates among'
      obtain ⟨z, foundZ, codeZ⟩ := set.expands.instr j x' foundX'
      obtain rfl := set.proper.owner i j y z found foundZ u (List.mem_of_head? result)
        (by rw [codeZ.results]; exact List.mem_of_head? result')
      obtain rfl : x = x' := by simpa [foundX] using foundX'
      obtain rfl : w = w' := by simpa [taken] using taken'
      exact found'
    · exact absurd among (none w)
  · intro u
    rcases Bank.assign_get inside u with ⟨w, among, -⟩ | ⟨-, kept⟩
    · obtain ⟨i, member, x, foundX, phi, result, -⟩ := phiValues_mem hupdates among
      obtain ⟨y, found, code⟩ := set.expands.instr i x foundX
      rw [← listing] at member
      obtain ⟨pc, listed⟩ := List.mem_iff_getElem?.mp (List.mem_filter.mp member).1
      exact .inr ⟨pc, y, ⟨A, i, storedA, listed, found⟩, code.isPhi_eq ▸ phi,
        by rw [code.results]; exact List.mem_of_head? result⟩
    · exact .inl kept

namespace Simulates

theorem of_arrived (set : Setting p a order known) (sim : Simulates p a order known m n) {S : Block}
    (storedS : p.blocks[s]? = some S) (inner : s ≠ a.entry) (block : n'.block = s) (pc : n'.pc = 0)
    (f : Tracks a order known values' n') (constants : ConstantsHold a values')
    (fresh : ∀ u w, values'[u]? = some (some w) → Fresh a known u) (memory : n'.memory = n.memory)
    (counted : n'.counted = n.counted) (result : n'.result = n.result) (steps : n.steps ≤ n'.steps) :
    Simulates p a order known { m with block := s, pc := 0, values := values' } n' := by
  refine ⟨f, sim.onValues, block, memory.trans sim.memory, counted.trans sim.counted,
    result.trans sim.result, Nat.le_trans sim.steps steps, ?_, constants, fresh, ?_⟩
  · intro A B storedA storedB
    rw [block] at storedA
    obtain ⟨A', storedA', listing, -⟩ := set.expands.block s S storedS
    obtain rfl : A = A' := by simpa [storedA] using storedA'
    obtain rfl := Option.mem_unique storedS storedB
    rw [pc]
    exact ⟨Nat.zero_le _, listing⟩
  · intro entry
    exact absurd (block.symm.trans entry) inner

theorem after_enter (set : Setting p a order known)
    (sim : Simulates p a order known m n) {A B : Block}
    (storedA : a.blocks[n.block]? = some A) (storedB : p.blocks[m.block]? = some B)
    (atEnd : n.pc = A.instrs.length) {j : Nat} (succ : B.succs[j]? = some s)
    (h : m.enter p s = .ok m') :
    ∃ t, A.succs[j]? = some t ∧
      ∃ n', Reaches a { n with block := t, pc := 0 } n' ∧ Simulates p a order known m' n' := by
  obtain ⟨S, values', storedS, pred, rfl, takes⟩ := enter_values set sim.onValues h
  obtain ⟨A', storedA', -, -, routes⟩ := set.expands.block m.block B storedB
  obtain rfl : A = A' := by simpa [← sim.block, storedA] using storedA'
  obtain ⟨t, succT, leads⟩ := routes j s S succ storedS pred
  have successor : t ∈ A.succs := List.mem_of_getElem? succT
  have inner : s ≠ a.entry := by
    rintro rfl
    rw [set.expands.entry] at storedS
    simp [set.entry S storedS] at pred
  have constants := takes.constants_kept set.proper sim.constants
  refine ⟨t, succT, ?_⟩
  cases leads with
  | @direct S' storedS' back =>
    rw [← sim.block] at back takes
    have fresh := (sim.agrees_behind set sim.constants sim.fresh storedA atEnd successor inner
      storedS' back takes).2
    have f := sim.toTracks.after_enter set sim.constants sim.fresh storedA atEnd successor inner
      storedS' back takes
    exact ⟨_, .refl _, sim.of_arrived set storedS inner rfl rfl f constants fresh rfl rfl rfl
      (Nat.le_refl _)⟩
  | @through _ N S' storedN one back all apart storedS' back' =>
    rw [← sim.block] at back takes
    have first := sim.toTracks.after_enter set sim.constants sim.fresh storedA atEnd successor apart
      storedN back (TakesPhis.of_moves storedN all)
    obtain ⟨n₁, reached, f₁, block₁, pc₁, memory₁, counted₁, result₁, steps₁⟩ :=
      first.after_block set storedN all (Nat.zero_le _)
    have stored₁ : a.blocks[n₁.block]? = some N := by rw [block₁]; exact storedN
    have successor₁ : s ∈ N.succs := by simp [one]
    have back₁ : S'.preds[S.preds.idxOf n.block]? = some n₁.block := by
      rw [block₁, sim.block]
      exact back'
    have fresh := (f₁.agrees_behind set sim.constants sim.fresh stored₁ pc₁ successor₁ inner
      storedS' back₁ takes).2
    have f := f₁.after_enter set sim.constants sim.fresh stored₁ pc₁ successor₁ inner storedS'
      back₁ takes
    have fell := drift_some (drift_end f₁.located stored₁ (by simp [pc₁]) one)
    refine ⟨_, reached.trans (.step fell.1 (.refl _)), ?_⟩
    exact sim.of_arrived set storedS inner rfl rfl f constants fresh memory₁ counted₁ result₁ steps₁

end Simulates

end RegisterAllocation
