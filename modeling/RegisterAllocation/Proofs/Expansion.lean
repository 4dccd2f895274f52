import RegisterAllocation.Proofs.Agreement

/-!
Allocated programs as expansions: the program itself with groups of moves put between its
instructions and blocks of moves put on its edges. Here is what such an expansion has to be like for
its runs to follow those of the program, and what verification says of the places of phis when
control enters a block.
-/

namespace RegisterAllocation

namespace Graph

variable {g a p : Graph} {b s : BlockId}

def At (g : Graph) (b : BlockId) (pc : Nat) (x : Instr) : Prop :=
  ∃ B i, g.blocks[b]? = some B ∧ B.instrs[pc]? = some i ∧ g.instrs[i]? = some x

theorem At.instr_unique {pc : Nat} {x y : Instr} (h : g.At b pc x) (h' : g.At b pc y) : x = y := by
  obtain ⟨B, i, stored, listed, found⟩ := h
  obtain ⟨B', i', stored', listed', found'⟩ := h'
  obtain rfl : B = B' := by simpa [stored] using stored'
  obtain rfl : i = i' := by simpa [listed] using listed'
  simpa [found] using found'

theorem forall_at_iff {B : Block} {P : Nat → Instr → Prop} (stored : g.blocks[b]? = some B) :
    (∀ pc x, g.At b pc x → P pc x) ↔
      ∀ pc < B.instrs.length, ∀ x ∈ B.instrs[pc]?.bind (g.instrs[·]?), P pc x := by
  constructor
  · intro all pc _ x here
    obtain ⟨i, listed, found⟩ := Option.bind_eq_some_iff.mp here
    exact all pc x ⟨B, i, stored, listed, found⟩
  · rintro all pc x ⟨B', i, stored', listed, found⟩
    obtain rfl := Option.mem_unique stored stored'
    exact all pc (listed_lt listed) x
      (Option.bind_eq_some_iff.mpr ⟨i, listed, found⟩)

def isMoves (g : Graph) (i : InstrId) : Bool := g.instrs[i]?.any Instr.isSpillFill

theorem isMoves_eq {i : InstrId} {x : Instr} (found : g.instrs[i]? = some x) :
    g.isMoves i = x.isSpillFill := by
  simp [isMoves, found]

def withoutMoves (g : Graph) (instrs : List InstrId) : List InstrId :=
  instrs.filter fun i => !g.isMoves i

theorem withoutMoves_drop {instrs : List InstrId} {pc : Nat} {i : InstrId}
    (listed : instrs[pc]? = some i) :
    g.withoutMoves (instrs.drop pc) = if g.isMoves i then g.withoutMoves (instrs.drop (pc + 1))
      else i :: g.withoutMoves (instrs.drop (pc + 1)) := by
  obtain ⟨bound, rfl⟩ := List.getElem?_eq_some_iff.mp listed
  rw [List.drop_eq_getElem_cons bound, withoutMoves, List.filter_cons]
  cases g.isMoves instrs[pc] <;> rfl

structure SameCode (x y : Instr) : Prop where
  opcode : y.opcode = x.opcode
  ty : y.ty = x.ty
  inputs : y.inputs = x.inputs
  results : y.results = x.results

theorem SameCode.isPhi_eq {x y : Instr} (code : SameCode x y) : y.isPhi = x.isPhi := by
  rw [Instr.isPhi, Instr.isPhi, code.opcode]

theorem SameCode.isSpillFill_eq {x y : Instr} (code : SameCode x y) :
    y.isSpillFill = x.isSpillFill := by
  rw [Instr.isSpillFill, Instr.isSpillFill, code.opcode]

/-- The way from `b` to predecessor number `k` of `s`, by its first block: `s` itself, or a block
that holds nothing but moves. -/
inductive Leads (a : Graph) (b s : BlockId) (k : Nat) : BlockId → Prop where
  | direct {S : Block} : a.blocks[s]? = some S → S.preds[k]? = some b → Leads a b s k s
  | through {n : BlockId} {N S : Block} :
      a.blocks[n]? = some N → N.succs = [s] → N.preds[0]? = some b →
      (∀ i ∈ N.instrs, a.isMoves i = true) → n ≠ a.entry →
      a.blocks[s]? = some S → S.preds[k]? = some n → Leads a b s k n

/-- The second program is the first one with groups of moves and blocks of moves put in. -/
structure Expands (p a : Graph) : Prop where
  entry : a.entry = p.entry
  arch : a.arch = p.arch
  values : a.values = p.values
  instr : ∀ (i : InstrId) (x : Instr), p.instrs[i]? = some x →
    ∃ y, a.instrs[i]? = some y ∧ SameCode x y
  block : ∀ (b : BlockId) (B : Block), p.blocks[b]? = some B →
    ∃ A, a.blocks[b]? = some A ∧ a.withoutMoves A.instrs = B.instrs ∧
      A.succs.length = B.succs.length ∧
      ∀ (j : Nat) (s : BlockId) (S : Block), B.succs[j]? = some s → p.blocks[s]? = some S →
        b ∈ S.preds → ∃ t, A.succs[j]? = some t ∧ Leads a b s (S.preds.idxOf b) t

end Graph

namespace Instr

/-- The locations that an instruction writes as allocated. Phis have been moved to their places
before, and so have parameters. -/
def written (x : Instr) : List Location :=
  match x.group with
  | some group => group.moves.map Move.dst
  | none => if x.isPhi || x.opcode == .parameter then [] else x.resultLocations

theorem written_moves {x : Instr} {group : MoveGroup} (grouped : x.group = some group) :
    x.written = group.moves.map Move.dst := by
  rw [written, grouped]

theorem written_plain {x : Instr} (ungrouped : x.group = none) (notPhi : x.isPhi = false)
    (computed : x.opcode ≠ .parameter) : x.written = x.resultLocations := by
  simp [written, ungrouped, notPhi, computed]

/-- Whether the content of a location may be lost when an instruction is executed. -/
def overwrites (target : Target) (x : Instr) (l : Location) : Bool :=
  x.written.contains l || (x.isCall && Verify.isCallerSaved target l)

theorem overwrites_eq_false {target : Target} {x : Instr} {l : Location} :
    x.overwrites target l = false ↔
      l ∉ x.written ∧ ¬(x.isCall = true ∧ Verify.isCallerSaved target l = true) := by
  simp [overwrites]

end Instr

structure Graph.Proper (a : Graph) : Prop where
  grouped : ∀ b pc y, a.At b pc y → y.isSpillFill = y.group.isSome
  last : ∀ b A pc y, a.blocks[b]? = some A → a.At b pc y → y.opcode.isTerminator = true →
    pc + 1 = A.instrs.length
  results : ∀ b pc y, a.At b pc y → y.isSpillFill = false →
    y.results.length = y.opcode.numResults y.ty
  arity : ∀ b A pc y, a.blocks[b]? = some A → a.At b pc y → y.isPhi = true →
    y.inputs.length = A.preds.length
  early : ∀ b pc y, a.At b pc y → y.opcode = .parameter → b = a.entry
  owner : ∀ (i j : InstrId) (x y : Instr), a.instrs[i]? = some x → a.instrs[j]? = some y →
    ∀ v ∈ x.results, v ∈ y.results → i = j
  distinct : ∀ (i : InstrId) (x : Instr), a.instrs[i]? = some x → x.results.Nodup
  defines : ∀ (i : InstrId) (x : Instr), a.instrs[i]? = some x → ∀ v ∈ x.results, ∀ c,
    a.constantOf? v = .ok (some c) → x.opcode.constant? = some c
  once : ∀ (b c : BlockId) (B C : Block) (pc qc : Nat) (i : InstrId), a.blocks[b]? = some B →
    a.blocks[c]? = some C → B.instrs[pc]? = some i → C.instrs[qc]? = some i → b = c ∧ pc = qc
  intact : ∀ pc qc x y, a.At a.entry pc x → a.At a.entry qc y → pc < qc →
    y.opcode = .parameter → ∀ l ∈ y.resultLocations, x.overwrites a.target l = false

theorem Graph.Proper.def_unique {a : Graph} (proper : a.Proper) {b c : BlockId} {pc qc : Nat}
    {x y : Instr} {v : ValueId} (hx : a.At b pc x) (hy : a.At c qc y) (vx : v ∈ x.results)
    (vy : v ∈ y.results) : b = c ∧ pc = qc ∧ x = y := by
  obtain ⟨B, i, storedB, listedB, foundX⟩ := hx
  obtain ⟨C, j, storedC, listedC, foundY⟩ := hy
  obtain rfl := proper.owner i j x y foundX foundY v vx vy
  obtain ⟨rfl, rfl⟩ := proper.once b c B C pc qc i storedB storedC listedB listedC
  exact ⟨rfl, rfl, by simpa [foundX] using foundY⟩

namespace Verify

variable {g : Graph} {b s : BlockId} {out known : Knowledge} {k : Nat} {l : Location} {v : ValueId}

def HeadPhi (g : Graph) (s : BlockId) (x : Instr) : Prop :=
  ∃ S phis i, g.blocks[s]? = some S ∧ g.phisAmong S.instrs = .ok phis ∧ i ∈ phis ∧
    g.instrs[i]? = some x

def PhiPlace (g : Graph) (s : BlockId) (l : Location) : Prop :=
  MoveGroup.isReadOnly g.target l = false ∧
    ∃ x, HeadPhi g s x ∧ x.resultLocations.head? = some l

theorem phisAmong_mem {instrs phis : List InstrId} {i : InstrId}
    (h : g.phisAmong instrs = .ok phis) (member : i ∈ phis) :
    ∃ (pc : Nat) (x : Instr), instrs[pc]? = some i ∧ g.instrs[i]? = some x ∧ x.isPhi = true := by
  induction instrs generalizing phis with
  | nil =>
    obtain rfl : [] = phis := by simpa [Graph.phisAmong] using h
    simp at member
  | cons j rest ih =>
    rw [Graph.phisAmong, bind_ok] at h
    obtain ⟨x, found, h⟩ := h
    split at h
    · rename_i phi
      rw [bind_ok] at h
      obtain ⟨more, others, h⟩ := h
      obtain rfl : j :: more = phis := by simpa using h
      rcases List.mem_cons.mp member with rfl | member
      · exact ⟨0, x, rfl, Graph.instr_ok.mp found, phi⟩
      · obtain ⟨pc, y, listed, hy⟩ := ih others member
        exact ⟨pc + 1, y, by simpa using listed, hy⟩
    · obtain rfl : [] = phis := by simpa using h
      simp at member

theorem HeadPhi.exists_at {x : Instr} (h : HeadPhi g s x) : ∃ pc, g.At s pc x ∧ x.isPhi = true := by
  obtain ⟨S, phis, i, stored, hphis, member, found⟩ := h
  obtain ⟨pc, y, listed, found', phi⟩ := phisAmong_mem hphis member
  obtain rfl : x = y := by simpa [found] using found'
  exact ⟨pc, ⟨S, i, stored, listed, found⟩, phi⟩

def update (g : Graph) (known : Knowledge) : Option (Location × Symbol) → Knowledge
  | some (l, s) => write g known l s
  | none => known

theorem edge_eq (g : Graph) (out : Knowledge) (s : BlockId) (k : Nat) :
    edge g out s k = (do
      let updates ← (← g.phis s).mapM (phi? g out k)
      return updates.foldl (update g) out) := rfl

theorem get_updates (updates : List (Option (Location × Symbol))) (out : Knowledge) (l : Location) :
    (MoveGroup.isReadOnly g.target l = false → (∃ s, some (l, s) ∈ updates) →
      some (l, (updates.foldl (update g) out).get l) ∈ updates) ∧
    (MoveGroup.isReadOnly g.target l = true ∨ (∀ s, some (l, s) ∉ updates) →
      (updates.foldl (update g) out).get l = out.get l) := by
  induction updates generalizing out with
  | nil => simp
  | cons u rest ih =>
    simp only [List.foldl_cons]
    cases u with
    | none =>
      simp only [update]
      obtain ⟨decided, kept⟩ := ih out
      refine ⟨?_, ?_⟩
      · rintro writable ⟨s, hs⟩
        exact List.mem_cons_of_mem _ (decided writable ⟨s, by simpa using hs⟩)
      · intro free
        refine kept (free.imp_right fun none s hs => none s (List.mem_cons_of_mem _ hs))
    | some p =>
      obtain ⟨j, t⟩ := p
      simp only [update]
      obtain ⟨decided, kept⟩ := ih (write g out j t)
      refine ⟨?_, ?_⟩
      · rintro writable ⟨s, hs⟩
        by_cases later : ∃ s, some (l, s) ∈ rest
        · exact List.mem_cons_of_mem _ (decided writable later)
        · -- the first update is the last one at `l`
          have here : (l, s) = (j, t) := by
            rcases List.mem_cons.mp hs with same | hs
            · simpa using same
            · exact absurd ⟨s, hs⟩ later
          obtain ⟨rfl, rfl⟩ := Prod.mk.inj here
          rw [kept (.inr fun s' hs' => later ⟨s', hs'⟩), get_write, if_pos ⟨rfl, writable⟩]
          exact List.mem_cons_self
      · intro free
        have first : (write g out j t).get l = out.get l := by
          rw [get_write, if_neg]
          rintro ⟨rfl, writable⟩
          rcases free with fixed | none
          · simp [fixed] at writable
          · exact none t List.mem_cons_self
        rw [kept (free.imp_right fun none s hs => none s (List.mem_cons_of_mem _ hs)), first]

theorem phi_cases {i : InstrId} {x : Instr} {row : Option (Location × Symbol)}
    (found : g.instrs[i]? = some x) (operand : x.inputs[k]? = some v)
    (h : phi? g out k i = .ok row) :
    (x.resultLocations.head? = none ∧ row = none) ∨
    ∃ l, x.resultLocations.head? = some l ∧
      ((holds g (read g out l) v = .ok true ∧
          ∃ u, x.results.head? = some u ∧ row = some (l, .value u)) ∨
        row = some (l, .conflicted)) := by
  rw [phi?, Graph.instr_ok.mpr found, ok_bind] at h
  cases place : x.resultLocations.head? with
  | none =>
    simp only [place, pure_ok] at h
    exact .inl ⟨rfl, h.symm⟩
  | some l =>
    simp only [place, operand, bind_ok] at h
    obtain ⟨held, hheld, h⟩ := h
    refine .inr ⟨l, rfl, ?_⟩
    cases held with
    | true =>
      simp only [↓reduceIte, bind_ok, pure_ok] at h
      obtain ⟨u, hu, h⟩ := h
      exact .inl ⟨hheld, u, need_eq_ok.mp hu, h.symm⟩
    | false =>
      simp only [Bool.false_eq_true, ↓reduceIte, pure_ok] at h
      exact .inr h.symm

/-- What is known on an edge: a location of a phi is known to hold the phi only if it held its
operand, and any other location holds what it held before. -/
theorem edge_get {S : Block} (stored : g.blocks[s]? = some S) (h : edge g out s k = .ok known)
    (arity : ∀ x, HeadPhi g s x → ∃ v, x.inputs[k]? = some v) (l : Location) :
    (PhiPlace g s l → (known.get l).isDefinite = true → ∃ u x v, known.get l = .value u ∧
      HeadPhi g s x ∧ x.results.head? = some u ∧ x.inputs[k]? = some v ∧
      holds g (read g out l) v = .ok true) ∧
    (¬PhiPlace g s l → known.get l = out.get l) := by
  rw [edge_eq, Graph.phis, Graph.block_ok.mpr stored, ok_bind, bind_ok] at h
  obtain ⟨phis, hphis, h⟩ := h
  rw [bind_ok] at h
  obtain ⟨updates, hupdates, h⟩ := h
  obtain rfl := pure_ok.mp h
  obtain ⟨decided, kept⟩ := get_updates (g := g) updates out l
  have head : ∀ i ∈ phis, ∃ x, g.instrs[i]? = some x ∧ HeadPhi g s x := by
    intro i hi
    obtain ⟨pc, x, listed, found, -⟩ := phisAmong_mem hphis hi
    exact ⟨x, found, S, phis, i, stored, hphis, hi, found⟩
  constructor
  · rintro ⟨writable, x, hx, place⟩ definite
    obtain ⟨S', phis', i, stored', hphis', member, found⟩ := id hx
    obtain rfl : S = S' := by simpa [stored] using stored'
    obtain rfl : phis = phis' := by simpa [hphis] using hphis'
    -- the phi makes an update at `l`, so the last update there says what is known
    obtain ⟨v, operand⟩ := arity x hx
    obtain ⟨row, hrow, made⟩ := mapM_mem hupdates member
    have some_update : ∃ t, some (l, t) ∈ updates := by
      rcases phi_cases found operand made with ⟨none, _⟩ | ⟨l', place', made⟩
      · simp [place] at none
      obtain rfl : l = l' := by simpa [place] using place'
      rcases made with ⟨_, r, _, rfl⟩ | rfl
      · exact ⟨_, hrow⟩
      · exact ⟨_, hrow⟩
    have last := decided writable some_update
    generalize (updates.foldl (update g) out).get l = symbol at last definite ⊢
    obtain ⟨j, hj, makes⟩ := mapM_mem_result hupdates last
    obtain ⟨y, foundY, hy⟩ := head j hj
    obtain ⟨v', operand'⟩ := arity y hy
    rcases phi_cases foundY operand' makes with ⟨_, none⟩ | ⟨l', place', made⟩
    · simp at none
    rcases made with ⟨held, r, hr, same⟩ | same
    · simp only [Option.some.injEq, Prod.mk.injEq] at same
      obtain ⟨rfl, rfl⟩ := same
      exact ⟨r, y, v', rfl, hy, hr, operand', held⟩
    · simp only [Option.some.injEq, Prod.mk.injEq] at same
      simp [same.2, Symbol.isDefinite] at definite
  · intro away
    apply kept
    by_cases fixed : MoveGroup.isReadOnly g.target l = true
    · exact .inl fixed
    refine .inr fun t ht => away ⟨by simpa using fixed, ?_⟩
    obtain ⟨i, hi, made⟩ := mapM_mem_result hupdates ht
    obtain ⟨x, found, hx⟩ := head i hi
    obtain ⟨v, operand⟩ := arity x hx
    refine ⟨x, hx, ?_⟩
    rcases phi_cases found operand made with ⟨_, none⟩ | ⟨l', place, made⟩
    · simp at none
    rcases made with ⟨_, r, _, same⟩ | same
    · simp only [Option.some.injEq, Prod.mk.injEq] at same
      rw [place, same.1]
    · simp only [Option.some.injEq, Prod.mk.injEq] at same
      rw [place, same.1]

end Verify

end RegisterAllocation
