import RegisterAllocation.Graph.Build
import RegisterAllocation.Proofs.Order

/-!
What the operations that edit a program do to its tables.
-/

namespace RegisterAllocation

open Array List Graph

namespace Build

variable {α β : Type} {g h : Graph} {b pred succ : BlockId} {i : InstrId} {x : Instr}

theorem bind_run {m : Build α} {f : α → Build β} {r : β × Graph} :
    (m >>= f) g = .ok r ↔ ∃ a k, m g = .ok (a, k) ∧ f a k = .ok r := by
  change (m g >>= fun p => f p.1 p.2) = .ok r ↔ _
  rw [bind_ok]
  constructor
  · rintro ⟨⟨a, k⟩, first, rest⟩
    exact ⟨a, k, first, rest⟩
  · rintro ⟨a, k, first, rest⟩
    exact ⟨(a, k), first, rest⟩

@[simp] theorem pure_run {a : α} {r : α × Graph} : (pure a : Build α) g = .ok r ↔ r = (a, g) := by
  change Except.ok (a, g) = .ok r ↔ _
  rw [Except.ok.injEq, eq_comm]

@[simp] theorem lift_run {m : Except Fault α} {a : α} :
    (liftM m : Build α) g = .ok (a, h) ↔ m = .ok a ∧ h = g := by
  change (m >>= fun a => Except.ok (a, g)) = .ok (a, h) ↔ _
  rw [bind_ok]
  constructor
  · rintro ⟨a', found, same⟩
    obtain ⟨rfl, rfl⟩ := Prod.mk.inj (Except.ok.inj same)
    exact ⟨found, rfl⟩
  · rintro ⟨found, rfl⟩
    exact ⟨a, found, rfl⟩

@[simp] theorem ask_run {f : Graph → Except Fault α} {a : α} :
    ask f g = .ok (a, h) ↔ f g = .ok a ∧ h = g := by
  change (f g >>= fun a => Except.ok (a, g)) = .ok (a, h) ↔ _
  rw [bind_ok]
  constructor
  · rintro ⟨a', found, same⟩
    obtain ⟨rfl, rfl⟩ := Prod.mk.inj (Except.ok.inj same)
    exact ⟨found, rfl⟩
  · rintro ⟨found, rfl⟩
    exact ⟨a, found, rfl⟩

@[simp] theorem edit_run {f : Graph → Except Fault Graph} {u : Unit} :
    edit f g = .ok (u, h) ↔ f g = .ok h := by
  change (f g >>= fun k => Except.ok ((), k)) = .ok ((), h) ↔ _
  rw [bind_ok]
  simp

theorem forM_keeps {P : Graph → Prop} {f : α → Build Unit} {xs : List α} {u : Unit}
    (step : ∀ x ∈ xs, ∀ g h u, P g → f x g = .ok (u, h) → P h)
    (run : xs.forM f g = .ok (u, h)) (start : P g) : P h := by
  induction xs generalizing g with
  | nil =>
    obtain ⟨-, rfl⟩ := Prod.mk.inj (pure_run.mp run)
    exact start
  | cons x rest ih =>
    change (f x >>= fun _ => rest.forM f) g = .ok (u, h) at run
    obtain ⟨_, k, first, run⟩ := bind_run.mp run
    exact ih (fun y hy => step y (mem_cons_of_mem x hy)) run
      (step x mem_cons_self g k _ start first)

theorem foldlM_keeps {P : β → Graph → Prop} {f : β → α → Build β} {xs : List α} {s s' : β}
    (step : ∀ x ∈ xs, ∀ s s' g h, P s g → f s x g = .ok (s', h) → P s' h)
    (run : xs.foldlM f s g = .ok (s', h)) (start : P s g) : P s' h := by
  induction xs generalizing s g with
  | nil =>
    obtain ⟨rfl, rfl⟩ := Prod.mk.inj (pure_run.mp run)
    exact start
  | cons x rest ih =>
    rw [foldlM_cons, bind_run] at run
    obtain ⟨mid, k, first, run⟩ := run
    exact ih (fun y hy => step y (mem_cons_of_mem x hy)) run
      (step x mem_cons_self s mid g k start first)

theorem modifyBlock_ok {f : Block → Block} : g.modifyBlock b f = .ok h ↔
    ∃ B, g.blocks[b]? = some B ∧ h = { g with blocks := g.blocks.setIfInBounds b (f B) } := by
  rw [modifyBlock, bind_ok]
  simp only [block_ok, pure_ok, @eq_comm _ h]

theorem modifyInstr_ok {f : Instr → Instr} : g.modifyInstr i f = .ok h ↔
    ∃ x, g.instrs[i]? = some x ∧ h = { g with instrs := g.instrs.setIfInBounds i (f x) } := by
  rw [modifyInstr, bind_ok]
  simp only [instr_ok, pure_ok, @eq_comm _ h]

theorem insertIdx_eq {xs : List α} {pos : Nat} (a : α) (within : pos ≤ xs.length) :
    xs.insertIdx pos a = xs.take pos ++ a :: xs.drop pos := by
  induction xs generalizing pos with
  | nil =>
    obtain rfl : pos = 0 := by simpa using within
    rfl
  | cons x rest ih =>
    cases pos with
    | zero => rfl
    | succ pos => simp [ih (by simpa using within)]

def inserted (g : Graph) (b : BlockId) (B : Block) (pos : Nat) (x : Instr) : Graph :=
  { g with
    instrs := g.instrs.push { x with block := b }
    blocks := g.blocks.setIfInBounds b
      { B with instrs := B.instrs.take pos ++ g.instrs.size :: B.instrs.drop pos } }

theorem instr_inserted {B : Block} {pos : Nat} (j : InstrId) :
    (inserted g b B pos x).instrs[j]? =
      if j = g.instrs.size then some { x with block := b } else g.instrs[j]? :=
  getElem?_push

theorem block_inserted {B : Block} {pos : Nat} (stored : g.blocks[b]? = some B) (c : BlockId) :
    (inserted g b B pos x).blocks[c]? = if c = b then
      some { B with instrs := B.instrs.take pos ++ g.instrs.size :: B.instrs.drop pos }
      else g.blocks[c]? := by
  have inside : b < g.blocks.size := found_lt stored
  rw [inserted, getElem?_setIfInBounds]
  simp [inside, eq_comm]

theorem insertAt_run {pos : Nat} : insertAt b pos x g = .ok (i, h) ↔
    i = g.instrs.size ∧ ∃ B, g.blocks[b]? = some B ∧ pos ≤ B.instrs.length ∧
      h = inserted g b B pos x := by
  rw [insertAt, bind_run]
  simp only [addInstr, listAt, bind_run, pure_ok, Prod.mk.injEq, ask_run, lift_run, edit_run,
    pure_run, ensure_ok, modifyBlock_ok, block_ok]
  constructor
  · rintro ⟨_, _, ⟨rfl, rfl⟩, _, _, ⟨B, _, ⟨stored, rfl⟩, _, _, ⟨within, rfl⟩, C, stored', rfl⟩,
      rfl, rfl⟩
    obtain rfl : B = C := by simpa [stored] using stored'
    exact ⟨rfl, B, stored, within, by rw [inserted, insertIdx_eq _ within]⟩
  · rintro ⟨rfl, B, stored, within, rfl⟩
    rw [inserted, ← insertIdx_eq _ within]
    exact ⟨_, _, ⟨rfl, rfl⟩, (), _, ⟨B, _, ⟨stored, rfl⟩, (), _, ⟨within, rfl⟩, B, stored, rfl⟩,
      rfl, rfl⟩

theorem modifyGroup_run {f : MoveGroup → Except Fault MoveGroup} {u : Unit} :
    modifyGroup i f g = .ok (u, h) ↔ ∃ x old new, g.instrs[i]? = some x ∧ x.group = some old ∧
      f old = .ok new ∧
      h = { g with instrs := g.instrs.setIfInBounds i { x with group := some new } } := by
  rw [modifyGroup]
  simp only [bind_run, ask_run, lift_run, edit_run, modifyInstr_ok, need_eq_ok, instr_ok]
  constructor
  · rintro ⟨x, _, ⟨found, rfl⟩, old, _, ⟨has, rfl⟩, new, _, ⟨made, rfl⟩, y, found', rfl⟩
    obtain rfl : x = y := by simpa [found] using found'
    exact ⟨x, old, new, found, has, made, rfl⟩
  · rintro ⟨x, old, new, found, has, made, rfl⟩
    exact ⟨x, _, ⟨found, rfl⟩, old, _, ⟨has, rfl⟩, new, _, ⟨made, rfl⟩, x, found, rfl⟩

/-- What a block looks like once the new block `b` has been put on the edge from `pred` to
`succ`. -/
def rerouted (pred succ b c : BlockId) (C : Block) : Block :=
  { C with
    preds := if c = succ then replaceFirst pred b C.preds else C.preds
    succs := if c = pred then replaceFirst succ b C.succs else C.succs }

theorem length_replaceFirst (old new : BlockId) (bs : List BlockId) :
    (replaceFirst old new bs).length = bs.length := by
  induction bs with
  | nil => rfl
  | cons b rest ih =>
    rw [replaceFirst]
    split <;> simp [ih]

theorem length_preds_rerouted (pred succ b c : BlockId) (C : Block) :
    (rerouted pred succ b c C).preds.length = C.preds.length := by
  rw [rerouted]
  dsimp only
  split <;> simp [length_replaceFirst]

theorem length_succs_rerouted (pred succ b c : BlockId) (C : Block) :
    (rerouted pred succ b c C).succs.length = C.succs.length := by
  rw [rerouted]
  dsimp only
  split <;> simp [length_replaceFirst]

theorem splitEdge_run (run : splitEdge pred succ g = .ok (b, h)) :
    b = g.blocks.size ∧ h = { g with blocks := h.blocks } ∧ h.blocks.size = g.blocks.size + 1 ∧
      h.blocks[b]? = some ⟨[], [pred], [succ]⟩ ∧
      (∀ c C, g.blocks[c]? = some C → h.blocks[c]? = some (rerouted pred succ b c C)) ∧
      ∃ P S, g.blocks[pred]? = some P ∧ g.blocks[succ]? = some S := by
  rw [splitEdge] at run
  simp only [bind_run, addBlock, ask_run, lift_run, edit_run, pure_run, pure_ok, Prod.mk.injEq,
    modifyBlock_ok, ensure_ok, block_ok] at run
  obtain ⟨_, _, ⟨rfl, rfl⟩, P, _, ⟨storedP, rfl⟩, _, _, ⟨listed, rfl⟩, S, _, ⟨storedS, rfl⟩, _, _,
    ⟨listed', rfl⟩, _, _, ⟨P', storedP', rfl⟩, _, _, ⟨S', storedS', rfl⟩, _, _,
    ⟨N, storedN, rfl⟩, rfl, rfl⟩ := run
  dsimp only at storedP storedS storedP' storedS' storedN ⊢
  -- the new block has no edges yet, so neither end is the new block
  have old : ∀ (c : BlockId) (C : Block), (g.blocks.push Block.empty)[c]? = some C → C ≠ Block.empty →
      g.blocks[c]? = some C := by
    intro c C stored other
    rw [getElem?_push] at stored
    split at stored
    · exact absurd (Option.some.inj stored).symm other
    · exact stored
  replace storedP := old pred P storedP (by rintro rfl; simp [Block.empty] at listed)
  replace storedS := old succ S storedS (by rintro rfl; simp [Block.empty] at listed')
  have boundP : pred < g.blocks.size := found_lt storedP
  have boundS : succ < g.blocks.size := found_lt storedS
  have pushed : ∀ c : BlockId, c < g.blocks.size → (g.blocks.push Block.empty)[c]? =
    g.blocks[c]? := by
    intro c bound
    rw [getElem?_push_lt bound, Array.getElem?_eq_getElem bound]
  obtain rfl : P = P' := by simpa [pushed pred boundP, storedP] using storedP'
  refine ⟨rfl, rfl, by simp, ?_, ?_, P, S, storedP, storedS⟩
  · rw [getElem?_setIfInBounds_ne (Nat.ne_of_lt boundS),
      getElem?_setIfInBounds_ne (Nat.ne_of_lt boundP), getElem?_push_size] at storedN
    obtain rfl := Option.some.inj storedN
    simp [Block.empty]
  · intro c C stored
    have bound : c < g.blocks.size := found_lt stored
    rw [getElem?_setIfInBounds_ne (Nat.ne_of_gt bound)]
    by_cases atSucc : succ = c
    · subst atSucc
      rw [getElem?_setIfInBounds_self_of_lt (by simp; lia)]
      obtain rfl : S = C := by simpa [storedS] using stored
      by_cases atPred : pred = succ
      · subst atPred
        rw [getElem?_setIfInBounds_self_of_lt (by simp; lia)] at storedS'
        obtain rfl := Option.some.inj storedS'
        obtain rfl : P = S := by simpa [storedP] using storedS
        simp [rerouted]
      · rw [getElem?_setIfInBounds_ne atPred, pushed succ boundS, storedS] at storedS'
        obtain rfl := Option.some.inj storedS'
        simp [rerouted, Ne.symm atPred]
    · rw [getElem?_setIfInBounds_ne atSucc]
      by_cases atPred : pred = c
      · subst atPred
        rw [getElem?_setIfInBounds_self_of_lt (by simp; lia)]
        obtain rfl : P = C := by simpa [storedP] using stored
        simp [rerouted, Ne.symm atSucc]
      · rw [getElem?_setIfInBounds_ne atPred, pushed c bound, stored]
        simp [rerouted, Ne.symm atSucc, Ne.symm atPred]

theorem splitEdge_listed (run : splitEdge pred succ g = .ok (b, h)) {c : BlockId} {D : Block}
    (stored : h.blocks[c]? = some D) :
    D.instrs = [] ∨ ∃ C, g.blocks[c]? = some C ∧ D.instrs = C.instrs := by
  obtain ⟨rfl, -, size, new, others, -⟩ := splitEdge_run run
  by_cases bound : c < g.blocks.size
  · have here := others c g.blocks[c] (by simp)
    obtain rfl := Option.mem_unique stored here
    exact .inr ⟨g.blocks[c], by simp, rfl⟩
  · have last : c = g.blocks.size := by
      have := found_lt stored
      lia
    subst last
    obtain rfl := Option.mem_unique stored new
    exact .inl rfl

end Build

end RegisterAllocation
