import RegisterAllocation.Proofs.Knowledge

/-!
Programs without allocation defects. What the verification has settled on is a solution: something
is known at every point of every reachable block, an instruction takes what is known before it to
what is known behind it without a defect, and what is known at the start of a block holds on every
edge into it.
-/

namespace RegisterAllocation

open Array List Graph Knowledge

namespace Verify

variable {g : Graph} {k k' : Knowledge} {i : InstrId} {x : Instr} {t t' : Trace}

inductive Carries (g : Graph) : Knowledge → List Move → Knowledge → Prop where
  | done (k : Knowledge) : Carries g k [] k
  | move {k k' : Knowledge} {m : Move} {rest : List Move} :
      (read g k m.src).isDefinite → Carries g (write g k m.dst (read g k m.src)) rest k' →
      Carries g k (m :: rest) k'

def afterResults (g : Graph) (x : Instr) (k : Knowledge) : Knowledge :=
  (x.results.zip x.resultLocations).foldl (fun k r => write g k r.2 (resultSymbol x r.1)) k

inductive Passes (g : Graph) (x : Instr) (k : Knowledge) : Knowledge → Prop where
  | moves {k' : Knowledge} {group : MoveGroup} :
      x.group = some group → group.sequenced = true → Carries g k group.moves k' → Passes g x k k'
  | phi : x.group = none → x.isPhi = true → Passes g x k k
  | other :
      x.group = none → x.isPhi = false →
      x.inputLocations.length = x.inputs.length → x.resultLocations.length = x.results.length →
      (∀ operand ∈ x.inputs.zip x.inputLocations,
        holds g (read g k operand.2) operand.1 = .ok true) →
      Passes g x k
        (afterResults g x (if x.isCall then k.destroy (isCallerSaved g.target) else k))

theorem Passes.eq_of_phi {k' : Knowledge} (h : Passes g x k k') (ungrouped : x.group = none)
    (phi : x.isPhi = true) : k' = k := by
  cases h with
  | moves grouped => simp [ungrouped] at grouped
  | phi => rfl
  | other _ notPhi => simp [phi] at notPhi

theorem Passes.of_plain {k' : Knowledge} (h : Passes g x k k') (ungrouped : x.group = none)
    (notPhi : x.isPhi = false) :
    x.inputLocations.length = x.inputs.length ∧ x.resultLocations.length = x.results.length ∧
      (∀ operand ∈ x.inputs.zip x.inputLocations,
        holds g (read g k operand.2) operand.1 = .ok true) ∧
      k' = afterResults g x (if x.isCall then k.destroy (isCallerSaved g.target) else k) := by
  cases h with
  | moves grouped => simp [ungrouped] at grouped
  | phi _ phi => simp [phi] at notPhi
  | other _ _ inputs results held => exact ⟨inputs, results, held, rfl⟩

theorem moveSymbol_known (g : Graph) (i : InstrId) (t : Trace) (m : Move) (s : Symbol) :
    (moveSymbol g i t m s).known = write g t.known m.dst s := by
  unfold moveSymbol
  split <;> rfl

theorem moveSymbol_clean {m : Move} {s : Symbol} (h : (moveSymbol g i t m s).defects = []) :
    t.defects = [] ∧ s.isDefinite = true := by
  unfold moveSymbol at h
  split at h
  · rename_i definite
    exact ⟨h, definite⟩
  · simp [Trace.report] at h

theorem moves_clean {moves : List Move}
    (h : (moves.foldl (fun t m => moveSymbol g i t m (read g t.known m.src)) t).defects = []) :
    t.defects = [] ∧ Carries g t.known moves
      (moves.foldl (fun t m => moveSymbol g i t m (read g t.known m.src)) t).known := by
  induction moves generalizing t with
  | nil => exact ⟨h, .done _⟩
  | cons m rest ih =>
    obtain ⟨first, others⟩ := ih h
    obtain ⟨clean, definite⟩ := moveSymbol_clean first
    rw [moveSymbol_known] at others
    exact ⟨clean, .move definite others⟩

theorem pairs_defects (pairs : List (Move × Symbol))
    (h : (pairs.foldl (fun t (p : Move × Symbol) => moveSymbol g i t p.1 p.2) t).defects = []) :
    t.defects = [] := by
  induction pairs generalizing t with
  | nil => exact h
  | cons p rest ih => exact (moveSymbol_clean (ih h)).1

theorem group_clean {moves : MoveGroup} (h : (group g i moves t).defects = []) :
    t.defects = [] ∧ moves.sequenced = true ∧
      Carries g t.known moves.moves (group g i moves t).known := by
  unfold group at h ⊢
  split at h
  · rename_i sequenced
    rw [if_pos sequenced]
    obtain ⟨clean, carries⟩ := moves_clean h
    exact ⟨clean, sequenced, carries⟩
  · have reported := pairs_defects _ h
    simp [Trace.report] at reported

theorem inputs_clean {operands : List ((ValueId × Location) × Nat)}
    (h : operands.foldlM (input g i) t = .ok t') (clean : t'.defects = []) :
    t' = t ∧ ∀ o ∈ operands, holds g (read g t.known o.1.2) o.1.1 = .ok true := by
  induction operands generalizing t with
  | nil =>
    obtain rfl : t = t' := by simpa using h
    simp
  | cons o rest ih =>
    obtain ⟨next, first, others⟩ := foldlM_cons_ok.mp h
    obtain ⟨rfl, held⟩ := ih others
    rw [input, bind_ok] at first
    obtain ⟨found, hfound, first⟩ := first
    cases found with
    | true =>
      obtain rfl : t = t' := by simpa using first
      refine ⟨rfl, ?_⟩
      intro o' ho'
      rcases mem_cons.mp ho' with rfl | ho'
      · exact hfound
      · exact held o' ho'
    | false =>
      simp only [Bool.false_eq_true, ↓reduceIte, pure_ok] at first
      rw [← first] at clean
      simp [Trace.report] at clean

theorem call_known (h : call g i x t = .ok t') :
    t'.known = t.known.destroy (isCallerSaved g.target) ∧ (t'.defects = [] → t.defects = []) := by
  rw [call, bind_ok] at h
  obtain ⟨types, _, h⟩ := h
  simp only [pure_ok] at h
  subst h
  refine ⟨rfl, ?_⟩
  intro clean
  exact (append_eq_nil_iff.mp clean).2

theorem instr_cases (found : g.instrs[i]? = some x) (h : instr g t i = .ok t') :
    (∃ moves, x.group = some moves ∧ t' = group g i moves t) ∨
    (x.group = none ∧ x.isPhi = true ∧ t' = t) ∨
    (x.group = none ∧ x.isPhi = false ∧ t' = t.report (.missingLocations i)) ∨
    (x.group = none ∧ x.isPhi = false ∧ x.inputLocations.length = x.inputs.length ∧
      x.resultLocations.length = x.results.length ∧ ∃ read done,
        (x.inputs.zip x.inputLocations).zipIdx.foldlM (input g i) t = .ok read ∧
        (if x.isCall then call g i x read else .ok read) = .ok done ∧
        t' = { done with known := afterResults g x done.known }) := by
  rw [instr, instr_ok.mpr found, ok_bind] at h
  cases hgroup : x.group with
  | some moves =>
    simp only [hgroup, pure_ok] at h
    exact .inl ⟨moves, rfl, h.symm⟩
  | none =>
    simp only [hgroup] at h
    by_cases hphi : x.isPhi
    · simp only [hphi, ↓reduceIte, pure_ok] at h
      exact .inr (.inl ⟨rfl, hphi, h.symm⟩)
    rw [if_neg hphi] at h
    have notPhi : x.isPhi = false := by simpa using hphi
    split at h
    · simp only [pure_ok] at h
      exact .inr (.inr (.inl ⟨rfl, notPhi, h.symm⟩))
    rename_i located
    have lengths : x.inputLocations.length = x.inputs.length ∧
        x.resultLocations.length = x.results.length := by
      simpa only [ne_eq, not_or, not_not] using located
    rw [bind_ok] at h
    obtain ⟨read, inputs, h⟩ := h
    refine .inr (.inr (.inr ⟨rfl, notPhi, lengths.1, lengths.2, read, ?_⟩))
    by_cases hc : x.isCall
    · rw [if_pos hc, bind_ok] at h
      obtain ⟨done, called, h⟩ := h
      simp only [pure_ok] at h
      exact ⟨done, inputs, by rw [if_pos hc, called], h.symm⟩
    · rw [if_neg hc, bind_ok] at h
      obtain ⟨done, called, h⟩ := h
      simp only [pure_ok] at called h
      exact ⟨done, inputs, by rw [if_neg hc, called], h.symm⟩

theorem instr_clean (found : g.instrs[i]? = some x) (h : instr g t i = .ok t')
    (clean : t'.defects = []) : t.defects = [] ∧ Passes g x t.known t'.known := by
  rcases instr_cases found h with ⟨moves, hgroup, rfl⟩ | ⟨hgroup, hphi, rfl⟩ |
    ⟨_, _, rfl⟩ | ⟨hgroup, hphi, inputLength, resultLength, read, done, inputs, called, rfl⟩
  · obtain ⟨before, sequenced, carries⟩ := group_clean clean
    exact ⟨before, .moves hgroup sequenced carries⟩
  · exact ⟨clean, .phi hgroup hphi⟩
  · simp [Trace.report] at clean
  have callClean : read.defects = [] ∧ done.known =
      if x.isCall then read.known.destroy (isCallerSaved g.target) else read.known := by
    by_cases hc : x.isCall
    · rw [if_pos hc] at called ⊢
      exact ⟨(call_known called).2 clean, (call_known called).1⟩
    · rw [if_neg hc] at called ⊢
      obtain rfl : read = done := by simpa using called
      exact ⟨clean, rfl⟩
  obtain ⟨rfl, held⟩ := inputs_clean inputs callClean.1
  refine ⟨callClean.1, ?_⟩
  simp only [callClean.2]
  refine .other hgroup hphi inputLength resultLength ?_
  intro operand hop
  obtain ⟨n, hn, rfl⟩ := mem_iff_getElem.mp hop
  exact held ((x.inputs.zip x.inputLocations)[n], n)
    (mk_mem_zipIdx_iff_getElem?.mpr (getElem?_eq_getElem hn))

/-! Every change to what is known leaves no entry that says `unknown`. -/

theorem writes_firm {α : Type} (place : α → Location) (symbol : Knowledge → α → Symbol)
    (xs : List α) (h : k.Firm) :
    (xs.foldl (fun k a => write g k (place a) (symbol k a)) k).Firm := by
  induction xs generalizing k with
  | nil => exact h
  | cons a rest ih => exact ih (write_firm h _ _)

theorem moves_firm {α : Type} (move : α → Move) (symbol : Trace → α → Symbol) (xs : List α)
    (h : t.known.Firm) :
    (xs.foldl (fun t a => moveSymbol g i t (move a) (symbol t a)) t).known.Firm := by
  induction xs generalizing t with
  | nil => exact h
  | cons a rest ih =>
    refine ih ?_
    rw [moveSymbol_known]
    exact write_firm h _ _

theorem group_firm (moves : MoveGroup) (h : t.known.Firm) : (group g i moves t).known.Firm := by
  unfold group
  split
  · exact moves_firm (fun m => m) (fun t m => read g t.known m.src) _ h
  · exact moves_firm Prod.fst (fun _ p => p.2) _ h

theorem inputs_known {operands : List ((ValueId × Location) × Nat)}
    (h : operands.foldlM (input g i) t = .ok t') : t'.known = t.known := by
  refine foldlM_ok (P := fun u => u.known = t.known) ?_ h rfl
  intro o _ u u' same step
  rw [input, bind_ok] at step
  obtain ⟨found, _, step⟩ := step
  cases found <;> simp only [Bool.false_eq_true, ↓reduceIte, pure_ok] at step <;> subst step <;>
    exact same

theorem instr_firm (h : instr g t i = .ok t') (firm : t.known.Firm) : t'.known.Firm := by
  have h' := h
  rw [instr, bind_ok] at h'
  obtain ⟨x, found, -⟩ := h'
  rcases instr_cases (instr_ok.mp found) h with ⟨moves, _, rfl⟩ | ⟨_, _, rfl⟩ |
    ⟨_, _, rfl⟩ | ⟨_, _, _, _, read, done, inputs, called, rfl⟩
  · exact group_firm moves firm
  · exact firm
  · exact firm
  refine writes_firm (fun r : ValueId × Location => r.2) (fun _ r => resultSymbol x r.1) _ ?_
  have same := inputs_known inputs
  by_cases hc : x.isCall
  · rw [if_pos hc] at called
    rw [(call_known called).1, same]
    exact firm.after_destroy _
  · rw [if_neg hc] at called
    obtain rfl : read = done := by simpa using called
    rw [same]
    exact firm

theorem block_firm {b : BlockId} (h : block g b t = .ok t') (firm : t.known.Firm) :
    t'.known.Firm := by
  rw [block, bind_ok] at h
  obtain ⟨B, _, h⟩ := h
  exact foldlM_ok (P := fun t => t.known.Firm) (fun _ _ _ _ firm step => instr_firm step firm) h firm

theorem edge_firm {out : Knowledge} {succ : BlockId} {n : Nat} (h : edge g out succ n = .ok k)
    (firm : out.Firm) : k.Firm := by
  rw [edge, bind_ok] at h
  obtain ⟨phis, _, h⟩ := h
  rw [bind_ok] at h
  obtain ⟨updates, _, h⟩ := h
  simp only [pure_ok] at h
  subst h
  clear *- firm
  induction updates generalizing out with
  | nil => exact firm
  | cons u rest ih =>
    refine ih ?_
    cases u with
    | none => exact firm
    | some p => exact write_firm firm _ _

def FirmExits (exits : Exits) : Prop :=
  ∀ (b : BlockId) (k : Knowledge), exits[b]? = some (some k) → k.Firm

def meetEdge (g : Graph) (exits : Exits) (b : BlockId) (merged : Option Knowledge)
    (pred : BlockId × Nat) : Except Fault (Option Knowledge) := do
  match ← need exits[pred.1]? with
  | none => return merged
  | some out =>
    let known ← edge g out b pred.2
    match merged with
    | none => return some known
    | some other => return some (meet other known)

theorem meetEdge_cases {exits : Exits} {b : BlockId} {m m' : Option Knowledge}
    {pred : BlockId × Nat} (h : meetEdge g exits b m pred = .ok m') :
    (exits[pred.1]? = some none ∧ m' = m) ∨
    ∃ out known, exits[pred.1]? = some (some out) ∧ edge g out b pred.2 = .ok known ∧
      m' = some ((m.map (meet · known)).getD known) := by
  rw [meetEdge, bind_ok] at h
  obtain ⟨exit, found, h⟩ := h
  rw [need_eq_ok] at found
  cases exit with
  | none => exact .inl ⟨found, (pure_ok.mp h).symm⟩
  | some out =>
    simp only [bind_ok] at h
    obtain ⟨known, hedge, h⟩ := h
    refine .inr ⟨out, known, found, hedge, ?_⟩
    cases m <;> simp only [pure_ok] at h <;> exact h.symm

theorem meetEdges_below {exits : Exits} (firm : FirmExits exits) {b : BlockId}
    {preds : List (BlockId × Nat)} {m m' : Option Knowledge}
    (h : preds.foldlM (meetEdge g exits b) m = .ok m') (start : ∀ k, m = some k → k.Firm) :
    (∀ k, m' = some k → k.Firm) ∧
    (∀ k, m = some k → ∃ k', m' = some k' ∧ k'.Below k) ∧
    ∀ pred ∈ preds, ∀ out, exits[pred.1]? = some (some out) →
      ∃ known k', edge g out b pred.2 = .ok known ∧ m' = some k' ∧ k'.Below known := by
  induction preds generalizing m with
  | nil =>
    obtain rfl : m = m' := by simpa using h
    exact ⟨start, fun k hk => ⟨k, hk, .refl k⟩, by simp⟩
  | cons pred rest ih =>
    obtain ⟨next, first, others⟩ := foldlM_cons_ok.mp h
    rcases meetEdge_cases first with ⟨skipped, rfl⟩ | ⟨out, known, found, hedge, rfl⟩
    · obtain ⟨ends, keeps, edges⟩ := ih others start
      refine ⟨ends, keeps, ?_⟩
      intro p hp out found
      rcases mem_cons.mp hp with rfl | hp
      · simp [skipped] at found
      · exact edges p hp out found
    -- the new edge and what was merged before are both above their meet
    have knownFirm := edge_firm hedge (firm _ _ found)
    obtain ⟨nextFirm, aboveOld, aboveNew⟩ :
        ((m.map (meet · known)).getD known).Firm ∧
        (∀ k, m = some k → ((m.map (meet · known)).getD known).Below k) ∧
        ((m.map (meet · known)).getD known).Below known := by
      cases m with
      | none => exact ⟨knownFirm, by simp, .refl known⟩
      | some old =>
        have oldFirm := start old rfl
        have below := meet_below oldFirm knownFirm
        refine ⟨oldFirm.after_meet knownFirm, ?_, below.2⟩
        intro k hk
        obtain rfl : old = k := by simpa using hk
        exact below.1
    obtain ⟨ends, keeps, edges⟩ := ih others (by simpa using nextFirm)
    obtain ⟨k', done, below⟩ := keeps _ rfl
    refine ⟨ends, fun k hk => ⟨k', done, below.trans (aboveOld k hk)⟩, ?_⟩
    intro p hp out' found'
    rcases mem_cons.mp hp with rfl | hp
    · obtain rfl : out = out' := by simpa [found] using found'
      exact ⟨known, k', hedge, done, below.trans aboveNew⟩
    · exact edges p hp out' found'

theorem entry_eq (g : Graph) (exits : Exits) (b : BlockId) :
    entry g exits b = if b = g.entry then .ok [] else do
      let merged ← (← g.block b).preds.zipIdx.foldlM (meetEdge g exits b) none
      return merged.getD [] := rfl

theorem entry_firm {exits : Exits} (firm : FirmExits exits) {b : BlockId}
    (h : entry g exits b = .ok k) : k.Firm := by
  rw [entry_eq] at h
  split at h
  · obtain rfl : [] = k := by simpa using h
    exact .nil
  rw [bind_ok] at h
  obtain ⟨B, _, h⟩ := h
  rw [bind_ok] at h
  obtain ⟨merged, hmerged, h⟩ := h
  obtain rfl : merged.getD [] = k := by simpa using h
  cases merged with
  | none => exact .nil
  | some k => exact (meetEdges_below firm hmerged (by simp)).1 k rfl

theorem entry_below {exits : Exits} (firm : FirmExits exits) {b s : BlockId} {S : Block}
    {out : Knowledge} {n : Nat} (h : entry g exits s = .ok k) (inner : s ≠ g.entry)
    (stored : g.blocks[s]? = some S) (pred : S.preds[n]? = some b)
    (visited : exits[b]? = some (some out)) :
    ∃ known, edge g out s n = .ok known ∧ k.Below known := by
  rw [entry_eq, if_neg inner, block_ok.mpr stored, ok_bind, bind_ok] at h
  obtain ⟨merged, hmerged, h⟩ := h
  obtain rfl : merged.getD [] = k := by simpa using h
  obtain ⟨known, k', hedge, rfl, below⟩ := (meetEdges_below firm hmerged (by simp)).2.2 (b, n)
    (mk_mem_zipIdx_iff_getElem?.mpr pred) out visited
  exact ⟨known, hedge, below⟩

theorem visit_ok {exits exits' : Exits} {b : BlockId} (h : visit g exits b = .ok exits') :
    ∃ start done, entry g exits b = .ok start ∧ block g b ⟨start, []⟩ = .ok done ∧
      exits' = exits.setIfInBounds b (some done.known) := by
  rw [visit, bind_ok] at h
  obtain ⟨start, hstart, h⟩ := h
  rw [bind_ok] at h
  obtain ⟨done, hdone, h⟩ := h
  exact ⟨start, done, hstart, hdone, (pure_ok.mp h).symm⟩

theorem visit_firm {exits exits' : Exits} {b : BlockId} (h : visit g exits b = .ok exits')
    (firm : FirmExits exits) : FirmExits exits' := by
  obtain ⟨start, done, hstart, hdone, rfl⟩ := visit_ok h
  intro c k hk
  rw [getElem?_setIfInBounds] at hk
  split at hk
  · split at hk
    · obtain rfl : done.known = k := by simpa using hk
      exact block_firm hdone (entry_firm firm hstart)
    · simp at hk
  · exact firm c k hk

theorem settle_ok {order : List BlockId} {bound : Nat} {exits done : Exits}
    (h : settle g order bound exits = .ok done) (firm : FirmExits exits) :
    order.foldlM (visit g) done = .ok done ∧ FirmExits done ∧ done.size = exits.size := by
  induction bound generalizing exits with
  | zero => simp [settle] at h
  | succ bound ih =>
    rw [settle, bind_ok] at h
    obtain ⟨next, round, h⟩ := h
    split at h
    · rename_i same
      obtain rfl : exits = done := by simpa using h
      exact ⟨by rw [round, same], firm, rfl⟩
    · have size : next.size = exits.size := by
        refine foldlM_ok (P := fun e => e.size = exits.size) ?_ round rfl
        intro b _ e e' same step
        obtain ⟨start, done, _, _, rfl⟩ := visit_ok step
        rw [size_setIfInBounds, same]
      obtain ⟨fixed, doneFirm, doneSize⟩ :=
        ih h (foldlM_ok (fun _ _ _ _ firm step => visit_firm step firm) round firm)
      exact ⟨fixed, doneFirm, doneSize.trans size⟩

theorem visits_keep {order : List BlockId} {exits exits' : Exits} {b : BlockId}
    (h : order.foldlM (visit g) exits = .ok exits') (outside : b ∉ order) :
    exits'[b]? = exits[b]? := by
  refine foldlM_ok (P := fun e => e[b]? = exits[b]?) ?_ h rfl
  intro c hc e e' same step
  obtain ⟨start, done, _, _, rfl⟩ := visit_ok step
  have apart : c ≠ b := fun eq => outside (eq ▸ hc)
  rw [getElem?_setIfInBounds_ne apart, same]

theorem visits_fixed {order : List BlockId} {exits : Exits} (once : order.Nodup)
    (h : order.foldlM (visit g) exits = .ok exits) : ∀ b ∈ order, visit g exits b = .ok exits := by
  induction order with
  | nil => simp
  | cons b rest ih =>
    obtain ⟨next, first, others⟩ := foldlM_cons_ok.mp h
    rw [nodup_cons] at once
    -- the later visits leave the entry of `b` alone, so the first one has not changed it
    have kept := visits_keep others once.1
    obtain ⟨start, done, _, _, rfl⟩ := visit_ok first
    have same : exits.setIfInBounds b (some done.known) = exits := by
      apply Array.ext_getElem?
      intro c
      by_cases hc : b = c
      · rw [← hc, kept]
      · exact getElem?_setIfInBounds_ne hc
    rw [same] at first others
    intro c hc
    rcases mem_cons.mp hc with rfl | hc
    · exact first
    · exact ih once.2 others c hc

def knownAt (g : Graph) (exits : Exits) (b : BlockId) (pc : Nat) : Knowledge :=
  match (do
    let start ← entry g exits b
    ((← g.block b).instrs.take pc).foldlM (instr g) ⟨start, []⟩ : Except Fault Trace) with
  | .ok t => t.known
  | .error _ => []

theorem instrs_clean {instrs : List InstrId} (h : instrs.foldlM (instr g) t = .ok t')
    (clean : t'.defects = []) : t.defects = [] := by
  induction instrs generalizing t with
  | nil =>
    obtain rfl : t = t' := by simpa using h
    exact clean
  | cons i rest ih =>
    obtain ⟨next, first, others⟩ := foldlM_cons_ok.mp h
    have first' := first
    rw [instr, bind_ok] at first'
    obtain ⟨x, found, -⟩ := first'
    exact (instr_clean (instr_ok.mp found) first (ih others)).1

section

variable {exits : Exits} {b : BlockId} {B : Block} {start : Knowledge} {done : Trace}
  (stored : g.blocks[b]? = some B) (hstart : entry g exits b = .ok start)
  (hdone : block g b ⟨start, []⟩ = .ok done) (clean : done.defects = [])

include stored hstart hdone clean

theorem knownAt_point (pc : Nat) :
    (B.instrs.take pc).foldlM (instr g) ⟨start, []⟩ = .ok ⟨knownAt g exits b pc, []⟩ := by
  rw [block, block_ok.mpr stored, ok_bind, ← take_append_drop pc B.instrs,
    List.foldlM_append, bind_ok] at hdone
  obtain ⟨t, before, behind⟩ := hdone
  have free := instrs_clean behind clean
  have known : knownAt g exits b pc = t.known := by
    simp only [knownAt, hstart, ok_bind, block_ok.mpr stored, before]
  rw [before, known, ← free]

theorem knownAt_step {pc : Nat}
    (listed : B.instrs[pc]? = some i) :
    ∃ x, g.instrs[i]? = some x ∧ Passes g x (knownAt g exits b pc) (knownAt g exits b (pc + 1)) := by
  have before := knownAt_point stored hstart hdone clean pc
  have behind := knownAt_point stored hstart hdone clean (pc + 1)
  rw [take_add_one, listed, Option.toList_some, List.foldlM_append, before, ok_bind] at behind
  simp only [foldlM_cons, foldlM_nil, bind_pure] at behind
  have found := behind
  rw [instr, bind_ok] at found
  obtain ⟨x, found, -⟩ := found
  exact ⟨x, instr_ok.mp found, (instr_clean (instr_ok.mp found) behind rfl).2⟩

end

structure Solution (g : Graph) (order : List BlockId) (known : BlockId → Nat → Knowledge) :
    Prop where
  ordered : g.Ordered order
  start : known g.entry 0 = []
  step : ∀ b ∈ order, ∀ B, g.blocks[b]? = some B → ∀ pc i, B.instrs[pc]? = some i →
    ∃ x, g.instrs[i]? = some x ∧ Passes g x (known b pc) (known b (pc + 1))
  edge : ∀ b ∈ order, ∀ B, g.blocks[b]? = some B → ∀ s ∈ order, s ≠ g.entry →
    ∀ S, g.blocks[s]? = some S → ∀ n : Nat, S.preds[n]? = some b →
      ∃ k, edge g (known b B.instrs.length) s n = .ok k ∧ (known s 0).Below k

end Verify

theorem Graph.solution_of_clean {g : Graph} (h : g.allocationDefects = .ok []) :
    ∃ order known, Verify.Solution g order known := by
  rw [allocationDefects, bind_ok] at h
  obtain ⟨order, horder, h⟩ := h
  rw [bind_ok] at h
  obtain ⟨exits, settled, h⟩ := h
  rw [bind_ok] at h
  obtain ⟨defects, hdefects, h⟩ := h
  have none : ∀ d ∈ defects, d = [] := by
    simpa [flatten_eq_nil_iff] using pure_ok.mp h
  have ordered := reversePostOrder_ok horder
  have blank : Verify.FirmExits (Array.replicate g.blocks.size Option.none) := by
    intro b k hk
    simp [Array.getElem?_replicate] at hk
  obtain ⟨round, firm, size⟩ := Verify.settle_ok settled blank
  have fixed := Verify.visits_fixed ordered.once round
  -- each block is verified without defects from what its visit starts with
  have verified : ∀ b ∈ order, ∃ start done, Verify.entry g exits b = .ok start ∧
      Verify.block g b ⟨start, []⟩ = .ok done ∧ done.defects = [] ∧
      exits[b]? = some (some done.known) := by
    intro b hb
    obtain ⟨start, done, hstart, hdone, same⟩ := Verify.visit_ok (fixed b hb)
    refine ⟨start, done, hstart, hdone, ?_, ?_⟩
    · obtain ⟨d, hd, found⟩ := mapM_mem hdefects hb
      rw [hstart, ok_bind, hdone, ok_bind, pure_ok, none d hd] at found
      exact reverse_eq_nil_iff.mp found
    · obtain ⟨B, stored⟩ := ordered.stored b hb
      have inside : b < exits.size := by
        rw [size, size_replicate]
        exact found_lt stored
      rw [same, getElem?_setIfInBounds_self, if_pos inside]
  refine ⟨order, Verify.knownAt g exits, ordered, ?_, ?_, ?_⟩
  · obtain ⟨start, done, hstart, hdone, clean, _⟩ := verified g.entry ordered.entry
    obtain ⟨E, stored⟩ := ordered.stored g.entry ordered.entry
    have first := Verify.knownAt_point stored hstart hdone clean 0
    obtain rfl : [] = start := by simpa [Verify.entry_eq] using hstart
    simp only [take_zero, foldlM_nil, pure_ok, Verify.Trace.mk.injEq, and_true] at first
    exact first.symm
  · intro b hb B stored pc i listed
    obtain ⟨start, done, hstart, hdone, clean, _⟩ := verified b hb
    exact Verify.knownAt_step stored hstart hdone clean listed
  · intro b hb B storedB s hs inner S storedS n pred
    obtain ⟨start, done, hstart, hdone, clean, visited⟩ := verified b hb
    obtain ⟨start', done', hstart', hdone', clean', _⟩ := verified s hs
    have atEnd := Verify.knownAt_point storedB hstart hdone clean B.instrs.length
    rw [take_length] at atEnd
    rw [Verify.block, block_ok.mpr storedB, ok_bind, atEnd] at hdone
    obtain rfl := Except.ok.inj hdone
    have first := Verify.knownAt_point storedS hstart' hdone' clean' 0
    simp only [take_zero, foldlM_nil, pure_ok, Verify.Trace.mk.injEq, and_true] at first
    rw [← first]
    exact Verify.entry_below firm hstart' inner storedS pred visited

end RegisterAllocation
