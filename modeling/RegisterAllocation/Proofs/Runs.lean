import Mathlib.Data.Finset.Card
import Mathlib.Algebra.BigOperators.Group.List.Basic
import RegisterAllocation.Proofs.Evaluation
import RegisterAllocation.Proofs.Order

/-!
Runs of a machine as allocated. A run that ends at all ends within `Machine.bound`: between two
counted steps a run drifts through moves and ends of blocks, where its way does not depend on what
the places hold. If it came back to a point, it would find every place there still filled that it
read the first time, and so would go round for ever. A drift therefore never sees a point twice.
-/

namespace RegisterAllocation

open Array List Option Graph

namespace Machine

variable {g : Graph} {m m' n n' : Machine} {B : Block} {i : InstrId} {x : Instr}

theorem step_end (stored : g.blocks[m.block]? = some B) (atEnd : B.instrs[m.pc]? = none) :
    m.step g = m.fallThrough g B >>= fun m => .ok (.running m) := by
  rw [step, block_ok.mpr stored]
  simp only [lift_of_ok, ok_bind, atEnd]
  rfl

theorem step_instr (stored : g.blocks[m.block]? = some B) (listed : B.instrs[m.pc]? = some i)
    (found : g.instrs[i]? = some x) :
    m.step g = if maxSteps < (m.count x).counted then refuse .tooManySteps
      else (m.count x).execute g B x := by
  rw [step, block_ok.mpr stored]
  simp only [lift_of_ok, ok_bind, listed, instr_ok.mpr found]
  split
  · rfl
  · rfl

theorem step_ok {next : Next} (h : m.step g = .ok next) :
    ∃ B, g.blocks[m.block]? = some B ∧
      ((B.instrs[m.pc]? = none ∧ ∃ m', m.fallThrough g B = .ok m' ∧ next = .running m') ∨
      ∃ i x, B.instrs[m.pc]? = some i ∧ g.instrs[i]? = some x ∧
        (m.count x).counted ≤ maxSteps ∧ (m.count x).execute g B x = .ok next) := by
  have h' := h
  rw [step, bind_ok] at h'
  obtain ⟨B, stored, h'⟩ := h'
  rw [lift_ok, block_ok] at stored
  refine ⟨B, stored, ?_⟩
  cases listed : B.instrs[m.pc]? with
  | none =>
    rw [step_end stored listed, bind_ok] at h
    obtain ⟨m', fell, h⟩ := h
    exact .inl ⟨rfl, m', fell, (Except.ok.inj h).symm⟩
  | some i =>
    simp only [listed, bind_ok] at h'
    obtain ⟨x, found, -⟩ := h'
    rw [lift_ok, instr_ok] at found
    rw [step_instr stored listed found] at h
    split at h
    · simp at h
    · rename_i within
      exact .inr ⟨i, x, rfl, found, by omega, h⟩

theorem fallThrough_located (located : m.stage = .locations) :
    m.fallThrough g B = .ok m' ↔ ∃ s, B.succs = [s] ∧ m' = { m with block := s, pc := 0 } := by
  unfold fallThrough
  split
  · rename_i s one
    simp [enter, located, one, eq_comm]
  · rename_i many
    constructor
    · intro h
      simp at h
    · rintro ⟨s, one, -⟩
      exact absurd one (many s)

theorem execute_moves (moves : x.isSpillFill = true) :
    m.execute g B x = (match x.group with
      | some group => m.moveGroup g group
      | none => .ok m) >>= fun m => .ok (.running m) := by
  have hop : x.opcode = .spillFill := by simpa [Instr.isSpillFill] using moves
  simp only [execute, compute, hop]
  rfl

section Runs

variable {bound : Nat} {o : Attempt RunError RunResult}

theorem runWithin_running (h : m.step g = .ok (.running m')) :
    m.runWithin g (bound + 1) = m'.runWithin g bound := by
  simp [runWithin, h]

theorem runWithin_mono (h : m.runWithin g bound = some o) (more : Nat) :
    m.runWithin g (bound + more) = some o := by
  induction bound generalizing m with
  | zero => simp [runWithin] at h
  | succ bound ih =>
    rw [Nat.add_right_comm]
    unfold runWithin at h ⊢
    split at h
    · exact ih h
    · exact h
    · exact h

theorem runWithin_unique {bound' : Nat} {o' : Attempt RunError RunResult}
    (h : m.runWithin g bound = some o) (h' : m.runWithin g bound' = some o') : o = o' := by
  have more := runWithin_mono h bound'
  rw [Nat.add_comm, runWithin_mono h' bound] at more
  exact (some.inj more).symm

end Runs

/-- A machine gets to another one by steps that do not end the run. -/
inductive Reaches (g : Graph) : Machine → Machine → Prop where
  | refl (m : Machine) : Reaches g m m
  | step {m m' m'' : Machine} : m.step g = .ok (.running m') → Reaches g m' m'' → Reaches g m m''

theorem Reaches.trans {m'' : Machine} (h : Reaches g m m') (h' : Reaches g m' m'') :
    Reaches g m m'' := by
  induction h with
  | refl => exact h'
  | step stepped _ ih => exact .step stepped (ih h')

theorem Reaches.run_before {bound : Nat} {o : Attempt RunError RunResult} (h : Reaches g m m')
    (ends : m'.runWithin g bound = some o) : ∃ bound, m.runWithin g bound = some o := by
  induction h with
  | refl => exact ⟨bound, ends⟩
  | step stepped _ ih =>
    obtain ⟨bound', ends'⟩ := ih ends
    exact ⟨bound' + 1, by rw [runWithin_running stepped, ends']⟩

theorem Reaches.run_after {bound : Nat} {o : Attempt RunError RunResult} (h : Reaches g m m')
    (ends : m.runWithin g bound = some o) : ∃ bound, m'.runWithin g bound = some o := by
  induction h generalizing bound with
  | refl => exact ⟨bound, ends⟩
  | step stepped _ ih =>
    cases bound with
    | zero => simp [runWithin] at ends
    | succ bound => exact ih (by rwa [runWithin_running stepped] at ends)

structure Ahead (g : Graph) (m n : Machine) : Prop where
  located : m.stage = .locations
  stage : n.stage = m.stage
  block : n.block = m.block
  pc : n.pc = m.pc
  target : n.target = m.target
  counted : n.counted = m.counted
  sizes : ∀ kind, (n.bank? kind).map size = (m.bank? kind).map size
  filled : ∀ l, (m.content g l).isSome → (n.content g l).isSome

namespace Ahead

variable {l : Location} {w : Word}

variable (h : Ahead g m n)

include h

theorem after_write (wrote : m.write l w = .ok m') (v : Word) :
    ∃ n', n.write l v = .ok n' ∧ Ahead g m' n' := by
  obtain ⟨n', wrote'⟩ := write_of_accepts
    ((accepts_of_write wrote).of_same_sizes h.target h.sizes) v
  obtain ⟨only, contents⟩ := write_effect wrote
  obtain ⟨only', contents'⟩ := write_effect wrote'
  refine ⟨n', wrote', ?_⟩
  refine ⟨?_, ?_, ?_, ?_, ?_, ?_, ?_, ?_⟩
  · rw [only.same]
    exact h.located
  · rw [only.same, only'.same]
    exact h.stage
  · rw [only.same, only'.same]
    exact h.block
  · rw [only.same, only'.same]
    exact h.pc
  · rw [only.target_eq, only'.target_eq]
    exact h.target
  · rw [only.same, only'.same]
    exact h.counted
  · intro kind
    rw [only.sizes, only'.sizes, h.sizes]
  · intro j
    rw [contents, contents', h.target]
    split
    · simp
    · exact h.filled j

theorem after_writes {moves : List Move} {words : List Word}
    (wrote : (moves.zip words).foldlM (fun m p => m.write p.1.dst p.2) m = .ok m')
    {others : List Word} (length : others.length = words.length) :
    ∃ n', (moves.zip others).foldlM (fun n p => n.write p.1.dst p.2) n = .ok n' ∧ Ahead g m' n' := by
  induction moves generalizing m n words others with
  | nil =>
    obtain rfl : m = m' := by simpa using wrote
    exact ⟨n, by simp [pure, Except.pure], h⟩
  | cons mv rest ih =>
    cases words with
    | nil =>
      obtain rfl : others = [] := by simpa using length
      obtain rfl : m = m' := by simpa using wrote
      exact ⟨n, by simp [pure, Except.pure], h⟩
    | cons w words =>
      cases others with
      | nil => simp at length
      | cons v others =>
        rw [zip_cons_cons, foldlM_cons, bind_ok] at wrote
        obtain ⟨next, first, later⟩ := wrote
        obtain ⟨next', first', ahead⟩ := h.after_write first v
        obtain ⟨n', later', done⟩ := ih ahead later (by simpa using length)
        exact ⟨n', by rw [zip_cons_cons, foldlM_cons, first', ok_bind, later'], done⟩

theorem exists_read (found : m.read g l = .ok w) : ∃ v, n.read g l = .ok v := by
  have filled := h.filled l (by rw [read_ok.mp found]; rfl)
  obtain ⟨v, hv⟩ := isSome_iff_exists.mp filled
  exact ⟨v, read_ok.mpr hv⟩

theorem after_transfers {moves : List Move}
    (moved : moves.foldlM (transfer g) m = .ok m') :
    ∃ n', moves.foldlM (transfer g) n = .ok n' ∧ Ahead g m' n' := by
  induction moves generalizing m n with
  | nil =>
    obtain rfl : m = m' := by simpa using moved
    exact ⟨n, rfl, h⟩
  | cons mv rest ih =>
    obtain ⟨next, first, later⟩ := foldlM_cons_ok.mp moved
    rw [transfer, bind_ok] at first
    obtain ⟨w, found, wrote⟩ := first
    obtain ⟨v, found'⟩ := h.exists_read found
    obtain ⟨next', wrote', ahead⟩ := h.after_write wrote v
    obtain ⟨n', later', done⟩ := ih ahead later
    exact ⟨n', by rw [foldlM_cons, transfer, found', ok_bind, wrote', ok_bind, later'], done⟩

theorem exists_reads {moves : List Move} {words : List Word}
    (found : (moves.mapM fun mv => m.read g mv.src) = .ok words) :
    ∃ others, (moves.mapM fun mv => n.read g mv.src) = .ok others ∧
      others.length = words.length := by
  induction moves generalizing words with
  | nil =>
    obtain rfl : [] = words := by simpa using found
    exact ⟨[], rfl, rfl⟩
  | cons mv rest ih =>
    simp only [mapM_cons, bind_ok, pure_ok] at found
    obtain ⟨w, first, words', later, rfl⟩ := found
    obtain ⟨v, first'⟩ := h.exists_read first
    obtain ⟨others, later', length⟩ := ih later
    refine ⟨v :: others, ?_, by simpa using length⟩
    simp only [mapM_cons, first', later', ok_bind]
    rfl

theorem after_moveGroup {group : MoveGroup} (moved : m.moveGroup g group = .ok m') :
    ∃ n', n.moveGroup g group = .ok n' ∧ Ahead g m' n' := by
  have counted : Ahead g { m with groups := m.groups + 1 } { n with groups := n.groups + 1 } :=
    ⟨h.located, h.stage, h.block, h.pc, h.target, h.counted, h.sizes, h.filled⟩
  unfold moveGroup at moved ⊢
  simp only at moved ⊢
  split at moved
  · rename_i sequenced
    rw [if_pos sequenced]
    exact counted.after_transfers moved
  · rename_i notSequenced
    rw [if_neg notSequenced]
    rw [bind_ok] at moved
    obtain ⟨words, found, wrote⟩ := moved
    obtain ⟨others, found', length⟩ := counted.exists_reads found
    obtain ⟨n', wrote', done⟩ := counted.after_writes wrote length
    exact ⟨n', by rw [found', ok_bind]; exact wrote', done⟩

end Ahead

/-- As allocated, an instruction that does not end the run leaves the count alone, and goes to the
start of a block if it goes anywhere. -/
theorem execute_running (located : m.stage = .locations)
    (h : m.execute g B x = .ok (.running m')) :
    m'.counted = m.counted ∧ m'.stage = .locations ∧
      (m'.pc = 0 ∨ m'.block = m.block ∧ m'.pc = m.pc) := by
  by_cases moves : x.isSpillFill
  · rw [execute_moves moves, bind_ok] at h
    obtain ⟨n, h, same⟩ := h
    obtain rfl : n = m' := by simpa using same
    split at h
    · rw [(moveGroup_fill h).1.same]
      exact ⟨rfl, located, .inr ⟨rfl, rfl⟩⟩
    · obtain rfl := Except.ok.inj h
      exact ⟨rfl, located, .inr ⟨rfl, rfl⟩⟩
  unfold execute at h
  split at h
  · rw [bind_ok] at h
    obtain ⟨taken, _, h⟩ := h
    split at h
    · simp only [enter, located, ok_bind, pure_ok, Next.running.injEq] at h
      rw [← h]
      exact ⟨rfl, rfl, .inl rfl⟩
    · simp at h
  · simp only [bind_ok, pure_ok, reduceCtorEq, and_false, exists_false] at h
  · simp at h
  · rw [bind_ok] at h
    obtain ⟨n, h, same⟩ := h
    obtain rfl : n = m' := by simpa using same
    rw [compute_eq (by simpa using moves), bind_ok] at h
    obtain ⟨r, _, h⟩ := h
    rw [bind_ok] at h
    obtain ⟨cleared, hcleared, h⟩ := h
    have only : OnlyPlaces m cleared := by
      unfold afterCall at hcleared
      split at hcleared
      · exact (clobber_effect hcleared).1
      · obtain rfl := Except.ok.inj hcleared
        exact .refl m
    have stage : cleared.stage = .locations := by
      rw [only.same]
      exact located
    have only' := putResults_only (m := { cleared with memory := r.2 }) stage h
    rw [only'.same, only.same]
    exact ⟨rfl, located, .inr ⟨rfl, rfl⟩⟩

def drift (g : Graph) (m : Machine) : Option Machine :=
  match m.step g with
  | .ok (.running m') => if m'.counted = m.counted then some m' else none
  | _ => none

theorem drift_some (h : drift g m = some m') :
    m.step g = .ok (.running m') ∧ m'.counted = m.counted := by
  unfold drift at h
  split at h
  · rename_i next found
    split at h
    · rename_i same
      obtain rfl : next = m' := by simpa using h
      exact ⟨found, same⟩
    · simp at h
  · simp at h

theorem drift_cases (located : m.stage = .locations) (h : drift g m = some m') :
    ∃ B, g.blocks[m.block]? = some B ∧
      ((B.instrs[m.pc]? = none ∧ ∃ s, B.succs = [s] ∧ m' = { m with block := s, pc := 0 }) ∨
      ∃ i x, B.instrs[m.pc]? = some i ∧ g.instrs[i]? = some x ∧ x.isSpillFill = true ∧
        m.counted ≤ maxSteps ∧ (match x.group with
          | some group => (m.count x).moveGroup g group
          | none => .ok (m.count x)) = .ok m') := by
  obtain ⟨stepped, same⟩ := drift_some h
  obtain ⟨B, stored, ended | ⟨i, x, listed, found, within, executed⟩⟩ := step_ok stepped
  · obtain ⟨atEnd, n, fell, hn⟩ := ended
    obtain rfl : m' = n := by simpa using hn
    exact ⟨B, stored, .inl ⟨atEnd, (fallThrough_located located).mp fell⟩⟩
  · have moves : x.isSpillFill = true := by
      by_contra plain
      have more := (execute_running (m := m.count x) located executed).1
      rw [same] at more
      simp [count, plain] at more
    rw [execute_moves moves, bind_ok] at executed
    obtain ⟨n, executed, hn⟩ := executed
    obtain rfl : n = m' := by simpa using hn
    have counted : (m.count x).counted = m.counted := by simp [count, moves]
    exact ⟨B, stored, .inr ⟨i, x, listed, found, moves, by omega, executed⟩⟩

theorem drift_end (located : m.stage = .locations) {s : BlockId}
    (stored : g.blocks[m.block]? = some B) (atEnd : B.instrs[m.pc]? = none) (one : B.succs = [s]) :
    drift g m = some { m with block := s, pc := 0 } := by
  have fell := (fallThrough_located (g := g) located).mpr ⟨s, one, rfl⟩
  simp [drift, step_end stored atEnd, fell]

theorem drift_moves (located : m.stage = .locations) (stored : g.blocks[m.block]? = some B)
    (listed : B.instrs[m.pc]? = some i) (found : g.instrs[i]? = some x)
    (moves : x.isSpillFill = true) (within : m.counted ≤ maxSteps)
    (moved : (match x.group with
      | some group => (m.count x).moveGroup g group
      | none => .ok (m.count x)) = .ok m') : drift g m = some m' := by
  have counted : (m.count x).counted = m.counted := by simp [count, moves]
  have executed : (m.count x).execute g B x = .ok (.running m') := by
    rw [execute_moves moves, moved, ok_bind]
  have same := (execute_running (m := m.count x) located executed).1
  rw [drift, step_instr stored listed found, counted, if_neg (by omega), executed]
  simp [same, counted]

theorem Ahead.after_drift (h : Ahead g m n) (drifted : drift g m = some m') :
    ∃ n', drift g n = some n' ∧ Ahead g m' n' := by
  have located : n.stage = .locations := by rw [h.stage, h.located]
  obtain ⟨B, stored, ended | ⟨i, x, listed, found, moves, within, moved⟩⟩ :=
    drift_cases h.located drifted
  · obtain ⟨atEnd, s, one, rfl⟩ := ended
    refine ⟨_, drift_end located (by rw [h.block]; exact stored) (by rw [h.pc]; exact atEnd) one, ?_⟩
    exact ⟨h.located, h.stage, rfl, rfl, h.target, h.counted, h.sizes, h.filled⟩
  · have ahead : Ahead g (m.count x) (n.count x) := by
      refine ⟨h.located, h.stage, h.block, ?_, h.target, ?_, h.sizes, h.filled⟩
      · simp [count, h.pc]
      · simp [count, h.counted]
    obtain ⟨n', moved', done⟩ : ∃ n', (match x.group with
        | some group => (n.count x).moveGroup g group
        | none => .ok (n.count x)) = .ok n' ∧ Ahead g m' n' := by
      cases hgroup : x.group with
      | none =>
        rw [hgroup] at moved
        obtain rfl := Except.ok.inj moved
        exact ⟨n.count x, rfl, ahead⟩
      | some group =>
        rw [hgroup] at moved
        exact ahead.after_moveGroup moved
    refine ⟨n', drift_moves located (by rw [h.block]; exact stored) (by rw [h.pc]; exact listed)
      found moves (by rw [h.counted]; exact within) moved', done⟩

theorem drift_filled (located : m.stage = .locations) (drifted : drift g m = some m') :
    m'.stage = .locations ∧ m'.target = m.target ∧ m'.counted = m.counted ∧
      (∀ kind, (m'.bank? kind).map size = (m.bank? kind).map size) ∧
      ∀ l, (m.content g l).isSome → (m'.content g l).isSome := by
  have counted := (drift_some drifted).2
  obtain ⟨B, stored, ended | ⟨i, x, listed, found, moves, within, moved⟩⟩ :=
    drift_cases located drifted
  · obtain ⟨atEnd, s, one, rfl⟩ := ended
    exact ⟨located, rfl, rfl, fun _ => rfl, fun _ h => h⟩
  · cases hgroup : x.group with
    | none =>
      rw [hgroup] at moved
      obtain rfl := Except.ok.inj moved
      exact ⟨located, rfl, counted, fun _ => rfl, fun _ h => h⟩
    | some group =>
      rw [hgroup] at moved
      obtain ⟨only, filled⟩ := moveGroup_fill moved
      refine ⟨?_, only.target_eq, counted, only.sizes, filled⟩
      rw [only.same]
      exact located

def drifts (g : Graph) : Nat → Machine → Option Machine
  | 0, m => some m
  | k + 1, m => (drift g m).bind (drifts g k)

theorem drifts_add (a b : Nat) : drifts g (a + b) m = (drifts g a m).bind (drifts g b) := by
  induction a generalizing m with
  | zero => simp [drifts]
  | succ a ih =>
    rw [Nat.add_right_comm, drifts, drifts, bind_assoc]
    congr 1
    funext n
    exact ih

theorem drifts_upTo {k n : Nat} (h : drifts g n m = some m') (le : k ≤ n) :
    ∃ mid, drifts g k m = some mid ∧ drifts g (n - k) mid = some m' := by
  rw [show n = k + (n - k) by omega, drifts_add] at h
  exact bind_eq_some_iff.mp h

theorem runWithin_drifts {k : Nat} (h : drifts g k m = some m') (bound : Nat) :
    m.runWithin g (k + bound) = m'.runWithin g bound := by
  induction k generalizing m with
  | zero =>
    obtain rfl : m = m' := by simpa [drifts] using h
    rw [Nat.zero_add]
  | succ k ih =>
    obtain ⟨next, first, later⟩ := bind_eq_some_iff.mp h
    rw [Nat.add_right_comm, runWithin_running (drift_some first).1, ih later]

theorem Ahead.after_drifts {k : Nat} (h : Ahead g m n) (drifted : drifts g k m = some m') :
    ∃ n', drifts g k n = some n' ∧ Ahead g m' n' := by
  induction k generalizing m n with
  | zero =>
    obtain rfl : m = m' := by simpa [drifts] using drifted
    exact ⟨n, rfl, h⟩
  | succ k ih =>
    obtain ⟨next, first, later⟩ := bind_eq_some_iff.mp drifted
    obtain ⟨next', first', ahead⟩ := h.after_drift first
    obtain ⟨n', later', done⟩ := ih ahead later
    exact ⟨n', by rw [drifts, first', bind_some, later'], done⟩

theorem goes_round {R : Machine → Machine → Prop}
    (along : ∀ k m n m', R m n → drifts g k m = some m' → ∃ n', drifts g k n = some n' ∧ R m' n')
    {d : Nat} (loop : drifts g (d + 1) m = some m') (back : R m m') (bound : Nat) :
    m.runWithin g bound = none := by
  induction bound using Nat.strongRecOn generalizing m m' with
  | ind bound ih =>
    by_cases short : bound ≤ d
    · obtain ⟨mid, first, _⟩ := drifts_upTo loop (k := bound) (by omega)
      exact runWithin_drifts first 0
    · obtain ⟨next, again, back'⟩ := along _ _ _ _ back loop
      have rest := runWithin_drifts loop (bound - (d + 1))
      rw [show d + 1 + (bound - (d + 1)) = bound by omega] at rest
      rw [rest]
      exact ih (bound - (d + 1)) (by omega) again back'

def points (g : Graph) : List (BlockId × Nat) :=
  g.blocks.toList.zipIdx.flatMap fun (B, b) => (List.range (B.instrs.length + 1)).map ((b, ·))

theorem length_points (g : Graph) :
    (points g).length = (g.blocks.toList.map fun B => B.instrs.length + 1).foldr (· + ·) 0 := by
  simp only [points, length_flatMap, length_map, length_range]
  conv_rhs => rw [← List.zipIdx_map_fst 0 g.blocks.toList, List.map_map]
  rfl

theorem mem_points {b : BlockId} {pc : Nat} (stored : g.blocks[b]? = some B)
    (inside : pc ≤ B.instrs.length) : (b, pc) ∈ points g := by
  refine mem_flatMap.mpr ⟨(B, b), ?_, ?_⟩
  · exact mk_mem_zipIdx_iff_getElem?.mpr (by simpa using stored)
  · exact List.mem_map.mpr ⟨pc, List.mem_range.mpr (by omega), rfl⟩

def Inside (g : Graph) (m : Machine) : Prop :=
  ∀ B, g.blocks[m.block]? = some B → m.pc ≤ B.instrs.length

theorem drift_inside (located : m.stage = .locations) (drifted : drift g m = some m') :
    m'.Inside g := by
  obtain ⟨B, stored, ended | ⟨i, x, listed, found, moves, within, moved⟩⟩ :=
    drift_cases located drifted
  · obtain ⟨atEnd, s, one, rfl⟩ := ended
    exact fun _ _ => Nat.zero_le _
  · have before := listed_lt listed
    have place : m'.block = m.block ∧ m'.pc = m.pc + 1 := by
      cases hgroup : x.group with
      | none =>
        rw [hgroup] at moved
        obtain rfl := Except.ok.inj moved
        exact ⟨rfl, rfl⟩
      | some group =>
        rw [hgroup] at moved
        rw [(moveGroup_fill moved).1.same]
        exact ⟨rfl, rfl⟩
    intro B' stored'
    rw [place.1, stored] at stored'
    obtain rfl : B = B' := by simpa using stored'
    rw [place.2]
    exact before

theorem drifts_filled {k : Nat} (located : m.stage = .locations) (inside : m.Inside g)
    (drifted : drifts g k m = some m') :
    m'.stage = .locations ∧ m'.target = m.target ∧ m'.counted = m.counted ∧
      (∀ kind, (m'.bank? kind).map size = (m.bank? kind).map size) ∧
      (∀ l, (m.content g l).isSome → (m'.content g l).isSome) ∧ m'.Inside g := by
  induction k generalizing m with
  | zero =>
    obtain rfl : m = m' := by simpa [drifts] using drifted
    exact ⟨located, rfl, rfl, fun _ => rfl, fun _ h => h, inside⟩
  | succ k ih =>
    obtain ⟨next, first, later⟩ := bind_eq_some_iff.mp drifted
    obtain ⟨stage, target, counted, sizes, filled⟩ := drift_filled located first
    obtain ⟨stage', target', counted', sizes', filled', inside'⟩ :=
      ih stage (drift_inside located first) later
    exact ⟨stage', target'.trans target, counted'.trans counted,
      fun kind => (sizes' kind).trans (sizes kind), fun l hl => filled' l (filled l hl), inside'⟩

theorem drifts_ahead {i j : Nat} {first second : Machine} (located : m.stage = .locations)
    (inside : m.Inside g) (atI : drifts g i m = some first) (atJ : drifts g j m = some second)
    (le : i ≤ j) (point : (first.block, first.pc) = (second.block, second.pc)) :
    drifts g (j - i) first = some second ∧ Ahead g first second := by
  obtain ⟨mid, atI', between⟩ := drifts_upTo atJ le
  obtain rfl : mid = first := by simpa [atI] using atI'.symm
  obtain ⟨located', _, _, _, _, inside'⟩ := drifts_filled located inside atI
  obtain ⟨stage, target, counted, sizes, filled, _⟩ := drifts_filled located' inside' between
  simp only [Prod.mk.injEq] at point
  exact ⟨between, located', by rw [stage, located'], point.1.symm, point.2.symm, target, counted,
    sizes, filled⟩

theorem drifts_last {k : Nat} (h : drifts g k m = none) :
    ∃ n last, n < k ∧ drifts g n m = some last ∧ drift g last = none := by
  induction k generalizing m with
  | zero => simp [drifts] at h
  | succ k ih =>
    cases first : drift g m with
    | none => exact ⟨0, m, by omega, rfl, first⟩
    | some next =>
      rw [drifts, first, bind_some] at h
      obtain ⟨n, last, less, reached, stops⟩ := ih h
      exact ⟨n + 1, last, by omega, by rw [drifts, first, bind_some, reached], stops⟩

theorem drifts_reaches {k : Nat} (h : drifts g k m = some m') :
    Reaches g m m' ∧ m'.counted = m.counted := by
  induction k generalizing m with
  | zero =>
    obtain rfl : m = m' := by simpa [drifts] using h
    exact ⟨.refl m, rfl⟩
  | succ k ih =>
    obtain ⟨next, first, later⟩ := bind_eq_some_iff.mp h
    obtain ⟨stepped, counted⟩ := drift_some first
    obtain ⟨reaches, counted'⟩ := ih later
    exact ⟨.step stepped reaches, counted'.trans counted⟩

theorem counted_step (located : m.stage = .locations)
    (stops : drift g m = none) (stepped : m.step g = .ok (.running m')) :
    m'.counted = m.counted + 1 ∧ m'.counted ≤ maxSteps ∧ m'.stage = .locations ∧ m'.Inside g := by
  have more : m'.counted ≠ m.counted := by
    intro same
    simp [drift, stepped, same] at stops
  obtain ⟨B, stored, ended | ⟨i, x, listed, found, within, executed⟩⟩ := step_ok stepped
  · obtain ⟨_, n, fell, hn⟩ := ended
    obtain rfl : m' = n := by simpa using hn
    obtain ⟨s, _, rfl⟩ := (fallThrough_located located).mp fell
    exact absurd rfl more
  · obtain ⟨counted, stage, place⟩ := execute_running (m := m.count x) located executed
    have plain : x.isSpillFill = false := by
      by_contra moves
      rw [counted] at more
      simp [count, moves] at more
    have plus : (m.count x).counted = m.counted + 1 := by simp [count, plain]
    refine ⟨by omega, by omega, stage, ?_⟩
    intro B' stored'
    rcases place with start | ⟨block, pc⟩
    · omega
    · have here : (m.count x).block = m.block := rfl
      rw [block, here, stored] at stored'
      obtain rfl : B = B' := by simpa using stored'
      have before := listed_lt listed
      have next : (m.count x).pc = m.pc + 1 := rfl
      omega

structure Drifting (g : Graph) (Q : Machine → Prop) : Prop where
  keeps : ∀ m m', Q m → drift g m = some m' → Q m'
  place : ∀ m m', Q m → drift g m = some m' → (m.block, m.pc) ∈ points g
  counts : ∀ m m', Q m → drift g m = none → m.step g = .ok (.running m') →
    m'.counted = m.counted + 1 ∧ m'.counted ≤ maxSteps ∧ Q m'

namespace Drifting

variable {Q : Machine → Prop} {bound : Nat} {o : Attempt RunError RunResult}

variable (drifting : Drifting g Q)

include drifting

theorem keep_drifts {k : Nat} (holds : Q m)
    (drifted : drifts g k m = some m') : Q m' := by
  induction k generalizing m with
  | zero =>
    obtain rfl : m = m' := by simpa [drifts] using drifted
    exact holds
  | succ k ih =>
    obtain ⟨next, first, later⟩ := bind_eq_some_iff.mp drifted
    exact ih (drifting.keeps m next holds first) later

theorem holds_after (holds : Q m) (reaches : Reaches g m m') : Q m' := by
  induction reaches with
  | refl => exact holds
  | @step m next _ stepped _ ih =>
    refine ih ?_
    cases drifted : drift g m with
    | none => exact (drifting.counts m next holds drifted stepped).2.2
    | some next' =>
      obtain rfl : next' = next := by simpa [stepped] using (drift_some drifted).1.symm
      exact drifting.keeps m next' holds drifted

theorem comes_back {last : Machine} (holds : Q m)
    (endless : drifts g ((points g).length + 1) m = some last) :
    ∃ i d first second, drifts g i m = some first ∧ drifts g (d + 1) first = some second ∧
      (first.block, first.pc) = (second.block, second.pc) := by
  let pointAt (k : Nat) : BlockId × Nat :=
    ((drifts g k m).map fun n => (n.block, n.pc)).getD (0, 0)
  have visited : ∀ k ∈ Finset.range ((points g).length + 1), pointAt k ∈ (points g).toFinset := by
    intro k hk
    rw [Finset.mem_range] at hk
    obtain ⟨mid, atK, rest⟩ := drifts_upTo endless (k := k) (by omega)
    rw [show (points g).length + 1 - k = (points g).length - k + 1 by omega, drifts] at rest
    obtain ⟨next, drifted, -⟩ := bind_eq_some_iff.mp rest
    simp only [pointAt, atK, map_some, getD_some, List.mem_toFinset]
    exact drifting.place mid next (drifting.keep_drifts holds atK) drifted
  have fewer : (points g).toFinset.card < (Finset.range ((points g).length + 1)).card := by
    rw [Finset.card_range]
    exact Nat.lt_succ_of_le (toFinset_card_le _)
  obtain ⟨i, hi, j, hj, apart, same⟩ := Finset.exists_ne_map_eq_of_card_lt_of_maps_to fewer visited
  -- of the two visits to one point, the earlier one starts a round
  wlog earlier : i < j generalizing i j with swapped
  · exact swapped j hj i hi apart.symm same.symm (by omega)
  rw [Finset.mem_range] at hi hj
  obtain ⟨second, atJ, -⟩ := drifts_upTo endless (k := j) (by omega)
  obtain ⟨first, atI, between⟩ := drifts_upTo atJ earlier.le
  simp only [pointAt, atI, atJ, map_some, getD_some] at same
  rw [show j - i = (j - i - 1) + 1 by omega] at between
  exact ⟨i, j - i - 1, first, second, atI, between, same⟩

/-- A run whose drifts are all short ends: each of them leads to a step that ends the run or is
counted. -/
theorem run_ends (left : Nat) (holds : Q m)
    (budget : maxSteps + 1 ≤ m.counted + left)
    (short : ∀ n, Reaches g m n → drifts g ((points g).length + 1) n = none) :
    ∃ o, m.runWithin g ((left + 1) * ((points g).length + 1)) = some o := by
  induction left using Nat.strong_induction_on generalizing m with
  | _ left ih =>
    obtain ⟨n, last, less, reached, stops⟩ := drifts_last (short m (.refl m))
    obtain ⟨there, counted⟩ := drifts_reaches reached
    have final : ∃ o, last.runWithin g (left * ((points g).length + 1) + 1) = some o := by
      unfold runWithin
      split
      · rename_i next stepped
        obtain ⟨plus, within, holds'⟩ :=
          drifting.counts last next (drifting.keep_drifts holds reached) stops stepped
        obtain ⟨left, rfl⟩ : ∃ l, left = l + 1 := ⟨left - 1, by omega⟩
        exact ih left (Nat.lt_succ_self left) holds' (by omega)
          fun n further => short n (there.trans (.step stepped further))
      · exact ⟨_, rfl⟩
      · exact ⟨_, rfl⟩
    obtain ⟨o, final⟩ := final
    have done := runWithin_mono ((runWithin_drifts reached _).trans final) ((points g).length - n)
    rw [show n + (left * ((points g).length + 1) + 1) + ((points g).length - n) =
      (left + 1) * ((points g).length + 1) by rw [Nat.add_mul]; omega] at done
    exact ⟨o, done⟩

/-- Where coming back to a point means going round for ever, a run that ends ends within the
bound. -/
theorem ends_within (rounds : ∀ first second d, Q first → drifts g (d + 1) first = some second →
      (first.block, first.pc) = (second.block, second.pc) → ∀ bound, first.runWithin g bound = none)
    (holds : Q m) (ends : m.runWithin g bound = some o) :
    m.runWithin g (Machine.bound g) = some o := by
  have short (n : Machine) (reaches : Reaches g m n) : drifts g ((points g).length + 1) n = none := by
    by_contra endless
    obtain ⟨last, endless⟩ := ne_none_iff_exists'.mp endless
    have holds' := drifting.holds_after holds reaches
    obtain ⟨i, d, first, second, atI, loop, same⟩ := drifting.comes_back holds' endless
    obtain ⟨bound', ends'⟩ := (reaches.trans (drifts_reaches atI).1).run_after ends
    rw [rounds first second d (drifting.keep_drifts holds' atI) loop same bound'] at ends'
    simp at ends'
  obtain ⟨o', enough⟩ := drifting.run_ends (maxSteps + 1) holds (by omega) short
  have le : (maxSteps + 1 + 1) * ((points g).length + 1) ≤ Machine.bound g := by
    rw [Machine.bound, length_points]
    exact Nat.mul_le_mul_left _ (by omega)
  have done := runWithin_mono enough
    (Machine.bound g - (maxSteps + 1 + 1) * ((points g).length + 1))
  rw [Nat.add_sub_cancel' le] at done
  rw [done, runWithin_unique done ends]

end Drifting

theorem located_drifting (g : Graph) : Drifting g fun m => m.stage = .locations ∧ m.Inside g := by
  refine ⟨fun m m' holds drifted => ?_, fun m m' holds drifted => ?_,
    fun m m' holds stops stepped => ?_⟩
  · exact ⟨(drift_filled holds.1 drifted).1, drift_inside holds.1 drifted⟩
  · obtain ⟨B, stored, -⟩ := drift_cases holds.1 drifted
    exact mem_points stored (holds.2 B stored)
  · exact counted_step holds.1 stops stepped

theorem ends_within_bound {o : Attempt RunError RunResult} {bound : Nat}
    (located : m.stage = .locations) (start : m.pc = 0) (ends : m.runWithin g bound = some o) :
    m.runWithin g (Machine.bound g) = some o := by
  refine (located_drifting g).ends_within (fun first second d holds loop same bound => ?_)
    ⟨located, fun _ _ => by omega⟩ ends
  obtain ⟨between, ahead⟩ := drifts_ahead holds.1 holds.2 rfl loop (Nat.zero_le _) same
  exact goes_round (fun k m n m' ahead drifted => ahead.after_drifts drifted) between ahead bound

end Machine

end RegisterAllocation
