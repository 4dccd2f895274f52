import Mathlib.Logic.Relation
import RegisterAllocation.Proofs.Progress

/-!
Whether runs on values stop. Instructions are counted, and the count is limited; going from the end
of a block to the next one is not counted. A run can therefore go on for ever, but only in one way:
round a circle of blocks without instructions, in which nothing but the block changes.
-/

namespace RegisterAllocation

open Machine

namespace Graph

variable {g : Graph} {tree : DominatorTree} {order : List BlockId} {m m' : Machine} {b : BlockId}

/-- A block without instructions, and the only way on from it. -/
def Idle (g : Graph) (a b : BlockId) : Prop :=
  ∃ A, g.blocks[a]? = some A ∧ A.instrs = [] ∧ A.succs = [b]

/-- Blocks without instructions lead back to a block. -/
def Circle (g : Graph) (b : BlockId) : Prop := Relation.TransGen g.Idle b b

theorem Circle.exists_next (circle : g.Circle b) : ∃ c, g.Idle b c ∧ g.Circle c := by
  obtain ⟨c, idle, back⟩ := Relation.TransGen.head'_iff.mp circle
  exact ⟨c, idle, Relation.TransGen.tail' back idle⟩

/-- A run gets to the start of a block on a circle. -/
def Circles (g : Graph) (m : Machine) : Prop :=
  ∃ n, m.Reaches g n ∧ n.pc = 0 ∧ g.Circle n.block

theorem run_of_start {args : List Word} {stage : Stage}
    (starts : Machine.start g args stage = .ok m) :
    g.run args stage = (m.runWithin g (Machine.bound g)).getD (.error (.fault .endless)) := by
  rw [run, starts, ok_bind]
  cases m.runWithin g (Machine.bound g) with
  | none => rfl
  | some o => rfl

namespace Accepted

variable (given : g.Accepted tree order)

include given

theorem drift_track (track : g.OnTrack m) (drifted : drift g m = some m') : g.OnTrack m' ∧
      ∃ B s S table, g.blocks[m.block]? = some B ∧ B.instrs[m.pc]? = none ∧ B.succs = [s] ∧
        g.blocks[s]? = some S ∧ m' = { m with block := s, pc := 0, values := table } ∧
        (S.instrs = [] → table = m.values) := by
  obtain ⟨stepped, same⟩ := drift_some drifted
  obtain ⟨track', ⟨more, -⟩ | fell⟩ := given.step_track track stepped
  · omega
  · exact ⟨track', fell⟩

theorem onTrack_drifting : Drifting g g.OnTrack := by
  refine ⟨fun m m' track drifted => (given.drift_track track drifted).1,
    fun m m' track _ => ?_, fun m m' track stops stepped => ?_⟩
  · obtain ⟨B, stored, within⟩ := track.within
    exact mem_points stored within
  · obtain ⟨track', counted | ⟨_, s, _, table, -, -, -, -, rfl, -⟩⟩ := given.step_track track stepped
    · exact ⟨counted.1, counted.2, track'⟩
    · simp [drift, stepped] at stops

variable (track : g.OnTrack m)

include track

theorem drifts_start {d : Nat}
    (drifted : drifts g (d + 1) m = some m') : m'.pc = 0 := by
  induction d generalizing m with
  | zero =>
    obtain ⟨next, first, later⟩ := Option.bind_eq_some_iff.mp drifted
    obtain rfl : next = m' := by simpa [drifts] using later
    obtain ⟨-, _, _, _, _, -, -, -, -, rfl, -⟩ := given.drift_track track first
    rfl
  | succ d ih =>
    obtain ⟨next, first, later⟩ := Option.bind_eq_some_iff.mp drifted
    exact ih (given.drift_track track first).1 later

/-- A drift from the start of a block to a block without instructions changes nothing but the
block. -/
theorem drifts_idle {d : Nat} {B : Block}
    (start : m.pc = 0) (drifted : drifts g (d + 1) m = some m')
    (stored : g.blocks[m'.block]? = some B) (empty : B.instrs = []) :
    m' = { m with block := m'.block } ∧ Relation.TransGen g.Idle m.block m'.block := by
  induction d generalizing m with
  | zero =>
    obtain ⟨next, first, later⟩ := Option.bind_eq_some_iff.mp drifted
    obtain rfl : next = m' := by simpa [drifts] using later
    obtain ⟨-, A, s, S, table, storedA, atEnd, succs, storedS, rfl, same⟩ :=
      given.drift_track track first
    obtain rfl := Option.mem_unique stored storedS
    rw [start] at atEnd
    refine ⟨by rw [same empty]; simp only [start], .single ⟨A, storedA, ?_, succs⟩⟩
    simpa using atEnd
  | succ d ih =>
    obtain ⟨next, first, later⟩ := Option.bind_eq_some_iff.mp drifted
    obtain ⟨track', A, s, S, table, storedA, atEnd, succs, storedS, rfl, same⟩ :=
      given.drift_track track first
    rw [start] at atEnd
    obtain ⟨same', further⟩ := ih track' rfl later
    -- the block in between has no instructions either, as the drift goes on from its start
    obtain ⟨_, idle, -⟩ := Relation.TransGen.head'_iff.mp further
    obtain ⟨S', storedS', none, -⟩ := idle
    obtain rfl := Option.mem_unique storedS storedS'
    refine ⟨?_, .head ⟨A, storedA, by simpa using atEnd, succs⟩ further⟩
    rw [same', same none]
    simp only [start]

theorem back_again {d : Nat}
    (drifted : drifts g (d + 1) m = some m') (same : (m.block, m.pc) = (m'.block, m'.pc)) :
    m' = m ∧ m.pc = 0 ∧ g.Circle m.block := by
  obtain ⟨block, pc⟩ := Prod.mk.inj same
  have start : m.pc = 0 := pc.trans (given.drifts_start track drifted)
  obtain ⟨next, first, -⟩ := Option.bind_eq_some_iff.mp drifted
  obtain ⟨-, B, _, _, _, stored, atEnd, -⟩ := given.drift_track track first
  rw [start] at atEnd
  obtain ⟨isM, circle⟩ :=
    given.drifts_idle track start drifted (block ▸ stored) (by simpa using atEnd)
  rw [← block] at isM circle
  exact ⟨isM, start, circle⟩

theorem ends_within_bound {bound : Nat}
    {o : Attempt RunError RunResult} (ends : m.runWithin g bound = some o) :
    m.runWithin g (Machine.bound g) = some o := by
  refine given.onTrack_drifting.ends_within (fun first second d track loop same bound => ?_)
    track ends
  obtain ⟨rfl, -⟩ := given.back_again track loop same
  exact goes_round (R := Eq) (fun k m n m' same drifted => ⟨m', same ▸ drifted, rfl⟩) loop rfl bound

theorem ends_of_not_circles
    (none : ¬g.Circles m) : ∃ o, m.runWithin g (Machine.bound g) = some o := by
  have short (n : Machine) (reaches : m.Reaches g n) : drifts g ((points g).length + 1) n =
    .none := by
    by_contra endless
    obtain ⟨last, endless⟩ := Option.ne_none_iff_exists'.mp endless
    have track' := given.onTrack_drifting.holds_after track reaches
    obtain ⟨i, d, first, second, before, loop, same⟩ :=
      given.onTrack_drifting.comes_back track' endless
    obtain ⟨-, start, circle⟩ :=
      given.back_again (given.onTrack_drifting.keep_drifts track' before) loop same
    exact none ⟨first, reaches.trans (drifts_reaches before).1, start, circle⟩
  obtain ⟨o, enough⟩ := given.onTrack_drifting.run_ends (maxSteps + 1) track (by omega) short
  exact ⟨o, given.ends_within_bound track enough⟩

theorem circle_endless (start : m.pc = 0)
    (circle : g.Circle m.block) (bound : Nat) : m.runWithin g bound = none := by
  induction bound generalizing m with
  | zero => rfl
  | succ bound ih =>
    obtain ⟨c, ⟨A, stored, empty, succs⟩, circle'⟩ := circle.exists_next
    obtain ⟨_, ⟨C, storedC, none, -⟩, -⟩ := circle'.exists_next
    obtain ⟨C', storedC', pred⟩ := given.consistent.pred_of_succ (s := c) stored (by simp [succs])
    obtain rfl := Option.mem_unique storedC storedC'
    have stepped : m.step g = .ok (.running { m with block := c, pc := 0 }) := by
      rw [step_end stored (by simp [empty]), fallThrough, succs]
      simp only [enter_eq track.onValues storedC pred, none]
      rfl
    rw [runWithin_running stepped]
    exact ih (given.step_track track stepped).1 rfl circle'

theorem circles_endless (circles : g.Circles m) (bound : Nat) : m.runWithin g bound = none := by
  obtain ⟨n, reaches, start, circle⟩ := circles
  by_contra ends
  obtain ⟨o, ends⟩ := Option.ne_none_iff_exists'.mp ends
  obtain ⟨bound', ends'⟩ := reaches.run_after ends
  rw [given.circle_endless (given.onTrack_drifting.holds_after track reaches) start circle
    bound'] at ends'
  simp at ends'

end Accepted

/-- A run on values that has started stops, unless it gets to a circle of blocks without
instructions: there it goes on for ever, and no limit cuts it off. Where results are values of the
program, a run that stops does so with a result or an error. -/
theorem run_stops_unless_circling (consistent : g.Consistent) (valid : g.validate = .ok ())
    (args : List Word) :
    (∀ m, Machine.start g args .values = .ok m →
      (g.Circles m → ∀ bound, m.runWithin g bound = none) ∧
      (¬g.Circles m → ∃ bound outcome, m.runWithin g bound = some outcome ∧
        g.run args .values = outcome)) ∧
    (g.ResultsListed →
      (∃ r, g.run args .values = .ok r) ∨ (∃ e : RunError, g.run args .values = .error (.error e)) ∨
        ∃ m, Machine.start g args .values = .ok m ∧ g.Circles m ∧
          g.run args .values = .error (.fault .endless)) := by
  obtain ⟨tree, order, isValid⟩ := validate_ok valid
  have given : g.Accepted tree order := ⟨consistent, isValid⟩
  constructor
  · intro m starts
    have track := start_onTrack starts
    refine ⟨given.circles_endless track, fun none => ?_⟩
    obtain ⟨o, ends⟩ := given.ends_of_not_circles track none
    exact ⟨Machine.bound g, o, ends, by rw [run_of_start starts, ends, Option.getD_some]⟩
  · intro results
    obtain ⟨params, parameters⟩ := given.parameters_exist
    rcases start_cases parameters args .values with ⟨-, refused⟩ | ⟨count, -⟩
    · exact .inr (.inl ⟨_, by rw [run, refused]; rfl⟩)
    obtain ⟨m, starts, track, equipped⟩ := start_track results parameters count.symm
    rw [run_of_start starts]
    by_cases circles : g.Circles m
    · refine .inr (.inr ⟨m, starts, circles, ?_⟩)
      rw [given.circles_endless track circles, Option.getD_none]
    · obtain ⟨o, ends⟩ := given.ends_of_not_circles track circles
      rw [ends, Option.getD_some]
      exact (given.ends_faultless results track equipped ends).imp_right .inl

/-- The limit of steps cuts off a program that stores over and over again. -/
theorem storing_stops :
    (storing.Consistent ∧ storing.validate = .ok () ∧ storing.ResultsListed) ∧
      ∀ args : List Word, (∃ r, storing.run args .values = .ok r) ∨
        ∃ e : RunError, storing.run args .values = .error (.error e) := by
  have consistent : storing.Consistent := ⟨by decide +kernel, by decide +kernel⟩
  have valid : storing.validate = .ok () := by decide +kernel
  have listed : storing.ResultsListed := resultsListed_of_mem (by decide +kernel)
  have busy : ∀ B ∈ storing.blocks, B.instrs ≠ [] := by decide +kernel
  refine ⟨⟨consistent, valid, listed⟩, fun args => ?_⟩
  rcases (run_stops_unless_circling consistent valid args).2 listed with
    result | error | ⟨_, -, ⟨n, -, -, circle⟩, -⟩
  · exact .inl result
  · exact .inr error
  · obtain ⟨_, ⟨A, stored, empty, -⟩, -⟩ := circle.exists_next
    exact absurd empty (busy A (Array.mem_of_getElem? stored))

def idling : Graph :=
  { new "idling" .aarch64 with blocks := #[⟨[], [], [1]⟩, ⟨[], [0, 1], [1]⟩] }

theorem idling_never_stops :
    idling.Consistent ∧ idling.validate = .ok () ∧
      ∃ m, Machine.start idling [] .values = .ok m ∧ ∀ bound, m.runWithin idling bound = none := by
  have consistent : idling.Consistent := ⟨by decide +kernel, by decide +kernel⟩
  have valid : idling.validate = .ok () := by decide +kernel
  obtain ⟨tree, order, isValid⟩ := validate_ok valid
  have given : idling.Accepted tree order := ⟨consistent, isValid⟩
  have starts : Machine.start idling [] .values = .ok (blank idling .values 0) := rfl
  have track := start_onTrack starts
  have stepped : (blank idling .values 0).step idling =
      .ok (.running { blank idling .values 0 with block := 1 }) := rfl
  have circle : idling.Circle 1 := .single ⟨⟨[], [0, 1], [1]⟩, rfl, rfl, rfl⟩
  exact ⟨consistent, valid, _, starts, given.circles_endless track
    ⟨_, .step stepped (.refl _), rfl, circle⟩⟩

end Graph

end RegisterAllocation
