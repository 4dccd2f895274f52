import RegisterAllocation.Machine.Step

/-!
Runs of a program, and the comparison of a run on values with a run as allocated.
-/

namespace RegisterAllocation

structure RunResult where
  result : Option Word
  steps : Nat
  groups : Nat
  memory : Array Word
  deriving DecidableEq, Repr

namespace Machine

def outcome (m : Machine) : RunResult := ⟨m.result, m.steps, m.groups, m.memory⟩

def runWithin (g : Graph) : (bound : Nat) → Machine → Option (Attempt RunError RunResult)
  | 0, _ => none
  | bound + 1, m =>
    match m.step g with
    | .ok (.running m) => runWithin g bound m
    | .ok (.finished m) => some (.ok m.outcome)
    | .error e => some (.error e)

/-- Between two counted steps a run passes through blocks of moves only. One that passes through
more of them than the program has, twice over, goes round for ever. -/
def bound (g : Graph) : Nat :=
  (maxSteps + 2) * (2 * (g.blocks.toList.map fun b => b.instrs.length + 1).foldr (· + ·) 0 + 2)

end Machine

/-- Runs a program. A run that never ends is a fault. -/
def Graph.run (g : Graph) (args : List Word) (stage : Stage) : Attempt RunError RunResult := do
  let m ← Machine.start g args stage
  match m.runWithin g (Machine.bound g) with
  | some outcome => outcome
  | none => .error (.fault .endless)

namespace RunResult

def touched (r : RunResult) : List (Nat × Word) :=
  (r.memory.toList.zipIdx.filter (·.1 ≠ 0)).map Prod.swap

/-- An allocated program has to do what the program does, in no fewer steps. -/
def checkSame (before after : RunResult) : Except Fault Unit := do
  ensure (before.steps ≤ after.steps) .runShorter
  ensure (before.result = after.result) .outcomeDiffers
  ensure (before.memory = after.memory) .memoryDiffers

end RunResult

/-- The run on values decides: the other one has to have the same outcome, or the same error. -/
def checkRuns (before after : Except RunError RunResult) : Except Fault Unit :=
  match before, after with
  | .ok b, .ok a => b.checkSame a
  | .ok _, .error e => .error (.runLost e.message)
  | .error e, .error f => ensure (e.message = f.message) .outcomeDiffers
  | .error _, .ok _ => .error .outcomeDiffers

/-- Runs a program and its allocated form on the same arguments and compares them. -/
def compareRuns (program allocated : Graph) (args : List Word) : Except Fault Unit := do
  let before ← Halt.split (program.run args .values)
  let after ← Halt.split (allocated.run args .locations)
  checkRuns before after

end RegisterAllocation
