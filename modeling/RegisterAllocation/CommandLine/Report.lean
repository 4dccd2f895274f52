import RegisterAllocation.Allocate
import RegisterAllocation.CommandLine.Arguments
import RegisterAllocation.Graph.Encoding
import RegisterAllocation.Graph.Listing
import RegisterAllocation.Graph.Validity
import RegisterAllocation.Machine.Run
import RegisterAllocation.Samples

/-!
What the commands print. A fault ends a command; what was printed before it stays.
-/

namespace RegisterAllocation

/-- An allocated program with the arguments it is run on. -/
structure SavedRun where
  graph : Graph
  args : List Word
  deriving DecidableEq, Repr

namespace SavedRun

def codec : Codec SavedRun :=
  (Graph.codec.pair (.list .word)).via (fun s => (s.graph, s.args)) fun (g, args) => some ⟨g, args⟩

def maxLength : Nat := UInt64.size / 2 - 1

/-- Reads a saved run. The bytes start with the length of the name of the program. -/
def ofBytes? (bytes : Bytes) : Except Fault (Option SavedRun) := do
  if let some (length, _) := Codec.length.decode bytes then
    ensure (length ≤ maxLength) .overflow
  return (codec.decode bytes).map Prod.fst

end SavedRun

namespace CommandLine

abbrev Printer := ExceptT Fault (StateM (List String))

namespace Printer

def say (lines : List String) : Printer Unit := modify (· ++ lines)

def sayListing (l : Listing) : Printer Unit := do
  say l.lines
  match l.fault with
  | some f => throw f
  | none => say [""]

end Printer

open Printer

def resultText : Option Word → String
  | some w => s!"Some({w})"
  | none => "None"

def runText : Except RunError RunResult → String
  | .ok r => "Ok(" ++ resultText r.result ++ ")"
  | .error e => s!"Err(\"" ++ e.message ++ "\")"

abbrev Output := Option (String × Bytes)

def list : Printer Output := do
  say Sample.names
  return none

def options (target : Target) (l : Limits) : Options :=
  { Options.default with
    ints := l.ints.map (target.allocatable .int).take
    floats := l.floats.map (target.allocatable .float).take
    slotBudget := l.slots.getD Options.default.slotBudget }

/-- Runs a program before and after its allocation and compares the runs. -/
def compare (program allocated : Graph) (args : List Word) : Printer Unit := do
  let before ← ofExcept (Halt.split (program.run args .values))
  let after ← ofExcept (Halt.split (allocated.run args .locations))
  say ["before: " ++ runText before, "after: " ++ runText after]
  ofExcept (checkRuns before after)

def allocateProgram (program : Graph) (args : List Word) (o : Options) (save : Option String) :
    Printer Output := do
  say ["before allocation:"]
  sayListing program.listing
  let (allocated, outcome) ← ofExcept (program.allocate o)
  match outcome with
  | .error e =>
    say ["allocation failed: " ++ e.message]
    return none
  | .ok _ =>
    say ["after allocation:"]
    sayListing allocated.listing
    compare program allocated args
    return save.map fun path => (path, SavedRun.codec.encode ⟨allocated, args⟩)

def allocate (arch : Arch) (l : Limits) (sample : String) (save : Option String) :
    Printer Output := do
  match Sample.find? sample with
  | none =>
    say ("available test cases are:" :: Sample.sortedNames.map ("     " ++ ·))
    return none
  | some s =>
    let (args, program) ← ofExcept (s.program arch)
    match ← ofExcept (Halt.split program.validate) with
    | .error d =>
      say ["invalid graph: " ++ d.message]
      return none
    | .ok () => allocateProgram program args (options (.ofArch arch) l) save

def checkSaved (s : SavedRun) : Printer Output := do
  sayListing s.graph.listing
  match ← ofExcept s.graph.allocationDefects with
  | [] =>
    say ["allocation is valid"]
    match ← ofExcept (Halt.split (s.graph.run s.args .locations)) with
    | .ok r => say ["result: " ++ resultText r.result]
    | .error e => say ["run failed: " ++ e.message]
  | defects => say ["allocation is invalid: " ++ AllocationDefect.report defects]
  return none

/-- Reads a saved program off the contents of a file, or says why there are none. -/
def load (path : String) (contents : Except String Bytes) : Printer Output := do
  let problem ← match contents with
    | .error reason => pure reason
    | .ok bytes =>
      match ← ofExcept (SavedRun.ofBytes? bytes) with
      | some s => return ← checkSaved s
      | none => pure "not a saved program"
  say [s!"can't load {path}: {problem}"]
  return none

def Command.input? : Command → Option String
  | .load path => some path
  | _ => none

/-- What a command prints. `contents` are those of its input file. -/
def Command.print (contents : Except String Bytes) : Command → Printer Output
  | .list => CommandLine.list
  | .load path => CommandLine.load path contents
  | .allocate _ none _ _ => do
    say ["invalid iregs/fregs/slots values"]
    return none
  | .allocate arch (some l) sample save => CommandLine.allocate arch l sample save

structure Report where
  lines : List String
  fault : Option Fault
  output : Output
  deriving DecidableEq, Repr

namespace Report

def usageCode : Nat := 2

def saveProblem (path reason : String) : String := s!"can't save to {path}: {reason}"

def code (r : Report) : Nat := if r.fault.isSome then 101 else 0

end Report

def Command.report (contents : Except String Bytes) (c : Command) : Report :=
  match (c.print contents).run.run [] with
  | (.ok output, lines) => ⟨lines, none, output⟩
  | (.error f, lines) => ⟨lines, some f, none⟩

end CommandLine

end RegisterAllocation
