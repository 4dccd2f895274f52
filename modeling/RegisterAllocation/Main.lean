import RegisterAllocation.CommandLine.Report

/-!
The command line: reads the input file of a command if it has one, prints what the command prints,
and writes its output file.
-/

namespace RegisterAllocation

namespace CommandLine

def reasonOf (e : IO.Error) : String := ((toString e).splitOn "\n").headD ""

def contentsOf (path : String) : IO (Except String Bytes) := do
  try
    return .ok (← IO.FS.readBinFile path).data.toList
  catch e =>
    return .error (reasonOf e)

def writeOutput : Output → IO Unit
  | none => return
  | some (path, bytes) => do
    try
      IO.FS.writeBinFile path ⟨bytes.toArray⟩
    catch e =>
      IO.println (Report.saveProblem path (reasonOf e))

def finish (r : Report) : IO UInt32 := do
  r.lines.forM IO.println
  writeOutput r.output
  if let some f := r.fault then
    IO.eprintln (f.message.getD "a precondition does not hold")
  return r.code.toUInt32

end CommandLine

end RegisterAllocation

open RegisterAllocation CommandLine in
def main (args : List String) : IO UInt32 := do
  match Command.ofArguments? args with
  | none =>
    IO.eprintln "usage: [-i N] [-f N] [-s N] [-a ARCH] [--save FILE] (-t NAME | --load FILE | --list)"
    return Report.usageCode.toUInt32
  | some command =>
    let contents ← match command.input? with
      | some path => contentsOf path
      | none => pure (.error "no input file")
    finish (command.report contents)
