import RegisterAllocation.Target

/-!
What the arguments of the command line ask for. An option is given at most once. Its value follows
it as the next argument or is attached to it, with or without an equals sign behind a short name and
with one behind a long name. Arguments that are no options are not understood.
-/

namespace RegisterAllocation

namespace CommandLine

inductive Key where
  | ints
  | floats
  | slots
  | arch
  | sample
  | save
  | load
  deriving DecidableEq, Repr

namespace Key

def ofShort? : Char → Option Key
  | 'i' => some ints
  | 'f' => some floats
  | 's' => some slots
  | 'a' => some arch
  | 't' => some sample
  | _ => none

def ofLong? : String → Option Key
  | "save" => some save
  | "load" => some load
  | _ => none

end Key

inductive Argument where
  | terminator
  | list
  | option (k : Key) (attached : Option String)
  | other
  deriving DecidableEq, Repr

namespace Argument

/-- An option by its long name, with its value behind an equals sign if there is one. -/
def ofLong (text : List Char) : Argument :=
  let name := String.ofList (text.takeWhile (· ≠ '='))
  match text.dropWhile (· ≠ '=') with
  | [] =>
    if name = "list" then list else ((Key.ofLong? name).map (option · none)).getD other
  | _ :: value =>
    ((Key.ofLong? name).map (option · (some (String.ofList value)))).getD other

def ofShort (c : Char) (text : List Char) : Argument :=
  match Key.ofShort? c, text with
  | none, _ => other
  | some k, [] => option k none
  | some k, '=' :: value => option k (some (String.ofList value))
  | some k, value => option k (some (String.ofList value))

def ofString (text : String) : Argument :=
  match text.toList with
  | ['-', '-'] => terminator
  | '-' :: '-' :: name => ofLong name
  | '-' :: c :: value => ofShort c value
  | _ => other

def isValue (text : String) : Bool := text = "-" || text.toList.head? ≠ some '-'

end Argument

structure Settings where
  values : List (Key × String)
  list : Bool
  deriving DecidableEq, Repr

namespace Settings

def empty : Settings := ⟨[], false⟩

def get? (s : Settings) (k : Key) : Option String := s.values.lookup k

def has (s : Settings) (k : Key) : Bool := (s.get? k).isSome

def add? (s : Settings) (k : Key) (value : String) : Option Settings :=
  if s.has k then none else some { s with values := (k, value) :: s.values }

def read? (s : Settings) : List String → Option Settings
  | [] => some s
  | text :: rest =>
    match Argument.ofString text with
    | .terminator => if rest.isEmpty then some s else none
    | .list => if s.list then none else read? { s with list := true } rest
    | .option k (some value) => (s.add? k value).bind (read? · rest)
    | .option k none =>
      match rest with
      | [] => none
      | value :: rest =>
        if Argument.isValue value then (s.add? k value).bind (read? · rest) else none
    | .other => none

end Settings

/-- A decimal number below `wordLimit`, which a plus sign may lead. -/
def number? (text : String) : Option Nat :=
  let digits := match text.toList with
    | '+' :: digits => digits
    | digits => digits
  if digits.isEmpty || digits.any (!·.isDigit) then none
  else
    let n := digits.foldl (fun n c => 10 * n + (c.toNat - '0'.toNat)) 0
    if n < wordLimit then some n else none

/-- How much the allocator may use; there is no limit where there is no number. -/
structure Limits where
  ints : Option Nat
  floats : Option Nat
  slots : Option Nat
  deriving DecidableEq, Repr

/-- The value of an option as a number. Fails if it has a value that is none. -/
def Settings.number? (s : Settings) (k : Key) : Option (Option Nat) :=
  match s.get? k with
  | none => some none
  | some text => (CommandLine.number? text).map some

def Settings.limits? (s : Settings) : Option Limits := do
  return ⟨← s.number? .ints, ← s.number? .floats, ← s.number? .slots⟩

inductive Command where
  | list
  | load (path : String)
  | allocate (arch : Arch) (limits : Option Limits) (sample : String) (save : Option String)
  deriving DecidableEq, Repr

namespace Command

/-- The architecture asked for. Other names of an architecture are not accepted here. -/
def archOf? (s : Settings) : Option Arch :=
  match s.get? .arch with
  | none => some .aarch64
  | some name => Arch.all.find? (·.name == name)

/-- A sample and a saved program exclude each other, and there has to be something to do. -/
def ofSettings? (s : Settings) : Option Command := do
  let arch ← archOf? s
  if s.has .sample && s.has .load then none
  if s.list then return list
  match s.get? .load, s.get? .sample with
  | some path, _ => return load path
  | none, some sample => return allocate arch s.limits? sample (s.get? .save)
  | none, none => none

def ofArguments? (args : List String) : Option Command :=
  (Settings.empty.read? args).bind ofSettings?

end Command

end CommandLine

end RegisterAllocation
