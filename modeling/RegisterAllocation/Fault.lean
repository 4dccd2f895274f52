import RegisterAllocation.Move

/-!
Faults: the ways in which a computation can meet a state it was promised never to see. A fault is
a cause; `Fault.message` gives its wording where it has one. Computations that can also end in an
ordinary error of their own keep the two apart with `Halt`.

Names of table entries are their indices. Every stored number fits 32 bits.
-/

namespace RegisterAllocation

abbrev BlockId := Nat
abbrev InstrId := Nat
abbrev ValueId := Nat
abbrev IntervalId := Nat

/-- A place in the numbered program. Instructions have even positions; the odd ones are the gaps
between them. -/
abbrev Position := Nat

namespace BlockId
def text (b : BlockId) : String := s!"bb{b}"
end BlockId

namespace InstrId
def text (i : InstrId) : String := s!"i{i}"
end InstrId

namespace ValueId
def text (v : ValueId) : String := s!"v{v}"
end ValueId

namespace IntervalId
def text (i : IntervalId) : String := s!"li{i}"
end IntervalId

inductive Fault where
  | outOfRange
  | overflow
  | brokenRule
  | endless
  | emptyRange (lo hi : Position)
  | splitsFixed
  | splitOutOfRange (interval : String) (pos : Position)
  | registerOutOfRange (l : Location)
  | slotOutOfRange (l : Location)
  | groupClosed
  | sequencedTwice
  | writtenTwice (l : Location)
  | readOnlyWritten (m : Move)
  | notInBlock (i : InstrId) (b : BlockId)
  | noEdge (pred succ : BlockId)
  | neverDefined (v : ValueId)
  | noProgress
  | cannotSpill (i : IntervalId)
  | valueNotOnEdge (v : ValueId) (pred succ : BlockId)
  | phiNotOnEdge (i : InstrId) (pred succ : BlockId)
  | allocationFailed (program reason : String)
  | runLost (reason : String)
  | runShorter
  | memoryDiffers
  | outcomeDiffers
  deriving DecidableEq, Repr

namespace Fault

def message : Fault → Option String
  | outOfRange | overflow | brokenRule | endless | outcomeDiffers => none
  | emptyRange lo hi => some s!"empty range [{lo}, {hi})"
  | splitsFixed => some "splitting a fixed interval"
  | splitOutOfRange interval pos => some s!"split of {interval} at {pos} out of range"
  | registerOutOfRange l => some ("register " ++ l.text ++ " out of range")
  | slotOutOfRange l => some ("slot " ++ l.text ++ " out of range")
  | groupClosed => some "adding moves to a resolved spill-fill"
  | sequencedTwice => some "spill-fill resolved twice"
  | writtenTwice l => some ("two moves write " ++ l.text)
  | readOnlyWritten m => some (m.text ++ " writes a read-only location")
  | notInBlock i b => some (InstrId.text i ++ " is not in its block " ++ BlockId.text b)
  | noEdge pred succ => some ("no edge " ++ BlockId.text pred ++ " -> " ++ BlockId.text succ)
  | neverDefined v => some (ValueId.text v ++ " used but never defined")
  | noProgress => some "main loop must make progress"
  | cannotSpill i => some ("can't spill " ++ IntervalId.text i)
  | valueNotOnEdge v pred succ =>
    some (ValueId.text v ++ " has no location on " ++ BlockId.text pred ++ " -> "
      ++ BlockId.text succ)
  | phiNotOnEdge i pred succ =>
    some ("phi " ++ InstrId.text i ++ " has no location on " ++ BlockId.text pred ++ " -> "
      ++ BlockId.text succ)
  | allocationFailed program reason =>
    some s!"register allocation failed for {program}: {reason}"
  | runLost reason => some s!"code after regalloc should have succeeded: \"{reason}\""
  | runShorter => some "inconsistent trace"
  | memoryDiffers => some "Different memory contents before/after regalloc"

end Fault

/-- The two ways a computation with errors of type `ε` ends early. -/
inductive Halt (ε : Type) where
  | fault (f : Fault)
  | error (e : ε)
  deriving DecidableEq, Repr

/-- A computation that may meet a fault or end in an error. -/
abbrev Attempt (ε α : Type) := Except (Halt ε) α

instance {ε : Type} : MonadLift (Except Fault) (Except (Halt ε)) where
  monadLift
    | .ok a => .ok a
    | .error f => .error (.fault f)

def refuse {ε α : Type} (e : ε) : Attempt ε α := .error (.error e)

def Halt.split {ε α : Type} : Attempt ε α → Except Fault (Except ε α)
  | .ok a => .ok (.ok a)
  | .error (.error e) => .ok (.error e)
  | .error (.fault f) => .error f

def need {α : Type} : Option α → Except Fault α
  | some a => .ok a
  | none => .error .outOfRange

def ensure (p : Prop) [Decidable p] (f : Fault) : Except Fault Unit :=
  if p then .ok () else .error f

def wordLimit : Nat := UInt32.size

def addWord (a b : Nat) : Except Fault Nat :=
  if a + b < wordLimit then .ok (a + b) else .error .overflow

@[simp] theorem need_some {α : Type} (a : α) : need (some a) = .ok a := rfl

@[simp] theorem need_none {α : Type} : need (none : Option α) = .error .outOfRange := rfl

theorem need_eq_ok {α : Type} {o : Option α} {a : α} : need o = .ok a ↔ o = some a := by
  cases o <;> simp [need]

theorem ensure_eq_ok {p : Prop} [Decidable p] {f : Fault} : ensure p f = .ok () ↔ p := by
  unfold ensure
  split <;> simp_all

end RegisterAllocation
