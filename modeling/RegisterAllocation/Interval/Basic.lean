import RegisterAllocation.Fault
import RegisterAllocation.Text

/-!
Intervals: where a value has to be kept, as half-open ranges of positions in increasing order with
holes between them, together with the positions that use the value and the location it is given.
Ranges that touch are merged, so the list of ranges is determined by the positions it covers.
-/

namespace RegisterAllocation

/-- The positions from `start` up to but not including `stop`. -/
structure Range where
  start : Position
  stop : Position
  deriving DecidableEq, Repr

namespace Range

def contains (r : Range) (pos : Position) : Bool := r.start ≤ pos && pos < r.stop

def text (r : Range) : String := s!"[{r.start}, {r.stop})"

/-- Puts a range into a list, swallowing the ranges that overlap or touch it. -/
def insert (r : Range) : List Range → List Range
  | [] => [r]
  | c :: rest =>
    if c.stop < r.start then c :: insert r rest
    else if r.stop < c.start then r :: c :: rest
    else insert ⟨min r.start c.start, max r.stop c.stop⟩ rest

def before? (pos : Position) (r : Range) : Option Range :=
  if r.start < pos then some ⟨r.start, min r.stop pos⟩ else none

def after? (pos : Position) (r : Range) : Option Range :=
  if pos < r.stop then some ⟨max r.start pos, r.stop⟩ else none

/-- Looks for a position from `lo` on that `a` shares with a range of a list. Where `a` ends
first, `next` goes on with what is left of the list. -/
def firstShared (lo : Position) (a : Range) (next : List Range → Option Position) :
    List Range → Option Position
  | [] => none
  | b :: rest =>
    let start := max (max a.start b.start) lo
    if start < min a.stop b.stop then some start
    else if a.stop ≤ b.stop then next (b :: rest)
    else firstShared lo a next rest

/-- The first position from `lo` on that two lists of ranges share. -/
def firstCommon (lo : Position) : List Range → List Range → Option Position
  | [] => fun _ => none
  | a :: rest => firstShared lo a (firstCommon lo rest)

end Range

structure Use where
  pos : Position
  needsRegister : Bool
  hint : Option Location
  deriving DecidableEq, Repr

namespace Use

def insert (u : Use) : List Use → List Use
  | [] => [u]
  | v :: rest => if u.pos < v.pos then u :: v :: rest else v :: insert u rest

def text (u : Use) : String :=
  toString u.pos ++ (if u.needsRegister then "r" else "")
    ++ (match u.hint with
      | some l => "->" ++ l.text
      | none => "")

end Use

/-- The odd position at or before `pos`, where moves can be made. -/
def gapBefore (pos : Position) : Position :=
  if pos % 2 = 1 then pos else pos - 1

structure Interval where
  value : Option ValueId
  ty : ValueType
  ranges : List Range
  uses : List Use
  location : Location
  preferred : Option Location
  sibling : Option IntervalId
  root : IntervalId
  definedBy : Option InstrId
  pinned : Bool
  physical : Bool
  splitOff : Bool
  deriving DecidableEq, Repr

namespace Interval

def ofValue (id : IntervalId) (value : ValueId) (ty : ValueType) (definedBy : InstrId) :
    Interval where
  value := some value
  ty := ty
  ranges := []
  uses := []
  location := .invalid
  preferred := none
  sibling := none
  root := id
  definedBy := some definedBy
  pinned := false
  physical := false
  splitOff := false

def ofRegister (id : IntervalId) (location : Location) (ty : ValueType) : Interval where
  value := none
  ty := ty
  ranges := []
  uses := []
  location := location
  preferred := none
  sibling := none
  root := id
  definedBy := none
  pinned := true
  physical := true
  splitOff := false

def regClass (i : Interval) : RegisterClass := i.ty.regClass

def start (i : Interval) : Position := (i.ranges.head?.map Range.start).getD 0

def stop (i : Interval) : Position := (i.ranges.getLast?.map Range.stop).getD 0

def isEmpty (i : Interval) : Bool := i.ranges.isEmpty

def isPlaced (i : Interval) : Bool := !i.location.isInvalid

def covers (i : Interval) (pos : Position) : Bool := i.ranges.any (·.contains pos)

def place (i : Interval) (l : Location) : Except Fault Interval := do
  ensure (i.physical = false) .brokenRule
  return { i with location := l }

def pin (i : Interval) (l : Location) : Interval :=
  { i with location := l, pinned := true }

def prefer (i : Interval) (l : Location) : Interval :=
  { i with preferred := some l }

def addRange (i : Interval) (lo hi : Position) : Except Fault Interval := do
  ensure (lo < hi) (.emptyRange lo hi)
  return { i with ranges := Range.insert ⟨lo, hi⟩ i.ranges }

/-- Starts an interval at the definition of its value. A value that is never needed after its
definition is kept for that position alone. -/
def startAt (i : Interval) (pos : Position) : Except Fault Interval :=
  match i.ranges with
  | r :: rest =>
    if r.contains pos then .ok { i with ranges := { r with start := pos } :: rest }
    else do i.addRange pos (← addWord pos 1)
  | [] => do i.addRange pos (← addWord pos 1)

def addUse (i : Interval) (u : Use) : Interval :=
  { i with uses := u.insert i.uses }

def nextUse? (i : Interval) (pos : Position) : Option Position :=
  (i.uses.find? fun u => u.needsRegister && pos ≤ u.pos).map Use.pos

def lastUseBefore? (i : Interval) (pos : Position) : Option Position :=
  (i.uses.reverse.find? (·.pos < pos)).map Use.pos

def hint? (i : Interval) : Option Location :=
  i.preferred.or (i.uses.findSome? Use.hint)

/-- The first position from `lo` on that both intervals cover. -/
def meets? (i j : Interval) (lo : Position) : Option Position :=
  Range.firstCommon lo i.ranges j.ranges

/-- What stays of an interval that is split at `pos`. -/
def upTo (i : Interval) (pos : Position) : Interval :=
  { i with
    ranges := i.ranges.filterMap (Range.before? pos)
    uses := i.uses.takeWhile (·.pos < pos) }

/-- What goes to the new sibling when an interval is split at `pos`. -/
def rest (i : Interval) (pos : Position) : Interval :=
  { i with
    ranges := i.ranges.filterMap (Range.after? pos)
    uses := i.uses.dropWhile (·.pos < pos)
    location := .invalid
    preferred := none
    definedBy := none
    pinned := false
    physical := false
    splitOff := true }

def rangesText (i : Interval) : String := Text.list (i.ranges.map Range.text)

def usesText (i : Interval) : String := Text.list (i.uses.map Use.text)

def text (i : Interval) : String :=
  (match i.value with
    | some v => ValueId.text v ++ ":" ++ i.ty.name
    | none => "fixed")
    ++ " " ++ i.rangesText ++ " @" ++ i.location.text
    ++ (if i.uses.isEmpty then "" else " uses " ++ i.usesText)
    ++ (match i.sibling with
      | some s => " next " ++ IntervalId.text s
      | none => "")

end Interval

end RegisterAllocation
