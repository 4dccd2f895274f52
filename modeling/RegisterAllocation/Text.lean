/-!
Text of lists, and text cut into lines.
-/

namespace RegisterAllocation

namespace Text

def list (items : List String) : String := "[" ++ ", ".intercalate items ++ "]"

def ofLines (lines : List String) : String := String.join (lines.map (· ++ "\n"))

/-- The pieces between line ends; a line end at the very end opens no new piece. -/
def lines (text : String) : List String :=
  match (text.splitOn "\n").reverse with
  | "" :: pieces => pieces.reverse
  | pieces => pieces.reverse

def rightAligned (width : Nat) (text : String) : String :=
  "".pushn ' ' (width - text.length) ++ text

end Text

end RegisterAllocation
