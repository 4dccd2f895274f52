import RegisterAllocation.Opcode

/-!
Binary forms. A codec writes a value as bytes and reads it back off the front of some bytes.
Numbers have a fixed width and their low byte first; lists and texts are led by their length; a
choice is led by its place among the alternatives.
-/

namespace RegisterAllocation

abbrev Bytes := List UInt8

structure Codec (α : Type) where
  encode : α → Bytes
  decode : Bytes → Option (α × Bytes)

namespace Codec

variable {α β : Type}

def encodeNat : (width : Nat) → Nat → Bytes
  | 0, _ => []
  | width + 1, n => UInt8.ofNat n :: encodeNat width (n / 256)

def decodeNat : (width : Nat) → Bytes → Option (Nat × Bytes)
  | 0, bytes => some (0, bytes)
  | _ + 1, [] => none
  | width + 1, b :: bytes =>
    (decodeNat width bytes).map fun (n, rest) => (b.toNat + 256 * n, rest)

def nat (width : Nat) : Codec Nat := ⟨encodeNat width, decodeNat width⟩

def index : Codec Nat := nat 4

def length : Codec Nat := nat 8

def via (c : Codec β) (toForm : α → β) (ofForm : β → Option α) : Codec α where
  encode a := c.encode (toForm a)
  decode bytes := do
    let (b, rest) ← c.decode bytes
    return (← ofForm b, rest)

def word : Codec Word := (nat 8).via (·.toUInt64.toNat) fun n => some n.toUInt64.toInt64

def oneOf [DecidableEq α] (alternatives : List α) : Codec α :=
  index.via alternatives.idxOf (alternatives[·]?)

def flag : Codec Bool :=
  (nat 1).via (fun b => if b then 1 else 0) fun
    | 0 => some false
    | 1 => some true
    | _ => none

def pair (a : Codec α) (b : Codec β) : Codec (α × β) where
  encode x := a.encode x.1 ++ b.encode x.2
  decode bytes := do
    let (x, bytes) ← a.decode bytes
    let (y, bytes) ← b.decode bytes
    return ((x, y), bytes)

def option (c : Codec α) : Codec (Option α) where
  encode
    | none => flag.encode false
    | some a => flag.encode true ++ c.encode a
  decode bytes := do
    let (present, bytes) ← flag.decode bytes
    if present then
      let (a, bytes) ← c.decode bytes
      return (some a, bytes)
    else
      return (none, bytes)

def decodeMany (c : Codec α) : (count : Nat) → Bytes → Option (List α × Bytes)
  | 0, bytes => some ([], bytes)
  | count + 1, bytes => do
    let (a, bytes) ← c.decode bytes
    let (as, bytes) ← decodeMany c count bytes
    return (a :: as, bytes)

def list (c : Codec α) : Codec (List α) where
  encode as := length.encode as.length ++ as.flatMap c.encode
  decode bytes := do
    let (count, bytes) ← length.decode bytes
    decodeMany c count bytes

def array (c : Codec α) : Codec (Array α) := c.list.via Array.toList (some ·.toArray)

def string : Codec String where
  encode s := length.encode s.utf8ByteSize ++ s.toUTF8.data.toList
  decode bytes := do
    let (count, bytes) ← length.decode bytes
    if count ≤ bytes.length then
      let s ← String.fromUTF8? ⟨(bytes.take count).toArray⟩
      return (s, bytes.drop count)
    else
      none

end Codec

end RegisterAllocation
