import RegisterAllocation.Codec
import RegisterAllocation.Graph.Basic

/-!
The binary form of programs: the parts of a structure follow each other in the order in which they
are declared here.
-/

namespace RegisterAllocation

namespace ValueType

def codec : Codec ValueType := .oneOf all

end ValueType

namespace Condition

def codec : Codec Condition := .oneOf all

end Condition

namespace Location

def codec : Codec Location :=
  ((Codec.oneOf Kind.all).pair .index).via (fun l => (l.kind, l.index)) fun (k, n) => some ⟨k, n⟩

end Location

namespace Opcode

def tag : Opcode → Nat
  | parameter => 0
  | constant _ => 1
  | nullPtr => 2
  | add => 3
  | sub => 4
  | mul => 5
  | and => 6
  | compare _ => 7
  | select _ => 8
  | load => 9
  | loadPair => 10
  | store => 11
  | call _ => 12
  | branch _ => 13
  | phi => 14
  | ret => 15
  | retVoid => 16
  | spillFill => 17

def encodePayload : Opcode → Bytes
  | constant c => Codec.word.encode c
  | compare c | select c | branch c => Condition.codec.encode c
  | call callee => Codec.index.encode callee
  | _ => []

def decodePayload (bytes : Bytes) : (tag : Nat) → Option (Opcode × Bytes)
  | 0 => some (parameter, bytes)
  | 1 => (Codec.word.decode bytes).map fun (c, rest) => (constant c, rest)
  | 2 => some (nullPtr, bytes)
  | 3 => some (add, bytes)
  | 4 => some (sub, bytes)
  | 5 => some (mul, bytes)
  | 6 => some (and, bytes)
  | 7 => (Condition.codec.decode bytes).map fun (c, rest) => (compare c, rest)
  | 8 => (Condition.codec.decode bytes).map fun (c, rest) => (select c, rest)
  | 9 => some (load, bytes)
  | 10 => some (loadPair, bytes)
  | 11 => some (store, bytes)
  | 12 => (Codec.index.decode bytes).map fun (n, rest) => (call n, rest)
  | 13 => (Condition.codec.decode bytes).map fun (c, rest) => (branch c, rest)
  | 14 => some (phi, bytes)
  | 15 => some (ret, bytes)
  | 16 => some (retVoid, bytes)
  | 17 => some (spillFill, bytes)
  | _ => none

def codec : Codec Opcode where
  encode op := Codec.index.encode op.tag ++ op.encodePayload
  decode bytes := do
    let (tag, bytes) ← Codec.index.decode bytes
    decodePayload bytes tag

end Opcode

namespace Move

def codec : Codec Move :=
  (Location.codec.pair (Location.codec.pair ValueType.codec)).via
    (fun m => (m.src, m.dst, m.ty)) fun (src, dst, ty) => some ⟨src, dst, ty⟩

end Move

namespace MoveGroup

def codec : Codec MoveGroup :=
  ((Codec.oneOf Purpose.all).pair (Move.codec.list.pair .flag)).via
    (fun g => (g.purpose, g.moves, g.sequenced)) fun (p, ms, s) => some ⟨p, ms, s⟩

end MoveGroup

namespace Instr

def codec : Codec Instr :=
  (Opcode.codec.pair <| Codec.index.pair <| ValueType.codec.pair <| Codec.index.list.pair <|
    Codec.index.list.pair <| Location.codec.list.pair <| Location.codec.list.pair <|
    MoveGroup.codec.option).via
    (fun x => (x.opcode, x.block, x.ty, x.inputs, x.results, x.inputLocations,
      x.resultLocations, x.group))
    fun (opcode, block, ty, inputs, results, inputLocations, resultLocations, group) =>
      some { opcode, block, ty, inputs, results, inputLocations, resultLocations, group }

end Instr

namespace Definition

def codec : Codec Definition :=
  (Codec.index.pair ValueType.codec).via (fun d => (d.definedBy, d.ty)) fun (i, ty) => some ⟨i, ty⟩

end Definition

namespace Block

def codec : Codec Block :=
  (Codec.index.list.pair (Codec.index.list.pair Codec.index.list)).via
    (fun b => (b.instrs, b.preds, b.succs)) fun (instrs, preds, succs) =>
      some ⟨instrs, preds, succs⟩

end Block

namespace Graph

def codec : Codec Graph :=
  (Codec.string.pair <| (Codec.oneOf Arch.all).pair <| Block.codec.array.pair <|
    Instr.codec.array.pair <| Definition.codec.array.pair <| Codec.index.pair <|
    Codec.word.list.pair <| Codec.index.pair <| Codec.index.pair Codec.index).via
    (fun g => (g.name, g.arch, g.blocks, g.instrs, g.values, g.entry, g.immediates, g.numSlots,
      g.numParams, g.numArgs))
    fun (name, arch, blocks, instrs, values, entry, immediates, numSlots, numParams, numArgs) =>
      some { name, arch, blocks, instrs, values, entry, immediates, numSlots, numParams, numArgs }

end Graph

end RegisterAllocation
