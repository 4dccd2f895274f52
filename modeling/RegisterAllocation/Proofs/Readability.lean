import RegisterAllocation.CommandLine.Report

/-!
Saved programs can be read in one way only. Each way to build a codec keeps the law that a value
can be read off the front of its bytes, so programs, which are built up from numbers that fit their
width and lists whose lengths fit theirs, can be told apart by their bytes, whatever follows these.
-/

namespace RegisterAllocation

namespace Codec

variable {α β : Type} {a : Codec α} {b : Codec β} {x y : α} {z : β} {n width : Nat}
  {rest rest' : Bytes}

def Reads (c : Codec α) (x : α) : Prop :=
  ∀ rest, c.decode (c.encode x ++ rest) = some (x, rest)

theorem Reads.eq_of_encode (readsX : a.Reads x) (readsY : a.Reads y)
    (same : a.encode x ++ rest = a.encode y ++ rest') : x = y ∧ rest = rest' := by
  have read := readsX rest
  rw [same, readsY rest'] at read
  exact ⟨(Prod.mk.inj (Option.some.inj read)).1.symm, (Prod.mk.inj (Option.some.inj read)).2.symm⟩

theorem reads_nat (fits : n < Nat.pow 256 width) : (nat width).Reads n := by
  intro rest
  change decodeNat width (encodeNat width n ++ rest) = _
  induction width generalizing n with
  | zero =>
    obtain rfl : n = 0 := by simpa using fits
    rfl
  | succ width ih =>
    have high : n / 256 < Nat.pow 256 width := Nat.div_lt_of_lt_mul (Nat.mul_comm _ _ ▸ fits)
    have low : (UInt8.ofNat n).toNat + 256 * (n / 256) = n := by
      rw [UInt8.toNat_ofNat']
      exact Nat.mod_add_div n 256
    rw [encodeNat, List.cons_append, decodeNat, ih high, Option.map_some]
    exact congrArg some (Prod.ext low rfl)

theorem reads_index (fits : n < wordLimit) : index.Reads n := reads_nat fits

theorem reads_length (fits : n < UInt64.size) : length.Reads n := reads_nat fits

theorem Reads.of_via {toForm : β → α} {ofForm : α → Option β} (reads : a.Reads (toForm z))
    (back : ofForm (toForm z) = some z) : (a.via toForm ofForm).Reads z := by
  intro rest
  simp [via, reads rest, back]

theorem reads_word (w : Word) : word.Reads w := by
  refine (reads_nat w.toUInt64.toNat_lt).of_via ?_
  simp

theorem reads_oneOf [DecidableEq α] {alternatives : List α} (few : alternatives.length < wordLimit)
    (member : x ∈ alternatives) : (oneOf alternatives).Reads x := by
  have place := List.idxOf_lt_length_of_mem member
  unfold oneOf
  refine .of_via (reads_index (Nat.lt_trans place few)) ?_
  rw [List.getElem?_eq_getElem place, List.getElem_idxOf]

theorem reads_flag (present : Bool) : flag.Reads present := by
  cases present
  · exact (reads_nat (by decide)).of_via rfl
  · exact (reads_nat (by decide)).of_via rfl

theorem Reads.of_pair (readsX : a.Reads x) (readsZ : b.Reads z) : (a.pair b).Reads (x, z) := by
  intro rest
  simp [pair, readsX _, readsZ rest]

theorem reads_option {x? : Option α} (each : ∀ x ∈ x?, a.Reads x) : a.option.Reads x? := by
  intro rest
  cases x? with
  | none => simp [option, reads_flag false _]
  | some x => simp [option, reads_flag true _, each x rfl rest]

structure Listable (fits : α → Prop) (xs : List α) : Prop where
  length : xs.length < UInt64.size
  each : ∀ x ∈ xs, fits x

theorem reads_list {fits : α → Prop} {xs : List α} (reads : ∀ x, fits x → a.Reads x)
    (listable : Listable fits xs) : a.list.Reads xs := by
  have many : ∀ (xs : List α) (rest : Bytes), (∀ x ∈ xs, fits x) →
      decodeMany a xs.length (xs.flatMap a.encode ++ rest) = some (xs, rest) := by
    intro xs rest each
    induction xs with
    | nil => rfl
    | cons x xs ih =>
      obtain ⟨first, others⟩ := List.forall_mem_cons.mp each
      simp [decodeMany, reads x first _, ih others]
  intro rest
  simp [list, reads_length listable.length _, many xs rest listable.each]

theorem reads_array {fits : α → Prop} {xs : Array α} (reads : ∀ x, fits x → a.Reads x)
    (listable : Listable fits xs.toList) : a.array.Reads xs :=
  (reads_list reads listable).of_via rfl

theorem reads_string {s : String} (short : s.utf8ByteSize < UInt64.size) : string.Reads s := by
  intro rest
  have size : s.toUTF8.data.toList.length = s.utf8ByteSize := String.size_toByteArray
  have valid : String.fromUTF8? s.toUTF8 = some s := dif_pos s.isValidUTF8
  have counted := reads_length short (s.toUTF8.data.toList ++ rest)
  simp only [string, List.append_assoc, counted, Option.bind_eq_bind, Option.bind_some]
  rw [← size, if_pos (by rw [List.length_append]; exact Nat.le_add_right _ _), List.take_left,
    List.drop_left]
  exact congrArg (Option.bind · _) valid

end Codec

open Codec

def Location.Storable (l : Location) : Prop := l.index < wordLimit

def Opcode.Storable : Opcode → Prop
  | .call callee => callee < wordLimit
  | _ => True

def Move.Storable (m : Move) : Prop := m.src.Storable ∧ m.dst.Storable

structure Instr.Storable (x : Instr) : Prop where
  opcode : x.opcode.Storable
  block : x.block < wordLimit
  inputs : Listable (· < wordLimit) x.inputs
  results : Listable (· < wordLimit) x.results
  inputLocations : Listable Location.Storable x.inputLocations
  resultLocations : Listable Location.Storable x.resultLocations
  group : ∀ group ∈ x.group, Listable Move.Storable group.moves

structure Block.Storable (b : Block) : Prop where
  instrs : Listable (· < wordLimit) b.instrs
  preds : Listable (· < wordLimit) b.preds
  succs : Listable (· < wordLimit) b.succs

/-- Programs whose numbers and lengths fit their widths. -/
structure Graph.Storable (g : Graph) : Prop where
  name : g.name.utf8ByteSize ≤ SavedRun.maxLength
  blocks : Listable Block.Storable g.blocks.toList
  instrs : Listable Instr.Storable g.instrs.toList
  values : Listable (·.definedBy < wordLimit) g.values.toList
  entry : g.entry < wordLimit
  immediates : g.immediates.length < UInt64.size
  numSlots : g.numSlots < wordLimit
  numParams : g.numParams < wordLimit
  numArgs : g.numArgs < wordLimit

theorem ValueType.codec_reads (ty : ValueType) : codec.Reads ty :=
  reads_oneOf (by decide) (by cases ty <;> decide)

theorem Condition.codec_reads (c : Condition) : codec.Reads c :=
  reads_oneOf (by decide) (by cases c <;> decide)

theorem Location.codec_reads (l : Location) (fits : l.Storable) : codec.Reads l :=
  .of_via (.of_pair (reads_oneOf (by decide) (by cases l.kind <;> decide)) (reads_index fits)) rfl

theorem Opcode.codec_reads (op : Opcode) (fits : op.Storable) : codec.Reads op := by
  intro rest
  have payload : decodePayload (op.encodePayload ++ rest) op.tag = some (op, rest) := by
    cases op with
    | constant c => simp [decodePayload, encodePayload, tag, reads_word c rest]
    | compare c | select c | branch c =>
      simp [decodePayload, encodePayload, tag, c.codec_reads rest]
    | call callee => simp [decodePayload, encodePayload, tag, reads_index fits rest]
    | _ => rfl
  have known : index.Reads op.tag := reads_index (by cases op <;> simp [tag, wordLimit, UInt32.size])
  simp [codec, known _, payload]

theorem Move.codec_reads (m : Move) (fits : m.Storable) : codec.Reads m :=
  .of_via (.of_pair (m.src.codec_reads fits.1)
  (.of_pair (m.dst.codec_reads fits.2) m.ty.codec_reads)) rfl

theorem MoveGroup.codec_reads (g : MoveGroup) (fits : Listable Move.Storable g.moves) :
    codec.Reads g :=
  .of_via (.of_pair (reads_oneOf (by decide) (by cases g.purpose <;> decide))
    (.of_pair (reads_list Move.codec_reads fits) (reads_flag g.sequenced))) rfl

theorem Instr.codec_reads (x : Instr) (fits : x.Storable) : codec.Reads x :=
  .of_via (.of_pair (x.opcode.codec_reads fits.opcode) <| .of_pair (reads_index fits.block) <|
    .of_pair x.ty.codec_reads <| .of_pair (reads_list (fun _ => reads_index) fits.inputs) <|
    .of_pair (reads_list (fun _ => reads_index) fits.results) <|
    .of_pair (reads_list Location.codec_reads fits.inputLocations) <|
    .of_pair (reads_list Location.codec_reads fits.resultLocations) <|
    reads_option fun group isGroup => group.codec_reads (fits.group group isGroup)) rfl

theorem Block.codec_reads (b : Block) (fits : b.Storable) : codec.Reads b :=
  .of_via (.of_pair (reads_list (fun _ => reads_index) fits.instrs) <|
    .of_pair (reads_list (fun _ => reads_index) fits.preds) <|
    reads_list (fun _ => reads_index) fits.succs) rfl

theorem Definition.codec_reads (d : Definition) (fits : d.definedBy < wordLimit) : codec.Reads d :=
  .of_via (.of_pair (reads_index fits) d.ty.codec_reads) rfl

theorem Codec.reads_words {ws : List Word} (short : ws.length < UInt64.size) : word.list.Reads ws :=
  reads_list (fun w (_ : True) => reads_word w) ⟨short, fun _ _ => trivial⟩

theorem Graph.codec_reads (g : Graph) (fits : g.Storable) : codec.Reads g :=
  .of_via (.of_pair (reads_string (Nat.lt_of_le_of_lt fits.name (by decide))) <|
    .of_pair (reads_oneOf (by decide) (by cases g.arch <;> decide)) <|
    .of_pair (reads_array Block.codec_reads fits.blocks) <| .of_pair
    (reads_array Instr.codec_reads fits.instrs) <|
    .of_pair (reads_array Definition.codec_reads fits.values) <| .of_pair (reads_index fits.entry) <|
    .of_pair (reads_words fits.immediates) <| .of_pair (reads_index fits.numSlots) <|
    .of_pair (reads_index fits.numParams) (reads_index fits.numArgs)) rfl

namespace SavedRun

variable {g h : Graph} {args : List Word} {rest : Bytes}

theorem codec_reads (fits : g.Storable) (short : args.length < UInt64.size) : codec.Reads ⟨g, args⟩ :=
  .of_via (.of_pair (g.codec_reads fits) (reads_words short)) rfl

theorem ofBytes_encode (fits : g.Storable) (short : args.length < UInt64.size) :
    ofBytes? (codec.encode ⟨g, args⟩ ++ rest) = .ok (some ⟨g, args⟩) := by
  obtain ⟨behind, split⟩ : ∃ behind, codec.encode ⟨g, args⟩ ++ rest =
      Codec.length.encode g.name.utf8ByteSize ++ behind := by
    simp only [codec, Graph.codec, Codec.via, Codec.pair, Codec.string, List.append_assoc]
    exact ⟨_, rfl⟩
  have size := reads_length (Nat.lt_of_le_of_lt fits.name (by decide)) behind
  simp [ofBytes?, codec_reads fits short rest, split ▸ size, ensure, fits.name, Functor.map,
    Except.map]

/-- What is saved can be read back in front of anything, and nothing else has the same bytes: a
program alone, and a program with its arguments. -/
theorem saved_forms_are_unique (fitsG : g.Storable) (fitsH : h.Storable) (args args' : List Word)
    (shortG : args.length < UInt64.size) (shortH : args'.length < UInt64.size) (rest rest' : Bytes) :
    Graph.codec.decode (Graph.codec.encode g ++ rest) = some (g, rest) ∧
      (Graph.codec.encode g ++ rest = Graph.codec.encode h ++ rest' → g = h ∧ rest = rest') ∧
      codec.decode (codec.encode ⟨g, args⟩ ++ rest) = some (⟨g, args⟩, rest) ∧
      (codec.encode ⟨g, args⟩ ++ rest = codec.encode ⟨h, args'⟩ ++ rest' →
        g = h ∧ args = args' ∧ rest = rest') ∧
      ofBytes? (codec.encode ⟨g, args⟩ ++ rest) = .ok (some ⟨g, args⟩) := by
  refine ⟨g.codec_reads fitsG rest, (g.codec_reads fitsG).eq_of_encode (h.codec_reads fitsH),
    codec_reads fitsG shortG rest, fun same => ?_, ofBytes_encode fitsG shortG⟩
  obtain ⟨sameRun, sameRest⟩ := (codec_reads fitsG shortG).eq_of_encode
    (codec_reads fitsH shortH) same
  obtain ⟨rfl, rfl⟩ := mk.inj sameRun
  exact ⟨rfl, rfl, sameRest⟩

def spilledCall : Graph :=
  { Graph.new "spilled" .aarch32 with
    blocks := #[⟨[0, 1], [], []⟩]
    instrs := #[
      Instr.ofGroup 0 ⟨.inputFill, [⟨.register 0, .stackSlot 1, .int64⟩], true⟩,
      { Instr.ofOpcode (.call 7) 0 .void with inputs := [0], inputLocations := [.stackSlot 1] }]
    values := #[⟨1, .int64⟩]
    immediates := [-4]
    numSlots := 2 }

theorem spilledCall_reads_back : spilledCall.Storable ∧
    ofBytes? (codec.encode ⟨spilledCall, [3]⟩ ++ [0]) = .ok (some ⟨spilledCall, [3]⟩) := by
  have none {α : Type} (fits : α → Prop) : Listable fits [] := ⟨by simp, by simp⟩
  have blocks : ∀ b ∈ spilledCall.blocks.toList, b.Storable :=
    List.forall_mem_singleton.mpr ⟨⟨by decide, by decide⟩, none _, none _⟩
  have instrs : ∀ x ∈ spilledCall.instrs.toList, x.Storable := by
    refine List.forall_mem_cons.mpr ⟨⟨trivial, by decide, none _, none _, none _, none _, ?_⟩,
      List.forall_mem_singleton.mpr ⟨show 7 < wordLimit by decide, by decide, ⟨by decide, by decide⟩,
        none _, ⟨by decide, List.forall_mem_singleton.mpr (show 1 < wordLimit by decide)⟩, none _,
        by simp [Instr.ofOpcode]⟩⟩
    rintro _ ⟨⟩
    exact ⟨by decide, List.forall_mem_singleton.mpr
      ⟨show 0 < wordLimit by decide, show 1 < wordLimit by decide⟩⟩
  have fits : spilledCall.Storable := ⟨by decide +kernel, ⟨by decide, blocks⟩, ⟨by decide, instrs⟩,
    ⟨by decide, by decide⟩, by decide, by decide, by decide, by decide, by decide⟩
  exact ⟨fits, (saved_forms_are_unique fits fits [3] [] (by decide) (by decide) [0] []).2.2.2.2⟩

end SavedRun

end RegisterAllocation
