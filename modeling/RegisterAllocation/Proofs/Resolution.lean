import RegisterAllocation.Proofs.Bridging
import RegisterAllocation.Proofs.MoveSequence

/-!
Connected intervals keep the values of a program where they are said to be. A program with moves
runs on places: its own instructions write their results to the places where these start, and the
moves of a group happen at once. Whatever way a run has come, a value that is needed before an
instruction is then where its interval there is.
-/

namespace RegisterAllocation

open List Option Connection Graph Interval

namespace Store

variable {α : Type} {s : Store α} {moves : List Move} {place : Location} {a : α}

theorem atOnce_eq (each : ∀ m ∈ moves, m.dst = place → s m.src = a)
    (some : s place = a ∨ ∃ m ∈ moves, m.dst = place) : atOnce moves s place = a := by
  have run : ∀ t : Store α, (t place = a ∨ ∃ m ∈ moves, m.dst = place) →
      moves.foldl (fun t m => t.put m.dst (s m.src)) t place = a := by
    clear some
    intro t some
    induction moves generalizing t with
    | nil => simpa using some
    | cons m rest ih =>
      refine ih (fun m' member => each m' (mem_cons_of_mem _ member)) _ ?_
      dsimp only
      by_cases here : m.dst = place
      · left
        rw [← here, put_same]
        exact each m mem_cons_self here
      · rw [put_other (Ne.symm here)]
        exact some.imp_right fun ⟨m', member, isDst⟩ =>
          ⟨m', (mem_cons.mp member).resolve_left (by rintro rfl; exact here isDst), isDst⟩
  exact run s some

end Store

namespace Graph

/-- Places that hold a word of their own: immediates and the zero register. -/
def Fixed (g : Graph) (place : Location) : Prop :=
  place.isImmediate = true ∨ g.target.isZeroReg place = true

def fixedWord? (g : Graph) (place : Location) : Option Word :=
  if place.isImmediate then g.immediates[place.index]?
  else if g.target.isZeroReg place then some 0 else none

def reading (g : Graph) (s : Store Word) : Store Word :=
  fun place => (g.fixedWord? place).getD (s place)

theorem reading_eq {g : Graph} {place : Location} (free : ¬g.Fixed place) (s : Store Word) :
    g.reading s place = s place := by
  rw [Fixed, not_or] at free
  simp [reading, fixedWord?, free]

end Graph

/-- A run on places: the words that values have had last, and what is in the places. -/
@[ext] structure Tracer where
  value : ValueId → Option Word
  store : Store Word

namespace Tracer

variable (g k : Graph) (l : Liveness)

def FirstPlace (v : ValueId) (place : Location) : Prop :=
  ∃ id i, l.intervalOf? v = some id ∧ l.pool.intervals[id]? = some i ∧ i.location = place

/-- An instruction puts words for its results where these start, and touches nothing else. Any
words will do, but for constants. -/
structure Computes (results : List ValueId) (s t : Tracer) : Prop where
  result : ∀ v ∈ results, ∃ w, t.value v = some w ∧
    (∀ c, g.constantOf? v = .ok (some c) → w = c) ∧ ∀ place, FirstPlace l v place → t.store place = w
  others : ∀ v, v ∉ results → t.value v = s.value v
  rest : ∀ place, (∀ v ∈ results, ¬FirstPlace l v place) → t.store place = s.store place

inductive Step : InstrId → Tracer → Tracer → Prop where
  | phi {i : InstrId} {x : Instr} {s : Tracer} (found : k.instrs[i]? = some x)
      (isPhi : x.isPhi = true) : Step i s s
  | moves {i : InstrId} {x : Instr} {group : MoveGroup} {s : Tracer}
      (found : k.instrs[i]? = some x) (isMoves : x.isSpillFill = true) (has : x.group = some group) :
      Step i s { s with store := Store.atOnce group.moves (g.reading s.store) }
  | code {i : InstrId} {x : Instr} {s t : Tracer} (found : k.instrs[i]? = some x)
      (plain : x.isPhi = false) (isCode : x.isSpillFill = false)
      (computes : Computes g l x.results s t) :
      Step i s t

inductive Runs : List InstrId → Tracer → Tracer → Prop where
  | nil {s : Tracer} : Runs [] s s
  | cons {i : InstrId} {is : List InstrId} {s t u : Tracer} (step : Step g k l i s t)
      (runs : Runs is t u) : Runs (i :: is) s u

structure Enters (instrs : List InstrId) (index : Nat) (s t : Tracer) : Prop where
  store : t.store = s.store
  phi : ∀ i ∈ instrs, ∀ x, k.instrs[i]? = some x → x.isPhi = true → ∀ src dst,
    x.inputs[index]? = some src → x.results.head? = some dst → t.value dst = s.value src
  others : ∀ v, (∀ i ∈ instrs, ∀ x, k.instrs[i]? = some x → x.isPhi = true → v ∉ x.results) →
    t.value v = s.value v

inductive Reaches : BlockId → Tracer → Prop where
  | entry {s : Tracer} (none : ∀ v, s.value v = none) : Reaches k.entry s
  | edge {b c : BlockId} {B C : Block} {index : Nat} {s t u : Tracer} (reaches : Reaches b s)
      (stored : k.blocks[b]? = some B) (runs : Runs g k l B.instrs s t)
      (storedC : k.blocks[c]? = some C) (isPred : C.preds[index]? = some b)
      (enters : Enters k C.instrs index t u) : Reaches c u

variable {g k l} {s t u : Tracer} {is js : List InstrId}

theorem Runs.append_inv (runs : Runs g k l (is ++ js) s u) :
    ∃ t, Runs g k l is s t ∧ Runs g k l js t u := by
  induction is generalizing s with
  | nil => exact ⟨s, .nil, runs⟩
  | cons i is ih =>
    cases runs with
    | cons step runs =>
      obtain ⟨t, first, second⟩ := ih runs
      exact ⟨t, .cons step first, second⟩

theorem Enters.eq_of_no_phi {n : Nat} (none : ∀ i ∈ is, k.phiAt i = false) :
    Enters k is n t u ↔ u = t := by
  have never : ∀ i ∈ is, ∀ x, k.instrs[i]? = some x → x.isPhi = true → False := by
    intro i member x found isPhi
    have := none i member
    rw [phiAt_eq found, isPhi] at this
    cases this
  constructor
  · refine fun enters => Tracer.ext (funext fun v => enters.others v ?_) enters.store
    exact fun i member x found isPhi => (never i member x found isPhi).elim
  · rintro rfl
    exact ⟨rfl, fun i member x found isPhi => (never i member x found isPhi).elim, fun _ _ => rfl⟩

structure Moved (g : Graph) (moves : List Move) (s t : Tracer) : Prop where
  value : t.value = s.value
  store : ∀ place, ¬g.Fixed place → t.store place = Store.atOnce moves (g.reading s.store) place

theorem Moved.of_nil (g : Graph) (s : Tracer) : Moved g [] s s :=
  ⟨rfl, fun _ free => (Graph.reading_eq free _).symm⟩

def Constant (g : Graph) (s : Tracer) : Prop :=
  ∀ v c w, g.constantOf? v = .ok (some c) → s.value v = some w → w = c

def Holds (g : Graph) (p : IntervalPool) (q : Position) (s : Tracer) : Prop :=
  s.Constant g ∧ ∀ v i, p.Piece v q i → s.value v = some (g.reading s.store i.location)

end Tracer

/-- Places for pieces: those that are there together do not share one, except that constants may be
in places that hold them anyway. -/
structure IntervalPool.Apart (g : Graph) (p : IntervalPool) : Prop where
  apart : ∀ v w q i j, p.Piece v q i → p.Piece w q j → i.location = j.location →
    v = w ∨ g.Fixed i.location
  fixed : ∀ v q i, p.Piece v q i → g.Fixed i.location →
    ∃ c, g.fixedWord? i.location = some c ∧ g.constantOf? v = .ok (some c)

namespace Tracer

variable {g k : Graph} {l : Liveness} {p : IntervalPool} {q : Position} {s t : Tracer}

theorem Holds.of_moves (apart : p.Apart g) (constant : t.Constant g) {moves : List Move}
    (store : ∀ place, ¬g.Fixed place → t.store place = Store.atOnce moves (g.reading s.store) place)
    (sound : ∀ m ∈ moves, ∃ v i, p.Piece v q i ∧ i.location = m.dst ∧
      t.value v = some (g.reading s.store m.src))
    (complete : ∀ v i, p.Piece v q i → ∃ place, t.value v = some (g.reading s.store place) ∧
      (place = i.location ∨ i.location.isImmediate = true ∨ ∃ m ∈ moves, m.dst = i.location)) :
    Holds g p q t := by
  refine ⟨constant, fun v i piece => ?_⟩
  obtain ⟨place, isValue, either⟩ := complete v i piece
  by_cases fixed : g.Fixed i.location
  · obtain ⟨c, word, isConstant⟩ := apart.fixed v q i piece fixed
    rw [isValue, constant v c _ isConstant isValue, Graph.reading, word, getD_some]
  · rw [isValue, Graph.reading_eq fixed, store _ fixed, Store.atOnce_eq]
    · intro m member isDst
      obtain ⟨u, j, pieceJ, isPlace, valueU⟩ := sound m member
      obtain rfl := (apart.apart v u q i j piece pieceJ (by rw [isPlace, isDst])).resolve_right fixed
      exact some.inj (valueU.symm.trans isValue)
    · rcases either with rfl | immediate | moved
      · exact .inl rfl
      · exact absurd (.inl immediate) fixed
      · exact .inr moved

end Tracer

/-- Where intervals may be split: in gaps, and where blocks start. -/
def Liveness.Joint (l : Liveness) (pos : Position) : Prop :=
  pos % 2 = 1 ∨ ∃ b ∈ l.numbering.order, ∃ r, l.numbering.rangeOf? b = some r ∧ pos = r.start

namespace Liveness

variable {g k : Graph} {tree : DominatorTree} {sets : LiveSets} {l : Liveness}
  {p : IntervalPool} {id : IntervalId} {v : ValueId} {i : Interval} {d : InstrId}
  {x : Instr} {q : Position} {s t u : Tracer}

abbrev cut (l : Liveness) (p : IntervalPool) : Liveness := { l with pool := p }

section

variable (given : g.Accepted tree l.numbering.order) (analysed : Analysed g g.target tree sets l)
  (parts : l.pool.Parts l.Joint p)

include given analysed parts

theorem known_of_piece (piece : p.Piece v q i) : ∃ id, l.intervalOf? v = some id := by
  obtain ⟨j, id, found, own, -⟩ := (parts.covers v q).mp ⟨i, piece⟩
  have fit := (analysed.pool_tidy given l.Joint).fit id j found
  obtain ⟨w, ownW, known⟩ := analysed.has_value found (by rw [fit.kind, own]; rfl)
  obtain rfl := mem_unique own ownW
  exact ⟨id, known⟩

theorem piece_iff (known : l.intervalOf? v = some id) :
    (∃ i, p.Piece v q i) ↔ Needed g l.numbering sets l.numbering.order v q := by
  obtain ⟨i, found, first⟩ := analysed.first v id known
  rw [parts.covers, ← first.covers q]
  constructor
  · rintro ⟨j, k, foundJ, own, covered⟩
    obtain rfl := analysed.interval_unique given found foundJ first.value_eq own
    obtain rfl := mem_unique found foundJ
    exact covered
  · exact fun covered => ⟨i, id, found, first.value_eq, covered⟩

theorem root_stays (known : l.intervalOf? v = some id) :
    ∃ i, p.intervals[id]? = some i ∧ i.value = some v ∧ i.root = id := by
  obtain ⟨m, ty, _, _, _, foundM, -, -, -, -, -, -, made⟩ := analysed.has_root given known
  obtain ⟨j, foundJ, value, isRoot, -⟩ := parts.stays id m foundM
  exact ⟨j, foundJ, value.trans (by rw [made]; rfl), isRoot.trans (by rw [made]; rfl)⟩

theorem piece_of_place {place : Location} (isPlace : (l.cut p).locationAt v q = .ok (some place)) :
    ∃ i, p.Piece v q i ∧ i.location = place := by
  refine piece_of_locationAt (l := l.cut p) parts.tidy (fun v id known => ?_) isPlace
  exact root_stays given analysed parts (l := l) known

theorem root_piece (known : l.intervalOf? v = some id) (found : g.instrs[d]? = some x)
    (result : v ∈ x.results) (isAt : l.numbering.numberOf? d = some q) :
    ∃ i, p.intervals[id]? = some i ∧ p.Piece v q i := by
  obtain ⟨needed, above⟩ := analysed.needed_start given found result isAt
  obtain ⟨i, k, foundI, own, covered⟩ := (piece_iff given analysed parts known).mpr needed
  obtain ⟨j, foundJ, ownJ, isRoot⟩ := root_stays given analysed parts known
  by_cases here : id = k
  · subst here
    exact ⟨i, foundI, id, foundI, own, covered⟩
  · have fit := parts.tidy.fit id j foundJ
    have filled := fit.filled (by rw [fit.kind, ownJ]; rfl)
    have := above j.start ((piece_iff given analysed parts known).mp
      ⟨j, id, foundJ, ownJ, covers_start fit.sorted filled⟩)
    have := parts.tidy.root_stop_le here foundJ foundI ownJ own isRoot
    have := start_le (parts.tidy.fit k i foundI).sorted covered
    have := start_lt_stop fit.sorted filled
    lia

variable (apart : p.Apart g)

include apart

theorem holds_edge {b c : BlockId} {S C : Block} {there here : Range} {index : Nat}
    {group : MoveGroup} (w : g.Woven k) (stored : g.blocks[c]? = some S)
    (storedC : k.blocks[c]? = some C) (isPred : S.preds[index]? = some b)
    (range : l.numbering.rangeOf? c = some here)
    (run : edgeMoves g (l.cut p) c b index (there.stop - 2) here.start = .ok group)
    (holds : s.Holds g p (there.stop - 2)) (moved : Tracer.Moved g group.moves s t)
    (enters : Tracer.Enters k C.instrs index t u) : u.Holds g p here.start := by
  have bridges := edgeMoves_bridge stored given.valid.phis_first run
  obtain ⟨C', storedC', instrs, -⟩ := w.block c S stored
  obtain rfl := mem_unique storedC storedC'
  have phi : ∀ i ∈ C.instrs, ∀ y, k.instrs[i]? = some y → y.isPhi = true → ∀ v ∈ y.results,
      ∃ x, g.instrs[i]? = some x ∧ x.block = c ∧ x.isPhi = true ∧ v ∈ x.results := by
    intro i listed y foundY isPhi v result
    obtain ⟨x, found, code⟩ := w.result_cases foundY result
    refine ⟨x, found, (given.consistent.listed_iff stored found).mp ?_, code.isPhi_eq ▸ isPhi,
      code.results ▸ result⟩
    rw [← instrs]
    exact mem_filter.mpr ⟨listed, by simpa using found_lt found⟩
  have passes : ∀ src dst, FlowsInto g (l.cut p) c S index src dst →
      u.value dst = s.value src := by
    rw [← moved.value]
    rintro src dst (⟨rfl, live, isLive, member⟩ | ⟨i, listed, x, found, isPhi, operand, result⟩)
    · refine enters.others src fun i listed y foundY isPhi result => ?_
      obtain ⟨x, found, home, -, result⟩ := phi i listed y foundY isPhi src result
      have atStart : sets.AtStart c src := ⟨live, analysed.liveIn ▸ isLive, member⟩
      exact ((analysed.settled.atStart_iff given stored).mp atStart).1 ⟨i, x, found, home, result⟩
    · obtain ⟨y, foundY, code, -⟩ := w.instr i x found
      rw [← instrs] at listed
      exact enters.phi i (mem_filter.mp listed).1 y foundY (code.isPhi_eq.trans isPhi) src dst
        (code.inputs ▸ operand) (code.results ▸ result)
  have there : ∀ src dst a, FlowsInto g (l.cut p) c S index src dst →
      (l.cut p).locationAt src (there.stop - 2) = .ok (some a) →
      u.value dst = some (g.reading s.store a) := by
    intro src dst a pass isPlace
    obtain ⟨i, piece, rfl⟩ := piece_of_place given analysed parts isPlace
    rw [passes src dst pass, holds.2 src i piece]
  refine .of_moves apart (fun v a word isConstant isValue => ?_)
    (enters.store ▸ moved.store) (fun m member => ?_) fun v i piece => ?_
  · rw [enters.others v, moved.value] at isValue
    · exact holds.1 v a word isConstant isValue
    intro i listed y foundY isPhi result
    obtain ⟨x, found, -, isPhi, result⟩ := phi i listed y foundY isPhi v result
    simp only [constantOf?, bind_ok, pure_ok, value_ok, instr_ok] at isConstant
    obtain ⟨D, defined, z, foundZ, isConstant⟩ := isConstant
    obtain ⟨z', foundZ', resultZ⟩ := given.valid.defined v D defined
    obtain rfl := mem_unique foundZ foundZ'
    obtain rfl := owner_of_nodup given.valid.results found foundZ result resultZ
    obtain rfl := mem_unique found foundZ
    rw [Instr.isPhi, beq_iff_eq] at isPhi
    rw [isPhi] at isConstant
    cases isConstant
  · obtain ⟨src, dst, pass, isSrc, isDst⟩ := bridges.only m member
    obtain ⟨i, piece, isPlace⟩ := piece_of_place given analysed parts isDst
    exact ⟨dst, i, piece, isPlace, there src dst _ pass isSrc⟩
  · obtain ⟨src, pass⟩ : ∃ src, FlowsInto g (l.cut p) c S index src v := by
      obtain ⟨id, known⟩ := known_of_piece given analysed parts piece
      have needed := (piece_iff given analysed parts known).mp ⟨i, piece⟩
      rcases analysed.needed_at_start given stored range needed with
        ⟨d, listed, x, found, result, isAt⟩ | ⟨live, isLive, member⟩
      · obtain ⟨n, isAt', -, -, -, low⟩ :=
          analysed.numbered.number_mem (given.valid.complete c S stored) stored range listed
        obtain rfl := mem_unique isAt isAt'
        have isPhi : x.isPhi = true := by
          by_contra plain
          simp [phiAt_eq found, plain] at low
        have op : x.opcode = .phi := by simpa [Instr.isPhi] using isPhi
        obtain ⟨pos, isAt⟩ := mem_iff_getElem?.mp listed
        have valid := given.checked_at stored isAt found
        have operands := valid.inputs S.preds.length (by simp [expectedInputs?, op])
        have inside : index < x.inputs.length := operands ▸ (listed_lt isPred)
        have single := valid.results
        rw [op] at single
        obtain ⟨w, isW⟩ := length_eq_one_iff.mp single
        obtain rfl : v = w := by simpa [isW] using result
        exact ⟨x.inputs[index], .inr ⟨d, listed, x, found, isPhi, getElem?_eq_getElem inside,
          by simp [isW]⟩⟩
      · exact ⟨v, .inl ⟨rfl, live, analysed.liveIn ▸ isLive, member⟩⟩
    obtain ⟨a, e, isSrc, isDst, either⟩ := bridges.each src v pass
    obtain ⟨j, pieceJ, rfl⟩ := piece_of_place given analysed parts isDst
    obtain rfl := parts.tidy.piece_unique piece pieceJ
    exact ⟨a, there src v a pass isSrc, either⟩

variable (found : g.instrs[d]? = some x) (plain : x.isPhi = false)
  (isAt : l.numbering.numberOf? d = some (q + 2))

include found plain isAt

theorem holds_gap {moves : List Move} (isMoves : ∀ m, m ∈ moves ↔ ∃ id ∈ p.ids, ∃ is,
      siblings p id = .ok is ∧ ∃ pair ∈ is.zip is.tail,
        Joins l.numbering d m pair)
    (holds : s.Holds g p q) (moved : Tracer.Moved g moves s t) : t.Holds g p (q + 1) := by
  obtain ⟨B, r, n, stored, -, range, isAt', -, inside, even, low⟩ := analysed.has_number given found
  obtain rfl := mem_unique isAt isAt'
  obtain ⟨r', range', evenR, -⟩ := analysed.numbered.range _ (given.valid.complete _ B stored)
  obtain rfl := mem_unique range range'
  simp only [plain, Bool.false_eq_true, ↓reduceIte] at low
  refine .of_moves apart (by rw [Tracer.Constant, moved.value]; exact holds.1) moved.store
    (fun m member => ?_) fun v j piece => ?_
  · obtain ⟨id, -, is, isSiblings, ⟨i, j⟩, isPair, ⟨meet, -⟩, isNext, rfl⟩ := (isMoves m).mp member
    obtain ⟨v, pieces⟩ := siblings_pieces (l := l.cut p) parts.tidy (parts.rooted id) isSiblings
    obtain ⟨a, foundI, ownI⟩ := pieces i (of_mem_zip isPair).1
    obtain ⟨b, foundJ, ownJ⟩ := pieces j (mem_of_mem_tail (of_mem_zip isPair).2)
    have isHere := mem_unique isAt (analysed.numbered.numberOf_instrAt isNext)
    have fitI := parts.tidy.fit a i foundI
    have fitJ := parts.tidy.fit b j foundJ
    have filledI := fitI.filled (by rw [fitI.kind, ownI]; rfl)
    have filledJ := fitJ.filled (by rw [fitJ.kind, ownJ]; rfl)
    dsimp only at meet isHere
    refine ⟨v, j, ⟨b, foundJ, ownJ, ?_⟩, rfl, ?_⟩
    · rw [show q + 1 = j.start by lia]
      exact covers_start fitJ.sorted filledJ
    · rw [moved.value]
      refine holds.2 v i ⟨a, foundI, ownI, ?_⟩
      rw [show q = i.stop - 1 by lia]
      exact (covers_last fitI.sorted filledI).2
  · obtain ⟨id, known⟩ := known_of_piece given analysed parts piece
    have needed := (piece_iff given analysed parts known).mp ⟨j, piece⟩
    -- no instruction is in a gap
    have before := (analysed.needed_at given stored range (by lia) (by lia) needed).resolve_left <| by
      rintro ⟨e, listed, -, -, -, isAtE⟩
      obtain ⟨n, isAtE', -, -, evenE, -⟩ := analysed.numbered.number_mem
        (given.valid.complete _ B stored) stored range listed
      obtain rfl := mem_unique isAtE isAtE'
      lia
    obtain ⟨i, pieceI⟩ := (piece_iff given analysed parts known).mpr before
    refine ⟨i.location, by rw [moved.value]; exact holds.2 v i pieceI, ?_⟩
    by_cases same : i.location = j.location
    · exact .inl same
    by_cases immediate : j.location.isImmediate = true
    · exact .inr (.inl immediate)
    refine .inr (.inr ?_)
    obtain ⟨a, foundI, ownI, coversI⟩ := pieceI
    obtain ⟨b, foundJ, ownJ, coversJ⟩ := piece
    obtain ⟨stop, start⟩ := parts.tidy.meet_of_next foundI foundJ ownI ownJ coversI coversJ
      (fun equal => same (by rw [equal]))
    obtain ⟨m, ty, _, _, _, foundM, -, -, -, -, -, -, made⟩ := analysed.has_root given known
    obtain ⟨id, among, is, isSiblings, isPair⟩ := parts.pair_visited foundM (by rw [made]; rfl)
      (by rw [made]; rfl) (by rw [made]; rfl) foundI foundJ ownI ownJ (stop.trans start.symm)
    refine ⟨⟨i.location, j.location, i.ty⟩, (isMoves _).mpr ⟨id, among, is, isSiblings, _, isPair,
      ⟨stop.trans start.symm, same, by simpa using immediate, by lia⟩, ?_, rfl⟩, rfl⟩
    rw [start]
    exact analysed.instrAt_eq given found plain isAt

theorem holds_code (holds : s.Holds g p (q + 1))
    (computes : Tracer.Computes g (l.cut p) x.results s t) :
    t.Holds g p (q + 2) := by
  obtain ⟨B, r, n, stored, listed, range, isAt', -, inside, even, low⟩ :=
    analysed.has_number given found
  obtain rfl := mem_unique isAt isAt'
  have inOrder := given.valid.complete _ B stored
  simp only [plain, Bool.false_eq_true, ↓reduceIte] at low
  refine ⟨fun v c w isConstant isValue => ?_, fun v i piece => ?_⟩
  · by_cases result : v ∈ x.results
    · obtain ⟨w', isValue', isC, -⟩ := computes.result v result
      obtain rfl := mem_unique isValue isValue'
      exact isC c isConstant
    · exact holds.1 v c w isConstant (by rwa [← computes.others v result])
  obtain ⟨id, known⟩ := known_of_piece given analysed parts piece
  by_cases result : v ∈ x.results
  · obtain ⟨i', foundI, piece'⟩ := root_piece given analysed parts known found result isAt
    obtain rfl := parts.tidy.piece_unique piece piece'
    obtain ⟨w, isValue, isC, written⟩ := computes.result v result
    rw [isValue]
    by_cases fixed : g.Fixed i.location
    · obtain ⟨c, word, isConstant⟩ := apart.fixed v _ i piece fixed
      rw [isC c isConstant, Graph.reading, word, getD_some]
    · rw [Graph.reading_eq fixed, written i.location ⟨id, i, known, foundI, rfl⟩]
  · have needed := (piece_iff given analysed parts known).mp ⟨i, piece⟩
    have before : Needed g l.numbering sets l.numbering.order v (q + 1) := by
      refine (analysed.needed_at given stored range (by lia) (by lia) needed).resolve_left ?_
      rintro ⟨e, listedE, y, foundY, resultY, isAtE⟩
      obtain rfl := analysed.numbered.number_inj inOrder stored range listed listedE low isAt isAtE
      obtain rfl := mem_unique found foundY
      exact result resultY
    obtain ⟨j, pieceJ⟩ := (piece_iff given analysed parts known).mpr before
    -- intervals are not split where instructions are
    have same : j = i := by
      by_contra other
      obtain ⟨a, foundJ, ownJ, coversJ⟩ := pieceJ
      obtain ⟨b, foundI, ownI, coversI⟩ := piece
      obtain ⟨stop, start⟩ := parts.tidy.meet_of_next foundJ foundI ownJ ownI coversJ coversI other
      rcases stop ▸ parts.tidy.meet_joint foundJ foundI ownJ ownI (stop.trans start.symm) with
        odd | ⟨c, inOrderC, rc, rangeC, isStart⟩
      · lia
      · obtain ⟨rc', rangeC', -, stopC⟩ := analysed.numbered.range c inOrderC
        obtain rfl := mem_unique rangeC rangeC'
        obtain rfl := analysed.numbered.block_unique inOrder inOrderC range rangeC low.le inside
          isStart.ge (by lia)
        obtain rfl := mem_unique range rangeC
        lia
    subst same
    rw [computes.others v result, holds.2 v j pieceJ]
    by_cases fixed : g.Fixed j.location
    · obtain ⟨c, word, -⟩ := apart.fixed v _ j piece fixed
      rw [Graph.reading, Graph.reading, word]
      rfl
    · rw [Graph.reading_eq fixed, Graph.reading_eq fixed, computes.rest]
      rintro u resultU ⟨idU, m, knownU, foundM, place⟩
      obtain ⟨m', foundM', pieceM⟩ := root_piece given analysed parts knownU found resultU isAt
      obtain rfl := mem_unique foundM foundM'
      rcases apart.apart v u _ j m piece pieceM place.symm with rfl | isFixed
      · exact result resultU
      · exact fixed isFixed

end

end Liveness

end RegisterAllocation
