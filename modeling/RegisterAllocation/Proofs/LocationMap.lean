import RegisterAllocation.Proofs.Resolution

/-!
A run of a connected program finds every value in the place its interval gives it. The invariant is
kept by the moves in front of an instruction, by the instruction, and by the moves on an edge.
-/

namespace RegisterAllocation

open List Option Graph Instr Liveness

namespace Connection

open Graph Tracer

variable {g k : Graph} {tree : DominatorTree} {sets : LiveSets} {l : Liveness} {p : IntervalPool}
  {gap : InstrId → List Move} {front : InstrId → Option InstrId}
  {head tail : BlockId → Option InstrId} {b c : BlockId} {B C S : Block} {r here there : Range}
  {d i : InstrId} {x : Instr} {q : Position} {s t u : Tracer} {n : Nat} {group : MoveGroup}
  {ds ds₀ : List InstrId}

theorem moved_of_step (w : g.Woven k) (carries : NewGroup g k i group) (step : Step g k l i s t) :
    Moved g group.moves s t := by
  obtain ⟨new, y, found, has⟩ := carries
  obtain ⟨_, made⟩ := w.added i y new found
  have op : y.opcode = .spillFill := congrArg opcode made
  cases step with
  | phi found' isPhi =>
    obtain rfl := mem_unique found found'
    simp [Instr.isPhi, op] at isPhi
  | moves found' _ has' =>
    obtain rfl := mem_unique found found'
    obtain rfl := mem_unique has has'
    exact ⟨rfl, fun _ _ => rfl⟩
  | code found' _ isCode _ =>
    obtain rfl := mem_unique found found'
    simp [isSpillFill, op] at isCode

theorem code_of_step (given : g.Accepted tree l.numbering.order) (w : g.Woven k)
    (found : g.instrs[d]? = some x) (step : Step g k (l.cut p) d s t) :
    (x.isPhi = true ∧ t = s) ∨ (x.isPhi = false ∧ Computes g (l.cut p) x.results s t) := by
  obtain ⟨y, foundY, code, -⟩ := w.instr d x found
  obtain ⟨_, _, -, -, valid⟩ := given.instr_valid found
  cases step with
  | phi found' isPhi =>
    obtain rfl := mem_unique foundY found'
    exact .inl ⟨code.isPhi_eq ▸ isPhi, rfl⟩
  | moves found' isMoves _ =>
    obtain rfl := mem_unique foundY found'
    have plain := valid.plain
    rw [isSpillFill, ← code.opcode] at plain
    exact absurd (plain.symm.trans isMoves) (by simp)
  | code found' plain _ computes =>
    obtain rfl := mem_unique foundY found'
    exact .inr ⟨code.isPhi_eq ▸ plain, code.results ▸ computes⟩

structure HoldsAtStart (g k : Graph) (l : Liveness) (p : IntervalPool)
    (head : BlockId → Option InstrId) (b : BlockId) (s : Tracer) : Prop where
  old : b < g.blocks.size → ∀ r t, l.numbering.rangeOf? b = some r →
    Runs g k (l.cut p) (head b).toList s t → t.Holds g p r.start
  new : g.blocks.size ≤ b → ∀ is c d r, k.blocks[b]? = some ⟨is, [c], [d]⟩ →
    l.numbering.rangeOf? c = some r → s.Holds g p (r.stop - 2)

section

variable (given : g.Accepted tree l.numbering.order)
  (analysed : Analysed g g.target tree sets l) (parts : l.pool.Parts l.Joint p)
  (apart : p.Apart g) (connected : Connected g (l.cut p) k gap front head tail)

include given analysed parts apart connected

theorem holds_front (found : g.instrs[d]? = some x) (plain : x.isPhi = false)
    (isAt : l.numbering.numberOf? d = some (q + 2)) (runs : Runs g k (l.cut p) (front d).toList s t)
    (holds : s.Holds g p q) : t.Holds g p (q + 1) := by
  refine holds_gap given analysed parts apart found plain isAt (connected.moves d) holds ?_
  cases isFront : front d with
  | none =>
    rw [isFront] at runs
    obtain _ | _ := runs
    rw [connected.empty d isFront]
    exact .of_nil g s
  | some i =>
    rw [isFront] at runs
    obtain _ | ⟨step, _ | _⟩ := runs
    exact moved_of_step connected.woven (connected.group d i isFront).2 step

theorem holds_script (stored : g.blocks[b]? = some B) (range : l.numbering.rangeOf? b = some r)
    {rest : List InstrId} (split : B.instrs = ds₀ ++ ds ++ rest)
    (runs : Runs g k (l.cut p) (script front ds) s t)
    (holds : s.Holds g p (r.start + 2 * (g.steps ds₀).length)) :
    t.Holds g p (r.start + 2 * (g.steps (ds₀ ++ ds)).length) := by
  induction ds generalizing ds₀ s with
  | nil =>
    obtain _ | _ := runs
    rwa [append_nil]
  | cons d ds ih =>
    rw [script, flatMap_cons] at runs
    obtain ⟨t₂, first, others⟩ := runs.append_inv
    obtain ⟨t₁, first, _ | ⟨step, _ | _⟩⟩ := first.append_inv
    obtain ⟨x, found, -⟩ := given.consistent.instr_of_listed stored (by simp [split] : d ∈ B.instrs)
    rw [append_cons]
    refine ih (by simp [split]) others ?_
    rcases code_of_step given connected.woven found step with ⟨isPhi, rfl⟩ | ⟨plain, computes⟩
    · have none : front d = none := by
        by_contra some
        obtain ⟨i, isFront⟩ := ne_none_iff_exists'.mp some
        have := (connected.group d i isFront).1
        rw [phiAt_eq found, isPhi] at this
        cases this
      rw [none] at first
      obtain _ | _ := first
      simpa [steps, phiAt_eq found, isPhi] using holds
    · have plainAt : g.phiAt d = false := by rw [phiAt_eq found, plain]
      have isAt := (analysed.numbered.number_plain (given.valid.complete b B stored) stored range
        (by simpa using split) plainAt).1
      have after := holds_code given analysed parts apart found plain isAt
        (holds_front given analysed parts apart connected found plain isAt first holds) computes
      simpa [steps, plainAt, Nat.mul_add, Nat.add_assoc] using after

theorem holds_arrival (stored : g.blocks[c]? = some S) (storedC : k.blocks[c]? = some C)
    (isPred : S.preds[n]? = some b) (rangeB : l.numbering.rangeOf? b = some there)
    (range : l.numbering.rangeOf? c = some here) (isGroup : edgeGroup g (l.cut p) c b n = .ok group)
    (holds : s.Holds g p (there.stop - 2)) (moved : Moved g group.moves s t)
    (enters : Enters k C.instrs n t u) : u.Holds g p here.start := by
  simp only [edgeGroup, rangeB, range] at isGroup
  exact holds_edge given analysed parts apart connected.woven stored storedC isPred range
    isGroup holds moved enters

theorem holdsAtStart_of_edge (holds : s.Holds g p (there.stop - 2)) (old : b < g.blocks.size)
    (range : l.numbering.rangeOf? b = some there) (runs : Runs g k (l.cut p) (tail b).toList s t)
    (storedC : k.blocks[c]? = some C) (isPred : C.preds[n]? = some b)
    (enters : Enters k C.instrs n t u) : HoldsAtStart g k l p head c u := by
  constructor
  · intro oldC here v rangeC headRuns
    have storedS := Array.getElem?_eq_getElem oldC
    obtain ⟨b', group, isPredG, isGroup, ⟨rfl, either⟩ | ⟨new, -⟩⟩ :=
      connected.edge c _ C n b storedS storedC isPred
    rotate_left
    · lia
    have arrival {t u : Tracer} := holds_arrival given analysed parts apart connected
      (t := t) (u := u) storedS storedC isPredG range rangeC isGroup holds
    rcases either with ⟨none, noTail, noHead⟩ | ⟨i, isList, carries⟩
    · rw [noTail] at runs
      rw [noHead] at headRuns
      obtain _ | _ := runs
      obtain _ | _ := headRuns
      exact arrival (none ▸ .of_nil g s) enters
    cases isTail : tail b with
    | some i' =>
      simp only [isTail, toList_some, singleton_append, cons.injEq,
        toList_eq_nil_iff] at isList runs
      obtain ⟨rfl, noHead⟩ := isList
      rw [noHead] at headRuns
      obtain _ | ⟨step, _ | _⟩ := runs
      obtain _ | _ := headRuns
      exact arrival (moved_of_step connected.woven carries step) enters
    | none =>
      have isHead : head c = some i := by simpa [isTail, toList_eq_singleton_iff] using isList
      rw [isTail] at runs
      rw [isHead] at headRuns
      obtain _ | _ := runs
      obtain _ | ⟨step, _ | _⟩ := headRuns
      have plain := (connected.plain c _ C (by rw [isHead]; rfl) storedS storedC).2
      obtain rfl := (Enters.eq_of_no_phi plain).mp enters
      exact arrival (moved_of_step connected.woven carries step)
        ((Enters.eq_of_no_phi plain).mpr rfl)
  · intro new is b' d r storedC' range'
    obtain rfl := mem_unique storedC storedC'
    obtain rfl : b = b' := by simpa using mem_of_getElem? isPred
    obtain rfl := mem_unique range range'
    obtain ⟨i, b', c', isC, -, noTail, isNew⟩ := connected.new c _ new storedC
    obtain ⟨rfl, isPreds, -⟩ := Block.mk.inj isC
    obtain rfl := singleton_inj.mp isPreds
    rw [noTail] at runs
    obtain _ | _ := runs
    obtain rfl := (Enters.eq_of_no_phi (by simp [connected.woven.phiAt_added isNew])).mp enters
    exact holds

theorem holdsAtStart_of_new (begins : HoldsAtStart g k l p head b s) (new : g.blocks.size ≤ b)
    (stored : k.blocks[b]? = some B) (runs : Runs g k (l.cut p) B.instrs s t)
    (storedC : k.blocks[c]? = some C) (isPred : C.preds[n]? = some b)
    (enters : Enters k C.instrs n t u) : HoldsAtStart g k l p head c u := by
  constructor
  · intro oldC here v rangeC headRuns
    have storedS := Array.getElem?_eq_getElem oldC
    obtain ⟨b', group, isPredG, isGroup, ⟨rfl, -⟩ | ⟨-, noHead, i, stored', carries⟩⟩ :=
      connected.edge c _ C n b storedS storedC isPred
    all_goals obtain ⟨P, storedP, -⟩ :=
      given.consistent.succ_of_pred storedS (mem_of_getElem? isPredG)
    · have := found_lt storedP
      lia
    obtain rfl := mem_unique stored stored'
    obtain ⟨there, range, -⟩ := analysed.numbered.range b' (given.valid.complete b' P storedP)
    rw [noHead] at headRuns
    obtain _ | _ := headRuns
    obtain _ | ⟨step, _ | _⟩ := runs
    exact holds_arrival given analysed parts apart connected storedS storedC isPredG range rangeC
      isGroup (begins.new new _ _ _ _ stored range) (moved_of_step connected.woven carries step)
      enters
  · intro newC is b' d r storedC' range'
    obtain rfl := mem_unique storedC storedC'
    obtain ⟨i, b'', c', isC, old, -⟩ := connected.new c _ newC storedC
    obtain ⟨-, isPreds, -⟩ := Block.mk.inj isC
    obtain rfl := singleton_inj.mp isPreds
    obtain rfl : b = b' := by simpa using mem_of_getElem? isPred
    lia

theorem holdsAtStart_of_reaches (noPhi : ∀ pc x, g.At g.entry pc x → x.isPhi = false)
    (reaches : Reaches g k (l.cut p) b s) : HoldsAtStart g k l p head b s := by
  induction reaches with
  | @entry s none =>
    rw [connected.woven.entry]
    have ordered := reversePostOrder_ok given.valid.ordered
    obtain ⟨E, stored⟩ := ordered.stored g.entry ordered.entry
    refine ⟨fun _ r t range runs => ?_, fun new => ?_⟩
    · have noHead : head g.entry = Option.none := by
        by_contra some
        obtain ⟨C, storedC, -⟩ := connected.block _ E stored
        exact (connected.plain _ E C (by simpa using isSome_iff_ne_none.mpr some) stored
          storedC).1 (given.valid.entry E stored)
      rw [noHead] at runs
      obtain _ | _ := runs
      refine ⟨fun v c w _ isValue => ?_, fun v i piece => ?_⟩
      · simp [none] at isValue
      · obtain ⟨id, known⟩ := known_of_piece given analysed parts piece
        exact absurd ((piece_iff given analysed parts known).mp ⟨i, piece⟩)
          (analysed.not_needed_at_entry given noPhi range)
    · exact absurd (found_lt stored) (Nat.not_lt.mpr new)
  | @edge b c B C n s t u _ stored runs storedC isPred enters begins =>
    by_cases old : b < g.blocks.size
    · have storedB := Array.getElem?_eq_getElem old
      obtain ⟨r, range, -, stop⟩ := analysed.numbered.range b (given.valid.complete b _ storedB)
      obtain ⟨B', stored', isB⟩ := connected.block b _ storedB
      obtain rfl := mem_unique stored stored'
      rw [isB] at runs
      obtain ⟨t₂, runs, atTail⟩ := runs.append_inv
      obtain ⟨t₁, atHead, body⟩ := runs.append_inv
      have whole : g.blocks[b].instrs = [] ++ g.blocks[b].instrs ++ [] := by simp
      have holds := holds_script given analysed parts apart connected storedB range whole body
        (begins.old old r t₁ range atHead)
      rw [nil_append, ← body_eq storedB,
        show r.start + 2 * (g.body b).length = r.stop - 2 by lia] at holds
      exact holdsAtStart_of_edge given analysed parts apart connected holds old range atTail
        storedC isPred enters
    · exact holdsAtStart_of_new given analysed parts apart connected begins
        (Nat.le_of_not_lt old) stored runs storedC isPred enters

end

/-- Split intervals are connected so that values are where they are said to be. Intervals may be
split in any gap and at the start of any block, and be put anywhere, as long as those that are there
together do not share a place. Whatever way a run takes through the connected program, before an
instruction every value whose interval covers the gap in front of it is in the place given for it. -/
theorem values_in_place (consistent : g.Consistent) (valid : g.validate = .ok ())
    (noPhi : ∀ pc x, g.At g.entry pc x → x.isPhi = false) (single : g.SingleEdges) (bare : g.Bare)
    (analysis : ofGraph g g.target = .ok l) (recut : l.pool.Recut l.Joint p)
    (apart : p.Apart g) {count : Nat} (run : (l.cut p).connect g = .ok (count, k))
    (reaches : Reaches g k (l.cut p) b s) (stored : k.blocks[b]? = some B)
    {before after : List InstrId} (split : B.instrs = before ++ d :: after)
    (runs : Runs g k (l.cut p) before s t) (found : g.instrs[d]? = some x) (plain : x.isPhi = false)
    {ln : Position} (isAt : l.numbering.numberOf? d = some ln) {v : ValueId} {id : IntervalId}
    {iv : Interval} (known : l.intervalOf? v = some id) (isId : l.pool.intervals[id]? = some iv)
    (covered : iv.covers (ln - 1) = true) :
    ∃ place w, (l.cut p).locationAt v (ln - 1) = .ok (some place) ∧ t.value v = some w ∧
      g.reading t.store place = w := by
  obtain ⟨tree, order, isValid⟩ := validate_ok valid
  have given₀ : g.Accepted tree order := ⟨consistent, isValid⟩
  obtain ⟨sets, analysed⟩ := ofGraph_analysed given₀ analysis
  have given : g.Accepted tree l.numbering.order :=
    (Except.ok.inj (isValid.ordered.symm.trans analysed.numbered.ordered)) ▸ given₀
  have parts := recut.to_parts (analysed.pool_tidy given l.Joint) (analysed.pool_served given).rooted
  obtain ⟨gap, front, head, tail, connected⟩ :=
    connected_of_connect (l := l.cut p) given analysed.numbered bare single run
  have begins := holdsAtStart_of_reaches given analysed parts apart connected noPhi reaches
  have listed : d ∈ B.instrs := by simp [split]
  have isOld := found_lt found
  by_cases old : b < g.blocks.size
  · have storedG := Array.getElem?_eq_getElem old
    have inOrder := given.valid.complete b _ storedG
    obtain ⟨r, range, -⟩ := analysed.numbered.range b inOrder
    obtain ⟨B', stored', isB⟩ := connected.block b _ storedG
    obtain rfl := mem_unique stored stored'
    obtain ⟨B', stored', same, -⟩ := connected.woven.block b _ storedG
    obtain rfl := mem_unique stored stored'
    have listedG : d ∈ g.blocks[b].instrs := by
      rw [← same]
      exact mem_filter.mpr ⟨listed, by simpa using isOld⟩
    obtain ⟨ds₁, ds₂, splitG⟩ := append_of_mem listedG
    have split' : B.instrs = ((head b).toList ++ script front ds₁ ++ (front d).toList) ++
        d :: (script front ds₂ ++ (tail b).toList) := by simp [isB, splitG, script]
    obtain rfl := connected.woven.listed_once stored split stored split'
    rw [append_cancel_right (split.symm.trans split')] at runs
    obtain ⟨t₂, runs, atFront⟩ := runs.append_inv
    obtain ⟨t₁, atHead, body⟩ := runs.append_inv
    have whole : g.blocks[b].instrs = [] ++ ds₁ ++ d :: ds₂ := by simp [splitG]
    have holds := holds_script given analysed parts apart connected storedG range whole body
      (begins.old old r t₁ range atHead)
    have isAt' := (analysed.numbered.number_plain inOrder storedG range splitG
      (by rw [phiAt_eq found, plain])).1
    obtain rfl := mem_unique isAt isAt'
    have holds := holds_front given analysed parts apart connected found plain isAt atFront holds
    have own : iv.value = some v := by
      obtain ⟨iv', isId', first⟩ := analysed.first v id known
      exact mem_unique isId isId' ▸ first.value_eq
    obtain ⟨m, piece⟩ := (parts.covers v _).mpr ⟨iv, id, isId, own, covered⟩
    obtain ⟨root, foundR, ownR, isRoot⟩ := root_stays given analysed parts known
    exact ⟨_, _, locationAt_of_piece (l := l.cut p) parts.tidy known foundR ownR isRoot piece,
      holds.2 v m piece, rfl⟩
  · obtain ⟨i, _, _, rfl, -, -, isNew⟩ := connected.new b B (Nat.le_of_not_lt old) stored
    obtain rfl : d = i := by simpa using listed
    lia

theorem apart_of_each
    (each : ∀ i ∈ p.intervals, ¬g.Fixed i.location ∧
      ∀ j ∈ p.intervals, i.location = j.location → i.value = j.value) : p.Apart g := by
  refine ⟨?_, ?_⟩
  · rintro v w q i j ⟨_, found, own, -⟩ ⟨_, foundJ, ownJ, -⟩ samePlace
    have same := (each i (Array.mem_of_getElem? found)).2 j (Array.mem_of_getElem? foundJ) samePlace
    exact .inl (mem_unique own (same.trans ownJ))
  · rintro v q i ⟨_, found, -⟩ fixed
    exact absurd fixed (each i (Array.mem_of_getElem? found)).1

theorem computes_put {v : ValueId} {id : IntervalId} {i : Interval}
    (known : l.intervalOf? v = some id) (found : l.pool.intervals[id]? = some i)
    (isOpen : g.constantOf? v = .ok none) (w : Word) (s : Tracer) :
    Computes g l [v] s ⟨Function.update s.value v (some w), s.store.put i.location w⟩ := by
  refine ⟨?_, ?_, ?_⟩
  · simp only [mem_singleton, forall_eq]
    refine ⟨w, by simp, by simp [isOpen], ?_⟩
    rintro _ ⟨id', i', known', found', rfl⟩
    obtain rfl := mem_unique known known'
    obtain rfl := mem_unique found found'
    simp
  · exact fun u other => Function.update_of_ne (by simpa using other) _ _
  · exact fun place away => Store.put_other fun here =>
      away v mem_cons_self ⟨id, i, known, found, here.symm⟩

def relay (group : Option MoveGroup) : Graph :=
  { Graph.new "relay" .aarch64 with
    blocks := #[⟨[0], [], [1]⟩, ⟨[2, 1], [0], []⟩]
    instrs := #[
      { ofOpcode .parameter 0 .int64 with results := [0] },
      { ofOpcode .ret 1 .int64 with inputs := [1] },
      { ofOpcode .phi 1 .int64 with inputs := [0], results := [1], group }]
    values := #[⟨0, .int64⟩, ⟨2, .int64⟩] }

def relayLive : Liveness where
  numbering := ⟨[0, 1], #[some ⟨0, 4⟩, some ⟨4, 8⟩], #[some 2, some 6, some 4],
    #[none, some 0, none, some 1]⟩
  liveIn := #[[], []]
  pool := ⟨#[
    { Interval.ofValue 0 0 .int64 0 with ranges := [⟨2, 4⟩], uses := [⟨2, false, none⟩] },
    { Interval.ofValue 1 1 .int64 2 with
      ranges := [⟨4, 6⟩], uses := [⟨6, true, some (.register 0)⟩] }]⟩
  roots := #[some 0, some 1]
  physical := []

def relayPool (a b c : Location) : IntervalPool :=
  ⟨#[
    { Interval.ofValue 0 0 .int64 0 with
      ranges := [⟨2, 4⟩], uses := [⟨2, false, none⟩], location := a },
    { Interval.ofValue 1 1 .int64 2 with ranges := [⟨4, 5⟩], location := b, sibling := some 2 },
    { Interval.ofValue 1 1 .int64 2 with
      ranges := [⟨5, 6⟩], uses := [⟨6, true, some (.register 0)⟩], location := c
      definedBy := none, splitOff := true }]⟩

abbrev relayPlaced : Liveness :=
  relayLive.cut (relayPool (.register 0) (.register 1) (.register 2))

theorem relay_recut : relayLive.pool.Recut relayLive.Joint relayPlaced.pool := by
  have split : relayLive.pool.splitAt 1 5 = .ok (2, relayPool .invalid .invalid .invalid) := by
    decide +kernel
  have cut : relayLive.pool.Recut relayLive.Joint _ := .split .base (.inl rfl) split
  have first := cut.place
    (rfl : (relayPool .invalid .invalid .invalid).intervals[0]? = some _) (.register 0)
  have second := first.place
    (rfl : (relayPool (.register 0) .invalid .invalid).intervals[1]? = some _) (.register 1)
  exact second.place
    (rfl : (relayPool (.register 0) (.register 1) .invalid).intervals[2]? = some _) (.register 2)

def relayMove (purpose : MoveGroup.Purpose) (n : Nat) : MoveGroup :=
  { MoveGroup.empty purpose with moves := [⟨.register n, .register (n + 1), .int64⟩] }

/-- The move on the edge is made at the end of the first block. -/
theorem relay_reaches {k : Graph} {e : InstrId} {is : List InstrId} {group : Option MoveGroup}
    (isEntry : k.entry = 0) (stored : k.blocks[0]? = some ⟨[0, e], [], [1]⟩)
    (storedC : k.blocks[1]? = some ⟨is, [0], []⟩)
    (param : k.instrs[0]? = some { ofOpcode .parameter 0 .int64 with results := [0] })
    (moves : k.instrs[e]? = some (ofGroup 0 (relayMove .phiMove 0)))
    (phis : ∀ i ∈ is, ∀ x ∈ k.instrs[i]?, x.isPhi = true → x.inputs = [0] ∧ x.results = [1])
    (listed : ∃ i ∈ is, ∃ x ∈ k.instrs[i]?, x.isPhi = true) :
    ∃ s, Reaches (relay group) k relayPlaced 1 s ∧ s.value 1 = some 7 ∧
      s.store (.register 2) = 0 := by
  have first := computes_put (rfl : relayPlaced.intervalOf? 0 = some 0) (rfl : _ = some _)
    (by rfl : (relay group).constantOf? 0 = .ok none) 7 ⟨fun _ => none, fun _ => 0⟩
  have runs := Runs.cons (.code param rfl rfl first) (.cons (.moves moves rfl rfl) .nil)
  have enters (s : Tracer) (isValue : s.value 0 = some 7) :
      Enters k is 0 s { s with value := Function.update s.value 1 (some 7) } := by
    refine ⟨rfl, ?_, fun v none => Function.update_of_ne ?_ _ _⟩
    · intro i member x found isPhi src dst isSrc isDst
      obtain ⟨inputs, results⟩ := phis i member x found isPhi
      rw [inputs] at isSrc
      rw [results] at isDst
      obtain rfl := some.inj isSrc
      obtain rfl := some.inj isDst
      simp [isValue]
    · rintro rfl
      obtain ⟨i, member, x, found, isPhi⟩ := listed
      exact none i member x found isPhi (by simp [(phis i member x found isPhi).2])
  exact ⟨_, .edge (isEntry ▸ .entry fun _ => rfl) stored runs storedC rfl (enters _ rfl), rfl, rfl⟩

def relayed : Graph :=
  { relay none with
    blocks := #[⟨[0, 4], [], [1]⟩, ⟨[2, 3, 1], [0], []⟩]
    instrs := (relay none).instrs ++
      #[ofGroup 1 (relayMove .splitMove 1), ofGroup 0 (relayMove .phiMove 0)] }

/-- The parameter is moved on the edge to where the phi starts, and once more before the return. -/
theorem relay_in_place : ∃ s t, ofGraph (relay none) (relay none).target = .ok relayLive ∧
    relayLive.pool.Recut relayLive.Joint relayPlaced.pool ∧ relayPlaced.pool.Apart (relay none) ∧
    relayPlaced.connect (relay none) = .ok (0, relayed) ∧
    Reaches (relay none) relayed relayPlaced 1 s ∧ Runs (relay none) relayed relayPlaced [2, 3] s t ∧
    relayPlaced.locationAt 1 5 = .ok (some (.register 2)) ∧ t.value 1 = some 7 ∧
    (relay none).reading t.store (.register 2) = 7 := by
  have analysis : ofGraph (relay none) (relay none).target = .ok relayLive := by decide +kernel
  have run : relayPlaced.connect (relay none) = .ok (0, relayed) := by decide +kernel
  have apart : relayPlaced.pool.Apart (relay none) := apart_of_each (by unfold Fixed; decide +kernel)
  obtain ⟨s, reaches, isValue, -⟩ := relay_reaches (k := relayed) rfl rfl rfl rfl rfl
    (by decide +kernel) (by decide +kernel)
  have last : Runs (relay none) relayed relayPlaced [2, 3] s _ :=
    .cons (.phi (rfl : relayed.instrs[2]? = some _) rfl)
      (.cons (.moves (rfl : relayed.instrs[3]? = some _) rfl rfl) .nil)
  have place : relayPlaced.locationAt 1 5 = .ok (some (.register 2)) := by decide +kernel
  have noPhi : ∀ pc x, (relay none).At (relay none).entry pc x → x.isPhi = false :=
    (forall_at_iff rfl).mpr (by decide +kernel)
  have single : (relay none).SingleEdges := singleEdges_of_each (by decide +kernel)
  have bare : (relay none).Bare := fun i x found =>
    (by decide +kernel : ∀ x ∈ (relay none).instrs, x.group = none) x (Array.mem_of_getElem? found)
  obtain ⟨place', w, isPlace, isW, holds⟩ := values_in_place ⟨by decide +kernel, by decide +kernel⟩
    (by decide +kernel) noPhi single bare analysis relay_recut apart run reaches rfl rfl last
    (rfl : (relay none).instrs[1]? = some _) rfl rfl (rfl : relayLive.intervalOf? 1 = some 1)
    (rfl : relayLive.pool.intervals[1]? = some _) rfl
  obtain rfl : .register 2 = place' := by simpa [place] using isPlace
  obtain rfl : 7 = w := some.inj (isValue.symm.trans isW)
  exact ⟨s, _, analysis, relay_recut, apart, run, reaches, last, place, isW, holds⟩

def relayLost : Graph :=
  { relay (some (relayMove .splitMove 1)) with
    blocks := #[⟨[0, 3], [], [1]⟩, ⟨[2, 1], [0], []⟩]
    instrs := (relay (some (relayMove .splitMove 1))).instrs.push (ofGroup 0 (relayMove .phiMove 0)) }

/-- A phi that carries a group of moves hides the move before the return: the move is added to that
group, which nobody executes. The value is not in the place given for it. -/
theorem move_lost_in_phi : ∃ g s, g = relay (some (.empty .splitMove)) ∧ g.Consistent ∧
    g.validate = .ok () ∧ (∀ pc x, g.At g.entry pc x → x.isPhi = false) ∧ g.SingleEdges ∧
    ofGraph g g.target = .ok relayLive ∧ relayLive.pool.Recut relayLive.Joint relayPlaced.pool ∧
    relayPlaced.pool.Apart g ∧ relayPlaced.connect g = .ok (0, relayLost) ∧
    Reaches g relayLost relayPlaced 1 s ∧ relayLost.blocks[1]? = some ⟨[2] ++ 1 :: [], [0], []⟩ ∧
    Runs g relayLost relayPlaced [2] s s ∧ relayLive.numbering.numberOf? 1 = some 6 ∧
    relayPlaced.locationAt 1 5 = .ok (some (.register 2)) ∧ s.value 1 = some 7 ∧
    g.reading s.store (.register 2) = 0 := by
  obtain ⟨s, reaches, isValue, unset⟩ := relay_reaches (k := relayLost) rfl rfl rfl rfl rfl
    (by decide +kernel) (by decide +kernel)
  have free : ¬(relay (some (.empty .splitMove))).Fixed (.register 2) := by
    unfold Fixed
    decide +kernel
  exact ⟨_, s, rfl, ⟨by decide +kernel, by decide +kernel⟩, by decide +kernel,
    (forall_at_iff rfl).mpr (by decide +kernel), singleEdges_of_each (by decide +kernel),
    by decide +kernel, relay_recut, apart_of_each (by unfold Fixed; decide +kernel),
    by decide +kernel, reaches, rfl, .cons (.phi (rfl : relayLost.instrs[2]? = some _) rfl) .nil,
    rfl, by decide +kernel, isValue, (reading_eq free s.store).trans unset⟩

end Connection

end RegisterAllocation
