import RegisterAllocation.Allocate
import RegisterAllocation.Proofs.EdgeBlocks
import RegisterAllocation.Proofs.Requirements

/-!
What allocation adds to a program. Instructions keep their code and get locations, and groups of
moves are put between them. A move brings an argument into place or takes a result out of its
place, or it leads from one piece of a value to the next or across an edge.
-/

namespace RegisterAllocation

open Array List Option Build Graph Instr IntervalPool Liveness MoveGroup

theorem MoveGroup.add_ok {group group' : MoveGroup} {m : Move} (run : group.add m = .ok group') :
    group.sequenced = false ∧ group' = { group with moves := group.moves ++ [m] } := by
  simp only [add, bind_ok, ensure_ok, pure_ok] at run
  obtain ⟨_, -, _, unordered, _, -, rfl⟩ := run
  exact ⟨unordered, rfl⟩

theorem MoveGroup.addAll_ok {group group' : MoveGroup} {moves : List Move}
    (run : group.addAll moves = .ok group') :
    group' = { group with moves := group.moves ++ moves } := by
  unfold addAll at run
  induction moves generalizing group with
  | nil =>
    obtain rfl := pure_ok.mp run
    simp
  | cons m rest ih =>
    obtain ⟨next, added, run⟩ := foldlM_cons_ok.mp run
    obtain ⟨-, rfl⟩ := add_ok added
    simpa using ih run

namespace Placement

variable {g h : Graph} {l : Liveness} {target : Target} {d : InstrId} {x : Instr} {v : ValueId}
  {pos : Position} {place : Location} {s : Sites}

theorem rootLocation_ok (run : rootLocation l v = .ok place) :
    ∃ id i, l.intervalOf? v = some id ∧ l.pool.intervals[id]? = some i ∧ i.location = place ∧
      place.isInvalid = false := by
  unfold rootLocation at run
  split at run
  · exact absurd run refuse_ne_ok
  · rename_i root known
    simp only [bind_ok, lift_ok, get_ok] at run
    obtain ⟨i, found, run⟩ := run
    split at run
    · exact absurd run refuse_ne_ok
    · rename_i valid
      obtain rfl := pure_ok.mp run
      exact ⟨root, i, known, found, rfl, by simpa using valid⟩

theorem inputLocation_ok (run : inputLocation l d pos v = .ok place) :
    l.locationAt v (pos - 1) = .ok (some place) := by
  simp only [inputLocation, bind_ok, lift_ok] at run
  obtain ⟨place?, isPlace, run⟩ := run
  split at run
  · obtain rfl := pure_ok.mp run
    exact isPlace
  · exact absurd run refuse_ne_ok

theorem arguments_ok {entries : List (Location × Location × ValueType)} {group group' : MoveGroup}
    {places : List Location} (run : arguments g entries group = .ok (places, group')) :
    places = entries.map (fun e => argumentLocation g e.1 e.2.1) ∧
      group'.purpose = group.purpose ∧ group'.sequenced = group.sequenced ∧
      ∀ m ∈ group'.moves, m ∈ group.moves ∨ ∃ e ∈ entries,
        m = ⟨e.1, argumentLocation g e.1 e.2.1, e.2.2⟩ := by
  induction entries generalizing group places with
  | nil =>
    obtain ⟨rfl, rfl⟩ := Prod.mk.inj (pure_ok.mp run)
    exact ⟨rfl, rfl, rfl, fun m member => .inl member⟩
  | cons e rest ih =>
    obtain ⟨place, param, ty⟩ := e
    have onward : ∀ next others last, arguments g rest next = .ok (others, last) →
        argumentLocation g place param :: others = places → last = group' →
        next.purpose = group.purpose → next.sequenced = group.sequenced →
        (∀ m ∈ next.moves, m ∈ group.moves ∨ m = ⟨place, argumentLocation g place param, ty⟩) →
        places = ((place, param, ty) :: rest).map (fun e => argumentLocation g e.1 e.2.1) ∧
          group'.purpose = group.purpose ∧ group'.sequenced = group.sequenced ∧
          ∀ m ∈ group'.moves, m ∈ group.moves ∨ ∃ e ∈ (place, param, ty) :: rest,
            m = ⟨e.1, argumentLocation g e.1 e.2.1, e.2.2⟩ := by
      rintro next others last onward rfl rfl purpose sequenced moves
      obtain ⟨rfl, purpose', sequenced', moves'⟩ := ih onward
      refine ⟨rfl, purpose'.trans purpose, sequenced'.trans sequenced, fun m member => ?_⟩
      rcases moves' m member with old | ⟨e, among, same⟩
      · refine (moves m old).imp_right fun new => ?_
        exact ⟨(place, param, ty), mem_cons_self, new⟩
      · exact .inr ⟨e, mem_cons_of_mem _ among, same⟩
    rw [arguments] at run
    split at run <;> simp only [bind_ok, pure_ok, Prod.exists, Prod.mk.injEq] at run
    · obtain ⟨next, rfl, others, last, run, isPlaces, isGroup⟩ := run
      exact onward _ others last run isPlaces isGroup rfl rfl fun m old => .inl old
    · obtain ⟨next, added, others, last, run, isPlaces, isGroup⟩ := run
      obtain ⟨-, rfl⟩ := MoveGroup.add_ok added
      refine onward _ others last run isPlaces isGroup rfl rfl fun m member => ?_
      exact (List.mem_append.mp member).imp_right List.mem_singleton.mp

theorem sites_phi (phi : x.isPhi = true) (run : sites g l target d x = .ok s) :
    ∃ v place, x.results.head? = some v ∧ rootLocation l v = .ok place ∧
      s = ⟨replicate x.inputs.length place, [place], []⟩ := by
  simp only [sites, phi, ↓reduceIte, bind_ok, lift_ok, need_eq_ok, pure_ok] at run
  obtain ⟨v, isResult, place, isPlace, rfl⟩ := run
  exact ⟨v, place, isResult, isPlace, rfl⟩

theorem sites_plain (plain : x.isPhi = false) (noCall : x.isCall = false)
    (run : sites g l target d x = .ok s) :
    ∃ pos, l.numbering.numberOf? d = some pos ∧
      x.inputs.mapM (inputLocation l d pos) = .ok s.inputs ∧
      x.results.mapM (rootLocation l) = .ok s.results ∧ s.insertions = [] := by
  simp only [sites, plain, Bool.false_eq_true, ↓reduceIte] at run
  split at run
  · exact absurd run refuse_ne_ok
  · rename_i pos isAt
    simp only [noCall, Bool.false_eq_true, ↓reduceIte, bind_ok, pure_ok] at run
    obtain ⟨inputs, isInputs, results, isResults, rfl⟩ := run
    exact ⟨pos, isAt, isInputs, isResults, rfl⟩

/-- A call has its arguments where the convention wants them, and its result in the return
register. -/
theorem sites_call (call : x.isCall = true) (run : sites g l target d x = .ok s) :
    ∃ cc pos places types fills, target.convention = some cc ∧
      l.numbering.numberOf? d = some pos ∧ x.inputs.mapM (inputLocation l d pos) = .ok places ∧
      g.typesOf x.inputs = .ok types ∧
      arguments g (places.zip ((cc.paramLocations types).zip types)) (.empty .inputFill) =
        .ok (s.inputs, fills) ∧
      s.results = (x.results.head?.map fun _ => cc.returnLocation x.ty).toList ∧
      ∀ n ∈ s.insertions, n.anchor = d ∧ (n.group = fills ∨
        ∃ v place, x.results.head? = some v ∧ rootLocation l v = .ok place ∧
          (MoveGroup.empty .resultSpill).add ⟨cc.returnLocation x.ty, place, x.ty⟩ =
            .ok n.group) := by
  have plain : x.isPhi = false := by
    by_contra phi
    simp only [Bool.not_eq_false, isPhi, beq_iff_eq] at phi
    simp [isCall, phi, Opcode.isCall] at call
  simp only [sites, plain, Bool.false_eq_true, ↓reduceIte] at run
  split at run
  · exact absurd run refuse_ne_ok
  rename_i pos isAt
  simp only [call, ↓reduceIte, bind_ok] at run
  obtain ⟨places, isPlaces, run⟩ := run
  split at run
  · exact absurd run refuse_ne_ok
  rename_i cc convention
  simp only [callSites, bind_ok, lift_ok, Prod.exists] at run
  obtain ⟨types, isTypes, inputs, fills, filled, run⟩ := run
  have before : ∀ n ∈ (if fills.isEmpty = true then [] else [⟨d, true, fills⟩] : List Insertion),
      n.anchor = d ∧ n.group = fills := by
    intro n member
    split at member
    · simp at member
    · rw [mem_singleton.mp member]
      exact ⟨rfl, rfl⟩
  refine ⟨cc, pos, places, types, fills, convention, isAt, isPlaces, isTypes, ?_⟩
  split at run
  · rename_i none
    obtain rfl := pure_ok.mp run
    exact ⟨filled, by simp [none], fun n member => (before n member).imp_right .inl⟩
  · rename_i v isResult
    simp only [bind_ok] at run
    obtain ⟨place, isPlace, run⟩ := run
    split at run
    · obtain rfl := pure_ok.mp run
      exact ⟨filled, by simp [isResult], fun n member => (before n member).imp_right .inl⟩
    · simp only [bind_ok, lift_ok, pure_ok] at run
      obtain ⟨spill, added, rfl⟩ := run
      refine ⟨filled, by simp [isResult], fun n member => ?_⟩
      rcases mem_append.mp member with member | member
      · exact (before n member).imp_right .inl
      · rw [mem_singleton.mp member]
        exact ⟨rfl, .inr ⟨v, place, isResult, isPlace, added⟩⟩

end Placement

inductive Origin (g : Graph) (l : Liveness) : Purpose → Move → Prop where
  | argument {d : InstrId} {x : Instr} {cc : CallingConvention} {types : List ValueType}
      {pos : Position} {k : Nat} {v : ValueId} {place param : Location} {ty : ValueType}
      (found : g.instrs[d]? = some x) (call : x.isCall = true)
      (convention : g.target.convention = some cc) (isTypes : g.typesOf x.inputs = .ok types)
      (isAt : l.numbering.numberOf? d = some pos) (input : x.inputs[k]? = some v)
      (isPlace : l.locationAt v (pos - 1) = .ok (some place))
      (isParam : (cc.paramLocations types)[k]? = some param) :
      Origin g l .inputFill ⟨place, Placement.argumentLocation g place param, ty⟩
  | result {d : InstrId} {x : Instr} {cc : CallingConvention} {v : ValueId} {place : Location}
      (found : g.instrs[d]? = some x) (call : x.isCall = true)
      (convention : g.target.convention = some cc) (isResult : x.results.head? = some v)
      (isPlace : Placement.rootLocation l v = .ok place) :
      Origin g l .resultSpill ⟨cc.returnLocation x.ty, place, x.ty⟩
  | split {id k : IntervalId} {i j : Interval} {v : ValueId}
      (found : l.pool.intervals[id]? = some i) (foundJ : l.pool.intervals[k]? = some j)
      (own : i.value = some v) (ownJ : j.value = some v) (moves : Connection.Moves i j) :
      Origin g l .splitMove ⟨i.location, j.location, i.ty⟩
  | crossing {succ pred : BlockId} {S : Block} {here : Range} {last : Position}
      {src dst : ValueId} {a b : Location} {ty : ValueType} (stored : g.blocks[succ]? = some S)
      (edge : pred ∈ S.preds) (range : l.numbering.rangeOf? succ = some here)
      (isSrc : l.locationAt src last = .ok (some a))
      (isDst : l.locationAt dst here.start = .ok (some b)) : Origin g l .phiMove ⟨a, b, ty⟩

structure MoveGroup.Made (g : Graph) (l : Liveness) (group : MoveGroup) : Prop where
  unordered : group.sequenced = false
  origin : ∀ m ∈ group.moves, Origin g l group.purpose m

namespace Placement

variable {g : Graph} {l : Liveness} {d : InstrId} {x : Instr} {s : Sites}

theorem sites_made (found : g.instrs[d]? = some x) (run : sites g l g.target d x = .ok s) :
    ∀ n ∈ s.insertions, n.group.Made g l ∧ n.anchor = d ∧ x.isCall = true := by
  intro n member
  cases phi : x.isPhi with
  | true =>
    obtain ⟨v, place, -, -, rfl⟩ := sites_phi phi run
    simp at member
  | false =>
    cases call : x.isCall with
    | false =>
      obtain ⟨pos, -, -, -, none⟩ := sites_plain phi call run
      simp [none] at member
    | true =>
      obtain ⟨cc, pos, places, types, fills, convention, isAt, isPlaces, isTypes, filled, -,
        groups⟩ :=
        sites_call call run
      obtain ⟨isAnchor, rfl | ⟨v, place, isResult, isPlace, added⟩⟩ := groups n member
      · obtain ⟨-, purpose, unordered, moves⟩ := arguments_ok filled
        refine ⟨⟨unordered, fun m among => ?_⟩, isAnchor, rfl⟩
        rw [purpose]
        rcases moves m among with old | ⟨e, entry, rfl⟩
        · simp [MoveGroup.empty] at old
        · obtain ⟨k, atK⟩ := mem_iff_getElem?.mp entry
          obtain ⟨isE, rest⟩ := getElem?_zip_eq_some.mp atK
          obtain ⟨isParam, -⟩ := getElem?_zip_eq_some.mp rest
          obtain ⟨v, input, isPlace⟩ := (mapM_getElem isPlaces k).2 e.1 isE
          exact .argument found call convention isTypes isAt input (inputLocation_ok isPlace) isParam
      · obtain ⟨-, same⟩ := MoveGroup.add_ok added
        rw [same]
        refine ⟨⟨rfl, fun m among => ?_⟩, isAnchor, rfl⟩
        obtain rfl : m = ⟨cc.returnLocation x.ty, place, x.ty⟩ := by
          simpa [MoveGroup.empty] using among
        exact .result found call convention isResult isPlace

end Placement

namespace Graph

variable {ok : MoveGroup → Prop} {h k k' : Graph} {b : BlockId} {i : InstrId}

structure Extended (ok : MoveGroup → Prop) (h k : Graph) : Prop where
  same : k = { h with instrs := k.instrs, blocks := k.blocks }
  instr : ∀ (i : InstrId) (y : Instr), h.instrs[i]? = some y →
    ∃ group, k.instrs[i]? = some { y with group } ∧ (y.group = none → group = none)
  added : ∀ (i : InstrId) (y : Instr), h.instrs.size ≤ i → k.instrs[i]? = some y →
    ∃ b group, y = ofGroup b group ∧ ok group

namespace Extended

theorem refl (ok : MoveGroup → Prop) (h : Graph) : Extended ok h h := by
  refine ⟨rfl, fun i y found => ⟨y.group, found, fun none => none⟩, fun i y outside found => ?_⟩
  have := found_lt found
  omega

theorem after_insertAt (extended : Extended ok h k) {group : MoveGroup} (fits : ok group)
    {owner : BlockId} {pos : Nat}
    (run : Build.insertAt b pos (ofGroup owner group) k = .ok (i, k')) :
    Extended ok h k' := by
  obtain ⟨rfl, B, -, -, rfl⟩ := insertAt_run.mp run
  refine ⟨?_, fun j y found => ?_, fun j y outside found => ?_⟩
  · conv => lhs; rw [Build.inserted, extended.same]
    rfl
  · obtain ⟨other, foundK, still⟩ := extended.instr j y found
    have inside := found_lt foundK
    exact ⟨other, by rw [instr_inserted, if_neg (Nat.ne_of_lt inside), foundK], still⟩
  · rw [instr_inserted] at found
    split at found
    · obtain rfl := some.inj found
      exact ⟨b, group, rfl, fits⟩
    · exact extended.added j y outside found

theorem after_modifyGroup (extended : Extended ok h k)
    {f : MoveGroup → Except Fault MoveGroup} {u : Unit}
    (step : ∀ b old new, k.instrs[i]? = some (ofGroup b old) → ok old → f old = .ok new →
      ok new) (run : Build.modifyGroup i f k = .ok (u, k')) : Extended ok h k' := by
  obtain ⟨z, old, new, found, has, changed, rfl⟩ := modifyGroup_run.mp run
  have inside := found_lt found
  refine ⟨?_, fun j y foundJ => ?_, fun j y outside foundJ => ?_⟩
  · conv => lhs; rw [extended.same]
  · obtain ⟨other, foundK, still⟩ := extended.instr j y foundJ
    by_cases here : i = j
    · subst here
      obtain rfl := mem_unique found foundK
      refine ⟨some new, by simp [getElem?_setIfInBounds_self_of_lt inside], fun none => ?_⟩
      exact absurd (has.symm.trans (still none)) (by simp)
    · exact ⟨other, by rw [getElem?_setIfInBounds_ne here, foundK], still⟩
  · by_cases here : i = j
    · subst here
      obtain ⟨b, group, rfl, fits⟩ := extended.added i z outside found
      obtain rfl : group = old := by simpa [ofGroup] using has
      rw [getElem?_setIfInBounds_self_of_lt inside] at foundJ
      obtain rfl := some.inj foundJ
      exact ⟨b, new, rfl, step b group new found fits changed⟩
    · rw [getElem?_setIfInBounds_ne here] at foundJ
      exact extended.added j y outside foundJ

theorem after_splitEdge (extended : Extended ok h k) {pred succ n : BlockId}
    (run : Build.splitEdge pred succ k = .ok (n, k')) : Extended ok h k' := by
  obtain ⟨-, same, -⟩ := splitEdge_run run
  have instrs : k'.instrs = k.instrs := by rw [same]
  refine ⟨?_, by rw [instrs]; exact extended.instr, by rw [instrs]; exact extended.added⟩
  rw [same]
  conv => lhs; rw [extended.same]

end Extended

end Graph

namespace Placement

variable {h k k' : Graph} {l : Liveness} {d : InstrId} {x : Instr} {ids : List InstrId}

theorem sites_congr {instrs : Array Instr} {inputs results : List Location} :
    sites { h with instrs } l h.target d
      { x with inputLocations := inputs, resultLocations := results } =
      sites h l h.target d x := by
  have same : ∀ entries group,
      arguments { h with instrs } entries group = arguments h entries group := by
    intro entries
    induction entries with
    | nil => exact fun _ => rfl
    | cons e rest ih =>
      intro group
      obtain ⟨place, param, ty⟩ := e
      simp only [arguments, ih]
      rfl
  unfold sites callSites
  simp only [same]
  rfl

structure Placed (h : Graph) (l : Liveness) (done : List InstrId) (k : Graph)
    (insertions : List Insertion) : Prop where
  same : k = { h with instrs := k.instrs }
  size : k.instrs.size = h.instrs.size
  instr : ∀ (i : InstrId) (x : Instr), h.instrs[i]? = some x → ∃ inputs results,
    k.instrs[i]? = some { x with inputLocations := inputs, resultLocations := results } ∧
    (i ∈ done → ∃ s, sites h l h.target i x = .ok s ∧ s.inputs = inputs ∧ s.results = results)
  made : ∀ n ∈ insertions, n.group.Made h l
  anchored : ∀ n ∈ insertions, ∃ x, h.instrs[n.anchor]? = some x ∧ x.isCall = true

theorem Placed.after_placeInstr {done : List InstrId} {insertions more : List Insertion}
    (placed : Placed h l done k insertions) (run : placeInstr k l h.target d = .ok (k', more)) :
    Placed h l (d :: done) k' (insertions ++ more) := by
  simp only [placeInstr, bind_ok, lift_ok, instr_ok, modifyInstr_ok, pure_ok,
    Prod.mk.injEq] at run
  obtain ⟨y, foundY, s, isSites, _, ⟨z, foundZ, rfl⟩, rfl, rfl⟩ := run
  obtain rfl := mem_unique foundY foundZ
  have inside := found_lt foundY
  obtain ⟨x, foundX⟩ : ∃ x, h.instrs[d]? = some x :=
    ⟨_, Array.getElem?_eq_getElem (placed.size ▸ inside)⟩
  obtain ⟨inputs, results, foundK, -⟩ := placed.instr d x foundX
  obtain rfl := mem_unique foundY foundK
  have sitesX : sites h l h.target d x = .ok s := by
    rw [placed.same] at isSites
    rwa [sites_congr] at isSites
  refine ⟨?_, by simpa using placed.size, fun i x found => ?_, fun n member => ?_, fun n member => ?_⟩
  · conv => lhs; rw [placed.same]
  · by_cases here : d = i
    · subst here
      obtain rfl := mem_unique foundX found
      refine ⟨s.inputs, s.results, ?_, fun _ => ⟨s, sitesX, rfl, rfl⟩⟩
      rw [getElem?_setIfInBounds_self_of_lt inside]
    · obtain ⟨inputs, results, foundI, known⟩ := placed.instr i x found
      refine ⟨inputs, results, by rw [getElem?_setIfInBounds_ne here, foundI], fun member => ?_⟩
      exact known ((mem_cons.mp member).resolve_left (Ne.symm here))
  · rcases mem_append.mp member with old | new
    · exact placed.made n old
    · exact (sites_made foundX sitesX n new).1
  · rcases mem_append.mp member with old | new
    · exact placed.anchored n old
    · obtain ⟨-, isAnchor, call⟩ := sites_made foundX sitesX n new
      exact ⟨x, isAnchor ▸ foundX, call⟩

theorem Placed.after_placeInstrs {done : List InstrId} {insertions all : List Insertion}
    (placed : Placed h l done k insertions)
    (run : placeInstrs l h.target ids k insertions = .ok (k', .ok all)) :
    ∃ done', (∀ i, i ∈ done ∨ i ∈ ids → i ∈ done') ∧ Placed h l done' k' all := by
  induction ids generalizing done k insertions with
  | nil =>
    simp only [placeInstrs, pure_ok, Prod.mk.injEq, Except.ok.injEq] at run
    obtain ⟨rfl, rfl⟩ := run
    exact ⟨done, by simp, placed⟩
  | cons d rest ih =>
    rw [placeInstrs] at run
    split at run
    · rename_i mid more first
      obtain ⟨done', all, placed'⟩ := ih (placed.after_placeInstr first) run
      refine ⟨done', fun i member => all i ?_, placed'⟩
      grind
    · simp at run
    · simp at run

theorem insert_run {n : Insertion} {u : Unit} (run : insert n k = .ok (u, k')) :
    ∃ y C i pos, k.instrs[n.anchor]? = some y ∧ k.blocks[y.block]? = some C ∧
      n.anchor ∈ C.instrs ∧ (pos = C.instrs.idxOf n.anchor ∨ pos = C.instrs.idxOf n.anchor + 1) ∧
      Build.insertAt y.block pos (ofGroup 0 n.group) k = .ok (i, k') := by
  rw [insert] at run
  split at run <;>
    simp only [bind_run, insertBefore, insertAfter, ask_run, pure_run,
      instr_ok, positionInBlock, Graph.block_ok, bind_ok, ensure_ok, pure_ok] at run <;>
    obtain ⟨i, _, ⟨y, _, ⟨found, rfl⟩, pos, _,
      ⟨⟨y', found', C, stored, _, listed, rfl⟩, rfl⟩, inserted⟩, same⟩ := run <;>
    obtain ⟨-, rfl⟩ := Prod.mk.inj same <;>
    obtain rfl := mem_unique found found'
  · exact ⟨y, C, i, _, found, stored, listed, .inl rfl, inserted⟩
  · exact ⟨y, C, i, _, found, stored, listed, .inr rfl, inserted⟩

end Placement

theorem MoveGroup.Made.after_add {g : Graph} {l : Liveness} {group group' : MoveGroup} {m : Move}
    (made : group.Made g l) (origin : Origin g l group.purpose m) (run : group.add m = .ok group') :
    group'.Made g l ∧ group'.purpose = group.purpose := by
  obtain ⟨-, rfl⟩ := add_ok run
  refine ⟨⟨made.unordered, fun n member => ?_⟩, rfl⟩
  rcases mem_append.mp member with old | new
  · exact made.origin n old
  · rw [mem_singleton.mp new]
    exact origin

theorem MoveGroup.Made.of_empty (g : Graph) (l : Liveness) (purpose : Purpose) :
    (MoveGroup.empty purpose).Made g l :=
  ⟨rfl, by simp [MoveGroup.empty]⟩

namespace Connection

open Graph

variable {g h k k' : Graph} {l : Liveness} {i : InstrId} {v : ValueId}

structure Threaded (g : Graph) (l : Liveness) (h k : Graph) : Prop where
  extended : Extended (MoveGroup.Made g l) h k
  ends : ∀ c, ends k c = ends h c

theorem Threaded.after_insertAt (threaded : Threaded g l h k) {group : MoveGroup}
    (made : group.Made g l) {b owner : BlockId} {pos : Nat}
    (run : Build.insertAt b pos (ofGroup owner group) k = .ok (i, k')) : Threaded g l h k' :=
  ⟨threaded.extended.after_insertAt made run, fun c => (ends_insertAt run c).trans (threaded.ends c)⟩

theorem Threaded.after_place (threaded : Threaded g l h k) {n : Placement.Insertion} {u : Unit}
    (made : n.group.Made g l) (run : Placement.insert n k = .ok (u, k')) : Threaded g l h k' := by
  obtain ⟨y, C, i, pos, -, -, -, -, inserted⟩ := Placement.insert_run run
  exact threaded.after_insertAt made inserted

theorem openGroup_ok {instrs : List InstrId} (run : openGroup? k instrs = .ok (some i)) :
    instrs.head? = some i ∧
      ∃ y group, k.instrs[i]? = some y ∧ y.group = some group ∧ group.purpose = .splitMove := by
  cases instrs with
  | nil => simp [openGroup?] at run
  | cons j rest =>
    simp only [openGroup?, bind_ok, instr_ok] at run
    obtain ⟨y, found, run⟩ := run
    split at run
    · rename_i group has
      split at run
      · rename_i open'
        obtain rfl := some.inj (pure_ok.mp run)
        exact ⟨rfl, y, group, found, has, open'.1⟩
      · simp at run
    · simp at run

theorem Threaded.after_moveBefore (threaded : Threaded g l h k) {anchor : InstrId}
    {m : Move} {u : Unit}
    (origin : Origin g l .splitMove m) (run : moveBefore anchor m k = .ok (u, k')) :
    Threaded g l h k' := by
  obtain ⟨x, C, earlier, fills, -, -, -, -, -, changed⟩ := moveBefore_run run
  rcases changed with ⟨i, opened, changed⟩ | ⟨group, i, -, made, inserted⟩
  · refine ⟨threaded.extended.after_modifyGroup ?_ changed,
      fun c => (ends_modifyGroup changed c).trans (threaded.ends c)⟩
    intro b old new found made added
    obtain ⟨-, y, group, foundY, has, purpose⟩ := openGroup_ok opened
    obtain rfl := mem_unique found foundY
    obtain rfl : old = group := by simpa [ofGroup] using has
    exact (made.after_add (purpose ▸ origin) added).1
  · exact threaded.after_insertAt ((MoveGroup.Made.of_empty g l .splitMove).after_add origin made).1
      inserted

theorem siblings_pieces {joint : Position → Prop} (tidy : l.pool.Tidy joint) {id : IntervalId}
    (rooted : ∀ i, l.pool.intervals[id]? = some i → i.splitOff = false → i.root = id)
    {is : List Interval} (run : siblings l.pool id = .ok is) :
    ∃ v, ∀ i ∈ is, ∃ id : IntervalId, l.pool.intervals[id]? = some i ∧ i.value = some v := by
  simp only [siblings, bind_ok, get_ok] at run
  obtain ⟨i, found, run⟩ := run
  split at run
  · obtain rfl := pure_ok.mp run
    exact ⟨0, by simp⟩
  · rename_i first
    simp only [Bool.or_eq_true, not_or, Bool.not_eq_true] at first
    obtain ⟨v, own⟩ : ∃ v, i.value = some v := isSome_iff_exists.mp
      (by simpa [first.1] using (tidy.fit id i found).kind.symm)
    obtain ⟨ty, ids, siblings⟩ := tidy.siblings v
    have chain := siblings.chain_eq found own
    rw [rooted i found first.2] at chain
    simp only [chain, ok_bind] at run
    refine ⟨v, fun j member => ?_⟩
    obtain ⟨k, among, isJ⟩ := mapM_mem_result run member
    rw [get_ok] at isJ
    obtain ⟨j', foundJ, ownJ⟩ := (siblings.member k).mp among
    obtain rfl := mem_unique isJ foundJ
    exact ⟨k, isJ, ownJ⟩

theorem Threaded.after_withinBlocks {joint : Position → Prop} (tidy : l.pool.Tidy joint)
    (rooted : ∀ (id : IntervalId) (i : Interval), l.pool.intervals[id]? = some i →
      i.splitOff = false → i.root = id)
    (threaded : Threaded g l h k) {u : Unit} (run : withinBlocks l k = .ok (u, k')) :
    Threaded g l h k' := by
  refine withinBlocks_keeps (P := Threaded g l h) ?_ run threaded
  intro id is isSiblings i isI j isJ anchor k k' u moves _ moved threaded
  obtain ⟨v, pieces⟩ := siblings_pieces tidy (rooted id) isSiblings
  obtain ⟨id, found, own⟩ := pieces i isI
  obtain ⟨id', foundJ, ownJ⟩ := pieces j isJ
  exact threaded.after_moveBefore (.split found foundJ own ownJ moves) moved

section

variable {succ pred : BlockId} {S : Block} {here : Range} {last : Position} {group group' : MoveGroup}

structure Crossing (g : Graph) (l : Liveness) (group : MoveGroup) : Prop where
  made : group.Made g l
  purpose : group.purpose = .phiMove

section

variable (crossing : Crossing g l group) (stored : g.blocks[succ]? = some S) (edge : pred ∈ S.preds)
  (range : l.numbering.rangeOf? succ = some here)

include crossing stored edge range

theorem Crossing.after_addCrossing {lost : Fault}
    {src dst : ValueId} {ty : Except Fault ValueType}
    (run : addCrossing l lost src dst last here.start ty group = .ok group') :
    Crossing g l group' := by
  simp only [addCrossing, bind_ok] at run
  obtain ⟨a?, isSrc, b?, isDst, run⟩ := run
  split at run
  · rename_i a b
    simp only [bind_ok] at run
    obtain ⟨ty, -, run⟩ := run
    rw [addNeeded] at run
    split at run
    · obtain rfl := Except.ok.inj run
      exact crossing
    · have origin : Origin g l group.purpose ⟨a, b, ty⟩ := by
        rw [crossing.purpose]
        exact .crossing stored edge range isSrc isDst
      obtain ⟨made, purpose⟩ := crossing.made.after_add origin run
      exact ⟨made, purpose.trans crossing.purpose⟩
  · simp at run

theorem Crossing.after_addPhis {index : Nat}
    {instrs : List InstrId}
    (run : addPhis k l succ pred index last here.start instrs group = .ok group') :
    Crossing g l group' := by
  induction instrs generalizing group with
  | nil =>
    obtain rfl := pure_ok.mp run
    exact crossing
  | cons i rest ih =>
    rw [addPhis, bind_ok] at run
    obtain ⟨x, -, run⟩ := run
    split at run
    · simp only [bind_ok] at run
      obtain ⟨operand, -, result, -, next, crossed, run⟩ := run
      exact ih (crossing.after_addCrossing stored edge range crossed) run
    · obtain rfl := pure_ok.mp run
      exact crossing

end

theorem edgeMoves_crossing (stored : g.blocks[succ]? = some S) (edge : pred ∈ S.preds)
    (range : l.numbering.rangeOf? succ = some here) {index : Nat}
    (run : edgeMoves k l succ pred index last here.start = .ok group) : Crossing g l group := by
  simp only [edgeMoves, bind_ok] at run
  obtain ⟨live, -, between, crossed, block, -, run⟩ := run
  have start : Crossing g l (.empty .phiMove) := ⟨.of_empty g l .phiMove, rfl⟩
  refine Crossing.after_addPhis ?_ stored edge range run
  exact foldlM_ok (P := Crossing g l) (fun v _ s t crossing added =>
    crossing.after_addCrossing stored edge range added) crossed start

theorem edges_crossing (same : ∀ c, ends k c = ends g c) {es : List EdgeMoves}
    (run : edges k l = .ok es) : ∀ e ∈ es, Crossing g l e.moves := by
  simp only [edges, bind_ok, pure_ok] at run
  obtain ⟨all, into, rfl⟩ := run
  intro e member
  obtain ⟨some', among, member⟩ := mem_flatten.mp member
  obtain ⟨succ, -, run⟩ := mapM_mem_result into among
  rw [edgesInto] at run
  split at run
  · obtain rfl := pure_ok.mp run
    simp at member
  rename_i here range
  simp only [bind_ok, Graph.block_ok, pure_ok] at run
  obtain ⟨T, storedT, found, each, rfl⟩ := run
  obtain ⟨_, isIn, rfl⟩ := mem_filterMap.mp member
  obtain ⟨⟨pred, index⟩, listed, moved⟩ := mapM_mem_result each isIn
  obtain ⟨S, stored, preds⟩ : ∃ S, g.blocks[succ]? = some S ∧ S.preds = T.preds := by
    have := same succ
    simp only [ends, storedT, map_some] at this
    obtain ⟨S, stored, eq⟩ := map_eq_some_iff.mp this.symm
    exact ⟨S, stored, (Prod.mk.inj eq).1⟩
  have edge : pred ∈ S.preds := preds ▸ (mem_zipIdx listed).2.2 ▸ getElem_mem _
  split at moved
  · simp at moved
  · simp only [bind_ok, pure_ok] at moved
    obtain ⟨moves, crossed, isE⟩ := moved
    split at isE
    · simp at isE
    · obtain rfl := some.inj isE
      exact edgeMoves_crossing stored edge range crossed

end

def Bridge (k : Graph) (i : InstrId) : Prop :=
  ∃ b group, k.instrs[i]? = some (ofGroup b group) ∧ group.purpose = .phiMove

structure Bridged (g : Graph) (l : Liveness) (h : Graph) (j : Joints) (k : Graph) : Prop where
  extended : Extended (MoveGroup.Made g l) h k
  joints : ∀ e ∈ j.heads ++ j.tails, Bridge k e.2

theorem Bridge.after_insertAt (bridge : Bridge k i) {b : BlockId} {pos : Nat} {x : Instr}
    {new : InstrId} (run : Build.insertAt b pos x k = .ok (new, k')) : Bridge k' i := by
  obtain ⟨c, group, found, purpose⟩ := bridge
  obtain ⟨-, B, -, -, rfl⟩ := insertAt_run.mp run
  have inside := found_lt found
  exact ⟨c, group, by rw [instr_inserted, if_neg (Nat.ne_of_lt inside), found], purpose⟩

theorem Bridge.after_addAll (bridge : Bridge k i) {m : InstrId} {moves : List Move} {u : Unit}
    (run : Build.modifyGroup m (·.addAll moves) k = .ok (u, k')) : Bridge k' i := by
  obtain ⟨c, group, found, purpose⟩ := bridge
  obtain ⟨x, old, new, foundX, has, added, rfl⟩ := modifyGroup_run.mp run
  obtain rfl := addAll_ok added
  have inside := found_lt foundX
  by_cases here : m = i
  · subst here
    obtain rfl := mem_unique found foundX
    obtain rfl : group = old := by simpa [ofGroup] using has
    exact ⟨c, { group with moves := group.moves ++ moves },
      by rw [getElem?_setIfInBounds_self_of_lt inside]; rfl, purpose⟩
  · exact ⟨c, group, by rw [getElem?_setIfInBounds_ne here, found], purpose⟩

theorem Bridged.after_joinAt {j j' : Joints} (bridged : Bridged g l h j k)
    {list list' : List (BlockId × InstrId)} {b : BlockId} {pos : Nat} {moves : MoveGroup}
    (crossing : Crossing g l moves) (known : ∀ e ∈ list, e ∈ j.heads ++ j.tails)
    (run : joinAt list b pos moves k = .ok (list', k'))
    (within : ∀ e ∈ j'.heads ++ j'.tails, e ∈ j.heads ++ j.tails ∨ e ∈ list') :
    Bridged g l h j' k' := by
  rcases joinAt_run run with ⟨i, u, isAt, rfl, rfl | changed⟩ | ⟨i, -, inserted, rfl⟩
  · exact ⟨bridged.extended, fun e member => bridged.joints e ((within e member).elim id (known e))⟩
  · have member : (b, i) ∈ list' := by
      obtain ⟨before, after, split, -⟩ := lookup_eq_some_iff.mp isAt
      simp [split]
    obtain ⟨c, group, found, purpose⟩ := bridged.joints (b, i) (known _ member)
    refine ⟨bridged.extended.after_modifyGroup ?_ changed, fun e isIn => ?_⟩
    · intro c' old new found' made added
      obtain rfl := addAll_ok added
      obtain rfl : group = old := by
        simpa [ofGroup] using congrArg Instr.group (mem_unique found found')
      refine ⟨made.unordered, fun m isMove => ?_⟩
      rcases mem_append.mp isMove with old | new
      · exact made.origin m old
      · have := crossing.made.origin m new
        rwa [crossing.purpose, ← purpose] at this
    · exact (bridged.joints e ((within e isIn).elim id (known e))).after_addAll changed
  · refine ⟨bridged.extended.after_insertAt crossing.made inserted, fun e isIn => ?_⟩
    have old : ∀ e ∈ j.heads ++ j.tails, Bridge k' e.2 :=
      fun e isIn => (bridged.joints e isIn).after_insertAt inserted
    rcases within e isIn with isOld | isNew
    · exact old e isOld
    · rcases mem_cons.mp isNew with rfl | isOld
      · obtain ⟨rfl, B, -, -, rfl⟩ := insertAt_run.mp inserted
        exact ⟨b, moves, by rw [instr_inserted, if_pos rfl]; rfl, crossing.purpose⟩
      · exact old e (known e isOld)

theorem Bridged.after_joinEdge {j j' : Joints} (bridged : Bridged g l h j k) {e : EdgeMoves}
    (crossing : Crossing g l e.moves) (run : joinEdge j e k = .ok (j', k')) :
    Bridged g l h j' k' := by
  obtain ⟨P, S, -, ⟨list, -, joined, rfl⟩ | ⟨list, -, -, -, -, joined, rfl⟩ |
    ⟨n, i, mid, -, -, -, split, inserted, rfl⟩⟩ := joinEdge_run run
  · refine bridged.after_joinAt crossing (fun e isIn => mem_append_right _ isIn) joined ?_
    intro e isIn
    rcases mem_append.mp isIn with head | tail
    · exact .inl (mem_append_left _ head)
    · exact .inr tail
  · refine bridged.after_joinAt crossing (fun e isIn => mem_append_left _ isIn) joined ?_
    intro e isIn
    rcases mem_append.mp isIn with head | tail
    · exact .inr head
    · exact .inl (mem_append_right _ tail)
  · refine ⟨(bridged.extended.after_splitEdge split).after_insertAt crossing.made inserted,
      fun e isIn => ?_⟩
    have instrs : mid.instrs = k.instrs := by
      obtain ⟨-, same, -⟩ := splitEdge_run split
      rw [same]
    obtain ⟨c, group, found, purpose⟩ := bridged.joints e isIn
    exact Bridge.after_insertAt ⟨c, group, instrs ▸ found, purpose⟩ inserted

theorem Bridged.after_joinEdges {j j' : Joints} (bridged : Bridged g l h j k) {es : List EdgeMoves}
    (crossing : ∀ e ∈ es, Crossing g l e.moves)
    (run : es.foldlM joinEdge j k = .ok (j', k')) : Bridged g l h j' k' := by
  exact foldlM_keeps (P := Bridged g l h)
    (fun e isIn _ _ _ _ bridged run => bridged.after_joinEdge (crossing e isIn) run) run bridged

theorem Threaded.after_connect {joint : Position → Prop} (tidy : l.pool.Tidy joint)
    (rooted : ∀ (id : IntervalId) (i : Interval), l.pool.intervals[id]? = some i →
      i.splitOff = false → i.root = id)
    (threaded : Threaded g l h k) (same : ∀ c, Connection.ends h c = Connection.ends g c) {n : Nat}
    (run : l.connect k = .ok (n, k')) : Extended (MoveGroup.Made g l) h k' := by
  simp only [Liveness.connect, bind_run, ask_run, pure_run, Prod.mk.injEq] at run
  obtain ⟨_, _, within, es, mid, ⟨isEdges, rfl⟩, j, k'', joined, rfl, rfl⟩ := run
  have threaded := threaded.after_withinBlocks tidy rooted within
  have crossing := edges_crossing (fun c => (threaded.ends c).trans (same c)) isEdges
  have start : Bridged g l h ⟨[], [], 0⟩ mid := ⟨threaded.extended, by simp⟩
  exact (start.after_joinEdges crossing joined).extended

end Connection

namespace Graph

variable {g g' k k' : Graph} {tree : DominatorTree} {order : List BlockId} {o : Options}

theorem sequenceMoves_ok {n : Nat} (run : k.sequenceMoves = .ok (n, k')) :
    ∃ shape, k.stackShape = .ok shape ∧ k' = { k with instrs := k'.instrs } ∧
      ∀ i : InstrId, (∀ y, k.instrs[i]? = some y → ∃ c z, k'.instrs[i]? = some z ∧
          sequenceInstr shape k.target y = .ok (c, z)) ∧
        ∀ z, k'.instrs[i]? = some z → ∃ c y, k.instrs[i]? = some y ∧
          sequenceInstr shape k.target y = .ok (c, z) := by
  simp only [sequenceMoves, bind_ok, pure_ok, Prod.mk.injEq] at run
  obtain ⟨shape, isShape, pairs, mapped, -, rfl⟩ := run
  have each : k.instrs.toList.mapM (sequenceInstr shape k.target) = .ok pairs.toList := by
    rw [← toList_mapM, mapped]
    rfl
  refine ⟨shape, isShape, rfl, fun i => ?_⟩
  obtain ⟨forth, back⟩ := mapM_getElem each i
  simp only [getElem?_toList] at forth back
  constructor
  · intro y found
    obtain ⟨r, foundR, sequenced⟩ := forth y found
    exact ⟨r.1, r.2, by simp [foundR], sequenced⟩
  · intro z found
    obtain ⟨r, foundR, rfl⟩ : ∃ r, pairs[i]? = some r ∧ r.2 = z := by simpa using found
    obtain ⟨y, foundY, sequenced⟩ := back r foundR
    exact ⟨r.1, y, foundY, sequenced⟩

structure Annotated (g : Graph) (l : Liveness) (frame : Frame) (g' : Graph) : Prop where
  same : g' = { g.setFrame frame with instrs := g'.instrs, blocks := g'.blocks }
  instr : ∀ (i : InstrId) (x : Instr), g.instrs[i]? = some x → ∃ s group,
    Placement.sites (g.setFrame frame) l g.target i x = .ok s ∧
    g'.instrs[i]? = some { x with
      inputLocations := s.inputs, resultLocations := s.results, group } ∧
    (x.group = none → group = none)
  added : ∀ (i : InstrId) (y : Instr), g.instrs.size ≤ i → g'.instrs[i]? = some y →
    ∃ b shape, ∃ group sequence : MoveGroup, y = ofGroup b sequence ∧
      g'.stackShape = .ok shape ∧ group.Made (g.setFrame frame) l ∧
      group.sequence shape g.target = .ok sequence

theorem Annotated.of_sequenceMoves {l : Liveness} {frame : Frame} {h : Graph}
    {insertions : List Placement.Insertion} {done : List InstrId}
    (placed : Placement.Placed (g.setFrame frame) l done h insertions)
    (all : ∀ (i : InstrId) (x : Instr), g.instrs[i]? = some x → i ∈ done)
    (extended : Extended (MoveGroup.Made (g.setFrame frame) l) h k) {n : Nat}
    (run : k.sequenceMoves = .ok (n, g')) : Annotated g l frame g' := by
  obtain ⟨shape, isShape, same, each⟩ := sequenceMoves_ok run
  have target : k.target = g.target := by
    rw [extended.same, placed.same]
    rfl
  refine ⟨?_, fun i x found => ?_, fun i z outside found => ?_⟩
  · rw [same]
    conv => lhs; rw [extended.same, placed.same]
  · obtain ⟨inputs, results, foundH, known⟩ := placed.instr i x found
    obtain ⟨s, isSites, rfl, rfl⟩ := known (all i x found)
    obtain ⟨group, foundK, still⟩ := extended.instr i _ foundH
    obtain ⟨c, z, foundZ, sequenced⟩ := (each i).1 _ foundK
    refine ⟨s, z.group, isSites, ?_⟩
    rw [foundZ, sequenceInstr] at *
    split at sequenced
    · obtain ⟨-, rfl⟩ := Prod.mk.inj (pure_ok.mp sequenced)
      exact ⟨rfl, still⟩
    · rename_i old has
      split at sequenced
      · obtain ⟨-, rfl⟩ := Prod.mk.inj (pure_ok.mp sequenced)
        exact ⟨rfl, still⟩
      · simp only [bind_ok, pure_ok, Prod.mk.injEq] at sequenced
        obtain ⟨_, -, -, rfl⟩ := sequenced
        exact ⟨rfl, fun none => absurd (has.symm.trans (still none)) (by simp)⟩
  · obtain ⟨c, y, foundY, sequenced⟩ := (each i).2 z found
    obtain ⟨b, group, rfl, made⟩ := extended.added i y (placed.size ▸ outside) foundY
    rw [sequenceInstr] at sequenced
    simp only [ofGroup, made.unordered, Bool.false_eq_true, ↓reduceIte, bind_ok, pure_ok,
      Prod.mk.injEq] at sequenced
    obtain ⟨sequence, isSequence, -, rfl⟩ := sequenced
    refine ⟨b, shape, group, sequence, rfl, ?_, made, target ▸ isSequence⟩
    rw [same]
    exact isShape

/-- The programs that an allocation goes through: with locations, with the moves around calls, with
all moves, and with the moves in order. -/
structure Stages (g : Graph) (l : Liveness) (f : Frame) (h : Graph)
    (insertions : List Placement.Insertion) (h' k g' : Graph) : Prop where
  placed : ∃ done, Placement.Placed (g.setFrame f) l done h insertions ∧
    ∀ (i : InstrId) (x : Instr), g.instrs[i]? = some x → i ∈ done
  inserted : insertions.forM Placement.insert h = .ok ((), h')
  connected : ∃ n, l.connect h' = .ok (n, k)
  sequenced : ∃ n, k.sequenceMoves = .ok (n, g')

theorem allocate_ok {summary : Summary} (allocated : g.allocate o = .ok (g', .ok summary)) :
    ∃ l₀ l f h n k m, ofGraph g g.target = .ok l₀ ∧ l₀.scan g g.target o = .ok (l, f) ∧
      l.place (g.setFrame f) g.target = .ok (h, .ok ()) ∧ l.connect h = .ok (n, k) ∧
      k.sequenceMoves = .ok (m, g') ∧ summary.numSlots = f.numSlots ∧
      (o.verify = true → g'.allocationDefects = .ok []) := by
  simp only [allocate, bind_ok] at allocated
  obtain ⟨⟨g₁, result⟩, allocated, outcome⟩ := allocated
  split at outcome
  · simp only [bind_ok, pure_ok, Prod.mk.injEq] at outcome
    obtain ⟨_, -, -, none⟩ := outcome
    simp at none
  obtain ⟨rfl, rfl⟩ := Prod.mk.inj (pure_ok.mp outcome)
  simp only [allocateOrError] at allocated
  split at allocated
  · simp at allocated
  simp only [bind_ok] at allocated
  obtain ⟨l₀, analysed, scanned, split, allocated⟩ := allocated
  obtain ⟨⟨l, f⟩, run, rfl⟩ | ⟨e, -, rfl⟩ := split_ok split
  swap
  · simp at allocated
  simp only [bind_ok] at allocated
  obtain ⟨⟨h, result⟩, placed, allocated⟩ := allocated
  cases result with
  | error e => simp at allocated
  | ok u =>
    simp only [bind_ok, Prod.exists] at allocated
    obtain ⟨n, k, connected, m, last, sequenced, allocated⟩ := allocated
    obtain ⟨rfl, size, verified⟩ : last = g₁ ∧ summary.numSlots = f.numSlots ∧
        (o.verify = true → last.allocationDefects = .ok []) := by
      split at allocated <;> simp only [bind_ok, pure_ok] at allocated <;>
        obtain ⟨defects, isDefects, allocated⟩ := allocated <;> split at allocated <;>
        simp_all <;> simp [← allocated.2]
    exact ⟨l₀, l, f, h, n, k, m, analysed, run, placed, connected, sequenced, size, verified⟩

theorem allocate_stages (given : g.Accepted tree order) {summary : Summary}
    (allocated : g.allocate o = .ok (g', .ok summary)) :
    ∃ l₀ l f h insertions h' k, ofGraph g g.target = .ok l₀ ∧
      l₀.scan g g.target o = .ok (l, f) ∧ Stages g l f h insertions h' k g' ∧
      (o.verify = true → g'.allocationDefects = .ok []) := by
  obtain ⟨l₀, l, f, h', n, k, m, analysed, run, isPlaced, connected, sequenced, -, verified⟩ :=
    allocate_ok allocated
  simp only [Liveness.place, bind_ok, Prod.exists] at isPlaced
  obtain ⟨blocks, isBlocks, h, result, placed, isPlaced⟩ := isPlaced
  cases result with
  | error e => simp at isPlaced
  | ok insertions =>
    simp only [bind_ok, pure_ok, Prod.exists, Prod.mk.injEq] at isPlaced
    obtain ⟨_, _, inserted, rfl, -⟩ := isPlaced
    refine ⟨l₀, l, f, h, insertions, _, k, analysed, run,
      ⟨?_, inserted, ⟨n, connected⟩, ⟨m, sequenced⟩⟩, verified⟩
    have start : Placement.Placed (g.setFrame f) l [] (g.setFrame f) [] :=
      ⟨rfl, rfl, fun i x found => ⟨_, _, found, by simp⟩, by simp, by simp⟩
    obtain ⟨done, all, placed⟩ := start.after_placeInstrs placed
    refine ⟨done, placed, fun i x found => all i (.inr ?_)⟩
    obtain ⟨sets, isAnalysed⟩ := ofGraph_analysed given analysed
    obtain rfl : order = l₀.numbering.order :=
      Except.ok.inj (given.valid.ordered.symm.trans isAnalysed.numbered.ordered)
    obtain ⟨same, -⟩ := scan_serving given isAnalysed run
    obtain ⟨B, stored, listed⟩ := given.consistent.listed_of_instr found
    have member := given.valid.complete _ B stored
    rw [same] at isBlocks
    obtain ⟨C, isIn, storedC⟩ := mapM_mem isBlocks member
    rw [block_ok] at storedC
    obtain rfl := mem_unique stored storedC
    exact mem_flatMap.mpr ⟨B, isIn, listed⟩

theorem Stages.to_annotated {l : Liveness} {f : Frame} {h h' : Graph}
    {insertions : List Placement.Insertion} (stages : Stages g l f h insertions h' k g')
    {base : IntervalPool} (served : base.Served l.pool) : Annotated g l f g' := by
  obtain ⟨done, placed, all⟩ := stages.placed
  obtain ⟨n, connected⟩ := stages.connected
  obtain ⟨m, sequenced⟩ := stages.sequenced
  have first : Connection.Threaded (g.setFrame f) l h h := ⟨.refl _ h, fun _ => rfl⟩
  have threaded : Connection.Threaded (g.setFrame f) l h h' :=
    forM_keeps (P := Connection.Threaded (g.setFrame f) l h)
      (fun n member k k' u threaded run => threaded.after_place (placed.made n member) run)
      stages.inserted first
  have extended := threaded.after_connect served.tidy served.rooted
    (fun c => by rw [placed.same]; rfl) connected
  exact .of_sequenceMoves placed all extended sequenced

theorem allocate_annotates (given : g.Accepted tree order) {summary : Summary}
    (allocated : g.allocate o = .ok (g', .ok summary)) :
    ∃ l l' frame, ofGraph g g.target = .ok l ∧
      l.scan g g.target o = .ok (l', frame) ∧ Annotated g l' frame g' := by
  obtain ⟨l₀, l, f, h, insertions, h', k, analysed, run, stages, -⟩ := allocate_stages given allocated
  obtain ⟨sets, isAnalysed⟩ := ofGraph_analysed given analysed
  obtain rfl : order = l₀.numbering.order :=
    Except.ok.inj (given.valid.ordered.symm.trans isAnalysed.numbered.ordered)
  obtain ⟨-, served, -⟩ := scan_serving given isAnalysed run
  exact ⟨l₀, l, f, analysed, run, stages.to_annotated served⟩

end Graph

end RegisterAllocation
