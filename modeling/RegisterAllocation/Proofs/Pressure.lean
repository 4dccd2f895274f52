import RegisterAllocation.Proofs.Requirements
import RegisterAllocation.Proofs.Totality

/-!
How many registers can be wanted at a position. An instruction asks for five values at most: the four
operands of a selection and its result. So if there are five registers, one of those that cannot be
had without a fight is needed later than where an interval starts, or the interval can wait.
-/

namespace RegisterAllocation

open List Option Interval IntervalPool

theorem length_le_of_matching {α β : Type} {R : α → β → Prop} {xs : List α} {ys : List β}
    (once : xs.Nodup) (each : ∀ x ∈ xs, ∃ y ∈ ys, R x y)
    (alone : ∀ x x' y, R x y → R x' y → x = x') : xs.length ≤ ys.length := by
  classical
  induction xs generalizing ys with
  | nil => simp
  | cons x rest ih =>
    obtain ⟨fresh, once⟩ := nodup_cons.mp once
    obtain ⟨y, member, related⟩ := each x mem_cons_self
    have fewer : rest.length ≤ (ys.erase y).length := ih once fun x' isIn => by
      obtain ⟨y', memberY, related'⟩ := each x' (mem_cons_of_mem x isIn)
      have other : y' ≠ y := by
        rintro rfl
        exact fresh (alone x x' y' related related' ▸ isIn)
      exact ⟨y', (mem_erase_of_ne other).mpr memberY, related'⟩
    rw [length_erase_of_mem member] at fewer
    have := length_pos_of_mem member
    rw [length_cons]
    omega

theorem RegisterSet.toList_nodup (s : RegisterSet) : s.toList.Nodup :=
  nodup_range.filter _

namespace Numbering

variable {g : Graph} {n : Numbering}

theorem stop_lt_wordLimit (run : ofGraph g = .ok n) {b : BlockId} {r : Range}
    (range : n.rangeOf? b = some r) : r.stop < wordLimit := by
  rw [ofGraph, bind_ok] at run
  obtain ⟨order, -, run⟩ := run
  have all : ∀ b r, n.rangeOf? b = some r → r.stop < wordLimit := by
    refine foldlM_ok (P := fun n => ∀ b r, n.rangeOf? b = some r → r.stop < wordLimit) ?_ run ?_
    · intro b _ n n' before added b' r range
      simp only [addBlock, bind_ok, ensure_ok, pure_ok] at added
      obtain ⟨B, -, mid, instrs, _, small, rfl⟩ := added
      have same : mid.ranges = n.ranges := by
        refine foldlM_ok (P := fun m => m.ranges = n.ranges) ?_ instrs rfl
        intro i _ m m' same added
        simp only [addInstr, bind_ok] at added
        obtain ⟨x, -, added⟩ := added
        split at added
        · rw [← pure_ok.mp added]
          exact same
        · rw [← pure_ok.mp added]
          exact same
      simp only [rangeOf?, same, Array.getElem?_setIfInBounds] at range
      split at range
      · split at range
        · obtain rfl : (⟨n.next, mid.next⟩ : Range) = r := by simpa using range
          exact small
        · simp at range
      · exact before b' r range
    · intro b r range
      simp only [rangeOf?, Array.getElem?_replicate] at range
      split at range <;> simp at range
  exact all b r range

end Numbering

namespace IntervalPool

variable {base p : IntervalPool} {a b : IntervalId} {i j : Interval} {v : ValueId} {u w : Use}

theorem Served.use_apart (served : Served base p) (other : a ≠ b)
    (foundI : p.intervals[a]? = some i) (foundJ : p.intervals[b]? = some j)
    (ownI : i.value = some v) (ownJ : j.value = some v) (memberI : u ∈ i.uses)
    (memberJ : w ∈ j.uses) (needsI : u.needsRegister = true) (needsJ : w.needsRegister = true) :
    u.pos ≠ w.pos := by
  intro same
  obtain ⟨ty, ids, siblings⟩ := served.tidy.siblings v
  have bounds : ∀ {a : IntervalId} {i : Interval}, p.intervals[a]? = some i → i.value = some v →
      i.start < i.stop := by
    intro a i found own
    have fit := served.tidy.fit a i found
    exact fit.start_lt (by rw [fit.kind, own]; rfl)
  have boundsI := bounds foundI ownI
  have boundsJ := bounds foundJ ownJ
  -- The first piece of a value comes before all others.
  have leads : ∀ {a b : IntervalId} {i j : Interval}, a ≠ b → p.intervals[a]? = some i →
      p.intervals[b]? = some j → i.value = some v → j.value = some v → i.splitOff = false →
      i.stop ≤ j.start := by
    intro a b i j other foundI foundJ ownI ownJ whole
    have memberI := (siblings.member a).mpr ⟨i, foundI, ownI⟩
    have memberJ := (siblings.member b).mpr ⟨j, foundJ, ownJ⟩
    have head := (siblings.first a memberI i foundI).1
    rw [served.rooted a i foundI whole] at head
    obtain ⟨rest, rfl⟩ := head?_eq_some_iff.mp head
    have inRest : b ∈ rest := (mem_cons.mp memberJ).resolve_left (Ne.symm other)
    exact (pairwise_cons.mp siblings.ordered).1 b inRest i j foundI foundJ
  have sortedI := (served.tidy.fit a i foundI).sorted
  have sortedJ := (served.tidy.fit b j foundJ).sorted
  rcases (served.each a i foundI).used u memberI needsI with ⟨wholeI, hereI⟩ | ⟨positive, coversI⟩
  · have before := leads other foundI foundJ ownI ownJ wholeI
    have := (served.each b j foundJ).start_le (served.tidy.fit b j foundJ) memberJ needsJ
    lia
  · rcases (served.each b j foundJ).used w memberJ needsJ with ⟨wholeJ, hereJ⟩ | ⟨-, coversJ⟩
    · have before := leads other.symm foundJ foundI ownJ ownI wholeJ
      have := start_le sortedI coversI
      lia
    · have := start_le sortedI coversI
      have := lt_stop sortedI coversI
      have := start_le sortedJ coversJ
      have := lt_stop sortedJ coversJ
      rcases served.tidy.stop_le_or other foundI foundJ ownI ownJ with before | after
      · lia
      · lia

end IntervalPool

namespace Graph

def ParametersLead (g : Graph) : Prop :=
  ∀ pc pc' x y, g.At g.entry pc x → g.At g.entry pc' y → x.opcode ≠ .parameter →
    y.opcode = .parameter → pc' < pc

theorem parametersLead_iff {g : Graph} {B : Block} (stored : g.blocks[g.entry]? = some B) :
    g.ParametersLead ↔ ∀ pc < B.instrs.length, ∀ x ∈ B.instrs[pc]?.bind (g.instrs[·]?),
      x.opcode ≠ .parameter → ∀ pc' < B.instrs.length, ∀ y ∈ B.instrs[pc']?.bind (g.instrs[·]?),
      y.opcode = .parameter → pc' < pc := by
  simp only [← forall_at_iff stored]
  exact ⟨fun lead pc x isAt other pc' y isAt' => lead pc pc' x y isAt isAt' other,
    fun lead pc pc' x y isAt isAt' other => lead pc x isAt other pc' y isAt'⟩

end Graph

namespace Liveness

variable {g : Graph} {tree : DominatorTree} {sets : LiveSets} {l : Liveness} {v w : ValueId}
  {q : Position}

variable (given : g.Accepted tree l.numbering.order) (analysed : Analysed g g.target tree sets l)

include given analysed

theorem Analysed.demands_few (demands : g.Demands l.numbering v q) :
    ∃ values : List ValueId, values.length ≤ 5 ∧ ∀ w, g.Demands l.numbering w q → w ∈ values := by
  obtain ⟨d, x, found, plain, noCall, isAt, -⟩ := demands
  refine ⟨x.inputs ++ x.results, ?_, ?_⟩
  · obtain ⟨B, pc, -, -, valid⟩ := given.instr_valid found
    have inputs := valid.inputs
    have results := valid.results
    rw [length_append, results]
    cases opcode : x.opcode with
    | call callee => simp [Instr.isCall, opcode, Opcode.isCall] at noCall
    | phi => simp [Instr.isPhi, opcode] at plain
    | _ =>
      have count := inputs _ (by rw [opcode]; rfl)
      simp [count, Opcode.numResults]
  · rintro w ⟨e, y, foundY, plainY, -, isAtY, wants⟩
    have atX := analysed.instrAt_eq given found plain isAt
    have atY := analysed.instrAt_eq given foundY plainY isAtY
    obtain rfl := mem_unique atY atX
    obtain rfl := mem_unique found foundY
    rcases wants with input | ⟨result, -⟩
    · exact mem_append_left _ input
    · exact mem_append_right _ result

theorem Analysed.demands_no_call (demands : g.Demands l.numbering v q) :
    ¬g.CallAt l.numbering q := by
  rintro ⟨e, y, foundY, isCall, isAtY⟩
  obtain ⟨d, x, found, plain, noCall, isAt, -⟩ := demands
  have plainY : y.isPhi = false := by
    rw [Instr.isPhi, beq_eq_false_iff_ne]
    intro isPhi
    simp [Instr.isCall, isPhi, Opcode.isCall] at isCall
  have atX := analysed.instrAt_eq given found plain isAt
  have atY := analysed.instrAt_eq given foundY plainY isAtY
  obtain rfl := mem_unique atY atX
  obtain rfl := mem_unique found foundY
  simp [noCall] at isCall

theorem Analysed.demands_late (lead : g.ParametersLead)
    {params : List ValueId} {types : List ValueType} {cc : CallingConvention}
    (parameters : g.parameters = .ok params) {roots : List (IntervalId × Interval)}
    (known : ∀ id i, (id, i) ∈ roots → l.pool.intervals[id]? = some i)
    (demands : g.Demands l.numbering v q) :
    Scan.lastArrival (params.zip (cc.paramLocations types)) roots < q := by
  obtain ⟨d, x, found, plain, -, isAt, wants⟩ := demands
  rcases Scan.lastArrival_cases (params.zip (cc.paramLocations types)) roots with
    none | ⟨id, i, p, place, member, own, isArrival, isLast⟩
  · obtain ⟨_, _, q', -, -, -, isAt', -, -, -, low⟩ := analysed.has_number given found
    obtain rfl := mem_unique isAt isAt'
    simp only [plain, Bool.false_eq_true, if_false] at low
    rw [none]
    lia
  · obtain ⟨e, y, foundY, parameter, -, isAtY, -, -⟩ :=
      Scan.arrival_start given analysed parameters (known id i member) own isArrival
    have other : x.opcode ≠ .parameter := by
      intro isParameter
      obtain ⟨B, pc, -, -, valid⟩ := given.instr_valid found
      have noInputs := valid.inputs 0 (by rw [isParameter]; rfl)
      rcases wants with input | ⟨-, no⟩
      · simp [length_eq_zero_iff.mp noInputs] at input
      · exact no isParameter
    rw [← isLast]
    exact analysed.parameter_lt given foundY parameter isAtY found plain isAt
      fun pc pc' atX atY => lead pc pc' x y atX atY other parameter

theorem Analysed.demands_lt (run : ofGraph g g.target = .ok l)
    (demands : g.Demands l.numbering v q) : q < lastPosition := by
  obtain ⟨d, x, found, -, -, isAt, -⟩ := demands
  obtain ⟨_, r, q', -, -, range, isAt', -, high, -⟩ := analysed.has_number given found
  obtain rfl := mem_unique isAt isAt'
  simp only [ofGraph, bind_ok, pure_ok] at run
  obtain ⟨n, isN, sets', -, d₀, -, d', -, rfl⟩ := run
  have := Numbering.stop_lt_wordLimit isN range
  unfold lastPosition
  lia

end Liveness

namespace Scan

variable {c : Pass} {arrivals : Arrivals} {start : Scan} {first : IntervalPool} {s t : Scan}
  {id k : IntervalId} {i j m : Interval} {reg : Nat} {pos last q lim use : Position}
  {demands : List Demand}

theorem limit_cases (demands : List Demand) (reg : Nat) :
    limit demands reg = lastPosition ∨ (reg, limit demands reg) ∈ demands := by
  unfold limit
  generalize lastPosition = top
  induction demands generalizing top with
  | nil => exact .inl rfl
  | cons d rest ih =>
    rw [foldl_cons]
    split
    · rename_i same
      rcases ih (min top d.2) with isMin | member
      · rw [isMin]
        rcases Nat.le_total top d.2 with le | le
        · exact .inl (Nat.min_eq_left le)
        · refine .inr ?_
          rw [Nat.min_eq_right le, ← same]
          exact mem_cons_self
      · exact .inr (mem_cons_of_mem d member)
    · rcases ih top with isTop | member
      · exact .inl isTop
      · exact .inr (mem_cons_of_mem d member)

theorem demandsOf_mem {demand : Interval → Option Position} {ids : List IntervalId}
    (run : s.demandsOf c demand ids = .ok demands) (member : (reg, q) ∈ demands) :
    ∃ k ∈ ids, ∃ m, s.pool.intervals[k]? = some m ∧ m.location.inClass c.regClass = true ∧
      m.location.index = reg ∧ demand m = some q := by
  simp only [demandsOf, bind_ok, pure_ok] at run
  obtain ⟨all, each, rfl⟩ := run
  obtain ⟨d, isIn, rfl⟩ : ∃ d ∈ all, d = some (reg, q) := by simpa using member
  obtain ⟨k, isK, run⟩ := mapM_mem_result each isIn
  refine ⟨k, isK, ?_⟩
  simp only [regOf, bind_ok, get_ok, pure_ok] at run
  obtain ⟨r, ⟨m, found, rfl⟩, run⟩ := run
  refine ⟨m, found, ?_⟩
  split at run
  · simp at run
  · rename_i index isIndex
    simp only [bind_ok, get_ok, found, some.injEq, exists_eq_left', pure_ok,
      map_eq_some_iff, Prod.mk.injEq] at run
    obtain ⟨q', wants, rfl, rfl⟩ := run
    split at isIndex
    · exact ⟨‹_›, some.inj isIndex, wants⟩
    · simp at isIndex

theorem callDemands_mem (run : s.callDemands c i = .ok demands) (member : (reg, q) ∈ demands) :
    ∃ k ∈ c.fixed, ∃ m, s.pool.intervals[k]? = some m ∧ m.covers q = true ∧
      i.covers q = true := by
  simp only [callDemands, bind_ok, pure_ok] at run
  obtain ⟨lo, -, all, each, rfl⟩ := run
  obtain ⟨d, isIn, rfl⟩ : ∃ d ∈ all, d = some (reg, q) := by simpa using member
  obtain ⟨k, isK, run⟩ := mapM_mem_result each isIn
  simp only [bind_ok, get_ok, pure_ok, map_eq_some_iff, Prod.mk.injEq] at run
  obtain ⟨m, found, q', meets, -, rfl⟩ := run
  obtain ⟨-, coversM, coversI⟩ := meets_covers meets
  exact ⟨k, isK, m, found, coversM, coversI⟩

theorem pinned_early {p : IntervalPool} {f : Frame} (arriving : Arriving c arrivals last p)
    (entering : Entering c arrivals last p f [] start)
    (scanning : Scanning c arrivals start pos [] [id] t) (listed : k ∈ t.active ++ t.inactive)
    (found : t.pool.intervals[k]? = some m) (pinned : m.pinned = true) : m.stop ≤ last + 1 := by
  obtain ⟨-, m', found', inside, -⟩ := scanning.occupancy.listed k listed
  obtain rfl := mem_unique found found'
  exact (entering.stop_le_last arriving (scanning.pins k m found pinned) inside).2

section

variable {g : Graph} {tree : DominatorTree} {sets : LiveSets} {l : Liveness} {p : IntervalPool}
  {f : Frame} {v : ValueId} {u : Use}

theorem demands_of_served (given : g.Accepted tree l.numbering.order)
    (analysed : Liveness.Analysed g g.target tree sets l) (served : l.pool.Served p)
    (found : p.intervals[id]? = some i) (own : i.value = some v) (member : u ∈ i.uses)
    (needs : u.needsRegister = true) : g.Demands l.numbering v u.pos := by
  obtain ⟨k, i₀, found₀, value, uses, -⟩ := served.origin id i found
  have own₀ : i₀.value = some v := value.symm.trans own
  have virtual : i₀.physical = false := by
    rw [((analysed.pool_tidy given fun _ => True).fit k i₀ found₀).kind, own₀]
    rfl
  obtain ⟨w, ownW, known⟩ := analysed.has_value found₀ virtual
  obtain rfl := mem_unique own₀ ownW
  obtain ⟨i', found', isFirst⟩ := analysed.first v k known
  obtain rfl := mem_unique found₀ found'
  exact isFirst.demands u (uses u member) needs

def Claims (t : Scan) (q : Position) (reg : Nat) (v : ValueId) : Prop :=
  ∃ k ∈ t.active ++ t.inactive, ∃ m, t.pool.intervals[k]? = some m ∧ m.location.index = reg ∧
    m.value = some v ∧ ∃ u ∈ m.uses, u.needsRegister = true ∧ u.pos = q

theorem Claims.register_unique {base : IntervalPool} (served : base.Served t.pool) {r r' : Nat}
    (claims : Claims t q r v) (claims' : Claims t q r' v) : r = r' := by
  obtain ⟨k, -, m, found, rfl, own, u, member, needs, here⟩ := claims
  obtain ⟨k', -, m', found', rfl, own', u', member', needs', here'⟩ := claims'
  by_cases same : k = k'
  · subst same
    rw [mem_unique found found']
  · exact absurd (here.trans here'.symm)
      (served.use_apart same found found' own own' member member' needs needs')

variable (given : g.Accepted tree l.numbering.order)
  (analysed : Liveness.Analysed g g.target tree sets l)
  (drawn : Liveness.ofGraph g g.target = .ok l) (arriving : Arriving c arrivals last p)
  (entering : Entering c arrivals last p f [] start)
  (late : ∀ v q, g.Demands l.numbering v q → last < q)
  (calls : ∀ k ∈ c.fixed, ∀ m q, p.intervals[k]? = some m → m.covers q = true →
  g.CallAt l.numbering q)

include given analysed drawn arriving entering late calls

/-- Where all registers are wanted by the time an interval needs one, and the interval cannot wait,
each of them is claimed by a value. -/
theorem exists_claim
    (scanning : Scanning c arrivals start pos [] [id] t) (serving : Serving c l.pool first [id] t)
    (found : t.pool.intervals[id]? = some i) (isStart : i.start = pos)
    (live : ∀ k ∈ t.active ++ t.inactive, ∀ m, t.pool.intervals[k]? = some m → pos < m.stop)
    (own : i.value = some v) (isUse : i.nextUse? i.start = some use) {hard soft : List Demand}
    (isHard : t.hardDemands c i = .ok hard) (isSoft : t.softDemands c i = .ok soft)
    (soon : limit (hard ++ soft) reg ≤ use) (tight : gapBefore use ≤ i.start) :
    ∃ w, w ≠ v ∧ Claims t use reg w ∧ g.Demands l.numbering w use := by
  have occ := scanning.occupancy
  have served := serving.served
  have fit := served.tidy.fit id i found
  obtain ⟨from', u, member, rfl, needs⟩ := nextUse_ok isUse
  have demands := demands_of_served given analysed served found own member needs
  have even := fit.even u member
  have near : u.pos ≤ pos + 1 := by
    unfold gapBefore at tight
    split at tight <;> lia
  -- Nobody is pinned in a register any more.
  have unpinned : ∀ k ∈ t.active ++ t.inactive, ∀ m, t.pool.intervals[k]? = some m →
      m.pinned = false := by
    intro k listed m foundM
    by_contra pinned
    have := pinned_early arriving entering scanning listed foundM (by simpa using pinned)
    have := live k listed m foundM
    have := late v u.pos demands
    have := arriving.even
    lia
  obtain ⟨activeH, inactiveH, callsH, isActiveH, isInactiveH, isCalls, rfl⟩ := hardDemands_ok isHard
  obtain ⟨activeS, inactiveS, isActiveS, isInactiveS, rfl⟩ := softDemands_ok isSoft
  have claims : ∀ k ∈ t.active ++ t.inactive, ∀ m q, t.pool.intervals[k]? = some m →
      m.location.index = reg → m.nextUse? i.start = some q → q ≤ u.pos →
      ∃ w, w ≠ v ∧ Claims t u.pos reg w ∧ g.Demands l.numbering w u.pos := by
    intro k listed m q foundM index isNext early
    obtain ⟨after, u', member', rfl, needs'⟩ := nextUse_ok isNext
    have fitM := served.tidy.fit k m foundM
    have evenM := fitM.even u' member'
    have here : u'.pos = u.pos := by lia
    obtain ⟨-, m', foundM', insideM, -⟩ := occ.listed k listed
    obtain rfl := mem_unique foundM foundM'
    obtain ⟨w, ownM⟩ : ∃ w, m.value = some w := isSome_iff_exists.mp
      (by simpa [insideM.1.1] using fitM.kind.symm)
    refine ⟨w, ?_, ⟨k, listed, m, foundM, index, ownM, u', member', needs', here⟩, ?_⟩
    · rintro rfl
      have apart : k ≠ id := by
        rintro rfl
        exact occ.not_listed mem_cons_self listed
      exact served.use_apart apart foundM found ownM own member' member needs' needs here
    · exact here ▸ demands_of_served given analysed served foundM ownM member' needs'
  rcases limit_cases (activeH ++ inactiveH ++ callsH ++ (activeS ++ inactiveS)) reg with none | isIn
  · have := analysed.demands_lt given drawn demands
    lia
  generalize limit (activeH ++ inactiveH ++ callsH ++ (activeS ++ inactiveS)) reg = q at soon isIn
  simp only [mem_append] at isIn
  rcases isIn with ((isIn | isIn) | isIn) | (isIn | isIn)
  · obtain ⟨k, isK, m, foundM, -, -, wants⟩ := demandsOf_mem isActiveH isIn
    simp [unpinned k (by simp [isK]) m foundM] at wants
  · obtain ⟨k, isK, m, foundM, -, -, wants⟩ := demandsOf_mem isInactiveH isIn
    simp [unpinned k (by simp [isK]) m foundM] at wants
  · obtain ⟨k, isK, m, foundM, coversM, coversI⟩ := callDemands_mem isCalls isIn
    obtain ⟨m', foundM', physical⟩ := occ.fixed k isK
    obtain rfl := mem_unique foundM foundM'
    have foreign : ¬Mine c m := by
      rintro ⟨virtual, -⟩
      simp [physical] at virtual
    have foundP := (entering.foreign_iff foreign).mp
      ((scanning.mine k m foundM).resolve_left foreign)
    have isCall := calls k isK m q foundP coversM
    obtain ⟨d, x, foundX, -, isAt⟩ := isCall
    obtain ⟨_, _, q', -, -, -, isAt', -, -, evenQ, -⟩ := analysed.has_number given foundX
    obtain rfl := mem_unique isAt isAt'
    have := start_le fit.sorted coversI
    obtain rfl : q = u.pos := by lia
    exact absurd (calls k isK m _ foundP coversM) (analysed.demands_no_call given demands)
  · obtain ⟨k, isK, m, foundM, -, index, wants⟩ := demandsOf_mem isActiveS isIn
    have listed : k ∈ t.active ++ t.inactive := mem_append_left _ isK
    rw [unpinned k listed m foundM] at wants
    exact claims k listed m q foundM index wants soon
  · obtain ⟨k, isK, m, foundM, -, index, wants⟩ := demandsOf_mem isInactiveS isIn
    have listed : k ∈ t.active ++ t.inactive := mem_append_right _ isK
    rw [unpinned k listed m foundM] at wants
    split at wants
    · exact claims k listed m q foundM index wants soon
    · simp at wants

theorem start_lt_gapBefore (enough : 5 ≤ c.regs.size)
    (scanning : Scanning c arrivals start pos [] [id] t) (serving : Serving c l.pool first [id] t)
    (found : t.pool.intervals[id]? = some i) (isStart : i.start = pos)
    (live : ∀ k ∈ t.active ++ t.inactive, ∀ m, t.pool.intervals[k]? = some m → pos < m.stop)
    (isUse : i.nextUse? i.start = some use) {hard soft : List Demand}
    (isHard : t.hardDemands c i = .ok hard) (isSoft : t.softDemands c i = .ok soft)
    (isBest : furthest c.regs.toList (limit (hard ++ soft)) = some (reg, lim)) (soon : lim ≤ use) :
    i.start < gapBefore use := by
  by_contra tight
  have fit := serving.served.tidy.fit id i found
  have isMine := (scanning.occupancy.held_mine mem_cons_self found).1
  obtain ⟨v, own⟩ : ∃ v, i.value = some v := isSome_iff_exists.mp
    (by simpa [isMine.1] using fit.kind.symm)
  obtain ⟨-, u, member, rfl, needs⟩ := nextUse_ok isUse
  have demands := demands_of_served given analysed serving.served found own member needs
  obtain ⟨values, few, all⟩ := analysed.demands_few given demands
  have matched : c.regs.toList.length ≤ (values.erase v).length := by
    refine length_le_of_matching (R := Claims t u.pos) c.regs.toList_nodup (fun r isIn => ?_)
      fun _ _ _ => Claims.register_unique serving.served
    obtain ⟨w, other, claims, wanted⟩ := exists_claim given analysed drawn arriving entering
      late calls scanning serving found isStart live own isUse isHard isSoft
      (((furthest_ok isBest).2.2 _ isIn).trans soon) (Nat.le_of_not_lt tight)
    exact ⟨w, (mem_erase_of_ne other).mpr (all w wanted), claims⟩
  rw [length_erase_of_mem (all v demands)] at matched
  have := length_pos_of_mem (all v demands)
  unfold RegisterSet.size at enough
  lia

end

end Scan

end RegisterAllocation
