import RegisterAllocation.Liveness.Intervals
import RegisterAllocation.Proofs.LiveSets
import RegisterAllocation.Proofs.Ranges

/-!
The intervals of a program cover exactly the positions at which their values are to be kept, and
those of registers exactly the calls.

Blocks are added from the last one on, and each block backwards. Of a block that has been added
down to some instruction, a value covers what a use further down or the end of the block asks for,
and from its definition on if that has been met.
-/

namespace RegisterAllocation

open Array List Graph Interval IntervalPool Range
open Option (mem_unique)

namespace Use

variable {u v : Use} {us : List Use}

theorem mem_insert : v ∈ insert u us ↔ v = u ∨ v ∈ us := by
  induction us with
  | nil => simp [insert]
  | cons w rest ih =>
    unfold insert
    split
    · simp
    · simp [ih, or_left_comm]

def Sorted (us : List Use) : Prop := us.Pairwise fun u v => u.pos ≤ v.pos

theorem sorted_insert (sorted : Sorted us) : Sorted (insert u us) := by
  induction us with
  | nil => simp [insert, Sorted]
  | cons w rest ih =>
    obtain ⟨first, others⟩ := pairwise_cons.mp sorted
    unfold insert
    split
    · rename_i before
      refine pairwise_cons.mpr ⟨?_, sorted⟩
      intro v member
      rcases mem_cons.mp member with rfl | member
      · exact before.le
      · exact before.le.trans (first v member)
    · rename_i behind
      refine pairwise_cons.mpr ⟨?_, ih others⟩
      intro v member
      rcases mem_insert.mp member with rfl | member
      · exact Nat.le_of_not_lt behind
      · exact first v member

end Use

namespace Interval

variable {i j : Interval} {lo hi pos q : Position}

theorem addRange_ok (run : i.addRange lo hi = .ok j) :
    lo < hi ∧ j = { i with ranges := Range.insert ⟨lo, hi⟩ i.ranges } := by
  simp only [addRange, bind_ok, ensure_ok, pure_ok] at run
  obtain ⟨_, filled, rfl⟩ := run
  exact ⟨filled, rfl⟩

theorem covers_addRange (sorted : Range.Sorted i.ranges) (run : i.addRange lo hi = .ok j) :
    j = { i with ranges := j.ranges } ∧ Range.Sorted j.ranges ∧
      ∀ q, j.covers q = true ↔ (lo ≤ q ∧ q < hi) ∨ i.covers q = true := by
  obtain ⟨filled, rfl⟩ := addRange_ok run
  refine ⟨rfl, Range.sorted_insert sorted filled, fun q => ?_⟩
  rw [covers_iff, covers_iff]
  exact covers_insert sorted filled

theorem addWord_ok {a b c : Nat} (run : addWord a b = .ok c) : c = a + b := by
  unfold addWord at run
  split at run
  · exact (Except.ok.inj run).symm
  · simp at run

/-- Starting at a position of the first range cuts off what is before it, and starting anywhere else
adds the position. -/
theorem startAt_cases (sorted : Range.Sorted i.ranges) (run : i.startAt pos = .ok j) :
    j = { i with ranges := j.ranges } ∧ Range.Sorted j.ranges ∧
      ((∃ r ∈ i.ranges.head?, r.contains pos = true) ∧
          (∀ q, j.covers q = true ↔ i.covers q = true ∧ pos ≤ q) ∨
        (∀ r ∈ i.ranges.head?, r.contains pos = false) ∧
          ∀ q, j.covers q = true ↔ q = pos ∨ i.covers q = true) := by
  have added (run : (do i.addRange pos (← addWord pos 1)) = .ok j) :
      j = { i with ranges := j.ranges } ∧ Range.Sorted j.ranges ∧
        ∀ q, j.covers q = true ↔ q = pos ∨ i.covers q = true := by
    rw [bind_ok] at run
    obtain ⟨top, isTop, run⟩ := run
    obtain rfl := addWord_ok isTop
    obtain ⟨same, sorted', covers⟩ := covers_addRange sorted run
    refine ⟨same, sorted', fun q => ?_⟩
    rw [covers, Nat.lt_succ_iff, Nat.le_antisymm_iff, and_comm]
  cases isRanges : i.ranges with
  | nil =>
    simp only [startAt, isRanges] at run
    obtain ⟨same, sorted', covers⟩ := added run
    exact ⟨same, sorted', .inr ⟨by simp, covers⟩⟩
  | cons r rest =>
    simp only [startAt, isRanges] at run
    rw [isRanges] at sorted
    split at run
    · rename_i inside
      obtain rfl := Except.ok.inj run
      obtain ⟨-, apart, others⟩ := sorted_cons.mp sorted
      have within : r.start ≤ pos ∧ pos < r.stop := by simpa [Range.contains] using inside
      have cut : Range.Sorted (⟨pos, r.stop⟩ :: rest) :=
        sorted_cons.mpr ⟨within.2, apart, others⟩
      refine ⟨rfl, cut, .inl ⟨⟨r, rfl, inside⟩, fun q => ?_⟩⟩
      have later : Covers rest q → r.stop < q := sorted.stop_lt
      rw [covers_iff, covers_iff, isRanges, covers_cons, covers_cons]
      grind
    · rename_i outside
      obtain ⟨same, sorted', covers⟩ := added run
      exact ⟨same, sorted', .inr ⟨by simpa using outside, covers⟩⟩

theorem covers_startAt (sorted : Range.Sorted i.ranges)
    (reaches : ∀ q, i.covers q = true → q < pos → ∀ p, q ≤ p → p ≤ pos → i.covers p = true)
    (run : i.startAt pos = .ok j) :
    j = { i with ranges := j.ranges } ∧ Range.Sorted j.ranges ∧
      ∀ q, j.covers q = true ↔ q = pos ∨ (i.covers q = true ∧ pos ≤ q) := by
  obtain ⟨same, sorted', ⟨⟨r, first, inside⟩, covers⟩ | ⟨outside, covers⟩⟩ :=
    startAt_cases sorted run
  all_goals refine ⟨same, sorted', fun q => ?_⟩
  · have here : i.covers pos = true := any_eq_true.mpr ⟨r, mem_of_mem_head? first, inside⟩
    grind
  · have behind : i.covers q = true → pos ≤ q := by
      intro covered
      by_contra before
      have first := start_le sorted covered
      cases isRanges : i.ranges with
      | nil => exact ranges_ne_nil covered isRanges
      | cons r rest =>
        -- The first range ends at an uncovered position before `pos`.
        simp only [start, isRanges, head?_cons, Option.map_some, Option.getD_some] at first
        have outside : r.start ≤ pos → r.stop ≤ pos := by
          simpa [Range.contains, isRanges] using outside
        rw [isRanges] at sorted
        have stop := reaches r.start (covers_iff.mpr (isRanges ▸ sorted.covers_start)) (by lia) r.stop
          (sorted_cons.mp sorted).1.le (outside (by lia))
        rw [covers_iff, isRanges] at stop
        exact sorted.open_stop stop
    grind

end Interval

namespace Instr

variable {g : Graph} {target : Target} {x : Instr} {pos : Position} {use : Use}

theorem pos_inputUse {k : Nat} (run : x.inputUse g target k pos = .ok use) : use.pos = pos := by
  unfold inputUse at run
  split at run
  · rw [← Except.ok.inj run]
  · split at run
    · rw [← Except.ok.inj run]
    · simp only [bind_ok, pure_ok] at run
      obtain ⟨_, _, rfl⟩ := run
      rfl
  · rw [← Except.ok.inj run]
  · rw [← Except.ok.inj run]

theorem pos_resultUse : (x.resultUse target pos).pos = pos := by
  unfold resultUse
  cases x.opcode <;> rfl

theorem resultUse_parameter (parameter : x.opcode = .parameter) :
    (x.resultUse target pos).needsRegister = false := by
  simp [resultUse, parameter]

theorem opcode_of_isCall (call : x.isCall = true) : ∃ callee, x.opcode = .call callee := by
  cases isOp : x.opcode <;> simp_all [isCall, Opcode.isCall]

theorem inputUse_call {k : Nat} (call : x.isCall = true) (run : x.inputUse g target k pos = .ok use) :
    use.needsRegister = false := by
  obtain ⟨callee, isOp⟩ := opcode_of_isCall call
  simp only [inputUse, isOp] at run
  split at run
  · rw [← Except.ok.inj run]
  · simp only [bind_ok, pure_ok] at run
    obtain ⟨_, _, rfl⟩ := run
    rfl

theorem resultUse_call (call : x.isCall = true) :
    (x.resultUse target pos).needsRegister = false := by
  obtain ⟨callee, isOp⟩ := opcode_of_isCall call
  simp [resultUse, isOp]

end Instr

namespace IntervalPool

variable {p p' : IntervalPool} {id : IntervalId} {i : Interval}

theorem get_ok : p.get id = .ok i ↔ p.intervals[id]? = some i := need_eq_ok

theorem modify_ok {f : Interval → Except Fault Interval} (run : p.modify id f = .ok p') :
    ∃ i j, p.intervals[id]? = some i ∧ f i = .ok j ∧ p' = p.set id j := by
  simp only [modify, bind_ok, get_ok, pure_ok] at run
  obtain ⟨i, found, j, step, rfl⟩ := run
  exact ⟨i, j, found, step, rfl⟩

theorem intervals_set (found : p.intervals[id]? = some i) (j : Interval) (k : IntervalId) :
    (p.set id j).intervals[k]? = if k = id then some j else p.intervals[k]? := by
  obtain ⟨inside, -⟩ := Array.getElem?_eq_some_iff.mp found
  by_cases here : k = id
  · subst here
    simp [set, inside]
  · simp [set, here, getElem?_setIfInBounds_ne (Ne.symm here)]

theorem set_self (found : p.intervals[id]? = some i) (j : Interval) :
    (p.set id j).intervals[id]? = some j := by
  rw [intervals_set found, if_pos rfl]

theorem set_other {k : IntervalId} (apart : k ≠ id) :
    (p.set id j).intervals[k]? = p.intervals[k]? :=
  getElem?_setIfInBounds_ne apart.symm

theorem set_cases (found : p.intervals[id]? = some i) {j m : Interval} {k : IntervalId}
    (foundM : (p.set id j).intervals[k]? = some m) :
    (id = k ∧ j = m) ∨ (k ≠ id ∧ p.intervals[k]? = some m) := by
  rw [intervals_set found] at foundM
  by_cases here : k = id
  · exact .inl ⟨here.symm, by simpa [here] using foundM⟩
  · exact .inr ⟨here, by simpa [here] using foundM⟩

section

variable {R : Interval → Interval → Prop} {j m m' : Interval} {k : IntervalId}

theorem set_forth (found : p.intervals[id]? = some i) (changed : R i j) (same : ∀ m, R m m)
    (foundM : p.intervals[k]? = some m) : ∃ m', (p.set id j).intervals[k]? = some m' ∧ R m m' := by
  rw [intervals_set found]
  by_cases here : k = id
  · subst here
    obtain rfl := mem_unique found foundM
    exact ⟨j, if_pos rfl, changed⟩
  · exact ⟨m, by rwa [if_neg here], same m⟩

theorem set_back (found : p.intervals[id]? = some i) (changed : R i j) (same : ∀ m, R m m)
    (foundM : (p.set id j).intervals[k]? = some m') : ∃ m, p.intervals[k]? = some m ∧ R m m' := by
  rcases set_cases found foundM with ⟨rfl, rfl⟩ | ⟨-, before⟩
  · exact ⟨i, found, changed⟩
  · exact ⟨m', before, same m'⟩

end

end IntervalPool

namespace Graph

def Writes (g : Graph) (n : Numbering) (instrs : List InstrId) (v : ValueId) (p : Position) : Prop :=
  ∃ i ∈ instrs, ∃ x, g.instrs[i]? = some x ∧ v ∈ x.results ∧ n.numberOf? i = some p

def Reads (g : Graph) (n : Numbering) (instrs : List InstrId) (v : ValueId) (p : Position) : Prop :=
  ∃ i ∈ instrs, ∃ x, g.instrs[i]? = some x ∧ x.isPhi = false ∧ v ∈ x.inputs ∧
    n.numberOf? i = some p

/-- A value is to be kept at a position, for some instructions of its block and for what comes
after the block: it is defined by then, and defined right there or needed later. -/
def Kept (g : Graph) (n : Numbering) (after : Prop) (instrs : List InstrId) (v : ValueId)
    (q : Position) : Prop :=
  (∀ p, g.Writes n instrs v p → p ≤ q) ∧
    (g.Writes n instrs v q ∨ after ∨ ∃ u, g.Reads n instrs v u ∧ q < u)

def CallAt (g : Graph) (n : Numbering) (p : Position) : Prop :=
  ∃ (i : InstrId) (x : Instr), g.instrs[i]? = some x ∧ x.isCall = true ∧ n.numberOf? i = some p

/-- An instruction at a position may ask for a value to be in a register: one that reads it, or
computes it. -/
def Demands (g : Graph) (n : Numbering) (v : ValueId) (p : Position) : Prop :=
  ∃ (i : InstrId) (x : Instr), g.instrs[i]? = some x ∧ x.isPhi = false ∧ x.isCall = false ∧
    n.numberOf? i = some p ∧ (v ∈ x.inputs ∨ (v ∈ x.results ∧ x.opcode ≠ .parameter))

section

variable {g : Graph} {n : Numbering} {tree : DominatorTree} {order : List BlockId} {b : BlockId}
  {B : Block} {i : InstrId} {x : Instr} {before rest : List InstrId} {v : ValueId} {p q : Position}
  {after : Prop}

theorem writes_cons (found : g.instrs[i]? = some x) :
    g.Writes n (i :: rest) v p ↔ (v ∈ x.results ∧ n.numberOf? i = some p) ∨ g.Writes n rest v p := by
  simp [Writes, found]

theorem reads_cons (found : g.instrs[i]? = some x) :
    g.Reads n (i :: rest) v p ↔
      (x.isPhi = false ∧ v ∈ x.inputs ∧ n.numberOf? i = some p) ∨ g.Reads n rest v p := by
  simp [Reads, found]

section

variable (given : g.Accepted tree order) (stored : g.blocks[b]? = some B)
  (split : B.instrs = before ++ i :: rest) (found : g.instrs[i]? = some x)

include given stored split found

theorem Accepted.written_once (result : v ∈ x.results) : ¬g.Writes n rest v p := by
  rintro ⟨j, member, y, foundY, resultY, -⟩
  obtain rfl := owner_of_nodup given.valid.results found foundY result resultY
  have once := given.consistent.block_nodup stored
  rw [split] at once
  have := (nodup_append.mp once).2.1
  exact (nodup_cons.mp this).1 member

theorem Accepted.read_after
    (plain : x.isPhi = false) (input : v ∈ x.inputs) : ¬g.Writes n (i :: rest) v p := by
  rintro ⟨j, member, y, foundY, result, -⟩
  have listed : j ∈ B.instrs := split ▸ mem_append_right before member
  have home := (given.consistent.listed_iff stored foundY).mp listed
  have isAt : B.instrs[before.length]? = some i := by simp [split]
  obtain ⟨pc, k, z, early, listedZ, foundZ, resultZ⟩ :=
    given.defined_before stored isAt found plain input ⟨j, y, foundY, home, result⟩
  obtain rfl := owner_of_nodup given.valid.results foundY foundZ result resultZ
  rw [split, List.getElem?_append_left early] at listedZ
  have once := given.consistent.block_nodup stored
  rw [split] at once
  exact (nodup_append.mp once).2.2 j (mem_of_getElem? listedZ) j member rfl

theorem Accepted.kept_result (isAt : n.numberOf? i = some p) (result : v ∈ x.results) :
    g.Kept n after (i :: rest) v q ↔ p ≤ q ∧ (q = p ∨ g.Kept n after rest v q) := by
  have once (q : Position) : ¬g.Writes n rest v q := given.written_once stored split found result
  have own : ¬(x.isPhi = false ∧ v ∈ x.inputs) := fun ⟨plain, input⟩ =>
    given.read_after stored split found plain input ((writes_cons found).mpr (.inl ⟨result, isAt⟩))
  simp only [Kept, writes_cons found, reads_cons found, once, isAt, result, Option.some.injEq]
  grind

theorem Accepted.kept_input
    (isAt : n.numberOf? i = some p) (plain : x.isPhi = false) (input : v ∈ x.inputs) :
    g.Kept n after (i :: rest) v q ↔ q < p ∨ g.Kept n after rest v q := by
  have once (q : Position) : ¬g.Writes n (i :: rest) v q :=
    given.read_after stored split found plain input
  have later (q : Position) : ¬g.Writes n rest v q :=
    fun writes => once q ((writes_cons found).mpr (.inr writes))
  simp only [Kept, once, later, reads_cons found, isAt, plain, input, Option.some.injEq]
  grind

end

theorem kept_other (found : g.instrs[i]? = some x) (noResult : v ∉ x.results)
    (noInput : x.isPhi = true ∨ v ∉ x.inputs) :
    g.Kept n after (i :: rest) v q ↔ g.Kept n after rest v q := by
  have noRead : ¬(x.isPhi = false ∧ v ∈ x.inputs) := by grind
  simp only [Kept, writes_cons found, reads_cons found, noResult, false_and, false_or]
  grind

end

end Graph

namespace Liveness

structure FirstInterval (g : Graph) (n : Numbering) (covered : Position → Prop) (v : ValueId)
    (id : IntervalId) (i : Interval) : Prop where
  made : ∃ ty d x, g.typeOf v = .ok ty ∧ g.instrs[d]? = some x ∧ v ∈ x.results ∧
    i = { ofValue id v ty d with ranges := i.ranges, uses := i.uses }
  sorted : Range.Sorted i.ranges
  covers : ∀ q, i.covers q = true ↔ covered q
  uses : Use.Sorted i.uses
  even : ∀ u ∈ i.uses, u.pos % 2 = 0
  demands : ∀ u ∈ i.uses, u.needsRegister = true → g.Demands n v u.pos

structure CallInterval (g : Graph) (n : Numbering) (l : Location) (id : IntervalId) (i : Interval) :
    Prop where
  made : ∃ c reg, l = .registerFor reg (Draft.fullType c) ∧
    i = { ofRegister id l (Draft.fullType c) with ranges := i.ranges }
  sorted : Range.Sorted i.ranges
  covers : ∀ q, i.covers q = true → g.CallAt n q

namespace FirstInterval

variable {g : Graph} {n : Numbering} {covered covered' : Position → Prop} {v : ValueId}
  {id : IntervalId} {i j : Interval} {u : Use}

variable (first : FirstInterval g n covered v id i)

include first

theorem value_eq : i.value = some v := by
  obtain ⟨ty, d, x, -, -, -, same⟩ := first.made
  rw [same]
  rfl

theorem not_call {l : Location} {id' : IntervalId}
    (call : CallInterval g n l id' i) : False := by
  obtain ⟨c, reg, -, made⟩ := call.made
  have := first.value_eq
  rw [made] at this
  simp [ofRegister] at this

theorem of_ranges (same : j = { i with ranges := j.ranges })
    (sorted : Range.Sorted j.ranges) (covers : ∀ q, j.covers q = true ↔ covered' q) :
    FirstInterval g n covered' v id j := by
  have uses : j.uses = i.uses := by rw [same]
  refine ⟨?_, sorted, covers, uses ▸ first.uses, uses ▸ first.even, uses ▸ first.demands⟩
  obtain ⟨ty, d, x, hty, found, result, made⟩ := first.made
  refine ⟨ty, d, x, hty, found, result, ?_⟩
  rw [uses, same, made]

theorem after_addUse (even : u.pos % 2 = 0)
    (demands : u.needsRegister = true → g.Demands n v u.pos) :
    FirstInterval g n covered v id (i.addUse u) := by
  refine ⟨?_, first.sorted, first.covers, Use.sorted_insert first.uses, ?_, ?_⟩
  · obtain ⟨ty, d, x, hty, found, result, made⟩ := first.made
    refine ⟨ty, d, x, hty, found, result, ?_⟩
    rw [made]
    rfl
  · intro w member
    rcases Use.mem_insert.mp member with rfl | member
    · exact even
    · exact first.even w member
  · intro w member
    rcases Use.mem_insert.mp member with rfl | member
    · exact demands
    · exact first.demands w member

theorem after_startAt {pos : Position}
    (reaches : ∀ q, covered q → q < pos → ∀ p, q ≤ p → p ≤ pos → covered p)
    (run : i.startAt pos = .ok j) :
    FirstInterval g n (fun q => q = pos ∨ (covered q ∧ pos ≤ q)) v id j := by
  have reaches' : ∀ q, i.covers q = true → q < pos → ∀ p, q ≤ p → p ≤ pos → i.covers p = true := by
    simpa only [first.covers] using reaches
  obtain ⟨same, sorted, covers⟩ := Interval.covers_startAt first.sorted reaches' run
  exact first.of_ranges same sorted fun q => by rw [covers, first.covers]

theorem after_resultUse {d : InstrId} {x : Instr} {target : Target} {pos : Position}
    (found : g.instrs[d]? = some x) (plain : x.isPhi = false) (isAt : n.numberOf? d = some pos)
    (even : pos % 2 = 0) (result : v ∈ x.results) :
    FirstInterval g n covered v id (i.addUse (x.resultUse target pos)) := by
  have use : (x.resultUse target pos).pos = pos := Instr.pos_resultUse
  refine first.after_addUse (by rw [use]; exact even) fun needs => ?_
  have noCall : x.isCall = false := by
    by_contra call
    simp [Instr.resultUse_call (by simpa using call)] at needs
  refine ⟨d, x, found, plain, noCall, by rw [use]; exact isAt, .inr ⟨result, fun parameter => ?_⟩⟩
  simp [Instr.resultUse_parameter parameter] at needs

end FirstInterval

namespace Draft

variable {g : Graph} {target : Target} {n : Numbering} {covered : ValueId → Position → Prop}
  {d d' d'' : Draft} {v : ValueId} {id : IntervalId}

structure Fits (g : Graph) (n : Numbering) (covered : ValueId → Position → Prop) (d : Draft) :
    Prop where
  first : ∀ (v : ValueId) (id : IntervalId), d.roots[v]? = some (some id) →
    ∃ i, d.pool.intervals[id]? = some i ∧ FirstInterval g n (covered v) v id i
  call : ∀ (l : Location) (id : IntervalId), d.registers.lookup l = some id →
    ∃ i, d.pool.intervals[id]? = some i ∧ CallInterval g n l id i
  each : ∀ id < d.pool.size, (∃ v : ValueId, d.roots[v]? = some (some id)) ∨
    ∃ l, d.registers.lookup l = some id

theorem root_ok : d.root v = .ok id ↔ d.roots[v]? = some (some id) := by
  simp only [root, bind_ok, need_eq_ok]
  constructor
  · rintro ⟨found, known, run⟩
    cases found with
    | none => simp at run
    | some id' =>
      obtain rfl := pure_ok.mp run
      exact known
  · intro known
    exact ⟨some id, known, rfl⟩

structure Grows (d d' : Draft) : Prop where
  roots : d'.roots = d.roots
  calls : ∀ l id i, d.registers.lookup l = some id → d.pool.intervals[id]? = some i →
    d'.registers.lookup l = some id ∧ ∃ j, d'.pool.intervals[id]? = some j ∧
      ∀ q, i.covers q = true → j.covers q = true

theorem Grows.refl : Grows d d :=
  ⟨rfl, fun _ _ i known found => ⟨known, i, found, fun _ h => h⟩⟩

theorem Grows.trans (first : Grows d d') (second : Grows d' d'') : Grows d d'' := by
  refine ⟨second.roots.trans first.roots, fun l id i known found => ?_⟩
  obtain ⟨known, j, found, more⟩ := first.calls l id i known found
  obtain ⟨known, k, found, more'⟩ := second.calls l id j known found
  exact ⟨known, k, found, fun q covered => more' q (more q covered)⟩

theorem Fits.congr (fits : Fits g n covered d) {covered' : ValueId → Position → Prop}
    (same : ∀ v q, covered v q ↔ covered' v q) : Fits g n covered' d := by
  obtain rfl : covered = covered' := funext fun v => funext fun q => propext (same v q)
  exact fits

theorem Fits.after_modifyRoot (fits : Fits g n covered d) {f : Interval → Except Fault Interval}
    (run : d.modifyRoot v f = .ok d') {covered' : Position → Prop}
    (step : ∀ id i j, FirstInterval g n (covered v) v id i → f i = .ok j →
      FirstInterval g n covered' v id j) :
    Fits g n (fun w => if w = v then covered' else covered w) d' ∧ Grows d d' := by
  simp only [modifyRoot, bind_ok, root_ok, pure_ok] at run
  obtain ⟨id, known, pool, modified, rfl⟩ := run
  obtain ⟨i, j, found, change, rfl⟩ := IntervalPool.modify_ok modified
  obtain ⟨i₀, found₀, first⟩ := fits.first v id known
  obtain rfl := mem_unique found found₀
  have after := step id i j first change
  have others : ∀ l id', d.registers.lookup l = some id' →
      (d.pool.set id j).intervals[id']? = d.pool.intervals[id']? := by
    intro l id' register
    rw [intervals_set found]
    by_cases here : id' = id
    · subst here
      obtain ⟨i', found', call⟩ := fits.call l id' register
      obtain rfl := mem_unique found found'
      exact (first.not_call call).elim
    · simp [here]
  refine ⟨⟨?_, ?_, ?_⟩, rfl, fun l id' i' register found' =>
    ⟨register, i', (others l id' register).trans found', fun _ h => h⟩⟩
  · intro w id' known'
    by_cases here : w = v
    · subst here
      obtain rfl : id = id' := Option.some.inj (Option.some.inj (known.symm.trans known'))
      refine ⟨j, ?_, by simpa using after⟩
      rw [intervals_set found]
      simp
    · obtain ⟨i', found', first'⟩ := fits.first w id' known'
      refine ⟨i', ?_, by simpa [here] using first'⟩
      have apart : id' ≠ id := by
        rintro rfl
        obtain rfl := mem_unique found found'
        exact here (mem_unique first'.value_eq first.value_eq)
      rw [intervals_set found]
      simpa [apart] using found'
  · intro l id' register
    obtain ⟨i', found', call⟩ := fits.call l id' register
    exact ⟨i', (others l id' register).trans found', call⟩
  · intro id' inside
    exact fits.each id' (by simpa using inside)

theorem Fits.after_modifyRoots (fits : Fits g n covered d) {vs : List ValueId} (once : vs.Nodup)
    {f : Interval → Except Fault Interval} {covered' : ValueId → Position → Prop}
    (step : ∀ v ∈ vs, ∀ id i j, FirstInterval g n (covered v) v id i → f i = .ok j →
      FirstInterval g n (covered' v) v id j)
    (run : vs.foldlM (fun d v => d.modifyRoot v f) d = .ok d') :
    Fits g n (fun v => if v ∈ vs then covered' v else covered v) d' ∧ Grows d d' := by
  induction vs generalizing covered d with
  | nil =>
    obtain rfl : d = d' := by simpa using run
    exact ⟨fits.congr (by simp), .refl⟩
  | cons v rest ih =>
    obtain ⟨fresh, once⟩ := nodup_cons.mp once
    obtain ⟨mid, head, run⟩ := foldlM_cons_ok.mp run
    obtain ⟨fits, same⟩ := fits.after_modifyRoot head (step v mem_cons_self)
    have step' : ∀ w ∈ rest, ∀ id i j,
        FirstInterval g n (if w = v then covered' v else covered w) w id i → f i = .ok j →
        FirstInterval g n (covered' w) w id j := by
      intro w member id i j first
      have apart : w ≠ v := fun same => fresh (same ▸ member)
      rw [if_neg apart] at first
      exact step w (mem_cons_of_mem v member) id i j first
    obtain ⟨fits, same'⟩ := ih fits once step' run
    refine ⟨fits.congr fun w q => ?_, same.trans same'⟩
    by_cases here : w = v <;> by_cases later : w ∈ rest <;> simp_all

theorem Fits.after_addAll {β : Type} {key : β → ValueId} {op : Draft → β → Except Fault Draft}
    (fits : Fits g n covered d) {xs : List β} (new : Position → Prop)
    (step : ∀ x ∈ xs, ∀ (covered : ValueId → Position → Prop) (d d' : Draft), Fits g n covered d →
      op d x = .ok d' →
      Fits g n (fun w q => (w = key x ∧ new q) ∨ covered w q) d' ∧ Grows d d')
    (run : xs.foldlM op d = .ok d') :
    Fits g n (fun w q => (w ∈ xs.map key ∧ new q) ∨ covered w q) d' ∧ Grows d d' := by
  induction xs generalizing covered d with
  | nil =>
    obtain rfl : d = d' := by simpa using run
    exact ⟨fits.congr (by simp), .refl⟩
  | cons x rest ih =>
    obtain ⟨mid, head, run⟩ := foldlM_cons_ok.mp run
    obtain ⟨fits, same⟩ := step x mem_cons_self covered d mid fits head
    obtain ⟨fits, same'⟩ := ih fits (fun y member => step y (mem_cons_of_mem x member)) run
    refine ⟨fits.congr fun w q => ?_, same.trans same'⟩
    simp only [map_cons, mem_cons]
    tauto

theorem Fits.after_addRange (fits : Fits g n covered d) {lo hi : Position}
    (run : d.modifyRoot v (·.addRange lo hi) = .ok d') :
    Fits g n (fun w q => (w = v ∧ lo ≤ q ∧ q < hi) ∨ covered w q) d' ∧ Grows d d' := by
  have step : ∀ id i j, FirstInterval g n (covered v) v id i → i.addRange lo hi = .ok j →
      FirstInterval g n (fun q => (lo ≤ q ∧ q < hi) ∨ covered v q) v id j := by
    intro id i j first added
    obtain ⟨same, sorted, covers⟩ := Interval.covers_addRange first.sorted added
    exact first.of_ranges same sorted fun q => by rw [covers, first.covers]
  obtain ⟨fits, grows⟩ := fits.after_modifyRoot run step
  refine ⟨fits.congr fun w q => ?_, grows⟩
  by_cases here : w = v
  · simp [here]
  · simp [here]

theorem Fits.after_openRegister (fits : Fits g n covered d) {c : RegisterClass} {reg : Nat}
    {l : Location}
    (isReg : l = .registerFor reg (fullType c)) (fresh : d.registers.lookup l = none) :
    Fits g n covered { d with
      pool := (d.pool.addRegister l (fullType c)).2
      registers := (l, d.pool.size) :: d.registers } ∧
    Grows d { d with
      pool := (d.pool.addRegister l (fullType c)).2
      registers := (l, d.pool.size) :: d.registers } := by
  have old : ∀ (id : IntervalId) (i : Interval), d.pool.intervals[id]? = some i →
      (d.pool.addRegister l (fullType c)).2.intervals[id]? = some i := by
    intro id i found
    obtain ⟨inside, rfl⟩ := Array.getElem?_eq_some_iff.mp found
    simp [addRegister, getElem?_push, Nat.ne_of_lt inside]
  have lookup : ∀ k, ((l, d.pool.size) :: d.registers).lookup k =
      if k = l then some d.pool.size else d.registers.lookup k := by
    intro k
    by_cases here : k = l
    · simp [here]
    · simp [here, lookup_cons, beq_eq_false_iff_ne.mpr here]
  refine ⟨⟨?_, ?_, ?_⟩, rfl, ?_⟩
  · intro v id known
    obtain ⟨i, found, first⟩ := fits.first v id known
    exact ⟨i, old id i found, first⟩
  · intro k id known
    rw [lookup] at known
    by_cases here : k = l
    · obtain rfl : d.pool.size = id := by simpa [here] using known
      refine ⟨ofRegister d.pool.size k (fullType c), ?_, ⟨c, reg, here.trans isReg, rfl⟩,
        .nil, ?_⟩
      · simp [addRegister, IntervalPool.size, here]
      · simp [Interval.covers, ofRegister]
    · obtain ⟨i, found, call⟩ := fits.call k id (by simpa [here] using known)
      exact ⟨i, old id i found, call⟩
  · intro id inside
    by_cases here : id < d.pool.size
    · rcases fits.each id here with root | ⟨k, known⟩
      · exact .inl root
      · refine .inr ⟨k, ?_⟩
        have apart : k ≠ l := by
          rintro rfl
          simp [fresh] at known
        simp [lookup, apart, known]
    · have size : (d.pool.addRegister l (fullType c)).2.size = d.pool.size + 1 := by
        simp [addRegister, IntervalPool.size]
      refine .inr ⟨l, ?_⟩
      simp only [lookup, ↓reduceIte, Option.some.injEq]
      simp only [size] at inside
      lia
  · intro k id i known found
    have apart : k ≠ l := by
      rintro rfl
      simp [fresh] at known
    exact ⟨by simp [lookup, apart, known], i, old id i found, fun _ h => h⟩

theorem Fits.after_blockAt (fits : Fits g n covered d) {pos : Position} {l : Location}
    (call : g.CallAt n pos) (known : d.registers.lookup l = some id) {pool : IntervalPool}
    (run : d.pool.modify id (·.addRange pos (pos + 1)) = .ok pool) :
    Fits g n covered { d with pool } ∧ Grows d { d with pool } ∧
      ∃ i, pool.intervals[id]? = some i ∧ i.covers pos = true := by
  obtain ⟨i, j, found, added, rfl⟩ := IntervalPool.modify_ok run
  obtain ⟨i₀, found₀, isCall⟩ := fits.call l id known
  obtain rfl := mem_unique found found₀
  obtain ⟨same, sorted, covers⟩ := Interval.covers_addRange isCall.sorted added
  have isCall' : CallInterval g n l id j := by
    obtain ⟨c, reg, isReg, made⟩ := isCall.made
    refine ⟨⟨c, reg, isReg, ?_⟩, sorted, ?_⟩
    · rw [same, made]
    · intro q covered
      rcases (covers q).mp covered with ⟨low, high⟩ | before
      · obtain rfl : pos = q := by lia
        exact call
      · exact isCall.covers q before
  refine ⟨⟨?_, ?_, ?_⟩, ⟨rfl, ?_⟩, j, ?_, ?_⟩
  · intro v id' root
    obtain ⟨i', found', first⟩ := fits.first v id' root
    refine ⟨i', ?_, first⟩
    have apart : id' ≠ id := by
      rintro rfl
      obtain rfl := mem_unique found found'
      exact first.not_call isCall
    rwa [set_other apart]
  · intro k id' known'
    by_cases here : id' = id
    · subst here
      obtain ⟨i', found', call'⟩ := fits.call k id' known'
      obtain rfl := mem_unique found found'
      have place : k = l := by
        obtain ⟨c, reg, -, made⟩ := isCall.made
        obtain ⟨c', reg', -, made'⟩ := call'.made
        have here : i.location = l := by rw [made]; rfl
        have there : i.location = k := by rw [made']; rfl
        exact there.symm.trans here
      exact ⟨j, set_self found j, place ▸ isCall'⟩
    · obtain ⟨i', found', call'⟩ := fits.call k id' known'
      exact ⟨i', by rwa [set_other here], call'⟩
  · intro id' inside
    exact fits.each id' (by simpa using inside)
  · intro k id' i' known' found'
    exact ⟨known', IntervalPool.set_forth (R := fun i j => ∀ q, i.covers q = true → j.covers q = true)
      found (fun q before => (covers q).mpr (.inr before)) (fun _ _ before => before) found'⟩
  · exact set_self found j
  · exact (covers pos).mpr (.inl ⟨le_rfl, by lia⟩)

theorem Fits.after_blockRegister (fits : Fits g n covered d) {pos : Position} {c : RegisterClass}
    {reg : Nat} (call : g.CallAt n pos)
    (run : blockRegister pos (fullType c) d reg = .ok d') :
    Fits g n covered d' ∧ Grows d d' ∧ ∃ id i,
      d'.registers.lookup (.registerFor reg (fullType c)) = some id ∧
      d'.pool.intervals[id]? = some i ∧ i.covers pos = true := by
  unfold blockRegister at run
  dsimp only at run
  cases known : d.registers.lookup (.registerFor reg (fullType c)) with
  | some id =>
    simp only [known, bind_ok, pure_ok] at run
    obtain ⟨pool, run, rfl⟩ := run
    obtain ⟨fits, grows, i, found, covers⟩ := fits.after_blockAt call known run
    exact ⟨fits, grows, id, i, known, found, covers⟩
  | none =>
    simp only [known, bind_ok, pure_ok] at run
    obtain ⟨pool, run, rfl⟩ := run
    obtain ⟨opened, grows⟩ := fits.after_openRegister rfl known
    obtain ⟨fits, grows', i, found, covers⟩ := opened.after_blockAt call lookup_cons_self run
    exact ⟨fits, grows.trans grows', _, i, lookup_cons_self, found, covers⟩

def BlockedAt (d : Draft) (q : Position) (c : RegisterClass) (reg : Nat) : Prop :=
  ∃ id i, d.registers.lookup (.registerFor reg (fullType c)) = some id ∧
    d.pool.intervals[id]? = some i ∧ i.covers q = true

theorem Grows.keeps_blockedAt (grows : Grows d d') {q : Position} {c : RegisterClass} {reg : Nat}
    (blocked : BlockedAt d q c reg) : BlockedAt d' q c reg := by
  obtain ⟨id, i, known, found, covers⟩ := blocked
  obtain ⟨known, j, found, more⟩ := grows.calls _ id i known found
  exact ⟨id, j, known, found, more q covers⟩

theorem Fits.after_blockRegisters (fits : Fits g n covered d) {pos : Position} {c : RegisterClass}
    {regs : List Nat} (call : g.CallAt n pos)
    (run : regs.foldlM (blockRegister pos (fullType c)) d = .ok d') :
    Fits g n covered d' ∧ Grows d d' ∧ ∀ reg ∈ regs, BlockedAt d' pos c reg := by
  induction regs generalizing d with
  | nil =>
    obtain rfl : d = d' := by simpa using run
    exact ⟨fits, .refl, by simp⟩
  | cons reg rest ih =>
    obtain ⟨mid, head, run⟩ := foldlM_cons_ok.mp run
    obtain ⟨fits, grows, blocked⟩ := fits.after_blockRegister call head
    obtain ⟨fits, grows', others⟩ := ih fits run
    refine ⟨fits, grows.trans grows', ?_⟩
    intro reg' member
    rcases mem_cons.mp member with rfl | member
    · exact grows'.keeps_blockedAt blocked
    · exact others reg' member

def Blocks (target : Target) (d : Draft) (q : Position) : Prop :=
  ∀ cc c reg, target.convention = some cc → (cc.callerSaved c).contains reg = true →
    reg < target.numRegs c → BlockedAt d q c reg

theorem Grows.keeps_blocks {q : Position} (grows : Grows d d') (blocks : Blocks target d q) :
    Blocks target d' q :=
  fun cc c reg isCC saved inside => grows.keeps_blockedAt (blocks cc c reg isCC saved inside)

theorem Fits.after_blockClasses (fits : Fits g n covered d) {pos : Position} {cc : CallingConvention}
    (isCC : target.convention = some cc) (call : g.CallAt n pos)
    (run : RegisterClass.all.foldlM (blockClass target cc pos) d = .ok d') :
    Fits g n covered d' ∧ Grows d d' ∧ Blocks target d' pos := by
  simp only [RegisterClass.all, foldlM_cons, foldlM_nil, bind_ok, pure_ok,
    blockClass] at run
  obtain ⟨mid, ints, last, floats, rfl⟩ := run
  obtain ⟨fits, grows, blockedInts⟩ := fits.after_blockRegisters call ints
  obtain ⟨fits, grows', blockedFloats⟩ := fits.after_blockRegisters call floats
  refine ⟨fits, grows.trans grows', ?_⟩
  intro cc' c reg isCC' saved inside
  obtain rfl := mem_unique isCC isCC'
  have member : reg ∈ (cc.callerSaved c).toList.filter (· < target.numRegs c) := by
    simp [RegisterSet.mem_toList, saved, inside]
  cases c with
  | int => exact grows'.keeps_blockedAt (blockedInts reg member)
  | float => exact blockedFloats reg member

def Opened (g : Graph) (n : Numbering) (covered : ValueId → Position → Prop) (r : Range)
    (after : ValueId → Prop) (instrs : List InstrId) (v : ValueId) (q : Position) : Prop :=
  covered v q ∨ (r.start ≤ q ∧ q < r.stop ∧ g.Kept n (after v) instrs v q)

section

variable {tree : DominatorTree} {b : BlockId} {B : Block} {r : Range} {i : InstrId} {x : Instr}
  {before rest : List InstrId} {after : ValueId → Prop} {pos : Position}

section

variable (given : g.Accepted tree n.order) (numbered : n.Numbered g)
  (stored : g.blocks[b]? = some B) (range : n.rangeOf? b = some r)
  (split : B.instrs = before ++ i :: rest) (found : g.instrs[i]? = some x)
  (isAt : n.numberOf? i = some pos) (behind : ∀ v q, covered v q → r.stop ≤ q)

include given numbered stored range split found isAt behind

theorem Opened.reaches_pos
    (result : v ∈ x.results) {q : Position} (open' : Opened g n covered r after rest v q)
    (early : q < pos) {p : Position} (low : q ≤ p) (high : p ≤ pos) :
    Opened g n covered r after rest v p := by
  have member := given.valid.complete b B stored
  have listed : i ∈ B.instrs := by simp [split]
  obtain ⟨pos', isAt', startLe, ltStop, -, place⟩ :=
    numbered.number_mem member stored range listed
  obtain rfl := mem_unique isAt isAt'
  have once (q : Position) : ¬g.Writes n rest v q :=
    given.written_once stored split found result
  rcases open' with later | ⟨startLeQ, -, -, needed⟩
  · have := behind v q later
    lia
  · refine .inr ⟨by lia, by lia, fun w writes => absurd writes (once w), ?_⟩
    rcases needed with writes | needed | ⟨u, reads, below⟩
    · exact absurd writes (once q)
    · exact .inr (.inl needed)
    · refine .inr (.inr ⟨u, reads, ?_⟩)
      obtain ⟨j, later, y, foundY, plainY, -, atY⟩ := reads
      have notPhi : g.phiAt i = false := by
        by_contra phi
        simp only [Bool.not_eq_false] at phi
        simp only [phi, ↓reduceIte] at place
        lia
      have := numbered.number_lt member stored range split notPhi later
        ((phiAt_eq foundY).trans plainY) isAt atY
      lia

theorem Fits.after_addResults
    (fits : Fits g n (Opened g n covered r after rest) d) {f : Interval → Except Fault Interval}
    (starts : ∀ v ∈ x.results, ∀ (covered : Position → Prop) (id : IntervalId) (i j : Interval),
      (∀ q, covered q → q < pos → ∀ p, q ≤ p → p ≤ pos → covered p) →
      FirstInterval g n covered v id i → f i = .ok j →
      FirstInterval g n (fun q => q = pos ∨ (covered q ∧ pos ≤ q)) v id j)
    (run : x.results.foldlM (fun d v => d.modifyRoot v f) d = .ok d') :
    Fits g n (fun v => if v ∈ x.results
      then fun q => q = pos ∨ (Opened g n covered r after rest v q ∧ pos ≤ q)
      else Opened g n covered r after rest v) d' ∧ Grows d d' := by
  have once : x.results.Nodup :=
    (nodup_flatMap.mp given.valid.results).1 x
      (mem_toList_iff.mpr (Array.mem_of_getElem? found))
  refine fits.after_modifyRoots once (fun v result id i j first change => ?_) run
  refine starts v result _ id i j (fun q open' early p low high => ?_) first change
  exact open'.reaches_pos given numbered stored range split found isAt behind result early low high

omit numbered range in
theorem opened_cons (plain : x.isPhi = false) (low : r.start < pos) (high : pos < r.stop)
    (q : Position) : ((v ∈ x.inputs ∧ r.start ≤ q ∧ q < pos) ∨ (if v ∈ x.results
      then fun q => q = pos ∨ (Opened g n covered r after rest v q ∧ pos ≤ q)
      else Opened g n covered r after rest v) q) ↔ Opened g n covered r after (i :: rest) v q := by
  by_cases result : v ∈ x.results
  · have noInput : v ∉ x.inputs := fun input =>
      given.read_after stored split found plain input
        ((Graph.writes_cons found).mpr (.inl ⟨result, isAt⟩))
    simp only [result, ↓reduceIte, Opened, given.kept_result stored split found isAt result]
    have := behind v q
    grind
  · by_cases input : v ∈ x.inputs
    · simp only [result, ↓reduceIte, Opened, given.kept_input stored split found isAt plain input]
      grind
    · simp only [result, input, ↓reduceIte, Opened,
        Graph.kept_other found result (.inr input), false_and, false_or]

end

theorem Fits.after_addInputs (fits : Fits g n covered d) {start : Position}
    (found : g.instrs[i]? = some x) (plain : x.isPhi = false) (isAt : n.numberOf? i = some pos)
    (even : pos % 2 = 0) (inside : start < pos)
    (run : x.inputs.zipIdx.foldlM (addInput g target start x pos) d = .ok d') :
    Fits g n (fun v q => (v ∈ x.inputs ∧ start ≤ q ∧ q < pos) ∨ covered v q) d' ∧ Grows d d' := by
  have step : ∀ operand ∈ x.inputs.zipIdx, ∀ (covered : ValueId → Position → Prop) (d d' : Draft),
      Fits g n covered d → addInput g target start x pos d operand = .ok d' →
      Fits g n (fun w q => (w = operand.1 ∧ start ≤ q ∧ q < pos) ∨ covered w q) d' ∧
        Grows d d' := by
    intro operand member covered d d' fits run
    have input : operand.1 ∈ x.inputs := fst_mem_of_mem_zipIdx member
    simp only [addInput, bind_ok, inside, ↓reduceIte] at run
    obtain ⟨use, isUse, run⟩ := run
    have place : use.pos = pos := Instr.pos_inputUse isUse
    have change : ∀ id i j, FirstInterval g n (covered operand.1) operand.1 id i →
        (∃ k, i.addRange start pos = .ok k ∧ k.addUse use = j) →
        FirstInterval g n (fun q => (start ≤ q ∧ q < pos) ∨ covered operand.1 q) operand.1 id j := by
      rintro id i j first ⟨k, added, rfl⟩
      obtain ⟨same, sorted, covers⟩ := Interval.covers_addRange first.sorted added
      have longer := first.of_ranges same sorted fun q => by rw [covers, first.covers]
      refine longer.after_addUse (place ▸ even) fun needs => ?_
      have noCall : x.isCall = false := by
        by_contra call
        simp [Instr.inputUse_call (by simpa using call) isUse] at needs
      exact ⟨_, x, found, plain, noCall, place ▸ isAt, .inl input⟩
    obtain ⟨fits, grows⟩ := fits.after_modifyRoot run fun id i j first run =>
      change id i j first (by simpa only [bind_ok, pure_ok] using run)
    refine ⟨fits.congr fun w q => ?_, grows⟩
    by_cases here : w = operand.1 <;> simp [here]
  obtain ⟨fits, grows⟩ := fits.after_addAll (fun q => start ≤ q ∧ q < pos) step run
  exact ⟨fits.congr (by simp), grows⟩

theorem Fits.after_addInstr (given : g.Accepted tree n.order) (numbered : n.Numbered g)
    (stored : g.blocks[b]? = some B) (range : n.rangeOf? b = some r)
    (split : B.instrs = before ++ i :: rest) (behind : ∀ v q, covered v q → r.stop ≤ q)
    (fits : Fits g n (Opened g n covered r after rest) d)
    (run : addInstr g target n r.start i d = .ok d') :
    Fits g n (Opened g n covered r after (i :: rest)) d' ∧ Grows d d' ∧
      ∀ x pos, g.instrs[i]? = some x → x.isCall = true → n.numberOf? i = some pos →
        Blocks target d' pos := by
  have member := given.valid.complete b B stored
  have listed : i ∈ B.instrs := by simp [split]
  obtain ⟨pos, isAt, startLe, ltStop, even, place⟩ :=
    numbered.number_mem member stored range listed
  simp only [addInstr, bind_ok, instr_ok] at run
  obtain ⟨x, found, run⟩ := run
  rw [phiAt_eq found] at place
  cases phi : x.isPhi with
  | true =>
    simp only [phi, ↓reduceIte] at run place
    obtain ⟨fits, grows⟩ := fits.after_addResults given numbered stored range split found isAt behind
      (fun v _ covered id i j reaches first started => first.after_startAt reaches started)
      (place ▸ run)
    refine ⟨fits.congr fun v q => ?_, grows, ?_⟩
    · by_cases result : v ∈ x.results
      · simp only [result, ↓reduceIte, Opened,
          given.kept_result stored split found isAt result]
        have := behind v q
        grind
      · simp only [result, ↓reduceIte, Opened, Graph.kept_other found result (.inl phi)]
    · intro x' pos' found' call
      obtain rfl := mem_unique found found'
      have isPhi : x.opcode = .phi := by simpa [Instr.isPhi] using phi
      simp [Instr.isCall, isPhi, Opcode.isCall] at call
  | false =>
    simp only [phi, Bool.false_eq_true, ↓reduceIte, bind_ok, need_eq_ok, isAt, Option.some.injEq,
      exists_eq_left'] at run place
    obtain ⟨d₁, results, d₂, inputs, run⟩ := run
    have starts : ∀ v ∈ x.results, ∀ (covered : Position → Prop) (id : IntervalId)
        (i j : Interval), (∀ q, covered q → q < pos → ∀ p, q ≤ p → p ≤ pos → covered p) →
        FirstInterval g n covered v id i →
        (do return (← i.startAt pos).addUse (x.resultUse target pos)) = .ok j →
        FirstInterval g n (fun q => q = pos ∨ (covered q ∧ pos ≤ q)) v id j := by
      intro v result covered id j k reaches first started
      simp only [bind_ok, pure_ok] at started
      obtain ⟨mid, started, rfl⟩ := started
      exact (first.after_startAt reaches started).after_resultUse found phi isAt even result
    obtain ⟨fits, grows⟩ :=
      fits.after_addResults given numbered stored range split found isAt behind starts results
    obtain ⟨fits, grows'⟩ := fits.after_addInputs found phi isAt even place inputs
    replace fits := fits.congr fun v q =>
      opened_cons given stored split found isAt behind phi place ltStop q
    cases call : x.isCall with
    | false =>
      obtain rfl : d₂ = d' := by simpa [call] using run
      refine ⟨fits, grows.trans grows', fun x' _ found' call' => ?_⟩
      obtain rfl := mem_unique found found'
      simp [call] at call'
    | true =>
      cases isCC : target.convention with
      | none =>
        obtain rfl : d₂ = d' := by simpa [call, isCC] using run
        refine ⟨fits, grows.trans grows', fun _ _ _ _ _ cc c reg isCC' => ?_⟩
        simp [isCC] at isCC'
      | some cc =>
        simp only [call, isCC] at run
        obtain ⟨fits, grows'', blocks⟩ :=
          fits.after_blockClasses isCC ⟨i, x, found, call, isAt⟩ run
        refine ⟨fits, (grows.trans grows').trans grows'', fun _ pos' _ _ isAt' => ?_⟩
        obtain rfl := mem_unique isAt isAt'
        exact blocks

def BlocksCalls (g : Graph) (n : Numbering) (target : Target) (d : Draft) (instrs : List InstrId) :
    Prop :=
  ∀ i ∈ instrs, ∀ x pos, g.instrs[i]? = some x → x.isCall = true → n.numberOf? i = some pos →
    Blocks target d pos

variable (given : g.Accepted tree n.order) (numbered : n.Numbered g)
  (stored : g.blocks[b]? = some B) (range : n.rangeOf? b = some r)

include given numbered stored range

theorem Fits.after_addInstrs
    (behind : ∀ v q, covered v q → r.stop ≤ q) (fits : Fits g n (Opened g n covered r after []) d)
    {before instrs : List InstrId} (split : B.instrs = before ++ instrs)
    (run : instrs.foldrM (addInstr g target n r.start) d = .ok d') :
    Fits g n (Opened g n covered r after instrs) d' ∧ Grows d d' ∧
      BlocksCalls g n target d' instrs := by
  induction instrs generalizing before d' with
  | nil =>
    obtain rfl : d = d' := by simpa using run
    exact ⟨fits, .refl, by simp [BlocksCalls]⟩
  | cons i rest ih =>
    rw [foldrM_cons, bind_ok] at run
    obtain ⟨mid, others, run⟩ := run
    have split' : B.instrs = (before ++ [i]) ++ rest := by simp [split]
    obtain ⟨fits, grows, blocks⟩ := ih split' others
    obtain ⟨fits, grows', blocks'⟩ := fits.after_addInstr given numbered stored range split behind run
    refine ⟨fits, grows.trans grows', ?_⟩
    intro j member x pos found call isAt
    rcases mem_cons.mp member with rfl | member
    · exact blocks' x pos found call isAt
    · exact grows'.keeps_blocks (blocks j member x pos found call isAt)

theorem Fits.after_addBlock {sets : LiveSets}
    (behind : ∀ v q, covered v q → r.stop ≤ q) (fits : Fits g n covered d)
    (run : addBlock g target n sets b d = .ok d') :
    Fits g n (Opened g n covered r (sets.AtEnd b) B.instrs) d' ∧ Grows d d' ∧
      BlocksCalls g n target d' B.instrs := by
  simp only [addBlock, range, need_some, ok_bind, bind_ok, need_eq_ok,
    block_ok.mpr stored] at run
  obtain ⟨out, live, mid, outs, run⟩ := run
  have step : ∀ v ∈ out, ∀ (covered : ValueId → Position → Prop) (d d' : Draft),
      Fits g n covered d → d.modifyRoot v (·.addRange r.start r.stop) = .ok d' →
      Fits g n (fun w q => (w = v ∧ r.start ≤ q ∧ q < r.stop) ∨ covered w q) d' ∧ Grows d d' :=
    fun v _ covered d d' fits run => fits.after_addRange run
  obtain ⟨fits, grows⟩ := fits.after_addAll (fun q => r.start ≤ q ∧ q < r.stop) step outs
  have opened : Fits g n (Opened g n covered r (sets.AtEnd b) []) mid := by
    refine fits.congr fun v q => ?_
    simp only [Opened, Graph.Kept, Graph.Writes, Graph.Reads, LiveSets.AtEnd, live]
    simp
    tauto
  obtain ⟨fits, grows', blocks⟩ :=
    opened.after_addInstrs given numbered stored range behind (nil_append _).symm run
  exact ⟨fits, grows.trans grows', blocks⟩

end

end Draft

def Needed (g : Graph) (n : Numbering) (sets : LiveSets) (blocks : List BlockId) (v : ValueId)
    (q : Position) : Prop :=
  ∃ b ∈ blocks, ∃ B r, g.blocks[b]? = some B ∧ n.rangeOf? b = some r ∧ r.start ≤ q ∧ q < r.stop ∧
    g.Kept n (sets.AtEnd b v) B.instrs v q

namespace Draft

variable {g : Graph} {target : Target} {n : Numbering} {d d' : Draft} {tree : DominatorTree}

theorem Fits.after_addBlocks (given : g.Accepted tree n.order) (numbered : n.Numbered g)
    {sets : LiveSets} {before blocks : List BlockId} (split : n.order = before ++ blocks)
    (fits : Fits g n (fun _ _ => False) d)
    (run : blocks.foldrM (addBlock g target n sets) d = .ok d') :
    Fits g n (Needed g n sets blocks) d' ∧ Grows d d' ∧
      ∀ b ∈ blocks, ∀ B, g.blocks[b]? = some B → BlocksCalls g n target d' B.instrs := by
  induction blocks generalizing before d' with
  | nil =>
    obtain rfl : d = d' := by simpa using run
    exact ⟨fits.congr (by simp [Needed]), .refl, by simp⟩
  | cons b rest ih =>
    rw [foldrM_cons, bind_ok] at run
    obtain ⟨mid, others, run⟩ := run
    have split' : n.order = (before ++ [b]) ++ rest := by simp [split]
    obtain ⟨fits, grows, blocks⟩ := ih split' others
    have once := (reversePostOrder_ok numbered.ordered).once
    have member : b ∈ n.order := by simp [split]
    obtain ⟨B, stored⟩ := (reversePostOrder_ok numbered.ordered).stored b member
    obtain ⟨r, range, -⟩ := numbered.range b member
    have behind : ∀ v q, Needed g n sets rest v q → r.stop ≤ q := by
      rintro v q ⟨c, later, C, rc, -, rangeC, low, -⟩
      have memberC : c ∈ n.order := by simp [split, later]
      have rank : n.order.idxOf b < n.order.idxOf c := by
        rw [split] at once ⊢
        have apart := (nodup_append.mp once).2.2
        have freshB : b ∉ before := fun early => apart b early b mem_cons_self rfl
        have freshC : c ∉ before := fun early => apart c early c (mem_cons_of_mem b later) rfl
        have other : b ≠ c := by
          rintro rfl
          exact (nodup_cons.mp (nodup_append.mp once).2.1).1 later
        rw [idxOf_append_of_notMem freshB, idxOf_append_of_notMem freshC,
          idxOf_cons_self, idxOf_cons_ne _ other]
        omega
      have := numbered.apart b c r rc memberC rank range rangeC
      lia
    obtain ⟨fits, grows', blocks'⟩ := fits.after_addBlock given numbered stored range behind run
    refine ⟨fits.congr fun v q => ?_, grows.trans grows', ?_⟩
    · simp [Opened, Needed, stored, range, or_comm]
    · intro c member C storedC
      rcases mem_cons.mp member with rfl | member
      · obtain rfl := mem_unique stored storedC
        exact blocks'
      · intro i listed x pos found call isAt
        exact grows'.keeps_blocks (blocks c member C storedC i listed x pos found call isAt)

theorem Fits.after_addValue (fits : Fits g n (fun _ _ => False) d) {i : InstrId}
    {x : Instr} {v : ValueId}
    (size : d.roots.size = g.values.size) (found : g.instrs[i]? = some x) (result : v ∈ x.results)
    (fresh : ∀ id, d.roots[v]? ≠ some (some id)) (run : addValue g i d v = .ok d') :
    Fits g n (fun _ _ => False) d' ∧ d'.registers = d.registers ∧ d'.roots.size = d.roots.size ∧
      ∀ w : ValueId, d'.roots[w]? = if w = v then some (some d.pool.size) else d.roots[w]? := by
  simp only [addValue, bind_ok, pure_ok, IntervalPool.addValue] at run
  obtain ⟨ty, isTy, rfl⟩ := run
  have inside : v < d.roots.size := by
    simp only [typeOf, bind_ok, value_ok] at isTy
    obtain ⟨def', known, -⟩ := isTy
    exact size ▸ (found_lt known)
  have roots (w : ValueId) : (d.roots.setIfInBounds v (some d.pool.size))[w]? =
      if w = v then some (some d.pool.size) else d.roots[w]? := by
    by_cases here : w = v
    · simp [here, inside]
    · simp [here, getElem?_setIfInBounds_ne (Ne.symm here)]
  have old : ∀ (id : IntervalId) (j : Interval), d.pool.intervals[id]? = some j →
      (d.pool.intervals.push (.ofValue d.pool.size v ty i))[id]? = some j := by
    intro id j found
    obtain ⟨inside, rfl⟩ := Array.getElem?_eq_some_iff.mp found
    simp [getElem?_push, Nat.ne_of_lt inside]
  refine ⟨⟨?_, ?_, ?_⟩, rfl, by simp, roots⟩
  · intro w id known
    rw [roots] at known
    by_cases here : w = v
    · obtain rfl : d.pool.size = id := by simpa [here] using known
      subst here
      refine ⟨.ofValue d.pool.size w ty i, by simp [IntervalPool.size],
        ⟨ty, i, x, isTy, found, result, rfl⟩, .nil, ?_, ?_, ?_, ?_⟩
      · simp [Interval.covers, ofValue]
      · simp [ofValue, Use.Sorted]
      · simp [ofValue]
      · simp [ofValue]
    · obtain ⟨j, foundJ, first⟩ := fits.first w id (by simpa [here] using known)
      exact ⟨j, old id j foundJ, first⟩
  · intro l id known
    obtain ⟨j, foundJ, call⟩ := fits.call l id known
    exact ⟨j, old id j foundJ, call⟩
  · intro id below
    by_cases here : id < d.pool.size
    · rcases fits.each id here with ⟨w, known⟩ | register
      · refine .inl ⟨w, ?_⟩
        have apart : w ≠ v := fun same => fresh id (same ▸ known)
        simp [roots, apart, known]
      · exact .inr register
    · refine .inl ⟨v, ?_⟩
      have : id < d.pool.size + 1 := by simpa [IntervalPool.size] using below
      obtain rfl : id = d.pool.size := by lia
      simp [roots]

structure Blank (g : Graph) (n : Numbering) (known : ValueId → Prop) (d : Draft) : Prop where
  fits : Fits g n (fun _ _ => False) d
  registers : d.registers = []
  size : d.roots.size = g.values.size
  root : ∀ v, (∃ id, d.roots[v]? = some (some id)) ↔ known v

theorem Blank.after_addResults {i : InstrId} {x : Instr} (found : g.instrs[i]? = some x)
    {known : ValueId → Prop} {vs : List ValueId} (results : ∀ v ∈ vs, v ∈ x.results)
    (once : vs.Nodup) (fresh : ∀ v ∈ vs, ¬known v) (blank : Blank g n known d)
    (run : vs.foldlM (addValue g i) d = .ok d') :
    Blank g n (fun v => known v ∨ v ∈ vs) d' := by
  induction vs generalizing d known with
  | nil =>
    obtain rfl : d = d' := by simpa using run
    simpa using blank
  | cons v rest ih =>
    obtain ⟨freshV, once⟩ := nodup_cons.mp once
    obtain ⟨mid, head, run⟩ := foldlM_cons_ok.mp run
    obtain ⟨fits, registers, size, roots⟩ := blank.fits.after_addValue blank.size found
      (results v mem_cons_self)
      (fun id isRoot => fresh v mem_cons_self ((blank.root v).mp ⟨id, isRoot⟩)) head
    have next : Blank g n (fun w => known w ∨ w = v) mid := by
      refine ⟨fits, registers.trans blank.registers, size.trans blank.size, fun w => ?_⟩
      rw [roots, ← blank.root]
      by_cases here : w = v <;> simp [here]
    have last := ih (fun w member => results w (mem_cons_of_mem v member)) once (by
      rintro w member (before | rfl)
      · exact fresh w (mem_cons_of_mem v member) before
      · exact freshV member) next run
    simpa only [mem_cons, or_assoc] using last

theorem Blank.after_addInstrs (results : (g.instrs.toList.flatMap Instr.results).Nodup)
    {instrs : List InstrId} (once : instrs.Nodup) {known : ValueId → Prop}
    (fresh : ∀ i ∈ instrs, ∀ x, g.instrs[i]? = some x → ∀ v ∈ x.results, ¬known v)
    (blank : Blank g n known d)
    (run : instrs.foldlM (fun d i => do (← g.instr i).results.foldlM (addValue g i) d) d =
      .ok d') :
    Blank g n (fun v => known v ∨ ∃ i ∈ instrs, ∃ x, g.instrs[i]? = some x ∧ v ∈ x.results) d' := by
  induction instrs generalizing d known with
  | nil =>
    obtain rfl : d = d' := by simpa using run
    simpa using blank
  | cons i rest ih =>
    obtain ⟨freshI, once⟩ := nodup_cons.mp once
    simp only [foldlM_cons, bind_ok, instr_ok] at run
    obtain ⟨mid, ⟨x, found, head⟩, run⟩ := run
    have ownOnce : x.results.Nodup :=
      (nodup_flatMap.mp results).1 x (mem_toList_iff.mpr (Array.mem_of_getElem? found))
    have next := blank.after_addResults found (fun v member => member) ownOnce
      (fresh i mem_cons_self x found) head
    have last := ih once (by
      rintro j member y foundY v result (before | own)
      · exact fresh j (mem_cons_of_mem i member) y foundY v result before
      · obtain rfl := Graph.owner_of_nodup results foundY found result own
        exact freshI member) next run
    simpa [found, or_assoc] using last

theorem listed_once (consistent : g.Consistent) {order : List BlockId} {Bs : List Block}
    (once : order.Nodup) (blocks : order.mapM g.block = .ok Bs) :
    (Bs.flatMap Block.instrs).Nodup := by
  induction order generalizing Bs with
  | nil =>
    obtain rfl : [] = Bs := by simpa using blocks
    simp
  | cons b rest ih =>
    obtain ⟨fresh, once⟩ := nodup_cons.mp once
    simp only [mapM_cons, bind_ok, pure_ok, block_ok] at blocks
    obtain ⟨B, stored, Cs, others, rfl⟩ := blocks
    rw [flatMap_cons, nodup_append]
    refine ⟨consistent.block_nodup stored, ih once others, ?_⟩
    rintro i listed j listedJ rfl
    obtain ⟨C, member, listedC⟩ := mem_flatMap.mp listedJ
    obtain ⟨c, later, storedC⟩ := mapM_mem_result others member
    obtain ⟨x, found, home⟩ := consistent.instr_of_listed stored listed
    have homeC := (consistent.listed_iff (block_ok.mp storedC) found).mp listedC
    exact fresh (home.symm.trans homeC ▸ later)

theorem ofGraph_blank (given : g.Accepted tree n.order) (run : ofGraph g n.order = .ok d) :
    Blank g n (fun v => ∃ (i : InstrId) (x : Instr), g.instrs[i]? = some x ∧ v ∈ x.results) d := by
  simp only [ofGraph, bind_ok] at run
  obtain ⟨Bs, blocks, run⟩ := run
  have ordered := reversePostOrder_ok given.valid.ordered
  have isIn (i : InstrId) : i ∈ Bs.flatMap Block.instrs ↔ ∃ x, g.instrs[i]? = some x := by
    rw [List.mem_flatMap]
    constructor
    · rintro ⟨B, member, listed⟩
      obtain ⟨b, -, stored⟩ := mapM_mem_result blocks member
      obtain ⟨x, found, -⟩ := given.consistent.instr_of_listed (block_ok.mp stored) listed
      exact ⟨x, found⟩
    · rintro ⟨x, found⟩
      obtain ⟨B, stored, listed⟩ := given.consistent.listed_of_instr found
      obtain ⟨B', member, stored'⟩ := mapM_mem blocks (given.valid.complete _ B stored)
      obtain rfl := mem_unique stored (block_ok.mp stored')
      exact ⟨B, member, listed⟩
  have once := listed_once given.consistent ordered.once blocks
  have start : Blank g n (fun _ => False)
      ⟨.empty, Array.replicate g.values.size none, []⟩ := by
    refine ⟨⟨?_, by simp, ?_⟩, rfl, by simp, ?_⟩
    · intro v id known
      simp [Array.getElem?_replicate] at known
    · intro id below
      simp [IntervalPool.empty, IntervalPool.size] at below
    · intro v
      simp [Array.getElem?_replicate]
  have last := start.after_addInstrs given.valid.results once (by simp) run
  refine ⟨last.fits, last.registers, last.size, fun v => ?_⟩
  rw [last.root]
  simp only [false_or]
  constructor
  · rintro ⟨i, -, x, found, result⟩
    exact ⟨i, x, found, result⟩
  · rintro ⟨i, x, found, result⟩
    exact ⟨i, (isIn i).mpr ⟨x, found⟩, x, found, result⟩

end Draft

structure Analysed (g : Graph) (target : Target) (tree : DominatorTree) (sets : LiveSets)
    (l : Liveness) : Prop where
  numbered : l.numbering.Numbered g
  settled : sets.Settling g tree l.numbering.order []
  liveIn : l.liveIn = sets.liveIn
  rooted : ∀ (i : InstrId) (x : Instr), g.instrs[i]? = some x → ∀ v ∈ x.results,
    ∃ id, l.intervalOf? v = some id
  first : ∀ v id, l.intervalOf? v = some id → ∃ i, l.pool.intervals[id]? = some i ∧
    FirstInterval g l.numbering (Needed g l.numbering sets l.numbering.order v) v id i
  each : ∀ (id : IntervalId) (i : Interval), l.pool.intervals[id]? = some i →
    (∃ v, l.intervalOf? v = some id) ∨ ∃ place, CallInterval g l.numbering place id i
  physical : ∀ id ∈ l.physical, ∃ i place, l.pool.intervals[id]? = some i ∧
    CallInterval g l.numbering place id i
  calls : ∀ cc c reg q, target.convention = some cc → (cc.callerSaved c).contains reg = true →
    reg < target.numRegs c → g.CallAt l.numbering q → ∃ id ∈ l.physical, ∃ i,
      l.pool.intervals[id]? = some i ∧ i.covers q = true ∧
      CallInterval g l.numbering (.registerFor reg (Draft.fullType c)) id i

theorem ofGraph_analysed {g : Graph} {target : Target} {tree : DominatorTree}
    {order : List BlockId} {l : Liveness} (given : g.Accepted tree order)
    (run : ofGraph g target = .ok l) : ∃ sets, Analysed g target tree sets l := by
  simp only [ofGraph, bind_ok, pure_ok] at run
  obtain ⟨n, isN, sets, isSets, d₀, blank, d, drawn, rfl⟩ := run
  have numbered := Numbering.numbered_ofGraph given.consistent isN
  obtain rfl : order = n.order := Except.ok.inj (given.valid.ordered.symm.trans numbered.ordered)
  have start := Draft.ofGraph_blank given blank
  obtain ⟨fits, grows, blocks⟩ :=
    start.fits.after_addBlocks given numbered (nil_append _).symm drawn
  have isRoot (v : ValueId) (id : IntervalId) :
      d.roots[v]?.join = some id ↔ d.roots[v]? = some (some id) := Option.join_eq_some_iff
  refine ⟨sets, numbered, LiveSets.ofGraph_ok given isSets, rfl, ?_, ?_, ?_, ?_, ?_⟩
  · intro i x found v result
    obtain ⟨id, known⟩ := (start.root v).mpr ⟨i, x, found, result⟩
    exact ⟨id, (isRoot v id).mpr (grows.roots ▸ known)⟩
  · intro v id known
    exact fits.first v id ((isRoot v id).mp known)
  · intro id i found
    rcases fits.each id (found_lt found) with ⟨v, known⟩ | ⟨place, known⟩
    · exact .inl ⟨v, (isRoot v id).mpr known⟩
    · obtain ⟨i', found', call⟩ := fits.call place id known
      obtain rfl := mem_unique found found'
      exact .inr ⟨place, call⟩
  · intro id member
    simp only [Draft.physical, List.mem_flatMap, List.mem_filterMap] at member
    obtain ⟨c, -, reg, -, known⟩ := member
    obtain ⟨i, found, call⟩ := fits.call _ id known
    exact ⟨i, _, found, call⟩
  · rintro cc c reg q isCC saved inside ⟨i, x, found, call, isAt⟩
    obtain ⟨B, stored, listed⟩ := given.consistent.listed_of_instr found
    have member := given.valid.complete _ B stored
    obtain ⟨id, j, known, foundJ, covers⟩ :=
      blocks _ member B stored i listed x q found call isAt cc c reg isCC saved inside
    obtain ⟨j', foundJ', isCall⟩ := fits.call _ id known
    obtain rfl := mem_unique foundJ foundJ'
    refine ⟨id, ?_, j, foundJ, covers, isCall⟩
    simp only [Draft.physical, List.mem_flatMap, List.mem_filterMap, List.mem_range]
    exact ⟨c, by cases c <;> simp [RegisterClass.all], reg, inside, known⟩

end Liveness

end RegisterAllocation
