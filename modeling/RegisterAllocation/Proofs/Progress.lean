import RegisterAllocation.Proofs.Definedness

/-!
Accepted programs run without faults. The operands of an instruction are in number what its
operation asks for and name entries of the table of values, the phis of a block have an operand for
each predecessor, and an address that is not refused lies in memory. Together with what lies behind
control having words, a run on values can only finish, stop at an invalid address or at the limit of
steps, or go on for ever.
-/

namespace RegisterAllocation

open Machine DominatorTree

variable {g : Graph} {tree : DominatorTree} {order : List BlockId} {m m' : Machine} {x : Instr}
  {s : BlockId} {B : Block} {i : InstrId} {v : ValueId}

def Faultless {α : Type} (h : Attempt RunError α) : Prop := ∀ f : Fault, h ≠ .error (.fault f)

namespace Faultless

variable {α β : Type} {first : Attempt RunError α} {f : α → Attempt RunError β}

theorem of_ok (a : α) : Faultless (.ok a) := by simp [Faultless]

theorem of_refuse (e : RunError) : Faultless (RegisterAllocation.refuse e : Attempt RunError α) := by
  simp [Faultless, RegisterAllocation.refuse]

theorem of_lift {x : Except Fault α} {a : α} (found : x = .ok a) :
    Faultless (liftM x : Attempt RunError α) := by
  rw [found]
  exact .of_ok a

theorem bind (start : Faultless first) (rest : ∀ a, first = .ok a → Faultless (f a)) :
    Faultless (first >>= f) := by
  intro fault h
  rcases bind_error.mp h with h | ⟨a, found, h⟩
  · exact start fault h
  · exact rest a found fault h

theorem of_mapM {f : α → Attempt RunError β} (xs : List α) (each : ∀ x ∈ xs, Faultless (f x)) :
    Faultless (xs.mapM f) := by
  induction xs with
  | nil => exact .of_ok _
  | cons x rest ih =>
    rw [List.mapM_cons]
    refine (each x List.mem_cons_self).bind fun _ _ => ?_
    exact (ih fun y hy => each y (List.mem_cons_of_mem x hy)).bind fun _ _ => .of_ok _

end Faultless

namespace Machine

section

variable {input : Operands} {memory : Array Word}

structure Supplied (g : Graph) (x : Instr) (input : Operands) : Prop where
  count : ∀ n, x.opcode.numInputs? = some n → x.inputs.length = n
  known : ∀ v ∈ x.inputs, v < g.values.size
  inputs : ∀ k < x.inputs.length, Faultless (input k)

theorem addressOf_faultless (first : Faultless (input 0)) (second : Faultless (input 1)) :
    Faultless (addressOf input) := by
  refine first.bind fun base _ => second.bind fun index _ => ?_
  dsimp only
  split
  · exact .of_ok _
  · exact .of_refuse _

theorem addressOf_lt {addr : Nat} (h : addressOf input = .ok addr) : addr < memorySize := by
  simp only [addressOf, bind_ok] at h
  obtain ⟨base, -, index, -, h⟩ := h
  split at h
  · rename_i inside
    obtain ⟨-, below⟩ := inside
    rw [← pure_ok.mp h, Int64.toNatClampNeg]
    have : (0 : Int) < memorySize := by decide
    omega
  · exact absurd h refuse_ne_ok

theorem word_of_address (size : memory.size = memorySize) {addr : Nat} (inside : addr < memorySize) :
    ∃ w, need memory[addr]? = .ok w :=
  ⟨memory[addr], need_eq_ok.mpr (Array.getElem?_eq_getElem (size ▸ inside))⟩

theorem testOf_faultless (c : Condition) (supplied : Supplied g x input)
    (two : 2 ≤ x.inputs.length) : Faultless (testOf g x c input) := by
  have first := supplied.inputs 0 (by omega)
  have second := supplied.inputs 1 (by omega)
  refine first.bind fun _ _ => second.bind fun _ _ => ?_
  have head : x.inputs.head? = some x.inputs[0] := List.head?_eq_getElem? .. ▸
    List.getElem?_eq_getElem (by omega)
  have inside : x.inputs[0] < g.values.size := supplied.known _ (List.getElem_mem _)
  have typed : g.typeOf x.inputs[0] = .ok g.values[x.inputs[0]].ty := by
    rw [Graph.typeOf, Graph.value_ok.mpr (Array.getElem?_eq_getElem inside)]
    rfl
  refine (Faultless.of_lift (need_eq_ok.mpr head)).bind fun v isHead => ?_
  obtain rfl : x.inputs[0] = v := by simpa [head] using isHead
  refine (Faultless.of_lift typed).bind fun _ _ => ?_
  split <;> exact .of_ok _

theorem evaluate_faultless (supplied : Supplied g x input) (size : memory.size = memorySize) :
    Faultless (evaluate g x memory input) := by
  have counted (n : Nat) (has : x.opcode.numInputs? = some n) (k : Nat) (less : k < n) :
      Faultless (input k) := supplied.inputs k (supplied.count n has ▸ less)
  unfold evaluate
  cases hop : x.opcode with
  | add | sub | mul | and =>
    have two : x.opcode.numInputs? = some 2 := by rw [hop]; rfl
    exact (counted 2 two 0 (by decide)).bind fun _ _ => (counted 2 two 1 (by decide)).bind
      fun _ _ => .of_ok _
  | compare c =>
    have two : x.inputs.length = 2 := supplied.count 2 (by rw [hop]; rfl)
    exact (testOf_faultless c supplied two.ge).bind fun _ _ => .of_ok _
  | select c =>
    have four : x.opcode.numInputs? = some 4 := by rw [hop]; rfl
    have length := supplied.count 4 four
    refine (testOf_faultless c supplied (by omega)).bind fun taken _ => ?_
    cases taken
    · exact (counted 4 four 3 (by decide)).bind fun _ _ => .of_ok _
    · exact (counted 4 four 2 (by decide)).bind fun _ _ => .of_ok _
  | load =>
    have two : x.opcode.numInputs? = some 2 := by rw [hop]; rfl
    refine (addressOf_faultless (counted 2 two 0 (by decide)) (counted 2 two 1 (by decide))).bind
      fun addr isAddr => ?_
    obtain ⟨w, word⟩ := word_of_address size (addressOf_lt isAddr)
    exact (Faultless.of_lift word).bind fun _ _ => .of_ok _
  | loadPair =>
    have two : x.opcode.numInputs? = some 2 := by rw [hop]; rfl
    refine (addressOf_faultless (counted 2 two 0 (by decide)) (counted 2 two 1 (by decide))).bind
      fun addr isAddr => ?_
    obtain ⟨w, word⟩ := word_of_address size (addressOf_lt isAddr)
    split
    · exact (Faultless.of_refuse _).bind fun _ refused => absurd refused refuse_ne_ok
    · rename_i second
      obtain ⟨w', word'⟩ := word_of_address size (Nat.lt_of_not_le second)
      exact (Faultless.of_lift word).bind fun _ _ => (Faultless.of_lift word').bind fun _ _ =>
        .of_ok _
  | store =>
    have three : x.opcode.numInputs? = some 3 := by rw [hop]; rfl
    refine (addressOf_faultless (counted 3 three 0 (by decide)) (counted 3 three 1 (by decide))).bind
      fun addr _ => ?_
    exact (counted 3 three 2 (by decide)).bind fun _ _ => .of_ok _
  | call callee =>
    refine (Faultless.of_mapM _ fun k hk => ?_).bind fun _ _ => .of_ok _
    exact supplied.inputs k (List.mem_range.mp hk)
  | _ => exact .of_ok _

theorem evaluate_memory {r : List Word × Array Word} (h : evaluate g x memory input = .ok r) :
    r.2.size = memory.size := by
  unfold evaluate at h
  cases hop : x.opcode with
  | store =>
    simp only [hop, bind_ok, pure_ok] at h
    obtain ⟨addr, -, w, -, rfl⟩ := h
    simp
  | loadPair =>
    simp only [hop, bind_ok] at h
    obtain ⟨addr, -, h⟩ := h
    split at h
    · simp [bind_ok] at h
    · simp only [bind_ok, pure_ok] at h
      obtain ⟨_, -, _, -, rfl⟩ := h
      rfl
  | select c =>
    simp only [hop, bind_ok] at h
    obtain ⟨taken, -, h⟩ := h
    cases taken <;> simp only [bind_ok, pure_ok, Bool.false_eq_true, ↓reduceIte] at h <;>
      obtain ⟨_, -, rfl⟩ := h <;> rfl
  | add | sub | mul | and | load =>
    simp only [hop, bind_ok, pure_ok] at h
    obtain ⟨_, -, _, -, rfl⟩ := h
    rfl
  | compare | call =>
    simp only [hop, bind_ok, pure_ok] at h
    obtain ⟨_, -, rfl⟩ := h
    rfl
  | _ =>
    simp only [hop, pure_ok] at h
    rw [← h]

end

theorem setValue_faultless {w : Word} (inside : v < m.values.size) :
    Faultless (liftM (m.setValue v w) : Attempt RunError Machine) :=
  .of_lift (setValue_ok.mpr ⟨inside, rfl⟩)

theorem setValues_faultless {pairs : List (ValueId × Word)}
    (inside : ∀ p ∈ pairs, p.1 < m.values.size) :
    Faultless (pairs.foldlM
      (fun m p => (liftM (m.setValue p.1 p.2) : Attempt RunError Machine)) m) := by
  induction pairs generalizing m with
  | nil => exact .of_ok _
  | cons p rest ih =>
    rw [List.foldlM_cons]
    refine (setValue_faultless (inside p List.mem_cons_self)).bind fun n set => ih fun q hq => ?_
    obtain ⟨-, rfl⟩ := setValue_ok.mp (lift_ok.mp set)
    simpa using inside q (List.mem_cons_of_mem p hq)

theorem putResults_faultless {words : List Word} {n : Nat} (onValues : m.stage = .values)
    (length : n + words.length ≤ x.results.length) (inside : ∀ v ∈ x.results, v < m.values.size) :
    Faultless (putResults x n words m) := by
  induction words generalizing m n with
  | nil => exact .of_ok _
  | cons w rest ih =>
    simp only [List.length_cons] at length
    have result := List.getElem?_eq_getElem (show n < x.results.length by omega)
    rw [putResults, setResult, onValues]
    refine Faultless.bind ?_ fun k set => ?_
    · refine (Faultless.of_lift (need_eq_ok.mpr result)).bind fun v isResult => ?_
      rw [lift_ok, need_eq_ok] at isResult
      exact setValue_faultless (inside v (List.mem_of_getElem? isResult))
    · simp only [bind_ok, lift_ok] at set
      obtain ⟨v, -, set⟩ := set
      obtain ⟨-, rfl⟩ := setValue_ok.mp set
      exact ih onValues (by omega) (by simpa using inside)

theorem compute_table (onValues : m.stage = .values) (plain : x.isSpillFill = false)
    (h : m.compute g x = .ok m') :
    ∃ table memory, m' = { m with values := table, memory := memory } := by
  have put {words : List Word} {n : Nat} {k : Machine} (h : putResults x n words k = .ok m')
      (stage : k.stage = .values) : ∃ table, m' = { k with values := table } := by
    induction words generalizing k n with
    | nil =>
      obtain rfl : k = m' := Except.ok.inj h
      exact ⟨_, rfl⟩
    | cons w rest ih =>
      rw [putResults, bind_ok] at h
      obtain ⟨next, first, later⟩ := h
      simp only [setResult, stage, bind_ok, lift_ok] at first
      obtain ⟨v, -, first⟩ := first
      obtain ⟨-, rfl⟩ := setValue_ok.mp first
      obtain ⟨table, rfl⟩ := ih later stage
      exact ⟨table, rfl⟩
  rw [compute_eq plain, bind_ok] at h
  obtain ⟨r, -, h⟩ := h
  have noCall : m.afterCall g x = .ok m := by simp [afterCall, onValues]
  rw [noCall, ok_bind] at h
  obtain ⟨table, rfl⟩ := put h onValues
  exact ⟨table, r.2, rfl⟩

theorem input_faultless (onValues : m.stage = .values) {k : Nat} (operand : x.inputs[k]? = some v)
    (inside : v < m.values.size) : Faultless (m.input g x k) := by
  simp only [input, onValues, operand, need_some, lift_of_ok, ok_bind,
    Array.getElem?_eq_getElem inside]
  split
  · exact .of_ok _
  · exact .of_refuse _

theorem phiValues_faultless {k : Nat} {instrs : List InstrId} (onValues : m.stage = .values)
    (there : ∀ i ∈ instrs, ∃ x, g.instrs[i]? = some x ∧ (x.isPhi = true →
      (∃ u, x.results.head? = some u) ∧ ∃ v, x.inputs[k]? = some v ∧ v < m.values.size)) :
    Faultless (m.phiValues g k instrs) := by
  induction instrs with
  | nil => exact .of_ok _
  | cons i rest ih =>
    obtain ⟨x, found, phi⟩ := there i List.mem_cons_self
    rw [phiValues, Graph.instr_ok.mpr found, lift_of_ok, ok_bind]
    split
    · rename_i isPhi
      obtain ⟨⟨u, result⟩, v, operand, inside⟩ := phi isPhi
      refine (Faultless.of_lift (need_eq_ok.mpr result)).bind fun _ _ => ?_
      refine (input_faultless onValues operand inside).bind fun _ _ => ?_
      exact (ih fun j hj => there j (List.mem_cons_of_mem i hj)).bind fun _ _ => .of_ok _
    · exact .of_ok _

end Machine

namespace Graph

theorem mem_parameters_of_at {params : List ValueId} (h : g.parameters = .ok params) {pc : Nat}
    (here : g.At g.entry pc x) (parameter : x.opcode = .parameter) (result : v ∈ x.results) :
    v ∈ params := by
  obtain ⟨E, instrs, stored, listed, rfl⟩ := parameters_ok h
  obtain ⟨E', i, stored', atPc, found⟩ := here
  obtain rfl := Option.mem_unique stored stored'
  obtain ⟨y, member, isY⟩ := mapM_mem listed (List.mem_of_getElem? atPc)
  obtain rfl := Option.mem_unique found (instr_ok.mp isY)
  exact List.mem_flatMap.mpr ⟨x, List.mem_filter.mpr ⟨member, by simp [parameter]⟩, result⟩

theorem parameters_exist {E : Block} (stored : g.blocks[g.entry]? = some E)
    (found : ∀ i ∈ E.instrs, ∃ x, g.instrs[i]? = some x) :
    ∃ params, g.parameters = .ok params := by
  obtain ⟨instrs, listed⟩ : ∃ instrs, E.instrs.mapM g.instr = .ok instrs := by
    generalize E.instrs = ids at found
    induction ids with
    | nil => exact ⟨[], rfl⟩
    | cons i rest ih =>
      obtain ⟨x, isX⟩ := found i List.mem_cons_self
      obtain ⟨more, isMore⟩ := ih fun j hj => found j (List.mem_cons_of_mem i hj)
      exact ⟨x :: more, by simp [List.mapM_cons, instr_ok.mpr isX, isMore]⟩
  exact ⟨_, by simp only [parameters, block_ok.mpr stored, ok_bind, listed]; rfl⟩

def ResultsListed (g : Graph) : Prop :=
  ∀ (i : InstrId) (x : Instr), g.instrs[i]? = some x → ∀ v ∈ x.results, v < g.values.size

theorem resultsListed_of_mem (all : ∀ x ∈ g.instrs, ∀ v ∈ x.results, v < g.values.size) :
    g.ResultsListed :=
  fun _ x found => all x (Array.mem_of_getElem? found)

structure Equipped (g : Graph) (m : Machine) : Prop where
  values : m.values.size = g.values.size
  memory : m.memory.size = memorySize

theorem start_onTrack {args : List Word} (starts : Machine.start g args .values = .ok m) :
    g.OnTrack m := by
  obtain ⟨params, parameters, -⟩ := bind_ok.mp starts
  rw [lift_ok] at parameters
  rcases start_cases parameters args .values with ⟨-, refused⟩ | ⟨-, same⟩
  · exact absurd (refused.symm.trans starts) refuse_ne_ok
  obtain ⟨-, rfl⟩ := setValues_ok (same.symm.trans starts)
  obtain ⟨E, _, storedE, -⟩ := parameters_ok parameters
  exact ⟨rfl, ⟨E, storedE, Nat.zero_le _⟩, fun _ _ h => by simp [blank] at h⟩

theorem start_track (results : g.ResultsListed) {params : List ValueId}
    (parameters : g.parameters = .ok params) {args : List Word}
    (count : args.length = params.length) :
    ∃ m, Machine.start g args .values = .ok m ∧ g.OnTrack m ∧ g.Equipped m := by
  have known : ∀ v ∈ params, v < (blank g .values 0).values.size := by
    intro v hv
    obtain ⟨pc, x, ⟨B, i, stored, listed, found⟩, -, result⟩ := mem_parameters parameters hv
    simpa [blank] using results i x found v result
  have inside : ∀ p ∈ params.zip args, p.1 < (blank g .values 0).values.size :=
    fun p hp => known p.1 (List.of_mem_zip hp).1
  have same : Machine.start g args .values = (params.zip args).foldlM
      (fun m p => (liftM (m.setValue p.1 p.2) : Attempt RunError Machine)) (blank g .values 0) := by
    rcases start_cases parameters args .values with ⟨different, -⟩ | ⟨-, same⟩
    · exact absurd count.symm different
    · exact same
  cases starts : Machine.start g args .values with
  | error halt =>
    rw [same] at starts
    cases halt with
    | fault f => exact absurd starts (setValues_faultless inside f)
    | error e => exact absurd starts setValues_no_verdict
  | ok m =>
    have track := start_onTrack starts
    obtain ⟨-, rfl⟩ := setValues_ok (same.symm.trans starts)
    exact ⟨_, rfl, track, by simp [Bank.size_assign, blank], by simp [blank]⟩

namespace Accepted

variable (given : g.Accepted tree order)

include given

theorem parameters_exist : ∃ params, g.parameters = .ok params := by
  obtain ⟨E, storedE⟩ := (reversePostOrder_ok given.valid.ordered).stored g.entry
    (reversePostOrder_ok given.valid.ordered).entry
  exact Graph.parameters_exist storedE
    fun i hi => (given.consistent.instr_of_listed storedE hi).imp fun _ => And.left

theorem enter_equipped (listed : g.ResultsListed)
    (onValues : m.stage = .values) (equipped : g.Equipped m) (stored : g.blocks[m.block]? = some B)
    (succ : s ∈ B.succs) :
    Faultless (m.enter g s) ∧ ∀ m', m.enter g s = .ok m' → g.Equipped m' := by
  obtain ⟨S, storedS, pred⟩ := given.consistent.pred_of_succ stored succ
  have heads : ∀ {i x}, i ∈ S.instrs → g.instrs[i]? = some x → x.isPhi = true →
      ∃ u, x.results.head? = some u ∧ u < g.values.size := by
    intro i x hi found isPhi
    obtain ⟨pos, atPos⟩ := List.mem_iff_getElem?.mp hi
    have valid := given.checked_at storedS atPos found
    have one : x.results.length = 1 := by
      rw [valid.results, show x.opcode = .phi by simpa [Instr.isPhi] using isPhi]
      rfl
    obtain ⟨u, isU⟩ := List.length_eq_one_iff.mp one
    exact ⟨u, by rw [isU]; rfl, listed i x found u (by simp [isU])⟩
  have phis : ∀ i ∈ S.instrs, ∃ x, g.instrs[i]? = some x ∧ (x.isPhi = true →
      (∃ u, x.results.head? = some u) ∧
        ∃ v, x.inputs[S.preds.idxOf m.block]? = some v ∧ v < m.values.size) := by
    intro i hi
    obtain ⟨pos, atPos⟩ := List.mem_iff_getElem?.mp hi
    obtain ⟨x, found, valid⟩ := (given.valid.blocks s S storedS).instrs pos i atPos
    refine ⟨x, found, fun isPhi => ⟨?_, ?_⟩⟩
    · obtain ⟨u, isHead, -⟩ := heads hi found isPhi
      exact ⟨u, isHead⟩
    · have count : x.inputs.length = S.preds.length := by
        refine valid.inputs _ ?_
        simp [expectedInputs?, show x.opcode = .phi by simpa [Instr.isPhi] using isPhi]
      have less : S.preds.idxOf m.block < x.inputs.length :=
        count ▸ List.idxOf_lt_length_of_mem pred
      have operand := List.getElem?_eq_getElem less
      exact ⟨_, operand, equipped.values ▸ (valid.operands _ _ operand).1⟩
  rw [enter_eq onValues storedS pred]
  have inside : ∀ updates, m.phiValues g (S.preds.idxOf m.block) S.instrs = .ok updates →
      ∀ p ∈ updates, p.1 < m.values.size := by
    intro updates taken p hp
    obtain ⟨i, hi, x, found, isPhi, isHead, -⟩ := phiValues_mem taken hp
    obtain ⟨u, isHead', less⟩ := heads hi found isPhi
    obtain rfl := Option.mem_unique isHead isHead'
    exact equipped.values ▸ less
  constructor
  · exact (phiValues_faultless onValues phis).bind fun updates taken =>
      setValues_faultless (inside updates taken)
  · intro m' h
    obtain ⟨updates, -, h⟩ := bind_ok.mp h
    obtain ⟨-, rfl⟩ := setValues_ok h
    exact ⟨by simpa [Bank.size_assign] using equipped.values, equipped.memory⟩

theorem input_supplied (onValues : m.stage = .values)
    (equipped : g.Equipped m) (stored : g.blocks[m.block]? = some B)
    (listed : B.instrs[m.pc]? = some i) (found : g.instrs[i]? = some x)
    (notPhi : x.isPhi = false) : Supplied g x ((m.count x).input g x) := by
  have valid := given.checked_at stored listed found
  have known : ∀ v ∈ x.inputs, v < g.values.size := by
    intro v hv
    obtain ⟨k, operand⟩ := List.mem_iff_getElem?.mp hv
    exact (valid.operands k v operand).1
  refine ⟨fun n count => valid.inputs n ?_, known, fun k less => ?_⟩
  · have : x.opcode ≠ .phi := by simpa [Instr.isPhi] using notPhi
    simpa [expectedInputs?, this] using count
  · refine input_faultless (m := m.count x) onValues (List.getElem?_eq_getElem less) ?_
    exact equipped.values ▸ known _ (List.getElem_mem less)

section

variable (results : g.ResultsListed) (onValues : m.stage = .values) (equipped : g.Equipped m)
  (stored : g.blocks[m.block]? = some B) (listed : B.instrs[m.pc]? = some i)
  (found : g.instrs[i]? = some x)

include results onValues equipped stored listed found

theorem compute_equipped :
    Faultless ((m.count x).compute g x) ∧
      ∀ m', (m.count x).compute g x = .ok m' → g.Equipped m' := by
  have valid := given.checked_at stored listed found
  have counted : g.Equipped (m.count x) := ⟨equipped.values, equipped.memory⟩
  by_cases passed : x.isPhi = true ∨ x.opcode = .parameter
  · have same : (m.count x).compute g x = .ok (m.count x) := by
      rcases passed with phi | parameter
      · simp only [Instr.isPhi, beq_iff_eq] at phi
        simp [compute, phi]
      · simp [compute, parameter]
    rw [same]
    exact ⟨.of_ok _, fun m' h => Except.ok.inj h ▸ counted⟩
  · simp only [not_or, Bool.not_eq_true] at passed
    obtain ⟨notPhi, computed⟩ := passed
    have onValues' : (m.count x).stage = .values := onValues
    have inTable : ∀ v ∈ x.results, v < (m.count x).values.size :=
      fun v hv => counted.values ▸ results i x found v hv
    have supplied := given.input_supplied onValues equipped stored listed found notPhi
    constructor
    · rw [compute_eq valid.plain]
      refine (evaluate_faultless supplied counted.memory).bind fun r evaluated => ?_
      have length := evaluate_length evaluated valid.results computed notPhi
      have kept : (m.count x).afterCall g x = .ok (m.count x) := by simp [afterCall, onValues']
      rw [kept, ok_bind]
      exact putResults_faultless onValues' (by omega) inTable
    · intro m' h
      obtain ⟨r, evaluated, -, -, rfl⟩ :=
        compute_values onValues' valid.plain valid.results computed notPhi h
      exact ⟨by simpa [Bank.size_assign] using counted.values,
        (evaluate_memory evaluated).trans counted.memory⟩

theorem execute_equipped :
    Faultless ((m.count x).execute g B x) ∧
      ∀ m', (m.count x).execute g B x = .ok (.running m') → g.Equipped m' := by
  have counted : g.Equipped (m.count x) := ⟨equipped.values, equipped.memory⟩
  cases hop : x.opcode with
  | branch c =>
    have notPhi : x.isPhi = false := by simp [Instr.isPhi, hop]
    have supplied := given.input_supplied onValues equipped stored listed found notPhi
    have two : x.inputs.length = 2 := supplied.count 2 (by rw [hop]; rfl)
    obtain ⟨yes, no, succs⟩ := given.two_succs stored listed found hop
    have entered (taken : Bool) := given.enter_equipped results (m := m.count x)
      (s := if taken then yes else no) onValues counted stored (by cases taken <;> simp [succs])
    simp only [execute, hop, succs]
    constructor
    · refine (testOf_faultless c supplied two.ge).bind fun taken _ => ?_
      exact (entered taken).1.bind fun _ _ => .of_ok _
    · intro m' h
      obtain ⟨taken, -, h⟩ := bind_ok.mp h
      obtain ⟨n, arrived, h⟩ := bind_ok.mp h
      obtain rfl := Next.running.inj (pure_ok.mp h)
      exact (entered taken).2 n arrived
  | ret =>
    have notPhi : x.isPhi = false := by simp [Instr.isPhi, hop]
    have supplied := given.input_supplied onValues equipped stored listed found notPhi
    have one : x.inputs.length = 1 := supplied.count 1 (by rw [hop]; rfl)
    simp only [execute, hop]
    refine ⟨(supplied.inputs 0 (by omega)).bind fun _ _ => .of_ok _, fun m' h => ?_⟩
    obtain ⟨w, -, h⟩ := bind_ok.mp h
    simp [pure, Except.pure] at h
  | retVoid =>
    simp only [execute, hop]
    exact ⟨.of_ok _, fun m' h => by simp at h⟩
  | _ =>
    have plain : x.opcode.isTerminator = false := by rw [hop]; rfl
    obtain ⟨faultless, computed⟩ :=
      given.compute_equipped results onValues equipped stored listed found
    rw [execute_plain plain]
    refine ⟨faultless.bind fun _ _ => .of_ok _, fun m' h => ?_⟩
    obtain ⟨n, isN, h⟩ := bind_ok.mp h
    obtain rfl := Next.running.inj (Except.ok.inj h)
    exact computed n isN

end

theorem step_equipped (results : g.ResultsListed) (track : g.OnTrack m) (equipped : g.Equipped m) :
    Faultless (m.step g) ∧ ∀ m', m.step g = .ok (.running m') → g.Equipped m' := by
  obtain ⟨B, stored, -⟩ := track.within
  cases listed : B.instrs[m.pc]? with
  | none =>
    obtain ⟨s, one⟩ := given.one_succ track stored listed
    have fell : m.fallThrough g B = m.enter g s := by simp [fallThrough, one]
    obtain ⟨faultless, entered⟩ := given.enter_equipped results track.onValues equipped stored
      (by rw [one]; exact List.mem_cons_self : s ∈ B.succs)
    rw [step_end stored listed, fell]
    refine ⟨faultless.bind fun _ _ => .of_ok _, fun m' h => ?_⟩
    obtain ⟨n, arrived, h⟩ := bind_ok.mp h
    obtain rfl := Next.running.inj (Except.ok.inj h)
    exact entered n arrived
  | some i =>
    obtain ⟨x, found, -⟩ := (given.valid.blocks _ B stored).instrs _ i listed
    rw [step_instr stored listed found]
    split
    · exact ⟨.of_refuse _, fun _ h => absurd h refuse_ne_ok⟩
    · exact given.execute_equipped results track.onValues equipped stored listed found

theorem enter_track (onValues : m.stage = .values)
    (stored : g.blocks[m.block]? = some B) (succ : s ∈ B.succs) (entered : m.enter g s = .ok m') :
    g.OnTrack m' ∧ ∃ S table, g.blocks[s]? = some S ∧
      m' = { m with block := s, pc := 0, values := table } ∧ (S.instrs = [] → table = m.values) := by
  obtain ⟨S, storedS, pred⟩ := given.consistent.pred_of_succ stored succ
  rw [enter_eq onValues storedS pred, bind_ok] at entered
  obtain ⟨updates, taken, set⟩ := entered
  obtain ⟨-, rfl⟩ := setValues_ok set
  refine ⟨⟨onValues, ⟨S, storedS, Nat.zero_le _⟩, fun _ _ h => by simp at h⟩, S, _, storedS, rfl, ?_⟩
  intro none
  obtain rfl : [] = updates := by simpa [none, phiValues] using taken
  rfl

/-- A step keeps a run on track. It is counted, or leads from the end of a block to the next one,
where nothing but phis changes the values. -/
theorem step_track (track : g.OnTrack m) (stepped : m.step g = .ok (.running m')) : g.OnTrack m' ∧
      ((m'.counted = m.counted + 1 ∧ m'.counted ≤ maxSteps) ∨
        ∃ B s S table, g.blocks[m.block]? = some B ∧ B.instrs[m.pc]? = none ∧ B.succs = [s] ∧
          g.blocks[s]? = some S ∧ m' = { m with block := s, pc := 0, values := table } ∧
          (S.instrs = [] → table = m.values)) := by
  obtain ⟨B, stored, ended | ⟨i, x, listed, found, within, executed⟩⟩ := step_ok stepped
  · obtain ⟨atEnd, n, fell, same⟩ := ended
    obtain rfl := Next.running.inj same
    obtain ⟨s, one⟩ := given.one_succ track stored atEnd
    rw [fallThrough, one] at fell
    obtain ⟨track', S, table, storedS, isM, empty⟩ :=
      given.enter_track track.onValues stored (by simp [one]) fell
    exact ⟨track', .inr ⟨B, s, S, table, stored, atEnd, one, storedS, isM, empty⟩⟩
  have valid := given.checked_at stored listed found
  have plus : (m.count x).counted = m.counted + 1 := by simp [count, valid.plain]
  have onValues : (m.count x).stage = .values := track.onValues
  rcases execute_ok executed with ⟨plain, n, computed, same⟩ |
    ⟨c, taken, yes, no, n, -, -, succs, entered, same⟩ | ⟨-, _, -, same⟩ | ⟨-, same⟩
  · obtain rfl := Next.running.inj same
    obtain ⟨table, memory, rfl⟩ := compute_table onValues valid.plain computed
    refine ⟨⟨onValues, ⟨B, stored, (listed_lt listed)⟩, ?_⟩,
      .inl ⟨plus, within⟩⟩
    intro pc y behind here
    obtain rfl : pc = m.pc := Nat.succ.inj behind
    rw [here.instr_unique ⟨B, i, stored, listed, found⟩]
    exact plain
  · obtain rfl := Next.running.inj same
    have succ : (if taken then yes else no) ∈ B.succs := by cases taken <;> simp [succs]
    obtain ⟨track', S, table, -, rfl, -⟩ := given.enter_track onValues stored succ entered
    exact ⟨track', .inl ⟨plus, within⟩⟩
  · simp at same
  · simp at same

theorem ends_faultless (results : g.ResultsListed) {bound : Nat}
    (track : g.OnTrack m) (equipped : g.Equipped m) {outcome : Attempt RunError RunResult}
    (ends : m.runWithin g bound = some outcome) :
    (∃ r, outcome = .ok r) ∨ ∃ e : RunError, outcome = .error (.error e) := by
  induction bound generalizing m with
  | zero => simp [runWithin] at ends
  | succ bound ih =>
    obtain ⟨faultless, equips⟩ := given.step_equipped results track equipped
    rw [runWithin] at ends
    split at ends
    · rename_i m' stepped
      exact ih (given.step_track track stepped).1 (equips m' stepped) ends
    · exact .inl ⟨_, (Option.some.inj ends).symm⟩
    · rename_i halt stepped
      cases halt with
      | fault f => exact absurd stepped (faultless f)
      | error e => exact .inr ⟨e, (Option.some.inj ends).symm⟩

theorem underway_of_start
    (noPhi : ∀ pc x, g.At g.entry pc x → x.isPhi = false) {params : List ValueId}
    (parameters : g.parameters = .ok params) {args : List Word}
    (starts : Machine.start g args .values = .ok m) : g.Underway tree m := by
  have track := start_onTrack starts
  rcases start_cases parameters args .values with ⟨-, refused⟩ | ⟨count, same⟩
  · exact absurd (refused.symm.trans starts) refuse_ne_ok
  obtain ⟨inside, rfl⟩ := setValues_ok (same.symm.trans starts)
  refine ⟨track, ⟨g.entry, given.is_settled.root⟩, ?_⟩
  intro i x found (behind : g.Behind tree g.entry 0 i x) v result
  rcases behind with ⟨other, above⟩ | ⟨home, phi | parameter | ⟨_, _, _, _, less⟩⟩
  · -- the entry is its own parent, and nothing is above it
    exact absurd (above_root given.is_settled.root above rfl) other
  · obtain ⟨B, pos, stored, listed, -⟩ := given.instr_valid found
    have := noPhi pos x ⟨B, i, home ▸ stored, listed, found⟩
    simp [this] at phi
  · obtain ⟨B, pos, stored, listed, -⟩ := given.instr_valid found
    have member : v ∈ params :=
      mem_parameters_of_at parameters ⟨B, i, home ▸ stored, listed, found⟩ parameter result
    obtain ⟨k, atK⟩ := List.mem_iff_getElem?.mp member
    have bound := listed_lt atK
    refine has_assigned inside (w := args.get ⟨k, by omega⟩) ?_
    refine List.mem_of_getElem? (List.getElem?_zip_eq_some.mpr ⟨atK, ?_⟩)
    exact List.getElem?_eq_getElem (by omega)
  · simp at less

theorem runWithin_verdict {bound : Nat} (underway : g.Underway tree m) {e : RunError}
    (ends : m.runWithin g bound = some (.error (.error e))) : e.isVerdict = true := by
  induction bound generalizing m with
  | zero => simp [runWithin] at ends
  | succ bound ih =>
    obtain ⟨verdicts, goesOn⟩ := given.step_verdictOnly underway
    rw [runWithin] at ends
    split at ends
    · rename_i m' stepped
      exact ih (goesOn m' stepped) ends
    · simp at ends
    · rename_i halt stepped
      obtain rfl : halt = .error e := Except.error.inj (Option.some.inj ends)
      exact verdicts e stepped

theorem run_ends (results : g.ResultsListed) {bound : Nat}
    (underway : g.Underway tree m) (equipped : g.Equipped m) {outcome : Attempt RunError RunResult}
    (ends : m.runWithin g bound = some outcome) :
    (∃ r, outcome = .ok r) ∨ ∃ e : RunError, outcome = .error (.error e) ∧ e.isVerdict = true := by
  refine (given.ends_faultless results underway.toOnTrack equipped ends).imp_right ?_
  rintro ⟨e, rfl⟩
  exact ⟨e, rfl, given.runWithin_verdict underway ends⟩

/-- A run on values that stops with an error stops with a verdict, or has been given the wrong
number of arguments. -/
theorem run_error (noPhi : ∀ pc x, g.At g.entry pc x → x.isPhi = false) {params : List ValueId}
    (parameters : g.parameters = .ok params) {args : List Word} {e : RunError}
    (stops : g.run args .values = .error (.error e)) :
    e.isVerdict = true ∨
      params.length ≠ args.length ∧ e = .argumentCount args.length params.length := by
  rcases bind_error.mp stops with starts | ⟨m, starts, stops⟩
  · rcases start_cases parameters args .values with ⟨different, refused⟩ | ⟨-, same⟩
    · rw [refused] at starts
      exact .inr ⟨different, (refuse_error.mp starts).symm⟩
    · exact absurd (same.symm.trans starts) setValues_no_verdict
  · split at stops
    · rename_i outcome ends
      exact .inl (given.runWithin_verdict (given.underway_of_start noPhi parameters starts)
        (stops ▸ ends))
    · simp at stops

end Accepted

/-- Runs of accepted programs do not get stuck: given as many arguments as there are parameters, a
run on values starts, and if it ends it ends with a result, at an invalid address or at the limit of
steps. -/
theorem accepted_runs_end_well (consistent : g.Consistent) (valid : g.validate = .ok ())
    (noPhi : ∀ pc x, g.At g.entry pc x → x.isPhi = false) (results : g.ResultsListed) :
    ∃ params, g.parameters = .ok params ∧ ∀ args : List Word, args.length = params.length →
      ∃ m, Machine.start g args .values = .ok m ∧
        ∀ bound outcome, m.runWithin g bound = some outcome →
          (∃ r, outcome = .ok r) ∨
            ∃ e : RunError, outcome = .error (.error e) ∧
              (e = .tooManySteps ∨ ∃ addr, e = .address addr) := by
  obtain ⟨tree, order, isValid⟩ := validate_ok valid
  have given : g.Accepted tree order := ⟨consistent, isValid⟩
  obtain ⟨params, parameters⟩ := given.parameters_exist
  refine ⟨params, parameters, fun args count => ?_⟩
  obtain ⟨m, starts, -, equipped⟩ := start_track results parameters count
  have underway := given.underway_of_start noPhi parameters starts
  refine ⟨m, starts, fun bound outcome ends => ?_⟩
  rcases given.run_ends results underway equipped ends with finished | ⟨e, stopped, verdict⟩
  · exact .inl finished
  · refine .inr ⟨e, stopped, ?_⟩
    cases e with
    | tooManySteps => exact .inl rfl
    | address addr => exact .inr ⟨addr, rfl⟩
    | _ => simp [RunError.isVerdict] at verdict

def storing : Graph :=
  { new "storing" .aarch64 with
    blocks := #[⟨[0, 1, 2], [], [1]⟩, ⟨[3, 4], [0, 1], [1, 2]⟩, ⟨[5], [1], []⟩]
    instrs := #[
      { Instr.ofOpcode .parameter 0 .int64 with results := [0] },
      { Instr.ofOpcode .parameter 0 .int64 with results := [1] },
      { Instr.ofOpcode (.constant 0) 0 .int64 with results := [2] },
      { Instr.ofOpcode .store 1 .int64 with inputs := [0, 2, 1] },
      { Instr.ofOpcode (.branch .ne) 1 .void with inputs := [1, 2] },
      { Instr.ofOpcode .ret 2 .int64 with inputs := [1] }]
    values := #[⟨0, .int64⟩, ⟨1, .int64⟩, ⟨2, .int64⟩] }

theorem storing_ends_well :
    storing.parameters = .ok [0, 1] ∧ ∀ args : List Word, args.length = 2 →
      ∃ m, Machine.start storing args .values = .ok m ∧
        ∀ bound outcome, m.runWithin storing bound = some outcome →
          (∃ r, outcome = .ok r) ∨
            ∃ e : RunError, outcome = .error (.error e) ∧
              (e = .tooManySteps ∨ ∃ addr, e = .address addr) := by
  have known : storing.parameters = .ok [0, 1] := by decide +kernel
  have listed : storing.ResultsListed := resultsListed_of_mem (by decide +kernel)
  obtain ⟨params, parameters, ends⟩ := accepted_runs_end_well (g := storing)
    ⟨by decide +kernel, by decide +kernel⟩ (by decide +kernel)
    ((forall_at_iff rfl).mpr (by decide +kernel)) listed
  obtain rfl : params = [0, 1] := Except.ok.inj (parameters.symm.trans known)
  exact ⟨known, ends⟩

def phiAtEntry : Graph :=
  { new "phi at entry" .aarch64 with
    blocks := #[⟨[0, 1], [], []⟩]
    instrs := #[
      { Instr.ofOpcode .phi 0 .int64 with results := [0] },
      { Instr.ofOpcode .ret 0 .int64 with inputs := [0] }]
    values := #[⟨0, .int64⟩] }

theorem phi_at_entry_is_undefined :
    phiAtEntry.Consistent ∧ phiAtEntry.validate = .ok () ∧ phiAtEntry.parameters = .ok [] ∧
      phiAtEntry.run [] .values = .error (.error (.undefined 0)) :=
  ⟨⟨by decide +kernel, by decide +kernel⟩, by decide +kernel, by decide +kernel, by decide +kernel⟩

end Graph

end RegisterAllocation
