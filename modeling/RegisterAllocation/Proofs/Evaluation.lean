import RegisterAllocation.Proofs.Contents

/-!
Instructions as functions of their operands. What an instruction computes does not depend on where
its operands come from: two machines that find the same operands compute the same words, change
memory in the same way and stop at the same invalid addresses.
-/

namespace RegisterAllocation

theorem Opcode.constant_cases {op : Opcode} {c : Word} (h : op.constant? = some c) :
    op = .constant c ∨ (op = .nullPtr ∧ c = 0) := by
  cases op with
  | constant d =>
    obtain rfl : d = c := Option.some.inj h
    exact .inl rfl
  | nullPtr => exact .inr ⟨rfl, (Option.some.inj h).symm⟩
  | _ => cases h

/-- The errors of a run that say something about the program rather than about its allocation. -/
def RunError.isVerdict : RunError → Bool
  | .address _ | .tooManySteps => true
  | _ => false

/-- The second computation does what the first one does, as far as the first one gets to a result
or to a verdict. -/
structure Follows {α : Type} (first second : Attempt RunError α) : Prop where
  result : ∀ a, first = .ok a → second = .ok a
  verdict : ∀ e : RunError, e.isVerdict = true → first = .error (.error e) →
    second = .error (.error e)

namespace Follows

variable {α β : Type} {first second : Attempt RunError α}

theorem refl (first : Attempt RunError α) : Follows first first := ⟨fun _ h => h, fun _ _ h => h⟩

theorem bind {f h : α → Attempt RunError β} (start : Follows first second)
    (rest : ∀ a, first = .ok a → Follows (f a) (h a)) : Follows (first >>= f) (second >>= h) := by
  constructor
  · intro b hb
    obtain ⟨a, ha, hb⟩ := bind_ok.mp hb
    rw [start.result a ha, ok_bind]
    exact (rest a ha).result b hb
  · intro e verdict he
    rcases bind_error.mp he with he | ⟨a, ha, he⟩
    · rw [start.verdict e verdict he, error_bind]
    · rw [start.result a ha, ok_bind]
      exact (rest a ha).verdict e verdict he

theorem of_ok (ok : ∀ a, first = .ok a → second = .ok a)
    (none : ∀ e : RunError, e.isVerdict = true → first ≠ .error (.error e)) :
    Follows first second :=
  ⟨ok, fun e verdict he => absurd he (none e verdict)⟩

theorem of_mapM {f h : α → Attempt RunError β} (xs : List α) (same : ∀ x ∈ xs, Follows (f x) (h x)) :
    Follows (xs.mapM f) (xs.mapM h) := by
  induction xs with
  | nil => exact .refl _
  | cons x rest ih =>
    simp only [List.mapM_cons]
    refine (same x List.mem_cons_self).bind fun y _ => ?_
    exact (ih fun z hz => same z (List.mem_cons_of_mem x hz)).bind fun _ _ => .refl _

end Follows

namespace Machine

variable {g : Graph} {m m' : Machine} {x : Instr}

abbrev Operands := Nat → Attempt RunError Word

def addressOf (input : Operands) : Attempt RunError Nat := do
  let base ← input 0
  let index ← input 1
  let addr := base + index
  if 0 ≤ addr ∧ addr.toInt < memorySize then return addr.toNatClampNeg
  refuse (.address addr.toInt)

def testOf (g : Graph) (x : Instr) (c : Condition) (input : Operands) : Attempt RunError Bool := do
  let a ← input 0
  let b ← input 1
  if (← g.typeOf (← need x.inputs.head?)).isFloat then
    return c.holdsFloat a.toFloat b.toFloat
  return c.holds a b

def evaluate (g : Graph) (x : Instr) (memory : Array Word) (input : Operands) :
    Attempt RunError (List Word × Array Word) :=
  match x.opcode with
  | .constant c => return ([c], memory)
  | .nullPtr => return ([0], memory)
  | .add | .sub | .mul | .and => do
    let a ← input 0
    let b ← input 1
    return ([x.opcode.apply x.ty a b], memory)
  | .compare c => do
    return ([if ← testOf g x c input then 1 else 0], memory)
  | .select c => do
    let w ← if ← testOf g x c input then input 2 else input 3
    return ([w], memory)
  | .load => do
    let addr ← addressOf input
    return ([← need memory[addr]?], memory)
  | .loadPair => do
    let addr ← addressOf input
    if memorySize ≤ addr + 1 then
      refuse (.address (addr + 1))
    let first ← need memory[addr]?
    let second ← need memory[addr + 1]?
    return ([first, second], memory)
  | .store => do
    let addr ← addressOf input
    let w ← input 2
    return ([], memory.setIfInBounds addr w)
  | .call callee => do
    let args ← (List.range x.inputs.length).mapM input
    return (if x.results.isEmpty then [] else [callResult callee args], memory)
  | .parameter | .phi | .branch _ | .ret | .retVoid | .spillFill => return ([], memory)

def putResults (x : Instr) : (k : Nat) → List Word → Machine → Attempt RunError Machine
  | _, [], m => .ok m
  | k, w :: rest, m => do putResults x (k + 1) rest (← m.setResult x k w)

theorem address_eq : m.address g x = addressOf (m.input g x) := rfl

theorem test_eq (c : Condition) : m.test g x c = testOf g x c (m.input g x) := rfl

def afterCall (g : Graph) (x : Instr) (m : Machine) : Attempt RunError Machine :=
  if x.isCall = true ∧ m.stage = .locations then m.clobber g else .ok m

theorem putResults_one (k : Nat) (w : Word) : putResults x k [w] m = m.setResult x k w := by
  simp only [putResults]
  cases m.setResult x k w <;> rfl

theorem putResults_two (k : Nat) (w w' : Word) :
    putResults x k [w, w'] m = m.setResult x k w >>= fun m => m.setResult x (k + 1) w' := by
  rw [putResults]
  simp only [putResults_one]

/-- An instruction other than a group of moves evaluates its operands; a call then destroys what it
does not keep, and the results are written. -/
theorem compute_eq (plain : x.isSpillFill = false) :
    m.compute g x = evaluate g x m.memory (m.input g x) >>= fun r =>
      m.afterCall g x >>= fun m => putResults x 0 r.1 { m with memory := r.2 } := by
  unfold compute evaluate
  have ordinary : x.opcode.isCall = false → m.afterCall g x = .ok m := by
    intro h
    simp [afterCall, Instr.isCall, h]
  cases hop : x.opcode with
  | spillFill => simp [Instr.isSpillFill, hop] at plain
  | call callee =>
    simp only [bind_assoc, pure_bind, arguments]
    congr 1
    funext args
    by_cases located : m.stage = .locations
    · rw [if_pos located, afterCall, if_pos ⟨by simp [Instr.isCall, hop, Opcode.isCall], located⟩]
      cases cleared : m.clobber g with
      | error e => rfl
      | ok m' =>
        have kept : { m' with memory := m.memory } = m' := by
          rw [(clobber_effect cleared).1.same]
        simp only [ok_bind, kept]
        split
        · rfl
        · rw [putResults_one]
    · have untouched : m.afterCall g x = .ok m := by simp [afterCall, located]
      rw [if_neg located, untouched]
      simp only [ok_bind]
      split
      · rfl
      · rw [putResults_one]
  | select c =>
    rw [ordinary (by rw [hop]; rfl)]
    simp only [bind_assoc, ok_bind, test_eq]
    congr 1
    funext b
    cases b <;> simp [putResults_one]
  | loadPair =>
    rw [ordinary (by rw [hop]; rfl)]
    simp only [bind_assoc, ok_bind, address_eq]
    congr 1
    funext addr
    split
    · rfl
    · simp [putResults_two]
  | _ =>
    rw [ordinary (by rw [hop]; rfl)]
    simp only [bind_assoc, ok_bind, pure_bind, putResults_one, address_eq, test_eq] <;> rfl

theorem putResults_only {words : List Word} {k : Nat} (located : m.stage = .locations)
    (h : putResults x k words m = .ok m') : OnlyPlaces m m' := by
  induction words generalizing m k with
  | nil =>
    obtain rfl : m = m' := Except.ok.inj h
    exact .refl m
  | cons w rest ih =>
    rw [putResults, bind_ok] at h
    obtain ⟨next, first, later⟩ := h
    simp only [setResult, located] at first
    split at first
    · have only := (write_effect first).1
      exact only.trans (ih (by rw [only.same]; exact located) later)
    · simp at first

theorem putResults_keep {words : List Word} {k : Nat} {l : Location}
    (located : m.stage = .locations) (h : putResults x k words m = .ok m')
    (away : l ∉ x.resultLocations) : m'.content g l = m.content g l := by
  induction words generalizing m k with
  | nil =>
    obtain rfl : m = m' := Except.ok.inj h
    rfl
  | cons w rest ih =>
    rw [putResults, bind_ok] at h
    obtain ⟨next, first, later⟩ := h
    simp only [setResult, located] at first
    split at first
    · rename_i j listed
      obtain ⟨only, contents⟩ := write_effect first
      have apart : l ≠ j := fun same => away (same ▸ List.mem_of_getElem? listed)
      have kept := ih (by rw [only.same]; exact located) later
      rw [kept, contents, if_neg (fun here => apart here.1)]
    · simp at first

section

variable {first second : Operands}

theorem addressOf_follows (same : ∀ k, Follows (first k) (second k)) :
    Follows (addressOf first) (addressOf second) :=
  (same 0).bind fun _ _ => (same 1).bind fun _ _ => .refl _

theorem testOf_follows (c : Condition) (same : ∀ k, Follows (first k) (second k)) :
    Follows (testOf g x c first) (testOf g x c second) :=
  (same 0).bind fun _ _ => (same 1).bind fun _ _ => .refl _

theorem evaluate_follows (memory : Array Word) (same : ∀ k, Follows (first k) (second k)) :
    Follows (evaluate g x memory first) (evaluate g x memory second) := by
  unfold evaluate
  cases x.opcode with
  | add | sub | mul | and => exact (same 0).bind fun _ _ => (same 1).bind fun _ _ => .refl _
  | compare c => exact (testOf_follows c same).bind fun _ _ => .refl _
  | select c =>
    refine (testOf_follows c same).bind fun taken _ => ?_
    cases taken with
    | true => exact (same 2).bind fun _ _ => .refl _
    | false => exact (same 3).bind fun _ _ => .refl _
  | load | loadPair => exact (addressOf_follows same).bind fun _ _ => .refl _
  | store =>
    exact (addressOf_follows same).bind fun _ _ => (same 2).bind fun _ _ => .refl _
  | call => exact (Follows.of_mapM _ fun k _ => same k).bind fun _ _ => .refl _
  | _ => exact .refl _

end

/-- An instruction computes as many words as it has results; the incoming arguments and the values
of phis are there already. -/
theorem evaluate_length {memory : Array Word} {input : Operands} {r : List Word × Array Word}
    (h : evaluate g x memory input = .ok r)
    (results : x.results.length = x.opcode.numResults x.ty) (computed : x.opcode ≠ .parameter)
    (notPhi : x.isPhi = false) : r.1.length = x.results.length := by
  unfold evaluate at h
  cases hop : x.opcode with
  | parameter => exact absurd hop computed
  | phi => simp [Instr.isPhi, hop] at notPhi
  | call callee =>
    rw [hop] at h
    simp only [bind_ok, pure_ok] at h
    obtain ⟨args, _, rfl⟩ := h
    cases hresults : x.results with
    | nil => simp
    | cons v rest =>
      rw [hop, Opcode.numResults, hresults] at results
      split at results <;> simp_all
  | select c =>
    rw [hop] at h results
    simp only [bind_ok] at h
    obtain ⟨taken, _, h⟩ := h
    cases taken <;> simp only [bind_ok, pure_ok, Bool.false_eq_true, ↓reduceIte] at h <;>
      obtain ⟨w, _, rfl⟩ := h <;> simp [results, Opcode.numResults]
  | loadPair =>
    rw [hop] at h results
    simp only [bind_ok] at h
    obtain ⟨addr, _, h⟩ := h
    split at h
    · simp [bind_ok] at h
    · simp only [bind_ok, pure_ok] at h
      obtain ⟨_, _, _, _, rfl⟩ := h
      simp [results, Opcode.numResults]
  | constant | nullPtr | branch | ret | retVoid | spillFill =>
    rw [hop] at h results
    simp only [pure_ok] at h
    subst h
    simp [results, Opcode.numResults]
  | compare =>
    rw [hop] at h results
    simp only [bind_ok, pure_ok] at h
    obtain ⟨_, _, rfl⟩ := h
    simp [results, Opcode.numResults]
  | add | sub | mul | and | load | store =>
    rw [hop] at h results
    simp only [bind_ok, pure_ok] at h
    obtain ⟨_, _, _, _, rfl⟩ := h
    simp [results, Opcode.numResults]

end Machine

end RegisterAllocation
