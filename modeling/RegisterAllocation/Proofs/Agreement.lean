import RegisterAllocation.Proofs.Evaluation
import RegisterAllocation.Proofs.Solution

/-!
What verification knows of the places of a machine, against what they hold. A machine agrees with
some knowledge if every location of which something definite is known holds just that: a constant,
or the word that a table of values has for a value. The changes that verification makes to what is
known keep the agreement through the changes that the machine makes.
-/

namespace RegisterAllocation

open List Location Machine MoveGroup Symbol Verify

def Symbol.Denotes (values : Bank) : Symbol → Word → Prop
  | .value v, w => values[v]? = some (some w)
  | .constant c, w => w = c
  | .unknown, _ | .conflicted, _ => False

def Agrees (g : Graph) (k : Knowledge) (values : Bank) (m : Machine) : Prop :=
  ∀ l, (Verify.read g k l).isDefinite = true →
    ∃ w, m.content g l = some w ∧ (Verify.read g k l).Denotes values w

def ConstantsHold (g : Graph) (values : Bank) : Prop :=
  ∀ (v : ValueId) (w c : Word), values[v]? = some (some w) → g.constantOf? v = .ok (some c) → w = c

namespace Agrees

variable {g : Graph} {k k' : Knowledge} {values values' : Bank} {m m' : Machine} {l : Location}
  {w : Word} {s : Symbol} {x : Instr}

theorem of_empty (target : m.target = g.target) : Agrees g [] values m := by
  intro l definite
  unfold Verify.read at definite ⊢
  split at definite
  · rename_i imm
    have kind : l.kind = .immediate := by simpa [isImmediate] using imm
    rw [if_pos imm]
    cases found : g.immediates[l.index]? with
    | none => simp [found, isDefinite] at definite
    | some c =>
      refine ⟨c, ?_, rfl⟩
      simp [content, Target.isZeroReg, isRegister, bank?,
        isInvalid, kind, found]
  rename_i notImm
  split at definite
  · rename_i zero
    rw [if_neg notImm, if_pos zero]
    exact ⟨0, by simp [content, target, zero], rfl⟩
  · simp [Knowledge.get, isDefinite] at definite

theorem read_below (below : k'.Below k) (definite : (Verify.read g k' l).isDefinite = true) :
    Verify.read g k l = Verify.read g k' l := by
  unfold Verify.read at definite ⊢
  split
  · rfl
  rename_i notImm
  rw [if_neg notImm] at definite
  split
  · rfl
  · rename_i notZero
    rw [if_neg notZero] at definite
    exact below l definite

theorem of_below (h : Agrees g k values m) (le : k'.Below k) : Agrees g k' values m := by
  intro l definite
  have same := read_below le definite
  rw [← same] at definite ⊢
  exact h l definite

theorem after_revalue (h : Agrees g k values m)
    (kept : ∀ l v, Verify.read g k l = .value v → values'[v]? = values[v]?) :
    Agrees g k values' m := by
  intro l definite
  obtain ⟨w, holds, denotes⟩ := h l definite
  refine ⟨w, holds, ?_⟩
  cases hs : Verify.read g k l with
  | value v =>
    rw [hs] at denotes
    simp only [Denotes] at denotes ⊢
    rw [kept l v hs, denotes]
  | constant c =>
    rw [hs] at denotes
    exact denotes
  | unknown | conflicted => simp [hs, isDefinite] at definite

theorem read_write (g : Graph) (k : Knowledge) (l j : Location) (s : Symbol) :
    Verify.read g (Verify.write g k l s) j =
      if j = l ∧ isReadOnly g.target l = false then s else Verify.read g k j := by
  unfold Verify.read
  rw [get_write]
  by_cases here : j = l ∧ isReadOnly g.target l = false
  · obtain ⟨rfl, writable⟩ := here
    simp only [isReadOnly, Bool.or_eq_false_iff] at writable
    simp [isReadOnly, writable.1.1, writable.1.2, writable.2]
  · simp only [if_neg here]

theorem after_write (h : Agrees g k values m) (target : m.target = g.target)
    (wrote : m.write l w = .ok m') (denotes : s.isDefinite = true → s.Denotes values w) :
    Agrees g (Verify.write g k l s) values m' := by
  obtain ⟨_, contents⟩ := write_effect wrote
  intro j definite
  rw [contents, target]
  rw [read_write] at definite ⊢
  split
  · rename_i here
    rw [if_pos here] at definite
    exact ⟨w, rfl, denotes definite⟩
  · rename_i elsewhere
    rw [if_neg elsewhere] at definite
    exact h j definite

theorem after_learn (h : Agrees g k values m) (holds : m.content g l = some w)
    (denotes : s.isDefinite = true → s.Denotes values w) :
    Agrees g (Verify.write g k l s) values m := by
  intro j definite
  rw [read_write] at definite ⊢
  split
  · rename_i here
    rw [if_pos here] at definite
    exact ⟨w, by rw [here.1, holds], denotes definite⟩
  · rename_i elsewhere
    rw [if_neg elsewhere] at definite
    exact h j definite

theorem after_learns {results : List (ValueId × Location)} (h : Agrees g k values m)
    (holds : ∀ r ∈ results, ∃ w, m.content g r.2 = some w ∧
      (resultSymbol x r.1).Denotes values w) :
    Agrees g (results.foldl
      (fun k r => Verify.write g k r.2 (resultSymbol x r.1)) k) values m := by
  induction results generalizing k with
  | nil => exact h
  | cons r rest ih =>
    obtain ⟨w, held, denotes⟩ := holds r mem_cons_self
    exact ih (h.after_learn held fun _ => denotes) fun s hs => holds s (mem_cons_of_mem _ hs)

theorem after_moves {moves : List Move} (h : Agrees g k values m) (target : m.target = g.target)
    (carries : Carries g k moves k') (room : ∀ mv ∈ moves, m.Accepts mv.dst) :
    ∃ m', moves.foldlM (transfer g) m = .ok m' ∧ Agrees g k' values m' := by
  induction carries generalizing m with
  | done => exact ⟨m, rfl, h⟩
  | @move k k' mv rest definite _ ih =>
    obtain ⟨w, holds, denotes⟩ := h mv.src definite
    obtain ⟨next, wrote⟩ := write_of_accepts (room mv mem_cons_self) w
    have only := (write_effect wrote).1
    obtain ⟨m', moved, done⟩ := ih (h.after_write target wrote fun _ => denotes)
      (by rw [only.target_eq, target])
      fun other hother => only.accepts_kept (room other (mem_cons_of_mem _ hother))
    refine ⟨m', ?_, done⟩
    rw [foldlM_cons, transfer, read_ok.mpr holds, ok_bind, wrote, ok_bind, moved]

theorem after_moveGroup {group : MoveGroup} (h : Agrees g k values m) (target : m.target = g.target)
    (sequenced : group.sequenced = true) (carries : Carries g k group.moves k')
    (room : ∀ mv ∈ group.moves, m.Accepts mv.dst) :
    ∃ m', m.moveGroup g group = .ok m' ∧ Agrees g k' values m' := by
  have counted : Agrees g k values { m with groups := m.groups + 1 } := h
  obtain ⟨m', moved, done⟩ := counted.after_moves target carries room
  exact ⟨m', by simp only [Machine.moveGroup, sequenced, ↓reduceIte, moved], done⟩

theorem destroy_below (test : Location → Bool) (k : Knowledge) : (k.destroy test).Below k :=
  fun _ definite => (Knowledge.get_destroy definite).2.symm

theorem after_clobber (h : Agrees g k values m) (target : m.target = g.target)
    (cleared : m.clobber g = .ok m') :
    Agrees g (k.destroy (isCallerSaved g.target)) values m' := by
  obtain ⟨_, contents⟩ := clobber_effect cleared
  intro l definite
  have kept : isReadOnly g.target l = true ∨ isCallerSaved g.target l = false := by
    by_cases fixed : isReadOnly g.target l = true
    · exact .inl fixed
    · rw [read_eq_get (by simpa using fixed)] at definite
      exact .inr (Knowledge.get_destroy definite).1
  rw [contents l (by rw [target]; exact kept)]
  exact (h.of_below (destroy_below _ k)) l definite

theorem after_call {cc : CallingConvention} (h : Agrees g k values m) (target : m.target = g.target)
    (convention : g.target.convention = some cc) (x : Instr) :
    ∃ m', m.afterCall g x = .ok m' ∧ OnlyPlaces m m' ∧
      Agrees g (if x.isCall then k.destroy (isCallerSaved g.target) else k) values m' ∧
      ∀ l, ¬(x.isCall = true ∧ isCallerSaved g.target l = true) →
        m'.content g l = m.content g l := by
  unfold Machine.afterCall
  by_cases call : x.isCall = true ∧ m.stage = .locations
  · obtain ⟨m', cleared⟩ : ∃ m', m.clobber g = .ok m' := by
      simp [Machine.clobber, target, convention]
    obtain ⟨only, contents⟩ := clobber_effect cleared
    refine ⟨m', by rw [if_pos call, cleared], only, ?_, ?_⟩
    · rw [if_pos call.1]
      exact h.after_clobber target cleared
    · intro l kept
      refine contents l (.inr ?_)
      rw [target]
      simpa [call.1] using kept
  · refine ⟨m, if_neg call, .refl m, ?_, fun _ _ => rfl⟩
    split
    · exact h.of_below (destroy_below _ k)
    · exact h

theorem content_eq {v : ValueId} (h : Agrees g k values m) (constants : ConstantsHold g values)
    (held : Verify.holds g (Verify.read g k l) v = .ok true) (defined : values[v]? = some (some w)) :
    m.content g l = some w := by
  unfold Verify.holds at held
  split at held
  · rename_i u hs
    obtain rfl : u = v := by simpa using held
    obtain ⟨w', holds, denotes⟩ := h l (by rw [hs]; rfl)
    rw [hs] at denotes
    simp only [Denotes, defined] at denotes
    obtain rfl : w = w' := by simpa using denotes
    exact holds
  · rename_i c hs
    obtain ⟨w', holds, denotes⟩ := h l (by rw [hs]; rfl)
    rw [hs] at denotes
    obtain rfl : w' = c := denotes
    rw [bind_ok] at held
    obtain ⟨found, hfound, held⟩ := held
    obtain rfl : found = some w' := by simpa using held
    rw [constants v w w' defined hfound]
    exact holds
  · simp at held

theorem after_putResults {n : Nat} {results : List ValueId} {locations : List Location}
    {words : List Word} (located : m.stage = .locations) (target : m.target = g.target)
    (h : Agrees g k values m) (rest : x.resultLocations.drop n = locations)
    (length : results.length = locations.length)
    (denote : Forall₂ (fun v w => (resultSymbol x v).Denotes values w) results words)
    (room : ∀ l ∈ locations, m.Accepts l) :
    ∃ m', Machine.putResults x n words m = .ok m' ∧ Agrees g ((results.zip locations).foldl
      (fun k r => Verify.write g k r.2 (resultSymbol x r.1)) k) values m' := by
  induction denote generalizing n locations k m with
  | nil => exact ⟨m, rfl, by simpa using h⟩
  | @cons v w results words denotes _ ih =>
    cases locations with
    | nil => simp at length
    | cons l locations =>
      have here : x.resultLocations[n]? = some l := by
        have first : (x.resultLocations.drop n)[0]? = x.resultLocations[n + 0]? :=
          getElem?_drop
        rw [rest] at first
        simpa using first.symm
      obtain ⟨next, wrote⟩ := write_of_accepts (room l mem_cons_self) w
      have only := (write_effect wrote).1
      have later : x.resultLocations.drop (n + 1) = locations := by
        rw [← drop_drop, rest]
        rfl
      obtain ⟨m', written, done⟩ := ih (by rw [only.same]; exact located)
        (by rw [only.target_eq, target]) (h.after_write target wrote fun _ => denotes) later
        (by simpa using length)
        fun j hj => only.accepts_kept (room j (mem_cons_of_mem l hj))
      refine ⟨m', ?_, by simpa using done⟩
      rw [Machine.putResults, setResult, located]
      simp only [here, wrote, ok_bind, written]

/-- An instruction that has evaluated its operands leaves its results where verification expects
them and nothing else changed, but for what a call destroys. -/
theorem after_compute {cc : CallingConvention} {r : List Word × Array Word} (h : Agrees g k values m)
    (located : m.stage = .locations) (target : m.target = g.target)
    (convention : g.target.convention = some cc) (plain : x.isSpillFill = false)
    (evaluated : evaluate g x m.memory (m.input g x) = .ok r)
    (length : x.resultLocations.length = x.results.length)
    (denote : Forall₂ (fun v w => (resultSymbol x v).Denotes values w) x.results r.1)
    (room : ∀ l ∈ x.resultLocations, m.Accepts l) :
    ∃ m', m.compute g x = .ok m' ∧ OnlyPlaces { m with memory := r.2 } m' ∧
      Agrees g (afterResults g x
        (if x.isCall then k.destroy (isCallerSaved g.target) else k)) values m' ∧
      ∀ l, l ∉ x.resultLocations → ¬(x.isCall = true ∧ isCallerSaved g.target l = true) →
        m'.content g l = m.content g l := by
  obtain ⟨mid, called, onlyMid, agreesMid, keptMid⟩ := h.after_call target convention x
  have stored : OnlyPlaces { m with memory := r.2 } { mid with memory := r.2 } :=
    ⟨by rw [onlyMid.same], onlyMid.sizes⟩
  have locatedMid : mid.stage = .locations := by rw [onlyMid.same]; exact located
  have agrees : Agrees g _ values { mid with memory := r.2 } := agreesMid
  obtain ⟨m', put, done⟩ := agrees.after_putResults (m := { mid with memory := r.2 })
    (x := x) (n := 0) locatedMid (onlyMid.target_eq.trans target) rfl length.symm denote
    fun l hl => stored.accepts_kept (room l hl)
  have only := putResults_only (m := { mid with memory := r.2 }) locatedMid put
  refine ⟨m', ?_, stored.trans only, done, ?_⟩
  · rw [compute_eq plain, evaluated, ok_bind, called, ok_bind, put]
  · intro l away kept
    rw [putResults_keep (m := { mid with memory := r.2 }) locatedMid put away]
    exact keptMid l kept

end Agrees

end RegisterAllocation
