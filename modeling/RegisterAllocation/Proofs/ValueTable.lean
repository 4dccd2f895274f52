import RegisterAllocation.Proofs.Expansion

/-!
The table of values of a run on values, after several values have been set.
-/

namespace RegisterAllocation

open Array List Graph Instr

def Bank.assign (values : Bank) (pairs : List (ValueId × Word)) : Bank :=
  pairs.foldl (fun values p => values.setIfInBounds p.1 (some p.2)) values

namespace Bank

variable {values : Bank} {pairs : List (ValueId × Word)} {v : ValueId}

theorem size_assign (values : Bank) (pairs : List (ValueId × Word)) :
    (values.assign pairs).size = values.size := by
  induction pairs generalizing values with
  | nil => rfl
  | cons p rest ih =>
    have first := ih (values.setIfInBounds p.1 (some p.2))
    rwa [size_setIfInBounds] at first

theorem assign_get (inside : ∀ p ∈ pairs, p.1 < values.size) (v : ValueId) :
    (∃ w, (v, w) ∈ pairs ∧ (values.assign pairs)[v]? = some (some w)) ∨
    ((∀ w, (v, w) ∉ pairs) ∧ (values.assign pairs)[v]? = values[v]?) := by
  induction pairs generalizing values with
  | nil => exact .inr ⟨by simp, rfl⟩
  | cons p rest ih =>
    obtain ⟨u, w⟩ := p
    have here : u < values.size := inside (u, w) mem_cons_self
    have others : ∀ q ∈ rest, q.1 < (values.setIfInBounds u (some w)).size := by
      intro q hq
      rw [size_setIfInBounds]
      exact inside q (mem_cons_of_mem _ hq)
    rcases ih others with ⟨w', member, found⟩ | ⟨none, kept⟩
    · exact .inl ⟨w', mem_cons_of_mem _ member, found⟩
    · by_cases same : v = u
      · subst same
        refine .inl ⟨w, mem_cons_self, ?_⟩
        exact kept.trans (by rw [getElem?_setIfInBounds_self, if_pos here])
      · refine .inr ⟨?_, kept.trans (getElem?_setIfInBounds_ne (Ne.symm same))⟩
        intro w' member
        rcases mem_cons.mp member with eq | member
        · exact same (by simpa using congrArg Prod.fst eq)
        · exact none w' member

variable {vs : List ValueId} {ws : List Word} (length : vs.length = ws.length)
  (inside : ∀ v ∈ vs, v < values.size)

include length inside

theorem assign_zip (distinct : vs.Nodup) :
    Forall₂ (fun v w => (values.assign (vs.zip ws))[v]? = some (some w)) vs ws := by
  refine forall₂_iff_get.mpr ⟨length, fun n hv hw => ?_⟩
  have here : (vs.zip ws)[n]? = some (vs.get ⟨n, hv⟩, ws.get ⟨n, hw⟩) :=
    getElem?_zip_eq_some.mpr ⟨getElem?_eq_getElem hv, getElem?_eq_getElem hw⟩
  have member := mem_of_getElem? here
  have within : ∀ p ∈ vs.zip ws, p.1 < values.size := fun p hp => inside p.1 (of_mem_zip hp).1
  rcases assign_get within (vs.get ⟨n, hv⟩) with ⟨w, other, found⟩ | ⟨none, _⟩
  · obtain ⟨j, there⟩ := mem_iff_getElem?.mp other
    obtain ⟨first, second⟩ := getElem?_zip_eq_some.mp there
    obtain ⟨hj, same⟩ := List.getElem?_eq_some_iff.mp first
    obtain rfl : j = n := by
      apply (Nodup.getElem_inj_iff distinct).mp
      simpa using same
    rw [found]
    obtain ⟨_, second⟩ := List.getElem?_eq_some_iff.mp second
    simp [second]
  · exact absurd member (none _)

theorem assign_zip_get (v : ValueId) :
    (v ∈ vs ∧ ∃ w ∈ ws, (values.assign (vs.zip ws))[v]? = some (some w)) ∨
      (v ∉ vs ∧ (values.assign (vs.zip ws))[v]? = values[v]?) := by
  have within : ∀ p ∈ vs.zip ws, p.1 < values.size := fun p hp => inside p.1 (of_mem_zip hp).1
  rcases assign_get within v with ⟨w, member, found⟩ | ⟨none, kept⟩
  · exact .inl ⟨(of_mem_zip member).1, w, (of_mem_zip member).2, found⟩
  · refine .inr ⟨fun member => ?_, kept⟩
    obtain ⟨k, hk, rfl⟩ := getElem_of_mem member
    refine none (ws[k]) (mem_of_getElem? (i := k) ?_)
    exact getElem?_zip_eq_some.mpr
      ⟨getElem?_eq_getElem hk, getElem?_eq_getElem (by omega)⟩

end Bank

namespace Machine

variable {g : Graph} {m m' : Machine} {x : Instr}

theorem setValue_ok {v : ValueId} {w : Word} :
    m.setValue v w = .ok m' ↔ v < m.values.size ∧
      m' = { m with values := m.values.setIfInBounds v (some w) } := by
  rw [setValue, bind_ok]
  constructor
  · rintro ⟨_, inside, h⟩
    exact ⟨ensure_eq_ok.mp inside, (pure_ok.mp h).symm⟩
  · rintro ⟨inside, rfl⟩
    exact ⟨(), ensure_eq_ok.mpr inside, rfl⟩

theorem setValues_ok {pairs : List (ValueId × Word)}
    (h : pairs.foldlM (fun m p => (liftM (m.setValue p.1 p.2) : Attempt RunError Machine)) m
      = .ok m') :
    (∀ p ∈ pairs, p.1 < m.values.size) ∧ m' = { m with values := m.values.assign pairs } := by
  induction pairs generalizing m with
  | nil =>
    obtain rfl : m = m' := by simpa using h
    exact ⟨by simp, rfl⟩
  | cons p rest ih =>
    obtain ⟨next, first, later⟩ := foldlM_cons_ok.mp h
    obtain ⟨inside, rfl⟩ := setValue_ok.mp (lift_ok.mp first)
    obtain ⟨others, rfl⟩ := ih later
    refine ⟨?_, rfl⟩
    intro q hq
    rcases mem_cons.mp hq with rfl | hq
    · exact inside
    · simpa using others q hq

theorem putResults_values {words : List Word} {n : Nat} (stage : m.stage = .values)
    (h : putResults x n words m = .ok m') (length : words.length = (x.results.drop n).length) :
    (∀ v ∈ x.results.drop n, v < m.values.size) ∧
      m' = { m with values := m.values.assign ((x.results.drop n).zip words) } := by
  induction words generalizing m n with
  | nil =>
    obtain rfl : m = m' := Except.ok.inj h
    obtain empty : x.results.drop n = [] := length_eq_zero_iff.mp length.symm
    rw [empty]
    exact ⟨by simp, rfl⟩
  | cons w rest ih =>
    rw [putResults, bind_ok] at h
    obtain ⟨next, first, later⟩ := h
    simp only [setResult, stage, bind_ok, lift_ok] at first
    obtain ⟨v, hv, first⟩ := first
    rw [need_eq_ok] at hv
    obtain ⟨inside, rfl⟩ := setValue_ok.mp first
    have split : x.results.drop n = v :: x.results.drop (n + 1) := by
      obtain ⟨bound, rfl⟩ := List.getElem?_eq_some_iff.mp hv
      exact drop_eq_getElem_cons bound
    rw [split] at length ⊢
    obtain ⟨others, rfl⟩ := ih (m := { m with values := m.values.setIfInBounds v (some w) }) stage
      later (by simpa using length)
    refine ⟨?_, rfl⟩
    intro u hu
    rcases mem_cons.mp hu with rfl | hu
    · exact inside
    · simpa using others u hu

theorem compute_values (stage : m.stage = .values) (plain : x.isSpillFill = false)
    (results : x.results.length = x.opcode.numResults x.ty) (computed : x.opcode ≠ .parameter)
    (notPhi : x.isPhi = false) (h : m.compute g x = .ok m') :
    ∃ r, evaluate g x m.memory (m.input g x) = .ok r ∧ x.results.length = r.1.length ∧
      (∀ v ∈ x.results, v < m.values.size) ∧
      m' = { m with memory := r.2, values := m.values.assign (x.results.zip r.1) } := by
  rw [compute_eq plain, bind_ok] at h
  obtain ⟨r, evaluated, h⟩ := h
  have noCall : m.afterCall g x = .ok m := by simp [afterCall, stage]
  rw [noCall, ok_bind] at h
  have length := evaluate_length evaluated results computed notPhi
  obtain ⟨inside, rfl⟩ := putResults_values (m := { m with memory := r.2 }) stage h length
  exact ⟨r, evaluated, length.symm, inside, rfl⟩

theorem input_values {k : Nat} {w : Word} (stage : m.stage = .values) :
    m.input g x k = .ok w ↔ ∃ v, x.inputs[k]? = some v ∧ m.values[v]? = some (some w) := by
  simp only [input, stage, bind_ok, lift_ok, need_eq_ok]
  constructor
  · rintro ⟨v, hv, found, hfound, h⟩
    refine ⟨v, hv, ?_⟩
    cases found with
    | none => simp at h
    | some w' =>
      obtain rfl : w' = w := by simpa using h
      exact hfound
  · rintro ⟨v, hv, hfound⟩
    exact ⟨v, hv, some w, hfound, rfl⟩

theorem input_no_verdict {k : Nat} {e : RunError} (stage : m.stage = .values)
    (verdict : e.isVerdict = true) : m.input g x k ≠ .error (.error e) := by
  intro h
  simp only [input, stage] at h
  rcases bind_error.mp h with h | ⟨v, _, h⟩
  · exact lift_ne_error h
  rcases bind_error.mp h with h | ⟨found, _, h⟩
  · exact lift_ne_error h
  cases found with
  | none =>
    obtain rfl := refuse_error.mp h
    simp [RunError.isVerdict] at verdict
  | some w => simp [pure, Except.pure] at h

theorem putResults_no_verdict {words : List Word} {k : Nat} {e : RunError}
    (stage : m.stage = .values) : putResults x k words m ≠ .error (.error e) := by
  induction words generalizing m k with
  | nil => simp [putResults]
  | cons w rest ih =>
    intro h
    rw [putResults] at h
    simp only [setResult, stage] at h
    rcases bind_error.mp h with first | ⟨next, first, later⟩
    · rcases bind_error.mp first with h | ⟨v, _, h⟩
      · exact lift_ne_error h
      · exact lift_ne_error h
    · simp only [bind_ok, lift_ok] at first
      obtain ⟨v, _, first⟩ := first
      obtain ⟨_, rfl⟩ := setValue_ok.mp first
      exact ih (m := { m with values := m.values.setIfInBounds v (some w) }) stage later

theorem compute_verdict {e : RunError} (stage : m.stage = .values) (plain : x.isSpillFill = false)
    (h : m.compute g x = .error (.error e)) :
    evaluate g x m.memory (m.input g x) = .error (.error e) := by
  rw [compute_eq plain] at h
  rcases bind_error.mp h with h | ⟨r, _, h⟩
  · exact h
  have noCall : m.afterCall g x = .ok m := by simp [afterCall, stage]
  rw [noCall, ok_bind] at h
  exact absurd h (putResults_no_verdict (m := { m with memory := r.2 }) stage)

theorem phiValues_mem {k : Nat} {instrs : List InstrId} {updates : List (ValueId × Word)}
    (h : m.phiValues g k instrs = .ok updates) {v : ValueId} {w : Word}
    (member : (v, w) ∈ updates) :
    ∃ i ∈ instrs, ∃ x, g.instrs[i]? = some x ∧ x.isPhi = true ∧ x.results.head? = some v ∧
      m.input g x k = .ok w := by
  induction instrs generalizing updates with
  | nil =>
    obtain rfl : [] = updates := by simpa [phiValues] using h
    simp at member
  | cons i rest ih =>
    rw [phiValues, bind_ok] at h
    obtain ⟨x, found, h⟩ := h
    rw [lift_ok, instr_ok] at found
    split at h
    · rename_i phi
      simp only [bind_ok, lift_ok, need_eq_ok, pure_ok] at h
      obtain ⟨u, hu, w', operand, more, others, rfl⟩ := h
      rcases mem_cons.mp member with same | member
      · obtain ⟨rfl, rfl⟩ := Prod.mk.inj same
        exact ⟨i, mem_cons_self, x, found, phi, hu, operand⟩
      · obtain ⟨j, hj, rest⟩ := ih others member
        exact ⟨j, mem_cons_of_mem _ hj, rest⟩
    · obtain rfl : [] = updates := by simpa using h
      simp at member

theorem phiValues_head {p a : Graph} (expands : Expands p a) {k : Nat}
    {listed : List InstrId} {updates : List (ValueId × Word)}
    (h : m.phiValues p k (a.withoutMoves listed) = .ok updates) {phis : List InstrId}
    (heads : a.phisAmong listed = .ok phis) {i : InstrId} (member : i ∈ phis) {y : Instr}
    (found : a.instrs[i]? = some y) {u : ValueId} (result : y.results.head? = some u) :
    ∃ x w, p.instrs[i]? = some x ∧ (u, w) ∈ updates ∧ m.input p x k = .ok w := by
  induction listed generalizing phis updates with
  | nil =>
    obtain rfl : [] = phis := by simpa [phisAmong] using heads
    simp at member
  | cons j rest ih =>
    rw [phisAmong, bind_ok] at heads
    obtain ⟨z, foundZ, heads⟩ := heads
    rw [instr_ok] at foundZ
    split at heads
    · rename_i phi
      rw [bind_ok] at heads
      obtain ⟨more, others, heads⟩ := heads
      obtain rfl : j :: more = phis := by simpa using heads
      have plain : a.isMoves j = false := by
        rw [isMoves_eq foundZ]
        simp only [isPhi, beq_iff_eq] at phi
        simp [isSpillFill, phi]
      have head : a.withoutMoves (j :: rest) = j :: a.withoutMoves rest := by
        simp [withoutMoves, plain]
      rw [head, phiValues, bind_ok] at h
      obtain ⟨x, foundX, h⟩ := h
      rw [lift_ok, instr_ok] at foundX
      obtain ⟨z', foundZ', code⟩ := expands.instr j x foundX
      obtain rfl : z = z' := by simpa [foundZ] using foundZ'
      have phiX : x.isPhi = true := by
        simp only [isPhi, code.opcode] at phi
        exact phi
      rw [if_pos phiX] at h
      simp only [bind_ok, lift_ok, need_eq_ok, pure_ok] at h
      obtain ⟨v, hv, w, operand, moreUpdates, later, rfl⟩ := h
      rcases mem_cons.mp member with rfl | member
      · obtain rfl : z = y := by simpa [foundZ] using found
        rw [code.results, hv] at result
        obtain rfl : v = u := by simpa using result
        exact ⟨x, w, foundX, mem_cons_self, operand⟩
      · obtain ⟨x', w', found', among, operand'⟩ := ih later others member
        exact ⟨x', w', found', mem_cons_of_mem _ among, operand'⟩
    · obtain rfl : [] = phis := by simpa using heads
      simp at member

end Machine

end RegisterAllocation
