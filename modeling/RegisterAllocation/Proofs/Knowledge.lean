import RegisterAllocation.MoveGroup.Sequence
import RegisterAllocation.Proofs.Order
import RegisterAllocation.Verify.Flow

/-!
What is known of locations, as a map: the content of a location after a change to what is known.
What is known where ways meet is known on each of them, provided that no entry says `unknown`.
-/

namespace RegisterAllocation

namespace Knowledge

variable {k other : Knowledge} {l j : Location} {s : Symbol}

theorem lookup_cons (l j : Location) (s : Symbol) (rest : Knowledge) :
    List.lookup l ((j, s) :: rest) = if l = j then some s else List.lookup l rest := by
  by_cases h : l = j
  · simp [h]
  · simp [List.lookup_cons, beq_false_of_ne h, h]

theorem lookup_put (k : Knowledge) (l j : Location) (s : Symbol) :
    (k.put l s).lookup j = if j = l then some s else k.lookup j := by
  induction k with
  | nil => simp [put, lookup_cons]
  | cons entry rest ih =>
    obtain ⟨l', t⟩ := entry
    unfold put
    split
    · rename_i same
      subst same
      rw [lookup_cons, lookup_cons]
      split <;> rfl
    split
    · rw [lookup_cons]
    · rename_i apart _
      rw [lookup_cons, ih, lookup_cons]
      by_cases hj : j = l'
      · rw [if_pos hj, if_pos hj, if_neg (by rw [hj]; exact apart)]
      · rw [if_neg hj, if_neg hj]

theorem lookup_erase (k : Knowledge) (l j : Location) :
    (erase l k).lookup j = if j = l then none else k.lookup j := by
  induction k with
  | nil => simp [erase]
  | cons entry rest ih =>
    obtain ⟨l', t⟩ := entry
    unfold erase at ih ⊢
    rw [List.filter_cons]
    by_cases same : l' = l
    · simp only [same, ne_eq, not_true_eq_false, decide_false, Bool.false_eq_true, ↓reduceIte]
      rw [ih, lookup_cons]
      split <;> rfl
    · simp only [ne_eq, same, not_false_eq_true, decide_true, ↓reduceIte]
      rw [lookup_cons, lookup_cons, ih]
      by_cases hj : j = l'
      · rw [if_pos hj, if_pos hj, if_neg (by rw [hj]; exact same)]
      · rw [if_neg hj, if_neg hj]

theorem lookup_meet (k other : Knowledge) (l : Location) :
    (meet k other).lookup l = (k.lookup l).bind fun s => (other.lookup l).map fun t => s.meet t := by
  induction k with
  | nil => rfl
  | cons entry rest ih =>
    obtain ⟨l', s⟩ := entry
    cases found : other.lookup l' with
    | none =>
      have same : meet ((l', s) :: rest) other = meet rest other := by
        simp [meet, found]
      rw [same, ih, lookup_cons]
      by_cases hl : l = l'
      · rw [if_pos hl, hl, found]
        simp
      · rw [if_neg hl]
    | some t =>
      have same : meet ((l', s) :: rest) other = (l', s.meet t) :: meet rest other := by
        simp [meet, found]
      rw [same, lookup_cons, lookup_cons, ih]
      by_cases hl : l = l'
      · rw [if_pos hl, if_pos hl, hl, found]
        rfl
      · rw [if_neg hl, if_neg hl]

theorem lookup_destroy (test : Location → Bool) (k : Knowledge) (l : Location) :
    (destroy test k).lookup l =
      (k.lookup l).map fun s => if test l then .conflicted else s := by
  induction k with
  | nil => rfl
  | cons entry rest ih =>
    obtain ⟨l', s⟩ := entry
    have head : destroy test ((l', s) :: rest) =
        (l', if test l' then .conflicted else s) :: destroy test rest := by
      by_cases ht : test l' <;> simp [destroy, ht]
    rw [head, lookup_cons, lookup_cons, ih]
    by_cases hl : l = l'
    · rw [if_pos hl, if_pos hl, hl]
      rfl
    · rw [if_neg hl, if_neg hl]

theorem get_set (k : Knowledge) (l j : Location) (s : Symbol) :
    (k.set l s).get j = if j = l then s else k.get j := by
  unfold set get
  split
  · rename_i unknown
    rw [lookup_erase]
    split <;> simp [unknown]
  · rw [lookup_put]
    split <;> rfl

theorem get_destroy {test : Location → Bool} (definite : ((destroy test k).get l).isDefinite) :
    test l = false ∧ (destroy test k).get l = k.get l := by
  simp only [get, lookup_destroy] at definite ⊢
  cases found : k.lookup l with
  | none => simp [found, Symbol.isDefinite] at definite
  | some s => by_cases ht : test l <;> simp_all [Symbol.isDefinite]

def Firm (k : Knowledge) : Prop := ∀ l, k.lookup l ≠ some .unknown

theorem Firm.nil : Firm [] := fun _ => by simp

theorem Firm.after_set (h : k.Firm) (l : Location) (s : Symbol) : (k.set l s).Firm := by
  intro j
  unfold set
  split
  · rw [lookup_erase]
    split
    · simp
    · exact h j
  · rename_i known
    rw [lookup_put]
    split
    · simpa using known
    · exact h j

theorem Firm.after_destroy (h : k.Firm) (test : Location → Bool) : (k.destroy test).Firm := by
  intro l
  rw [lookup_destroy]
  cases found : k.lookup l with
  | none => simp
  | some s =>
    have known := h l
    rw [found] at known
    by_cases ht : test l <;> simp_all

theorem Firm.after_meet (h : k.Firm) (h' : other.Firm) : (k.meet other).Firm := by
  intro l
  rw [lookup_meet]
  have left := h l
  have right := h' l
  cases foundS : k.lookup l with
  | none => simp
  | some s =>
    cases foundT : other.lookup l with
    | none => simp
    | some t =>
      rw [foundS] at left
      rw [foundT] at right
      cases s <;> cases t <;> simp_all [Symbol.meet] <;> split <;> simp

def Below (k other : Knowledge) : Prop :=
  ∀ l, (k.get l).isDefinite → other.get l = k.get l

theorem Below.refl (k : Knowledge) : k.Below k := fun _ _ => rfl

theorem Below.trans {more : Knowledge} (h : k.Below other) (h' : other.Below more) :
    k.Below more := by
  intro l definite
  rw [h' l (by rw [h l definite]; exact definite), h l definite]

theorem definite_meet {s t : Symbol} (hs : s ≠ .unknown) (ht : t ≠ .unknown)
    (definite : (s.meet t).isDefinite) : s = s.meet t ∧ t = s.meet t := by
  cases s <;> cases t <;> simp_all [Symbol.meet, Symbol.isDefinite] <;> split at definite <;>
    simp_all

theorem meet_below (h : k.Firm) (h' : other.Firm) :
    (k.meet other).Below k ∧ (k.meet other).Below other := by
  have both : ∀ l, ((k.meet other).get l).isDefinite →
      k.get l = (k.meet other).get l ∧ other.get l = (k.meet other).get l := by
    intro l definite
    have left := h l
    have right := h' l
    simp only [get, lookup_meet] at definite ⊢
    cases foundS : k.lookup l with
    | none => simp [foundS, Symbol.isDefinite] at definite
    | some s =>
      cases foundT : other.lookup l with
      | none => simp [foundS, foundT, Symbol.isDefinite] at definite
      | some t =>
        simp only [foundS, foundT, Option.bind_some, Option.map_some, Option.getD_some] at definite ⊢
        exact definite_meet (by simpa [foundS] using left) (by simpa [foundT] using right) definite
  exact ⟨fun l definite => (both l definite).1, fun l definite => (both l definite).2⟩

end Knowledge

namespace Verify

variable {g : Graph} {k : Knowledge} {l j : Location} {s : Symbol}

theorem write_eq (g : Graph) (k : Knowledge) (l : Location) (s : Symbol) :
    write g k l s = if MoveGroup.isReadOnly g.target l then k else k.set l s := rfl

theorem get_write (g : Graph) (k : Knowledge) (l j : Location) (s : Symbol) :
    (write g k l s).get j =
      if j = l ∧ MoveGroup.isReadOnly g.target l = false then s else k.get j := by
  rw [write_eq]
  by_cases fixed : MoveGroup.isReadOnly g.target l
  · simp [fixed]
  · simp [fixed, Knowledge.get_set]

theorem write_firm (h : k.Firm) (l : Location) (s : Symbol) : (write g k l s).Firm := by
  rw [write_eq]
  split
  · exact h
  · exact h.after_set l s

theorem read_congr {k' : Knowledge} (same : k'.get l = k.get l) : read g k' l = read g k l := by
  simp only [read, same]

theorem read_eq_get (writable : MoveGroup.isReadOnly g.target l = false) :
    read g k l = k.get l := by
  unfold MoveGroup.isReadOnly at writable
  simp only [Bool.or_eq_false_iff] at writable
  simp [read, writable.1.1, writable.2]

end Verify

end RegisterAllocation
