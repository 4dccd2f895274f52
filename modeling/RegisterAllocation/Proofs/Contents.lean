import RegisterAllocation.Machine.Run
import RegisterAllocation.MoveGroup.Sequence
import RegisterAllocation.Proofs.Outcome
import RegisterAllocation.Verify.Flow

/-!
The places of a machine: what a location holds, and what a write, a group of moves and a call change.
-/

namespace RegisterAllocation

open Location MoveGroup Verify

namespace Machine

variable {g : Graph} {m m' m'' : Machine} {l j : Location} {w : Word}

def content (g : Graph) (m : Machine) (l : Location) : Option Word :=
  if m.target.isZeroReg l then some 0
  else
    match m.bank? l.kind with
    | some bank => bank[l.index]?.join
    | none => if l.isInvalid then none else g.immediates[l.index]?

theorem read_ok : m.read g l = .ok w ↔ m.content g l = some w := by
  unfold read content
  by_cases zero : m.target.isZeroReg l
  · simp [zero]
  simp only [zero, Bool.false_eq_true, ↓reduceIte]
  cases m.bank? l.kind with
  | some bank =>
    simp only
    cases bank[l.index]? with
    | none => simp
    | some cell => cases cell <;> simp
  | none =>
    by_cases invalid : l.isInvalid
    · simp [invalid]
    · cases g.immediates[l.index]? <;> simp [invalid]

def Accepts (m : Machine) (l : Location) : Prop :=
  m.target.isZeroReg l = true ∨ l.isImmediate = true ∨
    ∃ bank, m.bank? l.kind = some bank ∧ l.index < bank.size

theorem Accepts.of_same_sizes (target : m'.target = m.target)
    (sizes : ∀ kind, (m'.bank? kind).map Array.size = (m.bank? kind).map Array.size)
    (ok : m.Accepts l) : m'.Accepts l := by
  unfold Accepts at ok ⊢
  rw [target]
  rcases ok with zero | imm | ⟨bank, found, inside⟩
  · exact .inl zero
  · exact .inr (.inl imm)
  · have size := sizes l.kind
    rw [found] at size
    cases found' : m'.bank? l.kind with
    | none => simp [found'] at size
    | some bank' =>
      rw [found'] at size
      have same : bank'.size = bank.size := by simpa using size
      exact .inr (.inr ⟨bank', rfl, by omega⟩)

structure OnlyPlaces (m m' : Machine) : Prop where
  same : m' = { m with regs := m'.regs, fpRegs := m'.fpRegs, slots := m'.slots, params := m'.params }
  sizes : ∀ kind, (m'.bank? kind).map Array.size = (m.bank? kind).map Array.size

namespace OnlyPlaces

theorem refl (m : Machine) : OnlyPlaces m m := ⟨rfl, fun _ => rfl⟩

theorem trans (h : OnlyPlaces m m') (h' : OnlyPlaces m' m'') : OnlyPlaces m m'' := by
  refine ⟨?_, fun kind => (h'.sizes kind).trans (h.sizes kind)⟩
  have first := h.same
  generalize m'.regs = regs, m'.fpRegs = fpRegs, m'.slots = slots, m'.params = params at first
  rw [h'.same, first]

theorem target_eq (h : OnlyPlaces m m') : m'.target = m.target := by rw [h.same]

theorem accepts_kept (h : OnlyPlaces m m') (ok : m.Accepts l) : m'.Accepts l :=
  ok.of_same_sizes h.target_eq h.sizes

end OnlyPlaces

theorem bank_setBank {kind : Kind} {bank : Bank} (h : m.bank? kind = some bank)
    (bank' : Bank) (other : Kind) :
    (m.setBank kind bank').bank? other = if other = kind then some bank' else m.bank? other := by
  cases kind <;> cases other <;> simp_all [setBank, bank?]

theorem setBank_only {kind : Kind} {bank bank' : Bank} (h : m.bank? kind = some bank)
    (size : bank'.size = bank.size) : OnlyPlaces m (m.setBank kind bank') := by
  constructor
  · cases kind <;> rfl
  · intro other
    rw [bank_setBank h]
    split
    · rename_i same
      rw [same, h]
      simpa using size
    · rfl

theorem isReadOnly_eq_false :
    isReadOnly m.target l = false ↔
      l.isImmediate = false ∧ l.isInvalid = false ∧ m.target.isZeroReg l = false := by
  simp [isReadOnly, and_assoc]

theorem write_effect (h : m.write l w = .ok m') :
    OnlyPlaces m m' ∧ ∀ g j, m'.content g j =
      if j = l ∧ isReadOnly m.target l = false then some w else m.content g j := by
  unfold write at h
  split at h
  · rename_i zero
    obtain rfl : m = m' := by simpa using h
    refine ⟨.refl m, fun g j => ?_⟩
    simp [isReadOnly, zero]
  rename_i notZero
  have zero : m.target.isZeroReg l = false := by simpa using notZero
  split at h
  · rename_i bank found
    split at h
    · rename_i inside
      obtain rfl : m.setBank l.kind (bank.setIfInBounds l.index (some w)) = m' := by simpa using h
      have only : OnlyPlaces m (m.setBank l.kind (bank.setIfInBounds l.index (some w))) :=
        setBank_only found (by simp)
      refine ⟨only, fun g j => ?_⟩
      have writable : isReadOnly m.target l = false := by
        rw [isReadOnly_eq_false]
        cases hk : l.kind <;> simp_all [bank?, isImmediate, isInvalid]
      unfold content
      rw [only.target_eq, bank_setBank found]
      by_cases hj : j = l
      · subst hj
        simp [zero, writable, inside]
      · simp only [hj, false_and, ↓reduceIte]
        by_cases hk : j.kind = l.kind
        · have hi : l.index ≠ j.index := by
            intro same
            apply hj
            cases j
            cases l
            simp_all
          simp [hk, found, Array.getElem?_setIfInBounds_ne hi]
        · simp [hk]
    · simp at h
  · rename_i noBank
    split at h
    · simp at h
    · obtain rfl : m = m' := by simpa using h
      refine ⟨.refl m, fun g j => ?_⟩
      have fixed : isReadOnly m.target l = true := by
        cases hk : l.kind <;> simp_all [bank?, isInvalid, isReadOnly,
          isImmediate]
      simp [fixed]

theorem write_of_accepts (ok : m.Accepts l) (w : Word) : ∃ m', m.write l w = .ok m' := by
  unfold write
  rcases ok with zero | imm | ⟨bank, found, inside⟩
  · exact ⟨m, by rw [if_pos zero]⟩
  · have kind : l.kind = .immediate := by simpa [isImmediate] using imm
    split
    · exact ⟨m, rfl⟩
    · simp [kind, bank?, isInvalid]
  · split
    · exact ⟨m, rfl⟩
    · simp [found, inside]

theorem accepts_of_write (h : m.write l w = .ok m') : m.Accepts l := by
  unfold write at h
  split at h
  · rename_i zero
    exact .inl zero
  split at h
  · rename_i bank found
    split at h
    · rename_i inside
      exact .inr (.inr ⟨bank, found, inside⟩)
    · simp at h
  · rename_i noBank
    split at h
    · simp at h
    · rename_i valid
      refine .inr (.inl ?_)
      cases hk : l.kind <;> simp_all [bank?, isImmediate, isInvalid]

theorem forget_getElem (saved : RegisterSet) (bank : Bank) (n : Nat) :
    (forget saved bank)[n]?.join = if saved.contains n then none else bank[n]?.join := by
  unfold forget
  rw [Array.getElem?_mapIdx]
  cases bank[n]? with
  | none => simp
  | some cell =>
    simp only [Option.map_some, Option.join_some]

theorem clobber_effect (h : m.clobber g = .ok m') :
    OnlyPlaces m m' ∧ ∀ l, isReadOnly m.target l = true ∨
      isCallerSaved m.target l = false → m'.content g l = m.content g l := by
  unfold clobber at h
  split at h
  · simp at h
  rename_i cc found
  obtain rfl := Except.ok.inj h
  have only : OnlyPlaces m { m with
      regs := forget (cc.callerSaved .int) m.regs
      fpRegs := forget (cc.callerSaved .float) m.fpRegs } := by
    refine ⟨rfl, fun kind => ?_⟩
    cases kind <;> simp [bank?, forget]
  refine ⟨only, fun l kept => ?_⟩
  unfold content
  simp only
  split
  · rfl
  rename_i notZero
  cases hk : l.kind with
  | register =>
    have saved : (cc.callerSaved .int).contains l.index = false := by
      simpa [isReadOnly, isImmediate, isInvalid, hk, notZero,
        isCallerSaved, found, isRegister, isFpRegister] using kept
    simp [bank?, forget_getElem, saved]
  | fpRegister =>
    have saved : (cc.callerSaved .float).contains l.index = false := by
      simpa [isReadOnly, isImmediate, isInvalid, hk, notZero,
        isCallerSaved, found, isRegister, isFpRegister] using kept
    simp [bank?, forget_getElem, saved]
  | stackSlot => rfl
  | stackParameter => rfl
  | immediate => rfl
  | invalid => rfl

theorem writes_fill {moves : List (Move × Word)}
    (h : moves.foldlM (fun m p => m.write p.1.dst p.2) m = .ok m') :
    OnlyPlaces m m' ∧ ∀ l, (m.content g l).isSome → (m'.content g l).isSome := by
  refine foldlM_ok (P := fun n => OnlyPlaces m n ∧
    ∀ l, (m.content g l).isSome → (n.content g l).isSome) ?_ h ⟨.refl m, fun _ h => h⟩
  rintro p _ n n' ⟨only, filled⟩ wrote
  obtain ⟨only', contents⟩ := write_effect wrote
  refine ⟨only.trans only', fun l hl => ?_⟩
  rw [contents]
  split
  · rfl
  · exact filled l hl

theorem transfers_fill {moves : List Move} (h : moves.foldlM (transfer g) m = .ok m') :
    OnlyPlaces m m' ∧ ∀ l, (m.content g l).isSome → (m'.content g l).isSome := by
  refine foldlM_ok (P := fun n => OnlyPlaces m n ∧
    ∀ l, (m.content g l).isSome → (n.content g l).isSome) ?_ h ⟨.refl m, fun _ h => h⟩
  rintro mv _ n n' ⟨only, filled⟩ moved
  rw [transfer, bind_ok] at moved
  obtain ⟨w, _, wrote⟩ := moved
  obtain ⟨only', contents⟩ := write_effect wrote
  refine ⟨only.trans only', fun l hl => ?_⟩
  rw [contents]
  split
  · rfl
  · exact filled l hl

theorem moveGroup_fill {group : MoveGroup} (h : m.moveGroup g group = .ok m') :
    OnlyPlaces { m with groups := m.groups + 1 } m' ∧
      ∀ l, (m.content g l).isSome → (m'.content g l).isSome := by
  unfold moveGroup at h
  simp only at h
  split at h
  · exact transfers_fill h
  · rw [bind_ok] at h
    obtain ⟨words, _, h⟩ := h
    exact writes_fill h

theorem transfers_keep {moves : List Move} (h : moves.foldlM (transfer g) m = .ok m')
    (away : ∀ mv ∈ moves, mv.dst ≠ l) : m'.content g l = m.content g l := by
  refine foldlM_ok (P := fun n => n.content g l = m.content g l) ?_ h rfl
  intro mv hmv n n' kept moved
  rw [transfer, bind_ok] at moved
  obtain ⟨w, _, wrote⟩ := moved
  rw [(write_effect wrote).2, if_neg (fun here => away mv hmv here.1.symm), kept]

end Machine

end RegisterAllocation
