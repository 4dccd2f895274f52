import RegisterAllocation.Proofs.MoveCost
import RegisterAllocation.Proofs.Outcome

/-!
The places that a sequence of moves reads and writes: those of the group it comes from, and scratch
places where values go around in a ring.
-/

namespace RegisterAllocation

namespace MoveGroup

namespace Schedule

variable {readOnly : Location → Bool} {temps : List Location} {moves : List Move} {o : Schedule}
  {l : Location}

def Written (temps : List Location) (moves : List Move) (l : Location) : Prop :=
  l ∈ temps ∨ ∃ m ∈ moves, m.dst = l

def Touched (temps : List Location) (moves : List Move) (l : Location) : Prop :=
  Written temps moves l ∨ ∃ m ∈ moves, m.src = l

structure Within (temps : List Location) (moves : List Move) (o : Schedule) : Prop where
  pending : o.pending ⊆ moves
  copies : ∀ l c, o.copies.lookup l = some c → Written temps moves c
  done : ∀ m ∈ o.done, Touched temps moves m.src ∧ Written temps moves m.dst

namespace Within

variable (within : Within temps moves o)

include within

theorem current_touched (touched : Touched temps moves l) :
    Touched temps moves (o.current l) := by
  unfold current
  cases copied : o.copies.lookup l with
  | none => exact touched
  | some c => exact .inl (within.copies l c copied)

theorem after_chain (bound : Nat) (l : Location) :
    Within temps moves (chain readOnly bound l o) := by
  induction bound generalizing l o with
  | zero => exact within
  | succ bound ih =>
    unfold chain
    cases found : o.writer? l with
    | none => exact within
    | some m =>
      have member := within.pending (writer_some found).1
      have read : Touched temps moves m.src := .inr ⟨m, member, rfl⟩
      have written : Written temps moves m.dst := .inr ⟨m, member, rfl⟩
      have fewer : o.pending.erase m ⊆ moves := fun n among =>
        within.pending (List.mem_of_mem_erase among)
      dsimp only
      split
      · refine ⟨fewer, within.copies, fun n among => ?_⟩
        rcases List.mem_cons.mp among with rfl | among
        · exact ⟨read, written⟩
        · exact within.done n among
      · refine ih ⟨fewer, fun k c copied => ?_, fun n among => ?_⟩ m.src
        · rw [lookup_cons] at copied
          split at copied
          · exact Option.some.inj copied ▸ written
          · exact within.copies k c copied
        · rcases List.mem_cons.mp among with rfl | among
          · exact ⟨within.current_touched read, written⟩
          · exact within.done n among

theorem after_release (l : Location) :
    Within temps moves (release readOnly o l) := by
  unfold release
  split
  · exact within.after_chain _ l
  · exact within

theorem after_breakCycle {temp : ValueType → Location}
    (isTemp : ∀ ty, temp ty ∈ temps) (readType : Location → ValueType) (l : Location) :
    Within temps moves (breakCycle readOnly temp readType o l) := by
  unfold breakCycle
  split
  swap
  · exact within
  rename_i some
  obtain ⟨m, found⟩ := Option.isSome_iff_exists.mp some
  obtain ⟨pending, isDst⟩ := writer_some found
  have written : Written temps moves l := .inr ⟨m, within.pending pending, isDst⟩
  apply after_chain
  refine ⟨within.pending, fun k c copied => ?_, fun n among => ?_⟩
  · rw [lookup_cons] at copied
    split at copied
    · exact Option.some.inj copied ▸ .inl (isTemp _)
    · exact within.copies k c copied
  · rcases List.mem_cons.mp among with rfl | among
    · exact ⟨within.current_touched (.inl written), .inl (isTemp _)⟩
    · exact within.done n among

end Within

end Schedule

open Schedule

variable {shape : StackShape} {target : Target} {group sequence : MoveGroup} {moves : List Move}
  {m : Move}

theorem order_within (target : Target) (moves : List Move) : ∀ m ∈ order target moves,
    Touched (scratchPlaces target) moves m.src ∧ Written (scratchPlaces target) moves m.dst := by
  have start : Within (scratchPlaces target) moves ⟨moves, [], []⟩ :=
    ⟨List.Subset.refl _, by simp, by simp⟩
  have chains := List.foldlRecOn (moves.foldr (fun m => insertLocation m.dst) [])
    (Schedule.release (isReadOnly target)) start fun o within l _ => within.after_release l
  have cycles := List.foldlRecOn (moves.foldr (fun m => insertLocation m.dst) [])
    (Schedule.breakCycle (isReadOnly target) (scratch target) (readType moves)) chains
    fun o within l _ => within.after_breakCycle (scratch_mem target) (readType moves) l
  intro m member
  exact cycles.done m (List.mem_reverse.mp member)

theorem checkPlaces_inv {written : List Location} {u : Unit}
    (run : checkPlaces shape target written moves = .ok u) :
    (moves.map Move.dst).Nodup ∧ ∀ m ∈ moves, m.dst ∉ written ∧
      shape.isPlace target m.dst = .ok true ∧ ∃ known, shape.isPlace target m.src = .ok known := by
  induction moves generalizing written with
  | nil => simp
  | cons m rest ih =>
    simp only [checkPlaces, bind_ok] at run
    obtain ⟨place, isPlace, run⟩ := run
    cases place with
    | false =>
      obtain ⟨_, thrown, -⟩ := bind_ok.mp run
      cases thrown
    | true =>
      simp only [↓reduceIte, bind_ok, ensure_ok] at run
      obtain ⟨_, new, known, isKnown, run⟩ := run
      obtain ⟨once, each⟩ := ih run
      refine ⟨List.nodup_cons.mpr ⟨fun again => ?_, once⟩, fun n member => ?_⟩
      · obtain ⟨n, member, same⟩ := List.mem_map.mp again
        exact (each n member).1 (same ▸ List.mem_cons_self)
      · rcases List.mem_cons.mp member with rfl | member
        · exact ⟨new, isPlace, known, isKnown⟩
        · exact ⟨fun old => (each n member).1 (List.mem_cons_of_mem _ old), (each n member).2⟩

/-- A sequence has the moves of its group in order. They have different destinations, all of which
can be written. -/
theorem sequence_ok (run : group.sequence shape target = .ok sequence) :
    sequence = { group with moves := order target (proper group.moves), sequenced := true } ∧
      ((proper group.moves).map Move.dst).Nodup ∧
      ∀ m ∈ proper group.moves, isReadOnly target m.dst = false := by
  simp only [MoveGroup.sequence, bind_ok, ensure_ok, pure_ok] at run
  obtain ⟨_, -, _, -, _, checked, rfl⟩ := run
  obtain ⟨once, each⟩ := checkPlaces_inv checked
  refine ⟨rfl, once, fun m member => ?_⟩
  have isPlace := (each m member).2.1
  unfold StackShape.isPlace at isPlace
  split at isPlace <;> rename_i kind
  · split at isPlace
    · simp at isPlace
    · rename_i notZero
      simp [isReadOnly, Location.isImmediate, Location.isInvalid, kind, notZero]
  all_goals
    simp_all [isReadOnly, Location.isImmediate, Location.isInvalid, Target.isZeroReg,
      Location.isRegister]

theorem sequence_ring (run : group.sequence shape target = .ok sequence)
    (apart : ∀ m ∈ proper group.moves, m.dst ∉ scratchPlaces target) (member : m ∈ sequence.moves)
    (isScratch : m.dst ∈ scratchPlaces target) :
    (isolatedRings (proper group.moves)).Nonempty := by
  obtain ⟨rfl, once, writable⟩ := sequence_ok run
  obtain ⟨used, count, -, same⟩ := order_destinations target ⟨once, writable, apart⟩
  have written : m.dst ∈ used ++ (proper group.moves).map Move.dst :=
    same.mem_iff.mp (List.mem_map_of_mem member)
  apply Set.nonempty_of_ncard_ne_zero
  rw [← count]
  rcases List.mem_append.mp written with isUsed | isDst
  · exact (List.length_pos_of_mem isUsed).ne'
  · obtain ⟨n, among, isDst⟩ := List.mem_map.mp isDst
    exact absurd (isDst ▸ isScratch) (apart n among)

end MoveGroup

end RegisterAllocation
