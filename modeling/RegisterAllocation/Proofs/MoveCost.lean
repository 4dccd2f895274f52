import Mathlib.Data.List.Cycle
import Mathlib.Data.Set.Card
import RegisterAllocation.Proofs.MoveSequence

/-!
What a sequence of moves costs. Every move of a group is done once. Where the moves hand values
round in a ring that nothing else reads from, one value has to be saved first; a ring with another
reader is opened by that reader's copy.
-/

namespace RegisterAllocation

open List Option

namespace MoveGroup

def Feeds (moves : List Move) (dst src : Location) : Prop :=
  ∃ m ∈ moves, m.dst = dst ∧ m.src = src

/-- Places each of which is fed from the next one, and the last from the first. -/
structure Ring (moves : List Move) (ring : Cycle Location) : Prop where
  filled : ring ≠ Cycle.nil
  once : ring.Nodup
  fed : ring.Chain (Feeds moves)

def rings (moves : List Move) : Set (Cycle Location) := {ring | Ring moves ring}

/-- The rings of which every place is read by one move only. -/
def isolatedRings (moves : List Move) : Set (Cycle Location) :=
  {ring | Ring moves ring ∧ ∀ l ∈ ring, ∃! m, m ∈ moves ∧ m.src = l}

namespace Ring

variable {moves moves' : List Move} {ring other : Cycle Location} {l : Location}

section

variable (isRing : Ring moves ring)

include isRing

theorem exists_mem : ∃ l, l ∈ ring := by
  have filled := isRing.filled
  induction ring with
  | nil => exact absurd rfl filled
  | cons l rest _ => exact ⟨l, by simp⟩

theorem exists_walk (member : l ∈ ring) : ∃ rest : List Location,
    ring = (l :: rest : List Location) ∧ (l :: rest).Nodup ∧
      (l :: (rest ++ [l])).IsChain (Feeds moves) := by
  obtain ⟨rest, rfl⟩ : ∃ rest : List Location, ring = (l :: rest : List Location) := by
    induction ring using Quotient.inductionOn' with
    | h places =>
      obtain ⟨before, after, rfl⟩ := append_of_mem (Cycle.mem_coe_iff.mp member)
      exact ⟨after ++ before, Cycle.coe_eq_coe.mpr isRotated_append⟩
  exact ⟨rest, rfl, Cycle.nodup_coe_iff.mp isRing.once,
    (Cycle.chain_coe_cons _ _ _).mp isRing.fed⟩

theorem exists_source (member : l ∈ ring) : ∃ k ∈ ring, Feeds moves l k := by
  obtain ⟨rest, rfl, -, fed⟩ := isRing.exists_walk member
  cases rest with
  | nil => exact ⟨l, member, (isChain_cons_cons.mp fed).1⟩
  | cons k rest => exact ⟨k, by simp, (isChain_cons_cons.mp fed).1⟩

theorem exists_reader (member : l ∈ ring) : ∃ k ∈ ring, Feeds moves k l := by
  obtain ⟨rest, rfl, -, fed⟩ := isRing.exists_walk member
  have last : l :: (rest ++ [l]) = (l :: rest) ++ [l] := rfl
  rw [last, isChain_append] at fed
  refine ⟨(l :: rest).getLast (by simp), ?_, fed.2.2 _ ?_ l rfl⟩
  · exact Cycle.mem_coe_iff.mpr (getLast_mem _)
  · exact getLast_mem_getLast? _

theorem of_feeds
    (kept : ∀ l ∈ ring, ∀ k, Feeds moves l k → Feeds moves' l k) : Ring moves' ring := by
  refine ⟨isRing.filled, isRing.once, ?_⟩
  have := isRing.filled
  induction ring with
  | nil => contradiction
  | cons l rest _ =>
    refine List.IsChain.imp_of_mem_imp ?_ ((Cycle.chain_coe_cons _ _ _).mp isRing.fed)
    intro a b memberA _ feeds
    refine kept a ?_ b feeds
    simp only [mem_cons, mem_append, not_mem_nil, or_false] at memberA
    exact Cycle.mem_coe_iff.mpr (by grind)

end

theorem walk_unique (single : ∀ l j k, Feeds moves l j → Feeds moves l k → j = k)
    {rest rest' : List Location} {first : Location}
    (walk : (l :: (rest ++ [first])).IsChain (Feeds moves))
    (walk' : (l :: (rest' ++ [first])).IsChain (Feeds moves)) (fresh : first ∉ rest)
    (fresh' : first ∉ rest') : rest = rest' := by
  induction rest generalizing l rest' with
  | nil =>
    cases rest' with
    | nil => rfl
    | cons k rest' =>
      have back := single _ _ _ (isChain_cons_cons.mp walk).1
        (isChain_cons_cons.mp walk').1
      exact absurd (back ▸ mem_cons_self) fresh'
  | cons j rest ih =>
    obtain ⟨feeds, walk⟩ := isChain_cons_cons.mp walk
    cases rest' with
    | nil =>
      have back := single _ _ _ feeds (isChain_cons_cons.mp walk').1
      exact absurd (back ▸ mem_cons_self) fresh
    | cons k rest' =>
      obtain ⟨feeds', walk'⟩ := isChain_cons_cons.mp walk'
      obtain rfl := single _ _ _ feeds feeds'
      rw [ih walk walk' (fun member => fresh (mem_cons_of_mem j member))
        fun member => fresh' (mem_cons_of_mem j member)]

theorem eq_of_shared (single : ∀ l j k, Feeds moves l j → Feeds moves l k → j = k)
    (isRing : Ring moves ring) (isOther : Ring moves other) (member : l ∈ ring)
    (shared : l ∈ other) : ring = other := by
  obtain ⟨rest, rfl, once, fed⟩ := isRing.exists_walk member
  obtain ⟨rest', rfl, once', fed'⟩ := isOther.exists_walk shared
  rw [walk_unique single fed fed' (nodup_cons.mp once).1 (nodup_cons.mp once').1]

end Ring

namespace Schedule

variable {readOnly : Location → Bool} {moves : List Move} {temps : List Location} {o : Schedule}
  {l first : Location} {ring : Cycle Location}

theorem Admissible.feeds_unique (a : Admissible readOnly temps moves) (fewer : o.pending ⊆ moves)
    (l j k : Location) (feeds : Feeds o.pending l j) (feeds' : Feeds o.pending l k) : j = k := by
  obtain ⟨m, memberM, isDst, rfl⟩ := feeds
  obtain ⟨n, memberN, isDst', rfl⟩ := feeds'
  rw [a.same_writer (fewer memberM) (fewer memberN) (isDst.trans isDst'.symm)]

def destinations (o : Schedule) : List Location := o.done.map Move.dst ++ o.pending.map Move.dst

theorem chain_destinations (readOnly : Location → Bool) (bound : Nat) (l : Location)
    (o : Schedule) : (chain readOnly bound l o).destinations.Perm o.destinations := by
  induction bound generalizing l o with
  | zero => exact .refl _
  | succ bound ih =>
    unfold chain
    cases found : o.writer? l with
    | none => exact .refl _
    | some m =>
      have moved : (m.dst :: o.done.map Move.dst ++ (o.pending.erase m).map Move.dst).Perm
          o.destinations :=
        (perm_middle.symm).trans
          (((perm_cons_erase (writer_some found).1).map Move.dst).symm.append_left _)
      dsimp only
      split
      · exact moved
      · exact (ih _ _).trans moved

/-- Whatever a done move has read is written by a done move, if at all. A chain that has come to `l`
still has to see to that place. -/
def Followed (readOnly : Location → Bool) (moves : List Move) (o : Schedule)
    (l : Option Location) : Prop :=
  ∀ m ∈ moves, m ∉ o.pending → readOnly m.src = false → some m.src ≠ l →
    ∀ n ∈ o.pending, n.dst ≠ m.src

theorem chain_followed (a : Admissible readOnly temps moves) (bound : Nat) (l : Location)
    (o : Schedule) (fewer : o.pending.Sublist moves) (enough : o.pending.length ≤ bound)
    (followed : Followed readOnly moves o (some l)) :
    Followed readOnly moves (chain readOnly bound l o) none := by
  induction bound generalizing l o with
  | zero =>
    intro m _ _ _ _ n pending
    rw [chain, length_eq_zero_iff.mp (Nat.le_zero.mp enough)] at pending
    cases pending
  | succ bound ih =>
    unfold chain
    cases found : o.writer? l with
    | none =>
      intro m member ended writable _ n pending
      by_cases here : m.src = l
      · rw [here]
        exact writer_none found n pending
      · exact followed m member ended writable (fun same => here (some.inj same)) n pending
    | some m =>
      obtain ⟨hm, rfl⟩ := writer_some found
      have erased : ∀ n, n ∈ o.pending.erase m ↔ n ≠ m ∧ n ∈ o.pending := fun n =>
        (a.moves_nodup.sublist fewer).mem_erase_iff
      -- whoever has read the place just written, is seen to by that
      have next : ∀ n ∈ moves, n ∉ o.pending.erase m → readOnly n.src = false → n ≠ m →
          ∀ x ∈ o.pending.erase m, x.dst ≠ n.src := by
        intro n member ended writable other x pending
        obtain ⟨apart, pending⟩ := (erased x).mp pending
        have before : n ∉ o.pending := fun still => ended ((erased n).mpr ⟨other, still⟩)
        by_cases here : n.src = m.dst
        · rw [here]
          exact fun same => apart (a.same_writer (fewer.subset pending) (fewer.subset hm) same)
        · exact followed n member before writable (fun same => here (some.inj same)) x pending
      dsimp only
      split
      · rename_i fixed
        intro n member ended writable _ x pending
        refine next n member ended writable ?_ x pending
        rintro rfl
        simp [fixed] at writable
      · refine ih _ _ (erase_sublist.trans fewer) ?_ ?_
        · have := length_erase_of_mem hm
          have := length_pos_of_mem hm
          simp only
          omega
        · intro n member ended writable other x pending
          refine next n member ended writable ?_ x pending
          rintro rfl
          exact other rfl

def Intact (moves : List Move) (ring : Cycle Location) (o : Schedule) : Prop :=
  ∀ m ∈ moves, m.dst ∈ ring → m ∈ o.pending

theorem chain_intact (isolated : ring ∈ isolatedRings moves) (bound : Nat) (l : Location)
    (o : Schedule) (fewer : o.pending.Sublist moves) (outside : l ∉ ring)
    (intact : Intact moves ring o) : Intact moves ring (chain readOnly bound l o) := by
  induction bound generalizing l o with
  | zero => exact intact
  | succ bound ih =>
    unfold chain
    cases found : o.writer? l with
    | none => exact intact
    | some m =>
      obtain ⟨hm, rfl⟩ := writer_some found
      have kept : ∀ n ∈ moves, n.dst ∈ ring → n ∈ o.pending.erase m := by
        intro n member inside
        refine (mem_erase_of_ne ?_).mpr (intact n member inside)
        rintro rfl
        exact outside inside
      dsimp only
      split
      · exact kept
      · refine ih _ _ (erase_sublist.trans fewer) (fun inside => outside ?_) kept
        -- the reader of a place of the ring is the one in the ring
        obtain ⟨k, isIn, n, member, rfl, reads⟩ := isolated.1.exists_reader inside
        obtain ⟨_, -, only⟩ := isolated.2 _ inside
        have same : m = n :=
          (only m ⟨fewer.subset hm, rfl⟩).trans (only n ⟨member, reads⟩).symm
        exact same ▸ isIn

variable (a : Admissible readOnly temps moves)

include a

theorem release_steps (l : Location)
    (fewer : o.pending.Sublist moves) (followed : Followed readOnly moves o none)
    (intact : ∀ ring ∈ isolatedRings moves, Intact moves ring o) :
    (release readOnly o l).destinations.Perm o.destinations ∧
      (release readOnly o l).pending.Sublist moves ∧
      Followed readOnly moves (release readOnly o l) none ∧
      ∀ ring ∈ isolatedRings moves, Intact moves ring (release readOnly o l) := by
  unfold release
  split
  · rename_i start
    simp only [Bool.and_eq_true, Bool.not_eq_true'] at start
    refine ⟨chain_destinations .., (chain_pending ..).trans fewer,
      chain_followed a _ _ _ fewer (Nat.le_refl _) fun m member ended writable _ =>
        followed m member ended writable nofun, fun ring isolated =>
        chain_intact isolated _ _ _ fewer (fun inside => ?_) (intact ring isolated)⟩
    obtain ⟨k, isIn, n, member, rfl, reads⟩ := isolated.1.exists_reader inside
    have read := isRead_iff.mpr ⟨n, intact ring isolated n member isIn, reads⟩
    simp [start.2] at read
  · exact ⟨.refl _, fewer, followed, intact⟩

theorem release_all (places : List Location)
    (fewer : o.pending.Sublist moves) (followed : Followed readOnly moves o none)
    (intact : ∀ ring ∈ isolatedRings moves, Intact moves ring o) :
    (places.foldl (release readOnly) o).destinations.Perm o.destinations ∧
      (places.foldl (release readOnly) o).pending.Sublist moves ∧
      Followed readOnly moves (places.foldl (release readOnly) o) none ∧
      ∀ ring ∈ isolatedRings moves, Intact moves ring (places.foldl (release readOnly) o) := by
  induction places generalizing o with
  | nil => exact ⟨.refl _, fewer, followed, intact⟩
  | cons l rest ih =>
    obtain ⟨same, fewer, followed, intact⟩ := release_steps a l fewer followed intact
    obtain ⟨same', rest⟩ := ih fewer followed intact
    exact ⟨same'.trans same, rest⟩

theorem isolated_iff (fewer : o.pending.Sublist moves) (followed : Followed readOnly moves o none)
    (intact : ∀ ring ∈ isolatedRings moves, Intact moves ring o) (balanced : Balanced o) :
    isolatedRings moves = rings o.pending := by
  have onceSrc : (o.pending.map Move.src).Nodup :=
    balanced.nodup_iff.mpr (a.once.sublist (fewer.map _))
  ext ring
  constructor
  · intro isolated
    refine isolated.1.of_feeds ?_
    rintro l inside k ⟨m, member, rfl, rfl⟩
    exact ⟨m, intact ring isolated m member inside, rfl, rfl⟩
  · intro isRing
    refine ⟨isRing.of_feeds ?_, fun l inside => ?_⟩
    · rintro l inside k ⟨m, pending, facts⟩
      exact ⟨m, fewer.subset pending, facts⟩
    · obtain ⟨k, -, m, pending, -, reads⟩ := isRing.exists_reader inside
      obtain ⟨-, -, n, written, isDst, -⟩ := isRing.exists_source inside
      refine ⟨m, ⟨fewer.subset pending, reads⟩, ?_⟩
      rintro x ⟨member, readsX⟩
      have still : x ∈ o.pending := by
        by_contra ended
        have writable : readOnly x.src = false := by
          rw [readsX, ← isDst]
          exact a.writable n (fewer.subset written)
        exact followed x member ended writable nofun n written (isDst.trans readsX.symm)
      exact inj_on_of_nodup_map onceSrc still pending (readsX.trans reads.symm)

/-- Where the moves form rings, a chain goes through one of them. It does the moves to the places on
its way, up to the place `first` that the last of them reads. -/
theorem chain_path (bound : Nat) (l first : Location)
    (o : Schedule) (fewer : o.pending.Sublist moves) (enough : o.pending.length ≤ bound)
    (writableFirst : readOnly first = false)
    (balance : (l :: o.pending.map Move.src).Perm (first :: o.pending.map Move.dst)) :
    ∃ path : List Location, path.Nodup ∧ (∀ k ∈ path, ∃ m ∈ o.pending, m.dst = k) ∧
      (∀ m ∈ o.pending, m.dst = l → l ∈ path) ∧
      (path ++ [first]).head? = some l ∧ (path ++ [first]).IsChain (Feeds o.pending) ∧
      ∀ m, m ∈ (chain readOnly bound l o).pending ↔ m ∈ o.pending ∧ m.dst ∉ path := by
  induction bound generalizing l o with
  | zero =>
    have none := length_eq_zero_iff.mp (Nat.le_zero.mp enough)
    obtain rfl : l = first := by simpa [none] using balance
    exact ⟨[], .nil, nofun, by simp [none], rfl, by simp, by simp [chain]⟩
  | succ bound ih =>
    unfold chain
    cases found : o.writer? l with
    | none =>
      obtain rfl := balance_end found balance
      exact ⟨[], .nil, nofun, fun m hm same => absurd same (writer_none found m hm), rfl, by simp,
        by simp⟩
    | some m =>
      obtain ⟨hm, rfl⟩ := writer_some found
      have erased : ∀ n, n ∈ o.pending.erase m ↔ n ≠ m ∧ n ∈ o.pending := fun n =>
        (a.moves_nodup.sublist fewer).mem_erase_iff
      have next := balance_erase hm balance
      have writable : ¬readOnly m.src = true :=
        a.balance_writable (fun n hn => fewer.subset (mem_of_mem_erase hn)) writableFirst next
      dsimp only
      rw [if_neg writable]
      obtain ⟨path, once, written, -, isHead, fed, left⟩ := ih m.src
        { pending := o.pending.erase m
          copies := (m.src, m.dst) :: o.copies
          done := { m with src := o.current m.src } :: o.done }
        (erase_sublist.trans fewer)
        (by
          have := length_erase_of_mem hm
          have := length_pos_of_mem hm
          simp only
          omega) next
      have fresh : m.dst ∉ path := by
        intro member
        obtain ⟨n, pending, same⟩ := written m.dst member
        obtain ⟨apart, pending⟩ := (erased n).mp pending
        exact apart (a.same_writer (fewer.subset pending) (fewer.subset hm) same)
      refine ⟨m.dst :: path, nodup_cons.mpr ⟨fresh, once⟩, ?_,
        fun _ _ _ => mem_cons_self, rfl, ?_, ?_⟩
      · intro k member
        rcases mem_cons.mp member with rfl | later
        · exact ⟨m, hm, rfl⟩
        · obtain ⟨n, pending, same⟩ := written k later
          exact ⟨n, ((erased n).mp pending).2, same⟩
      · refine isChain_cons.mpr ⟨?_, fed.imp ?_⟩
        · intro k isNext
          obtain rfl := mem_unique isHead isNext
          exact ⟨m, hm, rfl, rfl⟩
        · rintro j k ⟨n, pending, facts⟩
          exact ⟨n, ((erased n).mp pending).2, facts⟩
      · intro n
        rw [left, erased]
        constructor
        · rintro ⟨⟨apart, pending⟩, outside⟩
          refine ⟨pending, ?_⟩
          simp only [mem_cons, not_or]
          exact ⟨fun same => apart (a.same_writer (fewer.subset pending) (fewer.subset hm) same),
            outside⟩
        · rintro ⟨pending, outside⟩
          simp only [mem_cons, not_or] at outside
          refine ⟨⟨?_, pending⟩, outside.2⟩
          rintro rfl
          exact outside.1 rfl

theorem breakCycle_ring (temp : ValueType → Location)
    (readType : Location → ValueType) (fewer : o.pending.Sublist moves) (balanced : Balanced o)
    {m : Move} (found : o.writer? l = some m) :
    let next := breakCycle readOnly temp readType o l
    next.destinations.Perm (temp (readType l) :: o.destinations) ∧
      ∃ ring, rings o.pending = insert ring (rings next.pending) ∧
        ring ∉ rings next.pending := by
  intro next
  obtain ⟨hm, rfl⟩ := writer_some found
  obtain ⟨start, isNext, samePending, sameDestinations⟩ : ∃ start : Schedule,
      next = chain readOnly start.pending.length m.dst start ∧ start.pending = o.pending ∧
      start.destinations = temp (readType m.dst) :: o.destinations := by
    simp only [next, breakCycle, found, isSome_some, if_true]
    exact ⟨{ o with
      copies := (m.dst, temp (readType m.dst)) :: o.copies
      done := ⟨o.current m.dst, temp (readType m.dst), readType m.dst⟩ :: o.done }, rfl, rfl, rfl⟩
  rw [← samePending] at fewer hm
  have balance : Balanced start := by
    rw [Balanced, samePending]
    exact balanced
  obtain ⟨path, once, written, started, isHead, fed, left⟩ := chain_path a _ m.dst m.dst start fewer
    (Nat.le_refl _) (a.writable m (fewer.subset hm)) (balance.cons m.dst)
  rw [← isNext] at left
  obtain ⟨rest, rfl⟩ : ∃ rest, path = m.dst :: rest := by
    cases path with
    | nil => exact absurd (started m hm rfl) not_mem_nil
    | cons k rest => exact ⟨rest, by simpa using isHead⟩
  have isRing : Ring start.pending (m.dst :: rest : List Location) :=
    ⟨by simp, Cycle.nodup_coe_iff.mpr once, (Cycle.chain_coe_cons _ _ _).mpr fed⟩
  have apart : ∀ ring, Ring next.pending ring → ∀ k ∈ ring, k ∉ m.dst :: rest := by
    intro ring isRing k member
    obtain ⟨-, -, n, pending, rfl, -⟩ := isRing.exists_source member
    exact ((left n).mp pending).2
  refine ⟨?_, (m.dst :: rest : List Location), ?_, ?_⟩
  · rw [isNext, ← sameDestinations]
    exact chain_destinations ..
  · rw [← samePending]
    ext ring
    rw [Set.mem_insert_iff]
    constructor
    · intro (isOther : Ring start.pending ring)
      refine or_iff_not_imp_left.mpr fun other => isOther.of_feeds ?_
      rintro k inside j ⟨n, pending, rfl, rfl⟩
      refine ⟨n, (left n).mpr ⟨pending, fun onPath => other ?_⟩, rfl, rfl⟩
      exact isOther.eq_of_shared (a.feeds_unique fewer.subset) isRing inside
        (Cycle.mem_coe_iff.mpr onPath)
    · rintro (rfl | isOther)
      · exact isRing
      · refine isOther.of_feeds ?_
        rintro k - j ⟨n, pending, facts⟩
        exact ⟨n, ((left n).mp pending).1, facts⟩
  · intro isLeft
    exact apart _ isLeft m.dst (by simp) mem_cons_self

theorem breakCycle_all {temp : ValueType → Location}
    (free : ∀ ty, temp ty ∈ temps) (readType : Location → ValueType) (places : List Location)
    {s : Store Unit} (f : Faithful readOnly temps moves s o) (balanced : Balanced o)
    (saved : Saved temps o none) (all : ∀ m ∈ o.pending, m.dst ∈ places) :
    (rings o.pending).Finite ∧ ∃ used : List Location,
      used.length = (rings o.pending).ncard ∧ (∀ l ∈ used, l ∈ temps) ∧
      ((places.foldl (breakCycle readOnly temp readType) o).done.map Move.dst).Perm
        (used ++ o.destinations) := by
  induction places generalizing o with
  | nil =>
    have none : o.pending = [] := eq_nil_iff_forall_not_mem.mpr fun m hm => by
      simpa using all m hm
    have noRing : rings o.pending = ∅ := by
      refine Set.eq_empty_iff_forall_notMem.mpr fun ring isRing => ?_
      obtain ⟨l, member⟩ := Ring.exists_mem isRing
      obtain ⟨-, -, m, hm, -⟩ := Ring.exists_source isRing member
      simp [none] at hm
    rw [noRing]
    exact ⟨Set.finite_empty, [], by simp, by simp, by simp [destinations, none]⟩
  | cons l rest ih =>
    obtain ⟨faithful, even, kept, fewer, done⟩ :=
      breakCycle_faithful a free readType f balanced saved l
    obtain ⟨finite, used, count, isTemp, same⟩ := ih faithful even kept fun m hm =>
      (mem_cons.mp (all m (fewer.subset hm))).resolve_left (done m hm)
    cases found : o.writer? l with
    | none =>
      have still : breakCycle readOnly temp readType o l = o := by
        simp only [breakCycle, found, isSome_none, Bool.false_eq_true, if_false]
      rw [still] at finite count same
      rw [foldl_cons, still]
      exact ⟨finite, used, count, isTemp, same⟩
    | some m =>
      obtain ⟨moved, ring, isRing, fresh⟩ := breakCycle_ring a temp readType f.remaining
        balanced found
      rw [isRing, Set.ncard_insert_of_notMem fresh finite]
      refine ⟨finite.insert ring, temp (readType l) :: used, by simp [count], ?_, ?_⟩
      · intro k member
        rcases mem_cons.mp member with rfl | member
        · exact free _
        · exact isTemp k member
      · exact (same.trans (moved.append_left used)).trans perm_middle

end Schedule

open Schedule

theorem order_destinations (target : Target) {moves : List Move}
    (a : Admissible (isReadOnly target) (scratchPlaces target) moves) :
    ∃ used : List Location, used.length = (isolatedRings moves).ncard ∧
      (∀ l ∈ used, l ∈ scratchPlaces target) ∧
      ((order target moves).map Move.dst).Perm (used ++ moves.map Move.dst) := by
  have start : Faithful (isReadOnly target) (scratchPlaces target) moves (fun _ => ())
      ⟨moves, [], []⟩ :=
    ⟨.refl _, fun m hm ended => absurd hm ended, fun l _ _ => rfl, fun m _ => rfl, nofun⟩
  have listed : ∀ m ∈ moves, m.dst ∈ moves.foldr (fun m => insertLocation m.dst) [] :=
    fun m hm => mem_places.mpr ⟨m, hm, rfl⟩
  obtain ⟨same, fewer, followed, intact⟩ :=
    release_all a (moves.foldr (fun m => insertLocation m.dst) []) (o := ⟨moves, [], []⟩)
      (.refl _) (fun m hm ended => absurd hm ended) fun _ _ m hm _ => hm
  obtain ⟨faithful, read, saved⟩ :=
    faithful_releases a (moves.foldr (fun m => insertLocation m.dst) []) [] start nofun nofun
  have balanced := balanced_of_allRead a faithful read fun m hm => by simpa using listed m hm
  obtain ⟨-, used, count, isTemp, moved⟩ := breakCycle_all a (scratch_mem target) (readType moves)
    (moves.foldr (fun m => insertLocation m.dst) []) faithful balanced saved
    fun m hm => listed m (fewer.subset hm)
  rw [isolated_iff a fewer followed intact balanced]
  refine ⟨used, count, isTemp, ?_⟩
  rw [order, map_reverse]
  exact ((reverse_perm _).trans moved).trans (same.append_left used)

variable {shape : StackShape} {target : Target}

theorem numPlaces_overflow
    (large : wordLimit ≤ target.intRegs + target.floatRegs + shape.slots + shape.params) :
    shape.numPlaces target = .error .overflow := by
  simp only [StackShape.numPlaces, addWord]
  split
  · simp only [bind, Except.bind]
    rw [if_neg (by omega)]
  · rfl

/-- A group can be sequenced in every frame whose places can be numbered. The sequence consists of a
move to each destination, and of one more for each isolated ring, to a scratch place. -/
theorem sequence_cost (target : Target) (shape : StackShape) (group : MoveGroup)
    (unordered : group.sequenced = false)
    (ranges : ∀ m ∈ group.moves, m.src ≠ m.dst →
      shape.Readable target m.src ∧ shape.Writable target m.dst ∧ m.dst ∉ scratchPlaces target)
    (once : ((proper group.moves).map Move.dst).Nodup) :
    ((∃ sequence, group.sequence shape target = .ok sequence) ↔
      target.intRegs + target.floatRegs + shape.slots + shape.params < wordLimit) ∧
    ∀ sequence, group.sequence shape target = .ok sequence → sequence.sequenced = true ∧
      sequence.moves.length =
        (proper group.moves).length + (isolatedRings (proper group.moves)).ncard ∧
      (∀ m ∈ proper group.moves, (sequence.moves.map Move.dst).count m.dst = 1) ∧
      sequence.moves.countP (·.dst ∈ scratchPlaces target) =
        (isolatedRings (proper group.moves)).ncard := by
  have bounds : ∀ m ∈ proper group.moves,
      shape.Readable target m.src ∧ shape.Writable target m.dst ∧ m.dst ∉ scratchPlaces target :=
    fun m hm => ranges m (mem_proper.mp hm).1 (mem_proper.mp hm).2
  have checked := checkPlaces_ok [] once (fun _ _ => not_mem_nil)
    fun m hm => ⟨(bounds m hm).1, (bounds m hm).2.1⟩
  simp only [proper] at checked
  have admissible : Admissible (isReadOnly target) (scratchPlaces target) (proper group.moves) :=
    ⟨once, fun m hm => StackShape.not_readOnly_of_writable (bounds m hm).2.1,
      fun m hm => (bounds m hm).2.2⟩
  by_cases fits : target.intRegs + target.floatRegs + shape.slots + shape.params < wordLimit
  · have run : group.sequence shape target =
        .ok { group with moves := order target (proper group.moves), sequenced := true } := by
      simp [sequence, unordered, ensure, StackShape.numPlaces_of_fits fits, checked, bind,
        Except.bind, pure, Except.pure, proper]
    refine ⟨⟨fun _ => fits, fun _ => ⟨_, run⟩⟩, ?_⟩
    rintro sequence isSequence
    obtain rfl := Except.ok.inj (run.symm.trans isSequence)
    obtain ⟨used, count, isTemp, same⟩ := order_destinations target admissible
    refine ⟨rfl, ?_, ?_, ?_⟩
    · have := same.length_eq
      simp only [length_map, length_append, count] at this
      simp only [this, Nat.add_comm]
    · intro m hm
      have unused : m.dst ∉ used := fun member => admissible.apart m hm (isTemp _ member)
      rw [same.count_eq, count_append, count_eq_zero_of_not_mem unused,
        count_eq_one_of_mem once (mem_map_of_mem hm)]
    · have apart : ∀ l ∈ (proper group.moves).map Move.dst, l ∉ scratchPlaces target := by
        intro l member
        obtain ⟨m, hm, rfl⟩ := mem_map.mp member
        exact admissible.apart m hm
      have extra : used.countP (· ∈ scratchPlaces target) = used.length :=
        countP_eq_length.mpr (by simpa using isTemp)
      have others : ((proper group.moves).map Move.dst).countP (· ∈ scratchPlaces target) = 0 :=
        countP_eq_zero.mpr (by simpa using apart)
      have counted := same.countP_eq (· ∈ scratchPlaces target)
      rw [countP_map, countP_append, extra, others, count] at counted
      exact counted
  · have run : group.sequence shape target = .error .overflow := by
      simp [sequence, unordered, ensure, numPlaces_overflow (Nat.le_of_not_lt fits), bind,
        Except.bind]
    simp [run, fits]

/-- The only ring of the group, the exchange of two registers, costs one move. -/
theorem mixed_group_cost :
    (isolatedRings (proper mixedGroup.moves)).ncard = 1 ∧
      ∃ sequence, mixedGroup.sequence ⟨3, 1⟩ .aarch64 = .ok sequence ∧
        sequence.moves.length = (proper mixedGroup.moves).length + 1 ∧
        ∀ m ∈ proper mixedGroup.moves, (sequence.moves.map Move.dst).count m.dst = 1 := by
  have cost := sequence_cost .aarch64 ⟨3, 1⟩ mixedGroup rfl (by decide) (by decide)
  obtain ⟨sequence, run⟩ := cost.1.mpr (by decide)
  obtain ⟨-, size, written, saved⟩ := cost.2 sequence run
  have one : sequence.moves.countP (·.dst ∈ scratchPlaces .aarch64) = 1 := by
    obtain rfl := Except.ok.inj run
    decide
  rw [one] at saved
  rw [← saved] at size
  exact ⟨saved.symm, sequence, run, size, written⟩

end MoveGroup

end RegisterAllocation
