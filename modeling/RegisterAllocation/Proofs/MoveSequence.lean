import Mathlib.Data.List.Nodup
import Mathlib.Data.List.Perm.Subperm
import RegisterAllocation.MoveGroup.Sequence

/-!
The sequence of a group of moves against the moves done all at once.

While moves are scheduled, every pending move can read the value it wants: at its source, or at a
copy of it that is not written again. A place is written only when its own value has been copied or
is no longer wanted. When no place is left that can be written so, every pending destination is read
by some pending move; there are as many destinations as moves, so each is read exactly once and the
moves form cycles.
-/

namespace RegisterAllocation

open List Option Location Move

abbrev Store (α : Type) := Location → α

namespace Store

variable {α : Type}

def put (s : Store α) (l : Location) (a : α) : Store α := fun k => if k = l then a else s k

@[simp] theorem put_same (s : Store α) (l : Location) (a : α) : s.put l a l = a := by
  simp [put]

theorem put_other {s : Store α} {l k : Location} {a : α} (h : k ≠ l) : s.put l a k = s k := by
  simp [put, h]

def inSequence (moves : List Move) (s : Store α) : Store α :=
  moves.foldl (fun t m => t.put m.dst (t m.src)) s

/-- All sources are read before any destination is written. -/
def atOnce (moves : List Move) (s : Store α) : Store α :=
  moves.foldl (fun t m => t.put m.dst (s m.src)) s

def replay (done : List Move) (s : Store α) : Store α :=
  done.foldr (fun m t => t.put m.dst (t m.src)) s

@[simp] theorem replay_cons (m : Move) (done : List Move) (s : Store α) :
    replay (m :: done) s = (replay done s).put m.dst (replay done s m.src) := rfl

theorem inSequence_reverse (done : List Move) (s : Store α) :
    inSequence done.reverse s = replay done s := by
  simp [inSequence, replay, foldl_reverse]

theorem atOnce_unwritten {moves : List Move} {l : Location} (h : ∀ m ∈ moves, m.dst ≠ l)
    (s t : Store α) : moves.foldl (fun t m => t.put m.dst (s m.src)) t l = t l := by
  induction moves generalizing t with
  | nil => rfl
  | cons m rest ih =>
    simp only [foldl_cons]
    rw [ih fun x hx => h x (mem_cons_of_mem m hx)]
    exact put_other (h m mem_cons_self).symm

end Store

namespace MoveGroup

def scratchPlaces (target : Target) : List Location :=
  [scratch target .int64, scratch target .float64]

theorem scratch_mem (target : Target) (ty : ValueType) :
    scratch target ty ∈ scratchPlaces target := by
  have same : scratch target ty = scratch target (if ty.isFloat then .float64 else .int64) := by
    cases ty <;> rfl
  rw [same]
  split <;> simp [scratchPlaces]

namespace Schedule

variable {α : Type} {readOnly : Location → Bool} {moves : List Move} {temps : List Location}
  {s : Store α} {o : Schedule}

structure Admissible (readOnly : Location → Bool) (temps : List Location) (moves : List Move) :
    Prop where
  once : (moves.map dst).Nodup
  writable : ∀ m ∈ moves, readOnly m.dst = false
  apart : ∀ m ∈ moves, m.dst ∉ temps

structure Faithful (readOnly : Location → Bool) (temps : List Location) (moves : List Move)
    (s : Store α) (o : Schedule) : Prop where
  remaining : o.pending.Sublist moves
  finished : ∀ m ∈ moves, m ∉ o.pending → Store.replay o.done s m.dst = s m.src
  untouched : ∀ l, l ∉ temps → (∀ m ∈ moves, m ∉ o.pending → m.dst ≠ l) →
    Store.replay o.done s l = s l
  available : ∀ m ∈ o.pending, Store.replay o.done s (o.current m.src) = s m.src
  copied : ∀ l c, o.copies.lookup l = some c →
    readOnly l = false ∧ (c ∈ temps ∨ ∃ m ∈ moves, m ∉ o.pending ∧ m.dst = c)

def Released (o : Schedule) (l : Location) : Prop :=
  ∀ m ∈ o.pending, m.src = l → (o.copies.lookup l).isSome

theorem writer_some {l : Location} {m : Move} (h : o.writer? l = some m) :
    m ∈ o.pending ∧ m.dst = l := by
  have found := find?_some h
  exact ⟨mem_of_find?_eq_some h, by simpa using found⟩

theorem writer_none {l : Location} (h : o.writer? l = none) : ∀ m ∈ o.pending, m.dst ≠ l := by
  simpa [writer?, find?_eq_none] using h

theorem lookup_cons (l k c : Location) (copies : List (Location × Location)) :
    ((k, c) :: copies).lookup l = if l = k then some c else copies.lookup l := by
  by_cases h : l = k
  · simp [h]
  · simp [List.lookup_cons, beq_false_of_ne h, h]

theorem isRead_iff {l : Location} : o.isRead l = true ↔ ∃ m ∈ o.pending, m.src = l := by
  simp [isRead]

namespace Admissible

theorem moves_nodup (a : Admissible readOnly temps moves) : moves.Nodup := Nodup.of_map _ a.once

theorem same_writer (a : Admissible readOnly temps moves) {m n : Move} (hm : m ∈ moves)
    (hn : n ∈ moves) (same : m.dst = n.dst) : m = n :=
  inj_on_of_nodup_map a.once hm hn same

end Admissible

namespace Faithful

variable {m n : Move}

theorem mem_moves (f : Faithful readOnly temps moves s o) (h : m ∈ o.pending) : m ∈ moves :=
  f.remaining.subset h

section

variable (a : Admissible readOnly temps moves) (f : Faithful readOnly temps moves s o)

include a f

theorem mem_erase :
    n ∈ o.pending.erase m ↔ n ≠ m ∧ n ∈ o.pending :=
  (a.moves_nodup.sublist f.remaining).mem_erase_iff

theorem current_ne (hm : m ∈ o.pending) (hn : n ∈ o.pending) (released : o.Released m.dst) :
    o.current n.src ≠ m.dst := by
  intro same
  cases found : o.copies.lookup n.src with
  | none =>
    simp only [current, found, getD_none] at same
    have copied := released n hn same
    rw [← same, found] at copied
    cases copied
  | some c =>
    simp only [current, found, getD_some] at same
    subst same
    rcases (f.copied _ _ found).2 with temp | ⟨x, hx, ended, same⟩
    · exact a.apart m (f.mem_moves hm) temp
    · rw [a.same_writer hx (f.mem_moves hm) same] at ended
      exact ended hm

/-- One more move is done, from a place `src` that holds its value. Nothing gets lost of where the
values of pending moves are; at most the destination is noted as a copy. -/
theorem after_perform (hm : m ∈ o.pending) (released : o.Released m.dst) {src : Location}
    {copies : List (Location × Location)} (value : Store.replay o.done s src = s m.src)
    (kept : ∀ l, copies.lookup l = o.copies.lookup l ∨
      (l = m.src ∧ copies.lookup l = some m.dst ∧ readOnly l = false)) :
    Faithful readOnly temps moves s ⟨o.pending.erase m, copies, { m with src } :: o.done⟩ := by
  constructor
  · exact erase_sublist.trans f.remaining
  · intro n hn ended
    by_cases same : n = m
    · subst same
      simpa using value
    · have before : n ∉ o.pending := fun h => ended ((mem_erase a f).mpr ⟨same, h⟩)
      have other : n.dst ≠ m.dst := fun h => same (a.same_writer hn (f.mem_moves hm) h)
      rw [Store.replay_cons, Store.put_other other]
      exact f.finished n hn before
  · intro l free unwritten
    have other : l ≠ m.dst := fun h =>
      unwritten m (f.mem_moves hm) (fun h => ((mem_erase a f).mp h).1 rfl) h.symm
    rw [Store.replay_cons, Store.put_other other]
    exact f.untouched l free fun n hn ended =>
      unwritten n hn fun h => ended ((mem_erase a f).mp h).2
  · intro n hn
    obtain ⟨_, pending⟩ := (mem_erase a f).mp hn
    rcases kept n.src with same | ⟨same, found, _⟩
    · have other : o.current n.src ≠ m.dst := current_ne a f hm pending released
      simp only [current, same, Store.replay_cons]
      rw [Store.put_other (by simpa [current] using other)]
      exact f.available n pending
    · rw [same] at found ⊢
      simp only [current, found, getD_some, Store.replay_cons, Store.put_same]
      exact value
  · intro l c found
    rcases kept l with same | ⟨_, noted, writable⟩
    · rw [same] at found
      obtain ⟨writable, temp | ⟨n, hn, ended, eq⟩⟩ := f.copied l c found
      · exact ⟨writable, .inl temp⟩
      · exact ⟨writable, .inr ⟨n, hn, fun h => ended ((mem_erase a f).mp h).2, eq⟩⟩
    · rw [noted] at found
      cases found
      exact ⟨writable, .inr ⟨m, f.mem_moves hm, fun h => ((mem_erase a f).mp h).1 rfl, rfl⟩⟩

end

theorem value_of_readOnly (f : Faithful readOnly temps moves s o) (hm : m ∈ o.pending)
    (fixed : readOnly m.src = true) : Store.replay o.done s m.src = s m.src := by
  have available := f.available m hm
  cases found : o.copies.lookup m.src with
  | none => simpa [current, found] using available
  | some c =>
    have copied := (f.copied _ _ found).1
    rw [fixed] at copied
    cases copied

theorem after_follow (a : Admissible readOnly temps moves) (f : Faithful readOnly temps moves s o)
    (hm : m ∈ o.pending) (released : o.Released m.dst) (writable : ¬readOnly m.src = true) :
    Faithful readOnly temps moves s
      { pending := o.pending.erase m
        copies := (m.src, m.dst) :: o.copies
        done := { m with src := o.current m.src } :: o.done } := by
  refine f.after_perform a hm released (f.available m hm) fun k => ?_
  rw [lookup_cons]
  by_cases same : k = m.src
  · subst same
    exact .inr ⟨rfl, by simp, by simpa using writable⟩
  · exact .inl (by simp [same])

end Faithful

/-- A chain keeps the schedule faithful, as long as it starts at a place whose value is not read
from there any more. -/
theorem chain_faithful (a : Admissible readOnly temps moves) (bound : Nat) (l : Location)
    (o : Schedule) (f : Faithful readOnly temps moves s o) (released : o.Released l) :
    Faithful readOnly temps moves s (chain readOnly bound l o) := by
  induction bound generalizing l o with
  | zero => exact f
  | succ bound ih =>
    unfold chain
    cases found : o.writer? l with
    | none => exact f
    | some m =>
      obtain ⟨hm, rfl⟩ := writer_some found
      dsimp only
      split
      · rename_i fixed
        exact f.after_perform a hm released (f.value_of_readOnly hm fixed) fun _ => .inl rfl
      · rename_i writable
        -- the place just read is next, and its other readers find the value at `m.dst`
        apply ih
        · exact f.after_follow a hm released writable
        · intro n _ _
          simp

theorem chain_pending (readOnly : Location → Bool) (bound : Nat) (l : Location) (o : Schedule) :
    (chain readOnly bound l o).pending.Sublist o.pending := by
  induction bound generalizing l o with
  | zero => exact .refl _
  | succ bound ih =>
    unfold chain
    cases o.writer? l with
    | none => exact .refl _
    | some m =>
      dsimp only
      split
      · exact erase_sublist
      · exact (ih _ _).trans erase_sublist

theorem chain_writes (a : Admissible readOnly temps moves) (bound : Nat) (l : Location)
    (o : Schedule) (f : Faithful readOnly temps moves s o) (enough : o.pending.length ≤ bound) :
    ∀ m ∈ (chain readOnly bound l o).pending, m.dst ≠ l := by
  intro n hn
  cases bound with
  | zero =>
    rw [chain, length_eq_zero_iff.mp (Nat.le_zero.mp enough)] at hn
    cases hn
  | succ bound =>
    unfold chain at hn
    cases found : o.writer? l with
    | none =>
      rw [found] at hn
      exact writer_none found n hn
    | some m =>
      obtain ⟨hm, rfl⟩ := writer_some found
      have erased : n ∈ o.pending.erase m := by
        rw [found] at hn
        dsimp only at hn
        split at hn
        · exact hn
        · exact (chain_pending _ _ _ _).subset hn
      obtain ⟨ne, pending⟩ := (f.mem_erase a).mp erased
      exact fun same => ne (a.same_writer (f.mem_moves pending) (f.mem_moves hm) same)

def AllRead (places : List Location) (o : Schedule) (l : Option Location) : Prop :=
  ∀ m ∈ o.pending, m.dst ∈ places → some m.dst ≠ l → o.isRead m.dst = true

theorem chain_allRead (a : Admissible readOnly temps moves) {places : List Location} (bound : Nat)
    (l : Location) (o : Schedule) (f : Faithful readOnly temps moves s o)
    (enough : o.pending.length ≤ bound) (released : o.Released l)
    (read : AllRead places o (some l)) : AllRead places (chain readOnly bound l o) none := by
  induction bound generalizing l o with
  | zero =>
    intro n hn
    rw [chain, length_eq_zero_iff.mp (Nat.le_zero.mp enough)] at hn
    cases hn
  | succ bound ih =>
    unfold chain
    cases found : o.writer? l with
    | none =>
      intro n hn listed _
      exact read n hn listed fun same => writer_none found n hn (some.inj same)
    | some m =>
      obtain ⟨hm, rfl⟩ := writer_some found
      -- a place that loses its reader with `m` is the source of `m`
      have left : ∀ n ∈ o.pending.erase m, n.dst ∈ places → n.dst ≠ m.src →
          (o.pending.erase m).any (·.src == n.dst) = true := by
        intro n hn listed other
        obtain ⟨ne, pending⟩ := (f.mem_erase a).mp hn
        have away : some n.dst ≠ some m.dst := fun same =>
          ne (a.same_writer (f.mem_moves pending) (f.mem_moves hm) (some.inj same))
        obtain ⟨x, hx, reads⟩ := isRead_iff.mp (read n pending listed away)
        have kept : x ∈ o.pending.erase m :=
          (f.mem_erase a).mpr ⟨fun same => other (by rw [← reads, same]), hx⟩
        simpa using ⟨x, kept, reads⟩
      dsimp only
      split
      · rename_i fixed
        intro n hn listed _
        refine left n hn listed fun same => ?_
        have writable := a.writable n (f.mem_moves ((f.mem_erase a).mp hn).2)
        rw [same, fixed] at writable
        cases writable
      · rename_i writable
        apply ih
        · exact f.after_follow a hm released writable
        · have shorter := length_erase_of_mem hm
          have nonempty := length_pos_of_mem hm
          simp only
          omega
        · intro n _ _
          simp
        · intro n hn listed other
          exact left n hn listed fun same => other (by rw [same])

theorem balance_erase {pending : List Move} {m : Move} {first : Location} (hm : m ∈ pending)
    (balance : (m.dst :: pending.map Move.src).Perm (first :: pending.map dst)) :
    (m.src :: (pending.erase m).map Move.src).Perm (first :: (pending.erase m).map dst) := by
  have sources := (perm_cons_erase hm).map Move.src
  have places := (perm_cons_erase hm).map dst
  have whole := ((sources.symm.cons m.dst).trans balance).trans (places.cons first)
  exact (whole.trans (.swap _ _ _)).cons_inv

theorem Admissible.balance_writable (a : Admissible readOnly temps moves) {pending : List Move}
    {l first : Location} (inside : pending ⊆ moves) (writableFirst : readOnly first = false)
    (balance : (l :: pending.map Move.src).Perm (first :: pending.map dst)) :
    ¬readOnly l = true := by
  rcases mem_cons.mp (balance.subset mem_cons_self) with same | written
  · simp [same, writableFirst]
  · obtain ⟨n, hn, same⟩ := mem_map.mp written
    rw [← same]
    simp [a.writable n (inside hn)]

theorem balance_end {o : Schedule} {l first : Location} (found : o.writer? l = none)
    (balance : (l :: o.pending.map Move.src).Perm (first :: o.pending.map dst)) : l = first := by
  refine (mem_cons.mp (balance.subset mem_cons_self)).resolve_right fun written => ?_
  obtain ⟨m, hm, same⟩ := mem_map.mp written
  exact writer_none found m hm same

/-- Where the sources of the pending moves are their destinations, a chain goes round a cycle: it
ends where it started, and what is left is balanced again. -/
theorem chain_balanced (a : Admissible readOnly temps moves) (bound : Nat) (l first : Location)
    (o : Schedule) (f : Faithful readOnly temps moves s o) (enough : o.pending.length ≤ bound)
    (released : o.Released l) (writableFirst : readOnly first = false)
    (balance : (l :: o.pending.map Move.src).Perm (first :: o.pending.map dst)) :
    ((chain readOnly bound l o).pending.map Move.src).Perm
      ((chain readOnly bound l o).pending.map dst) := by
  induction bound generalizing l o with
  | zero =>
    rw [chain, length_eq_zero_iff.mp (Nat.le_zero.mp enough)]
    exact .refl _
  | succ bound ih =>
    unfold chain
    cases found : o.writer? l with
    | none =>
      obtain rfl := balance_end found balance
      exact balance.cons_inv
    | some m =>
      obtain ⟨hm, rfl⟩ := writer_some found
      have next := balance_erase hm balance
      have writable : ¬readOnly m.src = true :=
        a.balance_writable (fun n hn => f.mem_moves (mem_of_mem_erase hn)) writableFirst next
      dsimp only
      rw [if_neg writable]
      apply ih
      · exact f.after_follow a hm released writable
      · have shorter := length_erase_of_mem hm
        have nonempty := length_pos_of_mem hm
        simp only
        omega
      · intro n _ _
        simp
      · exact next

/-- Places whose values have been saved for a cycle are written by no pending move, except for
the one at which a cycle is being opened. -/
def Saved (temps : List Location) (o : Schedule) (l : Option Location) : Prop :=
  ∀ k c, o.copies.lookup k = some c → c ∈ temps → some k ≠ l → ∀ m ∈ o.pending, m.dst ≠ k

section

variable (a : Admissible readOnly temps moves)

include a

theorem chain_saved_except {first : Option Location}
    (bound : Nat) (l : Location) (o : Schedule) (inside : ∀ m ∈ o.pending, m ∈ moves)
    (saved : Saved temps o first) : Saved temps (chain readOnly bound l o) first := by
  induction bound generalizing l o with
  | zero => exact saved
  | succ bound ih =>
    unfold chain
    cases found : o.writer? l with
    | none => exact saved
    | some m =>
      have hm := (writer_some found).1
      dsimp only
      split
      · exact fun k c noted temp other n hn =>
          saved k c noted temp other n (mem_of_mem_erase hn)
      · apply ih
        · exact fun n hn => inside n (mem_of_mem_erase hn)
        · intro k c noted temp other n hn
          simp only [lookup_cons] at noted
          split at noted
          · cases noted
            exact absurd temp (a.apart m (inside m hm))
          · exact saved k c noted temp other n (mem_of_mem_erase hn)

theorem chain_saved (bound : Nat) (l : Location)
    (o : Schedule) (f : Faithful readOnly temps moves s o) (enough : o.pending.length ≤ bound)
    (saved : Saved temps o (some l)) : Saved temps (chain readOnly bound l o) none := by
  intro k c noted temp _ m hm
  by_cases same : k = l
  · subst same
    exact chain_writes a bound k o f enough m hm
  · exact chain_saved_except a bound l o (fun _ => f.mem_moves) saved k c noted temp
      (fun h => same (some.inj h)) m hm

theorem release_faithful (f : Faithful readOnly temps moves s o) (l : Location) :
    Faithful readOnly temps moves s (release readOnly o l) := by
  unfold release
  split
  · rename_i start
    simp only [Bool.and_eq_true, Bool.not_eq_true'] at start
    apply chain_faithful a _ _ _ f
    intro m hm reads
    have read := isRead_iff.mpr ⟨m, hm, reads⟩
    rw [start.2] at read
    cases read
  · exact f

theorem release_allRead {places : List Location}
    (f : Faithful readOnly temps moves s o) (read : AllRead places o none) (l : Location) :
    AllRead (l :: places) (release readOnly o l) none := by
  unfold release
  split
  · rename_i start
    simp only [Bool.and_eq_true, Bool.not_eq_true'] at start
    apply chain_allRead a _ _ _ f (Nat.le_refl _)
    · intro m hm reads
      have read := isRead_iff.mpr ⟨m, hm, reads⟩
      rw [start.2] at read
      cases read
    · intro m hm listed other
      rcases mem_cons.mp listed with same | listed
      · exact absurd (by rw [same]) other
      · exact read m hm listed nofun
  · rename_i stays
    intro m hm listed _
    rcases mem_cons.mp listed with same | listed
    · subst same
      have written : (o.writer? m.dst).isSome = true := by
        cases found : o.writer? m.dst with
        | none => exact absurd rfl (writer_none found m hm)
        | some n => rfl
      simpa [written] using stays
    · exact read m hm listed nofun

theorem release_saved
    (f : Faithful readOnly temps moves s o) (saved : Saved temps o none) (l : Location) :
    Saved temps (release readOnly o l) none := by
  unfold release
  split
  · exact chain_saved a _ l o f (Nat.le_refl _) fun k c noted temp _ =>
      saved k c noted temp nofun
  · exact saved

theorem faithful_releases (places seen : List Location)
    (f : Faithful readOnly temps moves s o) (read : AllRead seen o none)
    (saved : Saved temps o none) :
    Faithful readOnly temps moves s (places.foldl (release readOnly) o) ∧
      AllRead (places.reverse ++ seen) (places.foldl (release readOnly) o) none ∧
      Saved temps (places.foldl (release readOnly) o) none := by
  induction places generalizing o seen with
  | nil => exact ⟨f, read, saved⟩
  | cons l rest ih =>
    have next := ih (l :: seen) (release_faithful a f l) (release_allRead a f read l)
      (release_saved a f saved l)
    simpa using next

end

def Balanced (o : Schedule) : Prop := (o.pending.map Move.src).Perm (o.pending.map dst)

variable (a : Admissible readOnly temps moves)

include a

theorem balanced_of_allRead {places : List Location}
    (f : Faithful readOnly temps moves s o) (read : AllRead places o none)
    (all : ∀ m ∈ moves, m.dst ∈ places) : Balanced o := by
  have once : (o.pending.map dst).Nodup := a.once.sublist (f.remaining.map _)
  have subset : o.pending.map dst ⊆ o.pending.map Move.src := by
    intro l hl
    obtain ⟨m, hm, rfl⟩ := mem_map.mp hl
    obtain ⟨n, hn, reads⟩ := isRead_iff.mp (read m hm (all m (f.mem_moves hm)) nofun)
    exact mem_map.mpr ⟨n, hn, reads⟩
  have perm := (once.subperm subset).perm_of_length_le (by simp)
  exact perm.symm

theorem Faithful.after_save
    (f : Faithful readOnly temps moves s o) (balanced : Balanced o) (saved : Saved temps o none)
    {m : Move} (hm : m ∈ o.pending) {temp : Location} (free : temp ∈ temps) (ty : ValueType) :
    Faithful readOnly temps moves s
      { o with
        copies := (m.dst, temp) :: o.copies
        done := ⟨o.current m.dst, temp, ty⟩ :: o.done } := by
  have isDst : ∀ n ∈ o.pending, ∃ x ∈ o.pending, x.dst = n.src := fun n hn =>
    mem_map.mp (balanced.subset (mem_map_of_mem hn))
  obtain ⟨reader, hreader, reads⟩ : ∃ n ∈ o.pending, n.src = m.dst :=
    mem_map.mp (balanced.symm.subset (mem_map_of_mem hm))
  constructor
  · exact f.remaining
  · intro n hn ended
    have other : n.dst ≠ temp := fun same => a.apart n hn (same ▸ free)
    rw [Store.replay_cons, Store.put_other other]
    exact f.finished n hn ended
  · intro l outside unwritten
    have other : l ≠ temp := fun same => outside (same ▸ free)
    rw [Store.replay_cons, Store.put_other other]
    exact f.untouched l outside unwritten
  · intro n hn
    by_cases same : n.src = m.dst
    · have value := f.available reader hreader
      rw [reads] at value
      simpa [current, same] using value
    · have away : o.current n.src ≠ temp := by
        intro eq
        obtain ⟨x, hx, written⟩ := isDst n hn
        cases found : o.copies.lookup n.src with
        | none =>
          simp only [current, found, getD_none] at eq
          exact a.apart x (f.mem_moves hx) (by rw [written, eq]; exact free)
        | some c =>
          simp only [current, found, getD_some] at eq
          exact saved n.src c found (eq ▸ free) nofun x hx written
      simp only [current, lookup_cons, if_neg same, Store.replay_cons] at away ⊢
      rw [Store.put_other away]
      exact f.available n hn
  · intro l c found
    simp only [lookup_cons] at found
    split at found
    · rename_i same
      cases found
      exact ⟨by rw [same]; exact a.writable m (f.mem_moves hm), .inl free⟩
    · exact f.copied l c found

theorem breakCycle_faithful {temp : ValueType → Location}
    (free : ∀ ty, temp ty ∈ temps) (readType : Location → ValueType)
    (f : Faithful readOnly temps moves s o) (balanced : Balanced o) (saved : Saved temps o none)
    (l : Location) :
    let next := breakCycle readOnly temp readType o l
    Faithful readOnly temps moves s next ∧ Balanced next ∧ Saved temps next none ∧
      next.pending.Sublist o.pending ∧ ∀ m ∈ next.pending, m.dst ≠ l := by
  intro next
  by_cases written : (o.writer? l).isSome = true
  · obtain ⟨m, found⟩ := isSome_iff_exists.mp written
    obtain ⟨hm, rfl⟩ := writer_some found
    have opened := f.after_save a balanced saved hm (free (readType m.dst)) (readType m.dst)
    have eq : next = chain readOnly o.pending.length m.dst
        { o with
          copies := (m.dst, temp (readType m.dst)) :: o.copies
          done := ⟨o.current m.dst, temp (readType m.dst), readType m.dst⟩ :: o.done } := by
      simp only [next, breakCycle, if_pos written]
    rw [eq]
    have released : Released { o with
        copies := (m.dst, temp (readType m.dst)) :: o.copies
        done := ⟨o.current m.dst, temp (readType m.dst), readType m.dst⟩ :: o.done } m.dst := by
      intro n _ _
      simp
    refine ⟨chain_faithful a _ _ _ opened released, ?_, ?_, chain_pending .., ?_⟩
    · exact chain_balanced a _ _ m.dst _ opened (Nat.le_refl _) released
        (a.writable m (f.mem_moves hm)) (balanced.cons m.dst)
    · refine chain_saved a _ _ _ opened (Nat.le_refl _) ?_
      intro k c noted temp other
      have ne : k ≠ m.dst := fun same => other (by rw [same])
      rw [lookup_cons, if_neg ne] at noted
      exact saved k c noted temp nofun
    · exact chain_writes a _ _ _ opened (Nat.le_refl _)
  · have eq : next = o := by simp only [next, breakCycle, if_neg written]
    rw [eq]
    refine ⟨f, balanced, saved, .refl _, ?_⟩
    apply writer_none
    simpa using written

theorem faithful_breakCycles {temp : ValueType → Location}
    (free : ∀ ty, temp ty ∈ temps) (readType : Location → ValueType) (places : List Location)
    (f : Faithful readOnly temps moves s o) (balanced : Balanced o)
    (saved : Saved temps o none) :
    Faithful readOnly temps moves s (places.foldl (breakCycle readOnly temp readType) o) ∧
      (places.foldl (breakCycle readOnly temp readType) o).pending.Sublist o.pending ∧
      ∀ m ∈ (places.foldl (breakCycle readOnly temp readType) o).pending, m.dst ∉ places := by
  induction places generalizing o with
  | nil => exact ⟨f, .refl _, nofun⟩
  | cons l rest ih =>
    obtain ⟨faithful, even, kept, fewer, done⟩ :=
      breakCycle_faithful a free readType f balanced saved l
    obtain ⟨last, sub, all⟩ := ih faithful even kept
    refine ⟨last, sub.trans fewer, ?_⟩
    intro m hm
    simp only [mem_cons, not_or]
    exact ⟨done m (sub.subset hm), all m hm⟩

end Schedule

open Schedule

variable {α : Type}

theorem mem_insertLocation {l k : Location} {places : List Location} :
    k ∈ insertLocation l places ↔ k = l ∨ k ∈ places := by
  induction places with
  | nil => simp [insertLocation]
  | cons x rest ih =>
    unfold insertLocation
    split
    · simp
    · simp [ih, or_left_comm]

theorem mem_places {moves : List Move} {l : Location} :
    l ∈ moves.foldr (fun m => insertLocation m.dst) [] ↔ ∃ m ∈ moves, m.dst = l := by
  induction moves with
  | nil => simp
  | cons m rest ih => simp [mem_insertLocation, ih, eq_comm]

theorem order_effect (target : Target) {moves : List Move}
    (a : Admissible (isReadOnly target) (scratchPlaces target) moves) (s : Store α) :
    (∀ m ∈ moves, Store.inSequence (order target moves) s m.dst = s m.src) ∧
      ∀ l, l ∉ scratchPlaces target → (∀ m ∈ moves, m.dst ≠ l) →
        Store.inSequence (order target moves) s l = s l := by
  have start : Faithful (isReadOnly target) (scratchPlaces target) moves s ⟨moves, [], []⟩ :=
    ⟨.refl _, fun m hm ended => absurd hm ended, fun l _ _ => rfl, fun m _ => rfl, nofun⟩
  obtain ⟨faithful, read, saved⟩ :=
    faithful_releases a (moves.foldr (fun m => insertLocation m.dst) []) [] start nofun nofun
  have balanced := balanced_of_allRead a faithful read fun m hm => by
    simpa using mem_places.mpr ⟨m, hm, rfl⟩
  obtain ⟨last, fewer, all⟩ := faithful_breakCycles a (scratch_mem target) (readType moves)
    (moves.foldr (fun m => insertLocation m.dst) []) faithful balanced saved
  have ended : ∀ m ∈ moves, m ∉ ((moves.foldr (fun m => insertLocation m.dst) []).foldl
      (breakCycle (isReadOnly target) (scratch target) (readType moves))
      ((moves.foldr (fun m => insertLocation m.dst) []).foldl
        (release (isReadOnly target)) ⟨moves, [], []⟩)).pending :=
    fun m hm pending => all m pending (mem_places.mpr ⟨m, hm, rfl⟩)
  simp only [order, Store.inSequence_reverse]
  exact ⟨fun m hm => last.finished m hm (ended m hm),
    fun l outside unwritten => last.untouched l outside fun m hm _ => unwritten m hm⟩

end MoveGroup

namespace StackShape

variable {shape : StackShape} {target : Target} {l : Location}

def Writable (shape : StackShape) (target : Target) (l : Location) : Prop :=
  match l.kind with
  | .register => target.isZeroReg l = false ∧ l.index < target.intRegs
  | .fpRegister => l.index < target.floatRegs
  | .stackSlot => l.index < shape.slots
  | .stackParameter => l.index < shape.params
  | .immediate | .invalid => False

instance (shape : StackShape) (target : Target) (l : Location) :
    Decidable (shape.Writable target l) := by
  unfold Writable
  split <;> infer_instance

/-- What moves can read: the places of a frame, immediates and the zero register. -/
def Readable (shape : StackShape) (target : Target) (l : Location) : Prop :=
  shape.Writable target l ∨ l.isImmediate = true ∨ target.isZeroReg l = true

instance (shape : StackShape) (target : Target) (l : Location) :
    Decidable (shape.Readable target l) :=
  inferInstanceAs (Decidable (_ ∨ _))

theorem isPlace_of_writable (h : shape.Writable target l) : shape.isPlace target l = .ok true := by
  unfold Writable at h
  unfold isPlace
  split at h <;> simp_all [ensure, pure, Except.pure, bind, Except.bind]

theorem isPlace_of_readable (h : shape.Readable target l) :
    ∃ place, shape.isPlace target l = .ok place := by
  rcases h with writable | immediate | zero
  · exact ⟨true, isPlace_of_writable writable⟩
  · have kind : l.kind = .immediate := by simpa [isImmediate] using immediate
    exact ⟨false, by simp [isPlace, kind]⟩
  · have kind : l.kind = .register := by
      simp only [Target.isZeroReg, Bool.and_eq_true] at zero
      simpa [isRegister] using zero.1
    exact ⟨false, by simp [isPlace, kind, zero]⟩

theorem not_readOnly_of_writable (h : shape.Writable target l) :
    MoveGroup.isReadOnly target l = false := by
  unfold Writable at h
  split at h <;> rename_i kind <;>
    simp_all [MoveGroup.isReadOnly, isImmediate, isInvalid, Target.isZeroReg,
      isRegister]

theorem numPlaces_of_fits (h : target.intRegs + target.floatRegs + shape.slots + shape.params <
    wordLimit) : shape.numPlaces target =
      .ok (target.intRegs + target.floatRegs + shape.slots + shape.params) := by
  have slots : target.intRegs + target.floatRegs + shape.slots < wordLimit := by omega
  simp [numPlaces, addWord, slots, bind, Except.bind, h]

end StackShape

namespace MoveGroup

variable {α : Type} {shape : StackShape} {target : Target}

theorem checkPlaces_ok {moves : List Move} (written : List Location)
    (once : (moves.map dst).Nodup) (fresh : ∀ m ∈ moves, m.dst ∉ written)
    (ranges : ∀ m ∈ moves, shape.Readable target m.src ∧ shape.Writable target m.dst) :
    checkPlaces shape target written moves = .ok () := by
  induction moves generalizing written with
  | nil => rfl
  | cons m rest ih =>
    obtain ⟨first, others⟩ := nodup_cons.mp once
    obtain ⟨readable, writable⟩ := ranges m mem_cons_self
    obtain ⟨place, isPlace⟩ := StackShape.isPlace_of_readable readable
    have new := fresh m mem_cons_self
    have tail := ih (m.dst :: written) others
      (fun n hn => by
        simp only [mem_cons, not_or]
        exact ⟨fun same => first (same ▸ mem_map_of_mem hn),
          fresh n (mem_cons_of_mem m hn)⟩)
      (fun n hn => ranges n (mem_cons_of_mem m hn))
    simp [checkPlaces, StackShape.isPlace_of_writable writable, isPlace, ensure, new, tail, bind,
      Except.bind]

def proper (moves : List Move) : List Move := moves.filter fun m => m.src != m.dst

theorem mem_proper {moves : List Move} {m : Move} :
    m ∈ proper moves ↔ m ∈ moves ∧ m.src ≠ m.dst := by
  simp [proper]

/-- No destination of a move that does something is written again later. -/
def WritesOnce (moves : List Move) : Prop :=
  moves.Pairwise fun m n => m.src ≠ m.dst → m.dst ≠ n.dst

instance (moves : List Move) : Decidable (WritesOnce moves) :=
  inferInstanceAs (Decidable (List.Pairwise _ _))

theorem WritesOnce.dst_nodup {moves : List Move} (once : WritesOnce moves) :
    ((proper moves).map dst).Nodup := by
  rw [Nodup, pairwise_map]
  refine (once.filter _).imp_of_mem ?_
  intro m n hm _ apart
  exact apart (mem_proper.mp hm).2

theorem atOnce_written {moves : List Move} (once : WritesOnce moves) (s t : Store α) {m : Move}
    (hm : m ∈ proper moves) :
    moves.foldl (fun t m => t.put m.dst (s m.src)) t m.dst = s m.src := by
  obtain ⟨member, moving⟩ := mem_proper.mp hm
  induction moves generalizing t with
  | nil => cases member
  | cons n rest ih =>
    obtain ⟨first, others⟩ := pairwise_cons.mp once
    simp only [foldl_cons]
    rcases mem_cons.mp member with same | later
    · subst same
      rw [Store.atOnce_unwritten fun x hx => (first x hx moving).symm]
      exact Store.put_same ..
    · exact ih others _ (mem_proper.mpr ⟨later, moving⟩) later

theorem atOnce_idle {moves : List Move} {l : Location} (s t : Store α) (start : t l = s l)
    (idle : ∀ m ∈ proper moves, m.dst ≠ l) :
    moves.foldl (fun t m => t.put m.dst (s m.src)) t l = s l := by
  induction moves generalizing t with
  | nil => exact start
  | cons n rest ih =>
    simp only [foldl_cons]
    apply ih
    · by_cases written : l = n.dst
      · have still : n.src = n.dst := by
          by_contra moving
          exact idle n (mem_proper.mpr ⟨mem_cons_self, moving⟩) written.symm
        rw [written, still, Store.put_same]
      · rw [Store.put_other written, start]
    · intro m hm
      obtain ⟨member, moving⟩ := mem_proper.mp hm
      exact idle m (mem_proper.mpr ⟨mem_cons_of_mem n member, moving⟩)

/-- Sequencing a group succeeds, and its moves one after the other leave every place but the
scratch places as the moves of the group all at once do. -/
theorem sequence_same_effect (target : Target) (shape : StackShape) (group : MoveGroup)
    (fits : target.intRegs + target.floatRegs + shape.slots + shape.params < wordLimit)
    (unordered : group.sequenced = false)
    (ranges : ∀ m ∈ group.moves, m.src ≠ m.dst →
      shape.Readable target m.src ∧ shape.Writable target m.dst ∧ m.dst ∉ scratchPlaces target)
    (once : WritesOnce group.moves) :
    ∃ sequence, group.sequence shape target = .ok sequence ∧ sequence.sequenced = true ∧
      ∀ (α : Type) (s : Store α) (l : Location), l ∉ scratchPlaces target →
        Store.inSequence sequence.moves s l = Store.atOnce group.moves s l := by
  have bounds : ∀ m ∈ proper group.moves,
      shape.Readable target m.src ∧ shape.Writable target m.dst ∧ m.dst ∉ scratchPlaces target :=
    fun m hm => ranges m (mem_proper.mp hm).1 (mem_proper.mp hm).2
  have checked := checkPlaces_ok [] once.dst_nodup (fun _ _ => not_mem_nil)
    fun m hm => ⟨(bounds m hm).1, (bounds m hm).2.1⟩
  have fit := StackShape.numPlaces_of_fits fits
  refine ⟨{ group with moves := order target (proper group.moves), sequenced := true }, ?_, rfl,
    ?_⟩
  · simp only [proper] at checked
    simp [sequence, unordered, ensure, fit, checked, bind, Except.bind, pure, Except.pure, proper]
  · intro α s l outside
    have admissible : Schedule.Admissible (isReadOnly target) (scratchPlaces target)
        (proper group.moves) :=
      ⟨once.dst_nodup, fun m hm => StackShape.not_readOnly_of_writable (bounds m hm).2.1,
        fun m hm => (bounds m hm).2.2⟩
    obtain ⟨written, kept⟩ := order_effect target admissible s
    by_cases moved : ∃ m ∈ proper group.moves, m.dst = l
    · obtain ⟨m, hm, rfl⟩ := moved
      rw [Store.atOnce, atOnce_written once s s hm]
      exact written m hm
    · have idle : ∀ m ∈ proper group.moves, m.dst ≠ l := fun m hm same => moved ⟨m, hm, same⟩
      rw [Store.atOnce, atOnce_idle s s rfl idle]
      exact kept l outside idle

def mixedGroup : MoveGroup where
  purpose := .splitMove
  moves :=
    [⟨.register 4, .register 5, .int64⟩, ⟨.register 5, .register 4, .int64⟩,
      ⟨.stackSlot 1, .register 6, .int64⟩, ⟨.stackSlot 1, .stackParameter 0, .int64⟩,
      ⟨.register 6, .fpRegister 2, .float64⟩, ⟨.register 31, .stackSlot 1, .int64⟩,
      ⟨.stackSlot 2, .stackSlot 2, .int64⟩]
  sequenced := false

theorem mixed_group_same_effect :
    WritesOnce mixedGroup.moves ∧
      ∃ sequence, mixedGroup.sequence ⟨3, 1⟩ .aarch64 = .ok sequence ∧
        sequence.sequenced = true ∧
        ∀ (α : Type) (s : Store α) (l : Location), l ∉ scratchPlaces .aarch64 →
          Store.inSequence sequence.moves s l = Store.atOnce mixedGroup.moves s l :=
  ⟨by decide, sequence_same_effect .aarch64 ⟨3, 1⟩ mixedGroup (by decide) rfl (by decide)
    (by decide)⟩

def rewrittenGroup : MoveGroup where
  purpose := .splitMove
  moves := [⟨.register 1, .register 0, .int64⟩, ⟨.register 0, .register 0, .int64⟩]
  sequenced := false

/-- A frame with more places than there are numbers for them cannot be sequenced in, and a move that
does nothing undoes an earlier one to its register at once, but not in sequence. -/
theorem sequence_differs :
    (empty .splitMove).sequence ⟨wordLimit - 1, 0⟩ .aarch64 = .error .overflow ∧
      ((proper rewrittenGroup.moves).map Move.dst).Nodup ∧
      (∀ m ∈ rewrittenGroup.moves, (⟨0, 0⟩ : StackShape).Readable .aarch64 m.src ∧
        (⟨0, 0⟩ : StackShape).Writable .aarch64 m.dst ∧ m.dst ∉ scratchPlaces .aarch64) ∧
      ∃ sequence, rewrittenGroup.sequence ⟨0, 0⟩ .aarch64 = .ok sequence ∧
        Store.inSequence sequence.moves id (.register 0) ≠
          Store.atOnce rewrittenGroup.moves id (.register 0) := by
  refine ⟨by decide, by decide, by decide, _, rfl, by decide⟩

end MoveGroup

end RegisterAllocation
