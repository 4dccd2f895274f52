import RegisterAllocation.Scan.Run
import RegisterAllocation.Proofs.Chains

/-!
Where values are kept in memory during the scan. A value has one home. Values that share a stack
slot take turns: all intervals of one end before those of the other are first kept there.
-/

namespace RegisterAllocation

open List Option Interval IntervalPool Location

namespace Frame

variable {f f' : Frame} {v w : ValueId} {l : Location} {start stop : Position}

structure Housed (f : Frame) (v : ValueId) (l : Location) (f' : Frame) : Prop where
  firstSlot : f'.firstSlot = f.firstSlot
  home : ∀ w, f'.home? w = if w = v then some l else f.home? w

theorem home_setHome : (f.setHome v l).home? w = if w = v then some l else f.home? w := by
  by_cases here : w = v
  · simp [home?, setHome, here]
  · simp [home?, setHome, here, lookup_cons, beq_eq_false_iff_ne.mpr here]

theorem takeSlot_ok {slot : Nat} (run : f.takeSlot start stop = .ok (slot, f')) :
    ∃ index, slot = f.firstSlot + index ∧ f'.firstSlot = f.firstSlot ∧ f'.homes = f.homes ∧
      f'.slotEnds[index]? = some stop ∧ (∀ e, f.slotEnds[index]? = some e → e ≤ start) ∧
      ∀ k e, k ≠ index → f.slotEnds[k]? = some e → f'.slotEnds[k]? = some e := by
  unfold takeSlot at run
  dsimp only at run
  generalize isIndex : f.slotEnds.findIdx (· ≤ start) = index at run
  split at run
  swap
  · exact absurd run refuse_ne_ok
  obtain ⟨rfl, rfl⟩ := Prod.mk.inj (Except.ok.inj run)
  refine ⟨index, rfl, rfl, rfl, ?_, ?_, ?_⟩
  · split
    · simp_all
    · have : f.slotEnds.length = index := by
        have : f.slotEnds.findIdx (· ≤ start) ≤ f.slotEnds.length := findIdx_le_length
        omega
      simp [← this]
  · intro e known
    obtain ⟨inside, rfl⟩ := List.getElem?_eq_some_iff.mp known
    subst isIndex
    have := findIdx_getElem (w := inside)
    simpa using this
  · intro k e other known
    split
    · simp [getElem?_set_ne (Ne.symm other), known]
    · obtain ⟨inside, rfl⟩ := List.getElem?_eq_some_iff.mp known
      simp [getElem?_append_left inside]

theorem spill_ok {constant? : Option Word}
    (run : f.spill v constant? start stop = .ok (l, f')) :
    (f.home? v = some l ∧ f' = f) ∨
    (f.home? v = none ∧ Housed f v l f' ∧
      ((l.isImmediate = true ∧ f'.slotEnds = f.slotEnds) ∨
        ∃ index, l = .stackSlot (f.firstSlot + index) ∧ f'.slotEnds[index]? = some stop ∧
          (∀ e, f.slotEnds[index]? = some e → e ≤ start) ∧
          ∀ k e, k ≠ index → f.slotEnds[k]? = some e → f'.slotEnds[k]? = some e)) := by
  unfold spill at run
  cases home : f.home? v with
  | some l' =>
    simp only [home, pure_ok, Prod.mk.injEq] at run
    exact .inl ⟨by rw [run.1], run.2.symm⟩
  | none =>
    refine .inr ⟨rfl, ?_⟩
    cases constant : constant? with
    | some word =>
      simp only [home, constant, pure_ok, Prod.mk.injEq] at run
      obtain ⟨rfl, rfl⟩ := run
      exact ⟨⟨rfl, fun w => home_setHome⟩, .inl ⟨rfl, rfl⟩⟩
    | none =>
      simp only [home, constant, bind_ok, pure_ok, Prod.exists, Prod.mk.injEq] at run
      obtain ⟨slot, taken, run, rfl, rfl⟩ := run
      obtain ⟨index, rfl, firstSlot, homes, isEnd, free, others⟩ := takeSlot_ok run
      refine ⟨⟨firstSlot, fun w => ?_⟩, .inr ⟨index, rfl, isEnd, free, others⟩⟩
      rw [home_setHome, home?, home?, homes]

end Frame

namespace Scan

variable {c : RegisterClass} {arrivals : Arrivals} {pos next : Position} {lo : ValueId → Position}
  {p p' : IntervalPool} {f f' : Frame} {v w : ValueId} {id : IntervalId} {i j : Interval}
  {l : Location}

def OfValue (p : IntervalPool) (v : ValueId) (i : Interval) : Prop :=
  ∃ id : IntervalId, p.intervals[id]? = some i ∧ i.value = some v

/-- The intervals in memory are where their values are at home. From the position `lo v` on the
value `v` may be in its slot. -/
structure Storage (c : RegisterClass) (arrivals : Arrivals) (pos : Position)
    (lo : ValueId → Position) (p : IntervalPool) (f : Frame) : Prop where
  home : ∀ v i, OfValue p v i → i.location.isMemory = true → f.home? v = some i.location
  kinds : ∀ v l, f.home? v = some l → l.isStackSlot = true ∨ l.isImmediate = true ∨
    (l.isStackParameter = true ∧ arrivals.find? v = some l)
  room : ∀ v k, f.home? v = some (.stackSlot k) → ∃ index stop, k = f.firstSlot + index ∧
    f.slotEnds[index]? = some stop ∧ ∀ i, OfValue p v i → i.stop ≤ stop
  since : ∀ v k i, f.home? v = some (.stackSlot k) → OfValue p v i →
    i.location = .stackSlot k ∨ (i.regClass = c ∧ pos < i.stop) → lo v ≤ i.start
  turns : ∀ v w k, v ≠ w → f.home? v = some (.stackSlot k) → f.home? w = some (.stackSlot k) →
    (∀ i, OfValue p v i → i.stop ≤ lo w) ∨ ∀ i, OfValue p w i → i.stop ≤ lo v

namespace Storage

variable (storage : Storage c arrivals pos lo p f)

include storage

theorem of_later (le : pos ≤ next) :
    Storage c arrivals next lo p f where
  home := storage.home
  kinds := storage.kinds
  room := storage.room
  since v k i home own reason := storage.since v k i home own (reason.imp_right fun ⟨cls, lt⟩ =>
    ⟨cls, Nat.lt_of_le_of_lt le lt⟩)
  turns := storage.turns

theorem of_parts
    (home : ∀ v j, OfValue p' v j → j.location.isMemory = true → f.home? v = some j.location)
    (part : ∀ v k j, f.home? v = some (.stackSlot k) → OfValue p' v j → ∃ i, OfValue p v i ∧
      i.start ≤ j.start ∧ j.stop ≤ i.stop ∧
      (j.location = .stackSlot k ∨ (j.regClass = c ∧ pos < j.stop) →
        i.location = .stackSlot k ∨ (i.regClass = c ∧ pos < i.stop))) :
    Storage c arrivals pos lo p' f := by
  refine ⟨home, storage.kinds, ?_, ?_, ?_⟩
  · intro v k home
    obtain ⟨index, stop, isSlot, isEnd, within⟩ := storage.room v k home
    refine ⟨index, stop, isSlot, isEnd, fun j own => ?_⟩
    obtain ⟨i, ownI, -, le, -⟩ := part v k j home own
    exact le.trans (within i ownI)
  · intro v k j home own reason
    obtain ⟨i, ownI, start, -, reasons⟩ := part v k j home own
    exact (storage.since v k i home ownI (reasons reason)).trans start
  · intro v w k other homeV homeW
    have ends {v w : ValueId} (home : f.home? v = some (.stackSlot k))
        (within : ∀ i, OfValue p v i → i.stop ≤ lo w) (j : Interval) (own : OfValue p' v j) :
        j.stop ≤ lo w := by
      obtain ⟨i, ownI, -, le, -⟩ := part v k j home own
      exact le.trans (within i ownI)
    exact (storage.turns v w k other homeV homeW).imp (ends homeV) (ends homeW)

theorem after_reassign (found : p.intervals[id]? = some i) (value : j.value = i.value)
    (home : ∀ v, i.value = some v → j.location.isMemory = true → f.home? v = some j.location)
    (part : ∀ v k, i.value = some v → f.home? v = some (.stackSlot k) →
      i.start ≤ j.start ∧ j.stop ≤ i.stop ∧
      (j.location = .stackSlot k ∨ (j.regClass = c ∧ pos < j.stop) →
        i.location = .stackSlot k ∨ (i.regClass = c ∧ pos < i.stop))) :
    Storage c arrivals pos lo (p.set id j) f := by
  apply storage.of_parts
  · rintro v m ⟨k, foundM, own⟩ memory
    rcases set_cases found foundM with ⟨rfl, rfl⟩ | ⟨-, foundM⟩
    · exact home v (value.symm.trans own) memory
    · exact storage.home v m ⟨k, foundM, own⟩ memory
  · rintro v slot m homeV ⟨k, foundM, own⟩
    rcases set_cases found foundM with ⟨rfl, rfl⟩ | ⟨-, foundM⟩
    · rw [value] at own
      exact ⟨i, ⟨_, found, own⟩, part v slot own homeV⟩
    · exact ⟨m, ⟨k, foundM, own⟩, Nat.le_refl _, Nat.le_refl _, fun reason => reason⟩

theorem after_relabel (found : p.intervals[id]? = some i)
    (same : i.Relabelled j) (outside : j.location.isMemory = false) :
    Storage c arrivals pos lo (p.set id j) f := by
  refine storage.after_reassign found same.value_eq (fun _ _ memory => by simp [outside] at memory) ?_
  refine fun v k _ _ => ⟨same.start_eq.ge, same.stop_eq.le, ?_⟩
  rintro (there | ⟨cls, lt⟩)
  · simp [there, Location.isMemory, isStack, isStackSlot, stackSlot] at outside
  · exact .inr ⟨by rw [← cls, regClass, regClass, same.ty_eq], same.stop_eq ▸ lt⟩

theorem after_divide (fit : i.Fit)
    (found : p.intervals[id]? = some i) {cut : Position} (late : i.start < cut)
    (inside : cut < i.stop) : Storage c arrivals pos lo (p.divided id i cut) f := by
  apply storage.of_parts
  · rintro v m ⟨k, foundM, own⟩ memory
    rcases divided_cases found foundM with ⟨rfl, rfl⟩ | ⟨rfl, rfl⟩ | ⟨-, before⟩
    · exact storage.home v i ⟨k, found, own⟩ memory
    · simp [rest] at memory
    · exact storage.home v m ⟨k, before, own⟩ memory
  · rintro v slot m - ⟨k, foundM, own⟩
    rcases divided_cases found foundM with ⟨rfl, rfl⟩ | ⟨rfl, rfl⟩ | ⟨-, before⟩
    · have ends : (i.upTo cut).stop ≤ i.stop := stop_upTo_le_stop fit.sorted
      exact ⟨i, ⟨k, found, own⟩, (start_upTo fit.sorted late inside).ge, ends,
        Or.imp_right (And.imp_right fun lt => Nat.lt_of_lt_of_le lt ends)⟩
    · have ends := stop_rest fit.sorted inside
      refine ⟨i, ⟨id, found, own⟩, start_le_start_rest fit.sorted inside, ends.le, ?_⟩
      rintro (there | ⟨cls, lt⟩)
      · simp [rest, invalid, stackSlot] at there
      · exact .inr ⟨cls, ends ▸ lt⟩
    · exact ⟨m, ⟨k, before, own⟩, Nat.le_refl _, Nat.le_refl _, fun reason => reason⟩

theorem kinds_memory (home : f.home? v = some l) : l.isMemory = true := by
  rcases storage.kinds v l home with slot | immediate | ⟨parameter, -⟩
  · simp [Location.isMemory, isStack, slot]
  · simp [Location.isMemory, immediate]
  · simp [Location.isMemory, isStack, parameter]

/-- A value that is spilled for the first time gets a home, before any interval is put there. -/
theorem after_house {start stop : Position} (homeless : f.home? v = none) (housed : f.Housed v l f')
    (place : (l.isImmediate = true ∧ f'.slotEnds = f.slotEnds) ∨
      ∃ index, l = .stackSlot (f.firstSlot + index) ∧ f'.slotEnds[index]? = some stop ∧
        (∀ e, f.slotEnds[index]? = some e → e ≤ start) ∧
        ∀ k e, k ≠ index → f.slotEnds[k]? = some e → f'.slotEnds[k]? = some e)
    (first : ∀ m, OfValue p v m → pos < m.stop → start ≤ m.start) (le : start ≤ stop)
    (within : ∀ m, OfValue p v m → m.stop ≤ stop) :
    ∃ lo, Storage c arrivals pos lo p f' := by
  obtain ⟨firstSlot, home⟩ := housed
  refine ⟨fun w => if w = v then start else lo w, ?_, ?_, ?_, ?_, ?_⟩
  · intro w m ownM memory
    have before := storage.home w m ownM memory
    have other : w ≠ v := by
      rintro rfl
      simp [homeless] at before
    simp [home, other, before]
  · intro w l' homeW
    rw [home] at homeW
    by_cases mine : w = v
    · obtain rfl : l = l' := by simpa [mine] using homeW
      rcases place with ⟨immediate, -⟩ | ⟨index, rfl, -⟩
      · exact .inr (.inl immediate)
      · exact .inl rfl
    · exact storage.kinds w l' (by simpa [mine] using homeW)
  · intro w k homeW
    rw [home] at homeW
    rw [firstSlot]
    by_cases mine : w = v
    · subst mine
      obtain rfl : l = .stackSlot k := by simpa using homeW
      rcases place with ⟨immediate, -⟩ | ⟨index, isSlot, isEnd, -⟩
      · simp [isImmediate, stackSlot] at immediate
      · exact ⟨index, stop, by simpa [stackSlot] using isSlot, isEnd, within⟩
    · obtain ⟨index, e, isSlot, isEnd, ends⟩ := storage.room w k (by simpa [mine] using homeW)
      rcases place with ⟨-, slotEnds⟩ | ⟨taken, rfl, isTaken, free, others⟩
      · exact ⟨index, e, isSlot, slotEnds ▸ isEnd, ends⟩
      · by_cases shared : index = taken
        · subst shared
          refine ⟨index, stop, isSlot, isTaken, fun m ownM => ?_⟩
          exact (ends m ownM).trans ((free e isEnd).trans le)
        · exact ⟨index, e, isSlot, others index e shared isEnd, ends⟩
  · intro w k m homeW ownM reason
    rw [home] at homeW
    by_cases mine : w = v
    · subst mine
      simp only [↓reduceIte]
      rcases reason with there | ⟨-, later⟩
      · have memory : m.location.isMemory = true := by rw [there]; rfl
        have atHome := storage.home w m ownM memory
        simp [homeless] at atHome
      · exact first m ownM later
    · simp only [mine, ↓reduceIte] at homeW ⊢
      exact storage.since w k m homeW ownM reason
  · -- Those who had the slot before are gone when the value comes.
    have before : ∀ w k, f.home? w = some (.stackSlot k) → l = .stackSlot k →
        ∀ m, OfValue p w m → m.stop ≤ start := by
      intro w k homeW isSlot m ownM
      obtain ⟨index, e, rfl, isEnd, ends⟩ := storage.room w k homeW
      rcases place with ⟨immediate, -⟩ | ⟨taken, rfl, -, free, -⟩
      · simp [isSlot, isImmediate, stackSlot] at immediate
      · obtain rfl : taken = index := by simpa [stackSlot] using isSlot
        exact (ends m ownM).trans (free e isEnd)
    intro w w' k other homeW homeW'
    rw [home] at homeW homeW'
    by_cases mine : w = v
    · have mine' : w' ≠ v := fun same => other (mine.trans same.symm)
      simp only [mine, mine', ↓reduceIte, some.injEq] at homeW homeW' ⊢
      exact .inr (before w' k homeW' homeW)
    · by_cases mine' : w' = v
      · simp only [mine, mine', ↓reduceIte, some.injEq] at homeW homeW' ⊢
        exact .inl (before w k homeW homeW')
      · simp only [mine, mine', ↓reduceIte] at homeW homeW' ⊢
        exact storage.turns w w' k other homeW homeW'

theorem after_spill (found : p.intervals[id]? = some i) (own : i.value = some v)
    (cls : i.regClass = c)
    (first : ∀ m, OfValue p v m → pos < m.stop → i.start ≤ m.start) (filled : i.start < i.stop)
    (behind : pos < i.stop) {stop : Position} (within : ∀ m, OfValue p v m → m.stop ≤ stop)
    {constant? : Option Word} (run : f.spill v constant? i.start stop = .ok (l, f'))
    (same : i.Relabelled j) (isPlace : j.location = l) :
    l.isMemory = true ∧ ∃ lo, Storage c arrivals pos lo (p.set id j) f' := by
  obtain ⟨lo', storage', home⟩ : ∃ lo, Storage c arrivals pos lo p f' ∧ f'.home? v = some l := by
    rcases Frame.spill_ok run with ⟨home, rfl⟩ | ⟨homeless, housed, place⟩
    · exact ⟨lo, storage, home⟩
    · have le : i.start ≤ stop := filled.le.trans (within i ⟨id, found, own⟩)
      obtain ⟨lo', storage'⟩ := storage.after_house homeless housed place first le within
      exact ⟨lo', storage', by simp [housed.home]⟩
  refine ⟨storage'.kinds_memory home, lo', storage'.after_reassign found same.value_eq ?_ ?_⟩
  · intro w ownW _
    obtain rfl := mem_unique own ownW
    rw [isPlace, home]
  · exact fun w k _ _ => ⟨same.start_eq.ge, same.stop_eq.le, fun _ => .inr ⟨cls, behind⟩⟩

theorem after_reshape (found : p.intervals[id]? = some i)
    (own : i.value = some v) (homeless : f.home? v = none) (ownJ : j.value = some v)
    (outside : j.location.isMemory = false) : Storage c arrivals pos lo (p.set id j) f := by
  refine storage.after_reassign found (ownJ.trans own.symm) ?_ ?_
  · intro w _ memory
    simp [outside] at memory
  · intro w k ownW home
    obtain rfl := mem_unique own ownW
    simp [homeless] at home

theorem after_arrive (isArrival : arrivals.find? v = some l) (parameter : l.isStackParameter = true)
    (outside : ∀ m, OfValue p v m → m.location.isMemory = false) :
    Storage c arrivals pos lo p (f.setHome v l) := by
  have noSlot : ∀ k, l ≠ .stackSlot k := by
    rintro k rfl
    simp [stackSlot, isStackParameter] at parameter
  have slots : ∀ w k, (f.setHome v l).home? w = some (.stackSlot k) →
      f.home? w = some (.stackSlot k) := by
    intro w k home
    rw [Frame.home_setHome] at home
    split at home
    · exact absurd (some.inj home) (noSlot k)
    · exact home
  refine ⟨?_, ?_, ?_, ?_, ?_⟩
  · intro w m ofW memory
    rw [Frame.home_setHome]
    split
    · rename_i here
      subst here
      simp [outside m ofW] at memory
    · exact storage.home w m ofW memory
  · intro w l' home
    rw [Frame.home_setHome] at home
    split at home
    · rename_i here
      obtain rfl := some.inj home
      exact .inr (.inr ⟨parameter, here ▸ isArrival⟩)
    · exact storage.kinds w l' home
  · exact fun w k home => storage.room w k (slots w k home)
  · exact fun w k m home => storage.since w k m (slots w k home)
  · exact fun w w' k apart home home' => storage.turns w w' k apart (slots w k home)
      (slots w' k home')

theorem after_moor (found : p.intervals[id]? = some i)
    (own : i.value = some v) (home : f.home? v = some l) (parameter : l.isStackParameter = true)
    (same : i.Relabelled j) (place : j.location = l) : Storage c arrivals pos lo (p.set id j) f := by
  refine storage.after_reassign found same.value_eq ?_ ?_
  · intro w ownW _
    obtain rfl := mem_unique own ownW
    rw [home, place]
  · intro w k ownW slot
    obtain rfl := mem_unique own ownW
    rw [home] at slot
    obtain rfl := some.inj slot
    simp [stackSlot, isStackParameter] at parameter

end Storage

end Scan

end RegisterAllocation
