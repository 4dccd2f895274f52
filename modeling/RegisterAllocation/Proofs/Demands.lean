import RegisterAllocation.Proofs.Occupancy

/-!
Demands on registers. The limit of a register is at or before every position from which somebody
wants it, so an interval that ends at the limit disturbs nobody.
-/

namespace RegisterAllocation

namespace Scan

variable {c : Pass} {s : Scan} {i j : Interval} {id : IntervalId} {reg : Nat} {pos : Position}
  {demands more : List Demand} {q : Position}

theorem foldl_limit_le (demands : List Demand) (reg : Nat) (pos : Position) :
    demands.foldl (fun pos demand => if demand.1 = reg then min pos demand.2 else pos) pos ≤ pos := by
  induction demands generalizing pos with
  | nil => exact Nat.le_refl pos
  | cons d rest ih =>
    rw [List.foldl_cons]
    apply (ih _).trans
    split
    · exact Nat.min_le_left ..
    · exact Nat.le_refl pos

theorem limit_le (member : (reg, q) ∈ demands) : limit demands reg ≤ q := by
  unfold limit
  generalize lastPosition = top
  induction demands generalizing top with
  | nil => simp at member
  | cons d rest ih =>
    rw [List.foldl_cons]
    rcases List.mem_cons.mp member with rfl | member
    · apply (foldl_limit_le rest reg _).trans
      simp
    · exact ih member _

theorem limit_append_le : limit (demands ++ more) reg ≤ limit demands reg := by
  unfold limit
  rw [List.foldl_append]
  exact foldl_limit_le more reg _

theorem furthest_cases (regs : List Nat) (limitOf : Nat → Position) :
    (regs = [] ∧ furthest regs limitOf = none) ∨ ∃ reg ∈ regs,
      furthest regs limitOf = some (reg, limitOf reg) ∧ ∀ r ∈ regs, limitOf r ≤ limitOf reg := by
  induction regs using List.reverseRecOn with
  | nil => exact .inl ⟨rfl, rfl⟩
  | append_singleton before last ih =>
    right
    unfold furthest at ih ⊢
    rw [List.foldl_append, List.foldl_cons, List.foldl_nil]
    rcases ih with ⟨rfl, -⟩ | ⟨reg, member, best, most⟩
    · exact ⟨last, by simp, rfl, by simp⟩
    · rw [best]
      by_cases further : limitOf last ≤ limitOf reg
      · refine ⟨reg, List.mem_append_left _ member, if_pos further, ?_⟩
        exact List.forall_mem_append.mpr ⟨most, List.forall_mem_singleton.mpr further⟩
      · refine ⟨last, by simp, if_neg further, ?_⟩
        refine List.forall_mem_append.mpr ⟨fun r isIn => ?_, by simp⟩
        exact (most r isIn).trans (Nat.le_of_not_le further)

theorem furthest_ok {regs : List Nat} {limitOf : Nat → Position}
    (found : furthest regs limitOf = some (reg, pos)) :
    reg ∈ regs ∧ pos = limitOf reg ∧ ∀ r ∈ regs, limitOf r ≤ pos := by
  rcases furthest_cases regs limitOf with ⟨-, none⟩ | ⟨best, member, isBest, most⟩
  · simp [none] at found
  · obtain ⟨rfl, rfl⟩ := Prod.mk.inj (Option.some.inj (isBest.symm.trans found))
    exact ⟨member, rfl, most⟩

theorem demandsOf_ok {demand : Interval → Option Position} {ids : List IntervalId}
    (run : s.demandsOf c demand ids = .ok demands) (member : id ∈ ids)
    (found : s.pool.intervals[id]? = some i) (inClass : i.location.inClass c.regClass = true)
    (wants : demand i = some q) : (i.location.index, q) ∈ demands := by
  simp only [demandsOf, bind_ok, pure_ok] at run
  obtain ⟨all, each, rfl⟩ := run
  obtain ⟨d, isIn, run⟩ := mapM_mem each member
  simp only [regOf, bind_ok, IntervalPool.get_ok, found, pure_ok, Option.some.injEq,
    exists_eq_left', inClass, ↓reduceIte] at run
  rw [List.mem_filterMap]
  refine ⟨d, isIn, ?_⟩
  simp only [wants, Option.map_some] at run
  rw [← run]
  rfl

theorem callDemands_ok (run : s.callDemands c i = .ok demands) {f : IntervalId} (member : f ∈ c.fixed)
    (found : s.pool.intervals[f]? = some j) {from' : Position}
    (isFrom : callsFrom c i = .ok from') (meets : j.meets? i from' = some q) :
    (j.location.index, q) ∈ demands := by
  simp only [callDemands, bind_ok, pure_ok] at run
  obtain ⟨lo, isLo, all, each, rfl⟩ := run
  obtain rfl : from' = lo := Except.ok.inj (isFrom.symm.trans isLo)
  obtain ⟨d, isIn, run⟩ := mapM_mem each member
  simp only [bind_ok, IntervalPool.get_ok, found, pure_ok, Option.some.injEq, exists_eq_left',
    meets, Option.map_some] at run
  rw [List.mem_filterMap]
  exact ⟨d, isIn, by rw [← run]; rfl⟩

theorem callsFrom_ok {from' : Position} (run : callsFrom c i = .ok from') :
    from' = i.start ∨ (from' = i.start + 1 ∧ CallResult c.graph i) := by
  unfold callsFrom at run
  split at run
  · exact .inl (pure_ok.mp run).symm
  · rename_i d defined
    simp only [bind_ok, Graph.instr_ok, pure_ok] at run
    obtain ⟨x, found, rfl⟩ := run
    split
    · exact .inr ⟨rfl, d, x, defined, found, ‹_›⟩
    · exact .inl rfl

theorem spared_by_calls (run : s.callDemands c i = .ok demands) {f : IntervalId}
    (member : f ∈ c.fixed) (found : s.pool.intervals[f]? = some j)
    (sortedI : Range.Sorted i.ranges) (sortedJ : Range.Sorted j.ranges) {stop : Position}
    (below : ∀ q, (j.location.index, q) ∈ demands → stop ≤ q) (covered : i.covers q = true)
    (destroyed : j.covers q = true) (early : q < stop) : q = i.start ∧ CallResult c.graph i := by
  have run' := run
  simp only [callDemands, bind_ok] at run'
  obtain ⟨lo, isLo, -⟩ := run'
  have started := Interval.start_le sortedI covered
  by_cases late : lo ≤ q
  · obtain ⟨first, meets, le⟩ := Interval.meets_le sortedJ sortedI late destroyed covered
    have := below first (callDemands_ok run member found isLo meets)
    lia
  · rcases callsFrom_ok isLo with rfl | ⟨rfl, result⟩
    · exact absurd started late
    · exact ⟨by lia, result⟩

end Scan

end RegisterAllocation
