import RegisterAllocation.Proofs.Inlay

/-!
The moves in front of instructions. Wherever a value changes its place inside a block, the moves
for the instruction behind that gap are gathered in one group, right in front of the instruction.
-/

namespace RegisterAllocation

open List Build Instr
open Option (mem_unique)

namespace Connection

open Graph

variable {g h k : Graph} {b : BlockId} {C : Block} {i d anchor : InstrId} {x : Instr} {pos : Nat}
  {l : Liveness} {gap : InstrId → List Move} {front front' : InstrId → Option InstrId}
  {ds : List InstrId} {m : Move} {group group' : MoveGroup}

def NewGroup (g h : Graph) (i : InstrId) (group : MoveGroup) : Prop :=
  g.instrs.size ≤ i ∧ ∃ y, h.instrs[i]? = some y ∧ y.group = some group

theorem NewGroup.after_insert {y : Instr} (carries : NewGroup g h i group) :
    NewGroup g (Build.inserted h b C pos y) i group := by
  obtain ⟨new, z, found, has⟩ := carries
  refine ⟨new, z, ?_, has⟩
  rw [instr_inserted, if_neg (Nat.ne_of_lt (found_lt found)), found]

theorem NewGroup.of_new (size : g.instrs.size ≤ h.instrs.size) :
    NewGroup g (Build.inserted h b C pos (ofGroup b group)) h.instrs.size group :=
  ⟨size, _, by rw [instr_inserted, if_pos rfl], rfl⟩

def script (front : InstrId → Option InstrId) (ds : List InstrId) : List InstrId :=
  ds.flatMap fun d => (front d).toList ++ [d]

theorem script_congr (same : ∀ d ∈ ds, front' d = front d) : script front' ds = script front ds :=
  flatMap_congr fun d member => by rw [same d member]

structure Laid (g h : Graph) (gap : InstrId → List Move) (front : InstrId → Option InstrId) :
    Prop where
  woven : g.Woven h
  ends : ∀ c, ends h c = ends g c
  block : ∀ (b : BlockId) (B : Block), g.blocks[b]? = some B →
    ∃ C, h.blocks[b]? = some C ∧ C.instrs = script front B.instrs
  empty : ∀ d, front d = none → gap d = []
  group : ∀ d i, front d = some i →
    g.phiAt d = false ∧ NewGroup g h i ⟨.splitMove, gap d, false⟩
  once : ∀ d d' i, front d = some i → front d' = some i → d = d'

namespace Laid

theorem refl (consistent : g.Consistent) (first : g.PhisFirst) :
    Laid g g (fun _ => []) fun _ => none :=
  ⟨.refl consistent first, fun _ => rfl, fun _ B stored => ⟨B, stored, by simp [script]⟩,
    fun _ _ => rfl, by simp, by simp⟩

theorem exists_place (laid : Laid g h gap front) (bare : g.Bare) (consistent : g.Consistent)
    (found : g.instrs[anchor]? = some x) (storedC : h.blocks[x.block]? = some C)
    {earlier fills : List InstrId}
    (split : C.instrs.take (C.instrs.idxOf anchor) = earlier ++ fills)
    (all : ∀ i ∈ fills, ∃ y, h.instrs[i]? = some y ∧ y.purpose? = some .inputFill) :
    ∃ B ds₁ ds₂, g.blocks[x.block]? = some B ∧ B.instrs = ds₁ ++ anchor :: ds₂ ∧
      earlier = script front ds₁ ++ (front anchor).toList ∧
      C.instrs = earlier ++ anchor :: script front ds₂ ∧
      openGroup? h earlier.reverse = .ok (front anchor) := by
  obtain ⟨B, storedB, listed⟩ := consistent.listed_of_instr found
  obtain ⟨C', storedC', isC⟩ := laid.block _ B storedB
  obtain rfl := mem_unique storedC storedC'
  obtain ⟨ds₁, ds₂, isB⟩ := append_of_mem listed
  have old : ∀ j ∈ B.instrs, ∃ y, h.instrs[j]? = some y ∧ y.group = none := by
    intro j member
    obtain ⟨z, foundZ, -⟩ := consistent.instr_of_listed storedB member
    obtain ⟨y, foundY, -, -, none⟩ := laid.woven.instr j z foundZ
    exact ⟨y, foundY, none (bare j z foundZ)⟩
  have whole : C.instrs =
      (script front ds₁ ++ (front anchor).toList) ++ anchor :: script front ds₂ := by
    simp [isC, isB, script]
  have isTake : C.instrs.take (C.instrs.idxOf anchor) =
      script front ds₁ ++ (front anchor).toList := by
    have once := (laid.woven.listed _ C storedC).1
    rw [whole] at once ⊢
    have fresh : anchor ∉ script front ds₁ ++ (front anchor).toList := fun again =>
      (nodup_append.mp once).2.2 anchor again anchor mem_cons_self rfl
    rw [idxOf_append_of_notMem fresh, idxOf_cons_self, Nat.add_zero, take_left]
  obtain rfl : fills = [] := by
    refine eq_nil_iff_forall_not_mem.mpr fun j member => ?_
    obtain ⟨z, foundZ, fill⟩ := all j member
    have among : j ∈ C.instrs.take (C.instrs.idxOf anchor) := by simp [split, member]
    have among := mem_of_mem_take among
    rw [isC, script, mem_flatMap] at among
    obtain ⟨d, isIn, among⟩ := among
    rcases mem_append.mp among with isFront | isOld
    · obtain ⟨-, -, z', foundZ', has⟩ := laid.group d j (by simpa using isFront)
      obtain rfl := mem_unique foundZ foundZ'
      simp [purpose?, has] at fill
    · obtain rfl := mem_singleton.mp isOld
      obtain ⟨z', foundZ', noGroup⟩ := old j isIn
      obtain rfl := mem_unique foundZ foundZ'
      simp [purpose?, noGroup] at fill
  obtain rfl : script front ds₁ ++ (front anchor).toList = earlier := by
    rw [← isTake, split, append_nil]
  refine ⟨B, ds₁, ds₂, storedB, isB, rfl, whole, ?_⟩
  cases isFront : front anchor with
  | some i =>
    obtain ⟨-, -, z, foundZ, has⟩ := laid.group anchor i isFront
    simp [openGroup?, Graph.instr_ok.mpr foundZ, has]
  | none =>
    rcases eq_nil_or_concat' ds₁ with rfl | ⟨ds, j, rfl⟩
    · rfl
    · obtain ⟨z, foundZ, noGroup⟩ := old j (by simp [isB])
      simp [script, openGroup?, Graph.instr_ok.mpr foundZ, noGroup]

theorem after_moveBefore (laid : Laid g h gap front) (bare : g.Bare) (consistent : g.Consistent)
    (found : g.instrs[anchor]? = some x) (plain : g.phiAt anchor = false) {u : Unit}
    (run : moveBefore anchor m h = .ok (u, k)) :
    ∃ front, Laid g k (fun d => if d = anchor then gap d ++ [m] else gap d) front := by
  have woven := moveBefore_woven laid.woven (fun i x found _ => bare i x found)
    (by rw [laid.woven.phiAt_eq (found_lt found), plain]) run
  obtain ⟨y, C, earlier, fills, foundY, storedC, -, split, all, changed⟩ := moveBefore_run run
  obtain ⟨y', foundY', -, owner, -⟩ := laid.woven.instr anchor x found
  obtain rfl := mem_unique foundY foundY'
  rw [owner] at storedC changed
  obtain ⟨B, ds₁, ds₂, storedB, isB, isEarlier, isC, opened⟩ :=
    laid.exists_place bare consistent found storedC split all
  rcases changed with ⟨i, isFront, modified⟩ | ⟨group, i, isFront, made, inserted⟩
  · have isFront := Except.ok.inj (opened.symm.trans isFront)
    refine ⟨front, woven, fun c => (ends_modifyGroup modified c).trans (laid.ends c), ?_, ?_, ?_,
      laid.once⟩
    all_goals obtain ⟨z, group, group', foundZ, has, made, rfl⟩ := modifyGroup_run.mp modified
    · exact laid.block
    · intro d none
      rw [if_neg, laid.empty d none]
      rintro rfl
      simp [none] at isFront
    · intro d j isAt
      obtain ⟨plain, new, z', foundZ', has'⟩ := laid.group d j isAt
      refine ⟨plain, new, ?_⟩
      by_cases here : d = anchor
      · subst here
        obtain rfl := mem_unique isFront isAt
        obtain rfl := mem_unique foundZ foundZ'
        obtain rfl := mem_unique has has'
        obtain ⟨-, rfl⟩ := MoveGroup.add_ok made
        exact ⟨_, Array.getElem?_setIfInBounds_self_of_lt (found_lt foundZ), by simp⟩
      · have other : i ≠ j := by
          rintro rfl
          exact here (laid.once d anchor i isAt isFront)
        exact ⟨z', (Array.getElem?_setIfInBounds_ne other).trans foundZ', by rw [if_neg here, has']⟩
  · have isFront := Except.ok.inj (opened.symm.trans isFront)
    obtain ⟨-, rfl⟩ := MoveGroup.add_ok made
    have sameEnds := ends_insertAt inserted
    obtain ⟨rfl, C', stored, -, rfl⟩ := insertAt_run.mp inserted
    obtain rfl := mem_unique storedC stored
    have fresh : ∀ d, front d ≠ some h.instrs.size := by
      intro d isAt
      obtain ⟨-, -, z, foundZ, -⟩ := laid.group d _ isAt
      exact absurd (found_lt foundZ) (Nat.lt_irrefl _)
    have others : ∀ {ds : List InstrId}, anchor ∉ ds →
        script (fun d => if d = anchor then some h.instrs.size else front d) ds = script front ds :=
      fun away => script_congr fun d member => if_neg (by rintro rfl; exact away member)
    refine ⟨fun d => if d = anchor then some h.instrs.size else front d, woven,
      fun c => (sameEnds c).trans (laid.ends c), fun c D storedD => ?_, ?_, ?_, ?_⟩
    · rw [block_inserted storedC]
      split
      · rename_i here
        subst here
        obtain rfl := mem_unique storedB storedD
        have onceB := consistent.block_nodup storedB
        rw [isB] at onceB ⊢
        refine ⟨_, rfl, ?_⟩
        rw [script, flatMap_append, flatMap_cons]
        change _ = script _ ds₁ ++ (_ ++ script _ ds₂)
        rw [others (by grind), others (by grind)]
        simp [isC, isEarlier, isFront]
      · rename_i other
        obtain ⟨E, storedE, isE⟩ := laid.block c D storedD
        refine ⟨E, storedE, isE.trans (others fun member => other ?_).symm⟩
        obtain ⟨z, foundZ, rfl⟩ := consistent.instr_of_listed storedD member
        obtain rfl := mem_unique found foundZ
        rfl
    · intro d none
      split at none
      · cases none
      · rw [if_neg ‹_›, laid.empty d none]
    · intro d j isAt
      split at isAt
      · rename_i here
        obtain rfl := Option.some.inj isAt
        rw [if_pos here, here, laid.empty anchor isFront]
        exact ⟨plain, .of_new laid.woven.size_le⟩
      · rw [if_neg ‹_›]
        exact (laid.group d j isAt).imp_right NewGroup.after_insert
    · intro d d' j isAt isAt'
      grind [laid.once d d' j]

end Laid

def Joins (n : Numbering) (d : InstrId) (m : Move) (pair : Interval × Interval) : Prop :=
  Moves pair.1 pair.2 ∧ n.instrAt? (pair.2.start + 1) = some d ∧
    m = ⟨pair.1.location, pair.2.location, pair.1.ty⟩

namespace Laid

variable (bare : g.Bare) (consistent : g.Consistent) (numbered : l.numbering.Numbered g)

include bare consistent numbered

theorem after_connect (laid : Laid g h gap front) {i j : Interval} {u : Unit}
    (run : connect l.numbering i j h = .ok (u, k)) :
    ∃ gap' front', Laid g k gap' front' ∧
      ∀ d m, m ∈ gap' d ↔ m ∈ gap d ∨ Joins l.numbering d m (i, j) := by
  rcases connect_run run with ⟨rfl, still⟩ | ⟨anchor, moves, isAt, moved⟩
  · refine ⟨gap, front, laid, fun d m => ⟨.inl, fun either => either.resolve_right ?_⟩⟩
    rintro ⟨moves, isAt, -⟩
    rw [still moves] at isAt
    simp at isAt
  · obtain ⟨inside, plain⟩ := numbered.instrAt_plain consistent isAt
    obtain ⟨front', laid⟩ := laid.after_moveBefore bare consistent
      (Array.getElem?_eq_getElem inside) plain moved
    refine ⟨_, front', laid, fun d m => ?_⟩
    by_cases here : d = anchor
    · subst here
      simp [Joins, moves, isAt]
    · have other : l.numbering.instrAt? (j.start + 1) ≠ some d := by
        simpa [isAt] using Ne.symm here
      simp [Joins, here, other]

theorem after_connectAll (laid : Laid g h gap front) {is : List Interval} {u : Unit}
    (run : connectAll l.numbering is h = .ok (u, k)) :
    ∃ gap' front', Laid g k gap' front' ∧ ∀ d m, m ∈ gap' d ↔
      m ∈ gap d ∨ ∃ pair ∈ is.zip is.tail, Joins l.numbering d m pair := by
  fun_induction connectAll l.numbering is generalizing h gap front with
  | case1 i j rest ih =>
    obtain ⟨_, next, first, run⟩ := bind_run.mp run
    obtain ⟨gap₁, front₁, laid, mem₁⟩ := laid.after_connect bare consistent numbered first
    obtain ⟨gap₂, front₂, laid, mem₂⟩ := ih laid run
    refine ⟨gap₂, front₂, laid, fun d m => ?_⟩
    rw [mem₂, mem₁, or_assoc]
    simp
  | case2 is other =>
    obtain ⟨-, rfl⟩ := Prod.mk.inj (pure_run.mp run)
    refine ⟨gap, front, laid, fun d m => ?_⟩
    rcases is with _ | ⟨i, _ | ⟨j, rest⟩⟩
    · simp
    · simp
    · exact absurd rfl (other i j rest)

theorem after_withinBlocks (laid : Laid g h gap front) {ids : List IntervalId} {u : Unit}
    (run : (ids.forM fun id => do
      connectAll l.numbering (← siblings l.pool id) : Build Unit) h = .ok (u, k)) :
    ∃ gap' front', Laid g k gap' front' ∧ ∀ d m, m ∈ gap' d ↔ m ∈ gap d ∨ ∃ id ∈ ids, ∃ is,
      siblings l.pool id = .ok is ∧ ∃ pair ∈ is.zip is.tail, Joins l.numbering d m pair := by
  induction ids generalizing h gap front with
  | nil =>
    obtain ⟨-, rfl⟩ := Prod.mk.inj (pure_run.mp run)
    exact ⟨gap, front, laid, by simp⟩
  | cons id rest ih =>
    obtain ⟨_, next, first, others⟩ := bind_run.mp run
    simp only [bind_run, lift_run] at first
    obtain ⟨is, _, ⟨isSiblings, rfl⟩, first⟩ := first
    obtain ⟨gap₁, front₁, laid, mem₁⟩ := laid.after_connectAll bare consistent numbered first
    obtain ⟨gap₂, front₂, laid, mem₂⟩ := ih laid others
    refine ⟨gap₂, front₂, laid, fun d m => ?_⟩
    rw [mem₂, mem₁, or_assoc]
    simp [isSiblings]

end Laid

end Connection

end RegisterAllocation
