import RegisterAllocation.Proofs.Annotation

/-!
Where allocation puts moves. Terminators stay at the ends of their blocks, every edge leads to where
it led before, if by way of a block of moves, and what moves a parameter does not stand ahead of it.
-/

namespace RegisterAllocation

open Array List Option Build Connection Instr Placement

namespace Build

variable {old new : BlockId} {bs : List BlockId} {j : Nat}

theorem getElem_replaceFirst_first (here : bs[j]? = some old)
    (first : ∀ i < j, bs[i]? ≠ some old) : (replaceFirst old new bs)[j]? = some new := by
  induction bs generalizing j with
  | nil => simp at here
  | cons b rest ih =>
    rw [replaceFirst]
    cases j with
    | zero => simp_all
    | succ j =>
      have other : b ≠ old := by simpa using first 0 (Nat.succ_pos j)
      rw [if_neg other, getElem?_cons_succ]
      exact ih here fun i less => first (i + 1) (Nat.succ_lt_succ less)

theorem getElem_replaceFirst_other (other : bs[j]? ≠ some old) :
    (replaceFirst old new bs)[j]? = bs[j]? := by
  induction bs generalizing j with
  | nil => rfl
  | cons b rest ih =>
    rw [replaceFirst]
    split
    · rename_i same
      cases j with
      | zero => simp [same] at other
      | succ j => rfl
    · cases j with
      | zero => rfl
      | succ j => exact ih other

end Build

namespace Graph

variable {g h k : Graph} {b s : BlockId} {B S C : Block} {i d : InstrId} {x y : Instr}
  {due : MoveGroup → InstrId → Prop} {before after : List InstrId}

theorem SingleEdges.preds_nodup (single : g.SingleEdges) (consistent : g.Consistent)
    (stored : g.blocks[s]? = some S) : S.preds.Nodup := by
  have outs : g.outEdges.Nodup := by
    refine nodup_flatMap.mpr ⟨?_, ?_⟩
    · rintro ⟨B, b⟩ member
      have stored := mk_mem_zipIdx_iff_getElem?.mp member
      exact (single b B (by simpa using stored)).map fun _ _ same => (Prod.mk.inj same).2
    · rw [List.pairwise_iff_getElem]
      intro i j hi hj less
      simp only [List.getElem_zipIdx, Function.onFun, disjoint_left, List.mem_map]
      rintro _ ⟨s, -, rfl⟩ ⟨s', -, same⟩
      have := (Prod.mk.inj same).1
      lia
  have ins := (nodup_flatMap.mp (consistent.mirrored.nodup_iff.mp outs)).1 (S, s)
    (mk_mem_zipIdx_iff_getElem?.mpr (by simpa using stored))
  exact ins.of_map

open Connection (ends)

/-- The way of an edge from successor number `j` of `b` to predecessor number `n` of `s`, once blocks
have been put on edges: straight on, or through a new block. -/
structure Way (g h : Graph) (b s : BlockId) (j n : Nat) (first last : BlockId) : Prop where
  out : ∃ ins outs, ends h b = some (ins, outs) ∧ outs[j]? = some first
  into : ∃ ins outs, ends h s = some (ins, outs) ∧ ins[n]? = some last
  between : (first = s ∧ last = b) ∨
    (first = last ∧ g.blocks.size ≤ first ∧ ends h first = some ([b], [s]))

def Routed (g h : Graph) : Prop :=
  ∀ (b s : BlockId) (B S : Block) (j : Nat), g.blocks[b]? = some B → B.succs[j]? = some s →
    g.blocks[s]? = some S → b ∈ S.preds →
    ∃ first last, Way g h b s j (S.preds.idxOf b) first last

theorem Routed.congr (routed : g.Routed h) (same : ∀ c, ends k c = ends h c) : g.Routed k := by
  intro b s B S j stored succ storedS pred
  obtain ⟨first, last, way⟩ := routed b s B S j stored succ storedS pred
  refine ⟨first, last, ?_, ?_, ?_⟩
  · rw [same]
    exact way.out
  · rw [same]
    exact way.into
  · rw [same]
    exact way.between

theorem ends_splitEdge {pred succ n : BlockId} (run : Build.splitEdge pred succ h = .ok (n, k)) :
    ends k n = some ([pred], [succ]) ∧
      ∀ c ins outs, ends h c = some (ins, outs) → ends k c = some
        (if c = succ then Build.replaceFirst pred n ins else ins,
          if c = pred then Build.replaceFirst succ n outs else outs) := by
  obtain ⟨rfl, -, -, new, others, -⟩ := splitEdge_run run
  refine ⟨by simp [ends, new], fun c ins outs isEnds => ?_⟩
  obtain ⟨C, stored, both⟩ := map_eq_some_iff.mp isEnds
  obtain ⟨rfl, rfl⟩ := Prod.mk.inj both
  simp [ends, others c C stored, rerouted]

namespace Routed

theorem out_cases (routed : g.Routed h) (consistent : g.Consistent) (w : g.Woven h)
    (stored : g.blocks[b]? = some B) {ins outs : List BlockId} (isEnds : ends h b = some (ins, outs))
    {j : Nat} {t : BlockId} (isAt : outs[j]? = some t) (old : t < g.blocks.size) :
    B.succs[j]? = some t := by
  obtain ⟨C, storedC, -, -, length⟩ := w.block b B stored
  obtain ⟨D, storedD, both⟩ := map_eq_some_iff.mp isEnds
  obtain rfl := mem_unique storedC storedD
  obtain ⟨-, rfl⟩ := Prod.mk.inj both
  have inside : j < B.succs.length := length ▸ (listed_lt isAt)
  obtain ⟨S, storedS, pred⟩ := consistent.pred_of_succ stored (getElem_mem inside)
  obtain ⟨first, last, ⟨_, outs, isEnds', isFirst⟩, -, between⟩ :=
    routed b _ B S j stored (getElem?_eq_getElem inside) storedS pred
  obtain ⟨-, rfl⟩ := Prod.mk.inj (mem_unique isEnds isEnds')
  obtain rfl := mem_unique isAt isFirst
  rcases between with ⟨same, -⟩ | ⟨-, new, -⟩
  · rw [getElem?_eq_getElem inside, same]
  · exact absurd old (Nat.not_lt.mpr new)

theorem into_cases (routed : g.Routed h) (consistent : g.Consistent) (single : g.SingleEdges)
    (w : g.Woven h) (stored : g.blocks[s]? = some S) {ins outs : List BlockId}
    (isEnds : ends h s = some (ins, outs)) {n : Nat} {t : BlockId} (isAt : ins[n]? = some t)
    (old : t < g.blocks.size) : S.preds[n]? = some t := by
  obtain ⟨C, storedC, -, length, -⟩ := w.block s S stored
  obtain ⟨D, storedD, both⟩ := map_eq_some_iff.mp isEnds
  obtain rfl := mem_unique storedC storedD
  obtain ⟨rfl, -⟩ := Prod.mk.inj both
  have inside : n < S.preds.length := length ▸ (listed_lt isAt)
  obtain ⟨P, storedP, succ⟩ := consistent.succ_of_pred stored (getElem_mem inside)
  obtain ⟨j, isSucc⟩ := mem_iff_getElem?.mp succ
  obtain ⟨first, last, -, ⟨ins, _, isEnds', isLast⟩, between⟩ :=
    routed _ s P S j storedP isSucc stored (getElem_mem inside)
  obtain ⟨rfl, -⟩ := Prod.mk.inj (mem_unique isEnds isEnds')
  rw [(single.preds_nodup consistent stored).idxOf_getElem n inside] at isLast
  obtain rfl := mem_unique isAt isLast
  rcases between with ⟨-, same⟩ | ⟨rfl, new, -⟩
  · rw [getElem?_eq_getElem inside, same]
  · exact absurd old (Nat.not_lt.mpr new)

theorem after_splitEdge (routed : g.Routed h) (consistent : g.Consistent) (single : g.SingleEdges)
    (w : g.Woven h) {pred succ n : BlockId} (oldP : pred < g.blocks.size)
    (oldS : succ < g.blocks.size) (run : Build.splitEdge pred succ h = .ok (n, k)) :
    g.Routed k := by
  intro b s B S j stored isSucc storedS isPred
  obtain ⟨first, last, ⟨_, outs, endsB, isFirst⟩, ⟨ins, _, endsS, isLast⟩, between⟩ :=
    routed b s B S j stored isSucc storedS isPred
  obtain ⟨endsN, others⟩ := ends_splitEdge run
  have new : g.blocks.size ≤ n := by
    obtain ⟨rfl, -⟩ := splitEdge_run run
    exact w.blocks
  by_cases here : b = pred ∧ s = succ ∧ first = s
  · -- the edge itself, which is the only one between its ends
    obtain ⟨rfl, rfl, rfl⟩ := here
    obtain ⟨-, rfl⟩ : first = first ∧ last = b := by
      refine between.resolve_right ?_
      rintro ⟨-, isNew, -⟩
      exact absurd oldS (Nat.not_lt.mpr isNew)
    refine ⟨n, n, ⟨_, _, others _ _ _ endsB, ?_⟩, ⟨_, _, others _ _ _ endsS, ?_⟩,
      .inr ⟨rfl, new, endsN⟩⟩
    · rw [if_pos rfl]
      refine Build.getElem_replaceFirst_first isFirst fun i less isAt => ?_
      have again := routed.out_cases consistent w stored endsB isAt oldS
      have bound := listed_lt again
      have := (getElem?_inj bound (single _ B stored)).mp (again.trans isSucc.symm)
      omega
    · rw [if_pos rfl]
      refine Build.getElem_replaceFirst_first isLast fun i less isAt => ?_
      have again := routed.into_cases consistent single w storedS endsS isAt oldP
      have bound := listed_lt again
      have := (getElem?_inj bound (single.preds_nodup consistent storedS)).mp
        (again.trans (getElem?_idxOf isPred).symm)
      omega
  · have isOld : ∀ {t}, t < g.blocks.size → ¬g.blocks.size ≤ t := fun old => Nat.not_le.mpr old
    have out : b = pred → first ≠ succ := by
      rintro rfl rfl
      rcases between with ⟨rfl, -⟩ | ⟨-, isNew, -⟩
      · exact here ⟨rfl, rfl, rfl⟩
      · exact isOld oldS isNew
    have into : s = succ → last ≠ pred := by
      rintro rfl rfl
      rcases between with ⟨rfl, rfl⟩ | ⟨rfl, isNew, -⟩
      · exact here ⟨rfl, rfl, rfl⟩
      · exact isOld oldP isNew
    refine ⟨first, last, ⟨_, _, others _ _ _ endsB, ?_⟩, ⟨_, _, others _ _ _ endsS, ?_⟩,
      between.imp_right ?_⟩
    · split
      · rename_i isB
        rw [Build.getElem_replaceFirst_other, isFirst]
        simpa [isFirst] using out isB
      · exact isFirst
    · split
      · rename_i isS
        rw [Build.getElem_replaceFirst_other, isLast]
        simpa [isLast] using into isS
      · exact isLast
    · rintro ⟨same, isNew, endsT⟩
      refine ⟨same, isNew, ?_⟩
      rw [others _ _ _ endsT, if_neg, if_neg]
      · rintro rfl
        exact isOld oldP isNew
      · rintro rfl
        exact isOld oldS isNew

end Routed

def terminatorAt (g : Graph) (i : InstrId) : Bool := g.instrs[i]?.any (·.opcode.isTerminator)

/-- Groups of moves are put in where they may be: `due` says of a group which instructions of the
program may still be to come. -/
structure Inlaid (g : Graph) (due : MoveGroup → InstrId → Prop) (h : Graph) : Prop where
  woven : g.Woven h
  routed : g.Routed h
  last : ∀ (b : BlockId) (C : Block), h.blocks[b]? = some C →
    C.instrs.Pairwise fun i _ => g.terminatorAt i = false
  due : ∀ (b : BlockId) (C : Block) (before after : List InstrId) (i : InstrId) (y : Instr)
    (group : MoveGroup), h.blocks[b]? = some C → C.instrs = before ++ i :: after →
    h.instrs[i]? = some y → y.group = some group → ∀ d ∈ after, d < g.instrs.size → due group d

theorem terminatorAt_added {i : InstrId} (new : g.instrs.size ≤ i) : g.terminatorAt i = false := by
  simp [terminatorAt, Array.getElem?_eq_none new]

theorem Woven.split_old (w : g.Woven h) (consistent : g.Consistent) (stored : h.blocks[b]? = some C)
    (split : C.instrs = before ++ i :: after) (found : g.instrs[i]? = some x) :
    x.block = b ∧ ∃ B, g.blocks[b]? = some B ∧ B.instrs =
      before.filter (· < g.instrs.size) ++ i :: after.filter (· < g.instrs.size) := by
  obtain ⟨y, foundY, owner⟩ := (w.listed b C stored).2 i (by simp [split])
  obtain ⟨y', foundY', -, sameOwner, -⟩ := w.instr i x found
  obtain rfl := mem_unique foundY foundY'
  obtain rfl : x.block = b := sameOwner.symm.trans owner
  obtain ⟨B, storedB, -⟩ := consistent.listed_of_instr found
  obtain ⟨C', storedC', same, -⟩ := w.block _ B storedB
  obtain rfl := mem_unique stored storedC'
  refine ⟨rfl, B, storedB, ?_⟩
  have inside := found_lt found
  rw [← same, split, List.filter_append, filter_cons_of_pos (by simpa using inside)]

theorem Woven.size_not_mem (w : g.Woven h) (stored : h.blocks[b]? = some C) :
    h.instrs.size ∉ C.instrs := by
  intro isIn
  obtain ⟨y, found, -⟩ := (w.listed b C stored).2 _ isIn
  exact Nat.lt_irrefl _ (found_lt found)

namespace Inlaid

theorem after_insertAt (inlaid : Inlaid g due h) {pos : Nat} {group : MoveGroup} {owner : BlockId}
    (run : Build.insertAt b pos (ofGroup owner group) h = .ok (i, k)) (w : g.Woven k)
    (fits : ∀ C, h.blocks[b]? = some C → (∀ j ∈ C.instrs.take pos, g.terminatorAt j = false) ∧
      ∀ j ∈ C.instrs.drop pos, j < g.instrs.size → due group j) : Inlaid g due k := by
  refine ⟨w, inlaid.routed.congr (ends_insertAt run), ?_, ?_⟩
  all_goals
    obtain ⟨rfl, C, stored, -, rfl⟩ := insertAt_run.mp run
    obtain ⟨noEnd, isDue⟩ := fits C stored
    have grown := inlaid.woven.size_le
    have middle := take_append_drop pos C.instrs
  · intro c D storedD
    rw [block_inserted stored] at storedD
    split at storedD
    · obtain rfl := some.inj storedD
      have ended := inlaid.last b C stored
      rw [← middle, List.pairwise_append] at ended
      obtain ⟨before, after, across⟩ := ended
      rw [List.pairwise_append, pairwise_cons]
      refine ⟨before, ⟨fun _ _ => terminatorAt_added grown, after⟩, fun i isIn _ _ => noEnd i isIn⟩
    · exact inlaid.last c D storedD
  · intro c D before after i y group' storedD split foundY has d member old
    rw [instr_inserted] at foundY
    rw [block_inserted stored] at storedD
    split at storedD
    · obtain rfl := some.inj storedD
      have outside := inlaid.woven.size_not_mem stored
      split at foundY
      · rename_i isNew
        subst isNew
        obtain rfl := some.inj foundY
        obtain rfl := some.inj has
        obtain ⟨-, -, rfl⟩ := (append_cons_inj_of_notMem
          (fun isIn => outside (mem_of_mem_take isIn))
          (fun isIn => outside (mem_of_mem_drop isIn))).mp split
        exact isDue d member old
      · rename_i other
        -- without the new group the block is as it was
        have same : C.instrs = before.filter (· ≠ h.instrs.size) ++
            i :: after.filter (· ≠ h.instrs.size) := by
          have kept : C.instrs.filter (· ≠ h.instrs.size) = C.instrs :=
            filter_eq_self.mpr fun j isIn => by
              simpa using fun isNew : j = h.instrs.size => outside (isNew ▸ isIn)
          have parts := congrArg (List.filter (· ≠ h.instrs.size)) split
          rwa [List.filter_append, List.filter_append, filter_cons_of_neg (by simp),
            filter_cons_of_pos (by simpa using other), ← List.filter_append, middle,
            kept] at parts
        refine inlaid.due b C _ _ i y group' stored same foundY has d ?_ old
        exact mem_filter.mpr ⟨member, by simp; lia⟩
    · split at foundY
      · rename_i isNew
        exact absurd (by simp [split, isNew]) (inlaid.woven.size_not_mem storedD)
      · exact inlaid.due c D before after i y group' storedD split foundY has d member old

theorem after_modifyGroup (inlaid : Inlaid g due h)
    {f : MoveGroup → Except Fault MoveGroup} {u : Unit}
    (step : ∀ y old new, h.instrs[i]? = some y → y.group = some old → f old = .ok new →
      ∀ (b : BlockId) (C : Block) (before after : List InstrId), h.blocks[b]? = some C →
        C.instrs = before ++ i :: after → ∀ d ∈ after, d < g.instrs.size → due old d → due new d)
    (run : Build.modifyGroup i f h = .ok (u, k)) : Inlaid g due k := by
  refine ⟨inlaid.woven.after_modifyGroup run, inlaid.routed.congr (ends_modifyGroup run), ?_, ?_⟩
  all_goals
    obtain ⟨z, old, new, found, has, changed, rfl⟩ := modifyGroup_run.mp run
  · exact inlaid.last
  · intro c D before after j y group storedD split foundY hasY d member isOld
    by_cases here : i = j
    · subst here
      rw [getElem?_setIfInBounds_self_of_lt (found_lt found)] at foundY
      obtain rfl := some.inj foundY
      obtain rfl := some.inj hasY
      exact step z old new found has changed c D before after storedD split d member isOld
        (inlaid.due c D before after i z old storedD split found has d member isOld)
    · rw [getElem?_setIfInBounds_ne here] at foundY
      exact inlaid.due c D before after j y group storedD split foundY hasY d member isOld

theorem after_splitEdge (inlaid : Inlaid g due h) (consistent : g.Consistent) (single : g.SingleEdges)
    {pred succ n : BlockId} (oldP : pred < g.blocks.size) (oldS : succ < g.blocks.size)
    (run : Build.splitEdge pred succ h = .ok (n, k)) : Inlaid g due k := by
  refine ⟨inlaid.woven.after_splitEdge run,
    inlaid.routed.after_splitEdge consistent single inlaid.woven oldP oldS run, ?_, ?_⟩
  · intro c D stored
    rcases splitEdge_listed run stored with none | ⟨C, storedC, same⟩
    · simp [none]
    · rw [same]
      exact inlaid.last c C storedC
  · intro c D before after i y group stored split foundY has d member old
    have instrs : k.instrs = h.instrs := by
      obtain ⟨-, same, -⟩ := splitEdge_run run
      rw [same]
    rcases splitEdge_listed run stored with none | ⟨C, storedC, same⟩
    · simp [none] at split
    · exact inlaid.due c C before after i y group storedC (same ▸ split) (instrs ▸ foundY) has d
        member old

end Inlaid

theorem ParametersFirst.not_behind {tree : DominatorTree} {order : List BlockId}
    (first : g.ParametersFirst) (given : g.Accepted tree order) (stored : g.blocks[b]? = some B)
    (split : B.instrs = before ++ i :: after) (found : g.instrs[i]? = some x)
    (call : x.isCall = true) (member : d ∈ after) (foundD : g.instrs[d]? = some y) :
    y.opcode ≠ .parameter := by
  intro parameter
  obtain ⟨n, isAt⟩ := mem_iff_getElem?.mp member
  have here : B.instrs[before.length]? = some i := by simp [split]
  have there : B.instrs[before.length + (n + 1)]? = some d := by
    rw [split, List.getElem?_append_right (Nat.le_add_right _ _), Nat.add_sub_cancel_left,
      getElem?_cons_succ, isAt]
  obtain ⟨y', foundY', valid⟩ := (given.valid.blocks b B stored).instrs _ d there
  obtain rfl := mem_unique foundD foundY'
  obtain rfl := valid.early parameter
  have := first _ _ x y ⟨B, i, stored, here, found⟩ ⟨B, d, stored, there, foundD⟩ call parameter
  omega

def Precedes (l : Liveness) (group : MoveGroup) (q : Position) : Prop :=
  group.purpose = .splitMove ∧
  ∀ m ∈ group.moves, ∃ (id k : IntervalId) (i j : Interval) (v : ValueId),
    l.pool.intervals[id]? = some i ∧ l.pool.intervals[k]? = some j ∧ i.value = some v ∧
    j.value = some v ∧ Moves i j ∧ m.dst = j.location ∧ j.start < q

def Spares (g : Graph) (l : Liveness) (group : MoveGroup) (d : InstrId) : Prop :=
  ∀ x q, g.instrs[d]? = some x → x.opcode = .parameter → l.numbering.numberOf? d = some q →
    Precedes l group q

section

variable {tree : DominatorTree} {order : List BlockId} {l : Liveness} {f : Frame} {C' : Block}

theorem Precedes.of_empty {q : Position} : Precedes l (.empty .splitMove) q :=
  ⟨rfl, fun _ isIn => by simp [MoveGroup.empty] at isIn⟩

theorem Precedes.after_add {group group' : MoveGroup} {q : Position} (precedes : Precedes l group q)
    {id id' : IntervalId} {i' j' : Interval} {v : ValueId}
    (foundI : l.pool.intervals[id]? = some i') (foundJ : l.pool.intervals[id']? = some j')
    (own : i'.value = some v) (ownJ : j'.value = some v) (moves : Moves i' j')
    (early : j'.start < q) (run : group.add ⟨i'.location, j'.location, i'.ty⟩ = .ok group') :
    Precedes l group' q := by
  obtain ⟨-, rfl⟩ := MoveGroup.add_ok run
  refine ⟨precedes.1, fun m isIn => ?_⟩
  rcases mem_append.mp isIn with isOld | isNew
  · exact precedes.2 m isOld
  · rw [mem_singleton.mp isNew]
    exact ⟨id, id', i', j', v, foundI, foundJ, own, ownJ, moves, rfl, early⟩

theorem drop_idxOf (listed : d ∈ C.instrs) :
    C.instrs.drop (C.instrs.idxOf d) = d :: C.instrs.drop (C.instrs.idxOf d + 1) := by
  rw [drop_eq_getElem_cons (idxOf_lt_length_of_mem listed), getElem_idxOf]

theorem Woven.number_le (w : g.Woven h) (given : g.Accepted tree l.numbering.order)
    (numbered : l.numbering.Numbered g) (stored : h.blocks[b]? = some C) (listed : d ∈ C.instrs)
    (old : d < g.instrs.size) (notPhi : g.phiAt d = false) (oldI : i < g.instrs.size)
    (plain : g.phiAt i = false) (member : i ∈ C.instrs.drop (C.instrs.idxOf d)) {p q : Position}
    (isP : l.numbering.numberOf? d = some p) (isQ : l.numbering.numberOf? i = some q) : p ≤ q := by
  have around : C.instrs = C.instrs.take (C.instrs.idxOf d) ++
      d :: C.instrs.drop (C.instrs.idxOf d + 1) := by
    rw [← drop_idxOf listed, take_append_drop]
  rw [drop_idxOf listed] at member
  rcases mem_cons.mp member with rfl | later
  · obtain rfl := mem_unique isP isQ
    exact Nat.le_refl _
  · obtain ⟨-, B, storedB, splitB⟩ :=
      w.split_old given.consistent stored around (Array.getElem?_eq_getElem old)
    have among := given.valid.complete _ B storedB
    obtain ⟨r, range, -⟩ := numbered.range _ among
    exact Nat.le_of_lt (numbered.number_lt among storedB range splitB notPhi
      (mem_filter.mpr ⟨later, by simpa using oldI⟩) plain isP isQ)

theorem Woven.listed_once (w : g.Woven h) {c : BlockId} {D : Block} {before' after' : List InstrId}
    (stored : h.blocks[b]? = some C) (split : C.instrs = before ++ i :: after)
    (storedD : h.blocks[c]? = some D) (splitD : D.instrs = before' ++ i :: after') :
    after = after' := by
  obtain ⟨y, found, owner⟩ := (w.listed b C stored).2 i (by simp [split])
  obtain ⟨y', found', owner'⟩ := (w.listed c D storedD).2 i (by simp [splitD])
  obtain rfl := mem_unique found found'
  obtain rfl : b = c := owner.symm.trans owner'
  obtain rfl := mem_unique stored storedD
  have once := (w.listed b C stored).1
  rw [split, nodup_middle, nodup_cons, List.mem_append, not_or] at once
  exact ((append_cons_inj_of_notMem once.1.1 once.1.2).mp (split.symm.trans splitD)).2.2

theorem Woven.of_placed (given : g.Accepted tree order) {done : List InstrId}
    {insertions : List Insertion}
    (placed : Placed (g.setFrame f) l done h insertions) : g.Woven h := by
  have fields : h.entry = g.entry ∧ h.arch = g.arch ∧ h.values = g.values := by
    rw [placed.same]
    exact ⟨rfl, rfl, rfl⟩
  refine (Woven.refl given.consistent given.valid.phis_first).after_relabel fields
    (by rw [placed.same]; rfl) (fun i x found => ?_) fun i y found => ?_
  · obtain ⟨inputs, results, found', -⟩ := placed.instr i x found
    exact ⟨_, found', ⟨rfl, rfl, rfl, rfl⟩, rfl, id,
      fun new => absurd (found_lt found) (Nat.not_lt.mpr new)⟩
  · exact ⟨_, Array.getElem?_eq_getElem (placed.size ▸ found_lt found)⟩

theorem Inlaid.of_placed (given : g.Accepted tree order) (bare : g.Bare) {done : List InstrId}
    {insertions : List Insertion}
    (placed : Placed (g.setFrame f) l done h insertions) : Inlaid g due h := by
  have blocks : h.blocks = g.blocks := by rw [placed.same]; rfl
  refine ⟨.of_placed given placed, ?_, ?_, ?_⟩
  · intro b s B S j stored isSucc storedS isPred
    refine ⟨s, b, ⟨B.preds, B.succs, by simp [ends, blocks, stored], isSucc⟩,
      ⟨S.preds, S.succs, by simp [ends, blocks, storedS], getElem?_idxOf isPred⟩,
      .inl ⟨rfl, rfl⟩⟩
  · rw [blocks]
    intro b C stored
    rw [List.pairwise_iff_getElem]
    intro p q hp hq less
    obtain ⟨x, found, valid⟩ :=
      (given.valid.blocks b C stored).instrs p _ (getElem?_eq_getElem hp)
    have inner : x.opcode.isTerminator = false := by
      by_contra ends
      have := valid.last (by simpa using ends)
      omega
    simp [terminatorAt, found, inner]
  · intro b C before after i y group stored split foundY has
    have inside : i < g.instrs.size := placed.size ▸ found_lt foundY
    have found := Array.getElem?_eq_getElem inside
    obtain ⟨inputs, results, found', -⟩ := placed.instr i _ found
    obtain rfl := mem_unique foundY found'
    cases (bare i _ found).symm.trans has

namespace Inlaid

theorem no_end_ahead (inlaid : Inlaid g due h) (stored : h.blocks[b]? = some C)
    (listed : d ∈ C.instrs) : ∀ j ∈ C.instrs.take (C.instrs.idxOf d), g.terminatorAt j = false := by
  intro j ahead
  have ended := inlaid.last b C stored
  rw [← take_append_drop (C.instrs.idxOf d) C.instrs, List.pairwise_append] at ended
  refine ended.2.2 j ahead d ?_
  rw [drop_idxOf listed]
  exact mem_cons_self

theorem after_place (given : g.Accepted tree order) (first : g.ParametersFirst)
    (inlaid : Inlaid g (g.Spares l) h) {n : Insertion} {u : Unit}
    (found : g.instrs[n.anchor]? = some x) (call : x.isCall = true)
    (run : Placement.insert n h = .ok (u, k)) : Inlaid g (g.Spares l) k := by
  have w := inlaid.woven
  obtain ⟨callee, isCall⟩ := opcode_of_isCall call
  have notPhi : h.phiAt n.anchor = false := by
    rw [w.phiAt_eq (found_lt found), phiAt_eq found, isPhi, isCall]
    rfl
  obtain ⟨y, C, i, pos, foundY, stored, listed, isPos, inserted⟩ := insert_run run
  have inside := idxOf_lt_length_of_mem listed
  have behind := drop_idxOf listed
  have later : ∀ j ∈ C.instrs.drop pos, j ∈ C.instrs.drop (C.instrs.idxOf n.anchor) := by
    intro j isIn
    rcases isPos with rfl | rfl
    · exact isIn
    · rw [behind]
      exact mem_cons_of_mem _ isIn
  refine inlaid.after_insertAt inserted (w.after_insertAt inserted fun C' stored' j isIn => ?_)
    fun C' stored' => ⟨fun j isIn => ?_, fun j isIn old z q foundZ parameter _ => ?_⟩
  all_goals obtain rfl := mem_unique stored stored'
  · exact no_phi_behind w.phisFirst stored listed notPhi j (later j isIn)
  · have ahead : j ∈ C.instrs.take (C.instrs.idxOf n.anchor) ∨ j = n.anchor := by
      rcases isPos with rfl | rfl
      · exact .inl isIn
      · rw [take_add_one, getElem?_eq_getElem inside, getElem_idxOf] at isIn
        simpa using isIn
    rcases ahead with ahead | rfl
    · exact inlaid.no_end_ahead stored listed j ahead
    · simp [terminatorAt, found, isCall, Opcode.isTerminator]
  · -- no call stands ahead of a parameter
    have split : C.instrs = C.instrs.take (C.instrs.idxOf n.anchor) ++
        n.anchor :: C.instrs.drop (C.instrs.idxOf n.anchor + 1) := by
      rw [← behind, take_append_drop]
    obtain ⟨-, B, storedB, splitB⟩ := w.split_old given.consistent stored split found
    have later := later j isIn
    rw [behind] at later
    rcases mem_cons.mp later with rfl | after
    · obtain rfl := mem_unique found foundZ
      simp [isCall] at parameter
    · exact absurd parameter (first.not_behind given storedB splitB found call
        (mem_filter.mpr ⟨after, by simpa using old⟩) foundZ)

theorem after_moveBefore (given : g.Accepted tree l.numbering.order)
    (numbered : l.numbering.Numbered g)
    (bare : g.Bare) (inlaid : Inlaid g (g.Spares l) h) {id id' : IntervalId} {i' j' : Interval}
    {v : ValueId} (foundI : l.pool.intervals[id]? = some i')
    (foundJ : l.pool.intervals[id']? = some j') (own : i'.value = some v) (ownJ : j'.value = some v)
    (moves : Moves i' j') (isAt : l.numbering.instrAt? (j'.start + 1) = some d) {u : Unit}
    (run : Connection.moveBefore d ⟨i'.location, j'.location, i'.ty⟩ h = .ok (u, k)) :
    Inlaid g (g.Spares l) k := by
  have w := inlaid.woven
  obtain ⟨y, C, earlier, fills, foundY, stored, listed, split, isFill, changed⟩ :=
    moveBefore_run run
  obtain ⟨old, notPhi⟩ := numbered.instrAt_plain given.consistent isAt
  have listing : C.instrs = earlier ++ (fills ++ C.instrs.drop (C.instrs.idxOf d)) := by
    rw [← List.append_assoc, ← split, take_append_drop]
  -- what comes after the move comes after the start of the second piece
  have isLate : ∀ z ∈ fills ++ C.instrs.drop (C.instrs.idxOf d), ∀ x q, g.instrs[z]? = some x →
      x.opcode = .parameter → l.numbering.numberOf? z = some q → j'.start < q := by
    intro z member x q foundX parameter isQ
    rcases mem_append.mp member with fill | after
    · obtain ⟨y', found', purpose⟩ := isFill z fill
      obtain ⟨z', foundZ, -, -, plain⟩ := w.instr z x foundX
      obtain rfl := mem_unique found' foundZ
      simp [purpose?, plain (bare z x foundX)] at purpose
    · exact w.number_le given numbered stored listed old notPhi (found_lt foundX)
        (by simp [phiAt_eq foundX, isPhi, parameter]) after
        (numbered.numberOf_instrAt isAt) isQ
  rcases changed with ⟨i, opened, changed⟩ | ⟨group, i, -, made, inserted⟩
  · refine inlaid.after_modifyGroup ?_ changed
    intro z before after foundZ has added b C' front back storedC' around e member oldE spares x q
      foundX parameter isQ
    -- the group is the last of what is listed earlier
    obtain ⟨isHead, -⟩ := openGroup_ok opened
    rw [head?_reverse] at isHead
    obtain ⟨ahead, rfl⟩ := getLast?_eq_some_iff.mp isHead
    rw [List.append_assoc] at listing
    obtain rfl := w.listed_once stored listing storedC' around
    exact (spares x q foundX parameter isQ).after_add foundI foundJ own ownJ moves
      (isLate e member x q foundX parameter isQ) added
  · have woven := moveBefore_woven w (fun i x found _ => bare i x found)
      (by rw [w.phiAt_eq old, notPhi]) run
    refine inlaid.after_insertAt inserted woven fun C' stored' => ?_
    obtain rfl := mem_unique stored stored'
    have front : C.instrs.take earlier.length = earlier := by
      rw [listing]
      exact take_left
    have rest : C.instrs.drop earlier.length = fills ++ C.instrs.drop (C.instrs.idxOf d) := by
      conv => lhs; rw [listing]
      exact drop_left
    refine ⟨fun z isIn => ?_, fun z isIn oldZ x q foundX parameter isQ => ?_⟩
    · refine inlaid.no_end_ahead stored listed z ?_
      rw [split]
      rw [front] at isIn
      exact mem_append_left _ isIn
    · exact Precedes.of_empty.after_add foundI foundJ own ownJ moves
        (isLate z (rest ▸ isIn) x q foundX parameter isQ) made

theorem after_withinBlocks (given : g.Accepted tree l.numbering.order)
    (numbered : l.numbering.Numbered g) (bare : g.Bare) {joint : Position → Prop}
    (tidy : l.pool.Tidy joint)
    (rooted : ∀ (id : IntervalId) (i : Interval), l.pool.intervals[id]? = some i →
      i.splitOff = false → i.root = id)
    (inlaid : Inlaid g (g.Spares l) h) {u : Unit} (run : Connection.withinBlocks l h = .ok (u, k)) :
    Inlaid g (g.Spares l) k := by
  refine withinBlocks_keeps ?_ run inlaid
  intro id is isSiblings i isI j isJ anchor h k u moves isAt moved inlaid
  obtain ⟨v, pieces⟩ := siblings_pieces tidy (rooted id) isSiblings
  obtain ⟨id, found, own⟩ := pieces i isI
  obtain ⟨id', foundJ, ownJ⟩ := pieces j isJ
  exact inlaid.after_moveBefore given numbered bare found foundJ own ownJ moves isAt moved

theorem after_addAll (inlaid : Inlaid g (g.Spares l) h) (bridge : Bridge h i)
    {moves : List Move} {u : Unit} (run : Build.modifyGroup i (·.addAll moves) h = .ok (u, k)) :
    Inlaid g (g.Spares l) k := by
  refine inlaid.after_modifyGroup ?_ run
  intro y old new found has _ b C before after _ _ d _ _ spares x q foundX parameter isQ
  obtain ⟨c, group, found', purpose⟩ := bridge
  obtain rfl := mem_unique found found'
  obtain rfl := some.inj has
  cases purpose.symm.trans (spares x q foundX parameter isQ).1

theorem no_end_of_single (given : g.Accepted tree order) (stored : g.blocks[b]? = some B)
    (alone : B.succs.length = 1) (listed : d ∈ B.instrs) : g.terminatorAt d = false := by
  obtain ⟨pos, isAt⟩ := mem_iff_getElem?.mp listed
  obtain ⟨x, found, valid⟩ := (given.valid.blocks b B stored).instrs pos d isAt
  simp only [terminatorAt, found, any_some]
  by_contra terminator
  simp only [Bool.not_eq_false] at terminator
  have isLast : B.instrs.getLast? = some d := by
    rw [getLast?_eq_getElem?, ← valid.last terminator, Nat.add_sub_cancel, isAt]
  have := (given.valid.blocks b B stored).ends d x isLast found
  cases isOp : x.opcode <;> simp_all [expectedSuccs, Opcode.isTerminator]

theorem after_joinEdge (given : g.Accepted tree order) (single : g.SingleEdges)
    {j j' : Joints} {e : EdgeMoves} (inlaid : Inlaid g (g.Spares l) h)
    (bridges : ∀ e ∈ j.heads ++ j.tails, Bridge h e.2)
    (oldP : e.pred < g.blocks.size) (oldS : e.succ < g.blocks.size)
    (run : Connection.joinEdge j e h = .ok (j', k)) : Inlaid g (g.Spares l) k := by
  have w := inlaid.woven
  have storedP := Array.getElem?_eq_getElem oldP
  have storedS := Array.getElem?_eq_getElem oldS
  obtain ⟨P, atP, sameP, predsP, succsP⟩ := w.block _ _ storedP
  obtain ⟨S, atS, sameS, predsS, succsS⟩ := w.block _ _ storedS
  have known : ∀ {list : List (BlockId × InstrId)} {b i}, (∀ e ∈ list, e ∈ j.heads ++ j.tails) →
      list.lookup b = some i → Bridge h i := by
    intro list b i within isAt
    obtain ⟨before, after, rfl, -⟩ := lookup_eq_some_iff.mp isAt
    exact bridges (b, i) (within _ (by simp))
  obtain ⟨P', S', atP', ⟨list, alone, joined, rfl⟩ | ⟨list, -, atS', one, none, joined, rfl⟩ |
    ⟨n, i, mid, -, -, -, split, inserted, rfl⟩⟩ := joinEdge_run run
  · obtain rfl := mem_unique atP atP'
    rcases joinAt_run joined with ⟨i, u, isAt, -, rfl | changed⟩ | ⟨i, -, inserted, -⟩
    · exact inlaid
    · exact inlaid.after_addAll (known (fun e isIn => mem_append_right _ isIn) isAt) changed
    · refine inlaid.after_insertAt inserted (w.after_insertAt inserted fun C stored => ?_)
        fun C stored => ?_
      all_goals obtain rfl := mem_unique atP stored
      · simp
      · refine ⟨fun d listed => ?_, by simp⟩
        by_cases old : d < g.instrs.size
        · refine no_end_of_single given storedP (succsP ▸ alone) ?_
          rw [← sameP]
          exact mem_filter.mpr ⟨mem_of_mem_take listed, by simpa using old⟩
        · exact terminatorAt_added (Nat.le_of_not_lt old)
  · obtain rfl := mem_unique atS atS'
    rcases joinAt_run joined with ⟨i, u, isAt, -, rfl | changed⟩ | ⟨i, -, inserted, -⟩
    · exact inlaid
    · exact inlaid.after_addAll (known (fun e isIn => mem_append_left _ isIn) isAt) changed
    · refine inlaid.after_insertAt inserted (w.after_insertAt inserted fun C stored => ?_)
        fun C stored => ?_
      all_goals obtain rfl := mem_unique atS stored
      · rw [drop_zero]
        exact no_phi_of_numPhis given.consistent given.valid.phis_first w storedS atS none
      · refine ⟨by simp, fun d listed old x q found parameter _ => ?_⟩
        -- parameters are in the entry block, and no edge leads there
        have among : d ∈ g.blocks[e.succ].instrs := by
          rw [← sameS]
          exact mem_filter.mpr ⟨by simpa using listed, by simpa using old⟩
        obtain ⟨pos, isAt⟩ := mem_iff_getElem?.mp among
        obtain ⟨x', found', valid⟩ := (given.valid.blocks _ _ storedS).instrs pos d isAt
        obtain rfl := mem_unique found found'
        have noPreds := given.valid.entry _
          ((congrArg (g.blocks[·]?) (valid.early parameter)).symm.trans storedS)
        rw [noPreds, one] at predsS
        cases predsS
  · refine (inlaid.after_splitEdge given.consistent single oldP oldS split).after_insertAt inserted
      ((w.after_splitEdge split).after_insertAt inserted fun C stored => ?_) fun C stored => ?_
    all_goals
      obtain ⟨rfl, -, -, new, -⟩ := splitEdge_run split
      obtain rfl := mem_unique new stored
      simp

theorem after_joinEdges (given : g.Accepted tree order) (single : g.SingleEdges) {g₀ h₀ : Graph}
    {es : List EdgeMoves} (crossing : ∀ e ∈ es, Crossing g₀ l e.moves)
    (old : ∀ e ∈ es, e.pred < g.blocks.size ∧ e.succ < g.blocks.size) {j j' : Joints}
    (inlaid : Inlaid g (g.Spares l) h) (bridged : Bridged g₀ l h₀ j h)
    (run : es.foldlM Connection.joinEdge j h = .ok (j', k)) : Inlaid g (g.Spares l) k := by
  refine (foldlM_keeps (P := fun j h => Inlaid g (g.Spares l) h ∧ Bridged g₀ l h₀ j h)
    ?_ run ⟨inlaid, bridged⟩).1
  intro e isIn j j' h k kept joined
  have ends := old e isIn
  exact ⟨kept.1.after_joinEdge given single kept.2.joints ends.1 ends.2 joined,
    kept.2.after_joinEdge (crossing e isIn) joined⟩

end Inlaid

theorem sequenceInstr_ok {shape : StackShape} {target : Target} {counted : Bool}
    (run : sequenceInstr shape target x = .ok (counted, y)) :
    y = x ∨ ∃ before after : MoveGroup, x.group = some before ∧
      before.sequence shape target = .ok after ∧ y = { x with group := some after } := by
  rw [sequenceInstr] at run
  split at run
  · exact .inl (Prod.mk.inj (pure_ok.mp run)).2.symm
  · rename_i group has
    split at run
    · exact .inl (Prod.mk.inj (pure_ok.mp run)).2.symm
    · simp only [bind_ok, pure_ok, Prod.mk.injEq] at run
      obtain ⟨after, isAfter, -, rfl⟩ := run
      exact .inr ⟨group, after, has, isAfter, rfl⟩

def DueInOrder (due : MoveGroup → InstrId → Prop) (target : Target) (group : MoveGroup)
    (d : InstrId) : Prop :=
  ∃ before : MoveGroup, (before = group ∨ ∃ shape, before.sequence shape target = .ok group) ∧
    due before d

theorem Woven.after_sequenceMoves (w : g.Woven h) {n : Nat} (run : h.sequenceMoves = .ok (n, k)) :
    g.Woven k := by
  obtain ⟨shape, -, same, each⟩ := sequenceMoves_ok run
  have fields : k.entry = h.entry ∧ k.arch = h.arch ∧ k.values = h.values := by
    rw [same]
    exact ⟨rfl, rfl, rfl⟩
  refine w.after_relabel fields (by rw [same]) (fun i y found => ?_) fun i z found => ?_
  · obtain ⟨c, z, foundZ, sequenced⟩ := (each i).1 y found
    rcases sequenceInstr_ok sequenced with rfl | ⟨before, after, has, -, rfl⟩
    · exact ⟨z, foundZ, ⟨rfl, rfl, rfl, rfl⟩, rfl, id, fun new => w.added i z new found⟩
    · refine ⟨_, foundZ, ⟨rfl, rfl, rfl, rfl⟩, rfl, fun none => by simp [none] at has, fun new => ?_⟩
      obtain ⟨group, isGroup⟩ := w.added i y new found
      exact ⟨after, by rw [isGroup]; rfl⟩
  · obtain ⟨c, y, foundY, -⟩ := (each i).2 z found
    exact ⟨y, foundY⟩

theorem Inlaid.after_sequenceMoves (inlaid : Inlaid g due h) {n : Nat}
    (run : h.sequenceMoves = .ok (n, k)) : Inlaid g (DueInOrder due h.target) k := by
  obtain ⟨shape, -, same, each⟩ := sequenceMoves_ok run
  have blocks : k.blocks = h.blocks := by rw [same]
  refine ⟨inlaid.woven.after_sequenceMoves run, inlaid.routed.congr fun c => by simp [ends, blocks],
    blocks ▸ inlaid.last, ?_⟩
  intro b C before after i z group stored split found has d member old
  obtain ⟨c, y, foundY, sequenced⟩ := (each i).2 z found
  rw [blocks] at stored
  rcases sequenceInstr_ok sequenced with rfl | ⟨first, last, hasY, inOrder, rfl⟩
  · exact ⟨group, .inl rfl,
      inlaid.due b C before after i z group stored split foundY has d member old⟩
  · obtain rfl := some.inj has
    exact ⟨first, .inr ⟨shape, inOrder⟩,
      inlaid.due b C before after i y first stored split foundY hasY d member old⟩

theorem Stages.to_inlaid (given : g.Accepted tree l.numbering.order)
    (numbered : l.numbering.Numbered g) (bare : g.Bare) (single : g.SingleEdges)
    (first : g.ParametersFirst) {base : IntervalPool} (served : base.Served l.pool)
    {insertions : List Insertion} {h' g' : Graph}
    (stages : Stages g l f h insertions h' k g') :
    Inlaid g (DueInOrder (g.Spares l) g.target) g' := by
  obtain ⟨done, placed, -⟩ := stages.placed
  obtain ⟨n, connected⟩ := stages.connected
  obtain ⟨m, sequenced⟩ := stages.sequenced
  obtain ⟨threaded, inlaid⟩ : Threaded (g.setFrame f) l h h' ∧
      Inlaid g (g.Spares l) h' := by
    refine forM_keeps
      (P := fun k => Threaded (g.setFrame f) l h k ∧ Inlaid g (g.Spares l) k) ?_
      stages.inserted ⟨⟨.refl _ h, fun _ => rfl⟩, .of_placed given bare placed⟩
    intro n member k k' u so run
    obtain ⟨x, found, call⟩ := placed.anchored n member
    exact ⟨so.1.after_place (placed.made n member) run, so.2.after_place given first found call run⟩
  obtain ⟨mid, es, j, u, within, isEdges, joined, -⟩ := connect_ok connected
  have inlaid := inlaid.after_withinBlocks given numbered bare served.tidy served.rooted within
  have same : ∀ c, ends mid c = ends g c := by
    intro c
    rw [(threaded.after_withinBlocks served.tidy served.rooted within).ends c, placed.same]
    rfl
  have crossing := edges_crossing same isEdges
  rw [edges_woven numbered inlaid.woven same] at isEdges
  have inlaid := inlaid.after_joinEdges given single crossing
    (edges_old numbered given.consistent isEdges) ⟨.refl _ mid, by simp⟩ joined
  have target : k.target = g.target := by
    rw [target, target, inlaid.woven.arch]
  exact target ▸ inlaid.after_sequenceMoves sequenced

theorem Woven.isMoves_iff (w : g.Woven h) (given : g.Accepted tree order)
    (found : h.instrs[i]? = some y) :
    h.isMoves i = true ↔ g.instrs.size ≤ i := by
  rw [isMoves_eq found]
  rcases w.instr_cases found with ⟨x, isX, code, -⟩ | ⟨new, group, isGroup⟩
  · obtain ⟨B, pc, -, -, valid⟩ := given.instr_valid isX
    simp [code.isSpillFill_eq, valid.plain, found_lt isX]
  · rw [isGroup]
    simpa [ofGroup, ofOpcode, isSpillFill] using new

theorem Woven.new_listed (w : g.Woven h) (consistent : g.Consistent)
    (stored : h.blocks[b]? = some C) (new : g.blocks.size ≤ b) (listed : i ∈ C.instrs) :
    g.instrs.size ≤ i := by
  by_contra old
  obtain ⟨before, after, split⟩ := append_of_mem listed
  obtain ⟨-, B, storedB, -⟩ := w.split_old consistent stored split
    (Array.getElem?_eq_getElem (Nat.lt_of_not_le old))
  exact absurd (found_lt storedB) (Nat.not_lt.mpr new)

theorem Inlaid.to_expands (given : g.Accepted tree order) (inlaid : Inlaid g due h) :
    Expands g h := by
  have w := inlaid.woven
  have moves : ∀ {b : BlockId} {C : Block}, h.blocks[b]? = some C → ∀ i ∈ C.instrs,
      h.isMoves i = true ↔ g.instrs.size ≤ i := by
    intro b C stored i listed
    obtain ⟨y, found, -⟩ := (w.listed b C stored).2 i listed
    exact w.isMoves_iff given found
  refine ⟨w.entry, w.arch, w.values, fun i x found => ?_, fun b B stored => ?_⟩
  · obtain ⟨y, foundY, code, -⟩ := w.instr i x found
    exact ⟨y, foundY, code⟩
  · obtain ⟨C, storedC, same, -, succs⟩ := w.block b B stored
    refine ⟨C, storedC, ?_, succs, fun j s S isSucc storedS isPred => ?_⟩
    · rw [← same, withoutMoves]
      refine filter_congr fun i listed => ?_
      rw [Bool.eq_iff_iff, Bool.not_eq_true', Bool.eq_false_iff, Ne, moves storedC i listed]
      simp
    · obtain ⟨first, last, ⟨_, outs, endsB, isFirst⟩, ⟨ins, _, endsS, isLast⟩, between⟩ :=
        inlaid.routed b s B S j stored isSucc storedS isPred
      obtain ⟨C', storedC', both⟩ := map_eq_some_iff.mp endsB
      obtain rfl := mem_unique storedC storedC'
      obtain ⟨-, rfl⟩ := Prod.mk.inj both
      obtain ⟨D, storedD, both⟩ := map_eq_some_iff.mp endsS
      obtain ⟨rfl, -⟩ := Prod.mk.inj both
      refine ⟨first, isFirst, ?_⟩
      rcases between with ⟨rfl, rfl⟩ | ⟨rfl, new, endsN⟩
      · exact .direct storedD isLast
      · obtain ⟨N, storedN, both⟩ := map_eq_some_iff.mp endsN
        obtain ⟨preds, succs⟩ := Prod.mk.inj both
        refine .through storedN succs (by simp [preds]) (fun i listed => ?_) ?_ storedD isLast
        · exact (moves storedN i listed).mpr (w.new_listed given.consistent storedN new listed)
        · rintro rfl
          obtain ⟨E, storedE⟩ := (reversePostOrder_ok given.valid.ordered).stored g.entry
            (reversePostOrder_ok given.valid.ordered).entry
          rw [w.entry] at new
          exact absurd (found_lt storedE) (Nat.not_lt.mpr new)


theorem Woven.at_cases (w : g.Woven h) (given : g.Accepted tree order) (bare : g.Bare) {pc : Nat}
    (isAt : h.At b pc y) :
    (∃ x B pos, g.blocks[b]? = some B ∧ g.ValidInstr tree b B pos x ∧ g.At b pos x ∧ SameCode x y ∧
      y.group = none) ∨
    ∃ group, y = ofGroup b group := by
  obtain ⟨C, i, stored, listed, found⟩ := isAt
  rcases w.instr_cases found with ⟨x, isX, code, -, plain⟩ | ⟨-, group, isGroup⟩
  · obtain ⟨before, after, split⟩ := append_of_mem (mem_of_getElem? listed)
    obtain ⟨-, B, storedB, splitB⟩ := w.split_old given.consistent stored split isX
    obtain ⟨pos, isAt⟩ := mem_iff_getElem?.mp (show i ∈ B.instrs by simp [splitB])
    obtain ⟨x', foundX, valid⟩ := (given.valid.blocks b B storedB).instrs pos i isAt
    obtain rfl := mem_unique isX foundX
    exact .inl ⟨_, B, pos, storedB, valid, ⟨B, i, storedB, isAt, foundX⟩, code, plain (bare i _ isX)⟩
  · obtain ⟨y', found', owner⟩ := (w.listed b C stored).2 i (mem_of_getElem? listed)
    obtain rfl := mem_unique found found'
    exact .inr ⟨group, owner ▸ isGroup⟩

theorem Woven.result_cases (w : g.Woven h) (found : h.instrs[i]? = some y) {v : ValueId}
    (result : v ∈ y.results) : ∃ x, g.instrs[i]? = some x ∧ SameCode x y := by
  rcases w.instr_cases found with ⟨x, isX, code, -⟩ | ⟨-, group, isGroup⟩
  · exact ⟨x, isX, code⟩
  · have none : y.results = [] := congrArg Instr.results isGroup
    simp [none] at result

theorem Woven.constantOf_eq (w : g.Woven h) {v : ValueId} {c : Word}
    (constant : h.constantOf? v = .ok (some c)) : g.constantOf? v = .ok (some c) := by
  simp only [constantOf?, bind_ok, pure_ok, value_ok, instr_ok] at constant ⊢
  obtain ⟨D, defined, y, found, isConstant⟩ := constant
  refine ⟨D, w.values ▸ defined, ?_⟩
  rcases w.instr_cases found with ⟨x, isX, code, -⟩ | ⟨-, group, isGroup⟩
  · exact ⟨x, isX, code.opcode ▸ isConstant⟩
  · have moves : y.opcode = .spillFill := congrArg opcode isGroup
    rw [moves] at isConstant
    cases isConstant

theorem Inlaid.to_proper (given : g.Accepted tree order) (bare : g.Bare) (inlaid : Inlaid g due h)
    (intact : ∀ pc qc x y, h.At h.entry pc x → h.At h.entry qc y → pc < qc →
      y.opcode = .parameter → ∀ l ∈ y.resultLocations, x.overwrites h.target l = false) :
    h.Proper where
  grouped b pc y isAt := by
    rcases inlaid.woven.at_cases given bare isAt with
      ⟨x, B, pos, -, valid, -, code, plain⟩ | ⟨group, rfl⟩
    · rw [code.isSpillFill_eq, valid.plain, plain]
      rfl
    · rfl
  last b A pc y stored isAt terminator := by
    obtain ⟨A', i, stored', listed, found⟩ := isAt
    obtain rfl := mem_unique stored stored'
    obtain ⟨bound, rfl⟩ := List.getElem?_eq_some_iff.mp listed
    by_contra inner
    have ended := List.pairwise_iff_getElem.mp (inlaid.last b A stored) pc (pc + 1) bound (by omega)
      (by omega)
    rcases inlaid.woven.instr_cases found with ⟨x, isX, code, -⟩ | ⟨-, group, isGroup⟩
    · rw [code.opcode] at terminator
      rw [terminatorAt, isX, any_some, terminator] at ended
      cases ended
    · rw [isGroup] at terminator
      cases terminator
  results b pc y isAt plain := by
    rcases inlaid.woven.at_cases given bare isAt with
      ⟨x, B, pos, -, valid, -, code, -⟩ | ⟨group, rfl⟩
    · rw [code.results, code.opcode, code.ty, valid.results]
    · cases plain
  arity b A pc y stored isAt phi := by
    rcases inlaid.woven.at_cases given bare isAt with
      ⟨x, B, pos, storedB, valid, -, code, -⟩ | ⟨group, rfl⟩
    · obtain ⟨A', stored', -, preds, -⟩ := inlaid.woven.block b B storedB
      obtain rfl := mem_unique stored stored'
      rw [code.inputs, preds]
      rw [code.isPhi_eq] at phi
      refine valid.inputs _ ?_
      simp only [isPhi, beq_iff_eq] at phi
      simp [expectedInputs?, phi]
    · cases phi
  early b pc y isAt parameter := by
    rcases inlaid.woven.at_cases given bare isAt with
      ⟨x, B, pos, -, valid, -, code, -⟩ | ⟨group, rfl⟩
    · rw [inlaid.woven.entry]
      exact valid.early (code.opcode ▸ parameter)
    · cases parameter
  owner i j x y hx hy v vx vy := by
    obtain ⟨x₀, foundX, codeX⟩ := inlaid.woven.result_cases hx vx
    obtain ⟨y₀, foundY, codeY⟩ := inlaid.woven.result_cases hy vy
    exact owner_of_nodup given.valid.results foundX foundY (codeX.results ▸ vx) (codeY.results ▸ vy)
  distinct i x found := by
    cases isResults : x.results with
    | nil => exact nodup_nil
    | cons v rest =>
      obtain ⟨x₀, foundX, code⟩ := inlaid.woven.result_cases found (v := v) (by simp [isResults])
      rw [← isResults, code.results]
      exact (nodup_flatMap.mp given.valid.results).1 x₀
        (mem_toList_iff.mpr (Array.mem_of_getElem? foundX))
  defines i x found v result c constant := by
    obtain ⟨x₀, foundX, code⟩ := inlaid.woven.result_cases found result
    rw [code.opcode]
    exact given.valid.constant_of_result foundX (code.results ▸ result)
      (inlaid.woven.constantOf_eq constant)
  once b c B C pc qc i storedB storedC listedB listedC := by
    obtain ⟨y, found, owner⟩ := (inlaid.woven.listed b B storedB).2 i (mem_of_getElem? listedB)
    obtain ⟨y', found', owner'⟩ :=
      (inlaid.woven.listed c C storedC).2 i (mem_of_getElem? listedC)
    obtain rfl := mem_unique found found'
    obtain rfl : b = c := owner.symm.trans owner'
    obtain rfl := mem_unique storedB storedC
    refine ⟨rfl, (getElem?_inj (listed_lt listedB)
      (inlaid.woven.listed b B storedB).1).mp (listedB.trans listedC.symm)⟩
  intact := intact

end

end Graph

end RegisterAllocation
