import RegisterAllocation.Proofs.CallSites

/-!
The slots of an allocated program. A slot is only handed out below the budget, so the frame stays
within it, except that a slot kept free for move cycles is there even if the budget is zero.
-/

namespace RegisterAllocation

namespace Frame

variable {f f' : Frame} {first budget : Nat} {start stop : Position} {v : ValueId} {l : Location}

structure Bounded (first budget : Nat) (f : Frame) : Prop where
  firstSlot : f.firstSlot = first
  isBudget : f.budget = budget
  low : first ≤ f.numSlots
  high : f.numSlots ≤ max budget first

theorem Bounded.after_takeSlot (bounded : Bounded first budget f) {slot : Nat}
    (run : f.takeSlot start stop = .ok (slot, f')) : Bounded first budget f' := by
  obtain ⟨firstSlot, isBudget, low, high⟩ := bounded
  unfold takeSlot at run
  dsimp only at run
  split at run
  · obtain ⟨-, rfl⟩ := Prod.mk.inj (Except.ok.inj run)
    exact ⟨firstSlot, isBudget, by dsimp only; lia, by dsimp only; lia⟩
  · exact absurd run refuse_ne_ok

theorem Bounded.after_spill (bounded : Bounded first budget f) {constant? : Option Word}
    (run : f.spill v constant? start stop = .ok (l, f')) : Bounded first budget f' := by
  unfold spill at run
  split at run
  · obtain ⟨-, rfl⟩ := Prod.mk.inj (pure_ok.mp run)
    exact bounded
  · obtain ⟨-, rfl⟩ := Prod.mk.inj (pure_ok.mp run)
    exact { bounded with }
  · simp only [bind_ok, pure_ok, Prod.exists, Prod.mk.injEq] at run
    obtain ⟨slot, taken, run, rfl, rfl⟩ := run
    have after := bounded.after_takeSlot run
    exact { after with }

end Frame

namespace Scan

variable {c : Pass} {arrivals : Arrivals} {s s' : Scan} {id child : IntervalId} {l : Location}
  {start last pos : Position} {first budget : Nat} {p p' : IntervalPool} {f f' : Frame}

theorem Deeds.keep_bounded (deeds : Deeds c arrivals s s') (bounded : s.frame.Bounded first budget) :
    s'.frame.Bounded first budget := by
  have all : ∀ state, Relation.ReflTransGen (Deed c arrivals) (s.pool, s.frame) state →
      state.2.Bounded first budget := by
    intro state deeds
    induction deeds with
    | refl => exact bounded
    | tail _ deed ih =>
      cases deed with
      | spill _ _ _ run =>
        have after := ih.after_spill run
        exact { after with }
      | house => exact { ih with }
      | _ => exact ih
  exact all _ deeds

theorem frame_modify {change : Interval → Except Fault Interval}
    (run : s.modify id change = .ok s') : s'.frame = s.frame := by
  simp only [modify, bind_ok, pure_ok] at run
  obtain ⟨pool, -, rfl⟩ := run
  rfl

theorem frame_splitAt (run : s.splitAt id pos = .ok (child, s')) : s'.frame = s.frame := by
  simp only [splitAt, bind_ok, pure_ok, Prod.exists, Prod.mk.injEq] at run
  obtain ⟨_, pool, -, -, rfl⟩ := run
  rfl

theorem frame_enqueue (run : s.enqueue id = .ok s') : s'.frame = s.frame := by
  obtain ⟨queue, rfl, -⟩ := Scanning.enqueue_ok run
  rfl

theorem frame_arriveInRegister (run : s.arriveInRegister c id l start last = .ok s') :
    s'.frame = s.frame := by
  have stretched {r : Except Fault Scan} {mid : Scan}
      (step : r = .ok mid) (cases : r = s.modify id (·.addRange 0 start) ∨ r = pure s) :
      mid.frame = s.frame := by
    rcases cases with rfl | rfl
    · exact frame_modify step
    · rw [pure_ok.mp step]
  simp only [arriveInRegister] at run
  split at run <;> simp only [bind_ok] at run <;>
    obtain ⟨mid, stretch, i, -, clobber, -, run⟩ := run <;>
    replace stretch := stretched stretch (by simp) <;> split at run
  all_goals simp only [bind_ok, pure_ok, Prod.exists] at run
  case isTrue.isTrue | isFalse.isTrue =>
    obtain ⟨child, one, split, two, preferred, three, queued, rfl⟩ := run
    rw [frame_enqueue queued, frame_modify preferred, frame_splitAt split, stretch]
  all_goals
    obtain ⟨mid, rfl, rfl⟩ := run
    exact stretch

theorem receive_bounded {root : IntervalId × Interval} (bounded : s.frame.Bounded first budget)
    (run : receive c arrivals last s root = .ok s') : s'.frame.Bounded first budget := by
  obtain ⟨id, i⟩ := root
  cases own : i.value with
  | none =>
    simp only [receive, own, pure_ok] at run
    exact run ▸ bounded
  | some v =>
    rcases receive_ok run own with ⟨reg, -, -, -, pinned⟩ | ⟨-, queued⟩ |
      ⟨l, mid, -, pinned, ⟨-, arrived⟩ | ⟨-, arrived⟩⟩
    · rwa [frame_modify pinned]
    · rwa [frame_enqueue queued]
    · rwa [frame_arriveInRegister arrived, frame_modify pinned]
    · simp only [arriveOnStack, bind_ok] at arrived
      obtain ⟨j, -, arrived⟩ := arrived
      have home : s'.frame = mid.frame.setHome v l := by
        split at arrived
        · rw [← pure_ok.mp arrived]
        · simp only [splitAndQueue, bind_ok, Prod.exists] at arrived
          obtain ⟨child, next, split, queued⟩ := arrived
          rw [frame_enqueue queued, frame_splitAt split]
      rw [home, frame_modify pinned]
      exact { bounded with }

theorem runClass_bounded {g : Graph} {target : Target} {o : Options} {physical : List IntervalId}
    {cls : RegisterClass} (bounded : f.Bounded first budget)
    (run : runClass g target o arrivals physical (p, f) cls = .ok (p', f')) :
    f'.Bounded first budget := by
  simp only [runClass, bind_ok, lift_ok, pure_ok, Prod.mk.injEq] at run
  obtain ⟨fixed, -, s, entered, s', drained, -, rfl⟩ := run
  have entry : s.frame.Bounded first budget :=
    foldlM_ok (P := fun s => s.frame.Bounded first budget)
      (fun _ _ _ _ bounded run => receive_bounded bounded run) entered bounded
  exact (show Deeds _ arrivals s s' from .of_drain drained).keep_bounded entry

end Scan

theorem Liveness.scan_bounded {l l' : Liveness} {g : Graph} {o : Options} {f : Frame}
    (run : l.scan g g.target o = .ok (l', f)) : f.Bounded g.target.firstSlot o.slotBudget := by
  obtain ⟨cc, params, types, args, p₁, f₁, -, -, -, -, ints, floats, -⟩ := Scan.scan_steps run
  have start : (Scan.startFrame g o (cc.numStackParams types) args).Bounded g.target.firstSlot
      o.slotBudget := ⟨rfl, rfl, Nat.le_refl _, Nat.le_max_right _ _⟩
  exact Scan.runClass_bounded (Scan.runClass_bounded start ints) floats

namespace Connection

variable {h k : Graph} {b : BlockId} {i : InstrId} {u : Unit}

theorem slots_insertAt {pos : Nat} {x : Instr} (run : Build.insertAt b pos x h = .ok (i, k)) :
    k.numSlots = h.numSlots := by
  obtain ⟨-, B, -, -, rfl⟩ := Build.insertAt_run.mp run
  rfl

theorem slots_modifyGroup {f : MoveGroup → Except Fault MoveGroup}
    (run : Build.modifyGroup i f h = .ok (u, k)) : k.numSlots = h.numSlots := by
  obtain ⟨_, _, _, -, -, -, rfl⟩ := Build.modifyGroup_run.mp run
  rfl

theorem slots_moveBefore {anchor : InstrId} {m : Move} (run : moveBefore anchor m h = .ok (u, k)) :
    k.numSlots = h.numSlots := by
  obtain ⟨_, _, _, _, -, -, -, -, -, ⟨_, -, changed⟩ | ⟨_, _, -, -, inserted⟩⟩ :=
    moveBefore_run run
  · exact slots_modifyGroup changed
  · exact slots_insertAt inserted

theorem slots_joinAt {list list' : List (BlockId × InstrId)} {pos : Nat} {moves : MoveGroup}
    (run : joinAt list b pos moves h = .ok (list', k)) : k.numSlots = h.numSlots := by
  rcases joinAt_run run with ⟨_, _, -, -, rfl | changed⟩ | ⟨_, -, inserted, -⟩
  · rfl
  · exact slots_modifyGroup changed
  · exact slots_insertAt inserted

theorem slots_joinEdge {j j' : Joints} {e : EdgeMoves} (run : joinEdge j e h = .ok (j', k)) :
    k.numSlots = h.numSlots := by
  obtain ⟨_, _, -, ⟨_, -, joined, -⟩ | ⟨_, -, -, -, -, joined, -⟩ |
    ⟨_, _, mid, -, -, -, split, inserted, -⟩⟩ := joinEdge_run run
  · exact slots_joinAt joined
  · exact slots_joinAt joined
  · rw [slots_insertAt inserted, (Build.splitEdge_run split).2.1]

end Connection

namespace Graph

variable {g g' h k : Graph} {o : Options} {l : Liveness}

theorem slots_connect {n : Nat} (run : l.connect h = .ok (n, k)) : k.numSlots = h.numSlots := by
  simp only [Liveness.connect, Build.bind_run, Build.ask_run, Build.pure_run, Prod.mk.injEq] at run
  obtain ⟨_, _, within, es, mid, ⟨-, rfl⟩, j, k', joined, -, rfl⟩ := run
  have start : mid.numSlots = h.numSlots :=
    Connection.withinBlocks_keeps (P := fun k => k.numSlots = h.numSlots)
      (fun _ _ _ _ _ _ _ _ _ _ _ _ _ moved same =>
        (Connection.slots_moveBefore moved).trans same) within rfl
  exact Build.foldlM_keeps (P := fun _ k => k.numSlots = h.numSlots)
    (fun _ _ _ _ _ _ same joined => (Connection.slots_joinEdge joined).trans same) joined start

theorem slots_placeInstrs {target : Target} {ids : List InstrId}
    {insertions : List Placement.Insertion} {result : Except AllocationError _}
    (run : Placement.placeInstrs l target ids h insertions = .ok (k, result)) :
    k.numSlots = h.numSlots := by
  fun_induction Placement.placeInstrs l target ids h insertions with
  | case1 =>
    obtain ⟨rfl, -⟩ := Prod.mk.inj (pure_ok.mp run)
    rfl
  | case2 h insertions i rest h' more placed ih =>
    simp only [Placement.placeInstr, bind_ok, lift_ok, Build.modifyInstr_ok, pure_ok,
      Prod.mk.injEq] at placed
    obtain ⟨_, -, _, -, _, ⟨_, -, rfl⟩, rfl, -⟩ := placed
    exact ih run
  | case3 =>
    obtain ⟨rfl, -⟩ := Prod.mk.inj (pure_ok.mp run)
    rfl
  | case4 => simp at run

theorem slots_place {target : Target} {result : Except AllocationError Unit}
    (run : l.place h target = .ok (k, result)) : k.numSlots = h.numSlots := by
  simp only [Liveness.place, bind_ok, Prod.exists] at run
  obtain ⟨blocks, -, mid, placed, isPlaced, run⟩ := run
  rw [← slots_placeInstrs isPlaced]
  cases placed with
  | error e =>
    obtain ⟨rfl, -⟩ := Prod.mk.inj (pure_ok.mp run)
    rfl
  | ok insertions =>
    simp only [bind_ok, pure_ok, Prod.exists, Prod.mk.injEq] at run
    obtain ⟨_, _, inserted, rfl, -⟩ := run
    refine Build.forM_keeps (P := fun k => k.numSlots = mid.numSlots) ?_ inserted rfl
    intro n _ g k u same run
    obtain ⟨_, _, _, _, -, -, -, -, inserted⟩ := Placement.insert_run run
    exact (Connection.slots_insertAt inserted).trans same

/-- The frame that is reported and recorded fits the budget, unless the budget is zero and a slot
has to be kept free all the same. -/
theorem slots_within_budget {summary : Summary}
    (allocated : g.allocate o = .ok (g', .ok summary)) :
    summary.numSlots = g'.numSlots ∧ g'.numSlots ≤ max o.slotBudget g.target.firstSlot ∧
      (g'.numSlots ≤ o.slotBudget ↔ ¬(o.slotBudget = 0 ∧ g.target.needsScratchSlot = true)) := by
  obtain ⟨l₀, l, f, h, n, k, m, -, scanned, placed, connected, sequenced, size, -⟩ :=
    allocate_ok allocated
  obtain ⟨-, -, low, high⟩ := Liveness.scan_bounded scanned
  have recorded : g'.numSlots = f.numSlots := by
    obtain ⟨-, -, same, -⟩ := sequenceMoves_ok sequenced
    rw [same, slots_connect connected, slots_place placed]
    rfl
  rw [size, recorded]
  refine ⟨rfl, high, ?_⟩
  unfold Target.firstSlot at low high
  split at low <;> simp_all
  lia

theorem crowdedCall_within_budget :
    ∃ a summary, crowdedCall.allocate
        { Options.default with ints := some (.first 3), slotBudget := 2 } = .ok (a, .ok summary) ∧
      a.numSlots = 2 ∧ summary.numSlots ≤ 2 := by
  obtain ⟨a, summary, allocated, two⟩ := allocates_of (g := crowdedCall)
    (o := { Options.default with ints := some (.first 3), slotBudget := 2 })
    (fun a => a.numSlots == 2) (by decide +kernel)
  obtain ⟨same, -, within⟩ := slots_within_budget allocated
  exact ⟨a, summary, allocated, by simpa using two, same ▸ within.mpr (by decide)⟩

def bareReturn : Graph :=
  { new "bare" .aarch32 with
    blocks := #[⟨[0], [], []⟩], instrs := #[Instr.ofOpcode .retVoid 0 .void] }

theorem bareReturn_exceeds_budget :
    ∃ a summary, bareReturn.allocate { Options.default with slotBudget := 0 } =
      .ok (a, .ok summary) ∧ a.numSlots = 1 := by
  obtain ⟨a, summary, allocated, one⟩ := allocates_of (g := bareReturn)
    (o := { Options.default with slotBudget := 0 }) (fun a => a.numSlots == 1) (by decide +kernel)
  exact ⟨a, summary, allocated, by simpa using one⟩

end Graph

end RegisterAllocation
