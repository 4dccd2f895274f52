import Mathlib.Logic.Relation
import RegisterAllocation.Proofs.Requirements

/-!
Where a scan puts intervals. All that a scan does to intervals and frame comes down to a few deeds,
and each of them puts an interval into a register that may be handed out, where its value arrives,
into the zero register if it is zero, or into memory that the frame has.
-/

namespace RegisterAllocation

open List Option CallingConvention Graph Interval IntervalPool Location Scan Target

namespace Frame

variable {f f' f'' : Frame} {g : Graph} {arrivals : Scan.Arrivals} {v : ValueId} {l : Location}
  {start stop : Position}

structure Grown (f f' : Frame) : Prop where
  firstSlot : f'.firstSlot = f.firstSlot
  numParams : f'.numParams = f.numParams
  numArgs : f'.numArgs = f.numArgs
  numSlots : f.numSlots ≤ f'.numSlots
  immediates : f.immediates <+: f'.immediates

theorem Grown.refl (f : Frame) : Grown f f :=
  ⟨rfl, rfl, rfl, Nat.le_refl _, prefix_refl _⟩

theorem Grown.trans (first : Grown f f') (second : Grown f' f'') : Grown f f'' :=
  ⟨second.firstSlot.trans first.firstSlot, second.numParams.trans first.numParams,
    second.numArgs.trans first.numArgs, first.numSlots.trans second.numSlots,
    first.immediates.trans second.immediates⟩

/-- A place in memory that can hold a value: a slot of the frame, the entry of the immediate table
that equals it, or the stack parameter it arrives in. -/
def Keeps (f : Frame) (g : Graph) (arrivals : Scan.Arrivals) (v : ValueId) (l : Location) : Prop :=
  (∃ k, l = .stackSlot k ∧ f.firstSlot ≤ k ∧ k < f.numSlots) ∨
    (∃ k w, l = .immediate k ∧ f.immediates[k]? = some w ∧ g.constantOf? v = .ok (some w)) ∨
    (l.isAnyRegister = false ∧ arrivals.find? v = some l)

theorem Keeps.of_grown (keeps : f.Keeps g arrivals v l) (grown : Grown f f') :
    f'.Keeps g arrivals v l := by
  rcases keeps with ⟨k, rfl, low, high⟩ | ⟨k, w, rfl, found, constant⟩ | arrives
  · exact .inl ⟨k, rfl, grown.firstSlot ▸ low, high.trans_le grown.numSlots⟩
  · obtain ⟨more, same⟩ := grown.immediates
    have inside : k < f.immediates.length := listed_lt found
    refine .inr (.inl ⟨k, w, rfl, ?_, constant⟩)
    rw [← same, getElem?_append_left inside, found]
  · exact .inr (.inr arrives)

def Sound (f : Frame) (g : Graph) (arrivals : Scan.Arrivals) : Prop :=
  ∀ v l, f.home? v = some l → f.Keeps g arrivals v l

theorem Sound.after_setHome (sound : f.Sound g arrivals) (grown : Grown f f')
    (homes : f'.homes = f.homes)
    (keeps : f'.Keeps g arrivals v l) : (f'.setHome v l).Sound g arrivals := by
  intro w l' home
  rw [home_setHome] at home
  split at home
  · rename_i here
    obtain rfl := some.inj home
    exact here ▸ keeps
  · rw [home?, homes] at home
    exact show f'.Keeps g arrivals w l' from (sound w l' home).of_grown grown

theorem takeSlot_grown {slot : Nat} (run : f.takeSlot start stop = .ok (slot, f')) :
    Grown f f' ∧ f'.homes = f.homes ∧ f'.firstSlot ≤ slot ∧ slot < f'.numSlots := by
  unfold takeSlot at run
  dsimp only at run
  split at run
  · obtain ⟨rfl, rfl⟩ := Prod.mk.inj (Except.ok.inj run)
    exact ⟨⟨rfl, rfl, rfl, Nat.le_max_left _ _, prefix_refl _⟩, rfl, Nat.le_add_right _ _,
      Nat.lt_of_lt_of_le (Nat.lt_succ_self _) (Nat.le_max_right _ _)⟩
  · exact absurd run refuse_ne_ok

theorem immediateIndex_found (immediates : List Word) (w : Word) :
    (immediateIndex immediates w).2[(immediateIndex immediates w).1]? = some w ∧
      immediates <+: (immediateIndex immediates w).2 := by
  unfold immediateIndex
  split
  · rename_i member
    exact ⟨by simp [getElem?_idxOf member], prefix_refl _⟩
  · exact ⟨by simp, prefix_append _ _⟩

theorem spill_grown {constant? : Option Word} (sound : f.Sound g arrivals)
    (isConstant : f.home? v = none → g.constantOf? v = .ok constant?)
    (run : f.spill v constant? start stop = .ok (l, f')) :
    Grown f f' ∧ f'.Sound g arrivals ∧ f'.Keeps g arrivals v l := by
  unfold spill at run
  cases home : f.home? v with
  | some l' =>
    simp only [home, pure_ok, Prod.mk.injEq] at run
    obtain ⟨rfl, rfl⟩ := run
    exact ⟨.refl f, sound, sound v l' home⟩
  | none =>
    cases constant : constant? with
    | some w =>
      simp only [home, constant, pure_ok, Prod.mk.injEq] at run
      obtain ⟨rfl, rfl⟩ := run
      obtain ⟨found, more⟩ := immediateIndex_found f.immediates w
      have grown : Grown f { f with immediates := (immediateIndex f.immediates w).2 } :=
        ⟨rfl, rfl, rfl, Nat.le_refl _, more⟩
      have keeps : ({ f with immediates := (immediateIndex f.immediates w).2 } : Frame).Keeps
          g arrivals v (.immediate (immediateIndex f.immediates w).1) :=
        .inr (.inl ⟨_, w, rfl, found, constant ▸ isConstant home⟩)
      exact ⟨⟨rfl, rfl, rfl, Nat.le_refl _, more⟩, sound.after_setHome grown rfl keeps, keeps⟩
    | none =>
      simp only [home, constant, bind_ok, pure_ok, Prod.exists, Prod.mk.injEq] at run
      obtain ⟨slot, taken, run, rfl, rfl⟩ := run
      obtain ⟨grown, homes, low, high⟩ := takeSlot_grown run
      have keeps : taken.Keeps g arrivals v (.stackSlot slot) := .inl ⟨slot, rfl, low, high⟩
      exact ⟨grown.trans ⟨rfl, rfl, rfl, Nat.le_refl _, prefix_refl _⟩,
        sound.after_setHome grown homes keeps, keeps⟩

end Frame

namespace Scan

/-- What a scan can do to intervals and frame in one go. -/
inductive Deed (c : Pass) (arrivals : Arrivals) :
    IntervalPool × Frame → IntervalPool × Frame → Prop where
  | divide {p : IntervalPool} {f : Frame} {id : IntervalId} {i : Interval} (cut : Position)
      (found : p.intervals[id]? = some i) : Deed c arrivals (p, f) (p.divided id i cut, f)
  | assign {p : IntervalPool} {f : Frame} {id : IntervalId} {i : Interval} {reg : Nat}
      (found : p.intervals[id]? = some i) (given : c.regs.contains reg = true) :
      Deed c arrivals (p, f) (p.set id { i with location := .registerFor reg i.ty }, f)
  | vacate {p : IntervalPool} {f : Frame} {id : IntervalId} {i : Interval}
      (found : p.intervals[id]? = some i) :
      Deed c arrivals (p, f) (p.set id { i with location := .invalid }, f)
  | spill {p : IntervalPool} {f f' : Frame} {id : IntervalId} {i : Interval} {v : ValueId}
      {constant? : Option Word} {start stop : Position} {l : Location}
      (found : p.intervals[id]? = some i) (own : i.value = some v)
      (isConstant : f.home? v = none → c.graph.constantOf? v = .ok constant?)
      (run : f.spill v constant? start stop = .ok (l, f')) :
      Deed c arrivals (p, f)
        (p.set id { i with location := l }, { f' with spilled := f'.spilled + 1 })
  | zero {p : IntervalPool} {f : Frame} {id : IntervalId} {i : Interval} {v : ValueId} {reg : Nat}
      (found : p.intervals[id]? = some i) (own : i.value = some v)
      (isZero : c.graph.constantOf? v = .ok (some 0)) (isReg : c.target.zeroReg = some reg) :
      Deed c arrivals (p, f) (p.set id (i.pin (.register reg)), f)
  | arrive {p : IntervalPool} {f : Frame} {id : IntervalId} {i : Interval} {v : ValueId}
      {l : Location} (found : p.intervals[id]? = some i) (own : i.value = some v)
      (isArrival : arrivals.find? v = some l) : Deed c arrivals (p, f) (p.set id (i.pin l), f)
  | house {p : IntervalPool} {f : Frame} {v : ValueId} {l : Location}
      (outside : l.isAnyRegister = false) (isArrival : arrivals.find? v = some l) :
      Deed c arrivals (p, f) (p, f.setHome v l)
  | touch {p : IntervalPool} {f : Frame} {id : IntervalId} {i j : Interval}
      (found : p.intervals[id]? = some i)
      (same : j.location = i.location ∧ j.pinned = i.pinned ∧ j.value = i.value ∧ j.ty = i.ty ∧
        j.physical = i.physical) : Deed c arrivals (p, f) (p.set id j, f)

variable {c : Pass} {arrivals : Arrivals} {p p' : IntervalPool} {f f' : Frame} {s s' : Scan}
  {id child : IntervalId} {i : Interval} {v : ValueId} {reg : Nat} {pos last : Position}

def Deeds (c : Pass) (arrivals : Arrivals) (s s' : Scan) : Prop :=
  Relation.ReflTransGen (Deed c arrivals) (s.pool, s.frame) (s'.pool, s'.frame)

namespace Deeds

theorem refl (s : Scan) : Deeds c arrivals s s := Relation.ReflTransGen.refl

theorem of_deed (deed : Deed c arrivals (s.pool, s.frame) (s'.pool, s'.frame)) :
    Deeds c arrivals s s' := Relation.ReflTransGen.single deed

theorem trans {mid : Scan} (first : Deeds c arrivals s mid) (second : Deeds c arrivals mid s') :
    Deeds c arrivals s s' := Relation.ReflTransGen.trans first second

theorem of_relist {queue active inactive : List IntervalId}
    (deeds : Deeds c arrivals { s with queue, active, inactive } s') : Deeds c arrivals s s' := deeds

theorem of_enqueue (run : s.enqueue id = .ok s') : Deeds c arrivals s s' := by
  obtain ⟨queue, rfl, -⟩ := Scanning.enqueue_ok run
  exact refl s

theorem of_splitAt {cut : Position} (run : s.splitAt id cut = .ok (child, s')) :
    Deeds c arrivals s s' := by
  simp only [splitAt, bind_ok, pure_ok, Prod.exists, Prod.mk.injEq] at run
  obtain ⟨_, pool, split, rfl, rfl⟩ := run
  obtain ⟨i, found, -, ⟨-, -, rfl⟩ | ⟨-, -, -, rfl⟩⟩ := splitAt_ok split
  · exact refl s
  · exact of_deed (.divide cut found)

theorem of_splitAndQueue {cut : Position} (run : s.splitAndQueue id cut = .ok s') :
    Deeds c arrivals s s' := by
  simp only [splitAndQueue, bind_ok, Prod.exists] at run
  obtain ⟨child, mid, split, queued⟩ := run
  exact (of_splitAt split).trans (of_enqueue queued)

theorem of_assign (given : c.regs.contains reg = true) (run : s.assign id reg = .ok s') :
    Deeds c arrivals s s' := by
  obtain ⟨i, found, rfl⟩ := Scanning.modify_place run
  exact of_deed (.assign found given)

theorem of_spill (run : s.spill c id = .ok s') : Deeds c arrivals s s' := by
  obtain ⟨i, v, constant?, stop, l, frame, found, own, -, spilled, isConstant, rfl⟩ :=
    Scanning.spill_ok run
  exact of_deed (.spill found own isConstant spilled)

theorem of_retire (run : s.retire c id = .ok s') : Deeds c arrivals s s' := by
  obtain ⟨i, found, ⟨-, spilled⟩ | ⟨use, -, ⟨-, mid, spilled, split⟩ | ⟨mid, vacated, queued⟩⟩⟩ :=
    retire_ok run
  · exact of_spill spilled
  · exact (of_spill spilled).trans (of_splitAndQueue split)
  · obtain ⟨i, found, rfl⟩ := Scanning.modify_place vacated
    exact (of_deed (.vacate found)).trans (of_enqueue queued)

theorem of_evict (run : evict c pos s id = .ok s') : Deeds c arrivals s s' := by
  obtain ⟨i, cut, found, -, -, ⟨-, retired⟩ | ⟨-, child, mid, split, retired⟩⟩ :=
    Scanning.evict_ok run
  · exact of_retire retired
  · exact (of_splitAt split).trans (of_retire retired)

theorem of_evictAll {leaving : List IntervalId} (run : leaving.foldlM (evict c pos) s = .ok s') :
    Deeds c arrivals s s' := by
  induction leaving generalizing s with
  | nil =>
    obtain rfl : s = s' := by simpa using run
    exact refl s
  | cons k rest ih =>
    obtain ⟨mid, head, run⟩ := foldlM_cons_ok.mp run
    exact (of_evict head).trans (ih run)

theorem of_takeOver {start blocked : Position} (given : c.regs.contains reg = true)
    (run : s.takeOver c id start reg blocked = .ok s') : Deeds c arrivals s s' := by
  obtain ⟨mid, i, cut, leaving, left, j, leaving', assigned, -, split, -, evicted, -, -, evicted'⟩ :=
    takeOver_ok run
  have seized : Deeds c arrivals mid cut := by
    rcases split with ⟨-, split⟩ | ⟨-, rfl⟩
    · exact of_splitAndQueue split
    · exact refl cut
  have cleared : Deeds c arrivals cut left := of_relist (of_evictAll evicted)
  have cleared' : Deeds c arrivals left s' := of_relist (of_evictAll evicted')
  exact (((of_assign given assigned).trans seized).trans cleared).trans cleared'

theorem of_tryFree (run : s.tryFree c id = .ok (some s')) : Deeds c arrivals s s' := by
  obtain ⟨i, demands, reg, -, -, given, -, ⟨-, assigned⟩ | ⟨mid, -, split, assigned⟩⟩ :=
    tryFree_ok run
  · exact of_assign given assigned
  · exact (of_splitAndQueue split).trans (of_assign given assigned)

theorem of_allocateBlocked (run : s.allocateBlocked c id = .ok s') : Deeds c arrivals s s' := by
  obtain ⟨i, -, ⟨-, spilled⟩ | ⟨use, hard, soft, reg, -, -, given, step⟩⟩ := allocateBlocked_ok run
  · exact of_spill spilled
  · rcases step with ⟨-, child, mid, next, split, spilled, queued⟩ | ⟨-, taken⟩
    · exact ((of_splitAt split).trans (of_spill spilled)).trans (of_enqueue queued)
    · exact of_takeOver given taken

theorem of_placeNext (run : placeNext c s id = .ok s') : Deeds c arrivals s s' := by
  obtain ⟨start, mid, last, r, -, advanced, step, -, rfl⟩ := placeNext_ok run
  obtain ⟨active, inactive, rfl, -⟩ := Serving.advance_ok advanced
  have placed : Deeds c arrivals s last := by
    rcases step with free | blocked
    · exact of_relist (of_tryFree free)
    · exact of_relist (of_allocateBlocked blocked)
  split
  · exact placed
  · exact placed

theorem of_drain {bound : Nat} (run : drain c bound pos s = .ok s') : Deeds c arrivals s s' := by
  obtain ⟨-, after, -⟩ := drain_keeps (P := fun _ t => Deeds c arrivals s t)
    (fun _ _ _ _ _ _ deeds _ _ _ placed => deeds.trans (of_relist (of_placeNext placed))) (refl s) run
  exact after

theorem of_arriveOnStack {l : Location} {start : Position} (outside : l.isAnyRegister = false)
    (isArrival : arrivals.find? v = some l) (run : s.arriveOnStack id v l start = .ok s') :
    Deeds c arrivals s s' := by
  have housed : Deeds c arrivals s { s with frame := s.frame.setHome v l } :=
    of_deed (.house outside isArrival)
  simp only [arriveOnStack, bind_ok] at run
  obtain ⟨i, -, run⟩ := run
  split at run
  · obtain rfl := pure_ok.mp run
    exact housed
  · exact housed.trans (of_splitAndQueue run)

theorem of_modify {change : Interval → Except Fault Interval}
    (same : ∀ i j, change i = .ok j → j.location = i.location ∧ j.pinned = i.pinned ∧
      j.value = i.value ∧ j.ty = i.ty ∧ j.physical = i.physical)
    (run : s.modify id change = .ok s') : Deeds c arrivals s s' := by
  simp only [modify, bind_ok, pure_ok] at run
  obtain ⟨pool, modified, rfl⟩ := run
  obtain ⟨i, j, found, changed, rfl⟩ := modify_ok modified
  exact of_deed (.touch found (same i j changed))

theorem of_arriveInRegister {l : Location} {start : Position} (positive : 0 < start)
    (run : s.arriveInRegister c id l start last = .ok s') : Deeds c arrivals s s' := by
  obtain ⟨i, j, clobber, found, longer, step⟩ := arriveInRegister_steps positive run
  have stretched : Deeds c arrivals s { s with pool := s.pool.set id j } := by
    obtain ⟨-, rfl⟩ := addRange_ok longer
    exact of_deed (.touch found ⟨rfl, rfl, rfl, rfl, rfl⟩)
  rcases step with ⟨child, mid, mid', mid'', split, preferred, queued, rfl⟩ | ⟨-, rfl⟩
  · have hinted : Deeds c arrivals mid mid' := by
      refine of_modify (fun i j changed => ?_) preferred
      obtain rfl := pure_ok.mp changed
      exact ⟨rfl, rfl, rfl, rfl, rfl⟩
    have last : Deeds c arrivals mid' mid'' := of_enqueue queued
    exact ((stretched.trans (of_splitAt split)).trans hinted).trans last
  · exact stretched

theorem of_receive (found : s.pool.intervals[id]? = some i)
    (positive : ∀ v l, i.value = some v → arrivals.find? v = some l → 0 < i.start)
    (run : receive c arrivals last s (id, i) = .ok s') : Deeds c arrivals s s' := by
  cases isValue : i.value with
  | none =>
    simp only [receive, isValue, pure_ok] at run
    exact run ▸ refl s
  | some v =>
    rcases receive_ok run isValue with ⟨reg, isZero, isReg, -, pinned⟩ | ⟨-, queued⟩ |
      ⟨l, mid, isArrival, pinned, ⟨-, arrived⟩ | ⟨outside, arrived⟩⟩
    · obtain ⟨m, found', rfl⟩ := modify_pin pinned
      obtain rfl := mem_unique found found'
      exact of_deed (.zero found isValue isZero isReg)
    · exact of_enqueue queued
    · obtain ⟨m, found', rfl⟩ := modify_pin pinned
      obtain rfl := mem_unique found found'
      exact (of_deed (s := s) (.arrive found isValue isArrival)).trans
        (of_arriveInRegister (positive v l isValue isArrival) arrived)
    · obtain ⟨m, found', rfl⟩ := modify_pin pinned
      obtain rfl := mem_unique found found'
      exact (of_deed (s := s) (.arrive found isValue isArrival)).trans
        (of_arriveOnStack outside isArrival arrived)

theorem of_enter (ready : Ready c arrivals p f) (run : enter c arrivals p f = .ok s) :
    Deeds c arrivals ⟨p, f, [], [], []⟩ s := by
  have steps : ∀ (roots : List (IntervalId × Interval)) (s s' : Scan),
      Entering c arrivals (lastArrival arrivals (rootsOf p c.regClass)) p f roots s →
      (∀ e ∈ roots, e ∈ rootsOf p c.regClass) →
      roots.foldlM (receive c arrivals (lastArrival arrivals (rootsOf p c.regClass))) s =
        .ok s' → Deeds c arrivals s s' := by
    intro roots
    induction roots with
    | nil =>
      intro s s' entering among run
      obtain rfl := pure_ok.mp run
      exact refl s
    | cons e rest ih =>
      intro s s' entering among run
      obtain ⟨mid, received, run⟩ := foldlM_cons_ok.mp run
      obtain ⟨found₀, virtual, -, -, cls⟩ := mem_rootsOf.mp (among e mem_cons_self)
      have positive : ∀ v l, e.2.value = some v → arrivals.find? v = some l → 0 < e.2.start :=
        fun v l own isArrival =>
          (ready.arriving.early e.1 e.2 v l found₀ ⟨virtual, cls⟩ own isArrival).1
      exact (of_receive (entering.ahead e mem_cons_self).1 positive received).trans
        (ih mid s' (entering.after_receive ready.arriving received)
          (fun e' member => among e' (mem_cons_of_mem e member)) run)
  exact steps _ _ s ready.to_entering (fun _ member => member) run

end Deeds

inductive Lodging (c : Pass) (arrivals : Arrivals) (f : Frame) (i : Interval) : Prop where
  | nowhere (place : i.location = .invalid)
  | register (reg : Nat) (given : c.regs.contains reg = true)
      (place : i.location = .registerFor reg i.ty)
  | zero (v : ValueId) (own : i.value = some v) (isZero : c.graph.constantOf? v = .ok (some 0))
      (isReg : c.target.isZeroReg i.location = true)
  | arrival (v : ValueId) (own : i.value = some v) (pinned : i.pinned = true)
      (isArrival : arrivals.find? v = some i.location)
  | memory (v : ValueId) (own : i.value = some v)
      (keeps : f.Keeps c.graph arrivals v i.location)

namespace Lodging

theorem of_grown (lodging : Lodging c arrivals f i) (grown : f.Grown f') :
    Lodging c arrivals f' i := by
  cases lodging with
  | nowhere place => exact .nowhere place
  | register reg given place => exact .register reg given place
  | zero v own isZero isReg => exact .zero v own isZero isReg
  | arrival v own pinned isArrival => exact .arrival v own pinned isArrival
  | memory v own keeps => exact .memory v own (keeps.of_grown grown)

theorem congr {j : Interval} (lodging : Lodging c arrivals f i) (location : j.location = i.location)
    (pinned : j.pinned = i.pinned) (value : j.value = i.value) (ty : j.ty = i.ty) :
    Lodging c arrivals f j := by
  cases lodging with
  | nowhere place => exact .nowhere (location.trans place)
  | register reg given place => exact .register reg given (location.trans (ty ▸ place))
  | zero v own isZero isReg => exact .zero v (value.trans own) isZero (location ▸ isReg)
  | arrival v own isPinned isArrival =>
    exact .arrival v (value.trans own) (pinned.trans isPinned) (location ▸ isArrival)
  | memory v own keeps => exact .memory v (value.trans own) (location ▸ keeps)

end Lodging

structure Lodged (c : Pass) (arrivals : Arrivals) (state : IntervalPool × Frame) : Prop where
  frame : state.2.Sound c.graph arrivals
  each : ∀ (id : IntervalId) (i : Interval), state.1.intervals[id]? = some i → Mine c i →
    Lodging c arrivals state.2 i

namespace Lodged

theorem after_set {j : Interval} (lodged : Lodged c arrivals (p, f))
    (found : p.intervals[id]? = some i) (grown : f.Grown f') (sound : f'.Sound c.graph arrivals)
    (here : Mine c j → Lodging c arrivals f' j) : Lodged c arrivals (p.set id j, f') := by
  refine ⟨sound, fun k m foundM isMine => ?_⟩
  rcases set_cases found foundM with ⟨-, rfl⟩ | ⟨-, foundM⟩
  · exact here isMine
  · exact (lodged.each k m foundM isMine).of_grown grown

theorem after_deed {state state' : IntervalPool × Frame} (lodged : Lodged c arrivals state)
    (deed : Deed c arrivals state state') :
    Lodged c arrivals state' ∧ state.2.Grown state'.2 := by
  cases deed with
  | @divide p f id i cut found =>
    refine ⟨⟨lodged.frame, fun k m foundM isMine => ?_⟩, .refl f⟩
    rcases divided_cases found foundM with ⟨rfl, rfl⟩ | ⟨rfl, rfl⟩ | ⟨-, before⟩
    · exact (lodged.each k i found isMine).congr rfl rfl rfl rfl
    · exact .nowhere rfl
    · exact lodged.each k m before isMine
  | @assign p f id i reg found given =>
    exact ⟨lodged.after_set found (.refl f) lodged.frame fun _ => .register reg given rfl, .refl f⟩
  | @vacate p f id i found =>
    exact ⟨lodged.after_set found (.refl f) lodged.frame fun _ => .nowhere rfl, .refl f⟩
  | @spill p f f' id i v constant? start stop l found own isConstant run =>
    obtain ⟨grown, sound, keeps⟩ := Frame.spill_grown lodged.frame isConstant run
    have counted : f.Grown { f' with spilled := f'.spilled + 1 } :=
      ⟨grown.firstSlot, grown.numParams, grown.numArgs, grown.numSlots, grown.immediates⟩
    exact ⟨lodged.after_set found counted sound fun _ => .memory v own keeps, counted⟩
  | @zero p f id i v reg found own isZero isReg =>
    refine ⟨lodged.after_set found (.refl f) lodged.frame fun _ => .zero v own isZero ?_, .refl f⟩
    simp [pin, isZeroReg, Location.register, isRegister, isReg]
  | @arrive p f id i v l found own isArrival =>
    exact ⟨lodged.after_set found (.refl f) lodged.frame fun _ => .arrival v own rfl isArrival,
      .refl f⟩
  | @house p f v l outside isArrival =>
    have grown : f.Grown (f.setHome v l) := ⟨rfl, rfl, rfl, Nat.le_refl _, prefix_refl _⟩
    refine ⟨⟨lodged.frame.after_setHome (.refl f) rfl (.inr (.inr ⟨outside, isArrival⟩)), ?_⟩, grown⟩
    exact fun k m foundM isMine => (lodged.each k m foundM isMine).of_grown grown
  | @touch p f id i j found same =>
    obtain ⟨location, pinned, value, ty, physical⟩ := same
    refine ⟨lodged.after_set found (.refl f) lodged.frame fun isMine => ?_, .refl f⟩
    refine (lodged.each id i found ⟨physical ▸ isMine.1, ?_⟩).congr location pinned value ty
    rw [regClass, ← ty]
    exact isMine.2

theorem after_deeds (lodged : Lodged c arrivals (s.pool, s.frame)) (deeds : Deeds c arrivals s s') :
    Lodged c arrivals (s'.pool, s'.frame) ∧ s.frame.Grown s'.frame := by
  have all : ∀ state, Relation.ReflTransGen (Deed c arrivals) (s.pool, s.frame) state →
      Lodged c arrivals state ∧ s.frame.Grown state.2 := by
    intro state deeds
    induction deeds with
    | refl => exact ⟨lodged, .refl s.frame⟩
    | tail _ deed ih =>
      obtain ⟨after, more⟩ := ih.1.after_deed deed
      exact ⟨after, ih.2.trans more⟩
  exact all _ deeds

end Lodged

theorem Ready.lodged_after_drain (ready : Ready c arrivals p f) (sound : f.Sound c.graph arrivals)
    (entered : enter c arrivals p f = .ok s) {bound : Nat}
    (drained : drain c bound 0 s = .ok s') :
    Lodged c arrivals (s'.pool, s'.frame) ∧ f.Grown s'.frame := by
  have start : Lodged c arrivals (p, f) :=
    ⟨sound, fun id i found isMine => .nowhere (ready.arriving.blank id i found isMine).1⟩
  exact start.after_deeds (s := ⟨p, f, [], [], []⟩) ((Deeds.of_enter ready entered).trans
    (.of_drain drained))

section

variable {g : Graph} {tree : DominatorTree} {sets : LiveSets} {l : Liveness} {o : Options}
  {cc : CallingConvention} {params : List ValueId} {types : List ValueType}

theorem runClasses_lodge (given : g.Accepted tree l.numbering.order)
    (analysed : Liveness.Analysed g g.target tree sets l)
    (convention : g.target.convention = some cc) (parameters : g.parameters = .ok params)
    (isTypes : g.typesOf params = .ok types) (empty : f.homes = []) {p₁ p₂ : IntervalPool}
    {f₁ f₂ : Frame}
    (ints : runClass g g.target o (params.zip (cc.paramLocations types)) l.physical (l.pool, f) .int =
      .ok (p₁, f₁))
    (floats : runClass g g.target o (params.zip (cc.paramLocations types)) l.physical
    (p₁, f₁) .float =
      .ok (p₂, f₂)) (cls : RegisterClass) :
    Lodged (passOf g l o cls) (params.zip (cc.paramLocations types)) (p₂, f₂) ∧ f.Grown f₂ := by
  obtain ⟨s, s', t, t', bound, bound', ready, entered, drained, rfl, rfl, -, ready', entered',
    drained', rfl, rfl, done'⟩ :=
    runClasses_steps given analysed convention parameters isTypes empty ints floats
  have sound : f.Sound g (params.zip (cc.paramLocations types)) := by
    simp [Frame.Sound, Frame.home?, empty]
  obtain ⟨lodged, grown⟩ := ready.lodged_after_drain sound entered drained
  obtain ⟨lodged', grown'⟩ := ready'.lodged_after_drain lodged.frame entered' drained'
  refine ⟨?_, grown.trans grown'⟩
  cases cls with
  | int =>
    refine ⟨lodged'.frame, fun id i found isMine => ?_⟩
    have notFloat : ¬Mine (passOf g l o .float) i := fun isFloat => not_int_of_float isFloat isMine
    exact (lodged.each id i ((done'.foreign id i notFloat).mp found) isMine).of_grown grown'
  | float => exact lodged'

end

end Scan

def CallingConvention.isParamRegister (cc : CallingConvention) (l : Location) : Bool :=
  (l.isRegister && cc.paramRegs.contains l.index) ||
    (l.isFpRegister && cc.fpParamRegs.contains l.index)

theorem CallingConvention.paramLocations_cases {cc : CallingConvention} {types : List ValueType}
    {l : Location} (member : l ∈ cc.paramLocations types) :
    (l.isAnyRegister = true ∧ cc.isParamRegister l = true) ∨
      ∃ k < cc.numStackParams types, l = .stackParameter k := by
  rcases mem_assign member with ⟨r, among, rfl⟩ | ⟨r, among, rfl⟩ | ⟨k, rfl, -, high⟩
  · exact .inl ⟨rfl, by simp [isParamRegister, Location.register, isRegister, among]⟩
  · exact .inl ⟨rfl, by simp [isParamRegister, fpRegister, isFpRegister, among]⟩
  · exact .inr ⟨k, by simpa [numStackParams, paramLocations] using high, rfl⟩

namespace Liveness

variable {g : Graph} {tree : DominatorTree} {sets : LiveSets} {l l' : Liveness} {o : Options}
  {cc : CallingConvention} {arrivals : Scan.Arrivals} {f : Frame} {v : ValueId} {q : Position}
  {place : Location}

inductive Suits (g : Graph) (o : Options) (arrivals : Scan.Arrivals) (f : Frame) (v : ValueId)
    (place : Location) : Prop where
  | register (cls : RegisterClass) (inClass : place.inClass cls = true)
      (given : (o.registers g.target cls).contains place.index = true)
  | zero (isZero : g.constantOf? v = .ok (some 0)) (isReg : g.target.isZeroReg place = true)
  | memory (keeps : f.Keeps g arrivals v place)

structure Arrives (g : Graph) (arrivals : Scan.Arrivals) (n : Numbering) (v : ValueId)
    (i : Interval) : Prop where
  register : i.location.isAnyRegister = true
  isArrival : arrivals.find? v = some i.location
  start : i.start = 0
  early : ∃ (d : InstrId) (x : Instr) (p : Position), g.instrs[d]? = some x ∧
    x.opcode = .parameter ∧ n.numberOf? d = some p ∧ i.stop ≤ p + 1

structure Located (g : Graph) (o : Options) (cc : CallingConvention) (arrivals : Scan.Arrivals)
    (l : Liveness) (f : Frame) : Prop where
  convention : g.target.convention = some cc
  firstSlot : f.firstSlot = g.target.firstSlot
  slots : f.firstSlot ≤ f.numSlots
  arrival : ∀ v place, arrivals.find? v = some place →
    (place.isAnyRegister = true ∧ cc.isParamRegister place = true) ∨
      ∃ k < f.numParams, place = .stackParameter k
  parameter : ∀ v place, arrivals.find? v = some place →
    ∃ (d : InstrId) (x : Instr), g.instrs[d]? = some x ∧ x.opcode = .parameter ∧ v ∈ x.results
  args : ∀ (d : InstrId) (x : Instr), g.instrs[d]? = some x → x.isCall = true →
    ∃ types, g.typesOf x.inputs = .ok types ∧ cc.numStackParams types ≤ f.numArgs
  tidy : l.pool.Tidy (· % 2 = 1)
  root : ∀ v id, l.intervalOf? v = some id →
    ∃ i, l.pool.intervals[id]? = some i ∧ i.value = some v ∧ i.root = id
  place : ∀ (id : IntervalId) (i : Interval) v, l.pool.intervals[id]? = some i → i.value = some v →
    i.location.isInvalid = false ∧
      (Suits g o arrivals f v i.location ∨ Arrives g arrivals l.numbering v i)

section

variable (given : g.Accepted tree l.numbering.order) (analysed : Analysed g g.target tree sets l)
  (run : l.scan g g.target o = .ok (l', f))

include given analysed run

/-- A scan puts every interval into a place that suits its value, and parameters arrive where the
convention says. -/
theorem scan_locates_parameters :
    ∃ cc params types, g.parameters = .ok params ∧ g.typesOf params = .ok types ∧
      l' = { l with pool := l'.pool } ∧ f.numParams = cc.numStackParams types ∧
      Located g o cc (params.zip (cc.paramLocations types)) l' f := by
  obtain ⟨same, served, located⟩ := scan_serving given analysed run
  obtain ⟨cc, params, types, args, p₁, f₁, convention, parameters, isTypes, isArgs, ints,
    floats, -⟩ :=
    scan_steps run
  have scanned := runClasses_ok given analysed convention parameters isTypes rfl ints floats
  have lodge := Scan.runClasses_lodge given analysed convention parameters isTypes rfl ints floats
  have grown := (lodge .int).2
  have fits : cc.FitsTarget g.target := fits_target convention
  have arrival : ∀ v place,
      Scan.Arrivals.find? (params.zip (cc.paramLocations types)) v = some place →
      v ∈ params ∧ place ∈ cc.paramLocations types := by
    intro v place isArrival
    obtain ⟨k, isV, isPlace⟩ := find_arrival isArrival
    exact ⟨mem_of_getElem? isV, mem_of_getElem? isPlace⟩
  refine ⟨cc, params, types, parameters, isTypes, same, grown.numParams, convention, grown.firstSlot,
    ?_, ?_, ?_, ?_, served.tidy, ?_, ?_⟩
  · exact grown.firstSlot ▸ grown.numSlots
  · intro v place isArrival
    rw [grown.numParams]
    exact paramLocations_cases (arrival v place isArrival).2
  · intro v place isArrival
    obtain ⟨pc, x, ⟨E, d, -, -, found⟩, parameter, result⟩ :=
      mem_parameters parameters (arrival v place isArrival).1
    exact ⟨d, x, found, parameter, result⟩
  · intro d x found call
    obtain ⟨ts, isTs, member⟩ := isArgs x (Array.mem_toList_iff.mpr (Array.mem_of_getElem? found))
      call
    refine ⟨ts, isTs, ?_⟩
    rw [grown.numArgs]
    exact le_foldl_max member 0
  · intro v id known
    rw [same] at known
    obtain ⟨i, ty, d, x, p, found, -, -, -, -, -, -, made⟩ := analysed.has_root given known
    obtain ⟨j, foundJ, value, -, isRoot⟩ := served.stays id i found
    exact ⟨j, foundJ, value.trans (by rw [made]; rfl), isRoot.trans (by rw [made]; rfl)⟩
  · intro id i v found own
    have virtual : i.physical = false := by rw [(served.tidy.fit id i found).kind, own]; rfl
    have isMine : Scan.Mine (Scan.passOf g l o i.regClass) i := ⟨virtual, rfl⟩
    have valid := located id i found virtual
    refine ⟨valid, ?_⟩
    cases (lodge i.regClass).1.each id i found isMine with
    | nowhere place => simp [place] at valid
    | register reg given place =>
      refine .inl (.register i.regClass ?_ ?_)
      · rw [place]
        exact Scan.Scanning.inClass_registerFor
      · rw [place, index_registerFor]
        exact given
    | zero w ownW isZero isReg =>
      obtain rfl := mem_unique own ownW
      exact .inl (.zero isZero isReg)
    | memory w ownW keeps =>
      obtain rfl := mem_unique own ownW
      exact .inl (.memory keeps)
    | arrival w ownW pinned isArrival =>
      obtain rfl := mem_unique own ownW
      by_cases register : i.location.isAnyRegister = true
      · have inClass := (scanned.settled i.regClass).kind id i found isMine register
        have notZero : g.target.isZeroReg i.location = false := by
          rcases CallingConvention.mem_assign (arrival v _ isArrival).2 with ⟨r, among, isReg⟩ |
            ⟨r, among, isReg⟩ | ⟨k, isReg, -⟩
          · have := (fits.regs r among).2
            simpa [isReg, isZeroReg, Location.register, isRegister] using this
          · simp [isReg, isZeroReg, fpRegister, isRegister]
          · simp [isReg, isZeroReg, stackParameter, isRegister]
        obtain ⟨start, k, i₀, w, place, found₀, -, own₀, isArrival₀, early⟩ :=
          (scanned.settled i.regClass).released id i found ⟨isMine, inClass, notZero⟩ pinned
        obtain ⟨d, x, foundX, parameter, -, isAt, -⟩ :=
          arrival_start given analysed parameters found₀ own₀ isArrival₀
        refine .inr ⟨register, isArrival, start, d, x, _, foundX, parameter, ?_, early⟩
        rw [same]
        exact isAt
      · exact .inl (.memory (.inr (.inr ⟨by simpa using register, isArrival⟩)))

theorem scan_locates :
    ∃ cc arrivals, l' = { l with pool := l'.pool } ∧ Located g o cc arrivals l' f := by
  obtain ⟨cc, params, types, -, -, same, -, located⟩ := scan_locates_parameters given analysed run
  exact ⟨cc, _, same, located⟩

end

theorem Located.interval_at (located : Located g o cc arrivals l f)
    (isPlace : l.locationAt v q = .ok (some place)) :
    ∃ (id : IntervalId) (i : Interval), l.pool.intervals[id]? = some i ∧ i.value = some v ∧
      i.covers q = true ∧ i.location = place := by
  obtain ⟨i, ⟨id, found, own, covers⟩, isHere⟩ :=
    piece_of_locationAt located.tidy located.root isPlace
  exact ⟨id, i, found, own, covers, isHere⟩

end Liveness

end RegisterAllocation
