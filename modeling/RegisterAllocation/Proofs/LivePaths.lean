import Mathlib.Data.List.Sort
import RegisterAllocation.Liveness.Intervals
import RegisterAllocation.Proofs.Dominators
import RegisterAllocation.Proofs.LiveSets

/-!
A value is in the set of live values of a block if and only if a path leads from the block to where
the value is asked for, with no definition on the way. This holds of any program, in single-assignment
form or not, as long as its edges are listed at both ends.

While blocks wait to be evaluated the sets grow. Whatever a set holds by now is accounted for by a
path, and follows from the present sets of the successors; so evaluating a block never takes anything
away from its set. A set can grow no more often than there are operands, which bounds the number of
times that a block is queued.
-/

namespace RegisterAllocation

open List Option Instr

namespace ValueSet

variable {v w : ValueId} {vs : List ValueId} {s t : ValueSet}

def Increasing (s : ValueSet) : Prop := s.Pairwise (· < ·)

theorem Increasing.after_insert (increasing : Increasing s) : Increasing (insert v s) := by
  induction s with
  | nil => simp [insert, Increasing]
  | cons w rest ih =>
    obtain ⟨first, others⟩ := pairwise_cons.mp increasing
    unfold insert
    split
    · rename_i less
      refine pairwise_cons.mpr ⟨fun u member => ?_, increasing⟩
      rcases mem_cons.mp member with rfl | member
      · exact less
      · exact less.trans (first u member)
    · split
      · exact increasing
      · rename_i notLess other
        refine pairwise_cons.mpr ⟨fun u member => ?_, ih others⟩
        rcases mem_insert.mp member with rfl | member
        · lia
        · exact first u member

theorem Increasing.after_union (increasing : Increasing s) : Increasing (union vs s) := by
  unfold union
  induction vs generalizing s with
  | nil => exact increasing
  | cons v rest ih => exact ih increasing.after_insert

theorem Increasing.after_diff (increasing : Increasing s) : Increasing (diff s t) :=
  List.Pairwise.sublist filter_sublist increasing

theorem Increasing.length_lt (first : Increasing s) (second : Increasing t)
    (within : ∀ v ∈ s, v ∈ t) (differ : t ≠ s) : s.length < t.length := by
  have once : s.Nodup := first.imp Nat.ne_of_lt
  have fewer : s.Subperm t := once.subperm within
  refine lt_of_le_of_ne fewer.length_le fun same => differ ?_
  exact ((fewer.perm_of_length_le same.ge).eq_of_pairwise (fun a b _ _ ab ba => by lia)
    first second).symm

end ValueSet

namespace Graph

variable {g : Graph} {order : List BlockId} {b c s : BlockId} {B S : Block} {v : ValueId}
  {i : InstrId} {x : Instr}

/-- A block needs a value from before: it reads the value first, or hands it on to a phi. -/
def AsksFor (g : Graph) (b : BlockId) (v : ValueId) : Prop :=
  g.ReadsFirst b v ∨ (¬g.Produces b v ∧ ∃ s, g.Edge b s ∧ g.LeadingPhiTakes b s v)

/-- A path leads from a block to one that asks for a value, and no block before that one produces
it. -/
def LiveFrom (g : Graph) (b : BlockId) (v : ValueId) : Prop :=
  ∃ c, Relation.ReflTransGen (fun p q => g.Edge p q ∧ ¬g.Produces p v) b c ∧ g.AsksFor c v

theorem LiveFrom.of_succ (edge : g.Edge b s) (passes : ¬g.Produces b v) (live : g.LiveFrom s v) :
    g.LiveFrom b v := by
  obtain ⟨c, path, asks⟩ := live
  exact ⟨c, .head ⟨edge, passes⟩ path, asks⟩

theorem LiveFrom.mem_inputs (live : g.LiveFrom b v) : v ∈ g.instrs.toList.flatMap Instr.inputs := by
  have operand {i : InstrId} {x : Instr} (found : g.instrs[i]? = some x) (input : v ∈ x.inputs) :
      v ∈ g.instrs.toList.flatMap Instr.inputs :=
    mem_flatMap.mpr ⟨x, Array.mem_toList_iff.mpr (Array.mem_of_getElem? found), input⟩
  obtain ⟨c, -, ⟨-, -, i, x, -, -, found, -, input, -⟩ | ⟨-, s, -, takes⟩⟩ := live
  · exact operand found input
  · obtain ⟨S, k, i, x, -, -, -, found, input⟩ := takes
    exact operand found (mem_of_getElem? input)

theorem phisAmong_total {instrs : List InstrId} (listed : ∀ i ∈ instrs, i < g.instrs.size) :
    ∃ phis, g.phisAmong instrs = .ok phis := by
  induction instrs with
  | nil => exact ⟨[], rfl⟩
  | cons i rest ih =>
    obtain ⟨phis, others⟩ := ih fun j member => listed j (mem_cons_of_mem i member)
    have found := Array.getElem?_eq_getElem (listed i mem_cons_self)
    rw [phisAmong, instr_ok.mpr found, ok_bind, others]
    split <;> exact ⟨_, rfl⟩

end Graph

namespace Numbering

variable {g : Graph} {n m : Numbering}

theorem order_addBlock {b : BlockId} (run : addBlock g n b = .ok m) : m.order = n.order := by
  simp only [addBlock, bind_ok, pure_ok] at run
  obtain ⟨B, -, last, each, -, -, rfl⟩ := run
  change last.order = n.order
  refine foldlM_ok (P := fun k : Numbering => k.order = n.order) (fun i _ k k' same step => ?_)
    each rfl
  simp only [addInstr, bind_ok] at step
  obtain ⟨x, -, step⟩ := step
  split at step <;> exact pure_ok.mp step ▸ same

theorem ordered_of_ok (run : ofGraph g = .ok n) : g.reversePostOrder = .ok n.order := by
  simp only [ofGraph, bind_ok] at run
  obtain ⟨order, ordered, run⟩ := run
  rw [ordered, foldlM_ok (P := fun k : Numbering => k.order = order)
    (fun b _ k k' same step => (order_addBlock step).trans same) run rfl]

end Numbering

namespace LiveSets

variable {g : Graph} {order queue queue' : List BlockId} {b c s : BlockId} {B : Block}
  {v : ValueId} {sets next : LiveSets}

def Wanted (g : Graph) (sets : LiveSets) (b : BlockId) (v : ValueId) : Prop :=
  g.ReadsFirst b v ∨
    (¬g.Produces b v ∧ ∃ s, g.Edge b s ∧ (sets.AtStart s v ∨ g.LeadingPhiTakes b s v))

theorem Wanted.mono (supplied : Wanted g sets b v)
    (grows : ∀ s, sets.AtStart s v → next.AtStart s v) : Wanted g next b v :=
  supplied.imp_right fun ⟨passes, s, edge, live⟩ => ⟨passes, s, edge, live.imp_left (grows s)⟩

theorem Wanted.to_liveFrom (supplied : Wanted g sets b v)
    (sound : ∀ s, sets.AtStart s v → g.LiveFrom s v) : g.LiveFrom b v := by
  rcases supplied with reads | ⟨passes, s, edge, live | takes⟩
  · exact ⟨b, .refl, .inl reads⟩
  · exact (sound s live).of_succ edge passes
  · exact ⟨b, .refl, .inr ⟨passes, s, edge, takes⟩⟩

theorem mem_start {out : ValueSet} {e : Graph.Effect} (isOut : sets.outOf g b = .ok out)
    (isEffect : g.effect b = .ok e) :
    v ∈ ValueSet.union e.read (ValueSet.diff out e.defined) ↔ Wanted g sets b v := by
  obtain ⟨B, -, stored, -⟩ := Graph.effect_ok isEffect
  have live : v ∈ out ↔ ∃ s, g.Edge b s ∧ (sets.AtStart s v ∨ g.LeadingPhiTakes b s v) := by
    simp only [outOf, Graph.block_ok.mpr stored, ok_bind] at isOut
    rw [mem_outs (fun s vs => Graph.mem_leadingInputs) isOut]
    simp [Graph.Edge, stored]
  rw [ValueSet.mem_union, ValueSet.mem_diff, Graph.mem_readFirst isEffect,
    Graph.mem_produced isEffect, live, Wanted, and_comm (b := ¬_)]

theorem increasing_start {out : ValueSet} {e : Graph.Effect} (isOut : sets.outOf g b = .ok out) :
    ValueSet.Increasing (ValueSet.union e.read (ValueSet.diff out e.defined)) := by
  have increasing : ValueSet.Increasing out := by
    simp only [outOf, bind_ok] at isOut
    obtain ⟨B, -, isOut⟩ := isOut
    refine foldlM_ok (P := ValueSet.Increasing) (fun s _ before after increasing run => ?_) isOut
      List.Pairwise.nil
    simp only [bind_ok, need_eq_ok, pure_ok] at run
    obtain ⟨atStart, -, inputs, -, rfl⟩ := run
    exact increasing.after_union.after_union
  exact increasing.after_diff.after_union

def Listed (g : Graph) (order : List BlockId) : Prop :=
  ∀ b ∈ order, ∀ B, g.blocks[b]? = some B → ∀ i ∈ B.instrs, i < g.instrs.size

theorem phiInputs_total (listed : Listed g order) (member : s ∈ order)
    (inside : s < g.blocks.size) : ∃ vs, g.phiInputs b s = .ok vs := by
  have stored := Array.getElem?_eq_getElem inside
  obtain ⟨phis, leading⟩ := Graph.phisAmong_total (listed s member _ stored)
  have among : ∀ i ∈ phis, i ∈ g.blocks[s].instrs := fun i member =>
    (takeWhile_sublist _).subset (Graph.phisAmong_takeWhile leading ▸ member)
  have found : ∀ i ∈ phis, ∃ x, g.instr i = .ok x := fun i leads =>
    ⟨_, Graph.instr_ok.mpr (Array.getElem?_eq_getElem (listed s member _ stored i (among i leads)))⟩
  obtain ⟨xs, each⟩ := mapM_total found
  simp only [Graph.phiInputs, Graph.phis, Graph.block_ok.mpr stored, ok_bind, leading, each]
  split <;> exact ⟨_, rfl⟩

theorem effect_total (listed : Listed g order) (member : b ∈ order)
    (inside : b < g.blocks.size) : ∃ e, g.effect b = .ok e := by
  have stored := Array.getElem?_eq_getElem inside
  obtain ⟨xs, each⟩ := mapM_total (f := g.instr) fun i isListed =>
    ⟨_, Graph.instr_ok.mpr (Array.getElem?_eq_getElem (listed b member _ stored i isListed))⟩
  simp only [Graph.effect, Graph.block_ok.mpr stored, ok_bind, each]
  exact ⟨_, rfl⟩

section

variable (linked : g.Linked) (ranked : g.Ranked order) (listed : Listed g order)
  (size : sets.liveIn.size = g.blocks.size) (member : b ∈ order)

include linked ranked listed size member

theorem outOf_total :
    ∃ out, sets.outOf g b = .ok out := by
  have stored := Array.getElem?_eq_getElem (ranked.inside b member)
  simp only [outOf, Graph.block_ok.mpr stored, ok_bind]
  refine foldlM_total (fun s succ out => ?_) []
  have edge : g.Edge b s := ⟨_, stored, succ⟩
  have inside := linked.target_lt edge
  obtain ⟨vs, taken⟩ := phiInputs_total (b := b) listed (ranked.closed b s member edge) inside
  rw [Array.getElem?_eq_getElem (size ▸ inside), need_some, ok_bind, taken]
  exact ⟨_, rfl⟩

theorem evaluate_total :
    ∃ changed next, sets.evaluate g b = .ok (changed, next) := by
  have inside := ranked.inside b member
  obtain ⟨out, isOut⟩ := outOf_total linked ranked listed size member
  obtain ⟨e, isEffect⟩ := effect_total listed member inside
  simp only [evaluate, isOut, isEffect, ok_bind, Array.getElem?_eq_getElem (size ▸ inside),
    need_some]
  split <;> exact ⟨_, _, rfl⟩

end

structure Growing (g : Graph) (order queue : List BlockId) (sets : LiveSets) : Prop where
  sizeIn : sets.liveIn.size = g.blocks.size
  sizeOut : sets.liveOut.size = g.blocks.size
  waiting : ∀ b ∈ queue, b ∈ order
  solved : ∀ b ∈ order, b ∉ queue → Solved g sets b
  increasing : ∀ (b : BlockId) (vs : ValueSet), sets.liveIn[b]? = some vs → vs.Increasing
  supplied : ∀ b v, sets.AtStart b v → Wanted g sets b v
  sound : ∀ b v, sets.AtStart b v → g.LiveFrom b v

def operands (g : Graph) : Nat := (g.instrs.toList.map (·.inputs.length)).sum

def slack (g : Graph) (sets : LiveSets) (b : BlockId) : Nat :=
  (g.blocks[b]?.map (·.preds.length)).getD 0 *
    (operands g - (sets.liveIn[b]?.map length).getD 0)

namespace Growing

theorem length_le (growing : Growing g order queue sets) {vs : ValueSet}
    (known : sets.liveIn[b]? = some vs) : vs.length ≤ operands g := by
  have once : vs.Nodup := (growing.increasing b vs known).imp Nat.ne_of_lt
  have within : vs ⊆ g.instrs.toList.flatMap Instr.inputs := fun v member =>
    (growing.sound b v ⟨vs, known, member⟩).mem_inputs
  simpa [operands, length_flatMap] using (once.subperm within).length_le

theorem after_evaluate (linked : g.Linked) {changed : Bool}
    (growing : Growing g order (b :: queue) sets)
    (run : sets.evaluate g b = .ok (changed, next)) (kept : ∀ c ∈ queue, c ∈ queue')
    (waiting : ∀ c ∈ queue', c ∈ order)
    (queued : changed = true →
      ∀ B, g.blocks[b]? = some B → ∀ c ∈ B.preds, c ∈ order → c ∈ queue') :
    Growing g order queue' next ∧ ∀ c v, sets.AtStart c v → next.AtStart c v := by
  obtain ⟨out, e, isOut, isEffect, atOut, atIn, sizeOut, sizeIn, others, -⟩ :=
    evaluate_ok growing.sizeOut run
  have here (v : ValueId) : next.AtStart b v ↔ Wanted g sets b v := by
    rw [← mem_start isOut isEffect]
    simp [AtStart, atIn]
  have away {c : BlockId} (other : c ≠ b) (v : ValueId) : next.AtStart c v ↔ sets.AtStart c v := by
    simp [AtStart, (others c other).2]
  have grows (c : BlockId) (v : ValueId) (live : sets.AtStart c v) : next.AtStart c v := by
    by_cases same : c = b
    · subst same
      exact (here v).mpr (growing.supplied c v live)
    · exact (away same v).mpr live
  have supplied (c : BlockId) (v : ValueId) (live : next.AtStart c v) : Wanted g sets c v := by
    by_cases same : c = b
    · subst same
      exact (here v).mp live
    · exact growing.supplied c v ((away same v).mp live)
  refine ⟨⟨sizeIn.trans growing.sizeIn, sizeOut.trans growing.sizeOut, waiting, ?_, ?_, ?_, ?_⟩,
    grows⟩
  · refine solved_step (fun c C s stored succ => ?_) growing.sizeOut growing.solved run kept queued
    exact linked.edge_iff.mp ⟨C, stored, succ⟩
  · intro c vs known
    by_cases same : c = b
    · subst same
      obtain rfl := mem_unique atIn known
      exact increasing_start isOut
    · exact growing.increasing c vs ((others c same).2 ▸ known)
  · exact fun c v live => (supplied c v live).mono fun s => grows s v
  · exact fun c v live => (supplied c v live).to_liveFrom fun s => growing.sound s v

variable (growing : Growing g order queue sets) (after : Growing g order queue' next)
  (stored : g.blocks[b]? = some B) (grows : ∀ v, sets.AtStart b v → next.AtStart b v)
  (changed : next.liveIn[b]? ≠ sets.liveIn[b]?)

include growing after stored grows changed

theorem slack_lt :
    slack g next b + B.preds.length ≤ slack g sets b := by
  have inside := found_lt stored
  obtain ⟨old, before⟩ : ∃ vs, sets.liveIn[b]? = some vs :=
    ⟨_, Array.getElem?_eq_getElem (growing.sizeIn.symm ▸ inside)⟩
  obtain ⟨new, now⟩ : ∃ vs, next.liveIn[b]? = some vs :=
    ⟨_, Array.getElem?_eq_getElem (after.sizeIn.symm ▸ inside)⟩
  have longer := (growing.increasing b old before).length_lt (after.increasing b new now)
    (fun v member => by simpa [AtStart, now] using grows v ⟨old, before, member⟩)
    (by simpa [before, now] using changed)
  have most := after.length_le now
  have less : operands g - new.length + 1 ≤ operands g - old.length := by lia
  have scaled := Nat.mul_le_mul_left B.preds.length less
  simpa [slack, stored, before, now, Nat.mul_add] using scaled

theorem sum_slack_le (others : ∀ c, c ≠ b → next.liveIn[c]? = sets.liveIn[c]?) :
    ∑ c ∈ Finset.range g.blocks.size, slack g next c + B.preds.length ≤
      ∑ c ∈ Finset.range g.blocks.size, slack g sets c := by
  have member : b ∈ Finset.range g.blocks.size :=
    Finset.mem_range.mpr (found_lt stored)
  have rest : ∑ c ∈ (Finset.range g.blocks.size).erase b, slack g next c =
      ∑ c ∈ (Finset.range g.blocks.size).erase b, slack g sets c :=
    Finset.sum_congr rfl fun c away => by rw [slack, slack, others c (Finset.ne_of_mem_erase away)]
  rw [← Finset.add_sum_erase _ _ member, ← Finset.add_sum_erase _ _ member, rest]
  have here := growing.slack_lt after stored grows changed
  lia

end Growing

theorem evaluate_changed (run : sets.evaluate g b = .ok (true, next)) :
    next.liveIn[b]? ≠ sets.liveIn[b]? := by
  simp only [evaluate, bind_ok, need_eq_ok] at run
  obtain ⟨out, -, e, -, atStart, known, run⟩ := run
  split at run
  · simp at run
  · rename_i differ
    obtain ⟨-, rfl⟩ := Prod.mk.inj (pure_ok.mp run)
    obtain ⟨inside, rfl⟩ := Array.getElem?_eq_some_iff.mp known
    simpa [inside] using differ

theorem enqueue_total {preds : List BlockId} (stored : ∀ p ∈ preds, p < g.blocks.size)
    (waiting : ∀ c ∈ queue, c ∈ order) :
    ∃ more, preds.foldlM (enqueue g order) queue = .ok more ∧
      more.length ≤ queue.length + preds.length ∧ ∀ c ∈ more, c ∈ order := by
  induction preds generalizing queue with
  | nil => exact ⟨queue, rfl, Nat.le_refl _, waiting⟩
  | cons p rest ih =>
    have found := Array.getElem?_eq_getElem (stored p mem_cons_self)
    have others : ∀ p ∈ rest, p < g.blocks.size := fun q member =>
      stored q (mem_cons_of_mem p member)
    rw [foldlM_cons, enqueue, Graph.block_ok.mpr found, ok_bind]
    split
    · rename_i fresh
      have grown : ∀ c ∈ queue ++ [p], c ∈ order := by
        intro c member
        rcases mem_append.mp member with member | member
        · exact waiting c member
        · exact mem_singleton.mp member ▸ fresh.1
      obtain ⟨more, run, length, within⟩ := ih others grown
      refine ⟨more, run, ?_, within⟩
      simp only [length_append, length_cons, length_nil] at length ⊢
      lia
    · obtain ⟨more, run, length, within⟩ := ih others waiting
      refine ⟨more, run, ?_, within⟩
      simp only [length_cons]
      lia

theorem settle_total (linked : g.Linked) (ranked : g.Ranked order) (listed : Listed g order)
    {bound : Nat} (growing : Growing g order queue sets)
    (enough : queue.length + ∑ b ∈ Finset.range g.blocks.size, slack g sets b ≤ bound) :
    ∃ last, settle g order bound queue sets = .ok last ∧ Growing g order [] last := by
  induction bound generalizing queue sets with
  | zero =>
    cases queue with
    | nil => exact ⟨sets, rfl, growing⟩
    | cons b queue => simp at enough
  | succ bound ih =>
    cases queue with
    | nil => exact ⟨sets, rfl, growing⟩
    | cons b queue =>
      have member := growing.waiting b mem_cons_self
      have later : ∀ c ∈ queue, c ∈ order := fun c waits =>
        growing.waiting c (mem_cons_of_mem b waits)
      obtain ⟨changed, next, run⟩ := evaluate_total linked ranked listed growing.sizeIn member
      obtain ⟨-, -, -, -, -, -, -, -, others, still⟩ := evaluate_ok growing.sizeOut run
      rw [length_cons] at enough
      simp only [settle, run, ok_bind]
      cases changed with
      | false =>
        obtain ⟨after, -⟩ := growing.after_evaluate linked run (fun c waits => waits) later (by simp)
        refine ih after ?_
        simp only [slack, still rfl] at enough ⊢
        lia
      | true =>
        have inside := ranked.inside b member
        have stored := Array.getElem?_eq_getElem inside
        have known : ∀ p ∈ g.blocks[b].preds, p < g.blocks.size := fun p pred =>
          (linked.edge_iff.mpr ⟨_, stored, pred⟩).source_lt
        obtain ⟨more, enqueued, length, waiting⟩ := enqueue_total known later
        obtain ⟨kept, queued⟩ := enqueue_ok enqueued
        obtain ⟨after, grows⟩ := growing.after_evaluate linked run kept waiting fun _ B stored' => by
          obtain rfl := mem_unique stored stored'
          exact queued
        have spent := growing.sum_slack_le after stored (grows b) (evaluate_changed run)
          fun c other => (others c other).2
        simp only [↓reduceIte, Graph.block_ok.mpr stored, ok_bind, enqueued]
        exact ih after (by lia)

theorem sum_preds : ∑ b ∈ Finset.range g.blocks.size,
    (g.blocks[b]?.map (·.preds.length)).getD 0 = (g.blocks.toList.map (·.preds.length)).sum := by
  rw [Finset.sum_range, ← Fin.sum_univ_fun_getElem]
  refine Finset.sum_congr rfl fun k _ => ?_
  simp

theorem ofGraph_total (linked : g.Linked) (ranked : g.Ranked order) (listed : Listed g order) :
    ∃ sets, ofGraph g order = .ok sets ∧ Growing g order [] sets := by
  have empty {b : BlockId} {v : ValueId} : ¬AtStart
      ⟨Array.replicate g.blocks.size [], Array.replicate g.blocks.size []⟩ b v := by
    rintro ⟨vs, known, member⟩
    obtain ⟨_, rfl⟩ := Array.getElem?_eq_some_iff.mp known
    simp at member
  refine settle_total linked ranked listed ⟨by simp, by simp, ?_, ?_, ?_, ?_, ?_⟩ ?_
  · exact fun b waits => mem_reverse.mp waits
  · intro b member waits
    simp [member] at waits
  · intro b vs known
    obtain ⟨_, rfl⟩ := Array.getElem?_eq_some_iff.mp known
    simp [ValueSet.Increasing]
  · exact fun b v live => absurd live empty
  · exact fun b v live => absurd live empty
  · have start (b : BlockId) (member : b ∈ Finset.range g.blocks.size) :
        slack g ⟨Array.replicate g.blocks.size [], Array.replicate g.blocks.size []⟩ b =
          (g.blocks[b]?.map (·.preds.length)).getD 0 * operands g := by
      simp [slack, Finset.mem_range.mp member]
    rw [Finset.sum_congr rfl start, ← Finset.sum_mul, sum_preds, length_reverse]
    exact Nat.add_le_add_right ranked.length_le _

namespace Growing

theorem atStart_of_live (ranked : g.Ranked order) (settled : Growing g order [] sets)
    (member : b ∈ order) (live : g.LiveFrom b v) : sets.AtStart b v := by
  obtain ⟨c, path, asks⟩ := live
  have solves {b : BlockId} (member : b ∈ order) : Wanted g sets b v → sets.AtStart b v := by
    obtain ⟨out, e, isOut, isEffect, -, atIn⟩ := settled.solved b member not_mem_nil
    exact fun supplied => ⟨_, atIn, (mem_start isOut isEffect).mpr supplied⟩
  induction path using Relation.ReflTransGen.head_induction_on with
  | refl =>
    refine solves member (asks.imp_right fun ⟨passes, s, edge, takes⟩ => ?_)
    exact ⟨passes, s, edge, .inr takes⟩
  | @head b s step _ ih =>
    obtain ⟨edge, passes⟩ := step
    exact solves member (.inr ⟨passes, s, edge, .inl (ih (ranked.closed b s member edge))⟩)

end Growing

/-- The analysis of a program ends, and lists as live at the start of a block the values for which
a path leads to where they are asked for. -/
theorem liveIn_iff_path (linked : g.Linked)
    (listed : ∀ b B, g.Reaches g.entry b → g.blocks[b]? = some B → ∀ i ∈ B.instrs,
      i < g.instrs.size) :
    ∃ order sets, g.reversePostOrder = .ok order ∧ ofGraph g order = .ok sets ∧
      (∀ b, g.Reaches g.entry b → ∃ vs, sets.liveIn[b]? = some vs ∧ vs.Pairwise (· < ·) ∧
        ∀ v, v ∈ vs ↔ g.LiveFrom b v) ∧
      ∀ target l, Liveness.ofGraph g target = .ok l → l.liveIn = sets.liveIn := by
  obtain ⟨order, ordered⟩ := Graph.reversePostOrder_total linked.entry fun _ _ => linked.target_lt
  have ranked := Graph.reversePostOrder_ranked ordered
  have reached (b : BlockId) : b ∈ order ↔ g.Reaches g.entry b :=
    ranked.mem_iff.trans Graph.reaches_iff_route.symm
  obtain ⟨sets, run, settled⟩ := ofGraph_total linked ranked fun b member B stored =>
    listed b B ((reached b).mp member) stored
  refine ⟨order, sets, ordered, run, ?_, ?_⟩
  · intro b reaches
    have member := (reached b).mpr reaches
    obtain ⟨out, e, -, -, -, known⟩ := settled.solved b member not_mem_nil
    refine ⟨_, known, settled.increasing b _ known, fun v => ?_⟩
    refine ⟨fun live => settled.sound b v ⟨_, known, live⟩, fun live => ?_⟩
    obtain ⟨vs, known', among⟩ := settled.atStart_of_live ranked member live
    obtain rfl := mem_unique known known'
    exact among
  · intro target l analysed
    simp only [Liveness.ofGraph, bind_ok, pure_ok] at analysed
    obtain ⟨n, numbered, sets', run', -, -, -, -, rfl⟩ := analysed
    obtain rfl := Except.ok.inj (ordered.symm.trans (Numbering.ordered_of_ok numbered))
    rw [Except.ok.inj (run.symm.trans run')]

def selfLoop : Graph :=
  { Graph.new "self loop" .aarch64 with
    blocks := #[⟨[0, 1], [], [1]⟩, ⟨[2, 3, 4], [0, 1], [1, 2]⟩, ⟨[5], [1], []⟩]
    instrs := #[
      { ofOpcode .parameter 0 .int64 with results := [0] },
      { ofOpcode (.constant 1) 0 .int64 with results := [1] },
      { ofOpcode .phi 1 .int64 with inputs := [1, 3], results := [2] },
      { ofOpcode .add 1 .int64 with inputs := [2, 0], results := [3] },
      { ofOpcode (.branch .eq) 1 .void with inputs := [3, 0] },
      { ofOpcode .ret 2 .int64 with inputs := [3] }]
    values := #[⟨0, .int64⟩, ⟨1, .int64⟩, ⟨2, .int64⟩, ⟨3, .int64⟩] }

example : (ofGraph selfLoop [0, 1, 2]).map (·.liveIn) = .ok #[[], [0], [3]] := by
  decide +kernel

theorem selfLoop_liveIn : ∃ order sets, selfLoop.reversePostOrder = .ok order ∧
    ofGraph selfLoop order = .ok sets ∧ ∃ vs, sets.liveIn[1]? = some vs ∧ vs.Pairwise (· < ·) ∧
      ∀ v, v ∈ vs ↔ selfLoop.LiveFrom 1 v := by
  have linked : selfLoop.Linked :=
    ⟨by decide, fun e => (by decide : selfLoop.outEdges.Perm selfLoop.inEdges).mem_iff⟩
  have listed : ∀ B ∈ selfLoop.blocks, ∀ i ∈ B.instrs, i < selfLoop.instrs.size := by decide
  obtain ⟨order, sets, ordered, run, live, -⟩ := liveIn_iff_path linked
    fun b B _ stored => listed B (Array.mem_of_getElem? stored)
  exact ⟨order, sets, ordered, run, live 1 (.single ⟨_, rfl, by decide⟩)⟩

end LiveSets

end RegisterAllocation
