import RegisterAllocation.Graph.Dominance
import RegisterAllocation.Proofs.Order

/-!
Chains of dominators. Once the iteration has settled, the dominator of a block is above every
predecessor of the block that has one. So whatever is above a block, the block itself aside, is above
all blocks that control can come from: a value defined there has been computed.
-/

namespace RegisterAllocation

namespace DominatorTree

variable {tree : DominatorTree} {entry a b c d : BlockId} {order : List BlockId} {g : Graph}

/-- The block `a` is met on the way from `b` up. Where nothing is known yet, the way leads to the
entry. -/
inductive Above (tree : DominatorTree) (entry a : BlockId) : BlockId → Prop where
  | refl : Above tree entry a a
  | up {b : BlockId} : Above tree entry a (tree[b]?.join.getD entry) → Above tree entry a b

theorem Above.trans (h : Above tree entry a b) (h' : Above tree entry b c) :
    Above tree entry a c := by
  induction h' with
  | refl => exact h
  | up _ ih => exact .up ih

theorem Above.of_parent {p : BlockId} (parent : tree[b]? = some (some p))
    (h : Above tree entry a p) : Above tree entry a b :=
  .up (by simpa [parent] using h)

theorem Above.to_parent {p : BlockId} (h : Above tree entry a b) (other : a ≠ b)
    (parent : tree[b]? = some (some p)) : Above tree entry a p := by
  cases h with
  | refl => exact absurd rfl other
  | up h => simpa [parent] using h

theorem above_root (root : tree[entry]? = some (some entry)) (above : Above tree entry a b)
    (top : b = entry) : a = entry := by
  induction above with
  | refl => exact top
  | up _ ih =>
    apply ih
    simp [top, root]

theorem above_of_dominates {bound : Nat} (h : tree.dominatesWithin a bound b = .ok true) :
    Above tree entry a b := by
  induction bound generalizing b with
  | zero => simp [dominatesWithin] at h
  | succ bound ih =>
    rw [dominatesWithin] at h
    by_cases same : b = a
    · exact same ▸ .refl
    · simp only [same, ↓reduceIte, parent, bind_ok, need_eq_ok] at h
      obtain ⟨found, stored, h⟩ := h
      cases found with
      | none => simp at h
      | some p =>
        by_cases top : p = b
        · simp [top] at h
        · simp only [top, ↓reduceIte] at h
          exact .of_parent stored (ih h)

theorem meetingPoint_above {bound : Nat} (h : tree.meetingPoint order entry bound a b = .ok d) :
    Above tree entry d a ∧ Above tree entry d b := by
  induction bound generalizing a b with
  | zero => simp [meetingPoint] at h
  | succ bound ih =>
    rw [meetingPoint] at h
    by_cases same : a = b
    · simp only [same, ↓reduceIte, pure_ok] at h
      subst same h
      exact ⟨.refl, .refl⟩
    by_cases later : order.idxOf b < order.idxOf a
    · simp only [same, later, ↓reduceIte, parent, bind_ok, need_eq_ok] at h
      obtain ⟨found, stored, h⟩ := h
      obtain ⟨left, right⟩ := ih h
      exact ⟨.up (by simpa [stored] using left), right⟩
    by_cases earlier : order.idxOf a < order.idxOf b
    · simp only [same, later, earlier, ↓reduceIte, parent, bind_ok, need_eq_ok] at h
      obtain ⟨found, stored, h⟩ := h
      obtain ⟨left, right⟩ := ih h
      exact ⟨left, .up (by simpa [stored] using right)⟩
    · simp [same, later, earlier] at h

theorem meetPreds_above {preds : List BlockId} {met result : Option BlockId}
    (h : preds.foldlM (tree.meetPred order entry) met = .ok result) :
    (∀ cur, met = some cur → ∃ d, result = some d ∧ Above tree entry d cur) ∧
    ∀ pred ∈ preds, ∀ p, tree[pred]? = some (some p) →
      ∃ d, result = some d ∧ Above tree entry d pred := by
  induction preds generalizing met with
  | nil =>
    obtain rfl : met = result := by simpa using h
    exact ⟨fun cur same => ⟨cur, same, .refl⟩, by simp⟩
  | cons pred rest ih =>
    obtain ⟨next, first, h⟩ := foldlM_cons_ok.mp h
    obtain ⟨kept, others⟩ := ih h
    simp only [meetPred, parent, bind_ok, need_eq_ok] at first
    obtain ⟨found, stored, first⟩ := first
    -- what has been met after the first predecessor is above it, and above what was met before
    have both : (∀ cur, met = some cur → ∃ e, next = some e ∧ Above tree entry e cur) ∧
        ∀ p, found = some p → ∃ e, next = some e ∧ Above tree entry e pred := by
      cases found with
      | none =>
        obtain rfl : met = next := by simpa using first
        exact ⟨fun cur same => ⟨cur, same, .refl⟩, by simp⟩
      | some p =>
        cases met with
        | none =>
          obtain rfl : some pred = next := by simpa using first
          exact ⟨by simp, fun _ _ => ⟨pred, rfl, .refl⟩⟩
        | some cur =>
          simp only [bind_ok, pure_ok] at first
          obtain ⟨e, meets, rfl⟩ := first
          obtain ⟨left, right⟩ := meetingPoint_above meets
          refine ⟨fun cur' same => ⟨e, rfl, ?_⟩, fun _ _ => ⟨e, rfl, left⟩⟩
          exact Option.some.inj same ▸ right
    constructor
    · intro cur same
      obtain ⟨e, hnext, above⟩ := both.1 cur same
      obtain ⟨d, hresult, above'⟩ := kept e hnext
      exact ⟨d, hresult, above'.trans above⟩
    · intro other hother p parent
      rcases List.mem_cons.mp hother with rfl | hother
      · obtain ⟨e, hnext, above⟩ := both.2 p (Option.mem_unique stored parent)
        obtain ⟨d, hresult, above'⟩ := kept e hnext
        exact ⟨d, hresult, above'.trans above⟩
      · exact others other hother p parent

theorem refine_ok {tree' : DominatorTree} (h : refine g order tree b = .ok tree') :
    ∃ B met, g.blocks[b]? = some B ∧ B.preds.foldlM (tree.meetPred order g.entry) none = .ok met ∧
      ((met = none ∧ tree' = tree) ∨
        ∃ d, met = some d ∧ tree' = tree.setIfInBounds b (some d)) := by
  simp only [refine, bind_ok, Graph.block_ok] at h
  obtain ⟨B, stored, met, meets, h⟩ := h
  refine ⟨B, met, stored, meets, ?_⟩
  cases met with
  | none => exact .inl ⟨rfl, (pure_ok.mp h).symm⟩
  | some d => exact .inr ⟨d, rfl, (pure_ok.mp h).symm⟩

theorem refine_other {tree' : DominatorTree} (h : refine g order tree b = .ok tree')
    (other : c ≠ b) : tree'[c]? = tree[c]? := by
  obtain ⟨B, met, -, -, ⟨-, rfl⟩ | ⟨d, -, rfl⟩⟩ := refine_ok h
  · rfl
  · exact Array.getElem?_setIfInBounds_ne other.symm

theorem refine_first {tree' : DominatorTree} {B : Block} (stored : g.blocks[b]? = some B)
    (first : B.preds = []) (h : refine g order tree b = .ok tree') : tree' = tree := by
  obtain ⟨B', met, stored', meets, kept⟩ := refine_ok h
  obtain rfl : B = B' := by simpa [stored] using stored'
  rw [first] at meets
  obtain rfl : none = met := by simpa using meets
  simpa using kept

theorem refine_fixed {blocks : List BlockId} (once : blocks.Nodup)
    (h : blocks.foldlM (refine g order) tree = .ok tree) (member : b ∈ blocks) :
    refine g order tree b = .ok tree := by
  have later {list : List BlockId} {first last : DominatorTree} {c : BlockId}
      (run : list.foldlM (refine g order) first = .ok last) (away : c ∉ list) :
      last[c]? = first[c]? := by
    refine foldlM_ok (P := fun t : DominatorTree => t[c]? = first[c]?)
      (fun e he s t kept stepped => ?_) run rfl
    have other : c ≠ e := fun same => away (same ▸ he)
    exact (refine_other stepped other).trans kept
  induction blocks with
  | nil => simp at member
  | cons first rest ih =>
    obtain ⟨fresh, once⟩ := List.nodup_cons.mp once
    obtain ⟨next, refined, h⟩ := foldlM_cons_ok.mp h
    obtain rfl : next = tree := by
      refine Array.ext_getElem? fun c => ?_
      by_cases same : c = first
      · rw [same]
        exact (later h fresh).symm
      · exact refine_other refined same
    rcases List.mem_cons.mp member with rfl | member
    · exact refined
    · exact ih once h member

/-- What holds of the dominators once they have settled. -/
structure Settled (g : Graph) (tree : DominatorTree) : Prop where
  root : tree[g.entry]? = some (some g.entry)
  meets : ∀ (b : BlockId) (B : Block), g.blocks[b]? = some B → ∀ pred ∈ B.preds, ∀ p,
    tree[pred]? = some (some p) → ∃ d, tree[b]? = some (some d) ∧ Above tree g.entry d pred

theorem settle_ok {bound : Nat} {last : DominatorTree}
    (keeps : ∀ t t', order.tail.foldlM (refine g order) t = .ok t' → t'.size = t.size ∧
      t'[g.entry]? = t[g.entry]?)
    (h : settle g order bound tree = .ok last) :
    order.tail.foldlM (refine g order) last = .ok last ∧ last.size = tree.size ∧
      last[g.entry]? = tree[g.entry]? := by
  induction bound generalizing tree with
  | zero => simp [settle] at h
  | succ bound ih =>
    rw [settle, bind_ok] at h
    obtain ⟨next, round, h⟩ := h
    by_cases same : next = tree
    · simp only [same, ↓reduceIte, pure_ok] at h
      subst h
      exact ⟨same ▸ round, rfl, rfl⟩
    · simp only [same, ↓reduceIte] at h
      obtain ⟨fixed, size, root⟩ := ih h
      obtain ⟨size', root'⟩ := keeps tree next round
      exact ⟨fixed, size.trans size', root.trans root'⟩

end DominatorTree

namespace Graph

open DominatorTree

variable {g : Graph} {tree : DominatorTree} {order : List BlockId}

/-- The dominators of a program all of whose blocks can be reached, from an entry that control does
not come back to. -/
theorem dominators_settled (h : g.dominators = .ok tree) (ordered : g.reversePostOrder = .ok order)
    (complete : ∀ b B, g.blocks[b]? = some B → b ∈ order)
    (entry : ∀ E, g.blocks[g.entry]? = some E → E.preds = []) : Settled g tree := by
  simp only [dominators, ordered, ok_bind] at h
  have blocks := reversePostOrder_ok ordered
  have head := reversePostOrder_head ordered
  obtain ⟨E, storedE⟩ := blocks.stored _ blocks.entry
  have keeps : ∀ t t', order.tail.foldlM (refine g order) t = .ok t' → t'.size = t.size ∧
      t'[g.entry]? = t[g.entry]? := by
    intro t t' run
    refine foldlM_ok (P := fun s : DominatorTree => s.size = t.size ∧ s[g.entry]? = t[g.entry]?)
      (fun b hb s s' kept stepped => ?_) run ⟨rfl, rfl⟩
    by_cases first : b = g.entry
    · rw [refine_first (first ▸ storedE) (entry E storedE) stepped]
      exact kept
    · refine ⟨?_, (refine_other stepped (Ne.symm first)).trans kept.2⟩
      obtain ⟨_, _, _, _, ⟨_, rfl⟩ | ⟨d, _, rfl⟩⟩ := refine_ok stepped
      · exact kept.1
      · simpa using kept.1
  obtain ⟨fixed, size, root⟩ := settle_ok keeps h
  have inside := found_lt storedE
  refine ⟨by rw [root]; simp [inside], ?_⟩
  intro b B stored pred hpred p parent
  have notEntry : b ≠ g.entry := by
    rintro rfl
    rw [entry B stored] at hpred
    simp at hpred
  have among : b ∈ order.tail := by
    cases order with
    | nil => simp at head
    | cons first rest =>
      obtain rfl : first = g.entry := by simpa using head
      exact (List.mem_cons.mp (complete b B stored)).resolve_left notEntry
  have once : order.tail.Nodup := blocks.once.sublist (List.tail_sublist order)
  obtain ⟨B', met, stored', meets, why⟩ := refine_ok (refine_fixed once fixed among)
  obtain rfl : B = B' := by simpa [stored] using stored'
  obtain ⟨d, hmet, above⟩ := (meetPreds_above meets).2 pred hpred p parent
  refine ⟨d, ?_, above⟩
  rcases why with ⟨none, -⟩ | ⟨d', same, fixed⟩
  · simp [hmet] at none
  · obtain rfl : d = d' := by simpa [hmet] using same
    have bound : b < tree.size := by
      rw [size]
      simpa using (found_lt stored)
    rw [fixed]
    simp [bound]

/-- What is above a block is above every block that control comes from, unless it is the block
itself. -/
theorem above_pred (settled : Settled g tree) {a b s : BlockId} {S : Block} {p : BlockId}
    (stored : g.blocks[s]? = some S) (pred : b ∈ S.preds) (reached : tree[b]? = some (some p))
    (above : Above tree g.entry a s) (other : a ≠ s) : Above tree g.entry a b := by
  obtain ⟨d, parent, meets⟩ := settled.meets s S stored b pred p reached
  exact (above.to_parent other parent).trans meets

end Graph

end RegisterAllocation
