import RegisterAllocation.Proofs.Acceptance
import RegisterAllocation.Proofs.LivePaths
import RegisterAllocation.Proofs.Stopping

/-!
Putting a block on an edge keeps a program what it was. The new block takes the place of either end
in the lists of the other, so every path goes on as before with the new block in between, the
operands of phis stay with their edges, and a run only takes one more step where it passes.
-/

namespace RegisterAllocation

open List Option Build

open Machine DominatorTree

namespace Build

variable {old new c : BlockId} {bs : List BlockId}

theorem replaceFirst_perm (listed : old ∈ bs) :
    (old :: replaceFirst old new bs).Perm (new :: bs) := by
  induction bs with
  | nil => simp at listed
  | cons b rest ih =>
    rw [replaceFirst]
    split
    · rename_i same
      subst same
      exact .swap new b rest
    · rename_i other
      have further := (mem_cons.mp listed).resolve_left (Ne.symm other)
      exact (Perm.swap b old _).trans (((ih further).cons b).trans (.swap new b rest))

theorem map_replaced (away : old ∉ bs) : (bs.map fun c => if c = old then new else c) = bs := by
  refine (map_congr_left fun c among => if_neg ?_).trans (map_id' bs)
  rintro rfl
  exact away among

theorem map_replaceFirst (fresh : new ∉ bs) :
    ((replaceFirst old new bs).map fun c => if c = new then old else c) = bs := by
  induction bs with
  | nil => rfl
  | cons b rest ih =>
    have further : new ∉ rest := fun among => fresh (mem_cons_of_mem b among)
    rw [replaceFirst]
    split
    · rename_i same
      rw [map_cons, if_pos rfl, map_replaced further, same]
    · have other : b ≠ new := fun same => fresh (same ▸ mem_cons_self)
      rw [map_cons, if_neg other, ih further]

theorem replaceFirst_eq_map (none : old ∉ replaceFirst old new bs) :
    replaceFirst old new bs = bs.map fun c => if c = old then new else c := by
  induction bs with
  | nil => rfl
  | cons b rest ih =>
    rw [replaceFirst] at none ⊢
    split at none
    · rename_i same
      rw [if_pos same, map_cons, if_pos same,
        map_replaced fun among => none (mem_cons_of_mem new among)]
    · rename_i other
      rw [if_neg other, map_cons, if_neg other,
        ih fun among => none (mem_cons_of_mem b among)]

theorem idxOf_replaceFirst_new (fresh : new ∉ bs) :
    (replaceFirst old new bs).idxOf new = bs.idxOf old := by
  induction bs with
  | nil => rfl
  | cons b rest ih =>
    have other : b ≠ new := fun same => fresh (same ▸ mem_cons_self)
    rw [replaceFirst]
    split
    · rename_i same
      simp [same]
    · rename_i differs
      rw [idxOf_cons_ne _ other, idxOf_cons_ne _ differs,
        ih fun among => fresh (mem_cons_of_mem b among)]

theorem idxOf_replaceFirst_ne (apart : c ≠ old) (apart' : c ≠ new) :
    (replaceFirst old new bs).idxOf c = bs.idxOf c := by
  induction bs with
  | nil => rfl
  | cons b rest ih =>
    rw [replaceFirst]
    split
    · rename_i same
      rw [same, idxOf_cons_ne _ apart'.symm, idxOf_cons_ne _ apart.symm]
    · by_cases here : b = c
      · simp [here]
      · rw [idxOf_cons_ne _ here, idxOf_cons_ne _ here, ih]

end Build

namespace Machine

variable {g h : Graph} {m n : Machine} {o : Attempt RunError RunResult}

theorem ends_of_same_step (same : n.step h = m.step g) {bound : Nat}
    (ends : n.runWithin h (bound + 1) = some o)
    (rest : ∀ next, n.step h = .ok (.running next) → next.runWithin h bound = some o →
      ∃ k, next.runWithin g k = some o) : ∃ k, m.runWithin g k = some o := by
  rw [runWithin] at ends
  split at ends
  · rename_i next stepped
    obtain ⟨k, done⟩ := rest next stepped ends
    exact ⟨k + 1, by rw [runWithin_running (same ▸ stepped), done]⟩
  · rename_i last stepped
    exact ⟨1, by rw [runWithin, ← same, stepped]; exact ends⟩
  · rename_i e stepped
    exact ⟨1, by rw [runWithin, ← same, stepped]; exact ends⟩

def Detour (h : Graph) (first last : Attempt RunError Next) : Prop :=
  first = last ∨ ∃ mid : Machine, first = .ok (.running mid) ∧ mid.step h = last

theorem ends_iff_of_detours {Q : Machine → Prop}
    (keeps : ∀ m m', Q m → m.step g = .ok (.running m') → Q m')
    (detours : ∀ m, Q m → Detour h (m.step h) (m.step g)) (holds : Q m) :
    (∃ bound, m.runWithin h bound = some o) ↔ ∃ bound, m.runWithin g bound = some o := by
  constructor
  · rintro ⟨bound, ends⟩
    induction bound using Nat.strong_induction_on generalizing m with
    | _ bound ih =>
      cases bound with
      | zero => simp [runWithin] at ends
      | succ bound =>
        rcases detours m holds with same | ⟨mid, first, last⟩
        · refine ends_of_same_step same ends fun next stepped => ?_
          exact ih bound (by omega) (keeps m next holds (same ▸ stepped))
        · rw [runWithin_running first] at ends
          cases bound with
          | zero => simp [runWithin] at ends
          | succ bound =>
            refine ends_of_same_step last ends fun next stepped => ?_
            exact ih bound (by omega) (keeps m next holds (last ▸ stepped))
  · rintro ⟨bound, ends⟩
    induction bound generalizing m with
    | zero => simp [runWithin] at ends
    | succ bound ih =>
      rcases detours m holds with same | ⟨mid, first, last⟩
      · exact ends_of_same_step same.symm ends fun next stepped => ih (keeps m next holds stepped)
      · obtain ⟨k, done⟩ :=
          ends_of_same_step last.symm ends fun next stepped => ih (keeps m next holds stepped)
        exact ⟨k + 1, by rw [runWithin_running first, done]⟩

end Machine

open Build (rerouted replaceFirst)
open LiveSets (selfLoop)

namespace Graph

variable {g h : Graph} {pred succ u v a b c : BlockId} {B C : Block} {path : List BlockId}

theorem flatMap_perm {α β : Type} {xs : List α} {x : α} {f f' : α → List β} {y z : β}
    (once : xs.Nodup) (member : x ∈ xs) (others : ∀ x' ∈ xs, x' ≠ x → f' x' = f x')
    (here : (y :: f' x).Perm (z :: f x)) : (y :: xs.flatMap f').Perm (z :: xs.flatMap f) := by
  induction xs with
  | nil => simp at member
  | cons x' rest ih =>
    obtain ⟨fresh, once⟩ := nodup_cons.mp once
    rw [flatMap_cons, flatMap_cons]
    by_cases first : x' = x
    · subst first
      have same : rest.flatMap f' = rest.flatMap f := flatMap_congr fun w hw =>
        others w (mem_cons_of_mem x' hw) fun h => fresh (h ▸ hw)
      rw [same]
      exact here.append_right _
    · have further := ih once ((mem_cons.mp member).resolve_left (Ne.symm first))
        fun w hw => others w (mem_cons_of_mem x' hw)
      rw [others x' mem_cons_self first]
      exact perm_middle.symm.trans ((further.append_left (f x')).trans perm_middle)

theorem flatMap_blocks_perm {α : Type} {f f' : Block × BlockId → List α} {x y : α}
    (stored : g.blocks[b]? = some B) (others : ∀ C c, c ≠ b → f' (C, c) = f (C, c))
    (here : (x :: f' (B, b)).Perm (y :: f (B, b))) :
    (x :: g.blocks.toList.zipIdx.flatMap f').Perm (y :: g.blocks.toList.zipIdx.flatMap f) := by
  have once : g.blocks.toList.zipIdx.Nodup := by
    refine Nodup.of_map Prod.snd ?_
    rw [zipIdx_map_snd]
    exact nodup_range'
  have member : (B, b) ∈ g.blocks.toList.zipIdx :=
    mk_mem_zipIdx_iff_getElem?.mpr (by simpa using stored)
  refine flatMap_perm once member ?_ here
  rintro ⟨C, c⟩ among other
  refine others C c ?_
  rintro rfl
  have stored' : g.blocks[c]? = some C := by
    simpa using mk_mem_zipIdx_iff_getElem?.mp among
  exact other (by rw [mem_unique stored stored'])

structure EdgeSplit (g : Graph) (pred succ : BlockId) (h : Graph) : Prop where
  consistent : g.Consistent
  entry : g.entry < g.blocks.size
  edge : (pred, succ) ∈ g.outEdges
  same : h = { g with blocks := h.blocks }
  size : h.blocks.size = g.blocks.size + 1
  new : h.blocks[g.blocks.size]? = some ⟨[], [pred], [succ]⟩
  others : ∀ c C, g.blocks[c]? = some C →
    h.blocks[c]? = some (rerouted pred succ g.blocks.size c C)

theorem splitEdge_total (consistent : g.Consistent) (entry : g.entry < g.blocks.size)
    (edge : (pred, succ) ∈ g.outEdges) :
    ∃ h, splitEdge pred succ g = .ok (g.blocks.size, h) ∧ g.EdgeSplit pred succ h := by
  obtain ⟨P, storedP, listed⟩ := mem_outEdges.mp edge
  obtain ⟨S, storedS, listed'⟩ := consistent.pred_of_succ storedP listed
  have insideP := found_lt storedP
  have insideS := found_lt storedS
  obtain ⟨h, run⟩ : ∃ h, splitEdge pred succ g = .ok (g.blocks.size, h) := by
    rw [splitEdge]
    simp only [bind_run, addBlock, ask_run, lift_run, edit_run,
      pure_run, pure_ok, Prod.mk.injEq, modifyBlock_ok, ensure_ok, block_ok]
    have storedP' : (g.blocks.push Block.empty)[pred]? = some P := by
      rw [Array.getElem?_push_lt insideP, ← Array.getElem?_eq_getElem insideP, storedP]
    have storedS' : (g.blocks.push Block.empty)[succ]? = some S := by
      rw [Array.getElem?_push_lt insideS, ← Array.getElem?_eq_getElem insideS, storedS]
    exact ⟨_, _, _, ⟨rfl, rfl⟩, P, _, ⟨storedP', rfl⟩, (), _, ⟨listed, rfl⟩, S, _, ⟨storedS', rfl⟩,
      (), _, ⟨listed', rfl⟩, (), _, ⟨P, storedP', rfl⟩, (), _,
      ⟨_, Array.getElem?_eq_getElem (by simp; omega), rfl⟩, (), _,
      ⟨_, Array.getElem?_eq_getElem (by simp), rfl⟩, rfl, rfl⟩
  obtain ⟨-, same, size, new, others, -⟩ := splitEdge_run run
  exact ⟨h, run, consistent, entry, edge, same, size, new, others⟩

namespace EdgeSplit

def origin (g : Graph) (pred c : BlockId) : BlockId := if c = g.blocks.size then pred else c

theorem origin_new (g : Graph) (pred : BlockId) : origin g pred g.blocks.size = pred := if_pos rfl

theorem origin_old (inside : c < g.blocks.size) : origin g pred c = c := if_neg (Nat.ne_of_lt inside)

def SameDominance (g h : Graph) (pred : BlockId) (tree tree' : DominatorTree) : Prop :=
  ∀ a < g.blocks.size, ∀ c < h.blocks.size,
    tree'.dominates a c = tree.dominates a (origin g pred c)

def wayTo (g : Graph) (pred succ c s : BlockId) : BlockId :=
  if c = pred ∧ s = succ then g.blocks.size else s

section

variable {tree tree' : DominatorTree} {order order' : List BlockId} {i : InstrId} {x : Instr}
  {pos : Nat} (split : g.EdgeSplit pred succ h)
include split

theorem old_linked : g.Linked :=
  ⟨split.entry, fun _ => split.consistent.mirrored.mem_iff⟩

theorem pred_lt : pred < g.blocks.size :=
  Edge.source_lt (mem_outEdges.mp split.edge)

theorem succ_lt : succ < g.blocks.size :=
  split.old_linked.target_lt (mem_outEdges.mp split.edge)

theorem old_block {D : Block} (inside : c < g.blocks.size) (stored : h.blocks[c]? = some D) :
    ∃ C, g.blocks[c]? = some C ∧ D = rerouted pred succ g.blocks.size c C := by
  have found := Array.getElem?_eq_getElem inside
  exact ⟨_, found, mem_unique stored (split.others c _ found)⟩

theorem zipIdx_blocks : h.blocks.toList.zipIdx = (g.blocks.toList.zipIdx.map fun e =>
      (rerouted pred succ g.blocks.size e.2 e.1, e.2)) ++
        [(⟨[], [pred], [succ]⟩, g.blocks.size)] := by
  apply ext_getElem?
  intro c
  rcases Nat.lt_trichotomy c g.blocks.size with inside | rfl | outside
  · have stored := Array.getElem?_eq_getElem inside
    rw [getElem?_append_left (by simpa using inside)]
    simp [split.others c _ stored, inside]
  · simp [split.new]
  · have size := split.size
    rw [getElem?_eq_none (by simp; omega), getElem?_eq_none (by simp; omega)]

theorem outEdges_perm : ((pred, succ) :: h.outEdges).Perm
    ((pred, g.blocks.size) :: (g.blocks.size, succ) :: g.outEdges) := by
  obtain ⟨P, stored, listed⟩ := mem_outEdges.mp split.edge
  rw [outEdges, split.zipIdx_blocks, flatMap_append, flatMap_map]
  refine ((flatMap_blocks_perm stored ?_ ?_).append_right _).trans
    ((perm_append_singleton _ _).cons (pred, g.blocks.size))
  · intro C c away
    simp [rerouted, away]
  · simpa [rerouted] using (Build.replaceFirst_perm listed).map fun s => (pred, s)

theorem inEdges_perm : ((pred, succ) :: h.inEdges).Perm
    ((pred, g.blocks.size) :: (g.blocks.size, succ) :: g.inEdges) := by
  obtain ⟨S, stored, listed⟩ := mem_inEdges.mp (split.consistent.mirrored.mem_iff.mp split.edge)
  rw [inEdges, split.zipIdx_blocks, flatMap_append, flatMap_map]
  refine ((flatMap_blocks_perm (y := (g.blocks.size, succ)) stored ?_ ?_).append_right _).trans
    (perm_append_singleton _ _)
  · intro C c away
    simp [rerouted, away]
  · simpa [rerouted] using (Build.replaceFirst_perm listed).map fun p => (p, succ)

theorem listings_eq : h.listings = g.listings := by
  rw [listings, split.zipIdx_blocks]
  simp [listings, flatMap_map, rerouted]

theorem new_consistent : h.Consistent := by
  refine ⟨?_, ?_⟩
  · have both := split.outEdges_perm.trans
      (((split.consistent.mirrored.cons _).cons _).trans split.inEdges_perm.symm)
    exact both.cons_inv
  · rw [split.listings_eq, owners, split.same]
    exact split.consistent.listed

theorem edge_iff : (u, v) = (pred, succ) ∨ h.Edge u v ↔
      (u, v) = (pred, g.blocks.size) ∨ (u, v) = (g.blocks.size, succ) ∨ g.Edge u v := by
  have members := split.outEdges_perm.mem_iff (a := (u, v))
  simp only [mem_cons, mem_outEdges] at members
  exact members

theorem entry_eq : h.entry = g.entry := by rw [split.same]

theorem edge_from_pred : h.Edge pred g.blocks.size := by
  refine (split.edge_iff.mpr (.inl rfl)).resolve_left fun same => ?_
  exact Nat.ne_of_gt split.succ_lt (Prod.mk.inj same).2

theorem edge_to_succ : h.Edge g.blocks.size succ := by
  refine (split.edge_iff.mpr (.inr (.inl rfl))).resolve_left fun same => ?_
  exact Nat.ne_of_gt split.pred_lt (Prod.mk.inj same).1

theorem exists_route (route : g.Route path c) :
    ∃ path', h.Route path' c ∧ ∀ a ≠ g.blocks.size, a ∈ path' ↔ a ∈ path := by
  induction route with
  | start => exact ⟨[h.entry], split.entry_eq ▸ Route.start, by simp [split.entry_eq]⟩
  | @step path u v _ edge ih =>
    obtain ⟨path', route', same⟩ := ih
    rcases split.edge_iff.mpr (.inr (.inr edge)) with isEdge | edge'
    · obtain ⟨rfl, rfl⟩ := Prod.mk.inj isEdge
      refine ⟨_, (route'.step split.edge_from_pred).step split.edge_to_succ, fun a old => ?_⟩
      simp [old, same a old]
    · exact ⟨_, route'.step edge', fun a old => by simp [same a old]⟩

theorem route_back (route : h.Route path c) :
    ∃ path', g.Route path' (origin g pred c) ∧ ∀ a ≠ g.blocks.size, a ∈ path' ↔ a ∈ path := by
  induction route with
  | start =>
    rw [split.entry_eq, origin_old split.entry]
    exact ⟨_, .start, fun _ _ => .rfl⟩
  | @step path u v _ edge ih =>
    obtain ⟨path', route', same⟩ := ih
    rcases split.edge_iff.mp (.inr edge) with isEdge | isEdge | edge'
    · obtain ⟨rfl, rfl⟩ := Prod.mk.inj isEdge
      rw [origin_old split.pred_lt] at route'
      rw [origin_new]
      exact ⟨path', route', fun a old => by simp [old, same a old]⟩
    · obtain ⟨rfl, rfl⟩ := Prod.mk.inj isEdge
      rw [origin_new] at route'
      rw [origin_old split.succ_lt]
      exact ⟨_, route'.step (mem_outEdges.mp split.edge), fun a old => by simp [same a old]⟩
    · rw [origin_old edge'.source_lt] at route'
      rw [origin_old (split.old_linked.target_lt edge')]
      exact ⟨_, route'.step edge', fun a old => by simp [same a old]⟩

theorem dominates_iff (old : a ≠ g.blocks.size) :
    h.Dominates a c ↔ g.Dominates a (origin g pred c) := by
  constructor
  · intro dominates path route
    obtain ⟨path', route', same⟩ := split.exists_route route
    rw [← same a old]
    by_cases new : c = g.blocks.size
    · subst new
      rw [origin_new] at route'
      exact (mem_cons.mp (dominates _ (route'.step split.edge_from_pred))).resolve_left old
    · rw [origin, if_neg new] at route'
      exact dominates path' route'
  · intro dominates path route
    obtain ⟨path', route', same⟩ := split.route_back route
    exact (same a old).mp (dominates path' route')

theorem new_linked : h.Linked := by
  refine ⟨?_, fun _ => split.new_consistent.mirrored.mem_iff⟩
  rw [split.entry_eq, split.size]
  exact Nat.lt_succ_of_lt split.entry

theorem origin_lt (inside : c < h.blocks.size) : origin g pred c < g.blocks.size := by
  rw [split.size] at inside
  rw [origin]
  split
  · exact split.pred_lt
  · lia

/-- The tree of dominators has the old blocks where they were, and the new one below the block that
it comes from. -/
theorem same_dominance (valid : g.Valid tree order) :
    ∃ tree' order', h.dominators = .ok tree' ∧ h.reversePostOrder = .ok order' ∧
      (∀ c < h.blocks.size, c ∈ order') ∧ SameDominance g h pred tree tree' := by
  have ranked := reversePostOrder_ranked valid.ordered
  have all (c : BlockId) (inside : c < g.blocks.size) : c ∈ order :=
    valid.complete c _ (Array.getElem?_eq_getElem inside)
  have linked' := split.new_linked
  obtain ⟨order', ordered'⟩ := reversePostOrder_total linked'.entry fun _ _ => linked'.target_lt
  have ranked' := reversePostOrder_ranked ordered'
  obtain ⟨tree₀, run, final⟩ := dominators_final split.old_linked valid.ordered
  obtain rfl := Except.ok.inj (run.symm.trans valid.dominators)
  obtain ⟨tree', run', final'⟩ := dominators_final linked' ordered'
  have all' (c : BlockId) (inside : c < h.blocks.size) : c ∈ order' := by
    obtain ⟨path, route⟩ := ranked.mem_iff.mp (all _ (split.origin_lt inside))
    obtain ⟨path', route', -⟩ := split.exists_route route
    rw [ranked'.mem_iff]
    by_cases new : c = g.blocks.size
    · subst new
      rw [origin_new] at route'
      exact ⟨_, route'.step split.edge_from_pred⟩
    · rw [origin, if_neg new] at route'
      exact ⟨_, route'⟩
  refine ⟨tree', order', run', ordered', all', fun a old c inside => ?_⟩
  obtain ⟨r', found', iff'⟩ := final'.dominates_eq (a := a) ranked' (all' c inside)
  obtain ⟨r, found, iff⟩ := final.dominates_eq (a := a) ranked (all _ (split.origin_lt inside))
  rw [found', found, Bool.eq_iff_iff.mpr
    (iff'.trans ((split.dominates_iff (Nat.ne_of_lt old)).trans iff.symm))]

theorem new_not_pred (stored : g.blocks[c]? = some C) : g.blocks.size ∉ C.preds := fun among =>
  lt_irrefl _ (split.old_linked.edge_iff.mpr ⟨C, stored, among⟩).source_lt

theorem preds_eq (stored : g.blocks[c]? = some C) :
    (rerouted pred succ g.blocks.size c C).preds.map (origin g pred) = C.preds := by
  have fresh := split.new_not_pred stored
  by_cases here : c = succ
  · simp only [rerouted, if_pos here]
    exact Build.map_replaceFirst fresh
  · simp only [rerouted, if_neg here]
    exact Build.map_replaced fresh

theorem instr_eq (i : InstrId) : h.instr i = g.instr i := by
  rw [split.same]
  rfl

theorem phisAmong_eq (instrs : List InstrId) : h.phisAmong instrs = g.phisAmong instrs := by
  induction instrs with
  | nil => rfl
  | cons i rest ih => rw [phisAmong, phisAmong, split.instr_eq, ih]

theorem positionInBlock_eq : h.positionInBlock i = g.positionInBlock i := by
  rw [positionInBlock, positionInBlock, split.instr_eq]
  cases found : g.instr i with
  | error f => rfl
  | ok x =>
    obtain ⟨C, stored, -⟩ := split.consistent.listed_of_instr (instr_ok.mp found)
    simp only [ok_bind, block_ok.mpr stored, block_ok.mpr (split.others _ C stored)]
    rfl

theorem isAvailable_eq {k : Nat} {v : ValueId} (found : g.instrs[i]? = some x)
    (agree : SameDominance g h pred tree tree') :
    h.isAvailable tree' x pos k v = g.isAvailable tree x pos k v := by
  obtain ⟨C, stored, -⟩ := split.consistent.listed_of_instr found
  have inside : x.block < g.blocks.size := found_lt stored
  have value : h.value v = g.value v := by
    rw [split.same]
    rfl
  rw [isAvailable, isAvailable, value]
  cases g.value v with
  | error f => rfl
  | ok d =>
    simp only [ok_bind, split.instr_eq, split.positionInBlock_eq, block_ok.mpr stored,
      block_ok.mpr (split.others _ C stored)]
    cases found' : g.instr d.definedBy with
    | error f => rfl
    | ok y =>
      obtain ⟨D, stored', -⟩ := split.consistent.listed_of_instr (instr_ok.mp found')
      have home : y.block < g.blocks.size := found_lt stored'
      have fits := split.size
      simp only [ok_bind]
      rw [agree _ home _ (by lia), origin_old inside]
      congr 1
      -- the operand of a phi comes over the same edge as before
      rw [← split.preds_eq stored, getElem?_map]
      cases listed : (rerouted pred succ g.blocks.size x.block C).preds[k]? with
      | none => rfl
      | some p =>
        have edge := split.new_linked.edge_iff.mpr
          ⟨_, split.others _ C stored, mem_of_getElem? listed⟩
        exact agree _ home p edge.source_lt

theorem validInstr_kept (stored : g.blocks[c]? = some C) (found : g.instrs[i]? = some x)
    (agree : SameDominance g h pred tree tree') (valid : g.ValidInstr tree c C pos x) :
    h.ValidInstr tree' c (rerouted pred succ g.blocks.size c C) pos x := by
  have numPhis : h.numPhis c = g.numPhis c := by
    simp only [numPhis, phis, block_ok.mpr stored, block_ok.mpr (split.others c C stored),
      split.phisAmong_eq]
    rfl
  have values : h.values = g.values := by rw [split.same]
  refine ⟨valid.block, valid.plain, split.entry_eq ▸ valid.early, numPhis ▸ valid.phi, ?_,
    valid.results, ?_, ?_, valid.last⟩
  · simp only [expectedInputs?, length_preds_rerouted]
    exact valid.inputs
  · intro k v operand
    rw [values, split.isAvailable_eq found agree]
    exact valid.operands k v operand
  · rw [split.same]
    exact valid.types

theorem valid_kept (valid : g.Valid tree order) :
    ∃ tree' order', h.Valid tree' order' ∧ SameDominance g h pred tree tree' := by
  obtain ⟨tree', order', dominators, ordered, all, agree⟩ := split.same_dominance valid
  have instrs : h.instrs = g.instrs := by rw [split.same]
  have values : h.values = g.values := by rw [split.same]
  refine ⟨tree', order', ⟨dominators, ordered, ?_, ?_, ?_, ?_, ?_⟩, agree⟩
  · intro E storedE
    rw [split.entry_eq] at storedE
    obtain ⟨C, stored, rfl⟩ := split.old_block split.entry storedE
    refine eq_nil_of_length_eq_zero ?_
    rw [length_preds_rerouted, valid.entry C stored, length_nil]
  · intro c D stored
    exact all c (found_lt stored)
  · rw [values, instrs]
    exact valid.defined
  · rw [instrs]
    exact valid.results
  · intro c D stored
    by_cases new : c = g.blocks.size
    · subst new
      obtain rfl := mem_unique stored split.new
      exact ⟨by simp, fun _ => rfl, by simp⟩
    have bound := found_lt stored
    have fits := split.size
    obtain ⟨C, storedC, rfl⟩ := split.old_block (by lia) stored
    have block := valid.blocks c C storedC
    refine ⟨fun pos i listed => ?_, fun empty => ?_, fun i x last found => ?_⟩
    · obtain ⟨x, found, ok⟩ := block.instrs pos i listed
      exact ⟨x, instrs ▸ found, split.validInstr_kept storedC found agree ok⟩
    · rw [length_succs_rerouted]
      exact block.empty empty
    · rw [length_succs_rerouted]
      exact block.ends i x last (instrs ▸ found)

/-! Runs -/

variable {m : Machine} {s : BlockId}

theorem start_eq (args : List Word) :
    Machine.start h args .values = Machine.start g args .values := by
  obtain ⟨E, stored⟩ : ∃ E, g.blocks[g.entry]? = some E := ⟨_, Array.getElem?_eq_getElem split.entry⟩
  have parameters : h.parameters = g.parameters := by
    have lookup : h.instr = g.instr := funext split.instr_eq
    simp only [parameters, split.entry_eq, block_ok.mpr stored,
      block_ok.mpr (split.others _ E stored), lookup]
    rfl
  have empty : blank h .values 0 = blank g .values 0 := by
    rw [split.same]
    rfl
  simp only [Machine.start, parameters, empty]

theorem phiValues_eq (onValues : m.stage = .values) (c : BlockId)
    (pc k : Nat) (instrs : List InstrId) :
    { m with block := c, pc := pc }.phiValues h k instrs = m.phiValues g k instrs := by
  induction instrs with
  | nil => rfl
  | cons i rest ih =>
    have input (x : Instr) : { m with block := c, pc := pc }.input h x k = m.input g x k := by
      simp only [Machine.input, onValues]
    simp only [phiValues, split.instr_eq, ih, input]

theorem enter_kept (onValues : m.stage = .values)
    (stored : g.blocks[m.block]? = some C) (listed : s ∈ C.succs)
    (other : ¬(m.block = pred ∧ s = succ)) : m.enter h s = m.enter g s := by
  obtain ⟨S, storedS, before⟩ := split.consistent.pred_of_succ stored listed
  have edge : h.Edge m.block s :=
    (split.edge_iff.mpr (.inr (.inr ⟨C, stored, listed⟩))).resolve_left
      fun same => other (Prod.mk.inj same)
  obtain ⟨_, storedS', before'⟩ := split.new_linked.edge_iff.mp edge
  obtain rfl := mem_unique storedS' (split.others s S storedS)
  have place : (rerouted pred succ g.blocks.size s S).preds.idxOf m.block = S.preds.idxOf
    m.block := by
    rw [rerouted]
    dsimp only
    split
    · rename_i isSucc
      exact Build.idxOf_replaceFirst_ne (fun isPred => other ⟨isPred, isSucc⟩)
        (Nat.ne_of_lt (found_lt stored))
    · rfl
  rw [enter_eq onValues storedS' before', enter_eq onValues storedS before, place]
  exact congrArg (· >>= _) (split.phiValues_eq onValues m.block m.pc _ S.instrs)

theorem enter_split (onValues : m.stage = .values) (isPred : m.block = pred) :
    m.enter h g.blocks.size = .ok { m with block := g.blocks.size, pc := 0 } ∧
      { m with block := g.blocks.size, pc := 0 }.enter h succ = m.enter g succ := by
  obtain ⟨P, stored, listed⟩ := mem_outEdges.mp split.edge
  obtain ⟨S, storedS, before⟩ := split.consistent.pred_of_succ stored listed
  obtain ⟨_, storedS', before'⟩ := split.new_linked.edge_iff.mp split.edge_to_succ
  obtain rfl := mem_unique storedS' (split.others succ S storedS)
  constructor
  · rw [enter_eq onValues split.new (by simp [isPred])]
    rfl
  · rw [enter_eq (m := { m with block := g.blocks.size, pc := 0 }) onValues storedS' before',
      enter_eq onValues storedS (isPred ▸ before), split.phiValues_eq onValues]
    simp only [rerouted, if_true, Build.idxOf_replaceFirst_new (split.new_not_pred storedS),
      isPred]

theorem succs_eq (gone : ¬h.Edge pred succ) (stored : g.blocks[c]? = some C) :
    (rerouted pred succ g.blocks.size c C).succs = C.succs.map (wayTo g pred succ c) := by
  by_cases isPred : c = pred
  · subst isPred
    have none : succ ∉ replaceFirst succ g.blocks.size C.succs := fun among =>
      gone ⟨_, split.others c C stored, by simpa [rerouted] using among⟩
    have all : wayTo g c succ c = fun s => if s = succ then g.blocks.size else s := by
      funext s
      simp [wayTo]
    simpa [rerouted, all] using Build.replaceFirst_eq_map none
  · have none : wayTo g pred succ c = id := funext fun s => if_neg fun both => isPred both.1
    simp [rerouted, isPred, none]

theorem enter_detour (onValues : m.stage = .values)
    (stored : g.blocks[m.block]? = some C) (listed : s ∈ C.succs) :
    Detour h (m.enter h (wayTo g pred succ m.block s) >>= fun n => .ok (.running n))
      (m.enter g s >>= fun n => .ok (.running n)) := by
  by_cases taken : m.block = pred ∧ s = succ
  · obtain ⟨isPred, rfl⟩ := taken
    obtain ⟨first, second⟩ := split.enter_split onValues isPred
    refine .inr ⟨_, by rw [wayTo, if_pos ⟨isPred, rfl⟩, first, ok_bind], ?_⟩
    rw [step_end (m := { m with block := g.blocks.size, pc := 0 }) split.new rfl]
    simp only [fallThrough, second]
  · left
    rw [wayTo, if_neg taken, split.enter_kept onValues stored listed taken]

theorem execute_detour (gone : ¬h.Edge pred succ)
    (onValues : m.stage = .values) (stored : g.blocks[m.block]? = some C) (x : Instr) :
    Detour h (m.execute h (rerouted pred succ g.blocks.size m.block C) x) (m.execute g C x) := by
  cases hop : x.opcode with
  | branch t =>
    have tests : m.test h x t = m.test g x t := by
      rw [split.same]
      rfl
    simp only [execute, hop, split.succs_eq gone stored, tests]
    cases m.test g x t with
    | error e => exact .inl rfl
    | ok taken =>
      rcases ways : C.succs with _ | ⟨yes, _ | ⟨no, _ | ⟨_, rest⟩⟩⟩
      · exact .inl rfl
      · exact .inl rfl
      · have listed : (if taken then yes else no) ∈ C.succs := by cases taken <;> simp [ways]
        have either := split.enter_detour onValues stored listed
        cases taken
        · exact either
        · exact either
      · exact .inl (by simp)
  | ret =>
    left
    rw [split.same]
    simp only [execute, hop]
    rfl
  | retVoid => exact .inl (by simp only [execute, hop])
  | _ =>
    have plain : x.opcode.isTerminator = false := by rw [hop]; rfl
    left
    rw [execute_plain plain, execute_plain plain, split.same]
    rfl

theorem step_detour (gone : ¬h.Edge pred succ)
    (onValues : m.stage = .values) (stored : g.blocks[m.block]? = some C) :
    Detour h (m.step h) (m.step g) := by
  have stored' := split.others _ C stored
  cases listed : C.instrs[m.pc]? with
  | none =>
    rw [step_end stored listed, step_end stored' listed, fallThrough, fallThrough,
      split.succs_eq gone stored]
    rcases ways : C.succs with _ | ⟨s, _ | ⟨_, rest⟩⟩
    · exact .inl rfl
    · exact split.enter_detour onValues stored (by simp [ways])
    · exact .inl (by simp)
  | some i =>
    obtain ⟨x, found, -⟩ := split.consistent.instr_of_listed stored (mem_of_getElem? listed)
    have found' : h.instrs[i]? = some x := instr_ok.mp ((split.instr_eq i).trans (instr_ok.mpr found))
    rw [step_instr stored listed found, step_instr stored' listed found']
    split
    · exact .inl rfl
    · exact split.execute_detour (m := m.count x) gone onValues stored x

theorem run_eq (gone : ¬h.Edge pred succ) (given : g.Accepted tree order)
    (given' : h.Accepted tree' order') (args : List Word) :
    h.run args .values = g.run args .values := by
  cases starts : Machine.start g args .values with
  | error e => rw [run, run, split.start_eq, starts, error_bind, error_bind]
  | ok m =>
    have starts' := (split.start_eq args).trans starts
    rw [run_of_start starts, run_of_start starts']
    congr 1
    have ends_iff (o : Attempt RunError RunResult) :
        (∃ bound, m.runWithin h bound = some o) ↔ ∃ bound, m.runWithin g bound = some o := by
      refine ends_iff_of_detours (fun m m' track stepped => (given.step_track track stepped).1)
        (fun m track => ?_) (start_onTrack starts)
      obtain ⟨C, stored, -⟩ := track.within
      exact split.step_detour gone track.onValues stored
    refine ext fun o => ⟨fun ends => ?_, fun ends => ?_⟩
    · obtain ⟨bound, ends⟩ := (ends_iff o).mp ⟨_, ends⟩
      exact given.ends_within_bound (start_onTrack starts) ends
    · obtain ⟨bound, ends⟩ := (ends_iff o).mpr ⟨_, ends⟩
      exact given'.ends_within_bound (start_onTrack starts') ends

end

end EdgeSplit

/-- Putting a block on an edge that joins its two blocks alone keeps a program what it was. The new
block comes between the two, in the place that each had in the lists of the other; the program's
tables fit together, dominance between the old blocks is what it was, the program is accepted, and
its runs on values have the same outcome. -/
theorem splitEdge_keeps_program (consistent : g.Consistent) (valid : g.validate = .ok ())
    (once : g.outEdges.count (pred, succ) = 1) :
    ∃ h, Build.splitEdge pred succ g = .ok (g.blocks.size, h) ∧
      h.blocks[g.blocks.size]? = some ⟨[], [pred], [succ]⟩ ∧
      (∀ c C, g.blocks[c]? = some C →
        h.blocks[c]? = some (rerouted pred succ g.blocks.size c C)) ∧ h.Consistent ∧
      (∀ a < g.blocks.size, ∀ c < g.blocks.size, h.Dominates a c ↔ g.Dominates a c) ∧
      (∃ tree tree', g.dominators = .ok tree ∧ h.dominators = .ok tree' ∧
        ∀ a < g.blocks.size, ∀ c < g.blocks.size, tree'.dominates a c = tree.dominates a c) ∧
      h.validate = .ok () ∧ ∀ args, h.run args .values = g.run args .values := by
  obtain ⟨tree, order, isValid⟩ := validate_ok valid
  have ranked := reversePostOrder_ranked isValid.ordered
  have edge : (pred, succ) ∈ g.outEdges := count_pos_iff.mp (once ▸ Nat.one_pos)
  obtain ⟨h, run, split⟩ := splitEdge_total consistent (ranked.inside _ ranked.entry) edge
  have gone : ¬h.Edge pred succ := by
    have counts := split.outEdges_perm.count_eq (pred, succ)
    have apart : (pred, g.blocks.size) ≠ (pred, succ) :=
      fun same => split.succ_lt.ne (Prod.mk.inj same).2.symm
    have apart' : (g.blocks.size, succ) ≠ (pred, succ) :=
      fun same => split.pred_lt.ne (Prod.mk.inj same).1.symm
    rw [count_cons_self, count_cons_of_ne apart, count_cons_of_ne apart', once] at counts
    exact fun edge => count_eq_zero.mp (Nat.succ.inj counts) (mem_outEdges.mpr edge)
  obtain ⟨tree', order', isValid', agree⟩ := split.valid_kept isValid
  have fits := split.size
  refine ⟨h, run, split.new, split.others, split.new_consistent, ?_,
    ⟨tree, tree', isValid.dominators, isValid'.dominators, ?_⟩,
    validate_iff.mpr ⟨tree', order', isValid'⟩, ?_⟩
  · intro a old c inside
    rw [split.dominates_iff old.ne, EdgeSplit.origin_old inside]
  · intro a old c inside
    rw [agree a old c (by lia), EdgeSplit.origin_old inside]
  · exact split.run_eq gone ⟨consistent, isValid⟩ ⟨split.new_consistent, isValid'⟩

/-- The edge of a loop on one block leads to where it comes from, and over it the phi takes another
operand than at the start. -/
theorem selfLoop_keeps_program :
    (selfLoop.Consistent ∧ selfLoop.validate = .ok () ∧ selfLoop.outEdges.count (1, 1) = 1) ∧
      ∃ h, Build.splitEdge 1 1 selfLoop = .ok (3, h) ∧ h.blocks[3]? = some ⟨[], [1], [1]⟩ ∧
        h.blocks[1]?.map (fun B => (B.preds, B.succs)) = some ([0, 3], [3, 2]) ∧ h.Consistent ∧
        (∀ a < 3, ∀ c < 3, h.Dominates a c ↔ selfLoop.Dominates a c) ∧ h.validate = .ok () ∧
        ∀ args, h.run args .values = selfLoop.run args .values := by
  have consistent : selfLoop.Consistent := ⟨by decide +kernel, by decide +kernel⟩
  have valid : selfLoop.validate = .ok () := by decide +kernel
  have once : selfLoop.outEdges.count (1, 1) = 1 := by decide +kernel
  obtain ⟨h, run, new, others, kept, dominance, -, valid', runs⟩ :=
    splitEdge_keeps_program consistent valid once
  refine ⟨⟨consistent, valid, once⟩, h, run, new, ?_, kept, dominance, valid', runs⟩
  rw [others 1 _ rfl]
  decide +kernel

end Graph

end RegisterAllocation
