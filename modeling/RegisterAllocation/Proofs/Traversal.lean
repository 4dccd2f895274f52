import Mathlib.Algebra.BigOperators.Fin
import Mathlib.Algebra.Order.BigOperators.Group.List
import Mathlib.Logic.Relation
import RegisterAllocation.Proofs.Order

/-!
The reverse post order of a program: the walk ends, its blocks are those that can be reached, and an
edge goes backwards in the order only where it closes a cycle.

The blocks on the stack of the walk lie on one path, the top one last. When a block is finished, each
of its successors has been seen: one that has been finished before comes later in the order, and
from one that is still on the stack the path leads to the block at hand.
-/

namespace RegisterAllocation

open List

namespace Graph

variable {g : Graph} {order seen finished : List BlockId} {stack : List (BlockId × List BlockId)}
  {a b c p s u v : BlockId}

def Edge (g : Graph) (u v : BlockId) : Prop := ∃ U, g.blocks[u]? = some U ∧ v ∈ U.succs

theorem Edge.source_lt (edge : g.Edge u v) : u < g.blocks.size := by
  obtain ⟨U, stored, -⟩ := edge
  exact found_lt stored

def Reaches (g : Graph) : BlockId → BlockId → Prop := Relation.ReflTransGen g.Edge

/-- The blocks of a path from the entry, the last one first. -/
inductive Route (g : Graph) : List BlockId → BlockId → Prop where
  | start : Route g [g.entry] g.entry
  | step {path : List BlockId} {u v : BlockId} : Route g path u → g.Edge u v → Route g (v :: path) v

/-- Every path from the entry to `b` passes through `a`. -/
def Dominates (g : Graph) (a b : BlockId) : Prop := ∀ path, g.Route path b → a ∈ path

theorem Dominates.dominates_pred (dominates : g.Dominates a v) (edge : g.Edge u v) (other : a ≠ v) :
    g.Dominates a u := by
  intro path route
  exact (mem_cons.mp (dominates _ (route.step edge))).resolve_left other

theorem Dominates.eq_entry (dominates : g.Dominates a g.entry) : a = g.entry := by
  simpa using dominates _ .start

theorem reaches_iff_route : g.Reaches g.entry b ↔ ∃ path, g.Route path b := by
  constructor
  · intro reaches
    induction reaches with
    | refl => exact ⟨_, .start⟩
    | tail _ edge ih =>
      obtain ⟨path, route⟩ := ih
      exact ⟨_, route.step edge⟩
  · rintro ⟨path, route⟩
    induction route with
    | start => exact .refl
    | step _ edge ih => exact ih.tail edge

/-! The walk in reverse post order ends: every round either tries an edge or finishes a block. -/

def rounds (g : Graph) (b : BlockId) : Nat := (g.blocks[b]?.map fun B => B.succs.length + 1).getD 0

def unseen (g : Graph) (seen : List BlockId) : Nat :=
  ∑ b ∈ (Finset.range g.blocks.size).filter (· ∉ seen), g.rounds b

theorem rounds_eq {B : Block} (stored : g.blocks[b]? = some B) :
    g.rounds b = B.succs.length + 1 := by
  simp [rounds, stored]

theorem unseen_cons (fresh : b ∉ seen) (inside : b < g.blocks.size) :
    g.rounds b + g.unseen (b :: seen) = g.unseen seen := by
  have member : b ∈ (Finset.range g.blocks.size).filter (· ∉ seen) := by simp [inside, fresh]
  rw [unseen, unseen, ← Finset.add_sum_erase _ _ member]
  congr 2
  ext c
  simp only [Finset.mem_filter, Finset.mem_range, mem_cons, Finset.mem_erase]
  tauto

theorem walkBound_eq : g.walkBound = g.unseen [] := by
  have all : (Finset.range g.blocks.size).filter (· ∉ ([] : List BlockId)) =
      Finset.range g.blocks.size := by simp
  rw [unseen, all, Finset.sum_range, walkBound, ← sum_eq_foldr, ← Fin.sum_univ_fun_getElem]
  refine Finset.sum_congr rfl fun k _ => ?_
  have inside : k.val < g.blocks.size := k.isLt
  rw [rounds_eq (Array.getElem?_eq_getElem inside)]
  simp

theorem walk_total (targets : ∀ u v, g.Edge u v → v < g.blocks.size) {bound : Nat}
    (tried : ∀ top ∈ stack, ∀ s ∈ top.2, s < g.blocks.size)
    (enough : g.unseen seen + (stack.map fun top => top.2.length + 1).sum ≤ bound) :
    ∃ order, g.walk bound seen stack finished = .ok order := by
  induction bound generalizing seen stack finished with
  | zero =>
    cases stack with
    | nil => exact ⟨finished, rfl⟩
    | cons top rest => simp at enough
  | succ bound ih =>
    match stack with
    | [] => exact ⟨finished, rfl⟩
    | (b, []) :: rest =>
      rw [walk]
      refine ih (fun top member => tried top (mem_cons_of_mem _ member)) ?_
      simp only [map_cons, length_nil, sum_cons] at enough
      lia
    | (b, s :: succs) :: rest =>
      simp only [map_cons, length_cons, sum_cons] at enough
      have others : ∀ top ∈ (b, succs) :: rest, ∀ t ∈ top.2, t < g.blocks.size := by
        intro top member t ht
        rcases mem_cons.mp member with rfl | member
        · exact tried _ mem_cons_self t (mem_cons_of_mem s ht)
        · exact tried top (mem_cons_of_mem _ member) t ht
      rw [walk]
      split
      · refine ih others ?_
        simp only [map_cons, sum_cons]
        lia
      · rename_i fresh
        have inside := tried _ mem_cons_self s mem_cons_self
        have stored := Array.getElem?_eq_getElem inside
        rw [block_ok.mpr stored, ok_bind]
        refine ih ?_ ?_
        · intro top member t ht
          rcases mem_cons.mp member with rfl | member
          · exact targets s t ⟨_, stored, ht⟩
          · exact others top member t ht
        · have less := unseen_cons fresh inside
          rw [rounds_eq stored] at less
          simp only [map_cons, sum_cons]
          lia

theorem reversePostOrder_total (entry : g.entry < g.blocks.size)
    (targets : ∀ u v, g.Edge u v → v < g.blocks.size) :
    ∃ order, g.reversePostOrder = .ok order := by
  have stored := Array.getElem?_eq_getElem entry
  rw [reversePostOrder, block_ok.mpr stored, ok_bind]
  refine walk_total targets ?_ ?_
  · intro top member s hs
    obtain rfl := mem_singleton.mp member
    exact targets g.entry s ⟨_, stored, hs⟩
  · have all : g.rounds g.entry + g.unseen [g.entry] = g.unseen [] :=
      unseen_cons not_mem_nil entry
    rw [rounds_eq stored] at all
    rw [walkBound_eq]
    simp only [map_cons, map_nil, sum_cons, sum_nil]
    lia

structure Ranked (g : Graph) (order : List BlockId) : Prop where
  once : order.Nodup
  entry : g.entry ∈ order
  first : order.idxOf g.entry = 0
  inside : ∀ b ∈ order, b < g.blocks.size
  closed : ∀ u v, u ∈ order → g.Edge u v → v ∈ order
  reached : ∀ b ∈ order, b ≠ g.entry → ∃ u ∈ order, g.Edge u b ∧ order.idxOf u < order.idxOf b

theorem idxOf_lt_iff {before after : List BlockId} (once : (before ++ b :: after).Nodup) :
    (before ++ b :: after).idxOf c < (before ++ b :: after).idxOf b ↔ c ∈ before := by
  have fresh : b ∉ before := fun among =>
    (nodup_append.mp once).2.2 b among b mem_cons_self rfl
  have rank : (before ++ b :: after).idxOf b = before.length := by
    simp [idxOf_append, fresh]
  rw [rank]
  constructor
  · intro less
    by_contra away
    simp only [idxOf_append, away, ↓reduceIte] at less
    lia
  · intro among
    simpa [idxOf_append, among] using idxOf_lt_length_of_mem among

theorem reversePostOrder_ranked (h : g.reversePostOrder = .ok order) : g.Ranked order := by
  have ordered := reversePostOrder_ok h
  have first : order.idxOf g.entry = 0 := by
    have head := reversePostOrder_head h
    cases order with
    | nil => simp at head
    | cons e rest =>
      obtain rfl : e = g.entry := by simpa using head
      simp
  refine ⟨ordered.once, ordered.entry, first, ?_, ?_, ?_⟩
  · intro b member
    obtain ⟨B, stored⟩ := ordered.stored b member
    exact found_lt stored
  · rintro u v member ⟨U, stored, succ⟩
    exact ordered.closed u member U stored v succ
  · intro b member other
    obtain ⟨before, after, split⟩ := append_of_mem member
    obtain ⟨u, among, edge⟩ := (reversePostOrder_descends h before b after split).resolve_left other
    have once := ordered.once
    rw [split] at once
    refine ⟨u, by simp [split, among], edge, ?_⟩
    rw [split]
    exact (idxOf_lt_iff once).mpr among

namespace Ranked

theorem length_le (ranked : g.Ranked order) : order.length ≤ g.blocks.size := by
  have within : order ⊆ range g.blocks.size :=
    fun b member => mem_range.mpr (ranked.inside b member)
  simpa using (ranked.once.subperm within).length_le

theorem idxOf_lt (ranked : g.Ranked order) (member : b ∈ order) :
    order.idxOf b < g.blocks.size :=
  (idxOf_lt_length_of_mem member).trans_le ranked.length_le

theorem mem_iff (ranked : g.Ranked order) : b ∈ order ↔ ∃ path, g.Route path b := by
  constructor
  · intro member
    induction rank : order.idxOf b using Nat.strong_induction_on generalizing b with
    | _ n ih =>
      by_cases start : b = g.entry
      · subst start
        exact ⟨_, .start⟩
      · obtain ⟨u, among, edge, less⟩ := ranked.reached b member start
        obtain ⟨path, route⟩ := ih _ (rank ▸ less) among rfl
        exact ⟨_, route.step edge⟩
  · rintro ⟨path, route⟩
    induction route with
    | start => exact ranked.entry
    | step _ edge ih => exact ranked.closed _ _ ih edge

theorem rank_lt (ranked : g.Ranked order) (member : b ∈ order) (dominates : g.Dominates a b)
    (other : a ≠ b) : order.idxOf a < order.idxOf b := by
  induction rank : order.idxOf b using Nat.strong_induction_on generalizing b with
  | _ n ih =>
    have notEntry : b ≠ g.entry := by
      rintro rfl
      exact other dominates.eq_entry
    obtain ⟨u, among, edge, less⟩ := ranked.reached b member notEntry
    by_cases same : a = u
    · exact same ▸ rank ▸ less
    · exact (ih _ (rank ▸ less) among (dominates.dominates_pred edge other) same rfl).trans
        (rank ▸ less)

end Ranked

def Forwards (g : Graph) (blocks : List BlockId) : Prop :=
  ∀ before u after, blocks = before ++ u :: after → ∀ v, g.Edge u v → v ∈ after ∨ g.Reaches v u

theorem Forwards.cons (forwards : g.Forwards finished)
    (succs : ∀ v, g.Edge b v → v ∈ finished ∨ g.Reaches v b) : g.Forwards (b :: finished) := by
  intro before u after split v edge
  cases before with
  | nil =>
    obtain ⟨rfl, rfl⟩ := cons.inj split
    exact succs v edge
  | cons c before =>
    obtain ⟨rfl, rfl⟩ := cons.inj split
    exact forwards before u after rfl v edge

def Path (g : Graph) (stack : List (BlockId × List BlockId)) : Prop :=
  (stack.map Prod.fst).Pairwise fun upper lower => g.Reaches lower upper

theorem Path.after_descend {succs : List BlockId} (path : g.Path ((b, succs) :: stack))
    (edge : g.Edge b s) (rest more : List BlockId) : g.Path ((s, more) :: (b, rest) :: stack) := by
  refine pairwise_cons.mpr ⟨?_, path⟩
  intro c member
  rcases mem_cons.mp member with rfl | member
  · exact .single edge
  · exact ((pairwise_cons.mp path).1 c member).tail edge

theorem Path.reaches_top {succs : List BlockId} (path : g.Path ((b, succs) :: stack))
    (member : c ∈ ((b, succs) :: stack).map Prod.fst) : g.Reaches c b := by
  rcases mem_cons.mp member with rfl | member
  · exact .refl
  · exact (pairwise_cons.mp path).1 c member

theorem walk_forwards {bound : Nat} (w : Walking g seen stack finished) (path : g.Path stack)
    (tried : ∀ top ∈ stack, ∀ s ∈ top.2, g.Edge top.1 s) (forwards : g.Forwards finished)
    (h : g.walk bound seen stack finished = .ok order) : g.Forwards order := by
  fun_induction walk g bound seen stack finished with
  | case1 bound seen finished =>
    obtain rfl : finished = order := by simpa using h
    exact forwards
  | case2 => simp at h
  | case3 bound seen b stack finished ih =>
    refine ih w.after_finish (pairwise_cons.mp path).2
      (fun top member => tried top (mem_cons_of_mem _ member)) (forwards.cons ?_) h
    -- all successors have been seen, so they are on the stack or finished
    rintro v ⟨B, stored, succ⟩
    have known : v ∈ seen := by
      simpa using w.open_succs (b, []) mem_cons_self B stored v succ
    rcases (w.mem_seen v).mp known with onStack | done
    · exact .inr (path.reaches_top onStack)
    · exact .inl done
  | case4 bound seen b s succs stack finished known ih =>
    refine ih (w.after_skip known) path ?_ forwards h
    intro top member t ht
    rcases mem_cons.mp member with rfl | member
    · exact tried _ mem_cons_self t (mem_cons_of_mem s ht)
    · exact tried top (mem_cons_of_mem _ member) t ht
  | case5 bound seen b s succs stack finished fresh ih =>
    obtain ⟨S, found, h⟩ := bind_ok.mp h
    have stored := block_ok.mp found
    have edge := tried _ mem_cons_self s mem_cons_self
    refine ih S (w.after_descend fresh stored) (path.after_descend edge succs S.succs) ?_ forwards h
    intro top member t ht
    rcases mem_cons.mp member with rfl | member
    · exact ⟨S, stored, ht⟩
    rcases mem_cons.mp member with rfl | member
    · exact tried _ mem_cons_self t (mem_cons_of_mem s ht)
    · exact tried top (mem_cons_of_mem _ member) t ht

theorem reversePostOrder_forwards (h : g.reversePostOrder = .ok order) : g.Forwards order := by
  rw [reversePostOrder, bind_ok] at h
  obtain ⟨E, found, h⟩ := h
  refine walk_forwards (walking_start (block_ok.mp found)) (by simp [Path]) ?_ (by simp [Forwards]) h
  intro top member s hs
  obtain rfl := mem_singleton.mp member
  exact ⟨E, block_ok.mp found, hs⟩

/-- Each block that can be reached is listed once, the entry first, and ahead of its successors but
for those from which control gets back to it. So what dominates a block comes before it. -/
theorem reversePostOrder_lists_reachable (entry : g.entry < g.blocks.size)
    (targets : ∀ B ∈ g.blocks.toList, ∀ s ∈ B.succs, s < g.blocks.size) :
    ∃ order, g.reversePostOrder = .ok order ∧ order.Nodup ∧
      (∀ b, b ∈ order ↔ g.Reaches g.entry b) ∧ order.head? = some g.entry ∧
      (∀ u v, g.Reaches g.entry u → g.Edge u v →
        order.idxOf u < order.idxOf v ∨ g.Reaches v u) ∧
      ∀ a b, g.Reaches g.entry b → g.Dominates a b → a ≠ b → order.idxOf a < order.idxOf b := by
  obtain ⟨order, h⟩ := reversePostOrder_total entry fun u v edge => by
    obtain ⟨U, stored, succ⟩ := edge
    exact targets U (Array.mem_toList_iff.mpr (Array.mem_of_getElem? stored)) v succ
  have ranked := reversePostOrder_ranked h
  have reached (b : BlockId) : b ∈ order ↔ g.Reaches g.entry b :=
    ranked.mem_iff.trans reaches_iff_route.symm
  refine ⟨order, h, ranked.once, reached, reversePostOrder_head h, ?_, ?_⟩
  · intro u v reaches edge
    obtain ⟨before, after, split⟩ := append_of_mem ((reached u).mpr reaches)
    refine (reversePostOrder_forwards h before u after split v edge).imp_left fun later => ?_
    obtain ⟨mid, rest, rfl⟩ := append_of_mem later
    have ahead : order = (before ++ u :: mid) ++ v :: rest := by simp [split]
    rw [ahead]
    exact (idxOf_lt_iff (ahead ▸ ranked.once)).mpr (by simp)
  · intro a b reaches dominates other
    exact ranked.rank_lt ((reached b).mpr reaches) dominates other

def nestedLoops : Graph :=
  { new "nested loops" .aarch64 with
    blocks := #[⟨[], [3], [2, 1]⟩, ⟨[], [0, 2], [2, 2]⟩, ⟨[], [0, 1, 1, 3, 4], [3, 1]⟩,
      ⟨[], [2], [2, 0]⟩, ⟨[], [], [2]⟩] }

example : nestedLoops.reversePostOrder = .ok [0, 2, 1, 3] := by decide

/-- The edge from 1 back to 2 closes a cycle. -/
theorem nestedLoops_listed : ∃ order, nestedLoops.reversePostOrder = .ok order ∧ order.Nodup ∧
    (∀ b, b ∈ order ↔ nestedLoops.Reaches 0 b) ∧
    (order.idxOf 1 < order.idxOf 2 ∨ nestedLoops.Reaches 2 1) := by
  obtain ⟨order, h, once, reached, -, forwards, -⟩ :=
    reversePostOrder_lists_reachable (g := nestedLoops) (by decide) (by decide)
  have edge : nestedLoops.Edge 0 1 := ⟨_, rfl, by decide⟩
  exact ⟨order, h, once, reached, forwards 1 2 (.single edge) ⟨_, rfl, by decide⟩⟩

end Graph

end RegisterAllocation
