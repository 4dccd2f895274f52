import Mathlib.Tactic.Linarith
import RegisterAllocation.Proofs.Dominance
import RegisterAllocation.Proofs.Traversal
import RegisterAllocation.Proofs.Validity

/-!
The iteration for dominators ends, and it ends with the dominators: a block is on the chain of
another one if and only if every path from the entry passes through it.

Blocks have ranks, their places in reverse post order, and a parent has a lower rank than its child.
So chains end at the entry and meet. A round computes the parents anew, those of lower rank first.
What carries over from round to round is that

- from a block of a chain, edges that go up in rank lead to where the chain starts,
- what is above all predecessors of a block is above its parent, and
- dominators are on the chain.

So chains only get shorter, and the sum of the ranks of all parents bounds the number of rounds.
-/

namespace RegisterAllocation

open Array List Option

open DominatorTree

namespace Graph

variable {g : Graph} {order seen finished : List BlockId} {stack : List (BlockId × List BlockId)}
  {a b c p u v : BlockId}

/-- The entry exists, and edges are listed at both of their ends. -/
structure Linked (g : Graph) : Prop where
  entry : g.entry < g.blocks.size
  mirrored : ∀ e, e ∈ g.outEdges ↔ e ∈ g.inEdges

namespace Linked

theorem edge_iff (linked : g.Linked) : g.Edge u v ↔ ∃ V, g.blocks[v]? = some V ∧ u ∈ V.preds :=
  mem_outEdges.symm.trans ((linked.mirrored (u, v)).trans mem_inEdges)

theorem target_lt (linked : g.Linked) (edge : g.Edge u v) : v < g.blocks.size := by
  obtain ⟨V, stored, -⟩ := linked.edge_iff.mp edge
  exact found_lt stored

end Linked

end Graph

namespace DominatorTree

variable {g : Graph} {order : List BlockId} {tree old : DominatorTree} {a b c d e p q : BlockId}

def Reached (tree : DominatorTree) (b : BlockId) : Prop := ∃ p, tree[b]? = some (some p)

structure Rooted (g : Graph) (order : List BlockId) (tree : DominatorTree) : Prop where
  size : tree.size = g.blocks.size
  root : tree[g.entry]? = some (some g.entry)
  listed : ∀ b, Reached tree b → b ∈ order
  climbs : ∀ b p, tree[b]? = some (some p) → b ≠ g.entry →
    Reached tree p ∧ order.idxOf p < order.idxOf b

namespace Rooted

variable (rooted : Rooted g order tree)

include rooted

theorem rank_le (known : Reached tree b)
    (above : Above tree g.entry a b) : Reached tree a ∧ order.idxOf a ≤ order.idxOf b := by
  induction above with
  | refl => exact ⟨known, le_rfl⟩
  | @up c above ih =>
    obtain ⟨p, parent⟩ := known
    simp only [parent, join_some, getD_some] at ih
    by_cases top : c = g.entry
    · subst top
      obtain rfl : g.entry = p := by simpa [rooted.root] using parent
      exact ih ⟨_, parent⟩
    · obtain ⟨knownParent, less⟩ := rooted.climbs c p parent top
      obtain ⟨knownTop, below⟩ := ih knownParent
      exact ⟨knownTop, by lia⟩

theorem parent_rank (parent : tree[b]? = some (some p)) :
    Reached tree p ∧ order.idxOf p ≤ order.idxOf b :=
  rooted.rank_le ⟨p, parent⟩ (.of_parent parent .refl)

theorem above_congr (known : Reached tree b)
    (same : ∀ c : BlockId, order.idxOf c ≤ order.idxOf b → old[c]? = tree[c]?) :
    Above tree g.entry a b ↔ Above old g.entry a b := by
  constructor
  · intro above
    induction above with
    | refl => exact .refl
    | @up c above ih =>
      obtain ⟨p, parent⟩ := known
      obtain ⟨knownParent, less⟩ := rooted.parent_rank parent
      simp only [parent, join_some, getD_some] at ih
      exact .of_parent ((same c le_rfl).trans parent)
        (ih knownParent fun x below => same x (below.trans less))
  · intro above
    induction above with
    | refl => exact .refl
    | @up c above ih =>
      obtain ⟨p, parent⟩ := known
      obtain ⟨knownParent, less⟩ := rooted.parent_rank parent
      simp only [same c le_rfl, parent, join_some, getD_some] at ih
      exact .of_parent parent (ih knownParent fun x below => same x (below.trans less))

theorem meetingPoint_total (ranked : g.Ranked order) {bound : Nat}
    (knownA : Reached tree a) (knownB : Reached tree b)
    (enough : order.idxOf a + order.idxOf b < bound) :
    ∃ d, tree.meetingPoint order g.entry bound a b = .ok d ∧ Reached tree d ∧
      ∀ e, Above tree g.entry e a → Above tree g.entry e b → Above tree g.entry e d := by
  -- the entry has the lowest rank, so the block of higher rank has a parent to climb to
  have climb {x y : BlockId} (known : Reached tree x) (less : order.idxOf y < order.idxOf x) :
      ∃ p, tree[x]? = some (some p) ∧ Reached tree p ∧ order.idxOf p < order.idxOf x := by
    obtain ⟨p, parent⟩ := known
    have other : x ≠ g.entry := by
      rintro rfl
      simp [ranked.first] at less
    exact ⟨p, parent, rooted.climbs x p parent other⟩
  have later {x y e : BlockId} (known : Reached tree y) (less : order.idxOf y < order.idxOf x)
      (above : Above tree g.entry e y) : e ≠ x := by
    rintro rfl
    exact absurd (rooted.rank_le known above).2 (by lia)
  induction bound generalizing a b with
  | zero => lia
  | succ bound ih =>
    rw [meetingPoint]
    by_cases same : a = b
    · subst same
      exact ⟨a, by simp, knownA, fun _ above _ => above⟩
    · rw [if_neg same]
      rcases Nat.lt_trichotomy (order.idxOf a) (order.idxOf b) with less | equal | more
      · obtain ⟨p, parent, knownP, lower⟩ := climb knownB less
        obtain ⟨d, meets, knownD, nearest⟩ := ih knownA knownP (by lia)
        refine ⟨d, ?_, knownD, fun e aboveA aboveB => nearest e aboveA ?_⟩
        · rw [if_neg (by lia), if_pos less, DominatorTree.parent, parent]
          exact meets
        · exact aboveB.to_parent (later knownA less aboveA) parent
      · exact absurd ((idxOf_inj (rooted.listed a knownA)).mp equal) same
      · obtain ⟨p, parent, knownP, lower⟩ := climb knownA more
        obtain ⟨d, meets, knownD, nearest⟩ := ih knownP knownB (by lia)
        refine ⟨d, ?_, knownD, fun e aboveA aboveB => nearest e ?_ aboveB⟩
        · rw [if_pos more, DominatorTree.parent, parent]
          exact meets
        · exact aboveA.to_parent (later knownB more aboveB) parent

theorem meetPred_total (ranked : g.Ranked order)
    {met : Option BlockId} (start : ∀ c, met = some c → Reached tree c) (inside : p < tree.size) :
    ∃ result, tree.meetPred order g.entry met p = .ok result ∧
      (∀ d, result = some d → Reached tree d) ∧
      ∀ e, (∀ c, met = some c → Above tree g.entry e c) →
        (Reached tree p → Above tree g.entry e p) → ∀ d, result = some d →
        Above tree g.entry e d := by
  have stored := Array.getElem?_eq_getElem inside
  rw [meetPred, parent, stored, need_some, ok_bind]
  cases parent : tree[p] with
  | none => exact ⟨met, rfl, start, fun e above _ => above⟩
  | some q =>
    have known : Reached tree p := ⟨q, by rw [stored, parent]⟩
    cases met with
    | none =>
      exact ⟨some p, rfl, by rintro d ⟨⟩; exact known, by rintro e - above d ⟨⟩; exact above known⟩
    | some c =>
      have knownC := start c rfl
      have enough : order.idxOf p + order.idxOf c < tree.size * tree.size + 1 := by
        have first := ranked.idxOf_lt (rooted.listed p known)
        have second := ranked.idxOf_lt (rooted.listed c knownC)
        rw [rooted.size]
        nlinarith
      obtain ⟨d, meets, knownD, nearest⟩ := rooted.meetingPoint_total ranked known knownC enough
      refine ⟨some d, by simp [meets], by rintro d ⟨⟩; exact knownD, ?_⟩
      rintro e aboveC aboveP d ⟨⟩
      exact nearest e (aboveP known) (aboveC c rfl)

theorem meetPreds_total (ranked : g.Ranked order)
    {preds : List BlockId} {met : Option BlockId} (start : ∀ c, met = some c → Reached tree c)
    (inside : ∀ p ∈ preds, p < tree.size) :
    ∃ result, preds.foldlM (tree.meetPred order g.entry) met = .ok result ∧
      (∀ d, result = some d → Reached tree d) ∧
      ∀ e, (∀ c, met = some c → Above tree g.entry e c) →
        (∀ p ∈ preds, Reached tree p → Above tree g.entry e p) →
        ∀ d, result = some d → Above tree g.entry e d := by
  induction preds generalizing met with
  | nil => exact ⟨met, rfl, start, fun e above _ => above⟩
  | cons p rest ih =>
    obtain ⟨next, first, known, nearest⟩ :=
      rooted.meetPred_total ranked start (inside p mem_cons_self)
    obtain ⟨result, others, knownAll, nearestAll⟩ :=
      ih known fun q member => inside q (mem_cons_of_mem p member)
    refine ⟨result, by rw [foldlM_cons, first, ok_bind, others], knownAll, ?_⟩
    intro e aboveMet abovePreds
    refine nearestAll e ?_ fun q member => abovePreds q (mem_cons_of_mem p member)
    exact nearest e aboveMet (abovePreds p mem_cons_self)

end Rooted

structure Meets (g : Graph) (tree : DominatorTree) (b d : BlockId) : Prop where
  above : ∀ p, g.Edge p b → Reached tree p → Above tree g.entry d p
  nearest : ∀ e, (∀ p, g.Edge p b → Reached tree p → Above tree g.entry e p) →
    Above tree g.entry e d

theorem Rooted.refine_total (rooted : Rooted g order tree) (ranked : g.Ranked order)
    (linked : g.Linked) (inside : b < g.blocks.size)
    (pred : ∃ u, g.Edge u b ∧ Reached tree u) :
    ∃ d, refine g order tree b = .ok (tree.setIfInBounds b (some d)) ∧ Reached tree d ∧
      Meets g tree b d := by
  have stored := Array.getElem?_eq_getElem inside
  have edge (p : BlockId) : g.Edge p b ↔ p ∈ g.blocks[b].preds := by
    rw [linked.edge_iff, stored]
    simp
  have known : ∀ p ∈ g.blocks[b].preds, p < tree.size :=
    fun p member => rooted.size ▸ ((edge p).mpr member).source_lt
  obtain ⟨result, meets, known, nearest⟩ := rooted.meetPreds_total ranked
    (fun c (none : none = some c) => by simp at none) known
  obtain ⟨-, above⟩ := meetPreds_above meets
  obtain ⟨u, isPred, q, knownU⟩ := pred
  obtain ⟨d, rfl, -⟩ := above u ((edge u).mp isPred) q knownU
  refine ⟨d, ?_, known d rfl, ?_, ?_⟩
  · rw [refine, Graph.block_ok.mpr stored, ok_bind, meets]
    rfl
  · rintro p isEdge ⟨q, knownP⟩
    obtain ⟨d', same, above⟩ := above p ((edge p).mp isEdge) q knownP
    exact some.inj same ▸ above
  · intro e all
    exact nearest e (by simp) (fun p member => all p ((edge p).mpr member)) d rfl

/-- A tree in the middle of a round, when the round has come to `b`: new parents for blocks of lower
rank, the old ones for the others. -/
structure Midway (order : List BlockId) (old tree : DominatorTree) (b : BlockId)
    (mixed : DominatorTree) : Prop where
  before : ∀ c : BlockId, order.idxOf c < order.idxOf b → mixed[c]? = tree[c]?
  after : ∀ c : BlockId, order.idxOf b ≤ order.idxOf c → mixed[c]? = old[c]?

structure Advanced (g : Graph) (order : List BlockId) (old : DominatorTree) (done : List BlockId)
    (tree : DominatorTree) : Prop where
  rooted : Rooted g order tree
  known : ∀ b ∈ done, Reached tree b
  kept : ∀ b : BlockId, b ∉ done → tree[b]? = old[b]?
  met : ∀ b ∈ done, b ≠ g.entry → ∃ d mixed, tree[b]? = some (some d) ∧
    Midway order old tree b mixed ∧ Rooted g order mixed ∧ Meets g mixed b d

theorem Advanced.after_refine (ranked : g.Ranked order) (linked : g.Linked) {done rest : List BlockId}
    (split : order = done ++ b :: rest) (start : g.entry ∈ done)
    (advanced : Advanced g order old done tree) :
    ∃ next, refine g order tree b = .ok next ∧ Advanced g order old (done ++ [b]) next := by
  have member : b ∈ order := by simp [split]
  have inside := ranked.inside b member
  have lower (c : BlockId) : order.idxOf c < order.idxOf b ↔ c ∈ done := by
    rw [split]
    exact Graph.idxOf_lt_iff (split ▸ ranked.once)
  have fresh : b ∉ done := fun among => absurd ((lower b).mpr among) (lt_irrefl _)
  have other : b ≠ g.entry := fun same => fresh (same ▸ start)
  obtain ⟨u, -, edge, less⟩ := ranked.reached b member other
  obtain ⟨d, refined, ⟨q, knownD⟩, meets⟩ := advanced.rooted.refine_total ranked linked inside
    ⟨u, edge, advanced.known u ((lower u).mp less)⟩
  have rooted := advanced.rooted
  have here : (tree.setIfInBounds b (some d))[b]? = some (some d) := by
    simp [rooted.size, inside]
  have away (c : BlockId) (off : c ≠ b) : (tree.setIfInBounds b (some d))[c]? = tree[c]? :=
    getElem?_setIfInBounds_ne off.symm
  have rank : order.idxOf d < order.idxOf b := by
    have knownU := advanced.known u ((lower u).mp less)
    exact (rooted.rank_le knownU (meets.above u edge knownU)).2.trans_lt less
  have stillKnown (c : BlockId) (known : Reached tree c) :
      Reached (tree.setIfInBounds b (some d)) c := by
    by_cases same : c = b
    · exact ⟨d, same ▸ here⟩
    · exact known.imp fun p parent => (away c same).trans parent
  have knownHere : Reached (tree.setIfInBounds b (some d)) b := ⟨d, here⟩
  refine ⟨_, refined, ⟨?_, ?_, ?_, ?_⟩, ?_, ?_, ?_⟩
  · simpa using rooted.size
  · rw [away _ other.symm]
    exact rooted.root
  · rintro c ⟨p, parent⟩
    by_cases same : c = b
    · exact same ▸ member
    · exact rooted.listed c ⟨p, (away c same).symm.trans parent⟩
  · intro c p parent notEntry
    by_cases same : c = b
    · subst same
      obtain rfl : d = p := by simpa [here] using parent
      exact ⟨stillKnown d ⟨q, knownD⟩, rank⟩
    · obtain ⟨known, climbs⟩ := rooted.climbs c p ((away c same).symm.trans parent) notEntry
      exact ⟨stillKnown p known, climbs⟩
  · intro c among
    rcases mem_append.mp among with among | among
    · exact stillKnown c (advanced.known c among)
    · exact mem_singleton.mp among ▸ knownHere
  · intro c outside
    simp only [List.mem_append, List.mem_singleton, not_or] at outside
    rw [away c outside.2]
    exact advanced.kept c outside.1
  · intro c among notEntry
    rcases mem_append.mp among with before | among
    · obtain ⟨p, mixed, parent, midway, rootedMixed, meets⟩ := advanced.met c before notEntry
      have off {x : BlockId} (below : order.idxOf x ≤ order.idxOf c) : x ≠ b := by
        rintro rfl
        exact absurd ((lower c).mpr before) (by lia)
      refine ⟨p, mixed, (away c (off le_rfl)).trans parent, ⟨?_, midway.after⟩, rootedMixed, meets⟩
      intro x below
      rw [away x (off below.le)]
      exact midway.before x below
    · obtain rfl := mem_singleton.mp among
      refine ⟨d, tree, here, ⟨?_, ?_⟩, rooted, meets⟩
      · intro x below
        rw [away x]
        rintro rfl
        exact lt_irrefl _ below
      · intro x above
        exact advanced.kept x fun among => absurd ((lower x).mpr among) (by lia)

theorem round_total (ranked : g.Ranked order) (linked : g.Linked) (rooted : Rooted g order old) :
    ∃ tree, order.tail.foldlM (refine g order) old = .ok tree ∧
      Advanced g order old order tree := by
  have go : ∀ rest done tree, order = done ++ rest → g.entry ∈ done →
      Advanced g order old done tree →
      ∃ last, rest.foldlM (refine g order) tree = .ok last ∧ Advanced g order old order last := by
    intro rest
    induction rest with
    | nil =>
      intro done tree split _ advanced
      rw [append_nil] at split
      exact ⟨tree, rfl, split ▸ advanced⟩
    | cons b rest ih =>
      intro done tree split start advanced
      obtain ⟨next, refined, advanced⟩ := advanced.after_refine ranked linked split start
      obtain ⟨last, run, advanced⟩ :=
        ih (done ++ [b]) next (by simp [split]) (mem_append_left _ start) advanced
      exact ⟨last, by rw [foldlM_cons, refined, ok_bind, run], advanced⟩
  have first := ranked.first
  have member := ranked.entry
  cases isOrder : order with
  | nil => simp [isOrder] at member
  | cons e rest =>
    obtain rfl : e = g.entry := by
      by_contra other
      simp [isOrder, other] at first
    have start : Advanced g order old [g.entry] old := by
      refine ⟨rooted, ?_, fun _ _ => rfl, ?_⟩
      · intro b among
        exact ⟨_, mem_singleton.mp among ▸ rooted.root⟩
      · intro b among other
        exact absurd (mem_singleton.mp among) other
    have whole := go rest [g.entry] old (by simp [isOrder]) mem_cons_self start
    rw [isOrder] at whole
    exact whole

def Forward (g : Graph) (order : List BlockId) : BlockId → BlockId → Prop :=
  Relation.ReflTransGen fun u v => g.Edge u v ∧ order.idxOf u < order.idxOf v

/-- What is known of predecessors is known all the way back along a path on which the rank goes up,
as long as the path does not meet the block it is about. -/
theorem Forward.holds_back {P : BlockId → Prop} (forward : Forward g order a b)
    (pred : ∀ u v, g.Edge u v → order.idxOf u < order.idxOf v → e ≠ v → P v → P u)
    (low : order.idxOf e ≤ order.idxOf a) (holds : P b) : P a := by
  have both : order.idxOf a ≤ order.idxOf b ∧ (P b → P a) := by
    clear holds
    induction forward with
    | refl => exact ⟨le_rfl, id⟩
    | @tail u v _ edge ih =>
      refine ⟨ih.1.trans edge.2.le, fun holds => ih.2 (pred u v edge.1 edge.2 ?_ holds)⟩
      rintro rfl
      exact absurd edge.2 (by lia)
  exact both.2 holds

structure Partway (g : Graph) (order : List BlockId) (tree : DominatorTree) : Prop where
  rooted : Rooted g order tree
  forward : ∀ a b, Reached tree b → Above tree g.entry a b → Forward g order a b
  meets : ∀ b d e, tree[b]? = some (some d) → b ≠ g.entry → order.idxOf e < order.idxOf b →
    (∀ p, g.Edge p b → Reached tree p → Above tree g.entry e p) → Above tree g.entry e d
  complete : ∀ a b, Reached tree b → g.Dominates a b → Above tree g.entry a b

namespace Advanced

section

variable (advanced : Advanced g order old order tree)

include advanced

theorem above_mixed {mixed : DominatorTree}
    (midway : Midway order old tree b mixed) (known : Reached tree c)
    (below : order.idxOf c < order.idxOf b) :
    Above tree g.entry a c ↔ Above mixed g.entry a c :=
  advanced.rooted.above_congr known fun x le => midway.before x (le.trans_lt below)

theorem above_forward (parent : tree[b]? = some (some d)) (other : b ≠ g.entry) (edge : g.Edge p b)
    (less : order.idxOf p < order.idxOf b) (listed : p ∈ order) : Above tree g.entry d p := by
  have known := advanced.known p listed
  obtain ⟨d', mixed, parent', midway, -, meets⟩ :=
    advanced.met b (advanced.rooted.listed b ⟨d, parent⟩) other
  obtain rfl : d = d' := by simpa [parent] using parent'
  refine (advanced.above_mixed midway known less).mpr (meets.above p edge ?_)
  exact known.imp fun q isParent => (midway.before p less).trans isParent

theorem above_pred
    (above : Above tree g.entry e b) (differs : e ≠ b) (other : b ≠ g.entry) (edge : g.Edge p b)
    (less : order.idxOf p < order.idxOf b) (listed : b ∈ order) (pred : p ∈ order) :
    Above tree g.entry e p := by
  obtain ⟨d, parent⟩ := advanced.known b listed
  exact (above.to_parent differs parent).trans
    (advanced.above_forward parent other edge less pred)

theorem forward_of_above (ranked : g.Ranked order)
    (listed : b ∈ order) (above : Above tree g.entry a b) : Forward g order a b := by
  induction rank : order.idxOf b using Nat.strong_induction_on generalizing b with
  | _ n ih =>
    by_cases same : a = b
    · exact same ▸ .refl
    · have other : b ≠ g.entry := by
        rintro rfl
        exact same (above_root advanced.rooted.root above rfl)
      obtain ⟨u, among, edge, less⟩ := ranked.reached b listed other
      have before := advanced.above_pred above same other edge less listed among
      exact (ih _ (rank ▸ less) among before rfl).tail ⟨edge, less⟩

end

theorem above_of_finer (rooted : Rooted g order old)
    (finer : ∀ c, Reached old c → ∃ d, tree[c]? = some (some d) ∧ Above old g.entry d c)
    (known : Reached old b) (above : Above tree g.entry a b) : Above old g.entry a b := by
  induction above with
  | refl => exact .refl
  | @up c above ih =>
    obtain ⟨d, parent, higher⟩ := finer c known
    simp only [parent, join_some, getD_some] at ih
    exact (ih (rooted.rank_le known higher).1).trans higher

theorem above_old (advanced : Advanced g order old order tree) (partway : Partway g order old)
    (known : Reached old b) : ∃ d, tree[b]? = some (some d) ∧ Above old g.entry d b := by
  induction rank : order.idxOf b using Nat.strong_induction_on generalizing b with
  | _ n ih =>
    by_cases top : b = g.entry
    · exact ⟨g.entry, top ▸ advanced.rooted.root, top ▸ .refl⟩
    · have listed := partway.rooted.listed b known
      obtain ⟨d, mixed, parent, midway, -, meets⟩ := advanced.met b listed top
      have finerMixed : ∀ c, Reached old c → ∃ d, mixed[c]? = some (some d) ∧
          Above old g.entry d c := by
        intro c knownC
        rcases Nat.lt_or_ge (order.idxOf c) (order.idxOf b) with less | more
        · obtain ⟨d, isParent, above⟩ := ih _ (rank ▸ less) knownC rfl
          exact ⟨d, (midway.before c less).trans isParent, above⟩
        · obtain ⟨q, isParent⟩ := knownC
          exact ⟨q, (midway.after c more).trans isParent, .of_parent isParent .refl⟩
      obtain ⟨q, isParent⟩ := known
      refine ⟨d, parent, .of_parent isParent (partway.meets b q d isParent top ?_ ?_)⟩
      · exact (advanced.rooted.climbs b d parent top).2
      · intro p edge knownP
        obtain ⟨r, knownMixed, -⟩ := finerMixed p knownP
        exact above_of_finer partway.rooted finerMixed knownP (meets.above p edge ⟨r, knownMixed⟩)

/-- The chain of a block that the round has still to come to crosses the rank that it has come to
somewhere, in the old tree and halfway through alike. -/
theorem exists_crossing (partway : Partway g order old) (ranked : g.Ranked order)
    {mixed : DominatorTree}
    (midway : Midway order old tree b mixed) (other : 0 < order.idxOf b) (known : Reached old p)
    (later : order.idxOf b ≤ order.idxOf p) :
    ∃ y, order.idxOf y < order.idxOf b ∧ Reached old y ∧ Above old g.entry y p ∧
      Above mixed g.entry y p ∧
      ∀ e, Above old g.entry e p → order.idxOf e < order.idxOf b → Above old g.entry e y := by
  induction rank : order.idxOf p using Nat.strong_induction_on generalizing p with
  | _ n ih =>
    obtain ⟨q, parent⟩ := known
    have notEntry : p ≠ g.entry := by
      rintro rfl
      rw [ranked.first] at later
      lia
    obtain ⟨knownQ, less⟩ := partway.rooted.climbs p q parent notEntry
    have parentMixed := (midway.after p later).trans parent
    have differs {e : BlockId} (low : order.idxOf e < order.idxOf b) : e ≠ p := by
      rintro rfl
      lia
    rcases Nat.lt_or_ge (order.idxOf q) (order.idxOf b) with below | above
    · exact ⟨q, below, knownQ, .of_parent parent .refl, .of_parent parentMixed .refl,
        fun e isAbove low => isAbove.to_parent (differs low) parent⟩
    · obtain ⟨y, below, knownY, aboveOld, aboveMixed, all⟩ :=
        ih _ (rank ▸ less) knownQ above rfl
      exact ⟨y, below, knownY, .of_parent parent aboveOld, .of_parent parentMixed aboveMixed,
        fun e isAbove low => all e (isAbove.to_parent (differs low) parent) low⟩

/-- What was above a block that the round has still to come to is above it halfway through, if it
is so where the chain of the block crosses the rank that the round has come to. -/
theorem above_of_old (advanced : Advanced g order old order tree) (partway : Partway g order old)
    (ranked : g.Ranked order) {mixed : DominatorTree} (midway : Midway order old tree b mixed)
    (low : order.idxOf e < order.idxOf b) (known : Reached old p)
    (later : order.idxOf b ≤ order.idxOf p) (above : Above old g.entry e p) {P : BlockId → Prop}
    (pred : ∀ u v, g.Edge u v → order.idxOf u < order.idxOf v → e ≠ v → P v → P u) (holds : P p)
    (done : ∀ y, y ∈ order → order.idxOf y < order.idxOf b → P y → Above tree g.entry e y) :
    Above mixed g.entry e p := by
  obtain ⟨y, below, knownY, aboveOld, aboveMixed, all⟩ :=
    exists_crossing partway ranked midway (by lia) known later
  have lower := (partway.rooted.rank_le knownY (all e above low)).2
  have there := (partway.forward y p known aboveOld).holds_back pred lower holds
  have listed := partway.rooted.listed y knownY
  have reached := done y listed below there
  exact ((advanced.above_mixed midway (advanced.known y listed) below).mp reached).trans aboveMixed

end Advanced

theorem Partway.after_round (partway : Partway g order old) (ranked : g.Ranked order)
    (advanced : Advanced g order old order tree) : Partway g order tree := by
  have listed := advanced.rooted.listed
  -- a predecessor counts halfway through if it has come in turn or had a parent before
  have counted {b p : BlockId} {mixed : DominatorTree} (midway : Midway order old tree b mixed)
      (later : order.idxOf b ≤ order.idxOf p) (known : Reached mixed p) : Reached old p :=
    known.imp fun q parent => (midway.after p later).symm.trans parent
  refine ⟨advanced.rooted, fun a b known above => advanced.forward_of_above ranked
    (listed b known) above, ?_, ?_⟩
  · intro b d e parent other low all
    obtain ⟨d', mixed, parent', midway, rooted, meets⟩ := advanced.met b (listed b ⟨d, parent⟩) other
    obtain rfl : d = d' := by simpa [parent] using parent'
    have climbs := advanced.rooted.climbs b d parent other
    refine (advanced.above_mixed midway climbs.1 climbs.2).mpr (meets.nearest e ?_)
    intro p edge known
    have knownP := advanced.known p (rooted.listed p known)
    rcases Nat.lt_or_ge (order.idxOf p) (order.idxOf b) with before | later
    · exact (advanced.above_mixed midway knownP before).mp (all p edge knownP)
    · have knownOld := counted midway later known
      refine advanced.above_of_old partway ranked midway low knownOld later
        (Advanced.above_of_finer partway.rooted (fun c => advanced.above_old partway) knownOld
          (all p edge knownP)) (P := fun c => c ∈ order ∧ Above tree g.entry e c) ?_
        ⟨listed p knownP, all p edge knownP⟩ fun y _ _ there => there.2
      rintro u v isEdge less differs ⟨among, above⟩
      have before : u ∈ order := idxOf_lt_length_iff.mp
        (less.trans (idxOf_lt_length_of_mem among))
      have notEntry : v ≠ g.entry := by
        rintro rfl
        rw [ranked.first] at less
        lia
      exact ⟨before, advanced.above_pred above differs notEntry isEdge less among before⟩
  · intro a b known dominates
    induction rank : order.idxOf b using Nat.strong_induction_on generalizing b with
    | _ n ih =>
      by_cases same : a = b
      · exact same ▸ .refl
      have other : b ≠ g.entry := by
        rintro rfl
        exact same dominates.eq_entry
      obtain ⟨u, among, isEdge, less⟩ := ranked.reached b (listed b known) other
      have knownU := advanced.known u among
      have aboveU := ih _ (rank ▸ less) u knownU (dominates.dominates_pred isEdge same) rfl
      have low : order.idxOf a < order.idxOf b :=
        (advanced.rooted.rank_le knownU aboveU).2.trans_lt less
      obtain ⟨d, mixed, parent, midway, rooted, meets⟩ := advanced.met b (listed b known) other
      have climbs := advanced.rooted.climbs b d parent other
      refine .of_parent parent
        ((advanced.above_mixed midway climbs.1 climbs.2).mpr (meets.nearest a ?_))
      intro p edge knownMixed
      have knownP := advanced.known p (rooted.listed p knownMixed)
      have dominatesP := dominates.dominates_pred edge same
      rcases Nat.lt_or_ge (order.idxOf p) (order.idxOf b) with before | later
      · exact (advanced.above_mixed midway knownP before).mp
          (ih _ (rank ▸ before) p knownP dominatesP rfl)
      · have knownOld := counted midway later knownMixed
        exact advanced.above_of_old partway ranked midway low knownOld later
          (partway.complete a p knownOld dominatesP) (P := g.Dominates a)
          (fun u v isEdge _ differs holds => holds.dominates_pred isEdge differs) dominatesP
          fun y among below holds => ih _ (rank ▸ below) y (advanced.known y among) holds rfl

def height (g : Graph) (order : List BlockId) (tree : DominatorTree) : Nat :=
  (order.map fun b => order.idxOf (tree[b]?.join.getD g.entry)).sum

theorem height_le : height g order tree ≤ order.length * order.length := by
  have each := sum_le_card_nsmul (order.map fun b => order.idxOf (tree[b]?.join.getD g.entry))
    order.length (by
      intro n member
      obtain ⟨b, -, rfl⟩ := mem_map.mp member
      exact idxOf_le_length)
  simpa [height] using each

theorem Advanced.height_lt (advanced : Advanced g order old order tree)
    (partway : Partway g order old) (full : ∀ b ∈ order, Reached old b) (changed : tree ≠ old) :
    height g order tree < height g order old := by
  have both : ∀ b ∈ order, ∃ d q, tree[b]? = some (some d) ∧ old[b]? = some (some q) ∧
      order.idxOf d ≤ order.idxOf q ∧ (order.idxOf d = order.idxOf q → d = q) := by
    intro b member
    obtain ⟨q, isParent⟩ := full b member
    obtain ⟨d, parent, above⟩ := advanced.above_old partway ⟨q, isParent⟩
    have knownQ := (partway.rooted.parent_rank isParent).1
    have listed : d ∈ order := advanced.rooted.listed d (advanced.rooted.parent_rank parent).1
    refine ⟨d, q, parent, isParent, ?_, fun same => (idxOf_inj listed).mp same⟩
    by_cases top : b = g.entry
    · subst top
      obtain rfl : g.entry = d := by simpa [advanced.rooted.root] using parent
      obtain rfl : g.entry = q := by simpa [partway.rooted.root] using isParent
      exact le_rfl
    · have differs : d ≠ b := by
        rintro rfl
        exact lt_irrefl _ (advanced.rooted.climbs d d parent top).2
      exact (partway.rooted.rank_le knownQ (above.to_parent differs isParent)).2
  refine sum_lt_sum _ _ (fun b member => ?_) ?_
  · obtain ⟨d, q, parent, isParent, le, -⟩ := both b member
    simpa [parent, isParent] using le
  · by_contra same
    refine changed (Array.ext_getElem? fun b => ?_)
    by_cases member : b ∈ order
    · obtain ⟨d, q, parent, isParent, le, inj⟩ := both b member
      have notLess : ¬ order.idxOf d < order.idxOf q := fun less =>
        same ⟨b, member, by simpa [parent, isParent] using less⟩
      rw [parent, isParent, inj (by lia)]
    · exact advanced.kept b member

structure Final (g : Graph) (order : List BlockId) (tree : DominatorTree) : Prop where
  partway : Partway g order tree
  fixed : Advanced g order tree order tree

theorem Partway.settle_total (partway : Partway g order tree) (ranked : g.Ranked order)
    (linked : g.Linked) (full : ∀ b ∈ order, Reached tree b) {bound : Nat}
    (enough : height g order tree < bound) :
    ∃ last, settle g order bound tree = .ok last ∧ Final g order last := by
  induction bound generalizing tree with
  | zero => lia
  | succ bound ih =>
    obtain ⟨next, round, advanced⟩ := round_total ranked linked partway.rooted
    rw [settle, round, ok_bind]
    by_cases same : next = tree
    · subst same
      exact ⟨next, by simp, partway, advanced⟩
    · rw [if_neg same]
      have less := advanced.height_lt partway full same
      exact ih (partway.after_round ranked advanced) advanced.known (by lia)

namespace Final

theorem above_iff (final : Final g order tree) (ranked : g.Ranked order) (member : b ∈ order) :
    Above tree g.entry a b ↔ g.Dominates a b := by
  refine ⟨fun above path route => ?_, final.partway.complete a b (final.fixed.known b member)⟩
  induction route with
  | start => simp [above_root final.fixed.rooted.root above rfl]
  | @step path u v route edge ih =>
    by_cases same : a = v
    · exact same ▸ mem_cons_self
    have before : u ∈ order := ranked.mem_iff.mpr ⟨path, route⟩
    have other : v ≠ g.entry := by
      rintro rfl
      exact same (above_root final.fixed.rooted.root above rfl)
    obtain ⟨d, mixed, parent, midway, -, meets⟩ := final.fixed.met v member other
    -- all trees of a round that changes nothing are one
    obtain rfl : mixed = tree := Array.ext_getElem? fun c =>
      (Nat.lt_or_ge (order.idxOf c) (order.idxOf v)).elim (midway.before c) (midway.after c)
    have higher := meets.above u edge (final.fixed.known u before)
    exact mem_cons_of_mem v (ih before ((above.to_parent same parent).trans higher))

theorem dominatesWithin_eq (final : Final g order tree) (member : b ∈ order) {bound : Nat}
    (enough : order.idxOf b < bound) :
    ∃ r, tree.dominatesWithin a bound b = .ok r ∧ (r = true ↔ Above tree g.entry a b) := by
  have rooted := final.fixed.rooted
  induction bound generalizing b with
  | zero => lia
  | succ bound ih =>
    rw [dominatesWithin]
    by_cases same : b = a
    · exact ⟨true, by simp [same], by simp [same, Above.refl]⟩
    obtain ⟨p, parent⟩ := final.fixed.known b member
    rw [if_neg same, DominatorTree.parent, parent, need_some, ok_bind]
    by_cases top : b = g.entry
    · subst top
      obtain rfl : g.entry = p := by simpa [rooted.root] using parent
      refine ⟨false, by simp, ?_⟩
      simp only [Bool.false_eq_true, false_iff]
      exact fun above => same (above_root rooted.root above rfl).symm
    · obtain ⟨known, less⟩ := rooted.climbs b p parent top
      have differs : p ≠ b := by
        rintro rfl
        exact lt_irrefl _ less
      obtain ⟨r, found, iff⟩ := ih (rooted.listed p known) (by lia)
      refine ⟨r, by simp [differs, found], iff.trans ?_⟩
      exact ⟨.of_parent parent, fun above => above.to_parent (Ne.symm same) parent⟩

theorem dominates_eq (final : Final g order tree) (ranked : g.Ranked order) (member : b ∈ order) :
    ∃ r, tree.dominates a b = .ok r ∧ (r = true ↔ g.Dominates a b) := by
  have enough : order.idxOf b < tree.size + 1 := by
    rw [final.fixed.rooted.size]
    exact (ranked.idxOf_lt member).trans (Nat.lt_succ_self _)
  obtain ⟨r, found, iff⟩ := final.dominatesWithin_eq (a := a) member enough
  exact ⟨r, found, iff.trans (final.above_iff ranked member)⟩

end Final

end DominatorTree

namespace Graph

variable {g : Graph} {order : List BlockId}

theorem partway_start (linked : g.Linked) (ranked : g.Ranked order) :
    Partway g order ((Array.replicate g.blocks.size none).setIfInBounds g.entry (some g.entry)) := by
  have inside := linked.entry
  have lookup (b : BlockId) (p : BlockId)
      (parent : ((Array.replicate g.blocks.size (none : Option BlockId)).setIfInBounds g.entry
        (some g.entry))[b]? = some (some p)) : b = g.entry ∧ p = g.entry := by
    rw [getElem?_setIfInBounds] at parent
    split at parent
    · rename_i same
      simp only [size_replicate, inside, ↓reduceIte, some.injEq] at parent
      exact ⟨same.symm, parent.symm⟩
    · simp [Array.getElem?_replicate] at parent
  have root : ((Array.replicate g.blocks.size (none : Option BlockId)).setIfInBounds g.entry
      (some g.entry))[g.entry]? = some (some g.entry) := by simp [inside]
  refine ⟨⟨by simp, root, ?_, ?_⟩, ?_, ?_, ?_⟩
  · rintro b ⟨p, parent⟩
    exact (lookup b p parent).1 ▸ ranked.entry
  · intro b p parent other
    exact absurd (lookup b p parent).1 other
  · rintro a b ⟨p, parent⟩ above
    obtain ⟨rfl, -⟩ := lookup b p parent
    exact above_root root above rfl ▸ .refl
  · intro b d e parent other
    exact absurd (lookup b d parent).1 other
  · rintro a b ⟨p, parent⟩ dominates
    obtain ⟨rfl, -⟩ := lookup b p parent
    exact dominates.eq_entry ▸ .refl

theorem dominators_final (linked : g.Linked) (ordered : g.reversePostOrder = .ok order) :
    ∃ tree, g.dominators = .ok tree ∧ Final g order tree := by
  have ranked := reversePostOrder_ranked ordered
  have partway := partway_start linked ranked
  obtain ⟨next, round, advanced⟩ := round_total ranked linked partway.rooted
  rw [dominators, ordered, ok_bind]
  dsimp only
  rw [settle, round, ok_bind]
  by_cases same : next = (Array.replicate g.blocks.size none).setIfInBounds g.entry (some g.entry)
  · rw [if_pos same]
    exact ⟨_, rfl, partway, same ▸ advanced⟩
  · rw [if_neg same]
    refine (partway.after_round ranked advanced).settle_total ranked linked advanced.known ?_
    have bound : height g order next ≤ order.length * order.length := height_le
    have length := Nat.mul_le_mul ranked.length_le ranked.length_le
    lia

/-- A block other than `b` that dominates `b`, and that all others of this kind dominate. -/
structure ClosestDominator (g : Graph) (d b : BlockId) : Prop where
  dominates : g.Dominates d b
  other : d ≠ b
  closest : ∀ a, g.Dominates a b → a ≠ b → g.Dominates a d

theorem ClosestDominator.eq_of_closest {b d d' : BlockId} (ranked : g.Ranked order)
    (member : b ∈ order)
    (first : g.ClosestDominator d b) (second : g.ClosestDominator d' b) : d' = d := by
  by_contra differ
  have listed {a : BlockId} (dominates : g.Dominates a b) (other : a ≠ b) : a ∈ order :=
    idxOf_lt_length_iff.mp
      ((ranked.rank_lt member dominates other).trans (idxOf_lt_length_of_mem member))
  have less := ranked.rank_lt (listed first.dominates first.other)
    (first.closest d' second.dominates second.other) differ
  have more := ranked.rank_lt (listed second.dominates second.other)
    (second.closest d first.dominates first.other) (Ne.symm differ)
  lia

theorem closest_parent {tree : DominatorTree} {b : BlockId} (ranked : g.Ranked order)
    (final : Final g order tree) (member : b ∈ order) (other : b ≠ g.entry) :
    ∃ d, tree[b]? = some (some d) ∧ g.ClosestDominator d b := by
  obtain ⟨d, parent⟩ := final.fixed.known b member
  have rooted := final.fixed.rooted
  obtain ⟨known, less⟩ := rooted.climbs b d parent other
  have differs : d ≠ b := by
    rintro rfl
    exact lt_irrefl _ less
  refine ⟨d, parent, (final.above_iff ranked member).mp (.of_parent parent .refl), differs, ?_⟩
  intro a dominates distinct
  have above := (final.above_iff ranked member).mpr dominates
  exact (final.above_iff ranked (rooted.listed d known)).mp (above.to_parent distinct parent)

/-- The iteration ends with a tree in which the chain of a block has its dominators, its parent is
the closest of them, and blocks that cannot be reached have no parent. -/
theorem dominators_are_right (linked : g.Linked) :
    ∃ tree, g.dominators = .ok tree ∧
      (∀ a b, g.Reaches g.entry b →
        ∃ r, tree.dominates a b = .ok r ∧ (r = true ↔ g.Dominates a b)) ∧
      (∀ b, g.Reaches g.entry b → b ≠ g.entry → ∃ d, tree[b]? = some (some d) ∧
        g.ClosestDominator d b ∧ ∀ d', g.ClosestDominator d' b → d' = d) ∧
      tree[g.entry]? = some (some g.entry) ∧
      ∀ b < g.blocks.size, ¬g.Reaches g.entry b → tree[b]? = some none := by
  obtain ⟨order, ordered⟩ := reversePostOrder_total linked.entry fun _ _ => linked.target_lt
  have ranked := reversePostOrder_ranked ordered
  have reached (b : BlockId) : b ∈ order ↔ g.Reaches g.entry b :=
    ranked.mem_iff.trans reaches_iff_route.symm
  obtain ⟨tree, run, final⟩ := dominators_final linked ordered
  have rooted := final.fixed.rooted
  refine ⟨tree, run, ?_, ?_, rooted.root, ?_⟩
  · intro a b reaches
    exact final.dominates_eq ranked ((reached b).mpr reaches)
  · intro b reaches other
    have member := (reached b).mpr reaches
    obtain ⟨d, parent, closest⟩ := closest_parent ranked final member other
    exact ⟨d, parent, closest, fun d' second => closest.eq_of_closest ranked member second⟩
  · intro b inside unreached
    have within : b < tree.size := rooted.size ▸ inside
    have stored := Array.getElem?_eq_getElem within
    cases parent : tree[b] with
    | none => rw [stored, parent]
    | some d =>
      exact absurd ((reached b).mp (rooted.listed b ⟨d, stored.trans (by rw [parent])⟩)) unreached

/-- Both loops can be entered from outside, so neither head dominates the other. -/
theorem nestedLoops_dominators : nestedLoops.Linked ∧ ∃ tree, nestedLoops.dominators = .ok tree ∧
    (∃ r, tree.dominates 2 3 = .ok r ∧ (r = true ↔ nestedLoops.Dominates 2 3)) ∧
    (∃ d, tree[1]? = some (some d) ∧ nestedLoops.ClosestDominator d 1) ∧ tree[4]? = some none := by
  have linked : nestedLoops.Linked :=
    ⟨by decide, fun e => (by decide : nestedLoops.outEdges.Perm nestedLoops.inEdges).mem_iff⟩
  obtain ⟨tree, run, dominates, closest, -, none⟩ := dominators_are_right linked
  have toOne : nestedLoops.Reaches 0 1 := .single ⟨_, rfl, by decide⟩
  have toThree : nestedLoops.Reaches 0 3 :=
    .tail (.single ⟨_, rfl, by decide⟩ : nestedLoops.Reaches 0 2) ⟨_, rfl, by decide⟩
  have away : ¬nestedLoops.Reaches 0 4 := by
    intro reaches
    rcases Relation.ReflTransGen.cases_tail reaches with same | ⟨u, -, edge⟩
    · simp at same
    · obtain ⟨V, stored, pred⟩ := linked.edge_iff.mp edge
      obtain rfl : (⟨[], [], [2]⟩ : Block) = V := by simpa [nestedLoops] using stored
      simp at pred
  obtain ⟨d, parent, isClosest, -⟩ := closest 1 toOne (by decide)
  exact ⟨linked, tree, run, dominates 2 3 toThree, ⟨d, parent, isClosest⟩, none 4 (by decide) away⟩

end Graph

end RegisterAllocation
