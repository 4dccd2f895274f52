import RegisterAllocation.Proofs.GapMoves

/-!
The moves on edges. With no more than one edge between two blocks, all moves of an edge are in one
group: at the end of its first block, at the start of its second one, or in a block between them.
-/

namespace RegisterAllocation

open List Option Build Instr

namespace Connection

open Graph

variable {g h k a : Graph} {tree : DominatorTree} {b c s : BlockId} {B C S : Block} {i : InstrId}
  {l : Liveness} {gap : InstrId → List Move} {front : InstrId → Option InstrId}
  {es done : List EdgeMoves} {e : EdgeMoves} {j j' : Joints} {n : Nat} {group : MoveGroup}

theorem edges_sound (numbered : l.numbering.Numbered g) (found : edges g l = .ok es)
    (member : e ∈ es) :
    e.succ ∈ l.numbering.order ∧ ∃ S n, g.blocks[e.succ]? = some S ∧ S.preds[n]? = some e.pred ∧
      edgeGroup g l e.succ e.pred n = .ok e.moves := by
  obtain ⟨rows, each, rfl⟩ := edges_ok.mp found
  obtain ⟨row, isRow, member⟩ := mem_flatten.mp member
  obtain ⟨s, inOrder, run⟩ := mapM_mem_result each isRow
  obtain ⟨S, stored⟩ := (reversePostOrder_ok numbered.ordered).stored s inOrder
  rw [(edgesInto_ok stored run).1, mem_filterMap] at member
  obtain ⟨entry, among, made⟩ := member
  obtain ⟨pred, rfl, group, -⟩ := edgeAt_eq.mp made
  refine ⟨inOrder, S, entry.2, stored, ?_, pred ▸ group⟩
  rw [pred]
  exact mk_mem_zipIdx_iff_getElem?.mp among

theorem edges_complete (found : edges g l = .ok es) (inOrder : s ∈ l.numbering.order)
    (stored : g.blocks[s]? = some S) (pred : S.preds[n]? = some b) :
    ∃ group, edgeGroup g l s b n = .ok group ∧ (group.moves ≠ [] → ⟨b, s, group⟩ ∈ es) := by
  obtain ⟨rows, each, rfl⟩ := edges_ok.mp found
  obtain ⟨row, isRow, run⟩ := mapM_mem each inOrder
  obtain ⟨isEdges, total⟩ := edgesInto_ok stored run
  have among : (b, n) ∈ S.preds.zipIdx := mk_mem_zipIdx_iff_getElem?.mpr pred
  obtain ⟨group, made⟩ := total (b, n) among
  refine ⟨group, made, fun some => mem_flatten.mpr ⟨row, isRow, ?_⟩⟩
  rw [isEdges]
  refine mem_filterMap.mpr ⟨(b, n), among, edgeAt_eq.mpr ⟨rfl, rfl, made, ?_⟩⟩
  simpa [MoveGroup.isEmpty] using some

theorem edges_apart (numbered : l.numbering.Numbered g) (consistent : g.Consistent)
    (single : g.SingleEdges) (found : edges g l = .ok es) :
    es.Pairwise fun e e' => ¬(e.pred = e'.pred ∧ e.succ = e'.succ) := by
  have ordered := reversePostOrder_ok numbered.ordered
  rw [pairwise_iff_forall_sublist]
  rintro e e' both ⟨samePred, sameSucc⟩
  obtain ⟨inOrder, S, -, stored, -⟩ := edges_sound numbered found
    (both.subset (by simp : e' ∈ [e, e']))
  obtain ⟨rows, each, rfl⟩ := edges_ok.mp found
  obtain ⟨row, -, run⟩ := mapM_mem each inOrder
  have into := edges_into ordered.once ordered.stored (mapM_ok.mp each) run
  rw [if_pos inOrder, (edgesInto_ok stored run).1] at into
  have apart : S.preds.zipIdx.Pairwise fun p q => p.1 ≠ q.1 := by
    have preds := single.preds_nodup consistent stored
    rw [← zipIdx_map_fst 0 S.preds] at preds
    exact pairwise_map.mp preds
  have rowApart : (S.preds.zipIdx.filterMap (edgeAt g l e'.succ)).Pairwise fun e e' =>
      e.pred ≠ e'.pred := by
    refine apart.filterMap _ fun p q differ e isE e' isE' => ?_
    rwa [(edgeAt_eq.mp isE).1, (edgeAt_eq.mp isE').1]
  refine pairwise_iff_forall_sublist.mp rowApart ?_ samePred
  rw [← into]
  simpa [sameSucc] using both.filter (·.succ = e'.succ)

def along (es : List EdgeMoves) (b c : BlockId) : Option MoveGroup :=
  (es.find? fun e => e.pred = b ∧ e.succ = c).map (·.moves)

theorem along_other (other : ¬(e.pred = b ∧ e.succ = c)) :
    along (done ++ [e]) b c = along done b c := by
  simp [along, find?_append, other]

theorem along_new (none : along done e.pred e.succ = none) :
    along (done ++ [e]) e.pred e.succ = some e.moves := by
  rw [along, map_eq_none_iff] at none
  rw [along, find?_append, none]
  simp

def Conveyed (g a : Graph) (moves : Option MoveGroup) (is : List InstrId) : Prop :=
  (moves = none ∧ is = []) ∨ ∃ group i, moves = some group ∧ is = [i] ∧ NewGroup g a i group

def Crossed (g : Graph) (done : List EdgeMoves) (j : Joints) (a : Graph) (b c : BlockId) : Prop :=
  if needsBlock g b c then j.tails.lookup b = none ∧ j.heads.lookup c = none
  else Conveyed g a (along done b c) ((j.tails.lookup b).toList ++ (j.heads.lookup c).toList)

theorem Crossed.congr (crossed : Crossed g done j h b c)
    (kept : ∀ i group, NewGroup g h i group → NewGroup g a i group)
    (other : needsBlock g b c = true ∨ ¬(e.pred = b ∧ e.succ = c))
    (tail : j'.tails.lookup b = j.tails.lookup b) (head : j'.heads.lookup c = j.heads.lookup c) :
    Crossed g (done ++ [e]) j' a b c := by
  rw [Crossed, tail, head]
  rw [Crossed] at crossed
  split
  · rwa [if_pos ‹_›] at crossed
  · rw [if_neg ‹_›] at crossed
    rw [along_other (other.resolve_left ‹_›)]
    refine crossed.imp_right ?_
    rintro ⟨group, i, isSome, isList, carries⟩
    exact ⟨group, i, isSome, isList, kept i group carries⟩

/-- A program with moves in front of its instructions, in the groups `front`, and on the edges
`done`. -/
structure Spliced (g h : Graph) (front : InstrId → Option InstrId) (done : List EdgeMoves)
    (j : Joints) (a : Graph) : Prop where
  woven : g.Woven a
  kept : ∀ i group, NewGroup g h i group → NewGroup g a i group
  block : ∀ (b : BlockId) (B : Block), g.blocks[b]? = some B → ∃ C, a.blocks[b]? = some C ∧
    C.instrs = (j.heads.lookup b).toList ++ script front B.instrs ++ (j.tails.lookup b).toList
  head : ∀ (c : BlockId) (S : Block), (j.heads.lookup c).isSome → g.blocks[c]? = some S →
    S.preds.length = 1 ∧ a.numPhis c = .ok 0
  edge : ∀ (b : BlockId) (B : Block) (c : BlockId), g.blocks[b]? = some B → c ∈ B.succs →
    Crossed g done j a b c

theorem lookup_other {list : List (BlockId × InstrId)} (other : c ≠ b) :
    ((b, i) :: list).lookup c = list.lookup c := by
  rw [lookup_cons, beq_eq_false_iff_ne.mpr other]

namespace Spliced

theorem joints_unused (spliced : Spliced g h front done j k) (stored : g.blocks[e.pred]? = some B)
    (isSucc : e.succ ∈ B.succs) (fresh : along done e.pred e.succ = none)
    (straight : needsBlock g e.pred e.succ = false) :
    j.tails.lookup e.pred = none ∧ j.heads.lookup e.succ = none := by
  have crossed := spliced.edge _ B _ stored isSucc
  rw [Crossed, straight, if_neg (by simp), fresh] at crossed
  rcases crossed with ⟨-, isNil⟩ | ⟨_, _, isSome, -⟩
  · simpa using isNil
  · cases isSome

theorem of_laid (laid : Laid g h gap front) : Spliced g h front [] ⟨[], [], 0⟩ h := by
  refine ⟨laid.woven, fun _ _ => id, fun b B stored => ?_, by simp, fun b B c _ _ => ?_⟩
  · obtain ⟨C, storedC, isC⟩ := laid.block b B stored
    exact ⟨C, storedC, by simpa using isC⟩
  · rw [Crossed]
    split
    · exact ⟨rfl, rfl⟩
    · exact .inl ⟨rfl, rfl⟩

variable (consistent : g.Consistent) (first : g.PhisFirst) {list : List (BlockId × InstrId)}

include consistent first

theorem after_insertAt (spliced : Spliced g h front done j k) {pos : Nat} (w : g.Woven a)
    (straight : needsBlock g e.pred e.succ = false) (fresh : along done e.pred e.succ = none)
    (run : Build.insertAt b pos (ofGroup b e.moves) k = .ok (i, a))
    (block : ∀ c D is, k.blocks[c]? = some D →
      D.instrs = (j.heads.lookup c).toList ++ is ++ (j.tails.lookup c).toList →
      (if c = b then D.instrs.take pos ++ i :: D.instrs.drop pos else D.instrs) =
        (j'.heads.lookup c).toList ++ is ++ (j'.tails.lookup c).toList)
    (head : ∀ c S, g.blocks[c]? = some S → (j'.heads.lookup c).isSome →
      (j.heads.lookup c).isSome ∨ S.preds.length = 1 ∧ k.numPhis c = .ok 0)
    (edge : ∀ b B c, g.blocks[b]? = some B → c ∈ B.succs →
      (e.pred = b ∧ e.succ = c ∧ (j'.tails.lookup b).toList ++ (j'.heads.lookup c).toList = [i]) ∨
      ¬(e.pred = b ∧ e.succ = c) ∧ j'.tails.lookup b = j.tails.lookup b ∧
        j'.heads.lookup c = j.heads.lookup c) :
    Spliced g h front (done ++ [e]) j' a := by
  obtain ⟨rfl, C, stored, -, rfl⟩ := insertAt_run.mp run
  refine ⟨w, fun i group old => (spliced.kept i group old).after_insert, ?_, ?_, ?_⟩
  · intro c B storedB
    obtain ⟨D, storedD, isD⟩ := spliced.block c B storedB
    have block := block c D _ storedD isD
    rw [block_inserted stored]
    split
    · rename_i here
      subst here
      obtain rfl := mem_unique stored storedD
      exact ⟨_, rfl, by rwa [if_pos rfl] at block⟩
    · exact ⟨D, storedD, by rwa [if_neg ‹_›] at block⟩
  · intro c S isSome storedS
    rw [numPhis_eq consistent first w storedS, ← numPhis_eq consistent first spliced.woven storedS]
    exact (head c S storedS isSome).elim (fun old => spliced.head c S old storedS) id
  · intro b' B c storedB isSucc
    rcases edge b' B c storedB isSucc with ⟨rfl, rfl, isNew⟩ | ⟨other, tail, head⟩
    · rw [Crossed, straight, if_neg (by simp), along_new fresh, isNew]
      exact .inr ⟨_, _, rfl, rfl, .of_new spliced.woven.size_le⟩
    · exact (spliced.edge b' B c storedB isSucc).congr (fun _ _ => NewGroup.after_insert)
        (.inr other) tail head

theorem after_joinTail (spliced : Spliced g h front done j k) (w : g.Woven a)
    (straight : needsBlock g e.pred e.succ = false) (fresh : along done e.pred e.succ = none)
    (stored : g.blocks[e.pred]? = some B) (isSucc : e.succ ∈ B.succs) (alone : B.succs.length = 1)
    (atPred : k.blocks[e.pred]? = some C)
    (run : joinAt j.tails e.pred C.instrs.length e.moves k = .ok (list, a)) :
    Spliced g h front (done ++ [e]) { j with tails := list } a := by
  obtain ⟨noTail, noHead⟩ := spliced.joints_unused stored isSucc fresh straight
  rcases joinAt_run run with ⟨i, u, known, -⟩ | ⟨i, -, inserted, rfl⟩
  · simp [noTail] at known
  refine spliced.after_insertAt consistent first w straight fresh inserted ?_ (fun c S _ => .inl) ?_
  · intro c D is storedD isD
    by_cases here : c = e.pred
    · subst here
      obtain rfl := mem_unique atPred storedD
      rw [if_pos rfl, take_length, drop_length, isD, noTail]
      simp
    · rw [if_neg here, isD, lookup_other here]
  · intro b P c storedP isSuccC
    by_cases here : b = e.pred
    · subst here
      obtain rfl := mem_unique stored storedP
      obtain ⟨only, isOnly⟩ := length_eq_one_iff.mp alone
      rw [isOnly, mem_singleton] at isSucc isSuccC
      obtain rfl := isSucc.trans isSuccC.symm
      exact .inl ⟨rfl, rfl, by simp [noHead]⟩
    · exact .inr ⟨fun same => here same.1.symm, lookup_other here, rfl⟩

theorem after_joinHead (spliced : Spliced g h front done j k) (w : g.Woven a)
    (straight : needsBlock g e.pred e.succ = false) (fresh : along done e.pred e.succ = none)
    (stored : g.blocks[e.pred]? = some B) (isSucc : e.succ ∈ B.succs)
    (storedS : g.blocks[e.succ]? = some S) (one : S.preds.length = 1)
    (none : k.numPhis e.succ = .ok 0) (run : joinAt j.heads e.succ 0 e.moves k = .ok (list, a)) :
    Spliced g h front (done ++ [e]) { j with heads := list } a := by
  obtain ⟨noTail, noHead⟩ := spliced.joints_unused stored isSucc fresh straight
  obtain ⟨S', storedS', isPred⟩ := consistent.pred_of_succ stored isSucc
  obtain rfl := mem_unique storedS storedS'
  rcases joinAt_run run with ⟨i, u, known, -⟩ | ⟨i, -, inserted, rfl⟩
  · simp [noHead] at known
  refine spliced.after_insertAt consistent first w straight fresh inserted ?_ ?_ ?_
  · intro c D is _ isD
    by_cases here : c = e.succ
    · subst here
      simp [isD, noHead]
    · rw [if_neg here, isD, lookup_other here]
  · intro c S' storedS' isSome
    by_cases here : c = e.succ
    · subst here
      obtain rfl := mem_unique storedS storedS'
      exact .inr ⟨one, none⟩
    · exact .inl (by rwa [lookup_other here] at isSome)
  · intro b P c storedP isSuccC
    by_cases here : c = e.succ
    · subst here
      obtain ⟨S', storedS', isPredB⟩ := consistent.pred_of_succ storedP isSuccC
      obtain rfl := mem_unique storedS storedS'
      obtain ⟨only, isOnly⟩ := length_eq_one_iff.mp one
      rw [isOnly, mem_singleton] at isPred isPredB
      obtain rfl := isPred.trans isPredB.symm
      exact .inl ⟨rfl, rfl, by simp [noTail]⟩
    · exact .inr ⟨fun same => here same.2.symm, rfl, lookup_other here⟩

theorem after_splitEdge (spliced : Spliced g h front done j k) (w : g.Woven a)
    (blocked : needsBlock g e.pred e.succ = true) {mid : Graph} {t : BlockId} {count : Nat}
    (split : Build.splitEdge e.pred e.succ k = .ok (t, mid))
    (run : Build.insertAt t 0 (ofGroup t e.moves) mid = .ok (i, a)) :
    Spliced g h front (done ++ [e]) { j with newBlocks := count } a := by
  obtain ⟨rfl, fields, -, -, others, -⟩ := splitEdge_run split
  obtain ⟨rfl, T, storedT, -, rfl⟩ := insertAt_run.mp run
  have kept : ∀ i group, NewGroup g k i group → NewGroup g (Build.inserted mid k.blocks.size T 0
      (ofGroup k.blocks.size e.moves)) i group := by
    rintro i group ⟨new, y, found, has⟩
    exact NewGroup.after_insert ⟨new, y, by rwa [fields], has⟩
  refine ⟨w, fun i group old => kept i group (spliced.kept i group old), ?_, ?_, ?_⟩
  · intro c B storedB
    obtain ⟨D, storedD, isD⟩ := spliced.block c B storedB
    have := found_lt storedB
    have := spliced.woven.blocks
    refine ⟨rerouted e.pred e.succ k.blocks.size c D, ?_, isD⟩
    rw [block_inserted storedT, if_neg (by lia), others c D storedD]
  · intro c S isSome storedS
    rw [numPhis_eq consistent first w storedS, ← numPhis_eq consistent first spliced.woven storedS]
    exact spliced.head c S isSome storedS
  · intro b B c storedB isSuccC
    refine (spliced.edge b B c storedB isSuccC).congr kept ?_ rfl rfl
    by_cases here : e.pred = b ∧ e.succ = c
    · obtain ⟨rfl, rfl⟩ := here
      exact .inl blocked
    · exact .inr here

theorem after_joinEdge (spliced : Spliced g h front done j k)
    (isSucc : ∃ P, g.blocks[e.pred]? = some P ∧ e.succ ∈ P.succs)
    (fresh : along done e.pred e.succ = none) (w : g.Woven a)
    (run : joinEdge j e k = .ok (j', a)) : Spliced g h front (done ++ [e]) j' a := by
  obtain ⟨P, storedP, isSucc⟩ := isSucc
  obtain ⟨S, storedS, -⟩ := consistent.pred_of_succ storedP isSucc
  obtain ⟨P', atP, -, -, succs⟩ := spliced.woven.block _ P storedP
  obtain ⟨S', atS, -, preds, -⟩ := spliced.woven.block _ S storedS
  have needs := needsBlock_iff consistent first spliced.woven
    (found_lt storedP) (found_lt storedS) atP atS
  obtain ⟨P'', S'', atP', ⟨list, alone, joined, rfl⟩ | ⟨list, several, atS', one, none, joined, rfl⟩ |
    ⟨t, i, mid, several, atS', some, split, inserted, rfl⟩⟩ := joinEdge_run run
  all_goals obtain rfl := mem_unique atP atP'
  · have straight : needsBlock g e.pred e.succ = false := by
      by_contra yes
      exact (needs.mp (by simpa using yes)).1 alone
    exact spliced.after_joinTail consistent first w straight fresh storedP isSucc (succs ▸ alone) atP
      joined
  · obtain rfl := mem_unique atS atS'
    have straight : needsBlock g e.pred e.succ = false := by
      by_contra yes
      exact (needs.mp (by simpa using yes)).2 one none
    exact spliced.after_joinHead consistent first w straight fresh storedP isSucc storedS
      (preds ▸ one) none joined
  · obtain rfl := mem_unique atS atS'
    exact spliced.after_splitEdge consistent first w (needs.mpr ⟨several, some⟩) split inserted

theorem after_joinEdges (spliced : Spliced g h front done j k)
    (edge : ∀ e ∈ es, ∃ P, g.blocks[e.pred]? = some P ∧ e.succ ∈ P.succs)
    (apart : (done ++ es).Pairwise fun e e' => ¬(e.pred = e'.pred ∧ e.succ = e'.succ))
    (size : h.blocks.size = g.blocks.size) {added : List (EdgeMoves × BlockId)}
    (joined : Joined h added j k) (run : es.foldlM joinEdge j k = .ok (j', a)) :
    Spliced g h front (done ++ es) j' a := by
  induction es generalizing done added j k with
  | nil =>
    obtain ⟨rfl, rfl⟩ := Prod.mk.inj (pure_run.mp run)
    simpa using spliced
  | cons e rest ih =>
    rw [foldlM_cons, bind_run] at run
    obtain ⟨mid, next, step, run⟩ := run
    have fresh : along done e.pred e.succ = none := by
      rw [along, map_eq_none_iff, find?_eq_none]
      intro e' member
      simpa using (pairwise_append.mp apart).2.2 e' member e mem_cons_self
    rw [append_cons] at apart ⊢
    have isEdge := edge e mem_cons_self
    obtain ⟨P, storedP, isSucc⟩ := isEdge
    obtain ⟨S, storedS, -⟩ := consistent.pred_of_succ storedP isSucc
    obtain ⟨w, more, -, joined⟩ := joinEdge_step consistent first spliced.woven joined size
      (found_lt storedP) (found_lt storedS) step
    exact ih (spliced.after_joinEdge consistent first ⟨P, storedP, isSucc⟩ fresh w step)
      (fun e' member => edge e' (mem_cons_of_mem _ member)) apart joined run

end Spliced

/-- Where a connected program has its moves: before instructions, at the heads and tails of blocks,
and in new blocks. -/
structure Connected (g : Graph) (l : Liveness) (k : Graph) (gap : InstrId → List Move)
    (front : InstrId → Option InstrId) (head tail : BlockId → Option InstrId) : Prop where
  woven : g.Woven k
  moves : ∀ d m, m ∈ gap d ↔ ∃ id ∈ l.pool.ids, ∃ is, siblings l.pool id = .ok is ∧
    ∃ pair ∈ is.zip is.tail, Joins l.numbering d m pair
  empty : ∀ d, front d = none → gap d = []
  group : ∀ d i, front d = some i → g.phiAt d = false ∧ NewGroup g k i ⟨.splitMove, gap d, false⟩
  block : ∀ (b : BlockId) (B : Block), g.blocks[b]? = some B → ∃ C, k.blocks[b]? = some C ∧
    C.instrs = (head b).toList ++ script front B.instrs ++ (tail b).toList
  plain : ∀ (c : BlockId) (S C : Block), (head c).isSome → g.blocks[c]? = some S →
    k.blocks[c]? = some C → S.preds ≠ [] ∧ ∀ i ∈ C.instrs, k.phiAt i = false
  new : ∀ (t : BlockId) (T : Block), g.blocks.size ≤ t → k.blocks[t]? = some T → ∃ i b c,
    T = ⟨[i], [b], [c]⟩ ∧ b < g.blocks.size ∧ tail b = none ∧ g.instrs.size ≤ i
  edge : ∀ (c : BlockId) (S C : Block) (n : Nat) (t : BlockId), g.blocks[c]? = some S →
    k.blocks[c]? = some C → C.preds[n]? = some t → ∃ b group, S.preds[n]? = some b ∧
      edgeGroup g l c b n = .ok group ∧
      ((t = b ∧ ((group.moves = [] ∧ tail b = none ∧ head c = none) ∨
          ∃ i, (tail b).toList ++ (head c).toList = [i] ∧ NewGroup g k i group)) ∨
        (g.blocks.size ≤ t ∧ head c = none ∧
          ∃ i, k.blocks[t]? = some ⟨[i], [b], [c]⟩ ∧ NewGroup g k i group))

theorem newGroup_of_group (w : g.Woven a) (bare : g.Bare)
    (found : a.instrs[i]? = some (ofGroup b group)) : NewGroup g a i group := by
  refine ⟨?_, _, found, rfl⟩
  by_contra old
  have isOld := Array.getElem?_eq_getElem (Nat.lt_of_not_le old)
  obtain ⟨y, foundY, -, -, none⟩ := w.instr i _ isOld
  obtain rfl := mem_unique found foundY
  cases none (bare i _ isOld)

theorem succ_of_edge (numbered : l.numbering.Numbered g) (consistent : g.Consistent)
    (found : edges g l = .ok es) (member : e ∈ es) :
    ∃ P, g.blocks[e.pred]? = some P ∧ e.succ ∈ P.succs := by
  obtain ⟨-, S, n, stored, pred, -⟩ := edges_sound numbered found member
  exact consistent.succ_of_pred stored (mem_of_getElem? pred)

theorem edgeGroup_of_edge (numbered : l.numbering.Numbered g) (consistent : g.Consistent)
    (single : g.SingleEdges) (found : edges g l = .ok es) (member : e ∈ es)
    (stored : g.blocks[e.succ]? = some S) (pred : S.preds[n]? = some e.pred) :
    edgeGroup g l e.succ e.pred n = .ok e.moves := by
  obtain ⟨-, S', n', stored', pred', isGroup⟩ := edges_sound numbered found member
  obtain rfl := mem_unique stored stored'
  obtain rfl := (getElem?_inj (listed_lt pred)
    (single.preds_nodup consistent stored)).mp (pred.trans pred'.symm)
  exact isGroup

theorem idxsOf_zero_of_nodup {ps : List BlockId} (once : ps.Nodup) (isAt : ps[n]? = some b) :
    (ps.idxsOf b)[0]? = some n := by
  have only : ∀ m ∈ ps.idxsOf b, m = n := by
    intro m member
    have isM := getElem_of_idxsOf.mp member
    exact (getElem?_inj (listed_lt isM) once).mp (isM.trans isAt.symm)
  have among := getElem_of_idxsOf.mpr isAt
  cases isList : ps.idxsOf b with
  | nil => simp [isList] at among
  | cons m rest => simp [only m (by simp [isList])]

section

variable {added : List (EdgeMoves × BlockId)} (spliced : Spliced g h front es j a)
  (isAdded : added.map Prod.fst = es.filter fun e => needsBlock g e.pred e.succ)

include spliced isAdded

theorem joints_unused_of_added (edge : ∀ e ∈ es, ∃ P, g.blocks[e.pred]? = some P ∧ e.succ ∈ P.succs)
    {d : EdgeMoves × BlockId} (member : d ∈ added) :
    d.1 ∈ es ∧ j.tails.lookup d.1.pred = none ∧ j.heads.lookup d.1.succ = none := by
  have among := mem_map_of_mem (f := Prod.fst) member
  rw [isAdded] at among
  obtain ⟨listed, needs⟩ := mem_filter.mp among
  obtain ⟨P, storedP, isSucc⟩ := edge d.1 listed
  have crossed := spliced.edge _ P _ storedP isSucc
  rw [Crossed, if_pos needs] at crossed
  exact ⟨listed, crossed⟩

theorem passed_of_not_added (stored : g.blocks[b]? = some B) (isSucc : c ∈ B.succs)
    (own : (added.filter (·.1.succ = c)).filter (·.1.pred = b) = [])
    (listed : group.moves ≠ [] → ⟨b, c, group⟩ ∈ es)
    (same : ∀ e ∈ es, e.pred = b → e.succ = c → e.moves = group) :
    (group.moves = [] ∧ j.tails.lookup b = none ∧ j.heads.lookup c = none) ∨
      ∃ i, (j.tails.lookup b).toList ++ (j.heads.lookup c).toList = [i] ∧ NewGroup g a i group := by
  have crossed := spliced.edge b B c stored isSucc
  rw [Crossed] at crossed
  split at crossed
  · rename_i needs
    refine .inl ⟨?_, crossed⟩
    by_contra some
    obtain ⟨d, member, isD⟩ := mem_map.mp
      (isAdded ▸ mem_filter.mpr ⟨listed some, needs⟩ : _ ∈ added.map Prod.fst)
    have among : d ∈ (added.filter (·.1.succ = c)).filter (·.1.pred = b) := by simp [member, isD]
    simp [own] at among
  · rcases crossed with ⟨none, isNil⟩ | ⟨group', i, isSome, isList, carries⟩
    · refine .inl ⟨?_, by simpa using isNil⟩
      by_contra some
      rw [along, map_eq_none_iff, find?_eq_none] at none
      simpa using none _ (listed some)
    · obtain ⟨e, isFound, rfl⟩ := map_eq_some_iff.mp isSome
      obtain ⟨pred, succ⟩ : e.pred = b ∧ e.succ = c := by simpa using find?_some isFound
      exact .inr ⟨i, isList, same e (mem_of_find?_eq_some isFound) pred succ ▸ carries⟩

end

theorem connected_of_connect (given : g.Accepted tree l.numbering.order)
    (numbered : l.numbering.Numbered g) (bare : g.Bare) (single : g.SingleEdges)
    (run : l.connect g = .ok (n, a)) :
    ∃ gap front head tail, Connected g l a gap front head tail := by
  have consistent := given.consistent
  have first := given.valid.phis_first
  obtain ⟨h, es, j, u, within, found, joined, -⟩ := connect_ok run
  obtain ⟨gap, front, laid, moves⟩ :=
    (Laid.refl consistent first).after_withinBlocks bare consistent numbered within
  rw [edges_woven numbered laid.woven laid.ends] at found
  have size := size_of_ends laid.ends
  have isEdge : ∀ e ∈ es, ∃ P, g.blocks[e.pred]? = some P ∧ e.succ ∈ P.succs :=
    fun e => succ_of_edge numbered consistent found
  have spliced := (Spliced.of_laid laid).after_joinEdges consistent first isEdge
    (edges_apart numbered consistent single found) size .at_start joined
  obtain ⟨w, added, isAdded, joined⟩ := joinEdges_run consistent first size
    (edges_old numbered consistent found) laid.woven .at_start joined
  rw [nil_append] at spliced joined
  have unused := fun d => joints_unused_of_added spliced isAdded isEdge (d := d)
  refine ⟨gap, front, (j.heads.lookup ·), (j.tails.lookup ·), w, by simpa using moves, laid.empty,
    fun d i isAt => (laid.group d i isAt).imp_right (spliced.kept _ _), spliced.block, ?_, ?_, ?_⟩
  · intro c S C isSome storedS storedC
    obtain ⟨alone, none⟩ := spliced.head c S isSome storedS
    exact ⟨fun isNil => by simp [isNil] at alone,
      no_phi_of_numPhis consistent first w storedS storedC none⟩
  · intro t T new storedT
    obtain ⟨d, member, rfl⟩ := joined.all t (size ▸ new) (found_lt storedT)
    obtain ⟨i, stored, isGroup⟩ := joined.block d member
    obtain rfl := mem_unique stored storedT
    obtain ⟨listed, noTail, -⟩ := unused d member
    exact ⟨i, _, _, rfl, (edges_old numbered consistent found d.1 listed).1, noTail,
      (newGroup_of_group w bare isGroup).1⟩
  · intro c S C n t storedS storedC isPred
    obtain ⟨C', storedC', -, length, -⟩ := w.block c S storedS
    obtain rfl := mem_unique storedC storedC'
    obtain ⟨b, isPredG⟩ : ∃ b, S.preds[n]? = some b :=
      ⟨_, getElem?_eq_getElem (length ▸ (listed_lt isPred))⟩
    obtain ⟨group, isGroup, listed⟩ :=
      edges_complete found (given.valid.complete c S storedS) storedS isPredG
    refine ⟨b, group, isPredG, isGroup, ?_⟩
    have same : ∀ e ∈ es, e.pred = b → e.succ = c → e.moves = group := by
      rintro e member rfl rfl
      exact Except.ok.inj
        ((edgeGroup_of_edge numbered consistent single found member storedS isPredG).symm.trans
        isGroup)
    have olds : ∀ d ∈ added, d.1.succ = c → d.1.pred ∈ S.preds := by
      intro d member here
      obtain ⟨-, S', n', storedS', isPred', -⟩ := edges_sound numbered found (unused d member).1
      rw [here] at storedS'
      obtain rfl := mem_unique storedS storedS'
      exact mem_of_getElem? isPred'
    have landed := landed_of_joined joined consistent laid.ends storedS storedC olds
      (idxsOf_zero_of_nodup (single.preds_nodup consistent storedS) isPredG)
    cases own : (added.filter (·.1.succ = c)).filter (·.1.pred = b) with
    | nil =>
      rw [own, isPred] at landed
      obtain ⟨P, storedP, isSucc⟩ := consistent.succ_of_pred storedS (mem_of_getElem? isPredG)
      exact .inl ⟨by simpa using landed,
        passed_of_not_added spliced isAdded storedP isSucc own listed same⟩
    | cons d rest =>
      rw [own, isPred] at landed
      obtain rfl : t = d.2 := by simpa using landed
      obtain ⟨member, rfl, rfl⟩ : d ∈ added ∧ d.1.pred = b ∧ d.1.succ = c := by
        have among : d ∈ (added.filter (·.1.succ = c)).filter (·.1.pred = b) := by simp [own]
        simpa using among
      obtain ⟨i, storedT, isOwn⟩ := joined.block d member
      obtain ⟨isListed, -, noHead⟩ := unused d member
      obtain rfl := same d.1 isListed rfl rfl
      exact .inr ⟨size ▸ (joined.fresh d member).1, noHead, i, storedT,
        newGroup_of_group w bare isOwn⟩

end Connection

end RegisterAllocation
