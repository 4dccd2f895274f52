import RegisterAllocation.Proofs.Dominators
import RegisterAllocation.Proofs.KnowledgeOrder
import RegisterAllocation.Proofs.Solution

/-!
The rounds of the verification end, and they end with the greatest solution: what is known at the
end of each block follows from what is known at its start, and no other such knowledge says more.

Every step from a point to the next one keeps the order of knowledge, so what is known at the ends of
blocks only decreases from visit to visit, and stays above every solution. Each round that changes
something takes away weight, which is bounded by the number of locations that are written.
-/

namespace RegisterAllocation

open Array List Graph Instr Knowledge

/-- The ids of a program name entries of its tables, and its phis have a result. -/
structure Graph.Indexed (g : Graph) : Prop where
  listed : ∀ B ∈ g.blocks, ∀ i ∈ B.instrs, i < g.instrs.size
  inputs : ∀ x ∈ g.instrs, ∀ v ∈ x.inputs, v < g.values.size
  defined : ∀ d ∈ g.values, d.definedBy < g.instrs.size
  phis : ∀ x ∈ g.instrs, x.isPhi = true → x.results ≠ []

namespace Graph.Indexed

variable {g : Graph} {v : ValueId} {b : BlockId} {B : Block}

theorem instrs_found (indexed : g.Indexed) (stored : g.blocks[b]? = some B) :
    ∀ i ∈ B.instrs, ∃ x, g.instrs[i]? = some x := fun i member =>
  ⟨_, Array.getElem?_eq_getElem (indexed.listed B (Array.mem_of_getElem? stored) i member)⟩

theorem constantOf_total (indexed : g.Indexed) (inside : v < g.values.size) :
    ∃ c, g.constantOf? v = .ok c := by
  have found := Array.getElem?_eq_getElem inside
  have defined := Array.getElem?_eq_getElem (indexed.defined _ (Array.mem_of_getElem? found))
  exact ⟨_, by rw [constantOf?, value_ok.mpr found, ok_bind, instr_ok.mpr defined, ok_bind]; rfl⟩

theorem phisAmong_total {instrs : List InstrId} (found : ∀ i ∈ instrs, ∃ x, g.instrs[i]? = some x) :
    ∃ phis, g.phisAmong instrs = .ok phis ∧
      ∀ i ∈ phis, ∃ x, g.instrs[i]? = some x ∧ x.isPhi = true := by
  induction instrs with
  | nil => exact ⟨[], rfl, by simp⟩
  | cons i rest ih =>
    obtain ⟨x, isX⟩ := found i mem_cons_self
    obtain ⟨phis, run, all⟩ := ih fun j hj => found j (mem_cons_of_mem i hj)
    rw [phisAmong, instr_ok.mpr isX, ok_bind]
    by_cases phi : x.isPhi = true
    · refine ⟨i :: phis, by simp [phi, run], forall_mem_cons.mpr ⟨⟨x, isX, phi⟩, all⟩⟩
    · exact ⟨[], by simp [phi], by simp⟩

end Graph.Indexed

namespace Verify

open Graph (Indexed)

variable {g : Graph} {P : Knowledge → Prop} {k k' : Knowledge} {s s' : Symbol} {l : Location}
  {i : InstrId} {x : Instr} {t t' : Trace} {v : ValueId} {b : BlockId} {order : List BlockId}

def places (g : Graph) : List Location :=
  g.instrs.toList.flatMap fun x =>
    x.resultLocations ++ (x.group.map fun group => group.moves.map Move.dst).getD []

theorem mem_places (found : g.instrs[i]? = some x) (written : l ∈ x.resultLocations ∨
    ∃ group, x.group = some group ∧ ∃ m ∈ group.moves, m.dst = l) : l ∈ places g := by
  refine mem_flatMap.mpr ⟨x, mem_toList_iff.mpr (Array.mem_of_getElem? found), ?_⟩
  rcases written with result | ⟨group, isGroup, m, member, rfl⟩
  · exact mem_append_left _ result
  · exact mem_append_right _ (by simpa [isGroup] using ⟨m, member, rfl⟩)

structure Closed (g : Graph) (P : Knowledge → Prop) : Prop where
  firm : ∀ k, P k → k.Firm
  nil : P []
  write : ∀ k l s, P k → l ∈ places g → P (write g k l s)
  destroy : ∀ k test, P k → P (k.destroy test)
  meet : ∀ k other, P k → P other → P (k.meet other)

theorem Closed.of_canonical (g : Graph) : Closed g Canonical := by
  refine ⟨fun _ => Canonical.firm, .nil, ?_, fun _ test h => h.after_destroy test,
    fun _ _ => Canonical.after_meet⟩
  intro k l s h _
  rw [write_eq]
  split
  · exact h
  · exact h.after_set l s

structure WithinPlaces (g : Graph) (k : Knowledge) : Prop where
  canonical : k.Canonical
  within : ∀ l, k.get l ≠ .unknown → l ∈ places g

theorem Closed.of_within (g : Graph) : Closed g (WithinPlaces g) := by
  have canonical := Closed.of_canonical g
  refine ⟨fun _ h => h.canonical.firm, ⟨.nil, fun l known => absurd rfl known⟩, ?_, ?_, ?_⟩
  · refine fun k l s h place => ⟨canonical.write k l s h.canonical place, fun j known => ?_⟩
    rw [get_write] at known
    split at known
    · rename_i here
      exact here.1 ▸ place
    · exact h.within j known
  · refine fun k test h => ⟨h.canonical.after_destroy test, fun l known => h.within l fun unknown =>
      ?_⟩
    rw [get_destroy_eq, lookup_eq h.canonical.firm] at known
    simp [unknown] at known
  · refine fun k other h h' => ⟨h.canonical.after_meet h'.canonical, fun l known => h.within l ?_⟩
    rw [get_meet h.canonical.firm h'.canonical.firm] at known
    intro unknown
    simp [unknown] at known

structure Finer (P : Knowledge → Prop) (k k' : Knowledge) : Prop where
  weaker : k.Weaker k'
  left : P k
  right : P k'

theorem Finer.refl (h : P k) : Finer P k k := ⟨.refl k, h, h⟩

theorem read_weaker (h : k.Weaker k') (l : Location) : (read g k l).Weaker (read g k' l) := by
  unfold read
  split
  · exact .refl _
  split
  · exact .refl _
  · exact h l

theorem holds_total (indexed : g.Indexed) (inside : v < g.values.size) (s : Symbol) :
    ∃ r, holds g s v = .ok r := by
  unfold holds
  split
  · exact ⟨_, rfl⟩
  · obtain ⟨c, isC⟩ := indexed.constantOf_total inside
    exact ⟨_, by rw [isC]; rfl⟩
  · exact ⟨_, rfl⟩

theorem holds_weaker (h : s.Weaker s') (held : holds g s v = .ok true) : holds g s' v = .ok true := by
  have definite : s.isDefinite = true := by
    cases s <;> simp_all [holds, Symbol.isDefinite]
  rwa [h.eq_of_definite definite]

section Steps

variable (kept : Closed g P)
include kept

theorem Finer.after_write (h : Finer P k k') (hs : s.Weaker s') (place : l ∈ places g) :
    Finer P (write g k l s) (write g k' l s') := by
  refine ⟨?_, kept.write k l s h.left place, kept.write k' l s' h.right place⟩
  intro j
  rw [get_write, get_write]
  split
  · exact hs
  · exact h.weaker j

theorem Finer.after_writes {α : Type} {place : α → Location} {symbol symbol' : Knowledge → α → Symbol}
    {xs : List α} (h : Finer P k k') (inside : ∀ a ∈ xs, place a ∈ places g)
    (symbols : ∀ k k' a, k.Weaker k' → (symbol k a).Weaker (symbol' k' a)) :
    Finer P (xs.foldl (fun k a => write g k (place a) (symbol k a)) k)
      (xs.foldl (fun k a => write g k (place a) (symbol' k a)) k') := by
  induction xs generalizing k k' with
  | nil => exact h
  | cons a rest ih =>
    exact ih (h.after_write kept (symbols k k' a h.weaker) (inside a mem_cons_self))
      fun c member => inside c (mem_cons_of_mem a member)

omit kept in
theorem moves_known (symbol : Knowledge → Move → Symbol) (moves : List Move) (t : Trace) :
    (moves.foldl (fun t m => moveSymbol g i t m (symbol t.known m)) t).known =
      moves.foldl (fun k m => write g k m.dst (symbol k m)) t.known := by
  induction moves generalizing t with
  | nil => rfl
  | cons m rest ih => rw [foldl_cons, foldl_cons, ih, moveSymbol_known]

theorem Finer.after_group {moves : MoveGroup} (h : Finer P k k')
    (inside : ∀ m ∈ moves.moves, m.dst ∈ places g) :
    Finer P (group g i moves ⟨k, []⟩).known (group g i moves ⟨k', []⟩).known := by
  unfold group
  split
  · rw [moves_known fun k m => read g k m.src, moves_known fun k m => read g k m.src]
    exact h.after_writes kept inside fun k k' m weaker => read_weaker weaker m.src
  · -- all sources are read before the first move
    simp only [← List.map_prod_left_eq_zip, List.foldl_map]
    rw [moves_known fun _ m => read g k m.src, moves_known fun _ m => read g k' m.src]
    exact h.after_writes kept inside fun _ _ m _ => read_weaker h.weaker m.src

def passing (g : Graph) (i : InstrId) (x : Instr) (k : Knowledge) : Knowledge :=
  match x.group with
  | some moves => (group g i moves ⟨k, []⟩).known
  | none =>
    if x.isPhi ∨ x.inputLocations.length ≠ x.inputs.length ∨
      x.resultLocations.length ≠ x.results.length then k
    else afterResults g x (if x.isCall then k.destroy (isCallerSaved g.target) else k)

theorem Finer.after_passing (found : g.instrs[i]? = some x) (h : Finer P k k') :
    Finer P (passing g i x k) (passing g i x k') := by
  unfold passing
  split
  · rename_i moves isGroup
    exact h.after_group kept fun m member =>
      mem_places found (.inr ⟨moves, isGroup, m, member, rfl⟩)
  split
  · exact h
  have called : Finer P (if x.isCall then k.destroy (isCallerSaved g.target) else k)
      (if x.isCall then k'.destroy (isCallerSaved g.target) else k') := by
    split
    · exact ⟨h.weaker.after_destroy (kept.firm k h.left) (kept.firm k' h.right) _,
        kept.destroy k _ h.left, kept.destroy k' _ h.right⟩
    · exact h
  exact called.after_writes kept (fun r member => mem_places found (.inl (of_mem_zip member).2))
    fun _ _ r _ => .refl _

end Steps

theorem group_known (moves : MoveGroup) (t : Trace) :
    (group g i moves t).known = (group g i moves ⟨t.known, []⟩).known := by
  unfold group
  split
  · rw [moves_known fun k m => read g k m.src, moves_known fun k m => read g k m.src]
  · simp only [← List.map_prod_left_eq_zip, List.foldl_map]
    rw [moves_known fun _ m => read g t.known m.src, moves_known fun _ m => read g t.known m.src]
    rfl

theorem inputs_total (indexed : g.Indexed) {operands : List ((ValueId × Location) × Nat)}
    (inside : ∀ o ∈ operands, o.1.1 < g.values.size) (t : Trace) :
    ∃ t', operands.foldlM (input g i) t = .ok t' := by
  refine foldlM_total (fun o member t => ?_) t
  obtain ⟨r, isR⟩ := holds_total indexed (inside o member) (read g t.known o.1.2)
  rw [input, isR, ok_bind]
  cases r
  · exact ⟨_, rfl⟩
  · exact ⟨_, rfl⟩

theorem call_total (inside : ∀ v ∈ x.inputs, v < g.values.size) (t : Trace) :
    ∃ t', call g i x t = .ok t' := by
  obtain ⟨types, isTypes⟩ : ∃ types, x.inputs.mapM g.typeOf = .ok types := mapM_total fun v member =>
    ⟨_, by rw [typeOf, Graph.value_ok.mpr (Array.getElem?_eq_getElem (inside v member))]; rfl⟩
  exact ⟨_, by rw [call, typesOf, isTypes, ok_bind]; rfl⟩

theorem instr_total (indexed : g.Indexed) (found : g.instrs[i]? = some x) (t : Trace) :
    ∃ t', instr g t i = .ok t' ∧ t'.known = passing g i x t.known := by
  have inside := indexed.inputs x (Array.mem_of_getElem? found)
  rw [instr, Graph.instr_ok.mpr found, ok_bind, passing]
  cases hgroup : x.group with
  | some moves => exact ⟨_, rfl, group_known moves t⟩
  | none =>
    by_cases phi : x.isPhi = true
    · exact ⟨t, by simp [phi], by simp [phi]⟩
    by_cases missing : x.inputLocations.length ≠ x.inputs.length ∨
        x.resultLocations.length ≠ x.results.length
    · exact ⟨t.report (.missingLocations i), by simp [phi, missing], by simp [phi, missing]; rfl⟩
    obtain ⟨after, isAfter⟩ : ∃ after,
        (x.inputs.zip x.inputLocations).zipIdx.foldlM (input g i) t = .ok after :=
      inputs_total indexed (fun o member =>
        inside _ (of_mem_zip (fst_mem_of_mem_zipIdx member)).1) t
    have same := inputs_known isAfter
    simp only [phi, missing, isAfter, Bool.false_eq_true, ↓reduceIte, or_false, ok_bind]
    by_cases isCall : x.isCall = true
    · obtain ⟨done, isDone⟩ := call_total (i := i) inside after
      refine ⟨_, by simp only [isCall, ↓reduceIte, isDone, ok_bind]; rfl, ?_⟩
      simp only [isCall, ↓reduceIte, ← same, ← (call_known isDone).1]
      rfl
    · refine ⟨_, by simp only [isCall, Bool.false_eq_true, ↓reduceIte, pure_bind]; rfl, ?_⟩
      simp only [isCall, Bool.false_eq_true, ↓reduceIte, ← same]
      rfl

section Steps

variable (kept : Closed g P)
include kept

theorem Finer.after_instrs (indexed : g.Indexed) {instrs : List InstrId}
    (found : ∀ i ∈ instrs, ∃ x, g.instrs[i]? = some x) (h : Finer P t.known t'.known) :
    ∃ u u', instrs.foldlM (instr g) t = .ok u ∧ instrs.foldlM (instr g) t' = .ok u' ∧
      Finer P u.known u'.known := by
  induction instrs generalizing t t' with
  | nil => exact ⟨t, t', rfl, rfl, h⟩
  | cons i rest ih =>
    obtain ⟨x, isX⟩ := found i mem_cons_self
    obtain ⟨u, first, known⟩ := instr_total indexed isX t
    obtain ⟨u', first', known'⟩ := instr_total indexed isX t'
    simp only [foldlM_cons, first, first', ok_bind]
    refine ih (fun j hj => found j (mem_cons_of_mem i hj)) ?_
    rw [known, known']
    exact h.after_passing kept isX

theorem Finer.after_block (indexed : g.Indexed) {B : Block} (stored : g.blocks[b]? = some B)
    (h : Finer P k k') : ∃ t t', block g b ⟨k, []⟩ = .ok t ∧
      block g b ⟨k', []⟩ = .ok t' ∧ Finer P t.known t'.known := by
  simp only [block, block_ok.mpr stored, ok_bind]
  exact Finer.after_instrs kept indexed (indexed.instrs_found stored) h

inductive Updates (g : Graph) : Option (Location × Symbol) → Option (Location × Symbol) → Prop where
  | none : Updates g none none
  | some {l : Location} {s s' : Symbol} : l ∈ places g → s.Weaker s' →
      Updates g (some (l, s)) (some (l, s'))

omit kept in
theorem phi_weaker (indexed : g.Indexed) (found : g.instrs[i]? = some x) (phi : x.isPhi = true)
    {n : Nat} (h : k.Weaker k') :
    ∃ u u', phi? g k n i = .ok u ∧ phi? g k' n i = .ok u' ∧ Updates g u u' := by
  obtain ⟨v, isHead⟩ := Option.ne_none_iff_exists'.mp
    (head?_eq_none_iff.not.mpr (indexed.phis x (Array.mem_of_getElem? found) phi))
  simp only [phi?, Graph.instr_ok.mpr found, ok_bind]
  cases place : x.resultLocations.head? with
  | none => exact ⟨_, _, rfl, rfl, .none⟩
  | some l =>
    cases operand : x.inputs[n]? with
    | none => exact ⟨_, _, rfl, rfl, .none⟩
    | some w =>
      have inside := mem_places found (.inl (mem_of_mem_head? place))
      have known := indexed.inputs x (Array.mem_of_getElem? found) w (mem_of_getElem? operand)
      obtain ⟨r, isR⟩ := holds_total indexed known (read g k l)
      obtain ⟨r', isR'⟩ := holds_total indexed known (read g k' l)
      simp only [isR, isR', ok_bind, isHead, need_some]
      cases r with
      | true =>
        obtain rfl : true = r' := by
          simpa [isR'] using (holds_weaker (read_weaker h l) isR).symm
        exact ⟨_, _, rfl, rfl, .some inside (.refl _)⟩
      | false =>
        cases r'
        · exact ⟨_, _, rfl, rfl, .some inside (.refl _)⟩
        · exact ⟨_, _, rfl, rfl, .some inside (Symbol.conflicted_weaker (by simp))⟩

omit kept in
theorem phis_weaker (indexed : g.Indexed) {phis : List InstrId} {n : Nat}
    (found : ∀ i ∈ phis, ∃ x, g.instrs[i]? = some x ∧ x.isPhi = true) (h : k.Weaker k') :
    ∃ us us', phis.mapM (phi? g k n) = .ok us ∧ phis.mapM (phi? g k' n) = .ok us' ∧
      Forall₂ (Updates g) us us' := by
  induction phis with
  | nil => exact ⟨[], [], rfl, rfl, .nil⟩
  | cons i rest ih =>
    obtain ⟨x, isX, phi⟩ := found i mem_cons_self
    obtain ⟨u, u', first, first', update⟩ := phi_weaker (n := n) indexed isX phi h
    obtain ⟨us, us', others, others', updates⟩ := ih fun j hj => found j (mem_cons_of_mem i hj)
    simp only [mapM_cons, first, first', others, others', ok_bind]
    exact ⟨_, _, rfl, rfl, .cons update updates⟩

theorem Finer.after_edge (indexed : g.Indexed) {B : Block} (stored : g.blocks[b]? = some B) {n : Nat}
    (h : Finer P k k') : ∃ r r', edge g k b n = .ok r ∧ edge g k' b n = .ok r' ∧
      Finer P r r' := by
  obtain ⟨phis, run, heads⟩ := Indexed.phisAmong_total (indexed.instrs_found stored)
  obtain ⟨us, us', isUs, isUs', updates⟩ := phis_weaker (n := n) indexed heads h.weaker
  simp only [edge, Graph.phis, block_ok.mpr stored, run, isUs, isUs', ok_bind]
  refine ⟨_, _, rfl, rfl, ?_⟩
  clear isUs isUs'
  induction updates generalizing k k' with
  | nil => exact h
  | cons update _ ih =>
    cases update with
    | none => exact ih h
    | some place weaker => exact ih (h.after_write kept weaker place)

def States (P : Knowledge → Prop) (exits : Exits) : Prop :=
  ∀ (b : BlockId) (k : Knowledge), exits[b]? = some (some k) → P k

def Under (exits exits' : Exits) : Prop :=
  ∀ (b : BlockId) (k' : Knowledge), exits'[b]? = some (some k') →
    ∃ k, exits[b]? = some (some k) ∧ k.Weaker k'

structure Compared (g : Graph) (P : Knowledge → Prop) (exits exits' : Exits) : Prop where
  under : Under exits exits'
  left : States P exits
  right : States P exits'
  size : exits.size = g.blocks.size
  size' : exits'.size = g.blocks.size

structure Merged (P : Knowledge → Prop) (m m' : Option Knowledge) : Prop where
  left : ∀ k, m = some k → P k
  right : ∀ k', m' = some k' → P k' ∧ ∃ k, m = some k ∧ k.Weaker k'

variable {exits exits' : Exits} {m m' : Option Knowledge} {pred : BlockId × Nat} {B : Block}

omit kept in
theorem meetEdge_unvisited (unvisited : exits[pred.1]? = some none) :
    meetEdge g exits b m pred = .ok m := by
  simp only [meetEdge, unvisited, need_some, ok_bind]
  rfl

omit kept in
theorem meetEdge_visited {out r : Knowledge} (visited : exits[pred.1]? = some (some out))
    (crossed : edge g out b pred.2 = .ok r) :
    meetEdge g exits b m pred = .ok (some ((m.map (Knowledge.meet · r)).getD r)) := by
  simp only [meetEdge, visited, need_some, ok_bind, crossed]
  cases m <;> rfl

theorem merged_kept {r : Knowledge} (hm : ∀ k, m = some k → P k) (hr : P r) :
    P ((m.map (Knowledge.meet · r)).getD r) := by
  cases m with
  | none => exact hr
  | some k => exact kept.meet k r (hm k rfl) hr

section

variable (indexed : g.Indexed) (stored : g.blocks[b]? = some B)

include indexed stored

theorem meetEdge_total
    (states : States P exits) (inside : pred.1 < exits.size) (hm : ∀ k, m = some k → P k) :
    ∃ r, meetEdge g exits b m pred = .ok r ∧ (∀ k, r = some k → P k) ∧
      ∀ k, m = some k → ∃ j, r = some j ∧ j.Weaker k := by
  obtain ⟨out, visited⟩ : ∃ out, exits[pred.1]? = some out := ⟨_, Array.getElem?_eq_getElem inside⟩
  cases out with
  | none => exact ⟨m, meetEdge_unvisited visited, hm, fun k isK => ⟨k, isK, .refl k⟩⟩
  | some out =>
    obtain ⟨r, r', crossed, -, finer⟩ :=
      (Finer.refl (states _ _ visited)).after_edge kept (n := pred.2) indexed stored
    refine ⟨_, meetEdge_visited visited crossed, ?_, ?_⟩
    · rintro _ ⟨⟩
      exact merged_kept kept hm finer.left
    · rintro k rfl
      exact ⟨_, rfl, ((weaker_meet_iff (kept.firm k (hm k rfl))
        (kept.firm r finer.left)).mp (.refl _)).1⟩

theorem Merged.after_meetEdge
    (compared : Compared g P exits exits') (inside : pred.1 < g.blocks.size) (h : Merged P m m') :
    ∃ r r', meetEdge g exits b m pred = .ok r ∧ meetEdge g exits' b m' pred = .ok r' ∧
      Merged P r r' ∧ (r' = none → m' = none ∧ exits'[pred.1]? = some none) := by
  obtain ⟨out', visited'⟩ : ∃ out, exits'[pred.1]? = some out :=
    ⟨_, Array.getElem?_eq_getElem (compared.size' ▸ inside)⟩
  cases out' with
  | none =>
    obtain ⟨r, merges, left, less⟩ := meetEdge_total kept (m := m) indexed stored
      compared.left (compared.size ▸ inside) h.left
    refine ⟨r, m', merges, meetEdge_unvisited visited', ⟨left, fun k' isK' => ?_⟩,
      fun none => ⟨none, visited'⟩⟩
    obtain ⟨hk', k, isK, weaker⟩ := h.right k' isK'
    obtain ⟨j, isJ, less⟩ := less k isK
    exact ⟨hk', j, isJ, less.trans weaker⟩
  | some out' =>
    obtain ⟨out, visited, weaker⟩ := compared.under _ _ visited'
    obtain ⟨r, r', crossed, crossed', finer⟩ := Finer.after_edge kept (n := pred.2) indexed stored
      ⟨weaker, compared.left _ _ visited, compared.right _ _ visited'⟩
    refine ⟨_, _, meetEdge_visited visited crossed, meetEdge_visited visited' crossed', ⟨?_, ?_⟩,
      by simp⟩
    · rintro _ ⟨⟩
      exact merged_kept kept h.left finer.left
    · rintro _ ⟨⟩
      refine ⟨merged_kept kept (fun k' isK' => (h.right k' isK').1) finer.right, _, rfl, ?_⟩
      have firm := kept.firm r finer.left
      cases m' with
      | none =>
        cases m with
        | none => exact finer.weaker
        | some k =>
          have both := (weaker_meet_iff (kept.firm k (h.left k rfl)) firm).mp (.refl _)
          exact both.2.trans finer.weaker
      | some k' =>
        obtain ⟨hk', k, rfl, less⟩ := h.right k' rfl
        exact less.after_meet finer.weaker (kept.firm k (h.left k rfl)) (kept.firm k' hk') firm
          (kept.firm r' finer.right)

theorem Merged.after_meetEdges (compared : Compared g P exits exits') {preds : List (BlockId × Nat)}
    (inside : ∀ p ∈ preds, p.1 < g.blocks.size) (h : Merged P m m') :
    ∃ r r', preds.foldlM (meetEdge g exits b) m = .ok r ∧
      preds.foldlM (meetEdge g exits' b) m' = .ok r' ∧ Merged P r r' ∧
      (r' = none → m' = none ∧ ∀ p ∈ preds, exits'[p.1]? = some none) := by
  induction preds generalizing m m' with
  | nil => exact ⟨m, m', rfl, rfl, h, fun none => ⟨none, by simp⟩⟩
  | cons pred rest ih =>
    obtain ⟨r, r', first, first', merged, empty⟩ :=
      h.after_meetEdge kept indexed stored compared (inside pred mem_cons_self)
    obtain ⟨last, last', others, others', done, empty'⟩ :=
      ih (fun p hp => inside p (mem_cons_of_mem pred hp)) merged
    simp only [foldlM_cons, first, first', ok_bind]
    refine ⟨last, last', others, others', done, fun none => ?_⟩
    obtain ⟨none', unvisited⟩ := empty' none
    obtain ⟨none'', unvisited'⟩ := empty none'
    exact ⟨none'', forall_mem_cons.mpr ⟨unvisited', unvisited⟩⟩

end

def Supported (g : Graph) (exits : Exits) (b : BlockId) : Prop :=
  b = g.entry ∨ ∃ p k, g.Edge p b ∧ exits[p]? = some (some k)

theorem Compared.entry_finer (linked : g.Linked) (indexed : g.Indexed)
    (compared : Compared g P exits exits')
    (stored : g.blocks[b]? = some B) (supported : Supported g exits' b) :
    ∃ k k', entry g exits b = .ok k ∧ entry g exits' b = .ok k' ∧ Finer P k k' := by
  rw [entry_eq, entry_eq]
  by_cases outside : b = g.entry
  · exact ⟨[], [], if_pos outside, if_pos outside, .refl kept.nil⟩
  obtain ⟨p, out, edge, visited⟩ := supported.resolve_left outside
  obtain ⟨_, stored', member⟩ := linked.edge_iff.mp edge
  obtain rfl := Option.some.inj (stored.symm.trans stored')
  have inside : ∀ pred ∈ B.preds.zipIdx, pred.1 < g.blocks.size := fun pred member =>
    (linked.edge_iff.mpr ⟨B, stored, fst_mem_of_mem_zipIdx member⟩).source_lt
  have start : Merged P none none := ⟨by simp, by simp⟩
  obtain ⟨r, r', run, run', merged, empty⟩ := start.after_meetEdges kept indexed stored
    compared inside
  simp only [outside, ↓reduceIte, block_ok.mpr stored, run, run', ok_bind]
  cases r' with
  | none =>
    obtain ⟨n, isP⟩ := mem_iff_getElem?.mp member
    have unvisited := (empty rfl).2 (p, n) (mk_mem_zipIdx_iff_getElem?.mpr isP)
    simp [visited] at unvisited
  | some k' =>
    obtain ⟨hk', k, rfl, weaker⟩ := merged.right k' rfl
    exact ⟨k, k', rfl, rfl, weaker, merged.left k rfl, hk'⟩

def leaving (g : Graph) (exits : Exits) (b : BlockId) : Except Fault Knowledge := do
  return (← block g b ⟨← entry g exits b, []⟩).known

theorem Compared.leaving_finer (linked : g.Linked) (indexed : g.Indexed)
    (compared : Compared g P exits exits') (stored : g.blocks[b]? = some B)
    (supported : Supported g exits' b) : ∃ k k', leaving g exits b = .ok k ∧
      leaving g exits' b = .ok k' ∧ Finer P k k' := by
  obtain ⟨k, k', start, start', finer⟩ := compared.entry_finer kept linked indexed stored supported
  obtain ⟨t, t', run, run', finer⟩ := finer.after_block kept indexed stored
  simp only [leaving, start, start', run, run', ok_bind]
  exact ⟨_, _, rfl, rfl, finer⟩

end Steps

section Rounds

variable {exits next : Exits} {done rest : List BlockId}

theorem leaving_ok (h : leaving g exits b = .ok k) : ∃ start t, entry g exits b = .ok start ∧
    block g b ⟨start, []⟩ = .ok t ∧ t.known = k := by
  simp only [leaving, bind_ok, pure_ok] at h
  obtain ⟨start, isStart, t, run, known⟩ := h
  exact ⟨start, t, isStart, run, known⟩

theorem visit_of_leaving (h : leaving g exits b = .ok k) :
    visit g exits b = .ok (exits.setIfInBounds b (some k)) := by
  obtain ⟨start, t, isStart, run, rfl⟩ := leaving_ok h
  simp only [visit, isStart, run, ok_bind]
  rfl

theorem Under.refl (exits : Exits) : Under exits exits := fun _ k visited => ⟨k, visited, .refl k⟩

theorem Under.trans {other : Exits} (h : Under exits next) (h' : Under next other) :
    Under exits other := by
  intro b k' visited
  obtain ⟨j, visited, weaker'⟩ := h' b k' visited
  obtain ⟨k, visited, weaker⟩ := h b j visited
  exact ⟨k, visited, weaker.trans weaker'⟩

theorem Supported.mono (supported : Supported g exits b) (under : Under next exits) :
    Supported g next b := by
  refine supported.imp id ?_
  rintro ⟨p, k', edge, visited⟩
  obtain ⟨k, visited, -⟩ := under p k' visited
  exact ⟨p, k, edge, visited⟩

/-- What is known at the ends of the blocks of an order follows from what is known at the ends of all
blocks. -/
structure Solves (g : Graph) (order : List BlockId) (exits : Exits) : Prop where
  size : exits.size = g.blocks.size
  states : States Canonical exits
  fixed : ∀ b ∈ order, ∃ k, exits[b]? = some (some k) ∧ leaving g exits b = .ok k

/-- What is known between visits: no more follows from it than it says already, and every solution
says less. -/
structure Descent (g : Graph) (order : List BlockId) (exits : Exits) : Prop where
  size : exits.size = g.blocks.size
  states : States (WithinPlaces g) exits
  supported : ∀ (b : BlockId) (k : Knowledge), exits[b]? = some (some k) →
    b ∈ order ∧ Supported g exits b
  falls : ∀ (b : BlockId) (k : Knowledge), exits[b]? = some (some k) →
    ∃ j, leaving g exits b = .ok j ∧ j.Weaker k
  above : ∀ other, Solves g order other → Under other exits

theorem Descent.at_start (g : Graph) (order : List BlockId) :
    Descent g order (Array.replicate g.blocks.size none) := by
  have unvisited {b : BlockId} {k : Knowledge} {Q : Prop}
      (visited : (Array.replicate g.blocks.size none)[b]? = some (some k)) : Q := by
    simp [Array.getElem?_replicate] at visited
  exact ⟨by simp, fun _ _ => unvisited, fun _ _ => unvisited, fun _ _ => unvisited,
    fun _ _ _ _ => unvisited⟩

section Visits

variable (linked : g.Linked) (indexed : g.Indexed) (ranked : g.Ranked order)
include linked indexed ranked

theorem Descent.after_visit (descent : Descent g order exits) (member : b ∈ order)
    (supported : Supported g exits b) : ∃ k, leaving g exits b = .ok k ∧
      Descent g order (exits.setIfInBounds b (some k)) ∧
      Under (exits.setIfInBounds b (some k)) exits ∧
      (exits.setIfInBounds b (some k))[b]? = some (some k) := by
  have stored (c : BlockId) (member : c ∈ order) : ∃ C, g.blocks[c]? = some C :=
    ⟨_, Array.getElem?_eq_getElem (ranked.inside c member)⟩
  have inside : b < exits.size := descent.size ▸ ranked.inside b member
  obtain ⟨B, isB⟩ := stored b member
  obtain ⟨k, _, leaves, -, finer⟩ := Compared.leaving_finer (Closed.of_within g) linked indexed
    ⟨.refl exits, descent.states, descent.states, descent.size, descent.size⟩ isB supported
  have here : (exits.setIfInBounds b (some k))[b]? = some (some k) := by simp [inside]
  have away {c : BlockId} (other : b ≠ c) : (exits.setIfInBounds b (some k))[c]? = exits[c]? :=
    getElem?_setIfInBounds_ne other
  -- the block was not visited before, or less follows now than was known
  have under : Under (exits.setIfInBounds b (some k)) exits := by
    intro c k' visited
    by_cases same : b = c
    · subst same
      obtain ⟨j, leaves', weaker⟩ := descent.falls b k' visited
      obtain rfl := Except.ok.inj (leaves.symm.trans leaves')
      exact ⟨k, here, weaker⟩
    · exact ⟨k', (away same).trans visited, .refl k'⟩
  have states : States (WithinPlaces g) (exits.setIfInBounds b (some k)) := by
    intro c j visited
    by_cases same : b = c
    · subst same
      obtain rfl : k = j := by simpa [here] using visited
      exact finer.left
    · exact descent.states c j ((away same).symm.trans visited)
  have size : (exits.setIfInBounds b (some k)).size = g.blocks.size := by simp [descent.size]
  have compared : Compared g (WithinPlaces g) (exits.setIfInBounds b (some k)) exits :=
    ⟨under, states, descent.states, size, descent.size⟩
  refine ⟨k, leaves, ⟨size, states, ?_, ?_, ?_⟩, under, here⟩
  · intro c j visited
    by_cases same : b = c
    · exact same ▸ ⟨member, supported.mono under⟩
    · obtain ⟨listed, before⟩ := descent.supported c j ((away same).symm.trans visited)
      exact ⟨listed, before.mono under⟩
  · intro c j visited
    by_cases same : b = c
    · subst same
      obtain rfl : k = j := by simpa [here] using visited
      obtain ⟨j, _, leaves', before, finer⟩ :=
        compared.leaving_finer (Closed.of_within g) linked indexed isB supported
      obtain rfl := Except.ok.inj (leaves.symm.trans before)
      exact ⟨j, leaves', finer.weaker⟩
    · have visited' := (away same).symm.trans visited
      obtain ⟨listed, before⟩ := descent.supported c j visited'
      obtain ⟨C, isC⟩ := stored c listed
      obtain ⟨i, _, leaves', old, finer⟩ :=
        compared.leaving_finer (Closed.of_within g) linked indexed isC before
      obtain ⟨j', old', weaker⟩ := descent.falls c j visited'
      obtain rfl := Except.ok.inj (old.symm.trans old')
      exact ⟨i, leaves', finer.weaker.trans weaker⟩
  · intro other solves c j visited
    by_cases same : b = c
    · subst same
      obtain rfl : k = j := by simpa [here] using visited
      obtain ⟨k', isK', follows⟩ := solves.fixed b member
      obtain ⟨_, _, leaves', before, finer⟩ := Compared.leaving_finer (Closed.of_canonical g)
        linked indexed ⟨descent.above other solves, solves.states, fun c j visited =>
          (descent.states c j visited).canonical, solves.size, descent.size⟩ isB supported
      obtain rfl := Except.ok.inj (leaves.symm.trans before)
      obtain rfl := Except.ok.inj (follows.symm.trans leaves')
      exact ⟨k', isK', finer.weaker⟩
    · exact descent.above other solves c j ((away same).symm.trans visited)

theorem Descent.after_round (descent : Descent g order exits) (split : order = done ++ rest)
    (visited : ∀ b ∈ done, ∃ k, exits[b]? = some (some k)) :
    ∃ next, rest.foldlM (visit g) exits = .ok next ∧ Descent g order next ∧
      Under next exits ∧ ∀ b ∈ order, ∃ k, next[b]? = some (some k) := by
  induction rest generalizing done exits with
  | nil =>
    rw [append_nil] at split
    exact ⟨exits, rfl, descent, .refl exits, split ▸ visited⟩
  | cons b rest ih =>
    have member : b ∈ order := by simp [split]
    have supported : Supported g exits b := by
      by_cases start : b = g.entry
      · exact .inl start
      · obtain ⟨u, -, edge, less⟩ := ranked.reached b member start
        rw [split] at less
        obtain ⟨k, isK⟩ := visited u ((idxOf_lt_iff (split ▸ ranked.once)).mp less)
        exact .inr ⟨u, k, edge, isK⟩
    obtain ⟨k, leaves, descent', under, here⟩ :=
      descent.after_visit linked indexed ranked member supported
    have visited' : ∀ c ∈ done ++ [b], ∃ j, (exits.setIfInBounds b (some k))[c]? = some (some j) := by
      intro c among
      rcases mem_append.mp among with among | among
      · obtain ⟨j, isJ⟩ := visited c among
        obtain ⟨i, isI, -⟩ := under c j isJ
        exact ⟨i, isI⟩
      · obtain rfl := mem_singleton.mp among
        exact ⟨k, here⟩
    obtain ⟨next, run, descent', under', all⟩ := ih descent' (by simp [split]) visited'
    exact ⟨next, by rw [foldlM_cons, visit_of_leaving leaves, ok_bind, run], descent',
      under'.trans under, all⟩

end Visits

def worth (g : Graph) : Option Knowledge → Nat
  | none => 2 * (places g).length + 1
  | some k => k.weight (places g)

def standing (g : Graph) (exits : Exits) : Nat :=
  ((List.range g.blocks.size).map fun b => worth g exits[b]?.join).sum

theorem standing_start (g : Graph) : standing g (Array.replicate g.blocks.size none) =
    g.blocks.size * (2 * (places g).length + 1) := by
  have each : ∀ n ∈ (List.range g.blocks.size).map fun b =>
      worth g (Array.replicate g.blocks.size none)[b]?.join, n = 2 * (places g).length + 1 := by
    intro n member
    obtain ⟨b, inside, rfl⟩ := mem_map.mp member
    simp [mem_range.mp inside, worth]
  simpa [standing] using sum_eq_card_nsmul _ _ each

theorem worth_lt {m m' : Option Knowledge} (proper : ∀ k, m = some k → WithinPlaces g k)
    (proper' : ∀ k', m' = some k' → WithinPlaces g k')
    (under : ∀ k', m' = some k' → ∃ k, m = some k ∧ k.Weaker k') :
    m = m' ∨ worth g m < worth g m' := by
  cases m' with
  | none =>
    cases m with
    | none => exact .inl rfl
    | some k => exact .inr (Nat.lt_succ_of_le (k.weight_le (places g)))
  | some k' =>
    obtain ⟨k, rfl, weaker⟩ := under k' rfl
    by_cases same : k = k'
    · exact .inl (congrArg some same)
    · exact .inr (weaker.weight_lt (proper k rfl).canonical (proper' k' rfl).canonical
        (proper' k' rfl).within same)

theorem Descent.standing_lt (descent : Descent g order exits) (descent' : Descent g order next)
    (under : Under next exits) (changed : next ≠ exits) : standing g next < standing g exits := by
  have each (b : BlockId) (inside : b < g.blocks.size) :
      next[b]? = exits[b]? ∨ worth g next[b]?.join < worth g exits[b]?.join := by
    obtain ⟨m, isNext⟩ : ∃ m, next[b]? = some m :=
      ⟨_, Array.getElem?_eq_getElem (descent'.size ▸ inside)⟩
    obtain ⟨m', isExits⟩ : ∃ m', exits[b]? = some m' :=
      ⟨_, Array.getElem?_eq_getElem (descent.size ▸ inside)⟩
    rw [isNext, isExits]
    refine Or.imp_left (congrArg some) (worth_lt ?_ ?_ ?_)
    · intro k isK
      exact descent'.states b k (isNext.trans (congrArg some isK))
    · intro k isK
      exact descent.states b k (isExits.trans (congrArg some isK))
    · intro k' isK'
      obtain ⟨k, isK, weaker⟩ := under b k' (isExits.trans (congrArg some isK'))
      exact ⟨k, Option.some.inj (isNext.symm.trans isK), weaker⟩
  refine sum_lt_sum _ _ (fun b member => ?_) ?_
  · rcases each b (mem_range.mp member) with same | less
    · rw [same]
    · exact less.le
  · by_contra none
    refine changed (Array.ext_getElem? fun b => ?_)
    by_cases inside : b < g.blocks.size
    · exact (each b inside).resolve_right fun less => none ⟨b, mem_range.mpr inside, less⟩
    · rw [Array.getElem?_eq_none (descent'.size ▸ Nat.le_of_not_lt inside),
        Array.getElem?_eq_none (descent.size ▸ Nat.le_of_not_lt inside)]

theorem Descent.settle_total (linked : g.Linked) (indexed : g.Indexed) (ranked : g.Ranked order)
    (descent : Descent g order exits) {bound : Nat} (enough : standing g exits < bound) :
    ∃ last, settle g order bound exits = .ok last ∧ Descent g order last ∧ Solves g order last := by
  induction bound generalizing exits with
  | zero => lia
  | succ bound ih =>
    obtain ⟨next, round, descent', under, visited⟩ :=
      descent.after_round linked indexed ranked (nil_append order).symm (by simp)
    rw [settle, round, ok_bind]
    by_cases same : next = exits
    · subst same
      rw [if_pos rfl]
      refine ⟨next, rfl, descent', descent'.size, fun b k isK => (descent'.states b k isK).canonical,
        fun b member => ?_⟩
      obtain ⟨k, isK⟩ := visited b member
      obtain ⟨j, leaves, -⟩ := descent'.falls b k isK
      have fixed := visits_fixed ranked.once round b member
      rw [visit_of_leaving leaves, Except.ok.injEq] at fixed
      have inside : b < next.size := found_lt isK
      exact ⟨j, by rw [← fixed, getElem?_setIfInBounds_self, if_pos inside], leaves⟩
    · rw [if_neg same]
      have less := descent.standing_lt descent' under same
      exact ih descent' (by lia)

theorem length_places (g : Graph) : (places g).length = (g.instrs.toList.map fun x =>
    x.resultLocations.length + (x.group.map (·.moves.length)).getD 0).foldr (· + ·) 0 := by
  rw [places, length_flatMap, List.sum_eq_foldr]
  congr 1
  refine map_congr_left fun x _ => ?_
  cases x.group <;> simp

/-- The defects of the blocks of an order, with what is known at the ends of all blocks. -/
def defectsFrom (g : Graph) (order : List BlockId) (exits : Exits) :
    Except Fault (List AllocationDefect) := do
  let defects ← order.mapM fun b => do
    return (← block g b ⟨← entry g exits b, []⟩).defects.reverse
  return defects.flatten

theorem Solves.defects_total (solves : Solves g order exits) :
    ∃ defects, defectsFrom g order exits = .ok defects := by
  refine bind_total (mapM_total fun b member => ?_) fun _ _ => ⟨_, rfl⟩
  obtain ⟨k, -, leaves⟩ := solves.fixed b member
  obtain ⟨start, t, isStart, run, -⟩ := leaving_ok leaves
  exact ⟨_, by rw [isStart, ok_bind, run]; rfl⟩

end Rounds

end Verify

namespace Graph

variable {g : Graph}

/-- The verification ends, and what it has settled on at the ends of the reachable blocks is the
greatest solution, from which the defects are reported. Where ways meet, the most is known that is
known on all of them. -/
theorem allocationDefects_of_greatest_solution (linked : g.Linked) (indexed : g.Indexed) :
    ∃ order exits defects, g.reversePostOrder = .ok order ∧
      (∀ b, b ∈ order ↔ g.Reaches g.entry b) ∧
      Verify.settle g order (Verify.settleBound g) (Array.replicate g.blocks.size none) = .ok exits ∧
      Verify.Solves g order exits ∧
      (∀ other, Verify.Solves g order other → ∀ b ∈ order, ∃ k k', exits[b]? = some (some k) ∧
        other[b]? = some (some k') ∧ k'.Weaker k) ∧
      (∀ b < g.blocks.size, b ∉ order → exits[b]? = some none) ∧
      Verify.defectsFrom g order exits = .ok defects ∧ g.allocationDefects = .ok defects ∧
      ∀ j k k' : Knowledge, k.Firm → k'.Firm →
        (j.Weaker (k.meet k') ↔ j.Weaker k ∧ j.Weaker k') := by
  obtain ⟨order, ordered⟩ := reversePostOrder_total linked.entry fun _ _ => linked.target_lt
  have ranked := reversePostOrder_ranked ordered
  have enough : Verify.standing g (Array.replicate g.blocks.size none) < Verify.settleBound g := by
    rw [Verify.standing_start, Verify.length_places, Verify.settleBound]
    lia
  obtain ⟨exits, settled, descent, solves⟩ :=
    (Verify.Descent.at_start g order).settle_total linked indexed ranked enough
  obtain ⟨defects, found⟩ := solves.defects_total
  refine ⟨order, exits, defects, ordered, fun b => ranked.mem_iff.trans reaches_iff_route.symm,
    settled, solves, ?_, ?_, found, ?_, fun _ _ _ => Knowledge.weaker_meet_iff⟩
  · intro other solution b member
    obtain ⟨k, visited, -⟩ := solves.fixed b member
    obtain ⟨k', visited', weaker⟩ := descent.above other solution b k visited
    exact ⟨k, k', visited, visited', weaker⟩
  · intro b inside outside
    obtain ⟨out, isOut⟩ : ∃ out, exits[b]? = some out :=
      ⟨_, Array.getElem?_eq_getElem (solves.size ▸ inside)⟩
    cases out with
    | none => exact isOut
    | some k => exact absurd (descent.supported b k isOut).1 outside
  · rw [allocationDefects, ordered, ok_bind, settled, ok_bind]
    exact found

def fading : Graph :=
  { new "fading" .aarch64 with
    blocks := #[⟨[0, 1], [], [1]⟩, ⟨[2, 3, 4], [0, 1], [1, 2]⟩, ⟨[5], [1], []⟩]
    instrs := #[
      { ofOpcode .parameter 0 .int64 with
        results := [0], resultLocations := [.register 0] },
      .ofGroup 0 ⟨.phiMove, [⟨.register 0, .stackSlot 0, .int64⟩,
        ⟨.register 0, .stackSlot 1, .int64⟩], true⟩,
      { ofOpcode .phi 1 .int64 with
        inputs := [0, 1], results := [1], resultLocations := [.register 0] },
      .ofGroup 1 ⟨.phiMove, [⟨.stackSlot 1, .stackSlot 0, .int64⟩,
        ⟨.stackSlot 2, .stackSlot 1, .int64⟩], true⟩,
      { ofOpcode (.branch .eq) 1 .void with
        inputs := [1, 1], inputLocations := [.register 0, .register 0] },
      { ofOpcode .ret 2 .int64 with inputs := [1], inputLocations := [.register 0] }]
    values := #[⟨0, .int64⟩, ⟨2, .int64⟩]
    numSlots := 3 }

example : fading.allocationDefects = .ok
    [.unknownSource 3 (.stackSlot 1) .unknown, .unknownSource 3 (.stackSlot 2) .unknown] := by
  decide +kernel

theorem fading_settles : fading.Linked ∧ fading.Indexed ∧ ∃ order exits defects,
    Verify.settle fading order (Verify.settleBound fading) (Array.replicate 3 none) = .ok exits ∧
      Verify.Solves fading order exits ∧ Verify.defectsFrom fading order exits = .ok defects ∧
      fading.allocationDefects = .ok defects := by
  have linked : fading.Linked :=
    ⟨by decide, fun e => (by decide : fading.outEdges.Perm fading.inEdges).mem_iff⟩
  have indexed : fading.Indexed := ⟨by decide, by decide, by decide, by decide⟩
  obtain ⟨order, exits, defects, -, -, settled, solves, -, -, found, reported, -⟩ :=
    allocationDefects_of_greatest_solution linked indexed
  exact ⟨linked, indexed, order, exits, defects, settled, solves, found, reported⟩

end Graph

end RegisterAllocation
