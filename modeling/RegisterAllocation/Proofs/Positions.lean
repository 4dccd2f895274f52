import RegisterAllocation.Liveness.Numbering
import RegisterAllocation.Proofs.Validity

/-!
Positions of blocks and instructions. The blocks take up consecutive stretches of positions in
their order; in its stretch a block has its start first and then its instructions other than phis.
-/

namespace RegisterAllocation

open Array List Option Graph

namespace Graph

def phiAt (g : Graph) (i : InstrId) : Bool := g.instrs[i]?.any Instr.isPhi

theorem phiAt_eq {g : Graph} {i : InstrId} {x : Instr} (found : g.instrs[i]? = some x) :
    g.phiAt i = x.isPhi := by
  simp [phiAt, found]

def steps (g : Graph) (instrs : List InstrId) : List InstrId :=
  instrs.filter fun i => !g.phiAt i

def body (g : Graph) (b : BlockId) : List InstrId :=
  (g.blocks[b]?.map fun B => g.steps B.instrs).getD []

theorem body_eq {g : Graph} {b : BlockId} {B : Block} (stored : g.blocks[b]? = some B) :
    g.body b = g.steps B.instrs := by
  simp [body, stored]

/-- No instruction is listed twice among some blocks. -/
structure ListsOnce (g : Graph) (among : BlockId → Prop) : Prop where
  within : ∀ b B, among b → g.blocks[b]? = some B → B.instrs.Nodup
  across : ∀ b c B C i, among b → among c → g.blocks[b]? = some B → g.blocks[c]? = some C →
    i ∈ B.instrs → i ∈ C.instrs → b = c

theorem Consistent.lists_once {g : Graph} (consistent : g.Consistent) (among : BlockId → Prop) :
    g.ListsOnce among := by
  refine ⟨fun b B _ stored => consistent.block_nodup stored, ?_⟩
  intro b c B C i _ _ storedB storedC listedB listedC
  obtain ⟨x, found, rfl⟩ := consistent.instr_of_listed storedB listedB
  obtain ⟨y, found', rfl⟩ := consistent.instr_of_listed storedC listedC
  obtain rfl := mem_unique found found'
  rfl

end Graph

namespace Numbering

variable {g : Graph} {n m : Numbering} {b : BlockId} {i : InstrId} {start : Position}

def span (g : Graph) (blocks : List BlockId) : Nat :=
  (blocks.map fun b => 2 * ((g.body b).length + 1)).foldr (· + ·) 0

theorem span_append (xs ys : List BlockId) : span g (xs ++ ys) = span g xs + span g ys := by
  simp only [span, ← List.sum_eq_foldr, List.map_append, List.sum_append]

theorem span_cons (xs : List BlockId) :
    span g (b :: xs) = 2 * ((g.body b).length + 1) + span g xs := by
  simp [span]

theorem span_even (xs : List BlockId) : span g xs % 2 = 0 := by
  induction xs with
  | nil => rfl
  | cons b rest ih =>
    rw [span_cons]
    omega

def entries (g : Graph) (blocks : List BlockId) : List (Option InstrId) :=
  blocks.flatMap fun b => none :: (g.body b).map some

theorem length_entries (xs : List BlockId) : 2 * (entries g xs).length = span g xs := by
  induction xs with
  | nil => rfl
  | cons b rest ih =>
    rw [span_cons, ← ih]
    simp only [entries, flatMap_cons, length_append, length_cons, length_map]
    omega

theorem next_push (n : Numbering) (numbers : Array (Option Position)) (e : Option InstrId) :
    ({ n with numbers, timeline := n.timeline.push e } : Numbering).next = n.next + 2 := by
  simp only [next, size_push]
  lia

theorem addInstrs_ok {instrs : List InstrId} (once : instrs.Nodup)
    (size : n.numbers.size = g.instrs.size)
    (run : instrs.foldlM (addInstr g start) n = .ok m) :
    m.order = n.order ∧ m.ranges = n.ranges ∧ m.numbers.size = n.numbers.size ∧
    m.timeline.toList = n.timeline.toList ++ (g.steps instrs).map some ∧
    (∀ j ∉ instrs, m.numbers[j]? = n.numbers[j]?) ∧
    (∀ j ∈ instrs, g.phiAt j = true → m.numbers[j]? = some (some start)) ∧
    ∀ (k : Nat) (j : InstrId), (g.steps instrs)[k]? = some j →
      m.numbers[j]? = some (some (n.next + 2 * k)) := by
  induction instrs generalizing n with
  | nil =>
    obtain rfl : n = m := by simpa using run
    simp [Graph.steps]
  | cons i rest ih =>
    obtain ⟨next, first, run⟩ := foldlM_cons_ok.mp run
    rw [addInstr, bind_ok] at first
    obtain ⟨x, found, first⟩ := first
    have isPhi := Graph.phiAt_eq (instr_ok.mp found)
    obtain ⟨notAgain, once⟩ := nodup_cons.mp once
    have bound : i < n.numbers.size :=
      size ▸ (found_lt (instr_ok.mp found))
    cases phi : x.isPhi with
    | true =>
      rw [phi, if_pos rfl, pure_ok] at first
      subst first
      have steps : g.steps (i :: rest) = g.steps rest := by
        simp [Graph.steps, isPhi, phi]
      obtain ⟨order, ranges, sameSize, timeline, others, phis, numbers⟩ :=
        ih once (by simpa using size) run
      rw [steps]
      refine ⟨order, ranges, by simpa using sameSize, timeline, ?_, ?_, numbers⟩
      · intro j hj
        rw [mem_cons, not_or] at hj
        rw [others j hj.2, getElem?_setIfInBounds_ne (Ne.symm hj.1)]
      · intro j hj phiJ
        rcases mem_cons.mp hj with rfl | hj
        · rw [others j notAgain]
          simp [bound]
        · exact phis j hj phiJ
    | false =>
      rw [phi, if_neg (by simp), pure_ok] at first
      subst first
      have steps : g.steps (i :: rest) = i :: g.steps rest := by
        simp [Graph.steps, isPhi, phi]
      obtain ⟨order, ranges, sameSize, timeline, others, phis, numbers⟩ :=
        ih once (by simpa using size) run
      rw [steps]
      refine ⟨order, ranges, by simpa using sameSize, by simpa using timeline, ?_, ?_, ?_⟩
      · intro j hj
        rw [mem_cons, not_or] at hj
        rw [others j hj.2, getElem?_setIfInBounds_ne (Ne.symm hj.1)]
      · intro j hj phiJ
        rcases mem_cons.mp hj with rfl | hj
        · simp [isPhi, phi] at phiJ
        · exact phis j hj phiJ
      · intro k j listed
        cases k with
        | zero =>
          obtain rfl : i = j := by simpa using listed
          rw [others i notAgain]
          simp [bound]
        | succ k =>
          rw [numbers k j (by simpa using listed), next_push, Nat.mul_succ, Nat.add_assoc,
            Nat.add_comm 2]

structure SoFar (g : Graph) (done : List BlockId) (n : Numbering) : Prop where
  ranges : n.ranges.size = g.blocks.size
  numbers : n.numbers.size = g.instrs.size
  timeline : n.timeline.toList = entries g done
  range : ∀ before b after, done = before ++ b :: after →
    n.ranges[b]? = some (some ⟨span g before, span g (before ++ [b])⟩)
  phi : ∀ before b after B, done = before ++ b :: after → g.blocks[b]? = some B →
    ∀ i ∈ B.instrs, g.phiAt i = true → n.numbers[i]? = some (some (span g before))
  number : ∀ before b after, done = before ++ b :: after → ∀ (k : Nat) (i : InstrId),
    (g.body b)[k]? = some i → n.numbers[i]? = some (some (span g before + 2 * (k + 1)))

theorem SoFar.next_eq {done : List BlockId} (laid : SoFar g done n) : n.next = span g done := by
  rw [next, ← length_entries, ← laid.timeline, Array.length_toList]

theorem mem_of_body {B : Block} (stored : g.blocks[b]? = some B) {k : Nat}
    (listed : (g.body b)[k]? = some i) : i ∈ B.instrs ∧ g.phiAt i = false := by
  rw [Graph.body_eq stored] at listed
  simpa [Graph.steps] using mem_of_getElem? listed

theorem SoFar.after_addBlock {done order : List BlockId} (once : g.ListsOnce (· ∈ order))
    (laid : SoFar g done n) (fresh : b ∉ done) (member : b ∈ order) (subset : done ⊆ order)
    (stored : ∀ c ∈ order, ∃ C, g.blocks[c]? = some C) (run : n.addBlock g b = .ok m) :
    m.order = n.order ∧ SoFar g (done ++ [b]) m := by
  simp only [addBlock, bind_ok, block_ok, ensure_ok, pure_ok] at run
  obtain ⟨B, storedB, filled, run, _, -, rfl⟩ := run
  obtain ⟨order, ranges, size, timeline, others, phis, numbers⟩ :=
    addInstrs_ok (once.within b B member storedB) (by exact laid.numbers) run
  dsimp only at order ranges size timeline others phis numbers
  have body := Graph.body_eq storedB
  have opened : ({ n with timeline := n.timeline.push none } : Numbering).next =
      span g done + 2 := by
    rw [← laid.next_eq]
    exact next_push n n.numbers none
  have line : filled.timeline.toList = entries g (done ++ [b]) := by
    rw [timeline, toList_push, laid.timeline]
    simp [entries, body]
  have closed : filled.next = span g (done ++ [b]) := by
    rw [next, ← length_entries, ← line, Array.length_toList]
  have blockInside : b < filled.ranges.size := by
    rw [ranges, laid.ranges]
    exact found_lt storedB
  -- the blocks done before keep what they have
  have elsewhere : ∀ before c after, done ++ [b] = before ++ c :: after →
      (c = b ∧ before = done) ∨ ∃ shorter, done = before ++ c :: shorter := by
    intro before c after split
    rcases append_eq_append_iff.mp split with ⟨more, rfl, last⟩ | ⟨more, rfl, last⟩
    · cases more with
      | nil =>
        simp only [nil_append, cons.injEq] at last
        exact .inl ⟨last.1.symm, by simp⟩
      | cons d more => simp at last
    · cases more with
      | nil =>
        simp only [nil_append, cons.injEq] at last
        exact .inl ⟨last.1, by simp⟩
      | cons d more =>
        simp only [cons_append, cons.injEq] at last
        obtain ⟨rfl, -⟩ := last
        exact .inr ⟨more, rfl⟩
  have kept : ∀ c ∈ done, ∀ C, g.blocks[c]? = some C → ∀ j ∈ C.instrs, j ∉ B.instrs := by
    intro c hc C storedC j hj again
    exact fresh (once.across c b C B j (subset hc) member storedC storedB hj again ▸ hc)
  refine ⟨order, ?_, ?_, ?_, ?_, ?_, ?_⟩
  · simpa [ranges] using laid.ranges
  · exact size.trans laid.numbers
  · exact line
  · intro before c after split
    rcases elsewhere before c after split with ⟨rfl, rfl⟩ | ⟨shorter, earlier⟩
    · rw [closed, laid.next_eq]
      simp [blockInside]
    · have other : b ≠ c := fun same => fresh (by simp [earlier, same])
      rw [getElem?_setIfInBounds_ne other, ranges]
      exact laid.range before c shorter earlier
  · intro before c after C split storedC i hi phi
    rcases elsewhere before c after split with ⟨rfl, rfl⟩ | ⟨shorter, earlier⟩
    · obtain rfl : B = C := by simpa [storedB] using storedC
      rw [phis i hi phi, laid.next_eq]
    · have among : c ∈ done := by simp [earlier]
      rw [others i (kept c among C storedC i hi)]
      exact laid.phi before c shorter C earlier storedC i hi phi
  · intro before c after split k i listed
    rcases elsewhere before c after split with ⟨rfl, rfl⟩ | ⟨shorter, earlier⟩
    · rw [numbers k i (body ▸ listed), opened]
      simp only [some.injEq]
      lia
    · have among : c ∈ done := by simp [earlier]
      obtain ⟨C, storedC⟩ := stored c (subset among)
      rw [others i (kept c among C storedC i (mem_of_body storedC listed).1)]
      exact laid.number before c shorter earlier k i listed

theorem addBlocks_ok {done rest order : List BlockId} (once : g.ListsOnce (· ∈ order))
    (nodup : order.Nodup) (stored : ∀ c ∈ order, ∃ C, g.blocks[c]? = some C)
    (split : order = done ++ rest) (laid : SoFar g done n)
    (run : rest.foldlM (addBlock g) n = .ok m) :
    m.order = n.order ∧ SoFar g order m := by
  induction rest generalizing done n with
  | nil =>
    obtain rfl : n = m := by simpa using run
    exact ⟨rfl, by simpa [split] using laid⟩
  | cons b rest ih =>
    obtain ⟨next, first, run⟩ := foldlM_cons_ok.mp run
    have fresh : b ∉ done := by
      intro again
      exact (nodup_append.mp (split ▸ nodup)).2.2 b again b mem_cons_self rfl
    obtain ⟨sameOrder, laid⟩ :=
      laid.after_addBlock once fresh (by simp [split]) (by simp [split]) stored first
    obtain ⟨order, laid⟩ := ih (by simp [split]) laid run
    exact ⟨order.trans sameOrder, laid⟩

theorem getElem_entries {blocks : List BlockId} {j : Nat} :
    (entries g blocks)[j]? = some (some i) ↔ ∃ before b after k, blocks = before ++ b :: after ∧
      (g.body b)[k]? = some i ∧ 2 * j = span g before + 2 * (k + 1) := by
  induction blocks generalizing j with
  | nil => simp [entries]
  | cons b rest ih =>
    have unfolded : entries g (b :: rest) = none :: ((g.body b).map some ++ entries g rest) := by
      simp [entries]
    rw [unfolded]
    constructor
    · intro listed
      cases j with
      | zero => simp at listed
      | succ j =>
        rw [getElem?_cons_succ] at listed
        by_cases here : j < (g.body b).length
        · rw [getElem?_append_left (by simpa using here)] at listed
          exact ⟨[], b, rest, j, rfl, by simpa using listed, by simp [span]⟩
        · rw [getElem?_append_right (by simpa using here), length_map] at listed
          obtain ⟨before, c, after, k, rfl, found, pos⟩ := ih.mp listed
          refine ⟨b :: before, c, after, k, rfl, found, ?_⟩
          rw [span_cons]
          omega
    · rintro ⟨before, c, after, k, split, found, pos⟩
      cases before with
      | nil =>
        obtain ⟨rfl, rfl⟩ := cons.inj split
        obtain rfl : j = k + 1 := by simp [span] at pos; omega
        have here : k < (g.body b).length := listed_lt found
        rw [getElem?_cons_succ, getElem?_append_left (by simpa using here)]
        simpa using found
      | cons d before =>
        obtain ⟨rfl, rfl⟩ := cons.inj split
        rw [span_cons] at pos
        obtain ⟨l, rfl⟩ : ∃ l, j = (g.body b).length + l + 1 :=
          ⟨j - (g.body b).length - 1, by omega⟩
        have later : (entries g (before ++ c :: after))[l]? = some (some i) :=
          ih.mpr ⟨before, c, after, k, rfl, found, by omega⟩
        rw [getElem?_cons_succ, List.getElem?_append_right (by simp)]
        simpa using later

structure Numbered (g : Graph) (n : Numbering) : Prop where
  ordered : g.reversePostOrder = .ok n.order
  place : ∀ before b after, n.order = before ++ b :: after →
    n.rangeOf? b = some ⟨span g before, span g (before ++ [b])⟩
  range : ∀ b ∈ n.order, ∃ r, n.rangeOf? b = some r ∧ r.start % 2 = 0 ∧
    r.stop = r.start + 2 * ((g.body b).length + 1)
  apart : ∀ b c rb rc, c ∈ n.order → n.order.idxOf b < n.order.idxOf c →
    n.rangeOf? b = some rb → n.rangeOf? c = some rc → rb.stop ≤ rc.start
  phi : ∀ b B r, b ∈ n.order → g.blocks[b]? = some B → n.rangeOf? b = some r →
    ∀ i ∈ B.instrs, g.phiAt i = true → n.numberOf? i = some r.start
  number : ∀ b r, b ∈ n.order → n.rangeOf? b = some r → ∀ (k : Nat) (i : InstrId),
    (g.body b)[k]? = some i → n.numberOf? i = some (r.start + 2 * (k + 1))
  instrAt : ∀ pos i, n.instrAt? pos = some i ↔ ∃ b r k, b ∈ n.order ∧ n.rangeOf? b = some r ∧
    (g.body b)[k]? = some i ∧ pos = r.start + 2 * (k + 1)

theorem split_of_range {r : Range} (place : ∀ before b after, n.order = before ++ b :: after →
      n.rangeOf? b = some ⟨span g before, span g (before ++ [b])⟩)
    (member : b ∈ n.order) (found : n.rangeOf? b = some r) :
    ∃ before after, n.order = before ++ b :: after ∧
      r = ⟨span g before, span g (before ++ [b])⟩ := by
  obtain ⟨before, after, split⟩ := append_of_mem member
  rw [place before b after split, some.injEq] at found
  exact ⟨before, after, split, found.symm⟩

theorem numbered_of_listsOnce
    (once : ∀ order, g.reversePostOrder = .ok order → g.ListsOnce (· ∈ order))
    (run : ofGraph g = .ok n) : Numbered g n := by
  rw [ofGraph, bind_ok] at run
  obtain ⟨order, ordered, run⟩ := run
  have known := reversePostOrder_ok ordered
  have start : SoFar g [] ⟨order, Array.replicate g.blocks.size none,
      Array.replicate g.instrs.size none, #[]⟩ := by
    constructor <;> simp [entries]
  obtain ⟨sameOrder, laid⟩ := addBlocks_ok (once order ordered) known.once
    known.stored rfl start run
  dsimp only at sameOrder
  subst sameOrder
  have place : ∀ before b after, n.order = before ++ b :: after →
      n.rangeOf? b = some ⟨span g before, span g (before ++ [b])⟩ := by
    intro before b after split
    rw [rangeOf?, laid.range before b after split, join_some]
  refine ⟨ordered, place, ?_, ?_, ?_, ?_, ?_⟩
  · intro b member
    obtain ⟨before, after, split⟩ := append_of_mem member
    refine ⟨_, place before b after split, span_even before, ?_⟩
    rw [span_append, span_cons]
    simp [span]
  · intro b c rb rc member earlier foundB foundC
    obtain ⟨before, after, split, rfl⟩ := split_of_range place member foundC
    have among : b ∈ before := by
      rw [split] at earlier known
      have apart := (nodup_append.mp known.once).2.2
      have new : c ∉ before := fun again => apart c again c mem_cons_self rfl
      rw [idxOf_append_of_notMem new, idxOf_cons_self] at earlier
      by_contra missing
      rw [idxOf_append_of_notMem missing] at earlier
      omega
    obtain ⟨first, second, rfl⟩ := append_of_mem among
    rw [place first b (second ++ c :: after) (by simp [split]), some.injEq] at foundB
    subst foundB
    dsimp only
    rw [append_cons first b second, span_append (first ++ [b]) second]
    exact Nat.le_add_right _ _
  · intro b B r member stored found i hi phi
    obtain ⟨before, after, split, rfl⟩ := split_of_range place member found
    rw [numberOf?, laid.phi before b after B split stored i hi phi, join_some]
  · intro b r member found k i listed
    obtain ⟨before, after, split, rfl⟩ := split_of_range place member found
    rw [numberOf?, laid.number before b after split k i listed, join_some]
  · intro pos i
    have line : n.instrAt? pos = some i ↔
        pos % 2 = 0 ∧ (entries g n.order)[pos / 2]? = some (some i) := by
      rw [instrAt?, ← laid.timeline, getElem?_toList]
      split
      · simp_all [join_eq_some_iff]
      · simp_all
    rw [line, getElem_entries]
    constructor
    · rintro ⟨even, before, b, after, k, split, listed, same⟩
      refine ⟨b, _, k, by simp [split], place before b after split, listed, ?_⟩
      dsimp only
      lia
    · rintro ⟨b, r, k, member, found, listed, rfl⟩
      obtain ⟨before, after, split, rfl⟩ := split_of_range place member found
      have even := span_even (g := g) before
      exact ⟨by dsimp only; lia, before, b, after, k, split, listed, by dsimp only; lia⟩

theorem numbered_ofGraph (consistent : g.Consistent) (run : ofGraph g = .ok n) : Numbered g n :=
  numbered_of_listsOnce (fun _ _ => consistent.lists_once _) run

theorem Numbered.instrAt_plain (numbered : Numbered g n) (consistent : g.Consistent)
    {pos : Position} (isAt : n.instrAt? pos = some i) :
    i < g.instrs.size ∧ g.phiAt i = false := by
  obtain ⟨b, r, k, member, -, listed, -⟩ := (numbered.instrAt pos i).mp isAt
  obtain ⟨B, stored⟩ := (reversePostOrder_ok numbered.ordered).stored b member
  obtain ⟨among, notPhi⟩ := mem_of_body stored listed
  obtain ⟨x, found, -⟩ := consistent.instr_of_listed stored among
  exact ⟨(found_lt found), notPhi⟩

theorem Numbered.numberOf_instrAt (numbered : Numbered g n) {pos : Position}
    (isAt : n.instrAt? pos = some i) : n.numberOf? i = some pos := by
  obtain ⟨b, r, k, member, range, listed, rfl⟩ := (numbered.instrAt pos i).mp isAt
  exact numbered.number b r member range k i listed

namespace Numbered

variable {B : Block} {r : Range} {before after : List InstrId} {j : InstrId} {p q : Position}

section

variable (numbered : Numbered g n) (member : b ∈ n.order) (stored : g.blocks[b]? = some B)
  (range : n.rangeOf? b = some r)

include numbered member stored range

theorem number_plain (split : B.instrs = before ++ i :: after) (plain : g.phiAt i = false) :
    n.numberOf? i = some (r.start + 2 * ((g.steps before).length + 1)) ∧
      r.start + 2 * ((g.steps before).length + 1) < r.stop := by
  have body : g.body b = g.steps before ++ i :: g.steps after := by
    simp [Graph.body_eq stored, split, Graph.steps, plain]
  obtain ⟨r', range', -, stop⟩ := numbered.range b member
  obtain rfl := mem_unique range range'
  have listed : (g.body b)[(g.steps before).length]? = some i := by
    simp [body]
  refine ⟨numbered.number b r member range _ i listed, ?_⟩
  rw [body, length_append, length_cons] at stop
  lia

theorem number_lt
    (split : B.instrs = before ++ i :: after) (plain : g.phiAt i = false) (later : j ∈ after)
    (plainJ : g.phiAt j = false) (atI : n.numberOf? i = some p) (atJ : n.numberOf? j = some q) :
    p < q := by
  obtain ⟨mid, last, rfl⟩ := append_of_mem later
  have splitJ : B.instrs = (before ++ i :: mid) ++ j :: last := by simp [split]
  have isP := (numbered.number_plain member stored range split plain).1
  have isQ := (numbered.number_plain member stored range splitJ plainJ).1
  have longer : (g.steps (before ++ i :: mid)).length =
      (g.steps before).length + 1 + (g.steps mid).length := by
    simp [Graph.steps, plain]
    omega
  rw [atI, some.injEq] at isP
  rw [atJ, some.injEq, longer] at isQ
  lia

theorem number_mem (listed : i ∈ B.instrs) :
    ∃ p, n.numberOf? i = some p ∧ r.start ≤ p ∧ p < r.stop ∧ p % 2 = 0 ∧
      (if g.phiAt i then p = r.start else r.start < p) := by
  obtain ⟨r', range', even, stop⟩ := numbered.range b member
  obtain rfl := mem_unique range range'
  cases phi : g.phiAt i with
  | true =>
    refine ⟨r.start, numbered.phi b B r member stored range i listed phi, Nat.le_refl _, ?_,
      even, by simp⟩
    lia
  | false =>
    obtain ⟨before, after, split⟩ := append_of_mem listed
    obtain ⟨isAt, inside⟩ := numbered.number_plain member stored range split phi
    refine ⟨_, isAt, ?_, inside, ?_, ?_⟩
    · lia
    · lia
    · simp only [Bool.false_eq_true, ↓reduceIte]
      lia

theorem number_inj (listed : i ∈ B.instrs)
    (listedJ : j ∈ B.instrs) (inner : r.start < p) (atI : n.numberOf? i = some p)
    (atJ : n.numberOf? j = some p) : i = j := by
  have plain : ∀ k ∈ B.instrs, n.numberOf? k = some p → g.phiAt k = false := by
    intro k listed atK
    obtain ⟨p', atK', -, -, -, place⟩ := numbered.number_mem member stored range listed
    obtain rfl := mem_unique atK atK'
    cases phi : g.phiAt k with
    | false => rfl
    | true =>
      simp only [phi, ↓reduceIte] at place
      lia
  by_contra other
  obtain ⟨before, after, split⟩ := append_of_mem listed
  have among := listedJ
  rw [split] at among
  rcases mem_append.mp among with early | late
  · obtain ⟨before', after', rfl⟩ := append_of_mem early
    have splitJ : B.instrs = before' ++ j :: (after' ++ i :: after) := by simp [split]
    have := numbered.number_lt member stored range splitJ (plain j listedJ atJ) (by simp)
      (plain i listed atI) atJ atI
    lia
  · have := numbered.number_lt member stored range split (plain i listed atI)
      ((mem_cons.mp late).resolve_left (Ne.symm other)) (plain j listedJ atJ) atI atJ
    lia

end

theorem block_unique (numbered : Numbered g n) {c : BlockId} {s : Range}
    (member : b ∈ n.order) (memberC : c ∈ n.order)
    (range : n.rangeOf? b = some r) (rangeC : n.rangeOf? c = some s) (low : r.start ≤ q)
    (high : q < r.stop) (lowC : s.start ≤ q) (highC : q < s.stop) : b = c := by
  rcases Nat.lt_trichotomy (n.order.idxOf b) (n.order.idxOf c) with less | same | more
  · have := numbered.apart b c r s memberC less range rangeC
    lia
  · exact (idxOf_inj member).mp same
  · have := numbered.apart c b s r member more rangeC range
    lia

end Numbered

end Numbering

end RegisterAllocation
