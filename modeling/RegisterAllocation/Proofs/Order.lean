import Mathlib.Data.List.Nodup
import RegisterAllocation.Graph.Order
import RegisterAllocation.Proofs.Outcome

/-!
The blocks of a reverse post order: each one once, the entry among them, and with a block all its
successors.

During the walk the blocks seen are those on the stack and those finished. A block on the stack has
all its successors seen, or still to be tried.
-/

namespace RegisterAllocation

open List

namespace Graph

variable {g : Graph} {b s : BlockId} {seen finished order : List BlockId}
  {stack : List (BlockId × List BlockId)}

theorem block_ok {B : Block} : g.block b = .ok B ↔ g.blocks[b]? = some B := need_eq_ok

theorem instr_ok {i : InstrId} {x : Instr} : g.instr i = .ok x ↔ g.instrs[i]? = some x := need_eq_ok

theorem value_ok {v : ValueId} {d : Definition} : g.value v = .ok d ↔ g.values[v]? = some d :=
  need_eq_ok

def SuccsWithin (g : Graph) (b : BlockId) (list : List BlockId) : Prop :=
  ∀ B, g.blocks[b]? = some B → ∀ s ∈ B.succs, s ∈ list

theorem SuccsWithin.mono {list more : List BlockId} (h : g.SuccsWithin b list)
    (grows : ∀ s ∈ list, s ∈ more) : g.SuccsWithin b more :=
  fun B found s hs => grows s (h B found s hs)

structure Walking (g : Graph) (seen : List BlockId) (stack : List (BlockId × List BlockId))
    (finished : List BlockId) : Prop where
  once : (stack.map Prod.fst ++ finished).Nodup
  mem_seen : ∀ b, b ∈ seen ↔ b ∈ stack.map Prod.fst ∨ b ∈ finished
  stored : ∀ b ∈ seen, ∃ B, g.blocks[b]? = some B
  open_succs : ∀ top ∈ stack, g.SuccsWithin top.1 (top.2 ++ seen)
  closed_succs : ∀ b ∈ finished, g.SuccsWithin b seen

namespace Walking

theorem after_finish (w : Walking g seen ((b, []) :: stack) finished) :
    Walking g seen stack (b :: finished) := by
  refine ⟨?_, ?_, w.stored, ?_, ?_⟩
  · exact perm_middle.nodup_iff.mpr w.once
  · intro c
    rw [w.mem_seen]
    simp only [map_cons, mem_cons]
    tauto
  · intro top htop
    exact w.open_succs top (mem_cons_of_mem _ htop)
  · intro c hc
    rcases mem_cons.mp hc with rfl | hc
    · exact w.open_succs (c, []) mem_cons_self
    · exact w.closed_succs c hc

theorem after_skip {succs : List BlockId} (w : Walking g seen ((b, s :: succs) :: stack) finished)
    (known : s ∈ seen) : Walking g seen ((b, succs) :: stack) finished := by
  refine ⟨w.once, w.mem_seen, w.stored, ?_, w.closed_succs⟩
  intro top htop
  rcases mem_cons.mp htop with rfl | htop
  · refine (w.open_succs (b, s :: succs) mem_cons_self).mono ?_
    intro c hc
    rcases mem_cons.mp hc with rfl | hc
    · exact mem_append_right _ known
    · exact hc
  · exact w.open_succs top (mem_cons_of_mem _ htop)

theorem after_descend {succs : List BlockId} {S : Block}
    (w : Walking g seen ((b, s :: succs) :: stack) finished) (fresh : s ∉ seen)
    (found : g.blocks[s]? = some S) :
    Walking g (s :: seen) ((s, S.succs) :: (b, succs) :: stack) finished := by
  have outside : s ∉ ((b, succs) :: stack).map Prod.fst ++ finished := by
    intro h
    rcases mem_append.mp h with h | h
    · exact fresh ((w.mem_seen s).mpr (.inl h))
    · exact fresh ((w.mem_seen s).mpr (.inr h))
  refine ⟨nodup_cons.mpr ⟨outside, w.once⟩, ?_, ?_, ?_, ?_⟩
  · intro c
    rw [mem_cons, w.mem_seen]
    simp only [map_cons, mem_cons]
    tauto
  · intro c hc
    rcases mem_cons.mp hc with rfl | hc
    · exact ⟨S, found⟩
    · exact w.stored c hc
  · intro top htop
    rcases mem_cons.mp htop with rfl | htop
    · intro B foundB c hc
      obtain rfl : S = B := by simpa [found] using foundB
      exact mem_append_left _ hc
    rcases mem_cons.mp htop with rfl | htop
    · refine (w.open_succs (b, s :: succs) mem_cons_self).mono ?_
      intro c hc
      simp only [cons_append, mem_cons, mem_append] at hc ⊢
      tauto
    · refine (w.open_succs top (mem_cons_of_mem _ htop)).mono ?_
      intro c hc
      simp only [mem_cons, mem_append] at hc ⊢
      tauto
  · intro c hc
    exact (w.closed_succs c hc).mono fun d hd => mem_cons_of_mem s hd

end Walking

theorem walk_ok {bound : Nat} (w : Walking g seen stack finished)
    (h : g.walk bound seen stack finished = .ok order) :
    ∃ last, Walking g last [] order ∧ ∀ b ∈ seen, b ∈ last := by
  fun_induction walk g bound seen stack finished with
  | case1 bound seen finished =>
    obtain rfl : finished = order := by simpa using h
    exact ⟨seen, w, fun _ hb => hb⟩
  | case2 => simp at h
  | case3 bound seen b stack finished ih => exact ih w.after_finish h
  | case4 bound seen b s succs stack finished known ih => exact ih (w.after_skip known) h
  | case5 bound seen b s succs stack finished fresh ih =>
    rw [bind_ok] at h
    obtain ⟨S, found, h⟩ := h
    obtain ⟨last, done, grown⟩ := ih S (w.after_descend fresh (block_ok.mp found)) h
    exact ⟨last, done, fun c hc => grown c (mem_cons_of_mem s hc)⟩

structure Ordered (g : Graph) (order : List BlockId) : Prop where
  once : order.Nodup
  entry : g.entry ∈ order
  stored : ∀ b ∈ order, ∃ B, g.blocks[b]? = some B
  closed : ∀ b ∈ order, g.SuccsWithin b order

theorem walking_start {E : Block} (stored : g.blocks[g.entry]? = some E) :
    Walking g [g.entry] [(g.entry, E.succs)] [] := by
  refine ⟨by simp, by simp, ?_, ?_, by simp⟩
  · intro b hb
    obtain rfl : b = g.entry := by simpa using hb
    exact ⟨E, stored⟩
  · intro top htop
    obtain rfl : top = (g.entry, E.succs) := by simpa using htop
    intro B foundB c hc
    obtain rfl : E = B := by simpa [stored] using foundB
    exact mem_append_left _ hc

theorem reversePostOrder_ok (h : g.reversePostOrder = .ok order) : g.Ordered order := by
  rw [reversePostOrder, bind_ok] at h
  obtain ⟨E, found, h⟩ := h
  obtain ⟨last, done, grown⟩ := walk_ok (walking_start (block_ok.mp found)) h
  have same : ∀ b, b ∈ last ↔ b ∈ order := by simpa using done.mem_seen
  refine ⟨by simpa using done.once, ?_, ?_, ?_⟩
  · exact (same _).mp (grown _ (by simp))
  · exact fun b hb => done.stored b ((same b).mpr hb)
  · exact fun b hb => (done.closed_succs b hb).mono fun c hc => (same c).mp hc

theorem walk_head {bound : Nat} {bottom : BlockId}
    (h : g.walk bound seen stack finished = .ok order)
    (last : (stack.map Prod.fst).getLast? = some bottom) : order.head? = some bottom := by
  fun_induction walk g bound seen stack finished with
  | case1 => simp at last
  | case2 => simp at h
  | case3 bound seen b stack finished ih =>
    cases stack with
    | nil =>
      obtain rfl : b = bottom := by simpa using last
      have done : g.walk bound seen [] (b :: finished) = .ok (b :: finished) := by
        cases bound <;> rfl
      obtain rfl := Except.ok.inj (done.symm.trans h)
      rfl
    | cons top rest => exact ih h last
  | case4 bound seen b s succs stack finished known ih => exact ih h last
  | case5 bound seen b s succs stack finished fresh ih =>
    obtain ⟨S, -, h⟩ := bind_ok.mp h
    exact ih S h last

theorem reversePostOrder_head (h : g.reversePostOrder = .ok order) :
    order.head? = some g.entry := by
  obtain ⟨E, -, h⟩ := bind_ok.mp h
  exact walk_head h rfl

def Descends (g : Graph) (entry : BlockId) (blocks : List BlockId) : Prop :=
  ∀ before s after, blocks = before ++ s :: after →
    s = entry ∨ ∃ b ∈ before, ∃ B, g.blocks[b]? = some B ∧ s ∈ B.succs

theorem Descends.after_insert {entry : BlockId} {first second : List BlockId} {B : Block}
    (d : Descends g entry (first ++ second)) (member : b ∈ first) (stored : g.blocks[b]? = some B)
    (succ : s ∈ B.succs) : Descends g entry (first ++ s :: second) := by
  intro before c after split
  rcases append_eq_append_iff.mp split with ⟨more, rfl, rest⟩ | ⟨more, rfl, rest⟩
  · cases more with
    | nil =>
      obtain ⟨rfl, -⟩ := cons.inj rest
      exact .inr ⟨b, by simpa using member, B, stored, succ⟩
    | cons t more =>
      obtain ⟨rfl, rfl⟩ := cons.inj rest
      refine (d (first ++ more) c after (by simp)).imp_right ?_
      rintro ⟨p, hp, found⟩
      refine ⟨p, ?_, found⟩
      simp only [mem_append, mem_cons] at hp ⊢
      tauto
  · cases more with
    | nil =>
      obtain ⟨rfl, -⟩ := cons.inj rest
      exact .inr ⟨b, by simpa using member, B, stored, succ⟩
    | cons t more =>
      obtain ⟨rfl, rfl⟩ := cons.inj rest
      exact d before c (more ++ second) (by simp)

theorem walk_descends {bound : Nat} {entry : BlockId}
    (d : Descends g entry ((stack.map Prod.fst).reverse ++ finished))
    (tried : ∀ top ∈ stack, ∃ B, g.blocks[top.1]? = some B ∧ ∀ s ∈ top.2, s ∈ B.succs)
    (h : g.walk bound seen stack finished = .ok order) : Descends g entry order := by
  fun_induction walk g bound seen stack finished with
  | case1 bound seen finished =>
    obtain rfl : finished = order := by simpa using h
    simpa using d
  | case2 => simp at h
  | case3 bound seen b stack finished ih =>
    exact ih (by simpa using d) (fun top htop => tried top (mem_cons_of_mem _ htop)) h
  | case4 bound seen b s succs stack finished known ih =>
    refine ih (by simpa using d) ?_ h
    intro top htop
    rcases mem_cons.mp htop with rfl | htop
    · obtain ⟨B, stored, all⟩ := tried _ mem_cons_self
      exact ⟨B, stored, fun t ht => all t (mem_cons_of_mem s ht)⟩
    · exact tried top (mem_cons_of_mem _ htop)
  | case5 bound seen b s succs stack finished fresh ih =>
    rw [bind_ok] at h
    obtain ⟨S, found, h⟩ := h
    obtain ⟨B, stored, all⟩ := tried _ mem_cons_self
    refine ih S ?_ ?_ h
    · have grown := d.after_insert (s := s) (b := b) (by simp) stored (all s mem_cons_self)
      simpa using grown
    · intro top htop
      rcases mem_cons.mp htop with rfl | htop
      · exact ⟨S, block_ok.mp found, fun t ht => ht⟩
      rcases mem_cons.mp htop with rfl | htop
      · exact ⟨B, stored, fun t ht => all t (mem_cons_of_mem s ht)⟩
      · exact tried top (mem_cons_of_mem _ htop)

theorem reversePostOrder_descends (h : g.reversePostOrder = .ok order) :
    Descends g g.entry order := by
  obtain ⟨E, found, h⟩ := bind_ok.mp h
  refine walk_descends ?_ ?_ h
  · intro before s after split
    cases before with
    | nil => exact .inl (cons.inj split).1.symm
    | cons t before => simp at split
  · intro top htop
    obtain rfl : top = (g.entry, E.succs) := by simpa using htop
    exact ⟨E, block_ok.mp found, fun s hs => hs⟩

end Graph

end RegisterAllocation
