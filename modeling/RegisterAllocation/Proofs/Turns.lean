import RegisterAllocation.Proofs.Sufficiency

/-!
The loop of a scan ends, and never goes back. Its queue is in the order of starts all the time, and
whoever is queued in a turn starts behind the interval that the turn places. The loop stops early
for want of registers or stack slots only.
-/

namespace RegisterAllocation

namespace Scan

/-- The states between the turns of the loop, with the number of turns and the position reached. -/
inductive Turns (c : Pass) (start : Scan) : Nat → Position → Scan → Prop where
  | enter : Turns c start 0 0 start
  | place {n : Nat} {pos : Position} {s s' : Scan} {id : IntervalId} {rest : List IntervalId}
      {i : Interval} (before : Turns c start n pos s) (isQueue : s.queue = id :: rest)
      (found : s.pool.intervals[id]? = some i)
      (placed : placeNext c { s with queue := rest } id = .ok s') : Turns c start (n + 1) i.start s'

variable {c : Pass} {arrivals : Arrivals} {start : Scan} {base first : IntervalPool}
  {top pos : Position} {s s' : Scan} {rest : List IntervalId} {id : IntervalId} {n bound : Nat}

theorem Turns.after_drain (turns : Turns c start n pos s) (run : drain c bound pos s = .ok s') :
    s'.queue = [] ∧ ∃ n' pos', Turns c start n' pos' s' := by
  obtain ⟨pos', ⟨n', after⟩, isQueue⟩ := drain_keeps (P := fun pos s => ∃ n, Turns c start n pos s)
    (fun _ _ _ _ s _ ⟨n, turns⟩ isQueue isStart _ placed => by
      simp only [Scan.start, bind_ok, IntervalPool.get_ok, pure_ok] at isStart
      obtain ⟨i, found, rfl⟩ := isStart
      exact ⟨n + 1, turns.place isQueue found placed⟩) ⟨n, turns⟩ run
  exact ⟨isQueue, n', pos', after⟩

/-- The queue is in order, nothing in it starts before the position reached, and the interval at its
head can be placed, if there are registers and slots. Whoever is queued then starts behind it. -/
structure Onward (c : Pass) (pos : Position) (s : Scan) : Prop where
  ahead : ∀ k ∈ s.queue, ∃ m, s.pool.intervals[k]? = some m ∧ pos ≤ m.start
  inTurn : s.InTurn
  turn : ∀ id rest, s.queue = id :: rest → ∃ i, s.pool.intervals[id]? = some i ∧
    Ends (· = c.regClass) (fun s' => ∀ k ∈ s'.queue, k ∈ rest ∨
      ∃ m, s'.pool.intervals[k]? = some m ∧ i.start < m.start)
      (placeNext c { s with queue := rest } id)

namespace Underway

variable (proper : Pass.ZeroFree c) (grounded : Grounded c base)

include proper grounded

theorem turn_scarce
    (underway : Underway c arrivals start base first top pos s) (isQueue : s.queue = id :: rest) :
    ∃ i, s.pool.intervals[id]? = some i ∧ pos ≤ i.start ∧
      Ends (· = c.regClass) (fun s' => Queues i.start { s with queue := rest } s' ∧
        Underway c arrivals start base first top i.start s' ∧
        budget base top i.start s' < budget base top pos s)
        (placeNext c { s with queue := rest } id) :=
  underway.next_turn proper grounded (fun plenty => absurd rfl plenty)
  (fun plenty => absurd rfl plenty)
    isQueue

theorem to_onward (underway : Underway c arrivals start base first top pos s) : Onward c pos s where
  ahead k member := by
    obtain ⟨m, found⟩ := underway.serving.all_known k member
    exact ⟨m, found, underway.ahead k member m found⟩
  inTurn := underway.inTurn
  turn id rest isQueue := by
    obtain ⟨i, found, -, ends⟩ := underway.turn_scarce proper grounded isQueue
    exact ⟨i, found, ends.mono fun s' _ after => after.1.behind⟩

theorem after_turns
    (underway : Underway c arrivals start base first top 0 start) (turns : Turns c start n pos s) :
    Underway c arrivals start base first top pos s ∧
      n + budget base top pos s ≤ budget base top 0 start := by
  induction turns with
  | enter => exact ⟨underway, by lia⟩
  | place before isQueue found placed ih =>
    obtain ⟨before, spent⟩ := ih
    obtain ⟨i, found', -, ends⟩ := before.turn_scarce proper grounded isQueue
    obtain rfl := Option.mem_unique found' found
    rcases ends with ⟨s', placed', -, after, less⟩ | ⟨_, refused⟩ | ⟨_, -, refused⟩
    · obtain rfl := Except.ok.inj (placed.symm.trans placed')
      exact ⟨after, by lia⟩
    · exact absurd (refused.symm.trans placed) refuse_ne_ok
    · exact absurd (refused.symm.trans placed) refuse_ne_ok

end Underway

section

variable {g : Graph} {tree : DominatorTree} {sets : LiveSets} {l : Liveness} {o : Options}
  {cls : RegisterClass} {p : IntervalPool} {f : Frame}

/-- A pass that has received its first intervals and goes on from there. Its loop takes a bounded
number of turns, and stops early for want of registers or stack slots only. -/
structure GoesOn (g : Graph) (o : Options) (l : Liveness) (arrivals : Arrivals) (cls : RegisterClass)
    (p : IntervalPool) (f : Frame) (start : Scan) : Prop where
  entered : enter (passOf g l o cls) arrivals p f = .ok start
  run : runClass g g.target o arrivals l.physical (p, f) cls = (do
    let s ← drain (passOf g l o cls) (drainBound start.pool) 0 start
    return (s.pool, s.frame))
  ends : Ends (· = cls) (·.queue = []) (drain (passOf g l o cls) (drainBound start.pool) 0 start)
  bounded : ∀ n pos s, Turns (passOf g l o cls) start n pos s → n ≤ drainBound start.pool
  onward : ∀ n pos s, Turns (passOf g l o cls) start n pos s → Onward (passOf g l o cls) pos s

theorem Startable.goes_on (given : g.Accepted tree l.numbering.order)
    (analysed : Liveness.Analysed g g.target tree sets l)
    (startable : Startable g o l arrivals cls p f) : ∃ s, GoesOn g o l arrivals cls p f s := by
  have isGrounded : Grounded (passOf g l o cls) l.pool := grounded_passOf given analysed
  obtain ⟨s, entered, underway, enough⟩ := startable.enter_underway given analysed
  refine ⟨s, entered, ?_, ?_, fun n pos t turns => ?_, fun n pos t turns => ?_⟩
  · simp only [runClass_eq startable.physical, entered, lift_of_ok, ok_bind]
  · exact (underway.drain_ends (fun underway isQueue => underway.turn_scarce passOf_proper isGrounded
      isQueue) enough).mono fun s' run _ => (Turns.enter.after_drain run).1
  · have := (underway.after_turns passOf_proper isGrounded turns).2
    lia
  · exact (underway.after_turns passOf_proper isGrounded turns).1.to_onward passOf_proper isGrounded

end

end Scan

namespace Liveness

open Scan

variable {g : Graph} {o : Options} {l : Liveness}

/-- A scan ends, and its loops never go back: each pass goes on, once it begins. -/
theorem scan_goes_on {cc : CallingConvention} (consistent : g.Consistent)
    (valid : g.validate = .ok ()) (convention : g.target.convention = some cc)
    (analysed : ofGraph g g.target = .ok l) :
    Ends (fun _ => True) (fun _ => True) (l.scan g g.target o) ∧
      ∀ params types f₀ cls p f, g.parameters = .ok params → g.typesOf params = .ok types →
        f₀.homes = [] → ClassStart g o l (params.zip (cc.paramLocations types)) f₀ cls p f →
        ∃ s, GoesOn g o l (params.zip (cc.paramLocations types)) cls p f s := by
  obtain ⟨tree, order, isValid⟩ := Graph.validate_ok valid
  have given : g.Accepted tree order := ⟨consistent, isValid⟩
  obtain ⟨sets, analysed⟩ := ofGraph_analysed given analysed
  obtain rfl : order = l.numbering.order :=
    Except.ok.inj (isValid.ordered.symm.trans analysed.numbered.ordered)
  have passes : ∀ params types f₀ cls p f, g.parameters = .ok params →
      g.typesOf params = .ok types → f₀.homes = [] →
      ClassStart g o l (params.zip (cc.paramLocations types)) f₀ cls p f →
      ∃ s, GoesOn g o l (params.zip (cc.paramLocations types)) cls p f s :=
    fun _ _ _ _ _ _ parameters isTypes empty begins =>
      (begins.to_startable given analysed convention parameters isTypes empty).goes_on given analysed
  refine ⟨analysed.scan_ends given convention fun params types f₀ cls p f parameters isTypes empty
    begins => ?_, passes⟩
  obtain ⟨s, goesOn⟩ := passes params types f₀ cls p f parameters isTypes empty begins
  rw [goesOn.run]
  refine Ends.bind (?_ : Ends _ (fun _ => True) _) fun _ _ _ => .of_ok trivial
  rcases goesOn.ends with ⟨s', run, -⟩ | refused | ⟨_, -, refused⟩
  · exact .inl ⟨s', run, trivial⟩
  · exact .inr (.inl refused)
  · exact .inr (.inr ⟨_, trivial, refused⟩)

/-- With four registers the pass over the selection goes on until there are too few. -/
theorem selecting_goes_on :
    ∃ (l : Liveness) (cc : CallingConvention) (s : Scan),
      ofGraph selecting selecting.target = .ok l ∧
      selecting.target.convention = some cc ∧
      GoesOn selecting { Options.default with ints := some (.first 4) } l
        ([0, 1, 2, 3].zip (cc.paramLocations [.int64, .int64, .int64, .int64])) .int l.pool
        (Frame.ofGraph selecting selecting.target Options.default.slotBudget) s := by
  obtain ⟨l, analysed⟩ : ∃ l, ofGraph selecting selecting.target = .ok l := by
    have known : (ofGraph selecting selecting.target).isOk = true := by decide +kernel
    cases run : ofGraph selecting selecting.target with
    | ok l => exact ⟨l, rfl⟩
    | error e => simp [run, Except.isOk, Except.toBool] at known
  obtain ⟨s, goesOn⟩ := (scan_goes_on ⟨by decide +kernel, by decide +kernel⟩ (by decide +kernel) rfl
    analysed).2 [0, 1, 2, 3] [.int64, .int64, .int64, .int64] _ .int l.pool
      (Frame.ofGraph selecting selecting.target Options.default.slotBudget) (by decide +kernel)
      (by decide +kernel) rfl
      ⟨rfl, rfl⟩
  exact ⟨l, _, s, analysed, rfl, goesOn⟩

end Liveness

end RegisterAllocation
