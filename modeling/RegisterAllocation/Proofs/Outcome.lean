import Mathlib.Data.List.Forall2
import RegisterAllocation.Fault

/-!
Taking computations that succeed apart: a sequence of steps succeeds when each step does, a
traversal when it does at every element.
-/

namespace RegisterAllocation

open List

section

variable {ε α β σ : Type}

@[simp] theorem ok_bind (a : α) (f : α → Except ε β) : (Except.ok a >>= f) = f a := rfl

@[simp] theorem error_bind (e : ε) (f : α → Except ε β) : (Except.error e >>= f) = .error e := rfl

@[simp] theorem pure_ok {a b : α} : (pure a : Except ε α) = .ok b ↔ a = b := by
  simp [pure, Except.pure]

theorem bind_ok {x : Except ε α} {f : α → Except ε β} {b : β} :
    (x >>= f) = .ok b ↔ ∃ a, x = .ok a ∧ f a = .ok b := by
  cases x <;> simp

theorem bind_error {x : Except ε α} {f : α → Except ε β} {e : ε} :
    (x >>= f) = .error e ↔ x = .error e ∨ ∃ a, x = .ok a ∧ f a = .error e := by
  cases x <;> simp

@[simp] theorem lift_ok {x : Except Fault α} {a : α} :
    (liftM x : Attempt ε α) = .ok a ↔ x = .ok a := by
  cases x <;> simp [liftM, monadLift, MonadLift.monadLift]

@[simp] theorem lift_of_ok (a : α) : (liftM (Except.ok a : Except Fault α) : Attempt ε α) = .ok a :=
  rfl

theorem lift_ne_error {x : Except Fault α} {e : ε} :
    (liftM x : Attempt ε α) ≠ .error (.error e) := by
  cases x <;> simp [liftM, monadLift, MonadLift.monadLift]

@[simp] theorem refuse_ne_ok {e : ε} {a : α} : (refuse e : Attempt ε α) ≠ .ok a := by
  simp [refuse]

theorem refuse_error {e f : ε} :
    (refuse e : Attempt ε α) = .error (.error f) ↔ e = f := by
  simp [refuse]

theorem ensure_ok {p : Prop} [Decidable p] {f : Fault} {u : Unit} : ensure p f = .ok u ↔ p :=
  ensure_eq_ok

theorem split_ok {x : Attempt ε α} {r : Except ε α} (h : Halt.split x = .ok r) :
    (∃ a, x = .ok a ∧ r = .ok a) ∨ ∃ e, x = .error (.error e) ∧ r = .error e := by
  match x with
  | .ok a => simp_all [Halt.split]
  | .error (.error e) => simp_all [Halt.split]
  | .error (.fault f) => simp_all [Halt.split]

theorem found_lt {as : Array α} {i : Nat} {a : α} (found : as[i]? = some a) : i < as.size :=
  (Array.getElem?_eq_some_iff.mp found).1

theorem listed_lt {as : List α} {i : Nat} {a : α} (listed : as[i]? = some a) : i < as.length :=
  (List.getElem?_eq_some_iff.mp listed).1

theorem foldlM_cons_ok {f : σ → α → Except ε σ} {x : α} {xs : List α} {s t : σ} :
    (x :: xs).foldlM f s = .ok t ↔ ∃ mid, f s x = .ok mid ∧ xs.foldlM f mid = .ok t := by
  rw [foldlM_cons, bind_ok]

theorem foldlM_ok {P : σ → Prop} {f : σ → α → Except ε σ} {xs : List α} {s t : σ}
    (step : ∀ x ∈ xs, ∀ s t, P s → f s x = .ok t → P t) (run : xs.foldlM f s = .ok t)
    (start : P s) : P t := by
  induction xs generalizing s with
  | nil =>
    obtain rfl : s = t := by simpa using run
    exact start
  | cons x rest ih =>
    rw [foldlM_cons, bind_ok] at run
    obtain ⟨next, first, run⟩ := run
    exact ih (fun y hy => step y (mem_cons_of_mem x hy)) run
      (step x mem_cons_self s next start first)

theorem mapM_ok {f : α → Except ε β} {xs : List α} {ys : List β} :
    xs.mapM f = .ok ys ↔ Forall₂ (fun x y => f x = .ok y) xs ys := by
  induction xs generalizing ys with
  | nil => cases ys <;> simp
  | cons x rest ih =>
    simp only [mapM_cons, bind_ok, ih, pure_ok, forall₂_cons_left_iff]
    constructor
    · rintro ⟨y, first, more, others, rfl⟩
      exact ⟨y, more, first, others, rfl⟩
    · rintro ⟨y, more, first, others, rfl⟩
      exact ⟨y, first, more, others, rfl⟩

theorem mapM_congr {f h : α → Except ε β} {xs : List α} (same : ∀ x ∈ xs, f x = h x) :
    xs.mapM f = xs.mapM h := by
  induction xs with
  | nil => rfl
  | cons x rest ih =>
    rw [mapM_cons, mapM_cons, same x mem_cons_self,
      ih fun y hy => same y (mem_cons_of_mem x hy)]

section

variable {f : α → Except ε β} {xs : List α} {ys : List β} (h : xs.mapM f = .ok ys)

include h

theorem mapM_mem {x : α} (member : x ∈ xs) : ∃ y ∈ ys, f x = .ok y := by
  have all := mapM_ok.mp h
  clear h
  induction all with
  | nil => simp at member
  | cons first _ ih =>
    rcases mem_cons.mp member with rfl | member
    · exact ⟨_, mem_cons_self, first⟩
    · obtain ⟨y, hy, found⟩ := ih member
      exact ⟨y, mem_cons_of_mem _ hy, found⟩

theorem mapM_mem_result {y : β} (member : y ∈ ys) : ∃ x ∈ xs, f x = .ok y := by
  have all := mapM_ok.mp h
  clear h
  induction all with
  | nil => simp at member
  | cons first _ ih =>
    rcases mem_cons.mp member with rfl | member
    · exact ⟨_, mem_cons_self, first⟩
    · obtain ⟨x, hx, found⟩ := ih member
      exact ⟨x, mem_cons_of_mem _ hx, found⟩

theorem mapM_getElem (k : Nat) : (∀ x, xs[k]? = some x → ∃ y, ys[k]? = some y ∧ f x = .ok y) ∧
      ∀ y, ys[k]? = some y → ∃ x, xs[k]? = some x ∧ f x = .ok y := by
  rw [mapM_ok] at h
  induction h generalizing k with
  | nil => simp
  | cons first _ ih =>
    cases k with
    | zero => simp [first]
    | succ k => simpa using ih k

end

theorem forM_ok {f : α → Except ε Unit} {xs : List α} :
    xs.forM f = .ok () ↔ ∀ x ∈ xs, f x = .ok () := by
  induction xs with
  | nil => simp
  | cons x rest ih =>
    change (f x >>= fun _ => rest.forM f) = .ok () ↔ _
    rw [bind_ok, forall_mem_cons, ← ih]
    exact ⟨fun ⟨_, h⟩ => h, fun h => ⟨(), h⟩⟩

theorem filterM_ok {f : α → Except ε Bool} {xs ys : List α} (run : xs.filterM f = .ok ys) :
    ∃ test : α → Bool, ys = xs.filter test ∧ ∀ x ∈ xs, f x = .ok (test x) := by
  let test : α → Bool := fun x => (f x).toOption.getD false
  have step : ∀ xs acc, ∀ zs, filterAuxM f xs acc = .ok zs →
      zs = (xs.filter test).reverse ++ acc ∧ ∀ x ∈ xs, f x = .ok (test x) := by
    intro xs
    induction xs with
    | nil =>
      intro acc zs run
      obtain rfl : acc = zs := pure_ok.mp run
      simp
    | cons x rest ih =>
      intro acc zs run
      rw [filterAuxM, bind_ok] at run
      obtain ⟨b, isB, run⟩ := run
      obtain ⟨rfl, each⟩ := ih _ zs run
      have head : test x = b := by simp [test, isB, Except.toOption]
      refine ⟨?_, ?_⟩
      · cases b <;> simp [head]
      · intro y member
        rcases mem_cons.mp member with rfl | member
        · rw [isB, head]
        · exact each y member
  rw [filterM, bind_ok] at run
  obtain ⟨zs, run, same⟩ := run
  obtain ⟨rfl, each⟩ := step xs [] zs run
  refine ⟨test, ?_, each⟩
  rw [← pure_ok.mp same]
  simp

theorem bind_total {x : Except ε α} {f : α → Except ε β} (first : ∃ a, x = .ok a)
    (rest : ∀ a, x = .ok a → ∃ b, f a = .ok b) : ∃ b, (x >>= f) = .ok b := by
  obtain ⟨a, rfl⟩ := first
  exact rest a rfl

theorem mapM_total {f : α → Except ε β} {xs : List α} (each : ∀ x ∈ xs, ∃ y, f x = .ok y) :
    ∃ ys, xs.mapM f = .ok ys := by
  induction xs with
  | nil => exact ⟨[], rfl⟩
  | cons x rest ih =>
    obtain ⟨y, isY⟩ := each x mem_cons_self
    obtain ⟨ys, isYs⟩ := ih fun z member => each z (mem_cons_of_mem x member)
    exact ⟨y :: ys, by rw [mapM_cons, isY, ok_bind, isYs]; rfl⟩

theorem foldlM_total {f : σ → α → Except ε σ} {xs : List α}
    (each : ∀ x ∈ xs, ∀ s, ∃ t, f s x = .ok t) (s : σ) : ∃ t, xs.foldlM f s = .ok t := by
  induction xs generalizing s with
  | nil => exact ⟨s, rfl⟩
  | cons x rest ih =>
    obtain ⟨next, first⟩ := each x mem_cons_self s
    rw [foldlM_cons, first, ok_bind]
    exact ih (fun y member => each y (mem_cons_of_mem x member)) next

theorem filterM_total {f : α → Except ε Bool} {xs : List α} (each : ∀ x ∈ xs, ∃ b, f x = .ok b) :
    ∃ ys, xs.filterM f = .ok ys := by
  have step : ∀ acc, ∃ zs, filterAuxM f xs acc = .ok zs := by
    induction xs with
    | nil => exact fun acc => ⟨acc, rfl⟩
    | cons x rest ih =>
      intro acc
      obtain ⟨b, isB⟩ := each x mem_cons_self
      rw [filterAuxM, isB, ok_bind]
      exact ih (fun y member => each y (mem_cons_of_mem x member)) _
  obtain ⟨zs, run⟩ := step []
  exact ⟨zs.reverse, by rw [filterM, run]; rfl⟩

end

end RegisterAllocation
