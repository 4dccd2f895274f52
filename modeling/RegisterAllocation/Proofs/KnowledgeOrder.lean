import Mathlib.Algebra.Order.Ring.Nat
import Mathlib.Algebra.Order.BigOperators.Group.List
import Mathlib.Data.List.Sort
import RegisterAllocation.Proofs.Knowledge

/-!
What is known, ordered by how much it says of each location: nothing, that the content differs
between ways, or what the content is. In this order what is known where ways meet is the most that
is known on all of them.

Entries stand in location order and none says `unknown`, so two lists that say the same of every
location are one. A list that says less than another one, of a fixed list of locations, weighs less.
-/

namespace RegisterAllocation

namespace Location

variable {a b c : Location}

theorem before_iff : a.before b = true ↔
    a.kind.rank < b.kind.rank ∨ a.kind = b.kind ∧ a.index < b.index := by
  simp [before]

theorem rank_inj {k k' : Kind} (same : k.rank = k'.rank) : k = k' := by
  cases k <;> cases k' <;> simp_all [Kind.rank]

theorem before_trans (h : a.before b = true) (h' : b.before c = true) : a.before c = true := by
  rw [before_iff] at h h' ⊢
  rcases h with low | ⟨same, low⟩ <;> rcases h' with low' | ⟨same', low'⟩
  · exact .inl (low.trans low')
  · exact .inl (same' ▸ low)
  · exact .inl (same ▸ low')
  · exact .inr ⟨same.trans same', low.trans low'⟩

theorem before_asymm (h : a.before b = true) : ¬b.before a = true := by
  rw [before_iff] at h ⊢
  rintro (low | ⟨same, low⟩)
  · rcases h with high | ⟨same, -⟩
    · lia
    · simp [same] at low
  · rcases h with high | ⟨-, high⟩
    · simp [same] at high
    · lia

theorem before_of_not (other : b ≠ a) (h : ¬a.before b = true) : b.before a = true := by
  rw [before_iff, not_or] at h
  rw [before_iff]
  rcases Nat.lt_or_ge b.kind.rank a.kind.rank with low | high
  · exact .inl low
  · have same := rank_inj (Nat.le_antisymm (Nat.le_of_not_lt h.1) high)
    have differs : a.index ≠ b.index := by
      intro index
      obtain ⟨kind, n⟩ := a
      obtain ⟨kind', n'⟩ := b
      simp_all
    exact .inr ⟨same, by have := h.2; lia⟩

end Location

namespace Symbol

def Weaker (s t : Symbol) : Prop := s = .unknown ∨ s = t ∨ s = .conflicted ∧ t ≠ .unknown

variable {r s t : Symbol}

theorem Weaker.refl (s : Symbol) : s.Weaker s := .inr (.inl rfl)

theorem Weaker.trans (h : r.Weaker s) (h' : s.Weaker t) : r.Weaker t := by
  cases r <;> cases s <;> cases t <;> simp_all [Weaker]

theorem Weaker.eq_of_definite (h : s.Weaker t) (definite : s.isDefinite = true) : t = s := by
  cases s <;> cases t <;> simp_all [Weaker, isDefinite]

theorem conflicted_weaker (known : s ≠ .unknown) : Weaker .conflicted s := .inr (.inr ⟨rfl, known⟩)

theorem weaker_meet_iff (known : s ≠ .unknown) (known' : t ≠ .unknown) :
    r.Weaker (s.meet t) ↔ r.Weaker s ∧ r.Weaker t := by
  cases s <;> cases t <;> simp_all [meet] <;> cases r <;> simp_all [Weaker] <;> split <;>
    simp_all

def weight : Symbol → Nat
  | unknown => 0
  | conflicted => 1
  | value _ | constant _ => 2

theorem weight_le (s : Symbol) : s.weight ≤ 2 := by
  cases s <;> simp [weight]

theorem Weaker.weight_le (h : s.Weaker t) : s.weight ≤ t.weight := by
  cases s <;> cases t <;> simp_all [Weaker, weight]

theorem Weaker.weight_lt (h : s.Weaker t) (differs : s ≠ t) : s.weight < t.weight := by
  cases s <;> cases t <;> simp_all [Weaker, weight]

end Symbol

namespace Knowledge

variable {j k k' other : Knowledge} {l : Location} {s s' : Symbol}

/-- Says no more of any location than other knowledge does. -/
def Weaker (k other : Knowledge) : Prop := ∀ l, (k.get l).Weaker (other.get l)

theorem Weaker.refl (k : Knowledge) : k.Weaker k := fun l => .refl (k.get l)

theorem Weaker.trans (h : j.Weaker k) (h' : k.Weaker other) : j.Weaker other :=
  fun l => (h l).trans (h' l)

theorem lookup_eq (firm : k.Firm) (l : Location) :
    k.lookup l = if k.get l = .unknown then none else some (k.get l) := by
  have known := firm l
  rw [get]
  cases found : k.lookup l with
  | none => rfl
  | some s =>
    rw [found, ne_eq, Option.some.injEq] at known
    simp [known]

theorem get_meet (firm : k.Firm) (firm' : other.Firm) (l : Location) : (k.meet other).get l =
    if k.get l = .unknown ∨ other.get l = .unknown then .unknown
      else (k.get l).meet (other.get l) := by
  conv_lhs => rw [get, lookup_meet, lookup_eq firm, lookup_eq firm']
  by_cases left : k.get l = .unknown <;> by_cases right : other.get l = .unknown <;>
    simp [left, right]

theorem weaker_meet_iff (firm : k.Firm) (firm' : other.Firm) :
    j.Weaker (k.meet other) ↔ j.Weaker k ∧ j.Weaker other := by
  have each (l : Location) : (j.get l).Weaker ((k.meet other).get l) ↔
      (j.get l).Weaker (k.get l) ∧ (j.get l).Weaker (other.get l) := by
    rw [get_meet firm firm']
    split
    · rename_i unknown
      rcases unknown with left | right
      · rw [left]
        exact ⟨fun h => ⟨h, by cases jl : j.get l <;> simp_all [Symbol.Weaker]⟩, And.left⟩
      · rw [right]
        exact ⟨fun h => ⟨by cases jl : j.get l <;> simp_all [Symbol.Weaker], h⟩, And.right⟩
    · rename_i known
      rw [not_or] at known
      exact Symbol.weaker_meet_iff known.1 known.2
  exact ⟨fun h => ⟨fun l => ((each l).mp (h l)).1, fun l => ((each l).mp (h l)).2⟩,
    fun h l => (each l).mpr ⟨h.1 l, h.2 l⟩⟩

theorem Weaker.after_meet (h : k.Weaker k') (h' : j.Weaker other) (firm : k.Firm) (firm' : k'.Firm)
    (firmJ : j.Firm) (firmOther : other.Firm) : (k.meet j).Weaker (k'.meet other) := by
  obtain ⟨left, right⟩ := (weaker_meet_iff firm firmJ).mp (.refl _)
  exact (weaker_meet_iff firm' firmOther).mpr ⟨left.trans h, right.trans h'⟩

theorem get_destroy_eq (test : Location → Bool) (k : Knowledge) (l : Location) :
    (k.destroy test).get l =
      if test l ∧ (k.lookup l).isSome then .conflicted else k.get l := by
  rw [get, lookup_destroy]
  cases found : k.lookup l <;> by_cases held : test l <;> simp [found, held, get]

theorem Weaker.after_destroy (h : k.Weaker other) (firm : k.Firm) (firm' : other.Firm)
    (test : Location → Bool) : (k.destroy test).Weaker (other.destroy test) := by
  intro l
  have here := h l
  rw [get_destroy_eq, get_destroy_eq, lookup_eq firm, lookup_eq firm']
  by_cases held : test l <;> by_cases left : k.get l = .unknown <;>
    by_cases right : other.get l = .unknown <;> simp_all [Symbol.Weaker]

/-! Entries in location order. -/

/-- Entries in location order, none of which says that nothing is known. -/
structure Canonical (k : Knowledge) : Prop where
  firm : k.Firm
  sorted : k.Pairwise fun x y => x.1.before y.1 = true

theorem Canonical.nil : Canonical [] := ⟨.nil, .nil⟩

theorem mem_put {x : Location × Symbol} (member : x ∈ k.put l s) : x = (l, s) ∨ x ∈ k := by
  induction k with
  | nil => simpa [put] using member
  | cons entry rest ih =>
    obtain ⟨l', t⟩ := entry
    rw [put] at member
    split at member
    · exact (List.mem_cons.mp member).imp_right (List.mem_cons_of_mem _)
    split at member
    · exact List.mem_cons.mp member
    · rcases List.mem_cons.mp member with rfl | later
      · exact .inr List.mem_cons_self
      · exact (ih later).imp_right (List.mem_cons_of_mem _)

theorem sorted_put (sorted : k.Pairwise fun x y => x.1.before y.1 = true) :
    (k.put l s).Pairwise fun x y => x.1.before y.1 = true := by
  induction k with
  | nil => simp [put]
  | cons entry rest ih =>
    obtain ⟨l', t⟩ := entry
    obtain ⟨head, tail⟩ := List.pairwise_cons.mp sorted
    rw [put]
    split
    · rename_i same
      exact List.pairwise_cons.mpr ⟨same ▸ head, tail⟩
    split
    · rename_i early
      refine List.pairwise_cons.mpr ⟨fun y member => ?_, sorted⟩
      rcases List.mem_cons.mp member with rfl | member
      · exact early
      · exact Location.before_trans early (head y member)
    · rename_i differs late
      refine List.pairwise_cons.mpr ⟨fun y member => ?_, ih tail⟩
      rcases mem_put member with rfl | member
      · exact Location.before_of_not differs late
      · exact head y member

theorem Canonical.after_set (h : k.Canonical) (l : Location) (s : Symbol) :
    (k.set l s).Canonical := by
  refine ⟨h.firm.after_set l s, ?_⟩
  unfold set
  split
  · exact h.sorted.sublist List.filter_sublist
  · exact sorted_put h.sorted

theorem Canonical.after_destroy (h : k.Canonical) (test : Location → Bool) :
    (k.destroy test).Canonical := by
  refine ⟨h.firm.after_destroy test, List.pairwise_map.mpr (h.sorted.imp ?_)⟩
  rintro ⟨l, s⟩ ⟨l', t⟩ early
  simp only
  split <;> split <;> exact early

theorem Canonical.after_meet (h : k.Canonical) (h' : other.Canonical) : (k.meet other).Canonical := by
  refine ⟨h.firm.after_meet h'.firm, List.Pairwise.filterMap _ ?_ h.sorted⟩
  rintro ⟨l, s⟩ ⟨l', t⟩ early x hx y hy
  obtain ⟨_, -, rfl⟩ := Option.map_eq_some_iff.mp hx
  obtain ⟨_, -, rfl⟩ := Option.map_eq_some_iff.mp hy
  exact early

theorem mem_iff_lookup (sorted : k.Pairwise fun x y => x.1.before y.1 = true) :
    (l, s) ∈ k ↔ k.lookup l = some s := by
  induction k with
  | nil => simp
  | cons entry rest ih =>
    obtain ⟨l', t⟩ := entry
    obtain ⟨head, tail⟩ := List.pairwise_cons.mp sorted
    rw [lookup_cons, List.mem_cons, Prod.mk.injEq]
    by_cases same : l = l'
    · subst same
      have fresh : (l, s) ∉ rest := fun member =>
        Location.before_asymm (head (l, s) member) (head (l, s) member)
      simp [fresh, eq_comm]
    · simp [same, ih tail]

theorem Canonical.ext (h : k.Canonical) (h' : other.Canonical) (same : ∀ l, k.get l = other.get l) :
    k = other := by
  have distinct {x : Knowledge} (hx : x.Canonical) : x.Nodup := by
    refine hx.sorted.imp ?_
    rintro a _ early rfl
    exact Location.before_asymm early early
  have perm : k.Perm other := by
    refine (List.perm_ext_iff_of_nodup (distinct h) (distinct h')).mpr fun ⟨l, s⟩ => ?_
    rw [mem_iff_lookup h.sorted, mem_iff_lookup h'.sorted, lookup_eq h.firm, lookup_eq h'.firm,
      same l]
  exact perm.eq_of_pairwise (fun x y _ _ early late => absurd late (Location.before_asymm early))
    h.sorted h'.sorted

def weight (places : List Location) (k : Knowledge) : Nat :=
  (places.map fun l => (k.get l).weight).sum

theorem weight_le (places : List Location) (k : Knowledge) : k.weight places ≤ 2 * places.length := by
  have each : ∀ w ∈ places.map fun l => (k.get l).weight, w ≤ 2 := by
    intro w member
    obtain ⟨l, -, rfl⟩ := List.mem_map.mp member
    exact (k.get l).weight_le
  have total := List.sum_le_card_nsmul _ 2 each
  rwa [List.length_map, nsmul_eq_mul, Nat.cast_id, Nat.mul_comm] at total

theorem Weaker.weight_lt (h : k.Weaker other) (canonical : k.Canonical)
    (canonical' : other.Canonical) {places : List Location}
    (within : ∀ l, other.get l ≠ .unknown → l ∈ places) (differs : k ≠ other) :
    k.weight places < other.weight places := by
  obtain ⟨l, apart⟩ : ∃ l, k.get l ≠ other.get l := by
    by_contra same
    exact differs (canonical.ext canonical' fun l => not_not.mp fun apart => same ⟨l, apart⟩)
  have known : other.get l ≠ .unknown := by
    intro unknown
    have here := h l
    rw [unknown] at here apart
    cases kl : k.get l <;> simp_all [Symbol.Weaker]
  exact List.sum_lt_sum _ _ (fun l _ => (h l).weight_le) ⟨l, within l known, (h l).weight_lt apart⟩

end Knowledge

end RegisterAllocation
