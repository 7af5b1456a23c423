import Mathlib.Data.List.Nodup
import Mathlib.Data.List.Sublists

/-!
# Operations that take effect one by one

Operations start and end at any time, any number of them at once. A history of such
operations is linear in an order if the order has every operation that has ended, with its
result, and has it before all those that started after its end.
-/
namespace ScCosim.Kernel

universe u v

/-- What is seen of operations named by `ι` with results in `ρ`. -/
inductive Moment (ι : Type u) (ρ : Type v) where
  | started (c : ι)
  | ended (c : ι) (r : ρ)
  deriving DecidableEq, Repr

variable {ι : Type u} {ρ : Type v}

/-- The operations of `order` have taken effect, in this order and with these results. -/
structure Linear (events : List (Moment ι ρ)) (order : List (ι × ρ)) : Prop where
  once : (order.map Prod.fst).Nodup
  started : ∀ c ∈ order.map Prod.fst, .started c ∈ events
  answered : ∀ c r, .ended c r ∈ events → (c, r) ∈ order
  inTime : ∀ c r c', [.ended c r, .started c'].Sublist events → c' ∈ order.map Prod.fst →
    [c, c'].Sublist (order.map Prod.fst)

theorem pair_sublist_snoc {α : Type u} {a b x : α} {xs : List α} :
    [a, b].Sublist (xs ++ [x]) ↔ [a, b].Sublist xs ∨ a ∈ xs ∧ b = x := by
  constructor
  · intro h
    obtain ⟨front, back, split, before, after⟩ := List.sublist_append_iff.mp h
    rcases front with _ | ⟨c, _ | ⟨d, front⟩⟩
    · rw [List.nil_append] at split
      subst split
      simpa using after.length_le
    · simp only [List.cons_append, List.nil_append, List.cons.injEq] at split
      obtain ⟨rfl, rfl⟩ := split
      exact Or.inr ⟨List.singleton_sublist.mp before, by simpa using after⟩
    · simp only [List.cons_append, List.cons.injEq] at split
      obtain ⟨rfl, rfl, rest⟩ := split
      rw [(List.append_eq_nil_iff.mp rest.symm).1] at before
      exact Or.inl before
  · rintro (h | ⟨member, rfl⟩)
    · exact h.trans (List.sublist_append_left _ _)
    · exact (List.singleton_sublist.mpr member).append (List.Sublist.refl [b])

variable {events : List (Moment ι ρ)} {order order' : List (ι × ρ)}

theorem linear_nil : Linear ([] : List (Moment ι ρ)) [] :=
  ⟨List.nodup_nil, by simp, by simp, by simp⟩

/-- An operation starts. -/
theorem Linear.start (h : Linear events order) {c : ι} (fresh : c ∉ order.map Prod.fst) :
    Linear (events ++ [.started c]) order := by
  refine ⟨h.once, fun d member => List.mem_append_left _ (h.started d member), fun d r ended => ?_,
    fun d r d' later member => ?_⟩
  · exact h.answered d r (by simpa using ended)
  · rcases pair_sublist_snoc.mp later with old | ⟨-, new⟩
    · exact h.inTime d r d' old member
    · cases new
      exact absurd member fresh

/-- An operation that has taken effect ends. -/
theorem Linear.finish (h : Linear events order) {c : ι} {r : ρ} (effect : (c, r) ∈ order) :
    Linear (events ++ [.ended c r]) order := by
  refine ⟨h.once, fun d member => List.mem_append_left _ (h.started d member), fun d r' ended => ?_,
    fun d r' d' later member => ?_⟩
  · rcases List.mem_append.mp ended with old | new
    · exact h.answered d r' old
    · cases List.mem_singleton.mp new
      exact effect
  · rcases pair_sublist_snoc.mp later with old | ⟨-, new⟩
    · exact h.inTime d r' d' old member
    · cases new

/-- Further operations take effect. -/
theorem Linear.more (h : Linear events order) (longer : order <+: order')
    (once : (order'.map Prod.fst).Nodup) (started : ∀ c ∈ order'.map Prod.fst, .started c ∈ events) :
    Linear events order' := by
  refine ⟨once, started, fun c r ended => longer.subset (h.answered c r ended),
    fun c r c' later member => ?_⟩
  obtain ⟨rest, rfl⟩ := longer
  rw [List.map_append] at member ⊢
  rcases List.mem_append.mp member with old | new
  · exact (h.inTime c r c' later old).trans (List.sublist_append_left _ _)
  · -- what has ended took effect before
    have ended : c ∈ order.map Prod.fst := List.mem_map_of_mem (h.answered c r (later.subset (by simp)))
    exact (List.singleton_sublist.mpr ended).append (List.singleton_sublist.mpr new)

end ScCosim.Kernel
