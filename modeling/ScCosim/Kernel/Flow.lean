import Mathlib.Algebra.BigOperators.Group.Finset.Basic
import Mathlib.Algebra.BigOperators.Group.Finset.Piecewise
import Mathlib.Algebra.Order.Group.Multiset
import Mathlib.Logic.Function.Basic

/-!
# Queues in a network

Items come in at one place, are passed from queue to queue along a route of their own, and
go out at its end. A step moves at most one item. Whatever the order of the steps, nothing is
made up, and the items of a class that have one route in common stay in order.
-/
namespace ScCosim.Kernel

universe u v

/-- Where each item comes in and where it goes next; `none` is the way out. -/
structure Routes (π : Type u) (ι : Type v) where
  entry : ι → π
  next : π → ι → Option π

namespace Routes

variable {π : Type u} {ι : Type v} [DecidableEq π] (r : Routes π ι)

/-- What one step does to the queues, oldest item first. The three lists are the items that
come in, go out and are lost. -/
inductive Move (hold : π → List ι) : (π → List ι) → List ι → List ι → List ι → Prop
  | still : Move hold hold [] [] []
  | enter (x : ι) :
      Move hold (Function.update hold (r.entry x) (hold (r.entry x) ++ [x])) [x] [] []
  | hop (p q : π) (x : ι) (rest : List ι) (apart : p ≠ q) (head : hold p = x :: rest)
      (next : r.next p x = some q) :
      Move hold (Function.update (Function.update hold p rest) q (hold q ++ [x])) [] [] []
  | leave (p : π) (x : ι) (rest : List ι) (head : hold p = x :: rest)
      (next : r.next p x = none) : Move hold (Function.update hold p rest) [] [x] []
  | lose (p : π) (x : ι) (rest : List ι) (head : hold p = x :: rest) :
      Move hold (Function.update hold p rest) [] [] [x]

variable {r} {hold hold' : π → List ι} {entered left more out gone : List ι}

/-- A step leaves an item in some queue, takes it out or loses it. -/
theorem Move.kept (move : r.Move hold hold' more out gone) {p : π} {x : ι} (held : x ∈ hold p) :
    (∃ q, x ∈ hold' q) ∨ x ∈ out ∨ x ∈ gone := by
  -- the item may be the one that leaves the head of its queue
  have tail : ∀ {p' : π} {y : ι} {rest : List ι}, hold p' = y :: rest →
      x ∈ Function.update hold p' rest p ∨ x = y := by
    intro p' y rest head
    by_cases here : p = p'
    · subst here
      rw [Function.update_self]
      rw [head] at held
      exact (List.mem_cons.mp held).symm
    · rw [Function.update_of_ne here]
      exact Or.inl held
  cases move with
  | still => exact Or.inl ⟨p, held⟩
  | enter y =>
    refine Or.inl ⟨p, ?_⟩
    by_cases here : p = r.entry y
    · subst here
      simp [held]
    · rwa [Function.update_of_ne here]
  | hop p' q y rest apart head next =>
    left
    rcases tail head with stays | rfl
    · refine ⟨p, ?_⟩
      by_cases there : p = q
      · subst there
        simp [held]
      · rwa [Function.update_of_ne there]
    · exact ⟨q, by simp⟩
  | leave p' y rest head =>
    rcases tail head with stays | rfl
    · exact Or.inl ⟨p, stays⟩
    · exact Or.inr (Or.inl (List.mem_singleton.mpr rfl))
  | lose p' y rest head =>
    rcases tail head with stays | rfl
    · exact Or.inl ⟨p, stays⟩
    · exact Or.inr (Or.inr (List.mem_singleton.mpr rfl))

/-! ### Conservation -/

section balance

variable [Fintype π]

/-- Everything that the queues hold. -/
def total (hold : π → List ι) : Multiset ι := ∑ p, (hold p : Multiset ι)

/-- What has come in has gone out, has been lost or is still there. -/
def Balanced (hold : π → List ι) (entered left lost : Multiset ι) : Prop :=
  entered = left + lost + total hold

theorem total_update (hold : π → List ι) (p : π) (l : List ι) :
    total (Function.update hold p l) + (hold p : Multiset ι) = total hold + (l : Multiset ι) := by
  unfold total
  rw [← Finset.sum_erase_add Finset.univ _ (Finset.mem_univ p),
    ← Finset.sum_erase_add Finset.univ (fun q => (hold q : Multiset ι)) (Finset.mem_univ p)]
  have rest : ∑ q ∈ Finset.univ.erase p, (Function.update hold p l q : Multiset ι) =
      ∑ q ∈ Finset.univ.erase p, (hold q : Multiset ι) :=
    Finset.sum_congr rfl fun q member => by
      rw [Function.update_of_ne (Finset.ne_of_mem_erase member)]
  rw [rest, Function.update_self, add_right_comm]

/-- Items sorted by some value are all items. -/
theorem sum_filter (g : ι → π) (l : List ι) :
    ∑ p, ((l.filter fun x => g x = p : List ι) : Multiset ι) = l := by
  induction l with
  | nil => simp
  | cons x l ih =>
    have each : ∀ p, (((x :: l).filter fun y => g y = p : List ι) : Multiset ι) =
        (if g x = p then {x} else 0) + ((l.filter fun y => g y = p : List ι) : Multiset ι) := by
      intro p
      by_cases h : g x = p <;> simp [h]
    simp only [each, Finset.sum_add_distrib, ih, Finset.sum_ite_eq, Finset.mem_univ, if_true]
    simp

theorem total_append (hold : π → List ι) (p : π) (x : ι) :
    total (Function.update hold p (hold p ++ [x])) = total hold + {x} := by
  have update := total_update hold p (hold p ++ [x])
  rw [← Multiset.coe_add, ← add_assoc, add_right_comm] at update
  exact add_right_cancel update

theorem total_tail {p : π} {x : ι} {rest : List ι} (head : hold p = x :: rest) :
    total hold = total (Function.update hold p rest) + {x} := by
  have update := total_update hold p rest
  rw [head, ← Multiset.cons_coe, ← Multiset.singleton_add, ← add_assoc] at update
  exact (add_right_cancel update).symm

theorem Balanced.move {entered left lost : Multiset ι} (h : Balanced hold entered left lost)
    (move : r.Move hold hold' more out gone) :
    Balanced hold' (entered + more) (left + out) (lost + gone) := by
  unfold Balanced at h ⊢
  rw [h]
  cases move with
  | still => simp
  | enter x =>
    rw [total_append]
    simp [add_assoc]
  | hop p q x rest apart head next =>
    have moved := total_append (Function.update hold p rest) q x
    rw [Function.update_of_ne apart.symm] at moved
    rw [moved, total_tail head]
    simp
  | leave p x rest head next =>
    rw [total_tail head]
    simp only [Multiset.coe_nil, add_zero, Multiset.coe_singleton]
    ac_rfl
  | lose p x rest head =>
    rw [total_tail head]
    simp only [Multiset.coe_nil, add_zero, Multiset.coe_singleton]
    ac_rfl

end balance

/-! ### Order -/

section order

variable (r)

/-- An item at `p` goes through the places of the list and then out. -/
def Leads (x : ι) : π → List π → Prop
  | p, [] => r.next p x = none
  | p, q :: route => r.next p x = some q ∧ Leads x q route

variable (C : ι → Bool)

/-- The items of a class along a route, the farthest first. -/
def line (hold : π → List ι) : List π → List ι
  | [] => []
  | p :: route => line hold route ++ (hold p).filter C

/-- The class is found on its route only, and what has gone out and is under way has come in
in this order. -/
structure InOrder (route : List π) (hold : π → List ι) (entered left : List ι) : Prop where
  off : ∀ p, p ∉ route → (hold p).filter C = []
  order : (left.filter C ++ line C hold route).Sublist (entered.filter C)

variable {C} {r}

omit [DecidableEq π] in
theorem line_congr {route : List π}
    (same : ∀ p ∈ route, (hold' p).filter C = (hold p).filter C) :
    line C hold' route = line C hold route := by
  induction route with
  | nil => rfl
  | cons p route ih =>
    rw [line, line, same p (List.mem_cons_self ..),
      ih fun q member => same q (List.mem_cons_of_mem p member)]

theorem line_update_of_not_mem {route : List π} {p : π} (l : List ι) (outside : p ∉ route) :
    line C (Function.update hold p l) route = line C hold route :=
  line_congr fun q member => by
    rw [Function.update_of_ne]
    rintro rfl
    exact outside member

/-- A hop along the route leaves the line as it is. -/
theorem line_hop {x : ι} {p q : π} {rest : List ι} {route : List π} {source : π}
    (nodup : (source :: route).Nodup) (leads : r.Leads x source route)
    (member : p ∈ source :: route) (head : hold p = x :: rest) (next : r.next p x = some q) :
    q ∈ source :: route ∧
      line C (Function.update (Function.update hold p rest) q (hold q ++ [x])) (source :: route) =
        line C hold (source :: route) := by
  induction route generalizing source with
  | nil =>
    -- the route ends here, so there is no hop
    obtain rfl : p = source := by simpa using member
    exact absurd (leads.symm.trans next) (by simp)
  | cons s route ih =>
    obtain ⟨first, leads⟩ := leads
    obtain ⟨outside, inner⟩ := List.nodup_cons.mp nodup
    rcases List.mem_cons.mp member with rfl | later
    · obtain rfl : s = q := Option.some.inj (first.symm.trans next)
      have apart : s ≠ p := fun same => outside (same ▸ List.mem_cons_self ..)
      have beyond : s ∉ route := (List.nodup_cons.mp inner).1
      have behind : p ∉ route := fun member => outside (List.mem_cons_of_mem s member)
      refine ⟨List.mem_cons_of_mem p (List.mem_cons_self ..), ?_⟩
      simp only [line, line_update_of_not_mem _ beyond, line_update_of_not_mem _ behind,
        Function.update_self, Function.update_of_ne apart.symm, head]
      rw [List.append_assoc, List.append_assoc, ← List.filter_append, ← List.filter_append,
        List.append_assoc]
      rfl
    · obtain ⟨there, same⟩ := ih inner leads later
      refine ⟨List.mem_cons_of_mem source there, ?_⟩
      have notP : source ≠ p := fun same => outside (same ▸ later)
      have notQ : source ≠ q := fun same => outside (same ▸ there)
      rw [line, same, Function.update_of_ne notQ, Function.update_of_ne notP]
      rfl

/-- The item that goes out is the first of its line. -/
theorem line_leave {x : ι} {p : π} {rest : List ι} {route : List π} {source : π}
    (nodup : (source :: route).Nodup) (leads : r.Leads x source route)
    (member : p ∈ source :: route) (head : hold p = x :: rest) (next : r.next p x = none)
    (c : C x = true) :
    line C hold (source :: route) =
      x :: line C (Function.update hold p rest) (source :: route) := by
  induction route generalizing source with
  | nil =>
    obtain rfl : p = source := by simpa using member
    simp [line, head, c]
  | cons s route ih =>
    obtain ⟨first, leads⟩ := leads
    obtain ⟨outside, inner⟩ := List.nodup_cons.mp nodup
    rcases List.mem_cons.mp member with rfl | later
    · exact absurd (first.symm.trans next) (by simp)
    · have notP : source ≠ p := fun same => outside (same ▸ later)
      rw [line, ih inner leads later, List.cons_append]
      simp only [line, Function.update_of_ne notP]

/-- An item that is lost only makes the line shorter. -/
theorem line_tail_sublist {p : π} {x : ι} {rest : List ι} (head : hold p = x :: rest)
    (route : List π) :
    (line C (Function.update hold p rest) route).Sublist (line C hold route) := by
  induction route with
  | nil => exact List.Sublist.refl _
  | cons s route ih =>
    refine ih.append ?_
    by_cases same : s = p
    · subst same
      rw [Function.update_self, head]
      exact (List.sublist_cons_self x rest).filter C
    · rw [Function.update_of_ne same]

omit [DecidableEq π] in
/-- Only the items of the class count. -/
theorem InOrder.relabel {route : List π} {entered' left' : List ι}
    (h : InOrder C route hold entered left) (comes : entered'.filter C = entered.filter C)
    (goes : left'.filter C = left.filter C) : InOrder C route hold entered' left' :=
  ⟨h.off, by rw [comes, goes]; exact h.order⟩

omit [DecidableEq π] in
/-- What happens to items of other classes does not matter. -/
theorem InOrder.congr {route : List π} (h : InOrder C route hold entered left)
    (same : ∀ p, (hold' p).filter C = (hold p).filter C) (comes : more.filter C = [])
    (goes : out.filter C = []) : InOrder C route hold' (entered ++ more) (left ++ out) where
  off p outside := by rw [same, h.off p outside]
  order := by
    rw [List.filter_append, List.filter_append, comes, goes, List.append_nil, List.append_nil,
      line_congr fun p _ => same p]
    exact h.order

private theorem filter_update {p : π} {l : List ι} (same : l.filter C = (hold p).filter C) (q : π) :
    (Function.update hold p l q).filter C = (hold q).filter C := by
  by_cases here : q = p
  · subst here
    rw [Function.update_self, same]
  · rw [Function.update_of_ne here]

theorem InOrder.move {route : List π} {source : π} (nodup : (source :: route).Nodup)
    (leads : ∀ x, C x = true → r.entry x = source ∧ r.Leads x source route)
    (h : InOrder C (source :: route) hold entered left)
    (move : r.Move hold hold' more out gone) :
    InOrder C (source :: route) hold' (entered ++ more) (left ++ out) := by
  -- an item of the class is on the route
  have onRoute : ∀ {p x rest}, hold p = x :: rest → C x = true → p ∈ source :: route := by
    intro p x rest head c
    by_contra outside
    have other := h.off p outside
    simp [head, c] at other
  cases move with
  | still => simpa using h
  | enter x =>
    cases c : C x with
    | false => exact h.congr (filter_update (by simp [c])) (by simp [c]) rfl
    | true =>
      rw [(leads x c).1]
      have beyond : source ∉ route := (List.nodup_cons.mp nodup).1
      constructor
      · intro p outside
        have other : p ≠ source := fun same => outside (same ▸ List.mem_cons_self ..)
        rw [Function.update_of_ne other, h.off p outside]
      · -- the new item is behind all others
        have longer := h.order.append_right [x]
        rw [line] at longer ⊢
        simpa [line_update_of_not_mem _ beyond, c] using longer
  | hop p q x rest apart head next =>
    cases c : C x with
    | false =>
      have taken : ∀ q, (Function.update hold p rest q).filter C = (hold q).filter C :=
        filter_update (by simp [head, c])
      refine h.congr (fun s => ?_) rfl rfl
      rw [filter_update (by rw [Function.update_of_ne apart.symm]; simp [c]), taken]
    | true =>
      obtain ⟨there, same⟩ := line_hop nodup (leads x c).2 (onRoute head c) head next
      constructor
      · intro s outside
        have notQ : s ≠ q := fun same => outside (same ▸ there)
        have notP : s ≠ p := fun same => outside (same ▸ onRoute head c)
        rw [Function.update_of_ne notQ, Function.update_of_ne notP, h.off s outside]
      · rw [List.append_nil, List.append_nil, same]
        exact h.order
  | leave p x rest head next =>
    cases c : C x with
    | false => exact h.congr (filter_update (by simp [head, c])) rfl (by simp [c])
    | true =>
      have first := line_leave nodup (leads x c).2 (onRoute head c) head next c
      constructor
      · intro s outside
        have notP : s ≠ p := fun same => outside (same ▸ onRoute head c)
        rw [Function.update_of_ne notP, h.off s outside]
      · simpa [first, c] using h.order
  | lose p x rest head =>
    constructor
    · intro s outside
      by_cases here : s = p
      · subst here
        have none := h.off s outside
        rw [head] at none
        rw [Function.update_self]
        exact List.sublist_nil.mp (none ▸ (List.sublist_cons_self x rest).filter C)
      · rw [Function.update_of_ne here, h.off s outside]
    · have shorter := (List.Sublist.refl (left.filter C)).append
        (line_tail_sublist (C := C) head (source :: route))
      simpa using shorter.trans h.order

end order

end Routes

end ScCosim.Kernel
