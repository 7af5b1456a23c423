import ScCosim.Helper.Queue
import Mathlib.Data.List.Infix

/-!
# How large a queue gets

The array grows when the tail is at its end, whether or not cells before the head are free. So
its size follows the number of elements only as long as the head stays near the start.
-/
namespace ScCosim.Helper

variable {α : Type}

/-- The calls that fill and empty a queue. -/
inductive Traffic (α : Type) where
  | push (qdata : α)
  | pop
  | popFront
  deriving DecidableEq, Repr

/-- What a call does to the elements held. -/
def Traffic.onList (l : List α) : Traffic α → List α
  | .push x => l ++ [x]
  | .pop | .popFront => l.tail

/-- The elements held after some calls. -/
def held (calls : List (Traffic α)) : List α := calls.foldl Traffic.onList []

namespace HsocQueue

/-- A call, unless it reads or writes outside an array. -/
def step (q : HsocQueue α) : Traffic α → Option (HsocQueue α)
  | .push qdata => q.push qdata
  | .pop => some q.pop
  | .popFront => some q.popFront.2

/-- A queue made with capacity `qsize`, after some calls. -/
def afterCalls (qsize : Nat) (calls : List (Traffic α)) : Option (HsocQueue α) :=
  calls.foldlM step (new qsize)

theorem afterCalls_concat (qsize : Nat) (calls : List (Traffic α)) (t : Traffic α) :
    afterCalls qsize (calls ++ [t]) = (afterCalls qsize calls).bind fun q => q.step t := by
  simp [afterCalls]

theorem held_concat (calls : List (Traffic α)) (t : Traffic α) :
    held (calls ++ [t]) = t.onList (held calls) := by
  simp [held]

/-! ### One call -/

section call

variable {q q' : HsocQueue α} {l : List α}

/-- A `push` that returns has found room, also where the size has wrapped around. -/
theorem Holds.of_push (h : q.Holds l) {x : α} (run : q.push x = some q') : q'.Holds (l ++ [x]) := by
  by_cases full : q.qSize ≤ q.tail
  · have live : q.tail - q.head = l.length := by have := h.length; omega
    have below : toUnsigned (q.qSize + increasmentStep) < 2 ^ 32 := Nat.mod_lt _ (by decide)
    simp only [HsocQueue.push, if_pos full, Option.bind_eq_bind, Option.bind_eq_some_iff] at run
    obtain ⟨grown, change, data, store, result⟩ := run
    have room : l.length ≤ toUnsigned (q.qSize + increasmentStep) := by
      simp only [HsocQueue.changeArraySize, Option.bind_eq_bind, Option.bind_eq_some_iff] at change
      obtain ⟨filled, fill, -⟩ := change
      by_cases empty : l = []
      · rw [empty]
        exact Nat.zero_le _
      · rw [live] at fill
        simpa using Cells.le_of_fill_eq_some (by simpa using empty) fill
    obtain ⟨grown', change', holds, head, size, cells⟩ := h.changeArraySize room below
    obtain rfl : grown = grown' := Option.some.inj (change.symm.trans change')
    -- the new element is stored inside the new array, which has exactly as many cells
    have inside : grown.tail < grown.qSize := by
      rw [size, ← cells]
      unfold Cells.store at store
      by_contra outside
      rw [if_neg outside] at store
      cases store
    obtain ⟨stored, appended⟩ := holds_append holds inside x
    rw [stored] at store
    cases store
    cases result
    exact appended
  · obtain ⟨pushed, same, holds⟩ := h.push x fun isFull => absurd isFull full
    rw [run] at same
    cases same
    exact holds

theorem Holds.step (h : q.Holds l) {t : Traffic α} (run : q.step t = some q') :
    q'.Holds (t.onList l) := by
  cases t with
  | push x => exact h.of_push run
  | pop =>
    cases run
    exact h.pop
  | popFront =>
    cases run
    rw [popFront_snd]
    exact h.pop

theorem qSize_pop (q : HsocQueue α) : q.pop.qSize = q.qSize := by
  unfold pop advance
  split
  · split <;> rfl
  · rfl

/-- The size after a `push`. -/
theorem qSize_push {x : α} (run : q.push x = some q') :
    q'.qSize = if q.qSize ≤ q.tail then toUnsigned (q.qSize + increasmentStep) else q.qSize := by
  unfold HsocQueue.push at run
  split at run
  next full =>
    simp only [HsocQueue.changeArraySize, Option.bind_eq_bind, Option.bind_eq_some_iff] at run
    obtain ⟨grown, ⟨filled, -, change⟩, data, -, result⟩ := run
    cases change
    cases result
    rw [if_pos full]
    exact Nat.mod_mod _ _
  next room =>
    simp only [Option.bind_eq_bind, Option.bind_some, Option.bind_eq_some_iff] at run
    obtain ⟨data, -, result⟩ := run
    cases result
    rw [if_neg room]

/-- A `push` makes the array larger than `m` elements call for, if it finds the tail at the end
and more cells free before the head than there are elements missing to `m`. -/
theorem Holds.push_exceeds (h : q.Holds l) (x : α) {m : Nat} (full : q.qSize ≤ q.tail)
    (below : q.qSize + increasmentStep < 2 ^ 32) (free : m - l.length < q.head) :
    ∃ q', q.push x = some q' ∧ q.qSize < q'.qSize ∧ m + increasmentStep < q'.qSize := by
  obtain ⟨q', run, -⟩ := h.push x fun _ => below
  have length := h.length
  have sized := h.tailSize
  have size : q'.qSize = q.qSize + increasmentStep := by
    rw [qSize_push run, if_pos full]
    exact Nat.mod_eq_of_lt below
  refine ⟨q', run, ?_, ?_⟩
  · rw [size, increasmentStep]
    omega
  · omega

end call

/-! ### Runs -/

/-- In a sequence of calls on a queue made with capacity `c`, a `push` finds the tail at the end
of the array only if at most so many cells are free before the head as there are elements
missing to `m`. -/
def GrowsNearStart (c m : Nat) (calls : List (Traffic α)) : Prop :=
  ∀ part x q, part ++ [.push x] <+: calls → afterCalls c part = some q → q.qSize ≤ q.tail →
    q.head ≤ m - (held part).length

/-- After every part of the calls the queue holds the elements it should. -/
theorem holds_of_afterCalls {c : Nat} {calls : List (Traffic α)} {q : HsocQueue α}
    (run : afterCalls c calls = some q) : q.Holds (held calls) := by
  induction calls using List.reverseRecOn generalizing q with
  | nil =>
    cases run
    exact holds_new c
  | append_singleton calls t ih =>
    rw [afterCalls_concat, Option.bind_eq_some_iff] at run
    obtain ⟨before, run, step⟩ := run
    rw [held_concat]
    exact (ih run).step step

/-- Whatever part of the calls has been made, the array is not larger than at first or than `m`
elements call for. -/
def CapacityFollows (c m : Nat) (calls : List (Traffic α)) : Prop :=
  ∀ part q, part <+: calls → afterCalls c part = some q →
    q.qSize ≤ max (toUnsigned c) (m + increasmentStep)

section near

variable {c m : Nat} {calls : List (Traffic α)}

/-- The tail is at the end only where the elements held and those missing to `m` call for it. -/
theorem GrowsNearStart.qSize_le (near : GrowsNearStart c m calls)
    (few : ∀ part, part <+: calls → (held part).length ≤ m) {part : List (Traffic α)} {x : α}
    {q : HsocQueue α} (within : part ++ [.push x] <+: calls) (run : afterCalls c part = some q)
    (full : q.qSize ≤ q.tail) : q.qSize ≤ m := by
  have free := near part x q within run full
  have length := (holds_of_afterCalls run).length
  have some := few part ((List.prefix_append part _).trans within)
  omega

theorem GrowsNearStart.capacityFollows (near : GrowsNearStart c m calls)
    (few : ∀ part, part <+: calls → (held part).length ≤ m) : CapacityFollows c m calls := by
  intro part
  induction part using List.reverseRecOn with
  | nil =>
    intro q _ run
    cases run
    exact le_max_left _ _
  | append_singleton part t ih =>
    intro q' within run
    rw [afterCalls_concat, Option.bind_eq_some_iff] at run
    obtain ⟨q, run, step⟩ := run
    have before := ih q ((List.prefix_append part [t]).trans within) run
    cases t with
    | pop =>
      cases step
      rw [qSize_pop]
      exact before
    | popFront =>
      cases step
      rw [popFront_snd, qSize_pop]
      exact before
    | push x =>
      rw [qSize_push step]
      split
      next full =>
        have size := near.qSize_le few within run full
        exact (Nat.mod_le _ _).trans ((Nat.add_le_add_right size _).trans (le_max_right _ _))
      next => exact before

/-- No call reads or writes outside an array. -/
theorem GrowsNearStart.returns (near : GrowsNearStart c m calls)
    (few : ∀ part, part <+: calls → (held part).length ≤ m) (small : m + increasmentStep < 2 ^ 32) :
    (afterCalls c calls).isSome := by
  have every (part : List (Traffic α)) : part <+: calls → (afterCalls c part).isSome := by
    induction part using List.reverseRecOn with
    | nil => exact fun _ => rfl
    | append_singleton part t ih =>
      intro within
      obtain ⟨q, run⟩ :=
        Option.isSome_iff_exists.mp (ih ((List.prefix_append part [t]).trans within))
      rw [afterCalls_concat, run, Option.bind_some]
      cases t with
      | pop | popFront => rfl
      | push x =>
        obtain ⟨q', push, -⟩ := (holds_of_afterCalls run).push x fun full => by
          have size := near.qSize_le few within run full
          omega
        rw [HsocQueue.step, push]
        rfl
  exact every calls List.prefix_rfl

/-- While every growth of the array is due to the elements held, its size follows the most that
are ever held, and every call returns. -/
theorem capacity_bounded (few : ∀ part, part <+: calls → (held part).length ≤ m)
    (near : GrowsNearStart c m calls) :
    CapacityFollows c m calls ∧ (m + increasmentStep < 2 ^ 32 → (afterCalls c calls).isSome) :=
  ⟨near.capacityFollows few, near.returns few⟩

end near

/-- A queue that starts with no cells, gets twelve elements and loses two. -/
def filling : List (Traffic Nat) := List.replicate 12 (.push 7) ++ [.pop, .popFront]

theorem capacity_bounded_of_filling :
    CapacityFollows 0 12 filling ∧
      (12 + increasmentStep < 2 ^ 32 → (afterCalls 0 filling).isSome) := by
  refine capacity_bounded (fun part within => ?_) fun part x q within run full => ?_
  · have every : ∀ part ∈ filling.inits, (held part).length ≤ 12 := by decide +kernel
    exact every part ((List.mem_inits _ _).mpr within)
  · have every : ∀ part ∈ filling.inits, ∀ q ∈ afterCalls 0 part, q.qSize ≤ q.tail →
        q.head ≤ 12 - (held part).length := by decide +kernel
    have inside : part <+: filling := (List.prefix_append part _).trans within
    exact every part ((List.mem_inits _ _).mpr inside) q run full

/-- Two elements, then one out and one in, again and again. -/
def steady (rounds : Nat) : List (Traffic Nat) :=
  [.push 0, .push 0] ++ (List.replicate rounds [.pop, .push 0]).flatten

/-- No more than two elements are held, and the array of ten cells has no room any more. -/
theorem steady_exceeds :
    ¬ ∀ (c m : Nat) (calls : List (Traffic Nat)),
      (∀ part, part <+: calls → (held part).length ≤ m) → CapacityFollows c m calls := by
  intro all
  have few : ∀ part, part <+: steady 9 → (held part).length ≤ 2 := by
    intro part within
    have every : ∀ part ∈ (steady 9).inits, (held part).length ≤ 2 := by decide +kernel
    exact every part ((List.mem_inits _ _).mpr within)
  have size : (afterCalls 0 (steady 9)).map HsocQueue.qSize = some 20 := by decide +kernel
  obtain ⟨q, run, isTwenty⟩ := Option.map_eq_some_iff.mp size
  have bound := all 0 2 (steady 9) few (steady 9) q List.prefix_rfl run
  rw [isTwenty] at bound
  exact absurd bound (by decide)

end HsocQueue

end ScCosim.Helper
