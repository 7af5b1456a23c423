import ScCosim.Helper.Cells
import Mathlib.Logic.Function.Basic
import Mathlib.Algebra.Group.Nat.Defs

/-!
# `hsoc_queue`

The queue with its moving head, its two indices that go back to 0 when it is empty, and the
array that grows by `HSOC_Q_INCREASMENT_STEP`. The mutex is free at each call, so its `lock`
and `unlock` are left out.
-/
namespace ScCosim.Helper

variable {α : Type}

/-- `HSOC_Q_INCREASMENT_STEP`. -/
def increasmentStep : Nat := 10

/-- Assignment to an `unsigned int`. -/
def toUnsigned (n : Nat) : Nat := n % 2 ^ 32

/-- A `T*`: the array that a queue held when it was taken, and the index of the cell. -/
structure Place where
  array : Nat
  index : Nat
  deriving DecidableEq, Repr

/-- The fields of the class; `array` counts the arrays that the queue has held. -/
structure HsocQueue (α : Type) where
  data : Cells α
  array : Nat
  head : Nat
  tail : Nat
  qSize : Nat
  deriving DecidableEq, Repr

namespace HsocQueue

/-- `hsoc_queue(uint64 qsize)`. -/
def new (qsize : Nat) : HsocQueue α := ⟨Cells.new qsize, 0, 0, 0, toUnsigned qsize⟩

def changeArraySize (q : HsocQueue α) (newsize : Nat) : Option (HsocQueue α) := do
  -- `i` starts at `head` and `j` at 0, and both go up together
  let newData ← (Cells.new newsize).fill (fun j => q.data[q.head + j]?) 0 (q.tail - q.head)
  some
    { data := newData
      array := q.array + 1
      head := 0
      tail := toUnsigned (q.tail - q.head)
      qSize := toUnsigned newsize }

def push (q : HsocQueue α) (qdata : α) : Option (HsocQueue α) := do
  let q ← if q.qSize ≤ q.tail then q.changeArraySize (toUnsigned (q.qSize + increasmentStep))
    else some q
  let data ← q.data.store q.tail (some qdata)
  some { q with data, tail := toUnsigned (q.tail + 1) }

/-- `head++; if (head == tail) head = tail = 0;`, the common part of the two pops. -/
def advance (q : HsocQueue α) : HsocQueue α :=
  if toUnsigned (q.head + 1) = q.tail then { q with head := 0, tail := 0 }
  else { q with head := toUnsigned (q.head + 1) }

def pop (q : HsocQueue α) : HsocQueue α := if q.head < q.tail then q.advance else q

/-- `tail - head` as an `unsigned int`. -/
def size (q : HsocQueue α) : Nat := toUnsigned (q.tail + 2 ^ 32 - q.head)

def empty (q : HsocQueue α) : Bool := q.tail == q.head

/-- `&(data[head])`. -/
def first (q : HsocQueue α) : Place := ⟨q.array, q.head⟩

def front (q : HsocQueue α) : Option Place := if q.head < q.tail then some q.first else none

def popFront (q : HsocQueue α) : Option Place × HsocQueue α :=
  if q.head < q.tail then (some q.first, q.advance) else (none, q)

/-- The `uint64` index that `operator[]` computes. -/
def offset (q : HsocQueue α) (position : Nat) : Nat := (position + q.head) % 2 ^ 64

/-- `operator[]`: a reference to the cell, and what it prints. -/
def index (q : HsocQueue α) (position : Nat) : Place × Option String :=
  (⟨q.array, q.offset position⟩,
    if q.tail ≤ q.offset position then some s!"hsoc_queue[] Invalid position {position}" else none)

/-- `operator=` with another queue on the right. -/
def assign (q other : HsocQueue α) : Option (HsocQueue α) := do
  let qSize := other.size
  let data ← (Cells.new qSize).fill (fun i => other.data[(other.index i).1.index]?) 0 qSize
  some { data, array := q.array + 1, head := 0, tail := qSize, qSize }

/-- `operator=` with the queue itself on the right: `otherqueue.size()` is read after `head` was
cleared, and the loop copies the cells of the new array onto themselves. -/
def assignSelf (q : HsocQueue α) : HsocQueue α :=
  { data := Cells.new q.tail, array := q.array + 1, head := 0, tail := q.tail, qSize := q.tail }

/-- The value behind a place of this queue; a place in a deleted array has none. -/
def load (q : HsocQueue α) (p : Place) : Option α :=
  if p.array = q.array then q.data[p.index]?.join else none

/-- No index is out of order, and none reaches past the allocated cells. -/
structure InBounds (q : HsocQueue α) : Prop where
  headTail : q.head ≤ q.tail
  tailSize : q.tail ≤ q.qSize
  allocated : q.qSize ≤ q.data.length

/-- The elements of `l` are in the cells from `head` to `tail`. -/
structure Holds (q : HsocQueue α) (l : List α) : Prop extends q.InBounds where
  unsigned : q.qSize < 2 ^ 32
  length : q.tail = q.head + l.length
  cells : ∀ i x, l[i]? = some x → q.data[q.head + i]? = some (some x)

theorem holds_new (qsize : Nat) : Holds (new qsize : HsocQueue α) [] where
  headTail := Nat.le_refl _
  tailSize := Nat.zero_le _
  allocated := by
    rw [new, Cells.length_new]
    exact Nat.mod_le qsize (2 ^ 32)
  unsigned := Nat.mod_lt _ (by decide)
  length := rfl
  cells i x h := by simp at h

/-- The loops that copy a queue into a new array. -/
theorem Holds.copied {q : HsocQueue α} {l : List α} (h : q.Holds l)
    (source : Nat → Option (Option α)) (reads : ∀ i < l.length, source i = q.data[q.head + i]?)
    (newsize : Nat) (room : l.length ≤ newsize) :
    ∃ data : Cells α, (Cells.new newsize).fill source 0 l.length = some data ∧ data.length = newsize ∧
      ∀ (i : Nat) x, l[i]? = some x → data[i]? = some (some x) := by
  have given : ∀ i c, (l.map some)[i]? = some c → source (0 + i) = some c := by
    intro i c present
    rw [List.getElem?_map, Option.map_eq_some_iff] at present
    obtain ⟨x, member, rfl⟩ := present
    rw [Nat.zero_add, reads i (List.getElem?_eq_some_iff.mp member).1]
    exact h.cells i x member
  obtain ⟨data, run, length, -, between⟩ :=
    Cells.fill_eq_some source (l.map some) (Cells.new newsize) 0 given (by simpa using room)
  refine ⟨data, by simpa using run, by simpa using length, fun i x member => ?_⟩
  simpa using between i (some x) (by simp [member])

theorem Holds.changeArraySize {q : HsocQueue α} {l : List α} (h : q.Holds l) {newsize : Nat}
    (room : l.length ≤ newsize) (below : newsize < 2 ^ 32) :
    ∃ q', q.changeArraySize newsize = some q' ∧ q'.Holds l ∧ q'.head = 0 ∧ q'.qSize = newsize ∧
      q'.data.length = newsize := by
  have live : q.tail - q.head = l.length := by have := h.length; omega
  obtain ⟨data, run, length, cells⟩ :=
    h.copied (fun j => q.data[q.head + j]?) (fun _ _ => rfl) newsize room
  refine ⟨⟨data, q.array + 1, 0, l.length, newsize⟩, ?_, ?_, rfl, rfl, length⟩
  · simp only [HsocQueue.changeArraySize, live, run, toUnsigned, Option.bind_eq_bind,
      Option.bind_some, Nat.mod_eq_of_lt below, Nat.mod_eq_of_lt (Nat.lt_of_le_of_lt room below)]
  · exact
      { headTail := Nat.zero_le _
        tailSize := room
        allocated := Nat.le_of_eq length.symm
        unsigned := below
        length := (Nat.zero_add _).symm
        cells := fun i x member => by simpa using cells i x member }

/-- The part of `push` after the array has room. -/
theorem holds_append {q : HsocQueue α} {l : List α} (h : q.Holds l)
    (room : q.tail < q.qSize) (x : α) :
    q.data.store q.tail (some x) = some (q.data.set q.tail (some x)) ∧
      Holds { q with data := q.data.set q.tail (some x), tail := toUnsigned (q.tail + 1) }
        (l ++ [x]) := by
  have inside : q.tail < q.data.length := Nat.lt_of_lt_of_le room h.allocated
  have next : toUnsigned (q.tail + 1) = q.tail + 1 :=
    Nat.mod_eq_of_lt (by have := h.unsigned; omega)
  refine ⟨Cells.store_eq_some inside _, ?_⟩
  rw [next]
  exact
    { headTail := Nat.le_succ_of_le h.headTail
      tailSize := room
      allocated := by simpa using h.allocated
      unsigned := h.unsigned
      length := by have := h.length; simp only [List.length_append, List.length_singleton]; omega
      cells := by
        intro i y member
        have split := List.getElem?_eq_some_iff.mp member
        obtain ⟨below, -⟩ := split
        simp only [List.length_append, List.length_singleton] at below
        -- only the cell at `tail` is written, and it is the new element's
        by_cases last : i = l.length
        · subst last
          obtain rfl : x = y := by simpa using member
          rw [← h.length]
          exact List.getElem?_set_self inside
        · rw [List.getElem?_append_left (by omega)] at member
          simp only
          rw [List.getElem?_set_ne (by have := h.length; omega)]
          exact h.cells i y member }

theorem Holds.push {q : HsocQueue α} {l : List α} (h : q.Holds l) (x : α)
    (fits : q.qSize ≤ q.tail → q.qSize + increasmentStep < 2 ^ 32) :
    ∃ q', q.push x = some q' ∧ q'.Holds (l ++ [x]) := by
  by_cases full : q.qSize ≤ q.tail
  · -- The array grows, and the elements move to its start.
    have live : l.length ≤ q.qSize := by have := h.length; have := h.tailSize; omega
    have below := fits full
    have larger : l.length ≤ q.qSize + increasmentStep := by omega
    obtain ⟨grown, run, holds, head, size, -⟩ := h.changeArraySize larger below
    have room : grown.tail < grown.qSize := by
      rw [holds.length, head, size, increasmentStep]
      omega
    obtain ⟨stored, result⟩ := holds_append holds room x
    refine ⟨_, ?_, result⟩
    have same : toUnsigned (q.qSize + increasmentStep) = q.qSize + increasmentStep :=
      Nat.mod_eq_of_lt below
    simp only [HsocQueue.push, if_pos full, same, run, stored, Option.bind_eq_bind,
      Option.bind_some]
  · obtain ⟨stored, result⟩ := holds_append h (Nat.lt_of_not_le full) x
    refine ⟨_, ?_, result⟩
    simp only [HsocQueue.push, if_neg full, stored, Option.bind_eq_bind, Option.bind_some]

theorem Holds.lt_iff {q : HsocQueue α} {l : List α} (h : q.Holds l) :
    q.head < q.tail ↔ l ≠ [] := by
  rw [h.length, ← List.length_pos_iff]
  omega

theorem Holds.advance {q : HsocQueue α} {x : α} {l : List α} (h : q.Holds (x :: l)) :
    q.advance.Holds l := by
  have length := h.length
  have sized := h.tailSize
  have unsigned := h.unsigned
  simp only [List.length_cons] at length
  have next : toUnsigned (q.head + 1) = q.head + 1 := Nat.mod_eq_of_lt (by omega)
  unfold HsocQueue.advance
  rw [next]
  split
  case isTrue last =>
    -- the last element leaves, and both indices go back to 0
    have none : l = [] := List.eq_nil_of_length_eq_zero (by omega)
    subst none
    exact
      { headTail := Nat.le_refl _
        tailSize := Nat.zero_le _
        allocated := h.allocated
        unsigned := h.unsigned
        length := rfl
        cells := fun i y member => by simp at member }
  case isFalse more =>
    exact
      { headTail := by simp only; omega
        tailSize := h.tailSize
        allocated := h.allocated
        unsigned := h.unsigned
        length := by simp only; omega
        cells := by
          intro i y member
          have := h.cells (i + 1) y (by simpa using member)
          simpa only [Nat.add_assoc, Nat.add_comm 1 i] using this }

theorem Holds.pop {q : HsocQueue α} {l : List α} (h : q.Holds l) : q.pop.Holds l.tail := by
  unfold HsocQueue.pop
  cases l with
  | nil =>
    rw [if_neg (fun some => h.lt_iff.mp some rfl)]
    exact h
  | cons x rest =>
    rw [if_pos (h.lt_iff.mpr (List.cons_ne_nil _ _))]
    exact h.advance

theorem popFront_snd (q : HsocQueue α) : q.popFront.2 = q.pop := by
  unfold popFront pop
  split <;> rfl

theorem popFront_fst (q : HsocQueue α) : q.popFront.1 = q.front := by
  unfold popFront front
  split <;> rfl

theorem Holds.size {q : HsocQueue α} {l : List α} (h : q.Holds l) : q.size = l.length := by
  have length := h.length
  have sized := h.tailSize
  have unsigned := h.unsigned
  simp only [HsocQueue.size, toUnsigned]
  rw [show q.tail + 2 ^ 32 - q.head = l.length + 2 ^ 32 by omega, Nat.add_mod_right]
  exact Nat.mod_eq_of_lt (by omega)

theorem Holds.empty {q : HsocQueue α} {l : List α} (h : q.Holds l) : q.empty = l.isEmpty := by
  have length := h.length
  cases l with
  | nil => simpa [HsocQueue.empty] using length
  | cons x rest =>
    simp only [List.length_cons] at length
    simp only [HsocQueue.empty, List.isEmpty_cons, beq_eq_false_iff_ne]
    omega

theorem Holds.front_eq_none_iff {q : HsocQueue α} {l : List α} (h : q.Holds l) :
    q.front = none ↔ l = [] := by
  unfold HsocQueue.front
  split
  case isTrue some => simp [h.lt_iff.mp some]
  case isFalse none => simpa [h.lt_iff] using none

/-- The pointer that `front` returns leads to the first element. -/
theorem Holds.front_points {q : HsocQueue α} {l : List α} (h : q.Holds l) {x : α}
    (head : l.head? = some x) : ∃ p, q.front = some p ∧ q.load p = some x := by
  cases l with
  | nil => simp at head
  | cons y rest =>
    obtain rfl : y = x := by simpa using head
    have first := h.cells 0 y rfl
    refine ⟨q.first, if_pos (h.lt_iff.mpr (List.cons_ne_nil _ _)), ?_⟩
    simp only [load, HsocQueue.first, if_true]
    rw [Nat.add_zero] at first
    rw [first]
    rfl

/-- Another queue value with the same array, as after a pop. -/
def SameCells (q q' : HsocQueue α) : Prop := q'.data = q.data ∧ q'.array = q.array

theorem sameCells_pop (q : HsocQueue α) : q.SameCells q.pop := by
  unfold pop advance
  split
  · split <;> exact ⟨rfl, rfl⟩
  · exact ⟨rfl, rfl⟩

theorem SameCells.load {q q' : HsocQueue α} (h : q.SameCells q') (p : Place) :
    q'.load p = q.load p := by
  unfold HsocQueue.load
  rw [h.1, h.2]

theorem Holds.offset {q : HsocQueue α} {l : List α} (h : q.Holds l) {i : Nat}
    (below : i < l.length) : q.offset i = q.head + i := by
  have := h.length
  have := h.tailSize
  have := h.unsigned
  rw [HsocQueue.offset, Nat.add_comm]
  exact Nat.mod_eq_of_lt (by omega)

theorem Holds.index {q : HsocQueue α} {l : List α} (h : q.Holds l) {i : Nat} {x : α}
    (member : l[i]? = some x) : (q.index i).2 = none ∧ q.load (q.index i).1 = some x := by
  obtain ⟨below, -⟩ := List.getElem?_eq_some_iff.mp member
  have length := h.length
  simp only [HsocQueue.index, h.offset below, load, if_true]
  refine ⟨if_neg (by omega), ?_⟩
  rw [h.cells i x member]
  rfl

theorem Holds.assign {q other : HsocQueue α} {l : List α} (h : other.Holds l) :
    ∃ q', q.assign other = some q' ∧ q'.Holds l := by
  have size := h.size
  have below : l.length < 2 ^ 32 := by
    have := h.length
    have := h.tailSize
    have := h.unsigned
    omega
  have reads : ∀ i < l.length, other.data[(other.index i).1.index]? = other.data[other.head + i]? :=
    fun i inside => by rw [HsocQueue.index, h.offset inside]
  obtain ⟨data, run, length, cells⟩ := h.copied _ reads l.length (Nat.le_refl _)
  refine ⟨⟨data, q.array + 1, 0, l.length, l.length⟩, ?_, ?_⟩
  · simp only [HsocQueue.assign, size, run, Option.bind_eq_bind, Option.bind_some]
  · exact
      { headTail := Nat.zero_le _
        tailSize := Nat.le_refl _
        allocated := Nat.le_of_eq length.symm
        unsigned := below
        length := (Nat.zero_add _).symm
        cells := fun i x member => by simpa using cells i x member }

end HsocQueue

/-! ## Programs with many queues -/

/-- A call on one queue; `assign j` has queue `j` on the right of `=`. -/
inductive Call (α : Type) where
  | push (qdata : α)
  | pop
  | popFront
  | front
  | size
  | empty
  | index (position : Nat)
  | assign (other : Nat)
  deriving DecidableEq, Repr

def Call.isPush : Call α → Bool
  | .push _ => true
  | _ => false

/-- What a call returns; for `operator[]` also what it prints. -/
inductive Answer where
  | done
  | pointer (place : Option Place)
  | number (n : Nat)
  | truth (b : Bool)
  | reference (place : Place) (printed : Option String)
  deriving DecidableEq, Repr

/-- The place that a caller can read through. -/
def Answer.place : Answer → Option Place
  | .pointer place => place
  | .reference place _ => some place
  | _ => none

abbrev Queues (α : Type) := Nat → HsocQueue α

namespace Queues

open Function (update)

/-- The queues of a program, queue `k` made with capacity `capacities k`. -/
def created (capacities : Nat → Nat) : Queues α := fun k => HsocQueue.new (capacities k)

/-- A call on queue `k`, unless it reads or writes outside an array. -/
def call (qs : Queues α) (k : Nat) : Call α → Option (Queues α × Answer)
  | .push qdata => ((qs k).push qdata).map fun q => (update qs k q, .done)
  | .pop => some (update qs k (qs k).pop, .done)
  | .popFront => some (update qs k (qs k).popFront.2, .pointer (qs k).popFront.1)
  | .front => some (qs, .pointer (qs k).front)
  | .size => some (qs, .number (qs k).size)
  | .empty => some (qs, .truth (qs k).empty)
  | .index position => some (qs, .reference ((qs k).index position).1 ((qs k).index position).2)
  | .assign other =>
    if other = k then some (update qs k (qs k).assignSelf, .done)
    else ((qs k).assign (qs other)).map fun q => (update qs k q, .done)

/-- The queues after a sequence of calls. -/
def run : Queues α → List (Nat × Call α) → Option (Queues α)
  | qs, [] => some qs
  | qs, (k, c) :: rest => (qs.call k c).bind fun next => run next.1 rest

/-- No `push` of the sequence makes an array of 2^32 cells or more. -/
def Fits : Queues α → List (Nat × Call α) → Prop
  | _, [] => True
  | qs, (k, c) :: rest =>
    (c.isPush = true → (qs k).qSize ≤ (qs k).tail → (qs k).qSize + increasmentStep < 2 ^ 32) ∧
      ∀ next ∈ qs.call k c, Fits next.1 rest

instance decidableFits : (qs : Queues α) → (calls : List (Nat × Call α)) → Decidable (qs.Fits calls)
  | _, [] => inferInstanceAs (Decidable True)
  | qs, (k, c) :: rest =>
    have : ∀ next : Queues α × Answer, Decidable (Fits next.1 rest) :=
      fun next => decidableFits next.1 rest
    inferInstanceAs (Decidable ((c.isPush = true → (qs k).qSize ≤ (qs k).tail →
      (qs k).qSize + increasmentStep < 2 ^ 32) ∧ ∀ next ∈ qs.call k c, Fits next.1 rest))

end Queues

/-! ## Lists -/

/-- What a call does to lists. -/
def listCall (ls : Nat → List α) (k : Nat) : Call α → Nat → List α
  | .push x => Function.update ls k (ls k ++ [x])
  | .pop | .popFront => Function.update ls k (ls k).tail
  | .assign other => Function.update ls k (ls other)
  | .front | .size | .empty | .index _ => ls

def listRun (ls : Nat → List α) (calls : List (Nat × Call α)) : Nat → List α :=
  calls.foldl (fun ls e => listCall ls e.1 e.2) ls

/-- What a list answers to a call, places left aside. -/
def Answer.Right (l : List α) : Call α → Answer → Prop
  | .push _, a | .pop, a | .assign _, a => a = .done
  | .popFront, a | .front, a => ∃ place, a = .pointer place ∧ (place = none ↔ l = [])
  | .size, a => a = .number l.length
  | .empty, a => a = .truth l.isEmpty
  | .index i, a => ∃ place printed, a = .reference place printed ∧ (i < l.length → printed = none)

/-- The element that the place in a call's answer holds. -/
def pointed (l : List α) : Call α → Option α
  | .popFront | .front => l.head?
  | .index i => l[i]?
  | _ => none

/-- A call after which the places of the queue are not to be used. -/
def Call.moves : Call α → Bool
  | .push _ | .assign _ => true
  | _ => false

/-- Every queue holds the list of its number. -/
def Queues.Hold (qs : Queues α) (ls : Nat → List α) : Prop := ∀ k, (qs k).Holds (ls k)

theorem Queues.Hold.update {qs : Queues α} {ls : Nat → List α} (h : qs.Hold ls) (k : Nat)
    {q : HsocQueue α} {l : List α} (holds : q.Holds l) :
    Queues.Hold (Function.update qs k q) (Function.update ls k l) := by
  intro j
  by_cases same : j = k
  · subst same
    simpa only [Function.update_self] using holds
  · simpa only [Function.update_of_ne same] using h j

/-- One call does to the queues what it does to the lists, and answers as they do. -/
theorem call_refines {qs : Queues α} {ls : Nat → List α} (h : qs.Hold ls) (k : Nat) (c : Call α)
    (apart : c ≠ .assign k)
    (fits : c.isPush = true → (qs k).qSize ≤ (qs k).tail →
      (qs k).qSize + increasmentStep < 2 ^ 32) :
    ∃ next a, qs.call k c = some (next, a) ∧ next.Hold (listCall ls k c) ∧ a.Right (ls k) c ∧
      ∀ x, pointed (ls k) c = some x → ∃ p, a.place = some p ∧ (next k).load p = some x := by
  cases c with
  | push x =>
    obtain ⟨q, run, holds⟩ := (h k).push x (fits rfl)
    exact ⟨_, _, by rw [Queues.call, run]; rfl, h.update k holds, rfl, fun y none => nomatch none⟩
  | pop => exact ⟨_, _, rfl, h.update k (h k).pop, rfl, fun y none => nomatch none⟩
  | popFront =>
    refine ⟨_, _, rfl, ?_, ⟨_, rfl, ?_⟩, ?_⟩
    · rw [HsocQueue.popFront_snd]
      exact h.update k (h k).pop
    · rw [HsocQueue.popFront_fst]
      exact (h k).front_eq_none_iff
    · intro x head
      obtain ⟨p, front, points⟩ := (h k).front_points head
      refine ⟨p, by rw [HsocQueue.popFront_fst]; exact front, ?_⟩
      rw [Function.update_self, HsocQueue.popFront_snd, (HsocQueue.sameCells_pop _).load]
      exact points
  | front =>
    exact ⟨_, _, rfl, h, ⟨_, rfl, (h k).front_eq_none_iff⟩, fun x head => (h k).front_points head⟩
  | size =>
    exact ⟨_, _, rfl, h, congrArg Answer.number (h k).size, fun y none => nomatch none⟩
  | empty =>
    exact ⟨_, _, rfl, h, congrArg Answer.truth (h k).empty, fun y none => nomatch none⟩
  | index i =>
    refine ⟨_, _, rfl, h, ⟨_, _, rfl, fun below => ?_⟩, fun x member => ?_⟩
    · exact ((h k).index (List.getElem?_eq_getElem below)).1
    · exact ⟨_, rfl, ((h k).index member).2⟩
  | assign other =>
    have different : other ≠ k := fun same => apart (by rw [same])
    obtain ⟨q, run, holds⟩ := (h other).assign (q := qs k)
    refine ⟨_, _, ?_, h.update k holds, rfl, fun y none => nomatch none⟩
    simp only [Queues.call, if_neg different, run]
    rfl

theorem created_hold (capacities : Nat → Nat) :
    (Queues.created capacities : Queues α).Hold fun _ => [] := fun _ => HsocQueue.holds_new _

/-- The calls that a sequence makes on queue `k` leave its places valid. -/
def Stays (k : Nat) (calls : List (Nat × Call α)) : Prop :=
  ∀ e ∈ calls, e.1 = k → e.2.moves = false

/-- No queue is assigned to itself. -/
def Apart (calls : List (Nat × Call α)) : Prop := ∀ e ∈ calls, e.2 ≠ .assign e.1

/-- A whole run does to the queues what it does to the lists. -/
theorem run_refines {qs : Queues α} {ls : Nat → List α} (h : qs.Hold ls)
    (calls : List (Nat × Call α)) (apart : Apart calls) (fits : qs.Fits calls) :
    ∃ last, qs.run calls = some last ∧ last.Hold (listRun ls calls) := by
  induction calls generalizing qs ls with
  | nil => exact ⟨qs, rfl, h⟩
  | cons e rest ih =>
    obtain ⟨k, c⟩ := e
    obtain ⟨next, a, step, holds, -⟩ := call_refines h k c (apart _ List.mem_cons_self) fits.1
    have apart : Apart rest := fun e member => apart e (List.mem_cons_of_mem _ member)
    obtain ⟨last, run, result⟩ := ih holds apart (fits.2 _ step)
    exact ⟨last, by rw [Queues.run, step]; exact run, result⟩

/-- What a call can change: its own queue, and there the cells only if it moves them. -/
theorem call_changes {qs : Queues α} {j : Nat} {c : Call α} {next : Queues α × Answer}
    (step : qs.call j c = some next) :
    ∃ q, next.1 = Function.update qs j q ∧ (c.moves = false → (qs j).SameCells q) := by
  cases c with
  | push x =>
    obtain ⟨q, -, rfl⟩ := Option.map_eq_some_iff.mp step
    exact ⟨q, rfl, fun stays => nomatch stays⟩
  | assign source =>
    simp only [Queues.call] at step
    split at step
    · cases step
      exact ⟨_, rfl, fun stays => nomatch stays⟩
    · obtain ⟨q, -, rfl⟩ := Option.map_eq_some_iff.mp step
      exact ⟨q, rfl, fun stays => nomatch stays⟩
  | pop =>
    cases step
    exact ⟨_, rfl, fun _ => HsocQueue.sameCells_pop _⟩
  | popFront =>
    cases step
    exact ⟨_, rfl, fun _ => by rw [HsocQueue.popFront_snd]; exact HsocQueue.sameCells_pop _⟩
  | front | size | empty | index i =>
    cases step
    exact ⟨qs j, (Function.update_eq_self j qs).symm, fun _ => ⟨rfl, rfl⟩⟩

/-- Until its cells move, every place in queue `k` keeps its value. -/
theorem load_call {qs : Queues α} {j : Nat} {c : Call α} {next : Queues α × Answer}
    (step : qs.call j c = some next) (k : Nat) (stays : j = k → c.moves = false) (p : Place) :
    (next.1 k).load p = (qs k).load p := by
  obtain ⟨q, changed, same⟩ := call_changes step
  rw [changed]
  by_cases own : k = j
  · subst own
    rw [Function.update_self]
    exact (same (stays rfl)).load p
  · rw [Function.update_of_ne own]

theorem load_run {qs last : Queues α} (calls : List (Nat × Call α))
    (run : qs.run calls = some last) (k : Nat) (stays : Stays k calls) (p : Place) :
    (last k).load p = (qs k).load p := by
  induction calls generalizing qs with
  | nil => cases run; rfl
  | cons e rest ih =>
    obtain ⟨j, c⟩ := e
    rw [Queues.run, Option.bind_eq_some_iff] at run
    obtain ⟨next, step, run⟩ := run
    rw [ih run fun e member => stays e (List.mem_cons_of_mem _ member)]
    exact load_call step k (stays _ List.mem_cons_self) p

theorem fits_append {qs : Queues α} {before after : List (Nat × Call α)}
    (fits : qs.Fits (before ++ after)) :
    qs.Fits before ∧ ∀ middle ∈ qs.run before, Queues.Fits middle after := by
  induction before generalizing qs with
  | nil => exact ⟨trivial, fun middle same => by cases same; exact fits⟩
  | cons e rest ih =>
    obtain ⟨k, c⟩ := e
    obtain ⟨here, later⟩ := fits
    refine ⟨⟨here, fun next step => (ih (later next step)).1⟩, fun middle run => ?_⟩
    obtain ⟨next, step, run⟩ := Option.bind_eq_some_iff.mp run
    exact (ih (later next step)).2 middle run

/-- Whatever is called, in whatever order: the queues behave as lists, their indices stay in
order and inside the arrays, and the place that a call returns leads to the element it is
about until the next `push` or assignment to its queue. -/
theorem queue_is_fifo (capacities : Nat → Nat) (before after : List (Nat × Call α)) (k : Nat)
    (c : Call α) (apart : Apart (before ++ (k, c) :: after))
    (fits : (Queues.created capacities).Fits (before ++ (k, c) :: after)) :
    ∃ qs next a last, (Queues.created capacities).run before = some qs ∧
      qs.call k c = some (next, a) ∧ next.run after = some last ∧
      (∀ j, (next j).InBounds) ∧ a.Right (listRun (fun _ => []) before k) c ∧
      ∀ x, pointed (listRun (fun _ => []) before k) c = some x → Stays k after →
        ∃ p, a.place = some p ∧ (last k).load p = some x := by
  have apartHere : c ≠ .assign k := apart (k, c) (by simp)
  have apartBefore : Apart before := fun e member => apart e (List.mem_append_left _ member)
  have apartAfter : Apart after := fun e member =>
    apart e (List.mem_append_right _ (List.mem_cons_of_mem _ member))
  obtain ⟨fitsBefore, fitsRest⟩ := fits_append fits
  obtain ⟨qs, first, holds⟩ := run_refines (created_hold capacities) before apartBefore fitsBefore
  obtain ⟨fitsHere, fitsAfter⟩ := fitsRest qs first
  obtain ⟨next, a, step, holdsNext, right, points⟩ := call_refines holds k c apartHere fitsHere
  obtain ⟨last, rest, -⟩ := run_refines holdsNext after apartAfter (fitsAfter _ step)
  refine ⟨qs, next, a, last, first, step, rest, fun j => (holdsNext j).toInBounds, right, ?_⟩
  intro x element stays
  obtain ⟨p, place, value⟩ := points x element
  exact ⟨p, place, by rw [load_run after rest k stays]; exact value⟩

/-- A queue that starts with no cells, is filled and emptied, and is copied into another. -/
theorem queue_is_fifo_copied :
    ∃ qs next a last, (Queues.created fun _ => 0).run [(0, .push 5), (0, .push 7), (0, .pop),
        (1, .assign 0)] = some qs ∧
      qs.call 1 .popFront = some (next, a) ∧
      next.run [(1, .empty), (0, .push 9)] = some last ∧
      (∀ j, (next j).InBounds) ∧ a.Right (listRun (fun _ => []) [(0, .push 5), (0, .push 7),
        (0, .pop), (1, .assign 0)] 1) .popFront ∧
      ∀ x, pointed (listRun (fun _ => []) [(0, .push 5), (0, .push 7), (0, .pop),
          (1, .assign 0)] 1) .popFront = some x →
        Stays 1 [(1, .empty), (0, .push 9)] → ∃ p, a.place = some p ∧ (last 1).load p = some x :=
  queue_is_fifo (fun _ => 0) [(0, .push 5), (0, .push 7), (0, .pop), (1, .assign 0)]
    [(1, .empty), (0, .push 9)] 1 .popFront (by unfold Apart; decide) (by decide +kernel)

end ScCosim.Helper
