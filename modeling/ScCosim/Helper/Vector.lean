import ScCosim.Helper.Queue
import Mathlib.Data.List.Nodup
import Mathlib.Algebra.Group.Nat.Defs

/-!
# `hsoc_vector`

The vector is a doubly linked chain of heap elements, with a pointer to either end. A
pointer is an address or NULL, and following NULL or a deleted element has no result.
-/
namespace ScCosim.Helper

variable {α : Type}

/-- A `contained_struct*`, or the `T*` to the data inside it. -/
abbrev Link := Option Nat

/-- `contained_struct`. -/
structure Element (α : Type) where
  data : α
  pos : Nat
  next : Link
  preview : Link
  deriving DecidableEq, Repr

/-- The class with the part of the heap that it owns. Addresses below `allocated` have been
returned by `new`. -/
structure HsocVector (α : Type) where
  memory : Nat → Option (Element α)
  allocated : Nat
  mElement : Link
  mLastElement : Link
  mSize : Nat

namespace HsocVector

open Function (update)

def new : HsocVector α := ⟨fun _ => none, 0, none, none, 0⟩

/-- `new contained_struct`, filled in. -/
def allocate (v : HsocVector α) (e : Element α) : HsocVector α :=
  { v with memory := update v.memory v.allocated (some e), allocated := v.allocated + 1 }

/-- `p->next = link`. -/
def setNext (v : HsocVector α) (p : Link) (link : Link) : Option (HsocVector α) := do
  let p ← p
  let e ← v.memory p
  some { v with memory := update v.memory p (some { e with next := link }) }

/-- `delete p`. -/
def delete (v : HsocVector α) (p : Nat) : HsocVector α :=
  { v with memory := update v.memory p none }

/-- `m_size--` on an `unsigned int`. -/
def decrement (v : HsocVector α) : HsocVector α :=
  { v with mSize := toUnsigned (v.mSize + 2 ^ 32 - 1) }

def pushBack (v : HsocVector α) (data : α) : Option (HsocVector α) :=
  let newElement := v.allocated
  let v' := v.allocate ⟨data, v.mSize, none, v.mLastElement⟩
  let v' := { v' with mSize := toUnsigned (v.mSize + 1) }
  if v.mLastElement ≠ none then do
    let v' ← v'.setNext v.mLastElement (some newElement)
    some { v' with mLastElement := some newElement }
  else some { v' with mLastElement := some newElement, mElement := some newElement }

def popBack (v : HsocVector α) : Option (HsocVector α) :=
  if v.mElement = none then some v
  else do
    let delElement ← v.mLastElement
    let last ← v.memory delElement
    let v' := { v with mLastElement := last.preview }
    let v' ← v'.setNext last.preview none
    some (v'.decrement.delete delElement)

def size (v : HsocVector α) : Nat := v.mSize

def empty (v : HsocVector α) : Bool := v.mElement == none

/-- The loop of `operator[]`, for at most so many elements. -/
def search (v : HsocVector α) (pos : Nat) : Nat → Link → Option Link
  | _, none => some none
  | 0, some _ => none
  | fuel + 1, some curElement => do
    let e ← v.memory curElement
    if e.pos = pos then some (some curElement) else v.search pos fuel e.next

/-- `operator[]`. A walk over more elements than were ever made has come back to one of them. -/
def index (v : HsocVector α) (pos : Nat) : Option Link := v.search pos v.allocated v.mElement

/-- The loop of `clear`, for at most so many elements. -/
def deleteFrom : Nat → HsocVector α → Link → Option (HsocVector α)
  | _, v, none => some v
  | 0, _, some _ => none
  | fuel + 1, v, some tmpElement => do
    let e ← v.memory tmpElement
    deleteFrom fuel (v.delete tmpElement).decrement e.next

def clear (v : HsocVector α) : Option (HsocVector α) := do
  let v' ← deleteFrom v.allocated v v.mElement
  some { v' with mLastElement := none, mElement := none }

/-! ## The chain -/

/-- The address of the `i`-th of a list of elements. -/
def linkAt (chain : List (Nat × α)) (i : Nat) : Link := chain[i]?.map Prod.fst

/-- The address of the one before it. -/
def linkBefore (chain : List (Nat × α)) : Nat → Link
  | 0 => none
  | i + 1 => linkAt chain i

/-- The vector's pointers lead along `chain`, a list of addresses with the data there, in both
directions; the positions are 0, 1, 2, ... -/
structure Chained (v : HsocVector α) (chain : List (Nat × α)) : Prop where
  elements : ∀ i e, chain[i]? = some e →
    v.memory e.1 = some ⟨e.2, i, linkAt chain (i + 1), linkBefore chain i⟩
  distinct : (chain.map Prod.fst).Nodup
  made : ∀ e ∈ chain, e.1 < v.allocated
  enough : chain.length ≤ v.allocated
  first : v.mElement = linkAt chain 0
  last : v.mLastElement = linkBefore chain chain.length
  size : v.mSize = chain.length
  unsigned : chain.length < 2 ^ 32

theorem chained_new : Chained (new : HsocVector α) [] where
  elements i e h := by simp at h
  distinct := List.nodup_nil
  made e member := nomatch member
  enough := Nat.le_refl _
  first := rfl
  last := rfl
  size := rfl
  unsigned := Nat.two_pow_pos 32

theorem linkAt_append {chain : List (Nat × α)} {i : Nat} (h : i < chain.length)
    (rest : List (Nat × α)) : linkAt (chain ++ rest) i = linkAt chain i := by
  rw [linkAt, List.getElem?_append_left h, linkAt]

theorem linkBefore_append {chain : List (Nat × α)} {i : Nat} (h : i ≤ chain.length)
    (rest : List (Nat × α)) : linkBefore (chain ++ rest) i = linkBefore chain i := by
  cases i with
  | zero => rfl
  | succ i => exact linkAt_append h rest

theorem linkAt_length (chain : List (Nat × α)) (e : Nat × α) :
    linkAt (chain ++ [e]) chain.length = some e.1 := by
  simp [linkAt]

theorem linkAt_of_le {chain : List (Nat × α)} {i : Nat} (h : chain.length ≤ i) :
    linkAt chain i = none := by
  rw [linkAt, List.getElem?_eq_none h]
  rfl

/-- Two places of the chain with one address are the same place. -/
theorem Chained.place_eq {v : HsocVector α} {chain : List (Nat × α)} (h : v.Chained chain)
    {i j : Nat} {e f : Nat × α} (atI : chain[i]? = some e) (atJ : chain[j]? = some f)
    (same : e.1 = f.1) : i = j := by
  have left : (chain.map Prod.fst)[i]? = some e.1 := by rw [List.getElem?_map, atI]; rfl
  have right : (chain.map Prod.fst)[j]? = some f.1 := by rw [List.getElem?_map, atJ]; rfl
  obtain ⟨below, -⟩ := List.getElem?_eq_some_iff.mp left
  exact (List.getElem?_inj below h.distinct).mp (by rw [left, right, same])

/-- A new element at the end of an empty chain. -/
private theorem chained_single (v : HsocVector α) (h : v.Chained []) (x : α) :
    Chained
      { v.allocate ⟨x, v.mSize, none, v.mLastElement⟩ with
        mSize := toUnsigned (v.mSize + 1)
        mLastElement := some v.allocated
        mElement := some v.allocated } [(v.allocated, x)] where
  elements i e here := by
    cases i with
    | zero =>
      obtain rfl : (v.allocated, x) = e := by simpa using here
      simp only [allocate, Function.update_self, h.size, h.last]
      rfl
    | succ i => simp at here
  distinct := List.nodup_singleton _
  made e member := by
    rw [List.mem_singleton.mp member]
    exact Nat.lt_succ_self _
  enough := Nat.succ_le_succ (Nat.zero_le _)
  first := rfl
  last := rfl
  size := by
    rw [h.size]
    rfl
  unsigned := by simp

/-- A new element behind a last one, whose `next` is set. -/
private theorem chained_append (v : HsocVector α) (init : List (Nat × α)) (p : Nat) (y x : α)
    (h : v.Chained (init ++ [(p, y)])) (below : init.length + 2 < 2 ^ 32) :
    Chained
      { v with
        memory := update (update v.memory v.allocated
            (some ⟨x, v.mSize, none, v.mLastElement⟩)) p
          (some ⟨y, init.length, some v.allocated, linkBefore (init ++ [(p, y)]) init.length⟩)
        allocated := v.allocated + 1
        mSize := toUnsigned (v.mSize + 1)
        mLastElement := some v.allocated } (init ++ [(p, y)] ++ [(v.allocated, x)]) where
  elements i e here := by
    have length : (init ++ [(p, y)]).length = init.length + 1 := by simp
    have last : (init ++ [(p, y)])[init.length]? = some (p, y) := by simp
    have old : p < v.allocated := h.made (p, y) (by simp)
    rcases Nat.lt_trichotomy i (init.length + 1) with below | same | beyond
    · -- Of the old elements only the last is changed: its `next` is now the new one.
      rw [List.getElem?_append_left (by omega)] at here
      have made := h.made e (List.mem_of_getElem? here)
      rw [linkBefore_append (show i ≤ (init ++ [(p, y)]).length by omega)]
      by_cases isLast : i = init.length
      · subst isLast
        obtain rfl : (p, y) = e := by simpa using here
        have next : linkAt (init ++ [(p, y)] ++ [(v.allocated, x)]) (init.length + 1) =
            some v.allocated := by
          rw [← length]
          exact linkAt_length _ _
        simp only [Function.update_self, next]
      · have different : e.1 ≠ p := fun same => isLast (h.place_eq here last same)
        rw [linkAt_append (by omega)]
        simp only [Function.update_of_ne different, Function.update_of_ne (Nat.ne_of_lt made)]
        exact h.elements i e here
    · -- The new element; its `preview` is the old last one.
      subst same
      obtain rfl : (v.allocated, x) = e := by
        rw [← length] at here
        simpa using here
      rw [linkAt_of_le (by simp), ← length,
        linkBefore_append (Nat.le_refl (init ++ [(p, y)]).length)]
      simp only [Function.update_of_ne (Nat.ne_of_gt old), Function.update_self, h.size, h.last]
    · rw [List.getElem?_eq_none (by simp; omega)] at here
      simp at here
  distinct := by
    rw [List.map_append, List.map_singleton, List.nodup_append]
    refine ⟨h.distinct, List.nodup_singleton _, fun a member b isNew same => ?_⟩
    obtain ⟨e, old, rfl⟩ := List.mem_map.mp member
    rw [List.mem_singleton.mp isNew] at same
    exact Nat.ne_of_lt (h.made e old) same
  made e member := by
    rcases List.mem_append.mp member with old | isNew
    · exact Nat.lt_succ_of_lt (h.made e old)
    · rw [List.mem_singleton.mp isNew]
      exact Nat.lt_succ_self _
  enough := by
    have := h.enough
    simp only [List.length_append, List.length_singleton] at this ⊢
    omega
  first := by
    rw [linkAt_append (by simp)]
    exact h.first
  last := by
    rw [List.length_append, List.length_singleton, linkBefore, linkAt_length]
  size := by
    rw [h.size]
    simp only [List.length_append, List.length_singleton]
    exact Nat.mod_eq_of_lt below
  unsigned := by simpa using below

theorem Chained.pushBack {v : HsocVector α} {chain : List (Nat × α)} (h : v.Chained chain) (x : α)
    (fits : v.mSize + 1 < 2 ^ 32) :
    ∃ v', v.pushBack x = some v' ∧ v'.Chained (chain ++ [(v.allocated, x)]) := by
  obtain rfl | ⟨init, ⟨p, y⟩, rfl⟩ := List.eq_nil_or_concat' chain
  · refine ⟨_, ?_, chained_single v h x⟩
    rw [HsocVector.pushBack, if_neg (by simp [h.last, linkBefore])]
  · have last : v.mLastElement = some p := by
      rw [h.last, List.length_append, List.length_singleton]
      exact linkAt_length init (p, y)
    have old : p < v.allocated := h.made (p, y) (by simp)
    have element := h.elements init.length (p, y) (by simp)
    rw [linkAt_of_le (by simp)] at element
    rw [h.size, List.length_append, List.length_singleton] at fits
    refine ⟨_, ?_, chained_append v init p y x h fits⟩
    simp only [HsocVector.pushBack, last, setNext, allocate, ne_eq, reduceCtorEq,
      not_false_eq_true, if_true, Option.bind_eq_bind, Option.bind_some,
      Function.update_of_ne (Nat.ne_of_lt old), element]

/-- The last of two or more elements is taken away. -/
private theorem chained_dropLast (v : HsocVector α) (init : List (Nat × α)) (q p : Nat) (y x : α)
    (h : v.Chained (init ++ [(q, y)] ++ [(p, x)])) :
    Chained
      (HsocVector.delete (HsocVector.decrement
        { v with
          memory := update v.memory q
            (some ⟨y, init.length, none, linkBefore (init ++ [(q, y)] ++ [(p, x)]) init.length⟩)
          mLastElement := some q }) p) (init ++ [(q, y)]) where
  elements i e here := by
    have length : (init ++ [(q, y)]).length = init.length + 1 := by simp
    obtain ⟨below, -⟩ := List.getElem?_eq_some_iff.mp here
    have whole : (init ++ [(q, y)] ++ [(p, x)])[i]? = some e := by
      rw [List.getElem?_append_left below]
      exact here
    have last : (init ++ [(q, y)] ++ [(p, x)])[init.length + 1]? = some (p, x) := by simp
    have second : (init ++ [(q, y)] ++ [(p, x)])[init.length]? = some (q, y) := by simp
    have kept : e.1 ≠ p := fun same => by
      have := h.place_eq whole last same
      omega
    rw [length] at below
    have before : linkBefore (init ++ [(q, y)]) i =
        linkBefore (init ++ [(q, y)] ++ [(p, x)]) i := (linkBefore_append (by omega) _).symm
    simp only [delete, decrement, Function.update_of_ne kept, before]
    by_cases isLast : i = init.length
    · -- The element that becomes the last has lost its `next`.
      subst isLast
      obtain rfl : (q, y) = e := by simpa using here
      rw [Function.update_self, linkAt_of_le (by simp)]
    · have different : e.1 ≠ q := fun same => isLast (h.place_eq whole second same)
      rw [Function.update_of_ne different, h.elements i e whole, linkAt_append (by omega)]
  distinct := by
    have := h.distinct
    rw [List.map_append] at this
    exact (List.nodup_append.mp this).1
  made e member := h.made e (List.mem_append_left _ member)
  enough := by
    have := h.enough
    simp only [delete, decrement, List.length_append, List.length_singleton] at this ⊢
    omega
  first := by
    rw [← linkAt_append (by simp) [(p, x)]]
    exact h.first
  last := by
    rw [List.length_append, List.length_singleton, linkBefore, linkAt_length]
    rfl
  size := by
    have := h.unsigned
    simp only [delete, decrement, h.size, List.length_append, List.length_singleton] at this ⊢
    rw [show init.length + 1 + 1 + 2 ^ 32 - 1 = init.length + 1 + 2 ^ 32 by omega, toUnsigned,
      Nat.add_mod_right]
    exact Nat.mod_eq_of_lt (by omega)
  unsigned := by
    have := h.unsigned
    simp only [List.length_append, List.length_singleton] at this ⊢
    omega

theorem Chained.popBack {v : HsocVector α} {chain : List (Nat × α)} (h : v.Chained chain)
    (several : v.mSize ≠ 1) : ∃ v', v.popBack = some v' ∧ v'.Chained chain.dropLast := by
  obtain rfl | ⟨front, ⟨p, x⟩, rfl⟩ := List.eq_nil_or_concat' chain
  · exact ⟨v, if_pos h.first, h⟩
  -- `preview` of the last element is followed, so there must be one before it.
  obtain rfl | ⟨init, ⟨q, y⟩, rfl⟩ := List.eq_nil_or_concat' front
  · exact absurd h.size several
  refine ⟨_, ?_, by rw [List.dropLast_concat]; exact chained_dropLast v init q p y x h⟩
  have first : v.mElement ≠ none := by
    rw [h.first, linkAt_append (by simp)]
    cases init <;> simp [linkAt]
  have length : (init ++ [(q, y)]).length = init.length + 1 := by simp
  have last : v.mLastElement = some p := by
    rw [h.last, List.length_append, List.length_singleton]
    exact linkAt_length _ (p, x)
  have preview : linkBefore (init ++ [(q, y)] ++ [(p, x)]) (init.length + 1) = some q := by
    rw [linkBefore_append (by simp)]
    exact linkAt_length init (q, y)
  have lastElement := h.elements (init.length + 1) (p, x) (by simp)
  have second := h.elements init.length (q, y) (by simp)
  simp only [HsocVector.popBack, if_neg first, last, lastElement, preview, second, setNext,
    Option.bind_eq_bind, Option.bind_some]

/-- With one element left, `pop_back` follows the NULL in its `preview`. -/
theorem Chained.popBack_single {v : HsocVector α} {e : Nat × α} (h : v.Chained [e]) :
    v.popBack = none := by
  have first : v.mElement ≠ none := by rw [h.first]; simp [linkAt]
  have element := h.elements 0 e rfl
  have last : v.mLastElement = some e.1 := h.last
  simp only [HsocVector.popBack, if_neg first, last, element, setNext, linkBefore,
    Option.bind_eq_bind, Option.bind_some, Option.bind_none]

theorem Chained.search {v : HsocVector α} {chain : List (Nat × α)} (h : v.Chained chain)
    {pos fuel i : Nat} (room : chain.length ≤ i + fuel) (ahead : i ≤ pos) :
    v.search pos fuel (linkAt chain i) = some (linkAt chain pos) := by
  induction fuel generalizing i with
  | zero =>
    rw [linkAt_of_le (by omega), linkAt_of_le (by omega)]
    rfl
  | succ fuel ih =>
    by_cases inside : i < chain.length
    · have here : chain[i]? = some chain[i] := List.getElem?_eq_getElem inside
      have link : linkAt chain i = some chain[i].1 := by rw [linkAt, here]; rfl
      simp only [link, HsocVector.search, h.elements i _ here, Option.bind_eq_bind,
        Option.bind_some]
      split
      case isTrue found => rw [← found, link]
      case isFalse other => exact ih (by omega) (by omega)
    · rw [linkAt_of_le (by omega), linkAt_of_le (by omega)]
      rfl

theorem Chained.index {v : HsocVector α} {chain : List (Nat × α)} (h : v.Chained chain)
    (pos : Nat) : v.index pos = some (linkAt chain pos) := by
  rw [HsocVector.index, h.first]
  exact h.search (by have := h.enough; omega) (Nat.zero_le _)

/-- The loop of `clear` deletes the rest of a chain and counts every element down. -/
theorem deleteFrom_eq_some (rest : List (Nat × α)) {v : HsocVector α} {fuel : Nat}
    (elements : ∀ i e, rest[i]? = some e →
      ∃ pos preview, v.memory e.1 = some ⟨e.2, pos, linkAt rest (i + 1), preview⟩)
    (distinct : (rest.map Prod.fst).Nodup) (size : v.mSize = rest.length)
    (below : rest.length < 2 ^ 32) (room : rest.length ≤ fuel) :
    ∃ v', deleteFrom fuel v (linkAt rest 0) = some v' ∧ v'.mSize = 0 := by
  induction rest generalizing v fuel with
  | nil => exact ⟨v, by cases fuel <;> rfl, size⟩
  | cons e rest ih =>
    cases fuel with
    | zero => simp at room
    | succ fuel =>
      obtain ⟨pos, preview, here⟩ := elements 0 e rfl
      simp only [List.length_cons] at size below room
      have counted : (v.delete e.1).decrement.mSize = rest.length := by
        simp only [decrement, delete, size, toUnsigned]
        rw [show rest.length + 1 + 2 ^ 32 - 1 = rest.length + 2 ^ 32 by omega, Nat.add_mod_right]
        exact Nat.mod_eq_of_lt (by omega)
      rw [List.map_cons, List.nodup_cons] at distinct
      have later : ∀ i f, rest[i]? = some f → ∃ pos preview,
          (v.delete e.1).decrement.memory f.1 = some ⟨f.2, pos, linkAt rest (i + 1), preview⟩ := by
        intro i f member
        -- No later element has the deleted address.
        have other : f.1 ≠ e.1 := fun same =>
          distinct.1 (same ▸ List.mem_map_of_mem (List.mem_of_getElem? member))
        simp only [decrement, delete, Function.update_of_ne other]
        exact elements (i + 1) f (by simpa using member)
      have fewer : rest.length < 2 ^ 32 := by omega
      have enough : rest.length ≤ fuel := by omega
      obtain ⟨v', run, done⟩ := ih later distinct.2 counted fewer enough
      refine ⟨v', ?_, done⟩
      rw [show linkAt (e :: rest) 0 = some e.1 from rfl, deleteFrom, here]
      exact run

theorem Chained.clear {v : HsocVector α} {chain : List (Nat × α)} (h : v.Chained chain) :
    ∃ v', v.clear = some v' ∧ v'.Chained [] := by
  obtain ⟨v', run, size⟩ := deleteFrom_eq_some chain
    (fun i e member => ⟨i, _, h.elements i e member⟩) h.distinct h.size h.unsigned h.enough
  refine ⟨_, by rw [HsocVector.clear, h.first, run]; rfl, ?_⟩
  exact
    { elements := fun i e here => by simp at here
      distinct := List.nodup_nil
      made := fun e member => nomatch member
      enough := Nat.zero_le _
      first := rfl
      last := rfl
      size := size
      unsigned := Nat.two_pow_pos 32 }

end HsocVector

/-! ## Runs -/

inductive Method (α : Type) where
  | pushBack (data : α)
  | popBack
  | clear
  | size
  | empty
  | index (pos : Nat)
  deriving DecidableEq, Repr

inductive Returned where
  | done
  | number (n : Nat)
  | truth (b : Bool)
  | element (link : Link)
  deriving DecidableEq, Repr

namespace HsocVector

/-- A method call, unless it follows NULL or a deleted element or never returns. -/
def call (v : HsocVector α) : Method α → Option (HsocVector α × Returned)
  | .pushBack data => (v.pushBack data).map fun v' => (v', .done)
  | .popBack => v.popBack.map fun v' => (v', .done)
  | .clear => v.clear.map fun v' => (v', .done)
  | .size => some (v, .number v.size)
  | .empty => some (v, .truth v.empty)
  | .index pos => (v.index pos).map fun link => (v, .element link)

def run : HsocVector α → List (Method α) → Option (HsocVector α)
  | v, [] => some v
  | v, m :: rest => (v.call m).bind fun next => run next.1 rest

/-- The calls that the code is not made for: `pop_back` with one element left, and `push_back`
when `m_size` cannot count one more. -/
def Allows (v : HsocVector α) : Method α → Prop
  | .popBack => v.mSize ≠ 1
  | .pushBack _ => v.mSize + 1 < 2 ^ 32
  | _ => True

instance (v : HsocVector α) : (m : Method α) → Decidable (v.Allows m)
  | .popBack => inferInstanceAs (Decidable (v.mSize ≠ 1))
  | .pushBack _ => inferInstanceAs (Decidable (v.mSize + 1 < 2 ^ 32))
  | .clear | .size | .empty | .index _ => inferInstanceAs (Decidable True)

/-- No call of the run is one of those. -/
def AllowsAll : HsocVector α → List (Method α) → Prop
  | _, [] => True
  | v, m :: rest => v.Allows m ∧ ∀ next ∈ v.call m, AllowsAll next.1 rest

instance decidableAllowsAll :
    (v : HsocVector α) → (methods : List (Method α)) → Decidable (v.AllowsAll methods)
  | _, [] => inferInstanceAs (Decidable True)
  | v, m :: rest =>
    have : ∀ next : HsocVector α × Returned, Decidable (AllowsAll next.1 rest) :=
      fun next => decidableAllowsAll next.1 rest
    inferInstanceAs (Decidable (v.Allows m ∧ ∀ next ∈ v.call m, AllowsAll next.1 rest))

end HsocVector

/-- What a method does to a list. -/
def listMethod (l : List α) : Method α → List α
  | .pushBack x => l ++ [x]
  | .popBack => l.dropLast
  | .clear => []
  | .size | .empty | .index _ => l

/-- What a list answers; for `operator[]` the data at the address, in the vector `v`. -/
def Returned.Right (l : List α) (v : HsocVector α) : Method α → Returned → Prop
  | .pushBack _, r | .popBack, r | .clear, r => r = .done
  | .size, r => r = .number l.length
  | .empty, r => r = .truth l.isEmpty
  | .index pos, r => ∃ link, r = .element link ∧
      (link.bind v.memory).map Element.data = l[pos]? ∧ (l.length ≤ pos → link = none)

/-- The vector is a chain of the list's elements. -/
def HsocVector.Lists (v : HsocVector α) (l : List α) : Prop :=
  ∃ chain, v.Chained chain ∧ chain.map Prod.snd = l

theorem call_lists {v : HsocVector α} {l : List α} (h : v.Lists l) (m : Method α)
    (allows : v.Allows m) :
    ∃ next r, v.call m = some (next, r) ∧ next.Lists (listMethod l m) ∧ r.Right l next m := by
  obtain ⟨chain, chained, rfl⟩ := h
  cases m with
  | pushBack x =>
    obtain ⟨v', run, result⟩ := chained.pushBack x allows
    exact ⟨v', .done, by rw [HsocVector.call, run]; rfl, ⟨_, result, by simp [listMethod]⟩, rfl⟩
  | popBack =>
    obtain ⟨v', run, result⟩ := chained.popBack allows
    exact ⟨v', .done, by rw [HsocVector.call, run]; rfl,
      ⟨_, result, by simp [listMethod, List.map_dropLast]⟩, rfl⟩
  | clear =>
    obtain ⟨v', run, result⟩ := chained.clear
    exact ⟨v', .done, by rw [HsocVector.call, run]; rfl, ⟨_, result, rfl⟩, rfl⟩
  | size =>
    refine ⟨v, _, rfl, ⟨chain, chained, rfl⟩, ?_⟩
    rw [Returned.Right, HsocVector.size, chained.size, List.length_map]
  | empty =>
    refine ⟨v, _, rfl, ⟨chain, chained, rfl⟩, ?_⟩
    rw [Returned.Right, HsocVector.empty, chained.first]
    cases chain <;> rfl
  | index pos =>
    refine ⟨v, .element (HsocVector.linkAt chain pos), by rw [HsocVector.call, chained.index]; rfl,
      ⟨chain, chained, rfl⟩, _, rfl, ?_, fun beyond => ?_⟩
    · rw [List.getElem?_map, HsocVector.linkAt]
      cases here : chain[pos]? with
      | none => rfl
      | some e => simp [chained.elements pos e here]
    · exact HsocVector.linkAt_of_le (by simpa using beyond)

theorem run_lists {v : HsocVector α} {l : List α} (h : v.Lists l) (methods : List (Method α))
    (allows : v.AllowsAll methods) :
    ∃ last, v.run methods = some last ∧ last.Lists (methods.foldl listMethod l) := by
  induction methods generalizing v l with
  | nil => exact ⟨v, rfl, h⟩
  | cons m rest ih =>
    obtain ⟨next, r, step, lists, -⟩ := call_lists h m allows.1
    obtain ⟨last, run, result⟩ := ih lists (allows.2 _ step)
    exact ⟨last, by rw [HsocVector.run, step]; exact run, result⟩

theorem allowsAll_append {v : HsocVector α} {before after : List (Method α)}
    (allows : v.AllowsAll (before ++ after)) :
    v.AllowsAll before ∧ ∀ middle ∈ v.run before, middle.AllowsAll after := by
  induction before generalizing v with
  | nil => exact ⟨trivial, fun middle same => by cases same; exact allows⟩
  | cons m rest ih =>
    obtain ⟨here, later⟩ := allows
    refine ⟨⟨here, fun next step => (ih (later next step)).1⟩, fun middle run => ?_⟩
    obtain ⟨next, step, run⟩ := Option.bind_eq_some_iff.mp run
    exact (ih (later next step)).2 middle run

/-- In a run that never pops the only element, the vector is a chain of the list's elements
after every call, and every call answers as the list does. -/
theorem vector_is_list (before : List (Method α)) (m : Method α)
    (allows : (HsocVector.new : HsocVector α).AllowsAll (before ++ [m])) :
    ∃ v next r, HsocVector.new.run before = some v ∧ v.call m = some (next, r) ∧
      next.Lists (listMethod (before.foldl listMethod []) m) ∧
      r.Right (before.foldl listMethod []) next m := by
  obtain ⟨allowsBefore, allowsRest⟩ := allowsAll_append allows
  obtain ⟨v, run, lists⟩ := run_lists ⟨[], HsocVector.chained_new, rfl⟩ before allowsBefore
  obtain ⟨next, r, step, after, right⟩ := call_lists lists m (allowsRest v run).1
  exact ⟨v, next, r, run, step, after, right⟩

/-- Two elements pushed, the last popped, the first looked up. -/
theorem vector_is_list_popped :
    ∃ v next r, HsocVector.new.run [.pushBack 5, .pushBack 7, .popBack] = some v ∧
      v.call (.index 0) = some (next, r) ∧
      next.Lists (listMethod ([.pushBack 5, .pushBack 7, .popBack].foldl listMethod []) (.index 0)) ∧
      r.Right ([.pushBack 5, .pushBack 7, .popBack].foldl listMethod []) next (.index 0) :=
  vector_is_list [.pushBack 5, .pushBack 7, .popBack] (.index 0) (by decide +kernel)

/-- A `pop_back` right after the first `push_back` follows NULL. -/
theorem vector_pops_only_element :
    ¬ ∀ (before : List (Method Nat)) (m : Method Nat),
      ∃ v next r, HsocVector.new.run before = some v ∧ v.call m = some (next, r) ∧
        next.Lists (listMethod (before.foldl listMethod []) m) ∧
        r.Right (before.foldl listMethod []) next m := by
  intro all
  obtain ⟨v, next, r, run, step, -⟩ := all [.pushBack 7] .popBack
  have fails : ((HsocVector.new.run [.pushBack 7]).bind
      fun v => v.call (.popBack : Method Nat)).isNone = true := by decide +kernel
  rw [run, Option.bind_some, step] at fails
  exact absurd fails (by simp)

end ScCosim.Helper
