import Mathlib.Data.List.Basic

/-!
# Arrays from `new T[n]`

An array is the list of its cells. A cell that nothing was stored in has no value, and an
access outside the array has no result.
-/
namespace ScCosim.Helper

variable {α : Type}

abbrev Cells (α : Type) := List (Option α)

namespace Cells

/-- `new T[n]`. -/
def new (n : Nat) : Cells α := List.replicate n none

/-- `cells[i] = c`. -/
def store (cells : Cells α) (i : Nat) (c : Option α) : Option (Cells α) :=
  if i < cells.length then some (cells.set i c) else none

/-- `for (; n; j++, n--) cells[j] = source(j)`. -/
def fill (source : Nat → Option (Option α)) : Cells α → Nat → Nat → Option (Cells α)
  | cells, _, 0 => some cells
  | cells, j, n + 1 => do
    let c ← source j
    let cells ← cells.store j c
    fill source cells (j + 1) n

@[simp] theorem length_new (n : Nat) : (new n : Cells α).length = n := List.length_replicate

theorem store_eq_some {cells : Cells α} {i : Nat} (h : i < cells.length) (c : Option α) :
    cells.store i c = some (cells.set i c) := if_pos h

/-- Filling keeps the cells before `j` and after `j + n`, and puts the source's values between. -/
theorem fill_eq_some (source : Nat → Option (Option α)) (values : Cells α) (cells : Cells α)
    (j : Nat) (given : ∀ i c, values[i]? = some c → source (j + i) = some c)
    (room : j + values.length ≤ cells.length) :
    ∃ filled, fill source cells j values.length = some filled ∧ filled.length = cells.length ∧
      (∀ i < j, filled[i]? = cells[i]?) ∧ ∀ i c, values[i]? = some c → filled[j + i]? = some c := by
  induction values generalizing cells j with
  | nil => exact ⟨cells, rfl, rfl, fun _ _ => rfl, fun i c h => by simp at h⟩
  | cons c rest ih =>
    simp only [List.length_cons] at room
    have inside : j < cells.length := by omega
    have first : source j = some c := given 0 c rfl
    have next : ∀ i d, rest[i]? = some d → source (j + 1 + i) = some d := by
      intro i d h
      have := given (i + 1) d (by simpa using h)
      rwa [show j + (i + 1) = j + 1 + i by omega] at this
    obtain ⟨filled, run, length, before, between⟩ :=
      ih (cells.set j c) (j + 1) next (by rw [List.length_set]; omega)
    refine ⟨filled, ?_, by rw [length, List.length_set], ?_, ?_⟩
    · simp only [List.length_cons, fill, first, store_eq_some inside, Option.bind_eq_bind,
        Option.bind_some]
      exact run
    · intro i below
      rw [before i (by omega), List.getElem?_set_ne (by omega)]
    · intro i d h
      cases i with
      | zero =>
        obtain rfl : c = d := by simpa using h
        rw [Nat.add_zero, before j (by omega), List.getElem?_set_self inside]
      | succ i =>
        rw [show j + (i + 1) = j + 1 + i by omega]
        exact between i d (by simpa using h)

/-- Filling that ends has stayed inside the array. -/
theorem le_of_fill_eq_some {source : Nat → Option (Option α)} {cells filled : Cells α} {j n : Nat}
    (some : n ≠ 0) (run : fill source cells j n = .some filled) : j + n ≤ cells.length := by
  induction n generalizing cells j with
  | zero => exact absurd rfl some
  | succ n ih =>
    simp only [fill, Option.bind_eq_bind, Option.bind_eq_some_iff] at run
    obtain ⟨c, -, stored, store, rest⟩ := run
    unfold Cells.store at store
    split at store
    · cases store
      by_cases last : n = 0
      · omega
      · have later := ih last rest
        rw [List.length_set] at later
        omega
    · cases store

end Cells

end ScCosim.Helper
