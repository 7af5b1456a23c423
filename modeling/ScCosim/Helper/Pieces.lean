import Mathlib.Data.List.Infix

/-!
# The pieces of a text between the occurrences of a delimiter

The search from the left for a delimiter, and the pieces that are left when its leftmost
occurrences that do not overlap are taken out. The alphabet is arbitrary.
-/
namespace ScCosim.Helper

variable {α : Type}

/-- In `p ++ t ++ rest`, no occurrence of `t` starts before the one after `p`. -/
def Leftmost (t p rest : List α) : Prop :=
  ∀ q r, p ++ t ++ rest = q ++ t ++ r → p.length ≤ q.length

/-- The pieces of a text between the leftmost occurrences of `t`, which do not overlap. -/
inductive Pieces (t : List α) : List α → List (List α) → Prop
  | last (s : List α) (none : ¬ t <:+: s) : Pieces t s [s]
  | cut (p rest : List α) (ps : List (List α)) (leftmost : Leftmost t p rest)
      (later : Pieces t rest ps) : Pieces t (p ++ t ++ rest) (p :: ps)

/-- Joining the pieces gives back the text. -/
theorem Pieces.join {t s : List α} {ps : List (List α)} (h : Pieces t s ps) :
    t.intercalate ps = s := by
  induction h with
  | last s _ => simp [List.intercalate]
  | cut p rest ps _ later ih =>
    cases ps with
    | nil => cases later
    | cons q qs =>
      rw [← ih]
      simp [List.intercalate]

theorem Pieces.ne_nil {t s : List α} {ps : List (List α)} (h : Pieces t s ps) : ps ≠ [] := by
  cases h <;> exact List.cons_ne_nil _ _

theorem Pieces.length_le {t s : List α} {ps : List (List α)} (h : Pieces t s ps) (ht : t ≠ []) :
    ps.length ≤ s.length + 1 := by
  have := List.length_pos_iff.mpr ht
  induction h with
  | last s _ => simp
  | cut p rest ps _ _ ih =>
    simp only [List.length_cons, List.length_append]
    omega

/-- A text in which `t` occurs has a leftmost occurrence. -/
theorem exists_leftmost {t s : List α} (h : t <:+: s) :
    ∃ p rest, s = p ++ t ++ rest ∧ Leftmost t p rest := by
  induction s with
  | nil =>
    obtain rfl := List.infix_nil.mp h
    exact ⟨[], [], rfl, fun q r _ => Nat.zero_le _⟩
  | cons a s ih =>
    by_cases here : t <+: a :: s
    · obtain ⟨r, same⟩ := here
      exact ⟨[], r, same.symm, fun q r _ => Nat.zero_le _⟩
    · obtain ⟨p, rest, rfl, leftmost⟩ := ih ((List.infix_cons_iff.mp h).resolve_left here)
      refine ⟨a :: p, rest, by simp, fun q r same => ?_⟩
      cases q with
      | nil => exact absurd ⟨r, by simpa using same.symm⟩ here
      | cons b q =>
        have := leftmost q r (by simpa using (List.cons.inj same).2)
        simpa using this

/-- Every text has its pieces. -/
theorem exists_pieces {t : List α} (ht : t ≠ []) (s : List α) : ∃ ps, Pieces t s ps := by
  induction length : s.length using Nat.strong_induction_on generalizing s with
  | _ n ih =>
    by_cases occurs : t <:+: s
    · obtain ⟨p, rest, rfl, leftmost⟩ := exists_leftmost occurs
      have := List.length_pos_iff.mpr ht
      obtain ⟨ps, later⟩ := ih rest.length (by simp at length; omega) rest rfl
      exact ⟨p :: ps, .cut p rest ps leftmost later⟩
    · exact ⟨[s], .last s occurs⟩

section Search

variable [DecidableEq α]

/-- The least index at which `t` occurs, `s` being the text from index `k` on. -/
def findFrom (t : List α) : List α → Nat → Option Nat
  | [], k => if t = [] then some k else none
  | a :: s, k => if t <+: a :: s then some k else findFrom t s (k + 1)

theorem findFrom_none {t s : List α} (h : ¬ t <:+: s) (k : Nat) : findFrom t s k = none := by
  induction s generalizing k with
  | nil =>
    rw [findFrom, if_neg]
    rintro rfl
    exact h (List.nil_infix)
  | cons a s ih =>
    rw [findFrom, if_neg fun here => h here.isInfix]
    exact ih (fun later => h (later.trans (List.suffix_cons a s).isInfix)) (k + 1)

theorem findFrom_leftmost {t p rest : List α} (h : Leftmost t p rest) (k : Nat) :
    findFrom t (p ++ t ++ rest) k = some (k + p.length) := by
  induction p generalizing k with
  | nil =>
    have here : t <+: t ++ rest := List.prefix_append t rest
    rw [List.nil_append]
    cases whole : t ++ rest with
    | nil => rw [findFrom, if_pos (List.append_eq_nil_iff.mp whole).1]; rfl
    | cons a s => rw [findFrom, if_pos (whole ▸ here)]; rfl
  | cons a p ih =>
    have notHere : ¬ t <+: a :: (p ++ t ++ rest) := by
      rintro ⟨r, same⟩
      have := h [] r (by simpa using same.symm)
      simp at this
    have later : Leftmost t p rest := by
      intro q r same
      have := h (a :: q) r (by simpa using same)
      simpa using this
    rw [List.cons_append, List.cons_append, findFrom, if_neg notHere, ih later]
    simp only [List.length_cons, Option.some.injEq]
    omega

end Search

end ScCosim.Helper
