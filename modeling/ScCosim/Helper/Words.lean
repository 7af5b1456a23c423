import Mathlib.Data.List.DropRight
import Mathlib.Data.List.Chain

/-!
# Words and the gaps between them

A text over any alphabet, some of whose characters are blank. Its normal form has no blanks at
either end, and of every gap between two words the first character.
-/
namespace ScCosim.Helper

variable {α : Type}

/-- A text that starts and ends with a word, and the same with one character of every gap. -/
inductive Squeezed (blank : α → Bool) : List α → List α → Prop
  | word (w : List α) (some : w ≠ []) (black : ∀ c ∈ w, blank c = false) : Squeezed blank w w
  | gap (w : List α) (some : w ≠ []) (black : ∀ c ∈ w, blank c = false) (c : α) (run : List α)
      (white : ∀ d ∈ c :: run, blank d = true) {s t : List α} (later : Squeezed blank s t) :
      Squeezed blank (w ++ c :: run ++ s) (w ++ c :: t)

/-- A text and its normal form. -/
inductive NormalForm (blank : α → Bool) : List α → List α → Prop
  | blank (s : List α) (white : ∀ c ∈ s, blank c = true) : NormalForm blank s []
  | text (front back : List α) (first : ∀ c ∈ front, blank c = true)
      (last : ∀ c ∈ back, blank c = true) {s t : List α} (squeezed : Squeezed blank s t) :
      NormalForm blank (front ++ s ++ back) t

/-- No blank at either end, and no two side by side. -/
structure Tidy (blank : α → Bool) (t : List α) : Prop where
  first : ∀ c, t.head? = some c → blank c = false
  last : ∀ c, t.getLast? = some c → blank c = false
  apart : t.IsChain fun c d => blank c = false ∨ blank d = false

section squeezed

variable {blank : α → Bool} {s t : List α}

theorem Squeezed.ne_nil (h : Squeezed blank s t) : s ≠ [] ∧ t ≠ [] := by
  cases h with
  | word w some => exact ⟨some, some⟩
  | gap w some => exact ⟨by simp, by simp⟩

theorem squeezed_single {a : α} (black : blank a = false) : Squeezed blank [a] [a] := by
  refine .word [a] (List.cons_ne_nil a []) fun c member => ?_
  rw [List.mem_singleton.mp member, black]

theorem Squeezed.head? (h : Squeezed blank s t) :
    t.head? = s.head? ∧ ∀ c, t.head? = some c → blank c = false := by
  cases h with
  | word w some black => exact ⟨rfl, fun c first => black c (List.mem_of_mem_head? first)⟩
  | gap w some black =>
    obtain ⟨a, w, rfl⟩ := List.exists_cons_of_ne_nil some
    refine ⟨rfl, fun c first => ?_⟩
    obtain rfl : a = c := by simpa using first
    exact black a (List.mem_cons_self ..)

theorem Squeezed.exists_black (h : Squeezed blank s t) : ∃ c ∈ s, blank c = false := by
  obtain ⟨c, rest, rfl⟩ := List.exists_cons_of_ne_nil h.ne_nil.1
  exact ⟨c, List.mem_cons_self .., h.head?.2 c h.head?.1⟩

theorem Squeezed.getLast? (h : Squeezed blank s t) :
    t.getLast? = s.getLast? ∧ ∀ c, t.getLast? = some c → blank c = false := by
  induction h with
  | word w some black => exact ⟨rfl, fun c last => black c (List.mem_of_getLast? last)⟩
  | gap w some black c run white later ih =>
    obtain ⟨source, target⟩ := later.ne_nil
    rw [List.getLast?_append_of_ne_nil _ source, List.getLast?_append_of_ne_nil _ (by simp),
      List.getLast?_cons_of_ne_nil target]
    exact ih

/-- The words are kept. -/
theorem Squeezed.filter (h : Squeezed blank s t) :
    t.filter (fun c => !blank c) = s.filter fun c => !blank c := by
  induction h with
  | word w => rfl
  | gap w some black c run white later ih =>
    have none : (c :: run).filter (fun d => !blank d) = [] := by
      rw [List.filter_eq_nil_iff]
      intro d member
      simp [white d member]
    have first : blank c = true := white c (List.mem_cons_self ..)
    rw [List.filter_append, List.filter_append, List.filter_append, none, List.append_nil,
      List.filter_cons_of_neg (by simp [first]), ih]

theorem chain_of_black {w : List α} (black : ∀ c ∈ w, blank c = false) :
    w.IsChain fun c d => blank c = false ∨ blank d = false := by
  induction w with
  | nil => exact .nil
  | cons c w ih =>
    rw [List.isChain_cons]
    exact ⟨fun d _ => .inl (black c (List.mem_cons_self ..)),
      ih fun d member => black d (List.mem_cons_of_mem c member)⟩

theorem Squeezed.tidy (h : Squeezed blank s t) : Tidy blank t := by
  refine ⟨h.head?.2, h.getLast?.2, ?_⟩
  induction h with
  | word w some black => exact chain_of_black black
  | gap w some black c run white later ih =>
    rw [List.isChain_append, List.isChain_cons]
    refine ⟨chain_of_black black, ⟨fun d first => .inr (later.head?.2 d first), ih⟩, ?_⟩
    intro d last e _
    exact .inl (black d (List.mem_of_getLast? last))

/-- A squeezed text is squeezed. -/
theorem Squeezed.self (h : Squeezed blank s t) : Squeezed blank t t := by
  induction h with
  | word w some black => exact .word w some black
  | gap w some black c run white later ih =>
    have one : ∀ d ∈ [c], blank d = true := fun d member =>
      white d (List.mem_cons.mpr (.inl (List.mem_singleton.mp member)))
    simpa using Squeezed.gap w some black c [] one ih

/-- A word becomes longer at the front. -/
theorem Squeezed.cons (h : Squeezed blank s t) {a : α} (ha : blank a = false) :
    Squeezed blank (a :: s) (a :: t) := by
  have longer {w : List α} (black : ∀ c ∈ w, blank c = false) : ∀ c ∈ a :: w, blank c = false := by
    intro c member
    rcases List.mem_cons.mp member with rfl | old
    · exact ha
    · exact black c old
  cases h with
  | word _ some black => exact .word (a :: s) (List.cons_ne_nil a s) (longer black)
  | gap w some black c run white later =>
    exact .gap (a :: w) (List.cons_ne_nil a w) (longer black) c run white later

/-- Two texts on the two sides of a gap. -/
theorem Squeezed.append (h : Squeezed blank s t) {c : α} {run : List α}
    (white : ∀ d ∈ c :: run, blank d = true) {s' t' : List α} (h' : Squeezed blank s' t') :
    Squeezed blank (s ++ c :: run ++ s') (t ++ c :: t') := by
  induction h with
  | word w some black => exact .gap w some black c run white h'
  | gap w some black d run' white' later ih =>
    simpa using Squeezed.gap w some black d run' white' ih

/-- The last word becomes longer. -/
theorem Squeezed.concat (h : Squeezed blank s t) {a : α} (ha : blank a = false) :
    Squeezed blank (s ++ [a]) (t ++ [a]) := by
  induction h with
  | word w some black =>
    refine .word (w ++ [a]) (by simp) fun c member => ?_
    rcases List.mem_append.mp member with old | new
    · exact black c old
    · rw [List.mem_singleton.mp new, ha]
  | gap w some black c run white later ih =>
    simpa using Squeezed.gap w some black c run white ih

end squeezed

section normal

variable {blank : α → Bool} {s t : List α}

theorem filter_of_blank {w : List α} (white : ∀ c ∈ w, blank c = true) :
    w.filter (fun c => !blank c) = [] := by
  rw [List.filter_eq_nil_iff]
  intro c member
  simp [white c member]

theorem NormalForm.filter (h : NormalForm blank s t) :
    t.filter (fun c => !blank c) = s.filter fun c => !blank c := by
  cases h with
  | blank s white => exact (filter_of_blank white).symm
  | text front back first last squeezed =>
    rw [List.filter_append, List.filter_append, filter_of_blank first, filter_of_blank last,
      List.nil_append, List.append_nil, squeezed.filter]

theorem NormalForm.tidy (h : NormalForm blank s t) : Tidy blank t := by
  cases h with
  | blank s white => exact ⟨fun c first => by simp at first, fun c last => by simp at last, .nil⟩
  | text front back first last squeezed => exact squeezed.tidy

/-- A normal form is its own. -/
theorem NormalForm.self (h : NormalForm blank s t) : NormalForm blank t t := by
  have none : ∀ c ∈ ([] : List α), blank c = true := fun c member => nomatch member
  cases h with
  | blank s white => exact .blank [] none
  | text front back first last squeezed => simpa using NormalForm.text [] [] none none squeezed.self

/-- What a word of one character behind a text adds to the normal form: itself, and a blank
before it where it ends a gap. -/
theorem NormalForm.concat (h : NormalForm blank s t) {a : α} (black : blank a = false)
    {back : List α} (white : ∀ c ∈ back, blank c = true) :
    ∃ gap, NormalForm blank (s ++ a :: back) (t ++ gap ++ [a]) ∧ (∀ c ∈ gap, blank c = true) ∧
      (gap = [] ↔ (∀ c ∈ s, blank c = true) ∨ ∀ c, s.getLast? = some c → blank c = false) := by
  have none : ∀ c ∈ ([] : List α), blank c = true := fun c member => nomatch member
  cases h with
  | blank s all =>
    exact ⟨[], by simpa using NormalForm.text s back all white (squeezed_single black), none,
      iff_of_true rfl (.inl all)⟩
  | text front last first blanks squeezed =>
    rename_i body
    cases last with
    | nil =>
      refine ⟨[], by simpa using NormalForm.text front back first white (squeezed.concat black),
        none, iff_of_true rfl (.inr fun c isLast => ?_)⟩
      rw [List.append_nil, List.getLast?_append_of_ne_nil _ squeezed.ne_nil.1,
        ← squeezed.getLast?.1] at isLast
      exact squeezed.getLast?.2 c isLast
    | cons c run =>
      have joined := squeezed.append blanks (squeezed_single black)
      refine ⟨[c], by simpa using NormalForm.text front back first white joined, fun d member => ?_,
        iff_of_false (List.cons_ne_nil c []) ?_⟩
      · rw [List.mem_singleton.mp member]
        exact blanks c (List.mem_cons_self ..)
      · rintro (all | isBlack)
        · obtain ⟨d, member, isBlack⟩ := squeezed.exists_black
          rw [all d (by simp [member])] at isBlack
          exact absurd isBlack (by simp)
        · have some : c :: run ≠ [] := List.cons_ne_nil c run
          have isLast : (front ++ body ++ c :: run).getLast? = .some ((c :: run).getLast some) := by
            rw [List.getLast?_append_of_ne_nil _ some, List.getLast?_eq_some_getLast some]
          have isWhite := blanks _ (List.getLast_mem some)
          rw [isBlack _ isLast] at isWhite
          exact absurd isWhite (by simp)

/-- The last character of the normal form is the last one that is not blank. -/
theorem NormalForm.exists_of_getLast? (h : NormalForm blank s t) {a : α} (last : t.getLast? = some a) :
    ∃ front back, s = front ++ a :: back ∧ ∀ c ∈ back, blank c = true := by
  cases h with
  | blank s white => simp at last
  | text front back first blanks squeezed =>
    rw [squeezed.getLast?.1] at last
    obtain ⟨init, rfl⟩ := List.getLast?_eq_some_iff.mp last
    exact ⟨front ++ init, back, by simp, blanks⟩

/-- A text that ends with a word has blanks in front and then is squeezed. -/
private theorem exists_squeezed {s : List α} (some : s ≠ []) (black : blank (s.getLast some) = false) :
    ∃ front body t, s = front ++ body ∧ (∀ c ∈ front, blank c = true) ∧ Squeezed blank body t := by
  induction s with
  | nil => exact absurd rfl some
  | cons a s ih =>
    by_cases single : s = []
    · subst single
      exact ⟨[], [a], [a], rfl, fun c member => (nomatch member), squeezed_single black⟩
    obtain ⟨front, body, t, rfl, white, squeezed⟩ := ih single (by rwa [List.getLast_cons single] at black)
    cases ha : blank a with
    | true =>
      refine ⟨a :: front, body, t, rfl, fun c member => ?_, squeezed⟩
      rcases List.mem_cons.mp member with rfl | old
      · exact ha
      · exact white c old
    | false =>
      -- the blanks in front of the rest are a gap now
      cases front with
      | nil => exact ⟨[], a :: body, a :: t, rfl, white, squeezed.cons ha⟩
      | cons c run =>
        refine ⟨[], a :: (c :: run ++ body), [a] ++ c :: t, rfl, fun c member => (nomatch member), ?_⟩
        refine .gap [a] (List.cons_ne_nil a []) (fun d member => ?_) c run white squeezed
        rw [List.mem_singleton.mp member, ha]

theorem exists_normalForm (blank : α → Bool) (s : List α) : ∃ t, NormalForm blank s t := by
  have white : ∀ c ∈ s.rtakeWhile blank, blank c = true := fun c => List.mem_rtakeWhile_imp
  have split : s = s.rdropWhile blank ++ s.rtakeWhile blank := by simp
  by_cases none : s.rdropWhile blank = []
  · rw [none, List.nil_append] at split
    exact ⟨[], .blank s (split ▸ white)⟩
  · have black : blank ((s.rdropWhile blank).getLast none) = false := by
      simpa using List.rdropWhile_last_not blank s none
    obtain ⟨front, body, t, shape, first, squeezed⟩ := exists_squeezed none black
    rw [shape] at split
    exact ⟨t, split ▸ .text front _ first white squeezed⟩

end normal

end ScCosim.Helper
