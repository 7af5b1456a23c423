import ScCosim.Helper.Words

/-!
# `trim` and `strim`

A `std::string` is the list of its characters. Reading the character after the last gives
NUL; any access further out has no result, as in `s_string[s_string.size()-1]` for an empty
string.
-/
namespace ScCosim.Helper

def isWhitespace (c : Char) : Bool := c == ' ' || c == '\t' || c == '\r' || c == '\n'

/-- `s[i]`. -/
def charAt (s : List Char) (i : Nat) : Option Char :=
  if i = s.length then some '\x00' else s[i]?

/-- `s.erase(i, 1)`, with `i` also for the iterator form. -/
def erase (s : List Char) (i : Nat) : Option (List Char) :=
  if i < s.length then some (s.eraseIdx i) else none

/-- `while (isWhitespace(s[0])) s.erase(0, 1);`. -/
def eraseFront : Nat → List Char → Option (List Char)
  | fuel, s => do
    let c ← charAt s 0
    if isWhitespace c then
      match fuel with
      | 0 => none
      | fuel + 1 => do eraseFront fuel (← erase s 0)
    else some s

/-- The loop over the string, with the iterator at index `i`. -/
def eraseRuns : Nat → List Char → Nat → Option (List Char)
  | fuel, s, i => if i = s.length then some s else
    match fuel with
    | 0 => none
    | fuel + 1 => do
      let before ← s[i - 1]?
      let c ← s[i]?
      if isWhitespace before then
        if isWhitespace c then eraseRuns fuel (← erase s i) i
        else eraseRuns fuel s (i + 1)
      else eraseRuns fuel s (i + 1)

/-- `while (isWhitespace(s[s.size()-1])) s.erase(s.size()-1, 1);`. -/
def eraseBack : Nat → List Char → Option (List Char)
  | fuel, s => do
    -- for an empty string the index is the largest `size_t`
    let c ← if s = [] then none else charAt s (s.length - 1)
    if isWhitespace c then
      match fuel with
      | 0 => none
      | fuel + 1 => do eraseBack fuel (← erase s (s.length - 1))
    else some s

/-- `strim`: what it leaves in its argument. -/
def strim (s : List Char) : Option (List Char) := do
  let s ← eraseFront s.length s
  if s = [] then some s
  else do
    let s ← eraseRuns s.length s 1
    eraseBack s.length s

/-- `trim`: its argument is a copy. -/
def trim (m : List Char) : Option (List Char) := do
  let m ← eraseFront m.length m
  if m = [] then some m
  else do
    let m ← eraseRuns m.length m 1
    eraseBack m.length m

/-! ## What the loops compute -/

theorem eraseFront_eq {fuel : Nat} {s : List Char} (enough : s.length ≤ fuel) :
    eraseFront fuel s = some (s.dropWhile isWhitespace) := by
  induction s generalizing fuel with
  | nil => unfold eraseFront; rfl
  | cons c s ih =>
    have first : charAt (c :: s) 0 = some c := if_neg (by simp)
    unfold eraseFront
    simp only [first, Option.bind_eq_bind, Option.bind_some]
    split
    case isTrue white =>
      cases fuel with
      | zero => simp at enough
      | succ fuel =>
        have rest : erase (c :: s) 0 = some s := if_pos (by simp)
        simp only [rest, Option.bind_some]
        rw [ih (by simpa using enough), List.dropWhile_cons_of_pos white]
    case isFalse black => rw [List.dropWhile_cons_of_neg black]

/-- The rest of a string after a character, each whitespace run cut down to its first
character. -/
def squeeze : Char → List Char → List Char
  | _, [] => []
  | before, c :: s =>
    if isWhitespace before && isWhitespace c then squeeze before s else c :: squeeze c s

theorem eraseRuns_eq (rest : List Char) (front : List Char) (before : Char) {fuel : Nat}
    (enough : rest.length ≤ fuel) :
    eraseRuns fuel (front ++ before :: rest) (front.length + 1) =
      some (front ++ before :: squeeze before rest) := by
  induction rest generalizing front before fuel with
  | nil =>
    unfold eraseRuns
    rw [if_pos (by simp), squeeze]
  | cons c rest ih =>
    cases fuel with
    | zero => simp at enough
    | succ fuel =>
      simp only [List.length_cons, Nat.add_le_add_iff_right] at enough
      have advance : eraseRuns fuel (front ++ before :: c :: rest) (front.length + 1 + 1) =
          some (front ++ before :: c :: squeeze c rest) := by
        simpa using ih (front ++ [before]) c enough
      have last : (front ++ before :: c :: rest)[front.length + 1 - 1]? = some before := by simp
      have next : (front ++ before :: c :: rest)[front.length + 1]? = some c := by simp
      unfold eraseRuns
      rw [if_neg (by simp)]
      simp only [last, next, Option.bind_eq_bind, Option.bind_some, squeeze, Bool.and_eq_true]
      by_cases both : isWhitespace before = true ∧ isWhitespace c = true
      · -- `c` goes, and the iterator stays
        have erased : erase (front ++ before :: c :: rest) (front.length + 1) =
            some (front ++ before :: rest) := by
          rw [erase, if_pos (by simp), List.eraseIdx_append_of_length_le (by simp)]
          simp
        rw [if_pos both.1, if_pos both.2, if_pos both, erased]
        exact ih front before enough
      · rw [if_neg both]
        split
        case isTrue white => rw [if_neg fun second => both ⟨white, second⟩, advance]
        case isFalse => rw [advance]

theorem eraseBack_eq {fuel : Nat} {s : List Char} (black : ∃ c ∈ s, isWhitespace c = false)
    (enough : s.length ≤ fuel) : eraseBack fuel s = some (s.rdropWhile isWhitespace) := by
  induction s using List.reverseRecOn generalizing fuel with
  | nil => obtain ⟨c, member, -⟩ := black; simp at member
  | append_singleton s c ih =>
    have last : charAt (s ++ [c]) ((s ++ [c]).length - 1) = some c := by simp [charAt]
    unfold eraseBack
    rw [if_neg (by simp)]
    simp only [last, Option.bind_eq_bind, Option.bind_some]
    split
    case isTrue white =>
      cases fuel with
      | zero => simp at enough
      | succ fuel =>
        have rest : erase (s ++ [c]) ((s ++ [c]).length - 1) = some s := by
          simp [erase, List.eraseIdx_append_of_length_le]
        obtain ⟨d, member, isBlack⟩ := black
        have inside : d ∈ s := by
          rcases List.mem_append.mp member with inside | isLast
          · exact inside
          · rw [List.mem_singleton.mp isLast, white] at isBlack
            simp at isBlack
        simp only [rest, Option.bind_some]
        rw [ih ⟨d, inside, isBlack⟩ (by simpa using enough),
          List.rdropWhile_concat_pos isWhitespace s c white]
    case isFalse isBlack => rw [List.rdropWhile_concat_neg isWhitespace s c isBlack]

/-- The first character of a run of whitespace, and nothing else of it, stays; runs at either
end go. -/
def trimmed (s : List Char) : List Char :=
  match s.dropWhile isWhitespace with
  | [] => []
  | c :: rest => (c :: squeeze c rest).rdropWhile isWhitespace

/-- `strim` reads and erases only inside the string, ends, and leaves the trimmed string. -/
theorem strim_eq (s : List Char) : strim s = some (trimmed s) := by
  unfold strim trimmed
  rw [eraseFront_eq (Nat.le_refl _)]
  simp only [Option.bind_eq_bind, Option.bind_some]
  cases shape : s.dropWhile isWhitespace with
  | nil => rfl
  | cons c rest =>
    have black : isWhitespace c = false := by
      have := List.head_dropWhile_not isWhitespace (l := s) (by rw [shape]; simp)
      simpa [shape] using this
    have enough : rest.length ≤ (c :: rest).length := by simp
    have runs := eraseRuns_eq rest [] c enough
    have shorter : (c :: squeeze c rest).length ≤ (c :: squeeze c rest).length := Nat.le_refl _
    rw [if_neg (by simp)]
    simp only [List.nil_append, List.length_nil, Nat.zero_add] at runs
    rw [runs, Option.bind_some]
    exact eraseBack_eq ⟨c, by simp, black⟩ shorter

/-! ## The normal form -/

theorem squeeze_of_black {c : Char} (black : isWhitespace c = false) (before : Char)
    (rest : List Char) : squeeze before (c :: rest) = c :: squeeze c rest := by
  rw [squeeze, black, Bool.and_false, if_neg Bool.false_ne_true]

/-- A word comes through, and the character before what follows it is black. -/
theorem squeeze_word {w : List Char} (some : w ≠ []) (black : ∀ c ∈ w, isWhitespace c = false)
    (before : Char) :
    ∃ d, isWhitespace d = false ∧ ∀ rest, squeeze before (w ++ rest) = w ++ squeeze d rest := by
  induction w generalizing before with
  | nil => exact absurd rfl some
  | cons c w ih =>
    have first : isWhitespace c = false := black c (List.mem_cons_self ..)
    by_cases single : w = []
    · subst single
      exact ⟨c, first, squeeze_of_black first before⟩
    have later : ∀ e ∈ w, isWhitespace e = false := fun e member =>
      black e (List.mem_cons_of_mem c member)
    obtain ⟨d, dBlack, rest⟩ := ih single later c
    refine ⟨d, dBlack, fun u => ?_⟩
    rw [List.cons_append, squeeze_of_black first, rest, List.cons_append]

/-- After a blank the rest of its gap goes. -/
theorem squeeze_run {c : Char} (first : isWhitespace c = true) {run : List Char}
    (white : ∀ d ∈ run, isWhitespace d = true) (rest : List Char) :
    squeeze c (run ++ rest) = squeeze c rest := by
  induction run with
  | nil => rfl
  | cons d run ih =>
    have second : isWhitespace d = true := white d (List.mem_cons_self ..)
    rw [List.cons_append, squeeze, first, second, Bool.and_self, if_pos rfl]
    exact ih fun e member => white e (List.mem_cons_of_mem d member)

/-- Of a gap behind a word the first character comes through. -/
theorem squeeze_gap {d : Char} (black : isWhitespace d = false) {c : Char} {run : List Char}
    (white : ∀ e ∈ c :: run, isWhitespace e = true) (rest : List Char) :
    squeeze d (c :: run ++ rest) = c :: squeeze c rest := by
  have first : isWhitespace c = true := white c (List.mem_cons_self ..)
  have later : ∀ e ∈ run, isWhitespace e = true := fun e member =>
    white e (List.mem_cons_of_mem c member)
  rw [List.cons_append, squeeze, black, Bool.false_and, if_neg Bool.false_ne_true,
    squeeze_run first later]

/-- Up to the end of the last word the loop over the string squeezes; of the blanks behind it
one is left. -/
theorem squeeze_append {s t : List Char} (h : Squeezed isWhitespace s t) (before : Char)
    {back : List Char} (white : ∀ c ∈ back, isWhitespace c = true) :
    squeeze before (s ++ back) = t ++ back.take 1 := by
  induction h generalizing before with
  | word w some black =>
    obtain ⟨d, dBlack, rest⟩ := squeeze_word some black before
    rw [rest]
    cases back with
    | nil => rfl
    | cons c run =>
      have gap := squeeze_gap dBlack white []
      rw [List.append_nil, squeeze] at gap
      rw [gap, List.take_succ_cons, List.take_zero]
  | gap w some black c run more later ih =>
    obtain ⟨d, dBlack, rest⟩ := squeeze_word some black before
    rw [List.append_assoc, List.append_assoc, rest, squeeze_gap dBlack more, ih]
    simp

/-- Trimming gives the normal form. -/
theorem trimmed_eq {s t : List Char} (h : NormalForm isWhitespace s t) : trimmed s = t := by
  cases h with
  | blank s white => rw [trimmed, List.dropWhile_eq_nil_iff.mpr white]
  | text front back first last squeezed =>
    obtain ⟨c, rest, rfl⟩ := List.exists_cons_of_ne_nil squeezed.ne_nil.1
    have black : isWhitespace c = false := squeezed.head?.2 c squeezed.head?.1
    have front' : (front ++ c :: rest ++ back).dropWhile isWhitespace = c :: (rest ++ back) := by
      rw [List.append_assoc, List.dropWhile_append_of_pos first, List.cons_append,
        List.dropWhile_cons_of_neg (by simp [black])]
    have runs : c :: squeeze c (rest ++ back) = t ++ back.take 1 := by
      rw [← squeeze_append squeezed c last, List.cons_append, squeeze_of_black black]
    rw [trimmed, front']
    dsimp only
    rw [runs]
    -- what is left of the blanks at the end goes, and the last word stays
    have dropped : (t ++ back.take 1).rdropWhile isWhitespace = t.rdropWhile isWhitespace := by
      cases back with
      | nil => rw [List.take_nil, List.append_nil]
      | cons d run => exact List.rdropWhile_concat_pos isWhitespace t d (last d (List.mem_cons_self ..))
    rw [dropped, List.rdropWhile_eq_self_iff]
    intro some
    have blackLast := squeezed.getLast?.2 _ (List.getLast?_eq_some_getLast some)
    simp [blackLast]

theorem normalForm_trimmed (s : List Char) : NormalForm isWhitespace s (trimmed s) := by
  obtain ⟨t, h⟩ := exists_normalForm isWhitespace s
  rwa [trimmed_eq h]

theorem trim_eq (s : List Char) : trim s = some (trimmed s) := strim_eq s

/-- `trim` and `strim` read and erase only inside the string, end, and leave its normal form:
the words as they were, and of each gap between them the first character. Doing it again
changes nothing. -/
theorem trim_normal_form (s : List Char) :
    ∃ t, trim s = some t ∧ strim s = some t ∧ NormalForm isWhitespace s t ∧
      Tidy isWhitespace t ∧
      t.filter (fun c => !isWhitespace c) = s.filter (fun c => !isWhitespace c) ∧
      trim t = some t ∧ strim t = some t := by
  have normal := normalForm_trimmed s
  have again : trimmed (trimmed s) = trimmed s := trimmed_eq normal.self
  refine ⟨trimmed s, trim_eq s, strim_eq s, normal, normal.tidy, normal.filter, ?_, ?_⟩
  · rw [trim_eq, again]
  · rw [strim_eq, again]

end ScCosim.Helper
