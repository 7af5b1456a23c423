import ScCosim.Helper.Trim

/-!
# `trimstring`

A quote at the start goes before the blanks do, and a quote at the end after them. So a quote
behind which blanks stand goes as well, and the blank before a closing quote stays.
-/
namespace ScCosim.Helper

/-- `s[s.size()-1]` -/
def lastChar (s : List Char) : Option Char :=
  -- for an empty string the index is the largest `size_t`
  if s = [] then none else charAt s (s.length - 1)

/-- `if (m_string[0] == '"') m_string.erase(0, 1);` -/
def eraseOpening (m : List Char) : Option (List Char) := do
  let c ← charAt m 0
  if c = '"' then erase m 0 else some m

/-- The same at `m_string.size()-1`. -/
def eraseClosing (m : List Char) : Option (List Char) := do
  let c ← lastChar m
  if c = '"' then erase m (m.length - 1) else some m

def trimstring (m : List Char) : Option (List Char) := do
  let m ← eraseOpening m
  let m ← eraseFront m.length m
  if m = [] then some m
  else do
    let m ← eraseRuns m.length m 1
    let m ← eraseBack m.length m
    eraseClosing m

/-! ## What it computes -/

/-- Without the quote at the start. -/
def unopened (s : List Char) : List Char := if s.head? = some '"' then s.tail else s

/-- Without the quote at the end. -/
def unclosed (s : List Char) : List Char := if s.getLast? = some '"' then s.dropLast else s

theorem eraseOpening_eq (s : List Char) : eraseOpening s = some (unopened s) := by
  unfold eraseOpening unopened
  cases s with
  | nil => rfl
  | cons c s =>
    have first : charAt (c :: s) 0 = some c := if_neg (by simp)
    have rest : erase (c :: s) 0 = some s := if_pos (by simp)
    simp only [first, rest, Option.bind_eq_bind, Option.bind_some, List.head?_cons,
      Option.some.injEq, List.tail_cons]
    split <;> rfl

theorem eraseClosing_eq {s : List Char} (some : s ≠ []) : eraseClosing s = .some (unclosed s) := by
  obtain ⟨init, c, rfl⟩ := (List.eq_nil_or_concat' s).resolve_left some
  have last : lastChar (init ++ [c]) = .some c := by simp [lastChar, charAt]
  have rest : erase (init ++ [c]) ((init ++ [c]).length - 1) = .some init := by
    simp [erase, List.eraseIdx_append_of_length_le]
  unfold eraseClosing unclosed
  simp only [last, rest, Option.bind_eq_bind, Option.bind_some, List.getLast?_concat,
    Option.some.injEq, List.dropLast_concat]
  split <;> rfl

theorem trimmed_ne_nil {s : List Char} {c : Char} (member : c ∈ s) (black : isWhitespace c = false) :
    trimmed s ≠ [] := by
  intro none
  have kept := (normalForm_trimmed s).filter
  have there : c ∈ s.filter fun c => !isWhitespace c := List.mem_filter.mpr ⟨member, by simp [black]⟩
  rw [← kept, none] at there
  exact absurd there List.not_mem_nil

/-- `trimstring` reads and erases only inside the string, and ends. -/
theorem trimstring_eq (s : List Char) : trimstring s = some (unclosed (trimmed (unopened s))) := by
  have trims := trim_eq (unopened s)
  unfold trimstring
  unfold trim at trims
  simp only [eraseOpening_eq, eraseFront_eq (le_refl _), Option.bind_eq_bind, Option.bind_some]
    at trims ⊢
  split at trims
  case isTrue none =>
    have nothing : trimmed (unopened s) = [] := by rw [← Option.some.inj trims, none]
    rw [if_pos none, none, nothing]
    rfl
  case isFalse some =>
    obtain ⟨c, member, black⟩ : ∃ c ∈ unopened s, isWhitespace c = false := by
      simpa [List.dropWhile_eq_nil_iff] using some
    rw [if_neg some, ← eraseClosing_eq (trimmed_ne_nil member black), ← Option.bind_assoc, trims,
      Option.bind_some]

/-! ## When that is a normal form -/

/-- `u` is `s` without at most one quote at its beginning and at most one at its end. -/
def Unquoted (s u : List Char) : Prop :=
  ∃ opening closing, (opening = [] ∨ opening = ['"']) ∧ (closing = [] ∨ closing = ['"']) ∧
    s = opening ++ u ++ closing

/-- What `trimstring` is for: it leaves the normal form of the string without its quotes. -/
def Strips (s : List Char) : Prop :=
  ∃ t, trimstring s = some t ∧ Tidy isWhitespace t ∧ ∃ u, Unquoted s u ∧ trim u = some t

/-- A quote that is the last character but for blanks, and is not the opening one, is the very
last character, and there is no blank between it and a word before it. -/
def ClosesCleanly (s : List Char) : Prop :=
  ∀ front back, unopened s = front ++ '"' :: back → (∀ c ∈ back, isWhitespace c = true) →
    back = [] ∧ ((∀ c ∈ front, isWhitespace c = true) ∨
      ∀ c, front.getLast? = some c → isWhitespace c = false)

theorem exists_opening (s : List Char) :
    ∃ opening, (opening = [] ∨ opening = ['"']) ∧ s = opening ++ unopened s := by
  unfold unopened
  split
  next quote =>
    obtain ⟨rest, rfl⟩ := List.head?_eq_some_iff.mp quote
    exact ⟨['"'], .inr rfl, rfl⟩
  next => exact ⟨[], .inl rfl, rfl⟩

/-- With blanks behind it no quote is taken from the end: what is left has every word of the
string without its opening quote. -/
theorem Unquoted.words {s u : List Char} (h : Unquoted s u) {c : Char}
    (last : (unopened s).getLast? = some c) (white : isWhitespace c = true) :
    ((unopened s).filter fun c => !isWhitespace c).length ≤
      (u.filter fun c => !isWhitespace c).length := by
  obtain ⟨opening, closing, opens, closes, rfl⟩ := h
  obtain rfl : closing = [] := by
    refine closes.resolve_right ?_
    rintro rfl
    -- the last character would be the quote
    obtain ⟨front, -, split⟩ := exists_opening (opening ++ u ++ ['"'])
    have some : unopened (opening ++ u ++ ['"']) ≠ [] := by
      intro none
      rw [none] at last
      simp at last
    have quote := congrArg List.getLast? split
    rw [List.getLast?_concat, List.getLast?_append_of_ne_nil _ some, last] at quote
    obtain rfl := Option.some.inj quote
    simp [isWhitespace] at white
  rw [List.append_nil]
  rcases opens with rfl | rfl
  · obtain ⟨front, -, split⟩ := exists_opening u
    conv_rhs => rw [split, List.filter_append, List.length_append]
    exact Nat.le_add_left _ _
  · exact le_refl _

/-- What the last two steps do behind a quote that closes. -/
theorem trimmed_closed (front : List Char) {back : List Char}
    (white : ∀ c ∈ back, isWhitespace c = true) :
    ∃ gap, trimmed (front ++ '"' :: back) = trimmed front ++ gap ++ ['"'] ∧
      unclosed (trimmed (front ++ '"' :: back)) = trimmed front ++ gap ∧
      (∀ c ∈ gap, isWhitespace c = true) ∧
      (gap = [] ↔ (∀ c ∈ front, isWhitespace c = true) ∨
        ∀ c, front.getLast? = some c → isWhitespace c = false) := by
  have black : isWhitespace '"' = false := by decide
  obtain ⟨gap, normal, blanks, none⟩ := (normalForm_trimmed front).concat black white
  have whole := trimmed_eq normal
  refine ⟨gap, whole, ?_, blanks, none⟩
  rw [whole, unclosed, if_pos List.getLast?_concat, List.dropLast_concat]

theorem Strips.closesCleanly {s : List Char} (h : Strips s) : ClosesCleanly s := by
  obtain ⟨t, run, tidy, u, unquoted, trims⟩ := h
  intro front back split white
  obtain ⟨gap, whole, left, blanks, none⟩ := trimmed_closed front white
  obtain rfl : trimmed front ++ gap = t := by
    rw [← left, ← split]
    exact Option.some.inj ((trimstring_eq s).symm.trans run)
  constructor
  · by_contra some
    -- all words of the string without its opening quote are left, and the quote is not
    have last : (unopened s).getLast? = .some (back.getLast some) := by
      rw [split, List.getLast?_append_of_ne_nil _ (List.cons_ne_nil _ _),
        List.getLast?_cons_of_ne_nil some, List.getLast?_eq_some_getLast some]
    have words := unquoted.words last (white _ (List.getLast_mem some))
    rw [trim_eq] at trims
    rw [← (normalForm_trimmed u).filter, Option.some.inj trims, split,
      ← (normalForm_trimmed (front ++ '"' :: back)).filter, whole, List.filter_append,
      List.length_append] at words
    have quote : (['"'].filter fun c => !isWhitespace c).length = 1 := by decide
    omega
  · rw [← none]
    by_contra some
    have last : (trimmed front ++ gap).getLast? = .some (gap.getLast some) := by
      rw [List.getLast?_append_of_ne_nil _ some, List.getLast?_eq_some_getLast some]
    have black := tidy.last _ last
    rw [blanks _ (List.getLast_mem some)] at black
    exact absurd black (by simp)

theorem ClosesCleanly.strips {s : List Char} (h : ClosesCleanly s) : Strips s := by
  obtain ⟨opening, opens, split⟩ := exists_opening s
  by_cases quote : (trimmed (unopened s)).getLast? = some '"'
  · -- the quote that goes is the last character of the string
    obtain ⟨front, back, shape, white⟩ := (normalForm_trimmed (unopened s)).exists_of_getLast? quote
    obtain ⟨rfl, clean⟩ := h front back shape white
    obtain ⟨gap, -, left, -, none⟩ := trimmed_closed front white
    rw [none.mpr clean, List.append_nil] at left
    refine ⟨trimmed front, by rw [trimstring_eq, shape, left], (normalForm_trimmed front).tidy, front,
      ⟨opening, ['"'], opens, .inr rfl, ?_⟩, trim_eq front⟩
    rw [split, shape, ← List.append_assoc]
  · have left : unclosed (trimmed (unopened s)) = trimmed (unopened s) := if_neg quote
    refine ⟨trimmed (unopened s), by rw [trimstring_eq, left],
      (normalForm_trimmed (unopened s)).tidy, unopened s,
      ⟨opening, [], opens, .inl rfl, ?_⟩, trim_eq (unopened s)⟩
    rw [List.append_nil, ← split]

/-- `trimstring` leaves the normal form of the string without its quotes exactly if the string
closes cleanly. -/
theorem strips_iff (s : List Char) : Strips s ↔ ClosesCleanly s :=
  ⟨Strips.closesCleanly, ClosesCleanly.strips⟩

/-- The blank before a closing quote stays. -/
theorem trimstring_leaves_blank : ¬ ∀ s : List Char, Strips s := by
  intro all
  obtain ⟨t, run, tidy, -⟩ := all ['a', ' ', '"']
  obtain rfl : ['a', ' '] = t := Option.some.inj run
  exact absurd (tidy.last ' ' rfl) (by decide)

end ScCosim.Helper
