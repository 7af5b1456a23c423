import ScCosim.Helper.Cells
import ScCosim.Helper.Pieces
import ScCosim.Helper.Trim
import Mathlib.Algebra.Group.Nat.Defs
import Mathlib.Algebra.Group.Int.Defs

/-!
# `tokenize`

Two loops cut the string at the tokenizer: the first counts the tokens, the second fills an
array of that many strings. The array parameter is a pointer passed by value, so the array
the function fills is not the caller's.
-/
namespace ScCosim.Helper

/-- `str_line.find(tokenizer, pos)`, with `none` for `npos`. -/
def find (strLine tokenizer : List Char) (pos : Nat) : Option Nat :=
  if pos ≤ strLine.length then findFrom tokenizer (strLine.drop pos) pos else none

/-- `str_line.substr(pos, count)`, `none` for the count `npos`; it throws past the end. -/
def substr (strLine : List Char) (pos : Nat) (count : Option Nat) : Option (List Char) :=
  if pos ≤ strLine.length then
    some (match count with
      | some count => (strLine.drop pos).take count
      | none => strLine.drop pos)
  else none

/-- `int tocsize = tokenizer.size();`. -/
def tocsize (tokenizer : List Char) : Int := (BitVec.ofNat 32 tokenizer.length).toInt

/-- `pos + tocsize` as a `size_type`. No string is long enough for a carry out of the 64 bits,
but a negative `int` borrows. -/
def posStart (pos : Nat) (tokenizer : List Char) : Nat :=
  let sum : Int := pos + tocsize tokenizer
  if sum < 0 then (sum + 2 ^ 64).toNat else sum.toNat

/-- `counter++` on an `int`. -/
def increment (counter : Nat) : Option Nat :=
  if counter + 1 < 2 ^ 31 then some (counter + 1) else none

/-- The next token: up to the occurrence at `pos`, or to the end. -/
def nextToken (strLine : List Char) (start : Nat) (pos : Option Nat) : Option (List Char) :=
  substr strLine start (pos.map fun pos => pos - start)

/-- The loop that counts. -/
def countLoop (strLine tokenizer : List Char) :
    Nat → Option Nat → List Char → Nat → Option (List Char × Nat)
  | _, none, token, counter => some (token, counter)
  | 0, some _, _, _ => none
  | fuel + 1, some pos, token, counter => do
    let _ ← strim token
    let counter ← increment counter
    let start := posStart pos tokenizer
    let pos := find strLine tokenizer start
    let token ← nextToken strLine start pos
    countLoop strLine tokenizer fuel pos token counter

/-- The loop that fills the array. -/
def fillLoop (strLine tokenizer : List Char) : Nat → Option Nat → List Char → Nat →
    Cells (List Char) → Option (List Char × Nat × Cells (List Char))
  | _, none, token, counter, tokens => some (token, counter, tokens)
  | 0, some _, _, _, _ => none
  | fuel + 1, some pos, token, counter, tokens => do
    let token ← strim token
    let tokens ← tokens.store counter (some token)
    let counter ← increment counter
    let start := posStart pos tokenizer
    let pos := find strLine tokenizer start
    let token ← nextToken strLine start pos
    fillLoop strLine tokenizer fuel pos token counter tokens

/-- What a call leaves: the result, the caller's array, and the array that the function made. -/
structure Tokenized where
  result : Int
  tokens : Nat → List Char
  made : Cells (List Char)

/-- `tokenize`, unless it throws, overflows its counter or does not end. Every pass of a loop
that ends moves on by a character, so `fuel` of them are enough. -/
def tokenize (strLine tokenizer : List Char) (tokens : Nat → List Char) : Option Tokenized :=
  if strLine = [] then some ⟨-1, tokens, []⟩
  else if tokenizer = [] then some ⟨-2, tokens, []⟩
  else do
    let fuel := strLine.length
    let pos := find strLine tokenizer 0
    let token ← nextToken strLine 0 pos
    let (token, counter) ← countLoop strLine tokenizer fuel pos token 0
    let _ ← strim token
    let counter ← increment counter
    -- from here on `tokens` is the new array, and the caller's stays as it is
    let made : Cells (List Char) := Cells.new counter
    let token ← nextToken strLine 0 pos
    let (token, counter, made) ← fillLoop strLine tokenizer fuel pos token 0 made
    let token ← strim token
    let made ← made.store counter (some token)
    some ⟨counter, tokens, made⟩

/-! ## One pass of a loop -/

section Loops

variable {strLine tokenizer : List Char} (short : tokenizer.length < 2 ^ 31)

include short in
theorem posStart_eq (pos : Nat) : posStart pos tokenizer = pos + tokenizer.length := by
  have size : tocsize tokenizer = tokenizer.length := by
    rw [tocsize, BitVec.toInt_eq_toNat_of_lt (by rw [BitVec.toNat_ofNat]; omega),
      BitVec.toNat_ofNat]
    congr 1
    omega
  rw [posStart, size, if_neg (by omega)]
  omega

/-- No further occurrence: the last token is the rest of the string. -/
theorem token_last {start : Nat} (inside : start ≤ strLine.length)
    (none : ¬ tokenizer <:+: strLine.drop start) :
    find strLine tokenizer start = .none ∧
      nextToken strLine start (find strLine tokenizer start) = some (strLine.drop start) := by
  have found : find strLine tokenizer start = .none := by
    rw [find, if_pos inside, findFrom_none none]
  refine ⟨found, ?_⟩
  rw [found, nextToken, Option.map_none, substr, if_pos inside]

/-- The next occurrence: the token is the piece before it, and the search goes on behind it. -/
theorem token_cut {start : Nat} {p rest : List Char} (inside : start ≤ strLine.length)
    (leftmost : Leftmost tokenizer p rest) (whole : strLine.drop start = p ++ tokenizer ++ rest) :
    find strLine tokenizer start = some (start + p.length) ∧
      nextToken strLine start (find strLine tokenizer start) = some p ∧
      start + p.length + tokenizer.length ≤ strLine.length ∧
      strLine.drop (start + p.length + tokenizer.length) = rest := by
  have found : find strLine tokenizer start = some (start + p.length) := by
    rw [find, if_pos inside, whole, findFrom_leftmost leftmost]
  have length : strLine.length - start = p.length + tokenizer.length + rest.length := by
    rw [← List.length_drop, whole, List.length_append, List.length_append]
  refine ⟨found, ?_, by omega, ?_⟩
  · rw [found, nextToken, Option.map_some, substr, if_pos inside, whole, Nat.add_sub_cancel_left]
    simp
  · rw [Nat.add_assoc, ← List.drop_drop, whole, ← List.length_append, List.drop_left]

theorem increment_eq {counter : Nat} (h : counter + 1 < 2 ^ 31) :
    increment counter = some (counter + 1) := if_pos h

include short in
theorem countLoop_eq {u : List Char} {ps : List (List Char)} (h : Pieces tokenizer u ps)
    {start : Nat} (inside : start ≤ strLine.length) (whole : strLine.drop start = u)
    {fuel counter : Nat} (enough : ps.length ≤ fuel + 1) (small : counter + ps.length ≤ 2 ^ 31) :
    ∃ token, nextToken strLine start (find strLine tokenizer start) = some token ∧
      countLoop strLine tokenizer fuel (find strLine tokenizer start) token counter =
        some (ps.getLast h.ne_nil, counter + ps.length - 1) := by
  induction h generalizing start fuel counter with
  | last s none =>
    subst whole
    obtain ⟨found, token⟩ := token_last inside none
    refine ⟨_, token, ?_⟩
    rw [found]
    cases fuel <;> rfl
  | cut p rest ps leftmost later ih =>
    obtain ⟨found, token, bound, behind⟩ := token_cut inside leftmost whole
    have some := List.length_pos_iff.mpr later.ne_nil
    simp only [List.length_cons] at enough small
    -- one pass over this piece, and then the loop over the later ones
    cases fuel with
    | zero => omega
    | succ fuel =>
      have enough' : ps.length ≤ fuel + 1 := by omega
      have small' : counter + 1 + ps.length ≤ 2 ^ 31 := by omega
      obtain ⟨next, nextEq, loop⟩ := ih bound behind enough' small'
      refine ⟨p, token, ?_⟩
      rw [found]
      simp only [countLoop, strim_eq, increment_eq (show counter + 1 < 2 ^ 31 by omega),
        posStart_eq short, nextEq, Option.bind_eq_bind, Option.bind_some, loop]
      rw [List.getLast_cons later.ne_nil, List.length_cons]
      congr 2
      omega

include short in
theorem fillLoop_eq {u : List Char} {ps : List (List Char)} (h : Pieces tokenizer u ps)
    {start : Nat} (inside : start ≤ strLine.length) (whole : strLine.drop start = u)
    {fuel counter : Nat} (enough : ps.length ≤ fuel + 1) (small : counter + ps.length ≤ 2 ^ 31)
    {tokens : Cells (List Char)} (room : counter + ps.length ≤ tokens.length) :
    ∃ token filled, nextToken strLine start (find strLine tokenizer start) = some token ∧
      fillLoop strLine tokenizer fuel (find strLine tokenizer start) token counter tokens =
        some (ps.getLast h.ne_nil, counter + ps.length - 1, filled) ∧
      filled.length = tokens.length ∧ (∀ i < counter, filled[i]? = tokens[i]?) ∧
      ∀ i p, i + 1 < ps.length → ps[i]? = some p → filled[counter + i]? = some (some (trimmed p)) := by
  induction h generalizing start fuel counter tokens with
  | last s none =>
    subst whole
    obtain ⟨found, token⟩ := token_last inside none
    refine ⟨_, tokens, token, ?_, rfl, fun _ _ => rfl, fun i p below => by simp at below⟩
    rw [found]
    cases fuel <;> rfl
  | cut p rest ps leftmost later ih =>
    obtain ⟨found, token, bound, behind⟩ := token_cut inside leftmost whole
    have some := List.length_pos_iff.mpr later.ne_nil
    simp only [List.length_cons] at enough small room
    have free : counter < tokens.length := by omega
    cases fuel with
    | zero => omega
    | succ fuel =>
      have enough' : ps.length ≤ fuel + 1 := by omega
      have small' : counter + 1 + ps.length ≤ 2 ^ 31 := by omega
      have room' : counter + 1 + ps.length ≤ (tokens.set counter (.some (trimmed p))).length := by
        rw [List.length_set]
        omega
      obtain ⟨next, filled, nextEq, loop, length, before, between⟩ :=
        ih bound behind enough' small' room'
      refine ⟨p, filled, token, ?_, by rw [length, List.length_set], fun i below => ?_,
        fun i q below piece => ?_⟩
      · rw [found]
        simp only [fillLoop, strim_eq, increment_eq (show counter + 1 < 2 ^ 31 by omega),
          Cells.store_eq_some free, posStart_eq short, nextEq, Option.bind_eq_bind,
          Option.bind_some, loop]
        rw [List.getLast_cons later.ne_nil, List.length_cons]
        congr 3
        omega
      · rw [before i (by omega), List.getElem?_set_ne (by omega)]
      · -- this pass stores at `counter`, and the later ones store above it
        cases i with
        | zero =>
          obtain rfl : p = q := by simpa using piece
          rw [Nat.add_zero, before counter (by omega), List.getElem?_set_self free]
        | succ i =>
          rw [show counter + (i + 1) = counter + 1 + i by omega]
          exact between i q (by simpa using below) (by simpa using piece)

include short in
/-- However large the counter gets, a loop that ends has not counted the last piece. -/
theorem fillLoop_counter {u : List Char} {ps : List (List Char)} (h : Pieces tokenizer u ps)
    {start : Nat} (inside : start ≤ strLine.length) (whole : strLine.drop start = u)
    {fuel counter : Nat} {token : List Char} {tokens : Cells (List Char)}
    {last : List Char × Nat × Cells (List Char)}
    (loop : fillLoop strLine tokenizer fuel (find strLine tokenizer start) token counter tokens =
      some last) : last.2.1 + 1 = counter + ps.length := by
  induction h generalizing start fuel counter token tokens with
  | last s none =>
    subst whole
    rw [(token_last inside none).1] at loop
    cases fuel <;> cases loop <;> rfl
  | cut p rest ps leftmost later ih =>
    obtain ⟨found, -, bound, behind⟩ := token_cut inside leftmost whole
    rw [found] at loop
    cases fuel with
    | zero => cases loop
    | succ fuel =>
      simp only [fillLoop, strim_eq, posStart_eq short, Option.bind_eq_bind,
        Option.bind_some, Option.bind_eq_some_iff] at loop
      obtain ⟨stored, -, counted, count, next, -, loop⟩ := loop
      have step : counted = counter + 1 := by
        unfold increment at count
        split at count
        · exact (Option.some.inj count).symm
        · cases count
      rw [ih bound behind loop, step, List.length_cons]
      omega

end Loops

/-- The array that `tokenize` makes holds every piece, trimmed; but the result is one less than
the number of pieces, and the caller's array is as before. -/
theorem tokenize_eq {strLine tokenizer : List Char} {ps : List (List Char)} (hs : strLine ≠ [])
    (ht : tokenizer ≠ []) (h : Pieces tokenizer strLine ps) (short : tokenizer.length < 2 ^ 31)
    (few : ps.length < 2 ^ 31) (tokens : Nat → List Char) :
    ∃ made : Cells (List Char), tokenize strLine tokenizer tokens =
        some ⟨(ps.length - 1 : Nat), tokens, made⟩ ∧ made.length = ps.length ∧
      ∀ (i : Nat) p, ps[i]? = some p → made[i]? = some (some (trimmed p)) := by
  have enough := h.length_le ht
  have some := List.length_pos_iff.mpr h.ne_nil
  have small : 0 + ps.length ≤ 2 ^ 31 := by omega
  have room : 0 + ps.length ≤ (Cells.new ps.length : Cells (List Char)).length := by
    rw [Cells.length_new]
    omega
  obtain ⟨token, first, count⟩ := countLoop_eq short h (Nat.zero_le _) rfl enough small
  obtain ⟨token', filled, first', fill, length, -, between⟩ :=
    fillLoop_eq short h (Nat.zero_le _) rfl enough small room
  rw [Cells.length_new] at length
  obtain rfl : token = token' := Option.some.inj (first.symm.trans first')
  rw [Nat.zero_add] at count fill
  have counted : increment (ps.length - 1) = .some ps.length := by
    rw [increment_eq (by omega)]
    congr 1
    omega
  have free : ps.length - 1 < filled.length := by omega
  refine ⟨filled.set (ps.length - 1) (.some (trimmed (ps.getLast h.ne_nil))), ?_,
    by rw [List.length_set, length], fun i p piece => ?_⟩
  · simp only [tokenize, if_neg hs, if_neg ht, first, count, strim_eq, counted, fill,
      Cells.store_eq_some free, Option.bind_eq_bind, Option.bind_some]
  · -- the last piece is stored after the loop
    by_cases isLast : i = ps.length - 1
    · subst isLast
      rw [List.getElem?_set_self free]
      rw [← List.getLast?_eq_getElem?, List.getLast?_eq_some_getLast h.ne_nil] at piece
      rw [Option.some.inj piece]
    · obtain ⟨below, -⟩ := List.getElem?_eq_some_iff.mp piece
      rw [List.getElem?_set_ne (Ne.symm isLast)]
      simpa using between i p (by omega) piece

/-- A call that returns leaves the caller's array alone and returns the counter of the loop that
fills its own. -/
theorem tokenize_returns {strLine tokenizer : List Char} {tokens : Nat → List Char}
    {call : Tokenized} (hs : strLine ≠ []) (ht : tokenizer ≠ [])
    (run : tokenize strLine tokenizer tokens = some call) :
    call.tokens = tokens ∧ ∃ token made last,
      fillLoop strLine tokenizer strLine.length (find strLine tokenizer 0) token 0 made =
        some last ∧ call.result = last.2.1 := by
  simp only [tokenize, if_neg hs, if_neg ht, Option.bind_eq_bind, Option.bind_eq_some_iff] at run
  obtain ⟨_, _, _, _, _, _, _, _, token, _, last, fill, _, _, _, _, run⟩ := run
  cases run
  exact ⟨rfl, token, _, last, fill, rfl⟩

/-- What `tokenize` is for: it returns the number of pieces, and each is in the caller's array
as `strim` leaves it. -/
def Delivers (strLine tokenizer : List Char) (tokens : Nat → List Char) (ps : List (List Char)) :
    Prop :=
  ∃ call, tokenize strLine tokenizer tokens = some call ∧ call.result = ps.length ∧
    ∀ i p, ps[i]? = some p → strim p = some (call.tokens i)

/-- No string and no tokenizer have their pieces delivered. With a tokenizer whose length is an
`int` the count is wrong whatever the caller's array holds; and with any, the array is not
written. -/
theorem tokenize_never_delivers {strLine tokenizer : List Char} {ps : List (List Char)}
    (hs : strLine ≠ []) (ht : tokenizer ≠ []) (h : Pieces tokenizer strLine ps) :
    (tokenizer.length < 2 ^ 31 → ∀ tokens, ¬ Delivers strLine tokenizer tokens ps) ∧
      ¬ ∀ tokens, Delivers strLine tokenizer tokens ps := by
  constructor
  · rintro short tokens ⟨call, run, count, -⟩
    obtain ⟨-, token, made, last, fill, result⟩ := tokenize_returns hs ht run
    have counted := fillLoop_counter short h (Nat.zero_le _) rfl fill
    omega
  · intro all
    obtain ⟨p, rest, rfl⟩ := List.exists_cons_of_ne_nil h.ne_nil
    -- an array whose first string is not the first token
    obtain ⟨call, run, -, delivered⟩ := all fun _ => trimmed p ++ [' ']
    have first := delivered 0 p rfl
    rw [(tokenize_returns hs ht run).1, strim_eq] at first
    simp at first

theorem pieces_of_pair : Pieces [','] ['a', ',', 'b'] [['a'], ['b']] := by
  have leftmost : Leftmost [','] ['a'] ['b'] := by
    intro q r same
    cases q with
    | nil => simp at same
    | cons c q => simp
  exact .cut ['a'] ['b'] [['b']] leftmost (.last ['b'] (by decide))

theorem tokenize_never_delivers_pair :
    ([','].length < 2 ^ 31 →
        ∀ tokens, ¬ Delivers ['a', ',', 'b'] [','] tokens [['a'], ['b']]) ∧
      ¬ ∀ tokens, Delivers ['a', ',', 'b'] [','] tokens [['a'], ['b']] :=
  tokenize_never_delivers (by decide) (by decide) pieces_of_pair

/-- `tokenize("a,b", ",", tokens)` returns 1. -/
theorem tokenize_miscounts_pair :
    ¬ ∀ (strLine tokenizer : List Char) (tokens : Nat → List Char) (ps : List (List Char)),
      strLine ≠ [] → tokenizer ≠ [] → Pieces tokenizer strLine ps →
        Delivers strLine tokenizer tokens ps := by
  intro all
  obtain ⟨call, run, count, -⟩ := all ['a', ',', 'b'] [','] (fun _ => []) [['a'], ['b']]
    (by decide) (by decide) pieces_of_pair
  have result : (tokenize ['a', ',', 'b'] [','] fun _ => []).map Tokenized.result = some 1 := by
    decide
  rw [run, Option.map_some, count] at result
  exact absurd result (by decide)

end ScCosim.Helper
