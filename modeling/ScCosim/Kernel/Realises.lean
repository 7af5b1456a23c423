import ScCosim.Kernel.Program

/-!
# Programs that realise others

A program with events and replies of its own realises an abstract program if what it does and
is told shows what the abstract program does and is told, and both return the same. How the
events and replies of the one show those of the other is a parameter, a `View`; it only has
to be closed under putting conversations one after the other.
-/
namespace ScCosim.Kernel.Program

variable {σ ε ρ ε' ρ' α β : Type}

/-- Where a conversation stops: nothing is waited for, a reply is waited for that the abstract
program waits for as well, or one that it does not know of. -/
inductive Phase where
  | whole
  | waiting
  | cut
  deriving DecidableEq, Repr

/-- What a conversation shows. -/
structure View (ε ρ ε' ρ' : Type) where
  Shows : Phase → List ε → List ρ → List ε' → List ρ' → Prop
  nil : Shows .whole [] [] [] []
  append : ∀ {phase u v r q u' v' r' q'}, Shows .whole u r u' r' → Shows phase v q v' q' →
    Shows phase (u ++ v) (r ++ q) (u' ++ v') (r' ++ q')

/-- The conversation shows one of `q`, and `q` returns if it has come to its end. -/
inductive Mirrors (V : View ε ρ ε' ρ') (q : Program Unit ε' ρ' α) :
    Option α → List ε → List ρ → Prop where
  | returned {a : α} {u : List ε} {r : List ρ} {u' : List ε'} {r' : List ρ'}
      (shown : V.Shows .whole u r u' r')
      (run : ∀ d rest, q ⟨(), d, r' ++ rest⟩ = .ok a ⟨(), d ++ u', rest⟩) : Mirrors V q (some a) u r
  | stopped {phase : Phase} {u : List ε} {r : List ρ} {u' : List ε'} {r' : List ρ'}
      (shown : V.Shows phase u r u' r')
      (run : phase ≠ .cut → ∀ d, q ⟨(), d, r'⟩ = .error () ⟨(), d ++ u', []⟩) : Mirrors V q none u r

/-- Every run of `p` is, as far as it goes, a run of `q`. -/
def Realises (V : View ε ρ ε' ρ') (p : Program σ ε ρ α) (q : Program Unit ε' ρ' α) : Prop :=
  ∀ s, ∃ u r, (after (p s)).done = s.done ++ u ∧ s.replies = r ++ (after (p s)).replies ∧
    Mirrors V q (outcome (p s)) u r

section rules

variable {V : View ε ρ ε' ρ'}

theorem realises_pure (a : α) : Realises V (pure a : Program σ ε ρ α) (pure a) := by
  intro s
  refine ⟨[], [], (List.append_nil _).symm, rfl, .returned V.nil fun d rest => ?_⟩
  rw [List.append_nil]
  rfl

theorem realises_stop : Realises V (stop : Program σ ε ρ α) stop := by
  intro s
  refine ⟨[], [], (List.append_nil _).symm, rfl, .stopped V.nil fun _ d => ?_⟩
  rw [List.append_nil]
  rfl

theorem realises_emit {e : ε} {e' : ε'} (shown : V.Shows .whole [e] [] [e'] []) :
    Realises V (emit e : Program σ ε ρ Unit) (emit e') :=
  fun _ => ⟨[e], [], rfl, rfl, .returned shown fun _ _ => rfl⟩

/-- An event that shows nothing. -/
theorem realises_silent {e : ε} (shown : V.Shows .whole [e] [] [] []) :
    Realises V (emit e : Program σ ε ρ Unit) (pure ()) := by
  intro s
  refine ⟨[e], [], rfl, rfl, .returned shown fun d rest => ?_⟩
  rw [List.append_nil]
  rfl

theorem realises_modify (f : σ → σ) :
    Realises V (modify fun s => { s with memory := f s.memory } : Program σ ε ρ Unit) (pure ()) := by
  intro s
  refine ⟨[], [], (List.append_nil _).symm, rfl, .returned V.nil fun d rest => ?_⟩
  rw [List.append_nil]
  rfl

/-- What comes before a conversation of `q₁` makes it one of `q₂`, if `q₂` gets to `q₁` with it. -/
theorem Mirrors.prepend {q₁ q₂ : Program Unit ε' ρ' α} {o : Option α} {u v : List ε} {r r₂ : List ρ}
    {u' : List ε'} {r' : List ρ'} (shown : V.Shows .whole u r u' r')
    (gets : ∀ d rest, q₂ ⟨(), d, r' ++ rest⟩ = q₁ ⟨(), d ++ u', rest⟩) (h : Mirrors V q₁ o v r₂) :
    Mirrors V q₂ o (u ++ v) (r ++ r₂) := by
  cases h with
  | returned shown₂ run =>
    refine .returned (V.append shown shown₂) fun d rest => ?_
    rw [List.append_assoc, gets, run, List.append_assoc]
  | stopped shown₂ run =>
    refine .stopped (V.append shown shown₂) fun phase d => ?_
    rw [gets, run phase, List.append_assoc]

theorem realises_bind {p : Program σ ε ρ α} {q : Program Unit ε' ρ' α} {f : α → Program σ ε ρ β}
    {g : α → Program Unit ε' ρ' β} (first : Realises V p q) (rest : ∀ a, Realises V (f a) (g a)) :
    Realises V (p >>= f) (q >>= g) := by
  intro s
  obtain ⟨u, r, done, replies, mirrors⟩ := first s
  cases result : p s with
  | error e t =>
    simp only [result, after, outcome] at done replies mirrors
    rw [bind_error result]
    cases mirrors with
    | stopped shown run =>
      exact ⟨u, r, done, replies, .stopped shown fun phase d => bind_error (run phase d)⟩
  | ok a t =>
    simp only [result, after, outcome] at done replies mirrors
    rw [bind_ok result]
    cases mirrors with
    | returned shown run =>
      obtain ⟨v, r₂, more, left, mirrors⟩ := rest a t
      exact ⟨u ++ v, r ++ r₂, by rw [more, done, List.append_assoc],
        by rw [replies, left, List.append_assoc],
        mirrors.prepend shown fun d rest => bind_ok (run d rest)⟩

theorem realises_forM {γ : Type} {f : γ → Program σ ε ρ Unit} {g : γ → Program Unit ε' ρ' Unit}
    {cs : List γ} (each : ∀ c ∈ cs, Realises V (f c) (g c)) :
    Realises V (cs.forM f) (cs.forM g) := by
  induction cs with
  | nil => exact realises_pure ()
  | cons c cs ih =>
    exact realises_bind (each c List.mem_cons_self) fun _ =>
      ih fun d member => each d (List.mem_cons_of_mem c member)

/-! ### Loops -/

/-- A round that goes on takes a reply. -/
def Takes (body : Program σ ε ρ (Option α)) : Prop :=
  ∀ s t, body s = .ok none t → t.replies.length < s.replies.length

theorem Takes.progresses {body : Program σ ε ρ (Option α)} (h : Takes body) : Progresses body :=
  fun s t result => Or.inr (h s t result)

theorem untilSome_of_none {body : Program σ ε ρ (Option α)} (takes : Takes body)
    {s t : Session σ ε ρ} (h : body s = .ok none t) : untilSome body s = untilSome body t := by
  have fewer := takes s t h
  rw [untilSome, rounds_of_none h, untilSome]
  exact rounds_of_enough takes.progresses (by omega) (by omega)

/-- Loops whose rounds take replies: neither of the two is cut short. -/
theorem realises_untilSome {body : Program σ ε ρ (Option α)}
    {body' : Program Unit ε' ρ' (Option α)} (round : Realises V body body')
    (takes : Takes body) (takes' : Takes body') :
    Realises V (untilSome body) (untilSome body') := by
  intro s
  -- by induction on the replies that are left
  induction left : s.replies.length using Nat.strongRecOn generalizing s with
  | ind n ih =>
    obtain ⟨u, r, done, replies, mirrors⟩ := round s
    cases result : body s with
    | error e t =>
      simp only [result, after, outcome] at done replies mirrors
      rw [untilSome, rounds_of_error result]
      cases mirrors with
      | stopped shown run =>
        exact ⟨u, r, done, replies, .stopped shown fun phase d => rounds_of_error (run phase d) _⟩
    | ok o t =>
      simp only [result, after, outcome] at done replies mirrors
      cases o with
      | some a =>
        rw [untilSome, rounds_of_some result]
        cases mirrors with
        | returned shown run =>
          exact ⟨u, r, done, replies, .returned shown fun d rest => rounds_of_some (run d rest) _⟩
      | none =>
        obtain ⟨v, r₂, more, later, again⟩ := ih _ (left ▸ takes s t result) t rfl
        rw [untilSome_of_none takes result]
        cases mirrors with
        | returned shown run =>
          exact ⟨u ++ v, r ++ r₂, by rw [more, done, List.append_assoc],
            by rw [replies, later, List.append_assoc],
            again.prepend shown fun d rest => untilSome_of_none takes' (run d rest)⟩

/-- A loop whose round does nothing does not return. -/
theorem untilSome_none : untilSome (pure none : Program σ ε ρ (Option α)) = stop :=
  funext fun _ => rounds_of_same rfl _

/-! ### Whole runs -/

/-- What a program does from the start, and the replies it takes. -/
structure Run (ε ρ : Type) where
  done : List ε
  heard : List ρ

def run (p : Program σ ε ρ α) (memory : σ) (replies : List ρ) : Run ε ρ :=
  let t := after (p ⟨memory, [], replies⟩)
  ⟨t.done, replies.take (replies.length - t.replies.length)⟩

/-- A run shows what `q` does on the replies it shows. -/
theorem Realises.shows {p : Program σ ε ρ α} {q : Program Unit ε' ρ' α} (h : Realises V p q)
    (memory : σ) (replies : List ρ) : ∃ phase u r,
      V.Shows phase (run p memory replies).done (run p memory replies).heard u r ∧
      (phase ≠ .cut → (after (q ⟨(), [], r⟩)).done = u) := by
  obtain ⟨u, r, done, taken, mirrors⟩ := h ⟨memory, [], replies⟩
  rw [List.nil_append] at done
  have heard : (run p memory replies).heard = r := by
    change replies = _ at taken
    have length := congrArg List.length taken
    rw [List.length_append] at length
    rw [run, length, Nat.add_sub_cancel]
    exact (congrArg (List.take r.length) taken).trans List.take_left
  rw [heard, run, done]
  generalize outcome (p ⟨memory, [], replies⟩) = o at mirrors
  cases mirrors with
  | @returned a _ _ u' r' shown follows =>
    refine ⟨.whole, u', r', shown, fun _ => ?_⟩
    have result := follows [] []
    rw [List.append_nil] at result
    rw [result]
    rfl
  | @stopped phase _ _ u' r' shown follows =>
    refine ⟨phase, u', r', shown, fun uncut => ?_⟩
    rw [follows uncut []]
    rfl

end rules

end ScCosim.Kernel.Program
