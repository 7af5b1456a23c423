import Mathlib.Data.List.Forall2

/-!
# Programs that do input and output

A program keeps a memory, does events one after the other and takes replies from its
surroundings. A program that never returns stops early, with all that it has done. Four
rules: what a program can have done (`Does`, and `Only` for one kind of event), what it has
done and been told when it returns (`Converses`), how many replies it needs to return
(`Returns`), and that two runs whose replies are related do the same (`Agrees`).
-/
namespace ScCosim.Kernel

/-- What a program has done so far, oldest first, and the replies it will get. -/
structure Session (σ ε ρ : Type) where
  memory : σ
  done : List ε
  replies : List ρ

/-- The error result is that of a program that does not return. -/
abbrev Program (σ ε ρ α : Type) := EStateM Unit (Session σ ε ρ) α

namespace Program

variable {σ ε ρ α β : Type}

def emit (e : ε) : Program σ ε ρ Unit :=
  modify fun s => { s with done := s.done ++ [e] }

/-- Wait for a reply; without one the program waits for ever. -/
def receive : Program σ ε ρ ρ := fun s =>
  match s.replies with
  | [] => .error () s
  | r :: rest => .ok r { s with replies := rest }

def stop : Program σ ε ρ α := throw ()

/-- At most `n` rounds of a loop that ends with the first round that yields a value. -/
def rounds (body : Program σ ε ρ (Option α)) : Nat → Program σ ε ρ α
  | 0 => stop
  | n + 1 => do
    match ← body with
    | some a => return a
    | none => rounds body n

/-- A loop that ends with the first round that yields a value. -/
def untilSome (body : Program σ ε ρ (Option α)) : Program σ ε ρ α := fun s =>
  rounds body (s.replies.length + 1) s

/-! ### Results -/

/-- The value returned, if the program returns. -/
def outcome : EStateM.Result Unit (Session σ ε ρ) α → Option α
  | .ok a _ => some a
  | .error _ _ => none

def after : EStateM.Result Unit (Session σ ε ρ) α → Session σ ε ρ
  | .ok _ t => t
  | .error _ t => t

theorem bind_ok {p : Program σ ε ρ α} {f : α → Program σ ε ρ β} {s t : Session σ ε ρ} {a : α}
    (h : p s = .ok a t) : (p >>= f) s = f a t := by
  simp [bind, EStateM.bind, h]

theorem bind_error {p : Program σ ε ρ α} {f : α → Program σ ε ρ β} {s t : Session σ ε ρ}
    (h : p s = .error () t) : (p >>= f) s = .error () t := by
  simp [bind, EStateM.bind, h]

theorem bind_eq_ok {p : Program σ ε ρ α} {f : α → Program σ ε ρ β} {s t : Session σ ε ρ} {b : β}
    (h : (p >>= f) s = .ok b t) : ∃ a u, p s = .ok a u ∧ f a u = .ok b t := by
  cases first : p s with
  | error e u =>
    rw [bind_error first] at h
    cases h
  | ok a u =>
    rw [bind_ok first] at h
    exact ⟨a, u, rfl, h⟩

/-! ### The bound on the rounds -/

/-- A round that goes on takes a reply, or changes nothing at all. -/
def Progresses (body : Program σ ε ρ (Option α)) : Prop :=
  ∀ s t, body s = .ok none t → t = s ∨ t.replies.length < s.replies.length

theorem rounds_of_error {body : Program σ ε ρ (Option α)} {s t : Session σ ε ρ}
    (h : body s = .error () t) (n : Nat) : rounds body (n + 1) s = .error () t := bind_error h

theorem rounds_of_some {body : Program σ ε ρ (Option α)} {s t : Session σ ε ρ} {a : α}
    (h : body s = .ok (some a) t) (n : Nat) : rounds body (n + 1) s = .ok a t := bind_ok h

theorem rounds_of_none {body : Program σ ε ρ (Option α)} {s t : Session σ ε ρ}
    (h : body s = .ok none t) (n : Nat) : rounds body (n + 1) s = rounds body n t := bind_ok h

theorem rounds_of_same {body : Program σ ε ρ (Option α)} {s : Session σ ε ρ}
    (same : body s = .ok none s) (n : Nat) : rounds body n s = .error () s := by
  induction n with
  | zero => rfl
  | succ n ih => rw [rounds_of_none same, ih]

/-- A loop whose round changes nothing never ends. -/
theorem untilSome_of_same {body : Program σ ε ρ (Option α)} {s : Session σ ε ρ}
    (same : body s = .ok none s) : untilSome body s = .error () s := rounds_of_same same _

/-- More rounds than there are replies make no difference, so the loop is not cut short. -/
theorem rounds_of_enough {body : Program σ ε ρ (Option α)} (progresses : Progresses body)
    {n m : Nat} {s : Session σ ε ρ} (hn : s.replies.length < n) (hm : s.replies.length < m) :
    rounds body n s = rounds body m s := by
  -- by induction on the rounds of one side: what is left of the replies bounds both
  induction n generalizing m s with
  | zero => omega
  | succ n ih =>
    obtain _ | m := m
    · omega
    cases result : body s with
    | error u t => rw [rounds_of_error result, rounds_of_error result]
    | ok a t =>
      cases a with
      | some a => rw [rounds_of_some result, rounds_of_some result]
      | none =>
        rcases progresses s t result with rfl | fewer
        · rw [rounds_of_same result, rounds_of_same result]
        · rw [rounds_of_none result, rounds_of_none result]
          exact ih (by omega) (by omega)

/-! ### What a program does -/

/-- Whatever the session, the events of `p` and the value it returns meet `Q`. -/
def Does (Q : Option α → List ε → Prop) (p : Program σ ε ρ α) : Prop :=
  ∀ s, ∃ more, (after (p s)).done = s.done ++ more ∧ Q (outcome (p s)) more

section does

variable {Q R : Option α → List ε → Prop} {S : Option β → List ε → Prop}

theorem Does.mono {p : Program σ ε ρ α} (h : Does Q p) (weaker : ∀ o u, Q o u → R o u) :
    Does R p := by
  intro s
  obtain ⟨more, done, q⟩ := h s
  exact ⟨more, done, weaker _ _ q⟩

theorem does_pure {a : α} (h : Q (some a) []) : Does Q (pure a : Program σ ε ρ α) :=
  fun _ => ⟨[], (List.append_nil _).symm, h⟩

theorem does_stop (h : Q none []) : Does Q (stop : Program σ ε ρ α) :=
  fun _ => ⟨[], (List.append_nil _).symm, h⟩

theorem does_emit {Q : Option Unit → List ε → Prop} {e : ε} (h : Q (some ()) [e]) :
    Does Q (emit e : Program σ ε ρ Unit) :=
  fun _ => ⟨[e], rfl, h⟩

theorem does_receive {Q : Option ρ → List ε → Prop} (none : Q none [])
    (some : ∀ r, Q (some r) []) : Does Q (receive : Program σ ε ρ ρ) := by
  intro s
  refine ⟨[], ?_, ?_⟩ <;> cases replies : s.replies
  · simp [receive, after, replies]
  · simp [receive, after, replies]
  · simpa [receive, outcome, replies] using none
  · simpa [receive, outcome, replies] using some _

/-- The events of a sequence are those of its two parts. -/
theorem does_bind {p : Program σ ε ρ α} {f : α → Program σ ε ρ β} (first : Does Q p)
    (stopped : ∀ u, Q none u → S none u)
    (rest : ∀ a u, Q (some a) u → Does (fun o v => S o (u ++ v)) (f a)) : Does S (p >>= f) := by
  intro s
  obtain ⟨u, done, q⟩ := first s
  cases result : p s with
  | error e t =>
    simp only [result, after, outcome] at done q
    rw [bind_error result]
    exact ⟨u, done, stopped u q⟩
  | ok a t =>
    simp only [result, after, outcome] at done q
    rw [bind_ok result]
    obtain ⟨v, more, s⟩ := rest a u q t
    exact ⟨u ++ v, by rw [more, done, List.append_assoc], s⟩

/-- The loop rule: a round that goes on may come before anything the loop does. -/
theorem does_untilSome {body : Program σ ε ρ (Option α)} {P : Option (Option α) → List ε → Prop}
    (round : Does P body) (stopped : ∀ u, P none u → Q none u)
    (ends : ∀ a u, P (some (some a)) u → Q (some a) u)
    (still : Q none []) (goesOn : ∀ u o v, P (some none) u → Q o v → Q o (u ++ v)) :
    Does Q (untilSome body) := by
  have all : ∀ n, Does Q (rounds body n) := by
    intro n
    induction n with
    | zero => exact does_stop still
    | succ n ih =>
      refine does_bind round stopped fun a u p => ?_
      cases a with
      | some a => exact does_pure (by simpa using ends a u p)
      | none => exact ih.mono fun o v q => goesOn u o v p q
  exact fun s => all _ s

theorem does_forM {γ : Type} {Q : γ → Option Unit → List ε → Prop}
    {S : List γ → Option Unit → List ε → Prop} {f : γ → Program σ ε ρ Unit}
    (each : ∀ c, Does (Q c) (f c)) (none : S [] (some ()) [])
    (stopped : ∀ c cs u, Q c Option.none u → S (c :: cs) Option.none u)
    (cons : ∀ c cs u o v, Q c (some ()) u → S cs o v → S (c :: cs) o (u ++ v)) (cs : List γ) :
    Does (S cs) (cs.forM f) := by
  induction cs with
  | nil => exact does_pure none
  | cons c cs ih =>
    exact does_bind (each c) (stopped c cs) fun _ u q => ih.mono fun o v => cons c cs u o v q

end does

/-! ### What a program that returns has done and been told -/

/-- Whenever `p` returns, its value, its events and the replies it has taken meet `Q`. -/
def Converses (Q : α → List ε → List ρ → Prop) (p : Program σ ε ρ α) : Prop :=
  ∀ s a t, p s = .ok a t →
    ∃ u r, t.done = s.done ++ u ∧ s.replies = r ++ t.replies ∧ Q a u r

section converses

variable {Q : α → List ε → List ρ → Prop} {S : β → List ε → List ρ → Prop}

theorem converses_pure {a : α} (h : Q a [] []) : Converses Q (pure a : Program σ ε ρ α) := by
  rintro s b t ⟨⟩
  exact ⟨[], [], (List.append_nil _).symm, rfl, h⟩

theorem converses_receive {Q : ρ → List ε → List ρ → Prop} (h : ∀ r, Q r [] [r]) :
    Converses Q (receive : Program σ ε ρ ρ) := by
  rintro ⟨m, done, _ | ⟨r, rest⟩⟩ b t run
  · cases run
  · cases run
    exact ⟨[], [r], (List.append_nil _).symm, rfl, h r⟩

/-- What one part says and hears comes before what the other does. -/
theorem converses_bind {p : Program σ ε ρ α} {f : α → Program σ ε ρ β}
    {P : α → β → List ε → List ρ → Prop} (first : Converses Q p)
    (rest : ∀ a, Converses (P a) (f a))
    (both : ∀ a b u v r q, Q a u r → P a b v q → S b (u ++ v) (r ++ q)) :
    Converses S (p >>= f) := by
  intro s b t run
  obtain ⟨a, m, before, after⟩ := bind_eq_ok run
  obtain ⟨u, r, done, taken, held⟩ := first s a m before
  obtain ⟨v, q, more, left, holds⟩ := rest a m b t after
  exact ⟨u ++ v, r ++ q, by rw [more, done, List.append_assoc],
    by rw [taken, left, List.append_assoc], both a b u v r q held holds⟩

/-- The loop rule: rounds that go on, and then one that ends. -/
theorem converses_untilSome {body : Program σ ε ρ (Option α)}
    {P : Option α → List ε → List ρ → Prop} (round : Converses P body)
    (ends : ∀ a u r, P (some a) u r → Q a u r)
    (goesOn : ∀ a u v r q, P none u r → Q a v q → Q a (u ++ v) (r ++ q)) :
    Converses Q (untilSome body) := by
  have all : ∀ n, Converses Q (rounds body n) := by
    intro n
    induction n with
    | zero => rintro s a t ⟨⟩
    | succ n ih =>
      refine converses_bind (P := fun first a u r => first = none ∧ Q a u r ∨
        first = some a ∧ u = [] ∧ r = []) round (fun first => ?_) ?_
      · cases first with
        | none =>
          intro s a t run
          obtain ⟨u, r, done, taken, q⟩ := ih s a t run
          exact ⟨u, r, done, taken, Or.inl ⟨rfl, q⟩⟩
        | some a => exact converses_pure (Or.inr ⟨rfl, rfl, rfl⟩)
      · rintro first a u v r q held (⟨rfl, rest⟩ | ⟨rfl, rfl, rfl⟩)
        · exact goesOn a u v r q held rest
        · simpa using ends a u r held
  exact fun s => all _ s

end converses

/-! ### Programs all of whose events are of one kind -/

/-- Whatever the session, each event of `p` meets `P`. -/
def Only (P : ε → Prop) (p : Program σ ε ρ α) : Prop := Does (fun _ u => ∀ e ∈ u, P e) p

section only

variable {P : ε → Prop}

theorem only_pure (a : α) : Only P (pure a : Program σ ε ρ α) :=
  does_pure fun _ member => absurd member List.not_mem_nil

theorem only_stop : Only P (stop : Program σ ε ρ α) :=
  does_stop fun _ member => absurd member List.not_mem_nil

theorem only_emit {e : ε} (h : P e) : Only P (emit e : Program σ ε ρ Unit) := by
  apply does_emit
  intro x member
  obtain rfl := List.mem_singleton.mp member
  exact h

theorem only_receive : Only P (receive : Program σ ε ρ ρ) :=
  does_receive (fun _ member => absurd member List.not_mem_nil)
    fun _ _ member => absurd member List.not_mem_nil

theorem only_bind {p : Program σ ε ρ α} {f : α → Program σ ε ρ β} (first : Only P p)
    (rest : ∀ a, Only P (f a)) : Only P (p >>= f) :=
  does_bind first (fun _ each => each) fun a _ each => (rest a).mono fun _ _ more e member =>
    (List.mem_append.mp member).elim (each e) (more e)

theorem only_map {p : Program σ ε ρ α} (f : α → β) (h : Only P p) : Only P (f <$> p) := by
  rw [← bind_pure_comp]
  exact only_bind h fun a => only_pure (f a)

theorem only_untilSome {body : Program σ ε ρ (Option α)} (round : Only P body) :
    Only P (untilSome body) :=
  does_untilSome round (fun _ each => each) (fun _ _ each => each)
    (fun _ member => absurd member List.not_mem_nil) fun _ _ _ each more e member =>
      (List.mem_append.mp member).elim (each e) (more e)

/-- What the first part has done stays done. -/
theorem mem_done_bind {p : Program σ ε ρ α} {f : α → Program σ ε ρ β} {s : Session σ ε ρ} {e : ε}
    (member : e ∈ (after (p s)).done) (rest : ∀ a, Only (fun _ => True) (f a)) :
    e ∈ (after ((p >>= f) s)).done := by
  cases result : p s with
  | error u t =>
    rw [bind_error result]
    rwa [result] at member
  | ok a t =>
    rw [bind_ok result]
    rw [result] at member
    obtain ⟨more, done, -⟩ := rest a t
    rw [done]
    exact List.mem_append_left more member

/-- What a run from a fresh session has done. -/
theorem Only.of_run {p : Program σ ε ρ α} (h : Only P p) {m : σ} {rs : List ρ} {e : ε}
    (member : e ∈ (after (p ⟨m, [], rs⟩)).done) : P e := by
  obtain ⟨more, done, each⟩ := h ⟨m, [], rs⟩
  rw [done, List.nil_append] at member
  exact each e member

end only

/-! ### Programs that return -/

/-- With `n` replies to come `p` returns a value that meets `Q`, and takes no more of them. -/
def Returns (n : Nat) (Q : α → Prop) (p : Program σ ε ρ α) : Prop :=
  ∀ s, n ≤ s.replies.length →
    ∃ a t, p s = .ok a t ∧ s.replies.length ≤ t.replies.length + n ∧ Q a

section returns

variable {n k : Nat} {Q : α → Prop} {R : β → Prop}

theorem returns_pure {a : α} (h : Q a) : Returns 0 Q (pure a : Program σ ε ρ α) :=
  fun s _ => ⟨a, s, rfl, Nat.le_refl _, h⟩

theorem returns_emit (e : ε) : Returns 0 (fun _ => True) (emit e : Program σ ε ρ Unit) :=
  fun s _ => ⟨(), { s with done := s.done ++ [e] }, rfl, Nat.le_refl _, trivial⟩

theorem returns_receive : Returns 1 (fun _ => True) (receive : Program σ ε ρ ρ) := by
  intro s enough
  cases replies : s.replies with
  | nil => simp [replies] at enough
  | cons r rest =>
    exact ⟨r, { s with replies := rest }, by simp only [receive, replies], by simp, trivial⟩

theorem returns_bind {p : Program σ ε ρ α} {f : α → Program σ ε ρ β} (first : Returns n Q p)
    (rest : ∀ a, Q a → Returns k R (f a)) : Returns (n + k) R (p >>= f) := by
  intro s enough
  obtain ⟨a, t, run, taken, q⟩ := first s (by omega)
  obtain ⟨b, u, run', taken', r⟩ := rest a q t (by omega)
  exact ⟨b, u, (bind_ok run).trans run', by omega, r⟩

theorem returns_map {p : Program σ ε ρ α} (f : α → β) (h : Returns n Q p) :
    Returns n (fun _ => True) (f <$> p) := by
  rw [← bind_pure_comp]
  exact returns_bind h fun _ _ => returns_pure trivial

theorem Returns.mono {p : Program σ ε ρ α} (h : Returns n Q p) (more : n ≤ k) :
    Returns k Q p := by
  intro s enough
  obtain ⟨a, t, run, taken, q⟩ := h s (by omega)
  exact ⟨a, t, run, by omega, q⟩

end returns

/-! ### Runs with related replies -/

/-- The same memory, the same events so far, related replies to come. -/
structure Alike (R : ρ → ρ → Prop) (s t : Session σ ε ρ) : Prop where
  memory : s.memory = t.memory
  done : s.done = t.done
  replies : List.Forall₂ R s.replies t.replies

/-- Two runs whose replies are related return the same and do the same. -/
def Agrees (R : ρ → ρ → Prop) (p : Program σ ε ρ α) : Prop :=
  ∀ s t, Alike R s t → outcome (p s) = outcome (p t) ∧ Alike R (after (p s)) (after (p t))

section agrees

variable {R : ρ → ρ → Prop}

theorem agrees_pure (a : α) : Agrees R (pure a : Program σ ε ρ α) := fun _ _ h => ⟨rfl, h⟩

theorem agrees_stop : Agrees R (stop : Program σ ε ρ α) := fun _ _ h => ⟨rfl, h⟩

theorem agrees_emit (e : ε) : Agrees R (emit e : Program σ ε ρ Unit) :=
  fun _ _ h => ⟨rfl, h.memory, congrArg (· ++ [e]) h.done, h.replies⟩

theorem agrees_bind {p : Program σ ε ρ α} {f : α → Program σ ε ρ β} (first : Agrees R p)
    (rest : ∀ a, Agrees R (f a)) : Agrees R (p >>= f) := by
  intro s t h
  obtain ⟨same, alike⟩ := first s t h
  cases left : p s <;> cases right : p t <;> simp only [left, right, outcome, after] at same alike
  case ok.ok a s' b t' =>
    obtain rfl := Option.some.inj same
    rw [bind_ok left, bind_ok right]
    exact rest a s' t' alike
  case error.error =>
    rw [bind_error left, bind_error right]
    exact ⟨rfl, alike⟩
  all_goals cases same

/-- What related replies have in common may be used. -/
theorem agrees_map_receive {f : ρ → α} (same : ∀ r r', R r r' → f r = f r') :
    Agrees R (f <$> receive : Program σ ε ρ α) := by
  intro s t h
  have replies := h.replies
  rcases left : s.replies with _ | ⟨r, rest⟩ <;> rcases right : t.replies with _ | ⟨r', rest'⟩ <;>
    rw [left, right] at replies
  case nil.nil =>
    simp only [Functor.map, EStateM.map, receive, left, right]
    exact ⟨rfl, h⟩
  case cons.cons =>
    obtain ⟨related, rest⟩ := List.forall₂_cons.mp replies
    simp only [Functor.map, EStateM.map, receive, left, right]
    exact ⟨congrArg some (same r r' related), h.memory, h.done, rest⟩
  all_goals cases replies

theorem agrees_untilSome {body : Program σ ε ρ (Option α)} (round : Agrees R body) :
    Agrees R (untilSome body) := by
  have all : ∀ n, Agrees R (rounds body n) := by
    intro n
    induction n with
    | zero => exact agrees_stop
    | succ n ih =>
      refine agrees_bind round fun a => ?_
      cases a with
      | some a => exact agrees_pure a
      | none => exact ih
  intro s t h
  rw [untilSome, untilSome, h.replies.length_eq]
  exact all _ s t h

end agrees

end Program

end ScCosim.Kernel
