import Mathlib.Data.List.Basic

/-!
# Labelled machines

A machine has one step function from a state and an action; an action that is not
enabled has no successor. Runs are finite lists of actions. The rules below are the only
inductions over runs in this development: an invariant is carried along a run, possibly
under a condition that every step of the run meets, and a ranking function bounds the
number of ticks a run can make before a goal state is passed, or, where some step can always
be taken, shows that the goal cannot fail to come.
-/
namespace ScCosim.Kernel

universe u v w

/-- States `σ`, actions `α`, one initial state. -/
structure Machine (σ : Type u) (α : Type v) where
  init : σ
  step : σ → α → Option σ

namespace Machine

variable {σ : Type u} {α : Type v} (m : Machine σ α)

/-- Perform the actions in order; `none` if one of them is not enabled. -/
def run : σ → List α → Option σ
  | s, [] => some s
  | s, a :: as => (m.step s a).bind fun t => run t as

@[simp] theorem run_nil (s : σ) : m.run s [] = some s := rfl

@[simp] theorem run_cons (s : σ) (a : α) (as : List α) :
    m.run s (a :: as) = (m.step s a).bind fun t => m.run t as := rfl

theorem run_append (s : σ) (as bs : List α) :
    m.run s (as ++ bs) = (m.run s as).bind fun t => m.run t bs := by
  induction as generalizing s with
  | nil => rfl
  | cons a as ih =>
    simp only [List.cons_append, run_cons, Option.bind_assoc]
    cases m.step s a with
    | none => rfl
    | some t => exact ih t

/-- A run over a concatenation passes through a state between its two parts. -/
theorem run_append_iff (s t : σ) (as bs : List α) :
    m.run s (as ++ bs) = some t ↔ ∃ r, m.run s as = some r ∧ m.run r bs = some t := by
  rw [run_append, Option.bind_eq_some_iff]

theorem run_cons_iff (s t : σ) (a : α) (as : List α) :
    m.run s (a :: as) = some t ↔ ∃ r, m.step s a = some r ∧ m.run r as = some t := by
  rw [run_cons, Option.bind_eq_some_iff]

theorem run_snoc_iff (s t : σ) (as : List α) (a : α) :
    m.run s (as ++ [a]) = some t ↔ ∃ r, m.run s as = some r ∧ m.step r a = some t := by
  simp only [run_append_iff, run_cons_iff, run_nil, Option.some.injEq, exists_eq_right]

/-- The states some run from the initial state ends in. -/
def Reachable (s : σ) : Prop := ∃ as, m.run m.init as = some s

theorem reachable_init : m.Reachable m.init := ⟨[], rfl⟩

variable {m}

theorem Reachable.run {s t : σ} {as : List α} (h : m.Reachable s) (hr : m.run s as = some t) :
    m.Reachable t := by
  obtain ⟨bs, hb⟩ := h
  exact ⟨bs ++ as, (m.run_append_iff _ _ _ _).mpr ⟨s, hb, hr⟩⟩

theorem Reachable.step {s t : σ} {a : α} (h : m.Reachable s) (hs : m.step s a = some t) :
    m.Reachable t :=
  h.run ((m.run_cons_iff s t a []).mpr ⟨t, hs, rfl⟩)

/-- The run rule: what every step preserves, every run preserves. -/
theorem run_invariant {I : σ → Prop} (step : ∀ s a t, I s → m.step s a = some t → I t)
    {s t : σ} {as : List α} (hs : I s) (hr : m.run s as = some t) : I t := by
  induction as generalizing s with
  | nil => exact Option.some.inj hr ▸ hs
  | cons a as ih =>
    obtain ⟨r, ha, hr⟩ := (m.run_cons_iff _ _ _ _).mp hr
    exact ih (step s a r hs ha) hr

/-- An inductive invariant holds of every reachable state. -/
theorem Reachable.invariant {I : σ → Prop} (init : I m.init)
    (step : ∀ s a t, I s → m.step s a = some t → I t) {s : σ} (h : m.Reachable s) : I s := by
  obtain ⟨as, hr⟩ := h
  exact run_invariant step init hr

variable (m)

/-- Every step taken along the run from `s` meets `C`. -/
def Along (C : σ → α → Prop) : σ → List α → Prop
  | _, [] => True
  | s, a :: as => C s a ∧ ∀ t, m.step s a = some t → Along C t as

variable {m}

instance decidableAlong {C : σ → α → Prop} [∀ s a, Decidable (C s a)] :
    ∀ s as, Decidable (m.Along C s as)
  | _, [] => isTrue trivial
  | s, a :: as =>
    match h : m.step s a with
    | none => decidable_of_iff (C s a) (by simp [Along, h])
    | some t =>
      have : Decidable (m.Along C t as) := decidableAlong t as
      decidable_of_iff (C s a ∧ m.Along C t as) (by simp [Along, h])

/-- The run rule for runs whose steps all meet a condition. -/
theorem run_invariant_along {I : σ → Prop} {C : σ → α → Prop}
    (step : ∀ s a t, I s → C s a → m.step s a = some t → I t)
    {s t : σ} {as : List α} (hs : I s) (hc : m.Along C s as) (hr : m.run s as = some t) :
    I t := by
  induction as generalizing s with
  | nil => exact Option.some.inj hr ▸ hs
  | cons a as ih =>
    obtain ⟨r, ha, hr⟩ := (m.run_cons_iff _ _ _ _).mp hr
    exact ih (step s a r hs hc.1 ha) (hc.2 r ha) hr

/-- The lockstep rule: where related states make related steps, or none, so do their runs. -/
theorem run_rel {τ : Type w} {n : Machine τ α} {R : σ → τ → Prop}
    (step : ∀ s t a, R s t → Option.Rel R (m.step s a) (n.step t a))
    {s : σ} {t : τ} (h : R s t) (as : List α) : Option.Rel R (m.run s as) (n.run t as) := by
  induction as generalizing s t with
  | nil => exact .some h
  | cons a as ih =>
    have first := step s t a h
    simp only [run_cons]
    cases left : m.step s a with
    | none =>
      cases right : n.step t a with
      | none => exact .none
      | some t' => simp [left, right] at first
    | some s' =>
      cases right : n.step t a with
      | none => simp [left, right] at first
      | some t' =>
        rw [left, right, Option.rel_some_some] at first
        exact ih first

variable (m)

/-- Every state that the run from `s` passes through, the first and the last included,
meets `P`. -/
def Always (P : σ → Prop) : σ → List α → Prop
  | s, [] => P s
  | s, a :: as => P s ∧ ∀ t, m.step s a = some t → Always P t as

variable {m}

theorem Always.first {P : σ → Prop} {s : σ} {as : List α} (h : m.Always P s as) : P s := by
  cases as with
  | nil => exact h
  | cons a as => exact h.1

/-- Where a step keeps `P` exactly if it meets `C`, a run keeps `P` exactly if all its steps
meet `C`. -/
theorem always_iff_along {I P : σ → Prop} {C : σ → α → Prop}
    (step : ∀ s a t, I s → P s → m.step s a = some t → I t ∧ (P t ↔ C s a))
    {s t : σ} {as : List α} (hi : I s) (hp : P s) (hr : m.run s as = some t) :
    m.Always P s as ↔ m.Along C s as := by
  induction as generalizing s with
  | nil => exact iff_of_true hp trivial
  | cons a as ih =>
    obtain ⟨r, ha, hr⟩ := (m.run_cons_iff _ _ _ _).mp hr
    obtain ⟨kept, exactly⟩ := step s a r hi hp ha
    simp only [Always, Along, ha, Option.some.injEq, forall_eq']
    constructor
    · rintro ⟨-, rest⟩
      have next := rest.first
      exact ⟨exactly.mp next, (ih kept next hr).mp rest⟩
    · rintro ⟨meets, rest⟩
      exact ⟨hp, (ih kept (exactly.mpr meets) hr).mpr rest⟩

variable (m)

/-- Every run from `s` with at least `n` ticks passes through a state of `P`. -/
def Within (tick : α → Bool) (n : Nat) (P : σ → Prop) (s : σ) : Prop :=
  ∀ as t, m.run s as = some t → n ≤ as.countP tick →
    ∃ pre post r, as = pre ++ post ∧ m.run s pre = some r ∧ P r

variable {m}

/-- The ranking rule: while `P` has not been passed every step keeps `I` and does not raise
the rank, and a tick lowers it. -/
theorem within_of_rank {tick : α → Bool} {P I : σ → Prop} (rank : σ → Nat)
    (step : ∀ s a t, I s → m.step s a = some t →
      P t ∨ (I t ∧ rank t + (if tick a then 1 else 0) ≤ rank s))
    {s : σ} (hs : I s) : m.Within tick (rank s + 1) P s := by
  intro as
  induction as generalizing s with
  | nil => intro t _ hn; simp at hn
  | cons a as ih =>
    intro t hr hn
    obtain ⟨r, ha, hr'⟩ := (m.run_cons_iff _ _ _ _).mp hr
    rcases step s a r hs ha with hp | ⟨hi, hrank⟩
    · exact ⟨[a], as, r, rfl, by simp [ha], hp⟩
    · have enough : rank r + 1 ≤ as.countP tick := by
        rw [List.countP_cons] at hn
        omega
      obtain ⟨pre, post, q, rfl, hq, hp⟩ := ih hi t hr' enough
      exact ⟨a :: pre, post, q, rfl, by simp [ha, hq], hp⟩

theorem within_of_now {tick : α → Bool} {P : σ → Prop} {s : σ} (h : P s) (n : Nat) :
    m.Within tick n P s :=
  fun as _ _ _ => ⟨[], as, s, rfl, rfl, h⟩

theorem Within.mono {tick : α → Bool} {P : σ → Prop} {s : σ} {k n : Nat}
    (h : m.Within tick k P s) (le : k ≤ n) : m.Within tick n P s :=
  fun as t hr enough => h as t hr (Nat.le_trans le enough)

theorem Within.imp {tick : α → Bool} {P Q : σ → Prop} {s : σ} {n : Nat}
    (h : m.Within tick n P s) (weaker : ∀ t, P t → Q t) : m.Within tick n Q s := by
  intro as t hr enough
  obtain ⟨pre, post, r, split, reached, holds⟩ := h as t hr enough
  exact ⟨pre, post, r, split, reached, weaker r holds⟩

/-- What is reached in time from what is reached in time. -/
theorem Within.trans {tick : α → Bool} {P Q : σ → Prop} {s : σ} {n k : Nat}
    (first : m.Within tick n P s) (second : ∀ r, P r → m.Within tick k Q r) :
    m.Within tick (n + k) Q s := by
  intro as t hr enough
  -- the first part of the run that has just enough ticks
  obtain ⟨front, back, rfl, count⟩ : ∃ front back, as = front ++ back ∧ front.countP tick = n := by
    clear hr first
    induction as generalizing n with
    | nil => exact ⟨[], [], rfl, by simp at enough ⊢; omega⟩
    | cons a as ih =>
      cases n with
      | zero => exact ⟨[], a :: as, rfl, rfl⟩
      | succ n =>
        by_cases ticks : tick a = true
        · obtain ⟨front, back, rfl, count⟩ := ih (n := n) (by
            rw [List.countP_cons_of_pos ticks] at enough
            omega)
          exact ⟨a :: front, back, rfl, by rw [List.countP_cons_of_pos ticks, count]⟩
        · obtain ⟨front, back, rfl, count⟩ := ih (n := n + 1) (by
            rwa [List.countP_cons_of_neg ticks] at enough)
          exact ⟨a :: front, back, rfl, by rw [List.countP_cons_of_neg ticks, count]⟩
  obtain ⟨u, hu, rest⟩ := (m.run_append_iff _ _ _ _).mp hr
  obtain ⟨pre, post, r, rfl, reached, holds⟩ := first front u hu (by omega)
  obtain ⟨v, hv, tail⟩ := (m.run_append_iff _ _ _ _).mp hu
  obtain rfl : r = v := Option.some.inj (reached.symm.trans hv)
  have whole : m.run r (post ++ back) = some t := (m.run_append_iff _ _ _ _).mpr ⟨u, tail, rest⟩
  rw [List.countP_append, List.countP_append] at enough
  rw [List.countP_append] at count
  obtain ⟨pre', post', q, split, reached', holds'⟩ := second r holds (post ++ back) t whole (by
    rw [List.countP_append]
    omega)
  refine ⟨pre ++ pre', post', q, by rw [List.append_assoc, split, List.append_assoc], ?_, holds'⟩
  exact (m.run_append_iff _ _ _ _).mpr ⟨r, reached, reached'⟩

/-- One stretch of a way that may end early. -/
theorem Within.onward {tick : α → Bool} {E P Q : σ → Prop} {s : σ} {n k : Nat}
    (first : m.Within tick n (fun r => E r ∨ P r) s)
    (second : ∀ r, P r → m.Within tick k (fun r => E r ∨ Q r) r) :
    m.Within tick (n + k) (fun r => E r ∨ Q r) s := by
  refine first.trans fun r reached => ?_
  rcases reached with ended | on
  · exact within_of_now (P := fun r => E r ∨ Q r) (Or.inl ended) k
  · exact second r on

/-! ### What cannot fail to come -/

variable (m)

/-- Whatever the steps, there are only so many of them before `P` holds, and until then some
step can be taken. -/
inductive Inevitable (P : σ → Prop) : σ → Prop
  | now {s : σ} (h : P s) : Inevitable P s
  | next {s : σ} (can : ∃ a t, m.step s a = some t)
      (all : ∀ a t, m.step s a = some t → Inevitable P t) : Inevitable P s

variable {m}

/-- The ranking rule with progress: until `P` holds some step can be taken, and every step
keeps `I` and lowers the rank. -/
theorem inevitable_of_rank {P I : σ → Prop} (rank : σ → Nat)
    (can : ∀ s, I s → ¬ P s → ∃ a t, m.step s a = some t)
    (step : ∀ s a t, I s → ¬ P s → m.step s a = some t → P t ∨ (I t ∧ rank t < rank s))
    {s : σ} (hs : I s) : m.Inevitable P s := by
  generalize bound : rank s = n
  induction n using Nat.strongRecOn generalizing s with
  | ind n ih =>
    by_cases now : P s
    · exact .now now
    · refine .next (can s hs now) fun a t ha => ?_
      rcases step s a t hs now ha with holds | ⟨kept, less⟩
      · exact .now holds
      · exact ih (rank t) (bound ▸ less) kept rfl

/-- What cannot fail to come can come. -/
theorem Inevitable.possible {P : σ → Prop} {s : σ} (h : m.Inevitable P s) :
    ∃ as t, m.run s as = some t ∧ P t := by
  induction h with
  | now holds => exact ⟨[], _, rfl, holds⟩
  | next can _ ih =>
    obtain ⟨a, r, step⟩ := can
    obtain ⟨as, t, hr, holds⟩ := ih a r step
    exact ⟨a :: as, t, (m.run_cons_iff _ _ _ _).mpr ⟨r, step, hr⟩, holds⟩

/-! ### Restriction and refinement -/

variable (m)

/-- The same machine, with the steps that meet a condition only. -/
def restrict (C : σ → α → Prop) [∀ s a, Decidable (C s a)] : Machine σ α where
  init := m.init
  step s a := if C s a then m.step s a else none

theorem restrict_step {C : σ → α → Prop} [∀ s a, Decidable (C s a)] {s t : σ} {a : α} :
    (m.restrict C).step s a = some t ↔ C s a ∧ m.step s a = some t := by
  by_cases meets : C s a <;> simp [restrict, meets]

theorem run_of_restrict {C : σ → α → Prop} [∀ s a, Decidable (C s a)] {s t : σ} {as : List α}
    (h : (m.restrict C).run s as = some t) : m.run s as = some t := by
  induction as generalizing s with
  | nil => exact h
  | cons a as ih =>
    obtain ⟨r, step, rest⟩ := ((m.restrict C).run_cons_iff _ _ _ _).mp h
    exact (m.run_cons_iff _ _ _ _).mpr ⟨r, (m.restrict_step.mp step).2, ih rest⟩

variable {τ : Type w} {β : Type*}

/-- Every step of `m` is matched by a step of `n`, a tick by a tick, or it is no tick and
changes nothing that `R` sees. -/
structure Refines (n : Machine τ β) (tick : α → Bool) (tock : β → Bool) (R : σ → τ → Prop) :
    Prop where
  init : R m.init n.init
  step : ∀ s t a s', R s t → m.step s a = some s' →
    (tick a = false ∧ R s' t) ∨ ∃ b t', n.step t b = some t' ∧ tock b = tick a ∧ R s' t'

variable {m} {n : Machine τ β} {tick : α → Bool} {tock : β → Bool} {R : σ → τ → Prop}

theorem Refines.reachable (refines : m.Refines n tick tock R) {s : σ} (h : m.Reachable s) :
    ∃ t, n.Reachable t ∧ R s t := by
  refine h.invariant (I := fun s => ∃ t, n.Reachable t ∧ R s t)
    ⟨n.init, n.reachable_init, refines.init⟩ ?_
  rintro s a s' ⟨t, reachable, related⟩ hs
  rcases refines.step s t a s' related hs with ⟨-, same⟩ | ⟨b, t', step, -, related'⟩
  · exact ⟨t, reachable, same⟩
  · exact ⟨t', reachable.step step, related'⟩

/-- What a refined machine passes through in time, the refining machine does too. -/
theorem Refines.within (refines : m.Refines n tick tock R) {P : σ → Prop} {Q : τ → Prop}
    (goal : ∀ s t, R s t → Q t → P s) {s : σ} {t : τ} (related : R s t) {k : Nat}
    (h : n.Within tock k Q t) : m.Within tick k P s := by
  -- a run of `m` has a run of `n` beside it, each state of which is related to one of the first
  have beside : ∀ as s t u, R s t → m.run s as = some u →
      ∃ bs v, n.run t bs = some v ∧ bs.countP tock = as.countP tick ∧
        ∀ pre post r, bs = pre ++ post → n.run t pre = some r →
          ∃ pre' post' q, as = pre' ++ post' ∧ m.run s pre' = some q ∧ R q r := by
    intro as
    induction as with
    | nil =>
      intro s t u related _
      refine ⟨[], t, rfl, rfl, fun pre post r split hr => ?_⟩
      obtain ⟨rfl, rfl⟩ := List.append_eq_nil_iff.mp split.symm
      obtain rfl := Option.some.inj hr
      exact ⟨[], [], s, rfl, rfl, related⟩
    | cons a as ih =>
      intro s t u related hr
      obtain ⟨s', step, hr⟩ := (m.run_cons_iff _ _ _ _).mp hr
      rcases refines.step s t a s' related step with ⟨quiet, same⟩ | ⟨b, t', step', kind, related'⟩
      · obtain ⟨bs, v, hv, count, states⟩ := ih s' t u same hr
        refine ⟨bs, v, hv, by simpa [quiet] using count, fun pre post r split hp => ?_⟩
        obtain ⟨pre', post', q, rfl, hq, hR⟩ := states pre post r split hp
        exact ⟨a :: pre', post', q, rfl, by simp [step, hq], hR⟩
      · obtain ⟨bs, v, hv, count, states⟩ := ih s' t' u related' hr
        refine ⟨b :: bs, v, by simp [step', hv], by simp [List.countP_cons, count, kind], ?_⟩
        intro pre post r split hp
        cases pre with
        | nil =>
          obtain rfl := Option.some.inj hp
          exact ⟨[], a :: as, s, rfl, rfl, related⟩
        | cons c pre =>
          obtain ⟨rfl, rfl⟩ := List.cons.inj split
          obtain ⟨r', step'', hp⟩ := (n.run_cons_iff _ _ _ _).mp hp
          obtain rfl := Option.some.inj (step'.symm.trans step'')
          obtain ⟨pre', post', q, rfl, hq, hR⟩ := states pre post r rfl hp
          exact ⟨a :: pre', post', q, rfl, by simp [step, hq], hR⟩
  intro as u hr enough
  obtain ⟨bs, v, hv, count, states⟩ := beside as s t u related hr
  obtain ⟨pre, post, r, split, hp, reached⟩ := h bs v hv (by omega)
  obtain ⟨pre', post', q, rfl, hq, hR⟩ := states pre post r split hp
  exact ⟨pre', post', q, rfl, hq, goal q r hR reached⟩

end Machine

end ScCosim.Kernel
