import Mathlib.Data.List.Induction
import ScCosim.Kernel.Machine

/-!
# What a run shows

An observation lists what one step shows of itself; the trace of a run is the observations
of its steps, in order. The history rule is the run rule for invariants that relate a state
to the run that led to it, and so to its traces.
-/
namespace ScCosim.Kernel

universe u v w

namespace Machine

variable {σ : Type u} {α : Type v} {ε : Type w} (m : Machine σ α)
  (observe : σ → α → σ → List ε)

/-- The observations of a run's steps; a run ends at an action that is not enabled. -/
def trace : σ → List α → List ε
  | _, [] => []
  | s, a :: as =>
    match m.step s a with
    | none => []
    | some t => observe s a t ++ trace t as

@[simp] theorem trace_nil (s : σ) : m.trace observe s [] = [] := rfl

variable {m}

theorem trace_cons {s t : σ} {a : α} (hs : m.step s a = some t) (as : List α) :
    m.trace observe s (a :: as) = observe s a t ++ m.trace observe t as := by
  simp only [trace, hs]

theorem trace_append {s t : σ} {as : List α} (hr : m.run s as = some t) (bs : List α) :
    m.trace observe s (as ++ bs) = m.trace observe s as ++ m.trace observe t bs := by
  induction as generalizing s with
  | nil => cases hr; rfl
  | cons a as ih =>
    obtain ⟨r, step, rest⟩ := (m.run_cons_iff _ _ _ _).mp hr
    rw [List.cons_append, trace_cons observe step, trace_cons observe step, ih rest,
      List.append_assoc]

theorem trace_snoc {s t r : σ} {as : List α} {a : α} (hr : m.run s as = some t)
    (hs : m.step t a = some r) :
    m.trace observe s (as ++ [a]) = m.trace observe s as ++ observe t a r := by
  rw [trace_append observe hr, trace_cons observe hs, trace_nil, List.append_nil]

theorem along_snoc {C : σ → α → Prop} {s t : σ} {as : List α} {a : α}
    (hr : m.run s as = some t) :
    m.Along C s (as ++ [a]) ↔ m.Along C s as ∧ C t a := by
  induction as generalizing s with
  | nil => cases hr; simp [Along]
  | cons b as ih =>
    obtain ⟨r, step, rest⟩ := (m.run_cons_iff _ _ _ _).mp hr
    simp only [List.cons_append, Along, step, Option.some.injEq, forall_eq', ih rest, and_assoc]

/-- The history rule: what holds of the empty run and is kept by every further step holds
of every run and the state it ends in. -/
theorem run_history {I : List α → σ → Prop} (init : I [] m.init)
    (step : ∀ as s a t, m.run m.init as = some s → I as s → m.step s a = some t →
      I (as ++ [a]) t)
    {as : List α} {t : σ} (hr : m.run m.init as = some t) : I as t := by
  induction as using List.reverseRecOn generalizing t with
  | nil => cases hr; exact init
  | append_singleton as a ih =>
    obtain ⟨s, before, last⟩ := (m.run_snoc_iff _ _ _ _).mp hr
    exact step as s a t before (ih before) last

/-- A machine inside another one: if every step of the outer one shows the steps that the
inner one takes, the trace of a run is a run of the inner one. -/
theorem run_trace {τ : Type*} {n : Machine τ ε} (f : σ → τ)
    (step : ∀ s a t, m.step s a = some t → n.run (f s) (observe s a t) = some (f t))
    {s t : σ} {as : List α} (hr : m.run s as = some t) :
    n.run (f s) (m.trace observe s as) = some (f t) := by
  induction as generalizing s with
  | nil => cases hr; rfl
  | cons a as ih =>
    obtain ⟨r, first, rest⟩ := (m.run_cons_iff _ _ _ _).mp hr
    rw [trace_cons observe first, n.run_append_iff]
    exact ⟨f r, step s a r first, ih rest⟩

end Machine

end ScCosim.Kernel
