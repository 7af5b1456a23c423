import ScCosim.Kernel.Machine
import ScCosim.Async.Channel

/-!
# The blocking `get`

`get` repeats `nb_get` and, while that fails, waits for `m_sysc_pulled_event`. `update()`
notifies that event for a pull; for a push it notifies the other one. A caller asleep is
therefore woken by traffic in the other direction only.
-/
namespace ScCosim.Async

open Kernel

inductive GetterPc where
  /-- Not in `get`; the caller may be suspended elsewhere. -/
  | outside
  /-- Before the `nb_get` of the loop's condition. -/
  | testing
  /-- `nb_get` has failed; on the way to the wait. -/
  | failed
  /-- Suspended in `wait(m_sysc_pulled_event)`. -/
  | waiting
  deriving DecidableEq, Repr

/-- One process that calls `get`, and the channel that all the others use. -/
structure Getter (P : Type) where
  sched : Scheduled P
  pc : GetterPc
  deriving Repr

namespace Getter

variable {P : Type}

inductive Action (P : Type) where
  | call
  | nbGet
  | wait
  | push (p : P)
  | nbPut (p : P)
  | nbPull
  | kernel
  deriving Repr

def new : Getter P := ⟨Scheduled.new, .outside⟩

/-- The caller's process is not running. -/
def suspended (s : Getter P) : Bool := s.pc == .outside || s.pc == .waiting

/-- The notification phase wakes the process if it is waiting for the event. -/
def deliver (s : Getter P) : GetterPc :=
  if s.sched.phase = .notify ∧ s.sched.channel.mSyscPulledEvent = true ∧ s.pc = .waiting then
    .testing
  else s.pc

/-- One step. The caller's own steps belong to the evaluation phase. -/
def step (s : Getter P) : Action P → Option (Getter P)
  | .call =>
    if s.pc = .outside ∧ s.sched.phase = .evaluate then some { s with pc := .testing } else none
  | .nbGet =>
    if s.pc = .testing ∧ s.sched.phase = .evaluate then
      match s.sched.channel.nbGet with
      | none => some { s with pc := .failed }
      | some (_, c) => some { s with sched.channel := c, pc := .outside }
    else none
  | .wait =>
    if s.pc = .failed ∧ s.sched.phase = .evaluate then some { s with pc := .waiting } else none
  | .push p => some { s with sched.channel := s.sched.channel.push p }
  | .nbPut p => some { s with sched.channel := s.sched.channel.nbPut p }
  | .nbPull =>
    match s.sched.channel.nbPull with
    | none => some s
    | some (_, c) => some { s with sched.channel := c }
  | .kernel =>
    (s.sched.kernelStep s.suspended).map fun k => { s with sched := k, pc := s.deliver }

def machine (P : Type) : Machine (Getter P) (Action P) := ⟨new, step⟩

/-- A notification of `m_sysc_pulled_event` is pending, or an update already requested will
issue it. -/
def Pulled (s : Getter P) : Prop :=
  (s.sched.channel.mThreadDidPull = true ∧
      (s.sched.channel.updateRequested = true ∨ s.sched.phase = .handlePush ∨
        s.sched.phase = .handleGet)) ∨
    s.sched.channel.mSyscPulledEvent = true

instance decidablePulled (s : Getter P) : Decidable s.Pulled := inferInstanceAs (Decidable (_ ∨ _))

/-- `get` does not sleep on a packet without a notification on its way. -/
def Awake (s : Getter P) : Prop :=
  s.pc = .waiting → s.sched.channel.mQueueToSysc ≠ [] → s.Pulled

/-- Nothing is pushed to a sleeper, and nothing makes one of a caller with a packet in the
queue, unless a notification for it is on its way. -/
def Attended (s : Getter P) : Action P → Prop
  | .push _ => s.pc = .waiting → s.Pulled
  | .wait => s.sched.channel.mQueueToSysc ≠ [] → s.Pulled
  | _ => True

/-- A flagged pull has an update on its way, and the process sleeps through it. -/
structure Inv (s : Getter P) : Prop where
  flagged : s.sched.channel.mThreadDidPull = true →
    s.sched.channel.updateRequested = true ∨ s.sched.phase = .handlePush ∨
      s.sched.phase = .handleGet
  running : s.suspended = false → s.sched.phase = .evaluate

theorem inv_new : Inv (new : Getter P) := by
  constructor <;> simp [new, Scheduled.new, AsyncChannel.new, suspended]

/-- Under the invariant a flag is as good as a notification. -/
theorem Inv.pulled_iff {s : Getter P} (h : Inv s) :
    s.Pulled ↔ s.sched.channel.mThreadDidPull = true ∨ s.sched.channel.mSyscPulledEvent = true := by
  unfold Pulled
  constructor
  · rintro (flag | event)
    · exact Or.inl flag.1
    · exact Or.inr event
  · rintro (flag | event)
    · exact Or.inl ⟨flag, h.flagged flag⟩
    · exact Or.inr event

theorem inv_kernel {s t : Getter P} (h : Inv s) (hs : s.step .kernel = some t) : Inv t := by
  obtain ⟨flagged, running⟩ := h
  obtain ⟨k, hk, rfl⟩ := Option.map_eq_some_iff.mp hs
  unfold Scheduled.kernelStep at hk
  cases phase : s.sched.phase with
  | evaluate =>
    simp only [phase] at hk
    split at hk
    next enabled =>
      -- the evaluation phase ends only while the process is suspended
      have asleep : s.suspended = true := (Bool.and_eq_true _ _ ▸ enabled).1
      cases hk
      exact ⟨fun _ => Or.inr (Or.inl rfl), fun awake => by simp_all [suspended, deliver]⟩
    next => cases hk
  | handlePush =>
    simp only [phase, Option.some.injEq] at hk
    subst hk
    constructor
    · exact fun _ => Or.inr (Or.inr rfl)
    · simpa [suspended, deliver, phase] using running
  | handleGet =>
    simp only [phase, Option.some.injEq] at hk
    subst hk
    constructor
    · unfold AsyncChannel.handleGet
      split <;> simp_all
    · simpa [suspended, deliver, phase] using running
  | notify =>
    simp only [phase, Option.some.injEq] at hk
    subst hk
    exact ⟨by simpa [phase] using flagged, fun _ => rfl⟩

/-- The kernel's steps trade a flagged pull for the event and the event for the wake-up. -/
theorem awake_kernel {s t : Getter P} (h : Inv s) (awake : Awake s)
    (hs : s.step .kernel = some t) : Awake t := by
  have after := inv_kernel h hs
  unfold Awake at awake ⊢
  rw [h.pulled_iff] at awake
  rw [after.pulled_iff]
  obtain ⟨k, hk, rfl⟩ := Option.map_eq_some_iff.mp hs
  unfold Scheduled.kernelStep at hk
  cases phase : s.sched.phase with
  | evaluate =>
    simp only [phase] at hk
    split at hk
    next =>
      cases hk
      simpa [deliver, phase] using awake
    next => cases hk
  | handlePush =>
    simp only [phase, Option.some.injEq] at hk
    subst hk
    unfold AsyncChannel.handlePush
    split <;> simpa [deliver, phase] using awake
  | handleGet =>
    simp only [phase, Option.some.injEq] at hk
    subst hk
    unfold AsyncChannel.handleGet
    -- the flag is traded for the event
    split
    · exact fun _ _ => Or.inr rfl
    · simpa [deliver, phase] using awake
  | notify =>
    simp only [phase, Option.some.injEq] at hk
    subst hk
    -- a process that still waits was not woken, so it is a flag that keeps it awake
    intro waiting queued
    by_cases event : s.sched.channel.mSyscPulledEvent = true
    · by_cases asleep : s.pc = .waiting
      · simp [deliver, phase, event, asleep] at waiting
      · simp [deliver, asleep] at waiting
    · have still : s.pc = .waiting := by simpa [deliver, event] using waiting
      exact Or.inl ((awake still queued).resolve_right event)

/-- A step keeps `get` awake if and only if it is attended. -/
theorem attended_step (s : Getter P) (a : Action P) (t : Getter P) (h : Inv s) (awake : Awake s)
    (hs : (machine P).step s a = some t) : Inv t ∧ (Awake t ↔ Attended s a) := by
  have pulled := h.pulled_iff
  cases a with
  | kernel => exact ⟨inv_kernel h hs, iff_of_true (awake_kernel h awake hs) trivial⟩
  | push p =>
    cases hs
    have after : Inv ({ s with sched.channel := s.sched.channel.push p } : Getter P) :=
      ⟨fun _ => Or.inl rfl, h.running⟩
    refine ⟨after, ?_⟩
    unfold Awake Attended
    rw [after.pulled_iff, pulled]
    simp [AsyncChannel.push]
  | nbPut p =>
    cases hs
    exact ⟨⟨h.flagged, h.running⟩, iff_of_true awake trivial⟩
  | nbPull =>
    simp only [machine, step] at hs
    split at hs
    next => cases hs; exact ⟨h, iff_of_true awake trivial⟩
    next c got =>
      cases hs
      unfold AsyncChannel.nbPull at got
      split at got
      · cases got
      · -- the pull flags itself
        cases got
        refine ⟨⟨fun _ => Or.inl rfl, h.running⟩, iff_of_true ?_ trivial⟩
        exact fun _ _ => Or.inl ⟨rfl, Or.inl rfl⟩
  | call =>
    simp only [machine, step] at hs
    split at hs
    next enabled =>
      cases hs
      exact ⟨⟨h.flagged, fun _ => enabled.2⟩, iff_of_true (fun waiting => by cases waiting) trivial⟩
    next => cases hs
  | nbGet =>
    simp only [machine, step] at hs
    split at hs
    next enabled =>
      -- whatever `nb_get` finds, the process runs on
      cases got : s.sched.channel.nbGet with
      | none =>
        simp only [got, Option.some.injEq] at hs
        subst hs
        exact ⟨⟨h.flagged, fun _ => enabled.2⟩, iff_of_true (fun waiting => by cases waiting) trivial⟩
      | some r =>
        obtain ⟨p, c⟩ := r
        obtain ⟨rest, -, rfl⟩ := (AsyncChannel.nbGet_eq_some_iff _ _ _).mp got
        simp only [got, Option.some.injEq] at hs
        subst hs
        exact ⟨⟨h.flagged, fun _ => enabled.2⟩, iff_of_true (fun waiting => by cases waiting) trivial⟩
    next => cases hs
  | wait =>
    simp only [machine, step] at hs
    split at hs
    next enabled =>
      cases hs
      refine ⟨⟨h.flagged, fun _ => enabled.2⟩, ?_⟩
      simp [Awake, Attended, Pulled]
    next => cases hs

/-- In a run `get` is awake in every state if and only if every step is attended. -/
theorem awake_iff_attended {as : List (Action P)} {t : Getter P}
    (h : (machine P).run new as = some t) :
    (machine P).Always Awake new as ↔ (machine P).Along Attended new as :=
  Machine.always_iff_along attended_step inv_new (fun waiting => by cases waiting) h

theorem awake_iff_attended_of_one :
    (machine Nat).Always Awake new [.push 7, .call, .nbGet] ↔
      (machine Nat).Along Attended new [.push 7, .call, .nbGet] :=
  awake_iff_attended rfl

/-- The caller sleeps, a packet arrives, the update notifies the other event, and the caller
sleeps on. -/
theorem sleeps_on_a_packet : ¬ ∀ s : Getter Nat, (machine Nat).Reachable s → Awake s := by
  intro claim
  have awake := claim _ ⟨[.call, .nbGet, .wait, .push 7, .kernel, .kernel, .kernel, .kernel], rfl⟩
  exact absurd (awake rfl (by decide)) (by decide)

end Getter

end ScCosim.Async
