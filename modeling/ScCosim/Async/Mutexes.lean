import Mathlib.Data.List.Count
import ScCosim.Kernel.Trace
import ScCosim.Async.Matching

/-!
# The mutexes that serve as semaphores

`nb_get` and `nb_put` each unlock a mutex that another function has to lock again in
between: `wait_for_get` and `wait_for_put`. The OS thread calls the second one for each of
its requests and the first one never.
-/
namespace ScCosim.Async

open Kernel

namespace Cosim

/-- The `unlock()` that the step performs, if any, is applied to a locked mutex. `nb_get` on
an empty queue returns before its `unlock()`. -/
def UnlocksLocked (s : Cosim) : Action → Prop
  | .nbGet => s.sched.channel.mQueueToSysc ≠ [] → s.sched.channel.mMutexWaitGet = true
  | .nbPut => s.sched.channel.mMutexWaitPut = true
  | _ => True

/-- Before its `nb_put` the process finds the mutex as `wait_for_put` left it. -/
theorem Stage.nbPut_locked {s : Cosim} (h : s.Stage) {p : Ptr} (sysc : s.sysc = .nbPut p) :
    s.sched.channel.mMutexWaitPut = true := by
  cases h with
  | returned _ _ _ _ content => exact content.locked
  | idle _ sysc' | made _ _ _ sysc' | flagged _ _ _ sysc' | notified _ _ _ sysc'
  | stranded _ _ _ sysc' | served _ _ sysc' | unlocked _ _ sysc' | abandoned _ _ sysc' =>
    simp [sysc, Resting, Asleep] at sysc'
  | _ => simp_all

/-- Only `nb_get` touches its mutex. -/
theorem waitGet_of_other {s t : Cosim} {a : Action} (hs : Transition s a t) (other : a ≠ .nbGet) :
    t.sched.channel.mMutexWaitGet = s.sched.channel.mMutexWaitGet := by
  cases hs with
  | accept | push | reply | target | nbPut | loop | stop => rfl
  | nbGet => exact absurd rfl other
  | waitForPut p c os locked =>
    unfold AsyncChannel.waitForPut at locked
    split at locked
    · cases locked
    · cases locked
      rfl
  | nbPull p os =>
    unfold nbPull AsyncChannel.nbPull
    cases s.sched.channel.mQueueFmSysc.getLast? <;> rfl
  | kernel k sched =>
    unfold Scheduled.kernelStep at sched
    split at sched
    · split at sched
      · cases sched
        rfl
      · cases sched
    · cases sched
      unfold AsyncChannel.handlePush
      split <;> rfl
    · cases sched
      unfold AsyncChannel.handleGet
      split <;> rfl
    · cases sched
      rfl

/-- An `nb_get` of a run finds a packet and leaves its mutex unlocked. -/
theorem nbGet_unlocks {s : Cosim} (h : s.Stage) (sysc : s.sysc = .nbGet) :
    s.sched.channel.mQueueToSysc ≠ [] ∧ s.nbGet.sched.channel.mMutexWaitGet = false := by
  have found := h.nbGet_ne_none sysc
  constructor
  · intro empty
    exact found ((AsyncChannel.nbGet_eq_none_iff _).mpr empty)
  · cases got : s.sched.channel.nbGet with
    | none => exact absurd got found
    | some r =>
      obtain ⟨rest, -, same⟩ := (AsyncChannel.nbGet_eq_some_iff _ _ _).mp got
      simp only [nbGet, got, forward]
      rw [same]

/-- What a run leaves of the mutex of `nb_get`, and whether its steps were valid. -/
structure Unlocked (as : List Action) (s : Cosim) : Prop where
  locked : s.sched.channel.mMutexWaitGet = true ↔ as.count .nbGet = 0
  valid : machine.Along UnlocksLocked new as ↔ as.count .nbGet ≤ 1

theorem unlocked_step {as : List Action} {s t : Cosim} {a : Action}
    (before : machine.run new as = some s) (h : Unlocked as s) (hs : machine.step s a = some t) :
    Unlocked (as ++ [a]) t := by
  have stage := (stage_reachable ⟨as, before⟩).1
  have transition := transition_of_step hs
  have along := machine.along_snoc (C := UnlocksLocked) (a := a) before
  by_cases get : a = .nbGet
  · subst get
    cases transition with
    | nbGet sysc =>
      obtain ⟨found, low⟩ := nbGet_unlocks stage sysc
      constructor
      · simp [low]
      · -- the mutex is locked only for the first one
        have first : UnlocksLocked s .nbGet ↔ as.count .nbGet = 0 := by
          simpa [UnlocksLocked, found] using h.locked
        rw [along, h.valid, first]
        simp
        omega
  · have same : (as ++ [a]).count .nbGet = as.count .nbGet := by
      simp [get]
    have valid : UnlocksLocked s a := by
      cases transition with
      | nbPut p sysc => exact stage.nbPut_locked sysc
      | nbGet => exact absurd rfl get
      | _ => trivial
    constructor
    · rw [waitGet_of_other transition get, same]
      exact h.locked
    · rw [along, same]
      simpa [valid] using h.valid

theorem unlocked_of_run {as : List Action} {s : Cosim} (h : machine.run new as = some s) :
    Unlocked as s := by
  apply Machine.run_history (I := Unlocked) _ _ h
  · exact ⟨by decide, iff_of_true trivial (by decide)⟩
  · intro as s a t before kept hs
    exact unlocked_step before kept hs

/-- Every unlock of a run is applied to a locked mutex, if and only if `nb_get` is called at
most once in it: nothing locks its mutex again. -/
theorem unlocks_locked_iff {as : List Action} {s : Cosim} (h : machine.run new as = some s) :
    machine.Along UnlocksLocked new as ↔ as.count .nbGet ≤ 1 :=
  (unlocked_of_run h).valid

theorem unlocks_locked_of_read :
    machine.Along UnlocksLocked new servedRead ↔ servedRead.count .nbGet ≤ 1 :=
  unlocks_locked_iff (s := afterRead) rfl

/-- The second of two reads, up to its `nb_get`. -/
def secondRead : List Action :=
  [.reply, .accept ⟨AsyncCommand.read.code, 0x40, [0, 0, 0, 0]⟩, .push, .kernel, .kernel, .kernel,
    .kernel]

/-- The `nb_get` of a second request unlocks an unlocked mutex. -/
theorem second_get_unlocks_unlocked :
    ¬ ∀ as s a t, machine.run new as = some s → machine.step s a = some t → UnlocksLocked s a := by
  intro claim
  have locked := claim (servedRead ++ secondRead) _ .nbGet _ rfl rfl
  exact absurd (locked (by decide)) (by decide)

end Cosim

end ScCosim.Async
