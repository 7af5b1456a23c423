import Mathlib.Data.List.Basic

/-!
# The asynchronous channel

`async_channel` connects an OS thread (push, wait_for_put, nb_pull) with a SystemC process
(nb_get, nb_put). Each method holds one mutex for its whole body, so it is one step here.
The two `wait` mutexes are one-shot semaphores: the constructor locks them, the other side
unlocks them, and a lock attempt on a locked one blocks.

The kernel runs `update()` after `async_request_update()`, in its update phase, while no
process runs; the delta notifications it makes are delivered in the notification phase that
follows. An OS thread can call the channel between any two of these steps.
-/
namespace ScCosim.Async

/-- `async_channel` over packet pointers `P`. -/
structure AsyncChannel (P : Type) where
  mQueueToSysc : List P
  mThreadDidPush : Bool
  mQueueFmSysc : List P
  mSyscDidPut : Bool
  mThreadDidPull : Bool
  /-- `m_sysc_pushed_event` has been notified and not yet delivered. -/
  mSyscPushedEvent : Bool
  /-- `m_sysc_pulled_event` has been notified and not yet delivered. -/
  mSyscPulledEvent : Bool
  /-- Locked? -/
  mMutexWaitGet : Bool
  /-- Locked? -/
  mMutexWaitPut : Bool
  /-- `async_request_update()` has been called and the kernel has not yet taken it up. -/
  updateRequested : Bool
  deriving Repr

namespace AsyncChannel

variable {P : Type}

/-- The constructor. -/
def new : AsyncChannel P where
  mQueueToSysc := []
  mThreadDidPush := false
  mQueueFmSysc := []
  mSyscDidPut := false
  mThreadDidPull := false
  mSyscPushedEvent := false
  mSyscPulledEvent := false
  mMutexWaitGet := true
  mMutexWaitPut := true
  updateRequested := false

def push (c : AsyncChannel P) (p : P) : AsyncChannel P :=
  { c with mQueueToSysc := p :: c.mQueueToSysc, mThreadDidPush := true, updateRequested := true }

/-- `none` is the source's `false`. -/
def nbGet (c : AsyncChannel P) : Option (P × AsyncChannel P) :=
  match c.mQueueToSysc.getLast? with
  | none => none
  | some p =>
    some (p, { c with mQueueToSysc := c.mQueueToSysc.dropLast, mMutexWaitGet := false })

def nbPut (c : AsyncChannel P) (p : P) : AsyncChannel P :=
  { c with mQueueFmSysc := p :: c.mQueueFmSysc, mSyscDidPut := true, mMutexWaitPut := false }

/-- `none` while the mutex is locked: the caller blocks. -/
def waitForPut (c : AsyncChannel P) : Option (AsyncChannel P) :=
  if c.mMutexWaitPut then none else some { c with mMutexWaitPut := true }

/-- `none` is the source's `false`. -/
def nbPull (c : AsyncChannel P) : Option (P × AsyncChannel P) :=
  match c.mQueueFmSysc.getLast? with
  | none => none
  | some p =>
    some (p, { c with
      mQueueFmSysc := c.mQueueFmSysc.dropLast, mThreadDidPull := true, mSyscDidPut := false,
      updateRequested := true })

/-- First block of `update()`, under `m_mutex_to_sysc`. -/
def handlePush (c : AsyncChannel P) : AsyncChannel P :=
  if c.mThreadDidPush then { c with mSyscPushedEvent := true, mThreadDidPush := false } else c

/-- Second block of `update()`, under `m_mutex_fm_sysc`. -/
def handleGet (c : AsyncChannel P) : AsyncChannel P :=
  if c.mThreadDidPull then { c with mSyscPulledEvent := true, mThreadDidPull := false } else c

end AsyncChannel

/-- Where the kernel is: evaluating processes, at one of the two blocks of `update()`, or
about to deliver the delta notifications. -/
inductive KernelPhase where
  | evaluate
  | handlePush
  | handleGet
  | notify
  deriving DecidableEq, Repr

/-- The kernel's view of one channel. -/
structure Scheduled (P : Type) where
  channel : AsyncChannel P
  phase : KernelPhase
  deriving Repr

namespace Scheduled

variable {P : Type}

def new : Scheduled P := ⟨AsyncChannel.new, .evaluate⟩

/-- One step of the kernel's update cycle. `suspended` says that no process is running; only
then does the evaluation phase end. Delivering the events to the processes that wait for
them is left to the machine that owns the processes. -/
def kernelStep (suspended : Bool) (s : Scheduled P) : Option (Scheduled P) :=
  match s.phase with
  | .evaluate =>
    if suspended && s.channel.updateRequested then
      some ⟨{ s.channel with updateRequested := false }, .handlePush⟩
    else none
  | .handlePush => some ⟨s.channel.handlePush, .handleGet⟩
  | .handleGet => some ⟨s.channel.handleGet, .notify⟩
  | .notify =>
    some ⟨{ s.channel with mSyscPushedEvent := false, mSyscPulledEvent := false }, .evaluate⟩

/-- A wake-up of the process that waits for `sysc_pushed_event()` is on its way: a push is
flagged and an update will see the flag, or the event is notified and not yet delivered. -/
def wakeupPending (s : Scheduled P) : Bool :=
  (s.channel.mThreadDidPush && (s.channel.updateRequested || s.phase == .handlePush)) ||
    s.channel.mSyscPushedEvent

end Scheduled

namespace AsyncChannel

variable {P : Type}

theorem nbGet_eq_none_iff (c : AsyncChannel P) : c.nbGet = none ↔ c.mQueueToSysc = [] := by
  unfold nbGet
  cases h : c.mQueueToSysc.getLast? with
  | none => simpa using h
  | some p =>
    have nonempty : c.mQueueToSysc ≠ [] := by
      intro empty
      simp [empty] at h
    simp [nonempty]

/-- What `nb_get` does when it returns true: it removes the oldest packet. -/
theorem nbGet_eq_some_iff (c d : AsyncChannel P) (p : P) :
    c.nbGet = some (p, d) ↔ ∃ rest, c.mQueueToSysc = rest ++ [p] ∧
      d = { c with mQueueToSysc := rest, mMutexWaitGet := false } := by
  unfold nbGet
  cases h : c.mQueueToSysc.getLast? with
  | none =>
    rw [List.getLast?_eq_none_iff] at h
    simp [h]
  | some q =>
    obtain ⟨rest, hrest⟩ := List.getLast?_eq_some_iff.mp h
    simp only [hrest, List.dropLast_concat, Option.some.injEq, Prod.mk.injEq]
    constructor
    · rintro ⟨rfl, rfl⟩
      exact ⟨rest, rfl, rfl⟩
    · rintro ⟨rest', same, rfl⟩
      obtain ⟨rfl, last⟩ := List.append_inj' same rfl
      exact ⟨by simpa using last, rfl⟩

end AsyncChannel

end ScCosim.Async
