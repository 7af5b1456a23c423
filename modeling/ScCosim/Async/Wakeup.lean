import ScCosim.Kernel.Machine
import ScCosim.Async.Channel

/-!
# Wake-ups of a consumer that takes one packet per event

Any number of OS threads push while one SystemC process repeats
`wait(sysc_pushed_event())` and one `nb_get`. The queue keeps every packet in order; what
can be lost is a wake-up. One is lost for every push that finds the flag
`m_thread_did_push` still set, and one for every notification that comes while the process
is not suspended on the event: before its first wait, or at its work on a packet.
-/
namespace ScCosim.Async

open Kernel

/-- The consumer. The OS threads do not wait for its first wait, and at its work on a packet
it can be suspended on something else. -/
inductive ConsumerPc where
  /-- Suspended on the event. -/
  | waiting
  /-- Woken, on its way to `nb_get`. -/
  | getting
  /-- Not yet at its first wait, or at work on a packet. -/
  | away
  deriving DecidableEq, Repr

/-- One while a delivered wake-up has not been used. -/
@[simp] def ConsumerPc.woken : ConsumerPc → Nat
  | .getting => 1
  | _ => 0

structure Consumer (P : Type) where
  sched : Scheduled P
  pc : ConsumerPc
  /-- All packets pushed so far, oldest first. -/
  pushed : List P
  /-- All packets obtained so far, oldest first. -/
  obtained : List P
  /-- How many pushes found `m_thread_did_push` still set. -/
  coalesced : Nat
  /-- How many notifications of the event found the consumer not suspended on it. -/
  missed : Nat
  deriving Repr

namespace Consumer

variable {P : Type}

inductive Action (P : Type) where
  | push (p : P)
  | kernel
  | nbGet
  | wait
  deriving Repr

def new : Consumer P := ⟨Scheduled.new, .away, [], [], 0, 0⟩

def push (s : Consumer P) (p : P) : Consumer P :=
  { s with
    sched.channel := s.sched.channel.push p
    pushed := s.pushed ++ [p]
    coalesced := if s.sched.channel.mThreadDidPush then s.coalesced + 1 else s.coalesced }

/-- The notification phase triggers the event. -/
def Triggers (s : Consumer P) : Prop :=
  s.sched.phase = .notify ∧ s.sched.channel.mSyscPushedEvent = true

instance (s : Consumer P) : Decidable s.Triggers := inferInstanceAs (Decidable (_ ∧ _))

/-- The event wakes the consumer if it is waiting for it, and is lost otherwise. -/
def kernel (s : Consumer P) (k : Scheduled P) : Consumer P :=
  { s with
    sched := k
    pc := if s.Triggers ∧ s.pc = .waiting then .getting else s.pc
    missed := if s.Triggers ∧ s.pc ≠ .waiting then s.missed + 1 else s.missed }

def step (s : Consumer P) : Action P → Option (Consumer P)
  | .push p => some (s.push p)
  | .kernel =>
    (s.sched.kernelStep (s.pc != .getting)).map s.kernel
  | .nbGet =>
    if s.pc = .getting ∧ s.sched.phase = .evaluate then
      match s.sched.channel.nbGet with
      | none => some { s with pc := .away }
      | some (p, c) =>
        some { s with sched.channel := c, pc := .away, obtained := s.obtained ++ [p] }
    else none
  | .wait =>
    if s.pc = .away ∧ s.sched.phase = .evaluate then some { s with pc := .waiting } else none

def machine (P : Type) : Machine (Consumer P) (Action P) := ⟨new, step⟩

/-- Packets for which a wake-up is on its way or has just been delivered. -/
def announced (s : Consumer P) : Nat :=
  s.sched.channel.mThreadDidPush.toNat + s.sched.channel.mSyscPushedEvent.toNat +
    s.pc.woken

/-- What every interleaving preserves. -/
structure Inv (s : Consumer P) : Prop where
  fifo : s.pushed = s.obtained ++ s.sched.channel.mQueueToSysc.reverse
  count : s.sched.channel.mQueueToSysc.length = s.announced + s.coalesced + s.missed
  flagged : s.sched.channel.mThreadDidPush = true →
    s.sched.channel.updateRequested = true ∨ s.sched.phase = .handlePush
  suspended : s.sched.phase ≠ .evaluate → s.pc ≠ .getting
  early : s.sched.phase = .evaluate ∨ s.sched.phase = .handlePush →
    s.sched.channel.mSyscPushedEvent = false

theorem inv_new : Inv (new : Consumer P) := by
  constructor <;> simp [new, Scheduled.new, AsyncChannel.new, announced]

theorem inv_push {s : Consumer P} (h : Inv s) (p : P) : Inv (s.push p) where
  fifo := by simp [push, AsyncChannel.push, h.fifo]
  count := by
    have before := h.count
    simp only [push, AsyncChannel.push, announced, List.length_cons] at before ⊢
    -- a push either sets the flag or is counted as coalesced
    cases flag : s.sched.channel.mThreadDidPush <;> simp [flag] at before ⊢ <;> omega
  flagged := fun _ => Or.inl rfl
  suspended := h.suspended
  early := h.early

theorem kernel_of_other {s : Consumer P} (other : ¬ s.Triggers) (k : Scheduled P) :
    s.kernel k = { s with sched := k } := by
  simp [kernel, other]

theorem inv_kernel {s t : Consumer P} (h : Inv s) (hs : s.step .kernel = some t) : Inv t := by
  obtain ⟨k, hk, rfl⟩ := Option.map_eq_some_iff.mp hs
  obtain ⟨fifo, count, flagged, suspended, early⟩ := h
  unfold Scheduled.kernelStep at hk
  cases phase : s.sched.phase with
  | evaluate =>
    rw [kernel_of_other (by simp [Triggers, phase])]
    simp only [phase] at hk
    split at hk
    next enabled =>
      simp only [Bool.and_eq_true, bne_iff_ne] at enabled
      -- the update starts: the flag moves from requested to being handled
      cases hk
      constructor <;> simp_all [announced]
    next => cases hk
  | handlePush =>
    rw [kernel_of_other (by simp [Triggers, phase])]
    simp only [phase, Option.some.injEq] at hk
    subst hk
    have asleep := suspended (by simp [phase])
    have quiet := early (Or.inr phase)
    -- the flag is traded for the event, so the count of announced packets stays
    cases flag : s.sched.channel.mThreadDidPush <;>
      constructor <;> simp_all [announced, AsyncChannel.handlePush]
  | handleGet =>
    rw [kernel_of_other (by simp [Triggers, phase])]
    simp only [phase, Option.some.injEq] at hk
    subst hk
    -- the second block concerns the other direction only
    have asleep := suspended (by simp [phase])
    cases pull : s.sched.channel.mThreadDidPull <;>
      constructor <;> simp_all [announced, AsyncChannel.handleGet]
  | notify =>
    simp only [phase, Option.some.injEq] at hk
    subst hk
    have asleep := suspended (by simp [phase])
    -- the event becomes a wake-up or is missed, and is counted as one either way
    cases event : s.sched.channel.mSyscPushedEvent with
    | false =>
      rw [kernel_of_other (by simp [Triggers, event])]
      constructor <;> simp_all [announced]
    | true =>
      have triggers : s.Triggers := ⟨phase, event⟩
      cases pc : s.pc with
      | waiting => constructor <;> simp_all [announced, kernel]
      | getting => exact absurd pc asleep
      | away => constructor <;> simp_all [announced, kernel] <;> omega

theorem inv_nbGet {s t : Consumer P} (h : Inv s) (hs : s.step .nbGet = some t) : Inv t := by
  obtain ⟨fifo, count, flagged, suspended, early⟩ := h
  simp only [step] at hs
  split at hs
  next enabled =>
    obtain ⟨getting, evaluate⟩ := enabled
    cases got : s.sched.channel.nbGet with
    | none =>
      -- a delivered wake-up always finds its packet
      rw [AsyncChannel.nbGet_eq_none_iff] at got
      simp [got, announced, getting] at count
      omega
    | some r =>
      obtain ⟨p, c⟩ := r
      obtain ⟨rest, queue, rfl⟩ := (AsyncChannel.nbGet_eq_some_iff _ _ _).mp got
      simp only [got, Option.some.injEq] at hs
      subst hs
      constructor
      · -- the oldest packet is obtained
        simp [fifo, queue]
      · -- one wake-up is used and one packet gone
        simp only [announced, queue, getting, List.length_append, List.length_singleton] at count ⊢
        simp at count ⊢
        omega
      · exact flagged
      · exact fun late => absurd evaluate late
      · exact early
  next => cases hs

theorem inv_wait {s t : Consumer P} (h : Inv s) (hs : s.step .wait = some t) : Inv t := by
  obtain ⟨fifo, count, flagged, suspended, early⟩ := h
  simp only [step] at hs
  split at hs
  next enabled =>
    cases hs
    obtain ⟨away, evaluate⟩ := enabled
    refine ⟨fifo, ?_, flagged, fun _ => by simp, early⟩
    simpa [announced, away] using count
  next => cases hs

theorem inv_step (s : Consumer P) (a : Action P) (t : Consumer P) (h : Inv s)
    (hs : (machine P).step s a = some t) : Inv t := by
  cases a with
  | push p => cases hs; exact inv_push h p
  | kernel => exact inv_kernel h hs
  | nbGet => exact inv_nbGet h hs
  | wait => exact inv_wait h hs

theorem inv_reachable {s : Consumer P} (h : (machine P).Reachable s) : Inv s :=
  h.invariant inv_new inv_step

/-- Nothing pushed is lost, duplicated or reordered, and whenever the consumer is suspended
with no wake-up on its way, the packets left in the queue are as many as the pushes that
found `m_thread_did_push` still set and the notifications that found the consumer away. -/
theorem pushed_in_order_and_stranded_count {s : Consumer P} (h : (machine P).Reachable s) :
    s.obtained <+: s.pushed ∧
      (s.pc = .waiting → s.sched.wakeupPending = false →
        s.sched.channel.mQueueToSysc.length = s.coalesced + s.missed) := by
  obtain ⟨fifo, count, flagged, -, -⟩ := inv_reachable h
  refine ⟨⟨_, fifo.symm⟩, fun waiting quiet => ?_⟩
  simp only [Scheduled.wakeupPending, Bool.or_eq_false_iff, Bool.and_eq_false_iff] at quiet
  obtain ⟨unflagged, silent⟩ := quiet
  -- a flag still set would have an update on its way
  have flag : s.sched.channel.mThreadDidPush = false := by
    by_contra set
    have set : s.sched.channel.mThreadDidPush = true := by simpa using set
    rcases flagged set with requested | updating
    · simp [set, requested] at unflagged
    · simp [set, updating] at unflagged
  simpa [announced, flag, silent, waiting] using count

/-- A packet is obtained and a second one pushed while the consumer is at work on it. -/
def missedPush : List (Action Nat) :=
  [.wait, .push 7, .kernel, .kernel, .kernel, .kernel, .nbGet, .push 8, .kernel, .kernel, .kernel,
    .kernel, .wait]

def afterMissedPush : Consumer Nat := ((machine Nat).run new missedPush).getD new

theorem pushed_in_order_and_stranded_count_of_missed :
    [7] <+: [7, 8] ∧ (afterMissedPush.pc = .waiting →
      afterMissedPush.sched.wakeupPending = false →
        afterMissedPush.sched.channel.mQueueToSysc.length = 0 + 1) :=
  pushed_in_order_and_stranded_count (s := afterMissedPush) ⟨missedPush, rfl⟩

/-- Two pushes before one update: the consumer obtains the first packet and sleeps on with
the second one in the queue and no wake-up on its way. -/
theorem stranded_by_coalesced_push :
    ¬ ∀ s : Consumer Nat, (machine Nat).Reachable s →
      s.obtained <+: s.pushed ∧ (s.pc = .waiting → s.sched.channel.mQueueToSysc ≠ [] →
        s.sched.wakeupPending = true) := by
  intro claim
  have awake := (claim _ ⟨[.wait, .push 1, .push 2, .kernel, .kernel, .kernel, .kernel, .nbGet, .wait],
    rfl⟩).2 rfl (by decide)
  exact absurd awake (by decide)

/-- No push is coalesced here: the only one is notified before the first wait. -/
example : ((machine Nat).run new [.push 1, .kernel, .kernel, .kernel, .kernel, .wait]).map
    (fun s => (s.sched.channel.mQueueToSysc, s.sched.wakeupPending, s.coalesced, s.missed)) =
      some ([1], false, 0, 1) := rfl

end Consumer

end ScCosim.Async
