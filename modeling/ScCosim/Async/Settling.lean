import ScCosim.Async.Exit

/-!
# The interface comes to rest

Apart from new requests every step of the two loops and of the kernel uses something up, so
between two requests only so many steps can be taken. And until a request that is no
`ASYNC_EXIT` has been answered some step can be taken, as long as the SystemC process is at
its first wait or past it whenever the OS thread pushes. A push that is notified before that
wait is never answered.
-/
namespace ScCosim.Async

open Kernel

/-! ### A rank -/

def KernelPhase.rank : KernelPhase → Nat
  | .evaluate => 0
  | .notify => 1
  | .handleGet => 2
  | .handlePush => 3

/-- What the kernel has to do: a round for an update requested, and a wake-up for a push. -/
def Scheduled.rank {P : Type} (k : Scheduled P) : Nat :=
  k.phase.rank + 4 * k.channel.updateRequested.toNat + 4 * k.channel.mThreadDidPush.toNat +
    4 * k.channel.mSyscPushedEvent.toNat

def SyscPc.rank : SyscPc → Nat
  | .waitEvent | .stopped => 0
  | .starting | .loop | .leaving => 1
  | .nbPut _ => 2
  | .transport _ _ => 3
  | .nbGet => 4

/-- A push and a pull give the kernel something to do. -/
def OsPc.rank : OsPc → Nat
  | .accept | .closed => 0
  | .reply _ => 1
  | .nbPull _ => 6
  | .waitForPut _ => 7
  | .push _ => 16

namespace Cosim

variable {s t : Cosim}

def rank (s : Cosim) : Nat := s.os.rank + s.sysc.rank + s.sched.rank

/-- A process that the kernel wakes is paid for by the event. -/
theorem rank_kernel {k : Scheduled Ptr} {suspended : Bool}
    (sched : s.sched.kernelStep suspended = some k) :
    s.deliver.rank + k.rank + 1 ≤ s.sysc.rank + s.sched.rank := by
  unfold Scheduled.kernelStep at sched
  split at sched
  case h_1 phase =>
    split at sched
    next enabled =>
      cases sched
      have requested : s.sched.channel.updateRequested = true := by
        rw [Bool.and_eq_true] at enabled
        exact enabled.2
      have same : s.deliver = s.sysc := by simp [deliver, phase]
      rw [same]
      simp only [Scheduled.rank, KernelPhase.rank, phase, requested]
      have due : true.toNat = 1 := rfl
      have paid : false.toNat = 0 := rfl
      omega
    next => cases sched
  case h_2 phase =>
    cases sched
    have other : s.deliver = s.sysc := by simp [deliver, phase]
    rw [other]
    unfold Scheduled.rank AsyncChannel.handlePush
    rw [phase]
    -- the flag becomes the event
    split
    next flag =>
      simp only [flag, KernelPhase.rank, Bool.toNat_true, Bool.toNat_false]
      omega
    next =>
      simp only [KernelPhase.rank]
      omega
  case h_3 phase =>
    cases sched
    have other : s.deliver = s.sysc := by simp [deliver, phase]
    rw [other]
    unfold Scheduled.rank AsyncChannel.handleGet
    rw [phase]
    split <;> simp only [KernelPhase.rank] <;> omega
  case h_4 phase =>
    cases sched
    unfold Scheduled.rank
    rw [phase]
    simp only [KernelPhase.rank, Bool.toNat_false, Nat.mul_zero, Nat.add_zero]
    by_cases wakes : s.sched.channel.mSyscPushedEvent = true ∧ s.sysc = .waitEvent
    · have woken : s.deliver = .nbGet := by simp [deliver, phase, wakes]
      rw [woken, wakes.1, wakes.2]
      simp [SyscPc.rank]
      omega
    · have asleep : s.deliver = s.sysc := by simp [deliver, phase, wakes]
      rw [asleep]
      omega

theorem rank_accept (os : s.os = .accept) (r : Request) : (s.accept r).rank = s.rank + 16 := by
  simp only [rank, accept, alloc, os, OsPc.rank]
  omega

/-- Every step but a new request lowers the rank. -/
theorem rank_step {a : Action} (hs : Transition s a t) (other : ∀ r, a ≠ .accept r) :
    t.rank + 1 ≤ s.rank := by
  cases hs with
  | accept r os => exact absurd rfl (other r)
  | push p os =>
    have flag := s.sched.channel.mThreadDidPush.toNat_le
    simp only [rank, push, os, OsPc.rank, Scheduled.rank, AsyncChannel.push, Bool.toNat_true]
    omega
  | waitForPut p c os locked =>
    simp only [AsyncChannel.waitForPut] at locked
    split at locked
    · cases locked
    · cases locked
      simp only [rank, os, OsPc.rank, Scheduled.rank]
      omega
  | nbPull p os =>
    unfold nbPull
    split
    next => simp only [rank, os, OsPc.rank]; omega
    next q c pulled =>
      simp only [AsyncChannel.nbPull] at pulled
      split at pulled
      · cases pulled
      · cases pulled
        simp only [rank, os, OsPc.rank, Scheduled.rank, Bool.toNat_true]
        omega
  | reply p os =>
    simp only [rank, reply, os]
    split <;> simp only [OsPc.rank] <;> omega
  | kernel k sched =>
    have less := rank_kernel sched
    simp only [rank]
    omega
  | nbGet sysc =>
    unfold nbGet
    split
    next =>
      simp only [rank, forward, alloc, sysc]
      split <;> simp only [SyscPc.rank] <;> omega
    next p c got =>
      obtain ⟨rest, -, rfl⟩ := (AsyncChannel.nbGet_eq_some_iff _ _ _).mp got
      simp only [rank, forward, alloc, sysc, Scheduled.rank]
      split <;> simp only [SyscPc.rank] <;> omega
  | target p call r sysc phase =>
    simp only [rank, target, sysc, SyscPc.rank]
    omega
  | nbPut p sysc =>
    simp only [rank, nbPut, sysc, SyscPc.rank, Scheduled.rank, AsyncChannel.nbPut]
    omega
  | loop sysc =>
    rcases sysc with sysc | sysc <;> simp only [rank, sysc, SyscPc.rank] <;> omega
  | stop sysc phase =>
    simp only [rank, sysc, SyscPc.rank]
    omega

theorem rank_le (s : Cosim) : s.rank ≤ s.os.rank + 19 := by
  have sysc : s.sysc.rank ≤ 4 := by cases s.sysc <;> simp [SyscPc.rank]
  have phase : s.sched.phase.rank ≤ 3 := by cases s.sched.phase <;> simp [KernelPhase.rank]
  have requested := s.sched.channel.updateRequested.toNat_le
  have pushed := s.sched.channel.mThreadDidPush.toNat_le
  have event := s.sched.channel.mSyscPushedEvent.toNat_le
  unfold rank Scheduled.rank
  omega

/-- An update will see that a packet was pushed. -/
def PushSeen (k : Scheduled Ptr) : Prop :=
  k.channel.mThreadDidPush = true → k.channel.updateRequested = true ∨ k.phase = .handlePush

theorem pushSeen_kernel {k l : Scheduled Ptr} {suspended : Bool} (h : PushSeen k)
    (step : k.kernelStep suspended = some l) : PushSeen l := by
  unfold Scheduled.kernelStep at step
  split at step
  case h_1 =>
    split at step
    · cases step; exact fun _ => Or.inr rfl
    · cases step
  case h_2 =>
    cases step
    intro flag
    unfold AsyncChannel.handlePush at flag
    split at flag
    · cases flag
    · next clear => exact absurd flag clear
  case h_3 phase =>
    cases step
    unfold AsyncChannel.handleGet
    intro flag
    split at flag <;> split <;> simp_all [PushSeen]
  case h_4 phase =>
    cases step
    intro flag
    rcases h flag with requested | other
    · exact Or.inl requested
    · simp [phase] at other

theorem pushSeen_reachable (h : machine.Reachable s) : PushSeen s.sched := by
  refine h.invariant (I := fun s => PushSeen s.sched) (fun flag => by cases flag) ?_
  intro s a t seen hs
  cases transition_of_step hs with
  | push p os => exact fun _ => Or.inl rfl
  | waitForPut p c os locked =>
    simp only [AsyncChannel.waitForPut] at locked
    split at locked
    · cases locked
    · cases locked; exact seen
  | nbPull p os =>
    unfold nbPull
    split
    next => exact seen
    next q c pulled =>
      simp only [AsyncChannel.nbPull] at pulled
      split at pulled
      · cases pulled
      · cases pulled; exact fun _ => Or.inl rfl
  | kernel k sched => exact pushSeen_kernel seen sched
  | nbGet sysc =>
    unfold nbGet
    split
    next => exact seen
    next p c got =>
      obtain ⟨rest, -, rfl⟩ := (AsyncChannel.nbGet_eq_some_iff _ _ _).mp got
      exact seen
  | accept | reply | target | nbPut | loop | stop => exact seen

/-! ### Pushes before the first wait -/

/-- The OS thread pushes only when the SystemC process has come to its first wait. -/
def Punctual (s : Cosim) (a : Action) : Prop := a = .push → s.sysc ≠ .starting

instance (s : Cosim) (a : Action) : Decidable (s.Punctual a) :=
  inferInstanceAs (Decidable (_ → _))

/-- No push is left without its wake-up. -/
structure Heard (s : Cosim) : Prop where
  started : ∀ p, s.os = .waitForPut p → s.sysc ≠ .starting
  announced : s.sched.channel.mQueueToSysc ≠ [] → s.sched.channel.mThreadDidPush = true ∨
    s.sched.channel.mSyscPushedEvent = true ∨ s.sysc = .nbGet

theorem heard_kernel (stage : s.Stage) (h : s.Heard) {k : Scheduled Ptr}
    (sched : s.sched.kernelStep s.sysc.suspended = some k) :
    Heard { s with sched := k, sysc := s.deliver } := by
  constructor
  · intro p os starting
    -- a process that is woken was past its first wait
    have before : s.sysc = .starting := by
      simp only [deliver] at starting
      split at starting
      · cases starting
      · exact starting
    exact h.started p os before
  · intro queue
    cases stage with
    | flagged p os fresh sysc content =>
      rcases content.kernelStep_flagged sched with content | ⟨-, -, content⟩
      · exact Or.inl content.flag
      · exact Or.inr (Or.inl content.event)
    | notified p os fresh sysc phase content =>
      rcases content.kernelStep_notified phase sched with ⟨-, -, content'⟩ | ⟨phase, -⟩
      · exact Or.inr (Or.inl content'.event)
      · -- the process is at its wait when the event comes
        have waiting : s.sysc = .waitEvent := sysc.resolve_right (h.started p os)
        exact Or.inr (Or.inr (by simp [deliver, phase, content.event, waiting]))
    | stranded p os fresh sysc content =>
      have heard := h.announced (by simp [content.toSysc])
      rcases sysc with sysc | sysc <;> simp [content.flag, content.event, sysc] at heard
    | woken p os fresh sysc content =>
      exact Or.inr (Or.inr ((deliver_of_quiet content.event).trans sysc))
    | idle _ _ content | made _ _ _ _ content | called _ _ _ _ _ _ content
    | returned _ _ _ _ content | served _ _ _ _ content | unlocked _ _ _ _ content
    | abandoned _ _ _ _ content => exact absurd (content.kernelStep_quiet sched).toSysc queue

theorem heard_nbGet (stage : s.Stage) (sysc : s.sysc = .nbGet) : s.nbGet.Heard := by
  have forwarded : ∀ (r : Cosim) (p : Ptr), (r.forward p).sysc ≠ .starting := by
    intro r p
    simp only [forward]
    split <;> simp
  cases got : s.sched.channel.nbGet with
  | none => exact absurd got (stage.nbGet_ne_none sysc)
  | some found =>
    obtain ⟨q, c⟩ := found
    simp only [nbGet, got]
    refine ⟨fun _ _ => forwarded _ _, fun queue => absurd ?_ queue⟩
    -- the queue held one packet
    have few := stage.queues
    obtain ⟨rest, held, rfl⟩ := (AsyncChannel.nbGet_eq_some_iff _ _ _).mp got
    rw [held, List.length_append, List.length_singleton] at few
    exact List.length_eq_zero_iff.mp (by simp only [forward]; omega)

theorem heard_step {a : Action} (stage : s.Stage) (h : s.Heard) (hs : Transition s a t)
    (punctual : s.Punctual a) : t.Heard := by
  -- a step of the process from a place other than its `nb_get`
  have moved : s.sysc ≠ .nbGet → s.sched.channel.mQueueToSysc ≠ [] →
      s.sched.channel.mThreadDidPush = true ∨ s.sched.channel.mSyscPushedEvent = true :=
    fun elsewhere queue => by simpa [elsewhere] using h.announced queue
  cases hs with
  | accept r os => exact ⟨fun p os' => (by cases os'), h.announced⟩
  | push p os => exact ⟨fun _ _ => punctual rfl, fun _ => Or.inl rfl⟩
  | waitForPut p c os locked =>
    simp only [AsyncChannel.waitForPut] at locked
    split at locked
    · cases locked
    · cases locked
      exact ⟨fun p os' => (by cases os'), h.announced⟩
  | nbPull p os =>
    unfold nbPull
    split
    next => exact ⟨fun p os' => (by cases os'), h.announced⟩
    next q c pulled =>
      simp only [AsyncChannel.nbPull] at pulled
      split at pulled
      · cases pulled
      · cases pulled
        exact ⟨fun p os' => (by cases os'), h.announced⟩
  | reply p os =>
    refine ⟨fun q os' => ?_, h.announced⟩
    simp only [reply] at os'
    split at os' <;> cases os'
  | kernel k sched => exact heard_kernel stage h sched
  | nbGet sysc => exact heard_nbGet stage sysc
  | target p call r sysc phase =>
    exact ⟨fun _ _ => by simp [target], fun queue => (moved (by simp [sysc]) queue).imp_right Or.inl⟩
  | nbPut p sysc =>
    exact ⟨fun _ _ => by simp [nbPut], fun queue => (moved (by simp [sysc]) queue).imp_right Or.inl⟩
  | loop sysc phase =>
    have elsewhere : s.sysc ≠ .nbGet := by rcases sysc with sysc | sysc <;> simp [sysc]
    exact ⟨fun _ _ => by simp, fun queue => (moved elsewhere queue).imp_right Or.inl⟩
  | stop sysc phase =>
    exact ⟨fun _ _ => by simp, fun queue => (moved (by simp [sysc]) queue).imp_right Or.inl⟩

theorem heard_new : new.Heard := ⟨fun p os => (by cases os), fun queue => absurd rfl queue⟩

/-- The event came before the first wait. -/
structure Stranded (s : Cosim) (p : Ptr) : Prop where
  os : s.os = .waitForPut p
  sysc : Asleep s.sysc
  content : s.sched.channel.Content [p] [] false false true

theorem stranded_step {a : Action} {p : Ptr} (h : s.Stranded p) (hs : Transition s a t) :
    t.Stranded p := by
  obtain ⟨os, sysc, content⟩ := h
  cases hs with
  | kernel k sched =>
    have same : s.deliver = s.sysc := deliver_of_quiet content.event
    exact ⟨os, same.symm ▸ sysc, content.kernelStep_quiet sched⟩
  | loop => exact ⟨os, Or.inl rfl, content⟩
  | waitForPut q c os' locked => exact absurd (content.waitForPut locked).1 (by decide)
  -- the OS thread waits, and the process is not on its way
  | accept _ os' | push _ os' | nbPull _ os' | reply _ os' => simp [os] at os'
  | nbGet sysc' | target _ _ _ sysc' | nbPut _ sysc' | stop sysc' => simp [sysc', Asleep] at sysc

/-- A request whose push was notified before the first wait is never answered. -/
theorem stranded_forever {as : List Action} {p : Ptr} (h : s.Stranded p)
    (hr : machine.run s as = some t) : t.os = .waitForPut p :=
  (Machine.run_invariant (m := machine) (I := fun s => s.Stranded p)
    (fun _ _ _ stranded hs => stranded_step stranded (transition_of_step hs)) h hr).os

example : ∃ s, machine.run new [.accept ⟨AsyncCommand.read.code, 0x40, [0, 0, 0, 0]⟩, .push, .kernel,
    .kernel, .kernel, .kernel, .loop] = some s ∧ s.Stranded 0 :=
  ⟨_, rfl, rfl, Or.inl rfl, rfl, rfl, rfl, rfl, rfl⟩

/-! ### Some step can be taken -/

/-- Outside of its evaluation phase the kernel goes on. -/
theorem kernel_enabled (other : s.sched.phase ≠ .evaluate) : ∃ t, machine.step s .kernel = some t := by
  simp only [machine, step, Scheduled.kernelStep]
  cases phase : s.sched.phase with
  | evaluate => exact absurd phase other
  | handlePush | handleGet | notify => exact ⟨_, rfl⟩

/-- A process that has not come to its first wait can come to it, after the kernel's round. -/
theorem enabled_of_starting (starting : s.sysc = .starting) :
    ∃ a t, (a = .loop ∨ a = .kernel) ∧ machine.step s a = some t := by
  by_cases phase : s.sched.phase = .evaluate
  · exact ⟨.loop, { s with sysc := .waitEvent }, Or.inl rfl, if_pos ⟨Or.inl starting, phase⟩⟩
  · obtain ⟨t, step⟩ := kernel_enabled phase
    exact ⟨.kernel, t, Or.inr rfl, step⟩

theorem enabled_of_flagged (seen : PushSeen s.sched) (flag : s.sched.channel.mThreadDidPush = true)
    (sysc : Resting s.sysc) :
    ∃ a t, (a = .loop ∨ a = .kernel) ∧ machine.step s a = some t := by
  by_cases phase : s.sched.phase = .evaluate
  · rcases sysc with asleep | looping
    · have requested : s.sched.channel.updateRequested = true := by
        rcases seen flag with requested | other
        · exact requested
        · simp [phase] at other
      have suspended : s.sysc.suspended = true := by
        rcases asleep with sysc | sysc <;> rw [sysc] <;> rfl
      exact ⟨.kernel, _, Or.inr rfl, by
        simp only [machine, step, Scheduled.kernelStep, phase, suspended, requested]
        rfl⟩
    · exact ⟨.loop, { s with sysc := .waitEvent }, Or.inl rfl, if_pos ⟨Or.inr looping, phase⟩⟩
  · obtain ⟨t, step⟩ := kernel_enabled phase
    exact ⟨.kernel, t, Or.inr rfl, step⟩

/-- Until the request in hand is answered some step can be taken, unless it is a request to
leave. -/
theorem enabled_of_serving (h : machine.Reachable s) (heard : s.Heard) {r : Request × Ptr}
    (last : s.record.accepted.getLast? = some r) (stays : r.1.command ≠ AsyncCommand.exit.code)
    {p : Ptr} (os : s.os = .push p ∨ s.os = .waitForPut p ∨ s.os = .nbPull p) :
    ∃ a t, (∀ q, a ≠ .accept q) ∧ a ≠ .reply ∧ s.Punctual a ∧ machine.step s a = some t := by
  obtain ⟨stage, runs⟩ := stage_reachable h
  -- any step of the kernel or of the loop will do
  have onward : (∃ a t, (a = .loop ∨ a = .kernel) ∧ machine.step s a = some t) →
      ∃ a t, (∀ q, a ≠ .accept q) ∧ a ≠ .reply ∧ s.Punctual a ∧ machine.step s a = some t := by
    rintro ⟨a, t, rfl | rfl, step⟩ <;> exact ⟨_, t, by simp, by simp, by simp [Punctual], step⟩
  cases stage with
  | idle os' =>
    rcases os' with os' | ⟨q, os', -⟩ <;> rcases os with os | os | os <;> simp [os] at os'
  | made q os' =>
    -- the push has to wait for the process to come to its first wait
    by_cases starting : s.sysc = .starting
    · exact onward (enabled_of_starting starting)
    · exact ⟨.push, _, by simp, by simp, fun _ => starting, by
        simp only [machine, step, os']
        rfl⟩
  | flagged q os' fresh sysc content =>
    exact onward (enabled_of_flagged (pushSeen_reachable h) content.flag sysc)
  | notified q os' fresh sysc phase =>
    obtain ⟨t, step⟩ := kernel_enabled (s := s) (by rcases phase with phase | phase <;> simp [phase])
    exact onward ⟨.kernel, t, Or.inr rfl, step⟩
  | stranded q os' fresh sysc content =>
    -- no punctual push is left without its wake-up
    have announced := heard.announced (by simp [content.toSysc])
    rcases sysc with sysc | sysc <;> simp [content.flag, content.event, sysc] at announced
  | woken q os' fresh sysc =>
    have phase := runs (by rw [sysc]; rfl)
    exact ⟨.nbGet, _, by simp, by simp, by simp [Punctual], by
      simp only [machine, step, sysc, phase]
      rfl⟩
  | called q call os' fresh sysc =>
    -- the target may return at once
    by_cases phase : s.sched.phase = .evaluate
    · exact ⟨.target ⟨.ok, []⟩, _, by simp, by simp, by simp [Punctual], by
        simp only [machine, step, sysc, phase]
        rfl⟩
    · obtain ⟨t, step⟩ := kernel_enabled phase
      exact onward ⟨.kernel, t, Or.inr rfl, step⟩
  | returned q os' sysc =>
    have phase := runs (by rw [sysc]; rfl)
    exact ⟨.nbPut, _, by simp, by simp, by simp [Punctual], by
      simp only [machine, step, sysc, phase]
      rfl⟩
  | served q os' sysc stays content =>
    exact ⟨.waitForPut, _, by simp, by simp, by simp [Punctual], by
      simp only [machine, step, os', AsyncChannel.waitForPut, content.locked]
      rfl⟩
  | unlocked q os' =>
    exact ⟨.nbPull, _, by simp, by simp, by simp [Punctual], by
      simp only [machine, step, os']
      rfl⟩
  | abandoned q os' sysc exit content log =>
    -- the packet in hand is that of the request accepted last
    have accepted := log.accepted
    rw [log.put, List.append_nil] at accepted
    have pointer : r.2 = q := by
      have whole := congrArg List.getLast? accepted
      rw [List.getLast?_map, last] at whole
      simpa using whole
    have command := (keepsCommands_reachable h r (List.mem_of_getLast? last)).2
    rw [pointer, exit] at command
    exact absurd command.symm stays

end Cosim

end ScCosim.Async
